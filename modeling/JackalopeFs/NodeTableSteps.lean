import JackalopeFs.NodeTable

/-! # What the operations of the node table do

For every function of the table, what it does to the children of a directory, to the
aliases of a node and to the rest of it.  `Steps` collects them as one description of a
step; the invariants of the later modules are read off it.
-/

namespace JackalopeFs.NodeTable

open KeyedTables List Option PathNames TransitionRuns

variable {t : Nodes}

namespace Nodes

def aliasesOf (t : Nodes) (id : ℕ) : List (ℕ × Name) :=
  ((t.get id).map Node.aliases).getD []

theorem get_modify (id : ℕ) (f : Node → Node) (j : ℕ) :
    (t.modify id f).get j = if j = id then (t.get id).map f else t.get j :=
  lookup_modify f j

theorem isSome_modify (id : ℕ) (f : Node → Node) (j : ℕ) :
    ((t.modify id f).get j).isSome = (t.get j).isSome := by
  rw [get_modify]
  split_ifs with here
  · rw [here, isSome_map]
  · rfl

section Children

variable (p q : ℕ) (n m : Name) (id : ℕ)

theorem child_modify_of_children {f : Node → Node} (same : ∀ node, (f node).children = node.children) :
    (t.modify id f).child q m = t.child q m := by
  simp only [child, get_modify]
  split_ifs with here
  · subst here
    cases t.get q <;> simp [same]
  · rfl

theorem child_setChild :
    (t.setChild p n id).child q m =
      if q = p ∧ m = n ∧ (t.get p).isSome then some id else t.child q m := by
  simp only [setChild, child, get_modify]
  by_cases here : q = p
  · subst here
    rcases eq_none_or_eq_some (t.get q) with found | ⟨node, found⟩
    · simp [found]
    · by_cases name : m = n
      · subst name
        simp [found, AList.lookup_insert]
      · simp [found, name, AList.lookup_insert_ne name]
  · simp [here]

theorem child_clearChild :
    (t.clearChild p n).child q m = if q = p ∧ m = n then none else t.child q m := by
  simp only [clearChild, child, get_modify]
  by_cases here : q = p
  · subst here
    rcases eq_none_or_eq_some (t.get q) with found | ⟨node, found⟩
    · simp [found]
    · by_cases name : m = n
      · subst name
        simp [found, AList.lookup_erase]
      · simp [found, name, AList.lookup_erase_ne name]
  · simp [here]

theorem child_clearChildOf :
    (t.clearChildOf p n id).child q m =
      if q = p ∧ m = n ∧ t.child p n = some id then none else t.child q m := by
  simp only [clearChildOf, child, get_modify]
  by_cases here : q = p
  · subst here
    rcases eq_none_or_eq_some (t.get q) with found | ⟨node, found⟩
    · simp [found]
    · by_cases held : node.children.lookup n = some id
      · by_cases name : m = n
        · subst name
          simp [found, held, AList.lookup_erase]
        · simp [found, name, held, AList.lookup_erase_ne name]
      · simp [found, held]
  · simp [here]

@[simp] theorem child_dropAlias : (t.dropAlias id p n).child q m = t.child q m :=
  child_modify_of_children _ _ _ fun _ => rfl

@[simp] theorem child_moveAlias (old new : ℕ × Name) :
    (t.moveAlias id old new).child q m = t.child q m :=
  child_modify_of_children _ _ _ fun _ => rfl

@[simp] theorem child_setAliases (aliases : List (ℕ × Name)) :
    (t.setAliases id aliases).child q m = t.child q m :=
  child_modify_of_children _ _ _ fun _ => rfl

@[simp] theorem child_rootSeen (identity : Identity) :
    (t.rootSeen identity).child q m = t.child q m :=
  child_modify_of_children _ _ _ fun _ => rfl

@[simp] theorem child_uncount (k : ℕ) : (t.uncount id k).child q m = t.child q m :=
  child_modify_of_children _ _ _ fun _ => rfl

end Children

section Aliases

variable (p : ℕ) (n : Name) (id j : ℕ)

theorem aliasesOf_modify_of_aliases {f : Node → Node} (same : ∀ node, (f node).aliases = node.aliases) :
    (t.modify id f).aliasesOf j = t.aliasesOf j := by
  simp only [aliasesOf, get_modify]
  split_ifs with here
  · subst here
    cases t.get j <;> simp [same]
  · rfl

@[simp] theorem aliasesOf_setChild : (t.setChild p n id).aliasesOf j = t.aliasesOf j :=
  aliasesOf_modify_of_aliases _ _ fun _ => rfl

@[simp] theorem aliasesOf_clearChild : (t.clearChild p n).aliasesOf j = t.aliasesOf j :=
  aliasesOf_modify_of_aliases _ _ fun _ => rfl

@[simp] theorem aliasesOf_clearChildOf : (t.clearChildOf p n id).aliasesOf j = t.aliasesOf j :=
  aliasesOf_modify_of_aliases _ _ fun node => by split_ifs <;> rfl

@[simp] theorem aliasesOf_rootSeen (identity : Identity) :
    (t.rootSeen identity).aliasesOf j = t.aliasesOf j :=
  aliasesOf_modify_of_aliases _ _ fun _ => rfl

@[simp] theorem aliasesOf_uncount (k : ℕ) : (t.uncount id k).aliasesOf j = t.aliasesOf j :=
  aliasesOf_modify_of_aliases _ _ fun _ => rfl

theorem aliasesOf_dropAlias :
    (t.dropAlias id p n).aliasesOf j =
      if j = id then (t.aliasesOf id).filter (fun a => a ≠ (p, n)) else t.aliasesOf j := by
  simp only [dropAlias, aliasesOf, get_modify]
  split_ifs
  · cases t.get id <;> rfl
  · rfl

theorem aliasesOf_setAliases (aliases : List (ℕ × Name)) :
    (t.setAliases id aliases).aliasesOf j =
      if j = id ∧ (t.get id).isSome then aliases else t.aliasesOf j := by
  simp only [setAliases, aliasesOf, get_modify]
  by_cases here : j = id
  · subst here
    cases t.get j <;> simp
  · simp [here]

theorem aliasesOf_moveAlias (old new : ℕ × Name) :
    (t.moveAlias id old new).aliasesOf j =
      if j = id ∧ (t.get id).isSome then (t.aliasesOf id).filter (fun a => a ≠ old) ++ [new]
      else t.aliasesOf j := by
  simp only [moveAlias, aliasesOf, get_modify]
  by_cases here : j = id
  · subst here
    cases t.get j <;> simp
  · simp [here]

end Aliases

/-- The second table has the same nodes, under the same keys and with the same counts. -/
structure Refits (t t' : Nodes) : Prop where
  byKey : t'.byKey = t.byKey
  nodes : ∀ id, (t'.get id).map (fun node => (node.key, node.lookupCount)) =
    (t.get id).map fun node => (node.key, node.lookupCount)

theorem Refits.refl : Refits t t :=
  ⟨rfl, fun _ => rfl⟩

theorem Refits.trans {t' t'' : Nodes} (h : Refits t t') (h' : Refits t' t'') : Refits t t'' :=
  ⟨h'.byKey.trans h.byKey, fun id => (h'.nodes id).trans (h.nodes id)⟩

theorem Refits.isSome {t' : Nodes} (h : Refits t t') (id : ℕ) :
    (t'.get id).isSome = (t.get id).isSome := by
  have := congrArg Option.isSome (h.nodes id)
  simpa using this

theorem Refits.modify (id : ℕ) {f : Node → Node}
    (same : ∀ node, (f node).key = node.key ∧ (f node).lookupCount = node.lookupCount) :
    Refits t (t.modify id f) := by
  refine ⟨rfl, fun j => ?_⟩
  rw [get_modify]
  split_ifs with here
  · subst here
    cases t.get j with
    | none => rfl
    | some node => simp [same node]
  · rfl

theorem refits_setChild (p : ℕ) (n : Name) (id : ℕ) : Refits t (t.setChild p n id) :=
  .modify _ fun _ => ⟨rfl, rfl⟩

theorem refits_clearChild (p : ℕ) (n : Name) : Refits t (t.clearChild p n) :=
  .modify _ fun _ => ⟨rfl, rfl⟩

theorem refits_clearChildOf (p : ℕ) (n : Name) (id : ℕ) : Refits t (t.clearChildOf p n id) :=
  .modify _ fun node => by split_ifs <;> exact ⟨rfl, rfl⟩

theorem refits_dropAlias (id p : ℕ) (n : Name) : Refits t (t.dropAlias id p n) :=
  .modify _ fun _ => ⟨rfl, rfl⟩

theorem refits_setAliases (id : ℕ) (aliases : List (ℕ × Name)) :
    Refits t (t.setAliases id aliases) :=
  .modify _ fun _ => ⟨rfl, rfl⟩

theorem refits_moveAlias (id : ℕ) (old new : ℕ × Name) : Refits t (t.moveAlias id old new) :=
  .modify _ fun _ => ⟨rfl, rfl⟩

/-- The nodes other than the root that are marked unlinked are those without an alias. -/
def Marked (t : Nodes) : Prop :=
  ∀ id node, id ≠ root → t.get id = some node → (node.unlinked = true ↔ node.aliases = [])

variable {id : ℕ}

theorem aliasesOf_of_get {node : Node} (h : t.get id = some node) :
    t.aliasesOf id = node.aliases := by
  simp [aliasesOf, h]

theorem isSome_of_alias {a : ℕ × Name} (h : a ∈ t.aliasesOf id) :
    (t.get id).isSome = true := by
  unfold aliasesOf at h
  cases found : t.get id with
  | none => simp [found] at h
  | some => rfl

theorem isSome_of_child {p c : ℕ} {n : Name} (h : t.child p n = some c) :
    (t.get p).isSome = true := by
  unfold child at h
  cases found : t.get p with
  | none => simp [found] at h
  | some => rfl

namespace Marked

theorem modify (h : Marked t) (id : ℕ) {f : Node → Node}
    (kept : ∀ node, t.get id = some node → (node.unlinked = true ↔ node.aliases = []) →
      ((f node).unlinked = true ↔ (f node).aliases = [])) : Marked (t.modify id f) := by
  intro j node other found
  rw [get_modify] at found
  split_ifs at found with here
  · obtain ⟨before, known, rfl⟩ := map_eq_some_iff.mp found
    exact kept before known (h id before (here ▸ other) known)
  · exact h j node other found

theorem setChild (h : Marked t) (p : ℕ) (n : Name) (id : ℕ) : Marked (t.setChild p n id) :=
  h.modify _ fun _ _ kept => kept

theorem clearChild (h : Marked t) (p : ℕ) (n : Name) : Marked (t.clearChild p n) :=
  h.modify _ fun _ _ kept => kept

theorem clearChildOf (h : Marked t) (p : ℕ) (n : Name) (id : ℕ) : Marked (t.clearChildOf p n id) :=
  h.modify _ fun _ _ kept => by split_ifs <;> exact kept

theorem dropAlias (h : Marked t) (id p : ℕ) (n : Name) : Marked (t.dropAlias id p n) := by
  refine h.modify _ fun node _ kept => ?_
  simp only [Bool.or_eq_true, List.isEmpty_iff]
  refine ⟨fun gone => gone.elim (fun was => ?_) fun empty => empty, Or.inr⟩
  rw [kept.mp was]
  rfl

theorem setAliases (h : Marked t) (id : ℕ) {aliases : List (ℕ × Name)}
    (fewer : aliases.Sublist (t.aliasesOf id)) : Marked (t.setAliases id aliases) := by
  refine h.modify _ fun node found kept => ?_
  rw [aliasesOf_of_get found] at fewer
  simp only [Bool.or_eq_true, List.isEmpty_iff]
  refine ⟨fun gone => gone.elim (fun was => ?_) fun empty => empty, Or.inr⟩
  rw [kept.mp was] at fewer
  exact List.sublist_nil.mp fewer

theorem moveAlias (h : Marked t) (id : ℕ) (old new : ℕ × Name) (named : t.aliasesOf id ≠ []) :
    Marked (t.moveAlias id old new) := by
  refine h.modify _ fun node found kept => ?_
  rw [aliasesOf_of_get found] at named
  simp [mt kept.mp named]

end Marked

theorem get_freeFrom {fuel start id : ℕ} (h : t.freeFrom fuel start = some id) : t.get id = none := by
  induction fuel generalizing start with
  | zero => cases h
  | succ _ ih =>
    unfold freeFrom at h
    split_ifs at h with taken
    · exact ih h
    · cases h
      simpa using taken

/-- What the number of a file is: the root's, the one its key has, or a free one. -/
theorem idFor_cases {seen : Seen} (h : t.idFor seen = some id) :
    id = root ∨ t.byKey.lookup seen.key = some id ∨
      (t.byKey.lookup seen.key = none ∧ t.get id = none) := by
  unfold idFor at h
  split_ifs at h with isRoot own
  · exact .inl (Option.some.inj h).symm
  all_goals split at h
  · rename_i known
    exact .inr (.inl (h ▸ known))
  · rename_i unknown
    cases h
    exact .inr (.inr ⟨unknown, own.2.2⟩)
  · rename_i known
    exact .inr (.inl (h ▸ known))
  · rename_i unknown
    exact .inr (.inr ⟨unknown, get_freeFrom h⟩)

section Entering

variable (parent : ℕ) (name : Name) (id : ℕ)

theorem child_enter (q : ℕ) (m : Name) :
    (t.enter parent name id).child q m =
      if q = parent ∧ m = name ∧ (t.get parent).isSome then some id else t.child q m := by
  rw [← child_setChild]
  unfold enter
  split
  · exact child_dropAlias _ _ _ _ _
  · rfl

theorem aliasesOf_enter (j : ℕ) :
    (t.enter parent name id).aliasesOf j =
      if t.child parent name = some j then (t.aliasesOf j).filter fun a => a ≠ (parent, name)
      else t.aliasesOf j := by
  unfold enter
  cases held : t.child parent name with
  | none => simp
  | some previous =>
    by_cases here : j = previous
    · simp [aliasesOf_dropAlias, here]
    · simp [aliasesOf_dropAlias, here, Ne.symm here]

theorem refits_enter : Refits t (t.enter parent name id) := by
  unfold enter
  split
  · exact (refits_setChild parent name id).trans (refits_dropAlias _ _ _)
  · exact refits_setChild parent name id

theorem Marked.enter (h : Marked t) : Marked (t.enter parent name id) := by
  unfold Nodes.enter
  split
  · exact (h.setChild parent name id).dropAlias _ _ _
  · exact h.setChild parent name id

end Entering

section Registering

variable (id parent : ℕ) (name : Name) (seen : Seen)

theorem get_register_of_ne {j : ℕ} (ne : j ≠ id) :
    (t.register id parent name seen).get j = t.get j :=
  AList.lookup_insert_ne ne

theorem get_register :
    ∃ node, (t.register id parent name seen).get id = some node ∧ node.unlinked = false ∧
      node.aliases = (t.aliasesOf id).filter (fun a => a ≠ (parent, name)) ++ [(parent, name)] ∧
      node.lookupCount = ((t.get id).map Node.lookupCount).getD 0 + 1 ∧
      node.key = ((t.get id).map Node.key).getD (some seen.key) ∧
      ∀ m, node.children.lookup m = t.child id m := by
  refine ⟨_, AList.lookup_insert _, rfl, ?_, ?_, ?_, fun m => ?_⟩
  all_goals
    rcases eq_none_or_eq_some (t.get id) with found | ⟨node, found⟩ <;>
      simp [found, aliasesOf, child, Node.fresh]

theorem child_register (q : ℕ) (m : Name) :
    (t.register id parent name seen).child q m = t.child q m := by
  by_cases here : q = id
  · subst here
    obtain ⟨node, found, _, _, _, _, children⟩ := @get_register t q parent name seen
    simp [child, found, children]
  · simp only [child, get_register_of_ne id parent name seen here]

end Registering

/-- What registering a lookup under a number other than the root's does. -/
structure Registers (t : Nodes) (parent : ℕ) (name : Name) (seen : Seen) (id : ℕ) (t' : Nodes) :
    Prop where
  other : id ≠ root
  number : t.idFor seen = some id
  byKey : t'.byKey = t.byKey.insert seen.key id
  child : ∀ q m, t'.child q m =
    if q = parent ∧ m = name ∧ (t.get parent).isSome then some id else t.child q m
  aliases : ∀ j, t'.aliasesOf j =
    if j = id then (t.aliasesOf id).filter (fun a => a ≠ (parent, name)) ++ [(parent, name)]
    else if t.child parent name = some j then (t.aliasesOf j).filter fun a => a ≠ (parent, name)
    else t.aliasesOf j
  kept : ∀ j, j ≠ id → (t'.get j).map (fun node => (node.key, node.lookupCount)) =
    (t.get j).map fun node => (node.key, node.lookupCount)
  node : ∃ node, t'.get id = some node ∧ node.unlinked = false ∧ node.aliases ≠ [] ∧
    node.lookupCount = ((t.get id).map Node.lookupCount).getD 0 + 1 ∧
    node.key = ((t.get id).map Node.key).getD (some seen.key)
  marked : Marked t → Marked t'

structure Enters (t : Nodes) (parent : ℕ) (name : Name) (id : ℕ) (t' : Nodes) : Prop where
  refits : Refits t t'
  child : ∀ q m, t'.child q m =
    if q = parent ∧ m = name ∧ (t.get parent).isSome then some id else t.child q m
  others : ∀ j, j ≠ id → t'.aliasesOf j =
    if t.child parent name = some j then (t.aliasesOf j).filter fun a => a ≠ (parent, name)
    else t.aliasesOf j
  own : t'.aliasesOf id = t.aliasesOf id
  marked : Marked t → Marked t'

variable {parent : ℕ} {name : Name}

theorem setChild_enters (held : t.child parent name = some id) :
    Enters t parent name id (t.setChild parent name id) where
  refits := refits_setChild _ _ _
  child := fun q m => child_setChild _ _ _ _ _
  others := fun j ne => by
    rw [aliasesOf_setChild, if_neg fun same => ne (Option.some.inj (same.symm.trans held))]
  own := aliasesOf_setChild _ _ _ _
  marked := fun h => h.setChild _ _ _

theorem enter_enters (held : t.child parent name ≠ some id) :
    Enters t parent name id (t.enter parent name id) where
  refits := refits_enter _ _ _
  child := child_enter _ _ _
  others := fun j _ => aliasesOf_enter _ _ _ j
  own := by rw [aliasesOf_enter, if_neg held]
  marked := fun h => h.enter _ _ _

theorem Enters.register {seen : Seen} {entered : Nodes} (h : Enters t parent name id entered)
    (other : id ≠ root) (number : t.idFor seen = some id) :
    Registers t parent name seen id (entered.register id parent name seen) := by
  obtain ⟨node, found, unmarked, aliases, count, key, _⟩ :=
    @get_register entered id parent name seen
  have core := h.refits.nodes id
  refine ⟨other, number, ?_, fun q m => ?_, fun j => ?_, fun j ne => ?_,
    ⟨node, found, unmarked, by simp [aliases], ?_, ?_⟩, fun before j node' away found' => ?_⟩
  · simp only [Nodes.register, h.refits.byKey]
  · rw [child_register, h.child]
  · by_cases here : j = id
    · subst here
      rw [aliasesOf_of_get found, aliases, h.own, if_pos rfl]
    · rw [aliasesOf, get_register_of_ne _ _ _ _ here, ← aliasesOf, h.others j here, if_neg here]
  · rw [get_register_of_ne _ _ _ _ ne]
    exact h.refits.nodes j
  · have counts := congrArg (fun o => o.map Prod.snd) core
    simp only [Option.map_map, Function.comp_def] at counts
    rw [count, counts]
  · have keys := congrArg (fun o => o.map Prod.fst) core
    simp only [Option.map_map, Function.comp_def] at keys
    rw [key, keys]
  · by_cases here : j = id
    · subst here
      cases found.symm.trans found'
      simp [unmarked, aliases]
    · rw [get_register_of_ne _ _ _ _ here] at found'
      exact h.marked before j node' away found'

theorem insertLookup_registers {seen : Seen} {t' : Nodes} {told : Option ℕ}
    (h : t.insertLookup parent name seen = some (t', told)) :
    (t.idFor seen = some root ∧ t' = t ∧ told = none) ∨
      ∃ id, told = some id ∧ Registers t parent name seen id t' := by
  obtain ⟨id, number, made⟩ := map_eq_some_iff.mp h
  split_ifs at made with isRoot held
  · cases made
    exact .inl ⟨isRoot ▸ number, rfl, rfl⟩
  · cases made
    exact .inr ⟨id, rfl, (setChild_enters held).register isRoot number⟩
  · cases made
    exact .inr ⟨id, rfl, (enter_enters held).register isRoot number⟩

/-- Forgetting a node for good clears every name its aliases say leads to it. -/
theorem clearAliases (aliases : List (ℕ × Name)) (id : ℕ) :
    let cleared := aliases.foldl (fun t a => t.clearChildOf a.1 a.2 id) t
    Refits t cleared ∧ (∀ j, cleared.aliasesOf j = t.aliasesOf j) ∧ (Marked t → Marked cleared) ∧
      ∀ q m c, cleared.child q m = some c ↔ t.child q m = some c ∧ ¬(c = id ∧ (q, m) ∈ aliases) := by
  induction aliases generalizing t with
  | nil => exact ⟨.refl, fun _ => rfl, fun h => h, by simp⟩
  | cons a _ ih =>
    obtain ⟨refits, same, marked, child⟩ := @ih (t.clearChildOf a.1 a.2 id)
    refine ⟨(refits_clearChildOf _ _ _).trans refits, fun j => ?_, fun h => ?_, fun q m c => ?_⟩
    · exact (same j).trans (aliasesOf_clearChildOf _ _ _ _)
    · exact marked (h.clearChildOf _ _ _)
    · obtain ⟨p, n⟩ := a
      rw [foldl_cons, child, child_clearChildOf, mem_cons, Prod.mk.injEq]
      by_cases here : q = p ∧ m = n
      · obtain ⟨rfl, rfl⟩ := here
        by_cases held : t.child q m = some id
        · simp [held, eq_comm]
        · have other : t.child q m = some c → c ≠ id := by
            rintro found rfl
            exact held found
          simp only [held, and_false, if_false, true_or, and_true]
          exact and_congr_right fun found => by simp [other found]
      · have apart : ¬(q = p ∧ m = n ∧ t.child p n = some id) := fun both =>
          here ⟨both.1, both.2.1⟩
        simp [apart, here]

structure Forgets (t : Nodes) (ino : ℕ) (node : Node) (t' : Nodes) : Prop where
  gone : t'.get ino = none
  kept : ∀ j, j ≠ ino → (t'.get j).map (fun node => (node.key, node.lookupCount)) =
    (t.get j).map fun node => (node.key, node.lookupCount)
  byKey : t'.byKey = (t.remove ino node).byKey
  aliases : ∀ j, j ≠ ino → t'.aliasesOf j = t.aliasesOf j
  child : ∀ q m c, t'.child q m = some c ↔
    q ≠ ino ∧ t.child q m = some c ∧ ¬(c = ino ∧ (q, m) ∈ node.aliases)
  marked : Marked t → Marked t'

/-- What `forget` does: nothing to the root or to a number without a node, and otherwise it lowers
the count or forgets the node. -/
theorem forget_cases (ino n : ℕ) :
    ((ino = root ∨ t.get ino = none) ∧ (t.forget ino n).1 = t) ∨
      ∃ node, ino ≠ root ∧ t.get ino = some node ∧
        ((n < node.lookupCount ∧ (t.forget ino n).1 = t.uncount ino n) ∨
          (node.lookupCount ≤ n ∧ Forgets t ino node (t.forget ino n).1)) := by
  unfold forget
  split_ifs with isRoot
  · exact .inl ⟨.inl isRoot, rfl⟩
  cases found : t.get ino with
  | none => exact .inl ⟨.inr rfl, rfl⟩
  | some node =>
    refine .inr ⟨node, isRoot, rfl, ?_⟩
    simp only
    split_ifs with left
    · exact .inl ⟨by omega, rfl⟩
    · refine .inr ⟨by omega, ?_⟩
      have gone : (t.remove ino node).get ino = none := AList.lookup_erase _ _
      have kept : ∀ j, j ≠ ino → (t.remove ino node).get j = t.get j := fun j ne =>
        AList.lookup_erase_ne ne
      obtain ⟨refits, same, marked, child⟩ := @clearAliases (t.remove ino node) node.aliases ino
      refine ⟨?_, fun j ne => ?_, refits.byKey, fun j ne => ?_, fun q m c => ?_, fun before => ?_⟩
      · have := refits.isSome ino
        rw [gone] at this
        simpa using this
      · rw [refits.nodes, kept j ne]
      · rw [same, aliasesOf, kept j ne, ← aliasesOf]
      · rw [child]
        by_cases here : q = ino
        · subst here
          simp [Nodes.child, gone]
        · simp [Nodes.child, kept q here, here]
      · refine marked fun j node' other found' => ?_
        by_cases here : j = ino
        · subst here
          rw [gone] at found'
          cases found'
        · rw [kept j here] at found'
          exact before j node' other found'

/-- What taking the name `at` from the node `id` does. -/
structure Drops (t : Nodes) (here : ℕ × Name) (id : ℕ) (t' : Nodes) : Prop where
  refits : Refits t t'
  child : ∀ q m, t'.child q m = if (q, m) = here then none else t.child q m
  aliases : ∀ j, t'.aliasesOf j =
    if j = id then (t.aliasesOf j).filter fun a => a ≠ here else t.aliasesOf j
  marked : Marked t → Marked t'

theorem unlink_cases (parent : ℕ) (name : Name) :
    (t.child parent name = none ∧ t.unlink parent name = t) ∨
      ∃ id, t.child parent name = some id ∧ Drops t (parent, name) id (t.unlink parent name) := by
  unfold unlink
  cases held : t.child parent name with
  | none => exact .inl ⟨rfl, rfl⟩
  | some id =>
    refine .inr ⟨id, rfl, (refits_clearChild _ _).trans (refits_dropAlias _ _ _), fun q m => ?_,
      fun j => ?_, fun h => (h.clearChild _ _).dropAlias _ _ _⟩
    · simp only [child_dropAlias, child_clearChild, Prod.mk.injEq]
    · rw [aliasesOf_dropAlias]
      split_ifs with here
      · rw [here, aliasesOf_clearChild]
      · exact aliasesOf_clearChild _ _ _

theorem refits_unlink (parent : ℕ) (name : Name) : Refits t (t.unlink parent name) := by
  rcases @unlink_cases t parent name with ⟨_, same⟩ | ⟨_, _, done⟩
  · rw [same]
    exact .refl
  · exact done.refits

/-- What moving node `id` from the name `old` to the name `new` does. -/
structure Moves (t : Nodes) (old new : ℕ × Name) (id : ℕ) (t' : Nodes) : Prop where
  refits : Refits t t'
  child : ∀ q m, t'.child q m =
    if (q, m) = new ∧ (t.get new.1).isSome then some id
    else if (q, m) = old then none else t.child q m
  aliases : ∀ j, t'.aliasesOf j =
    if j = id then (t.aliasesOf j).filter (fun a => a ≠ old) ++ [new]
    else if t.child new.1 new.2 = some j then (t.aliasesOf j).filter fun a => a ≠ new
    else t.aliasesOf j
  marked : Marked t → Marked t'

theorem rename_cases {newparent : ℕ} {newname : Name}
    (linked : ∀ p n c, t.child p n = some c → (p, n) ∈ t.aliasesOf c) :
    t.rename parent name newparent newname = t ∨
      ∃ id, t.child parent name = some id ∧ t.child newparent newname ≠ some id ∧
        Moves t (parent, name) (newparent, newname) id
          (t.rename parent name newparent newname) := by
  unfold rename
  cases held : t.child parent name with
  | none => exact .inl rfl
  | some id =>
    simp only
    split_ifs with there
    · exact .inl rfl
    have apart : (parent, name) ≠ (newparent, newname) := by
      intro same
      obtain ⟨rfl, rfl⟩ := Prod.mk.inj same
      exact there held
    -- The target is looked at once the old name is gone, which is another one.
    have target : (t.clearChild parent name).child newparent newname =
        t.child newparent newname := by
      rw [child_clearChild, if_neg]
      rintro ⟨rfl, rfl⟩
      exact apart rfl
    have named := linked parent name id held
    have present : ∀ j, ((t.clearChild parent name).get j).isSome = (t.get j).isSome :=
      (refits_clearChild parent name).isSome
    have own : ((t.clearChild parent name).enter newparent newname id).aliasesOf id =
        t.aliasesOf id := by
      rw [aliasesOf_enter, target, if_neg there, aliasesOf_clearChild]
    have refits := (refits_clearChild parent name).trans
      (@refits_enter (t.clearChild parent name) newparent newname id)
    have isNode := refits.isSome id
    rw [isSome_of_alias named] at isNode
    refine .inr ⟨id, rfl, there, refits.trans (refits_moveAlias _ _ _), fun q m => ?_,
      fun j => ?_, fun h => ((h.clearChild _ _).enter _ _ _).moveAlias _ _ _ ?_⟩
    · rw [child_moveAlias, child_enter, child_clearChild, present]
      simp only [Prod.mk.injEq, and_assoc]
    · rw [aliasesOf_moveAlias]
      by_cases here : j = id
      · subst here
        simp [isNode, own]
      · simp [here, aliasesOf_enter, target]
    · rw [own]
      exact ne_nil_of_mem named

structure Swaps (t : Nodes) (here there : ℕ × Name) (a b : ℕ) (t' : Nodes) : Prop where
  refits : Refits t t'
  child : ∀ q m, t'.child q m =
    if (q, m) = here then some b else if (q, m) = there then some a else t.child q m
  aliases : ∀ j, t'.aliasesOf j =
    if j = a then (t.aliasesOf j).filter (fun x => x ≠ here) ++ [there]
    else if j = b then (t.aliasesOf j).filter (fun x => x ≠ there) ++ [here]
    else t.aliasesOf j
  marked : Marked t → Marked t'

theorem exchange_cases {newparent : ℕ} {newname : Name}
    (linked : ∀ p n c, t.child p n = some c → (p, n) ∈ t.aliasesOf c) :
    t.exchange parent name newparent newname = t ∨
      t.exchange parent name newparent newname = (t.unlink parent name).unlink newparent newname ∨
      ∃ a b, t.child parent name = some a ∧ t.child newparent newname = some b ∧ a ≠ b ∧
        Swaps t (parent, name) (newparent, newname) a b
          (t.exchange parent name newparent newname) := by
  unfold exchange
  split
  · rename_i a b heldA heldB
    split_ifs with same
    · exact .inl rfl
    refine .inr (.inr ⟨a, b, heldA, heldB, same, ?_⟩)
    have apart : (newparent, newname) ≠ (parent, name) := by
      intro eq
      obtain ⟨rfl, rfl⟩ := Prod.mk.inj eq
      exact same (Option.some.inj (heldA.symm.trans heldB))
    have set := (refits_setChild parent name b).trans
      (@refits_setChild (t.setChild parent name b) newparent newname a)
    have namedA := linked _ _ _ heldA
    have namedB := linked _ _ _ heldB
    have isA := set.isSome a
    rw [isSome_of_alias namedA] at isA
    have isB := (set.trans (refits_moveAlias a (parent, name) (newparent, newname))).isSome b
    rw [isSome_of_alias namedB] at isB
    have parents : (t.get newparent).isSome = true ∧ (t.get parent).isSome = true :=
      ⟨isSome_of_child heldB, isSome_of_child heldA⟩
    refine ⟨(set.trans (refits_moveAlias _ _ _)).trans (refits_moveAlias _ _ _), fun q m => ?_,
      fun j => ?_, fun h => ?_⟩
    · rw [child_moveAlias, child_moveAlias, child_setChild, child_setChild,
        (refits_setChild parent name b).isSome]
      simp only [parents.1, parents.2, and_true, Prod.mk.injEq]
      split_ifs with first second
      · obtain ⟨rfl, rfl⟩ := first
        exact absurd (Prod.ext second.1 second.2) apart
      · rfl
      · rfl
      · rfl
    · rw [aliasesOf_moveAlias, aliasesOf_moveAlias, aliasesOf_moveAlias]
      by_cases hereA : j = a
      · subst hereA
        simp [isA, same]
      · by_cases hereB : j = b
        · subst hereB
          simp [isB, hereA]
        · simp [hereA, hereB]
    · refine ((h.setChild _ _ _).setChild _ _ _).moveAlias _ _ _ ?_ |>.moveAlias _ _ _ ?_
      · simpa using ne_nil_of_mem namedA
      · rw [aliasesOf_moveAlias, if_neg fun both => same both.1.symm]
        simpa using ne_nil_of_mem namedB
  · exact .inr (.inl rfl)

/-- What taking one alias from node `id` does: the name goes with it if it led to the node. -/
structure Unnames (t : Nodes) (id : ℕ) (wrong : ℕ × Name) (t' : Nodes) : Prop where
  refits : Refits t t'
  child : ∀ q m, t'.child q m =
    if (q, m) = wrong ∧ t.child q m = some id then none else t.child q m
  others : ∀ j, j ≠ id → t'.aliasesOf j = t.aliasesOf j
  perm : (wrong :: t'.aliasesOf id).Perm (t.aliasesOf id)
  marked : Marked t → Marked t'

theorem perm_eraseP {α : Type*} {p : α → Bool} {l : List α} {a : α} (found : l.find? p = some a) :
    (a :: l.eraseP p).Perm l := by
  obtain ⟨holds, front, back, rfl, before⟩ := find?_eq_some_iff_append.mp found
  have skips : ∀ y ∈ front, ¬p y = true := fun y listed => by simpa using before y listed
  rw [eraseP_append_right _ skips, eraseP_cons_of_pos holds]
  exact perm_middle.symm

theorem aliasWasWrong_cases (id : ℕ) (path : Path) :
    (t.aliasWasWrong id path).1 = t ∨ ∃ wrong, Unnames t id wrong (t.aliasWasWrong id path).1 := by
  unfold aliasWasWrong
  split
  · rename_i dir last node _ found
    simp only
    split
    · rename_i wrong chosen
      have own := aliasesOf_of_get found
      have sub := (eraseP_sublist (l := node.aliases.reverse)
        (p := fun a => decide (a.2 = last ∧ t.namesTo (maxDepth + 1) a.1 = some dir.names))).reverse
      rw [reverse_reverse] at sub
      have isNode : (t.get id).isSome = true := by simp [found]
      refine .inr ⟨wrong, (refits_setAliases _ _).trans (refits_clearChildOf _ _ _), fun q m => ?_,
        fun j ne => ?_, ?_, fun h => ?_⟩
      · simp only [child_clearChildOf, child_setAliases, Prod.ext_iff, and_assoc]
        by_cases here : q = wrong.1 ∧ m = wrong.2
        · obtain ⟨rfl, rfl⟩ := here
          rfl
        · rw [if_neg fun both => here ⟨both.1, both.2.1⟩, if_neg fun both => here ⟨both.1, both.2.1⟩]
      · rw [aliasesOf_clearChildOf, aliasesOf_setAliases, if_neg fun both => ne both.1]
      · rw [aliasesOf_clearChildOf, aliasesOf_setAliases, if_pos ⟨rfl, isNode⟩, own]
        exact ((reverse_perm _).cons _).trans
          ((perm_eraseP chosen).trans (reverse_perm _))
      · refine (h.setAliases id ?_).clearChildOf _ _ _
        rw [own]
        exact sub
    · exact .inl rfl
  · exact .inl rfl

inductive Steps (t : Nodes) : Action → Nodes → Prop where
  | stays (action : Action) : Steps t action t
  | registers (parent : ℕ) (name : Name) (seen : Seen) (id : ℕ) (t' : Nodes)
      (done : Registers t parent name seen id t') : Steps t (.insertLookup parent name seen) t'
  | roots (identity : Identity) : Steps t (.rootSeen identity) (t.rootSeen identity)
  | counts (ino n : ℕ) (node : Node) (other : ino ≠ root) (found : t.get ino = some node)
      (left : n < node.lookupCount) :
      Steps t (.forget ino n) (t.uncount ino n)
  | forgets (ino n : ℕ) (node : Node) (t' : Nodes) (other : ino ≠ root)
      (found : t.get ino = some node) (spent : node.lookupCount ≤ n)
      (done : Forgets t ino node t') : Steps t (.forget ino n) t'
  | unnames (id : ℕ) (path : Path) (wrong : ℕ × Name) (t' : Nodes) (done : Unnames t id wrong t') :
      Steps t (.aliasWasWrong id path) t'
  | unlinks (parent : ℕ) (name : Name) : Steps t (.unlink parent name) (t.unlink parent name)
  | moves (parent : ℕ) (name : Name) (newparent : ℕ) (newname : Name) (id : ℕ) (t' : Nodes)
      (held : t.child parent name = some id) (away : t.child newparent newname ≠ some id)
      (done : Moves t (parent, name) (newparent, newname) id t') :
      Steps t (.rename parent name newparent newname) t'
  | parts (parent : ℕ) (name : Name) (newparent : ℕ) (newname : Name) :
      Steps t (.exchange parent name newparent newname)
        ((t.unlink parent name).unlink newparent newname)
  | swaps (parent : ℕ) (name : Name) (newparent : ℕ) (newname : Name) (a b : ℕ) (t' : Nodes)
      (heldA : t.child parent name = some a) (heldB : t.child newparent newname = some b)
      (apart : a ≠ b) (done : Swaps t (parent, name) (newparent, newname) a b t') :
      Steps t (.exchange parent name newparent newname) t'

theorem step_steps (linked : ∀ p n c, t.child p n = some c → (p, n) ∈ t.aliasesOf c)
    {action : Action} {t' : Nodes} (moved : step t action = some t') : Steps t action t' := by
  cases action with
  | insertLookup parent name seen =>
    obtain ⟨⟨made, told⟩, found, rfl⟩ := map_eq_some_iff.mp moved
    rcases insertLookup_registers found with ⟨_, rfl, _⟩ | ⟨id, _, done⟩
    · exact .stays _
    · exact .registers parent name seen id made done
  | rootSeen identity =>
    cases moved
    exact .roots identity
  | forget ino n =>
    cases moved
    rcases @forget_cases t ino n with
      ⟨_, same⟩ | ⟨node, other, found, (⟨left, same⟩ | ⟨spent, done⟩)⟩
    · rw [same]
      exact .stays _
    · rw [same]
      exact .counts ino n node other found left
    · exact .forgets ino n node _ other found spent done
  | aliasWasWrong id path =>
    cases moved
    rcases @aliasWasWrong_cases t id path with same | ⟨wrong, done⟩
    · rw [same]
      exact .stays _
    · exact .unnames id path wrong _ done
  | unlink parent name =>
    cases moved
    exact .unlinks parent name
  | rename parent name newparent newname =>
    cases moved
    rcases @rename_cases t parent name newparent newname linked with same | ⟨id, held, away, done⟩
    · rw [same]
      exact .stays _
    · exact .moves parent name newparent newname id _ held away done
  | exchange parent name newparent newname =>
    cases moved
    rcases @exchange_cases t parent name newparent newname linked with
      same | same | ⟨a, b, heldA, heldB, apart, done⟩
    · rw [same]
      exact .stays _
    · rw [same]
      exact .parts parent name newparent newname
    · exact .swaps parent name newparent newname a b _ heldA heldB apart done

end Nodes

end JackalopeFs.NodeTable
