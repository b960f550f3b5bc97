import JackalopeFs.NodeTableSteps

/-! # The shape of the node table

Names and aliases refer to each other, keys and numbers are inverse, and a node lives
as long as it is counted, whatever order the operations come in.  Only the distinctness
of a node's aliases needs a condition: `rename` and `exchange` add the new name without
looking whether it is listed already, and it can be, since forgetting a directory leaves
the names that other nodes have in it.
-/

namespace JackalopeFs.NodeTable

open KeyedTables List Option PathNames TransitionRuns

variable {t : Nodes}

namespace Nodes

/-- Names, aliases, keys and counts of the table agree. -/
structure WellFormed (t : Nodes) : Prop where
  root : (t.get root).isSome = true
  rootless : t.aliasesOf NodeTable.root = []
  keyed : ∀ key id, t.byKey.lookup key = some id ↔
    id ≠ NodeTable.root ∧ (t.get id).bind Node.key = some key
  owned : ∀ id node, id ≠ NodeTable.root → t.get id = some node → node.key.isSome = true
  linked : ∀ p n c, t.child p n = some c → (p, n) ∈ t.aliasesOf c
  unlinked : Marked t
  counted : ∀ id node, id ≠ NodeTable.root → t.get id = some node → 0 < node.lookupCount

theorem get_new {id : ℕ} (other : id ≠ NodeTable.root) : Nodes.new.get id = none := by
  refine AList.lookup_eq_none.mpr fun mem => other ?_
  exact mem_singleton.mp mem

namespace WellFormed

theorem new : WellFormed .new where
  root := rfl
  rootless := rfl
  keyed := fun key id => by
    by_cases here : id = NodeTable.root
    · simp [here, Nodes.new]
    · rw [get_new here]
      simp [Nodes.new]
  owned := fun id node other found => by simp [get_new other] at found
  linked := fun p n c found => by
    by_cases here : p = NodeTable.root
    · subst here
      cases found
    · simp [child, get_new here] at found
  unlinked := fun id node other found => by simp [get_new other] at found
  counted := fun id node other found => by simp [get_new other] at found

variable {t' : Nodes}

section

variable (h : WellFormed t)

include h

/-- The nodes keep their keys and counts, and names and aliases still agree. -/
theorem refit (refits : Refits t t')
    (rootless : t'.aliasesOf NodeTable.root = [])
    (linked : ∀ p n c, t'.child p n = some c → (p, n) ∈ t'.aliasesOf c) (marked : Marked t') :
    WellFormed t' := by
  have before : ∀ id node, t'.get id = some node → ∃ node', t.get id = some node' ∧
      node'.key = node.key ∧ node'.lookupCount = node.lookupCount := by
    intro id node found
    have same := refits.nodes id
    rw [found] at same
    obtain ⟨node', known, eq⟩ := map_eq_some_iff.mp same.symm
    simp only [Prod.mk.injEq] at eq
    exact ⟨node', known, eq.1, eq.2⟩
  refine ⟨?_, rootless, fun key id => ?_, fun id node other found => ?_, linked, marked,
    fun id node other found => ?_⟩
  · rw [refits.isSome]
    exact h.root
  · have keys : (t'.get id).bind Node.key = (t.get id).bind Node.key := by
      have same := congrArg (fun o => o.bind fun k : Option KeyNode × ℕ => k.1) (refits.nodes id)
      simpa [bind_map, Function.comp_def] using same
    rw [refits.byKey, keys]
    exact h.keyed key id
  · obtain ⟨node', known, key, _⟩ := before id node found
    exact key ▸ h.owned id node' other known
  · obtain ⟨node', known, _, count⟩ := before id node found
    exact count ▸ h.counted id node' other known

theorem child_ne_root {p c : ℕ} {n : Name} (found : t.child p n = some c) :
    c ≠ NodeTable.root := by
  rintro rfl
  have := h.linked p n _ found
  rw [h.rootless] at this
  cases this

theorem register {parent : ℕ} {name : Name} {seen : Seen} {id : ℕ}
    (done : Registers t parent name seen id t') : WellFormed t' := by
  obtain ⟨node, found, unmarked, named, count, key⟩ := done.node
  have core : ∀ j node', j ≠ id → t'.get j = some node' → ∃ before, t.get j = some before ∧
      before.key = node'.key ∧ before.lookupCount = node'.lookupCount := by
    intro j node' ne found'
    have same := done.kept j ne
    rw [found'] at same
    obtain ⟨before, known, eq⟩ := map_eq_some_iff.mp same.symm
    simp only [Prod.mk.injEq] at eq
    exact ⟨before, known, eq.1, eq.2⟩
  -- The key is the node's own: a known one that leads to it, or the new node's.
  have own : node.key = some seen.key := by
    rcases idFor_cases done.number with isRoot | known | ⟨_, absent⟩
    · exact absurd isRoot done.other
    · obtain ⟨_, keyed⟩ := (h.keyed _ _).mp known
      obtain ⟨before, there, same⟩ := bind_eq_some_iff.mp keyed
      rw [key, there]
      simpa using same
    · rw [key, absent]
      rfl
  refine ⟨?_, ?_, fun k j => ?_, fun j node' other found' => ?_, fun p n c held => ?_,
    done.marked h.unlinked, fun j node' other found' => ?_⟩
  · have same := congrArg Option.isSome (done.kept NodeTable.root done.other.symm)
    simpa [h.root] using same
  · rw [done.aliases, if_neg done.other.symm, if_neg fun held => h.child_ne_root held rfl, h.rootless]
  · rw [done.byKey]
    by_cases sameKey : k = seen.key
    · subst sameKey
      rw [AList.lookup_insert, Option.some.injEq]
      constructor
      · rintro rfl
        exact ⟨done.other, by rw [found]; exact own⟩
      · rintro ⟨other, holds⟩
        by_contra ne
        obtain ⟨node', there, keyed⟩ := bind_eq_some_iff.mp holds
        obtain ⟨before, known, same, _⟩ := core j node' (Ne.symm ne) there
        have known' := (h.keyed seen.key j).mpr ⟨other, by rw [known]; exact same.trans keyed⟩
        rcases idFor_cases done.number with isRoot | taken | ⟨free, _⟩
        · exact done.other isRoot
        · exact ne (Option.some.inj (taken.symm.trans known'))
        · rw [free] at known'
          cases known'
    · rw [AList.lookup_insert_ne sameKey, h.keyed]
      refine and_congr_right fun other => ?_
      by_cases here : j = id
      · subst here
        rw [found, bind_some, own]
        refine iff_of_false (fun holds => ?_) fun eq => sameKey (Option.some.inj eq).symm
        have known := (h.keyed k j).mpr ⟨other, holds⟩
        rcases idFor_cases done.number with isRoot | taken | ⟨_, absent⟩
        · exact done.other isRoot
        · have := (h.keyed _ _).mp taken
          exact sameKey (Option.some.inj (holds.symm.trans this.2))
        · rw [absent] at holds
          cases holds
      · have same := congrArg (fun o => o.bind fun k : Option KeyNode × ℕ => k.1) (done.kept j here)
        simp only [bind_map, Function.comp_def] at same
        rw [show (t'.get j).bind Node.key = (t.get j).bind Node.key from same]
  · by_cases here : j = id
    · subst here
      cases found.symm.trans found'
      simp [own]
    · obtain ⟨before, known, same, _⟩ := core j node' here found'
      exact same ▸ h.owned j before other known
  · rw [done.child] at held
    rw [done.aliases]
    split_ifs at held with entered
    · obtain ⟨rfl, rfl, _⟩ := entered
      cases held
      simp
    · have listed := h.linked p n c held
      have apart : (p, n) ≠ (parent, name) := by
        intro eq
        obtain ⟨rfl, rfl⟩ := Prod.mk.inj eq
        exact entered ⟨rfl, rfl, isSome_of_child held⟩
      split_ifs with same
      · subst same
        exact mem_append_left _ (mem_filter.mpr ⟨listed, decide_eq_true apart⟩)
      · exact mem_filter.mpr ⟨listed, decide_eq_true apart⟩
      · exact listed
  · by_cases here : j = id
    · subst here
      cases found.symm.trans found'
      omega
    · obtain ⟨before, known, _, same⟩ := core j node' here found'
      exact same ▸ h.counted j before other known

theorem forgotten {ino : ℕ} {node : Node} (other : ino ≠ NodeTable.root)
    (found : t.get ino = some node) (done : Forgets t ino node t') : WellFormed t' := by
  obtain ⟨key, owned⟩ := isSome_iff_exists.mp (h.owned ino node other found)
  have apart : ∀ j node', t'.get j = some node' → j ≠ ino := by
    rintro j node' found' rfl
    rw [done.gone] at found'
    cases found'
  have core : ∀ j node', t'.get j = some node' → ∃ before, t.get j = some before ∧
      before.key = node'.key ∧ before.lookupCount = node'.lookupCount := by
    intro j node' found'
    have same := done.kept j (apart j node' found')
    rw [found'] at same
    obtain ⟨before, known, eq⟩ := map_eq_some_iff.mp same.symm
    simp only [Prod.mk.injEq] at eq
    exact ⟨before, known, eq.1, eq.2⟩
  refine ⟨?_, ?_, fun k j => ?_, fun j node' away found' => ?_, fun p n c held => ?_,
    done.marked h.unlinked, fun j node' away found' => ?_⟩
  · have same := congrArg Option.isSome (done.kept NodeTable.root other.symm)
    simpa [h.root] using same
  · rw [done.aliases _ other.symm, h.rootless]
  · rw [done.byKey, remove, owned]
    by_cases here : j = ino
    · subst here
      simp only [done.gone, bind_none, reduceCtorEq, and_false, iff_false]
      intro found'
      by_cases sameKey : k = key
      · rw [sameKey, AList.lookup_erase] at found'
        cases found'
      · rw [AList.lookup_erase_ne sameKey, h.keyed, found, bind_some, owned] at found'
        exact sameKey (Option.some.inj found'.2).symm
    · have same := congrArg (fun o => o.bind fun k : Option KeyNode × ℕ => k.1) (done.kept j here)
      simp only [bind_map, Function.comp_def] at same
      rw [show (t'.get j).bind Node.key = (t.get j).bind Node.key from same, ← h.keyed]
      by_cases sameKey : k = key
      · subst sameKey
        rw [AList.lookup_erase]
        refine iff_of_false (by simp) fun taken => here ?_
        have own := (h.keyed k ino).mpr ⟨other, by rw [found]; exact owned⟩
        exact Option.some.inj (taken.symm.trans own)
      · rw [AList.lookup_erase_ne sameKey]
  · obtain ⟨before, known, same, _⟩ := core j node' found'
    exact same ▸ h.owned j before away known
  · obtain ⟨_, was, unlisted⟩ := (done.child p n c).mp held
    have listed := h.linked p n c was
    have ne : c ≠ ino := by
      rintro rfl
      rw [aliasesOf_of_get found] at listed
      exact unlisted ⟨rfl, listed⟩
    rw [done.aliases c ne]
    exact listed
  · obtain ⟨before, known, _, same⟩ := core j node' found'
    exact same ▸ h.counted j before away known

theorem unlink (parent : ℕ) (name : Name) :
    WellFormed (t.unlink parent name) := by
  rcases @unlink_cases t parent name with ⟨_, same⟩ | ⟨id, held, done⟩
  · rw [same]
    exact h
  · refine h.refit done.refits ?_ (fun p n c found => ?_) (done.marked h.unlinked)
    · rw [done.aliases, if_neg (h.child_ne_root held).symm, h.rootless]
    · rw [done.child] at found
      split_ifs at found with here
      have listed := h.linked p n c found
      rw [done.aliases]
      split_ifs with same
      · exact mem_filter.mpr ⟨listed, decide_eq_true here⟩
      · exact listed

theorem move {old new : ℕ × Name} {id : ℕ}
    (held : t.child old.1 old.2 = some id) (done : Moves t old new id t') : WellFormed t' := by
  refine h.refit done.refits ?_ (fun p n c found => ?_) (done.marked h.unlinked)
  · rw [done.aliases, if_neg (h.child_ne_root held).symm, if_neg fun led => h.child_ne_root led rfl,
      h.rootless]
  · rw [done.child] at found
    rw [done.aliases]
    split_ifs at found with entered left
    · cases found
      simp [entered.1]
    · have listed := h.linked p n c found
      have away : (p, n) ≠ new := by
        rintro rfl
        exact entered ⟨rfl, isSome_of_child found⟩
      split_ifs with same there
      · exact mem_append_left _ (mem_filter.mpr ⟨listed, decide_eq_true left⟩)
      · exact mem_filter.mpr ⟨listed, decide_eq_true away⟩
      · exact listed

theorem swap {here there : ℕ × Name} {a b : ℕ}
    (heldA : t.child here.1 here.2 = some a) (heldB : t.child there.1 there.2 = some b)
    (apart : a ≠ b) (done : Swaps t here there a b t') : WellFormed t' := by
  refine h.refit done.refits ?_ (fun p n c found => ?_) (done.marked h.unlinked)
  · rw [done.aliases, if_neg (h.child_ne_root heldA).symm, if_neg (h.child_ne_root heldB).symm,
      h.rootless]
  · rw [done.child] at found
    rw [done.aliases]
    split_ifs at found with first second
    · cases found
      simp [apart.symm, first]
    · cases found
      simp [second]
    · have listed := h.linked p n c found
      split_ifs with isA isB
      · exact mem_append_left _ (mem_filter.mpr ⟨listed, decide_eq_true first⟩)
      · exact mem_append_left _ (mem_filter.mpr ⟨listed, decide_eq_true second⟩)
      · exact listed

theorem unname {id : ℕ} {wrong : ℕ × Name} (done : Unnames t id wrong t') :
    WellFormed t' := by
  have other : id ≠ NodeTable.root := by
    rintro rfl
    have := done.perm
    rw [h.rootless] at this
    cases this.eq_nil
  refine h.refit done.refits ?_ (fun p n c found => ?_) (done.marked h.unlinked)
  · rw [done.others _ other.symm, h.rootless]
  · rw [done.child] at found
    split_ifs at found with gone
    have listed := h.linked p n c found
    by_cases same : c = id
    · subst same
      refine (mem_cons.mp (done.perm.symm.subset listed)).resolve_left ?_
      rintro rfl
      exact gone ⟨rfl, found⟩
    · rw [done.others c same]
      exact listed

theorem step {action : Action} (moved : Steps t action t') :
    WellFormed t' := by
  cases moved with
  | stays => exact h
  | registers _ _ _ _ _ done => exact h.register done
  | roots =>
    refine ⟨?_, ?_, fun key id => ?_, fun id node other found => ?_, fun p n c held => ?_,
      h.unlinked.modify _ fun _ _ kept => kept, fun id node other found => ?_⟩
    · rw [rootSeen, get_modify]
      simpa using h.root
    · rw [aliasesOf_rootSeen]
      exact h.rootless
    · refine (h.keyed key id).trans (and_congr_right fun other => ?_)
      rw [rootSeen, get_modify, if_neg other]
    · rw [rootSeen, get_modify, if_neg other] at found
      exact h.owned id node other found
    · rw [child_rootSeen] at held
      rw [aliasesOf_rootSeen]
      exact h.linked p n c held
    · rw [rootSeen, get_modify, if_neg other] at found
      exact h.counted id node other found
  | counts ino _ node other found =>
    refine ⟨?_, ?_, fun key id => ?_, fun id node' away found' => ?_, fun p m c held => ?_,
      h.unlinked.modify _ fun _ _ kept => kept, fun id node' away found' => ?_⟩
    · rw [uncount, get_modify, if_neg other.symm]
      exact h.root
    · rw [aliasesOf_uncount]
      exact h.rootless
    · refine (h.keyed key id).trans (and_congr_right fun _ => ?_)
      rw [uncount, get_modify]
      split_ifs with here
      · rw [here, found]
        rfl
      · rfl
    · rw [uncount, get_modify] at found'
      split_ifs at found' with here
      · rw [found] at found'
        cases found'
        exact h.owned ino node other found
      · exact h.owned id node' away found'
    · rw [child_uncount] at held
      rw [aliasesOf_uncount]
      exact h.linked p m c held
    · rw [uncount, get_modify] at found'
      split_ifs at found' with here
      · rw [found] at found'
        cases found'
        simp only
        omega
      · exact h.counted id node' away found'
  | forgets _ _ _ _ other found _ done => exact h.forgotten other found done
  | unnames _ _ _ _ done => exact h.unname done
  | unlinks parent name => exact h.unlink parent name
  | moves _ _ _ _ _ _ held _ done => exact h.move held done
  | parts parent name newparent newname => exact (h.unlink parent name).unlink newparent newname
  | swaps _ _ _ _ _ _ _ heldA heldB apart done =>
    exact h.swap heldA heldB apart done

end

end WellFormed

def Distinct (t : Nodes) : Prop :=
  ∀ id, (t.aliasesOf id).Nodup

theorem Distinct.new : Distinct .new := by
  intro id
  by_cases here : id = root
  · subst here
    exact nodup_nil
  · simp [aliasesOf, get_new here]

theorem nodup_moved {l : List (ℕ × Name)} {old new : ℕ × Name} (h : l.Nodup) (fresh : new ∉ l) :
    (l.filter (fun a => a ≠ old) ++ [new]).Nodup := by
  refine nodup_append.mpr ⟨h.filter _, nodup_singleton _, fun a mem b single => ?_⟩
  rw [mem_singleton.mp single]
  rintro rfl
  exact fresh (mem_filter.mp mem).1

theorem nodup_renewed {l : List (ℕ × Name)} {new : ℕ × Name} (h : l.Nodup) :
    (l.filter (fun a => a ≠ new) ++ [new]).Nodup := by
  refine nodup_append.mpr ⟨h.filter _, nodup_singleton _, fun a mem b single => ?_⟩
  rw [mem_singleton.mp single]
  simpa using (mem_filter.mp mem).2

theorem Distinct.unlink (h : Distinct t) (parent : ℕ) (name : Name) :
    Distinct (t.unlink parent name) := by
  rcases @unlink_cases t parent name with ⟨_, same⟩ | ⟨id, held, done⟩
  · rw [same]
    exact h
  · intro j
    rw [done.aliases]
    split_ifs
    · exact (h j).filter _
    · exact h j

/-- A node is renamed or exchanged only to a name it does not list already. -/
def namesApart (t : Nodes) : Action → Bool
  | .rename parent name newparent newname =>
    (t.child parent name).all fun id => t.child newparent newname = some id ||
      !(t.aliasesOf id).contains (newparent, newname)
  | .exchange parent name newparent newname =>
    (t.child parent name).all fun a => (t.child newparent newname).all fun b =>
      a = b || (!(t.aliasesOf a).contains (newparent, newname) &&
        !(t.aliasesOf b).contains (parent, name))
  | _ => true

theorem Distinct.step (h : Distinct t) {action : Action} {t' : Nodes}
    (apart : t.namesApart action = true) (moved : Steps t action t') : Distinct t' := by
  cases moved with
  | stays => exact h
  | registers _ _ _ id _ done =>
    intro j
    rw [done.aliases]
    split_ifs with here
    · exact nodup_renewed (h id)
    · exact (h j).filter _
    · exact h j
  | roots =>
    intro j
    rw [aliasesOf_rootSeen]
    exact h j
  | counts =>
    intro j
    rw [aliasesOf_uncount]
    exact h j
  | forgets ino _ _ _ _ _ _ done =>
    intro j
    by_cases here : j = ino
    · subst here
      simp [aliasesOf, done.gone]
    · rw [done.aliases j here]
      exact h j
  | unnames id _ _ _ done =>
    intro j
    by_cases here : j = id
    · subst here
      exact (done.perm.nodup_iff.mpr (h j)).of_cons
    · rw [done.others j here]
      exact h j
  | unlinks parent name => exact h.unlink parent name
  | moves _ _ newparent newname id _ held away done =>
    have fresh : (newparent, newname) ∉ t.aliasesOf id := by
      simpa [namesApart, held, away] using apart
    intro j
    rw [done.aliases]
    split_ifs with here there
    · subst here
      exact nodup_moved (h j) fresh
    · exact (h j).filter _
    · exact h j
  | parts parent name newparent newname => exact (h.unlink parent name).unlink newparent newname
  | swaps parent name newparent newname a b _ heldA heldB ne done =>
    have fresh : (newparent, newname) ∉ t.aliasesOf a ∧ (parent, name) ∉ t.aliasesOf b := by
      simpa [namesApart, heldA, heldB, ne] using apart
    intro j
    rw [done.aliases]
    split_ifs with isA isB
    · subst isA
      exact nodup_moved (h j) fresh.1
    · subst isB
      exact nodup_moved (h j) fresh.2
    · exact h j

/-- A node leaves the table exactly when a `forget` takes its last lookup, and with it go the names
that led to it. -/
theorem leaves_iff (h : WellFormed t) {action : Action} {t' : Nodes}
    (moved : NodeTable.step t action = some t') {id : ℕ} {node : Node} (found : t.get id = some node) :
    (t'.get id = none ↔ id ≠ root ∧ ∃ n, action = .forget id n ∧ node.lookupCount ≤ n) ∧
      (t'.get id = none → ∀ p n, t'.child p n ≠ some id) := by
  have after := h.step (step_steps h.linked moved)
  refine ⟨⟨fun gone => ?_, ?_⟩, fun gone p n led => ?_⟩
  · have kept : ∀ {s : Nodes}, Refits t s → s.get id ≠ none := by
      intro s refits absent
      have := refits.isSome id
      simp [absent, found] at this
    cases step_steps h.linked moved with
    | stays => rw [found] at gone; cases gone
    | registers _ _ _ j _ done =>
      by_cases here : id = j
      · subst here
        obtain ⟨node', there, _⟩ := done.node
        rw [there] at gone
        cases gone
      · have same := congrArg Option.isSome (done.kept id here)
        simp [gone, found] at same
    | roots =>
      rw [rootSeen, get_modify] at gone
      split_ifs at gone with here
      · simp [← here, found] at gone
      · rw [found] at gone
        cases gone
    | counts _ _ _ _ there =>
      rw [uncount, get_modify] at gone
      split_ifs at gone with here
      · simp [there] at gone
      · rw [found] at gone
        cases gone
    | forgets ino n _ _ other there spent done =>
      by_cases here : id = ino
      · subst here
        cases found.symm.trans there
        exact ⟨other, n, rfl, spent⟩
      · have same := congrArg Option.isSome (done.kept id here)
        simp [gone, found] at same
    | unnames _ _ _ _ done => exact absurd gone (kept done.refits)
    | unlinks parent name => exact absurd gone (kept (refits_unlink parent name))
    | moves _ _ _ _ _ _ _ _ done => exact absurd gone (kept done.refits)
    | parts parent name =>
      exact absurd gone (kept ((refits_unlink parent name).trans (refits_unlink _ _)))
    | swaps _ _ _ _ _ _ _ _ _ _ done =>
      exact absurd gone (kept done.refits)
  · rintro ⟨other, n, rfl, spent⟩
    cases moved
    rcases @forget_cases t id n with
      ⟨(isRoot | absent), _⟩ | ⟨before, _, there, (⟨left, _⟩ | ⟨_, done⟩)⟩
    · exact absurd isRoot other
    · rw [absent] at found
      cases found
    · cases found.symm.trans there
      omega
    · exact done.gone
  · have := isSome_of_alias (after.linked p n id led)
    simp [gone] at this

/-- Every state of a run that moves no node to a name it lists is well formed, and from it a node
leaves exactly when its last lookup is taken. -/
theorem well_formed_of_reachable (h : machine.ReachableUnder (fun t a => t.namesApart a = true) t) :
    (t.get NodeTable.root).isSome = true ∧
    (∀ key id, t.byKey.lookup key = some id ↔
      id ≠ NodeTable.root ∧ ∃ node, t.get id = some node ∧ node.key = some key) ∧
    (∀ id node, id ≠ NodeTable.root → t.get id = some node →
      node.key.isSome = true ∧ 0 < node.lookupCount) ∧
    (∀ p n c, t.child p n = some c → ∃ node, t.get c = some node ∧ (p, n) ∈ node.aliases) ∧
    (∀ id node, t.get id = some node → node.aliases.Nodup) ∧
    (∀ id node, id ≠ NodeTable.root → t.get id = some node →
      (node.unlinked = true ↔ node.aliases = [])) ∧
    ∀ action t', machine.step t action = some t' → ∀ id node, t.get id = some node →
      (t'.get id = none ↔
        id ≠ NodeTable.root ∧ ∃ n, action = .forget id n ∧ node.lookupCount - n = 0) ∧
      (t'.get id = none → ∀ p n, t'.child p n ≠ some id) := by
  obtain ⟨shape, distinct⟩ : WellFormed t ∧ Distinct t :=
    Machine.ReachableUnder.invariant (P := fun t => WellFormed t ∧ Distinct t) ⟨.new, .new⟩
      (fun t action t' ⟨shape, distinct⟩ apart moved =>
        have moves := step_steps shape.linked moved
        ⟨shape.step moves, distinct.step apart moves⟩) h
  refine ⟨shape.root, fun key id => ?_, fun id node other found =>
    ⟨shape.owned id node other found, shape.counted id node other found⟩, fun p n c held => ?_,
    fun id node found => ?_, shape.unlinked, fun action t' moved id node found => ?_⟩
  · rw [shape.keyed, Option.bind_eq_some_iff]
  · have listed := shape.linked p n c held
    obtain ⟨node, found⟩ := Option.isSome_iff_exists.mp (isSome_of_alias listed)
    exact ⟨node, found, aliasesOf_of_get found ▸ listed⟩
  · exact aliasesOf_of_get found ▸ distinct id
  · simpa only [Nat.sub_eq_zero_iff_le] using leaves_iff shape moved found

/-- A hard link renamed to a name that is free. -/
theorem well_formed_after_rename :
    ∃ t, machine.ReachableUnder (fun t a => t.namesApart a = true) t ∧
      t.aliasesOf 11 = [(10, ⟨[98], by decide⟩), (10, ⟨[99], by decide⟩)] ∧
      ∀ id node, t.get id = some node → node.aliases.Nodup := by
  let a : Name := ⟨[97], by decide⟩
  let b : Name := ⟨[98], by decide⟩
  let c : Name := ⟨[99], by decide⟩
  let dir : Seen := ⟨10, ⟨1, [10]⟩, false, .directory⟩
  let file : Seen := ⟨11, ⟨1, [11]⟩, false, .regular⟩
  obtain ⟨t, reached, named⟩ := machine.exists_of_runWhile
    (p := fun t => decide (t.aliasesOf 11 = [(10, b), (10, c)]))
    (by decide +kernel : (machine.runWhile namesApart machine.initial [.insertLookup 1 a dir,
      .insertLookup 10 b file, .insertLookup 1 a file, .rename 1 a 10 c]).any _ = true)
  exact ⟨t, reached, of_decide_eq_true named, (well_formed_of_reachable reached).2.2.2.2.1⟩

/-- A file may list a name twice: it has one in a directory that was forgotten, and is renamed to it
once the directory is known again. -/
theorem renamed_alias_listed_twice :
    let a : Name := ⟨[97], by decide⟩
    let b : Name := ⟨[98], by decide⟩
    let x : Name := ⟨[120], by decide⟩
    let dir : Seen := ⟨10, ⟨1, [10]⟩, false, .directory⟩
    let file : Seen := ⟨11, ⟨1, [11]⟩, false, .regular⟩
    ∃ t, machine.run [.insertLookup 1 a dir, .insertLookup 10 b file, .insertLookup 1 x file,
        .forget 10 1, .insertLookup 1 a dir, .rename 1 x 10 b] = some t ∧ machine.Reachable t ∧
      ∃ node, t.get 11 = some node ∧ ¬node.aliases.Nodup := by
  intro a b x dir file
  obtain ⟨t, ends, reached, twice⟩ := machine.exists_of_run
    (p := fun t => !decide (t.aliasesOf 11).Nodup)
    (by decide +kernel : (machine.run [.insertLookup 1 a dir, .insertLookup 10 b file,
      .insertLookup 1 x file, .forget 10 1, .insertLookup 1 a dir, .rename 1 x 10 b]).any _ = true)
  have repeats : ¬(t.aliasesOf 11).Nodup := by simpa using twice
  cases found : t.get 11 with
  | none => simp [aliasesOf, found] at repeats
  | some node => exact ⟨t, ends, reached, node, found, aliasesOf_of_get found ▸ repeats⟩

end Nodes

end JackalopeFs.NodeTable
