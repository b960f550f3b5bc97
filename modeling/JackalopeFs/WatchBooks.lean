import JackalopeFs.ForestEdges
import JackalopeFs.WatchTable

/-! # The books of the watch table

The table's map from descriptors to paths, its count and its tree say the same thing in
three ways.  `Fits` is that agreement: what is recorded is, up to order, the root, what the
tree's watched nodes are collected to, and a list of directories on their way that are
recorded and not in the tree.  Together with it goes a relation between the system and the
set of recorded descriptors, of which only the effect of each system call is assumed, so
that the same lemmas serve several relations.

Every function of the table is followed here, the ones that arm a path and check the tree
again at the end.
-/

namespace JackalopeFs.WatchTable

open EventWindow List NamedForests PathNames

set_option linter.unusedSectionVars false

variable {System Dir Wd : Type} [DecidableEq Wd]

/-- What the table has recorded, by the names of the paths. -/
def Table.recorded (t : Table System Wd) : List (Wd × List Name) :=
  t.byWd.entries.map fun e => (e.1, e.2.names)

/-- The descriptor of the directory the tree has under these names. -/
def Table.descriptor (t : Table System Wd) (names : List Name) : Option Wd :=
  (Forest.nodeAt (t.root, t.children) names).bind fun n => n.1.wd?

theorem descriptor_of_inside {t : Table System Wd} {names : List Name} (inside : names ≠ []) :
    t.descriptor names = (t.children.get names).bind fun n => n.1.wd? := by
  rw [Table.descriptor, Forest.get_eq_nodeAt t.root inside]

/-- A relation between the system and the descriptors recorded that outlives the removal of one. -/
def RmClosed (m : Marks System Dir Wd) (I : System → (Wd → Prop) → Prop) : Prop :=
  ∀ s K wd, I s K → K wd → I (m.rm wd s) fun x => K x ∧ x ≠ wd

/-- The table has recorded these directories, counted them but for the root, and is in the
relation `I` with the system. -/
structure Books (I : System → (Wd → Prop) → Prop) (t : Table System Wd)
    (l : List (Wd × List Name)) : Prop where
  recorded : t.recorded.Perm l
  counted : t.watched + 1 = l.length
  sound : t.underflowed = false
  system : I t.marks fun wd => wd ∈ t.byWd

variable {m : Marks System Dir Wd} {I : System → (Wd → Prop) → Prop} {t : Table System Wd}
variable {l : List (Wd × List Name)} {wd r : Wd} {names : List Name} {path : Path}

theorem mem_recorded : (wd, names) ∈ t.recorded ↔ ∃ path, t.byWd.lookup wd = some path ∧
    path.names = names := by
  simp only [Table.recorded, mem_map, Prod.mk.injEq]
  constructor
  · rintro ⟨e, mem, rfl, rfl⟩
    exact ⟨e.2, KeyedTables.lookup_eq_some_iff.mpr mem, rfl⟩
  · rintro ⟨path, found, rfl⟩
    exact ⟨⟨wd, path⟩, KeyedTables.lookup_eq_some_iff.mp found, rfl, rfl⟩

namespace Books

theorem perm (h : Books I t l) {l' : List (Wd × List Name)} (p : l.Perm l') : Books I t l' :=
  ⟨h.recorded.trans p, h.counted.trans p.length_eq, h.sound, h.system⟩

theorem children (h : Books I t l) (f : Forest Name (Mark Wd)) : Books I { t with children := f } l :=
  ⟨h.recorded, h.counted, h.sound, h.system⟩

theorem lookup (h : Books I t ((wd, names) :: l)) :
    ∃ path, t.byWd.lookup wd = some path ∧ path.names = names :=
  mem_recorded.mp (h.recorded.mem_iff.mpr mem_cons_self)

theorem mem_iff (h : Books I t l) : wd ∈ t.byWd ↔ wd ∈ l.map Prod.fst := by
  rw [← (h.recorded.map Prod.fst).mem_iff, AList.mem_keys]
  simp [Table.recorded, AList.keys, List.keys]

theorem nodup (h : Books I t l) : (l.map Prod.fst).Nodup := by
  refine (h.recorded.map Prod.fst).nodup_iff.mp ?_
  have keys : t.recorded.map Prod.fst = t.byWd.entries.keys := by
    simp [Table.recorded, List.keys]
  rw [keys]
  exact t.byWd.nodupKeys

end Books

theorem recorded_erase (h : t.byWd.lookup wd = some path) :
    t.recorded.Perm ((wd, path.names) :: (t.byWd.erase wd).entries.map fun e => (e.1, e.2.names)) :=
  (KeyedTables.perm_erase_held h).map _

namespace Books

theorem of_erase (h : Books I t ((wd, names) :: l)) :
    ((t.byWd.erase wd).entries.map fun e => (e.1, e.2.names)).Perm l := by
  obtain ⟨path, found, rfl⟩ := h.lookup
  exact ((recorded_erase found).symm.trans h.recorded).cons_inv

theorem dropMark (closed : RmClosed m I) {mark : Mark Wd} {announce : Bool} {target : Path}
    (h : Books I t (((mark.wd?).map fun wd => (wd, names)).toList ++ l)) (root : l ≠ []) :
    Books I (t.dropMark m announce target mark) l := by
  unfold Table.dropMark
  cases state : mark.state with
  | unwatchable => simpa [Mark.wd?, state] using h
  | watched wd =>
    have h' : Books I t ((wd, names) :: l) := by simpa [Mark.wd?, state] using h
    have held : wd ∈ t.byWd := h'.mem_iff.mpr (by simp)
    have counted := h'.counted
    have some_left : 0 < l.length := length_pos_of_ne_nil root
    rw [length_cons] at counted
    refine ⟨h'.of_erase, ?_, ?_, ?_⟩
    · change t.watched - 1 + 1 = l.length
      omega
    · have positive : t.watched ≠ 0 := by omega
      simp [h.sound, positive]
    · have removed := closed _ _ _ h.system held
      have left : (fun x => x ∈ t.byWd ∧ x ≠ wd) = fun x => x ∈ t.byWd.erase wd := by
        funext x
        rw [AList.mem_erase]
        exact propext and_comm
      rw [left] at removed
      simpa [AList.lookup_isSome.mpr held] using removed

theorem dropBelow (closed : RmClosed m I) {f : Forest Name (Mark Wd)} (announce : Bool)
    (target : Path) (h : Books I t (f.collect Mark.wd? names ++ l)) (root : l ≠ []) :
    Books I (Table.dropBelow m announce t target f) l := by
  induction f generalizing t target names l with
  | nil => simpa [Table.dropBelow, Forest.collect] using h
  | node name mark below rest ihBelow ihRest =>
    simp only [Forest.collect] at h
    unfold Table.dropBelow
    have first : Books I t (below.collect Mark.wd? (names ++ [name]) ++
        (((mark.wd?).map fun wd => (wd, names ++ [name])).toList ++
          (rest.collect Mark.wd? names ++ l))) := by
      refine h.perm ?_
      simp only [append_assoc]
      exact perm_append_comm_assoc _ _ _
    exact ihRest target ((ihBelow _ first (by simp [root])).dropMark closed (by simp [root])) root

theorem dropTree (closed : RmClosed m I) {n : Node Wd} (announce : Bool) (target : Path)
    (h : Books I t (Forest.collectNode Mark.wd? names n ++ l)) (root : l ≠ []) :
    Books I (t.dropTree m announce target n) l := by
  have first : Books I t (n.2.collect Mark.wd? names ++
      (((n.1.wd?).map fun wd => (wd, names)).toList ++ l)) := by
    refine h.perm ?_
    simp only [Forest.collectNode, append_assoc]
    exact perm_append_comm_assoc _ _ _
  exact (first.dropBelow closed announce target (by simp [root])).dropMark closed root

theorem rekeyMark {mark : Mark Wd} (target : Path)
    (h : Books I t (((mark.wd?).map fun wd => (wd, names)).toList ++ l)) :
    Books I (t.rekeyMark target mark)
      (((mark.wd?).map fun wd => (wd, target.names)).toList ++ l) := by
  unfold Table.rekeyMark
  cases state : mark.state with
  | unwatchable => simpa [Mark.wd?, state] using h
  | watched wd =>
    have h' : Books I t ((wd, names) :: l) := by simpa [Mark.wd?, state] using h
    have held : wd ∈ t.byWd := h'.mem_iff.mpr (by simp)
    simp only [Mark.wd?, state, Option.map_some, Option.toList_some, singleton_append]
    refine ⟨?_, h'.counted, h'.sound, ?_⟩
    · change ((t.byWd.insert wd target).entries.map _).Perm _
      rw [AList.entries_insert, map_cons]
      exact h'.of_erase.cons _
    · have same : (fun x => x ∈ t.byWd.insert wd target) = fun x => x ∈ t.byWd := by
        funext x
        rw [AList.mem_insert]
        exact propext ⟨fun h => h.elim (fun same => same ▸ held) id, Or.inr⟩
      change I t.marks fun x => x ∈ t.byWd.insert wd target
      rw [same]
      exact h.system

end Books

theorem perm_rotate {α : Type} (a b c d : List α) :
    (a ++ (b ++ (c ++ d))).Perm (c ++ (b ++ (a ++ d))) := by
  refine (perm_append_comm_assoc a b _).trans ?_
  refine ((perm_append_comm_assoc a c d).append_left b).trans ?_
  exact perm_append_comm_assoc b c _

theorem Books.rekeyBelow (closed : RmClosed m I) {f : Forest Name (Mark Wd)} (target : Path)
    (h : Books I t (f.collect Mark.wd? names ++ l)) (root : l ≠ []) :
    Books I (Table.rekeyBelow m t target f).1
      ((Table.rekeyBelow m t target f).2.collect Mark.wd? target.names ++ l) := by
  induction f generalizing t target names l with
  | nil => simpa [Table.rekeyBelow, Forest.collect] using h
  | node name mark below rest ihBelow ihRest =>
    simp only [Forest.collect, append_assoc] at h
    unfold Table.rekeyBelow
    cases joined : target.join name with
    | none =>
      rw [← append_assoc] at h
      exact ihRest target (h.dropTree closed true target (by simp [root])) root
    | some childPath =>
      have child : childPath.names = target.names ++ [name] := Path.fromNames_eq_some joined
      have inside : Books I (t.rekeyMark childPath mark) (below.collect Mark.wd? (names ++ [name]) ++
          (((mark.wd?).map fun wd => (wd, childPath.names)).toList ++
            (rest.collect Mark.wd? names ++ l))) :=
        (h.rekeyMark childPath).perm (perm_append_comm_assoc _ _ _)
      have beside := (ihBelow childPath inside (by simp [root])).perm (perm_rotate _ _ _ _)
      refine (ihRest target beside (by simp [root])).perm ?_
      simp only [Forest.collect, child, append_assoc]
      exact (perm_rotate _ _ _ _).trans (perm_append_comm_assoc _ _ _)

variable {n : Node Wd}

theorem Books.rekey (closed : RmClosed m I) (target : Path)
    (h : Books I t (Forest.collectNode Mark.wd? names n ++ l)) (root : l ≠ []) :
    Books I (t.rekey m target n).1
      (Forest.collectNode Mark.wd? target.names (t.rekey m target n).2 ++ l) := by
  simp only [Forest.collectNode, append_assoc] at h ⊢
  have below := ((h.rekeyMark target).perm (perm_append_comm_assoc _ _ _)).rekeyBelow closed target
    (by simp [root])
  exact below.perm (perm_append_comm_assoc _ _ _)

section Frame

structure SameTree (t t' : Table System Wd) : Prop where
  root : t'.root = t.root
  children : t'.children = t.children
  dead : t'.dead = t.dead

structure SameBooks (t t' : Table System Wd) : Prop extends SameTree t t' where
  byWd : t'.byWd = t.byWd
  watched : t'.watched = t.watched
  underflowed : t'.underflowed = t.underflowed

/-- Besides, they have the same rounds, budget and cells. -/
structure SameUse (t t' : Table System Wd) : Prop extends SameTree t t' where
  cells : t'.cells = t.cells
  round : t'.round = t.round
  capped : t'.capped = t.capped
  budget : t'.budget = t.budget

/-- Some directories are no longer counted and recorded. -/
structure Drops (t t' : Table System Wd) : Prop extends SameUse t t' where
  watched : t'.watched ≤ t.watched
  byWd : ∀ wd, t.byWd.lookup wd = none → t'.byWd.lookup wd = none

variable {t' t'' : Table System Wd}

theorem SameUse.refl (t : Table System Wd) : SameUse t t :=
  ⟨⟨rfl, rfl, rfl⟩, rfl, rfl, rfl, rfl⟩

theorem SameUse.trans (h : SameUse t t') (h' : SameUse t' t'') : SameUse t t'' :=
  ⟨⟨h'.root.trans h.root, h'.children.trans h.children, h'.dead.trans h.dead⟩, h'.cells.trans h.cells,
    h'.round.trans h.round, h'.capped.trans h.capped, h'.budget.trans h.budget⟩

theorem Drops.refl (t : Table System Wd) : Drops t t :=
  ⟨.refl t, le_rfl, fun _ => id⟩

theorem Drops.trans (h : Drops t t') (h' : Drops t' t'') : Drops t t'' :=
  ⟨h.toSameUse.trans h'.toSameUse, h'.watched.trans h.watched, fun wd absent => h'.byWd wd (h.byWd wd absent)⟩

variable (m)

namespace Drops

theorem dropMark (t : Table System Wd) (announce : Bool) (path : Path) (mark : Mark Wd) :
    Drops t (t.dropMark m announce path mark) := by
  unfold Table.dropMark
  cases mark.state with
  | unwatchable => exact refl t
  | watched =>
    refine ⟨⟨⟨rfl, rfl, rfl⟩, rfl, rfl, rfl, rfl⟩, Nat.sub_le _ _, fun x absent => ?_⟩
    rw [AList.lookup_eq_none] at absent ⊢
    exact fun held => absent (AList.mem_erase.mp held).2

theorem dropBelow (t : Table System Wd) (announce : Bool) (path : Path)
    (f : Forest Name (Mark Wd)) : Drops t (Table.dropBelow m announce t path f) := by
  induction f generalizing t path with
  | nil => exact refl t
  | node _ mark _ _ ihBelow ihRest =>
    exact ((ihBelow t _).trans (dropMark m _ announce _ mark)).trans (ihRest _ path)

theorem dropTree (t : Table System Wd) (announce : Bool) (path : Path) (n : Node Wd) :
    Drops t (t.dropTree m announce path n) :=
  (dropBelow m t announce path n.2).trans (dropMark m _ announce path n.1)

theorem dropMoving (t : Table System Wd) (moving : Moving Wd) : Drops t (t.dropMoving m moving) := by
  unfold Table.dropMoving
  induction moving.entries generalizing t with
  | nil => exact refl t
  | cons e _ ih => exact (dropTree m t true e.2.1 e.2.2).trans (ih _)

end Drops

namespace SameUse

theorem rekeyMark (t : Table System Wd) (path : Path) (mark : Mark Wd) :
    SameUse t (t.rekeyMark path mark) := by
  unfold Table.rekeyMark
  cases mark.state <;> exact ⟨⟨rfl, rfl, rfl⟩, rfl, rfl, rfl, rfl⟩

theorem rekeyBelow (t : Table System Wd) (path : Path) (f : Forest Name (Mark Wd)) :
    SameUse t (Table.rekeyBelow m t path f).1 := by
  induction f generalizing t path with
  | nil => exact refl t
  | node name mark below _ ihBelow ihRest =>
    unfold Table.rekeyBelow
    cases path.join name with
    | none => exact (Drops.dropTree m t true path (mark, below)).toSameUse.trans (ihRest _ path)
    | some childPath =>
      exact ((rekeyMark t childPath mark).trans (ihBelow _ childPath)).trans (ihRest _ path)

theorem rekey (t : Table System Wd) (path : Path) (n : Node Wd) :
    SameUse t (t.rekey m path n).1 :=
  (rekeyMark t path n.1).trans (rekeyBelow m _ path n.2)

end SameUse

end Frame

variable (m) in
theorem rekeyBelow_thins (t : Table System Wd) (path : Path) (f : Forest Name (Mark Wd)) :
    Forest.Thins (Table.rekeyBelow m t path f).2 f := by
  induction f generalizing t path with
  | nil => exact .nil
  | node name _ _ _ ihBelow ihRest =>
    unfold Table.rekeyBelow
    cases path.join name with
    | none => exact .drop (ihRest _ path)
    | some childPath => exact .keep (ihBelow _ childPath) (ihRest _ path)

/-- The siblings have distinct names, and nothing is below an unwatchable directory. -/
structure Neat (f : Forest Name (Mark Wd)) : Prop where
  distinct : f.Distinct
  bare : f.Bare fun mark => mark.wd?.isNone

structure NeatNode (n : Node Wd) : Prop where
  below : Neat n.2
  ends : n.1.wd? = none → n.2 = .nil

theorem Neat.thins {f g : Forest Name (Mark Wd)} (h : Neat f) (thin : Forest.Thins g f) : Neat g :=
  ⟨thin.distinct h.distinct, thin.bare h.bare⟩

theorem NeatNode.rekey (h : NeatNode n) (t : Table System Wd) (path : Path) :
    NeatNode (t.rekey m path n).2 := by
  have thin := rekeyBelow_thins m (t.rekeyMark path n.1) path n.2
  refine ⟨h.below.thins thin, fun unwatched => ?_⟩
  have none := h.ends unwatched
  change (Table.rekeyBelow m (t.rekeyMark path n.1) path n.2).2 = .nil
  rw [none]
  rfl

/-- What the table has at a path, if anything, is watched. -/
def Clear (t : Table System Wd) (names : List Name) : Prop :=
  ∀ n, t.children.get names = some n → n.1.wd? ≠ none

/-- The table's tree is neat, and its books are those of the tree and of `float`. -/
structure Fits (I : System → (Wd → Prop) → Prop) (r : Wd) (t : Table System Wd)
    (float : List (Wd × List Name)) : Prop where
  neat : Neat t.children
  root : t.root.wd? = some r
  alive : t.dead = false
  books : Books I t ((r, []) :: t.children.collect Mark.wd? [] ++ float)

namespace Fits

variable {float : List (Wd × List Name)}

variable {t' : Table System Wd}

theorem same (h : Fits I r t float) (tree : SameTree t t') {float' : List (Wd × List Name)}
    (books : Books I t ((r, []) :: t.children.collect Mark.wd? [] ++ float) → Books I t' ((r, []) :: t.children.collect Mark.wd? [] ++ float')) :
    Fits I r t' float' := by
  refine ⟨by rw [tree.children]; exact h.neat, by rw [tree.root]; exact h.root,
    by rw [tree.dead]; exact h.alive, ?_⟩
  rw [tree.children]
  exact books h.books

theorem dropTree (closed : RmClosed m I) {n : Node Wd} (announce : Bool) (target : Path)
    (h : Fits I r t (Forest.collectNode Mark.wd? names n ++ float)) :
    Fits I r (t.dropTree m announce target n) float :=
  h.same (Drops.dropTree m t announce target n).toSameTree fun books =>
    (books.perm (perm_append_comm_assoc _ _ _)).dropTree closed announce target (by simp)

theorem rekey (closed : RmClosed m I) {n : Node Wd} (target : Path)
    (h : Fits I r t (Forest.collectNode Mark.wd? names n ++ float)) :
    Fits I r (t.rekey m target n).1
      (Forest.collectNode Mark.wd? target.names (t.rekey m target n).2 ++ float) :=
  h.same (SameUse.rekey m t target n).toSameTree fun books =>
    ((books.perm (perm_append_comm_assoc _ _ _)).rekey closed target (by simp)).perm
      (perm_append_comm_assoc _ _ _)

theorem splitLast_names {parent : Path} {name : Name} (h : path.splitLast = some (parent, name)) :
    path.names = parent.names ++ [name] := by
  simp only [Path.splitLast, Option.map_eq_some_iff, Prod.mk.injEq] at h
  obtain ⟨last, found, rfl, rfl⟩ := h
  have whole := dropLast_append_getLast? _ found
  simp only [Path.upTo]
  rw [← dropLast_eq_take]
  exact whole.symm

/-- Either there is nothing at the path, or the node there is taken out of the tree. -/
theorem detach_cases (t : Table System Wd) (path : Path) :
    t.detach path = (none, t) ∧ t.children.get path.names = none ∨
    ∃ parent name slot n, path.names = parent ++ [name] ∧ t.children.under parent = some slot ∧
      slot.lookup name = some n ∧
      t.detach path = (some n, { t with children := t.children.change parent (Forest.erase name) }) := by
  unfold Table.detach
  cases split : path.splitLast with
  | none =>
    rw [getLast?_eq_none_iff.mp (Option.map_eq_none_iff.mp split)]
    exact .inl ⟨rfl, rfl⟩
  | some p =>
    obtain ⟨parent, name⟩ := p
    have whole := splitLast_names split
    simp only
    split
    · next absent => exact .inl ⟨rfl, by rw [whole, Forest.get_append]; exact absent⟩
    · next n here =>
        obtain ⟨slot, under, here⟩ := Option.bind_eq_some_iff.mp here
        exact .inr ⟨_, _, slot, n, whole, under, here, rfl⟩

theorem detach_none (found : t.detach path = (none, t')) : t' = t := by
  rcases detach_cases t path with ⟨same, _⟩ | ⟨_, _, _, _, _, _, _, same⟩ <;> rw [same] at found <;> cases found
  rfl

theorem detach_node (t : Table System Wd) (path : Path) : (t.detach path).1 = t.children.get path.names := by
  rcases detach_cases t path with ⟨same, absent⟩ | ⟨parent, name, slot, n, whole, under, here, same⟩
  · rw [same, absent]
  · rw [same, whole, Forest.get_append, under]
    exact here.symm

theorem detach {n : Node Wd} (h : Fits I r t float) (found : t.detach path = (some n, t')) :
    NeatNode n ∧ t.children.get path.names = some n ∧
      Fits I r t' (Forest.collectNode Mark.wd? path.names n ++ float) := by
  have node := detach_node t path
  rcases detach_cases t path with ⟨same, _⟩ | ⟨parent, name, slot, _, whole, under, here, same⟩ <;>
    rw [same] at found node <;> cases found
  have thin : Forest.Thins (t.children.change parent (Forest.erase name)) t.children :=
    .change _ _ fun below => .erase below name
  have distinct := h.neat.distinct.under under
  have bare := (h.neat.bare.under under).lookup here
  have books := h.books
  refine ⟨⟨⟨distinct.lookup here, bare.2⟩, fun unwatched => bare.1 (by simp [unwatched])⟩,
    node.symm, h.neat.thins thin, h.root, h.alive, ?_⟩
  refine (books.perm ?_).children _
  rw [whole, cons_append, cons_append]
  refine (((Forest.collect_detach h.neat.distinct under here).append_right float).trans ?_).cons _
  rw [append_assoc]
  exact perm_append_comm_assoc _ _ _

theorem dropAt (closed : RmClosed m I) (announce : Bool) (path : Path) (h : Fits I r t float) :
    Fits I r (t.dropAt m announce path) float := by
  unfold Table.dropAt
  rcases found : t.detach path with ⟨n, t'⟩
  cases n with
  | none => exact detach_none found ▸ h
  | some => exact (h.detach found).2.2.dropTree closed announce path

theorem put (closed : RmClosed m I) {n : Node Wd} (neat : NeatNode n) (inside : path.names ≠ [])
    (clear : Clear t path.names.dropLast)
    (h : Fits I r t (Forest.collectNode Mark.wd? path.names n ++ float)) :
    Fits I r (t.put m path n) float := by
  unfold Table.put
  cases split : path.splitLast with
  | none => exact absurd (getLast?_eq_none_iff.mp (Option.map_eq_none_iff.mp split)) inside
  | some p =>
    obtain ⟨above, name⟩ := p
    have whole := splitLast_names split
    rw [whole, dropLast_concat] at clear
    simp only
    cases under : t.children.under above.names with
    | none => exact h.dropTree closed true path
    | some slot =>
      have neat' : Neat (t.children.change above.names (Forest.insert name n)) := by
        refine ⟨h.neat.distinct.change fun slot _ distinct => distinct.insert name neat.below.distinct,
          h.neat.bare.change (fun n' found unwatched => ?_) fun slot _ bare =>
            bare.insert name (fun unwatched => neat.ends (by simpa using unwatched)) neat.below.bare⟩
        exact absurd (by simpa using unwatched) (clear n' found)
      have books := h.books
      rw [whole] at books
      cases displaced : slot.lookup name with
      | none =>
        simp only [displaced]
        refine ⟨neat', h.root, h.alive, (books.perm ?_).children _⟩
        refine (((perm_append_comm_assoc _ _ _).trans ?_)).cons _
        rw [← append_assoc]
        exact (Forest.collect_attach under displaced).append_right float
      | some old =>
        have both : Fits I r { t with children := t.children.change above.names (Forest.insert name n) }
            (Forest.collectNode Mark.wd? (above.names ++ [name]) old ++ float) := by
          refine ⟨neat', h.root, h.alive, (books.perm ?_).children _⟩
          refine ((perm_append_comm_assoc _ _ _).trans (.trans ?_
            (perm_append_comm_assoc _ _ _))).cons _
          rw [← append_assoc, ← append_assoc]
          exact (Forest.collect_replace h.neat.distinct under displaced).append_right float
        simp only [displaced]
        exact both.dropTree closed true path

section

variable (h : Fits I r t float)

include h

theorem congr {J : System → (Wd → Prop) → Prop} (same : SameBooks t t')
    (system : J t'.marks fun wd => wd ∈ t.byWd) : Fits J r t' float := by
  have books := h.books
  refine ⟨by rw [same.children]; exact h.neat, by rw [same.root]; exact h.root,
    by rw [same.dead]; exact h.alive, ?_, ?_, ?_, ?_⟩
  · rw [same.children, Table.recorded, same.byWd]
    exact books.recorded
  · rw [same.children, same.watched]
    exact books.counted
  · rw [same.underflowed]
    exact books.sound
  · rw [same.byWd]
    exact system

theorem system : I t.marks fun wd => wd ∈ t.byWd := by
  exact h.books.system

theorem relate {J : System → (Wd → Prop) → Prop}
    (system : J t.marks fun wd => wd ∈ t.byWd) : Fits J r t float :=
  h.congr ⟨⟨rfl, rfl, rfl⟩, rfl, rfl, rfl⟩ system

theorem push (items : List EventItem) : Fits I r (t.push items) float :=
  h.congr ⟨⟨rfl, rfl, rfl⟩, rfl, rfl, rfl⟩ h.system

theorem perm {float' : List (Wd × List Name)} (p : float.Perm float') :
    Fits I r t float' :=
  ⟨h.neat, h.root, h.alive, h.books.perm (p.append_left _)⟩

theorem at_path (found : t.byWd.lookup wd = some path)
    (inside : path.names ≠ []) :
    (∃ n, t.children.get path.names = some n ∧ n.1.wd? = some wd) ∨ (wd, path.names) ∈ float := by
  have books := h.books
  have listed := books.recorded.mem_iff.mp (mem_recorded.mpr ⟨path, found, rfl⟩)
  rcases mem_append.mp listed with tree | float
  · rcases mem_cons.mp tree with isRoot | below
    · exact absurd (Prod.mk.inj isRoot).2 inside
    · obtain ⟨names, n, same, found, here⟩ := (Forest.mem_collect h.neat.distinct).mp below
      rw [nil_append] at same
      exact .inl ⟨n, same ▸ found, here⟩
  · exact .inr float

end

end Fits

theorem Clear.thins {t' : Table System Wd} (h : Clear t names) (distinct : t.children.Distinct)
    (thin : Forest.Thins t'.children t.children) : Clear t' names := by
  intro n found
  obtain ⟨n', found', same, -⟩ := thin.get distinct found
  rw [same]
  exact h n' found'

theorem detach_eq (t : Table System Wd) (path : Path) :
    ∃ f, Forest.Thins f t.children ∧ (t.detach path).2 = { t with children := f } := by
  rcases Fits.detach_cases t path with ⟨same, _⟩ | ⟨parent, name, _, _, _, _, _, same⟩ <;> rw [same]
  · exact ⟨_, .refl _, rfl⟩
  · exact ⟨_, .change _ _ fun below => .erase below name, rfl⟩

theorem detach_thins (t : Table System Wd) (path : Path) :
    Forest.Thins (t.detach path).2.children t.children := by
  obtain ⟨f, thin, same⟩ := detach_eq t path
  rw [same]
  exact thin

variable (m) in
theorem dropAt_drops (t : Table System Wd) (announce : Bool) (path : Path) :
    ∃ f, Forest.Thins f t.children ∧ Drops { t with children := f } (t.dropAt m announce path) := by
  obtain ⟨f, thin, same⟩ := detach_eq t path
  refine ⟨f, thin, ?_⟩
  unfold Table.dropAt
  split
  · next n t' found =>
      rw [found] at same
      subst same
      exact .dropTree m _ announce path n
  · next t' found =>
      rw [found] at same
      subst same
      exact .refl _

variable (m) in
theorem dropAt_thins (t : Table System Wd) (announce : Bool) (path : Path) :
    Forest.Thins (t.dropAt m announce path).children t.children := by
  obtain ⟨f, thin, drops⟩ := dropAt_drops m t announce path
  rw [drops.children]
  exact thin

variable (m) in
/-- A node is put into the tree in the place of what is there, or dropped if nothing is above it. -/
theorem put_cases (t : Table System Wd) (path : Path) (n : Node Wd) :
    path.names = [] ∧ t.put m path n = t ∨ ∃ parent name, path.names = parent ++ [name] ∧
      (t.children.under parent = none ∧ Drops t (t.put m path n) ∨
      ∃ slot, t.children.under parent = some slot ∧
        Drops { t with children := t.children.change parent (Forest.insert name n) } (t.put m path n)) := by
  unfold Table.put
  cases split : path.splitLast with
  | none => exact .inl ⟨getLast?_eq_none_iff.mp (Option.map_eq_none_iff.mp split), rfl⟩
  | some p =>
    obtain ⟨parent, name⟩ := p
    refine .inr ⟨parent.names, name, Fits.splitLast_names split, ?_⟩
    simp only
    cases under : t.children.under parent.names with
    | none => exact .inl ⟨rfl, .dropTree m t true path n⟩
    | some slot =>
      refine .inr ⟨slot, rfl, ?_⟩
      simp only
      split
      · exact .dropTree m _ true path _
      · exact .refl _

theorem evict_induction {P : Table System Wd → Prop}
    (drop : ∀ t path, P t → P (t.dropAt m true path))
    (round : ∀ t : Table System Wd, ∀ n c, t.round ≤ n → P t → P { t with round := n, capped := c }) {keep : Path}
    {now : ℕ} (h : P t) : P (t.evict m keep now) := by
  have loop : ∀ fuel (t : Table System Wd) want, P t → P (Table.evictLoop m keep fuel t want) := by
    intro fuel
    induction fuel with
    | zero => exact fun t want h => h
    | succ _ ih =>
      intro t want h
      unfold Table.evictLoop
      simp only
      split_ifs with stop
      · exact h
      · clear stop
        refine ih _ _ ?_
        generalize List.take want _ = victims
        induction victims generalizing t with
        | nil => exact h
        | cons leaf _ ihRest =>
          have one : P (t.dropLeaf m leaf.2) := by
            unfold Table.dropLeaf
            split
            · exact drop t _ h
            · exact h
          exact ihRest _ one
  unfold Table.evict Table.budgetAt
  refine loop _ _ _ ?_
  split
  · split_ifs
    · exact round t _ t.capped (Nat.le_succ _) h
    · exact round t _ none (Nat.le_succ _) h
  · exact round t _ t.capped (Nat.le_succ _) h

variable (m) in
theorem evict_thins (t : Table System Wd) (keep : Path) (now : ℕ) :
    Forest.Thins (t.evict m keep now).children t.children := by
  refine evict_induction (P := fun t' => Forest.Thins t'.children t.children)
    (fun t' path thin => (dropAt_thins m t' true path).trans thin) (fun _ _ _ _ thin => thin) (.refl _)

def Spare (I : System → (Wd → Prop) → Prop) (wd : Wd) : System → (Wd → Prop) → Prop :=
  fun s K => ¬ K wd ∧ I s fun x => K x ∨ x = wd

theorem RmClosed.spare (closed : RmClosed m I) (wd : Wd) : RmClosed m (Spare I wd) := by
  rintro s K x ⟨new, inside⟩ held
  have ne : x ≠ wd := fun same => new (same ▸ held)
  refine ⟨fun both => new both.1, ?_⟩
  have removed := closed s _ x inside (.inl held)
  have same : (fun y => (K y ∨ y = wd) ∧ y ≠ x) = fun y => (K y ∧ y ≠ x) ∨ y = wd := by
    funext y
    refine propext ⟨fun ⟨either, other⟩ => either.imp (⟨·, other⟩) id, ?_⟩
    rintro (⟨held, other⟩ | rfl)
    · exact ⟨.inl held, other⟩
    · exact ⟨.inr rfl, ne.symm⟩
  rw [same] at removed
  exact removed

variable (m) in
theorem put_clear (t : Table System Wd) (watched : n.1.wd? ≠ none) (inside : path.names ≠ []) :
    Clear (t.put m path n) path.names := by
  rcases put_cases m t path n with ⟨root, _⟩ | ⟨parent, name, whole, ⟨absent, drops⟩ | ⟨slot, under, drops⟩⟩
  · exact absurd root inside
  · intro n' found
    rw [whole, Forest.get_append, drops.children, absent] at found
    cases found
  · intro n' found
    rw [whole, Forest.get_append, drops.children, Forest.under_change under, Option.bind_some,
      Forest.lookup_insert, if_pos rfl] at found
    exact Option.some.inj found ▸ watched

variable (m) in
theorem put_all {p : Mark Wd → Prop} (h : t.children.All p) (hn : p n.1 ∧ n.2.All p) :
    (t.put m path n).children.All p := by
  rcases put_cases m t path n with ⟨_, same⟩ | ⟨parent, name, _, ⟨_, drops⟩ | ⟨_, _, drops⟩⟩
  · rwa [same]
  · rwa [drops.children]
  · exact drops.children ▸ h.change fun b hb => hb.insert name hn

theorem rekey_all {p : Mark Wd → Prop} (t : Table System Wd) (path : Path)
    (hn : p n.1 ∧ n.2.All p) : p (t.rekey m path n).2.1 ∧ (t.rekey m path n).2.2.All p :=
  ⟨hn.1, hn.2.thins (rekeyBelow_thins m _ path n.2)⟩

namespace Fits

variable {float : List (Wd × List Name)}

theorem evict (closed : RmClosed m I) {keep : Path} {now : ℕ} (h : Fits I r t float) :
    Fits I r (t.evict m keep now) float :=
  evict_induction (P := fun t => Fits I r t float) (fun _ path fits => fits.dropAt closed true path)
    (fun _ _ _ _ fits => fits.congr ⟨⟨rfl, rfl, rfl⟩, rfl, rfl, rfl⟩ fits.system) h

theorem enter (closed : RmClosed m I) (h : Fits (Spare I wd) r t float) (inside : path.names ≠ [])
    (clear : Clear t path.names.dropLast) : Fits I r (t.enter m path wd) float := by
  have books := h.books
  have new : wd ∉ t.byWd := books.system.1
  refine put closed (n := (_, .nil)) ⟨⟨trivial, trivial⟩, fun _ => rfl⟩ inside clear
    ⟨h.neat, h.root, h.alive, ?_, ?_, books.sound, ?_⟩
  · change ((t.byWd.insert wd path).entries.map _).Perm _
    rw [AList.entries_insert_of_notMem new, map_cons]
    refine (books.recorded.cons _).trans ?_
    exact perm_middle.symm
  · change t.watched + 1 + 1 = _
    rw [books.counted]
    simp [Forest.collectNode, Forest.collect, Mark.wd?]
    omega
  · have all := books.system.2
    have same : (fun x => x ∈ t.byWd ∨ x = wd) = fun x => x ∈ t.byWd.insert wd path := by
      funext x
      rw [AList.mem_insert]
      exact propext or_comm
    rw [same] at all
    exact all

end Fits

namespace Fits

theorem reroot (closed : RmClosed m I) {old : Path} (h : Fits I r t [])
    (known : t.byWd.lookup wd = some old) (inside : path.names ≠ [])
    (clear : Clear t path.names.dropLast) :
    Fits I r (t.reroot m old path).2 [] ∧
      ((t.reroot m old path).1 = true → Clear (t.reroot m old path).2 path.names) := by
  unfold Table.reroot
  have thin := detach_thins t old
  rcases found : t.detach old with ⟨n, t'⟩
  rw [found] at thin
  cases n with
  | none =>
    rw [detach_none found]
    exact ⟨h, fun moved => absurd moved (by simp)⟩
  | some n =>
    obtain ⟨neat, here, fits⟩ := h.detach found
    have nonroot : old.names ≠ [] := by
      intro empty
      rw [empty] at here
      simp [Forest.get] at here
    have watched : n.1.wd? = some wd := by
      rcases h.at_path known nonroot with ⟨n', here', watched⟩ | none
      · rw [here] at here'
        obtain rfl := Option.some.inj here'
        exact watched
      · simp at none
    have tree := SameUse.rekey m t' path n
    have clear' : Clear (t'.rekey m path n).1 path.names.dropLast := by
      have still := clear.thins h.neat.distinct thin
      intro n' found'
      rw [tree.children] at found'
      exact still n' found'
    refine ⟨put closed (neat.rekey t' path) inside clear' (fits.rekey closed path),
      fun _ => put_clear m _ ?_ inside⟩
    change n.1.wd? ≠ none
    simp [watched]

theorem place (closed : RmClosed m I) {now : ℕ}
    (h : (wd ∈ t.byWd ∧ Fits I r t []) ∨ Fits (Spare I wd) r t []) (inside : path.names ≠ [])
    (clear : Clear t path.names.dropLast) :
    Fits I r (t.place m path wd now).2 [] ∧
      ((t.place m path wd now).1 = true → Clear (t.place m path wd now).2 path.names) := by
  unfold Table.place
  rcases h with ⟨known, fits⟩ | fits
  · obtain ⟨old, found⟩ := Option.isSome_iff_exists.mp (AList.lookup_isSome.mpr known)
    simp only [found]
    split_ifs with same
    · refine ⟨fits, fun _ n here => ?_⟩
      subst same
      rcases fits.at_path found inside with ⟨n', here', watched⟩ | none
      · rw [here] at here'
        obtain rfl := Option.some.inj here'
        simp [watched]
      · simp at none
    · exact fits.reroot closed found inside clear
  · have new : t.byWd.lookup wd = none := AList.lookup_eq_none.mpr fits.system.1
    have closed' := closed.spare wd
    simp only [new]
    have capped : Fits (Spare I wd) r (t.budgetAt now).2 [] ∧
        (t.budgetAt now).2.children = t.children := by
      unfold Table.budgetAt
      split
      · split_ifs
        · exact ⟨fits, rfl⟩
        · exact ⟨fits.congr ⟨⟨rfl, rfl, rfl⟩, rfl, rfl, rfl⟩ fits.system, rfl⟩
      · exact ⟨fits, rfl⟩
    have clear' : Clear (t.budgetAt now).2 path.names.dropLast := by
      intro n found
      rw [capped.2] at found
      exact clear n found
    have roomy : Fits (Spare I wd) r (if (t.budgetAt now).1 ≤ (t.budgetAt now).2.watched then
        (t.budgetAt now).2.evict m path now else (t.budgetAt now).2) [] ∧
        Clear (if (t.budgetAt now).1 ≤ (t.budgetAt now).2.watched then
          (t.budgetAt now).2.evict m path now else (t.budgetAt now).2) path.names.dropLast := by
      split_ifs
      · exact ⟨capped.1.evict closed', clear'.thins capped.1.neat.distinct (evict_thins m _ path now)⟩
      · exact ⟨capped.1, clear'⟩
    refine ⟨roomy.1.enter closed inside roomy.2, fun _ => ?_⟩
    exact put_clear m _ (by simp [Mark.wd?]) inside

end Fits

/-- A relation that outlives every system call; watching a directory adds its descriptor. -/
structure Lawful (m : Marks System Dir Wd) (I : System → (Wd → Prop) → Prop) : Prop where
  rm : RmClosed m I
  openDir : ∀ s K p, I s K → I (m.openDir p s).2 K
  openChild : ∀ s K d name, I s K → I (m.openChild d name s).2 K
  refused : ∀ s s' K d e, I s K → m.add d s = (.error e, s') → I s' K
  added : ∀ s s' K d wd, I s K → m.add d s = (.ok wd, s') → I s' fun x => K x ∨ x = wd

/-- The outcome of watching a directory: its descriptor is recorded or spare. -/
def Added (I : System → (Wd → Prop) → Prop) (r : Wd)
    (outcome : Except Errno Wd × Table System Wd) : Prop :=
  match outcome.1 with
  | .ok wd => (wd ∈ outcome.2.byWd ∧ Fits I r outcome.2 []) ∨ Fits (Spare I wd) r outcome.2 []
  | .error _ => Fits I r outcome.2 []

namespace Fits

variable {dir : Dir} {now : ℕ} {float : List (Wd × List Name)}

theorem marks {s' : System} (h : Fits I r t float) (system : I s' fun wd => wd ∈ t.byWd) :
    Fits I r { t with marks := s' } float :=
  h.congr ⟨⟨rfl, rfl, rfl⟩, rfl, rfl, rfl⟩ system

theorem added (lawful : Lawful m I) {s' : System} (h : Fits I r t float)
    (ok : m.add dir t.marks = (.ok wd, s')) :
    (wd ∈ t.byWd ∧ Fits I r { t with marks := s' } float) ∨
      Fits (Spare I wd) r { t with marks := s' } float := by
  have system := lawful.added _ _ _ _ _ h.system ok
  by_cases known : wd ∈ t.byWd
  · have same : (fun x => x ∈ t.byWd ∨ x = wd) = fun x => x ∈ t.byWd := by
      funext x
      exact propext ⟨fun either => either.elim id fun same => same ▸ known, .inl⟩
    rw [same] at system
    exact .inl ⟨known, h.marks system⟩
  · exact .inr (h.congr ⟨⟨rfl, rfl, rfl⟩, rfl, rfl, rfl⟩ ⟨known, system⟩)

theorem dropAt_recorded (closed : RmClosed m I) (announce : Bool) (path : Path) (h : Fits I r t float) :
    ∃ dropped, t.recorded.Perm (dropped ++ (t.dropAt m announce path).recorded) ∧
      ∀ e ∈ dropped, path.names <+: e.2 := by
  obtain ⟨f, _, kept⟩ := detach_eq t path
  unfold Table.dropAt
  rcases found : t.detach path with ⟨n, t'⟩
  rw [found] at kept
  have same : t'.recorded = t.recorded := by
    rw [show t' = _ from kept]
    rfl
  cases n with
  | none => exact ⟨[], by rw [same]; rfl, by simp⟩
  | some n =>
    have books := (h.detach found).2.2.books
    have first := books.perm (perm_append_comm_assoc _ _ _)
    have last := first.dropTree closed announce path (by simp)
    refine ⟨Forest.collectNode Mark.wd? path.names n, ?_,
      fun e mem => Forest.above_of_mem_collectNode mem⟩
    rw [← same]
    exact first.recorded.trans (last.recorded.symm.append_left _)

theorem mem_dropAt (closed : RmClosed m I) (announce : Bool) {old : Path} (h : Fits I r t float)
    (known : t.byWd.lookup wd = some old) (apart : ¬ path.names <+: old.names) :
    wd ∈ (t.dropAt m announce path).byWd := by
  obtain ⟨dropped, parted, below⟩ := h.dropAt_recorded closed announce path
  have listed := parted.mem_iff.mp (mem_recorded.mpr ⟨old, known, rfl⟩)
  rcases mem_append.mp listed with gone | left
  · exact absurd (below _ gone) apart
  · obtain ⟨path', found, -⟩ := mem_recorded.mp left
    exact AList.lookup_isSome.mp (by simp [found])

theorem dropAt_gone (closed : RmClosed m I) (announce : Bool) {n : Node Wd} (h : Fits I r t float)
    (found : t.children.get path.names = some n) (watched : n.1.wd? = some wd) :
    wd ∉ (t.dropAt m announce path).byWd := by
  have here := (detach_node t path).trans found
  unfold Table.dropAt
  rcases detached : t.detach path with ⟨n', t'⟩
  rw [detached] at here
  obtain rfl : n' = some n := here
  have books := (h.detach detached).2.2.books.perm (perm_append_comm_assoc _ _ _)
  have apart := books.nodup
  rw [(books.dropTree closed announce path (by simp)).mem_iff]
  rw [map_append] at apart
  refine fun left => disjoint_of_nodup_append apart ?_ left
  simp [Forest.collectNode, watched]

theorem watchedAt_eq (inside : path.names ≠ []) :
    t.watchedAt path = (t.children.get path.names).bind fun n => n.1.wd? := by
  unfold Table.watchedAt Table.node
  cases names : path.names with
  | nil => exact absurd names inside
  | cons => rfl

theorem lookup_of_get {n : Node Wd} (h : Fits I r t float) (found : t.children.get path.names = some n)
    (watched : n.1.wd? = some wd) : t.byWd.lookup wd = some path := by
  have books := h.books
  have listed : (wd, path.names) ∈ t.children.collect Mark.wd? [] :=
    (Forest.mem_collect h.neat.distinct).mpr ⟨path.names, n, rfl, found, watched⟩
  have recorded : (wd, path.names) ∈ t.recorded := books.recorded.mem_iff.mpr (by simp [listed])
  obtain ⟨path', known, same⟩ := mem_recorded.mp recorded
  rw [known, Path.ext_names same]

theorem clear_above {n : Node Wd} (h : Fits I r t float) (found : t.children.get names = some n) :
    Clear t names.dropLast := by
  intro above here
  rcases eq_nil_or_concat names with rfl | ⟨front, last, rfl⟩
  · simp [Forest.get] at found
  · rw [concat_eq_append] at found here
    rw [dropLast_concat] at here
    have watched := h.neat.bare.not_final here found
    intro none
    simp [none] at watched

theorem lookup_of_descriptor (h : Fits I r t float) (found : t.descriptor names = some wd) :
    ∃ path, t.byWd.lookup wd = some path ∧ path.names = names := by
  refine mem_recorded.mp (h.books.recorded.mem_iff.mpr (mem_append_left _ ?_))
  obtain ⟨n, here, watched⟩ := Option.bind_eq_some_iff.mp found
  cases names with
  | nil =>
    cases here
    rw [h.root] at watched
    cases watched
    exact mem_cons_self
  | cons name names =>
    refine mem_cons_of_mem _ ((Forest.mem_collect h.neat.distinct).mpr ⟨name :: names, n, rfl, ?_, watched⟩)
    rw [Forest.get_eq_nodeAt t.root (cons_ne_nil _ _)]
    exact here

theorem descriptor_of_lookup (h : Fits I r t float) (found : t.byWd.lookup wd = some path) :
    t.descriptor path.names = some wd ∨ (wd, path.names) ∈ float := by
  have listed := h.books.recorded.mem_iff.mp (mem_recorded.mpr ⟨path, found, rfl⟩)
  rcases mem_append.mp listed with tree | float
  · refine .inl ?_
    rcases mem_cons.mp tree with isRoot | below
    · obtain ⟨rfl, none⟩ := Prod.mk.inj isRoot
      simp only [Table.descriptor, none, Forest.nodeAt, Option.bind_some, h.root]
    · obtain ⟨names, n, same, here, watched⟩ := (Forest.mem_collect h.neat.distinct).mp below
      have inside : names ≠ [] := by
        rintro rfl
        simp [Forest.get] at here
      rw [nil_append] at same
      rw [same, descriptor_of_inside inside, here]
      exact watched
  · exact .inr float

theorem mem_recorded_iff (h : Fits I r t []) : (wd, names) ∈ t.recorded ↔ t.descriptor names = some wd := by
  rw [mem_recorded]
  constructor
  · rintro ⟨path, found, rfl⟩
    exact (h.descriptor_of_lookup found).resolve_right (by simp)
  · exact h.lookup_of_descriptor

theorem descriptor_above {name : Name} {n : Node Wd} (h : Fits I r t float)
    (found : t.children.get (names ++ [name]) = some n) : (t.descriptor names).isSome := by
  cases names with
  | nil => simp [Table.descriptor, Forest.nodeAt, h.root]
  | cons first names =>
    have inside := found
    rw [Forest.get_append] at inside
    obtain ⟨slot, under, -⟩ := Option.bind_eq_some_iff.mp inside
    obtain ⟨front, last, same⟩ := (eq_nil_or_concat (first :: names)).resolve_left (by simp)
    rw [concat_eq_append] at same
    rw [same, Forest.under_append, ← same] at under
    obtain ⟨n', here, -⟩ := Option.map_eq_some_iff.mp under
    have watched := h.clear_above found n' (by rw [dropLast_concat]; exact here)
    rw [descriptor_of_inside (cons_ne_nil _ _), here, Option.bind_some]
    exact Option.isSome_iff_ne_none.mpr watched

/-- The directory found at a watched path is put in the place of the one watched there, if the table
does not have it further below. -/
theorem verify (lawful : Lawful m I) (h : Fits I r t []) (inside : path.names ≠ [])
    (apart : ∀ found s', m.add dir t.marks = (.ok found, s') → ∀ old,
      t.byWd.lookup found = some old → path.names <+: old.names → old = path) (now : ℕ) :
    Fits I r (t.verify m path dir now).2 [] ∧
      ((t.verify m path dir now).1 = true → Clear (t.verify m path dir now).2 path.names) := by
  unfold Table.verify
  cases here : t.watchedAt path with
  | none => exact ⟨h, fun held => absurd held (by simp)⟩
  | some =>
    rw [watchedAt_eq inside] at here
    obtain ⟨n, found, watched⟩ := Option.bind_eq_some_iff.mp here
    have known := h.lookup_of_get found watched
    rcases result : m.add dir t.marks with ⟨answer, s'⟩
    cases answer with
    | error =>
      exact ⟨h.marks (lawful.refused _ _ _ _ _ h.system result), fun held => absurd held (by simp)⟩
    | ok other =>
      simp only
      split_ifs with same
      · subst same
        refine ⟨?_, fun _ n' found' => ?_⟩
        · rcases h.added lawful result with held | spare
          · exact held.2
          · exact absurd (AList.lookup_isSome.mp (by simp [known])) spare.system.1
        · obtain rfl := Option.some.inj (found.symm.trans found')
          simp [watched]
      · have clear : Clear ({ t with marks := s' }.dropAt m true path) path.names.dropLast :=
          (h.clear_above found).thins h.neat.distinct (dropAt_thins m _ true path)
        refine place lawful.rm ?_ inside clear
        rcases h.added lawful result with ⟨held, fits⟩ | spare
        · -- were it at or below `path`, it would be the directory watched there
          obtain ⟨old, recorded⟩ := Option.isSome_iff_exists.mp (AList.lookup_isSome.mpr held)
          refine .inl ⟨fits.mem_dropAt lawful.rm true recorded fun below => ?_,
            fits.dropAt lawful.rm true path⟩
          obtain rfl := apart other s' result old recorded below
          rcases h.at_path recorded inside with ⟨n', found', watched'⟩ | none
          · obtain rfl := Option.some.inj (found.symm.trans found')
            exact same (Option.some.inj (watched'.symm.trans watched))
          · simp at none
        · exact .inr (spare.dropAt (lawful.rm.spare other) true path)

theorem addOnce (lawful : Lawful m I) (dir : Dir) (h : Fits I r t []) : Added I r (t.addOnce m dir) := by
  unfold Table.addOnce
  rcases result : m.add dir t.marks with ⟨answer, s'⟩
  cases answer with
  | ok => exact h.added lawful result
  | error => exact h.marks (lawful.refused _ _ _ _ _ h.system result)

theorem addOnce_children (t : Table System Wd) (dir : Dir) :
    (t.addOnce m dir).2.children = t.children :=
  rfl

theorem addMark (lawful : Lawful m I) (path : Path) (dir : Dir) (now : ℕ) (h : Fits I r t [])
    (clear : Clear t names) :
    Added I r (t.addMark m path dir now) ∧ Clear (t.addMark m path dir now).2 names := by
  have first := h.addOnce lawful dir
  have clear' : Clear (t.addOnce m dir).2 names := clear
  unfold Table.addMark
  rcases added : t.addOnce m dir with ⟨answer, t'⟩
  rw [added] at first clear'
  simp only
  split_ifs with full
  · have refused : Fits I r t' [] := by
      cases answer with
      | ok => simp [Table.noSpace] at full
      | error => exact first
    have limited : Fits I r (t'.limited now) [] :=
      refused.congr ⟨⟨rfl, rfl, rfl⟩, rfl, rfl, rfl⟩ refused.system
    refine ⟨(limited.evict lawful.rm).addOnce lawful dir, ?_⟩
    have thin := evict_thins m (t'.limited now) path now
    intro n found
    rw [addOnce_children] at found
    exact clear'.thins refused.neat.distinct thin n found
  · exact ⟨first, clear'⟩

theorem install (lawful : Lawful m I) (path : Path) (dir : Dir) (now : ℕ) (h : Fits I r t [])
    (inside : path.names ≠ []) (clear : Clear t path.names.dropLast) :
    Fits I r (t.install m path dir now).2 [] ∧
      ((t.install m path dir now).1 = true → Clear (t.install m path dir now).2 path.names) := by
  unfold Table.install
  obtain ⟨fits, clear'⟩ := h.addMark lawful path dir now clear
  rcases result : t.addMark m path dir now with ⟨answer, t'⟩
  rw [result] at fits clear'
  cases answer with
  | ok => exact place lawful.rm fits inside clear'
  | error =>
    have fits : Fits I r t' [] := fits
    refine ⟨put lawful.rm (n := (_, .nil)) ⟨⟨trivial, trivial⟩, fun _ => rfl⟩ inside clear'
      (fits.congr ⟨⟨rfl, rfl, rfl⟩, rfl, rfl, rfl⟩ fits.system), fun held => absurd held (by simp)⟩

/-- The induction is on the names left, each below what was watched before it. -/
theorem installAll (lawful : Lawful m I) (path : Path) (now depth : ℕ) (dir : Dir) (h : Fits I r t [])
    (clear : Clear t (path.names.take depth)) :
    Fits I r (Table.installAll m path now t dir ((path.names.drop depth).zipIdx (depth + 1))) [] := by
  generalize rest : path.names.drop depth = names
  induction names generalizing t dir depth with
  | nil => exact h
  | cons name names ih =>
    have bound : depth < path.names.length := by
      by_contra past
      rw [drop_eq_nil_of_le (by omega)] at rest
      simp at rest
    have next : path.names.drop (depth + 1) = names := by
      rw [← tail_drop, rest, tail_cons]
    have here : (path.upTo (depth + 1)).names.dropLast = path.names.take depth := by
      simp only [Path.upTo, dropLast_eq_take, take_take, length_take]
      congr 1
      omega
    have inside : (path.upTo (depth + 1)).names ≠ [] := by
      refine ne_nil_of_length_pos ?_
      simp only [Path.upTo, length_take]
      omega
    rw [zipIdx_cons]
    unfold Table.installAll
    have opened := h.marks (lawful.openChild _ _ dir name h.system)
    rcases result : m.openChild dir name t.marks with ⟨answer, s'⟩
    rw [result] at opened
    cases answer with
    | error => exact opened
    | ok child =>
      obtain ⟨fits, watched⟩ := opened.install lawful (path.upTo (depth + 1)) child now inside
        (by rw [here]; exact clear)
      simp only
      rcases installed : ({ t with marks := s' } : Table System Wd).install m
          (path.upTo (depth + 1)) child now with ⟨held, t'⟩
      rw [installed] at fits watched
      cases held with
      | false => exact fits
      | true => exact ih (depth + 1) child fits (watched rfl) next

/-- The deepest watched directory on the path is checked first; the table must not have the one
found there further below. -/
theorem extend (lawful : Lawful m I) (path : Path) (depth now : ℕ) (h : Fits I r t [])
    (bound : 0 < depth → 0 < path.names.length)
    (apart : ∀ dir s', m.openDir (path.upTo depth) t.marks = (.ok dir, s') →
      ∀ found s'', m.add dir s' = (.ok found, s'') → ∀ old, t.byWd.lookup found = some old →
        (path.upTo depth).names <+: old.names → old = path.upTo depth) :
    Fits I r (t.extend m path depth now) [] := by
  unfold Table.extend
  have opened := h.marks (lawful.openDir _ _ (path.upTo depth) h.system)
  rcases result : m.openDir (path.upTo depth) t.marks with ⟨answer, s'⟩
  rw [result] at opened
  cases answer with
  | error => exact opened
  | ok dir =>
    simp only
    by_cases deep : 0 < depth
    · have inside : (path.upTo depth).names ≠ [] := by
        refine ne_nil_of_length_pos ?_
        simp only [Path.upTo, length_take]
        exact lt_min deep (bound deep)
      obtain ⟨fits, watched⟩ := opened.verify lawful inside (apart dir s' result) now
      simp only [if_pos deep]
      rcases verified : ({ t with marks := s' } : Table System Wd).verify m (path.upTo depth) dir now with ⟨held, t'⟩
      rw [verified] at fits watched
      cases held with
      | false => exact fits
      | true => exact fits.installAll lawful path now depth dir (watched rfl)
    · obtain rfl : depth = 0 := by omega
      simp only [lt_self_iff_false, if_false, if_true]
      refine opened.installAll lawful path now 0 dir fun n found => ?_
      simp [Forest.get] at found

end Fits

theorem touch_same (t : Table System Wd) (dir : Path) (now : ℕ) :
    SameBooks t (t.touch dir now).2 ∧ (t.touch dir now).2.marks = t.marks := by
  unfold Table.touch
  split_ifs
  · exact ⟨⟨⟨rfl, rfl, rfl⟩, rfl, rfl, rfl⟩, rfl⟩
  · split <;> exact ⟨⟨⟨rfl, rfl, rfl⟩, rfl, rfl, rfl⟩, rfl⟩

section Checks

variable {float : List (Wd × List Name)}

theorem isDir_asks (t : Table System Wd) (dir : Dir) (wd : Wd) :
    ∃ s, (t.isDir m dir wd).2 = { t with marks := s } := by
  unfold Table.isDir
  split
  · split_ifs <;> exact ⟨_, rfl⟩
  · exact ⟨_, rfl⟩

theorem Books.congr {J : System → (Wd → Prop) → Prop} {t' : Table System Wd} (h : Books I t l)
    (same : SameBooks t t') (system : J t'.marks fun wd => wd ∈ t.byWd) : Books J t' l := by
  refine ⟨?_, by rw [same.watched]; exact h.counted, by rw [same.underflowed]; exact h.sound, ?_⟩
  · rw [Table.recorded, same.byWd]
    exact h.recorded
  · rw [same.byWd]
    exact system

theorem isDir_system (lawful : Lawful m I) (dir : Dir) (known : wd ∈ t.byWd)
    (h : I t.marks fun x => x ∈ t.byWd) :
    I (t.isDir m dir wd).2.marks fun x => x ∈ t.byWd := by
  unfold Table.isDir
  rcases result : m.add dir t.marks with ⟨answer, s'⟩
  cases answer with
  | error => exact lawful.refused _ _ _ _ _ h result
  | ok found =>
    have added := lawful.added _ _ _ _ _ h result
    have recorded : found ∈ t.byWd → I s' fun x => x ∈ t.byWd := by
      intro held
      have same : (fun x => x ∈ t.byWd ∨ x = found) = fun x => x ∈ t.byWd := by
        funext x
        exact propext ⟨fun either => either.elim id fun same => same ▸ held, .inl⟩
      rwa [same] at added
    simp only
    split_ifs with same held
    · exact recorded (same ▸ known)
    · exact recorded (AList.lookup_isSome.mp held)
    · have absent : found ∉ t.byWd := fun mem => held (AList.lookup_isSome.mpr mem)
      have removed := lawful.rm _ _ _ added (.inr rfl)
      have same : (fun x => (x ∈ t.byWd ∨ x = found) ∧ x ≠ found) = fun x => x ∈ t.byWd := by
        funext x
        refine propext ⟨fun ⟨either, ne⟩ => either.elim id fun same => absurd same ne,
          fun mem => ⟨.inl mem, fun same => absent (same ▸ mem)⟩⟩
      rwa [same] at removed

theorem stillThere_asks (t : Table System Wd) (path : Path) :
    ∃ s, (t.stillThere m path).2 = { t with marks := s } := by
  unfold Table.stillThere
  split
  · exact ⟨_, rfl⟩
  · split
    · exact isDir_asks { t with marks := _ } _ _
    · exact ⟨_, rfl⟩

theorem stillThere_uses (t : Table System Wd) (path : Path) : SameUse t (t.stillThere m path).2 := by
  obtain ⟨s, asked⟩ := stillThere_asks (m := m) t path
  rw [asked]
  exact ⟨⟨rfl, rfl, rfl⟩, rfl, rfl, rfl, rfl⟩

theorem SameBooks.of_asks (h : ∃ s, t' = { t with marks := s }) : SameBooks t t' := by
  obtain ⟨s, rfl⟩ := h
  exact ⟨⟨rfl, rfl, rfl⟩, rfl, rfl, rfl⟩

theorem stillThere_same (t : Table System Wd) (path : Path) : SameBooks t (t.stillThere m path).2 :=
  .of_asks (stillThere_asks t path)

theorem Fits.stillThere (lawful : Lawful m I) (inside : path.names ≠ []) (h : Fits I r t float) :
    Fits I r (t.stillThere m path).2 float := by
  refine h.congr (stillThere_same t path) ?_
  unfold Table.stillThere
  cases here : t.watchedAt path with
  | none => exact h.system
  | some wd =>
    rw [watchedAt_eq inside] at here
    obtain ⟨n, found, watched⟩ := Option.bind_eq_some_iff.mp here
    have known : wd ∈ t.byWd := AList.lookup_isSome.mp (by simp [h.lookup_of_get found watched])
    have opened := lawful.openDir _ _ path h.system
    rcases result : m.openDir path t.marks with ⟨answer, s'⟩
    rw [result] at opened
    cases answer with
    | error => exact opened
    | ok dir => exact isDir_system (t := { t with marks := s' }) lawful dir known opened

/-- Relations with exempt descriptors; watching the directory of one confirms it. -/
structure Confirming (m : Marks System Dir Wd) (J : (Wd → Prop) → System → (Wd → Prop) → Prop) :
    Prop where
  lawful : ∀ E, Lawful m (J E)
  weaken : ∀ E E' s K, J E s K → (∀ x, K x → E x → E' x) → J E' s K
  confirm : ∀ E s s' K d wd, J E s K → m.add d s = (.ok wd, s') →
    J (fun x => E x ∧ x ≠ wd) s' fun x => K x ∨ x = wd

variable {J : (Wd → Prop) → System → (Wd → Prop) → Prop} {E : Wd → Prop}

theorem isDir_confirm (confirming : Confirming m J) {dir : Dir} (known : wd ∈ t.byWd)
    (same : (t.isDir m dir wd).1 = true) (h : J E t.marks fun x => x ∈ t.byWd) :
    J (fun x => E x ∧ x ≠ wd) (t.isDir m dir wd).2.marks fun x => x ∈ t.byWd := by
  revert same
  unfold Table.isDir
  rcases result : m.add dir t.marks with ⟨answer, s'⟩
  cases answer with
  | error => exact fun same => absurd same (by simp)
  | ok found =>
    simp only
    split_ifs with here held
    · intro _
      subst here
      have confirmed := confirming.confirm _ _ _ _ _ _ h result
      have all : (fun x => x ∈ t.byWd ∨ x = found) = fun x => x ∈ t.byWd := by
        funext x
        exact propext ⟨fun either => either.elim id fun same => same ▸ known, .inl⟩
      rwa [all] at confirmed
    · exact fun same => absurd same (by simp)
    · exact fun same => absurd same (by simp)

theorem stillHere_asks (t : Table System Wd) (parent : Dir) (name : Name) (mark : Mark Wd) :
    ∃ s, (t.stillHere m parent name mark).2 = { t with marks := s } := by
  unfold Table.stillHere
  split
  · exact ⟨_, rfl⟩
  · split
    · exact isDir_asks { t with marks := _ } _ _
    · exact ⟨_, rfl⟩

theorem stillHere_system (confirming : Confirming m J) (parent : Dir) (name : Name) {mark : Mark Wd}
    (known : ∀ wd, mark.wd? = some wd → wd ∈ t.byWd) (h : J E t.marks fun x => x ∈ t.byWd) :
    J E (t.stillHere m parent name mark).2.marks (fun x => x ∈ t.byWd) ∧
      ((t.stillHere m parent name mark).1.isSome → ∃ wd, mark.wd? = some wd ∧
        J (fun x => E x ∧ x ≠ wd) (t.stillHere m parent name mark).2.marks fun x => x ∈ t.byWd) := by
  unfold Table.stillHere
  cases watched : mark.wd? with
  | none => exact ⟨h, fun here => absurd here (by simp)⟩
  | some wd =>
    have opened := (confirming.lawful E).openChild _ _ parent name h
    rcases result : m.openChild parent name t.marks with ⟨answer, s'⟩
    rw [result] at opened
    cases answer with
    | error => exact ⟨opened, fun here => absurd here (by simp)⟩
    | ok dir =>
      have held := known wd watched
      refine ⟨isDir_system (t := { t with marks := s' }) (confirming.lawful E) dir held opened,
        fun here => ⟨wd, rfl, isDir_confirm (t := { t with marks := s' }) confirming held ?_ opened⟩⟩
      by_contra other
      simp [other] at here

theorem SameUse.recheckBelow (t : Table System Wd) (parent : Dir) (path : Path)
    (f : Forest Name (Mark Wd)) : SameUse t (Table.recheckBelow m t parent path f).1 := by
  induction f generalizing t parent path with
  | nil => exact refl t
  | node name mark below _ ihBelow ihRest =>
    have same : SameUse t (t.stillHere m parent name mark).2 := by
      obtain ⟨s, asked⟩ := stillHere_asks (m := m) t parent name mark
      rw [asked]
      exact ⟨⟨rfl, rfl, rfl⟩, rfl, rfl, rfl, rfl⟩
    unfold Table.recheckBelow
    rcases here : t.stillHere m parent name mark with ⟨answer, t'⟩
    rw [here] at same
    cases answer with
    | none => exact (same.trans (Drops.dropTree m t' true _ (mark, below)).toSameUse).trans (ihRest _ parent path)
    | some dir => exact (same.trans (ihBelow t' dir _)).trans (ihRest _ parent path)

theorem recheckBelow_thins (t : Table System Wd) (parent : Dir) (path : Path)
    (f : Forest Name (Mark Wd)) : Forest.Thins (Table.recheckBelow m t parent path f).2 f := by
  induction f generalizing t parent path with
  | nil => exact .nil
  | node name mark _ _ ihBelow ihRest =>
    unfold Table.recheckBelow
    rcases here : t.stillHere m parent name mark with ⟨answer, t'⟩
    cases answer with
    | none => exact .drop (ihRest _ parent path)
    | some dir => exact .keep (ihBelow t' dir _) (ihRest _ parent path)

/-- Keep what is confirmed and drop the rest; after that nothing of the forest is exempt. -/
theorem Books.recheckBelow (confirming : Confirming m J) (parent : Dir) (path : Path)
    {f : Forest Name (Mark Wd)}
    (h : Books (J fun x => E x ∨ x ∈ (f.collect Mark.wd? names).map Prod.fst) t
      (f.collect Mark.wd? names ++ l)) (root : l ≠ []) :
    Books (J E) (Table.recheckBelow m t parent path f).1
      ((Table.recheckBelow m t parent path f).2.collect Mark.wd? names ++ l) := by
  induction f generalizing t parent path names l E with
  | nil =>
    simpa [Table.recheckBelow, Forest.collect] using h
  | node name mark below rest ihBelow ihRest =>
    simp only [Forest.collect] at h ⊢
    have known : ∀ wd, mark.wd? = some wd → wd ∈ t.byWd := by
      intro wd watched
      exact h.mem_iff.mpr (by simp [watched])
    obtain ⟨checked, confirmed⟩ := stillHere_system (m := m) confirming parent name known h.system
    have same := SameBooks.of_asks (stillHere_asks (m := m) t parent name mark)
    unfold Table.recheckBelow
    rcases here : t.stillHere m parent name mark with ⟨answer, t'⟩
    rw [here] at checked confirmed same
    cases answer with
    | none =>
      have apart := h.nodup
      have whole := (h.congr same checked).perm (.of_eq (append_assoc _ _ _))
      have dropped : Books _ (t'.dropTree m true ((path.join name).getD path) (mark, below))
          (rest.collect Mark.wd? names ++ l) :=
        whole.dropTree (confirming.lawful _).rm true _ (by simp [root])
      refine ihRest parent path ⟨dropped.recorded, dropped.counted, dropped.sound,
        confirming.weaken _ _ _ _ dropped.system fun x held exempt => ?_⟩ root
      -- a descriptor just dropped is recorded no more
      rw [dropped.mem_iff] at held
      rw [append_assoc, map_append] at apart
      rcases exempt with exempt | listed
      · exact .inl exempt
      · rw [map_append, mem_append] at listed
        rcases listed with gone | left
        · exact absurd held (disjoint_of_nodup_append apart gone)
        · exact .inr left
    | some dir =>
      obtain ⟨wd, watched, system⟩ := confirmed rfl
      have left : J (fun x => (E x ∨ x ∈ (rest.collect Mark.wd? names).map Prod.fst) ∨
          x ∈ (below.collect Mark.wd? (names ++ [name])).map Prod.fst) t'.marks
          fun x => x ∈ t.byWd := by
        refine confirming.weaken _ _ _ _ system ?_
        rintro x - ⟨exempt | listed, ne⟩
        · exact .inl (.inl exempt)
        · simp only [map_append, mem_append, watched] at listed
          rcases listed with (this | below) | rest
          · exact absurd (by simpa using this) ne
          · exact .inr below
          · exact .inl (.inr rest)
      have inside := ihBelow dir ((path.join name).getD path) ((h.congr same left).perm (by
        simp only [append_assoc]
        exact perm_append_comm_assoc _ _ _)) (by simp [root])
      refine (ihRest parent path (inside.perm (perm_rotate _ _ _ _)) (by simp [root])).perm ?_
      simp only [Forest.collect, append_assoc]
      exact (perm_rotate _ _ _ _).trans (perm_append_comm_assoc _ _ _)

variable (m) in
theorem recheck_keeps (t : Table System Wd) :
    ∃ f, Forest.Thins f t.children ∧ SameUse { t with children := f } (t.recheck m) := by
  unfold Table.recheck
  split
  · next dir marks _ =>
      have same := SameUse.recheckBelow (m := m) { t with marks := marks, children := .nil } dir .root t.children
      exact ⟨_, recheckBelow_thins _ _ _ _, ⟨same.root, rfl, same.dead⟩, same.cells, same.round,
        same.capped, same.budget⟩
  · next marks _ =>
      have same := Drops.dropBelow m { t with marks := marks, children := .nil } true .root t.children
      exact ⟨.nil, .empty _, ⟨same.root, same.children, same.dead⟩, same.cells, same.round, same.capped,
        same.budget⟩

theorem Fits.recheck (confirming : Confirming m J)
    (h : Fits (J fun x => E x ∨ x ∈ (t.children.collect Mark.wd? []).map Prod.fst) r t []) :
    Fits (J E) r (t.recheck m) [] := by
  have books := h.books
  have opened := (confirming.lawful _).openDir _ _ .root h.system
  have emptied : ∀ s', (J (fun x => E x ∨ x ∈ (t.children.collect Mark.wd? []).map Prod.fst) s'
      fun x => x ∈ t.byWd) → Books (J fun x => E x ∨ x ∈ (t.children.collect Mark.wd? []).map Prod.fst)
        { t with marks := s', children := .nil } (t.children.collect Mark.wd? [] ++ [(r, [])]) := by
    intro s' system
    have turned := books.perm (.trans (.of_eq (append_nil _)) (perm_append_singleton _ _).symm)
    exact ⟨turned.recorded, turned.counted, turned.sound, system⟩
  unfold Table.recheck
  rcases result : m.openDir .root t.marks with ⟨answer, s'⟩
  rw [result] at opened
  cases answer with
  | ok dir =>
    have kept := (emptied s' opened).recheckBelow confirming dir .root (by simp)
    have tree := SameUse.recheckBelow (m := m)
      ({ t with marks := s', children := .nil } : Table System Wd) dir .root t.children
    have thin := recheckBelow_thins (m := m)
      ({ t with marks := s', children := .nil } : Table System Wd) dir .root t.children
    simp only
    generalize Table.recheckBelow m { t with marks := s', children := .nil } dir .root t.children = k
      at kept tree thin ⊢
    exact ⟨h.neat.thins thin, tree.root ▸ h.root, tree.dead ▸ h.alive,
      (kept.perm (.trans (perm_append_singleton _ _) (.of_eq (append_nil _).symm))).children _⟩
  | error =>
    have gone := (emptied s' opened).dropBelow (confirming.lawful _).rm true .root (by simp)
    have tree := Drops.dropBelow m ({ t with marks := s', children := .nil } : Table System Wd)
      true .root t.children
    have apart := books.nodup
    simp only
    generalize Table.dropBelow m true { t with marks := s', children := .nil } .root t.children = k
      at gone tree ⊢
    refine ⟨by rw [tree.children]; exact ⟨trivial, trivial⟩, tree.root ▸ h.root, tree.dead ▸ h.alive, ?_⟩
    rw [tree.children]
    refine ⟨gone.recorded, gone.counted, gone.sound, confirming.weaken _ _ _ _ gone.system ?_⟩
    rintro x held (exempt | listed)
    · exact exempt
    · rw [gone.mem_iff] at held
      obtain rfl : x = r := by simpa using held
      rw [append_nil, map_cons, nodup_cons] at apart
      exact absurd listed apart.1

end Checks

section Events

variable {moving : Moving Wd} {event : RawEvent Wd} {path : Path}

/-- Directories are taken out of the tree, and nothing else of it changes. -/
def Thinner (t t' : Table System Wd) : Prop :=
  ∃ f, Forest.Thins f t.children ∧ SameUse { t with children := f } t'

theorem Thinner.of_same (same : SameUse t t') (h : Thinner t' t'') : Thinner t t'' := by
  obtain ⟨f, thin, use⟩ := h
  exact ⟨f, same.children ▸ thin, ⟨use.root.trans same.root, use.children, use.dead.trans same.dead⟩,
    use.cells.trans same.cells, use.round.trans same.round, use.capped.trans same.capped,
    use.budget.trans same.budget⟩

theorem Thinner.same (same : SameUse t t') : Thinner t t' :=
  .of_same same ⟨_, .refl _, .refl _⟩

theorem Thinner.dropAt (m : Marks System Dir Wd) (t : Table System Wd) (announce : Bool) (path : Path) :
    Thinner t (t.dropAt m announce path) := by
  obtain ⟨f, thin, drops⟩ := dropAt_drops m t announce path
  exact ⟨f, thin, drops.toSameUse⟩

theorem push_uses (t : Table System Wd) (items : List EventItem) : SameUse t (t.push items) :=
  ⟨⟨rfl, rfl, rfl⟩, rfl, rfl, rfl, rfl⟩

/-- Everything that an event does to the tree and to the directories on their way. -/
inductive Applies (m : Marks System Dir Wd) (t : Table System Wd) (moving : Moving Wd)
    (event : RawEvent Wd) : Table System Wd × Moving Wd → Prop where
  | thins (t' : Table System Wd) (moving' : Moving Wd) (thinner : Thinner t t')
      (few : moving' = moving ∨ moving' = moving.erase event.cookie ∨ moving' = ∅) :
      Applies m t moving event (t', moving')
  | dies : Applies m t moving event (t.die.push [.overflow], moving)
  | leaves (path : Path) (t₀ t' : Table System Wd) (n : Node Wd) (kind : event.kind = .movedFrom)
      (directory : event.isDir = true) (same : SameUse t t₀) (found : t₀.detach path = (some n, t')) :
      Applies m t moving event (t', moving.insert event.cookie (path, n))
  | arrives (dir path source : Path) (name : Name) (t' : Table System Wd) (n : Node Wd)
      (kind : event.kind = .movedTo) (known : t.byWd.lookup event.wd = some dir)
      (joined : dir.join name = some path) (thinner : Thinner t t')
      (arrived : moving.lookup event.cookie = some (source, n)) :
      Applies m t moving event
        ((t'.rekey m path n).1.put m path (t'.rekey m path n).2, moving.erase event.cookie)

theorem movedFrom_applies (kind : event.kind = .movedFrom) (directory : event.isDir = true)
    (same : SameUse t t') : Applies m t moving event (t'.movedFrom m moving path event.cookie) := by
  have asked := same.trans (stillThere_uses (m := m) t' path)
  unfold Table.movedFrom
  generalize t'.stillThere m path = answer at asked ⊢
  obtain ⟨still, t₀⟩ := answer
  cases still with
  | true => exact .thins _ _ (.same asked) (.inl rfl)
  | false =>
    simp only
    split
    · next n _ found => exact .leaves path t₀ _ n kind directory asked found
    · next found =>
        obtain rfl := Fits.detach_none found
        exact .thins _ _ (.same asked) (.inl rfl)

theorem movedTo_applies {dir : Path} {name : Name} (kind : event.kind = .movedTo)
    (known : t.byWd.lookup event.wd = some dir) (joined : dir.join name = some path)
    (same : SameUse t t') : Applies m t moving event (t'.movedTo m moving path event.cookie) := by
  have asked := same.trans (stillThere_uses (m := m) t' path)
  unfold Table.movedTo
  simp only
  generalize t'.stillThere m path = answer at asked ⊢
  obtain ⟨still, t₀⟩ := answer
  cases still with
  | true =>
    refine .thins _ _ (.same ?_) (.inr (.inl rfl))
    cases moving.lookup event.cookie with
    | none => exact asked
    | some a => exact asked.trans (Drops.dropTree m t₀ true a.1 a.2).toSameUse
  | false =>
    have thinner := Thinner.of_same asked (.dropAt m t₀ true path)
    cases arrived : moving.lookup event.cookie with
    | none => exact .thins _ _ thinner (.inr (.inl rfl))
    | some a => exact .arrives dir path a.1 name _ a.2 kind known joined thinner arrived

theorem applyEntry_applies {dir : Path} (known : t.byWd.lookup event.wd = some dir) :
    Applies m t moving event (t.applyEntry m moving dir event) := by
  have keeps : ∀ items, Applies m t moving event (t.push items, moving) := fun items =>
    .thins _ _ (.same (push_uses t items)) (.inl rfl)
  unfold Table.applyEntry Table.report
  cases event.name with
  | none =>
    simp only
    split_ifs
    · exact keeps _
    · exact .thins _ _ (.same (.refl _)) (.inl rfl)
  | some name =>
    simp only
    split_ifs with directory
    · cases joined : dir.join name with
      | none => exact keeps _
      | some path =>
        simp only [Table.entryChanged]
        split
        · next kind => exact movedFrom_applies kind directory (push_uses t _)
        · next kind => exact movedTo_applies kind known joined (push_uses t _)
        · have asked := (push_uses t (itemsFor dir event.kind name)).trans (stillThere_uses (m := m) _ path)
          refine .thins _ _ ?_ (.inl rfl)
          unfold Table.deleted
          split
          · next result =>
              rw [result] at asked
              exact .same asked
          · next result =>
              rw [result] at asked
              exact .of_same asked (.dropAt m _ true path)
        · exact keeps _
    · exact keeps _

theorem applyEvent_applies (t : Table System Wd) (moving : Moving Wd) (event : RawEvent Wd) :
    Applies m t moving event (t.applyEvent m moving event) := by
  have ended : ∀ dir kind, Applies m t moving event (t.ended m dir kind, moving) := by
    intro dir kind
    unfold Table.ended
    split_ifs
    · exact .dies
    · exact .thins _ _ (.dropAt m t false dir) (.inl rfl)
    · exact .thins _ _ (.same (.refl _)) (.inl rfl)
  unfold Table.applyEvent
  split_ifs
  · exact .thins _ _ (.same (.refl _)) (.inl rfl)
  · have dropped := (Drops.dropMoving m t moving).toSameUse
    have checked : Thinner _ _ := recheck_keeps m ((t.dropMoving m moving).push [.overflow])
    exact .thins _ _ (.of_same dropped (.of_same (push_uses _ _) checked)) (.inr (.inr rfl))
  · split
    · exact .thins _ _ (.same (.refl _)) (.inl rfl)
    · next dir known =>
        unfold Table.applyIn
        split
        · exact ended dir _
        · exact ended dir _
        · exact ended dir _
        · exact .thins _ _ (.same (.refl _)) (.inl rfl)
        · exact applyEntry_applies known

end Events

end JackalopeFs.WatchTable
