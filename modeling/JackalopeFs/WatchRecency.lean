import JackalopeFs.WatchEviction
import JackalopeFs.WatchReports

/-! # How recent the watched directories are

Every directory of the table has the eviction round it was last used in.  Naming a directory
stamps every directory above it with the round, so that one would not be older than those
below it; but the round rises within a request that evicts, after the directories above
have been stamped, and directories that are moved take their stamps with them.

`Falling` says of a list of trees with cells of their own that no directory is newer than
the one it is in, up to the root; the tree and the directories on their way are such a
list.  Taking a directory out, putting one in below one of the current round or of a later
use, dropping directories and stamping those along a path keep it.
-/

namespace JackalopeFs.WatchTable

open List NamedForests PathNames TransitionRuns

set_option linter.unusedSectionVars false

variable {System Dir Wd : Type} [DecidableEq Wd]

/-- The round the directory with this cell was last used in. -/
def usedIn (cells : List Cell) (cell : ℕ) : ℕ :=
  ((cells[cell]?).getD ⟨0, 0⟩).used

def cellsOf (n : Node Wd) : List ℕ :=
  (n.2.collect (fun mark => some mark.cell) []).map Prod.fst |>.cons n.1.cell

/-- A directory was not used later than the one it is in, unless that has the cell `top`. -/
def NotNewer (cells : List Cell) (top : ℕ) (above : Mark Wd) (_ : Name) (below : Mark Wd) : Prop :=
  above.cell = top ∨ usedIn cells below.cell ≤ usedIn cells above.cell

/-- Trees with cells of their own in which no directory is newer than the one it is in. -/
structure Falling (cells : List Cell) (round top : ℕ) (nodes : List (Node Wd)) : Prop where
  distinct : ∀ n ∈ nodes, n.2.Distinct
  apart : (nodes.flatMap cellsOf).Nodup
  within : ∀ c ∈ nodes.flatMap cellsOf, c < cells.length
  rounds : ∀ c, usedIn cells c ≤ round
  falls : ∀ n ∈ nodes, Forest.Edges (NotNewer cells top) n

section Trees

variable {cells cells' : List Cell} {round round' top : ℕ} {nodes nodes' rest : List (Node Wd)}
variable {v : Mark Wd} {f g slot : Forest Name (Mark Wd)} {n m m' : Node Wd} {path names : List Name}
variable {name : Name}

theorem map_fst_collectNode (path : List Name) (n : Node Wd) :
    (Forest.collectNode (fun mark => some mark.cell) path n).map Prod.fst = cellsOf n :=
  congrArg (n.1.cell :: ·) (Forest.map_fst_collect path [])

theorem cellsOf_erase (distinct : f.Distinct) (inside : f.under path = some slot)
    (here : slot.lookup name = some n) :
    (cellsOf (v, f)).Perm (cellsOf (v, f.change path (Forest.erase name)) ++ cellsOf n) := by
  have split : (f.collect (fun mark => some mark.cell) []).Perm _ :=
    Forest.collect_detach distinct inside here
  have split := split.map Prod.fst
  rw [map_append, map_fst_collectNode] at split
  exact (split.trans perm_append_comm).cons v.cell

theorem cellsOf_insert (distinct : f.Distinct) (inside : f.under path = some slot) :
    (cellsOf (v, f.change path (Forest.insert name n))).Subperm (cellsOf (v, f) ++ cellsOf n) := by
  obtain ⟨gone, split⟩ : ∃ gone, (_ ++ f.collect (fun mark => some mark.cell) []).Perm
      (gone ++ (f.change path (Forest.insert name n)).collect (fun mark => some mark.cell) []) :=
    Forest.collect_put distinct inside
  have split := split.map Prod.fst
  rw [map_append, map_fst_collectNode, map_append] at split
  have fewer := (sublist_append_right _ _).subperm.trans (split.symm.trans perm_append_comm).subperm
  exact subperm_cons v.cell |>.mpr fewer

theorem cellsOf_thins (thin : Forest.Thins g f) : (cellsOf (v, g)).Sublist (cellsOf (v, f)) :=
  (thin.collect.map Prod.fst).cons_cons v.cell

theorem mem_cellsOf (distinct : n.2.Distinct) (found : Forest.nodeAt n path = some m) :
    m.1.cell ∈ cellsOf n := by
  by_cases inside : path = []
  · subst inside
    cases found
    exact mem_cons_self
  · rw [← Forest.get_eq_nodeAt n.1 inside] at found
    refine mem_cons_of_mem _ (mem_map.mpr ⟨(m.1.cell, path), ?_, rfl⟩)
    exact (Forest.mem_collect distinct).mpr ⟨path, m, rfl, found, rfl⟩

theorem path_unique (distinct : n.2.Distinct) (apart : (cellsOf n).Nodup)
    (here : Forest.nodeAt n path = some m) (there : Forest.nodeAt n names = some m')
    (same : m.1.cell = m'.1.cell) : path = names := by
  obtain ⟨fresh, apart⟩ := nodup_cons.mp apart
  have listed : ∀ {path m}, path ≠ [] → Forest.nodeAt n path = some m →
      (m.1.cell, path) ∈ n.2.collect (fun mark => some mark.cell) [] := by
    intro path m inside found
    rw [← Forest.get_eq_nodeAt n.1 inside] at found
    exact (Forest.mem_collect distinct).mpr ⟨path, m, rfl, found, rfl⟩
  by_cases root : path = []
  · subst root
    cases here
    by_contra other
    have below := mem_map_of_mem (f := Prod.fst) (listed (Ne.symm other) there)
    rw [← same] at below
    exact fresh below
  · by_cases root' : names = []
    · subst root'
      cases there
      have below := mem_map_of_mem (f := Prod.fst) (listed root here)
      rw [same] at below
      exact absurd below fresh
    · have both := inj_on_of_nodup_map apart (listed root here) (listed root' there) same
      exact (Prod.mk.inj both).2

namespace Falling

theorem of_cells (h : Falling cells round top nodes)
    (few : (nodes'.flatMap cellsOf).Subperm (nodes.flatMap cellsOf)) (distinct : ∀ n ∈ nodes', n.2.Distinct)
    (falls : ∀ n ∈ nodes', Forest.Edges (NotNewer cells top) n) : Falling cells round top nodes' := by
  refine ⟨distinct, ?_, fun c mem => h.within c (few.subset mem), h.rounds, falls⟩
  obtain ⟨some, perm, sub⟩ := few
  exact perm.nodup_iff.mp (sub.nodup h.apart)

theorem part (h : Falling cells round top nodes) (part : nodes'.Subperm nodes) :
    Falling cells round top nodes' := by
  refine h.of_cells ?_ (fun n mem => h.distinct n (part.subset mem)) fun n mem => h.falls n (part.subset mem)
  obtain ⟨some, perm, sub⟩ := part
  exact (perm.flatMap_right cellsOf).symm.subperm.trans (sub.flatMap cellsOf).subperm

theorem grow (h : Falling cells round top nodes) (long : cells.length ≤ cells'.length)
    (same : ∀ c < cells.length, usedIn cells' c = usedIn cells c) (rounds : ∀ c, usedIn cells' c ≤ round') :
    Falling cells' round' top nodes := by
  refine ⟨h.distinct, h.apart, fun c mem => (h.within c mem).trans_le long, rounds, fun n mem => ?_⟩
  have inside : ∀ {path m}, Forest.nodeAt n path = some m → m.1.cell < cells.length := fun found =>
    h.within _ (mem_flatMap.mpr ⟨n, mem, mem_cellsOf (h.distinct n mem) found⟩)
  refine (h.falls n mem).imp fun path name m m' here below old => ?_
  rwa [NotNewer, same _ (inside here), same _ (inside below)]

theorem thin (h : Falling cells round top ((v, f) :: rest)) (thin : Forest.Thins g f) :
    Falling cells round top ((v, g) :: rest) := by
  obtain ⟨whole, wholes⟩ := forall_mem_cons.mp h.distinct
  obtain ⟨falls, others⟩ := forall_mem_cons.mp h.falls
  refine h.of_cells ?_ (forall_mem_cons.mpr ⟨thin.distinct whole, wholes⟩)
    (forall_mem_cons.mpr ⟨falls.thins whole thin, others⟩)
  exact ((cellsOf_thins thin).append_right _).subperm

theorem take (h : Falling cells round top ((v, f) :: rest)) (inside : f.under path = some slot)
    (here : slot.lookup name = some n) :
    Falling cells round top ((v, f.change path (Forest.erase name)) :: n :: rest) := by
  obtain ⟨whole, wholes⟩ := forall_mem_cons.mp h.distinct
  obtain ⟨falls, others⟩ := forall_mem_cons.mp h.falls
  have thin : Forest.Thins (f.change path (Forest.erase name)) f := .change _ _ fun below => .erase below name
  have found : Forest.nodeAt (v, f) (path ++ [name]) = some n := by
    rw [← Forest.get_eq_nodeAt v (by simp), Forest.get_append, inside]
    exact here
  refine h.of_cells ?_
    (forall_mem_cons.mpr ⟨thin.distinct whole,
      forall_mem_cons.mpr ⟨(whole.under inside).lookup here, wholes⟩⟩)
    (forall_mem_cons.mpr ⟨falls.thins whole thin, forall_mem_cons.mpr ⟨falls.nodeAt found, others⟩⟩)
  simp only [flatMap_cons, ← append_assoc]
  exact ((cellsOf_erase whole inside here).symm.append_right _).subperm

theorem put (h : Falling cells round top ((v, f) :: n :: rest)) (inside : f.under path = some slot)
    (joint : ∀ m, Forest.nodeAt (v, f) path = some m → NotNewer cells top m.1 name n.1) :
    Falling cells round top ((v, f.change path (Forest.insert name n)) :: rest) := by
  obtain ⟨whole, wholes⟩ := forall_mem_cons.mp h.distinct
  obtain ⟨falls, others⟩ := forall_mem_cons.mp h.falls
  obtain ⟨wholeNode, wholes⟩ := forall_mem_cons.mp wholes
  obtain ⟨fallsNode, others⟩ := forall_mem_cons.mp others
  refine h.of_cells ?_
    (forall_mem_cons.mpr ⟨whole.change fun slot _ distinct => distinct.insert name wholeNode, wholes⟩)
    (forall_mem_cons.mpr ⟨falls.insert fallsNode joint, others⟩)
  simp only [flatMap_cons, ← append_assoc]
  exact (subperm_append_right _).mpr (cellsOf_insert whole inside)

theorem add (h : Falling cells round top nodes) (state : State Wd) :
    Falling (cells ++ [⟨round, 0⟩]) round top ((⟨state, cells.length⟩, .nil) :: nodes) := by
  have same : ∀ c < cells.length, usedIn (cells ++ [⟨round, 0⟩]) c = usedIn cells c := by
    intro c inside
    rw [usedIn, getElem?_append_left inside, usedIn]
  have grown : Falling (cells ++ [⟨round, 0⟩]) round top nodes := by
    refine h.grow (by simp) same fun c => ?_
    rcases Nat.lt_trichotomy c cells.length with inside | rfl | beyond
    · exact (same c inside).trans_le (h.rounds c)
    · simp [usedIn]
    · rw [usedIn, getElem?_eq_none (by simp; omega)]
      exact Nat.zero_le _
  have fresh : cells.length ∉ nodes.flatMap cellsOf := fun listed => absurd (h.within _ listed) (by simp)
  exact ⟨forall_mem_cons.mpr ⟨trivial, grown.distinct⟩, nodup_cons.mpr ⟨fresh, grown.apart⟩,
    forall_mem_cons.mpr ⟨by simp, grown.within⟩, grown.rounds,
    forall_mem_cons.mpr ⟨.leaf _ _, grown.falls⟩⟩

theorem used_le (h : Falling cells round n.1.cell [n]) (inside : names ≠ [])
    (here : Forest.nodeAt n names = some m) {more : List Name}
    (below : Forest.nodeAt n (names ++ more) = some m') :
    usedIn cells m'.1.cell ≤ usedIn cells m.1.cell := by
  have whole := h.distinct n mem_cons_self
  have apart : (cellsOf n).Nodup := by simpa using h.apart
  induction more generalizing names m with
  | nil =>
    rw [append_nil, here] at below
    cases below
    exact le_rfl
  | cons name _ ih =>
    rw [append_cons] at below
    cases next : Forest.nodeAt n (names ++ [name]) with
    | none =>
      rw [Forest.nodeAt_append, next] at below
      cases below
    | some k =>
      refine (ih (by simp) next below).trans ?_
      rcases h.falls n mem_cons_self names name m k here next with top | older
      · exact absurd (path_unique whole apart here (rfl : Forest.nodeAt n [] = some n) top) inside
      · exact older

end Falling

end Trees

section Stamps

variable {cells : List Cell} {round now cell c : ℕ}

theorem usedIn_modify {change : Cell → Cell} (same : ∀ cell, (change cell).used = cell.used) :
    usedIn (cells.modify cell change) c = usedIn cells c := by
  rw [usedIn, usedIn, getElem?_modify]
  cases cells[c]? with
  | none => rfl
  | some =>
    by_cases here : cell = c
    · simp [here, same]
    · simp [here]

theorem usedIn_stamp (cells : List Cell) (cell round c : ℕ) :
    usedIn (stamp cells cell round) c = usedIn cells c ∨
      usedIn (stamp cells cell round) c = round ∧ c = cell := by
  rw [usedIn, usedIn, stamp, getElem?_modify]
  by_cases here : cell = c
  · cases cells[c]? with
    | none => exact .inl rfl
    | some => exact .inr ⟨by simp [here], here.symm⟩
  · simp [here]

theorem usedIn_stamp_self (inside : cell < cells.length) : usedIn (stamp cells cell round) cell = round := by
  simp [usedIn, stamp, inside]

variable {mark : Mark Wd} {children : Forest Name (Mark Wd)} {names : List Name}

theorem watchedDepth_le (children : Forest Name (Mark Wd)) (names : List Name) :
    watchedDepth children names ≤ names.length := by
  induction names generalizing children with
  | nil => exact le_rfl
  | cons _ _ ih =>
    unfold watchedDepth
    split
    · exact Nat.zero_le _
    · split_ifs
      · exact Nat.succ_le_succ (ih _)
      · exact Nat.zero_le _

theorem dropLast_take_succ {i : ℕ} (inside : i < names.length) :
    (names.take (i + 1)).dropLast = names.take i := by
  rw [dropLast_eq_take, length_take, take_take, Nat.min_eq_left inside]
  simp

theorem walk_stamps_only (now : ℕ) (cells : List Cell) (mark : Mark Wd) (children : Forest Name (Mark Wd))
    (names : List Name) :
    (walk round now cells mark children names).1.length = cells.length ∧
    ∀ c, usedIn (walk round now cells mark children names).1 c = usedIn cells c ∨
      usedIn (walk round now cells mark children names).1 c = round ∧
      ∃ i n, i < watchedDepth children names ∧
        Forest.nodeAt (mark, children) (names.take (i + 1)) = some n ∧ n.1.cell = c := by
  induction names generalizing cells mark children with
  | nil => exact ⟨rfl, fun c => .inl rfl⟩
  | cons name _ ih =>
    unfold walk watchedDepth
    cases found : children.lookup name with
    | none => exact ⟨rfl, fun c => .inl rfl⟩
    | some child =>
      obtain ⟨child, below⟩ := child
      simp only
      cases state : child.state with
      | unwatchable => exact ⟨rfl, fun c => .inl rfl⟩
      | watched wd =>
        obtain ⟨length, stamped⟩ := ih (stamp cells child.cell round) child below
        refine ⟨length.trans (by simp [stamp]), fun c => ?_⟩
        simp only [Mark.wd?, state, Option.isSome_some, if_true]
        rcases stamped c with same | ⟨now, i, n, deep, here, last⟩
        · rcases usedIn_stamp cells child.cell round c with same' | ⟨now, rfl⟩
          · exact .inl (same.trans same')
          · exact .inr ⟨same.trans now, 0, (child, below), by omega, by simp [Forest.nodeAt, found], rfl⟩
        · refine .inr ⟨now, i + 1, n, by omega, ?_, last⟩
          rw [take_succ_cons, Forest.nodeAt, found]
          exact here

theorem walk_stamps {i : ℕ} {n : Node Wd} (deep : i < watchedDepth children names)
    (here : Forest.nodeAt (mark, children) (names.take (i + 1)) = some n) (inside : n.1.cell < cells.length) :
    usedIn (walk round now cells mark children names).1 n.1.cell = round := by
  induction names generalizing cells mark children i with
  | nil => cases deep
  | cons name rest ih =>
    unfold walk
    unfold watchedDepth at deep
    rw [take_succ_cons, Forest.nodeAt] at here
    cases found : children.lookup name with
    | none =>
      rw [found] at deep
      cases deep
    | some child =>
      obtain ⟨child, below⟩ := child
      simp only [found, Option.bind_some] at deep here ⊢
      cases state : child.state with
      | unwatchable => simp [Mark.wd?, state] at deep
      | watched wd =>
        simp only [Mark.wd?, state, Option.isSome_some, if_true] at deep
        cases i with
        | zero =>
          cases here
          rcases (walk_stamps_only now (stamp cells child.cell round) child below rest).2 child.cell
            with same | ⟨now, -⟩
          · exact same.trans (usedIn_stamp_self inside)
          · exact now
        | succ => exact ih (by omega) here (by simpa [stamp] using inside)

theorem Falling.walk (h : Falling cells round mark.cell [(mark, children)]) :
    Falling (walk round now cells mark children names).1 round mark.cell [(mark, children)] := by
  obtain ⟨length, stamped⟩ := walk_stamps_only now cells mark children names
  have whole := h.distinct _ mem_cons_self
  have apart : (cellsOf (mark, children)).Nodup := by simpa using h.apart
  have within : ∀ {path m}, Forest.nodeAt (mark, children) path = some m → m.1.cell < cells.length :=
    fun found => h.within _ (mem_flatMap.mpr ⟨_, mem_cons_self, mem_cellsOf whole found⟩)
  refine ⟨h.distinct, h.apart, fun c mem => length ▸ h.within c mem, fun c => ?_, ?_⟩
  · rcases stamped c with same | ⟨now, -⟩
    · exact same.trans_le (h.rounds c)
    · exact now.le
  · intro n mem
    obtain rfl := mem_singleton.mp mem
    refine (h.falls _ mem).imp fun path name m m' here below old => ?_
    rcases old with top | older
    · exact .inl top
    rcases stamped m'.1.cell with same | ⟨now', i, n, deep, there, last⟩
    · refine .inr (same.trans_le (older.trans ?_))
      rcases stamped m.1.cell with same' | ⟨now', -⟩
      · exact same'.ge
      · exact (h.rounds _).trans now'.ge
    · -- the one above is on the path as well, or the root
      have path_eq := path_unique whole apart below there last.symm
      have cut : path = names.take i := by
        rw [← dropLast_take_succ (deep.trans_le (watchedDepth_le children names)), ← path_eq,
          dropLast_concat]
      cases i with
      | zero =>
        rw [cut] at here
        cases here
        exact .inl rfl
      | succ =>
        rw [cut] at here
        exact .inr (now'.trans (walk_stamps (by omega) here (within here)).symm).le

end Stamps

namespace Table

/-- No directory of the tree, nor of those on their way, is newer than the one it is in, other than the
root. -/
def Recent (t : Table System Wd) (float : List (Node Wd)) : Prop :=
  Falling t.cells t.round t.root.cell ((t.root, t.children) :: float)

/-- The directory under these names is the root or was used in the current round. -/
def Fresh (t : Table System Wd) (names : List Name) : Prop :=
  ∀ n, Forest.nodeAt (t.root, t.children) names = some n →
    n.1.cell = t.root.cell ∨ usedIn t.cells n.1.cell = t.round

end Table

section Recent

variable {m : Marks System Dir Wd} {t t' : Table System Wd} {float : List (Node Wd)} {n : Node Wd}
variable {f : Forest Name (Mark Wd)} {path : Path} {names : List Name} {now : ℕ}

theorem used_cellAt (found : Forest.nodeAt (t.root, t.children) names = some n) :
    (t.cellAt names).used = usedIn t.cells n.1.cell := by
  rw [Table.cellAt, found]
  rfl

namespace Table.Fresh

theorem of_short (short : path.names.length ≤ 1) : t.Fresh path.names.dropLast := by
  have root : path.names.dropLast = [] := eq_nil_of_length_eq_zero (by simp; omega)
  rw [root]
  rintro n ⟨⟩
  exact .inl rfl

theorem same (h : t.Fresh names) (whole : t.children.Distinct) (thin : Forest.Thins f t.children)
    (use : SameUse { t with children := f } t') : t'.Fresh names := by
  intro n found
  rw [use.root, use.children] at found
  obtain ⟨old, there, same, -⟩ := thin.nodeAt whole found
  rw [use.cells, use.root, use.round, same]
  exact h old there

end Table.Fresh

namespace Table.Recent

theorem distinct (h : t.Recent float) : t.children.Distinct :=
  Falling.distinct h _ mem_cons_self

theorem within (h : t.Recent float) (found : Forest.nodeAt (t.root, t.children) names = some n) :
    n.1.cell < t.cells.length :=
  Falling.within h _ (mem_flatMap.mpr ⟨_, mem_cons_self, mem_cellsOf h.distinct found⟩)

theorem same (h : t.Recent float) (thin : Forest.Thins f t.children)
    (use : SameUse { t with children := f } t') : t'.Recent float := by
  unfold Recent
  rw [use.root, use.children, use.cells, use.round]
  exact Falling.thin h thin

theorem round (h : t.Recent float) {n : ℕ} (later : t.round ≤ n) (c : Option (ℕ × ℕ)) :
    ({ t with round := n, capped := c } : Table System Wd).Recent float :=
  Falling.grow h le_rfl (fun _ _ => rfl) fun cell => (Falling.rounds h cell).trans later

theorem drop (h : t.Recent (n :: float)) : t.Recent float :=
  Falling.part h ((sublist_cons_self n float).cons_cons _).subperm

theorem dropAt (h : t.Recent float) (announce : Bool) (path : Path) :
    (t.dropAt m announce path).Recent float := by
  obtain ⟨f, thin, drops⟩ := dropAt_drops m t announce path
  exact h.same thin drops.toSameUse

theorem detach (h : t.Recent float) (found : t.detach path = (some n, t')) : t'.Recent (n :: float) := by
  rcases Fits.detach_cases t path with ⟨same, _⟩ | ⟨parent, name, slot, _, _, inside, here, same⟩ <;>
    rw [same] at found <;> cases found
  exact Falling.take h inside here

theorem rekey (h : t.Recent (n :: float)) (path : Path) :
    (t.rekey m path n).1.Recent ((t.rekey m path n).2 :: float) := by
  have first : Falling t.cells t.round t.root.cell (n :: (t.root, t.children) :: float) :=
    Falling.part h (List.Perm.swap _ _ _).subperm
  have thinner := first.thin (rekeyBelow_thins m (t.rekeyMark path n.1) path n.2)
  have back : t.Recent ((t.rekey m path n).2 :: float) := thinner.part (List.Perm.swap _ _ _).subperm
  exact back.same (.refl _) (SameUse.rekey m t path n)

theorem put_below (h : t.Recent (n :: float))
    (joint : ∀ above, Forest.nodeAt (t.root, t.children) path.names.dropLast = some above →
      above.1.cell = t.root.cell ∨ usedIn t.cells n.1.cell ≤ usedIn t.cells above.1.cell) :
    (t.put m path n).Recent float := by
  rcases put_cases m t path n with ⟨_, same⟩ | ⟨parent, name, whole, ⟨_, drops⟩ | ⟨slot, inside, drops⟩⟩
  · rw [same]
    exact h.drop
  · exact h.drop.same (.refl _) drops.toSameUse
  · rw [whole, dropLast_concat] at joint
    have placed : ({ t with children := t.children.change parent (Forest.insert name n) } :
        Table System Wd).Recent float := Falling.put h inside joint
    exact placed.same (.refl _) drops.toSameUse

theorem put (h : t.Recent (n :: float)) (fresh : t.Fresh path.names.dropLast) :
    (t.put m path n).Recent float :=
  h.put_below fun above found => (fresh above found).imp_right fun now =>
    (Falling.rounds h _).trans now.ge

section

variable (h : t.Recent float) (fresh : t.Fresh path.names.dropLast)

include h fresh

theorem reroot (source : Path) :
    (t.reroot m source path).2.Recent float := by
  unfold Table.reroot
  obtain ⟨kept, thin, same⟩ := detach_eq t source
  rcases found : t.detach source with ⟨n, t'⟩
  cases n with
  | none => exact Fits.detach_none found ▸ h
  | some n =>
    rw [found] at same
    subst same
    have use := SameUse.rekey m { t with children := kept } path n
    exact ((h.detach found).rekey path).put (fresh.same h.distinct thin use)

theorem put_new (state : State Wd)
    (use : SameUse { t with cells := t.cells ++ [⟨t.round, 0⟩] } t') :
    (t'.put m path (⟨state, t.cells.length⟩, .nil)).Recent float := by
  have added : ({ t with cells := t.cells ++ [⟨t.round, 0⟩] } : Table System Wd).Recent
      ((⟨state, t.cells.length⟩, .nil) :: float) := (Falling.add h state).part (List.Perm.swap _ _ _).subperm
  refine (added.same (.refl _) use).put fun n found => ?_
  rw [use.root, use.children] at found
  rw [use.cells, use.root, use.round]
  rw [usedIn, getElem?_append_left (h.within found)]
  exact fresh n found

theorem enter (wd : Wd) :
    (t.enter m path wd).Recent float :=
  h.put_new fresh (.watched wd) ⟨⟨rfl, rfl, rfl⟩, rfl, rfl, rfl, rfl⟩

end

theorem outlives (m : Marks System Dir Wd) (float : List (Node Wd)) :
    Outlives m (fun path => path.names.length ≤ 1) fun t => t.Recent float where
  upTo _ _ short := (length_take_le' _ _).trans short
  asks _ _ h := h
  rounds _ _ c later h := h.round later c
  dropAt _ path h := h.dropAt true path
  reroot _ source _ short h := h.reroot (.of_short short) source
  enter _ _ wd short h := h.enter (.of_short short) wd
  refuse _ _ state short h := h.put_new (.of_short short) state (.refl _)

theorem hold (h : t.Recent float) (cell : ℕ) :
    ({ t with cells := WatchTable.hold t.cells cell } : Table System Wd).Recent float := by
  have same : ∀ c, usedIn (WatchTable.hold t.cells cell) c = usedIn t.cells c := fun c =>
    usedIn_modify fun _ => rfl
  exact Falling.grow h (by simp [WatchTable.hold]) (fun c _ => same c) fun c =>
    (same c).trans_le (Falling.rounds h c)

theorem unhold (h : t.Recent float) (cell : ℕ) :
    ({ t with cells := WatchTable.unhold t.cells cell } : Table System Wd).Recent float := by
  have same : ∀ c, usedIn (WatchTable.unhold t.cells cell) c = usedIn t.cells c := fun c =>
    usedIn_modify fun _ => rfl
  exact Falling.grow h (by simp [WatchTable.unhold]) (fun c _ => same c) fun c =>
    (same c).trans_le (Falling.rounds h c)

theorem touch (h : t.Recent []) (dir : Path) : (t.touch dir now).2.Recent [] := by
  have walked : ({ t with cells := (walk t.round now t.cells t.root t.children dir.names).1 } :
      Table System Wd).Recent [] := Falling.walk h
  unfold Table.touch
  split_ifs
  · exact h
  · split
    · next cells held result =>
        rw [result] at walked
        exact walked.hold held
    · next cells result =>
        rw [result] at walked
        exact walked

theorem arm (h : t.Recent []) {dir : Path} (short : dir.names.length ≤ 1) :
    (t.arm m dir now).2.Recent [] := by
  have touched : (t.touch dir now).2.Recent [] := h.touch dir
  unfold Table.arm
  split
  · next held t' result =>
      rw [result] at touched
      exact touched
  · next t' result =>
      rw [result] at touched
      exact ((outlives m []).extend touched short _).hold _

end Table.Recent

end Recent

section Events

variable {m : Marks System Dir Wd} {t t' : Table System Wd} {moving : Moving Wd} {path : Path}

def floating (moving : Moving Wd) : List (Node Wd) :=
  moving.entries.map fun e => e.2.2

theorem floating_insert (moving : Moving Wd) (cookie : ℕ) (path : Path) (n : Node Wd) :
    (floating (moving.insert cookie (path, n))).Sublist (n :: floating moving) :=
  ((moving.entries.kerase_sublist cookie).map _).cons_cons n

theorem floating_erase (moving : Moving Wd) (cookie : ℕ) :
    (floating (moving.erase cookie)).Sublist (floating moving) :=
  (moving.entries.kerase_sublist cookie).map _

theorem floating_lookup {cookie : ℕ} {source : Path} {n : Node Wd}
    (here : moving.lookup cookie = some (source, n)) :
    (floating moving).Perm (n :: floating (moving.erase cookie)) :=
  (KeyedTables.perm_erase_held here).map _

namespace Table

/-- What an event moves into a directory other than the root was not used later than that. -/
def steadyMove (t : Table System Wd) (moving : Moving Wd) (event : RawEvent Wd) : Bool :=
  match moving.lookup event.cookie, t.byWd.lookup event.wd with
  | some (_, n), some dir =>
    event.kind ≠ .movedTo || dir.isRoot || usedIn t.cells n.1.cell ≤ (t.cellAt dir.names).used
  | _, _ => true

namespace Recent

variable {float : List (Node Wd)}

theorem thinner (h : t.Recent float) (thinner : Thinner t t') : t'.Recent float := by
  obtain ⟨f, thin, use⟩ := thinner
  exact h.same thin use

theorem fewer (h : t.Recent (floating moving)) {float : List (Node Wd)}
    (fewer : float.Sublist (floating moving)) : t.Recent float :=
  Falling.part h (fewer.cons_cons _).subperm

theorem applies {event : RawEvent Wd} {next : Table System Wd × Moving Wd} (h : t.Recent (floating moving))
    (applied : Applies m t moving event next) (steady : t.steadyMove moving event = true) :
    next.1.Recent (floating next.2) := by
  cases applied with
  | thins _ _ thinner few =>
    rcases few with rfl | rfl | rfl
    · exact h.thinner thinner
    · exact (h.thinner thinner).fewer (floating_erase moving _)
    · exact (h.thinner thinner).fewer (nil_sublist _)
  | dies => exact Falling.thin h (.empty _)
  | leaves path _ _ n _ _ same found =>
    exact Falling.part ((h.thinner (.same same)).detach found)
      ((floating_insert moving event.cookie path n).cons_cons _).subperm
  | arrives dir path _ name t' n kind known joined thinner arrived =>
    have taken : t.Recent (n :: floating (moving.erase event.cookie)) :=
      Falling.part h ((floating_lookup arrived).symm.cons _).subperm
    refine Recent.put_below ((taken.thinner thinner).rekey path) fun above found => ?_
    obtain ⟨f, thin, use⟩ := thinner
    have use := use.trans (SameUse.rekey m t' path n)
    rw [use.root, use.children, Path.fromNames_eq_some joined, dropLast_concat] at found
    obtain ⟨old, there, same, -⟩ := thin.nodeAt h.distinct found
    rw [use.cells, use.root, same]
    simp only [Table.steadyMove, arrived, known, kind, ne_eq, not_true_eq_false, decide_false,
      Bool.false_or, Bool.or_eq_true, decide_eq_true_eq] at steady
    rcases steady with root | older
    · rw [isEmpty_iff.mp root] at there
      cases there
      exact .inl rfl
    · exact .inr (older.trans_eq (used_cellAt there))

end Recent

end Table

end Events

structure Answers (Wd : Type) where
  opens : List (Option Errno)
  adds : List (Except Errno Wd)
  deriving DecidableEq, Repr

def given (adds : List (Except Errno Wd)) : List Wd :=
  adds.filterMap Except.toOption

namespace Answers

variable {Wd : Type}

def opened (s : Answers Wd) : Except Errno Unit × Answers Wd :=
  match s.opens with
  | [] => (.error .enoent, s)
  | none :: rest => (.ok (), { s with opens := rest })
  | some e :: rest => (.error e, { s with opens := rest })

def added (s : Answers Wd) : Except Errno Wd × Answers Wd :=
  match s.adds with
  | [] => (.error .enoent, s)
  | answer :: rest => (answer, { s with adds := rest })

end Answers

def answering : Marks (Answers Wd) Unit Wd where
  openDir _ := Answers.opened
  openChild _ _ := Answers.opened
  add _ := Answers.added
  rm _ s := s

section Deep

variable {t t' : Table (Answers Wd) Wd} {path : Path} {now need : ℕ} {wd : Wd}

def Table.limit (t : Table System Wd) (now : ℕ) : ℕ :=
  match t.capped with
  | some (cap, till) => if now < till then cap else t.budget
  | none => t.budget

theorem budgetAt_fst (t : Table System Wd) (now : ℕ) : (t.budgetAt now).1 = t.limit now := by
  cases capped : t.capped with
  | none => simp only [Table.budgetAt, Table.limit, capped]
  | some =>
    simp only [Table.budgetAt, Table.limit, capped]
    split_ifs <;> rfl

/-- The budget has room for so many more watches, the system has too, and all its descriptors are new. -/
structure Table.Calm (t : Table (Answers Wd) Wd) (now need : ℕ) : Prop where
  room : t.watched + need ≤ t.limit now
  space : .error .enospc ∉ t.marks.adds
  new : ∀ wd ∈ given t.marks.adds, t.byWd.lookup wd = none
  once : (given t.marks.adds).Nodup

theorem dropMark_marks (t : Table (Answers Wd) Wd) (announce : Bool) (path : Path) (mark : Mark Wd) :
    (t.dropMark answering announce path mark).marks = t.marks := by
  unfold Table.dropMark
  split
  · rfl
  · exact ite_self _

theorem dropTree_marks (t : Table (Answers Wd) Wd) (announce : Bool) (path : Path) (n : Node Wd) :
    (t.dropTree answering announce path n).marks = t.marks := by
  have dropBelow : ∀ f (t : Table (Answers Wd) Wd) path,
      (Table.dropBelow answering announce t path f).marks = t.marks := by
    intro f
    induction f with
    | nil => exact fun t path => rfl
    | node _ mark _ _ ihBelow ihRest =>
      exact fun t path => (ihRest _ path).trans ((dropMark_marks _ announce _ mark).trans (ihBelow t _))
  exact (dropMark_marks _ announce path n.1).trans (dropBelow n.2 t path)

theorem put_marks (t : Table (Answers Wd) Wd) (path : Path) (n : Node Wd) :
    (t.put answering path n).marks = t.marks := by
  unfold Table.put
  split
  · rfl
  · split
    · exact dropTree_marks t true path n
    · split
      · exact dropTree_marks _ true path _
      · rfl

theorem dropAt_marks (t : Table (Answers Wd) Wd) (announce : Bool) (path : Path) :
    (t.dropAt answering announce path).marks = t.marks := by
  obtain ⟨f, _, same⟩ := detach_eq t path
  unfold Table.dropAt
  split
  · next n t' found =>
      rw [found] at same
      subst same
      exact dropTree_marks _ announce path n
  · next t' found =>
      rw [found] at same
      subst same
      rfl

theorem opened_adds (s : Answers Wd) : s.opened.2.adds = s.adds := by
  unfold Answers.opened
  split <;> rfl

theorem budgetAt_eq (t : Table System Wd) (now : ℕ) : ∃ c, (t.budgetAt now).2 = { t with capped := c } := by
  unfold Table.budgetAt
  split
  · split_ifs
    · exact ⟨_, rfl⟩
    · exact ⟨none, rfl⟩
  · exact ⟨_, rfl⟩

namespace Table.Calm

theorem drops (h : t.Calm now need) (drops : Drops t t') (marks : t'.marks.adds = t.marks.adds) :
    t'.Calm now need := by
  have limit : t'.limit now = t.limit now := by
    rw [Table.limit, drops.capped, drops.budget, Table.limit]
  refine ⟨?_, ?_, fun wd listed => drops.byWd wd (h.new wd (marks ▸ listed)), ?_⟩
  · rw [limit]
    exact (Nat.add_le_add_right drops.watched need).trans h.room
  · rw [marks]
    exact h.space
  · rw [marks]
    exact h.once

theorem put (h : t.Calm now need) (path : Path) (n : Node Wd) : (t.put answering path n).Calm now need := by
  have marks := congrArg Answers.adds (put_marks t path n)
  rcases put_cases answering t path n with ⟨_, same⟩ | ⟨parent, name, _, ⟨_, drops⟩ | ⟨_, _, drops⟩⟩
  · rw [same]
    exact h
  · exact h.drops drops marks
  · have same : ({ t with children := t.children.change parent (Forest.insert name n) } :
        Table (Answers Wd) Wd).Calm now need := ⟨h.room, h.space, h.new, h.once⟩
    exact same.drops drops marks

/-- The next answer is a new descriptor or an error that needs no eviction. -/
theorem added (h : t.Calm now need) :
    Table.noSpace t.marks.added.1 = false ∧
    ({ t with marks := t.marks.added.2 } : Table (Answers Wd) Wd).Calm now need ∧
    ∀ wd, t.marks.added.1 = .ok wd → t.byWd.lookup wd = none ∧ wd ∉ given t.marks.added.2.adds := by
  have space := h.space
  have new := h.new
  have once := h.once
  unfold Answers.added
  cases adds : t.marks.adds with
  | nil => exact ⟨rfl, h, fun wd answer => by cases answer⟩
  | cons answer rest =>
    rw [adds] at space new once
    refine ⟨?_, ⟨h.room, fun mem => space (mem_cons_of_mem _ mem), fun wd listed => new wd ?_, ?_⟩, ?_⟩
    · cases answer with
      | ok => rfl
      | error e =>
        cases e with
        | enospc => exact absurd mem_cons_self space
        | enoent => rfl
        | other => rfl
    · exact (sublist_cons_self answer rest).filterMap _ |>.subset listed
    · exact ((sublist_cons_self answer rest).filterMap _).nodup once
    · rintro wd rfl
      exact ⟨new wd mem_cons_self, (nodup_cons.mp once).1⟩

end Table.Calm

/-- The next directory may be watched below the one under these names, and so many in all. -/
structure Table.Ready (t : Table (Answers Wd) Wd) (names : List Name) (now need : ℕ) : Prop where
  recent : t.Recent []
  fresh : t.Fresh names
  calm : t.Calm now need

theorem fresh_enter {m : Marks System Dir Wd} (t : Table System Wd) (path : Path) (wd : Wd) :
    (t.enter m path wd).Fresh path.names := by
  unfold Table.enter
  intro n found
  rcases put_cases m _ path _ with ⟨root, same⟩ | ⟨parent, name, whole, ⟨absent, drops⟩ | ⟨slot, inside, drops⟩⟩
  · rw [root] at found
    cases found
    exact .inl rfl
  · rw [drops.root, drops.children, whole, Forest.nodeAt_concat] at found
    obtain ⟨above, there, -⟩ := Option.bind_eq_some_iff.mp found
    rw [Forest.under_eq_nodeAt _, there] at absent
    cases absent
  · rw [drops.root, drops.children, whole, Forest.nodeAt_change] at found
    obtain ⟨above, -, here⟩ := Option.bind_eq_some_iff.mp found
    simp only [Forest.nodeAt, Forest.lookup_insert, if_pos, Option.bind_some] at here
    cases here
    rw [drops.cells, drops.round]
    simp [usedIn, Table.newMark]

namespace Table.Ready

theorem place (h : t.Ready path.names.dropLast now (need + 1)) (new : t.byWd.lookup wd = none)
    (unused : wd ∉ given t.marks.adds) : (t.place answering path wd now).2.Ready path.names now need := by
  have room := h.calm.room
  obtain ⟨c, same⟩ := budgetAt_eq t now
  have limit : ({ t with capped := c } : Table (Answers Wd) Wd).limit now = t.limit now := by
    rw [← same, ← budgetAt_fst, budgetAt_budgetAt, budgetAt_fst]
  have placed : (t.place answering path wd now).2 = ({ t with capped := c }).enter answering path wd := by
    simp only [Table.place, new, same, budgetAt_fst]
    rw [if_neg (by omega)]
  rw [placed]
  refine ⟨Recent.enter (t := { t with capped := c }) h.recent h.fresh wd, fresh_enter _ path wd, ?_⟩
  apply Calm.put
  refine ⟨?_, h.calm.space, fun x listed => ?_, h.calm.once⟩
  · change t.watched + 1 + need ≤ ({ t with capped := c } : Table (Answers Wd) Wd).limit now
    omega
  · have ne : x ≠ wd := by
      rintro rfl
      exact unused listed
    exact (AList.lookup_insert_ne ne).trans (h.calm.new x listed)

theorem dropAt {names : List Name} (h : t.Ready names now need) (path : Path)
    (new : t.byWd.lookup wd = none) (unused : wd ∉ given t.marks.adds) :
    (t.dropAt answering true path).Ready names now need ∧
      (t.dropAt answering true path).byWd.lookup wd = none ∧
      wd ∉ given (t.dropAt answering true path).marks.adds := by
  obtain ⟨kept, thin, drops⟩ := dropAt_drops answering t true path
  have marks := dropAt_marks t true path
  have calm : ({ t with children := kept } : Table (Answers Wd) Wd).Calm now need :=
    ⟨h.calm.room, h.calm.space, h.calm.new, h.calm.once⟩
  refine ⟨⟨h.recent.dropAt true path, h.fresh.same h.recent.distinct thin drops.toSameUse,
    calm.drops drops (congrArg Answers.adds marks)⟩, drops.byWd wd new, ?_⟩
  rw [marks]
  exact unused

theorem install (h : t.Ready path.names.dropLast now (need + 1)) (dir : Unit) :
    (t.install answering path dir now).2.Recent [] ∧
      ((t.install answering path dir now).1 = true →
        (t.install answering path dir now).2.Ready path.names now need) := by
  obtain ⟨space, calm, new⟩ := h.calm.added
  have added : t.addMark answering path dir now = (t.marks.added.1, { t with marks := t.marks.added.2 }) := by
    have none : ¬(Table.noSpace t.marks.added.1 = true ∧ 0 < t.watched) := by simp [space]
    exact if_neg none
  have ready : ({ t with marks := t.marks.added.2 } : Table (Answers Wd) Wd).Ready path.names.dropLast now
      (need + 1) := ⟨h.recent, h.fresh, calm⟩
  unfold Table.install
  rw [added]
  cases answer : t.marks.added.1 with
  | ok wd =>
    obtain ⟨absent, unused⟩ := new wd answer
    have placed := ready.place absent unused
    exact ⟨placed.recent, fun _ => placed⟩
  | error =>
    refine ⟨?_, fun installed => by cases installed⟩
    exact Recent.put_new (t := { t with marks := t.marks.added.2 }) h.recent h.fresh _ (.refl _)

/-- Watching one directory inside the other along a path, each is put below one of the current
round. -/
theorem installAll {rest : List Name} {depth : ℕ} (left : path.names.drop depth = rest)
    (h : t.Ready (path.names.take depth) now rest.length) (dir : Unit) :
    (Table.installAll answering path now t dir (rest.zipIdx (depth + 1))).Recent [] := by
  induction rest generalizing t dir depth with
  | nil => exact h.recent
  | cons _ rest ih =>
    have inside : depth < path.names.length := by
      by_contra beyond
      rw [drop_eq_nil_of_le (by omega)] at left
      cases left
    have calm := h.calm
    unfold Table.installAll
    rw [zipIdx_cons]
    simp only
    split
    · exact h.recent
    · next child marks opened =>
        have adds : marks.adds = t.marks.adds := by
          have same := opened_adds t.marks
          rw [show t.marks.opened = _ from opened] at same
          exact same
        have ready : ({ t with marks := marks } : Table (Answers Wd) Wd).Ready
            (path.upTo (depth + 1)).names.dropLast now (rest.length + 1) := by
          have cut : (path.upTo (depth + 1)).names.dropLast = path.names.take depth := dropLast_take_succ inside
          rw [cut]
          exact ⟨h.recent, h.fresh, h.calm.room, adds ▸ h.calm.space, adds ▸ h.calm.new, adds ▸ h.calm.once⟩
        obtain ⟨recent, next⟩ := ready.install child
        split
        · next t' result =>
            rw [result] at recent
            exact recent
        · next t' result =>
            rw [result] at next
            refine ih ?_ (next rfl) child
            rw [← drop_drop, left]
            rfl

end Table.Ready

/-- The budget and the system have room for a path and all descriptors are new, but that the first may be
the one of the deepest directory watched on it. -/
def Table.Roomy (t : Table (Answers Wd) Wd) (path : Path) (now : ℕ) : Prop :=
  t.watched + path.names.length ≤ (t.budgetAt now).1 ∧ .error .enospc ∉ t.marks.adds ∧
    (given t.marks.adds).Nodup ∧
    (∀ wd ∈ given (t.marks.adds.take 1), t.byWd.lookup wd = none ∨
      0 < watchedDepth t.children path.names ∧
        t.watchedAt (path.upTo (watchedDepth t.children path.names)) = some wd) ∧
    ∀ wd ∈ given (t.marks.adds.drop 1), t.byWd.lookup wd = none

instance (t : Table (Answers Wd) Wd) (path : Path) (now : ℕ) : Decidable (t.Roomy path now) :=
  instDecidableAnd

/-- A request is for a directory in the root, or there is room for it. -/
def Table.steadyArm (t : Table (Answers Wd) Wd) (path : Path) (now : ℕ) : Bool :=
  path.names.length ≤ 1 ∨ t.Roomy path now

theorem fresh_touch {dir : Path} (h : t.Recent []) (missing : t.touch dir now = (.missing, t')) :
    ∃ cells, t' = { t with cells := cells } ∧
      ∀ depth ≤ watchedDepth t.children dir.names, t'.Fresh (dir.names.take depth) := by
  have stamped := @walk_stamps Wd _ t.cells t.round now t.root t.children dir.names
  unfold Table.touch at missing
  split_ifs at missing
  · cases missing
  · split at missing
    · cases missing
    · next cells result =>
        cases missing
        rw [result] at stamped
        refine ⟨cells, rfl, fun depth deep n found => ?_⟩
        cases depth with
        | zero =>
          cases found
          exact .inl rfl
        | succ => exact .inr (stamped deep found (h.within found))

/-- The deepest watched directory on the path is the one there, or one just watched in its place. -/
theorem Table.Roomy.verify {depth : ℕ} (h : t.Roomy path now)
    (depth_eq : watchedDepth t.children path.names = depth + 1) (recent : t.Recent [])
    (fresh : ∀ depth ≤ watchedDepth t.children path.names, t.Fresh (path.names.take depth)) (dir : Unit) :
    (t.verify answering (path.upTo (depth + 1)) dir now).2.Recent [] ∧
      ((t.verify answering (path.upTo (depth + 1)) dir now).1 = true →
        (t.verify answering (path.upTo (depth + 1)) dir now).2.Ready (path.names.take (depth + 1)) now
          (path.names.drop (depth + 1)).length) := by
  obtain ⟨room, space, once, first, new⟩ := h
  have long := watchedDepth_le t.children path.names
  have cut : (path.upTo (depth + 1)).names.dropLast = path.names.take depth := dropLast_take_succ (by omega)
  rw [depth_eq] at first fresh long
  rw [budgetAt_fst] at room
  unfold Table.verify
  cases watched : t.watchedAt (path.upTo (depth + 1)) with
  | none => exact ⟨recent, fun verified => by cases verified⟩
  | some =>
    simp only [answering, Answers.added]
    cases adds : t.marks.adds with
    | nil => exact ⟨recent, fun verified => by cases verified⟩
    | cons answer rest =>
      rw [adds] at space once first new
      cases answer with
      | error => exact ⟨recent, fun verified => by cases verified⟩
      | ok found =>
        obtain ⟨unused, once⟩ := nodup_cons.mp (show (found :: given rest).Nodup from once)
        have calm : ∀ need, need ≤ path.names.length →
            ({ t with marks := { t.marks with adds := rest } } : Table (Answers Wd) Wd).Calm now need :=
          fun need le => ⟨(Nat.add_le_add_left le _).trans room, fun mem => space (mem_cons_of_mem _ mem),
            new, once⟩
        simp only
        split_ifs with same
        · exact ⟨recent, fun _ => ⟨recent, fresh _ le_rfl, calm _ (by simp)⟩⟩
        · have absent : t.byWd.lookup found = none := by
            refine (first found (mem_cons_self)).resolve_right fun there => same ?_
            exact (Option.some.inj (watched.symm.trans there.2)).symm
          have ready : ({ t with marks := { t.marks with adds := rest } } : Table (Answers Wd) Wd).Ready
              (path.upTo (depth + 1)).names.dropLast now ((path.names.drop (depth + 1)).length + 1) :=
            ⟨recent, cut ▸ fresh depth (by omega), calm _ (by simp; omega)⟩
          obtain ⟨ready, absent, unused⟩ := ready.dropAt (path.upTo (depth + 1)) absent unused
          have placed := ready.place absent unused
          exact ⟨placed.recent, fun _ => placed⟩

theorem Table.Recent.arm_steady {dir : Path} (h : t.Recent []) (steady : t.steadyArm dir now = true) :
    (t.arm answering dir now).2.Recent [] := by
  rcases of_decide_eq_true steady with short | roomy
  · exact h.arm short
  have touched : (t.touch dir now).2.Recent [] := h.touch dir
  unfold Table.arm
  split
  · next held t' result =>
      rw [result] at touched
      exact touched
  · next t' result =>
      obtain ⟨cells, rfl, fresh⟩ := fresh_touch h result
      rw [result] at touched
      refine Recent.hold ?_ _
      unfold Table.extend
      have adds := opened_adds t.marks
      split
      · exact touched
      · next child marks opened =>
          rw [show t.marks.opened = _ from opened] at adds
          obtain ⟨room, space, once, first, new⟩ := roomy
          rw [budgetAt_fst] at room
          simp only
          cases deep : watchedDepth t.children dir.names with
          | zero =>
            rw [deep] at first
            have calm : ({ t with cells := cells, marks := marks } : Table (Answers Wd) Wd).Calm now
                (dir.names.drop 0).length := by
              refine ⟨room, adds ▸ space, ?_, adds ▸ once⟩
              rw [adds, ← take_append_drop 1 t.marks.adds]
              intro wd listed
              rw [given, filterMap_append, mem_append] at listed
              exact listed.elim (fun mem => (first wd mem).resolve_right (by simp)) (new wd)
            have ready : ({ t with cells := cells, marks := marks } : Table (Answers Wd) Wd).Ready
                (dir.names.take 0) now (dir.names.drop 0).length :=
              ⟨touched, fresh 0 (Nat.zero_le _), calm⟩
            exact ready.installAll rfl child
          | succ depth =>
            have roomy : ({ t with cells := cells, marks := marks } : Table (Answers Wd) Wd).Roomy dir now := by
              refine ⟨?_, adds ▸ space, adds ▸ once, adds ▸ first, adds ▸ new⟩
              rw [budgetAt_fst]
              exact room
            obtain ⟨recent, ready⟩ := roomy.verify deep touched fresh child
            rw [if_pos (Nat.succ_pos depth)]
            split_ifs with verified
            · exact (ready verified).installAll rfl child
            · exact recent

end Deep

structure Watching (Wd : Type) where
  table : Table (Answers Wd) Wd
  moving : Moving Wd

/-- What is done with the table; the system's answers are in the steps that ask it. -/
inductive Doing (Wd : Type) where
  | touch (dir : Path) (now : ℕ)
  | arm (dir : Path) (now : ℕ) (answers : Answers Wd)
  | hold (cell : ℕ)
  | release (cell : ℕ)
  | evict (keep : Path) (now : ℕ)
  | event (event : RawEvent Wd) (answers : Answers Wd)
  /-- The last event of a read has been applied. -/
  | applied

namespace Watching

def asked (s : Watching Wd) (answers : Answers Wd) : Table (Answers Wd) Wd :=
  { s.table with marks := answers }

def idle (s : Watching Wd) (table : Table (Answers Wd) Wd) : Option (Watching Wd) :=
  if s.moving.entries = [] then some { s with table := table } else none

def step (s : Watching Wd) : Doing Wd → Option (Watching Wd)
  | .touch dir now => s.idle (s.table.touch dir now).2
  | .arm dir now answers => s.idle ((s.asked answers).arm answering dir now).2
  | .hold cell => some { s with table := { s.table with cells := hold s.table.cells cell } }
  | .release cell => some { s with table := { s.table with cells := unhold s.table.cells cell } }
  | .evict keep now => s.idle (s.table.evict answering keep now)
  | .event event answers =>
    let (table, moving) := (s.asked answers).applyEvent answering s.moving event
    some ⟨table, moving⟩
  | .applied => some ⟨s.table.dropMoving answering s.moving, ∅⟩

/-- A request for a directory that is not in the root has room, and directories move below ones used as
late. -/
def steady (s : Watching Wd) : Doing Wd → Bool
  | .arm dir now answers => (s.asked answers).steadyArm dir now
  | .event event _ => s.table.steadyMove s.moving event
  | _ => true

def machine (start : Table (Answers Wd) Wd) : Machine (Watching Wd) (Doing Wd) :=
  ⟨⟨start, ∅⟩, step⟩

def Keeps (s : Watching Wd) : Prop :=
  s.table.Recent (floating s.moving)

variable {s s' : Watching Wd} {start : Table (Answers Wd) Wd}

theorem Keeps.idle {table : Table (Answers Wd) Wd} (kept : s.table.Recent [] → table.Recent []) (h : s.Keeps)
    (moves : s.idle table = some s') : s'.Keeps := by
  unfold Watching.idle at moves
  split_ifs at moves with none
  cases moves
  unfold Keeps floating at h ⊢
  rw [none] at h ⊢
  exact kept h

theorem Keeps.step {doing : Doing Wd} (h : s.Keeps) (steady : s.steady doing = true)
    (moves : s.step doing = some s') : s'.Keeps := by
  cases doing with
  | touch dir => exact h.idle (fun recent => recent.touch dir) moves
  | arm _ _ answers =>
    exact h.idle (fun recent => Table.Recent.arm_steady (t := s.asked answers) recent steady) moves
  | hold cell =>
    cases moves
    exact Table.Recent.hold h cell
  | release cell =>
    cases moves
    exact Table.Recent.unhold h cell
  | evict => exact h.idle (fun recent => (Table.Recent.outlives _ _).evict recent) moves
  | event _ answers =>
    cases moves
    exact Table.Recent.applies (t := s.asked answers) h (applyEvent_applies _ _ _) steady
  | applied =>
    cases moves
    have dropped : s.table.Recent (floating ∅) :=
      Falling.part h (List.Sublist.cons_cons _ (nil_sublist _)).subperm
    exact dropped.same (.refl _) (Drops.dropMoving answering s.table s.moving).toSameUse

theorem Keeps.initial {answers : Answers Wd} {budget : ℕ}
    (made : Table.new answering answers budget = .ok start) : (machine start).initial.Keeps := by
  have none : Falling [] 0 0 ([] : List (Node Wd)) :=
    ⟨by simp, nodup_nil, by simp, fun c => Nat.zero_le _, by simp⟩
  unfold Table.new at made
  split at made
  · cases made
  · split at made
    · cases made
    · cases made
      exact none.add _

/-- In every run of steady steps, no directory but the root was used earlier than one below it. -/
theorem recency_rises {answers : Answers Wd} {budget : ℕ}
    (made : Table.new answering answers budget = .ok start)
    (h : (machine start).ReachableUnder (fun s doing => s.steady doing = true) s) (names more : List Name)
    (inside : names ≠ []) : (s.table.cellAt (names ++ more)).used ≤ (s.table.cellAt names).used := by
  have kept : s.Keeps := h.invariant (P := Keeps) (.initial made) fun s doing s' kept steady moves =>
    kept.step steady moves
  have tree : s.table.Recent [] := Falling.part kept (List.Sublist.cons_cons _ (List.nil_sublist _)).subperm
  cases below : Forest.nodeAt (s.table.root, s.table.children) (names ++ more) with
  | none =>
    rw [Table.cellAt, below]
    exact Nat.zero_le _
  | some n =>
    cases here : Forest.nodeAt (s.table.root, s.table.children) names with
    | none =>
      rw [Forest.nodeAt_append, here] at below
      cases below
    | some above =>
      rw [used_cellAt below, used_cellAt here]
      exact Falling.used_le (n := (s.table.root, s.table.children)) tree inside here below

/-- A directory is watched below one, the rounds rising in between, and the one above is used again. -/
theorem recency_rises_used_again :
    let a : Name := ⟨[97], by decide⟩
    let b : Name := ⟨[98], by decide⟩
    ∃ start : Table (Answers ℕ) ℕ, Table.new answering ⟨[none], [.ok 0]⟩ 4 = .ok start ∧
      ∃ s, (machine start).ReachableUnder (fun s doing => s.steady doing = true) s ∧
        (s.table.cellAt [a]).used = 2 ∧ (s.table.cellAt [a, b]).used = 1 ∧
        (s.table.cellAt ([a] ++ [b])).used ≤ (s.table.cellAt [a]).used := by
  intro a b
  let path : List Name → Path := fun names => (Path.fromNames names).getD .root
  let start : Table (Answers ℕ) ℕ := ⟨⟨[], []⟩, ⟨.watched 0, 0⟩, .nil, .singleton 0 .root, 0, 4, none, 0, false,
    [⟨0, 0⟩], [], false⟩
  have made : Table.new answering ⟨[none], [.ok 0]⟩ 4 = .ok start := rfl
  refine ⟨start, made, ?_⟩
  obtain ⟨s, reached, holds⟩ := (machine start).exists_of_runWhile
    (p := fun s : Watching ℕ => decide ((s.table.cellAt [a]).used = 2 ∧ (s.table.cellAt [a, b]).used = 1))
    (by decide +kernel : ((machine start).runWhile steady (machine start).initial
      [.arm (path [a]) 0 ⟨[none, none], [.ok 1]⟩, .evict (path [a]) 0,
        .arm (path [a, b]) 0 ⟨[none, none], [.ok 1, .ok 2]⟩, .evict (path [a]) 0,
        .touch (path [a]) 0]).any _ = true)
  obtain ⟨above, below⟩ := of_decide_eq_true holds
  exact ⟨s, reached, above, below, recency_rises made reached [a] [b] (List.cons_ne_nil _ _)⟩

/-- With a budget of one, the directory above is stamped, nothing can be evicted, and the one below it
gets the round after. -/
theorem newer_than_the_one_above :
    let a : Name := ⟨[97], by decide⟩
    let b : Name := ⟨[98], by decide⟩
    ∃ start : Table (Answers ℕ) ℕ, Table.new answering ⟨[none], [.ok 0]⟩ 1 = .ok start ∧
      ∃ s, (machine start).Reachable s ∧ (s.table.descriptor [a]).isSome = true ∧
        (s.table.descriptor [a, b]).isSome = true ∧
        (s.table.cellAt [a]).used < (s.table.cellAt [a, b]).used := by
  intro a b
  let path : List Name → Path := fun names => (Path.fromNames names).getD .root
  let start : Table (Answers ℕ) ℕ := ⟨⟨[], []⟩, ⟨.watched 0, 0⟩, .nil, .singleton 0 .root, 0, 1, none, 0, false,
    [⟨0, 0⟩], [], false⟩
  refine ⟨start, rfl, ?_⟩
  obtain ⟨s, -, reached, holds⟩ := (machine start).exists_of_run
    (p := fun s : Watching ℕ => decide ((s.table.descriptor [a]).isSome = true ∧
      (s.table.descriptor [a, b]).isSome = true ∧ (s.table.cellAt [a]).used < (s.table.cellAt [a, b]).used))
    (by decide +kernel : ((machine start).run
      [.arm (path [a]) 0 ⟨[none, none], [.ok 1]⟩,
        .arm (path [a, b]) 0 ⟨[none, none], [.ok 1, .ok 2]⟩]).any _ = true)
  exact ⟨s, reached, of_decide_eq_true holds⟩

end Watching

end JackalopeFs.WatchTable
