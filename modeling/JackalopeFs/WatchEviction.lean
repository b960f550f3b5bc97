import JackalopeFs.WatchShape
import Mathlib.Data.Finset.Max

/-! # What eviction takes

To make room for one more watch the table drops directories that nothing needs: in rounds,
since dropping a directory can leave the one above it with nothing watched below.  `Round`
says what one round does in terms of which directories are watched, and `Evicts` what all
of them do; a round takes, of those that may go, the ones used longest ago, and the rounds
end when enough have gone or none may.  Hence how many directories are watched after one
more has been placed.

All of this needs that the tree has nothing below a directory it does not watch.  A run in
which that fails gets an unwatchable directory between two watched ones: the one above is
dropped as if nothing were watched below it, and with it the one below, held or not.
-/

namespace JackalopeFs.WatchTable

open List NamedForests PathNames TransitionRuns

set_option linter.unusedSectionVars false

variable {System Dir Wd : Type} [DecidableEq Wd]

namespace Table

/-- What the table shares with the users of the directory under these names. -/
def cellAt (t : Table System Wd) (names : List Name) : Cell :=
  ((Forest.nodeAt (t.root, t.children) names).bind fun n => t.cells[n.1.cell]?).getD ⟨0, 0⟩

def watchedNames (t : Table System Wd) : List (List Name) :=
  (t.children.collect Mark.wd? []).map Prod.snd

/-- A request or a handle keeps this directory watched. -/
def Held (t : Table System Wd) (names : List Name) : Prop :=
  (t.descriptor names).isSome = true ∧ 0 < (t.cellAt names).holds

/-- Eviction for the sake of `keep` may take the directory under these names. -/
structure Eligible (t : Table System Wd) (keep names : List Name) : Prop where
  inside : names ≠ []
  watched : (t.descriptor names).isSome = true
  bottom : ∀ more, more ≠ [] → t.descriptor (names ++ more) = none
  free : (t.cellAt names).holds = 0
  away : ¬names <+: keep

def ranked (t : Table System Wd) (names : List Name) : ℕ × List Name :=
  ((t.cellAt names).used, names)

end Table

section Leaves

variable {f : Forest Name (Mark Wd)} {cells : List Cell} {keep above at' : List Name} {used : ℕ}

theorem anyWatched_eq_false (bare : f.Bare fun mark => mark.wd?.isNone) :
    anyWatched f = false ↔ f.collect Mark.wd? above = [] := by
  induction f generalizing above with
  | nil => simp [anyWatched, Forest.collect]
  | node _ mark _ _ _ ihRest =>
    cases watched : mark.wd? with
    | some => simp [anyWatched, Forest.collect, watched]
    | none =>
      have empty := bare.1 (by simp [watched])
      subst empty
      simpa [anyWatched, Forest.collect, watched] using ihRest bare.2.2

theorem not_watched_of_anyWatched (neat : Neat f) (none : anyWatched f = false) {path : List Name}
    {n : Node Wd} (found : f.get path = some n) : n.1.wd? = .none := by
  by_contra watched
  obtain ⟨wd, watched⟩ := Option.ne_none_iff_exists'.mp watched
  have listed : (wd, path) ∈ f.collect Mark.wd? [] :=
    (Forest.mem_collect neat.distinct).mpr ⟨path, n, rfl, found, watched⟩
  rw [(anyWatched_eq_false neat.bare).mp none] at listed
  cases listed

theorem exists_watched_of_anyWatched (neat : Neat f) (some : anyWatched f = true) :
    ∃ path n, f.get path = Option.some n ∧ n.1.wd?.isSome = true := by
  have full : f.collect Mark.wd? [] ≠ [] := by
    intro empty
    rw [(anyWatched_eq_false neat.bare).mpr empty] at some
    cases some
  obtain ⟨⟨wd, path⟩, listed⟩ := exists_mem_of_ne_nil _ full
  obtain ⟨path, n, -, found, watched⟩ := (Forest.mem_collect neat.distinct).mp listed
  exact ⟨path, n, found, by simp [watched]⟩

theorem Neat.below {name : Name} {mark : Mark Wd} {below rest : Forest Name (Mark Wd)}
    (h : Neat (.node name mark below rest)) : Neat below :=
  ⟨h.distinct.2.1, h.bare.2.1⟩

theorem Neat.rest {name : Name} {mark : Mark Wd} {below rest : Forest Name (Mark Wd)}
    (h : Neat (.node name mark below rest)) : Neat rest :=
  ⟨h.distinct.2.2, h.bare.2.2⟩

theorem mem_leavesOf (neat : Neat f) :
    (used, at') ∈ leavesOf cells keep above f ↔
      ∃ path n, at' = above ++ path ∧ f.get path = some n ∧ n.1.wd?.isSome = true ∧
        anyWatched n.2 = false ∧ ((cells[n.1.cell]?).getD ⟨0, 0⟩).holds = 0 ∧ ¬at' <+: keep ∧
        used = ((cells[n.1.cell]?).getD ⟨0, 0⟩).used := by
  induction f generalizing above with
  | nil =>
    simp only [leavesOf, not_mem_nil, false_iff]
    rintro ⟨path, n, -, found, -⟩
    cases path with
    | nil => simp [Forest.get] at found
    | cons _ path => cases path <;> simp [Forest.get, Forest.lookup] at found
  | node name mark below rest ihBelow ihRest =>
    rw [leavesOf, mem_append]
    constructor
    · rintro (here | beside)
      · split_ifs at here with watched deeper ok
        · obtain ⟨path, n, rfl, found, rest⟩ := (ihBelow neat.below).mp here
          refine ⟨name :: path, n, by simp, ?_, rest⟩
          cases path with
          | nil => simp [Forest.get] at found
          | cons => simpa [Forest.get, Forest.lookup] using found
        · obtain ⟨rfl, rfl⟩ := Prod.mk.inj (mem_singleton.mp here)
          exact ⟨[name], (mark, below), rfl, by simp [Forest.get, Forest.lookup], watched,
            by simpa using deeper, ok.1, ok.2, rfl⟩
        · cases here
        · cases here
      · obtain ⟨path, n, rfl, found, rest⟩ := (ihRest neat.rest).mp beside
        refine ⟨path, n, rfl, ?_, rest⟩
        rwa [Forest.get_node_of_ne]
        rintro path' rfl
        rw [Forest.get_of_lookup_none neat.distinct.1] at found
        cases found
    · rintro ⟨path, n, rfl, found, watched, last, free, away, rfl⟩
      rcases path with _ | ⟨k, _ | ⟨j, path⟩⟩
      · simp [Forest.get] at found
      · simp only [Forest.get, Forest.lookup] at found
        split_ifs at found with same
        · cases found
          subst same
          left
          rw [if_pos watched, if_neg (by simp [last]), if_pos ⟨free, away⟩]
          exact mem_singleton_self _
        · right
          exact (ihRest neat.rest).mpr ⟨[k], n, rfl, found, watched, last, free, away, rfl⟩
      · simp only [Forest.get, Forest.lookup] at found
        split_ifs at found with same
        · subst same
          left
          -- the node has something below it, and that is watched
          have deeper : anyWatched below = true := by
            by_contra none
            have unwatched := not_watched_of_anyWatched neat.below (by simpa using none) found
            rw [unwatched] at watched
            cases watched
          have above' : mark.wd?.isSome = true := by
            by_contra unwatched
            have empty := neat.bare.1 (by simpa using unwatched)
            rw [empty] at deeper
            cases deeper
          rw [if_pos above', if_pos deeper]
          exact (ihBelow neat.below).mpr
            ⟨j :: path, n, by simp, found, watched, last, free, away, rfl⟩
        · right
          exact (ihRest neat.rest).mpr ⟨k :: j :: path, n, rfl, found, watched, last, free, away, rfl⟩

theorem leavesOf_sublist :
    ((leavesOf cells keep above f).map Prod.snd).Sublist ((f.collect Mark.wd? above).map Prod.snd) := by
  induction f generalizing above with
  | nil => exact List.Sublist.refl _
  | node _ _ _ _ ihBelow ihRest =>
    rw [leavesOf, Forest.collect, map_append, map_append]
    refine List.Sublist.append ?_ ihRest
    rw [map_append]
    split_ifs with watched deeper ok
    · exact ihBelow.trans (sublist_append_right _ _)
    · obtain ⟨wd, watched⟩ := Option.isSome_iff_exists.mp watched
      simp [watched]
    · exact nil_sublist _
    · exact nil_sublist _

end Leaves

section Orderly

/-- The descriptors recorded are those of the root and of the tree's watched directories, as many as
are counted, and nothing is below a directory that is not watched. -/
def Orderly (t : Table System Wd) : Prop :=
  ∃ r, Fits (fun _ _ => True) r t []

variable {m : Marks System Dir Wd} {t t' : Table System Wd} {keep names : List Name}

theorem rmClosed_true : RmClosed m fun _ _ => True :=
  fun _ _ _ _ _ => trivial

theorem mem_watchedNames (neat : Neat t.children) :
    names ∈ t.watchedNames ↔ names ≠ [] ∧ (t.descriptor names).isSome = true := by
  rw [Table.watchedNames, mem_map]
  constructor
  · rintro ⟨⟨wd, _⟩, listed, rfl⟩
    obtain ⟨path, n, same, found, watched⟩ := (Forest.mem_collect neat.distinct).mp listed
    rw [nil_append] at same
    have inside : path ≠ [] := by
      rintro rfl
      simp [Forest.get] at found
    rw [same, descriptor_of_inside inside, found, Option.bind_some, watched]
    exact ⟨inside, rfl⟩
  · rintro ⟨inside, watched⟩
    rw [descriptor_of_inside inside] at watched
    obtain ⟨wd, watched⟩ := Option.isSome_iff_exists.mp watched
    obtain ⟨n, found, watched⟩ := Option.bind_eq_some_iff.mp watched
    exact ⟨(wd, names), (Forest.mem_collect neat.distinct).mpr ⟨names, n, rfl, found, watched⟩, rfl⟩

namespace Orderly

theorem neat (h : Orderly t) : Neat t.children :=
  h.choose_spec.neat

theorem length_watchedNames (h : Orderly t) : t.watchedNames.length = t.watched := by
  obtain ⟨r, fits⟩ := h
  have counted := fits.books.counted
  rw [Table.watchedNames, length_map]
  simp only [append_nil, length_cons] at counted
  omega

theorem nodup_watchedNames (h : Orderly t) : t.watchedNames.Nodup := by
  obtain ⟨r, fits⟩ := h
  have apart := fits.books.nodup
  rw [append_nil, map_cons] at apart
  refine List.Nodup.map_on ?_ (List.Nodup.of_map _ (nodup_cons.mp apart).2)
  rintro ⟨wd, names⟩ first ⟨wd', _⟩ second rfl
  obtain ⟨path, n, same, found, watched⟩ := (Forest.mem_collect fits.neat.distinct).mp first
  obtain ⟨path', n', same', found', watched'⟩ := (Forest.mem_collect fits.neat.distinct).mp second
  rw [nil_append] at same same'
  subst same
  rw [← same', found] at found'
  cases found'
  rw [watched] at watched'
  cases watched'
  rfl

end Orderly

theorem cellAt_of_get {n : Node Wd} (found : t.children.get names = some n) :
    t.cellAt names = (t.cells[n.1.cell]?).getD ⟨0, 0⟩ := by
  have inside : names ≠ [] := by
    rintro rfl
    simp [Forest.get] at found
  rw [Table.cellAt, ← Forest.get_eq_nodeAt t.root inside, found, Option.bind_some]

theorem descriptor_append {n : Node Wd} {more : List Name} (found : t.children.get names = some n)
    (further : more ≠ []) : t.descriptor (names ++ more) = (n.2.get more).bind fun c => c.1.wd? := by
  have inside : names ≠ [] := by
    rintro rfl
    simp [Forest.get] at found
  rw [Table.descriptor, Forest.nodeAt_append, ← Forest.get_eq_nodeAt t.root inside, found,
    Option.bind_some, ← Forest.get_eq_nodeAt n.1 further]

theorem mem_leaves (h : Orderly t) {used : ℕ} :
    (used, names) ∈ leavesOf t.cells keep [] t.children ↔
      t.Eligible keep names ∧ used = (t.cellAt names).used := by
  rw [mem_leavesOf h.neat]
  constructor
  · rintro ⟨path, n, same, found, watched, last, free, away, rfl⟩
    subst same
    have inside : names ≠ [] := by
      rintro rfl
      simp [Forest.get] at found
    have cell := cellAt_of_get found
    have below := (h.neat.bare.get found).2
    refine ⟨⟨inside, ?_, fun more further => ?_, by rw [cell]; exact free, away⟩, by rw [cell]⟩
    · rw [descriptor_of_inside inside, found]
      exact watched
    · rw [descriptor_append found further]
      cases deeper : n.2.get more with
      | none => rfl
      | some =>
        have distinct := (h.neat.distinct.under (Forest.under_of_get found))
        exact not_watched_of_anyWatched ⟨distinct, below⟩ last deeper
  · rintro ⟨may, rfl⟩
    have watched := may.watched
    rw [descriptor_of_inside may.inside] at watched
    obtain ⟨wd, watched⟩ := Option.isSome_iff_exists.mp watched
    obtain ⟨n, found, watched⟩ := Option.bind_eq_some_iff.mp watched
    have cell := cellAt_of_get found
    have neat : Neat n.2 := ⟨h.neat.distinct.under (Forest.under_of_get found), (h.neat.bare.get found).2⟩
    refine ⟨names, n, rfl, found, by simp [watched], ?_, by rw [← cell]; exact may.free, may.away,
      by rw [cell]⟩
    by_contra some
    obtain ⟨more, c, deeper, seen⟩ := exists_watched_of_anyWatched neat (by simpa using some)
    have further : more ≠ [] := by
      rintro rfl
      simp [Forest.get] at deeper
    have none := may.bottom more further
    rw [descriptor_append found further, deeper, Option.bind_some] at none
    rw [none] at seen
    cases seen

/-- Some directories are watched no more, and nothing else has changed that eviction looks at. -/
structure Loses (t t' : Table System Wd) (gone : List (List Name)) : Prop where
  orderly : Orderly t'
  cells : t'.cells = t.cells
  thins : Forest.Thins t'.children t.children
  descriptor : ∀ names, t'.descriptor names = if names ∈ gone then none else t.descriptor names

theorem loses_dropLeaf (h : Orderly t) (may : t.Eligible keep names) :
    Loses t (t.dropLeaf m names) [names] := by
  obtain ⟨r, fits⟩ := h
  obtain ⟨wd, watched⟩ := Option.isSome_iff_exists.mp may.watched
  obtain ⟨victim, known, rfl⟩ := fits.lookup_of_descriptor watched
  have dropped : t.dropLeaf m victim.names = t.dropAt m true victim := by
    rw [Table.dropLeaf, Path.fromNames_names]
  rw [dropped]
  have left := fits.dropAt (rmClosed_true (m := m)) true victim
  obtain ⟨gone, parted, below⟩ := fits.dropAt_recorded (rmClosed_true (m := m)) true victim
  have before : ∀ names wd, (t.dropAt m true victim).descriptor names = some wd →
      t.descriptor names = some wd := by
    intro names wd found
    have listed := left.mem_recorded_iff.mpr found
    exact fits.mem_recorded_iff.mp (parted.mem_iff.mpr (mem_append_right _ listed))
  have after : ∀ names wd, ¬victim.names <+: names → t.descriptor names = some wd →
      (t.dropAt m true victim).descriptor names = some wd := by
    intro names wd apart found
    have listed := parted.mem_iff.mp (fits.mem_recorded_iff.mpr found)
    rcases mem_append.mp listed with dropped | kept
    · exact absurd (below _ dropped) apart
    · exact left.mem_recorded_iff.mp kept
  obtain ⟨f, thin, drops⟩ := dropAt_drops m t true victim
  refine ⟨⟨r, left⟩, drops.cells, drops.children ▸ thin, fun names => ?_⟩
  by_cases inside : victim.names <+: names
  · obtain ⟨more, rfl⟩ := inside
    have none : (t.dropAt m true victim).descriptor (victim.names ++ more) = none := by
      rw [Option.eq_none_iff_forall_ne_some]
      intro wd' found
      by_cases further : more = []
      · subst further
        rw [append_nil] at found
        have same := (before _ _ found).symm.trans watched
        cases same
        rw [descriptor_of_inside may.inside] at watched
        obtain ⟨n, found', watched⟩ := Option.bind_eq_some_iff.mp watched
        have unrecorded := fits.dropAt_gone (rmClosed_true (m := m)) true found' watched
        obtain ⟨path, recorded, -⟩ := mem_recorded.mp (left.mem_recorded_iff.mpr found)
        exact unrecorded (AList.lookup_isSome.mp (by simp [recorded]))
      · have bottom := may.bottom more further
        rw [before _ _ found] at bottom
        cases bottom
    by_cases further : more = []
    · subst further
      rw [none, if_pos (by simp)]
    · rw [none, if_neg (by simpa using further), may.bottom more further]
  · have other : names ∉ [victim.names] := by
      intro same
      rw [mem_singleton.mp same] at inside
      exact inside (prefix_refl _)
    rw [if_neg other]
    cases found : t.descriptor names with
    | some wd => exact after names wd inside found
    | none =>
      rw [Option.eq_none_iff_forall_ne_some]
      intro wd later
      rw [before names wd later] at found
      cases found

namespace Loses

variable {t'' : Table System Wd} {gone gone' : List (List Name)}

theorem refl (h : Orderly t) : Loses t t [] :=
  ⟨h, rfl, .refl _, fun names => by simp⟩

theorem trans (first : Loses t t' gone) (second : Loses t' t'' gone') :
    Loses t t'' (gone ++ gone') := by
  refine ⟨second.orderly, second.cells.trans first.cells, second.thins.trans first.thins,
    fun names => ?_⟩
  rw [second.descriptor, first.descriptor]
  by_cases late : names ∈ gone'
  · simp [late]
  · by_cases early : names ∈ gone <;> simp [late, early]

theorem watched (h : Loses t t' gone) (still : (t'.descriptor names).isSome = true) :
    names ∉ gone ∧ (t.descriptor names).isSome = true := by
  rw [h.descriptor] at still
  split_ifs at still with dropped
  · cases still
  · exact ⟨dropped, still⟩

theorem cellAt (h : Loses t t' gone) (before : Orderly t) (inside : names ≠ [])
    (still : (t'.descriptor names).isSome = true) : t'.cellAt names = t.cellAt names := by
  rw [descriptor_of_inside inside] at still
  obtain ⟨wd, still⟩ := Option.isSome_iff_exists.mp still
  obtain ⟨n, found, -⟩ := Option.bind_eq_some_iff.mp still
  obtain ⟨n', found', same, -⟩ := h.thins.get before.neat.distinct found
  rw [cellAt_of_get found, cellAt_of_get found', same, h.cells]

theorem eligible (h : Loses t t' gone) (before : Orderly t) (may : t.Eligible keep names)
    (kept : names ∉ gone) : t'.Eligible keep names := by
  have still : (t'.descriptor names).isSome = true := by
    rw [h.descriptor, if_neg kept]
    exact may.watched
  refine ⟨may.inside, still, fun more further => ?_, ?_, may.away⟩
  · rw [h.descriptor, may.bottom more further, ite_self]
  · rw [h.cellAt before may.inside still]
    exact may.free

theorem count (h : Loses t t' gone) (before : Orderly t) (distinct : gone.Nodup)
    (were : ∀ names ∈ gone, names ≠ [] ∧ (t.descriptor names).isSome = true) :
    t'.watched + gone.length = t.watched := by
  have split : t.watchedNames.Perm (gone ++ t'.watchedNames) := by
    rw [perm_ext_iff_of_nodup before.nodup_watchedNames]
    · intro names
      rw [mem_append, mem_watchedNames before.neat, mem_watchedNames h.orderly.neat]
      constructor
      · rintro ⟨inside, watched⟩
        by_cases dropped : names ∈ gone
        · exact .inl dropped
        · refine .inr ⟨inside, ?_⟩
          rw [h.descriptor, if_neg dropped]
          exact watched
      · rintro (dropped | ⟨inside, still⟩)
        · exact were names dropped
        · exact ⟨inside, (h.watched still).2⟩
    · refine nodup_append.mpr ⟨distinct, h.orderly.nodup_watchedNames, ?_⟩
      rintro names dropped _ still rfl
      exact (h.watched ((mem_watchedNames h.orderly.neat).mp still).2).1 dropped
  have lengths := split.length_eq
  rw [length_append, before.length_watchedNames, h.orderly.length_watchedNames] at lengths
  omega

end Loses

theorem loses_dropLeaves (h : Orderly t) {victims : List (ℕ × List Name)}
    (may : ∀ leaf ∈ victims, t.Eligible keep leaf.2) (distinct : (victims.map Prod.snd).Nodup) :
    Loses t (victims.foldl (fun t leaf => t.dropLeaf m leaf.2) t) (victims.map Prod.snd) := by
  induction victims generalizing t with
  | nil => exact .refl h
  | cons leaf _ ih =>
    obtain ⟨fresh, distinct'⟩ := nodup_cons.mp distinct
    have first := loses_dropLeaf (m := m) h (may leaf mem_cons_self)
    refine first.trans (ih first.orderly (fun other listed => ?_) distinct')
    refine first.eligible h (may other (mem_cons_of_mem _ listed)) ?_
    rw [mem_singleton]
    exact fun same => fresh (same ▸ mem_map_of_mem listed)

/-- One round: of the directories that may be taken, the first in the order go, `want` of them or
all. -/
structure Round (t : Table System Wd) (keep : List Name) (want : ℕ) (victims : List (List Name))
    (t' : Table System Wd) : Prop where
  eligible : ∀ names ∈ victims, t.Eligible keep names
  distinct : victims.Nodup
  first : ∀ names ∈ victims, ∀ other, t.Eligible keep other → other ∉ victims →
    evictsBefore (t.ranked names) (t.ranked other)
  few : victims.length ≤ want
  enough : victims.length = want ∨ ∀ names, t.Eligible keep names → names ∈ victims
  loses : Loses t t' victims

/-- Rounds that end when `want` directories have gone or none may be taken. -/
inductive Evicts (keep : List Name) :
    Table System Wd → ℕ → List (List Name) → Table System Wd → Prop where
  | stop (t : Table System Wd) (want : ℕ) (over' : want = 0 ∨ ∀ names, ¬t.Eligible keep names) :
      Evicts keep t want [] t
  | round {t t' t'' : Table System Wd} {want : ℕ} {victims later : List (List Name)}
      (now : Round t keep want victims t') (some : victims ≠ [])
      (then' : Evicts keep t' (want - victims.length) later t'') :
      Evicts keep t want (victims ++ later) t''

def evictOrder : ℕ × List Name → ℕ × List Name → Ordering :=
  compareLex (compareOn Prod.fst) (compareLex (fun a b => compare b.2.length a.2.length)
    (compareOn fun a => a.2.map Name.bytes))

theorem evictsBefore_iff (a b : ℕ × List Name) : evictsBefore a b ↔ (evictOrder a b).isLE = true := by
  unfold evictsBefore evictOrder compareLex compareOn
  generalize (compare a.1 b.1).then _ = order
  cases order <;> decide

instance : Std.TransCmp fun a b : ℕ × List Name => compare b.2.length a.2.length where
  eq_swap {a b} := @Std.OrientedCmp.eq_swap ℕ compare _ b.2.length a.2.length
  isLE_trans first second := @Std.TransCmp.isLE_trans ℕ compare _ _ _ _ second first

instance : Std.TransCmp evictOrder :=
  inferInstanceAs (Std.TransCmp (compareLex _ _))

instance : Std.Total evictsBefore where
  total a b := by
    have swap : evictOrder b a = (evictOrder a b).swap := Std.OrientedCmp.eq_swap
    rw [evictsBefore_iff, evictsBefore_iff, swap]
    cases evictOrder a b with
    | lt => exact Or.inl rfl
    | eq => exact Or.inl rfl
    | gt => exact Or.inr rfl

instance : IsTrans (ℕ × List Name) evictsBefore where
  trans a b c first second := by
    rw [evictsBefore_iff] at first second ⊢
    exact Std.TransCmp.isLE_trans first second

theorem before_of_take {α : Type*} {r : α → α → Prop} [DecidableRel r] [Std.Total r] [IsTrans α r]
    {list : List α} {n : ℕ} {a b : α} (taken : a ∈ (list.insertionSort r).take n) (listed : b ∈ list)
    (left : b ∉ (list.insertionSort r).take n) : r a b := by
  have sorted := pairwise_insertionSort r list
  rw [← take_append_drop n (list.insertionSort r), pairwise_append] at sorted
  refine sorted.2.2 a taken b ?_
  have somewhere : b ∈ (list.insertionSort r).take n ++ (list.insertionSort r).drop n := by
    rw [take_append_drop]
    exact (mem_insertionSort r).mpr listed
  exact (mem_append.mp somewhere).resolve_left left

theorem round_of_leaves (h : Orderly t) (want : ℕ) :
    Round t keep want
      (((leavesOf t.cells keep [] t.children).insertionSort evictsBefore).take want |>.map Prod.snd)
      (((leavesOf t.cells keep [] t.children).insertionSort evictsBefore).take want
        |>.foldl (fun t leaf => t.dropLeaf m leaf.2) t) := by
  generalize all : leavesOf t.cells keep [] t.children = leaves
  have isLeaf : ∀ {used names}, (used, names) ∈ leaves ↔
      t.Eligible keep names ∧ used = (t.cellAt names).used := by
    intro used names
    rw [← all]
    exact mem_leaves h
  have ofTaken : ∀ leaf ∈ (leaves.insertionSort evictsBefore).take want,
      t.Eligible keep leaf.2 ∧ leaf = t.ranked leaf.2 := by
    intro leaf taken
    obtain ⟨may, same⟩ := isLeaf.mp ((mem_insertionSort _).mp (mem_of_mem_take taken))
    exact ⟨may, Prod.ext same rfl⟩
  have once : ((leaves.insertionSort evictsBefore).map Prod.snd).Nodup := by
    rw [((perm_insertionSort evictsBefore leaves).map Prod.snd).nodup_iff, ← all]
    exact h.nodup_watchedNames.sublist leavesOf_sublist
  have distinct : (((leaves.insertionSort evictsBefore).take want).map Prod.snd).Nodup :=
    once.sublist ((take_sublist _ _).map _)
  refine ⟨fun names taken => ?_, distinct, fun names taken other may left => ?_, ?_, ?_, ?_⟩
  · obtain ⟨leaf, listed, rfl⟩ := mem_map.mp taken
    exact (ofTaken leaf listed).1
  · obtain ⟨leaf, listed, rfl⟩ := mem_map.mp taken
    rw [← (ofTaken leaf listed).2]
    refine before_of_take listed (isLeaf.mpr ⟨may, rfl⟩) fun also => left ?_
    exact mem_map.mpr ⟨_, also, rfl⟩
  · rw [length_map]
    exact length_take_le _ _
  · rw [length_map, length_take, length_insertionSort]
    rcases Nat.le_total want leaves.length with many | few
    · exact .inl (min_eq_left many)
    · refine .inr fun names may => mem_map.mpr ⟨t.ranked names, ?_, rfl⟩
      rw [take_of_length_le (by rwa [length_insertionSort]), mem_insertionSort]
      exact isLeaf.mpr ⟨may, rfl⟩
  · exact loses_dropLeaves h (fun leaf taken => (ofTaken leaf taken).1) distinct

theorem evicts_evictLoop {keep : Path} {fuel want : ℕ} (h : Orderly t) (rounds : want ≤ fuel) :
    ∃ dropped, Evicts keep.names t want dropped (Table.evictLoop m keep fuel t want) := by
  induction fuel generalizing t want with
  | zero => exact ⟨[], .stop t want (.inl (by omega))⟩
  | succ fuel ih =>
    unfold Table.evictLoop
    simp only
    split_ifs with stop
    · refine ⟨[], .stop t want (stop.imp_right fun empty names may => ?_)⟩
      have listed := (mem_leaves h).mpr ⟨may, rfl⟩
      rw [empty] at listed
      cases listed
    · obtain ⟨more, some⟩ := not_or.mp stop
      have now : Round t keep.names want _ _ := round_of_leaves (m := m) h want
      have taken : ((leavesOf t.cells keep.names [] t.children).insertionSort evictsBefore).take want
          ≠ [] := by
        rw [← length_pos_iff, length_take, length_insertionSort]
        have positive := length_pos_iff.mpr some
        omega
      have progress := length_pos_iff.mpr taken
      obtain ⟨later, then'⟩ := ih now.loses.orderly
        (Nat.sub_le_of_le_add (rounds.trans (Nat.add_le_add_left progress fuel)))
      exact ⟨_ ++ later, .round now (by simpa using taken) (by rw [length_map]; exact then')⟩

namespace Evicts

variable {want : ℕ} {dropped : List (List Name)}

section

variable (h : Evicts keep t want dropped t')

include h

theorem loses (before : Orderly t) : Loses t t' dropped := by
  induction h with
  | stop => exact .refl before
  | round now _ _ ih => exact now.loses.trans (ih now.loses.orderly)

/-- What is dropped was watched, and neither it nor anything below it was held. -/
theorem dropped_spec (before : Orderly t) :
    ∀ names ∈ dropped, names ≠ [] ∧ (t.descriptor names).isSome = true ∧ ¬names <+: keep ∧
      ∀ below, names <+: below → ¬t.Held below := by
  induction h with
  | stop =>
    intro names listed
    cases listed
  | @round t t' t'' want victims later now some then' ih =>
    intro names listed
    rcases mem_append.mp listed with first | after
    · have may := now.eligible names first
      refine ⟨may.inside, may.watched, may.away, ?_⟩
      rintro _ ⟨more, rfl⟩ ⟨watched, held⟩
      by_cases further : more = []
      · rw [further, append_nil, may.free] at held
        exact absurd held (Nat.lt_irrefl 0)
      · rw [may.bottom more further] at watched
        cases watched
    · obtain ⟨inside, watched, away, free⟩ := ih now.loses.orderly names after
      refine ⟨inside, (now.loses.watched watched).2, away, ?_⟩
      rintro below under ⟨seen, held⟩
      have proper : below ≠ [] := by
        rintro rfl
        exact inside (prefix_nil.mp under)
      by_cases taken : below ∈ victims
      · rw [(now.eligible below taken).free] at held
        exact absurd held (Nat.lt_irrefl 0)
      · have still : (t'.descriptor below).isSome = true := by
          rw [now.loses.descriptor, if_neg taken]
          exact seen
        refine free below under ⟨still, ?_⟩
        rw [now.loses.cellAt before proper still]
        exact held

/-- No more are dropped than wanted, and fewer only if none is left that may go. -/
theorem stops :
    dropped.length ≤ want ∧ (dropped.length = want ∨ ∀ names, ¬t'.Eligible keep names) := by
  induction h with
  | stop _ _ over' =>
    refine ⟨Nat.zero_le _, over'.imp_left fun none => ?_⟩
    rw [none, length_nil]
  | round now _ _ ih =>
    obtain ⟨few, enough⟩ := ih
    have part := now.few
    rw [length_append]
    refine ⟨by omega, enough.imp_left fun all => ?_⟩
    omega

theorem count (before : Orderly t) :
    t'.watched + dropped.length = t.watched := by
  induction h with
  | stop => rfl
  | round now _ _ ih =>
    have later := ih now.loses.orderly
    have counted := now.loses.count before now.distinct fun names taken =>
      ⟨(now.eligible names taken).inside, (now.eligible names taken).watched⟩
    rw [length_append]
    omega

end

end Evicts

namespace Table

/-- The table as eviction finds it: a lower budget that has run out is gone, and whatever is used from
here on is newer. -/
def evictStart (t : Table System Wd) (now : ℕ) : Table System Wd :=
  { (t.budgetAt now).2 with round := (t.budgetAt now).2.round + 1 }

def evictWant (t : Table System Wd) (now : ℕ) : ℕ :=
  max (t.watched + 1 - (t.budgetAt now).1) (max 1 (min ((t.budgetAt now).1 / 16) evictBatch))

/-- How many directories are held or above held ones. -/
def heldOrAbove (t : Table System Wd) : ℕ :=
  t.watchedNames.countP fun names => t.watchedNames.any fun below =>
    names.isPrefixOf below && decide (0 < (t.cellAt below).holds)

end Table

theorem budgetAt_same (t : Table System Wd) (now : ℕ) :
    SameBooks t (t.budgetAt now).2 ∧ (t.budgetAt now).2.cells = t.cells := by
  unfold Table.budgetAt
  split
  · split_ifs <;> exact ⟨⟨⟨rfl, rfl, rfl⟩, rfl, rfl, rfl⟩, rfl⟩
  · exact ⟨⟨⟨rfl, rfl, rfl⟩, rfl, rfl, rfl⟩, rfl⟩

theorem evictStart_same (t : Table System Wd) (now : ℕ) :
    SameBooks t (t.evictStart now) ∧ (t.evictStart now).cells = t.cells := by
  obtain ⟨same, cells⟩ := budgetAt_same t now
  exact ⟨⟨⟨same.root, same.children, same.dead⟩, same.byWd, same.watched, same.underflowed⟩, cells⟩

theorem Orderly.same (h : Orderly t) (same : SameBooks t t') : Orderly t' := by
  obtain ⟨r, fits⟩ := h
  exact ⟨r, fits.congr same trivial⟩

/-- Two tables with the same tree and the same cells have the same directories held. -/
theorem descriptor_same (same : SameBooks t t') : t'.descriptor names = t.descriptor names := by
  rw [Table.descriptor, Table.descriptor, same.root, same.children]

theorem cellAt_same (same : SameBooks t t') (cells : t'.cells = t.cells) :
    t'.cellAt names = t.cellAt names := by
  rw [Table.cellAt, Table.cellAt, same.root, same.children, cells]

theorem evict_eq (t : Table System Wd) (keep : Path) (now : ℕ) :
    t.evict m keep now =
      Table.evictLoop m keep (t.evictWant now) (t.evictStart now) (t.evictWant now) := by
  rw [Table.evict, Table.evictWant, ← (budgetAt_same t now).1.watched]
  rfl

theorem evicts_evict (h : Orderly t) (keep : Path) (now : ℕ) :
    ∃ dropped, Evicts keep.names (t.evictStart now) (t.evictWant now) dropped (t.evict m keep now) := by
  rw [evict_eq]
  exact evicts_evictLoop (h.same (evictStart_same t now).1) le_rfl

/-- Once nothing may be taken, every watched directory is above one that is held or on the way that
is kept. -/
theorem held_or_kept (h : Orderly t) (none : ∀ names, ¬t.Eligible keep names)
    (watched : names ∈ t.watchedNames) :
    ∃ below ∈ t.watchedNames, names <+: below ∧ (0 < (t.cellAt below).holds ∨ below <+: keep) := by
  -- a deepest watched directory at or below this one has nothing watched below it
  obtain ⟨below, listed, deepest⟩ := Finset.exists_max_image
    (t.watchedNames.filter fun below => names.isPrefixOf below).toFinset List.length
    ⟨names, by simp [watched]⟩
  simp only [mem_toFinset, mem_filter, isPrefixOf_iff_prefix] at listed deepest
  refine ⟨below, listed.1, listed.2, ?_⟩
  obtain ⟨inside, seen⟩ := (mem_watchedNames h.neat).mp listed.1
  by_contra neither
  obtain ⟨free, away⟩ := not_or.mp neither
  refine none below ⟨inside, seen, fun more further => ?_, by omega, away⟩
  by_contra deeper
  have longer := deepest (below ++ more) ⟨(mem_watchedNames h.neat).mpr
    ⟨by simp [inside], Option.isSome_iff_ne_none.mpr deeper⟩, listed.2.trans (prefix_append _ _)⟩
  have some := length_pos_iff.mpr further
  rw [length_append] at longer
  omega

section Placed

variable {f : Forest Name (Mark Wd)} {v : Mark Wd} {above : List Name} {name : Name} {n : Node Wd}

theorem nodeAt_insert_of_not_prefix (apart : ¬above ++ [name] <+: names) :
    (Forest.nodeAt (v, f.change above (Forest.insert name n)) names).map Prod.fst =
      (Forest.nodeAt (v, f) names).map Prod.fst := by
  by_cases inside : above <+: names
  · obtain ⟨rest, rfl⟩ := inside
    rw [Forest.nodeAt_change, Forest.nodeAt_append]
    cases Forest.nodeAt (v, f) above with
    | none => rfl
    | some =>
      cases rest with
      | nil => rfl
      | cons k =>
        have other : k ≠ name := by
          rintro rfl
          exact apart ((prefix_append_right_inj above).mpr
            (cons_prefix_cons.mpr ⟨rfl, nil_prefix⟩))
        simp only [Option.bind_some, Forest.nodeAt, Forest.lookup_insert, if_neg other]
  · exact Forest.nodeAt_change_of_not_prefix _ inside

/-- What entering a directory does to the tree and to the cells. -/
structure Enters (t : Table System Wd) (path : List Name) (t' : Table System Wd) : Prop where
  counted : t'.watched ≤ t.watched + 1
  beside : ∀ names, ¬path <+: names →
    t'.descriptor names = t.descriptor names ∧ (t'.cellAt names).holds = (t.cellAt names).holds
  below : ∀ more, more ≠ [] → t'.descriptor (path ++ more) = none

theorem holds_append (cells : List Cell) (used i : ℕ) :
    (((cells ++ [(⟨used, 0⟩ : Cell)])[i]?).getD ⟨0, 0⟩).holds = ((cells[i]?).getD ⟨0, 0⟩).holds := by
  rcases Nat.lt_trichotomy i cells.length with inside | rfl | beyond
  · rw [getElem?_append_left inside]
  · simp
  · rw [getElem?_eq_none (by simp; omega), getElem?_eq_none (by omega)]

theorem enter_cases (t : Table System Wd) {path : Path} (inside : path.names ≠ []) (wd : Wd) :
    ∃ parent name mark, path.names = parent ++ [name] ∧ (t.enter m path wd).root = t.root ∧
      (t.enter m path wd).cells = t.cells ++ [⟨t.round, 0⟩] ∧
      (t.enter m path wd).watched ≤ t.watched + 1 ∧
      ((t.enter m path wd).children = t.children ∧ t.children.under parent = none ∨
        (t.enter m path wd).children = t.children.change parent (Forest.insert name (mark, .nil))) := by
  rcases put_cases m { t with
      cells := t.cells ++ [⟨t.round, 0⟩], byWd := t.byWd.insert wd path, watched := t.watched + 1 } path
      (⟨.watched wd, t.cells.length⟩, .nil) with ⟨root, _⟩ | ⟨parent, name, whole, ⟨absent, drops⟩ | ⟨_, _, drops⟩⟩
  · exact absurd root inside
  · exact ⟨parent, name, ⟨.watched wd, t.cells.length⟩, whole, drops.root, drops.cells, drops.watched, .inl ⟨drops.children, absent⟩⟩
  · exact ⟨parent, name, _, whole, drops.root, drops.cells, drops.watched, .inr drops.children⟩

theorem enters_enter (t : Table System Wd) {path : Path} (inside : path.names ≠ []) (wd : Wd) :
    Enters t path.names (t.enter m path wd) := by
  obtain ⟨parent, name, mark, whole, root, cells, counted, tree⟩ := enter_cases (m := m) t inside wd
  rw [whole]
  have walk : ∀ names, ¬parent ++ [name] <+: names →
      (Forest.nodeAt ((t.enter m path wd).root, (t.enter m path wd).children) names).map Prod.fst =
        (Forest.nodeAt (t.root, t.children) names).map Prod.fst := by
    intro names apart
    rw [root]
    rcases tree with ⟨same, -⟩ | changed
    · rw [same]
    · rw [changed]
      exact nodeAt_insert_of_not_prefix apart
  refine ⟨counted, fun names apart => ⟨?_, ?_⟩, fun more further => ?_⟩
  · have same := congrArg (fun o => o.bind Mark.wd?) (walk names apart)
    simp only [Option.bind_map] at same
    exact same
  · have same := walk names apart
    rw [Table.cellAt, Table.cellAt, cells]
    generalize Forest.nodeAt (t.root, t.children) names = here at same ⊢
    cases here with
    | none =>
      rw [Option.map_eq_none_iff.mp same]
      rfl
    | some n =>
      obtain ⟨n', found, mark⟩ := Option.map_eq_some_iff.mp same
      rw [found, Option.bind_some, Option.bind_some, mark]
      exact holds_append t.cells t.round n.1.cell
  · rw [Table.descriptor, root]
    rcases tree with ⟨same, missing⟩ | changed
    · rw [same, append_assoc, Forest.nodeAt_append]
      rw [Forest.under_eq_nodeAt t.root] at missing
      rw [Option.map_eq_none_iff.mp missing]
      rfl
    · rw [changed, append_assoc, Forest.nodeAt_change]
      cases Forest.nodeAt (t.root, t.children) parent with
      | none => rfl
      | some =>
        obtain ⟨k, rest, rfl⟩ := exists_cons_of_ne_nil further
        simp [Forest.nodeAt, Forest.lookup_insert, Forest.lookup]

end Placed

/-- A directory that was watched under a descriptor the table still has was so before. -/
theorem Loses.notMem {gone : List (List Name)} (h : Loses t t' gone) (before : Orderly t) {wd : Wd}
    (absent : wd ∉ t.byWd) : wd ∉ t'.byWd := by
  intro present
  obtain ⟨r', fits'⟩ := h.orderly
  obtain ⟨r, fits⟩ := before
  obtain ⟨path, known⟩ := Option.isSome_iff_exists.mp (AList.lookup_isSome.mpr present)
  have still := fits'.mem_recorded_iff.mp (mem_recorded.mpr ⟨path, known, rfl⟩)
  rw [h.descriptor] at still
  split_ifs at still with dropped
  obtain ⟨path', known', -⟩ := fits.lookup_of_descriptor still
  exact absent (AList.lookup_isSome.mp (by simp [known']))

theorem Orderly.enter (h : Orderly t) {path : Path} {wd : Wd} (new : wd ∉ t.byWd)
    (inside : path.names ≠ []) (clear : Clear t path.names.dropLast) :
    Orderly (t.enter m path wd) := by
  obtain ⟨r, fits⟩ := h
  have spare : Fits (Spare (fun _ _ => True) wd) r t [] := fits.relate ⟨new, trivial⟩
  exact ⟨r, spare.enter rmClosed_true inside clear⟩

/-- With nothing left that may be taken, the directories watched after one more was entered are held,
above held ones, or on its path. -/
theorem watched_enter_le (h : Orderly t) {path : Path} {wd : Wd} (new : wd ∉ t.byWd)
    (inside : path.names ≠ []) (clear : Clear t path.names.dropLast)
    (none : ∀ names, ¬t.Eligible path.names names) :
    (t.enter m path wd).watched ≤ (t.enter m path wd).heldOrAbove + path.names.length := by
  have after : Orderly (t.enter m path wd) := h.enter new inside clear
  have enters := enters_enter (m := m) t inside wd
  generalize t.enter m path wd = t' at after enters
  let kept : List Name → Bool := fun names => t'.watchedNames.any fun below =>
    names.isPrefixOf below && decide (0 < (t'.cellAt below).holds)
  -- whatever is not kept lies on the path
  have onPath : ∀ names ∈ t'.watchedNames, kept names = false → names <+: path.names := by
    intro names listed loose
    by_contra away
    obtain ⟨proper, seen⟩ := (mem_watchedNames after.neat).mp listed
    have apart : ¬path.names <+: names := by
      rintro ⟨more, rfl⟩
      by_cases further : more = []
      · rw [further, append_nil] at away
        exact away (prefix_refl _)
      · rw [enters.below more further] at seen
        cases seen
    rw [(enters.beside names apart).1] at seen
    obtain ⟨below, watched, under, held | kept⟩ :=
      held_or_kept h none ((mem_watchedNames h.neat).mpr ⟨proper, seen⟩)
    · have beside : ¬path.names <+: below := by
        intro also
        rcases prefix_or_prefix_of_prefix under also with first | second
        · exact away first
        · exact apart second
      obtain ⟨deep, watched⟩ := (mem_watchedNames h.neat).mp watched
      have still : below ∈ t'.watchedNames := by
        rw [mem_watchedNames after.neat, (enters.beside below beside).1]
        exact ⟨deep, watched⟩
      have isKept : kept names = true := by
        simp only [kept, any_eq_true, Bool.and_eq_true, isPrefixOf_iff_prefix,
          decide_eq_true_eq]
        exact ⟨below, still, under, by rw [(enters.beside below beside).2]; exact held⟩
      rw [isKept] at loose
      cases loose
    · exact away (under.trans kept)
  have few : (t'.watchedNames.filter fun names => !kept names).length ≤ path.names.length := by
    have sub : ([] :: t'.watchedNames.filter fun names => !kept names) ⊆ path.names.inits := by
      intro names listed
      rw [mem_inits]
      rcases mem_cons.mp listed with rfl | listed
      · exact nil_prefix
      · obtain ⟨listed, loose⟩ := mem_filter.mp listed
        exact onPath names listed (by simpa using loose)
    have distinct : ([] :: t'.watchedNames.filter fun names => !kept names).Nodup := by
      refine nodup_cons.mpr ⟨fun root => ?_, after.nodup_watchedNames.filter _⟩
      exact ((mem_watchedNames after.neat).mp (mem_filter.mp root).1).1 rfl
    have le := (distinct.subperm sub).length_le
    rw [length_cons, length_inits] at le
    omega
  calc
    t'.watched = t'.watchedNames.length := after.length_watchedNames.symm
    _ = t'.watchedNames.countP kept + (t'.watchedNames.filter fun names => !kept names).length := by
      rw [← countP_eq_length_filter, length_eq_countP_add_countP kept]
      simp
    _ ≤ t'.heldOrAbove + path.names.length := Nat.add_le_add_left few _

theorem budgetAt_budgetAt (t : Table System Wd) (now : ℕ) :
    ((t.budgetAt now).2.budgetAt now).1 = (t.budgetAt now).1 := by
  cases capped : t.capped with
  | none => simp [Table.budgetAt, capped]
  | some cap =>
    by_cases early : now < cap.2
    · simp [Table.budgetAt, capped, early]
    · simp [Table.budgetAt, capped, early]

theorem Clear.same (same : SameBooks t t') (h : Clear t names) : Clear t' names := by
  intro n found
  rw [same.children] at found
  exact h n found

/-- After a directory has been evicted for, the budget has room for it or nothing more may go. -/
theorem watched_evict (h : Orderly t) (keep : Path) (now : ℕ) :
    ∃ gone, Loses (t.evictStart now) (t.evict m keep now) gone ∧
      ((t.evict m keep now).watched + 1 ≤ (t.budgetAt now).1 ∨
        ∀ names, ¬(t.evict m keep now).Eligible keep.names names) := by
  obtain ⟨same, -⟩ := evictStart_same t now
  obtain ⟨dropped, evicts⟩ := evicts_evict (m := m) h keep now
  refine ⟨dropped, evicts.loses (h.same same), evicts.stops.2.imp_left fun all => ?_⟩
  have count := evicts.count (h.same same)
  have want : t.watched + 1 - (t.budgetAt now).1 ≤ t.evictWant now := le_max_left _ _
  rw [same.watched, all] at count
  omega

theorem watched_place_le (h : Orderly t) {path : Path} {wd : Wd} (now : ℕ)
    (inside : path.names ≠ []) (clear : Clear t path.names.dropLast)
    (new : t.byWd.lookup wd = none) :
    (t.place m path wd now).2.watched ≤
      max (t.budgetAt now).1 (t.place m path wd now).2.heldOrAbove + path.names.length := by
  obtain ⟨same, -⟩ := budgetAt_same t now
  have placed : (t.place m path wd now).2 =
      (if (t.budgetAt now).1 ≤ (t.budgetAt now).2.watched then (t.budgetAt now).2.evict m path now
        else (t.budgetAt now).2).enter m path wd := by
    simp only [Table.place, new]
  rw [placed]
  split_ifs with full
  · obtain ⟨gone, loses, roomy | none⟩ := watched_evict (m := m) (h.same same) path now
    · have one := (enters_enter (m := m) ((t.budgetAt now).2.evict m path now) inside wd).counted
      rw [budgetAt_budgetAt] at roomy
      omega
    · have start := (evictStart_same (t.budgetAt now).2 now).1
      have absent : wd ∉ ((t.budgetAt now).2.evictStart now).byWd := by
        rw [start.byWd, same.byWd]
        exact AList.lookup_eq_none.mp new
      have left := loses.notMem ((h.same same).same start) absent
      have clear' := (clear.same same).thins (h.same same).neat.distinct
        (evict_thins m (t.budgetAt now).2 path now)
      have few := watched_enter_le (m := m) loses.orderly left inside clear' none
      omega
  · have one := (enters_enter (m := m) (t.budgetAt now).2 inside wd).counted
    omega

end Orderly

end JackalopeFs.WatchTable

namespace JackalopeFs.WatchedTree.Watches

open PathNames TransitionRuns WatchTable

/-- In every run of careful steps the table is orderly until the root's watch ends. -/
theorem orderly_of_careful {budget : ℕ} {s : Watches}
    (h : (machine budget).ReachableUnder (fun s a => s.careful a = true) s)
    (alive : s.table.dead = false) : Orderly s.table := by
  rcases shaped_of_reachable h with fits | ⟨dead, -⟩
  · exact ⟨0, fits.relate trivial⟩
  · rw [dead] at alive
    cases alive

end JackalopeFs.WatchedTree.Watches
