import JackalopeFs.WatchBatches

/-! # The watch table keeps its shape

The counts, the map and the tree of the watch table agree with each other and with the
watches in place after every step of a run, unless the table is dead.  Four things have to
be kept out of the runs, each of which breaks the agreement on its own; a run for each is
at the end.
-/

namespace JackalopeFs.WatchedTree

open EventWindow KeyedTables List NamedForests PathNames TransitionRuns TransitionRuns.Machine WatchTable

/-- The root's watch does not end while a directory is on its way. -/
def Safe : List (RawEvent ℕ) → Prop
  | [] => True
  | e :: rest => (leaves e → ∀ x ∈ rest, ends x → x.wd ≠ 0) ∧ Safe rest

instance decidableSafe : (events : List (RawEvent ℕ)) → Decidable (Safe events)
  | [] => .isTrue trivial
  | e :: rest =>
    have := decidableSafe rest
    inferInstanceAs (Decidable ((leaves e → _) ∧ _))

abbrev watchedMark (mark : Mark ℕ) : Prop :=
  mark.wd? ≠ none

/-- Every directory in the tree and on its way is watched. -/
structure Full (s : Table World ℕ × Moving ℕ) : Prop where
  tree : s.1.children.All watchedMark
  moving : ∀ k path n, s.2.lookup k = some (path, n) → watchedMark n.1 ∧ n.2.All watchedMark

variable {t t' : Table World ℕ} {moving : Moving ℕ} {rest : List (RawEvent ℕ)} {e : RawEvent ℕ}

namespace Full

theorem thinner (h : Full (t, moving)) (thinner : Thinner t t') : t'.children.All watchedMark := by
  obtain ⟨f, thin, use⟩ := thinner
  exact use.children ▸ h.tree.thins thin

theorem applies {next : Table World ℕ × Moving ℕ} (h : Full (t, moving))
    (applied : Applies inotified t moving e next) : Full next := by
  have left : ∀ k path n, (moving.erase e.cookie).lookup k = some (path, n) →
      watchedMark n.1 ∧ n.2.All watchedMark := fun k path n held => h.moving k path n (of_lookup_erase held).2
  cases applied with
  | thins _ _ thinner few =>
    refine ⟨h.thinner thinner, ?_⟩
    rcases few with rfl | rfl | rfl
    · exact h.moving
    · exact left
    · exact fun k path n held => absurd held (by simp)
  | dies => exact ⟨trivial, h.moving⟩
  | leaves path t₀ _ _ _ _ same found =>
    have tree := h.thinner (.same same)
    have thin := detach_thins t₀ path
    have node := Fits.detach_node t₀ path
    rw [found] at thin node
    refine ⟨tree.thins thin, fun k path' n' held => ?_⟩
    rcases of_lookup_insert held with ⟨-, same⟩ | ⟨-, held⟩
    · cases same
      exact tree.get node.symm
    · exact h.moving k path' n' held
  | arrives _ path _ _ t' n _ _ _ thinner arrived =>
    have use := (SameUse.rekey inotified t' path n).children
    exact ⟨put_all inotified (use ▸ h.thinner thinner) (rekey_all _ path (h.moving _ _ _ arrived)), left⟩

end Full

theorem moving_applies {k : ℕ} {next : Table World ℕ × Moving ℕ} (applied : Applies inotified t moving e next)
    (h : k ∈ next.2) : k ∈ moving ∨ leaves e := by
  cases applied with
  | thins _ _ _ few =>
    rcases few with rfl | rfl | rfl
    · exact .inl h
    · exact .inl (AList.mem_erase.mp h).2
    · exact absurd h (AList.notMem_empty k)
  | dies => exact .inl h
  | leaves _ _ _ _ kind directory => exact .inr (by simp [leaves, kind, directory])
  | arrives => exact .inl (AList.mem_erase.mp h).2

/-- A batch that is safe, and full if anything arrives. -/
structure Guarded (rest : List (RawEvent ℕ)) (s : Table World ℕ × Moving ℕ) : Prop where
  full : (∃ x ∈ rest, arrives x) → Full s
  calm : (∃ k, k ∈ s.2) → ∀ x ∈ rest, ends x → x.wd ≠ 0

theorem Midway.foldl {s : Table World ℕ × Moving ℕ} {events : List (RawEvent ℕ)} (h : Midway events s)
    (guarded : Guarded events s) (paired : Paired events) (safe : Safe events) :
    Midway [] (events.foldl (fun s e => s.1.applyEvent inotified s.2 e) s) := by
  induction events generalizing s with
  | nil => exact h
  | cons e events ih =>
    obtain ⟨t, moving⟩ := s
    have applied := applyEvent_applies (m := inotified) t moving e
    have guarded' : Guarded events (t.applyEvent inotified moving e) := by
      refine ⟨fun ⟨x, mem, here⟩ => (guarded.full ⟨x, mem_cons_of_mem _ mem, here⟩).applies applied, ?_⟩
      rintro ⟨k, mem⟩ x mem'
      rcases moving_applies applied mem with mem | left
      · exact guarded.calm ⟨k, mem⟩ x (mem_cons_of_mem _ mem')
      · exact safe.1 left x mem'
    refine ih ?_ guarded' paired.2 safe.2
    rcases h with h | ⟨dead, none, sound⟩
    · refine h.applyEvent paired (fun here dir _ n found => ?_) fun ending isRoot => ?_
      · exact ((guarded.full ⟨e, mem_cons_self, here⟩).tree.get found).1
      · refine AList.ext ?_
        by_contra some
        obtain ⟨x, mem⟩ := exists_mem_of_ne_nil _ some
        exact guarded.calm ⟨x.1, AList.mem_keys.mpr (mem_map_of_mem mem)⟩ e mem_cons_self
          ending isRoot
    · simp only [applyEvent_dead dead]
      exact .inr ⟨dead, none, sound⟩

/-- A dead table stays as it is. -/
theorem apply_dead (dead : t.dead = true) (events : List (RawEvent ℕ)) : t.apply inotified events = t := by
  have still : events.foldl (fun s e => s.1.applyEvent inotified s.2 e) (t, ∅) = (t, ∅) := by
    induction events with
    | nil => rfl
    | cons _ _ ih =>
      rw [foldl_cons, applyEvent_dead dead]
      exact ih
  rw [Table.apply, still]
  rfl

namespace Watches

/-- The directory that the watched part of `dir` leads to is none the table has further down. -/
def apart (t : Table World ℕ) (dir : Path) : Bool :=
  let above := dir.upTo (watchedDepth t.children dir.names)
  match (World.openDir above t.marks).1 with
  | .error _ => true
  | .ok i => t.byWd.entries.all fun e =>
    (t.marks.given[e.1]? = some i ∧ above.names <+: e.2.names) → e.2 = above

/-- The end of the root's watch is neither lost nor read together with the move of a directory before
it; directories arrive only in a table without unwatchable ones; and what is to be watched is not
found where the table has a directory above it. -/
def careful (s : Watches) : Action → Bool
  | .change c lost => (c, lost) ≠ (.unmount, true)
  | .touch _ _ => true
  | .arm dir _ turns => World.Told turns ∧ apart (s.begin turns) dir
  | .release _ => true
  | .apply count turns =>
    let batch := s.table.marks.queue.take count
    World.Told turns ∧ Safe batch ∧ ((∃ e ∈ batch, arrives e) → s.table.children.All watchedMark)

variable {s : Watches}

theorem shaped_same {t t' : Table World ℕ} (h : Shaped t) (same : SameBooks t t')
    (marks : t'.marks = t.marks) : Shaped t' := by
  rcases h with fits | ⟨dead, sound⟩
  · exact .inl (fits.congr same (by rw [marks]; exact fits.system))
  · exact .inr ⟨by rw [same.dead]; exact dead, by rw [same.underflowed]; exact sound⟩

theorem shaped_begin (h : Shaped s.table) (turns : List Turn) (told : World.Told turns) :
    Shaped (s.begin turns) := by
  rcases h with fits | dead
  · exact .inl (fits.congr ⟨⟨rfl, rfl, rfl⟩, rfl, rfl, rfl⟩ (fits.system.turned told))
  · exact .inr dead

theorem watchedDepth_pos {f : Forest Name (Mark ℕ)} {names : List Name} (h : 0 < watchedDepth f names) :
    0 < names.length := by
  cases names with
  | nil => exact absurd h (Nat.lt_irrefl 0)
  | cons => exact Nat.succ_pos _

theorem shaped_arm {t : Table World ℕ} {dir : Path} {now : ℕ} (h : Shaped t) (clear : apart t dir) :
    Shaped (t.arm inotified dir now).2 := by
  obtain ⟨same, marks⟩ := touch_same t dir now
  have touched := shaped_same h same marks
  unfold Table.arm
  rcases result : t.touch dir now with ⟨found, t'⟩
  rw [result] at same marks touched
  cases found with
  | done => exact touched
  | missing =>
    have alive : t.dead = false := by
      cases dead : t.dead with
      | false => rfl
      | true => simp [Table.touch, dead] at result
    have fits : Fits (World.InPlace [] fun _ => False) 0 t' [] := by
      rcases touched with fits | ⟨dead, -⟩
      · exact fits
      · exact absurd (dead.symm.trans (same.dead.trans alive)) (by simp)
    have extended := fits.extend ((World.confirming []).lawful _) dir
      (watchedDepth t'.children dir.names) now watchedDepth_pos ?_
    · exact .inl (extended.congr ⟨⟨rfl, rfl, rfl⟩, rfl, rfl, rfl⟩ extended.system)
    · intro i w' opened wd w'' added old known inside
      rw [same.children] at opened inside ⊢
      have before := fits.system
      have opened' := before.yield
      have given := World.opens_given (dir.upTo (watchedDepth t.children dir.names)) before
      have open_ : World.openDir (dir.upTo (watchedDepth t.children dir.names)) t'.marks =
        (.ok i, w') := opened
      rw [← World.openDir_snd (dir.upTo (watchedDepth t.children dir.names)), open_] at opened'
      rw [open_] at given
      obtain ⟨owner, grown⟩ := World.add_given opened' added
      have held := before.known wd (AList.lookup_isSome.mp (by simp [known]))
      have owned : t.marks.given[wd]? = some i := by
        rw [← marks, ← given]
        rw [← given] at held
        rw [getElem?_eq_getElem held, grown.getElem held, ← getElem?_eq_getElem]
        exact owner
      rw [marks] at open_
      simp only [apart, open_, all_eq_true, decide_eq_true_eq] at clear
      rw [same.byWd] at known
      exact clear ⟨wd, old⟩ (lookup_eq_some_iff.mp known) ⟨owned, inside⟩

/-- Every step that is careful keeps the table in shape. -/
theorem shaped_step {s' : Watches} {a : Action} (h : Shaped s.table) (careful : s.careful a = true)
    (moves : step s a = some s') : Shaped s'.table := by
  cases a with
  | change =>
    simp only [step, Option.map_eq_some_iff] at moves
    obtain ⟨w, happened, rfl⟩ := moves
    rcases h with fits | dead
    · simp only [Watches.careful, decide_eq_true_eq] at careful
      have later := World.happens_later fits.system.sane careful happened
      refine .inl (fits.marks (fits.system.later later ?_))
      rw [World.happens_turns fits.system.sane happened]
      exact fits.system.told
    · exact .inr dead
  | touch dir now =>
    simp only [step] at moves
    have begun := shaped_begin h [] (by simp [World.Told])
    obtain ⟨same, marks⟩ := touch_same (s.begin []) dir now
    have touched := shaped_same begun same marks
    split at moves
    · next result =>
        rw [result] at touched
        cases moves
        exact touched
    · next result =>
        rw [result] at touched
        cases moves
        exact touched
  | arm _ _ turns =>
    simp only [Watches.careful, decide_eq_true_eq] at careful
    cases moves
    exact shaped_arm (shaped_begin h turns careful.1) careful.2
  | release =>
    simp only [step, Option.map_eq_some_iff] at moves
    obtain ⟨cell, -, rfl⟩ := moves
    exact shaped_same h ⟨⟨rfl, rfl, rfl⟩, rfl, rfl, rfl⟩ rfl
  | apply count turns =>
    simp only [Watches.careful, decide_eq_true_eq] at careful
    obtain ⟨told, safe, full⟩ := careful
    cases moves
    rcases shaped_begin h turns told with fits | ⟨dead, sound⟩
    · refine Midway.dropMoving (Midway.foldl (.inl (.begin fits)) ⟨fun arriving => ?_, ?_⟩
        (fits.system.sane.paired.take count) safe)
      · exact ⟨full arriving, fun k path n held => absurd held (by simp)⟩
      · rintro ⟨k, mem⟩
        exact absurd mem (AList.notMem_empty k)
    · change Shaped ((read (s.begin turns) count).2.apply inotified _)
      rw [apply_dead (t := (read (s.begin turns) count).2) dead]
      exact .inr ⟨dead, sound⟩

theorem shaped_new (budget : ℕ) : Shaped (new budget).table := by
  have only : ∀ i wd, World.start.marks.lookup i = some wd → i = 0 ∧ wd = 0 := by
    intro i wd placed
    have listed : (⟨i, wd⟩ : Sigma fun _ : ℕ => ℕ) ∈ [⟨0, 0⟩] := lookup_eq_some_iff.mp placed
    cases mem_singleton.mp listed
    exact ⟨rfl, rfl⟩
  have sane : World.start.Sane := by
    refine ⟨Nat.one_pos, fun key i found => absurd found (by simp [World.start]), fun i wd placed => ?_,
      fun i wd placed => ?_, rfl, trivial, fun x mem => absurd mem (by simp [World.start])⟩
    · obtain ⟨rfl, rfl⟩ := only i wd placed
      rfl
    · obtain ⟨rfl, rfl⟩ := only i wd placed
      exact Nat.one_pos
  refine .inl ⟨⟨trivial, trivial⟩, rfl, rfl, .rfl, rfl, rfl, sane, by simp [World.Told, new, World.start],
    fun i wd placed => ?_, fun wd held => ?_, fun wd held => ?_, fun e mem => absurd mem (by simp [new, World.start]),
    fun e mem => absurd mem (by simp [new, World.start])⟩
  · rw [(only i wd placed).2]
    exact mem_singleton_self 0
  · obtain rfl : wd = 0 := mem_singleton.mp held
    exact .inr (.inl ⟨0, rfl⟩)
  · obtain rfl : wd = 0 := mem_singleton.mp held
    exact Nat.one_pos

theorem shaped_of_reachable {budget : ℕ}
    (h : (machine budget).ReachableUnder (fun s a => s.careful a = true) s) : Shaped s.table :=
  Machine.ReachableUnder.invariant (P := fun s => Shaped s.table) (shaped_new budget)
    (fun _ _ _ shaped careful moves => shaped_step shaped careful moves) h

/-- In every run of careful steps no count underflows; and unless the table is dead, the recorded
descriptors are those of the tree's watched directories, one more than are counted, each directory
in the tree is in a watched one, and the watches in place are those recorded, but for directories
that are deleted and whose event, or an overflow, is still to be read. -/
theorem table_matches_watches {budget : ℕ}
    (h : (machine budget).ReachableUnder (fun s a => s.careful a = true) s) :
    s.table.underflowed = false ∧ (s.table.dead = false →
      (∀ wd names, (wd, names) ∈ s.table.recorded ↔ s.table.descriptor names = some wd) ∧
      (s.table.recorded.map Prod.fst).Nodup ∧
      (∀ names name, (s.table.children.get (names ++ [name])).isSome →
        (s.table.descriptor names).isSome) ∧
      s.table.recorded.length = s.table.watched + 1 ∧
      (∀ i wd, s.table.marks.marks.lookup i = some wd → wd ∈ s.table.byWd) ∧
      ∀ wd ∈ s.table.byWd, (∃ i, s.table.marks.marks.lookup i = some wd) ∨ s.table.marks.Ended [] wd) := by
  rcases shaped_of_reachable h with fits | ⟨dead, sound⟩
  · have books := fits.books
    refine ⟨books.sound, fun _ => ⟨fun wd names => fits.mem_recorded_iff, ?_, fun names name here => ?_, ?_,
      fits.system.held, fun wd held => (fits.system.live wd held).resolve_left id⟩⟩
    · exact (books.recorded.map Prod.fst).nodup_iff.mpr books.nodup
    · obtain ⟨n, found⟩ := Option.isSome_iff_exists.mp here
      exact fits.descriptor_above found
    · rw [books.recorded.length_eq, ← books.counted]
  · exact ⟨sound, fun alive => absurd (dead.symm.trans alive) (by simp)⟩

/-- A tree with a watched directory moved, one moved over, and one removed. -/
theorem table_matches_watches_moved :
    ∃ s, (machine 10).ReachableUnder (fun s a => s.careful a = true) s ∧ s.table.watched = 2 ∧
      s.table.recorded.length = s.table.watched + 1 := by
  let a : Name := ⟨[97], by decide⟩
  let b : Name := ⟨[98], by decide⟩
  let z : Name := ⟨[122], by decide⟩
  let at_ : List Name → Place := fun names => ⟨0, names⟩
  let path : List Name → Path := fun names => (Path.fromNames names).getD .root
  obtain ⟨s, reached, counted⟩ := (machine 10).exists_of_runWhile
    (p := fun s : Watches => decide (s.table.dead = false ∧ s.table.watched = 2))
    (by decide +kernel : ((machine 10).runWhile careful (machine 10).initial
      [.change (.mkdir (at_ []) a) false, .change (.mkdir (at_ [a]) b) false, .arm (path [a, b]) 0 [],
        .apply 9 [], .change (.rename (at_ []) a (at_ []) z) false, .arm (path [z, a]) 0 [],
        .apply 9 [], .change (.mkdir (at_ [z]) a) false, .arm (path [z, a]) 0 [],
        .change (.rmdir (at_ [z]) b) false, .apply 9 []]).any _ = true)
  obtain ⟨alive, watched⟩ := of_decide_eq_true counted
  exact ⟨s, reached, watched, ((table_matches_watches reached).2 alive).2.2.2.1⟩

/-- Runs after which the table is not what it should be: the root's end is read after a directory's
leaving, and the count underflows; a directory is found at the path of the one above it, and is
recorded after its watch was removed; a directory arrives in one that left, whose path has an
unwatchable one; and the end of the root's watch is lost. -/
theorem table_breaks :
    let a : Name := ⟨[97], by decide⟩
    let b : Name := ⟨[98], by decide⟩
    let x : Name := ⟨[120], by decide⟩
    let z : Name := ⟨[122], by decide⟩
    let at_ : List Name → Place := fun names => ⟨0, names⟩
    let path : List Name → Path := fun names => (Path.fromNames names).getD .root
    (∃ s, (machine 10).run [.change (.mkdir (at_ []) a) false, .arm (path [a]) 0 [], .apply 9 [],
        .change (.moveOut (at_ []) a) false, .change .unmount false, .apply 9 []] = some s ∧
      s.table.underflowed = true) ∧
    (∃ s, (machine 10).run [.change (.mkdir (at_ []) a) false, .change (.mkdir (at_ [a]) b) false,
        .change (.mkdir (at_ [a, b]) x) false, .arm (path [a, b]) 0 [], .apply 9 [],
        .change (.rename (at_ [a]) b (at_ []) x) false, .change (.rename (at_ []) a (at_ []) z) false,
        .change (.rename (at_ []) x (at_ []) a) false, .arm (path [a, x]) 0 []] = some s ∧
      2 ∈ s.table.byWd ∧ (∀ e ∈ s.table.marks.marks.entries, e.2 ≠ 2) ∧ s.table.marks.deleted = []) ∧
    (∃ s, (machine 10).run [.change (.mkdir (at_ []) a) false, .change (.mkdir (at_ []) x) false,
        .change (.mkdir (at_ []) b) false, .arm (path [a]) 0 [], .arm (path [b]) 0 [],
        .arm (path [x]) 0 [⟨[], none⟩, ⟨[], none⟩, ⟨[], some (.other 13)⟩], .apply 9 [],
        .change (.moveOut (at_ []) a) false, .change (.rename (at_ []) x (at_ []) a) false,
        .change (.rename (at_ []) b ⟨1, []⟩ b) false, .apply 9 []] = some s ∧
      (s.table.descriptor [a, b]).isSome ∧ s.table.descriptor [a] = none) ∧
    ∃ s, (machine 10).run [.change .unmount true, .apply 9 []] = some s ∧
      s.table.dead = false ∧ 0 ∈ s.table.byWd ∧ s.table.marks.marks.entries = [] ∧ s.table.marks.queue = [] := by
  intro a b x z at_ path
  exact ⟨exists_run (by decide +kernel), exists_run (by decide +kernel), exists_run (by decide +kernel),
    exists_run (by decide +kernel)⟩

end Watches

end JackalopeFs.WatchedTree
