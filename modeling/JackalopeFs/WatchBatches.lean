import JackalopeFs.WatchLaws

/-! # Batches of events

A batch is applied event by event.  Between the two halves of a move a directory is on its
way, recorded but not in the tree; it is exempt from having its watch in place once its
arrival is not among the events to come, since it is dropped at the end of the batch.
-/

namespace JackalopeFs.WatchedTree

open EventWindow KeyedTables List NamedForests PathNames TransitionRuns WatchTable

set_option linter.unusedSectionVars false

/-- What is recorded of the directories on their way. -/
def floats (moving : Moving ℕ) : List (ℕ × List Name) :=
  moving.entries.flatMap fun e => Forest.collectNode Mark.wd? e.2.1.names e.2.2

theorem floats_insert {moving : Moving ℕ} {k : ℕ} {path : Path} {n : Node ℕ} (new : k ∉ moving) :
    floats (moving.insert k (path, n)) = Forest.collectNode Mark.wd? path.names n ++ floats moving := by
  rw [floats, AList.entries_insert_of_notMem new, flatMap_cons]
  rfl

theorem floats_erase {moving : Moving ℕ} {k : ℕ} {path : Path} {n : Node ℕ}
    (held : moving.lookup k = some (path, n)) :
    (floats moving).Perm (Forest.collectNode Mark.wd? path.names n ++ floats (moving.erase k)) := by
  refine ((perm_erase_held held).flatMap_right _).trans ?_
  rw [flatMap_cons]
  rfl

/-- A descriptor on its way whose arrival is not among the events to come. -/
def Stray (rest : List (RawEvent ℕ)) (moving : Moving ℕ) (wd : ℕ) : Prop :=
  ∃ k path n, moving.lookup k = some (path, n) ∧
    wd ∈ (Forest.collectNode Mark.wd? path.names n).map Prod.fst ∧ ∀ x ∈ rest, arrives x → x.cookie ≠ k

/-- The table while `rest` is still to be applied, with directories on their way. -/
structure Applying (rest : List (RawEvent ℕ)) (t : Table World ℕ) (moving : Moving ℕ) : Prop where
  fits : Fits (World.InPlace rest (Stray rest moving)) 0 t (floats moving)
  neat : ∀ k path n, moving.lookup k = some (path, n) → NeatNode n ∧ path.names ≠ []
  once : ∀ k ∈ moving, (∀ x ∈ rest, leaves x → x.cookie ≠ k) ∧ ∀ x ∈ rest.tail, arrives x → x.cookie ≠ k

variable {t : Table World ℕ} {moving : Moving ℕ} {rest : List (RawEvent ℕ)} {e : RawEvent ℕ}
variable {path : Path} {wd : ℕ}

def Tells (e : RawEvent ℕ) (wd : ℕ) : Prop :=
  (e.kind = .ignored ∧ e.wd = wd) ∨ (e.kind = .qOverflow ∧ wd ≠ 0)

theorem World.InPlace.consume {E E' K : ℕ → Prop} {w : World} (h : w.InPlace (e :: rest) E K)
    (exempt : ∀ wd, K wd → E wd → E' wd) (told : ∀ wd, K wd → Tells e wd → E' wd) :
    w.InPlace rest E' K := by
  refine ⟨h.sane, h.told, h.held, fun wd held => ?_, h.known, fun x mem => h.early x (mem_cons_of_mem _ mem),
    fun x mem => h.gone x (mem_cons_of_mem _ mem)⟩
  rcases h.live wd held with this | placed | ⟨gone, x, queued, tells⟩
  · exact .inl (exempt wd held this)
  · exact .inr (.inl placed)
  · rcases mem_cons.mp queued with rfl | queued
    · exact .inl (told wd held tells)
    · exact .inr (.inr ⟨gone, x, queued, tells⟩)

theorem Stray.tail (h : Stray (e :: rest) moving wd) : Stray rest moving wd := by
  obtain ⟨k, path, n, held, mem, none⟩ := h
  exact ⟨k, path, n, held, mem, fun x mem => none x (mem_cons_of_mem _ mem)⟩

namespace Applying

theorem skip (h : Applying (e :: rest) t moving) (told : ∀ wd, wd ∈ t.byWd → Tells e wd → Stray rest moving wd) :
    Applying rest t moving :=
  ⟨h.fits.relate (h.fits.system.consume (fun _ _ stray => stray.tail) told), h.neat,
    fun k mem => ⟨fun x mem' => (h.once k mem).1 x (mem_cons_of_mem _ mem'),
      fun x mem' => (h.once k mem).2 x (mem_of_mem_tail mem')⟩⟩

theorem stray_of_float (h : Applying (e :: rest) t moving) (mem : wd ∈ (floats moving).map Prod.fst) :
    Stray rest moving wd := by
  obtain ⟨e', listed, rfl⟩ := mem_map.mp mem
  obtain ⟨x, held, inside⟩ := mem_flatMap.mp listed
  obtain ⟨k, path, n⟩ := x
  have found : moving.lookup k = some (path, n) := lookup_eq_some_iff.mpr held
  exact ⟨k, path, n, found, mem_map_of_mem inside,
    (h.once k (AList.lookup_isSome.mp (by simp [found]))).2⟩

variable {t' : Table World ℕ}

theorem keep (h : Applying (e :: rest) t moving)
    (fits : Fits (World.InPlace rest (Stray rest moving)) 0 t' (floats moving)) : Applying rest t' moving :=
  ⟨fits, h.neat,
    fun k mem => ⟨fun x mem' => (h.once k mem).1 x (mem_cons_of_mem _ mem'),
      fun x mem' => (h.once k mem).2 x (mem_of_mem_tail mem')⟩⟩

theorem lawful (rest : List (RawEvent ℕ)) (moving : Moving ℕ) :
    Lawful inotified (World.InPlace rest (Stray rest moving)) :=
  (World.confirming rest).lawful _

theorem ended (h : Applying (e :: rest) t moving) {dir : Path} (known : t.byWd.lookup e.wd = some dir)
    (kind : e.kind = .ignored) (nonroot : dir.names ≠ []) :
    Applying rest (t.dropAt inotified false dir) moving := by
  have closed := (lawful (e :: rest) moving).rm
  have dropped := h.fits.dropAt closed false dir
  refine h.keep (dropped.relate (dropped.system.consume (fun _ _ stray => stray.tail) ?_))
  rintro wd held (⟨-, rfl⟩ | ⟨overflow, -⟩)
  · rcases h.fits.at_path known nonroot with ⟨n, found, watched⟩ | float
    · exact absurd held (h.fits.dropAt_gone closed false found watched)
    · exact h.stray_of_float (mem_map_of_mem float)
  · exact absurd (kind.symm.trans overflow) (by simp)

section

variable (h : Applying (e :: rest) t moving) (inside : path.names ≠ [])

include h inside

theorem stillThere
    (told : ∀ wd, ¬ Tells e wd) : Applying rest (t.stillThere inotified path).2 moving := by
  have next := h.skip fun wd _ tells => absurd tells (told wd)
  exact h.keep (next.fits.stillThere (lawful rest moving) inside)

theorem deleted
    (told : ∀ wd, ¬ Tells e wd) : Applying rest (t.deleted inotified path) moving := by
  have checked := h.stillThere inside told
  unfold Table.deleted
  rcases result : t.stillThere inotified path with ⟨same, t'⟩
  rw [result] at checked
  cases same with
  | true => exact checked
  | false =>
    exact h.keep (checked.fits.dropAt (lawful rest moving).rm true path)

theorem movedFrom (left : leaves e)
    (paired : Paired (e :: rest)) :
    Applying rest (t.movedFrom inotified moving path e.cookie).1
      (t.movedFrom inotified moving path e.cookie).2 := by
  have kind : e.kind = .movedFrom := by
    simp only [leaves, decide_eq_true_eq] at left
    exact left.1
  have checked := h.stillThere inside fun wd => by simp [Tells, kind]
  unfold Table.movedFrom
  rcases result : t.stillThere inotified path with ⟨same, t'⟩
  rw [result] at checked
  cases same with
  | true => exact checked
  | false =>
    simp only
    rcases detached : t'.detach path with ⟨n, t''⟩
    cases n with
    | none =>
      rw [Fits.detach_none detached]
      exact checked
    | some n =>
      have new : e.cookie ∉ moving := fun mem =>
        (h.once e.cookie mem).1 e mem_cons_self left rfl
      obtain ⟨neat, found, fits⟩ := checked.fits.detach detached
      have kept : ∀ k v, moving.lookup k = some v → (moving.insert e.cookie (path, n)).lookup k = some v := by
        intro k v held
        rw [AList.lookup_insert_ne]
        · exact held
        · rintro rfl
          exact new (AList.lookup_isSome.mp (by simp [held]))
      refine ⟨?_, fun k path' n' held => ?_, fun k mem => ?_⟩
      · rw [floats_insert new]
        refine fits.relate (fits.system.weaken ?_)
        rintro wd - ⟨k, path', n', held, mem, none⟩
        exact ⟨k, path', n', kept k _ held, mem, none⟩
      · rcases of_lookup_insert held with ⟨rfl, same⟩ | ⟨-, held⟩
        · cases same
          exact ⟨neat, inside⟩
        · exact checked.neat k path' n' held
      · rw [AList.mem_insert] at mem
        rcases mem with rfl | mem
        · exact paired.1 left
        · exact checked.once k mem

end

theorem erase_of_none (none : moving.lookup wd = none) : moving.erase wd = moving := by
  have absent : wd ∉ moving.entries.keys := AList.lookup_eq_none.mp none
  apply AList.ext
  exact kerase_of_notMem_keys absent

theorem arrive (h : Applying (e :: rest) t moving)
    (fits : Fits (World.InPlace rest (Stray rest (moving.erase e.cookie))) 0 t'
      (floats (moving.erase e.cookie))) : Applying rest t' (moving.erase e.cookie) := by
  refine ⟨fits, fun k path n held => h.neat k path n (of_lookup_erase held).2, fun k mem => ?_⟩
  have held := (AList.mem_erase.mp mem).2
  exact ⟨fun x mem' => (h.once k held).1 x (mem_cons_of_mem _ mem'),
    fun x mem' => (h.once k held).2 x (mem_of_mem_tail mem')⟩

theorem movedTo (h : Applying (e :: rest) t moving) (inside : path.names ≠ []) (here : arrives e)
    (clear : Clear t path.names.dropLast) :
    Applying rest (t.movedTo inotified moving path e.cookie).1
      (t.movedTo inotified moving path e.cookie).2 := by
  have kind : e.kind = .movedTo := by
    simp only [arrives, decide_eq_true_eq] at here
    exact here.1
  have lawful := lawful rest (moving.erase e.cookie)
  have settled : Fits (World.InPlace rest (Stray rest (moving.erase e.cookie))) 0 t (floats moving) := by
    refine h.fits.relate (h.fits.system.consume ?_ fun wd _ tells => ?_)
    · rintro wd - ⟨k, path', n, held, mem, none⟩
      have ne : k ≠ e.cookie := fun same => none e mem_cons_self here same.symm
      exact ⟨k, path', n, by rw [AList.lookup_erase_ne ne]; exact held, mem,
        fun x mem => none x (mem_cons_of_mem _ mem)⟩
    · simp [Tells, kind] at tells
  have checked := settled.stillThere lawful inside
  have same := (stillThere_same (m := inotified) t path).children
  unfold Table.movedTo
  rcases result : t.stillThere inotified path with ⟨there, t'⟩
  rw [result] at checked same
  cases there with
  | true =>
    cases arrived : moving.lookup e.cookie with
    | none => exact h.arrive (by rw [erase_of_none arrived] at checked ⊢; exact checked)
    | some a =>
      obtain ⟨source, n⟩ := a
      exact h.arrive ((checked.perm (floats_erase arrived)).dropTree lawful.rm true source)
  | false =>
    have dropped := checked.dropAt lawful.rm true path
    simp only
    cases arrived : moving.lookup e.cookie with
    | none => exact h.arrive (by rw [erase_of_none arrived] at dropped ⊢; exact dropped)
    | some a =>
      obtain ⟨source, n⟩ := a
      have rekeyed := (dropped.perm (floats_erase arrived)).rekey lawful.rm path
      refine h.arrive (rekeyed.put lawful.rm ((h.neat _ _ _ arrived).1.rekey _ path) inside ?_)
      refine clear.thins h.fits.neat.distinct ?_
      rw [(SameUse.rekey inotified (t'.dropAt inotified true path) path n).children, ← same]
      exact dropAt_thins inotified t' true path

theorem push (h : Applying rest t moving) (items : List EventItem) : Applying rest (t.push items) moving :=
  ⟨h.fits.push items, h.neat, h.once⟩

theorem dropMoving (h : Applying rest t moving) :
    Fits (World.InPlace rest fun _ => False) 0 (t.dropMoving inotified moving) [] ∧
      (t.dropMoving inotified moving).children = t.children := by
  have all : ∀ (entries : List (Sigma fun _ : ℕ => Path × Node ℕ)) (t : Table World ℕ),
      Fits (World.InPlace rest (Stray rest moving)) 0 t
        (entries.flatMap fun e => Forest.collectNode Mark.wd? e.2.1.names e.2.2) →
      Fits (World.InPlace rest (Stray rest moving)) 0
        (entries.foldl (fun t e => t.dropTree inotified true e.2.1 e.2.2) t) [] ∧
      (entries.foldl (fun t e => t.dropTree inotified true e.2.1 e.2.2) t).children = t.children := by
    intro entries
    induction entries with
    | nil => exact fun t fits => ⟨fits, rfl⟩
    | cons e _ ih =>
      intro t fits
      obtain ⟨left, tree⟩ := ih _ (fits.dropTree (lawful rest moving).rm true e.2.1)
      exact ⟨left, tree.trans (Drops.dropTree inotified t true e.2.1 e.2.2).children⟩
  obtain ⟨dropped, tree⟩ := all moving.entries t h.fits
  refine ⟨dropped.relate (dropped.system.weaken ?_), tree⟩
  rintro wd held ⟨k, path, n, found, mem, -⟩
  -- what was on its way is recorded no more, since it was recorded once
  have before := h.fits.books.nodup
  rw [map_append] at before
  have here : wd ∈ (floats moving).map Prod.fst := by
    obtain ⟨e, listed, rfl⟩ := mem_map.mp mem
    exact mem_map_of_mem (mem_flatMap.mpr ⟨⟨k, path, n⟩, lookup_eq_some_iff.mp found, listed⟩)
  rw [dropped.books.mem_iff, tree, append_nil] at held
  exact disjoint_of_nodup_append before held here

theorem overflow (h : Applying (e :: rest) t moving) (kind : e.kind = .qOverflow) :
    Applying rest (((t.dropMoving inotified moving).push [.overflow]).recheck inotified) ∅ := by
  obtain ⟨dropped, tree⟩ := h.dropMoving
  have suspect : Fits (World.InPlace rest fun x => False ∨
      x ∈ ((t.dropMoving inotified moving).children.collect Mark.wd? []).map Prod.fst) 0
      (t.dropMoving inotified moving) [] := by
    refine dropped.relate (dropped.system.consume (fun _ _ never => never.elim) ?_)
    rintro wd held (⟨ended, -⟩ | ⟨-, nonroot⟩)
    · exact absurd (kind.symm.trans ended) (by simp)
    · rw [dropped.books.mem_iff, append_nil, map_cons, mem_cons] at held
      exact .inr (held.resolve_left nonroot)
  have checked := Fits.recheck (t := (t.dropMoving inotified moving).push [.overflow])
    (World.confirming rest) (suspect.push _)
  exact ⟨checked.relate (checked.system.weaken fun _ _ never => never.elim),
    fun k path n held => absurd held (by simp), fun k mem => absurd mem (AList.notMem_empty k)⟩

theorem root_of_lookup (h : Applying rest t moving) {dir : Path} (known : t.byWd.lookup wd = some dir)
    (root : dir.names = []) : wd = 0 := by
  have listed := h.fits.books.recorded.mem_iff.mp (mem_recorded.mpr ⟨dir, known, root⟩)
  rcases mem_append.mp listed with tree | float
  · rcases mem_cons.mp tree with isRoot | below
    · exact (Prod.mk.inj isRoot).1
    · obtain ⟨names, n, same, found, -⟩ := (Forest.mem_collect h.fits.neat.distinct).mp below
      rw [nil_append] at same
      rw [← same] at found
      simp [Forest.get] at found
  · obtain ⟨⟨k, path, n⟩, held, inside⟩ := mem_flatMap.mp float
    have above := Forest.above_of_mem_collectNode inside
    exact absurd (prefix_nil.mp above) (h.neat k path n (lookup_eq_some_iff.mpr held)).2

end Applying

/-- The table in the middle of a batch: as it should be, or dead with nothing on its way. -/
def Midway (rest : List (RawEvent ℕ)) (s : Table World ℕ × Moving ℕ) : Prop :=
  Applying rest s.1 s.2 ∨ (s.1.dead = true ∧ s.2 = ∅ ∧ s.1.underflowed = false)

/-- The watch of a directory ended; if it is the root's, the table is dead. -/
theorem Applying.applyEnd (h : Applying (e :: rest) t moving) {dir : Path}
    (known : t.byWd.lookup e.wd = some dir) (ending : ends e) (still : e.wd = 0 → moving = ∅) :
    Midway rest (t.ended inotified dir e.kind, moving) := by
  unfold Table.ended
  by_cases root : dir.isRoot
  · rw [if_pos root]
    exact .inr ⟨rfl, still (h.root_of_lookup known (isEmpty_iff.mp root)), h.fits.books.sound⟩
  · rw [if_neg root]
    split_ifs with ignored
    · exact .inl (h.ended known ignored fun none => root (isEmpty_iff.mpr none))
    · refine .inl (h.skip fun wd _ tells => ?_)
      simp only [ends, mem_cons, not_mem_nil, or_false, decide_eq_true_eq] at ending
      rcases tells with ⟨kind, -⟩ | ⟨kind, -⟩
      · exact absurd kind ignored
      · simp [kind] at ending

theorem Applying.applyEntry (h : Applying (e :: rest) t moving) (dir : Path) (told : ∀ wd, ¬ Tells e wd)
    (paired : Paired (e :: rest)) (clear : arrives e → Clear t dir.names) :
    Applying rest (t.applyEntry inotified moving dir e).1 (t.applyEntry inotified moving dir e).2 := by
  have skipped : Applying rest t moving := h.skip fun wd _ tells => absurd tells (told wd)
  unfold Table.applyEntry Table.report
  cases e.name with
  | none =>
    simp only
    split_ifs
    · exact skipped.push _
    · exact skipped
  | some name =>
    simp only
    split_ifs with directory
    · cases joined : dir.join name with
      | none => exact skipped.push _
      | some path =>
        have inside : path.names ≠ [] := by
          rw [Path.fromNames_eq_some joined]
          simp
        have pushed := h.push (itemsFor dir e.kind name)
        simp only [Table.entryChanged]
        split
        · next left => exact pushed.movedFrom inside (by simp [leaves, left, directory]) paired
        · next here =>
            have here : arrives e := by simp [arrives, here, directory]
            refine pushed.movedTo inside here ?_
            rw [Path.fromNames_eq_some joined, dropLast_concat]
            exact clear here
        · exact pushed.deleted inside told
        · exact skipped.push _
    · exact skipped.push _

theorem Applying.applyIn (h : Applying (e :: rest) t moving) {dir : Path}
    (known : t.byWd.lookup e.wd = some dir) (kind : e.kind ≠ .qOverflow) (paired : Paired (e :: rest))
    (clear : arrives e → Clear t dir.names) (still : ends e → e.wd = 0 → moving = ∅) :
    Midway rest (t.applyIn inotified moving dir e) := by
  have told : e.kind ≠ .ignored → ∀ wd, ¬ Tells e wd := by
    rintro other wd (⟨ended, -⟩ | ⟨lost, -⟩)
    · exact other ended
    · exact kind lost
  unfold Table.applyIn
  split
  · next ended => exact ended ▸ h.applyEnd known (by simp [ends, ended]) (still (by simp [ends, ended]))
  · next ended => exact ended ▸ h.applyEnd known (by simp [ends, ended]) (still (by simp [ends, ended]))
  · next ended => exact ended ▸ h.applyEnd known (by simp [ends, ended]) (still (by simp [ends, ended]))
  · next moved => exact .inl (h.skip fun wd _ tells => absurd tells (told (by simp [moved]) wd))
  · next other _ _ _ => exact .inl (h.applyEntry dir (told other) paired clear)

/-- One event, whatever it is; a directory that arrives has nothing unwatchable above it, and the root's
watch ends with nothing on its way. -/
theorem Applying.applyEvent (h : Applying (e :: rest) t moving) (paired : Paired (e :: rest))
    (clear : arrives e → ∀ dir, t.byWd.lookup e.wd = some dir → Clear t dir.names)
    (still : ends e → e.wd = 0 → moving = ∅) : Midway rest (t.applyEvent inotified moving e) := by
  unfold Table.applyEvent
  rw [if_neg (by simp [h.fits.alive])]
  split_ifs with lost
  · exact .inl (h.overflow lost)
  · cases known : t.byWd.lookup e.wd with
    | none =>
      refine .inl (h.skip fun wd held tells => ?_)
      rcases tells with ⟨-, rfl⟩ | ⟨overflow, -⟩
      · exact absurd held (AList.lookup_eq_none.mp known)
      · exact absurd overflow lost
    | some dir => exact h.applyIn known lost paired (fun here => clear here dir known) still

theorem applyEvent_dead (dead : t.dead = true) (e : RawEvent ℕ) :
    t.applyEvent inotified moving e = (t, moving) := by
  rw [Table.applyEvent, if_pos dead]

def Shaped (t : Table World ℕ) : Prop :=
  Fits (World.InPlace [] fun _ => False) 0 t [] ∨ (t.dead = true ∧ t.underflowed = false)

theorem Midway.dropMoving {s : Table World ℕ × Moving ℕ} (h : Midway [] s) :
    Shaped (s.1.dropMoving inotified s.2) := by
  rcases h with h | ⟨dead, none, sound⟩
  · exact .inl h.dropMoving.1
  · rw [none]
    exact .inr ⟨dead, sound⟩

theorem Applying.begin {count : ℕ} (h : Fits (World.InPlace [] fun _ => False) 0 t []) :
    Applying (t.marks.queue.take count) (Watches.read t count).2 ∅ := by
  have system := h.system.read count
  have read : Fits (World.InPlace (t.marks.queue.take count) fun _ => False) 0 (Watches.read t count).2 [] :=
    h.congr ⟨⟨rfl, rfl, rfl⟩, rfl, rfl, rfl⟩ system
  exact ⟨read.relate (system.weaken fun _ _ never => never.elim),
    fun k path n held => absurd held (by simp), fun k mem => absurd mem (AList.notMem_empty k)⟩

end JackalopeFs.WatchedTree
