import JackalopeFs.WatchedTree
import JackalopeFs.WatchBooks

/-! # What the watches of the world keep to

Other processes only append events, end the watches of what they delete, and number moves
in order; an event or an overflow tells of every watch that ended.  `InPlace` is the
relation between the world and the recorded descriptors that the system calls of the table
keep: the watches in place are the recorded ones, but for those whose end is still to be
told and those that are exempt while a step is under way.
-/

namespace JackalopeFs.WatchedTree

open EventWindow IndexedCells KeyedTables List Option PathNames TransitionRuns WatchTable

def leaves (e : RawEvent ℕ) : Bool :=
  e.kind = .movedFrom ∧ e.isDir

def arrives (e : RawEvent ℕ) : Bool :=
  e.kind = .movedTo ∧ e.isDir

def ends (e : RawEvent ℕ) : Bool :=
  e.kind ∈ [.ignored, .unmount, .deleteSelf]

/-- The two halves of a move come one after the other, each once. -/
def Paired : List (RawEvent ℕ) → Prop
  | [] => True
  | e :: rest =>
    (leaves e → (∀ x ∈ rest, leaves x → x.cookie ≠ e.cookie) ∧
      ∀ x ∈ rest.tail, arrives x → x.cookie ≠ e.cookie) ∧ Paired rest

/-- The cookies of the moves in a list of events lie in a range. -/
def Cookies (low high : ℕ) (events : List (RawEvent ℕ)) : Prop :=
  ∀ x ∈ events, leaves x ∨ arrives x → low ≤ x.cookie ∧ x.cookie < high

theorem Paired.append {old new : List (RawEvent ℕ)} {low mid high : ℕ} (h : Paired old) (h' : Paired new)
    (before : Cookies low mid old) (after : Cookies mid high new) : Paired (old ++ new) := by
  induction old with
  | nil => exact h'
  | cons e rest ih =>
    have apart : leaves e → ∀ x ∈ new, leaves x ∨ arrives x → x.cookie ≠ e.cookie := by
      intro leaves x mem moves same
      have := (before e mem_cons_self (.inl leaves)).2
      have := (after x mem moves).1
      omega
    refine ⟨fun leaves => ⟨fun x mem left => ?_, fun x mem arrived => ?_⟩,
      ih h.2 fun x mem => before x (mem_cons_of_mem _ mem)⟩
    · rcases mem_append.mp mem with mem | mem
      · exact (h.1 leaves).1 x mem left
      · exact apart leaves x mem (.inl left)
    · have either : x ∈ rest.tail ∨ x ∈ new := by
        cases rest with
        | nil => exact .inr (mem_of_mem_tail mem)
        | cons => exact mem_append.mp mem
      rcases either with mem | mem
      · exact (h.1 leaves).2 x mem arrived
      · exact apart leaves x mem (.inr arrived)

variable {events : List (RawEvent ℕ)}

theorem Paired.drop (h : Paired events) (n : ℕ) : Paired (events.drop n) := by
  induction n generalizing events with
  | zero => exact h
  | succ _ ih =>
    cases events with
    | nil => trivial
    | cons => exact ih h.2

theorem Paired.take (h : Paired events) (n : ℕ) : Paired (events.take n) := by
  induction n generalizing events with
  | zero => trivial
  | succ n ih =>
    cases events with
    | nil => trivial
    | cons _ rest =>
      refine ⟨fun leaves => ⟨fun x mem => (h.1 leaves).1 x (mem_of_mem_take mem),
        fun x mem => (h.1 leaves).2 x ?_⟩, ih h.2⟩
      cases rest with
      | nil => simp at mem
      | cons =>
        cases n with
        | zero => simp at mem
        | succ => exact mem_of_mem_take mem

theorem paired_of_still (h : ∀ x ∈ events, leaves x = false) :
    Paired events := by
  induction events with
  | nil => trivial
  | cons e _ ih =>
    refine ⟨fun leaves => ?_, ih fun x mem => h x (mem_cons_of_mem _ mem)⟩
    rw [h e mem_cons_self] at leaves
    exact absurd leaves (by simp)

theorem Paired.still {old : List (RawEvent ℕ)} {low cookies : ℕ} (h : Paired old)
    (range : Cookies low cookies old) (new : List (RawEvent ℕ))
    (still : ∀ x ∈ new, leaves x = false ∧ arrives x = false) :
    Paired (old ++ new) ∧ Cookies low cookies (old ++ new) := by
  have none : Cookies cookies cookies new := by
    intro x mem moves
    simp [still x mem] at moves
  refine ⟨h.append (paired_of_still fun x mem => (still x mem).1) range none, fun x mem moves => ?_⟩
  rcases mem_append.mp mem with mem | mem
  · exact range x mem moves
  · simp [still x mem] at moves

namespace World

/-- The root is in no directory, and every directory has a number given out before. -/
def Entered (entries : AList fun _ : ℕ × Name => ℕ) (dirs : ℕ) : Prop :=
  ∀ key i, entries.lookup key = some i → i ≠ 0 ∧ i < dirs

/-- Descriptors are in place for the directories they were given for, the first for the root. -/
structure Sane (w : World) : Prop where
  root : 0 < w.dirs
  entered : Entered w.entries w.dirs
  owned : ∀ i wd, w.marks.lookup i = some wd → w.given[wd]? = some i
  numbered : ∀ i wd, w.marks.lookup i = some wd → i < w.dirs
  first : w.given[0]? = some 0
  paired : Paired w.queue
  cookies : Cookies 0 w.cookies w.queue

variable {entries : AList fun _ : ℕ × Name => ℕ}

theorem Entered.unlink {dirs : ℕ} (h : Entered entries dirs) (key : ℕ × Name) :
    Entered (entries.erase key) dirs :=
  fun key' i found => h key' i (of_lookup_erase found).2

theorem Entered.link {dirs i : ℕ} (h : Entered entries dirs) (key : ℕ × Name) (nonroot : i ≠ 0)
    (numbered : i < dirs) : Entered (entries.insert key i) dirs := by
  intro key' j found
  rcases of_lookup_insert found with ⟨-, rfl⟩ | ⟨-, found⟩
  · exact ⟨nonroot, numbered⟩
  · exact h key' j found

theorem Entered.mono {dirs dirs' : ℕ} (h : Entered entries dirs) (le : dirs ≤ dirs') :
    Entered entries dirs' :=
  fun key i found => ⟨(h key i found).1, (h key i found).2.trans_le le⟩

/-- A change in which at most the directory `gone`, not the root, is deleted. -/
structure Changed (gone : Option ℕ) (w w' : World) : Prop where
  given : w'.given = w.given
  turns : w'.turns = w.turns
  dirs : w.dirs ≤ w'.dirs
  marks : w'.marks = gone.elim w.marks w.marks.erase
  deleted : w'.deleted = gone.toList ++ w.deleted
  cookies : w.cookies ≤ w'.cookies
  queue : ∃ new, w'.queue = w.queue ++ new ∧ Paired new ∧ Cookies w.cookies w'.cookies new ∧
    (∀ i ∈ gone, ∀ wd, w.marks.lookup i = some wd → ⟨wd, .ignored, false, 0, none⟩ ∈ new) ∧
    ∀ e ∈ new, ∃ i, w.marks.lookup i = some e.wd ∧ (e.kind = .ignored → gone = some i)
  entered : Entered w'.entries w'.dirs
  root : gone ≠ some 0

variable {w w' : World}

theorem mem_event {dir cookie : ℕ} {kind : Kind} {isDir : Bool} {name : Option Name} {e : RawEvent ℕ}
    (h : e ∈ w.event dir kind isDir cookie name) : e.kind = kind ∧ e.isDir = isDir ∧ e.cookie = cookie := by
  simp only [event, mem_toList, map_eq_some_iff] at h
  obtain ⟨wd, -, rfl⟩ := h
  exact ⟨rfl, rfl, rfl⟩

/-- Events of directories that are watched and stay so. -/
def Heard (w : World) (events : List (RawEvent ℕ)) : Prop :=
  ∀ e ∈ events, e.kind ≠ .ignored ∧ ∃ i, w.marks.lookup i = some e.wd

theorem heard_event (dir cookie : ℕ) (kind : Kind) (isDir : Bool) (name : Option Name)
    (lives : kind ≠ .ignored) : Heard w (w.event dir kind isDir cookie name) := by
  intro e mem
  simp only [event, mem_toList, map_eq_some_iff] at mem
  obtain ⟨wd, placed, rfl⟩ := mem
  exact ⟨lives, dir, placed⟩

theorem Heard.append {old new : List (RawEvent ℕ)} (h : Heard w old) (h' : Heard w new) :
    Heard w (old ++ new) :=
  fun e mem => (mem_append.mp mem).elim (h e) (h' e)

theorem changed_settle (gone : Option ℕ) {cookies : ℕ} {events : List (RawEvent ℕ)}
    (entered : Entered entries w.dirs) (root : gone ≠ some 0) (le : w.cookies ≤ cookies)
    (paired : Paired events) (range : Cookies w.cookies cookies events) (heard : Heard w events) :
    Changed gone w (w.settle entries events gone cookies) := by
  cases gone with
  | none =>
    exact ⟨rfl, rfl, le_rfl, rfl, rfl, le, ⟨events, rfl, paired, range, by simp, fun e mem =>
      have ⟨lives, i, placed⟩ := heard e mem
      ⟨i, placed, fun ended => absurd ended lives⟩⟩, entered, root⟩
  | some i =>
    have still : ∀ x ∈ w.event i .deleteSelf false 0 none ++ w.event i .ignored false 0 none,
        leaves x = false ∧ arrives x = false := by
      intro x mem
      rcases mem_append.mp mem with mem | mem
      · simp [leaves, arrives, (mem_event mem).1]
      · simp [leaves, arrives, (mem_event mem).1]
    obtain ⟨paired', range'⟩ := paired.still range _ still
    refine ⟨rfl, rfl, le_rfl, rfl, rfl, le,
      ⟨_, by simp [settle, delete, log, event], paired', range', ?_, fun e mem => ?_⟩, entered, root⟩
    · rintro _ ⟨⟩ wd found
      simp [event, found]
    · rw [← append_assoc] at mem
      rcases mem_append.mp mem with mem | mem
      · obtain ⟨lives, i, placed⟩ := (heard.append (heard_event i 0 _ false none (by simp))) e mem
        exact ⟨i, placed, fun ended => absurd ended lives⟩
      · simp only [event, mem_toList, map_eq_some_iff] at mem
        obtain ⟨wd, placed, rfl⟩ := mem
        exact ⟨i, placed, fun _ => rfl⟩

theorem paired_move (dir newdir i cookie : ℕ) (name newname : Name) :
    Paired (w.event dir .movedFrom true cookie (some name) ++
      w.event newdir .movedTo true cookie (some newname) ++ w.event i .moveSelf false 0 none) ∧
    Cookies cookie (cookie + 1) (w.event dir .movedFrom true cookie (some name) ++
      w.event newdir .movedTo true cookie (some newname) ++ w.event i .moveSelf false 0 none) := by
  constructor
  · simp only [event]
    cases w.marks.lookup dir <;> cases w.marks.lookup newdir <;> cases w.marks.lookup i <;>
      simp [Paired, leaves, arrives]
  · intro x mem moves
    simp only [mem_append] at mem
    rcases mem with (mem | mem) | mem
    · simp [(mem_event mem).2.2]
    · simp [(mem_event mem).2.2]
    · simp [leaves, arrives, (mem_event mem).1] at moves

theorem paired_half (dir i cookie : ℕ) (kind : Kind) (name : Name) :
    Paired (w.event dir kind true cookie (some name) ++ w.event i .moveSelf false 0 none) ∧
      Cookies cookie (cookie + 1)
        (w.event dir kind true cookie (some name) ++ w.event i .moveSelf false 0 none) := by
  constructor
  · simp only [event]
    cases w.marks.lookup dir <;> cases w.marks.lookup i <;> simp [Paired, leaves, arrives]
  · intro x mem moves
    rcases mem_append.mp mem with mem | mem
    · simp [(mem_event mem).2.2]
    · simp [leaves, arrives, (mem_event mem).1] at moves

theorem entryAt_eq {place : Place} {name : Name} {dir i : ℕ} (h : w.entryAt place name = some (dir, i)) :
    w.dirAt place = some dir ∧ w.entries.lookup (dir, name) = some i := by
  simp only [entryAt, bind_eq_some_iff, map_eq_some_iff, Prod.mk.injEq] at h
  obtain ⟨dir', found, i', entry, rfl, rfl⟩ := h
  exact ⟨found, entry⟩

theorem paired_single (dir cookie : ℕ) (kind : Kind) (isDir : Bool) (name : Option Name)
    (still : kind ≠ .movedFrom ∧ kind ≠ .movedTo ∨ isDir = false) :
    Paired (w.event dir kind isDir cookie name) ∧
      Cookies w.cookies w.cookies (w.event dir kind isDir cookie name) := by
  have none : ∀ x ∈ w.event dir kind isDir cookie name, leaves x = false ∧ arrives x = false := by
    intro x mem
    rcases still with still | still
    · simp [leaves, arrives, (mem_event mem).1, still]
    · simp [leaves, arrives, (mem_event mem).2.1, still]
  refine ⟨paired_of_still fun x mem => (none x mem).1, fun x mem moves => ?_⟩
  simp [none x mem] at moves

theorem change_changed {c : Change} (sane : w.Sane) (h : w.change c = some w') :
    c = .unmount ∨ ∃ gone, Changed gone w w' := by
  have none_gone : ∀ key, w.entries.lookup key ≠ some 0 := fun key found => (sane.entered key 0 found).1 rfl
  cases c with
  | unmount => exact .inl rfl
  | mkdir _ name =>
    simp only [change, bind_eq_some_iff] at h
    obtain ⟨dir, -, h⟩ := h
    split_ifs at h with free
    cases h
    obtain ⟨paired, range⟩ := paired_single (w := w) dir 0 .create true (some name) (by simp)
    exact .inr ⟨none, rfl, rfl, Nat.le_succ _, rfl, rfl, le_rfl, ⟨_, rfl, paired, range, by simp, fun e mem =>
        have ⟨lives, i, placed⟩ := heard_event dir 0 .create true (some name) (by simp) e mem
        ⟨i, placed, fun ended => absurd ended lives⟩⟩,
      (sane.entered.mono (Nat.le_succ _)).link _ sane.root.ne' (Nat.lt_succ_self _), by simp⟩
  | mkdirOutside =>
    cases h
    exact .inr ⟨none, rfl, rfl, Nat.le_succ _, rfl, rfl, le_rfl,
      ⟨[], by simp, trivial, fun x mem => absurd mem (by simp), by simp, by simp⟩,
      sane.entered.mono (Nat.le_succ _), by simp⟩
  | rmdir _ name =>
    simp only [change, bind_eq_some_iff] at h
    obtain ⟨⟨dir, i⟩, entry, h⟩ := h
    split_ifs at h with empty
    cases h
    obtain ⟨paired, range⟩ := paired_single (w := w) dir 0 .delete true (some name) (by simp)
    exact .inr ⟨some i, changed_settle _ (sane.entered.unlink _)
      (fun same => none_gone _ ((entryAt_eq entry).2.trans same)) le_rfl paired range
      (heard_event dir 0 _ true _ (by simp))⟩
  | rename _ name _ newname =>
    simp only [change, bind_eq_some_iff] at h
    obtain ⟨⟨dir, i⟩, entry, newdir, -, h⟩ := h
    split_ifs at h with possible
    cases h
    have found := sane.entered _ _ (entryAt_eq entry).2
    obtain ⟨paired, range⟩ := paired_move (w := w) dir newdir i w.cookies name newname
    exact .inr ⟨_, changed_settle _ ((sane.entered.unlink _).link _ found.1 found.2) (none_gone _)
      (Nat.le_succ _) paired range
      (((heard_event _ _ _ _ _ (by simp)).append (heard_event _ _ _ _ _ (by simp))).append
        (heard_event _ _ _ _ _ (by simp)))⟩
  | exchange =>
    simp only [change, bind_eq_some_iff] at h
    obtain ⟨⟨dir, i⟩, entry, ⟨newdir, j⟩, entry', h⟩ := h
    split_ifs at h with possible
    cases h
    have found := sane.entered _ _ (entryAt_eq entry).2
    have found' := sane.entered _ _ (entryAt_eq entry').2
    refine .inr ⟨none, changed_settle none
      ((sane.entered.link _ found'.1 found'.2).link _ found.1 found.2) (by simp)
      (Nat.le_add_right _ 2) ?_ ?_
      ((((((heard_event _ _ _ _ _ (by simp)).append (heard_event _ _ _ _ _ (by simp))).append
        (heard_event _ _ _ _ _ (by simp))).append (heard_event _ _ _ _ _ (by simp))).append
        (heard_event _ _ _ _ _ (by simp))).append (heard_event _ _ _ _ _ (by simp)))⟩
    · simp only [event]
      cases w.marks.lookup dir <;> cases w.marks.lookup newdir <;> cases w.marks.lookup i <;>
        cases w.marks.lookup j <;> simp [Paired, leaves, arrives]
    · intro x mem moves
      simp only [mem_append] at mem
      rcases mem with ((((mem | mem) | mem) | mem) | mem) | mem
      · simp [(mem_event mem).2.2]
      · simp [(mem_event mem).2.2]
      · simp [(mem_event mem).2.2]
      · simp [(mem_event mem).2.2]
      · simp [leaves, arrives, (mem_event mem).1] at moves
      · simp [leaves, arrives, (mem_event mem).1] at moves
  | moveOut _ name =>
    simp only [change, map_eq_some_iff] at h
    obtain ⟨⟨dir, i⟩, entry, rfl⟩ := h
    obtain ⟨paired, range⟩ := paired_half (w := w) dir i w.cookies .movedFrom name
    exact .inr ⟨none, changed_settle none (sane.entered.unlink _) (by simp)
      (Nat.le_succ _) paired range
      ((heard_event _ _ _ _ _ (by simp)).append (heard_event _ _ _ _ _ (by simp)))⟩
  | moveIn top _ name =>
    simp only [change, bind_eq_some_iff] at h
    obtain ⟨dir, -, h⟩ := h
    split_ifs at h with possible
    cases h
    have numbered : top < w.dirs := by
      have here := possible.1
      simp only [isTop, present, decide_eq_true_eq] at here
      exact here.1.1
    obtain ⟨paired, range⟩ := paired_half (w := w) dir top w.cookies .movedTo name
    exact .inr ⟨_, changed_settle _ (sane.entered.link _ possible.2.1 numbered) (none_gone _)
      (Nat.le_succ _) paired range
      ((heard_event _ _ _ _ _ (by simp)).append (heard_event _ _ _ _ _ (by simp)))⟩
  | other _ kind name =>
    simp only [change] at h
    split_ifs at h with reported
    obtain ⟨dir, -, rfl⟩ := map_eq_some_iff.mp h
    obtain ⟨paired, range⟩ := paired_single (w := w) dir 0 kind false name (.inr rfl)
    exact .inr ⟨none, changed_settle none sane.entered (by simp) le_rfl paired range
      (heard_event _ _ _ _ _ (by rintro rfl; simp at reported))⟩

/-- What other processes can do to the watches: they end those of the directories they delete, and
an event or an overflow tells of that, for the root an event. -/
structure Later (w w' : World) : Prop where
  given : w'.given = w.given
  deleted : ∀ i ∈ w.deleted, i ∈ w'.deleted
  queue : ∃ new, w'.queue = w.queue ++ new ∧ ∀ e ∈ new, e.wd < w.given.length ∧
    (e.kind = .ignored → ∃ i, w.given[e.wd]? = some i ∧ i ∈ w'.deleted)
  marks : ∀ i wd, w'.marks.lookup i = some wd → w.marks.lookup i = some wd
  ends : ∀ i wd, w.marks.lookup i = some wd → w'.marks.lookup i = some wd ∨
    (i ∈ w'.deleted ∧ ∃ e ∈ w'.queue, (e.kind = .ignored ∧ e.wd = wd) ∨ (e.kind = .qOverflow ∧ i ≠ 0))
  sane : w'.Sane

theorem Later.refl (sane : w.Sane) : Later w w :=
  ⟨rfl, fun _ h => h, ⟨[], by simp, by simp⟩, fun _ _ h => h, fun _ _ h => .inl h, sane⟩

theorem Later.trans {w'' : World} (h : Later w w') (h' : Later w' w'') : Later w w'' := by
  obtain ⟨new, grown, ended⟩ := h.queue
  obtain ⟨new', grown', ended'⟩ := h'.queue
  refine ⟨h'.given.trans h.given, fun i gone => h'.deleted i (h.deleted i gone),
    ⟨new ++ new', by rw [grown', grown, append_assoc], fun e mem => ?_⟩,
    fun i wd held => h.marks i wd (h'.marks i wd held), fun i wd held => ?_, h'.sane⟩
  · rcases mem_append.mp mem with mem | mem
    · obtain ⟨early, gone⟩ := ended e mem
      refine ⟨early, fun ignored => ?_⟩
      obtain ⟨i, given, gone⟩ := gone ignored
      exact ⟨i, given, h'.deleted i gone⟩
    · rw [← h.given]
      exact ended' e mem
  rcases h.ends i wd held with still | ⟨gone, e, queued, tells⟩
  · exact h'.ends i wd still
  · exact .inr ⟨h'.deleted i gone, e, by rw [grown']; exact mem_append_left _ queued, tells⟩

theorem Changed.later {gone : Option ℕ} (h : Changed gone w w') (sane : w.Sane) (lost : Bool) :
    Later w (if lost then { w' with queue := w.queue ++ [overflowEvent] } else w') := by
  obtain ⟨new, grown, paired, range, told, heard⟩ := h.queue
  have stays : ∀ i wd, w'.marks.lookup i = some wd → w.marks.lookup i = some wd := by
    intro i wd held
    rw [h.marks] at held
    cases gone with
    | none => exact held
    | some => exact (of_lookup_erase held).2
  have ends : ∀ i wd, w.marks.lookup i = some wd → w'.marks.lookup i = some wd ∨ gone = some i := by
    intro i wd held
    rw [h.marks]
    cases gone with
    | none => exact .inl held
    | some j =>
      by_cases same : i = j
      · exact .inr (by rw [same])
      · exact .inl (by rw [elim_some, AList.lookup_erase_ne same]; exact held)
  have sane' : w'.Sane :=
    ⟨sane.root.trans_le h.dirs, h.entered, fun i wd held => by rw [h.given]; exact sane.owned i wd (stays i wd held),
      fun i wd held => (sane.numbered i wd (stays i wd held)).trans_le h.dirs, by rw [h.given]; exact sane.first,
      by rw [grown]; exact sane.paired.append paired sane.cookies range,
      by
        rw [grown]
        intro x mem moves
        rcases mem_append.mp mem with mem | mem
        · exact ⟨Nat.zero_le _, (sane.cookies x mem moves).2.trans_le h.cookies⟩
        · exact ⟨Nat.zero_le _, (range x mem moves).2⟩⟩
  cases lost with
  | false =>
    refine ⟨h.given, fun i mem => by rw [if_neg (by simp), h.deleted]; exact mem_append_right _ mem,
      ⟨new, grown, fun e mem => ?_⟩, stays, fun i wd held => ?_, sane'⟩
    · obtain ⟨i, placed, ended⟩ := heard e mem
      have owner := sane.owned i e.wd placed
      refine ⟨lt_of_lookup owner, fun ignored => ⟨i, owner, ?_⟩⟩
      rw [if_neg (by simp), h.deleted, ended ignored]
      simp
    rcases ends i wd held with still | rfl
    · exact .inl still
    · refine .inr ⟨by rw [if_neg (by simp), h.deleted]; simp, ⟨wd, .ignored, false, 0, none⟩, ?_,
        .inl ⟨rfl, rfl⟩⟩
      rw [if_neg (by simp), grown]
      exact mem_append_right _ (told i rfl wd held)
  | true =>
    obtain ⟨paired', range'⟩ := sane.paired.still sane.cookies [overflowEvent]
      (by simp [overflowEvent, leaves, arrives])
    refine ⟨h.given, fun i mem => by rw [if_pos rfl]; simp [h.deleted, mem],
      ⟨[overflowEvent], rfl, fun e mem => ?_⟩, stays, fun i wd held => ?_,
      ⟨sane'.root, sane'.entered, sane'.owned, sane'.numbered, sane'.first, paired',
        fun x mem moves => ⟨Nat.zero_le _, (range' x mem moves).2.trans_le h.cookies⟩⟩⟩
    · obtain rfl := mem_singleton.mp mem
      exact ⟨(List.getElem?_eq_some_iff.mp sane.first).1, fun ignored => absurd ignored (by simp [overflowEvent])⟩
    rcases ends i wd held with still | rfl
    · exact .inl still
    · refine .inr ⟨by rw [if_pos rfl]; simp [h.deleted], overflowEvent, by simp, .inr ⟨rfl, ?_⟩⟩
      rintro rfl
      exact h.root rfl

theorem happens_later {c : Change} {lost : Bool} (sane : w.Sane) (told : (c, lost) ≠ (.unmount, true))
    (h : w.happens c lost = some w') : Later w w' := by
  obtain ⟨w₁, changed, rfl⟩ := map_eq_some_iff.mp h
  rcases change_changed sane changed with rfl | ⟨gone, changed⟩
  · obtain rfl : lost = false := by
      cases lost
      · rfl
      · exact absurd rfl told
    cases changed
    obtain ⟨paired, range⟩ := sane.paired.still sane.cookies
      (w.marks.entries.flatMap fun e =>
        [⟨e.2, .unmount, false, 0, none⟩, ⟨e.2, .ignored, false, 0, none⟩]) (by
          intro x mem
          obtain ⟨e, -, mem⟩ := mem_flatMap.mp mem
          simp only [mem_cons, not_mem_nil, or_false] at mem
          rcases mem with rfl | rfl <;> simp [leaves, arrives])
    refine ⟨rfl, fun i gone => mem_append_right _ gone, ⟨_, rfl, fun e mem => ?_⟩, fun i wd held => ?_,
      fun i wd held => .inr ⟨?_, ⟨wd, .ignored, false, 0, none⟩, ?_, .inl ⟨rfl, rfl⟩⟩,
      ⟨sane.root, sane.entered, fun i wd held => ?_, fun i wd held => ?_, sane.first, paired, range⟩⟩
    · obtain ⟨x, placed, mem⟩ := mem_flatMap.mp mem
      have placed : w.marks.lookup x.1 = some x.2 := lookup_eq_some_iff.mpr placed
      have owner := sane.owned x.1 x.2 placed
      have same : e.wd = x.2 := by
        simp only [mem_cons, not_mem_nil, or_false] at mem
        rcases mem with rfl | rfl <;> rfl
      rw [same]
      exact ⟨lt_of_lookup owner, fun _ => ⟨x.1, owner,
        mem_append_left _ (mem_range.mpr (sane.numbered x.1 x.2 placed))⟩⟩
    · exact absurd held (by simp)
    · exact mem_append_left _ (mem_range.mpr (sane.numbered i wd held))
    · refine mem_append_right _ (mem_flatMap.mpr ⟨⟨i, wd⟩, lookup_eq_some_iff.mp held, ?_⟩)
      simp
    · exact absurd held (by simp)
    · exact absurd held (by simp)
  · exact changed.later sane lost

theorem happens_turns {c : Change} {lost : Bool} (sane : w.Sane) (h : w.happens c lost = some w') :
    w'.turns = w.turns := by
  obtain ⟨w₁, changed, rfl⟩ := map_eq_some_iff.mp h
  have kept : w₁.turns = w.turns := by
    rcases change_changed sane changed with rfl | ⟨gone, changed⟩
    · cases changed
      rfl
    · exact changed.turns
  split_ifs <;> exact kept

def Told (turns : List Turn) : Prop :=
  ∀ turn ∈ turns, (Change.unmount, true) ∉ turn.changes

instance (turns : List Turn) : Decidable (Told turns) :=
  inferInstanceAs (Decidable (∀ turn ∈ turns, _))

theorem openDir_snd (path : Path) (w : World) : (openDir path w).2 = w.yield.2 := by
  unfold openDir
  rcases w.yield with ⟨_ | _, _⟩ <;> rfl

theorem openChild_snd (dir : ℕ) (name : Name) (w : World) : (openChild dir name w).2 = w.yield.2 := by
  unfold openChild
  rcases w.yield with ⟨_ | _, _⟩ <;> rfl

theorem eq_of_add_error {dir : ℕ} {e : Errno} (refused : add dir w = (.error e, w')) : w' = w.yield.2 := by
  unfold add at refused
  generalize w.yield = answer at refused ⊢
  rcases answer with ⟨_ | _, w₁⟩ <;> simp only at refused
  · split_ifs at refused
    · exact (Prod.mk.inj refused).2.symm
    · split at refused <;> simp at refused
  · exact (Prod.mk.inj refused).2.symm

/-- What is watched already keeps its descriptor; otherwise the next one is given. -/
theorem eq_of_add_ok {dir wd : ℕ} (ok : add dir w = (.ok wd, w')) :
    w.yield.2.marks.lookup dir = some wd ∧ w' = w.yield.2 ∨
      w.yield.2.marks.lookup dir = none ∧ dir < w.yield.2.dirs ∧ wd = w.yield.2.given.length ∧
        w' = { w.yield.2 with marks := w.yield.2.marks.insert dir wd, given := w.yield.2.given ++ [dir] } := by
  unfold add at ok
  generalize w.yield = answer at ok ⊢
  rcases answer with ⟨_ | _, w₁⟩ <;> simp only at ok
  · split_ifs at ok with absent
    · simp at ok
    simp only [present, decide_eq_false_iff_not, not_not] at absent
    split at ok
    · next wd' placed =>
        simp only [Prod.mk.injEq, Except.ok.injEq] at ok
        exact .inl ⟨ok.1 ▸ placed, ok.2.symm⟩
    · next free =>
        simp only [Prod.mk.injEq, Except.ok.injEq] at ok
        obtain ⟨rfl, rfl⟩ := ok
        exact .inr ⟨free, absent.1, rfl, rfl⟩
  · simp at ok

theorem yield_later (sane : w.Sane) (told : Told w.turns) :
    Later w w.yield.2 ∧ Told w.yield.2.turns := by
  unfold yield
  cases turns : w.turns with
  | nil => exact ⟨.refl sane, told⟩
  | cons turn =>
    rw [turns] at told
    have all : ∀ changes : List (Change × Bool), (Change.unmount, true) ∉ changes → ∀ w : World, w.Sane →
        Later w (changes.foldl (fun w c => (w.happens c.1 c.2).getD w) w) := by
      intro changes
      induction changes with
      | nil => exact fun _ w sane => .refl sane
      | cons c _ ih =>
        intro apart w sane
        have first : Later w ((w.happens c.1 c.2).getD w) := by
          cases happened : w.happens c.1 c.2 with
          | none => exact .refl sane
          | some => exact happens_later sane (fun same => apart (by simp [← same])) happened
        exact first.trans (ih (fun mem => apart (mem_cons_of_mem _ mem)) _ first.sane)
    have later := all turn.changes (told turn mem_cons_self) w sane
    exact ⟨⟨later.given, later.deleted, later.queue, later.marks, later.ends,
      ⟨later.sane.root, later.sane.entered, later.sane.owned, later.sane.numbered, later.sane.first,
        later.sane.paired, later.sane.cookies⟩⟩,
      fun turn mem => told turn (mem_cons_of_mem _ mem)⟩

/-- The watch of a deleted directory ended, and an event still to be applied tells so. -/
def Ended (rest : List (RawEvent ℕ)) (w : World) (wd : ℕ) : Prop :=
  (∃ i, w.given[wd]? = some i ∧ i ∈ w.deleted) ∧
    ∃ e ∈ rest ++ w.queue, (e.kind = .ignored ∧ e.wd = wd) ∨ (e.kind = .qOverflow ∧ wd ≠ 0)

/-- The descriptors in place are those in `K`, but for ended and exempt ones. -/
structure InPlace (rest : List (RawEvent ℕ)) (E : ℕ → Prop) (w : World) (K : ℕ → Prop) : Prop where
  sane : w.Sane
  told : Told w.turns
  held : ∀ i wd, w.marks.lookup i = some wd → K wd
  live : ∀ wd, K wd → E wd ∨ (∃ i, w.marks.lookup i = some wd) ∨ w.Ended rest wd
  known : ∀ wd, K wd → wd < w.given.length
  early : ∀ e ∈ rest ++ w.queue, e.wd < w.given.length
  gone : ∀ e ∈ rest ++ w.queue, e.kind = .ignored → K e.wd → ∃ i, w.given[e.wd]? = some i ∧ i ∈ w.deleted

namespace InPlace

variable {rest : List (RawEvent ℕ)} {E : ℕ → Prop} {K : ℕ → Prop}

theorem later (h : InPlace rest E w K) (after : Later w w') (told : Told w'.turns) :
    InPlace rest E w' K := by
  obtain ⟨new, grown, ended⟩ := after.queue
  have queued : ∀ e ∈ rest ++ w'.queue, e ∈ rest ++ w.queue ∨ e ∈ new := by
    intro e mem
    rw [grown, ← append_assoc] at mem
    exact mem_append.mp mem
  refine ⟨after.sane, told, fun i wd held => h.held i wd (after.marks i wd held), fun wd held => ?_,
    fun wd held => by rw [after.given]; exact h.known wd held, fun e mem => ?_, fun e mem ignored held => ?_⟩
  rotate_left
  · rw [after.given]
    exact (queued e mem).elim (h.early e) fun mem => (ended e mem).1
  · rw [after.given]
    rcases queued e mem with mem | mem
    · obtain ⟨i, given, gone⟩ := h.gone e mem ignored held
      exact ⟨i, given, after.deleted i gone⟩
    · exact (ended e mem).2 ignored
  rcases h.live wd held with exempt | ⟨i, placed⟩ | ⟨⟨i, given, gone⟩, e, queued, tells⟩
  · exact .inl exempt
  · rcases after.ends i wd placed with still | ⟨gone, e, queued, tells⟩
    · exact .inr (.inl ⟨i, still⟩)
    · have owner := h.sane.owned i wd placed
      refine .inr (.inr ⟨⟨i, by rw [after.given]; exact owner, gone⟩, e, mem_append_right _ queued,
        tells.imp id fun ⟨overflow, nonroot⟩ => ⟨overflow, ?_⟩⟩)
      rintro rfl
      exact nonroot (Option.some.inj (owner.symm.trans h.sane.first))
  · refine .inr (.inr ⟨⟨i, by rw [after.given]; exact given, after.deleted i gone⟩, e, ?_, tells⟩)
    rw [grown, ← append_assoc]
    exact mem_append_left _ queued

theorem turned (h : InPlace rest E w K) {turns : List Turn} (told : Told turns) :
    InPlace rest E { w with turns := turns } K :=
  ⟨⟨h.sane.root, h.sane.entered, h.sane.owned, h.sane.numbered, h.sane.first, h.sane.paired,
    h.sane.cookies⟩, told, h.held, h.live, h.known, h.early, h.gone⟩

theorem read (h : InPlace [] E w K) (count : ℕ) :
    InPlace (w.queue.take count) E { w with queue := w.queue.drop count } K := by
  refine ⟨⟨h.sane.root, h.sane.entered, h.sane.owned, h.sane.numbered, h.sane.first,
    h.sane.paired.drop count, fun x mem => h.sane.cookies x (mem_of_mem_drop mem)⟩, h.told, h.held,
    fun wd held => ?_, h.known, ?_, ?_⟩
  · rcases h.live wd held with exempt | placed | ⟨gone, e, queued, tells⟩
    · exact .inl exempt
    · exact .inr (.inl placed)
    · exact .inr (.inr ⟨gone, e, by rw [take_append_drop]; exact queued, tells⟩)
  · rw [take_append_drop]
    exact h.early
  · rw [take_append_drop]
    exact h.gone

section

variable (h : InPlace rest E w K)

include h

theorem yield : InPlace rest E w.yield.2 K :=
  h.later (yield_later h.sane h.told).1 (yield_later h.sane h.told).2

theorem rm (wd : ℕ) :
    InPlace rest E (w.rm wd) fun x => K x ∧ x ≠ wd := by
  have h' := h.yield
  unfold World.rm
  simp only
  generalize w.yield.2 = w at h' ⊢
  have skip : (∀ i, w.marks.lookup i ≠ some wd) → InPlace rest E w fun x => K x ∧ x ≠ wd := fun absent =>
    ⟨h'.sane, h'.told, fun i x placed => ⟨h'.held i x placed, fun same => absent i (same ▸ placed)⟩,
      fun x held => h'.live x held.1, fun x held => h'.known x held.1, h'.early,
      fun e mem ignored held => h'.gone e mem ignored held.1⟩
  split
  · next none =>
      refine skip fun i placed => ?_
      rw [h'.sane.owned i wd placed] at none
      exact absurd none (by simp)
  · next dir given =>
      split_ifs with placed
      · obtain ⟨paired, range⟩ := h'.sane.paired.still h'.sane.cookies
          [⟨wd, .ignored, false, 0, none⟩] (by simp [leaves, arrives])
        refine ⟨⟨h'.sane.root, h'.sane.entered,
            fun i x held => h'.sane.owned i x (of_lookup_erase held).2,
            fun i x held => h'.sane.numbered i x (of_lookup_erase held).2, h'.sane.first, paired, range⟩,
          h'.told,
          fun i x held => ?_, fun x held => ?_, fun x held => h'.known x held.1, fun e mem => ?_,
          fun e mem ignored held => ?_⟩
        rotate_left 2
        · rw [← append_assoc] at mem
          rcases mem_append.mp mem with mem | mem
          · exact h'.early e mem
          · rw [mem_singleton.mp mem]
            exact lt_of_lookup given
        · rw [← append_assoc] at mem
          rcases mem_append.mp mem with mem | mem
          · exact h'.gone e mem ignored held.1
          · exact absurd (by rw [mem_singleton.mp mem]) held.2
        · obtain ⟨ne, placed'⟩ := of_lookup_erase held
          refine ⟨h'.held i x placed', ?_⟩
          rintro rfl
          exact ne (Option.some.inj ((h'.sane.owned i x placed').symm.trans given))
        · rcases h'.live x held.1 with exempt | ⟨i, placed'⟩ | ⟨gone, e, queued, tells⟩
          · exact .inl exempt
          · have ne : i ≠ dir := by
              rintro rfl
              exact held.2 (Option.some.inj (placed'.symm.trans placed))
            exact .inr (.inl ⟨i, by rw [AList.lookup_erase_ne ne]; exact placed'⟩)
          · refine .inr (.inr ⟨gone, e, ?_, tells⟩)
            rw [← append_assoc]
            exact mem_append_left _ queued
      · refine skip fun i placed' => ?_
        obtain rfl := Option.some.inj ((h'.sane.owned i wd placed').symm.trans given)
        exact placed placed'

theorem add_ok {dir wd : ℕ} (ok : World.add dir w = (.ok wd, w')) :
    InPlace rest (fun x => E x ∧ x ≠ wd) w' fun x => K x ∨ x = wd := by
  have h' := h.yield
  have cases := eq_of_add_ok ok
  generalize w.yield.2 = w₁ at h' cases
  rcases cases with ⟨placed, rfl⟩ | ⟨free, present, rfl, rfl⟩
  · have recorded := h'.held dir wd placed
    refine ⟨h'.sane, h'.told, fun i x held => .inl (h'.held i x held), fun x held => ?_,
      fun x held => h'.known x (held.elim id fun same => same ▸ recorded), h'.early,
      fun e mem ignored held => h'.gone e mem ignored (held.elim id fun same => same ▸ recorded)⟩
    by_cases same : x = wd
    · exact .inr (.inl ⟨dir, same ▸ placed⟩)
    · exact (h'.live x (held.resolve_right same)).imp (⟨·, same⟩) id
  · have given : ∀ x i, w₁.given[x]? = some i → (w₁.given ++ [dir])[x]? = some i :=
      fun x i found => lookup_add found
    refine ⟨⟨h'.sane.root, h'.sane.entered, fun i x held => ?_, fun i x held => ?_,
      given 0 0 h'.sane.first, h'.sane.paired, h'.sane.cookies⟩, h'.told, fun i x held => ?_, fun x held => ?_, fun x held => ?_,
      fun e mem => ?_, fun e mem ignored held => ?_⟩
    · rcases of_lookup_insert held with ⟨rfl, rfl⟩ | ⟨-, placed⟩
      · simp
      · exact given x i (h'.sane.owned i x placed)
    · rcases of_lookup_insert held with ⟨rfl, rfl⟩ | ⟨-, placed⟩
      · exact present
      · exact h'.sane.numbered i x placed
    · rcases of_lookup_insert held with ⟨rfl, rfl⟩ | ⟨-, placed⟩
      · exact .inr rfl
      · exact .inl (h'.held i x placed)
    · by_cases same : x = w₁.given.length
      · exact .inr (.inl ⟨dir, by rw [same]; exact AList.lookup_insert _⟩)
      · rcases h'.live x (held.resolve_right same) with exempt | ⟨i, placed⟩ |
          ⟨⟨i, owner, gone⟩, tells⟩
        · exact .inl ⟨exempt, same⟩
        · have ne : i ≠ dir := by
            rintro rfl
            exact absurd (free.symm.trans placed) (by simp)
          exact .inr (.inl ⟨i, by rw [AList.lookup_insert_ne ne]; exact placed⟩)
        · exact .inr (.inr ⟨⟨i, given x i owner, gone⟩, tells⟩)
    · rw [length_append, length_singleton]
      rcases held with held | rfl
      · exact (h'.known x held).trans (Nat.lt_succ_self _)
      · exact Nat.lt_succ_self _
    · rw [length_append, length_singleton]
      exact (h'.early e mem).trans (Nat.lt_succ_self _)
    · obtain ⟨i, owner, gone⟩ := h'.gone e mem ignored (held.resolve_right (h'.early e mem).ne)
      exact ⟨i, given _ i owner, gone⟩

theorem add_error {dir : ℕ} {e : Errno}
    (refused : World.add dir w = (.error e, w')) : InPlace rest E w' K :=
  eq_of_add_error refused ▸ h.yield

theorem weaken {E' : ℕ → Prop} (all : ∀ x, K x → E x → E' x) :
    InPlace rest E' w K :=
  ⟨h.sane, h.told, h.held, fun wd held => (h.live wd held).imp (all wd held) id, h.known, h.early, h.gone⟩

end

end InPlace

variable {rest : List (RawEvent ℕ)} {E K : ℕ → Prop}

theorem opens_given (path : Path) (h : InPlace rest E w K) :
    (openDir path w).2.given = w.given :=
  (openDir_snd path w).symm ▸ (yield_later h.sane h.told).1.given

/-- A descriptor is given for the directory that was to be watched, and those given before stay. -/
theorem add_given {dir wd : ℕ} (h : InPlace rest E w K) (ok : add dir w = (.ok wd, w')) :
    w'.given[wd]? = some dir ∧ w.given <+: w'.given := by
  have later := (yield_later h.sane h.told).1
  rcases eq_of_add_ok ok with ⟨placed, rfl⟩ | ⟨-, -, rfl, rfl⟩
  · exact ⟨later.sane.owned dir wd placed, later.given ▸ prefix_refl _⟩
  · exact ⟨by simp, later.given ▸ prefix_append _ _⟩

theorem confirming (rest : List (RawEvent ℕ)) : Confirming inotified (InPlace rest) where
  lawful _ :=
    { rm := fun _ _ wd h _ => h.rm wd
      openDir := fun _ _ path h => (openDir_snd path _).symm ▸ h.yield
      openChild := fun _ _ dir name h => (openChild_snd dir name _).symm ▸ h.yield
      refused := fun _ _ _ _ _ h refused => h.add_error refused
      added := fun _ _ _ _ _ h ok => (h.add_ok ok).weaken fun _ _ exempt => exempt.1 }
  weaken _ _ _ _ h all := h.weaken all
  confirm _ _ _ _ _ _ h ok := h.add_ok ok

end World

end JackalopeFs.WatchedTree
