import JackalopeFs.SharedHandles

/-! # Reports of a full share

A session that holds as many handles as its share is reported, and again at every doubling
of it, until it holds less than half its share; then it is reported afresh.  The table
remembers one number for that, the threshold of its last report.

A history lists what happened to one table, the newest first: how many handles it held
after each insertion and removal, and whether the insertion reported.  Insertions under an
id that is taken, and removals of one that is free, are not part of it.  The entries of a
table take memory, so that twice their number is a machine word; an insertion that would
go further is refused.
-/

namespace JackalopeFs.ShareReports

open KeyedTables Option SharedHandles TransitionRuns

universe u

/-- Something that changed how many handles a table holds. -/
inductive Happened where
  | inserted (held : ℕ) (report : Option ℕ)
  | removed (held : ℕ)
  deriving DecidableEq, Repr

namespace Happened

def held : Happened → ℕ
  | inserted held _ => held
  | removed held => held

def report : Happened → Option ℕ
  | inserted _ report => report
  | removed _ => none

end Happened

/-- The number last reported since the table was last under half its share, or nothing. -/
def lastReport (share : ℕ) : List Happened → ℕ
  | [] => 0
  | event :: earlier =>
    if 2 * event.held < share then 0
    else event.report.getD (lastReport share earlier)

theorem lastReport_inserted (share held : ℕ) (report : Option ℕ) (earlier : List Happened) :
    lastReport share (.inserted held report :: earlier) =
      if 2 * held < share then 0 else report.getD (lastReport share earlier) :=
  rfl

theorem lastReport_removed (share held : ℕ) (earlier : List Happened) :
    lastReport share (.removed held :: earlier) =
      if 2 * held < share then 0 else lastReport share earlier :=
  rfl

section Machine

variable {File : Type u}

structure Table (File : Type u) where
  handles : Handles File
  history : List Happened

inductive Action (File : Type u) where
  | insert (fh : ℕ) (handle : Handle File)
  | remove (fh : ℕ) (pool : HandlePool)

/-- An insertion with a slot of its own, or a removal that gives a slot back to the pool. -/
def step (s : Table File) : Action File → Option (Table File)
  | .insert fh handle =>
    if s.handles.len + 1 < 2 ^ 63 then
      (Slot.insert ⟨0, fh, true⟩ s.handles handle).map fun r =>
        match r.2.2 with
        | .ok report => ⟨r.2.1, .inserted r.2.1.len report :: s.history⟩
        | .error _ => ⟨r.2.1, s.history⟩
    else none
  | .remove fh pool =>
    (s.handles.remove fh pool).map fun r =>
      match r.2.2 with
      | some _ => ⟨r.1, .removed r.1.len :: s.history⟩
      | none => ⟨r.1, s.history⟩

def machine (File : Type u) (share : ℕ) : Machine (Table File) (Action File) :=
  ⟨⟨Handles.new share, []⟩, step⟩

end Machine

section Thresholds

/-- The loop ends at the largest doubling of its threshold up to the value. -/
theorem doublingLoop_spec {rounds threshold value last : ℕ}
    (ends : doublingLoop rounds threshold value = some last) (start : threshold ≤ value)
    (small : value < 2 ^ 64) : last ≤ value ∧ value < 2 * last ∧ ∃ k, last = threshold * 2 ^ k := by
  induction rounds generalizing threshold with
  | zero => cases ends
  | succ _ ih =>
    unfold doublingLoop checkedDouble at ends
    split_ifs at ends with fits
    · simp only at ends
      split_ifs at ends with more
      · obtain ⟨le, lt, k, rfl⟩ := ih ends more
        exact ⟨le, lt, k + 1, by ring⟩
      · cases ends
        exact ⟨start, by omega, 0, by ring⟩
    · cases ends
      exact ⟨start, by omega, 0, by ring⟩

/-- Nothing is due below the next threshold, and at or above it the largest one crossed is. -/
theorem doublingDue_spec {value first : ℕ} (reported : ℕ) (positive : 0 < first) (small : value < 2 ^ 64) :
    (value < max first (2 * reported) ∧ doublingDue value first reported = some (false, reported)) ∨
      (max first (2 * reported) ≤ value ∧ ∃ last k, doublingDue value first reported = some (true, last) ∧
        last ≤ value ∧ value < 2 * last ∧ last = first * 2 ^ k) := by
  obtain ⟨⟨due, last⟩, result⟩ := isSome_iff_exists.mp
    (@doublingDue_isSome value first reported positive)
  have result' := result
  unfold doublingDue checkedDouble at result'
  split_ifs at result' with fits
  · simp only at result'
    split_ifs at result' with below
    · cases result'
      exact .inl ⟨below, result⟩
    · obtain ⟨threshold, ends, same⟩ := map_eq_some_iff.mp result'
      cases same
      have above := Nat.not_lt.mp below
      obtain ⟨le, lt, k, doubled⟩ := doublingLoop_spec ends (le_trans (le_max_left _ _) above) small
      exact .inr ⟨above, last, k, result, le, lt, doubled⟩
  · cases result'
    exact .inl ⟨by omega, result⟩

end Thresholds

section Tables

variable {File : Type u} {handles left : Handles File} {share : ℕ}

@[simp] theorem countUp_kept (handle : Handle File) :
    (handles.countUp handle).share = handles.share ∧
      (handles.countUp handle).reported = handles.reported := by
  unfold Handles.countUp
  split_ifs <;> exact ⟨rfl, rfl⟩

@[simp] theorem countDown_kept (handle : Handle File) :
    (handles.countDown handle).share = handles.share ∧
      (handles.countDown handle).reported = handles.reported := by
  unfold Handles.countDown
  split_ifs <;> exact ⟨rfl, rfl⟩

variable {handle : Handle File}

/-- What an insertion that is not refused does to the number held and to the last report. -/
theorem insert_spec {fh : ℕ} {slot' : Slot} {report : Option ℕ} (positive : 0 < handles.share)
    (small : handles.len + 1 < 2 ^ 64)
    (inserted : Slot.insert ⟨0, fh, true⟩ handles handle = some (slot', left, .ok report)) :
    left.share = handles.share ∧ left.len = handles.len + 1 ∧
      ((handles.len + 1 < max handles.share (2 * handles.reported) ∧ report = none ∧
          left.reported = handles.reported) ∨
        (max handles.share (2 * handles.reported) ≤ handles.len + 1 ∧ report = some (handles.len + 1) ∧
          left.reported ≤ handles.len + 1 ∧ handles.len + 1 < 2 * left.reported ∧
          ∃ k, left.reported = handles.share * 2 ^ k)) := by
  unfold Slot.insert at inserted
  split at inserted
  · cases inserted
  · rename_i free
    obtain ⟨due, crossed, result⟩ := map_eq_some_iff.mp inserted
    have longer : ∀ filled : Handles File, filled.map = handles.map.insert fh handle →
        filled.len = handles.len + 1 := by
      intro filled into
      unfold Handles.len
      rw [into]
      exact length_insert_new free
    have first : max handles.share 1 = handles.share := by omega
    simp only [countUp_kept, first, longer] at crossed result
    obtain ⟨below, quiet⟩ | ⟨above, last, k, loud, le, lt, doubled⟩ :=
      doublingDue_spec handles.reported positive small
    · rw [crossed] at quiet
      cases quiet
      cases result
      exact ⟨rfl, longer _ rfl, .inl ⟨below, rfl, rfl⟩⟩
    · rw [crossed] at loud
      cases loud
      cases result
      exact ⟨rfl, longer _ rfl, .inr ⟨above, rfl, le, lt, k, doubled⟩⟩

theorem insert_refused {slot slot' : Slot} {error : ErrorReserve}
    (refused : slot.insert handles handle = some (slot', left, .error error)) : left = handles := by
  unfold Slot.insert at refused
  split at refused
  · cases refused
    rfl
  · obtain ⟨due, -, result⟩ := map_eq_some_iff.mp refused
    split_ifs at result <;> cases result

/-- What a removal of a handle that is there does to the number held and to the last report. -/
theorem remove_spec {fh : ℕ} {pool pool' : HandlePool}
    (removed : handles.remove fh pool = some (left, pool', some handle)) :
    left.share = handles.share ∧ left.len + 1 = handles.len ∧
      left.reported = if 2 * left.len < handles.share then 0 else handles.reported := by
  unfold Handles.remove at removed
  split at removed
  · cases removed
  · rename_i found held
    obtain ⟨given, -, result⟩ := map_eq_some_iff.mp removed
    have shorter : ∀ rest : Handles File, rest.map = handles.map.erase fh →
        rest.len + 1 = handles.len := by
      intro rest out
      unfold Handles.len
      rw [out]
      exact length_erase_held held
    have erased : ∀ rest : Handles File, rest.map = handles.map.erase fh →
        rest.len = handles.len - 1 := fun rest out => by rw [← shorter rest out]; rfl
    simp only [countDown_kept, Prod.mk.injEq, erased] at result
    obtain ⟨rfl, -, -⟩ := result
    by_cases under : 2 * (handles.len - 1) < handles.share
    · rw [if_pos under]
      exact ⟨rfl, shorter _ rfl, by rw [erased _ rfl, if_pos under]⟩
    · rw [if_neg under]
      exact ⟨rfl, shorter _ rfl, by rw [erased _ rfl, if_neg under]⟩

end Tables

section Histories

variable {share : ℕ}

/-- The number held reaches a threshold above the one last reported. -/
def Due (share : ℕ) (earlier : List Happened) (held : ℕ) : Prop :=
  ∃ k, share * 2 ^ k ≤ held ∧ lastReport share earlier < share * 2 ^ k

/-- Every insertion reported exactly if that was due, at the threshold itself. -/
def Exactly (share : ℕ) : List Happened → Prop
  | [] => True
  | .inserted held report :: earlier =>
    ((report = some held ∧ Due share earlier held ∧ ∃ k, held = share * 2 ^ k) ∨
      (report = none ∧ ¬Due share earlier held)) ∧ Exactly share earlier
  | .removed _ :: earlier => Exactly share earlier

theorem Exactly.suffix (later : List Happened) {earlier : List Happened}
    (h : Exactly share (later ++ earlier)) :
    Exactly share earlier := by
  induction later with
  | nil => exact h
  | cons event _ ih =>
    cases event with
    | inserted => exact ih h.2
    | removed => exact ih h

theorem doubling_unique {a b : ℕ} (le : share * 2 ^ a ≤ share * 2 ^ b)
    (lt : share * 2 ^ b < 2 * (share * 2 ^ a)) : share * 2 ^ a = share * 2 ^ b := by
  have positive : 0 < share := by
    rcases Nat.eq_zero_or_pos share with rfl | positive
    · simp at lt
    · exact positive
  have up : 2 ^ b < 2 ^ (a + 1) := by
    refine Nat.lt_of_mul_lt_mul_left (a := share) ?_
    calc share * 2 ^ b < 2 * (share * 2 ^ a) := lt
      _ = share * 2 ^ (a + 1) := by ring
  have down := Nat.le_of_mul_le_mul_left le positive
  have first := (Nat.pow_le_pow_iff_right (by decide)).mp down
  have second := (Nat.pow_lt_pow_iff_right (by decide)).mp up
  have : a = b := by omega
  rw [this]

/-- A doubling of a share that is above another one is at least twice that. -/
theorem doubling_step {a b : ℕ} (lt : share * 2 ^ a < share * 2 ^ b) :
    2 * (share * 2 ^ a) ≤ share * 2 ^ b := by
  have first := (Nat.pow_lt_pow_iff_right (by decide)).mp (Nat.lt_of_mul_lt_mul_left lt)
  calc 2 * (share * 2 ^ a) = share * 2 ^ (a + 1) := by ring
    _ ≤ share * 2 ^ b := Nat.mul_le_mul_left _ (Nat.pow_le_pow_right (by decide) first)

/-- As long as the table is never under half its share, the last report does not go down. -/
theorem le_lastReport {between earlier : List Happened} {first : Happened}
    (h : Exactly share (between ++ first :: earlier)) (reports : first.report = some first.held)
    (enough : ¬2 * first.held < share) (over' : ∀ event ∈ between, ¬2 * event.held < share) :
    first.held ≤ lastReport share (between ++ first :: earlier) := by
  induction between with
  | nil =>
    rw [List.nil_append, lastReport, if_neg enough, reports]
    exact le_rfl
  | cons event between ih =>
    have rest : Exactly share (between ++ first :: earlier) := Exactly.suffix [event] h
    have before := ih rest fun e mem => over' e (List.mem_cons_of_mem _ mem)
    rw [List.cons_append, lastReport, if_neg (over' event List.mem_cons_self)]
    cases event with
    | removed => exact before
    | inserted =>
      obtain ⟨⟨rfl, ⟨k, reached, above⟩, -⟩ | ⟨rfl, -⟩, -⟩ := h
      · exact le_trans before (above.le.trans reached)
      · exact before

/-- What reports is an insertion, of a threshold above the last one reported. -/
theorem Exactly.reported {event : Happened} {earlier : List Happened} {held : ℕ}
    (h : Exactly share (event :: earlier)) (reports : event.report = some held) :
    event.report = some event.held ∧ ∃ k, event.held = share * 2 ^ k ∧
      lastReport share earlier < event.held := by
  cases event with
  | removed => cases reports
  | inserted =>
    obtain ⟨⟨rfl, ⟨k, reached, above⟩, m, exactly⟩ | ⟨rfl, -⟩, -⟩ := h
    · exact ⟨rfl, m, exactly, lt_of_lt_of_le above reached⟩
    · cases reports

theorem le_of_doubling (share k : ℕ) : share ≤ share * 2 ^ k :=
  Nat.le_mul_of_pos_right _ (Nat.two_pow_pos k)

/-- Between two reports the number held doubled, or the table was under half its share. -/
theorem Exactly.doubled {second first : Happened} {between earlier : List Happened} {m n : ℕ}
    (h : Exactly share (second :: (between ++ first :: earlier)))
    (reports : first.report = some m) (again : second.report = some n) :
    2 * first.held ≤ second.held ∨ ∃ event ∈ between, 2 * event.held < share := by
  by_cases under : ∃ event ∈ between, 2 * event.held < share
  · exact .inr under
  · have rest : Exactly share (between ++ first :: earlier) := Exactly.suffix [second] h
    obtain ⟨own, j, at_, -⟩ := Exactly.reported (Exactly.suffix between rest) reports
    obtain ⟨-, k, atSecond, above⟩ := Exactly.reported h again
    have enough : ¬2 * first.held < share := by
      have := le_of_doubling share j
      omega
    have last := le_lastReport rest own enough fun event mem under' => under ⟨event, mem, under'⟩
    refine .inl ?_
    rw [at_, atSecond]
    refine doubling_step ?_
    rw [← at_, ← atSecond]
    omega

theorem exists_two {α : Type*} {p : α → Bool} {list : List α} (two : 1 < list.countP p) :
    ∃ front second between first back, list = front ++ second :: (between ++ first :: back) ∧
      p second = true ∧ p first = true := by
  induction list with
  | nil => simp at two
  | cons a list ih =>
    by_cases here : p a = true
    · rw [List.countP_cons_of_pos here] at two
      obtain ⟨b, mem, there⟩ := List.countP_pos_iff.mp (by omega : 0 < list.countP p)
      obtain ⟨between, back, rfl⟩ := List.append_of_mem mem
      exact ⟨[], a, between, b, back, rfl, here, there⟩
    · rw [List.countP_cons_of_neg here] at two
      obtain ⟨front, second, between, first, back, rfl, rest⟩ := ih two
      exact ⟨a :: front, second, between, first, back, rfl, rest⟩

theorem Exactly.hovers {later stretch earlier : List Happened}
    (h : Exactly share (later ++ (stretch ++ earlier)))
    (about : ∀ event ∈ stretch, share ≤ 2 * event.held ∧ event.held < 2 * share) :
    stretch.countP (fun event => event.report.isSome) ≤ 1 := by
  by_contra more
  obtain ⟨front, second, between, first, back, rfl, again, reports⟩ := exists_two (Nat.not_le.mp more)
  obtain ⟨m, reports⟩ := isSome_iff_exists.mp reports
  obtain ⟨n, again⟩ := isSome_iff_exists.mp again
  have stretch : Exactly share (second :: (between ++ first :: (back ++ earlier))) := by
    refine Exactly.suffix (later ++ front) ?_
    simpa using h
  have own : Exactly share (first :: (back ++ earlier)) :=
    Exactly.suffix (second :: between) (by simpa using stretch)
  obtain ⟨-, j, at_, -⟩ := own.reported reports
  have := le_of_doubling share j
  obtain doubled | ⟨event, mem, under⟩ := stretch.doubled reports again
  · have := about second (by simp)
    omega
  · have := about event (by simp [mem])
    omega

end Histories

section Runs

variable {File : Type u} {share : ℕ} {s t : Table File}

/-- The number a table remembers is its last report, and the next threshold is still ahead. -/
structure Faithful (share : ℕ) (s : Table File) : Prop where
  own : s.handles.share = share
  last : s.handles.reported = lastReport share s.history
  threshold : s.handles.reported = 0 ∨ ∃ k, s.handles.reported = share * 2 ^ k
  below : s.handles.len < max share (2 * s.handles.reported)
  under : 2 * s.handles.len < share → s.handles.reported = 0
  exactly : Exactly share s.history

theorem Faithful.due_iff (h : Faithful share s) {held : ℕ} :
    Due share s.history held ↔ max share (2 * s.handles.reported) ≤ held := by
  unfold Due
  rw [← h.last]
  constructor
  · rintro ⟨k, reached, above⟩
    refine max_le (le_trans (le_of_doubling share k) reached) ?_
    obtain none_ | ⟨j, at_⟩ := h.threshold
    · omega
    · rw [at_] at above ⊢
      exact le_trans (doubling_step above) reached
  · intro reached
    obtain none_ | ⟨j, at_⟩ := h.threshold
    · refine ⟨0, ?_, ?_⟩
      · omega
      · have := h.below
        omega
    · refine ⟨j + 1, ?_, ?_⟩
      · have : share * 2 ^ (j + 1) = 2 * (share * 2 ^ j) := by ring
        omega
      · have : share * 2 ^ (j + 1) = 2 * (share * 2 ^ j) := by ring
        have := h.below
        have := le_of_doubling share j
        omega

theorem Faithful.inserted (h : Faithful share s) (positive : 0 < share) {left : Handles File}
    {report : Option ℕ} {slot' : Slot} {fh : ℕ} {handle : Handle File}
    (small : s.handles.len + 1 < 2 ^ 64)
    (inserted : Slot.insert ⟨0, fh, true⟩ s.handles handle = some (slot', left, .ok report)) :
    Faithful share ⟨left, .inserted left.len report :: s.history⟩ := by
  have spec := insert_spec (by rw [h.own]; exact positive) small inserted
  rw [h.own] at spec
  obtain ⟨same, length, ⟨below, rfl, kept⟩ | ⟨above, rfl, le, lt, k, at_⟩⟩ := spec
  · have under : 2 * left.len < share → left.reported = 0 := fun under => by
      rw [kept]
      exact h.under (by omega)
    refine ⟨same, ?_, ?_, ?_, under, .inr ⟨rfl, ?_⟩, h.exactly⟩
    · simp only [lastReport_inserted, getD_none]
      split_ifs with half
      · exact under half
      · rw [← h.last, kept]
    · rw [kept]
      exact h.threshold
    · rw [kept, length]
      exact below
    · rw [h.due_iff, length]
      omega
  -- The number held went up by one, so what it reached is the next threshold itself.
  · have next : s.handles.len + 1 = max share (2 * s.handles.reported) := by
      have := h.below
      omega
    obtain ⟨m, doubling⟩ : ∃ m, s.handles.len + 1 = share * 2 ^ m := by
      obtain none_ | ⟨j, last⟩ := h.threshold
      · exact ⟨0, by omega⟩
      · have := le_of_doubling share j
        have : share * 2 ^ (j + 1) = 2 * (share * 2 ^ j) := by ring
        exact ⟨j + 1, by omega⟩
    have crossed : left.reported = left.len := by
      rw [length, doubling, at_]
      rw [doubling, at_] at le lt
      exact doubling_unique le lt
    have half : ¬2 * left.len < share := by
      rw [length]
      omega
    refine ⟨same, ?_, .inr ⟨k, at_⟩, ?_, fun under => absurd under half,
      .inl ⟨by rw [length], ?_, m, by rw [length, doubling]⟩, h.exactly⟩
    · simp only [lastReport_inserted, getD_some, if_neg half]
      rw [crossed, length]
    · simp only
      omega
    · rw [h.due_iff, length]
      exact above

theorem Faithful.removed (h : Faithful share s) {left : Handles File} {pool pool' : HandlePool}
    {fh : ℕ} {handle : Handle File}
    (removed : s.handles.remove fh pool = some (left, pool', some handle)) :
    Faithful share ⟨left, .removed left.len :: s.history⟩ := by
  obtain ⟨same, length, kept⟩ := remove_spec removed
  rw [h.own] at same kept
  have below := h.below
  refine ⟨same, ?_, ?_, ?_, fun under => by rw [kept, if_pos under], h.exactly⟩
  · simp only [lastReport_removed, kept, h.last]
  · rw [kept]
    split_ifs
    · exact .inl rfl
    · exact h.threshold
  · simp only [kept]
    split_ifs <;> omega

theorem faithful_of_reachable (positive : 0 < share) (reached : (machine File share).Reachable s) :
    Faithful share s := by
  refine Machine.Reachable.invariant (P := Faithful share) ?_ (fun s action t h moves => ?_) reached
  · exact ⟨rfl, rfl, .inl rfl, by simpa [Handles.len, Handles.new, machine] using positive,
      fun _ => rfl, trivial⟩
  · cases action with
    | insert =>
      simp only [machine, step] at moves
      split_ifs at moves with small
      obtain ⟨⟨slot', left, result⟩, inserted, rfl⟩ := map_eq_some_iff.mp moves
      cases result with
      | ok => exact h.inserted positive (Nat.lt_trans small (by decide)) inserted
      | error =>
        cases insert_refused inserted
        exact h
    | remove =>
      obtain ⟨⟨left, pool', result⟩, removed, rfl⟩ := map_eq_some_iff.mp moves
      cases result with
      | some => exact h.removed removed
      | none =>
        obtain ⟨rfl, -⟩ | ⟨handle, -, other, -⟩ := remove_cases removed
        · exact h
        · cases other

end Runs

/-- Along every run of insertions and removals on one table, an insertion reports exactly if the number
held reaches a threshold above the last one reported since the table was last under half its share,
and then it has just reached that threshold; between two reports the number held doubled or the table
was under half its share; and a stretch about the share has at most one report.  The search for a
threshold ends, within 64 bits, from any first threshold that is not zero. -/
theorem share_reports_exact :
    (∀ (File : Type u) (share : ℕ), 1 ≤ share → ∀ s, (machine File share).Reachable s →
      (∀ later held report earlier, s.history = later ++ .inserted held report :: earlier →
        (report = some held ∧ Due share earlier held ∧ ∃ k, held = share * 2 ^ k) ∨
          (report = none ∧ ¬Due share earlier held)) ∧
      (∀ later second between first earlier m n,
        s.history = later ++ second :: (between ++ first :: earlier) →
          first.report = some m → second.report = some n →
            2 * first.held ≤ second.held ∨ ∃ event ∈ between, 2 * event.held < share) ∧
      ∀ later stretch earlier, s.history = later ++ (stretch ++ earlier) →
        (∀ event ∈ stretch, share ≤ 2 * event.held ∧ event.held < 2 * share) →
          stretch.countP (fun event => event.report.isSome) ≤ 1) ∧
    ∀ value first reported : ℕ, value < 2 ^ 64 → first < 2 ^ 64 → reported < 2 ^ 64 → 1 ≤ first →
      ∃ due last, doublingDue value first reported = some (due, last) ∧ last < 2 ^ 64 := by
  refine ⟨fun File share positive s reached => ?_, fun value first reported small _ last positive => ?_⟩
  · have exactly := (faithful_of_reachable positive reached).exactly
    refine ⟨fun later held report earlier split => ?_, fun later second between first earlier m n split =>
      ?_, fun later stretch earlier split => ?_⟩
    · rw [split] at exactly
      exact (Exactly.suffix later exactly).1
    · rw [split] at exactly
      exact (Exactly.suffix later exactly).doubled
    · rw [split] at exactly
      exact exactly.hovers
  · obtain ⟨-, quiet⟩ | ⟨-, crossed, -, loud, le, -, -⟩ :=
      doublingDue_spec reported positive small
    · exact ⟨false, reported, quiet, last⟩
    · exact ⟨true, crossed, loud, lt_of_le_of_lt le small⟩

/-- A table with a share of one reports its first handle. -/
theorem share_reports_exact_first :
    ∃ s, (machine Unit 1).Reachable s ∧ s.history = [.inserted 1 (some 1)] ∧ Due 1 [] 1 := by
  obtain ⟨s, -, reached, history⟩ := Machine.exists_of_run
    (by decide +kernel : ((machine Unit 1).run [.insert 0 (.file ())]).any
      (fun s => decide (s.history = [.inserted 1 (some 1)])) = true)
  have history : s.history = [.inserted 1 (some 1)] := by simpa using history
  have spec := (share_reports_exact.1 Unit 1 le_rfl s reached).1 [] 1 (some 1) [] history
  obtain ⟨-, due, -⟩ | ⟨quiet, -⟩ := spec
  · exact ⟨s, reached, history, due⟩
  · cases quiet

/-- With a first threshold of zero the search for a threshold doubles zero for ever. -/
theorem zero_threshold_never_ends :
    (∀ rounds, doublingLoop rounds 0 0 = none) ∧ doublingDue 0 0 0 = none := by
  have never : ∀ rounds, doublingLoop rounds 0 0 = none := by
    intro rounds
    induction rounds with
    | zero => rfl
    | succ rounds ih => exact ih
  exact ⟨never, by simp [doublingDue, checkedDouble, never]⟩

end JackalopeFs.ShareReports
