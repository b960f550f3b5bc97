import JackalopeFs.ChangeAttribution
import Mathlib.Data.List.ProdSigma

/-! # Which records the change log forgets

The log is kept small by forgetting the path at the front of its queue.  A record taken by
its event leaves its path in the queue, so a path recorded again has two places there, and
the older one coming up is enough for the newer record to be lost.  A path that had no
place left in the queue when it was recorded is forgotten only by as many further records
of new paths as the log holds.
-/

namespace JackalopeFs.ChangeLogOrder

open ChangeAttribution KeyedTables List PathNames TransitionRuns

inductive Call where
  | record (path : Path) (session now : ℕ)
  | takeOrigin (path : Path) (now : ℕ)
  deriving DecidableEq, Repr

def call (log : ChangeLog) : Call → ChangeLog
  | .record path session now => log.record path session now
  | .takeOrigin path now => (log.takeOrigin path now).1

def calls (log : ChangeLog) (made : List Call) : ChangeLog :=
  made.foldl call log

/-- Whether a call records a path that has no record. -/
def fresh (log : ChangeLog) : Call → Bool
  | .record path _ _ => (log.byPath.lookup path).isNone
  | .takeOrigin _ _ => false

/-- How many of these calls record a path that had no record. -/
def freshRecords (log : ChangeLog) : List Call → ℕ
  | [] => 0
  | made :: rest => (fresh log made).toNat + freshRecords (call log made) rest

inductive Effect (log : ChangeLog) : Call → ChangeLog → Prop where
  | renews {path : Path} {session now : ℕ} (had : (log.byPath.lookup path).isSome) :
      Effect log (.record path session now) ⟨log.byPath.insert path (session, now), log.order⟩
  | adds {path : Path} {session now : ℕ} (none : log.byPath.lookup path = none)
      (room : log.order.length < changeLogCapacity) :
      Effect log (.record path session now)
        ⟨log.byPath.insert path (session, now), log.order ++ [path]⟩
  | replaces {path oldest : Path} {rest : List Path} {session now : ℕ}
      (none : log.byPath.lookup path = none) (queue : log.order = oldest :: rest)
      (full : rest.length + 1 = changeLogCapacity) :
      Effect log (.record path session now)
        ⟨(log.byPath.insert path (session, now)).erase oldest, rest ++ [path]⟩
  | misses {path : Path} {now : ℕ} (none : log.byPath.lookup path = none) :
      Effect log (.takeOrigin path now) log
  | takes {path : Path} {now : ℕ} (had : (log.byPath.lookup path).isSome) :
      Effect log (.takeOrigin path now) ⟨log.byPath.erase path, log.order⟩

variable {log log' : ChangeLog} {made : Call} {path : Path}

theorem evict_of_room {byPath : AList fun _ : Path => ℕ × ℕ} {order : List Path}
    (room : order.length ≤ changeLogCapacity) : ChangeLog.evict byPath order = ⟨byPath, order⟩ := by
  cases order with
  | nil => rfl
  | cons =>
    rw [length_cons] at room
    exact if_neg (by omega)

theorem evict_of_full {byPath : AList fun _ : Path => ℕ × ℕ} {oldest : Path} {rest : List Path}
    (full : rest.length = changeLogCapacity) :
    ChangeLog.evict byPath (oldest :: rest) = ⟨byPath.erase oldest, rest⟩ := by
  rw [ChangeLog.evict, if_pos (by omega), evict_of_room full.le]

theorem effect (bounded : log.order.length ≤ changeLogCapacity) (made : Call) :
    Effect log made (call log made) := by
  cases made with
  | record path session now =>
    cases found : log.byPath.lookup path with
    | some =>
      have same : call log (.record path session now)
          = ⟨log.byPath.insert path (session, now), log.order⟩ := by
        simp only [call, ChangeLog.record, found]
      exact same ▸ .renews (by rw [found]; rfl)
    | none =>
      have evicts : call log (.record path session now)
          = ChangeLog.evict (log.byPath.insert path (session, now)) (log.order ++ [path]) := by
        simp only [call, ChangeLog.record, found]
      rw [evicts]
      rcases bounded.lt_or_eq with room | full
      · rw [evict_of_room (by rw [length_append]; exact room)]
        exact .adds found room
      · cases queue : log.order with
        | nil =>
          rw [queue] at full
          cases full
        | cons =>
          rw [queue] at full
          rw [cons_append, evict_of_full (by simpa using full)]
          exact .replaces found queue full
  | takeOrigin path now =>
    cases found : log.byPath.lookup path with
    | none =>
      have same : call log (.takeOrigin path now) = log := by
        simp only [call, ChangeLog.takeOrigin, found]
      exact same.symm ▸ .misses found
    | some =>
      have same : call log (.takeOrigin path now) = ⟨log.byPath.erase path, log.order⟩ := by
        simp only [call, ChangeLog.takeOrigin, found]
      exact same ▸ .takes (by rw [found]; rfl)

/-- Every recorded path has a place in the queue, which is not too long. -/
structure Kept (log : ChangeLog) : Prop where
  placed : ∀ path ∈ log.byPath, path ∈ log.order
  bounded : log.order.length ≤ changeLogCapacity

namespace Kept

theorem new : Kept .new :=
  ⟨fun path mem => absurd mem (AList.notMem_empty path), Nat.zero_le _⟩

theorem effect (h : Kept log) (moved : Effect log made log') : Kept log' := by
  cases moved with
  | renews had =>
    refine ⟨fun p mem => ?_, h.bounded⟩
    rcases AList.mem_insert log.byPath |>.mp mem with rfl | mem
    · exact h.placed p (AList.lookup_isSome.mp had)
    · exact h.placed p mem
  | adds _ room =>
    refine ⟨fun p mem => mem_append.mpr ?_, by rw [length_append]; exact room⟩
    rcases AList.mem_insert log.byPath |>.mp mem with rfl | mem
    · exact .inr (mem_singleton.mpr rfl)
    · exact .inl (h.placed p mem)
  | replaces _ queue full =>
    refine ⟨fun p mem => mem_append.mpr ?_, by simp [full]⟩
    obtain ⟨other, mem⟩ := AList.mem_erase.mp mem
    rcases AList.mem_insert log.byPath |>.mp mem with rfl | mem
    · exact .inr (mem_singleton.mpr rfl)
    · have listed := h.placed p mem
      rw [queue] at listed
      exact .inl ((mem_cons.mp listed).resolve_left other)
  | misses => exact h
  | takes => exact ⟨fun p mem => h.placed p (AList.mem_erase.mp mem).2, h.bounded⟩

theorem call (h : Kept log) (made : Call) : Kept (call log made) :=
  h.effect (ChangeLogOrder.effect h.bounded made)

theorem calls (h : Kept log) (made : List Call) : Kept (calls log made) := by
  induction made generalizing log with
  | nil => exact h
  | cons first _ ih => exact ih (h.call first)

theorem records_le (h : Kept log) : log.byPath.entries.length ≤ changeLogCapacity := by
  have subset : log.byPath.keys ⊆ log.order := fun p mem => h.placed p (AList.mem_keys.mpr mem)
  calc log.byPath.entries.length = log.byPath.keys.length := (length_map _).symm
    _ ≤ log.order.length := (log.byPath.keys_nodup.subperm subset).length_le
    _ ≤ changeLogCapacity := h.bounded

end Kept

/-- A record with this many new ones behind it is at its first place in the queue, or there have been
enough of them. -/
def Aged (log : ChangeLog) (path : Path) (newer : ℕ) : Prop :=
  (path ∈ log.byPath ∧ ∃ front back, log.order = front ++ path :: back ∧ path ∉ front ∧
    back.length = newer) ∨ changeLogCapacity ≤ newer

namespace Aged

variable {newer : ℕ}

theorem effect (h : Aged log path newer) (moved : Effect log made log')
    (untaken : ∀ now, made ≠ .takeOrigin path now) :
    Aged log' path (newer + (fresh log made).toNat) := by
  rcases h with ⟨mem, front, back, queue, first, behind⟩ | enough
  swap
  · exact .inr (by omega)
  cases moved with
  | @renews p session now had =>
    have old : fresh log (.record p session now) = false := by simpa [fresh] using had
    rw [old]
    exact .inl ⟨AList.mem_insert _ |>.mpr (.inr mem), front, back, queue, first, behind⟩
  | @adds p session now none _ =>
    have new : fresh log (.record p session now) = true := by simpa [fresh] using none
    rw [new]
    refine .inl ⟨AList.mem_insert _ |>.mpr (.inr mem), front, back ++ [p], ?_, first, ?_⟩
    · rw [queue, append_assoc, cons_append]
    · simpa using behind
  | @replaces p oldest rest session now none popped full =>
    have new : fresh log (.record p session now) = true := by simpa [fresh] using none
    rw [new]
    cases front with
    | nil =>
      -- the record itself is the one forgotten, with the whole queue behind it
      obtain ⟨rfl, rfl⟩ : path = oldest ∧ back = rest := by simpa [queue] using popped
      exact .inr (by simpa [behind] using full.ge)
    | cons head front =>
      obtain ⟨rfl, tail⟩ : head = oldest ∧ front ++ path :: back = rest := by
        simpa [queue] using popped
      obtain ⟨other, first⟩ := not_or.mp (mem_cons.not.mp first)
      refine .inl ⟨AList.mem_erase.mpr ⟨other, AList.mem_insert _ |>.mpr (.inr mem)⟩,
        front, back ++ [p], ?_, first, ?_⟩
      · rw [← tail, append_assoc, cons_append]
      · simpa using behind
  | misses => exact .inl ⟨mem, front, back, queue, first, behind⟩
  | @takes p now had =>
    have other : path ≠ p := fun same => untaken now (same ▸ rfl)
    exact .inl ⟨AList.mem_erase.mpr ⟨other, mem⟩, front, back, queue, first, behind⟩

theorem calls {made : List Call} (h : Aged log path newer) (kept : Kept log)
    (untaken : ∀ now, .takeOrigin path now ∉ made) :
    Aged (calls log made) path (newer + freshRecords log made) := by
  induction made generalizing log newer with
  | nil => exact h
  | cons first _ ih =>
    have one := h.effect (ChangeLogOrder.effect kept.bounded first)
      fun now same => untaken now (same ▸ mem_cons_self)
    have later := ih one (kept.call first) fun now mem => untaken now (mem_cons_of_mem _ mem)
    rwa [Nat.add_assoc] at later

/-- A path recorded when the queue had no place of it is at its first place. -/
theorem record (kept : Kept log) (unplaced : path ∉ log.order) (session now : ℕ) :
    Aged (log.record path session now) path 0 := by
  have none : log.byPath.lookup path = none :=
    AList.lookup_eq_none.mpr fun mem => unplaced (kept.placed path mem)
  have moved : Effect log (.record path session now) (log.record path session now) :=
    ChangeLogOrder.effect kept.bounded _
  generalize log.record path session now = after at moved
  cases moved with
  | renews had => simp [none] at had
  | adds => exact .inl ⟨AList.mem_insert _ |>.mpr (.inl rfl), log.order, [], rfl, unplaced, rfl⟩
  | replaces _ queue =>
    rw [queue] at unplaced
    obtain ⟨other, absent⟩ := not_or.mp (mem_cons.not.mp unplaced)
    exact .inl ⟨AList.mem_erase.mpr ⟨other, AList.mem_insert _ |>.mpr (.inl rfl)⟩, _, [], rfl,
      absent, rfl⟩

end Aged

theorem reachable_log {s : Server} (h : Server.machine.Reachable s) :
    ∃ made, s.log = calls .new made := by
  refine Machine.Reachable.invariant (P := fun s => ∃ made, s.log = calls .new made) ⟨[], rfl⟩ ?_ h
  rintro s action t ⟨made, same⟩ moved
  have after (next : Call) : call s.log next = calls .new (made ++ [next]) := by
    rw [same, calls, calls, foldl_append, foldl_cons, foldl_nil]
  cases action with
  | begin => cases moved; exact ⟨made, same⟩
  | record =>
    obtain ⟨task, -, moved⟩ := Option.bind_eq_some_iff.mp moved
    split at moved
    · cases moved
    cases moved
    exact ⟨_, after (.record _ _ _)⟩
  | call =>
    obtain ⟨task, -, moved⟩ := Option.bind_eq_some_iff.mp moved
    split_ifs at moved
    cases moved
    exact ⟨made, same⟩
  | fail =>
    obtain ⟨task, -, rfl⟩ := Option.map_eq_some_iff.mp moved
    exact ⟨made, same⟩
  | process => cases moved; exact ⟨made, same⟩
  | apply =>
    simp only [Server.machine, Server.step] at moved
    split at moved
    · cases moved
    cases moved
    unfold Server.originOf
    split
    · exact ⟨made, same⟩
    · exact ⟨_, after (.takeOrigin _ _)⟩
  | pass => cases moved; exact ⟨made, same⟩

/-- Whatever was called before, every recorded path has its place and there are never too many of
either, and a path recorded without a place left in the queue is forgotten untaken only once as many
new records as the log holds have followed. -/
theorem forgets_only_old (earlier later : List Call) (path : Path) (session now : ℕ) :
    let log := calls .new earlier
    (∀ p ∈ log.byPath, p ∈ log.order) ∧ log.order.length ≤ changeLogCapacity ∧
      log.byPath.entries.length ≤ changeLogCapacity ∧
      (path ∉ log.order → (∀ at', .takeOrigin path at' ∉ later) →
        path ∉ (calls (log.record path session now) later).byPath →
        changeLogCapacity ≤ freshRecords (log.record path session now) later) := by
  intro log
  have kept : Kept log := Kept.new.calls earlier
  refine ⟨kept.placed, kept.bounded, kept.records_le, fun unplaced untaken forgotten => ?_⟩
  have recorded : Kept (log.record path session now) := kept.call (.record path session now)
  rcases (Aged.record kept unplaced session now).calls recorded untaken with ⟨mem, -⟩ | enough
  · exact absurd mem forgotten
  · simpa using enough

theorem calls_nil (log : ChangeLog) : calls log [] = log :=
  rfl

theorem calls_cons (log : ChangeLog) (made : Call) (rest : List Call) :
    calls log (made :: rest) = calls (call log made) rest :=
  rfl

theorem calls_append (log : ChangeLog) (first second : List Call) :
    calls log (first ++ second) = calls (calls log first) second :=
  foldl_append

def recordAll (paths : List Path) : List Call :=
  paths.map fun path => .record path 2 0

theorem calls_recordAll {paths : List Path} (distinct : paths.Nodup)
    (new : ∀ p ∈ paths, p ∉ log.byPath)
    (room : log.order.length + paths.length ≤ changeLogCapacity) :
    (calls log (recordAll paths)).order = log.order ++ paths ∧
      ∀ p, p ∈ (calls log (recordAll paths)).byPath ↔ p ∈ log.byPath ∨ p ∈ paths := by
  induction paths generalizing log with
  | nil => exact ⟨(append_nil _).symm, fun p => by simp [recordAll, calls]⟩
  | cons first _ ih =>
    obtain ⟨other, distinct⟩ := nodup_cons.mp distinct
    have none : log.byPath.lookup first = none :=
      AList.lookup_eq_none.mpr (new first mem_cons_self)
    have added : call log (.record first 2 0)
        = ⟨log.byPath.insert first (2, 0), log.order ++ [first]⟩ := by
      simp only [call, ChangeLog.record, none]
      exact evict_of_room (by
        simp only [length_append, length_cons, length_nil] at room ⊢
        omega)
    obtain ⟨order, held⟩ := @ih (call log (.record first 2 0)) distinct
      (fun p mem held => by
        rw [added] at held
        rcases AList.mem_insert _ |>.mp held with rfl | held
        · exact other mem
        · exact new p (mem_cons_of_mem _ mem) held)
      (by
        rw [added]
        simp only [length_append, length_cons, length_nil] at room ⊢
        omega)
    refine ⟨?_, fun p => ?_⟩
    · rw [recordAll, map_cons, calls_cons, ← recordAll, order, added, ← append_cons]
    · refine (held p).trans ?_
      rw [added, AList.mem_insert, mem_cons]
      tauto

theorem oldest_notMem_record {oldest : Path} {rest : List Path} (none : path ∉ log.byPath)
    (queue : log.order = oldest :: rest) (full : rest.length + 1 = changeLogCapacity)
    (session now : ℕ) : oldest ∉ (log.record path session now).byPath := by
  have evicts : log.record path session now
      = ⟨(log.byPath.insert path (session, now)).erase oldest, rest ++ [path]⟩ := by
    simp only [ChangeLog.record, AList.lookup_eq_none.mpr none]
    rw [queue]
    exact evict_of_full (by simpa using full)
  rw [evicts]
  exact fun mem => (AList.mem_erase.mp mem).1 rfl

def nameP : Name :=
  ⟨[112], by decide⟩

def nameQ : Name :=
  ⟨[113], by decide⟩

/-- A path down some directories of the one name and then some of the other. -/
def deep (depths : Fin 63 × Fin 65) : Path :=
  ⟨List.replicate depths.1 nameP ++ List.replicate depths.2 nameQ, by
    have first := depths.1.isLt
    have second := depths.2.isLt
    simp only [byteLen, map_append, map_replicate, sum_append_nat,
      sum_replicate_nat, length_append, length_replicate, nameP, nameQ,
      length_singleton, pathMax]
    omega⟩

theorem deep_injective : Function.Injective deep := by
  intro m n same
  have names := congrArg Path.names same
  have first := congrArg (List.count nameP) names
  have second := congrArg (List.count nameQ) names
  have other : nameP ≠ nameQ := by decide
  simp only [deep, count_append, count_replicate, beq_iff_eq, other, other.symm,
    ↓reduceIte, Nat.add_zero, Nat.zero_add] at first second
  exact Prod.ext (Fin.ext first) (Fin.ext second)

def others : List Path :=
  (List.finRange 63 ×ˢ List.finRange 65).map deep

theorem others_nodup : others.Nodup :=
  ((nodup_finRange 63).product (nodup_finRange 65)).map deep_injective

theorem length_others : others.length + 1 = changeLogCapacity := by
  rw [others, length_map, length_product, length_finRange, length_finRange]
  rfl

def nameR : Name :=
  ⟨[114], by decide⟩

/-- A file apart from the others, given how deep it is. -/
def file (depth : Fin 2) : Path :=
  ⟨List.replicate (depth + 1) nameR, by decide +revert⟩

theorem file_notMem_others (depth : Fin 2) : file depth ∉ others := by
  intro mem
  obtain ⟨depths, -, same⟩ := mem_map.mp mem
  have count := congrArg (fun p : Path => p.names.count nameR) same
  have ca : nameP ≠ nameR := by decide
  have cb : nameQ ≠ nameR := by decide
  simp [deep, file, count_replicate, ca, cb] at count

/-- A file's record is taken by its event, the log fills with others, and the file is recorded again:
its old place is at the front, and the new record is gone with it. -/
theorem record_lost_at_once :
    ∃ earlier : List Call, file 0 ∉ (calls .new earlier).byPath ∧
      file 0 ∉ (calls ((calls .new earlier).record (file 0) 2 0) []).byPath ∧
      freshRecords ((calls .new earlier).record (file 0) 2 0) [] < changeLogCapacity := by
  let taken := calls .new [.record (file 0) 2 0, .takeOrigin (file 0) 0]
  have queue : taken.order = [file 0] := by decide
  have empty : ∀ p, p ∉ taken.byPath := AList.notMem_empty
  obtain ⟨order, held⟩ := calls_recordAll others_nodup (fun p _ => empty p)
    (by rw [queue, List.length_singleton, Nat.add_comm, length_others])
  have absent : file 0 ∉ (calls taken (recordAll others)).byPath := by
    rw [held]
    exact not_or.mpr ⟨empty _, file_notMem_others 0⟩
  rw [queue, List.singleton_append] at order
  refine ⟨[.record (file 0) 2 0, .takeOrigin (file 0) 0] ++ recordAll others, ?_, ?_, by decide⟩
  · rw [calls_append]
    exact absent
  · rw [calls_append, calls_nil]
    exact oldest_notMem_record absent order length_others 2 0

/-- A file recorded in an empty log is forgotten by the record after those the log has room for. -/
theorem forgets_only_old_file :
    let later := recordAll others ++ [.record (file 1) 2 0]
    file 0 ∉ (calls (ChangeLog.new.record (file 0) 1 0) later).byPath ∧
      changeLogCapacity ≤ freshRecords (ChangeLog.new.record (file 0) 1 0) later := by
  intro later
  let log := ChangeLog.new.record (file 0) 1 0
  have queue : log.order = [file 0] := by decide
  have only : ∀ p, p ∈ log.byPath → p = file 0 := fun p mem => List.mem_singleton.mp mem
  obtain ⟨order, held⟩ := calls_recordAll others_nodup
    (fun p mem held => file_notMem_others 0 (only p held ▸ mem))
    (by rw [queue, List.length_singleton, Nat.add_comm, length_others])
  have absent : file 1 ∉ (calls log (recordAll others)).byPath := by
    rw [held]
    exact not_or.mpr ⟨fun mem => absurd (only _ mem) (by decide), file_notMem_others 1⟩
  rw [queue, List.singleton_append] at order
  have forgotten : file 0 ∉ (calls log later).byPath := by
    rw [calls_append, calls_cons, calls_nil, call]
    exact oldest_notMem_record absent order length_others 2 0
  obtain ⟨-, -, -, old⟩ := forgets_only_old [] later (file 0) 1 0
  refine ⟨forgotten, old List.not_mem_nil (fun at' mem => ?_) forgotten⟩
  simp [later, recordAll] at mem

end JackalopeFs.ChangeLogOrder
