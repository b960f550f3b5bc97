import JackalopeFs.TransitionRuns

/-! # Bounded queues that collapse losses into a marker

A producer that must not wait puts work on a bounded queue.  What does not fit is lost,
and remembered as one pending marker that is put before anything else the next time the
producer has work.  The record of what was put and lost is kept beside the queue, so that
a marker can be said to come after what it makes up for.  The marker is put only when new
work arrives, so a pending one may stay behind although the queue has emptied.
-/

namespace JackalopeFs.CollapsingQueues

open List

universe u

inductive Record (Work : Type u) where
  | put (work : Work)
  | lost (work : Work)

def Record.kept {Work : Type u} : Record Work → Option Work
  | .put work => some work
  | .lost _ => none

/-- The queue, whether a marker is pending, what the consumer took, and what became of all work. -/
structure Lane (Work : Type u) where
  queue : List Work
  pending : Bool
  taken : List Work
  log : List (Record Work)

namespace Lane

variable {Work : Type u} (capacity : ℕ) (marker : Work)

def new : Lane Work :=
  ⟨[], false, [], []⟩

def put (lane : Lane Work) (work : Work) : Lane Work :=
  { lane with queue := lane.queue ++ [work], log := lane.log ++ [.put work] }

def lose (lane : Lane Work) (work : List Work) : Lane Work :=
  { lane with log := lane.log ++ work.map .lost }

/-- Put work until the queue is full; the rest is lost. -/
def putAll (lane : Lane Work) : List Work → Lane Work
  | [] => lane
  | work :: rest =>
    if lane.queue.length < capacity then (lane.put work).putAll rest
    else { lane.lose (work :: rest) with pending := true }

/-- Put a pending marker, then the work; with no room for the marker the work is lost. -/
def offer (lane : Lane Work) (work : List Work) : Lane Work :=
  if lane.pending then
    if lane.queue.length < capacity then
      ({ lane.put marker with pending := false } : Lane Work).putAll capacity work
    else lane.lose work
  else lane.putAll capacity work

def take (lane : Lane Work) : Option (Work × Lane Work) :=
  match lane.queue with
  | [] => none
  | work :: rest => some (work, { lane with queue := rest, taken := lane.taken ++ [work] })

/-- Every loss is made up for by a marker put after it, or one is pending. -/
def Covered (lane : Lane Work) : Prop :=
  ∀ front work back, lane.log = front ++ .lost work :: back →
    .put marker ∈ back ∨ lane.pending = true

/-- The queue is bounded, what was put is what was taken and what waits, and losses are covered. -/
structure Sound (lane : Lane Work) : Prop where
  bounded : lane.queue.length ≤ capacity
  order : lane.log.filterMap Record.kept = lane.taken ++ lane.queue
  covered : lane.Covered marker

variable {capacity marker} {lane : Lane Work}

theorem Sound.new : Sound capacity marker (.new : Lane Work) where
  bounded := Nat.zero_le _
  order := rfl
  covered := fun front work back eq => by simp [Lane.new] at eq

/-- A record that ends in a put has no loss in the last place. -/
theorem split_put {log front back : List (Record Work)} {last lost : Work}
    (eq : log ++ [.put last] = front ++ .lost lost :: back) :
    ∃ rest, back = rest ++ [.put last] ∧ log = front ++ .lost lost :: rest := by
  rcases eq_nil_or_concat back with rfl | ⟨rest, x, rfl⟩
  · have := (append_inj' eq rfl).2
    simp at this
  · have eq' : log ++ [.put last] = (front ++ .lost lost :: rest) ++ [x] := by simpa using eq
    obtain ⟨same, isLast⟩ := append_inj' eq' rfl
    cases isLast
    exact ⟨rest, concat_eq_append, same⟩

theorem Sound.put (h : Sound capacity marker lane) (work : Work)
    (room : lane.queue.length < capacity) : Sound capacity marker (lane.put work) := by
  refine ⟨?_, ?_, fun front lost back eq => ?_⟩
  · simp only [Lane.put, length_append, length_singleton]
    omega
  · simp [Lane.put, Record.kept, filterMap_append, h.order]
  · obtain ⟨rest, rfl, split⟩ := split_put eq
    exact (h.covered front lost rest split).imp_left (mem_append_left _)

/-- Once the marker is put, none is pending. -/
theorem Sound.mark (h : Sound capacity marker lane) (room : lane.queue.length < capacity) :
    Sound capacity marker { lane.put marker with pending := false } := by
  have marked := h.put marker room
  refine ⟨marked.bounded, marked.order, fun front lost back eq => .inl ?_⟩
  obtain ⟨rest, rfl, _⟩ := split_put eq
  exact mem_append_right _ (mem_singleton_self _)

theorem Sound.lose (h : Sound capacity marker lane) (work : List Work) :
    Sound capacity marker { lane.lose work with pending := true } := by
  refine ⟨h.bounded, ?_, fun _ _ _ _ => .inr rfl⟩
  have none : (work.map Record.lost).filterMap Record.kept = [] := by
    simp [filterMap_map, Function.comp_def, Record.kept]
  simp [Lane.lose, filterMap_append, none, h.order]

theorem Sound.putAll (h : Sound capacity marker lane) (work : List Work) :
    Sound capacity marker (lane.putAll capacity work) := by
  induction work generalizing lane with
  | nil => exact h
  | cons first _ ih =>
    unfold Lane.putAll
    split_ifs with room
    · exact ih (h.put first room)
    · exact h.lose _

theorem Sound.offer (h : Sound capacity marker lane) (work : List Work) :
    Sound capacity marker (lane.offer capacity marker work) := by
  unfold Lane.offer
  split_ifs with pending room
  · exact (h.mark room).putAll work
  · have lost := h.lose work
    rw [← show (lane.lose work).pending = true from pending] at lost
    exact lost
  · exact h.putAll work

theorem Sound.take (h : Sound capacity marker lane) {work : Work} {lane' : Lane Work}
    (took : lane.take = some (work, lane')) : Sound capacity marker lane' := by
  unfold Lane.take at took
  split at took
  · cases took
  · rename_i rest queue
    cases took
    refine ⟨?_, ?_, h.covered⟩
    · have := h.bounded
      rw [queue, length_cons] at this
      exact Nat.le_of_succ_le this
    · rw [h.order, queue, append_assoc]
      rfl

theorem pending_take {work : Work} {lane' : Lane Work} (took : lane.take = some (work, lane')) :
    lane'.pending = lane.pending := by
  unfold Lane.take at took
  split at took
  · cases took
  · cases took
    rfl

theorem queue_putAll (lane : Lane Work) (work : List Work) :
    ∃ more, (lane.putAll capacity work).queue = lane.queue ++ more := by
  induction work generalizing lane with
  | nil => exact ⟨[], (append_nil _).symm⟩
  | cons first _ ih =>
    unfold Lane.putAll
    split_ifs with room
    · obtain ⟨more, queue⟩ := ih (lane.put first)
      exact ⟨first :: more, queue.trans (by simp [Lane.put])⟩
    · exact ⟨[], (append_nil _).symm⟩

/-- With room, a pending marker comes right behind what is queued. -/
theorem queue_offer (pending : lane.pending = true) (room : lane.queue.length < capacity)
    (work : List Work) :
    ∃ more, (lane.offer capacity marker work).queue = lane.queue ++ marker :: more := by
  obtain ⟨more, queue⟩ := @queue_putAll _ capacity { lane.put marker with pending := false } work
  rw [Lane.offer, if_pos pending, if_pos room]
  exact ⟨more, queue.trans (by simp [Lane.put])⟩

variable {work : List Work}

theorem full_of_pending_putAll (clear : lane.pending = false)
    (pending : (lane.putAll capacity work).pending = true) :
    capacity ≤ (lane.putAll capacity work).queue.length := by
  induction work generalizing lane with
  | nil =>
    rw [show (lane.putAll capacity []).pending = lane.pending from rfl, clear] at pending
    cases pending
  | cons _ _ ih =>
    unfold Lane.putAll at pending ⊢
    split_ifs at pending ⊢ with room
    · exact ih clear pending
    · exact Nat.le_of_not_lt room

/-- More work than fits fills the queue and leaves a marker pending. -/
theorem putAll_overfull (bounded : lane.queue.length ≤ capacity)
    (more : capacity < lane.queue.length + work.length) :
    (lane.putAll capacity work).pending = true ∧
      (lane.putAll capacity work).queue.length = capacity := by
  induction work generalizing lane with
  | nil =>
    rw [length_nil] at more
    omega
  | cons _ _ ih =>
    rw [length_cons] at more
    unfold Lane.putAll
    split_ifs with room
    · refine ih ?_ ?_
      · simp only [Lane.put, length_append, length_singleton]
        omega
      · simp only [Lane.put, length_append, length_singleton]
        omega
    · exact ⟨rfl, le_antisymm bounded (Nat.le_of_not_lt room)⟩

/-- A marker is left pending only by a queue that is full. -/
theorem full_of_pending (pending : (lane.offer capacity marker work).pending = true) :
    capacity ≤ (lane.offer capacity marker work).queue.length := by
  unfold Lane.offer at pending ⊢
  split_ifs at pending ⊢ with was room
  · exact full_of_pending_putAll rfl pending
  · exact Nat.le_of_not_lt room
  · exact full_of_pending_putAll (by simpa using was) pending

end Lane

end JackalopeFs.CollapsingQueues
