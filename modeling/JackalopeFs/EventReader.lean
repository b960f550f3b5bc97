import JackalopeFs.CollapsingQueues
import JackalopeFs.EventWindow

/-! # Reading the event stream

The client reads event frames into a bounded queue and drops batches when the consumer
falls behind; an overflow is to make up for them.  The overflow is put when the next frame
with changes is read, not when the consumer makes room, so it stays behind if the server
falls silent or the connection ends.  It is made up for in every run in which the consumer
takes events beside a pending overflow only while such a frame is waiting.
-/

namespace JackalopeFs.EventReader

open CollapsingQueues EventWindow PathNames TransitionRuns

def eventQueue : ℕ := 256

def overflowEvent : Event :=
  ⟨[.overflow], none⟩

/-- Whether a frame is more than a notice about handles. -/
def carries (event : Event) : Bool :=
  event.handles.isNone || event.items ≠ []

/-- One round of `read_events`: a notice goes to the report, the changes to the queue. -/
def readEvent (lane : Lane Event) (event : Event) : Lane Event :=
  if carries event then lane.offer eventQueue overflowEvent [{ event with handles := none }]
  else lane

/-- The frames that arrived and are not read yet, and the queue to the consumer. -/
structure Reader where
  waiting : List Event
  lane : Lane Event

inductive Action where
  | arrive (event : Event)
  | readFrame
  /-- The consumer takes an event. -/
  | receive
  /-- The connection is lost and the next one's stream is read, by a new task. -/
  | reconnect
  deriving DecidableEq, Repr

namespace Reader

def step (s : Reader) : Action → Option Reader
  | .arrive event => some { s with waiting := s.waiting ++ [event] }
  | .readFrame =>
    match s.waiting with
    | [] => none
    | event :: rest => some ⟨rest, readEvent s.lane event⟩
  | .receive => s.lane.take.map fun taken => { s with lane := taken.2 }
  | .reconnect => some ⟨[], { s.lane with pending := false }⟩

def machine : Machine Reader Action :=
  ⟨⟨[], .new⟩, step⟩

/-- The consumer takes events beside a pending overflow only while a frame with changes waits, and
no connection is lost beside one. -/
def prompt (s : Reader) : Action → Bool
  | .receive => !s.lane.pending || s.waiting.any carries
  | .reconnect => !s.lane.pending
  | _ => true

/-- Losses are covered, and an overflow is pending only for want of room or beside a frame that will
have it put. -/
structure MadeUp (s : Reader) : Prop where
  sound : s.lane.Sound eventQueue overflowEvent
  rests : s.lane.pending = true →
    eventQueue ≤ s.lane.queue.length ∨ s.waiting.any carries = true

variable {s s' : Reader}

namespace MadeUp

theorem new : MadeUp machine.initial :=
  ⟨.new, fun pending => by cases pending⟩

theorem readFrame (h : MadeUp s) {event : Event} {rest : List Event}
    (waiting : s.waiting = event :: rest) : MadeUp ⟨rest, readEvent s.lane event⟩ := by
  unfold readEvent
  split_ifs with changes
  · exact ⟨h.sound.offer _, fun pending => .inl (Lane.full_of_pending pending)⟩
  · refine ⟨h.sound, fun pending => (h.rests pending).imp_right fun waits => ?_⟩
    simpa [waiting, changes] using waits

theorem step (h : MadeUp s) {action : Action} (meets : s.prompt action = true)
    (moved : s.step action = some s') : MadeUp s' := by
  cases action with
  | arrive =>
    cases moved
    refine ⟨h.sound, fun pending => (h.rests pending).imp_right fun waits => ?_⟩
    rw [List.any_append, waits, Bool.true_or]
  | readFrame =>
    simp only [Reader.step] at moved
    split at moved
    · cases moved
    · rename_i event rest waiting
      cases moved
      exact h.readFrame waiting
  | receive =>
    obtain ⟨⟨event, lane⟩, took, rfl⟩ := Option.map_eq_some_iff.mp moved
    refine ⟨h.sound.take took, fun pending => .inr ?_⟩
    have same : lane.pending = s.lane.pending := Lane.pending_take took
    simpa [prompt, ← same, show lane.pending = true from pending] using meets
  | reconnect =>
    cases moved
    have clear : s.lane.pending = false := by simpa [prompt] using meets
    have lane : ({ s.lane with pending := false } : Lane Event) = s.lane := by
      rw [← clear]
    exact ⟨lane ▸ h.sound, fun pending => by cases pending⟩

end MadeUp

/-- In every run that keeps to the condition, every batch dropped is followed by an overflow or one is
pending; a pending one goes out with the next frame read once there is room; and none is pending when
the queue is empty and no frame waits. -/
theorem overflow_makes_up (h : machine.ReachableUnder (fun s a => s.prompt a = true) s) :
    s.lane.Covered overflowEvent ∧
    s.lane.log.filterMap Record.kept = s.lane.taken ++ s.lane.queue ∧
    (s.lane.pending = true → eventQueue ≤ s.lane.queue.length ∨
      ∃ event ∈ s.waiting, carries event = true) ∧
    (∀ event rest, s.waiting = event :: rest → carries event = true → s.lane.pending = true →
      s.lane.queue.length < eventQueue → ∀ s', machine.step s .readFrame = some s' →
        ∃ more, s'.lane.queue = s.lane.queue ++ overflowEvent :: more) ∧
    ¬(s.lane.queue = [] ∧ s.waiting = [] ∧ s.lane.pending = true) := by
  have madeUp : MadeUp s :=
    Machine.ReachableUnder.invariant .new (fun _ _ _ madeUp meets moved => madeUp.step meets moved) h
  refine ⟨madeUp.sound.covered, madeUp.sound.order, fun pending => ?_,
    fun event rest waiting changes pending room s' moved => ?_, ?_⟩
  · exact (madeUp.rests pending).imp_right List.any_eq_true.mp
  · simp only [machine, Reader.step, waiting] at moved
    cases moved
    obtain ⟨more, queue⟩ := Lane.queue_offer pending room [{ event with handles := none }]
    exact ⟨more, by rw [← queue]; simp only [readEvent, if_pos changes]⟩
  · rintro ⟨queue, waiting, pending⟩
    rcases madeUp.rests pending with full | waits
    · simp [queue, eventQueue] at full
    · simp [waiting] at waits

/-- A frame too many is dropped and made up for: room is made while the next one waits. -/
theorem overflow_makes_up_in_time :
    ∃ s, machine.ReachableUnder (fun s a => s.prompt a = true) s ∧
      s.lane.queue.getLast? = some overflowEvent ∧ s.lane.Covered overflowEvent := by
  let change : Event := ⟨[.data .root], none⟩
  obtain ⟨s, reached, last⟩ := machine.exists_of_runWhile
    (p := fun s : Reader => decide (s.lane.queue.getLast? = some overflowEvent))
    (by decide +kernel : (machine.runWhile prompt machine.initial
      ((List.replicate 257 [.arrive change, .readFrame]).flatten ++
        [.arrive change, .receive, .readFrame])).any _ = true)
  exact ⟨s, reached, of_decide_eq_true last, (overflow_makes_up reached).1⟩

/-- A frame too many is dropped, and the consumer empties the queue without being told. -/
theorem overflow_left_pending :
    let change : Event := ⟨[.data .root], none⟩
    ∃ s, machine.run ((List.replicate 257 [.arrive change, .readFrame]).flatten ++
        List.replicate 256 .receive) = some s ∧ machine.Reachable s ∧
      s.lane.queue = [] ∧ s.waiting = [] ∧ s.lane.pending = true := by
  intro change
  obtain ⟨s, run, reached, left⟩ := machine.exists_of_run
    (p := fun s : Reader => decide (s.lane.queue = [] ∧ s.waiting = [] ∧ s.lane.pending = true))
    (by decide +kernel : (machine.run ((List.replicate 257 [.arrive change, .readFrame]).flatten ++
        List.replicate 256 .receive)).any _ = true)
  exact ⟨s, run, reached, of_decide_eq_true left⟩

end Reader

end JackalopeFs.EventReader
