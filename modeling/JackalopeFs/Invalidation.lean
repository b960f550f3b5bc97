import JackalopeFs.CollapsingQueues
import JackalopeFs.EventWindow
import JackalopeFs.NodeTable

/-! # Invalidating what the kernel caches

Events and reconnects are translated into work for the thread that notifies the kernel, on
a bounded queue.  Work that finds the queue full is discarded and a sweep of the whole
cache is to make up for it.  As when the event stream is read, the sweep is put with the
next input and not when the thread makes room, so it stays behind when no input comes.

The node table is read as it is when an event is translated; it and the set of open nodes
come with the step.  The end of the mount, which ends both sides, is left out.
-/

namespace JackalopeFs.Invalidation

open CollapsingQueues EventWindow NodeTable PathNames TransitionRuns

def queueSize : ℕ := 4096

inductive Work where
  | entry (parent : ℕ) (name : Name)
  | inode (ino : ℕ)
  | dirGrew (ino : ℕ)
  | sweep
  deriving DecidableEq, Repr

/-- The names a node is known by, to be taken from the kernel. -/
def entriesOf (node : Node) : List Work :=
  node.aliases.map fun a => .entry a.1 a.2

/-- The work an item makes, for the nodes that are known and those of them that are open. -/
def workFor (nodes : Nodes) (openNodes : List ℕ) : EventItem → List Work
  | .entry dir name =>
    match nodes.resolvePath dir with
    | some parent => [.entry parent name]
    | none => []
  | .data path =>
    match nodes.resolvePath path with
    | some ino =>
      .inode ino ::
        match nodes.get ino with
        | some node => if node.kind = .regular then entriesOf node else []
        | none => []
    | none => []
  | .overflow => [.sweep]
  | .unwatched dir =>
    match nodes.resolvePath dir with
    | some ino =>
      match nodes.get ino with
      | some node =>
        entriesOf node ++ [.dirGrew ino] ++
          ((node.children.entries.map fun e => e.2).filter fun c => c ∈ openNodes).map .inode
      | none => []
    | none => []

inductive ConnState where
  | connected (generation : ℕ)
  | away
  deriving DecidableEq, Repr

/-- What `translate` receives and keeps, and the queue to the notifier; `changed` is whether the
connection's state is one it has not looked at. -/
structure Translator where
  events : List Event
  conn : ConnState
  changed : Bool
  lastGeneration : ℕ
  lane : Lane Work

inductive Action where
  | event (event : Event)
  | connChanges (conn : ConnState)
  | translate (nodes : Nodes) (openNodes : List ℕ)
  | noticeChange
  /-- The notifier takes its next work. -/
  | receive
  /-- A request's task queues the invalidation of a name, or drops it if there is no room. -/
  | queueEntry (parent : ℕ) (name : Name)

namespace Translator

def step (s : Translator) : Action → Option Translator
  | .event event => some { s with events := s.events ++ [event] }
  | .connChanges conn => some { s with conn := conn, changed := true }
  | .translate nodes openNodes =>
    match s.events with
    | [] => none
    | event :: rest => some { s with
        events := rest
        lane := s.lane.offer queueSize .sweep (event.items.flatMap (workFor nodes openNodes)) }
  | .noticeChange =>
    if s.changed then
      match s.conn with
      | .connected generation =>
        let work := if 1 < generation ∧ generation ≠ s.lastGeneration then [.sweep] else []
        some { s with
          changed := false
          lastGeneration := generation
          lane := s.lane.offer queueSize .sweep work }
      | .away => some { s with changed := false }
    else none
  | .receive => s.lane.take.map fun taken => { s with lane := taken.2 }
  | .queueEntry parent name =>
    if s.lane.queue.length < queueSize then some { s with lane := s.lane.put (.entry parent name) }
    else some s

def machine : Machine Translator Action :=
  ⟨⟨[], .away, false, 0, .new⟩, step⟩

/-- The notifier takes work beside a pending sweep only while an event waits to be translated. -/
def prompt (s : Translator) : Action → Bool
  | .receive => !s.lane.pending || !s.events.isEmpty
  | _ => true

/-- Discarded work is covered, and a sweep is pending only for want of room or beside an event that
will have it put. -/
structure Swept (s : Translator) : Prop where
  sound : s.lane.Sound queueSize .sweep
  rests : s.lane.pending = true → queueSize ≤ s.lane.queue.length ∨ s.events ≠ []

variable {s s' : Translator}

namespace Swept

theorem new : Swept machine.initial :=
  ⟨.new, fun pending => by cases pending⟩

theorem step (h : Swept s) {action : Action} (meets : s.prompt action = true)
    (moved : s.step action = some s') : Swept s' := by
  cases action with
  | event =>
    cases moved
    exact ⟨h.sound, fun pending => (h.rests pending).imp_right fun _ => by simp⟩
  | connChanges =>
    cases moved
    exact ⟨h.sound, h.rests⟩
  | translate =>
    simp only [Translator.step] at moved
    split at moved
    · cases moved
    · cases moved
      exact ⟨h.sound.offer _, fun pending => .inl (Lane.full_of_pending pending)⟩
  | noticeChange =>
    simp only [Translator.step] at moved
    split_ifs at moved
    split at moved
    · cases moved
      exact ⟨h.sound.offer _, fun pending => .inl (Lane.full_of_pending pending)⟩
    · cases moved
      exact ⟨h.sound, h.rests⟩
  | receive =>
    obtain ⟨⟨work, lane⟩, took, rfl⟩ := Option.map_eq_some_iff.mp moved
    refine ⟨h.sound.take took, fun pending => .inr ?_⟩
    have same : lane.pending = s.lane.pending := Lane.pending_take took
    simpa [prompt, ← same, show lane.pending = true from pending] using meets
  | queueEntry =>
    simp only [Translator.step] at moved
    split_ifs at moved with room
    · cases moved
      refine ⟨h.sound.put _ room, fun pending => (h.rests pending).imp_left fun full => ?_⟩
      omega
    · cases moved
      exact h

end Swept

/-- The notifier takes everything that is queued, and a pending sweep stays pending. -/
theorem run_receives {n : ℕ} (queued : s.lane.queue.length = n) :
    ∃ t, machine.runFrom s (List.replicate n .receive) = some t ∧ t.lane.queue = [] ∧
      t.events = s.events ∧ t.changed = s.changed ∧ t.lane.pending = s.lane.pending := by
  induction n generalizing s with
  | zero => exact ⟨s, rfl, List.length_eq_zero_iff.mp queued, rfl, rfl, rfl⟩
  | succ _ ih =>
    cases queue : s.lane.queue with
    | nil => simp [queue] at queued
    | cons work rest =>
      have takes : machine.step s .receive = some { s with
          lane := { s.lane with queue := rest, taken := s.lane.taken ++ [work] } } := by
        simp [machine, step, Lane.take, queue]
      rw [queue, List.length_cons, Nat.add_right_cancel_iff] at queued
      rw [List.replicate_succ, Machine.runFrom_cons takes]
      exact ih queued

def nameOf (i : Fin 4097) : Name where
  bytes := [UInt8.ofNat (100 + i.val / 64), UInt8.ofNat (100 + i.val % 64)]
  valid := by
    have plain : ∀ a : Fin 65, UInt8.ofNat (100 + a.val) ≠ 47 ∧ UInt8.ofNat (100 + a.val) ≠ 0 ∧
        UInt8.ofNat (100 + a.val) ≠ 46 := by decide
    have first := plain ⟨i.val / 64, by omega⟩
    have second := plain ⟨i.val % 64, by omega⟩
    simp only at first second
    generalize UInt8.ofNat (100 + i.val / 64) = a at first ⊢
    generalize UInt8.ofNat (100 + i.val % 64) = b at second ⊢
    simp [ErrorName.of, nameMax, first, second]

/-- As many entries changed in the root as the queue holds, and one more. -/
def manyEntries : Event :=
  ⟨(List.finRange 4097).map fun i => .entry .root (nameOf i), none⟩

theorem length_work (numbers : List (Fin 4097)) :
    ((numbers.map fun i => EventItem.entry .root (nameOf i)).flatMap (workFor .new [])).length =
      numbers.length := by
  induction numbers with
  | nil => rfl
  | cons _ _ ih =>
    rw [List.map_cons, List.flatMap_cons, List.length_append, ih, List.length_cons]
    exact Nat.add_comm 1 _

end Translator

end JackalopeFs.Invalidation
