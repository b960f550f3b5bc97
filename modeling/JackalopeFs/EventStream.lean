import JackalopeFs.EventWindow

/-! # A session's event stream

Batches go from the window to every session's stream through a channel that drops the
oldest when a session lags, and each is written as one frame.  A batch is bounded by the
number of its items and a frame by its bytes.  A batch too large for a frame ends the
stream, and nothing tells the client to distrust what it caches; batches of short items
always fit.

A frame's size is that of the single Cap'n Proto segment the message is built in, with its
table.  The other way to encode, several segments made into one, is never taken because
the first segment is sized by `sizeHint` (`segmentWords_le_sizeHint`), and is left out, as
are the writes that fail because the connection does.
-/

namespace JackalopeFs.EventStream

open EventWindow List PathNames TransitionRuns

def maxFrame : ℕ := 2 * 1024 * 1024

def dataWords (len : ℕ) : ℕ :=
  (len + 7) / 8

def wordsFor (len : ℕ) : ℕ :=
  dataWords len + 1

def wordsForPath (path : Path) : ℕ :=
  (path.names.map fun name => wordsFor name.bytes.length).sum + 2

def pathWords (path : Path) : ℕ :=
  (path.names.map fun name => wordsFor name.bytes.length).sum

/-- Words an item takes in the message: its struct and what that points to. -/
def itemWords : EventItem → ℕ
  | .entry dir name => 3 + pathWords dir + dataWords name.bytes.length
  | .data path => 3 + pathWords path
  | .overflow => 3
  | .unwatched dir => 3 + pathWords dir

/-- Words of the segment: root pointer, event, notice, and the list with its tag. -/
def segmentWords (event : Event) : ℕ :=
  1 + 2 + (if event.handles.isSome then 2 else 0) + 1 + (event.items.map itemWords).sum

def itemHint : EventItem → ℕ
  | .entry dir name => 4 + wordsForPath dir + wordsFor name.bytes.length
  | .data path => 3 + wordsForPath path
  | .overflow => 3
  | .unwatched dir => 3 + wordsForPath dir

def sizeHint (event : Event) : ℕ :=
  32 + 3 + (event.items.map itemHint).sum

inductive ErrorCodec where
  | tooLarge (len : ℕ)
  deriving DecidableEq, Repr

/-- The size of the frame around an event: its length and a body with the segment table. -/
def encode (event : Event) : Except ErrorCodec ℕ :=
  let len := (1 + segmentWords event) * 8
  if maxFrame < len then .error (.tooLarge len) else .ok (4 + len)

theorem itemWords_le_itemHint (item : EventItem) : itemWords item ≤ itemHint item := by
  cases item <;> simp only [itemWords, itemHint, pathWords, wordsForPath, wordsFor] <;> omega

theorem segmentWords_le_sizeHint (event : Event) : segmentWords event ≤ sizeHint event := by
  have items : (event.items.map itemWords).sum ≤ (event.items.map itemHint).sum :=
    sum_le_sum fun item _ => itemWords_le_itemHint item
  unfold segmentWords sizeHint
  split_ifs <;> omega

def channelCapacity : ℕ := 256

/-- One session's stream; `flushed` are the batches made since it was opened, for the record. -/
structure Stream where
  pending : Pending
  queue : List EventBatch
  lagged : Bool
  notice : Option NoticeHandles
  sent : List Event
  ended : Bool
  flushed : List EventBatch

inductive Action where
  | fold (item : EventItem) (origin : Option ℕ)
  | flush
  /-- The session's notice that it holds many handles is set. -/
  | note (notice : NoticeHandles)
  | sendBatch
  | sendNotice
  deriving DecidableEq, Repr

namespace Stream

def new : Stream :=
  ⟨.new, [], false, none, [], false, []⟩

/-- Write one frame; a batch that cannot be encoded ends the stream. -/
def send (s : Stream) (event : Event) : Stream :=
  match encode event with
  | .ok _ => { s with sent := s.sent ++ [event] }
  | .error _ => { s with ended := true }

/-- Put a batch into the channel, over the oldest one if it is full. -/
def broadcast (s : Stream) (batch : EventBatch) : Stream :=
  if s.queue.length < channelCapacity then { s with queue := s.queue ++ [batch] }
  else { s with queue := s.queue.tail ++ [batch], lagged := true }

/-- Clear a notice once written, unless a newer one has replaced it. -/
def delivered (s : Stream) (sent : NoticeHandles) : Stream :=
  if s.notice = some sent then { s with notice := none } else s

def step (session : ℕ) (s : Stream) : Action → Option Stream
  | .fold item origin => some { s with pending := s.pending.fold item origin }
  | .flush =>
    let (batch, pending) := s.pending.flush
    match batch with
    | none => some { s with pending := pending }
    | some batch =>
      some ({ s with pending := pending, flushed := s.flushed ++ [batch] }.broadcast batch)
  | .note notice => some { s with notice := some notice }
  | .sendBatch =>
    if s.ended then none
    else if s.lagged then some ({ s with lagged := false }.send ⟨[.overflow], none⟩)
    else
      match s.queue with
      | [] => none
      | batch :: rest =>
        match batch.forSession session with
        | none => some { s with queue := rest }
        | some event => some ({ s with queue := rest }.send event)
  | .sendNotice =>
    if s.ended then none
    else s.notice.map fun notice => (s.send ⟨[], some notice⟩).delivered notice

def machine (session : ℕ) : Machine Stream Action :=
  ⟨.new, step session⟩

end Stream

/-- Words an item may take for every batch of such items to fit in a frame. -/
def itemLimit : ℕ := 26

def Action.short : Action → Bool
  | .fold item _ => itemWords item ≤ itemLimit
  | _ => true

theorem encode_of_short {event : Event} (few : event.items.length ≤ maxPending)
    (short : ∀ item ∈ event.items, itemWords item ≤ itemLimit) : ∃ n, encode event = .ok n := by
  have items : (event.items.map itemWords).sum ≤ event.items.length * itemLimit := by
    have total := sum_le_card_nsmul (event.items.map itemWords) itemLimit (by simpa using short)
    simpa using total
  have words : segmentWords event ≤ 6 + maxPending * itemLimit := by
    have more := Nat.mul_le_mul_right itemLimit few
    unfold segmentWords
    split_ifs <;> omega
  refine ⟨_, if_neg ?_⟩
  simp only [maxFrame, maxPending, itemLimit] at words ⊢
  omega

def Fits (batch : EventBatch) : Prop :=
  batch.items.length ≤ maxPending ∧ ∀ e ∈ batch.items, itemWords e.1 ≤ itemLimit

theorem Fits.encode {batch : EventBatch} (h : Fits batch) {session : ℕ} {event : Event}
    (told : batch.forSession session = some event) : ∃ n, encode event = .ok n := by
  simp only [EventBatch.forSession] at told
  split_ifs at told
  cases told
  refine encode_of_short ?_ fun item mem => ?_
  · rw [length_map]
    exact (length_filter_le _ _).trans h.1
  · obtain ⟨e, listed, rfl⟩ := mem_map.mp mem
    exact h.2 e (mem_filter.mp listed).1

/-- How the events sent make up for the batches flushed: each goes out as it is for the session, or
goes in a stretch of them for which an overflow does. -/
inductive Delivers (session : ℕ) : List EventBatch → List Event → Prop where
  | nil : Delivers session [] []
  | quiet {batches events} (batch : EventBatch) (own : batch.forSession session = none)
      (before : Delivers session batches events) : Delivers session (batches ++ [batch]) events
  | whole {batches events} (batch : EventBatch) (event : Event)
      (told : batch.forSession session = some event) (before : Delivers session batches events) :
      Delivers session (batches ++ [batch]) (events ++ [event])
  | lost {batches events} (dropped : List EventBatch) (before : Delivers session batches events) :
      Delivers session (batches ++ dropped) (events ++ [⟨[.overflow], none⟩])

def Stream.changes (s : Stream) : List Event :=
  s.sent.filter fun event => event.items ≠ []

/-- The stream goes on, everything pending and flushed fits, and what was sent makes up for it. -/
structure Lives (session : ℕ) (s : Stream) : Prop where
  goes : s.ended = false
  pending : s.pending.items.length ≤ maxPending ∧
    ∀ e ∈ s.pending.items, itemWords e.1 ≤ itemLimit
  fits : ∀ batch ∈ s.flushed, Fits batch
  delivery : ∃ done dropped, s.flushed = done ++ dropped ++ s.queue ∧
    (s.lagged = true ↔ dropped ≠ []) ∧ Delivers session done s.changes

theorem pending_fold {p : Pending} (h : p.items.length ≤ maxPending ∧
      ∀ e ∈ p.items, itemWords e.1 ≤ itemLimit) {item : EventItem} (origin : Option ℕ)
    (short : itemWords item ≤ itemLimit) :
    (p.fold item origin).items.length ≤ maxPending ∧
      ∀ e ∈ (p.fold item origin).items, itemWords e.1 ≤ itemLimit := by
  unfold Pending.fold
  split_ifs with collapsed limit known
  · exact h
  · exact ⟨Nat.zero_le _, fun e mem => by cases mem⟩
  · exact h
  · refine ⟨by simp; omega, fun e mem => ?_⟩
    rcases mem_append.mp mem with mem | mem
    · exact h.2 e mem
    · cases mem_singleton.mp mem
      exact short

theorem pending_flush {p : Pending} (h : p.items.length ≤ maxPending ∧
      ∀ e ∈ p.items, itemWords e.1 ≤ itemLimit) :
    (p.flush.2.items.length ≤ maxPending ∧ ∀ e ∈ p.flush.2.items, itemWords e.1 ≤ itemLimit) ∧
      ∀ batch, p.flush.1 = some batch → Fits batch := by
  unfold Pending.flush
  split_ifs with collapsed none
  · refine ⟨⟨Nat.zero_le _, fun e mem => by cases mem⟩, ?_⟩
    rintro _ ⟨⟩
    exact ⟨by decide, fun e mem => by cases mem_singleton.mp mem; decide⟩
  · exact ⟨h, fun batch made => by cases made⟩
  · refine ⟨⟨Nat.zero_le _, fun e mem => by cases mem⟩, ?_⟩
    rintro _ ⟨⟩
    exact h

namespace Lives

variable {session : ℕ} {s : Stream}

theorem new : Lives session .new where
  goes := rfl
  pending := ⟨Nat.zero_le _, fun e mem => by cases mem⟩
  fits := fun batch mem => by cases mem
  delivery := ⟨[], [], rfl, by simp [Stream.new], .nil⟩

theorem send_ok {event : Event} {n : ℕ} (made : encode event = .ok n) :
    s.send event = { s with sent := s.sent ++ [event] } := by
  simp only [Stream.send, made]

theorem broadcast (h : Lives session s) {batch : EventBatch} {pending : Pending}
    (short : pending.items.length ≤ maxPending ∧ ∀ e ∈ pending.items, itemWords e.1 ≤ itemLimit)
    (fits : Fits batch) :
    Lives session
      (({ s with pending := pending, flushed := s.flushed ++ [batch] } : Stream).broadcast batch) := by
  have flushed : ∀ b ∈ s.flushed ++ [batch], Fits b := by
    intro b mem
    rcases mem_append.mp mem with mem | mem
    · exact h.fits b mem
    · cases mem_singleton.mp mem
      exact fits
  obtain ⟨done, dropped, all, lagged, delivers⟩ := h.delivery
  unfold Stream.broadcast
  split_ifs with room
  · refine ⟨h.goes, short, flushed, done, dropped, ?_, lagged, delivers⟩
    simp [all]
  · -- The oldest batch joins those that an overflow will stand for.
    cases queue : s.queue with
    | nil => simp [queue, channelCapacity] at room
    | cons oldest =>
      refine ⟨h.goes, short, flushed, done, dropped ++ [oldest], ?_, by simp, delivers⟩
      simp [all, queue]

theorem step (h : Lives session s) {action : Action} {s' : Stream} (short : action.short = true)
    (moved : s.step session action = some s') : Lives session s' := by
  cases action with
  | fold _ origin =>
    cases moved
    exact ⟨h.goes, pending_fold h.pending origin (of_decide_eq_true short), h.fits, h.delivery⟩
  | flush =>
    obtain ⟨left, fits⟩ := pending_flush h.pending
    simp only [Stream.step] at moved
    split at moved
    · cases moved
      exact ⟨h.goes, left, h.fits, h.delivery⟩
    · rename_i batch made
      cases moved
      exact h.broadcast left (fits batch made)
  | note =>
    cases moved
    exact ⟨h.goes, h.pending, h.fits, h.delivery⟩
  | sendBatch =>
    obtain ⟨done, dropped, all, lagged, delivers⟩ := h.delivery
    simp only [Stream.step] at moved
    rw [if_neg (by simp [h.goes])] at moved
    split_ifs at moved with behind
    · cases moved
      rw [send_ok (rfl : encode ⟨[.overflow], none⟩ = _)]
      refine ⟨h.goes, h.pending, h.fits, done ++ dropped, [], by simp [all], by simp, ?_⟩
      simpa [Stream.changes] using delivers.lost dropped
    · have none : dropped = [] := by
        by_contra some
        exact behind (lagged.mpr some)
      subst none
      split at moved
      · cases moved
      rename_i batch rest queue
      have flushed : s.flushed = done ++ [batch] ++ [] ++ rest := by simp [all, queue]
      have fits : Fits batch := h.fits batch (by simp [flushed])
      split at moved
      · rename_i own
        cases moved
        exact ⟨h.goes, h.pending, h.fits, done ++ [batch], [], flushed, lagged, delivers.quiet batch own⟩
      · rename_i event told
        obtain ⟨n, made⟩ := fits.encode told
        cases moved
        rw [send_ok made]
        refine ⟨h.goes, h.pending, h.fits, done ++ [batch], [], flushed, lagged, ?_⟩
        have tells : event.items ≠ [] := by
          simp only [EventBatch.forSession] at told
          split_ifs at told with none
          cases told
          exact none
        simpa [Stream.changes, tells] using delivers.whole batch event told
  | sendNotice =>
    simp only [Stream.step] at moved
    rw [if_neg (by simp [h.goes])] at moved
    obtain ⟨notice, _, rfl⟩ := Option.map_eq_some_iff.mp moved
    rw [send_ok (rfl : encode ⟨[], some notice⟩ = _)]
    obtain ⟨done, dropped, all, lagged, delivers⟩ := h.delivery
    unfold Stream.delivered
    split_ifs
    · refine ⟨h.goes, h.pending, h.fits, done, dropped, all, lagged, ?_⟩
      simpa [Stream.changes] using delivers
    · refine ⟨h.goes, h.pending, h.fits, done, dropped, all, lagged, ?_⟩
      simpa [Stream.changes] using delivers

end Lives

theorem byteLen_singles {first name : Name} (h : first.bytes.length = 1) (h' : name.bytes.length = 1)
    (n : ℕ) : byteLen (first :: List.replicate n name) = 2 * n + 1 := by
  simp only [byteLen, map_cons, map_replicate, sum_cons, sum_replicate_nat,
    length_cons, length_replicate, h, h']
  omega

/-- A path of 2048 names of one byte each, told apart by the first. -/
def longPath (i : Fin 64) : Path where
  names := ⟨[UInt8.ofNat (100 + i.val)], by revert i; decide⟩ ::
    List.replicate 2047 ⟨[97], by decide⟩
  short := (byteLen_singles rfl rfl 2047).trans_le (by decide)

end JackalopeFs.EventStream
