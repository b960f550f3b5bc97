import JackalopeFs.ControlSizes
import JackalopeFs.TapQueue

/-! # A capture and its census

A subscriber to frames gets one exchange in so many, and one event frame in so many, each
as a record of its own.  What becomes of a chosen one is told to the tap when it has ended:
its record is offered, and then it is counted as sampled or as dropped, by operation.  At
the other end of the queue the connection writes the records; one that is too large for a
frame is left out.  When the subscriber asks for the census, the connection writes what is
still queued, then the census, and the subscription ends.

The taps of other subscribers are there as their wish for payloads only, since the bodies
of a frame are made once for all taps.  The body of an event frame can always be made: the
client has it, and the server encodes what it has just sent.  Sampling, offers and the
steps of the connection come in any order, but nothing is delivered after the census has
been asked for, and the census is not asked for while something is being delivered.
-/

namespace JackalopeFs.CaptureCensus

open ControlMessages ControlSizes FrameCodec IndexedCells List Option TapQueue TransitionRuns WireConversions
open WireMessages (Bytes)

section Frames

inductive Side where
  | client
  | server
  deriving DecidableEq, Repr

def Side.name : Side → String
  | .client => "client"
  | .server => "server"

structure Static where
  text : String
  short : Short text

def abandoned : Static :=
  ⟨"abandoned", by unfold Short; decide⟩

def replied : Static :=
  ⟨"replied", by unfold Short; decide⟩

def undecoded : Static :=
  ⟨"undecodable", by unfold Short; decide⟩

structure IdsEvent where
  session : Option UInt64
  conn : Option UInt64
  stream : Option UInt64
  unique : Option UInt64
  op : Option Static

def IdsEvent.toIds (ids : IdsEvent) : Ids :=
  ⟨ids.session, ids.conn, ids.stream, ids.unique, ids.op.map Static.text⟩

theorem Side.short_name (side : Side) : Short side.name := by
  cases side <;> (unfold Short; decide)

theorem IdsEvent.short_op (ids : IdsEvent) : Short (ids.toIds.op.getD "") := by
  unfold IdsEvent.toIds
  cases ids.op with
  | none =>
    change "".utf8ByteSize ≤ 16
    decide
  | some op => exact op.short

/-- Whether the exchange on a stream is one of the `every`; the mix is splitmix64's. -/
def chosen (conn : Option UInt64) (stream : UInt64) (every : UInt32) : Bool :=
  if every ≤ 1 then true
  else
    let x := conn.getD 0 ^^^ (stream * 0x9e3779b97f4a7c15)
    let x := (x ^^^ (x >>> 30)) * 0xbf58476d1ce4e5b9
    let x := (x ^^^ (x >>> 27)) * 0x94d049bb133111eb
    let x := x ^^^ (x >>> 31)
    x % every.toUInt64 == 0

/-- Most of an undecodable frame that a record keeps. -/
def undecodableKept : ℕ := 2 ^ 20

structure Bodies where
  whole : Option Bytes
  cut : Option (Bytes × UInt64)

namespace Bodies

/-- The bodies for taps that want payloads or do not; `elide` is the body with its data cut out, if it
has any. -/
def new (taps : List Bool) (body : Bytes) (elide : Option (Bytes × UInt64)) : Bodies :=
  let cut := if taps.any (!·) then elide else none
  ⟨if taps.any id || cut.isNone then some body else none, cut⟩

def forTap (bodies : Bodies) (payloads : Bool) : Bytes × UInt64 :=
  match bodies.cut, payloads with
  | some cut, false => cut
  | _, _ => (bodies.whole.getD [], 0)

end Bodies

/-- An exchange chosen for capture; `taps` is what each tap that chose it wishes. -/
structure Sampled where
  taps : List Bool
  side : Side
  ids : IdsEvent
  request : Option Bodies
  outcome : Static

def Sampled.record (sampled : Sampled) (selection : Selection) (outcome : Static) (reply : Option Bodies)
    (atNs elapsedNs : UInt64) : Record :=
  let request := (sampled.request.map fun b => b.forTap selection.payloads).getD ([], 0)
  let reply := (reply.map fun b => b.forTap selection.payloads).getD ([], 0)
  ⟨atNs, .exchange ⟨sampled.side.name, sampled.ids.toIds, max selection.every 1, request.1, request.2,
    reply.1, reply.2, outcome.text, elapsedNs⟩⟩

/-- The operation that a record of an exchange or of an event frame is counted for. -/
def opOf (record : Record) : Option String :=
  match record.what with
  | .exchange x => some (x.ids.op.getD "?")
  | .eventFrame .. => some "event"
  | _ => none

end Frames

/-- Exchanges of one operation: those there were, those queued and those dropped. -/
structure Tally where
  seen : ℕ
  sampled : ℕ
  dropped : ℕ
  deriving DecidableEq, Repr

abbrev Census := AList fun _ : String => Tally

namespace Census

def tally (census : Census) (op : String) : Tally :=
  (census.lookup op).getD ⟨0, 0, 0⟩

def counted (census : Census) (op : String) (change : Tally → Tally) : Census :=
  census.insert op (change (census.tally op))

def ops (census : Census) : List CensusOp :=
  (census.entries.insertionSort fun a b => a.1 ≤ b.1).map fun entry =>
    ⟨entry.1, .ofNat entry.2.seen, .ofNat entry.2.sampled, .ofNat entry.2.dropped⟩

end Census

inductive Phase where
  | streaming
  | asked
  | closed
  deriving DecidableEq, Repr

/-- A subscription with its tap.  `pending` are the offers not yet counted, `handled` is how many records
the connection has dealt with, `written` those the subscriber got, `ended` the operations of all chosen
exchanges and event frames that have ended, and `report` the census it got. -/
structure Capture where
  tap : Tap
  census : Census
  exchanges : List (Option Sampled)
  pending : Finset ℕ
  handled : ℕ
  phase : Phase
  written : List Record
  ended : List String
  report : Option (List CensusOp)

inductive Action where
  | sample (others : List Bool) (side : Side) (ids : IdsEvent)
  | request (i : ℕ) (body : Bytes) (elide : Option (Bytes × UInt64))
  | outcome (i : ℕ) (why : Static)
  | reply (i : ℕ) (body : Bytes) (elide : Option (Bytes × UInt64)) (atNs elapsedNs : UInt64)
  | undecodable (i : ℕ) (body : Bytes) (atNs elapsedNs : UInt64)
  | drop (i : ℕ) (atNs elapsedNs : UInt64)
  | eventFrame (side : Side) (ids : IdsEvent) (seq : UInt64) (body : Bytes) (atNs : UInt64)
  | other (record : Record)
  | advance (i : ℕ) (room : Bool)
  | count (i : ℕ)
  | take
  | settle
  | write (gone : Bool)
  | ask
  | finish (atNs : UInt64)

section Machine

variable (capnp : Capnp ControlSchema.ControlReply) (selection : Selection)

/-- Whether a tap with this selection takes frames of an operation. -/
def takes (op : String) : Bool :=
  selection.frames && (selection.ops.isNone || selection.ops.has op)

def frameBody (body : Bytes) (elide : Option (Bytes × UInt64)) : Bool :=
  body.length ≤ maxFrame && elide.all fun cut => decide (cut.1.length ≤ maxFrame)

def delivers (s : Capture) : Action → Option Record
  | .reply i body elide atNs elapsedNs =>
    match s.exchanges[i]? with
    | some (some sampled) =>
      if frameBody body elide then
        some (sampled.record selection replied (some (.new sampled.taps body elide)) atNs elapsedNs)
      else none
    | _ => none
  | .undecodable i body atNs elapsedNs =>
    match s.exchanges[i]? with
    | some (some sampled) =>
      if frameBody body none then
        some (sampled.record selection undecoded (some ⟨some (body.take undecodableKept), none⟩) atNs
          elapsedNs)
      else none
    | _ => none
  | .drop i atNs elapsedNs =>
    match s.exchanges[i]? with
    | some (some sampled) => some (sampled.record selection sampled.outcome none atNs elapsedNs)
    | _ => none
  | .eventFrame side ids seq body atNs =>
    if takes selection "event" && seq % (max selection.every 1).toUInt64 == 0 && frameBody body none then
      some ⟨atNs, .eventFrame side.name ids.toIds (max selection.every 1) seq body⟩
    else none
  | _ => none

/-- Offer the record of something chosen that has ended. -/
def offerChosen (s : Capture) (record : Record) : Option Capture :=
  match opOf record, TapQueue.step s.tap (.offer record) with
  | some op, some tap =>
    some { s with tap := tap, pending := insert s.tap.offers.length s.pending, ended := s.ended ++ [op] }
  | _, _ => none

def endExchange (s : Capture) (i : ℕ) : Capture :=
  { s with exchanges := s.exchanges.set i none }

def idle (s : Capture) : Bool :=
  s.tap.receiving.isNone && s.handled == s.tap.received.length

def step (s : Capture) : Action → Option Capture
  | .sample others side ids =>
    match ids.stream with
    | none => some s
    | some stream =>
      let op := (ids.op.map Static.text).getD "?"
      if takes selection op then
        let s := { s with census := s.census.counted op fun c => { c with seen := c.seen + 1 } }
        if chosen ids.conn stream selection.every then
          some { s with
            exchanges := s.exchanges ++ [some ⟨selection.payloads :: others, side, ids, none, abandoned⟩] }
        else some s
      else some s
  | .request i body elide =>
    match s.exchanges[i]? with
    | some (some sampled) =>
      if frameBody body elide then
        some { s with
          exchanges := s.exchanges.set i
            (some { sampled with request := some (.new sampled.taps body elide) }) }
      else none
    | _ => none
  | .outcome i why =>
    match s.exchanges[i]? with
    | some (some sampled) =>
      some { s with exchanges := s.exchanges.set i (some { sampled with outcome := why }) }
    | _ => none
  | .reply i body elide atNs elapsedNs =>
    if s.phase = .streaming then
      (delivers selection s (.reply i body elide atNs elapsedNs)).bind (offerChosen (endExchange s i))
    else none
  | .undecodable i body atNs elapsedNs =>
    if s.phase = .streaming then
      (delivers selection s (.undecodable i body atNs elapsedNs)).bind (offerChosen (endExchange s i))
    else none
  | .drop i atNs elapsedNs =>
    if s.phase = .streaming then
      (delivers selection s (.drop i atNs elapsedNs)).bind (offerChosen (endExchange s i))
    else none
  | .eventFrame side ids seq body atNs =>
    if s.phase = .streaming ∧ frameBody body none = true then
      if takes selection "event" then
        let seen := { s with census := s.census.counted "event" fun c => { c with seen := c.seen + 1 } }
        match delivers selection s (.eventFrame side ids seq body atNs) with
        | some record => offerChosen seen record
        | none => some seen
      else some s
    else none
  | .other record =>
    if s.phase ≠ .closed ∧ opOf record = none then
      (TapQueue.step s.tap (.offer record)).map fun tap => { s with tap := tap }
    else none
  | .advance i room =>
    if s.phase ≠ .closed then
      (TapQueue.step s.tap (.step i room)).map fun tap => { s with tap := tap }
    else none
  | .count i =>
    match s.tap.offers[i]? with
    | some ⟨record, .done taken⟩ =>
      if i ∈ s.pending ∧ s.phase ≠ .closed then
        some { s with
          pending := s.pending.erase i
          census := s.census.counted ((opOf record).getD "?") fun c =>
            if taken then { c with sampled := c.sampled + 1 } else { c with dropped := c.dropped + 1 } }
      else none
    | _ => none
  | .take =>
    if s.phase ≠ .closed ∧ idle s = true then
      (TapQueue.step s.tap .take).map fun tap => { s with tap := tap }
    else none
  | .settle =>
    if s.phase ≠ .closed then
      (TapQueue.step s.tap .settle).map fun tap => { s with tap := tap }
    else none
  | .write gone =>
    match s.tap.received[s.handled]? with
    | some record =>
      if s.phase = .closed then none
      else if gone then some { s with phase := .closed }
      else
        match encode capnp (ControlReply.record record) with
        | .ok _ => some { s with handled := s.handled + 1, written := s.written ++ [record] }
        | .error (.tooLarge _) => some { s with handled := s.handled + 1 }
        | .error _ => some { s with phase := .closed }
    | none => none
  | .ask =>
    if s.phase = .streaming ∧ idle s = true ∧ s.pending = ∅ then some { s with phase := .asked } else none
  | .finish atNs =>
    if s.phase = .asked ∧ idle s = true ∧ s.tap.queue = [] then
      match encode capnp (ControlReply.record ⟨atNs, .census s.census.ops (.ofNat s.tap.droppedEver)⟩) with
      | .ok _ => some { s with phase := .closed, report := some s.census.ops }
      | .error _ => some { s with phase := .closed }
    else none

def machine : Machine Capture Action :=
  ⟨⟨TapQueue.machine.initial, ∅, [], ∅, 0, .streaming, [], [], none⟩, step capnp selection⟩

end Machine

section Tallies

variable {offers : List Offer} {pending : Finset ℕ} {census : Census} {ended : List String} {op : String}

def isOf (op : String) (record : Record) : Bool :=
  decide (opOf record = some op)

def endedSo (op : String) (taken : Bool) (offer : Offer) : Bool :=
  isOf op offer.record && decide (offer.stage = .done taken)

/-- The offers for an operation that have ended so and are counted. -/
def countedSo (offers : List Offer) (pending : Finset ℕ) (op : String) (taken : Bool) : ℕ :=
  ∑ i ∈ Finset.range offers.length \ pending, if offers[i]?.any (endedSo op taken) then 1 else 0

/-- What is counted are the offers of records for an operation, less those still to be counted. -/
structure Tallied (offers : List Offer) (pending : Finset ℕ) (census : Census) (ended : List String) :
    Prop where
  waiting : ∀ i ∈ pending, ∃ offer, offers[i]? = some offer ∧ (opOf offer.record).isSome = true
  settled : ∀ i offer, offers[i]? = some offer → i ∉ pending → (opOf offer.record).isSome = true →
    offer.isDone = true
  sampled : ∀ op, (census.tally op).sampled = countedSo offers pending op true
  dropped : ∀ op, (census.tally op).dropped = countedSo offers pending op false
  ended : ∀ op, ended.count op = offers.countP fun offer => isOf op offer.record

theorem tally_counted (census : Census) (op : String) (change : Tally → Tally) (other : String) :
    (census.counted op change).tally other = if other = op then change (census.tally op) else
      census.tally other := by
  unfold Census.counted Census.tally
  split_ifs with same
  · rw [same, AList.lookup_insert]
    rfl
  · rw [AList.lookup_insert_ne same]

theorem Tallied.lt (h : Tallied offers pending census ended) {i : ℕ} (waits : i ∈ pending) :
    i < offers.length := by
  obtain ⟨offer, found, -⟩ := h.waiting i waits
  exact lt_of_lookup found

variable {record : Record}

theorem Tallied.chose (h : Tallied offers pending census ended) (of : opOf record = some op) :
    Tallied (offers ++ [⟨record, .begun⟩]) (insert offers.length pending) census (ended ++ [op]) := by
  have same : ∀ op' taken, countedSo (offers ++ [⟨record, .begun⟩]) (insert offers.length pending) op' taken =
      countedSo offers pending op' taken := by
    intro op' taken
    unfold countedSo
    have indices : Finset.range (offers ++ [(⟨record, .begun⟩ : Offer)]).length \ insert offers.length pending =
        Finset.range offers.length \ pending := by
      ext i
      simp only [length_append, length_singleton, Finset.mem_sdiff, Finset.mem_range,
        Finset.mem_insert, not_or]
      exact ⟨fun ⟨lt, ne, out⟩ => ⟨by omega, out⟩, fun ⟨lt, out⟩ => ⟨by omega, by omega, out⟩⟩
    rw [indices]
    refine Finset.sum_congr rfl fun i mem => ?_
    rw [getElem?_append_left (Finset.mem_range.mp (Finset.mem_sdiff.mp mem).1)]
  refine ⟨fun i mem => ?_, fun i offer found out isSome => ?_, fun op' => ?_, fun op' => ?_, fun op' => ?_⟩
  · obtain rfl | mem := Finset.mem_insert.mp mem
    · exact ⟨_, getElem?_concat_length, by rw [of]; rfl⟩
    · obtain ⟨offer, found, isSome⟩ := h.waiting i mem
      exact ⟨offer, lookup_add found, isSome⟩
  · rw [Finset.mem_insert, not_or] at out
    obtain found | ⟨rfl, -⟩ := of_lookup_add found
    · exact h.settled i offer found out.2 isSome
    · exact absurd rfl out.1
  · rw [same, h.sampled]
  · rw [same, h.dropped]
  · rw [count_append, countP_append, h.ended]
    simp [isOf, of, count_singleton, countP_cons]

theorem Tallied.passed (h : Tallied offers pending census ended) (other : opOf record = none) :
    Tallied (offers ++ [⟨record, .begun⟩]) pending census ended := by
  have same : ∀ op taken, countedSo (offers ++ [⟨record, .begun⟩]) pending op taken =
      countedSo offers pending op taken := by
    intro op taken
    have indices : Finset.range (offers ++ [(⟨record, .begun⟩ : Offer)]).length \ pending =
        insert offers.length (Finset.range offers.length \ pending) := by
      ext i
      simp only [length_append, length_singleton, Finset.mem_sdiff, Finset.mem_range,
        Finset.mem_insert]
      refine ⟨fun ⟨lt, out⟩ => (Nat.lt_succ_iff_lt_or_eq.mp lt).elim (fun lt => .inr ⟨lt, out⟩) .inl, ?_⟩
      rintro (rfl | ⟨lt, out⟩)
      · exact ⟨by omega, fun mem => lt_irrefl _ (h.lt mem)⟩
      · exact ⟨by omega, out⟩
    unfold countedSo
    rw [indices, Finset.sum_insert (by simp), getElem?_concat_length]
    simp only [any_some, endedSo, isOf, other, reduceCtorEq, decide_false, Bool.false_and,
      Bool.false_eq_true, if_false, Nat.zero_add]
    refine Finset.sum_congr rfl fun i mem => ?_
    rw [getElem?_append_left (Finset.mem_range.mp (Finset.mem_sdiff.mp mem).1)]
  refine ⟨fun i mem => ?_, fun i offer found out isSome => ?_, fun op => ?_, fun op => ?_, fun op => ?_⟩
  · obtain ⟨offer, found, isSome⟩ := h.waiting i mem
    exact ⟨offer, lookup_add found, isSome⟩
  · obtain found | ⟨rfl, rfl⟩ := of_lookup_add found
    · exact h.settled i offer found out isSome
    · rw [other] at isSome
      cases isSome
  · rw [same, h.sampled]
  · rw [same, h.dropped]
  · rw [countP_append, h.ended]
    simp [isOf, other]

/-- An offer moves on; one that is counted has nowhere to go, unless its record is for no operation. -/
theorem Tallied.advanced (h : Tallied offers pending census ended) {i : ℕ} {offer : Offer} {stage : Stage}
    (found : offers[i]? = some offer) (running : ∀ taken, offer.stage ≠ .done taken) :
    Tallied (offers.set i ⟨offer.record, stage⟩) pending census ended := by
  have out_other : i ∉ pending → opOf offer.record = none := by
    intro out
    by_contra some_
    obtain ⟨taken, done⟩ := exists_of_isDone (h.settled i offer found out (isSome_iff_ne_none.mpr some_))
    exact running taken done
  have same : ∀ op taken, countedSo (offers.set i ⟨offer.record, stage⟩) pending op taken =
      countedSo offers pending op taken := by
    intro op taken
    unfold countedSo
    rw [length_set]
    refine Finset.sum_congr rfl fun j mem => ?_
    by_cases here : j = i
    · subst here
      have other := out_other (Finset.mem_sdiff.mp mem).2
      rw [lookup_write found, found]
      simp [endedSo, isOf, other]
    · rw [lookup_write_of_ne here]
  refine ⟨fun j mem => ?_, fun j other found' out isSome => ?_, fun op => ?_, fun op => ?_, fun op => ?_⟩
  · obtain ⟨other, found', isSome⟩ := h.waiting j mem
    by_cases here : j = i
    · subst here
      cases found.symm.trans found'
      exact ⟨_, lookup_write found, isSome⟩
    · exact ⟨other, (lookup_write_of_ne here).trans found', isSome⟩
  · obtain ⟨rfl, rfl⟩ | ⟨-, found'⟩ := of_lookup_write found'
    · rw [out_other out] at isSome
      cases isSome
    · exact h.settled j other found' out isSome
  · rw [same, h.sampled]
  · rw [same, h.dropped]
  · have write := countP_write (fun offer => isOf op offer.record) ⟨offer.record, stage⟩ found
    rw [h.ended]
    simpa using write.symm

theorem Tallied.counted (h : Tallied offers pending census ended) {i : ℕ} {taken : Bool}
    (found : offers[i]? = some ⟨record, .done taken⟩) (waits : i ∈ pending)
    (of : opOf record = some op) :
    Tallied offers (pending.erase i) (census.counted op fun c =>
      if taken then { c with sampled := c.sampled + 1 } else { c with dropped := c.dropped + 1 }) ended := by
  have more : ∀ op' taken', countedSo offers (pending.erase i) op' taken' =
      countedSo offers pending op' taken' + if op' = op ∧ taken' = taken then 1 else 0 := by
    intro op' taken'
    have indices : Finset.range offers.length \ pending.erase i =
        insert i (Finset.range offers.length \ pending) := by
      ext j
      simp only [Finset.mem_sdiff, Finset.mem_range, Finset.mem_erase, Finset.mem_insert, not_and_or, not_not]
      constructor
      · rintro ⟨lt, rfl | out⟩
        · exact .inl rfl
        · exact .inr ⟨lt, out⟩
      · rintro (rfl | ⟨lt, out⟩)
        · exact ⟨h.lt waits, .inl rfl⟩
        · exact ⟨lt, .inr out⟩
    unfold countedSo
    rw [indices, Finset.sum_insert (by simp [waits]), found, Nat.add_comm]
    congr 1
    simp only [any_some, endedSo, isOf, of, Option.some.injEq, Bool.and_eq_true, decide_eq_true_eq,
      Stage.done.injEq]
    exact if_congr ⟨fun ⟨a, b⟩ => ⟨a.symm, b.symm⟩, fun ⟨a, b⟩ => ⟨a.symm, b.symm⟩⟩ rfl rfl
  refine ⟨fun j mem => h.waiting j (Finset.mem_of_mem_erase mem), fun j offer found' out isSome => ?_,
    fun op' => ?_, fun op' => ?_, h.ended⟩
  · by_cases here : j = i
    · subst here
      rw [found] at found'
      cases found'
      rfl
    · exact h.settled j offer found' (fun mem => out (Finset.mem_erase.mpr ⟨here, mem⟩)) isSome
  · rw [more, tally_counted, ← h.sampled]
    by_cases same : op' = op <;> cases taken <;> simp [same]
  · rw [more, tally_counted, ← h.dropped]
    by_cases same : op' = op <;> cases taken <;> simp [same]

/-- When all is counted, the tallies are those of the offers, and every chosen one is in one of them. -/
theorem Tallied.all (h : Tallied offers ∅ census ended) (op : String) :
    (census.tally op).sampled = offers.countP (tookSuch (isOf op)) ∧
      ended.count op = offers.countP (tookSuch (isOf op)) + (census.tally op).dropped := by
  have whole : ∀ taken, countedSo offers ∅ op taken = offers.countP (endedSo op taken) := by
    intro taken
    unfold countedSo
    rw [Finset.sdiff_empty]
    exact sum_lookups _
  refine ⟨(h.sampled op).trans (whole true), ?_⟩
  rw [h.ended, h.dropped, whole false]
  refine countP_eq_add (fun offer mem => ?_) (fun offer _ took refused => ?_)
  · by_cases of : isOf op offer.record = true
    · obtain ⟨i, found⟩ := mem_iff_getElem?.mp mem
      have done := h.settled i offer found (Finset.notMem_empty i)
        (isSome_iff_exists.mpr ⟨op, of_decide_eq_true of⟩)
      obtain ⟨taken, stage⟩ := exists_of_isDone done
      cases taken <;> simp [tookSuch, endedSo, of, stage]
    · simp [tookSuch, endedSo, of]
  · unfold tookSuch at took
    unfold endedSo at refused
    rw [Bool.and_eq_true, decide_eq_true_eq] at took refused
    rw [took.2] at refused
    exact absurd refused.2 (by simp)

end Tallies

section Runs

variable {capnp : Capnp ControlSchema.ControlReply} {selection : Selection} {these : Set Record} {s t : Capture}
  {op : String}

/-- The records of this kind, as they are handed to the builder. -/
def Replies (these : Set Record) : Set ControlSchema.ControlReply :=
  { reply | ∃ record ∈ these, reply = Message.build (ControlReply.record record) }

/-- What the action delivers is one of these records and fits a frame. -/
def Fitting (selection : Selection) (these : Set Record) (s : Capture) (action : Action) : Prop :=
  ∀ record, delivers selection s action = some record → record ∈ these ∧ recordBytes record ≤ maxFrame

structure Writable (these : Set Record) (record : Record) : Prop where
  known : record ∈ these
  fits : recordBytes record ≤ maxFrame
  terse : Terse record

/-- The census tells of what was written, and of everything chosen that has ended. -/
structure Accounts (s : Capture) (ops : List CensusOp) : Prop where
  listed : ∀ entry ∈ ops, entry.sampled.toNat = s.written.countP (isOf entry.op) ∧
    s.ended.count entry.op = s.written.countP (isOf entry.op) + entry.dropped.toNat
  absent : ∀ op, (∀ entry ∈ ops, entry.op ≠ op) → s.written.countP (isOf op) = 0 ∧ s.ended.count op = 0

structure Faithful (these : Set Record) (s : Capture) : Prop where
  tap : TapQueue.machine.Reachable s.tap
  tallied : Tallied s.tap.offers s.pending s.census s.ended
  writable : ∀ offer ∈ s.tap.offers, (opOf offer.record).isSome = true → Writable these offer.record
  handled : s.handled ≤ s.tap.received.length
  written : ∀ op, s.written.countP (isOf op) = (s.tap.received.take s.handled).countP (isOf op)
  asked : s.phase = .asked → s.pending = ∅
  running : s.phase ≠ .closed → s.report = none
  report : ∀ ops, s.report = some ops → Accounts s ops

variable {census : Census}

theorem Faithful.noted (h : Faithful these s) (exchanges : List (Option Sampled))
    (sampled : ∀ op, (census.tally op).sampled = (s.census.tally op).sampled)
    (dropped : ∀ op, (census.tally op).dropped = (s.census.tally op).dropped) :
    Faithful these { s with census := census, exchanges := exchanges } := by
  obtain ⟨waiting, settled, sampled', dropped', ended⟩ := h.tallied
  refine ⟨h.tap, ⟨waiting, settled, fun op => ?_, fun op => ?_, ended⟩, h.writable, h.handled, h.written, h.asked,
    h.running, fun ops told => ⟨(h.report ops told).listed, (h.report ops told).absent⟩⟩
  · rw [sampled, sampled']
  · rw [dropped, dropped']

theorem Faithful.seen (h : Faithful these s) (op : String) (exchanges : List (Option Sampled)) :
    Faithful these { s with
      census := s.census.counted op fun c => { c with seen := c.seen + 1 }
      exchanges := exchanges } := by
  refine h.noted exchanges (fun other => ?_) (fun other => ?_) <;>
    rw [tally_counted] <;> split_ifs with same <;> simp [same]

theorem Faithful.moved (h : Faithful these s) (running : s.phase ≠ .closed) {tap : Tap}
    {action : TapQueue.Action} (moves : TapQueue.step s.tap action = some tap)
    (writable : ∀ offer ∈ tap.offers, (opOf offer.record).isSome = true → Writable these offer.record)
    (received : ∃ new, tap.received = s.tap.received ++ new)
    {pending : Finset ℕ} {ended : List String} (tallied : Tallied tap.offers pending s.census ended)
    (asked : s.phase = .asked → pending = ∅) :
    Faithful these { s with tap := tap, pending := pending, ended := ended } := by
  obtain ⟨new, received⟩ := received
  refine ⟨h.tap.next moves, tallied, writable, ?_, fun op => ?_, asked, h.running, fun ops told => ?_⟩
  · rw [received, length_append]
    exact Nat.le_add_right_of_le h.handled
  · rw [received, take_append_of_le_length h.handled]
    exact h.written op
  · rw [h.running running] at told
    cases told

variable {record : Record}

theorem Faithful.offered (h : Faithful these s) (streaming : s.phase = .streaming)
    (writable : Writable these record) (moves : offerChosen s record = some t) :
    Faithful these t := by
  unfold offerChosen at moves
  split at moves
  · rename_i op tap of offered
    cases moves
    obtain ⟨-, -, -, rfl⟩ := of_step_offer offered
    refine h.moved (by simp [streaming]) offered (fun offer mem isSome => ?_) ⟨[], (append_nil _).symm⟩
      (h.tallied.chose of) (by simp [streaming])
    obtain mem | mem := mem_append.mp mem
    · exact h.writable offer mem isSome
    · rw [mem_singleton.mp mem]
      exact writable
  · cases moves

theorem Sampled.terse (sampled : Sampled) (outcome : Static) (reply : Option Bodies) (atNs elapsedNs : UInt64) :
    Terse (sampled.record selection outcome reply atNs elapsedNs) :=
  ⟨sampled.side.short_name, sampled.ids.short_op, outcome.short⟩

variable {action : Action}

theorem terse_of_delivers (delivered : delivers selection s action = some record) :
    Terse record := by
  cases action with
  | reply | undecodable =>
    simp only [delivers] at delivered
    split at delivered
    · split_ifs at delivered
      cases delivered
      exact Sampled.terse ..
    · cases delivered
  | drop =>
    simp only [delivers] at delivered
    split at delivered
    · cases delivered
      exact Sampled.terse ..
    · cases delivered
  | eventFrame side ids =>
    simp only [delivers] at delivered
    split_ifs at delivered
    cases delivered
    exact ⟨side.short_name, ids.short_op⟩
  | _ => cases delivered

theorem Fitting.writable (fitting : Fitting selection these s action)
    (delivered : delivers selection s action = some record) : Writable these record :=
  ⟨(fitting record delivered).1, (fitting record delivered).2, terse_of_delivers delivered⟩

theorem Faithful.writable_received (h : Faithful these s) {i : ℕ}
    (found : s.tap.received[i]? = some record) (of : opOf record = some op) :
    Writable these record := by
  have plain : isNote record = false := by
    unfold opOf at of
    unfold isNote
    split at of <;> simp_all
  have mem : record ∈ s.tap.pushed := by
    rw [← (sound_of_reachable h.tap).order]
    simp [mem_of_getElem? found]
  obtain ⟨offer, offered, rfl⟩ := exists_offer_of_pushed h.tap plain mem
  exact h.writable offer offered (by rw [of]; rfl)

theorem Faithful.dealt (h : Faithful these s) (running : s.phase ≠ .closed)
    (found : s.tap.received[s.handled]? = some record) {written : List Record}
    (counts : ∀ op, written.countP (isOf op) = s.written.countP (isOf op) + if isOf op record then 1 else 0) :
    Faithful these { s with handled := s.handled + 1, written := written } := by
  refine ⟨h.tap, h.tallied, h.writable, lt_of_lookup found, fun op => ?_, h.asked, h.running,
    fun ops told => ?_⟩
  · rw [counts, h.written, take_add_one, found, countP_append]
    simp [countP_cons]
  · rw [h.running running] at told
    cases told

theorem Faithful.closed (h : Faithful these s) : Faithful these { s with phase := .closed } := by
  refine ⟨h.tap, h.tallied, h.writable, h.handled, h.written, fun asked => ?_, fun running => absurd rfl running,
    fun ops told => ⟨(h.report ops told).listed, (h.report ops told).absent⟩⟩
  cases asked

/-- When the connection has written all there is, as many records were written as offers took. -/
theorem Faithful.all_written (h : Faithful these s) (still : idle s = true) (drained : s.tap.queue = [])
    (op : String) : s.written.countP (isOf op) = s.tap.offers.countP (tookSuch (isOf op)) := by
  unfold idle at still
  rw [Bool.and_eq_true, isNone_iff_eq_none, beq_iff_eq] at still
  have order := (sound_of_reachable h.tap).order
  rw [still.1, drained, toList_none, append_nil, append_nil] at order
  rw [h.written, still.2, take_length, order]
  refine pushed_of_reachable h.tap fun record note => ?_
  unfold isNote at note
  unfold isOf opOf
  split at note
  · simp_all
  · cases note

theorem mem_ops {entry : CensusOp} (mem : entry ∈ census.ops) :
    ∃ tally, census.lookup entry.op = some tally ∧ entry.sampled = .ofNat tally.sampled ∧
      entry.dropped = .ofNat tally.dropped := by
  obtain ⟨⟨op, tally⟩, held, rfl⟩ := mem_map.mp mem
  rw [mem_insertionSort] at held
  exact ⟨tally, AList.mem_lookup_iff.mpr held, rfl, rfl⟩

theorem exists_of_lookup {tally : Tally} (held : census.lookup op = some tally) :
    ∃ entry ∈ census.ops, entry.op = op := by
  refine ⟨_, mem_map_of_mem (a := ⟨op, tally⟩) ?_, rfl⟩
  rw [mem_insertionSort]
  exact AList.mem_lookup_iff.mp held

theorem Faithful.accounts (h : Faithful these s) (asked : s.phase = .asked) (still : idle s = true)
    (drained : s.tap.queue = []) : Accounts s s.census.ops := by
  have tallied := h.tallied
  rw [h.asked asked] at tallied
  have few := (sound_of_reachable h.tap).offers
  have all := fun op => tallied.all op
  have wrote := h.all_written still drained
  have some_ : ∀ op, s.ended.count op ≤ s.tap.offers.length := fun op => by
    rw [tallied.ended]
    exact countP_le_length
  refine ⟨fun entry mem => ?_, fun op none_ => ?_⟩
  · obtain ⟨tally, held, sampled, dropped⟩ := mem_ops mem
    obtain ⟨sampled', ended⟩ := all entry.op
    have same : s.census.tally entry.op = tally := by
      unfold Census.tally
      rw [held]
      rfl
    have bound := some_ entry.op
    have word : UInt64.size = 2 ^ 64 := rfl
    rw [same] at sampled' ended
    rw [sampled, dropped, wrote, UInt64.toNat_ofNat_of_lt' (by omega), UInt64.toNat_ofNat_of_lt' (by omega)]
    exact ⟨sampled', ended⟩
  · have absent : s.census.lookup op = none := by
      cases held : s.census.lookup op with
      | none => rfl
      | some =>
        obtain ⟨entry, mem, same⟩ := exists_of_lookup held
        exact absurd same (none_ entry mem)
    have zero : s.census.tally op = ⟨0, 0, 0⟩ := by
      unfold Census.tally
      rw [absent]
      rfl
    obtain ⟨sampled, ended⟩ := all op
    rw [zero] at sampled ended
    rw [wrote, ended, ← sampled]
    exact ⟨rfl, rfl⟩

theorem Faithful.written_next (lays : Lays capnp replyWords (Replies these)) (h : Faithful these s) {gone : Bool}
    (moves : step capnp selection s (.write gone) = some t) : Faithful these t := by
  simp only [step] at moves
  split at moves
  · rename_i record found
    split_ifs at moves with closed left
    · cases moves
      exact h.closed
    · cases of : opOf record with
      | none =>
        have other : ∀ op, isOf op record = false := fun op => by simp [isOf, of]
        split at moves
        · cases moves
          exact h.dealt closed found fun op => by simp [other]
        · cases moves
          exact h.dealt closed found fun op => by simp [other]
        · cases moves
          exact h.closed
      | some op =>
        have writable := h.writable_received found of
        obtain ⟨frame, encoded⟩ := encode_record_of_le lays ⟨record, writable.known, rfl⟩ writable.terse
          writable.fits
        rw [encoded] at moves
        cases moves
        exact h.dealt closed found fun op => by simp [countP_cons]
  · cases moves

theorem Faithful.finished (h : Faithful these s) {atNs : UInt64}
    (moves : step capnp selection s (.finish atNs) = some t) : Faithful these t := by
  simp only [step] at moves
  split_ifs at moves with may
  split at moves
  · cases moves
    have accounts := h.accounts may.1 may.2.1 may.2.2
    refine ⟨h.tap, h.tallied, h.writable, h.handled, h.written, fun asked => ?_, fun running => absurd rfl running,
      fun ops told => ?_⟩
    · cases asked
    · cases told
      exact ⟨accounts.listed, accounts.absent⟩
  · cases moves
    exact h.closed

theorem Faithful.next (lays : Lays capnp replyWords (Replies these)) (h : Faithful these s)
    (fitting : Fitting selection these s action) (moves : step capnp selection s action = some t) :
    Faithful these t := by
  cases action with
  | sample =>
    simp only [step] at moves
    split at moves
    · cases moves
      exact h
    · split_ifs at moves
      · cases moves
        exact h.seen _ _
      · cases moves
        exact h.seen _ _
      · cases moves
        exact h
  | request =>
    simp only [step] at moves
    split at moves
    · split_ifs at moves
      cases moves
      exact h.noted _ (fun _ => rfl) (fun _ => rfl)
    · cases moves
  | outcome =>
    simp only [step] at moves
    split at moves
    · cases moves
      exact h.noted _ (fun _ => rfl) (fun _ => rfl)
    · cases moves
  | reply i | undecodable i | drop i =>
    simp only [step] at moves
    split_ifs at moves with streaming
    obtain ⟨record, delivered, offered⟩ := bind_eq_some_iff.mp moves
    have ended : Faithful these (endExchange s i) := h.noted _ (fun _ => rfl) (fun _ => rfl)
    exact ended.offered streaming (fitting.writable delivered) offered
  | eventFrame side ids seq body atNs =>
    simp only [step] at moves
    split_ifs at moves with may takes
    · split at moves
      · rename_i record delivered
        exact (h.seen "event" s.exchanges).offered may.1 (fitting.writable delivered) moves
      · cases moves
        exact h.seen "event" s.exchanges
    · cases moves
      exact h
  | other =>
    simp only [step] at moves
    split_ifs at moves with may
    obtain ⟨tap, moved, rfl⟩ := map_eq_some_iff.mp moves
    obtain ⟨-, -, -, rfl⟩ := of_step_offer moved
    refine h.moved may.1 moved (fun offer mem isSome => ?_) ⟨[], (append_nil _).symm⟩
      (h.tallied.passed may.2) h.asked
    obtain mem | mem := mem_append.mp mem
    · exact h.writable offer mem isSome
    · rw [mem_singleton.mp mem, may.2] at isSome
      cases isSome
  | advance i =>
    simp only [step] at moves
    split_ifs at moves with running
    obtain ⟨tap, moved, rfl⟩ := map_eq_some_iff.mp moves
    obtain ⟨offer, next, found, advanced, rfl⟩ := of_step_step moved
    obtain ⟨offers, -, received, unfinished⟩ := advance_frame advanced
    refine h.moved running moved (fun other mem isSome => ?_) ⟨[], received.trans (append_nil _).symm⟩ ?_
      h.asked
    · rw [offers] at mem
      obtain mem | rfl := mem_or_eq_of_mem_set mem
      · exact h.writable other mem isSome
      · exact h.writable offer (mem_of_getElem? found) isSome
    · rw [offers]
      exact h.tallied.advanced found unfinished
  | count i =>
    simp only [step] at moves
    split at moves
    · rename_i record taken found
      obtain ⟨may, made⟩ := ite_none_right_eq_some.mp moves
      cases made
      obtain ⟨offer, found', isSome⟩ := h.tallied.waiting i may.1
      cases found.symm.trans found'
      obtain ⟨op, of⟩ := isSome_iff_exists.mp isSome
      rw [of, getD_some]
      refine ⟨h.tap, h.tallied.counted found may.1 of, h.writable, h.handled, h.written, fun asked => ?_,
        h.running, fun ops told => ?_⟩
      · rw [h.asked asked] at may
        exact absurd may.1 (Finset.notMem_empty i)
      · rw [h.running may.2] at told
        cases told
    · cases moves
  | take =>
    simp only [step] at moves
    split_ifs at moves with may
    obtain ⟨tap, moved, rfl⟩ := map_eq_some_iff.mp moves
    obtain ⟨record, rest, -, -, rfl⟩ := of_step_take moved
    exact h.moved may.1 moved h.writable ⟨[], (append_nil _).symm⟩ h.tallied h.asked
  | settle =>
    simp only [step] at moves
    split_ifs at moves with running
    obtain ⟨tap, moved, rfl⟩ := map_eq_some_iff.mp moves
    obtain ⟨record, -, rfl⟩ := of_step_settle moved
    exact h.moved running moved h.writable ⟨[record], rfl⟩ h.tallied h.asked
  | ask =>
    simp only [step] at moves
    split_ifs at moves with may
    cases moves
    refine ⟨h.tap, h.tallied, h.writable, h.handled, h.written, fun _ => may.2.2, fun _ => ?_, fun ops told => ?_⟩
    · exact h.running (by simp [may.1])
    · rw [h.running (by simp [may.1])] at told
      cases told
  | write => exact h.written_next lays moves
  | finish => exact h.finished moves

theorem faithful_of_reachable (lays : Lays capnp replyWords (Replies these))
    (reached : (machine capnp selection).ReachableUnder (Fitting selection these) s) : Faithful these s := by
  refine Machine.ReachableUnder.invariant (P := Faithful these) ?_
    (fun s action t h fitting moves => h.next lays fitting moves) reached
  refine ⟨Machine.Reachable.start, ⟨fun i mem => ?_, fun i offer found => ?_, fun _ => rfl, fun _ => rfl,
    fun _ => rfl⟩, fun offer mem => ?_, le_rfl, fun _ => rfl, fun _ => rfl, fun _ => rfl, fun ops told => ?_⟩
  · exact absurd mem (Finset.notMem_empty i)
  · cases found
  · cases mem
  · cases told

end Runs

section Single

def everything : Selection :=
  ⟨.none, .none, true, 1, true⟩

def readIds : IdsEvent :=
  ⟨none, none, some 0, none, some ⟨"read", by unfold Short; decide⟩⟩

def readRecord (body : Bytes) : Record :=
  ⟨0, .exchange ⟨"client", readIds.toIds, 1, [], 0, body, 0, "replied", 0⟩⟩

def readTap (body : Bytes) (bytes : ℕ) (stage : Stage) (queue : List Record) (receiving : Option Record)
    (received pushed : List Record) : Tap :=
  ⟨bytes, queue, 0, 0, [⟨readRecord body, stage⟩], receiving, received, pushed⟩

def readSeen : Census :=
  Census.counted ∅ "read" fun c => { c with seen := c.seen + 1 }

def readCounted : Census :=
  readSeen.counted "read" fun c => { c with sampled := c.sampled + 1 }

/-- A capture of this exchange alone, after it has ended. -/
def reading (tap : Tap) (census : Census) (pending : Finset ℕ) (handled : ℕ) (phase : Phase)
    (report : Option (List CensusOp)) : Capture :=
  ⟨tap, census, [none], pending, handled, phase, [], ["read"], report⟩

variable {capnp : Capnp ControlSchema.ControlReply} {body : Bytes}

theorem size_readRecord (allowed : body.length ≤ maxFrame) : size (readRecord body) ≤ 256 + maxFrame := by
  change 256 + 0 + body.length ≤ _
  omega

theorem offer_readRecord (allowed : body.length ≤ maxFrame) :
    TapQueue.step TapQueue.machine.initial (.offer (readRecord body)) =
      some (readTap body 0 .begun [] none [] []) := by
  have small := size_readRecord allowed
  have live : TapQueue.machine.initial.live = 0 := rfl
  refine if_pos ⟨rfl, ?_, by decide⟩
  rw [live]
  unfold maxFrame at small
  omega

/-- The exchange after it was chosen and before its reply. -/
def readOpen : Capture :=
  ⟨TapQueue.machine.initial, readSeen, [some ⟨[true], .client, readIds, none, abandoned⟩], ∅, 0, .streaming, [], [],
    none⟩

theorem step_reply (allowed : body.length ≤ maxFrame) :
    (machine capnp everything).step readOpen (.reply 0 body none 0 0) =
      some (reading (readTap body 0 .begun [] none [] []) readSeen {0} 0 .streaming none) := by
  have whole : frameBody body none = true := by simp [frameBody, allowed]
  have delivered : delivers everything readOpen (.reply 0 body none 0 0) = some (readRecord body) := if_pos whole
  change (delivers everything readOpen (.reply 0 body none 0 0)).bind _ = _
  rw [delivered, bind_some]
  change (match some "read", TapQueue.step TapQueue.machine.initial (.offer (readRecord body)) with
    | some op, some tap => _
    | _, _ => _) = _
  rw [offer_readRecord allowed]
  rfl

theorem step_sending (allowed : body.length ≤ maxFrame) :
    (machine capnp everything).step
        (reading (readTap body 0 .sending [] none [] []) readSeen {0} 0 .streaming none) (.advance 0 true) =
      some (reading (readTap body (fetchAdd 0 (size (readRecord body))) .queueing [] none [] []) readSeen {0} 0
        .streaming none) := by
  have small := size_readRecord allowed
  have room : ¬tapBytes < 0 + size (readRecord body) := by
    unfold tapBytes
    unfold maxFrame at small
    omega
  have moves : TapQueue.advance (readTap body 0 .sending [] none [] []) (readRecord body) true .sending =
      some (readTap body (fetchAdd 0 (size (readRecord body))) .sending [] none [] [], .queueing) := by
    change some (_, if tapBytes < 0 + size (readRecord body) then Stage.returning else Stage.queueing) = _
    rw [if_neg room]
    rfl
  have stepped : TapQueue.step (readTap body 0 .sending [] none [] []) (.step 0 true) =
      some (readTap body (fetchAdd 0 (size (readRecord body))) .queueing [] none [] []) := by
    change (TapQueue.advance (readTap body 0 .sending [] none [] []) (readRecord body) true .sending).map
      (fun next => { next.1 with offers := next.1.offers.set 0 ⟨readRecord body, next.2⟩ }) = _
    rw [moves]
    rfl
  change (TapQueue.step (readTap body 0 .sending [] none [] []) (.step 0 true)).map
    (fun tap => reading tap readSeen {0} 0 .streaming none) = _
  rw [stepped]
  rfl

/-- A record that is too large for a frame is counted as sampled and is not written. -/
theorem reachable_unwritten (allowed : body.length ≤ maxFrame) {n : ℕ}
    (refused : encode capnp (ControlReply.record (readRecord body)) = .error (.tooLarge n)) :
    ∃ bytes, (machine capnp everything).Reachable
      (reading (readTap body bytes (.done true) [] none [readRecord body] [readRecord body]) readCounted ∅ 1
        .asked none) := by
  have start : (machine capnp everything).Reachable readOpen :=
    Machine.Reachable.start.next (show (machine capnp everything).step _ (.sample [] .client readIds) = some _ from rfl)
  have ended := start.next (step_reply allowed)
  have telling := ended.next (show (machine capnp everything).step _ (.advance 0 true) = some _ from rfl)
  have sending := telling.next (step_sending allowed)
  have queued := sending.next (show (machine capnp everything).step _ (.advance 0 true) = some _ from rfl)
  have counted := queued.next (show (machine capnp everything).step _ (.count 0) = some _ from rfl)
  have taken := counted.next (show (machine capnp everything).step _ .take = some _ from rfl)
  have settled := taken.next (show (machine capnp everything).step _ .settle = some _ from rfl)
  have dealt := settled.next (t := reading (readTap body (fetchSub (fetchAdd 0 (size (readRecord body)))
    (size (readRecord body))) (.done true) [] none [readRecord body] [readRecord body]) readCounted ∅ 1 .streaming
      none) (show (machine capnp everything).step _ (.write false) = _ by
    change (match encode capnp (ControlReply.record (readRecord body)) with
      | .ok _ => _
      | .error (.tooLarge _) => _
      | .error _ => _) = _
    rw [refused]
    rfl)
  exact ⟨_, dealt.next (show (machine capnp everything).step _ .ask = some _ from rfl)⟩

def readCensus : Record :=
  ⟨0, .census readCounted.ops 0⟩

theorem replyWords_pos (reply : ControlSchema.ControlReply) : 0 < replyWords reply := by
  cases reply <;> exact Nat.lt_add_right _ Nat.one_pos

def readCapnp (body : Bytes) : Capnp ControlSchema.ControlReply :=
  .among replyWords
    [Message.build (ControlReply.record (readRecord body)), Message.build (ControlReply.record readCensus)]
    (fun reply _ => replyWords_pos reply) (fun _ _ => Nat.zero_le _) (by simp)

theorem lays_readCapnp (body : Bytes) :
    Lays (readCapnp body) replyWords (Replies {record | record = readRecord body ∨ record = readCensus}) := by
  refine lays_among _ _ _ _ _ _ ?_
  rintro _ ⟨record, rfl | rfl, rfl⟩ <;> simp

theorem encode_readCensus (body : Bytes) :
    ∃ frame, encode (readCapnp body) (ControlReply.record readCensus) = .ok frame := by
  obtain ⟨segment, encoded, length⟩ := encode_of_lays (lays_readCapnp body) (ControlReply.record readCensus)
    ⟨readCensus, .inr rfl, rfl⟩ (by decide) (by decide)
  have short : 8 + segment.length ≤ maxFrame := by
    rw [length]
    decide
  obtain ⟨frame, framed, -⟩ := frameOneSegment_of_le short
  exact ⟨frame, encoded.trans framed⟩

end Single

/-- If every exchange and event frame that is delivered makes a record that fits a frame, the census
counts as sampled, for each operation, the records the subscriber got, and everything chosen that has
ended is either among them or counted as dropped. -/
theorem census_accounts (capnp : Capnp ControlSchema.ControlReply) (selection : Selection) (these : Set Record)
    (lays : Lays capnp replyWords (Replies these)) (s : Capture)
    (reached : (machine capnp selection).ReachableUnder (Fitting selection these) s) (ops : List CensusOp)
    (told : s.report = some ops) :
    (∀ entry ∈ ops, entry.sampled.toNat = s.written.countP (isOf entry.op) ∧
      s.ended.count entry.op = s.written.countP (isOf entry.op) + entry.dropped.toNat) ∧
    ∀ op, (∀ entry ∈ ops, entry.op ≠ op) → s.written.countP (isOf op) = 0 ∧ s.ended.count op = 0 := by
  have accounts := (faithful_of_reachable lays reached).report ops told
  exact ⟨accounts.listed, accounts.absent⟩

/-- A read answered by an empty frame, from its choosing to the census. -/
theorem census_accounts_read : ∃ (capnp : Capnp ControlSchema.ControlReply) (these : Set Record) (s : Capture),
    (machine capnp everything).ReachableUnder (Fitting everything these) s ∧
      s.report = some [⟨"read", 1, 1, 0⟩] ∧ s.written.countP (isOf "read") = 1 ∧ s.ended.count "read" = 1 := by
  obtain ⟨s, reached, told⟩ := (machine (readCapnp []) everything).exists_of_runWhile
    (by decide +kernel : ((machine (readCapnp []) everything).runWhile
        (fun s action => (delivers everything s action).all fun record => decide (record = readRecord []))
        (machine (readCapnp []) everything).initial
        ([.sample [] .client readIds, .reply 0 [] none 0 0] ++ List.replicate 3 (.advance 0 true) ++
          [.count 0, .take, .settle, .write false, .ask, .finish 0])).any
      (fun s => decide (s.report = some [⟨"read", 1, 1, 0⟩])) = true)
  have fits : recordBytes (readRecord []) ≤ maxFrame := by decide
  have fitting : (machine (readCapnp []) everything).ReachableUnder
      (Fitting everything {record | record = readRecord [] ∨ record = readCensus}) s := by
    refine reached.invariant .initial fun s action t before meets moves => ?_
    refine .step before (fun record delivered => ?_) moves
    rw [delivered, Option.all_some, decide_eq_true_eq] at meets
    rw [meets]
    exact ⟨.inl rfl, fits⟩
  have told := of_decide_eq_true told
  have accounts := census_accounts _ _ _ (lays_readCapnp []) s fitting _ told
  obtain ⟨sampled, ended⟩ := accounts.1 _ (List.mem_singleton.mpr rfl)
  exact ⟨_, _, s, fitting, told, sampled.symm, ended.trans (by rw [← sampled]; rfl)⟩

/-- A read answered by a frame as long as frames may be: it is counted as sampled, and was not written. -/
theorem oversized_record_left_out : ∃ (capnp : Capnp ControlSchema.ControlReply) (these : Set Record) (s : Capture)
    (ops : List CensusOp), Lays capnp replyWords (Replies these) ∧ (machine capnp everything).Reachable s ∧
      s.report = some ops ∧ (∃ entry ∈ ops, entry.op = "read" ∧ entry.sampled = 1 ∧ entry.dropped = 0) ∧
        s.written.countP (isOf "read") = 0 ∧ s.ended.count "read" = 1 := by
  obtain ⟨body, length⟩ : ∃ body : Bytes, body.length = maxFrame := ⟨List.replicate maxFrame 0, List.length_replicate⟩
  have lays := lays_readCapnp body
  have long : maxFrame < recordBytes (readRecord body) := by
    change maxFrame < 8 + 8 * (1 + (1 + 1 + (10 + 5 + (_ + (_ + (_ + (WordLayout.blob body.length + (_ + 0))))) + 0)))
    rw [length]
    unfold WordLayout.blob maxFrame
    omega
  have terse : Terse (readRecord body) := ⟨Side.short_name .client, readIds.short_op, replied.short⟩
  have small : Message.sizeHint (ControlReply.record (readRecord body)) < 2 ^ 32 := by
    change 48 + (0 + body.length) / 8 < 2 ^ 32
    rw [length]
    decide
  have refused := encode_record_of_lt lays ⟨readRecord body, .inl rfl, rfl⟩ terse small long
  obtain ⟨bytes, reached⟩ := reachable_unwritten (le_of_eq length) refused
  obtain ⟨frame, encoded⟩ := encode_readCensus body
  let tap := readTap body bytes (.done true) [] none [readRecord body] [readRecord body]
  have moves : (machine (readCapnp body) everything).step (reading tap readCounted ∅ 1 .asked none) (.finish 0) =
      some (reading tap readCounted ∅ 1 .closed (some readCounted.ops)) := by
    change (match encode (readCapnp body) (ControlReply.record readCensus) with
      | .ok _ => some (reading tap readCounted ∅ 1 .closed (some readCounted.ops))
      | .error _ => some (reading tap readCounted ∅ 1 .closed none)) = _
    rw [encoded]
  have finished := reached.next moves
  exact ⟨_, _, _, _, lays, finished, rfl, ⟨⟨"read", 1, 1, 0⟩, by decide, rfl, rfl, rfl⟩, rfl, rfl⟩

end JackalopeFs.CaptureCensus
