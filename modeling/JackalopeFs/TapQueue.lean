import JackalopeFs.ControlMessages

/-! # The queue of a tap

Records for a subscriber wait in a queue that is bounded in records and in bytes.  A
producer reserves the bytes of a record in a shared counter, gives them back if that
passes the bound or if the queue is full, and counts what it could not queue; before its
own record it queues a note of what was dropped since the last note.  The receiver takes a
record and then gives its bytes back.  Each of these is one step here, and the steps of any
number of offers and of the receiver come in any order.  Nobody else offers such a note.

Trying to queue may fail though there is room, since a place comes free only after its
record has been taken.  The counters are words, so adding and taking away may wrap around.
Two things are asked of the process: the records that are offered, queued or being received
are in memory, so their sizes together are less than a word can count, and it does not live
to make as many offers as that.  The receiver stays until the end.
-/

namespace JackalopeFs.TapQueue

open ControlMessages IndexedCells List TransitionRuns

def tapRecords : ℕ := 1024

/-- Bytes of records a tap holds at most before it drops. -/
def tapBytes : ℕ := 32 * 2 ^ 20

def size (record : Record) : ℕ :=
  match record.what with
  | .event _ _ detail => 128 + detail.utf8ByteSize
  | .request summary => 192 + 32 * summary.phases.length
  | .exchange x => 256 + x.request.length + x.reply.length
  | .undecodable _ _ _ body | .eventFrame _ _ _ _ body => 192 + body.length
  | .dropped _ | .header _ | .census _ _ => 64

def queueSize (queue : List Record) : ℕ :=
  (queue.map size).sum

def tells (record : Record) : ℕ :=
  match record.what with
  | .dropped count => count.toNat
  | _ => 0

def isNote (record : Record) : Bool :=
  match record.what with
  | .dropped _ => true
  | _ => false

def toldRecord (record : Record) (count : ℕ) : Record :=
  ⟨record.atNs, .dropped (.ofNat count)⟩

inductive Stage where
  | begun
  | telling (count : ℕ)
  | tellQueueing (count : ℕ)
  | tellReturning (count : ℕ)
  | restoring (count : ℕ)
  | sending
  | queueing
  | returning
  | counting
  | countingEver
  | done (taken : Bool)
  deriving DecidableEq, Repr

structure Offer where
  record : Record
  stage : Stage
  deriving DecidableEq, Repr

/-- A tap with the offers ever made to it.  `received` and `pushed` are what the receiver has returned and
what was ever queued. -/
structure Tap where
  bytes : ℕ
  queue : List Record
  dropped : ℕ
  droppedEver : ℕ
  offers : List Offer
  receiving : Option Record
  received : List Record
  pushed : List Record

inductive Action where
  | offer (record : Record)
  | step (i : ℕ) (room : Bool)
  | take
  | settle

section Machine

def fetchAdd (bytes n : ℕ) : ℕ :=
  (bytes + n) % 2 ^ 64

def fetchSub (bytes n : ℕ) : ℕ :=
  if n ≤ bytes then bytes - n else bytes + 2 ^ 64 - n

namespace Tap

def push (s : Tap) (record : Record) : Tap :=
  { s with queue := s.queue ++ [record], pushed := s.pushed ++ [record] }

end Tap

def advance (s : Tap) (record : Record) (room : Bool) : Stage → Option (Tap × Stage)
  | .begun =>
    some ({ s with dropped := 0 }, if 0 < s.dropped then .telling s.dropped else .sending)
  | .telling count =>
    some ({ s with bytes := fetchAdd s.bytes (size (toldRecord record count)) },
      if tapBytes < s.bytes + size (toldRecord record count) then .tellReturning count
      else .tellQueueing count)
  | .tellQueueing count =>
    if room then
      if s.queue.length < tapRecords then some (s.push (toldRecord record count), .sending) else none
    else some (s, .tellReturning count)
  | .tellReturning count =>
    some ({ s with bytes := fetchSub s.bytes (size (toldRecord record count)) }, .restoring count)
  | .restoring count => some ({ s with dropped := s.dropped + count }, .sending)
  | .sending =>
    some ({ s with bytes := fetchAdd s.bytes (size record) },
      if tapBytes < s.bytes + size record then .returning else .queueing)
  | .queueing =>
    if room then
      if s.queue.length < tapRecords then some (s.push record, .done true) else none
    else some (s, .returning)
  | .returning => some ({ s with bytes := fetchSub s.bytes (size record) }, .counting)
  | .counting => some ({ s with dropped := s.dropped + 1 }, .countingEver)
  | .countingEver => some ({ s with droppedEver := s.droppedEver + 1 }, .done false)
  | .done _ => none

/-- The bytes of the records that an offer holds in memory, its note included. -/
def Offer.live (offer : Offer) : ℕ :=
  match offer.stage with
  | .done _ => 0
  | .sending | .queueing | .returning | .counting | .countingEver => size offer.record
  | _ => size offer.record + 64

def Tap.live (s : Tap) : ℕ :=
  queueSize s.queue + (s.offers.map Offer.live).sum + (s.receiving.map size).getD 0

def step (s : Tap) : Action → Option Tap
  | .offer record =>
    if isNote record = false ∧ s.live + (size record + 64) < 2 ^ 64 ∧ s.offers.length + 1 < 2 ^ 64 then
      some { s with offers := s.offers ++ [⟨record, .begun⟩] }
    else none
  | .step i room =>
    match s.offers[i]? with
    | some offer =>
      (advance s offer.record room offer.stage).map fun next =>
        { next.1 with offers := next.1.offers.set i ⟨offer.record, next.2⟩ }
    | none => none
  | .take =>
    match s.receiving, s.queue with
    | none, record :: rest => some { s with queue := rest, receiving := some record }
    | _, _ => none
  | .settle =>
    match s.receiving with
    | some record =>
      some { s with
        bytes := fetchSub s.bytes (size record)
        receiving := none
        received := s.received ++ [record] }
    | none => none

def machine : Machine Tap Action :=
  ⟨⟨0, [], 0, 0, [], none, [], []⟩, step⟩

end Machine

section Accounts

/-- The bytes an offer has added to the counter and not given back. -/
def Offer.reserved (offer : Offer) : ℕ :=
  match offer.stage with
  | .tellQueueing _ | .tellReturning _ => 64
  | .queueing | .returning => size offer.record
  | _ => 0

def Offer.granted (offer : Offer) : ℕ :=
  match offer.stage with
  | .tellQueueing _ => 64
  | .queueing => size offer.record
  | _ => 0

/-- The drops an offer is about to tell of or to put back. -/
def Offer.held (offer : Offer) : ℕ :=
  match offer.stage with
  | .telling count | .tellQueueing count | .tellReturning count | .restoring count => count
  | _ => 0

/-- An offer whose record was dropped, as the count since the last note sees it. -/
def Offer.lost (offer : Offer) : ℕ :=
  match offer.stage with
  | .countingEver | .done false => 1
  | _ => 0

def Offer.refused (offer : Offer) : ℕ :=
  match offer.stage with
  | .done false => 1
  | _ => 0

def total (account : Offer → ℕ) (s : Tap) : ℕ :=
  (s.offers.map account).sum

structure Sound (s : Tap) : Prop where
  bytes : s.bytes = queueSize s.queue + total Offer.reserved s + (s.receiving.map size).getD 0
  granted : queueSize s.queue + total Offer.granted s ≤ tapBytes
  records : s.queue.length ≤ tapRecords
  live : s.live < 2 ^ 64
  told : (s.pushed.map tells).sum + s.dropped + total Offer.held s = total Offer.lost s
  ever : s.droppedEver = total Offer.refused s
  order : s.received ++ s.receiving.toList ++ s.queue = s.pushed
  offers : s.offers.length < 2 ^ 64
  plain : ∀ offer ∈ s.offers, isNote offer.record = false

end Accounts

section Words

theorem fetchAdd_eq {bytes n : ℕ} (fits : bytes + n < 2 ^ 64) : fetchAdd bytes n = bytes + n :=
  Nat.mod_eq_of_lt fits

theorem fetchSub_eq {bytes n : ℕ} (enough : n ≤ bytes) : fetchSub bytes n = bytes - n :=
  if_pos enough

@[simp] theorem size_toldRecord (record : Record) (count : ℕ) : size (toldRecord record count) = 64 :=
  rfl

theorem tells_toldRecord (record : Record) {count : ℕ} (small : count < 2 ^ 64) :
    tells (toldRecord record count) = count :=
  Nat.mod_eq_of_lt small

theorem tells_of_not_isNote {record : Record} (plain : isNote record = false) : tells record = 0 := by
  unfold isNote at plain
  unfold tells
  split <;> simp_all

@[simp] theorem queueSize_append (front back : List Record) :
    queueSize (front ++ back) = queueSize front + queueSize back := by
  simp [queueSize]

@[simp] theorem queueSize_nil : queueSize [] = 0 :=
  rfl

@[simp] theorem queueSize_cons (record : Record) (rest : List Record) :
    queueSize (record :: rest) = size record + queueSize rest := by
  simp [queueSize]

end Words

section Steps

variable {s t : Tap} {i : ℕ} {offer : Offer}

theorem total_write (account : Offer → ℕ) (found : s.offers[i]? = some offer) (new : Offer)
    (same : t.offers = s.offers.set i new) :
    total account t + account offer = total account s + account new := by
  unfold total
  rw [same]
  exact sum_map_write account new found

theorem le_total (account : Offer → ℕ) (found : s.offers[i]? = some offer) :
    account offer ≤ total account s :=
  single_le_sum (fun _ _ => Nat.zero_le _) _ (mem_map_of_mem (mem_of_getElem? found))

theorem total_le_length {account : Offer → ℕ} (one : ∀ offer, account offer ≤ 1) :
    total account s ≤ s.offers.length := by
  have := sum_le_card_nsmul (s.offers.map account) 1 (by simpa using fun o _ => one o)
  simpa [total] using this

theorem Offer.lost_le_one (offer : Offer) : offer.lost ≤ 1 := by
  unfold Offer.lost
  split <;> simp

theorem Sound.held_lt (h : Sound s) (found : s.offers[i]? = some offer) : offer.held < 2 ^ 64 := by
  have held := le_total Offer.held found
  have lost := total_le_length (s := s) Offer.lost_le_one
  have := h.told
  have := h.offers
  omega

theorem reserved_le_live (offer : Offer) : offer.reserved ≤ offer.live := by
  unfold Offer.reserved Offer.live
  cases offer.stage <;> simp

theorem total_reserved_le_live (s : Tap) : total Offer.reserved s ≤ total Offer.live s :=
  sum_le_sum fun offer _ => reserved_le_live offer

theorem granted_le_reserved (s : Tap) : total Offer.granted s ≤ total Offer.reserved s := by
  refine sum_le_sum fun offer _ => ?_
  unfold Offer.granted Offer.reserved
  cases offer.stage <;> simp

/-- What the counter holds, and what an offer may still add to it, is in memory. -/
theorem reserved_add_le (found : s.offers[i]? = some offer) :
    total Offer.reserved s + offer.live ≤ total Offer.live s + offer.reserved := by
  have parts : total (fun o => o.live - o.reserved) s + total Offer.reserved s = total Offer.live s := by
    unfold total
    rw [← sum_map_add]
    congr 1
    exact map_congr_left fun o _ => Nat.sub_add_cancel (reserved_le_live o)
  have own := le_total (fun o => o.live - o.reserved) found
  omega

variable {record : Record}

theorem Sound.offered (h : Sound s) (plain : isNote record = false)
    (room : s.live + (size record + 64) < 2 ^ 64) (few : s.offers.length + 1 < 2 ^ 64) :
    Sound { s with offers := s.offers ++ [⟨record, .begun⟩] } := by
  have account : ∀ account : Offer → ℕ, total account { s with offers := s.offers ++ [⟨record, .begun⟩] } =
      total account s + account ⟨record, .begun⟩ := by
    intro account
    simp [total]
  refine ⟨?_, ?_, h.records, ?_, ?_, ?_, h.order, ?_, ?_⟩
  · rw [account]
    exact h.bytes
  · rw [account]
    exact h.granted
  · have same : ({ s with offers := s.offers ++ [⟨record, .begun⟩] } : Tap).live =
        s.live + (size record + 64) := by
      simp only [Tap.live, map_append, sum_append, map_cons, map_nil, sum_cons,
        sum_nil, Offer.live]
      omega
    rw [same]
    exact room
  · rw [account, account]
    exact h.told
  · rw [account]
    exact h.ever
  · simpa using few
  · intro offer mem
    obtain mem | mem := mem_append.mp mem
    · exact h.plain offer mem
    · rw [mem_singleton.mp mem]
      exact plain

/-- What an atomic step of one offer leaves to be shown: its own accounts move with the counters. -/
theorem Sound.moved (h : Sound s) (found : s.offers[i]? = some offer) {stage : Stage}
    (offers : t.offers = s.offers.set i ⟨offer.record, stage⟩) (receiving : t.receiving = s.receiving)
    (received : t.received = s.received)
    (bytes : t.bytes + offer.reserved + queueSize s.queue =
      s.bytes + Offer.reserved ⟨offer.record, stage⟩ + queueSize t.queue)
    (granted : queueSize t.queue + total Offer.granted s + Offer.granted ⟨offer.record, stage⟩ ≤
      tapBytes + offer.granted)
    (records : t.queue.length ≤ tapRecords)
    (live : queueSize t.queue + Offer.live ⟨offer.record, stage⟩ ≤ queueSize s.queue + offer.live)
    (told : (t.pushed.map tells).sum + t.dropped + Offer.held ⟨offer.record, stage⟩ + offer.lost =
      (s.pushed.map tells).sum + s.dropped + offer.held + Offer.lost ⟨offer.record, stage⟩)
    (ever : t.droppedEver + offer.refused = s.droppedEver + Offer.refused ⟨offer.record, stage⟩)
    (order : ∃ new, t.queue = s.queue ++ new ∧ t.pushed = s.pushed ++ new) : Sound t := by
  have account := fun account => total_write account found _ offers
  have reserved := account Offer.reserved
  have grants := account Offer.granted
  have lives := account Offer.live
  have helds := account Offer.held
  have losts := account Offer.lost
  have refuseds := account Offer.refused
  refine ⟨?_, ?_, records, ?_, ?_, ?_, ?_, ?_, ?_⟩
  · have := h.bytes
    rw [receiving]
    omega
  · omega
  · have := h.live
    unfold Tap.live at this ⊢
    unfold total at lives
    rw [receiving]
    omega
  · have := h.told
    omega
  · have := h.ever
    omega
  · obtain ⟨new, queue, pushed⟩ := order
    rw [received, receiving, queue, pushed, ← h.order, append_assoc (s.received ++ _)]
  · rw [offers, length_set]
    exact h.offers
  · intro other mem
    rw [offers] at mem
    obtain mem | rfl := mem_or_eq_of_mem_set mem
    · exact h.plain other mem
    · exact h.plain offer (mem_of_getElem? found)

theorem Sound.advanced (h : Sound s) (found : s.offers[i]? = some offer) {room : Bool} {next : Tap × Stage}
    (moves : advance s offer.record room offer.stage = some next) :
    Sound { next.1 with offers := next.1.offers.set i ⟨offer.record, next.2⟩ } := by
  obtain ⟨record, stage⟩ := offer
  have bytes := h.bytes
  have granted := h.granted
  have live : queueSize s.queue + total Offer.live s + (s.receiving.map size).getD 0 < 2 ^ 64 := h.live
  have reserved := le_total Offer.reserved found
  have small := h.held_lt found
  have memory := reserved_add_le found
  have within := granted_le_reserved s
  have plain := tells_of_not_isNote (h.plain _ (mem_of_getElem? found))
  cases stage with
  | begun =>
    by_cases some_ : 0 < s.dropped
    · rw [advance, if_pos some_] at moves
      cases moves
      exact h.moved found rfl rfl rfl rfl (by simpa [Offer.granted] using granted) h.records
        (by simp [Offer.live]) (by simp [Offer.held, Offer.lost]) rfl ⟨[], by simp⟩
    · rw [advance, if_neg some_] at moves
      cases moves
      exact h.moved found rfl rfl rfl rfl (by simpa [Offer.granted] using granted) h.records
        (by simp [Offer.live]) (by simp [Offer.held, Offer.lost]; omega) rfl ⟨[], by simp⟩
  | telling =>
    simp only [Offer.live, Offer.reserved] at memory
    have fits : fetchAdd s.bytes 64 = s.bytes + 64 := fetchAdd_eq (by omega)
    rw [advance, size_toldRecord, fits] at moves
    by_cases over' : tapBytes < s.bytes + 64
    · rw [if_pos over'] at moves
      cases moves
      exact h.moved found rfl rfl rfl (by simp [Offer.reserved]) (by simpa [Offer.granted] using granted)
        h.records (by simp [Offer.live]) rfl rfl ⟨[], by simp⟩
    · rw [if_neg over'] at moves
      cases moves
      exact h.moved found rfl rfl rfl (by simp [Offer.reserved]) (by simp [Offer.granted]; omega)
        h.records (by simp [Offer.live]) rfl rfl ⟨[], by simp⟩
  | tellQueueing count =>
    have told : tells (toldRecord record count) = count := tells_toldRecord record small
    rw [advance] at moves
    split_ifs at moves with isRoom free
    · cases moves
      exact h.moved found rfl rfl rfl (by simp [Tap.push, Offer.reserved]; omega)
        (by simp [Tap.push, Offer.granted]; omega) (by simp [Tap.push]; omega)
        (by simp [Tap.push, Offer.live]; omega) (by simp [Tap.push, Offer.held, Offer.lost, told]; omega)
        rfl ⟨[toldRecord record count], rfl, rfl⟩
    · cases moves
      exact h.moved found rfl rfl rfl rfl (by simp [Offer.granted]; omega) h.records
        (by simp [Offer.live]) rfl rfl ⟨[], by simp⟩
  | tellReturning =>
    have enough : 64 ≤ total Offer.reserved s := reserved
    simp only [Offer.live, Offer.reserved] at memory
    have back : fetchSub s.bytes 64 = s.bytes - 64 := fetchSub_eq (by omega)
    cases moves
    exact h.moved found rfl rfl rfl (by simp [Offer.reserved]; omega) (by simpa [Offer.granted] using granted)
      h.records (by simp [Offer.live]) rfl rfl ⟨[], by simp⟩
  | restoring =>
    cases moves
    exact h.moved found rfl rfl rfl rfl (by simpa [Offer.granted] using granted) h.records
      (by simp [Offer.live]) (by simp [Offer.held, Offer.lost]; omega) rfl ⟨[], by simp⟩
  | sending =>
    simp only [Offer.live, Offer.reserved] at memory
    have fits : fetchAdd s.bytes (size record) = s.bytes + size record := fetchAdd_eq (by omega)
    rw [advance, fits] at moves
    by_cases over' : tapBytes < s.bytes + size record
    · rw [if_pos over'] at moves
      cases moves
      exact h.moved found rfl rfl rfl (by simp [Offer.reserved]) (by simpa [Offer.granted] using granted)
        h.records (by simp [Offer.live]) rfl rfl ⟨[], by simp⟩
    · rw [if_neg over'] at moves
      cases moves
      exact h.moved found rfl rfl rfl (by simp [Offer.reserved]) (by simp [Offer.granted]; omega)
        h.records (by simp [Offer.live]) rfl rfl ⟨[], by simp⟩
  | queueing =>
    have none_ : tells record = 0 := plain
    rw [advance] at moves
    split_ifs at moves with isRoom free
    · cases moves
      exact h.moved found rfl rfl rfl (by simp [Tap.push, Offer.reserved]; omega)
        (by simp [Tap.push, Offer.granted]; omega) (by simp [Tap.push]; omega)
        (by simp [Tap.push, Offer.live]) (by simp [Tap.push, Offer.held, Offer.lost, none_]) rfl
        ⟨[record], rfl, rfl⟩
    · cases moves
      exact h.moved found rfl rfl rfl rfl (by simp [Offer.granted]; omega) h.records
        (by simp [Offer.live]) rfl rfl ⟨[], by simp⟩
  | returning =>
    have enough : size record ≤ total Offer.reserved s := reserved
    simp only [Offer.live, Offer.reserved] at memory
    have back : fetchSub s.bytes (size record) = s.bytes - size record := fetchSub_eq (by omega)
    rw [advance, back] at moves
    cases moves
    exact h.moved found rfl rfl rfl (by simp [Offer.reserved]; omega) (by simpa [Offer.granted] using granted)
      h.records (by simp [Offer.live]) rfl rfl ⟨[], by simp⟩
  | counting =>
    cases moves
    exact h.moved found rfl rfl rfl rfl (by simpa [Offer.granted] using granted) h.records
      (by simp [Offer.live]) (by simp [Offer.held, Offer.lost]; omega) rfl ⟨[], by simp⟩
  | countingEver =>
    cases moves
    exact h.moved found rfl rfl rfl rfl (by simpa [Offer.granted] using granted) h.records
      (by simp [Offer.live]) rfl (by simp [Offer.refused]) ⟨[], by simp⟩
  | done => cases moves

theorem Sound.taken (h : Sound s) {rest : List Record} (idle : s.receiving = none)
    (queue : s.queue = record :: rest) :
    Sound { s with queue := rest, receiving := some record } := by
  have bytes := h.bytes
  have granted := h.granted
  have live := h.live
  have records := h.records
  have order := h.order
  unfold Tap.live at live
  rw [idle, queue] at bytes live order
  rw [queue] at granted records
  simp only [queueSize_cons, Option.map_none, Option.getD_none, length_cons] at bytes granted live records
  refine ⟨?_, ?_, ?_, ?_, h.told, h.ever, ?_, h.offers, h.plain⟩
  · change s.bytes = queueSize rest + total Offer.reserved s + size record
    omega
  · change queueSize rest + total Offer.granted s ≤ tapBytes
    omega
  · change rest.length ≤ tapRecords
    omega
  · change queueSize rest + (s.offers.map Offer.live).sum + size record < 2 ^ 64
    omega
  · simpa using order

theorem Sound.settled (h : Sound s) (holds : s.receiving = some record) :
    Sound { s with
      bytes := fetchSub s.bytes (size record)
      receiving := none
      received := s.received ++ [record] } := by
  have bytes := h.bytes
  have live := h.live
  have order := h.order
  unfold Tap.live at live
  rw [holds] at bytes live order
  simp only [Option.map_some, Option.getD_some, total] at bytes live
  have back : fetchSub s.bytes (size record) = s.bytes - size record := fetchSub_eq (by omega)
  rw [back]
  refine ⟨?_, h.granted, h.records, ?_, h.told, h.ever, ?_, h.offers, h.plain⟩
  · change s.bytes - size record = queueSize s.queue + (s.offers.map Offer.reserved).sum + 0
    omega
  · change queueSize s.queue + (s.offers.map Offer.live).sum + 0 < 2 ^ 64
    omega
  · simpa using order

theorem of_step_offer (moves : step s (.offer record) = some t) :
    isNote record = false ∧ s.live + (size record + 64) < 2 ^ 64 ∧ s.offers.length + 1 < 2 ^ 64 ∧
      t = { s with offers := s.offers ++ [⟨record, .begun⟩] } := by
  simp only [step] at moves
  split_ifs at moves with may
  cases moves
  exact ⟨may.1, may.2.1, may.2.2, rfl⟩

theorem of_step_step {room : Bool} (moves : step s (.step i room) = some t) :
    ∃ offer next, s.offers[i]? = some offer ∧ advance s offer.record room offer.stage = some next ∧
      t = { next.1 with offers := next.1.offers.set i ⟨offer.record, next.2⟩ } := by
  simp only [step] at moves
  split at moves
  · rename_i offer found
    obtain ⟨next, moved, rfl⟩ := Option.map_eq_some_iff.mp moves
    exact ⟨offer, next, found, moved, rfl⟩
  · cases moves

theorem of_step_take (moves : step s .take = some t) :
    ∃ record rest, s.receiving = none ∧ s.queue = record :: rest ∧
      t = { s with queue := rest, receiving := some record } := by
  simp only [step] at moves
  split at moves
  · rename_i record rest idle queue
    cases moves
    exact ⟨record, rest, idle, queue, rfl⟩
  · cases moves

theorem of_step_settle (moves : step s .settle = some t) :
    ∃ record, s.receiving = some record ∧
      t = { s with
        bytes := fetchSub s.bytes (size record)
        receiving := none
        received := s.received ++ [record] } := by
  simp only [step] at moves
  split at moves
  · rename_i record holds
    cases moves
    exact ⟨record, holds, rfl⟩
  · cases moves

theorem Sound.next {action : Action} (h : Sound s) (moves : step s action = some t) : Sound t := by
  cases action with
  | offer =>
    obtain ⟨plain, room, few, rfl⟩ := of_step_offer moves
    exact h.offered plain room few
  | step =>
    obtain ⟨offer, next, found, moved, rfl⟩ := of_step_step moves
    exact h.advanced found moved
  | take =>
    obtain ⟨record, rest, idle, queue, rfl⟩ := of_step_take moves
    exact h.taken idle queue
  | settle =>
    obtain ⟨record, holds, rfl⟩ := of_step_settle moves
    exact h.settled holds

theorem sound_of_reachable (reached : machine.Reachable s) : Sound s := by
  refine Machine.Reachable.invariant (P := Sound) ?_ (fun _ _ _ h moves => h.next moves) reached
  exact ⟨rfl, by decide, by decide, by decide, rfl, rfl, rfl, by decide, by simp [machine]⟩

end Steps

section Queued

variable {s t : Tap} {record : Record} {stage : Stage} {room : Bool} {next : Tap × Stage} {i : ℕ}

/-- What a step of an offer leaves alone. -/
theorem advance_frame (moves : advance s record room stage = some next) :
    next.1.offers = s.offers ∧ next.1.receiving = s.receiving ∧ next.1.received = s.received ∧
      ∀ taken, stage ≠ .done taken := by
  cases stage with
  | tellQueueing | queueing =>
    rw [advance] at moves
    split_ifs at moves <;> cases moves <;> simp [Tap.push]
  | done => cases moves
  | _ =>
    rw [advance] at moves
    obtain rfl := Option.some.inj moves
    simp

/-- A step of an offer queues its record, with which it is done, or a note, or nothing. -/
theorem advance_pushed (moves : advance s record room stage = some next) :
    next.1.pushed = s.pushed ∧ next.2 ≠ .done true ∨
      (∃ note, isNote note = true ∧ next.1.pushed = s.pushed ++ [note] ∧ next.2 ≠ .done true) ∨
        next.1.pushed = s.pushed ++ [record] ∧ next.2 = .done true := by
  cases stage with
  | begun | telling | sending =>
    obtain rfl := Option.some.inj moves
    refine .inl ⟨by simp, ?_⟩
    split_ifs <;> simp
  | tellQueueing count =>
    rw [advance] at moves
    split_ifs at moves
    · cases moves
      exact .inr (.inl ⟨toldRecord record count, rfl, rfl, by simp⟩)
    · cases moves
      exact .inl ⟨rfl, by simp⟩
  | queueing =>
    rw [advance] at moves
    split_ifs at moves
    · cases moves
      exact .inr (.inr ⟨rfl, rfl⟩)
    · cases moves
      exact .inl ⟨rfl, by simp⟩
  | done => cases moves
  | _ =>
    rw [advance] at moves
    obtain rfl := Option.some.inj moves
    exact .inl ⟨by simp, by simp⟩

def tookSuch (such : Record → Bool) (offer : Offer) : Bool :=
  such offer.record && decide (offer.stage = .done true)

theorem pushed_of_reachable (reached : machine.Reachable s) {such : Record → Bool}
    (plain : ∀ record, isNote record = true → such record = false) :
    s.pushed.countP such = s.offers.countP (tookSuch such) := by
  refine Machine.Reachable.invariant (P := fun s => s.pushed.countP such = s.offers.countP (tookSuch such))
    rfl (fun s action t h moves => ?_) reached
  cases action with
  | offer =>
    obtain ⟨-, -, -, rfl⟩ := of_step_offer moves
    simpa [tookSuch] using h
  | step i =>
    obtain ⟨offer, next, found, moved, rfl⟩ := of_step_step moves
    obtain ⟨offers, -, -, running⟩ := advance_frame moved
    have write := countP_write (tookSuch such) ⟨offer.record, next.2⟩ found
    have before : tookSuch such offer = false := by simp [tookSuch, running true]
    rw [before, if_neg Bool.false_ne_true, Nat.add_zero, ← h] at write
    rw [offers, write]
    obtain ⟨same, other⟩ | ⟨note, isNote, same, other⟩ | ⟨same, done⟩ := advance_pushed moved
    · rw [same]
      simp [tookSuch, other]
    · rw [same, countP_append]
      simp [tookSuch, other, plain note isNote]
    · rw [same, countP_append]
      simp [tookSuch, done, countP_cons]
  | take =>
    obtain ⟨record, rest, -, -, rfl⟩ := of_step_take moves
    exact h
  | settle =>
    obtain ⟨record, -, rfl⟩ := of_step_settle moves
    exact h

theorem exists_offer_of_pushed (reached : machine.Reachable s) (plain : isNote record = false)
    (mem : record ∈ s.pushed) : ∃ offer ∈ s.offers, offer.record = record := by
  have queued : 0 < s.pushed.countP fun r => decide (r = record) :=
    countP_pos_iff.mpr ⟨record, mem, decide_eq_true rfl⟩
  rw [pushed_of_reachable reached fun r note => decide_eq_false fun same => by
    rw [same, plain] at note
    cases note] at queued
  obtain ⟨offer, mem, took⟩ := countP_pos_iff.mp queued
  exact ⟨offer, mem, of_decide_eq_true (Bool.and_eq_true_iff.mp took).1⟩

end Queued

section Claims

variable {s : Tap}

/-- An offer between the first and the last step of a send. -/
def Offer.sends (offer : Offer) : Bool :=
  match offer.stage with
  | .tellQueueing _ | .tellReturning _ | .queueing | .returning => true
  | _ => false

def Offer.isDone (offer : Offer) : Bool :=
  match offer.stage with
  | .done _ => true
  | _ => false

theorem exists_of_isDone {offer : Offer} (ended : offer.isDone = true) : ∃ taken, offer.stage = .done taken := by
  unfold Offer.isDone at ended
  split at ended
  · exact ⟨_, ‹_›⟩
  · cases ended

theorem total_eq_zero {account : Offer → ℕ} (none_ : ∀ offer ∈ s.offers, account offer = 0) :
    total account s = 0 := by
  unfold total
  rw [map_congr_left none_]
  simp

theorem reserved_eq_zero {offer : Offer} (idle : offer.sends = false) : offer.reserved = 0 := by
  unfold Offer.sends at idle
  unfold Offer.reserved
  cases stage : offer.stage <;> simp_all

theorem done_accounts {offer : Offer} (ended : offer.isDone = true) :
    offer.held = 0 ∧ offer.lost = offer.refused := by
  obtain ⟨taken, stage⟩ := exists_of_isDone ended
  unfold Offer.held Offer.lost Offer.refused
  rw [stage]
  cases taken <;> exact ⟨rfl, rfl⟩

theorem refused_total (s : Tap) :
    total Offer.refused s = s.offers.countP fun offer => decide (offer.stage = .done false) := by
  unfold total
  induction s.offers with
  | nil => rfl
  | cons offer _ ih =>
    have one : offer.refused = if offer.stage = .done false then 1 else 0 := by
      unfold Offer.refused
      cases offer.stage with
      | done taken => cases taken <;> rfl
      | _ => rfl
    rw [map_cons, sum_cons, ih, one, countP_cons, Nat.add_comm]
    simp only [decide_eq_true_eq]

end Claims

/-- Whatever order the steps of offers and receives come in: the counter of bytes is what is queued,
reserved and being received, without ever wrapping around, so it is never less than what is queued and
equals it while nothing is sent or received; both bounds hold; and while no offer is under way the
drops told and those not yet told are the records dropped. -/
theorem tap_counts_exactly {s : Tap} (reached : machine.Reachable s) :
    queueSize s.queue ≤ s.bytes ∧
    (s.bytes = queueSize s.queue + total Offer.reserved s + (s.receiving.map size).getD 0 ∧
      s.bytes < 2 ^ 64) ∧
    ((∀ offer ∈ s.offers, offer.sends = false) → s.receiving = none → s.bytes = queueSize s.queue) ∧
    s.queue.length ≤ tapRecords ∧ queueSize s.queue ≤ tapBytes ∧
    ((∀ offer ∈ s.offers, offer.isDone = true) →
      (s.pushed.map tells).sum + s.dropped = s.droppedEver ∧
        s.droppedEver = s.offers.countP fun offer => decide (offer.stage = .done false)) := by
  have h := sound_of_reachable reached
  have bytes := h.bytes
  refine ⟨by omega, ⟨bytes, ?_⟩, ?_, h.records, ?_, ?_⟩
  · have live := h.live
    have memory := total_reserved_le_live s
    unfold Tap.live at live
    unfold total at bytes memory
    omega
  · intro idle still
    rw [total_eq_zero fun offer mem => reserved_eq_zero (idle offer mem), still] at bytes
    simpa using bytes
  · have := h.granted
    omega
  · intro ended
    have told := h.told
    have ever := h.ever
    rw [total_eq_zero fun offer mem => (done_accounts (ended offer mem)).1] at told
    have same : total Offer.lost s = total Offer.refused s := by
      unfold total
      rw [List.map_congr_left fun offer mem => (done_accounts (ended offer mem)).2]
    exact ⟨by omega, ever.trans (refused_total s)⟩

/-- A record finds no room, and the next offer queues a note of it before its own record. -/
theorem tap_counts_exactly_told : ∃ s, machine.Reachable s ∧ (∀ offer ∈ s.offers, offer.isDone = true) ∧
    s.queue.length = 2 ∧ s.dropped = 0 ∧ s.bytes = queueSize s.queue ∧
    (s.pushed.map tells).sum = 1 ∧ s.droppedEver = 1 := by
  obtain ⟨s, -, reached, holds⟩ := Machine.exists_of_run
    (by decide +kernel : (machine.run
        ([.offer ⟨0, .census [] 0⟩] ++ List.replicate 2 (.step 0 true) ++
          List.replicate 4 (.step 0 false) ++
          [.offer ⟨1, .census [] 0⟩] ++ List.replicate 5 (.step 1 true))).any
      (fun s => decide ((∀ offer ∈ s.offers, offer.isDone = true) ∧ s.queue.length = 2 ∧ s.dropped = 0 ∧
        (∀ offer ∈ s.offers, offer.sends = false) ∧ s.receiving = none ∧
        s.offers.countP (fun offer => decide (offer.stage = .done false)) = 1)) = true)
  obtain ⟨ended, queued, all, idle, still, one⟩ := of_decide_eq_true holds
  obtain ⟨-, -, equal, -, -, counts⟩ := tap_counts_exactly reached
  obtain ⟨told, ever⟩ := counts ended
  exact ⟨s, reached, ended, queued, all, equal idle still, by omega, by omega⟩

end JackalopeFs.TapQueue
