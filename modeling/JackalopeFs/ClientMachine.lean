import JackalopeFs.ClientHandles

/-! # The client's half of the session protocol, as steps that neither wait nor do IO

What a connection carries (`AttachedState`), a call's sends, give-up and resend
(`CallState`), what the end of an open or of a release leaves owed, and a new
session's round of reopens (`ReopenRound`).  An assertion or an unreachable branch of
the source is a refused step.  How these are interleaved by the tasks around them is
the subject of the module on client tasks.
-/

namespace JackalopeFs.ClientMachine

open ClientHandles KeyedTables Option WireRequests

/-- A connection's part in the protocol; `cancels` counts its changes given up on that the server
has not yet said what became of. -/
structure AttachedState where
  generation : ℕ
  cancels : ℕ
  published : Bool
  deriving DecidableEq, Repr

def AttachedState.new (generation : ℕ) : AttachedState :=
  ⟨generation, 0, false⟩

inductive EndCall where
  | replied
  | errno
  | gaveUp
  | failed
  deriving DecidableEq, Repr

/-- Where a call stands: in flight from when its exchange begins. -/
inductive StatusCall where
  | waiting
  | inFlight (generation : ℕ)
  | ended (how : EndCall)
  deriving DecidableEq, Repr

inductive Sendable where
  | no
  | afterCancels
  | now
  deriving DecidableEq, Repr

/-- How an exchange failed with its connection: before its frame was surely carried whole, or after. -/
inductive LossExchange where
  | notSent
  | lost
  deriving DecidableEq, Repr

/-- Whether a request given up on is counted on its connection's pending cancels. -/
def countsGiveUp (inFlight written changes : Bool) : Bool :=
  inFlight && written && changes

structure CallState where
  changes : Bool
  resendable : Bool
  lostOnce : Bool
  minGeneration : ℕ
  attempt : ℕ
  status : StatusCall
  deriving DecidableEq, Repr

namespace CallState

def new (changes resendable : Bool) : CallState :=
  ⟨changes, resendable, false, 0, 0, .waiting⟩

def takes (call : CallState) (attached : AttachedState) : Bool :=
  call.status = .waiting && attached.published && call.minGeneration ≤ attached.generation

/-- Whether the call may be sent now, `pending` being the pending cancels as just read. -/
def sendable (call : CallState) (attached : AttachedState) (pending : ℕ) : Sendable :=
  if call.takes attached = false then .no
  else if call.changes ∧ pending ≠ 0 then .afterCancels
  else .now

/-- The call's request goes out on the connection of `generation`. -/
def sent (call : CallState) (generation : ℕ) : CallState :=
  { call with attempt := call.attempt + 1, status := .inFlight generation }

def answered (call : CallState) (errno : Bool) : CallState :=
  { call with status := .ended (if errno then .errno else .replied) }

/-- The exchange failed with its connection; the flag says whether the call goes on. -/
def lost (call : CallState) (loss : LossExchange) : Option (CallState × Bool) :=
  match call.status with
  | .inFlight generation =>
    let again := { call with minGeneration := generation + 1, status := .waiting }
    match loss with
    | .notSent => some (again, true)
    | .lost =>
      if call.resendable && !call.lostOnce then some ({ again with lostOnce := true }, true)
      else some ({ call with status := .ended .failed }, false)
  | _ => none

/-- The call stops waiting; the flag says whether the give-up is counted. -/
def gaveUp (call : CallState) (written : Bool) : CallState × Bool :=
  ({ call with status := .ended .gaveUp },
    countsGiveUp (match call.status with | .inFlight _ => true | _ => false) written call.changes)

def failed (call : CallState) : CallState :=
  { call with status := .ended .failed }

end CallState

/-- Whether a request whose reply was lost may be sent again, given the records of the handles it
names. -/
def retrySafe (req : Request) (handles : Option HandleRec × Option HandleRec) : Bool :=
  match req with
  | .lookup | .getattr _ | .setattr _ | .readlink | .read _ | .release .. | .fsync _ | .opendir ..
  | .readdir _ | .releasedir .. | .statfs | .getxattr | .listxattr | .access | .copyFileRange ..
  | .fallocate _ | .lseek _ => true
  | .write _ => handles.1.any fun rec => !rec.appends
  | .open _ _ flags => flags &&& oTrunc == 0
  | .create _ _ _ flags => flags &&& (oExcl ||| oTrunc) == 0
  | .setxattr flags => flags == 0
  | .mknod | .mkdir | .unlink | .rmdir | .symlink | .rename | .link | .removexattr => false

/-- What the end of an open leaves: the handle kept, the release of its id owed, or nothing. -/
inductive SettleOpen where
  | keep
  | owe
  | nothing
  deriving DecidableEq, Repr

def openSettled : Except Error Response → SettleOpen
  | .ok (.opened _) => .keep
  | .ok _ => .owe
  | .error .timeout | .error .interrupted | .error .disconnected | .error .protocol => .owe
  | .error _ => .nothing

/-- Whether a release that ended with this result is owed. -/
def releaseOwed : Except Error Response → Bool
  | .error .timeout | .error .disconnected => true
  | _ => false

/-- The releases owed that may be sent on `attached` now, `pending` being its pending cancels. -/
def owedSendable (handles : HandleTable) (attached : AttachedState) (pending : ℕ) : List ℕ :=
  if attached.published && pending = 0 then handles.owedUnsent else []

/-- The kernel releases `fh`: forget it, and say whether to tell the server. -/
def releaseBegins (handles : HandleTable) (fh : ℕ) : HandleTable × Bool :=
  let (left, removed) := handles.remove fh
  (left, !(removed.isSome && handles.isDead fh))

/-- A new session's round of reopens, fixed as it begins. -/
structure ReopenRound where
  unsent : AList fun _ : ℕ => HandleRec
  sending : AList fun _ : ℕ => HandleRec
  reopened : Finset ℕ

namespace ReopenRound

def new (handles : HandleTable) : ReopenRound :=
  ⟨handles.live, ∅, ∅⟩

/-- The reopen of `fh` goes out: the request to send. -/
def send (round : ReopenRound) (fh : ℕ) : Option (ReopenRound × Request) :=
  (round.unsent.lookup fh).map fun rec =>
    ({ round with unsent := round.unsent.erase fh, sending := round.sending.insert fh rec },
      rec.reopenRequest fh)

/-- The reopen of `fh` ended with `outcome`: it keeps the handle alive or has its release owed. -/
def ended (round : ReopenRound) (handles : HandleTable) (fh : ℕ)
    (outcome : Except Error Response) : Option (ReopenRound × HandleTable) :=
  ((round.sending.lookup fh).or (round.unsent.lookup fh)).map fun rec =>
    let left := if (round.sending.lookup fh).isSome then
        { round with sending := round.sending.erase fh }
      else { round with unsent := round.unsent.erase fh }
    let judged := handles.applyReopen fh rec outcome
    if judged.isDead fh || (judged.get fh).isNone then
      (left, judged.owe fh (releaseRequest rec.kind fh))
    else
      ({ left with reopened := insert fh left.reopened }, judged)

/-- Every reopen has ended: the connection may be published. -/
def publishable (round : ReopenRound) : Bool :=
  round.unsent.entries.isEmpty && round.sending.entries.isEmpty

variable {round round' : ReopenRound} {handles handles' : HandleTable} {fh : ℕ}
variable {outcome : Except Error Response}

theorem ended_owes (h : round.ended handles fh outcome = some (round', handles')) :
    handles.Owes handles' := by
  obtain ⟨rec, _, made⟩ := map_eq_some_iff.mp h
  have judged := @HandleTable.owes_applyReopen handles fh rec outcome
  simp only at made
  split_ifs at made <;> cases made
  all_goals first
    | exact judged.trans (HandleTable.owes_owe _)
    | exact judged

/-- The reopen of `fh` is still to be sent or to end. -/
def Pending (round : ReopenRound) (fh : ℕ) : Prop :=
  fh ∈ round.unsent ∨ fh ∈ round.sending

theorem not_pending_of_publishable (h : round.publishable = true) : ¬round.Pending fh := by
  simp only [publishable, Bool.and_eq_true, List.isEmpty_iff] at h
  rintro (mem | mem)
  · rw [AList.mem_keys, AList.keys, h.1] at mem
    cases mem
  · rw [AList.mem_keys, AList.keys, h.2] at mem
    cases mem

theorem send_eq_some {req : Request} (h : round.send fh = some (round', req)) :
    ∃ rec, round.unsent.lookup fh = some rec ∧ req = rec.reopenRequest fh ∧
      round'.unsent = round.unsent.erase fh ∧ round'.sending = round.sending.insert fh rec := by
  obtain ⟨rec, found, made⟩ := map_eq_some_iff.mp h
  cases made
  exact ⟨rec, found, rfl, rfl, rfl⟩

theorem pending_send {req : Request} (h : round.send fh = some (round', req)) (j : ℕ) :
    round'.Pending j ↔ round.Pending j := by
  obtain ⟨rec, found, _, unsent, sending⟩ := send_eq_some h
  have here : fh ∈ round.unsent := AList.lookup_isSome.mp (by simp [found])
  rw [Pending, Pending, unsent, sending, AList.mem_erase, AList.mem_insert]
  by_cases same : j = fh
  · simp [same, here]
  · simp [same]

theorem ended_round (h : round.ended handles fh outcome = some (round', handles')) :
    (fh ∈ round.sending ∧ round'.sending = round.sending.erase fh ∧ round'.unsent = round.unsent) ∨
      (fh ∉ round.sending ∧ fh ∈ round.unsent ∧ round'.sending = round.sending ∧
        round'.unsent = round.unsent.erase fh) := by
  obtain ⟨rec, found, made⟩ := map_eq_some_iff.mp h
  cases sending : round.sending.lookup fh with
  | some other =>
    refine .inl ⟨AList.lookup_isSome.mp (by simp [sending]), ?_⟩
    simp only [sending, isSome_some, if_true] at made
    split_ifs at made <;> cases made <;> exact ⟨rfl, rfl⟩
  | none =>
    rw [sending, none_or] at found
    refine .inr ⟨AList.lookup_eq_none.mp sending, AList.lookup_isSome.mp (by simp [found]), ?_⟩
    simp only [sending, isSome_none, Bool.false_eq_true, if_false] at made
    split_ifs at made <;> cases made <;> exact ⟨rfl, rfl⟩

/-- The end of a reopen: the handle stays alive because its file was found again, or it is not alive
afterwards and its release is owed. -/
theorem ended_cases (h : round.ended handles fh outcome = some (round', handles')) :
    round.Pending fh ∧ (∀ j, round'.Pending j → round.Pending j) ∧
      (∀ j, j ≠ fh → round.Pending j → round'.Pending j) ∧ handles'.map = handles.map ∧
      handles'.next = handles.next ∧
      ((fh ∈ handles'.live ∧ handles'.live = handles.live ∧ handles'.owed = handles.owed ∧
          ∃ attr, outcome = .ok (.opened attr) ∧
            ∃ rec, (round.sending.lookup fh).or (round.unsent.lookup fh) = some rec ∧
              rec.key.describes attr = true) ∨
        ((∀ j, j ∈ handles'.live ↔ j ≠ fh ∧ j ∈ handles.live) ∧
          ∃ (t : HandleTable) (kind : HandleKind), t.owed = handles.owed ∧
            handles' = t.owe fh (releaseRequest kind fh))) := by
  have pending : round.Pending fh ∧ (∀ j, round'.Pending j → round.Pending j) ∧
      ∀ j, j ≠ fh → round.Pending j → round'.Pending j := by
    simp only [Pending]
    rcases ended_round h with ⟨here, sending, unsent⟩ | ⟨_, here, sending, unsent⟩ <;>
      simp only [sending, unsent, AList.mem_erase] <;> tauto
  obtain ⟨rec, found, made⟩ := map_eq_some_iff.mp h
  obtain ⟨map, next, owed⟩ := HandleTable.applyReopen_same handles fh rec outcome
  refine ⟨pending.1, pending.2.1, pending.2.2, ?_⟩
  simp only at made
  generalize (if (round.sending.lookup fh).isSome then
      { round with sending := round.sending.erase fh }
    else { round with unsent := round.unsent.erase fh }) = left at made
  split_ifs at made with judged
  · cases made
    refine ⟨(HandleTable.owe_map _).trans map, (HandleTable.owe_next _).trans next,
      .inr ⟨fun j => ?_, _, rec.kind, owed, rfl⟩⟩
    rw [HandleTable.owe_live, HandleTable.mem_live, HandleTable.mem_live, map]
    by_cases same : j = fh
    · subst same
      simp only [HandleTable.isDead, HandleTable.get, map, Bool.or_eq_true, isNone_iff_eq_none]
        at judged
      constructor
      · rintro ⟨mem, alive⟩
        rcases judged with dead | gone
        · rw [dead] at alive
          cases alive
        · exact absurd mem (AList.lookup_eq_none.mp gone)
      · exact fun h => absurd rfl h.1
    · rcases HandleTable.applyReopen_dead handles fh rec outcome with ⟨dead, _⟩ | dead
      · simp [dead, same]
      · simp [dead, same]
  · cases made
    simp only [HandleTable.isDead, HandleTable.get, map, Bool.or_eq_true, isNone_iff_eq_none,
      not_or] at judged
    have alive : (handles.applyReopen fh rec outcome).dead = handles.dead ∧
        ∃ attr, outcome = .ok (.opened attr) ∧ rec.key.describes attr = true := by
      rcases HandleTable.applyReopen_dead handles fh rec outcome with kept | dead
      · exact kept
      · simp [dead] at judged
    have live := HandleTable.live_of_same map alive.1
    obtain ⟨attr, opened, same⟩ := alive.2
    refine ⟨map, next, .inl ⟨?_, live, owed, attr, opened, rec, found, same⟩⟩
    rw [HandleTable.mem_live, map]
    refine ⟨?_, by simpa using judged.1⟩
    by_contra absent
    exact judged.2 (AList.lookup_eq_none.mpr absent)

end ReopenRound

end JackalopeFs.ClientMachine
