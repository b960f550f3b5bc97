import JackalopeFs.ClientCalls

/-! # One id, one open

The client gives every open an id of its own and never gives it again.  An id comes to
life when the reply to its open is recorded, and once it was released or found stale it
stays so; a release is owed or sent only of an id that is past its life.  All of this
holds for any behaviour of the network and the server.
-/

namespace JackalopeFs.HandleIds

open ClientCalls ClientConnections ClientHandles ClientMachine ClientTasks HandleTable IndexedCells
open KeyedTables OwedReleases TransitionRuns WireRequests

variable {c c' : Client} {action : ClientTasks.Action} {fh : ℕ}

def opens : Purpose → Option ℕ
  | .opening fh .. => some fh
  | .plain | .releasing => none

section Effects

/-- What a call is started for, at the step that starts it. -/
inductive Starts (c c' : Client) (call : Call) : Prop where
  | plain (purpose : call.purpose = .plain) (unopened : call.req.opens = none)
      (unreleased : call.req.releases = none) : Starts c c' call
  | opens (purpose : opens call.purpose = some (c.handles.next + 1))
      (req : call.req.opens = some (c.handles.next + 1))
      (next : c'.handles.next = c.handles.next + 1) (unsettled : call.settled = false)
      (looked : call.handles = (c.handles.get (c.handles.next + 1), none)) : Starts c c' call
  | releases (fh : ℕ) (purpose : call.purpose = .releasing) (req : call.req.releases = some fh)
      (unordered : call.req.changes = false) (alive : fh ∈ c.handles.live)
      (gone : fh ∉ c'.handles.live) (untaken : call.taken = none)
      (looked : call.handles = (none, none)) : Starts c c' call

theorem starts_of_new (moved : Steps c action c') {call : Call}
    (found : c'.calls[c.calls.length]? = some call) : Starts c c' call := by
  have kept : ∀ {calls : List Call}, calls[c.calls.length]? = some call →
      calls.length = c.calls.length → False := by
    intro calls here same
    have := lt_of_lookup here
    omega
  cases moved with
  | startsCall _ unopened unreleased =>
    rcases of_lookup_add found with found | ⟨_, rfl⟩
    · exact (kept found rfl).elim
    · exact .plain rfl unopened unreleased
  | startsOpen _ _ _ _ opens =>
    rcases of_lookup_add found with found | ⟨_, rfl⟩
    · exact (kept found rfl).elim
    · refine .opens rfl (opens _) rfl rfl ?_
      simp [Request.fhs_of_opens (opens _), HandleTable.get]
  | startsRelease fh _ _ here alive names unordered =>
    rcases of_lookup_add found with found | ⟨_, rfl⟩
    · exact (kept found rfl).elim
    · have held : fh ∈ c.handles.map := AList.lookup_isSome.mp (by
        rw [HandleTable.get] at here
        simp [here])
      refine .releases fh rfl names unordered (mem_live.mpr ⟨held, alive⟩)
        (fun live => (mem_live_remove.mp live).1 rfl) rfl ?_
      simp [Request.fhs_of_releases names, HandleTable.get, remove_map]
  | returns _ _ _ _ _ _ _ _ _ returned =>
    cases returned with
    | call => exact (kept found (List.length_set ..)).elim
    | reopen | owed => exact (kept found rfl).elim
  | waits | sends | settles => exact (kept found (List.length_set ..)).elim
  | _ => exact (kept found rfl).elim

/-- The caller records the handle that its open has found. -/
def Records (c : Client) (action : ClientTasks.Action) (c' : Client) (fh : ℕ) : Prop :=
  ∃ (i : ℕ) (call : Call) (attr : Attr), action = .settle i true ∧ c.calls[i]? = some call ∧
    opens call.purpose = some fh ∧ call.settled = false ∧ call.result = some (.ok (.opened attr)) ∧
    c'.calls = c.calls.set i { call with settled := true } ∧ c'.manager = c.manager ∧
    c'.sent = c.sent

/-- What a step does to the records of the handle table. -/
inductive Tables (c : Client) (action : ClientTasks.Action) (c' : Client) : Prop where
  | keeps (map : c'.handles.map = c.handles.map) (dead : c'.handles.dead = c.handles.dead)
      (next : c.handles.next ≤ c'.handles.next) : Tables c action c'
  | removes (fh : ℕ) (map : c'.handles.map = c.handles.map.erase fh)
      (dead : c'.handles.dead = c.handles.dead) (next : c'.handles.next = c.handles.next) :
      Tables c action c'
  | records (fh : ℕ) (rec : HandleRec) (records : Records c action c' fh)
      (handles : c'.handles = c.handles.insert fh rec) : Tables c action c'
  | kills (handles : c'.handles = c.handles.killAll) : Tables c action c'
  | reopens (fh : ℕ) (round : ReopenRound) (reopening : c.manager = .reopening round)
      (pending : round.Pending fh) (map : c'.handles.map = c.handles.map)
      (next : c'.handles.next = c.handles.next)
      (live : c'.handles.live = c.handles.live ∨
        ∀ j, j ∈ c'.handles.live ↔ j ≠ fh ∧ j ∈ c.handles.live) : Tables c action c'

theorem tables_of_step (moved : Steps c action c') : Tables c action c' := by
  cases moved with
  | startsOpen => exact .keeps rfl rfl (Nat.le_succ _)
  | startsRelease fh | forgets fh => exact .removes fh remove_map remove_dead remove_next
  | settles i call _ _ found ended unsettled _ named settles =>
    cases settles with
    | keeps fh _ _ _ attr purpose opened taken =>
      subst opened taken
      exact .records fh _
        ⟨i, call, attr, named, found, by rw [purpose]; rfl, unsettled, ended, rfl, rfl, rfl⟩ rfl
    | owesOpened | owesRelease =>
      exact .keeps (owe_map _) (owe_dead _) (Nat.le_of_eq (owe_next _).symm)
    | refused | released => exact .keeps rfl rfl (Nat.le_refl _)
  | roots _ rootChanged =>
    cases rootChanged with
    | true => exact .kills rfl
    | false => exact .keeps rfl rfl (Nat.le_refl _)
  | endsReopen _ _ fh _ round _ _ reopening _ _ _ _ _ ended =>
    obtain ⟨pending, _, _, map, next, after⟩ := ReopenRound.ended_cases ended
    refine .reopens fh round reopening pending map next ?_
    rcases after with ⟨_, live, _⟩ | ⟨live, _⟩
    · exact .inl live
    · exact .inr live
  | sendsOwed _ _ _ _ _ _ sent =>
    obtain ⟨_, _, made⟩ := Option.map_eq_some_iff.mp sent
    cases made
    exact .keeps rfl rfl (Nat.le_refl _)
  | joinsOwed _ _ _ _ _ _ _ _ _ _ _ _ _ settled =>
      rcases settled with ⟨_, rfl⟩ | rfl
      · unfold HandleTable.owedDelivered
        split
        · split_ifs <;> exact .keeps rfl rfl (Nat.le_refl _)
        · exact .keeps rfl rfl (Nat.le_refl _)
      · exact .keeps rfl rfl (Nat.le_refl _)
  | _ => exact .keeps rfl rfl (Nat.le_refl _)

theorem next_le (moved : Steps c action c') : c.handles.next ≤ c'.handles.next := by
  cases tables_of_step moved with
  | keeps _ _ next => exact next
  | removes _ _ _ next | reopens _ _ _ _ _ next => exact Nat.le_of_eq next.symm
  | records _ _ _ handles => exact Nat.le_of_eq (by rw [handles, insert_next])
  | kills handles => exact Nat.le_of_eq (by rw [handles, killAll_same.2.1])

theorem record_of_step (moved : Steps c action c') (held : fh ∈ c'.handles.map) :
    fh ∈ c.handles.map ∨ Records c action c' fh := by
  cases tables_of_step moved with
  | keeps map | reopens _ _ _ _ map => exact .inl (map ▸ held)
  | removes _ map =>
    rw [map, AList.mem_erase] at held
    exact .inl held.2
  | records j rec records handles =>
    rw [handles] at held
    rcases (AList.mem_insert _).mp held with rfl | held
    · exact .inr records
    · exact .inl held
  | kills handles =>
    rw [handles, killAll_same.1] at held
    exact .inl held

theorem live_of_step (moved : Steps c action c') (alive : fh ∈ c'.handles.live) :
    fh ∈ c.handles.live ∨ Records c action c' fh := by
  cases tables_of_step moved with
  | keeps map dead => exact .inl (live_of_same map dead ▸ alive)
  | removes _ map dead =>
    rw [mem_live, map, dead, AList.mem_erase] at alive
    exact .inl (mem_live.mpr ⟨alive.1.2, alive.2⟩)
  | records _ _ records handles =>
    rw [handles] at alive
    rcases mem_live_insert.mp alive with rfl | alive
    · exact .inr records
    · exact .inl alive
  | kills handles =>
    rw [handles] at alive
    exact absurd alive notMem_live_killAll
  | reopens _ _ _ _ _ _ live =>
    rcases live with same | fewer
    · exact .inl (same ▸ alive)
    · exact .inl ((fewer fh).mp alive).2

inductive Owing (c c' : Client) (fh : ℕ) : Prop where
  | opening (i : ℕ) (call : Call) (found : c.calls[i]? = some call)
      (purpose : opens call.purpose = some fh) (unsettled : call.settled = false)
      (calls : c'.calls = c.calls.set i { call with settled := true })
      (map : c'.handles.map = c.handles.map) : Owing c c' fh
  | releasing (i : ℕ) (call : Call) (found : c.calls[i]? = some call)
      (purpose : call.purpose = .releasing) (req : call.req.releases = some fh) : Owing c c' fh
  | killed (alive : fh ∈ c.handles.live) (gone : fh ∉ c'.handles.live) : Owing c c' fh
  | reopened (round : ReopenRound) (reopening : c.manager = .reopening round)
      (pending : round.Pending fh) (gone : fh ∉ c'.handles.live) : Owing c c' fh

theorem owed_of_step (moved : Steps c action c') {owed : OwedRelease}
    (held : c'.handles.owed.lookup fh = some owed) :
    (∃ before, c.handles.owed.lookup fh = some before ∧ owed.req = before.req) ∨
      owed.req.releases = some fh ∧ owed.req.changes = true ∧ Owing c c' fh := by
  have kept : c'.handles.owed = c.handles.owed →
      ∃ before, c.handles.owed.lookup fh = some before ∧ owed.req = before.req :=
    fun same => ⟨owed, same ▸ held, rfl⟩
  cases moved with
  | startsRelease | forgets => exact .inl (kept remove_owed)
  | settles i call _ _ found _ unsettled _ _ settles =>
    cases settles with
    | keeps => exact .inl (kept insert_owed)
    | owesOpened _ _ _ _ purpose =>
      simp only [owe_owed] at held
      split_ifs at held with new
      · cases held
        obtain ⟨rfl, _⟩ := new
        exact .inr ⟨releaseRequest_releases _ _, releaseRequest_changes _ _,
          .opening i call found (by rw [purpose]; rfl) unsettled rfl (owe_map _)⟩
      · exact .inl ⟨owed, held, rfl⟩
    | owesRelease _ _ purpose _ names =>
      obtain ⟨req, releases, changes⟩ := asOwed_eq_some names
      simp only [owe_owed] at held
      split_ifs at held with new
      · cases held
        obtain ⟨rfl, _⟩ := new
        exact .inr ⟨releases, changes, .releasing i call found purpose req⟩
      · exact .inl ⟨owed, held, rfl⟩
    | refused | released => exact .inl (kept rfl)
  | roots _ rootChanged =>
    cases rootChanged with
    | true =>
      simp only [if_true] at held
      rcases req_of_oweAll _ held with before | ⟨kind, req⟩
      · exact .inl ⟨owed, before, rfl⟩
      · have mem : fh ∈ c.handles.killAll.owed := AList.lookup_isSome.mp (by simp [held])
        rcases mem_owed_killAll.mp mem with already | alive
        · obtain ⟨before, found⟩ := Option.isSome_iff_exists.mp (AList.lookup_isSome.mpr already)
          have same := owes_killAll.keeps fh before found
          cases held.symm.trans same
          exact .inl ⟨owed, found, rfl⟩
        · rw [req]
          exact .inr ⟨releaseRequest_releases _ _, releaseRequest_changes _ _,
            .killed alive notMem_live_killAll⟩
    | false => exact .inl (kept rfl)
  | moots => cases held
  | endsReopen _ _ _ _ round _ _ reopening _ _ _ _ _ ended =>
    obtain ⟨pending, _, _, _, _, after⟩ := ReopenRound.ended_cases ended
    rcases after with ⟨_, _, same, _⟩ | ⟨live, t, kind, same, rfl⟩
    · exact .inl (kept same)
    · simp only [owe_owed] at held
      split_ifs at held with new
      · cases held
        obtain ⟨rfl, _⟩ := new
        exact .inr ⟨releaseRequest_releases _ _, releaseRequest_changes _ _,
          .reopened round reopening pending fun alive => ((live fh).mp alive).1 rfl⟩
      · exact .inl ⟨owed, same ▸ held, rfl⟩
  | sendsOwed _ _ _ _ owed' _ sent =>
    obtain ⟨before, _, lookup⟩ := owedSend_eq_some sent
    simp only [lookup] at held
    split_ifs at held with same
    · cases held
      exact .inl ⟨owed', same ▸ before, rfl⟩
    · exact .inl ⟨owed, held, rfl⟩
  | joinsOwed _ _ _ _ _ _ _ _ _ _ _ _ _ settled =>
      rcases settled with ⟨_, rfl⟩ | rfl
      · simp only [owedDelivered_owed] at held
        split_ifs at held
        exact .inl ⟨owed, held, rfl⟩
      · exact .inl (kept rfl)
  | releasesEnd =>
    simp only [owedConnectionEnded_owed, Option.map_eq_some_iff] at held
    obtain ⟨before, held, rfl⟩ := held
    refine .inl ⟨before, held, ?_⟩
    split_ifs <;> rfl
  | _ => exact .inl (kept rfl)

end Effects

section Invariant

/-- The open of the id was answered, and its handle recorded. -/
def Given (c : Client) (fh : ℕ) : Prop :=
  ∃ (i : ℕ) (call : Call) (attr : Attr), c.calls[i]? = some call ∧ opens call.purpose = some fh ∧ call.settled = true ∧
    call.result = some (.ok (.opened attr))

structure Spent (c : Client) (fh : ℕ) : Prop where
  given : fh ≤ c.handles.next
  settled : ∀ (i : ℕ) (call : Call), c.calls[i]? = some call → opens call.purpose = some fh →
    call.settled = true
  gone : fh ∉ c.handles.live

structure Numbered (c : Client) : Prop where
  next : ∀ (i : ℕ) (call : Call) (fh : ℕ), c.calls[i]? = some call →
    opens call.purpose = some fh → fh ≤ c.handles.next
  apart : ∀ (i j : ℕ) (call d : Call) (fh : ℕ), c.calls[i]? = some call → c.calls[j]? = some d →
    opens call.purpose = some fh → opens d.purpose = some fh → i = j
  req : ∀ (i : ℕ) (call : Call), c.calls[i]? = some call → call.req.opens = opens call.purpose
  record : ∀ fh ∈ c.handles.map, Given c fh
  pending : ∀ (round : ReopenRound) (fh : ℕ), c.manager = .reopening round → round.Pending fh →
    Given c fh
  made : ∀ (x : ℕ) (e : Sent) (fh : ℕ), c.sent[x]? = some e → e.req.opens = some fh →
    (∃ i call, e.origin = .call i ∧ c.calls[i]? = some call ∧ opens call.purpose = some fh) ∨
      e.origin = .reopen fh ∧ Given c fh
  reopens : ∀ (x : ℕ) (e : Sent) (fh : ℕ), c.sent[x]? = some e → e.origin = .reopen fh →
    e.req.opens = some fh
  owed : ∀ (fh : ℕ) (owed : OwedRelease), c.handles.owed.lookup fh = some owed →
    owed.req.releases = some fh ∧ owed.req.changes = true ∧ Spent c fh
  released : ∀ (i : ℕ) (call : Call) (fh : ℕ), c.calls[i]? = some call →
    call.req.releases = some fh → call.purpose = .releasing ∧ Spent c fh
  sent : ∀ (x : ℕ) (e : Sent) (fh : ℕ), c.sent[x]? = some e → e.req.releases = some fh → Spent c fh

theorem Given.step (called : Called c) (moved : Steps c action c') (h : Given c fh) : Given c' fh := by
  obtain ⟨i, call, attr, found, purpose, settled, result⟩ := h
  obtain ⟨call', found', keeps⟩ := calls_keep called moved i call found
  exact ⟨i, call', attr, found', by rw [keeps.purpose, purpose], keeps.settled settled,
    keeps.ended _ result⟩

theorem Spent.step (called : Called c) (moved : Steps c action c') (h : Spent c fh) : Spent c' fh := by
  refine ⟨h.given.trans (next_le moved), fun i call' found purpose => ?_, fun alive => ?_⟩
  · rcases calls_of_keep called moved i call' found with ⟨call, here, keeps⟩ | ⟨rfl, _⟩
    · exact keeps.settled (h.settled i call here (by rw [← keeps.purpose, purpose]))
    · -- A new open has a new id.
      have given := h.given
      cases starts_of_new moved found with
      | plain plain | releases _ plain => simp [plain, opens] at purpose
      | opens fresh =>
        cases purpose.symm.trans fresh
        omega
  · rcases live_of_step moved alive with alive | ⟨i, call, _, _, found, purpose, unsettled, _⟩
    · exact h.gone alive
    · rw [h.settled i call found purpose] at unsettled
      cases unsettled

namespace Numbered

theorem new : Numbered .new where
  next := by simp [Client.new]
  apart := by simp [Client.new]
  req := by simp [Client.new]
  record := fun fh held => absurd held (AList.notMem_empty fh)
  pending := by simp [Client.new]
  made := by simp [Client.new]
  reopens := by simp [Client.new]
  owed := fun fh owed held => nomatch held
  released := by simp [Client.new]
  sent := by simp [Client.new]

variable {i : ℕ}

theorem unrecorded (h : Numbered c) {call : Call} (found : c.calls[i]? = some call)
    (purpose : opens call.purpose = some fh) (unsettled : call.settled = false) :
    fh ∉ c.handles.map := by
  intro held
  obtain ⟨j, d, _, found', purpose', settled, _⟩ := h.record fh held
  obtain rfl := h.apart i j call d fh found found' purpose purpose'
  cases found.symm.trans found'
  rw [settled] at unsettled
  cases unsettled

theorem given_of_live (h : Numbered c) (alive : fh ∈ c.handles.live) : Given c fh :=
  h.record fh (mem_live.mp alive).1

variable {call' : Call}

theorem given_of_records (records : Records c action c' fh) : Given c' fh := by
  obtain ⟨i, call, attr, _, found, purpose, _, result, calls, _⟩ := records
  exact ⟨i, { call with settled := true }, attr, by rw [calls]; exact lookup_write found, purpose, rfl,
    result⟩

section Step

variable (called : Called c) (h : Numbered c) (moved : Steps c action c')

include called h moved

theorem next_step (found : c'.calls[i]? = some call') (purpose : opens call'.purpose = some fh) :
    fh ≤ c'.handles.next := by
  rcases calls_of_keep called moved i call' found with ⟨call, here, keeps⟩ | ⟨rfl, _⟩
  · exact (h.next i call fh here (by rw [← keeps.purpose, purpose])).trans (next_le moved)
  · cases starts_of_new moved found with
    | plain plain | releases _ plain => simp [plain, opens] at purpose
    | opens fresh _ next =>
      cases purpose.symm.trans fresh
      exact Nat.le_of_eq next.symm

theorem apart_step {i j : ℕ} {call' d' : Call} (foundI : c'.calls[i]? = some call') (foundJ : c'.calls[j]? = some d')
    (purposeI : opens call'.purpose = some fh) (purposeJ : opens d'.purpose = some fh) : i = j := by
  -- An id that was already given is not that of a new call.
  have fresh : ∀ {k n : ℕ} {call d : Call}, c.calls[k]? = some call → opens call.purpose = some fh →
      n = c.calls.length → c'.calls[n]? = some d → opens d.purpose = some fh → False := by
    rintro k n call d here purpose rfl found purpose'
    have := h.next k call fh here purpose
    cases starts_of_new moved found with
    | plain plain | releases _ plain => simp [plain, opens] at purpose'
    | opens fresh =>
      cases purpose'.symm.trans fresh
      omega
  rcases calls_of_keep called moved i call' foundI with ⟨call, hereI, keepsI⟩ | ⟨newI, _⟩ <;>
    rcases calls_of_keep called moved j d' foundJ with ⟨d, hereJ, keepsJ⟩ | ⟨newJ, _⟩
  · exact h.apart i j call d fh hereI hereJ (by rw [← keepsI.purpose, purposeI])
      (by rw [← keepsJ.purpose, purposeJ])
  · exact (fresh hereI (by rw [← keepsI.purpose, purposeI]) newJ foundJ purposeJ).elim
  · exact (fresh hereJ (by rw [← keepsJ.purpose, purposeJ]) newI foundI purposeI).elim
  · rw [newI, newJ]

theorem req_step (found : c'.calls[i]? = some call') : call'.req.opens = opens call'.purpose := by
  rcases calls_of_keep called moved i call' found with ⟨call, here, keeps⟩ | ⟨rfl, _⟩
  · rw [keeps.req, keeps.purpose]
    exact h.req i call here
  · cases starts_of_new moved found with
    | plain purpose unopened => rw [purpose, unopened, opens]
    | opens purpose req => rw [purpose, req]
    | releases _ purpose req =>
      rw [purpose, opens]
      cases opened : call'.req.opens with
      | none => rfl
      | some =>
        rw [Request.releases_of_opens opened] at req
        cases req

theorem record_step (held : fh ∈ c'.handles.map) : Given c' fh := by
  rcases record_of_step moved held with held | records
  · exact (h.record fh held).step called moved
  · exact given_of_records records

theorem pending_step {round' : ReopenRound} (reopening' : c'.manager = .reopening round') (pending : round'.Pending fh) :
    Given c' fh := by
  have kept : ∀ round, c.manager = .reopening round → round.Pending fh → Given c' fh :=
    fun round reopening pending => (h.pending round fh reopening pending).step called moved
  cases moved with
  | fixes named mooted =>
    cases reopening'
    rcases pending with unsent | sending
    · exact (h.given_of_live unsent).step called (.fixes named mooted)
    · exact absurd sending (AList.notMem_empty fh)
  | sendsReopen _ round _ _ reopening sent =>
    cases reopening'
    exact kept round reopening ((ReopenRound.pending_send sent fh).mp pending)
  | endsReopen _ _ _ _ round _ _ reopening _ _ _ _ _ ended =>
    cases reopening'
    obtain ⟨_, fewer, _⟩ := ReopenRound.ended_cases ended
    exact kept round reopening (fewer fh pending)
  | connects | roots | moots | publishes | reconnects => cases reopening'
  | _ => exact kept round' reopening' pending

theorem made_step {x : ℕ}
    {e' : Sent} (found : c'.sent[x]? = some e') (opened : e'.req.opens = some fh) :
    (∃ i call, e'.origin = .call i ∧ c'.calls[i]? = some call ∧ opens call.purpose = some fh) ∨
      e'.origin = .reopen fh ∧ Given c' fh := by
  rcases sent_origin moved found with ⟨e, here, moves⟩ | ⟨_, makes⟩
  · rw [moves.same.1]
    rw [moves.same.2.1] at opened
    rcases h.made x e fh here opened with ⟨i, call, origin, found, purpose⟩ | ⟨origin, given⟩
    · obtain ⟨call', found', keeps⟩ := calls_keep called moved i call found
      exact .inl ⟨i, call', origin, found', by rw [keeps.purpose, purpose]⟩
    · exact .inr ⟨origin, given.step called moved⟩
  · cases makes with
    | call i call _ here =>
      obtain ⟨call', found', keeps⟩ := calls_keep called moved i call here
      exact .inl ⟨i, call', rfl, found', by rw [keeps.purpose, ← h.req i call here, opened]⟩
    | reopen j _ round reopening unsent =>
      simp only [HandleRec.reopenRequest_opens, Option.some.injEq] at opened
      subst opened
      have pending : round.Pending j := .inl (AList.lookup_isSome.mp (by simp [unsent]))
      exact .inr ⟨rfl, (h.pending round j reopening pending).step called moved⟩
    | owed j owed _ _ _ held =>
      have released := (h.owed j owed held).1
      rw [Request.releases_of_opens opened] at released
      cases released

omit called in
theorem reopens_step {x : ℕ} {e' : Sent}
    (found : c'.sent[x]? = some e') (origin : e'.origin = .reopen fh) : e'.req.opens = some fh := by
  rcases sent_origin moved found with ⟨e, here, moves⟩ | ⟨_, makes⟩
  · rw [moves.same.2.1]
    exact h.reopens x e fh here (moves.same.1.symm.trans origin)
  · cases makes with
    | reopen =>
      cases origin
      exact HandleRec.reopenRequest_opens ..
    | call | owed => cases origin

theorem spent_after (found : c'.calls[i]? = some call') (purpose : opens call'.purpose = some fh)
    (settled : call'.settled = true) (gone : fh ∉ c'.handles.live) : Spent c' fh := by
  refine ⟨next_step called h moved found purpose, fun j d' found' purpose' => ?_, gone⟩
  obtain rfl := apart_step called h moved found found' purpose purpose'
  cases found.symm.trans found'
  exact settled

theorem spent_of_given (given : Given c fh) (gone : fh ∉ c'.handles.live) : Spent c' fh := by
  obtain ⟨i, call', _, found, purpose, settled, _⟩ := given.step called moved
  exact spent_after called h moved found purpose settled gone

theorem spent_of_owing (owing : Owing c c' fh) : Spent c' fh := by
  cases owing with
  | opening i call found purpose unsettled calls map =>
    have found' : c'.calls[i]? = some { call with settled := true } := by
      rw [calls]
      exact lookup_write found
    refine spent_after called h moved found' purpose rfl fun alive => ?_
    have held := (mem_live.mp alive).1
    rw [map] at held
    exact h.unrecorded found purpose unsettled held
  | releasing i call found _ req =>
    exact (h.released i call fh found req).2.step called moved
  | killed alive gone => exact spent_of_given called h moved (h.given_of_live alive) gone
  | reopened round reopening pending gone =>
    exact spent_of_given called h moved (h.pending round fh reopening pending) gone

theorem owed_step {owed : OwedRelease} (held : c'.handles.owed.lookup fh = some owed) :
    owed.req.releases = some fh ∧ owed.req.changes = true ∧ Spent c' fh := by
  rcases owed_of_step moved held with ⟨before, held, req⟩ | ⟨releases, changes, owing⟩
  · rw [req]
    obtain ⟨releases, changes, spent⟩ := h.owed fh before held
    exact ⟨releases, changes, spent.step called moved⟩
  · exact ⟨releases, changes, spent_of_owing called h moved owing⟩

theorem released_step (found : c'.calls[i]? = some call') (releases : call'.req.releases = some fh) :
    call'.purpose = .releasing ∧ Spent c' fh := by
  rcases calls_of_keep called moved i call' found with ⟨call, here, keeps⟩ | ⟨rfl, _⟩
  · rw [keeps.req] at releases
    obtain ⟨purpose, spent⟩ := h.released i call fh here releases
    exact ⟨keeps.purpose.trans purpose, spent.step called moved⟩
  · cases starts_of_new moved found with
    | plain _ _ unreleased =>
      rw [unreleased] at releases
      cases releases
    | opens _ req =>
      rw [Request.releases_of_opens req] at releases
      cases releases
    | releases _ purpose req _ alive gone =>
      cases req.symm.trans releases
      exact ⟨purpose, spent_of_given called h moved (h.given_of_live alive) gone⟩

theorem sent_step {x : ℕ}
    {e' : Sent} (found : c'.sent[x]? = some e') (releases : e'.req.releases = some fh) :
    Spent c' fh := by
  rcases sent_origin moved found with ⟨e, here, moves⟩ | ⟨_, makes⟩
  · rw [moves.same.2.1] at releases
    exact (h.sent x e fh here releases).step called moved
  · cases makes with
    | call i call _ here => exact (h.released i call fh here releases).2.step called moved
    | reopen j rec =>
      rw [Request.releases_of_opens (rec.reopenRequest_opens j)] at releases
      cases releases
    | owed j owed _ _ _ held =>
      obtain ⟨names, _, spent⟩ := h.owed j owed held
      cases names.symm.trans releases
      exact spent.step called moved

theorem step : Numbered c' where
  next := fun _ _ _ found purpose => next_step called h moved found purpose
  apart := fun _ _ _ _ _ foundI foundJ purposeI purposeJ =>
    apart_step called h moved foundI foundJ purposeI purposeJ
  req := fun _ _ found => req_step called h moved found
  record := fun _ held => record_step called h moved held
  pending := fun _ _ reopening pending => pending_step called h moved reopening pending
  made := fun _ _ _ found opened => made_step called h moved found opened
  reopens := fun _ _ _ found origin => reopens_step h moved found origin
  owed := fun _ _ held => owed_step called h moved held
  released := fun _ _ _ found releases => released_step called h moved found releases
  sent := fun _ _ _ found releases => sent_step called h moved found releases

end Step

end Numbered

end Invariant

end JackalopeFs.HandleIds
