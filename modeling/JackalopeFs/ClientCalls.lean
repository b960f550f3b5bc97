import JackalopeFs.ClientConnections

/-! # The client's calls and their attempts

Each call is followed through its attempts, for any behaviour of the network and the
server: their generations rise, at most one of them lost its reply without ending the
call, and only a call that may be resent loses one.  An attempt remembers that the
calls which ended before its own started are over.
-/

namespace JackalopeFs.ClientCalls

open ClientConnections ClientHandles ClientMachine ClientTasks IndexedCells OwedReleases
open TransitionRuns WireRequests

variable {c c' : Client} {action : ClientTasks.Action}

section Attempts

def Attempt (sent : List Sent) (i x : ℕ) (e : Sent) : Prop :=
  sent[x]? = some e ∧ e.origin = .call i

/-- The call went on after this attempt: another one follows, or is to follow. -/
def Passed (sent : List Sent) (i : ℕ) (call : Call) (x : ℕ) (e : Sent) : Prop :=
  (∃ y d, Attempt sent i y d ∧ x < y) ∨
    (∀ how, call.state.status ≠ .ended how) ∧ e.stage.awaited = false

/-- The attempts of one call, as far as the client knows them. -/
structure Attempts (sent : List Sent) (i : ℕ) (call : Call) : Prop where
  changes : call.state.changes = call.req.changes
  resendable : call.state.resendable = retrySafe call.req call.handles
  ended : call.result.isSome = true ↔ ∃ how, call.state.status = .ended how
  lostOnce : call.state.lostOnce = true → call.state.resendable = true
  req : ∀ x e, Attempt sent i x e → e.req = call.req
  awaited : ∀ x e, Attempt sent i x e → e.stage.awaited = true →
    call.state.status = .inFlight e.generation
  waiting : call.state.status = .waiting → ∀ x e, Attempt sent i x e →
    e.generation < call.state.minGeneration
  flight : ∀ g, call.state.status = .inFlight g → ∀ x e, Attempt sent i x e →
    e.stage.awaited = false → e.generation < g
  rising : ∀ x y e d, Attempt sent i x e → Attempt sent i y d → x < y → e.generation < d.generation
  passed : ∀ x e, Attempt sent i x e → Passed sent i call x e →
    e.outcome = some .notSent ∨ e.outcome = some .lost ∧ call.state.resendable = true
  counted : (∀ how, call.state.status ≠ .ended how) → ∀ x e, Attempt sent i x e →
    e.outcome = some .lost → call.state.lostOnce = true
  once : ∀ x y e d, Attempt sent i x e → Attempt sent i y d → Passed sent i call x e →
    Passed sent i call y d → e.outcome = some .lost → d.outcome = some .lost → x = y

namespace Attempts

variable {sent sent' : List Sent} {i : ℕ} {call call' : Call}

theorem none (fresh : ∀ x e, ¬ Attempt sent i x e)
    (changes : call.state.changes = call.req.changes)
    (resendable : call.state.resendable = retrySafe call.req call.handles)
    (unended : call.result = .none) (waits : call.state.status = .waiting)
    (unlost : call.state.lostOnce = false) : Attempts sent i call where
  changes := changes
  resendable := resendable
  ended := by simp [unended, waits]
  lostOnce := by simp [unlost]
  req := fun x e attempt => absurd attempt (fresh x e)
  awaited := fun x e attempt => absurd attempt (fresh x e)
  waiting := fun _ x e attempt => absurd attempt (fresh x e)
  flight := fun _ _ x e attempt => absurd attempt (fresh x e)
  rising := fun x _ e _ attempt => absurd attempt (fresh x e)
  passed := fun x e attempt => absurd attempt (fresh x e)
  counted := fun _ x e attempt => absurd attempt (fresh x e)
  once := fun x _ e _ attempt => absurd attempt (fresh x e)

section

variable (h : Attempts sent i call)

include h

theorem resent
    (same : ∀ x e, Attempt sent' i x e → ∃ d, Attempt sent i x d ∧ d.req = e.req ∧
      d.generation = e.generation ∧ d.stage.awaited = e.stage.awaited ∧ d.outcome = e.outcome) :
    Attempts sent' i call := by
  have passed : ∀ {x : ℕ} {e d : Sent}, Passed sent' i call x e →
      d.stage.awaited = e.stage.awaited → Passed sent i call x d := by
    rintro x e d (⟨y, f, attempt, lt⟩ | ⟨goes, settled⟩) stage
    · obtain ⟨f', before, _⟩ := same y f attempt
      exact .inl ⟨y, f', before, lt⟩
    · exact .inr ⟨goes, stage.trans settled⟩
  refine ⟨h.changes, h.resendable, h.ended, h.lostOnce, fun x e attempt => ?_,
    fun x e attempt awaited => ?_, fun waits x e attempt => ?_, fun g flies x e attempt settled => ?_,
    fun x y e d first second lt => ?_, fun x e attempt past => ?_,
    fun goes x e attempt lost => ?_, fun x y e d first second overX overY lostX lostY => ?_⟩
  · obtain ⟨d, before, req, _⟩ := same x e attempt
    exact req ▸ h.req x d before
  · obtain ⟨d, before, _, generation, stage, _⟩ := same x e attempt
    exact generation ▸ h.awaited x d before (stage ▸ awaited)
  · obtain ⟨d, before, _, generation, _⟩ := same x e attempt
    exact generation ▸ h.waiting waits x d before
  · obtain ⟨d, before, _, generation, stage, _⟩ := same x e attempt
    exact generation ▸ h.flight g flies x d before (stage ▸ settled)
  · obtain ⟨e', before, _, generation, _⟩ := same x e first
    obtain ⟨d', before', _, generation', _⟩ := same y d second
    exact generation ▸ generation' ▸ h.rising x y e' d' before before' lt
  · obtain ⟨d, before, _, _, stage, outcome⟩ := same x e attempt
    exact outcome ▸ h.passed x d before (passed past stage)
  · obtain ⟨d, before, _, _, _, outcome⟩ := same x e attempt
    exact h.counted goes x d before (outcome.trans lost)
  · obtain ⟨e', before, _, _, stage, outcome⟩ := same x e first
    obtain ⟨d', before', _, _, stage', outcome'⟩ := same y d second
    exact h.once x y e' d' before before' (passed overX stage) (passed overY stage')
      (outcome.trans lostX) (outcome'.trans lostY)

theorem recalled (state : call'.state = call.state)
    (req : call'.req = call.req) (handles : call'.handles = call.handles)
    (result : call'.result = call.result) : Attempts sent i call' := by
  obtain ⟨h₁, h₂, h₃, h₄, h₅, h₆, h₇, h₈, h₉, h₁₀, h₁₁, h₁₂⟩ := h
  constructor <;> (try simp only [Passed, state, req, handles, result]) <;> assumption

theorem stops (how : EndCall)
    (unawaited : ∀ x e, Attempt sent i x e → e.stage.awaited = false)
    (state : call'.state = { call.state with status := .ended how })
    (req : call'.req = call.req) (handles : call'.handles = call.handles)
    (result : call'.result.isSome = true) : Attempts sent i call' := by
  have passed : ∀ {x : ℕ} {e : Sent}, Passed sent i call' x e → Passed sent i call x e := by
    rintro x e (later | ⟨goes, _⟩)
    · exact .inl later
    · exact absurd (by simp [state]) (goes how)
  refine ⟨by simpa [state, req] using h.changes, by simpa [state, req, handles] using h.resendable,
    by simp [state, result], by simpa [state] using h.lostOnce, by simpa [req] using h.req,
    fun x e attempt awaited => ?_, by simp [state], by simp [state], h.rising,
    fun x e attempt past => ?_, fun goes => absurd (by simp [state]) (goes how),
    fun x y e d first second overX overY => h.once x y e d first second (passed overX) (passed overY)⟩
  · simp [unawaited x e attempt] at awaited
  · simpa [state] using h.passed x e attempt (passed past)

theorem last {x y : ℕ} {e d : Sent} (attempt : Attempt sent i x e)
    (awaited : e.stage.awaited = true) (other : Attempt sent i y d) :
    y ≤ x ∧ (y ≠ x → d.stage.awaited = false) := by
  have flies := h.awaited x e attempt awaited
  have generation : d.generation ≤ e.generation := by
    cases stage : d.stage.awaited with
    | true =>
      have := h.awaited y d other stage
      rw [flies, StatusCall.inFlight.injEq] at this
      exact Nat.le_of_eq this.symm
    | false => exact Nat.le_of_lt (h.flight _ flies y d other stage)
  have le : y ≤ x := by
    by_contra gt
    have := h.rising x y e d attempt other (by omega)
    omega
  refine ⟨le, fun ne => ?_⟩
  by_contra stage
  have same := h.awaited y d other (by simpa using stage)
  rw [flies, StatusCall.inFlight.injEq] at same
  have := h.rising y x d e other attempt (by omega)
  omega

/-- The awaited attempt ends: what the earlier attempts showed is still so. -/
theorem returned {x : ℕ} {e : Sent} (attempt : Attempt sent i x e)
    (awaited : e.stage.awaited = true) {stage : SentStage} (ended : stage.awaited = false)
    (how : Exchanged)
    (state : call'.state.changes = call.state.changes ∧
      call'.state.resendable = call.state.resendable)
    (req : call'.req = call.req) (handles : call'.handles = call.handles)
    (result : call'.result.isSome = true ↔ ∃ how, call'.state.status = .ended how)
    (lostOnce : call'.state.lostOnce = true → call'.state.resendable = true)
    (grounded : ∀ g, call'.state.status ≠ .inFlight g)
    (waits : call'.state.status = .waiting → call'.state.minGeneration = e.generation + 1)
    (goes : (∀ how, call'.state.status ≠ .ended how) →
      (how = .notSent ∧ call'.state.lostOnce = call.state.lostOnce) ∨
        (how = .lost ∧ call.state.lostOnce = false ∧ call'.state.lostOnce = true)) :
    Attempts (sent.set x { e with stage := stage, outcome := some how }) i call' := by
  have flies := h.awaited x e attempt awaited
  have going : ∀ how, call.state.status ≠ .ended how := by simp [flies]
  -- Every attempt was there before, and the call went on after all but the last one.
  have before : ∀ y d, Attempt (sent.set x { e with stage := stage, outcome := some how }) i y d →
      y = x ∧ d = { e with stage := stage, outcome := some how } ∨
        y < x ∧ Attempt sent i y d ∧ d.stage.awaited = false ∧ Passed sent i call y d := by
    rintro y d ⟨hd, origin⟩
    rcases of_lookup_write hd with ⟨rfl, rfl⟩ | ⟨ne, hd⟩
    · exact .inl ⟨rfl, rfl⟩
    · obtain ⟨le, settled⟩ := h.last attempt awaited ⟨hd, origin⟩
      have lt : y < x := by omega
      exact .inr ⟨lt, ⟨hd, origin⟩, settled ne, .inl ⟨x, e, attempt, lt⟩⟩
  have unended : ∀ {d : Sent},
      Passed (sent.set x { e with stage := stage, outcome := some how }) i call' x d →
      ∀ how, call'.state.status ≠ .ended how := by
    rintro d (⟨z, f, later, lt⟩ | ⟨goes, _⟩)
    · rcases before z f later with ⟨rfl, _⟩ | ⟨lt', _⟩ <;> omega
    · exact goes
  refine ⟨by rw [state.1, req, h.changes], by rw [state.2, req, handles, h.resendable], result,
    lostOnce, fun y d other => ?_, fun y d other open' => ?_, fun waiting y d other => ?_,
    fun g flying => absurd flying (grounded g), fun y z d f first second lt => ?_,
    fun y d other past => ?_, fun goesOn y d other lost => ?_,
    fun y z d f first second overY overZ lostY lostZ => ?_⟩
  · rw [req]
    rcases before y d other with ⟨rfl, rfl⟩ | ⟨_, old, _⟩
    · exact h.req y e attempt
    · exact h.req y d old
  · rcases before y d other with ⟨rfl, rfl⟩ | ⟨_, _, settled, _⟩
    · simp [ended] at open'
    · simp [settled] at open'
  · rw [waits waiting]
    rcases before y d other with ⟨rfl, rfl⟩ | ⟨lt, old, _⟩
    · exact Nat.lt_succ_self _
    · exact Nat.lt_succ_of_lt (h.rising y x d e old attempt lt)
  · rcases before y d first with ⟨rfl, rfl⟩ | ⟨ltY, oldY, _⟩ <;>
      rcases before z f second with ⟨rfl, rfl⟩ | ⟨ltZ, oldZ, _⟩
    · omega
    · omega
    · exact h.rising y z d e oldY attempt lt
    · exact h.rising y z d f oldY oldZ lt
  · rw [state.2]
    rcases before y d other with ⟨rfl, rfl⟩ | ⟨_, old, _, over'⟩
    · rcases goes (unended past) with ⟨rfl, _⟩ | ⟨rfl, _, lost⟩
      · exact .inl rfl
      · exact .inr ⟨rfl, state.2 ▸ lostOnce lost⟩
    · exact h.passed y d old over'
  · rcases goes goesOn with ⟨rfl, kept⟩ | ⟨_, _, once⟩
    · rcases before y d other with ⟨rfl, rfl⟩ | ⟨_, old, _⟩
      · cases lost
      · rw [kept]
        exact h.counted going y d old lost
    · exact once
  · -- A lost attempt besides the last one was counted, so the call would not go on after the last.
    have alone : ∀ {w : ℕ} {k : Sent}, Attempt sent i w k → k.outcome = some .lost → how = .lost →
        (∀ how, call'.state.status ≠ .ended how) → False := by
      intro w k old lost last goesOn
      have once := h.counted going w k old lost
      rcases goes goesOn with ⟨notSent, _⟩ | ⟨_, fresh, _⟩
      · rw [last] at notSent
        cases notSent
      · rw [fresh] at once
        cases once
    rcases before y d first with ⟨rfl, rfl⟩ | ⟨_, oldY, _, overY'⟩ <;>
      rcases before z f second with ⟨rfl, rfl⟩ | ⟨_, oldZ, _, overZ'⟩
    · rfl
    · exact (alone oldZ lostZ (Option.some.inj lostY) (unended overY)).elim
    · exact (alone oldY lostY (Option.some.inj lostZ) (unended overZ)).elim
    · exact h.once y z d f oldY oldZ overY' overZ' lostY lostZ

theorem sends {g : ℕ} {over₀ : List ℕ}
    (waits : call.state.status = .waiting) (newer : call.state.minGeneration ≤ g)
    (state : call'.state = call.state.sent g) (req : call'.req = call.req)
    (handles : call'.handles = call.handles) (result : call'.result = call.result) :
    Attempts (sent ++ [⟨.call i, call.req, g, .writing, .none, false, over₀⟩]) i call' := by
  have going : ∀ how, call.state.status ≠ .ended how := by simp [waits]
  have past := h.waiting waits
  have before : ∀ x e, Attempt (sent ++ [⟨.call i, call.req, g, .writing, .none, false, over₀⟩]) i x e →
      x = sent.length ∧ e = ⟨.call i, call.req, g, .writing, .none, false, over₀⟩ ∨
        x < sent.length ∧ Attempt sent i x e ∧ e.stage.awaited = false := by
    rintro x e ⟨found, origin⟩
    rcases of_lookup_add found with found | new
    · refine .inr ⟨lt_of_lookup found, ⟨found, origin⟩, ?_⟩
      by_contra awaited
      have := h.awaited x e ⟨found, origin⟩ (by simpa using awaited)
      simp [waits] at this
    · exact .inl new
  have unpassed : ∀ {call : Call}, ¬ Passed (sent ++ [⟨.call i, call'.req, g, .writing, .none, false,
      over₀⟩]) i call sent.length ⟨.call i, call'.req, g, .writing, .none, false, over₀⟩ := by
    rintro call (⟨y, d, ⟨found, _⟩, lt⟩ | ⟨_, settled⟩)
    · have := lt_of_lookup found
      simp at this
      omega
    · cases settled
  rw [← req] at before ⊢
  refine ⟨by simpa [state, req, CallState.sent] using h.changes,
    by simpa [state, req, handles, CallState.sent] using h.resendable, ?_,
    by simpa [state, CallState.sent] using h.lostOnce, fun x e attempt => ?_,
    fun x e attempt awaited => ?_, by simp [state, CallState.sent],
    fun g' flies x e attempt settled => ?_, fun x y e d first second lt => ?_,
    fun x e attempt past => ?_, fun _ x e attempt lost => ?_,
    fun x y e d first second overX overY lostX lostY => ?_⟩
  · have open_ : call.result = .none := by
      by_contra some
      obtain ⟨how, ended⟩ := h.ended.mp (Option.isSome_iff_ne_none.mpr some)
      exact going how ended
    simp [state, result, open_, CallState.sent]
  · rcases before x e attempt with ⟨_, rfl⟩ | ⟨_, old, _⟩
    · rfl
    · exact (h.req x e old).trans req.symm
  · rcases before x e attempt with ⟨_, rfl⟩ | ⟨_, _, settled⟩
    · simp [state, CallState.sent]
    · simp [settled] at awaited
  · simp only [state, CallState.sent, StatusCall.inFlight.injEq] at flies
    rcases before x e attempt with ⟨_, rfl⟩ | ⟨_, old, _⟩
    · cases settled
    · have := past x e old
      omega
  · rcases before x e first with ⟨rfl, rfl⟩ | ⟨_, oldX, _⟩ <;>
      rcases before y d second with ⟨rfl, rfl⟩ | ⟨ltY, oldY, _⟩
    · omega
    · omega
    · exact (past x e oldX).trans_le newer
    · exact h.rising x y e d oldX oldY lt
  · rcases before x e attempt with ⟨rfl, rfl⟩ | ⟨_, old, settled⟩
    · exact absurd past unpassed
    · simpa [state, CallState.sent] using h.passed x e old (.inr ⟨going, settled⟩)
  · rcases before x e attempt with ⟨_, rfl⟩ | ⟨_, old, _⟩
    · cases lost
    · simpa [state, CallState.sent] using h.counted going x e old lost
  · rcases before x e first with ⟨rfl, rfl⟩ | ⟨_, oldX, settledX⟩
    · cases lostX
    · rcases before y d second with ⟨rfl, rfl⟩ | ⟨_, oldY, settledY⟩
      · cases lostY
      · exact h.once x y e d oldX oldY (.inr ⟨going, settledX⟩) (.inr ⟨going, settledY⟩) lostX lostY

end

end Attempts

end Attempts

section Calls

structure CallKeeps (call call' : Call) : Prop where
  req : call'.req = call.req
  purpose : call'.purpose = call.purpose
  handles : call'.handles = call.handles
  endedBefore : call'.endedBefore = call.endedBefore
  resendable : call'.state.resendable = call.state.resendable
  ended : ∀ result, call.result = some result → call'.result = some result
  settled : call.settled = true → call'.settled = true

theorem CallKeeps.refl (call : Call) : CallKeeps call call :=
  ⟨rfl, rfl, rfl, rfl, rfl, fun _ => id, id⟩

/-- What is known of a call at the step that starts it. -/
structure Started (c : Client) (call : Call) : Prop where
  endedBefore : call.endedBefore = c.endedNow
  result : call.result = none
  status : call.state.status = .waiting
  lostOnce : call.state.lostOnce = false
  changes : call.state.changes = call.req.changes
  resendable : call.state.resendable = retrySafe call.req call.handles

variable {call : Call}

theorem CallKeeps.of_write {calls : List Call} {i : ℕ} (call' : Call)
    (found : calls[i]? = some call) (keeps : CallKeeps call call') (j : ℕ) (d : Call)
    (hd : calls[j]? = some d) : ∃ d', (calls.set i call')[j]? = some d' ∧ CallKeeps d d' := by
  by_cases same : j = i
  · subst same
    cases found.symm.trans hd
    exact ⟨call', lookup_write found, keeps⟩
  · exact ⟨d, (lookup_write_of_ne same).trans hd, .refl d⟩

/-- The end of an exchange ends its call or has it wait for a newer connection. -/
inductive CallEnds (call : Call) (how : Exchanged) : Call → Prop where
  | stops (last : EndCall) (result : Except Error Response) :
      CallEnds call how { call with
        state := { call.state with status := .ended last }, result := some result }
  | unsent (g : ℕ) (flies : call.state.status = .inFlight g) (notSent : how = .notSent) :
      CallEnds call how { call with
        state := { call.state with minGeneration := g + 1, status := .waiting }, checked := false }
  | resends (g : ℕ) (flies : call.state.status = .inFlight g) (lost : how = .lost)
      (resendable : call.state.resendable = true) (first : call.state.lostOnce = false) :
      CallEnds call how { call with
        state := { call.state with minGeneration := g + 1, status := .waiting, lostOnce := true }
        checked := false }

theorem ends_callEnds {call call' : Call} {how : Exchanged} (h : call.ends how = some call') :
    CallEnds call how call' := by
  unfold Call.ends at h
  split at h
  · cases h
    exact .stops .errno _
  · cases h
    exact .stops .replied _
  · obtain ⟨r, lost, rfl⟩ := Option.map_eq_some_iff.mp h
    unfold CallState.lost at lost
    split at lost
    · rename_i g flies
      cases lost
      exact .unsent g flies rfl
    · cases lost
  · obtain ⟨r, lost, rfl⟩ := Option.map_eq_some_iff.mp h
    unfold CallState.lost at lost
    split at lost
    · rename_i g flies
      split_ifs at lost with again
      · cases lost
        simp only [Bool.and_eq_true, Bool.not_eq_true'] at again
        exact .resends g flies rfl again.1 again.2
      · cases lost
        exact .stops .failed _
    · cases lost
  · cases h
    exact .stops .failed _
  · cases h
    exact .stops .gaveUp _

/-- The calls as far as the client knows their attempts. -/
structure Called (c : Client) : Prop where
  known : ∀ (x : ℕ) (e : Sent) (i : ℕ), c.sent[x]? = some e → e.origin = .call i →
    i < c.calls.length
  attempts : ∀ (i : ℕ) (call : Call), c.calls[i]? = some call → Attempts c.sent i call
  overBefore : ∀ (x : ℕ) (e : Sent) (y : ℕ), c.sent[x]? = some e → y ∈ e.overBefore →
    y < x ∧ ∃ d, c.sent[y]? = some d ∧ d.stage.awaited = false
  endedBefore : ∀ (i : ℕ) (call : Call) (j : ℕ), c.calls[i]? = some call → j ∈ call.endedBefore →
    j < i ∧ ∃ d, c.calls[j]? = some d ∧ d.result.isSome = true
  follows : ∀ (i j : ℕ) (call : Call) (x y : ℕ) (e d : Sent), c.calls[i]? = some call →
    j ∈ call.endedBefore → c.sent[y]? = some d → d.origin = .call i → c.sent[x]? = some e →
    e.origin = .call j → x ∈ d.overBefore
  resent : ∀ (i x y : ℕ) (e d : Sent), c.sent[x]? = some e → c.sent[y]? = some d →
    e.origin = .call i → d.origin = .call i → x < y → x ∈ d.overBefore

namespace Called

theorem unawaited (h : Called c) {i : ℕ} {call : Call} (found : c.calls[i]? = some call)
    (idle : ∀ g, call.state.status ≠ .inFlight g) {x : ℕ} {e : Sent}
    (attempt : Attempt c.sent i x e) : e.stage.awaited = false := by
  by_contra awaited
  exact idle _ ((h.attempts i call found).awaited x e attempt (by simpa using awaited))

theorem changes (h : Called c) (i : ℕ) (call : Call) (found : c.calls[i]? = some call) :
    call.state.changes = call.req.changes :=
  (h.attempts i call found).changes

end Called

theorem calls_keep (called : Called c) (moved : Steps c action c')
    (i : ℕ) (call : Call) (found : c.calls[i]? = some call) :
    ∃ call', c'.calls[i]? = some call' ∧ CallKeeps call call' := by
  -- Only a call whose result is not in yet is given one.
  have unended : ∀ (j : ℕ) (d : Call), c.calls[j]? = some d →
      (∀ how, d.state.status ≠ .ended how) → d.result = none := by
    intro j d here going
    by_contra some
    obtain ⟨how, ended⟩ := (called.attempts j d here).ended.mp (Option.isSome_iff_ne_none.mpr some)
    exact going how ended
  cases moved with
  | startsCall | startsOpen | startsRelease => exact ⟨call, lookup_add found, .refl call⟩
  | waits j d d' here waiting waits =>
    have open_ := unended j d here (by simp [waiting])
    refine CallKeeps.of_write d' here ?_ i call found
    cases waits with
    | checks | takes => exact ⟨rfl, rfl, rfl, rfl, rfl, fun _ => id, id⟩
    | fails => exact ⟨rfl, rfl, rfl, rfl, rfl, by simp [open_], id⟩
  | sends _ d g here taken =>
    exact CallKeeps.of_write { d with state := d.state.sent g, taken := none } here
      ⟨rfl, rfl, rfl, rfl, rfl, fun _ => id, id⟩ i call found
  | returns x e _ _ _ _ _ here _ returned ends =>
    cases returned with
    | call j d d' origin known ended =>
      obtain ⟨awaited, _⟩ := ends_consistent ends
      have flies := (called.attempts j d known).awaited x e ⟨here, origin⟩ awaited
      have open_ := unended j d known (by simp [flies])
      refine CallKeeps.of_write d' known ?_ i call found
      cases ends_callEnds ended with
      | stops => exact ⟨rfl, rfl, rfl, rfl, rfl, by simp [open_], id⟩
      | unsent | resends => exact ⟨rfl, rfl, rfl, rfl, rfl, fun _ => id, id⟩
    | reopen | owed => exact ⟨call, found, .refl call⟩
  | settles _ d _ _ here =>
    exact CallKeeps.of_write { d with settled := true } here
      ⟨rfl, rfl, rfl, rfl, rfl, fun _ => id, fun _ => rfl⟩ i call found
  | _ => exact ⟨call, found, .refl call⟩

theorem calls_of_keep (called : Called c) (moved : Steps c action c')
    (i : ℕ) (call' : Call) (found : c'.calls[i]? = some call') :
    (∃ call, c.calls[i]? = some call ∧ CallKeeps call call') ∨
      (i = c.calls.length ∧ c'.sent = c.sent ∧ Started c call') := by
  by_cases old : i < c.calls.length
  · obtain ⟨call, here⟩ : ∃ call, c.calls[i]? = some call := ⟨_, List.getElem?_eq_getElem old⟩
    obtain ⟨d, there, keeps⟩ := calls_keep called moved i call here
    cases found.symm.trans there
    exact .inl ⟨call, here, keeps⟩
  · right
    have kept : ∀ {calls : List Call}, calls[i]? = some call' → calls.length = c.calls.length →
        False := by
      intro calls here same
      have := lt_of_lookup here
      omega
    cases moved with
    | startsCall | startsOpen | startsRelease =>
      rcases of_lookup_add found with found | ⟨rfl, rfl⟩
      · exact (kept found rfl).elim
      · exact ⟨rfl, rfl, rfl, rfl, rfl, rfl, rfl, rfl⟩
    | returns _ _ _ _ _ _ _ _ _ returned =>
      cases returned with
      | call => exact (kept found (List.length_set ..)).elim
      | reopen | owed => exact (kept found rfl).elim
    | waits | sends | settles => exact (kept found (List.length_set ..)).elim
    | _ => exact (kept found rfl).elim

variable {sent : List Sent}

theorem Attempts.rewritten {i x : ℕ} {e e' : Sent} (h : Attempts sent i call)
    (found : sent[x]? = some e) (origin : e'.origin = e.origin)
    (same : e.origin = .call i → e.req = e'.req ∧ e.generation = e'.generation ∧ e.stage.awaited = e'.stage.awaited ∧ e.outcome = e'.outcome) :
    Attempts (sent.set x e') i call := by
  refine h.resent fun y d attempt => ?_
  rcases of_lookup_write attempt.1 with ⟨rfl, rfl⟩ | ⟨_, here⟩
  · have mine : e.origin = .call i := origin.symm.trans attempt.2
    exact ⟨e, ⟨found, mine⟩, same mine⟩
  · exact ⟨d, ⟨here, attempt.2⟩, rfl, rfl, rfl, rfl⟩

theorem Attempts.added {i : ℕ} {new : Sent} (h : Attempts sent i call)
    (other : new.origin ≠ .call i) : Attempts (sent ++ [new]) i call := by
  refine h.resent fun y d attempt => ?_
  rcases of_lookup_add attempt.1 with here | ⟨_, rfl⟩
  · exact ⟨d, ⟨here, attempt.2⟩, rfl, rfl, rfl, rfl⟩
  · exact absurd attempt.2 other

theorem Attempts.ends {i x : ℕ} {call call' : Call} {e : Sent} (h : Attempts sent i call)
    (attempt : Attempt sent i x e) (awaited : e.stage.awaited = true) {stage : SentStage}
    (ended : stage.awaited = false) {how : Exchanged} (ends : call.ends how = some call') :
    Attempts (sent.set x { e with stage := stage, outcome := some how }) i call' := by
  have flies := h.awaited x e attempt awaited
  have open_ : call.result = .none := by
    by_contra some
    obtain ⟨last, ended⟩ := h.ended.mp (Option.isSome_iff_ne_none.mpr some)
    rw [flies] at ended
    cases ended
  cases ends_callEnds ends with
  | stops =>
    refine h.returned attempt awaited ended how ⟨rfl, rfl⟩ rfl rfl ?_ h.lostOnce ?_ ?_ ?_ <;> simp
  | unsent _ flies' notSent =>
    rw [flies] at flies'
    cases flies'
    refine h.returned attempt awaited ended how ⟨rfl, rfl⟩ rfl rfl ?_ h.lostOnce ?_ ?_ ?_ <;>
      simp [open_, notSent]
  | resends _ flies' lost resendable first =>
    rw [flies] at flies'
    cases flies'
    refine h.returned attempt awaited ended how ⟨rfl, rfl⟩ rfl rfl ?_ (fun _ => resendable) ?_ ?_ ?_ <;>
      simp [open_, lost, first]

theorem attempts_step (wired : Wired c) (called : Called c)
    (moved : Steps c action c') (i : ℕ) (call' : Call) (found : c'.calls[i]? = some call') :
    Attempts c'.sent i call' := by
  -- A call that has just been started has no attempt.
  have fresh : ∀ x e, ¬ Attempt c.sent c.calls.length x e :=
    fun x e attempt => absurd (called.known x e _ attempt.1 attempt.2) (Nat.lt_irrefl _)
  have start : ∀ (calls : List Call) (new : Call), calls = c.calls ++ [new] → Started c new →
      calls[i]? = some call' → Attempts c.sent i call' := by
    intro calls new same started here
    subst same
    rcases of_lookup_add here with here | ⟨rfl, rfl⟩
    · exact called.attempts i call' here
    · exact .none fresh started.changes started.resendable started.result started.status started.lostOnce
  cases moved with
  | startsCall | startsOpen | startsRelease =>
    exact start _ _ rfl ⟨rfl, rfl, rfl, rfl, rfl, rfl⟩ found
  | waits _ d _ here waiting waits =>
    rcases of_lookup_write found with ⟨rfl, rfl⟩ | ⟨_, old⟩
    · have attempts := called.attempts i d here
      cases waits with
      | checks | takes => exact attempts.recalled rfl rfl rfl rfl
      | fails how =>
        exact attempts.stops how (fun x e => called.unawaited here (by simp [waiting])) rfl rfl rfl rfl
    · exact called.attempts i call' old
  | sends _ d g here _ takes =>
    have waits : d.state.status = .waiting ∧ d.state.minGeneration ≤ g := by
      simp only [CallState.takes, Bool.and_eq_true, decide_eq_true_eq, wired.number g] at takes
      exact ⟨takes.1.1, takes.2⟩
    rcases of_lookup_write found with ⟨rfl, rfl⟩ | ⟨ne, old⟩
    · exact (called.attempts i d here).sends waits.1 waits.2 rfl rfl rfl rfl
    · exact (called.attempts i call' old).added fun origin => ne (Origin.call.inj origin).symm
  | writes _ _ here writing =>
    exact (called.attempts i call' found).rewritten here rfl fun _ =>
      ⟨rfl, rfl, by simp [writing, SentStage.awaited], rfl⟩
  | returns _ _ _ _ _ _ _ here _ returned ends =>
    obtain ⟨awaited, ended, _⟩ := ends_consistent ends
    cases returned with
    | call _ d _ origin known ends =>
      rcases of_lookup_write found with ⟨rfl, rfl⟩ | ⟨ne, old⟩
      · exact (called.attempts i d known).ends ⟨here, origin⟩ awaited ended ends
      · refine (called.attempts i call' old).rewritten here rfl fun mine => ?_
        rw [origin] at mine
        exact absurd (Origin.call.inj mine).symm ne
    | reopen _ origin | owed _ _ origin =>
      refine (called.attempts i call' found).rewritten here rfl fun mine => ?_
      rw [origin] at mine
      cases mine
  | cancelAnswered _ _ _ here cancelling =>
    exact (called.attempts i call' found).rewritten here rfl fun _ =>
      ⟨rfl, rfl, by simp [cancelling, SentStage.awaited], rfl⟩
  | settles _ d _ _ here =>
    rcases of_lookup_write found with ⟨rfl, rfl⟩ | ⟨_, old⟩
    · exact (called.attempts i d here).recalled rfl rfl rfl rfl
    · exact called.attempts i call' old
  | sendsReopen | sendsOwed => exact (called.attempts i call' found).added (by simp)
  | endsReopen _ _ _ _ _ _ _ _ here | joinsOwed _ _ _ _ _ _ _ _ here =>
    exact (called.attempts i call' found).rewritten here rfl fun _ => ⟨rfl, rfl, rfl, rfl⟩
  | _ => exact called.attempts i call' found

theorem mem_overNow {x : ℕ} :
    x ∈ c.overNow ↔ ∃ e, c.sent[x]? = some e ∧ e.stage.awaited = false := by
  simp only [Client.overNow, List.mem_filter, List.mem_range]
  constructor
  · rintro ⟨lt, settled⟩
    rw [List.getElem?_eq_getElem lt] at settled
    exact ⟨_, List.getElem?_eq_getElem lt, by simpa using settled⟩
  · rintro ⟨e, found, settled⟩
    exact ⟨lt_of_lookup found, by simp [found, settled]⟩

theorem mem_endedNow {i : ℕ} :
    i ∈ c.endedNow ↔ ∃ call, c.calls[i]? = some call ∧ call.result.isSome = true := by
  simp only [Client.endedNow, List.mem_filter, List.mem_range]
  constructor
  · rintro ⟨lt, ended⟩
    rw [List.getElem?_eq_getElem lt] at ended
    exact ⟨_, List.getElem?_eq_getElem lt, by simpa using ended⟩
  · rintro ⟨call, found, ended⟩
    exact ⟨lt_of_lookup found, by simp [found, ended]⟩

theorem waiting_of_fresh (moved : Steps c action c') {e : Sent}
    (found : c'.sent[c.sent.length]? = some e) {i : ℕ} (origin : e.origin = .call i) :
    ∃ call, c.calls[i]? = some call ∧ call.state.status = .waiting := by
  cases makes_of_new moved found with
  | call _ d _ here _ _ waits =>
    cases origin
    exact ⟨d, here, waits⟩
  | reopen | owed => cases origin

namespace Called

theorem new : Called .new := by
  constructor <;> simp [Client.new]

theorem step (marked : Marked c) (wired : Wired c) (called : Called c)
    (moved : Steps c action c') : Called c' := by
  have before := sent_of_evolves marked wired called.changes moved
  have idle : ∀ (i x : ℕ) (call : Call) (e : Sent), c.calls[i]? = some call →
      (call.result.isSome = true ∨ call.state.status = .waiting) → c.sent[x]? = some e →
      e.origin = .call i → x ∈ c.overNow := by
    intro i x call e here rests sent origin
    refine mem_overNow.mpr ⟨e, sent, called.unawaited here (fun g flies => ?_) ⟨sent, origin⟩⟩
    rcases rests with ended | waits
    · obtain ⟨how, ended⟩ := (called.attempts i call here).ended.mp ended
      rw [flies] at ended
      cases ended
    · rw [flies] at waits
      cases waits
  refine ⟨?_, attempts_step wired called moved, ?_, ?_, ?_, ?_⟩
  · intro x e i found origin
    obtain ⟨call, here⟩ : ∃ call, c.calls[i]? = some call := by
      rcases before x e found with ⟨d, known, evolves⟩ | ⟨rfl, _⟩
      · have lt := called.known x d i known (evolves.origin.symm.trans origin)
        exact ⟨_, List.getElem?_eq_getElem lt⟩
      · obtain ⟨call, here, _⟩ := waiting_of_fresh moved found origin
        exact ⟨call, here⟩
    obtain ⟨call', there, _⟩ := calls_keep called moved i call here
    exact lt_of_lookup there
  · intro x e y found mem
    obtain ⟨lt, d, known, settled⟩ : y < x ∧ ∃ d, c.sent[y]? = some d ∧ d.stage.awaited = false := by
      rcases before x e found with ⟨d, known, evolves⟩ | ⟨rfl, fresh⟩
      · exact called.overBefore x d y known (evolves.overBefore ▸ mem)
      · rw [fresh.overBefore] at mem
        obtain ⟨d, known, settled⟩ := mem_overNow.mp mem
        exact ⟨lt_of_lookup known, d, known, settled⟩
    obtain ⟨d', there, evolves⟩ := sent_evolves wired moved y d known
    exact ⟨lt, d', there, (evolves.settled settled).1⟩
  · intro i call j found mem
    obtain ⟨lt, d, known, ended⟩ : j < i ∧ ∃ d, c.calls[j]? = some d ∧ d.result.isSome = true := by
      rcases calls_of_keep called moved i call found with ⟨call₀, here, keeps⟩ | ⟨rfl, _, started⟩
      · exact called.endedBefore i call₀ j here (keeps.endedBefore ▸ mem)
      · rw [started.endedBefore] at mem
        obtain ⟨d, known, ended⟩ := mem_endedNow.mp mem
        exact ⟨lt_of_lookup known, d, known, ended⟩
    obtain ⟨d', there, keeps⟩ := calls_keep called moved j d known
    obtain ⟨result, ended⟩ := Option.isSome_iff_exists.mp ended
    exact ⟨lt, d', there, by simp [keeps.ended result ended]⟩
  · intro i j call x y e d found mem foundY originY foundX originX
    rcases calls_of_keep called moved i call found with ⟨call₀, here, keeps⟩ | ⟨rfl, same, _⟩
    · rw [keeps.endedBefore] at mem
      obtain ⟨_, earlier, known, ended⟩ := called.endedBefore i call₀ j here mem
      -- The earlier call is over, so this step makes no exchange for it.
      obtain ⟨e₀, knownX, evolvesX⟩ : ∃ e₀, c.sent[x]? = some e₀ ∧ Evolves e₀ e := by
        rcases before x e foundX with old | ⟨rfl, _⟩
        · exact old
        · obtain ⟨waiter, there, waits⟩ := waiting_of_fresh moved foundX originX
          cases known.symm.trans there
          obtain ⟨how, ended⟩ := (called.attempts j earlier known).ended.mp ended
          rw [waits] at ended
          cases ended
      have originX₀ := evolvesX.origin.symm.trans originX
      rcases before y d foundY with ⟨d₀, knownY, evolvesY⟩ | ⟨rfl, fresh⟩
      · rw [evolvesY.overBefore]
        exact called.follows i j call₀ x y e₀ d₀ here mem knownY
          (evolvesY.origin.symm.trans originY) knownX originX₀
      · rw [fresh.overBefore]
        exact idle j x earlier e₀ known (.inl ended) knownX originX₀
    · rw [same] at foundY
      exact absurd (called.known y d _ foundY originY) (Nat.lt_irrefl _)
  · intro i x y e d foundX foundY originX originY lt
    rcases before x e foundX with ⟨e₀, knownX, evolvesX⟩ | ⟨rfl, _⟩
    · have originX₀ := evolvesX.origin.symm.trans originX
      rcases before y d foundY with ⟨d₀, knownY, evolvesY⟩ | ⟨rfl, fresh⟩
      · rw [evolvesY.overBefore]
        exact called.resent i x y e₀ d₀ knownX knownY originX₀ (evolvesY.origin.symm.trans originY) lt
      · rw [fresh.overBefore]
        obtain ⟨call, here, waits⟩ := waiting_of_fresh moved foundY originY
        exact idle i x call e₀ here (.inr waits) knownX originX₀
    · rcases before y d foundY with ⟨_, knownY, _⟩ | ⟨rfl, _⟩
      · have := lt_of_lookup knownY
        omega
      · omega

end Called

theorem counts_of_awaited {i x : ℕ} {e : Sent} (h : Attempts sent i call)
    (found : sent[x]? = some e) (origin : e.origin = .call i) (changes : e.req.changes = true)
    (awaited : e.stage.awaited = true) :
    (call.state.gaveUp true).2 = true := by
  have flies := h.awaited x e ⟨found, origin⟩ awaited
  have ordered : call.state.changes = true := by
    rw [h.changes, ← h.req x e ⟨found, origin⟩]
    exact changes
  simp [CallState.gaveUp, countsGiveUp, flies, ordered]

/-- Nothing more is read of a change's exchange once it was answered or failed. -/
theorem closes_step (called : Called c) (moved : Steps c action c')
    {x : ℕ} {e e' : Sent} (found : c.sent[x]? = some e) (found' : c'.sent[x]? = some e')
    (changes : e.req.changes = true) (before : e.stage ≠ .closed) (after : e'.stage = .closed) :
    action = .cancelAnswered x ∨
      ∃ how, action = .ends x how ∧ e.stage = .awaiting ∧
        (how = .lost ∨ how = .protocol ∨ ∃ resp, how = .replied resp) := by
  obtain ⟨d, there, moves⟩ := sent_moves moved found
  cases found'.symm.trans there
  cases moves with
  | stays | joins => exact absurd after before
  | writes => cases after
  | answered named => exact .inl named
  | returns how counted stage _ named may returned ends =>
    subst after
    refine .inr ⟨how, named, ?_⟩
    obtain ⟨awaited, _⟩ := ends_consistent ends
    -- A release of the release task's is never given up on.
    have counts : counted = true ∨ ∀ error written, how ≠ .gaveUp error written := by
      cases returned with
      | call i call _ origin known =>
        exact .inl (counts_of_awaited (called.attempts i call known) found origin changes awaited)
      | reopen => exact .inl rfl
      | owed _ _ origin =>
        refine .inr fun error written same => ?_
        simp [same, origin, Origin.mayReturn] at may
    cases stage : e.stage <;> rw [stage] at ends awaited <;> try cases awaited
    · cases ends_unwritten ends rfl
    · refine ⟨rfl, ?_⟩
      cases how with
      | lost => exact .inl rfl
      | protocol => exact .inr (.inl rfl)
      | replied resp => exact .inr (.inr ⟨resp, rfl⟩)
      | notSent => cases ends
      | gaveUp error written =>
        obtain rfl := counts.resolve_right fun never => never error written rfl
        cases written <;> simp [SentStage.ends] at ends

end Calls

end JackalopeFs.ClientCalls
