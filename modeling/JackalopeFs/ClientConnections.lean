import JackalopeFs.OwedReleases

/-! # The client's connections and exchanges

Invariants of the client's machine, for any behaviour of the network and the server:
only the newest connection may be up, the pending cancels of a connection count the
exchanges given up on, and an exchange is awaited until it has an outcome.  The module
also sums up what a step leaves of an exchange and of a connection, and what is known of
an exchange that a step makes.
-/

namespace JackalopeFs.ClientConnections

open ClientHandles ClientMachine ClientTasks IndexedCells OwedReleases TransitionRuns WireRequests

variable {c c' : Client} {action : ClientTasks.Action}

/-- Given up on, and the server has not yet said what became of it. -/
def pending (g : ℕ) (e : Sent) : Bool :=
  e.generation == g && e.stage == .cancelling

/-- The outcome of an exchange and the stage it left behind. -/
def Consistent (e : Sent) : Prop :=
  (e.outcome = none ↔ e.stage.awaited = true) ∧ (e.outcome = some .notSent → e.stage = .unwritten)

structure Wired (c : Client) : Prop where
  number : ∀ g, (c.attached g).state.generation = g
  up : ∀ g, (c.attached g).up = true → g = c.generation ∧ c.manager ≠ .connecting
  shown : ∀ g, (c.attached g).state.published = true → 0 < g ∧ g ≤ c.generation
  begun : c.manager ≠ .connecting → 0 < c.generation
  sent : ∀ (x : ℕ) (e : Sent), c.sent[x]? = some e → 0 < e.generation ∧ e.generation ≤ c.generation
  consistent : ∀ (x : ℕ) (e : Sent), c.sent[x]? = some e → Consistent e
  cancels : ∀ g, (c.attached g).state.cancels = c.sent.countP (pending g)
  clear : ∀ fh rest looping, c.releasing = some ⟨fh :: rest, looping⟩ →
    (c.attached c.generation).state.cancels = 0 ∧
      (c.attached c.generation).state.published = true

variable {stage stage' : SentStage} {how : Exchanged} {counted : Bool}

section

variable (h : stage.ends how counted = some stage')

include h

theorem ends_consistent :
    stage.awaited = true ∧ stage'.awaited = false ∧ (how = .notSent → stage' = .unwritten) := by
  cases stage <;> cases how <;> simp only [SentStage.ends, reduceCtorEq] at h
  case writing.gaveUp error written =>
    cases written <;> simp at h
    subst h
    simp [SentStage.awaited]
  case awaiting.gaveUp error written =>
    cases written <;> simp at h
    subst h
    cases counted <;> simp [SentStage.awaited]
  all_goals
    cases h
    simp [SentStage.awaited]

theorem ends_counted : stage ≠ .cancelling := by
  rintro rfl
  cases how <;> cases h

theorem ends_written (written : stage.written = true) :
    stage'.written = true := by
  cases stage <;> cases how <;> simp only [SentStage.ends, reduceCtorEq] at h <;> try cases written
  case awaiting.gaveUp error whole =>
    cases whole <;> simp at h
    subst h
    cases counted <;> rfl
  all_goals
    cases h
    rfl

theorem ends_unwritten
    (unwritten : stage.written = false) :
    stage'.written = false := by
  cases stage <;> try cases unwritten
  · cases how <;> simp only [SentStage.ends, reduceCtorEq] at h
    case gaveUp error whole =>
      cases whole <;> simp at h
      subst h
      rfl
    all_goals
      cases h
      rfl
  · cases how <;> cases h

end

theorem Consistent.moves {x : ℕ} {e e' : Sent} (h : Consistent e)
    (moves : SentMoves c action x e e') : Consistent e' := by
  cases moves with
  | stays | joins => exact h
  | writes writing =>
    rw [Consistent, writing] at h
    exact ⟨h.1, fun lost => absurd (h.2 lost) (by simp)⟩
  | returns _ _ _ _ _ _ _ ends =>
    obtain ⟨_, answered, unsent⟩ := ends_consistent ends
    exact ⟨by simp [answered], by simpa using unsent⟩
  | answered _ cancelling =>
    rw [Consistent, cancelling] at h
    exact ⟨h.1, fun lost => absurd (h.2 lost) (by simp)⟩

namespace Wired

theorem handed (h : Wired c) (marked : Marked c) {e : Sent} (makes : Makes c e) :
    0 < e.generation ∧ e.generation ≤ c.generation := by
  cases makes with
  | call _ _ g _ _ published => exact h.shown g published
  | reopen _ _ _ reopening => exact ⟨h.begun (by simp [reopening]), Nat.le_refl _⟩
  | owed _ _ _ _ releasing =>
    have published := marked.task (by simp [releasing])
    exact ⟨h.begun (by simp [published]), Nat.le_refl _⟩

theorem new : Wired .new where
  number := fun g => rfl
  up := by simp [Client.new]
  shown := by simp [Client.new, AttachedState.new]
  begun := by simp [Client.new]
  sent := by simp [Client.new]
  consistent := by simp [Client.new]
  cancels := by simp [Client.new, AttachedState.new]
  clear := by simp [Client.new]

/-- An exchange that is not given up on changes no count of pending cancels. -/
theorem count_add (h : Wired c) {d : Sent} (calm : d.stage ≠ .cancelling) (g : ℕ) :
    (c.attached g).state.cancels = (c.sent ++ [d]).countP (pending g) := by
  simp [h.cancels g, pending, calm]

theorem count_write (h : Wired c) {x : ℕ} {e : Sent} (e' : Sent) (found : c.sent[x]? = some e)
    (generation : e'.generation = e.generation)
    (calm : e'.stage = .cancelling ↔ e.stage = .cancelling) (g : ℕ) :
    (c.attached g).state.cancels = (c.sent.set x e').countP (pending g) := by
  have count := countP_write (pending g) e' found
  have same : pending g e' = pending g e := by
    rw [Bool.eq_iff_iff]
    simp [pending, generation, calm]
  have before := h.cancels g
  rw [same] at count
  omega

/-- The pending cancels of one connection change while the release task does not read them. -/
theorem recount (h : Wired c) {x : ℕ} {e : Sent} (e' : Sent) {calls : List Call}
    (found : c.sent[x]? = some e) (generation : e'.generation = e.generation) {n : ℕ}
    (unlocked : c.cancelsLocked e.generation = false)
    (counted : n + (if e.stage = .cancelling then 1 else 0) =
      (c.attached e.generation).state.cancels + (if e'.stage = .cancelling then 1 else 0))
    (sent : ∀ (y : ℕ) (d : Sent), (c.sent.set x e')[y]? = some d →
      0 < d.generation ∧ d.generation ≤ c.generation)
    (consistent : ∀ (y : ℕ) (d : Sent), (c.sent.set x e')[y]? = some d → Consistent d) :
    Wired { c with
      sent := c.sent.set x e', calls := calls
      attached := (c.setCancels e.generation n).attached } := by
  refine ⟨fun g => ?_, fun g => ?_, fun g => ?_, h.begun, sent, consistent, fun g => ?_,
    fun fh rest looping releasing => ?_⟩
  · have before := h.number g
    by_cases same : g = e.generation <;> simpa [Client.setCancels, Client.onAttached, same] using before
  · have before := h.up g
    by_cases same : g = e.generation <;> simpa [Client.setCancels, Client.onAttached, same] using before
  · have before := h.shown g
    by_cases same : g = e.generation <;> simpa [Client.setCancels, Client.onAttached, same] using before
  · have count := countP_write (pending g) e' found
    have before := h.cancels g
    by_cases same : g = e.generation
    · subst same
      simp only [Client.setCancels, Client.onAttached, Function.update_self]
      simp [pending, generation] at count
      omega
    · simp only [Client.setCancels, Client.onAttached, Function.update_of_ne same]
      simp [pending, generation, Ne.symm same] at count
      omega
  · have other : c.generation ≠ e.generation := by
      intro same
      simp only at releasing
      simp [Client.cancelsLocked, releasing, same] at unlocked
    simpa [Client.setCancels, Client.onAttached, other] using h.clear fh rest looping releasing

theorem connects (h : Wired c) (conn session token : ℕ) (resumed rootChanged : Bool)
    (connecting : c.manager = .connecting) (idle : c.releasing = none) :
    Wired { c with
      generation := c.generation + 1
      attached := Function.update c.attached (c.generation + 1)
        ⟨conn, session, resumed, .new (c.generation + 1), true⟩
      resume := some (session, token)
      manager := .greeted resumed rootChanged } := by
  -- Nothing was sent on the new connection, and no older one is up while the manager connects.
  have fresh : c.sent.countP (pending (c.generation + 1)) = 0 := by
    refine List.countP_eq_zero.mpr fun e mem => ?_
    obtain ⟨x, found⟩ := List.mem_iff_getElem?.mp mem
    have := (h.sent x e found).2
    simp only [pending, Bool.and_eq_true, beq_iff_eq, not_and]
    omega
  refine ⟨fun g => ?_, fun g => ?_, fun g => ?_, by simp, fun x e found => ?_, h.consistent,
    fun g => ?_, fun fh rest looping releasing => ?_⟩
  · by_cases same : g = c.generation + 1
    · simp [same, AttachedState.new]
    · simpa [same] using h.number g
  · by_cases same : g = c.generation + 1
    · simp [same]
    · intro up
      simp only [Function.update_of_ne same] at up
      exact absurd connecting (h.up g up).2
  · by_cases same : g = c.generation + 1
    · simp [same, AttachedState.new]
    · simp only [Function.update_of_ne same]
      intro shown
      obtain ⟨positive, le⟩ := h.shown g shown
      exact ⟨positive, Nat.le_succ_of_le le⟩
  · obtain ⟨positive, le⟩ := h.sent x e found
    exact ⟨positive, Nat.le_succ_of_le le⟩
  · by_cases same : g = c.generation + 1
    · subst same
      simp [AttachedState.new, fresh]
    · simpa [same] using h.cancels g
  · simp only [idle] at releasing
    cases releasing

/-- What is kept of a connection changes, but not its number nor its pending cancels. -/
theorem reattach (h : Wired c) {f : Attached → Attached} {manager : Manager}
    {releasing : Option ReleaseTask} (number : (f (c.attached c.generation)).state.generation =
      (c.attached c.generation).state.generation)
    (cancels : (f (c.attached c.generation)).state.cancels =
      (c.attached c.generation).state.cancels)
    (up : ∀ g, ((c.onAttached c.generation f).attached g).up = true →
      g = c.generation ∧ manager ≠ .connecting)
    (begun : manager ≠ .connecting → 0 < c.generation)
    (shown : (f (c.attached c.generation)).state.published = true → 0 < c.generation)
    (clear : ∀ fh rest looping, releasing = some ⟨fh :: rest, looping⟩ →
      (c.attached c.generation).state.cancels = 0 ∧
        (f (c.attached c.generation)).state.published = true) :
    Wired { c.onAttached c.generation f with manager := manager, releasing := releasing } := by
  refine ⟨fun g => ?_, up, fun g => ?_, begun, h.sent, h.consistent, fun g => ?_,
    fun fh rest looping running => ?_⟩
  · by_cases same : g = c.generation
    · subst same
      simpa [Client.onAttached] using number.trans (h.number _)
    · simpa [Client.onAttached, same] using h.number g
  · by_cases same : g = c.generation
    · subst same
      simpa [Client.onAttached] using shown
    · simpa [Client.onAttached, same] using h.shown g
  · by_cases same : g = c.generation
    · subst same
      simpa [Client.onAttached] using cancels.trans (h.cancels _)
    · simpa [Client.onAttached, same] using h.cancels g
  · obtain ⟨zero, published⟩ := clear fh rest looping running
    simpa [Client.onAttached] using And.intro (cancels.trans zero) published

theorem step (marked : Marked c) (h : Wired c) (moved : Steps c action c') : Wired c' := by
  have grows : c.generation ≤ c'.generation := by
    cases moved with
    | connects => exact Nat.le_succ _
    | _ => exact Nat.le_refl _
  have sent : ∀ (x : ℕ) (e : Sent), c'.sent[x]? = some e →
      0 < e.generation ∧ e.generation ≤ c'.generation := by
    intro x e found
    rcases sent_origin moved found with ⟨d, here, moves⟩ | ⟨_, makes⟩
    · rw [moves.same.2.2]
      exact (h.sent x d here).imp_right fun le => le.trans grows
    · exact (h.handed marked makes).imp_right fun le => le.trans grows
  have consistent : ∀ (x : ℕ) (e : Sent), c'.sent[x]? = some e → Consistent e := by
    intro x e found
    rcases sent_origin moved found with ⟨d, here, moves⟩ | ⟨_, makes⟩
    · exact (h.consistent x d here).moves moves
    · cases makes <;> simp [Consistent, SentStage.awaited]
  cases moved with
  | sends =>
    exact ⟨h.number, h.up, h.shown, h.begun, sent, consistent, h.count_add (by simp), h.clear⟩
  | writes _ _ found writing up =>
    exact ⟨h.number, h.up, h.shown, h.begun, sent, consistent,
      h.count_write _ found rfl (by simp [writing]), h.clear⟩
  | returns _ e how _ stage _ _ found _ _ ends unlocked =>
    have before := ends_counted ends
    split_ifs at sent consistent ⊢ with cancelling
    · exact h.recount { e with stage := stage, outcome := some how } found rfl (unlocked cancelling)
        (by simp [cancelling, before]) sent consistent
    · exact ⟨h.number, h.up, h.shown, h.begun, sent, consistent,
        h.count_write _ found rfl (by simp [cancelling, before]), h.clear⟩
  | cancelAnswered _ e _ found cancelling unlocked =>
    refine h.recount { e with stage := .closed } found rfl unlocked ?_ sent consistent
    simp [cancelling]
    omega
  | connects conn session token resumed rootChanged _ connecting =>
    refine h.connects conn session token resumed rootChanged connecting ?_
    by_contra running
    rw [marked.task running] at connecting
    cases connecting
  | roots _ _ greeted =>
    exact ⟨h.number, fun g up => ⟨(h.up g up).1, by simp⟩, h.shown, fun _ => h.begun (by simp [greeted]),
      sent, consistent, h.cancels, h.clear⟩
  | moots rooted =>
    exact ⟨h.number, fun g up => ⟨(h.up g up).1, by simp⟩, h.shown, fun _ => h.begun (by simp [rooted]),
      sent, consistent, h.cancels, h.clear⟩
  | fixes _ mooted =>
    exact ⟨h.number, fun g up => ⟨(h.up g up).1, by simp⟩, h.shown, fun _ => h.begun (by simp [mooted]),
      sent, consistent, h.cancels, h.clear⟩
  | sendsReopen _ _ _ _ reopening =>
    exact ⟨h.number, fun g up => ⟨(h.up g up).1, by simp⟩, h.shown,
      fun _ => h.begun (by simp [reopening]), sent, consistent, h.count_add (by simp), h.clear⟩
  | endsReopen _ _ _ _ _ _ _ reopening found =>
    exact ⟨h.number, fun g up => ⟨(h.up g up).1, by simp⟩, h.shown,
      fun _ => h.begun (by simp [reopening]), sent, consistent, h.count_write _ found rfl Iff.rfl,
      h.clear⟩
  | publishes ready =>
    have connected : c.manager ≠ .connecting := by
      rcases ready with rooted | ⟨round, reopening, _⟩
      · simp [rooted]
      · simp [reopening]
    refine h.reattach rfl rfl (fun g up => ⟨?_, by simp⟩) (fun _ => h.begun connected)
      (fun _ => h.begun connected) (by simp)
    by_cases same : g = c.generation
    · exact same
    · simp only [Client.onAttached, Function.update_of_ne same] at up
      exact (h.up g up).1
  | goesDown up =>
    refine h.reattach (f := fun a => { a with up := false }) rfl rfl (fun g up => ?_) h.begun
      (fun shown => (h.shown _ shown).1) h.clear
    by_cases same : g = c.generation
    · subst same
      simp [Client.onAttached] at up
    · simp only [Client.onAttached, Function.update_of_ne same] at up
      exact h.up g up
  | passes looping =>
    refine ⟨h.number, h.up, h.shown, h.begun, sent, consistent, h.cancels, ?_⟩
    intro fh rest looping releasing
    simp only [Option.some.injEq, ReleaseTask.mk.injEq, owedSendable] at releasing
    split_ifs at releasing with clear
    · simp only [Bool.and_eq_true, decide_eq_true_eq] at clear
      exact ⟨clear.2, clear.1⟩
    · cases releasing.1
  | sendsOwed fh rest looping _ _ releasing =>
    exact ⟨h.number, h.up, h.shown, h.begun, sent, consistent, h.count_add (by simp),
      fun _ _ _ _ => h.clear fh rest looping releasing⟩
  | joinsOwed _ _ _ _ _ _ _ _ found =>
    exact ⟨h.number, h.up, h.shown, h.begun, sent, consistent, h.count_write _ found rfl Iff.rfl,
      h.clear⟩
  | leaves | releasesEnd =>
    exact ⟨h.number, h.up, h.shown, h.begun, sent, consistent, h.cancels, by simp⟩
  | reconnects _ _ lost =>
    refine ⟨h.number, fun g up => ?_, h.shown, by simp, sent, consistent, h.cancels, h.clear⟩
    obtain ⟨rfl, _⟩ := h.up g up
    rw [lost] at up
    cases up
  | _ => exact ⟨h.number, h.up, h.shown, h.begun, sent, consistent, h.cancels, h.clear⟩

end Wired

section Effects

structure Evolves (e e' : Sent) : Prop where
  origin : e'.origin = e.origin
  req : e'.req = e.req
  generation : e'.generation = e.generation
  overBefore : e'.overBefore = e.overBefore
  settled : e.stage.awaited = false → e'.stage.awaited = false ∧ e'.outcome = e.outcome
  unwritten : e.stage = .unwritten → e'.stage = .unwritten
  written : e.stage.written = true → e'.stage.written = true
  returned : ∀ how, e.outcome = some how → e'.outcome = some how

theorem Evolves.refl (e : Sent) : Evolves e e :=
  ⟨rfl, rfl, rfl, rfl, fun h => ⟨h, rfl⟩, id, id, fun _ => id⟩

/-- What is known of an exchange at the step that makes it. -/
structure Fresh (c : Client) (e : Sent) : Prop where
  stage : e.stage = .writing
  outcome : e.outcome = none
  overBefore : e.overBefore = c.overNow
  handed : 0 < e.generation ∧ e.generation ≤ c.generation
  clear : e.req.changes = true → (∀ fh, e.origin ≠ .reopen fh) →
    (c.attached e.generation).state.cancels = 0

structure Reattaches (a a' : Attached) : Prop where
  conn : a'.conn = a.conn
  session : a'.session = a.session
  resumed : a'.resumed = a.resumed
  up : a'.up = true → a.up = true
  published : a.state.published = true → a'.state.published = true

theorem Reattaches.refl (a : Attached) : Reattaches a a :=
  ⟨rfl, rfl, rfl, id, id⟩

theorem Evolves.of_moves {x : ℕ} {e e' : Sent} (h : Consistent e)
    (moves : SentMoves c action x e e') : Evolves e e' := by
  cases moves with
  | stays => exact .refl e
  | writes writing =>
    have open_ := h.1.mpr (by simp [writing, SentStage.awaited])
    constructor <;> simp [writing, open_, SentStage.awaited, SentStage.written]
  | returns _ _ _ _ _ _ _ ends =>
    obtain ⟨awaited, _⟩ := ends_consistent ends
    have open_ := h.1.mpr awaited
    refine ⟨rfl, rfl, rfl, rfl, by simp [awaited], fun unwritten => ?_, ends_written ends,
      by simp [open_]⟩
    rw [unwritten] at awaited
    cases awaited
  | answered _ cancelling => constructor <;> simp [cancelling, SentStage.awaited, SentStage.written]
  | joins => exact ⟨rfl, rfl, rfl, rfl, fun h => ⟨h, rfl⟩, id, id, fun _ => id⟩

theorem sent_evolves (wired : Wired c) (moved : Steps c action c') (x : ℕ) (e : Sent)
    (found : c.sent[x]? = some e) : ∃ e', c'.sent[x]? = some e' ∧ Evolves e e' := by
  obtain ⟨e', found', moves⟩ := sent_moves moved found
  exact ⟨e', found', .of_moves (wired.consistent x e found) moves⟩

theorem sent_of_evolves (marked : Marked c) (wired : Wired c)
    (changes : ∀ (i : ℕ) (call : Call), c.calls[i]? = some call →
      call.state.changes = call.req.changes)
    (moved : Steps c action c') (x : ℕ) (e' : Sent) (found : c'.sent[x]? = some e') :
    (∃ e, c.sent[x]? = some e ∧ Evolves e e') ∨ (x = c.sent.length ∧ Fresh c e') := by
  rcases sent_origin moved found with ⟨e, here, moves⟩ | ⟨last, makes⟩
  · exact .inl ⟨e, here, .of_moves (wired.consistent x e here) moves⟩
  · have handed := wired.handed marked makes
    refine .inr ⟨last, ?_⟩
    cases makes with
    | call i call _ known _ _ _ clear =>
      exact ⟨rfl, rfl, rfl, handed, fun ordered _ => clear ((changes i call known).trans ordered)⟩
    | reopen fh => exact ⟨rfl, rfl, rfl, handed, fun _ other => absurd rfl (other fh)⟩
    | owed fh _ rest looping releasing =>
      exact ⟨rfl, rfl, rfl, handed, fun _ _ => (wired.clear fh rest looping releasing).1⟩

theorem up_of_written (moved : Steps c action c') {x : ℕ} {e e' : Sent}
    (found : c.sent[x]? = some e) (found' : c'.sent[x]? = some e')
    (before : e.stage.written = false) (after : e'.stage.written = true) :
    (c.attached e.generation).up = true := by
  obtain ⟨d, there, moves⟩ := sent_moves moved found
  cases found'.symm.trans there
  cases moves with
  | stays | joins =>
    rw [before] at after
    cases after
  | writes _ up => exact up
  | returns _ _ _ _ _ _ _ ends =>
    simp only [ends_unwritten ends before, Bool.false_eq_true] at after
  | answered _ cancelling => simp [cancelling, SentStage.written] at before

theorem attached_reattaches (moved : Steps c action c') {g : ℕ}
    (known : g ≤ c.generation) : Reattaches (c.attached g) (c'.attached g) := by
  have update : ∀ (g' : ℕ) (f : Attached → Attached),
      Reattaches (c.attached g') (f (c.attached g')) →
      Reattaches (c.attached g) ((c.onAttached g' f).attached g) := by
    intro g' f kept
    by_cases same : g = g'
    · subst same
      simpa [Client.onAttached] using kept
    · simpa [Client.onAttached, same] using Reattaches.refl (c.attached g)
  have recount : ∀ g' n, Reattaches (c.attached g) ((c.setCancels g' n).attached g) := fun g' n =>
    update g' (fun a => { a with state := { a.state with cancels := n } })
      ⟨rfl, rfl, rfl, id, id⟩
  cases moved with
  | connects =>
    simp only [Function.update_of_ne (by omega : g ≠ c.generation + 1)]
    exact .refl _
  | publishes =>
    exact update _ (fun a => { a with state := { a.state with published := true } })
      ⟨rfl, rfl, rfl, id, fun _ => rfl⟩
  | goesDown => exact update _ _ ⟨rfl, rfl, rfl, by simp, id⟩
  | returns =>
    split_ifs
    · exact recount _ _
    · exact .refl _
  | cancelAnswered => exact recount _ _
  | _ => exact .refl _

end Effects

end JackalopeFs.ClientConnections
