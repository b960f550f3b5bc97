import JackalopeFs.ClientTasks

/-! # The releases a client owes: none lost, stuck or repeated

A release is owed when the client cannot tell that the server let go of a handle.
The release task of each connection sends what is owed then, and marks it with the
connection's generation.  The invariant below follows the marks through every
interleaving of the client's tasks, against any behaviour of the network and the
server.  An owed release is identified by its handle and its serial, so that the
release of an id owed again later is another one.
-/

namespace JackalopeFs.OwedReleases

open ClientHandles ClientMachine ClientTasks IndexedCells KeyedTables TransitionRuns
open HandleTable (Owes)

variable {c c' : Client} {action : ClientTasks.Action}

/-- The exchanges of owed releases are as before, and no exchange is gone. -/
structure Tracks (sent sent' : List Sent) : Prop where
  back : ∀ (x : ℕ) (e' : Sent) (fh n : ℕ), sent'[x]? = some e' → e'.origin = .owed fh n →
    ∃ e : Sent, sent[x]? = some e ∧ e'.origin = e.origin ∧ e'.generation = e.generation ∧
      e'.joined = e.joined
  forth : ∀ (x : ℕ) (e : Sent), sent[x]? = some e →
    ∃ e' : Sent, sent'[x]? = some e' ∧ e'.origin = e.origin ∧ e'.generation = e.generation

namespace Tracks

theorem refl (sent : List Sent) : Tracks sent sent :=
  ⟨fun _ e' _ _ h _ => ⟨e', h, rfl, rfl, rfl⟩, fun _ e h => ⟨e, h, rfl, rfl⟩⟩

variable {sent : List Sent}

theorem forth_write {y : ℕ} {old new : Sent} (found : sent[y]? = some old)
    (origin : new.origin = old.origin) (generation : new.generation = old.generation) (x : ℕ)
    (e : Sent) (h : sent[x]? = some e) :
    ∃ e', (sent.set y new)[x]? = some e' ∧ e'.origin = e.origin ∧ e'.generation = e.generation := by
  by_cases same : x = y
  · subst same
    cases found.symm.trans h
    exact ⟨new, lookup_write found, origin, generation⟩
  · exact ⟨e, (lookup_write_of_ne same).trans h, rfl, rfl⟩

theorem write {y : ℕ} {old new : Sent} (found : sent[y]? = some old)
    (origin : new.origin = old.origin) (generation : new.generation = old.generation)
    (joined : (∃ fh n, old.origin = .owed fh n) → new.joined = old.joined) :
    Tracks sent (sent.set y new) where
  back := fun x e' fh n h owed => by
    rcases of_lookup_write h with ⟨rfl, rfl⟩ | ⟨_, h⟩
    · exact ⟨old, found, origin, generation, joined ⟨fh, n, origin ▸ owed⟩⟩
    · exact ⟨e', h, rfl, rfl, rfl⟩
  forth := forth_write found origin generation

theorem add {new : Sent} (other : ∀ fh n, new.origin ≠ .owed fh n) :
    Tracks sent (sent ++ [new]) where
  back := fun x e' fh n h owed => by
    rcases of_lookup_add h with h | ⟨_, rfl⟩
    · exact ⟨e', h, rfl, rfl, rfl⟩
    · exact absurd owed (other fh n)
  forth := fun x e h => ⟨e, lookup_add h, rfl, rfl⟩

end Tracks

/-- A step that neither moves the release task nor begins or ends a connection. -/
structure Ordinary (c c' : Client) : Prop where
  owes : Owes c.handles c'.handles
  tracks : Tracks c.sent c'.sent
  generation : c'.generation = c.generation
  releasing : c'.releasing = c.releasing
  published : c'.manager = .published ↔ c.manager = .published
  connecting : c'.manager = .connecting ↔ c.manager = .connecting
  up : (c'.attached c.generation).up = true → (c.attached c.generation).up = true
  shown : (c'.attached c.generation).state.published = (c.attached c.generation).state.published

structure Marked (c : Client) : Prop where
  task : c.releasing ≠ none → c.manager = .published
  live : (c.attached c.generation).up = true → c.manager ≠ .connecting ∧
    (c.manager = .published → ∃ pass, c.releasing = some ⟨pass, true⟩)
  shown : (c.attached c.generation).state.published = true →
    c.manager = .published ∨ c.manager = .connecting
  early : ∀ (x : ℕ) (e : Sent) (fh n : ℕ), c.sent[x]? = some e → e.origin = .owed fh n → e.generation ≤ c.generation ∧
    (e.generation = c.generation → c.manager = .published ∨ c.manager = .connecting)
  serial : ∀ fh owed, c.handles.owed.lookup fh = some owed → owed.serial < c.handles.owedCount
  known : ∀ (x : ℕ) (e : Sent) (fh n : ℕ), c.sent[x]? = some e → e.origin = .owed fh n → n < c.handles.owedCount
  mark : ∀ fh owed g, c.handles.owed.lookup fh = some owed → owed.sendingOn = some g →
    g = c.generation ∧ c.releasing ≠ none ∧
      ∃ (x : ℕ) (e : Sent), c.sent[x]? = some e ∧ e.origin = .owed fh owed.serial ∧ e.generation = g
  marked : ∀ (x : ℕ) (e : Sent) (fh : ℕ) (owed : OwedRelease), c.sent[x]? = some e → e.origin = .owed fh owed.serial →
    e.generation = c.generation → c.handles.owed.lookup fh = some owed →
    owed.sendingOn = some c.generation ∨ c.releasing = none
  unjoined : ∀ (x : ℕ) (e : Sent) (fh n : ℕ), c.sent[x]? = some e → e.origin = .owed fh n →
    e.generation = c.generation → e.joined = false → ∃ owed, c.handles.owed.lookup fh = some owed ∧
      owed.serial = n ∧ owed.sendingOn = some c.generation
  once : ∀ (x y : ℕ) (e e' : Sent) (fh n : ℕ), c.sent[x]? = some e → c.sent[y]? = some e' → e.origin = .owed fh n →
    e'.origin = .owed fh n → e.generation = e'.generation → x = y
  pass : ∀ pass looping, c.releasing = some ⟨pass, looping⟩ → pass.Nodup ∧
    ∀ fh ∈ pass, ∃ owed, c.handles.owed.lookup fh = some owed ∧ owed.sendingOn = none

namespace Marked

theorem new : Marked .new where
  task := by simp [Client.new]
  live := by simp [Client.new]
  shown := by simp [Client.new, AttachedState.new]
  early := by simp [Client.new]
  serial := by simp [Client.new, HandleTable.new]
  known := by simp [Client.new]
  mark := by simp [Client.new, HandleTable.new]
  marked := by simp [Client.new]
  unjoined := by simp [Client.new]
  once := by simp [Client.new]
  pass := by simp [Client.new]

section

variable (h : Marked c)

include h

theorem ordinary (o : Ordinary c c') : Marked c' where
  task := by
    rw [o.releasing, o.published]
    exact h.task
  live := by
    rw [o.generation, o.releasing, o.published, Ne, o.connecting]
    exact fun up => h.live (o.up up)
  shown := by
    rw [o.generation, o.shown, o.published, o.connecting]
    exact h.shown
  early := fun x e' fh n found origin => by
    obtain ⟨e, found, sameOrigin, sameGeneration, _⟩ := o.tracks.back x e' fh n found origin
    rw [sameGeneration, o.generation, o.published, o.connecting]
    exact h.early x e fh n found (sameOrigin ▸ origin)
  serial := fun fh owed found => by
    have count := o.owes.count
    rcases o.owes.adds fh owed found with found | ⟨_, _, high⟩
    · have := h.serial fh owed found
      omega
    · exact high
  known := fun x e' fh n found origin => by
    obtain ⟨e, found, sameOrigin, _⟩ := o.tracks.back x e' fh n found origin
    have := h.known x e fh n found (sameOrigin ▸ origin)
    have := o.owes.count
    omega
  mark := fun fh owed g found sending => by
    rcases o.owes.adds fh owed found with found | ⟨unsent, _⟩
    · obtain ⟨current, running, x, e, sent, origin, generation⟩ := h.mark fh owed g found sending
      obtain ⟨e', sent', origin', generation'⟩ := o.tracks.forth x e sent
      rw [o.generation, o.releasing]
      exact ⟨current, running, x, e', sent', origin'.trans origin, generation'.trans generation⟩
    · rw [unsent] at sending
      cases sending
  marked := fun x e' fh owed found origin current held => by
    obtain ⟨e, found, sameOrigin, sameGeneration, _⟩ := o.tracks.back x e' fh _ found origin
    rw [o.generation] at current ⊢
    rw [o.releasing]
    rw [sameOrigin] at origin
    rcases o.owes.adds fh owed held with held | ⟨_, low, _⟩
    · exact h.marked x e fh owed found origin (sameGeneration ▸ current) held
    · have := h.known x e fh _ found origin
      omega
  unjoined := fun x e' fh n found origin current apart => by
    obtain ⟨e, found, sameOrigin, sameGeneration, sameJoined⟩ :=
      o.tracks.back x e' fh n found origin
    rw [o.generation] at current ⊢
    obtain ⟨owed, held, serial, sending⟩ := h.unjoined x e fh n found (sameOrigin ▸ origin)
      (sameGeneration ▸ current) (sameJoined ▸ apart)
    exact ⟨owed, o.owes.keeps fh owed held, serial, sending⟩
  once := fun x y e e' fh n hx hy originX originY same => by
    obtain ⟨d, hd, originD, generationD, _⟩ := o.tracks.back x e fh n hx originX
    obtain ⟨d', hd', originD', generationD', _⟩ := o.tracks.back y e' fh n hy originY
    exact h.once x y d d' fh n hd hd' (originD ▸ originX) (originD' ▸ originY)
      (generationD ▸ generationD' ▸ same)
  pass := fun pass looping releasing => by
    rw [o.releasing] at releasing
    obtain ⟨nodup, unsent⟩ := h.pass pass looping releasing
    refine ⟨nodup, fun fh mem => ?_⟩
    obtain ⟨owed, held, sending⟩ := unsent fh mem
    exact ⟨owed, o.owes.keeps fh owed held, sending⟩

theorem idle (unpublished : c.manager ≠ .published) : c.releasing = none := by
  by_contra running
  exact unpublished (h.task running)

theorem older (unpublished : c.manager ≠ .published)
    (connected : c.manager ≠ .connecting) (x : ℕ) (e : Sent) (fh n : ℕ) (found : c.sent[x]? = some e)
    (origin : e.origin = .owed fh n) : e.generation < c.generation := by
  obtain ⟨le, current⟩ := h.early x e fh n found origin
  refine lt_of_le_of_ne le fun same => ?_
  rcases current same with here | here
  · exact unpublished here
  · exact connected here

/-- A step without a release task, after which nothing was sent on the current connection yet. -/
theorem quiet (idle : c.releasing = none) (sent : c'.sent = c.sent)
    (older : ∀ (x : ℕ) (e : Sent) (fh n : ℕ), c.sent[x]? = some e → e.origin = .owed fh n →
      e.generation < c'.generation)
    (owed : ∀ fh o, c'.handles.owed.lookup fh = some o → c.handles.owed.lookup fh = some o)
    (count : c'.handles.owedCount = c.handles.owedCount)
    (unsent : ∀ pass looping, c'.releasing = some ⟨pass, looping⟩ → pass = [])
    (task : c'.releasing ≠ none → c'.manager = .published)
    (live : (c'.attached c'.generation).up = true → c'.manager ≠ .connecting ∧
      (c'.manager = .published → ∃ pass, c'.releasing = some ⟨pass, true⟩))
    (shown : (c'.attached c'.generation).state.published = true →
      c'.manager = .published ∨ c'.manager = .connecting) : Marked c' := by
  refine ⟨task, live, shown, ?_, ?_, ?_, ?_, ?_, ?_, ?_, ?_⟩
  · intro x e fh n found origin
    have lt := older x e fh n (sent ▸ found) origin
    exact ⟨Nat.le_of_lt lt, fun same => absurd same (Nat.ne_of_lt lt)⟩
  · intro fh o held
    rw [count]
    exact h.serial fh o (owed fh o held)
  · intro x e fh n found origin
    rw [count]
    exact h.known x e fh n (sent ▸ found) origin
  · intro fh o g held sending
    exact absurd idle (h.mark fh o g (owed fh o held) sending).2.1
  · intro x e fh o found origin current
    exact absurd current (Nat.ne_of_lt (older x e fh _ (sent ▸ found) origin))
  · intro x e fh n found origin current
    exact absurd current (Nat.ne_of_lt (older x e fh n (sent ▸ found) origin))
  · rw [sent]
    exact h.once
  · intro pass looping releasing
    obtain rfl := unsent pass looping releasing
    exact ⟨List.nodup_nil, by simp⟩

theorem connects (conn session token : ℕ) (resumed rootChanged : Bool)
    (connecting : c.manager = .connecting) :
    Marked { c with
      generation := c.generation + 1
      attached := Function.update c.attached (c.generation + 1)
        ⟨conn, session, resumed, .new (c.generation + 1), true⟩
      resume := some (session, token)
      manager := .greeted resumed rootChanged } := by
  have idle := h.idle (by simp [connecting])
  refine h.quiet idle rfl ?_ (fun _ _ => id) rfl (by simp [idle]) (by simp [idle]) (by simp)
    (by simp [AttachedState.new])
  exact fun x e fh n found origin => Nat.lt_succ_of_le (h.early x e fh n found origin).1

theorem moots (rooted : c.manager = .rooted false) :
    Marked { c with handles := c.handles.owedMoot, manager := .mooted } := by
  have idle := h.idle (by simp [rooted])
  refine h.quiet idle rfl (h.older (by simp [rooted]) (by simp [rooted])) ?_ rfl (by simp [idle])
    (by simp [idle]) (by simp) fun shown => ?_
  · intro fh o held
    cases held
  · rcases h.shown shown with here | here <;> rw [here] at rooted <;> cases rooted

theorem publishes (unpublished : c.manager ≠ .published)
    (connected : c.manager ≠ .connecting) :
    Marked { c.onAttached c.generation (fun a =>
        { a with state := { a.state with published := true } }) with
      manager := .published, releasing := some ⟨[], true⟩ } := by
  refine h.quiet (h.idle unpublished) rfl (h.older unpublished connected) (fun _ _ => id) rfl
    (fun pass looping releasing => ?_) (fun _ => rfl) (fun _ => ⟨by simp, fun _ => ⟨[], rfl⟩⟩)
    fun _ => .inl rfl
  cases releasing
  rfl

theorem retasked (looping : c.releasing = some ⟨[], true⟩) {task : ReleaseTask}
    (live : (c.attached c.generation).up = true → task.looping = true)
    (pass : task.pass.Nodup ∧ ∀ fh ∈ task.pass,
      ∃ owed, c.handles.owed.lookup fh = some owed ∧ owed.sendingOn = none) :
    Marked { c with releasing := some task } := by
  have running : c.releasing ≠ none := by simp [looping]
  refine ⟨fun _ => h.task running, ?_, h.shown, h.early, h.serial, h.known, ?_, ?_, h.unjoined,
    h.once, ?_⟩
  · exact fun up => ⟨(h.live up).1, fun _ => ⟨task.pass, by rw [← live up]⟩⟩
  · intro fh owed g found sending
    obtain ⟨current, _, sent⟩ := h.mark fh owed g found sending
    exact ⟨current, by simp, sent⟩
  · intro x e fh owed found origin current held
    exact .inl ((h.marked x e fh owed found origin current held).resolve_right running)
  · intro _ _ releasing
    cases releasing
    exact pass

theorem passes (looping : c.releasing = some ⟨[], true⟩) :
    Marked { c with releasing := some ⟨owedSendable c.handles (c.attached c.generation).state
      (c.attached c.generation).state.cancels, true⟩ } := by
  refine h.retasked looping (fun _ => rfl) ?_
  unfold owedSendable
  split_ifs
  · exact ⟨HandleTable.owedUnsent_nodup, fun fh => HandleTable.mem_owedUnsent.mp⟩
  · exact ⟨List.nodup_nil, by simp⟩

theorem sendsOwed {fh : ℕ} {rest : List ℕ} {looping : Bool} {handles : HandleTable}
    {owed : OwedRelease} (releasing : c.releasing = some ⟨fh :: rest, looping⟩)
    (sent : c.handles.owedSend fh c.generation = some (handles, owed)) :
    Marked { c.send (.owed fh owed.serial) owed.req c.generation with
      handles := handles, releasing := some ⟨rest, looping⟩ } := by
  obtain ⟨held, count, lookup⟩ := HandleTable.owedSend_eq_some sent
  have running : c.releasing ≠ none := by simp [releasing]
  obtain ⟨nodup, unsent⟩ := h.pass _ _ releasing
  have free : owed.sendingOn = none := by
    obtain ⟨owed', held', free⟩ := unsent fh List.mem_cons_self
    cases held.symm.trans held'
    exact free
  -- An earlier exchange of this release on this connection would have left its mark.
  have first : ∀ (x : ℕ) (e : Sent), c.sent[x]? = some e → e.origin = .owed fh owed.serial →
      e.generation ≠ c.generation := by
    intro x e found origin current
    have := (h.marked x e fh owed found origin current held).resolve_right running
    rw [free] at this
    cases this
  refine ⟨fun _ => h.task running, ?_, h.shown, ?_, ?_, ?_, ?_, ?_, ?_, ?_, ?_⟩
  · intro up
    refine ⟨(h.live up).1, fun published => ⟨rest, ?_⟩⟩
    obtain ⟨pass, task⟩ := (h.live up).2 published
    rw [releasing] at task
    cases task
    rfl
  · intro x e j n found origin
    rcases of_lookup_add found with found | ⟨_, rfl⟩
    · exact h.early x e j n found origin
    · exact ⟨Nat.le_refl _, fun _ => .inl (h.task running)⟩
  · intro j o found
    simp only [lookup] at found
    simp only [count]
    split_ifs at found
    · cases found
      exact h.serial fh owed held
    · exact h.serial j o found
  · intro x e j n found origin
    simp only [count]
    rcases of_lookup_add found with found | ⟨_, rfl⟩
    · exact h.known x e j n found origin
    · cases origin
      exact h.serial fh owed held
  · intro j o g found sending
    simp only [lookup] at found
    split_ifs at found with same
    · cases found
      cases sending
      exact ⟨rfl, by simp, c.sent.length, _, List.getElem?_concat_length, by rw [same], rfl⟩
    · obtain ⟨current, _, x, e, found', rest'⟩ := h.mark j o g found sending
      exact ⟨current, by simp, x, e, lookup_add found', rest'⟩
  · intro x e j o found origin current held'
    simp only [lookup] at held'
    split_ifs at held' with same
    · cases held'
      exact .inl rfl
    · rcases of_lookup_add found with found | ⟨_, rfl⟩
      · exact .inl ((h.marked x e j o found origin current held').resolve_right running)
      · exact absurd (Origin.owed.inj origin).1.symm same
  · intro x e j n found origin current apart
    rcases of_lookup_add found with found | ⟨_, rfl⟩
    · obtain ⟨o, held', serial, sending⟩ := h.unjoined x e j n found origin current apart
      have other : j ≠ fh := by
        rintro rfl
        cases held.symm.trans held'
        rw [free] at sending
        cases sending
      exact ⟨o, by simp only [lookup, if_neg other, held'], serial, sending⟩
    · cases origin
      refine ⟨{ owed with sendingOn := some c.generation }, ?_, rfl, rfl⟩
      simp only [lookup, if_true]
  · intro x y e e' j n hx hy originX originY same
    rcases of_lookup_add hx with hx | ⟨lengthX, rfl⟩ <;>
      rcases of_lookup_add hy with hy | ⟨lengthY, rfl⟩
    · exact h.once x y e e' j n hx hy originX originY same
    · cases originY
      exact absurd same (first x e hx originX)
    · cases originX
      exact absurd same.symm (first y e' hy originY)
    · rw [lengthX, lengthY]
  · intro pass looping' releasing'
    cases releasing'
    rw [List.nodup_cons] at nodup
    refine ⟨nodup.2, fun j mem => ?_⟩
    obtain ⟨o, held', free'⟩ := unsent j (List.mem_cons_of_mem _ mem)
    have other : j ≠ fh := fun same => nodup.1 (same ▸ mem)
    exact ⟨o, by simp only [lookup, if_neg other, held'], free'⟩

/-- A release's exchange is joined, and the release stays owed or is owed no more. -/
theorem joinsOwed {x fh serial : ℕ} {e : Sent} {looping : Bool}
    {handles : HandleTable} (releasing : c.releasing = some ⟨[], looping⟩)
    (found : c.sent[x]? = some e) (origin : e.origin = .owed fh serial)
    (current : e.generation = c.generation) (apart : e.joined = false)
    (lookup : ∀ j, handles.owed.lookup j = c.handles.owed.lookup j ∨
      (j = fh ∧ handles.owed.lookup j = none))
    (count : handles.owedCount = c.handles.owedCount) :
    Marked { c with sent := c.sent.set x { e with joined := true }, handles := handles } := by
  have back : ∀ (y : ℕ) (d : Sent), (c.sent.set x { e with joined := true })[y]? = some d →
      ∃ d', c.sent[y]? = some d' ∧ d.origin = d'.origin ∧ d.generation = d'.generation ∧
        (d.joined = false → y ≠ x ∧ d'.joined = false) := by
    intro y d hd
    rcases of_lookup_write hd with ⟨rfl, rfl⟩ | ⟨ne, hd⟩
    · exact ⟨e, found, rfl, rfl, by simp⟩
    · exact ⟨d, hd, rfl, rfl, fun open' => ⟨ne, open'⟩⟩
  have old : ∀ j o, handles.owed.lookup j = some o → c.handles.owed.lookup j = some o := by
    intro j o held
    rcases lookup j with same | ⟨_, gone⟩
    · exact same ▸ held
    · rw [gone] at held
      cases held
  refine ⟨h.task, h.live, h.shown, ?_, ?_, ?_, ?_, ?_, ?_, ?_, ?_⟩
  · intro y d j n hd originD
    obtain ⟨d', hd', origin', generation', _⟩ := back y d hd
    rw [generation']
    exact h.early y d' j n hd' (origin' ▸ originD)
  · intro j o held
    rw [count]
    exact h.serial j o (old j o held)
  · intro y d j n hd originD
    obtain ⟨d', hd', origin', _⟩ := back y d hd
    rw [count]
    exact h.known y d' j n hd' (origin' ▸ originD)
  · intro j o g held sending
    obtain ⟨here, running, y, d, hd, originD, generationD⟩ := h.mark j o g (old j o held) sending
    obtain ⟨d', hd', origin', generation'⟩ :=
      @Tracks.forth_write c.sent x e { e with joined := true } found rfl rfl y d hd
    exact ⟨here, running, y, d', hd', origin'.trans originD, generation'.trans generationD⟩
  · intro y d j o hd originD currentD held
    obtain ⟨d', hd', origin', generation', _⟩ := back y d hd
    exact h.marked y d' j o hd' (origin' ▸ originD) (generation' ▸ currentD) (old j o held)
  · intro y d j n hd originD currentD open'
    obtain ⟨d', hd', origin', generation', joined'⟩ := back y d hd
    obtain ⟨ne, open'⟩ := joined' open'
    rw [origin'] at originD
    rw [generation'] at currentD
    obtain ⟨o, held, serial', sending⟩ := h.unjoined y d' j n hd' originD currentD open'
    refine ⟨o, ?_, serial', sending⟩
    rcases lookup j with same | ⟨rfl, _⟩
    · exact same.trans held
    · -- The release that left is the one whose exchange was joined, and it has no other here.
      obtain ⟨o', held', serial'', _⟩ := h.unjoined x e j serial found origin current apart
      cases held.symm.trans held'
      rw [← serial', serial''] at originD
      exact absurd (h.once y x d' e j serial hd' found originD origin (currentD.trans current.symm)) ne
  · intro y z d d' j n hd hd' originD originD' same
    obtain ⟨b, hb, originB, generationB, _⟩ := back y d hd
    obtain ⟨b', hb', originB', generationB', _⟩ := back z d' hd'
    exact h.once y z b b' j n hb hb' (originB ▸ originD) (originB' ▸ originD')
      (generationB ▸ generationB' ▸ same)
  · intro pass looping' releasing'
    rw [releasing] at releasing'
    cases releasing'
    exact ⟨List.nodup_nil, by simp⟩

theorem leaves (looping : c.releasing = some ⟨[], true⟩)
    (lost : (c.attached c.generation).up = false) :
    Marked { c with releasing := some ⟨[], false⟩ } :=
  h.retasked looping (by simp [lost]) ⟨List.nodup_nil, by simp⟩

theorem releasesEnd (left : c.releasing = some ⟨[], false⟩)
    (joined : c.releasesJoined = true) :
    Marked { c with
      handles := c.handles.owedConnectionEnded c.generation, releasing := none } := by
  have old : ∀ fh owed, (c.handles.owedConnectionEnded c.generation).owed.lookup fh = some owed →
      ∃ o, c.handles.owed.lookup fh = some o ∧ owed.serial = o.serial ∧ owed.sendingOn = none := by
    intro fh owed found
    rw [HandleTable.owedConnectionEnded_owed] at found
    obtain ⟨o, held, rfl⟩ := Option.map_eq_some_iff.mp found
    refine ⟨o, held, ?_⟩
    split_ifs with current
    · exact ⟨rfl, rfl⟩
    · refine ⟨rfl, ?_⟩
      cases sending : o.sendingOn with
      | none => rfl
      | some g =>
        rw [(h.mark fh o g held sending).1] at sending
        exact absurd sending current
  refine ⟨by simp, ?_, h.shown, h.early, ?_, h.known, ?_, fun _ _ _ _ _ _ _ _ => .inr rfl, ?_,
    h.once, by simp⟩
  · intro up
    refine ⟨(h.live up).1, fun published => ?_⟩
    obtain ⟨pass, task⟩ := (h.live up).2 published
    rw [left] at task
    cases task
  · intro fh owed found
    obtain ⟨o, held, serial, _⟩ := old fh owed found
    rw [serial]
    exact h.serial fh o held
  · intro fh owed g found sending
    rw [(old fh owed found).choose_spec.2.2] at sending
    cases sending
  · intro x e fh n found origin current apart
    have all := List.all_eq_true.mp joined e (List.mem_of_getElem? found)
    simp [origin, current, apart] at all

theorem reconnects (released : c.releasing = none)
    (lost : (c.attached c.generation).up = false) :
    Marked { c with manager := .connecting } := by
  refine ⟨fun running => absurd released running, ?_, fun _ => .inr rfl, ?_, h.serial, h.known,
    h.mark, h.marked, h.unjoined, h.once, h.pass⟩
  · intro up
    simp only [lost] at up
    cases up
  · exact fun x e fh n found origin =>
      ⟨(h.early x e fh n found origin).1, fun _ => .inr rfl⟩

end

end Marked

theorem owes_of_settles {handles : HandleTable} {call : Call}
    {result : Except Error WireRequests.Response} {accepted : Bool}
    (h : Settles c.handles call result accepted handles) : Owes c.handles handles := by
  cases h with
  | keeps => exact HandleTable.owes_insert _
  | owesOpened | owesRelease => exact HandleTable.owes_owe _
  | refused | released => exact .of_same rfl rfl

theorem owes_of_root (rootChanged : Bool) :
    Owes c.handles (if rootChanged then c.handles.killAll else c.handles) := by
  cases rootChanged
  · exact .of_same rfl rfl
  · exact HandleTable.owes_killAll

/-- A step of which nothing but the handles, the calls and the exchanges are part. -/
theorem Ordinary.of_parts {handles : HandleTable} {calls : List Call} {sent : List Sent}
    (owes : Owes c.handles handles) (tracks : Tracks c.sent sent) :
    Ordinary c { c with handles := handles, calls := calls, sent := sent } :=
  ⟨owes, tracks, rfl, rfl, Iff.rfl, Iff.rfl, id, rfl⟩

theorem Ordinary.of_cancels {calls : List Call} {sent : List Sent} (tracks : Tracks c.sent sent)
    (g n : ℕ) :
    Ordinary c { c with
      calls := calls, sent := sent, attached := (c.setCancels g n).attached } := by
  refine ⟨.of_same rfl rfl, tracks, rfl, rfl, Iff.rfl, Iff.rfl, ?_, ?_⟩ <;>
    by_cases same : c.generation = g <;>
    simp [Client.setCancels, Client.onAttached, same]

theorem Marked.step (h : Marked c) (moved : Steps c action c') : Marked c' := by
  cases moved with
  | startsCall | startsOpen | waits => exact h.ordinary (.of_parts (.of_same rfl rfl) (.refl _))
  | startsRelease | forgets => exact h.ordinary (.of_parts HandleTable.owes_remove (.refl _))
  | sends =>
    exact h.ordinary (.of_parts (.of_same rfl rfl) (.add (by simp)))
  | writes _ _ found =>
    exact h.ordinary (.of_parts (.of_same rfl rfl) (.write found rfl rfl fun _ => rfl))
  | returns x e how _ stage _ _ found =>
    have tracks : Tracks c.sent
        (c.sent.set x { e with stage := stage, outcome := some how }) :=
      .write found rfl rfl fun _ => rfl
    split_ifs
    · exact h.ordinary (.of_cancels tracks _ _)
    · exact h.ordinary (.of_parts (.of_same rfl rfl) tracks)
  | cancelAnswered x e _ found =>
    have tracks : Tracks c.sent (c.sent.set x { e with stage := .closed }) :=
      .write found rfl rfl fun _ => rfl
    exact h.ordinary (.of_cancels tracks _ _)
  | settles _ _ _ _ _ _ _ _ _ settles =>
    exact h.ordinary (.of_parts (owes_of_settles settles) (.refl _))
  | connects conn session token resumed rootChanged _ connecting =>
    exact h.connects conn session token resumed rootChanged connecting
  | roots _ _ greeted =>
    exact h.ordinary ⟨owes_of_root _, .refl _, rfl, rfl, by simp [greeted], by simp [greeted], id, rfl⟩
  | moots rooted => exact h.moots rooted
  | fixes _ mooted =>
    exact h.ordinary ⟨.of_same rfl rfl, .refl _, rfl, rfl, by simp [mooted], by simp [mooted], id,
      rfl⟩
  | sendsReopen _ _ _ _ reopening =>
    exact h.ordinary ⟨.of_same rfl rfl, .add (by simp), rfl, rfl, by simp [reopening],
      by simp [reopening], id, rfl⟩
  | endsReopen _ _ _ _ _ _ _ reopening found origin _ _ _ ended =>
    refine h.ordinary ⟨ReopenRound.ended_owes ended, .write found rfl rfl ?_, rfl, rfl,
      by simp [reopening], by simp [reopening], id, rfl⟩
    rintro ⟨fh', n, owed⟩
    rw [origin] at owed
    cases owed
  | publishes ready =>
    rcases ready with rooted | ⟨round, reopening, _⟩
    · exact h.publishes (by simp [rooted]) (by simp [rooted])
    · exact h.publishes (by simp [reopening]) (by simp [reopening])
  | goesDown =>
    refine h.ordinary ⟨.of_same rfl rfl, .refl _, rfl, rfl, Iff.rfl, Iff.rfl, ?_, ?_⟩ <;>
      simp [Client.onAttached]
  | passes looping => exact h.passes looping
  | sendsOwed _ _ _ _ _ releasing sent => exact h.sendsOwed releasing sent
  | joinsOwed _ _ _ _ _ _ _ releasing found origin _ current apart settled =>
    rcases settled with ⟨_, rfl⟩ | rfl
    · refine h.joinsOwed releasing found origin current apart (fun j => ?_)
        (HandleTable.owedDelivered_owedCount _)
      rw [HandleTable.owedDelivered_owed]
      split_ifs with delivered
      · exact .inr ⟨delivered.1, rfl⟩
      · exact .inl rfl
    · exact h.joinsOwed releasing found origin current apart (fun j => .inl rfl) rfl
  | leaves looping lost => exact h.leaves looping lost
  | releasesEnd left joined => exact h.releasesEnd left joined
  | reconnects _ released lost => exact h.reconnects released lost

theorem marked_of_reachable (h : machine.Reachable c) : Marked c :=
  Machine.Reachable.invariant Marked.new (fun _ _ _ hs moves => hs.step (step_steps moves)) h

theorem Marked.leaves_owed (h : Marked c) (moved : Steps c action c') {fh : ℕ} {owed : OwedRelease}
    (held : c.handles.owed.lookup fh = some owed) :
    (∃ owed', c'.handles.owed.lookup fh = some owed' ∧ owed'.serial = owed.serial) ∨
      (∃ (x : ℕ) (e : Sent), c.sent[x]? = some e ∧ e.origin = .owed fh owed.serial ∧
        (∃ resp, e.outcome = some (.replied resp)) ∧ owed.sendingOn = some e.generation ∧
        e.generation = c.generation) ∨
      (c.manager = .rooted false ∧ c'.manager = .mooted) := by
  have stays : Owes c.handles c'.handles → ∃ owed', c'.handles.owed.lookup fh = some owed' ∧
      owed'.serial = owed.serial := fun owes => ⟨owed, owes.keeps fh owed held, rfl⟩
  cases moved with
  | startsRelease | forgets => exact .inl (stays HandleTable.owes_remove)
  | settles _ _ _ _ _ _ _ _ _ settles =>
    exact .inl (stays (owes_of_settles settles))
  | roots => exact .inl (stays (owes_of_root _))
  | moots rooted => exact .inr (.inr ⟨rooted, rfl⟩)
  | endsReopen _ _ _ _ _ _ _ _ _ _ _ _ _ ended =>
    exact .inl (stays (ReopenRound.ended_owes ended))
  | sendsOwed _ _ _ _ _ _ sent =>
    obtain ⟨held', _, lookup⟩ := HandleTable.owedSend_eq_some sent
    refine .inl ?_
    simp only [lookup]
    split_ifs with same
    · subst same
      cases held.symm.trans held'
      exact ⟨_, rfl, rfl⟩
    · exact ⟨owed, held, rfl⟩
  | joinsOwed x e _ serial _ _ _ _ found origin outcome current apart settled =>
    rcases settled with ⟨⟨resp, rfl⟩, rfl⟩ | rfl
    · simp only [HandleTable.owedDelivered_owed]
      split_ifs with delivered
      · -- The entry that goes is the one this exchange was made for.
        obtain ⟨rfl, marked⟩ := delivered
        obtain ⟨owed', held', rfl, sending⟩ := h.unjoined x e fh serial found origin current apart
        cases held.symm.trans held'
        exact .inr (.inl ⟨x, e, found, origin, ⟨resp, outcome⟩, current ▸ sending, current⟩)
      · exact .inl ⟨owed, held, rfl⟩
    · exact .inl ⟨owed, held, rfl⟩
  | releasesEnd =>
    refine .inl ?_
    simp only [HandleTable.owedConnectionEnded_owed, held, Option.map_some]
    refine ⟨_, rfl, ?_⟩
    split_ifs <;> rfl
  | _ => exact .inl (stays (.of_same rfl rfl))

/-- Owed releases in every run of the client, whatever the network and the server do.  A release
stays owed until one of its exchanges was answered, on the generation it was last sent on, or until
the releases owed to an older session become moot; no two of its exchanges are on one generation;
`owedSend` finds what it is called for; and while a connection is up and published with no cancel
pending, its release task runs, no mark of another connection is left, and whatever was not sent on
this connection may be sent on it. -/
theorem owed_releases_sound (h : machine.Reachable c) :
    (∀ action c' fh owed, step c action = some c' → c.handles.owed.lookup fh = some owed →
      (∃ owed', c'.handles.owed.lookup fh = some owed' ∧ owed'.serial = owed.serial) ∨
      (∃ (x : ℕ) (e : Sent), c.sent[x]? = some e ∧ e.origin = .owed fh owed.serial ∧
        (∃ resp, e.outcome = some (.replied resp)) ∧ owed.sendingOn = some e.generation ∧
        ∀ (y : ℕ) (e' : Sent), c.sent[y]? = some e' → e'.origin = e.origin →
          e'.generation ≤ e.generation) ∨
      (c.manager = .rooted false ∧ c'.manager = .mooted)) ∧
    (∀ (x y : ℕ) (e e' : Sent) (fh serial : ℕ), c.sent[x]? = some e → c.sent[y]? = some e' →
      e.origin = .owed fh serial → e'.origin = .owed fh serial → e.generation = e'.generation →
      x = y) ∧
    (∀ fh rest looping, c.releasing = some ⟨fh :: rest, looping⟩ →
      (c.handles.owedSend fh c.generation).isSome) ∧
    ((c.attached c.generation).up = true → (c.attached c.generation).state.published = true →
      (c.attached c.generation).state.cancels = 0 →
      (∃ pass, c.releasing = some ⟨pass, true⟩) ∧
      ∀ fh owed, c.handles.owed.lookup fh = some owed →
        (owed.sendingOn = none ∨ owed.sendingOn = some c.generation) ∧
        ((∀ (x : ℕ) (e : Sent), c.sent[x]? = some e → e.origin = .owed fh owed.serial →
            e.generation ≠ c.generation) →
          fh ∈ owedSendable c.handles (c.attached c.generation).state 0)) := by
  have marked := marked_of_reachable h
  refine ⟨?_, marked.once, ?_, ?_⟩
  · intro action c' fh owed moves held
    rcases marked.leaves_owed (step_steps moves) held with stays | ⟨x, e, found, origin, replied,
      sending, current⟩ | moot
    · exact Or.inl stays
    · refine Or.inr (Or.inl ⟨x, e, found, origin, replied, sending, ?_⟩)
      intro y e' found' origin'
      rw [current]
      exact (marked.early y e' fh owed.serial found' (origin'.trans origin)).1
    · exact Or.inr (Or.inr moot)
  · intro fh rest looping releasing
    obtain ⟨owed, held, _⟩ := (marked.pass _ _ releasing).2 fh List.mem_cons_self
    simp [HandleTable.owedSend, held]
  · intro up shown clear
    obtain ⟨connected, runs⟩ := marked.live up
    have published := (marked.shown shown).resolve_right connected
    refine ⟨runs published, fun fh owed held => ?_⟩
    cases sending : owed.sendingOn with
    | none =>
      refine ⟨Or.inl rfl, fun _ => ?_⟩
      rw [owedSendable, if_pos (by simp [shown])]
      exact HandleTable.mem_owedUnsent.mpr ⟨owed, held, sending⟩
    | some g =>
      obtain ⟨rfl, _, x, e, found, origin, generation⟩ := marked.mark fh owed g held sending
      exact ⟨Or.inr rfl, fun unsent => absurd generation (unsent x e found origin)⟩

/-- A connection is published, an open waits for its turn, times out, and leaves its release owed. -/
def owingRun : List ClientTasks.Action :=
  [.connected 0 1 7 false false, .root, .moot, .fixRound, .publish, .open [] 0, .check 0,
    .waitFails 0 .timeout, .settle 0 true]

/-- The release left owed is ready to go on the connection, and nothing was sent on it yet. -/
def owing (c : Client) : Bool :=
  (c.attached c.generation).up && (c.attached c.generation).state.published &&
    (c.attached c.generation).state.cancels == 0 && c.sent.isEmpty &&
    c.handles.owed.lookup 1 == some ⟨.release 1 true, none, 0⟩

theorem owed_releases_sound_owing :
    ∃ c, ClientTasks.machine.run owingRun = some c ∧
      1 ∈ owedSendable c.handles (c.attached c.generation).state 0 := by
  obtain ⟨c, ends, reached, shape⟩ := Machine.exists_of_run
    (by decide +kernel : (ClientTasks.machine.run owingRun).any owing = true)
  simp only [owing, Bool.and_eq_true, beq_iff_eq, List.isEmpty_iff] at shape
  obtain ⟨⟨⟨⟨up, shown⟩, clear⟩, unsent⟩, held⟩ := shape
  refine ⟨c, ends, (((owed_releases_sound reached).2.2.2 up shown clear).2 1 _ held).2 ?_⟩
  intro x e found
  simp [unsent] at found

end JackalopeFs.OwedReleases
