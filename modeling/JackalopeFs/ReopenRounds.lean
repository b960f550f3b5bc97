import JackalopeFs.ClientMachine

/-! # Rounds of reopens

A new session reopens the handles that are alive as it begins, in any order, while the kernel may begin to
release any handle.  The machine is the round and the table it works on; the log beside them says which
reopens ended and how, and which releases began and whether the server is told by the kernel's own call.
-/

namespace JackalopeFs.ReopenRounds

open ClientHandles ClientMachine KeyedTables TransitionRuns WireRequests

inductive Happened where
  | ended (fh : ℕ) (outcome : Except Error Response)
  | released (fh : ℕ) (told : Bool)
  deriving DecidableEq, Repr

def Happened.ends (fh : ℕ) : Happened → Bool
  | .ended j _ => j == fh
  | .released _ _ => false

structure Round where
  round : ReopenRound
  handles : HandleTable
  log : List Happened

inductive Action where
  | send (fh : ℕ)
  | ended (fh : ℕ) (outcome : Except Error Response)
  | releaseBegins (fh : ℕ)

/-- What one task does; a reopen that was sent is not sent again, and one that ended does not end again. -/
def step (s : Round) : Action → Option Round
  | .send fh => (s.round.send fh).map fun sent => { s with round := sent.1 }
  | .ended fh outcome => (s.round.ended s.handles fh outcome).map fun left =>
    ⟨left.1, left.2, s.log ++ [.ended fh outcome]⟩
  | .releaseBegins fh =>
    let (left, told) := releaseBegins s.handles fh
    some { s with handles := left, log := s.log ++ [.released fh told] }

def machine (handles : HandleTable) : Machine Round Action :=
  ⟨⟨.new handles, handles, []⟩, step⟩

def Round.ends (s : Round) (fh : ℕ) : ℕ :=
  s.log.countP (Happened.ends fh)

section Accounts

variable {handles : HandleTable} {s t : Round} {fh : ℕ}

/-- The reopen found the node that the handle was opened on. -/
def SameNode (handles : HandleTable) (fh : ℕ) (outcome : Except Error Response) : Prop :=
  ∃ rec attr, handles.live.lookup fh = some rec ∧ outcome = .ok (.opened attr) ∧
    rec.key.describes attr = true

/-- What became of a handle whose reopen ended: it is alive and was found again, it is not and its
release is owed, or the kernel released it after it was found again and tells the server itself. -/
inductive Settled (handles : HandleTable) (s : Round) (fh : ℕ) : Prop where
  | reopened (outcome : Except Error Response) (live : fh ∈ s.handles.live)
      (ended : .ended fh outcome ∈ s.log) (same : SameNode handles fh outcome)
  | owed (gone : s.handles.isDead fh = true ∨ fh ∉ s.handles.map) (owed : fh ∈ s.handles.owed)
  | released (outcome : Except Error Response) (gone : fh ∉ s.handles.map)
      (later : [.ended fh outcome, .released fh true].Sublist s.log) (same : SameNode handles fh outcome)

/-- The handles of the round are those whose reopen is pending and those whose reopen ended once. -/
structure Accounted (handles : HandleTable) (s : Round) : Prop where
  records : ∀ fh rec, s.round.unsent.lookup fh = some rec ∨ s.round.sending.lookup fh = some rec →
    handles.live.lookup fh = some rec
  apart : ∀ fh, fh ∈ s.round.unsent → fh ∉ s.round.sending
  once : ∀ fh, fh ∈ handles.live →
    s.round.Pending fh ∧ s.ends fh = 0 ∨ ¬s.round.Pending fh ∧ s.ends fh = 1 ∧ Settled handles s fh

theorem Accounted.new (handles : HandleTable) : Accounted handles (machine handles).initial where
  records := fun fh rec found => found.elim id fun sending => by simp [machine, ReopenRound.new] at sending
  apart := fun fh _ sending => absurd sending (AList.notMem_empty fh)
  once := fun fh live => .inl ⟨.inl live, rfl⟩

theorem not_live {table : HandleTable} :
    table.isDead fh = true ∨ fh ∉ table.map ↔ fh ∉ table.live := by
  rw [HandleTable.mem_live, HandleTable.isDead, not_and_or, Bool.not_eq_false, or_comm]

theorem Settled.others (h : Settled handles s fh) (live : fh ∈ t.handles.live ↔ fh ∈ s.handles.live)
    (map : fh ∈ t.handles.map → fh ∈ s.handles.map) (owed : ∀ j, j ∈ s.handles.owed → j ∈ t.handles.owed)
    (log : s.log <+: t.log) : Settled handles t fh := by
  cases h with
  | reopened outcome alive ended same =>
    exact .reopened outcome (live.mpr alive) (log.subset ended) same
  | owed gone due => exact .owed (not_live.mpr (live.not.mpr (not_live.mp gone))) (owed fh due)
  | released outcome gone later same => exact .released outcome (fun held => gone (map held)) (later.trans log.sublist) same

theorem Settled.released_now (h : Settled handles s fh) (now : t.handles = (releaseBegins s.handles fh).1)
    (log : t.log = s.log ++ [.released fh (releaseBegins s.handles fh).2]) : Settled handles t fh := by
  have gone : fh ∉ t.handles.map := by
    rw [now, releaseBegins, HandleTable.remove_map, AList.mem_erase]
    exact fun held => held.1 rfl
  cases h with
  | reopened outcome alive ended same =>
    have told : (releaseBegins s.handles fh).2 = true := by
      have dead := (HandleTable.mem_live.mp alive).2
      simp [releaseBegins, HandleTable.isDead, dead]
    refine .released outcome gone ?_ same
    rw [log, told]
    exact (List.singleton_sublist.mpr ended).append (.refl _)
  | owed _ due =>
    refine .owed (.inr gone) ?_
    rw [now, releaseBegins, HandleTable.remove_owed]
    exact due
  | released outcome _ later same =>
    exact .released outcome gone (later.trans (log ▸ List.sublist_append_left ..)) same

theorem Accounted.send (h : Accounted handles s) {round : ReopenRound} {req : Request}
    (sent : s.round.send fh = some (round, req)) : Accounted handles { s with round := round } := by
  obtain ⟨rec, found, _, unsent, sending⟩ := ReopenRound.send_eq_some sent
  refine ⟨fun j r held => ?_, fun j here there => ?_, fun j live => ?_⟩
  · simp only [unsent, sending] at held
    rcases held with held | held
    · exact h.records j r (.inl (of_lookup_erase held).2)
    · rcases of_lookup_insert held with ⟨rfl, rfl⟩ | ⟨_, held⟩
      · exact h.records _ _ (.inl found)
      · exact h.records j r (.inr held)
  · simp only [unsent, sending, AList.mem_erase, AList.mem_insert] at here there
    exact there.elim here.1 (h.apart j here.2)
  · rw [ReopenRound.pending_send sent]
    refine (h.once j live).imp_right fun ⟨done, ended, settled⟩ => ⟨done, ended, ?_⟩
    exact settled.others Iff.rfl id (fun _ => id) (List.prefix_refl _)

theorem ends_concat (log : List Happened) (event : Happened) :
    (log ++ [event]).countP (Happened.ends fh) =
      log.countP (Happened.ends fh) + if Happened.ends fh event then 1 else 0 := by
  simp [List.countP_append, List.countP_singleton]

theorem Accounted.releaseBegins (h : Accounted handles s) (fh : ℕ)
    (now : t = ⟨s.round, (ClientMachine.releaseBegins s.handles fh).1,
      s.log ++ [.released fh (ClientMachine.releaseBegins s.handles fh).2]⟩) : Accounted handles t := by
  subst now
  refine ⟨h.records, h.apart, fun j live => ?_⟩
  have count : ∀ told, (s.log ++ [Happened.released fh told]).countP (Happened.ends j) = s.ends j :=
    fun told => (ends_concat _ _).trans (Nat.add_zero _)
  simp only [Round.ends, count]
  refine (h.once j live).imp_right fun ⟨done, ended, settled⟩ => ⟨done, ended, ?_⟩
  by_cases same : j = fh
  · subst same
    exact settled.released_now rfl rfl
  · refine settled.others ?_ ?_ ?_ (List.prefix_append ..)
    · rw [ClientMachine.releaseBegins, HandleTable.mem_live_remove, and_iff_right same]
    · rw [ClientMachine.releaseBegins, HandleTable.remove_map, AList.mem_erase]
      exact And.right
    · intro i
      rw [ClientMachine.releaseBegins, HandleTable.remove_owed]
      exact id

theorem Accounted.ended (h : Accounted handles s) {round : ReopenRound} {left : HandleTable}
    {outcome : Except Error Response} (ends : s.round.ended s.handles fh outcome = some (round, left)) :
    Accounted handles ⟨round, left, s.log ++ [.ended fh outcome]⟩ := by
  obtain ⟨pending, fewer, others, map, _, judged⟩ := ReopenRound.ended_cases ends
  have shrinks : ∀ j, (j ∈ round.unsent → j ∈ s.round.unsent) ∧ (j ∈ round.sending → j ∈ s.round.sending) ∧
      (∀ r, round.unsent.lookup j = some r → s.round.unsent.lookup j = some r) ∧
      ∀ r, round.sending.lookup j = some r → s.round.sending.lookup j = some r := by
    intro j
    rcases ReopenRound.ended_round ends with ⟨_, sending, unsent⟩ | ⟨_, _, sending, unsent⟩ <;>
      simp only [sending, unsent, AList.mem_erase]
    · exact ⟨id, And.right, fun _ => id, fun _ held => (of_lookup_erase held).2⟩
    · exact ⟨And.right, id, fun _ held => (of_lookup_erase held).2, fun _ => id⟩
  have past : ¬round.Pending fh := by
    rcases ReopenRound.ended_round ends with ⟨here, sending, unsent⟩ | ⟨here, _, sending, unsent⟩ <;>
      simp only [ReopenRound.Pending, sending, unsent, AList.mem_erase]
    · exact fun either => either.elim (fun unsent => h.apart fh unsent here) fun held => held.1 rfl
    · exact fun either => either.elim (fun held => held.1 rfl) here
  have owed : ∀ j, j ∈ s.handles.owed → j ∈ left.owed := by
    intro j due
    rcases judged with ⟨_, _, same, _⟩ | ⟨_, t, kind, same, rfl⟩
    · exact same ▸ due
    · exact (HandleTable.mem_owe _).mpr (.inr (same ▸ due))
  refine ⟨fun j r held => ?_, fun j unsent sending => ?_, fun j live => ?_⟩
  · exact h.records j r (held.imp ((shrinks j).2.2.1 r) ((shrinks j).2.2.2 r))
  · exact h.apart j ((shrinks j).1 unsent) ((shrinks j).2.1 sending)
  · have count := @ends_concat j s.log (.ended fh outcome)
    by_cases same : j = fh
    · subst same
      have none : s.ends j = 0 := by
        rcases h.once j live with ⟨_, none⟩ | ⟨done, _⟩
        · exact none
        · exact absurd pending done
      have once : (s.log ++ [Happened.ended j outcome]).countP (Happened.ends j) = 1 := by
        rw [count, ← Round.ends, none]
        simp [Happened.ends]
      refine .inr ⟨past, once, ?_⟩
      rcases judged with ⟨alive, _, _, attr, opened, rec, found, same⟩ | ⟨gone, t, kind, _, rfl⟩
      · refine .reopened outcome alive (by simp) ⟨rec, attr, h.records j rec ?_, opened, same⟩
        rcases Option.or_eq_some_iff.mp found with sending | ⟨_, unsent⟩
        · exact .inr sending
        · exact .inl unsent
      · have dropped := fun alive => ((gone j).mp alive).1 rfl
        exact .owed (not_live.mpr dropped) ((HandleTable.mem_owe _).mpr (.inl rfl))
    · have kept : (s.log ++ [Happened.ended fh outcome]).countP (Happened.ends j) = s.ends j := by
        rw [count, Happened.ends, if_neg (by simpa using Ne.symm same)]
        rfl
      simp only [Round.ends, kept]
      rcases h.once j live with ⟨waits, none⟩ | ⟨done, once, settled⟩
      · exact .inl ⟨others j same waits, none⟩
      · refine .inr ⟨fun waits => done (fewer j waits), once, settled.others ?_ ?_ owed (List.prefix_append ..)⟩
        · rcases judged with ⟨_, all, _⟩ | ⟨gone, _⟩
          · simp only [all]
          · rw [gone, and_iff_right same]
        · rw [map]
          exact id

theorem Accounted.step (h : Accounted handles s) {action : Action} (moves : step s action = some t) :
    Accounted handles t := by
  cases action with
  | send =>
    obtain ⟨⟨round, req⟩, sent, rfl⟩ := Option.map_eq_some_iff.mp moves
    exact h.send sent
  | ended =>
    obtain ⟨⟨round, left⟩, ends, rfl⟩ := Option.map_eq_some_iff.mp moves
    exact h.ended ends
  | releaseBegins fh => exact h.releaseBegins fh (Option.some.inj moves).symm

theorem accounted_of_reachable (reached : (machine handles).Reachable s) : Accounted handles s :=
  reached.invariant (Accounted.new handles) fun _ _ _ h moves => h.step moves

theorem publishable_of_not_pending (none : ∀ fh, ¬s.round.Pending fh) : s.round.publishable = true := by
  have empty : ∀ table : AList fun _ : ℕ => HandleRec, (∀ fh, fh ∉ table) → table.entries.isEmpty = true := by
    intro table absent
    rw [List.isEmpty_iff, List.eq_nil_iff_forall_not_mem]
    exact fun e mem => absent e.1 (AList.mem_keys.mpr (List.mem_map_of_mem mem))
  rw [ReopenRound.publishable, empty _ fun fh mem => none fh (.inl mem),
    empty _ fun fh mem => none fh (.inr mem)]
  rfl

/-- A round accounts for every handle that was alive as it began, whatever the order of its sends and
ends and of the releases that begin meanwhile.  The reopen of each ends once, and the round is publishable
when all have ended.  Each handle is then alive and was found again; or it is dead or out of the table and
its release is owed; or the kernel released it after it was found again, by a call that tells the server. -/
theorem round_accounts_for_every_handle (reached : (machine handles).Reachable s) :
    (∀ fh, fh ∈ handles.live → s.ends fh ≤ 1 ∧
      ∀ outcome, (step s (.ended fh outcome)).isSome = true ↔ s.ends fh = 0) ∧
    (s.round.publishable = true ↔ ∀ fh, fh ∈ handles.live → s.ends fh = 1) ∧
    (s.round.publishable = true → ∀ fh, fh ∈ handles.live → Settled handles s fh) := by
  have accounted := accounted_of_reachable reached
  have live_of_pending : ∀ fh, s.round.Pending fh → fh ∈ handles.live := by
    intro fh pending
    refine AList.lookup_isSome.mp (Option.isSome_iff_exists.mpr ?_)
    rcases pending with waits | waits <;>
      obtain ⟨rec, found⟩ := Option.isSome_iff_exists.mp (AList.lookup_isSome.mpr waits)
    · exact ⟨rec, accounted.records fh rec (.inl found)⟩
    · exact ⟨rec, accounted.records fh rec (.inr found)⟩
  refine ⟨fun fh live => ?_, ⟨fun ready fh live => ?_, fun all => ?_⟩, fun ready fh live => ?_⟩
  · have can : ∀ outcome, (step s (.ended fh outcome)).isSome = true ↔ s.round.Pending fh := by
      intro outcome
      simp [step, ReopenRound.ended, ReopenRound.Pending, ← AList.lookup_isSome, or_comm]
    simp only [can]
    rcases accounted.once fh live with ⟨pending, none⟩ | ⟨done, once, _⟩
    · exact ⟨by omega, fun _ => ⟨fun _ => none, fun _ => pending⟩⟩
    · exact ⟨by omega, fun _ => ⟨fun pending => absurd pending done, by omega⟩⟩
  · rcases accounted.once fh live with ⟨pending, _⟩ | ⟨_, once, _⟩
    · exact absurd pending (ReopenRound.not_pending_of_publishable ready)
    · exact once
  · refine publishable_of_not_pending fun fh pending => ?_
    have once := all fh (live_of_pending fh pending)
    rcases accounted.once fh (live_of_pending fh pending) with ⟨_, none⟩ | ⟨done, _⟩
    · omega
    · exact done pending
  · rcases accounted.once fh live with ⟨pending, _⟩ | ⟨_, _, settled⟩
    · exact absurd pending (ReopenRound.not_pending_of_publishable ready)
    · exact settled

end Accounts

def opened : HandleTable :=
  HandleTable.new.insert 1 ⟨⟨5, 7⟩, [], 0, .file⟩

/-- Its reopen finds another file, or finds it again and the kernel releases it after that. -/
theorem round_accounts_for_one_file :
    (∃ s, (machine opened).Reachable s ∧ s.round.publishable = true ∧ Settled opened s 1) ∧
    ∃ s, (machine opened).Reachable s ∧ s.round.publishable = true ∧ Settled opened s 1 := by
  have settled : ∀ s, (machine opened).Reachable s → s.round.publishable = true → Settled opened s 1 :=
    fun s reached ready => (round_accounts_for_every_handle reached).2.2 ready 1 (by decide)
  obtain ⟨s, -, reached, ready⟩ := (machine opened).exists_of_run
    (by decide +kernel : ((machine opened).run [.send 1, .ended 1 (.ok (.opened ⟨5, 8⟩)), .releaseBegins 1]).any
      (fun s => s.round.publishable) = true)
  obtain ⟨s', -, reached', ready'⟩ := (machine opened).exists_of_run
    (by decide +kernel : ((machine opened).run [.ended 1 (.ok (.opened ⟨5, 7⟩)), .releaseBegins 1]).any
      (fun s => s.round.publishable) = true)
  exact ⟨⟨s, reached, ready, settled s reached ready⟩, s', reached', ready', settled s' reached' ready'⟩

/-- A handle that is released after its reopen found it is neither in the table nor owed. -/
theorem released_after_reopen : ∃ s, (machine opened).Reachable s ∧ s.round.publishable = true ∧
    1 ∈ opened.live ∧ 1 ∉ s.handles.map ∧ 1 ∉ s.handles.owed := by
  obtain ⟨s, -, reached, ends⟩ := (machine opened).exists_of_run
    (by decide +kernel : ((machine opened).run
        [.send 1, .ended 1 (.ok (.opened ⟨5, 7⟩)), .releaseBegins 1]).any (fun s =>
      s.round.publishable && decide (1 ∈ opened.live ∧ 1 ∉ s.handles.map ∧ 1 ∉ s.handles.owed)) = true)
  simp only [Bool.and_eq_true, decide_eq_true_eq] at ends
  exact ⟨s, reached, ends⟩

end JackalopeFs.ReopenRounds
