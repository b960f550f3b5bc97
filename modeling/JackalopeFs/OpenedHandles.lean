import JackalopeFs.CallOrder
import JackalopeFs.HandleIds

/-! # What the server holds under the client's ids

The handle tables of the client's sessions change only through the work of the
client's own exchanges.  An entry is made by the exchange that opened it, under the id
that the exchange names and in the session it was sent to, and it stays until it is
released or the session's table is dropped.  With the ids being given once, an entry
under an id that the client holds is the file that was opened for it.
-/

namespace JackalopeFs.OpenedHandles

open ChangeOrder ClientCalls ClientConnections ClientHandles ClientMachine ClientTasks HandleIds Option
open IndexedCells KeyedTables Protocol ProtocolLinks ServedExchanges SessionAttendance
open SessionExchange SessionOwnership SessionTable SharedHandles TransitionRuns WireRequests

variable {s t : System} {x : ℕ} {e : Sent} {action : Protocol.Action}

section Steps

/-- One step of the work of a begun exchange, with what it finds and leaves. -/
inductive Works (s : System) (x : ℕ) (e : Sent) : System → Prop where
  | looks (fh : ℕ) (opens : e.req.opens = some fh) (idle : (s.served x).work = .idle) :
      Works s x e (s.setWork x (.looked (s.entry (s.sessionOf e) fh)))
  | refused (fh : ℕ) (opens : e.req.opens = some fh) (looked : (s.served x).work = .looked none) :
      Works s x e (s.setWork x (.done (.err System.emfile)))
  | finds (fh : ℕ) (handle : Handle Opened) (opens : e.req.opens = some fh)
      (looked : (s.served x).work = .looked (some handle)) :
      Works s x e (s.setWork x (.held handle))
  | reserves (fh : ℕ) (pool : HandlePool) (opens : e.req.opens = some fh)
      (looked : (s.served x).work = .looked none) :
      Works s x e ({ s with shared := { s.shared with
        pool := pool
        slots := s.shared.slots ++ [some (Slot.mk (s.sessionOf e) fh true)] } }.setWork x
          (.slot s.shared.slots.length))
  | answersHeld (handle : Handle Opened) (held : (s.served x).work = .held handle) :
      Works s x e (s.setWork x (.done (.opened (openedOf handle).attr)))
  | failsHeld (handle : Handle Opened) (errno : ℤ) (held : (s.served x).work = .held handle) :
      Works s x e (s.setWork x (.done (.err errno)))
  | fails (i : ℕ) (pool : HandlePool) (errno : ℤ) (reserved : (s.served x).work = .slot i) :
      Works s x e ({ s with shared := { s.shared with
        pool := pool, slots := s.shared.slots.set i none } }.setWork x (.done (.err errno)))
  | opens (fh i : ℕ) (attr : Attr) (slot : Slot) (handles left : Handles Opened) (pool : HandlePool)
      (opens : e.req.opens = some fh) (reserved : (s.served x).work = .slot i)
      (here : s.shared.slots[i]? = some (some slot))
      (table : s.shared.tables[slot.handles]? = some (some handles))
      (inserts : left.map = handles.map ∧ (handles.map.lookup slot.fh).isSome = true ∨
        handles.map.lookup slot.fh = none ∧
          left.map = handles.map.insert slot.fh (System.handleFor x attr e.req)) :
      Works s x e ({ s with shared := {
        pool := pool
        tables := s.shared.tables.set slot.handles (some left)
        slots := s.shared.slots.set i none } }.setWork x
          (.done (if (s.entry (s.sessionOf e) fh).isSome then .err System.ebadf else .opened attr)))
  | releases (fh : ℕ) (handles left : Handles Opened) (pool : HandlePool)
      (releases : e.req.releases = some fh) (idle : (s.served x).work = .idle)
      (table : s.shared.tables[s.sessionOf e]? = some (some handles))
      (erased : left.map = handles.map.erase fh) :
      Works s x e ({ s with shared := { s.shared with
        pool := pool
        tables := s.shared.tables.set (s.sessionOf e) (some left) } }.setWork x (.done .ok))
  | runs (resp : Response) (unopened : e.req.opens = none) (unreleased : e.req.releases = none)
      (idle : (s.served x).work = .idle) :
      Works s x e (s.setWork x (.done resp))

theorem work_works {working : Working} (h : s.work x e working = some t) : Works s x e t := by
  cases working with
  | look =>
    simp only [System.work] at h
    split at h <;> cases h
    exact .looks _ (by assumption) (by assumption)
  | reserve =>
    simp only [System.work] at h
    split at h
    · rename_i fh seen opens looked
      obtain ⟨shared, moved, rfl⟩ := map_eq_some_iff.mp h
      cases step_steps moved with
      | finds _ _ handle => exact .finds fh handle opens looked
      | refuses _ _ full =>
        simp only [Handles.reserve, full]
        exact .refused fh opens looked
      | reserves _ _ _ pool _ took =>
        simp only [Handles.reserve, took]
        exact .reserves fh pool opens looked
    · cases h
  | heldAnswers =>
    simp only [System.work] at h
    split at h <;> cases h
    exact .answersHeld _ (by assumption)
  | heldFails errno =>
    simp only [System.work] at h
    split at h <;> cases h
    exact .failsHeld _ errno (by assumption)
  | openFails errno =>
    simp only [System.work] at h
    split at h
    · rename_i i reserved
      obtain ⟨shared, moved, rfl⟩ := map_eq_some_iff.mp h
      cases step_steps moved with
      | dropsSlot _ _ pool => exact .fails i pool errno reserved
    · cases h
  | opens attr =>
    simp only [System.work] at h
    split at h
    · rename_i fh i opens reserved
      obtain ⟨shared, moved, rfl⟩ := map_eq_some_iff.mp h
      cases step_steps moved with
      | inserts _ _ slot _ handles left pool _ here table insert =>
        refine .opens fh i attr slot handles left pool opens reserved here table ?_
        rcases insert_cases insert with ⟨_, rfl, held⟩ | ⟨_, free, map, _⟩
        · exact .inl ⟨rfl, held⟩
        · exact .inr ⟨free, map⟩
    · cases h
  | release =>
    simp only [System.work] at h
    split at h
    · rename_i fh releases idle
      obtain ⟨shared, moved, rfl⟩ := map_eq_some_iff.mp h
      cases step_steps moved with
      | removes _ _ handles left pool _ table remove =>
        refine .releases fh handles left pool releases idle table ?_
        rcases remove_cases remove with ⟨rfl, _, _, absent⟩ | ⟨_, _, _, _, map, _⟩
        · exact AList.ext (List.kerase_of_notMem_keys (AList.lookup_eq_none.mp absent)).symm
        · exact map
    · cases h
  | runs =>
    simp only [System.work] at h
    split at h <;> cases h
    exact .runs _ (by assumption) (by assumption) (by assumption)

/-- What a joint step does to the handle tables and to the work of the exchanges. -/
inductive Stocks (s t : System) : Prop where
  | keeps (shared : t.shared = s.shared) (work : ∀ x, (t.served x).work = (s.served x).work)
      (next : t.server.sessions.nextId = s.server.sessions.nextId) : Stocks s t
  | creates (share : ℕ) (tables : t.shared.tables = s.shared.tables ++ [some (.new share)])
      (slots : t.shared.slots = s.shared.slots) (served : t.served = s.served)
      (next : t.server.sessions.nextId = s.server.sessions.nextId + 1) : Stocks s t
  | works (x : ℕ) (e : Sent) (found : s.client.sent[x]? = some e) (runs : s.runs x e = true)
      (works : Works s x e t) : Stocks s t
  | foreign (made : SharedHandles.Action Opened) (permitted : s.permitsForeign made = true)
      (moved : SharedHandles.step s.shared made = some t.shared) (served : t.served = s.served)
      (server : t.server = s.server) : Stocks s t
  | closes (id : ℕ) (unreferred : s.server.referred id = false)
      (tables : t.shared.tables = s.shared.tables.set id none)
      (slots : t.shared.slots = s.shared.slots) (served : t.served = s.served)
      (server : t.server = s.server) : Stocks s t

theorem step_stocks (h : Protocol.step s action = some t) : Stocks s t := by
  -- Of the server's steps only `create` gives out a session's number.
  have next : ∀ {made : SessionTable.Action} {server : Server},
      SessionTable.step s.server made = some server → (∀ k token order, made ≠ .create k token order) →
      server.sessions.nextId = s.server.sessions.nextId := by
    intro made server moved other
    rcases nextId_of_steps (SessionTable.step_steps moved) with same | ⟨_, k, token, order, named⟩
    · exact same
    · exact absurd named (other k token order)
  cases ProtocolLinks.step_steps h with
  | client | dials | hangsUp | connects => exact .keeps rfl (fun _ => rfl) rfl
  | greets _ resume _ _ greets =>
    rcases nextId_of_steps (.greets resume greets) with same | ⟨_, _, _, _, named⟩
    · exact .keeps rfl (fun _ => rfl) same
    · cases named
  | creates _ _ share _ _ moved =>
    refine .creates share rfl rfl rfl ?_
    simp only [SessionTable.step] at moved
    split_ifs at moved
    obtain ⟨c, _, _, rfl⟩ := of_onConn moved
    rfl
  | server _ _ permitted moved =>
    refine .keeps rfl (fun _ => rfl) (next moved ?_)
    rintro k token order rfl
    cases permitted
  | accepts _ _ _ _ _ moved
  | serves _ _ _ _ _ _ _ _ _ moved =>
    exact .keeps rfl (fun _ => setServed_keeps Served.work (by rfl)) (next moved (by simp))
  | delivers => exact .keeps rfl (fun _ => setServed_keeps Served.work (by rfl)) rfl
  | works x e _ _ _ found runs moved => exact .works x e found runs (work_works moved)
  | foreign made _ permitted moved => exact .foreign made permitted moved rfl rfl
  | closes id _ unreferred moved =>
    cases step_steps moved with
    | dropsTable => exact .closes id unreferred rfl rfl rfl rfl

section Effects

variable {id fh : ℕ}

theorem openedOf_handleFor (attr : Attr) (req : Request) :
    openedOf (System.handleFor x attr req) = ⟨x, attr⟩ := by
  unfold System.handleFor
  split <;> rfl

theorem entry_of_tables (same : t.shared.tables[id]? = s.shared.tables[id]?) :
    t.entry id fh = s.entry id fh := by
  simp only [System.entry, same]

theorem entry_of_table {handles : Handles Opened}
    (table : s.shared.tables[id]? = some (some handles)) : s.entry id fh = handles.map.lookup fh := by
  simp only [System.entry, table]

namespace Works

theorem keeps (h : Works s x e t) :
    t.client = s.client ∧ t.server = s.server ∧ t.dials = s.dials ∧ t.current = s.current ∧
      t.shared.tables.length = s.shared.tables.length ∧ ∀ y, y ≠ x → t.served y = s.served y := by
  cases h <;> refine ⟨rfl, rfl, rfl, rfl, ?_, fun y other => ?_⟩
  all_goals first
    | rfl
    | exact List.length_set ..
    | simp [System.setWork, System.setServed, other]

theorem slot_keeps (h : Works s x e t) {i : ℕ} {slot : Slot}
    (other : (s.served x).work ≠ .slot i) (here : s.shared.slots[i]? = some (some slot)) :
    t.shared.slots[i]? = some (some slot) := by
  cases h with
  | reserves => exact lookup_add here
  | fails j _ _ reserved | opens _ j _ _ _ _ _ _ reserved =>
    have ne : i ≠ j := by
      rintro rfl
      exact other reserved
    exact (lookup_write_of_ne ne).trans here
  | _ => exact here

theorem slot_new (h : Works s x e t) {i : ℕ} (reserved : (t.served x).work = .slot i) :
    i = s.shared.slots.length ∧ ∃ fh, e.req.opens = some fh ∧
      t.shared.slots[i]? = some (some ⟨s.sessionOf e, fh, true⟩) := by
  cases h <;> simp only [System.setWork, System.setServed, Function.update_self, reduceCtorEq] at reserved
  case reserves fh pool opens looked =>
    cases reserved
    exact ⟨rfl, fh, opens, by simp [System.setWork, System.setServed]⟩

theorem entry_of_set {id fh : ℕ} {handles left : Handles Opened} {shared : Shared Opened}
    {served : ℕ → Served} (table : s.shared.tables[id]? = some (some handles))
    (tables : shared.tables = s.shared.tables.set id (some left)) :
    ({ s with shared := shared, served := served } : System).entry id fh = left.map.lookup fh :=
  entry_of_table (tables ▸ lookup_write table)

/-- An entry stays, is made by the exchange where there was none, or is released by it. -/
theorem entry (h : Works s x e t)
    (slots : ∀ i, (s.served x).work = .slot i → ∃ fh, e.req.opens = some fh ∧
      s.shared.slots[i]? = some (some ⟨s.sessionOf e, fh, true⟩)) (id fh : ℕ) :
    t.entry id fh = s.entry id fh ∨
      (id = s.sessionOf e ∧ e.req.opens = some fh ∧ s.entry id fh = none ∧
        ∃ attr, t.entry id fh = some (System.handleFor x attr e.req) ∧
          (t.served x).work = .done (.opened attr)) ∨
      (id = s.sessionOf e ∧ e.req.releases = some fh ∧ t.entry id fh = none) := by
  cases h with
  | opens j i attr _ handles left _ opens reserved here table inserts =>
    obtain ⟨j', opens', here'⟩ := slots i reserved
    cases opens.symm.trans opens'
    cases here.symm.trans here'
    by_cases other : id = s.sessionOf e
    · subst other
      have before : s.entry (s.sessionOf e) fh = handles.map.lookup fh := entry_of_table table
      rcases inserts with ⟨same, _⟩ | ⟨free, map⟩
      · left
        exact (entry_of_set table rfl).trans (by rw [before, same])
      · by_cases eq : fh = j
        · subst eq
          refine .inr (.inl ⟨rfl, opens, before.trans free, attr, ?_, ?_⟩)
          · exact (entry_of_set table rfl).trans (by rw [map]; exact AList.lookup_insert _)
          · simp [System.setWork, System.setServed, before, free]
        · left
          exact (entry_of_set table rfl).trans (by rw [before, map]; exact AList.lookup_insert_ne eq)
    · exact .inl (entry_of_tables (lookup_write_of_ne other))
  | releases j handles left _ releases _ table erased =>
    by_cases other : id = s.sessionOf e
    · subst other
      have before : s.entry (s.sessionOf e) fh = handles.map.lookup fh := entry_of_table table
      by_cases eq : fh = j
      · subst eq
        refine .inr (.inr ⟨rfl, releases, ?_⟩)
        exact (entry_of_set table rfl).trans (by rw [erased]; exact AList.lookup_erase _ _)
      · left
        exact (entry_of_set table rfl).trans (by rw [before, erased]; exact AList.lookup_erase_ne eq)
    · exact .inl (entry_of_tables (lookup_write_of_ne other))
  | _ => exact .inl rfl

end Works

/-- What other clients do leaves the tables and slots of this client's sessions alone. -/
theorem foreign_keeps {made : SharedHandles.Action Opened} {shared : Shared Opened}
    (permitted : s.permitsForeign made = true) (moved : SharedHandles.step s.shared made = some shared) :
    shared.tables.length = s.shared.tables.length ∧
      (∀ id, s.ours id = true → shared.tables[id]? = s.shared.tables[id]?) ∧
      ∀ (i : ℕ) (slot : Slot), s.shared.slots[i]? = some (some slot) → s.ours slot.handles = true →
        shared.slots[i]? = some (some slot) := by
  -- What belongs to a session of another client's is not one of this client's.
  have apart : ∀ {id j : ℕ}, (!s.ours j) = true → s.ours id = true → id ≠ j := by
    rintro id j theirs mine rfl
    simp [mine] at theirs
  cases step_steps moved with
  | newTable | dropsTable => cases permitted
  | finds | refuses => exact ⟨rfl, fun _ _ => rfl, fun _ _ here _ => here⟩
  | reserves => exact ⟨rfl, fun _ _ => rfl, fun _ _ here _ => lookup_add here⟩
  | inserts _ _ slot _ _ _ _ _ here =>
    simp only [System.permitsForeign, here, all_some] at permitted
    refine ⟨List.length_set .., fun id mine => lookup_write_of_ne (apart permitted mine),
      fun i slot' here' mine => (lookup_write_of_ne ?_).trans here'⟩
    rintro rfl
    cases here.symm.trans here'
    exact apart permitted mine rfl
  | dropsSlot _ slot _ here =>
    simp only [System.permitsForeign, here, all_some] at permitted
    refine ⟨rfl, fun _ _ => rfl, fun i slot' here' mine => (lookup_write_of_ne ?_).trans here'⟩
    rintro rfl
    cases here.symm.trans here'
    exact apart permitted mine rfl
  | removes =>
    exact ⟨List.length_set .., fun id mine => lookup_write_of_ne (apart permitted mine), fun _ _ here _ => here⟩

end Effects

end Steps

section Sessions

variable {id : ℕ}

theorem ours_iff : s.ours id = true ↔
    ∃ (d : ℕ) (dial : Dial) (k : ℕ) (c : ConnTask), s.dials[d]? = some dial ∧ dial.conn = some k ∧
      s.server.conns[k]? = some c ∧ c.stage ≠ .creating ∧ c.session = id := by
  constructor
  · intro h
    obtain ⟨dial, mem, h⟩ := List.any_eq_true.mp h
    obtain ⟨k, conn, h⟩ := (any_eq_true _ _).mp h
    obtain ⟨c, here, h⟩ := (any_eq_true _ _).mp h
    simp only [Bool.and_eq_true, bne_iff_ne, beq_iff_eq] at h
    obtain ⟨d, found⟩ := List.mem_iff_getElem?.mp mem
    exact ⟨d, dial, k, c, found, conn, here, h.1, h.2⟩
  · rintro ⟨d, dial, k, c, found, conn, here, named, session⟩
    exact List.any_eq_true.mpr ⟨dial, List.mem_of_getElem? found, by simp [conn, here, named, session]⟩

/-- A connection that has its session had it before the step, resumed it, or has a new one. -/
theorem named_of_step {v w : Server} {made : SessionTable.Action}
    (moved : SessionTable.Steps v made w) {k : ℕ} {c' : ConnTask} (found : w.conns[k]? = some c')
    (named : c'.stage ≠ .creating) :
    (∃ c, v.conns[k]? = some c ∧ c.stage ≠ .creating ∧ c.session = c'.session) ∨
      k = v.conns.length ∨ v.sessions.nextId < c'.session := by
  obtain ⟨new, origin⟩ := conns_origin moved
  rcases origin k c' found with ⟨c, here, stays⟩ | ⟨_, comes⟩
  · exact .inl ⟨c, here, stays.named.mp named, stays.session.symm⟩
  · cases comes with
    | waits last | resumes _ last => exact .inr (.inl last)
    | creates => exact .inr (.inr (Nat.lt_succ_self _))

theorem ours_keeps (moved : ProtocolLinks.Steps s action t) (h : s.ours id = true) :
    t.ours id = true := by
  obtain ⟨d, dial, k, c, found, conn, here, named, session⟩ := ours_iff.mp h
  obtain ⟨c', there, keeps⟩ := conn_keeps moved here
  exact ours_iff.mpr ⟨d, dial, k, c', dials_keep moved found conn, conn, there, keeps.named named,
    (keeps.same named).1.trans session⟩

def ResumesOwn (s : System) : Prop :=
  ∀ (d : ℕ) (dial : Dial) (id token : ℕ), s.dials[d]? = some dial → dial.resume = some (id, token) →
    s.ours id = true

theorem ResumesOwn.step (linked : Linked s) (h : ResumesOwn s) (moved : ProtocolLinks.Steps s action t) :
    ResumesOwn t := by
  intro d dial id token found resume
  refine ours_keeps moved ?_
  rcases dial_origin moved found with old | rfl | ⟨_, old, rfl, _⟩
  · exact h d dial id token old resume
  · simp only [linked.resume] at resume
    split_ifs at resume with first
    cases resume
    exact ours_of_attached linked (Nat.pos_of_ne_zero first) (Nat.le_refl _)
  · exact h d _ id token old resume

theorem ours_before (linked : Linked s) (own : ResumesOwn s) (moved : ProtocolLinks.Steps s action t)
    (h : t.ours id = true) : s.ours id = true ∨ s.server.sessions.nextId < id := by
  obtain ⟨d, dial, k, c, found, conn, here, named, rfl⟩ := ours_iff.mp h
  rcases dial_origin moved found with old | rfl | ⟨resume, old, rfl, greets⟩
  · obtain ⟨c₀, here₀, _⟩ := linked.greeted d dial k old conn
    have known := lt_of_lookup here₀
    rcases server_moves moved with same | ⟨_, moves⟩
    · exact .inl (ours_iff.mpr ⟨d, dial, k, c, old, conn, same ▸ here, named, rfl⟩)
    · rcases named_of_step moves here named with ⟨c₁, here₁, named₁, session⟩ | last | new
      · exact .inl (ours_iff.mpr ⟨d, dial, k, c₁, old, conn, here₁, named₁, session⟩)
      · omega
      · exact .inr new
  · cases conn
  · cases conn
    generalize t.server = server at greets here
    cases greets with
    | resumes id token word =>
      simp only [List.getElem?_concat_length, Option.some.injEq] at here
      subst here
      exact .inl (own d _ id token old word)
    | waits =>
      simp only [List.getElem?_concat_length, Option.some.injEq] at here
      subst here
      exact absurd rfl named

end Sessions

section Invariant

/-- What the handle tables of this client's sessions hold, and for which exchanges. -/
structure Stocked (s : System) : Prop where
  own : ResumesOwn s
  tables : s.shared.tables.length = s.server.sessions.nextId + 1
  idle : ∀ x, s.client.sent.length ≤ x → (s.served x).work = .idle
  slot : ∀ (x : ℕ) (e : Sent) (i : ℕ), s.client.sent[x]? = some e → (s.served x).work = .slot i →
    ∃ fh, e.req.opens = some fh ∧ s.shared.slots[i]? = some (some ⟨s.sessionOf e, fh, true⟩)
  apart : ∀ x y i, (s.served x).work = .slot i → (s.served y).work = .slot i → x = y
  entry : ∀ (id fh : ℕ) (handle : Handle Opened), s.ours id = true → s.entry id fh = some handle →
    ∃ e, s.client.sent[(openedOf handle).exchange]? = some e ∧ e.req.opens = some fh ∧
      s.sessionOf e = id

namespace Stocked

theorem new (capacity : ℕ) : Stocked (.new capacity) where
  own := by simp [ResumesOwn, System.new]
  tables := rfl
  idle := fun _ _ => rfl
  slot := by simp [System.new]
  apart := by simp [System.new]
  entry := by simp [System.ours, System.new]

theorem sent_of_work (h : Stocked s) (busy : (s.served x).work ≠ .idle) :
    ∃ e, s.client.sent[x]? = some e := by
  by_contra none
  refine busy (h.idle x ?_)
  by_contra lt
  exact none ⟨_, List.getElem?_eq_getElem (by omega)⟩

theorem slot_lt (h : Stocked s) {i : ℕ} (reserved : (s.served x).work = .slot i) :
    i < s.shared.slots.length := by
  obtain ⟨e, found⟩ := h.sent_of_work (by rw [reserved]; simp)
  obtain ⟨fh, _, here⟩ := h.slot x e i found reserved
  exact lt_of_lookup here

theorem tables_step (h : Stocked s) (stocks : Stocks s t) :
    t.shared.tables.length = t.server.sessions.nextId + 1 := by
  cases stocks with
  | keeps shared _ next => rw [shared, next, h.tables]
  | creates _ tables _ _ next => simp [tables, next, h.tables]
  | works _ _ _ _ works =>
    obtain ⟨_, server, _, _, tables, _⟩ := works.keeps
    rw [tables, server, h.tables]
  | foreign _ permitted moved _ server =>
    rw [(foreign_keeps permitted moved).1, server, h.tables]
  | closes _ _ tables _ _ server => simp [tables, server, h.tables]

theorem idle_step (linked : Linked s) (h : Stocked s) (moved : ProtocolLinks.Steps s action t)
    (stocks : Stocks s t) (beyond : t.client.sent.length ≤ x) : (t.served x).work = .idle := by
  have before : s.client.sent.length ≤ x := by
    by_contra lt
    obtain ⟨e', there, _⟩ := exchange_carries linked moved
      (List.getElem?_eq_getElem (Nat.lt_of_not_le lt))
    have := lt_of_lookup there
    omega
  cases stocks with
  | keeps _ work => rw [work, h.idle x before]
  | creates _ _ _ served | foreign _ _ _ served | closes _ _ _ _ served => rw [served, h.idle x before]
  | works _ _ found _ works =>
    obtain ⟨_, _, _, _, _, others⟩ := works.keeps
    have known := lt_of_lookup found
    rw [others x (by omega), h.idle x before]

theorem slot_step (linked : Linked s) (h : Stocked s) (moved : ProtocolLinks.Steps s action t)
    (stocks : Stocks s t) {e' : Sent} {i : ℕ} (found : t.client.sent[x]? = some e')
    (reserved : (t.served x).work = .slot i) :
    ∃ fh, e'.req.opens = some fh ∧ t.shared.slots[i]? = some (some ⟨t.sessionOf e', fh, true⟩) := by
  rcases exchange_of linked moved found with ⟨e, here, carries⟩ | ⟨last, _, _, _, served⟩
  · rw [carries.evolves.req, carries.session]
    cases stocks with
    | keeps shared work =>
      rw [shared]
      exact h.slot x e i here (by rw [← work, reserved])
    | creates _ _ slots served | closes _ _ _ slots served =>
      rw [slots]
      exact h.slot x e i here (by rw [← served, reserved])
    | foreign _ permitted step served =>
      obtain ⟨fh, opens, slot⟩ := h.slot x e i here (by rw [← served, reserved])
      exact ⟨fh, opens, (foreign_keeps permitted step).2.2 i _ slot (ours_of_sent linked here)⟩
    | works y _ there _ works =>
      by_cases same : x = y
      · subst same
        cases here.symm.trans there
        exact (works.slot_new reserved).2
      · obtain ⟨_, _, _, _, _, others⟩ := works.keeps
        rw [others x same] at reserved
        obtain ⟨fh, opens, slot⟩ := h.slot x e i here reserved
        exact ⟨fh, opens, works.slot_keeps (fun again => same (h.apart x y i reserved again)) slot⟩
  · rw [served, h.idle x (by omega)] at reserved
    cases reserved

theorem apart_step (h : Stocked s) (stocks : Stocks s t) {y i : ℕ}
    (atX : (t.served x).work = .slot i) (atY : (t.served y).work = .slot i) : x = y := by
  cases stocks with
  | keeps _ work => exact h.apart x y i (by rw [← work, atX]) (by rw [← work, atY])
  | creates _ _ _ served | foreign _ _ _ served | closes _ _ _ _ served =>
    exact h.apart x y i (by rw [← served, atX]) (by rw [← served, atY])
  | works z _ _ _ works =>
    obtain ⟨_, _, _, _, _, others⟩ := works.keeps
    -- A slot that was just reserved is one that nobody had.
    have fresh : ∀ {w : ℕ}, w ≠ z → (t.served w).work = .slot i → (t.served z).work ≠ .slot i := by
      intro w ne atW atZ
      rw [others w ne] at atW
      have := h.slot_lt atW
      have := (works.slot_new atZ).1
      omega
    by_cases eqX : x = z <;> by_cases eqY : y = z
    · rw [eqX, eqY]
    · exact absurd (eqX ▸ atX) (fresh eqY atY)
    · exact absurd (eqY ▸ atY) (fresh eqX atX)
    · rw [others x eqX] at atX
      rw [others y eqY] at atY
      exact h.apart x y i atX atY

/-- What a step does to an entry of one of this client's sessions. -/
inductive EntrySteps (s : System) (id fh : ℕ) (t : System) : Prop where
  | stays (same : t.entry id fh = s.entry id fh) : EntrySteps s id fh t
  | opens (x : ℕ) (e : Sent) (attr : Attr) (found : s.client.sent[x]? = some e)
      (runs : s.runs x e = true) (session : s.sessionOf e = id) (opens : e.req.opens = some fh)
      (free : s.entry id fh = none) (opened : t.entry id fh = some (System.handleFor x attr e.req))
      (work : (t.served x).work = .done (.opened attr)) (client : t.client = s.client) :
      EntrySteps s id fh t
  | releases (x : ℕ) (e : Sent) (found : s.client.sent[x]? = some e) (runs : s.runs x e = true)
      (session : s.sessionOf e = id) (releases : e.req.releases = some fh)
      (gone : t.entry id fh = none) (client : t.client = s.client) : EntrySteps s id fh t
  | closes (unreferred : s.server.referred id = false) (closed : t.shared.tables[id]? = some none)
      (gone : t.entry id fh = none) (server : t.server = s.server) : EntrySteps s id fh t

theorem entry_steps (h : Stocked s) (stocks : Stocks s t) {id : ℕ}
    (ours : s.ours id = true) (given : id ≤ s.server.sessions.nextId) (fh : ℕ) :
    EntrySteps s id fh t := by
  have known : id < s.shared.tables.length := by rw [h.tables]; omega
  cases stocks with
  | keeps shared => exact .stays (by rw [System.entry, shared, System.entry])
  | creates _ tables =>
    exact .stays (entry_of_tables (by rw [tables, List.getElem?_append_left known]))
  | foreign _ permitted moved =>
    exact .stays (entry_of_tables ((foreign_keeps permitted moved).2.1 id ours))
  | closes id' unreferred tables _ _ server =>
    by_cases eq : id = id'
    · subst eq
      have closed : t.shared.tables[id]? = some none := by
        rw [tables]
        exact lookup_write (List.getElem?_eq_getElem known)
      exact .closes unreferred closed (by simp [System.entry, closed]) server
    · exact .stays (entry_of_tables (by rw [tables]; exact lookup_write_of_ne eq))
  | works x e found runs works =>
    obtain ⟨client, _⟩ := works.keeps
    rcases works.entry (fun i => h.slot x e i found) id fh with
      same | ⟨rfl, opens, free, attr, opened, work⟩ | ⟨rfl, releases, gone⟩
    · exact .stays same
    · exact .opens x e attr found runs rfl opens free opened work client
    · exact .releases x e found runs rfl releases gone client

theorem entry_step (linked : Linked s) (h : Stocked s) (moved : ProtocolLinks.Steps s action t)
    (stocks : Stocks s t) {id fh : ℕ} {handle : Handle Opened} (ours : t.ours id = true)
    (held : t.entry id fh = some handle) :
    ∃ e, t.client.sent[(openedOf handle).exchange]? = some e ∧ e.req.opens = some fh ∧
      t.sessionOf e = id := by
  have carried : ∀ {y : ℕ} {e : Sent}, s.client.sent[y]? = some e → e.req.opens = some fh →
      s.sessionOf e = id → ∃ e, t.client.sent[y]? = some e ∧ e.req.opens = some fh ∧
        t.sessionOf e = id := by
    intro y e found opens session
    obtain ⟨e', found', carries⟩ := exchange_carries linked moved found
    exact ⟨e', found', by rw [carries.evolves.req, opens], carries.session.trans session⟩
  rcases ours_before linked h.own moved ours with mine | new
  · obtain ⟨_, _, _, c, _, _, here, _, rfl⟩ := ours_iff.mp mine
    have given := linked.attended.sound.known.conns c (List.mem_of_getElem? here)
    cases h.entry_steps stocks mine given fh with
    | stays same =>
      obtain ⟨e, found, opens, session⟩ := h.entry _ fh handle mine (same.symm.trans held)
      exact carried found opens session
    | opens _ _ _ found _ session opens _ opened =>
      cases held.symm.trans opened
      rw [openedOf_handleFor]
      exact carried found opens session
    | releases _ _ _ _ _ _ gone | closes _ _ gone =>
      cases held.symm.trans gone
  · -- The table of a session that was just made is empty.
    have fresh : s.shared.tables.length ≤ id := by rw [h.tables]; omega
    have beyond : ∀ {tables : List (Option (Handles Opened))}, t.shared.tables = tables →
        tables.length ≤ id → False := by
      intro tables same le
      rw [System.entry, same, List.getElem?_eq_none le] at held
      cases held
    cases stocks with
    | keeps shared => exact (beyond (by rw [shared]) fresh).elim
    | creates _ tables =>
      rw [System.entry, tables, List.getElem?_append_right fresh] at held
      cases at' : id - s.shared.tables.length with
      | zero =>
        rw [at'] at held
        cases held
      | succ =>
        rw [at'] at held
        cases held
    | works _ _ _ _ works =>
      obtain ⟨_, _, _, _, length, _⟩ := works.keeps
      exact (beyond rfl (by omega)).elim
    | foreign _ permitted moved =>
      exact (beyond rfl (by rw [(foreign_keeps permitted moved).1]; exact fresh)).elim
    | closes _ _ tables =>
      exact (beyond tables (by rw [List.length_set]; exact fresh)).elim

theorem step (linked : Linked s) (h : Stocked s) (moves : Protocol.step s action = some t) :
    Stocked t := by
  have moved := ProtocolLinks.step_steps moves
  have stocks := step_stocks moves
  exact ⟨h.own.step linked moved, h.tables_step stocks, fun _ beyond => h.idle_step linked moved stocks beyond,
    fun _ _ _ found reserved => h.slot_step linked moved stocks found reserved,
    fun _ _ _ atX atY => h.apart_step stocks atX atY,
    fun _ _ _ ours held => h.entry_step linked moved stocks ours held⟩

end Stocked

theorem numbered_step (linked : Linked s) (h : Numbered s.client)
    (moved : ProtocolLinks.Steps s action t) : Numbered t.client := by
  rcases client_moves moved with same | ⟨⟨made, moved⟩, _⟩
  · rw [same]
    exact h
  · exact h.step linked.called moved

/-- All that is known of the client and the server together, with the handles of both. -/
structure Handled (s : System) : Prop extends Joint s where
  numbered : Numbered s.client
  stocked : Stocked s

theorem Handled.step (h : Handled s) (moves : Protocol.step s action = some t) : Handled t := by
  have moved := ProtocolLinks.step_steps moves
  exact ⟨⟨h.linked.step moved, h.tasked.step h.linked moved, h.ordered.step h.linked h.tasked moved⟩,
    numbered_step h.linked h.numbered moved, h.stocked.step h.linked moves⟩

theorem Handled.new (capacity : ℕ) : Handled (.new capacity) :=
  ⟨⟨.new capacity, .new capacity, .new capacity⟩, .new, .new capacity⟩

theorem handled_of_reachable {capacity : ℕ} (h : (Protocol.machine capacity).Reachable s) :
    Handled s :=
  Machine.Reachable.invariant (P := Handled) (.new capacity) (fun _ _ _ h moves => h.step moves) h

end Invariant

/-- An id that the client holds never changes its file.  One call gave the id.  What any of the
client's sessions has under it was opened by that call or by a reopen of the id, and no step puts
anything else there: it stays until the session's table is dropped. -/
theorem live_id_keeps_file {capacity : ℕ} (h : (Protocol.machine capacity).Reachable s) {fh : ℕ}
    (alive : fh ∈ s.client.handles.live) :
    ∃ (i : ℕ) (call : Call) (attr : Attr), s.client.calls[i]? = some call ∧
      opens call.purpose = some fh ∧ call.result = some (.ok (.opened attr)) ∧
      (∀ j d, s.client.calls[j]? = some d → opens d.purpose = some fh → j = i) ∧
      ∀ g, 0 < g → g ≤ s.client.generation → ∀ handle,
        s.entry (s.client.attached g).session fh = some handle →
        (∃ e, s.client.sent[(openedOf handle).exchange]? = some e ∧ e.req.opens = some fh ∧
          s.sessionOf e = (s.client.attached g).session ∧
          (e.origin = .call i ∧ e.req = call.req ∨ e.origin = .reopen fh)) ∧
        ∀ action t, (Protocol.machine capacity).step s action = some t →
          t.entry (s.client.attached g).session fh = some handle ∨
            t.shared.tables[(s.client.attached g).session]? = some none := by
  have handled := handled_of_reachable h
  have linked := handled.linked
  have numbered := handled.numbered
  obtain ⟨i, call, attr, known, purpose, _, result⟩ := numbered.given_of_live alive
  refine ⟨i, call, attr, known, purpose, result,
    fun j d found same => numbered.apart j i d call fh found known same purpose, ?_⟩
  intro g positive le handle held
  have ours := ours_of_attached linked positive le
  have given := acknowledged_given (linked.told g positive le) linked.attended.sound.known
  constructor
  · obtain ⟨e, found, opened, session⟩ := handled.stocked.entry _ fh handle ours held
    refine ⟨e, found, opened, session, ?_⟩
    rcases numbered.made _ e fh found opened with ⟨j, d, origin, found', same⟩ | ⟨origin, _⟩
    · obtain rfl := numbered.apart j i d call fh found' known same purpose
      exact Or.inl ⟨origin, (linked.called.attempts j call known).req _ e ⟨found, origin⟩⟩
    · exact Or.inr origin
  · intro action t moves
    cases handled.stocked.entry_steps (step_stocks moves) ours given fh with
    | stays same => exact Or.inl (same.trans held)
    | opens x e attr found runs session opened free =>
      rw [free] at held
      cases held
    | releases x e found runs session releases =>
      exact absurd alive (numbered.sent x e fh found releases).gone
    | closes unreferred closed => exact Or.inr closed

/-- A file is opened, and the client reads the reply. -/
def answeredRun : List Protocol.Action :=
  CallOrder.connectRun ++ .client (.open [] 0) :: CallOrder.sendRun 0 0 ++
    [.serve 0 .begin, .work 0 .look, .work 0 .reserve, .work 0 (.opens ⟨5, 9⟩), .serve 0 .finish,
      .deliver 0 true, .client (.ends 0 (.replied (.opened ⟨5, 9⟩)))]

def openRun : List Protocol.Action :=
  answeredRun ++ [.client (.settle 0 true)]

theorem live_id_keeps_file_opened :
    ∃ s, (Protocol.machine 4).run openRun = some s ∧ 1 ∈ s.client.handles.live ∧
      s.entry (s.client.attached 1).session 1 = some (.file ⟨0, ⟨5, 9⟩⟩) ∧
      ∃ e, s.client.sent[0]? = some e ∧ e.req.opens = some 1 ∧
        (e.origin = .call 0 ∨ e.origin = .reopen 1) := by
  obtain ⟨s, run, reached, holds⟩ := (Protocol.machine 4).exists_of_run
    (p := fun s : System => decide (1 ∈ s.client.handles.live) && s.client.generation == 1 &&
      s.entry (s.client.attached 1).session 1 == some (.file ⟨0, ⟨5, 9⟩⟩) &&
      s.client.calls.length == 1)
    (by decide +kernel : ((Protocol.machine 4).run openRun).any _ = true)
  simp only [Bool.and_eq_true, decide_eq_true_eq, beq_iff_eq] at holds
  obtain ⟨⟨⟨alive, generation⟩, held⟩, one⟩ := holds
  obtain ⟨i, call, _, known, _, _, _, files⟩ := live_id_keeps_file reached alive
  obtain ⟨⟨e, found, opened, _, origin⟩, _⟩ := files 1 (by decide) (by omega) _ held
  have first := (List.getElem?_eq_some_iff.mp known).1
  obtain rfl : i = 0 := by omega
  exact ⟨s, run, alive, held, e, found, opened, origin.imp_left And.left⟩

end JackalopeFs.OpenedHandles
