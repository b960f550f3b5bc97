import JackalopeFs.WireRequests

/-! # The client's handle table and the releases it owes

`HandleTable` records the handles the kernel holds and, beside them, the releases
that could not be delivered.  A record is shared with the tasks that looked it up,
so its `dead` mark outlives its place in the table: the marks are cells of their
own here, one for each id, which is enough because an id is given once.  The node
and the opener of a record, which no function below reads, are left out.
-/

namespace JackalopeFs.ClientHandles

open KeyedTables WireRequests

inductive Error where
  | timeout
  | interrupted
  | disconnected
  | stale
  | remote (errno : ℤ)
  | protocol
  | closed
  | unmapped
  deriving DecidableEq, Repr

inductive HandleKind where
  | file
  | dir
  deriving DecidableEq, Repr

structure HandleRec where
  key : KeyNode
  path : Path
  flags : BitVec 32
  kind : HandleKind
  deriving DecidableEq, Repr

namespace HandleRec

def appends (rec : HandleRec) : Bool :=
  rec.flags &&& oAppend != 0

/-- The request that reopens this handle after the server lost it. -/
def reopenRequest (rec : HandleRec) (fh : ℕ) : Request :=
  match rec.kind with
  | .file => .open fh rec.path (rec.flags &&& ~~~(oCreat ||| oExcl ||| oTrunc))
  | .dir => .opendir fh rec.path

@[simp] theorem reopenRequest_opens (rec : HandleRec) (fh : ℕ) :
    (rec.reopenRequest fh).opens = some fh := by
  unfold reopenRequest
  split <;> rfl

end HandleRec

/-- The release that the client sends on its own for a handle. -/
def releaseRequest (kind : HandleKind) (fh : ℕ) : Request :=
  match kind with
  | .file => .release fh true
  | .dir => .releasedir fh true

@[simp] theorem releaseRequest_releases (kind : HandleKind) (fh : ℕ) :
    (releaseRequest kind fh).releases = some fh := by
  cases kind <;> rfl

@[simp] theorem releaseRequest_changes (kind : HandleKind) (fh : ℕ) :
    (releaseRequest kind fh).changes = true := by
  cases kind <;> rfl

/-- A release owed, and the generation of the connection it is being sent on, if it is.  `serial`
tells it from other releases of the same id owed before or after it. -/
structure OwedRelease where
  req : Request
  sendingOn : Option ℕ
  serial : ℕ
  deriving DecidableEq, Repr

structure HandleTable where
  next : ℕ
  map : AList fun _ : ℕ => HandleRec
  dead : ℕ → Bool
  owed : AList fun _ : ℕ => OwedRelease
  owedCount : ℕ
  files : ℕ
  dirs : ℕ

namespace HandleTable

def new : HandleTable :=
  ⟨0, ∅, fun _ => false, ∅, 0, 0, 0⟩

/-- A fresh id, and the table that will not give it again. -/
def alloc (t : HandleTable) : ℕ × HandleTable :=
  (t.next + 1, { t with next := t.next + 1 })

def countUp (t : HandleTable) : HandleKind → HandleTable
  | .file => { t with files := t.files + 1 }
  | .dir => { t with dirs := t.dirs + 1 }

def countDown (t : HandleTable) : HandleKind → HandleTable
  | .file => { t with files := t.files - 1 }
  | .dir => { t with dirs := t.dirs - 1 }

def get (t : HandleTable) (fh : ℕ) : Option HandleRec :=
  t.map.lookup fh

def isDead (t : HandleTable) (fh : ℕ) : Bool :=
  t.dead fh

def markDead (t : HandleTable) (fh : ℕ) : HandleTable :=
  { t with dead := Function.update t.dead fh true }

def insert (t : HandleTable) (fh : ℕ) (rec : HandleRec) : HandleTable :=
  let counted := t.countUp rec.kind
  { (match t.map.lookup fh with
      | some old => counted.countDown old.kind
      | none => counted) with
    map := t.map.insert fh rec
    dead := Function.update t.dead fh false }

def remove (t : HandleTable) (fh : ℕ) : HandleTable × Option HandleRec :=
  match t.map.lookup fh with
  | some rec => ({ t.countDown rec.kind with map := t.map.erase fh }, some rec)
  | none => (t, none)

/-- A release as it is owed: ordered, since it is sent in the background.  Nothing else is owed. -/
def asOwed : Request → Option (ℕ × Request)
  | .release fh _ => some (fh, .release fh true)
  | .releasedir fh _ => some (fh, .releasedir fh true)
  | _ => none

theorem asOwed_eq_some {req release : Request} {fh : ℕ} (h : asOwed req = some (fh, release)) :
    req.releases = some fh ∧ release.releases = some fh ∧ release.changes = true := by
  cases req <;> simp_all [asOwed, Request.releases]
  all_goals
    obtain ⟨rfl, rfl⟩ := h
    exact ⟨rfl, rfl⟩

/-- Owe the release of `fh`; one already owed stays as it is. -/
def owe (t : HandleTable) (fh : ℕ) (release : Request) : HandleTable :=
  match t.owed.lookup fh with
  | some _ => t
  | none =>
    { t with
      owed := t.owed.insert fh ⟨release, none, t.owedCount⟩
      owedCount := t.owedCount + 1 }

def oweRelease (t : HandleTable) (release : Request) : Option HandleTable :=
  (asOwed release).map fun r => t.owe r.1 r.2

theorem oweRelease_releaseRequest (t : HandleTable) (kind : HandleKind) (fh : ℕ) :
    t.oweRelease (releaseRequest kind fh) = some (t.owe fh (releaseRequest kind fh)) := by
  cases kind <;> rfl

/-- The handles whose release is owed and not being sent. -/
def owedUnsent (t : HandleTable) : List ℕ :=
  ((t.owed.entries.filter fun e => e.2.sendingOn.isNone).map Sigma.fst).insertionSort (· ≤ ·)

/-- The release owed of `fh`, now being sent on the connection of `generation`; nothing if it is not
owed. -/
def owedSend (t : HandleTable) (fh generation : ℕ) : Option (HandleTable × OwedRelease) :=
  (t.owed.lookup fh).map fun owed =>
    ({ t with owed := t.owed.insert fh { owed with sendingOn := some generation } }, owed)

/-- The release of `fh` sent on the connection of `generation` was answered. -/
def owedDelivered (t : HandleTable) (fh generation : ℕ) : HandleTable :=
  match t.owed.lookup fh with
  | some owed =>
    if owed.sendingOn = some generation then { t with owed := t.owed.erase fh } else t
  | none => t

/-- The connection of `generation` has ended: what it did not deliver may go on the next. -/
def owedConnectionEnded (t : HandleTable) (generation : ℕ) : HandleTable :=
  { t with
    owed := mapValues (fun owed =>
      if owed.sendingOn = some generation then { owed with sendingOn := none } else owed) t.owed }

/-- A new session holds none of the old one's handles. -/
def owedMoot (t : HandleTable) : HandleTable :=
  { t with owed := ∅ }

def live (t : HandleTable) : AList fun _ : ℕ => HandleRec :=
  restrict (fun fh => !t.dead fh) t.map

def oweAll (t : HandleTable) (handles : List (Σ _ : ℕ, HandleRec)) : HandleTable :=
  handles.foldl (fun t e => t.owe e.1 (releaseRequest e.2.kind e.1)) t

/-- Every handle is stale, and the releases of those that were not yet are owed. -/
def killAll (t : HandleTable) : HandleTable :=
  { t with dead := fun fh => t.dead fh || (t.live.lookup fh).isSome }.oweAll t.live.entries

/-- Judge a reopen's outcome: the same file keeps the handle alive, anything else kills it. -/
def applyReopen (t : HandleTable) (fh : ℕ) (rec : HandleRec) (outcome : Except Error Response) :
    HandleTable :=
  match outcome with
  | .ok (.opened attr) => if rec.key.describes attr then t else t.markDead fh
  | .ok _ => t.markDead fh
  | .error _ => t.markDead fh

section Counts

variable (t : HandleTable) (kind : HandleKind)

@[simp] theorem countUp_next : (t.countUp kind).next = t.next := by cases kind <;> rfl

@[simp] theorem countUp_owed : (t.countUp kind).owed = t.owed := by cases kind <;> rfl

@[simp] theorem countUp_owedCount : (t.countUp kind).owedCount = t.owedCount := by cases kind <;> rfl

@[simp] theorem countDown_next : (t.countDown kind).next = t.next := by cases kind <;> rfl

@[simp] theorem countDown_dead : (t.countDown kind).dead = t.dead := by cases kind <;> rfl

@[simp] theorem countDown_owed : (t.countDown kind).owed = t.owed := by cases kind <;> rfl

@[simp] theorem countDown_owedCount : (t.countDown kind).owedCount = t.owedCount := by
  cases kind <;> rfl

end Counts

section Owing

variable {t t' t'' : HandleTable} {fh j : ℕ} {owed : OwedRelease}

theorem owe_owed (release : Request) :
    (t.owe fh release).owed.lookup j =
      if j = fh ∧ t.owed.lookup fh = none then some ⟨release, none, t.owedCount⟩
      else t.owed.lookup j := by
  unfold owe
  split
  · rename_i old held
    rw [if_neg (by simp [held])]
  · rename_i free
    by_cases same : j = fh
    · subst same
      rw [if_pos ⟨rfl, free⟩]
      exact AList.lookup_insert _
    · rw [if_neg fun h => same h.1]
      exact AList.lookup_insert_ne same

/-- The second table owes all that the first does, unchanged, and what it owes besides is new and
not being sent. -/
structure Owes (t t' : HandleTable) : Prop where
  keeps : ∀ fh owed, t.owed.lookup fh = some owed → t'.owed.lookup fh = some owed
  adds : ∀ fh owed, t'.owed.lookup fh = some owed → t.owed.lookup fh = some owed ∨
    (owed.sendingOn = none ∧ t.owedCount ≤ owed.serial ∧ owed.serial < t'.owedCount)
  count : t.owedCount ≤ t'.owedCount

theorem Owes.of_same (same : t'.owed = t.owed) (count : t'.owedCount = t.owedCount) :
    Owes t t' :=
  ⟨fun _ _ h => same ▸ h, fun _ _ h => .inl (same ▸ h), count.ge⟩

theorem Owes.trans (first : Owes t t') (second : Owes t' t'') : Owes t t'' where
  keeps := fun fh owed h => second.keeps fh owed (first.keeps fh owed h)
  adds := fun fh owed h => by
    have step := second.count
    have before := first.count
    rcases second.adds fh owed h with h | ⟨unsent, low, high⟩
    · rcases first.adds fh owed h with h | ⟨unsent, low, high⟩
      · exact .inl h
      · exact .inr ⟨unsent, low, by omega⟩
    · exact .inr ⟨unsent, by omega, high⟩
  count := first.count.trans second.count

theorem owes_owe (release : Request) : Owes t (t.owe fh release) where
  keeps := fun j owed h => by
    rw [owe_owed, if_neg]
    · exact h
    · rintro ⟨rfl, free⟩
      rw [free] at h
      cases h
  adds := fun j owed h => by
    rw [owe_owed] at h
    split_ifs at h with added
    · cases h
      refine .inr ⟨rfl, Nat.le_refl _, ?_⟩
      simp [owe, added.2]
    · exact .inl h
  count := by
    unfold owe
    split
    · exact Nat.le_refl _
    · exact Nat.le_succ _

theorem owes_oweAll (handles : List (Σ _ : ℕ, HandleRec)) : Owes t (t.oweAll handles) := by
  induction handles generalizing t with
  | nil => exact .of_same rfl rfl
  | cons _ _ ih => exact (owes_owe _).trans ih

theorem owes_killAll : Owes t t.killAll := by
  have marked : Owes t { t with dead := fun fh => t.dead fh || (t.live.lookup fh).isSome } :=
    .of_same rfl rfl
  exact marked.trans (owes_oweAll _)

theorem owes_insert (rec : HandleRec) : Owes t (t.insert fh rec) := by
  unfold insert
  split <;> exact .of_same (by simp) (by simp)

theorem owes_remove : Owes t (t.remove fh).1 := by
  unfold remove
  split
  · exact .of_same (by simp) (by simp)
  · exact .of_same rfl rfl

theorem owes_applyReopen (rec : HandleRec) (outcome : Except Error Response) :
    Owes t (t.applyReopen fh rec outcome) := by
  unfold applyReopen
  split
  · split_ifs <;> exact .of_same rfl rfl
  · exact .of_same rfl rfl
  · exact .of_same rfl rfl

theorem mem_owedUnsent :
    fh ∈ t.owedUnsent ↔ ∃ owed, t.owed.lookup fh = some owed ∧ owed.sendingOn = none := by
  unfold owedUnsent
  rw [List.mem_insertionSort, List.mem_map]
  constructor
  · rintro ⟨e, mem, rfl⟩
    obtain ⟨listed, unsent⟩ := List.mem_filter.mp mem
    exact ⟨e.2, lookup_eq_some_iff.mpr listed, by simpa using unsent⟩
  · rintro ⟨owed, found, unsent⟩
    exact ⟨⟨fh, owed⟩, List.mem_filter.mpr ⟨lookup_eq_some_iff.mp found, by simp [unsent]⟩, rfl⟩

theorem owedUnsent_nodup : t.owedUnsent.Nodup := by
  unfold owedUnsent
  rw [(List.perm_insertionSort _ _).nodup_iff]
  exact (List.filter_sublist.map Sigma.fst).nodup t.owed.nodupKeys

theorem owedSend_eq_some {generation : ℕ} (h : t.owedSend fh generation = some (t', owed)) :
    t.owed.lookup fh = some owed ∧ t'.owedCount = t.owedCount ∧
      ∀ j, t'.owed.lookup j =
        if j = fh then some { owed with sendingOn := some generation } else t.owed.lookup j := by
  obtain ⟨old, found, made⟩ := Option.map_eq_some_iff.mp h
  cases made
  refine ⟨found, rfl, fun j => ?_⟩
  split_ifs with same
  · rw [same]
    exact AList.lookup_insert _
  · exact AList.lookup_insert_ne same

theorem owedDelivered_owed (generation : ℕ) :
    (t.owedDelivered fh generation).owed.lookup j =
      if j = fh ∧ (t.owed.lookup fh).any (fun owed => owed.sendingOn = some generation) then none
      else t.owed.lookup j := by
  unfold owedDelivered
  split
  · rename_i owed found
    by_cases sent : owed.sendingOn = some generation
    · by_cases same : j = fh
      · subst same
        simp only [sent, if_true, found, Option.any_some, decide_true, and_self]
        exact AList.lookup_erase _ _
      · simp only [sent, if_true, same, false_and, if_false]
        exact AList.lookup_erase_ne same
    · simp [sent, found]
  · rename_i free
    simp [free]

theorem owedDelivered_owedCount (generation : ℕ) :
    (t.owedDelivered fh generation).owedCount = t.owedCount := by
  unfold owedDelivered
  split
  · split_ifs <;> rfl
  · rfl

theorem owedConnectionEnded_owed (generation : ℕ) :
    (t.owedConnectionEnded generation).owed.lookup j =
      (t.owed.lookup j).map fun owed =>
        if owed.sendingOn = some generation then { owed with sendingOn := none } else owed :=
  lookup_mapValues _

end Owing

section Live

variable {t : HandleTable} {fh j : ℕ} {rec : HandleRec}

theorem mem_live : fh ∈ t.live ↔ fh ∈ t.map ∧ t.dead fh = false := by
  rw [← AList.lookup_isSome, ← AList.lookup_isSome, live, lookup_restrict]
  cases t.dead fh <;> simp

theorem live_of_same {t' : HandleTable} (map : t'.map = t.map) (dead : t'.dead = t.dead) :
    t'.live = t.live := by
  rw [live, live, map, dead]

@[simp] theorem owe_map (release : Request) : (t.owe fh release).map = t.map := by
  unfold owe
  split <;> rfl

@[simp] theorem owe_dead (release : Request) : (t.owe fh release).dead = t.dead := by
  unfold owe
  split <;> rfl

@[simp] theorem owe_next (release : Request) : (t.owe fh release).next = t.next := by
  unfold owe
  split <;> rfl

@[simp] theorem owe_live (release : Request) : (t.owe fh release).live = t.live :=
  live_of_same (owe_map release) (owe_dead release)

theorem mem_owe (release : Request) : j ∈ (t.owe fh release).owed ↔ j = fh ∨ j ∈ t.owed := by
  rw [← AList.lookup_isSome, ← AList.lookup_isSome, owe_owed]
  by_cases same : j = fh
  · subst same
    cases held : t.owed.lookup j <;> simp
  · simp [same]

theorem oweAll_same (handles : List (Σ _ : ℕ, HandleRec)) :
    (t.oweAll handles).map = t.map ∧ (t.oweAll handles).dead = t.dead ∧
      (t.oweAll handles).next = t.next := by
  induction handles generalizing t with
  | nil => exact ⟨rfl, rfl, rfl⟩
  | cons e _ ih =>
    obtain ⟨map, dead, next⟩ := ih (t := t.owe e.1 (releaseRequest e.2.kind e.1))
    exact ⟨map.trans (owe_map _), dead.trans (owe_dead _), next.trans (owe_next _)⟩

theorem mem_oweAll (handles : List (Σ _ : ℕ, HandleRec)) :
    j ∈ (t.oweAll handles).owed ↔ j ∈ t.owed ∨ j ∈ handles.map Sigma.fst := by
  induction handles generalizing t with
  | nil => simp [oweAll]
  | cons e _ ih =>
    have tail := ih (t := t.owe e.1 (releaseRequest e.2.kind e.1))
    rw [mem_owe] at tail
    rw [List.map_cons, List.mem_cons]
    exact tail.trans (by tauto)

theorem req_of_oweAll (handles : List (Σ _ : ℕ, HandleRec)) {owed : OwedRelease}
    (h : (t.oweAll handles).owed.lookup j = some owed) :
    t.owed.lookup j = some owed ∨ ∃ kind, owed.req = releaseRequest kind j := by
  induction handles generalizing t with
  | nil => exact .inl h
  | cons e _ ih =>
    rcases ih h with held | made
    · rw [owe_owed] at held
      split_ifs at held with new
      · cases held
        exact .inr ⟨e.2.kind, by rw [new.1]⟩
      · exact .inl held
    · exact .inr made

theorem remove_map : (t.remove fh).1.map = t.map.erase fh := by
  unfold remove
  split
  · rfl
  · rename_i free
    have absent : fh ∉ t.map := AList.lookup_eq_none.mp free
    exact AList.ext (List.kerase_of_notMem_keys absent).symm

@[simp] theorem remove_dead : (t.remove fh).1.dead = t.dead := by
  unfold remove
  split
  · exact countDown_dead _ _
  · rfl

@[simp] theorem remove_next : (t.remove fh).1.next = t.next := by
  unfold remove
  split
  · exact countDown_next _ _
  · rfl

theorem remove_owed : (t.remove fh).1.owed = t.owed := by
  unfold remove
  split
  · exact countDown_owed _ _
  · rfl

theorem mem_live_remove : j ∈ (t.remove fh).1.live ↔ j ≠ fh ∧ j ∈ t.live := by
  rw [mem_live, mem_live, remove_map, remove_dead, AList.mem_erase]
  tauto

theorem insert_next : (t.insert fh rec).next = t.next := by
  unfold insert
  split <;> simp

theorem insert_owed : (t.insert fh rec).owed = t.owed := by
  unfold insert
  split <;> simp

theorem mem_live_insert : j ∈ (t.insert fh rec).live ↔ j = fh ∨ j ∈ t.live := by
  rw [mem_live, mem_live]
  change j ∈ t.map.insert fh rec ∧ Function.update t.dead fh false j = false ↔ _
  rw [AList.mem_insert]
  by_cases same : j = fh
  · simp [same]
  · simp [same]

theorem killAll_same : t.killAll.map = t.map ∧ t.killAll.next = t.next ∧
    t.killAll.dead = fun fh => t.dead fh || (t.live.lookup fh).isSome := by
  obtain ⟨map, dead, next⟩ := oweAll_same (t :=
    { t with dead := fun fh => t.dead fh || (t.live.lookup fh).isSome }) t.live.entries
  exact ⟨map, next, dead⟩

theorem notMem_live_killAll : fh ∉ t.killAll.live := by
  obtain ⟨map, _, dead⟩ := killAll_same (t := t)
  rw [mem_live, map, dead]
  rintro ⟨mem, alive⟩
  simp only [Bool.or_eq_false_iff] at alive
  have live : fh ∈ t.live := mem_live.mpr ⟨mem, alive.1⟩
  rw [← AList.lookup_isSome, alive.2] at live
  cases live

theorem mem_owed_killAll : fh ∈ t.killAll.owed ↔ fh ∈ t.owed ∨ fh ∈ t.live :=
  mem_oweAll _

theorem applyReopen_same (t : HandleTable) (fh : ℕ) (rec : HandleRec)
    (outcome : Except Error Response) :
    (t.applyReopen fh rec outcome).map = t.map ∧ (t.applyReopen fh rec outcome).next = t.next ∧
      (t.applyReopen fh rec outcome).owed = t.owed := by
  unfold applyReopen
  split
  · split_ifs <;> exact ⟨rfl, rfl, rfl⟩
  · exact ⟨rfl, rfl, rfl⟩
  · exact ⟨rfl, rfl, rfl⟩

/-- A reopen kills its own handle at most, and none that found its file again. -/
theorem applyReopen_dead (t : HandleTable) (fh : ℕ) (rec : HandleRec)
    (outcome : Except Error Response) :
    (t.applyReopen fh rec outcome).dead = t.dead ∧
        (∃ attr, outcome = .ok (.opened attr) ∧ rec.key.describes attr = true) ∨
      (t.applyReopen fh rec outcome).dead = Function.update t.dead fh true := by
  unfold applyReopen
  split
  · split_ifs with same
    · exact .inl ⟨rfl, _, rfl, same⟩
    · exact .inr rfl
  · exact .inr rfl
  · exact .inr rfl

end Live

end HandleTable

end JackalopeFs.ClientHandles
