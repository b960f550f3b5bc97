import JackalopeFs.OwnerIds
import JackalopeFs.SharedHandles

/-! # What an open leaves behind

An open reserves its id as it begins: a slot of the pool, or the handle that an earlier
delivery of the same open kept.  It then asks the system to open the file and to describe
it, and keeps a handle only if all of that succeeds, so that an errno tells the client
that there is nothing to release.  The exception is a resend of an open that kept its
handle: it is answered with the attributes of the file held, and if those cannot be read
the errno goes out while the handle stays.

The answers of the system are inputs.  Other requests of any session act in between, but
none on the id.  The records of changes and the watch that a handle keeps are left out.
-/

namespace JackalopeFs.OpenDispatch

open IndexedCells Option OwnerIds PathNames SharedHandles TransitionRuns WireMessages

def ebadf : Int32 := 9

def enametoolong : Int32 := 36

/-- The flags of an open that the server passes through. -/
def openFlagsAllowed : Int32 := 0x1F1F03

def createFlagsAllowed : Int32 := openFlagsAllowed ||| 0xC0

def openFlags (flags : Int32) (creating : Bool) : Int32 :=
  flags &&& if creating then createFlagsAllowed else openFlagsAllowed

def oCreat : Int32 := 0x40

def oDirectory : Int32 := 0x10000

/-- Only regular files and directories are served through handles. -/
def servable : FileKind → Except Int32 Unit
  | .regular | .directory => .ok ()
  | _ => .error eopnotsupp

structure Calls (Fd : Type) where
  openNode : Path → Int32 → Except Int32 Fd
  openIn : Path → Name → Int32 → UInt32 → Except Int32 Fd
  attrOf : Fd → Except Int32 Attr

/-- A descriptor, and for a file the path it was opened by. -/
structure OpenFile (Fd : Type) where
  fd : Fd
  path : Option Path

inductive OpenRequest where
  | open (fh : UInt64) (path : Path) (flags : Int32)
  | create (fh : UInt64) (parent : Path) (name : Name) (mode : UInt32) (flags : Int32)
  | opendir (fh : UInt64) (path : Path)
  deriving DecidableEq, Repr

namespace OpenRequest

def request : OpenRequest → Request
  | .open fh path flags => .open fh path flags
  | .create fh parent name mode flags => .create fh parent name mode flags
  | .opendir fh path => .opendir fh path

def fh : OpenRequest → ℕ
  | .open fh _ _ | .create fh _ _ _ _ | .opendir fh _ => fh.toNat

end OpenRequest

section Run

variable {Fd : Type}

def behind : Handle (OpenFile Fd) → Fd
  | .file file | .dir file => file.fd

/-- A file opened and described, and the handle to keep of it. -/
def openWith (calls : Calls Fd) (opened : Except Int32 Fd)
    (handle : Fd → Except Int32 (Handle (OpenFile Fd))) : Except Int32 (Handle (OpenFile Fd) × Attr) := do
  let fd ← opened
  let attr ← calls.attrOf fd
  servable attr.kind
  let kept ← handle fd
  return (kept, attr)

/-- The handle to keep for an open with a slot, and the attributes to answer with. -/
def openKept (calls : Calls Fd) : OpenRequest → Except Int32 (Handle (OpenFile Fd) × Attr)
  | .open _ path flags =>
    openWith calls (calls.openNode path (openFlags flags false)) fun fd => .ok (.file ⟨fd, some path⟩)
  | .create _ parent name mode flags =>
    openWith calls (calls.openIn parent name (openFlags flags true ||| oCreat) (mode &&& 0xFFF))
      fun fd =>
        match parent.join name with
        | some path => .ok (.file ⟨fd, some path⟩)
        | none => .error enametoolong
  | .opendir _ path =>
    openWith calls (calls.openNode path oDirectory) fun fd => .ok (.dir ⟨fd, none⟩)

/-- The answer to a resent open whose original kept `handle`. -/
def openedAlready (calls : Calls Fd) (handle : Handle (OpenFile Fd)) : Except Int32 Attr :=
  calls.attrOf (behind handle)

def failureOf : ErrorReserve → Failure
  | .poolFull => .poolFull
  | .duplicate => .errno ebadf

/-- What an open comes to, before the handle it keeps is inserted. -/
inductive Course (Fd : Type) where
  | fails (failure : Failure)
  | answers (attr : Attr)
  | keeps (handle : Handle (OpenFile Fd)) (attr : Attr)

def run (calls : Calls Fd) (req : OpenRequest) :
    Except ErrorReserve (HandlePool × Reserved (OpenFile Fd)) → Course Fd
  | .error e => .fails (failureOf e)
  | .ok (_, .held handle) =>
    match openedAlready calls handle with
    | .ok attr => .answers attr
    | .error errno => .fails (.errno errno)
  | .ok (_, .slot _) =>
    match openKept calls req with
    | .ok (handle, attr) => .keeps handle attr
    | .error errno => .fails (.errno errno)

/-- What an open comes to if the owner policy lets it through. -/
def course (ids : IdMap) (calls : Calls Fd) (req : OpenRequest)
    (reserved : Except ErrorReserve (HandlePool × Reserved (OpenFile Fd))) : Course Fd :=
  match ids.admits req.request with
  | .error errno => .fails (.errno errno)
  | .ok () => run calls req reserved

/-- The place of the slot that was reserved, if one was. -/
def ownSlot (s : Shared (OpenFile Fd)) :
    Except ErrorReserve (HandlePool × Reserved (OpenFile Fd)) → Option ℕ
  | .ok (_, .slot _) => some s.slots.length
  | _ => none

/-- The result of inserting a handle through the slot at this place. -/
def inserted (s : Shared (OpenFile Fd)) (own : ℕ) (handle : Handle (OpenFile Fd)) :
    Option (Except ErrorReserve (Option ℕ)) :=
  match s.slots[own]? with
  | some (some slot) =>
    match s.tables[slot.handles]? with
    | some (some handles) => (slot.insert handles handle).map fun r => r.2.2
    | _ => none
  | _ => none

/-- The end of an open: its handle is inserted, or a slot it has is dropped. -/
def finish (ids : IdMap) (req : OpenRequest) (own : Option ℕ) (s : Shared (OpenFile Fd)) :
    Course Fd → Option (Response × Shared (OpenFile Fd))
  | .fails failure =>
    let answer := dispatch ids req.request (.error failure)
    match own with
    | none => some (answer, s)
    | some i => (step s (.dropSlot i)).map fun t => (answer, t)
  | .answers attr => some (dispatch ids req.request (.ok (.opened attr)), s)
  | .keeps handle attr =>
    own.bind fun i =>
      (inserted s i handle).bind fun result =>
        (step s (.insert i handle)).map fun t =>
          match result with
          | .ok _ => (dispatch ids req.request (.ok (.opened attr)), t)
          | .error e => (dispatch ids req.request (.error (failureOf e)), t)

/-- The beginning of an open of the session with this table: what is reserved under its id. -/
def begin (table : ℕ) (req : OpenRequest) (s : Shared (OpenFile Fd)) :
    Option (Except ErrorReserve (HandlePool × Reserved (OpenFile Fd)) × Shared (OpenFile Fd)) :=
  match s.tables[table]? with
  | some (some handles) =>
    let seen := handles.map.lookup req.fh
    (step s (.reserve table req.fh seen)).map fun t =>
      (Handles.reserve table req.fh seen s.pool, t)
  | _ => none

/-- Whether what others do leaves the id and the slot of an open alone. -/
def apart (table fh : ℕ) (own : Option ℕ) : Action (OpenFile Fd) → Bool
  | .newTable _ => true
  | .reserve table' fh' _ | .remove table' fh' => (table', fh') ≠ (table, fh)
  | .insert slot _ | .dropSlot slot => own ≠ some slot
  | .dropTable table' => table' ≠ table

end Run

section Alone

variable {Fd : Type} {s t : Shared (OpenFile Fd)} {table fh : ℕ} {own : Option ℕ}
variable {held : Option (Handle (OpenFile Fd))}

/-- What the table has under an id, and that no slot but the open's own is for it. -/
structure Alone (s : Shared (OpenFile Fd)) (table fh : ℕ) (own : Option ℕ)
    (held : Option (Handle (OpenFile Fd))) : Prop where
  present : ∃ handles, s.tables[table]? = some (some handles) ∧ handles.map.lookup fh = held
  reserved : ∀ i, own = some i → s.slots[i]? = some (some ⟨table, fh, true⟩)
  others : ∀ (i : ℕ) (slot : Slot), s.slots[i]? = some (some slot) → slot.handles = table → slot.fh = fh →
    own = some i

namespace Alone

theorem write (h : Alone s table fh own held) {table' : ℕ} {handles left : Handles (OpenFile Fd)}
    {pool : HandlePool} {slots : List (Option Slot)} (found : s.tables[table']? = some (some handles))
    (same : table' = table → left.map.lookup fh = handles.map.lookup fh)
    (mine : ∀ i : ℕ, own = some i → slots[i]? = s.slots[i]?)
    (fewer : ∀ (i : ℕ) (slot : Slot), slots[i]? = some (some slot) → s.slots[i]? = some (some slot)) :
    Alone ⟨pool, s.tables.set table' (some left), slots⟩ table fh own held := by
  obtain ⟨current, present, has⟩ := h.present
  refine ⟨?_, fun i own' => (mine i own').trans (h.reserved i own'),
    fun i slot there => h.others i slot (fewer i slot there)⟩
  by_cases here : table' = table
  · subst here
    cases found.symm.trans present
    exact ⟨left, lookup_write found, (same rfl).trans has⟩
  · exact ⟨current, by rw [lookup_write_of_ne (Ne.symm here)]; exact present, has⟩

theorem free_slot {i : ℕ} (other : own ≠ some i) :
    (∀ j : ℕ, own = some j → (s.slots.set i none)[j]? = s.slots[j]?) ∧
      ∀ (j : ℕ) (slot' : Slot), (s.slots.set i none)[j]? = some (some slot') → s.slots[j]? = some (some slot') := by
  refine ⟨fun j mine => lookup_write_of_ne fun same => other (same ▸ mine), fun j slot' there => ?_⟩
  rcases of_lookup_write there with ⟨-, gone⟩ | ⟨-, there⟩
  · cases gone
  · exact there

theorem step (h : Alone s table fh own held) {action : Action (OpenFile Fd)}
    (meets : apart table fh own action = true) (moved : SharedHandles.step s action = some t) :
    Alone t table fh own held := by
  obtain ⟨current, present, has⟩ := h.present
  cases step_steps moved with
  | newTable => exact ⟨⟨current, lookup_add present, has⟩, h.reserved, h.others⟩
  | finds | refuses => exact h
  | reserves =>
    simp only [apart, decide_eq_true_eq] at meets
    refine ⟨⟨current, present, has⟩, fun i mine => lookup_add (h.reserved i mine),
      fun i slot' there own' same => ?_⟩
    rcases of_lookup_add there with there | ⟨-, there⟩
    · exact h.others i slot' there own' same
    · cases there
      exact absurd (Prod.ext own' same) meets
  | inserts i _ slot _ _ _ _ _ here found made =>
    simp only [apart, decide_eq_true_eq] at meets
    obtain ⟨mine, fewer⟩ := free_slot (s := s) meets
    refine h.write found (fun same => ?_) mine fewer
    rcases insert_cases made with ⟨-, same', -⟩ | ⟨-, -, map, -⟩
    · rw [same']
    · rw [map, AList.lookup_insert_ne]
      intro same'
      exact meets (h.others i slot here same same'.symm)
  | dropsSlot =>
    simp only [apart, decide_eq_true_eq] at meets
    obtain ⟨mine, fewer⟩ := free_slot (s := s) meets
    exact ⟨⟨current, present, has⟩, fun j own' => (mine j own').trans (h.reserved j own'),
      fun j slot' there => h.others j slot' (fewer j slot' there)⟩
  | removes _ _ _ _ _ _ found made =>
    simp only [apart, decide_eq_true_eq] at meets
    refine h.write found (fun same => ?_) (fun _ _ => rfl) (fun _ _ there => there)
    rcases remove_cases made with ⟨same', -⟩ | ⟨handle, -, -, -, map, -⟩
    · rw [same']
    · rw [map, AList.lookup_erase_ne]
      rintro rfl
      exact meets (Prod.ext same rfl)
  | dropsTable =>
    simp only [apart, decide_eq_true_eq] at meets
    exact ⟨⟨current, by rw [lookup_write_of_ne (Ne.symm meets)]; exact present, has⟩, h.reserved, h.others⟩

theorem runFrom {capacity : ℕ} {actions : List (Action (OpenFile Fd))} (h : Alone s table fh own held)
    (meets : ∀ action ∈ actions, apart table fh own action = true)
    (acted : (machine (OpenFile Fd) capacity).runFrom s actions = some t) : Alone t table fh own held :=
  Machine.runFrom_keeps (P := fun s => Alone s table fh own held)
    (fun action mem _ _ alone moved => alone.step (meets action mem) moved) h acted

variable {i : ℕ}

theorem dropped (h : Alone s table fh (some i) held)
    (moved : SharedHandles.step s (.dropSlot i) = some t) : Alone t table fh none held := by
  have here := h.reserved i rfl
  simp only [SharedHandles.step, here] at moved
  obtain ⟨pool, -, rfl⟩ := map_eq_some_iff.mp moved
  refine ⟨h.present, (fun _ mine => by cases mine), fun j slot there own' same => ?_⟩
  rcases of_lookup_write there with ⟨-, gone⟩ | ⟨other, there⟩
  · cases gone
  · exact absurd (Option.some.inj (h.others j slot there own' same)).symm other

theorem kept (h : Alone s table fh (some i) none) {handle : Handle (OpenFile Fd)}
    (moved : SharedHandles.step s (.insert i handle) = some t) :
    Alone t table fh none (some handle) ∧ ∃ crossed, inserted s i handle = some (.ok crossed) := by
  have here := h.reserved i rfl
  obtain ⟨handles, present, free⟩ := h.present
  simp only [SharedHandles.step, here, present] at moved
  obtain ⟨⟨slot, left, result⟩, made, rest⟩ := bind_eq_some_iff.mp moved
  obtain ⟨pool, -, rfl⟩ := map_eq_some_iff.mp rest
  have map : left.map = handles.map.insert fh handle := by
    rcases insert_cases made with ⟨-, -, taken⟩ | ⟨-, -, map, -⟩
    · simp [free] at taken
    · exact map
  refine ⟨⟨⟨left, lookup_write present, by rw [map, AList.lookup_insert]⟩, (fun _ mine => by cases mine),
    fun j slot there own' same => ?_⟩, ?_⟩
  · rcases of_lookup_write there with ⟨-, gone⟩ | ⟨other, there⟩
    · cases gone
    · exact absurd (Option.some.inj (h.others j slot there own' same)).symm other
  · have succeeded : ∃ crossed, result = .ok crossed := by
      unfold Slot.insert at made
      simp only [free] at made
      obtain ⟨due, -, same⟩ := map_eq_some_iff.mp made
      split_ifs at same
      · cases same
        exact ⟨_, rfl⟩
      · cases same
        exact ⟨_, rfl⟩
    obtain ⟨crossed, rfl⟩ := succeeded
    exact ⟨crossed, by simp [inserted, here, present, made]⟩

end Alone

def handlesUnder (s : Shared (OpenFile Fd)) (table fh : ℕ) : ℕ :=
  match s.tables[table]? with
  | some (some handles) => handles.map.keys.count fh
  | _ => 0

def slotsUnder (s : Shared (OpenFile Fd)) (table fh : ℕ) : ℕ :=
  s.slots.countP fun o => o.any fun slot => slot.handles = table ∧ slot.fh = fh

theorem Alone.counts (h : Alone s table fh none held) :
    handlesUnder s table fh = held.isSome.toNat ∧ slotsUnder s table fh = 0 := by
  obtain ⟨handles, present, has⟩ := h.present
  constructor
  · simp only [handlesUnder, present]
    cases held with
    | none =>
      refine List.count_eq_zero.mpr fun mem => ?_
      exact AList.lookup_eq_none.mp has (AList.mem_keys.mpr mem)
    | some =>
      refine List.count_eq_one_of_mem handles.map.keys_nodup ?_
      exact AList.mem_keys.mp (AList.lookup_isSome.mp (by simp [has]))
  · refine List.countP_eq_zero.mpr fun o mem held' => ?_
    obtain ⟨slot, rfl, same⟩ := (any_eq_true _ _).mp held'
    obtain ⟨i, there⟩ := List.getElem?_of_mem mem
    simp only [decide_eq_true_eq] at same
    cases h.others i slot there same.1 same.2

end Alone

section Answers

variable {Fd : Type} (ids : IdMap) (req : OpenRequest)

theorem admits_open : ids.admits req.request = .ok () := by
  unfold IdMap.admits
  split_ifs
  · rfl
  · cases req <;> rfl

theorem dispatch_error (failure : Failure) :
    ∃ errno, dispatch ids req.request (.error failure) = .err errno := by
  simp only [dispatch, admits_open]
  cases failure with
  | errno errno => exact ⟨errno, rfl⟩
  | poolFull => exact ⟨emfile, rfl⟩

theorem dispatch_opened (attr : Attr) :
    ∃ shown, dispatch ids req.request (.ok (.opened attr)) = .opened shown := by
  simp only [dispatch, admits_open, IdMap.reply]
  split_ifs
  · exact ⟨mapAttr ids.flattened attr, rfl⟩
  · exact ⟨attr, rfl⟩

end Answers

section Opens

variable {Fd : Type} {s begun left : Shared (OpenFile Fd)} {table : ℕ} {req : OpenRequest}
variable {reserved : Except ErrorReserve (HandlePool × Reserved (OpenFile Fd))}

theorem begin_cases (started : begin table req s = some (reserved, begun))
    (unshared : slotsUnder s table req.fh = 0) :
    (∃ handles handle, s.tables[table]? = some (some handles) ∧ handles.map.lookup req.fh = some handle ∧
      reserved = .ok (s.pool, .held handle) ∧ Alone begun table req.fh none (some handle)) ∨
      (reserved = .error .poolFull ∧ Alone begun table req.fh none none) ∨
      ∃ pool, reserved = .ok (pool, .slot ⟨table, req.fh, true⟩) ∧
        Alone begun table req.fh (some s.slots.length) none := by
  have nobody : ∀ (i : ℕ) (slot : Slot), s.slots[i]? = some (some slot) → slot.handles = table →
      slot.fh ≠ req.fh := by
    intro i slot there own same
    refine List.countP_eq_zero.mp unshared _ (List.mem_of_getElem? there) ?_
    simp [own, same]
  unfold begin at started
  split at started
  swap
  · cases started
  next handles present =>
    obtain ⟨t, moved, same⟩ := map_eq_some_iff.mp started
    obtain ⟨rfl, rfl⟩ := Prod.mk.inj same
    simp only [step, present] at moved
    cases seen : handles.map.lookup req.fh with
    | some handle =>
      simp only [seen, Handles.reserve] at moved ⊢
      cases moved
      exact .inl ⟨handles, handle, present, seen, rfl, ⟨handles, present, seen⟩, (fun _ mine => by cases mine),
        fun i slot there own same => absurd same (nobody i slot there own)⟩
    | none =>
      simp only [seen, Handles.reserve] at moved ⊢
      cases took : s.pool.take with
      | none =>
        simp only [took] at moved ⊢
        cases moved
        exact .inr (.inl ⟨trivial, ⟨handles, present, seen⟩, (fun _ mine => by cases mine),
          fun i slot there own same => absurd same (nobody i slot there own)⟩)
      | some pool =>
        simp only [took] at moved ⊢
        cases moved
        refine .inr (.inr ⟨pool, rfl, ⟨handles, present, seen⟩, fun i mine => ?_,
          fun i slot there own same => ?_⟩)
        · cases mine
          simp
        · rcases of_lookup_add there with there | ⟨rfl, -⟩
          · exact absurd same (nobody i slot there own)
          · rfl

theorem finish_keeps (ids : IdMap) {i : ℕ} (alone : Alone left table req.fh (some i) none)
    (exact' : Exact left) (handle : Handle (OpenFile Fd)) (attr : Attr) :
    ∃ shown t, finish ids req (some i) left (.keeps handle attr) = some (.opened shown, t) ∧
      Exact t ∧ Alone t table req.fh none (some handle) := by
  have here := alone.reserved i rfl
  obtain ⟨handles, present, -⟩ := alone.present
  have possible : (step left (.insert i handle)).isSome = true := by
    obtain ⟨⟨slot, after, result⟩, made⟩ :=
      isSome_iff_exists.mp (insert_isSome ⟨table, req.fh, true⟩ handles handle)
    have ends : slot = ⟨table, req.fh, true⟩ ∨ slot.taken = false := by
      rcases insert_cases made with ⟨same, _⟩ | ⟨untaken, _⟩
      · exact .inl same
      · exact .inr untaken
    simp [step, here, present, made, exact'.drop_isSome here ends]
  obtain ⟨t, moved⟩ := isSome_iff_exists.mp possible
  obtain ⟨alone', crossed, result⟩ := alone.kept moved
  obtain ⟨shown, answer⟩ := dispatch_opened ids req attr
  exact ⟨shown, t, by simp [finish, result, moved, answer], step_exact exact' moved, alone'⟩

theorem finish_fails (ids : IdMap) {own : Option ℕ} {held : Option (Handle (OpenFile Fd))}
    (alone : Alone left table req.fh own held) (exact' : Exact left) (failure : Failure) :
    ∃ errno t, finish ids req own left (.fails failure) = some (.err errno, t) ∧
      Exact t ∧ Alone t table req.fh none held := by
  obtain ⟨errno, answer⟩ := dispatch_error ids req failure
  cases own with
  | none => exact ⟨errno, left, by simp [finish, answer], exact', alone⟩
  | some i =>
    have here := alone.reserved i rfl
    have possible : (step left (.dropSlot i)).isSome = true := by
      simp [step, here, exact'.drop_isSome here (.inl rfl)]
    obtain ⟨t, moved⟩ := isSome_iff_exists.mp possible
    exact ⟨errno, t, by simp [finish, moved, answer], step_exact exact' moved, alone.dropped moved⟩

def attrOfKind (kind : FileKind) : Attr :=
  ⟨11, 0, 0, ⟨0, 0⟩, ⟨0, 0⟩, ⟨0, 0⟩, kind, 0, 1, 0, 0, 0, 512, none, ⟨1, [11]⟩, false⟩

end Opens

end JackalopeFs.OpenDispatch
