import JackalopeFs.IndexedCells
import JackalopeFs.KeyedTables
import JackalopeFs.TransitionRuns

/-! # The pool of handle slots that the sessions share

`HandlePool` counts the handles of every session against what the server can
spare.  A slot is taken before anything is opened, becomes an entry of the
session's `Handles` when the open succeeds, and is given back when the open fails,
when the entry is removed or when the whole table is dropped.  The machine at the
end of this module lets any number of tables and slots do all of that in any order.

A decrement of the pool that would underflow is a refused step.  An opened file is
an abstract value: nothing here looks inside it.
-/

namespace JackalopeFs.SharedHandles

open IndexedCells KeyedTables List Option TransitionRuns

universe u

inductive Handle (File : Type u) where
  | file (file : File)
  | dir (dir : File)
  deriving DecidableEq, Repr

def Handle.isDir {File : Type u} : Handle File → Bool
  | .file _ => false
  | .dir _ => true

structure HandlePool where
  capacity : ℕ
  used : ℕ
  deriving DecidableEq, Repr

namespace HandlePool

def take (pool : HandlePool) : Option HandlePool :=
  if pool.used < pool.capacity then some { pool with used := pool.used + 1 } else none

/-- Gives slots back; nothing when fewer are taken than are given. -/
def give (pool : HandlePool) (slots : ℕ) : Option HandlePool :=
  if slots ≤ pool.used then some { pool with used := pool.used - slots } else none

end HandlePool

inductive ErrorReserve where
  | poolFull
  | duplicate
  deriving DecidableEq, Repr

structure NoticeHandles where
  held : ℕ
  share : ℕ
  deriving DecidableEq, Repr

def checkedDouble (n : ℕ) : Option ℕ :=
  if 2 * n < 2 ^ 64 then some (2 * n) else none

/-- The loop of `doubling_due`: the largest doubling of `threshold` up to `value`.  The first
argument bounds its rounds. -/
def doublingLoop : ℕ → ℕ → ℕ → Option ℕ
  | 0, _, _ => none
  | rounds + 1, threshold, value =>
    match checkedDouble threshold with
    | some next => if next ≤ value then doublingLoop rounds next value else some threshold
    | none => some threshold

/-- Whether `value` crossed the next report threshold, and the threshold last reported. -/
def doublingDue (value first reported : ℕ) : Option (Bool × ℕ) :=
  match checkedDouble reported with
  | none => some (false, reported)
  | some next =>
    if value < max first next then some (false, reported)
    else (doublingLoop 65 first value).map fun threshold => (true, threshold)

/-- One session's handles; `reported` and `notice` concern the report that it holds many. -/
structure Handles (File : Type u) where
  map : AList fun _ : ℕ => Handle File
  share : ℕ
  reported : ℕ
  files : ℕ
  dirs : ℕ
  notice : Option NoticeHandles

/-- A slot held for one open of the table `handles` until its handle is inserted. -/
structure Slot where
  handles : ℕ
  fh : ℕ
  taken : Bool
  deriving DecidableEq, Repr

inductive Reserved (File : Type u) where
  | slot (slot : Slot)
  | held (handle : Handle File)

namespace Handles

variable {File : Type u}

def new (share : ℕ) : Handles File :=
  ⟨∅, share, 0, 0, 0, none⟩

def len (handles : Handles File) : ℕ :=
  handles.map.entries.length

def countUp (handles : Handles File) (handle : Handle File) : Handles File :=
  if handle.isDir then { handles with dirs := handles.dirs + 1 }
  else { handles with files := handles.files + 1 }

def countDown (handles : Handles File) (handle : Handle File) : Handles File :=
  if handle.isDir then { handles with dirs := handles.dirs - 1 }
  else { handles with files := handles.files - 1 }

/-- `Handles::reserve` for the table numbered `table`.  It looks `fh` up and takes its slot under
two locks; `seen` is what the look found, so that anything may happen between the two. -/
def reserve (table fh : ℕ) (seen : Option (Handle File)) (pool : HandlePool) :
    Except ErrorReserve (HandlePool × Reserved File) :=
  match seen with
  | some handle => .ok (pool, .held handle)
  | none =>
    match pool.take with
    | none => .error .poolFull
    | some pool' => .ok (pool', .slot ⟨table, fh, true⟩)

/-- `Handles::remove`: the table without `fh`, and the pool with its slot given back. -/
def remove (handles : Handles File) (fh : ℕ) (pool : HandlePool) :
    Option (Handles File × HandlePool × Option (Handle File)) :=
  match handles.map.lookup fh with
  | none => some (handles, pool, none)
  | some handle =>
    (pool.give 1).map fun pool' =>
      let left := { handles.countDown handle with map := handles.map.erase fh }
      (if 2 * left.len < left.share then { left with reported := 0, notice := none } else left,
        pool', some handle)

end Handles

namespace Slot

variable {File : Type u}

/-- `Slot::insert`: the slot is no longer its own once its handle is in the table.  Nothing is
returned if the report's loop did not end. -/
def insert (slot : Slot) (handles : Handles File) (handle : Handle File) :
    Option (Slot × Handles File × Except ErrorReserve (Option ℕ)) :=
  match handles.map.lookup slot.fh with
  | some _ => some (slot, handles, .error .duplicate)
  | none =>
    let filled := { handles.countUp handle with map := handles.map.insert slot.fh handle }
    (doublingDue filled.len (max filled.share 1) filled.reported).map fun due =>
      if due.1 then
        ({ slot with taken := false },
          { filled with reported := due.2, notice := some ⟨filled.len, filled.share⟩ },
          .ok (some filled.len))
      else
        ({ slot with taken := false }, { filled with reported := due.2 }, .ok none)

def drop (slot : Slot) (pool : HandlePool) : Option HandlePool :=
  if slot.taken then pool.give 1 else some pool

end Slot

/-- The pool with every session's table and every slot; a dropped one leaves its place empty. -/
structure Shared (File : Type u) where
  pool : HandlePool
  tables : List (Option (Handles File))
  slots : List (Option Slot)

inductive Action (File : Type u) where
  | newTable (share : ℕ)
  | reserve (table fh : ℕ) (seen : Option (Handle File))
  | insert (slot : ℕ) (handle : Handle File)
  | dropSlot (slot : ℕ)
  | remove (table fh : ℕ)
  | dropTable (table : ℕ)

section Machine

variable {File : Type u}

/-- One operation on the shared tables.  A slot refers to its table, so a table is dropped only when
no slot of it is left. -/
def step (s : Shared File) : Action File → Option (Shared File)
  | .newTable share => some { s with tables := s.tables ++ [some (Handles.new share)] }
  | .reserve table fh seen =>
    match s.tables[table]? with
    | some (some _) =>
      match Handles.reserve table fh seen s.pool with
      | .error _ => some s
      | .ok (pool', .held _) => some { s with pool := pool' }
      | .ok (pool', .slot slot) =>
        some { s with pool := pool', slots := s.slots ++ [some slot] }
    | _ => none
  | .insert i handle =>
    match s.slots[i]? with
    | some (some slot) =>
      match s.tables[slot.handles]? with
      | some (some handles) =>
        (slot.insert handles handle).bind fun r =>
          (r.1.drop s.pool).map fun pool' =>
            { pool := pool'
              tables := s.tables.set slot.handles (some r.2.1)
              slots := s.slots.set i none }
      | _ => none
    | _ => none
  | .dropSlot i =>
    match s.slots[i]? with
    | some (some slot) =>
      (slot.drop s.pool).map fun pool' => { s with pool := pool', slots := s.slots.set i none }
    | _ => none
  | .remove table fh =>
    match s.tables[table]? with
    | some (some handles) =>
      (handles.remove fh s.pool).map fun r =>
        { s with pool := r.2.1, tables := s.tables.set table (some r.1) }
    | _ => none
  | .dropTable table =>
    match s.tables[table]? with
    | some (some handles) =>
      if s.slots.all fun o => o.all fun slot => slot.handles != table then
        (s.pool.give handles.len).map fun pool' =>
          { s with pool := pool', tables := s.tables.set table none }
      else none
    | _ => none

def machine (File : Type u) (capacity : ℕ) : Machine (Shared File) (Action File) :=
  ⟨⟨⟨capacity, 0⟩, [], []⟩, step⟩

end Machine

section Tables

variable {File : Type u} {handles left : Handles File} {pool pool' : HandlePool} {fh : ℕ}

/-- The counters of a table say how many handles of each kind it holds. -/
structure Handles.Tallied (handles : Handles File) : Prop where
  files : handles.files = handles.map.entries.countP fun e => !e.2.isDir
  dirs : handles.dirs = handles.map.entries.countP fun e => e.2.isDir

theorem give_eq_some {n : ℕ} (h : pool.give n = some pool') :
    n ≤ pool.used ∧ pool' = { pool with used := pool.used - n } := by
  unfold HandlePool.give at h
  split_ifs at h with enough
  exact ⟨enough, (Option.some.inj h).symm⟩

theorem take_eq_some (h : pool.take = some pool') :
    pool.used < pool.capacity ∧ pool' = { pool with used := pool.used + 1 } := by
  unfold HandlePool.take at h
  split_ifs at h with room
  exact ⟨room, (Option.some.inj h).symm⟩

/-- A removal changes nothing, or takes one handle out and gives one slot back. -/
theorem remove_cases {removed : Option (Handle File)}
    (h : handles.remove fh pool = some (left, pool', removed)) :
    (left = handles ∧ pool' = pool ∧ removed = none ∧ handles.map.lookup fh = none) ∨
      ∃ handle, handles.map.lookup fh = some handle ∧ removed = some handle ∧
        pool.give 1 = some pool' ∧ left.map = handles.map.erase fh ∧
        left.files = (handles.countDown handle).files ∧
        left.dirs = (handles.countDown handle).dirs := by
  unfold Handles.remove at h
  split at h
  · rename_i absent
    cases h
    exact .inl ⟨rfl, rfl, rfl, absent⟩
  · rename_i handle held
    obtain ⟨given, hgive, he⟩ := map_eq_some_iff.mp h
    refine .inr ⟨handle, held, ?_⟩
    obtain ⟨rfl, rfl, rfl⟩ := he
    refine ⟨rfl, hgive, ?_, ?_, ?_⟩ <;> split_ifs <;> rfl

variable {handle : Handle File}

/-- An insertion is refused and changes nothing, or puts the handle under an id that was free. -/
theorem insert_cases {slot slot' : Slot} {result : Except ErrorReserve (Option ℕ)}
    (h : slot.insert handles handle = some (slot', left, result)) :
    (slot' = slot ∧ left = handles ∧ (handles.map.lookup slot.fh).isSome) ∨
      (slot'.taken = false ∧ handles.map.lookup slot.fh = none ∧
        left.map = handles.map.insert slot.fh handle ∧
        left.files = (handles.countUp handle).files ∧
        left.dirs = (handles.countUp handle).dirs) := by
  unfold Slot.insert at h
  split at h
  · rename_i held
    cases h
    exact .inl ⟨rfl, rfl, by simp [held]⟩
  · rename_i absent
    obtain ⟨due, _, he⟩ := map_eq_some_iff.mp h
    right
    split_ifs at he <;> cases he <;> exact ⟨rfl, absent, rfl, rfl, rfl⟩

theorem Handles.Tallied.inserted (h : handles.Tallied) (free : handles.map.lookup fh = none)
    (hmap : left.map = handles.map.insert fh handle)
    (hfiles : left.files = (handles.countUp handle).files)
    (hdirs : left.dirs = (handles.countUp handle).dirs) : left.Tallied := by
  refine ⟨?_, ?_⟩
  · rw [hfiles, hmap, countP_insert_new _ free, ← h.files]
    cases handle <;> simp [Handles.countUp, Handle.isDir]
  · rw [hdirs, hmap, countP_insert_new _ free, ← h.dirs]
    cases handle <;> simp [Handles.countUp, Handle.isDir]

theorem Handles.Tallied.removed (h : handles.Tallied) (held : handles.map.lookup fh = some handle)
    (hmap : left.map = handles.map.erase fh)
    (hfiles : left.files = (handles.countDown handle).files)
    (hdirs : left.dirs = (handles.countDown handle).dirs) : left.Tallied := by
  have files := countP_erase_held (fun e : Σ _ : ℕ, Handle File => !e.2.isDir) held
  have dirs := countP_erase_held (fun e : Σ _ : ℕ, Handle File => e.2.isDir) held
  rw [← h.files] at files
  rw [← h.dirs] at dirs
  refine ⟨?_, ?_⟩
  · rw [hfiles, hmap]
    cases handle <;> simp only [Handles.countDown, Handle.isDir, if_true, Bool.false_eq_true,
      if_false, Bool.not_true, Bool.not_false] at files ⊢ <;> omega
  · rw [hdirs, hmap]
    cases handle <;> simp only [Handles.countDown, Handle.isDir, if_true, Bool.false_eq_true,
      if_false] at dirs ⊢ <;> omega

end Tables

section Reports

theorem doublingLoop_isSome {rounds threshold value : ℕ}
    (enough : 2 ^ 64 ≤ threshold * 2 ^ rounds) (some_round : 0 < rounds) :
    (doublingLoop rounds threshold value).isSome := by
  induction rounds generalizing threshold with
  | zero => omega
  | succ rounds ih =>
    unfold doublingLoop checkedDouble
    split_ifs with fits
    · simp only
      split_ifs
      · refine ih ?_ ?_
        · calc 2 ^ 64 ≤ threshold * 2 ^ (rounds + 1) := enough
            _ = 2 * threshold * 2 ^ rounds := by ring
        · rcases Nat.eq_zero_or_pos rounds with rfl | pos
          · omega
          · exact pos
      · rfl
    · rfl

/-- From a threshold that is not zero the report's loop ends within the rounds the model gives it. -/
theorem doublingDue_isSome {value first reported : ℕ} (positive : 0 < first) :
    (doublingDue value first reported).isSome := by
  unfold doublingDue
  split
  · rfl
  · split_ifs
    · rfl
    · rw [isSome_map]
      refine doublingLoop_isSome ?_ (by omega)
      calc 2 ^ 64 ≤ 1 * 2 ^ 65 := by decide
        _ ≤ first * 2 ^ 65 := Nat.mul_le_mul_right _ positive

theorem insert_isSome {File : Type u} (slot : Slot) (handles : Handles File)
    (handle : Handle File) : (slot.insert handles handle).isSome := by
  unfold Slot.insert
  split
  · rfl
  · rw [isSome_map]
    exact doublingDue_isSome (by omega)

end Reports

section Exactness

variable {File : Type u} {s t : Shared File}

def tableLen : Option (Handles File) → ℕ
  | none => 0
  | some handles => handles.len

/-- The pool's count is exact, every table's counters are, and every slot's table is there. -/
structure Exact (s : Shared File) : Prop where
  used : s.pool.used = (s.tables.map tableLen).sum + s.slots.countP (·.isSome)
  within : s.pool.used ≤ s.pool.capacity
  tallied : ∀ handles, some handles ∈ s.tables → handles.Tallied
  anchored : ∀ slot, some slot ∈ s.slots →
    slot.taken = true ∧ ∃ handles, s.tables[slot.handles]? = some (some handles)

theorem tableLen_le_sum {tables : List (Option (Handles File))} {table : ℕ}
    {o : Option (Handles File)} (found : tables[table]? = some o) :
    tableLen o ≤ (tables.map tableLen).sum := by
  have without := sum_map_write tableLen none found
  simp only [tableLen, Nat.add_zero] at without ⊢
  omega

theorem Exact.newTable (h : Exact s) (share : ℕ) :
    Exact { s with tables := s.tables ++ [some (Handles.new share)] } where
  used := by
    have := h.used
    simpa [tableLen, Handles.len, Handles.new] using this
  within := h.within
  tallied := by
    intro handles mem
    rcases mem_append.mp mem with mem | mem
    · exact h.tallied handles mem
    · obtain rfl := by simpa using mem
      exact ⟨rfl, rfl⟩
  anchored := by
    intro slot mem
    obtain ⟨taken, handles, found⟩ := h.anchored slot mem
    exact ⟨taken, handles, lookup_add found⟩

variable {pool' : HandlePool}

theorem Exact.reserved (h : Exact s) {table fh : ℕ} {handles : Handles File}
    (found : s.tables[table]? = some (some handles)) (took : s.pool.take = some pool') :
    Exact { s with pool := pool', slots := s.slots ++ [some ⟨table, fh, true⟩] } where
  used := by
    obtain ⟨_, rfl⟩ := take_eq_some took
    have := h.used
    simp only [countP_append, countP_singleton, isSome_some, if_true]
    omega
  within := by
    obtain ⟨room, rfl⟩ := take_eq_some took
    exact room
  tallied := h.tallied
  anchored := by
    intro slot mem
    rcases mem_append.mp mem with mem | mem
    · exact h.anchored slot mem
    · obtain rfl := by simpa using mem
      exact ⟨rfl, handles, found⟩

theorem Exact.slot_gone (h : Exact s) {i : ℕ} {slot : Slot}
    (found : s.slots[i]? = some (some slot)) (dropped : slot.drop s.pool = some pool') :
    Exact { s with pool := pool', slots := s.slots.set i none } where
  used := by
    have taken := (h.anchored slot (mem_of_getElem? found)).1
    simp only [Slot.drop, taken, if_true] at dropped
    obtain ⟨_, rfl⟩ := give_eq_some dropped
    have fewer := countP_write (fun o : Option Slot => o.isSome) none found
    simp only [isSome_some, if_true, isSome_none, Bool.false_eq_true,
      if_false] at fewer
    have := h.used
    simp only
    omega
  within := by
    have taken := (h.anchored slot (mem_of_getElem? found)).1
    simp only [Slot.drop, taken, if_true] at dropped
    obtain ⟨_, rfl⟩ := give_eq_some dropped
    have := h.within
    simp only
    omega
  tallied := h.tallied
  anchored := by
    intro other mem
    rcases mem_or_eq_of_mem_set mem with mem | eq
    · exact h.anchored other mem
    · cases eq

variable {handles left : Handles File}

/-- A table is replaced by one of the same place; what refers to it still finds it. -/
theorem Exact.table_written (h : Exact s) {table : ℕ} {slots' : List (Option Slot)}
    (found : s.tables[table]? = some (some handles)) (tallied : left.Tallied)
    (fewer : ∀ slot, some slot ∈ slots' → some slot ∈ s.slots)
    (used : pool'.used + handles.len + s.slots.countP (·.isSome) = s.pool.used + left.len + slots'.countP (·.isSome))
    (within : pool'.used ≤ pool'.capacity) :
    Exact { pool := pool', tables := s.tables.set table (some left), slots := slots' } where
  used := by
    have changed := sum_map_write tableLen (some left) found
    simp only [tableLen] at changed
    have := h.used
    simp only
    omega
  within := within
  tallied := by
    intro other mem
    rcases mem_or_eq_of_mem_set mem with mem | eq
    · exact h.tallied other mem
    · cases eq
      exact tallied
  anchored := by
    intro slot mem
    obtain ⟨taken, other, there⟩ := h.anchored slot (fewer slot mem)
    refine ⟨taken, ?_⟩
    by_cases same : slot.handles = table
    · exact ⟨left, by rw [same]; exact lookup_write found⟩
    · exact ⟨other, by rw [lookup_write_of_ne same]; exact there⟩

theorem Exact.removed (h : Exact s) {table fh : ℕ} {removed : Option (Handle File)}
    (found : s.tables[table]? = some (some handles))
    (remove : handles.remove fh s.pool = some (left, pool', removed)) :
    Exact { s with pool := pool', tables := s.tables.set table (some left) } := by
  have tallied := h.tallied handles (mem_of_getElem? found)
  rcases remove_cases remove with ⟨rfl, rfl, _, _⟩ | ⟨handle, held, _, given, hmap, hfiles, hdirs⟩
  · exact h.table_written found tallied (fun _ => id) rfl h.within
  · obtain ⟨enough, rfl⟩ := give_eq_some given
    have shorter : left.len + 1 = handles.len := by
      rw [Handles.len, hmap]
      exact length_erase_held held
    refine h.table_written found (tallied.removed held hmap hfiles hdirs) (fun _ => id) ?_ ?_
    · simp only
      omega
    · have := h.within
      simp only
      omega

/-- The slot that an insertion consumes is given back, or has become the new entry. -/
theorem Exact.inserted (h : Exact s) {i : ℕ} {slot slot' : Slot} {handle : Handle File}
    {result : Except ErrorReserve (Option ℕ)} (here : s.slots[i]? = some (some slot))
    (found : s.tables[slot.handles]? = some (some handles))
    (insert : slot.insert handles handle = some (slot', left, result))
    (dropped : slot'.drop s.pool = some pool') :
    Exact { pool := pool'
            tables := s.tables.set slot.handles (some left)
            slots := s.slots.set i none } := by
  have tallied := h.tallied handles (mem_of_getElem? found)
  rcases insert_cases insert with ⟨rfl, rfl, _⟩ | ⟨untaken, free, hmap, hfiles, hdirs⟩
  · have gone := h.slot_gone here dropped
    exact gone.table_written found tallied (fun _ => id) rfl gone.within
  · obtain rfl : s.pool = pool' := by simpa [Slot.drop, untaken] using dropped
    have longer : left.len = handles.len + 1 := by
      rw [Handles.len, hmap]
      exact length_insert_new free
    have fewer := countP_write (fun o : Option Slot => o.isSome) none here
    simp only [isSome_some, if_true, isSome_none, Bool.false_eq_true,
      if_false] at fewer
    refine h.table_written found (tallied.inserted free hmap hfiles hdirs) ?_ ?_ h.within
    · intro other mem
      rcases mem_or_eq_of_mem_set mem with mem | eq
      · exact mem
      · cases eq
    · omega

theorem Exact.dropped (h : Exact s) {table : ℕ} {handles : Handles File}
    (found : s.tables[table]? = some (some handles))
    (unused : ∀ slot, some slot ∈ s.slots → slot.handles ≠ table)
    (given : s.pool.give handles.len = some pool') :
    Exact { s with pool := pool', tables := s.tables.set table none } where
  used := by
    obtain ⟨enough, rfl⟩ := give_eq_some given
    have changed := sum_map_write tableLen none found
    simp only [tableLen] at changed
    have := h.used
    simp only
    omega
  within := by
    obtain ⟨_, rfl⟩ := give_eq_some given
    have := h.within
    simp only
    omega
  tallied := by
    intro other mem
    rcases mem_or_eq_of_mem_set mem with mem | eq
    · exact h.tallied other mem
    · cases eq
  anchored := by
    intro slot mem
    obtain ⟨taken, other, there⟩ := h.anchored slot mem
    exact ⟨taken, other, by rw [lookup_write_of_ne (unused slot mem)]; exact there⟩

inductive Steps (s : Shared File) : Action File → Shared File → Prop where
  | newTable (share : ℕ) : Steps s (.newTable share) { s with tables := s.tables ++ [some (Handles.new share)] }
  | finds (table fh : ℕ) (handle : Handle File) : Steps s (.reserve table fh (some handle)) s
  | refuses (table fh : ℕ) (full : s.pool.take = none) : Steps s (.reserve table fh none) s
  | reserves (table fh : ℕ) (handles : Handles File) (pool : HandlePool)
      (found : s.tables[table]? = some (some handles)) (took : s.pool.take = some pool) :
      Steps s (.reserve table fh none) { s with pool := pool, slots := s.slots ++ [some ⟨table, fh, true⟩] }
  | inserts (i : ℕ) (handle : Handle File) (slot slot' : Slot) (handles left : Handles File)
      (pool : HandlePool) (result : Except ErrorReserve (Option ℕ)) (here : s.slots[i]? = some (some slot))
      (found : s.tables[slot.handles]? = some (some handles))
      (insert : slot.insert handles handle = some (slot', left, result)) (dropped : slot'.drop s.pool = some pool) :
      Steps s (.insert i handle)
        { pool := pool, tables := s.tables.set slot.handles (some left), slots := s.slots.set i none }
  | dropsSlot (i : ℕ) (slot : Slot) (pool : HandlePool) (here : s.slots[i]? = some (some slot))
      (dropped : slot.drop s.pool = some pool) :
      Steps s (.dropSlot i) { s with pool := pool, slots := s.slots.set i none }
  | removes (table fh : ℕ) (handles left : Handles File) (pool : HandlePool) (removed : Option (Handle File))
      (found : s.tables[table]? = some (some handles))
      (remove : handles.remove fh s.pool = some (left, pool, removed)) :
      Steps s (.remove table fh) { s with pool := pool, tables := s.tables.set table (some left) }
  | dropsTable (table : ℕ) (handles : Handles File) (pool : HandlePool)
      (found : s.tables[table]? = some (some handles))
      (unused : ∀ slot, some slot ∈ s.slots → slot.handles ≠ table)
      (given : s.pool.give handles.len = some pool) :
      Steps s (.dropTable table) { s with pool := pool, tables := s.tables.set table none }

theorem step_steps {action : Action File} (moves : step s action = some t) : Steps s action t := by
  cases action with
  | newTable share =>
    cases moves
    exact .newTable share
  | reserve table fh seen =>
    simp only [step] at moves
    split at moves
    · rename_i handles found
      cases seen with
      | some handle =>
        cases moves
        exact .finds table fh handle
      | none =>
        simp only [Handles.reserve] at moves
        cases took : s.pool.take with
        | none =>
          simp only [took] at moves
          cases moves
          exact .refuses table fh took
        | some pool =>
          simp only [took] at moves
          cases moves
          exact .reserves table fh handles pool found took
    · cases moves
  | insert i handle =>
    simp only [step] at moves
    split at moves
    · rename_i slot here
      split at moves
      · rename_i handles found
        obtain ⟨⟨slot', left, result⟩, insert, rest⟩ := bind_eq_some_iff.mp moves
        obtain ⟨pool, dropped, rfl⟩ := map_eq_some_iff.mp rest
        exact .inserts i handle slot slot' handles left pool result here found insert dropped
      · cases moves
    · cases moves
  | dropSlot i =>
    simp only [step] at moves
    split at moves
    · rename_i slot here
      obtain ⟨pool, dropped, rfl⟩ := map_eq_some_iff.mp moves
      exact .dropsSlot i slot pool here dropped
    · cases moves
  | remove table fh =>
    simp only [step] at moves
    split at moves
    · rename_i handles found
      obtain ⟨⟨left, pool, removed⟩, remove, rfl⟩ := map_eq_some_iff.mp moves
      exact .removes table fh handles left pool removed found remove
    · cases moves
  | dropTable table =>
    simp only [step] at moves
    split at moves
    · rename_i handles found
      split_ifs at moves with unused
      obtain ⟨pool, given, rfl⟩ := map_eq_some_iff.mp moves
      refine .dropsTable table handles pool found (fun slot mem => ?_) given
      simpa using all_eq_true.mp unused _ mem
    · cases moves

theorem step_exact {action : Action File} (h : Exact s) (moves : step s action = some t) :
    Exact t := by
  cases step_steps moves with
  | newTable share => exact h.newTable share
  | finds | refuses => exact h
  | reserves _ _ _ _ found took => exact h.reserved found took
  | inserts _ _ _ _ _ _ _ _ here found insert dropped => exact h.inserted here found insert dropped
  | dropsSlot _ _ _ here dropped => exact h.slot_gone here dropped
  | removes _ _ _ _ _ _ found remove => exact h.removed found remove
  | dropsTable _ _ _ found unused given => exact h.dropped found unused given

theorem drop_capacity {slot : Slot} {pool pool' : HandlePool} (h : slot.drop pool = some pool') :
    pool'.capacity = pool.capacity := by
  unfold Slot.drop at h
  split_ifs at h
  · rw [(give_eq_some h).2]
  · cases h
    rfl

theorem step_capacity {action : Action File} (moves : step s action = some t) :
    t.pool.capacity = s.pool.capacity := by
  cases step_steps moves with
  | newTable | finds | refuses => rfl
  | reserves _ _ _ _ _ took => simp only [(take_eq_some took).2]
  | inserts _ _ _ _ _ _ _ _ _ _ _ dropped | dropsSlot _ _ _ _ dropped => exact drop_capacity dropped
  | removes _ _ _ _ _ _ _ remove =>
    rcases remove_cases remove with ⟨_, rfl, _⟩ | ⟨_, _, _, given, _⟩
    · rfl
    · simp only [(give_eq_some given).2]
  | dropsTable _ _ _ _ _ given => simp only [(give_eq_some given).2]

theorem exact_of_reachable {capacity : ℕ} (h : (machine File capacity).Reachable s) :
    Exact s ∧ s.pool.capacity = capacity := by
  refine Machine.Reachable.invariant (P := fun s => Exact s ∧ s.pool.capacity = capacity) ?_ ?_ h
  · exact ⟨⟨rfl, Nat.zero_le _, by simp [machine], by simp [machine]⟩, rfl⟩
  · intro s action t hs moves
    exact ⟨step_exact hs.1 moves, (step_capacity moves).trans hs.2⟩

theorem give_isSome {pool : HandlePool} {n : ℕ} (h : n ≤ pool.used) : (pool.give n).isSome := by
  simp [HandlePool.give, h]

theorem Exact.drop_isSome (h : Exact s) {i : ℕ} {slot slot' : Slot}
    (here : s.slots[i]? = some (some slot)) (left : slot' = slot ∨ slot'.taken = false) :
    (slot'.drop s.pool).isSome := by
  rcases left with rfl | untaken
  · have counted : 0 < s.slots.countP (·.isSome) :=
      countP_pos_iff.mpr ⟨_, mem_of_getElem? here, rfl⟩
    have := h.used
    rw [Slot.drop, if_pos (h.anchored _ (mem_of_getElem? here)).1]
    exact give_isSome (by omega)
  · simp [Slot.drop, untaken]

theorem Exact.remove_isSome (h : Exact s) {table fh : ℕ} {handles : Handles File}
    (found : s.tables[table]? = some (some handles)) : (handles.remove fh s.pool).isSome := by
  unfold Handles.remove
  split
  · rfl
  · rename_i handle held
    have shorter := length_erase_held held
    have within := tableLen_le_sum found
    simp only [tableLen, Handles.len] at within
    have := h.used
    rw [isSome_map]
    exact give_isSome (by omega)

/-- The pool is exact in every state of every run of the shared tables: what it counts as used is
what the tables hold and the slots of opens under way, it stays within the capacity, every give-back
that an operation makes is covered by it, and every table's counters are the numbers of its files
and directories. -/
theorem handle_pool_exact {capacity : ℕ} (h : (machine File capacity).Reachable s) :
    s.pool.used = (s.tables.map tableLen).sum + s.slots.countP (·.isSome) ∧
      s.pool.used ≤ capacity ∧
      (∀ i slot, s.slots[i]? = some (some slot) →
        (step s (.dropSlot i)).isSome ∧ ∀ handle, (step s (.insert i handle)).isSome) ∧
      (∀ (table : ℕ) (handles : Handles File), s.tables[table]? = some (some handles) →
        (∀ fh, (step s (.remove table fh)).isSome) ∧
        ((∀ slot, some slot ∈ s.slots → slot.handles ≠ table) →
          (step s (.dropTable table)).isSome)) ∧
      (∀ (table : ℕ) (handles : Handles File), s.tables[table]? = some (some handles) →
        handles.files = handles.map.entries.countP (fun e => !e.2.isDir) ∧
        handles.dirs = handles.map.entries.countP (fun e => e.2.isDir)) := by
  obtain ⟨exact', full⟩ := exact_of_reachable h
  refine ⟨exact'.used, full ▸ exact'.within, ?_, ?_, ?_⟩
  · intro i slot here
    obtain ⟨_, handles, found⟩ := exact'.anchored slot (List.mem_of_getElem? here)
    refine ⟨by simp [step, here, exact'.drop_isSome here (Or.inl rfl)], fun handle => ?_⟩
    obtain ⟨⟨slot', left, result⟩, insert⟩ :=
      Option.isSome_iff_exists.mp (insert_isSome slot handles handle)
    have ends : slot' = slot ∨ slot'.taken = false := by
      rcases insert_cases insert with ⟨same, _⟩ | ⟨untaken, _⟩
      · exact Or.inl same
      · exact Or.inr untaken
    simp [step, here, found, insert, exact'.drop_isSome here ends]
  · intro table handles found
    refine ⟨fun fh => by simp [step, found, exact'.remove_isSome found], fun unused => ?_⟩
    have within := tableLen_le_sum found
    simp only [tableLen] at within
    have := exact'.used
    have given : (s.pool.give handles.len).isSome := give_isSome (by omega)
    have none_left : (s.slots.all fun o => o.all fun slot => slot.handles != table) = true := by
      rw [List.all_eq_true]
      intro o mem
      cases o with
      | none => rfl
      | some slot => simpa using unused slot mem
    simp [step, found, none_left, given]
  · intro table handles found
    have tallied := exact'.tallied handles (List.mem_of_getElem? found)
    exact ⟨tallied.files, tallied.dirs⟩

/-- Two sessions on a pool of three: one open inserted, one refused as a duplicate, one slot still
taken, and a look that a later insertion made out of date. -/
def sharingRun : List (Action ℕ) :=
  [.newTable 8, .newTable 8, .reserve 0 1 none, .reserve 0 1 none, .reserve 1 1 none,
    .insert 0 (.file 10), .insert 1 (.dir 11), .reserve 1 2 none, .remove 0 9]

theorem handle_pool_exact_sharing :
    ∃ s, (machine ℕ 3).run sharingRun = some s ∧ s.pool.used = 3 ∧
      s.pool.used = (s.tables.map tableLen).sum + s.slots.countP (·.isSome) := by
  refine ⟨_, rfl, rfl, ?_⟩
  have reached := Machine.reachable_of_run (rfl : (machine ℕ 3).run sharingRun = some _)
  exact (handle_pool_exact reached).1

end Exactness

end JackalopeFs.SharedHandles
