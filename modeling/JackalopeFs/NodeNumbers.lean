import JackalopeFs.NodeTableShape

/-! # The numbers of nodes

Every file the table knows has one number above the two reserved ones, which it keeps
until it is forgotten, and which `idFor` tells before the file is registered.  The only
way for a known file to change its number is to become the export's root, so the runs
considered here are those in which none does.

The search for a substitute goes round the numbers from 2 to the 64-bit limit.  It
visits them all before it comes back to where it started, so a table that leaves one
of them free ends it.
-/

namespace JackalopeFs.NodeTable

open KeyedTables PathNames TransitionRuns

variable {t : Nodes}

/-- How many numbers the search for a substitute goes through. -/
def numbers : ℕ := 2 ^ 64 - 2

theorem nextNumber_add {k : ℕ} (bound : k < numbers) : nextNumber (2 + k) = 2 + (k + 1) % numbers := by
  unfold nextNumber numbers at *
  omega

theorem nextNumber_iterate {start : ℕ} (low : 2 ≤ start) (high : start < 2 ^ 64) (k : ℕ) :
    nextNumber^[k] start = 2 + (start - 2 + k) % numbers := by
  induction k with
  | zero =>
    unfold numbers
    rw [Function.iterate_zero_apply]
    omega
  | succ k ih =>
    have bound : (start - 2 + k) % numbers < numbers := Nat.mod_lt _ (by decide)
    rw [Function.iterate_succ_apply', ih, nextNumber_add bound]
    congr 1
    rw [Nat.mod_add_mod, Nat.add_assoc]

theorem exists_iterate {start n : ℕ} (low : 2 ≤ start) (high : start < 2 ^ 64) (above : 2 ≤ n)
    (below : n < 2 ^ 64) : ∃ k < numbers, nextNumber^[k] start = n := by
  refine ⟨(n + numbers - start) % numbers, Nat.mod_lt _ (by decide), ?_⟩
  rw [nextNumber_iterate low high, Nat.add_mod_mod]
  unfold numbers
  omega

theorem iterate_injOn {start : ℕ} (low : 2 ≤ start) (high : start < 2 ^ 64) :
    Set.InjOn (fun k => nextNumber^[k] start) {k | k < numbers} := by
  intro j small k small' same
  simp only [Set.mem_ofPred_eq, nextNumber_iterate low high] at small small' same
  unfold numbers at *
  omega

theorem substitute_range (identity : Identity) :
    2 ≤ substitute identity ∧ substitute identity < 2 ^ 64 := by
  have hashes : ∀ (bytes : List UInt8) (hash : ℕ), hash < 2 ^ 64 →
      bytes.foldl (fun hash byte => (hash ^^^ byte.toNat) * 0x100000001b3 % 2 ^ 64) hash < 2 ^ 64 := by
    intro bytes
    induction bytes with
    | nil => exact fun hash bound => bound
    | cons _ _ ih => exact fun hash _ => ih _ (Nat.mod_lt _ (by decide))
  have := hashes (leBytes identity.handleType ++ identity.handle) 0xcbf29ce484222325 (by decide)
  unfold substitute
  omega

namespace Nodes

theorem freeFrom_eq_none_iff {fuel start : ℕ} :
    t.freeFrom fuel start = none ↔ ∀ k < fuel, (t.get (nextNumber^[k] start)).isSome = true := by
  induction fuel generalizing start with
  | zero => simp [freeFrom]
  | succ fuel ih =>
    unfold freeFrom
    split_ifs with taken
    · rw [ih]
      refine ⟨fun rest k bound => ?_, fun all k bound => ?_⟩
      · cases k with
        | zero => exact taken
        | succ k => exact rest k (Nat.lt_of_succ_lt_succ bound)
      · exact all (k + 1) (Nat.succ_lt_succ bound)
    · refine iff_of_false (by simp) fun all => taken ?_
      exact all 0 (Nat.succ_pos fuel)

/-- Some number from 2 to the 64-bit limit has no node. -/
def Roomy (t : Nodes) : Prop :=
  ∃ n, 2 ≤ n ∧ n < 2 ^ 64 ∧ t.get n = none

theorem taken_le {start fuel : ℕ} (low : 2 ≤ start) (high : start < 2 ^ 64) (short : fuel ≤ numbers)
    (taken : ∀ k < fuel, (t.get (nextNumber^[k] start)).isSome = true) :
    fuel ≤ t.nodes.entries.length := by
  have listed : ∀ k ∈ Finset.range fuel, nextNumber^[k] start ∈ t.nodes.keys.toFinset := by
    intro k mem
    rw [List.mem_toFinset, ← AList.mem_keys, ← AList.lookup_isSome]
    exact taken k (Finset.mem_range.mp mem)
  have apart : Set.InjOn (fun k => nextNumber^[k] start) (Finset.range fuel : Set ℕ) := by
    refine (iterate_injOn low high).mono fun k mem => ?_
    have := Finset.mem_range.mp (Finset.mem_coe.mp mem)
    exact this.trans_le short
  calc
    fuel = (Finset.range fuel).card := (Finset.card_range fuel).symm
    _ ≤ t.nodes.keys.toFinset.card := Finset.card_le_card_of_injOn _ listed apart
    _ ≤ t.nodes.keys.length := List.toFinset_card_le _
    _ = t.nodes.entries.length := by simp [AList.keys, List.keys]

theorem freeFrom_range {fuel start id : ℕ} (low : 2 ≤ start) (high : start < 2 ^ 64)
    (found : t.freeFrom fuel start = some id) : 2 ≤ id ∧ id < 2 ^ 64 := by
  induction fuel generalizing start with
  | zero => cases found
  | succ _ ih =>
    unfold freeFrom at found
    split_ifs at found
    · refine ih ?_ ?_ found
      all_goals
        unfold nextNumber
        omega
    · cases found
      exact ⟨low, high⟩

/-- The search for a substitute ends if there is anything for it to find. -/
theorem freeFrom_ends {start : ℕ} (low : 2 ≤ start) (high : start < 2 ^ 64) (room : t.Roomy) :
    ∃ id, t.freeFrom (t.nodes.entries.length + 1) start = some id ∧ t.get id = none ∧
      2 ≤ id ∧ id < 2 ^ 64 := by
  obtain ⟨n, above, below, free⟩ := room
  obtain ⟨k, small, comes⟩ := exists_iterate low high above below
  cases found : t.freeFrom (t.nodes.entries.length + 1) start with
  | none =>
    have taken := freeFrom_eq_none_iff.mp found
    have later : t.nodes.entries.length + 1 ≤ k := by
      by_contra early
      have := taken k (by omega)
      rw [comes, free] at this
      cases this
    have := taken_le low high (later.trans small.le) taken
    omega
  | some id => exact ⟨id, rfl, get_freeFrom found, freeFrom_range low high found⟩

/-- The file described has another identity than the root, or another inode number. -/
def NotRoot (t : Nodes) (key : KeyNode) : Prop :=
  key.ino = root → ∃ k, (t.get root).bind Node.key = some k ∧ k.identity ≠ key.identity

variable {seen : Seen} {id : ℕ}

theorem idFor_of_lookup (known : t.byKey.lookup seen.key = some id) (away : t.NotRoot seen.key) :
    t.idFor seen = some id := by
  unfold idFor
  rw [if_neg, known]
  rintro ⟨isRoot, described⟩
  obtain ⟨k, found, apart⟩ := away isRoot
  simp only [found, Option.all_some, beq_iff_eq] at described
  exact apart described

theorem notRoot_of_idFor (number : t.idFor seen = some id) (other : id ≠ root) :
    t.NotRoot seen.key := by
  intro isRoot
  unfold idFor at number
  split_ifs at number with described
  · exact absurd (Option.some.inj number).symm other
  all_goals
    cases found : (t.get root).bind Node.key with
    | none => exact absurd ⟨isRoot, by simp [found]⟩ described
    | some k =>
      refine ⟨k, rfl, fun same => described ⟨isRoot, ?_⟩⟩
      simpa [found, Seen.key] using same

/-- The number a new file gets is none of the reserved ones, unless the file is the root. -/
theorem two_le_of_idFor (number : t.idFor seen = some id) (other : id ≠ root)
    (unknown : t.byKey.lookup seen.key = none) : 2 ≤ id := by
  unfold idFor at number
  rw [unknown] at number
  split_ifs at number with _ own
  · exact absurd (Option.some.inj number).symm other
  · cases number
    exact own.2.1
  · obtain ⟨low, high⟩ := substitute_range seen.identity
    exact (freeFrom_range low high number).1

/-- No registered file becomes the export's root by this action. -/
def rootsApart (t : Nodes) : Action → Bool
  | .rootSeen identity => (t.byKey.lookup ⟨root, identity⟩).isNone
  | _ => true

structure Numbered (t : Nodes) : Prop where
  shape : WellFormed t
  above : ∀ key id, t.byKey.lookup key = some id → 2 ≤ id
  away : ∀ key id, t.byKey.lookup key = some id → t.NotRoot key

namespace Numbered

theorem new : Numbered .new where
  shape := .new
  above := fun key id known => by simp [Nodes.new] at known
  away := fun key id known => by simp [Nodes.new] at known

variable {t' : Nodes}

theorem fewer (h : Numbered t) (shape : WellFormed t')
    (known : ∀ key id, t'.byKey.lookup key = some id → t.byKey.lookup key = some id)
    (same : (t'.get root).bind Node.key = (t.get root).bind Node.key) : Numbered t' where
  shape := shape
  above := fun key id found => h.above key id (known key id found)
  away := fun key id found isRoot => by
    rw [same]
    exact h.away key id (known key id found) isRoot

theorem refit (h : Numbered t) (shape : WellFormed t') (refits : Refits t t') :
    Numbered t' := by
  refine h.fewer shape (fun key id found => refits.byKey ▸ found) ?_
  have same := congrArg (fun o => o.bind fun k : Option KeyNode × ℕ => k.1) (refits.nodes root)
  simpa [Option.bind_map, Function.comp_def] using same

theorem register {parent : ℕ} {name : Name} {seen : Seen} {id : ℕ} (h : Numbered t)
    (shape : WellFormed t') (done : Registers t parent name seen id t') : Numbered t' := by
  have same : (t'.get root).bind Node.key = (t.get root).bind Node.key := by
    have kept := congrArg (fun o => o.bind fun k : Option KeyNode × ℕ => k.1)
      (done.kept root done.other.symm)
    simpa [Option.bind_map, Function.comp_def] using kept
  have own : 2 ≤ id := by
    rcases idFor_cases done.number with isRoot | known | ⟨unknown, _⟩
    · exact absurd isRoot done.other
    · exact h.above _ _ known
    · exact two_le_of_idFor done.number done.other unknown
  refine ⟨shape, fun key j found => ?_, fun key j found isRoot => ?_⟩
  · rw [done.byKey] at found
    rcases of_lookup_insert found with ⟨_, rfl⟩ | ⟨_, found⟩
    · exact own
    · exact h.above key j found
  · rw [done.byKey] at found
    rw [same]
    rcases of_lookup_insert found with ⟨rfl, _⟩ | ⟨_, found⟩
    · exact notRoot_of_idFor done.number done.other isRoot
    · exact h.away key j found isRoot

theorem step {action : Action} (h : Numbered t) (apart : t.rootsApart action = true)
    (moved : Steps t action t') : Numbered t' := by
  have shape := h.shape.step moved
  cases moved with
  | stays => exact h
  | registers _ _ _ _ _ done => exact h.register shape done
  | roots identity =>
    refine ⟨shape, h.above, fun key id found isRoot => ?_⟩
    refine ⟨⟨root, identity⟩, ?_, ?_⟩
    · obtain ⟨node, there⟩ := Option.isSome_iff_exists.mp h.shape.root
      simp [rootSeen, get_modify, there]
    · rintro rfl
      have unknown : t.byKey.lookup ⟨root, key.identity⟩ = none := by
        simpa [rootsApart] using apart
      rw [← isRoot] at unknown
      exact absurd (found.symm.trans unknown) (by simp)
  | counts _ _ _ other =>
    refine h.fewer shape (fun _ _ known => known) ?_
    rw [uncount, get_modify, if_neg other.symm]
  | forgets _ _ _ _ other _ _ done =>
    refine h.fewer shape (fun key id known => ?_) ?_
    · rw [done.byKey, remove] at known
      split at known
      · exact (of_lookup_erase known).2
      · exact known
    · have same := congrArg (fun o => o.bind fun k : Option KeyNode × ℕ => k.1)
        (done.kept root other.symm)
      simpa [Option.bind_map, Function.comp_def] using same
  | unnames _ _ _ _ done => exact h.refit shape done.refits
  | unlinks parent name => exact h.refit shape (refits_unlink parent name)
  | moves _ _ _ _ _ _ _ _ done => exact h.refit shape done.refits
  | parts parent name =>
    exact h.refit shape ((refits_unlink parent name).trans (refits_unlink _ _))
  | swaps _ _ _ _ _ _ _ _ _ _ done =>
    exact h.refit shape done.refits

end Numbered

/-- A known file keeps its number through an action that does not forget it. -/
theorem lookup_step (h : WellFormed t) {action : Action} {t' : Nodes} (moved : Steps t action t')
    {key : KeyNode} (known : t.byKey.lookup key = some id) :
    t'.byKey.lookup key = some id ∨ (∃ n, action = .forget id n) ∧ t'.get id = none := by
  have kept : ∀ {u : Nodes}, Refits t u → u.byKey.lookup key = some id := by
    intro u refits
    rw [refits.byKey]
    exact known
  cases moved with
  | stays | roots | counts => exact .inl known
  | registers _ _ seen _ _ done =>
    refine .inl ?_
    rw [done.byKey]
    by_cases same : key = seen.key
    · subst same
      rw [AList.lookup_insert]
      rcases idFor_cases done.number with isRoot | taken | ⟨unknown, _⟩
      · exact absurd isRoot done.other
      · exact taken.symm.trans known
      · exact absurd (unknown.symm.trans known) (by simp)
    · rw [AList.lookup_insert_ne same]
      exact known
  | forgets ino n node _ other found spent done =>
    obtain ⟨_, held⟩ := (h.keyed key id).mp known
    by_cases here : id = ino
    · subst here
      exact .inr ⟨⟨n, rfl⟩, done.gone⟩
    · refine .inl ?_
      rw [done.byKey, remove]
      split
      · rename_i gone owned
        rw [AList.lookup_erase_ne]
        · exact known
        · rintro rfl
          have own := (h.keyed key ino).mpr ⟨other, by rw [found]; exact owned⟩
          exact here (Option.some.inj (known.symm.trans own))
      · exact known
  | unnames _ _ _ _ done => exact .inl (kept done.refits)
  | unlinks parent name => exact .inl (kept (refits_unlink parent name))
  | moves _ _ _ _ _ _ _ _ done => exact .inl (kept done.refits)
  | parts parent name =>
    exact .inl (kept ((refits_unlink parent name).trans (refits_unlink _ _)))
  | swaps _ _ _ _ _ _ _ _ _ _ done => exact .inl (kept done.refits)

/-- A file of the root's subvolume goes by its inode number, unless it is known under another or
another node has it. -/
theorem idFor_own (h : WellFormed t) (inside : seen.foreign = false) (above : root < seen.ino)
    (new : ∀ id, t.byKey.lookup seen.key = some id → id = seen.ino)
    (free : ∀ node, t.get seen.ino = some node → node.key = some seen.key) :
    t.idFor seen = some seen.ino := by
  unfold idFor
  rw [if_neg fun isRoot => absurd isRoot.1 above.ne']
  cases known : t.byKey.lookup seen.key with
  | some id => exact congrArg some (new id known)
  | none =>
    have absent : t.get seen.ino = none := by
      by_contra present
      obtain ⟨node, found⟩ := Option.ne_none_iff_exists'.mp present
      have own := (h.keyed seen.key seen.ino).mpr ⟨above.ne', by rw [found]; exact free node found⟩
      exact absurd (known.symm.trans own) (by simp)
    simp [inside, above, absent]

theorem idFor_isSome (room : t.Roomy) (seen : Seen) : (t.idFor seen).isSome = true := by
  obtain ⟨low, high⟩ := substitute_range seen.identity
  obtain ⟨id, found, _⟩ := freeFrom_ends low high room
  unfold idFor
  split_ifs
  · rfl
  · split <;> rfl
  · split
    · rfl
    · rw [found]
      rfl

/-- Registering a file gives it the number `idFor` says, and the table says the same afterwards. -/
theorem insertLookup_number (h : Numbered t) (parent : ℕ) (name : Name)
    (number : t.idFor seen = some id) (other : id ≠ root) :
    ∃ t', t.insertLookup parent name seen = some (t', some id) ∧
      t'.byKey.lookup seen.key = some id ∧ t'.idFor seen = some id := by
  obtain ⟨⟨t', told⟩, made⟩ : ∃ made, t.insertLookup parent name seen = some made := by
    simp [insertLookup, number]
  rcases insertLookup_registers made with ⟨isRoot, _⟩ | ⟨j, rfl, done⟩
  · exact absurd (Option.some.inj (number.symm.trans isRoot)) other
  · obtain rfl := Option.some.inj (number.symm.trans done.number)
    have listed : t'.byKey.lookup seen.key = some id := by
      rw [done.byKey, AList.lookup_insert]
    have after := h.register (h.shape.register done) done
    exact ⟨t', made, listed, idFor_of_lookup listed (after.away _ _ listed)⟩

/-- The number a plain page lists an entry of directory `dir`, whose parent is `parent`, under; the
inner option is empty where the search for one does not end. -/
def plainNumber (t : Nodes) (dir parent : ℕ) (name : List UInt8) (attr : Option Seen) :
    Option (Option ℕ) :=
  if name = [46] then some (some dir)
  else if name = [46, 46] then some (some parent)
  else attr.map t.idFor

/-- A name of a directory's entry other than the two dots is listed under the file's number. -/
theorem plainNumber_name (dir parent : ℕ) (name : Name) (seen : Seen) :
    t.plainNumber dir parent name.bytes (some seen) = some (t.idFor seen) := by
  have apart : name.bytes ≠ [46] ∧ name.bytes ≠ [46, 46] := by
    have valid := name.valid
    unfold ErrorName.of at valid
    split_ifs at valid with _ _ _ dots
    exact not_or.mp dots
  simp [plainNumber, apart]

/-- In every state of a run in which no registered file becomes the root: different files have
different numbers, none below 2; a known file keeps its number until it is forgotten; what `idFor`
says of a file, and a plain page lists it under, is the number its registration gives it; a file of
the root's subvolume goes by its inode number unless it is known under another, or that is reserved
or another's.  And the search for a substitute ends with a free number in every table that has one. -/
theorem numbers_unique_and_stable
    (h : machine.ReachableUnder (fun t a => t.rootsApart a = true) t) :
    (∀ key id, t.byKey.lookup key = some id →
      2 ≤ id ∧ ∀ key', t.byKey.lookup key' = some id → key' = key) ∧
    (∀ seen id, t.byKey.lookup seen.key = some id → t.idFor seen = some id ∧
      ∀ action t', t.rootsApart action = true → machine.step t action = some t' →
        t'.idFor seen = some id ∨ (∃ n, action = .forget id n) ∧ t'.get id = none) ∧
    (∀ seen id, t.idFor seen = some id → id ≠ root → ∀ parent name,
      ∃ t', t.insertLookup parent name seen = some (t', some id) ∧ t'.idFor seen = some id ∧
        ∀ dir up, t.plainNumber dir up name.bytes (some seen) = some (t'.idFor seen)) ∧
    (∀ seen, seen.foreign = false → root < seen.ino →
      (∀ id, t.byKey.lookup seen.key = some id → id = seen.ino) →
      (∀ node, t.get seen.ino = some node → node.key = some seen.key) →
        t.idFor seen = some seen.ino) ∧
    ∀ (table : Nodes) (seen : Seen), table.Roomy → (table.idFor seen).isSome = true ∧
      ∃ id, table.freeFrom (table.nodes.entries.length + 1) (substitute seen.identity) = some id ∧
        table.get id = none ∧ 2 ≤ id ∧ id < 2 ^ 64 := by
  have numbered : Numbered t :=
    Machine.ReachableUnder.invariant .new
      (fun _ _ _ before apart moved => before.step apart (step_steps before.shape.linked moved)) h
  refine ⟨fun key id known => ⟨numbered.above key id known, fun key' known' => ?_⟩,
    fun seen id known => ⟨idFor_of_lookup known (numbered.away _ _ known), ?_⟩,
    fun seen id number other parent name => ?_, fun seen => idFor_own numbered.shape,
    fun table seen room => ⟨idFor_isSome room seen, ?_⟩⟩
  · have own := ((numbered.shape.keyed key id).mp known).2
    have own' := ((numbered.shape.keyed key' id).mp known').2
    exact Option.some.inj (own'.symm.trans own)
  · intro action t' apart moved
    have moves := step_steps numbered.shape.linked moved
    refine (lookup_step numbered.shape moves known).imp_left fun kept => ?_
    exact idFor_of_lookup kept ((numbered.step apart moves).away _ _ kept)
  · obtain ⟨t', made, _, again⟩ := insertLookup_number numbered parent name number other
    refine ⟨t', made, again, fun dir up => ?_⟩
    rw [plainNumber_name, number, again]
  · obtain ⟨low, high⟩ := substitute_range seen.identity
    exact freeFrom_ends low high room

/-- Two files with one inode number are told apart, and none of their numbers is reserved. -/
theorem numbers_of_recycled :
    ∃ t, machine.ReachableUnder (fun t a => t.rootsApart a = true) t ∧
      t.byKey.lookup ⟨5, ⟨1, [1]⟩⟩ = some 5 ∧
      ∃ id, t.byKey.lookup ⟨5, ⟨1, [2]⟩⟩ = some id ∧ 2 ≤ id ∧ id ≠ 5 := by
  obtain ⟨t, reached, known⟩ := machine.exists_of_runWhile
    (p := fun t => decide (t.byKey.lookup ⟨5, ⟨1, [1]⟩⟩ = some 5) &&
      (t.byKey.lookup ⟨5, ⟨1, [2]⟩⟩).isSome)
    (by decide +kernel : (machine.runWhile rootsApart machine.initial
      [.insertLookup 1 ⟨[97], rfl⟩ ⟨5, ⟨1, [1]⟩, false, .regular⟩,
        .insertLookup 1 ⟨[98], rfl⟩ ⟨5, ⟨1, [2]⟩, false, .regular⟩]).any _ = true)
  simp only [Bool.and_eq_true, decide_eq_true_eq] at known
  obtain ⟨first, second⟩ := known
  obtain ⟨id, second⟩ := Option.isSome_iff_exists.mp second
  obtain ⟨unique, -⟩ := numbers_unique_and_stable reached
  refine ⟨t, reached, first, id, second, (unique _ _ second).1, ?_⟩
  rintro rfl
  exact absurd ((unique _ _ first).2 _ second) (by decide)

/-- A file known under a substitute keeps it when its inode number becomes free. -/
theorem substitute_outlives_collision :
    let seen : Seen := ⟨5, ⟨1, [2]⟩, false, .regular⟩
    ∃ t, machine.ReachableUnder (fun t a => t.rootsApart a = true) t ∧
      seen.foreign = false ∧ root < seen.ino ∧ t.get seen.ino = none ∧
      t.idFor seen ≠ some seen.ino := by
  intro seen
  obtain ⟨t, reached, known⟩ := machine.exists_of_runWhile
    (p := fun t => (t.get seen.ino).isNone && decide (t.idFor seen ≠ some seen.ino))
    (by decide +kernel : (machine.runWhile rootsApart machine.initial
      [.insertLookup 1 ⟨[97], rfl⟩ ⟨5, ⟨1, [1]⟩, false, .regular⟩,
        .insertLookup 1 ⟨[98], rfl⟩ ⟨5, ⟨1, [2]⟩, false, .regular⟩, .forget 5 1]).any _ = true)
  simp only [Bool.and_eq_true, Option.isNone_iff_eq_none, decide_eq_true_eq] at known
  exact ⟨t, reached, rfl, by decide, known⟩

end Nodes

end JackalopeFs.NodeTable
