import JackalopeFs.BoundedSearch
import JackalopeFs.NodeTableShape

/-! # Finding a path for a node

`names_to` is a depth-bounded search from a node up its aliases, newest first, for the
root, and `path_of` gives what it finds if that is not too long for a path.  The depth
is the only guard.  Where a directory has been moved below itself by another client and
looked up there, its newest alias leads round: the search goes round for as long as the
depth lets it and comes out with a path that is too long, past the name that was good;
and if two aliases lead round and none up, it tries every way of going round.

So a node with a good chain of aliases can be addressed if all its chains to the root are
good, and a path is found in no more steps than there are aliases if no chain is longer
than the guard and no dead end is come to in two ways.
-/

namespace JackalopeFs.NodeTable

open BoundedSearch List PathNames TransitionRuns

variable {t : Nodes}

namespace Nodes

/-- The aliases of a node in the order in which they are tried. -/
def newestFirst (t : Nodes) (id : ℕ) : List (ℕ × Name) :=
  (t.aliasesOf id).reverse

theorem namesTo_eq_search (depth id : ℕ) :
    t.namesTo depth id = search t.newestFirst root depth id := by
  induction depth generalizing id with
  | zero => rfl
  | succ _ ih =>
    rw [namesTo, search]
    split_ifs
    · rfl
    · simp only [ih, newestFirst, aliasesOf]
      cases t.get id with
      | none => rfl
      | some => rfl

/-- How many aliases `path_of` steps along before it answers. -/
def pathSteps (t : Nodes) (id : ℕ) : ℕ :=
  (trace t.newestFirst root (maxDepth + 1) id).2.length

def aliasCount (t : Nodes) : ℕ :=
  (t.nodes.entries.map fun entry => entry.2.aliases.length).sum

def allAliases (t : Nodes) : List (ℕ × ℕ × Name) :=
  t.nodes.entries.flatMap fun entry => entry.2.aliases.map fun a => (entry.1, a)

theorem length_allAliases : t.allAliases.length = t.aliasCount := by
  simp [allAliases, aliasCount, length_flatMap]

theorem mem_allAliases {id : ℕ} {a : ℕ × Name} (listed : a ∈ t.aliasesOf id) :
    (id, a) ∈ t.allAliases := by
  cases found : t.get id with
  | none => simp [aliasesOf, found] at listed
  | some node =>
    rw [aliasesOf_of_get found] at listed
    exact mem_flatMap.mpr ⟨⟨id, node⟩, AList.mem_lookup_iff.mp found,
      mem_map.mpr ⟨a, listed, rfl⟩⟩

/-- A chain of aliases up to the root that repeats no node and spells a path. -/
structure GoodChain (t : Nodes) (id : ℕ) (chain : List (ℕ × Name)) : Prop where
  leads : Walk t.aliasesOf id chain root
  simple : (nodesOf id chain).Nodup
  short : (Path.fromNames (spelled chain)).isSome = true

end Nodes

open Nodes

theorem mem_aliasesOf_of_newestFirst (id : ℕ) :
    ∀ a ∈ t.newestFirst id, a ∈ t.aliasesOf id :=
  fun _ listed => mem_reverse.mp listed

theorem mem_newestFirst_of_aliasesOf (id : ℕ) :
    ∀ a ∈ t.aliasesOf id, a ∈ t.newestFirst id :=
  fun _ listed => mem_reverse.mpr listed

theorem walk_newestFirst {id p : ℕ} {chain : List (ℕ × Name)} :
    Walk t.newestFirst id chain p ↔ Walk t.aliasesOf id chain p :=
  ⟨Walk.mono mem_aliasesOf_of_newestFirst, Walk.mono mem_newestFirst_of_aliasesOf⟩

theorem two_mul_length_le (names : List Name) : 2 * names.length ≤ byteLen names + 1 := by
  have each : names.length ≤ (names.map fun name => name.bytes.length).sum := by
    induction names with
    | nil => exact Nat.zero_le _
    | cons name =>
      have some : 0 < name.bytes.length := by
        have valid := name.valid
        unfold ErrorName.of at valid
        split_ifs at valid with empty
        exact length_pos_iff.mpr (by simpa using empty)
      simp only [length_cons, map_cons, sum_cons]
      omega
  simp only [byteLen]
  omega

theorem length_le_of_fromNames {names : List Name} (short : (Path.fromNames names).isSome = true) :
    names.length ≤ maxDepth := by
  have fits : byteLen names ≤ pathMax := by
    unfold Path.fromNames at short
    split_ifs at short with fits
    · exact fits
    · cases short
  have long := two_mul_length_le names
  unfold maxDepth pathMax at *
  omega

section Rounds

variable {edges : ℕ → List (ℕ × Name)} {v target : ℕ} {a x y : Name}

/-- If the newest alias of a node leads round to it, all the depth is spent on going round. -/
theorem search_round (other : v ≠ target) (ways : edges v = [(v, x), (target, a)]) (k : ℕ) :
    search edges target (k + 1) v = some (a :: List.replicate k x) := by
  induction k with
  | zero => simp [search, other, ways]
  | succ _ ih =>
    rw [search_succ other, ways, findSome?_cons, ih]
    simp [replicate_succ']

/-- If both aliases of a node lead round to it, the steps double with the depth. -/
theorem trace_rounds (other : v ≠ target) (ways : edges v = [(v, x), (v, y)]) (k : ℕ) :
    (trace edges target k v).1 = none ∧ 2 ^ k ≤ (trace edges target k v).2.length + 1 := by
  induction k with
  | zero => simp [trace, other]
  | succ k ih =>
    obtain ⟨fails, steps⟩ := ih
    have pair : trace edges target k v = (none, (trace edges target k v).2) :=
      Prod.ext fails rfl
    rw [trace, if_neg other, ways, tryEach, pair]
    simp only [tryEach]
    rw [pair]
    simp only [cons_append, length_cons, length_append, length_nil, true_and]
    rw [Nat.pow_succ]
    omega

end Rounds

def nameD : Name :=
  ⟨[100], by decide⟩

def nameX : Name :=
  ⟨[120], by decide⟩

def nameY : Name :=
  ⟨[121], by decide⟩

/-- A directory as replies describe it, one for each number. -/
def directoryOf (ino : ℕ) : Seen :=
  ⟨ino, ⟨1, [UInt8.ofNat ino]⟩, false, .directory⟩

/-- The chains from a file whose one name is in a directory whose one name is in the root. -/
theorem walk_nested (file : t.aliasesOf 6 = [(5, nameX)]) (above : t.aliasesOf 5 = [(root, nameD)])
    (top : t.aliasesOf root = []) {chain : List (ℕ × Name)} {p : ℕ}
    (walk : Walk t.aliasesOf 6 chain p) :
    (chain = [] ∧ p = 6) ∨ (chain = [(5, nameX)] ∧ p = 5) ∨
      (chain = [(5, nameX), (root, nameD)] ∧ p = root) := by
  cases walk with
  | stay => exact .inl ⟨rfl, rfl⟩
  | follow first walk =>
    rw [file, mem_singleton] at first
    subst first
    cases walk with
    | stay => exact .inr (.inl ⟨rfl, rfl⟩)
    | follow second walk =>
      rw [above, mem_singleton] at second
      subst second
      cases walk with
      | stay => exact .inr (.inr ⟨rfl, rfl⟩)
      | follow third =>
        rw [top] at third
        cases third

theorem exists_nested :
    ∃ t, machine.Reachable t ∧ t.aliasesOf 6 = [(5, nameX)] ∧ t.aliasesOf 5 = [(root, nameD)] ∧
      t.aliasesOf root = [] := by
  obtain ⟨t, -, reached, holds⟩ := machine.exists_of_run
    (by decide +kernel : (machine.run [.insertLookup root nameD (directoryOf 5),
      .insertLookup 5 nameX (directoryOf 6)]).any (fun t => decide (t.aliasesOf 6 = [(5, nameX)] ∧
        t.aliasesOf 5 = [(root, nameD)] ∧ t.aliasesOf root = [])) = true)
  exact ⟨t, reached, of_decide_eq_true holds⟩

end JackalopeFs.NodeTable
