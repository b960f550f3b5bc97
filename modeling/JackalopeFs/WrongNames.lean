import JackalopeFs.AliasPaths

/-! # Retrying after a wrong name

A request that addresses a node by path is answered with whatever the path leads to now.
If that is another file, the name it went by is taken from the node and the request is made
again by the next: `getattr` and `setattr`, which may go by a handle instead, and `open`
and `opendir`.  The name is found again by its path, with a search that starts one level
higher than the one which spelled it.  As long as no chain of aliases to the root is longer
than the guard both find the same; then every wrong reply takes one name, and the requests
stop after one round more than the node has names.  A chain that goes round can be spelled
from the node and be another from its parent: no name is taken, and the request is made
for ever.

The invalidation of the name in the kernel, and what is done with the attributes after
the loop, are left out.
-/

namespace JackalopeFs.NodeTable

open BoundedSearch List Nodes PathNames TransitionRuns

variable {t : Nodes}

def KeyNode.describes (key : KeyNode) (attr : Seen) : Bool :=
  key.ino == attr.ino && key.identity == attr.identity

namespace Nodes

/-- Whether `attr` describes the file that node `id` is; the root is whatever the server says. -/
def describes (t : Nodes) (id : ℕ) (attr : Seen) : Bool :=
  id == root || ((t.get id).bind Node.key).any fun key => key.describes attr

/-- The path and handle for an operation on `ino` that may carry the handle `fh`, if `live` is
some handle open on it. -/
def pathForHandleOp (t : Nodes) (ino : ℕ) (fh live : Option ℕ) : Option (Option Path × Option ℕ) :=
  match t.pathOf ino with
  | some path => some (some path, fh)
  | none => (fh.or live).map fun fh => (none, some fh)

end Nodes

/-- What a request that reads a file is answered with. -/
inductive Answer where
  | attr (attr : Seen)
  | fails
  deriving DecidableEq, Repr

/-- One round of `getattr` and `setattr`: the table for the next, if there is one. -/
def attrRound (ino : ℕ) (fh live : Option ℕ) (t : Nodes) (answer : Answer) : Option Nodes :=
  match t.pathForHandleOp ino fh live, answer with
  | some (path, fh), .attr attr =>
    if fh.isSome || t.describes ino attr then none
    else some (t.aliasWasWrong ino (path.getD .root)).1
  | some _, .fails => none
  | none, _ => none

def openRound (ino : ℕ) (t : Nodes) (answer : Answer) : Option Nodes :=
  match t.pathOf ino, answer with
  | some path, .attr attr =>
    if t.describes ino attr then none else some (t.aliasWasWrong ino path).1
  | some _, .fails => none
  | none, _ => none

/-- The operations that are made again after a wrong name. -/
inductive Retried where
  | getattr (fh live : Option ℕ)
  | setattr (fh live : Option ℕ)
  | open_
  | opendir
  deriving DecidableEq, Repr

def Retried.round (ino : ℕ) : Retried → Nodes → Answer → Option Nodes
  | .getattr fh live => attrRound ino fh live
  | .setattr fh live => attrRound ino fh live
  | .open_ => openRound ino
  | .opendir => openRound ino

/-- How many rounds an operation makes while these are the answers. -/
def Retried.rounds (ino : ℕ) (operation : Retried) : Nodes → List Answer → ℕ
  | _, [] => 0
  | t, answer :: rest =>
    match operation.round ino t answer with
    | none => 1
    | some t' => operation.rounds ino t' rest + 1

/-- A round that is not the last took the wrong name of a node with a path. -/
theorem round_eq_some {operation : Retried} {ino : ℕ} {answer : Answer} {t' : Nodes}
    (again : operation.round ino t answer = some t') :
    ∃ path, t.pathOf ino = some path ∧ t' = (t.aliasWasWrong ino path).1 := by
  have byAttr : ∀ fh live, attrRound ino fh live t answer = some t' →
      ∃ path, t.pathOf ino = some path ∧ t' = (t.aliasWasWrong ino path).1 := by
    intro fh live again
    unfold attrRound Nodes.pathForHandleOp at again
    cases addressed : t.pathOf ino with
    | some path =>
      cases answer with
      | fails => simp [addressed] at again
      | attr =>
        simp only [addressed, Option.getD_some] at again
        split_ifs at again
        cases again
        exact ⟨path, rfl, rfl⟩
    | none =>
      -- without a path there is a handle, and a reply by handle is always taken
      cases answer <;> cases held : fh.or live <;> simp [addressed, held] at again
  have byOpen : openRound ino t answer = some t' →
      ∃ path, t.pathOf ino = some path ∧ t' = (t.aliasWasWrong ino path).1 := by
    intro again
    unfold openRound at again
    cases addressed : t.pathOf ino with
    | none => simp [addressed] at again
    | some path =>
      cases answer with
      | fails => simp [addressed] at again
      | attr =>
        simp only [addressed] at again
        split_ifs at again
        cases again
        exact ⟨path, rfl, rfl⟩
  cases operation with
  | getattr fh live => exact byAttr fh live again
  | setattr fh live => exact byAttr fh live again
  | open_ => exact byOpen again
  | opendir => exact byOpen again

/-- What taking the name that `path` was spelled by does: one alias of the node goes, the newest
one whose directory has a path, and no other of any node. -/
structure TakesName (t : Nodes) (id : ℕ) (path : Path) (wrong : ℕ × Name) (t' : Nodes) : Prop where
  taken : ∃ older newer, t.aliasesOf id = older ++ wrong :: newer ∧
    t'.aliasesOf id = older ++ newer ∧ ∀ a ∈ newer, t.namesTo maxDepth a.1 = none
  spelledBy : ∃ dir, t.namesTo maxDepth wrong.1 = some dir ∧ path.names = dir ++ [wrong.2]
  others : ∀ j, j ≠ id → t'.aliasesOf j = t.aliasesOf j

variable {path : Path}

theorem splitLast_of_names {dir : List Name} {last : Name} (names : path.names = dir ++ [last]) :
    ∃ above, path.splitLast = some (above, last) ∧ above.names = dir := by
  refine ⟨path.upTo (path.names.length - 1), ?_, ?_⟩
  · rw [Path.splitLast, names]
    simp
  · simp [Path.upTo, names]

/-- No chain of aliases from `id` to the root is longer than the guard lets one be. -/
def Guarded (t : Nodes) (id : ℕ) : Prop :=
  ∀ chain, Walk t.aliasesOf id chain root → chain.length ≤ maxDepth + 1

variable {id : ℕ}

theorem namesTo_of_guarded (guarded : Guarded t id) {a : ℕ × Name} (listed : a ∈ t.aliasesOf id) :
    t.namesTo (maxDepth + 1) a.1 = t.namesTo maxDepth a.1 := by
  rw [namesTo_eq_search, namesTo_eq_search]
  refine search_stable (fun chain up => ?_) (Nat.le_succ _)
  have short := guarded _ (.follow listed (walk_newestFirst.mp up))
  exact Nat.le_of_succ_le_succ short

/-- The alias that a path is spelled by, with those that were tried before it. -/
theorem pathOf_spelledBy (other : id ≠ root) (addressed : t.pathOf id = some path) :
    ∃ node newer wrong older dir, t.get id = some node ∧
      node.aliases.reverse = newer ++ wrong :: older ∧
      (∀ a ∈ newer, t.namesTo maxDepth a.1 = none) ∧
      t.namesTo maxDepth wrong.1 = some dir ∧ path.names = dir ++ [wrong.2] := by
  obtain ⟨names, climbed, fits⟩ := Option.bind_eq_some_iff.mp addressed
  rw [namesTo, if_neg other] at climbed
  obtain ⟨node, found, chosen⟩ := Option.bind_eq_some_iff.mp climbed
  obtain ⟨newer, wrong, older, split, leads, skipped⟩ := findSome?_eq_some_iff.mp chosen
  obtain ⟨dir, above, rfl⟩ := Option.map_eq_some_iff.mp leads
  refine ⟨node, newer, wrong, older, dir, found, split, fun a listed => ?_, above,
    Path.fromNames_eq_some fits⟩
  exact Option.map_eq_none_iff.mp (skipped a listed)

theorem takesName_aliasWasWrong (other : id ≠ root) (guarded : Guarded t id)
    (addressed : t.pathOf id = some path) :
    ∃ wrong, (t.aliasWasWrong id path).2 = some wrong ∧
      TakesName t id path wrong (t.aliasWasWrong id path).1 := by
  obtain ⟨node, newer, wrong, older, dir, found, split, skipped, above, names⟩ :=
    pathOf_spelledBy other addressed
  obtain ⟨parent, last, rfl⟩ := splitLast_of_names names
  have own := aliasesOf_of_get found
  have aliases : node.aliases = older.reverse ++ wrong :: newer.reverse := by
    rw [← reverse_reverse node.aliases, split]
    simp
  have stable : ∀ a ∈ node.aliases,
      t.namesTo (maxDepth + 1) a.1 = t.namesTo maxDepth a.1 :=
    fun a listed => namesTo_of_guarded guarded (own ▸ listed)
  -- the search from the parents finds what it found on the way from the node
  let isWrong := fun a : ℕ × Name =>
    decide (a.2 = wrong.2 ∧ t.namesTo (maxDepth + 1) a.1 = some parent.names)
  have hit : isWrong wrong = true := by
    have same := stable wrong (by simp [aliases])
    simp [isWrong, same, above]
  have missed : ∀ a ∈ newer, ¬isWrong a = true := by
    intro a listed
    have same := stable a (by simp [aliases, listed])
    simp [isWrong, same, skipped a listed]
  have finds : node.aliases.reverse.find? isWrong = some wrong := by
    rw [split, find?_append, find?_eq_none.mpr missed, find?_cons_of_pos hit]
    rfl
  have erases : (node.aliases.reverse.eraseP isWrong).reverse = older.reverse ++ newer.reverse := by
    rw [split, eraseP_append_right _ missed, eraseP_cons_of_pos hit, reverse_append]
  have taking : t.aliasWasWrong id path =
      ((t.setAliases id (older.reverse ++ newer.reverse)).clearChildOf wrong.1 wrong.2 id,
        some wrong) := by
    rw [← erases]
    simp only [aliasWasWrong, last, found]
    rw [finds]
  have isNode : (t.get id).isSome = true := by simp [found]
  rw [taking]
  refine ⟨wrong, rfl, ⟨older.reverse, newer.reverse, own.trans aliases, ?_, ?_⟩,
    ⟨parent.names, above, names⟩, fun j ne => ?_⟩
  · rw [aliasesOf_clearChildOf, aliasesOf_setAliases, if_pos ⟨rfl, isNode⟩]
  · intro a listed
    exact skipped a (mem_reverse.mp listed)
  · rw [aliasesOf_clearChildOf, aliasesOf_setAliases, if_neg fun both => ne both.1]

namespace TakesName

variable {id : ℕ} {path : Path} {wrong : ℕ × Name} {t' : Nodes}

theorem length_eq (h : TakesName t id path wrong t') :
    (t.aliasesOf id).length = (t'.aliasesOf id).length + 1 := by
  obtain ⟨older, newer, before, after, -⟩ := h.taken
  rw [before, after]
  simp only [length_append, length_cons]
  omega

theorem aliases_subset (h : TakesName t id path wrong t') (j : ℕ) :
    ∀ a ∈ t'.aliasesOf j, a ∈ t.aliasesOf j := by
  intro a listed
  by_cases own : j = id
  · subst own
    obtain ⟨older, newer, before, after, -⟩ := h.taken
    rw [after] at listed
    rw [before]
    rcases mem_append.mp listed with older | newer
    · exact mem_append_left _ older
    · exact mem_append_right _ (mem_cons_of_mem _ newer)
  · rw [← h.others j own]
    exact listed

theorem guarded (h : TakesName t id path wrong t') {j : ℕ} (before : Guarded t j) : Guarded t' j :=
  fun chain up => before chain (up.mono h.aliases_subset)

end TakesName

theorem rounds_le (other : id ≠ root) (operation : Retried) (answers : List Answer)
    (guarded : Guarded t id) :
    operation.rounds id t answers ≤ (t.aliasesOf id).length + 1 := by
  induction answers generalizing t with
  | nil => exact Nat.zero_le _
  | cons answer rest ih =>
    rw [Retried.rounds]
    split
    · omega
    · rename_i t' again
      obtain ⟨path, addressed, rfl⟩ := round_eq_some again
      obtain ⟨wrong, -, takes⟩ := takesName_aliasWasWrong other guarded addressed
      have fewer := ih (takes.guarded guarded)
      rw [takes.length_eq]
      omega

section Rounds

variable {edges : ℕ → List (ℕ × Name)} {v w target : ℕ} {a x y : Name}

/-- The names of a chain that goes round two directories `k` times. -/
def spun (a x y : Name) (k : ℕ) : List Name :=
  a :: (List.replicate k [y, x]).flatten

theorem length_spun (k : ℕ) : (spun a x y k).length = 2 * k + 1 := by
  simp [spun, Nat.mul_comm]

theorem spun_succ (k : ℕ) : spun a x y (k + 1) = spun a x y k ++ [y, x] := by
  simp [spun, replicate_succ']

/-- Two directories in each other, the first of them with an older name in the target: an odd
depth gets as far as the even one after it. -/
theorem search_spun (otherV : v ≠ target) (otherW : w ≠ target)
    (ways : edges v = [(w, x), (target, a)]) (back : edges w = [(v, y)]) (k : ℕ) :
    search edges target (2 * k + 1) v = some (spun a x y k) ∧
      search edges target (2 * k + 2) v = some (spun a x y k) := by
  have below : ∀ d, search edges target (d + 1) w =
      (search edges target d v).map fun names => names ++ [y] := by
    intro d
    rw [search_succ otherW, back]
    simp
  have round : ∀ d names, search edges target d v = some names →
      search edges target (d + 2) v = some (names ++ [y, x]) := by
    intro d names found
    rw [search_succ otherV, ways, findSome?_cons, below, found]
    simp
  induction k with
  | zero =>
    constructor
    · simp [search, otherV, otherW, ways, spun]
    · simp [search, otherV, otherW, ways, back, spun]
  | succ _ ih =>
    rw [spun_succ]
    exact ⟨round _ _ ih.1, round _ _ ih.2⟩

end Rounds

/-- If no name is taken, the same wrong reply is asked for again every time. -/
theorem rounds_of_stuck {attr : Seen} (addressed : t.pathOf id = some path)
    (wrong : t.describes id attr = false) (kept : (t.aliasWasWrong id path).1 = t) (n : ℕ) :
    Retried.open_.rounds id t (List.replicate n (.attr attr)) = n := by
  have again : Retried.open_.round id t (.attr attr) = some t := by
    simp [Retried.round, openRound, addressed, wrong, kept]
  induction n with
  | zero => rfl
  | succ _ ih =>
    rw [replicate_succ, Retried.rounds, again]
    simp only [ih]

end JackalopeFs.NodeTable
