import JackalopeFs.KernelLookups

/-! # Which replies are taken for the root

A server knows the export root by its inode number, the kernel as node 1, so the client
rewrites the attributes of every reply that describe the root.  It leaves those of any
other file as they are, the ones numbered 1 included, and before a getattr of the root has
been answered the node table has nothing but the number to tell the root by: such a file
is refused as the root.  In every other case, and once the root's identity is known for
all files with another identity, a reply is the root's exactly if it describes the root.

Of a file's attributes only those that the node table reads are kept, and of the responses
only those that carry attributes.
-/

namespace JackalopeFs.RootReplies

open KeyedTables NodeTable PathNames TransitionRuns

structure KeyRoot where
  ino : ℕ
  identity : Identity
  deriving DecidableEq, Repr

inductive Response where
  | entry (attr : Seen)
  | attr (attr : Seen)
  | opened (attr : Seen)
  | readdir (entries : List Entry)
  | other
  deriving DecidableEq, Repr

def Response.attrs : Response → List Seen
  | .entry seen | .attr seen | .opened seen => [seen]
  | .readdir entries => entries.filterMap Entry.attr
  | .other => []

namespace KeyRoot

def describedBy (root : KeyRoot) (attr : Seen) : Bool :=
  attr.ino = root.ino && attr.identity = root.identity

def rewrite (root : KeyRoot) (attr : Seen) : Seen :=
  if root.describedBy attr then { attr with ino := NodeTable.root } else attr

/-- The response as the kernel's side of the client sees it. -/
def asNodeOne (root : KeyRoot) : Response → Response
  | .entry attr => .entry (root.rewrite attr)
  | .attr attr => .attr (root.rewrite attr)
  | .opened attr => .opened (root.rewrite attr)
  | .readdir entries => .readdir (entries.map fun e => { e with attr := e.attr.map root.rewrite })
  | .other => .other

theorem attrs_asNodeOne (root : KeyRoot) (response : Response) :
    (root.asNodeOne response).attrs = response.attrs.map root.rewrite := by
  cases response with
  | entry | attr | opened | other => rfl
  | readdir =>
    simp only [asNodeOne, Response.attrs, List.filterMap_map, List.map_filterMap]
    rfl

end KeyRoot

inductive Arrival where
  /-- The file that a response describes at this place is entered under a name. -/
  | registers (parent : ℕ) (name : Name) (response : Response) (place : ℕ)
  /-- A getattr of the root is answered. -/
  | rootAnswered (attr : Seen)
  /-- The table is changed by a request or a forget. -/
  | changes (action : NodeTable.Action)
  deriving DecidableEq, Repr

/-- Whether an action puts what a reply says into the table. -/
def describesFile : NodeTable.Action → Bool
  | .insertLookup _ _ _ | .rootSeen _ => true
  | _ => false

def step (root : KeyRoot) (t : Nodes) : Arrival → Option Nodes
  | .registers parent name response place =>
    (root.asNodeOne response).attrs[place]?.bind fun seen =>
      NodeTable.step t (.insertLookup parent name seen)
  | .rootAnswered attr =>
    if root.describedBy attr then NodeTable.step t (.rootSeen (root.rewrite attr).identity)
    else none
  | .changes action => if describesFile action then none else NodeTable.step t action

def machine (root : KeyRoot) : Machine Nodes Arrival :=
  ⟨.new, step root⟩

theorem keyOf_root_of_steps {t t' : Nodes} {action : NodeTable.Action} (moved : t.Steps action t')
    (quiet : ∀ identity, action ≠ .rootSeen identity) : t'.keyOf root = t.keyOf root := by
  cases moved with
  | stays => rfl
  | registers _ _ _ _ _ done => exact keyOf_of_core (done.kept root done.other.symm)
  | roots identity => exact absurd rfl (quiet identity)
  | counts _ _ _ other =>
    rw [Nodes.keyOf, Nodes.uncount, Nodes.get_modify, if_neg other.symm, Nodes.keyOf]
  | forgets _ _ _ _ other _ _ done => exact keyOf_of_core (done.kept root other.symm)
  | unnames _ _ _ _ done => exact keyOf_of_core (done.refits.nodes root)
  | unlinks parent name => exact keyOf_of_core ((Nodes.refits_unlink parent name).nodes root)
  | moves _ _ _ _ _ _ _ _ done => exact keyOf_of_core (done.refits.nodes root)
  | parts parent name newparent newname =>
    exact keyOf_of_core
      (((Nodes.refits_unlink parent name).trans (Nodes.refits_unlink newparent newname)).nodes root)
  | swaps _ _ _ _ _ _ _ _ _ _ done => exact keyOf_of_core (done.refits.nodes root)

theorem keyOf_rootSeen {t : Nodes} (shape : t.WellFormed) (identity : Identity) :
    (t.rootSeen identity).keyOf root = some ⟨root, identity⟩ := by
  obtain ⟨node, found⟩ := Option.isSome_iff_exists.mp shape.root
  rw [Nodes.keyOf, Nodes.rootSeen, Nodes.get_modify, if_pos rfl, found]
  rfl

/-- The table is well formed, and what it knows of the root is the root's. -/
structure Rooted (root : KeyRoot) (t : Nodes) : Prop where
  shape : t.WellFormed
  identity : ∀ key, t.keyOf NodeTable.root = some key → key.identity = root.identity

namespace Rooted

variable {root : KeyRoot} {t t' : Nodes}

theorem table (h : Rooted root t) {action : NodeTable.Action}
    (moved : NodeTable.step t action = some t') (quiet : ∀ identity, action ≠ .rootSeen identity) :
    Rooted root t' := by
  have steps := Nodes.step_steps h.shape.linked moved
  refine ⟨h.shape.step steps, ?_⟩
  rw [keyOf_root_of_steps steps quiet]
  exact h.identity

theorem step (h : Rooted root t) {arrival : Arrival} (moved : step root t arrival = some t') :
    Rooted root t' := by
  cases arrival with
  | registers =>
    obtain ⟨seen, -, moved⟩ := Option.bind_eq_some_iff.mp moved
    exact h.table moved fun _ => nofun
  | rootAnswered attr =>
    simp only [RootReplies.step] at moved
    split_ifs at moved with described
    have own : (root.rewrite attr).identity = root.identity := by
      simp only [KeyRoot.rewrite, described, ↓reduceIte]
      simp only [KeyRoot.describedBy, Bool.and_eq_true, decide_eq_true_eq] at described
      exact described.2
    refine ⟨h.shape.step (Nodes.step_steps h.shape.linked moved), fun key known => ?_⟩
    cases moved
    rw [keyOf_rootSeen h.shape, own] at known
    cases known
    rfl
  | changes =>
    simp only [RootReplies.step] at moved
    split_ifs at moved with describes
    refine h.table moved fun identity same => ?_
    rw [same] at describes
    exact describes rfl

theorem of_reachable (h : (machine root).Reachable t) : Rooted root t :=
  Machine.Reachable.invariant ⟨.new, fun key known => by cases known⟩ (fun _ _ _ rooted => rooted.step) h

end Rooted

section Numbers

variable {t : Nodes}

def candidate (start i : ℕ) : ℕ :=
  2 + (start - 2 + i) % (2 ^ 64 - 2)

theorem nextNumber_candidate (start i : ℕ) :
    nextNumber (candidate start i) = candidate start (i + 1) := by
  unfold nextNumber candidate
  omega

theorem candidate_inj {start i j : ℕ} (small : i < 2 ^ 64 - 2) (small' : j < 2 ^ 64 - 2)
    (same : candidate start i = candidate start j) : i = j := by
  unfold candidate at same
  omega

theorem taken_of_freeFrom {fuel start i : ℕ} (h : t.freeFrom fuel (candidate start i) = none) :
    ∀ j < fuel, (t.get (candidate start (i + j))).isSome = true := by
  induction fuel generalizing i with
  | zero => exact fun j small => absurd small (Nat.not_lt_zero j)
  | succ _ ih =>
    unfold Nodes.freeFrom at h
    split_ifs at h with taken
    rw [nextNumber_candidate] at h
    intro j small
    cases j with
    | zero => exact taken
    | succ j =>
      have later := ih h j (Nat.lt_of_succ_lt_succ small)
      rwa [Nat.add_assoc, Nat.add_comm 1] at later

theorem isSome_freeFrom {start : ℕ} (least : 2 ≤ start) (below : start < 2 ^ 64)
    (room : t.nodes.entries.length < 2 ^ 64 - 2) :
    (t.freeFrom (t.nodes.entries.length + 1) start).isSome = true := by
  have first : start = candidate start 0 := by
    unfold candidate
    omega
  by_contra full
  rw [first, Bool.not_eq_true, Option.isSome_eq_false_iff, Option.isNone_iff_eq_none] at full
  have taken := taken_of_freeFrom full
  let numbers := (List.range (t.nodes.entries.length + 1)).map (candidate start)
  have distinct : numbers.Nodup := by
    refine List.Nodup.map_on (fun i mem j mem' same => ?_) List.nodup_range
    rw [List.mem_range] at mem mem'
    exact candidate_inj (by omega) (by omega) same
  have listed : numbers ⊆ t.nodes.keys := by
    intro id mem
    obtain ⟨j, small, rfl⟩ := List.mem_map.mp mem
    have present := taken j (List.mem_range.mp small)
    rw [Nat.zero_add] at present
    exact AList.mem_keys.mpr (AList.lookup_isSome.mp present)
  have few := (distinct.subperm listed).length_le
  rw [List.length_map, List.length_range, AList.keys, List.keys, List.length_map] at few
  omega

theorem substitute_lt (identity : Identity) : substitute identity < 2 ^ 64 := by
  have hashed (bytes : List UInt8) (hash : ℕ) (small : hash < 2 ^ 64) :
      bytes.foldl (fun hash byte => (hash ^^^ byte.toNat) * 0x100000001b3 % 2 ^ 64) hash < 2 ^ 64 := by
    induction bytes generalizing hash with
    | nil => exact small
    | cons _ _ ih => exact ih _ (Nat.mod_lt _ (by decide))
  exact max_lt (by decide) (hashed _ _ (by decide))

theorem isSome_idFor (seen : Seen) (room : t.nodes.entries.length < 2 ^ 64 - 2) :
    (t.idFor seen).isSome = true := by
  unfold Nodes.idFor
  split_ifs
  · rfl
  all_goals split
  · rfl
  · rfl
  · rfl
  · exact isSome_freeFrom (le_max_left _ _) (substitute_lt _) room

end Numbers

theorem rewrite_of_other {root : KeyRoot} {reply : Seen} (other : root.describedBy reply = false) :
    root.rewrite reply = reply := by
  simp [KeyRoot.rewrite, other]

theorem idFor_registered {t t' : Nodes} {parent : ℕ} {name : Name} {seen : Seen} {id : ℕ}
    (shape : t.WellFormed) (done : t.Registers parent name seen id t') :
    t'.keyOf id = some seen.key ∧ ∀ other, t'.idFor other = some id → other.key = seen.key := by
  have after : t'.WellFormed := shape.register done
  have keyed : t'.keyOf id = some seen.key := by
    refine ((after.keyed seen.key id).mp ?_).2
    rw [done.byKey, AList.lookup_insert]
  refine ⟨keyed, fun other number => ?_⟩
  rcases Nodes.idFor_cases number with isRoot | known | ⟨-, absent⟩
  · exact absurd isRoot done.other
  · exact Option.some.inj (((after.keyed _ _).mp known).2.symm.trans keyed)
  · rw [Nodes.keyOf, absent] at keyed
    cases keyed

/-- For a reply that is not numbered 1, or describes the root, or comes with another identity than the
root's once that is known: it is the root's exactly if it describes the root, and otherwise is
registered under a number of its own. -/
theorem only_root_is_root {root : KeyRoot} {t : Nodes} (h : (machine root).Reachable t)
    {response : Response} {place : ℕ} {reply : Seen} (carries : response.attrs[place]? = some reply)
    (meets : reply.ino ≠ NodeTable.root ∨ root.describedBy reply = true ∨
      ((t.keyOf NodeTable.root).isSome = true ∧ reply.identity ≠ root.identity)) :
    ∃ seen, (root.asNodeOne response).attrs[place]? = some seen ∧
      (t.idFor seen = some NodeTable.root ↔ root.describedBy reply = true) ∧
      (root.describedBy reply = false → ∀ parent name,
        (t.nodes.entries.length < 2 ^ 64 - 2 → (t.insertLookup parent name seen).isSome = true) ∧
        ∀ t' told, t.insertLookup parent name seen = some (t', told) → ∃ id, told = some id ∧
          id ≠ NodeTable.root ∧ t'.keyOf id = some reply.key ∧
          ∀ other, t'.idFor other = some id → other.key = reply.key) := by
  have rooted := Rooted.of_reachable h
  have number : t.idFor (root.rewrite reply) = some NodeTable.root ↔ root.describedBy reply = true := by
    cases described : root.describedBy reply with
    | true =>
      refine iff_of_true ?_ rfl
      have own : reply.identity = root.identity := by
        simp only [KeyRoot.describedBy, Bool.and_eq_true, decide_eq_true_eq] at described
        exact described.2
      rw [Nodes.idFor, if_pos]
      refine ⟨by simp [KeyRoot.rewrite, described], ?_⟩
      rw [Option.all_eq_true]
      intro key known
      simp [KeyRoot.rewrite, described, own, rooted.identity key known]
    | false =>
      refine iff_of_false (fun isRoot => ?_) Bool.false_ne_true
      rw [rewrite_of_other described] at isRoot
      obtain ⟨numbered, same⟩ := Mount.idFor_eq_root rooted.shape isRoot
      rcases meets with away | describes | ⟨known, apart⟩
      · exact away numbered
      · rw [described] at describes
        cases describes
      · obtain ⟨key, known⟩ := Option.isSome_iff_exists.mp known
        exact apart ((same key known).symm.trans (rooted.identity key known))
  refine ⟨root.rewrite reply, ?_, number, fun other parent name => ⟨fun room => ?_, ?_⟩⟩
  · rw [root.attrs_asNodeOne, List.getElem?_map, carries]
    rfl
  · rw [Nodes.insertLookup, Option.isSome_map]
    exact isSome_idFor _ room
  · intro t' told made
    rcases Nodes.insertLookup_registers made with ⟨isRoot, -⟩ | ⟨id, rfl, done⟩
    · rw [number.mp isRoot] at other
      cases other
    · rw [rewrite_of_other other] at done
      exact ⟨id, rfl, done.other, idFor_registered rooted.shape done⟩

/-- Once the root is known, another file that the server numbers 1 is registered under a number of its
own. -/
theorem only_root_is_root_numbered_one :
    let root : KeyRoot := ⟨256, ⟨1, [0]⟩⟩
    let file : Seen := ⟨1, ⟨1, [7]⟩, false, .regular⟩
    let name : Name := ⟨[97], by decide⟩
    ∃ t, (machine root).Reachable t ∧ t.idFor file ≠ some NodeTable.root ∧
      ∃ t' id, t.insertLookup NodeTable.root name file = some (t', some id) ∧
        id ≠ NodeTable.root ∧ ∀ other, t'.idFor other = some id → other.key = file.key := by
  intro root file name
  obtain ⟨t, -, reached, known⟩ := (machine root).exists_of_run
    (p := fun t => (t.keyOf NodeTable.root).isSome &&
      (t.insertLookup NodeTable.root name file).isSome)
    (by decide +kernel :
      ((machine root).run [.rootAnswered ⟨256, ⟨1, [0]⟩, false, .directory⟩]).any _ = true)
  obtain ⟨known, made⟩ := (Bool.and_eq_true _ _).mp known
  have carries : (Response.entry file).attrs[0]? = some file := rfl
  obtain ⟨seen, carried, number, own⟩ :=
    only_root_is_root reached carries (.inr (.inr ⟨known, by decide⟩))
  cases carried
  obtain ⟨⟨t', told⟩, made⟩ := Option.isSome_iff_exists.mp made
  obtain ⟨id, rfl, other, -, apart⟩ := (own rfl NodeTable.root name).2 t' told made
  exact ⟨t, reached, fun isRoot => absurd (number.mp isRoot) (by decide), t', id, made, other, apart⟩

/-- Before the root has been asked about, a file that the server numbers 1 is refused as the root. -/
theorem file_one_refused_as_root :
    let root : KeyRoot := ⟨256, ⟨1, [0]⟩⟩
    let file : Seen := ⟨1, ⟨1, [7]⟩, false, .regular⟩
    let name : Name := ⟨[97], by decide⟩
    ∃ t, (machine root).Reachable t ∧ root.describedBy file = false ∧
      (root.asNodeOne (.entry file)).attrs[0]? = some file ∧
      t.idFor file = some NodeTable.root ∧
      ∃ t', t.insertLookup NodeTable.root name file = some (t', none) := by
  intro root file name
  exact ⟨.new, Machine.Reachable.start, by decide, by decide, by decide, .new, rfl⟩

end JackalopeFs.RootReplies
