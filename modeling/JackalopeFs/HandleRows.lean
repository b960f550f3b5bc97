import JackalopeFs.TextBytes
import JackalopeFs.PathNames
import Mathlib.Algebra.BigOperators.Group.Finset.Piecewise
import Mathlib.Data.List.MinMax
import Mathlib.Data.Prod.Lex

/-! # The handles a client holds, by process

A client's report has one row for each process that opened handles, with how many are files and how many are
directories, and one directory that most of them are in.  Counts are numbers here, since a list of handles is in
memory.  A hash map is walked in any order, so the two orders in which the maps are walked are arguments.
-/

namespace JackalopeFs.HandleRows

open KeyedTables PathNames TextBytes

structure Opener where
  pid : UInt32
  name : String
  deriving DecidableEq, Repr

structure Handle where
  opener : Option Opener
  dir : Bool
  path : List Name
  deriving DecidableEq, Repr

/-- What is counted for one opener; `under` has the handles under each directory, counted at every ancestor
of the one each is in. -/
structure Row where
  files : ℕ
  dirs : ℕ
  under : AList fun _ : List Name => ℕ

structure HandlesProcess where
  pid : UInt32
  name : String
  files : ℕ
  dirs : ℕ
  within : List Char
  deriving DecidableEq, Repr

/-- An order in which a map of such entries may be walked. -/
structure Walk (Entry : Type) where
  visit : List Entry → List Entry
  perm : ∀ entries, (visit entries).Perm entries

def parent (path : List Name) : List Name :=
  path.take (path.length - 1)

/-- The directory a handle is in, with every one above it. -/
def ancestors (path : List Name) : List (List Name) :=
  (List.range ((parent path).length + 1)).map (parent path).take

def Row.add (row : Row) (handle : Handle) : Row where
  files := if handle.dir then row.files else row.files + 1
  dirs := if handle.dir then row.dirs + 1 else row.dirs
  under := (ancestors handle.path).foldl
    (fun under dir => under.insert dir ((under.lookup dir).getD 0 + 1)) row.under

def Row.new : Row :=
  ⟨0, 0, ∅⟩

def rows (handles : List Handle) : AList fun _ : Option Opener => Row :=
  handles.foldl (fun rows handle =>
    rows.insert handle.opener (((rows.lookup handle.opener).getD .new).add handle)) ∅

def byName (dir : List Name) : List (List ℕ) :=
  dir.map fun name => name.bytes.map UInt8.toNat

/-- The deepest first, and at one depth the first by name. -/
def tightness (dir : List Name) : ℕ ×ₗ (List (List ℕ))ᵒᵈ :=
  toLex (dir.length, OrderDual.toDual (byName dir))

def Row.within (walk : Walk (Σ _ : List Name, ℕ)) (row : Row) : List Name :=
  let heavy := (walk.visit row.under.entries).filter fun entry => decide (row.files + row.dirs ≤ 2 * entry.2)
  ((heavy.map (·.1)).argmax tightness).getD []

/-- A directory relative to the mount, whose root is a slash. -/
def fmtWithin (names : List Name) : List Char :=
  let out := names.flatMap fun name => '/' :: fromUtf8Lossy name.bytes
  if out.isEmpty then ['/'] else out

/-- The larger row first, and of two as large that of the lower process id. -/
def before (a b : HandlesProcess) : Bool :=
  decide (b.files + b.dirs < a.files + a.dirs) ||
    decide (a.files + a.dirs = b.files + b.dirs) && decide (a.pid ≤ b.pid)

/-- The handles no process could be named for are shown without a name, as process 0. -/
def Row.process (walk : Walk (Σ _ : List Name, ℕ)) (opener : Option Opener) (row : Row) : HandlesProcess where
  pid := opener.elim 0 Opener.pid
  name := opener.elim "" Opener.name
  files := row.files
  dirs := row.dirs
  within := fmtWithin (row.within walk)

def processes (walkRows : Walk (Σ _ : Option Opener, Row))
    (walkUnder : Option Opener → Walk (Σ _ : List Name, ℕ)) (handles : List Handle) : List HandlesProcess :=
  ((walkRows.visit (rows handles).entries).map fun entry =>
    entry.2.process (walkUnder entry.1) entry.1).mergeSort before

section Rows

variable {handles : List Handle} {opener : Option Opener} {row : Row} {dir : List Name}

def openedBy (opener : Option Opener) (handles : List Handle) : List Handle :=
  handles.filter fun handle => handle.opener = opener

theorem lookup_rows_eq_some :
    (rows handles).lookup opener = some row ↔
      openedBy opener handles ≠ [] ∧ row = (openedBy opener handles).foldl Row.add .new := by
  have made := lookup_foldl_insert Row.add Row.new Handle.opener handles opener
  rw [← rows, ← openedBy] at made
  rw [made, Option.ite_none_left_eq_some, Option.some_inj, List.isEmpty_iff, eq_comm (a := row)]

theorem files_add_dirs (handles : List Handle) :
    (handles.foldl Row.add .new).files = handles.countP (fun handle => !handle.dir) ∧
    (handles.foldl Row.add .new).dirs = handles.countP (·.dir) ∧
    (handles.foldl Row.add .new).under = (handles.flatMap fun handle => ancestors handle.path).foldl
      (fun under dir => under.insert dir ((under.lookup dir).getD 0 + 1)) ∅ := by
  induction handles using List.reverseRecOn with
  | nil => exact ⟨rfl, rfl, rfl⟩
  | append_singleton _ handle ih =>
    obtain ⟨files, dirs, under⟩ := ih
    rw [List.foldl_append, List.foldl_cons, List.foldl_nil, List.flatMap_append, List.flatMap_singleton,
      List.foldl_append, ← under, List.countP_append, List.countP_append]
    refine ⟨?_, ?_, rfl⟩ <;> cases dir : handle.dir <;> simp [Row.add, dir, files, dirs]

theorem count_ancestors (dir path : List Name) :
    (ancestors path).count dir = if dir <+: parent path then 1 else 0 := by
  have distinct : (ancestors path).Nodup := by
    refine List.nodup_range.map_on fun i hi j hj same => ?_
    have lengths := congrArg List.length same
    simp only [List.length_take, List.mem_range] at lengths hi hj
    omega
  have mem : dir ∈ ancestors path ↔ dir <+: parent path := by
    rw [ancestors, List.mem_map]
    constructor
    · rintro ⟨depth, _, rfl⟩
      exact List.take_prefix depth _
    · intro above
      exact ⟨dir.length, List.mem_range.mpr (Nat.lt_succ_of_le above.length_le), (List.prefix_iff_eq_take.mp above).symm⟩
  simp only [distinct.count, mem]

def beneath (dir : List Name) (handles : List Handle) : ℕ :=
  handles.countP fun handle => decide (dir <+: parent handle.path)

theorem length_filter_ancestors (handles : List Handle) (dir : List Name) :
    ((handles.flatMap fun handle => ancestors handle.path).filter fun above => above = dir).length =
      beneath dir handles := by
  have same : (fun above => decide (above = dir)) = (· == dir) := by
    funext above
    exact (beq_eq_decide ..).symm
  rw [same, ← List.count_eq_length_filter]
  induction handles with
  | nil => rfl
  | cons _ _ ih =>
    rw [List.flatMap_cons, List.count_append, ih, count_ancestors, beneath, beneath, List.countP_cons, add_comm]
    simp

theorem lookup_under {n : ℕ} :
    (handles.foldl Row.add .new).under.lookup dir = some n ↔ 0 < n ∧ n = beneath dir handles := by
  have made := lookup_foldl_insert (fun n _ => n + 1) 0 id (handles.flatMap fun handle => ancestors handle.path) dir
  simp only [id, List.isEmpty_iff_length_eq_zero, length_filter_ancestors] at made
  rw [(files_add_dirs handles).2.2, made, Option.ite_none_left_eq_some, Option.some_inj]
  simp [length_filter_ancestors]
  omega

/-- At least half of the handles are beneath the directory, and of those that have as many none is deeper, nor
as deep and before it by name. -/
def Tightest (handles : List Handle) (dir : List Name) : Prop :=
  handles.length ≤ 2 * beneath dir handles ∧ ∀ other, handles.length ≤ 2 * beneath other handles →
    other.length < dir.length ∨ other.length = dir.length ∧ byName dir ≤ byName other

theorem tightest_within (some_ : handles ≠ []) (walk : Walk (Σ _ : List Name, ℕ)) :
    Tightest handles ((handles.foldl Row.add .new).within walk) := by
  obtain ⟨files, dirs, -⟩ := files_add_dirs handles
  have total : (handles.foldl Row.add .new).files + (handles.foldl Row.add .new).dirs = handles.length := by
    rw [files, dirs, List.length_eq_countP_add_countP (·.dir), add_comm]
    simp
  have mem : ∀ dir, dir ∈ ((walk.visit (handles.foldl Row.add .new).under.entries).filter fun entry =>
      decide (handles.length ≤ 2 * entry.2)).map (·.1) ↔ handles.length ≤ 2 * beneath dir handles := by
    intro dir
    simp only [List.mem_map, List.mem_filter, (walk.perm _).mem_iff, decide_eq_true_eq, Sigma.exists]
    constructor
    · rintro ⟨_, n, ⟨listed, half⟩, rfl⟩
      obtain ⟨_, rfl⟩ := lookup_under.mp (lookup_eq_some_iff.mpr listed)
      exact half
    · intro half
      have positive : 0 < beneath dir handles := by
        have := List.length_pos_iff.mpr some_
        omega
      exact ⟨dir, _, ⟨lookup_eq_some_iff.mp (lookup_under.mpr ⟨positive, rfl⟩), half⟩, rfl⟩
  have root : handles.length ≤ 2 * beneath [] handles := by
    have all : beneath [] handles = handles.length := by simp [beneath]
    omega
  rw [Row.within, total]
  cases found : (((walk.visit (handles.foldl Row.add .new).under.entries).filter fun entry =>
      decide (handles.length ≤ 2 * entry.2)).map (·.1)).argmax tightness with
  | none =>
    rw [List.argmax_eq_none] at found
    rw [found] at mem
    exact absurd ((mem []).mpr root) List.not_mem_nil
  | some dir =>
    refine ⟨(mem dir).mp (List.argmax_mem found), fun other half => ?_⟩
    have least := List.le_of_mem_argmax ((mem other).mpr half) found
    simpa [tightness, Prod.Lex.toLex_le_toLex] using least

structure IsRow (handles : List Handle) (opener : Option Opener) (row : HandlesProcess) : Prop where
  pid : row.pid = opener.elim 0 Opener.pid
  name : row.name = opener.elim "" Opener.name
  files : row.files = (openedBy opener handles).countP fun handle => !handle.dir
  dirs : row.dirs = (openedBy opener handles).countP (·.dir)
  within : ∃ dir, row.within = fmtWithin dir ∧ Tightest (openedBy opener handles) dir

theorem sum_openedBy {openers : List (Option Opener)} (distinct : openers.Nodup)
    (all : ∀ handle ∈ handles, handle.opener ∈ openers) (p : Handle → Bool) :
    (openers.map fun opener => (openedBy opener handles).countP p).sum = handles.countP p := by
  rw [← List.sum_toFinset _ distinct]
  induction handles with
  | nil => simp [openedBy]
  | cons handle handles ih =>
    have here := all handle List.mem_cons_self
    have each : ∀ opener, (openedBy opener (handle :: handles)).countP p =
        (openedBy opener handles).countP p + if handle.opener = opener then (if p handle then 1 else 0) else 0 := by
      intro opener
      simp only [openedBy, List.filter_cons]
      split_ifs <;> simp_all
    simp only [each, Finset.sum_add_distrib, ih fun other mem => all other (List.mem_cons_of_mem _ mem),
      Finset.sum_ite_eq, List.mem_toFinset, here, if_true, List.countP_cons]

theorem IsRow.counts {openers : List (Option Opener)} {out : List HandlesProcess}
    (h : List.Forall₂ (IsRow handles) openers out) :
    out.map (·.files) = openers.map (fun opener => (openedBy opener handles).countP fun handle => !handle.dir) ∧
    out.map (·.dirs) = openers.map fun opener => (openedBy opener handles).countP (·.dir) := by
  induction h with
  | nil => exact ⟨rfl, rfl⟩
  | cons row _ ih =>
    simp only [List.map_cons, row.files, row.dirs, ih.1, ih.2, and_self]

theorem processes_sorted (walkRows : Walk (Σ _ : Option Opener, Row))
    (walkUnder : Option Opener → Walk (Σ _ : List Name, ℕ)) (handles : List Handle) :
    (processes walkRows walkUnder handles).Pairwise fun a b => b.files + b.dirs ≤ a.files + a.dirs := by
  refine (List.pairwise_mergeSort ?_ ?_ _).imp ?_ <;>
    simp only [before, Bool.or_eq_true, Bool.and_eq_true, decide_eq_true_eq, UInt32.le_iff_toNat_le] <;> omega

/-- The report has one row for each opener, its files and directories are those of the list, the larger rows
come first, and the place of each is a directory with at least half of its handles beneath it, none deeper
having half, and of two as deep the first by name.  That is so whatever the order the maps are walked in. -/
theorem rows_partition_the_handles (walkRows : Walk (Σ _ : Option Opener, Row))
    (walkUnder : Option Opener → Walk (Σ _ : List Name, ℕ)) (handles : List Handle) :
    ∃ openers : List (Option Opener), openers.Nodup ∧
      (∀ opener, opener ∈ openers ↔ ∃ handle ∈ handles, handle.opener = opener) ∧
      List.Forall₂ (IsRow handles) openers (processes walkRows walkUnder handles) ∧
      ((processes walkRows walkUnder handles).map (·.files)).sum = handles.countP (fun handle => !handle.dir) ∧
      ((processes walkRows walkUnder handles).map (·.dirs)).sum = handles.countP (·.dir) ∧
      (processes walkRows walkUnder handles).Pairwise fun a b => b.files + b.dirs ≤ a.files + a.dirs := by
  have walked : List.Forall₂ (IsRow handles) ((walkRows.visit (rows handles).entries).map (·.1))
      ((walkRows.visit (rows handles).entries).map fun entry => entry.2.process (walkUnder entry.1) entry.1) := by
    rw [List.forall₂_map_left_iff, List.forall₂_map_right_iff, List.forall₂_same]
    rintro ⟨opener, row⟩ mem
    obtain ⟨some_, rfl⟩ := lookup_rows_eq_some.mp (lookup_eq_some_iff.mpr ((walkRows.perm _).mem_iff.mp mem))
    obtain ⟨files, dirs, -⟩ := files_add_dirs (openedBy opener handles)
    exact ⟨rfl, rfl, files, dirs, _, rfl, tightest_within some_ _⟩
  obtain ⟨openers, listed, perm⟩ := List.perm_comp_forall₂ (List.mergeSort_perm _ before) walked.flip
  have perm : openers.Perm (rows handles).keys := perm.trans ((walkRows.perm _).map _)
  have mem : ∀ opener, opener ∈ openers ↔ ∃ handle ∈ handles, handle.opener = opener := by
    intro opener
    rw [perm.mem_iff, ← AList.mem_keys, ← AList.lookup_isSome, Option.isSome_iff_exists]
    simp [lookup_rows_eq_some, openedBy]
  have distinct : openers.Nodup := perm.nodup_iff.mpr (rows handles).keys_nodup
  have all : ∀ handle ∈ handles, handle.opener ∈ openers := fun handle here => (mem _).mpr ⟨handle, here, rfl⟩
  obtain ⟨files, dirs⟩ := IsRow.counts listed.flip
  refine ⟨openers, distinct, mem, listed.flip, ?_, ?_, processes_sorted walkRows walkUnder handles⟩
  · rw [processes, files, sum_openedBy distinct all]
  · rw [processes, dirs, sum_openedBy distinct all]

end Rows

end JackalopeFs.HandleRows
