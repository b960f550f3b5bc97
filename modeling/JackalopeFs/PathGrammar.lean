import JackalopeFs.WireRoundTrip

/-! # One grammar of paths

A path comes off the wire as a list of byte strings and goes to the kernel as one string
with slashes between its names.  The parser stops early, at too many components and at a
running length, but what it takes is decided by the names and by the length of the whole
path alone.  The string determines the path: its names are what stands between slashes.
-/

namespace JackalopeFs.PathGrammar

open List PathNames WireConversions
open WireMessages (Bytes)

section Rendering

/-- Append names to `out`, the first of them number `i` of its path. -/
def appendNames (out : Bytes) (i : ℕ) : List Name → Bytes
  | [] => out
  | name :: rest =>
    let out := if 0 < i then out ++ [47] else out
    appendNames (out ++ name.bytes) (i + 1) rest

/-- Joined form with no leading slash; empty for the root. -/
def toOsString (path : Path) : Bytes :=
  appendNames [] 0 path.names

theorem appendNames_succ (out : Bytes) (i : ℕ) (names : List Name) :
    appendNames out (i + 1) names = out ++ names.flatMap fun name => 47 :: name.bytes := by
  induction names generalizing out i with
  | nil => simp [appendNames]
  | cons _ _ ih => simp [appendNames, ih]

theorem toOsString_eq (path : Path) :
    toOsString path = [47].intercalate (path.names.map Name.bytes) := by
  have joined : ∀ (first : Name) (rest : List Name),
      first.bytes ++ (rest.flatMap fun name => 47 :: name.bytes) =
        [47].intercalate (first.bytes :: rest.map Name.bytes) := by
    intro first rest
    induction rest generalizing first with
    | nil => simp
    | cons name _ ih =>
      rw [map_cons, intercalate_cons_cons, ← ih name]
      simp
  unfold toOsString
  cases path.names with
  | nil => rfl
  | cons =>
    simp only [appendNames, lt_irrefl, if_false, nil_append, appendNames_succ, joined,
      map_cons]

theorem length_toOsString (path : Path) : (toOsString path).length = byteLen path.names := by
  unfold toOsString byteLen
  cases path.names with
  | nil => rfl
  | cons =>
    simp only [appendNames, lt_irrefl, if_false, nil_append, appendNames_succ, length_append,
      length_flatMap, length_cons, sum_lengths, map_cons, sum_cons]
    omega

theorem Name.clean (name : Name) :
    name.bytes ≠ [] ∧ name.bytes ≠ [46] ∧ name.bytes ≠ [46, 46] ∧ 0 ∉ name.bytes ∧ 47 ∉ name.bytes := by
  have valid := name.valid
  unfold ErrorName.of at valid
  split_ifs at valid with empty long bad dot
  simp only [any_eq_true, not_exists, not_and, Bool.or_eq_true, beq_iff_eq, not_or] at bad
  refine ⟨fun none_ => empty (isEmpty_iff.mpr none_), fun one => dot (.inl one),
    fun two => dot (.inr two), fun nul => (bad 0 nul).2 rfl, fun slash => (bad 47 slash).1 rfl⟩

theorem splitOn_toOsString {path : Path} (some_ : path.names ≠ []) :
    (toOsString path).splitOn 47 = path.names.map Name.bytes := by
  rw [toOsString_eq]
  refine splitOn_intercalate 47 ?_ (by simpa using some_)
  intro part mem
  obtain ⟨name, -, rfl⟩ := mem_map.mp mem
  exact (Name.clean name).2.2.2.2

theorem toOsString_eq_nil {path : Path} : toOsString path = [] ↔ path.names = [] := by
  constructor
  · intro empty
    have length := length_toOsString path
    have counted := length_le_sum path.names
    rw [empty, length_nil] at length
    unfold byteLen at length
    exact length_eq_zero_iff.mp (by omega)
  · intro none_
    unfold toOsString
    rw [none_]
    rfl

theorem Name.ext_bytes {a b : Name} (same : a.bytes = b.bytes) : a = b := by
  cases a
  cases same
  rfl

theorem toOsString_injective : Function.Injective toOsString := by
  intro p q same
  have parts : p.names.map Name.bytes = q.names.map Name.bytes := by
    by_cases root : p.names = []
    · rw [root, toOsString_eq_nil.mp (same ▸ toOsString_eq_nil.mpr root)]
    · rw [← splitOn_toOsString root, same, splitOn_toOsString]
      exact fun none_ => root (toOsString_eq_nil.mp (same ▸ toOsString_eq_nil.mpr none_))
  exact Path.ext_names (map_injective_iff.mpr (fun _ _ => Name.ext_bytes) parts)

end Rendering

section Parsing

theorem bytes_of_parseName {bytes : Bytes} {name : Name} (parsed : parseName bytes = .ok name) :
    name.bytes = bytes := by
  unfold parseName at parsed
  cases new : Name.new bytes with
  | error =>
    rw [new] at parsed
    cases parsed
  | ok =>
    rw [new] at parsed
    cases parsed
    exact Name.new_eq_ok.mp new

variable {list : List Bytes}

theorem map_bytes_of_parseNames {joined : ℕ} {names : List Name}
    (parsed : parseNames joined list = .ok names) : names.map Name.bytes = list := by
  induction list generalizing joined names with
  | nil =>
    cases parsed
    rfl
  | cons item rest ih =>
    rw [parseNames] at parsed
    cases first : parseName item with
    | error =>
      rw [first] at parsed
      cases parsed
    | ok name =>
      simp only [first, bind, Except.bind] at parsed
      split_ifs at parsed
      cases later : parseNames (joined + (name.bytes.length + 1)) rest with
      | error =>
        rw [later] at parsed
        cases parsed
      | ok =>
        rw [later] at parsed
        cases parsed
        rw [map_cons, bytes_of_parseName first, ih later]

/-- Names are those of a list of byte strings exactly if each of these is one. -/
theorem forall₂_new_iff {names : List Name} :
    List.Forall₂ (fun item name => Name.new item = .ok name) list names ↔
      names.map Name.bytes = list := by
  have same : list = names.map Name.bytes ↔ List.Forall₂ (fun item name => item = name.bytes) list names := by
    rw [← forall₂_map_right_iff, forall₂_eq_eq_eq]
  simp only [Name.new_eq_ok]
  rw [eq_comm, same]
  simp only [eq_comm]

/-- A list is parsed exactly as the path with its elements for names. -/
theorem parsePath_eq_ok_iff {path : Path} :
    parsePath list = .ok path ↔ path.names.map Name.bytes = list := by
  constructor
  · intro parsed
    unfold parsePath at parsed
    split_ifs at parsed
    cases read : parseNames 0 list with
    | error =>
      rw [read] at parsed
      cases parsed
    | ok names =>
      simp only [read, bind, Except.bind] at parsed
      split at parsed
      · rename_i whole made
        cases parsed
        rw [Path.fromNames_eq_some made, map_bytes_of_parseNames read]
      · cases parsed
  · rintro rfl
    exact parsePath_buildPath path

end Parsing

/-- The parser takes exactly the lists of names that make a path, as that path; the joined form
determines the path and has its names between its slashes; and no path that was taken has a component
there that is empty, a dot, two dots or holds a zero byte, or is longer than the limit. -/
theorem one_path_grammar :
    (∀ (list : List Bytes) (path : Path), parsePath list = .ok path ↔
      ∃ names, List.Forall₂ (fun item name => Name.new item = .ok name) list names ∧
        Path.fromNames names = some path) ∧
    (∀ (list : List Bytes) (path : Path), parsePath list = .ok path → path.names.map Name.bytes = list) ∧
    Function.Injective toOsString ∧
    (∀ path : Path, toOsString path ≠ [] → (toOsString path).splitOn 47 = path.names.map Name.bytes) ∧
    ∀ (list : List Bytes) (path : Path), parsePath list = .ok path →
      (toOsString path).length ≤ pathMax ∧
        (toOsString path ≠ [] → ∀ part ∈ (toOsString path).splitOn 47,
          part ≠ [] ∧ part ≠ [46] ∧ part ≠ [46, 46] ∧ 0 ∉ part) := by
  have split : ∀ path : Path, toOsString path ≠ [] →
      (toOsString path).splitOn 47 = path.names.map Name.bytes := fun path some_ =>
    splitOn_toOsString fun none_ => some_ (toOsString_eq_nil.mpr none_)
  refine ⟨fun list path => ?_, fun list path => parsePath_eq_ok_iff.mp, toOsString_injective, split,
    fun list path _ => ⟨?_, fun some_ part mem => ?_⟩⟩
  · rw [parsePath_eq_ok_iff]
    constructor
    · intro same
      exact ⟨path.names, forall₂_new_iff.mpr same, Path.fromNames_names path⟩
    · rintro ⟨names, valid, made⟩
      rw [Path.fromNames_eq_some made]
      exact forall₂_new_iff.mp valid
  · rw [length_toOsString]
    exact path.short
  · rw [split path some_] at mem
    obtain ⟨name, -, rfl⟩ := List.mem_map.mp mem
    have clean := Name.clean name
    exact ⟨clean.1, clean.2.1, clean.2.2.1, clean.2.2.2.1⟩

/-- A path of two names, taken and rendered. -/
theorem one_path_grammar_two_names :
    ∃ path, parsePath [[117], [118]] = .ok path ∧ path.names.map Name.bytes = [[117], [118]] ∧
      (toOsString path).splitOn 47 = [[117], [118]] := by
  have parsed : parsePath [[117], [118]] =
      .ok ⟨[⟨[117], by decide⟩, ⟨[118], by decide⟩], by decide⟩ := by rfl
  exact ⟨_, parsed, one_path_grammar.2.1 _ _ parsed, one_path_grammar.2.2.2.1 _ (by decide)⟩

end JackalopeFs.PathGrammar
