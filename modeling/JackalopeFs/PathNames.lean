import JackalopeFs.IndexedCells
import JackalopeFs.KeyedTables
import JackalopeFs.TransitionRuns

/-! # Names and paths

A name is a validated path component and a path a sequence of names whose joined form
is not too long; neither can be built otherwise.  Paths are relative to the export
root, which is the empty one.
-/

namespace JackalopeFs.PathNames

def nameMax : ℕ := 255

def pathMax : ℕ := 4096

inductive ErrorName where
  | empty
  | tooLong
  | badByte
  | dot
  deriving DecidableEq, Repr

/-- What is wrong with the bytes of a name, if anything. -/
def ErrorName.of (bytes : List UInt8) : Option ErrorName :=
  if bytes.isEmpty then some .empty
  else if nameMax < bytes.length then some .tooLong
  else if bytes.any fun b => b == 47 || b == 0 then some .badByte
  else if bytes = [46] ∨ bytes = [46, 46] then some .dot
  else none

structure Name where
  bytes : List UInt8
  valid : ErrorName.of bytes = none
  deriving DecidableEq, Repr

namespace Name

def new (bytes : List UInt8) : Except ErrorName Name :=
  match h : ErrorName.of bytes with
  | some error => .error error
  | none => .ok ⟨bytes, h⟩

theorem length_le (name : Name) : name.bytes.length ≤ nameMax := by
  have valid := name.valid
  unfold ErrorName.of at valid
  split_ifs at valid
  omega

theorem new_eq_ok {bytes : List UInt8} {name : Name} : new bytes = .ok name ↔ name.bytes = bytes := by
  constructor
  · intro made
    unfold new at made
    split at made
    · cases made
    · cases made
      rfl
  · rintro rfl
    unfold new
    split
    · rename_i error wrong
      have valid := name.valid
      rw [wrong] at valid
      cases valid
    · rfl

end Name

def byteLen (names : List Name) : ℕ :=
  (names.map fun name => name.bytes.length).sum + (names.length - 1)

structure Path where
  names : List Name
  short : byteLen names ≤ pathMax
  deriving DecidableEq, Repr

namespace Path

def root : Path :=
  ⟨[], by decide⟩

/-- The path through these names, unless it is too long. -/
def fromNames (names : List Name) : Option Path :=
  if h : byteLen names ≤ pathMax then some ⟨names, h⟩ else none

def isRoot (path : Path) : Bool :=
  path.names.isEmpty

def join (path : Path) (name : Name) : Option Path :=
  fromNames (path.names ++ [name])

theorem fromNames_eq_some {names : List Name} {path : Path} (h : fromNames names = some path) :
    path.names = names := by
  unfold fromNames at h
  split_ifs at h
  cases h
  rfl

theorem fromNames_names (path : Path) : fromNames path.names = some path := by
  simp [fromNames, path.short]

theorem ext_names {p q : Path} (h : p.names = q.names) : p = q := by
  obtain ⟨names, _⟩ := p
  cases h
  rfl

end Path

theorem byteLen_append_le (front back : List Name) : byteLen front ≤ byteLen (front ++ back) := by
  simp only [byteLen, List.map_append, List.sum_append, List.length_append]
  omega

namespace Path

def upTo (path : Path) (depth : ℕ) : Path :=
  ⟨path.names.take depth, by
    have le := byteLen_append_le (path.names.take depth) (path.names.drop depth)
    rw [List.take_append_drop] at le
    exact le.trans path.short⟩

/-- Parent path and last component, or nothing for the root. -/
def splitLast (path : Path) : Option (Path × Name) :=
  path.names.getLast?.map fun name => (path.upTo (path.names.length - 1), name)

end Path

end JackalopeFs.PathNames
