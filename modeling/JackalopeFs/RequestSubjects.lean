import JackalopeFs.PathGrammar
import JackalopeFs.PlainText
import JackalopeFs.TextBytes

/-! # What a request is about, in words

A log line names a request by its operation and the files it is about: paths from the
export root, handles with their offsets and sizes.  A file's name may hold any byte but a
slash and a zero, and the words show it as it is.  So a line feed in the words comes from
a name of the request and from nowhere else.
-/

namespace JackalopeFs.RequestSubjects

open PathNames PlainText WireMessages
open PathGrammar (appendNames toOsString)
open TextBytes (fromUtf8Lossy mem_of_mem_fromUtf8Lossy)

def opName : Request → String
  | .lookup .. => "lookup"
  | .getattr .. => "getattr"
  | .setattr .. => "setattr"
  | .readlink .. => "readlink"
  | .mknod .. => "mknod"
  | .mkdir .. => "mkdir"
  | .unlink .. => "unlink"
  | .rmdir .. => "rmdir"
  | .symlink .. => "symlink"
  | .rename .. => "rename"
  | .link .. => "link"
  | .open .. => "open"
  | .create .. => "create"
  | .read .. => "read"
  | .write .. => "write"
  | .release .. => "release"
  | .fsync .. => "fsync"
  | .opendir .. => "opendir"
  | .readdir .. => "readdir"
  | .releasedir .. => "releasedir"
  | .statfs .. => "statfs"
  | .setxattr .. => "setxattr"
  | .getxattr .. => "getxattr"
  | .listxattr .. => "listxattr"
  | .removexattr .. => "removexattr"
  | .access .. => "access"
  | .copyFileRange .. => "copy_file_range"
  | .fallocate .. => "fallocate"
  | .lseek .. => "lseek"

/-- A path as a log shows it: from the export root, with a leading slash. -/
def shown (path : Path) : Text :=
  '/' :: fromUtf8Lossy (toOsString path)

def entryAt (parent : Path) (name : Name) : Text :=
  shown parent ++ (if parent.names = [] then [] else ['/']) ++ fromUtf8Lossy name.bytes

def handle (fh : UInt64) : Text :=
  "fh=".toList ++ decimal fh.toNat

def pathOrFh : Option Path → Option UInt64 → Text
  | some path, some fh => shown path ++ [' '] ++ handle fh
  | some path, none => shown path
  | none, some fh => handle fh
  | none, none => "nothing".toList

def handleAt (fh offset : UInt64) : Text :=
  handle fh ++ " offset=".toList ++ decimal offset.toNat

def subject : Request → Text
  | .lookup parent name | .mknod parent name _ _ | .mkdir parent name _ | .unlink parent name
  | .rmdir parent name | .symlink parent name _ => entryAt parent name
  | .create fh parent name _ _ => entryAt parent name ++ [' '] ++ handle fh
  | .getattr path fh | .setattr path fh _ => pathOrFh path fh
  | .readlink path | .statfs path | .setxattr path _ _ _ | .getxattr path _ | .listxattr path
  | .removexattr path _ | .access path _ => shown path
  | .open fh path _ | .opendir fh path => shown path ++ [' '] ++ handle fh
  | .rename parent name newparent newname _ =>
    entryAt parent name ++ " -> ".toList ++ entryAt newparent newname
  | .link path newparent newname => shown path ++ " -> ".toList ++ entryAt newparent newname
  | .release fh _ | .releasedir fh _ | .fsync fh _ => handle fh
  | .read fh offset size => handleAt fh offset ++ " size=".toList ++ decimal size.toNat
  | .write fh offset data => handleAt fh offset ++ " size=".toList ++ decimal data.length
  | .readdir fh offset maxBytes => handleAt fh offset ++ " size=".toList ++ decimal maxBytes.toNat
  | .fallocate fh offset len _ => handleAt fh offset ++ " len=".toList ++ decimal len.toNat
  | .lseek fh offset _ => handleAt fh offset
  | .copyFileRange fhIn offsetIn fhOut offsetOut len =>
    handleAt fhIn offsetIn ++ " -> ".toList ++ handleAt fhOut offsetOut ++ " len=".toList ++
      decimal len.toNat

def kindName : Response → String
  | .err _ => "Err"
  | .entry _ => "Entry"
  | .attr _ => "Attr"
  | .readlink _ => "Readlink"
  | .ok => "Ok"
  | .opened _ => "Opened"
  | .read _ => "Read"
  | .written _ => "Written"
  | .readdir .. => "Readdir"
  | .statfs _ => "Statfs"
  | .xattr _ => "Xattr"
  | .copied _ => "Copied"
  | .seeked _ => "Seeked"

section Names

def namesOf : Request → List Name
  | .lookup parent name | .mknod parent name _ _ | .mkdir parent name _ | .unlink parent name
  | .rmdir parent name | .symlink parent name _ | .create _ parent name _ _ =>
    parent.names ++ [name]
  | .getattr path _ | .setattr path _ _ => path.elim [] Path.names
  | .readlink path | .statfs path | .setxattr path _ _ _ | .getxattr path _ | .listxattr path
  | .removexattr path _ | .access path _ | .open _ path _ | .opendir _ path => path.names
  | .rename parent name newparent newname _ =>
    (parent.names ++ [name]) ++ (newparent.names ++ [newname])
  | .link path newparent newname => path.names ++ (newparent.names ++ [newname])
  | .release .. | .releasedir .. | .fsync .. | .read .. | .write .. | .readdir .. | .fallocate ..
  | .lseek .. | .copyFileRange .. => []

def Unbroken (names : List Name) : Prop :=
  ∀ name ∈ names, (10 : UInt8) ∉ name.bytes

theorem unbroken_append (a b : List Name) : Unbroken (a ++ b) ↔ Unbroken a ∧ Unbroken b := by
  simp [Unbroken, or_imp, forall_and]

theorem oneLine_fromUtf8Lossy {bytes : Bytes} (free : (10 : UInt8) ∉ bytes) :
    OneLine (fromUtf8Lossy bytes) := by
  intro mem
  obtain ⟨b, here, same⟩ := mem_of_mem_fromUtf8Lossy (by decide) (by decide) mem
  have feed : b = 10 := UInt8.toNat_inj.mp same
  exact free (feed ▸ here)

theorem mem_appendNames {b : UInt8} {out : Bytes} {i : ℕ} {names : List Name}
    (mem : b ∈ appendNames out i names) : b ∈ out ∨ b = 47 ∨ ∃ name ∈ names, b ∈ name.bytes := by
  induction names generalizing out i with
  | nil => exact .inl mem
  | cons name _ ih =>
    obtain here | slash | ⟨later, among, here⟩ := ih mem
    · obtain here | here := List.mem_append.mp here
      · split_ifs at here
        · obtain here | slash := List.mem_append.mp here
          · exact .inl here
          · exact .inr (.inl (List.mem_singleton.mp slash))
        · exact .inl here
      · exact .inr (.inr ⟨name, List.mem_cons_self, here⟩)
    · exact .inr (.inl slash)
    · exact .inr (.inr ⟨later, List.mem_cons_of_mem _ among, here⟩)

theorem oneLine_shown {path : Path} (free : Unbroken path.names) : OneLine (shown path) := by
  have bytes : (10 : UInt8) ∉ toOsString path := by
    intro mem
    obtain here | slash | ⟨name, among, here⟩ := mem_appendNames mem
    · exact absurd here List.not_mem_nil
    · exact absurd slash (by decide)
    · exact free name among here
  exact (oneLine_append ['/'] _).mpr ⟨by decide, oneLine_fromUtf8Lossy bytes⟩

theorem oneLine_entryAt {parent : Path} {name : Name} (free : Unbroken (parent.names ++ [name])) :
    OneLine (entryAt parent name) := by
  obtain ⟨above, last⟩ := (unbroken_append _ _).mp free
  rw [entryAt, oneLine_append, oneLine_append]
  refine ⟨⟨oneLine_shown above, ?_⟩, oneLine_fromUtf8Lossy (last name List.mem_cons_self)⟩
  split_ifs <;> decide

@[simp] theorem oneLine_handle (fh : UInt64) : OneLine (handle fh) :=
  (oneLine_append _ _).mpr ⟨by decide, oneLine_decimal _⟩

@[simp] theorem oneLine_handleAt (fh offset : UInt64) : OneLine (handleAt fh offset) := by
  rw [handleAt, oneLine_append, oneLine_append]
  exact ⟨⟨oneLine_handle fh, by decide⟩, oneLine_decimal _⟩

theorem oneLine_pathOrFh {path : Option Path} {fh : Option UInt64}
    (free : Unbroken (path.elim [] Path.names)) : OneLine (pathOrFh path fh) := by
  have gap : OneLine [' '] := by decide
  match path, fh with
  | some path, some fh =>
    have named : OneLine (shown path) := oneLine_shown free
    simp only [pathOrFh, oneLine_append, gap, named, oneLine_handle, and_self]
  | some path, none => exact oneLine_shown free
  | none, some fh => exact oneLine_handle fh
  | none, none => decide

theorem oneLine_opName (req : Request) : OneLine (opName req).toList := by
  cases req <;> simp only [opName] <;> decide

theorem oneLine_kindName (resp : Response) : OneLine (kindName resp).toList := by
  cases resp <;> simp only [kindName] <;> decide

/-- The words about a request have a line feed only if one of its names has. -/
theorem oneLine_subject {req : Request} (free : Unbroken (namesOf req)) :
    OneLine (subject req) := by
  have gap : OneLine [' '] := by decide
  have arrow : OneLine " -> ".toList := by decide
  have size : OneLine " size=".toList := by decide
  have len : OneLine " len=".toList := by decide
  cases req with
  | lookup | mknod | mkdir | unlink | rmdir | symlink => exact oneLine_entryAt free
  | create => simp only [subject, oneLine_append, gap, oneLine_entryAt free, oneLine_handle, and_self]
  | getattr | setattr => exact oneLine_pathOrFh free
  | «open» | opendir =>
    simp only [subject, oneLine_append, gap, oneLine_shown free, oneLine_handle, and_self]
  | rename =>
    obtain ⟨old, new⟩ := (unbroken_append _ _).mp free
    simp only [subject, oneLine_append, arrow, oneLine_entryAt old, oneLine_entryAt new, and_self]
  | link =>
    obtain ⟨old, new⟩ := (unbroken_append _ _).mp free
    simp only [subject, oneLine_append, arrow, oneLine_shown old, oneLine_entryAt new, and_self]
  | release | releasedir | fsync => exact oneLine_handle _
  | lseek => exact oneLine_handleAt _ _
  | read | write | readdir | fallocate | copyFileRange =>
    simp only [subject, oneLine_append, arrow, size, len, oneLine_handleAt, oneLine_decimal,
      and_self]
  | _ => exact oneLine_shown free

end Names

end JackalopeFs.RequestSubjects
