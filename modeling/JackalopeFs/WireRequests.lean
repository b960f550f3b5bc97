import JackalopeFs.IndexedCells
import JackalopeFs.KeyedTables
import JackalopeFs.TransitionRuns

/-! # The requests and replies of the protocol

The requests a client sends, with the part of each that decides how it is ordered,
resent and matched to a handle: the handles it names, the flags it opens with, the
path a reopen goes back to and the mark of a release that the client sends on its
own.  Offsets, data, modes and names play no part in that and are left out, and so
is what the replies carry beyond the file an open found.
-/

namespace JackalopeFs.WireRequests

abbrev Name := List UInt8

abbrev Path := List Name

/-- The flags of `open(2)` that the protocol looks at. -/
def oCreat : BitVec 32 := 0x40

def oExcl : BitVec 32 := 0x80

def oTrunc : BitVec 32 := 0x200

def oAppend : BitVec 32 := 0x400

def oDirectory : BitVec 32 := 0x10000

/-- A file as a reply describes it, as far as telling files apart goes. -/
structure Attr where
  ino : ℕ
  identity : ℕ
  deriving DecidableEq, Repr

structure KeyNode where
  ino : ℕ
  identity : ℕ
  deriving DecidableEq, Repr

namespace KeyNode

def of (attr : Attr) : KeyNode :=
  ⟨attr.ino, attr.identity⟩

def describes (key : KeyNode) (attr : Attr) : Bool :=
  key.ino == attr.ino && key.identity == attr.identity

end KeyNode

inductive Request where
  | lookup
  | getattr (fh : Option ℕ)
  | setattr (fh : Option ℕ)
  | readlink
  | mknod
  | mkdir
  | unlink
  | rmdir
  | symlink
  | rename
  | link
  | open (fh : ℕ) (path : Path) (flags : BitVec 32)
  | create (fh : ℕ) (parent : Path) (name : Name) (flags : BitVec 32)
  | read (fh : ℕ)
  | write (fh : ℕ)
  | release (fh : ℕ) (ordered : Bool)
  | fsync (fh : ℕ)
  | opendir (fh : ℕ) (path : Path)
  | readdir (fh : ℕ)
  | releasedir (fh : ℕ) (ordered : Bool)
  | statfs
  | setxattr (flags : BitVec 32)
  | getxattr
  | listxattr
  | removexattr
  | access
  | copyFileRange (fhIn fhOut : ℕ)
  | fallocate (fh : ℕ)
  | lseek (fh : ℕ)
  deriving DecidableEq, Repr

/-- The replies, those that only their requests' callers look into taken together as `other`. -/
inductive Response where
  | err (errno : ℤ)
  | ok
  | opened (attr : Attr)
  | other
  deriving DecidableEq, Repr

namespace Request

def fhs : Request → Option ℕ × Option ℕ
  | .getattr fh | .setattr fh => (fh, none)
  | .open fh .. | .create fh .. | .read fh | .write fh | .release fh _ | .fsync fh | .fallocate fh
  | .lseek fh | .opendir fh _ | .readdir fh | .releasedir fh _ => (some fh, none)
  | .copyFileRange fhIn fhOut => (some fhIn, some fhOut)
  | .lookup | .readlink | .mknod | .mkdir | .unlink | .rmdir | .symlink | .rename | .link | .statfs
  | .setxattr _ | .getxattr | .listxattr | .removexattr | .access => (none, none)

/-- Whether a request takes part in the session's ordering: everything but the reads, the flushes
and the kernel's own releases. -/
def changes : Request → Bool
  | .lookup | .getattr _ | .readlink | .read _ | .readdir _ | .getxattr | .listxattr | .access
  | .statfs | .lseek _ | .fsync _ => false
  | .release _ ordered | .releasedir _ ordered => ordered
  | .setattr _ | .mknod | .mkdir | .unlink | .rmdir | .symlink | .rename | .link | .open ..
  | .create .. | .write _ | .opendir .. | .setxattr _ | .removexattr | .copyFileRange ..
  | .fallocate _ => true

/-- The id under which the request has the server open something (`Ops::reserve`). -/
def opens : Request → Option ℕ
  | .open fh .. | .create fh .. | .opendir fh _ => some fh
  | _ => none

/-- The id whose handle the request has the server let go of. -/
def releases : Request → Option ℕ
  | .release fh _ | .releasedir fh _ => some fh
  | _ => none

/-- Whether the request carries owners that a connection may be unable to map. -/
def namesOwners : Request → Bool
  | .setattr _ | .setxattr _ => true
  | _ => false

theorem fhs_of_opens {req : Request} {fh : ℕ} (h : req.opens = some fh) :
    req.fhs = (some fh, none) := by
  cases req <;> simp_all [opens, fhs]

theorem fhs_of_releases {req : Request} {fh : ℕ} (h : req.releases = some fh) :
    req.fhs = (some fh, none) := by
  cases req <;> simp_all [releases, fhs]

theorem releases_of_opens {req : Request} {fh : ℕ} (h : req.opens = some fh) :
    req.releases = none := by
  cases req <;> simp_all [opens, releases]

end Request

end JackalopeFs.WireRequests
