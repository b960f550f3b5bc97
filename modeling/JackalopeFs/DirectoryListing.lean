import JackalopeFs.LittleEndian
import JackalopeFs.WireMessages

/-! # Reading a directory in pages

A page is read from the kernel's own cookies: the server seeks to the one it is given, asks for buffers
of `linux_dirent64` records until its budget is used up or the directory ends, and leaves out what it
cannot describe.  The kernel is a list of records and says nothing of how many it puts into a buffer; a
buffer, a description and the seek may fail.  Log lines are left out.
-/

namespace JackalopeFs.DirectoryListing

open LittleEndian PathNames WireMessages

abbrev Errno := Int32

def enoent : Errno := 2

def enomem : Errno := 12

def exdev : Errno := 18

def enfile : Errno := 23

def emfile : Errno := 24

def estale : Errno := 116

/-- What the server takes from a record: the name, and the cookie of the entry after it. -/
structure RawDirent where
  off : UInt64
  name : Bytes
  deriving DecidableEq, Repr

/-- The bytes of a record before its name: inode number, cookie, length and type. -/
def headerLen : ℕ := 8 + 8 + 2 + 1

/-- The records of a buffer that `getdents64` filled.  A malformed one ends parsing. -/
def parse (buf : Bytes) : List RawDirent :=
  if buf.length < headerLen then []
  else
    let off := UInt64.ofNat (ofBytes ((buf.drop 8).take 8))
    let reclen := ofBytes ((buf.drop 16).take 2)
    if reclen < headerLen ∨ buf.length < reclen then []
    else
      let nameArea := (buf.take reclen).drop headerLen
      ⟨off, nameArea.takeWhile (· != 0)⟩ :: parse (buf.drop reclen)
  termination_by buf.length
  decreasing_by
    simp only [List.length_drop]
    unfold headerLen at *
    omega

/-- The wire size of one directory entry, by which a page is budgeted. -/
def dirEntryBytes (nameLen : ℕ) (attr : Option Attr) : ℕ :=
  let attrBytes := match attr with
    | none => 0
    | some attr =>
      let names := match attr.xattrNames with
        | none => 0
        | some names => (names.map fun n => 8 + (n.length + 7) / 8 * 8).sum
      128 + (attr.identity.handle.length + 7) / 8 * 8 + names
  32 + (nameLen + 7) / 8 * 8 + attrBytes

/-- A page of a directory; `atEnd` if the directory ended with its last entry. -/
structure Listing where
  entries : List DirEntry
  atEnd : Bool
  deriving DecidableEq, Repr

/-- Whether a listing goes on without an entry that could not be described.  It does not where the
server ran out of something. -/
def entryFailure (e : Errno) : Except Errno Unit :=
  if e = enoent ∨ e = estale then .ok ()
  else if e = exdev then .ok ()
  else if e = emfile ∨ e = enfile ∨ e = enomem then .error e
  else .ok ()

def dots (name : Bytes) : Bool :=
  name = [46] || name = [46, 46]

def dirEntry (attrEntry : Name → Except Errno Attr) (raw : RawDirent) :
    Except Errno (Option DirEntry) :=
  if dots raw.name then .ok (some ⟨raw.off, raw.name, none⟩)
  else
    match Name.new raw.name with
    | .error _ => .ok none
    | .ok component =>
      match attrEntry component with
      | .ok attr => .ok (some ⟨raw.off, raw.name, some attr⟩)
      | .error e =>
        match entryFailure e with
        | .error e => .error e
        | .ok () => .ok none

/-- Add the entries of one buffer to a page; the flag says that the budget is used up. -/
def addEntries (attrEntry : Name → Except Errno Attr) (maxBytes : ℕ) :
    List RawDirent → List DirEntry → ℕ → Except Errno (List DirEntry × ℕ × Bool)
  | [], entries, used => .ok (entries, used, false)
  | raw :: raws, entries, used =>
    match dirEntry attrEntry raw with
    | .error e => .error e
    | .ok none => addEntries attrEntry maxBytes raws entries used
    | .ok (some entry) =>
      let used := used + dirEntryBytes entry.name.length entry.attr
      if maxBytes ≤ used then .ok (entries ++ [entry], used, true)
      else addEntries attrEntry maxBytes raws (entries ++ [entry]) used

/-- A record as the kernel writes it: after the name a NUL, and then whatever fills it up. -/
structure Dirent where
  ino : UInt64
  off : UInt64
  type : UInt8
  name : Bytes
  padding : Bytes
  noNul : 0 ∉ name
  short : headerLen + (name.length + 1 + padding.length) < 256 ^ 2

namespace Dirent

def raw (d : Dirent) : RawDirent :=
  ⟨d.off, d.name⟩

def reclen (d : Dirent) : ℕ :=
  headerLen + (d.name.length + 1 + d.padding.length)

def bytes (d : Dirent) : Bytes :=
  toBytes 8 d.ino.toNat ++ (toBytes 8 d.off.toNat ++ (toBytes 2 d.reclen ++
    (d.type :: (d.name ++ 0 :: d.padding))))

end Dirent

/-- A directory that does not change, open at the server: its records, what can be described of them,
and where a seek leaves the position.  Cookies seek exactly, so they are distinct and none is 0. -/
structure Directory where
  records : List Dirent
  present : Name → Bool
  seek : UInt64 → Except Errno (List Dirent)
  seek_start : seek 0 = .ok records
  seek_after : ∀ front record back, records = front ++ record :: back → seek record.off = .ok back

/-- What one request meets: how many records a buffer holds after its first, or why there is none, and
what a name's description gives.  A name that is there is described unless the server lacks something
for it. -/
structure Call (dir : Directory) where
  more : List Dirent → Except Errno ℕ
  attrEntry : Name → Except Errno Attr
  described : ∀ name attr, attrEntry name = .ok attr → dir.present name = true
  skipped : ∀ name e, attrEntry name = .error e → entryFailure e = .ok () → dir.present name = false

section Reading

variable {dir : Directory}

def getdents64 (call : Call dir) (position : List Dirent) : Except Errno (Bytes × List Dirent) :=
  match call.more position with
  | .error e => .error e
  | .ok n =>
    match position with
    | [] => .ok ([], [])
    | record :: records =>
      .ok (((record :: records.take n).map Dirent.bytes).flatten, records.drop n)

theorem length_of_getdents64 {call : Call dir} {position later : List Dirent} {buf : Bytes}
    (filled : getdents64 call position = .ok (buf, later)) (some : buf ≠ []) :
    later.length < position.length := by
  unfold getdents64 at filled
  cases more : call.more position with
  | error =>
    rw [more] at filled
    cases filled
  | ok =>
    rw [more] at filled
    cases position with
    | nil =>
      cases filled
      exact absurd rfl some
    | cons =>
      cases filled
      simp only [List.length_drop, List.length_cons]
      omega

/-- Collect entries until the budget is used up or the directory ends. -/
def readLoop (call : Call dir) (maxBytes : ℕ) (position : List Dirent) (entries : List DirEntry)
    (used : ℕ) : Except Errno Listing :=
  match _filled : getdents64 call position with
  | .error e => .error e
  | .ok (buf, later) =>
    if _empty : buf = [] then .ok ⟨entries, true⟩
    else
      match addEntries call.attrEntry maxBytes (parse buf) entries used with
      | .error e => .error e
      | .ok (entries, _, true) => .ok ⟨entries, false⟩
      | .ok (entries, used, false) => readLoop call maxBytes later entries used
  termination_by position.length
  decreasing_by exact length_of_getdents64 _filled _empty

def readDir (call : Call dir) (offset : UInt64) (maxBytes : ℕ) : Except Errno Listing :=
  match dir.seek offset with
  | .error e => .error e
  | .ok position => readLoop call maxBytes position [] 0

end Reading

end JackalopeFs.DirectoryListing
