import JackalopeFs.KernelLookups
import JackalopeFs.ListingPages
import JackalopeFs.NodeNumbers

/-! # A directory handle at the client

A page fetched from the server may be more than the kernel's buffer takes.  The rest is kept with the
handle, each entry with the cookie that yields it, and answers the kernel's next read if that goes on
there; a listing with attributes takes only what is younger than the attributes' time to live.  The
cookie at which a fetch said that the directory ended is remembered too, and a read there is answered
without the server.

Numbers come from the node table as each entry finds it; the registration of what a listing with
attributes hands out is in `KernelLookups`.  Time is a count of ticks.
-/

namespace JackalopeFs.DirectoryPages

open DirectoryListing NodeTable PathNames WireMessages

/-- Entries fetched and not yet handed to the kernel, each with the cookie that yields it. -/
abbrev DirBuffer := List (UInt64 × DirEntry)

/-- What a directory handle holds between kernel requests. -/
structure DirState where
  ino : ℕ
  buffer : DirBuffer
  fetched : ℕ
  endAt : Option UInt64
  deriving DecidableEq, Repr

namespace DirState

def new (ino now : ℕ) : DirState :=
  ⟨ino, [], now, none⟩

/-- The part of `dir_page` before its fetch: the page, if the buffer or the remembered end gives it. -/
def lookPage (s : DirState) (attrTtl now : ℕ) (offset : UInt64) (plus : Bool) :
    DirState × Option DirBuffer :=
  let fresh := !plus || now - s.fetched < attrTtl
  if offset ≠ 0 ∧ fresh = true ∧ s.buffer.head?.map Prod.fst = some offset then
    ({ s with buffer := [] }, some s.buffer)
  else
    let s := { s with buffer := [] }
    if offset ≠ 0 ∧ s.endAt = some offset then (s, some [])
    else (s, none)

/-- Where a fetch said that the directory ended, or that it did not end at its last entry. -/
def noteEnd (s : DirState) (last : Option UInt64) (atEnd : Bool) : DirState :=
  match last with
  | none => s
  | some last => { s with endAt := if atEnd then some last else none }

def fetch (s : DirState) (now : ℕ) (page : Listing) : DirState :=
  { s with fetched := now }.noteEnd (page.entries.getLast?.map DirEntry.nextOffset) page.atEnd

def stash (s : DirState) (rest : DirBuffer) : DirState :=
  { s with buffer := rest }

end DirState

def tagWithCookies {T : Type} (next : T → UInt64) : UInt64 → List T → List (UInt64 × T)
  | _, [] => []
  | cookie, e :: es => (cookie, e) :: tagWithCookies next (next e) es

def readdirFetch : ℕ := 1024 * 1024

def readdirFetchFirst : ℕ := 256 * 1024

def maxIo : ℕ := 1024 * 1024

def fetchSize (offset : UInt64) : ℕ :=
  if offset = 0 then readdirFetchFirst else readdirFetch

def seenOf (attr : Attr) : Seen where
  ino := attr.ino.toNat
  identity := ⟨attr.identity.handleType.toInt, attr.identity.handle⟩
  foreign := attr.foreign
  kind := match attr.kind with
    | .regular => .regular
    | .directory => .directory
    | .symlink => .symlink
    | .fifo => .fifo
    | .socket => .socket
    | .charDevice => .charDevice
    | .blockDevice => .blockDevice

/-- An entry as the kernel gets it; the attributes only in a listing with them, and there not for the
dots, which get a placeholder. -/
structure Handed where
  number : ℕ
  nextOffset : UInt64
  kind : WireMessages.FileKind
  name : Bytes
  attr : Option Attr
  deriving DecidableEq, Repr

/-- The kernel's buffer: each entry is a header and the name, rounded up to eight bytes. -/
structure Reply where
  maxSize : ℕ
  size : ℕ
  items : List Handed
  deriving DecidableEq, Repr

/-- The header of an entry in a plain listing, and in one with attributes. -/
def header (plus : Bool) : ℕ :=
  if plus then 152 else 24

def entrySize (plus : Bool) (nameLen : ℕ) : ℕ :=
  (header plus + nameLen + 7) / 8 * 8

namespace Reply

def new (maxSize : ℕ) : Reply :=
  ⟨maxSize, 0, []⟩

def add (reply : Reply) (plus : Bool) (item : Handed) : Option Reply :=
  let size := reply.size + entrySize plus item.name.length
  if reply.maxSize < size then none
  else some { reply with size, items := reply.items ++ [item] }

end Reply

/-- Hand entries to the kernel until its buffer is full, and then what it did not take.  `item` is what
an entry is listed as: nothing for one that is skipped, and no result where the search for a number does
not end. -/
def addAll (plus : Bool) (item : DirEntry → Option (Option Handed)) :
    Reply → DirBuffer → Option (Reply × Option DirBuffer)
  | reply, [] => some (reply, none)
  | reply, (cookie, entry) :: entries =>
    match item entry with
    | none => none
    | some none => addAll plus item reply entries
    | some (some item') =>
      match reply.add plus item' with
      | none => some (reply, some ((cookie, entry) :: entries))
      | some reply => addAll plus item reply entries

/-- What a plain page lists an entry as; the dots are directories. -/
def plainItem (nodes : Nodes) (ino parent : ℕ) (entry : DirEntry) : Option (Option Handed) :=
  match nodes.plainNumber ino parent entry.name (entry.attr.map seenOf) with
  | none => some none
  | some number => number.map fun number =>
    some ⟨number, entry.nextOffset, (entry.attr.map Attr.kind).getD .directory, entry.name, none⟩

/-- What is left of a plain page comes back to be stashed. -/
def addPlain (nodes : DirEntry → Nodes) (ino parent : ℕ) (reply : Reply) (entries : DirBuffer) :
    Option (Reply × DirBuffer) :=
  (addAll false (fun entry => plainItem (nodes entry) ino parent entry) reply entries).map
    fun (reply, rest) => (reply, rest.getD [])

def plusItem (nodes : Nodes) (ino : ℕ) (entry : DirEntry) : Option (Option Handed) :=
  if entry.name = [46] then some (some ⟨ino, entry.nextOffset, .directory, entry.name, none⟩)
  else if entry.name = [46, 46] then
    some (some ⟨nodes.parentOf ino, entry.nextOffset, .directory, entry.name, none⟩)
  else
    match entry.attr, Name.new entry.name with
    | some attr, .ok _ => (nodes.idFor (seenOf attr)).map fun id =>
      some ⟨id, entry.nextOffset, attr.kind, entry.name, some attr⟩
    | _, _ => some none

/-- What is left of a page with attributes is stashed if the kernel's buffer got full. -/
def addPlus (nodes : DirEntry → Nodes) (ino : ℕ) : Reply → DirBuffer → Option (Reply × Option DirBuffer) :=
  addAll true fun entry => plusItem (nodes entry) ino entry

/-- A read of the kernel: a plain one or one with attributes, into a buffer with room for any one entry
of the directory, and what it meets; `fetch` is the request to the server, if it is not lost. -/
structure Read (dir : Directory) where
  plus : Bool
  maxSize : ℕ
  started : ℕ
  fetched : ℕ
  fetch : Option (Call dir)
  nodes : DirEntry → Nodes
  parent : ℕ
  room : ∀ raw ∈ dir.listing, entrySize plus raw.name.length ≤ maxSize

section Reading

variable {dir : Directory}

def dirPage (attrTtl : ℕ) (s : DirState) (offset : UInt64) (r : Read dir) :
    DirState × Option DirBuffer :=
  match s.lookPage attrTtl r.started offset r.plus with
  | (s, some page) => (s, some page)
  | (s, none) =>
    match r.fetch with
    | none => (s, none)
    | some call =>
      match readDir call offset (min (fetchSize offset) maxIo) with
      | .error _ => (s, none)
      | .ok page => (s.fetch r.fetched page, some (tagWithCookies DirEntry.nextOffset offset page.entries))

/-- A `readdir` or `readdirplus`: what the kernel gets, if it gets an answer. -/
def read (attrTtl : ℕ) (s : DirState) (offset : UInt64) (r : Read dir) :
    DirState × Option (List Handed) :=
  match dirPage attrTtl s offset r with
  | (s, none) => (s, none)
  | (s, some page) =>
    if r.plus then
      match addPlus r.nodes s.ino (.new r.maxSize) page with
      | none => (s, none)
      | some (reply, none) => (s, some reply.items)
      | some (reply, some rest) => (s.stash rest, some reply.items)
    else
      match addPlain r.nodes s.ino r.parent (.new r.maxSize) page with
      | none => (s, none)
      | some (reply, rest) => (s.stash rest, some reply.items)

/-- The answers to these reads, each at the cookie of the last entry of the answer before. -/
def readAll (attrTtl : ℕ) : DirState → UInt64 → List (Read dir) → List (List Handed)
  | _, _, [] => []
  | s, offset, r :: reads =>
    match read attrTtl s offset r with
    | (s, none) => readAll attrTtl s offset reads
    | (s, some items) =>
      items :: readAll attrTtl s ((items.getLast?.map Handed.nextOffset).getD offset) reads

end Reading

end JackalopeFs.DirectoryPages
