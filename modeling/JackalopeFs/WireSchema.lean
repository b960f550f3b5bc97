import JackalopeFs.WireMessages

/-! # The messages as the schema has them

What a Cap'n Proto builder is given and a reader of the same message returns, one type
for each struct of the schema.  Byte fields are whatever bytes were written, lengths and
contents unchecked; an enum is the number on the wire; a union says which member is set
or that its discriminant is none the schema knows.  A pointer that was never set reads
as an empty one, so the two are one here, except for the notice of an event, whose
presence a reader asks for.
-/

namespace JackalopeFs.WireSchema

open WireMessages (Bytes)

inductive Choice (α : Type) where
  | none
  | some (value : α)
  | notInSchema (discriminant : UInt16)
  deriving DecidableEq, Repr

abbrev Path := List Bytes

structure TimeSpec where
  sec : Int64
  nsec : UInt32
  deriving DecidableEq, Repr

structure Identity where
  handleType : Int32
  handle : Bytes
  deriving DecidableEq, Repr

structure Attr where
  ino : UInt64
  size : UInt64
  blocks : UInt64
  atime : TimeSpec
  mtime : TimeSpec
  ctime : TimeSpec
  kind : UInt16
  perm : UInt16
  nlink : UInt32
  uid : UInt32
  gid : UInt32
  rdev : UInt64
  blksize : UInt32
  xattrNames : Choice (List Bytes)
  identity : Identity
  foreign : Bool
  deriving DecidableEq, Repr

structure Statfs where
  blocks : UInt64
  bfree : UInt64
  bavail : UInt64
  files : UInt64
  ffree : UInt64
  bsize : UInt32
  namelen : UInt32
  frsize : UInt32
  deriving DecidableEq, Repr

structure DirEntry where
  nextOffset : UInt64
  name : Bytes
  attr : Choice Attr
  deriving DecidableEq, Repr

inductive TimeOrNow where
  | time (t : TimeSpec)
  | now
  | notInSchema (discriminant : UInt16)
  deriving DecidableEq, Repr

structure SetAttr where
  mode : Choice UInt32
  uid : Choice UInt32
  gid : Choice UInt32
  size : Choice UInt64
  atime : Choice TimeOrNow
  mtime : Choice TimeOrNow
  deriving DecidableEq, Repr

inductive Auth where
  | anonymous
  | token (token : Bytes)
  | notInSchema (discriminant : UInt16)
  deriving DecidableEq, Repr

structure Resume where
  sessionId : UInt64
  token : Bytes
  deriving DecidableEq, Repr

structure Hello where
  revision : UInt64
  auth : Auth
  resume : Choice Resume
  deriving DecidableEq, Repr

inductive HelloReply where
  | ack (sessionId : UInt64) (resumeToken : Bytes) (resumed : Bool) (rootIno : UInt64)
      (rootIdentity : Identity) (uid gid : UInt32)
  | reject (reason : Bytes)
  | revisionMismatch (revision : UInt64)
  | notInSchema (discriminant : UInt16)
  deriving DecidableEq, Repr

inductive Request where
  | lookup (parent : Path) (name : Bytes)
  | getattr (path : Choice Path) (fh : Choice UInt64)
  | setattr (path : Choice Path) (fh : Choice UInt64) (set : SetAttr)
  | readlink (path : Path)
  | mknod (parent : Path) (name : Bytes) (mode : UInt32) (rdev : UInt64)
  | mkdir (parent : Path) (name : Bytes) (mode : UInt32)
  | unlink (parent : Path) (name : Bytes)
  | rmdir (parent : Path) (name : Bytes)
  | symlink (parent : Path) (name target : Bytes)
  | rename (parent : Path) (name : Bytes) (newParent : Path) (newName : Bytes) (flags : UInt32)
  | link (path newParent : Path) (newName : Bytes)
  | open (fh : UInt64) (path : Path) (flags : Int32)
  | create (fh : UInt64) (parent : Path) (name : Bytes) (mode : UInt32) (flags : Int32)
  | read (fh offset : UInt64) (size : UInt32)
  | write (fh offset : UInt64) (data : Bytes)
  | release (fh : UInt64) (ordered : Bool)
  | fsync (fh : UInt64) (datasync : Bool)
  | opendir (fh : UInt64) (path : Path)
  | readdir (fh offset : UInt64) (maxBytes : UInt32)
  | releasedir (fh : UInt64) (ordered : Bool)
  | statfs (path : Path)
  | setxattr (path : Path) (name value : Bytes) (flags : Int32)
  | getxattr (path : Path) (name : Bytes)
  | listxattr (path : Path)
  | removexattr (path : Path) (name : Bytes)
  | access (path : Path) (mask : Int32)
  | copyFileRange (fhIn offsetIn fhOut offsetOut len : UInt64)
  | fallocate (fh offset len : UInt64) (mode : Int32)
  | lseek (fh offset : UInt64) (whence : UInt16)
  | notInSchema (discriminant : UInt16)
  deriving DecidableEq, Repr

inductive Response where
  | err (errno : Int32)
  | entry (attr : Attr)
  | attr (attr : Attr)
  | readlink (target : Bytes)
  | ok
  | opened (attr : Attr)
  | read (data : Bytes)
  | written (n : UInt32)
  | copied (n : UInt32)
  | seeked (offset : UInt64)
  | readdir (entries : List DirEntry) (end' : Bool)
  | statfs (s : Statfs)
  | xattr (value : Bytes)
  | notInSchema (discriminant : UInt16)
  deriving DecidableEq, Repr

inductive EventItem where
  | entry (dir : Path) (name : Bytes)
  | data (path : Path)
  | overflow
  | unwatched (dir : Path)
  | notInSchema (discriminant : UInt16)
  deriving DecidableEq, Repr

structure NoticeHandles where
  held : UInt64
  share : UInt64
  deriving DecidableEq, Repr

structure Event where
  items : List EventItem
  handles : Option NoticeHandles
  deriving DecidableEq, Repr

end JackalopeFs.WireSchema
