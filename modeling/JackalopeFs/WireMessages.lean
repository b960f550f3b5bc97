import JackalopeFs.PathNames

/-! # The messages of the protocol

The values that requests, replies, events and the handshake carry, in full.  Numbers
have the widths of the source.
-/

namespace JackalopeFs.WireMessages

open PathNames

abbrev Bytes := List UInt8

inductive Whence where
  | data
  | hole
  deriving DecidableEq, Repr

inductive FileKind where
  | regular
  | directory
  | symlink
  | fifo
  | socket
  | charDevice
  | blockDevice
  deriving DecidableEq, Repr

structure TimeSpec where
  sec : Int64
  nsec : UInt32
  deriving DecidableEq, Repr

def handleMax : ℕ := 128

/-- What tells one file from another when inode numbers cannot. -/
structure Identity where
  handleType : Int32
  handle : Bytes
  deriving DecidableEq, Repr

/-- A `stat` result and what tells the file from any other. -/
structure Attr where
  ino : UInt64
  size : UInt64
  blocks : UInt64
  atime : TimeSpec
  mtime : TimeSpec
  ctime : TimeSpec
  kind : FileKind
  perm : UInt16
  nlink : UInt32
  uid : UInt32
  gid : UInt32
  rdev : UInt64
  blksize : UInt32
  xattrNames : Option (List Bytes)
  identity : Identity
  foreign : Bool
  deriving DecidableEq, Repr

structure Statfs where
  blocks : UInt64
  bfree : UInt64
  bavail : UInt64
  files : UInt64
  ffree : UInt64
  bsize : UInt32
  namelen : UInt32
  frsize : UInt32
  deriving DecidableEq, Repr

/-- One entry of a listing; `nextOffset` is the cookie to request the entries after this one. -/
structure DirEntry where
  nextOffset : UInt64
  name : Bytes
  attr : Option Attr
  deriving DecidableEq, Repr

inductive TimeOrNow where
  | time (t : TimeSpec)
  | now
  deriving DecidableEq, Repr

/-- The settable subset of attributes; `none` means leave alone. -/
structure SetAttr where
  mode : Option UInt32
  uid : Option UInt32
  gid : Option UInt32
  size : Option UInt64
  atime : Option TimeOrNow
  mtime : Option TimeOrNow
  deriving DecidableEq, Repr

inductive Auth where
  | anonymous
  | token (token : Bytes)
  deriving DecidableEq, Repr

structure Token where
  bytes : Bytes
  sixteen : bytes.length = 16
  deriving DecidableEq, Repr

structure Resume where
  sessionId : UInt64
  token : Token
  deriving DecidableEq, Repr

/-- First message on the control stream, client to server. -/
structure Hello where
  revision : UInt64
  auth : Auth
  resume : Option Resume
  deriving DecidableEq, Repr

inductive HelloReply where
  | ack (sessionId : UInt64) (resumeToken : Token) (resumed : Bool) (rootIno : UInt64)
      (rootIdentity : Identity) (uid gid : UInt32)
  | reject (reason : String)
  | revisionMismatch (revision : UInt64)
  deriving DecidableEq, Repr

/-- One request per stream.  Paths are relative to the export root. -/
inductive Request where
  | lookup (parent : Path) (name : Name)
  | getattr (path : Option Path) (fh : Option UInt64)
  | setattr (path : Option Path) (fh : Option UInt64) (set : SetAttr)
  | readlink (path : Path)
  | mknod (parent : Path) (name : Name) (mode : UInt32) (rdev : UInt64)
  | mkdir (parent : Path) (name : Name) (mode : UInt32)
  | unlink (parent : Path) (name : Name)
  | rmdir (parent : Path) (name : Name)
  | symlink (parent : Path) (name : Name) (target : Bytes)
  | rename (parent : Path) (name : Name) (newparent : Path) (newname : Name) (flags : UInt32)
  | link (path newparent : Path) (newname : Name)
  | open (fh : UInt64) (path : Path) (flags : Int32)
  | create (fh : UInt64) (parent : Path) (name : Name) (mode : UInt32) (flags : Int32)
  | read (fh offset : UInt64) (size : UInt32)
  | write (fh offset : UInt64) (data : Bytes)
  | release (fh : UInt64) (ordered : Bool)
  | fsync (fh : UInt64) (datasync : Bool)
  | opendir (fh : UInt64) (path : Path)
  | readdir (fh offset : UInt64) (maxBytes : UInt32)
  | releasedir (fh : UInt64) (ordered : Bool)
  | statfs (path : Path)
  | setxattr (path : Path) (name value : Bytes) (flags : Int32)
  | getxattr (path : Path) (name : Bytes)
  | listxattr (path : Path)
  | removexattr (path : Path) (name : Bytes)
  | access (path : Path) (mask : Int32)
  | copyFileRange (fhIn offsetIn fhOut offsetOut len : UInt64)
  | fallocate (fh offset len : UInt64) (mode : Int32)
  | lseek (fh offset : UInt64) (whence : Whence)
  deriving DecidableEq, Repr

inductive Response where
  | err (errno : Int32)
  | entry (attr : Attr)
  | attr (attr : Attr)
  | readlink (target : Bytes)
  | ok
  | opened (attr : Attr)
  | read (data : Bytes)
  | written (n : UInt32)
  | copied (n : UInt32)
  | seeked (offset : UInt64)
  | readdir (entries : List DirEntry) (end' : Bool)
  | statfs (s : Statfs)
  | xattr (value : Bytes)
  deriving DecidableEq, Repr

inductive EventItem where
  | entry (dir : Path) (name : Name)
  | data (path : Path)
  | overflow
  | unwatched (dir : Path)
  deriving DecidableEq, Repr

structure NoticeHandles where
  held : UInt64
  share : UInt64
  deriving DecidableEq, Repr

structure Event where
  items : List EventItem
  handles : Option NoticeHandles
  deriving DecidableEq, Repr

end JackalopeFs.WireMessages
