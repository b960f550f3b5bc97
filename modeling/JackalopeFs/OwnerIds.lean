import JackalopeFs.LittleEndian
import JackalopeFs.WireMessages

/-! # Owners as the two ends map them

Numeric uids and gids, and the ones inside a POSIX ACL, which travels as an extended
attribute in the kernel's form.  The server's map in `flatten` mode lets only its own
ids through; the client's in `owned` mode makes the server's user the local one.  Log
lines and the descriptions of a map are left out.
-/

namespace JackalopeFs.OwnerIds

open LittleEndian PathNames WireMessages

def ascii (text : String) : Bytes :=
  text.toList.map fun c => UInt8.ofNat c.toNat

def nobody : UInt32 := 65534

inductive KindOwner where
  | user
  | group
  deriving DecidableEq, Repr

def posixAclNames : List Bytes :=
  [ascii "system.posix_acl_access", ascii "system.posix_acl_default"]

def aclVersion : ℕ := 2

/-- The tags of a named user's entry and of a named group's; only these carry an id. -/
def aclUser : ℕ := 0x02

def aclGroup : ℕ := 0x08

def isPosixAcl (name : Bytes) : Bool :=
  posixAclNames.contains name

/-- The eight bytes of an entry: tag, permissions and id. -/
structure AclEntry where
  tag0 : UInt8
  tag1 : UInt8
  perm0 : UInt8
  perm1 : UInt8
  id0 : UInt8
  id1 : UInt8
  id2 : UInt8
  id3 : UInt8
  deriving DecidableEq, Repr

namespace AclEntry

def bytes (e : AclEntry) : Bytes :=
  [e.tag0, e.tag1, e.perm0, e.perm1, e.id0, e.id1, e.id2, e.id3]

def tag (e : AclEntry) : ℕ :=
  ofBytes [e.tag0, e.tag1]

def id (e : AclEntry) : UInt32 :=
  .ofNat (ofBytes [e.id0, e.id1, e.id2, e.id3])

def withId (e : AclEntry) (id : UInt32) : AclEntry :=
  { e with
    id0 := .ofNat id.toNat
    id1 := .ofNat (id.toNat / 2 ^ 8)
    id2 := .ofNat (id.toNat / 2 ^ 16)
    id3 := .ofNat (id.toNat / 2 ^ 24) }

end AclEntry

/-- The whole entries at the start of these bytes, and the rest. -/
def asChunks : Bytes → List AclEntry × Bytes
  | b0 :: b1 :: b2 :: b3 :: b4 :: b5 :: b6 :: b7 :: rest =>
    let chunks := asChunks rest
    (⟨b0, b1, b2, b3, b4, b5, b6, b7⟩ :: chunks.1, chunks.2)
  | ragged => ([], ragged)

/-- The entries of a POSIX ACL in the kernel's form, if `value` is one. -/
def aclEntriesRaw (value : Bytes) : Option (List AclEntry) :=
  if value.length < 4 then none
  else
    let chunks := asChunks (value.drop 4)
    if ofBytes (value.take 4) = aclVersion ∧ chunks.2 = [] then some chunks.1 else none

def ownerOf (entry : AclEntry) : Option (KindOwner × UInt32) :=
  if entry.tag = aclUser then some (.user, entry.id)
  else if entry.tag = aclGroup then some (.group, entry.id)
  else none

/-- The owner named by every named user and named group entry of a POSIX ACL. -/
def aclOwners (value : Bytes) : Option (List (KindOwner × UInt32)) :=
  (aclEntriesRaw value).map fun entries => entries.filterMap ownerOf

def mapEntry (map : KindOwner → UInt32 → UInt32) (entry : AclEntry) : AclEntry :=
  match ownerOf entry with
  | some (kind, id) => entry.withId (map kind id)
  | none => entry

/-- Replace the id of every named user and named group entry of a POSIX ACL with `map`'s; false, with
nothing changed, if `value` is not one. -/
def aclMap (value : Bytes) (map : KindOwner → UInt32 → UInt32) : Bytes × Bool :=
  if (aclEntriesRaw value).isNone then (value, false)
  else
    let chunks := asChunks (value.drop 4)
    (value.take 4 ++ (chunks.1.map (mapEntry map)).flatMap AclEntry.bytes ++ chunks.2, true)

def mapAttr (map : KindOwner → UInt32 → UInt32) (attr : Attr) : Attr :=
  { attr with
    uid := map .user attr.uid
    gid := map .group attr.gid }

/-- Replace every owner in a reply with `map`'s: the attributes of every reply that has them and,
where the reply is the value of a POSIX ACL, its named entries. -/
def mapReply (resp : Response) (posixAclRead : Bool) (map : KindOwner → UInt32 → UInt32) : Response :=
  match resp with
  | .entry attr => .entry (mapAttr map attr)
  | .attr attr => .attr (mapAttr map attr)
  | .opened attr => .opened (mapAttr map attr)
  | .readdir entries end' =>
    .readdir (entries.map fun e => { e with attr := e.attr.map (mapAttr map) }) end'
  | .xattr value => .xattr (if posixAclRead then (aclMap value map).1 else value)
  | .err _ | .readlink _ | .ok | .read _ | .written _ | .copied _ | .seeked _ | .statfs _ => resp

/-- Whether the request reads a POSIX ACL, whose reply's owners are then the ACL's. -/
def readsPosixAcl : Request → Bool
  | .getxattr _ name => isPosixAcl name
  | _ => false

/-- The errnos that the owner policy and a full pool answer with. -/
def eperm : Int32 := 1

def einval : Int32 := 22

def emfile : Int32 := 24

def eopnotsupp : Int32 := 95

inductive ModeIds where
  | direct
  | flatten
  deriving DecidableEq, Repr

/-- Which owners the server lets through, and its own ids. -/
structure IdMap where
  mode : ModeIds
  uid : UInt32
  gid : UInt32
  deriving DecidableEq, Repr

namespace IdMap

def own (m : IdMap) : KindOwner → UInt32
  | .user => m.uid
  | .group => m.gid

/-- Whether the request may run: under `flatten`, it names no owner but the server's own, and touches
no `system.*` attribute but the POSIX ACLs. -/
def admits (m : IdMap) (req : Request) : Except Int32 Unit :=
  if m.mode = .direct then .ok ()
  else
    match req with
    | .setattr _ _ set =>
      if set.uid.any (fun uid => uid ≠ m.uid) || set.gid.any (fun gid => gid ≠ m.gid) then
        .error eperm
      else .ok ()
    | .setxattr _ name value _ =>
      if isPosixAcl name then
        match aclOwners value with
        | none => .error einval
        | some named => if named.all fun o => o.2 = m.own o.1 then .ok () else .error eperm
      else if (ascii "system.").isPrefixOf name then .error eopnotsupp
      else .ok ()
    | .getxattr _ name | .removexattr _ name =>
      if (ascii "system.").isPrefixOf name && !isPosixAcl name then .error eopnotsupp else .ok ()
    | _ => .ok ()

/-- The server's own id stays, every other becomes nobody. -/
def flattened (m : IdMap) (kind : KindOwner) (id : UInt32) : UInt32 :=
  if id = m.own kind then id else nobody

def reply (m : IdMap) (posixAclRead : Bool) (resp : Response) : Response :=
  if m.mode = .flatten then mapReply resp posixAclRead m.flattened else resp

end IdMap

inductive Failure where
  | errno (errno : Int32)
  | poolFull
  deriving DecidableEq, Repr

/-- The answer to a request whose work gave `ran`: the owner policy is checked before the work and
applied to what goes back. -/
def dispatch (ids : IdMap) (req : Request) (ran : Except Failure Response) : Response :=
  match ids.admits req with
  | .error errno => .err errno
  | .ok () =>
    match ran with
    | .ok resp => ids.reply (readsPosixAcl req) resp
    | .error .poolFull => .err emfile
    | .error (.errno errno) => .err errno

/-- How an `owned` mount shows owners: the server's ids as the local user's. -/
structure Owned where
  serverUid : UInt32
  serverGid : UInt32
  localUid : UInt32
  localGid : UInt32
  deriving DecidableEq, Repr

/-- The client's error for an owner that has no counterpart. -/
inductive Unmapped where
  | unmapped
  deriving DecidableEq, Repr

namespace Owned

def pair (o : Owned) : KindOwner → UInt32 × UInt32
  | .user => (o.serverUid, o.localUid)
  | .group => (o.serverGid, o.localGid)

def toLocal (o : Owned) (kind : KindOwner) (id : UInt32) : UInt32 :=
  if id = (o.pair kind).1 then (o.pair kind).2 else nobody

def toServer (o : Owned) (kind : KindOwner) (id : UInt32) : Except Unmapped UInt32 :=
  if id = (o.pair kind).2 then .ok (o.pair kind).1 else .error .unmapped

/-- Rewrite every owner in a reply to `req` into local terms. -/
def incoming (o : Owned) (req : Request) (resp : Response) : Response :=
  mapReply resp (readsPosixAcl req) o.toLocal

/-- One of the two owners of a `setattr` in server terms, if it is set. -/
def outgoingId (o : Owned) (kind : KindOwner) : Option UInt32 → Except Unmapped (Option UInt32)
  | none => .ok none
  | some id => (o.toServer kind id).map some

/-- The request with every owner in server terms, nothing if it carries none; an owner other than the
local user's fails the request before it is sent. -/
def outgoing (o : Owned) (req : Request) : Except Unmapped (Option Request) :=
  match req with
  | .setattr path fh set =>
    if set.uid.isSome || set.gid.isSome then
      match o.outgoingId .user set.uid, o.outgoingId .group set.gid with
      | .ok uid, .ok gid => .ok (some (.setattr path fh { set with uid := uid, gid := gid }))
      | .error e, _ | _, .error e => .error e
    else .ok none
  | .setxattr path name value flags =>
    if isPosixAcl name then
      match aclOwners value with
      | none => .ok none
      | some named =>
        if named.all fun owner => (o.toServer owner.1 owner.2).isOk then
          .ok (some (.setxattr path name (aclMap value fun kind _ => (o.pair kind).1).1 flags))
        else .error .unmapped
    else .ok none
  | _ => .ok none

end Owned

end JackalopeFs.OwnerIds
