import JackalopeFs.WireSchema

/-! # Building and parsing the messages

Filling a builder with a message and reading one back.  Parsing is where names, paths,
tokens and handles off the wire are checked, and where anything the schema does not know
is refused.  The size hints only reserve room for a first segment; they are sums of 32-bit
numbers, kept here as numbers and cut where they are handed over.
-/

namespace JackalopeFs.WireConversions

open PathNames WireMessages

/-- What is wrong with a value that decodes but may not occur. -/
inductive Invalid where
  | handle (length : ℕ)
  | token (length : ℕ)
  | reason
  | list (declared words : ℕ)
  deriving DecidableEq, Repr

inductive Malformed where
  | short (length : ℕ)
  | segments (count : ℕ)
  | trailing (length : ℕ)
  deriving DecidableEq, Repr

inductive ErrorCapnp where
  | premature
  | tooLarge
  | malformed
  deriving DecidableEq, Repr

inductive ErrorDecode where
  | capnp (error : ErrorCapnp)
  | notInSchema (value : UInt16)
  | name (error : ErrorName)
  | path
  | invalid (why : Invalid)
  | frame (why : Malformed)
  deriving DecidableEq, Repr

def maxPathComponents : ℕ := pathMax / 2 + 1

/-- A list that declares more elements than the whole message has words is refused. -/
def checkedLen (declared messageWords : ℕ) : Except ErrorDecode ℕ :=
  if messageWords < declared then .error (.invalid (.list declared messageWords)) else .ok declared

section Hints

/-- Words for a payload of `len` bytes: the data itself and its pointer. -/
def wordsFor (len : ℕ) : ℕ :=
  (len + 7) / 8 + 1

def wordsForText (len : ℕ) : ℕ :=
  wordsFor (len + 1)

def wordsForPath (path : Path) : ℕ :=
  (path.names.map fun name => wordsFor name.bytes.length).sum + 2

def baseWords : ℕ := 32

def dirEntryWords : ℕ := 4

def entryAttrWords : ℕ := 17

def attrWords : ℕ := 22

def eventItemWords : ℕ := 3

def wordsForAttr (attr : Attr) : ℕ :=
  (attr.identity.handle.length + 7) / 8 +
    match attr.xattrNames with
    | some names => (names.map fun name => wordsFor name.length).sum
    | none => 0

end Hints

/-- A message that can fill a builder and be read back; `Schema` is what the builder is given.  The
parser is told the size of the whole message in words. -/
class Message (T : Type) (Schema : outParam Type) where
  build : T → Schema
  parse : Schema → ℕ → Except ErrorDecode T
  sizeHint : T → ℕ

section Values

def kindToWire : FileKind → UInt16
  | .regular => 0
  | .directory => 1
  | .symlink => 2
  | .fifo => 3
  | .socket => 4
  | .charDevice => 5
  | .blockDevice => 6

def kindFromWire (kind : UInt16) : Except ErrorDecode FileKind :=
  if kind = 0 then .ok .regular
  else if kind = 1 then .ok .directory
  else if kind = 2 then .ok .symlink
  else if kind = 3 then .ok .fifo
  else if kind = 4 then .ok .socket
  else if kind = 5 then .ok .charDevice
  else if kind = 6 then .ok .blockDevice
  else .error (.notInSchema kind)

def whenceToWire : Whence → UInt16
  | .data => 0
  | .hole => 1

def whenceFromWire (whence : UInt16) : Except ErrorDecode Whence :=
  if whence = 0 then .ok .data
  else if whence = 1 then .ok .hole
  else .error (.notInSchema whence)

def buildChoice {α β : Type} (build : α → β) : Option α → WireSchema.Choice β
  | none => .none
  | some a => .some (build a)

def parseChoice {α β : Type} (parse : β → Except ErrorDecode α) :
    WireSchema.Choice β → Except ErrorDecode (Option α)
  | .none => .ok none
  | .some b => (parse b).map some
  | .notInSchema discriminant => .error (.notInSchema discriminant)

def buildPath (path : Path) : WireSchema.Path :=
  path.names.map Name.bytes

def parseName (bytes : Bytes) : Except ErrorDecode Name :=
  (Name.new bytes).mapError .name

/-- Read names one by one, counting the joined length as they come. -/
def parseNames (joined : ℕ) : List Bytes → Except ErrorDecode (List Name)
  | [] => .ok []
  | item :: rest => do
      let name ← parseName item
      let joined := joined + (name.bytes.length + 1)
      if pathMax + 1 < joined then .error .path
      else
        let names ← parseNames joined rest
        return name :: names

def parsePath (list : WireSchema.Path) : Except ErrorDecode Path :=
  if maxPathComponents < list.length then .error .path
  else do
    let names ← parseNames 0 list
    match Path.fromNames names with
    | some path => return path
    | none => .error .path

def buildTime (t : TimeSpec) : WireSchema.TimeSpec :=
  ⟨t.sec, t.nsec⟩

def parseTime (t : WireSchema.TimeSpec) : TimeSpec :=
  ⟨t.sec, t.nsec⟩

def buildIdentity (identity : Identity) : WireSchema.Identity :=
  ⟨identity.handleType, identity.handle⟩

def parseIdentity (r : WireSchema.Identity) : Except ErrorDecode Identity :=
  if handleMax < r.handle.length then .error (.invalid (.handle r.handle.length))
  else .ok ⟨r.handleType, r.handle⟩

def buildAttr (attr : Attr) : WireSchema.Attr where
  ino := attr.ino
  size := attr.size
  blocks := attr.blocks
  atime := buildTime attr.atime
  mtime := buildTime attr.mtime
  ctime := buildTime attr.ctime
  kind := kindToWire attr.kind
  perm := attr.perm
  nlink := attr.nlink
  uid := attr.uid
  gid := attr.gid
  rdev := attr.rdev
  blksize := attr.blksize
  xattrNames := buildChoice (fun names => names) attr.xattrNames
  identity := buildIdentity attr.identity
  foreign := attr.foreign

def parseAttr (r : WireSchema.Attr) : Except ErrorDecode Attr := do
  let kind ← kindFromWire r.kind
  let xattrNames ← parseChoice (fun names => .ok names) r.xattrNames
  let identity ← parseIdentity r.identity
  return {
    ino := r.ino
    size := r.size
    blocks := r.blocks
    atime := parseTime r.atime
    mtime := parseTime r.mtime
    ctime := parseTime r.ctime
    kind := kind
    perm := r.perm
    nlink := r.nlink
    uid := r.uid
    gid := r.gid
    rdev := r.rdev
    blksize := r.blksize
    xattrNames := xattrNames
    identity := identity
    foreign := r.foreign }

def buildStatfs (s : Statfs) : WireSchema.Statfs :=
  ⟨s.blocks, s.bfree, s.bavail, s.files, s.ffree, s.bsize, s.namelen, s.frsize⟩

def parseStatfs (r : WireSchema.Statfs) : Statfs :=
  ⟨r.blocks, r.bfree, r.bavail, r.files, r.ffree, r.bsize, r.namelen, r.frsize⟩

def buildDirEntry (e : DirEntry) : WireSchema.DirEntry :=
  ⟨e.nextOffset, e.name, buildChoice buildAttr e.attr⟩

def parseDirEntry (r : WireSchema.DirEntry) : Except ErrorDecode DirEntry := do
  let attr ← parseChoice parseAttr r.attr
  return ⟨r.nextOffset, r.name, attr⟩

def buildTimeOrNow : TimeOrNow → WireSchema.TimeOrNow
  | .time t => .time (buildTime t)
  | .now => .now

def parseTimeOrNow : WireSchema.TimeOrNow → Except ErrorDecode TimeOrNow
  | .time t => .ok (.time (parseTime t))
  | .now => .ok .now
  | .notInSchema discriminant => .error (.notInSchema discriminant)

def buildSetAttr (s : SetAttr) : WireSchema.SetAttr where
  mode := buildChoice (fun v => v) s.mode
  uid := buildChoice (fun v => v) s.uid
  gid := buildChoice (fun v => v) s.gid
  size := buildChoice (fun v => v) s.size
  atime := buildChoice buildTimeOrNow s.atime
  mtime := buildChoice buildTimeOrNow s.mtime

def parseSetAttr (r : WireSchema.SetAttr) : Except ErrorDecode SetAttr := do
  let mode ← parseChoice (fun v => .ok v) r.mode
  let uid ← parseChoice (fun v => .ok v) r.uid
  let gid ← parseChoice (fun v => .ok v) r.gid
  let size ← parseChoice (fun v => .ok v) r.size
  let atime ← parseChoice parseTimeOrNow r.atime
  let mtime ← parseChoice parseTimeOrNow r.mtime
  return ⟨mode, uid, gid, size, atime, mtime⟩

def resumeToken (bytes : Bytes) : Except ErrorDecode Token :=
  if h : bytes.length = 16 then .ok ⟨bytes, h⟩ else .error (.invalid (.token bytes.length))

end Values

instance : Message Hello WireSchema.Hello where
  build hello :=
    ⟨hello.revision,
      match hello.auth with
      | .anonymous => .anonymous
      | .token token => .token token,
      buildChoice (fun resume => ⟨resume.sessionId, resume.token.bytes⟩) hello.resume⟩
  parse r _ := do
    let auth ← match r.auth with
      | .anonymous => .ok Auth.anonymous
      | .token token => .ok (.token token)
      | .notInSchema discriminant => .error (.notInSchema discriminant)
    let resume ← parseChoice
      (fun res => (resumeToken res.token).map fun token => ⟨res.sessionId, token⟩) r.resume
    return ⟨r.revision, auth, resume⟩
  sizeHint hello :=
    baseWords +
      (match hello.auth with
      | .token token => wordsFor token.length
      | .anonymous => 0) + 8

instance : Message HelloReply WireSchema.HelloReply where
  build
    | .ack sessionId token resumed rootIno rootIdentity uid gid =>
      .ack sessionId token.bytes resumed rootIno (buildIdentity rootIdentity) uid gid
    | .reject reason => .reject reason.toUTF8.data.toList
    | .revisionMismatch revision => .revisionMismatch revision
  parse r _ :=
    match r with
    | .ack sessionId token resumed rootIno rootIdentity uid gid => do
        let token ← resumeToken token
        let rootIdentity ← parseIdentity rootIdentity
        return .ack sessionId token resumed rootIno rootIdentity uid gid
    | .reject reason =>
      match String.fromUTF8? ⟨reason.toArray⟩ with
      | some reason => .ok (.reject reason)
      | none => .error (.invalid .reason)
    | .revisionMismatch revision => .ok (.revisionMismatch revision)
    | .notInSchema discriminant => .error (.notInSchema discriminant)
  sizeHint
    | .ack _ _ _ _ rootIdentity _ _ => baseWords + (9 + wordsFor rootIdentity.handle.length)
    | .reject reason => baseWords + wordsForText reason.utf8ByteSize
    | .revisionMismatch _ => baseWords + 1

def buildRequest : Request → WireSchema.Request
  | .lookup parent name => .lookup (buildPath parent) name.bytes
  | .getattr path fh => .getattr (buildChoice buildPath path) (buildChoice (fun v => v) fh)
  | .setattr path fh set =>
    .setattr (buildChoice buildPath path) (buildChoice (fun v => v) fh) (buildSetAttr set)
  | .readlink path => .readlink (buildPath path)
  | .mknod parent name mode rdev => .mknod (buildPath parent) name.bytes mode rdev
  | .mkdir parent name mode => .mkdir (buildPath parent) name.bytes mode
  | .unlink parent name => .unlink (buildPath parent) name.bytes
  | .rmdir parent name => .rmdir (buildPath parent) name.bytes
  | .symlink parent name target => .symlink (buildPath parent) name.bytes target
  | .rename parent name newparent newname flags =>
    .rename (buildPath parent) name.bytes (buildPath newparent) newname.bytes flags
  | .link path newparent newname => .link (buildPath path) (buildPath newparent) newname.bytes
  | .open fh path flags => .open fh (buildPath path) flags
  | .create fh parent name mode flags => .create fh (buildPath parent) name.bytes mode flags
  | .read fh offset size => .read fh offset size
  | .write fh offset data => .write fh offset data
  | .release fh ordered => .release fh ordered
  | .fsync fh datasync => .fsync fh datasync
  | .opendir fh path => .opendir fh (buildPath path)
  | .readdir fh offset maxBytes => .readdir fh offset maxBytes
  | .releasedir fh ordered => .releasedir fh ordered
  | .statfs path => .statfs (buildPath path)
  | .setxattr path name value flags => .setxattr (buildPath path) name value flags
  | .getxattr path name => .getxattr (buildPath path) name
  | .listxattr path => .listxattr (buildPath path)
  | .removexattr path name => .removexattr (buildPath path) name
  | .access path mask => .access (buildPath path) mask
  | .copyFileRange fhIn offsetIn fhOut offsetOut len =>
    .copyFileRange fhIn offsetIn fhOut offsetOut len
  | .fallocate fh offset len mode => .fallocate fh offset len mode
  | .lseek fh offset whence => .lseek fh offset (whenceToWire whence)

def parseRequest : WireSchema.Request → Except ErrorDecode Request
  | .lookup parent name => do return .lookup (← parsePath parent) (← parseName name)
  | .getattr path fh => do
      return .getattr (← parseChoice parsePath path) (← parseChoice (fun v => .ok v) fh)
  | .setattr path fh set => do
      return .setattr (← parseChoice parsePath path) (← parseChoice (fun v => .ok v) fh)
        (← parseSetAttr set)
  | .readlink path => do return .readlink (← parsePath path)
  | .mknod parent name mode rdev => do
      return .mknod (← parsePath parent) (← parseName name) mode rdev
  | .mkdir parent name mode => do return .mkdir (← parsePath parent) (← parseName name) mode
  | .unlink parent name => do return .unlink (← parsePath parent) (← parseName name)
  | .rmdir parent name => do return .rmdir (← parsePath parent) (← parseName name)
  | .symlink parent name target => do
      return .symlink (← parsePath parent) (← parseName name) target
  | .rename parent name newParent newName flags => do
      return .rename (← parsePath parent) (← parseName name) (← parsePath newParent)
        (← parseName newName) flags
  | .link path newParent newName => do
      return .link (← parsePath path) (← parsePath newParent) (← parseName newName)
  | .open fh path flags => do return .open fh (← parsePath path) flags
  | .create fh parent name mode flags => do
      return .create fh (← parsePath parent) (← parseName name) mode flags
  | .read fh offset size => .ok (.read fh offset size)
  | .write fh offset data => .ok (.write fh offset data)
  | .release fh ordered => .ok (.release fh ordered)
  | .fsync fh datasync => .ok (.fsync fh datasync)
  | .opendir fh path => do return .opendir fh (← parsePath path)
  | .readdir fh offset maxBytes => .ok (.readdir fh offset maxBytes)
  | .releasedir fh ordered => .ok (.releasedir fh ordered)
  | .statfs path => do return .statfs (← parsePath path)
  | .setxattr path name value flags => do return .setxattr (← parsePath path) name value flags
  | .getxattr path name => do return .getxattr (← parsePath path) name
  | .listxattr path => do return .listxattr (← parsePath path)
  | .removexattr path name => do return .removexattr (← parsePath path) name
  | .access path mask => do return .access (← parsePath path) mask
  | .copyFileRange fhIn offsetIn fhOut offsetOut len =>
    .ok (.copyFileRange fhIn offsetIn fhOut offsetOut len)
  | .fallocate fh offset len mode => .ok (.fallocate fh offset len mode)
  | .lseek fh offset whence => do return .lseek fh offset (← whenceFromWire whence)
  | .notInSchema discriminant => .error (.notInSchema discriminant)

def requestHint : Request → ℕ
  | .lookup parent name | .unlink parent name | .rmdir parent name | .mkdir parent name _
  | .mknod parent name _ _ | .create _ parent name _ _ =>
    wordsForPath parent + wordsFor name.bytes.length
  | .getattr path _ | .setattr path _ _ => (path.map wordsForPath).getD 0 + 16
  | .readlink path | .open _ path _ | .opendir _ path | .statfs path | .listxattr path
  | .access path _ => wordsForPath path
  | .symlink parent name target =>
    wordsForPath parent + wordsFor name.bytes.length + wordsFor target.length
  | .rename parent name newparent newname _ =>
    wordsForPath parent + wordsFor name.bytes.length + wordsForPath newparent +
      wordsFor newname.bytes.length
  | .link path newparent newname =>
    wordsForPath path + wordsForPath newparent + wordsFor newname.bytes.length
  | .write _ _ data => wordsFor data.length
  | .setxattr path name value _ => wordsForPath path + wordsFor name.length + wordsFor value.length
  | .getxattr path name | .removexattr path name => wordsForPath path + wordsFor name.length
  | .read .. | .release .. | .fsync .. | .readdir .. | .releasedir .. | .copyFileRange ..
  | .fallocate .. | .lseek .. => 0

instance : Message Request WireSchema.Request where
  build := buildRequest
  parse r _ := parseRequest r
  sizeHint req := baseWords + requestHint req

def buildResponse : Response → WireSchema.Response
  | .err errno => .err errno
  | .entry attr => .entry (buildAttr attr)
  | .attr attr => .attr (buildAttr attr)
  | .readlink target => .readlink target
  | .ok => .ok
  | .opened attr => .opened (buildAttr attr)
  | .read data => .read data
  | .written n => .written n
  | .copied n => .copied n
  | .seeked offset => .seeked offset
  | .readdir entries end' => .readdir (entries.map buildDirEntry) end'
  | .statfs s => .statfs (buildStatfs s)
  | .xattr value => .xattr value

def parseResponse (r : WireSchema.Response) (words : ℕ) : Except ErrorDecode Response :=
  match r with
  | .err errno => .ok (.err errno)
  | .entry attr => do return .entry (← parseAttr attr)
  | .attr attr => do return .attr (← parseAttr attr)
  | .readlink target => .ok (.readlink target)
  | .ok => .ok .ok
  | .opened attr => do return .opened (← parseAttr attr)
  | .read data => .ok (.read data)
  | .written n => .ok (.written n)
  | .copied n => .ok (.copied n)
  | .seeked offset => .ok (.seeked offset)
  | .readdir list end' => do
      let _ ← checkedLen list.length words
      let entries ← list.mapM parseDirEntry
      return .readdir entries end'
  | .statfs s => .ok (.statfs (parseStatfs s))
  | .xattr value => .ok (.xattr value)
  | .notInSchema discriminant => .error (.notInSchema discriminant)

def responseHint : Response → ℕ
  | .err _ | .ok | .written _ | .copied _ | .seeked _ => 0
  | .entry attr | .attr attr | .opened attr => attrWords + wordsForAttr attr
  | .readlink b | .read b | .xattr b => wordsFor b.length
  | .readdir entries _ =>
    (entries.map fun e => dirEntryWords + (e.name.length + 7) / 8 +
      (e.attr.map fun attr => entryAttrWords + wordsForAttr attr).getD 0).sum
  | .statfs _ => 8

instance : Message Response WireSchema.Response where
  build := buildResponse
  parse := parseResponse
  sizeHint resp := baseWords + responseHint resp

def buildItem : EventItem → WireSchema.EventItem
  | .entry dir name => .entry (buildPath dir) name.bytes
  | .data path => .data (buildPath path)
  | .overflow => .overflow
  | .unwatched dir => .unwatched (buildPath dir)

def parseItem : WireSchema.EventItem → Except ErrorDecode EventItem
  | .entry dir name => do return .entry (← parsePath dir) (← parseName name)
  | .data path => do return .data (← parsePath path)
  | .overflow => .ok .overflow
  | .unwatched dir => do return .unwatched (← parsePath dir)
  | .notInSchema discriminant => .error (.notInSchema discriminant)

instance : Message Event WireSchema.Event where
  build event :=
    ⟨event.items.map buildItem, event.handles.map fun notice => ⟨notice.held, notice.share⟩⟩
  parse r words := do
    let _ ← checkedLen r.items.length words
    let items ← r.items.mapM parseItem
    return ⟨items, r.handles.map fun n => ⟨n.held, n.share⟩⟩
  sizeHint event :=
    baseWords + 3 + (event.items.map fun
      | .entry dir name => 4 + wordsForPath dir + wordsFor name.bytes.length
      | .data path => eventItemWords + wordsForPath path
      | .overflow => eventItemWords
      | .unwatched dir => eventItemWords + wordsForPath dir).sum

end JackalopeFs.WireConversions
