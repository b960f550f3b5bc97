import JackalopeFs.PathNames

/-! # The client's node table

A node is one file on the server, known by its inode number and identity together.
The table maps node numbers to nodes, keys to numbers, and in every directory names
to the nodes looked up there; each node lists the names it was reached through.  This
module embeds the functions of `NodeTable` and the machine that calls them in any
order with arbitrary replies.

Lookup counts are taken not to reach their 64-bit limit.  The search for a free number
goes once through as many candidates as there are nodes and one more; a table so full
that none of them is free makes the source loop for ever, and is a refused step here.
The logging of an alias chain that does not reach the root is left out.
-/

namespace JackalopeFs.NodeTable

open KeyedTables PathNames TransitionRuns

def root : ℕ := 1

/-- What tells a file apart from another with its inode number: its file handle. -/
structure Identity where
  handleType : Int
  handle : List UInt8
  deriving DecidableEq, Repr

structure KeyNode where
  ino : ℕ
  identity : Identity
  deriving DecidableEq, Repr

inductive FileKind where
  | regular
  | directory
  | symlink
  | fifo
  | socket
  | charDevice
  | blockDevice
  deriving DecidableEq, Repr

/-- A file as a reply describes it; `foreign` outside the export root's subvolume. -/
structure Seen where
  ino : ℕ
  identity : Identity
  foreign : Bool
  kind : FileKind
  deriving DecidableEq, Repr

def Seen.key (seen : Seen) : KeyNode :=
  ⟨seen.ino, seen.identity⟩

def leBytes (n : Int) : List UInt8 :=
  let w := (n % 2 ^ 32).toNat
  [w, w / 2 ^ 8, w / 2 ^ 16, w / 2 ^ 24].map UInt8.ofNat

/-- Where the substitutes for a file start: a hash of its handle, off the two reserved numbers. -/
def substitute (identity : Identity) : ℕ :=
  max 2 ((leBytes identity.handleType ++ identity.handle).foldl
    (fun hash byte => (hash ^^^ byte.toNat) * 0x100000001b3 % 2 ^ 64) 0xcbf29ce484222325)

/-- The candidate after `id`, off the two reserved numbers. -/
def nextNumber (id : ℕ) : ℕ :=
  max 2 ((id + 1) % 2 ^ 64)

def maxDepth : ℕ := pathMax / 2

structure Node where
  aliases : List (ℕ × Name)
  lookupCount : ℕ
  key : Option KeyNode
  unlinked : Bool
  kind : FileKind
  children : AList fun _ : Name => ℕ

def Node.fresh (seen : Seen) : Node :=
  ⟨[], 0, some seen.key, false, seen.kind, ∅⟩

structure Nodes where
  nodes : AList fun _ : ℕ => Node
  byKey : AList fun _ : KeyNode => ℕ

namespace Nodes

def new : Nodes :=
  ⟨AList.singleton root ⟨[], 1, none, false, .directory, ∅⟩, ∅⟩

def get (t : Nodes) (id : ℕ) : Option Node :=
  t.nodes.lookup id

/-- The first number from `id` on that no node has, looking at `fuel` of them. -/
def freeFrom (t : Nodes) : ℕ → ℕ → Option ℕ
  | 0, _ => none
  | fuel + 1, id => if (t.get id).isSome then t.freeFrom fuel (nextNumber id) else some id

/-- The node a file is, or would be if it were registered now. -/
def idFor (t : Nodes) (seen : Seen) : Option ℕ :=
  if seen.ino = root ∧ ((t.get root).bind Node.key).all fun k => k.identity == seen.identity then
    some root
  else
    match t.byKey.lookup seen.key with
    | some id => some id
    | none =>
      if seen.foreign = false ∧ root < seen.ino ∧ t.get seen.ino = none then some seen.ino
      else t.freeFrom (t.nodes.entries.length + 1) (substitute seen.identity)

def modify (t : Nodes) (id : ℕ) (f : Node → Node) : Nodes :=
  { t with nodes := KeyedTables.modify t.nodes id f }

def child (t : Nodes) (parent : ℕ) (name : Name) : Option ℕ :=
  (t.get parent).bind fun node => node.children.lookup name

/-- Enter `name` in the directory `parent`, if the table has it. -/
def setChild (t : Nodes) (parent : ℕ) (name : Name) (id : ℕ) : Nodes :=
  t.modify parent fun p => { p with children := p.children.insert name id }

def clearChild (t : Nodes) (parent : ℕ) (name : Name) : Nodes :=
  t.modify parent fun p => { p with children := p.children.erase name }

/-- Take `name` out of the directory `parent` if it leads to `id`. -/
def clearChildOf (t : Nodes) (parent : ℕ) (name : Name) (id : ℕ) : Nodes :=
  t.modify parent fun p =>
    if p.children.lookup name = some id then { p with children := p.children.erase name } else p

def dropAlias (t : Nodes) (id parent : ℕ) (name : Name) : Nodes :=
  t.modify id fun node =>
    let aliases := node.aliases.filter fun a => a ≠ (parent, name)
    { node with aliases := aliases, unlinked := node.unlinked || aliases.isEmpty }

def setAliases (t : Nodes) (id : ℕ) (aliases : List (ℕ × Name)) : Nodes :=
  t.modify id fun node =>
    { node with aliases := aliases, unlinked := node.unlinked || aliases.isEmpty }

def moveAlias (t : Nodes) (id : ℕ) (old new : ℕ × Name) : Nodes :=
  t.modify id fun node => { node with aliases := node.aliases.filter (fun a => a ≠ old) ++ [new] }

/-- Enter `name` in the directory `parent`, and take the name from the node it led to. -/
def enter (t : Nodes) (parent : ℕ) (name : Name) (id : ℕ) : Nodes :=
  match t.child parent name with
  | some previous => (t.setChild parent name id).dropAlias previous parent name
  | none => t.setChild parent name id

/-- Count a lookup of node `id`, made if there is none, through `parent/name`. -/
def register (t : Nodes) (id parent : ℕ) (name : Name) (seen : Seen) : Nodes :=
  let node := (t.get id).getD (.fresh seen)
  let registered := { node with
    unlinked := false
    kind := seen.kind
    lookupCount := node.lookupCount + 1
    aliases := node.aliases.filter (fun a => a ≠ (parent, name)) ++ [(parent, name)] }
  ⟨t.nodes.insert id registered, t.byKey.insert seen.key id⟩

/-- The kernel was told that `parent/name` is this file and will count one lookup for it. -/
def insertLookup (t : Nodes) (parent : ℕ) (name : Name) (seen : Seen) :
    Option (Nodes × Option ℕ) :=
  (t.idFor seen).map fun id =>
    if id = root then (t, none)
    else
      let entered := if t.child parent name = some id then t.setChild parent name id
        else t.enter parent name id
      (entered.register id parent name seen, some id)

def rootSeen (t : Nodes) (identity : Identity) : Nodes :=
  t.modify root fun node => { node with key := some ⟨root, identity⟩ }

def uncount (t : Nodes) (ino n : ℕ) : Nodes :=
  t.modify ino fun node => { node with lookupCount := node.lookupCount - n }

def remove (t : Nodes) (ino : ℕ) (node : Node) : Nodes :=
  ⟨t.nodes.erase ino,
    match node.key with
    | some key => t.byKey.erase key
    | none => t.byKey⟩

/-- The kernel dropped `n` lookups; at zero the node is forgotten, and the caller is told so. -/
def forget (t : Nodes) (ino n : ℕ) : Nodes × Bool :=
  if ino = root then (t, false)
  else
    match t.get ino with
    | none => (t, false)
    | some node =>
      if 0 < node.lookupCount - n then
        (t.uncount ino n, false)
      else
        (node.aliases.foldl (fun t a => t.clearChildOf a.1 a.2 ino) (t.remove ino node), true)

/-- The names leading from the root to `ino`, newest aliases first at every step, along a chain of at
most `depth` of them. -/
def namesTo (t : Nodes) : ℕ → ℕ → Option (List Name)
  | 0, ino => if ino = root then some [] else none
  | depth + 1, ino =>
    if ino = root then some []
    else
      (t.get ino).bind fun node =>
        node.aliases.reverse.findSome? fun a => (t.namesTo depth a.1).map fun names => names ++ [a.2]

def pathOf (t : Nodes) (ino : ℕ) : Option Path :=
  (t.namesTo (maxDepth + 1) ino).bind Path.fromNames

/-- Follow `path` from the root through known children. -/
def resolvePath (t : Nodes) (path : Path) : Option ℕ :=
  path.names.foldlM t.child root

/-- `path` led to another file than `id`: forget the alias it ended in, and say which that was. -/
def aliasWasWrong (t : Nodes) (id : ℕ) (path : Path) : Nodes × Option (ℕ × Name) :=
  match path.splitLast, t.get id with
  | some (dir, last), some node =>
    let wrong := fun a : ℕ × Name =>
      decide (a.2 = last ∧ t.namesTo (maxDepth + 1) a.1 = some dir.names)
    match node.aliases.reverse.find? wrong with
    | some a =>
      let left := (node.aliases.reverse.eraseP wrong).reverse
      ((t.setAliases id left).clearChildOf a.1 a.2 id, some a)
    | none => (t, none)
  | _, _ => (t, none)

def unlink (t : Nodes) (parent : ℕ) (name : Name) : Nodes :=
  match t.child parent name with
  | some child => (t.clearChild parent name).dropAlias child parent name
  | none => t

/-- `parent/name` became `newparent/newname` through this client. -/
def rename (t : Nodes) (parent : ℕ) (name : Name) (newparent : ℕ) (newname : Name) : Nodes :=
  match t.child parent name with
  | none => t
  | some child =>
    if t.child newparent newname = some child then t
    else
      ((t.clearChild parent name).enter newparent newname child).moveAlias child (parent, name)
        (newparent, newname)

def exchange (t : Nodes) (parent : ℕ) (name : Name) (newparent : ℕ) (newname : Name) : Nodes :=
  match t.child parent name, t.child newparent newname with
  | some a, some b =>
    if a = b then t
    else
      let swapped := (t.setChild parent name b).setChild newparent newname a
      (swapped.moveAlias a (parent, name) (newparent, newname)).moveAlias b
        (newparent, newname) (parent, name)
  | _, _ => (t.unlink parent name).unlink newparent newname

end Nodes

inductive Action where
  | insertLookup (parent : ℕ) (name : Name) (seen : Seen)
  | rootSeen (identity : Identity)
  | forget (ino n : ℕ)
  | aliasWasWrong (id : ℕ) (path : Path)
  | unlink (parent : ℕ) (name : Name)
  | rename (parent : ℕ) (name : Name) (newparent : ℕ) (newname : Name)
  | exchange (parent : ℕ) (name : Name) (newparent : ℕ) (newname : Name)
  deriving DecidableEq, Repr

def step (t : Nodes) : Action → Option Nodes
  | .insertLookup parent name seen => (t.insertLookup parent name seen).map Prod.fst
  | .rootSeen identity => some (t.rootSeen identity)
  | .forget ino n => some (t.forget ino n).1
  | .aliasWasWrong id path => some (t.aliasWasWrong id path).1
  | .unlink parent name => some (t.unlink parent name)
  | .rename parent name newparent newname => some (t.rename parent name newparent newname)
  | .exchange parent name newparent newname => some (t.exchange parent name newparent newname)

def machine : Machine Nodes Action :=
  ⟨.new, step⟩

end JackalopeFs.NodeTable
