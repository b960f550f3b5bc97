import JackalopeFs.EventWindow
import JackalopeFs.NamedForests

/-! # The table of watched directories

The server watches the directories its clients use: a tree from the export root mirroring
the export, in which a directory is watched only below a watched parent, and a map from
watch descriptors to paths.  Requests extend the tree, the events of the watches change
it, and a budget evicts what was used longest ago.  This module embeds the functions of
`Table`, generic in the system they call as the source is.

A mark is shared between its node and the requests and handles that keep the directory
watched; what they change of it, `used` and `holds`, is in `cells`, at the mark's index.
Nodes in a hash map are taken in the order of the forest.  Items go to `out`, which the
callers empty first.  Where the source would subtract from a count of zero, `underflowed`
is set.  Log lines and event counters are left out.
-/

namespace JackalopeFs.WatchTable

open EventWindow NamedForests PathNames

inductive Errno where
  | enoent
  | enospc
  | other (code : ℕ)
  deriving DecidableEq, Repr

structure Marks (System Dir Wd : Type) where
  openDir : Path → System → Except Errno Dir × System
  openChild : Dir → Name → System → Except Errno Dir × System
  add : Dir → System → Except Errno Wd × System
  rm : Wd → System → System

/-- How long an unwatchable directory is left alone, in milliseconds. -/
def unwatchableRetry : ℕ := 60000

def limitedHold : ℕ := 600000

def evictBatch : ℕ := 512

inductive State (Wd : Type) where
  | watched (wd : Wd)
  | unwatchable (retryAt : ℕ)
  deriving DecidableEq, Repr

structure Mark (Wd : Type) where
  state : State Wd
  cell : ℕ
  deriving DecidableEq, Repr

def Mark.wd? {Wd : Type} (mark : Mark Wd) : Option Wd :=
  match mark.state with
  | .watched wd => some wd
  | .unwatchable _ => none

/-- The eviction round a directory was last used in, and what keeps it watched. -/
structure Cell where
  used : ℕ
  holds : ℕ
  deriving DecidableEq, Repr

abbrev Node (Wd : Type) := Mark Wd × Forest Name (Mark Wd)

inductive Kind where
  | create
  | delete
  | movedFrom
  | movedTo
  | modify
  | attrib
  | deleteSelf
  | moveSelf
  | ignored
  | unmount
  | qOverflow
  deriving DecidableEq, Repr

structure RawEvent (Wd : Type) where
  wd : Wd
  kind : Kind
  isDir : Bool
  cookie : ℕ
  name : Option Name
  deriving DecidableEq, Repr

structure Table (System Wd : Type) where
  marks : System
  root : Mark Wd
  children : Forest Name (Mark Wd)
  byWd : AList fun _ : Wd => Path
  watched : ℕ
  budget : ℕ
  capped : Option (ℕ × ℕ)
  round : ℕ
  dead : Bool
  cells : List Cell
  out : List EventItem
  underflowed : Bool

/-- What `touch` found; the cell of the directory now held. -/
inductive Touched where
  | done (held : Option ℕ)
  | missing
  deriving DecidableEq, Repr

/-- The items an event in `dir` about its entry `name` stands for. -/
def itemsFor (dir : Path) (kind : Kind) (name : Name) : List EventItem :=
  match kind with
  | .create | .delete | .movedFrom | .movedTo => [.entry dir name]
  | .modify | .attrib => ((dir.join name).map EventItem.data).toList
  | _ => []

def stamp (cells : List Cell) (cell round : ℕ) : List Cell :=
  cells.modify cell fun c => { c with used := round }

def hold (cells : List Cell) (cell : ℕ) : List Cell :=
  cells.modify cell fun c => { c with holds := c.holds + 1 }

def unhold (cells : List Cell) (cell : ℕ) : List Cell :=
  cells.modify cell fun c => { c with holds := c.holds - 1 }

/-- Walk down from a directory, stamping the watched ones; the cell to hold, if no more is to be
watched. -/
def walk {Wd : Type} (round now : ℕ) : List Cell → Mark Wd → Forest Name (Mark Wd) → List Name →
    List Cell × Option ℕ
  | cells, mark, _, [] => (cells, some mark.cell)
  | cells, mark, children, name :: rest =>
    match children.lookup name with
    | none => (cells, none)
    | some (child, below) =>
      match child.state with
      | .watched _ => walk round now (stamp cells child.cell round) child below rest
      | .unwatchable retryAt => (cells, if now < retryAt then some mark.cell else none)

/-- How many of the first names lead through watched directories. -/
def watchedDepth {Wd : Type} : Forest Name (Mark Wd) → List Name → ℕ
  | _, [] => 0
  | children, name :: rest =>
    match children.lookup name with
    | none => 0
    | some (child, below) => if child.wd?.isSome then watchedDepth below rest + 1 else 0

def deepestWatched {Wd : Type} : Mark Wd → Forest Name (Mark Wd) → List Name → Mark Wd
  | mark, _, [] => mark
  | mark, children, name :: rest =>
    match children.lookup name with
    | none => mark
    | some (child, below) => if child.wd?.isSome then deepestWatched child below rest else mark

def anyWatched {Wd : Type} : Forest Name (Mark Wd) → Bool
  | .nil => false
  | .node _ mark _ rest => mark.wd?.isSome || anyWatched rest

/-- The directories eviction may take, with when each was last used. -/
def leavesOf {Wd : Type} (cells : List Cell) (keep : List Name) (names : List Name) :
    Forest Name (Mark Wd) → List (ℕ × List Name)
  | .nil => []
  | .node name mark below rest =>
    let names' := names ++ [name]
    let cell := (cells[mark.cell]?).getD ⟨0, 0⟩
    (if mark.wd?.isSome then
      if anyWatched below then leavesOf cells keep names' below
      else if cell.holds = 0 ∧ ¬ names' <+: keep then [(cell.used, names')] else []
    else []) ++ leavesOf cells keep names rest

/-- The order in which leaves are evicted: used longest ago, then deepest, then by name. -/
def evictsBefore (a b : ℕ × List Name) : Prop :=
  (compare a.1 b.1).then ((compare b.2.length a.2.length).then
    (compare (a.2.map Name.bytes) (b.2.map Name.bytes))) ≠ .gt

instance : DecidableRel evictsBefore :=
  fun _ _ => inferInstanceAs (Decidable (_ ≠ _))

namespace Table

variable {System Dir Wd : Type} [DecidableEq Wd] (m : Marks System Dir Wd)

def budgetAt (t : Table System Wd) (now : ℕ) : ℕ × Table System Wd :=
  match t.capped with
  | some (cap, till) => if now < till then (cap, t) else (t.budget, { t with capped := none })
  | none => (t.budget, t)

def touch (t : Table System Wd) (dir : Path) (now : ℕ) : Touched × Table System Wd :=
  if t.dead then (.done none, t)
  else
    match walk t.round now t.cells t.root t.children dir.names with
    | (cells, some held) => (.done (some held), { t with cells := hold cells held })
    | (cells, none) => (.missing, { t with cells := cells })

def node (t : Table System Wd) (path : Path) : Option (Node Wd) :=
  match path.names with
  | [] => some (t.root, t.children)
  | names => t.children.get names

/-- The descriptor of the directory at `path`, if the table has it there and watched. -/
def watchedAt (t : Table System Wd) (path : Path) : Option Wd :=
  (t.node path).bind fun n => n.1.wd?

def dropMark (t : Table System Wd) (announce : Bool) (path : Path) (mark : Mark Wd) :
    Table System Wd :=
  match mark.state with
  | .unwatchable _ => t
  | .watched wd =>
    { t with
      marks := if (t.byWd.lookup wd).isSome then m.rm wd t.marks else t.marks
      byWd := t.byWd.erase wd
      watched := t.watched - 1
      underflowed := t.underflowed || t.watched == 0
      out := if announce then t.out ++ [.unwatched path] else t.out }

/-- Stop watching the directories of a forest below `path`; one whose path would be too long is
announced as the one above it. -/
def dropBelow (announce : Bool) : Table System Wd → Path → Forest Name (Mark Wd) →
    Table System Wd
  | t, _, .nil => t
  | t, path, .node name mark below rest =>
    let childPath := (path.join name).getD path
    dropBelow announce
      ((dropBelow announce t childPath below).dropMark m announce childPath mark) path rest

/-- Stop watching a directory, at `path`, and everything below it. -/
def dropTree (t : Table System Wd) (announce : Bool) (path : Path) (n : Node Wd) :
    Table System Wd :=
  (dropBelow m announce t path n.2).dropMark m announce path n.1

def detach (t : Table System Wd) (path : Path) : Option (Node Wd) × Table System Wd :=
  match path.splitLast with
  | none => (none, t)
  | some (parent, name) =>
    match (t.children.under parent.names).bind fun slot => slot.lookup name with
    | none => (none, t)
    | some n =>
      (some n, { t with children := t.children.change parent.names (Forest.erase name) })

def dropAt (t : Table System Wd) (announce : Bool) (path : Path) : Table System Wd :=
  match t.detach path with
  | (some n, t) => t.dropTree m announce path n
  | (none, t) => t

/-- Record a node at `path`; whatever was there is dropped, and the node itself if the table does
not have the directory above. -/
def put (t : Table System Wd) (path : Path) (n : Node Wd) : Table System Wd :=
  match path.splitLast with
  | none => t
  | some (parent, name) =>
    match t.children.under parent.names with
    | none => t.dropTree m true path n
    | some slot =>
      let t' := { t with children := t.children.change parent.names (Forest.insert name n) }
      match slot.lookup name with
      | some displaced => t'.dropTree m true path displaced
      | none => t'

def rekeyMark (t : Table System Wd) (path : Path) (mark : Mark Wd) : Table System Wd :=
  match mark.state with
  | .watched wd => { t with byWd := t.byWd.insert wd path }
  | .unwatchable _ => t

/-- Record the directories of a forest below `path`; one whose path would be too long is dropped. -/
def rekeyBelow : Table System Wd → Path → Forest Name (Mark Wd) →
    Table System Wd × Forest Name (Mark Wd)
  | t, _, .nil => (t, .nil)
  | t, path, .node name mark below rest =>
    match path.join name with
    | some childPath =>
      let (t, below) := rekeyBelow (t.rekeyMark childPath mark) childPath below
      let (t, rest) := rekeyBelow t path rest
      (t, .node name mark below rest)
    | none => rekeyBelow (t.dropTree m true path (mark, below)) path rest

def rekey (t : Table System Wd) (path : Path) (n : Node Wd) : Table System Wd × Node Wd :=
  let (t, below) := rekeyBelow m (t.rekeyMark path n.1) path n.2
  (t, n.1, below)

/-- Move the directory at `source`, and everything below it, to `target`. -/
def reroot (t : Table System Wd) (source target : Path) : Bool × Table System Wd :=
  match t.detach source with
  | (none, t) => (false, t)
  | (some n, t) =>
    let (t, n) := t.rekey m target n
    (true, t.put m target n)

def limited (t : Table System Wd) (now : ℕ) : Table System Wd :=
  { t with capped := some (t.watched, now + limitedHold) }

def dropLeaf (t : Table System Wd) (names : List Name) : Table System Wd :=
  match Path.fromNames names with
  | some victim => t.dropAt m true victim
  | none => t

/-- Drop leaves until `want` have gone or none is left. -/
def evictLoop (keep : Path) : ℕ → Table System Wd → ℕ → Table System Wd
  | 0, t, _ => t
  | fuel + 1, t, want =>
    let leaves := leavesOf t.cells keep.names [] t.children
    if want = 0 ∨ leaves = [] then t
    else
      let victims := (leaves.insertionSort evictsBefore).take want
      evictLoop keep fuel
        (victims.foldl (fun t leaf => t.dropLeaf m leaf.2) t) (want - victims.length)

/-- Make room for one more watch by dropping the directories used longest ago, each announced. -/
def evict (t : Table System Wd) (keep : Path) (now : ℕ) : Table System Wd :=
  let (budget, t) := t.budgetAt now
  let want := max (t.watched + 1 - budget) (max 1 (min (budget / 16) evictBatch))
  evictLoop m keep want { t with round := t.round + 1 } want

def newMark (t : Table System Wd) (state : State Wd) : Mark Wd × Table System Wd :=
  (⟨state, t.cells.length⟩, { t with cells := t.cells ++ [⟨t.round, 0⟩] })

def enter (t : Table System Wd) (path : Path) (wd : Wd) : Table System Wd :=
  let (mark, t) := t.newMark (.watched wd)
  put m { t with byWd := t.byWd.insert wd path, watched := t.watched + 1 } path (mark, .nil)

/-- Record the watch `wd` at `path`; a descriptor known under another path moves there. -/
def place (t : Table System Wd) (path : Path) (wd : Wd) (now : ℕ) : Bool × Table System Wd :=
  match t.byWd.lookup wd with
  | some old => if old = path then (true, t) else t.reroot m old path
  | none =>
    let (budget, t) := t.budgetAt now
    let t := if budget ≤ t.watched then t.evict m path now else t
    (true, t.enter m path wd)

/-- Whether `dir`, just opened at `path`, is the directory watched there; if it is another, that one
is dropped and `dir` watched in its place. -/
def verify (t : Table System Wd) (path : Path) (dir : Dir) (now : ℕ) : Bool × Table System Wd :=
  match t.watchedAt path with
  | none => (false, t)
  | some wd =>
    match m.add dir t.marks with
    | (.ok found, marks) =>
      let t := { t with marks := marks }
      if found = wd then (true, t) else (t.dropAt m true path).place m path found now
    | (.error _, marks) => (false, { t with marks := marks })

def noSpace : Except Errno Wd → Bool
  | .error .enospc => true
  | _ => false

def addOnce (t : Table System Wd) (dir : Dir) : Except Errno Wd × Table System Wd :=
  let (added, marks) := m.add dir t.marks
  (added, { t with marks := marks })

/-- Watch `dir`; if the system has no more watches, make room and try once more. -/
def addMark (t : Table System Wd) (path : Path) (dir : Dir) (now : ℕ) :
    Except Errno Wd × Table System Wd :=
  let (added, t) := t.addOnce m dir
  if noSpace added ∧ 0 < t.watched then ((t.limited now).evict m path now).addOnce m dir
  else (added, t)

/-- Watch `dir`, resolved at `path` inside a directory the table has, and record it there. -/
def install (t : Table System Wd) (path : Path) (dir : Dir) (now : ℕ) : Bool × Table System Wd :=
  match t.addMark m path dir now with
  | (.ok wd, t) => t.place m path wd now
  | (.error _, t) =>
    let (mark, t) := t.newMark (.unwatchable (now + unwatchableRetry))
    (false, t.put m path (mark, .nil))

/-- Watch the directories at these depths of `path`, each inside the one before. -/
def installAll (path : Path) (now : ℕ) : Table System Wd → Dir → List (Name × ℕ) → Table System Wd
  | t, _, [] => t
  | t, dir, (name, depth) :: rest =>
    match m.openChild dir name t.marks with
    | (.error _, marks) => { t with marks := marks }
    | (.ok child, marks) =>
      match ({ t with marks := marks } : Table System Wd).install m (path.upTo depth) child now with
      | (false, t) => t
      | (true, t) => installAll path now t child rest

/-- Watch the names of `path` from `depth` on, stopping at the first that cannot be resolved or
watched. -/
def extend (t : Table System Wd) (path : Path) (depth now : ℕ) : Table System Wd :=
  match m.openDir (path.upTo depth) t.marks with
  | (.error _, marks) => { t with marks := marks }
  | (.ok dir, marks) =>
    let t := { t with marks := marks }
    let (holds, t) := if 0 < depth then t.verify m (path.upTo depth) dir now else (true, t)
    if holds then installAll m path now t dir ((path.names.drop depth).zipIdx (depth + 1)) else t

/-- Watch `dir` and every directory above it; the cell of the deepest watched one, now held. -/
def arm (t : Table System Wd) (dir : Path) (now : ℕ) : Option ℕ × Table System Wd :=
  match t.touch dir now with
  | (.done held, t) => (held, t)
  | (.missing, t) =>
    let t := t.extend m dir (watchedDepth t.children dir.names) now
    let held := (deepestWatched t.root t.children dir.names).cell
    (some held, { t with cells := hold t.cells held })

def isDir (t : Table System Wd) (dir : Dir) (wd : Wd) : Bool × Table System Wd :=
  match m.add dir t.marks with
  | (.ok found, marks) =>
    if found = wd then (true, { t with marks := marks })
    else if (t.byWd.lookup found).isSome then (false, { t with marks := marks })
    else (false, { t with marks := m.rm found marks })
  | (.error _, marks) => (false, { t with marks := marks })

/-- Whether the directory the table has at `path` is still the one there. -/
def stillThere (t : Table System Wd) (path : Path) : Bool × Table System Wd :=
  match t.watchedAt path with
  | none => (false, t)
  | some wd =>
    match m.openDir path t.marks with
    | (.ok dir, marks) => ({ t with marks := marks } : Table System Wd).isDir m dir wd
    | (.error _, marks) => (false, { t with marks := marks })

/-- The directory in `parent` that a node stands for, if it is still there. -/
def stillHere (t : Table System Wd) (parent : Dir) (name : Name) (mark : Mark Wd) :
    Option Dir × Table System Wd :=
  match mark.wd? with
  | none => (none, t)
  | some wd =>
    match m.openChild parent name t.marks with
    | (.ok dir, marks) =>
      let (same, t) := ({ t with marks := marks } : Table System Wd).isDir m dir wd
      (if same then some dir else none, t)
    | (.error _, marks) => (none, { t with marks := marks })

/-- Keep of a forest below `path` what is still there, and drop the rest, announced. -/
def recheckBelow : Table System Wd → Dir → Path → Forest Name (Mark Wd) →
    Table System Wd × Forest Name (Mark Wd)
  | t, _, _, .nil => (t, .nil)
  | t, parent, path, .node name mark below rest =>
    let childPath := (path.join name).getD path
    match t.stillHere m parent name mark with
    | (some dir, t) =>
      let (t, below) := recheckBelow t dir childPath below
      let (t, rest) := recheckBelow t parent path rest
      (t, .node name mark below rest)
    | (none, t) => recheckBelow (t.dropTree m true childPath (mark, below)) parent path rest

/-- After lost events: keep each watched directory that is still where the table has it. -/
def recheck (t : Table System Wd) : Table System Wd :=
  match m.openDir .root t.marks with
  | (.ok root, marks) =>
    let (t', kept) := recheckBelow m { t with marks := marks, children := .nil } root .root t.children
    { t' with children := kept }
  | (.error _, marks) => dropBelow m true { t with marks := marks, children := .nil } .root t.children

/-- The root's own watch ended: nothing is watched from here on. -/
def die (t : Table System Wd) : Table System Wd :=
  { t with children := .nil, byWd := ∅, watched := 0, dead := true }

def push (t : Table System Wd) (items : List EventItem) : Table System Wd :=
  { t with out := t.out ++ items }

/-- What an event in `dir` reports, and the entry it is about. -/
def report (t : Table System Wd) (dir : Path) (event : RawEvent Wd) :
    Option Name × Table System Wd :=
  match event.name with
  | none =>
    (none, if dir.isRoot ∧ (event.kind = .modify ∨ event.kind = .attrib)
      then t.push [.data dir] else t)
  | some name => (some name, t.push (itemsFor dir event.kind name))

end Table

/-- Directories on their way, by the cookie of the move. -/
abbrev Moving (Wd : Type) := AList fun _ : ℕ => Path × Node Wd

namespace Table

variable {System Dir Wd : Type} [DecidableEq Wd] (m : Marks System Dir Wd)

def dropMoving (t : Table System Wd) (moving : Moving Wd) : Table System Wd :=
  moving.entries.foldl (fun t e => t.dropTree m true e.2.1 e.2.2) t

def movedFrom (t : Table System Wd) (moving : Moving Wd) (path : Path) (cookie : ℕ) :
    Table System Wd × Moving Wd :=
  match t.stillThere m path with
  | (true, t) => (t, moving)
  | (false, t) =>
    match t.detach path with
    | (some n, t) => (t, moving.insert cookie (path, n))
    | (none, t) => (t, moving)

def movedTo (t : Table System Wd) (moving : Moving Wd) (path : Path) (cookie : ℕ) :
    Table System Wd × Moving Wd :=
  let arrived := moving.lookup cookie
  let left := moving.erase cookie
  match t.stillThere m path with
  | (true, t) =>
    (match arrived with
      | some (source, n) => t.dropTree m true source n
      | none => t, left)
  | (false, t) =>
    let t := t.dropAt m true path
    (match arrived with
      | some (_, n) =>
        let (t, n) := t.rekey m path n
        t.put m path n
      | none => t, left)

def deleted (t : Table System Wd) (path : Path) : Table System Wd :=
  match t.stillThere m path with
  | (true, t) => t
  | (false, t) => t.dropAt m true path

def ended (t : Table System Wd) (dir : Path) (kind : Kind) : Table System Wd :=
  if dir.isRoot then t.die.push [.overflow]
  else if kind = .ignored then t.dropAt m false dir
  else t

def entryChanged (t : Table System Wd) (moving : Moving Wd) (path : Path) (kind : Kind)
    (cookie : ℕ) : Table System Wd × Moving Wd :=
  match kind with
  | .movedFrom => t.movedFrom m moving path cookie
  | .movedTo => t.movedTo m moving path cookie
  | .delete => (t.deleted m path, moving)
  | _ => (t, moving)

/-- An event about an entry of the directory at `dir`, or the root's own. -/
def applyEntry (t : Table System Wd) (moving : Moving Wd) (dir : Path) (event : RawEvent Wd) :
    Table System Wd × Moving Wd :=
  match t.report dir event with
  | (none, t) => (t, moving)
  | (some name, t) =>
    if event.isDir then
      match dir.join name with
      | some path => t.entryChanged m moving path event.kind event.cookie
      | none => (t, moving)
    else (t, moving)

def applyIn (t : Table System Wd) (moving : Moving Wd) (dir : Path) (event : RawEvent Wd) :
    Table System Wd × Moving Wd :=
  match event.kind with
  | .ignored | .unmount | .deleteSelf => (t.ended m dir event.kind, moving)
  | .moveSelf => (t, moving)
  | _ => t.applyEntry m moving dir event

def applyEvent (t : Table System Wd) (moving : Moving Wd) (event : RawEvent Wd) :
    Table System Wd × Moving Wd :=
  if t.dead then (t, moving)
  else if event.kind = .qOverflow then
    ((t.dropMoving m moving).push [.overflow] |>.recheck m, ∅)
  else
    match t.byWd.lookup event.wd with
    | none => (t, moving)
    | some dir => t.applyIn m moving dir event

def apply (t : Table System Wd) (events : List (RawEvent Wd)) : Table System Wd :=
  let (t, moving) := events.foldl (fun s event => s.1.applyEvent m s.2 event) (t, ∅)
  t.dropMoving m moving

end Table

end JackalopeFs.WatchTable
