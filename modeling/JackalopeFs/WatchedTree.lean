import JackalopeFs.WatchTable

/-! # A directory tree under watch

The directories of an export, what other processes do to them, and the watches on them: a
directory has one descriptor while it is watched, descriptors are never given twice, and
one ends when its directory is deleted.  A change in a watched directory is queued as an
event, or lost with an overflow queued in its place.  Directories outside the export are
in the world too, since a watched one may be moved there and back.

Other processes act between any two system calls of the table: a step's `turns` say, for
each system call it makes, what happens before it and whether it fails.
-/

namespace JackalopeFs.WatchedTree

open EventWindow KeyedTables PathNames TransitionRuns WatchTable

/-- A directory, by the way to it from the export root (the directory 0) or from the top of a tree
outside the export. -/
structure Place where
  top : ℕ
  names : List Name
  deriving DecidableEq, Repr

inductive Change where
  | mkdir (dir : Place) (name : Name)
  | mkdirOutside
  | rmdir (dir : Place) (name : Name)
  | rename (dir : Place) (name : Name) (newdir : Place) (newname : Name)
  | exchange (dir : Place) (name : Name) (newdir : Place) (newname : Name)
  | moveOut (dir : Place) (name : Name)
  | moveIn (top : ℕ) (dir : Place) (name : Name)
  | other (dir : Place) (kind : Kind) (name : Option Name)
  | unmount
  deriving DecidableEq, Repr

/-- What happens before a system call, each change with whether its events are lost, and the error
of the call if it fails. -/
structure Turn where
  changes : List (Change × Bool)
  fails : Option Errno
  deriving DecidableEq, Repr

/-- `entries` are the subdirectories of each directory by name; `marks` the descriptors in place
and `given` the directory each descriptor was given for. -/
structure World where
  entries : AList fun _ : ℕ × Name => ℕ
  dirs : ℕ
  deleted : List ℕ
  marks : AList fun _ : ℕ => ℕ
  given : List ℕ
  queue : List (RawEvent ℕ)
  cookies : ℕ
  turns : List Turn

namespace World

def resolveFrom (entries : AList fun _ : ℕ × Name => ℕ) (dir : ℕ) (names : List Name) : Option ℕ :=
  names.foldlM (fun i name => entries.lookup (i, name)) dir

def resolve (w : World) (names : List Name) : Option ℕ :=
  resolveFrom w.entries 0 names

def present (w : World) (i : ℕ) : Bool :=
  i < w.dirs ∧ i ∉ w.deleted

/-- Whether a directory is the export root or outside the export, and in no other. -/
def isTop (w : World) (i : ℕ) : Bool :=
  w.present i ∧ ∀ e ∈ w.entries.entries, e.2 ≠ i

def isEmpty (w : World) (i : ℕ) : Bool :=
  ∀ e ∈ w.entries.entries, e.1.1 ≠ i

def dirAt (w : World) (place : Place) : Option ℕ :=
  if w.isTop place.top then resolveFrom w.entries place.top place.names else none

/-- The entry `name` of the directory at `place`, with that directory. -/
def entryAt (w : World) (place : Place) (name : Name) : Option (ℕ × ℕ) :=
  (w.dirAt place).bind fun dir => (w.entries.lookup (dir, name)).map fun i => (dir, i)

/-- The event of a watched directory, if it is watched. -/
def event (w : World) (dir : ℕ) (kind : Kind) (isDir : Bool) (cookie : ℕ) (name : Option Name) :
    List (RawEvent ℕ) :=
  ((w.marks.lookup dir).map fun wd => ⟨wd, kind, isDir, cookie, name⟩).toList

def delete (w : World) (i : ℕ) : World :=
  { w with
    deleted := i :: w.deleted
    marks := w.marks.erase i
    queue := w.queue ++ w.event i .deleteSelf false 0 none ++ w.event i .ignored false 0 none }

/-- Whether a directory can be moved to `dir/name`: there is none, or an empty one to replace. -/
def free (w : World) (dir : ℕ) (name : Name) : Bool :=
  (w.entries.lookup (dir, name)).all w.isEmpty

def log (w : World) (events : List (RawEvent ℕ)) : World :=
  { w with queue := w.queue ++ events }

/-- Entries have changed, with these events; after them the directory that is gone is deleted. -/
def settle (w : World) (entries : AList fun _ : ℕ × Name => ℕ) (events : List (RawEvent ℕ))
    (gone : Option ℕ) (cookies : ℕ) : World :=
  let w := { (w.log events) with entries := entries, cookies := cookies }
  gone.elim w w.delete

/-- The world after a change, unless it is not possible. -/
def change (w : World) : Change → Option World
  | .mkdir place name =>
    (w.dirAt place).bind fun dir =>
      if w.entries.lookup (dir, name) = none then
        some { (w.log (w.event dir .create true 0 (some name))) with
          entries := w.entries.insert (dir, name) w.dirs
          dirs := w.dirs + 1 }
      else none
  | .mkdirOutside => some { w with dirs := w.dirs + 1 }
  | .rmdir place name =>
    (w.entryAt place name).bind fun (dir, i) =>
      if w.isEmpty i then
        some (w.settle (w.entries.erase (dir, name)) (w.event dir .delete true 0 (some name))
          (some i) w.cookies)
      else none
  | .rename place name newplace newname =>
    (w.entryAt place name).bind fun (dir, i) =>
      (w.dirAt newplace).bind fun newdir =>
        if ¬ (place.top = newplace.top ∧ place.names ++ [name] <+: newplace.names) ∧
            (dir, name) ≠ (newdir, newname) ∧ w.free newdir newname then
          some (w.settle ((w.entries.erase (dir, name)).insert (newdir, newname) i)
            (w.event dir .movedFrom true w.cookies (some name) ++
              w.event newdir .movedTo true w.cookies (some newname) ++
              w.event i .moveSelf false 0 none)
            (w.entries.lookup (newdir, newname)) (w.cookies + 1))
        else none
  | .exchange place name newplace newname =>
    (w.entryAt place name).bind fun (dir, i) =>
      (w.entryAt newplace newname).bind fun (newdir, j) =>
        if ¬ (place.top = newplace.top ∧ place.names ++ [name] <+: newplace.names) ∧
            ¬ (place.top = newplace.top ∧ newplace.names ++ [newname] <+: place.names) ∧
            (dir, name) ≠ (newdir, newname) then
          some (w.settle ((w.entries.insert (dir, name) j).insert (newdir, newname) i)
            (w.event dir .movedFrom true w.cookies (some name) ++
              w.event newdir .movedTo true w.cookies (some newname) ++
              w.event newdir .movedFrom true (w.cookies + 1) (some newname) ++
              w.event dir .movedTo true (w.cookies + 1) (some name) ++
              w.event i .moveSelf false 0 none ++
              w.event j .moveSelf false 0 none)
            none (w.cookies + 2))
        else none
  | .moveOut place name =>
    (w.entryAt place name).map fun (dir, i) =>
      w.settle (w.entries.erase (dir, name))
        (w.event dir .movedFrom true w.cookies (some name) ++ w.event i .moveSelf false 0 none)
        none (w.cookies + 1)
  | .moveIn top place name =>
    (w.dirAt place).bind fun dir =>
      if w.isTop top ∧ top ≠ 0 ∧ top ≠ place.top ∧ w.free dir name then
        some (w.settle (w.entries.insert (dir, name) top)
          (w.event dir .movedTo true w.cookies (some name) ++ w.event top .moveSelf false 0 none)
          (w.entries.lookup (dir, name)) (w.cookies + 1))
      else none
  | .other place kind name =>
    if kind ∈ [.create, .delete, .movedFrom, .movedTo, .modify, .attrib] then
      (w.dirAt place).map fun dir => w.settle w.entries (w.event dir kind false 0 name) none w.cookies
    else none
  | .unmount =>
    some { w with
      deleted := List.range w.dirs ++ w.deleted
      marks := ∅
      queue := w.queue ++ w.marks.entries.flatMap fun e =>
        [⟨e.2, .unmount, false, 0, none⟩, ⟨e.2, .ignored, false, 0, none⟩] }

def overflowEvent : RawEvent ℕ :=
  ⟨0, .qOverflow, false, 0, none⟩

def happens (w : World) (change : Change) (lost : Bool) : Option World :=
  (w.change change).map fun w' =>
    if lost then { w' with queue := w.queue ++ [overflowEvent] } else w'

/-- What happens before the next system call, and whether that fails. -/
def yield (w : World) : Option Errno × World :=
  match w.turns with
  | [] => (none, w)
  | turn :: rest =>
    (turn.fails,
      { turn.changes.foldl (fun w c => (w.happens c.1 c.2).getD w) w with turns := rest })

def openDir (path : Path) (w : World) : Except Errno ℕ × World :=
  match w.yield with
  | (some e, w) => (.error e, w)
  | (none, w) => ((w.resolve path.names).elim (.error .enoent) .ok, w)

def openChild (dir : ℕ) (name : Name) (w : World) : Except Errno ℕ × World :=
  match w.yield with
  | (some e, w) => (.error e, w)
  | (none, w) => ((w.entries.lookup (dir, name)).elim (.error .enoent) .ok, w)

/-- Watch a directory; one already watched gives the descriptor it has. -/
def add (dir : ℕ) (w : World) : Except Errno ℕ × World :=
  match w.yield with
  | (some e, w) => (.error e, w)
  | (none, w) =>
    if w.present dir = false then (.error .enoent, w)
    else
      match w.marks.lookup dir with
      | some wd => (.ok wd, w)
      | none =>
        (.ok w.given.length,
          { w with marks := w.marks.insert dir w.given.length, given := w.given ++ [dir] })

/-- Stop watching; a descriptor whose directory is gone has ended already. -/
def rm (wd : ℕ) (w : World) : World :=
  let w := w.yield.2
  match w.given[wd]? with
  | none => w
  | some dir =>
    if w.marks.lookup dir = some wd then
      { w with
        marks := w.marks.erase dir
        queue := w.queue ++ [⟨wd, .ignored, false, 0, none⟩] }
    else w

def start : World where
  entries := ∅
  dirs := 1
  deleted := []
  marks := AList.singleton 0 0
  given := [0]
  queue := []
  cookies := 0
  turns := []

end World

def inotified : Marks World ℕ ℕ :=
  ⟨World.openDir, World.openChild, World.add, World.rm⟩

/-- The table, and the cells of what keeps directories watched. -/
structure Watches where
  table : Table World ℕ
  armed : List ℕ

namespace Watches

def new (budget : ℕ) : Watches where
  table :=
    { marks := .start
      root := ⟨.watched 0, 0⟩
      children := .nil
      byWd := AList.singleton 0 .root
      watched := 0
      budget := budget
      capped := none
      round := 0
      dead := false
      cells := [⟨0, 0⟩]
      out := []
      underflowed := false }
  armed := []

inductive Action where
  | change (change : Change) (lost : Bool)
  | touch (dir : Path) (now : ℕ)
  | arm (dir : Path) (now : ℕ) (turns : List Turn)
  | release (guard : ℕ)
  | apply (count : ℕ) (turns : List Turn)
  deriving DecidableEq, Repr

/-- The table at the start of a step, its items still to come. -/
def begin (s : Watches) (turns : List Turn) : Table World ℕ :=
  { s.table with out := [], marks := { s.table.marks with turns := turns } }

/-- The first events of the queue, and the table without them. -/
def read (t : Table World ℕ) (count : ℕ) : List (RawEvent ℕ) × Table World ℕ :=
  (t.marks.queue.take count,
    { t with marks := { t.marks with queue := t.marks.queue.drop count } })

def armedBy (s : Watches) (r : Option ℕ × Table World ℕ) : Watches :=
  ⟨r.2, s.armed ++ r.1.toList⟩

def step (s : Watches) : Action → Option Watches
  | .change c lost =>
    (s.table.marks.happens c lost).map fun w => { s with table := { s.table with marks := w } }
  | .touch dir now =>
    match (s.begin []).touch dir now with
    | (.done held, t) => some (s.armedBy (held, t))
    | (.missing, t) => some { s with table := t }
  | .arm dir now turns => some (s.armedBy ((s.begin turns).arm inotified dir now))
  | .release guard =>
    (s.armed[guard]?).map fun cell =>
      ⟨{ s.table with cells := unhold s.table.cells cell }, s.armed.eraseIdx guard⟩
  | .apply count turns =>
    let (events, t) := read (s.begin turns) count
    some { s with table := t.apply inotified events }

def machine (budget : ℕ) : Machine Watches Action :=
  ⟨.new budget, step⟩

end Watches

end JackalopeFs.WatchedTree
