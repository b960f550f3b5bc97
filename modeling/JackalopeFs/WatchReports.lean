import JackalopeFs.WatchBooks

/-! # Events that only report

Events are read with a mask of flags and the bytes of a name.  Those that change which
directories the table has where are told by `structural`, a classification of its own; a
batch without one is not applied but only reported, under the table's read lock.  What
`apply` would have done with such a batch, in every table that can be reached, is exactly
that: the table and the system stay as they are, and the items are those of the reports.

Flags are 32-bit masks, as the system has them.  An event of one kind with a valid name or
none is the one that the other modules know by its kind.
-/

namespace JackalopeFs.WatchTable

open EventWindow NamedForests PathNames TransitionRuns

set_option linter.unusedSectionVars false

namespace AddWatchFlags

def inModify : BitVec 32 := 0x2
def inAttrib : BitVec 32 := 0x4
def inMovedFrom : BitVec 32 := 0x40
def inMovedTo : BitVec 32 := 0x80
def inCreate : BitVec 32 := 0x100
def inDelete : BitVec 32 := 0x200
def inDeleteSelf : BitVec 32 := 0x400
def inMoveSelf : BitVec 32 := 0x800
def inUnmount : BitVec 32 := 0x2000
def inQOverflow : BitVec 32 := 0x4000
def inIgnored : BitVec 32 := 0x8000
def inIsdir : BitVec 32 := 0x40000000

end AddWatchFlags

open AddWatchFlags

def intersects (mask flags : BitVec 32) : Bool :=
  mask &&& flags ≠ 0

def contains (mask flags : BitVec 32) : Bool :=
  mask &&& flags = flags

structure ReadEvent (Wd : Type) where
  wd : Wd
  mask : BitVec 32
  cookie : ℕ
  name : Option (List UInt8)
  deriving DecidableEq, Repr

/-- The items an event in `dir` about its entry `name` stands for, by its mask. -/
def itemsForMask (dir : Path) (mask : BitVec 32) (name : Name) : List EventItem :=
  (if intersects mask (inCreate ||| inDelete ||| inMovedFrom ||| inMovedTo)
    then [.entry dir name] else []) ++
  if intersects mask (inModify ||| inAttrib) then ((dir.join name).map EventItem.data).toList else []

/-- Whether an event with this mask changes which directories the table has where. -/
def structural (mask : BitVec 32) : Bool :=
  intersects mask (inQOverflow ||| inIgnored ||| inUnmount ||| inDeleteSelf) ||
    (contains mask inIsdir && intersects mask (inMovedFrom ||| inMovedTo ||| inDelete))

namespace Table

variable {System Dir Wd : Type} [DecidableEq Wd]

/-- The entry that an event is about, and the items it reports. -/
def reportOf (t : Table System Wd) (event : ReadEvent Wd) : Option (Path × Name) × List EventItem :=
  match t.byWd.lookup event.wd with
  | none => (none, [])
  | some dir =>
    match event.name with
    | none =>
      (none, if dir.isRoot ∧ intersects event.mask (inModify ||| inAttrib) then [.data dir] else [])
    | some bytes =>
      match Name.new bytes with
      | .error _ => (none, [])
      | .ok name => (some (dir, name), itemsForMask dir event.mask name)

def reports (t : Table System Wd) (events : List (ReadEvent Wd)) : List EventItem :=
  events.flatMap fun event => (t.reportOf event).2

variable (m : Marks System Dir Wd)

def changeEntry (t : Table System Wd) (moving : Moving Wd) (path : Path) (mask : BitVec 32)
    (cookie : ℕ) : Table System Wd × Moving Wd :=
  if contains mask inMovedFrom then t.movedFrom m moving path cookie
  else if contains mask inMovedTo then t.movedTo m moving path cookie
  else if contains mask inDelete then (t.deleted m path, moving)
  else (t, moving)

/-- An event about an entry of a directory, or the root's own. -/
def applyReadEntry (t : Table System Wd) (moving : Moving Wd) (event : ReadEvent Wd) :
    Table System Wd × Moving Wd :=
  match t.reportOf event with
  | (none, items) => (t.push items, moving)
  | (some (dir, name), items) =>
    if contains event.mask inIsdir then
      match dir.join name with
      | some path => (t.push items).changeEntry m moving path event.mask event.cookie
      | none => (t.push items, moving)
    else (t.push items, moving)

def applyReadIn (t : Table System Wd) (moving : Moving Wd) (dir : Path) (event : ReadEvent Wd) :
    Table System Wd × Moving Wd :=
  if intersects event.mask (inIgnored ||| inUnmount ||| inDeleteSelf) then
    (if dir.isRoot then t.die.push [.overflow]
      else if contains event.mask inIgnored then t.dropAt m false dir
      else t, moving)
  else if contains event.mask inMoveSelf then (t, moving)
  else t.applyReadEntry m moving event

def applyRead (t : Table System Wd) (moving : Moving Wd) (event : ReadEvent Wd) :
    Table System Wd × Moving Wd :=
  if t.dead then (t, moving)
  else if contains event.mask inQOverflow then
    ((t.dropMoving m moving).push [.overflow] |>.recheck m, ∅)
  else
    match t.byWd.lookup event.wd with
    | none => (t, moving)
    | some dir => t.applyReadIn m moving dir event

def applyAll (t : Table System Wd) (events : List (ReadEvent Wd)) : Table System Wd :=
  let (t, moving) := events.foldl (fun s event => s.1.applyRead m s.2 event) (t, ∅)
  t.dropMoving m moving

def new (system : System) (budget : ℕ) : Except Errno (Table System Wd) :=
  match m.openDir .root system with
  | (.error e, _) => .error e
  | (.ok dir, system) =>
    match m.add dir system with
    | (.error e, _) => .error e
    | (.ok wd, system) => .ok
        { marks := system
          root := ⟨.watched wd, 0⟩
          children := .nil
          byWd := AList.singleton wd .root
          watched := 0
          budget := budget
          capped := none
          round := 0
          dead := false
          cells := [⟨0, 0⟩]
          out := []
          underflowed := false }

end Table

section Kinds

def Kind.flag : Kind → BitVec 32
  | .create => inCreate
  | .delete => inDelete
  | .movedFrom => inMovedFrom
  | .movedTo => inMovedTo
  | .modify => inModify
  | .attrib => inAttrib
  | .deleteSelf => inDeleteSelf
  | .moveSelf => inMoveSelf
  | .ignored => inIgnored
  | .unmount => inUnmount
  | .qOverflow => inQOverflow

/-- The mask of an event of one kind, about a directory or not. -/
def Kind.mask (kind : Kind) (isDir : Bool) : BitVec 32 :=
  if isDir then kind.flag ||| inIsdir else kind.flag

def RawEvent.read {Wd : Type} (event : RawEvent Wd) : ReadEvent Wd :=
  ⟨event.wd, event.kind.mask event.isDir, event.cookie, event.name.map Name.bytes⟩

variable {System Dir Wd : Type} [DecidableEq Wd] {m : Marks System Dir Wd}

theorem contains_mask (kind other : Kind) (isDir : Bool) :
    contains (kind.mask isDir) other.flag = decide (kind = other) := by
  cases kind <;> cases other <;> cases isDir <;> decide

theorem contains_mask_isdir (kind : Kind) (isDir : Bool) : contains (kind.mask isDir) inIsdir = isDir := by
  cases kind <;> cases isDir <;> decide

theorem intersects_ended (kind : Kind) (isDir : Bool) :
    intersects (kind.mask isDir) (inIgnored ||| inUnmount ||| inDeleteSelf) =
      decide (kind = .ignored ∨ kind = .unmount ∨ kind = .deleteSelf) := by
  cases kind <;> cases isDir <;> decide

theorem intersects_data (kind : Kind) (isDir : Bool) :
    intersects (kind.mask isDir) (inModify ||| inAttrib) = decide (kind = .modify ∨ kind = .attrib) := by
  cases kind <;> cases isDir <;> decide

theorem intersects_entry (kind : Kind) (isDir : Bool) :
    intersects (kind.mask isDir) (inCreate ||| inDelete ||| inMovedFrom ||| inMovedTo) =
      decide (kind = .create ∨ kind = .delete ∨ kind = .movedFrom ∨ kind = .movedTo) := by
  cases kind <;> cases isDir <;> decide

theorem itemsForMask_mask (dir : Path) (kind : Kind) (isDir : Bool) (name : Name) :
    itemsForMask dir (kind.mask isDir) name = itemsFor dir kind name := by
  rw [itemsForMask, intersects_entry, intersects_data]
  cases kind <;> simp [itemsFor]

theorem new_bytes (name : Name) : Name.new name.bytes = .ok name := by
  unfold Name.new
  split
  · next error invalid => simp [name.valid] at invalid
  · rfl

variable {event : RawEvent Wd}

section

variable (t : Table System Wd)

theorem reportOf_read {dir : Path}
    (known : t.byWd.lookup event.wd = some dir) :
    t.report dir event = ((t.reportOf event.read).1.map Prod.snd, t.push (t.reportOf event.read).2) := by
  have found : t.byWd.lookup event.read.wd = some dir := known
  unfold Table.report Table.reportOf
  rw [found]
  cases named : event.name with
  | none =>
    simp only [RawEvent.read, named, Option.map_none, intersects_data, decide_eq_true_eq]
    split_ifs
    · rfl
    · simp [Table.push]
  | some =>
    simp only [RawEvent.read, named, Option.map_some, new_bytes, itemsForMask_mask]

theorem reportOf_dir {event : ReadEvent Wd} {dir dir' : Path} {name : Name}
    (known : t.byWd.lookup event.wd = some dir) (about : (t.reportOf event).1 = some (dir', name)) :
    dir' = dir := by
  unfold Table.reportOf at about
  rw [known] at about
  simp only at about
  split at about
  · cases about
  · split at about
    · cases about
    · cases about
      rfl

theorem changeEntry_mask (moving : Moving Wd) (path : Path) (kind : Kind)
    (isDir : Bool) (cookie : ℕ) :
    t.changeEntry m moving path (kind.mask isDir) cookie = t.entryChanged m moving path kind cookie := by
  have away := contains_mask kind .movedFrom isDir
  have here := contains_mask kind .movedTo isDir
  have delete := contains_mask kind .delete isDir
  simp only [Kind.flag] at away here delete
  rw [Table.changeEntry, away, here, delete]
  cases kind <;> rfl

theorem applyReadEntry_read (moving : Moving Wd) {dir : Path}
    (known : t.byWd.lookup event.wd = some dir) :
    t.applyReadEntry m moving event.read = t.applyEntry m moving dir event := by
  have isDir : contains event.read.mask inIsdir = event.isDir :=
    contains_mask_isdir event.kind event.isDir
  unfold Table.applyReadEntry Table.applyEntry
  rw [reportOf_read t known, isDir]
  rcases reported : t.reportOf event.read with ⟨about, items⟩
  cases about with
  | none => rfl
  | some entry =>
    obtain ⟨dir', name⟩ := entry
    have about : (t.reportOf event.read).1 = some (dir', name) := by rw [reported]
    obtain rfl : dir' = dir := reportOf_dir t known about
    simp only [Option.map_some]
    split_ifs
    · cases dir'.join name with
      | none => rfl
      | some path => exact changeEntry_mask _ moving path event.kind event.isDir event.cookie
    · rfl

theorem applyReadIn_read (moving : Moving Wd) {dir : Path}
    (known : t.byWd.lookup event.wd = some dir) :
    t.applyReadIn m moving dir event.read = t.applyIn m moving dir event := by
  have ended : intersects event.read.mask (inIgnored ||| inUnmount ||| inDeleteSelf) =
      decide (event.kind = .ignored ∨ event.kind = .unmount ∨ event.kind = .deleteSelf) :=
    intersects_ended event.kind event.isDir
  have ignored : contains event.read.mask inIgnored = decide (event.kind = .ignored) :=
    contains_mask event.kind .ignored event.isDir
  have moved : contains event.read.mask inMoveSelf = decide (event.kind = .moveSelf) :=
    contains_mask event.kind .moveSelf event.isDir
  have entry := applyReadEntry_read (m := m) t moving known
  unfold Table.applyReadIn Table.applyIn
  rw [ended, ignored, moved, entry]
  cases kind : event.kind <;> simp [Table.ended]

theorem applyRead_read (moving : Moving Wd) (event : RawEvent Wd) :
    t.applyRead m moving event.read = t.applyEvent m moving event := by
  have overflow : contains event.read.mask inQOverflow = decide (event.kind = .qOverflow) :=
    contains_mask event.kind .qOverflow event.isDir
  unfold Table.applyRead Table.applyEvent
  simp only [overflow, decide_eq_true_eq]
  split_ifs
  · rfl
  · rfl
  · change (match t.byWd.lookup event.wd with
      | none => (t, moving)
      | some dir => t.applyReadIn m moving dir event.read) = _
    cases known : t.byWd.lookup event.wd with
    | none => rfl
    | some => exact applyReadIn_read t moving known

theorem applyAll_read (events : List (RawEvent Wd)) :
    t.applyAll m (events.map RawEvent.read) = t.apply m events := by
  unfold Table.applyAll Table.apply
  rw [List.foldl_map]
  simp only [applyRead_read]

end

end Kinds

section Dead

variable {System Dir Wd : Type} [DecidableEq Wd] {m : Marks System Dir Wd} {t : Table System Wd}

/-! Nothing but the end of the root's watch makes a table dead. -/

theorem dead_detach (t : Table System Wd) (path : Path) : (t.detach path).2.dead = t.dead := by
  obtain ⟨f, _, same⟩ := detach_eq t path
  rw [same]

variable (m) in
theorem dead_dropAt (t : Table System Wd) (announce : Bool) (path : Path) :
    (t.dropAt m announce path).dead = t.dead := by
  obtain ⟨f, _, drops⟩ := dropAt_drops m t announce path
  exact drops.dead

variable (m) in
theorem dead_put (t : Table System Wd) (path : Path) (n : Node Wd) :
    (t.put m path n).dead = t.dead := by
  rcases put_cases m t path n with ⟨_, same⟩ | ⟨_, _, _, ⟨_, drops⟩ | ⟨_, _, drops⟩⟩
  · rw [same]
  · exact drops.dead
  · exact drops.dead

variable (m) in
theorem dead_reroot (t : Table System Wd) (source target : Path) :
    (t.reroot m source target).2.dead = t.dead := by
  have same := dead_detach t source
  unfold Table.reroot
  split
  · next t' found =>
      rw [found] at same
      exact same
  · next n t' found =>
      rw [found] at same
      exact (dead_put m _ target _).trans ((SameUse.rekey m t' target n).dead.trans same)

/-- What the table keeps while it watches directories at paths that `Q` holds of. -/
structure Outlives (m : Marks System Dir Wd) (Q : Path → Prop) (P : Table System Wd → Prop) : Prop where
  upTo : ∀ path depth, Q path → Q (path.upTo depth)
  asks : ∀ t marks, P t → P { t with marks := marks }
  rounds : ∀ (t : Table System Wd) n c, t.round ≤ n → P t → P { t with round := n, capped := c }
  dropAt : ∀ t path, P t → P (t.dropAt m true path)
  reroot : ∀ t source path, Q path → P t → P (t.reroot m source path).2
  enter : ∀ t path wd, Q path → P t → P (t.enter m path wd)
  refuse : ∀ t path state, Q path → P t → P ((t.newMark state).2.put m path ((t.newMark state).1, .nil))

namespace Outlives

variable {Q : Path → Prop} {P : Table System Wd → Prop} {path : Path} {now : ℕ}

theorem evict (rule : Outlives m Q P) (h : P t) : P (t.evict m path now) :=
  evict_induction rule.dropAt rule.rounds h

theorem place (rule : Outlives m Q P) (h : P t) (wd : Wd) (at' : Q path) : P (t.place m path wd now).2 := by
  have budget : P (t.budgetAt now).2 := by
    unfold Table.budgetAt
    split
    · split_ifs
      · exact h
      · exact rule.rounds t _ none le_rfl h
    · exact h
  unfold Table.place
  split
  · split_ifs
    · exact h
    · exact rule.reroot t _ path at' h
  · simp only
    split_ifs
    · exact rule.enter _ path wd at' (rule.evict budget)
    · exact rule.enter _ path wd at' budget

theorem install (rule : Outlives m Q P) (now : ℕ) (h : P t) (dir : Dir) (at' : Q path) :
    P (t.install m path dir now).2 := by
  have added : P (t.addMark m path dir now).2 := by
    have asked : P (t.addOnce m dir).2 := rule.asks t _ h
    unfold Table.addMark
    simp only
    split_ifs
    · exact rule.asks _ _ (rule.evict (rule.rounds _ _ _ le_rfl asked))
    · exact asked
  unfold Table.install
  split
  · next wd t' result =>
      rw [result] at added
      exact rule.place added wd at'
  · next e t' result =>
      rw [result] at added
      exact rule.refuse t' path _ at' added

theorem installAll (rule : Outlives m Q P) (at' : Q path) (h : P t) (dir : Dir) (rest : List (Name × ℕ)) :
    P (t.installAll m path now dir rest) := by
  induction rest generalizing t dir with
  | nil => exact h
  | cons first _ ih =>
    unfold Table.installAll
    split
    · exact rule.asks t _ h
    · next child marks _ =>
        have installed := rule.install now (rule.asks t marks h) child (rule.upTo path first.2 at')
        split
        · next t' result =>
            rw [result] at installed
            exact installed
        · next t' result =>
            rw [result] at installed
            exact ih installed child

theorem extend (rule : Outlives m Q P) (h : P t) (at' : Q path) (depth : ℕ) :
    P (t.extend m path depth now) := by
  unfold Table.extend
  split
  · exact rule.asks t _ h
  · next dir marks _ =>
      have opened := rule.asks t marks h
      generalize ({ t with marks := marks } : Table System Wd) = t at opened ⊢
      have verified : P (t.verify m (path.upTo depth) dir now).2 := by
        unfold Table.verify
        split
        · exact opened
        · split
          · next found marks _ =>
              split_ifs
              · exact rule.asks t _ opened
              · exact rule.place (rule.dropAt _ _ (rule.asks t marks opened)) found (rule.upTo path depth at')
          · exact rule.asks t _ opened
      simp only
      split_ifs
      · exact rule.installAll at' verified dir _
      · exact verified
      · exact rule.installAll at' opened dir _
      · exact opened

end Outlives

variable (m) in
theorem dead_arm (t : Table System Wd) (dir : Path) (now : ℕ) : (t.arm m dir now).2.dead = t.dead := by
  have rule : Outlives m (fun _ => True) fun t' => t'.dead = t.dead :=
    ⟨fun _ _ => id, fun _ _ => id, fun _ _ _ _ => id, fun t path => (dead_dropAt m t true path).trans,
      fun t source path _ => (dead_reroot m t source path).trans,
      fun _ path _ _ same => (dead_put m _ path _).trans same, fun _ path _ _ same => (dead_put m _ path _).trans same⟩
  have touched := (touch_same t dir now).1.dead
  unfold Table.arm
  split
  · next held t' result =>
      rw [result] at touched
      exact touched
  · next t' result =>
      rw [result] at touched
      exact rule.extend touched trivial _

variable (m) in
theorem dead_recheck (t : Table System Wd) : (t.recheck m).dead = t.dead := by
  obtain ⟨f, _, same⟩ := recheck_keeps m t
  exact same.dead

theorem Drops.empty {t' : Table System Wd} (h : Drops t t') (empty : t.byWd = ∅) : t'.byWd = ∅ := by
  refine AList.ext (List.eq_nil_iff_forall_not_mem.mpr fun e mem => ?_)
  have absent := h.byWd e.1 (by rw [empty]; rfl)
  rw [KeyedTables.lookup_eq_some_iff.mpr mem] at absent
  cases absent

variable (m) in
theorem dead_changeEntry (t : Table System Wd) (moving : Moving Wd) (path : Path) (mask : BitVec 32)
    (cookie : ℕ) : (t.changeEntry m moving path mask cookie).1.dead = t.dead := by
  have there := (stillThere_same (m := m) t path).dead
  unfold Table.changeEntry
  split_ifs
  · unfold Table.movedFrom
    split
    · next t' still =>
        rw [still] at there
        exact there
    · next t' still =>
        rw [still] at there
        have same := (dead_detach t' path).trans there
        split
        · next n t'' found =>
            rw [found] at same
            exact same
        · next t'' found =>
            rw [found] at same
            exact same
  · unfold Table.movedTo
    split
    · next t' still =>
        rw [still] at there
        cases moving.lookup cookie with
        | none => exact there
        | some => exact (Drops.dropTree m t' true _ _).dead.trans there
    · next t' still =>
        rw [still] at there
        have dropped := (dead_dropAt m t' true path).trans there
        cases moving.lookup cookie with
        | none => exact dropped
        | some =>
          exact (dead_put m _ path _).trans ((SameUse.rekey m _ path _).dead.trans dropped)
  · unfold Table.deleted
    split
    · next t' still =>
        rw [still] at there
        exact there
    · next t' still =>
        rw [still] at there
        exact (dead_dropAt m t' true path).trans there
  · rfl

def Frozen (t : Table System Wd) : Prop :=
  t.dead = true → t.byWd = ∅

namespace Frozen

/-- A step that leaves a table as dead or alive as it was, and a dead one alone. -/
theorem of_alive {t' : Table System Wd} (alive : t.dead = false) (same : t'.dead = t.dead) :
    Frozen t' := by
  intro dead
  rw [same, alive] at dead
  cases dead

variable (m) in
theorem applyRead (h : Frozen t) (moving : Moving Wd) (event : ReadEvent Wd) :
    Frozen (t.applyRead m moving event).1 := by
  cases dead : t.dead with
  | true =>
    rw [Table.applyRead, if_pos dead]
    exact h
  | false =>
    unfold Table.applyRead
    rw [if_neg (by simp [dead])]
    split_ifs
    · refine of_alive dead ((dead_recheck m _).trans ?_)
      exact (Drops.dropMoving m t moving).dead
    · split
      · exact h
      · next dir known =>
          unfold Table.applyReadIn
          split_ifs
          · exact fun _ => rfl
          · exact of_alive dead (dead_dropAt m t false dir)
          · exact h
          · exact h
          · unfold Table.applyReadEntry
            split
            · exact of_alive dead rfl
            · split_ifs
              · split
                · exact of_alive dead (dead_changeEntry m _ moving _ _ _)
                · exact of_alive dead rfl
              · exact of_alive dead rfl

variable (m) in
theorem applyAll (h : Frozen t) (events : List (ReadEvent Wd)) : Frozen (t.applyAll m events) := by
  have all : ∀ s : Table System Wd × Moving Wd, Frozen s.1 →
      Frozen (events.foldl (fun s event => s.1.applyRead m s.2 event) s).1 := by
    induction events with
    | nil => exact fun s frozen => frozen
    | cons event _ ih => exact fun s frozen => ih _ (frozen.applyRead m s.2 event)
  intro dead
  have drops := Drops.dropMoving m (events.foldl (fun s event => s.1.applyRead m s.2 event) (t, ∅)).1
    (events.foldl (fun s event => s.1.applyRead m s.2 event) (t, ∅)).2
  exact drops.empty (all (t, ∅) h (drops.dead.symm.trans dead))

end Frozen

end Dead

inductive Use (System Wd : Type) where
  /-- Other processes change what the table watches. -/
  | happens (system : System)
  | touch (dir : Path) (now : ℕ)
  | arm (dir : Path) (now : ℕ)
  /-- What kept a directory watched is gone. -/
  | release (cell : ℕ)
  | apply (events : List (ReadEvent Wd))
  /-- Events cannot be waited for any more. -/
  | die

section Runs

variable {System Dir Wd : Type} [DecidableEq Wd]

def use (m : Marks System Dir Wd) (t : Table System Wd) : Use System Wd → Option (Table System Wd)
  | .happens system => some { t with marks := system }
  | .touch dir now => some (t.touch dir now).2
  | .arm dir now => some (({ t with out := [] } : Table System Wd).arm m dir now).2
  | .release cell => some { t with cells := unhold t.cells cell }
  | .apply events => some (({ t with out := [] } : Table System Wd).applyAll m events)
  | .die => some t.die

def uses (m : Marks System Dir Wd) (start : Table System Wd) : Machine (Table System Wd) (Use System Wd) :=
  ⟨start, use m⟩

variable {m : Marks System Dir Wd} {start t : Table System Wd} {system : System} {budget : ℕ}

theorem Frozen.new (made : Table.new m system budget = .ok start) : Frozen start := by
  unfold Table.new at made
  split at made
  · cases made
  · split at made
    · cases made
    · cases made
      exact fun dead => by cases dead

theorem Frozen.of_reachable (made : Table.new m system budget = .ok start)
    (h : (uses m start).Reachable t) : Frozen t := by
  refine Machine.Reachable.invariant (P := Frozen) (.new made) (fun t action t' frozen moved => ?_) h
  cases action with
  | happens => cases moved; exact frozen
  | touch dir now =>
    cases moved
    have same := (touch_same t dir now).1
    intro dead
    rw [same.byWd]
    exact frozen (same.dead.symm.trans dead)
  | arm dir now =>
    cases moved
    intro dead
    have before : t.dead = true :=
      (dead_arm m { t with out := [] } dir now).symm.trans dead
    -- A dead table is left alone.
    have stays : (({ t with out := [] } : Table System Wd).arm m dir now).2 = { t with out := [] } := by
      simp [Table.arm, Table.touch, before]
    rw [stays]
    exact frozen before
  | release => cases moved; exact frozen
  | apply events =>
    cases moved
    exact Frozen.applyAll m (t := { t with out := [] }) frozen events
  | die => cases moved; exact fun _ => rfl

end Runs

/-- A mask with one flag, beside the one that says the event is about a directory. -/
def OneKind (mask : BitVec 32) : Prop :=
  ∃ bit : Fin 32, mask = 1#32 <<< bit.val ∨ mask = 1#32 <<< bit.val ||| inIsdir

theorem quiet_mask {mask : BitVec 32} (one : OneKind mask) (quiet : structural mask = false) :
    contains mask inQOverflow = false ∧
      intersects mask (inIgnored ||| inUnmount ||| inDeleteSelf) = false ∧
      (contains mask inMoveSelf = true →
        intersects mask (inCreate ||| inDelete ||| inMovedFrom ||| inMovedTo) = false ∧
        intersects mask (inModify ||| inAttrib) = false) ∧
      (contains mask inIsdir = true → contains mask inMovedFrom = false ∧
        contains mask inMovedTo = false ∧ contains mask inDelete = false) := by
  obtain ⟨bit, rfl | rfl⟩ := one
  · revert bit
    decide
  · revert bit
    decide

section Quiet

variable {System Dir Wd : Type} [DecidableEq Wd] {m : Marks System Dir Wd} {t : Table System Wd}

theorem push_nil (t : Table System Wd) : t.push [] = t := by
  rw [Table.push, List.append_nil]

theorem reportOf_moved {event : ReadEvent Wd}
    (entry : intersects event.mask (inCreate ||| inDelete ||| inMovedFrom ||| inMovedTo) = false)
    (data : intersects event.mask (inModify ||| inAttrib) = false) : (t.reportOf event).2 = [] := by
  unfold Table.reportOf
  split
  · rfl
  · split
    · simp [data]
    · split
      · rfl
      · simp [itemsForMask, entry, data]

theorem applyRead_quiet (frozen : Frozen t) {event : ReadEvent Wd} (one : OneKind event.mask)
    (quiet : structural event.mask = false) (moving : Moving Wd) :
    t.applyRead m moving event = (t.push (t.reportOf event).2, moving) := by
  obtain ⟨lost, ended, moved, isDir⟩ := quiet_mask one quiet
  cases known : t.byWd.lookup event.wd with
  | none =>
    have reported : t.reportOf event = (none, []) := by rw [Table.reportOf, known]
    rw [reported, push_nil, Table.applyRead, known]
    split_ifs
    · rfl
    · rename_i overflow
      rw [lost] at overflow
      cases overflow
    · rfl
  | some =>
    have alive : t.dead = false := by
      by_contra dead
      rw [frozen (by simpa using dead)] at known
      cases known
    rw [Table.applyRead, known, alive, lost]
    unfold Table.applyReadIn
    rw [ended]
    simp only [Bool.false_eq_true, ↓reduceIte]
    split_ifs with own
    · obtain ⟨entry, data⟩ := moved own
      rw [reportOf_moved entry data, push_nil]
    · unfold Table.applyReadEntry
      split
      · next items reported => rw [reported]
      · next dir' name items reported =>
          rw [reported]
          split_ifs with about
          · obtain ⟨left, arrived, gone⟩ := isDir about
            split
            · simp [Table.changeEntry, left, arrived, gone]
            · rfl
          · rfl

theorem applyReads_quiet (frozen : Frozen t) {events : List (ReadEvent Wd)}
    (kinds : ∀ e ∈ events, OneKind e.mask) (quiet : ∀ e ∈ events, structural e.mask = false)
    (moving : Moving Wd) :
    events.foldl (fun s event => s.1.applyRead m s.2 event) (t, moving) =
      (t.push (t.reports events), moving) := by
  induction events generalizing t with
  | nil => exact congrArg (·, moving) (push_nil t).symm
  | cons event _ ih =>
    rw [List.foldl_cons, applyRead_quiet frozen (kinds event List.mem_cons_self)
      (quiet event List.mem_cons_self)]
    -- What is reported is not looked at again.
    have later := ih (t := t.push (t.reportOf event).2) frozen
      (fun e mem => kinds e (List.mem_cons_of_mem _ mem))
      (fun e mem => quiet e (List.mem_cons_of_mem _ mem))
    rw [later]
    simp only [Table.push, Table.reports, List.flatMap_cons, List.append_assoc]
    rfl

/-- A batch without a structural event, applied to any table reached from its start, changes neither
the table nor the system, and puts out what its reports do. -/
theorem quiet_batch_reports {start : Table System Wd} {system : System} {budget : ℕ}
    (made : Table.new m system budget = .ok start) (h : (uses m start).Reachable t)
    {events : List (ReadEvent Wd)} (kinds : ∀ e ∈ events, OneKind e.mask)
    (quiet : ∀ e ∈ events, structural e.mask = false) :
    t.applyAll m events = { t with out := t.out ++ t.reports events } := by
  rw [Table.applyAll, applyReads_quiet (Frozen.of_reachable made h) kinds quiet]
  rfl

/-- A directory made in the root, an event that is nobody's, a change of the root itself and a name that
is not one. -/
theorem quiet_batch_reports_root :
    let m : Marks Unit Unit ℕ :=
      ⟨fun _ s => (.ok (), s), fun _ _ s => (.ok (), s), fun _ s => (.ok 0, s), fun _ s => s⟩
    let events : List (ReadEvent ℕ) := [⟨0, inCreate ||| inIsdir, 0, some [97]⟩,
      ⟨5, inDelete, 0, some [97]⟩, ⟨0, inAttrib ||| inIsdir, 0, none⟩, ⟨0, inModify, 0, some [47]⟩]
    ∃ t, Table.new m () 4 = .ok t ∧ (t.applyAll m events).watched = t.watched ∧
      (t.applyAll m events).out = [.entry .root ⟨[97], by decide⟩, .data .root] := by
  intro m events
  have kinds : ∀ e ∈ events, OneKind e.mask := by
    simp only [events, List.forall_mem_cons]
    exact ⟨⟨8, .inr rfl⟩, ⟨9, .inl rfl⟩, ⟨2, .inr rfl⟩, ⟨1, .inl rfl⟩, by simp⟩
  obtain ⟨t, made, none, reported⟩ : ∃ t, Table.new m () 4 = .ok t ∧ t.out = [] ∧
      t.reports events = [.entry .root ⟨[97], by decide⟩, .data .root] := ⟨_, rfl, rfl, by decide⟩
  have reached : (uses m t).Reachable t := Machine.Reachable.start
  have applied := quiet_batch_reports made reached kinds (by decide)
  refine ⟨t, made, by rw [applied], ?_⟩
  rw [applied, none, reported]
  rfl

end Quiet

end JackalopeFs.WatchTable
