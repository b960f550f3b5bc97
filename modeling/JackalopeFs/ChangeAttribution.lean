import JackalopeFs.EventWindow

/-! # Whose change an event is

So that a session is not told what it did itself, a request records the paths it is about
to change before it makes its filesystem call, and the first event at a recorded path is
taken to be the session's.  A record says nothing about what changed the path: one left by
a request that failed, or whose change went unreported, is taken by whatever event comes
next within its second.  Events are attributed to their authors in every run in which no
path is changed while another party's record of it is live, and none is recorded while
another party's change to it is still to be reported.

Paths stand for their joined forms, which names without a separator make one-to-one.  The
author of a queued event is kept beside it for the record; the code does not have it.
-/

namespace JackalopeFs.ChangeAttribution

open EventWindow KeyedTables PathNames TransitionRuns

def changeLogCapacity : ℕ := 4096

/-- How long a record waits for its event, in nanoseconds. -/
def originMemory : ℕ := 1000000000

/-- Which session most recently changed which path, and when; `order` is for the eviction of the
oldest. -/
structure ChangeLog where
  byPath : AList fun _ : Path => ℕ × ℕ
  order : List Path

namespace ChangeLog

def new : ChangeLog :=
  ⟨∅, []⟩

/-- Forget the oldest records while there are too many. -/
def evict (byPath : AList fun _ : Path => ℕ × ℕ) : List Path → ChangeLog
  | [] => ⟨byPath, []⟩
  | oldest :: rest =>
    if changeLogCapacity < rest.length + 1 then evict (byPath.erase oldest) rest
    else ⟨byPath, oldest :: rest⟩

/-- A path recorded again keeps its place in the order. -/
def record (log : ChangeLog) (path : Path) (session now : ℕ) : ChangeLog :=
  let byPath := log.byPath.insert path (session, now)
  match log.byPath.lookup path with
  | none => evict byPath (log.order ++ [path])
  | some _ => { log with byPath := byPath }

/-- The session that recorded a change to a path, consuming the record. -/
def takeOrigin (log : ChangeLog) (path : Path) (now : ℕ) : ChangeLog × Option ℕ :=
  match log.byPath.lookup path with
  | none => (log, none)
  | some (session, since) =>
    ({ log with byPath := log.byPath.erase path },
      if now - since < originMemory then some session else none)

end ChangeLog

/-- The path a record of an item's change would be under. -/
def originKey : EventItem → Option Path
  | .entry dir name => dir.join name
  | .data path => some path
  | .overflow | .unwatched _ => none

/-- The requests that change something; those by handle with the path it was opened by. -/
inductive Request where
  | mknod (parent : Path) (name : Name)
  | mkdir (parent : Path) (name : Name)
  | unlink (parent : Path) (name : Name)
  | rmdir (parent : Path) (name : Name)
  | symlink (parent : Path) (name : Name)
  | rename (parent : Path) (name : Name) (newparent : Path) (newname : Name)
  | link (path newparent : Path) (newname : Name)
  | open (path : Path) (truncate : Bool)
  | create (parent : Path) (name : Name)
  | write (path : Path)
  | copyFileRange (path : Path)
  | fallocate (path : Path)
  | setattr (origin : Option Path)
  | setxattr (path : Path)
  | removexattr (path : Path)
  deriving DecidableEq, Repr

/-- The paths a request records, in order; an overlong one is not recorded. -/
def Request.records : Request → List Path
  | .mknod parent name | .mkdir parent name | .unlink parent name | .rmdir parent name
  | .symlink parent name | .create parent name => (parent.join name).toList
  | .rename parent name newparent newname =>
    (parent.join name).toList ++ (newparent.join newname).toList
  | .link _ newparent newname => (newparent.join newname).toList
  | .open path truncate => if truncate then [path] else []
  | .write path | .copyFileRange path | .fallocate path | .setxattr path | .removexattr path => [path]
  | .setattr origin => origin.toList

/-- A request being carried out, and the paths it has still to record. -/
structure Task where
  session : ℕ
  left : List Path
  deriving DecidableEq, Repr

/-- An event and who made the change it reports, a session or some process. -/
structure Caused where
  item : EventItem
  author : Option ℕ
  deriving DecidableEq, Repr

structure Server where
  log : ChangeLog
  now : ℕ
  tasks : List Task
  queue : List Caused
  /-- The events applied, each with the session it was attributed to. -/
  applied : List (Caused × Option ℕ)

inductive Action where
  | begin (session : ℕ) (request : Request)
  /-- Task `i` records its next path. -/
  | record (i : ℕ)
  /-- Task `i` makes its filesystem call, whose changes are reported as these items. -/
  | call (i : ℕ) (items : List EventItem)
  /-- Task `i` fails, before or in its call. -/
  | fail (i : ℕ)
  /-- A process on the server changes something. -/
  | process (items : List EventItem)
  /-- The oldest event is folded into the window. -/
  | apply
  | pass (nanoseconds : ℕ)
  deriving DecidableEq, Repr

namespace Server

def new : Server :=
  ⟨.new, 0, [], [], []⟩

def originOf (log : ChangeLog) (item : EventItem) (now : ℕ) : ChangeLog × Option ℕ :=
  match originKey item with
  | none => (log, none)
  | some path => log.takeOrigin path now

def step (s : Server) : Action → Option Server
  | .begin session request => some { s with tasks := s.tasks ++ [⟨session, request.records⟩] }
  | .record i =>
    s.tasks[i]?.bind fun task =>
      match task.left with
      | [] => none
      | path :: rest => some { s with
          log := s.log.record path task.session s.now
          tasks := s.tasks.set i { task with left := rest } }
  | .call i items =>
    s.tasks[i]?.bind fun task =>
      if task.left = [] then
        some { s with
          tasks := s.tasks.eraseIdx i
          queue := s.queue ++ items.map fun item => ⟨item, some task.session⟩ }
      else none
  | .fail i => s.tasks[i]?.map fun _ => { s with tasks := s.tasks.eraseIdx i }
  | .process items =>
    some { s with queue := s.queue ++ items.map fun item => ⟨item, none⟩ }
  | .apply =>
    match s.queue with
    | [] => none
    | event :: rest =>
      let (log, origin) := originOf s.log event.item s.now
      some { s with log := log, queue := rest, applied := s.applied ++ [(event, origin)] }
  | .pass nanoseconds => some { s with now := s.now + nanoseconds }

def machine : Machine Server Action :=
  ⟨.new, step⟩

/-- Whether a live record of the path is by someone else. -/
def recordedByOther (log : ChangeLog) (now : ℕ) (author : Option ℕ) (path : Path) : Bool :=
  (log.byPath.lookup path).any fun r => now - r.2 < originMemory && some r.1 ≠ author

/-- Whether an event at the path by someone else is still to be applied. -/
def queuedByOther (s : Server) (author : Option ℕ) (path : Path) : Bool :=
  s.queue.any fun e => originKey e.item = some path && e.author ≠ author

/-- No path is changed while another's record of it is live, nor recorded while another's change to it
is queued. -/
def apart (s : Server) : Action → Bool
  | .record i =>
    s.tasks[i]?.all fun task => task.left.head?.all fun path =>
      !s.queuedByOther (some task.session) path
  | .call i items =>
    s.tasks[i]?.all fun task => items.all fun item => (originKey item).all fun path =>
      !recordedByOther s.log s.now (some task.session) path
  | .process items =>
    items.all fun item => (originKey item).all fun path => !recordedByOther s.log s.now none path
  | _ => true

end Server

theorem lookup_evict {byPath : AList fun _ : Path => ℕ × ℕ} {order : List Path} {path : Path}
    {r : ℕ × ℕ} (h : (ChangeLog.evict byPath order).byPath.lookup path = some r) :
    byPath.lookup path = some r := by
  induction order generalizing byPath with
  | nil => exact h
  | cons oldest _ ih =>
    unfold ChangeLog.evict at h
    split_ifs at h
    · have kept := ih h
      by_cases same : path = oldest
      · rw [same, AList.lookup_erase] at kept
        cases kept
      · rwa [AList.lookup_erase_ne same] at kept
    · exact h

theorem lookup_record {log : ChangeLog} {path p : Path} {session now : ℕ} {r : ℕ × ℕ}
    (h : (log.record path session now).byPath.lookup p = some r) :
    (p = path ∧ r = (session, now)) ∨ (p ≠ path ∧ log.byPath.lookup p = some r) := by
  have inserted : (log.byPath.insert path (session, now)).lookup p = some r := by
    simp only [ChangeLog.record] at h
    split at h
    · exact lookup_evict h
    · exact h
  by_cases same : p = path
  · subst same
    rw [AList.lookup_insert] at inserted
    exact .inl ⟨rfl, (Option.some.inj inserted).symm⟩
  · rw [AList.lookup_insert_ne same] at inserted
    exact .inr ⟨same, inserted⟩

/-- The origin taken is of a live record at the item's path; the other records stay. -/
theorem originOf_spec (log : ChangeLog) (item : EventItem) (now : ℕ) :
    (∀ p r, (Server.originOf log item now).1.byPath.lookup p = some r →
      log.byPath.lookup p = some r) ∧
    ∀ session, (Server.originOf log item now).2 = some session → ∃ path since,
      originKey item = some path ∧ log.byPath.lookup path = some (session, since) ∧
        now - since < originMemory := by
  unfold Server.originOf
  split
  · exact ⟨fun _ _ h => h, fun _ h => by cases h⟩
  rename_i path key
  unfold ChangeLog.takeOrigin
  split
  · exact ⟨fun _ _ h => h, fun _ h => by cases h⟩
  rename_i session since found
  refine ⟨fun p r h => ?_, fun taken h => ?_⟩
  · by_cases same : p = path
    · rw [same, AList.lookup_erase] at h
      cases h
    · rwa [AList.lookup_erase_ne same] at h
  · split_ifs at h with live
    cases h
    exact ⟨path, since, key, found, live⟩

namespace Server

variable {s s' : Server}

theorem recordedByOther_eq_false {log : ChangeLog} {now : ℕ} {author : Option ℕ} {path : Path} :
    recordedByOther log now author path = false ↔ ∀ session since,
      log.byPath.lookup path = some (session, since) → now - since < originMemory →
        some session = author := by
  unfold recordedByOther
  cases log.byPath.lookup path with
  | none => simp
  | some r =>
    constructor
    · rintro h session since ⟨⟩ live
      simpa [live] using h
    · intro h
      by_cases live : now - r.2 < originMemory
      · simp [live, h r.1 r.2 rfl live]
      · simp [live]

/-- No queued event is at a path of which another's record is live, and those applied were attributed
to nobody but their authors. -/
structure Attributed (s : Server) : Prop where
  queued : ∀ e ∈ s.queue, ∀ path, originKey e.item = some path →
    recordedByOther s.log s.now e.author path = false
  applied : ∀ e ∈ s.applied, ∀ session, e.2 = some session → e.1.author = some session

namespace Attributed

theorem new : Attributed .new :=
  ⟨fun e mem => by simp [Server.new] at mem, fun e mem => by simp [Server.new] at mem⟩

/-- A step that makes no record and lets no time run back keeps the queue apart. -/
theorem keeps (h : Attributed s) {log : ChangeLog} {now : ℕ}
    (fewer : ∀ path r, log.byPath.lookup path = some r → s.log.byPath.lookup path = some r)
    (later : s.now ≤ now) {e : Caused} (mem : e ∈ s.queue) {path : Path}
    (key : originKey e.item = some path) : recordedByOther log now e.author path = false := by
  have before := recordedByOther_eq_false.mp (h.queued e mem path key)
  refine recordedByOther_eq_false.mpr fun session since found live => ?_
  exact before session since (fewer _ _ found) (by omega)

theorem changes (h : Attributed s) {items : List EventItem} {author : Option ℕ} {tasks : List Task}
    (free : items.all (fun item => (originKey item).all fun path =>
      !recordedByOther s.log s.now author path) = true) :
    Attributed { s with
      tasks := tasks, queue := s.queue ++ items.map fun item => ⟨item, author⟩ } := by
  refine ⟨fun e mem path key => ?_, h.applied⟩
  rcases List.mem_append.mp mem with mem | mem
  · exact h.keeps (fun _ _ found => found) le_rfl mem key
  · obtain ⟨item, listed, rfl⟩ := List.mem_map.mp mem
    have clear := List.all_eq_true.mp free item listed
    rw [show originKey item = some path from key] at clear
    simpa using clear

theorem step (h : Attributed s) {action : Action} (meets : s.apart action = true)
    (moved : s.step action = some s') : Attributed s' := by
  cases action with
  | begin =>
    cases moved
    exact ⟨fun e mem path => h.keeps (fun _ _ found => found) le_rfl mem, h.applied⟩
  | record i =>
    obtain ⟨task, listed, moved⟩ := Option.bind_eq_some_iff.mp moved
    split at moved
    · cases moved
    rename_i path rest left
    cases moved
    have quiet : s.queuedByOther (some task.session) path = false := by
      simpa [apart, listed, left] using meets
    refine ⟨fun e mem p key => recordedByOther_eq_false.mpr fun session since found live => ?_,
      h.applied⟩
    rcases lookup_record found with ⟨rfl, new⟩ | ⟨_, old⟩
    · cases new
      have own := List.any_eq_false.mp quiet e mem
      have same : e.author = some task.session := by simpa [key] using own
      exact same.symm
    · exact recordedByOther_eq_false.mp (h.queued e mem p key) session since old live
  | call =>
    obtain ⟨task, listed, moved⟩ := Option.bind_eq_some_iff.mp moved
    split_ifs at moved
    cases moved
    exact h.changes (by simpa [apart, listed] using meets)
  | fail =>
    obtain ⟨_, _, rfl⟩ := Option.map_eq_some_iff.mp moved
    exact ⟨fun e mem path => h.keeps (fun _ _ found => found) le_rfl mem, h.applied⟩
  | process =>
    cases moved
    exact h.changes meets
  | apply =>
    simp only [Server.step] at moved
    split at moved
    · cases moved
    rename_i event rest queue
    cases moved
    obtain ⟨fewer, taken⟩ := originOf_spec s.log event.item s.now
    refine ⟨fun e mem path => h.keeps fewer le_rfl (queue ▸ List.mem_cons_of_mem _ mem),
      fun e mem session origin => ?_⟩
    rcases List.mem_append.mp mem with mem | mem
    · exact h.applied e mem session origin
    · cases List.mem_singleton.mp mem
      obtain ⟨path, since, key, found, live⟩ := taken session origin
      have free := h.queued event (by simp [queue]) path key
      exact (recordedByOther_eq_false.mp free session since found live).symm
  | pass =>
    cases moved
    exact ⟨fun e mem path => h.keeps (fun _ _ found => found) (Nat.le_add_right _ _) mem, h.applied⟩

end Attributed

/-- In every run that keeps changes and records of one path apart, an event attributed to a session
reports a change of that session. -/
theorem attributed_to_author (h : machine.ReachableUnder (fun s a => s.apart a = true) s)
    (event : Caused) (session : ℕ) (mem : (event, some session) ∈ s.applied) :
    event.author = some session := by
  have attributed : Attributed s :=
    Machine.ReachableUnder.invariant .new
      (fun _ _ _ attributed meets moved => attributed.step meets moved) h
  exact attributed.applied _ mem session rfl

/-- A session's directory and a process's file: the event of the one is the session's. -/
theorem attributed_after_mkdir :
    ∃ s event, machine.ReachableUnder (fun s a => s.apart a = true) s ∧
      (event, some 1) ∈ s.applied ∧ event.author = some 1 := by
  let a : Name := ⟨[97], by decide⟩
  let b : Name := ⟨[98], by decide⟩
  obtain ⟨s, reached, applied⟩ := machine.exists_of_runWhile
    (p := fun s : Server => decide ((⟨.entry .root a, some 1⟩, some 1) ∈ s.applied))
    (by decide +kernel : (machine.runWhile apart machine.initial [.begin 1 (.mkdir .root a),
      .record 0, .call 0 [.entry .root a], .process [.entry .root b], .apply, .apply]).any _ = true)
  have mem := of_decide_eq_true applied
  exact ⟨s, _, reached, mem, attributed_to_author reached _ 1 mem⟩

/-- A request to make a directory that exists fails and leaves its record; the directory's removal by
a process is then taken for the session's change. -/
theorem failed_request_hides_change :
    let a : Name := ⟨[97], by decide⟩
    ∃ s, machine.run [.begin 1 (.mkdir .root a), .record 0, .fail 0, .process [.entry .root a],
        .apply] = some s ∧ machine.Reachable s ∧
      (⟨.entry .root a, none⟩, some 1) ∈ s.applied := by
  intro a
  obtain ⟨s, run, reached, applied⟩ := machine.exists_of_run
    (p := fun s : Server => decide ((⟨.entry .root a, none⟩, some 1) ∈ s.applied))
    (by decide +kernel : (machine.run [.begin 1 (.mkdir .root a), .record 0, .fail 0,
      .process [.entry .root a], .apply]).any _ = true)
  exact ⟨s, run, reached, of_decide_eq_true applied⟩

end Server

end JackalopeFs.ChangeAttribution
