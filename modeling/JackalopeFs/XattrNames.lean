import JackalopeFs.LaggingReplies
import JackalopeFs.WireMessages

/-! # The names of extended attributes that the client keeps

A reply with attributes may say which extended attributes the file has.  The client keeps those names
for the attributes' time to live, says from them that an attribute is absent and lists them, and drops
them when a change of its own is answered.  Whether they are then never from before such a change
depends on the replies that were on their way when it was answered.

A file is its node here.  What a file had is kept by the number of the change that made it so; other
clients change files at any time.
-/

namespace JackalopeFs.XattrNames

open KeyedTables LaggingReplies List TransitionRuns WireMessages

/-- The names a reply said, and until when they are believed. -/
structure KnownXattrs where
  names : List Bytes
  until' : ℕ
  deriving DecidableEq, Repr

abbrev Xattrs := AList fun _ : ℕ => KnownXattrs

/-- Keep what attributes say about the names; attributes that did not look replace what was known. -/
def xattrRemember (xattrs : Xattrs) (attrTtl now id : ℕ) (names : Option (List Bytes)) : Xattrs :=
  match names with
  | some names => xattrs.insert id ⟨names, now + attrTtl⟩
  | none => xattrs.erase id

def xattrForget (xattrs : Xattrs) (ino : ℕ) : Xattrs :=
  xattrs.erase ino

/-- Whether fresh names say that there is no attribute of this name. -/
def xattrKnownAbsent (xattrs : Xattrs) (now ino : ℕ) (name : Bytes) : Bool :=
  match xattrs.lookup ino with
  | some known => now < known.until' && !known.names.any (· == name)
  | none => false

/-- The names of a file, if they are known and fresh. -/
def freshNames (xattrs : Xattrs) (now ino : ℕ) : Option (List Bytes) :=
  match xattrs.lookup ino with
  | some known => if now < known.until' then some known.names else none
  | none => none

/-- A list of names as `listxattr` gives it, each followed by a NUL. -/
def nulTerminated (names : List Bytes) : Bytes :=
  names.flatMap fun name => name ++ [0]

/-- The answer to a `listxattr`, if fresh names are known. -/
def xattrKnownList (xattrs : Xattrs) (now ino : ℕ) : Option Bytes :=
  (freshNames xattrs now ino).map nulTerminated

/-- A `setxattr` (`set`) or `removexattr` of this client that the server carried out, as the change of
that number to the file. -/
structure Change where
  ino : ℕ
  name : Bytes
  set : Bool
  number : ℕ
  deriving DecidableEq, Repr

/-- A reply with attributes that the client has not processed, in flight or in a directory buffer: what
it says of the names, and how many changes the file had seen. -/
structure Report where
  ino : ℕ
  names : Option (List Bytes)
  made : ℕ
  deriving DecidableEq, Repr

/-- The client's kept names, the replies it has not processed, its own changes that the server carried
out and that are not answered yet, those that are, and the files at the server.  `learned` is how many
changes a file had seen when the kept names were reported. -/
structure Mount where
  xattrs : Xattrs
  learned : ℕ → ℕ
  reports : List Report
  running : List Change
  answered : List Change
  changes : ℕ → ℕ
  names : ℕ → ℕ → List Bytes

inductive Action where
  /-- The server answers a request with a file's attributes, having looked for its names or not. -/
  | report (ino : ℕ) (looked : Bool)
  | process (i now : ℕ)
  | drop (i : ℕ)
  | setxattr (ino : ℕ) (name : Bytes)
  | removexattr (ino : ℕ) (name : Bytes)
  /-- The answer to a change is processed. -/
  | answer (i : ℕ)
  /-- A change that failed, a forgotten node or the server's word that the file changed. -/
  | forget (ino : ℕ)
  | clear
  /-- Another client changes a file's names. -/
  | other (ino : ℕ) (names : List Bytes)
  deriving DecidableEq, Repr

namespace Mount

variable (attrTtl : ℕ)

def new (first : ℕ → List Bytes) : Mount :=
  ⟨∅, fun _ => 0, [], [], [], fun _ => 0, fun ino _ => first ino⟩

def current (s : Mount) (ino : ℕ) : List Bytes :=
  s.names ino (s.changes ino)

def change (s : Mount) (ino : ℕ) (names : List Bytes) : Mount :=
  let number := s.changes ino + 1
  { s with
    changes := fun k => if k = ino then number else s.changes k
    names := fun k v => if k = ino ∧ v = number then names else s.names k v }

def run (s : Mount) (change : Change) : Mount :=
  { s with running := s.running ++ [change] }

def step (s : Mount) : Action → Option Mount
  | .report ino looked =>
    let names := if looked then some (s.current ino) else none
    some { s with reports := s.reports ++ [⟨ino, names, s.changes ino⟩] }
  | .process i now =>
    s.reports[i]?.map fun report => { s with
      xattrs := xattrRemember s.xattrs attrTtl now report.ino report.names
      learned := fun ino => if ino = report.ino then report.made else s.learned ino
      reports := s.reports.eraseIdx i }
  | .drop i => some { s with reports := s.reports.eraseIdx i }
  | .setxattr ino name =>
    let others := (s.current ino).filter (· ≠ name)
    some ((s.change ino (others ++ [name])).run ⟨ino, name, true, s.changes ino + 1⟩)
  | .removexattr ino name =>
    let others := (s.current ino).filter (· ≠ name)
    some ((s.change ino others).run ⟨ino, name, false, s.changes ino + 1⟩)
  | .answer i =>
    s.running[i]?.map fun change => { s with
      xattrs := xattrForget s.xattrs change.ino
      running := s.running.eraseIdx i
      answered := change :: s.answered }
  | .forget ino => some { s with xattrs := xattrForget s.xattrs ino }
  | .clear => some { s with xattrs := ∅ }
  | .other ino names => some (s.change ino names)

/-- When a change is answered, no reply that the server made before it is still unprocessed. -/
def processed (s : Mount) : Action → Bool
  | .answer i => s.running[i]?.all fun change =>
    s.reports.all fun report => report.ino ≠ change.ino || change.number ≤ report.made
  | _ => true

end Mount

def machine (attrTtl : ℕ) (first : ℕ → List Bytes) : Machine Mount Action :=
  ⟨.new first, Mount.step attrTtl⟩

namespace Mount

variable {attrTtl : ℕ} {s t : Mount}

def Told (s : Mount) (ino number : ℕ) : Prop :=
  ∃ change ∈ s.answered, change.ino = ino ∧ change.number = number

def Reported (s : Mount) (ino made : ℕ) : Prop :=
  ∃ report ∈ s.reports, report.ino = ino ∧ report.made = made

def Kept (s : Mount) (ino made : ℕ) : Prop :=
  (s.xattrs.lookup ino).isSome = true ∧ s.learned ino = made

/-- What replies say and the client keeps is what the files had, and never from before a change that was
answered. -/
structure Sound (s : Mount) : Prop where
  current : Current s.changes s.Told s.Reported s.Kept
  running : ∀ change ∈ s.running, change.number ≤ s.changes change.ino
  reports : ∀ report ∈ s.reports, report.made ≤ s.changes report.ino ∧
    ∀ names, report.names = some names → names = s.names report.ino report.made
  kept : ∀ ino known, s.xattrs.lookup ino = some known →
    s.learned ino ≤ s.changes ino ∧ known.names = s.names ino (s.learned ino)

theorem sound_new (first : ℕ → List Bytes) : Sound (new first) := by
  refine ⟨⟨?_, ?_, ?_⟩, ?_, ?_, ?_⟩
  · exact fun k change told => absurd told (by simp [Told, new])
  · exact fun k change made told => absurd told (by simp [Told, new])
  · exact fun k change made told => absurd told (by simp [Told, new])
  · exact fun change mem => absurd mem not_mem_nil
  · exact fun report mem => absurd mem not_mem_nil
  · exact fun ino known held => (nomatch held)

theorem changes_change (s : Mount) (ino : ℕ) (names : List Bytes) (k : ℕ) :
    s.changes k ≤ (s.change ino names).changes k := by
  simp only [change]
  split_ifs with same
  · rw [same]
    exact Nat.le_succ _
  · exact Nat.le_refl _

theorem names_change (s : Mount) (ino : ℕ) (names : List Bytes) {k made : ℕ}
    (past : made ≤ s.changes k) : (s.change ino names).names k made = s.names k made := by
  simp only [change]
  split_ifs with same
  · obtain ⟨rfl, rfl⟩ := same
    omega
  · rfl

theorem Sound.change (h : Sound s) (ino : ℕ) (names : List Bytes) : Sound (s.change ino names) := by
  refine ⟨?_, fun change mem => ?_, fun report mem => ?_, fun k known held => ?_⟩
  · exact h.current.step (changes_change s ino names) (fun _ _ report => .inl report)
      fun _ _ kept => .inl kept
  · exact (h.running change mem).trans (changes_change s ino names _)
  · obtain ⟨past, said⟩ := h.reports report mem
    refine ⟨past.trans (changes_change s ino names _), fun looked same => ?_⟩
    rw [names_change s ino names past]
    exact said looked same
  · obtain ⟨past, said⟩ := h.kept k known held
    refine ⟨past.trans (changes_change s ino names _), ?_⟩
    rw [said]
    exact (names_change s ino names past).symm

variable {change : Change}

theorem Sound.run (h : Sound s) (happened : change.number ≤ s.changes change.ino) :
    Sound (s.run change) := by
  refine ⟨h.current, fun other mem => ?_, h.reports, h.kept⟩
  cases mem_append.mp mem with
  | inl old => exact h.running other old
  | inr new =>
    rw [mem_singleton.mp new]
    exact happened

theorem Sound.lose (h : Sound s) {xattrs : Xattrs} {reports : List Report}
    (kept : ∀ ino known, xattrs.lookup ino = some known → s.xattrs.lookup ino = some known)
    (left : ∀ report ∈ reports, report ∈ s.reports) :
    Sound { s with xattrs, reports } := by
  refine ⟨h.current.step (fun _ => Nat.le_refl _) (fun ino made reported => .inl ?_)
    fun ino made keeps => .inl ?_, h.running, fun report mem => h.reports report (left report mem),
    fun ino known held => h.kept ino known (kept ino known held)⟩
  · obtain ⟨report, mem, same⟩ := reported
    exact ⟨report, left report mem, same⟩
  · obtain ⟨some, learned⟩ := keeps
    obtain ⟨known, held⟩ := Option.isSome_iff_exists.mp some
    exact ⟨Option.isSome_iff_exists.mpr ⟨known, kept ino known held⟩, learned⟩

theorem changed_changes (s : Mount) (ino : ℕ) (names : List Bytes) :
    s.changes ino + 1 ≤ (s.change ino names).changes ino := by
  simp [change]

theorem Sound.process (h : Sound s) {i now : ℕ} {report : Report} (found : s.reports[i]? = some report) :
    Sound { s with
      xattrs := xattrRemember s.xattrs attrTtl now report.ino report.names
      learned := fun ino => if ino = report.ino then report.made else s.learned ino
      reports := s.reports.eraseIdx i } := by
  have mem : report ∈ s.reports := mem_of_getElem? found
  have others : ∀ other ∈ s.reports.eraseIdx i, other ∈ s.reports :=
    fun other => mem_of_mem_eraseIdx
  have remembered : ∀ ino known,
      (xattrRemember s.xattrs attrTtl now report.ino report.names).lookup ino = some known →
      ino = report.ino ∧ report.names = some known.names ∨
        ino ≠ report.ino ∧ s.xattrs.lookup ino = some known := by
    intro ino known held
    cases said : report.names with
    | none =>
      rw [said] at held
      exact .inr (of_lookup_erase held)
    | some =>
      rw [said] at held
      obtain ⟨same, rfl⟩ | old := of_lookup_insert held
      · exact .inl ⟨same, rfl⟩
      · exact .inr old
  refine ⟨h.current.step (fun _ => Nat.le_refl _) (fun ino made reported => .inl ?_)
    fun ino made keeps => ?_, h.running, fun other mem => h.reports other (others other mem),
    fun ino known held => ?_⟩
  · obtain ⟨other, mem, same⟩ := reported
    exact ⟨other, others other mem, same⟩
  · obtain ⟨some, learned⟩ := keeps
    obtain ⟨known, held⟩ := Option.isSome_iff_exists.mp some
    simp only at learned
    obtain ⟨same, _⟩ | ⟨other, old⟩ := remembered ino known held
    · rw [if_pos same] at learned
      exact .inr ⟨report, mem, same.symm, learned⟩
    · rw [if_neg other] at learned
      exact .inl ⟨Option.isSome_iff_exists.mpr ⟨known, old⟩, learned⟩
  · simp only
    obtain ⟨rfl, said⟩ | ⟨other, old⟩ := remembered ino known held
    · rw [if_pos rfl]
      obtain ⟨past, names⟩ := h.reports report mem
      exact ⟨past, names _ said⟩
    · rw [if_neg other]
      exact h.kept ino known old

theorem Sound.answer (h : Sound s) {i : ℕ} (found : s.running[i]? = some change)
    (processed : s.processed (.answer i) = true) :
    Sound { s with
      xattrs := xattrForget s.xattrs change.ino
      running := s.running.eraseIdx i
      answered := change :: s.answered } := by
  refine ⟨h.current.tell (h.running change (mem_of_getElem? found)) (fun made reported => ?_)
    (fun ino number told => ?_) (fun _ _ reported => reported) (fun ino made keeps => ?_),
    fun other mem => h.running other (mem_of_mem_eraseIdx mem), h.reports,
    fun ino known held => h.kept ino known (of_lookup_erase held).2⟩
  · obtain ⟨report, mem, same, rfl⟩ := reported
    rw [Mount.processed, found] at processed
    have known := all_eq_true.mp processed report mem
    simpa [same] using known
  · obtain ⟨other, mem, same, number⟩ := told
    cases mem with
    | head => exact .inr ⟨same.symm, number.symm⟩
    | tail _ old => exact .inl ⟨other, old, same, number⟩
  · obtain ⟨some, learned⟩ := keeps
    obtain ⟨known, held⟩ := Option.isSome_iff_exists.mp some
    obtain ⟨other, old⟩ := of_lookup_erase held
    exact ⟨⟨Option.isSome_iff_exists.mpr ⟨known, old⟩, learned⟩, other⟩

theorem sound_step {action : Action} (h : Sound s) (processed : s.processed action = true)
    (moves : step attrTtl s action = some t) : Sound t := by
  cases action with
  | report =>
    cases moves
    refine ⟨h.current.step (fun _ => Nat.le_refl _) (fun k made reported => ?_)
      fun _ _ kept => .inl kept, h.running, fun report mem => ?_, h.kept⟩
    · obtain ⟨report, mem, rfl, rfl⟩ := reported
      cases mem_append.mp mem with
      | inl old => exact .inl ⟨report, old, rfl, rfl⟩
      | inr new =>
        rw [mem_singleton.mp new]
        exact .inr rfl
    · cases mem_append.mp mem with
      | inl old => exact h.reports report old
      | inr new =>
        rw [mem_singleton.mp new]
        refine ⟨Nat.le_refl _, fun names said => ?_⟩
        split_ifs at said
        exact (Option.some.inj said).symm
  | process =>
    obtain ⟨report, found, rfl⟩ := Option.map_eq_some_iff.mp moves
    exact h.process found
  | drop =>
    cases moves
    exact h.lose (fun _ _ held => held) fun _ => mem_of_mem_eraseIdx
  | setxattr ino =>
    cases moves
    exact (h.change ino _).run (changed_changes s ino _)
  | removexattr ino =>
    cases moves
    exact (h.change ino _).run (changed_changes s ino _)
  | answer =>
    obtain ⟨change, found, rfl⟩ := Option.map_eq_some_iff.mp moves
    exact h.answer found processed
  | forget =>
    cases moves
    exact h.lose (fun _ _ held => (of_lookup_erase held).2) fun _ mem => mem
  | clear =>
    cases moves
    exact h.lose (fun _ _ held => (nomatch held)) fun _ mem => mem
  | other ino names =>
    cases moves
    exact h.change ino names

/-- Fresh names are what the file had at some moment after every change that was answered. -/
theorem Sound.fresh (h : Sound s) (answered : change ∈ s.answered) {now : ℕ} {names : List Bytes}
    (known : freshNames s.xattrs now change.ino = some names) :
    ∃ v, change.number ≤ v ∧ v ≤ s.changes change.ino ∧ names = s.names change.ino v := by
  unfold freshNames at known
  cases held : s.xattrs.lookup change.ino with
  | none =>
    rw [held] at known
    cases known
  | some kept =>
    rw [held] at known
    simp only at known
    split_ifs at known
    cases known
    obtain ⟨past, said⟩ := h.kept _ kept held
    refine ⟨s.learned change.ino, ?_, past, said⟩
    exact h.current.kept _ _ _ ⟨change, answered, rfl, rfl⟩ ⟨Option.isSome_iff_exists.mpr ⟨kept, held⟩, rfl⟩

end Mount

theorem xattrKnownAbsent_iff (xattrs : Xattrs) (now ino : ℕ) (name : Bytes) :
    xattrKnownAbsent xattrs now ino name = true ↔
      ∃ names, freshNames xattrs now ino = some names ∧ name ∉ names := by
  unfold xattrKnownAbsent freshNames
  cases xattrs.lookup ino with
  | none => simp
  | some known =>
    by_cases fresh : now < known.until'
    · simp only [fresh, decide_true, Bool.true_and, if_pos]
      rw [Bool.not_eq_true', any_eq_false]
      simp [forall_mem_ne']
    · simp [fresh]

/-- In every run in which no reply from before a change of this client's is unprocessed when the change
is answered: once a `setxattr` was answered, and as long as the file has had the name since it ran, no
`getxattr` of the name is answered `ENODATA` from the kept names and no `listxattr` without it; and once
a `removexattr` was, and as long as the file has not, no `listxattr` with it. -/
theorem own_xattrs_seen {attrTtl : ℕ} {first : ℕ → List Bytes} {s : Mount}
    (h : (machine attrTtl first).ReachableUnder (fun s a => s.processed a = true) s) {change : Change}
    (answered : change ∈ s.answered) (now : ℕ) :
    (change.set = true →
      (∀ v, change.number ≤ v → v ≤ s.changes change.ino → change.name ∈ s.names change.ino v) →
        xattrKnownAbsent s.xattrs now change.ino change.name = false ∧
        ∀ list, xattrKnownList s.xattrs now change.ino = some list →
          ∃ names, freshNames s.xattrs now change.ino = some names ∧ list = nulTerminated names ∧
            change.name ∈ names) ∧
    (change.set = false →
      (∀ v, change.number ≤ v → v ≤ s.changes change.ino → change.name ∉ s.names change.ino v) →
        ∀ list, xattrKnownList s.xattrs now change.ino = some list →
          ∃ names, freshNames s.xattrs now change.ino = some names ∧ list = nulTerminated names ∧
            change.name ∉ names) := by
  have sound : s.Sound :=
    Machine.ReachableUnder.invariant (P := Mount.Sound) (Mount.sound_new first)
      (fun _ _ _ before processed moves => Mount.sound_step before processed moves) h
  refine ⟨fun _ has => ⟨?_, fun list listed => ?_⟩, fun _ lacks list listed => ?_⟩
  · refine eq_false_of_ne_true fun absent => ?_
    obtain ⟨names, fresh, lacks⟩ := (xattrKnownAbsent_iff _ _ _ _).mp absent
    obtain ⟨v, after, past, rfl⟩ := sound.fresh answered fresh
    exact lacks (has v after past)
  · obtain ⟨names, fresh, rfl⟩ := Option.map_eq_some_iff.mp listed
    obtain ⟨v, after, past, rfl⟩ := sound.fresh answered fresh
    exact ⟨_, fresh, rfl, has v after past⟩
  · obtain ⟨names, fresh, rfl⟩ := Option.map_eq_some_iff.mp listed
    obtain ⟨v, after, past, rfl⟩ := sound.fresh answered fresh
    exact ⟨_, fresh, rfl, lacks v after past⟩

/-- Names reported and processed after a `setxattr` was answered list it. -/
theorem own_xattrs_seen_set : ∃ s,
    (machine 1 fun _ => []).ReachableUnder (fun s a => s.processed a = true) s ∧
      xattrKnownAbsent s.xattrs 0 7 [97] = false ∧
      ∀ list, xattrKnownList s.xattrs 0 7 = some list →
        ∃ names, freshNames s.xattrs 0 7 = some names ∧ list = nulTerminated names ∧ [97] ∈ names := by
  obtain ⟨s, reached, ends⟩ := (machine 1 fun _ => []).exists_of_runWhile
    (p := fun s : Mount => decide (⟨7, [97], true, 1⟩ ∈ s.answered) && decide (s.changes 7 = 1) &&
      decide ([97] ∈ s.names 7 1))
    (by decide +kernel : ((machine 1 fun _ => []).runWhile Mount.processed
      (machine 1 fun _ => []).initial
      [.setxattr 7 [97], .answer 0, .report 7 true, .process 0 0]).any _ = true)
  simp only [Bool.and_eq_true, decide_eq_true_eq] at ends
  obtain ⟨⟨answered, changes⟩, has⟩ := ends
  refine ⟨s, reached, (own_xattrs_seen reached answered 0).1 rfl fun v after past => ?_⟩
  have one : v = 1 := Nat.le_antisymm (changes ▸ past) after
  rw [one]
  exact has

/-- A reply made before a `setxattr` and processed after its answer: the client says from it that there
is no such attribute, which the file has had since. -/
theorem own_xattrs_unseen : ∃ s, (machine 1 fun _ => []).run
    [.report 7 true, .setxattr 7 [97], .answer 0, .process 0 0] = some s ∧
    ⟨7, [97], true, 1⟩ ∈ s.answered ∧ s.changes 7 = 1 ∧ [97] ∈ s.names 7 1 ∧
      xattrKnownAbsent s.xattrs 0 7 [97] = true :=
  Machine.exists_run (by decide +kernel)

end JackalopeFs.XattrNames
