import JackalopeFs.DirectoryPages
import JackalopeFs.LaggingReplies

/-! # The end of a directory that is remembered

Several requests run on the handles of a directory at once.  The server lists at one moment, and what
it said of the directory's end is noted with the handle when its reply is processed; a name that was
added is told to the client apart from that, and drops what the handles of its directory remember.
Whether a remembered end is older than a name the client was told of depends on the listings that were
on their way at that moment.

The server's directories enter as the number of names added to each; what a listing has in it is
arbitrary.
-/

namespace JackalopeFs.RememberedEnds

open DirectoryListing DirectoryPages IndexedCells KeyedTables LaggingReplies TransitionRuns

/-- How far the fetch of a page is: a listing counts the names that its directory had been given. -/
inductive Stage where
  | asked
  | listed (page : Listing) (made : ℕ)
  | fetched (page : Listing) (made : ℕ)
  | noted
  deriving DecidableEq, Repr

/-- A fetch by `dir_page` on a handle of the directory `ino`. -/
structure Fetch where
  fh : ℕ
  ino : ℕ
  offset : UInt64
  stage : Stage
  deriving DecidableEq, Repr

/-- When the listing of a fetch that may still be noted was made. -/
def Fetch.made (f : Fetch) : Option ℕ :=
  match f.stage with
  | .listed _ made | .fetched _ made => some made
  | .asked | .noted => none

/-- The client's directory handles, the fetches on them, and the names added at the server.  `learned`
is when the listing was made from which a handle's end is known, and `told` the names, by the number of
their directory and their place in the order of adding, that `dir_grew` was called for. -/
structure Mount where
  dirs : AList fun _ : ℕ => DirState
  next : ℕ
  fetches : List Fetch
  learned : ℕ → ℕ
  names : ℕ → ℕ
  told : List (ℕ × ℕ)

inductive Action where
  | opendir (ino now : ℕ)
  | releasedir (fh : ℕ)
  /-- The part of `dir_page` before its fetch. -/
  | dirPage (fh : ℕ) (offset : UInt64) (plus : Bool) (now : ℕ)
  | list (i : ℕ) (page : Listing)
  /-- The reply of a fetch is processed: first its time is kept, then the end. -/
  | fetched (i now : ℕ)
  | noteEnd (i : ℕ)
  | stash (fh : ℕ) (rest : DirBuffer)
  /-- A name is added at the server. -/
  | add (ino : ℕ)
  | dirGrew (ino name : ℕ)
  | dirsGrewAll
  deriving DecidableEq, Repr

namespace Mount

def new : Mount :=
  ⟨∅, 0, [], fun _ => 0, fun _ => 0, []⟩

def set (f : ℕ → ℕ) (k value : ℕ) : ℕ → ℕ :=
  fun j => if j = k then value else f j

def setStage (s : Mount) (i : ℕ) (f : Fetch) (stage : Stage) : List Fetch :=
  s.fetches.set i { f with stage }

def step (attrTtl : ℕ) (s : Mount) : Action → Option Mount
  | .opendir ino now => some { s with dirs := s.dirs.insert s.next (.new ino now), next := s.next + 1 }
  | .releasedir fh => some { s with dirs := s.dirs.erase fh }
  | .dirPage fh offset plus now =>
    (s.dirs.lookup fh).map fun state =>
      match state.lookPage attrTtl now offset plus with
      | (state, some _) => { s with dirs := s.dirs.insert fh state }
      | (state, none) => { s with
          dirs := s.dirs.insert fh state
          fetches := s.fetches ++ [⟨fh, state.ino, offset, .asked⟩] }
  | .list i page =>
    s.fetches[i]?.bind fun f =>
      match f.stage with
      | .asked => some { s with fetches := s.setStage i f (.listed page (s.names f.ino)) }
      | _ => none
  | .fetched i now =>
    s.fetches[i]?.bind fun f =>
      match f.stage with
      | .listed page made => some { s with
          dirs := modify s.dirs f.fh fun state => { state with fetched := now }
          fetches := s.setStage i f (.fetched page made) }
      | _ => none
  | .noteEnd i =>
    s.fetches[i]?.bind fun f =>
      match f.stage with
      | .fetched page made => some { s with
          dirs := modify s.dirs f.fh fun state =>
            state.noteEnd (page.entries.getLast?.map WireMessages.DirEntry.nextOffset) page.atEnd
          learned := if page.entries = [] then s.learned else set s.learned f.fh made
          fetches := s.setStage i f .noted }
      | _ => none
  | .stash fh rest => some { s with dirs := modify s.dirs fh fun state => state.stash rest }
  | .add ino => some { s with names := set s.names ino (s.names ino + 1) }
  | .dirGrew ino name =>
    if name ≤ s.names ino then
      some { s with
        dirs := mapValues (fun state => if state.ino = ino then { state with endAt := none } else state)
          s.dirs
        told := (ino, name) :: s.told }
    else none
  | .dirsGrewAll => some { s with dirs := mapValues (fun state => { state with endAt := none }) s.dirs }

/-- When `dir_grew` is called for a name, no listing that was made before the name was added is still to
be noted with a handle of its directory. -/
def processed (s : Mount) : Action → Bool
  | .dirGrew ino name => s.fetches.all fun f => f.ino ≠ ino || f.made.all (name ≤ ·)
  | _ => true

end Mount

def machine (attrTtl : ℕ) : Machine Mount Action :=
  ⟨.new, Mount.step attrTtl⟩

namespace Mount

variable {attrTtl : ℕ} {s t : Mount}

def Told (s : Mount) (ino name : ℕ) : Prop :=
  (ino, name) ∈ s.told

/-- A listing of the directory made at that moment is still to be noted. -/
def Answer (s : Mount) (ino made : ℕ) : Prop :=
  ∃ f ∈ s.fetches, f.ino = ino ∧ f.made = some made

/-- A handle of the directory remembers its end from a listing made at that moment. -/
def Kept (s : Mount) (ino made : ℕ) : Prop :=
  ∃ fh state, s.dirs.lookup fh = some state ∧ state.endAt.isSome = true ∧ state.ino = ino ∧
    s.learned fh = made

/-- The handles of `dirs'` are among those of `dirs`. -/
def Among (dirs dirs' : AList fun _ : ℕ => DirState) : Prop :=
  ∀ fh state', dirs'.lookup fh = some state' → ∃ state, dirs.lookup fh = some state ∧
    state'.ino = state.ino

def Keeps (dirs dirs' : AList fun _ : ℕ => DirState) : Prop :=
  ∀ fh state', dirs'.lookup fh = some state' → ∃ state, dirs.lookup fh = some state ∧
    state'.ino = state.ino ∧ (state'.endAt = state.endAt ∨ state'.endAt = none)

theorem Keeps.among {dirs dirs' : AList fun _ : ℕ => DirState} (h : Keeps dirs dirs') :
    Among dirs dirs' := by
  intro fh state' held
  obtain ⟨state, before, ino, _⟩ := h fh state' held
  exact ⟨state, before, ino⟩

theorem Keeps.refl (dirs : AList fun _ : ℕ => DirState) : Keeps dirs dirs :=
  fun _ state held => ⟨state, held, rfl, .inl rfl⟩

variable {f : DirState → DirState}

theorem keeps_modify (dirs : AList fun _ : ℕ => DirState) (fh : ℕ)
    (ino : ∀ state, (f state).ino = state.ino) (endAt : ∀ state, (f state).endAt = state.endAt) :
    Keeps dirs (modify dirs fh f) := by
  intro j state' held
  obtain ⟨state, before, rfl | ⟨-, rfl⟩⟩ := of_lookup_modify held
  · exact ⟨state', before, rfl, .inl rfl⟩
  · exact ⟨state, before, ino state, .inl (endAt state)⟩

theorem keeps_mapValues (dirs : AList fun _ : ℕ => DirState)
    (ino : ∀ state, (f state).ino = state.ino)
    (endAt : ∀ state, (f state).endAt = state.endAt ∨ (f state).endAt = none) :
    Keeps dirs (mapValues f dirs) := by
  intro j state' held
  rw [lookup_mapValues] at held
  obtain ⟨state, before, rfl⟩ := Option.map_eq_some_iff.mp held
  exact ⟨state, before, ino state, endAt state⟩

theorem keeps_erase (dirs : AList fun _ : ℕ => DirState) (fh : ℕ) : Keeps dirs (dirs.erase fh) :=
  fun _ state held => ⟨state, (of_lookup_erase held).2, rfl, .inl rfl⟩

theorem keeps_lookPage {dirs : AList fun _ : ℕ => DirState} {fh now : ℕ} {state state' : DirState}
    {offset : UInt64} {plus : Bool} {page : Option DirBuffer} (held : dirs.lookup fh = some state)
    (looked : state.lookPage attrTtl now offset plus = (state', page)) :
    state'.ino = state.ino ∧ Keeps dirs (dirs.insert fh state') := by
  have same : state'.ino = state.ino ∧ state'.endAt = state.endAt := by
    simp only [DirState.lookPage] at looked
    split_ifs at looked <;> cases looked <;> exact ⟨rfl, rfl⟩
  refine ⟨same.1, fun j new found => ?_⟩
  obtain ⟨rfl, rfl⟩ | ⟨_, old⟩ := of_lookup_insert found
  · exact ⟨state, held, same.1, .inl same.2⟩
  · exact ⟨new, old, rfl, .inl rfl⟩

/-- Fetches are on handles that were given out, each of the directory its handle is of. -/
structure Tied (s : Mount) : Prop where
  opened : ∀ fh state, s.dirs.lookup fh = some state → fh < s.next
  asked : ∀ f ∈ s.fetches, f.fh < s.next
  ino : ∀ f ∈ s.fetches, ∀ state, s.dirs.lookup f.fh = some state → state.ino = f.ino

structure Sound (s : Mount) : Prop where
  tied : Tied s
  current : Current s.names s.Told s.Answer s.Kept

theorem sound_new : Sound new := by
  refine ⟨⟨?_, ?_, ?_⟩, ⟨?_, ?_, ?_⟩⟩
  · exact fun fh state held => (nomatch held)
  · exact fun f mem => absurd mem List.not_mem_nil
  · exact fun f mem => absurd mem List.not_mem_nil
  · exact fun k change told => absurd told List.not_mem_nil
  · exact fun k change made told => absurd told List.not_mem_nil
  · exact fun k change made told => absurd told List.not_mem_nil

/-- What a step does to a fetch: it stays as it is, has its listing made now, or is noted; or it is new
and on a handle of its directory. -/
def Proceeds (s : Mount) (f : Fetch) : Prop :=
  (∃ g ∈ s.fetches, f.fh = g.fh ∧ f.ino = g.ino ∧
    ∀ made, f.made = some made → g.made = some made ∨ made = s.names g.ino) ∨
  f.made = none ∧ ∃ state, s.dirs.lookup f.fh = some state ∧ state.ino = f.ino

theorem Proceeds.old {f : Fetch} (mem : f ∈ s.fetches) : Proceeds s f :=
  .inl ⟨f, mem, rfl, rfl, fun _ same => .inl same⟩

theorem Proceeds.answer {f : Fetch} (h : Proceeds s f) {made : ℕ} (listed : f.made = some made) :
    s.Answer f.ino made ∨ made = s.names f.ino := by
  obtain ⟨g, mem, _, ino, proceeds⟩ | ⟨none, _⟩ := h
  · rw [ino]
    exact (proceeds made listed).imp_left fun same => ⟨g, mem, rfl, same⟩
  · rw [none] at listed
    cases listed

theorem Tied.among (h : Tied s) (dirs : Among s.dirs t.dirs) (next : s.next = t.next)
    (fetches : ∀ f ∈ t.fetches, Proceeds s f) : Tied t := by
  refine ⟨fun fh state held => ?_, fun f mem => ?_, fun f mem state held => ?_⟩
  · obtain ⟨old, before, _⟩ := dirs fh state held
    rw [← next]
    exact h.opened fh old before
  · rw [← next]
    obtain ⟨g, mem, fh, _⟩ | ⟨_, state, held, _⟩ := fetches f mem
    · rw [fh]
      exact h.asked g mem
    · exact h.opened _ _ held
  · obtain ⟨old, before, same⟩ := dirs f.fh state held
    rw [same]
    obtain ⟨g, mem, fh, ino, _⟩ | ⟨_, state, held, ino⟩ := fetches f mem
    · rw [ino]
      rw [fh] at before
      exact h.ino g mem old before
    · rw [before] at held
      cases held
      exact ino

/-- A step in which no handle comes to remember an end and none is told of a name. -/
theorem Sound.keeps (h : Sound s) (dirs : Keeps s.dirs t.dirs) (next : s.next = t.next)
    (fetches : ∀ f ∈ t.fetches, Proceeds s f) (learned : s.learned = t.learned) (told : s.told = t.told)
    (names : ∀ ino, s.names ino ≤ t.names ino) : Sound t := by
  refine ⟨h.tied.among dirs.among next fetches, ?_⟩
  have same : t.Told = s.Told := by
    unfold Told
    rw [told]
  rw [same]
  refine h.current.step names (fun ino made answer => ?_) fun ino made kept => .inl ?_
  · obtain ⟨f, mem, rfl, listed⟩ := answer
    exact (fetches f mem).answer listed
  · obtain ⟨fh, state, held, some, rfl, made⟩ := kept
    obtain ⟨old, before, ino, endAt⟩ := dirs fh state held
    rw [← learned] at made
    cases endAt with
    | inl endAt =>
      rw [endAt] at some
      exact ⟨fh, old, before, some, ino.symm, made⟩
    | inr none =>
      rw [none] at some
      cases some

theorem proceeds_set {i : ℕ} {f : Fetch} {stage : Stage} (found : s.fetches[i]? = some f)
    (made : ∀ made, (Fetch.mk f.fh f.ino f.offset stage).made = some made →
      f.made = some made ∨ made = s.names f.ino) :
    ∀ g ∈ s.setStage i f stage, Proceeds s g := by
  intro g mem
  cases List.mem_or_eq_of_mem_set mem with
  | inl old => exact .old old
  | inr new =>
    rw [new]
    exact .inl ⟨f, List.mem_of_getElem? found, rfl, rfl, made⟩

theorem Sound.opendir (h : Sound s) (ino now : ℕ) :
    Sound { s with dirs := s.dirs.insert s.next (.new ino now), next := s.next + 1 } := by
  refine ⟨⟨fun fh state held => ?_, fun f mem => Nat.lt_succ_of_lt (h.tied.asked f mem),
    fun f mem state held => ?_⟩, ?_⟩
  · obtain ⟨rfl, _⟩ | ⟨_, old⟩ := of_lookup_insert held
    · exact Nat.lt_succ_self _
    · exact Nat.lt_succ_of_lt (h.tied.opened fh state old)
  · obtain ⟨same, _⟩ | ⟨_, old⟩ := of_lookup_insert held
    · exact absurd same (Nat.ne_of_lt (h.tied.asked f mem))
    · exact h.tied.ino f mem state old
  · refine h.current.step (fun _ => Nat.le_refl _) (fun _ _ answer => .inl answer)
      fun ino made kept => .inl ?_
    obtain ⟨fh, state, held, some, same, made⟩ := kept
    obtain ⟨_, rfl⟩ | ⟨_, old⟩ := of_lookup_insert held
    · cases some
    · exact ⟨fh, state, old, some, same, made⟩

theorem among_modify (dirs : AList fun _ : ℕ => DirState) (fh : ℕ)
    (ino : ∀ state, (f state).ino = state.ino) : Among dirs (modify dirs fh f) := by
  intro j state' held
  obtain ⟨state, before, rfl | ⟨-, rfl⟩⟩ := of_lookup_modify held
  · exact ⟨state', before, rfl⟩
  · exact ⟨state, before, ino state⟩

theorem noteEnd_ino (state : DirState) (last : Option UInt64) (atEnd : Bool) :
    (state.noteEnd last atEnd).ino = state.ino := by
  cases last <;> rfl

theorem Sound.noteEnd (h : Sound s) {i : ℕ} {f : Fetch} (found : s.fetches[i]? = some f) {page : Listing}
    {made : ℕ} (stage : f.stage = .fetched page made) :
    Sound { s with
      dirs := modify s.dirs f.fh fun state =>
        state.noteEnd (page.entries.getLast?.map WireMessages.DirEntry.nextOffset) page.atEnd
      learned := if page.entries = [] then s.learned else set s.learned f.fh made
      fetches := s.setStage i f .noted } := by
  have mem : f ∈ s.fetches := List.mem_of_getElem? found
  have proceeds : ∀ g ∈ s.setStage i f .noted, Proceeds s g :=
    proceeds_set found fun _ none => (nomatch none)
  refine ⟨h.tied.among (among_modify _ _ fun _ => noteEnd_ino _ _ _) rfl proceeds, ?_⟩
  refine h.current.step (fun _ => Nat.le_refl _) (fun ino made answer => ?_) fun ino when kept => ?_
  · obtain ⟨g, listed, rfl, made⟩ := answer
    exact (proceeds g listed).answer made
  · obtain ⟨fh, state', held, some, rfl, learned⟩ := kept
    rw [lookup_modify] at held
    split_ifs at held with same
    · obtain ⟨state, before, rfl⟩ := Option.map_eq_some_iff.mp held
      rw [noteEnd_ino]
      subst same
      simp only at learned
      split_ifs at learned with empty
      · rw [empty] at some
        exact .inl ⟨f.fh, state, before, some, rfl, learned⟩
      · rw [set, if_pos rfl] at learned
        refine .inr ⟨f, mem, (h.tied.ino f mem state before).symm, ?_⟩
        rw [Fetch.made, stage, learned]
    · refine .inl ⟨fh, state', held, some, rfl, ?_⟩
      rw [← learned]
      simp only
      split_ifs
      · rfl
      · rw [set, if_neg same]

theorem Sound.dirGrew (h : Sound s) {ino name : ℕ} (added : name ≤ s.names ino)
    (processed : s.processed (.dirGrew ino name) = true) :
    Sound { s with
      dirs := mapValues (fun state => if state.ino = ino then { state with endAt := none } else state)
        s.dirs
      told := (ino, name) :: s.told } := by
  have dirs : Keeps s.dirs (mapValues
      (fun state => if state.ino = ino then { state with endAt := none } else state) s.dirs) := by
    refine keeps_mapValues _ (fun state => ?_) fun state => ?_
    · split_ifs <;> rfl
    · split_ifs
      · exact .inr rfl
      · exact .inl rfl
  refine ⟨h.tied.among dirs.among rfl fun f mem => .old mem, ?_⟩
  refine h.current.tell (k := ino) added (fun made answer => ?_) (fun j w told => ?_)
    (fun _ _ answer => answer) fun j made kept => ?_
  · obtain ⟨f, mem, same, listed⟩ := answer
    have known := List.all_eq_true.mp processed f mem
    simpa [same, listed] using known
  · cases told with
    | head => exact .inr ⟨rfl, rfl⟩
    | tail _ old => exact .inl old
  · obtain ⟨fh, state', held, some, rfl, learned⟩ := kept
    rw [lookup_mapValues] at held
    obtain ⟨state, before, rfl⟩ := Option.map_eq_some_iff.mp held
    split_ifs at some ⊢ with same
    · cases some
    · exact ⟨⟨fh, state, before, some, rfl, learned⟩, same⟩

theorem sound_step {action : Action} (h : Sound s) (processed : s.processed action = true)
    (moves : step attrTtl s action = some t) : Sound t := by
  have still : ∀ ino, s.names ino ≤ s.names ino := fun _ => Nat.le_refl _
  have old : ∀ f ∈ s.fetches, Proceeds s f := fun f mem => .old mem
  cases action with
  | opendir ino now =>
    cases moves
    exact h.opendir ino now
  | releasedir =>
    cases moves
    exact h.keeps (keeps_erase _ _) rfl old rfl rfl still
  | dirPage _ offset plus now =>
    obtain ⟨state, held, moved⟩ := Option.map_eq_some_iff.mp moves
    rcases looked : state.lookPage attrTtl now offset plus with ⟨state', page⟩
    obtain ⟨ino, keeps⟩ := keeps_lookPage held looked
    rw [looked] at moved
    cases page with
    | some =>
      cases moved
      exact h.keeps keeps rfl old rfl rfl still
    | none =>
      cases moved
      refine h.keeps keeps rfl (fun f mem => ?_) rfl rfl still
      cases List.mem_append.mp mem with
      | inl before => exact .old before
      | inr new =>
        rw [List.mem_singleton.mp new]
        exact .inr ⟨rfl, state, held, ino.symm⟩
  | list =>
    obtain ⟨f, found, moved⟩ := Option.bind_eq_some_iff.mp moves
    split at moved
    · cases moved
      refine h.keeps (.refl _) rfl (proceeds_set found fun made same => .inr ?_) rfl rfl still
      exact (Option.some.inj same).symm
    · cases moved
  | fetched i now =>
    obtain ⟨f, found, moved⟩ := Option.bind_eq_some_iff.mp moves
    split at moved
    · rename_i page made stage
      cases moved
      refine h.keeps (keeps_modify _ _ (fun _ => rfl) fun _ => rfl) rfl
        (proceeds_set found fun made same => .inl ?_) rfl rfl still
      rw [Fetch.made, stage]
      exact same
    · cases moved
  | noteEnd i =>
    obtain ⟨f, found, moved⟩ := Option.bind_eq_some_iff.mp moves
    split at moved
    · rename_i page made stage
      cases moved
      exact h.noteEnd found stage
    · cases moved
  | stash =>
    cases moves
    exact h.keeps (keeps_modify _ _ (fun _ => rfl) fun _ => rfl) rfl old rfl rfl still
  | add =>
    cases moves
    refine h.keeps (.refl _) rfl old rfl rfl fun j => ?_
    simp only [set]
    split_ifs with same
    · rw [same]
      exact Nat.le_succ _
    · exact Nat.le_refl _
  | dirGrew =>
    simp only [step] at moves
    split_ifs at moves with added
    cases moves
    exact h.dirGrew added processed
  | dirsGrewAll =>
    cases moves
    exact h.keeps (keeps_mapValues _ (fun _ => rfl) fun _ => .inr rfl) rfl old rfl rfl still

end Mount

/-- In every run in which no listing from before a name was added is still to be noted when `dir_grew`
is called for the name: a `dir_page` that is answered empty without the server is answered from an end
that was listed after every name of the directory that `dir_grew` was called for. -/
theorem remembered_end_current {attrTtl : ℕ} {s : Mount}
    (h : (machine attrTtl).ReachableUnder (fun s a => s.processed a = true) s) {fh : ℕ} {state : DirState}
    (held : s.dirs.lookup fh = some state) {now : ℕ} {offset : UInt64} {plus : Bool} {after : DirState}
    (answered : state.lookPage attrTtl now offset plus = (after, some [])) {name : ℕ}
    (told : (state.ino, name) ∈ s.told) :
    offset ≠ 0 ∧ state.endAt = some offset ∧ name ≤ s.learned fh := by
  have sound : s.Sound :=
    Machine.ReachableUnder.invariant (P := Mount.Sound) Mount.sound_new
      (fun _ _ _ before processed moves => Mount.sound_step before processed moves) h
  have ended : offset ≠ 0 ∧ state.endAt = some offset := by
    simp only [DirState.lookPage] at answered
    split_ifs at answered with buffered ended
    · -- a buffer that answers is not empty
      have empty : state.buffer = [] := Option.some.inj (congrArg Prod.snd answered)
      rw [empty] at buffered
      exact absurd buffered.2.2 (by simp)
    · exact ended
    · cases answered
  refine ⟨ended.1, ended.2, sound.current.kept state.ino name _ told ⟨fh, state, held, ?_, rfl, rfl⟩⟩
  rw [ended.2]
  rfl

def lastEntry : Listing :=
  ⟨[⟨5, [97], none⟩], true⟩

/-- A handle that was listed to its end and then told of a name asks the server again. -/
theorem remembered_end_after_listing : ∃ s,
    (machine 1).ReachableUnder (fun s a => s.processed a = true) s ∧ (7, 1) ∈ s.told ∧
      ∃ state, s.dirs.lookup 0 = some state ∧ (state.lookPage 1 0 5 false).2 = some [] ∧
        1 ≤ s.learned 0 := by
  obtain ⟨s, reached, ends⟩ := (machine 1).exists_of_runWhile
    (p := fun s : Mount => decide ((7, 1) ∈ s.told) && (s.dirs.lookup 0).any fun state : DirState =>
      decide (state.ino = 7) && decide ((state.lookPage 1 0 5 false).2 = some []))
    (by decide +kernel : ((machine 1).runWhile Mount.processed (machine 1).initial
      [.opendir 7 0, .add 7, .dirGrew 7 1, .dirPage 0 0 false 0, .list 0 lastEntry, .fetched 0 0,
        .noteEnd 0]).any _ = true)
  simp only [Bool.and_eq_true, decide_eq_true_eq, Option.any_eq_true] at ends
  obtain ⟨told, state, held, ino, answered⟩ := ends
  refine ⟨s, reached, told, state, held, answered, ?_⟩
  rw [← ino] at told
  exact (remembered_end_current reached held (Prod.ext rfl answered) told).2.2

/-- A listing made before a name was added, and noted after `dir_grew` was called for the name: the read
at its end is answered without the server, which would list the name. -/
theorem remembered_end_stale : ∃ s, (machine 1).run
    [.opendir 7 0, .dirPage 0 0 false 0, .list 0 lastEntry, .add 7, .dirGrew 7 1, .fetched 0 0,
      .noteEnd 0] = some s ∧
    (7, 1) ∈ s.told ∧ s.learned 0 < 1 ∧
      (s.dirs.lookup 0).map (fun state => (state.ino, (state.lookPage 1 0 5 false).2)) =
        some (7, some []) :=
  Machine.exists_run (by decide +kernel)

end JackalopeFs.RememberedEnds
