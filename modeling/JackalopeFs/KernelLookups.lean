import JackalopeFs.NodeTableShape

/-! # The kernel's lookups

Every entry the kernel is told, in a lookup-like reply or in a listing with attributes,
counts one lookup, which the kernel later gives back with a forget.  Listings are made
entry by entry: the number is asked for, offered to a buffer that may have no room, and
registered once the entry is in.  Other requests come in between, and a reply reaches the
kernel some time after it was made; that the table counts as the kernel does is shown for
all of these orders.

The buffer's size enters as the number of entries it still takes, for a listing ends at
the first entry that is refused.  Offsets, attributes other than the file's own and the
stash of what was not listed have no part in the counts and are left out.
-/

namespace JackalopeFs.NodeTable

open IndexedCells KeyedTables List Option PathNames TransitionRuns

namespace Nodes

def parentOf (t : Nodes) (ino : ℕ) : ℕ :=
  ((t.get ino).bind fun node => node.aliases.getLast?.map Prod.fst).getD root

def lookups (t : Nodes) (id : ℕ) : ℕ :=
  ((t.get id).map Node.lookupCount).getD 0

end Nodes

structure Entry where
  name : List UInt8
  attr : Option Seen
  deriving DecidableEq, Repr

/-- An entry of a reply; the entries for the directory itself and its parent describe no file. -/
structure Added where
  number : ℕ
  name : List UInt8
  file : Option KeyNode
  deriving DecidableEq, Repr

/-- The lookup the kernel counts for an entry: none for the directory itself and its parent. -/
def Added.given (entry : Added) : Option (ℕ × KeyNode) :=
  if entry.name = [46] ∨ entry.name = [46, 46] then none
  else entry.file.map fun key => (entry.number, key)

/-- A reply being made or on its way: the directory, how many more entries its buffer takes, the
entries still to be added and those in it. -/
structure Reply where
  ino : ℕ
  room : ℕ
  entries : List Entry
  added : List Added
  deriving DecidableEq, Repr

namespace Reply

/-- The lookups that the kernel counts once it has the reply. -/
def given (reply : Reply) : List (ℕ × KeyNode) :=
  reply.added.filterMap Added.given

/-- Add an entry if there is room; otherwise the listing ends. -/
def add (reply : Reply) (entry : Added) (rest : List Entry) : Reply :=
  if reply.room = 0 then { reply with entries := [] }
  else { reply with room := reply.room - 1, entries := rest, added := reply.added ++ [entry] }

/-- An entry with a file: its number is asked for, offered to the buffer and registered once the
entry is in. -/
def listFile (t : Nodes) (reply : Reply) (rest : List Entry) (name : Name) (seen : Seen) :
    Option (Nodes × Reply) :=
  (t.idFor seen).bind fun id =>
    let offered := reply.add ⟨id, name.bytes, some seen.key⟩ rest
    if reply.room = 0 then some (t, offered)
    else (t.insertLookup reply.ino name seen).map fun registered => (registered.1, offered)

def listEntry (t : Nodes) (reply : Reply) : Option (Nodes × Reply) :=
  match reply.entries with
  | [] => none
  | entry :: rest =>
    if entry.name = [46] then some (t, reply.add ⟨reply.ino, entry.name, none⟩ rest)
    else if entry.name = [46, 46] then
      some (t, reply.add ⟨t.parentOf reply.ino, entry.name, none⟩ rest)
    else
      match entry.attr, Name.new entry.name with
      | some seen, .ok name => listFile t reply rest name seen
      | _, _ => some (t, { reply with entries := rest })

end Reply

/-- What the kernel knows of a number: how often it was told and gave it back, and the files it was
told it for since it last gave it back for good. -/
structure Kernel where
  handed : ℕ → ℕ
  returned : ℕ → ℕ
  files : ℕ → List KeyNode

namespace Kernel

def new : Kernel :=
  ⟨fun _ => 0, fun _ => 0, fun _ => []⟩

def receive (k : Kernel) (given : List (ℕ × KeyNode)) : Kernel :=
  { k with
    handed := fun id => k.handed id + given.countP fun e => e.1 = id
    files := fun id => (given.filter fun e => e.1 = id).map Prod.snd ++ k.files id }

def giveBack (k : Kernel) (ino n : ℕ) : Kernel :=
  { k with
    returned := fun id => if id = ino then k.returned id + n else k.returned id
    files := fun id => if id = ino ∧ k.handed id = k.returned id + n then [] else k.files id }

end Kernel

structure Mount where
  table : Nodes
  replies : List Reply
  kernel : Kernel

inductive Event where
  /-- A successful lookup, mknod, mkdir, symlink, link or create is answered. -/
  | replyEntry (parent : ℕ) (name : Name) (seen : Seen)
  | readdirplus (ino room : ℕ) (entries : List Entry)
  | listEntry (i : ℕ)
  /-- A finished reply reaches the kernel. -/
  | deliver (i : ℕ)
  | forget (ino n : ℕ)
  /-- Another operation on the table. -/
  | change (action : Action)
  deriving DecidableEq, Repr

def Action.uncounted : Action → Bool
  | .insertLookup .. | .forget .. => false
  | _ => true

namespace Mount

/-- The lookups of all replies that the kernel does not have yet. -/
def given (s : Mount) : List (ℕ × KeyNode) :=
  s.replies.flatMap Reply.given

/-- How many lookups of a number are on their way to the kernel. -/
def outgoing (s : Mount) (id : ℕ) : ℕ :=
  s.given.countP fun e => e.1 = id

def step (s : Mount) : Event → Option Mount
  | .replyEntry parent name seen =>
    (s.table.insertLookup parent name seen).map fun registered =>
      match registered.2 with
      | some id => { s with
          table := registered.1
          replies := s.replies ++ [⟨parent, 0, [], [⟨id, name.bytes, some seen.key⟩]⟩] }
      -- The reply claims to be the root: the request fails.
      | none => s
  | .readdirplus ino room entries =>
    some { s with replies := s.replies ++ [⟨ino, room, entries, []⟩] }
  | .listEntry i =>
    s.replies[i]?.bind fun reply => (reply.listEntry s.table).map fun listed =>
      { s with table := listed.1, replies := s.replies.set i listed.2 }
  | .deliver i =>
    s.replies[i]?.bind fun reply =>
      if reply.entries = [] then
        some { s with replies := s.replies.eraseIdx i, kernel := s.kernel.receive reply.given }
      else none
  | .forget ino n =>
    if n ≤ s.kernel.handed ino - s.kernel.returned ino then
      some { s with table := (s.table.forget ino n).1, kernel := s.kernel.giveBack ino n }
    else none
  | .change action =>
    if action.uncounted then
      (NodeTable.step s.table action).map fun table => { s with table := table }
    else none

def machine : Machine Mount Event :=
  ⟨⟨.new, [], .new⟩, step⟩

end Mount

variable {t t' : Nodes}

/-- The two tables have the same keys and counts, but for the root's. -/
def Nodes.SameCounts (t t' : Nodes) : Prop :=
  ∀ id, id ≠ root → (t'.get id).map (fun node => (node.key, node.lookupCount)) =
    (t.get id).map fun node => (node.key, node.lookupCount)

def Nodes.keyOf (t : Nodes) (id : ℕ) : Option KeyNode :=
  (t.get id).bind Node.key

theorem lookups_of_core {id : ℕ}
    (same : (t'.get id).map (fun node => (node.key, node.lookupCount)) =
      (t.get id).map fun node => (node.key, node.lookupCount)) : t'.lookups id = t.lookups id := by
  have counts := congrArg (fun o => (o.map Prod.snd).getD 0) same
  simpa [Nodes.lookups, Function.comp_def] using counts

theorem keyOf_of_core {id : ℕ}
    (same : (t'.get id).map (fun node => (node.key, node.lookupCount)) =
      (t.get id).map fun node => (node.key, node.lookupCount)) : t'.keyOf id = t.keyOf id := by
  have keys := congrArg (fun o => o.bind fun k : Option KeyNode × ℕ => k.1) same
  simpa [Nodes.keyOf, bind_map, Function.comp_def] using keys

theorem Nodes.Refits.sameCounts (h : Refits t t') : SameCounts t t' :=
  fun id _ => h.nodes id

theorem sameCounts_of_uncounted {action : Action} (quiet : action.uncounted = true)
    (moved : Nodes.Steps t action t') : t.SameCounts t' := by
  cases moved with
  | stays => exact fun _ _ => rfl
  | registers => cases quiet
  | roots =>
    intro id other
    rw [Nodes.rootSeen, Nodes.get_modify, if_neg other]
  | counts => cases quiet
  | forgets => cases quiet
  | unnames _ _ _ _ done => exact done.refits.sameCounts
  | unlinks parent name => exact (Nodes.refits_unlink parent name).sameCounts
  | moves _ _ _ _ _ _ _ _ done => exact done.refits.sameCounts
  | parts parent name =>
    exact ((Nodes.refits_unlink parent name).trans (Nodes.refits_unlink _ _)).sameCounts
  | swaps _ _ _ _ _ _ _ _ _ _ done => exact done.refits.sameCounts

namespace Mount

variable {s s' : Mount}

/-- Everything that an event does to the table, the lookups on their way and the kernel. -/
inductive Effect (s s' : Mount) : Prop where
  | changes (action : Action) (quiet : action.uncounted = true)
      (moved : Nodes.Steps s.table action s'.table) (given : s'.given.Perm s.given)
      (kernel : s'.kernel = s.kernel)
  | gives (parent : ℕ) (name : Name) (seen : Seen) (id : ℕ)
      (done : Nodes.Registers s.table parent name seen id s'.table)
      (given : s'.given.Perm ((id, seen.key) :: s.given)) (kernel : s'.kernel = s.kernel)
  | claimsRoot (key : KeyNode) (table : s'.table = s.table)
      (given : s'.given.Perm ((root, key) :: s.given)) (kernel : s'.kernel = s.kernel)
  | delivers (told : List (ℕ × KeyNode)) (table : s'.table = s.table)
      (given : s.given.Perm (told ++ s'.given)) (kernel : s'.kernel = s.kernel.receive told)
  | returns (ino n : ℕ) (owed : n ≤ s.kernel.handed ino - s.kernel.returned ino)
      (table : s'.table = (s.table.forget ino n).1) (given : s'.given = s.given)
      (kernel : s'.kernel = s.kernel.giveBack ino n)

theorem quiet_effect (table : s'.table = s.table) (given : s'.given.Perm s.given)
    (kernel : s'.kernel = s.kernel) : Effect s s' :=
  .changes (.unlink root ⟨[97], by decide⟩) rfl (by rw [table]; exact .stays _) given kernel

variable {reply : Reply}

theorem given_write {i : ℕ} (listed : s.replies[i]? = some reply) (table : Nodes) (reply' : Reply)
    (more : List (ℕ × KeyNode)) (made : reply'.given = reply.given ++ more) :
    ({ s with table := table, replies := s.replies.set i reply' } : Mount).given.Perm
      (more ++ s.given) := by
  have after := (perm_write reply' listed).flatMap_right Reply.given
  have before := (perm_erase listed).flatMap_right Reply.given
  refine after.trans (.trans ?_ (before.append_left more))
  simp only [flatMap_cons, made, ← append_assoc]
  exact perm_append_comm.append_right _

variable {rest : List Entry}

theorem given_add {entry : Added} (room : reply.room ≠ 0) :
    (reply.add entry rest).given = reply.given ++ entry.given.toList := by
  simp only [Reply.add, if_neg room, Reply.given, filterMap_append]
  cases told : entry.given with
  | none => simp [told]
  | some => simp [told]

theorem given_add_full {entry : Added} (full : reply.room = 0) :
    (reply.add entry rest).given = reply.given := by
  simp only [Reply.add, if_pos full, Reply.given]

theorem given_add_dot {entry : Added} (dot : entry.given = none) :
    (reply.add entry rest).given = reply.given := by
  by_cases full : reply.room = 0
  · exact given_add_full full
  · simp [given_add full, dot]

theorem given_named {id : ℕ} {name : Name} {key : KeyNode} :
    (⟨id, name.bytes, some key⟩ : Added).given = some (id, key) := by
  have valid := name.valid
  unfold ErrorName.of at valid
  split_ifs at valid with _ _ _ dot
  simp [Added.given, dot]

theorem listEntry_effect {i : ℕ} {reply reply' : Reply} {table : Nodes}
    (listed : s.replies[i]? = some reply)
    (made : reply.listEntry s.table = some (table, reply')) :
    Effect s { s with table := table, replies := s.replies.set i reply' } := by
  have quiet : reply'.given = reply.given → s.table = table →
      Effect s { s with table := table, replies := s.replies.set i reply' } := by
    rintro same rfl
    exact quiet_effect rfl (given_write listed _ reply' [] (by simp [same])) rfl
  unfold Reply.listEntry at made
  split at made
  · cases made
  rename_i entry rest _
  split_ifs at made with dot dotdot
  · cases made
    exact quiet (given_add_dot (by simp [Added.given, dot])) rfl
  · cases made
    exact quiet (given_add_dot (by simp [Added.given, dotdot])) rfl
  split at made
  · rename_i seen name _ _
    obtain ⟨id, number, made⟩ := bind_eq_some_iff.mp made
    split_ifs at made with full
    · cases made
      exact quiet (given_add_full full) rfl
    · obtain ⟨⟨table', told⟩, registered, eq⟩ := map_eq_some_iff.mp made
      cases eq
      have given := given_write listed table'
        (reply.add ⟨id, name.bytes, some seen.key⟩ rest) [(id, seen.key)]
        (by rw [given_add full, given_named]; rfl)
      rcases Nodes.insertLookup_registers registered with ⟨isRoot, rfl, _⟩ | ⟨id', _, done⟩
      · cases number.symm.trans isRoot
        exact .claimsRoot seen.key rfl given rfl
      · cases number.symm.trans done.number
        exact .gives reply.ino name seen id done given rfl
  · cases made
    exact quiet rfl rfl

theorem step_effect (shape : s.table.WellFormed) {event : Event} (moved : s.step event = some s') :
    Effect s s' := by
  cases event with
  | replyEntry parent name seen =>
    obtain ⟨⟨table, told⟩, registered, rfl⟩ := map_eq_some_iff.mp moved
    rcases Nodes.insertLookup_registers registered with ⟨_, rfl, rfl⟩ | ⟨id, rfl, done⟩
    · exact quiet_effect rfl (.refl _) rfl
    · refine .gives parent name seen id done ?_ rfl
      have given : s.given ++ [(id, seen.key)] = (⟨table, s.replies ++
          [⟨parent, 0, [], [⟨id, name.bytes, some seen.key⟩]⟩], s.kernel⟩ : Mount).given := by
        simp [Mount.given, Reply.given, given_named]
      exact given ▸ perm_append_comm
  | readdirplus =>
    cases moved
    refine quiet_effect rfl ?_ rfl
    simp [Mount.given, Reply.given]
  | listEntry =>
    obtain ⟨reply, listed, moved⟩ := bind_eq_some_iff.mp moved
    obtain ⟨⟨table, reply'⟩, made, rfl⟩ := map_eq_some_iff.mp moved
    exact listEntry_effect listed made
  | deliver =>
    obtain ⟨reply, listed, moved⟩ := bind_eq_some_iff.mp moved
    split_ifs at moved
    cases moved
    exact .delivers reply.given rfl ((perm_erase listed).flatMap_right Reply.given).symm rfl
  | forget ino n =>
    simp only [step] at moved
    split_ifs at moved with owed
    cases moved
    exact .returns ino n owed rfl rfl rfl
  | change action =>
    simp only [step] at moved
    split_ifs at moved with quiet
    obtain ⟨table, changed, rfl⟩ := map_eq_some_iff.mp moved
    exact .changes action quiet (Nodes.step_steps shape.linked changed) (.refl _) rfl

/-- The table counts what the kernel holds and what is on its way to it, and knows each of these
numbers by the file that was given it. -/
structure Agrees (s : Mount) : Prop where
  shape : s.table.WellFormed
  counts : ∀ id, id ≠ root →
    s.table.lookups id + s.kernel.returned id = s.kernel.handed id + s.outgoing id
  owed : ∀ id, s.kernel.returned id ≤ s.kernel.handed id
  known : ∀ id, s.kernel.returned id < s.kernel.handed id → s.kernel.files id ≠ []
  files : ∀ id, id ≠ root → ∀ key ∈ s.kernel.files id, s.table.keyOf id = some key
  given : ∀ e ∈ s.given, e.1 ≠ root → s.table.keyOf e.1 = some e.2

theorem outgoing_perm {extra : List (ℕ × KeyNode)} (h : s'.given.Perm (extra ++ s.given)) (id : ℕ) :
    s'.outgoing id = (extra.countP fun e => e.1 = id) + s.outgoing id := by
  rw [outgoing, h.countP_eq, countP_append, outgoing]

namespace Agrees

theorem new : Agrees machine.initial where
  shape := .new
  counts := fun id other => by
    simp [machine, Nodes.lookups, Nodes.get_new other, Kernel.new, outgoing, Mount.given]
  owed := fun _ => le_rfl
  known := fun _ held => absurd held (lt_irrefl _)
  files := fun id _ key mem => by simp [machine, Kernel.new] at mem
  given := fun e mem => by simp [machine, Mount.given] at mem

theorem sends (h : Agrees s) (extra : List (ℕ × KeyNode)) (shape : s'.table.WellFormed)
    (kernel : s'.kernel = s.kernel) (given : s'.given.Perm (extra ++ s.given))
    (counts : ∀ id, id ≠ root →
      s'.table.lookups id = s.table.lookups id + extra.countP fun e => e.1 = id)
    (keys : ∀ id, id ≠ root → s.table.keyOf id = none ∨ s'.table.keyOf id = s.table.keyOf id)
    (named : ∀ e ∈ extra, e.1 ≠ root → s'.table.keyOf e.1 = some e.2) : Agrees s' := by
  have kept : ∀ id key, id ≠ root → s.table.keyOf id = some key → s'.table.keyOf id = some key := by
    intro id key other known
    rcases keys id other with unknown | same
    · rw [unknown] at known
      cases known
    · exact same.trans known
  refine ⟨shape, fun id other => ?_, fun id => kernel ▸ h.owed id, fun id => kernel ▸ h.known id,
    fun id other key mem => ?_, fun e mem other => ?_⟩
  · have before := h.counts id other
    rw [kernel, outgoing_perm given, counts id other]
    omega
  · rw [kernel] at mem
    exact kept id key other (h.files id other key mem)
  · rcases mem_append.mp (given.subset mem) with added | old
    · exact named e added other
    · exact kept e.1 e.2 other (h.given e old other)

theorem gives (h : Agrees s) {parent : ℕ} {name : Name} {seen : Seen} {id : ℕ}
    (done : Nodes.Registers s.table parent name seen id s'.table)
    (given : s'.given.Perm ((id, seen.key) :: s.given)) (kernel : s'.kernel = s.kernel) :
    Agrees s' := by
  have shape := h.shape.register done
  obtain ⟨node, found, _, _, count, key⟩ := done.node
  have keyed : s'.table.keyOf id = some seen.key :=
    ((shape.keyed _ _).mp (by rw [done.byKey, AList.lookup_insert])).2
  refine h.sends [(id, seen.key)] shape kernel given (fun j other => ?_)
    (fun j other => ?_) fun e mem other => ?_
  · by_cases here : j = id
    · subst here
      simp [Nodes.lookups, found, count]
    · simp [lookups_of_core (done.kept j here), Ne.symm here]
  · by_cases here : j = id
    · subst here
      cases before : s.table.get j with
      | none => exact .inl (by simp [Nodes.keyOf, before])
      | some => exact .inr (by simp [Nodes.keyOf, found, key, before])
    · exact .inr (keyOf_of_core (done.kept j here))
  · cases mem_singleton.mp mem
    exact keyed

theorem delivers (h : Agrees s) {told : List (ℕ × KeyNode)} (table : s'.table = s.table)
    (given : s.given.Perm (told ++ s'.given)) (kernel : s'.kernel = s.kernel.receive told) :
    Agrees s' := by
  refine ⟨table ▸ h.shape, fun id other => ?_, fun id => ?_, fun id held none => ?_,
    fun id other key mem => ?_, fun e mem other => ?_⟩
  · have before := h.counts id other
    rw [outgoing_perm given] at before
    rw [table, kernel]
    simp only [Kernel.receive]
    omega
  · rw [kernel]
    exact (h.owed id).trans (Nat.le_add_right _ _)
  · rw [kernel] at held none
    obtain ⟨untold, before⟩ := append_eq_nil_iff.mp none
    have fewer : ¬s.kernel.returned id < s.kernel.handed id := fun still => h.known id still before
    have zero : (told.countP fun e => e.1 = id) = 0 := by
      rw [countP_eq_length_filter, map_eq_nil_iff.mp untold, length_nil]
    simp only [Kernel.receive, zero] at held
    omega
  · rw [kernel] at mem
    rw [table]
    rcases mem_append.mp mem with mem | mem
    · obtain ⟨e, listed, rfl⟩ := mem_map.mp mem
      obtain ⟨told, same⟩ := mem_filter.mp listed
      have same : e.1 = id := of_decide_eq_true same
      subst same
      exact h.given e (given.symm.subset (mem_append_left _ told)) other
    · exact h.files id other key mem
  · rw [table]
    exact h.given e (given.symm.subset (mem_append_right _ mem)) other

theorem returns (h : Agrees s) {ino n : ℕ} (owed : n ≤ s.kernel.handed ino - s.kernel.returned ino)
    (table : s'.table = (s.table.forget ino n).1) (given : s'.given = s.given)
    (kernel : s'.kernel = s.kernel.giveBack ino n) : Agrees s' := by
  have shape : s'.table.WellFormed := by
    rw [table]
    exact h.shape.step (Nodes.step_steps h.shape.linked (rfl : NodeTable.step s.table (.forget ino n) = _))
  have returned : ∀ id, s'.kernel.returned id =
      if id = ino then s.kernel.returned id + n else s.kernel.returned id := fun id => by rw [kernel]; rfl
  have handed : ∀ id, s'.kernel.handed id = s.kernel.handed id := fun id => by rw [kernel]; rfl
  have bound := h.owed ino
  -- What becomes of every other number, and of this one: the node goes with the last lookup.
  have others : ∀ id, id ≠ root → id ≠ ino →
      s'.table.lookups id = s.table.lookups id ∧ s'.table.keyOf id = s.table.keyOf id := by
    intro id other ne
    rw [table]
    rcases @Nodes.forget_cases s.table ino n with
      ⟨_, same⟩ | ⟨node, _, found, (⟨_, same⟩ | ⟨_, done⟩)⟩
    · rw [same]
      exact ⟨rfl, rfl⟩
    · rw [same]
      simp only [Nodes.lookups, Nodes.keyOf, Nodes.uncount, Nodes.get_modify, if_neg ne, and_self]
    · exact ⟨lookups_of_core (done.kept id ne), keyOf_of_core (done.kept id ne)⟩
  have own : ino ≠ root → s'.table.lookups ino = s.table.lookups ino - n ∧
      (s'.table.keyOf ino = s.table.keyOf ino ∨ s.table.lookups ino ≤ n) := by
    intro other
    rw [table]
    rcases @Nodes.forget_cases s.table ino n with
      ⟨(isRoot | absent), same⟩ | ⟨node, _, found, (⟨left, same⟩ | ⟨spent, done⟩)⟩
    · exact absurd isRoot other
    · rw [same]
      simp [Nodes.lookups, absent]
    · rw [same]
      simp [Nodes.lookups, Nodes.keyOf, Nodes.uncount, Nodes.get_modify, found]
    · have gone : s.table.lookups ino = node.lookupCount := by simp [Nodes.lookups, found]
      refine ⟨?_, .inr (gone ▸ spent)⟩
      rw [gone, Nat.sub_eq_zero_of_le spent]
      simp [Nodes.lookups, done.gone]
  refine ⟨shape, fun id other => ?_, fun id => ?_, fun id held none => ?_, fun id other key mem => ?_,
    fun e mem other => ?_⟩
  · have before := h.counts id other
    rw [outgoing, given, ← outgoing, returned, handed]
    by_cases here : id = ino
    · subst here
      rw [if_pos rfl, (own other).1]
      omega
    · rw [if_neg here, (others id other here).1]
      exact before
  · rw [returned, handed]
    have := h.owed id
    split_ifs with here
    · subst here
      omega
    · exact this
  · rw [returned, handed] at held
    rw [kernel] at none
    simp only [Kernel.giveBack] at none
    split_ifs at none held with spent here
    · omega
    · exact absurd spent.1 here
    · exact h.known id (by omega) none
    · exact h.known id held none
  · rw [kernel] at mem
    simp only [Kernel.giveBack] at mem
    split_ifs at mem with spent
    · cases mem
    · have known := h.files id other key mem
      by_cases here : id = ino
      · subst here
        rcases (own other).2 with same | last
        · exact same.trans known
        · have before := h.counts id other
          exact absurd ⟨rfl, by omega⟩ spent
      · exact (others id other here).2.trans known
  · rw [given] at mem
    have known := h.given e mem other
    by_cases here : e.1 = ino
    · rw [here] at other known ⊢
      rcases (own other).2 with same | last
      · exact same.trans known
      · -- A lookup on its way is counted, and so is left after what the kernel gives back.
        have before := h.counts ino other
        have counted : 0 < s.outgoing ino := countP_pos_iff.mpr ⟨e, mem, decide_eq_true here⟩
        omega
    · exact (others e.1 other here).2.trans known

theorem step (h : Agrees s) {event : Event} (moved : s.step event = some s') : Agrees s' := by
  cases step_effect h.shape moved with
  | changes _ quiet changed given kernel =>
    have same := sameCounts_of_uncounted quiet changed
    exact h.sends [] (h.shape.step changed) kernel given
      (fun id other => by simp [lookups_of_core (same id other)])
      (fun id other => .inr (keyOf_of_core (same id other))) fun e mem => by cases mem
  | gives _ _ _ _ done given kernel => exact h.gives done given kernel
  | claimsRoot key table given kernel =>
    refine h.sends [(root, key)] (table ▸ h.shape) kernel given
      (fun id other => ?_) (fun id _ => .inr (by rw [table])) fun e mem other => ?_
    · simp [table, Ne.symm other]
    · cases mem_singleton.mp mem
      exact absurd rfl other
  | delivers _ table given kernel => exact h.delivers table given kernel
  | returns _ _ owed table given kernel => exact h.returns owed table given kernel

end Agrees

/-- The root's number is given to no file but one that claims to be the root. -/
theorem idFor_eq_root {t : Nodes} (shape : t.WellFormed) {seen : Seen} (h : t.idFor seen = some root) :
    seen.ino = root ∧ ∀ key, t.keyOf root = some key → key.identity = seen.identity := by
  unfold Nodes.idFor at h
  split_ifs at h with isRoot own
  · exact ⟨isRoot.1, fun key known => by
      have all := isRoot.2
      rw [show (t.get root).bind Node.key = some key from known] at all
      simpa using all⟩
  all_goals split at h
  · rename_i known
    exact absurd (Option.some.inj h) ((shape.keyed _ _).mp known).1
  · have := Option.some.inj h
    omega
  · rename_i known
    exact absurd (Option.some.inj h) ((shape.keyed _ _).mp known).1
  · have isRoot := shape.root
    rw [Nodes.get_freeFrom h] at isRoot
    cases isRoot

/-- In every run the table counts the lookups of a number that the kernel was handed and has not
given back, those of replies on their way included; a number the kernel holds is in the table, and
goes to no other file. -/
theorem table_counts_with_kernel (h : machine.Reachable s) :
    (s.table.get root).isSome = true ∧
    (∀ seen, s.table.idFor seen = some root →
      seen.ino = root ∧ ∀ key, s.table.keyOf root = some key → key.identity = seen.identity) ∧
    ∀ id, id ≠ root →
      s.table.lookups id + s.kernel.returned id = s.kernel.handed id + s.outgoing id ∧
      (s.replies = [] → s.table.lookups id = s.kernel.handed id - s.kernel.returned id) ∧
      (s.kernel.returned id < s.kernel.handed id → ∃ node key, s.table.get id = some node ∧
        node.key = some key ∧ s.kernel.files id ≠ [] ∧ (∀ file ∈ s.kernel.files id, file = key) ∧
        ∀ seen, s.table.idFor seen = some id → seen.key = key) := by
  have agrees : Agrees s := Machine.Reachable.invariant .new (fun _ _ _ agrees => agrees.step) h
  refine ⟨agrees.shape.root, fun _ => idFor_eq_root agrees.shape,
    fun id other => ⟨agrees.counts id other, fun none => ?_, fun held => ?_⟩⟩
  · have counts := agrees.counts id other
    have outgoing : s.outgoing id = 0 := by simp [outgoing, given, none]
    omega
  · have counts := agrees.counts id other
    obtain ⟨node, found⟩ : ∃ node, s.table.get id = some node := by
      cases found : s.table.get id with
      | none =>
        simp only [Nodes.lookups, found] at counts
        simp only [Option.map_none, Option.getD_none] at counts
        omega
      | some node => exact ⟨node, rfl⟩
    obtain ⟨key, own⟩ := Option.isSome_iff_exists.mp (agrees.shape.owned id node other found)
    refine ⟨node, key, found, own, agrees.known id held, fun file mem => ?_, fun seen number => ?_⟩
    · have keyed := agrees.files id other file mem
      rw [Nodes.keyOf, found, Option.bind_some, own] at keyed
      exact (Option.some.inj keyed).symm
    · rcases Nodes.idFor_cases number with isRoot | known | ⟨_, absent⟩
      · exact absurd isRoot other
      · have keyed := ((agrees.shape.keyed _ _).mp known).2
        rw [found, Option.bind_some, own] at keyed
        exact (Option.some.inj keyed).symm
      · rw [absent] at found
        cases found

/-- A listing whose buffer takes three of its four entries, one of them the directory itself, beside
a lookup of the file it lists; one of the file's two lookups is given back. -/
theorem listing_counts_with_kernel :
    ∃ s, machine.Reachable s ∧ s.kernel.handed 11 = 2 ∧ s.kernel.returned 11 = 1 ∧
      s.kernel.handed 10 = 0 ∧ s.kernel.handed 13 = 0 ∧ s.replies = [] ∧
      ∀ id, id ≠ root → s.table.lookups id = s.kernel.handed id - s.kernel.returned id := by
  let a : Name := ⟨[97], by decide⟩
  let file : ℕ → Seen := fun ino => ⟨ino, ⟨1, [UInt8.ofNat ino]⟩, false, .regular⟩
  obtain ⟨s, _, reached, listed⟩ := machine.exists_of_run
    (p := fun s : Mount => decide (s.kernel.handed 11 = 2 ∧ s.kernel.returned 11 = 1 ∧
      s.kernel.handed 10 = 0 ∧ s.kernel.handed 13 = 0 ∧ s.replies = []))
    (by decide +kernel : (machine.run [.replyEntry 1 a (file 11),
      .readdirplus 1 3 [⟨[46], none⟩, ⟨[97], some (file 11)⟩, ⟨[98], some (file 12)⟩,
        ⟨[99], some (file 13)⟩],
      .listEntry 1, .listEntry 1, .deliver 0, .listEntry 0, .listEntry 0, .deliver 0,
      .forget 11 1]).any _ = true)
  obtain ⟨handed, returned, none, refused, delivered⟩ := of_decide_eq_true listed
  exact ⟨s, reached, handed, returned, none, refused, delivered, fun id other =>
    ((table_counts_with_kernel reached).2.2 id other).2.1 delivered⟩

end Mount

end JackalopeFs.NodeTable
