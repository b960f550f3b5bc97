import JackalopeFs.ControlMessages
import Mathlib.Data.Fintype.Card

/-! # Counting the taps

A hub counts the taps that want summaries and those that want frames, and each registry of events counts,
for each of its events, the taps that select it, so that a check of whether anyone looks is one load.  Whoever
changes the taps or the list of registries holds the registries' lock from the first change to the last, so
each such change is one step here.  A registry may go away meanwhile.  The walk over the registries meets it
before or after that, which is the step before or after.

The counters are words of 32 bits.  A tap belongs to the control connection that asked for it, which has at
most one and outlives it, and each connection has a file descriptor of its own; so there are never more taps
than descriptors.
-/

namespace JackalopeFs.TapCounts

open ControlMessages List TransitionRuns

/-- A file descriptor, a `c_int` that is not negative. -/
abbrev Descriptor := Fin (2 ^ 31)

structure Tap where
  conn : Descriptor
  selection : Selection
  deriving DecidableEq, Repr

structure Counter where
  value : UInt32
  wrapped : Bool
  deriving DecidableEq, Repr

def Counter.new : Counter :=
  ⟨0, false⟩

def Counter.count (counter : Counter) (up : Bool) : Counter :=
  if up then ⟨counter.value + 1, counter.wrapped || counter.value == .ofNat (2 ^ 32 - 1)⟩
  else ⟨counter.value - 1, counter.wrapped || counter.value == 0⟩

/-- One side's events, in the order of their kinds, each with the number of taps that want it. -/
structure Events where
  traced : List (String × Counter)
  alive : Bool
  deriving DecidableEq, Repr

def Events.new (kinds : List String) : Events :=
  ⟨kinds.map fun name => (name, .new), true⟩

def Events.adjust (events : Events) (selection : Selection) (up : Bool) : Events :=
  { events with traced := events.traced.map fun kind =>
      if selection.events.has kind.1 then (kind.1, kind.2.count up) else kind }

def Events.enter (kinds : List String) (taps : List Tap) : Events :=
  taps.foldl (fun events tap => events.adjust tap.selection true) (.new kinds)

structure Hub where
  taps : List Tap
  registries : List Events
  requests : Counter
  frames : Counter
  deriving DecidableEq, Repr

/-- A tap that wants frames names its operations to choose frames by, not to have them summarised. -/
def Hub.count (s : Hub) (selection : Selection) (up : Bool) : Hub :=
  if selection.frames then { s with frames := s.frames.count up }
  else if !selection.ops.isNone then { s with requests := s.requests.count up }
  else s

/-- Count a tap in or out; registries that went away leave the list. -/
def Hub.adjust (s : Hub) (selection : Selection) (up : Bool) : Hub :=
  { s.count selection up with
    registries := (s.registries.filter (·.alive)).map (·.adjust selection up) }

inductive Action where
  | subscribe (conn : Descriptor) (selection : Selection)
  | unsubscribe (conn : Descriptor)
  | register (kinds : List String)
  | drop (place : ℕ)

/-- `drop` is the last owner of a registry letting it go. -/
def Hub.step (s : Hub) : Action → Option Hub
  | .subscribe conn selection =>
    if conn ∈ s.taps.map (·.conn) then none
    else some (Hub.adjust { s with taps := s.taps ++ [⟨conn, selection⟩] } selection true)
  | .unsubscribe conn => (s.taps.find? (·.conn == conn)).map fun tap =>
    Hub.adjust { s with taps := s.taps.filter (· != tap) } tap.selection false
  | .register kinds => some { s with registries := s.registries ++ [.enter kinds s.taps] }
  | .drop place => some { s with registries := s.registries.modify place fun events => { events with alive := false } }

def machine : Machine Hub Action :=
  ⟨⟨[], [], .new, .new⟩, Hub.step⟩

def wantsFrames (selection : Selection) : Bool := selection.frames

def wantsRequests (selection : Selection) : Bool := !selection.frames && !selection.ops.isNone

section Counted

variable {s t : Hub} {taps rest : List Tap} {p : Selection → Bool} {selection : Selection} {up : Bool}
  {counter : Counter}

/-- The counter is the number of taps that `p` holds of, and never wrapped. -/
def Counter.Counts (counter : Counter) (taps : List Tap) (p : Selection → Bool) : Prop :=
  counter.value.toNat = taps.countP (fun tap => p tap.selection) ∧ counter.wrapped = false

/-- The taps `now` are the taps `before` with one more, or one less, that selects so. -/
def Moved (before now : List Tap) (selection : Selection) (up : Bool) : Prop :=
  ∀ p : Selection → Bool, now.countP (fun tap => p tap.selection) + (if up then 0 else [selection].countP p) =
    before.countP (fun tap => p tap.selection) + (if up then [selection].countP p else 0)

theorem Counter.Counts.moved (h : counter.Counts taps p) (moved : Moved taps rest selection up)
    (few : rest.length < 2 ^ 32) : (if p selection then counter.count up else counter).Counts rest p := by
  obtain ⟨exact, fits⟩ := h
  have most := rest.countP_le_length (p := fun tap => p tap.selection)
  have moved := moved p
  rw [countP_singleton] at moved
  cases wanted : p selection with
  | false => exact ⟨by simpa [wanted, ← exact] using moved.symm, fits⟩
  | true =>
    simp only [wanted, if_true] at moved
    rw [if_pos rfl, Counter.count, fits, Bool.false_or, Bool.false_or]
    cases up with
    | true =>
      have next : (counter.value + 1).toNat = counter.value.toNat + 1 := by
        rw [UInt32.toNat_add, Nat.mod_eq_of_lt (by simp at moved ⊢; omega)]
        rfl
      refine ⟨by simp at moved ⊢; omega, beq_eq_false_iff_ne.mpr fun full => ?_⟩
      rw [full] at exact
      simp at exact moved
      omega
    | false =>
      have positive : 1 ≤ counter.value.toNat := by
        simp at moved
        omega
      have next := UInt32.toNat_sub_of_le counter.value 1 (UInt32.le_iff_toNat_le.mpr positive)
      refine ⟨by simp at moved next ⊢; omega, beq_eq_false_iff_ne.mpr fun empty => ?_⟩
      rw [empty] at positive
      simp at positive

def Events.Counted (events : Events) (taps : List Tap) : Prop :=
  ∀ kind ∈ events.traced, kind.2.Counts taps (·.events.has kind.1)

theorem Events.Counted.moved {events : Events} (h : events.Counted taps) (moved : Moved taps rest selection up)
    (few : rest.length < 2 ^ 32) : (events.adjust selection up).Counted rest := by
  intro kind mem
  obtain ⟨⟨name, counter⟩, old, rfl⟩ := mem_map.mp mem
  have counts := (h _ old).moved moved few
  cases wanted : selection.events.has name <;> simpa [wanted] using counts

theorem Events.Counted.enter (kinds : List String) (few : taps.length < 2 ^ 32) :
    (Events.enter kinds taps).Counted taps := by
  induction taps using List.reverseRecOn with
  | nil =>
    intro kind mem
    obtain ⟨name, _, rfl⟩ := mem_map.mp mem
    exact ⟨rfl, rfl⟩
  | append_singleton _ _ ih =>
    rw [Events.enter, foldl_append, ← Events.enter]
    rw [length_append, length_singleton] at few
    refine (ih (by omega)).moved (fun p => ?_) (by simpa using few)
    simp [countP_append, countP_singleton]

structure Hub.Counted (s : Hub) : Prop where
  conns : (s.taps.map (·.conn)).Nodup
  requests : s.requests.Counts s.taps wantsRequests
  frames : s.frames.Counts s.taps wantsFrames
  traced : ∀ events ∈ s.registries, (∀ kind ∈ events.traced, kind.2.wrapped = false) ∧
    (events.alive = true → events.Counted s.taps)

theorem count_eq (s : Hub) (selection : Selection) (up : Bool) :
    s.count selection up = { s with
      requests := if wantsRequests selection then s.requests.count up else s.requests
      frames := if wantsFrames selection then s.frames.count up else s.frames } := by
  unfold Hub.count wantsRequests wantsFrames
  cases selection.frames <;> cases selection.ops.isNone <;> rfl

theorem few_of_conns (conns : (taps.map (·.conn)).Nodup) : taps.length < 2 ^ 32 := by
  have most := conns.length_le_card
  rw [length_map, Fintype.card_fin] at most
  omega

theorem Hub.Counted.adjust (h : s.Counted) (conns : (taps.map (·.conn)).Nodup)
    (moved : Moved s.taps taps selection up) : (Hub.adjust { s with taps := taps } selection up).Counted := by
  have few := few_of_conns conns
  have traced : ∀ events ∈ (s.registries.filter (·.alive)).map (·.adjust selection up), events.Counted taps := by
    intro events mem
    obtain ⟨old, kept, rfl⟩ := mem_map.mp mem
    obtain ⟨listed, alive⟩ := mem_filter.mp kept
    exact ((h.traced old listed).2 alive).moved moved few
  rw [Hub.adjust, count_eq]
  refine ⟨conns, h.requests.moved moved few, h.frames.moved moved few, fun events mem => ?_⟩
  exact ⟨fun kind listed => (traced events mem kind listed).2, fun _ => traced events mem⟩

theorem Hub.Counted.step (h : s.Counted) {action : Action} (moves : s.step action = some t) : t.Counted := by
  cases action with
  | subscribe =>
    obtain ⟨fresh, same⟩ := Option.ite_none_left_eq_some.mp moves
    rw [← Option.some.inj same]
    apply h.adjust
    · rw [map_append, nodup_append_comm]
      exact nodup_cons.mpr ⟨fresh, h.conns⟩
    · intro p
      simp [countP_append, countP_singleton]
  | unsubscribe =>
    obtain ⟨tap, found, rfl⟩ := Option.map_eq_some_iff.mp moves
    apply h.adjust
    · exact h.conns.sublist (filter_sublist.map _)
    · intro p
      have taken := (perm_cons_erase (mem_of_find?_eq_some found)).countP_eq (fun tap => p tap.selection)
      rw [h.conns.of_map.erase_eq_filter, countP_cons] at taken
      simpa [countP_singleton] using taken.symm
  | register kinds =>
    rw [← Option.some.inj moves]
    refine ⟨h.conns, h.requests, h.frames, fun events mem => ?_⟩
    rcases mem_append.mp mem with mem | mem
    · exact h.traced events mem
    · have counted := Events.Counted.enter kinds (few_of_conns h.conns)
      rw [mem_singleton.mp mem]
      exact ⟨fun kind listed => (counted kind listed).2, fun _ => counted⟩
  | drop =>
    rw [← Option.some.inj moves]
    refine ⟨h.conns, h.requests, h.frames, fun events mem => ?_⟩
    obtain ⟨i, found⟩ := mem_iff_getElem?.mp mem
    obtain ⟨old, listed, rfl⟩ := Option.map_eq_some_iff.mp ((getElem?_modify ..).symm.trans found)
    have counted := h.traced old (mem_of_getElem? listed)
    split_ifs
    · exact ⟨counted.1, fun alive => alive.elim⟩
    · exact counted

/-- Taps are counted once, whatever the order in which taps and registries come and go: the hub's counters are
the numbers of taps that want summaries and frames, each live registry's counters are the numbers of taps that
select its events, and no counter ever wraps. -/
theorem taps_are_counted_once (reached : machine.Reachable s) :
    s.requests.Counts s.taps wantsRequests ∧ s.frames.Counts s.taps wantsFrames ∧
    ∀ events ∈ s.registries, ∀ kind ∈ events.traced, kind.2.wrapped = false ∧
      (events.alive = true → kind.2.Counts s.taps fun selection => selection.events.has kind.1) := by
  have counted : s.Counted := by
    refine reached.invariant ⟨.nil, ⟨rfl, rfl⟩, ⟨rfl, rfl⟩, ?_⟩ fun _ _ _ h moves => h.step moves
    exact fun _ mem => absurd mem List.not_mem_nil
  refine ⟨counted.requests, counted.frames, fun events mem kind listed => ?_⟩
  obtain ⟨fits, traced⟩ := counted.traced events mem
  exact ⟨fits kind listed, fun alive => traced alive kind listed⟩

end Counted

/-- One tap comes between two registries and goes, another comes after the first registry went away. -/
theorem taps_are_counted_once_in_a_run : ∃ s, machine.Reachable s ∧ s.registries.length = 1 ∧
    s.requests.Counts s.taps wantsRequests ∧ s.frames.Counts s.taps wantsFrames ∧
    ∀ events ∈ s.registries, ∀ kind ∈ events.traced, kind.2.wrapped = false ∧
      (events.alive = true → kind.2.Counts s.taps fun selection => selection.events.has kind.1) := by
  obtain ⟨s, -, reached, ends⟩ := machine.exists_of_run
    (by decide +kernel : (machine.run
      [.register ["first", "second"], .subscribe 4 ⟨.some ["first"], .all, false, 1, false⟩,
       .register ["first"], .drop 0, .subscribe 5 ⟨.all, .none, true, 1, false⟩, .unsubscribe 4]).any
      (fun s => decide (s.registries.length = 1)) = true)
  exact ⟨s, reached, of_decide_eq_true ends, taps_are_counted_once reached⟩

end JackalopeFs.TapCounts
