import JackalopeFs.PathNames

/-! # One window of change notices

Changes accumulate for a debounce window, deduplicated and in arrival order, each with
the session that caused it; the batch made of a window tells every session what others
did.  An item that arrives again is dropped with its origin, so what the batch knows of
an item is who caused its first occurrence: a session that did so is not told of it even
if someone else did the same within the window.
-/

namespace JackalopeFs.EventWindow

open List PathNames

/-- Distinct items one batch may hold before it collapses to an overflow. -/
def maxPending : ℕ := 10000

inductive EventItem where
  | entry (dir : Path) (name : Name)
  | data (path : Path)
  | overflow
  | unwatched (dir : Path)
  deriving DecidableEq, Repr

/-- The session holds `held` handles, past its share. -/
structure NoticeHandles where
  held : ℕ
  share : ℕ
  deriving DecidableEq, Repr

structure Event where
  items : List EventItem
  handles : Option NoticeHandles
  deriving DecidableEq, Repr

/-- One debounce window of events, each with the session that caused it. -/
structure EventBatch where
  items : List (EventItem × Option ℕ)
  deriving DecidableEq, Repr

/-- The wire event for a session, unless nothing in the batch concerns it. -/
def EventBatch.forSession (batch : EventBatch) (session : ℕ) : Option Event :=
  let items := (batch.items.filter fun e => e.2 ≠ some session).map Prod.fst
  if items = [] then none else some ⟨items, none⟩

structure Pending where
  items : List (EventItem × Option ℕ)
  seen : Finset EventItem
  overflow : Bool
  deriving DecidableEq

namespace Pending

def new : Pending :=
  ⟨[], ∅, false⟩

def fold (p : Pending) (item : EventItem) (origin : Option ℕ) : Pending :=
  if p.overflow then p
  else if item = .overflow ∨ maxPending ≤ p.items.length then ⟨[], ∅, true⟩
  else if item ∈ p.seen then p
  else { p with items := p.items ++ [(item, origin)], seen := insert item p.seen }

def flush (p : Pending) : Option EventBatch × Pending :=
  if p.overflow then (some ⟨[(.overflow, none)]⟩, ⟨[], ∅, false⟩)
  else if p.items = [] then (none, p)
  else (some ⟨p.items⟩, ⟨[], ∅, false⟩)

def foldAll (p : Pending) (window : List (EventItem × Option ℕ)) : Pending :=
  window.foldl (fun p e => p.fold e.1 e.2) p

def afterWindows (windows : List (List (EventItem × Option ℕ))) : Pending :=
  windows.foldl (fun p window => (p.foldAll window).flush.2) .new

end Pending

section Window

variable {w : List (EventItem × Option ℕ)} {p : Pending} {e : EventItem × Option ℕ}

/-- An overflow was folded, or the limit was reached when something was. -/
def Overflowed (w : List (EventItem × Option ℕ)) : Prop :=
  .overflow ∈ w.map Prod.fst ∨ maxPending ≤ (w.dropLast.map Prod.fst).toFinset.card

instance : Decidable (Overflowed w) := by
  unfold Overflowed
  infer_instance

theorem nodup_of_ordered {l : List EventItem} {rank : EventItem → ℕ}
    (h : l.Pairwise fun a b => rank a < rank b) : l.Nodup :=
  h.imp fun {a b} before same => by
    rw [same] at before
    exact lt_irrefl _ before

/-- The items of a window by their first occurrences. -/
structure Kept (w : List (EventItem × Option ℕ)) (p : Pending) : Prop where
  seen : ∀ item, item ∈ p.seen ↔ item ∈ p.items.map Prod.fst
  first : ∀ e ∈ p.items, w.find? (fun x => x.1 = e.1) = some e
  all : ∀ e ∈ w, e.1 ∈ p.items.map Prod.fst
  ordered : p.items.Pairwise fun a b =>
    (w.map Prod.fst).idxOf a.1 < (w.map Prod.fst).idxOf b.1

namespace Kept

theorem new : Kept [] .new :=
  ⟨by simp [Pending.new], by simp [Pending.new], by simp, List.Pairwise.nil⟩

theorem arrived (h : Kept w p) (mem : e ∈ p.items) : e.1 ∈ w.map Prod.fst :=
  mem_map_of_mem (mem_of_find?_eq_some (h.first e mem))

theorem ordered_append (h : Kept w p) : p.items.Pairwise fun a b =>
    ((w ++ [e]).map Prod.fst).idxOf a.1 < ((w ++ [e]).map Prod.fst).idxOf b.1 := by
  refine h.ordered.imp_of_mem fun {a b} memA memB before => ?_
  rw [map_append, idxOf_append_of_mem (h.arrived memA),
    idxOf_append_of_mem (h.arrived memB)]
  exact before

theorem again (h : Kept w p) (known : e.1 ∈ p.seen) : Kept (w ++ [e]) p := by
  refine ⟨h.seen, fun x mem => ?_, fun x mem => ?_, h.ordered_append⟩
  · rw [find?_append, h.first x mem]
    rfl
  · rcases mem_append.mp mem with mem | mem
    · exact h.all x mem
    · cases mem_singleton.mp mem
      exact (h.seen _).mp known

theorem add (h : Kept w p) (fresh : e.1 ∉ p.seen) :
    Kept (w ++ [e]) { p with items := p.items ++ [e], seen := insert e.1 p.seen } := by
  have absent : e.1 ∉ w.map Prod.fst := by
    intro mem
    obtain ⟨x, listed, same⟩ := mem_map.mp mem
    exact fresh ((h.seen _).mpr (same ▸ h.all x listed))
  refine ⟨fun item => ?_, fun x mem => ?_, fun x mem => ?_, ?_⟩
  · rw [Finset.mem_insert, h.seen, map_append, mem_append, or_comm]
    simp
  · rcases mem_append.mp mem with mem | mem
    · rw [find?_append, h.first x mem]
      rfl
    · cases mem_singleton.mp mem
      have none : w.find? (fun x => x.1 = e.1) = none := by
        refine find?_eq_none.mpr fun x listed same => absent ?_
        exact of_decide_eq_true same ▸ mem_map_of_mem listed
      rw [find?_append, none]
      simp
  · rw [map_append]
    rcases mem_append.mp mem with mem | mem
    · exact mem_append_left _ (h.all x mem)
    · cases mem_singleton.mp mem
      simp
  · refine pairwise_append.mpr ⟨h.ordered_append, pairwise_singleton _ _, ?_⟩
    intro a memA b memB
    cases mem_singleton.mp memB
    rw [map_append, idxOf_append_of_mem (h.arrived memA), idxOf_append_of_notMem absent]
    exact Nat.lt_add_right _ (idxOf_lt_length_iff.mpr (h.arrived memA))

theorem length_eq (h : Kept w p) : p.items.length = (w.map Prod.fst).toFinset.card := by
  have ordered : (p.items.map Prod.fst).Pairwise fun a b =>
      (w.map Prod.fst).idxOf a < (w.map Prod.fst).idxOf b := pairwise_map.mpr h.ordered
  have distinct := nodup_of_ordered ordered
  have same : (w.map Prod.fst).toFinset = (p.items.map Prod.fst).toFinset := by
    ext item
    rw [mem_toFinset, mem_toFinset]
    constructor
    · intro mem
      obtain ⟨x, listed, rfl⟩ := mem_map.mp mem
      exact h.all x listed
    · intro mem
      obtain ⟨x, listed, rfl⟩ := mem_map.mp mem
      exact h.arrived listed
  rw [same, toFinset_card_of_nodup distinct, length_map]

end Kept

theorem overflowed_append :
    Overflowed (w ++ [e]) ↔
      Overflowed w ∨ e.1 = .overflow ∨ maxPending ≤ (w.map Prod.fst).toFinset.card := by
  have fewer : (w.dropLast.map Prod.fst).toFinset.card ≤ (w.map Prod.fst).toFinset.card := by
    refine Finset.card_le_card fun item mem => ?_
    rw [mem_toFinset] at mem ⊢
    exact ((dropLast_sublist w).map Prod.fst).subset mem
  simp only [Overflowed, map_append, mem_append, dropLast_concat, map_cons,
    map_nil, mem_singleton, eq_comm (a := EventItem.overflow)]
  constructor
  · rintro ((listed | last) | full)
    · exact .inl (.inl listed)
    · exact .inr (.inl last)
    · exact .inr (.inr full)
  · rintro ((listed | full) | last | full)
    · exact .inl (.inl listed)
    · exact .inr (full.trans fewer)
    · exact .inl (.inr last)
    · exact .inr full

/-- What a window leaves pending: nothing but the overflow, or its items by first occurrence. -/
theorem foldAll_window (w : List (EventItem × Option ℕ)) :
    (Overflowed w ∧ Pending.new.foldAll w = ⟨[], ∅, true⟩) ∨
      (¬Overflowed w ∧ (Pending.new.foldAll w).overflow = false ∧
        Kept w (Pending.new.foldAll w)) := by
  induction w using List.reverseRecOn with
  | nil =>
    refine .inr ⟨?_, rfl, .new⟩
    simp [Overflowed, maxPending]
  | append_singleton w e ih =>
    have last : Pending.new.foldAll (w ++ [e]) = (Pending.new.foldAll w).fold e.1 e.2 := by
      simp [Pending.foldAll]
    rw [last, overflowed_append]
    rcases ih with ⟨overflowed, all⟩ | ⟨within, clear, kept⟩
    · exact .inl ⟨.inl overflowed, by rw [all]; rfl⟩
    · rw [← kept.length_eq]
      generalize Pending.new.foldAll w = p at clear kept
      by_cases limit : e.1 = .overflow ∨ maxPending ≤ p.items.length
      · exact .inl ⟨.inr limit, by simp [Pending.fold, clear, limit]⟩
      · refine .inr ⟨fun either => either.elim within limit, ?_⟩
        rw [Pending.fold, if_neg (by simp [clear]), if_neg limit]
        split_ifs with known
        · exact ⟨clear, kept.again known⟩
        · exact ⟨clear, kept.add known⟩

theorem flush_foldAll (w : List (EventItem × Option ℕ)) :
    (Pending.new.foldAll w).flush.2 = .new := by
  rcases foldAll_window w with ⟨_, all⟩ | ⟨_, clear, kept⟩
  · rw [all]
    rfl
  · generalize Pending.new.foldAll w = p at clear kept
    by_cases none : p.items = []
    · have unseen : p.seen = ∅ := by
        refine Finset.eq_empty_of_forall_notMem fun item mem => ?_
        rw [kept.seen, none] at mem
        cases mem
      obtain ⟨items, seen, overflow⟩ := p
      cases clear
      cases none
      cases unseen
      rfl
    · simp [Pending.flush, clear, none, Pending.new]

theorem afterWindows_eq (windows : List (List (EventItem × Option ℕ))) :
    Pending.afterWindows windows = .new := by
  induction windows using List.reverseRecOn with
  | nil => rfl
  | append_singleton windows w ih =>
    have last : Pending.afterWindows (windows ++ [w]) =
        ((Pending.afterWindows windows).foldAll w).flush.2 := by
      simp [Pending.afterWindows]
    rw [last, ih, flush_foldAll]

/-- What a session is told of a window that comes after others. -/
def told (earlier : List (List (EventItem × Option ℕ))) (w : List (EventItem × Option ℕ))
    (session : ℕ) : Option Event :=
  ((Pending.afterWindows earlier).foldAll w).flush.1.bind fun batch => batch.forSession session

end Window

end JackalopeFs.EventWindow
