import Mathlib.Algebra.BigOperators.Group.Finset.Basic
import Mathlib.Algebra.Order.BigOperators.Group.List
import Mathlib.Data.Finset.Card
import Mathlib.Data.List.AList
import Mathlib.Data.List.Sort
import Mathlib.Tactic.Ring

/-! # Lists used as growing arrays of cells

A cell is named by its position.  It is written in place and new cells are
added at the end, so a position once given keeps naming the same cell.  The
facts below say what a write or an addition does to a lookup and to a count.
-/

namespace JackalopeFs.IndexedCells

open List

universe u

variable {Cell : Type u} {cells : List Cell} {old new found : Cell} {i j : ℕ}

theorem lt_of_lookup (h : cells[i]? = some found) : i < cells.length :=
  (List.getElem?_eq_some_iff.mp h).1

theorem lookup_write (h : cells[i]? = some old) : (cells.set i new)[i]? = some new := by
  simp [lt_of_lookup h]

theorem lookup_write_of_ne (h : j ≠ i) : (cells.set i new)[j]? = cells[j]? := by
  simp [h.symm]

theorem of_lookup_write (h : (cells.set i new)[j]? = some found) :
    (j = i ∧ found = new) ∨ (j ≠ i ∧ cells[j]? = some found) := by
  by_cases hij : j = i
  · subst hij
    rw [getElem?_set, if_pos rfl] at h
    split_ifs at h
    exact .inl ⟨rfl, (Option.some.inj h).symm⟩
  · rw [lookup_write_of_ne hij] at h
    exact .inr ⟨hij, h⟩

theorem lookup_add (h : cells[i]? = some found) : (cells ++ [new])[i]? = some found := by
  rw [getElem?_append_left (lt_of_lookup h), h]

theorem of_lookup_add (h : (cells ++ [new])[i]? = some found) :
    cells[i]? = some found ∨ (i = cells.length ∧ found = new) := by
  by_cases hlt : i < cells.length
  · rw [getElem?_append_left hlt] at h
    exact .inl h
  · rw [getElem?_append_right (by omega)] at h
    have hi : i - cells.length = 0 := by
      by_contra hne
      rw [getElem?_eq_none (by simp; omega)] at h
      exact absurd h (by simp)
    rw [hi] at h
    exact .inr ⟨by omega, (Option.some.inj h).symm⟩

/-- A write changes a count by what the two cells contribute; stated without subtraction. -/
theorem countP_write (p : Cell → Bool) (new : Cell) (h : cells[i]? = some old) :
    (cells.set i new).countP p + (if p old then 1 else 0) =
      cells.countP p + (if p new then 1 else 0) := by
  obtain ⟨hlt, hold⟩ := List.getElem?_eq_some_iff.mp h
  rw [countP_set hlt, hold]
  by_cases hp : p old
  · have hpos : 0 < cells.countP p :=
      countP_pos_iff.mpr ⟨old, mem_of_getElem? h, hp⟩
    simp only [hp, if_true]
    omega
  · simp [hp]

theorem sum_lookups (p : Cell → Bool) :
    (∑ i ∈ Finset.range cells.length, if cells[i]?.any p then 1 else 0) = cells.countP p := by
  induction cells with
  | nil => rfl
  | cons _ _ ih =>
    rw [length_cons, Finset.sum_range_succ', countP_cons]
    simpa using ih

theorem countP_eq_add {p q r : Cell → Bool} (split : ∀ c ∈ cells, p c = (q c || r c))
    (apart : ∀ c ∈ cells, q c → ¬ r c) : cells.countP p = cells.countP q + cells.countP r := by
  induction cells with
  | nil => rfl
  | cons c _ ih =>
    have tail := ih (fun d hd => split d (mem_cons_of_mem c hd))
      (fun d hd => apart d (mem_cons_of_mem c hd))
    have here := split c mem_cons_self
    rw [countP_cons, countP_cons, countP_cons, tail, here]
    cases hq : q c <;> cases hr : r c <;> simp_all <;> omega

/-- A write changes a sum over the cells by the difference of the two cells' shares. -/
theorem sum_map_write (f : Cell → ℕ) (new : Cell) (h : cells[i]? = some old) :
    ((cells.set i new).map f).sum + f old = (cells.map f).sum + f new := by
  induction cells generalizing i with
  | nil => simp at h
  | cons c _ ih =>
    cases i with
    | zero =>
      obtain rfl : c = old := by simpa using h
      simp only [set_cons_zero, map_cons, sum_cons]
      omega
    | succ =>
      have tail := ih (by simpa using h)
      simp only [set_cons_succ, map_cons, sum_cons]
      omega

theorem perm_erase (h : cells[i]? = some old) : (old :: cells.eraseIdx i).Perm cells := by
  obtain ⟨hlt, rfl⟩ := List.getElem?_eq_some_iff.mp h
  exact getElem_cons_eraseIdx_perm hlt

theorem perm_write (new : Cell) (h : cells[i]? = some old) :
    (cells.set i new).Perm (new :: cells.eraseIdx i) := by
  have written : (new :: (cells.set i new).eraseIdx i).Perm _ := perm_erase (lookup_write h)
  rw [eraseIdx_set_eq] at written
  exact written.symm

section Related

universe v

variable {Other : Type v} {R : Cell → Other → Prop} {others : List Other} {other : Other}

/-- Two lists of cells related position by position: a cell has its partner. -/
theorem exists_related (h : List.Forall₂ R cells others) (found : cells[i]? = some old) :
    ∃ other, others[i]? = some other ∧ R old other := by
  induction h generalizing i with
  | nil => simp at found
  | cons related _ ih =>
    cases i with
    | zero =>
      cases found
      exact ⟨_, rfl, related⟩
    | succ => exact ih found

theorem related_of_lookups (h : List.Forall₂ R cells others) (found : cells[i]? = some old)
    (foundOther : others[i]? = some other) : R old other := by
  obtain ⟨partner, lookup, related⟩ := exists_related h found
  cases foundOther.symm.trans lookup
  exact related

theorem related_write (h : List.Forall₂ R cells others) (related : R new other) :
    List.Forall₂ R (cells.set i new) (others.set i other) := by
  induction h generalizing i with
  | nil => exact .nil
  | cons head rest ih =>
    cases i with
    | zero => exact .cons related rest
    | succ => exact .cons head ih

end Related

end JackalopeFs.IndexedCells
