import Mathlib.Algebra.Order.BigOperators.Group.List
import Mathlib.Data.Finset.Max
import Mathlib.Tactic.Ring

/-! # Ranks and classes

The value of a rank in a list is the smallest one with that many values at or below it.
If the values are put into numbered classes that rise with them, the class of that value
is found from the number of values in each class alone: it is the first at which the
numbers, added up from the lowest class on, reach the rank.
-/

namespace JackalopeFs.RankedCounts

open List

universe u v

section Ranks

variable {α : Type u} [LinearOrder α] {values : List α} {rank : ℕ} {x : α}

def atOrBelow (values : List α) (x : α) : ℕ :=
  values.countP (· ≤ x)

/-- The smallest value with `rank` values at or below it. -/
structure IsRanked (values : List α) (rank : ℕ) (x : α) : Prop where
  mem : x ∈ values
  enough : rank ≤ atOrBelow values x
  least : ∀ y ∈ values, rank ≤ atOrBelow values y → x ≤ y

theorem exists_greatest (p : α → Bool) (some_ : 0 < values.countP p) :
    ∃ x ∈ values, p x = true ∧ ∀ y ∈ values, p y = true → y ≤ x := by
  obtain ⟨y, mem, holds⟩ := countP_pos_iff.mp some_
  have nonempty : (values.filter p).toFinset.Nonempty :=
    ⟨y, by simp [mem, holds]⟩
  obtain ⟨x, mem, greatest⟩ := Finset.exists_max_image _ id nonempty
  simp only [mem_toFinset, mem_filter] at mem greatest
  exact ⟨x, mem.1, mem.2, fun y here holds => greatest y ⟨here, holds⟩⟩

theorem exists_isRanked (some_ : values ≠ []) (within : rank ≤ values.length) :
    ∃ x, IsRanked values rank x := by
  have nonempty : (values.filter fun y => decide (rank ≤ atOrBelow values y)).toFinset.Nonempty := by
    obtain ⟨x, mem, -, greatest⟩ := @exists_greatest α _ values (fun _ => true)
      (by rw [countP_true]; exact length_pos_iff.mpr some_)
    refine ⟨x, ?_⟩
    have all : atOrBelow values x = values.length :=
      countP_eq_length.mpr fun y here => by simpa using greatest y here rfl
    simp [mem, all, within]
  obtain ⟨x, mem, least⟩ := Finset.exists_min_image _ id nonempty
  simp only [mem_toFinset, mem_filter, decide_eq_true_eq] at mem least
  exact ⟨x, mem.1, mem.2, fun y here enough => least y ⟨here, enough⟩⟩

variable {f : α → ℕ}

/-- The classes up to that of the value have as many values as the rank asks for. -/
theorem IsRanked.le_countP_class (h : IsRanked values rank x) (rises : Monotone f) :
    rank ≤ values.countP fun y => decide (f y < f x + 1) := by
  refine le_trans h.enough (countP_mono_left fun y _ below => ?_)
  simp only [decide_eq_true_eq] at below ⊢
  exact Nat.lt_succ_of_le (rises below)

theorem IsRanked.countP_class_lt (h : IsRanked values rank x) (rises : Monotone f)
    (positive : 0 < rank) : (values.countP fun y => decide (f y < f x)) < rank := by
  by_contra reached
  have reached := Nat.not_lt.mp reached
  obtain ⟨y, mem, lower, greatest⟩ := exists_greatest (fun y => decide (f y < f x))
    (Nat.lt_of_lt_of_le positive reached)
  -- The greatest value of those classes already has the rank.
  have enough : rank ≤ atOrBelow values y := by
    refine le_trans reached (countP_mono_left fun z here below => ?_)
    exact decide_eq_true (greatest z here below)
  have := rises (h.least y mem enough)
  simp only [decide_eq_true_eq] at lower
  omega

end Ranks

section Classes

variable {α : Type u} {β : Type v}

/-- The first entry at which the numbers, added up, reach the rank. -/
def pick (rank seen : ℕ) : List (β × ℕ) → Option β
  | [] => none
  | (entry, n) :: rest => if rank ≤ seen + n then some entry else pick rank (seen + n) rest

theorem pick_append {rank seen : ℕ} {front rest : List (β × ℕ)}
    (before : seen + (front.map Prod.snd).sum < rank) :
    pick rank seen (front ++ rest) = pick rank (seen + (front.map Prod.snd).sum) rest := by
  induction front generalizing seen with
  | nil => simp
  | cons _ _ ih =>
    rw [map_cons, sum_cons] at before
    rw [cons_append, pick, if_neg (by omega), ih (by omega), map_cons, sum_cons,
      Nat.add_assoc]

theorem sum_filter_pos (indices : List ℕ) (count : ℕ → ℕ) :
    ((indices.filter fun i => decide (0 < count i)).map count).sum = (indices.map count).sum := by
  induction indices with
  | nil => rfl
  | cons i _ ih =>
    by_cases some_ : 0 < count i
    · rw [filter_cons_of_pos (by simpa using some_)]
      simp [ih]
    · rw [filter_cons_of_neg (by simpa using some_)]
      have : count i = 0 := by omega
      simp [ih, this]

theorem sum_range_single (k b : ℕ) :
    ((List.range b).map fun i => if k = i then 1 else 0).sum = if k < b then 1 else 0 := by
  induction b with
  | zero => rfl
  | succ _ ih =>
    rw [range_succ, map_append, sum_append, ih]
    simp only [map_cons, map_nil, sum_cons, sum_nil]
    split_ifs <;> omega

theorem sum_countP_range (values : List α) (f : α → ℕ) (b : ℕ) :
    ((List.range b).map fun i => values.countP fun x => decide (f x = i)).sum =
      values.countP fun x => decide (f x < b) := by
  induction values with
  | nil => simp
  | cons _ _ ih =>
    simp only [countP_cons, decide_eq_true_eq, sum_map_add, ih, sum_range_single]

/-- The classes of `indices` that have values, each under its label with how many. -/
def tally (values : List α) (f : α → ℕ) (label : ℕ → β) (indices : List ℕ) : List (β × ℕ) :=
  (indices.filter fun i => decide (0 < values.countP fun x => decide (f x = i))).map
    fun i => (label i, values.countP fun x => decide (f x = i))

theorem tally_append (values : List α) (f : α → ℕ) (label : ℕ → β) (front back : List ℕ) :
    tally values f label (front ++ back) = tally values f label front ++ tally values f label back := by
  simp only [tally, filter_append, map_append]

theorem sum_tally_range (values : List α) (f : α → ℕ) (label : ℕ → β) (b : ℕ) :
    ((tally values f label (List.range b)).map Prod.snd).sum =
      values.countP fun x => decide (f x < b) := by
  rw [tally, map_map]
  exact (sum_filter_pos _ _).trans (sum_countP_range values f b)

/-- The class of the value of a rank is the one at which the numbers of the classes reach it. -/
theorem pick_tally [LinearOrder α] {values : List α} {rank : ℕ} {x : α} {f : α → ℕ}
    (h : IsRanked values rank x) (rises : Monotone f) (positive : 0 < rank) {n : ℕ} (inside : f x < n)
    (label : ℕ → β) : pick rank 0 (tally values f label (List.range n)) = some (label (f x)) := by
  obtain ⟨more, rfl⟩ : ∃ more, n = f x + 1 + more := ⟨n - (f x + 1), by omega⟩
  have below := h.countP_class_lt rises positive
  have upTo := h.le_countP_class rises
  have here : 0 < values.countP fun y => decide (f y = f x) :=
    countP_pos_iff.mpr ⟨x, h.mem, by simp⟩
  have own : tally values f label [f x] =
      [(label (f x), values.countP fun y => decide (f y = f x))] := by
    rw [tally, filter_cons_of_pos (by simpa using here)]
    rfl
  rw [← sum_countP_range, range_succ, map_append, sum_append, sum_countP_range] at upTo
  rw [range_add, range_succ, tally_append, tally_append, append_assoc, pick_append]
  · rw [sum_tally_range, own, singleton_append, pick, if_pos (by simpa using upTo)]
  · rw [sum_tally_range, Nat.zero_add]
    exact below

end Classes

end JackalopeFs.RankedCounts
