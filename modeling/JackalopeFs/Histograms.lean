import JackalopeFs.RankedCounts
import Mathlib.Data.Rat.Floor
import Mathlib.Order.Fin.Basic

/-! # Histograms and their quantiles

A histogram counts values in buckets, one for each of 0 to 4 and then four for each power of
two.  It is read as the list of its buckets that have counts, each as its upper bound, and
a quantile over an interval is taken from two such readings alone.

A value is a 64-bit word.  Counts are numbers here; no process lives to overflow one.  The
product of a quantile and the number of values is exact.
-/

namespace JackalopeFs.Histograms

open RankedCounts

abbrev Word := Fin (2 ^ 64)

/-- One bucket for each of 0 to 4, then four for each power of two up to 2^64. -/
def bucketCount : ℕ := 5 + 4 * 62

def bucket (v : Word) : ℕ :=
  if v.val ≤ 4 then v.val
  else
    -- Taken on v - 1, so a bucket's upper bound belongs to it.
    let x := v.val - 1
    let e := Nat.log2 x
    let quarter := (x >>> (e - 2)) &&& 3
    5 + 4 * (e - 2) + quarter

def upper (i : ℕ) : ℕ :=
  if i ≤ 4 then i
  else
    let e := (i - 5) / 4 + 2
    let quarter := (i - 5) % 4
    let hi := (1 <<< e) + (quarter + 1) * (1 <<< (e - 2))
    if hi < 2 ^ 64 then hi else 2 ^ 64 - 1

section Buckets

theorem two_pow_eq {e : ℕ} (exponent : 2 ≤ e) : 2 ^ e = 4 * 2 ^ (e - 2) := by
  rw [show e = 2 + (e - 2) by omega, pow_add]
  simp

/-- The upper bound of a bucket by its exponent and its place among the four. -/
theorem upper_eq {e d : ℕ} (exponent : 2 ≤ e) (place : d < 4) :
    upper (5 + 4 * (e - 2) + d) = min ((4 + d + 1) * 2 ^ (e - 2)) (2 ^ 64 - 1) := by
  have first : (5 + 4 * (e - 2) + d - 5) / 4 + 2 = e := by omega
  have second : (5 + 4 * (e - 2) + d - 5) % 4 = d := by omega
  have hi : 2 ^ e + (d + 1) * 2 ^ (e - 2) = (4 + d + 1) * 2 ^ (e - 2) := by
    rw [two_pow_eq exponent]
    ring
  unfold upper
  rw [if_neg (by omega)]
  simp only [first, second, Nat.one_shiftLeft, hi]
  split_ifs <;> omega

/-- Above 4 a bucket is four times the exponent of `v - 1` and the next two of its binary digits. -/
theorem bucket_spec {v : Word} (large : 4 < v.val) :
    ∃ e d, 2 ≤ e ∧ e < 64 ∧ d < 4 ∧ bucket v = 5 + 4 * (e - 2) + d ∧
      (4 + d) * 2 ^ (e - 2) ≤ v.val - 1 ∧ v.val - 1 < (4 + d + 1) * 2 ^ (e - 2) := by
  obtain ⟨x, same⟩ : ∃ x, x = v.val - 1 := ⟨_, rfl⟩
  have low := Nat.log2_self_le (n := x) (by omega)
  have high := @Nat.lt_log2_self x
  have two : 2 ≤ Nat.log2 x := by
    by_contra small
    have : 2 ^ (Nat.log2 x + 1) ≤ 2 ^ 2 := Nat.pow_le_pow_right (by decide) (by omega)
    omega
  have exponent : Nat.log2 x < 64 := (Nat.log2_lt (by omega)).mpr (by omega)
  have width := Nat.two_pow_pos (Nat.log2 x - 2)
  -- The quotient by the width of a bucket is one of 4 to 7.
  have least : 4 ≤ x / 2 ^ (Nat.log2 x - 2) := by
    rw [Nat.le_div_iff_mul_le width, ← two_pow_eq two]
    exact low
  have most : x / 2 ^ (Nat.log2 x - 2) < 8 := by
    rw [Nat.div_lt_iff_lt_mul width, show 8 * 2 ^ (Nat.log2 x - 2) = 2 * (4 * 2 ^ (Nat.log2 x - 2)) by ring,
      ← two_pow_eq two, ← Nat.pow_succ']
    exact high
  have quarter : (x >>> (Nat.log2 x - 2)) &&& 3 = x / 2 ^ (Nat.log2 x - 2) - 4 := by
    rw [Nat.shiftRight_eq_div_pow, show 3 = 2 ^ 2 - 1 by decide, Nat.and_two_pow_sub_one_eq_mod]
    omega
  refine ⟨Nat.log2 x, x / 2 ^ (Nat.log2 x - 2) - 4, two, exponent, by omega, ?_, ?_, ?_⟩
  · unfold bucket
    rw [if_neg (by omega)]
    simp only [← same, quarter]
  · rw [show 4 + (x / 2 ^ (Nat.log2 x - 2) - 4) = x / 2 ^ (Nat.log2 x - 2) by omega, ← same]
    exact Nat.div_mul_le_self _ _
  · rw [show 4 + (x / 2 ^ (Nat.log2 x - 2) - 4) = x / 2 ^ (Nat.log2 x - 2) by omega, ← same]
    rw [Nat.mul_comm]
    exact Nat.lt_mul_div_succ x width

theorem bucket_of_le {v : Word} (small : v.val ≤ 4) : bucket v = v.val := by
  unfold bucket
  rw [if_pos small]

theorem bucket_lt (v : Word) : bucket v < bucketCount := by
  by_cases small : v.val ≤ 4
  · rw [bucket_of_le small]
    exact lt_of_le_of_lt small (by decide)
  · obtain ⟨e, d, -, exponent, place, is, -⟩ := bucket_spec (Nat.not_le.mp small)
    rw [is, bucketCount]
    omega

/-- A bucket's bound is at or above its values, by no more than a quarter, and is the value itself for
small ones and for powers of two. -/
theorem upper_bucket (v : Word) :
    v.val ≤ upper (bucket v) ∧ 4 * upper (bucket v) ≤ 5 * v.val ∧
      (v.val ≤ 4 ∨ (∃ k, v.val = 2 ^ k) → upper (bucket v) = v.val) := by
  by_cases small : v.val ≤ 4
  · rw [bucket_of_le small, upper, if_pos small]
    exact ⟨le_rfl, by omega, fun _ => rfl⟩
  · obtain ⟨e, d, two, exponent, place, is, low, high⟩ := bucket_spec (Nat.not_le.mp small)
    rw [is, upper_eq two place]
    have within : (4 + d + 1) * 2 ^ (e - 2) = (4 + d) * 2 ^ (e - 2) + 2 ^ (e - 2) := by ring
    have quarter : 4 * 2 ^ (e - 2) ≤ (4 + d) * 2 ^ (e - 2) := Nat.mul_le_mul_right _ (by omega)
    refine ⟨by omega, by omega, ?_⟩
    rintro (few | ⟨k, power⟩)
    · omega
    -- A power of two above the lower end of the bucket is at least the next one, which ends it.
    · have above : 2 ^ e < 2 ^ k := by
        rw [two_pow_eq two]
        omega
      have next : 2 ^ (e + 1) ≤ 2 ^ k :=
        Nat.pow_le_pow_right (by decide) ((Nat.pow_lt_pow_iff_right (by decide)).mp above)
      have last : (4 + d + 1) * 2 ^ (e - 2) ≤ 8 * 2 ^ (e - 2) := Nat.mul_le_mul_right _ (by omega)
      rw [Nat.pow_succ, two_pow_eq two] at next
      omega

theorem bucket_mono : Monotone bucket := by
  intro v v' le
  have le : v.val ≤ v'.val := le
  by_cases small' : v'.val ≤ 4
  · rw [bucket_of_le small', bucket_of_le (le_trans le small')]
    exact le
  · obtain ⟨e', d', two', -, place', is', low', high'⟩ := bucket_spec (Nat.not_le.mp small')
    by_cases small : v.val ≤ 4
    · rw [bucket_of_le small, is']
      omega
    · obtain ⟨e, d, two, -, place, is, low, high⟩ := bucket_spec (Nat.not_le.mp small)
      rw [is, is']
      by_contra down
      have lower : e' < e ∨ e' = e ∧ d' < d := by omega
      obtain lower | ⟨rfl, lower⟩ := lower
      · have power : 2 ^ (e' + 1) ≤ 2 ^ e := Nat.pow_le_pow_right (by decide) lower
        rw [Nat.pow_succ, two_pow_eq two', two_pow_eq two] at power
        have first : (4 + d' + 1) * 2 ^ (e' - 2) ≤ 8 * 2 ^ (e' - 2) := Nat.mul_le_mul_right _ (by omega)
        have last : 4 * 2 ^ (e - 2) ≤ (4 + d) * 2 ^ (e - 2) := Nat.mul_le_mul_right _ (by omega)
        omega
      · have : (4 + d' + 1) * 2 ^ (e' - 2) ≤ (4 + d) * 2 ^ (e' - 2) := Nat.mul_le_mul_right _ (by omega)
        omega

theorem upper_lt_succ : ∀ i < bucketCount - 1, upper i < upper (i + 1) := by
  decide +kernel

theorem upper_lt {i j : ℕ} (lt : i < j) (inside : j < bucketCount) : upper i < upper j := by
  induction j with
  | zero => omega
  | succ j ih =>
    have step := upper_lt_succ j (by omega)
    obtain before | rfl := Nat.lt_succ_iff_lt_or_eq.mp lt
    · exact Nat.lt_trans (ih before (by omega)) step
    · exact step

theorem upper_injective {i j : ℕ} (first : i < bucketCount) (second : j < bucketCount)
    (same : upper i = upper j) : i = j := by
  obtain lt | eq | gt := Nat.lt_trichotomy i j
  · exact absurd same (upper_lt lt second).ne
  · exact eq
  · exact absurd same (upper_lt gt first).ne'

end Buckets

structure Bucket where
  upper : ℕ
  count : ℕ
  deriving DecidableEq, Repr

structure Histogram where
  counts : Vector ℕ bucketCount

namespace Histogram

def default : Histogram :=
  ⟨Vector.replicate bucketCount 0⟩

def record (h : Histogram) (v : Word) : Histogram :=
  have inside := bucket_lt v
  ⟨h.counts.set (bucket v) (h.counts[bucket v] + 1)⟩

def buckets (h : Histogram) : List Bucket :=
  (h.counts.toList.zipIdx.filter fun entry => decide (0 < entry.1)).map fun entry =>
    ⟨upper entry.2, entry.1⟩

/-- The histogram of a process that recorded these values. -/
def reading (values : List Word) : Histogram :=
  values.foldl record default

end Histogram

section Quantiles

/-- The count of a bound in a reading; of two for one bound the later counts. -/
def earlierCount (before : List Bucket) (bound : ℕ) : ℕ :=
  ((before.reverse.find? fun b => b.upper == bound).map Bucket.count).getD 0

def inOrder (a b : ℕ × ℕ) : Bool :=
  decide (a.1 < b.1 ∨ a.1 = b.1 ∧ a.2 ≤ b.2)

/-- What was added to a histogram between two readings. -/
def added (before now : List Bucket) : List (ℕ × ℕ) :=
  ((now.map fun b => (b.upper, b.count - earlierCount before b.upper)).filter
    fun entry => decide (0 < entry.2)).mergeSort inOrder

def quantile (before now : List Bucket) (q : ℚ) : Option ℕ :=
  let total := ((added before now).map Prod.snd).sum
  if total = 0 then none
  else
    -- The rank of the value wanted, from 1.
    let rank := min (max ⌈q * total⌉₊ 1) total
    pick rank 0 (added before now)

end Quantiles

section Readings

variable {values : List Word}

theorem record_getElem (h : Histogram) (v : Word) {i : ℕ} (inside : i < bucketCount) :
    (h.record v).counts[i] = h.counts[i] + if bucket v = i then 1 else 0 := by
  simp only [Histogram.record, Vector.getElem_set]
  split_ifs with same
  · subst same
    rfl
  · rfl

theorem foldl_record_getElem (h : Histogram) (values : List Word) {i : ℕ} (inside : i < bucketCount) :
    (values.foldl Histogram.record h).counts[i] =
      h.counts[i] + values.countP fun v => decide (bucket v = i) := by
  induction values generalizing h with
  | nil => rfl
  | cons _ _ ih =>
    rw [List.foldl_cons, ih, record_getElem, List.countP_cons]
    simp only [decide_eq_true_eq]
    omega

theorem counts_reading (values : List Word) :
    (Histogram.reading values).counts.toList =
      (List.range bucketCount).map fun i => values.countP fun v => decide (bucket v = i) := by
  refine List.ext_getElem (by simp) fun i first second => ?_
  have inside : i < bucketCount := by simpa using first
  have counted := foldl_record_getElem Histogram.default values inside
  simpa [Histogram.reading, Histogram.default] using counted

theorem zipIdx_map_range {α : Type} (f : ℕ → α) (n : ℕ) :
    ((List.range n).map f).zipIdx = (List.range n).map fun i => (f i, i) := by
  refine List.ext_getElem (by simp) fun i first second => ?_
  simp

theorem buckets_reading (values : List Word) :
    (Histogram.reading values).buckets =
      (tally values bucket upper (List.range bucketCount)).map fun entry => ⟨entry.1, entry.2⟩ := by
  rw [Histogram.buckets, counts_reading, zipIdx_map_range, List.filter_map, tally, List.map_map,
    List.map_map]
  rfl

theorem mem_buckets_reading {values : List Word} {b : Bucket} :
    b ∈ (Histogram.reading values).buckets ↔ ∃ i < bucketCount, b.upper = upper i ∧
      b.count = (values.countP fun v => decide (bucket v = i)) ∧ 0 < b.count := by
  simp only [buckets_reading, tally, List.map_map, List.mem_map, List.mem_filter, List.mem_range,
    decide_eq_true_eq, Function.comp_apply]
  constructor
  · rintro ⟨i, ⟨inside, some_⟩, rfl⟩
    exact ⟨i, inside, rfl, rfl, some_⟩
  · rintro ⟨i, inside, bound, count, some_⟩
    refine ⟨i, ⟨inside, count ▸ some_⟩, ?_⟩
    cases b
    cases bound
    cases count
    rfl

theorem earlierCount_reading (values : List Word) {i : ℕ} (inside : i < bucketCount) :
    earlierCount (Histogram.reading values).buckets (upper i) =
      values.countP fun v => decide (bucket v = i) := by
  unfold earlierCount
  cases found : (Histogram.reading values).buckets.reverse.find? fun b => b.upper == upper i with
  | some =>
    have mem := List.mem_reverse.mp (List.mem_of_find?_eq_some found)
    have bound := List.find?_some found
    obtain ⟨j, within, at_, count, -⟩ := mem_buckets_reading.mp mem
    have same : j = i := upper_injective within inside (at_ ▸ by simpa using bound)
    rw [same] at count
    exact count
  | none =>
    have none_ := List.find?_eq_none.mp found
    by_contra some_
    have mem : (⟨upper i, values.countP fun v => decide (bucket v = i)⟩ : Bucket) ∈
        (Histogram.reading values).buckets :=
      mem_buckets_reading.mpr ⟨i, inside, rfl, rfl, Nat.pos_of_ne_zero fun zero => some_ zero.symm⟩
    exact none_ _ (List.mem_reverse.mpr mem) (by simp)

theorem tally_inOrder (values : List Word) :
    (tally values bucket upper (List.range bucketCount)).Pairwise fun a b => inOrder a b = true := by
  rw [tally, List.pairwise_map]
  refine List.Pairwise.filter _ (List.pairwise_lt_range.imp_of_mem fun {i j} _ mem lt => ?_)
  exact decide_eq_true (.inl (upper_lt lt (List.mem_range.mp mem)))

theorem added_readings (before between : List Word) :
    added (Histogram.reading before).buckets (Histogram.reading (before ++ between)).buckets =
      tally between bucket upper (List.range bucketCount) := by
  have differences : ((Histogram.reading (before ++ between)).buckets.map fun b =>
        (b.upper, b.count - earlierCount (Histogram.reading before).buckets b.upper)) =
      ((List.range bucketCount).filter fun i =>
        decide (0 < (before ++ between).countP fun v => decide (bucket v = i))).map
          fun i => (upper i, between.countP fun v => decide (bucket v = i)) := by
    rw [buckets_reading (before ++ between), tally, List.map_map, List.map_map]
    refine List.map_congr_left fun i mem => ?_
    have inside := List.mem_range.mp (List.mem_of_mem_filter mem)
    simp only [Function.comp_apply, earlierCount_reading before inside, List.countP_append,
      Nat.add_sub_cancel_left]
  unfold added
  rw [differences, List.filter_map, List.filter_filter]
  have kept : ((List.range bucketCount).filter fun i =>
        ((fun entry : ℕ × ℕ => decide (0 < entry.2)) ∘
          fun i => (upper i, between.countP fun v => decide (bucket v = i))) i &&
        decide (0 < (before ++ between).countP fun v => decide (bucket v = i))) =
      (List.range bucketCount).filter fun i =>
        decide (0 < between.countP fun v => decide (bucket v = i)) := by
    refine List.filter_congr fun i _ => ?_
    simp only [Function.comp_apply, List.countP_append]
    rw [← Bool.decide_and]
    exact decide_eq_decide.mpr ⟨fun both => both.1, fun some_ => ⟨some_, by omega⟩⟩
  rw [kept]
  exact List.mergeSort_of_pairwise (tally_inOrder between)

theorem total_added (values : List Word) :
    ((tally values bucket upper (List.range bucketCount)).map Prod.snd).sum = values.length := by
  rw [sum_tally_range]
  exact List.countP_eq_length.mpr fun v _ => decide_eq_true (bucket_lt v)

end Readings

/-- The smallest of these values with at least the part `q` of them at or below it. -/
structure IsQuantile (values : List Word) (q : ℚ) (v : Word) : Prop where
  mem : v ∈ values
  enough : q * values.length ≤ values.countP fun w => decide (w ≤ v)
  least : ∀ w ∈ values, q * values.length ≤ (values.countP fun u => decide (u ≤ w)) → v ≤ w

section Ranks

variable {values : List Word} {q : ℚ}

/-- At a value that was recorded, as many are at or below as the rank asks for exactly if they are the
part that the quantile asks for. -/
theorem rank_le_iff (le_one : q ≤ 1) {w : Word} (mem : w ∈ values) :
    min (max ⌈q * values.length⌉₊ 1) values.length ≤ atOrBelow values w ↔
      q * values.length ≤ values.countP fun u => decide (u ≤ w) := by
  have own : 0 < atOrBelow values w := List.countP_pos_iff.mpr ⟨w, mem, by simp⟩
  have part : ⌈q * values.length⌉₊ ≤ values.length := by
    rw [Nat.ceil_le]
    exact mul_le_of_le_one_left (Nat.cast_nonneg _) le_one
  have rank : min (max ⌈q * values.length⌉₊ 1) values.length ≤ atOrBelow values w ↔
      ⌈q * values.length⌉₊ ≤ atOrBelow values w := by omega
  rw [rank, Nat.ceil_le]
  rfl

theorem isQuantile_of_isRanked (le_one : q ≤ 1) {v : Word}
    (h : IsRanked values (min (max ⌈q * values.length⌉₊ 1) values.length) v) :
    IsQuantile values q v where
  mem := h.mem
  enough := (rank_le_iff le_one h.mem).mp h.enough
  least w mem enough := h.least w mem ((rank_le_iff le_one mem).mpr enough)

end Ranks

/-- A quantile taken from two readings is the bound of the bucket of the quantile of the values recorded
between them, at most a quarter above it, and there is none exactly if nothing was recorded. -/
theorem quantiles_within_a_quarter (before between : List Word) (q : ℚ) (le_one : q ≤ 1) :
    (between ≠ [] → ∃ v, IsQuantile between q v ∧
      quantile (Histogram.reading before).buckets (Histogram.reading (before ++ between)).buckets q =
        some (upper (bucket v)) ∧
      v.val ≤ upper (bucket v) ∧ 4 * upper (bucket v) ≤ 5 * v.val ∧
      (v.val ≤ 4 ∨ (∃ k, v.val = 2 ^ k) → upper (bucket v) = v.val)) ∧
    (quantile (Histogram.reading before).buckets (Histogram.reading (before ++ between)).buckets q =
      none ↔ between = []) := by
  have recorded : between ≠ [] → ∃ v, IsQuantile between q v ∧
      quantile (Histogram.reading before).buckets (Histogram.reading (before ++ between)).buckets q =
        some (upper (bucket v)) := by
    intro some_
    have positive : 0 < between.length := List.length_pos_iff.mpr some_
    obtain ⟨v, ranked⟩ := @exists_isRanked Word _ between
      (min (max ⌈q * between.length⌉₊ 1) between.length) some_ (min_le_right _ _)
    refine ⟨v, isQuantile_of_isRanked le_one ranked, ?_⟩
    simp only [quantile, added_readings, total_added]
    rw [if_neg (by omega)]
    exact pick_tally ranked bucket_mono (by omega) (bucket_lt v) upper
  refine ⟨fun some_ => ?_, fun none_ => ?_, ?_⟩
  · obtain ⟨v, is, found⟩ := recorded some_
    exact ⟨v, is, found, upper_bucket v⟩
  · by_contra some_
    obtain ⟨v, -, found⟩ := recorded some_
    rw [found] at none_
    cases none_
  · rintro rfl
    simp only [quantile, added_readings, total_added]
    rfl

/-- The median of two values recorded after a third, which is in the first reading only. -/
theorem quantiles_within_a_quarter_median :
    ∃ v, IsQuantile [9, 4096] (1 / 2) v ∧
      quantile (Histogram.reading [7]).buckets (Histogram.reading ([7] ++ [9, 4096])).buckets (1 / 2) =
        some (upper (bucket v)) := by
  obtain ⟨v, is, found, -⟩ := (quantiles_within_a_quarter [7] [9, 4096] (1 / 2) (by norm_num)).1 (by decide)
  exact ⟨v, is, found⟩

end JackalopeFs.Histograms
