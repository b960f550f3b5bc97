import JackalopeFs.WireMessages

/-! # Times to the kernel and back

A time of the protocol is a signed count of seconds and nanoseconds after it.  The kernel
is given a `SystemTime`, of which no more is assumed than that it is signed 64-bit seconds
from the epoch and nanoseconds, with checked arithmetic, and that the distance to a later
time is a `Duration`.  Times before the epoch go through the size of a negative distance.
The seconds of a duration are a number here; no distance is too long for 64 bits.

Arithmetic on an `i64` that leaves its range has no result here.  The code panics there
when it is built with overflow checks and wraps around otherwise.
-/

namespace JackalopeFs.KernelTimes

open WireMessages

def nanosPerSec : ℕ := 1000000000

def checkedI64 (value : ℤ) : Option Int64 :=
  if -2 ^ 63 ≤ value ∧ value < 2 ^ 63 then some (.ofInt value) else none

structure Duration where
  secs : ℕ
  nanos : ℕ
  small : nanos < nanosPerSec

structure SystemTime where
  secs : Int64
  nanos : ℕ
  small : nanos < nanosPerSec

section Standard

def Duration.fromSecs (secs : ℕ) : Duration :=
  ⟨secs, 0, by decide⟩

def Duration.fromNanos (nanos : ℕ) : Duration :=
  ⟨nanos / nanosPerSec, nanos % nanosPerSec, Nat.mod_lt _ (by decide)⟩

def unixEpoch : SystemTime :=
  ⟨0, 0, by decide⟩

def SystemTime.add (t : SystemTime) (d : Duration) : Option SystemTime :=
  match checkedI64 (t.secs.toInt + d.secs) with
  | none => none
  | some secs =>
    if h : t.nanos + d.nanos < nanosPerSec then some ⟨secs, t.nanos + d.nanos, h⟩
    else
      (checkedI64 (secs.toInt + 1)).map fun secs =>
        ⟨secs, t.nanos + d.nanos - nanosPerSec, by have := t.small; have := d.small; omega⟩

def SystemTime.sub (t : SystemTime) (d : Duration) : Option SystemTime :=
  match checkedI64 (t.secs.toInt - d.secs) with
  | none => none
  | some secs =>
    if h : d.nanos ≤ t.nanos then some ⟨secs, t.nanos - d.nanos, by have := t.small; omega⟩
    else
      (checkedI64 (secs.toInt - 1)).map fun secs =>
        ⟨secs, t.nanos + nanosPerSec - d.nanos, by have := d.small; omega⟩

/-- The time that passes from `earlier` to `t`, if that is not before it. -/
def SystemTime.distance (t earlier : SystemTime) : Duration :=
  if h : earlier.nanos ≤ t.nanos then
    ⟨(t.secs.toInt - earlier.secs.toInt).toNat, t.nanos - earlier.nanos, by have := t.small; omega⟩
  else
    ⟨(t.secs.toInt - earlier.secs.toInt - 1).toNat, t.nanos + nanosPerSec - earlier.nanos,
      by have := earlier.small; omega⟩

/-- The time since another one, or, as an error, the time until it. -/
def SystemTime.durationSince (t other : SystemTime) : Except Duration Duration :=
  if other.secs.toInt < t.secs.toInt ∨ other.secs = t.secs ∧ other.nanos ≤ t.nanos then
    .ok (t.distance other)
  else .error (other.distance t)

end Standard

def systemTime (t : TimeSpec) : Option SystemTime :=
  let base :=
    if 0 ≤ t.sec.toInt then unixEpoch.add (.fromSecs t.sec.toInt.toNat)
    else unixEpoch.sub (.fromSecs t.sec.toInt.natAbs)
  base.bind fun base => base.add (.fromNanos t.nsec.toNat)

-- A count of seconds becomes an `i64` by its low 64 bits, as `as` does.
def timespec (t : SystemTime) : Option TimeSpec :=
  match t.durationSince unixEpoch with
  | .ok d => some ⟨.ofInt d.secs, .ofNat d.nanos⟩
  | .error d =>
    if d.nanos = 0 then (checkedI64 (-(Int64.ofInt d.secs).toInt)).map fun sec => ⟨sec, 0⟩
    else
      ((checkedI64 (-(Int64.ofInt d.secs).toInt)).bind fun sec => checkedI64 (sec.toInt - 1)).map
        fun sec => ⟨sec, .ofNat (nanosPerSec - d.nanos)⟩

section RoundTrip

theorem checkedI64_toInt (value : Int64) : checkedI64 value.toInt = some value := by
  unfold checkedI64
  rw [if_pos ⟨value.le_toInt, value.toInt_lt⟩, Int64.ofInt_toInt]

theorem checkedI64_of_range {value : ℤ} (low : -2 ^ 63 ≤ value) (high : value < 2 ^ 63) :
    ∃ checked : Int64, checkedI64 value = some checked ∧ checked.toInt = value :=
  ⟨.ofInt value, if_pos ⟨low, high⟩, Int64.toInt_ofInt_of_le low high⟩

theorem SystemTime.add_eq {t : SystemTime} {d : Duration} (secs : Int64)
    (sum : t.secs.toInt + d.secs = secs.toInt) (small : t.nanos + d.nanos < nanosPerSec) :
    t.add d = some ⟨secs, t.nanos + d.nanos, small⟩ := by
  simp only [SystemTime.add, sum, checkedI64_toInt, dif_pos small]

theorem SystemTime.sub_eq {t : SystemTime} {d : Duration} (secs : Int64)
    (sum : t.secs.toInt - d.secs = secs.toInt) (nanos : d.nanos ≤ t.nanos) :
    t.sub d = some ⟨secs, t.nanos - d.nanos, by have := t.small; omega⟩ := by
  simp only [SystemTime.sub, sum, checkedI64_toInt, dif_pos nanos]

theorem SystemTime.distance_whole (t earlier : SystemTime) (nanos : earlier.nanos ≤ t.nanos) :
    (t.distance earlier).secs = (t.secs.toInt - earlier.secs.toInt).toNat ∧
      (t.distance earlier).nanos = t.nanos - earlier.nanos := by
  simp only [SystemTime.distance, dif_pos nanos, and_self]

theorem SystemTime.distance_borrow (t earlier : SystemTime) (nanos : ¬earlier.nanos ≤ t.nanos) :
    (t.distance earlier).secs = (t.secs.toInt - earlier.secs.toInt - 1).toNat ∧
      (t.distance earlier).nanos = t.nanos + nanosPerSec - earlier.nanos := by
  simp only [SystemTime.distance, dif_neg nanos, and_self]

@[simp] theorem unixEpoch_secs : unixEpoch.secs.toInt = 0 :=
  rfl

@[simp] theorem unixEpoch_nanos : unixEpoch.nanos = 0 :=
  rfl

/-- Whole seconds from the epoch lead to the time of these seconds, on either side of it. -/
theorem base_eq (sec : Int64) (none_ : 0 < nanosPerSec) :
    (if 0 ≤ sec.toInt then unixEpoch.add (.fromSecs sec.toInt.toNat)
      else unixEpoch.sub (.fromSecs sec.toInt.natAbs)) = some ⟨sec, 0, none_⟩ := by
  split_ifs with sign
  · have sum : unixEpoch.secs.toInt + (Duration.fromSecs sec.toInt.toNat).secs = sec.toInt := by
      simp only [unixEpoch_secs, Duration.fromSecs]
      omega
    exact SystemTime.add_eq sec sum none_
  · have sum : unixEpoch.secs.toInt - (Duration.fromSecs sec.toInt.natAbs).secs = sec.toInt := by
      simp only [unixEpoch_secs, Duration.fromSecs]
      omega
    exact SystemTime.sub_eq sec sum (le_refl 0)

/-- The conversion to a `SystemTime` never overflows and keeps both counts. -/
theorem systemTime_eq (t : TimeSpec) (small : t.nsec.toNat < nanosPerSec) :
    systemTime t = some ⟨t.sec, t.nsec.toNat, small⟩ := by
  have whole : t.nsec.toNat / nanosPerSec = 0 := Nat.div_eq_of_lt small
  have rest : t.nsec.toNat % nanosPerSec = t.nsec.toNat := Nat.mod_eq_of_lt small
  unfold systemTime
  rw [base_eq t.sec (by decide), Option.bind_some]
  have added := SystemTime.add_eq (t := ⟨t.sec, 0, by decide⟩) (d := .fromNanos t.nsec.toNat)
    t.sec (by simp [Duration.fromNanos, whole]) (by simpa [Duration.fromNanos, rest])
  simpa [Duration.fromNanos, rest] using added

/-- The seconds of a time before the epoch, without the part of a second that is added to them. -/
theorem checkedI64_neg (secs : ℕ) (value : ℤ) (same : value = -secs) (small : secs < 2 ^ 63) :
    ∃ sec : Int64, checkedI64 (-(Int64.ofInt secs).toInt) = some sec ∧ sec.toInt = value := by
  rw [Int64.toInt_ofInt_of_le (by omega) (by omega), ← same]
  exact checkedI64_of_range (by omega) (by omega)

theorem timespec_eq {sec : Int64} {nanos : ℕ} (small : nanos < nanosPerSec)
    (inside : ¬(sec = Int64.minValue ∧ nanos = 0)) :
    timespec ⟨sec, nanos, small⟩ = some ⟨sec, .ofNat nanos⟩ := by
  have low := sec.le_toInt
  by_cases sign : 0 ≤ sec.toInt
  · have later : unixEpoch.secs.toInt < sec.toInt ∨ unixEpoch.secs = sec ∧ unixEpoch.nanos ≤ nanos := by
      obtain positive | zero := sign.lt_or_eq
      · exact .inl positive
      · exact .inr ⟨Int64.toInt_inj.mp zero, Nat.zero_le _⟩
    have since := SystemTime.distance_whole ⟨sec, nanos, small⟩ unixEpoch
      (Nat.zero_le _)
    have whole : ((sec.toInt - 0).toNat : ℤ) = sec.toInt := by omega
    unfold timespec SystemTime.durationSince
    rw [if_pos later]
    simp only [since, unixEpoch_secs, unixEpoch_nanos, whole, Int64.ofInt_toInt, Nat.sub_zero]
  · have earlier : ¬(unixEpoch.secs.toInt < sec.toInt ∨
        unixEpoch.secs = sec ∧ unixEpoch.nanos ≤ nanos) := by
      rintro (later | ⟨same, -⟩)
      · rw [unixEpoch_secs] at later
        omega
      · rw [← same] at sign
        exact sign le_rfl
    unfold timespec SystemTime.durationSince
    rw [if_neg earlier]
    by_cases exactly : nanos = 0
    -- Whole seconds: their negation is in range unless they are the smallest of all.
    · have above : -2 ^ 63 < sec.toInt := by
        refine lt_of_le_of_ne low fun least => inside ⟨?_, exactly⟩
        exact Int64.toInt_inj.mp (least.symm.trans Int64.toInt_minValue.symm)
      obtain ⟨checked, negated, same⟩ := checkedI64_neg (0 - sec.toInt).toNat sec.toInt
        (by omega) (by omega)
      have there : checked = sec := Int64.toInt_inj.mp same
      have until_ := SystemTime.distance_whole unixEpoch ⟨sec, nanos, small⟩
        exactly.le
      simp only [until_, unixEpoch_nanos, unixEpoch_secs, Nat.zero_sub, if_true, negated,
        Option.map_some, there]
      rw [exactly]
      rfl
    -- A part of a second: one second is borrowed on the way, so the whole ones are always in range.
    · obtain ⟨checked, negated, same⟩ := checkedI64_neg (0 - sec.toInt - 1).toNat
        (sec.toInt + 1) (by omega) (by omega)
      have part : nanosPerSec - (nanosPerSec - nanos) = nanos := by omega
      have none_ : ¬nanosPerSec - nanos = 0 := by omega
      have back : checked.toInt - 1 = sec.toInt := by omega
      have until_ := SystemTime.distance_borrow unixEpoch ⟨sec, nanos, small⟩
        (fun none' => exactly (Nat.le_zero.mp none'))
      simp only [until_, unixEpoch_nanos, unixEpoch_secs, Nat.zero_add, none_, if_false, negated,
        Option.bind_some, back, checkedI64_toInt, Option.map_some, part]

end RoundTrip

/-- A time goes to the kernel and comes back as it was, without an overflow, unless it is the whole
second at the very bottom of the range. -/
theorem times_survive_the_kernel (t : TimeSpec) (small : t.nsec.toNat < nanosPerSec)
    (inside : ¬(t.sec = Int64.minValue ∧ t.nsec = 0)) :
    ∃ time, systemTime t = some time ∧ timespec time = some t := by
  refine ⟨_, systemTime_eq t small, ?_⟩
  rw [timespec_eq small, UInt32.ofNat_toNat]
  rintro ⟨least, zero⟩
  exact inside ⟨least, UInt32.toNat_inj.mp zero⟩

/-- Half a second before the epoch, as seconds and nanoseconds. -/
theorem times_survive_the_kernel_before :
    ∃ time, systemTime ⟨-1, 500000000⟩ = some time ∧ timespec time = some ⟨-1, 500000000⟩ :=
  times_survive_the_kernel ⟨-1, 500000000⟩ (by decide) (by decide)

/-- The first second of all is converted, but not back: its distance has no negative. -/
theorem least_time_overflows :
    ∃ time, systemTime ⟨Int64.minValue, 0⟩ = some time ∧ timespec time = none := by
  refine ⟨_, systemTime_eq ⟨Int64.minValue, 0⟩ (by decide), ?_⟩
  decide +kernel

end JackalopeFs.KernelTimes
