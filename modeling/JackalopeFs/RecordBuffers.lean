import JackalopeFs.ListingPages

/-! # Buffers of directory records

The loop of the server over a buffer of `getdents64`, with every range it takes checked against what it
takes it from.  No range is ever refused, whatever the bytes are, and what the loop gives is what `parse`
says.  Of a buffer that is cut off somewhere it gives the records that are whole.
-/

namespace JackalopeFs.DirectoryListing

open List LittleEndian WireMessages

section Ranges

/-- The bytes of `start..stop`, if they are all there. -/
def range (bytes : Bytes) (start stop : ℕ) : Option Bytes :=
  if start ≤ stop ∧ stop ≤ bytes.length then some ((bytes.take stop).drop start) else none

/-- The bytes as an array of `n`, if they are as many. -/
def array (n : ℕ) (bytes : Bytes) : Option Bytes :=
  if bytes.length = n then some bytes else none

variable {bytes : Bytes} {start stop : ℕ}

theorem range_eq_some (ordered : start ≤ stop) (fits : stop ≤ bytes.length) :
    range bytes start stop = some ((bytes.take stop).drop start) :=
  if_pos ⟨ordered, fits⟩

theorem array_range (n : ℕ) (fits : start + n ≤ bytes.length) :
    (range bytes start (start + n)).bind (array n) = some ((bytes.drop start).take n) := by
  have cut : (bytes.take (start + n)).drop start = (bytes.drop start).take n := by
    rw [drop_take, Nat.add_sub_cancel_left]
  rw [range_eq_some (Nat.le_add_right _ _) fits, Option.bind_some, cut, array, if_pos]
  rw [length_take, length_drop]
  omega

theorem range_position (bytes : Bytes) :
    range bytes 0 ((bytes.findIdx? (· == 0)).getD bytes.length) = some (bytes.takeWhile (· != 0)) := by
  have position : (bytes.findIdx? (· == 0)).getD bytes.length = (bytes.takeWhile (· != 0)).length := by
    induction bytes with
    | nil => rfl
    | cons byte bytes ih =>
      rw [findIdx?_cons, takeWhile_cons]
      by_cases nul : byte = 0
      · simp [nul]
      · simp only [beq_iff_eq, nul, bne_iff_ne, ne_eq, not_false_eq_true, if_true, if_false,
          length_cons, ← ih]
        cases bytes.findIdx? (· == 0) <;> rfl
  have fits := ( takeWhile_prefix (l := bytes) (· != 0)).length_le
  rw [position, range_eq_some (Nat.zero_le _) fits, drop_zero]
  exact congrArg some (prefix_iff_eq_take.mp ( takeWhile_prefix _)).symm

end Ranges

/-- The loop of `parse`, at `pos` and with the records before it: nothing if it takes a range that is not
there, where the server would panic. -/
def parseLoop (buf : Bytes) (pos : ℕ) (out : List RawDirent) : Option (List RawDirent) :=
  if _room : pos + headerLen ≤ buf.length then
    (range buf pos buf.length).bind fun record =>
    ((range record 8 16).bind (array 8)).bind fun off =>
    ((range record 16 18).bind (array 2)).bind fun length =>
      let reclen := ofBytes length
      if _bad : reclen < headerLen ∨ buf.length < pos + reclen then some out
      else
        (range record headerLen reclen).bind fun nameArea =>
        (range nameArea 0 ((nameArea.findIdx? (· == 0)).getD nameArea.length)).bind fun name =>
          parseLoop buf (pos + reclen) (out ++ [⟨UInt64.ofNat (ofBytes off), name⟩])
  else some out
  termination_by buf.length - pos
  decreasing_by
    unfold headerLen at *
    omega

theorem parseLoop_eq (buf : Bytes) (pos : ℕ) (out : List RawDirent) (inside : pos ≤ buf.length) :
    parseLoop buf pos out = some (out ++ parse (buf.drop pos)) := by
  -- along the loop, by what is left of the buffer
  induction left : buf.length - pos using Nat.strong_induction_on generalizing pos out with
  | _ left ih =>
    have length : (buf.drop pos).length = buf.length - pos := length_drop
    have record : range buf pos buf.length = some (buf.drop pos) := by
      rw [range_eq_some inside le_rfl, take_length]
    rw [parseLoop, parse]
    split_ifs with room short
    · omega
    · have header : 18 ≤ (buf.drop pos).length := by
        unfold headerLen at *
        omega
      have off := @array_range (buf.drop pos) 8 8 (by omega)
      have len := @array_range (buf.drop pos) 16 2 (by omega)
      rw [record, Option.bind_some, off, Option.bind_some, len, Option.bind_some]
      set reclen := ofBytes (((buf.drop pos).drop 16).take 2) with hreclen
      by_cases bad : reclen < headerLen ∨ buf.length < pos + reclen
      · have stop : reclen < headerLen ∨ (buf.drop pos).length < reclen := by
          omega
        simp only [dif_pos bad, if_pos stop, append_nil]
      · have go : ¬(reclen < headerLen ∨ (buf.drop pos).length < reclen) := by
          omega
        have area : range (buf.drop pos) headerLen reclen =
            some (((buf.drop pos).take reclen).drop headerLen) :=
          range_eq_some (by omega) (by omega)
        simp only [dif_neg bad, if_neg go]
        rw [area, Option.bind_some, range_position, Option.bind_some,
          ih (buf.length - (pos + reclen)) (by unfold headerLen at *; omega) _ _ (by omega) rfl,
          ← drop_drop, append_assoc]
        rfl
    · rw [append_nil]
    · unfold headerLen at *
      omega

theorem field_append {front : Bytes} (rest : Bytes) {start n : ℕ} (fits : start + n ≤ front.length) :
    ((front ++ rest).drop start).take n = (front.drop start).take n := by
  rw [drop_append_of_le_length (by omega), take_append_of_le_length]
  rw [length_drop]
  omega

/-- What is parsed of the front of a buffer is the front of what is parsed of it all. -/
theorem parse_append (front rest : Bytes) : parse front <+: parse (front ++ rest) := by
  induction front using parse.induct with
  | case1 _ short =>
    rw [parse, if_pos short]
    exact nil_prefix
  | case2 _ header _ bad =>
    rw [parse, if_neg header]
    rw [if_pos bad]
    exact nil_prefix
  | case3 front header reclen _ ih =>
    -- the record is whole, so the bytes after it change nothing about it
    have long : (front ++ rest).length = front.length + rest.length := length_append
    have same : ofBytes (((front ++ rest).drop 16).take 2) = reclen :=
      congrArg ofBytes (field_append rest (by unfold headerLen at header; omega))
    have cookie : ((front ++ rest).drop 8).take 8 = (front.drop 8).take 8 :=
      field_append rest (by unfold headerLen at header; omega)
    rw [parse_record (by omega) (by omega) rfl, parse_record (by omega) (by omega) same, cookie,
      take_append_of_le_length (by omega), drop_append_of_le_length (by omega)]
    exact (prefix_cons_inj _).mpr ih

/-- Records parse exactly: all of them from the buffer they fill, the whole ones from what is left of it
when it is cut off, and from any bytes without a range that is not there. -/
theorem parses_exactly :
    (∀ records : List Dirent, parse (records.map Dirent.bytes).flatten = records.map Dirent.raw) ∧
    (∀ (records : List Dirent) (n : ℕ),
      parse ((records.map Dirent.bytes).flatten.take n) <+: records.map Dirent.raw) ∧
    ∀ buf : Bytes, parseLoop buf 0 [] = some (parse buf) := by
  refine ⟨parse_records, fun records n => ?_, fun buf => ?_⟩
  · have front := parse_append ((records.map Dirent.bytes).flatten.take n)
      ((records.map Dirent.bytes).flatten.drop n)
    rwa [List.take_append_drop, parse_records] at front
  · rw [parseLoop_eq buf 0 [] (Nat.zero_le _), List.drop_zero, List.nil_append]

end JackalopeFs.DirectoryListing
