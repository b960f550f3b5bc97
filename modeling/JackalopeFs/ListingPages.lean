import JackalopeFs.DirectoryListing

/-! # Pages of a directory that does not change

Following the last cookie of each page gives every entry that can be described, once and in order,
whatever the budgets and however the kernel fills its buffers.
-/

namespace JackalopeFs.DirectoryListing

open List LittleEndian PathNames WireMessages

/-- The record that an entry was made from, as far as the server reads it. -/
def rawOf (entry : DirEntry) : RawDirent :=
  ⟨entry.nextOffset, entry.name⟩

namespace Dirent

variable (d : Dirent) (rest : Bytes)

theorem length_bytes : d.bytes.length = d.reclen := by
  simp only [bytes, reclen, headerLen, length_append, length_toBytes, length_cons]
  omega

theorem bytes_ne_nil : d.bytes ≠ [] := by
  refine length_pos_iff.mp ?_
  rw [length_bytes]
  unfold reclen headerLen
  omega

theorem cookie_of_bytes : UInt64.ofNat (ofBytes (((d.bytes ++ rest).drop 8).take 8)) = d.off := by
  have cookie : ((d.bytes ++ rest).drop 8).take 8 = toBytes 8 d.off.toNat := by
    simp only [bytes, append_assoc]
    rw [drop_left' (length_toBytes 8 _), take_left' (length_toBytes 8 _)]
  rw [cookie, ofBytes_toBytes d.off.toNat_lt, UInt64.ofNat_toNat]

theorem reclen_of_bytes : ofBytes (((d.bytes ++ rest).drop 16).take 2) = d.reclen := by
  have length : ((d.bytes ++ rest).drop 16).take 2 = toBytes 2 d.reclen := by
    simp only [bytes, append_assoc]
    rw [show 16 = 8 + 8 from rfl, ← drop_drop, drop_left' (length_toBytes 8 _),
      drop_left' (length_toBytes 8 _), take_left' (length_toBytes 2 _)]
  rw [length]
  exact ofBytes_toBytes d.short

theorem name_of_bytes :
    (((d.bytes ++ rest).take d.reclen).drop headerLen).takeWhile (· != 0) = d.name := by
  have area : ((d.bytes ++ rest).take d.reclen).drop headerLen = d.name ++ 0 :: d.padding := by
    have front : (toBytes 8 d.ino.toNat ++ (toBytes 8 d.off.toNat ++ (toBytes 2 d.reclen ++
        [d.type]))).length = headerLen := by
      simp only [length_append, length_toBytes, length_singleton, headerLen]
    rw [take_left' d.length_bytes]
    have split : d.bytes = (toBytes 8 d.ino.toNat ++ (toBytes 8 d.off.toNat ++ (toBytes 2 d.reclen ++
        [d.type]))) ++ (d.name ++ 0 :: d.padding) := by
      simp [bytes]
    rw [split, drop_left' front]
  rw [area, takeWhile_append_of_pos]
  · simp
  · intro byte mem
    simp only [bne_iff_ne, ne_eq]
    rintro rfl
    exact d.noNul mem

end Dirent

theorem parse_record {buf : Bytes} {reclen : ℕ} (header : headerLen ≤ reclen)
    (whole : reclen ≤ buf.length) (length : ofBytes ((buf.drop 16).take 2) = reclen) :
    parse buf = ⟨UInt64.ofNat (ofBytes ((buf.drop 8).take 8)),
      ((buf.take reclen).drop headerLen).takeWhile (· != 0)⟩ :: parse (buf.drop reclen) := by
  rw [parse, if_neg (by omega)]
  simp only [length]
  rw [if_neg (by omega)]

/-- What the kernel writes, one record after the other, is parsed as those records. -/
theorem parse_records (records : List Dirent) :
    parse (records.map Dirent.bytes).flatten = records.map Dirent.raw := by
  induction records with
  | nil => simp [parse, headerLen]
  | cons d records ih =>
    have whole : d.reclen ≤ (d.bytes ++ (records.map Dirent.bytes).flatten).length := by
      rw [length_append, d.length_bytes]
      exact Nat.le_add_right _ _
    have header : headerLen ≤ d.reclen := Nat.le_add_right _ _
    rw [map_cons, flatten_cons, parse_record header whole (d.reclen_of_bytes _), d.cookie_of_bytes,
      d.name_of_bytes, drop_left' d.length_bytes, ih]
    rfl

namespace Directory

variable (dir : Directory)

/-- The records that a page shows: the dots, and the names the protocol can carry and the server can
describe. -/
def describable (raw : RawDirent) : Bool :=
  dots raw.name || match Name.new raw.name with
    | .ok name => dir.present name
    | .error _ => false

def shown (position : List Dirent) : List RawDirent :=
  (position.map Dirent.raw).filter dir.describable

def listing : List RawDirent :=
  dir.shown dir.records

/-- A read at this cookie has this much of the listing before it. -/
def At (offset : UInt64) (rest : List RawDirent) : Prop :=
  ∃ front position, dir.records = front ++ position ∧ dir.seek offset = .ok position ∧
    dir.shown position = rest

theorem at_start : dir.At 0 dir.listing :=
  ⟨[], dir.records, rfl, dir.seek_start, rfl⟩

variable {dir}

variable {offset : UInt64}

theorem At.unique {rest rest' : List RawDirent} (h : dir.At offset rest)
    (h' : dir.At offset rest') : rest = rest' := by
  obtain ⟨front, position, _, sought, left⟩ := h
  obtain ⟨front', position', _, sought', left'⟩ := h'
  rw [sought] at sought'
  cases sought'
  rw [← left, ← left']

theorem At.mem {rest : List RawDirent} (h : dir.At offset rest) {raw : RawDirent}
    (mem : raw ∈ rest) : raw ∈ dir.listing := by
  obtain ⟨front, position, whole, _, rfl⟩ := h
  rw [listing, whole, shown, map_append, filter_append]
  exact mem_append_right _ mem

/-- The cookie of an entry leads to what comes after it, past the records that are not shown. -/
theorem At.after {before rest : List RawDirent} {raw : RawDirent}
    (h : dir.At offset (before ++ raw :: rest)) : dir.At raw.off rest := by
  obtain ⟨front, position, whole, _, shows⟩ := h
  obtain ⟨_, _, split, _, tail⟩ := filter_eq_append_iff.mp shows
  obtain ⟨hidden, _, rfl, _, _, others⟩ := filter_eq_cons_iff.mp tail
  rw [← append_assoc] at split
  obtain ⟨early, _, rfl, _, late⟩ := map_eq_append_iff.mp split
  obtain ⟨record, back, rfl, rfl, rfl⟩ := map_eq_cons_iff.mp late
  rw [← append_assoc] at whole
  exact ⟨front ++ early ++ [record], back, by simp [whole], dir.seek_after _ _ _ whole, others⟩

end Directory

section Pages

variable {dir : Directory} {call : Call dir}

/-- A record is skipped if it cannot be described, and otherwise becomes its entry. -/
theorem dirEntry_spec {raw : RawDirent} {made : Option DirEntry}
    (h : dirEntry call.attrEntry raw = .ok made) :
    made = none ∧ dir.describable raw = false ∨
      ∃ entry, made = some entry ∧ rawOf entry = raw ∧ dir.describable raw = true := by
  unfold dirEntry at h
  unfold Directory.describable
  by_cases dot : dots raw.name = true
  · rw [if_pos dot] at h
    cases h
    exact .inr ⟨_, rfl, rfl, by rw [dot, Bool.true_or]⟩
  · rw [if_neg dot] at h
    rw [Bool.not_eq_true] at dot
    rw [dot, Bool.false_or]
    cases component : Name.new raw.name with
    | error =>
      rw [component] at h
      cases h
      exact .inl ⟨rfl, rfl⟩
    | ok name =>
      rw [component] at h
      simp only at h
      cases described : call.attrEntry name with
      | ok attr =>
        rw [described] at h
        cases h
        exact .inr ⟨_, rfl, rfl, call.described name attr described⟩
      | error e =>
        rw [described] at h
        simp only at h
        cases failure : entryFailure e with
        | error =>
          rw [failure] at h
          cases h
        | ok =>
          rw [failure] at h
          cases h
          exact .inl ⟨rfl, call.skipped name e described failure⟩

/-- These entries are what the call shows of these records. -/
structure Shows (call : Call dir) (seen : List RawDirent) (entries : List DirEntry) : Prop where
  raws : entries.map rawOf = seen.filter dir.describable
  made : ∀ entry ∈ entries, dirEntry call.attrEntry (rawOf entry) = .ok (some entry)

namespace Shows

theorem nil : Shows call [] [] :=
  ⟨rfl, fun _ mem => absurd mem not_mem_nil⟩

theorem append {seen seen' : List RawDirent} {entries entries' : List DirEntry}
    (h : Shows call seen entries) (h' : Shows call seen' entries') :
    Shows call (seen ++ seen') (entries ++ entries') := by
  refine ⟨?_, fun entry mem => ?_⟩
  · rw [map_append, filter_append, h.raws, h'.raws]
  · cases mem_append.mp mem with
    | inl mem => exact h.made entry mem
    | inr mem => exact h'.made entry mem

theorem skip {raw : RawDirent} (hidden : dir.describable raw = false) : Shows call [raw] [] :=
  ⟨by simp [hidden], fun _ mem => absurd mem not_mem_nil⟩

theorem single {raw : RawDirent} {entry : DirEntry}
    (made : dirEntry call.attrEntry raw = .ok (some entry)) (same : rawOf entry = raw)
    (shown : dir.describable raw = true) : Shows call [raw] [entry] := by
  subst same
  refine ⟨by simp [shown], fun other mem => ?_⟩
  rw [mem_singleton.mp mem]
  exact made

end Shows

def EndsShown (dir : Directory) (seen : List RawDirent) : Prop :=
  ∃ init raw, seen = init ++ [raw] ∧ dir.describable raw = true

variable {maxBytes : ℕ}

theorem addEntries_spec {raws : List RawDirent} {entries entries' : List DirEntry}
    {used used' : ℕ} {full : Bool}
    (h : addEntries call.attrEntry maxBytes raws entries used = .ok (entries', used', full)) :
    ∃ seen rest added, raws = seen ++ rest ∧ entries' = entries ++ added ∧ Shows call seen added ∧
      (full = false → rest = []) ∧ (full = true → EndsShown dir seen) := by
  induction raws generalizing entries used with
  | nil =>
    cases h
    exact ⟨[], [], [], rfl, (append_nil _).symm, .nil, fun _ => rfl, fun h => (nomatch h)⟩
  | cons raw raws ih =>
    simp only [addEntries] at h
    cases made : dirEntry call.attrEntry raw with
    | error =>
      rw [made] at h
      cases h
    | ok entry =>
      rw [made] at h
      obtain ⟨rfl, hidden⟩ | ⟨entry, rfl, same, shown⟩ := dirEntry_spec made
      · obtain ⟨seen, rest, added, rfl, rfl, shows, all, ends⟩ := ih h
        refine ⟨raw :: seen, rest, added, rfl, rfl, (Shows.skip hidden).append shows, all, fun h => ?_⟩
        obtain ⟨init, last, rfl, visible⟩ := ends h
        exact ⟨raw :: init, last, rfl, visible⟩
      · simp only at h
        split_ifs at h
        · cases h
          exact ⟨[raw], raws, [entry], rfl, rfl, .single made same shown, fun h => (nomatch h),
            fun _ => ⟨[], raw, rfl, shown⟩⟩
        · obtain ⟨seen, rest, added, rfl, rfl, shows, all, ends⟩ := ih h
          refine ⟨raw :: seen, rest, entry :: added, rfl, by simp,
            (Shows.single made same shown).append shows, all, fun h => ?_⟩
          obtain ⟨init, last, rfl, visible⟩ := ends h
          exact ⟨raw :: init, last, rfl, visible⟩

theorem getdents64_spec {position later : List Dirent} {buf : Bytes}
    (filled : getdents64 call position = .ok (buf, later)) :
    ∃ batch, position = batch ++ later ∧ parse buf = batch.map Dirent.raw ∧
      (buf = [] → position = []) := by
  unfold getdents64 at filled
  cases more : call.more position with
  | error =>
    rw [more] at filled
    cases filled
  | ok n =>
    rw [more] at filled
    cases position with
    | nil =>
      cases filled
      exact ⟨[], rfl, parse_records [], fun _ => rfl⟩
    | cons record records =>
      cases filled
      refine ⟨record :: records.take n, by simp, parse_records _, fun empty => ?_⟩
      simp only [map_cons, flatten_cons, append_eq_nil_iff] at empty
      exact absurd empty.1 record.bytes_ne_nil

variable {page : Listing}

theorem readLoop_spec {position : List Dirent} {entries : List DirEntry} {used : ℕ}
    (h : readLoop call maxBytes position entries used = .ok page) :
    ∃ seen rest added, position = seen ++ rest ∧ page.entries = entries ++ added ∧
      Shows call (seen.map Dirent.raw) added ∧ (page.atEnd = true → rest = []) ∧
      (page.atEnd = false → EndsShown dir (seen.map Dirent.raw)) := by
  fun_induction readLoop call maxBytes position entries used with
  | case1 => cases h
  | case2 _ _ _ _ filled =>
    cases h
    obtain ⟨batch, _, _, none⟩ := getdents64_spec filled
    rw [none rfl]
    exact ⟨[], [], [], rfl, (append_nil _).symm, .nil, fun _ => rfl, fun h => (nomatch h)⟩
  | case3 => cases h
  | case4 _ _ _ _ later filled _ _ _ added =>
    cases h
    obtain ⟨batch, rfl, parsed, -⟩ := getdents64_spec filled
    rw [parsed] at added
    obtain ⟨seen, rest, new, split, rfl, shows, -, ends⟩ := addEntries_spec added
    obtain ⟨seen, rest, rfl, rfl, rfl⟩ := map_eq_append_iff.mp split
    exact ⟨seen, rest ++ later, new, by simp, rfl, shows, fun h => (nomatch h), fun _ => ends rfl⟩
  | case5 _ _ _ _ _ filled _ entries' _ added ih =>
    obtain ⟨batch, rfl, parsed, -⟩ := getdents64_spec filled
    rw [parsed] at added
    obtain ⟨seen, rest, new, split, rfl, shows, all, -⟩ := addEntries_spec added
    obtain ⟨seen', rest', new', rfl, entries', shows', all', ends'⟩ := ih h
    rw [all rfl, append_nil] at split
    refine ⟨batch ++ seen', rest', new ++ new', by simp, ?_, ?_, all', fun h => ?_⟩
    · rw [entries', append_assoc]
    · rw [map_append, split]
      exact shows.append shows'
    · obtain ⟨init, raw, last, visible⟩ := ends' h
      exact ⟨batch.map Dirent.raw ++ init, raw, by rw [map_append, last, append_assoc], visible⟩

variable {offset : UInt64} {rest : List RawDirent}

/-- What a page shows goes before what is left, of which there is nothing if it says that the directory
ended; a page that does not is not empty. -/
theorem readDir_spec (h : dir.At offset rest) (read : readDir call offset maxBytes = .ok page) :
    ∃ more, rest = page.entries.map rawOf ++ more ∧
      (∀ entry ∈ page.entries, dirEntry call.attrEntry (rawOf entry) = .ok (some entry)) ∧
      (page.atEnd = true → more = []) ∧ (page.atEnd = false → page.entries ≠ []) := by
  obtain ⟨front, position, whole, sought, rfl⟩ := h
  simp only [readDir, sought] at read
  obtain ⟨seen, left, added, rfl, entries, shows, all, ends⟩ := readLoop_spec read
  subst entries
  refine ⟨dir.shown left, ?_, shows.made, fun h => ?_, fun h => ?_⟩
  · rw [shows.raws, Directory.shown, Directory.shown, map_append, filter_append]
  · rw [all h]
    rfl
  · intro none
    obtain ⟨init, raw, split, visible⟩ := ends h
    have hidden := shows.raws
    rw [none, split, filter_append, filter_cons_of_pos visible] at hidden
    simp at hidden

theorem at_last {entries : List DirEntry} {more : List RawDirent}
    (h : dir.At offset (entries.map rawOf ++ more)) {last : DirEntry}
    (mem : last ∈ entries.getLast?) :
    dir.At last.nextOffset more := by
  obtain ⟨init, rfl⟩ := getLast?_eq_some_iff.mp mem
  rw [map_append, append_assoc] at h
  exact h.after

def Ample (call : Call dir) : Prop :=
  (∀ position, ∃ n, call.more position = .ok n) ∧
    ∀ name e, call.attrEntry name = .error e → entryFailure e = .ok ()

theorem dirEntry_isOk (ample : Ample call) (raw : RawDirent) :
    ∃ made, dirEntry call.attrEntry raw = .ok made := by
  unfold dirEntry
  split
  · exact ⟨_, rfl⟩
  · split
    · exact ⟨_, rfl⟩
    · split
      · exact ⟨_, rfl⟩
      · rename_i e failed
        rw [ample.2 _ e failed]
        exact ⟨_, rfl⟩

theorem addEntries_isOk (ample : Ample call) (maxBytes : ℕ) (raws : List RawDirent)
    (entries : List DirEntry) (used : ℕ) :
    ∃ made, addEntries call.attrEntry maxBytes raws entries used = .ok made := by
  induction raws generalizing entries used with
  | nil => exact ⟨_, rfl⟩
  | cons raw _ ih =>
    obtain ⟨entry, made⟩ := dirEntry_isOk ample raw
    simp only [addEntries, made]
    cases entry with
    | none => exact ih _ _
    | some =>
      simp only
      split_ifs
      · exact ⟨_, rfl⟩
      · exact ih _ _

theorem readLoop_isOk (ample : Ample call) (maxBytes : ℕ) (position : List Dirent)
    (entries : List DirEntry) (used : ℕ) :
    ∃ page, readLoop call maxBytes position entries used = .ok page := by
  fun_induction readLoop call maxBytes position entries used with
  | case1 position _ _ _ filled =>
    obtain ⟨n, more⟩ := ample.1 position
    unfold getdents64 at filled
    rw [more] at filled
    cases position <;> cases filled
  | case2 => exact ⟨_, rfl⟩
  | case3 _ entries used buf _ _ _ _ failed =>
    obtain ⟨made, added⟩ := addEntries_isOk ample maxBytes (parse buf) entries used
    rw [failed] at added
    cases added
  | case4 => exact ⟨_, rfl⟩
  | case5 _ _ _ _ _ _ _ _ _ _ ih => exact ih

theorem readDir_isOk (ample : Ample call) (h : dir.At offset rest) (maxBytes : ℕ) :
    ∃ page, readDir call offset maxBytes = .ok page := by
  obtain ⟨front, position, _, sought, _⟩ := h
  simp only [readDir, sought]
  exact readLoop_isOk ample maxBytes position [] 0

def lastCookie (offset : UInt64) (page : Listing) : UInt64 :=
  (page.entries.getLast?.map DirEntry.nextOffset).getD offset

/-- The pages that these requests give, each at the last cookie of the page before.  One that fails is
followed by another at the same cookie, and a page that says that the directory ended by none. -/
def follow (offset : UInt64) : List (ℕ × Call dir) → List Listing
  | [] => []
  | (maxBytes, call) :: calls =>
    match readDir call offset maxBytes with
    | .error _ => follow offset calls
    | .ok page => page :: if page.atEnd then [] else follow (lastCookie offset page) calls

theorem follow_cons_ok {calls : List (ℕ × Call dir)}
    (read : readDir call offset maxBytes = .ok page) :
    follow offset ((maxBytes, call) :: calls) =
      page :: if page.atEnd then [] else follow (lastCookie offset page) calls := by
  simp only [follow, read]

theorem at_lastCookie {more : List RawDirent} (h : dir.At offset (page.entries.map rawOf ++ more))
    (some : page.entries ≠ []) :
    dir.At (lastCookie offset page) more := by
  have last := getLast?_eq_some_getLast some
  rw [lastCookie, last]
  exact at_last h last

/-- Pages show a first part of what was left, and all of it once one says that the directory ended. -/
structure Follows (dir : Directory) (calls : List (ℕ × Call dir)) (rest : List RawDirent)
    (pages : List Listing) : Prop where
  shown : (pages.flatMap Listing.entries).map rawOf <+: rest
  made : ∀ page ∈ pages, ∀ entry ∈ page.entries, ∃ call ∈ calls,
    dirEntry call.2.attrEntry (rawOf entry) = .ok (some entry)
  filled : ∀ page ∈ pages, page.atEnd = false → page.entries ≠ []
  ended : ∀ page ∈ pages, page.atEnd = true →
    (pages.flatMap Listing.entries).map rawOf = rest ∧
      ∀ last ∈ page.entries.getLast?, dir.At last.nextOffset []

theorem follows_follow (h : dir.At offset rest) (calls : List (ℕ × Call dir)) :
    Follows dir calls rest (follow offset calls) := by
  induction calls generalizing offset rest with
  | nil =>
    refine ⟨ nil_prefix, ?_, ?_, ?_⟩ <;>
      exact fun page mem => absurd mem not_mem_nil
  | cons c calls ih =>
    obtain ⟨maxBytes, call⟩ := c
    cases read : readDir call offset maxBytes with
    | error =>
      have again := ih h
      simp only [follow, read]
      exact { again with
        made := fun page mem entry entered => by
          obtain ⟨call, called, made⟩ := again.made page mem entry entered
          exact ⟨call, mem_cons_of_mem _ called, made⟩ }
    | ok page =>
      rw [follow_cons_ok read]
      obtain ⟨more, rfl, made, done, filled⟩ := readDir_spec h read
      have mine : ∀ entry ∈ page.entries, ∃ call' ∈ (maxBytes, call) :: calls,
          dirEntry call'.2.attrEntry (rawOf entry) = .ok (some entry) :=
        fun entry mem => ⟨_, mem_cons_self, made entry mem⟩
      cases ends : page.atEnd with
      | true =>
        rw [if_pos rfl]
        rw [done ends] at h ⊢
        refine ⟨?_, fun p mem => ?_, fun p mem => ?_, fun p mem _ => ?_⟩
        · simp
        · rw [mem_singleton.mp mem]
          exact mine
        · rw [mem_singleton.mp mem]
          exact filled
        · rw [mem_singleton.mp mem]
          exact ⟨by simp, fun _ => at_last h⟩
      | false =>
        rw [if_neg Bool.false_ne_true]
        have later := ih (at_lastCookie h (filled ends))
        refine ⟨?_, fun p mem => ?_, fun p mem => ?_, fun p mem finished => ?_⟩
        · rw [flatMap_cons, map_append]
          exact (prefix_append_right_inj _).mpr later.shown
        · cases mem with
          | head => exact mine
          | tail _ mem =>
            intro entry entered
            obtain ⟨call, called, made⟩ := later.made p mem entry entered
            exact ⟨call, mem_cons_of_mem _ called, made⟩
        · cases mem with
          | head => exact filled
          | tail _ mem => exact later.filled p mem
        · cases mem with
          | head =>
            rw [ends] at finished
            cases finished
          | tail _ mem =>
            obtain ⟨all, leads⟩ := later.ended p mem finished
            exact ⟨by rw [flatMap_cons, map_append, all], leads⟩

/-- Each page before the end takes something off what is left, so the end is reached. -/
theorem follow_ends (h : dir.At offset rest) {calls : List (ℕ × Call dir)}
    (ample : ∀ c ∈ calls, Ample c.2) (long : rest.length < calls.length) :
    ∃ page ∈ follow offset calls, page.atEnd = true := by
  induction calls generalizing offset rest with
  | nil => exact absurd long (Nat.not_lt_zero _)
  | cons c _ ih =>
    obtain ⟨maxBytes, call⟩ := c
    obtain ⟨page, read⟩ := readDir_isOk (ample _ mem_cons_self) h maxBytes
    obtain ⟨more, rfl, _, _, filled⟩ := readDir_spec h read
    rw [follow_cons_ok read]
    cases ends : page.atEnd with
    | true => exact ⟨page, mem_cons_self, ends⟩
    | false =>
      have some := length_pos_iff.mpr (filled ends)
      rw [length_append, length_map, length_cons] at long
      obtain ⟨last, mem, finished⟩ := ih (at_lastCookie h (filled ends))
        (fun c mem => ample c (mem_cons_of_mem _ mem)) (by omega)
      exact ⟨last, mem_cons_of_mem _ mem, finished⟩

end Pages

/-- Following each page's last cookie from 0, with any budgets, shows the listing in order and each of
it once: a first part of it, all of it once a page says that the directory ended, and one does after
enough requests that lack nothing.  Every page before that is not empty, and a read at the last cookie
of the one that says it shows nothing. -/
theorem paging_exact (dir : Directory) (calls : List (ℕ × Call dir)) :
    ((follow 0 calls).flatMap Listing.entries).map rawOf <+: dir.listing ∧
    (∀ page ∈ follow 0 calls, ∀ entry ∈ page.entries, ∃ call ∈ calls,
      dirEntry call.2.attrEntry (rawOf entry) = .ok (some entry)) ∧
    (∀ page ∈ follow 0 calls, page.atEnd = false → page.entries ≠ []) ∧
    (∀ page ∈ follow 0 calls, page.atEnd = true →
      ((follow 0 calls).flatMap Listing.entries).map rawOf = dir.listing ∧
      ∀ last ∈ page.entries.getLast?, ∀ (call : Call dir) (maxBytes : ℕ) (again : Listing),
        readDir call last.nextOffset maxBytes = .ok again → again.entries = []) ∧
    ((∀ c ∈ calls, Ample c.2) → dir.listing.length < calls.length →
      ∃ page ∈ follow 0 calls, page.atEnd = true) := by
  have follows := follows_follow dir.at_start calls
  refine ⟨follows.shown, follows.made, follows.filled, fun page mem finished => ?_, follow_ends dir.at_start⟩
  obtain ⟨all, leads⟩ := follows.ended page mem finished
  refine ⟨all, fun last mem call maxBytes again read => ?_⟩
  obtain ⟨more, none, _⟩ := readDir_spec (leads last mem) read
  exact List.map_eq_nil_iff.mp (List.append_eq_nil_iff.mp none.symm).1

def oneFile : Directory where
  records := [⟨1, 7, 8, [97], [], by decide, by decide⟩]
  present _ := true
  seek offset := if offset = 0 then .ok [⟨1, 7, 8, [97], [], by decide, by decide⟩] else .ok []
  seek_start := rfl
  seek_after front record back split := by
    cases front with
    | nil =>
      cases split
      rfl
    | cons d front =>
      injection split with _ none
      cases front <;> cases none

theorem paging_exact_oneFile : ∃ call : Call oneFile,
    ((follow 0 [(0, call), (9, call)]).flatMap Listing.entries).map rawOf = [⟨7, [97]⟩] := by
  let attr : Attr := ⟨1, 0, 0, ⟨0, 0⟩, ⟨0, 0⟩, ⟨0, 0⟩, .regular, 0, 1, 0, 0, 0, 0, none, ⟨1, []⟩, false⟩
  let call : Call oneFile := ⟨fun _ => .ok 0, fun _ => .ok attr, fun _ _ _ => rfl, fun _ _ h => (nomatch h)⟩
  have ample : ∀ c ∈ [(0, call), (9, call)], Ample c.2 := by
    intro c mem
    have same : c.2 = call := by
      cases mem with
      | head => rfl
      | tail _ mem => rw [List.mem_singleton.mp mem]
    rw [same]
    exact ⟨fun _ => ⟨0, rfl⟩, fun _ _ h => (nomatch h)⟩
  obtain ⟨_, _, _, ended, ends⟩ := paging_exact oneFile [(0, call), (9, call)]
  obtain ⟨page, mem, finished⟩ := ends ample (by decide)
  refine ⟨call, (ended page mem finished).1.trans ?_⟩
  decide

end JackalopeFs.DirectoryListing
