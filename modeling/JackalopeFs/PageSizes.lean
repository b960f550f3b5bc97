import JackalopeFs.DirectoryPages
import JackalopeFs.FrameSizes
import JackalopeFs.WordLayout
import Mathlib.Algebra.BigOperators.Ring.List

/-! # Pages of a directory in frames

A page is budgeted by what its entries take on the wire, and the last entry may pass the
budget.  `responseWords` is what Cap'n Proto lays out for a reply of the schema, so the
budget can be held against it.  What a seek finds is up to the directory, and what is said
of a file is up to the file system, but a handle has at most 128 bytes and the names of
extended attributes are those of one call with a buffer for 1024.
-/

namespace JackalopeFs.PageSizes

open DirectoryListing DirectoryPages FrameCodec List PathNames WireConversions WireMessages WordLayout

section Collecting

/-- Bytes of extended attribute names that are sent along at most. -/
def xattrNamesMax : ℕ := 1024

/-- What `listxattr` leaves in a buffer, or why it leaves nothing. -/
abbrev Listed := Except Errno { buf : Bytes // buf.length ≤ xattrNamesMax }

/-- The names of the extended attributes, if they could be listed. -/
def xattrNamesByPath : Listed → Option (List Bytes)
  | .error _ => none
  | .ok buf => some ((buf.val.splitOn 0).filter fun name => !name.isEmpty)

def maxHandleSz : ℕ := 128

structure Collected (attr : Attr) : Prop where
  handle : attr.identity.handle.length ≤ maxHandleSz
  names : ∃ listed, attr.xattrNames = xattrNamesByPath listed

end Collecting

section Words

def wordsOfIdentity (identity : WireSchema.Identity) : ℕ :=
  struct 1 [blob identity.handle.length]

def wordsOfNames : WireSchema.Choice (List Bytes) → ℕ
  | .some names => pointerList (names.map fun name => blob name.length)
  | .none | .notInSchema _ => 0

def wordsOfAttr (attr : WireSchema.Attr) : ℕ :=
  struct 12 [wordsOfNames attr.xattrNames, wordsOfIdentity attr.identity]

def wordsOfEntryAttr : WireSchema.Choice WireSchema.Attr → ℕ
  | .some attr => wordsOfAttr attr
  | .none | .notInSchema _ => 0

def wordsOfEntry (entry : WireSchema.DirEntry) : ℕ :=
  struct 2 [blob entry.name.length, wordsOfEntryAttr entry.attr]

def wordsOfPayload : WireSchema.Response → ℕ
  | .entry attr | .attr attr | .opened attr => wordsOfAttr attr
  | .readlink b | .read b | .xattr b => blob b.length
  | .readdir entries _ => structList (entries.map wordsOfEntry)
  | .statfs _ => struct 7 []
  | .err _ | .ok | .written _ | .copied _ | .seeked _ | .notInSchema _ => 0

def responseWords (response : WireSchema.Response) : ℕ :=
  message (struct 2 [wordsOfPayload response])

end Words

section Growth

def pageBytes (entries : List DirEntry) : ℕ :=
  (entries.map fun entry => dirEntryBytes entry.name.length entry.attr).sum

@[simp] theorem pageBytes_append (front : List DirEntry) (entry : DirEntry) :
    pageBytes (front ++ [entry]) = pageBytes front + dirEntryBytes entry.name.length entry.attr := by
  simp [pageBytes]

theorem words_of_names (names : List Bytes) :
    pointerList (names.map fun name => blob name.length) =
      (names.map fun name => wordsFor name.length).sum := by
  induction names with
  | nil => rfl
  | cons _ _ ih =>
    rw [map_cons, map_cons, pointerList_cons, sum_cons, ih, Nat.add_comm 1]
    rfl

theorem bytes_of_names (names : List Bytes) :
    8 * (names.map fun name => wordsFor name.length).sum =
      (names.map fun n => 8 + (n.length + 7) / 8 * 8).sum := by
  rw [← sum_map_mul_left]
  congr 1
  refine map_congr_left fun name _ => ?_
  unfold wordsFor
  omega

theorem wordsOfAttr_build (attr : Attr) : wordsOfAttr (buildAttr attr) = 16 + wordsForAttr attr := by
  have identity : wordsOfIdentity (buildAttr attr).identity = 2 + (attr.identity.handle.length + 7) / 8 := rfl
  unfold wordsOfAttr wordsForAttr
  rw [identity]
  simp only [struct, length_cons, length_nil, sum_cons, sum_nil, buildAttr]
  cases attr.xattrNames with
  | none =>
    simp only [buildChoice, wordsOfNames]
    omega
  | some =>
    simp only [buildChoice, wordsOfNames, words_of_names]
    omega

theorem wordsOfEntry_build (entry : DirEntry) :
    wordsOfEntry (buildDirEntry entry) = 4 + (entry.name.length + 7) / 8 +
      (entry.attr.map fun attr => 16 + wordsForAttr attr).getD 0 := by
  have attr : wordsOfEntryAttr (buildDirEntry entry).attr =
      (entry.attr.map fun attr => 16 + wordsForAttr attr).getD 0 := by
    unfold buildDirEntry
    cases entry.attr with
    | none => rfl
    | some attr => exact wordsOfAttr_build attr
  unfold wordsOfEntry
  rw [attr]
  simp only [struct, blob, length_cons, length_nil, sum_cons, sum_nil, buildDirEntry]
  omega

theorem dirEntryBytes_eq (entry : DirEntry) :
    dirEntryBytes entry.name.length entry.attr = 8 * wordsOfEntry (buildDirEntry entry) := by
  rw [wordsOfEntry_build]
  unfold dirEntryBytes
  cases entry.attr with
  | none =>
    simp only [Option.map_none, Option.getD_none]
    omega
  | some attr =>
    simp only [Option.map_some, Option.getD_some, wordsForAttr]
    cases attr.xattrNames with
    | none =>
      simp only
      omega
    | some names =>
      have := bytes_of_names names
      simp only
      omega

theorem responseWords_readdir (entries : List DirEntry) (atEnd : Bool) :
    8 * responseWords (buildResponse (.readdir entries atEnd)) = 40 + pageBytes entries := by
  have sum : 8 * (entries.map fun entry => wordsOfEntry (buildDirEntry entry)).sum = pageBytes entries := by
    rw [← sum_map_mul_left]
    congr 1
    exact map_congr_left fun entry _ => (dirEntryBytes_eq entry).symm
  have words : responseWords (buildResponse (.readdir entries atEnd)) =
      5 + ((entries.map buildDirEntry).map wordsOfEntry).sum := by
    simp only [responseWords, buildResponse, wordsOfPayload, message, struct, structList, length_cons,
      length_nil, sum_cons, sum_nil]
    omega
  rw [map_map] at words
  change _ = 5 + (entries.map fun entry => wordsOfEntry (buildDirEntry entry)).sum at words
  omega

theorem responseWords_le_sizeHint (response : Response) :
    responseWords (Message.build response) ≤ Message.sizeHint response := by
  change message (struct 2 [wordsOfPayload (buildResponse response)]) ≤ baseWords + responseHint response
  have payload : wordsOfPayload (buildResponse response) ≤ 1 + responseHint response := by
    cases response with
    | entry | attr | opened =>
      simp only [buildResponse, wordsOfPayload, responseHint, wordsOfAttr_build, attrWords]
      omega
    | readlink | read | xattr =>
      simp only [buildResponse, wordsOfPayload, responseHint, blob, wordsFor]
      omega
    | readdir =>
      simp only [buildResponse, wordsOfPayload, responseHint, structList, map_map]
      refine Nat.add_le_add_left (sum_le_sum fun entry _ => ?_) 1
      simp only [Function.comp, wordsOfEntry_build, dirEntryWords, entryAttrWords]
      cases entry.attr with
      | none => simp
      | some =>
        simp only [Option.map_some, Option.getD_some]
        omega
    | statfs => exact Nat.le_add_left 7 2
    | _ => exact Nat.zero_le _
  simp only [message, struct, baseWords, length_cons, length_nil, sum_cons, sum_nil]
  omega

end Growth

section Budget

/-- What an entry takes at most: its name, its handle and its extended attributes' names. -/
def largestEntry : ℕ := 32 + 256 + (128 + 128 + 8 * (xattrNamesMax + 1))

theorem sum_splitOn (buf : Bytes) : ((buf.splitOn 0).map fun part => part.length + 1).sum = buf.length + 1 := by
  induction buf with
  | nil => rfl
  | cons _ buf ih =>
    rw [splitOn_cons_eq_if_modifyHead]
    split_ifs with separator
    · rw [map_cons, sum_cons, ih, length_nil, length_cons]
      omega
    · cases parts : buf.splitOn 0 with
      | nil => 
        rw [parts] at ih
        simp at ih
      | cons =>
        rw [parts, map_cons, sum_cons] at ih
        rw [modifyHead_cons, map_cons, sum_cons, length_cons, length_cons]
        omega

theorem collected_names {listed : Listed} {names : List Bytes} (taken : xattrNamesByPath listed = some names) :
    (names.map fun n => 8 + (n.length + 7) / 8 * 8).sum ≤ 8 * (xattrNamesMax + 1) := by
  cases listed with
  | error => cases taken
  | ok buf =>
    cases taken
    have sub : (((buf.val.splitOn 0).filter fun name => !name.isEmpty).map fun part => part.length + 1).sum ≤
        buf.val.length + 1 := by
      rw [← sum_splitOn]
      exact (filter_sublist.map _).sum_le_sum fun _ _ => Nat.zero_le _
    calc _ ≤ _ := sum_le_sum (g := fun part => 8 * (part.length + 1)) fun part _ => by omega
      _ = 8 * _ := sum_map_mul_left ..
      _ ≤ 8 * (xattrNamesMax + 1) :=
        Nat.mul_le_mul_left 8 (sub.trans (Nat.add_le_add_right buf.property 1))

theorem dirEntryBytes_le {nameLen : ℕ} {attr : Option Attr} (name : nameLen ≤ nameMax)
    (collected : ∀ a ∈ attr, Collected a) : dirEntryBytes nameLen attr ≤ largestEntry := by
  unfold dirEntryBytes largestEntry
  unfold nameMax at name
  cases attr with
  | none =>
    simp only
    omega
  | some attr =>
    obtain ⟨handle, listed, names⟩ := collected attr rfl
    unfold maxHandleSz at handle
    cases carried : attr.xattrNames with
    | none =>
      simp only [carried]
      omega
    | some =>
      have := collected_names (names.symm.trans carried)
      simp only [carried]
      omega

variable {dir : Directory} {call : Call dir} {maxBytes : ℕ}

section

variable (collects : ∀ name attr, call.attrEntry name = .ok attr → Collected attr)

include collects

theorem dirEntry_le {raw : RawDirent}
    {entry : DirEntry} (made : dirEntry call.attrEntry raw = .ok (some entry)) :
    dirEntryBytes entry.name.length entry.attr ≤ largestEntry := by
  unfold dirEntry at made
  by_cases dot : dots raw.name = true
  · rw [if_pos dot] at made
    cases made
    refine dirEntryBytes_le ?_ fun _ mem => nomatch mem
    change raw.name.length ≤ 255
    simp only [dots, Bool.or_eq_true, decide_eq_true_eq] at dot
    rcases dot with dot | dot <;> rw [dot] <;> decide
  · rw [if_neg dot] at made
    cases component : Name.new raw.name with
    | error =>
      rw [component] at made
      cases made
    | ok name =>
      rw [component] at made
      simp only at made
      cases described : call.attrEntry name with
      | error e =>
        rw [described] at made
        simp only at made
        cases failure : entryFailure e <;> rw [failure] at made <;> cases made
      | ok attr =>
        rw [described] at made
        cases made
        refine dirEntryBytes_le ?_ fun _ mem => ?_
        · rw [← Name.new_eq_ok.mp component]
          exact name.length_le
        · cases mem
          exact collects name attr described

/-- A page that still has room is within its budget, and one that is full has passed it by one entry. -/
theorem addEntries_within
    {raws : List RawDirent} {entries entries' : List DirEntry} {used used' : ℕ} {full : Bool}
    (exact_ : used = pageBytes entries) (within : used ≤ maxBytes)
    (added : addEntries call.attrEntry maxBytes raws entries used = .ok (entries', used', full)) :
    used' = pageBytes entries' ∧ used' ≤ maxBytes + largestEntry ∧ (full = false → used' ≤ maxBytes) := by
  fun_induction addEntries call.attrEntry maxBytes raws entries used with
  | case1 =>
    cases added
    exact ⟨exact_, by omega, fun _ => within⟩
  | case2 => cases added
  | case3 _ _ _ _ _ ih => exact ih exact_ within added
  | case4 _ _ entries _ entry made total =>
    obtain ⟨rfl, rfl, rfl⟩ : entries ++ [entry] = entries' ∧ total = used' ∧ true = full := by
      simpa using added
    have := dirEntry_le collects made
    exact ⟨by rw [pageBytes_append, ← exact_], by omega, fun not_full => nomatch not_full⟩
  | case5 _ _ _ _ _ _ _ _ ih =>
    exact ih (by rw [pageBytes_append, ← exact_]) (by omega) added

theorem readLoop_within
    {position : List Dirent} {entries : List DirEntry} {used : ℕ} {page : Listing}
    (exact_ : used = pageBytes entries) (within : used ≤ maxBytes)
    (read : readLoop call maxBytes position entries used = .ok page) :
    pageBytes page.entries ≤ maxBytes + largestEntry := by
  fun_induction readLoop call maxBytes position entries used with
  | case1 => cases read
  | case2 =>
    cases read
    rw [← exact_]
    exact within.trans (Nat.le_add_right _ _)
  | case3 => cases read
  | case4 _ _ _ _ _ _ _ _ _ added =>
    cases read
    obtain ⟨same, most, -⟩ := addEntries_within collects exact_ within added
    rw [← same]
    exact most
  | case5 _ _ _ _ _ _ _ _ _ added ih =>
    obtain ⟨same, -, within⟩ := addEntries_within collects exact_ within added
    exact ih same (within rfl) read

theorem readDir_within
    {offset : UInt64} {page : Listing} (read : readDir call offset maxBytes = .ok page) :
    pageBytes page.entries ≤ maxBytes + largestEntry := by
  unfold readDir at read
  cases sought : dir.seek offset with
  | error =>
    rw [sought] at read
    cases read
  | ok =>
    rw [sought] at read
    exact readLoop_within collects rfl (Nat.zero_le _) read

end

end Budget

def Parts (entries : List DirEntry) : Set WireSchema.Response :=
  { reply | ∃ front back atEnd, entries = front ++ back ∧ reply = Message.build (Response.readdir front atEnd) }

section Encoding

variable {capnp : Capnp WireSchema.Response} {entries : List DirEntry}

theorem sizeHint_le (entries : List DirEntry) (atEnd : Bool) :
    Message.sizeHint (Response.readdir entries atEnd) ≤ 32 + pageBytes entries := by
  refine Nat.add_le_add_left (sum_le_sum fun entry _ => ?_) 32
  have := wordsOfEntry_build entry
  rw [dirEntryBytes_eq]
  cases attr : entry.attr with
  | none =>
    simp only [Option.map_none, Option.getD_none, dirEntryWords] at this ⊢
    omega
  | some =>
    rw [attr] at this
    simp only [Option.map_some, Option.getD_some, dirEntryWords, entryAttrWords] at this ⊢
    omega

/-- A first part of a page that fits a frame is encoded as what its entries add up to. -/
theorem encode_part (lays : Lays capnp responseWords (Parts entries)) {front back : List DirEntry}
    (split : entries = front ++ back) (fits : 48 + pageBytes front ≤ maxFrame) (atEnd : Bool) :
    ∃ frame, encode capnp (Response.readdir front atEnd) = .ok frame ∧ frame.length = 52 + pageBytes front := by
  have hint := sizeHint_le front atEnd
  have words : 8 * responseWords (Message.build (Response.readdir front atEnd)) = 40 + pageBytes front :=
    responseWords_readdir front atEnd
  obtain ⟨segment, encoded, length⟩ := encode_of_lays lays (Response.readdir front atEnd)
    ⟨front, back, atEnd, split, rfl⟩ (responseWords_le_sizeHint _) (by unfold maxFrame at fits; omega)
  have short : 8 + segment.length ≤ maxFrame := by omega
  obtain ⟨frame, framed, total⟩ := frameOneSegment_of_le short
  exact ⟨frame, encoded.trans framed, by omega⟩

end Encoding

/-- Whatever is in a directory, each entry of a page makes the encoded reply longer by just what it is
budgeted for, and the reply with all of them is within the size of a frame. -/
theorem pages_fit_frames {dir : Directory} (call : Call dir) (offset : UInt64) (maxBytes : ℕ)
    (clamped : maxBytes ≤ maxIo)
    (collects : ∀ name attr, call.attrEntry name = .ok attr → Collected attr) (page : Listing)
    (read : readDir call offset maxBytes = .ok page) (capnp : Capnp WireSchema.Response)
    (lays : Lays capnp responseWords (Parts page.entries)) :
    (∀ front entry back atEnd, page.entries = front ++ entry :: back → ∃ before after,
      encode capnp (Response.readdir front atEnd) = .ok before ∧
        encode capnp (Response.readdir (front ++ [entry]) atEnd) = .ok after ∧
          after.length = before.length + dirEntryBytes entry.name.length entry.attr) ∧
    ∃ frame, encode capnp (Response.readdir page.entries page.atEnd) = .ok frame ∧
      (frame.drop 4).length ≤ maxFrame := by
  have most := readDir_within collects read
  have small : 48 + pageBytes page.entries ≤ maxFrame := by
    unfold maxIo at clamped
    unfold largestEntry xattrNamesMax at most
    unfold maxFrame
    omega
  refine ⟨fun front entry back atEnd split => ?_, ?_⟩
  · have parts : pageBytes (front ++ [entry]) ≤ pageBytes page.entries := by
      rw [split]
      simp [pageBytes]
    obtain ⟨before, encoded, length⟩ := encode_part lays split (by rw [pageBytes_append] at parts; omega) atEnd
    have split' : page.entries = (front ++ [entry]) ++ back := by
      rw [split, List.append_assoc, List.singleton_append]
    obtain ⟨after, encoded', length'⟩ := encode_part lays split' (by omega) atEnd
    exact ⟨before, after, encoded, encoded', by rw [length', length, pageBytes_append]; omega⟩
  · obtain ⟨frame, encoded, length⟩ := encode_part lays (List.append_nil _).symm small page.atEnd
    exact ⟨frame, encoded, by rw [List.length_drop]; omega⟩

def oneAttr : Attr :=
  ⟨1, 0, 0, ⟨0, 0⟩, ⟨0, 0⟩, ⟨0, 0⟩, .regular, 0, 1, 0, 0, 0, 0, none, ⟨1, [5]⟩, false⟩

def oneCall : Call oneFile :=
  ⟨fun _ => .ok 0, fun _ => .ok oneAttr, fun _ _ _ => rfl, fun _ _ h => (nomatch h)⟩

theorem readDir_oneFile : readDir oneCall 0 0 = .ok ⟨[⟨7, [97], some oneAttr⟩], false⟩ := by
  have filled : getdents64 oneCall oneFile.records = .ok ((oneFile.records.map Dirent.bytes).flatten, []) := rfl
  have made : dirEntry oneCall.attrEntry ⟨7, [97]⟩ = .ok (some ⟨7, [97], some oneAttr⟩) := by rfl
  have added : addEntries oneCall.attrEntry 0 (parse (oneFile.records.map Dirent.bytes).flatten) [] 0 =
      .ok ([⟨7, [97], some oneAttr⟩], 176, true) := by
    rw [parse_records]
    change addEntries oneCall.attrEntry 0 [⟨7, [97]⟩] [] 0 = _
    rw [addEntries, made]
    rfl
  change readLoop oneCall 0 oneFile.records [] 0 = _
  unfold readLoop
  split
  · rename_i e failed
    cases failed
  · rename_i buf later found
    rw [filled] at found
    cases found
    rw [dif_neg (by decide), added]

/-- The page with that file, in the frame of a builder that knows no other. -/
theorem pages_fit_frames_one : ∃ (page : Listing) (capnp : Capnp WireSchema.Response) (frame : Bytes),
    readDir oneCall 0 0 = .ok page ∧ page.entries.length = 1 ∧
      encode capnp (Response.readdir page.entries page.atEnd) = .ok frame ∧
        (frame.drop 4).length ≤ maxFrame := by
  let replies : List WireSchema.Response :=
    [.readdir [] true, .readdir [] false, .readdir [buildDirEntry ⟨7, [97], some oneAttr⟩] true,
      .readdir [buildDirEntry ⟨7, [97], some oneAttr⟩] false]
  have lays := lays_among responseWords (Parts [⟨7, [97], some oneAttr⟩]) replies
    (by decide) (by decide) (by decide) (by
      rintro _ ⟨front, back, atEnd, split, rfl⟩
      obtain ⟨rfl, -⟩ | ⟨_, same, none_⟩ := List.append_eq_cons_iff.mp split.symm
      · cases atEnd <;> decide
      · rw [same, (List.append_eq_nil_iff.mp none_.symm).1]
        cases atEnd <;> decide)
  have fits := (pages_fit_frames oneCall 0 0 (by decide) (fun _ _ described => by
    cases described
    exact ⟨by decide, .error 1, rfl⟩) _ readDir_oneFile _ lays).2
  obtain ⟨frame, encoded, length⟩ := fits
  exact ⟨_, _, frame, readDir_oneFile, rfl, encoded, length⟩

end JackalopeFs.PageSizes
