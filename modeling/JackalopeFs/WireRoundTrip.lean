import JackalopeFs.WireConversions

/-! # Parsing undoes building

For every message, what is parsed from what was built is the message again.  Two things
can stand in the way: a file handle longer than a parser takes, and a message with fewer
words than the elements of its lists of structs.  The first is a condition on the message,
the second is left to whoever knows how the message was laid out.
-/

namespace JackalopeFs.WireConversions

open List PathNames WireMessages

/-- How many elements the lists of structs in a message have. -/
class StructLists (Schema : Type) where
  elements : Schema → ℕ

/-- A message whose parser undoes its builder, if it is genuine and long enough for its lists. -/
class RoundTrip (T : Type) (Schema : outParam Type) [StructLists Schema]
    extends Message T Schema where
  genuine : T → Prop
  parse_build : ∀ (msg : T) (words : ℕ), genuine msg → StructLists.elements (build msg) ≤ words →
    parse (build msg) words = .ok msg

section Values

@[simp] theorem parseName_bytes (name : Name) : parseName name.bytes = .ok name := by
  have valid := name.valid
  unfold parseName Name.new
  split
  · rename_i error wrong
    rw [wrong] at valid
    cases valid
  · rfl

theorem name_length_pos (name : Name) : 0 < name.bytes.length := by
  have valid := name.valid
  unfold ErrorName.of at valid
  split_ifs at valid with empty
  rw [List.isEmpty_iff] at empty
  exact List.length_pos_iff.mpr empty

/-- Names whose joined length stays within the limit are read back one by one. -/
theorem parseNames_map_bytes {names : List Name} {joined : ℕ}
    (short : joined + (names.map fun name => name.bytes.length + 1).sum ≤ pathMax + 1) :
    parseNames joined (names.map Name.bytes) = .ok names := by
  induction names generalizing joined with
  | nil => rfl
  | cons name _ ih =>
    rw [map_cons, sum_cons] at short
    have within : ¬pathMax + 1 < joined + (name.bytes.length + 1) := by omega
    have later := @ih (joined + (name.bytes.length + 1)) (by omega)
    simp only [map_cons, parseNames, parseName_bytes, bind, Except.bind, within, if_false, later]
    rfl

theorem sum_lengths (names : List Name) :
    (names.map fun name => name.bytes.length + 1).sum =
      (names.map fun name => name.bytes.length).sum + names.length := by
  induction names with
  | nil => rfl
  | cons _ _ ih =>
    simp only [map_cons, sum_cons, length_cons, ih]
    omega

theorem length_le_sum (names : List Name) :
    names.length ≤ (names.map fun name => name.bytes.length).sum := by
  induction names with
  | nil => exact le_rfl
  | cons name =>
    have := name_length_pos name
    simp only [map_cons, sum_cons, length_cons]
    omega

@[simp] theorem parsePath_buildPath (path : Path) : parsePath (buildPath path) = .ok path := by
  have short := path.short
  have counted := length_le_sum path.names
  have lengths := sum_lengths path.names
  unfold byteLen pathMax at short
  have few : ¬maxPathComponents < (buildPath path).length := by
    simp only [buildPath, length_map, maxPathComponents, pathMax]
    omega
  have names : parseNames 0 (buildPath path) = .ok path.names :=
    parseNames_map_bytes (by unfold pathMax; omega)
  simp only [parsePath, few, if_false, names, bind, Except.bind, Path.fromNames_names]
  rfl

theorem parseChoice_buildChoice {α β : Type} (build : α → β) (parse : β → Except ErrorDecode α)
    (value : Option α) (undone : ∀ a ∈ value, parse (build a) = .ok a) :
    parseChoice parse (buildChoice build value) = .ok value := by
  cases value with
  | none => rfl
  | some a => simp [buildChoice, parseChoice, undone a rfl, Except.map]

theorem parseChoice_plain {α : Type} (value : Option α) :
    parseChoice (fun v => .ok v) (buildChoice (fun v => v) value) = .ok value :=
  parseChoice_buildChoice _ _ value fun _ _ => rfl

@[simp] theorem kindFromWire_kindToWire (kind : FileKind) :
    kindFromWire (kindToWire kind) = .ok kind := by
  cases kind <;> rfl

@[simp] theorem whenceFromWire_whenceToWire (whence : Whence) :
    whenceFromWire (whenceToWire whence) = .ok whence := by
  cases whence <;> rfl

def Identity.short (identity : Identity) : Prop :=
  identity.handle.length ≤ handleMax

theorem parseIdentity_buildIdentity {identity : Identity} (short : Identity.short identity) :
    parseIdentity (buildIdentity identity) = .ok identity := by
  unfold parseIdentity buildIdentity
  rw [if_neg (Nat.not_lt.mpr short)]

theorem parseAttr_buildAttr {attr : Attr} (short : Identity.short attr.identity) :
    parseAttr (buildAttr attr) = .ok attr := by
  simp only [parseAttr, buildAttr, kindFromWire_kindToWire, bind, Except.bind,
    parseIdentity_buildIdentity short, parseChoice_plain]
  rfl

theorem parseDirEntry_buildDirEntry {entry : DirEntry}
    (short : ∀ attr ∈ entry.attr, Identity.short attr.identity) :
    parseDirEntry (buildDirEntry entry) = .ok entry := by
  have attr := parseChoice_buildChoice buildAttr parseAttr entry.attr
    fun attr mem => parseAttr_buildAttr (short attr mem)
  simp only [parseDirEntry, buildDirEntry, bind, Except.bind, attr]
  rfl

theorem parseSetAttr_buildSetAttr (s : SetAttr) : parseSetAttr (buildSetAttr s) = .ok s := by
  have time : ∀ t, parseTimeOrNow (buildTimeOrNow t) = .ok t := by
    intro t
    cases t <;> rfl
  simp only [parseSetAttr, buildSetAttr, bind, Except.bind, parseChoice_plain,
    parseChoice_buildChoice _ _ s.atime fun t _ => time t,
    parseChoice_buildChoice _ _ s.mtime fun t _ => time t]
  rfl

@[simp] theorem resumeToken_bytes (token : Token) : resumeToken token.bytes = .ok token := by
  simp [resumeToken, token.sixteen]

theorem mapM_map {α β : Type} {build : α → β} {parse : β → Except ErrorDecode α} {list : List α}
    (undone : ∀ a ∈ list, parse (build a) = .ok a) : (list.map build).mapM parse = .ok list := by
  induction list with
  | nil => rfl
  | cons a _ ih =>
    have later := ih fun b mem => undone b (mem_cons_of_mem a mem)
    simp only [map_cons, mapM_cons, undone a mem_cons_self, later, bind, Except.bind]
    rfl

theorem checkedLen_ok {declared words : ℕ} (fits : declared ≤ words) :
    checkedLen declared words = .ok declared := by
  unfold checkedLen
  rw [if_neg (Nat.not_lt.mpr fits)]

end Values

instance : StructLists WireSchema.Hello := ⟨fun _ => 0⟩

instance : StructLists WireSchema.HelloReply := ⟨fun _ => 0⟩

instance : StructLists WireSchema.Request := ⟨fun _ => 0⟩

instance : StructLists WireSchema.Response where
  elements
    | .readdir entries _ => entries.length
    | _ => 0

instance : StructLists WireSchema.Event := ⟨fun event => event.items.length⟩

theorem parse_hello (hello : Hello) (words : ℕ) :
    Message.parse (Message.build hello) words = .ok hello := by
  obtain ⟨revision, auth, resume⟩ := hello
  have resumes := parseChoice_buildChoice
    (fun resume : Resume => (⟨resume.sessionId, resume.token.bytes⟩ : WireSchema.Resume))
    (fun res => (resumeToken res.token).map fun token => ⟨res.sessionId, token⟩) resume
    fun resume _ => by simp [Except.map]
  cases auth with
  | anonymous | token =>
    simp only [Message.build, Message.parse, bind, Except.bind, resumes]
    rfl

instance : RoundTrip Hello WireSchema.Hello where
  genuine _ := True
  parse_build hello words _ _ := parse_hello hello words

theorem fromUTF8?_toUTF8 (text : String) :
    String.fromUTF8? ⟨text.toUTF8.data.toList.toArray⟩ = some text := by
  rw [Array.toArray_toList]
  exact dif_pos text.isValidUTF8

/-- The identity of the export's root has a handle that a parser takes. -/
def HelloReply.short : HelloReply → Prop
  | .ack _ _ _ _ rootIdentity _ _ => Identity.short rootIdentity
  | _ => True

theorem parse_helloReply {reply : HelloReply} (short : HelloReply.short reply) (words : ℕ) :
    Message.parse (Message.build reply) words = .ok reply := by
  cases reply with
  | ack =>
    have identity := parseIdentity_buildIdentity short
    simp only [Message.build, Message.parse, bind, Except.bind, resumeToken_bytes, identity]
    rfl
  | reject => simp only [Message.build, Message.parse, fromUTF8?_toUTF8]
  | revisionMismatch => rfl

instance : RoundTrip HelloReply WireSchema.HelloReply where
  genuine := HelloReply.short
  parse_build _ words short _ := parse_helloReply short words

theorem parseRequest_buildRequest (req : Request) : parseRequest (buildRequest req) = .ok req := by
  cases req with
  | getattr path =>
    have paths := parseChoice_buildChoice _ _ path fun path _ => parsePath_buildPath path
    simp only [buildRequest, parseRequest, bind, Except.bind, paths, parseChoice_plain]
    rfl
  | setattr path =>
    have paths := parseChoice_buildChoice _ _ path fun path _ => parsePath_buildPath path
    simp only [buildRequest, parseRequest, bind, Except.bind, paths, parseChoice_plain,
      parseSetAttr_buildSetAttr]
    rfl
  | _ =>
    simp only [buildRequest, parseRequest, bind, Except.bind, pure, Except.pure, parsePath_buildPath,
      parseName_bytes, whenceFromWire_whenceToWire]

instance : RoundTrip Request WireSchema.Request where
  genuine _ := True
  parse_build req _ _ _ := parseRequest_buildRequest req

/-- The file identities in a reply have handles that a parser takes. -/
def Response.short : Response → Prop
  | .entry attr | .attr attr | .opened attr => Identity.short attr.identity
  | .readdir entries _ => ∀ entry ∈ entries, ∀ attr ∈ entry.attr, Identity.short attr.identity
  | _ => True

theorem parseResponse_buildResponse {resp : Response} {words : ℕ} (short : Response.short resp)
    (room : StructLists.elements (buildResponse resp) ≤ words) :
    parseResponse (buildResponse resp) words = .ok resp := by
  cases resp with
  | entry | attr | opened =>
    simp only [buildResponse, parseResponse, bind, Except.bind, parseAttr_buildAttr short]
    rfl
  | readdir entries =>
    have fits : checkedLen (entries.map buildDirEntry).length words = .ok _ := checkedLen_ok room
    have parsed := mapM_map fun entry mem => parseDirEntry_buildDirEntry (short entry mem)
    simp only [buildResponse, parseResponse, bind, Except.bind, fits, parsed]
    rfl
  | _ => rfl

instance : RoundTrip Response WireSchema.Response where
  genuine := Response.short
  parse_build _ _ := parseResponse_buildResponse

theorem parseItem_buildItem (item : EventItem) : parseItem (buildItem item) = .ok item := by
  cases item with
  | overflow => rfl
  | _ =>
    simp only [buildItem, parseItem, bind, Except.bind, pure, Except.pure, parsePath_buildPath,
      parseName_bytes]

theorem parse_event (event : Event) (words : ℕ) (room : event.items.length ≤ words) :
    Message.parse (Message.build event) words = .ok event := by
  obtain ⟨items, handles⟩ := event
  have fits : checkedLen (items.map buildItem).length words = .ok _ :=
    checkedLen_ok (by simpa using room)
  have parsed : (items.map buildItem).mapM parseItem = .ok items :=
    mapM_map fun item _ => parseItem_buildItem item
  simp only [Message.build, Message.parse, bind, Except.bind, fits, parsed, Option.map_map]
  cases handles <;> rfl

instance : RoundTrip Event WireSchema.Event where
  genuine _ := True
  parse_build event words _ room := parse_event event words
    (by simpa [StructLists.elements, Message.build] using room)

end JackalopeFs.WireConversions
