import JackalopeFs.OwnerIds

/-! # What the owner maps hide and keep

A POSIX ACL is its version and its entries, and `aclMap` changes nothing of them but
the ids of the named ones.  From that follow the two results about the maps: under
`flatten` two replies that differ only in owners other than the server's go out as one,
and an `owned` client and a `flatten` server understand each other.
-/

namespace JackalopeFs.OwnerIds

open LittleEndian Option PathNames WireMessages

section Acl

variable {value : Bytes} {entries : List AclEntry} (map : KindOwner → UInt32 → UInt32)

theorem asChunks_flatMap (entries : List AclEntry) :
    asChunks (entries.flatMap AclEntry.bytes) = (entries, []) := by
  induction entries with
  | nil => rfl
  | cons _ _ ih => simp [AclEntry.bytes, asChunks, ih]

theorem flatMap_asChunks (value : Bytes) :
    (asChunks value).1.flatMap AclEntry.bytes ++ (asChunks value).2 = value := by
  fun_induction asChunks value with
  | case1 _ _ _ _ _ _ _ _ _ chunks ih => simpa [AclEntry.bytes, chunks] using ih
  | case2 => rfl

theorem aclEntriesRaw_eq_some_iff :
    aclEntriesRaw value = some entries ↔
      ∃ version : Bytes, version.length = 4 ∧ ofBytes version = aclVersion ∧
        value = version ++ entries.flatMap AclEntry.bytes := by
  constructor
  · intro h
    unfold aclEntriesRaw at h
    simp only at h
    split_ifs at h with short shape
    cases h
    refine ⟨value.take 4, by simp only [List.length_take]; omega, shape.1, ?_⟩
    have whole := flatMap_asChunks (value.drop 4)
    rw [shape.2, List.append_nil] at whole
    rw [whole, List.take_append_drop]
  · rintro ⟨version, four, isTwo, rfl⟩
    unfold aclEntriesRaw
    rw [if_neg (by simp only [List.length_append]; omega), List.drop_left' four,
      List.take_left' four, asChunks_flatMap]
    simp [isTwo]

theorem AclEntry.id_withId (entry : AclEntry) (id : UInt32) : (entry.withId id).id = id := by
  have small := id.toNat_lt
  refine UInt32.toNat_inj.mp ?_
  simp only [AclEntry.withId, AclEntry.id, ofBytes, UInt8.toNat_ofNat', UInt32.toNat_ofNat']
  omega

theorem AclEntry.withId_id (entry : AclEntry) : entry.withId entry.id = entry := by
  obtain ⟨tag0, tag1, perm0, perm1, id0, id1, id2, id3⟩ := entry
  have small := And.intro (And.intro id0.toNat_lt id1.toNat_lt) (And.intro id2.toNat_lt id3.toNat_lt)
  simp only [AclEntry.withId, AclEntry.id, ofBytes, UInt32.toNat_ofNat', AclEntry.mk.injEq, true_and]
  refine ⟨?_, ?_, ?_, ?_⟩
  all_goals
    refine UInt8.toNat_inj.mp ?_
    rw [UInt8.toNat_ofNat']
    omega

theorem ownerOf_withId (entry : AclEntry) (id : UInt32) :
    ownerOf (entry.withId id) = (ownerOf entry).map fun owner => (owner.1, id) := by
  have tag : (entry.withId id).tag = entry.tag := rfl
  simp only [ownerOf, tag, AclEntry.id_withId]
  split_ifs <;> rfl

theorem ownerOf_mapEntry (entry : AclEntry) :
    ownerOf (mapEntry map entry) = (ownerOf entry).map fun owner => (owner.1, map owner.1 owner.2) := by
  unfold mapEntry
  cases named : ownerOf entry with
  | none => simpa using named
  | some => rw [ownerOf_withId, named]; rfl

theorem aclMap_of_entries (h : aclEntriesRaw value = some entries) :
    aclMap value map =
      (value.take 4 ++ (entries.map (mapEntry map)).flatMap AclEntry.bytes, true) := by
  unfold aclMap
  rw [h]
  obtain ⟨version, four, _, rfl⟩ := aclEntriesRaw_eq_some_iff.mp h
  rw [List.drop_left' four, asChunks_flatMap]
  simp

theorem aclEntriesRaw_aclMap (h : aclEntriesRaw value = some entries) :
    aclEntriesRaw (aclMap value map).1 = some (entries.map (mapEntry map)) := by
  rw [aclMap_of_entries map h]
  obtain ⟨version, four, isTwo, rfl⟩ := aclEntriesRaw_eq_some_iff.mp h
  rw [List.take_left' four]
  exact aclEntriesRaw_eq_some_iff.mpr ⟨version, four, isTwo, rfl⟩

theorem aclOwners_aclMap {named : List (KindOwner × UInt32)} (h : aclOwners value = some named) :
    aclOwners (aclMap value map).1 =
      some (named.map fun owner => (owner.1, map owner.1 owner.2)) := by
  obtain ⟨entries, found, rfl⟩ := map_eq_some_iff.mp h
  rw [aclOwners, aclEntriesRaw_aclMap map found, map_some, List.filterMap_map,
    List.map_filterMap]
  congr 1
  exact List.filterMap_congr fun entry _ => ownerOf_mapEntry map entry

theorem aclMap_of_not_acl (h : aclOwners value = none) : aclMap value map = (value, false) := by
  have raw : aclEntriesRaw value = none := by simpa [aclOwners] using h
  simp [aclMap, raw]

variable {entry : AclEntry}

theorem id_of_ownerOf {owner : KindOwner × UInt32} (h : ownerOf entry = some owner) :
    entry.id = owner.2 := by
  unfold ownerOf at h
  split_ifs at h <;> cases h <;> rfl

theorem mapEntry_mapEntry (next : KindOwner → UInt32 → UInt32) (entry : AclEntry) :
    mapEntry next (mapEntry map entry) = mapEntry (fun kind id => next kind (map kind id)) entry := by
  cases named : ownerOf entry with
  | none => simp [mapEntry, named]
  | some owner =>
    have again : ownerOf (entry.withId (map owner.1 owner.2)) =
        some (owner.1, map owner.1 owner.2) := by
      rw [ownerOf_withId, named]
      rfl
    simp only [mapEntry, named, again]
    rfl

theorem mapEntry_self (same : ∀ owner, ownerOf entry = some owner → map owner.1 owner.2 = owner.2) :
    mapEntry map entry = entry := by
  unfold mapEntry
  cases named : ownerOf entry with
  | none => rfl
  | some owner =>
    simp only [same owner named]
    rw [← id_of_ownerOf named]
    exact entry.withId_id

theorem aclMap_aclMap (next : KindOwner → UInt32 → UInt32) :
    (aclMap (aclMap value map).1 next).1 =
      (aclMap value fun kind id => next kind (map kind id)).1 := by
  cases found : aclEntriesRaw value with
  | none => simp [aclMap, found]
  | some entries =>
    rw [aclMap_of_entries next (aclEntriesRaw_aclMap map found), aclMap_of_entries map found,
      aclMap_of_entries _ found, List.map_map]
    obtain ⟨version, four, _, rfl⟩ := aclEntriesRaw_eq_some_iff.mp found
    rw [List.take_left' four, List.take_left' four]
    have same := List.map_congr_left (l := entries) fun entry _ =>
      mapEntry_mapEntry map next entry
    simp only [Function.comp_def, same]

theorem aclMap_self {named : List (KindOwner × UInt32)} (h : aclOwners value = some named)
    (same : ∀ owner ∈ named, map owner.1 owner.2 = owner.2) : (aclMap value map).1 = value := by
  obtain ⟨entries, found, rfl⟩ := map_eq_some_iff.mp h
  have kept : entries.map (mapEntry map) = entries := by
    refine (List.map_congr_left fun entry mem => ?_).trans (List.map_id entries)
    refine mapEntry_self map fun owner named => same owner ?_
    exact List.mem_filterMap.mpr ⟨entry, mem, named⟩
  rw [aclMap_of_entries map found, kept]
  obtain ⟨version, four, _, rfl⟩ := aclEntriesRaw_eq_some_iff.mp found
  rw [List.take_left' four]

/-- The position of a byte in an ACL is in the id of a named entry. -/
def inNamedId (value : Bytes) (i : ℕ) : Bool :=
  4 ≤ i && 4 ≤ (i - 4) % 8 &&
    ((asChunks (value.drop 4)).1[(i - 4) / 8]?.bind ownerOf).isSome

theorem getElem?_flatMap_bytes (entries : List AclEntry) (i : ℕ) :
    (entries.flatMap AclEntry.bytes)[i]? = entries[i / 8]?.bind fun entry => entry.bytes[i % 8]? := by
  induction entries generalizing i with
  | nil => simp
  | cons entry _ ih =>
    have eight : entry.bytes.length = 8 := rfl
    rw [List.flatMap_cons]
    by_cases first : i < 8
    · rw [List.getElem?_append_left (by omega), Nat.div_eq_of_lt first, Nat.mod_eq_of_lt first]
      rfl
    · rw [List.getElem?_append_right (by omega), eight, ih]
      have next : i / 8 = (i - 8) / 8 + 1 := by omega
      have place : i % 8 = (i - 8) % 8 := by omega
      rw [next, place, List.getElem?_cons_succ]

/-- Mapping an entry leaves its tag and permissions, and all of it if it names nobody. -/
theorem bytes_mapEntry {j : ℕ} (h : j < 4 ∨ ownerOf entry = none) :
    (mapEntry map entry).bytes[j]? = entry.bytes[j]? := by
  unfold mapEntry
  cases owner : ownerOf entry with
  | none => rfl
  | some =>
    have early : j < 4 := h.resolve_right (by simp [owner])
    match j, early with
    | 0, _ | 1, _ | 2, _ | 3, _ => rfl

/-- Mapping an ACL leaves every byte that is not in the id of a named entry. -/
theorem getElem?_aclMap {i : ℕ} (outside : inNamedId value i = false) :
    (aclMap value map).1[i]? = value[i]? := by
  cases found : aclEntriesRaw value with
  | none => simp [aclMap, found]
  | some entries =>
    rw [aclMap_of_entries map found]
    obtain ⟨version, four, _, rfl⟩ := aclEntriesRaw_eq_some_iff.mp found
    rw [List.take_left' four]
    by_cases front : i < 4
    · rw [List.getElem?_append_left (by omega), List.getElem?_append_left (by omega)]
    · rw [List.getElem?_append_right (by omega), List.getElem?_append_right (by omega), four,
        getElem?_flatMap_bytes, getElem?_flatMap_bytes, List.getElem?_map]
      cases there : entries[(i - 4) / 8]? with
      | none => rfl
      | some =>
        refine bytes_mapEntry map ?_
        simp only [inNamedId, List.drop_left' four, asChunks_flatMap, there, bind_some,
          Bool.and_eq_false_iff, decide_eq_false_iff_not] at outside
        rcases outside with (early | early) | unnamed
        · omega
        · exact .inl (by omega)
        · exact .inr (by simpa using unnamed)

end Acl

/-- The request sets owners: it is a `setattr`, or sets a POSIX ACL. -/
def setsOwners : Request → Bool
  | .setattr .. => true
  | .setxattr _ name _ _ => isPosixAcl name
  | _ => false

/-- The owners a request names; none at all if it sets a POSIX ACL that is not one. -/
def namedOwners : Request → Option (List (KindOwner × UInt32))
  | .setattr _ _ set =>
    some (set.uid.toList.map (fun id => (.user, id)) ++ set.gid.toList.map fun id => (.group, id))
  | .setxattr _ name value _ => if isPosixAcl name then aclOwners value else some []
  | _ => some []

def mapOwners (map : KindOwner → UInt32 → UInt32) : Request → Request
  | .setattr path fh set =>
    .setattr path fh { set with uid := set.uid.map (map .user), gid := set.gid.map (map .group) }
  | .setxattr path name value flags =>
    .setxattr path name (if isPosixAcl name then (aclMap value map).1 else value) flags
  | req => req

theorem namedOwners_mapOwners (map : KindOwner → UInt32 → UInt32) {req : Request}
    {named : List (KindOwner × UInt32)} (h : namedOwners req = some named) :
    namedOwners (mapOwners map req) = some (named.map fun owner => (owner.1, map owner.1 owner.2)) := by
  cases req with
  | setattr _ _ set =>
    cases h
    cases uid : set.uid <;> cases gid : set.gid <;> simp [namedOwners, mapOwners, uid, gid]
  | setxattr =>
    simp only [namedOwners, mapOwners] at h ⊢
    split_ifs at h ⊢ with acl
    · exact aclOwners_aclMap map h
    · cases h
      rfl
  | _ =>
    cases h
    rfl

section Flatten

variable {m : IdMap}

/-- Two ids that `flatten` makes one: the same, or both other than the server's own. -/
def IdMap.Alike (m : IdMap) (kind : KindOwner) (a b : UInt32) : Prop :=
  a = b ∨ (a ≠ m.own kind ∧ b ≠ m.own kind)

/-- The attributes are equal but for owners that are alike. -/
structure IdMap.AttrsAlike (m : IdMap) (a b : Attr) : Prop where
  uid : m.Alike .user a.uid b.uid
  gid : m.Alike .group a.gid b.gid
  rest : { b with uid := a.uid, gid := a.gid } = a

/-- The entries of a listing are equal but for owners that are alike. -/
inductive IdMap.ListedAlike (m : IdMap) : DirEntry → DirEntry → Prop where
  | same (entry : DirEntry) : ListedAlike m entry entry
  | described (nextOffset : UInt64) (name : Bytes) (a b : Attr) (alike : m.AttrsAlike a b) :
      ListedAlike m ⟨nextOffset, name, some a⟩ ⟨nextOffset, name, some b⟩

/-- The entries of an ACL are equal but for ids that are alike, of owners that they name. -/
inductive IdMap.NamedAlike (m : IdMap) : AclEntry → AclEntry → Prop where
  | same (entry : AclEntry) : NamedAlike m entry entry
  | named (entry : AclEntry) (kind : KindOwner) (a b : UInt32) (names : ownerOf entry = some (kind, a))
      (alike : m.Alike kind a b) : NamedAlike m entry (entry.withId b)

/-- The replies are equal but for owners that are alike; `acl` says they are values of a POSIX ACL. -/
inductive IdMap.RepliesAlike (m : IdMap) (acl : Bool) : Response → Response → Prop where
  | same (resp : Response) : RepliesAlike m acl resp resp
  | entry (a b : Attr) (alike : m.AttrsAlike a b) : RepliesAlike m acl (.entry a) (.entry b)
  | attr (a b : Attr) (alike : m.AttrsAlike a b) : RepliesAlike m acl (.attr a) (.attr b)
  | opened (a b : Attr) (alike : m.AttrsAlike a b) : RepliesAlike m acl (.opened a) (.opened b)
  | readdir (a b : List DirEntry) (end' : Bool) (alike : List.Forall₂ m.ListedAlike a b) :
      RepliesAlike m acl (.readdir a end') (.readdir b end')
  | xattr (version : Bytes) (a b : List AclEntry) (isAcl : acl = true) (four : version.length = 4)
      (isTwo : ofBytes version = aclVersion) (alike : List.Forall₂ m.NamedAlike a b) :
      RepliesAlike m acl (.xattr (version ++ a.flatMap AclEntry.bytes))
        (.xattr (version ++ b.flatMap AclEntry.bytes))

theorem flattened_eq {kind : KindOwner} {a b : UInt32} (alike : m.Alike kind a b) :
    m.flattened kind a = m.flattened kind b := by
  rcases alike with rfl | ⟨otherA, otherB⟩
  · rfl
  · simp [IdMap.flattened, otherA, otherB]

theorem mapAttr_eq {a b : Attr} (alike : m.AttrsAlike a b) :
    mapAttr m.flattened a = mapAttr m.flattened b := by
  rw [← alike.rest]
  simp only [mapAttr, flattened_eq alike.uid, flattened_eq alike.gid]

theorem mapEntry_eq (x y : AclEntry) (alike : m.NamedAlike x y) :
    mapEntry m.flattened x = mapEntry m.flattened y := by
  cases alike with
  | same => rfl
  | named kind _ b names alike =>
    have names' : ownerOf (x.withId b) = some (kind, b) := by
      rw [ownerOf_withId, names]
      rfl
    simp only [mapEntry, names, names', flattened_eq alike]
    rfl

theorem map_eq_of_forall₂ {α β : Type*} {R : α → α → Prop} {f : α → β}
    (same : ∀ a b, R a b → f a = f b) {as bs : List α} (h : List.Forall₂ R as bs) :
    as.map f = bs.map f := by
  induction h with
  | nil => rfl
  | cons head _ ih => simp only [List.map_cons, same _ _ head, ih]

theorem mapReply_eq {acl : Bool} {a b : Response} (alike : m.RepliesAlike acl a b) :
    mapReply a acl m.flattened = mapReply b acl m.flattened := by
  cases alike with
  | same => rfl
  | entry _ _ alike | attr _ _ alike | opened _ _ alike => simp only [mapReply, mapAttr_eq alike]
  | readdir a b _ alike =>
    simp only [mapReply]
    congr 1
    refine map_eq_of_forall₂ (fun e f listed => ?_) alike
    cases listed with
    | same => rfl
    | described _ _ _ _ alike => simp only [map_some, mapAttr_eq alike]
  | xattr version _ _ isAcl four isTwo alike =>
    have parses : ∀ entries, aclEntriesRaw (version ++ entries.flatMap AclEntry.bytes) = some entries :=
      fun entries => aclEntriesRaw_eq_some_iff.mpr ⟨version, four, isTwo, rfl⟩
    simp only [mapReply, isAcl, if_true, aclMap_of_entries m.flattened (parses _),
      List.take_left' four, map_eq_of_forall₂ mapEntry_eq alike]

theorem named_of_admits (flatten : m.mode = .flatten) {req : Request} (admitted : m.admits req = .ok ()) :
    ∃ named, namedOwners req = some named ∧ ∀ owner ∈ named, owner.2 = m.own owner.1 := by
  have notDirect : m.mode ≠ .direct := by simp [flatten]
  cases req with
  | setattr _ _ set =>
    refine ⟨_, rfl, fun owner mem => ?_⟩
    simp only [IdMap.admits, if_neg notDirect] at admitted
    split_ifs at admitted with foreign
    simp only [Bool.or_eq_true, any_eq_true, not_or, not_exists, not_and,
      decide_eq_true_eq, not_not] at foreign
    rcases List.mem_append.mp mem with mem | mem
    all_goals
      obtain ⟨id, set, rfl⟩ := List.mem_map.mp mem
      rw [mem_toList] at set
    · exact foreign.1 id set
    · exact foreign.2 id set
  | setxattr _ _ value =>
    simp only [IdMap.admits, if_neg notDirect, namedOwners] at admitted ⊢
    split_ifs at admitted ⊢ with acl
    · cases parsed : aclOwners value with
      | none => rw [parsed] at admitted; cases admitted
      | some named =>
        rw [parsed] at admitted
        simp only at admitted
        split_ifs at admitted with all
        exact ⟨named, rfl, fun owner mem => by simpa using List.all_eq_true.mp all owner mem⟩
    · exact ⟨[], rfl, by simp⟩
  | _ => exact ⟨[], rfl, by simp⟩

/-- Under `flatten` no answer tells apart two outcomes of a request that differ only in owners other
than the server's own, and no request is let through that names such an owner or sets an ACL that is
not one. -/
theorem flatten_hides_owners (flatten : m.mode = .flatten) (req : Request) :
    (∀ a b, m.RepliesAlike (readsPosixAcl req) a b →
      m.reply (readsPosixAcl req) a = m.reply (readsPosixAcl req) b ∧
        dispatch m req (.ok a) = dispatch m req (.ok b)) ∧
      (m.admits req = .ok () →
        ∃ named, namedOwners req = some named ∧ ∀ owner ∈ named, owner.2 = m.own owner.1) := by
  refine ⟨fun a b alike => ?_, named_of_admits flatten⟩
  have replies : m.reply (readsPosixAcl req) a = m.reply (readsPosixAcl req) b := by
    simp only [IdMap.reply, flatten, if_true, mapReply_eq alike]
  exact ⟨replies, by simp only [dispatch, replies]⟩

/-- A file of user 7 and one of user 8 are one and the same to a client of a server that runs as 1000. -/
theorem flatten_hides_owners_attr :
    let m : IdMap := ⟨.flatten, 1000, 1000⟩
    let attr : UInt32 → Attr := fun uid =>
      ⟨5, 0, 0, ⟨0, 0⟩, ⟨0, 0⟩, ⟨0, 0⟩, .regular, 0o644, 1, uid, 1000, 0, 4096, none, ⟨1, [5]⟩, false⟩
    dispatch m (.getattr none (some 3)) (.ok (.attr (attr 7))) =
      dispatch m (.getattr none (some 3)) (.ok (.attr (attr 8))) := by
  intro m attr
  refine ((flatten_hides_owners (rfl : m.mode = .flatten) (.getattr none (some 3))).1 _ _ ?_).2
  exact .attr _ _ ⟨Or.inr ⟨by decide, by decide⟩, Or.inl rfl, rfl⟩

end Flatten

section Owned

variable {o : Owned} {m : IdMap}

/-- What goes out for a request: it in server terms, or as it is if it carries no owner. -/
def Owned.sends (o : Owned) (req : Request) : Except Unmapped Request :=
  (o.outgoing req).map fun mapped => mapped.getD req

theorem outgoingId_ok {kind : KindOwner} {id : Option UInt32} (h : ∀ i ∈ id, i = (o.pair kind).2) :
    o.outgoingId kind id = .ok (id.map fun _ => (o.pair kind).1) := by
  cases id with
  | none => rfl
  | some i => simp [Owned.outgoingId, Owned.toServer, h i rfl, Except.map]

theorem outgoingId_error {kind : KindOwner} {id : Option UInt32} {i : UInt32} (mem : i ∈ id)
    (other : i ≠ (o.pair kind).2) : o.outgoingId kind id = .error .unmapped := by
  cases mem
  simp [Owned.outgoingId, Owned.toServer, other, Except.map]

variable {named : List (KindOwner × UInt32)}

/-- A request whose owners are all local goes out with the server's in their place. -/
theorem sends_local {req : Request} (h : namedOwners req = some named)
    (all : ∀ owner ∈ named, owner.2 = (o.pair owner.1).2) :
    o.sends req = .ok (mapOwners (fun kind _ => (o.pair kind).1) req) := by
  cases req with
  | setattr _ _ set =>
    cases h
    have uid : ∀ i ∈ set.uid, i = (o.pair .user).2 := fun i mem =>
      all (.user, i) (List.mem_append_left _ (List.mem_map.mpr ⟨i, mem_toList.mpr mem, rfl⟩))
    have gid : ∀ i ∈ set.gid, i = (o.pair .group).2 := fun i mem =>
      all (.group, i) (List.mem_append_right _ (List.mem_map.mpr ⟨i, mem_toList.mpr mem, rfl⟩))
    simp only [Owned.sends, Owned.outgoing, outgoingId_ok uid, outgoingId_ok gid, mapOwners]
    split_ifs with carries
    · rfl
    · simp only [Bool.or_eq_true, not_or, Bool.not_eq_true, isSome_eq_false_iff,
        isNone_iff_eq_none] at carries
      obtain ⟨mode, setUid, setGid, size, atime, mtime⟩ := set
      obtain ⟨rfl, rfl⟩ : setUid = none ∧ setGid = none := carries
      rfl
  | setxattr =>
    simp only [namedOwners] at h
    split_ifs at h with acl
    · have allowed : named.all (fun owner => (o.toServer owner.1 owner.2).isOk) = true := by
        refine List.all_eq_true.mpr fun owner mem => ?_
        simp [Owned.toServer, all owner mem, Except.isOk, Except.toBool]
      simp [Owned.sends, Owned.outgoing, acl, h, allowed, mapOwners, Except.map]
    · simp [Owned.sends, Owned.outgoing, acl, mapOwners, Except.map]
  | _ => rfl

theorem sends_refused {req : Request} (h : namedOwners req = some named)
    {owner : KindOwner × UInt32} (mem : owner ∈ named) (other : owner.2 ≠ (o.pair owner.1).2) :
    o.sends req = .error .unmapped := by
  cases req with
  | setattr _ _ set =>
    cases h
    rcases List.mem_append.mp mem with mem | mem
    all_goals
      obtain ⟨id, set', rfl⟩ := List.mem_map.mp mem
      rw [mem_toList] at set'
      have carries : (set.uid.isSome || set.gid.isSome) = true := by simp [mem_def.mp set']
      simp only [Owned.sends, Owned.outgoing, carries, if_true]
    · simp [outgoingId_error set' other, Except.map]
    · rw [outgoingId_error set' other]
      cases first : o.outgoingId .user set.uid <;> simp [Except.map]
  | setxattr =>
    simp only [namedOwners] at h
    split_ifs at h with acl
    · have refused : named.all (fun owner => (o.toServer owner.1 owner.2).isOk) = false := by
        refine List.all_eq_false.mpr ⟨owner, mem, ?_⟩
        simp [Owned.toServer, other, Except.isOk, Except.toBool]
      simp [Owned.sends, Owned.outgoing, acl, h, refused, Except.map]
    · cases h
      cases mem
  | _ =>
    cases h
    cases mem

theorem admits_own (flatten : m.mode = .flatten) {req : Request} (sets : setsOwners req = true)
    (h : namedOwners req = some named) (own : ∀ owner ∈ named, owner.2 = m.own owner.1) :
    m.admits req = .ok () := by
  have notDirect : m.mode ≠ .direct := by simp [flatten]
  cases req with
  | setattr =>
    cases h
    simp only [IdMap.admits, if_neg notDirect]
    rw [if_neg]
    simp only [Bool.or_eq_true, any_eq_true, decide_eq_true_eq, not_or, not_exists, not_and,
      not_not]
    refine ⟨fun id set' => ?_, fun id set' => ?_⟩
    · exact own (.user, id)
        (List.mem_append_left _ (List.mem_map.mpr ⟨id, mem_toList.mpr set', rfl⟩))
    · exact own (.group, id)
        (List.mem_append_right _ (List.mem_map.mpr ⟨id, mem_toList.mpr set', rfl⟩))
  | setxattr _ name value =>
    have acl : isPosixAcl name = true := sets
    have parsed : aclOwners value = some named := by simpa [namedOwners, acl] using h
    have all : named.all (fun owner => owner.2 = m.own owner.1) = true :=
      List.all_eq_true.mpr fun owner mem => decide_eq_true (own owner mem)
    simp [IdMap.admits, notDirect, acl, parsed, all]
  | _ => cases sets

/-- What the server stores of a local owner is shown as the local owner again. -/
theorem toLocal_flattened (own : ∀ kind, m.own kind = (o.pair kind).1) (kind : KindOwner) :
    o.toLocal kind (m.flattened kind (o.pair kind).1) = (o.pair kind).2 := by
  simp [Owned.toLocal, IdMap.flattened, own]

theorem incoming_acl (flatten : m.mode = .flatten) {path : Path} {name value : Bytes}
    (acl : isPosixAcl name = true) :
    o.incoming (.getxattr path name) (dispatch m (.getxattr path name) (.ok (.xattr value))) =
      .xattr (aclMap value fun kind id => o.toLocal kind (m.flattened kind id)).1 := by
  rw [← aclMap_aclMap]
  simp [Owned.incoming, dispatch, IdMap.admits, IdMap.reply, mapReply, readsPosixAcl, acl, flatten]

/-- An `owned` client and a `flatten` server of the same ids agree.  A request that sets owners goes
out with the server's ids, which the server admits, if all it names are local, and does not go out
otherwise.  An ACL of local owners is read back as it was set.  And mapping an ACL maps its owners and
changes no byte outside the ids of named entries; what is not an ACL is left as it is. -/
theorem owned_meets_flatten (flatten : m.mode = .flatten) (uid : m.uid = o.serverUid)
    (gid : m.gid = o.serverGid) :
    (∀ req named, setsOwners req = true → namedOwners req = some named →
      ((∀ owner ∈ named, owner.2 = (o.pair owner.1).2) →
        ∃ sent, o.sends req = .ok sent ∧ sent = mapOwners (fun kind _ => (o.pair kind).1) req ∧
          namedOwners sent = some (named.map fun owner => (owner.1, (o.pair owner.1).1)) ∧
          m.admits sent = .ok ()) ∧
      (¬(∀ owner ∈ named, owner.2 = (o.pair owner.1).2) → o.sends req = .error .unmapped)) ∧
    (∀ path name value flags named, isPosixAcl name = true → aclOwners value = some named →
      (∀ owner ∈ named, owner.2 = (o.pair owner.1).2) →
      ∃ stored, o.sends (.setxattr path name value flags) = .ok (.setxattr path name stored flags) ∧
        o.incoming (.getxattr path name) (dispatch m (.getxattr path name) (.ok (.xattr stored))) =
          .xattr value) ∧
    ∀ value map,
      (aclOwners value = none → aclMap value map = (value, false)) ∧
      (∀ named, aclOwners value = some named → (aclMap value map).2 = true ∧
        aclOwners (aclMap value map).1 =
          some (named.map fun owner => (owner.1, map owner.1 owner.2))) ∧
      ∀ i, inNamedId value i = false → (aclMap value map).1[i]? = value[i]? := by
  have own : ∀ kind, m.own kind = (o.pair kind).1 := by
    intro kind
    cases kind
    · exact uid
    · exact gid
  refine ⟨fun req named sets names => ⟨fun all => ?_, fun some' => ?_⟩,
    fun path name value flags named acl names all => ?_, fun value map => ⟨aclMap_of_not_acl map,
      fun named names => ⟨?_, aclOwners_aclMap map names⟩, fun i => getElem?_aclMap map⟩⟩
  · have mapped := namedOwners_mapOwners (fun kind _ => (o.pair kind).1) names
    refine ⟨_, sends_local names all, rfl, mapped, admits_own flatten ?_ mapped fun owner mem => ?_⟩
    · cases req <;> exact sets
    · obtain ⟨before, _, rfl⟩ := List.mem_map.mp mem
      exact (own before.1).symm
  · simp only [not_forall] at some'
    obtain ⟨owner, mem, other⟩ := some'
    exact sends_refused names mem other
  · have names' : namedOwners (.setxattr path name value flags) = some named := by
      simpa [namedOwners, acl] using names
    refine ⟨(aclMap value fun kind _ => (o.pair kind).1).1, ?_, ?_⟩
    · rw [sends_local names' all]
      simp [mapOwners, acl]
    · rw [incoming_acl flatten acl, aclMap_aclMap]
      refine congrArg Response.xattr (aclMap_self _ names fun owner mem => ?_)
      rw [toLocal_flattened own, all owner mem]
  · obtain ⟨entries, found, _⟩ := Option.map_eq_some_iff.mp names
    rw [aclMap_of_entries map found]

/-- An ACL that names the local user, set by a client whose server runs as another user. -/
theorem owned_meets_flatten_acl :
    let o : Owned := ⟨1005, 1005, 1000, 100⟩
    let m : IdMap := ⟨.flatten, 1005, 1005⟩
    let name := ascii "system.posix_acl_access"
    let acl : Bytes := [2, 0, 0, 0, 2, 0, 6, 0, 232, 3, 0, 0, 32, 0, 4, 0, 255, 255, 255, 255]
    ∃ stored, o.sends (.setxattr .root name acl 0) = .ok (.setxattr .root name stored 0) ∧
      o.incoming (.getxattr .root name) (dispatch m (.getxattr .root name) (.ok (.xattr stored))) =
        .xattr acl := by
  intro o m name acl
  exact (@owned_meets_flatten o m rfl rfl rfl).2.1 .root name acl 0 [(.user, 1000)]
    (by decide) (by decide) (by decide)

end Owned

end JackalopeFs.OwnerIds
