import JackalopeFs.DirectoryPages

/-! # The kernel sees the server's listing

Whatever a handle keeps is true of a directory that does not change: the buffer is what follows its
first cookie, and nothing follows the remembered end.  So each read hands the kernel the next entries of
the listing, whether they come from the buffer, from the remembered end or from the server.
-/

namespace JackalopeFs.DirectoryPages

open DirectoryListing List NodeTable PathNames WireMessages

def Handed.raw (item : Handed) : RawDirent :=
  ⟨item.nextOffset, item.name⟩

/-- An entry as a server makes it: one of the dots, or a name that has attributes. -/
def Made (entry : DirEntry) : Prop :=
  dots entry.name = true ∨
    dots entry.name = false ∧ (∃ attr, entry.attr = some attr) ∧ ∃ name, Name.new entry.name = .ok name

variable {entry : DirEntry}

theorem made_of_dirEntry {attrEntry : Name → Except Errno Attr}
    (h : dirEntry attrEntry (rawOf entry) = .ok (some entry)) : Made entry := by
  unfold dirEntry at h
  by_cases dot : dots entry.name = true
  · exact .inl dot
  · rw [rawOf, if_neg dot] at h
    refine .inr ⟨eq_false_of_ne_true dot, ?_⟩
    cases component : Name.new entry.name with
    | error =>
      rw [component] at h
      cases h
    | ok name =>
      rw [component] at h
      simp only at h
      cases described : attrEntry name with
      | ok attr =>
        rw [described] at h
        have same := Option.some.inj (Except.ok.inj h)
        exact ⟨⟨attr, by rw [← same]⟩, name, rfl⟩
      | error e =>
        rw [described] at h
        simp only at h
        cases failure : entryFailure e with
        | error =>
          rw [failure] at h
          cases h
        | ok =>
          rw [failure] at h
          cases h

theorem plainItem_made {nodes : Nodes} {ino parent : ℕ} (made : Made entry) {item : Option Handed}
    (h : plainItem nodes ino parent entry = some item) :
    ∃ handed, item = some handed ∧ handed.raw = rawOf entry := by
  unfold plainItem at h
  cases number : nodes.plainNumber ino parent entry.name (entry.attr.map seenOf) with
  | none =>
    unfold Nodes.plainNumber at number
    split_ifs at number with one two
    cases made with
    | inl dot => simp [dots, one, two] at dot
    | inr described =>
      obtain ⟨-, ⟨attr, has⟩, -⟩ := described
      rw [has] at number
      cases number
  | some n =>
    rw [number] at h
    obtain ⟨n, _, rfl⟩ := Option.map_eq_some_iff.mp h
    exact ⟨_, rfl, rfl⟩

theorem plusItem_made {nodes : Nodes} {ino : ℕ} (made : Made entry) {item : Option Handed}
    (h : plusItem nodes ino entry = some item) :
    ∃ handed, item = some handed ∧ handed.raw = rawOf entry := by
  unfold plusItem at h
  split_ifs at h with one two
  · cases h
    exact ⟨_, rfl, rfl⟩
  · cases h
    exact ⟨_, rfl, rfl⟩
  · cases made with
    | inl dot => simp [dots, one, two] at dot
    | inr described =>
      obtain ⟨-, ⟨attr, has⟩, name, valid⟩ := described
      rw [has, valid] at h
      obtain ⟨n, _, rfl⟩ := Option.map_eq_some_iff.mp h
      exact ⟨_, rfl, rfl⟩

def cookieAfter {T : Type} (next : T → UInt64) (first : UInt64) (entries : List T) : UInt64 :=
  (entries.getLast?.map next).getD first

theorem cookieAfter_cons {T : Type} (next : T → UInt64) (first : UInt64) (e : T) (es : List T) :
    cookieAfter next first (e :: es) = cookieAfter next (next e) es := by
  cases es with
  | nil => rfl
  | cons => simp [cookieAfter, getLast?_cons]

/-- Handing out a page takes a first part of it, which is not empty if the page is not and the kernel's
buffer is. -/
theorem addAll_spec {plus : Bool} {item : DirEntry → Option (Option Handed)}
    (lists : ∀ entry made, Made entry → item entry = some made →
      ∃ handed, made = some handed ∧ handed.raw = rawOf entry)
    {entries : List DirEntry} (made : ∀ entry ∈ entries, Made entry) {cookie : UInt64}
    {reply reply' : Reply} {rest : Option DirBuffer}
    (h : addAll plus item reply (tagWithCookies DirEntry.nextOffset cookie entries) = some (reply', rest)) :
    ∃ taken left items, entries = taken ++ left ∧ reply'.items = reply.items ++ items ∧
      items.map Handed.raw = taken.map rawOf ∧
      rest.getD [] = tagWithCookies DirEntry.nextOffset
        (cookieAfter DirEntry.nextOffset cookie taken) left ∧
      ((∀ entry ∈ entries, reply.size + entrySize plus entry.name.length ≤ reply.maxSize) →
        taken = [] → left = []) := by
  induction entries generalizing cookie reply with
  | nil =>
    cases h
    exact ⟨[], [], [], rfl, (append_nil _).symm, rfl, rfl, fun _ _ => rfl⟩
  | cons entry entries ih =>
    simp only [tagWithCookies, addAll] at h
    cases listed : item entry with
    | none =>
      rw [listed] at h
      cases h
    | some found =>
      obtain ⟨handed, rfl, raw⟩ := lists entry found (made entry mem_cons_self) listed
      rw [listed] at h
      simp only at h
      have length : handed.name.length = entry.name.length :=
        congrArg (fun raw => raw.name.length) raw
      cases added : reply.add plus handed with
      | none =>
        rw [added] at h
        cases h
        refine ⟨[], entry :: entries, [], rfl, (append_nil _).symm, rfl, rfl, fun room _ => ?_⟩
        have fits := room entry mem_cons_self
        rw [← length] at fits
        rw [Reply.add, if_neg (by omega)] at added
        cases added
      | some next =>
        rw [added] at h
        obtain ⟨taken, left, items, split, all, raws, stash, -⟩ :=
          ih (fun e mem => made e (mem_cons_of_mem _ mem)) h
        have put : next.items = reply.items ++ [handed] := by
          simp only [Reply.add] at added
          split_ifs at added
          cases added
          rfl
        refine ⟨entry :: taken, left, handed :: items, by rw [split]; rfl, ?_, ?_, ?_,
          fun _ none => (nomatch none)⟩
        · rw [all, put, append_assoc]
          rfl
        · rw [map_cons, map_cons, raw, raws]
        · rw [stash, cookieAfter_cons]

section Reading

variable {dir : Directory} {attrTtl : ℕ} {s s' : DirState} {offset : UInt64} {rest : List RawDirent}

/-- The page, with its cookies, is the next part of what is left at this offset. -/
structure Next (dir : Directory) (offset : UInt64) (page : DirBuffer) (entries : List DirEntry)
    (more : List RawDirent) : Prop where
  tagged : page = tagWithCookies DirEntry.nextOffset offset entries
  leads : dir.At offset (entries.map rawOf ++ more)
  made : ∀ entry ∈ entries, Made entry

structure Held (dir : Directory) (s : DirState) : Prop where
  buffer : ∃ offset entries more, Next dir offset s.buffer entries more
  ended : ∀ offset, s.endAt = some offset → dir.At offset []

theorem next_nil (dir : Directory) : ∃ offset entries more, Next dir offset [] entries more :=
  ⟨0, [], dir.listing, rfl, dir.at_start, fun _ mem => absurd mem not_mem_nil⟩

theorem held_new (dir : Directory) (ino now : ℕ) : Held dir (.new ino now) :=
  ⟨next_nil dir, fun _ ended => (nomatch ended)⟩

theorem Held.cleared (h : Held dir s) : Held dir { s with buffer := [] } :=
  ⟨next_nil dir, h.ended⟩

variable {page : DirBuffer} {more : List RawDirent}

theorem Held.stash (h : Held dir s) {entries : List DirEntry}
    (next : Next dir offset page entries more) : Held dir (s.stash page) :=
  ⟨⟨offset, entries, more, next⟩, h.ended⟩

/-- A fetch that says that the directory ended has nothing after its last entry. -/
theorem Held.fetch (h : Held dir s) (now : ℕ) {page : Listing}
    (leads : dir.At offset (page.entries.map rawOf ++ more)) (all : page.atEnd = true → more = []) :
    Held dir (s.fetch now page) := by
  unfold DirState.fetch DirState.noteEnd
  cases last : page.entries.getLast? with
  | none => exact ⟨h.buffer, h.ended⟩
  | some =>
    refine ⟨h.buffer, fun offset ended => ?_⟩
    simp only [Option.map_some] at ended
    split_ifs at ended with finished
    cases ended
    rw [all finished] at leads
    exact at_last leads last

theorem lookPage_held (h : Held dir s) {now : ℕ} {plus : Bool} {page : Option DirBuffer}
    (looked : s.lookPage attrTtl now offset plus = (s', page)) : Held dir s' := by
  simp only [DirState.lookPage] at looked
  split_ifs at looked <;> cases looked <;> exact h.cleared

theorem lookPage_spec (h : Held dir s) {now : ℕ} {plus : Bool}
    (looked : s.lookPage attrTtl now offset plus = (s', some page)) :
    ∃ entries more, Next dir offset page entries more ∧ (entries = [] → more = []) := by
  simp only [DirState.lookPage] at looked
  split_ifs at looked with buffered ended
  · cases looked
    obtain ⟨first, entries, more, next⟩ := h.buffer
    obtain ⟨-, -, front⟩ := buffered
    rw [next.tagged] at front
    cases entries with
    | nil => cases front
    | cons entry entries =>
      have same : first = offset := Option.some.inj front
      subst same
      exact ⟨entry :: entries, more, next, fun none => (nomatch none)⟩
  · cases looked
    exact ⟨[], [], ⟨rfl, h.ended offset ended.2, fun _ mem => absurd mem not_mem_nil⟩, fun _ => rfl⟩
  · cases looked

variable {r : Read dir}

theorem dirPage_held (h : Held dir s) (stands : dir.At offset rest) {page : Option DirBuffer}
    (paged : dirPage attrTtl s offset r = (s', page)) : Held dir s' := by
  unfold dirPage at paged
  split at paged
  · rename_i looked
    cases paged
    exact lookPage_held h looked
  · rename_i t looked
    have held := lookPage_held h looked
    split at paged
    · cases paged
      exact held
    · split at paged
      · cases paged
        exact held
      · rename_i listing fetched
        cases paged
        obtain ⟨more, rfl, -, all, -⟩ := readDir_spec stands fetched
        exact held.fetch _ stands all

theorem dirPage_spec (h : Held dir s) (stands : dir.At offset rest)
    (paged : dirPage attrTtl s offset r = (s', some page)) :
    ∃ entries more, Next dir offset page entries more ∧ (entries = [] → more = []) := by
  unfold dirPage at paged
  split at paged
  · rename_i looked
    cases paged
    exact lookPage_spec h looked
  · split at paged
    · cases paged
    · split at paged
      · cases paged
      · rename_i listing fetched
        cases paged
        obtain ⟨more, rfl, made, all, some⟩ := readDir_spec stands fetched
        refine ⟨listing.entries, more, ⟨rfl, stands, fun entry mem => made_of_dirEntry (made entry mem)⟩,
          fun none => ?_⟩
        cases ends : listing.atEnd with
        | true => exact all ends
        | false => exact absurd none (some ends)

theorem Next.left {taken left : List DirEntry} (h : Next dir offset page (taken ++ left) more) :
    Next dir (cookieAfter DirEntry.nextOffset offset taken)
      (tagWithCookies DirEntry.nextOffset (cookieAfter DirEntry.nextOffset offset taken) left) left more := by
  refine ⟨rfl, ?_, fun entry mem => h.made entry (mem_append_right _ mem)⟩
  have leads := h.leads
  rw [map_append, append_assoc] at leads
  cases last : taken.getLast? with
  | none =>
    rw [getLast?_eq_none_iff.mp last] at leads ⊢
    exact leads
  | some =>
    rw [cookieAfter, last]
    exact at_last leads last

theorem cookieAfter_items {items : List Handed} {taken : List DirEntry}
    (same : items.map Handed.raw = taken.map rawOf) :
    cookieAfter Handed.nextOffset offset items = cookieAfter DirEntry.nextOffset offset taken := by
  have last := congrArg (fun raws => (raws.getLast?.map RawDirent.off).getD offset) same
  simpa [cookieAfter, getLast?_map, Function.comp_def, Handed.raw, rawOf] using last

theorem addAll_next {plus : Bool} {item : DirEntry → Option (Option Handed)}
    (lists : ∀ entry made, Made entry → item entry = some made → ∃ handed, made = some handed ∧ handed.raw = rawOf entry)
    {entries : List DirEntry} (next : Next dir offset page entries more)
    (all : entries = [] → more = []) {maxSize : ℕ}
    (room : ∀ raw ∈ dir.listing, entrySize plus raw.name.length ≤ maxSize) {reply : Reply}
    {left : Option DirBuffer} (added : addAll plus item (.new maxSize) page = some (reply, left)) :
    ∃ more', entries.map rawOf ++ more = reply.items.map Handed.raw ++ more' ∧
      (reply.items = [] → more' = []) ∧ dir.At (cookieAfter Handed.nextOffset offset reply.items) more' ∧
      ∃ cookie, ∃ entries', ∃ more'', Next dir cookie (left.getD []) entries' more'' := by
  rw [next.tagged] at added
  obtain ⟨taken, rest, items, rfl, put, raws, stash, some⟩ := addAll_spec lists next.made added
  have put : reply.items = items := put
  rw [put, raws, cookieAfter_items raws, stash]
  refine ⟨rest.map rawOf ++ more, ?_, fun none => ?_, next.left.leads, _, _, _, next.left⟩
  · rw [map_append, append_assoc]
  · have untaken : taken = [] := by
      rw [none] at raws
      exact map_eq_nil_iff.mp raws.symm
    have none := some (fun entry mem => ?_) untaken
    · rw [untaken, none] at all
      rw [none, all rfl]
      rfl
    · have listed : rawOf entry ∈ dir.listing :=
        next.leads.mem (mem_append_left _ (mem_map_of_mem mem))
      have fits := room _ listed
      rw [rawOf] at fits
      simpa [Reply.new] using fits

def Read.item (r : Read dir) (ino : ℕ) (entry : DirEntry) : Option (Option Handed) :=
  if r.plus then plusItem (r.nodes entry) ino entry else plainItem (r.nodes entry) ino r.parent entry

theorem item_made (r : Read dir) (ino : ℕ) (entry : DirEntry) (item : Option Handed) (made : Made entry)
    (listed : r.item ino entry = some item) :
    ∃ handed, item = some handed ∧ handed.raw = rawOf entry := by
  unfold Read.item at listed
  split_ifs at listed
  · exact plusItem_made made listed
  · exact plainItem_made made listed

/-- An answered read is a page handed out, the rest of which may be stashed. -/
theorem read_cases {answer : Option (List Handed)}
    (answered : read attrTtl s offset r = (s', answer)) :
    (∃ page, dirPage attrTtl s offset r = (s', page) ∧ answer = none ∧
        ∀ p, page = some p → addAll r.plus (r.item s'.ino) (.new r.maxSize) p = none) ∨
      ∃ t page reply left, dirPage attrTtl s offset r = (t, some page) ∧ answer = some reply.items ∧
        addAll r.plus (r.item t.ino) (.new r.maxSize) page = some (reply, left) ∧
        (s' = t ∨ s' = t.stash (left.getD [])) := by
  simp only [read] at answered
  rcases paged : dirPage attrTtl s offset r with ⟨t, page⟩
  rw [paged] at answered
  cases page with
  | none =>
    cases answered
    exact .inl ⟨none, rfl, rfl, fun _ none => (nomatch none)⟩
  | some page =>
    simp only at answered
    by_cases plus : r.plus = true
    · have items : r.item t.ino = fun entry => plusItem (r.nodes entry) t.ino entry := by
        funext entry
        rw [Read.item, if_pos plus]
      rw [if_pos plus, addPlus, ← items] at answered
      rw [plus]
      cases added : addAll true (r.item t.ino) (.new r.maxSize) page with
      | none =>
        rw [added] at answered
        cases answered
        exact .inl ⟨some page, rfl, rfl, fun p same => by cases same; exact added⟩
      | some result =>
        obtain ⟨reply, left⟩ := result
        rw [added] at answered
        cases left with
        | none =>
          cases answered
          exact .inr ⟨_, page, reply, none, rfl, rfl, added, .inl rfl⟩
        | some left =>
          cases answered
          exact .inr ⟨t, page, reply, some left, rfl, rfl, added, .inr rfl⟩
    · have items : r.item t.ino = fun entry => plainItem (r.nodes entry) t.ino r.parent entry := by
        funext entry
        rw [Read.item, if_neg plus]
      rw [if_neg plus, addPlain, ← items] at answered
      rw [eq_false_of_ne_true plus]
      cases added : addAll false (r.item t.ino) (.new r.maxSize) page with
      | none =>
        rw [added] at answered
        cases answered
        exact .inl ⟨some page, rfl, rfl, fun p same => by cases same; exact added⟩
      | some result =>
        obtain ⟨reply, left⟩ := result
        rw [added] at answered
        cases answered
        exact .inr ⟨t, page, reply, left, rfl, rfl, added, .inr rfl⟩

/-- A read keeps what the handle holds true, and one that is answered hands the kernel the next part of
the listing, nothing only at its end. -/
theorem read_spec (h : Held dir s) (stands : dir.At offset rest) {answer : Option (List Handed)}
    (answered : read attrTtl s offset r = (s', answer)) :
    Held dir s' ∧ ∀ items, answer = some items →
      ∃ more, rest = items.map Handed.raw ++ more ∧ (items = [] → more = []) ∧
        dir.At (cookieAfter Handed.nextOffset offset items) more := by
  cases read_cases answered with
  | inl unanswered =>
    obtain ⟨page, paged, rfl, -⟩ := unanswered
    exact ⟨dirPage_held h stands paged, fun _ some => (nomatch some)⟩
  | inr handed =>
    obtain ⟨t, page, reply, left, paged, rfl, added, after⟩ := handed
    have held := dirPage_held h stands paged
    obtain ⟨entries, more, next, all⟩ := dirPage_spec h stands paged
    obtain ⟨more', split, some, leads, cookie, entries', more'', kept⟩ :=
      addAll_next (item_made r t.ino) next all r.room added
    refine ⟨?_, fun items same => ?_⟩
    · cases after with
      | inl same =>
        rw [same]
        exact held
      | inr stashed =>
        rw [stashed]
        exact held.stash kept
    · cases same
      rw [stands.unique next.leads]
      exact ⟨more', split, some, leads⟩

/-- The answers to sequential reads are the next parts of the listing, and an empty one comes only after
all of it. -/
theorem readAll_spec (h : Held dir s) (stands : dir.At offset rest) (reads : List (Read dir)) :
    ((readAll attrTtl s offset reads).flatten.map Handed.raw <+: rest) ∧
      ∀ before after, readAll attrTtl s offset reads = before ++ [] :: after →
        before.flatten.map Handed.raw = rest := by
  induction reads generalizing s offset rest with
  | nil => exact ⟨ nil_prefix, fun before after split => by simp [readAll] at split⟩
  | cons r _ ih =>
    simp only [readAll]
    rcases answered : read attrTtl s offset r with ⟨t, answer⟩
    obtain ⟨held, hands⟩ := read_spec h stands answered
    cases answer with
    | none => exact ih held stands
    | some items =>
      obtain ⟨more, rfl, some, leads⟩ := hands items rfl
      obtain ⟨first, empty⟩ := ih held leads
      refine ⟨?_, fun before after split => ?_⟩
      · rw [flatten_cons, map_append]
        exact (prefix_append_right_inj _).mpr first
      · cases before with
        | nil =>
          injection split with none _
          rw [none, some none]
          rfl
        | cons _ before =>
          injection split with same split
          rw [flatten_cons, map_append, empty before after split, same]

theorem length_le_of_nonempty {answers : List (List Handed)} (some : [] ∉ answers) :
    answers.length ≤ answers.flatten.length := by
  induction answers with
  | nil => rfl
  | cons _ _ ih =>
    rw [mem_cons, not_or] at some
    have first := length_pos_iff.mpr (Ne.symm some.1)
    have others := ih some.2
    rw [flatten_cons, length_append, length_cons]
    omega

/-- The read's request reaches a server that lacks nothing, and every search for a number ends. -/
def Served (r : Read dir) : Prop :=
  (∃ call, r.fetch = some call ∧ Ample call) ∧
    ∀ entry seen, ((r.nodes entry).idFor seen).isSome = true

theorem item_isSome (served : Served r) (ino : ℕ) (entry : DirEntry) :
    ∃ item, r.item ino entry = some item := by
  have numbered := fun seen => Option.isSome_iff_exists.mp (served.2 entry seen)
  unfold Read.item plusItem plainItem Nodes.plainNumber
  cases entry.attr with
  | none => split_ifs <;> exact ⟨_, rfl⟩
  | some attr =>
    obtain ⟨id, found⟩ := numbered (seenOf attr)
    cases Name.new entry.name <;> simp only [Option.map_some, found] <;> split_ifs <;> exact ⟨_, rfl⟩

theorem addAll_isSome (served : Served r) (ino : ℕ) (page : DirBuffer) (reply : Reply) :
    ∃ result, addAll r.plus (r.item ino) reply page = some result := by
  induction page generalizing reply with
  | nil => exact ⟨_, rfl⟩
  | cons tagged _ ih =>
    obtain ⟨item, listed⟩ := item_isSome served ino tagged.2
    simp only [addAll, listed]
    cases item with
    | none => exact ih reply
    | some item =>
      simp only
      cases reply.add r.plus item with
      | none => exact ⟨_, rfl⟩
      | some reply => exact ih reply

theorem dirPage_isSome (served : Served r) (stands : dir.At offset rest) (attrTtl : ℕ)
    (s : DirState) : ∃ t page, dirPage attrTtl s offset r = (t, some page) := by
  obtain ⟨call, fetch, ample⟩ := served.1
  obtain ⟨page, listed⟩ := readDir_isOk ample stands (min (fetchSize offset) maxIo)
  unfold dirPage
  rw [fetch]
  simp only [listed]
  split <;> exact ⟨_, _, rfl⟩

theorem read_isSome (served : Served r) (stands : dir.At offset rest) (attrTtl : ℕ) (s : DirState) :
    ∃ t items, read attrTtl s offset r = (t, some items) := by
  rcases answered : read attrTtl s offset r with ⟨t, answer⟩
  cases read_cases answered with
  | inr handed =>
    obtain ⟨_, _, reply, _, _, rfl, _⟩ := handed
    exact ⟨t, reply.items, rfl⟩
  | inl unanswered =>
    obtain ⟨page, paged, -, stuck⟩ := unanswered
    obtain ⟨t', page', found⟩ := dirPage_isSome served stands attrTtl s
    rw [paged] at found
    obtain ⟨result, added⟩ := addAll_isSome served t.ino page' (.new r.maxSize)
    rw [stuck page' (congrArg Prod.snd found)] at added
    cases added

theorem length_readAll (h : Held dir s) (stands : dir.At offset rest) {reads : List (Read dir)}
    (served : ∀ r ∈ reads, Served r) : (readAll attrTtl s offset reads).length = reads.length := by
  induction reads generalizing s offset rest with
  | nil => rfl
  | cons r _ ih =>
    obtain ⟨t, items, answered⟩ := read_isSome (served r mem_cons_self) stands attrTtl s
    obtain ⟨held, hands⟩ := read_spec h stands answered
    obtain ⟨more, _, _, leads⟩ := hands items rfl
    have later := ih held leads fun r mem => served r (mem_cons_of_mem _ mem)
    simp only [readAll, answered, length_cons]
    exact congrArg (· + 1) later

end Reading

/-- Sequential reads of a new handle, plain or with attributes, from its buffer, its remembered end or
the server: what the kernel is handed is the server's listing in order and each of it once, a first part
of it until an empty read, which comes only after all of it and does come after enough answers; and a
read is answered if its server lacks nothing. -/
theorem kernel_sees_listing (dir : Directory) (attrTtl ino opened : ℕ) (reads : List (Read dir)) :
    let answers := readAll attrTtl (.new ino opened) 0 reads
    (answers.flatten.map Handed.raw <+: dir.listing) ∧
      (∀ before after, answers = before ++ [] :: after →
        before.flatten.map Handed.raw = dir.listing) ∧
      (dir.listing.length < answers.length → [] ∈ answers) ∧
      ((∀ r ∈ reads, Served r) → answers.length = reads.length) := by
  intro answers
  have held := held_new dir ino opened
  obtain ⟨first, empty⟩ := readAll_spec held dir.at_start reads
  refine ⟨first, empty, fun long => ?_, length_readAll held dir.at_start⟩
  by_contra some
  have answered : answers.length ≤ answers.flatten.length := length_le_of_nonempty some
  have within : answers.flatten.length ≤ dir.listing.length := by
    have bound := first.length_le
    rwa [List.length_map] at bound
  omega

/-- Two reads of the directory with one file hand it to the kernel, and then nothing. -/
theorem kernel_sees_oneFile : ∃ reads : List (Read oneFile),
    let answers := readAll 1 (.new 1 0) 0 reads
    [] ∈ answers ∧ ∀ before after, answers = before ++ [] :: after →
      before.flatten.map Handed.raw = [⟨7, [97]⟩] := by
  let attr : Attr := ⟨5, 0, 0, ⟨0, 0⟩, ⟨0, 0⟩, ⟨0, 0⟩, .regular, 0, 1, 0, 0, 0, 0, none, ⟨1, []⟩, false⟩
  let call : Call oneFile := ⟨fun _ => .ok 0, fun _ => .ok attr, fun _ _ _ => rfl, fun _ _ h => (nomatch h)⟩
  let r : Read oneFile := ⟨true, 4096, 0, 0, some call, fun _ => .new, 1, by decide⟩
  have served : ∀ s ∈ [r, r], Served s := by
    intro s mem
    have same : s = r := by simpa using mem
    rw [same]
    refine ⟨⟨call, rfl, fun _ => ⟨0, rfl⟩, fun _ _ h => (nomatch h)⟩, fun _ seen => ?_⟩
    exact Nodes.idFor_isSome ⟨2, by decide, by decide, rfl⟩ seen
  obtain ⟨_, empty, ends, answered⟩ := kernel_sees_listing oneFile 1 1 0 [r, r]
  refine ⟨[r, r], ends ?_, fun before after split => (empty before after split).trans ?_⟩
  · rw [answered served]
    decide
  · decide

end JackalopeFs.DirectoryPages
