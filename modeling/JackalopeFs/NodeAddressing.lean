import JackalopeFs.NodeTableShape

/-! # Addressing a node and resolving its path

`pathOf` climbs the aliases of a node to the root and `resolvePath` comes down from the
root through the children of directories.  They agree as long as an alias in a directory
of the table is also a name there.  The one step that can break this makes a node under a
number that aliases still name: `forget` takes a directory with its names but leaves the
aliases that other nodes have in it, and the next directory with that number takes them
up without having a name for them.
-/

namespace JackalopeFs.NodeTable

open KeyedTables List PathNames TransitionRuns

variable {t : Nodes}

namespace Nodes

def named (t : Nodes) (id : ℕ) : Bool :=
  t.nodes.entries.any fun e => e.2.aliases.any fun a => a.1 = id

/-- A lookup makes a node only under a number in which no alias is, the new one included. -/
def numbersApart (t : Nodes) : Action → Bool
  | .insertLookup parent _ seen =>
    (t.idFor seen).all fun id =>
      (t.get id).isSome || (!decide (parent = id) && !t.named id)
  | _ => true

theorem named_of_alias {p c : ℕ} {n : Name} (h : (p, n) ∈ t.aliasesOf c) : t.named p = true := by
  obtain ⟨node, found⟩ := Option.isSome_iff_exists.mp (isSome_of_alias h)
  rw [aliasesOf_of_get found] at h
  have stored := AList.mem_lookup_iff.mp (Option.mem_def.mpr found)
  exact any_eq_true.mpr ⟨_, stored, any_eq_true.mpr ⟨_, h, decide_eq_true rfl⟩⟩

/-- An alias in a directory of the table is a name there, and listed once. -/
structure Leads (t : Nodes) : Prop where
  child : ∀ p n c, (p, n) ∈ t.aliasesOf c → (t.get p).isSome = true → t.child p n = some c
  once : ∀ p n c, (t.get p).isSome = true → (t.aliasesOf c).count (p, n) ≤ 1

theorem count_moved {l : List (ℕ × Name)} {a old new : ℕ × Name} (once : l.count a ≤ 1)
    (fresh : new ∈ l.filter (fun x => x ≠ old) → a ≠ new) :
    (l.filter (fun x => x ≠ old) ++ [new]).count a ≤ 1 := by
  have fewer := (filter_sublist (l := l) (p := fun x => decide (x ≠ old))).count_le a
  rw [count_append, count_singleton]
  split_ifs with same
  · have same : new = a := by simpa using same
    subst same
    rw [count_eq_zero_of_not_mem fun mem => fresh mem rfl]
  · omega

namespace Leads

theorem new : Leads .new := by
  have none : ∀ c, Nodes.new.aliasesOf c = [] := by
    intro c
    by_cases here : c = root
    · subst here
      rfl
    · simp [aliasesOf, get_new here]
  exact ⟨fun p n c h => by simp [none] at h, fun p n c _ => by simp [none]⟩

theorem unlink (h : Leads t) (parent : ℕ) (name : Name) : Leads (t.unlink parent name) := by
  rcases @unlink_cases t parent name with ⟨_, same⟩ | ⟨id, held, done⟩
  · rw [same]
    exact h
  · refine ⟨fun p n c listed present => ?_, fun p n c present => ?_⟩
    · rw [done.refits.isSome] at present
      rw [done.aliases] at listed
      rw [done.child]
      split_ifs at listed with here
      · obtain ⟨listed, apart⟩ := mem_filter.mp listed
        rw [if_neg (of_decide_eq_true apart)]
        exact h.child p n c listed present
      · have led := h.child p n c listed present
        rw [if_neg, led]
        intro same
        obtain ⟨rfl, rfl⟩ := Prod.mk.inj same
        exact here (Option.some.inj (led.symm.trans held))
    · rw [done.refits.isSome] at present
      rw [done.aliases]
      split_ifs
      · exact (filter_sublist.count_le _).trans (h.once p n c present)
      · exact h.once p n c present

variable {t' : Nodes}

theorem register (h : Leads t) {parent : ℕ} {name : Name} {seen : Seen} {id : ℕ}
    (apart : t.numbersApart (.insertLookup parent name seen) = true)
    (done : Registers t parent name seen id t') : Leads t' := by
  -- A directory with an alias in it was in the table before.
  have before : ∀ p, (t'.get p).isSome = true → p = parent ∨ t.named p = true →
      (t.get p).isSome = true := by
    intro p present names
    by_cases here : p = id
    · subst here
      have kept : (t.get p).isSome = true ∨ parent ≠ p ∧ t.named p = false := by
        simpa [numbersApart, done.number] using apart
      rcases kept with kept | ⟨ne, unnamed⟩
      · exact kept
      · rcases names with rfl | names
        · exact absurd rfl ne
        · rw [unnamed] at names
          cases names
    · have same := congrArg Option.isSome (done.kept p here)
      simpa [present] using same.symm
  refine ⟨fun p n c listed present => ?_, fun p n c present => ?_⟩
  · rw [done.child]
    rw [done.aliases] at listed
    split_ifs at listed with own held
    · subst own
      rcases mem_append.mp listed with listed | listed
      · obtain ⟨listed, ne⟩ := mem_filter.mp listed
        rw [if_neg]
        · exact h.child p n c listed (before p present (.inr (named_of_alias listed)))
        · rintro ⟨rfl, rfl, _⟩
          exact of_decide_eq_true ne rfl
      · obtain ⟨rfl, rfl⟩ := Prod.mk.inj (mem_singleton.mp listed)
        rw [if_pos ⟨rfl, rfl, before p present (.inl rfl)⟩]
    · obtain ⟨listed, ne⟩ := mem_filter.mp listed
      rw [if_neg]
      · exact h.child p n c listed (before p present (.inr (named_of_alias listed)))
      · rintro ⟨rfl, rfl, _⟩
        exact of_decide_eq_true ne rfl
    · have led := h.child p n c listed (before p present (.inr (named_of_alias listed)))
      rw [if_neg, led]
      rintro ⟨rfl, rfl, _⟩
      exact held led
  · rw [done.aliases]
    by_cases names : p = parent ∨ t.named p = true
    · have once := h.once p n c (before p present names)
      split_ifs with own
      · subst own
        exact count_moved once fun mem => absurd (of_decide_eq_true (mem_filter.mp mem).2) (by simp)
      · exact (filter_sublist.count_le _).trans once
      · exact once
    · rw [not_or] at names
      have absent : (p, n) ∉ t.aliasesOf c := fun listed => names.2 (named_of_alias listed)
      have zero := count_eq_zero_of_not_mem absent
      split_ifs with own
      · subst own
        exact count_moved (by omega) fun _ same => names.1 (Prod.mk.inj same).1
      · exact (filter_sublist.count_le _).trans (by omega)
      · omega

theorem move (h : Leads t) {old new : ℕ × Name} {id : ℕ} (held : t.child old.1 old.2 = some id)
    (away : t.child new.1 new.2 ≠ some id) (done : Moves t old new id t') : Leads t' := by
  refine ⟨fun p n c listed present => ?_, fun p n c present => ?_⟩
  · rw [done.refits.isSome] at present
    rw [done.child]
    rw [done.aliases] at listed
    by_cases isNew : (p, n) = new
    · subst isNew
      rw [if_pos ⟨rfl, present⟩]
      split_ifs at listed with own there
      · rw [own]
      · exact absurd rfl (of_decide_eq_true (mem_filter.mp listed).2)
      · exact absurd (h.child p n c listed present) there
    · rw [if_neg fun both => isNew both.1]
      have led : t.child p n = some c ∧ (c = id → (p, n) ≠ old) := by
        split_ifs at listed with own there
        · rcases mem_append.mp listed with listed | listed
          · obtain ⟨listed, ne⟩ := mem_filter.mp listed
            exact ⟨h.child p n c listed present, fun _ => of_decide_eq_true ne⟩
          · exact absurd (mem_singleton.mp listed) isNew
        · exact ⟨h.child p n c (mem_filter.mp listed).1 present, fun same => absurd same own⟩
        · exact ⟨h.child p n c listed present, fun same => absurd same own⟩
      rw [if_neg, led.1]
      rintro rfl
      exact led.2 (Option.some.inj (led.1.symm.trans held)) rfl
  · rw [done.refits.isSome] at present
    rw [done.aliases]
    have once := h.once p n c present
    split_ifs with own
    · subst own
      refine count_moved once fun mem same => away ?_
      subst same
      exact h.child p n c (mem_filter.mp mem).1 present
    · exact (filter_sublist.count_le _).trans once
    · exact once

theorem swap (h : Leads t) {here there : ℕ × Name} {a b : ℕ}
    (heldA : t.child here.1 here.2 = some a) (heldB : t.child there.1 there.2 = some b)
    (apart : a ≠ b) (done : Swaps t here there a b t') : Leads t' := by
  refine ⟨fun p n c listed present => ?_, fun p n c present => ?_⟩
  · rw [done.refits.isSome] at present
    rw [done.child]
    rw [done.aliases] at listed
    split_ifs at listed with isA isB
    · subst isA
      rcases mem_append.mp listed with listed | listed
      · obtain ⟨listed, ne⟩ := mem_filter.mp listed
        have led := h.child p n c listed present
        rw [if_neg (of_decide_eq_true ne), led, ite_self]
      · have isThere := mem_singleton.mp listed
        rw [if_neg, if_pos isThere]
        rintro rfl
        subst isThere
        exact apart (Option.some.inj (heldA.symm.trans heldB))
    · subst isB
      rcases mem_append.mp listed with listed | listed
      · obtain ⟨listed, ne⟩ := mem_filter.mp listed
        have led := h.child p n c listed present
        rw [if_neg (of_decide_eq_true ne), led, ite_self]
      · rw [if_pos (mem_singleton.mp listed)]
    · have led := h.child p n c listed present
      rw [if_neg, if_neg, led]
      · rintro rfl
        exact isB (Option.some.inj (led.symm.trans heldB))
      · rintro rfl
        exact isA (Option.some.inj (led.symm.trans heldA))
  · rw [done.refits.isSome] at present
    rw [done.aliases]
    have once := h.once p n c present
    split_ifs with isA isB
    · subst isA
      refine count_moved once fun mem same => ?_
      subst same
      have led := h.child p n c (mem_filter.mp mem).1 present
      exact apart (Option.some.inj (led.symm.trans heldB))
    · subst isB
      refine count_moved once fun mem same => ?_
      subst same
      have led := h.child p n c (mem_filter.mp mem).1 present
      exact apart (Option.some.inj (heldA.symm.trans led))
    · exact once

theorem unname (h : Leads t) {id : ℕ} {wrong : ℕ × Name} (done : Unnames t id wrong t') :
    Leads t' := by
  refine ⟨fun p n c listed present => ?_, fun p n c present => ?_⟩
  · rw [done.refits.isSome] at present
    rw [done.child]
    by_cases own : c = id
    · subst own
      have led := h.child p n c (done.perm.subset (mem_cons_of_mem _ listed)) present
      rw [if_neg, led]
      -- Listed once, the alias that went is not among those left.
      rintro ⟨rfl, _⟩
      have once := h.once p n c present
      rw [← done.perm.count_eq, count_cons_self] at once
      have := count_pos_iff.mpr listed
      omega
    · rw [done.others c own] at listed
      have led := h.child p n c listed present
      rw [if_neg, led]
      rintro ⟨_, held⟩
      exact own (Option.some.inj (led.symm.trans held))
  · rw [done.refits.isSome] at present
    by_cases own : c = id
    · subst own
      have once := h.once p n c present
      rw [← done.perm.count_eq] at once
      exact count_le_count_cons.trans once
    · rw [done.others c own]
      exact h.once p n c present

theorem step (h : Leads t) {action : Action} (apart : t.numbersApart action = true)
    (moved : Steps t action t') : Leads t' := by
  cases moved with
  | stays => exact h
  | registers _ _ _ _ _ done => exact h.register apart done
  | roots identity =>
    have present : ∀ p, ((t.rootSeen identity).get p).isSome = (t.get p).isSome := isSome_modify _ _
    refine ⟨fun p n c listed there => ?_, fun p n c there => ?_⟩
    · rw [aliasesOf_rootSeen] at listed
      rw [child_rootSeen]
      exact h.child p n c listed (present p ▸ there)
    · rw [aliasesOf_rootSeen]
      exact h.once p n c (present p ▸ there)
  | counts ino m =>
    have present : ∀ p, ((t.uncount ino m).get p).isSome = (t.get p).isSome := isSome_modify _ _
    refine ⟨fun p n c listed there => ?_, fun p n c there => ?_⟩
    · rw [aliasesOf_uncount] at listed
      rw [child_uncount]
      exact h.child p n c listed (present p ▸ there)
    · rw [aliasesOf_uncount]
      exact h.once p n c (present p ▸ there)
  | forgets ino _ _ _ _ _ _ done =>
    have before : ∀ p, (t'.get p).isSome = true → p ≠ ino ∧ (t.get p).isSome = true := by
      intro p present
      have ne : p ≠ ino := by
        rintro rfl
        simp [done.gone] at present
      have same := congrArg Option.isSome (done.kept p ne)
      exact ⟨ne, by simpa [present] using same.symm⟩
    refine ⟨fun p n c listed present => ?_, fun p n c present => ?_⟩
    · have away : c ≠ ino := by
        rintro rfl
        simp [aliasesOf, done.gone] at listed
      rw [done.aliases c away] at listed
      obtain ⟨ne, there⟩ := before p present
      exact (done.child p n c).mpr ⟨ne, h.child p n c listed there, fun both => away both.1⟩
    · by_cases away : c = ino
      · subst away
        simp [aliasesOf, done.gone]
      · rw [done.aliases c away]
        exact h.once p n c (before p present).2
  | unnames _ _ _ _ done => exact h.unname done
  | unlinks parent name => exact h.unlink parent name
  | moves _ _ _ _ _ _ held away done => exact h.move held away done
  | parts parent name newparent newname => exact (h.unlink parent name).unlink newparent newname
  | swaps _ _ _ _ _ _ _ heldA heldB ne done => exact h.swap heldA heldB ne done

theorem resolves (h : Leads t) (isRoot : (t.get root).isSome = true) {depth ino : ℕ}
    {names : List Name} (climbed : t.namesTo depth ino = some names) :
    names.foldlM t.child root = some ino := by
  induction depth generalizing ino names with
  | zero =>
    unfold namesTo at climbed
    split_ifs at climbed with here
    cases climbed
    rw [here]
    rfl
  | succ depth ih =>
    unfold namesTo at climbed
    split_ifs at climbed with here
    · cases climbed
      rw [here]
      rfl
    obtain ⟨node, found, chain⟩ := Option.bind_eq_some_iff.mp climbed
    obtain ⟨⟨p, n⟩, listed, up⟩ := exists_of_findSome?_eq_some chain
    obtain ⟨front, above, rfl⟩ := Option.map_eq_some_iff.mp up
    have present : (t.get p).isSome = true := by
      by_cases atRoot : p = root
      · exact atRoot ▸ isRoot
      · cases depth with
        | zero =>
          unfold namesTo at above
          rw [if_neg atRoot] at above
          cases above
        | succ =>
          unfold namesTo at above
          rw [if_neg atRoot] at above
          obtain ⟨node', found', _⟩ := Option.bind_eq_some_iff.mp above
          simp [found']
    have led := h.child p n ino (by rw [aliasesOf_of_get found]; exact mem_reverse.mp listed)
      present
    rw [foldlM_append, ih above]
    simpa using led

end Leads

/-- In every run that makes nodes only under numbers no alias names, the path of a node leads to it. -/
theorem resolvePath_pathOf
    (h : machine.ReachableUnder (fun t a => t.numbersApart a = true) t) (id : ℕ) (path : Path)
    (addressed : t.pathOf id = some path) : t.resolvePath path = some id := by
  obtain ⟨shape, leads⟩ : WellFormed t ∧ Leads t :=
    Machine.ReachableUnder.invariant (P := fun t => WellFormed t ∧ Leads t) ⟨.new, .new⟩
      (fun t action t' ⟨shape, leads⟩ apart moved =>
        have moves := step_steps shape.linked moved
        ⟨shape.step moves, leads.step apart moves⟩) h
  obtain ⟨names, climbed, short⟩ := Option.bind_eq_some_iff.mp addressed
  rw [resolvePath, Path.fromNames_eq_some short]
  exact leads.resolves shape.root climbed

/-- A file two directories down, one of them renamed. -/
theorem resolvePath_pathOf_renamed :
    ∃ t path, machine.ReachableUnder (fun t a => t.numbersApart a = true) t ∧
      t.pathOf 11 = some path ∧ t.resolvePath path = some 11 := by
  let a : Name := ⟨[97], by decide⟩
  let b : Name := ⟨[98], by decide⟩
  let x : Name := ⟨[120], by decide⟩
  let dir : Seen := ⟨10, ⟨1, [10]⟩, false, .directory⟩
  let file : Seen := ⟨11, ⟨1, [11]⟩, false, .regular⟩
  obtain ⟨t, reached, named⟩ := machine.exists_of_runWhile (p := fun t => (t.pathOf 11).isSome)
    (by decide +kernel : (machine.runWhile numbersApart machine.initial [.insertLookup 1 a dir,
      .insertLookup 10 b file, .rename 1 a 1 x]).any _ = true)
  obtain ⟨path, addressed⟩ := Option.isSome_iff_exists.mp named
  exact ⟨t, path, reached, addressed, resolvePath_pathOf reached 11 path addressed⟩

/-- A file is addressed through a directory that has no name for it: it was looked up in another one,
since forgotten, whose number the directory was given. -/
theorem addressed_through_reused_number :
    let a : Name := ⟨[97], by decide⟩
    let b : Name := ⟨[98], by decide⟩
    let new : Name := ⟨[110], by decide⟩
    let dir : Seen := ⟨10, ⟨1, [10]⟩, false, .directory⟩
    let other : Seen := ⟨10, ⟨1, [99]⟩, false, .directory⟩
    let file : Seen := ⟨11, ⟨1, [11]⟩, false, .regular⟩
    ∃ t path, machine.run [.insertLookup 1 a dir, .insertLookup 10 b file, .forget 10 1,
        .insertLookup 1 new other] = some t ∧ machine.Reachable t ∧
      t.pathOf 11 = some path ∧ path.names = [new, b] ∧ t.resolvePath path = none := by
  intro a b new dir other file
  obtain ⟨t, ends, reached, stale⟩ := machine.exists_of_run
    (p := fun t : Nodes => (t.pathOf 11).any fun path : Path =>
      decide (path.names = [new, b] ∧ t.resolvePath path = none))
    (by decide +kernel : (machine.run [.insertLookup 1 a dir, .insertLookup 10 b file, .forget 10 1,
      .insertLookup 1 new other]).any _ = true)
  obtain ⟨path, addressed, unresolved⟩ := (Option.any_eq_true _ _).mp stale
  exact ⟨t, path, ends, reached, addressed, of_decide_eq_true unresolved⟩

end Nodes

end JackalopeFs.NodeTable
