import Mathlib.Algebra.Order.BigOperators.Group.List
import Mathlib.Data.Finset.Card
import Mathlib.Data.List.AList
import Mathlib.Data.List.Sort
import Mathlib.Tactic.Ring

/-! # Forests of keyed nodes

A forest is a collection of nodes, each under a key with a value and the forest below it:
the maps of maps in which a tree of named nodes is usually kept.  Siblings have distinct
keys in a `Distinct` forest, and the operations keep that.  A node is addressed by the
path of keys from the top.

`collect` lists what a function selects from the values, with the paths; moving a part of
a forest moves its share of that list, up to order.
-/

namespace JackalopeFs.NamedForests

open List Option

universe u v w

/-- A node, what is below it, and its later siblings. -/
inductive Forest (Key : Type u) (Value : Type v) where
  | nil
  | node (key : Key) (value : Value) (below rest : Forest Key Value)
  deriving DecidableEq, Repr

namespace Forest

variable {Key : Type u} {Value : Type v} {Selected : Type w} [DecidableEq Key]

def lookup (k : Key) : Forest Key Value → Option (Value × Forest Key Value)
  | .nil => none
  | .node key value below rest => if key = k then some (value, below) else lookup k rest

def erase (k : Key) : Forest Key Value → Forest Key Value
  | .nil => .nil
  | .node key value below rest => if key = k then erase k rest else .node key value below (erase k rest)

def insert (k : Key) (n : Value × Forest Key Value) (f : Forest Key Value) : Forest Key Value :=
  .node k n.1 n.2 (f.erase k)

def adjust (k : Key) (g : Forest Key Value → Forest Key Value) : Forest Key Value → Forest Key Value
  | .nil => .nil
  | .node key value below rest =>
    if key = k then .node key value (g below) rest else .node key value below (adjust k g rest)

/-- The forest below the node at `path`; the whole for the empty path. -/
def under (f : Forest Key Value) : List Key → Option (Forest Key Value)
  | [] => some f
  | k :: path => (f.lookup k).bind fun n => n.2.under path

def change (f : Forest Key Value) : List Key → (Forest Key Value → Forest Key Value) →
    Forest Key Value
  | [], g => g f
  | k :: path, g => f.adjust k fun below => below.change path g

def get (f : Forest Key Value) : List Key → Option (Value × Forest Key Value)
  | [] => none
  | [k] => f.lookup k
  | k :: path => (f.lookup k).bind fun n => n.2.get path

/-- What `select` finds in the forest, which is below `above`, with the paths. -/
def collect (select : Value → Option Selected) (above : List Key) :
    Forest Key Value → List (Selected × List Key)
  | .nil => []
  | .node key value below rest =>
    ((select value).map fun x => (x, above ++ [key])).toList ++
      collect select (above ++ [key]) below ++ collect select above rest

/-- What `select` finds in a node at `path` and below it. -/
def collectNode (select : Value → Option Selected) (path : List Key)
    (n : Value × Forest Key Value) : List (Selected × List Key) :=
  ((select n.1).map fun x => (x, path)).toList ++ collect select path n.2

def Distinct : Forest Key Value → Prop
  | .nil => True
  | .node key _ below rest => rest.lookup key = none ∧ below.Distinct ∧ rest.Distinct

inductive Thins : Forest Key Value → Forest Key Value → Prop
  | nil : Thins .nil .nil
  | keep {key : Key} {value : Value} {below below' rest rest' : Forest Key Value}
      (inside : Thins below' below) (beside : Thins rest' rest) :
      Thins (.node key value below' rest') (.node key value below rest)
  | drop {key : Key} {value : Value} {below rest rest' : Forest Key Value}
      (beside : Thins rest' rest) : Thins rest' (.node key value below rest)

/-- The nodes with final values have nothing below them. -/
def Bare (final : Value → Bool) : Forest Key Value → Prop
  | .nil => True
  | .node _ value below rest =>
    (final value = true → below = .nil) ∧ below.Bare final ∧ rest.Bare final

def All (p : Value → Prop) : Forest Key Value → Prop
  | .nil => True
  | .node _ value below rest => p value ∧ below.All p ∧ rest.All p

instance decidableAll (p : Value → Prop) [DecidablePred p] : (f : Forest Key Value) → Decidable (f.All p)
  | .nil => .isTrue trivial
  | .node _ value below rest =>
    have := decidableAll p below
    have := decidableAll p rest
    inferInstanceAs (Decidable (p value ∧ _ ∧ _))

variable {f : Forest Key Value} {k j : Key} {path above : List Key}
variable {n : Value × Forest Key Value} {select : Value → Option Selected}

theorem lookup_erase (f : Forest Key Value) (k j : Key) :
    (f.erase k).lookup j = if j = k then none else f.lookup j := by
  induction f with
  | nil => simp [erase, lookup]
  | node key _ _ _ _ ih =>
    simp only [erase, lookup]
    by_cases hk : key = k
    · rw [if_pos hk, ih]
      split_ifs with hj hkey
      · rfl
      · exact absurd (hkey.symm.trans hk) hj
      · rfl
    · rw [if_neg hk, lookup, ih]
      split_ifs with hkey hj
      · exact absurd (hkey.trans hj) hk
      · rfl
      · rfl
      · rfl

theorem lookup_insert (f : Forest Key Value) (k j : Key) (n : Value × Forest Key Value) :
    (f.insert k n).lookup j = if j = k then some n else f.lookup j := by
  simp only [insert, lookup, lookup_erase]
  split_ifs with h₁ h₂ h₂
  · rfl
  · exact absurd h₁.symm h₂
  · exact absurd h₂.symm h₁
  · rfl

theorem lookup_adjust (f : Forest Key Value) (k j : Key) (g : Forest Key Value → Forest Key Value) :
    (f.adjust k g).lookup j =
      if j = k then (f.lookup k).map fun n => (n.1, g n.2) else f.lookup j := by
  induction f with
  | nil => simp [adjust, lookup]
  | node key _ _ _ _ ih =>
    simp only [adjust, lookup]
    by_cases hk : key = k
    · rw [if_pos hk, if_pos hk, lookup]
      split_ifs with h₁ h₂ h₂
      · rfl
      · exact absurd (h₁.symm.trans hk) h₂
      · exact absurd (hk.trans h₂.symm) h₁
      · rfl
    · rw [if_neg hk, if_neg hk, lookup, ih]
      split_ifs with h₁ h₂
      · exact absurd (h₁.trans h₂) hk
      · rfl
      · rfl
      · rfl

theorem erase_of_lookup (h : f.lookup k = none) : f.erase k = f := by
  induction f with
  | nil => rfl
  | node _ _ _ _ _ ih =>
    simp only [lookup] at h
    split_ifs at h with hk
    simp only [erase, if_neg hk, ih h]

theorem get_append (f : Forest Key Value) (path : List Key) (k : Key) :
    f.get (path ++ [k]) = (f.under path).bind fun slot => slot.lookup k := by
  induction path generalizing f with
  | nil => rfl
  | cons j path ih =>
    have step : f.get (j :: (path ++ [k])) = (f.lookup j).bind fun n => n.2.get (path ++ [k]) := by
      cases path <;> rfl
    rw [cons_append, step, under]
    cases f.lookup j with
    | none => rfl
    | some n => exact ih n.2

theorem under_append (f : Forest Key Value) (path : List Key) (k : Key) :
    f.under (path ++ [k]) = (f.get (path ++ [k])).map Prod.snd := by
  rw [get_append]
  induction path generalizing f with
  | nil =>
    simp only [nil_append, under, bind_some]
    cases f.lookup k <;> rfl
  | cons j _ ih =>
    simp only [cons_append, under]
    cases f.lookup j with
    | none => rfl
    | some n => exact ih n.2

theorem under_of_get (h : f.get path = some n) : f.under path = some n.2 := by
  rcases eq_nil_or_concat path with rfl | ⟨front, last, rfl⟩
  · simp [get] at h
  · rw [concat_eq_append] at h ⊢
    rw [under_append, h]
    rfl

theorem under_change {g : Forest Key Value → Forest Key Value} {slot : Forest Key Value}
    (h : f.under path = some slot) : (f.change path g).under path = some (g slot) := by
  induction path generalizing f with
  | nil =>
    obtain rfl := Option.some.inj h
    rfl
  | cons _ _ ih =>
    obtain ⟨n, found, inside⟩ := bind_eq_some_iff.mp h
    simp only [change, under, lookup_adjust, if_pos, found, map_some, bind_some]
    exact ih inside

section Distinct

theorem Distinct.lookup (h : f.Distinct) (found : f.lookup k = some n) : n.2.Distinct := by
  induction f with
  | nil => simp [Forest.lookup] at found
  | node _ _ _ _ _ ih =>
    simp only [Forest.lookup] at found
    split_ifs at found with hk
    · cases found
      exact h.2.1
    · exact ih h.2.2 found

theorem Distinct.erase (h : f.Distinct) (k : Key) : (f.erase k).Distinct := by
  induction f with
  | nil => trivial
  | node _ _ _ _ _ ih =>
    simp only [Forest.erase]
    split_ifs with hk
    · exact ih h.2.2
    · refine ⟨?_, h.2.1, ih h.2.2⟩
      rw [lookup_erase, h.1, ite_self]

theorem Distinct.insert (h : f.Distinct) (k : Key) (hn : n.2.Distinct) : (f.insert k n).Distinct :=
  ⟨by rw [lookup_erase, if_pos rfl], hn, h.erase k⟩

theorem Distinct.adjust {g : Forest Key Value → Forest Key Value} (h : f.Distinct)
    (hg : ∀ n, f.lookup k = some n → n.2.Distinct → (g n.2).Distinct) : (f.adjust k g).Distinct := by
  induction f with
  | nil => trivial
  | node key value below _ _ ih =>
    simp only [Forest.adjust]
    by_cases hk : key = k
    · rw [if_pos hk]
      exact ⟨h.1, hg (value, below) (by simp [Forest.lookup, hk]) h.2.1, h.2.2⟩
    · rw [if_neg hk]
      refine ⟨?_, h.2.1, ih h.2.2 fun n found => hg n (by simp [Forest.lookup, hk, found])⟩
      rw [lookup_adjust, if_neg hk, h.1]

theorem Distinct.change {g : Forest Key Value → Forest Key Value} (h : f.Distinct)
    (hg : ∀ slot, f.under path = some slot → slot.Distinct → (g slot).Distinct) :
    (f.change path g).Distinct := by
  induction path generalizing f with
  | nil => exact hg f rfl h
  | cons _ _ ih =>
    refine h.adjust fun n found distinct => ih distinct fun slot inside => hg slot ?_
    rw [under, found]
    exact inside

theorem Distinct.under {slot : Forest Key Value} (h : f.Distinct) (found : f.under path = some slot) :
    slot.Distinct := by
  induction path generalizing f with
  | nil => exact Option.some.inj found ▸ h
  | cons _ _ ih =>
    obtain ⟨n, here, inside⟩ := bind_eq_some_iff.mp found
    exact ih (h.lookup here) inside

end Distinct

section Perms

theorem collect_adjust {g : Forest Key Value → Forest Key Value} {old new : List (Selected × List Key)}
    (h : f.lookup k = some n)
    (below : (old ++ collect select (above ++ [k]) n.2).Perm
      (new ++ collect select (above ++ [k]) (g n.2))) :
    (old ++ collect select above f).Perm (new ++ collect select above (f.adjust k g)) := by
  induction f with
  | nil => simp [lookup] at h
  | node key value bel rest _ ih =>
    simp only [lookup] at h
    simp only [adjust]
    by_cases hk : key = k
    · rw [if_pos hk] at h ⊢
      obtain rfl := Option.some.inj h
      subst hk
      simp only [collect]
      have moved := (below.append_left
        ((select value).map fun x => (x, above ++ [key])).toList).append_right
          (collect select above rest)
      simp only [append_assoc] at moved ⊢
      exact ((perm_append_comm_assoc _ _ _).trans moved).trans
        (perm_append_comm_assoc _ _ _)
    · rw [if_neg hk] at h ⊢
      simp only [collect]
      have moved := (ih h).append_left (((select value).map fun x => (x, above ++ [key])).toList ++
        collect select (above ++ [key]) bel)
      exact ((perm_append_comm_assoc _ _ _).trans moved).trans
        (perm_append_comm_assoc _ _ _)

variable {slot : Forest Key Value}

/-- What a change below `path` does to the part selected there, it does to the whole. -/
theorem collect_change {g : Forest Key Value → Forest Key Value}
    (old new : List (Selected × List Key)) (h : f.under path = some slot)
    (below : (old ++ collect select (above ++ path) slot).Perm (new ++ collect select (above ++ path) (g slot))) :
    (old ++ collect select above f).Perm (new ++ collect select above (f.change path g)) := by
  induction path generalizing f above with
  | nil =>
    obtain rfl := Option.some.inj h
    simpa [change] using below
  | cons _ _ ih =>
    obtain ⟨n, found, inside⟩ := bind_eq_some_iff.mp h
    refine collect_adjust found (ih inside ?_)
    simpa using below

theorem collect_erase (distinct : f.Distinct) (h : f.lookup k = some n) :
    (collect select above f).Perm
      (collectNode select (above ++ [k]) n ++ collect select above (f.erase k)) := by
  induction f with
  | nil => simp [lookup] at h
  | node key _ _ _ _ ih =>
    simp only [lookup] at h
    simp only [erase, collect]
    by_cases hk : key = k
    · rw [if_pos hk] at h ⊢
      obtain rfl := Option.some.inj h
      subst hk
      rw [erase_of_lookup distinct.1]
      exact List.Perm.refl _
    · rw [if_neg hk] at h ⊢
      exact ((ih distinct.2.2 h).append_left _).trans (perm_append_comm_assoc _ _ _)

theorem collect_insert (h : f.lookup k = none) :
    collect select above (f.insert k n) =
      collectNode select (above ++ [k]) n ++ collect select above f := by
  simp only [insert, collect, collectNode, erase_of_lookup h]

omit [DecidableEq Key] in
theorem above_of_mem_collect {e : Selected × List Key} (mem : e ∈ collect select above f) :
    above <+: e.2 := by
  induction f generalizing above with
  | nil => simp [collect] at mem
  | node _ _ _ _ ihBelow ihRest =>
    simp only [collect, mem_append, mem_toList, map_eq_some_iff] at mem
    rcases mem with (⟨x, -, rfl⟩ | inside) | beside
    · exact prefix_append _ _
    · exact (prefix_append _ _).trans (ihBelow inside)
    · exact ihRest beside

omit [DecidableEq Key] in
theorem above_of_mem_collectNode {e : Selected × List Key} (mem : e ∈ collectNode select path n) :
    path <+: e.2 := by
  simp only [collectNode, mem_append, mem_toList, map_eq_some_iff] at mem
  rcases mem with ⟨x, -, rfl⟩ | inside
  · exact prefix_refl _
  · exact above_of_mem_collect inside

theorem collect_detach (distinct : f.Distinct) (inside : f.under path = some slot)
    (h : slot.lookup k = some n) :
    (collect select [] f).Perm (collectNode select (path ++ [k]) n ++
      collect select [] (f.change path (erase k))) :=
  collect_change [] _ inside (collect_erase (distinct.under inside) h)

theorem collect_attach (inside : f.under path = some slot) (h : slot.lookup k = none) :
    (collectNode select (path ++ [k]) n ++ collect select [] f).Perm
      (collect select [] (f.change path (insert k n))) := by
  refine collect_change _ [] inside ?_
  rw [collect_insert h]
  exact List.Perm.refl _

theorem collect_replace {old : Value × Forest Key Value} (distinct : f.Distinct)
    (inside : f.under path = some slot) (h : slot.lookup k = some old) :
    (collectNode select (path ++ [k]) n ++ collect select [] f).Perm
      (collectNode select (path ++ [k]) old ++ collect select [] (f.change path (insert k n))) :=
  collect_change _ _ inside (((collect_erase (distinct.under inside) h).append_left _).trans
    (perm_append_comm_assoc _ _ _))

theorem collect_put (distinct : f.Distinct) (inside : f.under path = some slot) :
    ∃ gone, (collectNode select (path ++ [k]) n ++ collect select [] f).Perm
      (gone ++ collect select [] (f.change path (insert k n))) := by
  cases here : slot.lookup k with
  | none => exact ⟨[], collect_attach inside here⟩
  | some => exact ⟨_, collect_replace distinct inside here⟩

omit [DecidableEq Key] in
theorem map_fst_collect (above above' : List Key) :
    (collect select above f).map Prod.fst = (collect select above' f).map Prod.fst := by
  induction f generalizing above above' with
  | nil => rfl
  | node key value _ _ ihBelow ihRest =>
    simp only [collect, map_append]
    rw [ihBelow (above ++ [key]) (above' ++ [key]), ihRest above above']
    cases select value <;> rfl

end Perms

section Bare

variable {final : Value → Bool}

theorem Bare.lookup (h : f.Bare final) (found : f.lookup k = some n) :
    (final n.1 = true → n.2 = .nil) ∧ n.2.Bare final := by
  induction f with
  | nil => simp [Forest.lookup] at found
  | node _ _ _ _ _ ih =>
    simp only [Forest.lookup] at found
    split_ifs at found with hk
    · cases found
      exact ⟨h.1, h.2.1⟩
    · exact ih h.2.2 found

theorem Bare.under {slot : Forest Key Value} (h : f.Bare final) (found : f.under path = some slot) :
    slot.Bare final := by
  induction path generalizing f with
  | nil => exact Option.some.inj found ▸ h
  | cons _ _ ih =>
    obtain ⟨n, here, inside⟩ := bind_eq_some_iff.mp found
    exact ih (h.lookup here).2 inside

theorem Bare.get (h : f.Bare final) (found : f.get path = some n) :
    (final n.1 = true → n.2 = .nil) ∧ n.2.Bare final := by
  rcases eq_nil_or_concat path with rfl | ⟨front, last, rfl⟩
  · simp [Forest.get] at found
  · rw [concat_eq_append, get_append] at found
    obtain ⟨slot, inside, here⟩ := bind_eq_some_iff.mp found
    exact (h.under inside).lookup here

theorem Bare.not_final {n' : Value × Forest Key Value} (h : f.Bare final)
    (found : f.get path = some n) (deeper : f.get (path ++ [k]) = some n') : final n.1 = false := by
  by_contra isFinal
  rw [get_append, under_of_get found, (h.get found).1 (by simpa using isFinal)] at deeper
  simp [Forest.lookup] at deeper

theorem Bare.erase (h : f.Bare final) (k : Key) : (f.erase k).Bare final := by
  induction f with
  | nil => trivial
  | node _ _ _ _ _ ih =>
    simp only [Forest.erase]
    split_ifs with hk
    · exact ih h.2.2
    · exact ⟨h.1, h.2.1, ih h.2.2⟩

theorem Bare.insert (h : f.Bare final) (k : Key) (ends : final n.1 = true → n.2 = .nil)
    (below : n.2.Bare final) : (f.insert k n).Bare final :=
  ⟨ends, below, h.erase k⟩

theorem Bare.adjust {g : Forest Key Value → Forest Key Value} (h : f.Bare final)
    (ends : ∀ n, f.lookup k = some n → final n.1 = true → g .nil = .nil)
    (below : ∀ n, f.lookup k = some n → n.2.Bare final → (g n.2).Bare final) :
    (f.adjust k g).Bare final := by
  induction f with
  | nil => trivial
  | node key value bel rest _ ih =>
    simp only [Forest.adjust]
    by_cases hk : key = k
    · have found : (Forest.node key value bel rest).lookup k = some (value, bel) := by
        simp [Forest.lookup, hk]
      rw [if_pos hk]
      refine ⟨fun isFinal => ?_, below _ found h.2.1, h.2.2⟩
      rw [h.1 isFinal]
      exact ends _ found isFinal
    · have same : (Forest.node key value bel rest).lookup k = rest.lookup k := by
        simp [Forest.lookup, hk]
      rw [same] at ends below
      rw [if_neg hk]
      exact ⟨h.1, h.2.1, ih h.2.2 ends below⟩

theorem Bare.change {g : Forest Key Value → Forest Key Value} (h : f.Bare final)
    (ends : ∀ n, f.get path = some n → final n.1 = true → g .nil = .nil)
    (below : ∀ slot, f.under path = some slot → slot.Bare final → (g slot).Bare final) :
    (f.change path g).Bare final := by
  induction path generalizing f with
  | nil => exact below f rfl h
  | cons _ path ih =>
    refine h.adjust (fun n found isFinal => ?_) fun n found bare => ih bare (fun n' inside => ?_)
      fun slot inside => below slot (by rw [Forest.under, found]; exact inside)
    · -- nothing is below a final node, so a longer path changes nothing there
      cases path with
      | nil => exact ends n found isFinal
      | cons => rfl
    · refine ends n' ?_
      cases path with
      | nil => simp [Forest.get] at inside
      | cons => rw [Forest.get, found]; exact inside; simp

end Bare

namespace Thins

variable {g : Forest Key Value}

omit [DecidableEq Key] in
theorem refl (f : Forest Key Value) : Thins f f := by
  induction f with
  | nil => exact .nil
  | node _ _ _ _ ihBelow ihRest => exact .keep ihBelow ihRest

omit [DecidableEq Key] in
theorem empty (f : Forest Key Value) : Thins .nil f := by
  induction f with
  | nil => exact .nil
  | node _ _ _ _ _ ihRest => exact .drop ihRest

omit [DecidableEq Key] in
theorem trans {e : Forest Key Value} (first : Thins e g) (h : Thins g f) : Thins e f := by
  induction h generalizing e with
  | nil => exact first
  | keep _ _ ihInside ihBeside =>
    cases first with
    | keep inside' beside' => exact .keep (ihInside inside') (ihBeside beside')
    | drop beside' => exact .drop (ihBeside beside')
  | drop _ ih => exact .drop (ih first)

omit [DecidableEq Key] in
theorem collect {select : Value → Option Selected} {above : List Key} (h : Thins g f) :
    (collect select above g).Sublist (collect select above f) := by
  induction h generalizing above with
  | nil => exact List.Sublist.refl _
  | keep _ _ ihInside ihBeside =>
    exact ((List.Sublist.refl _).append ihInside).append ihBeside
  | drop _ ih => exact ih.trans (sublist_append_right _ _)

theorem lookup_none (h : Thins g f) (absent : f.lookup k = none) : g.lookup k = none := by
  induction h with
  | nil => rfl
  | keep _ _ _ ih =>
    simp only [Forest.lookup] at absent ⊢
    split_ifs at absent ⊢
    exact ih absent
  | drop _ ih =>
    simp only [Forest.lookup] at absent
    split_ifs at absent
    exact ih absent

theorem distinct (h : Thins g f) (whole : f.Distinct) : g.Distinct := by
  induction h with
  | nil => trivial
  | keep _ beside ihInside ihBeside =>
    exact ⟨beside.lookup_none whole.1, ihInside whole.2.1, ihBeside whole.2.2⟩
  | drop _ ih => exact ih whole.2.2

omit [DecidableEq Key] in
theorem of_nil (h : Thins g (.nil : Forest Key Value)) : g = .nil := by
  cases h
  rfl

omit [DecidableEq Key] in
theorem bare {final : Value → Bool} (h : Thins g f) (whole : f.Bare final) : g.Bare final := by
  induction h with
  | nil => trivial
  | keep inside _ ihInside ihBeside =>
    refine ⟨fun isFinal => ?_, ihInside whole.2.1, ihBeside whole.2.2⟩
    have none := whole.1 isFinal
    subst none
    exact inside.of_nil
  | drop _ ih => exact ih whole.2.2

theorem lookup {n' : Value × Forest Key Value} (h : Thins g f) (whole : f.Distinct)
    (found : g.lookup k = some n') : ∃ n, f.lookup k = some n ∧ n'.1 = n.1 ∧ Thins n'.2 n.2 := by
  induction h with
  | nil => simp [Forest.lookup] at found
  | keep inside _ _ ih =>
    simp only [Forest.lookup] at found ⊢
    split_ifs at found ⊢ with here
    · cases found
      exact ⟨_, rfl, rfl, inside⟩
    · exact ih whole.2.2 found
  | @drop key value below rest rest' beside ih =>
    obtain ⟨n, found', same, thin⟩ := ih whole.2.2 found
    refine ⟨n, ?_, same, thin⟩
    have ne : key ≠ k := by
      rintro rfl
      exact absurd (whole.1.symm.trans found') (by simp)
    simpa [Forest.lookup, ne] using found'

theorem get {n' : Value × Forest Key Value} (h : Thins g f) (whole : f.Distinct)
    (found : g.get path = some n') : ∃ n, f.get path = some n ∧ n'.1 = n.1 ∧ Thins n'.2 n.2 := by
  induction path generalizing f g with
  | nil => simp [Forest.get] at found
  | cons _ path ih =>
    cases path with
    | nil => exact h.lookup whole found
    | cons =>
      obtain ⟨inner, here, inside⟩ := bind_eq_some_iff.mp found
      obtain ⟨outer, there, -, thin⟩ := h.lookup whole here
      obtain ⟨n, deeper⟩ := ih thin (whole.lookup there) inside
      exact ⟨n, by rw [Forest.get, there]; exact deeper.1; simp, deeper.2⟩

theorem erase (f : Forest Key Value) (k : Key) : Thins (f.erase k) f := by
  induction f with
  | nil => exact .nil
  | node _ _ below _ _ ih =>
    simp only [Forest.erase]
    split_ifs with same
    · exact .drop ih
    · exact .keep (refl below) ih

theorem adjust {g : Forest Key Value → Forest Key Value} (f : Forest Key Value) (k : Key)
    (thin : ∀ below, Thins (g below) below) : Thins (f.adjust k g) f := by
  induction f with
  | nil => exact .nil
  | node _ _ below rest _ ih =>
    simp only [Forest.adjust]
    split_ifs with same
    · exact .keep (thin below) (refl rest)
    · exact .keep (refl below) ih

theorem change {g : Forest Key Value → Forest Key Value} (f : Forest Key Value) (path : List Key)
    (thin : ∀ below, Thins (g below) below) : Thins (f.change path g) f := by
  induction path generalizing f with
  | nil => exact thin f
  | cons k _ ih => exact adjust f k fun below => ih below

end Thins

section All

variable {p : Value → Prop}

omit [DecidableEq Key] in
theorem All.thins {g : Forest Key Value} (h : f.All p) (thin : Thins g f) : g.All p := by
  induction thin with
  | nil => trivial
  | keep _ _ ihInside ihBeside => exact ⟨h.1, ihInside h.2.1, ihBeside h.2.2⟩
  | drop _ ih => exact ih h.2.2

theorem All.lookup (h : f.All p) (found : f.lookup k = some n) : p n.1 ∧ n.2.All p := by
  induction f with
  | nil => simp [Forest.lookup] at found
  | node _ _ _ _ _ ih =>
    simp only [Forest.lookup] at found
    split_ifs at found with here
    · cases found
      exact ⟨h.1, h.2.1⟩
    · exact ih h.2.2 found

theorem All.get (h : f.All p) (found : f.get path = some n) : p n.1 ∧ n.2.All p := by
  induction path generalizing f with
  | nil => simp [Forest.get] at found
  | cons _ path ih =>
    cases path with
    | nil => exact h.lookup found
    | cons =>
      obtain ⟨n', here, inside⟩ := bind_eq_some_iff.mp found
      exact ih (h.lookup here).2 inside

theorem All.adjust {g : Forest Key Value → Forest Key Value} (h : f.All p)
    (below : ∀ b, b.All p → (g b).All p) : (f.adjust k g).All p := by
  induction f with
  | nil => trivial
  | node _ _ b _ _ ih =>
    simp only [Forest.adjust]
    split_ifs
    · exact ⟨h.1, below b h.2.1, h.2.2⟩
    · exact ⟨h.1, h.2.1, ih h.2.2⟩

theorem All.change {g : Forest Key Value → Forest Key Value} (h : f.All p)
    (below : ∀ b, b.All p → (g b).All p) : (f.change path g).All p := by
  induction path generalizing f with
  | nil => exact below f h
  | cons _ _ ih => exact h.adjust fun b hb => ih hb

theorem All.insert (h : f.All p) (k : Key) (hn : p n.1 ∧ n.2.All p) : (f.insert k n).All p :=
  ⟨hn.1, hn.2, h.thins (.erase f k)⟩

end All

theorem get_of_lookup_none {path : List Key} (h : f.lookup k = none) : f.get (k :: path) = none := by
  cases path <;> simp [get, h]

theorem get_node_of_ne {key : Key} {value : Value} {below rest : Forest Key Value}
    (h : ∀ path', path ≠ key :: path') : (Forest.node key value below rest).get path = rest.get path := by
  rcases path with _ | ⟨k, _ | ⟨j, path⟩⟩
  · rfl
  · have ne : key ≠ k := fun same => h [] (by rw [same])
    simp [get, lookup, ne]
  · have ne : key ≠ k := fun same => h (j :: path) (by rw [same])
    simp [get, lookup, ne]

/-- In a forest of distinct siblings the selected values are those of the nodes, by their paths. -/
theorem mem_collect (distinct : f.Distinct) {x : Selected} {at' : List Key} :
    (x, at') ∈ collect select above f ↔
      ∃ path n, at' = above ++ path ∧ f.get path = some n ∧ select n.1 = some x := by
  induction f generalizing above with
  | nil => 
    simp only [collect, not_mem_nil, false_iff]
    rintro ⟨path, n, -, found, -⟩
    cases path with
    | nil => simp [get] at found
    | cons _ path => cases path <;> simp [get, lookup] at found
  | node key value below _ ihBelow ihRest =>
    simp only [collect, mem_append, mem_toList, map_eq_some_iff, Prod.mk.injEq]
    rw [ihBelow distinct.2.1, ihRest distinct.2.2]
    constructor
    · rintro ((⟨_, here, rfl, rfl⟩ | ⟨path, n, rfl, found, here⟩) | ⟨path, n, rfl, found, here⟩)
      · exact ⟨[key], (value, below), rfl, by simp [get, lookup], here⟩
      · refine ⟨key :: path, n, by simp, ?_, here⟩
        cases path with
        | nil => simp [get] at found
        | cons => simpa [get, lookup] using found
      · refine ⟨path, n, rfl, ?_, here⟩
        rwa [get_node_of_ne]
        rintro path' rfl
        rw [get_of_lookup_none distinct.1] at found
        exact absurd found (by simp)
    · rintro ⟨path, n, rfl, found, here⟩
      rcases path with _ | ⟨k, _ | ⟨j, path⟩⟩
      · simp [get] at found
      · simp only [get, lookup] at found
        split_ifs at found with same
        · obtain rfl := Option.some.inj found
          subst same
          exact .inl (.inl ⟨x, here, rfl, rfl⟩)
        · exact .inr ⟨[k], n, rfl, found, here⟩
      · simp only [get, lookup] at found
        split_ifs at found with same
        · subst same
          exact .inl (.inr ⟨j :: path, n, by simp, found, here⟩)
        · exact .inr ⟨k :: j :: path, n, rfl, found, here⟩

end Forest

end JackalopeFs.NamedForests
