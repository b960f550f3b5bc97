import Mathlib.Algebra.Order.BigOperators.Group.List
import Mathlib.Data.Finset.Card
import Mathlib.Data.List.AList
import Mathlib.Data.List.Sort
import Mathlib.Tactic.Ring

/-! # Association lists: counting, rewriting and restricting their entries

Mathlib's `AList` carries the distinctness of its keys.  These are the effects of
adding a new key and of removing a present one on the number of entries with a
given property, the size of a table being the case where every entry counts, and
three operations: a function applied to every value or to the value of one key, and the
part of a table whose keys have a property.
-/

namespace JackalopeFs.KeyedTables

open List

universe u v

variable {Key : Type u} {Value : Type v} [DecidableEq Key]
variable {table : AList fun _ : Key => Value} {k : Key} {v : Value}

theorem countP_insert_new (p : (Σ _ : Key, Value) → Bool) (h : table.lookup k = none) :
    (table.insert k v).entries.countP p = table.entries.countP p + (if p ⟨k, v⟩ then 1 else 0) := by
  rw [AList.entries_insert_of_notMem (AList.lookup_eq_none.mp h), countP_cons]

theorem perm_erase_held (h : table.lookup k = some v) :
    table.entries.Perm (⟨k, v⟩ :: (table.erase k).entries) := by
  have held : k ∈ table.entries.keys := AList.lookup_isSome.mp (by simp [h])
  obtain ⟨b, before, after, absent, whole, rest⟩ := exists_of_kerase held
  have same : b = v := by
    have found : table.entries.dlookup k = some b := by
      rw [whole]
      exact (dlookup_append _ _ _).trans (by simp [dlookup_eq_none.mpr absent])
    exact Option.some.inj (found.symm.trans h)
  subst same
  change table.entries.Perm (_ :: List.kerase k table.entries)
  rw [rest, whole]
  exact perm_middle

theorem countP_erase_held (p : (Σ _ : Key, Value) → Bool) (h : table.lookup k = some v) :
    (table.erase k).entries.countP p + (if p ⟨k, v⟩ then 1 else 0) = table.entries.countP p := by
  rw [(perm_erase_held h).countP_eq, countP_cons]

theorem length_insert_new (h : table.lookup k = none) :
    (table.insert k v).entries.length = table.entries.length + 1 := by
  simpa using countP_insert_new (v := v) (fun _ => true) h

theorem length_erase_held (h : table.lookup k = some v) :
    (table.erase k).entries.length + 1 = table.entries.length := by
  simpa using countP_erase_held (fun _ => true) h

theorem of_lookup_insert {j : Key} {x : Value} (h : (table.insert k v).lookup j = some x) :
    (j = k ∧ x = v) ∨ (j ≠ k ∧ table.lookup j = some x) := by
  by_cases same : j = k
  · subst same
    rw [AList.lookup_insert] at h
    exact .inl ⟨rfl, (Option.some.inj h).symm⟩
  · rw [AList.lookup_insert_ne same] at h
    exact .inr ⟨same, h⟩

/-- A table filled from items, each at its key and from what was there or `fresh`: the entry of a key is made
by the items with that key, in their order. -/
theorem lookup_foldl_insert {Item : Type*} (f : Value → Item → Value) (fresh : Value) (key : Item → Key)
    (items : List Item) (k : Key) :
    (items.foldl (fun table item => table.insert (key item) (f ((table.lookup (key item)).getD fresh) item))
      (∅ : AList fun _ : Key => Value)).lookup k =
      if (items.filter fun item => key item = k).isEmpty then none
      else some ((items.filter fun item => key item = k).foldl f fresh) := by
  induction items using List.reverseRecOn with
  | nil => rfl
  | append_singleton items item ih =>
    rw [foldl_append, foldl_cons, foldl_nil, filter_append, filter_singleton]
    by_cases same : key item = k
    · subst same
      rw [AList.lookup_insert, ih]
      cases made : items.filter fun other => key other = key item <;> simp
    · rw [AList.lookup_insert_ne (Ne.symm same), ih]
      simp [same]

theorem of_lookup_erase {j : Key} {x : Value} (h : (table.erase k).lookup j = some x) :
    j ≠ k ∧ table.lookup j = some x := by
  by_cases same : j = k
  · subst same
    exact absurd h (by simp)
  · rw [AList.lookup_erase_ne same] at h
    exact ⟨same, h⟩

def mapValues (f : Value → Value) (table : AList fun _ : Key => Value) :
    AList fun _ : Key => Value :=
  ⟨table.entries.map fun e => ⟨e.1, f e.2⟩, by
    have keys : (table.entries.map fun e => (⟨e.1, f e.2⟩ : Σ _ : Key, Value)).keys =
        table.entries.keys := by
      simp [List.keys, Function.comp_def]
    rw [List.NodupKeys, keys]
    exact table.nodupKeys⟩

def restrict (p : Key → Bool) (table : AList fun _ : Key => Value) :
    AList fun _ : Key => Value :=
  ⟨table.entries.filter fun e => p e.1, by
    have sub : (table.entries.filter fun e => p e.1).keys.Sublist table.entries.keys :=
      filter_sublist.map _
    exact sub.nodup table.nodupKeys⟩

theorem lookup_eq_some_iff : table.lookup k = some v ↔ ⟨k, v⟩ ∈ table.entries :=
  AList.mem_lookup_iff

theorem lookup_mapValues (f : Value → Value) :
    (mapValues f table).lookup k = (table.lookup k).map f := by
  apply Option.ext
  intro w
  rw [lookup_eq_some_iff, Option.map_eq_some_iff]
  simp only [lookup_eq_some_iff]
  constructor
  · intro mem
    obtain ⟨e, listed, same⟩ := mem_map.mp mem
    cases same
    exact ⟨e.2, listed, rfl⟩
  · rintro ⟨a, mem, rfl⟩
    exact mem_map.mpr ⟨⟨k, a⟩, mem, rfl⟩

theorem lookup_restrict (p : Key → Bool) :
    (restrict p table).lookup k = if p k then table.lookup k else none := by
  apply Option.ext
  intro w
  rw [lookup_eq_some_iff]
  have filtered : (⟨k, w⟩ : Σ _ : Key, Value) ∈ (restrict p table).entries ↔
      ⟨k, w⟩ ∈ table.entries ∧ p k = true := mem_filter
  rw [filtered, ← lookup_eq_some_iff]
  split_ifs with holds
  · simp [holds]
  · simp [holds]

/-- Apply `f` to the value under `k`, if there is one. -/
def modify (table : AList fun _ : Key => Value) (k : Key) (f : Value → Value) :
    AList fun _ : Key => Value :=
  match table.lookup k with
  | some v => table.insert k (f v)
  | none => table

theorem lookup_modify (f : Value → Value) (j : Key) :
    (modify table k f).lookup j = if j = k then (table.lookup k).map f else table.lookup j := by
  unfold modify
  cases held : table.lookup k with
  | none =>
    split_ifs with same
    · rw [same, held]
      rfl
    · rfl
  | some =>
    split_ifs with same
    · rw [same, AList.lookup_insert]
      rfl
    · exact AList.lookup_insert_ne same

theorem of_lookup_modify {f : Value → Value} {j : Key} {new : Value}
    (h : (modify table k f).lookup j = some new) :
    ∃ old, table.lookup j = some old ∧ (new = old ∨ j = k ∧ new = f old) := by
  rw [lookup_modify] at h
  split_ifs at h with same
  · obtain ⟨old, held, rfl⟩ := Option.map_eq_some_iff.mp h
    exact ⟨old, same ▸ held, .inr ⟨same, rfl⟩⟩
  · exact ⟨new, h, .inl rfl⟩

end JackalopeFs.KeyedTables
