import JackalopeFs.NamedForests

/-! # Walks down a forest

A walk from a node follows keys to the nodes below it.  A relation holds along the edges of
a node if it holds between every node reached and those right below; it then holds along
the edges of every part, and a node put into a forest needs it for one new edge only.
-/

namespace JackalopeFs.NamedForests.Forest

open List Option

universe u v

variable {Key : Type u} {Value : Type v} [DecidableEq Key]

def nodeAt (n : Value × Forest Key Value) : List Key → Option (Value × Forest Key Value)
  | [] => some n
  | k :: path => (n.2.lookup k).bind fun c => nodeAt c path

/-- The relation holds between every node and those right below it. -/
def Edges (q : Value → Key → Value → Prop) (n : Value × Forest Key Value) : Prop :=
  ∀ path k m m', nodeAt n path = some m → nodeAt n (path ++ [k]) = some m' → q m.1 k m'.1

variable {n m : Value × Forest Key Value} {f g : Forest Key Value} {k : Key} {v : Value}
variable {path rest : List Key} {q q' : Value → Key → Value → Prop}

theorem nodeAt_append (n : Value × Forest Key Value) (path rest : List Key) :
    nodeAt n (path ++ rest) = (nodeAt n path).bind fun m => nodeAt m rest := by
  induction path generalizing n with
  | nil => rfl
  | cons _ _ ih =>
    simp only [cons_append, nodeAt, bind_assoc]
    exact congrArg _ (funext ih)

theorem nodeAt_concat (n : Value × Forest Key Value) (path : List Key) (k : Key) :
    nodeAt n (path ++ [k]) = (nodeAt n path).bind fun m => m.2.lookup k := by
  simp [nodeAt_append, nodeAt]

theorem under_eq_nodeAt (v : Value) : f.under path = (nodeAt (v, f) path).map Prod.snd := by
  induction path generalizing f v with
  | nil => rfl
  | cons k _ ih =>
    simp only [under, nodeAt]
    cases f.lookup k with
    | none => rfl
    | some c => exact ih c.1

theorem get_eq_nodeAt (v : Value) (inside : path ≠ []) : f.get path = nodeAt (v, f) path := by
  obtain ⟨front, last, rfl⟩ := (eq_nil_or_concat path).resolve_left inside
  rw [concat_eq_append, get_append, nodeAt_concat, under_eq_nodeAt v, bind_map]
  rfl

theorem Thins.nodeAt {n' : Value × Forest Key Value} (h : Thins g f) (whole : f.Distinct)
    (found : Forest.nodeAt (v, g) path = some n') :
    ∃ n, Forest.nodeAt (v, f) path = some n ∧ n'.1 = n.1 ∧ Thins n'.2 n.2 := by
  induction path generalizing f g v with
  | nil =>
    cases found
    exact ⟨_, rfl, rfl, h⟩
  | cons _ _ ih =>
    obtain ⟨inner, here, inside⟩ := bind_eq_some_iff.mp found
    obtain ⟨outer, there, same, thin⟩ := h.lookup whole here
    obtain ⟨n, deeper, rest⟩ := ih (v := inner.1) thin (whole.lookup there) inside
    refine ⟨n, ?_, rest⟩
    simp only [Forest.nodeAt, there, bind_some]
    rw [same] at deeper
    exact deeper

theorem nodeAt_change (path rest : List Key) (g : Forest Key Value → Forest Key Value) :
    nodeAt (v, f.change path g) (path ++ rest) =
      (nodeAt (v, f) path).bind fun m => nodeAt (m.1, g m.2) rest := by
  induction path generalizing f v with
  | nil => rfl
  | cons k _ ih =>
    simp only [cons_append, nodeAt, change, lookup_adjust, if_pos]
    cases f.lookup k with
    | none => rfl
    | some => exact ih

theorem nodeAt_change_of_not_prefix {names : List Key} (g : Forest Key Value → Forest Key Value)
    (apart : ¬ path <+: names) :
    (nodeAt (v, f.change path g) names).map Prod.fst = (nodeAt (v, f) names).map Prod.fst := by
  induction path generalizing f v names with
  | nil => exact absurd nil_prefix apart
  | cons _ path ih =>
    cases names with
    | nil => rfl
    | cons j names =>
      simp only [nodeAt, change, lookup_adjust]
      split_ifs with same
      · subst same
        have apart' : ¬ path <+: names := fun inside => apart (cons_prefix_cons.mpr ⟨rfl, inside⟩)
        cases f.lookup j with
        | none => rfl
        | some => exact ih apart'
      · rfl

namespace Edges

theorem imp (h : Edges q n) (all : ∀ path k m m', nodeAt n path = some m →
    nodeAt n (path ++ [k]) = some m' → q m.1 k m'.1 → q' m.1 k m'.1) : Edges q' n :=
  fun path k m m' here below => all path k m m' here below (h path k m m' here below)

theorem leaf (q : Value → Key → Value → Prop) (v : Value) : Edges q (v, .nil) := by
  intro path k m m' here below
  cases path with
  | nil =>
    cases here
    cases below
  | cons => cases here

theorem nodeAt (h : Edges q n) (found : Forest.nodeAt n path = some m) : Edges q m := by
  intro rest k u u' here below
  refine h (path ++ rest) k u u' ?_ ?_
  · rw [nodeAt_append, found]
    exact here
  · rw [append_assoc, nodeAt_append, found]
    exact below

theorem thins (h : Edges q (v, f)) (whole : f.Distinct) (thin : Thins g f) : Edges q (v, g) := by
  intro path k m m' here below
  obtain ⟨u, here', same, -⟩ := thin.nodeAt whole here
  obtain ⟨u', below', same', -⟩ := thin.nodeAt whole below
  rw [same, same']
  exact h path k u u' here' below'

theorem insert (h : Edges q (v, f)) (below : Edges q n)
    (joint : ∀ m, Forest.nodeAt (v, f) path = some m → q m.1 k n.1) :
    Edges q (v, f.change path (Forest.insert k n)) := by
  intro names j m m' here next
  by_cases inside : path <+: names
  · obtain ⟨rest, rfl⟩ := inside
    rw [append_assoc] at next
    rw [nodeAt_change] at here next
    obtain ⟨above, found, here⟩ := bind_eq_some_iff.mp here
    rw [found, bind_some] at next
    cases rest with
    | nil =>
      cases here
      simp only [nil_append, Forest.nodeAt, lookup_insert] at next
      split_ifs at next with same
      · cases next
        rw [same]
        exact joint above found
      · refine h path j above m' found ?_
        rw [nodeAt_append, found]
        exact next
    | cons i rest =>
      simp only [cons_append, Forest.nodeAt, lookup_insert] at here next
      split_ifs at here next
      · exact below rest j m m' here next
      · refine h (path ++ i :: rest) j m m' ?_ ?_
        · rw [nodeAt_append, found]
          exact here
        · rw [append_assoc, nodeAt_append, found]
          exact next
  · have old := nodeAt_change_of_not_prefix (v := v) (f := f) (Forest.insert k n) inside
    rw [here] at old
    obtain ⟨u, here', same⟩ := map_eq_some_iff.mp old.symm
    by_cases reaches : path <+: names ++ [j]
    · -- the walk ends where the node is put
      obtain rfl : path = names ++ [j] :=
        (prefix_concat_iff.mp reaches).resolve_right inside
      have there := nodeAt_change (v := v) (f := f) (names ++ [j]) [] (Forest.insert k n)
      rw [append_nil, next] at there
      obtain ⟨u', found, same'⟩ := bind_eq_some_iff.mp there.symm
      obtain rfl := Option.some.inj same'
      rw [← same]
      exact h names j u u' here' found
    · have next' := nodeAt_change_of_not_prefix (v := v) (f := f) (Forest.insert k n) reaches
      rw [next] at next'
      obtain ⟨u', below', same'⟩ := map_eq_some_iff.mp next'.symm
      rw [← same, ← same']
      exact h names j u u' here' below'

end Edges

end JackalopeFs.NamedForests.Forest
