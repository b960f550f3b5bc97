import Mathlib.Data.List.Nodup
import Mathlib.Data.List.Basic

/-! # Depth-bounded search

A backtracking search for a target in a labelled graph, guarded by a depth only: at
every node the outgoing edges are tried in their order, and the labels along the first
way to the target are given, those nearest the target first.  Nothing keeps the search
from trying an edge again on another way or from going round a cycle.  It finds a way
whenever there is one within its depth; what it finds depends on the depth unless no
walk is as long as that; and it tries no edge twice where no walk is, and where nothing
that cannot reach the target is reached in two ways.
-/

namespace JackalopeFs.BoundedSearch

open List

variable {Node Label : Type*}

inductive Walk (edges : Node → List (Node × Label)) : Node → List (Node × Label) → Node → Prop where
  | stay (v : Node) : Walk edges v [] v
  | follow {v w : Node} {edge : Node × Label} {rest : List (Node × Label)}
      (here : edge ∈ edges v) (onward : Walk edges edge.1 rest w) : Walk edges v (edge :: rest) w

/-- The labels of a walk, those nearest its end first. -/
def spelled (walk : List (Node × Label)) : List Label :=
  (walk.map Prod.snd).reverse

def nodesOf (v : Node) (walk : List (Node × Label)) : List Node :=
  v :: walk.map Prod.fst

@[simp] theorem spelled_cons (edge : Node × Label) (walk : List (Node × Label)) :
    spelled (edge :: walk) = spelled walk ++ [edge.2] := by
  simp [spelled]

@[simp] theorem length_spelled (walk : List (Node × Label)) :
    (spelled walk).length = walk.length := by
  simp [spelled]

section Walks

variable {edges : Node → List (Node × Label)} {u v w : Node}

theorem Walk.append {front back : List (Node × Label)} (first : Walk edges u front v)
    (second : Walk edges v back w) : Walk edges u (front ++ back) w := by
  induction first with
  | stay => exact second
  | follow here _ ih => exact .follow here (ih second)

variable {walk : List (Node × Label)}

theorem Walk.mono {edges' : Node → List (Node × Label)} (sub : ∀ v, ∀ e ∈ edges v, e ∈ edges' v)
    (h : Walk edges v walk w) : Walk edges' v walk w := by
  induction h with
  | stay v => exact .stay v
  | follow here _ ih => exact .follow (sub _ _ here) ih

def Within (edges : Node → List (Node × Label)) (v : Node) (bound : ℕ) : Prop :=
  ∀ walk w, Walk edges v walk w → walk.length ≤ bound

theorem Within.up {bound : ℕ} (h : Within edges v (bound + 1)) {edge : Node × Label}
    (here : edge ∈ edges v) : Within edges edge.1 bound := by
  intro walk w onward
  have le := h _ _ (.follow here onward)
  rw [length_cons] at le
  omega

theorem Within.mono {edges' : Node → List (Node × Label)} {bound : ℕ}
    (h : Within edges' v bound) (sub : ∀ v, ∀ e ∈ edges v, e ∈ edges' v) : Within edges v bound :=
  fun _ _ walked => h _ _ (walked.mono sub)

/-- Going round once more is a longer walk. -/
theorem Walk.times (round : Walk edges v walk v) (n : ℕ) :
    Walk edges v (List.replicate n walk).flatten v := by
  induction n with
  | zero => exact .stay v
  | succ _ ih =>
    rw [replicate_succ, flatten_cons]
    exact round.append ih

theorem Within.acyclic {bound : ℕ} (h : Within edges v bound) (round : Walk edges v walk v) :
    walk = [] := by
  by_contra proper
  have long := h _ _ (round.times (bound + 1))
  have step := length_pos_iff.mpr proper
  have grows : bound + 1 ≤ (bound + 1) * walk.length := Nat.le_mul_of_pos_right _ step
  simp only [length_flatten, map_replicate, sum_replicate_nat] at long
  omega

def DeadEnd (edges : Node → List (Node × Label)) (target v : Node) : Prop :=
  ∀ walk, ¬Walk edges v walk target

theorem DeadEnd.of_walk {target : Node} (h : DeadEnd edges target v)
    (walked : Walk edges v walk w) : DeadEnd edges target w :=
  fun _ onward => h _ (walked.append onward)

def Unshared (edges : Node → List (Node × Label)) (target v : Node) : Prop :=
  ∀ u, DeadEnd edges target u → ∀ walk walk', Walk edges v walk u → Walk edges v walk' u → walk = walk'

theorem Unshared.up {target : Node} (h : Unshared edges target v) {edge : Node × Label}
    (here : edge ∈ edges v) : Unshared edges target edge.1 := by
  intro u dead walk walk' first second
  have same := h u dead _ _ (.follow here first) (.follow here second)
  exact (List.cons.inj same).2

end Walks

theorem findSome_congr {α β : Type*} {f g : α → Option β} {list : List α}
    (same : ∀ a ∈ list, f a = g a) : list.findSome? f = list.findSome? g := by
  induction list with
  | nil => rfl
  | cons a _ ih =>
    rw [findSome?_cons, findSome?_cons, same a mem_cons_self,
      ih fun b later => same b (mem_cons_of_mem _ later)]

/-- Try these edges of `v` in turn, given what each of them leads to. -/
def tryEach (v : Node) (onward : Node → Option (List Label) × List (Node × Node × Label)) :
    List (Node × Label) → Option (List Label) × List (Node × Node × Label)
  | [] => (none, [])
  | edge :: rest =>
    match onward edge.1 with
    | (some labels, tried) => (some (labels ++ [edge.2]), (v, edge) :: tried)
    | (none, tried) =>
      let later := tryEach v onward rest
      (later.1, (v, edge) :: tried ++ later.2)

theorem fst_tryEach {v : Node} (onward : Node → Option (List Label) × List (Node × Node × Label))
    (list : List (Node × Label)) :
    (tryEach v onward list).1 =
      list.findSome? fun edge => (onward edge.1).1.map fun labels => labels ++ [edge.2] := by
  induction list with
  | nil => rfl
  | cons edge rest ih =>
    rw [tryEach, findSome?_cons]
    split
    · rename_i labels tried leads
      simp [leads]
    · rename_i tried leads
      simp [leads, ih]

/-- What is tried from `v`: edges of nodes that walks from `v` get to, none of them twice. -/
structure Tried (edges : Node → List (Node × Label)) (v : Node)
    (tried : List (Node × Node × Label)) : Prop where
  nodup : tried.Nodup
  edge : ∀ s ∈ tried, s.2 ∈ edges s.1
  reached : ∀ s ∈ tried, ∃ walk, Walk edges v walk s.1

/-- One node's part of the trace: what its edges are tried for, if what they lead to is tried
so and each of those that fail is a dead end. -/
theorem tried_tryEach {edges : Node → List (Node × Label)} {target v : Node}
    {onward : Node → Option (List Label) × List (Node × Node × Label)}
    (acyclic : ∀ walk, Walk edges v walk v → walk = []) (unshared : Unshared edges target v)
    (each : ∀ edge ∈ edges v, Tried edges edge.1 (onward edge.1).2)
    (dead : ∀ edge ∈ edges v, (onward edge.1).1 = none → DeadEnd edges target edge.1)
    (list : List (Node × Label)) (own : ∀ edge ∈ list, edge ∈ edges v) (distinct : list.Nodup) :
    (tryEach v onward list).2.Nodup ∧ ∀ s ∈ (tryEach v onward list).2,
      (s.1 = v ∧ s.2 ∈ list) ∨ ∃ edge ∈ list, s ∈ (onward edge.1).2 := by
  induction list with
  | nil => simp [tryEach]
  | cons edge rest ih =>
    obtain ⟨fresh, distinct'⟩ := nodup_cons.mp distinct
    have here := own edge mem_cons_self
    have own' : ∀ e ∈ rest, e ∈ edges v := fun e later => own e (mem_cons_of_mem _ later)
    obtain ⟨nodup, sorted⟩ := ih own' distinct'
    -- an edge of `v` is not tried again further on: that would close a cycle
    have apart : ∀ e ∈ edges v, ∀ s ∈ (onward e.1).2, s.1 ≠ v := by
      intro e ofV s later back
      obtain ⟨walk, walked⟩ := (each e ofV).reached s later
      rw [back] at walked
      cases acyclic _ (.follow ofV walked)
    have first : ((v, edge) :: (onward edge.1).2).Nodup :=
      nodup_cons.mpr ⟨fun again => apart edge here _ again rfl, (each edge here).nodup⟩
    have placed : ∀ s ∈ (v, edge) :: (onward edge.1).2,
        (s.1 = v ∧ s.2 ∈ edge :: rest) ∨ ∃ e ∈ edge :: rest, s ∈ (onward e.1).2 := by
      intro s listed
      rcases mem_cons.mp listed with rfl | further
      · exact .inl ⟨rfl, mem_cons_self⟩
      · exact .inr ⟨edge, mem_cons_self, further⟩
    rw [tryEach]
    split
    · rename_i labels tried leads
      have eq : tried = (onward edge.1).2 := by rw [leads]
      subst eq
      exact ⟨first, placed⟩
    · rename_i tried leads
      have eq : tried = (onward edge.1).2 := by rw [leads]
      subst eq
      have stuck := dead edge here (by rw [leads])
      refine ⟨nodup_append.mpr ⟨first, nodup, ?_⟩, ?_⟩
      · rintro s before _ after rfl
        rcases sorted s after with ⟨back, listed⟩ | ⟨e, listed, further⟩
        · rcases mem_cons.mp before with rfl | further
          · exact fresh listed
          · exact apart edge here s further back
        · rcases mem_cons.mp before with rfl | further'
          · exact apart e (own' e listed) _ further rfl
          · -- the node of `s` is dead and two walks get to it
            obtain ⟨walk, walked⟩ := (each edge here).reached s further'
            obtain ⟨walk', walked'⟩ := (each e (own' e listed)).reached s further
            have same := unshared _ (stuck.of_walk walked) _ _ (.follow here walked)
              (.follow (own' e listed) walked')
            rw [(List.cons.inj same).1] at fresh
            exact fresh listed
      · intro s listed
        rcases mem_append.mp listed with before | after
        · exact placed s before
        · rcases sorted s after with ⟨back, listed⟩ | ⟨e, listed, further⟩
          · exact .inl ⟨back, mem_cons_of_mem _ listed⟩
          · exact .inr ⟨e, mem_cons_of_mem _ listed, further⟩

section Search

variable [DecidableEq Node] (edges : Node → List (Node × Label)) (target : Node)

/-- The labels along the first way of at most `depth` edges to the target. -/
def search : ℕ → Node → Option (List Label)
  | 0, v => if v = target then some [] else none
  | depth + 1, v =>
    if v = target then some []
    else (edges v).findSome? fun edge => (search depth edge.1).map fun labels => labels ++ [edge.2]

/-- The search, with every edge that it tries and the node it tries it at. -/
def trace : ℕ → Node → Option (List Label) × List (Node × Node × Label)
  | 0, v => (if v = target then some [] else none, [])
  | depth + 1, v => if v = target then (some [], []) else tryEach v (trace depth) (edges v)

variable {edges target} {v w : Node}

theorem search_target (depth : ℕ) : search edges target depth target = some [] := by
  cases depth with
  | zero => rw [search, if_pos rfl]
  | succ => rw [search, if_pos rfl]

theorem search_succ (other : v ≠ target) (depth : ℕ) :
    search edges target (depth + 1) v =
      (edges v).findSome? fun edge =>
        (search edges target depth edge.1).map fun labels => labels ++ [edge.2] := by
  rw [search, if_neg other]

variable {depth : ℕ}

/-- What is found is the way along a walk within the depth. -/
theorem search_sound {labels : List Label} (found : search edges target depth v = some labels) :
    ∃ walk, Walk edges v walk target ∧ walk.length ≤ depth ∧ spelled walk = labels := by
  induction depth generalizing v labels with
  | zero =>
    rw [search] at found
    split_ifs at found with there
    cases found
    subst there
    exact ⟨[], .stay v, Nat.le_refl _, rfl⟩
  | succ _ ih =>
    by_cases there : v = target
    · subst there
      rw [search_target] at found
      cases found
      exact ⟨[], .stay v, Nat.zero_le _, rfl⟩
    · rw [search_succ there] at found
      obtain ⟨edge, here, leads⟩ := exists_of_findSome?_eq_some found
      obtain ⟨names, above, rfl⟩ := Option.map_eq_some_iff.mp leads
      obtain ⟨walk, onward, short, rfl⟩ := ih above
      exact ⟨edge :: walk, .follow here onward, Nat.succ_le_succ short, spelled_cons edge walk⟩

/-- A walk within the depth makes the search find one. -/
theorem search_complete {walk : List (Node × Label)} (walked : Walk edges v walk target)
    (short : walk.length ≤ depth) :
    (search edges target depth v).isSome = true := by
  induction depth generalizing v walk with
  | zero =>
    cases walked with
    | stay => simp [search]
    | follow => simp at short
  | succ _ ih =>
    by_cases there : v = target
    · subst there
      simp [search_target]
    · rw [search_succ there, findSome?_isSome_iff]
      cases walked with
      | stay => exact absurd rfl there
      | follow here onward =>
        refine ⟨_, here, ?_⟩
        rw [Option.isSome_map]
        exact ih onward (Nat.le_of_succ_le_succ short)

/-- Past the longest walk to the target the depth makes no difference. -/
theorem search_stable {bound depth : ℕ}
    (longest : ∀ walk, Walk edges v walk target → walk.length ≤ bound) (deep : bound ≤ depth) :
    search edges target depth v = search edges target bound v := by
  induction bound generalizing v depth with
  | zero =>
    by_cases there : v = target
    · subst there
      rw [search_target, search_target]
    · -- a walk to the target from here would have to be empty
      have fails : ∀ d, search edges target d v = none := by
        intro d
        rw [Option.eq_none_iff_forall_ne_some]
        intro labels found
        obtain ⟨walk, walked, -, -⟩ := search_sound found
        cases walked with
        | stay => exact there rfl
        | follow here onward => simpa using longest _ (.follow here onward)
      rw [fails, fails]
  | succ bound ih =>
    obtain ⟨depth, rfl⟩ : ∃ d, depth = d + 1 := ⟨depth - 1, by omega⟩
    by_cases there : v = target
    · subst there
      rw [search_target, search_target]
    · rw [search_succ there, search_succ there]
      apply findSome_congr
      intro edge here
      have further : ∀ walk, Walk edges edge.1 walk target → walk.length ≤ bound :=
        fun walk onward => Nat.le_of_succ_le_succ (longest _ (.follow here onward))
      rw [ih further (Nat.le_of_succ_le_succ deep)]

/-- The trace is one of the search. -/
theorem fst_trace (depth : ℕ) (v : Node) :
    (trace edges target depth v).1 = search edges target depth v := by
  induction depth generalizing v with
  | zero => rfl
  | succ _ ih =>
    rw [trace, search]
    split_ifs
    · rfl
    · rw [fst_tryEach]
      simp only [ih]

theorem deadEnd_of_fails (within : Within edges v depth)
    (fails : search edges target depth v = none) : DeadEnd edges target v := by
  intro walk walked
  have finds := search_complete walked (within _ _ walked)
  rw [fails] at finds
  cases finds

/-- No edge is tried twice. -/
theorem tried_trace (within : Within edges v depth) (unshared : Unshared edges target v)
    (distinct : ∀ walk u, Walk edges v walk u → (edges u).Nodup) :
    Tried edges v (trace edges target depth v).2 := by
  induction depth generalizing v with
  | zero => exact ⟨nodup_nil, by simp [trace], by simp [trace]⟩
  | succ depth ih =>
    by_cases there : v = target
    · rw [trace, if_pos there]
      exact ⟨nodup_nil, by simp, by simp⟩
    · have each : ∀ edge ∈ edges v, Tried edges edge.1 (trace edges target depth edge.1).2 := by
        intro edge here
        apply ih (within.up here) (unshared.up here)
        intro walk u onward
        exact distinct _ u (.follow here onward)
      have dead : ∀ edge ∈ edges v, (trace edges target depth edge.1).1 = none →
          DeadEnd edges target edge.1 := by
        intro edge here fails
        rw [fst_trace] at fails
        exact deadEnd_of_fails (within.up here) fails
      obtain ⟨nodup, placed⟩ := tried_tryEach (fun _ round => within.acyclic round) unshared each
        dead (edges v) (fun _ here => here) (distinct _ v (.stay v))
      rw [trace, if_neg there]
      refine ⟨nodup, fun s listed => ?_, fun s listed => ?_⟩
      · rcases placed s listed with ⟨back, own⟩ | ⟨edge, here, further⟩
        · rw [back]
          exact own
        · exact (each edge here).edge s further
      · rcases placed s listed with ⟨back, own⟩ | ⟨edge, here, further⟩
        · rw [back]
          exact ⟨[], .stay v⟩
        · obtain ⟨walk, walked⟩ := (each edge here).reached s further
          exact ⟨edge :: walk, .follow here walked⟩

end Search

end JackalopeFs.BoundedSearch
