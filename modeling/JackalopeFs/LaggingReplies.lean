import Mathlib.Algebra.Order.BigOperators.Group.List
import Mathlib.Data.Finset.Card
import Mathlib.Data.List.AList
import Mathlib.Data.List.Sort
import Mathlib.Tactic.Ring

/-! # Replies that are older than they arrive

Something keeps changing under each key, and every change counts.  Answers say how it was at one
moment, reach their reader some time later, and some of what they say is kept.  A reader who is told of
a change drops what it kept; whether what it keeps is then never from before a change it was told of
depends on the answers that were still on their way.
-/

namespace JackalopeFs.LaggingReplies

universe u

variable {Key : Type u}

/-- Nothing kept or on its way is from before a change that the reader was told of.  `now` counts the
changes, and an answer is known by how many there were when it was made. -/
structure Current (now : Key → ℕ) (Told Answer Kept : Key → ℕ → Prop) : Prop where
  past : ∀ k change, Told k change → change ≤ now k
  answers : ∀ k change made, Told k change → Answer k made → change ≤ made
  kept : ∀ k change made, Told k change → Kept k made → change ≤ made

variable {now now' : Key → ℕ} {Told Told' Answer Answer' Kept Kept' : Key → ℕ → Prop}

/-- Changes, new answers, and answers that are kept or lost. -/
theorem Current.step (h : Current now Told Answer Kept) (later : ∀ k, now k ≤ now' k)
    (answers : ∀ k made, Answer' k made → Answer k made ∨ made = now k)
    (kept : ∀ k made, Kept' k made → Kept k made ∨ Answer k made) :
    Current now' Told Answer' Kept' := by
  refine ⟨fun k change told => (h.past k change told).trans (later k), ?_, ?_⟩
  · intro k change made told answer
    cases answers k made answer with
    | inl old => exact h.answers k change made told old
    | inr new =>
      rw [new]
      exact h.past k change told
  · intro k change made told keeps
    cases kept k made keeps with
    | inl old => exact h.kept k change made told old
    | inr new => exact h.answers k change made told new

/-- The reader is told of a change that every answer on its way knows of, and keeps nothing. -/
theorem Current.tell (h : Current now Told Answer Kept) {k : Key} {change : ℕ} (happened : change ≤ now k)
    (known : ∀ made, Answer k made → change ≤ made)
    (told : ∀ j w, Told' j w → Told j w ∨ j = k ∧ w = change)
    (answers : ∀ j made, Answer' j made → Answer j made)
    (kept : ∀ j made, Kept' j made → Kept j made ∧ j ≠ k) : Current now Told' Answer' Kept' := by
  refine ⟨fun j w tells => ?_, fun j w made tells answer => ?_, fun j w made tells keeps => ?_⟩
  · obtain old | ⟨rfl, rfl⟩ := told j w tells
    · exact h.past j w old
    · exact happened
  · obtain old | ⟨rfl, rfl⟩ := told j w tells
    · exact h.answers j w made old (answers j made answer)
    · exact known made (answers _ made answer)
  · obtain ⟨old, other⟩ := kept j made keeps
    obtain before | ⟨same, -⟩ := told j w tells
    · exact h.kept j w made before old
    · exact absurd same other

end JackalopeFs.LaggingReplies
