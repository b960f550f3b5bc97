import Mathlib.Algebra.BigOperators.Group.List.Basic
import Mathlib.Tactic.Ring

/-! # Words of a message

How many words the objects of a Cap'n Proto message take when each lies in the segment its
pointer is in: a struct is its data, a word for each pointer, and what the pointers lead
to, which is nothing for a null pointer.  Bytes are filled up to a word, text has a zero
byte after it, and a list of structs begins with a tag.
-/

namespace JackalopeFs.WordLayout

def blob (len : ℕ) : ℕ :=
  (len + 7) / 8

def text (len : ℕ) : ℕ :=
  blob (len + 1)

/-- A struct of so many data words whose pointers lead to objects of these sizes. -/
def struct (data : ℕ) (pointers : List ℕ) : ℕ :=
  data + pointers.length + pointers.sum

def pointerList (elements : List ℕ) : ℕ :=
  elements.length + elements.sum

def structList (elements : List ℕ) : ℕ :=
  1 + elements.sum

def message (root : ℕ) : ℕ :=
  1 + root

@[simp] theorem pointerList_nil : pointerList [] = 0 :=
  rfl

@[simp] theorem pointerList_cons (element : ℕ) (elements : List ℕ) :
    pointerList (element :: elements) = 1 + element + pointerList elements := by
  unfold pointerList
  rw [List.length_cons, List.sum_cons]
  omega

end JackalopeFs.WordLayout
