import Mathlib.Data.List.Basic
import Mathlib.Logic.Function.Basic

/-!
# Loops that move the entries of an array

The loops by which a program opens a gap in an array, closes one, or copies a stretch of one array
to another, each with what it computes. An array is a function of the index; `Reads` compares its
first entries with a list.
-/

namespace MyJQL.ArrayLoops

set_option autoImplicit false

variable {Entry : Type}

/-- `for (j = last; j > first; j--) a[j] = a[j - 1]` -/
def shiftUp (first : Nat) : Nat → (Nat → Entry) → Nat → Entry
  | 0, array => array
  | j + 1, array =>
      if j + 1 > first then shiftUp first j (Function.update array (j + 1) (array j)) else array

/-- `for (j = first; j < first + count; j++) a[j] = a[j + 1]` -/
def shiftDown : Nat → Nat → (Nat → Entry) → Nat → Entry
  | 0, _, array => array
  | count + 1, j, array => shiftDown count (j + 1) (Function.update array j (array (j + 1)))

/-- `for (j = 0; j < count; j++) a[place + j] = source[start + j]` -/
def copyEntries (source : Nat → Entry) (start place : Nat) : Nat → (Nat → Entry) → Nat → Entry
  | 0, array => array
  | count + 1, array =>
      Function.update (copyEntries source start place count array) (place + count)
        (source (start + count))

/-- `for (; left > 0; left--, count++) if (i != j || tag) a[count] = source[j++];`
`else { a[count] = x; tag = 1; }` -/
def weave (source : Nat → Entry) (i : Nat) (x : Entry) :
    Nat → Nat → Nat → Bool → (Nat → Entry) → Nat → Entry
  | 0, _, _, _, array => array
  | left + 1, j, count, tag, array =>
      if i ≠ j ∨ tag then
        weave source i x left (j + 1) (count + 1) tag (Function.update array count (source j))
      else weave source i x left j (count + 1) true (Function.update array count x)

theorem shift_up_eq (first last : Nat) (array : Nat → Entry) (k : Nat) :
    shiftUp first last array k = if first < k ∧ k ≤ last then array (k - 1) else array k := by
  induction last generalizing array with
  | zero => simp [shiftUp]; omega
  | succ last ih =>
      rw [shiftUp]
      by_cases inside : last + 1 > first
      · rw [if_pos inside, ih]
        simp only [Function.update_apply]
        by_cases own : k = last + 1
        · simp [own, inside]
        · grind
      · rw [if_neg inside, if_neg (by omega)]

theorem shift_down_eq (count j : Nat) (array : Nat → Entry) (k : Nat) :
    shiftDown count j array k = if j ≤ k ∧ k < j + count then array (k + 1) else array k := by
  induction count generalizing j array with
  | zero => rw [shiftDown, if_neg (by omega)]
  | succ count ih =>
      rw [shiftDown, ih]
      simp only [Function.update_apply]
      grind

theorem copy_entries_eq (source : Nat → Entry) (start place count : Nat) (array : Nat → Entry) (k : Nat) :
    copyEntries source start place count array k =
      if place ≤ k ∧ k < place + count then source (start + (k - place)) else array k := by
  induction count with
  | zero => rw [copyEntries, if_neg (by omega)]
  | succ count ih =>
      rw [copyEntries, Function.update_apply, ih]
      grind

theorem weave_tagged_eq (source : Nat → Entry) (i : Nat) (x : Entry) (left j count : Nat)
    (array : Nat → Entry) (k : Nat) :
    weave source i x left j count true array k =
      if count ≤ k ∧ k < count + left then source (j + (k - count)) else array k := by
  induction left generalizing j count array with
  | zero => rw [weave, if_neg (by omega)]
  | succ left ih =>
      rw [weave, if_pos (.inr rfl), ih]
      simp only [Function.update_apply]
      grind

theorem weave_behind {source array : Nat → Entry} {i left j count k : Nat} {x : Entry} {tag : Bool}
    (behind : k < count) : weave source i x left j count tag array k = array k := by
  induction left generalizing j count tag array with
  | zero => rfl
  | succ left ih =>
      rw [weave]
      split_ifs
      · rw [ih (by omega), Function.update_of_ne (by omega)]
      · rw [ih (by omega), Function.update_of_ne (by omega)]

def inserted (array : Nat → Entry) (i : Nat) (x : Entry) : Nat → Entry := fun j =>
  if j < i then array j else if j = i then x else array (j - 1)

def removed (array : Nat → Entry) (i : Nat) : Nat → Entry := fun j =>
  if j < i then array j else array (j + 1)

theorem shift_up_inserted {array : Nat → Entry} {i last k : Nat} {x : Entry} (inside : k ≤ last) :
    Function.update (shiftUp i last array) i x k = inserted array i x k := by
  rw [Function.update_apply, shift_up_eq, inserted]
  grind

theorem shift_down_removed {array : Nat → Entry} {i last k : Nat} (inside : k < last) :
    shiftDown (last - i) i array k = removed array i k := by
  rw [shift_down_eq, removed]
  grind

theorem weave_inserted {source array : Nat → Entry} {i : Nat} {x : Entry} {left j count k : Nat}
    (before : j ≤ i) (lower : count ≤ k) (upper : k < count + left) :
    weave source i x left j count false array k = inserted source i x (j + (k - count)) := by
  induction left generalizing j count array with
  | zero => omega
  | succ left ih =>
      rw [weave]
      by_cases here : i = j
      · rw [if_neg (by simp [here]), weave_tagged_eq]
        simp only [Function.update_apply, inserted]
        grind
      · rw [if_pos (.inl here)]
        by_cases first : k = count
        · rw [weave_behind (by omega), first, Function.update_self, inserted]
          grind
        · rw [ih (by omega) (by omega) (by omega)]
          congr 1
          omega

def Reads (array : Nat → Entry) (list : List Entry) : Prop :=
  ∀ j (inside : j < list.length), array j = list[j]

section Reads

variable {array changed : Nat → Entry} {list front back : List Entry} {x : Entry}

theorem reads_congr (reads : Reads array list) (same : ∀ j < list.length, changed j = array j) :
    Reads changed list := fun j inside => (same j inside).trans (reads j inside)

theorem reads_inserted (reads : Reads array (front ++ back)) :
    Reads (inserted array front.length x) (front ++ x :: back) := by
  intro j inside
  simp only [List.length_append, List.length_cons] at inside
  rw [inserted]
  split_ifs with before here
  · rw [reads j (by simp; omega)]
    simp [List.getElem_append_left before]
  · simp [here]
  · rw [reads (j - 1) (by simp; omega), List.getElem_append_right (by omega),
      List.getElem_append_right (by omega), List.getElem_cons]
    rw [dif_neg (by omega)]
    congr 1
    omega

theorem reads_removed (reads : Reads array (front ++ x :: back)) :
    Reads (removed array front.length) (front ++ back) := by
  intro j inside
  simp only [List.length_append] at inside
  rw [removed]
  split_ifs with before
  · rw [reads j (by simp; omega)]
    simp [List.getElem_append_left before]
  · rw [reads (j + 1) (by simp; omega), List.getElem_append_right (by omega),
      List.getElem_append_right (by omega), List.getElem_cons, dif_neg (by omega)]
    congr 1
    omega

theorem reads_append (reads : Reads array front)
    (behind : ∀ j (inside : j < back.length), array (front.length + j) = back[j]) :
    Reads array (front ++ back) := by
  intro j inside
  simp only [List.length_append] at inside
  by_cases before : j < front.length
  · rw [List.getElem_append_left before]
    exact reads j before
  · rw [List.getElem_append_right (by omega), ← behind (j - front.length) (by omega)]
    congr 1
    omega

theorem reads_front (reads : Reads array (front ++ back)) : Reads array front := by
  intro j inside
  rw [reads j (by simp; omega), List.getElem_append_left inside]

theorem reads_back (reads : Reads array (front ++ back)) {j : Nat} (inside : j < back.length) :
    array (front.length + j) = back[j] := by
  rw [reads _ (by simp; omega), List.getElem_append_right (by omega)]
  congr 1
  omega

theorem reads_middle (reads : Reads array (front ++ x :: back)) : array front.length = x := by
  rw [reads _ (by simp), List.getElem_append_right (Nat.le_refl _)]
  simp

end Reads

end MyJQL.ArrayLoops
