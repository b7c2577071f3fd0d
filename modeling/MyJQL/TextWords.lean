import Mathlib.Data.List.TakeWhile
import Mathlib.Data.List.Basic

/-!
# Words of a text

A text is cut at its separators, and what is empty is left out. A scanner that skips separators and takes
what is up to the next one meets these words one after the other. Nothing here knows what a separator is.
-/

namespace MyJQL.TextWords

set_option autoImplicit false

variable {Char Other : Type} {space : Char → Bool} {text word rest : List Char}

def words (space : Char → Bool) (text : List Char) : List (List Char) :=
  (text.splitOnP space).filter fun word => !word.isEmpty

theorem words_nil : words space [] = [] := rfl

theorem words_space {char : Char} (separates : space char = true) : words space (char :: text) = words space text := by
  rw [words, List.splitOnP_cons_eq_if_modifyHead, if_pos separates]
  rfl

theorem words_skip (space : Char → Bool) (text : List Char) :
    words space (text.dropWhile space) = words space text := by
  induction text with
  | nil => rfl
  | cons char text ih =>
      cases separates : space char with
      | true => rw [List.dropWhile_cons_of_pos separates, ih, words_space separates]
      | false => rw [List.dropWhile_cons_of_neg (by simp [separates])]

theorem words_word (some : word ≠ []) (inside : ∀ char ∈ word, space char = false)
    (ends : ∀ char ∈ rest.head?, space char = true) : words space (word ++ rest) = word :: words space rest := by
  cases rest with
  | nil =>
      rw [List.append_nil, words, List.splitOnP_eq_singleton inside, words_nil, List.filter_cons_of_pos]
      · rfl
      · simpa using some
  | cons char rest =>
      have separates : space char = true := ends char rfl
      rw [words, List.splitOnP_append_cons_of_forall_mem inside char separates, List.filter_cons_of_pos,
        words_space separates]
      · rfl
      · simpa using some

/-- What a scanner finds: nothing but separators, or a word and what is behind it. -/
theorem words_scan (space : Char → Bool) (text : List Char) : words space text =
    match text.dropWhile space with
    | [] => []
    | char :: found => (char :: found).takeWhile (fun char => !space char) ::
        words space ((char :: found).dropWhile fun char => !space char) := by
  rw [← words_skip]
  cases scanned : text.dropWhile space with
  | nil => rfl
  | cons char found =>
      have begins : space char = false := by
        have stops := List.head?_dropWhile_not space text
        rw [scanned] at stops
        simpa using stops
      have whole := List.takeWhile_append_dropWhile (p := fun char => !space char) (l := char :: found)
      conv_lhs => rw [← whole]
      refine words_word ?_ (fun other member => ?_) fun other first => ?_
      · rw [List.takeWhile_cons_of_pos (by rw [begins]; rfl)]
        exact List.cons_ne_nil _ _
      · simpa using List.mem_takeWhile_imp member
      · have stops := List.head?_dropWhile_not (fun char => !space char) (char :: found)
        rw [first] at stops
        simpa using stops

theorem words_some (member : word ∈ words space text) : word ≠ [] := by
  have kept := (List.mem_filter.mp member).2
  rintro rfl
  cases kept

theorem words_length (space : Char → Bool) (text : List Char) :
    ∀ word ∈ words space text, word.length ≤ text.length := by
  have pieces : ∀ piece ∈ text.splitOnP space, piece.length ≤ text.length := by
    induction text with
    | nil =>
        intro piece member
        rw [List.splitOnP_nil, List.mem_singleton] at member
        rw [member]
    | cons char text ih =>
        intro piece member
        rw [List.length_cons]
        rw [List.splitOnP_cons_eq_if_modifyHead] at member
        split_ifs at member
        · rcases List.mem_cons.mp member with rfl | behind
          · exact Nat.zero_le _
          · exact Nat.le_succ_of_le (ih piece behind)
        · cases found : text.splitOnP space with
          | nil =>
              rw [found] at member
              cases member
          | cons first others =>
              rw [found] at member ih
              rcases List.mem_cons.mp member with rfl | behind
              · exact Nat.succ_le_succ (ih first List.mem_cons_self)
              · exact Nat.le_succ_of_le (ih piece (List.mem_cons_of_mem _ behind))
  exact fun word member => pieces word (List.mem_of_mem_filter member)

theorem words_map {rename : Char → Other} {space' : Other → Bool} (same : ∀ char, space' (rename char) = space char)
    (text : List Char) : words space' (text.map rename) = (words space text).map (List.map rename) := by
  have pieces : (text.map rename).splitOnP space' = (text.splitOnP space).map (List.map rename) := by
    induction text with
    | nil => rfl
    | cons char text ih =>
        rw [List.map_cons, List.splitOnP_cons_eq_if_modifyHead, List.splitOnP_cons_eq_if_modifyHead, same, ih]
        split_ifs
        · rfl
        · cases text.splitOnP space <;> rfl
  rw [words, pieces, List.filter_map, words]
  congr 2
  funext word
  cases word <;> rfl

end MyJQL.TextWords
