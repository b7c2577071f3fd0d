import Mathlib.Data.Finset.Card
import Mathlib.Data.List.Nodup

/-!
# Caches that forget what was used longest ago

A cache of bounded size that gives up the page that was used longest ago, next to a rival of the same
size that serves the same requests and may know all of them in advance. What the cache loads is paid for
by what the rival loads: a page that only the cache holds is worth the more the later it was used.
-/

namespace MyJQL.RecencyCaches

set_option autoImplicit false

variable {Page : Type} [DecidableEq Page] {held after : Finset Page} {page : Page} {recent next : List Page}
  {size room cost misses loads : Nat}

/-- The pages are listed with the latest first. Those that the rival does not hold count, the latest of them
with the full room, each further place with one less. -/
def worth (held : Finset Page) : Nat → List Page → Nat
  | _, [] => 0
  | room, page :: older => (if page ∈ held then 0 else room) + worth held (room - 1) older

@[simp] theorem worth_nil : worth held room [] = 0 := rfl

@[simp] theorem worth_cons :
    worth held room (page :: recent) = (if page ∈ held then 0 else room) + worth held (room - 1) recent := rfl

theorem worth_append (front back : List Page) :
    worth held room (front ++ back) = worth held room front + worth held (room - front.length) back := by
  induction front generalizing room with
  | nil => simp
  | cons page front ih =>
      rw [List.cons_append, worth_cons, worth_cons, ih, List.length_cons, Nat.sub_add_eq, Nat.sub_right_comm]
      omega

theorem worth_nothing (all : ∀ page ∈ recent, page ∈ held) : worth held room recent = 0 := by
  induction recent generalizing room with
  | nil => rfl
  | cons page recent ih =>
      have rest := @ih (room - 1) fun other later => all other (List.mem_cons_of_mem _ later)
      rw [worth_cons, if_pos (all page List.mem_cons_self), rest]

theorem worth_later : worth held (room - 1) recent ≤ worth held room recent := by
  induction recent generalizing room with
  | nil => exact le_refl _
  | cons page recent ih =>
      rw [worth_cons, worth_cons]
      have := @ih (room - 1)
      split_ifs <;> omega

/-- One place back costs one for each page that the rival does not hold. -/
theorem worth_place (fits : recent.length < room) :
    worth held room recent ≤ worth held (room - 1) recent + recent.length := by
  induction recent generalizing room with
  | nil => exact le_refl _
  | cons page recent ih =>
      rw [List.length_cons] at fits
      rw [worth_cons, worth_cons, List.length_cons]
      have := @ih (room - 1) (by omega)
      split_ifs <;> omega

theorem worth_drops (fits : recent.length ≤ room) (member : page ∈ recent) (apart : page ∉ held) :
    worth held (room - 1) recent + 1 ≤ worth held room recent := by
  induction recent generalizing room with
  | nil => exact absurd member List.not_mem_nil
  | cons first recent ih =>
      rw [List.length_cons] at fits
      rw [worth_cons, worth_cons]
      rcases List.mem_cons.mp member with rfl | later
      · have := @worth_later Page _ held recent (room - 1)
        rw [if_neg apart, if_neg apart]
        omega
      · have := @ih (room - 1) (by omega) later
        split_ifs <;> omega

theorem filter_length_le (once : recent.Nodup) : (recent.filter fun page => page ∈ held).length ≤ held.card := by
  rw [← List.toFinset_card_of_nodup (once.filter _)]
  apply Finset.card_le_card
  intro page member
  exact of_decide_eq_true (List.mem_filter.mp (List.mem_toFinset.mp member)).2

/-- What the rival gives up may become worth the full room. -/
theorem worth_given_up (once : recent.Nodup) :
    worth after room recent ≤ worth held room recent + room * (held \ after).card := by
  refine le_trans ?_ (Nat.add_le_add_left (Nat.mul_le_mul_left _ (filter_length_le once)) _)
  clear once
  induction recent generalizing room with
  | nil => exact Nat.zero_le _
  | cons page recent ih =>
      have rest := @ih (room - 1)
      have less : (room - 1) * (recent.filter fun page => page ∈ held \ after).length ≤
          room * (recent.filter fun page => page ∈ held \ after).length := Nat.mul_le_mul_right _ (Nat.sub_le _ _)
      rw [worth_cons, worth_cons, List.filter_cons]
      by_cases gone : page ∈ held \ after
      · obtain ⟨before, left⟩ := Finset.mem_sdiff.mp gone
        rw [if_pos before, if_neg left, if_pos (decide_eq_true gone), List.length_cons, Nat.mul_succ]
        omega
      · rw [decide_eq_false gone, if_neg Bool.false_ne_true]
        have kept : page ∈ held → page ∈ after := by simpa using gone
        by_cases inHeld : page ∈ held
        · rw [if_pos inHeld, if_pos (kept inHeld)]
          omega
        · rw [if_neg inHeld]
          split_ifs <;> omega

theorem length_le_worth (once : recent.Nodup) (fits : recent.length ≤ room) :
    recent.length ≤ worth held room recent + held.card := by
  refine le_trans ?_ (Nat.add_le_add_left (filter_length_le once) _)
  clear once
  induction recent generalizing room with
  | nil => exact Nat.zero_le _
  | cons page recent ih =>
      rw [List.length_cons] at fits
      have rest := @ih (room - 1) (by omega)
      rw [worth_cons, List.filter_cons, List.length_cons]
      by_cases shared : page ∈ held
      · rw [if_pos shared, if_pos (decide_eq_true shared), List.length_cons]
        omega
      · rw [if_neg shared, decide_eq_false shared, if_neg Bool.false_ne_true]
        omega

/-- What the cache does next to a rival that now holds `held`, and how many pages it loads. What is behind the
page that it gives up is pinned, and so the rival holds it too. -/
inductive Moves (size : Nat) (held : Finset Page) : Nat → List Page → List Page → Prop
  | rests {recent : List Page} : Moves size held 0 recent recent
  | hits {front back : List Page} {page : Page} (served : page ∈ held) :
      Moves size held 0 (front ++ page :: back) (page :: (front ++ back))
  | fills {recent : List Page} {page : Page} (served : page ∈ held) (absent : page ∉ recent)
      (free : recent.length < size) : Moves size held 1 recent (page :: recent)
  | evicts {front back : List Page} {page old : Page} (served : page ∈ held)
      (absent : page ∉ front ++ old :: back) (full : (front ++ old :: back).length = size)
      (pinned : ∀ other ∈ back, other ∈ held) :
      Moves size held 1 (front ++ old :: back) (page :: (front ++ back))
  | drops {front back : List Page} {page : Page} (gone : page ∉ held) :
      Moves size held 0 (front ++ page :: back) (front ++ back)

omit [DecidableEq Page] in
theorem moves_nodup (moves : Moves size held cost recent next) (once : recent.Nodup) : next.Nodup := by
  cases moves with
  | rests => exact once
  | hits served => exact List.nodup_middle.mp once
  | fills served absent free => exact List.nodup_cons.mpr ⟨absent, once⟩
  | @evicts front back page old served absent full pinned =>
      have shorter : List.Sublist (front ++ back) (front ++ old :: back) :=
        (List.Sublist.refl front).append (List.sublist_cons_self old back)
      exact List.nodup_cons.mpr ⟨fun member => absent (shorter.subset member), once.sublist shorter⟩
  | drops gone => exact (List.nodup_cons.mp (List.nodup_middle.mp once)).2

omit [DecidableEq Page] in
theorem moves_length (moves : Moves size held cost recent next) (fits : recent.length ≤ size) :
    next.length ≤ size := by
  cases moves with
  | rests => exact fits
  | fills served absent free => exact free
  | hits _ | evicts _ _ _ _ | drops _ =>
      simp only [List.length_append, List.length_cons] at fits ⊢
      omega

theorem moves_paid (moves : Moves size held cost recent next) (once : recent.Nodup) (fits : recent.length ≤ size)
    (rival : held.card ≤ size) :
    cost + worth held size next + recent.length ≤ worth held size recent + next.length := by
  cases moves with
  | rests => omega
  | @hits front back page served =>
      have moved := @worth_later Page _ held front size
      rw [worth_cons, if_pos served, worth_append, worth_append, worth_cons, if_pos served, Nat.sub_right_comm]
      simp only [List.length_append, List.length_cons]
      omega
  | @fills _ page served absent free =>
      have moved := @worth_later Page _ held recent size
      rw [worth_cons, if_pos served, List.length_cons]
      omega
  | @evicts front back page old served absent full pinned =>
      have nothing : ∀ room, worth held room back = 0 := fun _ => worth_nothing pinned
      rw [worth_cons, if_pos served, worth_append, worth_append, worth_cons, nothing, nothing]
      simp only [List.length_append, List.length_cons] at full ⊢
      by_cases shared : old ∈ held
      · -- The rival holds the new page, so one of the other pages it does not hold.
        obtain ⟨other, member, apart⟩ : ∃ other ∈ front, other ∉ held := by
          by_contra none
          push Not at none
          have inside : (page :: (front ++ old :: back)).toFinset ⊆ held := by
            intro other member
            rcases List.mem_cons.mp (List.mem_toFinset.mp member) with rfl | cached
            · exact served
            · rcases List.mem_append.mp cached with first | last
              · exact none other first
              · rcases List.mem_cons.mp last with rfl | behind
                · exact shared
                · exact pinned other behind
          have card := Finset.card_le_card inside
          rw [List.toFinset_card_of_nodup (List.nodup_cons.mpr ⟨absent, once⟩)] at card
          simp only [List.length_append, List.length_cons] at card
          omega
        have dropped : worth held (size - 1) front + 1 ≤ worth held size front := worth_drops (by omega) member apart
        rw [if_pos shared]
        omega
      · have := @worth_later Page _ held front size
        rw [if_neg shared]
        omega
  | @drops front back page gone =>
      simp only [List.length_append, List.length_cons] at fits
      have place := @worth_place Page _ held back (size - front.length) (by omega)
      rw [worth_append, worth_append, worth_cons, if_neg gone]
      simp only [List.length_append, List.length_cons]
      omega

/-- What the cache has loaded so far, and what its pages are worth, is paid for. -/
structure Paid (size misses loads : Nat) (recent : List Page) (held : Finset Page) : Prop where
  once : recent.Nodup
  fits : recent.length ≤ size
  paid : misses + worth held size recent + size * held.card ≤ size * loads + recent.length

theorem paid_started : Paid size 0 0 ([] : List Page) ∅ := ⟨List.nodup_nil, Nat.zero_le _, by simp⟩

/-- The rival comes to hold other pages, and the cache makes its move. -/
theorem paid_step (paid : Paid size misses loads recent held) (rival : after.card ≤ size)
    (moves : Moves size after cost recent next) :
    Paid size (misses + cost) (loads + (after \ held).card) next after := by
  obtain ⟨once, fits, before⟩ := paid
  refine ⟨moves_nodup moves once, moves_length moves fits, ?_⟩
  have own := moves_paid moves once fits rival
  have given := @worth_given_up Page _ held after recent size once
  have balance : size * after.card + size * (held \ after).card = size * held.card + size * (after \ held).card := by
    rw [← Nat.mul_add, ← Nat.mul_add]
    congr 1
    have first := Finset.card_sdiff_add_card_inter after held
    have second := Finset.card_sdiff_add_card_inter held after
    rw [Finset.inter_comm held after] at second
    omega
  rw [Nat.mul_add]
  omega

theorem paid_competes (paid : Paid size misses loads recent held) : misses ≤ size * loads := by
  obtain ⟨once, fits, total⟩ := paid
  have kept := @length_le_worth Page _ held recent size once fits
  rcases Nat.eq_zero_or_pos size with rfl | positive
  · have := List.eq_nil_of_length_eq_zero (Nat.le_zero.mp fits)
    subst this
    simp only [List.length_nil] at total
    omega
  · have := Nat.le_mul_of_pos_left held.card positive
    omega

end MyJQL.RecencyCaches
