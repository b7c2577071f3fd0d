import Mathlib.Logic.Basic

/-!
# Resources with one owner each

A resource is live exactly while somebody owns it, and nobody shares it. What an operation does to the owners
decides what it does to the resources: taking a resource that is not live, giving one up, and handing one on
keep this. Nothing here knows what is owned.
-/

namespace MyJQL.ExclusiveOwners

set_option autoImplicit false

variable {Owner Resource : Type} {live live' : Resource → Prop} {owns owns' : Owner → Resource → Prop}
  {owner other : Owner} {resource : Resource}

structure Exclusive (live : Resource → Prop) (owns : Owner → Resource → Prop) : Prop where
  owned : ∀ resource, live resource ↔ ∃ owner, owns owner resource
  once : ∀ first second resource, owns first resource → owns second resource → first = second

theorem exclusive_none (dead : ∀ resource, ¬live resource) (free : ∀ owner resource, ¬owns owner resource) :
    Exclusive live owns :=
  ⟨fun resource => iff_of_false (dead resource) fun ⟨owner, has⟩ => free owner resource has,
    fun first _ resource has => absurd has (free first resource)⟩

theorem exclusive_live (exclusive : Exclusive live owns) (has : owns owner resource) : live resource :=
  (exclusive.owned resource).mpr ⟨owner, has⟩

theorem exclusive_same (exclusive : Exclusive live owns) (liveSame : ∀ resource, live' resource ↔ live resource)
    (ownsSame : ∀ owner resource, owns' owner resource ↔ owns owner resource) : Exclusive live' owns' := by
  refine ⟨fun resource => ?_, fun first second resource one two => ?_⟩
  · rw [liveSame, exclusive.owned]
    exact exists_congr fun owner => (ownsSame owner resource).symm
  · exact exclusive.once first second resource ((ownsSame _ _).mp one) ((ownsSame _ _).mp two)

theorem exclusive_acquire (exclusive : Exclusive live owns) (fresh : ¬live resource)
    (liveAfter : ∀ other, live' other ↔ live other ∨ other = resource)
    (ownsAfter : ∀ someone other, owns' someone other ↔ owns someone other ∨ (someone = owner ∧ other = resource)) :
    Exclusive live' owns' := by
  refine ⟨fun other => ?_, fun first second other one two => ?_⟩
  · rw [liveAfter, exclusive.owned]
    constructor
    · rintro (⟨someone, has⟩ | rfl)
      · exact ⟨someone, (ownsAfter _ _).mpr (.inl has)⟩
      · exact ⟨owner, (ownsAfter _ _).mpr (.inr ⟨rfl, rfl⟩)⟩
    · rintro ⟨someone, has⟩
      rcases (ownsAfter _ _).mp has with old | ⟨_, same⟩
      · exact .inl ⟨someone, old⟩
      · exact .inr same
  · rcases (ownsAfter _ _).mp one with old | ⟨rfl, rfl⟩ <;> rcases (ownsAfter _ _).mp two with old' | ⟨rfl, same⟩
    · exact exclusive.once _ _ _ old old'
    · exact absurd (exclusive_live exclusive old) (same ▸ fresh)
    · exact absurd (exclusive_live exclusive old') fresh
    · rfl

theorem exclusive_release (exclusive : Exclusive live owns) (mine : owns owner resource)
    (liveAfter : ∀ other, live' other ↔ live other ∧ other ≠ resource)
    (ownsAfter : ∀ someone other, owns' someone other ↔ owns someone other ∧ ¬(someone = owner ∧ other = resource)) :
    Exclusive live' owns' := by
  refine ⟨fun other => ?_, fun first second other one two => ?_⟩
  · rw [liveAfter, exclusive.owned]
    constructor
    · rintro ⟨⟨someone, has⟩, different⟩
      exact ⟨someone, (ownsAfter _ _).mpr ⟨has, fun same => different same.2⟩⟩
    · rintro ⟨someone, has⟩
      obtain ⟨old, kept⟩ := (ownsAfter _ _).mp has
      refine ⟨⟨someone, old⟩, ?_⟩
      rintro rfl
      exact kept ⟨exclusive.once _ _ _ old mine, rfl⟩
  · exact exclusive.once _ _ _ ((ownsAfter _ _).mp one).1 ((ownsAfter _ _).mp two).1

theorem exclusive_hand_on (exclusive : Exclusive live owns) (mine : owns owner resource)
    (liveSame : ∀ resource, live' resource ↔ live resource)
    (ownsAfter : ∀ someone something, owns' someone something ↔
      (owns someone something ∧ something ≠ resource) ∨ (someone = other ∧ something = resource)) :
    Exclusive live' owns' := by
  refine ⟨fun something => ?_, fun first second something one two => ?_⟩
  · rw [liveSame]
    by_cases same : something = resource
    · subst same
      exact iff_of_true (exclusive_live exclusive mine) ⟨other, (ownsAfter _ _).mpr (.inr ⟨rfl, rfl⟩)⟩
    · rw [exclusive.owned]
      refine exists_congr fun someone => ?_
      rw [ownsAfter]
      simp [same]
  · rcases (ownsAfter _ _).mp one with ⟨old, different⟩ | ⟨rfl, same⟩ <;>
      rcases (ownsAfter _ _).mp two with ⟨old', different'⟩ | ⟨rfl, same'⟩
    · exact exclusive.once _ _ _ old old'
    · exact absurd same' different
    · exact absurd same different'
    · rfl

end MyJQL.ExclusiveOwners
