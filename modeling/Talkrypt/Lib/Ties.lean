import Mathlib

/-!
# Counting the classes of a relation that is generated by ties

A tie is a set of points that belong together, and two points are of one class if a chain of ties leads from one to the
other. Every class holds a tie or is a point without one, so there are at most as many classes as ties and untied points;
there are as many exactly when no two ties share a point (`card_le_classes_iff`).
-/

namespace Talkrypt
namespace Ties

universe u v
variable {α : Type u} {ι : Type v} (tie : ι → Set α)

def Tied (a b : α) : Prop := ∃ i, a ∈ tie i ∧ b ∈ tie i

/-- The classes of the equivalence relation that `Tied` generates. -/
def Classes : Type u := Quot (Tied tie)

def Loner : Type u := { a : α // ∀ i, a ∉ tie i }

variable {tie}

section
variable (hne : ∀ i, (tie i).Nonempty)
include hne

noncomputable def classOf : ι ⊕ Loner tie → Classes tie
  | .inl i => Quot.mk _ (hne i).some
  | .inr a => Quot.mk _ a.1

variable {i : ι}

theorem mk_eq_classOf {a : α} (h : a ∈ tie i) : Quot.mk (Tied tie) a = classOf hne (.inl i) :=
  Quot.sound ⟨i, h, (hne i).some_mem⟩

theorem classOf_surjective : Function.Surjective (classOf hne) := by
  rintro ⟨a⟩
  by_cases h : ∃ i, a ∈ tie i
  · obtain ⟨i, hi⟩ := h
    exact ⟨.inl i, (mk_eq_classOf hne hi).symm⟩
  · exact ⟨.inr ⟨a, not_exists.mp h⟩, rfl⟩

theorem disjoint_of_injective (hinj : Function.Injective (classOf hne)) {j : ι} (hij : i ≠ j) :
    Disjoint (tie i) (tie j) := by
  refine Set.disjoint_left.mpr fun a hi hj => hij ?_
  have hclass : classOf hne (.inl i) = classOf hne (.inl j) := (mk_eq_classOf hne hi).symm.trans (mk_eq_classOf hne hj)
  exact Sum.inl.inj (hinj hclass)

omit hne in
noncomputable def home (a : α) : ι ⊕ Loner tie :=
  open Classical in if h : ∃ i, a ∈ tie i then .inl h.choose else .inr ⟨a, not_exists.mp h⟩

omit hne in
theorem home_eq (hdisj : Pairwise fun i j => Disjoint (tie i) (tie j)) {a : α} (h : a ∈ tie i) :
    (home a : ι ⊕ Loner tie) = .inl i := by
  have hex : ∃ i, a ∈ tie i := ⟨i, h⟩
  rw [home, dif_pos hex]
  by_contra hne
  exact Set.disjoint_left.mp (hdisj fun heq => hne (congrArg Sum.inl heq)) hex.choose_spec h

theorem injective_of_disjoint (hdisj : Pairwise fun i j => Disjoint (tie i) (tie j)) :
    Function.Injective (classOf hne) := by
  -- where ties do not meet, a point's home is the same along a chain of ties
  let back : Classes tie → ι ⊕ Loner tie := Quot.lift home fun a b ⟨i, ha, hb⟩ =>
    (home_eq hdisj ha).trans (home_eq hdisj hb).symm
  have hback : Function.LeftInverse back (classOf hne) := by
    rintro (i | a)
    · exact home_eq hdisj (hne i).some_mem
    · exact dif_neg (not_exists.mpr a.2)
  exact hback.injective

theorem card_le_classes_iff [Finite α] [Finite ι] :
    Nat.card ι + Nat.card (Loner tie) ≤ Nat.card (Classes tie) ↔ Pairwise fun i j => Disjoint (tie i) (tie j) := by
  have : Finite (Loner tie) := Subtype.finite
  rw [← Nat.card_sum]
  constructor
  · intro h i j hij
    have hbij : Function.Bijective (classOf hne) :=
      (Nat.bijective_iff_surjective_and_card _).mpr ⟨classOf_surjective hne,
        le_antisymm h (Nat.card_le_card_of_surjective _ (classOf_surjective hne))⟩
    exact disjoint_of_injective hne hbij.1 hij
  · intro hdisj
    have : Finite (Classes tie) := Finite.of_surjective _ (classOf_surjective hne)
    exact Nat.card_le_card_of_injective _ (injective_of_disjoint hne hdisj)

end

end Ties
end Talkrypt
