import Mathlib.Tactic

/-! Rows of slots that are filled one at a time, each at most once. A row is `Within` a list when every
filled slot holds that list's element at its place; it is then full exactly when it is the whole list. -/

namespace Talkrypt
namespace Slots

variable {α : Type} {xs : List (Option α)} {ys : List α} {i : Nat} {a : α} {w : α → Nat}

def weight (w : α → Nat) (xs : List (Option α)) : Nat := (xs.map fun x => x.elim 0 w).sum

def filled (xs : List (Option α)) : Nat := weight (fun _ => 1) xs

@[simp] theorem weight_cons (x : Option α) : weight w (x :: xs) = x.elim 0 w + weight w xs := by
  simp [weight]

@[simp] theorem weight_replicate (n : Nat) : weight w (List.replicate n none) = 0 := by
  simp [weight]

theorem weight_set (h : xs[i]? = some none) : weight w (xs.set i (some a)) = weight w xs + w a := by
  induction xs generalizing i with
  | nil => simp at h
  | cons x xs ih =>
    cases i with
    | zero =>
      obtain rfl : x = none := by simpa using h
      simp [Nat.add_comm]
    | succ i =>
      have := ih (i := i) (by simpa using h)
      simp only [List.set_cons_succ, weight_cons, this, Nat.add_assoc]

theorem filled_le_length (xs : List (Option α)) : filled xs ≤ xs.length := by
  induction xs with
  | nil => exact le_rfl
  | cons x xs ih =>
    have hx : x.elim 0 (fun _ => 1) ≤ 1 := by cases x <;> simp
    simp only [filled, weight_cons, List.length_cons] at ih ⊢
    omega

theorem eq_replicate_of_filled_eq_zero (h : filled xs = 0) : xs = List.replicate xs.length none := by
  induction xs with
  | nil => rfl
  | cons x xs ih =>
    simp only [filled, weight_cons] at h ih
    obtain ⟨hx, hxs⟩ := Nat.add_eq_zero_iff.mp h
    cases x with
    | none => rw [List.length_cons, List.replicate_succ, ← ih hxs]
    | some a => simp at hx

/-- What is filled in is taken from `ys`, each element at its own place. -/
def Within (xs : List (Option α)) (ys : List α) : Prop :=
  List.Forall₂ (fun x y => x = none ∨ x = some y) xs ys

instance [DecidableEq α] : Decidable (Within xs ys) :=
  inferInstanceAs (Decidable (List.Forall₂ (fun x y => x = none ∨ x = some y) xs ys))

namespace Within

theorem replicate (ys : List α) : Within (List.replicate ys.length none) ys := by
  induction ys with
  | nil => exact .nil
  | cons y ys ih => exact .cons (.inl rfl) ih

theorem length_eq (h : Within xs ys) : xs.length = ys.length := List.Forall₂.length_eq h

theorem getElem? (h : Within xs ys) (hi : xs[i]? = some (some a)) : ys[i]? = some a := by
  induction h generalizing i with
  | nil => simp at hi
  | cons hxy _ ih =>
    cases i with
    | zero =>
      obtain rfl := Option.some.inj hi
      simpa [eq_comm] using hxy
    | succ i => exact ih hi

theorem set (h : Within xs ys) (hi : ys[i]? = some a) : Within (xs.set i (some a)) ys := by
  induction h generalizing i with
  | nil => exact .nil
  | cons hxy hrest ih =>
    cases i with
    | zero => exact .cons (.inr (by simpa using hi.symm)) hrest
    | succ i => exact .cons hxy (ih hi)

theorem eq_map_some_of_filled (h : Within xs ys) (hfull : filled xs = ys.length) : xs = ys.map some := by
  induction h with
  | nil => rfl
  | @cons x y xs ys hxy hrest ih =>
    have hle : filled xs ≤ ys.length := (filled_le_length xs).trans_eq (length_eq hrest)
    simp only [filled, weight_cons, List.length_cons] at hfull hle ih
    obtain rfl | rfl := hxy
    · simp only [Option.elim_none] at hfull
      omega
    · rw [List.map_cons, ih (by simp only [Option.elim_some] at hfull; omega)]

theorem filled_map_some (ys : List α) : filled (ys.map some) = ys.length := by
  induction ys with
  | nil => rfl
  | cons y ys ih =>
    simp only [filled, List.map_cons, weight_cons, Option.elim_some, List.length_cons] at ih ⊢
    omega

theorem filled_eq_length_iff (h : Within xs ys) : filled xs = ys.length ↔ xs = ys.map some :=
  ⟨h.eq_map_some_of_filled, fun hx => hx ▸ filled_map_some ys⟩

theorem filled_eq_length_iff_forall (h : Within xs ys) :
    filled xs = ys.length ↔ ∀ i < ys.length, xs[i]? ≠ some none := by
  rw [h.filled_eq_length_iff]
  constructor
  · rintro rfl i hi
    simp [hi]
  · intro hall
    apply List.ext_getElem? fun i => ?_
    by_cases hi : i < ys.length
    · have hlt : i < xs.length := h.length_eq ▸ hi
      rw [List.getElem?_map, List.getElem?_eq_getElem hi, List.getElem?_eq_getElem hlt]
      cases hx : xs[i] with
      | none => exact absurd (by rw [List.getElem?_eq_getElem hlt, hx]) (hall i hi)
      | some a =>
        have := h.getElem? (i := i) (a := a) (by rw [List.getElem?_eq_getElem hlt, hx])
        rw [List.getElem?_eq_getElem hi] at this
        simpa using this.symm
    · rw [List.getElem?_eq_none (by rw [h.length_eq]; omega), List.getElem?_eq_none (by simpa using hi)]

end Within

end Slots
end Talkrypt
