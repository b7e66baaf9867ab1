import Mathlib.Tactic

/-!
# Weights over a sliding window

A log of entries, each a time and a weight, oldest first. `held w t l` is the weight that the log charges to the
window `(t - w, t]`. Entries fall out of the window from the front, so a sum over the front of the log tells when
enough weight has left it (`freeing`).
-/

namespace Talkrypt.SlidingWindow

universe u
variable {α : Type u}

def weight [AddCommGroup α] (l : List (Nat × α)) : α := (l.map Prod.snd).sum

def held [AddCommGroup α] (w t : Nat) (l : List (Nat × α)) : α := weight (l.filter fun e => t < e.1 + w ∧ e.1 ≤ t)

/-- The time of the first entry with which the front of the log weighs at least `need`, given what came
before. -/
def freeing [AddCommGroup α] [LinearOrder α] (need : α) : α → List (Nat × α) → Option Nat
  | _, [] => none
  | freed, (t, a) :: l => if need ≤ freed + a then some t else freeing need (freed + a) l

def Sorted (l : List (Nat × α)) : Prop := l.Pairwise fun e e' => e.1 ≤ e'.1

variable [AddCommGroup α] {w t now : Nat} {l l' : List (Nat × α)} {e : Nat × α}

@[simp] theorem weight_nil : weight ([] : List (Nat × α)) = 0 := rfl

@[simp] theorem weight_cons : weight (e :: l) = e.2 + weight l := by rw [weight, weight, List.map_cons, List.sum_cons]

@[simp] theorem weight_append : weight (l ++ l') = weight l + weight l' := by
  rw [weight, weight, weight, List.map_append, List.sum_append]

theorem held_append : held w t (l ++ l') = held w t l + held w t l' := by
  rw [held, List.filter_append, weight_append]
  rfl

theorem held_eq_zero (h : ∀ e ∈ l, e.1 + w ≤ t ∨ t < e.1) : held w t l = 0 := by
  have hnone : l.filter (fun e => t < e.1 + w ∧ e.1 ≤ t) = [] := by
    refine List.filter_eq_nil_iff.mpr fun e he => ?_
    have := h e he
    simp only [decide_eq_true_eq]
    omega
  rw [held, hnone, weight_nil]

section Ordered

variable [LinearOrder α] [IsOrderedAddMonoid α]

theorem weight_nonneg (h : ∀ e ∈ l, 0 ≤ e.2) : 0 ≤ weight l := by
  refine List.sum_nonneg fun a ha => ?_
  obtain ⟨e, he, rfl⟩ := List.mem_map.mp ha
  exact h e he

theorem weight_filter_le (p q : Nat × α → Bool) (h : ∀ e ∈ l, 0 ≤ e.2) (hpq : ∀ e ∈ l, p e = true → q e = true) :
    weight (l.filter p) ≤ weight (l.filter q) := by
  induction l with
  | nil => exact le_refl _
  | cons e l ih =>
    have hrest := ih (fun e' he' => h e' (List.mem_cons_of_mem e he')) fun e' he' => hpq e' (List.mem_cons_of_mem e he')
    have he := h e List.mem_cons_self
    have hboth := hpq e List.mem_cons_self
    cases hp : p e with
    | true =>
      rw [List.filter_cons_of_pos hp, List.filter_cons_of_pos (hboth hp), weight_cons, weight_cons]
      exact add_le_add_right hrest e.2
    | false =>
      rw [List.filter_cons_of_neg (by rw [hp]; decide)]
      cases hq : q e with
      | true =>
        rw [List.filter_cons_of_pos hq, weight_cons]
        exact le_add_of_nonneg_of_le he hrest
      | false =>
        rw [List.filter_cons_of_neg (by rw [hq]; decide)]
        exact hrest

theorem held_le_weight (h : ∀ e ∈ l, 0 ≤ e.2) : held w t l ≤ weight l := by
  have hall := weight_filter_le (fun e => decide (t < e.1 + w ∧ e.1 ≤ t)) (fun _ => true) h fun _ _ _ => rfl
  rwa [List.filter_true] at hall

theorem held_antitone (h : ∀ e ∈ l, 0 ≤ e.2) (hpast : ∀ e ∈ l, e.1 ≤ now) (hle : now ≤ t) :
    held w t l ≤ held w now l := by
  refine weight_filter_le _ _ h fun e he hin => ?_
  have := hpast e he
  simp only [decide_eq_true_eq] at hin ⊢
  omega

theorem held_concat_le {bound a : α} (h : ∀ e ∈ l, 0 ≤ e.2) (ha : 0 ≤ a) (hpast : ∀ e ∈ l, e.1 ≤ now)
    (hbound : ∀ t, held w t l ≤ bound) (hfits : held w now l + a ≤ bound) (t : Nat) :
    held w t (l ++ [(now, a)]) ≤ bound := by
  rw [held_append]
  by_cases hle : now ≤ t
  · have hone : held w t [(now, a)] ≤ a := by
      have hle := held_le_weight (w := w) (t := t) (l := [(now, a)]) (by simpa using ha)
      rwa [weight_cons, weight_nil, add_zero] at hle
    calc held w t l + held w t [(now, a)] ≤ held w now l + a := add_le_add (held_antitone h hpast hle) hone
      _ ≤ bound := hfits
  · have hnone : held w t [(now, a)] = 0 := by
      refine held_eq_zero fun e he => ?_
      rw [List.mem_singleton.mp he]
      exact .inr (by omega)
    rw [hnone, add_zero]
    exact hbound t

omit [IsOrderedAddMonoid α] in
variable {need freed : α}

theorem exists_mem_of_freeing (h : freeing need freed l = some t) : ∃ e ∈ l, e.1 = t := by
  induction l generalizing freed with
  | nil => cases h
  | cons e l ih =>
    rw [freeing] at h
    split at h
    · cases h
      exact ⟨e, List.mem_cons_self, rfl⟩
    · obtain ⟨e', he', rfl⟩ := ih h
      exact ⟨e', List.mem_cons_of_mem e he', rfl⟩

omit [IsOrderedAddMonoid α] in
theorem lt_of_freeing_eq_none (h : freeing need freed l = none) (hlt : freed < need) : freed + weight l < need := by
  induction l generalizing freed with
  | nil => rwa [weight_nil, add_zero]
  | cons e l ih =>
    rw [freeing] at h
    split at h
    · cases h
    · next hnot =>
      have hrest := ih h (not_le.mp hnot)
      rwa [add_assoc, ← weight_cons] at hrest

/-- What `freeing` finds: the entries up to the one found weigh enough, and they have all left the window once
that one has. -/
theorem held_of_freeing (hsorted : Sorted l) (h : ∀ e ∈ l, 0 ≤ e.2) (hfound : freeing need freed l = some now)
    (hle : now + w ≤ t) : held w t l + need ≤ freed + weight l := by
  induction l generalizing freed with
  | nil => cases hfound
  | cons e l ih =>
    obtain ⟨t₀, a⟩ := e
    obtain ⟨hhead, htail⟩ := List.pairwise_cons.mp hsorted
    have hrest : ∀ e ∈ l, 0 ≤ e.2 := fun e he => h e (List.mem_cons_of_mem _ he)
    rw [← List.singleton_append, held_append, weight_append, weight_cons, weight_nil, add_zero]
    rw [freeing] at hfound
    split at hfound
    · next henough =>
      cases hfound
      have hgone : held w t [(now, a)] = 0 := by
        refine held_eq_zero fun e he => ?_
        rw [List.mem_singleton.mp he]
        exact .inl hle
      calc held w t [(now, a)] + held w t l + need = held w t l + need := by rw [hgone, zero_add]
        _ ≤ weight l + (freed + a) := add_le_add (held_le_weight hrest) henough
        _ = freed + (a + weight l) := by abel
    · -- an earlier entry has left the window before the one found
      obtain ⟨e', he', rfl⟩ := exists_mem_of_freeing hfound
      have hgone : held w t [(t₀, a)] = 0 := by
        refine held_eq_zero fun e he => ?_
        rw [List.mem_singleton.mp he]
        have := hhead e' he'
        exact .inl (by simp only at this; omega)
      have hih := ih htail hrest hfound
      calc held w t [(t₀, a)] + held w t l + need = held w t l + need := by rw [hgone, zero_add]
        _ ≤ freed + a + weight l := hih
        _ = freed + (a + weight l) := add_assoc _ _ _

end Ordered
end Talkrypt.SlidingWindow
