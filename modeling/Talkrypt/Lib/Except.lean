import Mathlib.Tactic

/-! When computations in `Except` succeed. -/

namespace Talkrypt
universe u v
variable {ε : Type u} {α β : Type v}

variable {f : α → Except ε β} {x : Except ε α} {b : β}

theorem except_bind_eq_ok : (x >>= f) = .ok b ↔ ∃ a, x = .ok a ∧ f a = .ok b := by
  cases x <;> simp [bind, Except.bind]

theorem except_map_eq_ok {f : α → β} (h : x.map f = .ok b) : ∃ a, x = .ok a ∧ f a = b := by
  cases x with
  | error e => cases h
  | ok a => exact ⟨a, rfl, Except.ok.inj h⟩

theorem except_eq_ok_of_isOk {x : Except ε Unit} (h : x.isOk = true) : x = .ok () := by
  cases x with
  | error e => cases h
  | ok u => rfl

theorem except_eq_ok_of_toOption {a : α} (h : x.toOption = some a) : x = .ok a := by
  cases x with
  | error e => cases h
  | ok b => exact congrArg _ (Option.some.inj h)

theorem except_mapM_forall₂ :
    ∀ {l : List α} {r : List β}, l.mapM f = .ok r → List.Forall₂ (fun a b => f a = .ok b) l r
  | [], r, h => by
    cases h
    exact .nil
  | a :: l, r, h => by
    rw [List.mapM_cons, except_bind_eq_ok] at h
    obtain ⟨b, hb, h⟩ := h
    obtain ⟨bs, hbs, h⟩ := except_bind_eq_ok.mp h
    cases h
    exact .cons hb (except_mapM_forall₂ hbs)

theorem except_mapM_mem {l : List α} {r : List β} (h : l.mapM f = .ok r) {a : α} (ha : a ∈ l) :
    ∃ b ∈ r, f a = .ok b := by
  have h₂ := except_mapM_forall₂ h
  clear h
  induction h₂ with
  | nil => cases ha
  | cons hab _ ih =>
    rcases List.mem_cons.mp ha with rfl | ha
    · exact ⟨_, List.mem_cons_self, hab⟩
    · obtain ⟨b, hb, hf⟩ := ih ha
      exact ⟨b, List.mem_cons_of_mem _ hb, hf⟩

theorem except_mapM_of_mem {l : List α} {r : List β} (h : l.mapM f = .ok r) (hb : b ∈ r) : ∃ a ∈ l, f a = .ok b := by
  have h₂ := except_mapM_forall₂ h
  clear h
  induction h₂ with
  | nil => cases hb
  | cons hab _ ih =>
    rcases List.mem_cons.mp hb with rfl | hb
    · exact ⟨_, List.mem_cons_self, hab⟩
    · obtain ⟨a, ha, hf⟩ := ih hb
      exact ⟨a, List.mem_cons_of_mem _ ha, hf⟩

theorem except_mapM_total : ∀ {l : List α}, (∀ a ∈ l, ∃ b, f a = .ok b) → ∃ r, l.mapM f = .ok r
  | [], _ => ⟨[], rfl⟩
  | a :: l, h => by
    obtain ⟨b, hb⟩ := h a List.mem_cons_self
    obtain ⟨r, hr⟩ := except_mapM_total fun x hx => h x (List.mem_cons_of_mem a hx)
    refine ⟨b :: r, ?_⟩
    rw [List.mapM_cons, except_bind_eq_ok]
    exact ⟨b, hb, except_bind_eq_ok.mpr ⟨r, hr, rfl⟩⟩

theorem except_forM_eq_ok {f : α → Except ε PUnit} :
    ∀ {l : List α}, l.forM f = .ok ⟨⟩ ↔ ∀ a ∈ l, f a = .ok ⟨⟩
  | [] => by simp [List.forM, pure, Except.pure]
  | a :: l => by
    rw [List.forM, except_bind_eq_ok, List.forall_mem_cons, ← except_forM_eq_ok (l := l)]
    exact ⟨fun ⟨⟨⟩, ha, hl⟩ => ⟨ha, hl⟩, fun ⟨ha, hl⟩ => ⟨⟨⟩, ha, hl⟩⟩

end Talkrypt
