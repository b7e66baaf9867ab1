import Mathlib.Data.List.DropRight
import Mathlib.Tactic

/-! Runs of a transition function. A run is the left fold of a step function over its events;
`Along step ok s evs` says that every event of the run meets `ok` in the state it is taken in. An
invariant is proved by its step lemma alone (`Along.invariant`). -/

namespace Talkrypt
namespace Run

universe u v
variable {σ : Type u} {ε : Type v} {step : σ → ε → σ} {ok ok' : σ → ε → Prop} {s : σ} {evs : List ε}

def Along (step : σ → ε → σ) (ok : σ → ε → Prop) : σ → List ε → Prop
  | _, [] => True
  | s, e :: evs => ok s e ∧ Along step ok (step s e) evs

instance Along.decidable (step : σ → ε → σ) (ok : σ → ε → Prop) [∀ s e, Decidable (ok s e)] :
    ∀ s evs, Decidable (Along step ok s evs)
  | _, [] => inferInstanceAs (Decidable True)
  | s, e :: evs =>
    have := Along.decidable step ok (step s e) evs
    inferInstanceAs (Decidable (_ ∧ _))

@[simp] theorem along_nil : Along step ok s [] := trivial

@[simp] theorem along_cons {e : ε} :
    Along step ok s (e :: evs) ↔ ok s e ∧ Along step ok (step s e) evs := Iff.rfl

theorem Along.mono (h : ∀ s e, ok s e → ok' s e) :
    ∀ {s : σ} {evs : List ε}, Along step ok s evs → Along step ok' s evs
  | _, [], _ => trivial
  | _, _ :: _, ⟨he, hevs⟩ => ⟨h _ _ he, hevs.mono h⟩

theorem Along.and : ∀ {s : σ} {evs : List ε}, Along step ok s evs → Along step ok' s evs →
    Along step (fun s e => ok s e ∧ ok' s e) s evs
  | _, [], _, _ => trivial
  | _, _ :: _, ⟨he, hevs⟩, ⟨he', hevs'⟩ => ⟨⟨he, he'⟩, hevs.and hevs'⟩

theorem along_true : ∀ {s : σ} {evs : List ε}, Along step (fun _ _ => True) s evs
  | _, [] => trivial
  | _, _ :: _ => ⟨trivial, along_true⟩

variable {I : σ → Prop}

theorem Along.invariant (hstep : ∀ s e, I s → ok s e → I (step s e)) (hs : I s) (h : Along step ok s evs) :
    I (evs.foldl step s) := by
  induction evs generalizing s with
  | nil => exact hs
  | cons e evs ih => exact ih (hstep s e hs h.1) h.2

theorem Along.of_invariant (hstep : ∀ s e, I s → ok s e → I (step s e)) (himp : ∀ s e, I s → ok s e → ok' s e)
    (hs : I s) (h : Along step ok s evs) : Along step ok' s evs := by
  induction evs generalizing s with
  | nil => trivial
  | cons e evs ih => exact ⟨himp s e hs h.1, ih (hstep s e hs h.1) h.2⟩

/-- Two conditions that an invariant makes the same at each step, and that keep it, hold along the same runs. -/
theorem along_congr (hiff : ∀ s e, I s → (ok s e ↔ ok' s e)) (hstep : ∀ s e, I s → ok s e → I (step s e)) (hs : I s) :
    Along step ok s evs ↔ Along step ok' s evs :=
  ⟨Along.of_invariant hstep (fun s e hI => (hiff s e hI).mp) hs,
    Along.of_invariant (fun s e hI h => hstep s e hI ((hiff s e hI).mpr h)) (fun s e hI => (hiff s e hI).mpr) hs⟩

theorem along_append {evs' : List ε} :
    Along step ok s (evs ++ evs') ↔ Along step ok s evs ∧ Along step ok (evs.foldl step s) evs' := by
  induction evs generalizing s with
  | nil => simp
  | cons e evs ih => simp [ih, and_assoc]

/-- Where a step keeps `I` exactly when it meets `ok`, the runs that keep `I` throughout are those that meet
`ok` at every step. -/
theorem forall_reached_iff (hiff : ∀ s e, I s → (I (step s e) ↔ ok s e)) (hs : I s) :
    (∀ pre, pre <+: evs → I (pre.foldl step s)) ↔ Along step ok s evs := by
  induction evs generalizing s with
  | nil => simpa using hs
  | cons e evs ih =>
    rw [along_cons, ← hiff s e hs]
    constructor
    · intro h
      have he : I (step s e) := h [e] (by simp)
      exact ⟨he, (ih he).mp fun pre hpre => h (e :: pre) (List.cons_prefix_cons.mpr ⟨rfl, hpre⟩)⟩
    · rintro ⟨he, hrest⟩ pre hpre
      cases pre with
      | nil => exact hs
      | cons e' pre =>
        obtain ⟨rfl, hpre'⟩ := List.cons_prefix_cons.mp hpre
        exact (ih he).mpr hrest pre hpre'

theorem exists_rise {P : σ → Prop} (hs : ¬ P s) (hend : P (evs.foldl step s)) :
    ∃ pre e post, evs = pre ++ e :: post ∧ ¬ P (pre.foldl step s) ∧
      Along step (fun s e => P (step s e)) (pre.foldl step s) (e :: post) := by
  induction evs using List.reverseRecOn with
  | nil => exact absurd hend hs
  | append_singleton evs e ih =>
    rw [List.foldl_append] at hend
    by_cases hP : P (evs.foldl step s)
    · obtain ⟨pre, e', post, rfl, hpre, halong⟩ := ih hP
      refine ⟨pre, e', post ++ [e], by simp, hpre, ?_⟩
      rw [← List.cons_append, along_append]
      refine ⟨halong, ?_, trivial⟩
      rwa [List.foldl_append] at hend
    · exact ⟨evs, e, [], rfl, hP, hend, trivial⟩

def Ever (step : σ → ε → σ) (P : σ → Prop) (s : σ) (evs : List ε) : Prop :=
  ∃ pre, pre <+: evs ∧ P (pre.foldl step s)

/-- What once held leaves a mark at the end of the run, if some state property records it and is never
lost. -/
theorem Ever.recorded {P Q : σ → Prop} (hever : Ever step P s evs) (hstep : ∀ s e, I s → ok s e → I (step s e))
    (hs : I s) (h : Along step ok s evs) (hrecord : ∀ s, I s → P s → Q s) (hkeep : ∀ s e, Q s → Q (step s e)) :
    Q (evs.foldl step s) := by
  obtain ⟨pre, ⟨post, rfl⟩, hP⟩ := hever
  obtain ⟨hpre, -⟩ := along_append.mp h
  have hQ := hrecord _ (hpre.invariant hstep hs) hP
  rw [List.foldl_append]
  exact List.foldlRecOn post step hQ fun s hq e _ => hkeep s e hq

end Run

variable {α : Type u} {l : List α} {a : α} {i : Nat}

theorem getElem?_of_prefix {l' : List α} (hl : l <+: l') (h : l[i]? = some a) : l'[i]? = some a := by
  obtain ⟨rest, rfl⟩ := hl
  rw [List.getElem?_append_left (List.getElem?_eq_some_iff.mp h).1, h]

theorem getElem?_append_of_some (l' : List α) (h : l[i]? = some a) :
    (l ++ l')[i]? = some a := getElem?_of_prefix (List.prefix_append l l') h

theorem forall_mem_concat {P : α → Prop} (hl : ∀ b ∈ l, P b) (ha : P a) :
    ∀ b ∈ l ++ [a], P b := List.forall_mem_append.mpr ⟨hl, List.forall_mem_singleton.mpr ha⟩

theorem getElem?_concat {b : α} (h : (l ++ [a])[i]? = some b) : l[i]? = some b ∨ i = l.length ∧ b = a := by
  rw [List.getElem?_append] at h
  split at h
  · exact .inl h
  · next hi =>
    right
    rw [List.getElem?_singleton] at h
    split at h
    · cases h
      exact ⟨by omega, rfl⟩
    · cases h

/-! ## The end of a log -/

theorem rtake_append (l m : List α) (n : Nat) : (l.rtake n ++ m).rtake n = (l ++ m).rtake n := by
  simp only [List.rtake, List.drop_append, List.drop_drop, List.length_append, List.length_drop]
  congr 2 <;> omega

theorem rtake_dedup [DecidableEq α] {n : Nat} (h : (l.rtake n).Nodup) :
    l.dedup.rtake n = l.rtake n := by
  have hsuffix : l.rtake n <:+ l.dedup := by
    conv_rhs => rw [← List.take_append_drop (l.length - n) l, List.dedup_append]
    rw [← h.dedup]
    exact List.suffix_union_right ..
  obtain ⟨front, hfront⟩ := hsuffix
  rcases le_total l.length n with hle | hle
  · have hall : l.rtake n = l := by rw [List.rtake, Nat.sub_eq_zero_of_le hle, List.drop_zero]
    rw [hall] at h ⊢
    rw [h.dedup, hall]
  · have hlen : (l.rtake n).length = n := by
      rw [List.rtake, List.length_drop]
      omega
    conv_lhs => rw [← hfront, List.rtake, List.length_append, hlen, Nat.add_sub_cancel, List.drop_left]

end Talkrypt
