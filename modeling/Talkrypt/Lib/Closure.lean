import Mathlib.Tactic

/-! What an observer can compute: the closure of what it starts from under a relation of single
deductions. A bound on it is an invariant of the deductions (`Closure.within`). -/

namespace Talkrypt

universe u

inductive Closure {α : Type u} (learns : α → α → Prop) (init : α → Prop) : α → Prop
  | base {a : α} (h : init a) : Closure learns init a
  | step {a b : α} (h : Closure learns init a) (hl : learns a b) : Closure learns init b

namespace Closure
variable {α : Type u} {learns learns' : α → α → Prop} {init init' K : α → Prop} {a : α}

theorem within (hinit : ∀ a, init a → K a) (hstep : ∀ a b, learns a b → K a → K b)
    (h : Closure learns init a) : K a := by
  induction h with
  | base h => exact hinit _ h
  | step _ hl ih => exact hstep _ _ hl ih

theorem mono (hlearns : ∀ a b, learns a b → learns' a b) (hinit : ∀ a, init a → Closure learns' init' a)
    (h : Closure learns init a) : Closure learns' init' a :=
  h.within hinit fun _ _ hl ha => .step ha (hlearns _ _ hl)

end Closure
end Talkrypt
