import Talkrypt.Helper.KeyStore

/-!
# Old copies of a key

`put` writes the backend of its tier and leaves the other one alone, and `delete` ignores a failed removal from
the keychain. So a key that changes its tier leaves its old copy behind (`Sample.old_copy_left`); a call leaves
none exactly where the other backend was empty before it, or the removal worked (`replaced_iff_alone`).
-/

namespace Talkrypt.Helper.Copies

abbrev Store := String → Backends

/-- A call on the store, with the draws of a `put` and what came of the keychain removal of a `delete`. -/
inductive Call where
  | put (name : String) (coins : Nat) (tier : CustodyTier) (blob : Bytes)
  | delete (name : String) (removal : Outcome)

namespace Call

def name : Call → String
  | put name .. => name
  | delete name _ => name

/-- The backends of the name after the call, if it returns `Ok`. -/
def run (hw : Option HwWrapper) (b : Backends) : Call → Option Backends
  | put name coins tier blob => runAll b (Helper.put hw name coins tier blob)
  | delete name removal => do
    let b ← runAll b [.checkName (validName name), .remove .sealed]
    runAll (Op.keychainDelete.run b removal).1 [.checkName (validName name), .remove .tier]

theorem run_delete (hw : Option HwWrapper) (b : Backends) (name : String) (removal : Outcome) :
    (delete name removal).run hw b = if validName name then
      some ⟨none, none, if removal = .works then none else b.keychain⟩ else none := by
  cases hvalid : validName name <;> cases removal <;> simp [run, runAll, Op.run, hvalid, Backends.setFile]

end Call

section
variable (hw : Option HwWrapper)

def step (s : Store) (c : Call) : Store :=
  match c.run hw (s c.name) with
  | some b => Function.update s c.name b
  | none => s

def Succeeds (s : Store) (c : Call) : Prop := (c.run hw (s c.name)).isSome

/-- After a `put` only the backend of its tier holds data for the name, the new data; after a `delete` none does. -/
def Replaced (s : Store) (c : Call) : Prop :=
  match c, step hw s c c.name with
  | .put _ coins tier blob, b =>
    (if tier = .osKeystore then (b.keychain, b.sealed) else (b.sealed, b.keychain)) = (payload hw coins blob tier, none)
  | .delete _ _, b => b.sealed = none ∧ b.keychain = none

end

/-- Nothing is held for the name in the backend that the call does not write, or that it may fail to clear. -/
def Alone (s : Store) : Call → Prop
  | .put name _ tier _ => (if tier = .osKeystore then (s name).sealed else (s name).keychain) = none
  | .delete name removal => removal = .works ∨ (s name).keychain = none

variable {hw : Option HwWrapper} {s : Store}

theorem replaced_iff {c : Call} (h : Succeeds hw s c) : Replaced hw s c ↔ Alone s c := by
  obtain ⟨b, hb⟩ := Option.isSome_iff_exists.mp h
  have hstep : step hw s c c.name = b := by rw [step, hb]; exact Function.update_self ..
  cases c with
  | put name coins tier blob =>
    have hput := (runAll_put coins blob).symm.trans hb
    split at hput
    · obtain ⟨data, hdata, rfl⟩ := Option.map_eq_some_iff.mp hput
      simp only [Replaced, hstep, Alone, hdata]
      cases tier <;> simp [Backends.store, Call.name]
    · cases hput
  | delete name removal =>
    have hdelete := (Call.run_delete hw (s name) name removal).symm.trans hb
    split at hdelete
    · cases hdelete
      simp only [Replaced, hstep, Alone, true_and, ite_eq_left_iff]
      exact Decidable.or_iff_not_imp_left.symm
    · cases hdelete

/-- **No old copies.** Along every run of successful calls, each call leaves the copies it is to leave exactly
where each was made with the other backend empty, or cleared it. -/
theorem replaced_iff_alone {calls : List Call} (h : Run.Along (step hw) (Succeeds hw) s calls) :
    Run.Along (step hw) (Replaced hw) s calls ↔ Run.Along (step hw) Alone s calls := by
  induction calls generalizing s with
  | nil => exact Iff.rfl
  | cons c calls ih => exact and_congr (replaced_iff h.1) (ih h.2)

namespace Sample

def empty : Store := fun _ => {}

def calls : List Call :=
  [.put "k" 0 .softwareSealed [1], .put "k" 0 .softwareSealed [2], .delete "k" .works]

instance (s : Store) (c : Call) : Decidable (Succeeds none s c) := inferInstanceAs (Decidable (_ = true))

instance (s : Store) : (c : Call) → Decidable (Alone s c)
  | .put .. => inferInstanceAs (Decidable (_ = none))
  | .delete .. => inferInstanceAs (Decidable (_ ∨ _))

theorem replaced_in_tier : Run.Along (step none) (Replaced none) empty calls :=
  (replaced_iff_alone (by decide +kernel)).mpr (by decide +kernel)

/-- A secret put into the keychain is still there when the key has been replaced by a sealed one. -/
theorem old_copy_left : Run.Along (step none) (Succeeds none) empty
      [.put "k" 0 .osKeystore [1], .put "k" 0 .softwareSealed [2]] ∧
    (step none (step none empty (.put "k" 0 .osKeystore [1])) (.put "k" 0 .softwareSealed [2])) "k" =
      ⟨some [2], some [0], some [1]⟩ ∧
    ¬ Replaced none (step none empty (.put "k" 0 .osKeystore [1])) (.put "k" 0 .softwareSealed [2]) := by
  refine ⟨by decide +kernel, by decide +kernel, ?_⟩
  rw [replaced_iff (by decide +kernel)]
  decide +kernel

end Sample
end Talkrypt.Helper.Copies
