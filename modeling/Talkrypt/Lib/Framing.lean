import Mathlib.Tactic

/-!
# Incremental deframing

A deframer keeps a buffer. When input arrives it looks for the start of a frame (`seek`), drops what is before it
(`keep` says what is left if there is none), and takes frames off the front of the buffer (`parse`) as long as it finds
complete ones. If neither function is misled by what has not arrived yet (`Lawful`), then it makes no difference how
the input is cut into pieces (`pushAll_eq_run`).
-/

namespace Talkrypt

structure Framing (β γ : Type) where
  seek : List β → Option (List β)
  keep : List β → List β
  /-- What a buffer begins with: nothing complete yet, or a frame or something to skip, and the rest. -/
  parse : List β → Option (Option γ × List β)

namespace Framing
variable {β γ : Type}

/-- The loop of a deframer: the frames taken off, and the buffer left. -/
def scan (F : Framing β γ) : Nat → List β → List γ × List β
  | 0, buf => ([], buf)
  | fuel + 1, buf =>
    match F.seek buf with
    | none => ([], F.keep buf)
    | some buf =>
      match F.parse buf with
      | none => ([], buf)
      | some (frame, rest) => (frame.toList ++ (F.scan fuel rest).1, (F.scan fuel rest).2)

def run (F : Framing β γ) (buf : List β) : List γ × List β := F.scan (buf.length + 1) buf

/-- More input: it is put behind the buffer, and the loop runs. -/
def push (F : Framing β γ) (buf bytes : List β) : List γ × List β := F.run (buf ++ bytes)

/-- All frames of a sequence of inputs, and the last buffer. -/
def pushAll (F : Framing β γ) (buf : List β) : List (List β) → List γ × List β
  | [] => ([], buf)
  | bytes :: more => ((F.push buf bytes).1 ++ (F.pushAll (F.push buf bytes).2 more).1, (F.pushAll (F.push buf bytes).2 more).2)

structure Lawful (F : Framing β γ) : Prop where
  seek_append : ∀ {buf r}, F.seek buf = some r → ∀ more, F.seek (buf ++ more) = some (r ++ more)
  seek_self : ∀ {buf r}, F.seek buf = some r → F.seek r = some r
  seek_length : ∀ {buf r}, F.seek buf = some r → r.length ≤ buf.length
  seek_keep : ∀ {buf}, F.seek buf = none → ∀ more, F.seek (F.keep buf ++ more) = F.seek (buf ++ more)
  keep_keep : ∀ {buf}, F.seek buf = none → ∀ more, F.keep (F.keep buf ++ more) = F.keep (buf ++ more)
  parse_append : ∀ {r frame rest}, F.parse r = some (frame, rest) → ∀ more, F.parse (r ++ more) = some (frame, rest ++ more)
  parse_length : ∀ {r frame rest}, F.parse r = some (frame, rest) → rest.length < r.length

variable {F : Framing β γ} {buf r rest : List β} {frame : Option γ}

/-! ## One round of the loop -/

theorem run_of_none (h : F.seek buf = none) : F.run buf = ([], F.keep buf) := by
  rw [run, scan, h]

theorem run_of_wait (h : F.seek buf = some r) (hr : F.parse r = none) : F.run buf = ([], r) := by
  simp only [run, scan, h, hr]

namespace Lawful
variable (hF : F.Lawful)
include hF

theorem scan_eq_run {fuel : Nat} (h : buf.length < fuel) : F.scan fuel buf = F.run buf := by
  suffices ∀ n m buf, buf.length < n → buf.length < m → F.scan n buf = F.scan m buf from this _ _ _ h (Nat.lt_succ_self _)
  intro n
  induction n with
  | zero => exact fun m buf hn => absurd hn (Nat.not_lt_zero _)
  | succ n ih =>
    intro m buf hn hm
    obtain ⟨m, rfl⟩ := Nat.exists_eq_succ_of_ne_zero (Nat.ne_zero_of_lt hm)
    rw [scan, scan]
    cases hseek : F.seek buf with
    | none => rfl
    | some r =>
      dsimp only
      cases hparse : F.parse r with
      | none => rfl
      | some p =>
        have hle := hF.seek_length hseek
        have hlt := hF.parse_length hparse
        dsimp only
        rw [ih m p.2 (by omega) (by omega)]

theorem run_of_parse (h : F.seek buf = some r) (hr : F.parse r = some (frame, rest)) :
    F.run buf = (frame.toList ++ (F.run rest).1, (F.run rest).2) := by
  have hle := hF.seek_length h
  have hlt := hF.parse_length hr
  rw [run, scan, h]
  dsimp only
  rw [hr]
  dsimp only
  rw [hF.scan_eq_run (by omega)]

/-! ## Input in pieces -/

theorem run_append (buf more : List β) : F.run (buf ++ more) =
    ((F.run buf).1 ++ (F.run ((F.run buf).2 ++ more)).1, (F.run ((F.run buf).2 ++ more)).2) := by
  induction hn : buf.length using Nat.strong_induction_on generalizing buf with
  | _ n ih =>
    cases hseek : F.seek buf with
    | none =>
      -- what was dropped can hold no part of a start mark
      rw [run_of_none hseek, List.nil_append]
      cases hmore : F.seek (buf ++ more) with
      | none => rw [run_of_none hmore, run_of_none ((hF.seek_keep hseek more).trans hmore), hF.keep_keep hseek]
      | some r =>
        have hkeep := (hF.seek_keep hseek more).trans hmore
        cases hparse : F.parse r with
        | none => rw [run_of_wait hmore hparse, run_of_wait hkeep hparse]
        | some p => rw [hF.run_of_parse hmore hparse, hF.run_of_parse hkeep hparse]
    | some r =>
      have hmore := hF.seek_append hseek more
      cases hparse : F.parse r with
      | none =>
        rw [run_of_wait hseek hparse, List.nil_append]
        have hself := hF.seek_append (hF.seek_self hseek) more
        cases hparse' : F.parse (r ++ more) with
        | none => rw [run_of_wait hmore hparse', run_of_wait hself hparse']
        | some p => rw [hF.run_of_parse hmore hparse', hF.run_of_parse hself hparse']
      | some p =>
        have hle := hF.seek_length hseek
        have hlt := hF.parse_length hparse
        rw [hF.run_of_parse hseek hparse, hF.run_of_parse hmore (hF.parse_append hparse more), ih p.2.length (by omega) p.2 rfl,
          List.append_assoc]

theorem run_run (buf : List β) : F.run (F.run buf).2 = ([], (F.run buf).2) := by
  have h := hF.run_append buf []
  rw [List.append_nil, List.append_nil] at h
  have hframes : (F.run buf).1 = (F.run buf).1 ++ (F.run (F.run buf).2).1 := congrArg Prod.fst h
  exact Prod.ext (List.self_eq_append_right.mp hframes) (congrArg Prod.snd h).symm

theorem pushAll_eq_run (pieces : List (List β)) (h : F.run buf = ([], buf)) :
    F.pushAll buf pieces = F.run (buf ++ pieces.flatten) := by
  induction pieces generalizing buf with
  | nil => rw [pushAll, List.flatten_nil, List.append_nil, h]
  | cons bytes more ih =>
    rw [pushAll, push, ih (hF.run_run _), List.flatten_cons, ← List.append_assoc, hF.run_append (buf ++ bytes)]

theorem run_frames {w : γ → List β} {J : List β → Prop} {P : γ → Prop}
    (hjunk : ∀ {junk}, J junk → F.seek junk = none)
    (hframe : ∀ {junk f}, J junk → P f → ∀ rest, F.seek (junk ++ w f ++ rest) = some (w f ++ rest) ∧
      F.parse (w f ++ rest) = some (some f, rest))
    (items : List (List β × γ)) (tail : List β) (hitems : ∀ x ∈ items, J x.1 ∧ P x.2) (htail : J tail) :
    F.run (items.flatMap (fun x => x.1 ++ w x.2) ++ tail) = (items.map Prod.snd, F.keep tail) := by
  induction items with
  | nil => exact run_of_none (hjunk htail)
  | cons x items ih =>
    obtain ⟨hx, hitems⟩ := List.forall_mem_cons.mp hitems
    obtain ⟨hseek, hparse⟩ := hframe hx.1 hx.2 (items.flatMap (fun x => x.1 ++ w x.2) ++ tail)
    rw [List.flatMap_cons, List.append_assoc, hF.run_of_parse hseek hparse, ih hitems]
    rfl

end Lawful
end Framing
end Talkrypt
