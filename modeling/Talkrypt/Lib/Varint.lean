import Talkrypt.Lib.Bytes

/-!
# Base-128 varints

Seven bits a byte, the lowest first; every byte but the last has its top bit set. Values are `u64`. `Is bs v` says that
the bytes are a varint of `v`, not only the shortest one. The reader reads every varint (`get_append`), and the writer
writes one (`is_put`).
-/

namespace Talkrypt.Varint

def putFrom : Nat → Nat → Bytes
  | 0, _ => []
  | fuel + 1, v =>
    if v / 128 ≠ 0 then UInt8.ofNat (v % 128 + 128) :: putFrom fuel (v / 128) else [UInt8.ofNat (v % 128)]

def put (v : Nat) : Bytes := putFrom 10 (v % 2 ^ 64)

def getFrom : Nat → Nat → Nat → Bytes → Option (Nat × Bytes)
  | 0, _, _, _ => none
  | _, _, _, [] => none
  | fuel + 1, shift, result, b :: buf =>
    let result := result ||| ((b.toNat % 128) <<< shift) % 2 ^ 64
    if b.toNat < 128 then some (result, buf) else getFrom fuel (shift + 7) result buf

/-- Read a varint of at most ten bytes from the front. -/
def get (buf : Bytes) : Option (Nat × Bytes) := getFrom 10 0 0 buf

def Ends : Bytes → Prop
  | [] => False
  | [b] => b.toNat < 128
  | b :: bs => 128 ≤ b.toNat ∧ Ends bs

def value : Bytes → Nat
  | [] => 0
  | b :: bs => b.toNat % 128 + 128 * value bs

def Is (bs : Bytes) (v : Nat) : Prop := Ends bs ∧ bs.length ≤ 10 ∧ value bs % 2 ^ 64 = v

theorem or_shift {result shift c : Nat} (hresult : result < 2 ^ shift) (hshift : shift ≤ 64) :
    result ||| (c <<< shift) % 2 ^ 64 = result + 2 ^ shift * c % 2 ^ 64 := by
  obtain ⟨m, hm⟩ : ∃ m, 2 ^ 64 = 2 ^ shift * 2 ^ m := ⟨64 - shift, by rw [← pow_add, Nat.add_sub_cancel' hshift]⟩
  rw [Nat.shiftLeft_eq, Nat.mul_comm c, hm, Nat.mul_mod_mul_left, Nat.or_comm, ← Nat.two_pow_add_eq_or_of_lt hresult,
    Nat.add_comm]

theorem getFrom_append {bs : Bytes} (hends : Ends bs) (rest : Bytes) {fuel shift result : Nat}
    (hfuel : bs.length ≤ fuel) (hshift : shift + 7 * fuel = 70) (hresult : result < 2 ^ shift) :
    getFrom fuel shift result (bs ++ rest) = some ((result + 2 ^ shift * value bs) % 2 ^ 64, rest) := by
  induction bs generalizing fuel shift result with
  | nil => exact hends.elim
  | cons b bs ih =>
    obtain ⟨fuel, rfl⟩ := Nat.exists_eq_succ_of_ne_zero (Nat.ne_zero_of_lt (Nat.lt_of_lt_of_le (Nat.succ_pos bs.length) hfuel))
    have hle : 2 ^ shift ≤ 2 ^ 64 := Nat.pow_le_pow_right (by decide) (by omega)
    have hor := or_shift (c := b.toNat % 128) hresult (by omega)
    have hlt : result ||| ((b.toNat % 128) <<< shift) % 2 ^ 64 < 2 ^ 64 :=
      Nat.or_lt_two_pow (hresult.trans_le hle) (Nat.mod_lt _ (by decide))
    rw [List.cons_append, getFrom]
    rw [hor] at hlt ⊢
    cases bs with
    | nil =>
      rw [if_pos (show b.toNat < 128 from hends), value, value, Nat.mul_zero, Nat.add_zero, List.nil_append,
        ← Nat.mod_eq_of_lt hlt]
      simp only [Option.some.injEq, Prod.mk.injEq, and_true]
      omega
    | cons b' bs =>
      have hpow : 2 ^ (shift + 7) = 2 ^ shift * 128 := pow_add ..
      have hc : 2 ^ shift * (b.toNat % 128) ≤ 2 ^ shift * 127 := Nat.mul_le_mul_left _ (by omega)
      have hmod := Nat.mod_le (2 ^ shift * (b.toNat % 128)) (2 ^ 64)
      rw [if_neg (by have := hends.1; omega), ih hends.2 (Nat.le_of_succ_le_succ hfuel) (by omega) (by omega)]
      have hsplit : 2 ^ shift * value (b :: b' :: bs) =
          2 ^ shift * (b.toNat % 128) + 2 ^ (shift + 7) * value (b' :: bs) := by
        rw [hpow, value, Nat.mul_add, Nat.mul_assoc]
      rw [hsplit]
      simp only [Option.some.injEq, Prod.mk.injEq, and_true]
      omega

theorem get_append {bs : Bytes} {v : Nat} (h : Is bs v) (rest : Bytes) : get (bs ++ rest) = some (v, rest) := by
  obtain ⟨hends, hlen, rfl⟩ := h
  rw [get, getFrom_append hends rest hlen rfl Nat.one_pos, Nat.zero_add, pow_zero, Nat.one_mul]

theorem putFrom_spec {fuel v : Nat} (h : v < 128 ^ (fuel + 1)) :
    Ends (putFrom (fuel + 1) v) ∧ (putFrom (fuel + 1) v).length ≤ fuel + 1 ∧ value (putFrom (fuel + 1) v) = v := by
  induction fuel generalizing v with
  | zero =>
    rw [putFrom, if_neg (by omega)]
    simp only [Ends, value, UInt8.toNat_ofNat', List.length_singleton]
    omega
  | succ fuel ih =>
    rw [putFrom]
    split
    · next hne =>
      obtain ⟨hends, hlen, hvalue⟩ := ih (v := v / 128) (by rw [pow_succ] at h; omega)
      refine ⟨?_, Nat.succ_le_succ hlen, ?_⟩
      · generalize putFrom (fuel + 1) (v / 128) = bs at hends
        cases bs with
        | nil => exact hends.elim
        | cons b bs =>
          refine ⟨?_, hends⟩
          rw [UInt8.toNat_ofNat']
          omega
      · rw [value, hvalue, UInt8.toNat_ofNat']
        omega
    · simp only [Ends, value, UInt8.toNat_ofNat', List.length_singleton]
      omega

theorem is_put {v : Nat} (h : v < 2 ^ 64) : Is (put v) v := by
  obtain ⟨hends, hlen, hvalue⟩ := putFrom_spec (show v < 128 ^ (9 + 1) by omega)
  rw [put, Nat.mod_eq_of_lt h]
  exact ⟨hends, hlen, by rw [hvalue, Nat.mod_eq_of_lt h]⟩

end Talkrypt.Varint
