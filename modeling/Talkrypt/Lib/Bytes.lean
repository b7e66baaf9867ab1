import Mathlib.Data.List.AList
import Mathlib.Tactic

/-!
# Byte strings and big-endian integers

Byte strings are lists of `UInt8`. `beBytes w n` is the `w`-byte big-endian encoding of `n`
(the high part of `n` is dropped, as a narrowing cast does) and `beNat` reads it back. Text is its
UTF-8 encoding.
-/

namespace Talkrypt

abbrev Bytes := List UInt8

abbrev ByteArr (n : Nat) := { b : Bytes // b.length = n }

def ByteArr.zeros (n : Nat) : ByteArr n := ⟨List.replicate n 0, List.length_replicate⟩

def beBytes : Nat → Nat → Bytes
  | 0, _ => []
  | w + 1, n => UInt8.ofNat (n / 256 ^ w) :: beBytes w n

def beNat (b : Bytes) : Nat := b.foldl (fun acc x => acc * 256 + x.toNat) 0

@[simp] theorem beBytes_length (w n : Nat) : (beBytes w n).length = w := by
  induction w with
  | zero => rfl
  | succ w ih => simp [beBytes, ih]

theorem beNat_foldl (b : Bytes) (acc : Nat) :
    b.foldl (fun acc x => acc * 256 + x.toNat) acc = acc * 256 ^ b.length + beNat b := by
  induction b generalizing acc with
  | nil => simp [beNat]
  | cons x b ih =>
    simp only [beNat, List.foldl_cons, List.length_cons]
    rw [ih, ih (0 * 256 + x.toNat)]
    ring

theorem beNat_cons (x : UInt8) (b : Bytes) :
    beNat (x :: b) = x.toNat * 256 ^ b.length + beNat b := by
  conv_lhs => rw [beNat, List.foldl_cons, beNat_foldl]
  simp

theorem beNat_beBytes (w n : Nat) : beNat (beBytes w n) = n % 256 ^ w := by
  induction w with
  | zero => simp [beBytes, beNat, Nat.mod_one]
  | succ w ih =>
    have hsplit : n % (256 ^ w * 256) = n % 256 ^ w + 256 ^ w * (n / 256 ^ w % 256) := Nat.mod_mul
    rw [beBytes, beNat_cons, ih, beBytes_length, UInt8.toNat_ofNat', pow_succ 256, hsplit]
    norm_num
    ring

theorem beNat_beBytes_of_lt {w n : Nat} (h : n < 256 ^ w) : beNat (beBytes w n) = n := by
  rw [beNat_beBytes, Nat.mod_eq_of_lt h]

theorem beNat_lt (b : Bytes) : beNat b < 256 ^ b.length := by
  induction b with
  | nil => simp [beNat]
  | cons x b ih =>
    rw [beNat_cons, List.length_cons, pow_succ]
    have := x.toNat_lt
    nlinarith

theorem beNat_inj {b b' : Bytes} (hlen : b.length = b'.length) (h : beNat b = beNat b') : b = b' := by
  induction b generalizing b' with
  | nil => exact (List.length_eq_zero_iff.mp hlen.symm).symm
  | cons x b ih =>
    obtain ⟨x', b', rfl⟩ := List.exists_cons_of_length_eq_add_one hlen.symm
    have hlen : b.length = b'.length := Nat.succ.inj hlen
    rw [beNat_cons, beNat_cons, hlen] at h
    have hhigh {y m : Nat} (hm : m < 256 ^ b'.length) : (y * 256 ^ b'.length + m) / 256 ^ b'.length = y := by
      rw [Nat.mul_comm, Nat.mul_add_div (by positivity), Nat.div_eq_of_lt hm, Nat.add_zero]
    have hx : x.toNat = x'.toNat := by
      have hdiv := congrArg (· / 256 ^ b'.length) h
      rwa [hhigh (hlen ▸ beNat_lt b), hhigh (beNat_lt b')] at hdiv
    rw [hx] at h
    rw [UInt8.toNat_inj.mp hx, ih hlen (Nat.add_left_cancel h)]

theorem beBytes_beNat (b : Bytes) : beBytes b.length (beNat b) = b :=
  beNat_inj (beBytes_length _ _) (beNat_beBytes_of_lt (beNat_lt b))

/-! ## Text -/

def utf8 (s : String) : Bytes := s.toUTF8.data.toList

def fromUtf8 (bytes : Bytes) : Option String := String.fromUTF8? ⟨⟨bytes⟩⟩

theorem fromUtf8_utf8 (s : String) : fromUtf8 (utf8 s) = some s := dif_pos s.isValidUTF8

theorem utf8_injective : Function.Injective utf8 := fun s t h => by
  have := fromUtf8_utf8 s
  rw [h, fromUtf8_utf8] at this
  exact (Option.some.inj this).symm

theorem utf8_of_fromUtf8 {b : Bytes} {s : String} (h : fromUtf8 b = some s) : utf8 s = b := by
  simp only [fromUtf8, String.fromUTF8?] at h
  split at h
  · cases h
    rfl
  · cases h

end Talkrypt
