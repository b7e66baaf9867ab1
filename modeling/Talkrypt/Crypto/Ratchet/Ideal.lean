import Mathlib.Data.Nat.Pairing
import Talkrypt.Crypto.Ratchet.Chains

/-!
# Ideal primitives

Primitives with all the laws that the ratchet relies on. A key is a pair of a chain and a position in it, so
no two derivations meet; a sealed text starts with a code of key, nonce and associated data that no other such
code begins with.
-/

namespace Talkrypt

def unary (n : Nat) : Bytes := List.replicate n 1 ++ [0]

@[simp] theorem unary_length (n : Nat) : (unary n).length = n + 1 := by simp [unary]

theorem unary_append_inj {m n : Nat} {x y : Bytes} (h : unary m ++ x = unary n ++ y) : m = n ∧ x = y := by
  induction m generalizing n with
  | zero =>
    cases n with
    | zero => exact ⟨rfl, (List.cons.inj h).2⟩
    | succ n => exact absurd (List.cons.inj h).1 (by decide)
  | succ m ih =>
    cases n with
    | zero => exact absurd (List.cons.inj h).1 (by decide)
    | succ n =>
      obtain ⟨rfl, hx⟩ := ih (n := n) (List.cons.inj h).2
      exact ⟨rfl, hx⟩

def sized (b : Bytes) : Bytes := unary b.length ++ b

theorem sized_append_inj {a b x y : Bytes} (h : sized a ++ x = sized b ++ y) : a = b ∧ x = y := by
  rw [sized, sized, List.append_assoc, List.append_assoc] at h
  obtain ⟨hlen, h⟩ := unary_append_inj h
  exact List.append_inj h hlen

def sealHead (k : Nat × Nat) (nonce aad : Bytes) : Bytes :=
  unary k.1 ++ (unary k.2 ++ (sized nonce ++ sized aad))

theorem sealHead_append_inj {k k' : Nat × Nat} {n n' aad aad' x y : Bytes}
    (h : sealHead k n aad ++ x = sealHead k' n' aad' ++ y) : (k, n, aad) = (k', n', aad') := by
  simp only [sealHead, List.append_assoc] at h
  obtain ⟨hchain, hrest⟩ := unary_append_inj h
  obtain ⟨hpos, hrest⟩ := unary_append_inj hrest
  obtain ⟨hnonce, hrest⟩ := sized_append_inj hrest
  obtain ⟨haad, -⟩ := sized_append_inj hrest
  rw [show k = k' from Prod.ext hchain hpos, hnonce, haad]

namespace Primitives

private def zeros : ByteArr 32 := .zeros 32

/-- X25519 keys are told apart by their first byte; everything else about key agreement is constant. -/
def ideal : Primitives where
  Key := Nat × Nat
  zeroKey := (0, 0)
  keyBytes _ := []
  keyOfBytes _ := none
  Coin := UInt8
  drawKey _ := (0, 0)
  drawPad _ := zeros
  macKdf k _ _ := (k.1, k.2 + 1)
  macKdf64 k _ _ := ((k.1 + 1, k.2), (Nat.pair k.1 k.2, 0))
  macKdf44 k _ _ := (k, [])
  KemSeed := Unit
  macKdf96 _ _ _ := (zeros, ())
  gcmEncrypt k n pt aad := some (sealHead k n aad ++ pt)
  gcmDecrypt k n ct aad :=
    if sealHead k n aad <+: ct then some (ct.drop (sealHead k n aad).length) else none
  KemDk := Unit
  kemGenerate _ := ((), List.replicate KEM_EK_LEN 0)
  kemFromSeed _ := ((), List.replicate KEM_EK_LEN 0)
  kemEncapsulate _ _ := some (List.replicate KEM_CT_LEN 0, zeros)
  kemDecapsulate _ _ := some zeros
  XSecret := UInt8
  xGenerate c := c
  xOfBytes _ := 0
  xPublic x := ⟨x :: List.replicate 31 0, rfl⟩
  xDh _ _ := zeros
  SigSeed := Unit
  drawSig _ := ()
  dsaPublic _ := []
  dsaSign _ _ := []
  dsaVerify _ _ _ := true

theorem ideal_kemCorrect : ideal.KemCorrect where
  generate_length _ := List.length_replicate
  fromSeed_length _ := List.length_replicate
  encapsulate _ _ _ := ⟨_, _, rfl, List.length_replicate⟩
  decapsulate_generate _ _ _ _ h := by cases h; rfl
  decapsulate_fromSeed _ _ _ _ h := by cases h; rfl

theorem ideal_dhCorrect : ideal.DhCorrect := fun _ _ => rfl

theorem ideal_kdfIdeal : ideal.KdfIdeal where
  message _ _ h := (Prod.mk.inj h).1
  seed _ _ h := Prod.ext (Prod.mk.inj h).1 (Nat.succ.inj (Prod.mk.inj h).2)
  next _ _ h := Prod.ext (Prod.mk.inj h).1 (Nat.succ.inj (Prod.mk.inj h).2)
  chain _ _ _ _ h := by
    obtain ⟨h1, h2⟩ := Nat.pair_eq_pair.mp (Prod.mk.inj h).1
    exact Prod.ext h1 h2
  fresh _ _ _ h := Nat.succ_ne_zero _ (Prod.mk.inj h).2.symm
  acyclic := ⟨Prod.fst, fun r _ => Nat.lt_succ_self r.1⟩

theorem ideal_aeadCorrect : ideal.AeadCorrect := by
  rintro k n pt aad ct ⟨⟩
  exact (if_pos (List.prefix_append ..)).trans (congrArg some List.drop_left)

theorem ideal_aeadIntegrity : ideal.AeadIntegrity := by
  rintro k n pt aad ct k' n' aad' ⟨⟩ hne
  refine if_neg ?_
  rintro ⟨rest, hrest⟩
  exact hne (sealHead_append_inj hrest)

theorem ideal_step (a b : KeyCoins ideal) (c : ideal.Coin) :
    ∃ ikm, (RatchetSecret.generate ideal .hybrid a).1.stepTo (RatchetSecret.generate ideal .hybrid b).2 c =
        .ok (List.replicate KEM_CT_LEN 0, ikm) ∧
      (RatchetSecret.generate ideal .hybrid b).1.stepFrom (RatchetSecret.generate ideal .hybrid a).2
        (List.replicate KEM_CT_LEN 0) = .ok ikm := by
  have henc : (RatchetSecret.generate ideal .hybrid b).2.encapsulate ideal c =
      .ok (List.replicate KEM_CT_LEN 0, zeros) := by
    have hek : (RatchetSecret.generate ideal .hybrid b).2.kemEk.length = KEM_EK_LEN :=
      ideal_kemCorrect.generate_length b.kem
    rw [RatchetPublic.encapsulate, if_neg (not_not.mpr hek)]
    rfl
  have hdec : (RatchetSecret.generate ideal .hybrid b).1.decapsulate (List.replicate KEM_CT_LEN 0) =
      .ok zeros := by
    rw [RatchetSecret.decapsulate, if_neg (not_not.mpr List.length_replicate)]
    rfl
  refine ⟨zeros.1 ++ zeros.1, ?_, ?_⟩
  · simp only [RatchetSecret.stepTo, henc, bind, Except.bind]
    rfl
  · simp only [RatchetSecret.stepFrom, hdec, bind, Except.bind]
    rfl

end Primitives
end Talkrypt
