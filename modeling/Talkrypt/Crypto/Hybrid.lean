import Talkrypt.Lib.Except
import Talkrypt.Crypto.Primitives

/-!
# Ratchet keys with a selectable KEM profile (`crates/crypto/src/hybrid.rs`)

A ratchet key carries an ML-KEM-1024 key pair and, by profile, an X25519 key pair or filler bytes.
`RatchetPublic` carries the proof that its optional parts are the ones its profile asks for, so
`decode` inverts `encode` on every key whose ML-KEM part fits a wire field (`decode_encode`), and a
sender step and the matching receiver step derive the same keying material (`stepFrom_stepTo`).
-/

namespace Talkrypt

inductive KemPosture where
  | hybrid
  | pqPure
deriving Repr, DecidableEq

structure KemProfile where
  posture : KemPosture
  /-- For `pqPure`: pad the wire so that the encoded length matches hybrid. -/
  padPure : Bool
deriving Repr, DecidableEq

namespace KemProfile

def hybrid : KemProfile := ⟨.hybrid, false⟩
def pqPure : KemProfile := ⟨.pqPure, true⟩
def pqPureCompact : KemProfile := ⟨.pqPure, false⟩

def hasX (p : KemProfile) : Bool := p.posture == .hybrid

def hasPad (p : KemProfile) : Bool := p.posture == .pqPure && p.padPure

end KemProfile

/-- The public half of a ratchet key, as carried in a message header. -/
structure RatchetPublic where
  profile : KemProfile
  xPub : Option (ByteArr 32)
  /-- Cosmetic wire padding; never enters key derivation. -/
  pad : Option (ByteArr 32)
  kemEk : Bytes
  shape : xPub.isSome = profile.hasX ∧ pad.isSome = profile.hasPad
deriving DecidableEq

structure RatchetSecret (P : Primitives) where
  profile : KemProfile
  x : Option P.XSecret
  kemDk : P.KemDk

/-- Clear the top bit of the last byte, as it is in a serialized X25519 public key. -/
def shapeLikeX25519Public (p : ByteArr 32) : ByteArr 32 :=
  ⟨p.1.set 31 (p.1.getD 31 0 &&& 0x7f), by simp [p.2]⟩

/-- Fallible 32-byte conversion for attacker-controlled wire fields. -/
def tryTo32 (b : Bytes) : Except CryptoError (ByteArr 32) :=
  if h : b.length = 32 then .ok ⟨b, h⟩ else .error (.malformed "ratchet public x25519/pad length")

def getTo32 : Reader CryptoError (ByteArr 32) := do
  let b ← Reader.getBytes
  liftM (tryTo32 b)

theorem reads_to32 : Reads getTo32 (fun a : ByteArr 32 => putBytes a.1) Any := by
  have hto (b : Bytes) (a : ByteArr 32) : tryTo32 b = .ok a ↔ b = a.1 := by
    unfold tryTo32
    constructor
    · intro h
      split at h
      · cases h
        rfl
      · cases h
    · rintro rfl
      exact dif_pos a.2
  refine (codec_field (F := Any) ⟨fun _ => (hto _ _).mpr rfl, fun {a b} h => ?_⟩ Reader.lift_iff).conv
    (fun _ _ => rfl) fun a _ => ⟨fun _ => trivial, fun _ => ⟨trivial, by rw [a.2]; decide⟩⟩
  obtain rfl := (hto _ _).mp h
  exact ⟨trivial, le_rfl, fun _ => rfl⟩

/-- The draws of one `RatchetSecret::generate`. -/
structure KeyCoins (P : Primitives) where
  kem : P.Coin
  aux : P.Coin

namespace RatchetPublic

/-- The public key of `profile` with `aux` in the 32-byte field, where the profile has one. -/
def mk' (profile : KemProfile) (xPub pad : ByteArr 32) (kemEk : Bytes) : RatchetPublic where
  profile := profile
  xPub := if profile.hasX then some xPub else none
  pad := if profile.hasPad then some pad else none
  kemEk := kemEk
  shape := by constructor <;> split <;> simp_all

def encode (p : RatchetPublic) : Bytes :=
  (match p.xPub, p.pad with
    | some xp, _ => putBytes xp.1
    | none, some pd => putBytes pd.1
    | none, none => []) ++ putBytes p.kemEk

def get (profile : KemProfile) : Reader CryptoError RatchetPublic := do
  let aux ← (if profile.hasX || profile.hasPad then getTo32 else pure ⟨List.replicate 32 0, rfl⟩)
  let kemEk ← Reader.getBytes
  pure (mk' profile aux aux kemEk)

/-- Decode for a known profile. Trailing bytes are not rejected. -/
def decode (profile : KemProfile) : Bytes → Except CryptoError RatchetPublic := Reader.parse (get profile)

/-- Encapsulate to this public key: `(ciphertext, kem_shared_secret)`. -/
def encapsulate (P : Primitives) (p : RatchetPublic) (c : P.Coin) :
    Except CryptoError (Bytes × SharedSecret) :=
  if p.kemEk.length ≠ KEM_EK_LEN then .error (.malformed "ml-kem encapsulation key length")
  else match P.kemEncapsulate p.kemEk c with
    | some r => .ok r
    | none => .error (.malformed "ml-kem encapsulation failed")

theorem encode_mk' (profile : KemProfile) (xPub pad : ByteArr 32) (kemEk : Bytes) :
    (mk' profile xPub pad kemEk).encode =
      (if profile.hasX then putBytes xPub.1 else if profile.hasPad then putBytes pad.1 else []) ++
        putBytes kemEk := by
  cases hx : profile.hasX <;> cases hp : profile.hasPad <;> simp [encode, mk', hx, hp]

theorem exists_eq_mk' (p : RatchetPublic) : ∃ aux, p = mk' p.profile aux aux p.kemEk := by
  obtain ⟨profile, xPub, pad, kemEk, hx, hp⟩ := p
  have hboth : ¬ (profile.hasX = true ∧ profile.hasPad = true) := by
    cases h : profile.posture <;> simp [KemProfile.hasX, KemProfile.hasPad, h]
  rcases xPub with _ | x <;> rcases pad with _ | pd <;>
    simp only [Option.isSome_none, Option.isSome_some] at hx hp
  · exact ⟨⟨List.replicate 32 0, rfl⟩, by simp [mk', ← hx, ← hp]⟩
  · exact ⟨pd, by simp [mk', ← hx, ← hp]⟩
  · exact ⟨x, by simp [mk', ← hx, ← hp]⟩
  · exact (hboth ⟨hx.symm, hp.symm⟩).elim

def aux (p : RatchetPublic) : ByteArr 32 := (p.xPub.or p.pad).getD ⟨List.replicate 32 0, rfl⟩

theorem aux_mk' {profile : KemProfile} (h : profile.hasX || profile.hasPad) (a : ByteArr 32) (kemEk : Bytes) :
    (mk' profile a a kemEk).aux = a := by
  cases hx : profile.hasX <;> cases hp : profile.hasPad <;> simp_all [aux, mk']

def Fits (profile : KemProfile) (p : RatchetPublic) : Prop := p.profile = profile ∧ p.kemEk.length ≤ MAX_FRAME

theorem reads_get (profile : KemProfile) : Reads (get profile) encode (Fits profile) := by
  refine Codec.any (P := fun p : RatchetPublic => p.profile = profile) ?_
  unfold get
  by_cases hf : profile.hasX || profile.hasPad
  · rw [if_pos hf]
    refine (reads_to32.seq (π := aux) fun a _ => Codec.seq (π := kemEk) reads_bytes fun ek _ => .done fun p => ?_).conv
      (fun p hp => ?_) fun p _ => by simp
    · constructor
      · rintro ⟨⟨rfl, rfl⟩, rfl⟩
        obtain ⟨a, ha⟩ := p.exists_eq_mk'
        have haux := congrArg aux ha
        rw [aux_mk' hf] at haux
        rwa [haux]
      · rintro rfl
        exact ⟨⟨rfl, aux_mk' hf a ek⟩, rfl⟩
    · obtain ⟨a, ha⟩ := p.exists_eq_mk'
      rw [hp] at ha
      rw [ha, aux_mk' hf, encode_mk', List.append_nil]
      clear ha
      cases hx : profile.hasX <;> cases hpad : profile.hasPad <;> simp_all [mk']
  · simp only [Bool.or_eq_true, not_or, Bool.not_eq_true] at hf
    simp only [hf.1, hf.2, Bool.or_self, Bool.false_eq_true, if_false, pure_bind]
    refine (Codec.seq (π := kemEk) reads_bytes fun ek _ => .done fun p => ?_).conv (fun p hp => ?_) fun p _ => by simp
    · constructor
      · rintro ⟨rfl, rfl⟩
        obtain ⟨a, ha⟩ := p.exists_eq_mk'
        simpa [mk', hf.1, hf.2] using ha
      · rintro rfl
        exact ⟨rfl, rfl⟩
    · obtain ⟨a, ha⟩ := p.exists_eq_mk'
      rw [hp] at ha
      rw [ha, encode_mk']
      simp [mk', hf.1, hf.2]

theorem decodes (profile : KemProfile) : Decodes False (decode profile) encode (Fits profile) where
  read hp := by
    rw [decode, Reader.parse, (reads_get profile).read_nil hp]
    rfl
  accepts {p b} h := by
    obtain ⟨⟨p, t⟩, hget, rfl⟩ := except_map_eq_ok h
    obtain ⟨rfl, hp⟩ := (reads_get profile).accepts hget
    exact ⟨hp, (List.prefix_append ..).length_le, False.elim⟩

variable {p : RatchetPublic}

theorem decode_encode (h : p.kemEk.length ≤ MAX_FRAME) : decode p.profile p.encode = .ok p := (decodes _).read ⟨rfl, h⟩

theorem encode_inj {q : RatchetPublic} (hp : p.kemEk.length ≤ MAX_FRAME) (hq : q.kemEk.length ≤ MAX_FRAME)
    (hprofile : p.profile = q.profile) (h : p.encode = q.encode) : p = q := by
  have hdecode := decode_encode hp
  rw [hprofile, h, decode_encode hq] at hdecode
  exact (Except.ok.inj hdecode).symm

theorem kemEk_length_le {n : Nat} (h : p.encode.length ≤ n) : p.kemEk.length ≤ n := by
  rw [encode, List.length_append, putBytes_length] at h
  omega

theorem encode_length_le (p : RatchetPublic) : p.encode.length ≤ 40 + p.kemEk.length := by
  obtain ⟨aux, haux⟩ := p.exists_eq_mk'
  rw [haux, encode_mk']
  simp only [mk', List.length_append, putBytes_length]
  split
  · simp [putBytes_length, aux.2]; omega
  · split
    · simp [putBytes_length, aux.2]; omega
    · simp

end RatchetPublic

namespace RatchetSecret
variable {P : Primitives}

def generate (P : Primitives) (profile : KemProfile) (c : KeyCoins P) :
    RatchetSecret P × RatchetPublic :=
  let (kemDk, kemEk) := P.kemGenerate c.kem
  let x := P.xGenerate c.aux
  (⟨profile, if profile.hasX then some x else none, kemDk⟩,
    .mk' profile (P.xPublic x) (shapeLikeX25519Public (P.drawPad c.aux)) kemEk)

def nodeLabel : KemPosture → Bytes
  | .hybrid => utf8 "talkrypt-treekem-node"
  | .pqPure => utf8 "talkrypt-treekem-node-pq"

/-- Deterministically derive a ratchet key from a 32-byte seed. -/
def deriveDeterministic (P : Primitives) (profile : KemProfile) (seed : P.Key) :
    RatchetSecret P × RatchetPublic :=
  let (aux, dz) := P.macKdf96 seed [] (nodeLabel profile.posture)
  let (kemDk, kemEk) := P.kemFromSeed dz
  let x := P.xOfBytes aux
  (⟨profile, if profile.hasX then some x else none, kemDk⟩,
    .mk' profile (P.xPublic x) (shapeLikeX25519Public aux) kemEk)

/-- Decapsulate an ML-KEM ciphertext made against our encapsulation key. -/
def decapsulate (s : RatchetSecret P) (ct : Bytes) : Except CryptoError SharedSecret :=
  if ct.length ≠ KEM_CT_LEN then .error (.malformed "ml-kem ciphertext length")
  else match P.kemDecapsulate s.kemDk ct with
    | some ss => .ok ss
    | none => .error .decryptionFailed

/-- X25519 DH against a peer public key (hybrid only). -/
def dh (s : RatchetSecret P) (peer : ByteArr 32) : Except CryptoError SharedSecret :=
  match s.x with
  | some x => .ok (P.xDh x peer)
  | none => .error (.malformed "dh requested on a PQ-pure key")

def combineIkm (s : RatchetSecret P) (peer : RatchetPublic) (kemSs : SharedSecret) :
    Except CryptoError Bytes :=
  match s.profile.posture with
  | .hybrid =>
    match peer.xPub with
    | some peerX => do
      let dh ← s.dh peerX
      pure (dh.1 ++ kemSs.1)
    | none => .error (.malformed "hybrid step against PQ-pure peer")
  | .pqPure => .ok kemSs.1

/-- Sender asymmetric step against `peer`: `(kem_ciphertext, ikm)`. -/
def stepTo (s : RatchetSecret P) (peer : RatchetPublic) (c : P.Coin) :
    Except CryptoError (Bytes × Bytes) := do
  let (ct, kemSs) ← peer.encapsulate P c
  let ikm ← s.combineIkm peer kemSs
  pure (ct, ikm)

def stepFrom (s : RatchetSecret P) (peer : RatchetPublic) (ct : Bytes) : Except CryptoError Bytes := do
  let kemSs ← s.decapsulate ct
  s.combineIkm peer kemSs

@[simp] theorem generate_public_profile (profile : KemProfile) (c : KeyCoins P) :
    (generate P profile c).2.profile = profile := rfl

@[simp] theorem generate_secret_profile (profile : KemProfile) (c : KeyCoins P) :
    (generate P profile c).1.profile = profile := rfl

@[simp] theorem generate_kemEk (profile : KemProfile) (c : KeyCoins P) :
    (generate P profile c).2.kemEk = (P.kemGenerate c.kem).2 := rfl

@[simp] theorem deriveDeterministic_profile (profile : KemProfile) (seed : P.Key) :
    (deriveDeterministic P profile seed).2.profile = profile := rfl

@[simp] theorem deriveDeterministic_kemEk (profile : KemProfile) (seed : P.Key) :
    (deriveDeterministic P profile seed).2.kemEk =
      (P.kemFromSeed (P.macKdf96 seed [] (nodeLabel profile.posture)).2).2 := rfl

/-- Two generated keys of one profile derive the same keying material from one KEM secret: under
`hybrid` because X25519 commutes. -/
theorem combineIkm_comm (hdh : P.DhCorrect) (profile : KemProfile) (a b : KeyCoins P)
    (ss : SharedSecret) :
    ∃ ikm, (generate P profile a).1.combineIkm (generate P profile b).2 ss = .ok ikm ∧
      (generate P profile b).1.combineIkm (generate P profile a).2 ss = .ok ikm := by
  obtain ⟨posture, padPure⟩ := profile
  cases posture with
  | pqPure => exact ⟨ss.1, rfl, rfl⟩
  | hybrid =>
    refine ⟨(P.xDh (P.xGenerate a.aux) (P.xPublic (P.xGenerate b.aux))).1 ++ ss.1, rfl, ?_⟩
    rw [hdh]
    rfl

/-- The KEM ratchet step: what the sender derives towards a generated key is what the holder of that
key derives from the header. -/
theorem stepFrom_stepTo (hkem : P.KemCorrect) (hdh : P.DhCorrect) (profile : KemProfile)
    (a b : KeyCoins P) (c : P.Coin) :
    ∃ ct ikm, (generate P profile a).1.stepTo (generate P profile b).2 c = .ok (ct, ikm) ∧
      ct.length = KEM_CT_LEN ∧
      (generate P profile b).1.stepFrom (generate P profile a).2 ct = .ok ikm := by
  obtain ⟨ct, ss, henc, hlen⟩ := hkem.encapsulate _ c (hkem.generate_length b.kem)
  obtain ⟨ikm, hab, hba⟩ := combineIkm_comm hdh profile a b ss
  have hdec := hkem.decapsulate_generate _ _ _ _ henc
  refine ⟨ct, ikm, ?_, hlen, ?_⟩
  · have he : (generate P profile b).2.encapsulate P c = .ok (ct, ss) := by
      simp [RatchetPublic.encapsulate, hkem.generate_length, henc]
    simp only [stepTo, he, hab, bind, Except.bind, pure, Except.pure]
  · have hd : (generate P profile b).1.decapsulate ct = .ok ss := by
      simp [decapsulate, hlen, generate, hdec]
    simp only [stepFrom, hd, hba, bind, Except.bind]

end RatchetSecret
end Talkrypt
