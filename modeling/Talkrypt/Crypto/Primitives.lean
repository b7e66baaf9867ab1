import Talkrypt.Wire

/-!
# Cryptographic primitives

The primitives that come from third-party crates (ML-KEM-1024, X25519, ML-DSA-87, AES-256-GCM,
KMAC256) are the fields of `Primitives`; what the code relies on is stated as separate predicates on
them (`KemCorrect`, `AeadCorrect`, `SigCorrect`, ...), so each theorem names what it assumes. Symmetric
secrets (`[u8; 32]`) are an abstract type `Key`: the code only ever passes them to a KDF or seals
them.

The KDF wrappers (`crates/crypto/src/kdf.rs`) and the long-term identity keys
(`crates/crypto/src/identity.rs`) are defined over the primitives.
-/

namespace Talkrypt

/-- `CryptoError`: the variants the modelled functions return. -/
inductive CryptoError where
  | decryptionFailed
  | malformed (what : String)
  | badSignature
  | tooManySkipped (max : Nat)
  | wire (e : WireError)
deriving Repr, DecidableEq

instance : FromWire CryptoError := ⟨.wire⟩

/-- How an operation fails: an error, or an `expect` that aborts the process. -/
inductive Fault where
  | error (e : CryptoError)
  | abort (msg : String)
deriving Repr, DecidableEq

abbrev SharedSecret := ByteArr 32

structure Primitives where
  /-- 32-byte symmetric secrets: root, chain and message keys, TreeKEM node secrets. -/
  Key : Type
  zeroKey : Key
  keyBytes : Key → Bytes
  /-- The inverse copy; `none` when the input is not 32 bytes long. -/
  keyOfBytes : Bytes → Option Key
  Coin : Type
  drawKey : Coin → Key
  drawPad : Coin → ByteArr 32
  -- KMAC256, by output length: 32 bytes, 32 + 32, 32 + 12, and 32 bytes plus the ML-KEM seeds (d, z).
  macKdf : Key → Bytes → Bytes → Key
  macKdf64 : Key → Bytes → Bytes → Key × Key
  macKdf44 : Key → Bytes → Bytes → Key × Bytes
  KemSeed : Type
  macKdf96 : Key → Bytes → Bytes → ByteArr 32 × KemSeed
  -- AES-256-GCM: key, nonce, text, associated data.
  gcmEncrypt : Key → Bytes → Bytes → Bytes → Option Bytes
  gcmDecrypt : Key → Bytes → Bytes → Bytes → Option Bytes
  -- ML-KEM-1024. Encapsulation keys and ciphertexts travel as bytes.
  KemDk : Type
  kemGenerate : Coin → KemDk × Bytes
  kemFromSeed : KemSeed → KemDk × Bytes
  kemEncapsulate : Bytes → Coin → Option (Bytes × SharedSecret)
  kemDecapsulate : KemDk → Bytes → Option SharedSecret
  -- X25519.
  XSecret : Type
  xGenerate : Coin → XSecret
  xOfBytes : ByteArr 32 → XSecret
  xPublic : XSecret → ByteArr 32
  xDh : XSecret → ByteArr 32 → SharedSecret
  -- ML-DSA-87.
  SigSeed : Type
  drawSig : Coin → SigSeed
  dsaPublic : SigSeed → Bytes
  dsaSign : SigSeed → Bytes → Bytes
  dsaVerify : Bytes → Bytes → Bytes → Bool

/-! ## Sizes (FIPS 203, FIPS 204) -/

def KEM_EK_LEN : Nat := 1568

def KEM_CT_LEN : Nat := 1568

def SIG_VK_LEN : Nat := 2592

def SIG_LEN : Nat := 4627

/-! ## KDF wrappers -/

def INFO_RK : Bytes := utf8 "talkrypt/v1/rk"
def INFO_CK : Bytes := utf8 "talkrypt/v1/ck"
def INFO_MK : Bytes := utf8 "talkrypt/v1/mk"

namespace Primitives
variable (P : Primitives)

def kdfRk (root : P.Key) (ikm : Bytes) : P.Key × P.Key := P.macKdf64 root ikm INFO_RK

/-- Symmetric chain-key step: `(next_chain_key, message_key_seed)`. -/
def kdfCk (chain : P.Key) : P.Key × P.Key :=
  (P.macKdf chain [] (INFO_CK ++ utf8 "/next"),
    P.macKdf chain [] (INFO_CK ++ utf8 "/mk"))

/-- Expand a message-key seed into an AEAD `(key, nonce)` pair. -/
def kdfMk (seed : P.Key) : P.Key × Bytes := P.macKdf44 seed [] INFO_MK

/-! ## AEAD -/

def aeadSeal (key : P.Key) (nonce pt aad : Bytes) : Except CryptoError Bytes :=
  match P.gcmEncrypt key nonce pt aad with
  | some ct => .ok ct
  | none => .error (.malformed "aead seal")

def aeadOpen (key : P.Key) (nonce ct aad : Bytes) : Except CryptoError Bytes :=
  match P.gcmDecrypt key nonce ct aad with
  | some pt => .ok pt
  | none => .error .decryptionFailed

/-- Seal under the key and nonce of a message-key seed. -/
def sealWith (seed : P.Key) (pt aad : Bytes) : Except CryptoError Bytes :=
  P.aeadSeal (P.kdfMk seed).1 (P.kdfMk seed).2 pt aad

def openWith (seed : P.Key) (ct aad : Bytes) : Except CryptoError Bytes :=
  P.aeadOpen (P.kdfMk seed).1 (P.kdfMk seed).2 ct aad

end Primitives

/-! ## Identity keys -/

/-- The shareable public identity (ML-DSA-87 verifying key). -/
structure IdentityPublic where
  sigVk : Bytes
deriving DecidableEq

namespace IdentityPublic
variable (P : Primitives)

/-- Verify an ML-DSA-87 signature made by this identity. -/
def verify (pk : IdentityPublic) (msg sig : Bytes) : Except CryptoError Unit :=
  if pk.sigVk.length ≠ SIG_VK_LEN then .error (.malformed "ml-dsa verifying key length")
  else if sig.length ≠ SIG_LEN then .error (.malformed "ml-dsa signature length")
  else if P.dsaVerify pk.sigVk msg sig then .ok ()
  else .error .badSignature

end IdentityPublic

/-! ## What the code relies on -/

namespace Primitives
variable (P : Primitives)

/-- ML-KEM correctness: keys and ciphertexts have their encoded length, encapsulation to a generated
key succeeds, and decapsulation with the matching secret returns the encapsulated value. -/
structure KemCorrect : Prop where
  generate_length : ∀ c, (P.kemGenerate c).2.length = KEM_EK_LEN
  fromSeed_length : ∀ s, (P.kemFromSeed s).2.length = KEM_EK_LEN
  encapsulate : ∀ ek c, ek.length = KEM_EK_LEN →
    ∃ ct ss, P.kemEncapsulate ek c = some (ct, ss) ∧ ct.length = KEM_CT_LEN
  decapsulate_generate : ∀ k c ct ss, P.kemEncapsulate (P.kemGenerate k).2 c = some (ct, ss) →
    P.kemDecapsulate (P.kemGenerate k).1 ct = some ss
  decapsulate_fromSeed : ∀ s c ct ss, P.kemEncapsulate (P.kemFromSeed s).2 c = some (ct, ss) →
    P.kemDecapsulate (P.kemFromSeed s).1 ct = some ss

def DhCorrect : Prop := ∀ a b, P.xDh a (P.xPublic b) = P.xDh b (P.xPublic a)

def AEAD_TAG_LEN : Nat := 16

/-- AEAD correctness: opening with the same key, nonce and associated data returns the text. -/
def AeadCorrect : Prop :=
  ∀ k n pt aad ct, P.gcmEncrypt k n pt aad = some ct → P.gcmDecrypt k n ct aad = some pt

def AeadTagged : Prop :=
  ∀ k n pt aad ct, P.gcmEncrypt k n pt aad = some ct → ct.length = pt.length + AEAD_TAG_LEN

/-- Opening under a different key, nonce or associated data fails. -/
def AeadIntegrity : Prop := ∀ k n pt aad ct k' n' aad', P.gcmEncrypt k n pt aad = some ct →
  (k', n', aad') ≠ (k, n, aad) → P.gcmDecrypt k' n' ct aad' = none

/-- ML-DSA correctness: sizes, and a signature verifies under the signer's key. -/
structure SigCorrect : Prop where
  public_length : ∀ s, (P.dsaPublic s).length = SIG_VK_LEN
  sign_length : ∀ s m, (P.dsaSign s m).length = SIG_LEN
  verify_sign : ∀ s m, P.dsaVerify (P.dsaPublic s) m (P.dsaSign s m) = true

/-- 32-byte secrets survive the copy to bytes and back. -/
structure KeyBytesCorrect : Prop where
  keyBytes_length : ∀ k, (P.keyBytes k).length = 32
  keyOfBytes_keyBytes : ∀ k, P.keyOfBytes (P.keyBytes k) = some k

end Primitives

section Seeds
variable {P : Primitives} {seed seed' : P.Key} {pt pt' ct aad aad' : Bytes}

theorem Primitives.openWith_sealWith (h : P.AeadCorrect) (hseal : P.sealWith seed pt aad = .ok ct) :
    P.openWith seed ct aad = .ok pt := by
  unfold sealWith aeadSeal at hseal
  split at hseal
  · next hencrypt =>
    cases hseal
    rw [openWith, aeadOpen, h _ _ _ _ _ hencrypt]
  · cases hseal

theorem Primitives.eq_of_openWith (h : P.AeadIntegrity) (hseal : P.sealWith seed pt aad = .ok ct)
    (hopen : P.openWith seed' ct aad' = .ok pt') : P.kdfMk seed' = P.kdfMk seed ∧ aad' = aad := by
  unfold sealWith aeadSeal at hseal
  split at hseal
  · next hencrypt =>
    cases hseal
    by_contra hne
    have hnone := h _ _ _ _ _ (P.kdfMk seed').1 (P.kdfMk seed').2 aad' hencrypt fun heq => by
      simp only [Prod.mk.injEq] at heq
      exact hne ⟨Prod.ext heq.1 heq.2.1, heq.2.2⟩
    rw [openWith, aeadOpen, hnone] at hopen
    cases hopen
  · cases hseal

end Seeds

theorem IdentityPublic.verify_sign {P : Primitives} (h : P.SigCorrect) (s : P.SigSeed) (msg : Bytes) :
    IdentityPublic.verify P ⟨P.dsaPublic s⟩ msg (P.dsaSign s msg) = .ok () := by
  simp [verify, h.public_length, h.sign_length, h.verify_sign]

end Talkrypt
