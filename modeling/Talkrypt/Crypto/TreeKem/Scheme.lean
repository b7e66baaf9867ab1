import Talkrypt.Crypto.Hybrid

/-!
# What TreeKEM uses of the cryptography

The tree only derives secrets from secrets, seals a secret to a node key, opens such a blob with the
node's secret, and signs and verifies. `Scheme` is that interface; `Lawful` is what a member needs of
it to follow a commit. `ofPrimitives` is the scheme of the code (`derive_parent_secret`,
`derive_commit_secret`, `sender_chain`, `seal_secret` and `open_secret` of
`crates/crypto/src/treekem.rs`), lawful when ML-KEM, AES-GCM and ML-DSA are (`ofPrimitives_lawful`).
-/

namespace Talkrypt.TreeKem

structure Scheme where
  /-- `[u8; 32]`: node secrets, epoch secrets and chain keys. -/
  Secret : Type
  zero : Secret
  Public : Type
  encode : Public → Bytes
  decode : KemProfile → Bytes → Except CryptoError Public
  Blob : Type
  blobBytes : Blob → Bytes
  Coin : Type
  deriveParentSecret : Secret → Secret
  deriveCommitSecret : Secret → Secret
  senderChain : Secret → Nat → Secret
  derivePublic : KemProfile → Secret → Public
  sealSecret : Public → Secret → Coin → Except CryptoError Blob
  /-- Open a blob with the key pair derived from a node secret. -/
  openSecret : KemProfile → Secret → Blob → Except CryptoError Secret
  -- Leaf signature keys. A key pair is its seed (`export_secret`, `from_secret_bytes`).
  SigSeed : Type
  sigVkLen : Nat
  sigPublic : SigSeed → IdentityPublic
  sign : SigSeed → Bytes → Bytes
  verify : IdentityPublic → Bytes → Bytes → Except CryptoError Unit

namespace Scheme

def SigCorrect (S : Scheme) : Prop := ∀ k m, S.verify (S.sigPublic k) m (S.sign k m) = .ok ()

/-- Opening with the matching secret returns what was sealed, signatures verify, and keys and
signatures survive the wire. -/
structure Lawful (S : Scheme) : Prop where
  open_seal : ∀ profile s x c b,
    S.sealSecret (S.derivePublic profile s) x c = .ok b → S.openSecret profile s b = .ok x
  decode_encode : ∀ profile s,
    S.decode profile (S.encode (S.derivePublic profile s)) = .ok (S.derivePublic profile s)
  encode_length : ∀ profile s, (S.encode (S.derivePublic profile s)).length ≤ MAX_FRAME
  sigPublic_length : ∀ k, (S.sigPublic k).sigVk.length = S.sigVkLen
  sigVkLen_le : S.sigVkLen ≤ MAX_FRAME
  sign_length : ∀ k m, (S.sign k m).length ≤ MAX_FRAME
  verify_sign : S.SigCorrect

def Seals (S : Scheme) (pk : S.Public) : Prop := ∀ x c, ∃ b, S.sealSecret pk x c = .ok b

end Scheme

/-! ## The scheme of the code -/

namespace Scheme
variable (P : Primitives)

def PARENT_LABEL : Bytes := utf8 "talkrypt-treekem-parent"
def COMMIT_LABEL : Bytes := utf8 "talkrypt-treekem-commit"
def SENDER_LABEL : Bytes := utf8 "talkrypt-treekem-sender"
def SEAL_AAD : Bytes := utf8 "tk-treekem"

def expand (secret : P.Key) (label : Bytes) : P.Key := P.macKdf secret [] label

def sharedKey (ss : SharedSecret) : P.Key := (P.keyOfBytes ss.1).getD P.zeroKey

def sealSecretWith (pubk : RatchetPublic) (secret : P.Key) (c : P.Coin) : Except CryptoError Bytes := do
  let (kemCt, ss) ← pubk.encapsulate P c
  let (key, nonce) := P.kdfMk (sharedKey P ss)
  let aeadCt ← P.aeadSeal key nonce (P.keyBytes secret) SEAL_AAD
  pure (putBytes kemCt ++ putBytes aeadCt)

def readBlob : Reader CryptoError (Bytes × Bytes) := do
  let kemCt ← Reader.getBytes
  let aeadCt ← Reader.getBytes
  Reader.finish
  pure (kemCt, aeadCt)

def openSecretWith (rsecret : RatchetSecret P) (blob : Bytes) : Except CryptoError P.Key := do
  let (kemCt, aeadCt) ← readBlob.parse blob
  let ss ← rsecret.decapsulate kemCt
  let (key, nonce) := P.kdfMk (sharedKey P ss)
  let pt ← P.aeadOpen key nonce aeadCt SEAL_AAD
  match P.keyOfBytes pt with
  | some out => pure out
  | none => throw (.malformed "treekem path secret length")

def ofPrimitives : Scheme where
  Secret := P.Key
  zero := P.zeroKey
  Public := RatchetPublic
  encode := RatchetPublic.encode
  decode := RatchetPublic.decode
  Blob := Bytes
  blobBytes := id
  Coin := P.Coin
  deriveParentSecret s := expand P s PARENT_LABEL
  deriveCommitSecret s := expand P s COMMIT_LABEL
  senderChain s leaf := P.macKdf s (beBytes 4 leaf) SENDER_LABEL
  derivePublic profile s := (RatchetSecret.deriveDeterministic P profile s).2
  sealSecret := sealSecretWith P
  openSecret profile s := openSecretWith P (RatchetSecret.deriveDeterministic P profile s).1
  SigSeed := P.SigSeed
  sigVkLen := SIG_VK_LEN
  sigPublic s := ⟨P.dsaPublic s⟩
  sign := P.dsaSign
  verify := IdentityPublic.verify P

variable {P}

theorem readBlob_append {a b : Bytes} (ha : a.length ≤ MAX_FRAME) (hb : b.length ≤ MAX_FRAME) :
    readBlob.parse (putBytes a ++ putBytes b) = .ok (a, b) :=
  decodes_pair.read (a := (a, b)) ⟨ha, hb⟩

private theorem sealSecretWith_eq_ok {pubk : RatchetPublic} {secret : P.Key} {c : P.Coin} {blob : Bytes}
    (h : sealSecretWith P pubk secret c = .ok blob) :
    ∃ kemCt ss aeadCt, P.kemEncapsulate pubk.kemEk c = some (kemCt, ss) ∧
      P.gcmEncrypt (P.kdfMk (sharedKey P ss)).1 (P.kdfMk (sharedKey P ss)).2 (P.keyBytes secret)
        SEAL_AAD = some aeadCt ∧
      blob = putBytes kemCt ++ putBytes aeadCt ∧ pubk.kemEk.length = KEM_EK_LEN := by
  unfold sealSecretWith RatchetPublic.encapsulate at h
  by_cases hlen : pubk.kemEk.length = KEM_EK_LEN
  · rw [if_neg (by simpa using hlen)] at h
    cases henc : P.kemEncapsulate pubk.kemEk c with
    | none => simp [henc, bind, Except.bind] at h
    | some r =>
      obtain ⟨kemCt, ss⟩ := r
      simp only [henc, bind, Except.bind, Primitives.aeadSeal] at h
      cases hseal : P.gcmEncrypt (P.kdfMk (sharedKey P ss)).1 (P.kdfMk (sharedKey P ss)).2
          (P.keyBytes secret) SEAL_AAD with
      | none => simp [hseal] at h
      | some aeadCt =>
        simp only [hseal, pure, Except.pure, Except.ok.injEq] at h
        exact ⟨kemCt, ss, aeadCt, rfl, hseal, h.symm, hlen⟩
  · rw [if_pos (by simpa using hlen)] at h
    simp [bind, Except.bind] at h

private theorem open_sealSecretWith (hkem : P.KemCorrect) (haead : P.AeadCorrect)
    (htag : P.AeadTagged) (hkey : P.KeyBytesCorrect) {profile : KemProfile} {s x : P.Key} {c : P.Coin} {blob : Bytes}
    (h : sealSecretWith P (RatchetSecret.deriveDeterministic P profile s).2 x c = .ok blob) :
    openSecretWith P (RatchetSecret.deriveDeterministic P profile s).1 blob = .ok x := by
  obtain ⟨kemCt, ss, aeadCt, henc, hseal, rfl, hlen⟩ := sealSecretWith_eq_ok h
  obtain ⟨ct', ss', henc', hct⟩ := hkem.encapsulate _ c hlen
  rw [henc, Option.some.injEq, Prod.mk.injEq] at henc'
  have hct : kemCt.length = KEM_CT_LEN := henc'.1 ▸ hct
  have hdec : (RatchetSecret.deriveDeterministic P profile s).1.decapsulate kemCt = .ok ss := by
    have := hkem.decapsulate_fromSeed _ _ _ _ henc
    simp [RatchetSecret.decapsulate, hct, RatchetSecret.deriveDeterministic, this]
  have haeadLen : aeadCt.length ≤ MAX_FRAME := by
    rw [htag _ _ _ _ _ hseal, hkey.keyBytes_length]
    decide
  have hread := readBlob_append (a := kemCt) (b := aeadCt) (by rw [hct]; decide) haeadLen
  simp only [openSecretWith, hread, hdec, bind, Except.bind, Primitives.aeadOpen,
    haead _ _ _ _ _ hseal, hkey.keyOfBytes_keyBytes, pure, Except.pure]

private theorem derive_kemEk_length (hkem : P.KemCorrect) (profile : KemProfile) (s : P.Key) :
    (RatchetSecret.deriveDeterministic P profile s).2.kemEk.length = KEM_EK_LEN := by
  rw [RatchetSecret.deriveDeterministic_kemEk, hkem.fromSeed_length]

theorem ofPrimitives_lawful (hkem : P.KemCorrect) (haead : P.AeadCorrect) (htag : P.AeadTagged)
    (hsig : P.SigCorrect) (hkey : P.KeyBytesCorrect) : (ofPrimitives P).Lawful where
  open_seal _ _ _ _ _ h := open_sealSecretWith hkem haead htag hkey h
  decode_encode profile s :=
    RatchetPublic.decode_encode ((derive_kemEk_length hkem profile s).le.trans (by decide))
  encode_length profile s :=
    (RatchetPublic.encode_length_le _).trans
      ((Nat.add_le_add_left (derive_kemEk_length hkem profile s).le 40).trans (by decide))
  sigPublic_length := hsig.public_length
  sigVkLen_le := show SIG_VK_LEN ≤ MAX_FRAME by decide
  sign_length k m := (hsig.sign_length k m).le.trans (by decide)
  verify_sign := IdentityPublic.verify_sign hsig

/-! ## A scheme to run -/

/-- A lawful scheme without secrecy: keys are their secrets and signatures are the key. -/
def plain : Scheme where
  Secret := UInt8
  zero := 0
  Public := UInt8
  encode p := [p]
  decode _ bytes := match bytes with
    | [p] => .ok p
    | _ => .error (.malformed "ml-kem encapsulation key length")
  Blob := UInt8 × UInt8
  blobBytes b := [b.1, b.2]
  Coin := Unit
  deriveParentSecret s := s + 1
  deriveCommitSecret s := s + 128
  senderChain s leaf := s + UInt8.ofNat leaf
  derivePublic _ s := s
  sealSecret pk x _ := .ok (pk, x)
  openSecret _ s b := if b.1 = s then .ok b.2 else .error .decryptionFailed
  SigSeed := UInt8
  sigVkLen := 1
  sigPublic k := ⟨[k]⟩
  sign k _ := [k]
  verify pk _ sig := if pk.sigVk = sig then .ok () else .error .badSignature

instance : DecidableEq plain.Secret := inferInstanceAs (DecidableEq UInt8)

theorem plain_lawful : plain.Lawful where
  open_seal _ s x _ b h := by
    cases h
    exact if_pos rfl
  decode_encode _ _ := rfl
  encode_length _ _ := show 1 ≤ MAX_FRAME by decide
  sigPublic_length _ := rfl
  sigVkLen_le := show 1 ≤ MAX_FRAME by decide
  sign_length _ _ := show 1 ≤ MAX_FRAME by decide
  verify_sign _ _ := if_pos rfl

/-- Signatures as an ideal functionality: only what the log says a key signed verifies under it. -/
def logged (S : Scheme) (log : List (IdentityPublic × Bytes)) : Scheme :=
  { S with verify := fun pk m sig => if (pk, m) ∈ log then S.verify pk m sig else .error .badSignature }

theorem logged_verify_of_mem {S : Scheme} {log : List (IdentityPublic × Bytes)} {pk : IdentityPublic} {m : Bytes}
    (hmem : (pk, m) ∈ log) (sig : Bytes) : (S.logged log).verify pk m sig = S.verify pk m sig :=
  if_pos hmem

theorem mem_of_logged_verify {S : Scheme} {log : List (IdentityPublic × Bytes)} {pk : IdentityPublic}
    {m sig : Bytes} (h : (S.logged log).verify pk m sig = .ok ()) : (pk, m) ∈ log := by
  by_contra hmem
  have hrefused : (S.logged log).verify pk m sig = .error .badSignature := if_neg hmem
  rw [hrefused] at h
  cases h

end Scheme
end Talkrypt.TreeKem
