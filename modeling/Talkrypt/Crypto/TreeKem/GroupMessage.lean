import Talkrypt.Crypto.Ratchet.Session
import Talkrypt.Crypto.TreeKem.Group

/-!
# Epoch messages (`crates/crypto/src/treekem.rs`)

Group members derive one sending chain per leaf from the epoch secret. A message is sealed under the next
key of the sender's chain and signed with its leaf key; a receiver verifies the signature before it
advances its copy of the chain, and keeps the keys that it skips.
-/

namespace Talkrypt.TreeKem
open Ratchet (MAX_SKIP)

variable {S : Scheme}

structure Messaging (S : Scheme) where
  /-- `kdf_ck`: the next chain key and the message key seed. -/
  kdfCk : S.Secret → S.Secret × S.Secret
  /-- `kdf_mk` and AES-256-GCM: seed, text, associated data. -/
  aeadSeal : S.Secret → Bytes → Bytes → Except CryptoError Bytes
  aeadOpen : S.Secret → Bytes → Bytes → Except CryptoError Bytes

def Messaging.ofPrimitives (P : Primitives) : Messaging (Scheme.ofPrimitives P) where
  kdfCk := P.kdfCk
  aeadSeal seed pt aad := P.aeadSeal (P.kdfMk seed).1 (P.kdfMk seed).2 pt aad
  aeadOpen seed ct aad := P.aeadOpen (P.kdfMk seed).1 (P.kdfMk seed).2 ct aad

/-- Message cryptography without secrecy: a ciphertext is the key seed, the associated data and the text. -/
def Messaging.plain : Messaging Scheme.plain where
  kdfCk (s : UInt8) := (s + 1, s + 64)
  aeadSeal (seed : UInt8) pt aad := .ok (seed :: (aad ++ pt))
  aeadOpen (seed : UInt8) ct aad :=
    if ct.take (aad.length + 1) = seed :: aad then .ok (ct.drop (aad.length + 1)) else .error .decryptionFailed

/-- An ideal AEAD: a sealed text opens to itself only, and is not longer than its ciphertext. -/
structure Messaging.Ideal (M : Messaging S) : Prop where
  opens : ∀ {seed seed' : S.Secret} {pt pt' aad ct : Bytes}, M.aeadSeal seed pt aad = .ok ct →
    M.aeadOpen seed' ct aad = .ok pt' → pt' = pt
  length : ∀ {seed : S.Secret} {pt aad ct : Bytes}, M.aeadSeal seed pt aad = .ok ct → pt.length ≤ ct.length

theorem Messaging.ofPrimitives_ideal {P : Primitives} (hcorrect : P.AeadCorrect) (hintegrity : P.AeadIntegrity)
    (htag : P.AeadTagged) : (Messaging.ofPrimitives P).Ideal where
  opens {seed seed' pt pt' aad ct} hseal hopen := by
    simp only [ofPrimitives, Primitives.aeadSeal, Primitives.aeadOpen] at hseal hopen
    split at hseal
    · next hencrypt =>
      cases hseal
      split at hopen
      · next hdecrypt =>
        cases hopen
        by_cases hkey : (P.kdfMk seed').1 = (P.kdfMk seed).1 ∧ (P.kdfMk seed').2 = (P.kdfMk seed).2
        · rw [hkey.1, hkey.2, hcorrect _ _ _ _ _ hencrypt] at hdecrypt
          exact (Option.some.inj hdecrypt).symm
        · have hnone := hintegrity _ _ _ _ _ (P.kdfMk seed').1 (P.kdfMk seed').2 aad hencrypt fun heq => by
            simp only [Prod.mk.injEq, and_true] at heq
            exact hkey heq
          rw [hnone] at hdecrypt
          cases hdecrypt
      · cases hopen
    · cases hseal
  length {seed pt aad ct} hseal := by
    simp only [ofPrimitives, Primitives.aeadSeal] at hseal
    split at hseal
    · next hencrypt =>
      cases hseal
      rw [htag _ _ _ _ _ hencrypt]
      exact Nat.le_add_right ..
    · cases hseal

theorem Messaging.plain_ideal : Messaging.plain.Ideal where
  opens {seed seed' pt pt' aad ct} hseal hopen := by
    cases hseal
    have hdrop : ((seed : UInt8) :: (aad ++ pt)).drop (aad.length + 1) = pt := List.drop_left
    dsimp only [plain] at hopen
    split at hopen
    · exact (Except.ok.inj hopen).symm.trans hdrop
    · cases hopen
  length {seed pt aad ct} hseal := by
    cases hseal
    have hlen (x : UInt8) : pt.length ≤ (x :: (aad ++ pt)).length := by
      rw [List.length_cons, List.length_append]
      omega
    exact hlen seed

def GROUP_MSG_V1 : UInt8 := 1

def GROUP_MSG_V2 : UInt8 := 2

def SIG_CONTEXT : Bytes := utf8 "talkrypt-treekem-msg-v2"

def msgAad (epoch leaf n : Nat) : Bytes := putU32 epoch ++ putU32 leaf ++ putU32 n

def sigTranscript (epoch leaf n : Nat) (ct : Bytes) : Bytes :=
  putBytes SIG_CONTEXT ++ putU32 epoch ++ putU32 leaf ++ putU32 n ++ putBytes ct

structure GroupMessage where
  epoch : Nat
  leaf : Nat
  n : Nat
  ct : Bytes
  sig : Bytes
deriving DecidableEq

namespace GroupMessage

def encode (m : GroupMessage) : Bytes :=
  putU8 GROUP_MSG_V2 ++ putU32 m.epoch ++ putU32 m.leaf ++ putU32 m.n ++ putBytes m.ct ++ putBytes m.sig

def get : Reader CryptoError GroupMessage := do
  let version ← Reader.getU8
  if version ≠ GROUP_MSG_V2 then throw (.malformed "group message not signed (v2)")
  else
    let epoch ← Reader.getU32
    let leaf ← Reader.getU32
    let n ← Reader.getU32
    let ct ← Reader.getBytes
    let sig ← Reader.getBytes
    Reader.finish
    pure { epoch, leaf, n, ct, sig }

def decode (bytes : Bytes) : Except CryptoError GroupMessage := Reader.parse get bytes

/-- The fields fit their wire types and limits. -/
structure Fits (m : GroupMessage) : Prop where
  epoch : m.epoch < 2 ^ 32
  leaf : m.leaf < 2 ^ 32
  n : m.n < 2 ^ 32
  ct : m.ct.length ≤ MAX_FRAME
  sig : m.sig.length ≤ MAX_FRAME

theorem codec_get : Codec True True get encode Any Fits := by
  refine (Codec.seq (π := fun _ => GROUP_MSG_V2) reads_u8 fun version _ => .ite
    (fun hv => .fail fun _ hP _ => hv hP.2.symm) fun hv => .seq (π := epoch) reads_u32 fun epoch _ =>
    .seq (π := leaf) reads_u32 fun leaf _ => .seq (π := n) reads_u32 fun n _ => .seq (π := ct) reads_bytes fun ct _ =>
    .seq (π := sig) reads_bytes fun sig _ => .last Reader.finish_eq_ok fun m => ?_).conv (fun m _ => ?_) fun m _ => ?_
  · cases m
    simp [not_ne_iff.mp hv, and_assoc]
  · simp [encode]
  · exact ⟨fun ⟨_, hepoch, hleaf, hn, hct, hsig, _⟩ => ⟨hepoch, hleaf, hn, hct, hsig⟩,
      fun h => ⟨trivial, h.epoch, h.leaf, h.n, h.ct, h.sig, trivial⟩⟩

theorem decode_encode {m : GroupMessage} (h : m.Fits) : decode m.encode = .ok m := codec_get.decodes.read h

theorem encode_of_decode {bytes : Bytes} {m : GroupMessage} (h : decode bytes = .ok m) : bytes = m.encode ∧ m.Fits :=
  have ⟨hfits, _, hexact⟩ := codec_get.decodes.accepts h
  ⟨hexact trivial, hfits⟩

def transcript (m : GroupMessage) : Bytes := sigTranscript m.epoch m.leaf m.n m.ct

theorem transcript_inj {m m' : GroupMessage} (hm : m.epoch < 2 ^ 32 ∧ m.leaf < 2 ^ 32 ∧ m.n < 2 ^ 32)
    (hm' : m'.epoch < 2 ^ 32 ∧ m'.leaf < 2 ^ 32 ∧ m'.n < 2 ^ 32) (h : m.transcript = m'.transcript) :
    m.epoch = m'.epoch ∧ m.leaf = m'.leaf ∧ m.n = m'.n ∧ m.ct = m'.ct := by
  simp only [transcript, sigTranscript] at h
  obtain ⟨h, hct⟩ := List.append_inj h (by simp [putU32])
  obtain ⟨h, hn⟩ := List.append_inj h (by simp [putU32])
  obtain ⟨h, hleaf⟩ := List.append_inj h (by simp [putU32])
  obtain ⟨-, hepoch⟩ := List.append_inj h rfl
  refine ⟨putU32_inj hm.1 hm'.1 hepoch, putU32_inj hm.2.1 hm'.2.1 hleaf, putU32_inj hm.2.2 hm'.2.2 hn, ?_⟩
  exact (List.append_inj hct (by simp [putU32])).2

end GroupMessage

/-- An unsigned group message, which any member can make in the name of any leaf. -/
structure UnsignedMessage where
  epoch : Nat
  leaf : Nat
  n : Nat
  ct : Bytes
deriving DecidableEq

namespace UnsignedMessage

def encode (m : UnsignedMessage) : Bytes :=
  putU8 GROUP_MSG_V1 ++ putU32 m.epoch ++ putU32 m.leaf ++ putU32 m.n ++ putBytes m.ct

def get : Reader CryptoError UnsignedMessage := do
  let version ← Reader.getU8
  if version ≠ GROUP_MSG_V1 then throw (.malformed "expected unsigned (v1) group message")
  else
    let epoch ← Reader.getU32
    let leaf ← Reader.getU32
    let n ← Reader.getU32
    let ct ← Reader.getBytes
    Reader.finish
    pure { epoch, leaf, n, ct }

def decode (bytes : Bytes) : Except CryptoError UnsignedMessage := Reader.parse get bytes

theorem codec_get : Codec True True get encode Any
    (fun m => m.epoch < 2 ^ 32 ∧ m.leaf < 2 ^ 32 ∧ m.n < 2 ^ 32 ∧ m.ct.length ≤ MAX_FRAME) := by
  refine (Codec.seq (π := fun _ => GROUP_MSG_V1) reads_u8 fun version _ => .ite
    (fun hv => .fail fun _ hP _ => hv hP.2.symm) fun hv => .seq (π := epoch) reads_u32 fun epoch _ =>
    .seq (π := leaf) reads_u32 fun leaf _ => .seq (π := n) reads_u32 fun n _ => .seq (π := ct) reads_bytes fun ct _ =>
    .last Reader.finish_eq_ok fun m => ?_).conv (fun m _ => ?_) fun m _ => by simp
  · cases m
    simp [not_ne_iff.mp hv, and_assoc]
  · simp [encode]

theorem decode_encode {m : UnsignedMessage} (hepoch : m.epoch < 2 ^ 32) (hleaf : m.leaf < 2 ^ 32)
    (hn : m.n < 2 ^ 32) (hct : m.ct.length ≤ MAX_FRAME) : decode m.encode = .ok m :=
  codec_get.decodes.read ⟨hepoch, hleaf, hn, hct⟩

theorem n_lt_of_decode {bytes : Bytes} {m : UnsignedMessage} (h : decode bytes = .ok m) : m.n < 2 ^ 32 :=
  (codec_get.decodes.accepts h).1.2.2.1

end UnsignedMessage

/-- The claimed leaf of a message, without decrypting it. -/
def senderLeaf (bytes : Bytes) : Option Nat :=
  (Reader.parse (ε := Unit) (do
    let _version ← Reader.getU8
    let _epoch ← Reader.getU32
    Reader.getU32) bytes).toOption

theorem senderLeaf_of_decode {bytes : Bytes} {m : GroupMessage} (h : GroupMessage.decode bytes = .ok m) :
    senderLeaf bytes = some m.leaf := by
  obtain ⟨rfl, hfits⟩ := GroupMessage.encode_of_decode h
  simp only [senderLeaf, Reader.parse, GroupMessage.encode, List.append_assoc]
  rw [Reader.bind_ok (Reader.getU8_putU8 GROUP_MSG_V2 _), Reader.bind_ok (Reader.getU32_putU32 hfits.epoch _),
    Reader.getU32_putU32 hfits.leaf]
  rfl

namespace RecvChain
variable (M : Messaging S)

/-- Keep the key of the next message and move past it. -/
def skipOne (recv : RecvChain S) : RecvChain S :=
  { chain := (M.kdfCk recv.chain).1
    n := recv.n + 1
    skipped := recv.skipped.insert recv.n (M.kdfCk recv.chain).2 }

end RecvChain

namespace Group
variable (M : Messaging S)

/-- The receiving chain of a leaf, started on first use. -/
def recvChain (g : Group S) (leaf : Nat) : RecvChain S :=
  (g.recvs.lookup leaf).getD { chain := S.senderChain g.epochSecret leaf, n := 0, skipped := ∅ }

def setRecv (g : Group S) (leaf : Nat) (recv : RecvChain S) : Group S :=
  { g with recvs := g.recvs.insert leaf recv }

/-- Open a message body, with a kept key or by advancing the chain. A kept key is spent even if the body
does not open; the chain is advanced over skipped messages even then. -/
def decryptBody (g : Group S) (epoch leaf n : Nat) (ct : Bytes) : Group S × Except CryptoError Bytes :=
  let recv := g.recvChain leaf
  match recv.skipped.lookup n with
  | some seed =>
    (g.setRecv leaf { recv with skipped := recv.skipped.erase n }, M.aeadOpen seed ct (msgAad epoch leaf n))
  | none =>
    if n < recv.n then (g.setRecv leaf recv, .error .decryptionFailed)
    else if n - recv.n > MAX_SKIP then (g.setRecv leaf recv, .error (.tooManySkipped MAX_SKIP))
    else
      let recv := (RecvChain.skipOne M)^[n - recv.n] recv
      match M.aeadOpen (M.kdfCk recv.chain).2 ct (msgAad epoch leaf n) with
      | .error e => (g.setRecv leaf recv, .error e)
      | .ok pt =>
        -- the counter is a `u32`
        (g.setRecv leaf { recv with chain := (M.kdfCk recv.chain).1, n := (recv.n + 1) % 2 ^ 32 }, .ok pt)

def verifyMessage (g : Group S) (m : GroupMessage) : Bool :=
  match g.leafSigKeys.lookup m.leaf with
  | none => false
  | some vk => (S.verify vk (sigTranscript m.epoch m.leaf m.n m.ct) m.sig).isOk

def unpad (g : Group S) (body : Bytes) : Except CryptoError Bytes :=
  if g.padBucket > 0 then
    match unpadBucket body with
    | none => .error .decryptionFailed
    | some pt => .ok pt
  else .ok body

/-- Open a message that carries the signature of its leaf. -/
def decryptVerified (g : Group S) (message : Bytes) : Group S × Except CryptoError Bytes :=
  match GroupMessage.decode message with
  | .error e => (g, .error e)
  | .ok m =>
    if !g.verifyMessage m then (g, .error .badSignature)
    else if m.epoch ≠ g.epoch then (g, .error .decryptionFailed)
    else
      match g.decryptBody M m.epoch m.leaf m.n m.ct with
      | (g, .error e) => (g, .error e)
      | (g, .ok body) => (g, g.unpad body)

def decrypt (g : Group S) (message : Bytes) : Group S × Except CryptoError Bytes :=
  match UnsignedMessage.decode message with
  | .error e => (g, .error e)
  | .ok m =>
    if m.epoch ≠ g.epoch then (g, .error .decryptionFailed)
    else g.decryptBody M m.epoch m.leaf m.n m.ct

/-- A frame for one of the two decryption functions. -/
inductive Incoming where
  | unsigned (message : Bytes)
  | signed (message : Bytes)
deriving DecidableEq

def receive (g : Group S) : Incoming → Group S × Except CryptoError Bytes
  | .unsigned message => g.decrypt M message
  | .signed message => g.decryptVerified M message

namespace Incoming

/-- The message whose body is opened: it is well formed, of this epoch, and signed where it has to be. -/
def body (g : Group S) : Incoming → Option UnsignedMessage
  | .unsigned message =>
    match UnsignedMessage.decode message with
    | .error _ => none
    | .ok m => if m.epoch = g.epoch then some m else none
  | .signed message =>
    match GroupMessage.decode message with
    | .error _ => none
    | .ok m => if g.verifyMessage m && m.epoch = g.epoch then some ⟨m.epoch, m.leaf, m.n, m.ct⟩ else none

def text (g : Group S) : Incoming → Bytes → Except CryptoError Bytes
  | .unsigned _ => .ok
  | .signed _ => g.unpad

end Incoming

/-- Seal an unsigned message with the next key of our sending chain. -/
def encrypt (g : Group S) (plaintext : Bytes) : Group S × Except CryptoError Bytes :=
  match M.aeadSeal (M.kdfCk g.sendChain).2 plaintext (msgAad g.epoch g.me g.sendN) with
  | .error e => (g, .error e)
  | .ok ct =>
    let m : UnsignedMessage := { epoch := g.epoch, leaf := g.me, n := g.sendN, ct }
    ({ g with sendChain := (M.kdfCk g.sendChain).1, sendN := (g.sendN + 1) % 2 ^ 32 }, .ok m.encode)

def padded (g : Group S) (plaintext : Bytes) : Bytes :=
  if g.padBucket > 0 then padToBucket plaintext g.padBucket else plaintext

/-- Seal and sign a message with the next key of our sending chain. -/
def encryptSigned (g : Group S) (plaintext : Bytes) : Group S × Except CryptoError Bytes :=
  match g.mySig with
  | none => (g, .error (.malformed "group has no leaf signing key"))
  | some mySig =>
    match M.aeadSeal (M.kdfCk g.sendChain).2 (g.padded plaintext) (msgAad g.epoch g.me g.sendN) with
    | .error e => (g, .error e)
    | .ok ct =>
      let m : GroupMessage :=
        { epoch := g.epoch, leaf := g.me, n := g.sendN, ct
          sig := S.sign mySig (sigTranscript g.epoch g.me g.sendN ct) }
      -- the counter is a `u32`
      ({ g with sendChain := (M.kdfCk g.sendChain).1, sendN := (g.sendN + 1) % 2 ^ 32 }, .ok m.encode)

theorem Incoming.n_lt_of_body {g : Group S} {f : Incoming} {m : UnsignedMessage} (h : f.body g = some m) :
    m.n < 2 ^ 32 := by
  cases f with
  | unsigned message =>
    simp only [body] at h
    split at h
    · cases h
    · next hm =>
      split at h
      · cases h
        exact UnsignedMessage.n_lt_of_decode hm
      · cases h
  | signed message =>
    simp only [body] at h
    split at h
    · cases h
    · next hm =>
      split at h
      · cases h
        exact (GroupMessage.encode_of_decode hm).2.n
      · cases h

theorem receive_of_body_eq_none {M : Messaging S} {g : Group S} {f : Incoming} (h : f.body g = none) :
    (g.receive M f).1 = g ∧ ∃ e, (g.receive M f).2 = .error e := by
  cases f with
  | unsigned message =>
    simp only [Incoming.body, receive, decrypt] at h ⊢
    split at h
    · exact ⟨rfl, _, rfl⟩
    · split at h
      · cases h
      · next hepoch =>
        rw [if_pos hepoch]
        exact ⟨rfl, _, rfl⟩
  | signed message =>
    simp only [Incoming.body, receive, decryptVerified] at h ⊢
    split at h
    · exact ⟨rfl, _, rfl⟩
    · next m hm =>
      cases hverify : g.verifyMessage m with
      | false => exact ⟨rfl, _, rfl⟩
      | true =>
        rw [hverify, Bool.true_and] at h
        split at h
        · cases h
        · next hepoch =>
          rw [if_neg (by simp), if_pos (by simpa using hepoch)]
          exact ⟨rfl, _, rfl⟩

theorem receive_of_body {M : Messaging S} {g : Group S} {f : Incoming} {m : UnsignedMessage} (h : f.body g = some m) :
    g.receive M f = ((g.decryptBody M m.epoch m.leaf m.n m.ct).1,
      (g.decryptBody M m.epoch m.leaf m.n m.ct).2.bind (f.text (g.decryptBody M m.epoch m.leaf m.n m.ct).1)) := by
  cases f with
  | unsigned message =>
    simp only [Incoming.body, receive, decrypt] at h ⊢
    split at h
    · cases h
    · split at h
      · next hepoch =>
        cases h
        rw [if_neg (not_not.mpr hepoch)]
        refine Prod.ext rfl ?_
        cases (g.decryptBody M m.epoch m.leaf m.n m.ct).2 <;> rfl
      · cases h
  | signed message =>
    simp only [Incoming.body, receive, decryptVerified] at h ⊢
    split at h
    · cases h
    · split at h
      · next hok =>
        cases h
        simp only [Bool.and_eq_true, decide_eq_true_eq] at hok
        rw [if_neg (by simp [hok.1]), if_neg (not_not.mpr hok.2)]
        dsimp only
        split
        · next hbody => rw [hbody]; rfl
        · next hbody => rw [hbody]; rfl
      · cases h

end Group
end Talkrypt.TreeKem
