import Talkrypt.Lib.KeyChain
import Talkrypt.Lib.Run
import Talkrypt.Crypto.Ratchet.Session

/-!
# The PQ-Noise session (`crates/crypto/src/noise.rs`)

One hybrid step at the start of the session gives a root, from which each direction takes one symmetric
chain. The initiator carries the establishment header on every message, and the responder establishes from
whichever comes first. `decrypt` works on a clone and commits only on success. Counters are `u32` and wrap.
-/

namespace Talkrypt
open Ratchet (MAX_SKIP SendCoins)

def I2R : Bytes := utf8 "talkrypt-noise-i2r"
def R2I : Bytes := utf8 "talkrypt-noise-r2i"

structure NoiseSession (P : Primitives) where
  initiator : Bool
  profile : KemProfile
  root0 : P.Key
  peerPrekey : Option RatchetPublic
  selfPrekey : Option (RatchetSecret P)
  ephPublic : Option RatchetPublic
  ephCt : Bytes
  sendChain : Option P.Key
  recvChain : Option P.Key
  sendN : Nat
  recvN : Nat
  skipped : Table Nat P.Key

namespace NoiseSession
variable {P : Primitives}

def newInitiator (root0 : P.Key) (peerPrekey : RatchetPublic) : NoiseSession P where
  initiator := true
  profile := peerPrekey.profile
  root0 := root0
  peerPrekey := some peerPrekey
  selfPrekey := none
  ephPublic := none
  ephCt := []
  sendChain := none
  recvChain := none
  sendN := 0
  recvN := 0
  skipped := ∅

def newResponder (root0 : P.Key) (prekeySecret : RatchetSecret P) : NoiseSession P where
  initiator := false
  profile := prekeySecret.profile
  root0 := root0
  peerPrekey := none
  selfPrekey := some prekeySecret
  ephPublic := none
  ephCt := []
  sendChain := none
  recvChain := none
  sendN := 0
  recvN := 0
  skipped := ∅

def chainsFromRoot (s : NoiseSession P) (sessionRoot : P.Key) : P.Key × P.Key :=
  let i2r := (P.kdfRk sessionRoot I2R).2
  let r2i := (P.kdfRk sessionRoot R2I).2
  if s.initiator then (i2r, r2i) else (r2i, i2r)

def keyed (s : NoiseSession P) (sessionRoot : P.Key) : NoiseSession P :=
  { s with sendChain := some (s.chainsFromRoot sessionRoot).1, recvChain := some (s.chainsFromRoot sessionRoot).2 }

def establishInitiator (s : NoiseSession P) (c : SendCoins P) : Except CryptoError (NoiseSession P) :=
  match s.peerPrekey with
  | none => .error (.malformed "noise: no peer prekey")
  | some peer => do
    let (ephSecret, ephPublic) := RatchetSecret.generate P s.profile c.key
    let (ct, ikm) ← ephSecret.stepTo peer c.enc
    pure { s.keyed (P.kdfRk s.root0 ikm).1 with ephPublic := some ephPublic, ephCt := ct }

def establishResponder (s : NoiseSession P) (ephPublic : RatchetPublic) (ct : Bytes) :
    Except CryptoError (NoiseSession P) :=
  match s.selfPrekey with
  | none => .error (.malformed "noise: no prekey secret")
  | some prekey => do
    let ikm ← prekey.stepFrom ephPublic ct
    pure (s.keyed (P.kdfRk s.root0 ikm).1)

def canSend (s : NoiseSession P) : Bool := s.sendChain.isSome || s.initiator

/-! ## Sending -/

/-- The associated data of message `n`: the establishment header on the initiator's side, and the number. -/
def header (eph : Option (RatchetPublic × Bytes)) (n : Nat) : Bytes :=
  match eph with
  | none => putU8 0 ++ putU32 n
  | some (ephPublic, ephCt) => putU8 1 ++ (putBytes ephPublic.encode ++ (putBytes ephCt ++ putU32 n))

/-- Seal the next message of a session that has its chains. -/
def send (s : NoiseSession P) (plaintext : Bytes) : NoiseSession P × Except Fault Bytes :=
  match s.sendChain with
  | none => (s, .error (.abort "send chain established"))
  | some ck =>
    if s.initiator && s.ephPublic.isNone then
      (s, .error (.abort "called `Option::unwrap()` on a `None` value"))
    else
      let aad := header (if s.initiator then s.ephPublic.map (·, s.ephCt) else none) s.sendN
      match P.sealWith (P.kdfCk ck).2 plaintext aad with
      | .error e => (s, .error (.error e))
      | .ok ciphertext =>
        ({ s with sendChain := some (P.kdfCk ck).1, sendN := (s.sendN + 1) % 2 ^ 32 },
          .ok (putBytes aad ++ putBytes ciphertext))

def encrypt (s : NoiseSession P) (c : SendCoins P) (plaintext : Bytes) : NoiseSession P × Except Fault Bytes :=
  if s.sendChain.isNone then
    if s.initiator then
      match s.establishInitiator c with
      | .error e => (s, .error (.error e))
      | .ok s => s.send plaintext
    else (s, .error (.error (.malformed "noise: responder cannot send before receiving")))
  else s.send plaintext

/-! ## Receiving -/

/-- A responder establishes itself from the first header that it sees. -/
def readEstablishment (s : NoiseSession P) : Reader CryptoError (NoiseSession P) := do
  let pub ← Reader.getBytes
  let ephPublic ← liftM (RatchetPublic.decode s.profile pub)
  let ephCt ← Reader.getBytes
  if s.recvChain.isNone && !s.initiator then liftM (s.establishResponder ephPublic ephCt) else pure s

/-- Read the associated data: the session to go on with, and the message number. -/
def readHeader (s : NoiseSession P) : Reader CryptoError (NoiseSession P × Nat) := do
  let flag ← Reader.getU8
  let s ← (if flag ≠ 0 then s.readEstablishment else pure s)
  let n ← Reader.getU32
  Reader.finish
  pure (s, n)

/-- Open message `n`, with a kept seed or from the chain. -/
def receive (s : NoiseSession P) (n : Nat) (ciphertext aad : Bytes) : Except CryptoError (NoiseSession P × Bytes) :=
  match s.skipped.lookup n with
  | some mkSeed => do
    let pt ← P.openWith mkSeed ciphertext aad
    pure ({ s with skipped := s.skipped.erase n }, pt)
  | none =>
    match s.recvChain with
    | none => .error .decryptionFailed
    | some ck =>
      if n < s.recvN then .error .decryptionFailed
      else if n - s.recvN > MAX_SKIP then .error (.tooManySkipped MAX_SKIP)
      else do
        let (ck, skipped) := KeyChain.skip P.kdfCk (n - s.recvN) ck s.recvN s.skipped
        let pt ← P.openWith (P.kdfCk ck).2 ciphertext aad
        pure ({ s with recvChain := some (P.kdfCk ck).1, recvN := (n + 1) % 2 ^ 32, skipped }, pt)

def decryptInner (s : NoiseSession P) (message : Bytes) : Except CryptoError (NoiseSession P × Bytes) := do
  let (aad, ciphertext) ← Ratchet.Session.readMessage.parse message
  let (s, n) ← s.readHeader.parse aad
  s.receive n ciphertext aad

/-- Decrypt a wire message; hostile input leaves the session as it was. -/
def decrypt (s : NoiseSession P) (message : Bytes) : NoiseSession P × Except CryptoError Bytes :=
  match s.decryptInner message with
  | .ok (s', pt) => (s', .ok pt)
  | .error e => (s, .error e)

/-! ## The receiving side -/

def receiver (s : NoiseSession P) : Option (KeyChain.Receiver P.Key) := s.recvChain.map (⟨·, s.recvN, s.skipped⟩)

def setReceiver (s : NoiseSession P) (r : KeyChain.Receiver P.Key) : NoiseSession P :=
  { s with recvChain := some r.chain, recvN := r.n, skipped := r.skipped }

theorem receive_eq {s : NoiseSession P} {r : KeyChain.Receiver P.Key} (hr : s.receiver = some r) (n : Nat)
    (ct aad : Bytes) : s.receive n ct aad = match r.seedFor P.kdfCk MAX_SKIP n with
      | none => .error (if n < r.n then .decryptionFailed else .tooManySkipped MAX_SKIP)
      | some seed => (P.openWith seed ct aad).map (s.setReceiver (r.used P.kdfCk n), ·) := by
  obtain ⟨ck, hck, rfl⟩ := Option.map_eq_some_iff.mp hr
  unfold receive KeyChain.Receiver.used
  cases hkept : s.skipped.lookup n with
  | some seed =>
    rw [KeyChain.Receiver.seedFor_of_lookup hkept]
    simp only [setReceiver, hck.symm]
    rfl
  | none =>
    rw [KeyChain.Receiver.seedFor_of_lookup_eq_none hkept]
    simp only [hck]
    by_cases hlt : n < s.recvN
    · rw [if_pos hlt, if_pos (.inl hlt), if_pos hlt]
    · rw [if_neg hlt]
      by_cases hgap : n - s.recvN > MAX_SKIP
      · rw [if_pos hgap, if_pos (.inr hgap), if_neg hlt]
      · rw [if_neg hgap, if_neg (not_or.mpr ⟨hlt, hgap⟩), KeyChain.skip_fst, ← KeyChain.chainAt_succ]
        rfl

/-! ## Reading a message -/

/-- The session that a message with this establishment header is opened with. -/
def establish (s : NoiseSession P) : Option (RatchetPublic × Bytes) → Except CryptoError (NoiseSession P)
  | none => .ok s
  | some (ephPublic, ephCt) =>
    if s.recvChain.isNone && !s.initiator then s.establishResponder ephPublic ephCt else .ok s

/-- The establishment header can be read with the profile of the session. -/
def Readable (profile : KemProfile) (eph : Option (RatchetPublic × Bytes)) : Prop :=
  ∀ p ct, eph = some (p, ct) → p.profile = profile ∧ p.kemEk.length = KEM_EK_LEN ∧ ct.length = KEM_CT_LEN

theorem readable_none (profile : KemProfile) : Readable profile none := fun _ _ h => nomatch h

theorem Readable.header_length {profile : KemProfile} {eph : Option (RatchetPublic × Bytes)}
    (h : Readable profile eph) (n : Nat) : (header eph n).length ≤ 3200 := by
  rcases eph with _ | ⟨p, ct⟩
  · simp only [header, putU8, putU32, List.length_append, beBytes_length, List.length_singleton]
    decide
  · obtain ⟨-, hek, hct⟩ := h p ct rfl
    have hp := p.encode_length_le
    rw [hek] at hp
    simp only [header, putU8, putU32, List.length_append, beBytes_length, List.length_singleton, putBytes_length, hct]
    have hfits : 1 + (4 + (40 + KEM_EK_LEN) + (4 + KEM_CT_LEN + 4)) ≤ 3200 := by decide
    omega

theorem readHeader_header (s : NoiseSession P) {eph : Option (RatchetPublic × Bytes)} (heph : Readable s.profile eph)
    {n : Nat} (hn : n < 2 ^ 32) : s.readHeader.parse (header eph n) = (s.establish eph).map (·, n) := by
  have hlast := Reader.getU32_putU32 (ε := CryptoError) hn []
  rw [List.append_nil] at hlast
  rcases eph with _ | ⟨p, ct⟩
  · rw [Reader.parse, readHeader, header, Reader.bind_ok (Reader.getU8_putU8 0 _), if_neg (by simp),
      Reader.bind_ok (Reader.pure_apply s _), Reader.bind_ok hlast, Reader.bind_ok Reader.finish_nil]
    rfl
  · obtain ⟨hprofile, hek, hct⟩ := heph p ct rfl
    have hp := p.encode_length_le
    have hdecode := RatchetPublic.decode_encode (p := p) (by rw [hek]; decide)
    rw [hprofile] at hdecode
    have hread : s.readEstablishment (putBytes p.encode ++ (putBytes ct ++ putU32 n)) =
        (s.establish (some (p, ct))).map (·, putU32 n) := by
      rw [readEstablishment, Reader.bind_ok (Reader.getBytes_putBytes (by rw [hek] at hp; exact hp.trans (by decide)) _),
        hdecode, Reader.bind_ok (Reader.lift_iff.mpr ⟨rfl, rfl⟩),
        Reader.bind_ok (Reader.getBytes_putBytes (by rw [hct]; decide) _), establish]
      split
      · cases s.establishResponder p ct <;> rfl
      · rfl
    rw [Reader.parse, readHeader, header, Reader.bind_ok (Reader.getU8_putU8 1 _), if_pos (by decide)]
    cases hest : s.establish (some (p, ct)) with
    | error e =>
      rw [hest] at hread
      rw [Reader.bind_error hread]
      rfl
    | ok s' =>
      rw [hest] at hread
      rw [Reader.bind_ok hread, Reader.bind_ok hlast, Reader.bind_ok Reader.finish_nil]
      rfl

theorem decryptInner_append (s : NoiseSession P) {eph : Option (RatchetPublic × Bytes)} (heph : Readable s.profile eph)
    {n : Nat} (hn : n < 2 ^ 32) {ct : Bytes} (hct : ct.length ≤ MAX_FRAME) :
    s.decryptInner (putBytes (header eph n) ++ putBytes ct) =
      (s.establish eph).bind fun s' => s'.receive n ct (header eph n) := by
  rw [decryptInner, Ratchet.Session.readMessage_append ((heph.header_length n).trans (by decide)) hct]
  simp only [bind, Except.bind, readHeader_header s heph hn]
  cases s.establish eph <;> rfl

end NoiseSession
end Talkrypt
