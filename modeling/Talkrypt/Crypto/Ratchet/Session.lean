import Talkrypt.Lib.Except
import Talkrypt.Lib.Table
import Talkrypt.Crypto.Hybrid

/-!
# The Double Ratchet session (`crates/crypto/src/ratchet.rs`)

One end of a session, and what `encrypt` and `decrypt` do to it. `decrypt` works on a clone and commits
only on success, so its intermediate steps are plain `Except` functions. Counters are `u32` and wrap.
-/

namespace Talkrypt.Ratchet

/-- Maximum number of skipped message keys retained (per session). -/
def MAX_SKIP : Nat := 1000

/-- Per-message header, authenticated as AEAD associated data. -/
structure Header where
  ratchetPub : RatchetPublic
  /-- ML-KEM ciphertext encapsulated to the receiver's current ratchet key. -/
  ct : Bytes
  /-- Number of messages in the sender's previous sending chain. -/
  pn : Nat
  /-- Message number within the sender's current sending chain. -/
  n : Nat

namespace Header

def encode (h : Header) : Bytes :=
  putBytes h.ratchetPub.encode ++ (putBytes h.ct ++ (putU32 h.pn ++ putU32 h.n))

def decode (profile : KemProfile) : Bytes → Except CryptoError Header := Reader.parse do
  let pub ← Reader.getBytes
  let ratchetPub ← liftM (RatchetPublic.decode profile pub)
  let ct ← Reader.getBytes
  let pn ← Reader.getU32
  let n ← Reader.getU32
  Reader.finish
  pure ⟨ratchetPub, ct, pn, n⟩

theorem decode_encode {h : Header} (hek : h.ratchetPub.kemEk.length = KEM_EK_LEN)
    (hct : h.ct.length ≤ KEM_CT_LEN) (hpn : h.pn < 2 ^ 32) (hn : h.n < 2 ^ 32) :
    decode h.ratchetPub.profile h.encode = .ok h := by
  have hpub : h.ratchetPub.encode.length ≤ MAX_FRAME :=
    (RatchetPublic.encode_length_le _).trans ((Nat.add_le_add_left hek.le 40).trans (by decide))
  have hct' : h.ct.length ≤ MAX_FRAME := hct.trans (by decide)
  have hread : ∀ rest, (liftM (RatchetPublic.decode h.ratchetPub.profile h.ratchetPub.encode) :
      Reader CryptoError RatchetPublic) rest = .ok (h.ratchetPub, rest) := by
    intro rest
    rw [RatchetPublic.decode_encode (hek.le.trans (by decide))]
    rfl
  have hlast := Reader.getU32_putU32 (ε := CryptoError) hn []
  rw [List.append_nil] at hlast
  unfold decode encode Reader.parse
  rw [Reader.bind_ok (Reader.getBytes_putBytes hpub _), Reader.bind_ok (hread _),
    Reader.bind_ok (Reader.getBytes_putBytes hct' _), Reader.bind_ok (Reader.getU32_putU32 hpn _),
    Reader.bind_ok hlast, Reader.bind_ok Reader.finish_nil]
  rfl

theorem encode_length_le {h : Header} (hek : h.ratchetPub.kemEk.length = KEM_EK_LEN)
    (hct : h.ct.length ≤ KEM_CT_LEN) : h.encode.length ≤ MAX_FRAME := by
  have hpub := RatchetPublic.encode_length_le h.ratchetPub
  simp only [encode, List.length_append, putBytes_length, putU32, beBytes_length]
  unfold MAX_FRAME
  unfold KEM_EK_LEN at hek
  unfold KEM_CT_LEN at hct
  omega

end Header

variable {P : Primitives}

structure Session (P : Primitives) where
  profile : KemProfile
  root : P.Key
  selfRatchet : Option (RatchetSecret P)
  selfRatchetPub : Option RatchetPublic
  selfSendCt : Bytes
  sendCk : Option P.Key
  sendN : Nat
  prevSendN : Nat
  peerRatchet : Option RatchetPublic
  recvCk : Option P.Key
  recvN : Nat
  needSendRatchet : Bool
  /-- Skipped message-key seeds, keyed by (sender ratchet pub bytes, n). -/
  skipped : Table (Bytes × Nat) P.Key

structure SendCoins (P : Primitives) where
  key : KeyCoins P
  enc : P.Coin

namespace Session

/-- Initiator session from the initial shared secret and the responder's prekey. -/
def initiator (root₀ : P.Key) (peerPrekey : RatchetPublic) : Session P where
  profile := peerPrekey.profile
  root := root₀
  selfRatchet := none
  selfRatchetPub := none
  selfSendCt := []
  sendCk := none
  sendN := 0
  prevSendN := 0
  peerRatchet := some peerPrekey
  recvCk := none
  recvN := 0
  needSendRatchet := true
  skipped := ∅

/-- Responder session, holding the prekey whose public was advertised. -/
def responder (root₀ : P.Key) (prekeySecret : RatchetSecret P) (prekeyPublic : RatchetPublic) :
    Session P where
  profile := prekeySecret.profile
  root := root₀
  selfRatchet := some prekeySecret
  selfRatchetPub := some prekeyPublic
  selfSendCt := []
  sendCk := none
  sendN := 0
  prevSendN := 0
  peerRatchet := none
  recvCk := none
  recvN := 0
  needSendRatchet := false
  skipped := ∅

/-! ## Sending -/

/-- Sending-side asymmetric step: new ratchet key, fresh root and sending chain. -/
def ratchetSend (s : Session P) (c : SendCoins P) : Except CryptoError (Session P) :=
  match s.peerRatchet with
  | none => .error (.malformed "no peer ratchet key")
  | some peer => do
    let (newSecret, newPublic) := RatchetSecret.generate P s.profile c.key
    let (ct, ikm) ← newSecret.stepTo peer c.enc
    let (root, ck) := P.kdfRk s.root ikm
    pure { s with
      root, prevSendN := s.sendN, sendN := 0, sendCk := some ck, selfRatchet := some newSecret
      selfRatchetPub := some newPublic, selfSendCt := ct, needSendRatchet := false }

def send (s : Session P) (plaintext : Bytes) : Session P × Except Fault Bytes :=
  match s.sendCk with
  | none => (s, .error (.abort "send chain set after ratchet_send"))
  | some ck =>
    match s.selfRatchetPub with
    | none => (s, .error (.abort "self ratchet pub set"))
    | some ratchetPub =>
      let (nextCk, mkSeed) := P.kdfCk ck
      let (key, nonce) := P.kdfMk mkSeed
      let aad := Header.encode ⟨ratchetPub, s.selfSendCt, s.prevSendN, s.sendN⟩
      match P.aeadSeal key nonce plaintext aad with
      | .error e => (s, .error (.error e))
      | .ok ciphertext =>
        ({ s with sendCk := some nextCk, sendN := (s.sendN + 1) % 2 ^ 32 },
          .ok (putBytes aad ++ putBytes ciphertext))

def encrypt (s : Session P) (c : SendCoins P) (plaintext : Bytes) : Session P × Except Fault Bytes :=
  if s.needSendRatchet || s.sendCk.isNone then
    match s.ratchetSend c with
    | .error e => (s, .error (.error e))
    | .ok s => s.send plaintext
  else s.send plaintext

/-! ## Receiving -/

/-- Receiving-side asymmetric step from a peer header. -/
def ratchetRecv (s : Session P) (h : Header) : Except CryptoError (Session P) :=
  match s.selfRatchet with
  | none => .error (.malformed "no self ratchet key")
  | some selfR => do
    let ikm ← selfR.stepFrom h.ratchetPub h.ct
    let (root, ck) := P.kdfRk s.root ikm
    pure { s with
      root, peerRatchet := some h.ratchetPub, recvCk := some ck, recvN := 0, needSendRatchet := true }

/-- The loop of `skip_recv`: cache the seeds of `k` messages from number `n` on. -/
def skipLoop (P : Primitives) (chainId : Bytes) : Nat → P.Key → Nat → Table (Bytes × Nat) P.Key →
    P.Key × Table (Bytes × Nat) P.Key
  | 0, ck, _, skipped => (ck, skipped)
  | k + 1, ck, n, skipped =>
    skipLoop P chainId k (P.kdfCk ck).1 (n + 1) (skipped.insert (chainId, n) (P.kdfCk ck).2)

/-- Advance the receiving chain to `upTo`, caching skipped message keys. -/
def skipRecv (s : Session P) (upTo : Nat) : Except CryptoError (Session P) :=
  match s.recvCk with
  | none => .ok s
  | some ck =>
    if upTo ≤ s.recvN then .ok s
    else if s.skipped.entries.length + (upTo - s.recvN) > MAX_SKIP then .error (.tooManySkipped MAX_SKIP)
    else
      let chainId := (s.peerRatchet.map RatchetPublic.encode).getD []
      let (ck, skipped) := skipLoop P chainId (upTo - s.recvN) ck s.recvN s.skipped
      .ok { s with recvCk := some ck, recvN := upTo, skipped }

/-- Open with a skipped key for this exact message, which is used up. -/
def trySkipped (s : Session P) (h : Header) (ct aad : Bytes) :
    Except CryptoError (Option (Session P × Bytes)) :=
  match s.skipped.lookup (h.ratchetPub.encode, h.n) with
  | none => .ok none
  | some mkSeed => do
    let (key, nonce) := P.kdfMk mkSeed
    let pt ← P.aeadOpen key nonce ct aad
    pure (some ({ s with skipped := s.skipped.erase (h.ratchetPub.encode, h.n) }, pt))

def openNext (s : Session P) (ct aad : Bytes) : Except CryptoError (Session P × Bytes) :=
  match s.recvCk with
  | none => .error .decryptionFailed
  | some ck => do
    let (nextCk, mkSeed) := P.kdfCk ck
    let (key, nonce) := P.kdfMk mkSeed
    let pt ← P.aeadOpen key nonce ct aad
    pure ({ s with recvCk := some nextCk, recvN := (s.recvN + 1) % 2 ^ 32 }, pt)

/-- A new sending ratchet of the peer: skip the tail of the old chain, then step. -/
def enterChain (s : Session P) (h : Header) : Except CryptoError (Session P) :=
  if s.peerRatchet = some h.ratchetPub then .ok s
  else do
    let s ← s.skipRecv h.pn
    s.ratchetRecv h

def receive (s : Session P) (h : Header) (ct aad : Bytes) : Except CryptoError (Session P × Bytes) := do
  match ← s.trySkipped h ct aad with
  | some r => pure r
  | none =>
    let s ← s.enterChain h
    let s ← s.skipRecv h.n
    s.openNext ct aad

def readMessage : Reader CryptoError (Bytes × Bytes) := do
  let aad ← Reader.getBytes
  let ciphertext ← Reader.getBytes
  Reader.finish
  pure (aad, ciphertext)

def decryptInner (s : Session P) (message : Bytes) : Except CryptoError (Session P × Bytes) := do
  let (aad, ciphertext) ← readMessage.parse message
  let header ← Header.decode s.profile aad
  s.receive header ciphertext aad

/-- Decrypt a wire message; hostile input leaves the session as it was. -/
def decrypt (s : Session P) (message : Bytes) : Session P × Except CryptoError Bytes :=
  match s.decryptInner message with
  | .ok (s', pt) => (s', .ok pt)
  | .error e => (s, .error e)

/-! ## Reading a message -/

theorem readMessage_append {aad ct : Bytes} (haad : aad.length ≤ MAX_FRAME) (hct : ct.length ≤ MAX_FRAME) :
    readMessage.parse (putBytes aad ++ putBytes ct) = .ok (aad, ct) := by
  have hct' := Reader.getBytes_putBytes (ε := CryptoError) hct []
  rw [List.append_nil] at hct'
  rw [Reader.parse, readMessage, Reader.bind_ok (Reader.getBytes_putBytes haad _), Reader.bind_ok hct',
    Reader.bind_ok Reader.finish_nil]
  rfl

theorem readMessage_oversized {aad ct : Bytes} (haad : aad.length ≤ MAX_FRAME) (hct : MAX_FRAME < ct.length)
    (hlt : ct.length < 2 ^ 32) :
    readMessage.parse (putBytes aad ++ putBytes ct) = .error (.wire (.frameTooLarge ct.length MAX_FRAME)) := by
  have hct' := Reader.getBytes_putBytes_of_gt (ε := CryptoError) hct hlt []
  rw [List.append_nil] at hct'
  rw [Reader.parse, readMessage, Reader.bind_ok (Reader.getBytes_putBytes haad _), Reader.bind_error hct']
  rfl

theorem decrypt_oversized (s : Session P) {aad ct : Bytes} (haad : aad.length ≤ MAX_FRAME)
    (hct : MAX_FRAME < ct.length) (hlt : ct.length < 2 ^ 32) :
    s.decrypt (putBytes aad ++ putBytes ct) = (s, .error (.wire (.frameTooLarge ct.length MAX_FRAME))) := by
  simp only [decrypt, decryptInner, readMessage_oversized haad hct hlt, bind, Except.bind]

/-! ## The keys a session keeps -/

inductive Call (P : Primitives) where
  | encrypt (c : SendCoins P) (plaintext : Bytes)
  | decrypt (message : Bytes)

def step (s : Session P) : Call P → Session P
  | .encrypt c plaintext => (s.encrypt c plaintext).1
  | .decrypt message => (s.decrypt message).1

def Bounded (s : Session P) : Prop := s.skipped.toList.length ≤ MAX_SKIP

theorem length_skipLoop_le (chainId : Bytes) (k : Nat) (ck : P.Key) (n : Nat) (kept : Table (Bytes × Nat) P.Key) :
    (Table.toList (skipLoop P chainId k ck n kept).2).length ≤ kept.toList.length + k := by
  induction k generalizing ck n kept with
  | zero => exact le_rfl
  | succ k ih =>
    have hinsert := Table.length_insert_le kept (chainId, n) (P.kdfCk ck).2
    exact (ih ..).trans (by omega)

section Bounded
variable {s s' : Session P} {h : Header} {ct aad pt : Bytes}

theorem Bounded.skipRecv {upTo : Nat} (hs : s.Bounded) (hskip : s.skipRecv upTo = .ok s') : s'.Bounded := by
  unfold Session.skipRecv at hskip
  split at hskip
  · cases hskip
    exact hs
  split at hskip
  · cases hskip
    exact hs
  split at hskip
  · cases hskip
  · next hroom =>
    cases hskip
    rw [← List.length_map] at hroom
    exact (length_skipLoop_le ..).trans (Nat.not_lt.mp hroom)

theorem Bounded.enterChain (hs : s.Bounded) (henter : s.enterChain h = .ok s') : s'.Bounded := by
  unfold Session.enterChain at henter
  split at henter
  · cases henter
    exact hs
  · obtain ⟨s₁, hskip, hrecv⟩ := except_bind_eq_ok.mp henter
    have hs₁ := hs.skipRecv hskip
    unfold ratchetRecv at hrecv
    split at hrecv
    · cases hrecv
    · obtain ⟨_, -, hrecv⟩ := except_bind_eq_ok.mp hrecv
      cases hrecv
      exact hs₁

theorem Bounded.trySkipped (hs : s.Bounded)
    (htry : s.trySkipped h ct aad = .ok (some (s', pt))) : s'.Bounded := by
  unfold Session.trySkipped at htry
  split at htry
  · cases htry
  · obtain ⟨_, -, htry⟩ := except_bind_eq_ok.mp htry
    cases htry
    simp only [Bounded, Table.toList, List.length_map] at hs ⊢
    exact (List.kerase_sublist _ s.skipped.entries).length_le.trans hs

theorem Bounded.receive (hs : s.Bounded) (hrecv : s.receive h ct aad = .ok (s', pt)) : s'.Bounded := by
  obtain ⟨r, htry, hrecv⟩ := except_bind_eq_ok.mp hrecv
  cases r with
  | some r =>
    cases hrecv
    exact hs.trySkipped htry
  | none =>
    obtain ⟨s₁, henter, hrecv⟩ := except_bind_eq_ok.mp hrecv
    obtain ⟨s₂, hskip, hopen⟩ := except_bind_eq_ok.mp hrecv
    have hs₂ := (hs.enterChain henter).skipRecv hskip
    unfold openNext at hopen
    split at hopen
    · cases hopen
    · obtain ⟨_, -, hopen⟩ := except_bind_eq_ok.mp hopen
      cases hopen
      exact hs₂

theorem skipped_send (s : Session P) (pt : Bytes) : (s.send pt).1.skipped = s.skipped := by
  unfold send
  split
  · rfl
  split
  · rfl
  · dsimp only
    split <;> rfl

theorem skipped_encrypt (s : Session P) (c : SendCoins P) (pt : Bytes) : (s.encrypt c pt).1.skipped = s.skipped := by
  unfold encrypt
  split
  · split
    · rfl
    · next s' hstep =>
      rw [skipped_send]
      unfold ratchetSend at hstep
      split at hstep
      · cases hstep
      · obtain ⟨_, -, hstep⟩ := except_bind_eq_ok.mp hstep
        cases hstep
        rfl
  · exact skipped_send s pt

theorem Bounded.step (hs : s.Bounded) (call : Call P) : (s.step call).Bounded := by
  cases call with
  | encrypt c pt => rwa [Bounded, Session.step, skipped_encrypt]
  | decrypt message =>
    unfold Session.step decrypt
    dsimp only
    split
    · next s' pt hinner =>
      obtain ⟨_, -, hinner⟩ := except_bind_eq_ok.mp hinner
      obtain ⟨_, -, hrecv⟩ := except_bind_eq_ok.mp hinner
      exact hs.receive hrecv
    · exact hs

end Bounded

/-- Whatever a session is given to encrypt or decrypt, it keeps at most `MAX_SKIP` keys of skipped messages. -/
theorem skipped_le (root₀ : P.Key) (peerPrekey prekeyPublic : RatchetPublic) (prekeySecret : RatchetSecret P)
    (calls : List (Call P)) :
    (calls.foldl step (initiator root₀ peerPrekey)).Bounded ∧
      (calls.foldl step (responder root₀ prekeySecret prekeyPublic)).Bounded :=
  ⟨List.foldlRecOn calls step (Nat.zero_le _) fun _ hs call _ => hs.step call,
    List.foldlRecOn calls step (Nat.zero_le _) fun _ hs call _ => hs.step call⟩

end Session
end Talkrypt.Ratchet
