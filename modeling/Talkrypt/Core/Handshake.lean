import Talkrypt.Core.Marking
import Talkrypt.Crypto.TreeKem.Scheme

/-!
# The session handshake (`crates/core/src/handshake.rs`)

The dialer (`initiate`) and the accepter (`respond`) exchange three frames, `Init`, `Resp` and `Confirm`, and
each signs the values that it has seen of the exchange. The two calls are cut where they wait for a frame:
`initiate` into `initFrame` and `onResp`, `respond` into `onInit` and `onConfirm`.
-/

namespace Talkrypt.Core
open TreeKem (Scheme)

/-- What the handshake uses of a `CryptoSuite`. -/
structure CryptoSuite where
  id : String
  Session : Type
  PrekeySecret : Type
  Coin : Type
  generatePrekey : Coin → Bytes × PrekeySecret
  beginSession : ByteArr 32 → Bytes → Coin → Except CryptoError Session
  acceptSession : ByteArr 32 → PrekeySecret → Except CryptoError Session
  id_length : (utf8 id).length ≤ MAX_FRAME
  prekey_length : ∀ c, (generatePrekey c).1.length ≤ MAX_FRAME

/-- A suite without secrets. -/
def CryptoSuite.plain : CryptoSuite where
  id := "tk.plain"
  Session := Unit
  PrekeySecret := Unit
  Coin := Unit
  generatePrekey _ := ([9], ())
  beginSession _ _ _ := .ok ()
  acceptSession _ _ := .ok ()
  id_length := by decide
  prekey_length _ := by decide

namespace Handshake

def T_RESP : Bytes := utf8 "talkrypt-resp-v2"
def T_CONFIRM : Bytes := utf8 "talkrypt-confirm-v2"

/-- What both parties sign, under a tag for the role. -/
def handshakeTranscript (tag : Bytes) (suiteId : String) (idI : IdentityPublic) (nonceI : Bytes)
    (idR : IdentityPublic) (prekey nonceR : Bytes) : Bytes :=
  putFields [tag, utf8 suiteId, idI.sigVk, nonceI, idR.sigVk, prekey, nonceR]

structure View where
  suiteId : String
  idI : IdentityPublic
  nonceI : Bytes
  idR : IdentityPublic
  prekey : Bytes
  nonceR : Bytes
deriving DecidableEq

namespace View

def transcript (v : View) (tag : Bytes) : Bytes :=
  handshakeTranscript tag v.suiteId v.idI v.nonceI v.idR v.prekey v.nonceR

structure Fits (v : View) : Prop where
  suiteId : (utf8 v.suiteId).length ≤ MAX_FRAME
  idI : v.idI.sigVk.length ≤ MAX_FRAME
  nonceI : v.nonceI.length ≤ MAX_FRAME
  idR : v.idR.sigVk.length ≤ MAX_FRAME
  prekey : v.prekey.length ≤ MAX_FRAME
  nonceR : v.nonceR.length ≤ MAX_FRAME

theorem Fits.transcript_length {v : View} (h : v.Fits) {tag : Bytes} (htag : tag.length ≤ MAX_FRAME) :
    (v.transcript tag).length < 2 ^ 32 := by
  obtain ⟨h₁, h₂, h₃, h₄, h₅, h₆⟩ := h
  simp only [transcript, handshakeTranscript, putFields_cons, putFields_nil, List.length_append, putBytes_length,
    List.length_nil]
  unfold MAX_FRAME at *
  omega

theorem transcript_inj {v v' : View} {tag tag' : Bytes} (hlen : (v.transcript tag).length < 2 ^ 32)
    (h : v.transcript tag = v'.transcript tag') : tag = tag' ∧ v = v' := by
  have hfields := putFields_inj hlen h
  obtain ⟨suiteId, ⟨idI⟩, nonceI, ⟨idR⟩, prekey, nonceR⟩ := v
  obtain ⟨suiteId', ⟨idI'⟩, nonceI', ⟨idR'⟩, prekey', nonceR'⟩ := v'
  simp only [List.cons.injEq, and_true] at hfields
  obtain ⟨htag, hsuite, rfl, rfl, rfl, rfl, rfl⟩ := hfields
  exact ⟨htag, by rw [utf8_injective hsuite]⟩

end View

def encodeIdentity (id : IdentityPublic) : Bytes := putBytes id.sigVk

def decodeIdentity : Reader CoreError IdentityPublic := do
  let blob ← Reader.getBytes
  let (sigVk, rest) ← liftM ((Reader.getBytes : Reader CoreError Bytes) blob)
  if rest ≠ [] then throw (.malformed "identity trailing bytes") else pure ⟨sigVk⟩

structure Party (S : Scheme) where
  identity : S.SigSeed
  suite : CryptoSuite
  root0 : ByteArr 32

namespace Party
variable {S : Scheme}

def identityPublic (p : Party S) : IdentityPublic := S.sigPublic p.identity

/-! ## Initiator -/

def initFrame (p : Party S) (nonceI : ByteArr 32) : Bytes :=
  putBytes (encodeIdentity p.identityPublic) ++ putBytes nonceI.1

end Party

/-- `Resp`: identity, prekey, nonce and signature of the responder. What follows is not read. -/
def getResp : Reader CoreError (IdentityPublic × Bytes × Bytes × Bytes) := do
  let peerIdentity ← decodeIdentity
  let prekey ← Reader.getBytes
  let nonceR ← Reader.getBytes
  let sigR ← Reader.getBytes
  pure (peerIdentity, prekey, nonceR, sigR)

def getInit : Reader CoreError (IdentityPublic × Bytes) := do
  let peerIdentity ← decodeIdentity
  let nonceI ← Reader.getBytes
  pure (peerIdentity, nonceI)

def getConfirm : Reader CoreError Bytes := Reader.getBytes

namespace Party
variable {S : Scheme}

def initiatorView (p : Party S) (nonceI : ByteArr 32) (peerIdentity : IdentityPublic) (prekey nonceR : Bytes) : View :=
  ⟨p.suite.id, p.identityPublic, nonceI.1, peerIdentity, prekey, nonceR⟩

/-- The rest of `initiate`: its view, its session and the signature that it sends in `Confirm`. -/
def onResp (p : Party S) (nonceI : ByteArr 32) (coin : p.suite.Coin) (resp : Bytes) :
    Except CoreError (View × p.suite.Session × Bytes) :=
  match getResp.parse resp with
  | .error e => .error e
  | .ok (peerIdentity, prekey, nonceR, sigR) =>
    let view := p.initiatorView nonceI peerIdentity prekey nonceR
    match S.verify peerIdentity (view.transcript T_RESP) sigR with
    | .error _ => .error .peerAuthFailed
    | .ok () =>
      match p.suite.beginSession p.root0 prekey coin with
      | .error e => .error (.crypto e)
      | .ok session => .ok (view, session, S.sign p.identity (view.transcript T_CONFIRM))

def confirmFrame (sigI : Bytes) : Bytes := putBytes sigI

/-! ## Responder -/

def responderView (p : Party S) (peerIdentity : IdentityPublic) (nonceI prekey : Bytes) (nonceR : ByteArr 32) : View :=
  ⟨p.suite.id, peerIdentity, nonceI, p.identityPublic, prekey, nonceR.1⟩

/-- The first part of `respond`: its view, its prekey secret and the signature that it sends in `Resp`. -/
def onInit (p : Party S) (nonceR : ByteArr 32) (coin : p.suite.Coin) (init : Bytes) :
    Except CoreError (View × p.suite.PrekeySecret × Bytes) :=
  match getInit.parse init with
  | .error e => .error e
  | .ok (peerIdentity, nonceI) =>
    let prekey := p.suite.generatePrekey coin
    let view := p.responderView peerIdentity nonceI prekey.1 nonceR
    .ok (view, prekey.2, S.sign p.identity (view.transcript T_RESP))

def respFrame (view : View) (sigR : Bytes) : Bytes :=
  putBytes (encodeIdentity view.idR) ++ putBytes view.prekey ++ putBytes view.nonceR ++ putBytes sigR

def onConfirm (p : Party S) (view : View) (prekeySecret : p.suite.PrekeySecret) (confirm : Bytes) :
    Except CoreError p.suite.Session :=
  match getConfirm.parse confirm with
  | .error e => .error e
  | .ok sigI =>
    match S.verify view.idI (view.transcript T_CONFIRM) sigI with
    | .error _ => .error .peerAuthFailed
    | .ok () =>
      match p.suite.acceptSession p.root0 prekeySecret with
      | .error e => .error (.crypto e)
      | .ok session => .ok session

end Party

/-! ## Frames that arrive -/

theorem decodeIdentity_encodeIdentity {pk : IdentityPublic} (h : 4 + pk.sigVk.length ≤ MAX_FRAME) (rest : Bytes) :
    decodeIdentity (putBytes (encodeIdentity pk) ++ rest) = .ok (pk, rest) := by
  have hblob : (encodeIdentity pk).length ≤ MAX_FRAME := by rwa [encodeIdentity, putBytes_length]
  have hinner := Reader.getBytes_putBytes (ε := CoreError) (b := pk.sigVk) (by omega) []
  rw [List.append_nil] at hinner
  rw [decodeIdentity, Reader.bind_ok (Reader.getBytes_putBytes hblob rest), encodeIdentity, hinner]
  rfl

variable {S : Scheme}

theorem getInit_initFrame (p : Party S) (h : 4 + p.identityPublic.sigVk.length ≤ MAX_FRAME) (nonceI : ByteArr 32) :
    getInit.parse (p.initFrame nonceI) = .ok (p.identityPublic, nonceI.1) := by
  have hnonce := Reader.getBytes_putBytes (ε := CoreError) (b := nonceI.1) (nonceI.2.le.trans (by decide)) []
  rw [List.append_nil] at hnonce
  rw [Reader.parse, getInit, Party.initFrame, Reader.bind_ok (decodeIdentity_encodeIdentity h _), Reader.bind_ok hnonce]
  rfl

variable {view : View}

theorem getResp_respFrame (h : 4 + view.idR.sigVk.length ≤ MAX_FRAME) (hprekey : view.prekey.length ≤ MAX_FRAME)
    (hnonce : view.nonceR.length ≤ MAX_FRAME) {sigR : Bytes} (hsig : sigR.length ≤ MAX_FRAME) :
    getResp.parse (Party.respFrame view sigR) = .ok (view.idR, view.prekey, view.nonceR, sigR) := by
  have hlast := Reader.getBytes_putBytes (ε := CoreError) hsig []
  rw [List.append_nil] at hlast
  simp only [Reader.parse, getResp, Party.respFrame, List.append_assoc]
  rw [Reader.bind_ok (decodeIdentity_encodeIdentity h _), Reader.bind_ok (Reader.getBytes_putBytes hprekey _),
    Reader.bind_ok (Reader.getBytes_putBytes hnonce _), Reader.bind_ok hlast]
  rfl

theorem getConfirm_confirmFrame {sigI : Bytes} (hsig : sigI.length ≤ MAX_FRAME) :
    getConfirm.parse (Party.confirmFrame sigI) = .ok sigI := by
  have hlast := Reader.getBytes_putBytes (ε := CoreError) hsig []
  rw [List.append_nil] at hlast
  rw [Reader.parse, getConfirm, Party.confirmFrame, hlast]
  rfl

theorem Party.onInit_initFrame (p q : Party S) (h : 4 + p.identityPublic.sigVk.length ≤ MAX_FRAME)
    (nonceI nonceR : ByteArr 32) (coin : q.suite.Coin) :
    let prekey := q.suite.generatePrekey coin
    let view := q.responderView p.identityPublic nonceI.1 prekey.1 nonceR
    q.onInit nonceR coin (p.initFrame nonceI) = .ok (view, prekey.2, S.sign q.identity (view.transcript T_RESP)) := by
  rw [Party.onInit, getInit_initFrame p h]

theorem Party.onResp_respFrame (p : Party S) {nonceI : ByteArr 32}
    (hview : p.initiatorView nonceI view.idR view.prekey view.nonceR = view)
    (hidR : 4 + view.idR.sigVk.length ≤ MAX_FRAME) (hfits : view.Fits) {sigR : Bytes}
    (hsig : sigR.length ≤ MAX_FRAME) (hverify : S.verify view.idR (view.transcript T_RESP) sigR = .ok ())
    {coin : p.suite.Coin} {session : p.suite.Session}
    (hsession : p.suite.beginSession p.root0 view.prekey coin = .ok session) :
    p.onResp nonceI coin (respFrame view sigR) = .ok (view, session, S.sign p.identity (view.transcript T_CONFIRM)) := by
  rw [Party.onResp, getResp_respFrame hidR hfits.prekey hfits.nonceR hsig]
  dsimp only
  rw [hview, hverify]
  dsimp only
  rw [hsession]

theorem Party.onConfirm_confirmFrame (q : Party S) {prekeySecret : q.suite.PrekeySecret} {sigI : Bytes}
    (hsig : sigI.length ≤ MAX_FRAME) (hverify : S.verify view.idI (view.transcript T_CONFIRM) sigI = .ok ())
    {session : q.suite.Session} (hsession : q.suite.acceptSession q.root0 prekeySecret = .ok session) :
    q.onConfirm view prekeySecret (confirmFrame sigI) = .ok session := by
  rw [Party.onConfirm, getConfirm_confirmFrame hsig]
  dsimp only
  rw [hverify]
  dsimp only
  rw [hsession]

end Handshake
end Talkrypt.Core
