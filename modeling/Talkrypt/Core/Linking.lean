import Talkrypt.Core.Handshake
import Talkrypt.Crypto.Account

/-!
# Device linking (`crates/core/src/linking.rs`)

The primary accepts connections one after the other, runs the handshake on each, and certifies the device key of
the first request that the operator approves. The key it certifies is the one named in the request; the key that
the handshake authenticated is not looked at.
-/

namespace Talkrypt.Core
open TreeKem (Scheme)
open Account

/-- What the protocols over a session use of it. -/
structure SessionOps (suite : CryptoSuite) where
  encrypt : suite.Session → Bytes → suite.Coin → Except CryptoError (Bytes × suite.Session)
  decrypt : suite.Session → Bytes → Except CryptoError (Bytes × suite.Session)

namespace Linking

structure LinkRequest where
  device : IdentityPublic
  label : String
deriving DecidableEq

def LinkRequest.encode (r : LinkRequest) : Bytes := putBytes r.device.sigVk ++ putBytes (utf8 r.label)

def LinkRequest.get : Reader CoreError LinkRequest := do
  let sigVk ← Reader.getBytes
  let label ← Reader.getBytes
  match fromUtf8 label with
  | none => throw (.malformed "link label utf-8")
  | some label => pure ⟨⟨sigVk⟩, label⟩

def LinkRequest.decode (bytes : Bytes) : Except CoreError LinkRequest := get.parse bytes

inductive LinkReply where
  | grant (chain : IdentityChain) (account : IdentityPublic) (username : Option String)
  | denied (msg : String)

def LinkReply.encode : LinkReply → Bytes
  | grant chain account username =>
    putU8 0 ++ putBytes chain.encode ++ putBytes account.sigVk ++
      match username with
      | some u => putU8 1 ++ putBytes (utf8 u)
      | none => putU8 0
  | denied msg => putU8 1 ++ putBytes (utf8 msg)

def LINK_CERT_TTL : UInt64 := 86400

structure LinkHost (S : Scheme) where
  account : S.SigSeed
  /-- Device identity, suite and root of the linking descriptor. -/
  party : Handshake.Party S
  ops : SessionOps party.suite
  username : Option String
  now : UInt64
  approve : Bool := false
  certTtl : UInt64 := LINK_CERT_TTL

namespace LinkHost

variable {S : Scheme} (host : LinkHost S)

/-- A connection as the host meets it: the frames that arrive (or not), the randomness of the host's side and
what the approval hook answers while it is open. -/
structure Connection where
  nonceR : ByteArr 32
  prekeyCoin : host.party.suite.Coin
  replyCoin : host.party.suite.Coin
  init : Option Bytes
  confirm : Option Bytes
  request : Option Bytes
  answer : String → Bool

/-- What the host did on a connection after the handshake. -/
structure Visit where
  peer : IdentityPublic
  request : Option LinkRequest := none
  /-- The label that the hook was asked about, and its answer. -/
  asked : Option (String × Bool) := none
  issued : Option IdentityChain := none
  reply : Option Bytes := none

def ttl : UInt64 := if host.certTtl = 0 then LINK_CERT_TTL else host.certTtl

def certify (req : LinkRequest) : IdentityChain :=
  IdentityChain.device host.account req.device ("device:" ++ req.label) host.now (saturatingAdd host.now host.ttl)

variable {host} in
def respond (c : host.Connection) : Option (IdentityPublic × host.party.suite.Session) := do
  let init ← c.init
  let (view, prekeySecret, _) ← (host.party.onInit c.nonceR c.prekeyCoin init).toOption
  let confirm ← c.confirm
  let session ← (host.party.onConfirm view prekeySecret confirm).toOption
  pure (view.idI, session)

variable {host} in
/-- The frame of the request and the session after it was opened. -/
def receive (c : host.Connection) (session : host.party.suite.Session) : Option (Bytes × host.party.suite.Session) := do
  let frame ← c.request
  (host.ops.decrypt session frame).toOption

variable {host} in
def sendReply (c : host.Connection) (session : host.party.suite.Session) (reply : LinkReply) : Option Bytes :=
  (host.ops.encrypt session reply.encode c.replyCoin).toOption.map (·.1)

variable {host} in
def grantOnce (c : host.Connection) (peer : IdentityPublic) (session : host.party.suite.Session) : Visit :=
  match receive c session with
  | none => { peer }
  | some (pt, session) =>
    match LinkRequest.decode pt with
    | .error _ => { peer, reply := sendReply c session (.denied "malformed link request") }
    | .ok req =>
      -- without a hook the request is denied
      let asked := if host.approve then some (req.label, c.answer req.label) else none
      if asked.map (·.2) = some true then
        let chain := host.certify req
        { peer, request := some req, asked, issued := some chain
          reply := sendReply c session (.grant chain (S.sigPublic host.account) host.username) }
      else { peer, request := some req, asked, reply := sendReply c session (.denied "pairing not approved") }

variable {host} in
def visit (c : host.Connection) : Option Visit := (respond c).map fun (peer, session) => grantOnce c peer session

variable {host} in
/-- The accept loop of `run`, over the connections that come in before its window closes. -/
def run : List host.Connection → List Visit
  | [] => []
  | c :: cs =>
    match visit c with
    | none => run cs
    | some v => if v.issued.isSome then [v] else v :: run cs

variable {host}

/-! ## What a connection asks for -/

/-- The key that a connection's handshake authenticates, and the request that it then makes. -/
def requestOf (c : host.Connection) : Option (IdentityPublic × LinkRequest) := do
  let (peer, session) ← respond c
  let (pt, _) ← receive c session
  let req ← (LinkRequest.decode pt).toOption
  pure (peer, req)

def approved (c : host.Connection) : Bool :=
  match requestOf c with
  | none => false
  | some (_, req) => host.approve && c.answer req.label

/-- What became of a connection: its request was approved and certified, or nothing was issued. -/
inductive Result (c : host.Connection) (v : Visit) : Prop where
  | granted {req : LinkRequest} (hrequest : requestOf c = some (v.peer, req)) (happroved : approved c = true)
      (hreq : v.request = some req) (hasked : v.asked = some (req.label, true))
      (hissued : v.issued = some (host.certify req))
  | refused (happroved : approved c = false) (hissued : v.issued = none)

variable {c : host.Connection} {v : Visit}

theorem result_grantOnce {peer : IdentityPublic} {session : host.party.suite.Session}
    (h : respond c = some (peer, session)) : Result c (grantOnce c peer session) := by
  have hrequestOf : requestOf c = (receive c session).bind fun r =>
      (LinkRequest.decode r.1).toOption.bind fun req => some (peer, req) := by
    rw [requestOf, h]
    rfl
  rw [grantOnce]
  cases hreceive : receive c session with
  | none =>
    rw [hreceive] at hrequestOf
    exact .refused (by rw [approved, hrequestOf]; rfl) rfl
  | some opened =>
    obtain ⟨pt, session'⟩ := opened
    rw [hreceive] at hrequestOf
    dsimp only
    cases hdecode : LinkRequest.decode pt with
    | error e =>
      have hnone : requestOf c = none := by rw [hrequestOf]; simp [hdecode, Except.toOption]
      exact .refused (by rw [approved, hnone]) rfl
    | ok req =>
      have hsome : requestOf c = some (peer, req) := by rw [hrequestOf]; simp [hdecode, Except.toOption]
      have happroved : approved c = (host.approve && c.answer req.label) := by rw [approved, hsome]
      cases hhook : host.approve with
      | false => exact .refused (by rw [happroved, hhook]; rfl) rfl
      | true =>
        cases hanswer : c.answer req.label with
        | false =>
          refine .refused (by rw [happroved, hhook, hanswer]; rfl) ?_
          simp [hanswer]
        | true =>
          have hok : approved c = true := by rw [happroved, hhook, hanswer]; rfl
          refine .granted (?_ : requestOf c = some (_, req)) hok ?_ ?_ ?_ <;> simp [hanswer, hsome]

theorem result_visit (h : visit c = some v) : Result c v := by
  obtain ⟨⟨peer, session⟩, hrespond, rfl⟩ := Option.map_eq_some_iff.mp h
  exact result_grantOnce hrespond

theorem approved_of_visit_eq_none (h : visit c = none) : approved c = false := by
  have hnone : respond c = none := by simpa [visit] using h
  rw [approved, requestOf, hnone]
  rfl

theorem isSome_issued_iff (h : visit c = some v) : v.issued.isSome = true ↔ approved c = true := by
  cases result_visit h with
  | granted _ happroved _ _ hissued => simp [happroved, hissued]
  | refused happroved hissued => simp [happroved, hissued]

/-! ## Runs -/

theorem run_issued {cs : List host.Connection} (hv : v ∈ run cs) (hissued : v.issued.isSome = true) :
    ∃ c, cs.find? approved = some c ∧ visit c = some v := by
  induction cs with
  | nil => cases hv
  | cons c cs ih =>
    rw [run] at hv
    cases hvisit : visit c with
    | none =>
      rw [hvisit] at hv
      rw [List.find?_cons_of_neg (by rw [approved_of_visit_eq_none hvisit]; decide)]
      exact ih hv
    | some v' =>
      rw [hvisit] at hv
      have hiff := isSome_issued_iff hvisit
      dsimp only at hv
      split at hv
      · next hgranted =>
        rw [List.find?_cons_of_pos (hiff.mp hgranted)]
        rw [List.mem_singleton.mp hv]
        exact ⟨c, rfl, hvisit⟩
      · next hrefused =>
        rw [List.find?_cons_of_neg (fun happroved => hrefused (hiff.mpr happroved))]
        rcases List.mem_cons.mp hv with rfl | hv
        · exact absurd hissued hrefused
        · exact ih hv

theorem exists_run_of_find {cs : List host.Connection} (h : cs.find? approved = some c) :
    ∃ v ∈ run cs, visit c = some v := by
  induction cs with
  | nil => cases h
  | cons c' cs ih =>
    rw [run]
    cases hvisit : visit c' with
    | none =>
      rw [List.find?_cons_of_neg (by rw [approved_of_visit_eq_none hvisit]; decide)] at h
      exact ih h
    | some v' =>
      have hiff := isSome_issued_iff hvisit
      dsimp only
      split
      · next hgranted =>
        rw [List.find?_cons_of_pos (hiff.mp hgranted)] at h
        cases h
        exact ⟨v', List.mem_singleton_self v', hvisit⟩
      · next hrefused =>
        rw [List.find?_cons_of_neg (fun happroved => hrefused (hiff.mpr happroved))] at h
        obtain ⟨v, hv, hvisit'⟩ := ih h
        exact ⟨v, List.mem_cons_of_mem v' hv, hvisit'⟩

theorem length_issued_run_le (cs : List host.Connection) : ((run cs).filterMap Visit.issued).length ≤ 1 := by
  induction cs with
  | nil => exact Nat.zero_le 1
  | cons c cs ih =>
    rw [run]
    cases hvisit : visit c with
    | none => exact ih
    | some v =>
      dsimp only
      split
      · exact List.length_filterMap_le _ _
      · next hrefused =>
        rw [List.filterMap_cons_none (Option.not_isSome_iff_eq_none.mp hrefused)]
        exact ih

/-! ## The grant -/

/-- What linking promises of the visits of a run. -/
structure Proper (host : LinkHost S) (visits : List Visit) : Prop where
  once : (visits.filterMap Visit.issued).length ≤ 1
  approved : ∀ v ∈ visits, v.issued.isSome = true → ∃ req, v.request = some req ∧ v.asked = some (req.label, true)
  expiry : ∀ v ∈ visits, ∀ chain ∈ v.issued, ∀ link ∈ chain.links,
    link.cert.expiry ≠ 0 ∧ link.cert.expiry.toNat ≤ host.now.toNat + host.ttl.toNat
  bound : ∀ v ∈ visits, ∀ chain ∈ v.issued, chain.leaf = some v.peer

theorem ttl_pos : 0 < host.ttl.toNat := by
  rw [ttl]
  split
  · decide
  · next hne => exact Nat.pos_of_ne_zero fun hzero => hne (UInt64.toNat_inj.mp hzero)

theorem expiry_certify {req : LinkRequest} {link : SignedCert} (h : link ∈ (host.certify req).links) :
    link.cert.expiry ≠ 0 ∧ link.cert.expiry.toNat ≤ host.now.toNat + host.ttl.toNat := by
  obtain rfl := List.mem_singleton.mp h
  have hexpiry := saturatingAdd_toNat host.now host.ttl
  have hpos : 0 < host.ttl.toNat := ttl_pos
  refine ⟨fun hzero => ?_, ?_⟩
  · have hzero' : (saturatingAdd host.now host.ttl).toNat = 0 := congrArg UInt64.toNat hzero
    omega
  · show (saturatingAdd host.now host.ttl).toNat ≤ _
    omega

/-- Linking is a one-time, approved and bounded grant on every run; it is bound to the authenticated key exactly
when the first approved request names the key of its own connection. -/
theorem proper_run_iff (host : LinkHost S) (cs : List host.Connection) :
    Proper host (run cs) ↔
      ∀ c, cs.find? approved = some c → ∀ peer req, requestOf c = some (peer, req) → req.device = peer := by
  constructor
  · intro h c hfind peer req hrequest
    obtain ⟨v, hv, hvisit⟩ := exists_run_of_find hfind
    have hissued := (isSome_issued_iff hvisit).mpr (List.find?_some hfind)
    cases result_visit hvisit with
    | refused _ hnone =>
      rw [hnone] at hissued
      cases hissued
    | granted hrequest' _ _ _ hchain =>
      cases hrequest.symm.trans hrequest'
      exact Option.some.inj (h.bound v hv _ hchain)
  · intro h
    have hresult {v : Visit} (hv : v ∈ run cs) {chain : IdentityChain} (hchain : v.issued = some chain) :
        ∃ req, v.request = some req ∧ v.asked = some (req.label, true) ∧ chain = host.certify req ∧
          req.device = v.peer := by
      obtain ⟨c, hfind, hvisit⟩ := run_issued hv (by rw [hchain]; rfl)
      cases result_visit hvisit with
      | refused _ hnone =>
        rw [hnone] at hchain
        cases hchain
      | granted hrequest _ hreq hasked hissued =>
        cases hissued.symm.trans hchain
        exact ⟨_, hreq, hasked, rfl, h c hfind _ _ hrequest⟩
    refine ⟨length_issued_run_le cs, fun v hv hissued => ?_, fun v hv chain hchain => ?_, fun v hv chain hchain => ?_⟩
    · obtain ⟨chain, hchain⟩ := Option.isSome_iff_exists.mp hissued
      obtain ⟨req, hreq, hasked, -⟩ := hresult hv hchain
      exact ⟨req, hreq, hasked⟩
    · obtain ⟨req, -, -, rfl, -⟩ := hresult hv hchain
      exact fun link hlink => expiry_certify hlink
    · obtain ⟨req, -, -, rfl, hdevice⟩ := hresult hv hchain
      rw [← hdevice]
      rfl

namespace Sample

def zeros : ByteArr 32 := .zeros 32

/-- The primary, with an operator who has to be asked. -/
def primary : LinkHost Scheme.plain where
  account := (1 : UInt8)
  party := ⟨(2 : UInt8), .plain, zeros⟩
  ops := { encrypt := fun s m _ => .ok (m, s), decrypt := fun s m => .ok (m, s) }
  username := none
  now := 1000
  approve := true

/-- The holder of one key connects and asks for a certificate for another. -/
def stranger : primary.Connection where
  nonceR := zeros
  prekeyCoin := ()
  replyCoin := ()
  init := some (putBytes (putBytes [5]) ++ putBytes [])
  confirm := some (putBytes [5])
  request := some (LinkRequest.encode ⟨⟨[8]⟩, "phone"⟩)
  answer label := label == "phone"

/-- The key that the handshake authenticated is not the key that is certified. -/
theorem unbound_grant :
    requestOf stranger = some (⟨[5]⟩, ⟨⟨[8]⟩, "phone"⟩) ∧ approved stranger = true ∧
      ¬ Proper primary (run [stranger]) := by
  have hrequest : requestOf stranger = some (⟨[5]⟩, ⟨⟨[8]⟩, "phone"⟩) := by decide +kernel
  have happroved : approved stranger = true := by decide +kernel
  have hfind : [stranger].find? approved = some stranger := List.find?_cons_of_pos happroved
  refine ⟨hrequest, happroved, fun h => ?_⟩
  obtain ⟨v, hv, hvisit⟩ := exists_run_of_find hfind
  cases result_visit hvisit with
  | refused hnot _ =>
    rw [happroved] at hnot
    cases hnot
  | granted hrequest' _ _ _ hissued =>
    obtain ⟨hpeer, rfl⟩ := Prod.mk.inj (Option.some.inj (hrequest.symm.trans hrequest'))
    have hbound := h.bound v hv _ hissued
    rw [← hpeer] at hbound
    exact absurd hbound (by decide)

end Sample

end LinkHost
end Linking
end Talkrypt.Core
