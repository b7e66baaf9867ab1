import Talkrypt.Core.Engine
import Talkrypt.Crypto.Account
import Talkrypt.Crypto.TreeKem.GroupMessage

/-!
# Flooded frames (`crates/core/src/engine.rs`)

Group messages, route descriptors and leaf-key certificates reach a node over several paths. Their
handlers record the frame's digest first and drop what they have recorded before; then they check the
frame against the group and the roster, and pass it on.
-/

namespace Talkrypt.Core
open TreeKem Account

variable {S : Scheme}

def PRESENCE_SENTINEL : UInt8 := 0xF5
def LINKAGE_SENTINEL : UInt8 := 0xF6
def VOUCH_SENTINEL : UInt8 := 0xF7

/-! ## Route descriptors -/

structure RouteDescriptor where
  signer : IdentityPublic
  issued : UInt64
  endpoints : List String
  sig : Bytes
deriving DecidableEq

namespace RouteDescriptor

def ROUTE_CONTEXT : Bytes := utf8 "talkrypt-route-descriptor-v2"
def MAX_ROUTE_ENDPOINTS : Nat := 8
def MAX_ROUTE_EP_LEN : Nat := 512
def MAX_KNOWN_ROUTES : Nat := 256

def transcript (signer : IdentityPublic) (issued : UInt64) (endpoints : List String) : Bytes :=
  putBytes ROUTE_CONTEXT ++ putBytes signer.sigVk ++ putBytes (be8 issued) ++ putU32 endpoints.length ++
    putFields (endpoints.map utf8)

def encode (d : RouteDescriptor) : Bytes :=
  putBytes d.signer.sigVk ++ putBytes (be8 d.issued) ++ putU32 d.endpoints.length ++
    putFields (d.endpoints.map utf8) ++ putBytes d.sig

def getEndpoints : Nat → Reader Unit (List String)
  | 0 => pure []
  | n + 1 => do
    let e ← Reader.getBytes
    if e.length > MAX_ROUTE_EP_LEN then throw ()
    else match fromUtf8 e with
      | none => throw ()
      | some endpoint =>
        let endpoints ← getEndpoints n
        pure (endpoint :: endpoints)

def get : Reader Unit RouteDescriptor := do
  let sigVk ← Reader.getBytes
  let issued ← getArr 8
  let n ← Reader.getU32
  if n > MAX_ROUTE_ENDPOINTS then throw ()
  else
    let endpoints ← getEndpoints n
    let sig ← Reader.getBytes
    Reader.finish
    pure { signer := ⟨sigVk⟩, issued := UInt64.ofNat (beNat issued.1), endpoints, sig }

def decode (bytes : Bytes) : Option RouteDescriptor := (Reader.parse get bytes).toOption

end RouteDescriptor

namespace Inner

/-- Send a frame to every peer but the one that it came from. -/
def flood (i : Inner S) (peer : Fingerprint) (frame : Frame S) : Inner S :=
  { i with sent := i.sent ++ (i.connected.filter (· ≠ peer)).map fun fp => (frame, .peer fp) }

/-- The host relays, and a gossip bridge does so whatever its role. -/
def refloods (i : Inner S) : Bool := !i.relayed && (i.gossip || i.role = .host)

def reflood (i : Inner S) (peer : Fingerprint) (frame : Frame S) : Inner S :=
  if i.refloods then i.flood peer frame else i

theorem reflood_eq (i : Inner S) (peer : Fingerprint) (frame : Frame S) :
    ∃ sent, i.reflood peer frame = { i with sent } := by
  unfold reflood
  split <;> exact ⟨_, rfl⟩

section Handlers
variable (M : Messaging S) (sha256 : Bytes → Gid) (fingerprint : IdentityPublic → Fingerprint)

/-- Record a frame; `none` if it was recorded before. -/
def record (i : Inner S) (bytes : Bytes) : Option (Inner S) :=
  match i.seen.insert (sha256 bytes) with
  | (_, false) => none
  | (seen, true) => some { i with seen }

theorem record_eq_some {sha256 : Bytes → Gid} {i i' : Inner S} {bytes : Bytes}
    (h : i.record sha256 bytes = some i') : ∃ seen, i' = { i with seen } := by
  unfold record at h
  split at h
  · cases h
  · exact ⟨_, (Option.some.inj h).symm⟩

/-! ## Group messages -/

/-- The roster entry of the claimed leaf, or else the peer that the frame came from. -/
def senderOf (i : Inner S) (peer : Fingerprint) (gct : Bytes) : Fingerprint :=
  ((senderLeaf gct).bind i.roster.lookup).getD peer

def handOn (i : Inner S) (sender : Fingerprint) (payload : Handed) : Inner S :=
  { i with handed := i.handed ++ [(sender, payload)] }

/-- Show a received message, and acknowledge it in a persistent chat. -/
def display (i : Inner S) (peer sender : Fingerprint) (gid : Gid) (text : String) (marking : Option Marking)
    (nameTag : Option (ByteArr 8)) : Inner S :=
  let i := match nameTag with
    | none => i
    | some tag => i.handOn sender (.nameTag tag)
  let i := i.emit (.message sender i.channel text marking)
  if i.persistent then i.route (.deliveryAck [gid]) (.peer peer) else i

def note (i : Inner S) (now : UInt64) (sender : Fingerprint) (gid : Gid) (text : String)
    (marking : Option Marking) : Inner S :=
  i.recordBacklog gid (HistoryRecord.encode { sender, ts := now.toNat, text, marking }) now.toNat

def surface (i : Inner S) (now : UInt64) (peer : Fingerprint) (gct pt : Bytes) : Inner S :=
  let sender := i.senderOf peer gct
  if pt.head? = some PRESENCE_SENTINEL then i.handOn sender (.presence pt.tail)
  else if pt.head? = some LINKAGE_SENTINEL then i.handOn sender (.linkage pt.tail)
  else if pt.head? = some VOUCH_SENTINEL then i.handOn sender (.vouch pt.tail)
  else match decodePayloadTagged pt with
    | none => i
    | some (marking, text, nameTag) =>
      (i.note now sender (sha256 gct) text marking).display peer sender (sha256 gct) text marking nameTag

/-- Keep a message for the rostered members that are not connected. -/
def keepForOffline (i : Inner S) (now : UInt64) (peer : Fingerprint) (gct : Bytes) : Inner S :=
  if !i.relayed && i.keeperEnabled then
    let offline := (i.roster.toList.map (·.2)).filter fun fp => fp ≠ peer ∧ fp ≠ i.me ∧ fp ∉ i.connected
    { i with kept := i.kept ++ offline.map fun fp => (fp, sha256 gct, gct, now) }
  else i

def handleGroupMsg (i : Inner S) (now : UInt64) (peer : Fingerprint) (gct : Bytes) : Inner S :=
  match i.record sha256 gct with
  | none => i
  | some i =>
    match i.group with
    | none => i
    | some g =>
      match g.decryptVerified M gct with
      | (g, .error _) => { i with group := some g }
      | (g, .ok pt) =>
        (({ i with group := some g }.surface sha256 now peer gct pt).reflood peer (.groupMsg gct)).keepForOffline
          sha256 now peer gct

/-- Send a message, which a persistent chat also queues until it is acknowledged. -/
def post (i : Inner S) (now : UInt64) (ct : Bytes) : Inner S :=
  let i := if i.persistent then { i with queued := i.queued ++ [(sha256 ct, ct, now)] } else i
  i.route (.groupMsg ct) .broadcast

/-- `send_marked` in a group. The pairwise branch does not touch the group state. -/
def sendMarked (i : Inner S) (now : UInt64) (text : String) (marking : Option Marking)
    (nameTag : Option (ByteArr 8)) : Inner S :=
  match i.role, i.group with
  | .none, _ | _, none => i
  | _, some g =>
    match g.encryptSigned M (encodePayloadTagged marking text nameTag) with
    | (g, .error _) => { i with group := some g }
    | (g, .ok ct) => ({ i with group := some g }.note now i.me (sha256 ct) text marking).post sha256 now ct

/-! ## Route descriptors -/

/-- Store a member's routes, unless they are not newer than those we have or the table is full. -/
def storeRoutes (i : Inner S) (d : RouteDescriptor) : Option (Inner S) :=
  let stored := { i with knownRoutes := i.knownRoutes.insert (fingerprint d.signer) (d.issued, d.endpoints) }
  match i.knownRoutes.lookup (fingerprint d.signer) with
  | some (last, _) => if d.issued ≤ last then none else some stored
  | none =>
    if i.knownRoutes.toList.length ≥ RouteDescriptor.MAX_KNOWN_ROUTES then none else some stored

theorem storeRoutes_eq_some {fingerprint : IdentityPublic → Fingerprint} {i i' : Inner S}
    {d : RouteDescriptor} (h : i.storeRoutes fingerprint d = some i') :
    ∃ knownRoutes, i' = { i with knownRoutes } := by
  unfold storeRoutes at h
  dsimp only at h
  split at h <;> split at h <;> cases h
  all_goals exact ⟨_, rfl⟩

def handleRouteDescriptor (i : Inner S) (peer : Fingerprint) (bytes : Bytes) : Inner S :=
  match i.record sha256 bytes with
  | none => i
  | some i =>
    match RouteDescriptor.decode bytes with
    | none => i
    | some d =>
      if (S.verify d.signer (RouteDescriptor.transcript d.signer d.issued d.endpoints) d.sig).isOk then
        if (i.roster.toList.map (·.2)).contains (fingerprint d.signer) then
          match i.storeRoutes fingerprint d with
          | none => i
          | some i => i.reflood peer (.routeDescriptor bytes)
        else i
      else i

/-! ## Leaf-key certificates -/

/-- The rostered leaf whose signing key is `leafKey`. -/
def matchedLeaf (i : Inner S) (hint : Nat) (leafKey : IdentityPublic) : Option Nat :=
  match i.group with
  | none => none
  | some g =>
    if (i.roster.lookup hint).isSome ∧ g.leafSigKeys.lookup hint = some leafKey then some hint
    else (i.roster.toList.find? fun e => g.leafSigKeys.lookup e.1 = some leafKey).map (·.1)

/-- Some link of the chain certifies a key that the account revoked. -/
def hasRevoked (i : Inner S) (account : Fingerprint) (chain : IdentityChain) : Bool :=
  chain.links.any fun l => (account, fingerprint l.cert.subject) ∈ i.revocations

/-- A chain that verifies under its own root and has no revoked link: the account and the leaf key. -/
def checkLeafSigCert (i : Inner S) (now : UInt64) (bytes : Bytes) :
    Option (IdentityChain × IdentityPublic × IdentityPublic) := do
  let chain ← (IdentityChain.decode bytes).toOption
  let account ← chain.links.head?.map (·.issuer)
  let leafKey ← chain.leaf
  if (chain.verify S account leafKey now).isOk ∧ i.hasRevoked fingerprint (fingerprint account) chain = false then
    pure (chain, account, leafKey)
  else none

def handleLeafSigCert (i : Inner S) (now : UInt64) (hint : Nat) (peer : Fingerprint) (bytes : Bytes) :
    Inner S :=
  match i.record sha256 bytes with
  | none => i
  | some i =>
    match i.checkLeafSigCert fingerprint now bytes with
    | none => i
    | some (chain, account, leafKey) =>
      let relay (i : Inner S) : Inner S :=
        if !i.relayed && i.role = .host then i.flood peer (.leafSigCert bytes) else i
      match i.matchedLeaf hint leafKey with
      | none => relay i
      | some leaf =>
        -- the device that vouches for the leaf key must be the one that joined at this leaf
        if i.roster.lookup leaf = none ∨
            i.roster.lookup leaf ≠ chain.links.getLast?.map fun l => fingerprint l.issuer then i
        else relay { i with verifiedLeafAccounts := i.verifiedLeafAccounts.insert leaf (fingerprint account) }

def groupLeafAccount (i : Inner S) (leaf : Nat) : Option Fingerprint := i.verifiedLeafAccounts.lookup leaf

def addRevocation (i : Inner S) (r : Revocation) : Inner S :=
  if (r.verify S).isOk then
    { i with revocations := insert (fingerprint r.account, r.subjectFp) i.revocations }
  else i

end Handlers
end Inner
end Talkrypt.Core
