import Talkrypt.Lib.Codec
import Talkrypt.Core.VouchLedger

/-!
# Chat descriptors (`crates/core/src/descriptor.rs`)

The invite to a chat. Each version appends fields, which are read only from that version on. The context of a
chat, to which presences, vouches and grouping proofs are bound, is the hash of its invite token followed by
its channel, and the decoder fixes the length of neither.
-/

namespace Talkrypt.Core
open TreeKem (Scheme)
open Account

inductive TopologyKind where
  | p2p
  | hub
  | hybrid
deriving DecidableEq

namespace TopologyKind

def tag : TopologyKind → UInt8
  | p2p => 0
  | hub => 1
  | hybrid => 2

def fromTag (t : UInt8) : Except CoreError TopologyKind :=
  if t = 0 then .ok p2p
  else if t = 1 then .ok hub
  else if t = 2 then .ok hybrid
  else .error (.malformed "topology tag")

end TopologyKind

inductive Persistence where
  | ephemeral
  | persistent
deriving DecidableEq

namespace Persistence

def tag : Persistence → UInt8
  | ephemeral => 0
  | persistent => 1

def fromTag (t : UInt8) : Except CoreError Persistence :=
  if t = 0 then .ok ephemeral
  else if t = 1 then .ok persistent
  else .error (.malformed "persistence tag")

end Persistence

/-- How a name that collides with a verified one is shown. -/
inductive NameTrustPolicy where
  | signalStyle
  | warnOnCollision
  | suppressColliding
deriving DecidableEq

namespace NameTrustPolicy

def tag : NameTrustPolicy → UInt8
  | signalStyle => 0
  | warnOnCollision => 1
  | suppressColliding => 2

def fromTag (t : UInt8) : Option NameTrustPolicy :=
  if t = 0 then some signalStyle
  else if t = 1 then some warnOnCollision
  else if t = 2 then some suppressColliding
  else none

end NameTrustPolicy

/-! ## Codecs of the optional parts -/

namespace Predicate

def encode : Predicate → Bytes
  | linkedToAccount accountFp => putU8 0 ++ putBytes accountFp.1
  | grouping groupingPub => putU8 1 ++ putBytes groupingPub
  | derivedFromNamed ancestorFp => putU8 2 ++ putBytes ancestorFp.1

def get : Reader Unit Predicate := do
  let tag ← Reader.getU8
  if tag = 0 then
    let fp ← getArr 48
    pure (linkedToAccount fp)
  else if tag = 1 then
    let groupingPub ← Reader.getBytes
    pure (grouping groupingPub)
  else if tag = 2 then
    let fp ← getArr 48
    pure (derivedFromNamed fp)
  else throw ()

def decode (bytes : Bytes) : Option Predicate :=
  (Reader.parse (do let p ← get; Reader.finish; pure p) bytes).toOption

end Predicate

namespace VouchPolicy

def encode (p : VouchPolicy) : Bytes :=
  (match p.eligibility with
    | .anyLinked => putU8 0
    | .contactsOfViewer => putU8 1
    | .transitive depth => putU8 2 ++ putU8 depth) ++
  putU32 p.weighting.friend.toNat ++ putU32 p.weighting.contact.toNat ++ putU32 p.weighting.stranger.toNat ++
  (match p.threshold with
    | .count c => putU8 0 ++ putU32 c.toNat
    | .percent q => putU8 1 ++ putU8 q) ++
  putU32 p.freshnessIntervalRounds.toNat

def getWord : Reader Unit UInt32 := do
  let n ← Reader.getU32
  pure (UInt32.ofNat n)

def getEligibility : Reader Unit VoucherEligibility := do
  let tag ← Reader.getU8
  if tag = 0 then pure .anyLinked
  else if tag = 1 then pure .contactsOfViewer
  else if tag = 2 then
    let depth ← Reader.getU8
    pure (.transitive depth)
  else throw ()

def getThreshold : Reader Unit Threshold := do
  let tag ← Reader.getU8
  if tag = 0 then
    let c ← getWord
    pure (.count c)
  else if tag = 1 then
    let q ← Reader.getU8
    pure (.percent q)
  else throw ()

def get : Reader Unit VouchPolicy := do
  let eligibility ← getEligibility
  let friend ← getWord
  let contact ← getWord
  let stranger ← getWord
  let threshold ← getThreshold
  let freshnessIntervalRounds ← getWord
  Reader.finish
  pure { eligibility, weighting := { friend, contact, stranger }, threshold, freshnessIntervalRounds }

def decode (bytes : Bytes) : Option VouchPolicy := (Reader.parse get bytes).toOption

end VouchPolicy

structure PromotionMeta where
  tier : UInt8
  onion : String
deriving DecidableEq

def DESCRIPTOR_VERSION : Nat := 7

structure ChatDescriptor where
  version : Nat := DESCRIPTOR_VERSION
  topology : TopologyKind
  persistence : Persistence
  suiteId : String
  suiteParams : Bytes := []
  endpoints : List String
  inviteToken : Bytes
  channel : String
  group : Bool := false
  channelMarking : Option Marking := none
  nameTrustPolicy : NameTrustPolicy := .signalStyle
  groupDisplayAmplifyIsolated : Bool := false
  accessPredicate : Option Predicate := none
  messagePadding : Option Nat := none
  vouchPolicy : VouchPolicy := {}
  promotion : Option PromotionMeta := none
  requireAnon : Bool := false
deriving DecidableEq

namespace ChatDescriptor

/-! ## Bytes -/

def putFlag (b : Bool) : Bytes := putU8 (if b then 1 else 0)

def encodeBytes (d : ChatDescriptor) : Bytes :=
  putU32 d.version ++ putU8 d.topology.tag ++ putU8 d.persistence.tag ++ putBytes (utf8 d.suiteId) ++
  putBytes d.suiteParams ++ putU32 d.endpoints.length ++ putFields (d.endpoints.map utf8) ++ putBytes d.inviteToken ++
  putBytes (utf8 d.channel) ++ putFlag d.group ++ Marking.putOpt d.channelMarking ++
  (if 2 ≤ d.version then putU8 d.nameTrustPolicy.tag else []) ++
  (if 3 ≤ d.version then
    putFlag d.groupDisplayAmplifyIsolated ++
      match d.accessPredicate with
      | some p => putU8 1 ++ putBytes p.encode
      | none => putU8 0
  else []) ++
  (if 4 ≤ d.version then putU32 (d.messagePadding.getD 0) else []) ++
  (if 5 ≤ d.version then putBytes d.vouchPolicy.encode else []) ++
  (if 6 ≤ d.version then
    match d.promotion with
    | none => putU8 0
    | some m => putU8 1 ++ putU8 m.tier ++ putBytes (utf8 m.onion)
  else []) ++
  (if 7 ≤ d.version then putFlag d.requireAnon else [])

def getString : Reader CoreError String := do
  let bytes ← Reader.getBytes
  match fromUtf8 bytes with
  | none => throw (.malformed "invalid utf-8")
  | some s => pure s

def getEndpoints : Reader CoreError (List String) := do
  let n ← Reader.getU32
  if n > 1024 then throw (.malformed "too many endpoints") else readMany getString n

def getFlag : Reader CoreError Bool := do
  let b ← Reader.getU8
  pure (b ≠ 0)

def orMalformed {α : Type} (what : String) : Option α → Reader CoreError α
  | none => throw (.malformed what)
  | some a => pure a

def getPredicate : Reader CoreError (Option Predicate) := do
  let flag ← Reader.getU8
  if flag = 0 then pure none
  else if flag = 1 then
    let bytes ← Reader.getBytes
    let p ← orMalformed "access predicate" (Predicate.decode bytes)
    pure (some p)
  else throw (.malformed "access predicate flag")

def getPadding : Reader CoreError (Option Nat) := do
  let step ← Reader.getU32
  pure (if step = 0 then none else some step)

def getVouchPolicy : Reader CoreError VouchPolicy := do
  let bytes ← Reader.getBytes
  orMalformed "vouch policy" (VouchPolicy.decode bytes)

def getPromotion : Reader CoreError (Option PromotionMeta) := do
  let flag ← Reader.getU8
  if flag = 0 then pure none
  else if flag = 1 then
    let tier ← Reader.getU8
    let onion ← getString
    pure (some ⟨tier, onion⟩)
  else throw (.malformed "promotion flag")

/-- A field of version `since`, with its default before. -/
def fieldSince {α : Type} (since version : Nat) (default : α) (r : Reader CoreError α) : Reader CoreError α :=
  if since ≤ version then r else pure default

def finishDescriptor : Reader CoreError Unit := fun buf =>
  if buf = [] then .ok ((), []) else .error (.malformed "trailing descriptor bytes")

def getFields (version : Nat) : Reader CoreError ChatDescriptor := do
  let topologyTag ← Reader.getU8
  let topology ← liftM (TopologyKind.fromTag topologyTag)
  let persistenceTag ← Reader.getU8
  let persistence ← liftM (Persistence.fromTag persistenceTag)
  let suiteId ← getString
  let suiteParams ← Reader.getBytes
  let endpoints ← getEndpoints
  let inviteToken ← Reader.getBytes
  let channel ← getString
  let group ← getFlag
  let channelMarking ← Marking.getOpt
  let nameTrustPolicy ← fieldSince 2 version .signalStyle (do
    let tag ← Reader.getU8
    orMalformed "name trust policy tag" (NameTrustPolicy.fromTag tag))
  let groupDisplayAmplifyIsolated ← fieldSince 3 version false getFlag
  let accessPredicate ← fieldSince 3 version none getPredicate
  let messagePadding ← fieldSince 4 version none getPadding
  let vouchPolicy ← fieldSince 5 version {} getVouchPolicy
  let promotion ← fieldSince 6 version none getPromotion
  let requireAnon ← fieldSince 7 version false getFlag
  finishDescriptor
  pure { version, topology, persistence, suiteId, suiteParams, endpoints, inviteToken, channel, group, channelMarking
         nameTrustPolicy, groupDisplayAmplifyIsolated, accessPredicate, messagePadding, vouchPolicy, promotion
         requireAnon }

def get : Reader CoreError ChatDescriptor := do
  let wireVersion ← Reader.getU32
  let version := wireVersion % 2 ^ 16
  if version = 0 ∨ version > DESCRIPTOR_VERSION then throw (.unsupportedVersion version) else getFields version

def decodeBytes (bytes : Bytes) : Except CoreError ChatDescriptor := get.parse bytes

end ChatDescriptor
end Talkrypt.Core
