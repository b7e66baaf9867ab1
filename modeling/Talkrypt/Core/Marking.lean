import Talkrypt.Core.Promote
import Talkrypt.Crypto.Primitives

/-!
# Message payloads and history records (`crates/core/src/marking.rs`, `history.rs`)

The plaintext of a group message is an optional handling marking, the text, and an optional name tag. A
received or sent message is kept as a `HistoryRecord`.
-/

namespace Talkrypt.Core

/-- `CoreError`: the variants that the modelled functions return. -/
inductive CoreError where
  | malformed (what : String)
  | unsupportedVersion (version : Nat)
  | peerAuthFailed
  | crypto (e : CryptoError)
  | wire (e : WireError)
deriving Repr, DecidableEq

instance : FromWire CoreError := ⟨.wire⟩

/-- US classification levels, ordered least to most sensitive. -/
inductive Classification where
  | unclassified
  | cui
  | confidential
  | secret
  | topSecret
deriving DecidableEq, Repr

def Classification.tag : Classification → UInt8
  | .unclassified => 0
  | .cui => 1
  | .confidential => 2
  | .secret => 3
  | .topSecret => 4

def Classification.fromTag (t : UInt8) : Except CoreError Classification :=
  if t = 0 then .ok .unclassified
  else if t = 1 then .ok .cui
  else if t = 2 then .ok .confidential
  else if t = 3 then .ok .secret
  else if t = 4 then .ok .topSecret
  else .error (.malformed "classification tag")

structure Marking where
  level : Classification
  compartments : List String
  caveats : List String
deriving DecidableEq, Repr

def MAX_MARKING_ITEMS : Nat := 256

namespace Marking

def putStrings (items : List String) : Bytes := putU32 items.length ++ putFields (items.map utf8)

def encode (m : Marking) : Bytes := putU8 m.level.tag ++ putStrings m.compartments ++ putStrings m.caveats

def getStrings : Nat → Reader CoreError (List String)
  | 0 => pure []
  | n + 1 => do
    let item ← Reader.getBytes
    match fromUtf8 item with
    | none => throw (.malformed "marking item utf-8")
    | some item =>
      let items ← getStrings n
      pure (item :: items)

def readStrings : Reader CoreError (List String) := do
  let n ← Reader.getU32
  if n > MAX_MARKING_ITEMS then throw (.malformed "too many marking items") else getStrings n

def read : Reader CoreError Marking := do
  let tag ← Reader.getU8
  let level ← liftM (Classification.fromTag tag)
  let compartments ← readStrings
  let caveats ← readStrings
  pure { level, compartments, caveats }

def decode (bytes : Bytes) : Except CoreError Marking :=
  match read bytes with
  | .error e => .error e
  | .ok (m, []) => .ok m
  | .ok (_, _ :: _) => .error (.malformed "trailing marking bytes")

def putOpt : Option Marking → Bytes
  | some m => putU8 1 ++ putBytes m.encode
  | none => putU8 0

def getOpt : Reader CoreError (Option Marking) := do
  let flag ← Reader.getU8
  if flag = 0 then pure none
  else if flag = 1 then
    let bytes ← Reader.getBytes
    let m ← liftM (decode bytes)
    pure (some m)
  else throw (.malformed "optional marking flag")

end Marking

/-! ## Payloads -/

def encodePayloadTagged (marking : Option Marking) (text : String) (nameTag : Option (ByteArr 8)) : Bytes :=
  Marking.putOpt marking ++ putBytes (utf8 text) ++
    match nameTag with
    | none => []
    | some t => putBytes t.1

def encodePayload (marking : Option Marking) (text : String) : Bytes := encodePayloadTagged marking text none

def getNameTag : Reader Unit (Option (ByteArr 8)) := do
  let left ← Reader.remaining
  if left > 0 then
    let t ← getArr 8
    pure (some t)
  else pure none

def orNone {α : Type} (r : Reader CoreError α) : Reader Unit α := fun buf =>
  match r buf with
  | .error _ => .error ()
  | .ok res => .ok res

def getPayloadTagged : Reader Unit (Option Marking × String × Option (ByteArr 8)) := do
  let marking ← orNone Marking.getOpt
  let text ← Reader.getBytes
  match fromUtf8 text with
  | none => throw ()
  | some text =>
    let nameTag ← getNameTag
    Reader.finish
    pure (marking, text, nameTag)

def decodePayloadTagged (bytes : Bytes) : Option (Option Marking × String × Option (ByteArr 8)) :=
  (Reader.parse getPayloadTagged bytes).toOption

/-! ## History -/

structure HistoryRecord where
  /-- The sender (our own fingerprint for outgoing messages). -/
  sender : Fingerprint
  /-- Unix seconds when this node sent or received the message. -/
  ts : Nat
  text : String
  marking : Option Marking

def HistoryRecord.encode (r : HistoryRecord) : Bytes :=
  putBytes r.sender.1 ++ putU64 r.ts ++ putBytes (encodePayload r.marking r.text)

end Talkrypt.Core
