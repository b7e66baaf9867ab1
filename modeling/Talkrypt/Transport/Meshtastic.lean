import Talkrypt.Lib.Varint

/-!
# Mesh packets (`mesh/meshtastic.rs`, `mesh/mqtt.rs`)

A hand-written protobuf codec for the few fields in use. A message is a sequence of fields, each a tag, which is a varint
of the field number and a wire type, and a value. The parsers go through the fields and keep the last value of each
field that they know, so unknown fields make no difference wherever they are (`packet_recovered`).
-/

namespace Talkrypt.Mesh

def PRIVATE_APP : Nat := 256
def BROADCAST : Nat := 0xffffffff

/-! ## Writing -/

def leBytes (w n : Nat) : Bytes := (beBytes w n).reverse

def putTag (field wire : Nat) : Bytes := Varint.put ((field <<< 3) % 2 ^ 32 ||| wire)

def putLenDelim (field : Nat) (bytes : Bytes) : Bytes := putTag field 2 ++ Varint.put bytes.length ++ bytes

def putVarintField (field v : Nat) : Bytes := putTag field 0 ++ Varint.put v

def putFixed32Field (field v : Nat) : Bytes := putTag field 5 ++ leBytes 4 v

def encodeMeshpacket (channel : UInt8) (payload : Bytes) : Bytes :=
  let data := putVarintField 1 PRIVATE_APP ++ putLenDelim 2 payload
  putFixed32Field 2 BROADCAST ++ putVarintField 3 channel.toNat ++ putLenDelim 4 data

def encodeServiceEnvelope (channelId gatewayId : String) (meshpacket : Bytes) : Bytes :=
  putLenDelim 1 meshpacket ++ putLenDelim 2 (utf8 channelId) ++ putLenDelim 3 (utf8 gatewayId)

/-! ## Reading -/

inductive Field where
  | varint (num v : Nat)
  | fixed32 (num v : Nat)
  | bytes (num : Nat) (b : Bytes)
deriving DecidableEq

def readValue (field wire : Nat) (buf : Bytes) : Option (Option Field × Bytes) :=
  match wire with
  | 0 => do
    let (v, buf) ← Varint.get buf
    some (some (.varint field v), buf)
  | 5 => if buf.length < 4 then none else some (some (.fixed32 field (beNat (buf.take 4).reverse)), buf.drop 4)
  -- a fixed64 is skipped
  | 1 => if buf.length < 8 then none else some (none, buf.drop 8)
  | 2 => do
    let (len, buf) ← Varint.get buf
    if buf.length < len then none else some (some (.bytes field (buf.take len)), buf.drop len)
  | _ => none

/-- One field off the front, or the end of what can be read. -/
def nextField (buf : Bytes) : Option (Option Field × Bytes) := do
  let (tag, buf) ← Varint.get buf
  readValue (tag / 8 % 2 ^ 32) (tag % 8) buf

/-- The fields that `each_field` hands out, in order. -/
def eachFieldFrom : Nat → Bytes → List Field
  | 0, _ => []
  | _, [] => []
  | fuel + 1, buf =>
    match nextField buf with
    | none => []
    | some (f, rest) => f.toList ++ eachFieldFrom fuel rest

def eachField (buf : Bytes) : List Field := eachFieldFrom buf.length buf

structure MeshtasticRx where
  channel : UInt8
  sender : Option Nat
  payload : Bytes
deriving DecidableEq

/-- What the two loops of `parse_meshpacket` collect. -/
structure PacketFields where
  sender : Option Nat := none
  channel : UInt8 := 0
  decoded : Option Bytes := none

def PacketFields.take (s : PacketFields) : Field → PacketFields
  | .fixed32 1 v => { s with sender := some v }
  | .varint 3 v => { s with channel := UInt8.ofNat v }
  | .bytes 4 b => { s with decoded := some b }
  | _ => s

structure DataFields where
  portnum : Nat := 0
  payload : Option Bytes := none

def DataFields.take (s : DataFields) : Field → DataFields
  | .varint 1 v => { s with portnum := v }
  | .bytes 2 b => { s with payload := some b }
  | _ => s

def parseMeshpacket (packet : Bytes) : Option MeshtasticRx := do
  let p := (eachField packet).foldl PacketFields.take {}
  let decoded ← p.decoded
  let d := (eachField decoded).foldl DataFields.take {}
  if d.portnum ≠ PRIVATE_APP then none
  else do
    let payload ← d.payload
    some { channel := p.channel, sender := p.sender, payload }

def parseServiceEnvelopeFrom : Nat → Bytes → Option Bytes
  | 0, _ => none
  | _, [] => none
  | fuel + 1, buf => do
    let (tag, buf) ← Varint.get buf
    match tag % 8 with
    | 0 => do
      let (_, buf) ← Varint.get buf
      parseServiceEnvelopeFrom fuel buf
    | 5 => if buf.length < 4 then none else parseServiceEnvelopeFrom fuel (buf.drop 4)
    | 1 => if buf.length < 8 then none else parseServiceEnvelopeFrom fuel (buf.drop 8)
    | 2 => do
      let (len, buf) ← Varint.get buf
      if buf.length < len then none
      else if tag / 8 = 1 then some (buf.take len)
      else parseServiceEnvelopeFrom fuel (buf.drop len)
    | _ => none

def parseServiceEnvelope (buf : Bytes) : Option Bytes := parseServiceEnvelopeFrom buf.length buf

/-! ## Well-formed fields -/

/-- The bytes are a well-formed field with this number, which the parser sees as `f`. The varints need not be the
shortest ones. -/
inductive IsField (num : Nat) : Bytes → Option Field → Prop where
  | varint {t b : Bytes} {v : Nat} : Varint.Is t (num * 8 + 0) → Varint.Is b v → IsField num (t ++ b) (some (.varint num v))
  | fixed32 {t b : Bytes} : Varint.Is t (num * 8 + 5) → b.length = 4 →
    IsField num (t ++ b) (some (.fixed32 num (beNat b.reverse)))
  | fixed64 {t b : Bytes} : Varint.Is t (num * 8 + 1) → b.length = 8 → IsField num (t ++ b) none
  | bytes {t l b : Bytes} : Varint.Is t (num * 8 + 2) → Varint.Is l b.length →
    IsField num (t ++ l ++ b) (some (.bytes num b))

structure RawField where
  num : Nat
  content : Bytes
  field : Option Field
  num_lt : num < 2 ^ 29
  wf : IsField num content field

def message (fs : List RawField) : Bytes := fs.flatMap (·.content)

theorem nextField_append {num wire : Nat} {t : Bytes} (ht : Varint.Is t (num * 8 + wire)) (hnum : num < 2 ^ 29)
    (hwire : wire < 8) (rest : Bytes) : nextField (t ++ rest) = readValue num wire rest := by
  rw [nextField, Varint.get_append ht]
  dsimp only [Option.bind_eq_bind, Option.bind_some]
  rw [show (num * 8 + wire) / 8 = num by omega, show (num * 8 + wire) % 8 = wire by omega, Nat.mod_eq_of_lt (by omega)]

theorem RawField.nextField (f : RawField) (rest : Bytes) : nextField (f.content ++ rest) = some (f.field, rest) := by
  obtain ⟨num, content, field, hnum, hwf⟩ := f
  dsimp only
  cases hwf with
  | varint ht hb =>
    rw [List.append_assoc, nextField_append ht hnum (by decide), readValue, Varint.get_append hb]
    rfl
  | fixed32 ht hb =>
    rw [List.append_assoc, nextField_append ht hnum (by decide), readValue, if_neg (by simp [hb]), ← hb, List.take_left,
      List.drop_left]
  | fixed64 ht hb =>
    rw [List.append_assoc, nextField_append ht hnum (by decide), readValue, if_neg (by simp [hb]), ← hb, List.drop_left]
  | bytes ht hl =>
    rw [List.append_assoc, List.append_assoc, nextField_append ht hnum (by decide), readValue, Varint.get_append hl]
    dsimp only [Option.bind_eq_bind, Option.bind_some]
    rw [if_neg (by simp), List.take_left, List.drop_left]

theorem RawField.content_ne_nil (f : RawField) : f.content ≠ [] := by
  intro h
  have hnext := f.nextField []
  rw [h] at hnext
  cases hnext

theorem eachField_message (fs : List RawField) : eachField (message fs) = fs.filterMap (·.field) := by
  suffices ∀ fuel, (message fs).length ≤ fuel → eachFieldFrom fuel (message fs) = fs.filterMap (·.field) from this _ le_rfl
  induction fs with
  | nil =>
    intro fuel _
    cases fuel <;> rfl
  | cons f fs ih =>
    intro fuel hfuel
    obtain ⟨b, bs, hcontent⟩ := List.exists_cons_of_ne_nil f.content_ne_nil
    rw [message, List.flatMap_cons, ← message, List.length_append, hcontent, List.length_cons] at hfuel
    obtain ⟨fuel, rfl⟩ : ∃ n, fuel = n + 1 := ⟨fuel - 1, by omega⟩
    have hnext := f.nextField (message fs)
    rw [hcontent, List.cons_append] at hnext
    rw [message, List.flatMap_cons, ← message, hcontent, List.cons_append, eachFieldFrom, hnext]
    · dsimp only
      rw [ih fuel (by omega), List.filterMap_cons]
      cases f.field <;> rfl
    · nofun

/-! ## The fields of the encoder -/

theorem is_putTag {num wire : Nat} (hnum : num < 2 ^ 29) (hwire : wire < 8) : Varint.Is (putTag num wire) (num * 8 + wire) := by
  have htag : (num <<< 3) % 2 ^ 32 ||| wire = num * 8 + wire := by
    rw [Nat.shiftLeft_eq, Nat.mod_eq_of_lt (by omega), Nat.mul_comm, ← Nat.two_pow_add_eq_or_of_lt (i := 3) (by omega)]
  rw [putTag, htag]
  exact Varint.is_put (by omega)

def RawField.ofVarint (num v : Nat) (hnum : num < 2 ^ 29) (hv : v < 2 ^ 64) : RawField where
  num := num
  content := putVarintField num v
  field := some (.varint num v)
  num_lt := hnum
  wf := .varint (is_putTag hnum (by decide)) (Varint.is_put hv)

def RawField.ofFixed32 (num v : Nat) (hnum : num < 2 ^ 29) (hv : v < 2 ^ 32) : RawField where
  num := num
  content := putFixed32Field num v
  field := some (.fixed32 num v)
  num_lt := hnum
  wf := by
    have h : IsField num (putFixed32Field num v) (some (.fixed32 num (beNat (leBytes 4 v).reverse))) :=
      .fixed32 (is_putTag hnum (by decide)) (by rw [leBytes, List.length_reverse, beBytes_length])
    rwa [leBytes, List.reverse_reverse, beNat_beBytes_of_lt (by omega)] at h

def RawField.ofBytes (num : Nat) (b : Bytes) (hnum : num < 2 ^ 29) (hb : b.length < 2 ^ 64) : RawField where
  num := num
  content := putLenDelim num b
  field := some (.bytes num b)
  num_lt := hnum
  wf := .bytes (is_putTag hnum (by decide)) (Varint.is_put hb)

def dataWith (payload : Bytes) (v₀ v₁ v₂ : List RawField) : Bytes :=
  message v₀ ++ putVarintField 1 PRIVATE_APP ++ message v₁ ++ putLenDelim 2 payload ++ message v₂

/-- The packet of `encode_meshpacket` with other fields at the boundaries of its own, and in its data. -/
def packetWith (channel : UInt8) (payload : Bytes) (u₀ u₁ u₂ u₃ v₀ v₁ v₂ : List RawField) : Bytes :=
  message u₀ ++ putFixed32Field 2 BROADCAST ++ message u₁ ++ putVarintField 3 channel.toNat ++ message u₂ ++
    putLenDelim 4 (dataWith payload v₀ v₁ v₂) ++ message u₃

theorem packetWith_nil (channel : UInt8) (payload : Bytes) :
    packetWith channel payload [] [] [] [] [] [] [] = encodeMeshpacket channel payload := by
  simp [packetWith, dataWith, encodeMeshpacket, message]

theorem message_append (fs gs : List RawField) : message (fs ++ gs) = message fs ++ message gs := List.flatMap_append

theorem message_singleton (f : RawField) : message [f] = f.content := List.append_nil _

def NotPacket (f : RawField) : Prop := f.num ≠ 1 ∧ f.num ≠ 3 ∧ f.num ≠ 4

def NotData (f : RawField) : Prop := f.num ≠ 1 ∧ f.num ≠ 2

def Field.num : Field → Nat
  | .varint num _ | .fixed32 num _ | .bytes num _ => num

theorem IsField.num_eq {num : Nat} {b : Bytes} {o : Option Field} (h : IsField num b o) : ∀ x, o = some x → x.num = num := by
  cases h <;> simp [Field.num]

theorem PacketFields.take_unknown {f : RawField} (hf : NotPacket f) {x : Field} (hx : f.field = some x) (s : PacketFields) :
    s.take x = s := by
  rw [NotPacket, ← f.wf.num_eq x hx] at hf
  cases x <;> (unfold take; split <;> simp_all [Field.num])

theorem DataFields.take_unknown {f : RawField} (hf : NotData f) {x : Field} (hx : f.field = some x) (s : DataFields) :
    s.take x = s := by
  rw [NotData, ← f.wf.num_eq x hx] at hf
  cases x <;> (unfold take; split <;> simp_all [Field.num])

theorem foldl_unknown {σ : Type} {take : σ → Field → σ} {u : List RawField}
    (hu : ∀ f ∈ u, ∀ x, f.field = some x → ∀ s, take s x = s) (s : σ) : (u.filterMap (·.field)).foldl take s = s := by
  induction u with
  | nil => rfl
  | cons f u ih =>
    obtain ⟨hf, hu⟩ := List.forall_mem_cons.mp hu
    rw [List.filterMap_cons]
    cases hfield : f.field with
    | none => exact ih hu
    | some x =>
      dsimp only
      rw [List.foldl_cons, hf x hfield, ih hu]

theorem eachField_data {payload : Bytes} {v₀ v₁ v₂ : List RawField} (hpayload : payload.length < 2 ^ 64)
    (hv : ∀ f ∈ v₀ ++ v₁ ++ v₂, NotData f) :
    (eachField (dataWith payload v₀ v₁ v₂)).foldl DataFields.take {} = ⟨PRIVATE_APP, some payload⟩ := by
  have hskip {v : List RawField} (h : ∀ f ∈ v, NotData f) (s : DataFields) :
      (v.filterMap (·.field)).foldl DataFields.take s = s :=
    foldl_unknown (fun f hf x hx s => s.take_unknown (h f hf) hx) s
  simp only [List.forall_mem_append] at hv
  have hmessage : dataWith payload v₀ v₁ v₂ =
      message (v₀ ++ [.ofVarint 1 PRIVATE_APP (by decide) (by decide)] ++ v₁ ++ [.ofBytes 2 payload (by decide) hpayload] ++ v₂) := by
    simp only [message_append, message_singleton]
    rfl
  rw [hmessage, eachField_message]
  simp only [List.filterMap_append, List.foldl_append, hskip hv.1.1, hskip hv.1.2, hskip hv.2]
  rfl

theorem eachField_packet {channel : UInt8} {data : Bytes} {u₀ u₁ u₂ u₃ : List RawField} (hdata : data.length < 2 ^ 64)
    (hu : ∀ f ∈ u₀ ++ u₁ ++ u₂ ++ u₃, NotPacket f) :
    (eachField (message u₀ ++ putFixed32Field 2 BROADCAST ++ message u₁ ++ putVarintField 3 channel.toNat ++ message u₂ ++
      putLenDelim 4 data ++ message u₃)).foldl PacketFields.take {} = ⟨none, channel, some data⟩ := by
  have hskip {v : List RawField} (h : ∀ f ∈ v, NotPacket f) (s : PacketFields) :
      (v.filterMap (·.field)).foldl PacketFields.take s = s :=
    foldl_unknown (fun f hf x hx s => s.take_unknown (h f hf) hx) s
  simp only [List.forall_mem_append] at hu
  have hchannel : channel.toNat < 2 ^ 64 := channel.toNat_lt.trans (by decide)
  have hmessage : message u₀ ++ putFixed32Field 2 BROADCAST ++ message u₁ ++ putVarintField 3 channel.toNat ++ message u₂ ++
      putLenDelim 4 data ++ message u₃ =
      message (u₀ ++ [.ofFixed32 2 BROADCAST (by decide) (by decide)] ++ u₁ ++ [.ofVarint 3 channel.toNat (by decide) hchannel] ++
        u₂ ++ [.ofBytes 4 data (by decide) hdata] ++ u₃) := by
    simp only [message_append, message_singleton]
    rfl
  rw [hmessage, eachField_message]
  simp only [List.filterMap_append, List.foldl_append, hskip hu.1.1.1, hskip hu.1.1.2, hskip hu.1.2, hskip hu.2]
  simp [RawField.ofFixed32, RawField.ofVarint, RawField.ofBytes, PacketFields.take]

theorem parseServiceEnvelope_encode {packet : Bytes} (h : packet.length < 2 ^ 64) (channelId gatewayId : String) :
    parseServiceEnvelope (encodeServiceEnvelope channelId gatewayId packet) = some packet := by
  obtain ⟨rest, hrest⟩ : ∃ rest, encodeServiceEnvelope channelId gatewayId packet =
      putTag 1 2 ++ (Varint.put packet.length ++ (packet ++ rest)) :=
    ⟨putLenDelim 2 (utf8 channelId) ++ putLenDelim 3 (utf8 gatewayId), by
      rw [encodeServiceEnvelope, putLenDelim]
      simp only [List.append_assoc]⟩
  have htag := Varint.get_append (is_putTag (show 1 < 2 ^ 29 by decide) (show 2 < 8 by decide))
    (Varint.put packet.length ++ (packet ++ rest))
  rw [hrest, parseServiceEnvelope]
  generalize putTag 1 2 ++ (Varint.put packet.length ++ (packet ++ rest)) = buf at htag
  cases buf with
  | nil => cases htag
  | cons b bs =>
    rw [List.length_cons, parseServiceEnvelopeFrom, htag]
    · simp only [Option.bind_eq_bind, Option.bind_some, Varint.get_append (Varint.is_put h), List.take_left]
      exact if_neg (by simp)
    · nofun

/-- The packet of `encode_meshpacket` is parsed to what was put in, also out of a service envelope and with any other
well-formed fields at any field boundaries of the packet and of its data. -/
theorem packet_recovered (channel : UInt8) (payload : Bytes) (channelId gatewayId : String)
    (u₀ u₁ u₂ u₃ v₀ v₁ v₂ : List RawField) (hu : ∀ f ∈ u₀ ++ u₁ ++ u₂ ++ u₃, NotPacket f)
    (hv : ∀ f ∈ v₀ ++ v₁ ++ v₂, NotData f) (hlen : (packetWith channel payload u₀ u₁ u₂ u₃ v₀ v₁ v₂).length < 2 ^ 64) :
    packetWith channel payload [] [] [] [] [] [] [] = encodeMeshpacket channel payload ∧
    parseMeshpacket (packetWith channel payload u₀ u₁ u₂ u₃ v₀ v₁ v₂) = some ⟨channel, none, payload⟩ ∧
    (parseServiceEnvelope (encodeServiceEnvelope channelId gatewayId (packetWith channel payload u₀ u₁ u₂ u₃ v₀ v₁ v₂))).bind
      parseMeshpacket = some ⟨channel, none, payload⟩ := by
  have hdata : (dataWith payload v₀ v₁ v₂).length < 2 ^ 64 := by
    simp only [packetWith, putLenDelim, List.length_append] at hlen
    omega
  have hpayload : payload.length < 2 ^ 64 := by
    simp only [dataWith, putLenDelim, List.length_append] at hdata
    omega
  have hparse : parseMeshpacket (packetWith channel payload u₀ u₁ u₂ u₃ v₀ v₁ v₂) = some ⟨channel, none, payload⟩ := by
    rw [parseMeshpacket, packetWith, eachField_packet hdata hu]
    dsimp only [Option.bind_eq_bind, Option.bind_some]
    rw [eachField_data hpayload hv]
    rfl
  exact ⟨packetWith_nil channel payload, hparse, by rw [parseServiceEnvelope_encode hlen, Option.bind_some, hparse]⟩

/-- A packet with an unknown fixed64 in front. -/
theorem packet_recovered_after_unknown : parseMeshpacket
    (putTag 9 1 ++ List.replicate 8 0 ++ encodeMeshpacket 3 [7, 7]) = some ⟨3, none, [7, 7]⟩ := by
  let f : RawField := ⟨9, putTag 9 1 ++ List.replicate 8 0, none, by decide, .fixed64 (is_putTag (by decide) (by decide)) rfl⟩
  have h := (packet_recovered 3 [7, 7] "" "" [f] [] [] [] [] [] [] (by simp [NotPacket, f]) (by simp) (by decide)).2.1
  exact h

end Talkrypt.Mesh
