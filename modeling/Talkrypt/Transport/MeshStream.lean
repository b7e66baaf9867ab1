import Talkrypt.Lib.Slots
import Talkrypt.Lib.Table
import Talkrypt.Transport.Frag

/-! The packets of the mesh transport and the two halves of a stream that work on them alone: how a frame
is cut into segments, and how the reader puts segments together again. The reader keeps one row of slots
for each message number it is collecting and forgets the row once it is full. -/

namespace Talkrypt
namespace MeshTransport

open Mesh (chunksOf fromBeBytes toBeBytes fromBeBytes_toBeBytes)

def MAGIC0 : UInt8 := 0xA7
def MAGIC1 : UInt8 := 0x74
def VERSION : UInt8 := 1
def HEADER_LEN : Nat := 18

def T_SYN : UInt8 := 0
def T_SYN_ACK : UInt8 := 1
def T_DATA : UInt8 := 2
def T_DATA_ACK : UInt8 := 3

def MAX_SEGMENTS : UInt16 := 4096

/-- What the demultiplexer hands to a connection. -/
structure InPkt where
  typ : UInt8
  msgSeq : UInt16
  fragIdx : UInt16
  fragCnt : UInt16
  payload : Bytes
deriving DecidableEq, Repr

structure Packet extends InPkt where
  connId : UInt64
deriving DecidableEq, Repr

def parsePacket : Bytes → Option Packet
  | b0 :: b1 :: b2 :: typ :: c0 :: c1 :: c2 :: c3 :: c4 :: c5 :: c6 :: c7 ::
      s0 :: s1 :: i0 :: i1 :: n0 :: n1 :: payload =>
    if b0 ≠ MAGIC0 ∨ b1 ≠ MAGIC1 ∨ b2 ≠ VERSION then none
    else some {
      typ
      connId := UInt64.ofNat (beNat [c0, c1, c2, c3, c4, c5, c6, c7])
      msgSeq := fromBeBytes s0 s1
      fragIdx := fromBeBytes i0 i1
      fragCnt := fromBeBytes n0 n1
      payload }
  -- fewer than `HEADER_LEN` bytes
  | _ => none

def putHeader (typ : UInt8) (connId : UInt64) (msgSeq fragIdx fragCnt : UInt16) : Bytes :=
  MAGIC0 :: MAGIC1 :: VERSION :: typ ::
    (beBytes 8 connId.toNat ++ toBeBytes msgSeq ++ toBeBytes fragIdx ++ toBeBytes fragCnt)

def encodeCtrl (typ : UInt8) (connId : UInt64) (msgSeq fragIdx : UInt16) : Bytes :=
  putHeader typ connId msgSeq fragIdx 0

def encodeData (connId : UInt64) (msgSeq fragIdx fragCnt : UInt16) (seg : Bytes) : Bytes :=
  putHeader T_DATA connId msgSeq fragIdx fragCnt ++ seg

theorem parsePacket_putHeader (typ : UInt8) (connId : UInt64) (msgSeq fragIdx fragCnt : UInt16)
    (payload : Bytes) :
    parsePacket (putHeader typ connId msgSeq fragIdx fragCnt ++ payload) =
      some { typ, connId, msgSeq, fragIdx, fragCnt, payload } := by
  have hid : UInt64.ofNat (beNat (beBytes 8 connId.toNat)) = connId := by
    rw [beNat_beBytes_of_lt connId.toNat_lt, UInt64.ofNat_toNat]
  obtain ⟨c0, c1, c2, c3, c4, c5, c6, c7, hbytes⟩ : ∃ c0 c1 c2 c3 c4 c5 c6 c7,
      beBytes 8 connId.toNat = [c0, c1, c2, c3, c4, c5, c6, c7] := ⟨_, _, _, _, _, _, _, _, rfl⟩
  rw [hbytes] at hid
  simp only [putHeader, hbytes, toBeBytes, List.cons_append, List.nil_append, parsePacket, ne_eq,
    not_true_eq_false, or_self, if_false, fromBeBytes_toBeBytes, hid]

theorem parsePacket_encodeData (connId : UInt64) (msgSeq fragIdx fragCnt : UInt16) (seg : Bytes) :
    parsePacket (encodeData connId msgSeq fragIdx fragCnt seg) =
      some { typ := T_DATA, connId, msgSeq, fragIdx, fragCnt, payload := seg } :=
  parsePacket_putHeader _ _ _ _ _ _

theorem parsePacket_encodeCtrl (typ : UInt8) (connId : UInt64) (msgSeq fragIdx : UInt16) :
    parsePacket (encodeCtrl typ connId msgSeq fragIdx) =
      some { typ, connId, msgSeq, fragIdx, fragCnt := 0, payload := [] } := by
  rw [encodeCtrl, ← List.append_nil (putHeader _ _ _ _ _), parsePacket_putHeader]

def putLabel (ep : Bytes) : Bytes := UInt8.ofNat (min ep.length 255) :: ep.take 255

def encodeSyn (connId : UInt64) (srcEp dstEp : Bytes) : Bytes :=
  putHeader T_SYN connId 0 0 0 ++ (putLabel srcEp ++ putLabel dstEp)

theorem parsePacket_encodeSyn (connId : UInt64) (srcEp dstEp : Bytes) :
    parsePacket (encodeSyn connId srcEp dstEp) =
      some { typ := T_SYN, connId, msgSeq := 0, fragIdx := 0, fragCnt := 0,
             payload := putLabel srcEp ++ putLabel dstEp } :=
  parsePacket_putHeader _ _ _ _ _ _

def getLabel : Bytes → Option (Bytes × Bytes)
  | [] => none
  | len :: rest => if len.toNat ≤ rest.length then some (rest.take len.toNat, rest.drop len.toNat) else none

def parseSynEps (payload : Bytes) : Option (Bytes × Bytes) :=
  (getLabel payload).bind fun (src, rest) => (getLabel rest).map fun (dst, _) => (src, dst)

/-! ### The demultiplexer -/

/-- What the demultiplexer does with a packet of its channel. -/
inductive Route
  | ignore
  | syn (p : Packet)
  /-- The acknowledgement is sent first, then the packet goes to the connection's reader. -/
  | data (reply : Bytes) (p : Packet)
  | ack (p : Packet)

/-- The demultiplexer's choice; `known` says which connections it has. -/
def route (known : UInt64 → Bool) (payload : Bytes) : Route :=
  match parsePacket payload with
  | none => .ignore
  | some p =>
    if p.typ = T_SYN then .syn p
    else if !known p.connId then .ignore
    else if p.typ = T_DATA then .data (encodeCtrl T_DATA_ACK p.connId p.msgSeq p.fragIdx) p
    else .ack p

theorem route_spec (known : UInt64 → Bool) (payload : Bytes) :
    match route known payload with
    | .ignore => True
    | .syn p => parsePacket payload = some p ∧ p.typ = T_SYN
    | .data reply p => parsePacket payload = some p ∧ p.typ = T_DATA ∧
      reply = encodeCtrl T_DATA_ACK p.connId p.msgSeq p.fragIdx
    | .ack p => parsePacket payload = some p := by
  unfold route
  cases parsePacket payload with
  | none => trivial
  | some p =>
    dsimp only
    by_cases hsyn : p.typ = T_SYN
    · rw [if_pos hsyn]
      exact ⟨rfl, hsyn⟩
    · rw [if_neg hsyn]
      cases known p.connId with
      | false => trivial
      | true =>
        by_cases hdata : p.typ = T_DATA
        · rw [if_pos hdata]
          exact ⟨rfl, hdata, rfl⟩
        · rw [if_neg hdata]
          rfl

theorem route_encodeData {known : UInt64 → Bool} {connId : UInt64} (h : known connId = true)
    (msgSeq fragIdx fragCnt : UInt16) (seg : Bytes) :
    route known (encodeData connId msgSeq fragIdx fragCnt seg) =
      .data (encodeCtrl T_DATA_ACK connId msgSeq fragIdx)
        { typ := T_DATA, connId, msgSeq, fragIdx, fragCnt, payload := seg } := by
  simp [route, parsePacket_encodeData, h, T_SYN, T_DATA]

theorem route_encodeCtrl {known : UInt64 → Bool} {typ : UInt8} {connId : UInt64} (h : known connId = true)
    (hsyn : typ ≠ T_SYN) (hdata : typ ≠ T_DATA) (msgSeq fragIdx : UInt16) :
    route known (encodeCtrl typ connId msgSeq fragIdx) =
      .ack { typ, connId, msgSeq, fragIdx, fragCnt := 0, payload := [] } := by
  simp [route, parsePacket_encodeCtrl, h, hsyn, hdata]

/-! ### Segments of a frame -/

def segments (mtu : Nat) (frame : Bytes) : List Bytes :=
  -- an empty frame still transmits one empty segment
  if frame = [] then [[]] else chunksOf frame (max (mtu - HEADER_LEN) 1)

theorem flatten_segments (mtu : Nat) (frame : Bytes) : (segments mtu frame).flatten = frame := by
  unfold segments
  split
  · next h => simp [h]
  · exact Mesh.flatten_chunksOf _ (by omega)

theorem segments_ne_nil (mtu : Nat) (frame : Bytes) : segments mtu frame ≠ [] := by
  unfold segments
  split
  · simp
  · next h =>
    intro hnil
    have hsize : 0 < max (mtu - HEADER_LEN) 1 := by omega
    have hflat := Mesh.flatten_chunksOf frame hsize
    rw [hnil] at hflat
    exact h hflat.symm

/-- The packet, as the reader gets it, of segment `i` of a message. -/
def segmentPkt (msgSeq : UInt16) (segs : List Bytes) (i : Nat) (seg : Bytes) : InPkt :=
  { typ := T_DATA, msgSeq, fragIdx := UInt16.ofNat i, fragCnt := UInt16.ofNat segs.length, payload := seg }

/-! ### The reader -/

structure MeshReader where
  reasm : Table UInt16 (List (Option Bytes) × Nat)

namespace MeshReader

def new : MeshReader := ⟨∅⟩

/-- One turn of the loop of `recv_one`: the packet is taken in, and a message it completes is given out. -/
def push (r : MeshReader) (p : InPkt) : MeshReader × Option Bytes :=
  if p.typ ≠ T_DATA ∨ p.fragCnt = 0 ∨ p.fragCnt > MAX_SEGMENTS then (r, none)
  else
    let cnt := p.fragCnt.toNat
    let idx := p.fragIdx.toNat
    if idx ≥ cnt then (r, none)
    else
      let entry := (r.reasm.lookup p.msgSeq).getD (List.replicate cnt none, 0)
      -- an inconsistent count for this message is ignored
      if entry.1.length ≠ cnt then (⟨r.reasm.insert p.msgSeq entry⟩, none)
      else
        let entry :=
          if entry.1[idx]? = some none then (entry.1.set idx (some p.payload), entry.2 + 1) else entry
        if entry.2 = cnt then (⟨r.reasm.erase p.msgSeq⟩, some (entry.1.flatMap (·.getD [])))
        else (⟨r.reasm.insert p.msgSeq entry⟩, none)

/-- `recv_one` on the packets queued so far; `none` when it waits for more. -/
def recvOne (r : MeshReader) : List InPkt → Option (Bytes × MeshReader × List InPkt)
  | [] => none
  | p :: queue =>
    match r.push p with
    | (r', some frame) => some (frame, r', queue)
    | (r', none) => r'.recvOne queue

/-- Calls of `recv_frame`, one after the other, return these frames and the next call waits. -/
def Returns : MeshReader → List InPkt → List Bytes → Prop
  | r, queue, [] => r.recvOne queue = none
  | r, queue, frame :: frames =>
    ∃ r' queue', r.recvOne queue = some (frame, r', queue') ∧ Returns r' queue' frames

/-- The reader after a list of packets, with all it gave out on the way. -/
def feed (r : MeshReader) : List InPkt → MeshReader × List Bytes
  | [] => (r, [])
  | p :: queue => (((r.push p).1.feed queue).1, (r.push p).2.toList ++ ((r.push p).1.feed queue).2)

theorem feed_append (r : MeshReader) (ps qs : List InPkt) :
    r.feed (ps ++ qs) = (((r.feed ps).1.feed qs).1, (r.feed ps).2 ++ ((r.feed ps).1.feed qs).2) := by
  induction ps generalizing r with
  | nil => rfl
  | cons p ps ih => simp only [List.cons_append, feed, ih, List.append_assoc]

theorem feed_concat (r : MeshReader) (ps : List InPkt) (p : InPkt) :
    r.feed (ps ++ [p]) = (((r.feed ps).1.push p).1, (r.feed ps).2 ++ ((r.feed ps).1.push p).2.toList) := by
  rw [feed_append, feed, feed, List.append_nil]

theorem returns_feed (r : MeshReader) (queue : List InPkt) : r.Returns queue (r.feed queue).2 := by
  induction queue generalizing r with
  | nil => rfl
  | cons p queue ih =>
    have hrest := ih (r.push p).1
    cases hp : r.push p with
    | mk r' out =>
    rw [hp] at hrest
    cases out with
    | some frame =>
      rw [feed, hp]
      exact ⟨r', queue, by rw [recvOne, hp], hrest⟩
    | none =>
      -- the loop goes on with the next packet
      have hloop : r.recvOne (p :: queue) = r'.recvOne queue := by rw [recvOne, hp]
      rw [feed, hp]
      dsimp only [Option.toList_none, List.nil_append]
      cases hout : (r'.feed queue).2 with
      | nil =>
        rw [hout] at hrest
        exact hloop.trans hrest
      | cons frame frames =>
        rw [hout] at hrest
        obtain ⟨r'', queue', hrecv, hframes⟩ := hrest
        exact ⟨r'', queue', hloop.trans hrecv, hframes⟩

variable {r : MeshReader} {p : InPkt} {msgSeq : UInt16} {segs : List Bytes} {xs : List (Option Bytes)}
  {i : Nat} {seg : Bytes}

theorem push_of_large (h : MAX_SEGMENTS < p.fragCnt) : r.push p = (r, none) := by
  rw [push, if_pos (.inr (.inr h))]

/-- The reader is collecting one message, numbered `msgSeq`, into the slots `xs`, and nothing else. -/
def Collects (r : MeshReader) (msgSeq : UInt16) (xs : List (Option Bytes)) : Prop :=
  ∀ seq, r.reasm.lookup seq =
    if seq = msgSeq ∧ 0 < Slots.filled xs then some (xs, Slots.filled xs) else none

def Empty (r : MeshReader) : Prop := ∀ seq, r.reasm.lookup seq = none

theorem Empty.collects (h : r.Empty) (msgSeq : UInt16) (n : Nat) :
    r.Collects msgSeq (List.replicate n none) := by
  intro seq
  have hfilled : Slots.filled (List.replicate n (none : Option Bytes)) = 0 := Slots.weight_replicate n
  rw [h seq, hfilled, if_neg (by simp)]

theorem Collects.getD (h : r.Collects msgSeq xs) :
    (r.reasm.lookup msgSeq).getD (List.replicate xs.length none, 0) = (xs, Slots.filled xs) := by
  rw [h msgSeq]
  split
  · rfl
  · next hnone =>
    have hzero : Slots.filled xs = 0 := by
      by_contra hpos
      exact hnone ⟨rfl, Nat.pos_of_ne_zero hpos⟩
    rw [Option.getD_none, hzero, ← Slots.eq_replicate_of_filled_eq_zero hzero]

section
variable (hcol : r.Collects msgSeq xs) (hwithin : Slots.Within xs segs)
  (hsmall : segs.length ≤ MAX_SEGMENTS.toNat) (hseg : segs[i]? = some seg)
include hcol hwithin hsmall hseg

theorem push_segmentPkt :
    r.push (segmentPkt msgSeq segs i seg) =
      let entry := if xs[i]? = some none then (xs.set i (some seg), Slots.filled xs + 1)
        else (xs, Slots.filled xs)
      if entry.2 = segs.length then (⟨r.reasm.erase msgSeq⟩, some (entry.1.flatMap (·.getD [])))
      else (⟨r.reasm.insert msgSeq entry⟩, none) := by
  have hi : i < segs.length := (List.getElem?_eq_some_iff.mp hseg).1
  have hmax : MAX_SEGMENTS.toNat = 4096 := rfl
  have hcnt : (UInt16.ofNat segs.length).toNat = segs.length := by
    rw [UInt16.toNat_ofNat', Nat.mod_eq_of_lt (by omega)]
  have hidx : (UInt16.ofNat i).toNat = i := by
    rw [UInt16.toNat_ofNat', Nat.mod_eq_of_lt (by omega)]
  have hzero : UInt16.ofNat segs.length ≠ 0 := by
    intro h0
    rw [h0] at hcnt
    simp at hcnt
    omega
  have hle : ¬ UInt16.ofNat segs.length > MAX_SEGMENTS := by
    rw [gt_iff_lt, UInt16.lt_iff_toNat_lt, hcnt]
    omega
  have hrow := hcol.getD
  rw [hwithin.length_eq] at hrow
  simp only [push, segmentPkt, ne_eq, not_true_eq_false, hzero, hle, or_self, if_false, hcnt, hidx,
    not_le.mpr hi, hrow, hwithin.length_eq]

theorem push_of_held (hheld : xs[i]? ≠ some none) (hfull : Slots.filled xs ≠ segs.length)
    (hpos : 0 < Slots.filled xs) :
    (r.push (segmentPkt msgSeq segs i seg)).2 = none ∧
      (r.push (segmentPkt msgSeq segs i seg)).1.Collects msgSeq xs := by
  rw [push_segmentPkt hcol hwithin hsmall hseg]
  simp only [if_neg hheld, if_neg hfull, true_and]
  intro seq
  rw [Table.lookup_insert_eq, hcol seq]
  by_cases hseq : seq = msgSeq
  · subst hseq
    simp [hpos]
  · simp [hseq]

theorem push_of_missing (hmiss : xs[i]? = some none) (hfull : Slots.filled xs + 1 ≠ segs.length) :
    (r.push (segmentPkt msgSeq segs i seg)).2 = none ∧
      (r.push (segmentPkt msgSeq segs i seg)).1.Collects msgSeq (xs.set i (some seg)) := by
  have hfilled : Slots.filled (xs.set i (some seg)) = Slots.filled xs + 1 := Slots.weight_set hmiss
  rw [push_segmentPkt hcol hwithin hsmall hseg]
  simp only [if_pos hmiss, if_neg hfull, true_and]
  intro seq
  rw [Table.lookup_insert_eq, hcol seq, hfilled]
  by_cases hseq : seq = msgSeq
  · subst hseq
    simp
  · simp [hseq]

theorem push_of_last (hmiss : xs[i]? = some none) (hfull : Slots.filled xs + 1 = segs.length) :
    (r.push (segmentPkt msgSeq segs i seg)).2 = some segs.flatten ∧
      (r.push (segmentPkt msgSeq segs i seg)).1.Empty := by
  have hfilled : Slots.filled (xs.set i (some seg)) = segs.length := by
    rw [← hfull]
    exact Slots.weight_set hmiss
  have hall := (hwithin.set hseg).eq_map_some_of_filled hfilled
  rw [push_segmentPkt hcol hwithin hsmall hseg]
  simp only [if_pos hmiss, if_pos hfull]
  constructor
  · rw [hall, List.flatMap_map]
    simp [List.flatMap_id']
  · intro seq
    rw [Table.lookup_erase_eq, hcol seq]
    by_cases hseq : seq = msgSeq <;> simp [hseq]

end

end MeshReader

end MeshTransport
end Talkrypt
