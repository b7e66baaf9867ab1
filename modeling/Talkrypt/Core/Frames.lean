import Talkrypt.Lib.Codec
import Talkrypt.Core.Marking

/-!
# Engine frames on the wire (`Frame::encode`, `Frame::decode`)

A frame is a tag and the fields of its variant. The decoders of the lists have caps on the number of
entries that the encoders do not have, and every field has the limit `MAX_FRAME`. A frame survives the wire
exactly if it keeps within all of them (`WireFrame.decode_encode_iff`); two frames never share an encoding,
whatever the caps say (`WireFrame.encode_inj`).
-/

namespace Talkrypt.Core

/-! ## Field readers -/

theorem reads_arr {n : Nat} (hn : n ≤ MAX_FRAME) :
    Reads (getArr n) (fun a => putBytes a.1) (fun _ => True) := by
  refine .intro (fun _ rest => getArr_putBytes hn _ rest) fun {a s t} h => ⟨?_, trivial⟩
  obtain ⟨v, u, hv, hk⟩ := Reader.bind_eq_ok.mp h
  obtain ⟨hs, -⟩ := Reader.getBytes_eq_ok hv
  split at hk
  · cases hk
    exact hs
  · cases hk

def getText : Reader Unit String := readChecked Reader.getBytes fromUtf8 ()

/-- Read a count, refuse it above the cap, and read as many values. -/
def getCapped {α : Type} (cap : Nat) (r : Reader Unit α) : Reader Unit (List α) := do
  let n ← Reader.getU32
  if n > cap then throw () else readMany r n

/-! ## Markings -/

theorem Classification.fromTag_eq_ok {t : UInt8} {c : Classification} : fromTag t = .ok c ↔ t = c.tag := by
  constructor
  · intro h
    unfold fromTag at h
    split_ifs at h
    all_goals
      cases h
      assumption
  · rintro rfl
    cases c <;> rfl

namespace Marking

def FitsStrings (items : List String) : Prop :=
  items.length ≤ MAX_MARKING_ITEMS ∧ ∀ item ∈ items, (utf8 item).length ≤ MAX_FRAME

theorem getStrings_eq (n : Nat) : getStrings n = readMany (readChecked Reader.getBytes fromUtf8
    (.malformed "marking item utf-8")) n := by
  induction n with
  | zero => rfl
  | succ n ih =>
    rw [getStrings, readMany, ← ih]
    exact bind_eq_readChecked _ (fun _ h => by rw [h]) fun _ _ h => by rw [h]

theorem putStrings_eq (items : List String) : putStrings items = putCounted (fun i => putBytes (utf8 i)) items := by
  rw [putStrings, putFields, List.flatMap_map]
  rfl

theorem reads_strings : Reads readStrings putStrings FitsStrings := by
  rw [funext putStrings_eq]
  exact reads_capped reads_u32 reads_text getStrings_eq (by decide)

/-- A marking within the limits of its decoder. -/
structure Fits (m : Marking) : Prop where
  compartments : FitsStrings m.compartments
  caveats : FitsStrings m.caveats

theorem reads_read : Reads read encode Fits := by
  refine (Codec.seq₂ (π := level) (reads_tag Classification.fromTag_eq_ok) fun level _ =>
    .seq (π := compartments) reads_strings fun compartments _ => .seq (π := caveats) reads_strings fun caveats _ =>
      .done fun m => ?_).conv (fun m _ => ?_) fun m _ => ?_
  · cases m
    simp [and_assoc]
  · simp [encode]
  · exact ⟨fun h => ⟨h.2.1, h.2.2.1⟩, fun h => ⟨trivial, h.compartments, h.caveats, trivial⟩⟩

theorem decode_eq_ok {bytes : Bytes} {m : Marking} : decode bytes = .ok m ↔ bytes = m.encode ∧ m.Fits := by
  constructor
  · intro h
    unfold decode at h
    split at h
    · cases h
    · next hread =>
      cases h
      obtain ⟨hbytes, hfits⟩ := reads_read.accepts hread
      exact ⟨hbytes.trans (List.append_nil _), hfits⟩
    · cases h
  · rintro ⟨rfl, hfits⟩
    rw [decode, reads_read.read_nil hfits]

def FitsOpt : Option Marking → Prop
  | none => True
  | some m => m.Fits ∧ m.encode.length ≤ MAX_FRAME

theorem reads_getOpt : Reads getOpt putOpt FitsOpt := by
  have hfield : Codec True False (do let b ← Reader.getBytes; liftM (decode b) : Reader CoreError Marking)
      (fun m => putBytes m.encode) Any (fun m => m.Fits ∧ m.encode.length ≤ MAX_FRAME) := by
    refine codec_field ⟨fun hm => decode_eq_ok.mpr ⟨rfl, hm⟩, fun hs => ?_⟩ Reader.lift_iff
    obtain ⟨rfl, hm⟩ := decode_eq_ok.mp hs
    exact ⟨hm, le_rfl, fun _ => rfl⟩
  refine (codec_option reads_u8 hfield (bind_assoc ..).symm).conv (fun o _ => by cases o <;> rfl) fun o _ => ?_
  cases o with
  | none => exact iff_of_true nofun trivial
  | some m => exact ⟨fun h => h m rfl, fun h _ heq => Option.some.inj heq ▸ h⟩

theorem reads_opt : Reads (orNone getOpt) putOpt FitsOpt := by
  refine .intro (fun h rest => by rw [orNone, reads_getOpt.read h rest]) fun {o s t} h => ?_
  refine reads_getOpt.accepts ?_
  unfold orNone at h
  split at h
  · cases h
  · next hres =>
    cases h
    exact hres

end Marking

/-! ## Writings that show where they end -/

theorem putU32_selfDelimiting : SelfDelimiting putU32 (· < 2 ^ 32) := by
  intro a b s t ha hb h
  obtain ⟨hab, hst⟩ := List.append_inj h (by simp [putU32])
  exact ⟨putU32_inj ha hb hab, hst⟩

theorem putBytes_inj {a b : Bytes} (ha : a.length < 2 ^ 32) (hb : b.length < 2 ^ 32)
    (h : putBytes a = putBytes b) : a = b := by
  have happend : putBytes a ++ [] = putBytes b ++ [] := by rw [h]
  exact (putBytes_append_inj ha hb happend).1

theorem putArr_selfDelimiting {n : Nat} (hn : n < 2 ^ 32) :
    SelfDelimiting (fun a : ByteArr n => putBytes a.1) (fun _ => True) := by
  intro a b s t _ _ h
  obtain ⟨hab, hst⟩ := putBytes_append_inj (a.2.trans_lt hn) (b.2.trans_lt hn) h
  exact ⟨Subtype.ext hab, hst⟩

theorem putCounted_inj {α : Type} {put : α → Bytes} {F : α → Prop} (h : SelfDelimiting put F) {as bs : List α}
    {s t : Bytes} (hlen : as.length < 2 ^ 32) (hlen' : bs.length < 2 ^ 32) (has : ∀ a ∈ as, F a)
    (hbs : ∀ b ∈ bs, F b) (heq : putCounted put as ++ s = putCounted put bs ++ t) : as = bs ∧ s = t := by
  simp only [putCounted, List.append_assoc] at heq
  obtain ⟨hcount, hrest⟩ := putU32_selfDelimiting hlen hlen' heq
  exact h.flatMap hcount has hbs hrest

namespace Marking

def SizedStrings (items : List String) : Prop :=
  items.length < 2 ^ 32 ∧ ∀ item ∈ items, (utf8 item).length < 2 ^ 32

theorem putStrings_inj {as bs : List String} {s t : Bytes} (ha : SizedStrings as) (hb : SizedStrings bs)
    (h : putStrings as ++ s = putStrings bs ++ t) : as = bs ∧ s = t := by
  have hitem : SelfDelimiting (fun i => putBytes (utf8 i)) (fun i => (utf8 i).length < 2 ^ 32) := by
    intro a b s t ha hb h
    obtain ⟨hab, hst⟩ := putBytes_append_inj ha hb h
    exact ⟨utf8_injective hab, hst⟩
  rw [putStrings_eq, putStrings_eq] at h
  exact putCounted_inj hitem ha.1 hb.1 ha.2 hb.2 h

/-- No length of the marking is cut to 32 bits. -/
structure Sized (m : Marking) : Prop where
  compartments : SizedStrings m.compartments
  caveats : SizedStrings m.caveats
  length : m.encode.length < 2 ^ 32

theorem encode_inj {m m' : Marking} (h : m.Sized) (h' : m'.Sized) (heq : m.encode = m'.encode) : m = m' := by
  simp only [encode, List.append_assoc] at heq
  obtain ⟨htag, hrest⟩ := List.cons.inj heq
  obtain ⟨hcomp, hrest⟩ := putStrings_inj h.compartments h'.compartments hrest
  obtain ⟨hcav, -⟩ := putStrings_inj (s := []) (t := []) h.caveats h'.caveats (by simpa using hrest)
  have hlevel : m.level = m'.level := by
    have hfrom := Classification.fromTag_eq_ok.mpr htag
    rw [Classification.fromTag_eq_ok.mpr rfl] at hfrom
    exact Except.ok.inj hfrom
  cases m
  cases m'
  simp only at hlevel hcomp hcav
  rw [hlevel, hcomp, hcav]

def SizedOpt (o : Option Marking) : Prop := ∀ m, o = some m → m.Sized

theorem putOpt_inj {o o' : Option Marking} (h : SizedOpt o) (h' : SizedOpt o') (heq : putOpt o = putOpt o') :
    o = o' := by
  cases o with
  | none =>
    cases o' with
    | none => rfl
    | some m' => exact absurd (List.cons.inj heq).1 (by decide)
  | some m =>
    cases o' with
    | none => exact absurd (List.cons.inj heq).1 (by decide)
    | some m' =>
      have hbytes := putBytes_inj (h m rfl).length (h' m' rfl).length (List.cons.inj heq).2
      rw [encode_inj (h m rfl) (h' m' rfl) hbytes]

end Marking

/-! ## Frames -/

inductive WireFrame where
  | chat (channel text : String) (marking : Option Marking)
  | keyPackage (bytes : Bytes)
  | welcome (bytes : Bytes)
  | commit (fromEpoch : Nat) (bytes : Bytes)
  | groupMsg (bytes : Bytes)
  | roster (epoch : Nat) (entries : List (Nat × Fingerprint)) (sig : Bytes)
  | identity (bytes : Bytes)
  | accessDenied (reason : String)
  | revocation (bytes : Bytes)
  | leafSigCert (bytes : Bytes)
  | routeDescriptor (bytes : Bytes)
  | updateProposal (bytes : Bytes)
  | presence (bytes : Bytes)
  | promote (payload : Bytes)
  | consent (payload : Bytes)
  | promoteCommit (payload : Bytes)
  | deliveryAck (ids : List Gid)
  | mailboxPut (recipient : Fingerprint) (frame : Bytes)
  | mailboxFetch
  | queueSync (entries : List (Gid × Fingerprint))
deriving DecidableEq

def MAX_ROSTER : Nat := 100000
def MAX_ACK : Nat := 64
def MAX_SYNC : Nat := 512

def getRosterEntry : Reader Unit (Nat × Fingerprint) := do
  let leaf ← Reader.getU32
  let fp ← getArr 48
  pure (leaf, fp)

def putRosterEntry (e : Nat × Fingerprint) : Bytes := putU32 e.1 ++ putBytes e.2.1

def getSyncEntry : Reader Unit (Gid × Fingerprint) := do
  let gid ← getArr 32
  let fp ← getArr 48
  pure (gid, fp)

def putSyncEntry (e : Gid × Fingerprint) : Bytes := putBytes e.1.1 ++ putBytes e.2.1

theorem reads_roster : Reads (getCapped MAX_ROSTER getRosterEntry) (putCounted putRosterEntry)
    (fun es => es.length ≤ MAX_ROSTER ∧ ∀ e ∈ es, e.1 < 2 ^ 32 ∧ True) :=
  reads_capped reads_u32 (reads_u32.pair (reads_arr (by decide))) (fun _ => rfl) (by decide)

theorem reads_ack : Reads (getCapped MAX_ACK (getArr 32)) (putCounted fun a => putBytes a.1)
    (fun ids => ids.length ≤ MAX_ACK ∧ ∀ a ∈ ids, True) :=
  reads_capped reads_u32 (reads_arr (by decide)) (fun _ => rfl) (by decide)

theorem reads_sync : Reads (getCapped MAX_SYNC getSyncEntry) (putCounted putSyncEntry)
    (fun es => es.length ≤ MAX_SYNC ∧ ∀ e ∈ es, True ∧ True) :=
  reads_capped reads_u32 ((reads_arr (by decide)).pair (reads_arr (by decide))) (fun _ => rfl) (by decide)

def decodeDeliveryAck : Reader Unit (List Gid) := do
  let ids ← getCapped MAX_ACK (getArr 32)
  Reader.finish
  pure ids

def decodeMailboxPut : Reader Unit (Fingerprint × Bytes) := do
  let recipient ← getArr 48
  let frame ← Reader.getBytes
  Reader.finish
  pure (recipient, frame)

def decodeQueueSync : Reader Unit (List (Gid × Fingerprint)) := do
  let entries ← getCapped MAX_SYNC getSyncEntry
  Reader.finish
  pure entries

namespace WireFrame

def tag : WireFrame → UInt8
  | chat .. => 0
  | keyPackage _ => 1
  | welcome _ => 2
  | commit .. => 3
  | groupMsg _ => 4
  | roster .. => 5
  | identity _ => 6
  | accessDenied _ => 7
  | revocation _ => 8
  | leafSigCert _ => 9
  | routeDescriptor _ => 10
  | updateProposal _ => 11
  | presence _ => 12
  | promote _ => 13
  | consent _ => 14
  | deliveryAck _ => 15
  | mailboxPut .. => 16
  | mailboxFetch => 17
  | queueSync _ => 18
  | promoteCommit _ => 19

def body : WireFrame → Bytes
  | chat channel text marking => putBytes (utf8 channel) ++ putBytes (utf8 text) ++ Marking.putOpt marking
  | commit fromEpoch bytes => putU32 fromEpoch ++ putBytes bytes
  | roster epoch entries sig => putU32 epoch ++ putCounted putRosterEntry entries ++ putBytes sig
  | accessDenied reason => putBytes (utf8 reason)
  | keyPackage b | welcome b | groupMsg b | identity b | revocation b | leafSigCert b | routeDescriptor b
  | updateProposal b | presence b | promote b | consent b | promoteCommit b => putBytes b
  | deliveryAck ids => putCounted (fun a => putBytes a.1) ids
  | mailboxPut recipient frame => putBytes recipient.1 ++ putBytes frame
  | mailboxFetch => []
  | queueSync entries => putCounted putSyncEntry entries

def encode (f : WireFrame) : Bytes := putU8 f.tag ++ f.body

def getBlob (variant : Bytes → WireFrame) : Reader Unit WireFrame := do
  let b ← Reader.getBytes
  pure (variant b)

/-- The fields of the variant with this tag. Most variants do not look at what follows them. -/
def getBody : Nat → Reader Unit WireFrame
  | 0 => do
    let channel ← getText
    let text ← getText
    let marking ← orNone Marking.getOpt
    pure (chat channel text marking)
  | 1 => getBlob keyPackage
  | 2 => getBlob welcome
  | 3 => do
    let fromEpoch ← Reader.getU32
    let bytes ← Reader.getBytes
    pure (commit fromEpoch bytes)
  | 4 => getBlob groupMsg
  | 5 => do
    let epoch ← Reader.getU32
    let entries ← getCapped MAX_ROSTER getRosterEntry
    let sig ← Reader.getBytes
    pure (roster epoch entries sig)
  | 6 => getBlob identity
  | 7 => do
    let reason ← getText
    pure (accessDenied reason)
  | 8 => getBlob revocation
  | 9 => getBlob leafSigCert
  | 10 => getBlob routeDescriptor
  | 11 => getBlob updateProposal
  | 12 => getBlob presence
  | 13 => getBlob promote
  | 14 => getBlob consent
  | 15 => do
    let ids ← decodeDeliveryAck
    pure (deliveryAck ids)
  | 16 => do
    let p ← decodeMailboxPut
    pure (mailboxPut p.1 p.2)
  | 17 => pure mailboxFetch
  | 18 => do
    let entries ← decodeQueueSync
    pure (queueSync entries)
  | 19 => getBlob promoteCommit
  | _ => throw ()

def get : Reader Unit WireFrame := do
  let tag ← Reader.getU8
  getBody tag.toNat

def decode (bytes : Bytes) : Option WireFrame := (Reader.parse get bytes).toOption

/-- The frame keeps within the limits of the decoder. -/
def Fits : WireFrame → Prop
  | chat channel text marking =>
    (utf8 channel).length ≤ MAX_FRAME ∧ (utf8 text).length ≤ MAX_FRAME ∧ Marking.FitsOpt marking
  | commit fromEpoch bytes => fromEpoch < 2 ^ 32 ∧ bytes.length ≤ MAX_FRAME
  | roster epoch entries sig =>
    epoch < 2 ^ 32 ∧ entries.length ≤ MAX_ROSTER ∧ (∀ e ∈ entries, e.1 < 2 ^ 32) ∧ sig.length ≤ MAX_FRAME
  | accessDenied reason => (utf8 reason).length ≤ MAX_FRAME
  | keyPackage b | welcome b | groupMsg b | identity b | revocation b | leafSigCert b | routeDescriptor b
  | updateProposal b | presence b | promote b | consent b | promoteCommit b => b.length ≤ MAX_FRAME
  | deliveryAck ids => ids.length ≤ MAX_ACK
  | mailboxPut _ frame => frame.length ≤ MAX_FRAME
  | mailboxFetch => True
  | queueSync entries => entries.length ≤ MAX_SYNC

/-! ### What fits is read back -/

theorem getBlob_putBytes (variant : Bytes → WireFrame) {b : Bytes} (h : b.length ≤ MAX_FRAME) :
    getBlob variant (putBytes b) = .ok (variant b, []) := by
  rw [getBlob, Reader.bind_ok (reads_bytes.read_nil h)]
  rfl

variable {f : WireFrame} {s t : Bytes}

theorem getBody_body (h : f.Fits) : getBody f.tag.toNat f.body = .ok (f, []) := by
  cases f with
  | chat channel text marking =>
    obtain ⟨hchannel, htext, hmarking⟩ := h
    simp only [body, List.append_assoc]
    exact (Reader.bind_ok (reads_text.read hchannel _)).trans ((Reader.bind_ok (reads_text.read htext _)).trans
      (Reader.bind_ok (Marking.reads_opt.read_nil hmarking)))
  | commit fromEpoch bytes =>
    exact (Reader.bind_ok (reads_u32.read h.1 _)).trans (Reader.bind_ok (reads_bytes.read_nil h.2))
  | roster epoch entries sig =>
    obtain ⟨hepoch, hcount, hleaves, hsig⟩ := h
    simp only [body, List.append_assoc]
    exact (Reader.bind_ok (reads_u32.read hepoch _)).trans ((Reader.bind_ok (reads_roster.read
      ⟨hcount, fun e he => ⟨hleaves e he, trivial⟩⟩ _)).trans (Reader.bind_ok (reads_bytes.read_nil hsig)))
  | accessDenied reason => exact Reader.bind_ok (reads_text.read_nil h)
  | deliveryAck ids =>
    exact Reader.bind_ok ((Reader.bind_ok (reads_ack.read_nil ⟨h, fun _ _ => trivial⟩)).trans
      (Reader.bind_ok Reader.finish_nil))
  | mailboxPut recipient frame =>
    have hput : decodeMailboxPut (putBytes recipient.1 ++ putBytes frame) = .ok ((recipient, frame), []) := by
      rw [decodeMailboxPut, Reader.bind_ok ((reads_arr (n := 48) (by decide)).read trivial _),
        Reader.bind_ok (reads_bytes.read_nil h), Reader.bind_ok Reader.finish_nil]
      rfl
    exact Reader.bind_ok hput
  | mailboxFetch => rfl
  | queueSync entries =>
    exact Reader.bind_ok ((Reader.bind_ok (reads_sync.read_nil ⟨h, fun _ _ => ⟨trivial, trivial⟩⟩)).trans
      (Reader.bind_ok Reader.finish_nil))
  | _ => exact getBlob_putBytes _ h

theorem decode_encode (h : f.Fits) : decode f.encode = some f := by
  have hget : get f.encode = .ok (f, []) := (Reader.bind_ok (Reader.getU8_putU8 _ _)).trans (getBody_body h)
  rw [decode, Reader.parse, hget]
  rfl

/-! ### What is read fits -/

theorem getBlob_eq_ok {variant : Bytes → WireFrame} (h : getBlob variant s = .ok (f, t)) :
    ∃ b, f = variant b ∧ b.length ≤ MAX_FRAME := by
  obtain ⟨b, u, hb, hpure⟩ := Reader.bind_eq_ok.mp h
  cases hpure
  exact ⟨b, rfl, (reads_bytes.accepts hb).2⟩

theorem decodeDeliveryAck_eq_ok {ids : List Gid} (h : decodeDeliveryAck s = .ok (ids, t)) : ids.length ≤ MAX_ACK := by
  obtain ⟨ids', u, hids, hk⟩ := Reader.bind_eq_ok.mp h
  obtain ⟨_, v, -, hpure⟩ := Reader.bind_eq_ok.mp hk
  cases hpure
  exact (reads_ack.accepts hids).2.1

theorem decodeMailboxPut_eq_ok {p : Fingerprint × Bytes} (h : decodeMailboxPut s = .ok (p, t)) :
    p.2.length ≤ MAX_FRAME := by
  obtain ⟨recipient, u, -, hk⟩ := Reader.bind_eq_ok.mp h
  obtain ⟨frame, v, hframe, hk⟩ := Reader.bind_eq_ok.mp hk
  obtain ⟨_, w, -, hpure⟩ := Reader.bind_eq_ok.mp hk
  cases hpure
  exact (reads_bytes.accepts hframe).2

theorem decodeQueueSync_eq_ok {es : List (Gid × Fingerprint)} (h : decodeQueueSync s = .ok (es, t)) :
    es.length ≤ MAX_SYNC := by
  obtain ⟨es', u, hes, hk⟩ := Reader.bind_eq_ok.mp h
  obtain ⟨_, v, -, hpure⟩ := Reader.bind_eq_ok.mp hk
  cases hpure
  exact (reads_sync.accepts hes).2.1

theorem fits_of_getBody {n : Nat} (h : getBody n s = .ok (f, t)) : f.Fits := by
  match n, h with
  | 0, h =>
    obtain ⟨channel, u, hchannel, hk⟩ := Reader.bind_eq_ok.mp h
    obtain ⟨text, v, htext, hk⟩ := Reader.bind_eq_ok.mp hk
    obtain ⟨marking, w, hmarking, hpure⟩ := Reader.bind_eq_ok.mp hk
    cases hpure
    exact ⟨(reads_text.accepts hchannel).2, (reads_text.accepts htext).2, (Marking.reads_opt.accepts hmarking).2⟩
  | 3, h =>
    obtain ⟨fromEpoch, u, hepoch, hk⟩ := Reader.bind_eq_ok.mp h
    obtain ⟨bytes, v, hbytes, hpure⟩ := Reader.bind_eq_ok.mp hk
    cases hpure
    exact ⟨(reads_u32.accepts hepoch).2, (reads_bytes.accepts hbytes).2⟩
  | 5, h =>
    obtain ⟨epoch, u, hepoch, hk⟩ := Reader.bind_eq_ok.mp h
    obtain ⟨entries, v, hentries, hk⟩ := Reader.bind_eq_ok.mp hk
    obtain ⟨sig, w, hsig, hpure⟩ := Reader.bind_eq_ok.mp hk
    cases hpure
    obtain ⟨-, hcount, hleaves⟩ := reads_roster.accepts hentries
    exact ⟨(reads_u32.accepts hepoch).2, hcount, fun e he => (hleaves e he).1, (reads_bytes.accepts hsig).2⟩
  | 7, h =>
    obtain ⟨reason, u, hreason, hpure⟩ := Reader.bind_eq_ok.mp h
    cases hpure
    exact (reads_text.accepts hreason).2
  | 15, h =>
    obtain ⟨ids, u, hids, hpure⟩ := Reader.bind_eq_ok.mp h
    cases hpure
    exact decodeDeliveryAck_eq_ok hids
  | 16, h =>
    obtain ⟨p, u, hp, hpure⟩ := Reader.bind_eq_ok.mp h
    cases hpure
    exact decodeMailboxPut_eq_ok hp
  | 17, h =>
    cases h
    trivial
  | 18, h =>
    obtain ⟨es, u, hes, hpure⟩ := Reader.bind_eq_ok.mp h
    cases hpure
    exact decodeQueueSync_eq_ok hes
  | 1, h | 2, h | 4, h | 6, h | 8, h | 9, h | 10, h | 11, h | 12, h | 13, h | 14, h | 19, h =>
    obtain ⟨b, rfl, hb⟩ := getBlob_eq_ok h
    exact hb
  | n + 20, h => cases h

theorem fits_of_decode {bytes : Bytes} (h : decode bytes = some f) : f.Fits := by
  unfold decode Reader.parse at h
  cases hget : get bytes with
  | error e =>
    rw [hget] at h
    cases h
  | ok p =>
    rw [hget] at h
    cases h
    obtain ⟨tag, u, -, hbody⟩ := Reader.bind_eq_ok.mp hget
    exact fits_of_getBody hbody

theorem decode_queueSync_of_gt {es : List (Gid × Fingerprint)} (h : MAX_SYNC < es.length) (hlt : es.length < 2 ^ 32) :
    decode (queueSync es).encode = none := by
  have hcap : getCapped MAX_SYNC getSyncEntry (putCounted putSyncEntry es) = .error () := by
    rw [getCapped, putCounted, Reader.bind_ok (Reader.getU32_putU32 hlt _), if_pos h]
    rfl
  have hbody : getBody 18 (queueSync es).body = .error () := Reader.bind_error (Reader.bind_error hcap)
  have hget : get (queueSync es).encode = .error () := (Reader.bind_ok (Reader.getU8_putU8 _ _)).trans hbody
  rw [decode, Reader.parse, hget]
  rfl

/-! ### Different frames, different bytes -/

/-- The lengths and numbers of the frame are not cut to 32 bits. -/
def Sized : WireFrame → Prop
  | chat channel text marking => (utf8 channel).length < 2 ^ 32 ∧ (utf8 text).length < 2 ^ 32 ∧ Marking.SizedOpt marking
  | commit fromEpoch bytes => fromEpoch < 2 ^ 32 ∧ bytes.length < 2 ^ 32
  | roster epoch entries sig =>
    epoch < 2 ^ 32 ∧ entries.length < 2 ^ 32 ∧ (∀ e ∈ entries, e.1 < 2 ^ 32) ∧ sig.length < 2 ^ 32
  | accessDenied reason => (utf8 reason).length < 2 ^ 32
  | keyPackage b | welcome b | groupMsg b | identity b | revocation b | leafSigCert b | routeDescriptor b
  | updateProposal b | presence b | promote b | consent b | promoteCommit b => b.length < 2 ^ 32
  | deliveryAck ids => ids.length < 2 ^ 32
  | mailboxPut _ frame => frame.length < 2 ^ 32
  | mailboxFetch => True
  | queueSync entries => entries.length < 2 ^ 32

theorem encode_inj {g : WireFrame} (hf : f.Sized) (hg : g.Sized) (h : f.encode = g.encode) : f = g := by
  obtain ⟨htag, hbody⟩ := List.cons.inj h
  change f.body = g.body at hbody
  cases f with
  | chat channel text marking =>
    cases g with
    | chat channel' text' marking' =>
      simp only [body, List.append_assoc] at hbody
      obtain ⟨hchannel, hrest⟩ := putBytes_append_inj hf.1 hg.1 hbody
      obtain ⟨htext, hmarking⟩ := putBytes_append_inj hf.2.1 hg.2.1 hrest
      rw [utf8_injective hchannel, utf8_injective htext, Marking.putOpt_inj hf.2.2 hg.2.2 hmarking]
    | _ => simp [tag] at htag
  | commit fromEpoch bytes =>
    cases g with
    | commit fromEpoch' bytes' =>
      obtain ⟨rfl, hbytes⟩ := putU32_selfDelimiting hf.1 hg.1 hbody
      rw [putBytes_inj hf.2 hg.2 hbytes]
    | _ => simp [tag] at htag
  | roster epoch entries sig =>
    cases g with
    | roster epoch' entries' sig' =>
      simp only [body, List.append_assoc] at hbody
      obtain ⟨hepoch, hcount, hleaves, hsig⟩ := hf
      obtain ⟨hepoch', hcount', hleaves', hsig'⟩ := hg
      obtain ⟨rfl, hentries⟩ := putU32_selfDelimiting hepoch hepoch' hbody
      obtain ⟨rfl, hsigs⟩ := putCounted_inj (putU32_selfDelimiting.pair (putArr_selfDelimiting (by decide)))
        hcount hcount' (fun e he => ⟨hleaves e he, trivial⟩) (fun e he => ⟨hleaves' e he, trivial⟩) hentries
      rw [putBytes_inj hsig hsig' hsigs]
    | _ => simp [tag] at htag
  | accessDenied reason =>
    cases g with
    | accessDenied reason' => rw [utf8_injective (putBytes_inj hf hg hbody)]
    | _ => simp [tag] at htag
  | deliveryAck ids =>
    cases g with
    | deliveryAck ids' =>
      have hids := putCounted_inj (s := []) (t := []) (putArr_selfDelimiting (n := 32) (by decide)) hf hg
        (fun _ _ => trivial) (fun _ _ => trivial) (by rw [List.append_nil, List.append_nil]; exact hbody)
      rw [hids.1]
    | _ => simp [tag] at htag
  | mailboxPut recipient frame =>
    cases g with
    | mailboxPut recipient' frame' =>
      obtain ⟨rfl, hframe⟩ := putArr_selfDelimiting (n := 48) (by decide) trivial trivial hbody
      rw [putBytes_inj hf hg hframe]
    | _ => simp [tag] at htag
  | mailboxFetch =>
    cases g with
    | mailboxFetch => rfl
    | _ => simp [tag] at htag
  | queueSync entries =>
    cases g with
    | queueSync entries' =>
      have hentries := putCounted_inj (s := []) (t := [])
        ((putArr_selfDelimiting (n := 32) (by decide)).pair (putArr_selfDelimiting (n := 48) (by decide))) hf hg
        (fun _ _ => ⟨trivial, trivial⟩) (fun _ _ => ⟨trivial, trivial⟩)
        (by rw [List.append_nil, List.append_nil]; exact hbody)
      rw [hentries.1]
    | _ => simp [tag] at htag
  | _ =>
    -- one field of bytes
    cases g <;> first
      | (simp [tag] at htag; done)
      | rw [putBytes_inj hf hg hbody]

/-- A frame survives the wire exactly if it keeps within the limits of the decoder; and frames whose lengths
and numbers fit 32 bits never share an encoding. -/
theorem decode_encode_iff (f g : WireFrame) :
    (decode f.encode = some f ↔ f.Fits) ∧ (f.Sized → g.Sized → f ≠ g → f.encode ≠ g.encode) := by
  refine ⟨⟨fits_of_decode, decode_encode⟩, fun hf hg hne h => ?_⟩
  exact hne (encode_inj hf hg h)

end WireFrame
end Talkrypt.Core
