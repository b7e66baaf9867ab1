import Talkrypt.Core.Frames
import Talkrypt.Core.Gossip

/-!
# The payloads of group messages

`handle_group_msg` tells presence, linkage, vouch and chat payloads apart by their first byte. Every payload goes to
its own handler. A chat payload is read as it was written exactly if its marking has no more compartments and
caveats than the decoder counts (`Payload.dispatch_iff`), which nothing keeps a sender from exceeding.
-/

namespace Talkrypt.Core
open TreeKem (Scheme)

inductive Payload where
  | presence (bytes : Bytes)
  | linkage (bytes : Bytes)
  | vouch (bytes : Bytes)
  | chat (marking : Option Marking) (text : String) (nameTag : Option (ByteArr 8))

/-- A branch of the dispatch, with what its handler is given. -/
inductive Branch where
  | presence (bytes : Bytes)
  | linkage (bytes : Bytes)
  | vouch (bytes : Bytes)
  | chat (content : Option (Option Marking × String × Option (ByteArr 8)))
deriving DecidableEq

def branchOf (pt : Bytes) : Branch :=
  if pt.head? = some PRESENCE_SENTINEL then .presence pt.tail
  else if pt.head? = some LINKAGE_SENTINEL then .linkage pt.tail
  else if pt.head? = some VOUCH_SENTINEL then .vouch pt.tail
  else .chat (decodePayloadTagged pt)

def Inner.enter {S : Scheme} (sha256 : Bytes → Gid) (i : Inner S) (now : UInt64) (peer : Fingerprint) (gct : Bytes) :
    Branch → Inner S
  | .presence bytes => i.handOn (i.senderOf peer gct) (.presence bytes)
  | .linkage bytes => i.handOn (i.senderOf peer gct) (.linkage bytes)
  | .vouch bytes => i.handOn (i.senderOf peer gct) (.vouch bytes)
  | .chat none => i
  | .chat (some (marking, text, nameTag)) =>
    (i.note now (i.senderOf peer gct) (sha256 gct) text marking).display peer (i.senderOf peer gct) (sha256 gct) text
      marking nameTag

theorem Inner.surface_eq_enter {S : Scheme} (sha256 : Bytes → Gid) (i : Inner S) (now : UInt64) (peer : Fingerprint)
    (gct pt : Bytes) : i.surface sha256 now peer gct pt = i.enter sha256 now peer gct (branchOf pt) := by
  unfold surface branchOf
  dsimp only
  split
  · rfl
  · split
    · rfl
    · split
      · rfl
      · cases decodePayloadTagged pt <;> rfl

namespace Payload

def encode : Payload → Bytes
  | presence bytes => PRESENCE_SENTINEL :: bytes
  | linkage bytes => LINKAGE_SENTINEL :: bytes
  | vouch bytes => VOUCH_SENTINEL :: bytes
  | chat marking text nameTag => encodePayloadTagged marking text nameTag

def branch : Payload → Branch
  | presence bytes => .presence bytes
  | linkage bytes => .linkage bytes
  | vouch bytes => .vouch bytes
  | chat marking text nameTag => .chat (some (marking, text, nameTag))

def Fits : Payload → Prop
  | chat marking text _ =>
    (utf8 text).length ≤ MAX_FRAME ∧ ∀ m, marking = some m → m.encode.length ≤ MAX_FRAME
  | _ => True

/-- No more items than the decoder of markings counts. -/
def Counted : Payload → Prop
  | chat (some m) _ _ => m.compartments.length ≤ MAX_MARKING_ITEMS ∧ m.caveats.length ≤ MAX_MARKING_ITEMS
  | _ => True

end Payload

theorem Marking.fits_iff {m : Marking} (h : m.encode.length ≤ MAX_FRAME) :
    m.Fits ↔ m.compartments.length ≤ MAX_MARKING_ITEMS ∧ m.caveats.length ≤ MAX_MARKING_ITEMS := by
  have hitem (items : List String) (hle : (putStrings items).length ≤ m.encode.length) (item : String)
      (hmem : item ∈ items) : (utf8 item).length ≤ MAX_FRAME := by
    have hsub := (List.sublist_flatten_of_mem (List.mem_map_of_mem (f := putBytes) (List.mem_map_of_mem (f := utf8) hmem))).length_le
    rw [← List.flatMap_def, ← putFields, putBytes_length] at hsub
    rw [putStrings, List.length_append] at hle
    omega
  have hcompartments := hitem m.compartments (by simp only [encode, List.length_append]; omega)
  have hcaveats := hitem m.caveats (by simp only [encode, List.length_append]; omega)
  exact ⟨fun hm => ⟨hm.compartments.1, hm.caveats.1⟩, fun hm => ⟨⟨hm.1, hcompartments⟩, hm.2, hcaveats⟩⟩

theorem codec_nameTag {marking : Option Marking} {text : String} :
    Codec True True
      (do let nameTag ← getNameTag; Reader.finish; pure (marking, text, nameTag) : Reader Unit (_ × _ × Option (ByteArr 8)))
      (fun x => match x.2.2 with
        | none => []
        | some t => putBytes t.1)
      (fun x => (True ∧ x.1 = marking) ∧ x.2.1 = text) (fun _ => True) where
  read {x} hx _ rest hrest := by
    obtain ⟨m, s, tag⟩ := x
    obtain ⟨⟨-, rfl⟩, rfl⟩ := hx
    obtain rfl := hrest trivial
    cases tag with
    | none => rfl
    | some t =>
      have hget : getNameTag (putBytes t.1 ++ []) = .ok (some t, []) := by
        rw [getNameTag, Reader.bind_ok rfl, if_pos (by simp [putBytes_length]), Reader.bind_ok (getArr_putBytes (by decide) t [])]
        rfl
      rw [Reader.bind_ok hget]
      rfl
  accepts {x s u} h := by
    obtain ⟨tag, v, htag, hk⟩ := exists_of_bind h
    obtain ⟨_, z, hfin, hk⟩ := exists_of_bind hk
    obtain ⟨rfl, rfl⟩ := Reader.finish_eq_ok.mp hfin
    cases hk
    cases s with
    | nil =>
      cases htag
      exact ⟨⟨⟨trivial, rfl⟩, rfl⟩, trivial, le_rfl, fun _ => rfl, fun _ => rfl⟩
    | cons b s =>
      obtain ⟨_, w, hleft, htag⟩ := exists_of_bind htag
      cases hleft
      rw [if_pos (by simp)] at htag
      obtain ⟨t, w, ht, htag⟩ := exists_of_bind htag
      cases htag
      have heq := ((reads_arr (by decide)).accepts ht).1
      exact ⟨⟨⟨trivial, rfl⟩, rfl⟩, trivial, by rw [heq, List.length_append], fun _ => heq, fun _ => rfl⟩

theorem codec_payloadTagged : Codec True True getPayloadTagged (fun x => encodePayloadTagged x.1 x.2.1 x.2.2) Any
    (fun x => Marking.FitsOpt x.1 ∧ (utf8 x.2.1).length ≤ MAX_FRAME) := by
  suffices ∀ m, Codec True True _ (fun x : Option Marking × String × Option (ByteArr 8) => putBytes (utf8 x.2.1) ++
      match x.2.2 with
      | none => []
      | some t => putBytes t.1) (fun x => True ∧ x.1 = m) _ from
    (Codec.seq (π := Prod.fst) Marking.reads_opt fun m _ => this m).conv
      (fun x _ => (List.append_assoc ..).symm) fun _ _ => Iff.rfl
  intro m
  rw [bind_eq_readChecked (f := fromUtf8) _ (fun _ h => by rw [h]) fun _ _ h => by rw [h]]
  exact (Codec.seq (π := fun x : Option Marking × String × Option (ByteArr 8) => x.2.1) reads_text fun s _ =>
    codec_nameTag).conv (fun _ _ => rfl) fun _ _ => and_true _ ▸ Iff.rfl

theorem decodePayloadTagged_encode {marking : Option Marking} {text : String} {nameTag : Option (ByteArr 8)}
    (htext : (utf8 text).length ≤ MAX_FRAME) :
    decodePayloadTagged (encodePayloadTagged marking text nameTag) = some (marking, text, nameTag) ↔
      Marking.FitsOpt marking :=
  ⟨fun h => (codec_payloadTagged.decodes.accepts (except_eq_ok_of_toOption h)).1.1,
    fun h => congrArg Except.toOption (codec_payloadTagged.decodes.read (a := (marking, text, nameTag)) ⟨h, htext⟩)⟩

theorem branchOf_chat (marking : Option Marking) (text : String) (nameTag : Option (ByteArr 8)) :
    branchOf (encodePayloadTagged marking text nameTag) =
      .chat (decodePayloadTagged (encodePayloadTagged marking text nameTag)) := by
  have hhead : (encodePayloadTagged marking text nameTag).head? = some (if marking.isSome then 1 else 0) := by
    cases marking <;> rfl
  rw [branchOf, hhead]
  cases marking <;> rfl

/-- Every payload goes to its own handler, with what was sent exactly if it is within the limits of the decoder. -/
theorem Payload.dispatch_iff {p : Payload} (hp : p.Fits) :
    (branchOf p.encode = p.branch ↔ p.Counted) ∧
    (∀ bytes, branchOf (presence bytes).encode = .presence bytes ∧ branchOf (linkage bytes).encode = .linkage bytes ∧
      branchOf (vouch bytes).encode = .vouch bytes) ∧
    (∀ marking text nameTag, ∃ content, branchOf (chat marking text nameTag).encode = .chat content) ∧
    ∀ {S : Scheme} (sha256 : Bytes → Gid) (i : Inner S) (now : UInt64) (peer : Fingerprint) (gct : Bytes),
      i.surface sha256 now peer gct p.encode = i.enter sha256 now peer gct (branchOf p.encode) := by
  refine ⟨?_, fun _ => ⟨rfl, rfl, rfl⟩, fun m t tag => ⟨_, branchOf_chat m t tag⟩,
    fun sha256 i now peer gct => i.surface_eq_enter sha256 now peer gct _⟩
  cases p with
  | presence | linkage | vouch => exact iff_of_true rfl trivial
  | chat marking text nameTag =>
    obtain ⟨htext, hmarking⟩ := hp
    rw [encode, branchOf_chat, branch, Branch.chat.injEq, decodePayloadTagged_encode htext]
    cases marking with
    | none => exact Iff.rfl
    | some m => exact (and_iff_left (hmarking m rfl)).trans (Marking.fits_iff (hmarking m rfl))

/-- A plain message is read back. -/
theorem Payload.dispatch_plain : branchOf (chat none "hi" none).encode = .chat (some (none, "hi", none)) :=
  (dispatch_iff (p := chat none "hi" none) ⟨by decide, nofun⟩).1.mpr trivial

/-- A marking with one compartment more is sent, and dropped by every receiver. -/
theorem marked_message_lost :
    let m : Marking := ⟨.secret, List.replicate 257 "", []⟩
    m.encode.length ≤ MAX_FRAME ∧ branchOf (Payload.chat (some m) "hi" none).encode = .chat none := by
  decide +kernel

end Talkrypt.Core
