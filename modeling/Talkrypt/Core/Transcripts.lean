import Talkrypt.Core.Frames
import Talkrypt.Core.Handshake
import Talkrypt.Core.Vouch
import Talkrypt.Crypto.Ratchet.Ideal

/-!
# What keys sign

Leaf keys of a group sign messages, proofs of possession, rotations, commits, promotions and the roster.
Identity keys sign handshakes, routes, vouches, presences, chat contexts and certificates. The strings of leaf
keys start with a context of their own, so they never stand for one another (`LeafSigned.bytes_eq_iff`). Of the
strings of identity keys three have no tag, and a certificate can be read as a presence or as a chat context
(`IdentitySigned.bytes_ne_iff`).
-/

namespace Talkrypt.Core
open TreeKem
open Account (Cert be8)

/-! ## Leaf keys -/

theorem lt_of_le_MAX_FRAME {n : Nat} (h : n ≤ MAX_FRAME) : n < 2 ^ 32 := h.trans_lt (by decide)

inductive LeafPurpose where
  | message
  | pop
  | updateAuth
  | commitAuth
  | promote
  | consent
  | promoCommit
  | roster
deriving DecidableEq

/-- The context that a string of the purpose starts with. -/
def LeafPurpose.context : LeafPurpose → Bytes
  | message => SIG_CONTEXT
  | pop => POP_CONTEXT
  | updateAuth => UPDATE_AUTH_CONTEXT
  | commitAuth => COMMIT_AUTH_CONTEXT
  | promote => PROMOTE_CONTEXT
  | consent => CONSENT_CONTEXT
  | promoCommit => PROMO_COMMIT_CONTEXT
  | roster => ROSTER_CONTEXT

theorem LeafPurpose.context_injective : Function.Injective context := by
  intro p q h
  cases p <;> cases q <;> first | rfl | exact absurd h (by decide)

theorem LeafPurpose.context_length (p : LeafPurpose) : p.context.length < 2 ^ 32 := by
  cases p <;> decide

inductive LeafSigned where
  | message (epoch leaf n : Nat) (ct : Bytes)
  | pop (sigPublic : IdentityPublic)
  | updateAuth (leaf : Nat) (leafPublic : RatchetPublic) (sigPublic : IdentityPublic)
  | commitAuth (fromEpoch committerLeaf : Nat) (body : Bytes)
  | promote (epoch leaf : Nat) (body : Bytes)
  | consent (epoch leaf : Nat) (body : Bytes)
  | promoCommit (epoch leaf : Nat) (body : Bytes)
  | roster (epoch : Nat) (entries : List (Nat × Fingerprint))

namespace LeafSigned
variable (P : Primitives)

def bytes : LeafSigned → Bytes
  | message epoch leaf n ct => sigTranscript epoch leaf n ct
  | pop sigPublic => popTranscript sigPublic
  | updateAuth leaf leafPublic sigPublic =>
    updateAuthTranscript (S := Scheme.ofPrimitives P) leaf leafPublic sigPublic
  | commitAuth fromEpoch committerLeaf body => commitAuthTranscript fromEpoch committerLeaf body
  | promote epoch leaf body => promoteTranscript epoch leaf body
  | consent epoch leaf body => consentTranscript epoch leaf body
  | promoCommit epoch leaf body => promoCommitTranscript epoch leaf body
  | roster epoch entries => rosterTranscript epoch entries

/-- Numbers are `u32` and fields are within the wire limit. -/
def Fits : LeafSigned → Prop
  | message epoch leaf n ct => epoch < 2 ^ 32 ∧ leaf < 2 ^ 32 ∧ n < 2 ^ 32 ∧ ct.length ≤ MAX_FRAME
  | pop sigPublic => sigPublic.sigVk.length ≤ MAX_FRAME
  | updateAuth leaf leafPublic sigPublic =>
    leaf < 2 ^ 32 ∧ leafPublic.encode.length ≤ MAX_FRAME ∧ sigPublic.sigVk.length ≤ MAX_FRAME
  | commitAuth epoch leaf body | promote epoch leaf body | consent epoch leaf body | promoCommit epoch leaf body =>
    epoch < 2 ^ 32 ∧ leaf < 2 ^ 32 ∧ body.length ≤ MAX_FRAME
  | roster epoch entries => epoch < 2 ^ 32 ∧ ∀ e ∈ entries, e.1 < 2 ^ 32

def purpose : LeafSigned → LeafPurpose
  | message .. => .message
  | pop .. => .pop
  | updateAuth .. => .updateAuth
  | commitAuth .. => .commitAuth
  | promote .. => .promote
  | consent .. => .consent
  | promoCommit .. => .promoCommit
  | roster .. => .roster

variable {P} {a b : LeafSigned}

theorem starts_with_context (P : Primitives) (a : LeafSigned) : putBytes a.purpose.context <+: a.bytes P := by
  cases a
  all_goals
    simp only [bytes, sigTranscript, popTranscript, updateAuthTranscript, commitAuthTranscript, promoteTranscript,
      consentTranscript, promoCommitTranscript, epochTranscript, rosterTranscript, List.append_assoc]
    exact List.prefix_append ..

theorem purpose_eq (h : a.bytes P = b.bytes P) : a.purpose = b.purpose := by
  obtain ⟨rest, ha⟩ := starts_with_context P a
  obtain ⟨rest', hb⟩ := starts_with_context P b
  have hcontext := putBytes_append_inj a.purpose.context_length b.purpose.context_length (ha.trans (h.trans hb.symm))
  exact LeafPurpose.context_injective hcontext.1

theorem epochTranscript_inj {context body body' : Bytes} {epoch leaf epoch' leaf' : Nat}
    (h₁ : epoch < 2 ^ 32) (h₂ : leaf < 2 ^ 32) (h₃ : body.length ≤ MAX_FRAME) (h₁' : epoch' < 2 ^ 32)
    (h₂' : leaf' < 2 ^ 32) (h₃' : body'.length ≤ MAX_FRAME)
    (h : epochTranscript context epoch leaf body = epochTranscript context epoch' leaf' body') :
    epoch = epoch' ∧ leaf = leaf' ∧ body = body' := by
  simp only [epochTranscript, List.append_assoc] at h
  have h := List.append_cancel_left h
  obtain ⟨hepoch, h⟩ := putU32_selfDelimiting h₁ h₁' h
  obtain ⟨hleaf, h⟩ := putU32_selfDelimiting h₂ h₂' h
  exact ⟨hepoch, hleaf, putBytes_inj (lt_of_le_MAX_FRAME h₃) (lt_of_le_MAX_FRAME h₃') h⟩

theorem rosterTranscript_inj {epoch epoch' : Nat} {entries entries' : List (Nat × Fingerprint)}
    (h₁ : epoch < 2 ^ 32) (h₂ : ∀ e ∈ entries, e.1 < 2 ^ 32) (h₁' : epoch' < 2 ^ 32)
    (h₂' : ∀ e ∈ entries', e.1 < 2 ^ 32) (h : rosterTranscript epoch entries = rosterTranscript epoch' entries') :
    epoch = epoch' ∧ entries = entries' := by
  simp only [rosterTranscript, List.append_assoc] at h
  have h := List.append_cancel_left h
  obtain ⟨hepoch, h⟩ := putU32_selfDelimiting h₁ h₁' h
  -- the count may be cut to 32 bits, but every entry has the same length
  have h := (List.append_inj h (by simp [putU32])).2
  have hwidth (es : List (Nat × Fingerprint)) :
      (es.flatMap fun e => putU32 e.1 ++ putBytes e.2.1).length = 56 * es.length := by
    induction es with
    | nil => rfl
    | cons e es ih =>
      rw [List.flatMap_cons, List.length_append, ih, List.length_append, putBytes_length, e.2.2, putU32,
        beBytes_length, List.length_cons]
      omega
  have hlen : entries.length = entries'.length := by
    have := congrArg List.length h
    rw [hwidth, hwidth] at this
    omega
  have hput := putU32_selfDelimiting.pair (putArr_selfDelimiting (n := 48) (by decide))
  have hentries := hput.flatMap (s := []) (t := []) hlen (fun e he => ⟨h₂ e he, trivial⟩)
    (fun e he => ⟨h₂' e he, trivial⟩) (by rw [List.append_nil, List.append_nil]; exact h)
  exact ⟨hepoch, hentries.1⟩

/-- Update authorizations do not cover the KEM profile that the leaf key is for. -/
def SameButProfile (a b : LeafSigned) : Prop := ∃ leaf p q pk, a = updateAuth leaf p pk ∧ b = updateAuth leaf q pk ∧
  p.profile ≠ q.profile ∧ p.encode = q.encode

theorem updateAuth_cases {leaf leaf' : Nat} {p q : RatchetPublic} {pk pk' : IdentityPublic}
    (ha : (updateAuth leaf p pk).Fits) (hb : (updateAuth leaf' q pk').Fits)
    (h : (updateAuth leaf p pk).bytes P = (updateAuth leaf' q pk').bytes P) :
    updateAuth leaf p pk = updateAuth leaf' q pk' ∨ SameButProfile (updateAuth leaf p pk) (updateAuth leaf' q pk') := by
  simp only [bytes, updateAuthTranscript, List.append_assoc] at h
  obtain ⟨hleaf, hrest⟩ := putU32_selfDelimiting ha.1 hb.1 (List.append_cancel_left h)
  obtain ⟨hencode, hvk⟩ := putBytes_append_inj (lt_of_le_MAX_FRAME ha.2.1) (lt_of_le_MAX_FRAME hb.2.1) hrest
  have hvk := putBytes_inj (lt_of_le_MAX_FRAME ha.2.2) (lt_of_le_MAX_FRAME hb.2.2) hvk
  obtain ⟨vk⟩ := pk
  obtain ⟨vk'⟩ := pk'
  obtain rfl : vk = vk' := hvk
  subst hleaf
  by_cases hprofile : p.profile = q.profile
  · rw [RatchetPublic.encode_inj (RatchetPublic.kemEk_length_le ha.2.1) (RatchetPublic.kemEk_length_le hb.2.1) hprofile
      hencode]
    exact .inl rfl
  · exact .inr ⟨leaf, p, q, ⟨vk⟩, rfl, rfl, hprofile, hencode⟩

/-- No string serves two purposes. Of one purpose, it gives back all its arguments, but for the profile of the
leaf key in an update authorization. -/
theorem bytes_eq_iff (P : Primitives) (a b : LeafSigned) : (a.purpose ≠ b.purpose → a.bytes P ≠ b.bytes P) ∧
    (a.Fits → b.Fits → (a.bytes P = b.bytes P ↔ a = b ∨ SameButProfile a b)) := by
  refine ⟨mt purpose_eq, fun ha hb => ⟨fun h => ?_, ?_⟩⟩
  · have hpurpose := purpose_eq h
    cases a with
    | message epoch leaf n ct =>
      cases b <;> try cases hpurpose
      next epoch' leaf' n' ct' =>
      have hmsg : GroupMessage.transcript ⟨epoch, leaf, n, ct, []⟩ = GroupMessage.transcript ⟨epoch', leaf', n', ct', []⟩ := h
      obtain ⟨he, hl, hn, hct⟩ := GroupMessage.transcript_inj ⟨ha.1, ha.2.1, ha.2.2.1⟩ ⟨hb.1, hb.2.1, hb.2.2.1⟩ hmsg
      exact .inl (by simp_all)
    | pop pk =>
      cases b <;> try cases hpurpose
      next pk' =>
      have hvk := putBytes_inj (lt_of_le_MAX_FRAME ha) (lt_of_le_MAX_FRAME hb) (List.append_cancel_left h)
      exact .inl (by cases pk; cases pk'; simp_all)
    | updateAuth leaf p pk =>
      cases b <;> try cases hpurpose
      next leaf' q pk' => exact updateAuth_cases ha hb h
    | commitAuth epoch leaf body =>
      cases b <;> try cases hpurpose
      obtain ⟨rfl, rfl, rfl⟩ := epochTranscript_inj ha.1 ha.2.1 ha.2.2 hb.1 hb.2.1 hb.2.2 h
      exact .inl rfl
    | promote epoch leaf body =>
      cases b <;> try cases hpurpose
      obtain ⟨rfl, rfl, rfl⟩ := epochTranscript_inj ha.1 ha.2.1 ha.2.2 hb.1 hb.2.1 hb.2.2 h
      exact .inl rfl
    | consent epoch leaf body =>
      cases b <;> try cases hpurpose
      obtain ⟨rfl, rfl, rfl⟩ := epochTranscript_inj ha.1 ha.2.1 ha.2.2 hb.1 hb.2.1 hb.2.2 h
      exact .inl rfl
    | promoCommit epoch leaf body =>
      cases b <;> try cases hpurpose
      obtain ⟨rfl, rfl, rfl⟩ := epochTranscript_inj ha.1 ha.2.1 ha.2.2 hb.1 hb.2.1 hb.2.2 h
      exact .inl rfl
    | roster epoch entries =>
      cases b <;> try cases hpurpose
      obtain ⟨rfl, rfl⟩ := rosterTranscript_inj ha.1 ha.2 hb.1 hb.2 h
      exact .inl rfl
  · rintro (rfl | ⟨leaf, p, q, pk, rfl, rfl, -, hencode⟩)
    · rfl
    · simp only [bytes, updateAuthTranscript]
      rw [show (Scheme.ofPrimitives P).encode p = (Scheme.ofPrimitives P).encode q from hencode]

/-- A rotation to a hybrid key and one to a padded key with the same bytes, which sign alike. -/
theorem updateAuth_without_profile :
    let x : ByteArr 32 := ⟨List.replicate 32 9, rfl⟩
    let ek := List.replicate KEM_EK_LEN 7
    let pk : IdentityPublic := ⟨List.replicate SIG_VK_LEN 1⟩
    let a := updateAuth 1 (.mk' .hybrid x x ek) pk
    let b := updateAuth 1 (.mk' .pqPure x x ek) pk
    a.Fits ∧ b.Fits ∧ a ≠ b ∧ a.bytes Primitives.ideal = b.bytes Primitives.ideal := by
  intro x ek pk a b
  have hencode : (RatchetPublic.mk' .hybrid x x ek).encode = (RatchetPublic.mk' .pqPure x x ek).encode := by
    rw [RatchetPublic.encode_mk', RatchetPublic.encode_mk']
    rfl
  have hlen : (RatchetPublic.mk' .pqPure x x ek).encode.length ≤ MAX_FRAME := by
    refine (RatchetPublic.encode_length_le _).trans ?_
    show 40 + (List.replicate KEM_EK_LEN 7).length ≤ MAX_FRAME
    rw [List.length_replicate]
    decide
  have hpk : pk.sigVk.length ≤ MAX_FRAME := List.length_replicate.le.trans (by decide)
  refine ⟨⟨by norm_num, hencode ▸ hlen, hpk⟩, ⟨by norm_num, hlen, hpk⟩, fun h => ?_, ?_⟩
  · have hprofile := congrArg RatchetPublic.profile (updateAuth.inj h).2.1
    exact absurd hprofile (by decide)
  · show updateAuthTranscript _ _ _ = updateAuthTranscript _ _ _
    simp only [updateAuthTranscript]
    rw [show (Scheme.ofPrimitives Primitives.ideal).encode (RatchetPublic.mk' .hybrid x x ek) =
      (Scheme.ofPrimitives Primitives.ideal).encode (RatchetPublic.mk' .pqPure x x ek) from hencode]

end LeafSigned

/-! ## Identity keys -/

inductive IdentityPurpose where
  | resp
  | confirm
  | route
  | vouch
  | presence
  | context
  | cert
deriving DecidableEq

/-- The tag that a string of the purpose starts with, if there is one. -/
def IdentityPurpose.tag : IdentityPurpose → Option Bytes
  | resp => some Handshake.T_RESP
  | confirm => some Handshake.T_CONFIRM
  | route => some RouteDescriptor.ROUTE_CONTEXT
  | vouch => some VOUCH_SIG_LABEL
  | presence | context | cert => none

inductive IdentitySigned where
  | resp (view : Handshake.View)
  | confirm (view : Handshake.View)
  | route (signer : IdentityPublic) (issued : UInt64) (endpoints : List String)
  | vouch (target : VouchTarget) (context : Gid) (epoch assertedAt : UInt64)
  | presence (seq : UInt64) (label : String) (context : Gid)
  | context (context : Gid)
  | cert (cert : Cert)

namespace IdentitySigned

def bytes : IdentitySigned → Bytes
  | resp view => view.transcript Handshake.T_RESP
  | confirm view => view.transcript Handshake.T_CONFIRM
  | route signer issued endpoints => RouteDescriptor.transcript signer issued endpoints
  | vouch target ctx epoch assertedAt => vouchSignedBytes target ctx epoch assertedAt
  | presence seq label ctx => signInput seq label ctx
  | context ctx => ctx.1
  | cert c => c.encode

def purpose : IdentitySigned → IdentityPurpose
  | resp .. => .resp
  | confirm .. => .confirm
  | route .. => .route
  | vouch .. => .vouch
  | presence .. => .presence
  | context .. => .context
  | cert .. => .cert

def Fits : IdentitySigned → Prop
  | resp view | confirm view => view.Fits
  | route signer _ endpoints => signer.sigVk.length ≤ MAX_FRAME ∧ ∀ e ∈ endpoints, (utf8 e).length ≤ MAX_FRAME
  | presence _ label _ => (utf8 label).length ≤ MAX_FRAME
  | cert c => c.subject.sigVk.length ≤ MAX_FRAME ∧ (utf8 c.label).length ≤ MAX_FRAME
  | vouch .. | context .. => True

/-- A certificate that reads as something else: as a chat context, if it has neither key nor label; as a
presence, if the upper half of the sequence number is the length of the key and the rest is laid out alike. -/
def Clash : IdentitySigned → IdentitySigned → Prop
  | cert c, context ctx => c.subject.sigVk = [] ∧ c.label = "" ∧
    ctx.1 = putFields [[], [], be8 c.validFrom, be8 c.expiry]
  | cert c, presence seq label ctx => seq.toNat / 2 ^ 32 = c.subject.sigVk.length ∧
    putU32 (seq.toNat % 2 ^ 32) ++ putBytes (utf8 label) ++ putBytes ctx.1 =
      c.subject.sigVk ++ putFields [utf8 c.label, be8 c.validFrom, be8 c.expiry]
  | _, _ => False

variable {a b : IdentitySigned}

variable {tag : Bytes} {c : Cert}

theorem starts_with_tag (h : a.purpose.tag = some tag) : putBytes tag <+: a.bytes := by
  cases a <;> cases h
  all_goals
    simp only [bytes, Handshake.View.transcript, Handshake.handshakeTranscript, putFields_cons,
      RouteDescriptor.transcript, vouchSignedBytes, List.append_assoc]
    exact List.prefix_append ..

theorem tag_length {p : IdentityPurpose} (h : p.tag = some tag) : tag.length < 2 ^ 32 := by
  cases p <;> cases h <;> decide

theorem tag_inj {p q : IdentityPurpose} (hp : p.tag = some tag) (hq : q.tag = some tag) : p = q := by
  cases p <;> cases hp <;> cases q <;> first | rfl | exact absurd hq (by decide)

theorem purpose_eq_of_tag {tag' : Bytes} (ha : a.purpose.tag = some tag) (hb : b.purpose.tag = some tag')
    (h : a.bytes = b.bytes) : a.purpose = b.purpose := by
  obtain ⟨rest, hrest⟩ := starts_with_tag ha
  obtain ⟨rest', hrest'⟩ := starts_with_tag hb
  obtain ⟨rfl, -⟩ := putBytes_append_inj (tag_length ha) (tag_length hb) (hrest.trans (h.trans hrest'.symm))
  exact tag_inj ha hb

theorem presence_ne_tagged {seq : UInt64} {label : String} {ctx : Gid} (h : (utf8 label).length ≤ MAX_FRAME)
    (hb : b.purpose.tag = some tag) : (presence seq label ctx).bytes ≠ b.bytes := by
  intro heq
  obtain ⟨rest, hrest⟩ := starts_with_tag hb
  have htag : (putBytes tag ++ rest)[8]? = some 0x72 := by
    cases b <;> cases hb <;> rfl
  have hlabel : (presence seq label ctx).bytes[8]? = some (UInt8.ofNat ((utf8 label).length / 256 ^ 3)) := by
    simp only [bytes, signInput, List.append_assoc]
    rw [List.getElem?_append_right (by simp)]
    simp only [putWords_length, Nat.sub_self]
    rfl
  rw [heq, ← hrest, htag, Option.some.injEq] at hlabel
  have hsmall : (utf8 label).length / 256 ^ 3 ≤ 1 := by
    unfold MAX_FRAME at h
    omega
  generalize (utf8 label).length / 256 ^ 3 = k at hlabel hsmall
  interval_cases k <;> exact absurd hlabel (by decide)

theorem cert_length (h : (cert c).Fits) : c.encode.length < 2 ^ 32 := by
  obtain ⟨hvk, hlabel⟩ := h
  simp only [Cert.encode, Cert.fields, putFields_cons, putFields_nil, List.length_append, putBytes_length, be8,
    beBytes_length, List.length_nil]
  unfold MAX_FRAME at hvk hlabel
  omega

theorem cert_ne_transcript (h : (cert c).Fits) (view : Handshake.View) (tag : Bytes) :
    c.encode ≠ view.transcript tag := by
  intro heq
  have hfields := congrArg List.length (putFields_inj (cert_length h) heq)
  simp [Cert.fields] at hfields

theorem cert_ne_vouch (h : (cert c).Fits) (target : VouchTarget) (ctx : Gid) (epoch assertedAt : UInt64) :
    c.encode ≠ vouchSignedBytes target ctx epoch assertedAt := by
  intro heq
  have htarget : target.encode.length < 2 ^ 32 := by
    cases target with
    | account fp => simp [VouchTarget.encode, putU8, putBytes_length, fp.2]
    | nameBinding fp nameTag => simp [VouchTarget.encode, putU8, putBytes_length, fp.2, nameTag.2]
    | leaf fp => simp [VouchTarget.encode, putU8, putBytes_length, fp.2]
  simp only [Cert.encode, Cert.fields, putFields_cons, vouchSignedBytes, List.append_assoc] at heq
  obtain ⟨-, heq⟩ := putBytes_append_inj (lt_of_le_MAX_FRAME h.1) (by decide) heq
  obtain ⟨-, heq⟩ := putBytes_append_inj (lt_of_le_MAX_FRAME h.2) htarget heq
  obtain ⟨hfield, -⟩ := putBytes_append_inj (by simp [be8]) (by simp [ctx.2]) heq
  have := congrArg List.length hfield
  simp [be8, ctx.2] at this

theorem cert_ne_route (h : (cert c).Fits) {signer : IdentityPublic} {issued : UInt64} {endpoints : List String}
    (hroute : (route signer issued endpoints).Fits) :
    c.encode ≠ RouteDescriptor.transcript signer issued endpoints := by
  intro heq
  simp only [Cert.encode, Cert.fields, putFields_cons, putFields_nil, List.append_nil, RouteDescriptor.transcript,
    List.append_assoc] at heq
  obtain ⟨-, heq⟩ := putBytes_append_inj (lt_of_le_MAX_FRAME h.1) (by decide) heq
  obtain ⟨-, heq⟩ := putBytes_append_inj (lt_of_le_MAX_FRAME h.2)
    (lt_of_le_MAX_FRAME hroute.1) heq
  obtain ⟨-, heq⟩ := putBytes_append_inj (by simp [be8]) (by simp [be8]) heq
  obtain ⟨hcount, hrest⟩ := List.append_inj heq (by simp [putU32])
  -- eight endpoints or more take over eight bytes
  have hcount : 8 = endpoints.length % 256 ^ 4 := by
    have hbe := congrArg beNat hcount
    rw [putU32, putU32, beNat_beBytes, beNat_beBytes] at hbe
    simpa [be8] using hbe
  have hlong (fs : List Bytes) : 4 * fs.length ≤ (putFields fs).length := by
    induction fs with
    | nil => simp
    | cons f fs ih =>
      rw [putFields_cons, List.length_append, putBytes_length, List.length_cons]
      omega
  have hlen := hlong (endpoints.map utf8)
  rw [← hrest, List.length_map, be8, beBytes_length] at hlen
  omega

theorem context_length_lt (h : b.purpose.tag = some tag) : 32 < b.bytes.length := by
  have hlen := (starts_with_tag h).length_le
  rw [putBytes_length] at hlen
  cases b <;> cases h
  case resp view =>
    simp only [bytes, Handshake.View.transcript, Handshake.handshakeTranscript, putFields_cons, List.length_append,
      putBytes_length]
    have : Handshake.T_RESP.length = 16 := rfl
    omega
  case confirm view =>
    simp only [bytes, Handshake.View.transcript, Handshake.handshakeTranscript, putFields_cons, List.length_append,
      putBytes_length]
    have : Handshake.T_CONFIRM.length = 19 := rfl
    omega
  case route signer issued endpoints =>
    simp only [bytes, RouteDescriptor.transcript, List.length_append, putBytes_length, putU32, beBytes_length, be8]
    have : RouteDescriptor.ROUTE_CONTEXT.length = 28 := rfl
    omega
  case vouch target ctx epoch assertedAt =>
    simp only [bytes, vouchSignedBytes, List.length_append, putBytes_length, ctx.2]
    omega

theorem untagged_ne_tagged (ha : a.purpose.tag = none) (hb : b.purpose.tag = some tag) (hfa : a.Fits) (hfb : b.Fits) :
    a.bytes ≠ b.bytes := by
  cases a <;> try cases ha
  case presence seq label ctx => exact presence_ne_tagged hfa hb
  case context ctx =>
    intro heq
    have hlt := context_length_lt hb
    rw [← heq, bytes, ctx.2] at hlt
    omega
  case cert c =>
    cases b <;> try cases hb
    case resp view => exact cert_ne_transcript hfa view _
    case confirm view => exact cert_ne_transcript hfa view _
    case route signer issued endpoints => exact cert_ne_route hfa hfb
    case vouch target ctx epoch assertedAt => exact cert_ne_vouch hfa target ctx epoch assertedAt

theorem cert_eq_context_iff (c : Cert) (ctx : Gid) : c.encode = ctx.1 ↔ (cert c).Clash (context ctx) := by
  constructor
  · intro h
    have hlen := congrArg List.length h
    simp only [Cert.encode, Cert.fields, putFields_cons, putFields_nil, List.length_append, putBytes_length, be8,
      beBytes_length, List.length_nil, ctx.2] at hlen
    have hvk : c.subject.sigVk = [] := List.length_eq_zero_iff.mp (by omega)
    have hlabel : utf8 c.label = utf8 "" := List.length_eq_zero_iff.mp (by omega)
    refine ⟨hvk, utf8_injective hlabel, ?_⟩
    rw [← h, Cert.encode, Cert.fields, hvk, hlabel]
    rfl
  · rintro ⟨hvk, hlabel, hctx⟩
    rw [hctx, Cert.encode, Cert.fields, hvk, hlabel]
    rfl

theorem cert_eq_presence_iff (h : (cert c).Fits) (seq : UInt64) (label : String) (ctx : Gid) :
    c.encode = signInput seq label ctx ↔ (cert c).Clash (presence seq label ctx) := by
  have hseq := seq.toNat_lt
  have hhi : seq.toNat / 2 ^ 32 < 2 ^ 32 := by omega
  simp only [Clash, Cert.encode, Cert.fields, putFields_cons, putFields_nil, signInput, putWords, putBytes,
    List.append_assoc, List.append_nil]
  constructor
  · intro heq
    obtain ⟨hlen, heq⟩ := putU32_selfDelimiting (lt_of_le_MAX_FRAME h.1) hhi heq
    exact ⟨hlen.symm, heq.symm⟩
  · rintro ⟨hlen, heq⟩
    rw [hlen, heq]

theorem bytes_ne_of_tag (hta : a.purpose.tag = some tag) (hpurpose : a.purpose ≠ b.purpose) (ha : a.Fits)
    (hb : b.Fits) : a.bytes ≠ b.bytes := by
  intro heq
  cases htb : b.purpose.tag with
  | some tag' => exact hpurpose (purpose_eq_of_tag hta htb heq)
  | none => exact untagged_ne_tagged htb hta hb ha heq.symm

theorem not_clash_of_tag (h : a.purpose.tag = some tag ∨ b.purpose.tag = some tag) : ¬ a.Clash b := by
  intro hclash
  cases a <;> cases b <;> first | exact hclash | skip
  all_goals rcases h with h | h <;> cases h

theorem untagged_bytes_eq_iff (hpurpose : a.purpose ≠ b.purpose) (hta : a.purpose.tag = none)
    (htb : b.purpose.tag = none) (ha : a.Fits) (hb : b.Fits) : a.bytes = b.bytes ↔ a.Clash b ∨ b.Clash a := by
  have hlen (seq : UInt64) (label : String) (ctx ctx' : Gid) : signInput seq label ctx ≠ ctx'.1 := fun h => by
    have hlen := congrArg List.length h
    simp only [signInput, List.length_append, putWords_length, putBytes_length, ctx.2, ctx'.2] at hlen
    omega
  cases a <;> try cases hta
  case presence seq label ctx =>
    cases b <;> try cases htb
    case presence => exact absurd rfl hpurpose
    case context ctx' => exact iff_of_false (hlen seq label ctx ctx') (by simp [Clash])
    case cert c =>
      rw [eq_comm]
      exact (cert_eq_presence_iff hb seq label ctx).trans (by simp [Clash])
  case context ctx =>
    cases b <;> try cases htb
    case presence seq label ctx' => exact iff_of_false (hlen seq label ctx' ctx).symm (by simp [Clash])
    case context => exact absurd rfl hpurpose
    case cert c =>
      rw [eq_comm]
      exact (cert_eq_context_iff c ctx).trans (by simp [Clash])
  case cert c =>
    cases b <;> try cases htb
    case presence seq label ctx => exact (cert_eq_presence_iff ha seq label ctx).trans (by simp [Clash])
    case context ctx => exact (cert_eq_context_iff c ctx).trans (by simp [Clash])
    case cert => exact absurd rfl hpurpose

/-- Strings of two purposes are different unless one is a certificate that reads as the other. -/
theorem bytes_ne_iff (hpurpose : a.purpose ≠ b.purpose) (ha : a.Fits) (hb : b.Fits) :
    a.bytes ≠ b.bytes ↔ ¬ a.Clash b ∧ ¬ b.Clash a := by
  cases hta : a.purpose.tag with
  | some tag =>
    exact iff_of_true (bytes_ne_of_tag hta hpurpose ha hb) ⟨not_clash_of_tag (.inl hta), not_clash_of_tag (.inr hta)⟩
  | none =>
    cases htb : b.purpose.tag with
    | some tag =>
      exact iff_of_true (untagged_ne_tagged hta htb ha hb) ⟨not_clash_of_tag (.inr htb), not_clash_of_tag (.inl htb)⟩
    | none => rw [ne_eq, untagged_bytes_eq_iff hpurpose hta htb ha hb, not_or]

theorem bytes_ne_sample :
    let a := cert ⟨⟨[1]⟩, "device:phone", 1000, 0⟩
    let b := presence 5 "K1ABC" (padArr 32 [])
    a.purpose ≠ b.purpose ∧ a.Fits ∧ b.Fits ∧ a.bytes ≠ b.bytes := by
  intro a b
  have ha : a.Fits := ⟨show [1].length ≤ MAX_FRAME by decide, show (utf8 "device:phone").length ≤ MAX_FRAME by decide⟩
  have hb : b.Fits := show (utf8 "K1ABC").length ≤ MAX_FRAME by decide
  refine ⟨by decide, ha, hb, (bytes_ne_iff (by decide) ha hb).mpr ⟨?_, ?_⟩⟩
  · rintro ⟨hlen, -⟩
    exact absurd hlen (by decide)
  · simp [b, Clash]

/-! A certificate for a key of 2592 bytes that has the bytes of a presence: the key is the lower half of the
sequence number, the length of the name and most of the name. -/

def clashKey : IdentityPublic := ⟨putU32 5 ++ (putU32 2588 ++ List.replicate 2584 65)⟩

def clashCert : Cert := ⟨clashKey, "\x00\x00\x00 contexts", 1000, 0⟩

def clashTail : Bytes := putFields [utf8 "\x00\x00\x00 contexts", be8 1000, be8 0]

def clashLabel : String := String.ofList (List.replicate 2584 'A' ++ ['\x00', '\x00', '\x00', '\x0c'])

def clashContext : Gid := ⟨clashTail.drop 8, by decide⟩

theorem utf8_replicate_append (n : Nat) (l : List Char) : utf8 (String.ofList (List.replicate n 'A' ++ l)) =
    List.replicate n 65 ++ l.flatMap String.utf8EncodeChar := by
  have hlist (l : List Char) : utf8 (String.ofList l) = l.flatMap String.utf8EncodeChar := by
    simp [utf8, String.toUTF8, List.utf8Encode]
  rw [hlist, List.flatMap_append]
  congr 1
  induction n with
  | zero => rfl
  | succ n ih =>
    rw [List.replicate_succ, List.flatMap_cons, ih]
    rfl

theorem utf8_clashLabel : utf8 clashLabel = List.replicate 2584 65 ++ [0, 0, 0, 12] :=
  utf8_replicate_append 2584 ['\x00', '\x00', '\x00', '\x0c']

theorem clashKey_length : clashKey.sigVk.length = SIG_VK_LEN := by
  simp only [clashKey, putU32, List.length_append, beBytes_length, List.length_replicate, SIG_VK_LEN]

theorem clash_clashCert : (cert clashCert).Clash (presence 0xa2000000005 clashLabel clashContext) := by
  refine ⟨clashKey_length.symm, ?_⟩
  show putU32 5 ++ putBytes (utf8 clashLabel) ++ putBytes (clashTail.drop 8) = clashKey.sigVk ++ clashTail
  have htail : [0, 0, 0, 12] ++ putBytes (clashTail.drop 8) = clashTail := by decide
  rw [utf8_clashLabel, putBytes, List.length_append, List.length_replicate, clashKey]
  simp only [List.append_assoc]
  rw [htail]
  rfl

/-- A device certificate is a presence of the device's account; one without key and label is a chat context. -/
theorem cert_reads_as_presence :
    (cert clashCert).bytes = (presence 0xa2000000005 clashLabel clashContext).bytes ∧
      ∃ ctx, (cert ⟨⟨[]⟩, "", 1000, 0⟩).bytes = (context ctx).bytes := by
  refine ⟨?_, ⟨Cert.encode ⟨⟨[]⟩, "", 1000, 0⟩, by decide⟩, rfl⟩
  have hfits : (cert clashCert).Fits := by
    refine ⟨clashKey_length.le.trans (by decide), ?_⟩
    show (utf8 "\x00\x00\x00 contexts").length ≤ MAX_FRAME
    decide
  exact (cert_eq_presence_iff hfits ..).mpr clash_clashCert

end IdentitySigned
end Talkrypt.Core
