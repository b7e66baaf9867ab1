import Talkrypt.Core.Descriptor

/-!
# What is signed for one chat

Presences, vouches and grouping proofs are signed for the context of a chat. Two chats have the same context
when the end of one token is the beginning of the other's channel, and then each takes what was signed for the
other. Otherwise no signature is taken in both (`separate_iff`).
-/

namespace Talkrypt.Core
open TreeKem (Scheme)
open Account

def OneMessage (S : Scheme) : Prop :=
  ∀ pk m m' sig, S.verify pk m sig = .ok () → S.verify pk m' sig = .ok () → m = m'

def NamePresence.signature : NamePresence → Option (IdentityPublic × Bytes)
  | .bare .. => none
  | .linked _ presentation _ sig => presentation.chain.leaf.map fun leaf => (leaf, sig)

structure NoReplay (S : Scheme) (fingerprint : IdentityPublic → Fingerprint) (ctx ctx' : Gid) : Prop where
  presence : ∀ {revocations revocations' : Finset (Fingerprint × Fingerprint)} {now now' : UInt64} {np np' : NamePresence}
    {v v' : VerifiedName}, np.resolve S fingerprint revocations ctx now = some v →
      np'.resolve S fingerprint revocations' ctx' now' = some v' → np.signature ≠ np'.signature
  vouch : ∀ {bytes bytes' : Bytes} {v v' : Vouch}, Vouch.admitted S fingerprint ctx bytes = some v →
    Vouch.admitted S fingerprint ctx' bytes' = some v' → (v.voucher, v.sig) ≠ (v'.voucher, v'.sig)
  grouping : ∀ {bytes bytes' : Bytes} {p p' : LinkagePayload} {senderFp senderFp' : Fingerprint} {now now' : UInt64},
    LinkagePayload.decode bytes = some p → LinkagePayload.decode bytes' = some p' →
      p.proves S fingerprint ctx senderFp now = true → p'.proves S fingerprint ctx' senderFp' now' = true →
      (p.cert.cert.subject, p.ctxSig) ≠ (p'.cert.cert.subject, p'.ctxSig)

namespace ChatDescriptor

def context (sha256 : Bytes → Gid) (d : ChatDescriptor) : Gid := chatContext sha256 d.inviteToken d.channel

/-- The token of the second is longer by the beginning of the first one's channel. -/
def Shifted (d d' : ChatDescriptor) : Prop :=
  ∃ x, x ≠ [] ∧ d'.inviteToken = d.inviteToken ++ x ∧ utf8 d.channel = x ++ utf8 d'.channel

end ChatDescriptor

variable {S : Scheme} {fingerprint : IdentityPublic → Fingerprint} {ctx ctx' : Gid}

/-! ## Signed messages name the context -/

theorem signInput_context {seq seq' : UInt64} {label label' : String} (h : signInput seq label ctx = signInput seq' label' ctx') :
    ctx = ctx' := by
  have hlast : putBytes ctx.1 = putBytes ctx'.1 :=
    (List.append_inj' h (by rw [putBytes_length, putBytes_length, ctx.2, ctx'.2])).2
  exact Subtype.ext (List.append_inj' hlast (by rw [ctx.2, ctx'.2])).2

theorem vouchSignedBytes_context {target target' : VouchTarget} {epoch epoch' assertedAt assertedAt' : UInt64}
    (h : vouchSignedBytes target ctx epoch assertedAt = vouchSignedBytes target' ctx' epoch' assertedAt') : ctx = ctx' := by
  have hepoch := (List.append_inj' h (by rw [putWords_length, putWords_length])).1
  have hctx := (List.append_inj' hepoch (by rw [putWords_length, putWords_length])).1
  have hlast : putBytes ctx.1 = putBytes ctx'.1 :=
    (List.append_inj' hctx (by rw [putBytes_length, putBytes_length, ctx.2, ctx'.2])).2
  exact Subtype.ext (List.append_inj' hlast (by rw [ctx.2, ctx'.2])).2

theorem verify_of_resolve {revocations : Finset (Fingerprint × Fingerprint)} {now : UInt64} {np : NamePresence}
    {v : VerifiedName} (h : np.resolve S fingerprint revocations ctx now = some v) :
    ∃ leaf sig seq label, np.signature = some (leaf, sig) ∧ S.verify leaf (signInput seq label ctx) sig = .ok () := by
  obtain ⟨seq, presentation, sig, rfl⟩ := NamePresence.context_of_resolve S fingerprint h
  obtain ⟨v', hverify, -⟩ := Option.bind_eq_some_iff.mp h
  obtain ⟨leaf, account, label, hleaf, -, -, hsig, -⟩ := NamePresence.verifyLinked_eq_some S fingerprint hverify
  refine ⟨leaf, sig, seq, label, ?_, hsig⟩
  rw [NamePresence.signature, hleaf, Option.map_some]

theorem verify_of_admitted {bytes : Bytes} {v : Vouch} (h : Vouch.admitted S fingerprint ctx bytes = some v) :
    S.verify v.voucher (vouchSignedBytes v.target ctx v.epoch v.assertedAt) v.sig = .ok () := by
  unfold Vouch.admitted at h
  cases hdecode : Vouch.decode bytes with
  | none =>
    rw [hdecode] at h
    cases h
  | some u =>
    rw [hdecode] at h
    dsimp only at h
    split_ifs at h with hctx hverify
    cases h
    rw [← not_not.mp hctx]
    exact except_eq_ok_of_isOk hverify

theorem noReplay (hS : OneMessage S) (hne : ctx ≠ ctx') : NoReplay S fingerprint ctx ctx' where
  presence h h' heq := by
    obtain ⟨leaf, sig, seq, label, hsig, hverify⟩ := verify_of_resolve h
    obtain ⟨leaf', sig', seq', label', hsig', hverify'⟩ := verify_of_resolve h'
    rw [hsig, hsig'] at heq
    cases heq
    exact hne (signInput_context (hS _ _ _ _ hverify hverify'))
  vouch h h' heq := by
    have hverify := verify_of_admitted h
    have hverify' := verify_of_admitted h'
    rw [Prod.mk.injEq] at heq
    rw [heq.1, heq.2] at hverify
    exact hne (vouchSignedBytes_context (hS _ _ _ _ hverify hverify'))
  grouping hp hp' h h' heq := by
    have hverify := LinkagePayload.verify_of_proves hp h
    have hverify' := LinkagePayload.verify_of_proves hp' h'
    rw [Prod.mk.injEq] at heq
    rw [heq.1, heq.2] at hverify
    exact hne (Subtype.ext (hS _ _ _ _ hverify hverify'))

/-! ## Which chats share a context -/

namespace ChatDescriptor

variable {d d' : ChatDescriptor} {sha256 : Bytes → Gid}

theorem Shifted.context_eq (h : Shifted d d') : d.context sha256 = d'.context sha256 := by
  obtain ⟨x, -, htoken, hchannel⟩ := h
  rw [context, context, chatContext, chatContext, htoken, hchannel, List.append_assoc]

theorem shifted_of_append_eq (hne : (d.inviteToken, d.channel) ≠ (d'.inviteToken, d'.channel))
    (h : d.inviteToken ++ utf8 d.channel = d'.inviteToken ++ utf8 d'.channel) : Shifted d d' ∨ Shifted d' d := by
  obtain ⟨x, htoken, hchannel⟩ | ⟨x, htoken, hchannel⟩ := List.append_eq_append_iff.mp h
  · refine .inl ⟨x, ?_, htoken, hchannel⟩
    rintro rfl
    exact hne (Prod.ext (htoken.trans (List.append_nil _)).symm (utf8_injective hchannel))
  · refine .inr ⟨x, ?_, htoken, hchannel⟩
    rintro rfl
    exact hne (Prod.ext (htoken.trans (List.append_nil _)) (utf8_injective hchannel).symm)

/-- Where the hash tells two inputs apart, the chats of different pairs of token and channel have different
contexts, and no signature is taken in both, exactly if neither token continues the other by the beginning of
its channel. -/
theorem separate_iff (hS : OneMessage S)
    (hhash : d.context sha256 = d'.context sha256 → d.inviteToken ++ utf8 d.channel = d'.inviteToken ++ utf8 d'.channel)
    (hne : (d.inviteToken, d.channel) ≠ (d'.inviteToken, d'.channel)) :
    (d.context sha256 ≠ d'.context sha256 ∧ NoReplay S fingerprint (d.context sha256) (d'.context sha256)) ↔
      ¬ (Shifted d d' ∨ Shifted d' d) := by
  constructor
  · rintro ⟨hctx, -⟩ (h | h)
    · exact hctx h.context_eq
    · exact hctx h.context_eq.symm
  · intro h
    have hctx : d.context sha256 ≠ d'.context sha256 := fun heq => h (shifted_of_append_eq hne (hhash heq))
    exact ⟨hctx, noReplay hS hctx⟩

def invite (inviteToken : Bytes) (channel : String) : ChatDescriptor where
  version := 1
  topology := .p2p
  persistence := .ephemeral
  suiteId := "s"
  endpoints := []
  inviteToken := inviteToken
  channel := channel

def carrying : Scheme :=
  { Scheme.plain with
    sign := fun (k : UInt8) m => k :: m
    verify := fun pk m sig => if sig = pk.sigVk ++ m then .ok () else .error .badSignature }

theorem oneMessage_carrying : OneMessage carrying := by
  intro pk m m' sig h h'
  have heq : sig = pk.sigVk ++ m := by
    by_contra hne
    exact nomatch (if_neg hne).symm.trans h
  have heq' : sig = pk.sigVk ++ m' := by
    by_contra hne
    exact nomatch (if_neg hne).symm.trans h'
  exact List.append_cancel_left (heq.symm.trans heq')

/-- Two chats with one token and the channels `a` and `b`. -/
theorem separate_channels :
    (invite [7] "a").context (padArr 32) ≠ (invite [7] "b").context (padArr 32) ∧
      NoReplay carrying (Env.plain.fingerprint) ((invite [7] "a").context (padArr 32)) ((invite [7] "b").context (padArr 32)) := by
  refine (separate_iff oneMessage_carrying ?_ (by decide)).mpr ?_
  · intro h
    exact absurd h (by decide)
  · rintro (⟨x, hx, htoken, -⟩ | ⟨x, hx, htoken, -⟩)
    · exact hx (List.append_cancel_left (htoken.symm.trans (List.append_nil _).symm))
    · exact hx (List.append_cancel_left (htoken.symm.trans (List.append_nil _).symm))

/-- The decoder takes two invites that differ in where the token ends; under every hash they are one context. -/
theorem shared_context :
    decodeBytes (invite (List.replicate 32 7) "ab").encodeBytes = .ok (invite (List.replicate 32 7) "ab") ∧
    decodeBytes (invite (List.replicate 32 7 ++ utf8 "a") "b").encodeBytes =
      .ok (invite (List.replicate 32 7 ++ utf8 "a") "b") ∧
    ((invite (List.replicate 32 7) "ab").inviteToken, (invite (List.replicate 32 7) "ab").channel) ≠
      ((invite (List.replicate 32 7 ++ utf8 "a") "b").inviteToken, (invite (List.replicate 32 7 ++ utf8 "a") "b").channel) ∧
    ∀ sha256 : Bytes → Gid, (invite (List.replicate 32 7) "ab").context sha256 =
      (invite (List.replicate 32 7 ++ utf8 "a") "b").context sha256 := by
  refine ⟨by decide +kernel, by decide +kernel, by decide +kernel, ?_⟩
  intro sha256
  exact Shifted.context_eq ⟨utf8 "a", by decide +kernel, rfl, by decide +kernel⟩

end ChatDescriptor
end Talkrypt.Core
