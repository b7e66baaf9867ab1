import Talkrypt.Core.Vouch

/-!
# Grouping proofs (`crates/core/src/linkage.rs`, `crates/crypto/src/grouping.rs`)

A member that wants its devices to be known as one person has each of them certified by a grouping key. The proof
that it broadcasts is the certificate, and a signature of the device on the chat's context, which binds the proof
to the chat and to the holder of the device.
-/

namespace Talkrypt.Core
open TreeKem (Scheme)
open Account

inductive LinkageProof where
  /-- For an account: the chain and a signature by its leaf. -/
  | chain (chain : IdentityChain) (ctxSig : Bytes)
  /-- For a grouping: the member, its certificate and a signature by it. -/
  | grouping (member : IdentityPublic) (cert : SignedCert) (ctxSig : Bytes)
deriving DecidableEq

namespace LinkageProof

def encode : LinkageProof → Bytes
  | chain c ctxSig => putU8 0 ++ putBytes c.encode ++ putBytes ctxSig
  | grouping member cert ctxSig => putU8 1 ++ putBytes member.sigVk ++ putBytes cert.encode ++ putBytes ctxSig

def get : Reader Unit LinkageProof := do
  let tag ← Reader.getU8
  if tag = 0 then
    let bytes ← Reader.getBytes
    match IdentityChain.decode bytes with
    | .error _ => throw ()
    | .ok c =>
      let ctxSig ← Reader.getBytes
      pure (chain c ctxSig)
  else if tag = 1 then
    let sigVk ← Reader.getBytes
    let bytes ← Reader.getBytes
    match SignedCert.decode bytes with
    | .error _ => throw ()
    | .ok cert =>
      let ctxSig ← Reader.getBytes
      pure (grouping ⟨sigVk⟩ cert ctxSig)
  else throw ()

def decode (bytes : Bytes) : Option LinkageProof :=
  (Reader.parse (do let p ← get; Reader.finish; pure p) bytes).toOption

theorem decode_encode_grouping {member : IdentityPublic} {cert : SignedCert} {ctxSig : Bytes}
    (hmember : member.sigVk.length ≤ MAX_FRAME) (hcert : cert.encode.length ≤ MAX_FRAME) (hsig : ctxSig.length ≤ MAX_FRAME) :
    decode (grouping member cert ctxSig).encode = some (grouping member cert ctxSig) := by
  have hlast := Reader.getBytes_putBytes (ε := Unit) hsig []
  rw [List.append_nil] at hlast
  have hdecode : SignedCert.decode cert.encode = .ok cert := SignedCert.decode_encode hcert
  have hget : get (grouping member cert ctxSig).encode = .ok (grouping member cert ctxSig, []) := by
    simp only [get, encode, List.append_assoc]
    rw [Reader.bind_ok (Reader.getU8_putU8 1 _), if_neg (by decide), if_pos rfl,
      Reader.bind_ok (Reader.getBytes_putBytes hmember _), Reader.bind_ok (Reader.getBytes_putBytes hcert _), hdecode]
    dsimp only
    rw [Reader.bind_ok hlast]
    rfl
  rw [decode, Reader.parse, Reader.bind_ok hget, Reader.bind_ok Reader.finish_nil]
  rfl

end LinkageProof

/-- What a member broadcasts: a grouping proof for itself. -/
structure LinkagePayload where
  groupingPub : Bytes
  cert : SignedCert
  ctxSig : Bytes
  seq : UInt64
deriving DecidableEq

namespace LinkagePayload

def encode (p : LinkagePayload) : Bytes :=
  putU8 0 ++ putBytes p.groupingPub ++ putBytes p.cert.encode ++ putBytes p.ctxSig ++ putWords p.seq

def get : Reader Unit LinkagePayload := do
  let tag ← Reader.getU8
  if tag = 0 then
    let groupingPub ← Reader.getBytes
    let bytes ← Reader.getBytes
    match SignedCert.decode bytes with
    | .error _ => throw ()
    | .ok cert =>
      let ctxSig ← Reader.getBytes
      let seq ← Vouch.getWords
      Reader.finish
      pure { groupingPub, cert, ctxSig, seq }
  else throw ()

def decode (bytes : Bytes) : Option LinkagePayload := (Reader.parse get bytes).toOption

theorem lengths_of_decode {bytes : Bytes} {p : LinkagePayload} (h : decode bytes = some p) :
    p.cert.encode.length ≤ MAX_FRAME ∧ p.ctxSig.length ≤ MAX_FRAME := by
  cases hget : get bytes with
  | error e =>
    rw [decode, Reader.parse, hget] at h
    cases h
  | ok r =>
    obtain ⟨p', t⟩ := r
    rw [decode, Reader.parse, hget] at h
    cases h
    obtain ⟨tag, u, -, h⟩ := Reader.bind_eq_ok.mp hget
    split at h
    · obtain ⟨groupingPub, v, -, h⟩ := Reader.bind_eq_ok.mp h
      obtain ⟨certBytes, w, hcertBytes, h⟩ := Reader.bind_eq_ok.mp h
      cases hcert : SignedCert.decode certBytes with
      | error e =>
        rw [hcert] at h
        cases h
      | ok cert =>
        rw [hcert] at h
        dsimp only at h
        obtain ⟨ctxSig, x, hctxSig, h⟩ := Reader.bind_eq_ok.mp h
        obtain ⟨seq, y, -, h⟩ := Reader.bind_eq_ok.mp h
        obtain ⟨-, z, -, h⟩ := Reader.bind_eq_ok.mp h
        cases h
        have hread := (SignedCert.reads_read.accepts (parseAll_eq_ok.mp hcert)).1
        rw [List.append_nil] at hread
        exact ⟨hread ▸ (Reader.getBytes_eq_ok hcertBytes).2, (Reader.getBytes_eq_ok hctxSig).2⟩
    · cases h

end LinkagePayload

structure Claim where
  predicate : Predicate
  context : Gid

section
variable (S : Scheme) (fingerprint : IdentityPublic → Fingerprint)

def verifyGroupingCert (groupingPub : IdentityPublic) (cert : SignedCert) (member : IdentityPublic) (now : UInt64) : Bool :=
  groupingPub = cert.issuer && member = cert.cert.subject && cert.cert.validAt now && (cert.verifySignature S).isOk

/-- The account of a valid chain whose leaf signed the context. -/
def verifyChainToAccount (now : UInt64) (chain : IdentityChain) (ctxSig : Bytes) (context : Gid) : Option Fingerprint := do
  let account ← chain.links.head?.map (·.issuer)
  let leaf ← chain.leaf
  if ¬ (chain.verify S account leaf now).isOk then none
  else if ¬ (S.verify leaf context.1 ctxSig).isOk then none
  else some (fingerprint account)

def Claim.verify (claim : Claim) (now : UInt64) (proof : Bytes) : Bool :=
  match LinkageProof.decode proof with
  | none => false
  | some lp =>
    match claim.predicate, lp with
    | .linkedToAccount accountFp, .chain chain ctxSig =>
      verifyChainToAccount S fingerprint now chain ctxSig claim.context = some accountFp
    | .derivedFromNamed ancestorFp, .chain chain ctxSig =>
      (verifyChainToAccount S fingerprint now chain ctxSig claim.context).isSome &&
        chain.links.any (fingerprint ·.issuer = ancestorFp)
    | .grouping groupingPub, .grouping member cert ctxSig =>
      verifyGroupingCert S ⟨groupingPub⟩ cert member now && (S.verify member claim.context.1 ctxSig).isOk
    | _, _ => false

/-- What `handle_linkage` asks of a payload from this sender: the proof verifies, for the sender itself. -/
def LinkagePayload.proves (p : LinkagePayload) (context : Gid) (senderFp : Fingerprint) (now : UInt64) : Bool :=
  fingerprint p.cert.cert.subject = senderFp &&
    Claim.verify S fingerprint ⟨.grouping p.groupingPub, context⟩ now (LinkageProof.grouping p.cert.cert.subject p.cert p.ctxSig).encode

variable {S fingerprint} {context : Gid}

theorem LinkagePayload.verify_of_proves {bytes : Bytes} {p : LinkagePayload} (hp : LinkagePayload.decode bytes = some p)
    {senderFp : Fingerprint} {now : UInt64} (h : p.proves S fingerprint context senderFp now = true) :
    S.verify p.cert.cert.subject context.1 p.ctxSig = .ok () := by
  obtain ⟨hcert, hsig⟩ := lengths_of_decode hp
  have hsubject : p.cert.cert.subject.sigVk.length ≤ MAX_FRAME := by
    have hinner : p.cert.cert.encode.length + 4 ≤ p.cert.encode.length := length_le_putFields (by simp)
    have hkey : p.cert.cert.subject.sigVk.length + 4 ≤ p.cert.cert.encode.length :=
      length_le_putFields (by simp [Cert.fields])
    omega
  have hproof := (Bool.and_eq_true_iff.mp h).2
  rw [Claim.verify, LinkageProof.decode_encode_grouping hsubject hcert hsig] at hproof
  exact except_eq_ok_of_isOk (Bool.and_eq_true_iff.mp hproof).2

end
end Talkrypt.Core
