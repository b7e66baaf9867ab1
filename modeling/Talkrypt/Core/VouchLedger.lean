import Talkrypt.Lib.Run
import Talkrypt.Lib.Table
import Talkrypt.Core.Linkage
import Talkrypt.Core.VouchOverride

/-!
# The vouch ledger (`handle_vouch`, `handle_linkage` and `compute_vouch_decision` in `crates/core/src/engine.rs`)

A node records the latest vouch of each account for each subject, with the member that delivered it, and the
round of a gossip clock in which it last took a vouch of the account. The clock advances when another member
than the last is heard. A decision weighs the records of a subject by age, and by the groupings that the
delivering members have proven.
-/

namespace Talkrypt.Core
open TreeKem (Scheme)

structure VouchRecord where
  epoch : UInt64
  voucher : IdentityPublic
  senderFp : Fingerprint
deriving DecidableEq

/-- The fields of the engine that vouch and linkage payloads change. -/
structure Ledger where
  vouches : Table Fingerprint (Table Fingerprint VouchRecord) := ∅
  round : Nat := 0
  voucherRound : Table Fingerprint Nat := ∅
  lastRoundAdvancer : Option Fingerprint := none
  /-- The members that are certified by each grouping key. -/
  groupingsSeen : Table Bytes (List Fingerprint) := ∅
  linkageSeq : Table Fingerprint UInt64 := ∅

/-- What the viewer brings: the policy of the chat, its own settings and its contacts. -/
structure Viewer where
  vouchPolicy : VouchPolicy
  override : VouchOverride
  contacts : ContactStore

structure VouchEvent where
  subject : Fingerprint
  weightedScore : Int
  vouched : Bool
  inflationRejected : Bool
deriving DecidableEq

section
variable (S : Scheme) (fingerprint : IdentityPublic → Fingerprint) (context : Gid)

/-- The vouch in a payload, if it is for this chat, signed by its voucher and not for the voucher itself. -/
def Vouch.admitted (bytes : Bytes) : Option Vouch :=
  match Vouch.decode bytes with
  | none => none
  | some v =>
    if v.context ≠ context then none
    else if ¬ v.verify S then none
    else if fingerprint v.voucher = v.targetFp then none
    else some v

end

namespace Viewer

def policy (viewer : Viewer) : VouchPolicy := effectivePolicy viewer.vouchPolicy viewer.override

def relationshipOf (viewer : Viewer) (voucher : IdentityPublic) : Relationship :=
  if viewer.contacts.isFriend voucher then .friend
  else if viewer.contacts.isContact voucher then .contact
  else .stranger

end Viewer

namespace Ledger

def recordsOf (l : Ledger) (subject : Fingerprint) : Table Fingerprint VouchRecord :=
  (l.vouches.lookup subject).getD ∅

/-- A member is heard. Only another one than the last advances the clock. -/
def witnessGossipRound (l : Ledger) (member : Fingerprint) : Ledger :=
  if l.lastRoundAdvancer ≠ some member then
    { l with round := (l.round + 1) % 2 ^ 64, lastRoundAdvancer := some member }
  else l

/-- The grouping of each member. Of several groupings, the one that comes last in the map stays. -/
def groupingIndex (l : Ledger) : Table Fingerprint Bytes :=
  Table.insertAll ∅ (l.groupingsSeen.toList.flatMap fun e => e.2.map fun leaf => (leaf, e.1))

/-- The rounds since a voucher was last witnessed, cut to 32 bits. -/
def age (l : Ledger) (voucherFp : Fingerprint) : UInt32 :=
  UInt32.ofNat (l.round - (l.voucherRound.lookup voucherFp).getD 0)

section
variable (viewer : Viewer) (l : Ledger)

def view (voucherFp : Fingerprint) (rec : VouchRecord) : VoucherView where
  voucherFp := voucherFp
  relationship := viewer.relationshipOf rec.voucher
  roundsSinceWitnessed := l.age voucherFp
  grouping := l.groupingIndex.lookup rec.senderFp

def views (subject : Fingerprint) : List VoucherView :=
  (l.recordsOf subject).toList.map fun e => l.view viewer e.1 e.2

def computeVouchDecision (subject : Fingerprint) : VouchDecision := viewer.policy.evaluate (l.views viewer subject)

end

section
variable (S : Scheme) (fingerprint : IdentityPublic → Fingerprint) (context : Gid)

/-- The vouch in a payload, if it is newer than the one on record. -/
def accepted (l : Ledger) (bytes : Bytes) : Option Vouch :=
  match Vouch.admitted S fingerprint context bytes with
  | none => none
  | some v =>
    match (l.recordsOf v.targetFp).lookup (fingerprint v.voucher) with
    | none => some v
    | some existing => if v.epoch ≤ existing.epoch then none else some v

def record (l : Ledger) (senderFp : Fingerprint) (v : Vouch) : Ledger :=
  let voucherFp := fingerprint v.voucher
  { l with
    vouches := l.vouches.insert v.targetFp ((l.recordsOf v.targetFp).insert voucherFp ⟨v.epoch, v.voucher, senderFp⟩)
    voucherRound := l.voucherRound.insert voucherFp l.round }

def onVouch (l : Ledger) (senderFp : Fingerprint) (bytes : Bytes) : Ledger :=
  let l := l.witnessGossipRound senderFp
  match l.accepted S fingerprint context bytes with
  | none => l
  | some v => l.record fingerprint senderFp v

def handleVouch (viewer : Viewer) (l : Ledger) (senderFp : Fingerprint) (bytes : Bytes) : Ledger × Option VouchEvent :=
  let l' := l.onVouch S fingerprint context senderFp bytes
  (l', ((l.witnessGossipRound senderFp).accepted S fingerprint context bytes).map fun v =>
    let d := l'.computeVouchDecision viewer v.targetFp
    ⟨v.targetFp, d.weightedScore, d.vouched, d.inflationRejected⟩)

def handleLinkage (l : Ledger) (senderFp : Fingerprint) (bytes : Bytes) (now : UInt64) : Ledger :=
  let l := l.witnessGossipRound senderFp
  match LinkagePayload.decode bytes with
  | none => l
  | some p =>
    -- replayed or out of order
    if (l.linkageSeq.lookup senderFp).any (p.seq ≤ ·) then l
    else
      let l := { l with linkageSeq := l.linkageSeq.insert senderFp p.seq }
      if p.proves S fingerprint context senderFp now then
        let leaves := (l.groupingsSeen.lookup p.groupingPub).getD []
        { l with groupingsSeen := l.groupingsSeen.insert p.groupingPub (leaves.insert senderFp) }
      else l

end

/-! ## What a payload changes -/

variable {S : Scheme} {fingerprint : IdentityPublic → Fingerprint} {context : Gid} {l : Ledger} {senderFp : Fingerprint}
  {bytes : Bytes} {v : Vouch}

@[simp] theorem recordsOf_witnessGossipRound (l : Ledger) (member subject : Fingerprint) :
    (l.witnessGossipRound member).recordsOf subject = l.recordsOf subject := by
  unfold witnessGossipRound
  split <;> rfl

@[simp] theorem groupingsSeen_witnessGossipRound (l : Ledger) (member : Fingerprint) :
    (l.witnessGossipRound member).groupingsSeen = l.groupingsSeen := by
  unfold witnessGossipRound
  split <;> rfl

@[simp] theorem voucherRound_witnessGossipRound (l : Ledger) (member : Fingerprint) :
    (l.witnessGossipRound member).voucherRound = l.voucherRound := by
  unfold witnessGossipRound
  split <;> rfl

theorem recordsOf_record (l : Ledger) (senderFp : Fingerprint) (v : Vouch) (subject : Fingerprint) :
    (l.record fingerprint senderFp v).recordsOf subject =
      if subject = v.targetFp then (l.recordsOf subject).insert (fingerprint v.voucher) ⟨v.epoch, v.voucher, senderFp⟩
      else l.recordsOf subject := by
  unfold recordsOf record
  dsimp only
  rw [Table.lookup_insert_eq]
  split
  · next h => rw [h]; rfl
  · rfl

theorem accepted_eq_some : l.accepted S fingerprint context bytes = some v ↔
    Vouch.admitted S fingerprint context bytes = some v ∧
      ∀ existing, (l.recordsOf v.targetFp).lookup (fingerprint v.voucher) = some existing → existing.epoch < v.epoch := by
  unfold accepted
  cases Vouch.admitted S fingerprint context bytes with
  | none => simp
  | some u =>
    dsimp only
    cases hold : (l.recordsOf u.targetFp).lookup (fingerprint u.voucher) with
    | none =>
      dsimp only
      refine ⟨fun h => ⟨h, fun existing he => ?_⟩, fun h => h.1⟩
      cases h
      rw [hold] at he
      cases he
    | some existing =>
      dsimp only
      by_cases hle : u.epoch ≤ existing.epoch
      · rw [if_pos hle]
        refine iff_of_false nofun fun ⟨hu, hlt⟩ => ?_
        cases hu
        exact absurd (hlt existing hold) (UInt64.not_lt.mpr hle)
      · rw [if_neg hle]
        refine ⟨fun h => ⟨h, fun existing' he => ?_⟩, fun h => h.1⟩
        cases h
        rw [hold] at he
        cases he
        exact UInt64.not_le.mp hle

theorem accepted_witnessGossipRound (l : Ledger) (member : Fingerprint) :
    (l.witnessGossipRound member).accepted S fingerprint context bytes = l.accepted S fingerprint context bytes := by
  unfold accepted
  simp only [recordsOf_witnessGossipRound]

theorem onVouch_of_none (h : l.accepted S fingerprint context bytes = none) :
    l.onVouch S fingerprint context senderFp bytes = l.witnessGossipRound senderFp := by
  unfold onVouch
  dsimp only
  rw [accepted_witnessGossipRound, h]

theorem onVouch_of_some (h : l.accepted S fingerprint context bytes = some v) :
    l.onVouch S fingerprint context senderFp bytes = (l.witnessGossipRound senderFp).record fingerprint senderFp v := by
  unfold onVouch
  dsimp only
  rw [accepted_witnessGossipRound, h]

theorem recordsOf_onVouch (l : Ledger) (senderFp : Fingerprint) (bytes : Bytes) (subject : Fingerprint) :
    (l.onVouch S fingerprint context senderFp bytes).recordsOf subject =
      match l.accepted S fingerprint context bytes with
      | none => l.recordsOf subject
      | some v =>
        if subject = v.targetFp then (l.recordsOf subject).insert (fingerprint v.voucher) ⟨v.epoch, v.voucher, senderFp⟩
        else l.recordsOf subject := by
  cases h : l.accepted S fingerprint context bytes with
  | none => rw [onVouch_of_none h, recordsOf_witnessGossipRound]
  | some v => rw [onVouch_of_some h, recordsOf_record, recordsOf_witnessGossipRound]

theorem of_lookup_onVouch {subject voucherFp : Fingerprint} {rec : VouchRecord}
    (h : ((l.onVouch S fingerprint context senderFp bytes).recordsOf subject).lookup voucherFp = some rec) :
    (l.recordsOf subject).lookup voucherFp = some rec ∨
      ∃ v, l.accepted S fingerprint context bytes = some v ∧ v.targetFp = subject ∧ fingerprint v.voucher = voucherFp ∧
        rec = ⟨v.epoch, v.voucher, senderFp⟩ := by
  rw [recordsOf_onVouch] at h
  cases hacc : l.accepted S fingerprint context bytes with
  | none =>
    rw [hacc] at h
    exact .inl h
  | some v =>
    rw [hacc] at h
    dsimp only at h
    by_cases hs : subject = v.targetFp
    · rw [if_pos hs, Table.lookup_insert_eq] at h
      by_cases hvf : voucherFp = fingerprint v.voucher
      · rw [if_pos hvf] at h
        exact .inr ⟨v, rfl, hs.symm, hvf.symm, (Option.some.inj h).symm⟩
      · rw [if_neg hvf] at h
        exact .inl h
    · rw [if_neg hs] at h
      exact .inl h

theorem lookup_onVouch_ne_none {subject voucherFp : Fingerprint} (h : (l.recordsOf subject).lookup voucherFp ≠ none) :
    ((l.onVouch S fingerprint context senderFp bytes).recordsOf subject).lookup voucherFp ≠ none := by
  rw [recordsOf_onVouch]
  split
  · exact h
  · split
    · rw [Table.lookup_insert_eq]
      split
      · nofun
      · exact h
    · exact h

theorem lookup_onVouch_of_admitted (hv : Vouch.admitted S fingerprint context bytes = some v) :
    ((l.onVouch S fingerprint context senderFp bytes).recordsOf v.targetFp).lookup (fingerprint v.voucher) ≠ none := by
  by_cases hold : (l.recordsOf v.targetFp).lookup (fingerprint v.voucher) = none
  · have hacc : l.accepted S fingerprint context bytes = some v :=
      accepted_eq_some.mpr ⟨hv, fun existing he => by rw [hold] at he; cases he⟩
    rw [onVouch_of_some hacc, recordsOf_record, if_pos rfl, AList.lookup_insert]
    nofun
  · exact lookup_onVouch_ne_none hold

theorem decode_of_admitted (h : Vouch.admitted S fingerprint context bytes = some v) : Vouch.decode bytes = some v := by
  unfold Vouch.admitted at h
  cases hdecode : Vouch.decode bytes with
  | none =>
    rw [hdecode] at h
    cases h
  | some u =>
    rw [hdecode] at h
    dsimp only at h
    split_ifs at h
    exact h

theorem decode_signVouch (hS : S.Lawful) (voucher : S.SigSeed) (target : VouchTarget) (epoch assertedAt : UInt64) :
    Vouch.decode (Vouch.signVouch voucher target context epoch assertedAt).encode =
      some (Vouch.signVouch voucher target context epoch assertedAt) :=
  Vouch.decode_encode (hS.sign_length ..) ((hS.sigPublic_length voucher).trans_le hS.sigVkLen_le)

theorem admitted_signVouch (hS : S.Lawful) (voucher : S.SigSeed) (target : VouchTarget) (epoch assertedAt : UInt64)
    (hne : fingerprint (S.sigPublic voucher) ≠ target.fp) :
    Vouch.admitted S fingerprint context (Vouch.signVouch voucher target context epoch assertedAt).encode =
      some (Vouch.signVouch voucher target context epoch assertedAt) := by
  have hverify : (Vouch.signVouch voucher target context epoch assertedAt).verify S = true := by
    rw [Vouch.verify]
    exact congrArg Except.isOk (hS.verify_sign voucher _)
  rw [Vouch.admitted, decode_signVouch hS]
  dsimp only
  have hself : ¬ fingerprint (Vouch.signVouch voucher target context epoch assertedAt).voucher =
    (Vouch.signVouch voucher target context epoch assertedAt).targetFp := hne
  rw [show (Vouch.signVouch voucher target context epoch assertedAt).context = context from rfl, if_neg (not_not.mpr rfl),
    if_neg (not_not.mpr hverify), if_neg hself]

@[simp] theorem groupingsSeen_onVouch (l : Ledger) (senderFp : Fingerprint) (bytes : Bytes) :
    (l.onVouch S fingerprint context senderFp bytes).groupingsSeen = l.groupingsSeen := by
  cases h : l.accepted S fingerprint context bytes with
  | none => rw [onVouch_of_none h, groupingsSeen_witnessGossipRound]
  | some v =>
    rw [onVouch_of_some h]
    exact groupingsSeen_witnessGossipRound l senderFp

@[simp] theorem round_onVouch (l : Ledger) (senderFp : Fingerprint) (bytes : Bytes) :
    (l.onVouch S fingerprint context senderFp bytes).round = (l.witnessGossipRound senderFp).round := by
  cases h : l.accepted S fingerprint context bytes with
  | none => rw [onVouch_of_none h]
  | some v =>
    rw [onVouch_of_some h]
    rfl

theorem handleLinkage_eq (S : Scheme) (fingerprint : IdentityPublic → Fingerprint) (context : Gid) (l : Ledger) (senderFp : Fingerprint) (bytes : Bytes) (now : UInt64) :
    ∃ groupingsSeen linkageSeq, l.handleLinkage S fingerprint context senderFp bytes now =
      { l.witnessGossipRound senderFp with groupingsSeen, linkageSeq } := by
  unfold handleLinkage
  dsimp only
  split
  · exact ⟨_, _, rfl⟩
  · split
    · exact ⟨_, _, rfl⟩
    · split <;> exact ⟨_, _, rfl⟩

theorem round_witnessGossipRound {n : Nat} (hl : l.round ≤ n) (hn : n + 1 < 2 ^ 64) (member : Fingerprint) :
    l.round ≤ (l.witnessGossipRound member).round ∧ (l.witnessGossipRound member).round ≤ n + 1 := by
  unfold witnessGossipRound
  split
  · dsimp only
    rw [Nat.mod_eq_of_lt (by omega)]
    omega
  · omega

end Ledger
end Talkrypt.Core
