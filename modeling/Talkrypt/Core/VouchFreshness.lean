import Talkrypt.Core.VouchLedger

/-!
# Withdrawn and ageing vouches

A withdrawal is broadcast as a vouch of a higher epoch, which the receiver records and counts in full like any
other (`revocationEffective_iff`). The age of a vouch is kept for each voucher and not for each vouch, so a vouch
for one subject makes all vouches of its account young again (`Watched.perVouch_iff`).
-/

namespace Talkrypt.Core
open TreeKem (Scheme)

def Viewer.Counts (viewer : Viewer) (voucher : IdentityPublic) : Prop :=
  viewer.policy.freshnessIntervalRounds ≠ 0 ∧
    viewer.policy.eligibility.allows (viewer.relationshipOf voucher) = true ∧
    viewer.policy.weighting.weightFor (viewer.relationshipOf voucher) ≠ 0

namespace Ledger
variable {S : Scheme} {fingerprint : IdentityPublic → Fingerprint} {context : Gid} {l : Ledger} {viewer : Viewer}
  {senderFp subject voucherFp : Fingerprint} {rec : VouchRecord}

/-! ## Withdrawal -/

/-- What `revoke_vouch` broadcasts at the time `now`. -/
def revokeVouch (voucher : S.SigSeed) (target : VouchTarget) (context : Gid) (now : UInt64) : Bytes :=
  (Vouch.signVouch voucher target context (now + 1) now).encode

def contribution (viewer : Viewer) (l : Ledger) (subject voucherFp : Fingerprint) : Int :=
  match (l.recordsOf subject).lookup voucherFp with
  | none => 0
  | some rec =>
    let v := l.view viewer voucherFp rec
    if viewer.policy.eligible v then viewer.policy.stake (l.views viewer subject) v else 0

/-- The vouches on record were made with account keys. -/
def Signed (S : Scheme) (l : Ledger) : Prop :=
  ∀ subject voucherFp rec, (l.recordsOf subject).lookup voucherFp = some rec → ∃ k, rec.voucher = S.sigPublic k

/-- After a withdrawal the voucher adds nothing to the score of the subject, and the score has not gone up. -/
def RevocationEffective (S : Scheme) (fingerprint : IdentityPublic → Fingerprint) (context : Gid) (viewer : Viewer) : Prop :=
  ∀ l : Ledger, l.Signed S → ∀ (voucher : S.SigSeed) (target : VouchTarget) (now : UInt64) (senderFp : Fingerprint),
    let l' := l.onVouch S fingerprint context senderFp (revokeVouch voucher target context now)
    l'.contribution viewer target.fp (fingerprint (S.sigPublic voucher)) = 0 ∧
      (l'.computeVouchDecision viewer target.fp).weightedScore ≤ (l.computeVouchDecision viewer target.fp).weightedScore

theorem age_record (l : Ledger) (senderFp : Fingerprint) (v : Vouch) :
    (l.record fingerprint senderFp v).age (fingerprint v.voucher) = 0 := by
  rw [age, record]
  dsimp only
  rw [AList.lookup_insert, Option.getD_some, Nat.sub_self]
  rfl

theorem contribution_onVouch {bytes : Bytes} {v : Vouch} (hacc : l.accepted S fingerprint context bytes = some v)
    (hcounts : viewer.Counts v.voucher) :
    ((l.onVouch S fingerprint context senderFp bytes).contribution viewer v.targetFp (fingerprint v.voucher)).natAbs =
      (viewer.policy.weighting.weightFor (viewer.relationshipOf v.voucher)).toNat := by
  obtain ⟨hinterval, hallows, -⟩ := hcounts
  rw [onVouch_of_some hacc]
  generalize l.witnessGossipRound senderFp = l₀
  have hlookup : ((l₀.record fingerprint senderFp v).recordsOf v.targetFp).lookup (fingerprint v.voucher) =
      some ⟨v.epoch, v.voucher, senderFp⟩ := by
    rw [recordsOf_record, if_pos rfl, AList.lookup_insert]
  have hdecayed : viewer.policy.decayed ((l₀.record fingerprint senderFp v).view viewer (fingerprint v.voucher)
      ⟨v.epoch, v.voucher, senderFp⟩) = (viewer.policy.weighting.weightFor (viewer.relationshipOf v.voucher)).toNat :=
    VouchPolicy.decayed_fresh hinterval (age_record l₀ senderFp v)
  have heligible : viewer.policy.eligible ((l₀.record fingerprint senderFp v).view viewer (fingerprint v.voucher)
      ⟨v.epoch, v.voucher, senderFp⟩) = true := hallows
  rw [contribution, hlookup]
  dsimp only
  rw [if_pos heligible, VouchPolicy.stake, hdecayed]
  split
  · rw [Int.natAbs_neg, Int.natAbs_natCast]
  · rw [Int.natAbs_natCast]

theorem decayed_of_not_counts (hl : l.Signed S) (hnone : ∀ k, ¬ viewer.Counts (S.sigPublic k))
    (hrec : (l.recordsOf subject).lookup voucherFp = some rec) (heligible : viewer.policy.eligible (l.view viewer voucherFp rec) = true) :
    viewer.policy.decayed (l.view viewer voucherFp rec) = 0 := by
  obtain ⟨k, hk⟩ := hl _ _ _ hrec
  by_cases hinterval : viewer.policy.freshnessIntervalRounds = 0
  · rw [VouchPolicy.decayed, ageDecay, if_pos (.inl hinterval), Nat.mul_zero]
  · have hweight : viewer.policy.weighting.weightFor (viewer.relationshipOf rec.voucher) = 0 := by
      by_contra hne
      exact hnone k ⟨hinterval, hk ▸ heligible, hk ▸ hne⟩
    have hzero : viewer.policy.weight (l.view viewer voucherFp rec) = 0 := congrArg UInt32.toNat hweight
    rw [VouchPolicy.decayed, hzero, Nat.zero_mul]

theorem contribution_of_not_counts (hl : l.Signed S) (hnone : ∀ k, ¬ viewer.Counts (S.sigPublic k)) (subject voucherFp : Fingerprint) :
    l.contribution viewer subject voucherFp = 0 := by
  unfold contribution
  cases hrec : (l.recordsOf subject).lookup voucherFp with
  | none => rfl
  | some rec =>
    dsimp only
    split
    · next heligible =>
      rw [VouchPolicy.stake, decayed_of_not_counts hl hnone hrec heligible]
      simp
    · rfl

theorem score_of_not_counts (hl : l.Signed S) (hnone : ∀ k, ¬ viewer.Counts (S.sigPublic k)) (subject : Fingerprint) :
    (l.computeVouchDecision viewer subject).weightedScore = 0 := by
  refine (VouchPolicy.score_eq ..).trans (List.sum_eq_zero fun x hx => ?_)
  obtain ⟨w, hw, rfl⟩ := List.mem_map.mp hx
  obtain ⟨hw, heligible⟩ := List.mem_filter.mp hw
  obtain ⟨e, he, rfl⟩ := List.mem_map.mp hw
  rw [VouchPolicy.stake, decayed_of_not_counts hl hnone (Table.mem_toList.mp he) heligible]
  simp

theorem admitted_revokeVouch (hS : S.Lawful) {voucher : S.SigSeed} {target : VouchTarget} {now : UInt64} {v : Vouch}
    (h : Vouch.admitted S fingerprint context (revokeVouch voucher target context now) = some v) :
    v = Vouch.signVouch voucher target context (now + 1) now := by
  have hdecode := decode_of_admitted h
  rw [revokeVouch, decode_signVouch hS] at hdecode
  exact (Option.some.inj hdecode).symm

theorem Signed.onVouch_revokeVouch (hS : S.Lawful) (hl : l.Signed S) (voucher : S.SigSeed) (target : VouchTarget) (now : UInt64)
    (senderFp : Fingerprint) : (l.onVouch S fingerprint context senderFp (revokeVouch voucher target context now)).Signed S := by
  intro subject voucherFp rec hrec
  rcases of_lookup_onVouch hrec with hold | ⟨v, hacc, -, -, rfl⟩
  · exact hl _ _ _ hold
  · rw [admitted_revokeVouch hS (accepted_eq_some.mp hacc).1]
    exact ⟨voucher, rfl⟩

theorem exists_ne (fp : Fingerprint) : ∃ fp', fp ≠ fp' := by
  by_cases h : fp = padArr 48 []
  · exact ⟨padArr 48 [1], by rw [h]; decide⟩
  · exact ⟨padArr 48 [], h⟩

/-- Withdrawals take effect for a viewer if and only if no account counts for it. Whenever a withdrawal is newer
than what is on record, an account that counts has its full weight again. -/
theorem revocationEffective_iff (hS : S.Lawful) (viewer : Viewer) :
    (RevocationEffective S fingerprint context viewer ↔ ∀ k, ¬ viewer.Counts (S.sigPublic k)) ∧
    ∀ (l : Ledger) (voucher : S.SigSeed) (target : VouchTarget) (now : UInt64) (senderFp : Fingerprint),
      viewer.Counts (S.sigPublic voucher) → fingerprint (S.sigPublic voucher) ≠ target.fp →
      (∀ rec, (l.recordsOf target.fp).lookup (fingerprint (S.sigPublic voucher)) = some rec → rec.epoch < now + 1) →
      ((l.onVouch S fingerprint context senderFp (revokeVouch voucher target context now)).contribution viewer target.fp
        (fingerprint (S.sigPublic voucher))).natAbs =
          (viewer.policy.weighting.weightFor (viewer.relationshipOf (S.sigPublic voucher))).toNat := by
  have hfull (l : Ledger) (voucher : S.SigSeed) (target : VouchTarget) (now : UInt64) (senderFp : Fingerprint)
      (hcounts : viewer.Counts (S.sigPublic voucher)) (hne : fingerprint (S.sigPublic voucher) ≠ target.fp)
      (hnew : ∀ rec, (l.recordsOf target.fp).lookup (fingerprint (S.sigPublic voucher)) = some rec → rec.epoch < now + 1) :
      ((l.onVouch S fingerprint context senderFp (revokeVouch voucher target context now)).contribution viewer target.fp
        (fingerprint (S.sigPublic voucher))).natAbs =
          (viewer.policy.weighting.weightFor (viewer.relationshipOf (S.sigPublic voucher))).toNat :=
    contribution_onVouch (accepted_eq_some.mpr ⟨admitted_signVouch hS voucher target (now + 1) now hne, hnew⟩) hcounts
  refine ⟨⟨fun h k hcounts => ?_, fun hnone l hl voucher target now senderFp => ?_⟩, hfull⟩
  · obtain ⟨other, hother⟩ := exists_ne (fingerprint (S.sigPublic k))
    have hzero := (h {} nofun k (.account other) 0 other).1
    have hweight := hfull {} k (.account other) 0 other hcounts hother nofun
    rw [hzero] at hweight
    exact hcounts.2.2 (UInt32.toNat_inj.mp hweight.symm)
  · have hl' : (l.onVouch S fingerprint context senderFp (revokeVouch voucher target context now)).Signed S :=
      hl.onVouch_revokeVouch hS voucher target now senderFp
    refine ⟨contribution_of_not_counts hl' hnone _ _, ?_⟩
    rw [score_of_not_counts hl' hnone, score_of_not_counts hl hnone]

/-- For a viewer that weighs nobody there is nothing to withdraw. -/
theorem revocationEffective_weightless :
    RevocationEffective Scheme.plain Env.plain.fingerprint (padArr 32 []) ⟨{ weighting := ⟨0, 0, 0⟩ }, {}, []⟩ :=
  (revocationEffective_iff Scheme.plain_lawful _).1.mpr fun _ hcounts => hcounts.2.2 rfl

/-- A withdrawal counts as a vouch. Before it the score of the subject was 0. -/
theorem revocation_vouches :
    let viewer : Viewer := ⟨{ threshold := .count 1 }, {}, []⟩
    let subject : Fingerprint := padArr 48 [9]
    let l := onVouch Scheme.plain Env.plain.fingerprint (padArr 32 []) {} hostFp
      (revokeVouch (S := Scheme.plain) (1 : UInt8) (.account subject) (padArr 32 []) 1000)
    (computeVouchDecision viewer {} subject).weightedScore = 0 ∧
      l.contribution viewer subject (Env.plain.fingerprint ⟨[1]⟩) = 1 ∧
      l.computeVouchDecision viewer subject = ⟨1, true, false, []⟩ := by
  decide +kernel

end Ledger

/-! ## Age -/

inductive Disclosure where
  | vouch (senderFp : Fingerprint) (bytes : Bytes)
  | linkage (senderFp : Fingerprint) (bytes : Bytes) (now : UInt64)

def Disclosure.senderFp : Disclosure → Fingerprint
  | vouch senderFp _ | linkage senderFp _ _ => senderFp

/-- A ledger, with the round in which the latest vouch of each voucher for each subject was accepted. -/
structure Watched where
  ledger : Ledger := {}
  heard : Table (Fingerprint × Fingerprint) Nat := ∅

namespace Watched
variable (S : Scheme) (fingerprint : IdentityPublic → Fingerprint) (context : Gid)

def step (w : Watched) : Disclosure → Watched
  | .vouch senderFp bytes =>
    let ledger := w.ledger.onVouch S fingerprint context senderFp bytes
    match w.ledger.accepted S fingerprint context bytes with
    | none => { w with ledger }
    | some v => ⟨ledger, w.heard.insert (fingerprint v.voucher, v.targetFp) ledger.round⟩
  | .linkage senderFp bytes now => { w with ledger := w.ledger.handleLinkage S fingerprint context senderFp bytes now }

/-- The age of every vouch is the number of rounds since it was itself accepted. -/
def PerVouch (w : Watched) : Prop :=
  ∀ subject voucherFp, (w.ledger.recordsOf subject).lookup voucherFp ≠ none →
    ∃ r, w.heard.lookup (voucherFp, subject) = some r ∧ (w.ledger.age voucherFp).toNat = w.ledger.round - r

def news (w : Watched) : Disclosure → Option Vouch
  | .vouch _ bytes => w.ledger.accepted S fingerprint context bytes
  | .linkage .. => none

/-- If the payload brings a vouch, all other vouches of its account were accepted in the same round. -/
def Alone (w : Watched) (d : Disclosure) : Prop :=
  ∀ v, w.news S fingerprint context d = some v → ∀ subject, subject ≠ v.targetFp →
    (w.ledger.recordsOf subject).lookup (fingerprint v.voucher) ≠ none →
    w.heard.lookup (fingerprint v.voucher, subject) = some (w.ledger.witnessGossipRound d.senderFp).round

variable {S fingerprint context} {w : Watched} {n : Nat}

/-- What every run keeps: rounds are no more than payloads, and every record has its rounds. -/
structure Tracked (w : Watched) (n : Nat) : Prop where
  round_le : w.ledger.round ≤ n
  known : ∀ subject voucherFp, (w.ledger.recordsOf subject).lookup voucherFp ≠ none → ∃ r R,
    w.heard.lookup (voucherFp, subject) = some r ∧ w.ledger.voucherRound.lookup voucherFp = some R ∧
      r ≤ w.ledger.round ∧ R ≤ w.ledger.round

/-- The latest vouch of every voucher is as old as each of its vouches. -/
def Latest (w : Watched) : Prop := ∀ subject voucherFp, (w.ledger.recordsOf subject).lookup voucherFp ≠ none →
  w.heard.lookup (voucherFp, subject) = w.ledger.voucherRound.lookup voucherFp

theorem Tracked.perVouch_iff_latest (h : w.Tracked n) (hn : n < 2 ^ 32) : w.PerVouch ↔ w.Latest := by
  refine forall_congr' fun subject => forall_congr' fun voucherFp => imp_congr_right fun hrec => ?_
  obtain ⟨r, R, hr, hR, hrle, hRle⟩ := h.known subject voucherFp hrec
  have hround := h.round_le
  have hage : (w.ledger.age voucherFp).toNat = w.ledger.round - R := by
    rw [Ledger.age, hR, Option.getD_some, UInt32.toNat_ofNat_of_lt' (show _ < 2 ^ 32 by omega)]
  rw [hr, hR, hage]
  simp only [Option.some.injEq, exists_eq_left']
  omega

@[simp] theorem round_step (w : Watched) (d : Disclosure) :
    (w.step S fingerprint context d).ledger.round = (w.ledger.witnessGossipRound d.senderFp).round := by
  cases d with
  | vouch senderFp bytes =>
    unfold step
    dsimp only
    split <;> exact Ledger.round_onVouch ..
  | linkage senderFp bytes now =>
    obtain ⟨groupingsSeen, linkageSeq, h⟩ := w.ledger.handleLinkage_eq S fingerprint context senderFp bytes now
    simp only [step, h, Disclosure.senderFp]

variable {d : Disclosure} {v : Vouch}

theorem step_of_none (h : w.news S fingerprint context d = none) :
    (w.step S fingerprint context d).heard = w.heard ∧
      (∀ subject, (w.step S fingerprint context d).ledger.recordsOf subject = w.ledger.recordsOf subject) ∧
      (w.step S fingerprint context d).ledger.voucherRound = w.ledger.voucherRound := by
  cases d with
  | vouch senderFp bytes =>
    have hacc : w.ledger.accepted S fingerprint context bytes = none := h
    simp only [step, hacc, Ledger.onVouch_of_none hacc]
    exact ⟨trivial, Ledger.recordsOf_witnessGossipRound _ _, Ledger.voucherRound_witnessGossipRound _ _⟩
  | linkage senderFp bytes now =>
    obtain ⟨groupingsSeen, linkageSeq, h⟩ := w.ledger.handleLinkage_eq S fingerprint context senderFp bytes now
    simp only [step, h]
    exact ⟨trivial, Ledger.recordsOf_witnessGossipRound _ _, Ledger.voucherRound_witnessGossipRound _ _⟩

theorem step_of_some (h : w.news S fingerprint context d = some v) :
    let R := (w.ledger.witnessGossipRound d.senderFp).round
    (w.step S fingerprint context d).heard = w.heard.insert (fingerprint v.voucher, v.targetFp) R ∧
      (∀ subject voucherFp, ((w.step S fingerprint context d).ledger.recordsOf subject).lookup voucherFp ≠ none ↔
        (subject = v.targetFp ∧ voucherFp = fingerprint v.voucher) ∨ (w.ledger.recordsOf subject).lookup voucherFp ≠ none) ∧
      (w.step S fingerprint context d).ledger.voucherRound = w.ledger.voucherRound.insert (fingerprint v.voucher) R := by
  cases d with
  | linkage senderFp bytes now => cases h
  | vouch senderFp bytes =>
    have hacc : w.ledger.accepted S fingerprint context bytes = some v := h
    simp only [step, hacc, Ledger.onVouch_of_some hacc]
    refine ⟨rfl, fun subject voucherFp => ?_, ?_⟩
    · rw [Ledger.recordsOf_record, Ledger.recordsOf_witnessGossipRound]
      by_cases hs : subject = v.targetFp
      · rw [if_pos hs, Table.lookup_insert_eq]
        by_cases hv : voucherFp = fingerprint v.voucher <;> simp [hs, hv]
      · simp [hs]
    · exact congrArg (AList.insert _ _) (Ledger.voucherRound_witnessGossipRound _ _)

theorem Tracked.step (h : w.Tracked n) (hn : n + 1 < 2 ^ 64) (d : Disclosure) :
    (w.step S fingerprint context d).Tracked (n + 1) := by
  obtain ⟨hup, hle⟩ := Ledger.round_witnessGossipRound h.round_le hn d.senderFp
  refine ⟨by rwa [round_step], fun subject voucherFp hrec => ?_⟩
  rw [round_step]
  cases hnews : w.news S fingerprint context d with
  | none =>
    obtain ⟨hheard, hrecords, hrounds⟩ := step_of_none hnews
    rw [hrecords] at hrec
    obtain ⟨r, R, hr, hR, hrle, hRle⟩ := h.known subject voucherFp hrec
    exact ⟨r, R, by rw [hheard, hr], by rw [hrounds, hR], by omega, by omega⟩
  | some v =>
    obtain ⟨hheard, hrecords, hrounds⟩ := step_of_some hnews
    rw [hheard, hrounds, Table.lookup_insert_eq, Table.lookup_insert_eq]
    rcases (hrecords subject voucherFp).mp hrec with ⟨rfl, rfl⟩ | hrec
    · exact ⟨_, _, if_pos rfl, if_pos rfl, le_refl _, le_refl _⟩
    · obtain ⟨r, R, hr, hR, hrle, hRle⟩ := h.known subject voucherFp hrec
      rw [hr, hR]
      split <;> split
      all_goals exact ⟨_, _, rfl, rfl, by omega, by omega⟩

theorem Latest.step_iff (h : w.Latest) : (w.step S fingerprint context d).Latest ↔ w.Alone S fingerprint context d := by
  cases hnews : w.news S fingerprint context d with
  | none =>
    obtain ⟨hheard, hrecords, hrounds⟩ := step_of_none hnews
    refine iff_of_true (fun subject voucherFp hrec => ?_) fun v hv => by rw [hnews] at hv; cases hv
    rw [hheard, hrounds]
    exact h subject voucherFp (hrecords subject ▸ hrec)
  | some v =>
    obtain ⟨hheard, hrecords, hrounds⟩ := step_of_some hnews
    constructor
    · intro hlatest u hu subject hs hrec
      obtain rfl : v = u := Option.some.inj (hnews.symm.trans hu)
      have hnew := hlatest subject (fingerprint v.voucher) ((hrecords _ _).mpr (.inr hrec))
      rwa [hheard, hrounds, AList.lookup_insert, AList.lookup_insert_ne fun heq => hs (congrArg Prod.snd heq)] at hnew
    · intro halone subject voucherFp hrec
      rw [hheard, hrounds, Table.lookup_insert_eq, Table.lookup_insert_eq]
      by_cases hv : voucherFp = fingerprint v.voucher
      · rw [if_pos hv]
        by_cases hs : subject = v.targetFp
        · rw [if_pos (by rw [hv, hs])]
        · rw [if_neg fun heq => hs (congrArg Prod.snd heq), hv]
          refine halone v hnews subject hs ?_
          rcases (hrecords subject voucherFp).mp hrec with ⟨hs', -⟩ | hrec
          · exact absurd hs' hs
          · exact hv ▸ hrec
      · rw [if_neg hv, if_neg fun heq => hv (congrArg Prod.fst heq)]
        refine h subject voucherFp ?_
        rcases (hrecords subject voucherFp).mp hrec with ⟨-, hv'⟩ | hrec
        · exact absurd hv' hv
        · exact hrec

variable {ds : List Disclosure}

theorem along_perVouch_iff (h : w.Tracked n) (hlatest : w.Latest) (hn : n + ds.length < 2 ^ 32) :
    Run.Along (step S fingerprint context) (fun w d => (w.step S fingerprint context d).PerVouch) w ds ↔
      Run.Along (step S fingerprint context) (Alone S fingerprint context) w ds := by
  induction ds generalizing w n with
  | nil => exact Iff.rfl
  | cons d ds ih =>
    rw [List.length_cons] at hn
    have hstep : (w.step S fingerprint context d).Tracked (n + 1) := h.step (by omega) d
    rw [Run.along_cons, Run.along_cons, hstep.perVouch_iff_latest (by omega), ← hlatest.step_iff]
    exact and_congr_right fun hnext => ih hstep hnext (by omega)

theorem tracked_foldl (h : w.Tracked n) (hn : n + ds.length < 2 ^ 64) :
    (ds.foldl (step S fingerprint context) w).Tracked (n + ds.length) := by
  induction ds generalizing w n with
  | nil => exact h
  | cons d ds ih =>
    rw [List.length_cons] at hn ⊢
    have hstep : (w.step S fingerprint context d).Tracked (n + 1) := h.step (by omega) d
    have hend := ih hstep (by omega)
    rwa [Nat.add_right_comm, Nat.add_assoc] at hend

theorem latest_foldl (hlatest : w.Latest)
    (h : Run.Along (step S fingerprint context) (Alone S fingerprint context) w ds) :
    (ds.foldl (step S fingerprint context) w).Latest :=
  h.invariant (I := Latest) (fun _ _ hw hd => hw.step_iff.mpr hd) hlatest

theorem tracked_init : ({} : Watched).Tracked 0 := ⟨le_refl _, fun _ _ hrec => absurd rfl hrec⟩

theorem latest_init : ({} : Watched).Latest := fun _ _ hrec => absurd rfl hrec

/-- Along a run the age of every vouch is its own if and only if the vouches of each account are accepted in one
round. Then a vouch that is not renewed counts for nothing once the interval has passed. -/
theorem perVouch_iff {ds : List Disclosure} (hlen : ds.length < 2 ^ 32) :
    (Run.Along (step S fingerprint context) (fun w d => (w.step S fingerprint context d).PerVouch) {} ds ↔
      Run.Along (step S fingerprint context) (Alone S fingerprint context) {} ds) ∧
    (Run.Along (step S fingerprint context) (Alone S fingerprint context) {} ds →
      let w := ds.foldl (step S fingerprint context) {}
      ∀ (viewer : Viewer) (subject voucherFp : Fingerprint) (rec : VouchRecord) (r : Nat),
        (w.ledger.recordsOf subject).lookup voucherFp = some rec → w.heard.lookup (voucherFp, subject) = some r →
        viewer.policy.freshnessIntervalRounds.toNat ≤ w.ledger.round - r →
          viewer.policy.decayed (w.ledger.view viewer voucherFp rec) = 0) := by
  refine ⟨along_perVouch_iff tracked_init latest_init (by omega), fun halone => ?_⟩
  intro w viewer subject voucherFp rec r hrec hr hinterval
  have htracked : w.Tracked (0 + ds.length) := tracked_foldl tracked_init (by omega)
  have hper : w.PerVouch := (htracked.perVouch_iff_latest (by omega)).mpr (latest_foldl latest_init halone)
  obtain ⟨r', hr', hage⟩ := hper subject voucherFp (by rw [hrec]; nofun)
  obtain rfl : r = r' := Option.some.inj (hr.symm.trans hr')
  refine VouchPolicy.decayed_stale (UInt32.le_iff_toNat_le.mpr ?_)
  rw [Ledger.view, hage]
  exact hinterval

def sampleVouch (subject : UInt8) : Bytes :=
  (Vouch.signVouch (S := Scheme.plain) (1 : UInt8) (.account (padArr 48 [subject])) (padArr 32 []) 1 1).encode

/-- One vouch, and a round that another member starts. -/
theorem perVouch_single :
    Run.Along (step Scheme.plain Env.plain.fingerprint (padArr 32 []))
      (fun w d => (w.step Scheme.plain Env.plain.fingerprint (padArr 32 []) d).PerVouch) {}
      [.vouch hostFp (sampleVouch 8), .linkage peerFp [] 0] :=
  (perVouch_iff (by decide)).1.mpr ⟨fun _ _ _ _ hrec => absurd rfl hrec, nofun, trivial⟩

/-- The vouch for one subject was accepted in the first of three rounds. A vouch for another subject makes it new. -/
theorem refreshed_by_other_subject :
    let w := [Disclosure.vouch hostFp (sampleVouch 8), .linkage peerFp [] 0, .vouch hostFp (sampleVouch 9)].foldl
      (step Scheme.plain Env.plain.fingerprint (padArr 32 [])) {}
    w.heard.lookup (Env.plain.fingerprint ⟨[1]⟩, padArr 48 [8]) = some 1 ∧ w.ledger.round = 3 ∧
      w.ledger.age (Env.plain.fingerprint ⟨[1]⟩) = 0 := by
  decide +kernel

end Watched
end Talkrypt.Core
