import Talkrypt.Lib.Clusters
import Talkrypt.Core.Presence

/-!
# Vouches (`crates/core/src/vouch.rs`)

A vouch is an account's signed statement of trust in an identity of one chat. A viewer weighs the vouches for a
subject by its relationship to each voucher and by their age. Vouchers that a grouping proof shows to be one
operator are taken off the score instead (`evaluate`).
-/

namespace Talkrypt.Core
open TreeKem (Scheme)
open Account

/-! ## Signed vouches -/

inductive VouchTarget where
  | account (fp : Fingerprint)
  | nameBinding (account : Fingerprint) (nameTag : ByteArr 8)
  | leaf (fp : Fingerprint)
deriving DecidableEq

namespace VouchTarget

def encode : VouchTarget → Bytes
  | account fp => putU8 0 ++ putBytes fp.1
  | nameBinding fp nameTag => putU8 1 ++ putBytes fp.1 ++ putBytes nameTag.1
  | leaf fp => putU8 2 ++ putBytes fp.1

def get : Reader Unit VouchTarget := do
  let tag ← Reader.getU8
  if tag = 0 then
    let fp ← getArr 48
    pure (account fp)
  else if tag = 1 then
    let fp ← getArr 48
    let nameTag ← getArr 8
    pure (nameBinding fp nameTag)
  else if tag = 2 then
    let fp ← getArr 48
    pure (leaf fp)
  else throw ()

def decode (bytes : Bytes) : Option VouchTarget :=
  (Reader.parse (do let t ← get; Reader.finish; pure t) bytes).toOption

theorem get_encode (t : VouchTarget) : get t.encode = .ok (t, []) := by
  cases t with
  | account fp =>
    have hfp := getArr_putBytes (show 48 ≤ MAX_FRAME by decide) fp []
    rw [List.append_nil] at hfp
    rw [get, encode, Reader.bind_ok (Reader.getU8_putU8 0 _), if_pos rfl, Reader.bind_ok hfp]
    rfl
  | nameBinding fp nameTag =>
    have htag := getArr_putBytes (show 8 ≤ MAX_FRAME by decide) nameTag []
    rw [List.append_nil] at htag
    rw [get, encode, List.append_assoc, Reader.bind_ok (Reader.getU8_putU8 1 _), if_neg (by decide), if_pos rfl,
      Reader.bind_ok (getArr_putBytes (by decide) fp _), Reader.bind_ok htag]
    rfl
  | leaf fp =>
    have hfp := getArr_putBytes (show 48 ≤ MAX_FRAME by decide) fp []
    rw [List.append_nil] at hfp
    rw [get, encode, Reader.bind_ok (Reader.getU8_putU8 2 _), if_neg (by decide), if_neg (by decide), if_pos rfl,
      Reader.bind_ok hfp]
    rfl

theorem decode_encode (t : VouchTarget) : decode t.encode = some t := by
  rw [decode, Reader.parse, Reader.bind_ok (get_encode t), Reader.bind_ok Reader.finish_nil]
  rfl

theorem encode_length_le (t : VouchTarget) : t.encode.length ≤ MAX_FRAME := by
  cases t <;> simp only [encode, putU8, List.length_append, putBytes_length, List.length_singleton]
  case account fp | leaf fp =>
    rw [fp.2]
    decide
  case nameBinding fp nameTag =>
    rw [fp.2, nameTag.2]
    decide

def fp : VouchTarget → Fingerprint
  | account fp => fp
  | nameBinding fp _ => fp
  | leaf fp => fp

end VouchTarget

structure Vouch where
  target : VouchTarget
  context : Gid
  epoch : UInt64
  assertedAt : UInt64
  sig : Bytes
  voucher : IdentityPublic
deriving DecidableEq

def VOUCH_SIG_LABEL : Bytes := utf8 "talkrypt-vouch-v1"

def vouchSignedBytes (target : VouchTarget) (context : Gid) (epoch assertedAt : UInt64) : Bytes :=
  putBytes VOUCH_SIG_LABEL ++ putBytes target.encode ++ putBytes context.1 ++ putWords epoch ++ putWords assertedAt

namespace Vouch

def encode (v : Vouch) : Bytes :=
  putBytes v.target.encode ++ putBytes v.context.1 ++ putWords v.epoch ++ putWords v.assertedAt ++
    putBytes v.sig ++ putBytes v.voucher.sigVk

def getWords : Reader Unit UInt64 := do
  let hi ← Reader.getU32
  let lo ← Reader.getU32
  pure (UInt64.ofNat (hi * 2 ^ 32 + lo))

def get : Reader Unit Vouch := do
  let targetBytes ← Reader.getBytes
  match VouchTarget.decode targetBytes with
  | none => throw ()
  | some target =>
    let context ← getArr 32
    let epoch ← getWords
    let assertedAt ← getWords
    let sig ← Reader.getBytes
    let sigVk ← Reader.getBytes
    Reader.finish
    pure { target, context, epoch, assertedAt, sig, voucher := ⟨sigVk⟩ }

def decode (bytes : Bytes) : Option Vouch := (Reader.parse get bytes).toOption

theorem getWords_putWords (x : UInt64) (rest : Bytes) : getWords (putWords x ++ rest) = .ok (x, rest) :=
  reads_words.read trivial rest

theorem decode_encode {v : Vouch} (hsig : v.sig.length ≤ MAX_FRAME) (hvk : v.voucher.sigVk.length ≤ MAX_FRAME) :
    decode v.encode = some v := by
  have hlast := Reader.getBytes_putBytes (ε := Unit) hvk []
  rw [List.append_nil] at hlast
  simp only [decode, Reader.parse, get, encode, List.append_assoc]
  rw [Reader.bind_ok (Reader.getBytes_putBytes v.target.encode_length_le _), VouchTarget.decode_encode]
  dsimp only
  rw [Reader.bind_ok (getArr_putBytes (by decide) v.context _), Reader.bind_ok (getWords_putWords v.epoch _),
    Reader.bind_ok (getWords_putWords v.assertedAt _), Reader.bind_ok (Reader.getBytes_putBytes hsig _),
    Reader.bind_ok hlast, Reader.bind_ok Reader.finish_nil]
  rfl

def signedBytes (v : Vouch) : Bytes := vouchSignedBytes v.target v.context v.epoch v.assertedAt

def verify (S : Scheme) (v : Vouch) : Bool := (S.verify v.voucher v.signedBytes v.sig).isOk

def targetFp (v : Vouch) : Fingerprint := v.target.fp

def signVouch {S : Scheme} (voucher : S.SigSeed) (target : VouchTarget) (context : Gid) (epoch assertedAt : UInt64) :
    Vouch where
  target := target
  context := context
  epoch := epoch
  assertedAt := assertedAt
  sig := S.sign voucher (vouchSignedBytes target context epoch assertedAt)
  voucher := S.sigPublic voucher

end Vouch

/-! ## Policies -/

inductive Relationship where
  | friend
  | contact
  | stranger
deriving DecidableEq

structure VouchWeighting where
  friend : UInt32 := 4
  contact : UInt32 := 2
  stranger : UInt32 := 1
deriving DecidableEq

def VouchWeighting.weightFor (w : VouchWeighting) : Relationship → UInt32
  | .friend => w.friend
  | .contact => w.contact
  | .stranger => w.stranger

inductive VoucherEligibility where
  | anyLinked
  | contactsOfViewer
  | transitive (depth : UInt8)
deriving DecidableEq

/-- The bar for the score: a number, or a share of the most that the vouchers could give. -/
inductive Threshold where
  | count (c : UInt32)
  | percent (p : UInt8)
deriving DecidableEq

def COUNT_MAX : UInt32 := 0xffffffff

structure VouchPolicy where
  eligibility : VoucherEligibility := .anyLinked
  weighting : VouchWeighting := {}
  threshold : Threshold := .count COUNT_MAX
  freshnessIntervalRounds : UInt32 := 64
deriving DecidableEq

/-- One voucher of a subject, as the viewer sees it. -/
structure VoucherView where
  voucherFp : Fingerprint
  relationship : Relationship
  roundsSinceWitnessed : UInt32
  /-- The grouping that the voucher is proven to belong to. -/
  grouping : Option Bytes
deriving DecidableEq

structure VouchDecision where
  weightedScore : Int
  vouched : Bool
  inflationRejected : Bool
  flagged : List Fingerprint
deriving DecidableEq

/-- Linear decay over the freshness window, in thousandths. -/
def ageDecay (roundsSinceWitnessed intervalRounds : UInt32) : Nat :=
  if intervalRounds = 0 ∨ intervalRounds ≤ roundsSinceWitnessed then 0
  else (intervalRounds.toNat - roundsSinceWitnessed.toNat) * 1000 / intervalRounds.toNat

namespace VoucherEligibility

def allows (e : VoucherEligibility) (r : Relationship) : Bool :=
  match e with
  | anyLinked => true
  | contactsOfViewer => r = .friend ∨ r = .contact
  | transitive _ => true

end VoucherEligibility

/-- The same decision: the flagged vouchers are a set, which the code lists in any order. -/
structure VouchDecision.Same (d d' : VouchDecision) : Prop where
  weightedScore : d.weightedScore = d'.weightedScore
  vouched : d.vouched = d'.vouched
  inflationRejected : d.inflationRejected = d'.inflationRejected
  flagged : d.flagged.Perm d'.flagged

namespace VouchDecision.Same

theorem trans {d d' d'' : VouchDecision} (h : d.Same d') (h' : d'.Same d'') : d.Same d'' :=
  ⟨h.1.trans h'.1, h.2.trans h'.2, h.3.trans h'.3, h.4.trans h'.4⟩

end VouchDecision.Same

def isVouched (score : Int) (thresholdMet : Bool) : Bool := 0 ≤ score && thresholdMet

namespace VouchPolicy

def eligible (p : VouchPolicy) (v : VoucherView) : Bool := p.eligibility.allows v.relationship

def weight (p : VouchPolicy) (v : VoucherView) : Nat := (p.weighting.weightFor v.relationship).toNat

/-- The aged weight of a voucher, rounded to the nearest. -/
def decayed (p : VouchPolicy) (v : VoucherView) : Nat :=
  (p.weight v * ageDecay v.roundsSinceWitnessed p.freshnessIntervalRounds + 500) / 1000

def maxScore (p : VouchPolicy) (vouchers : List VoucherView) : Nat :=
  ((vouchers.filter p.eligible).map p.weight).sum

def meetsThreshold (p : VouchPolicy) (score : Int) (vouchers : List VoucherView) : Bool :=
  match p.threshold with
  | .count c => (c.toNat : Int) ≤ score
  | .percent q => p.maxScore vouchers ≠ 0 && q.toNat * p.maxScore vouchers ≤ score.toNat * 100

section
variable (p : VouchPolicy) (vouchers : List VoucherView)

def counted : List VoucherView := vouchers.filter p.eligible

def members (g : Bytes) : List VoucherView := cluster VoucherView.grouping (p.counted vouchers) g

/-- The groupings in `by_grouping`. The code walks over them in any order. -/
def groupings : List Bytes := clusterKeys VoucherView.grouping (p.counted vouchers)

/-- What a grouping gives. Two vouchers of one operator are taken off. -/
def clusterScore (g : Bytes) : Int :=
  let total := ((p.members vouchers g).map fun v => (p.decayed v : Int)).sum
  if 2 ≤ (p.members vouchers g).length then -total else total

def score : Int :=
  ((loners VoucherView.grouping (p.counted vouchers)).map fun v => (p.decayed v : Int)).sum +
    ((p.groupings vouchers).map (p.clusterScore vouchers)).sum

def caught : List Bytes := (p.groupings vouchers).filter fun g => 2 ≤ (p.members vouchers g).length

def evaluate : VouchDecision where
  weightedScore := p.score vouchers
  vouched := isVouched (p.score vouchers) (p.meetsThreshold (p.score vouchers) vouchers)
  inflationRejected := !(p.caught vouchers).isEmpty
  flagged := (p.caught vouchers).flatMap fun g => (p.members vouchers g).map (·.voucherFp)

end

/-! ## The score -/

variable {p : VouchPolicy} {vs old new : List VoucherView} {v : VoucherView}

/-- A voucher counts for its aged weight, or against it if it is caught among the vouchers of `vs`. -/
def stake (p : VouchPolicy) (vs : List VoucherView) (v : VoucherView) : Int :=
  if Crowded VoucherView.grouping (p.counted vs) v then -p.decayed v else p.decayed v

theorem score_eq (p : VouchPolicy) (vs : List VoucherView) : p.score vs = ((p.counted vs).map (p.stake vs)).sum :=
  sum_clusters (fun v => (p.decayed v : Int)) (p.counted vs)

theorem ageDecay_le (rounds interval : UInt32) : ageDecay rounds interval ≤ 1000 := by
  unfold ageDecay
  split
  · omega
  · refine Nat.div_le_of_le_mul ?_
    exact Nat.mul_le_mul_right 1000 (Nat.sub_le _ _)

theorem decayed_le_weight (p : VouchPolicy) (v : VoucherView) : p.decayed v ≤ p.weight v := by
  have hle := Nat.mul_le_mul_left (p.weight v) (ageDecay_le v.roundsSinceWitnessed p.freshnessIntervalRounds)
  unfold decayed
  omega

theorem ageDecay_zero {interval : UInt32} (h : interval ≠ 0) : ageDecay 0 interval = 1000 := by
  have hpos : 0 < interval.toNat := Nat.pos_of_ne_zero fun h0 => h (UInt32.toNat_inj.mp h0)
  have hle : ¬ interval ≤ 0 := fun hle => by
    have := UInt32.le_iff_toNat_le.mp hle
    simp only [UInt32.toNat_zero] at this
    omega
  rw [ageDecay, if_neg (by simp [h, hle])]
  simp [Nat.mul_div_cancel_left _ hpos]

theorem decayed_fresh (h : p.freshnessIntervalRounds ≠ 0) (hv : v.roundsSinceWitnessed = 0) :
    p.decayed v = p.weight v := by
  rw [decayed, hv, ageDecay_zero h]
  omega

theorem decayed_stale (h : p.freshnessIntervalRounds ≤ v.roundsSinceWitnessed) : p.decayed v = 0 := by
  rw [decayed, ageDecay, if_pos (.inr h), Nat.mul_zero]

theorem score_le_maxScore (p : VouchPolicy) (vs : List VoucherView) : p.score vs ≤ p.maxScore vs := by
  have hcast : (p.maxScore vs : Int) = ((p.counted vs).map fun v => (p.weight v : Int)).sum := by
    rw [maxScore, Nat.cast_list_sum, List.map_map]
    rfl
  rw [score_eq, hcast]
  refine List.sum_le_sum fun v _ => ?_
  have hle := decayed_le_weight p v
  unfold stake
  split <;> omega

theorem vouched_iff : (p.evaluate vs).vouched = true ↔ 0 ≤ p.score vs ∧ p.meetsThreshold (p.score vs) vs = true := by
  simp [evaluate, isVouched]

theorem counted_append (p : VouchPolicy) (old new : List VoucherView) :
    p.counted (old ++ new) = p.counted old ++ p.counted new := List.filter_append ..

theorem score_append (p : VouchPolicy) (old new : List VoucherView) : p.score (old ++ new) =
    ((p.counted old).map (p.stake (old ++ new))).sum + ((p.counted new).map (p.stake (old ++ new))).sum := by
  rw [score_eq, counted_append, List.map_append, List.sum_append]

theorem cluster_append (old new : List VoucherView) (g : Bytes) : cluster VoucherView.grouping (old ++ new) g =
    cluster VoucherView.grouping old g ++ cluster VoucherView.grouping new g := List.filter_append ..

/-! ## Views that are evaluated alike -/

section
variable {vs' : List VoucherView}

theorem meetsThreshold_congr (h : p.maxScore vs = p.maxScore vs') (score : Int) :
    p.meetsThreshold score vs = p.meetsThreshold score vs' := by
  unfold meetsThreshold
  rw [h]

theorem same_evaluate (hscore : p.score vs = p.score vs') (hmax : p.maxScore vs = p.maxScore vs')
    (hcaught : (p.caught vs).length = (p.caught vs').length)
    (hflagged : (p.evaluate vs).flagged.Perm (p.evaluate vs').flagged) : (p.evaluate vs).Same (p.evaluate vs') where
  weightedScore := hscore
  vouched := by
    simp only [evaluate]
    rw [hscore, meetsThreshold_congr hmax]
  inflationRejected := by
    have hempty : (p.caught vs).isEmpty = (p.caught vs').isEmpty := by
      rw [Bool.eq_iff_iff, List.isEmpty_iff_length_eq_zero, List.isEmpty_iff_length_eq_zero, hcaught]
    simp only [evaluate, hempty]
  flagged := hflagged

theorem evaluate_perm (h : vs.Perm vs') : (p.evaluate vs).Same (p.evaluate vs') := by
  have hcounted : (p.counted vs).Perm (p.counted vs') := h.filter _
  have hmembers (g : Bytes) : (p.members vs g).Perm (p.members vs' g) := cluster_perm hcounted g
  have hcaught : (p.caught vs).Perm (p.caught vs') := by
    unfold caught
    simp only [(hmembers _).length_eq]
    exact (clusterKeys_perm hcounted).filter _
  refine same_evaluate ?_ ?_ hcaught.length_eq ?_
  · rw [score_eq, score_eq]
    have hstake : p.stake vs = p.stake vs' := funext fun v => by
      simp only [stake, crowded_perm hcounted]
    rw [hstake]
    exact (hcounted.map _).sum_eq
  · exact (hcounted.map _).sum_eq
  · exact hcaught.flatMap fun g _ => (hmembers g).map _

theorem evaluate_alike {ι : Type} {l : List ι} {f f' : ι → VoucherView} {φ : Bytes → Bytes} (hφ : Function.Injective φ)
    (hfp : ∀ i ∈ l, (f' i).voucherFp = (f i).voucherFp) (hrel : ∀ i ∈ l, (f' i).relationship = (f i).relationship)
    (hdecayed : ∀ i ∈ l, p.decayed (f' i) = p.decayed (f i))
    (hgrouping : ∀ i ∈ l, (f' i).grouping = (f i).grouping.map φ) :
    (p.evaluate (l.map f)).Same (p.evaluate (l.map f')) := by
  -- both lists of counted vouchers come from the same indices
  let live := l.filter (p.eligible ∘ f)
  have hlive {i : ι} (hi : i ∈ live) : i ∈ l := List.mem_of_mem_filter hi
  have hcounted : p.counted (l.map f) = live.map f := List.filter_map
  have hcounted' : p.counted (l.map f') = live.map f' := by
    rw [counted, List.filter_map]
    refine congrArg (List.map f') (List.filter_congr fun i hi => ?_)
    simp only [Function.comp_apply, eligible, hrel i hi]
  have hkey : ∀ i ∈ live, (VoucherView.grouping ∘ f') i = ((VoucherView.grouping ∘ f) i).map φ :=
    fun i hi => hgrouping i (hlive hi)
  have hmembers (g : Bytes) : p.members (l.map f) g = (cluster (VoucherView.grouping ∘ f) live g).map f := by
    rw [members, hcounted, cluster_map]
  have hmembers' (g : Bytes) : p.members (l.map f') (φ g) = (cluster (VoucherView.grouping ∘ f) live g).map f' := by
    rw [members, hcounted', cluster_map, cluster_rename hφ hkey]
  have hcaught : p.caught (l.map f') = (p.caught (l.map f)).map φ := by
    rw [caught, groupings, hcounted', clusterKeys_map, clusterKeys_rename hφ hkey, List.filter_map, caught, groupings,
      hcounted, clusterKeys_map]
    refine congrArg (List.map φ) (List.filter_congr fun g _ => ?_)
    simp only [Function.comp_apply, hmembers, hmembers', List.length_map]
  refine same_evaluate ?_ ?_ (by rw [hcaught, List.length_map]) (List.Perm.of_eq ?_)
  · rw [score_eq, score_eq, hcounted, hcounted', List.map_map, List.map_map]
    refine congrArg List.sum (List.map_congr_left fun i hi => ?_)
    simp only [Function.comp_apply, stake, hcounted, hcounted', crowded_map, crowded_rename hφ hkey hi,
      hdecayed i (hlive hi)]
  · have hweight : ∀ i ∈ live, (p.weight ∘ f) i = (p.weight ∘ f') i := fun i hi => by
      simp only [Function.comp_apply, weight, hrel i (hlive hi)]
    rw [counted] at hcounted hcounted'
    rw [maxScore, maxScore, hcounted, hcounted', List.map_map, List.map_map, List.map_congr_left hweight]
  · simp only [evaluate]
    rw [hcaught, List.flatMap_map]
    refine List.flatMap_congr fun g _ => ?_
    rw [hmembers, hmembers', List.map_map, List.map_map]
    exact List.map_congr_left fun i hi => (hfp i (hlive (mem_cluster.mp hi).1)).symm

end

/-! ## Further vouchers

Two vouchers that share a grouping are taken off the score of the subject that they vouch for, so whoever
holds two identities of one grouping can lower anyone. -/

/-- Further vouchers never cost a subject its standing. -/
def NoWeapon (p : VouchPolicy) : Prop := ∀ old new : List VoucherView, ((old ++ new).map (·.voucherFp)).Nodup →
  (p.evaluate old).vouched = true → (p.evaluate (old ++ new)).vouched = true

/-- Nothing counts under the policy, or its bar is out of reach. -/
def Inert (p : VouchPolicy) : Prop :=
  p.freshnessIntervalRounds = 0 ∨ (∀ r, p.eligibility.allows r = true → p.weighting.weightFor r = 0) ∨
    ∃ q, p.threshold = .percent q ∧ 100 < q.toNat

/-- No newcomer shares a grouping with another voucher. -/
def Apart (old new : List VoucherView) : Prop :=
  ∀ v ∈ new, ∀ g, v.grouping = some g → ∀ u ∈ old ++ new, u.grouping = some g → u = v

theorem not_mem_of_nodup (hnd : ((old ++ new).map (·.voucherFp)).Nodup) (hv : v ∈ new) : v ∉ old := fun hold => by
  rw [List.map_append, List.nodup_append] at hnd
  exact hnd.2.2 _ (List.mem_map_of_mem hold) _ (List.mem_map_of_mem hv) rfl

theorem Apart.not_crowded (h : Apart old new) (hnd : ((old ++ new).map (·.voucherFp)).Nodup)
    (hv : v ∈ new) : ¬ Crowded VoucherView.grouping (p.counted (old ++ new)) v := by
  rintro ⟨g, hg, hlen⟩
  have hnodup : (cluster VoucherView.grouping (p.counted (old ++ new)) g).Nodup :=
    ((List.Nodup.of_map _ hnd).filter _).filter _
  have hall : ∀ u ∈ cluster VoucherView.grouping (p.counted (old ++ new)) g, u = v := fun u hu =>
    h v hv g hg u (List.mem_of_mem_filter (mem_cluster.mp hu).1) (mem_cluster.mp hu).2
  rw [List.eq_replicate_of_mem hall, List.nodup_replicate] at hnodup
  omega

theorem Apart.crowded_iff (h : Apart old new) (hnd : ((old ++ new).map (·.voucherFp)).Nodup)
    (hv : v ∈ old) : Crowded VoucherView.grouping (p.counted (old ++ new)) v ↔
      Crowded VoucherView.grouping (p.counted old) v := by
  cases hg : v.grouping with
  | none => exact iff_of_false (not_crowded_of_none hg) (not_crowded_of_none hg)
  | some g =>
    have hnone : cluster VoucherView.grouping (p.counted new) g = [] := by
      refine List.eq_nil_iff_forall_not_mem.mpr fun u hu => ?_
      obtain ⟨hu, hgu⟩ := mem_cluster.mp hu
      have hu := List.mem_of_mem_filter hu
      have hvu := h u hu g hgu v (List.mem_append_left _ hv) hg
      exact not_mem_of_nodup hnd hu (hvu ▸ hv)
    rw [crowded_of_key hg, crowded_of_key hg, counted_append, cluster_append, hnone, List.append_nil]

theorem Apart.score_le (h : Apart old new) (hnd : ((old ++ new).map (·.voucherFp)).Nodup) (p : VouchPolicy) :
    p.score old ≤ p.score (old ++ new) := by
  have hold : ((p.counted old).map (p.stake (old ++ new))).sum = p.score old := by
    rw [score_eq]
    refine congrArg List.sum (List.map_congr_left fun v hv => ?_)
    simp only [stake, h.crowded_iff hnd (List.mem_of_mem_filter hv)]
  have hnew : 0 ≤ ((p.counted new).map (p.stake (old ++ new))).sum := by
    refine List.sum_nonneg fun x hx => ?_
    obtain ⟨v, hv, rfl⟩ := List.mem_map.mp hx
    rw [stake, if_neg (h.not_crowded hnd (List.mem_of_mem_filter hv))]
    exact Int.natCast_nonneg _
  rw [score_append, hold]
  omega

theorem score_eq_zero (h : p.freshnessIntervalRounds = 0 ∨ ∀ r, p.eligibility.allows r = true → p.weighting.weightFor r = 0)
    (vs : List VoucherView) : p.score vs = 0 := by
  rw [score_eq]
  refine List.sum_eq_zero fun x hx => ?_
  obtain ⟨v, hv, rfl⟩ := List.mem_map.mp hx
  have hzero : p.decayed v = 0 := by
    rcases h with h | h
    · rw [decayed, ageDecay, if_pos (.inl h), Nat.mul_zero]
    · have hw : p.weight v = 0 := by rw [weight, h _ (List.mem_filter.mp hv).2]; rfl
      rw [decayed, hw, Nat.zero_mul]
  simp [stake, hzero]

theorem maxScore_append (p : VouchPolicy) (old new : List VoucherView) :
    p.maxScore (old ++ new) = p.maxScore old + p.maxScore new := by
  rw [maxScore, List.filter_append, List.map_append, List.sum_append]
  rfl

theorem not_vouched_of_percent {q : UInt8} (hq : p.threshold = .percent q) (h : 100 < q.toNat) (vs : List VoucherView) :
    ¬ (p.evaluate vs).vouched = true := by
  rw [vouched_iff, meetsThreshold, hq]
  rintro ⟨hpos, hmet⟩
  simp only [ne_eq, decide_not, Bool.and_eq_true, Bool.not_eq_true', decide_eq_false_iff_not, decide_eq_true_eq] at hmet
  obtain ⟨hmax, hmet⟩ := hmet
  have hle := score_le_maxScore p vs
  have hscore : (p.score vs).toNat * 100 ≤ p.maxScore vs * 100 := Nat.mul_le_mul_right 100 (by omega)
  have hlt : p.maxScore vs * 100 < q.toNat * p.maxScore vs := by
    rw [Nat.mul_comm]
    exact Nat.mul_lt_mul_of_pos_right h (Nat.pos_of_ne_zero hmax)
  omega

theorem vouched_of_zero (h : p.freshnessIntervalRounds = 0 ∨ ∀ r, p.eligibility.allows r = true → p.weighting.weightFor r = 0)
    (hold : (p.evaluate old).vouched = true) : (p.evaluate (old ++ new)).vouched = true := by
  rw [vouched_iff, score_eq_zero h] at hold ⊢
  refine ⟨hold.1, ?_⟩
  have hmet := hold.2
  unfold meetsThreshold at hmet ⊢
  cases hthr : p.threshold with
  | count c =>
    rw [hthr] at hmet
    exact hmet
  | percent q =>
    rw [hthr] at hmet
    have hmax := maxScore_append p old new
    simp only [ne_eq, decide_not, Bool.and_eq_true, Bool.not_eq_true', decide_eq_false_iff_not, decide_eq_true_eq,
      Int.toNat_zero, Nat.zero_mul, Nat.le_zero, Nat.mul_eq_zero] at hmet ⊢
    exact ⟨by omega, .inl (hmet.2.resolve_right hmet.1)⟩

theorem Inert.noWeapon (h : p.Inert) : p.NoWeapon := by
  intro old new _ hold
  rcases h with h | h | ⟨q, hq, h⟩
  · exact vouched_of_zero (.inl h) hold
  · exact vouched_of_zero (.inr h) hold
  · exact absurd hold (not_vouched_of_percent hq h old)

/-- `n` vouchers of one relationship, just witnessed, with fingerprints from `start` on. -/
def crowd (start n : Nat) (r : Relationship) (grouping : Option Bytes) : List VoucherView :=
  (List.range n).map fun i => ⟨⟨beBytes 48 (start + i), beBytes_length ..⟩, r, 0, grouping⟩

section
variable {start n m : Nat} {r : Relationship} {grouping : Option Bytes} {g : Bytes}

theorem counted_crowd (h : p.eligibility.allows r = true) (start n : Nat) (grouping : Option Bytes) :
    p.counted (crowd start n r grouping) = crowd start n r grouping :=
  List.filter_eq_self.mpr fun v hv => by
    obtain ⟨i, -, rfl⟩ := List.mem_map.mp hv
    exact h

theorem sum_crowd (f : VoucherView → Int) {x : Int} (hf : ∀ v ∈ crowd start n r grouping, f v = x) :
    ((crowd start n r grouping).map f).sum = n * x := by
  rw [List.map_congr_left hf, List.map_const', List.sum_replicate, crowd, List.length_map, List.length_range,
    nsmul_eq_mul]

theorem decayed_crowd (h : p.freshnessIntervalRounds ≠ 0) (hv : v ∈ crowd start n r grouping) :
    p.decayed v = (p.weighting.weightFor r).toNat := by
  obtain ⟨i, -, rfl⟩ := List.mem_map.mp hv
  exact decayed_fresh h rfl

theorem grouping_crowd (hv : v ∈ crowd start n r grouping) : v.grouping = grouping := by
  obtain ⟨i, -, rfl⟩ := List.mem_map.mp hv
  rfl

theorem score_crowd (h : p.freshnessIntervalRounds ≠ 0) (hr : p.eligibility.allows r = true) (start n : Nat) :
    p.score (crowd start n r none) = n * (p.weighting.weightFor r).toNat := by
  rw [score_eq, counted_crowd hr ..]
  refine sum_crowd _ fun v hv => ?_
  rw [stake, if_neg (not_crowded_of_none (grouping_crowd hv)), decayed_crowd h hv]

theorem maxScore_crowd (hr : p.eligibility.allows r = true) (start n : Nat) (grouping : Option Bytes) :
    p.maxScore (crowd start n r grouping) = n * (p.weighting.weightFor r).toNat := by
  have hcounted := counted_crowd hr start n grouping
  have hweight : ∀ v ∈ crowd start n r grouping, p.weight v = (p.weighting.weightFor r).toNat := fun v hv => by
    obtain ⟨i, -, rfl⟩ := List.mem_map.mp hv
    rfl
  rw [counted] at hcounted
  rw [maxScore, hcounted, List.map_congr_left hweight, List.map_const', List.sum_replicate, crowd, List.length_map,
    List.length_range, smul_eq_mul]

theorem vouched_crowd (h : p.freshnessIntervalRounds ≠ 0) (hr : p.eligibility.allows r = true)
    (hw : 0 < (p.weighting.weightFor r).toNat) (hpercent : ∀ q, p.threshold = .percent q → q.toNat ≤ 100)
    (hcount : ∀ c, p.threshold = .count c → c.toNat ≤ n) (hn : 0 < n) :
    (p.evaluate (crowd start n r none)).vouched = true := by
  rw [vouched_iff, meetsThreshold, score_crowd h hr, maxScore_crowd hr]
  refine ⟨by positivity, ?_⟩
  have hle : n ≤ n * (p.weighting.weightFor r).toNat := Nat.le_mul_of_pos_right _ hw
  cases hthr : p.threshold with
  | count c =>
    have hc := (hcount c hthr).trans hle
    exact decide_eq_true (by exact_mod_cast hc)
  | percent q =>
    have hq := Nat.mul_le_mul_right (n * (p.weighting.weightFor r).toNat) (hpercent q hthr)
    rw [← Nat.cast_mul, Int.toNat_natCast, Nat.mul_comm _ 100]
    exact Bool.and_eq_true_iff.mpr ⟨decide_eq_true (by omega), decide_eq_true hq⟩

theorem score_crowd_append (h : p.freshnessIntervalRounds ≠ 0) (hr : p.eligibility.allows r = true) (hm : 2 ≤ m)
    (start start' n : Nat) (g : Bytes) : p.score (crowd start n r none ++ crowd start' m r (some g)) =
      n * (p.weighting.weightFor r).toNat - m * (p.weighting.weightFor r).toNat := by
  have hcluster : 2 ≤ (cluster VoucherView.grouping
      (p.counted (crowd start n r none ++ crowd start' m r (some g))) g).length := by
    have hall : cluster VoucherView.grouping (crowd start' m r (some g)) g = crowd start' m r (some g) :=
      List.filter_eq_self.mpr fun v hv => by rw [grouping_crowd hv]; simp
    rw [counted_append, counted_crowd hr .., counted_crowd hr .., cluster_append, hall, List.length_append]
    simp only [crowd, List.length_map, List.length_range]
    omega
  rw [score_append, counted_crowd hr .., counted_crowd hr .., sum_crowd (x := (p.weighting.weightFor r).toNat) _ ?honest,
    sum_crowd (x := -(p.weighting.weightFor r).toNat) _ ?caught]
  · ring
  case honest =>
    intro v hv
    rw [stake, if_neg (not_crowded_of_none (grouping_crowd hv)), decayed_crowd h hv]
  case caught =>
    intro v hv
    rw [stake, if_pos ((crowded_of_key (grouping_crowd hv)).mpr hcluster), decayed_crowd h hv]

theorem beBytes_inj {w a b : Nat} (ha : a < 256 ^ w) (hb : b < 256 ^ w) (h : beBytes w a = beBytes w b) : a = b := by
  rw [← beNat_beBytes_of_lt ha, h, beNat_beBytes_of_lt hb]

theorem nodup_crowd (hn : n + m < 2 ^ 64) (r : Relationship) (grouping : Option Bytes) :
    ((crowd 0 n r none ++ crowd n m r grouping).map (·.voucherFp)).Nodup := by
  have hfps : (crowd 0 n r none ++ crowd n m r grouping).map (·.voucherFp) =
      (List.range (n + m)).map fun i => (⟨beBytes 48 i, beBytes_length ..⟩ : Fingerprint) := by
    rw [List.range_add, List.map_append, List.map_append, crowd, crowd, List.map_map, List.map_map, List.map_map]
    simp only [Function.comp_def, Nat.zero_add]
  rw [hfps]
  refine List.Nodup.map_on (fun i hi j hj heq => ?_) List.nodup_range
  have hlt : 2 ^ 64 < 256 ^ 48 := by norm_num
  rw [List.mem_range] at hi hj
  exact beBytes_inj (by omega) (by omega) (Subtype.mk.inj heq)

end

theorem NoWeapon.inert (h : p.NoWeapon) : p.Inert := by
  by_contra hnot
  simp only [Inert, not_or, not_forall, not_exists, not_and, not_lt] at hnot
  obtain ⟨hfresh, ⟨r, hr, hw⟩, hpercent⟩ := hnot
  have hw : 0 < (p.weighting.weightFor r).toNat := Nat.pos_of_ne_zero fun h0 => hw (UInt32.toNat_inj.mp h0)
  -- `n` vouchers that share nothing meet every bar, and `n + 2` of one grouping outweigh them
  obtain ⟨n, hn, hlt⟩ : ∃ n : Nat, 2 ^ 32 ≤ n ∧ n < 2 ^ 33 := ⟨2 ^ 32, le_refl _, by norm_num⟩
  have hmeets : (p.evaluate (crowd 0 n r none)).vouched = true :=
    vouched_crowd hfresh hr hw hpercent (fun c _ => c.toNat_lt.le.trans hn) (by omega)
  have hafter := h _ _ (nodup_crowd (m := n + 2) (by omega) r (some [])) hmeets
  rw [vouched_iff, score_crowd_append hfresh hr (by omega)] at hafter
  have hneg := hafter.1
  clear hn hlt
  push_cast at hneg
  nlinarith

/-- Further vouchers are harmless under a policy if and only if nothing counts under it. Under a bar in
numbers, those that share no grouping with another voucher do no harm. -/
theorem noWeapon_iff (p : VouchPolicy) : (p.NoWeapon ↔ p.Inert) ∧ ∀ c, p.threshold = .count c →
    ∀ old new, ((old ++ new).map (·.voucherFp)).Nodup → Apart old new → (p.evaluate old).vouched = true →
      (p.evaluate (old ++ new)).vouched = true := by
  refine ⟨⟨NoWeapon.inert, Inert.noWeapon⟩, fun c hthr old new hnd hapart hold => ?_⟩
  have hle := hapart.score_le hnd p
  rw [vouched_iff, meetsThreshold, hthr] at hold ⊢
  simp only [decide_eq_true_eq] at hold ⊢
  omega

/-- One stranger's vouch meets the bar, until two puppets of one grouping vouch too. -/
theorem puppets_unvouch :
    let p : VouchPolicy := { threshold := .count 1 }
    let old := crowd 0 1 .stranger none
    let new := crowd 1 2 .stranger (some [7])
    ((old ++ new).map (·.voucherFp)).Nodup ∧ (p.evaluate old).vouched = true ∧
      p.evaluate (old ++ new) = ⟨-1, false, true, new.map (·.voucherFp)⟩ ∧ ¬ p.NoWeapon := by
  refine ⟨by decide, by decide, by decide, fun h => ?_⟩
  have hafter := h (crowd 0 1 .stranger none) (crowd 1 2 .stranger (some [7])) (by decide) (by decide)
  revert hafter
  decide

end VouchPolicy
end Talkrypt.Core
