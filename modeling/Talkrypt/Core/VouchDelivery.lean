import Talkrypt.Core.VouchLedger

/-!
# The order in which vouches arrive

A record keeps the member that delivered it, and a decision looks up the grouping of that member. So what a set of
vouches amounts to depends on who passes them on, and for a member of several groupings on the order in which a
map is iterated. It does not if and only if all members that deliver are in the same groupings
(`deliveryIndependent_iff`).
-/

namespace Talkrypt.Core.Ledger
open TreeKem (Scheme)

section
variable (S : Scheme) (fingerprint : IdentityPublic → Fingerprint) (context : Gid)

def deliver (l : Ledger) (d : Fingerprint × Bytes) : Ledger := l.onVouch S fingerprint context d.1 d.2

/-- The ledger after some deliveries, where `groupings` is what has been proven. -/
def after (groupings : Table Bytes (List Fingerprint)) (ds : List (Fingerprint × Bytes)) : Ledger :=
  ds.foldl (deliver S fingerprint context) { groupingsSeen := groupings }

/-- No two accounts that vouch have the same fingerprint. -/
def CollisionFree (payloads : List Bytes) : Prop :=
  ∀ b ∈ payloads, ∀ b' ∈ payloads, ∀ v v', Vouch.admitted S fingerprint context b = some v →
    Vouch.admitted S fingerprint context b' = some v' → fingerprint v.voucher = fingerprint v'.voucher →
      v.voucher = v'.voucher

end

def certified (groupings : Table Bytes (List Fingerprint)) (g : Bytes) : List Fingerprint := (groupings.lookup g).getD []

/-- The same maps, which may be iterated in another order. -/
structure Same (l l' : Ledger) : Prop where
  recordsOf : ∀ subject, Table.Same (l.recordsOf subject) (l'.recordsOf subject)
  round : l.round = l'.round
  voucherRound : Table.Same l.voucherRound l'.voucherRound
  groupings : ∀ g leaf, leaf ∈ certified l.groupingsSeen g ↔ leaf ∈ certified l'.groupingsSeen g

/-- Every vouch for the subject still counts in full. -/
def Undecayed (viewer : Viewer) (l : Ledger) (subject : Fingerprint) : Prop :=
  ∀ v ∈ l.views viewer subject, viewer.policy.decayed v = viewer.policy.weight v

/-- What a set of payloads amounts to does not depend on the order in which `peers` deliver them, on repetitions,
on who delivers which, or on the order in which maps are iterated. -/
def DeliveryIndependent (S : Scheme) (fingerprint : IdentityPublic → Fingerprint) (context : Gid)
    (groupings : Table Bytes (List Fingerprint)) (peers : List Fingerprint) : Prop :=
  ∀ (viewer : Viewer) (ds ds' : List (Fingerprint × Bytes)), (∀ d ∈ ds, d.1 ∈ peers) → (∀ d ∈ ds', d.1 ∈ peers) →
    (∀ bytes, bytes ∈ ds.map Prod.snd ↔ bytes ∈ ds'.map Prod.snd) →
    CollisionFree S fingerprint context (ds.map Prod.snd) →
    ∀ l l', (after S fingerprint context groupings ds).Same l → (after S fingerprint context groupings ds').Same l' →
      ∀ subject, l.Undecayed viewer subject → l'.Undecayed viewer subject →
        (l.computeVouchDecision viewer subject).Same (l'.computeVouchDecision viewer subject)

/-- The peers are proven to be in the same groupings. -/
def Uniform (groupings : Table Bytes (List Fingerprint)) (peers : List Fingerprint) : Prop :=
  ∀ leaf ∈ peers, ∀ leaf' ∈ peers, ∀ g, leaf ∈ certified groupings g ↔ leaf' ∈ certified groupings g

variable {S : Scheme} {fingerprint : IdentityPublic → Fingerprint} {context : Gid}
  {groupings : Table Bytes (List Fingerprint)} {peers : List Fingerprint} {ds : List (Fingerprint × Bytes)}
  {l l' : Ledger} {subject voucherFp : Fingerprint} {rec : VouchRecord}

/-! ## What is on record -/

theorem after_concat (ds : List (Fingerprint × Bytes)) (d : Fingerprint × Bytes) :
    after S fingerprint context groupings (ds ++ [d]) =
      (after S fingerprint context groupings ds).onVouch S fingerprint context d.1 d.2 :=
  List.foldl_concat ..

@[simp] theorem groupingsSeen_after (ds : List (Fingerprint × Bytes)) :
    (after S fingerprint context groupings ds).groupingsSeen = groupings := by
  induction ds using List.reverseRecOn with
  | nil => rfl
  | append_singleton ds d ih => rw [after_concat, groupingsSeen_onVouch, ih]

theorem of_lookup_after (h : ((after S fingerprint context groupings ds).recordsOf subject).lookup voucherFp = some rec) :
    ∃ d ∈ ds, ∃ v, Vouch.admitted S fingerprint context d.2 = some v ∧ v.targetFp = subject ∧
      fingerprint v.voucher = voucherFp ∧ v.voucher = rec.voucher ∧ d.1 = rec.senderFp := by
  induction ds using List.reverseRecOn with
  | nil => cases h
  | append_singleton ds d ih =>
    rw [after_concat] at h
    rcases of_lookup_onVouch h with h | ⟨v, hacc, hs, hvf, rfl⟩
    · obtain ⟨d', hd', hv⟩ := ih h
      exact ⟨d', List.mem_append_left _ hd', hv⟩
    · exact ⟨d, List.mem_append_right _ List.mem_cons_self, v, (accepted_eq_some.mp hacc).1, hs, hvf, rfl, rfl⟩

theorem lookup_after_ne_none {d : Fingerprint × Bytes} (hd : d ∈ ds) {v : Vouch}
    (hv : Vouch.admitted S fingerprint context d.2 = some v) :
    ((after S fingerprint context groupings ds).recordsOf v.targetFp).lookup (fingerprint v.voucher) ≠ none := by
  induction ds using List.reverseRecOn with
  | nil => cases hd
  | append_singleton ds d' ih =>
    rw [after_concat]
    rcases List.mem_append.mp hd with hd | hd
    · exact lookup_onVouch_ne_none (ih hd)
    · obtain rfl := List.mem_singleton.mp hd
      exact lookup_onVouch_of_admitted hv

theorem mem_vouchers_after : voucherFp ∈ ((after S fingerprint context groupings ds).recordsOf subject).toList.map Prod.fst ↔
    ∃ bytes ∈ ds.map Prod.snd, ∃ v, Vouch.admitted S fingerprint context bytes = some v ∧ v.targetFp = subject ∧
      fingerprint v.voucher = voucherFp := by
  rw [Table.mem_map_fst_toList]
  constructor
  · intro h
    obtain ⟨rec, hrec⟩ := Option.ne_none_iff_exists'.mp h
    obtain ⟨d, hd, v, hv, hs, hvf, -⟩ := of_lookup_after hrec
    exact ⟨d.2, List.mem_map_of_mem hd, v, hv, hs, hvf⟩
  · rintro ⟨bytes, hbytes, v, hv, rfl, rfl⟩
    obtain ⟨d, hd, rfl⟩ := List.mem_map.mp hbytes
    exact lookup_after_ne_none hd hv

/-! ## Groupings of the members that deliver -/

theorem lookup_groupingIndex (l : Ledger) (leaf : Fingerprint) : l.groupingIndex.lookup leaf =
    Table.lastOf (l.groupingsSeen.toList.flatMap fun e => e.2.map fun leaf => (leaf, e.1)) leaf := by
  rw [groupingIndex, Table.lookup_insertAll, AList.lookup_empty, Option.or_none]

variable {leaf : Fingerprint}

theorem mem_certified {g : Bytes} : leaf ∈ certified groupings g ↔ ∃ e ∈ groupings.toList, e.1 = g ∧ leaf ∈ e.2 := by
  constructor
  · intro h
    cases hg : groupings.lookup g with
    | none =>
      rw [certified, hg] at h
      cases h
    | some leaves =>
      rw [certified, hg] at h
      exact ⟨(g, leaves), Table.mem_toList.mpr hg, rfl, h⟩
  · rintro ⟨⟨g', leaves⟩, he, rfl, hmem⟩
    rw [certified, Table.mem_toList.mp he]
    exact hmem

theorem isSome_groupingIndex : (l.groupingIndex.lookup leaf).isSome ↔ ∃ g, leaf ∈ certified l.groupingsSeen g := by
  rw [lookup_groupingIndex, Table.isSome_lastOf]
  simp only [List.map_flatMap, List.map_map, List.mem_flatMap, List.mem_map, Function.comp_apply, exists_eq_right,
    mem_certified]
  constructor
  · rintro ⟨e, he, hmem⟩
    exact ⟨e.1, e, he, rfl, hmem⟩
  · rintro ⟨g, e, he, -, hmem⟩
    exact ⟨e, he, hmem⟩

theorem mem_certified_of_groupingIndex {g : Bytes} (h : l.groupingIndex.lookup leaf = some g) :
    leaf ∈ certified l.groupingsSeen g := by
  rw [lookup_groupingIndex] at h
  obtain ⟨e, he, hmem⟩ := List.mem_flatMap.mp (Table.mem_of_lastOf h)
  obtain ⟨leaf', hleaf', heq⟩ := List.mem_map.mp hmem
  cases heq
  exact mem_certified.mpr ⟨e, he, rfl, hleaf'⟩

theorem groupingIndex_congr {leaf' : Fingerprint}
    (h : ∀ g, leaf ∈ certified l.groupingsSeen g ↔ leaf' ∈ certified l.groupingsSeen g) :
    l.groupingIndex.lookup leaf = l.groupingIndex.lookup leaf' := by
  have hentries : ∀ e ∈ l.groupingsSeen.toList, leaf ∈ e.2 ↔ leaf' ∈ e.2 := fun e he => by
    have hcert : certified l.groupingsSeen e.1 = e.2 := by rw [certified, Table.mem_toList.mp he, Option.getD_some]
    have hmem := h e.1
    rwa [hcert] at hmem
  rw [lookup_groupingIndex, lookup_groupingIndex]
  generalize l.groupingsSeen.toList = es at hentries
  induction es with
  | nil => rfl
  | cons e es ih =>
    rw [List.flatMap_cons, Table.lastOf_append, Table.lastOf_append, ih fun e' he' => hentries e' (List.mem_cons_of_mem _ he'),
      Table.lastOf_map_const, Table.lastOf_map_const]
    have hmem := hentries e List.mem_cons_self
    by_cases hleaf : leaf' ∈ e.2
    · rw [if_pos hleaf, if_pos (hmem.mpr hleaf)]
    · rw [if_neg hleaf, if_neg (mt hmem.mp hleaf)]

theorem exists_rename (hpeers : Uniform groupings peers)
    (hl : ∀ g leaf, leaf ∈ certified groupings g ↔ leaf ∈ certified l.groupingsSeen g)
    (hl' : ∀ g leaf, leaf ∈ certified groupings g ↔ leaf ∈ certified l'.groupingsSeen g) :
    ∃ φ : Bytes → Bytes, Function.Injective φ ∧ ∀ leaf ∈ peers, ∀ leaf' ∈ peers,
      l'.groupingIndex.lookup leaf' = (l.groupingIndex.lookup leaf).map φ := by
  by_cases hnone : ∀ leaf, leaf ∉ peers
  · exact ⟨id, Function.injective_id, fun leaf hleaf => absurd hleaf (hnone leaf)⟩
  push Not at hnone
  obtain ⟨one, hone⟩ := hnone
  have hindex : ∀ leaf ∈ peers, l.groupingIndex.lookup leaf = l.groupingIndex.lookup one := fun leaf hleaf =>
    groupingIndex_congr fun g => by rw [← hl, ← hl, hpeers leaf hleaf one hone g]
  have hindex' : ∀ leaf ∈ peers, l'.groupingIndex.lookup leaf = l'.groupingIndex.lookup one := fun leaf hleaf =>
    groupingIndex_congr fun g => by rw [← hl', ← hl', hpeers leaf hleaf one hone g]
  have hsome : (l.groupingIndex.lookup one).isSome ↔ (l'.groupingIndex.lookup one).isSome := by
    simp only [isSome_groupingIndex, ← hl, ← hl']
  suffices h : ∃ φ : Bytes → Bytes, Function.Injective φ ∧
      l'.groupingIndex.lookup one = (l.groupingIndex.lookup one).map φ by
    obtain ⟨φ, hφ, heq⟩ := h
    exact ⟨φ, hφ, fun leaf hleaf leaf' hleaf' => by rw [hindex' leaf' hleaf', hindex leaf hleaf, heq]⟩
  cases hg : l.groupingIndex.lookup one with
  | none =>
    cases hg' : l'.groupingIndex.lookup one with
    | none => exact ⟨id, Function.injective_id, rfl⟩
    | some g' => simp [hg, hg'] at hsome
  | some g =>
    cases hg' : l'.groupingIndex.lookup one with
    | none => simp [hg, hg'] at hsome
    | some g' => exact ⟨Equiv.swap g g', (Equiv.swap g g').injective, by simp⟩

/-! ## Peers of the same groupings -/

def viewOf (viewer : Viewer) (l : Ledger) (subject voucherFp : Fingerprint) : VoucherView :=
  match (l.recordsOf subject).lookup voucherFp with
  | none => ⟨voucherFp, .stranger, 0, none⟩
  | some rec => l.view viewer voucherFp rec

theorem viewOf_of_lookup (viewer : Viewer) (h : (l.recordsOf subject).lookup voucherFp = some rec) :
    l.viewOf viewer subject voucherFp = l.view viewer voucherFp rec := by
  rw [viewOf, h]

theorem views_eq_map (viewer : Viewer) (l : Ledger) (subject : Fingerprint) :
    l.views viewer subject = ((l.recordsOf subject).toList.map Prod.fst).map (l.viewOf viewer subject) := by
  rw [views, List.map_map]
  exact List.map_congr_left fun e he => (viewOf_of_lookup viewer (Table.mem_toList.mp he)).symm

theorem Uniform.deliveryIndependent (hpeers : Uniform groupings peers) :
    DeliveryIndependent S fingerprint context groupings peers := by
  intro viewer ds ds' hds hds' hsame hfree l l' hl hl' subject hfresh hfresh'
  let vouchers (l : Ledger) := (l.recordsOf subject).toList.map Prod.fst
  have hvouchers : (vouchers l).Perm (vouchers l') := by
    refine (List.perm_ext_iff_of_nodup (Table.nodup_toList _) (Table.nodup_toList _)).mpr fun voucherFp => ?_
    rw [Table.mem_map_fst_toList, Table.mem_map_fst_toList, ← hl.recordsOf, ← hl'.recordsOf, ← Table.mem_map_fst_toList,
      ← Table.mem_map_fst_toList, mem_vouchers_after, mem_vouchers_after]
    simp only [hsame]
  have hcert (g : Bytes) (leaf : Fingerprint) : leaf ∈ certified groupings g ↔ leaf ∈ certified l.groupingsSeen g := by
    rw [← hl.groupings, groupingsSeen_after]
  have hcert' (g : Bytes) (leaf : Fingerprint) : leaf ∈ certified groupings g ↔ leaf ∈ certified l'.groupingsSeen g := by
    rw [← hl'.groupings, groupingsSeen_after]
  obtain ⟨φ, hφ, hindex⟩ := exists_rename hpeers hcert hcert'
  -- the two views of a voucher, whose records may come from different members
  have hviews : ∀ voucherFp ∈ vouchers l', ∃ rec rec', (l.recordsOf subject).lookup voucherFp = some rec ∧
      (l'.recordsOf subject).lookup voucherFp = some rec' ∧ rec.voucher = rec'.voucher ∧ rec.senderFp ∈ peers ∧
      rec'.senderFp ∈ peers := by
    intro voucherFp hmem
    obtain ⟨rec, hrec⟩ := Option.ne_none_iff_exists'.mp (Table.mem_map_fst_toList.mp (hvouchers.mem_iff.mpr hmem))
    obtain ⟨rec', hrec'⟩ := Option.ne_none_iff_exists'.mp (Table.mem_map_fst_toList.mp hmem)
    obtain ⟨d, hd, v, hv, -, hvf, hvoucher, hsender⟩ := of_lookup_after ((hl.recordsOf _ _).trans hrec)
    obtain ⟨d', hd', v', hv', -, hvf', hvoucher', hsender'⟩ := of_lookup_after ((hl'.recordsOf _ _).trans hrec')
    refine ⟨rec, rec', hrec, hrec', ?_, hsender ▸ hds d hd, hsender' ▸ hds' d' hd'⟩
    rw [← hvoucher, ← hvoucher']
    exact hfree d.2 (List.mem_map_of_mem hd) d'.2 ((hsame _).mpr (List.mem_map_of_mem hd')) v v' hv hv' (hvf.trans hvf'.symm)
  have hfull {l : Ledger} {voucherFp : Fingerprint} (hfresh : l.Undecayed viewer subject) (hmem : voucherFp ∈ vouchers l) :
      viewer.policy.decayed (l.viewOf viewer subject voucherFp) = viewer.policy.weight (l.viewOf viewer subject voucherFp) :=
    hfresh _ (views_eq_map viewer l subject ▸ List.mem_map_of_mem hmem)
  have hrel : ∀ voucherFp ∈ vouchers l', (l'.viewOf viewer subject voucherFp).relationship =
      (l.viewOf viewer subject voucherFp).relationship := fun voucherFp hmem => by
    obtain ⟨rec, rec', hrec, hrec', hvoucher, -⟩ := hviews voucherFp hmem
    rw [viewOf_of_lookup viewer hrec, viewOf_of_lookup viewer hrec', view, view, hvoucher]
  rw [computeVouchDecision, computeVouchDecision, views_eq_map, views_eq_map]
  refine (VouchPolicy.evaluate_perm (hvouchers.map _)).trans (VouchPolicy.evaluate_alike hφ ?_ hrel ?_ ?_)
  · intro voucherFp hmem
    obtain ⟨rec, rec', hrec, hrec', -⟩ := hviews voucherFp hmem
    rw [viewOf_of_lookup viewer hrec, viewOf_of_lookup viewer hrec', view, view]
  · intro voucherFp hmem
    rw [hfull hfresh' hmem, hfull hfresh (hvouchers.mem_iff.mpr hmem), VouchPolicy.weight, hrel voucherFp hmem,
      VouchPolicy.weight]
  · intro voucherFp hmem
    obtain ⟨rec, rec', hrec, hrec', -, hsender, hsender'⟩ := hviews voucherFp hmem
    rw [viewOf_of_lookup viewer hrec, viewOf_of_lookup viewer hrec']
    exact hindex _ hsender _ hsender'

/-! ## Peers of different groupings -/

section
variable {v₁ v₂ : Vouch} {b₁ b₂ : Bytes} {x y : Fingerprint}

structure Pair (S : Scheme) (fingerprint : IdentityPublic → Fingerprint) (context : Gid) (b₁ b₂ : Bytes) (v₁ v₂ : Vouch) :
    Prop where
  first : Vouch.admitted S fingerprint context b₁ = some v₁
  second : Vouch.admitted S fingerprint context b₂ = some v₂
  subject : v₂.targetFp = v₁.targetFp
  ne : fingerprint v₂.voucher ≠ fingerprint v₁.voucher

variable (h : Pair S fingerprint context b₁ b₂ v₁ v₂)
include h

theorem Pair.after_eq (groupings : Table Bytes (List Fingerprint)) (x y : Fingerprint) :
    after S fingerprint context groupings [(x, b₁), (y, b₂)] =
      (Ledger.witnessGossipRound (record fingerprint (witnessGossipRound { groupingsSeen := groupings } x) x v₁) y).record
        fingerprint y v₂ := by
  have hacc₁ : accepted S fingerprint context { groupingsSeen := groupings } b₁ = some v₁ :=
    accepted_eq_some.mpr ⟨h.first, nofun⟩
  have hone : after S fingerprint context groupings [(x, b₁)] =
      record fingerprint (witnessGossipRound { groupingsSeen := groupings } x) x v₁ := onVouch_of_some hacc₁
  refine (after_concat [(x, b₁)] (y, b₂)).trans ?_
  rw [hone]
  refine onVouch_of_some (accepted_eq_some.mpr ⟨h.second, fun existing he => ?_⟩)
  rw [recordsOf_record, if_pos h.subject, AList.lookup_insert_ne h.ne, recordsOf_witnessGossipRound] at he
  cases he

theorem Pair.recordsOf_after (groupings : Table Bytes (List Fingerprint)) (x y : Fingerprint) :
    ((after S fingerprint context groupings [(x, b₁), (y, b₂)]).recordsOf v₁.targetFp).toList =
      [(fingerprint v₂.voucher, ⟨v₂.epoch, v₂.voucher, y⟩), (fingerprint v₁.voucher, ⟨v₁.epoch, v₁.voucher, x⟩)] := by
  have hempty : ({ groupingsSeen := groupings } : Ledger).recordsOf v₁.targetFp = ∅ := rfl
  rw [h.after_eq, recordsOf_record, if_pos h.subject.symm, recordsOf_witnessGossipRound, recordsOf_record, if_pos rfl,
    recordsOf_witnessGossipRound, hempty, Table.toList, AList.entries_insert_of_notMem, AList.entries_insert_of_notMem]
  · rfl
  · exact AList.notMem_empty _
  · rw [AList.mem_insert]
    rintro (heq | hmem)
    · exact h.ne heq
    · exact AList.notMem_empty _ hmem

theorem Pair.age_after (groupings : Table Bytes (List Fingerprint)) (x y : Fingerprint) :
    let l := after S fingerprint context groupings [(x, b₁), (y, b₂)]
    l.age (fingerprint v₂.voucher) = 0 ∧ (l.age (fingerprint v₁.voucher) = 0 ∨ l.age (fingerprint v₁.voucher) = 1) := by
  have hstart : witnessGossipRound { groupingsSeen := groupings } x =
      { groupingsSeen := groupings, round := 1, lastRoundAdvancer := some x } := if_pos nofun
  dsimp only
  rw [h.after_eq, hstart]
  unfold witnessGossipRound
  split
  all_goals
    simp only [age, record, AList.lookup_insert, AList.lookup_insert_ne h.ne.symm, Option.getD_some, Nat.sub_self]
  · exact ⟨rfl, .inr rfl⟩
  · exact ⟨rfl, .inl rfl⟩

theorem Pair.views_after (groupings groupings' : Table Bytes (List Fingerprint)) (x y : Fingerprint) :
    let l := { after S fingerprint context groupings [(x, b₁), (y, b₂)] with groupingsSeen := groupings' }
    ∃ a, (a = 0 ∨ a = 1) ∧ l.views ⟨{ threshold := .count 1 }, {}, []⟩ v₁.targetFp =
      [⟨fingerprint v₂.voucher, .stranger, 0, l.groupingIndex.lookup y⟩,
        ⟨fingerprint v₁.voucher, .stranger, a, l.groupingIndex.lookup x⟩] := by
  intro l
  obtain ⟨hsecond, hfirst⟩ := h.age_after groupings x y
  refine ⟨_, hfirst, ?_⟩
  have hrecords : (l.recordsOf v₁.targetFp).toList = _ := h.recordsOf_after groupings x y
  have hage : l.age (fingerprint v₂.voucher) = 0 := hsecond
  rw [views, hrecords]
  simp only [List.map_cons, List.map_nil, view, hage]
  rfl

omit h in
theorem score_two {p : VouchPolicy} (hp : p.eligibility = .anyLinked) (u v : VoucherView) :
    p.score [u, v] = if u.grouping = v.grouping ∧ u.grouping ≠ none then -(p.decayed u + p.decayed v : Int)
      else p.decayed u + p.decayed v := by
  have hcounted : p.counted [u, v] = [u, v] := by
    simp [VouchPolicy.counted, VouchPolicy.eligible, hp, VoucherEligibility.allows]
  have hcrowded {w : VoucherView} (hw : w = u ∨ w = v) : Crowded VoucherView.grouping [u, v] w ↔
      u.grouping = v.grouping ∧ u.grouping ≠ none := by
    cases hu : u.grouping with
    | none =>
      rcases hw with rfl | rfl
      · exact iff_of_false (not_crowded_of_none hu) (by simp)
      · refine iff_of_false ?_ (by simp)
        rintro ⟨g, hg, hlen⟩
        simp [cluster, hu, hg] at hlen
    | some g =>
      by_cases hv : v.grouping = some g
      · have hall : cluster VoucherView.grouping [u, v] g = [u, v] := by simp [cluster, hu, hv]
        have hkey : w.grouping = some g := by rcases hw with rfl | rfl <;> assumption
        rw [crowded_of_key hkey, hall, hv]
        simp
      · refine iff_of_false ?_ (fun heq => hv heq.1.symm)
        rintro ⟨g', hg', hlen⟩
        rcases hw with rfl | rfl
        · obtain rfl : g = g' := Option.some.inj (hu.symm.trans hg')
          simp [cluster, hu, hv] at hlen
        · have hne : u.grouping ≠ some g' := fun h => hv (hg'.trans (h.symm.trans hu))
          simp [cluster, hne, hg'] at hlen
  rw [VouchPolicy.score_eq, hcounted]
  simp only [List.map_cons, List.map_nil, List.sum_cons, List.sum_nil, VouchPolicy.stake, hcounted, hcrowded (.inl rfl),
    hcrowded (.inr rfl)]
  split <;> omega

omit h in
theorem decayed_of_age_le_one {p : VouchPolicy} (hp : p.weighting = {}) (hinterval : p.freshnessIntervalRounds = 64)
    {fp : Fingerprint} {a : UInt32} (ha : a = 0 ∨ a = 1) (g : Option Bytes) : p.decayed ⟨fp, .stranger, a, g⟩ = 1 := by
  simp only [VouchPolicy.decayed, VouchPolicy.weight, hp, hinterval]
  rcases ha with rfl | rfl <;> decide

theorem Pair.collisionFree : CollisionFree S fingerprint context [b₁, b₂] := by
  have hvouch : ∀ b ∈ [b₁, b₂], ∀ v, Vouch.admitted S fingerprint context b = some v → v = v₁ ∨ v = v₂ := by
    intro b hb v hv
    rcases List.mem_pair.mp hb with rfl | rfl
    · exact .inl (Option.some.inj (hv.symm.trans h.first))
    · exact .inr (Option.some.inj (hv.symm.trans h.second))
  intro b hb b' hb' v v' hv hv' heq
  rcases hvouch b hb v hv with rfl | rfl <;> rcases hvouch b' hb' v' hv' with rfl | rfl
  · rfl
  · exact absurd heq.symm h.ne
  · exact absurd heq h.ne
  · rfl

/-- If the same member delivers both, they are taken for one operator. If another delivers the second, they count. -/
theorem Pair.not_deliveryIndependent {leaf leaf' : Fingerprint} (hleaf : leaf ∈ peers) (hleaf' : leaf' ∈ peers) {g : Bytes}
    (hin : leaf ∈ certified groupings g) (hout : leaf' ∉ certified groupings g) :
    ¬ DeliveryIndependent S fingerprint context groupings peers := by
  intro hindependent
  obtain ⟨⟨g, leaves⟩, he, rfl, hmem⟩ := mem_certified.mp hin
  obtain ⟨groupings', es, hsame, hlast⟩ := Table.exists_last (Table.mem_toList.mp he)
  let viewer : Viewer := ⟨{ threshold := .count 1 }, {}, []⟩
  let l (y : Fingerprint) : Ledger :=
    { after S fingerprint context groupings [(leaf, b₁), (y, b₂)] with groupingsSeen := groupings' }
  have hl (y : Fingerprint) : (after S fingerprint context groupings [(leaf, b₁), (y, b₂)]).Same (l y) :=
    ⟨fun _ => Table.Same.refl _, rfl, Table.Same.refl _, fun g leaf => by
      simp only [l, groupingsSeen_after, certified, hsame g]⟩
  have hindex (y : Fingerprint) : (l y).groupingIndex.lookup leaf = some g := by
    rw [lookup_groupingIndex, hlast, List.flatMap_append, Table.lastOf_append, List.flatMap_singleton,
      Table.lastOf_map_const, if_pos hmem, Option.some_or]
  have hindex' (y : Fingerprint) : (l y).groupingIndex.lookup leaf' ≠ some g := by
    intro hg
    refine hout (?_ : leaf' ∈ (groupings.lookup g).getD [])
    rw [hsame g]
    exact mem_certified_of_groupingIndex hg
  have hviews (y : Fingerprint) := h.views_after groupings groupings' leaf y
  have hfresh (y : Fingerprint) : (l y).Undecayed viewer v₁.targetFp := by
    obtain ⟨a, ha, hviews⟩ := hviews y
    intro w hw
    rw [hviews] at hw
    rcases List.mem_pair.mp hw with rfl | rfl
    · exact decayed_of_age_le_one rfl rfl (.inl rfl) _
    · exact decayed_of_age_le_one rfl rfl ha _
  have hdecision := hindependent viewer [(leaf, b₁), (leaf, b₂)] [(leaf, b₁), (leaf', b₂)] (by simpa using hleaf)
    (by simpa using ⟨hleaf, hleaf'⟩) (fun _ => Iff.rfl) h.collisionFree _ _ (hl leaf) (hl leaf') v₁.targetFp (hfresh leaf)
    (hfresh leaf')
  obtain ⟨a, ha, hviews₁⟩ := hviews leaf
  obtain ⟨a', ha', hviews₂⟩ := hviews leaf'
  have hscore : viewer.policy.score ((l leaf).views viewer v₁.targetFp) =
      viewer.policy.score ((l leaf').views viewer v₁.targetFp) := hdecision.weightedScore
  have hsome : (l leaf).groupingIndex.lookup leaf ≠ none := by
    rw [hindex]
    nofun
  rw [hviews₁, hviews₂, score_two rfl, score_two rfl, if_pos ⟨rfl, hsome⟩,
    if_neg fun heq => hindex' leaf' (heq.1.trans (hindex leaf')), decayed_of_age_le_one rfl rfl (.inl rfl),
    decayed_of_age_le_one rfl rfl ha, decayed_of_age_le_one rfl rfl (.inl rfl), decayed_of_age_le_one rfl rfl ha'] at hscore
  cases hscore

end

/-- What a set of vouches amounts to is independent of delivery if and only if all peers are in the same groupings. -/
theorem deliveryIndependent_iff (hpair : ∃ b₁ b₂ v₁ v₂, Pair S fingerprint context b₁ b₂ v₁ v₂)
    (groupings : Table Bytes (List Fingerprint)) (peers : List Fingerprint) :
    DeliveryIndependent S fingerprint context groupings peers ↔ Uniform groupings peers := by
  refine ⟨fun h => ?_, Uniform.deliveryIndependent⟩
  obtain ⟨b₁, b₂, v₁, v₂, hpair⟩ := hpair
  intro leaf hleaf leaf' hleaf' g
  constructor
  · intro hin
    by_contra hout
    exact hpair.not_deliveryIndependent hleaf hleaf' hin hout h
  · intro hin
    by_contra hout
    exact hpair.not_deliveryIndependent hleaf' hleaf hin hout h

/-! Two accounts vouch for a third, in a chat where one member has proven a grouping. -/

def sampleContext : Gid := padArr 32 []

def sampleVouch (voucher : UInt8) : Bytes :=
  (Vouch.signVouch (S := Scheme.plain) voucher (.account (padArr 48 [9])) sampleContext 1 1).encode

def sampleGroupings : Table Bytes (List Fingerprint) := AList.insert [7] [hostFp] ∅

theorem exists_pair : ∃ b₁ b₂ v₁ v₂, Pair Scheme.plain Env.plain.fingerprint sampleContext b₁ b₂ v₁ v₂ :=
  ⟨sampleVouch 1, sampleVouch 2, _, _, admitted_signVouch Scheme.plain_lawful (1 : UInt8) _ 1 1 (by decide),
    admitted_signVouch Scheme.plain_lawful (2 : UInt8) _ 1 1 (by decide), rfl, by decide⟩

/-- As long as the one member delivers, the order does not matter. -/
theorem deliveryIndependent_sample :
    DeliveryIndependent Scheme.plain Env.plain.fingerprint sampleContext sampleGroupings [hostFp] :=
  (deliveryIndependent_iff exists_pair sampleGroupings [hostFp]).mpr fun leaf hleaf leaf' hleaf' g => by
    rw [List.mem_singleton.mp hleaf, List.mem_singleton.mp hleaf']

/-- If both vouches come through the member with the grouping, they count against the subject. If another member
passes on the second, they count for it. -/
theorem decision_by_deliverer :
    let viewer : Viewer := ⟨{ threshold := .count 1 }, {}, []⟩
    let run := after Scheme.plain Env.plain.fingerprint sampleContext sampleGroupings
    let l := run [(hostFp, sampleVouch 1), (hostFp, sampleVouch 2)]
    let l' := run [(hostFp, sampleVouch 1), (peerFp, sampleVouch 2)]
    (l.computeVouchDecision viewer (padArr 48 [9])).weightedScore = -2 ∧
      (l'.computeVouchDecision viewer (padArr 48 [9])).weightedScore = 2 := by
  decide +kernel

end Talkrypt.Core.Ledger

