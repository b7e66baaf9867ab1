import Talkrypt.Core.Vouch

/-!
# A viewer's own policy (`effective_policy` in `crates/core/src/engine.rs`)

A viewer may set weights and a bar of its own over those of the chat. A bar of the chat's kind is merged into the
stricter one. Weights, and a bar of the other kind, replace what the chat says.
-/

namespace Talkrypt.Core

inductive Threshold.Kind where
  | count
  | percent
deriving DecidableEq

namespace Threshold

def kind : Threshold → Kind
  | count _ => .count
  | percent _ => .percent

/-- The bar `t` of a viewer over the bar of the chat. -/
def override (chat t : Threshold) : Threshold :=
  match chat, t with
  | count a, t =>
    -- vouching is off in the chat
    if a = COUNT_MAX then t
    else match t with
      | count b => count (max a b)
      | percent q => percent q
  | percent a, percent b => percent (max a b)
  | percent _, count b => count b

theorem toNat_max_u8 (a b : UInt8) : (max a b).toNat = max a.toNat b.toNat := by
  change (if a ≤ b then b else a).toNat = if a.toNat ≤ b.toNat then b.toNat else a.toNat
  simp only [UInt8.le_iff_toNat_le]
  split <;> rfl

theorem toNat_max_u32 (a b : UInt32) : (max a b).toNat = max a.toNat b.toNat := by
  change (if a ≤ b then b else a).toNat = if a.toNat ≤ b.toNat then b.toNat else a.toNat
  simp only [UInt32.le_iff_toNat_le]
  split <;> rfl

theorem override_percent (chat : Threshold) (q : UInt8) :
    ∃ q', chat.override (percent q) = percent q' ∧ q.toNat ≤ q'.toNat := by
  cases chat with
  | count a =>
    refine ⟨q, ?_, le_refl _⟩
    simp only [override]
    split <;> rfl
  | percent a => exact ⟨max a q, rfl, toNat_max_u8 a q ▸ le_max_right ..⟩

theorem override_count (chat : Threshold) (b : UInt32) :
    ∃ c, chat.override (count b) = count c ∧ b.toNat ≤ c.toNat := by
  cases chat with
  | count a =>
    by_cases ha : a = COUNT_MAX
    · exact ⟨b, by rw [override, if_pos ha], le_refl _⟩
    · exact ⟨max a b, by rw [override, if_neg ha], toNat_max_u32 a b ▸ le_max_right ..⟩
  | percent a => exact ⟨b, rfl, le_refl _⟩

theorem override_ne_zero {t : Threshold} (h : t ≠ count 0) (chat : Threshold) : chat.override t ≠ count 0 := by
  cases t with
  | count b =>
    obtain ⟨c, hc, hle⟩ := chat.override_count b
    rw [hc]
    rintro h0
    obtain rfl : c = 0 := Threshold.count.inj h0
    exact h (congrArg count (UInt32.toNat_inj.mp (Nat.le_zero.mp hle)))
  | percent q =>
    obtain ⟨q', hq', -⟩ := chat.override_percent q
    rw [hq']
    nofun

end Threshold

structure VouchOverride where
  weighting : Option VouchWeighting := none
  threshold : Option Threshold := none
deriving DecidableEq

def effectivePolicy (chat : VouchPolicy) (o : VouchOverride) : VouchPolicy :=
  { chat with
    weighting := o.weighting.getD chat.weighting
    threshold := match o.threshold with
      | none => chat.threshold
      | some t => chat.threshold.override t }

def VouchPolicy.Enabled (p : VouchPolicy) : Prop := p.threshold ≠ .count COUNT_MAX

namespace VouchOverride
open VouchPolicy

/-- In chats with a bar of this kind, whoever is vouched for under the override is vouched for without it. -/
def OnlyTightens (o : VouchOverride) (k : Threshold.Kind) : Prop :=
  ∀ chat : VouchPolicy, chat.Enabled → chat.threshold.kind = k → ∀ vs : List VoucherView, (vs.map (·.voucherFp)).Nodup →
    ((effectivePolicy chat o).evaluate vs).vouched = true → (chat.evaluate vs).vouched = true

/-- The override keeps the weights and has no bar of the other kind. -/
def KeepsKind (o : VouchOverride) (k : Threshold.Kind) : Prop :=
  o.weighting = none ∧ ∀ t, o.threshold = some t → t.kind = k

/-- Nobody is vouched for under the override: its share is out of reach, or its weights are all zero and the bar
is not. -/
def Vain (o : VouchOverride) (k : Threshold.Kind) : Prop :=
  (∃ q, o.threshold = some (.percent q) ∧ 100 < q.toNat) ∨
    ∃ w, o.weighting = some w ∧ (∀ r, w.weightFor r = 0) ∧
      match o.threshold with
      | none => k = .percent
      | some t => t ≠ .count 0

variable {o : VouchOverride} {k : Threshold.Kind} {chat : VouchPolicy} {vs : List VoucherView}

theorem not_vouched_of_void {p : VouchPolicy} (h : ∀ r, p.weighting.weightFor r = 0) (hbar : p.threshold ≠ .count 0)
    (vs : List VoucherView) : ¬ (p.evaluate vs).vouched = true := by
  have hmost : p.maxScore vs = 0 := by
    refine List.sum_eq_zero fun x hx => ?_
    obtain ⟨v, -, rfl⟩ := List.mem_map.mp hx
    rw [weight, h v.relationship, UInt32.toNat_zero]
  rw [vouched_iff, score_eq_zero (p := p) (.inr fun r _ => h r), meetsThreshold, hmost]
  rintro ⟨-, hmet⟩
  cases ht : p.threshold with
  | count c =>
    rw [ht] at hmet
    have hc : c.toNat = 0 := by simpa using hmet
    exact hbar (ht.trans (congrArg Threshold.count (UInt32.toNat_inj.mp hc)))
  | percent q =>
    rw [ht] at hmet
    cases hmet

theorem meetsThreshold_of_override {t : Threshold} (hchat : chat.Enabled) (hkind : t.kind = chat.threshold.kind)
    {score : Int} (h : { chat with threshold := chat.threshold.override t }.meetsThreshold score vs = true) :
    chat.meetsThreshold score vs = true := by
  have hmax : { chat with threshold := chat.threshold.override t }.maxScore vs = chat.maxScore vs := rfl
  unfold meetsThreshold at h ⊢
  rw [hmax] at h
  unfold Enabled at hchat
  generalize chat.maxScore vs = most at h
  cases hbar : chat.threshold with
  | count a =>
    cases t with
    | count b =>
      have ha : a ≠ COUNT_MAX := fun ha => hchat (ha ▸ hbar)
      rw [hbar, Threshold.override, if_neg ha] at h
      have hle := le_max_left a.toNat b.toNat
      simp only [Threshold.toNat_max_u32, decide_eq_true_eq] at h ⊢
      omega
    | percent q =>
      rw [hbar] at hkind
      cases hkind
  | percent q =>
    cases t with
    | count b =>
      rw [hbar] at hkind
      cases hkind
    | percent q' =>
      rw [hbar, Threshold.override] at h
      have hle := Nat.mul_le_mul_right most (le_max_left q.toNat q'.toNat)
      simp only [Threshold.toNat_max_u8, Bool.and_eq_true, decide_eq_true_eq] at h ⊢
      exact ⟨h.1, hle.trans h.2⟩

theorem KeepsKind.onlyTightens (h : o.KeepsKind k) : o.OnlyTightens k := by
  rintro chat hchat rfl vs - hvouched
  obtain ⟨hw, ht⟩ := h
  obtain ⟨w, t⟩ := o
  obtain rfl : w = none := hw
  cases t with
  | none => exact hvouched
  | some t =>
    rw [vouched_iff] at hvouched ⊢
    exact ⟨hvouched.1, meetsThreshold_of_override hchat (ht t rfl) hvouched.2⟩

theorem Vain.onlyTightens (h : o.Vain k) : o.OnlyTightens k := by
  rintro chat hchat rfl vs - hvouched
  refine absurd hvouched ?_
  rcases h with ⟨q, hq, hlt⟩ | ⟨w, hw, hzero, hbar⟩
  · obtain ⟨q', hq', hle⟩ := chat.threshold.override_percent q
    refine not_vouched_of_percent (q := q') ?_ (hlt.trans_le hle) vs
    rw [effectivePolicy, hq]
    exact hq'
  · refine not_vouched_of_void (fun r => ?_) ?_ vs
    · rw [effectivePolicy, hw]
      exact hzero r
    · rw [effectivePolicy]
      cases ht : o.threshold with
      | none =>
        rw [ht] at hbar
        exact fun h0 => absurd (h0 ▸ hbar) (by decide)
      | some t =>
        rw [ht] at hbar
        exact Threshold.override_ne_zero hbar _

theorem not_onlyTightens (chat : VouchPolicy) (n : Nat) (r : Relationship) (g : Option Bytes) (hchat : chat.Enabled)
    (hkind : chat.threshold.kind = k) (hn : n < 2 ^ 64)
    (heffective : ((effectivePolicy chat o).evaluate (crowd 0 n r g)).vouched = true)
    (hnot : ¬ (chat.evaluate (crowd 0 n r g)).vouched = true) : ¬ o.OnlyTightens k := fun h =>
  have hnodup : ((crowd 0 n r g).map (·.voucherFp)).Nodup := nodup_crowd (n := 0) (by omega) r g
  hnot (h chat hchat hkind _ hnodup heffective)

theorem percent_le_of_not_vain {q : UInt8} (hvain : ¬ o.Vain k) (ht : o.threshold = some (.percent q)) : q.toNat ≤ 100 := by
  by_contra hlt
  exact hvain (.inl ⟨q, ht, by omega⟩)

theorem not_onlyTightens_of_kind {t : Threshold} (ho : o.weighting = none) (ht : o.threshold = some t) (hkind : t.kind ≠ k)
    (hvain : ¬ o.Vain k) : ¬ o.OnlyTightens k := by
  obtain ⟨w, t'⟩ := o
  obtain rfl : w = none := ho
  obtain rfl : t' = some t := ht
  cases t with
  | count b =>
    obtain rfl : k = .percent := by
      cases k
      · exact absurd rfl hkind
      · rfl
    refine not_onlyTightens { threshold := .percent 101 } (2 ^ 32) .stranger none nofun rfl
      (by omega) ?_ (not_vouched_of_percent rfl (by decide) _)
    exact vouched_crowd (show (64 : UInt32) ≠ 0 by decide) rfl (show 0 < (1 : UInt32).toNat by decide) nofun (fun c _ => c.toNat_lt.le) (by omega)
  | percent q =>
    obtain rfl : k = .count := by
      cases k
      · rfl
      · exact absurd rfl hkind
    have hq := percent_le_of_not_vain hvain rfl
    refine not_onlyTightens { threshold := .count 2 } 1 .stranger none ?_ rfl
      (by omega) ?_ (by decide)
    · unfold Enabled
      decide
    · exact vouched_crowd (show (64 : UInt32) ≠ 0 by decide) rfl (show 0 < (1 : UInt32).toNat by decide) (fun q' hq' => by cases hq'; exact hq) nofun (by omega)

theorem not_onlyTightens_of_weight {w : VouchWeighting} {r : Relationship} (ho : o.weighting = some w)
    (hr : w.weightFor r ≠ 0) (hvain : ¬ o.Vain k) : ¬ o.OnlyTightens k := by
  obtain ⟨w', t⟩ := o
  obtain rfl : w' = some w := ho
  have hw : 0 < (w.weightFor r).toNat := Nat.pos_of_ne_zero fun h0 => hr (UInt32.toNat_inj.mp h0)
  obtain ⟨bar, hbar, henabled, hkind, hzero⟩ : ∃ bar : Threshold, bar ≠ .count 0 ∧ bar ≠ .count COUNT_MAX ∧ bar.kind = k ∧
      ∀ q, bar = .percent q → q = 0 := by
    cases k
    · exact ⟨.count 1, by decide, by decide, rfl, nofun⟩
    · exact ⟨.percent 0, by decide, by decide, rfl, fun q h => (Threshold.percent.inj h).symm⟩
  refine not_onlyTightens { weighting := ⟨0, 0, 0⟩, threshold := bar } (2 ^ 32) r none
    henabled hkind (by omega) ?_ (not_vouched_of_void (fun r => by cases r <;> rfl) hbar _)
  refine vouched_crowd (show (64 : UInt32) ≠ 0 by decide) rfl hw (fun q hq => ?_) (fun c _ => c.toNat_lt.le) (by omega)
  cases t with
  | none =>
    rw [hzero q hq]
    decide
  | some t =>
    cases t with
    | count b =>
      obtain ⟨c, hc, -⟩ := bar.override_count b
      cases hc.symm.trans hq
    | percent q' =>
      have hle := percent_le_of_not_vain hvain rfl
      cases bar with
      | count a =>
        have ha : a ≠ COUNT_MAX := fun ha => henabled (ha ▸ rfl)
        obtain rfl : q' = q := Threshold.percent.inj ((if_neg ha).symm.trans hq)
        exact hle
      | percent a =>
        obtain rfl : max a q' = q := Threshold.percent.inj hq
        rw [hzero a rfl, Threshold.toNat_max_u8]
        exact max_le (by decide) hle

theorem not_onlyTightens_of_void {w : VouchWeighting} (ho : o.weighting = some w) (hzero : ∀ r, w.weightFor r = 0)
    (hvain : ¬ o.Vain k) : ¬ o.OnlyTightens k := by
  obtain ⟨w', t⟩ := o
  obtain rfl : w' = some w := ho
  have hbar : t = some (.count 0) ∨ t = none ∧ k = .count := by
    cases t with
    | none =>
      refine .inr ⟨rfl, ?_⟩
      cases k
      · rfl
      · exact absurd (.inr ⟨w, rfl, hzero, rfl⟩) hvain
    | some t =>
      by_contra hne
      exact hvain (.inr ⟨w, rfl, hzero, fun h0 => hne (.inl (congrArg some h0))⟩)
  have hvouched {chat : VouchPolicy} (hthr : (effectivePolicy chat ⟨some w, t⟩).threshold = .count 0) (vs : List VoucherView) :
      ((effectivePolicy chat ⟨some w, t⟩).evaluate vs).vouched = true := by
    rw [vouched_iff, score_eq_zero (p := effectivePolicy chat ⟨some w, t⟩) (.inr fun r _ => hzero r), meetsThreshold, hthr]
    exact ⟨le_refl 0, rfl⟩
  cases k with
  | count =>
    refine not_onlyTightens { threshold := .count 0 } 2 .stranger (some []) (by simp [Enabled, COUNT_MAX]) rfl
      (by omega) (hvouched ?_ _) (by decide)
    rcases hbar with rfl | ⟨rfl, -⟩ <;> rfl
  | percent =>
    refine not_onlyTightens { threshold := .percent 0 } 2 .stranger (some []) (by simp [Enabled, COUNT_MAX]) rfl
      (by omega) (hvouched ?_ _) (by decide)
    rcases hbar with rfl | ⟨-, hk⟩
    · rfl
    · cases hk

theorem OnlyTightens.keepsKind_or_vain (h : o.OnlyTightens k) : o.KeepsKind k ∨ o.Vain k := by
  by_contra hnot
  obtain ⟨hkeeps, hvain⟩ := not_or.mp hnot
  cases hw : o.weighting with
  | none =>
    obtain ⟨t, ht, hkind⟩ : ∃ t, o.threshold = some t ∧ t.kind ≠ k := by
      by_contra hall
      push Not at hall
      exact hkeeps ⟨hw, hall⟩
    exact not_onlyTightens_of_kind hw ht hkind hvain h
  | some w =>
    by_cases hzero : ∀ r, w.weightFor r = 0
    · exact not_onlyTightens_of_void hw hzero hvain h
    · push Not at hzero
      obtain ⟨r, hr⟩ := hzero
      exact not_onlyTightens_of_weight hw hr hvain h

/-- An override only tightens if and only if it keeps the weights and the kind of bar, or lets nobody pass. -/
theorem onlyTightens_iff (o : VouchOverride) (k : Threshold.Kind) : o.OnlyTightens k ↔ o.KeepsKind k ∨ o.Vain k :=
  ⟨OnlyTightens.keepsKind_or_vain, fun h => h.elim KeepsKind.onlyTightens Vain.onlyTightens⟩

/-- A bar of one vouch in place of a share of all: the subject that one of two vouchers still stands for passes. -/
theorem count_over_percent :
    let chat : VouchPolicy := { threshold := .percent 100 }
    let o : VouchOverride := { threshold := some (.count 1) }
    let vs : List VoucherView := crowd 0 1 .stranger none ++ [⟨⟨beBytes 48 1, beBytes_length ..⟩, .stranger, 64, none⟩]
    chat.Enabled ∧ (vs.map (·.voucherFp)).Nodup ∧ ((effectivePolicy chat o).evaluate vs).vouched = true ∧
      (chat.evaluate vs).vouched = false := by
  refine ⟨?_, by decide, by decide, by decide⟩
  unfold Enabled
  decide

end VouchOverride
end Talkrypt.Core
