import Talkrypt.Core.VouchFreshness

/-!
# The gossip clock

A round begins when a member is heard that is not the one heard last, so two members who take turns can begin as
many rounds as they like. The rounds of every stretch of a run are bounded by the number of members heard in it
exactly if no member takes the clock over twice (`Watched.bounded_iff`).
-/

namespace Talkrypt.Core
open TreeKem (Scheme)

/-- The members that take the clock over, when `last` has it and these are heard. -/
def takeovers (last : Option Fingerprint) : List Fingerprint → List Fingerprint
  | [] => []
  | m :: ms => if last = some m then takeovers last ms else m :: takeovers (some m) ms

def holder (last : Option Fingerprint) (ms : List Fingerprint) : Option Fingerprint := ms.foldl (fun _ m => some m) last

section Takeovers
variable {last : Option Fingerprint} {m : Fingerprint} {ms : List Fingerprint}

theorem takeovers_append (last : Option Fingerprint) (xs ys : List Fingerprint) :
    takeovers last (xs ++ ys) = takeovers last xs ++ takeovers (holder last xs) ys := by
  induction xs generalizing last with
  | nil => rfl
  | cons x xs ih =>
    rw [List.cons_append, takeovers, takeovers, ih, ih]
    split
    · next h => rw [h]; rfl
    · rfl

theorem mem_of_mem_takeovers (h : m ∈ takeovers last ms) : m ∈ ms := by
  induction ms generalizing last with
  | nil => cases h
  | cons x ms ih =>
    rw [takeovers] at h
    split at h
    · exact List.mem_cons_of_mem _ (ih h)
    · rcases List.mem_cons.mp h with rfl | h
      · exact List.mem_cons_self
      · exact List.mem_cons_of_mem _ (ih h)

theorem mem_takeovers_of_mem (h : m ∈ ms) : m ∈ takeovers last ms ∨ last = some m := by
  induction ms generalizing last with
  | nil => cases h
  | cons x ms ih =>
    rw [takeovers]
    rcases List.mem_cons.mp h with rfl | h
    · split
      · next hlast => exact .inr hlast
      · exact .inl List.mem_cons_self
    · split
      · exact ih h
      · rcases (ih h : m ∈ takeovers (some x) ms ∨ some x = some m) with h | h
        · exact .inl (List.mem_cons_of_mem _ h)
        · exact .inl (Option.some.inj h ▸ List.mem_cons_self)

theorem exists_of_mem_takeovers (h : m ∈ takeovers last ms) :
    ∃ xs ys, ms = xs ++ m :: ys ∧ holder last xs ≠ some m := by
  induction ms generalizing last with
  | nil => cases h
  | cons x ms ih =>
    rw [takeovers] at h
    split at h
    · next heq =>
      obtain ⟨xs, ys, rfl, hne⟩ := ih h
      exact ⟨x :: xs, ys, rfl, heq ▸ hne⟩
    · next hne =>
      rcases List.mem_cons.mp h with rfl | h
      · exact ⟨[], ms, rfl, hne⟩
      · obtain ⟨xs, ys, rfl, hne⟩ := ih h
        exact ⟨x :: xs, ys, rfl, hne⟩

/-- In every stretch the takeovers are no more than the members heard. -/
def Bounded (last : Option Fingerprint) (ms : List Fingerprint) : Prop :=
  ∀ pre mid post, ms = pre ++ mid ++ post → ∀ T : Finset Fingerprint, (∀ m ∈ mid, m ∈ T) →
    (takeovers (holder last pre) mid).length ≤ T.card

theorem Bounded.tail (h : Bounded last (m :: ms)) : Bounded (some m) ms := by
  rintro pre mid post rfl T hT
  exact h (m :: pre) mid post rfl T hT

theorem Bounded.notMem_takeovers (h : Bounded last (m :: ms)) (hne : last ≠ some m) : m ∉ takeovers (some m) ms := by
  intro hmem
  obtain ⟨xs, ys, rfl, hagain⟩ := exists_of_mem_takeovers hmem
  have hall : takeovers last (m :: xs ++ [m]) = m :: (takeovers (some m) xs ++ [m]) := by
    rw [List.cons_append, takeovers, if_neg hne, takeovers_append, takeovers, if_neg hagain]
    rfl
  have hle := h [] (m :: xs ++ [m]) ys (by simp) (insert m (takeovers (some m) xs).toFinset) fun x hx => by
    simp only [List.cons_append, List.mem_cons, List.mem_append, List.not_mem_nil, or_false] at hx
    rw [Finset.mem_insert, List.mem_toFinset]
    rcases hx with rfl | hx | rfl
    · exact .inl rfl
    · exact (mem_takeovers_of_mem hx).symm.imp (fun heq => (Option.some.inj heq).symm) id
    · exact .inl rfl
  have hcard := (Finset.card_insert_le m (takeovers (some m) xs).toFinset).trans
    (Nat.succ_le_succ (List.toFinset_card_le _))
  rw [show holder last [] = last from rfl, hall, List.length_cons, List.length_append, List.length_singleton] at hle
  omega

theorem bounded_iff_nodup : Bounded last ms ↔ (takeovers last ms).Nodup := by
  constructor
  · intro h
    induction ms generalizing last with
    | nil => exact List.nodup_nil
    | cons m ms ih =>
      rw [takeovers]
      split
      · next heq => exact ih (heq ▸ h.tail)
      · next hne => exact List.nodup_cons.mpr ⟨h.notMem_takeovers hne, ih h.tail⟩
  · rintro h pre mid post rfl T hT
    rw [takeovers_append, takeovers_append] at h
    have hmid := (List.nodup_append.mp (List.nodup_append.mp h).1).2.1
    rw [← List.toFinset_card_of_nodup hmid]
    exact Finset.card_le_card fun m hm => hT m (mem_of_mem_takeovers (List.mem_toFinset.mp hm))

end Takeovers

/-! ## Rounds -/

namespace Watched
variable {S : Scheme} {fingerprint : IdentityPublic → Fingerprint} {context : Gid} {w : Watched}

variable (S fingerprint context) in
/-- How many payloads of a sequence advance the clock. -/
def advances (w : Watched) : List Disclosure → Nat
  | [] => 0
  | d :: ds =>
    let w' := w.step S fingerprint context d
    (if w'.ledger.round = w.ledger.round then 0 else 1) + w'.advances ds

theorem lastRoundAdvancer_witness (l : Ledger) (m : Fingerprint) :
    (l.witnessGossipRound m).lastRoundAdvancer = some m := by
  unfold Ledger.witnessGossipRound
  split
  · rfl
  · next h => exact not_not.mp h

theorem lastRoundAdvancer_step (w : Watched) (d : Disclosure) :
    (w.step S fingerprint context d).ledger.lastRoundAdvancer = some d.senderFp := by
  cases d with
  | vouch senderFp bytes =>
    cases hacc : w.ledger.accepted S fingerprint context bytes with
    | none =>
      simp only [step, hacc, Ledger.onVouch_of_none hacc]
      exact lastRoundAdvancer_witness ..
    | some v =>
      simp only [step, hacc, Ledger.onVouch_of_some hacc]
      exact lastRoundAdvancer_witness ..
  | linkage senderFp bytes now =>
    obtain ⟨groupingsSeen, linkageSeq, h⟩ := w.ledger.handleLinkage_eq S fingerprint context senderFp bytes now
    simp only [step, h]
    exact lastRoundAdvancer_witness ..

theorem round_step_eq_iff (w : Watched) (d : Disclosure) :
    (w.step S fingerprint context d).ledger.round = w.ledger.round ↔ w.ledger.lastRoundAdvancer = some d.senderFp := by
  rw [round_step, Ledger.witnessGossipRound]
  split
  · next hne =>
    refine iff_of_false (fun heq => ?_) hne
    dsimp only at heq
    omega
  · next heq => exact iff_of_true rfl (not_not.mp heq)

theorem advances_eq (w : Watched) (ds : List Disclosure) :
    w.advances S fingerprint context ds = (takeovers w.ledger.lastRoundAdvancer (ds.map (·.senderFp))).length := by
  induction ds generalizing w with
  | nil => rfl
  | cons d ds ih =>
    rw [advances, ih, lastRoundAdvancer_step, List.map_cons, takeovers]
    simp only [round_step_eq_iff]
    split
    · next heq => rw [heq, Nat.zero_add]
    · rw [List.length_cons, Nat.add_comm]

theorem lastRoundAdvancer_foldl (w : Watched) (ds : List Disclosure) :
    (ds.foldl (step S fingerprint context) w).ledger.lastRoundAdvancer =
      holder w.ledger.lastRoundAdvancer (ds.map (·.senderFp)) := by
  induction ds generalizing w with
  | nil => rfl
  | cons d ds ih =>
    rw [List.foldl_cons, ih, lastRoundAdvancer_step]
    rfl

variable (S fingerprint context) in
theorem clock_step {voucherFp : Fingerprint} {R : Nat} (hR : w.ledger.voucherRound.lookup voucherFp = some R)
    (hle : R ≤ w.ledger.round) (hlt : w.ledger.round + 1 < 2 ^ 64) (d : Disclosure) :
    let w' := w.step S fingerprint context d
    w'.ledger.round = w.ledger.round + (if w'.ledger.round = w.ledger.round then 0 else 1) ∧
      ∃ R', w'.ledger.voucherRound.lookup voucherFp = some R' ∧ R ≤ R' ∧ R' ≤ w'.ledger.round := by
  have hround : (w.step S fingerprint context d).ledger.round = _ := round_step w d
  obtain ⟨hup, hle'⟩ := Ledger.round_witnessGossipRound le_rfl hlt d.senderFp
  rw [← hround] at hup hle'
  refine ⟨by split <;> omega, ?_⟩
  cases hnews : w.news S fingerprint context d with
  | none => exact ⟨R, by rw [(step_of_none hnews).2.2, hR], le_rfl, hle.trans hup⟩
  | some v =>
    rw [(step_of_some hnews).2.2, Table.lookup_insert_eq]
    split
    · exact ⟨_, rfl, by rw [← hround]; omega, hround.symm.le⟩
    · exact ⟨R, hR, le_rfl, hle.trans hup⟩

theorem clock_foldl {ds : List Disclosure} {voucherFp : Fingerprint} {R : Nat}
    (hR : w.ledger.voucherRound.lookup voucherFp = some R) (hle : R ≤ w.ledger.round)
    (hlt : w.ledger.round + w.advances S fingerprint context ds < 2 ^ 32) :
    let w' := ds.foldl (step S fingerprint context) w
    w'.ledger.round = w.ledger.round + w.advances S fingerprint context ds ∧
      ∃ R', w'.ledger.voucherRound.lookup voucherFp = some R' ∧ R ≤ R' ∧ R' ≤ w'.ledger.round := by
  induction ds generalizing w R with
  | nil => exact ⟨rfl, R, hR, le_rfl, hle⟩
  | cons d ds ih =>
    rw [advances] at hlt ⊢
    obtain ⟨hround, R', hR', hRR', hle'⟩ := clock_step S fingerprint context hR hle (by omega) d
    obtain ⟨hround', R'', hR'', hmore, hle''⟩ := ih hR' hle' (by omega)
    exact ⟨by rw [List.foldl_cons, hround']; omega, R'', hR'', hRR'.trans hmore, hle''⟩

theorem age_le {ds : List Disclosure} {voucherFp : Fingerprint} {R : Nat}
    (hR : w.ledger.voucherRound.lookup voucherFp = some R) (hle : R ≤ w.ledger.round)
    (hlt : w.ledger.round + w.advances S fingerprint context ds < 2 ^ 32) :
    ((ds.foldl (step S fingerprint context) w).ledger.age voucherFp).toNat ≤
      (w.ledger.age voucherFp).toNat + w.advances S fingerprint context ds := by
  obtain ⟨hround, R', hR', hRR', hle'⟩ := clock_foldl hR hle hlt
  rw [Ledger.age, Ledger.age, hR, hR', hround, Option.getD_some, Option.getD_some,
    UInt32.toNat_ofNat_of_lt' (show _ < 2 ^ 32 by omega), UInt32.toNat_ofNat_of_lt' (show _ < 2 ^ 32 by omega)]
  omega

/-- In every stretch of a sequence of payloads the clock advances at most once for each member heard, exactly if no
member takes it over twice. Then the vouches of others age by no more rounds than there are members heard. -/
theorem bounded_iff (S : Scheme) (fingerprint : IdentityPublic → Fingerprint) (context : Gid) (w : Watched)
    (ds : List Disclosure) :
    ((∀ pre mid post, ds = pre ++ mid ++ post → ∀ T : Finset Fingerprint, (∀ d ∈ mid, d.senderFp ∈ T) →
        (pre.foldl (step S fingerprint context) w).advances S fingerprint context mid ≤ T.card) ↔
      (takeovers w.ledger.lastRoundAdvancer (ds.map (·.senderFp))).Nodup) ∧
    ((takeovers w.ledger.lastRoundAdvancer (ds.map (·.senderFp))).Nodup →
      ∀ T : Finset Fingerprint, (∀ d ∈ ds, d.senderFp ∈ T) → ∀ voucherFp R,
      w.ledger.voucherRound.lookup voucherFp = some R → R ≤ w.ledger.round → w.ledger.round + T.card < 2 ^ 32 →
        ((ds.foldl (step S fingerprint context) w).ledger.age voucherFp).toNat ≤
          (w.ledger.age voucherFp).toNat + T.card) := by
  have hiff : (∀ pre mid post, ds = pre ++ mid ++ post → ∀ T : Finset Fingerprint, (∀ d ∈ mid, d.senderFp ∈ T) →
      (pre.foldl (step S fingerprint context) w).advances S fingerprint context mid ≤ T.card) ↔
      Bounded w.ledger.lastRoundAdvancer (ds.map (·.senderFp)) := by
    simp only [advances_eq, lastRoundAdvancer_foldl]
    constructor
    · intro h pre mid post hsplit T hT
      obtain ⟨front, post', rfl, hfront, rfl⟩ := List.map_eq_append_iff.mp hsplit
      obtain ⟨pre', mid', rfl, rfl, rfl⟩ := List.map_eq_append_iff.mp hfront
      exact h pre' mid' post' rfl T fun d hd => hT _ (List.mem_map_of_mem hd)
    · rintro h pre mid post rfl T hT
      refine h (pre.map (·.senderFp)) (mid.map (·.senderFp)) (post.map (·.senderFp)) (by simp) T fun m hm => ?_
      obtain ⟨d, hd, rfl⟩ := List.mem_map.mp hm
      exact hT d hd
  refine ⟨hiff.trans bounded_iff_nodup, fun hnodup T hT voucherFp R hR hle hlt => ?_⟩
  have hadv : w.advances S fingerprint context ds ≤ T.card :=
    (hiff.mpr (bounded_iff_nodup.mpr hnodup)) [] ds [] (by simp) T hT
  exact (age_le hR hle (by omega)).trans (Nat.add_le_add_left hadv _)

/-- Two members who take turns with payloads that hold nothing. -/
def turns (n : Nat) : List Disclosure := (List.replicate n [.linkage hostFp [] 0, .linkage peerFp [] 0]).flatten

/-- A third member's vouch counts in full, and for nothing after two others have taken 32 turns each. -/
theorem two_members_turn_the_clock :
    let run := List.foldl (step Scheme.plain Env.plain.fingerprint (padArr 32 [])) {}
    let viewer : Viewer := ⟨{}, {}, []⟩
    let subject : Fingerprint := padArr 48 [8]
    ((run [.vouch (padArr 48 [3]) (sampleVouch 8)]).ledger.computeVouchDecision viewer subject).weightedScore = 1 ∧
      (run [.vouch (padArr 48 [3]) (sampleVouch 8)]).advances Scheme.plain Env.plain.fingerprint (padArr 32 []) (turns 32) = 64 ∧
      ((run (.vouch (padArr 48 [3]) (sampleVouch 8) :: turns 32)).ledger.computeVouchDecision viewer subject).weightedScore = 0 := by
  decide +kernel

end Watched
end Talkrypt.Core
