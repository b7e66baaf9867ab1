import Talkrypt.Core.Node

/-!
# Consent to a promotion

The host's own answers, kept beside its state, and what executing `commit_promotion` does. The code
applies and announces the proposal whose tally decides, and evicts nobody that it picks and that accepted
(`Honoured`). It does not look at the host's own answer: a `Promote` frame of any member fills the slot,
and the consents of members then decide it (`member_promotes`). With an answer of the host in the slot at
each decision, every commit has the host's consent (`commits_with_consent`).
-/

namespace Talkrypt.Core
open TreeKem

variable {S : Scheme}

namespace Inner

/-! ## What a commit does -/

def announcements (i : Inner S) : List Bytes :=
  i.sent.filterMap fun e => match e.1 with
    | .promoteCommit payload => some payload
    | _ => none

theorem announcements_broadcastRoster (i : Inner S) : i.broadcastRoster.announcements = i.announcements := by
  unfold broadcastRoster
  split
  · rfl
  · next frame hframe =>
    simp only [signedRosterFrame, Option.bind_eq_bind, Option.bind_eq_some_iff, Option.pure_def,
      Option.some.injEq] at hframe
    obtain ⟨g, -, sig, -, rfl⟩ := hframe
    simp [announcements, route]

theorem announcements_removeMember (i : Inner S) (r : RekeyCoins S) (hint : Nat) (fp : Fingerprint) :
    (i.removeMember r hint fp).announcements = i.announcements := by
  unfold removeMember
  split
  · rfl
  split
  · rfl
  split
  · rfl
  split
  · rfl
  · rw [announcements_broadcastRoster]
    simp [announcements, route]

theorem announcements_selfUpdate (i : Inner S) (r : RekeyCoins S) (newSig : S.SigSeed) :
    (i.selfUpdate r newSig).announcements = i.announcements := by
  unfold selfUpdate
  split
  · rfl
  · rfl
  all_goals
    split
    · rfl
    · simp [announcements, route]

theorem announcements_evict (i : Inner S) (d : Draws S) (n : Nat) (fps : List Fingerprint) :
    (i.evict d n fps).announcements = i.announcements := by
  induction fps generalizing i n with
  | nil => rfl
  | cons fp fps ih => rw [evict, ih, announcements_removeMember]

theorem announcements_announce (i : Inner S) (promoteId : Gid) :
    ∃ new, (i.announce promoteId).announcements = i.announcements ++ new ∧
      ∀ payload ∈ new, ∃ leaf sig, payload = wrapSigned promoteId.1 leaf sig := by
  unfold announce
  split
  · exact ⟨[], (List.append_nil _).symm, List.forall_mem_nil _⟩
  · next g hg =>
    split
    · exact ⟨[], (List.append_nil _).symm, List.forall_mem_nil _⟩
    · next sig hsig =>
      refine ⟨[wrapSigned promoteId.1 g.me sig], by simp [announcements, route], ?_⟩
      simp only [List.mem_singleton, forall_eq]
      exact ⟨g.me, sig, rfl⟩

theorem roster_removeMember (i : Inner S) (r : RekeyCoins S) (hint : Nat) {fp fp' : Fingerprint} {leaf : Nat}
    (h : i.roster.lookup leaf = some fp') (hne : fp' ≠ fp) :
    (i.removeMember r hint fp).roster.lookup leaf = some fp' := by
  by_cases hrole : i.role = .host
  · rcases removeMember_cases hrole r hint fp with
      ⟨heq, -⟩ | ⟨_, leaf', -, hleaf', ⟨_, _, -, heq⟩ | ⟨_, _, _, -, heq⟩⟩
    · rwa [heq]
    · rwa [heq]
    · rw [heq]
      have hleaf : leaf ≠ leaf' := by
        rintro rfl
        exact hne (Option.some.inj (h.symm.trans hleaf'))
      exact (AList.lookup_erase_ne hleaf).trans h
  · rwa [removeMember, if_pos hrole]

theorem roster_evict (i : Inner S) (d : Draws S) (n : Nat) {fps : List Fingerprint} {fp : Fingerprint}
    {leaf : Nat} (h : i.roster.lookup leaf = some fp) (hfp : fp ∉ fps) :
    (i.evict d n fps).roster.lookup leaf = some fp := by
  induction fps generalizing i n with
  | nil => exact h
  | cons fp' fps ih =>
    rw [List.mem_cons, not_or] at hfp
    exact ih _ _ (roster_removeMember i _ _ h hfp.1) hfp.2

theorem roster_selfUpdate (i : Inner S) (r : RekeyCoins S) (newSig : S.SigSeed) :
    (i.selfUpdate r newSig).roster = i.roster := by
  unfold selfUpdate
  split
  · rfl
  · rfl
  all_goals split <;> rfl

theorem roster_announce (i : Inner S) (promoteId : Gid) : (i.announce promoteId).roster = i.roster := by
  unfold announce
  split
  · rfl
  · split <;> rfl

/-- The persistence flag, the backlog and the sealed history. -/
def retained (i : Inner S) : Bool × List BacklogEntry × Table Gid Bytes := (i.persistent, i.backlog, i.history)

theorem retained_commitPromotion (i : Inner S) (d : Draws S) (promoteId : Gid) (carried : List Fingerprint) :
    (i.commitPromotion d promoteId carried).retained =
      (true, [], (i.applyRetention i.retentionContract.1 i.retentionContract.2).history) := by
  have hkept {i i' : Inner S} (h : Regroups i i') : (i'.backlog, i'.history) = (i.backlog, i.history) :=
    (congrArg (fun i : Inner S => (i.backlog, i.history)) h :)
  unfold Inner.commitPromotion
  generalize i.retentionContract = contract
  dsimp only
  generalize hi₁ : (i.announce promoteId).applyRetention contract.1 contract.2 = i₁
  have hrekeyed := (hkept (.selfUpdate (i₁.evict d 0 (i₁.toRemove carried)) (d.coins (i₁.toRemove carried).length)
    d.newSig)).trans (hkept (.evict ..))
  refine congrArg (Prod.mk true) (hrekeyed.trans ?_)
  have hannounced := hkept (.announce i promoteId)
  simp only [Prod.mk.injEq] at hannounced
  simp only [← hi₁, applyRetention, hannounced]

section Commit
variable (sha256 : Bytes → Gid)

/-- A commit of the proposal `st`: the announced id and the retention are its own, and whoever loses a
roster entry was not picked or has not accepted. -/
structure Honoured (i i' : Inner S) (st : PromoteState) : Prop where
  announced : ∃ new, i'.announcements = i.announcements ++ new ∧
    ∀ payload ∈ new, ∃ leaf sig, payload = wrapSigned (st.body.id sha256).1 leaf sig
  reported : ∃ events, i'.events = events ++ [.promoted (st.body.id sha256)]
  retained : i'.history = (i.applyRetention st.body.retentionMode st.body.carryFromSecs).history
  evicted : ∀ leaf fp, i.roster.lookup leaf = some fp → i'.roster.lookup leaf ≠ some fp →
    fp ∉ st.body.picked ∨ ¬ st.Accepted i.roster fp

theorem Honoured.commitPromotion {i : Inner S} {st : PromoteState} (hst : i.promote = some st)
    (d : Draws S) (carried : List Fingerprint)
    (hcarried : ∀ fp ∈ st.body.picked, st.Accepted i.roster fp → fp ≠ i.me → fp ∈ carried) :
    Honoured sha256 i (i.commitPromotion d (st.body.id sha256) carried) st := by
  have hcontract : i.retentionContract = (st.body.retentionMode, st.body.carryFromSecs) := by
    rw [retentionContract, hst]
  have hretained := congrArg (·.2.2) (retained_commitPromotion i d (st.body.id sha256) carried)
  rw [hcontract] at hretained
  simp only [Inner.commitPromotion, hcontract] at hretained ⊢
  generalize hi₁ : (i.announce (st.body.id sha256)).applyRetention st.body.retentionMode
    st.body.carryFromSecs = i₁ at hretained ⊢
  have hannounced : i₁.announcements = (i.announce (st.body.id sha256)).announcements := by
    rw [← hi₁]
    rfl
  have hroster : i₁.roster = i.roster := by rw [← hi₁]; exact roster_announce i _
  have hme : i₁.me = i.me := by rw [← hi₁]; exact (congrArg Inner.me (Regroups.announce i (st.body.id sha256)) :)
  refine ⟨?_, ⟨_, rfl⟩, hretained, fun leaf fp hleaf hlost => ?_⟩
  · obtain ⟨new, hnew, hall⟩ := announcements_announce i (st.body.id sha256)
    have hrekeyed := (announcements_selfUpdate (i₁.evict d 0 (i₁.toRemove carried))
      (d.coins (i₁.toRemove carried).length) d.newSig).trans (announcements_evict ..)
    exact ⟨new, hrekeyed.trans (hannounced.trans hnew), hall⟩
  · by_contra hkept
    rw [not_or, not_not, not_not] at hkept
    have hstays : fp ∉ i₁.toRemove carried := by
      intro hmem
      rw [toRemove, List.mem_filter, decide_eq_true_eq, hme] at hmem
      exact hmem.2.2 (hcarried fp hkept.1 hkept.2 hmem.2.1)
    have hlookup := roster_evict i₁ d 0 (by rwa [hroster]) hstays
    rw [← roster_selfUpdate _ (d.coins (i₁.toRemove carried).length) d.newSig] at hlookup
    exact hlost hlookup

end Commit
end Inner

/-! ## The host's answers -/

/-- A node and the answers that it gave: for each proposal, by its id, the last one. Proposing is an
acceptance. -/
structure Answering (S : Scheme) where
  node : Inner S
  answers : Gid → Option Bool

namespace Answering
variable (E : Env S)

/-- The answer that a call gives, if it does not fail. -/
def given (i : Inner S) : Input S → Option (Gid × Bool)
  | .proposePromote tier mode rule picked onion carryFrom =>
    (i.draftPromote tier mode rule picked onion carryFrom.toNat).map fun p => (p.1.id E.sha256, true)
  | .respondPromote promoteId accept => (i.draftConsent promoteId accept).map fun _ => (promoteId, accept)
  | _ => none

def step (w : Answering S) (c : Call S) : Answering S where
  node := E.step w.node c
  answers := match given E w.node c.input with
    | none => w.answers
    | some (promoteId, accept) => Function.update w.answers promoteId (some accept)

/-- The tally with which a call makes the host execute `commit_promotion`. -/
def deciding (i : Inner S) : Input S → Option PromoteState
  | .frame _ (.consent payload) => do
    let cb ← i.checkConsent payload
    let st ← i.tallied E.sha256 cb
    match promotionDecision st i.roster i.me with
    | .commit _ => if i.role = .host then some st else none
    | _ => none
  | .proposePromote tier mode rule picked onion carryFrom => do
    let (body, _) ← i.draftPromote tier mode rule picked onion carryFrom.toNat
    if rule = 2 then some { body, consents := ∅, myResponse := some true } else none
  | _ => none

/-- What a call can do to the slot of the pending promotion. -/
inductive Slot (i : Inner S) : Input S → Option PromoteState → Prop
  | keep {input : Input S} (hgiven : given E i input = none) : Slot i input i.promote
  | clear {input : Input S} : Slot i input none
  | adopt {input : Input S} (hgiven : given E i input = none) (body : PromoteBody) :
    Slot i input (some { body, consents := ∅, myResponse := none })
  | opened {tier mode rule : UInt8} {picked : List Fingerprint} {onion : String} {carryFrom : UInt64}
    {body : PromoteBody} {payload : Bytes}
    (hdraft : i.draftPromote tier mode rule picked onion carryFrom.toNat = some (body, payload)) :
    Slot i (.proposePromote tier mode rule picked onion carryFrom)
      (some { body, consents := ∅, myResponse := some true })
  | answer {promoteId : Gid} {accept : Bool} {payload : Bytes}
    (hdraft : i.draftConsent promoteId accept = some payload) :
    Slot i (.respondPromote promoteId accept) (i.promote.map (PromoteState.answer E.sha256 promoteId accept))
  | record {input : Input S} (hgiven : given E i input = none) {st : PromoteState} {cb : ConsentBody}
    (hst : i.promote = some st) : Slot i input (some (st.record cb))

theorem tallied_eq_some {i : Inner S} {cb : ConsentBody} {st : PromoteState}
    (h : i.tallied E.sha256 cb = some st) :
    ∃ st₀, i.promote = some st₀ ∧ st = st₀.record cb := by
  simp only [Inner.tallied, Option.bind_eq_bind, Option.bind_eq_some_iff] at h
  obtain ⟨st₀, hst₀, h⟩ := h
  split at h
  · exact ⟨st₀, hst₀, (Option.some.inj h).symm⟩
  · cases h

theorem handleConsent_slot (i : Inner S) (d : Draws S) (peer : Fingerprint) (payload : Bytes) :
    Slot E i (.frame peer (.consent payload)) (i.handleConsent E.sha256 d payload).promote := by
  unfold Inner.handleConsent
  split
  · exact .keep rfl
  · next cb _ =>
    split
    · exact .keep rfl
    · next st hst =>
      obtain ⟨st₀, hst₀, rfl⟩ := tallied_eq_some E hst
      dsimp only
      split
      · exact .clear
      · exact .clear
      · exact .record rfl hst₀

theorem handlePromoteCommit_slot (i : Inner S) (peer : Fingerprint) (payload : Bytes) :
    Slot E i (.frame peer (.promoteCommit payload)) (i.handlePromoteCommit E.sha256 payload).promote := by
  unfold Inner.handlePromoteCommit
  split
  · exact .keep rfl
  · split <;> exact .clear

theorem step_slot (i : Inner S) (c : Call S) : Slot E i c.input (E.step i c).promote := by
  by_cases hinput : c.input.isPromotion = true
  · obtain ⟨input, d, now⟩ := c
    have handled {input : Input S} {p : Prop} [Decidable p] {i' : Inner S} (hgiven : given E i input = none)
        (h : Slot E i input i'.promote) : Slot E i input (if p then i' else i).promote := by
      split
      · exact h
      · exact .keep hgiven
    cases input with
    | frame peer f =>
      cases f with
      | promote payload =>
        refine handled rfl ?_
        unfold Inner.handlePromote
        split
        · exact .keep rfl
        · exact .adopt rfl _
      | consent payload => exact handled rfl (handleConsent_slot E i d peer payload)
      | promoteCommit payload => exact handled rfl (handlePromoteCommit_slot E i peer payload)
      | _ => cases hinput
    | proposePromote tier mode rule picked onion carryFrom =>
      simp only [Env.step, Inner.proposePromote]
      split
      · next hdraft => exact .keep (by simp only [given, hdraft]; rfl)
      · next hdraft =>
        split
        · exact .clear
        · exact .opened hdraft
    | respondPromote promoteId accept =>
      simp only [Env.step, Inner.respondPromote]
      split
      · next hdraft => exact .keep (by simp only [given, hdraft]; rfl)
      · next hdraft => exact .answer hdraft
    | setPersistence on => cases on <;> exact .keep rfl
    | purgeHistory => exact .keep rfl
    | _ => cases hinput
  · have hkept : (E.step i c).promote = i.promote := by
      have h := E.step_effect i c
      generalize E.step i c = i' at h
      generalize c.input = input at h hinput
      cases h with
      | regroups h | posts h | heard _ h => exact (congrArg Inner.promote h :)
      | manages h => exact absurd h hinput
      | _ => rfl
    rw [hkept]
    refine .keep ?_
    generalize c.input = input at hinput
    cases input with
    | proposePromote | respondPromote => exact absurd rfl hinput
    | _ => rfl

/-! ## Consent -/

/-- Every promotion that the call commits has the node's own consent, and is carried out as proposed. -/
def Consented (w : Answering S) (c : Call S) : Prop :=
  ∀ st, deciding E w.node c.input = some st →
    (w.step E c).answers (st.body.id E.sha256) = some true ∧
      Inner.Honoured E.sha256 w.node (w.step E c).node st

/-- A consent that decides finds the node's own acceptance in the slot. -/
def Answered (w : Answering S) (c : Call S) : Prop :=
  ∀ st, deciding E w.node c.input = some st → st.myResponse = some true

/-- The answer in the slot is the last one that the node gave. -/
def Faithful (w : Answering S) : Prop :=
  ∀ st accept, w.node.promote = some st → st.myResponse = some accept →
    w.answers (st.body.id E.sha256) = some accept

variable {E}

variable {w : Answering S} {c : Call S}

theorem answers_step_of_none (h : given E w.node c.input = none) : (w.step E c).answers = w.answers := by
  rw [step]
  simp only [h]

theorem answers_step_of_some {promoteId : Gid} {accept : Bool}
    (h : given E w.node c.input = some (promoteId, accept)) :
    (w.step E c).answers = Function.update w.answers promoteId (some accept) := by
  rw [step]
  simp only [h]

theorem Faithful.step (h : w.Faithful E) (c : Call S) : (w.step E c).Faithful E := by
  intro st accept hst hresp
  have hslot : Slot E w.node c.input (w.step E c).node.promote := step_slot E w.node c
  rw [hst] at hslot
  generalize hsome : some st = slot at hslot
  generalize hinput : c.input = input at hslot
  cases hslot with
  | keep hgiven =>
    rw [answers_step_of_none (hinput ▸ hgiven)]
    exact h st accept hsome.symm hresp
  | clear => cases hsome
  | adopt hgiven body =>
    cases hsome
    cases hresp
  | @opened _ _ _ _ _ _ body _ hdraft =>
    cases hsome
    cases hresp
    have hgiven : given E w.node c.input = some (body.id E.sha256, true) := by
      rw [hinput, given, hdraft]
      rfl
    rw [answers_step_of_some hgiven, Function.update_self]
  | @answer promoteId accept' payload hdraft =>
    have hgiven : given E w.node c.input = some (promoteId, accept') := by
      rw [hinput, given, hdraft]
      rfl
    rw [answers_step_of_some hgiven]
    obtain ⟨st₀, hst₀, rfl⟩ := Option.map_eq_some_iff.mp hsome.symm
    unfold PromoteState.answer at hresp ⊢
    split at hresp
    · next hid =>
      cases hresp
      rw [if_pos hid]
      exact (congrArg _ hid).trans (Function.update_self ..)
    · next hid =>
      rw [if_neg hid, Function.update_of_ne hid]
      exact h st₀ accept hst₀ hresp
  | @record _ hgiven st₀ _ hst₀ =>
    cases hsome
    rw [answers_step_of_none (hinput ▸ hgiven)]
    exact h st₀ accept hst₀ hresp

theorem deciding_consent {i : Inner S} {peer : Fingerprint} {payload : Bytes} {st : PromoteState}
    (h : deciding E i (.frame peer (.consent payload)) = some st) :
    ∃ cb carried, i.checkConsent payload = some cb ∧ i.tallied E.sha256 cb = some st ∧
      promotionDecision st i.roster i.me = .commit carried ∧ i.role = .host := by
  simp only [deciding, Option.bind_eq_bind, Option.bind_eq_some_iff] at h
  obtain ⟨cb, hcb, st', hst', h⟩ := h
  split at h
  · next carried hdecision =>
    split at h
    · next hrole =>
      cases h
      exact ⟨cb, carried, hcb, hst', hdecision, hrole⟩
    · cases h
  · cases h

theorem Consented.consent (hw : w.Faithful E) {peer : Fingerprint} {payload : Bytes} {d : Draws S} {now : UInt64}
    (hans : w.Answered E ⟨.frame peer (.consent payload), d, now⟩) :
    w.Consented E ⟨.frame peer (.consent payload), d, now⟩ := by
  intro st hst
  obtain ⟨cb, carried, hcb, htally, hdecision, hrole⟩ := deciding_consent hst
  obtain ⟨st₀, hst₀, rfl⟩ := tallied_eq_some E htally
  have hyes : st₀.myResponse = some true := hans (st₀.record cb) hst
  refine ⟨(congrFun (answers_step_of_none rfl) _).trans (hw st₀ true hst₀ hyes), ?_⟩
  have hstep : E.step w.node ⟨.frame peer (.consent payload), d, now⟩ =
      { w.node with promote := some (st₀.record cb) }.commitPromotion d ((st₀.record cb).body.id E.sha256)
        carried := by
    simp only [Env.step, Env.receive, if_pos hrole, Inner.handleConsent, hcb, htally, hdecision]
  rw [step, hstep]
  have hcommit := Inner.Honoured.commitPromotion E.sha256
    (i := { w.node with promote := some (st₀.record cb) }) rfl d carried
    (fun fp hpicked haccepted hme => mem_carried_of_accepted hdecision hpicked haccepted hme)
  exact ⟨hcommit.announced, hcommit.reported, hcommit.retained, hcommit.evicted⟩

theorem Consented.mandate (w : Answering S) (tier mode rule : UInt8) (picked : List Fingerprint)
    (onion : String) (carryFrom : UInt64) (d : Draws S) (now : UInt64) :
    w.Consented E ⟨.proposePromote tier mode rule picked onion carryFrom, d, now⟩ := by
  intro st hst
  simp only [deciding, Option.bind_eq_bind, Option.bind_eq_some_iff] at hst
  obtain ⟨⟨body, payload⟩, hdraft, hst⟩ := hst
  split at hst
  · next hrule =>
    cases hst
    have hgiven : given E w.node (.proposePromote tier mode rule picked onion carryFrom) =
        some (body.id E.sha256, true) := by
      rw [given, hdraft]
      rfl
    refine ⟨by rw [answers_step_of_some hgiven, Function.update_self], ?_⟩
    have hstep : E.step w.node ⟨.proposePromote tier mode rule picked onion carryFrom, d, now⟩ =
        (w.node.openPromote body payload).commitPromotion d (body.id E.sha256)
          (mandateCarried picked w.node.roster w.node.me) := by
      simp only [Env.step, Inner.proposePromote, hdraft, if_pos hrule]
      rfl
    rw [step, hstep]
    have hcommit := Inner.Honoured.commitPromotion E.sha256
      (i := w.node.openPromote body payload) rfl d (mandateCarried picked w.node.roster w.node.me)
      fun fp _ haccepted _ => by
        obtain ⟨leaf, -, hyes⟩ := haccepted
        simp at hyes
    obtain ⟨new, hnew, hall⟩ := hcommit.announced
    refine ⟨⟨new, hnew.trans ?_, hall⟩, hcommit.reported, hcommit.retained, hcommit.evicted⟩
    simp [Inner.announcements, Inner.openPromote, Inner.route]
  · cases hst

theorem Consented.of_answered (hw : w.Faithful E) (hans : w.Answered E c) : w.Consented E c := by
  obtain ⟨input, d, now⟩ := c
  cases input with
  | frame peer f =>
    cases f with
    | consent payload => exact .consent hw hans
    | _ => exact fun st hst => nomatch hst
  | proposePromote => exact .mandate w _ _ _ _ _ _ d now
  | _ => exact fun st hst => nomatch hst

/-- Whatever the node commits it has proposed or accepted, in every run in which each deciding consent
finds the node's own acceptance in the slot. -/
theorem commits_with_consent {i : Inner S} (hi : i.promote = none) {calls : List (Call S)}
    (h : Run.Along (step E) (Answered E) ⟨i, fun _ => none⟩ calls) :
    Run.Along (step E) (Consented E) ⟨i, fun _ => none⟩ calls := by
  have hstart : Faithful E ⟨i, fun _ => none⟩ := fun st accept hst => nomatch hi.symm.trans hst
  exact h.of_invariant (fun w c hw _ => hw.step c) (fun w c hw hans => .of_answered hw hans) hstart

/-! ## A group of two -/

/-- A proposal that picks nobody, in the epoch after the peer's join. -/
def emptyBody : PromoteBody where
  targetTier := 1
  retentionMode := 1
  consentRule := 0
  picked := []
  onion := ""
  carryFromSecs := 0
  epoch := 1

/-- The peer's proposal and its consent, both signed with the key of leaf 1. -/
def peerPromote : Call Scheme.plain :=
  plainCall (.frame peerFp (.promote (wrapSigned emptyBody.encode 1 [101]))) 12

def consentBytes (promoteId : Gid) : Bytes :=
  ConsentBody.encode { promoteId, accept := true, leaf := 1, epoch := 1 }

def peerConsent : Call Scheme.plain :=
  plainCall (.frame peerFp (.consent (wrapSigned (consentBytes (emptyBody.id Env.plain.sha256)) 1 [101]))) 13

def plainStart : Answering Scheme.plain := ⟨plainHost, fun _ => none⟩

def proposedTo : Answering Scheme.plain := [joinCall, peerPromote].foldl (step Env.plain) plainStart

/-- **The host commits what it never agreed to**: a member proposes and consents, and the host evicts that
member, announces the promotion and turns persistence on. -/
theorem member_promotes :
    (deciding Env.plain proposedTo.node peerConsent.input).map (·.body) = some emptyBody ∧
    (proposedTo.step Env.plain peerConsent).answers (emptyBody.id Env.plain.sha256) = none ∧
    (proposedTo.step Env.plain peerConsent).node.persistent = true ∧
    ¬ Run.Along (step Env.plain) (Consented Env.plain) plainStart [joinCall, peerPromote, peerConsent] := by
  have hdeciding : (deciding Env.plain proposedTo.node peerConsent.input).map (·.body) = some emptyBody := by
    decide
  have hanswer : (proposedTo.step Env.plain peerConsent).answers (emptyBody.id Env.plain.sha256) = none := by
    decide
  refine ⟨hdeciding, hanswer, by decide, fun h => ?_⟩
  obtain ⟨st, hst, hbody⟩ := Option.map_eq_some_iff.mp hdeciding
  have hyes := (h.2.2.1 st hst).1
  rw [hbody] at hyes
  exact nomatch hyes.symm.trans hanswer

/-- The host proposes to carry the peer over, and the peer consents. -/
def hostPropose : Call Scheme.plain := plainCall (.proposePromote 1 1 0 [peerFp] "" 0) 12

def pickedConsent : Call Scheme.plain :=
  plainCall (.frame peerFp (.consent (wrapSigned
    (consentBytes (PromoteBody.id Env.plain.sha256 { emptyBody with picked := [peerFp] })) 1 [101]))) 13

theorem commits_with_consent_picked :
    (deciding Env.plain ([joinCall, hostPropose].foldl (step Env.plain) plainStart).node
      pickedConsent.input).isSome = true ∧
    Run.Along (step Env.plain) (Consented Env.plain) plainStart [joinCall, hostPropose, pickedConsent] := by
  have hanswered {w : Answering Scheme.plain} {c : Call Scheme.plain}
      (h : (deciding Env.plain w.node c.input).all (fun st => st.myResponse = some true) = true) :
      w.Answered Env.plain c := fun st hst => by simpa [hst] using h
  refine ⟨by decide, commits_with_consent rfl ⟨hanswered ?_, hanswered ?_, hanswered ?_, trivial⟩⟩
  · decide
  · decide
  · decide

end Answering
end Talkrypt.Core
