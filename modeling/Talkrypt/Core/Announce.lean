import Talkrypt.Core.Consent

/-!
# Announcing a promotion

A member applies a promotion when it is announced. The announcement carries the leaf that it verifies
under, and `handle_promote_commit` accepts any leaf of the group, also one that is not the host's; whatever
verifies clears the pending proposal. So the host alone finalizes promotions exactly if no announcement of
another leaf finds a pending proposal (`only_host_iff`). Announcements that claim the host's leaf do not
have that problem (`Rightful.of_host`).
-/

namespace Talkrypt.Core
open TreeKem

variable {S : Scheme}

namespace Inner
variable (Signed : IdentityPublic → Bytes → Prop) (sha256 : Bytes → Gid)

/-- The holder of the host's key, as this node's tree has it, signed the announcement of `promoteId` in
the node's epoch. -/
def HostSigned (i : Inner S) (promoteId : Gid) : Prop :=
  ∃ g pk, i.group = some g ∧ g.leafSigKeys.lookup HOST_LEAF = some pk ∧
    Signed pk (promoCommitTranscript g.epoch HOST_LEAF promoteId.1)

/-- The host finalizes: a frame seals the backlog or turns persistence on only for an id that the host
signed, and a frame for an id that the host did not sign leaves the pending proposal. -/
structure HostFinalizes (i : Inner S) (payload : Bytes) : Prop where
  applies : (i.handlePromoteCommit sha256 payload).history ≠ i.history ∨
      (i.handlePromoteCommit sha256 payload).backlog ≠ i.backlog ∨
      (i.handlePromoteCommit sha256 payload).persistent ≠ i.persistent →
    ∃ promoteId, i.checkPromoteCommit payload = some promoteId ∧ i.HostSigned Signed promoteId
  pending : (∀ promoteId, i.checkPromoteCommit payload = some promoteId → ¬ i.HostSigned Signed promoteId) →
    (i.handlePromoteCommit sha256 payload).promote = i.promote

/-- An announcement that verifies comes from the host, or finds nothing pending. -/
def Rightful (i : Inner S) (payload : Bytes) : Prop :=
  ∀ promoteId, i.checkPromoteCommit payload = some promoteId →
    i.HostSigned Signed promoteId ∨ i.promote = none

variable {Signed sha256} {i : Inner S} {payload : Bytes}

theorem handlePromoteCommit_of_none (h : i.checkPromoteCommit payload = none) :
    i.handlePromoteCommit sha256 payload = i := by
  rw [handlePromoteCommit, h]

theorem handlePromoteCommit_of_idle {promoteId : Gid} (h : i.checkPromoteCommit payload = some promoteId)
    (hidle : i.promote = none) : i.handlePromoteCommit sha256 payload = { i with promote := none } := by
  have hnone : i.consented sha256 promoteId = none := by
    rw [consented, hidle]
    rfl
  rw [handlePromoteCommit, h]
  simp only [hnone]

theorem handlePromoteCommit_promote {promoteId : Gid} (h : i.checkPromoteCommit payload = some promoteId) :
    (i.handlePromoteCommit sha256 payload).promote = none := by
  rw [handlePromoteCommit, h]
  dsimp only
  split <;> rfl

theorem hostFinalizes_iff : i.HostFinalizes Signed sha256 payload ↔ i.Rightful Signed payload := by
  cases hcheck : i.checkPromoteCommit payload with
  | none =>
    refine iff_of_true ⟨fun h => ?_, fun _ => ?_⟩ (fun promoteId h => nomatch hcheck.symm.trans h)
    · rw [handlePromoteCommit_of_none hcheck] at h
      simp at h
    · rw [handlePromoteCommit_of_none hcheck]
  | some promoteId =>
    constructor
    · intro h id hid
      by_cases hsigned : i.HostSigned Signed id
      · exact .inl hsigned
      · -- nobody signed for the host, so the pending proposal stays; but the handler cleared it
        have hkept := h.pending fun id' hid' => by
          rw [hid] at hid'
          exact Option.some.inj hid' ▸ hsigned
        rw [handlePromoteCommit_promote hcheck] at hkept
        exact .inr hkept.symm
    · intro h
      rcases h promoteId hcheck with hsigned | hidle
      · exact ⟨fun _ => ⟨promoteId, hcheck, hsigned⟩, fun hno => absurd hsigned (hno promoteId hcheck)⟩
      · have hsame : i.handlePromoteCommit sha256 payload = { i with promote := none } :=
          handlePromoteCommit_of_idle hcheck hidle
        refine ⟨fun h => ?_, fun _ => ?_⟩
        · rw [hsame] at h
          simp at h
        · rw [hsame, hidle]

theorem Rightful.of_host (hsig : ∀ pk m sig, S.verify pk m sig = .ok () → Signed pk m) {body sig : Bytes}
    (hclaim : unwrapSigned payload = some (body, HOST_LEAF, sig)) : i.Rightful Signed payload := by
  intro promoteId hcheck
  simp only [checkPromoteCommit, hclaim, Option.bind_eq_bind, Option.bind_some, Option.bind_eq_some_iff] at hcheck
  obtain ⟨g, hg, hcheck⟩ := hcheck
  split at hcheck
  · next h =>
    cases hcheck
    have hverify := h.1
    simp only [Group.verifyPromoCommit, Group.verifyBody] at hverify
    split at hverify
    · cases hverify
    · next pk hpk => exact .inl ⟨g, pk, hg, hpk, hsig _ _ _ (except_eq_ok_of_isOk hverify)⟩
  · cases hcheck

end Inner

namespace Env
variable (E : Env S) (Signed : IdentityPublic → Bytes → Prop)

/-- Of a run's steps, the announcements that a member receives. -/
def Announcing (P : Inner S → Bytes → Prop) (i : Inner S) (c : Call S) : Prop :=
  ∀ peer payload, c.input = .frame peer (.promoteCommit payload) → i.role = .member → P i payload

/-- **Who finalizes promotions.** Along every run the host alone does so exactly if every announcement that
verifies, and finds a pending proposal, is signed by the host; announcements for the host's leaf are. -/
theorem only_host_iff (hsig : ∀ pk m sig, S.verify pk m sig = .ok () → Signed pk m) (i : Inner S)
    (calls : List (Call S)) :
    (Run.Along E.step (Announcing (Inner.HostFinalizes Signed E.sha256)) i calls ↔
      Run.Along E.step (Announcing (Inner.Rightful Signed)) i calls) ∧
    ∀ (j : Inner S) (payload body sig : Bytes), unwrapSigned payload = some (body, HOST_LEAF, sig) →
      j.Rightful Signed payload := by
  refine ⟨⟨fun h => h.mono fun j c hj => ?_, fun h => h.mono fun j c hj => ?_⟩, fun j payload body sig h => ?_⟩
  · exact fun peer payload hinput hrole => Inner.hostFinalizes_iff.mp (hj peer payload hinput hrole)
  · exact fun peer payload hinput hrole => Inner.hostFinalizes_iff.mpr (hj peer payload hinput hrole)
  · exact .of_host hsig h

/-! ## A group of three -/

/-- The proposal of the member at leaf 1, in epoch 2. -/
def trioBody : PromoteBody where
  targetTier := 1
  retentionMode := 1
  consentRule := 0
  picked := []
  onion := ""
  carryFromSecs := 0
  epoch := 2

def trioId : Gid := trioBody.id Env.plain.sha256

/-- Everything that was signed: the proofs of possession of the host and two members, the proposal of the
member at leaf 1, and an announcement, with `key` and for `leaf`. -/
def trioLog (key : UInt8) (leaf : Nat) : List (IdentityPublic × Bytes) :=
  [(⟨[100]⟩, popTranscript ⟨[100]⟩), (⟨[101]⟩, popTranscript ⟨[101]⟩), (⟨[102]⟩, popTranscript ⟨[102]⟩),
    (⟨[101]⟩, promoteTranscript 2 1 trioBody.encode), (⟨[key]⟩, promoCommitTranscript 2 leaf trioId.1)]

section Trio
variable (key : UInt8) (leaf : Nat)

def Trio : Scheme := Scheme.plain.logged (trioLog key leaf)

def trioEnv : Env (Trio key leaf) := Env.plain.logged (trioLog key leaf)

def trioKeys (secret sig : UInt8) : LeafKeyPair (Trio key leaf) := ⟨.pqPure, secret, sig⟩

def trioCoins (fresh : UInt8) : RekeyCoins (Trio key leaf) := ⟨fresh, fun _ _ => ()⟩

def trioWelcome : Option (Welcome (Trio key leaf)) :=
  let g : Group (Trio key leaf) := .createWithSig .pqPure (100 : UInt8) (10 : UInt8)
  match ((g.add (trioCoins key leaf 11) (trioKeys key leaf 20 101).keyPackage).1.add (trioCoins key leaf 12)
      (trioKeys key leaf 21 102).keyPackage).2 with
  | .ok (_, _, w) => some w
  | .error _ => none

def trioMember : Inner (Trio key leaf) := .joiner peerFp none (trioKeys key leaf 21 102)

def trioCall (input : Input (Trio key leaf)) : Call (Trio key leaf) where
  input := input
  draws := { coins := fun _ => trioCoins key leaf 13, hints := fun _ => 0, newSig := (200 : UInt8) }
  now := 1000

/-- The member joins, and accepts the proposal of the member at leaf 1. -/
def acceptCalls : List (Call (Trio key leaf)) :=
  [trioCall key leaf (.frame hostFp (.welcome (trioWelcome key leaf))),
    trioCall key leaf (.frame hostFp (.promote (wrapSigned trioBody.encode 1 [101]))),
    trioCall key leaf (.respondPromote trioId true)]

def announcement : Bytes := wrapSigned trioId.1 leaf [key]

def announceCall : Call (Trio key leaf) :=
  trioCall key leaf (.frame hostFp (.promoteCommit (announcement key leaf)))

def accepted : Inner (Trio key leaf) := (trioEnv key leaf).run (trioMember key leaf) (acceptCalls key leaf)

def InLog (pk : IdentityPublic) (m : Bytes) : Prop := (pk, m) ∈ trioLog key leaf

end Trio

/-- **A member finalizes**: no host signature on the id exists, and the announcement of the member at leaf
1 makes another member turn persistence on. -/
theorem member_finalizes :
    (∀ pk m sig, (Trio 101 1).verify pk m sig = .ok () → InLog 101 1 pk m) ∧
    (accepted 101 1).checkPromoteCommit (announcement 101 1) = some trioId ∧
    ((accepted 101 1).handlePromoteCommit (trioEnv 101 1).sha256 (announcement 101 1)).persistent = true ∧
    ¬ Run.Along (trioEnv 101 1).step (Announcing (Inner.HostFinalizes (InLog 101 1) (trioEnv 101 1).sha256))
      (trioMember 101 1) (acceptCalls 101 1 ++ [announceCall 101 1]) := by
  have hcheck : (accepted 101 1).checkPromoteCommit (announcement 101 1) = some trioId := by decide
  have hon : ((accepted 101 1).handlePromoteCommit (trioEnv 101 1).sha256 (announcement 101 1)).persistent =
    true := by decide
  have hoff : (accepted 101 1).persistent = false := by decide
  have hunsigned : ((accepted 101 1).group.all fun g => (g.leafSigKeys.lookup HOST_LEAF).all fun pk =>
      (pk, promoCommitTranscript g.epoch HOST_LEAF trioId.1) ∉ trioLog 101 1) = true := by decide
  refine ⟨fun _ _ _ => Scheme.mem_of_logged_verify, hcheck, hon, fun h => ?_⟩
  obtain ⟨-, hlast, -⟩ := Run.along_append.mp h
  have hfinal : (accepted 101 1).HostFinalizes (InLog 101 1) (trioEnv 101 1).sha256 (announcement 101 1) :=
    hlast hostFp _ rfl (by decide)
  obtain ⟨id, hid, g, pk, hg, hpk, hsigned⟩ := hfinal.applies (.inr (.inr (by rw [hon, hoff]; decide)))
  obtain rfl : trioId = id := Option.some.inj (hcheck.symm.trans hid)
  rw [hg, Option.all_some, hpk, Option.all_some, decide_eq_true_eq] at hunsigned
  exact hunsigned hsigned

/-- The host's own announcement. -/
theorem only_host_iff_announced :
    ((accepted 100 0).handlePromoteCommit (trioEnv 100 0).sha256 (announcement 100 0)).persistent = true ∧
    Run.Along (trioEnv 100 0).step (Announcing (Inner.HostFinalizes (InLog 100 0) (trioEnv 100 0).sha256))
      (trioMember 100 0) (acceptCalls 100 0 ++ [announceCall 100 0]) := by
  obtain ⟨hiff, hhost⟩ := only_host_iff (trioEnv 100 0) (InLog 100 0)
    (fun _ _ _ => Scheme.mem_of_logged_verify) (trioMember 100 0) (acceptCalls 100 0 ++ [announceCall 100 0])
  refine ⟨by decide, hiff.mpr ⟨?_, ?_, ?_, ?_, trivial⟩⟩
  · rintro peer payload hinput
    cases hinput
  · rintro peer payload hinput
    cases hinput
  · rintro peer payload hinput
    cases hinput
  · rintro peer payload hinput -
    cases hinput
    exact hhost _ _ trioId.1 [100] (by decide)

end Env
end Talkrypt.Core
