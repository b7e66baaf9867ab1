import Talkrypt.Crypto.TreeKem.Agreement

/-!
# Who can change a leaf's signing key

What an accepted commit does to the signing key of a leaf it does not remove: the last `Add` or
`Update` for the leaf decides (`applyProposals_sigKey`). `Update` is authorized by the key it replaces,
`Add` is not, and nothing keeps a commit from adding an occupied leaf (`add_rebinds_occupied_leaf`). So the
keys of occupied leaves are safe exactly when no `Add` rebinds one (`keysKept_iff`).
-/

namespace Talkrypt.TreeKem

variable {S : Scheme}

/-- The signing key that a proposal binds to leaf `l`. -/
def Proposal.binds (l : Nat) : Proposal S → Option IdentityPublic
  | .add leaf _ sp _ => if l = leaf then some sp else none
  | .remove _ => none
  | .update leaf _ sp _ _ => if l = leaf then some sp else none

/-- The last signing key that a list of proposals binds to leaf `l`. -/
def lastBound (l : Nat) : List (Proposal S) → Option IdentityPublic
  | [] => none
  | p :: ps => (lastBound l ps).or (p.binds l)

namespace Group
variable {g g' m m' : Group S} {c : Commit S} {l : Nat} {ps : List (Proposal S)}

/-! ## The signing keys under proposals -/

variable {p : Proposal S}

theorem enactProposal_sigKey (hp : p ≠ .remove l) :
    (g.enactProposal p).leafSigKeys.lookup l = (p.binds l).or (g.leafSigKeys.lookup l) := by
  rw [leafSigKeys_enactProposal]
  cases p with
  | add | update =>
    simp only [Proposal.binds, Proposal.leaf]
    split <;> simp_all [Proposal.newSig]
  | remove leaf => exact if_neg fun heq => hp (congrArg Proposal.remove heq.symm)

theorem applyProposals_cons (h : g.applyProposals (p :: ps) = (g', .ok ())) :
    g.checkProposal p = .ok () ∧ (g.enactProposal p).applyProposals ps = (g', .ok ()) := by
  rw [applyProposals] at h
  cases hp : g.checkProposal p with
  | error e => simp [hp] at h
  | ok u => exact ⟨rfl, by simpa [hp] using h⟩

theorem applyProposals_sigKey (h : g.applyProposals ps = (g', .ok ())) (hrm : .remove l ∉ ps) :
    g'.leafSigKeys.lookup l = (lastBound l ps).or (g.leafSigKeys.lookup l) := by
  induction ps generalizing g with
  | nil => cases h; rfl
  | cons p ps ih =>
    obtain ⟨-, hrest⟩ := applyProposals_cons h
    rw [List.mem_cons, not_or] at hrm
    rw [ih hrest hrm.2, enactProposal_sigKey (Ne.symm hrm.1), lastBound, Option.or_assoc]

/-- Some `Update` of leaf `l` is signed by the key that the leaf has in `g`. -/
def Authorized (g : Group S) (ps : List (Proposal S)) (l : Nat) : Prop :=
  ∃ lp sp pop auth key, .update l lp sp pop auth ∈ ps ∧ g.leafSigKeys.lookup l = some key ∧
    S.verify key (updateAuthTranscript l lp sp) auth = .ok ()

theorem applyProposals_authorized (h : g.applyProposals ps = (g', .ok ())) (hrm : .remove l ∉ ps)
    (hadd : ∀ lp sp pop, .add l lp sp pop ∉ ps) (hbound : lastBound l ps ≠ none) :
    g.Authorized ps l := by
  induction ps generalizing g with
  | nil => exact absurd rfl hbound
  | cons p ps ih =>
    obtain ⟨hcheck, hrest⟩ := applyProposals_cons h
    rw [List.mem_cons, not_or] at hrm
    cases hp : p.binds l with
    | none =>
      rw [lastBound, hp, Option.or_none] at hbound
      obtain ⟨lp, sp, pop, auth, key, hmem, hkey, hverify⟩ := ih hrest hrm.2
        (fun lp sp pop hmem => hadd lp sp pop (List.mem_cons_of_mem _ hmem)) hbound
      rw [enactProposal_sigKey (Ne.symm hrm.1), hp, Option.none_or] at hkey
      exact ⟨lp, sp, pop, auth, key, List.mem_cons_of_mem _ hmem, hkey, hverify⟩
    | some sp' =>
      cases p with
      | remove leaf => cases hp
      | add leaf lp sp pop =>
        simp only [Proposal.binds] at hp
        split at hp
        · next heq => exact absurd (heq ▸ List.mem_cons_self) (hadd lp sp pop)
        · cases hp
      | update leaf lp sp pop auth =>
        simp only [Proposal.binds] at hp
        split at hp
        · next heq =>
          subst heq
          obtain ⟨-, -, hauth⟩ := checkProposal_update hcheck
          unfold verifyUpdateAuth at hauth
          split at hauth
          · cases hauth
          · next key hkey =>
            exact ⟨lp, sp, pop, auth, key, List.mem_cons_self, hkey, orBadSignature_eq_ok.mp hauth⟩
        · cases hp

/-! ## The signing keys under a commit -/

theorem processUpdatePath_leafSigKeys (g : Group S) (c : Commit S) :
    (g.processUpdatePath c).1.leafSigKeys = g.leafSigKeys := by
  unfold processUpdatePath
  dsimp only
  split
  · rfl
  · split
    · rfl
    · split <;> rfl

theorem growTo_leafSigKeys (g : Group S) (capacity : Nat) : (g.growTo capacity).leafSigKeys = g.leafSigKeys := by
  unfold growTo
  split <;> rfl

theorem applyCommit_eq_ok (h : m.applyCommit c = (m', .ok ())) :
    m.verifyCommit c = .ok () ∧ ∃ m₁ m₂, (m.growTo c.newCapacity).applyProposals c.proposals = (m₁, .ok ()) ∧
      m₁.applySigUpdate c.sigUpdate = .ok m₂ ∧ m'.leafSigKeys = m₂.leafSigKeys := by
  unfold applyCommit at h
  cases hverify : m.verifyCommit c with
  | error e => simp [hverify] at h
  | ok u =>
    simp only [hverify] at h
    split at h
    · cases h
    · next m₁ happly =>
      split at h
      · cases h
      · next m₂ hsig =>
        split at h
        · cases h
        · next m₃ secret hprocess =>
          cases h
          refine ⟨rfl, m₁, m₂, happly, hsig, ?_⟩
          rw [← processUpdatePath_leafSigKeys m₂ c, hprocess]
          rfl

theorem applySigUpdate_sigKey {su : Option (Nat × IdentityPublic × Bytes)}
    (h : g.applySigUpdate su = .ok g') :
    su = none ∧ g' = g ∨ ∃ sp pop, su = some (HOST_LEAF, sp, pop) ∧
      g'.leafSigKeys = g.leafSigKeys.insert HOST_LEAF sp := by
  unfold applySigUpdate at h
  cases su with
  | none => cases h; exact .inl ⟨rfl, rfl⟩
  | some u =>
    obtain ⟨leaf, sp, pop⟩ := u
    simp only at h
    split at h
    · cases h
    · next hleaf =>
      obtain rfl : leaf = HOST_LEAF := not_ne_iff.mp hleaf
      split at h
      · cases h
      · obtain ⟨-, -, h⟩ := except_bind_eq_ok.mp h
        cases h
        exact .inr ⟨sp, pop, rfl, rfl⟩

/-- What every stage of a commit keeps of the signing keys holds of them afterwards, whether or not the
commit is accepted. -/
theorem applyCommit_keeps {P : Table Nat IdentityPublic → Prop} (hg : P g.leafSigKeys)
    (hps : ∀ p ∈ c.proposals, ∀ g' : Group S, P g'.leafSigKeys → P (g'.enactProposal p).leafSigKeys)
    (hsu : ∀ sp pop, c.sigUpdate = some (HOST_LEAF, sp, pop) → ∀ keys, P keys → P (keys.insert HOST_LEAF sp)) :
    P (g.applyCommit c).1.leafSigKeys := by
  have happlied : ∀ {ps : List (Proposal S)} {g₁ : Group S}, ps ⊆ c.proposals → P g₁.leafSigKeys →
      P (g₁.applyProposals ps).1.leafSigKeys := by
    intro ps
    induction ps with
    | nil => exact fun _ h => h
    | cons p ps ih =>
      intro g₁ hsub h
      obtain ⟨hp, hsub⟩ := List.cons_subset.mp hsub
      rw [applyProposals]
      split
      · exact h
      · exact ih hsub (hps p hp g₁ h)
  have hproposals := happlied (List.Subset.refl c.proposals) ((growTo_leafSigKeys g c.newCapacity).symm ▸ hg)
  unfold applyCommit
  split
  · exact hg
  · split
    · next happly =>
      rw [happly] at hproposals
      exact hproposals
    · next g₁ happly =>
      rw [happly] at hproposals
      split
      · exact hproposals
      · next g₂ hsig =>
        have hpath : P (g₂.processUpdatePath c).1.leafSigKeys := by
          rw [processUpdatePath_leafSigKeys]
          rcases applySigUpdate_sigKey hsig with ⟨-, rfl⟩ | ⟨sp, pop, heq, hinsert⟩
          · exact hproposals
          · rw [hinsert]
            exact hsu sp pop heq _ hproposals
        split
        · next hprocess =>
          rw [hprocess] at hpath
          exact hpath
        · next hprocess =>
          rw [hprocess] at hpath
          exact hpath

/-- The committer, whose signature on the commit has been verified under the key of leaf 0, rotates
its own key. -/
def HostRotation (m : Group S) (c : Commit S) (l : Nat) : Prop :=
  l = HOST_LEAF ∧ c.sigUpdate.isSome = true ∧ m.verifyCommit c = .ok ()

/-- Every occupied leaf that the commit does not remove keeps its signing key, unless an `Update`
authorized by that key, or the host for itself, replaces it. -/
def KeysKept (m : Group S) (c : Commit S) (m' : Group S) : Prop :=
  ∀ l, m.isOccupied l = true → .remove l ∉ c.proposals →
    m.Authorized c.proposals l ∨ m.HostRotation c l ∨
      m'.leafSigKeys.lookup l = m.leafSigKeys.lookup l

/-- An `Add` for an occupied leaf that the commit does not remove leaves it with the key it had, or
comes with an authorized replacement. -/
def NoRebinding (m : Group S) (c : Commit S) : Prop :=
  ∀ l, m.isOccupied l = true → .remove l ∉ c.proposals → (∃ lp sp pop, .add l lp sp pop ∈ c.proposals) →
    m.Authorized c.proposals l ∨ m.HostRotation c l ∨
      lastBound l c.proposals = m.leafSigKeys.lookup l

theorem lastBound_ne_none (hp : p ∈ ps) (hb : p.binds l ≠ none) : lastBound l ps ≠ none := by
  induction ps with
  | nil => cases hp
  | cons q ps ih =>
    rw [lastBound, ne_eq, Option.or_eq_none_iff, not_and_or]
    rcases List.mem_cons.mp hp with rfl | hmem
    · exact .inr hb
    · exact .inl (ih hmem)

theorem applyCommit_sigKey (h : m.applyCommit c = (m', .ok ())) (hrm : .remove l ∉ c.proposals) :
    m.HostRotation c l ∨
      m'.leafSigKeys.lookup l = (lastBound l c.proposals).or (m.leafSigKeys.lookup l) := by
  obtain ⟨hverify, m₁, m₂, happly, hsig, hkeys⟩ := applyCommit_eq_ok h
  have hkey := applyProposals_sigKey happly hrm
  rw [growTo_leafSigKeys] at hkey
  rw [hkeys]
  rcases applySigUpdate_sigKey hsig with ⟨-, rfl⟩ | ⟨sp, pop, hsu, hinsert⟩
  · exact .inr hkey
  · by_cases hl : l = HOST_LEAF
    · exact .inl ⟨hl, by rw [hsu]; rfl, hverify⟩
    · exact .inr (by rw [hinsert, AList.lookup_insert_ne hl, hkey])

/-- **Leaf-key hijack resistance**, and its limit: an accepted commit keeps the keys of the occupied
leaves exactly when no `Add` rebinds one. -/
theorem keysKept_iff (h : m.applyCommit c = (m', .ok ())) : m.KeysKept c m' ↔ m.NoRebinding c := by
  constructor
  · rintro hkept l hocc hrm ⟨lp, sp, pop, hadd⟩
    rcases hkept l hocc hrm with hauth | hrot | hsame
    · exact .inl hauth
    · exact .inr (.inl hrot)
    · rcases applyCommit_sigKey h hrm with hrot | hkey
      · exact .inr (.inl hrot)
      · obtain ⟨key, hbound⟩ := Option.ne_none_iff_exists'.mp
          (lastBound_ne_none (l := l) hadd (by simp [Proposal.binds]))
        rw [hbound, Option.some_or, hsame] at hkey
        exact .inr (.inr (hbound.trans hkey.symm))
  · intro hno l hocc hrm
    rcases applyCommit_sigKey h hrm with hrot | hkey
    · exact .inr (.inl hrot)
    · by_cases hadd : ∃ lp sp pop, .add l lp sp pop ∈ c.proposals
      · rcases hno l hocc hrm hadd with hauth | hrot | hbound
        · exact .inl hauth
        · exact .inr (.inl hrot)
        · exact .inr (.inr (by rw [hkey, hbound, Option.or_self]))
      · cases hbound : lastBound l c.proposals with
        | none => exact .inr (.inr (by rw [hkey, hbound, Option.none_or]))
        | some key =>
          obtain ⟨-, m₁, -, happly, -⟩ := applyCommit_eq_ok h
          obtain ⟨lp, sp, pop, auth, key, hmem, hkey, hverify⟩ := applyProposals_authorized happly hrm
            (fun lp sp pop hmem => hadd ⟨lp, sp, pop, hmem⟩) (by rw [hbound]; exact Option.some_ne_none _)
          exact .inl ⟨lp, sp, pop, auth, key, hmem, growTo_leafSigKeys m _ ▸ hkey, hverify⟩

/-! ## An `Add` for an occupied leaf -/

def pairEvents : List (Event Scheme.plain) :=
  World.joinEvents ++ [.host (.add (World.plainKeys 30 104).keyPackage) (World.plainCoins 12),
    .join 1 (World.plainKeys 30 104)]

def bystander : Group Scheme.plain :=
  match (World.plainRun pairEvents).members with
  | [_, m] => m.group
  | _ => (World.plainRun pairEvents).founded

/-- A commit in which the host adds a key of its own choice at leaf 1, which is occupied. -/
def rebindCommit : Commit Scheme.plain :=
  match ((World.plainRun pairEvents).host.commitProposals (World.plainCoins 13)
    [.add 1 (40 : UInt8) ⟨[105]⟩ [105]]).2 with
  | .ok c => c
  | .error _ => ⟨[], [], [], [], 0, none, []⟩

theorem keysKept_iff_rebind : (bystander.applyCommit rebindCommit).2 = .ok () ∧
    (bystander.KeysKept rebindCommit (bystander.applyCommit rebindCommit).1 ↔
      bystander.NoRebinding rebindCommit) :=
  ⟨rfl, keysKept_iff rfl⟩

/-- A member of a running group accepts the commit, and leaf 1 is bound to the host's key 105. -/
theorem add_rebinds_occupied_leaf :
    (∃ m ∈ (World.plainRun pairEvents).members, m.live = true ∧ m.group = bystander) ∧
    (bystander.applyCommit rebindCommit).2 = .ok () ∧
    bystander.isOccupied 1 = true ∧ bystander.leafSigKeys.lookup 1 = some ⟨[101]⟩ ∧
    (bystander.applyCommit rebindCommit).1.leafSigKeys.lookup 1 = some ⟨[105]⟩ ∧
    ¬ bystander.KeysKept rebindCommit (bystander.applyCommit rebindCommit).1 := by
  refine ⟨⟨_, List.mem_of_getElem? (i := 1) rfl, rfl, rfl⟩, rfl, rfl, rfl, rfl, fun hkept => ?_⟩
  have hproposals : rebindCommit.proposals = [.add 1 (40 : UInt8) ⟨[105]⟩ [105]] := rfl
  rcases hkept 1 rfl (by simp [hproposals]) with ⟨_, _, _, _, _, hmem, -⟩ | ⟨hl, -⟩ | hsame
  · simp [hproposals] at hmem
  · exact absurd hl (by decide)
  · exact absurd hsame (by decide)

end Group
end Talkrypt.TreeKem
