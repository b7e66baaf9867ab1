import Talkrypt.Core.Node

/-!
# The accounts of group leaves

A node records the account that certified the signing key of a leaf. The record is made when the
certificate arrives and is never taken back, while the key of the leaf can change: the leaf is removed
and given to somebody else, or its key is rotated (`newcomer_inherits_account`). As long as the keys of
the recorded leaves stay, the recorded accounts vouch for them (`accounts_vouch`).
-/

namespace Talkrypt.Core
open TreeKem Account

variable {S : Scheme}

/-- The account issued a chain of certificates down to `key`: every link was issued by its issuer. -/
def Certifies (Issued : IdentityPublic → Cert → Prop) (account key : IdentityPublic) : Prop :=
  ∃ links : List SignedCert, links ≠ [] ∧ (∀ link ∈ links, Issued link.issuer link.cert) ∧
    IdentityChain.Path account links key

theorem certifies_of_verify {Issued : IdentityPublic → Cert → Prop}
    (hsig : ∀ pk (c : Cert) sig, S.verify pk c.encode sig = .ok () → Issued pk c) {chain : IdentityChain}
    {account key : IdentityPublic} {now : UInt64} (h : chain.verify S account key now = .ok ()) :
    Certifies Issued account key := by
  obtain ⟨hlinks, hne, hpath⟩ := IdentityChain.verify_eq_ok h
  exact ⟨chain.links, hne, fun link hlink => hsig _ _ _ (hlinks link hlink).1, hpath⟩

theorem Certifies.exists_issued {Issued : IdentityPublic → Cert → Prop} {account key : IdentityPublic}
    (h : Certifies Issued account key) : ∃ issuer c, Issued issuer c ∧ c.subject = key := by
  obtain ⟨links, hne, hissued, hpath⟩ := h
  induction links generalizing account with
  | nil => exact absurd rfl hne
  | cons link links ih =>
    obtain ⟨hlink, hlinks⟩ := List.forall_mem_cons.mp hissued
    cases links with
    | nil => exact ⟨link.issuer, link.cert, hlink, hpath.2⟩
    | cons link' links => exact ih (List.cons_ne_nil _ _) hlinks hpath.2

namespace Inner

def sigKey (i : Inner S) (l : Nat) : Option IdentityPublic := i.group.bind (·.leafSigKeys.lookup l)

theorem matchedLeaf_eq_some {i : Inner S} {hint l : Nat} {key : IdentityPublic}
    (h : i.matchedLeaf hint key = some l) : i.sigKey l = some key := by
  unfold matchedLeaf at h
  split at h
  · cases h
  · next g hg =>
    rw [sigKey, hg, Option.bind_some]
    split at h
    · next hhint =>
      cases h
      exact hhint.2
    · obtain ⟨e, he, rfl⟩ := Option.map_eq_some_iff.mp h
      simpa using List.find?_some he

theorem checkLeafSigCert_eq_some {fingerprint : IdentityPublic → Fingerprint} {i : Inner S} {now : UInt64}
    {bytes : Bytes} {chain : IdentityChain} {account key : IdentityPublic}
    (h : i.checkLeafSigCert fingerprint now bytes = some (chain, account, key)) :
    chain.verify S account key now = .ok () := by
  simp only [checkLeafSigCert, Option.bind_eq_bind, Option.bind_eq_some_iff] at h
  obtain ⟨chain', -, account', -, key', -, h⟩ := h
  split at h
  · next hverify =>
    cases h
    cases hres : chain.verify S account key now with
    | ok => rfl
    | error e =>
      rw [hres] at hverify
      cases hverify.1
  · cases h

theorem handleLeafSigCert_accounts (sha256 : Bytes → Gid) (fingerprint : IdentityPublic → Fingerprint)
    (i : Inner S) (now : UInt64) (hint : Nat) (peer : Fingerprint) (bytes : Bytes) :
    (i.handleLeafSigCert sha256 fingerprint now hint peer bytes).verifiedLeafAccounts =
        i.verifiedLeafAccounts ∨
      ∃ (chain : IdentityChain) (account key : IdentityPublic) (leaf : Nat),
        chain.verify S account key now = .ok () ∧ i.sigKey leaf = some key ∧
        (i.handleLeafSigCert sha256 fingerprint now hint peer bytes).verifiedLeafAccounts =
          i.verifiedLeafAccounts.insert leaf (fingerprint account) := by
  unfold handleLeafSigCert
  split
  · exact .inl rfl
  · next i₁ hrecord =>
    obtain ⟨seen, rfl⟩ := record_eq_some hrecord
    split
    · exact .inl rfl
    · next chain account key hcheck =>
      dsimp only
      split
      · split <;> exact .inl rfl
      · next leaf hleaf =>
        split
        · exact .inl rfl
        · refine .inr ⟨chain, account, key, leaf, checkLeafSigCert_eq_some hcheck, matchedLeaf_eq_some hleaf, ?_⟩
          split <;> rfl

end Inner

namespace Env
variable (E : Env S) (Issued : IdentityPublic → Cert → Prop)

/-- Each recorded account certified the key that the tree holds for its leaf. -/
def Vouched (i : Inner S) : Prop :=
  ∀ l a, i.groupLeafAccount l = some a →
    ∃ account key, E.fingerprint account = a ∧ i.sigKey l = some key ∧ Certifies Issued account key

/-- The leaves with a recorded account keep their signing keys. -/
def Steady (i : Inner S) (c : Call S) : Prop :=
  ∀ l a, i.groupLeafAccount l = some a → (E.step i c).sigKey l = i.sigKey l

variable {E Issued}

theorem groupLeafAccount_step
    (hsig : ∀ pk (c : Cert) sig, S.verify pk c.encode sig = .ok () → Issued pk c) {i : Inner S} {c : Call S}
    {l : Nat} {a : Fingerprint} (h : (E.step i c).groupLeafAccount l = some a) :
    i.groupLeafAccount l = some a ∨ ∃ account key, E.fingerprint account = a ∧
      (E.step i c).sigKey l = some key ∧ Certifies Issued account key := by
  by_cases hcert : ∃ peer bytes, c.input = .frame peer (.leafSigCert bytes)
  · obtain ⟨peer, bytes, hinput⟩ := hcert
    have hstep : E.step i c = if i.role ≠ .none then
        i.handleLeafSigCert E.sha256 E.fingerprint c.now (c.draws.hints 0) peer bytes else i := by
      simp only [step, hinput, receive]
    split at hstep
    · obtain ⟨_, _, _, heq⟩ := i.handleLeafSigCert_eq E.sha256 E.fingerprint c.now (c.draws.hints 0) peer bytes
      have hkey : (E.step i c).sigKey l = i.sigKey l := by
        rw [hstep, heq]
        rfl
      rw [Inner.groupLeafAccount, hstep] at h
      rcases i.handleLeafSigCert_accounts E.sha256 E.fingerprint c.now (c.draws.hints 0) peer bytes with
        hsame | ⟨chain, account, key, leaf, hverify, hleaf, hinsert⟩
      · rw [hsame] at h
        exact .inl h
      · rw [hinsert, Table.lookup_insert_eq] at h
        split at h
        · next hl =>
          refine .inr ⟨account, key, Option.some.inj h, ?_, certifies_of_verify hsig hverify⟩
          rw [hkey, hl, hleaf]
        · exact .inl h
    · exact .inl (hstep ▸ h)
  · have heffect := E.step_effect i c
    generalize E.step i c = i' at h heffect
    generalize c.input = input at hcert heffect
    left
    cases heffect with
    | regroups hm | manages _ hm | posts hm | heard _ hm =>
      exact (congrArg (fun i : Inner S => i.groupLeafAccount l) hm :).symm.trans h
    | accounts => exact absurd ⟨_, _, rfl⟩ hcert
    | _ => exact h

theorem Vouched.step (hsig : ∀ pk (c : Cert) sig, S.verify pk c.encode sig = .ok () → Issued pk c)
    {i : Inner S} (hi : E.Vouched Issued i) {c : Call S} (hc : E.Steady i c) :
    E.Vouched Issued (E.step i c) := by
  intro l a hl
  rcases groupLeafAccount_step hsig hl with hbefore | hnow
  · rw [hc l a hbefore]
    exact hi l a hbefore
  · exact hnow

/-- **Accounts of leaves**: with unforgeable signatures, and as long as the leaves with a recorded account
keep their signing keys, the account reported for a leaf issued a chain for the key that the tree holds. -/
theorem accounts_vouch (hsig : ∀ pk (c : Cert) sig, S.verify pk c.encode sig = .ok () → Issued pk c)
    {i : Inner S} (hi : i.verifiedLeafAccounts = ∅) {calls : List (Call S)}
    (h : Run.Along E.step E.Steady i calls) : E.Vouched Issued (E.run i calls) := by
  have hstart : E.Vouched Issued i := fun l a hl => by
    rw [Inner.groupLeafAccount, hi, AList.lookup_empty] at hl
    cases hl
  exact h.invariant (fun i c hi hc => hi.step hsig hc) hstart

/-! ## A leaf that changes hands -/

/-- The account certifies the peer's device, and the device its leaf key. -/
def deviceCert : Cert := { subject := ⟨[2]⟩, label := "device:phone", validFrom := 0, expiry := 0 }
def leafCert : Cert := { subject := ⟨[101]⟩, label := "leaf", validFrom := 0, expiry := 0 }

def badgeChain : IdentityChain := ⟨[⟨⟨[3]⟩, deviceCert, [3]⟩, ⟨⟨[2]⟩, leafCert, [2]⟩]⟩

/-- Everything that was signed: the two certificates, and the proofs of possession of two leaf keys. -/
def badgeLog : List (IdentityPublic × Bytes) :=
  [(⟨[3]⟩, deviceCert.encode), (⟨[2]⟩, leafCert.encode), (⟨[101]⟩, popTranscript ⟨[101]⟩),
    (⟨[102]⟩, popTranscript ⟨[102]⟩)]

def BadgeIssued (pk : IdentityPublic) (c : Cert) : Prop := (pk, c.encode) ∈ badgeLog

/-- The peer joins at leaf 1 with key 101, and its certificates arrive. -/
def badgeCalls : List (Call (Scheme.plain.logged badgeLog)) :=
  [loggedJoin badgeLog peerFp 20 101 11, loggedCall badgeLog (.frame peerFp (.leafSigCert badgeChain.encode)) 12]

/-- The peer is removed, and somebody else joins at leaf 1 with key 102. -/
def newcomerCalls : List (Call (Scheme.plain.logged badgeLog)) :=
  badgeCalls ++ [loggedCall badgeLog (.removeMember peerFp) 13, loggedJoin badgeLog (padArr 48 [4]) 21 102 14]

theorem accounts_vouch_badge :
    ((loggedEnv badgeLog).run (loggedHost badgeLog) badgeCalls).groupLeafAccount 1 = some (padArr 48 [3]) ∧
    (loggedEnv badgeLog).Vouched BadgeIssued ((loggedEnv badgeLog).run (loggedHost badgeLog) badgeCalls) := by
  refine ⟨by decide +kernel, accounts_vouch (fun _ _ _ => Scheme.mem_of_logged_verify) rfl ⟨?_, ?_, trivial⟩⟩
  · exact fun l a hl => absurd ((AList.lookup_empty l).symm.trans hl) nofun
  · have hempty : ((loggedEnv badgeLog).step (loggedHost badgeLog)
        (loggedJoin badgeLog peerFp 20 101 11)).verifiedLeafAccounts = ∅ := rfl
    intro l a hl
    rw [Inner.groupLeafAccount, hempty, AList.lookup_empty] at hl
    cases hl

theorem subject_ne_of_badgeIssued {pk : IdentityPublic} {c : Cert} (h : BadgeIssued pk c) :
    c.subject ≠ ⟨[102]⟩ := by
  intro hsubject
  have hhead : c.encode.take 5 = [0, 0, 0, 1, 102] := by
    rw [Cert.encode, Cert.fields, hsubject, putFields_cons]
    rfl
  have hnone : ∀ e ∈ badgeLog, e.2.take 5 ≠ [0, 0, 0, 1, 102] := by decide
  exact hnone _ h hhead

/-- **A newcomer inherits an account**: leaf 1 is still reported to belong to the account, and holds a key
for which nobody issued a certificate. -/
theorem newcomer_inherits_account :
    ((loggedEnv badgeLog).run (loggedHost badgeLog) newcomerCalls).groupLeafAccount 1 = some (padArr 48 [3]) ∧
    ((loggedEnv badgeLog).run (loggedHost badgeLog) newcomerCalls).sigKey 1 = some ⟨[102]⟩ ∧
    ¬ (loggedEnv badgeLog).Vouched BadgeIssued ((loggedEnv badgeLog).run (loggedHost badgeLog) newcomerCalls) := by
  have haccount : ((loggedEnv badgeLog).run (loggedHost badgeLog) newcomerCalls).groupLeafAccount 1 =
    some (padArr 48 [3]) := by decide +kernel
  have hkey : ((loggedEnv badgeLog).run (loggedHost badgeLog) newcomerCalls).sigKey 1 = some ⟨[102]⟩ := by
    decide +kernel
  refine ⟨haccount, hkey, fun h => ?_⟩
  obtain ⟨account, key, -, hkey', hcert⟩ := h 1 _ haccount
  obtain ⟨issuer, c, hissued, hsubject⟩ := hcert.exists_issued
  refine subject_ne_of_badgeIssued hissued (hsubject.trans ?_)
  exact Option.some.inj (hkey'.symm.trans hkey)

end Env
end Talkrypt.Core
