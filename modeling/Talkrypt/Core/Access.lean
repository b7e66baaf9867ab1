import Talkrypt.Lib.Run
import Talkrypt.Core.Node

/-!
# Who is let in (`AccessPolicy`, `crates/core/src/contacts.rs`, `handle_identity`)

A peer presents a chain of certificates from its account to the device that it authenticated as. The pairwise
handler lets it in if no link is revoked, the access policy admits the account, and the access predicate of the
descriptor, if there is one, is met (`Gate.allowed_iff`). The group host has a handler of its own that does
not look at the predicate, and under an open policy it asks for no presentation at all, so a peer becomes a
member of a group whose predicate it does not meet (`Host.member_without_proof`). Members meet the pairwise
rule in every run in which no predicate is set, or in which the policy is restricted and all accounts that it
admits meet the predicate (`Host.members_cleared`).
-/

namespace Talkrypt.Core
open TreeKem Account

/-! ## Policy and predicate -/

inductive AccessPolicy where
  | everyone
  | accounts (set : Finset Fingerprint)
  | contacts
  | friends
deriving DecidableEq

namespace AccessPolicy

def isOpen : AccessPolicy → Bool
  | everyone => true
  | _ => false

/-- Admission by the account and by whether it is a contact or a friend. -/
def admits (p : AccessPolicy) (account : Fingerprint) (contact friend : Bool) : Bool :=
  match p with
  | everyone => true
  | accounts set => account ∈ set
  | contacts => contact
  | friends => friend

def allow (p : AccessPolicy) (account : Fingerprint) : AccessPolicy :=
  match p with
  | accounts set => accounts (insert account set)
  | _ => accounts {account}

def deny (p : AccessPolicy) (account : Fingerprint) : AccessPolicy :=
  match p with
  | accounts set => accounts (set.erase account)
  | p => p

end AccessPolicy

inductive Predicate where
  | linkedToAccount (accountFp : Fingerprint)
  | grouping (groupingPub : Bytes)
  | derivedFromNamed (ancestorFp : Fingerprint)
deriving DecidableEq

/-! ## Contacts -/

structure Contact where
  account : IdentityPublic
  name : Option String
  friend : Bool
deriving DecidableEq

abbrev ContactStore := List Contact

namespace ContactStore

def update (account : IdentityPublic) (f : Contact → Contact) : ContactStore → ContactStore
  | [] => []
  | c :: store => if c.account = account then f c :: store else c :: update account f store

def isContact (store : ContactStore) (account : IdentityPublic) : Bool := store.any (·.account = account)

def isFriend (store : ContactStore) (account : IdentityPublic) : Bool :=
  store.any fun c => c.account = account && c.friend

def add (store : ContactStore) (account : IdentityPublic) (name : Option String) (friend : Bool) : ContactStore :=
  if isContact store account then update account (fun c => { c with name, friend }) store
  else store ++ [Contact.mk account name friend]

def setFriend (store : ContactStore) (account : IdentityPublic) (friend : Bool) : ContactStore :=
  update account (fun c => { c with friend }) store

end ContactStore

/-! ## Presentations -/

/-- The claim that the authenticated device belongs to an account. -/
structure Presentation where
  chain : IdentityChain
  username : Option String
deriving DecidableEq

namespace Presentation

def encode (p : Presentation) : Bytes :=
  putBytes p.chain.encode ++ match p.username with
    | none => putU8 0
    | some u => putU8 1 ++ putBytes (utf8 u)

def getUsername : Reader CryptoError (Option String) := do
  let tag ← Reader.getU8
  if tag = 0 then pure none
  else if tag = 1 then do
    let bytes ← Reader.getBytes
    match fromUtf8 bytes with
    | none => throw (.malformed "username utf-8")
    | some u => pure (some u)
  else throw (.malformed "presentation username tag")

def decode (bytes : Bytes) : Except CryptoError Presentation :=
  parseAll (do
    let chainBytes ← Reader.getBytes
    let chain ← liftM (IdentityChain.decode chainBytes)
    let username ← getUsername
    pure { chain, username }) bytes

end Presentation

structure Resolved where
  account : IdentityPublic
  accountFingerprint : Fingerprint
  leafFingerprint : Fingerprint
  contact : Bool
  friend : Bool
deriving DecidableEq

section
variable (S : Scheme) (fingerprint : IdentityPublic → Fingerprint)

/-- The account of a chain that is valid now and ends at the authenticated device. -/
def resolveChain (store : ContactStore) (chain : IdentityChain) (peer : Fingerprint) (now : UInt64) :
    Option Resolved := do
  let leaf ← chain.leaf
  if fingerprint leaf ≠ peer then none
  else
    let account ← chain.links.head?.map (·.issuer)
    if (chain.verify S account leaf now).isOk then
      some {
        account
        accountFingerprint := fingerprint account
        leafFingerprint := fingerprint leaf
        contact := store.isContact account
        friend := store.isFriend account }
    else none

end

/-! ## The gate -/

inductive Notice where
  | error (text : String)
  | identity (peer account : Fingerprint) (username : Option String) (contact friend : Bool)
  | message (sender : Fingerprint) (channel text : String) (marking : Option Marking)
  | connected (peer : Fingerprint)
  | disconnected (peer : Fingerprint)
deriving DecidableEq

inductive IdentityOutcome where
  | allowed
  | rejected
  | ignored
deriving DecidableEq

/-- The fields of the engine that decide who is let in. -/
structure Gate where
  access : AccessPolicy
  accessPredicate : Option Predicate
  contacts : ContactStore
  revocations : Finset (Fingerprint × Fingerprint)
  seenAccounts : Table Fingerprint IdentityPublic

inductive GateCall where
  | restrictToAccounts (accounts : Finset Fingerprint)
  | restrictToContacts
  | restrictToFriends
  | allowAccount (account : Fingerprint)
  | denyAccount (account : Fingerprint)
  | setAccessPolicy (policy : AccessPolicy)
  | openAccess
  | addRevocation (revocation : Revocation)
  | addContact (account : IdentityPublic) (name : Option String) (friend : Bool)
  | setFriend (account : IdentityPublic) (friend : Bool)

namespace Gate

def waived (g : Gate) : Bool := g.access.isOpen && g.accessPredicate.isNone

variable (S : Scheme) (fingerprint : IdentityPublic → Fingerprint)

def addRevocation (g : Gate) (r : Revocation) : Gate :=
  if (r.verify S).isOk then { g with revocations := insert (fingerprint r.account, r.subjectFp) g.revocations }
  else g

def call (g : Gate) : GateCall → Gate
  | .restrictToAccounts accounts => { g with access := .accounts accounts }
  | .restrictToContacts => { g with access := .contacts }
  | .restrictToFriends => { g with access := .friends }
  | .allowAccount account => { g with access := g.access.allow account }
  | .denyAccount account => { g with access := g.access.deny account }
  | .setAccessPolicy policy => { g with access := policy }
  | .openAccess => { g with access := .everyone }
  | .addRevocation r => g.addRevocation S fingerprint r
  | .addContact account name friend => { g with contacts := g.contacts.add account name friend }
  | .setFriend account friend => { g with contacts := g.contacts.setFriend account friend }

def resolve (g : Gate) (peer : Fingerprint) (now : UInt64) (p : Presentation) : Option Resolved :=
  resolveChain S fingerprint g.contacts p.chain peer now

def revoked (g : Gate) (account : Fingerprint) (chain : IdentityChain) : Bool :=
  chain.links.any fun l => (account, fingerprint l.cert.subject) ∈ g.revocations

def unmet (g : Gate) (res : Resolved) (chain : IdentityChain) : Option String :=
  match g.accessPredicate with
  | none => none
  | some (.linkedToAccount accountFp) =>
    if res.accountFingerprint ≠ accountFp then some "account does not satisfy the channel access predicate" else none
  | some (.derivedFromNamed ancestorFp) =>
    if chain.links.any fun l => fingerprint l.issuer = ancestorFp then none
    else some "identity does not satisfy the channel access predicate"
  -- no identity presentation can meet it
  | some (.grouping _) => some "channel requires a proof this build cannot present"

def seen (g : Gate) (res : Resolved) : Gate :=
  { g with seenAccounts := g.seenAccounts.insert res.accountFingerprint res.account }

def identified (peer : Fingerprint) (p : Presentation) (res : Resolved) : Notice :=
  .identity peer res.accountFingerprint p.username res.contact res.friend

def handleIdentity (g : Gate) (peer : Fingerprint) (now : UInt64) (bytes : Bytes) :
    Gate × List Notice × IdentityOutcome :=
  match Presentation.decode bytes with
  | .error _ => (g, [.error "malformed identity presentation"], .ignored)
  | .ok p =>
    match g.resolve S fingerprint peer now p with
    | none => (g, [.error "identity chain did not bind to peer"], .ignored)
    | some res =>
      if g.revoked fingerprint res.accountFingerprint p.chain then
        (g, [.error "peer presented a revoked device"], .ignored)
      else if !g.access.admits res.accountFingerprint res.contact res.friend then
        (g, [.error ("rejected non-member account " ++ shortHex6 res.accountFingerprint)], .rejected)
      else
        match g.unmet fingerprint res p.chain with
        | some text => (g.seen res, [.error text], .rejected)
        | none => (g.seen res, [identified peer p res], .allowed)

/-- The group host's handler: also whether the peer is recorded as admitted. -/
def handleGroupMemberIdentity (g : Gate) (peer : Fingerprint) (now : UInt64) (bytes : Bytes) :
    Gate × List Notice × Bool :=
  match Presentation.decode bytes with
  | .error _ => (g, [], false)
  | .ok p =>
    match g.resolve S fingerprint peer now p with
    | none => (g, [], false)
    | some res =>
      if g.revoked fingerprint res.accountFingerprint p.chain then
        (g, [.error "group joiner presented a revoked device"], false)
      else (g.seen res, [identified peer p res], g.access.admits res.accountFingerprint res.contact res.friend)

def presented (g : Gate) (peer : Fingerprint) (now : UInt64) (bytes : Bytes) : Option IdentityChain := do
  let p ← (Presentation.decode bytes).toOption
  let _ ← g.resolve S fingerprint peer now p
  pure p.chain

/-- The access policy admits the account of a chain, and the account revoked none of its links. -/
def admitsChain (g : Gate) (chain : IdentityChain) : Bool :=
  match chain.links.head? with
  | none => false
  | some link =>
    g.access.admits (fingerprint link.issuer) (g.contacts.isContact link.issuer) (g.contacts.isFriend link.issuer) &&
      !g.revoked fingerprint (fingerprint link.issuer) chain

variable {S fingerprint}
variable {g : Gate} {peer : Fingerprint} {now : UInt64} {bytes : Bytes}

theorem resolve_eq_some {p : Presentation} {res : Resolved} (h : g.resolve S fingerprint peer now p = some res) :
    ∃ link leaf, p.chain.links.head? = some link ∧ p.chain.leaf = some leaf ∧ fingerprint leaf = peer ∧
      p.chain.verify S link.issuer leaf now = .ok () ∧ res = {
        account := link.issuer
        accountFingerprint := fingerprint link.issuer
        leafFingerprint := peer
        contact := g.contacts.isContact link.issuer
        friend := g.contacts.isFriend link.issuer } := by
  simp only [resolve, resolveChain, Option.bind_eq_bind, Option.bind_eq_some_iff] at h
  obtain ⟨leaf, hleaf, h⟩ := h
  split at h
  · cases h
  · next hpeer =>
    obtain ⟨account, haccount, h⟩ := Option.bind_eq_some_iff.mp h
    obtain ⟨link, hlink, rfl⟩ := Option.map_eq_some_iff.mp haccount
    split at h
    · next hverify =>
      cases h
      refine ⟨link, leaf, hlink, hleaf, not_not.mp hpeer, ?_, by rw [not_not.mp hpeer]⟩
      cases hres : p.chain.verify S link.issuer leaf now with
      | ok => rfl
      | error e =>
        rw [hres] at hverify
        cases hverify
    · cases h

/-- What the pairwise handler does: it reports an error, or the peer presented an account that the policy admits and
the predicate decides. -/
theorem handleIdentity_cases (S : Scheme) (fingerprint : IdentityPublic → Fingerprint) (g : Gate)
    (peer : Fingerprint) (now : UInt64) (bytes : Bytes) :
    (∃ text outcome, outcome ≠ .allowed ∧
      g.handleIdentity S fingerprint peer now bytes = (g, [.error text], outcome)) ∨
    ∃ p res, Presentation.decode bytes = .ok p ∧ g.resolve S fingerprint peer now p = some res ∧
      g.revoked fingerprint res.accountFingerprint p.chain = false ∧
      g.access.admits res.accountFingerprint res.contact res.friend = true ∧
      ((∃ text, g.unmet fingerprint res p.chain = some text ∧
        g.handleIdentity S fingerprint peer now bytes = (g.seen res, [.error text], .rejected)) ∨
      g.unmet fingerprint res p.chain = none ∧
        g.handleIdentity S fingerprint peer now bytes = (g.seen res, [identified peer p res], .allowed)) := by
  rw [handleIdentity]
  cases hp : Presentation.decode bytes with
  | error e => exact .inl ⟨_, _, by decide, rfl⟩
  | ok p =>
    dsimp only
    cases hres : g.resolve S fingerprint peer now p with
    | none => exact .inl ⟨_, _, by decide, rfl⟩
    | some res =>
      dsimp only
      cases hrev : g.revoked fingerprint res.accountFingerprint p.chain with
      | true => exact .inl ⟨_, _, by decide, if_pos rfl⟩
      | false =>
        rw [if_neg Bool.false_ne_true]
        cases hadm : g.access.admits res.accountFingerprint res.contact res.friend with
        | false => exact .inl ⟨_, _, by decide, if_pos rfl⟩
        | true =>
          rw [if_neg (by decide)]
          refine .inr ⟨p, res, rfl, hres, hrev, hadm, ?_⟩
          cases hmet : g.unmet fingerprint res p.chain with
          | some text => exact .inl ⟨text, rfl, rfl⟩
          | none => exact .inr ⟨rfl, rfl⟩

theorem allowed_iff : (g.handleIdentity S fingerprint peer now bytes).2.2 = .allowed ↔
    ∃ p res, Presentation.decode bytes = .ok p ∧ g.resolve S fingerprint peer now p = some res ∧
      g.revoked fingerprint res.accountFingerprint p.chain = false ∧
      g.access.admits res.accountFingerprint res.contact res.friend = true ∧
      g.unmet fingerprint res p.chain = none := by
  constructor
  · intro h
    obtain ⟨text, outcome, hne, heq⟩ | ⟨p, res, hp, hres, hrev, hadm, ⟨text, -, heq⟩ | ⟨hmet, -⟩⟩ :=
      handleIdentity_cases S fingerprint g peer now bytes
    · rw [heq] at h
      exact absurd h hne
    · rw [heq] at h
      cases h
    · exact ⟨p, res, hp, hres, hrev, hadm, hmet⟩
  · rintro ⟨p, res, hp, hres, hrev, hadm, hmet⟩
    simp [handleIdentity, hp, hres, hrev, hadm, hmet]

theorem handleIdentity_frame (S : Scheme) (fingerprint : IdentityPublic → Fingerprint) (g : Gate)
    (peer : Fingerprint) (now : UInt64) (bytes : Bytes) :
    (∃ seenAccounts, (g.handleIdentity S fingerprint peer now bytes).1 = { g with seenAccounts }) ∧
    ∀ sender channel text marking,
      .message sender channel text marking ∉ (g.handleIdentity S fingerprint peer now bytes).2.1 := by
  obtain ⟨text, outcome, -, heq⟩ | ⟨p, res, -, -, -, -, ⟨text, -, heq⟩ | ⟨-, heq⟩⟩ :=
    handleIdentity_cases S fingerprint g peer now bytes
  · rw [heq]
    exact ⟨⟨_, rfl⟩, by simp⟩
  · rw [heq]
    exact ⟨⟨_, rfl⟩, by simp⟩
  · rw [heq]
    exact ⟨⟨_, rfl⟩, by simp [identified]⟩

theorem presented_of_allowed (h : (g.handleIdentity S fingerprint peer now bytes).2.2 = .allowed) :
    ∃ chain, g.presented S fingerprint peer now bytes = some chain ∧ g.admitsChain fingerprint chain = true := by
  obtain ⟨p, res, hp, hres, hrev, hadm, -⟩ := allowed_iff.mp h
  refine ⟨p.chain, by simp [presented, hp, hres, Except.toOption], ?_⟩
  obtain ⟨link, leaf, hlink, -, -, -, rfl⟩ := resolve_eq_some hres
  rw [admitsChain, hlink]
  dsimp only
  rw [hadm, hrev]
  rfl

/-- Where the two handlers differ: whom the group host admits, the pairwise handler lets in if the predicate is
met. -/
theorem admitted_iff : (g.handleGroupMemberIdentity S fingerprint peer now bytes).2.2 = true ↔
    ∃ p res, Presentation.decode bytes = .ok p ∧ g.resolve S fingerprint peer now p = some res ∧
      g.revoked fingerprint res.accountFingerprint p.chain = false ∧
      g.access.admits res.accountFingerprint res.contact res.friend = true := by
  rw [handleGroupMemberIdentity]
  cases hp : Presentation.decode bytes with
  | error e => simp
  | ok p =>
    cases hres : g.resolve S fingerprint peer now p with
    | none => simp [hres]
    | some res =>
      cases hrev : g.revoked fingerprint res.accountFingerprint p.chain <;> simp [hres, hrev]

end Gate

/-! ## The group host -/

variable {S : Scheme}

structure Host (S : Scheme) where
  gate : Gate
  node : Inner S
  notices : List Notice
  /-- The peers that presented an identity which the pairwise handler would have let in. -/
  cleared : List Fingerprint

namespace Host

inductive Act (S : Scheme) where
  | identity (peer : Fingerprint) (now : UInt64) (bytes : Bytes)
  | keyPackage (peer : Fingerprint) (bytes : Bytes) (r : RekeyCoins S)
  | call (c : GateCall)

/-- The founder's node, directly connected or behind a relay. -/
def new (gate : Gate) (relayed : Bool) (me : Fingerprint) (messagePadding : Option Nat) (group : Group S) : Host S where
  gate := gate
  node := { Inner.founder me messagePadding group with relayed }
  notices := []
  cleared := []

section
variable (fingerprint : IdentityPublic → Fingerprint)

/-- The arm for identities, which is there for direct connections only. -/
def onIdentity (h : Host S) (peer : Fingerprint) (now : UInt64) (bytes : Bytes) : Host S :=
  if h.node.relayed then h
  else
    let (gate, notices, admitted) := h.gate.handleGroupMemberIdentity S fingerprint peer now bytes
    { h with
      gate
      node := if admitted then { h.node with admittedPeers := peer :: h.node.admittedPeers } else h.node
      notices := h.notices ++ notices }

def step (h : Host S) : Act S → Host S
  | .identity peer now bytes =>
    { h.onIdentity fingerprint peer now bytes with
      cleared :=
        if (h.gate.handleIdentity S fingerprint peer now bytes).2.2 = .allowed then peer :: h.cleared else h.cleared }
  | .keyPackage peer bytes r =>
    { h with node := { h.node with accessOpen := h.gate.access.isOpen }.handleKeyPackage r peer bytes }
  | .call c => { h with gate := h.gate.call S fingerprint c }

def AddsLeaf (h : Host S) (a : Act S) : Prop :=
  ∃ leaf, h.node.isOccupied leaf = false ∧ (h.step fingerprint a).node.isOccupied leaf = true

/-- Whoever is added has met the rule of the pairwise handler, which is waived under an open policy without a
predicate. -/
def Lawful (h : Host S) : Act S → Prop
  | .keyPackage peer bytes r =>
    h.AddsLeaf fingerprint (.keyPackage peer bytes r) → h.gate.waived = true ∨ peer ∈ h.cleared
  | _ => True

/-- No predicate is set; or members are added under a restricted policy only, and the accounts that it admits meet the
predicate. -/
def Honours (h : Host S) : Act S → Prop
  | .identity peer now bytes => h.gate.accessPredicate = none ∨
    ∀ p res, Presentation.decode bytes = .ok p → h.gate.resolve S fingerprint peer now p = some res →
      h.gate.access.admits res.accountFingerprint res.contact res.friend = true →
      h.gate.unmet fingerprint res p.chain = none
  | .keyPackage .. => h.gate.accessPredicate = none ∨ h.gate.access.isOpen = false
  | .call _ => True

end

variable {fingerprint : IdentityPublic → Fingerprint} {h : Host S}

variable {peer : Fingerprint} {bytes : Bytes}

theorem admits_of_addsLeaf {r : RekeyCoins S} (hadd : h.AddsLeaf fingerprint (.keyPackage peer bytes r)) :
    h.gate.access.isOpen = true ∨ peer ∈ h.node.admittedPeers := by
  obtain ⟨leaf, hfree, htaken⟩ := hadd
  obtain ⟨events, heq⟩ | ⟨g, kp, -, hadm, -⟩ :=
    Inner.handleKeyPackage_cases { h.node with accessOpen := h.gate.access.isOpen } r peer bytes
  · -- nothing but a report
    have hgroup : (h.step fingerprint (.keyPackage peer bytes r)).node.group = h.node.group := by
      rw [step, heq]
    rw [Inner.isOccupied, hgroup] at htaken
    rw [Inner.isOccupied, htaken] at hfree
    cases hfree
  · rw [Inner.admits, Bool.or_eq_true, List.contains_iff_mem] at hadm
    exact hadm

theorem admittedPeers_keyPackage (peer : Fingerprint) (bytes : Bytes) (r : RekeyCoins S) :
    (h.step fingerprint (.keyPackage peer bytes r)).node.admittedPeers = h.node.admittedPeers := by
  rw [step]
  obtain ⟨events, heq⟩ | ⟨g, kp, -, -, -, ⟨g', f, -, heq⟩ | ⟨g', leaf, commit, welcome, sent, -, heq⟩⟩ :=
    Inner.handleKeyPackage_cases { h.node with accessOpen := h.gate.access.isOpen } r peer bytes
  · rw [heq]
  · rw [heq]
  · rw [heq]

theorem admittedPeers_onIdentity {q : Fingerprint} {now : UInt64}
    (hq : q ∈ (h.onIdentity fingerprint peer now bytes).node.admittedPeers) :
    q ∈ h.node.admittedPeers ∨
      q = peer ∧ (h.gate.handleGroupMemberIdentity S fingerprint peer now bytes).2.2 = true := by
  rw [onIdentity] at hq
  split at hq
  · exact .inl hq
  · dsimp only at hq
    split at hq
    · next hadm =>
      rcases List.mem_cons.mp hq with rfl | hq
      · exact .inr ⟨rfl, hadm⟩
      · exact .inl hq
    · exact .inl hq

theorem allowed_of_admitted {now : UInt64} (hh : h.Honours fingerprint (.identity peer now bytes))
    (hadm : (h.gate.handleGroupMemberIdentity S fingerprint peer now bytes).2.2 = true) :
    (h.gate.handleIdentity S fingerprint peer now bytes).2.2 = .allowed := by
  obtain ⟨p, res, hp, hres, hrev, hpolicy⟩ := Gate.admitted_iff.mp hadm
  refine Gate.allowed_iff.mpr ⟨p, res, hp, hres, hrev, hpolicy, ?_⟩
  rcases hh with hnone | hmet
  · rw [Gate.unmet, hnone]
  · exact hmet p res hp hres hpolicy

theorem admitted_cleared_step (hinv : ∀ q ∈ h.node.admittedPeers, q ∈ h.cleared) {a : Act S}
    (hh : h.Honours fingerprint a) :
    ∀ q ∈ (h.step fingerprint a).node.admittedPeers, q ∈ (h.step fingerprint a).cleared := by
  cases a with
  | identity peer now bytes =>
    intro q hq
    rcases admittedPeers_onIdentity hq with hold | ⟨rfl, hadm⟩
    · rw [step]
      dsimp only
      split
      · exact List.mem_cons_of_mem _ (hinv q hold)
      · exact hinv q hold
    · rw [step]
      dsimp only
      rw [if_pos (allowed_of_admitted hh hadm)]
      exact List.mem_cons_self
  | keyPackage peer bytes r =>
    rw [admittedPeers_keyPackage]
    exact hinv
  | call c => exact hinv

theorem lawful_of_honours (hinv : ∀ q ∈ h.node.admittedPeers, q ∈ h.cleared) {a : Act S}
    (hh : h.Honours fingerprint a) : h.Lawful fingerprint a := by
  cases a with
  | identity => trivial
  | call => trivial
  | keyPackage peer bytes r =>
    intro hadd
    rcases admits_of_addsLeaf hadd with hopen | hadmitted
    · rcases hh with hnone | hrestricted
      · left
        rw [Gate.waived, hopen, hnone]
        rfl
      · rw [hopen] at hrestricted
        cases hrestricted
    · exact .inr (hinv peer hadmitted)

/-- In every run that meets the condition, all that are added have met the pairwise rule. -/
theorem members_cleared (gate : Gate) (relayed : Bool) (me : Fingerprint) (messagePadding : Option Nat)
    (group : Group S) (acts : List (Act S))
    (hrun : Run.Along (step fingerprint) (Honours fingerprint) (new gate relayed me messagePadding group) acts) :
    Run.Along (step fingerprint) (Lawful fingerprint) (new gate relayed me messagePadding group) acts :=
  hrun.of_invariant (I := fun h => ∀ q ∈ h.node.admittedPeers, q ∈ h.cleared)
    (fun _ _ hinv hh => admitted_cleared_step hinv hh) (fun _ _ hinv hh => lawful_of_honours hinv hh)
    (List.forall_mem_nil _)

def linkedHost (access : AccessPolicy) : Host Scheme.plain :=
  new ⟨access, some (.linkedToAccount hostFp), [], ∅, ∅⟩ false hostFp none
    (.createWithSig .pqPure (100 : UInt8) (10 : UInt8))

def phonePresentation : Presentation := ⟨IdentityChain.phoneChain, none⟩

def phoneJoins : Act Scheme.plain := .keyPackage peerFp (packageBytes 20 101) (World.plainCoins 11)

/-- A phone of the account presents itself and joins. -/
theorem members_cleared_phone :
    let acts := [.identity peerFp 1000 phonePresentation.encode, phoneJoins]
    let h := ((linkedHost (.accounts {hostFp})).step Env.plain.fingerprint
      (.identity peerFp 1000 phonePresentation.encode))
    h.AddsLeaf Env.plain.fingerprint phoneJoins ∧
      Run.Along (step Env.plain.fingerprint) (Lawful Env.plain.fingerprint) (linkedHost (.accounts {hostFp})) acts := by
  refine ⟨⟨1, by decide +kernel, by decide +kernel⟩, members_cleared _ _ _ _ _ _ ⟨.inr ?_, .inr ?_, trivial⟩⟩
  · intro p res hp hres hadm
    have hdecode : Presentation.decode phonePresentation.encode = .ok phonePresentation := by decide +kernel
    rw [hdecode] at hp
    cases hp
    obtain ⟨link, leaf, hlink, -, -, -, rfl⟩ := Gate.resolve_eq_some hres
    cases hlink
    decide +kernel
  · decide +kernel

/-- Under an open policy a key package is enough, whatever the predicate. -/
theorem member_without_proof :
    let h := linkedHost .everyone
    h.AddsLeaf Env.plain.fingerprint phoneJoins ∧ ¬ h.Lawful Env.plain.fingerprint phoneJoins := by
  have hadd : (linkedHost .everyone).AddsLeaf Env.plain.fingerprint phoneJoins :=
    ⟨1, by decide +kernel, by decide +kernel⟩
  refine ⟨hadd, fun hlawful => ?_⟩
  rcases hlawful hadd with hwaived | hcleared
  · cases hwaived
  · cases hcleared

end Host
end Talkrypt.Core
