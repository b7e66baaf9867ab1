import Talkrypt.Core.LeafAccounts
import Talkrypt.Core.Names

/-!
# Revoked keys

An account revokes the key of a device or segment. Four handlers look at chains of certificates: for identities of
pairwise peers and of joining members, for name presences, and for the certificates of leaf keys. Three of them refuse a
chain with a revoked link; that for presences looks at the last link only.
-/

namespace Talkrypt.Core
open TreeKem Account

variable {S : Scheme}

/-- A node with all that the four handlers read and write. -/
structure Desk (S : Scheme) where
  /-- The group side, which also holds the revocations. -/
  node : Inner S
  access : AccessPolicy
  accessPredicate : Option Predicate
  contacts : ContactStore
  seenAccounts : Table Fingerprint IdentityPublic
  cache : NameCache
  /-- The reader loops by stream: the peer, and whether it is approved. -/
  loops : Table Nat (Fingerprint × Bool)
  notices : List Notice

namespace Desk

inductive Event (S : Scheme) where
  | connect (k : Nat) (peer : Fingerprint)
  | identity (k : Nat) (now : UInt64) (bytes : Bytes)
  /-- A presence arrives, in a frame or in a group message. -/
  | presence (attributed : Fingerprint) (now : UInt64) (bytes : Bytes)
  | nameTag (sender : Fingerprint) (tag : Bytes)
  | gate (c : GateCall)
  /-- Any other call or frame, certificates of leaf keys and revocations among them. -/
  | node (c : Call S)

def gate (d : Desk S) : Gate where
  access := d.access
  accessPredicate := d.accessPredicate
  contacts := d.contacts
  revocations := d.node.revocations
  seenAccounts := d.seenAccounts

def setGate (d : Desk S) (g : Gate) : Desk S :=
  { d with
    node := { d.node with revocations := g.revocations, accessOpen := g.access.isOpen }
    access := g.access
    contacts := g.contacts
    seenAccounts := g.seenAccounts }

section
variable (E : Env S) (ctx : Gid)

/-- What the loop of a pairwise peer does after `handle_identity`. -/
def settle (d : Desk S) (k : Nat) (peer : Fingerprint) : Gate × List Notice × IdentityOutcome → Desk S
  | (g, notices, .allowed) => { d.setGate g with loops := d.loops.insert k (peer, true), notices := d.notices ++ notices }
  | (g, notices, .ignored) => { d.setGate g with notices := d.notices ++ notices }
  | (g, notices, .rejected) => { d.setGate g with loops := d.loops.erase k, notices := d.notices ++ notices }

/-- What a host does with the identity of a member that joins. -/
def settleMember (d : Desk S) (peer : Fingerprint) : Gate × List Notice × Bool → Desk S
  | (g, notices, true) =>
    let d' := { d.setGate g with notices := d.notices ++ notices }
    { d' with node := { d'.node with admittedPeers := peer :: d'.node.admittedPeers } }
  | (g, notices, false) => { d.setGate g with notices := d.notices ++ notices }

def onIdentity (d : Desk S) (k : Nat) (peer : Fingerprint) (now : UInt64) (bytes : Bytes) : Desk S :=
  if d.node.role = .none then d.settle k peer (d.gate.handleIdentity S E.fingerprint peer now bytes)
  else if d.node.role = .host ∧ d.node.relayed = false then
    d.settleMember peer (d.gate.handleGroupMemberIdentity S E.fingerprint peer now bytes)
  else d

def step (d : Desk S) : Event S → Desk S
  | .connect k peer => { d with loops := d.loops.insert k (peer, d.gate.waived) }
  | .identity k now bytes =>
    match d.loops.lookup k with
    | none => d
    | some (peer, _) => d.onIdentity E k peer now bytes
  | .presence attributed now bytes =>
    { d with cache := d.cache.handlePresence S E.fingerprint d.node.revocations ctx attributed now bytes }
  | .nameTag sender tag => { d with cache := d.cache.reconcileNameTag E.sha256 ctx sender tag }
  | .gate c => d.setGate (d.gate.call S E.fingerprint c)
  | .node c => { d with node := E.step d.node c }

def run (d : Desk S) (evs : List (Event S)) : Desk S := evs.foldl (step E ctx) d

end

def Event.chain : Event S → Option IdentityChain
  | .identity _ _ bytes => (Presentation.decode bytes).toOption.map (·.chain)
  | .presence _ _ bytes =>
    match NamePresence.decode bytes with
    | .ok (.linked _ presentation _ _) => some presentation.chain
    | _ => none
  | .node ⟨.frame _ (.leafSigCert bytes), _, _⟩ => (IdentityChain.decode bytes).toOption
  | _ => none

def Event.Revokes (r : Revocation) : Event S → Prop
  | .gate (.addRevocation r') => r' = r
  | .node ⟨.addRevocation r', _, _⟩ => r' = r
  | .node ⟨.frame _ (.revocation bytes), _, _⟩ => Revocation.decode bytes = .ok r
  | _ => False

section
variable (fingerprint : IdentityPublic → Fingerprint)

/-- The chain is rooted at the account and some link certifies the key. -/
def Certifies (account : IdentityPublic) (subjectFp : Fingerprint) (chain : IdentityChain) : Prop :=
  chain.links.head?.map (·.issuer) = some account ∧ ∃ l ∈ chain.links, fingerprint l.cert.subject = subjectFp

/-- A presence with a revoked link has a revoked device key at its end. -/
def EndRevoked (d : Desk S) : Event S → Prop
  | .presence _ _ bytes => ∀ seq presentation context sig account leaf,
    NamePresence.decode bytes = .ok (.linked seq presentation context sig) →
    presentation.chain.links.head?.map (·.issuer) = some account → presentation.chain.leaf = some leaf →
    d.node.hasRevoked fingerprint (fingerprint account) presentation.chain = true →
    (fingerprint account, fingerprint leaf) ∈ d.node.revocations
  | _ => True

end

/-- What makes a peer approved, named, a member or verified: the loops, the names, the admitted peers, the group with
its roster, and the accounts of the leaves. -/
structure Standing (S : Scheme) where
  loops : Nat → Option (Fingerprint × Bool)
  names : Table Fingerprint NameRecord
  admittedPeers : List Fingerprint
  group : Option (Group S)
  roster : Table Nat Fingerprint
  accounts : Table Nat Fingerprint

def standing (d : Desk S) : Standing S where
  loops k := d.loops.lookup k
  names := d.cache.names
  admittedPeers := d.node.admittedPeers
  group := d.node.group
  roster := d.node.roster
  accounts := d.node.verifiedLeafAccounts

variable {E : Env S} {ctx : Gid} {d : Desk S} {chain : IdentityChain} {account : IdentityPublic} {subjectFp : Fingerprint}

/-! ## Revocations stay -/

theorem Gate.subset_call (g : Gate) (c : GateCall) : g.revocations ⊆ (g.call S E.fingerprint c).revocations := by
  cases c with
  | addRevocation r =>
    rw [Gate.call, Gate.addRevocation]
    split
    · exact Finset.subset_insert ..
    · exact Finset.Subset.refl _
  | _ => exact Finset.Subset.refl _

theorem subset_nodeStep (i : Inner S) (c : Call S) : i.revocations ⊆ (E.step i c).revocations := by
  have h := E.step_effect i c
  generalize E.step i c = i' at h
  generalize c.input = input at h
  cases h with
  | regroups h | manages _ h | posts h | heard _ h => exact (congrArg Inner.revocations h :).superset
  | revokes h => exact h
  | _ => exact Finset.Subset.refl _

theorem Gate.revocations_identity (g : Gate) (peer : Fingerprint) (now : UInt64) (bytes : Bytes) :
    (g.handleIdentity S E.fingerprint peer now bytes).1.revocations = g.revocations := by
  obtain ⟨⟨_, h⟩, -⟩ := Gate.handleIdentity_frame S E.fingerprint g peer now bytes
  rw [h]

theorem Gate.revocations_memberIdentity (g : Gate) (peer : Fingerprint) (now : UInt64) (bytes : Bytes) :
    (g.handleGroupMemberIdentity S E.fingerprint peer now bytes).1.revocations = g.revocations := by
  unfold Gate.handleGroupMemberIdentity
  split
  · rfl
  · split
    · rfl
    · split <;> rfl

theorem revocations_settle (d : Desk S) (k : Nat) (peer : Fingerprint) (r : Gate × List Notice × IdentityOutcome) :
    (d.settle k peer r).node.revocations = r.1.revocations := by
  obtain ⟨g, notices, outcome⟩ := r
  cases outcome <;> rfl

theorem revocations_settleMember (d : Desk S) (peer : Fingerprint) (r : Gate × List Notice × Bool) :
    (d.settleMember peer r).node.revocations = r.1.revocations := by
  obtain ⟨g, notices, admitted⟩ := r
  cases admitted <;> rfl

theorem revocations_onIdentity (d : Desk S) (k : Nat) (peer : Fingerprint) (now : UInt64) (bytes : Bytes) :
    (d.onIdentity E k peer now bytes).node.revocations = d.node.revocations := by
  unfold onIdentity
  split
  · exact (revocations_settle ..).trans (Gate.revocations_identity d.gate peer now bytes)
  · split
    · exact (revocations_settleMember ..).trans (Gate.revocations_memberIdentity d.gate peer now bytes)
    · rfl

theorem subset_step (d : Desk S) (ev : Event S) : d.node.revocations ⊆ (d.step E ctx ev).node.revocations := by
  cases ev with
  | identity k now bytes =>
    rw [step]
    split
    · exact Finset.Subset.refl _
    · exact (revocations_onIdentity ..).superset
  | gate c => exact Gate.subset_call d.gate c
  | node c => exact subset_nodeStep d.node c
  | _ => exact Finset.Subset.refl _

theorem mem_of_revokes {r : Revocation} (hr : (r.verify S).isOk = true) {ev : Event S} (h : ev.Revokes r) :
    (E.fingerprint r.account, r.subjectFp) ∈ (d.step E ctx ev).node.revocations := by
  cases ev with
  | gate c =>
    cases c with
    | addRevocation r' =>
      obtain rfl : r' = r := h
      show _ ∈ (Gate.addRevocation S E.fingerprint d.gate r').revocations
      rw [Gate.addRevocation, if_pos hr]
      exact Finset.mem_insert_self ..
    | _ => exact h.elim
  | node c =>
    obtain ⟨input, draws, now⟩ := c
    have hadd (i : Inner S) : (E.fingerprint r.account, r.subjectFp) ∈ (i.addRevocation E.fingerprint r).revocations := by
      rw [Inner.addRevocation, if_pos hr]
      exact Finset.mem_insert_self ..
    cases input with
    | addRevocation r' =>
      obtain rfl : r' = r := h
      exact hadd d.node
    | frame peer f =>
      cases f with
      | revocation bytes =>
        have hdecode : Revocation.decode bytes = .ok r := h
        show _ ∈ (E.receive d.node draws now peer (.revocation bytes)).revocations
        rw [Env.receive, hdecode]
        exact hadd d.node
      | _ => exact h.elim
    | _ => exact h.elim
  | _ => exact h.elim

theorem subset_run (d : Desk S) (evs : List (Event S)) : d.node.revocations ⊆ (d.run E ctx evs).node.revocations := by
  induction evs generalizing d with
  | nil => exact Finset.Subset.refl _
  | cons ev evs ih => exact (subset_step d ev).trans (ih (d.step E ctx ev))

theorem mem_of_run (d : Desk S) (ctx : Gid) {r : Revocation} (hr : (r.verify S).isOk = true) {ev : Event S} (h : ev.Revokes r) {evs : List (Event S)}
    (hmem : ev ∈ evs) : (E.fingerprint r.account, r.subjectFp) ∈ (d.run E ctx evs).node.revocations := by
  obtain ⟨pre, post, rfl⟩ := List.append_of_mem hmem
  rw [run, List.foldl_append, List.foldl_cons]
  exact subset_run _ post (mem_of_revokes hr h)

/-! ## What a revoked link does -/

theorem hasRevoked_of_certifies (h : Certifies E.fingerprint account subjectFp chain)
    (hrev : (E.fingerprint account, subjectFp) ∈ d.node.revocations) :
    d.node.hasRevoked E.fingerprint (E.fingerprint account) chain = true := by
  obtain ⟨-, l, hl, hfp⟩ := h
  rw [Inner.hasRevoked, List.any_eq_true]
  exact ⟨l, hl, decide_eq_true (hfp ▸ hrev)⟩

section
variable (hroot : chain.links.head?.map (·.issuer) = some account)
  (hrev : d.node.hasRevoked E.fingerprint (E.fingerprint account) chain = true)
include hroot hrev

variable {p : Presentation} {bytes : Bytes}

theorem revoked_of_resolve {peer : Fingerprint} {now : UInt64} {res : Resolved} (hchain : p.chain = chain)
    (hres : d.gate.resolve S E.fingerprint peer now p = some res) :
    d.gate.revoked E.fingerprint res.accountFingerprint p.chain = true := by
  obtain ⟨link, leaf, hlink, -, -, -, rfl⟩ := Gate.resolve_eq_some hres
  rw [hchain] at hlink ⊢
  rw [hlink] at hroot
  obtain rfl : link.issuer = account := Option.some.inj hroot
  exact hrev

theorem standing_identity (k : Nat) (now : UInt64) (hp : Presentation.decode bytes = .ok p)
    (hchain : p.chain = chain) : (d.step E ctx (.identity k now bytes)).standing = d.standing := by
  rw [step]
  split
  · rfl
  · next peer _ _ =>
    unfold onIdentity
    split
    · have hid : ∃ notices, d.gate.handleIdentity S E.fingerprint peer now bytes = (d.gate, notices, .ignored) := by
        rw [Gate.handleIdentity, hp]
        dsimp only
        split
        · exact ⟨_, rfl⟩
        · next res hres => exact ⟨_, if_pos (revoked_of_resolve hroot hrev hchain hres)⟩
      obtain ⟨notices, hid⟩ := hid
      rw [hid]
      rfl
    · split
      · have hid : ∃ notices, d.gate.handleGroupMemberIdentity S E.fingerprint peer now bytes = (d.gate, notices, false) := by
          rw [Gate.handleGroupMemberIdentity, hp]
          dsimp only
          split
          · exact ⟨_, rfl⟩
          · next res hres => exact ⟨_, if_pos (revoked_of_resolve hroot hrev hchain hres)⟩
        obtain ⟨notices, hid⟩ := hid
        rw [hid]
        rfl
      · rfl

theorem standing_leafSigCert (peer : Fingerprint) (draws : Draws S) (now : UInt64)
    (hchain : IdentityChain.decode bytes = .ok chain) :
    (d.step E ctx (.node ⟨.frame peer (.leafSigCert bytes), draws, now⟩)).standing = d.standing := by
  have hcheck (i : Inner S) (hi : i.revocations = d.node.revocations) : i.checkLeafSigCert E.fingerprint now bytes = none := by
    simp only [Inner.checkLeafSigCert, hchain, Except.toOption, Option.bind_eq_bind, Option.bind_some, hroot]
    cases chain.leaf with
    | none => rfl
    | some leaf =>
      refine if_neg fun h => ?_
      have : i.hasRevoked E.fingerprint (E.fingerprint account) chain = true := by
        rw [Inner.hasRevoked, hi]
        exact hrev
      rw [this] at h
      cases h.2
  show (({ d with node := E.receive d.node draws now peer (.leafSigCert bytes) } : Desk S)).standing = _
  rw [Env.receive]
  split
  · rw [Inner.handleLeafSigCert]
    split
    · rfl
    · next i hrecord =>
      obtain ⟨seen, rfl⟩ := Inner.record_eq_some hrecord
      rw [hcheck { d.node with seen } rfl]
      rfl
  · rfl

theorem standing_presence (attributed : Fingerprint) (now : UInt64) {seq : UInt64} {context : Gid} {sig : Bytes}
    (hp : NamePresence.decode bytes = .ok (.linked seq p context sig)) (hchain : p.chain = chain)
    (hend : d.EndRevoked E.fingerprint (.presence attributed now bytes)) :
    (d.step E ctx (.presence attributed now bytes)).standing = d.standing := by
  have hread : NameCache.readPresence S E.fingerprint d.node.revocations ctx attributed now bytes = none := by
    rw [NameCache.readPresence, hp]
    dsimp only
    rw [Option.map_eq_none_iff, Option.eq_none_iff_forall_ne_some]
    intro v hv
    obtain ⟨v', hverify, hv⟩ := Option.bind_eq_some_iff.mp hv
    obtain ⟨leaf, account', label, hleaf, haccount, -, -, rfl⟩ := NamePresence.verifyLinked_eq_some S E.fingerprint hverify
    subst hchain
    obtain rfl : account' = account := Option.some.inj (haccount.symm.trans hroot)
    have hmem := hend seq p context sig account' leaf hp hroot hleaf hrev
    dsimp only at hv
    simp only [hmem, if_true, ite_self] at hv
    cases hv
  show (({ d with cache := _ } : Desk S)).standing = _
  rw [NameCache.handlePresence, hread]

end

/-- **Lockout.** In every run in which a presence with a revoked link has a revoked device key at its end: after a valid
revocation was recorded, no identity, presence or certificate of a leaf key whose chain is rooted at the account and
certifies the key, at any position, changes who is approved, named, a member or verified. -/
theorem revoked_locked_out (E : Env S) (ctx : Gid) (d : Desk S) (evs : List (Event S))
    (h : Run.Along (step E ctx) (EndRevoked E.fingerprint) d evs) {r : Revocation} (hr : (r.verify S).isOk = true)
    {pre post : List (Event S)} {ev ev' : Event S} {chain : IdentityChain} (hevs : evs = pre ++ ev :: post)
    (hrevoked : ev' ∈ pre) (hrevokes : ev'.Revokes r) (hchain : ev.chain = some chain)
    (hcert : Certifies E.fingerprint r.account r.subjectFp chain) :
    ((d.run E ctx pre).step E ctx ev).standing = (d.run E ctx pre).standing := by
  subst hevs
  have hend : (d.run E ctx pre).EndRevoked E.fingerprint ev := (Run.along_append.mp h).2.1
  have hrev := hasRevoked_of_certifies hcert (mem_of_run d ctx hr hrevokes hrevoked)
  generalize d.run E ctx pre = d₁ at hend hrev
  cases ev with
  | identity k now bytes =>
    obtain ⟨p, hp, rfl⟩ := Option.map_eq_some_iff.mp hchain
    exact standing_identity hcert.1 hrev k now (except_eq_ok_of_toOption hp) rfl
  | presence attributed now bytes =>
    dsimp only [Event.chain] at hchain
    split at hchain
    · next seq p context sig hp => exact standing_presence hcert.1 hrev attributed now hp (Option.some.inj hchain) hend
    · cases hchain
  | node c =>
    obtain ⟨input, draws, now⟩ := c
    cases input with
    | frame peer f =>
      cases f with
      | leafSigCert bytes =>
        exact standing_leafSigCert hcert.1 hrev peer draws now (except_eq_ok_of_toOption hchain)
      | _ => cases hchain
    | _ => cases hchain
  | _ => cases hchain

/-! ## A phone and its session key -/

namespace Sample

def context : Gid := padArr 32 [7]

def start : Desk Scheme.plain where
  node := { plainHost with role := .none }
  access := .everyone
  accessPredicate := none
  contacts := []
  seenAccounts := ∅
  cache := {}
  loops := ∅
  notices := []

def revocation (subject : UInt8) : Revocation := ⟨⟨[3]⟩, padArr 48 [subject], 5, [3]⟩

def revoke (subject : UInt8) : Event Scheme.plain := .gate (.addRevocation (revocation subject))

/-- The key 101 at the end of the chain from the account 3 over the device 2 announces a name. -/
def announce : Event Scheme.plain := .presence hostFp 900
  (NamePresence.announce Scheme.plain 1 Env.badgeChain "fox" context (101 : UInt8)).encode

theorem revoked_locked_out_leaf :
    ((start.run Env.plain context [revoke 101]).step Env.plain context announce).standing =
      (start.run Env.plain context [revoke 101]).standing := by
  have hdecode : NamePresence.decode (NamePresence.announce Scheme.plain 1 Env.badgeChain "fox" context (101 : UInt8)).encode =
      .ok (.linked 1 ⟨Env.badgeChain, some "fox"⟩ context [101]) := by decide +kernel
  refine revoked_locked_out Env.plain context start [revoke 101, announce] ⟨trivial, ?_, trivial⟩
    (show ((revocation 101).verify Scheme.plain).isOk = true from rfl)
    (show [revoke 101, announce] = [revoke 101] ++ announce :: [] from rfl)
    (show revoke 101 ∈ [revoke 101] from List.mem_singleton.mpr rfl) rfl (show announce.chain = some Env.badgeChain from ?_)
    ⟨rfl, ⟨⟨[2]⟩, Env.leafCert, [2]⟩, by decide, rfl⟩
  · rintro seq p ctx sig account leaf hp hroot hleaf -
    rw [hdecode] at hp
    cases hp
    cases hroot
    cases hleaf
    decide +kernel
  · simp only [announce, Event.chain, hdecode]

/-- With the device revoked, the key that it certified is still taken for a name of the account. -/
theorem revoked_device_named :
    (start.run Env.plain context [revoke 2]).cache.names.lookup (padArr 48 [101]) = none ∧
    (start.run Env.plain context [revoke 2, announce]).cache.names.lookup (padArr 48 [101]) =
      some ⟨"fox", .linked, 1, some (padArr 48 [3])⟩ ∧
    Event.chain announce = some Env.badgeChain ∧ Certifies Env.plain.fingerprint ⟨[3]⟩ (padArr 48 [2]) Env.badgeChain := by
  refine ⟨by decide +kernel, by decide +kernel, by decide +kernel, rfl, ⟨⟨[3]⟩, Env.deviceCert, [3]⟩, by decide, rfl⟩

end Sample
end Desk
end Talkrypt.Core
