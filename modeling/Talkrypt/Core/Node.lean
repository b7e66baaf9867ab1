import Talkrypt.Core.Gossip
import Talkrypt.Crypto.TreeKem.Agreement

/-!
# An engine node (`crates/core/src/engine.rs`)

The promotion handlers put together, the dispatch of received frames, and the transition function of a
node over received frames and local calls. `Regroups` is the footprint of the membership handlers,
`Floods` that of the flood handlers.
-/

namespace Talkrypt.Core
open TreeKem Account

variable {S : Scheme}

/-- The draws and the iteration orders that one call may use: several re-keys in a row, each with its
hint. -/
structure Draws (S : Scheme) where
  coins : Nat → RekeyCoins S
  hints : Nat → Nat
  newSig : S.SigSeed

namespace Inner

/-! ## Promotion -/

def evict (i : Inner S) (d : Draws S) : Nat → List Fingerprint → Inner S
  | _, [] => i
  | n, fp :: fps => (i.removeMember (d.coins n) (d.hints n) fp).evict d (n + 1) fps

section Promotion
variable (sha256 : Bytes → Gid)

/-- Announce the commit, apply the retention contract, evict who is not carried, re-key, and turn
persistence on. -/
def commitPromotion (i : Inner S) (d : Draws S) (promoteId : Gid) (carried : List Fingerprint) : Inner S :=
  let (retentionMode, carryFromSecs) := i.retentionContract
  let i := (i.announce promoteId).applyRetention retentionMode carryFromSecs
  let gone := i.toRemove carried
  ((i.evict d 0 gone).selfUpdate (d.coins gone.length) d.newSig).settle promoteId

/-- Propose a promotion; a host mandate commits at once. -/
def proposePromote (i : Inner S) (d : Draws S) (targetTier retentionMode consentRule : UInt8)
    (picked : List Fingerprint) (onion : String) (carryFromSecs : Nat) : Inner S :=
  match i.draftPromote targetTier retentionMode consentRule picked onion carryFromSecs with
  | none => i
  | some (body, payload) =>
    let i := i.openPromote body payload
    if consentRule = 2 then i.commitPromotion d (body.id sha256) (mandateCarried picked i.roster i.me) else i

/-- Tally a consent, then commit or abort by the consent rule. -/
def handleConsent (i : Inner S) (d : Draws S) (payload : Bytes) : Inner S :=
  match i.checkConsent payload with
  | none => i
  | some cb =>
    match i.tallied sha256 cb with
    | none => i
    | some st =>
      let i := { i with promote := some st }
      match promotionDecision st i.roster i.me with
      | .commit carried => i.commitPromotion d (st.body.id sha256) carried
      | .abort => i.abortPromote sha256
      | .wait => i

end Promotion
end Inner

/-! ## Steps -/

inductive Input (S : Scheme) where
  | frame (peer : Fingerprint) (frame : Frame S)
  | removeMember (fp : Fingerprint)
  | selfUpdate
  | sendMarked (text : String) (marking : Option Marking) (nameTag : Option (ByteArr 8))
  | proposePromote (targetTier retentionMode consentRule : UInt8) (picked : List Fingerprint)
      (onion : String) (carryFromSecs : UInt64)
  | respondPromote (promoteId : Gid) (accept : Bool)
  | setPersistence (on : Bool)
  | purgeHistory
  | addRevocation (r : Revocation)
  /-- The connections and the relaying settings change. -/
  | setLinks (connected : List Fingerprint) (gossip keeperEnabled : Bool)
  /-- The access policy changes, or peers present accounts that it admits. -/
  | setAccess (isOpen : Bool) (admitted : List Fingerprint)

/-- The input may write the slot of the pending promotion or the retained messages. -/
def Input.isPromotion : Input S → Bool
  | .frame _ (.promote _) | .frame _ (.consent _) | .frame _ (.promoteCommit _) => true
  | .proposePromote .. | .respondPromote .. | .setPersistence _ | .purgeHistory => true
  | _ => false

/-- An input with the draws and the clock of its processing. -/
structure Call (S : Scheme) where
  input : Input S
  draws : Draws S
  now : UInt64

/-- The hash functions and the message cryptography of a node. -/
structure Env (S : Scheme) where
  messaging : Messaging S
  sha256 : Bytes → Gid
  fingerprint : IdentityPublic → Fingerprint

namespace Env
variable (E : Env S)

/-- The dispatch of a received frame by the node's role. -/
def receive (i : Inner S) (d : Draws S) (now : UInt64) (peer : Fingerprint) : Frame S → Inner S
  | .keyPackage bytes => if i.role = .host then i.handleKeyPackage (d.coins 0) peer bytes else i
  | .welcome welcome => if i.role = .member then i.handleWelcome welcome else i
  | .commit fromEpoch commit => if i.role = .member then i.handleCommit fromEpoch commit else i
  | .updateProposal bytes =>
    if i.role = .host then i.handleUpdateProposal (d.coins 0) (d.hints 0) peer bytes else i
  | .roster epoch entries sig => if i.role = .member then i.handleRoster epoch entries sig else i
  | .promote payload => if i.role ≠ .none then i.handlePromote E.sha256 peer payload else i
  | .consent payload => if i.role = .host then i.handleConsent E.sha256 d payload else i
  | .promoteCommit payload => if i.role = .member then i.handlePromoteCommit E.sha256 payload else i
  | .groupMsg gct => i.handleGroupMsg E.messaging E.sha256 now peer gct
  | .deliveryAck ids => { i with events := i.events ++ ids.map .delivered }
  | .routeDescriptor bytes => i.handleRouteDescriptor E.sha256 E.fingerprint peer bytes
  | .leafSigCert bytes =>
    if i.role ≠ .none then i.handleLeafSigCert E.sha256 E.fingerprint now (d.hints 0) peer bytes else i
  | .revocation bytes =>
    match Revocation.decode bytes with
    | .error _ => i
    | .ok r => i.addRevocation E.fingerprint r

def step (i : Inner S) (c : Call S) : Inner S :=
  match c.input with
  | .frame peer frame => E.receive i c.draws c.now peer frame
  | .removeMember fp => i.removeMember (c.draws.coins 0) (c.draws.hints 0) fp
  | .selfUpdate => i.selfUpdate (c.draws.coins 0) c.draws.newSig
  | .sendMarked text marking nameTag => i.sendMarked E.messaging E.sha256 c.now text marking nameTag
  | .proposePromote tier mode rule picked onion carryFrom =>
    i.proposePromote E.sha256 c.draws tier mode rule picked onion carryFrom.toNat
  | .respondPromote promoteId accept => i.respondPromote E.sha256 promoteId accept
  | .setPersistence on => i.setPersistence on
  | .purgeHistory => i.purgeHistory
  | .addRevocation r => i.addRevocation E.fingerprint r
  | .setLinks connected gossip keeperEnabled => { i with connected, gossip, keeperEnabled }
  | .setAccess isOpen admitted => { i with accessOpen := isOpen, admittedPeers := admitted }

def run (i : Inner S) (calls : List (Call S)) : Inner S := calls.foldl E.step i

end Env

/-! ## Footprints -/

namespace Inner

def ungrouped (i : Inner S) : Inner S :=
  { i with group := none, leafKeypair := none, pendingCommits := ∅, roster := ∅, lastRosterEpoch := 0, sent := []
           events := [] }

def unpromoted (i : Inner S) : Inner S := { i with promote := none, persistent := false, backlog := [], history := ∅ }

/-- The node without what sending and receiving messages writes. -/
def unmessaged (i : Inner S) : Inner S :=
  { i with group := none, backlog := [], history := ∅, sent := [], events := [], kept := [], queued := [], handed := [] }

def Regroups (i i' : Inner S) : Prop := i'.ungrouped = i.ungrouped

def Manages (i i' : Inner S) : Prop := i'.ungrouped.unpromoted = i.ungrouped.unpromoted

def Messages (i i' : Inner S) : Prop := i'.unmessaged = i.unmessaged

namespace Regroups

theorem keyPackage (i : Inner S) (r : RekeyCoins S) (peer : Fingerprint) (bytes : Bytes) :
    Regroups i (i.handleKeyPackage r peer bytes) := by
  rcases handleKeyPackage_cases i r peer bytes with
    ⟨_, h⟩ | ⟨_, _, -, -, -, ⟨_, _, -, h⟩ | ⟨_, _, _, _, _, -, h⟩⟩ <;> rw [h] <;> rfl

theorem removeMember (i : Inner S) (r : RekeyCoins S) (hint : Nat) (fp : Fingerprint) :
    Regroups i (i.removeMember r hint fp) := by
  by_cases hrole : i.role = .host
  · rcases removeMember_cases hrole r hint fp with
      ⟨h, -⟩ | ⟨_, _, -, -, ⟨_, _, -, h⟩ | ⟨_, _, _, -, h⟩⟩ <;> rw [h] <;> rfl
  · rw [Inner.removeMember, if_pos hrole]
    rfl

theorem updateProposal (i : Inner S) (r : RekeyCoins S) (hint : Nat) (peer : Fingerprint) (bytes : Bytes) :
    Regroups i (i.handleUpdateProposal r hint peer bytes) := by
  rcases handleUpdateProposal_cases i r hint peer bytes with h | ⟨_, _, _, _, _, -, -, -, h⟩ <;> rw [h] <;> rfl

theorem selfUpdate (i : Inner S) (r : RekeyCoins S) (newSig : S.SigSeed) :
    Regroups i (i.selfUpdate r newSig) := by
  unfold Inner.selfUpdate
  split
  · rfl
  · rfl
  all_goals split <;> rfl

theorem welcome (i : Inner S) (w : Option (Welcome S)) : Regroups i (i.handleWelcome w) := by
  unfold handleWelcome
  split
  · rfl
  · dsimp only
    split
    · rfl
    · split
      · rfl
      · split <;> rfl

theorem commit (i : Inner S) (fromEpoch : Nat) (c : Option (Commit S)) :
    Regroups i (i.handleCommit fromEpoch c) := by
  unfold handleCommit
  dsimp only
  split <;> rfl

theorem roster (i : Inner S) (epoch : Nat) (entries : List (Nat × Fingerprint)) (sig : Bytes) :
    Regroups i (i.handleRoster epoch entries sig) := by
  unfold handleRoster
  split
  · rfl
  · split <;> rfl

theorem evict (i : Inner S) (d : Draws S) (n : Nat) (fps : List Fingerprint) :
    Regroups i (i.evict d n fps) := by
  induction fps generalizing i n with
  | nil => rfl
  | cons fp fps ih => exact (ih _ _).trans (removeMember i (d.coins n) (d.hints n) fp)

theorem announce (i : Inner S) (promoteId : Gid) : Regroups i (i.announce promoteId) := by
  unfold Inner.announce
  split
  · rfl
  · split <;> rfl

end Regroups

namespace Messages
variable {sha256 : Bytes → Gid} {M : Messaging S} {i : Inner S}

theorem recordBacklog (i : Inner S) (gid : Gid) (record : Bytes) (ts : Nat) :
    Messages i (i.recordBacklog gid record ts) := by
  unfold Inner.recordBacklog Messages unmessaged
  split
  · rfl
  · dsimp only
    split <;> rfl

theorem note (i : Inner S) (now : UInt64) (sender : Fingerprint) (gid : Gid) (text : String)
    (marking : Option Marking) : Messages i (i.note now sender gid text marking) :=
  recordBacklog i gid _ _

theorem display (i : Inner S) (peer sender : Fingerprint) (gid : Gid) (text : String)
    (marking : Option Marking) (nameTag : Option (ByteArr 8)) :
    Messages i (i.display peer sender gid text marking nameTag) := by
  unfold Inner.display
  cases nameTag <;> dsimp only <;> split <;> rfl

theorem surface (i : Inner S) (now : UInt64) (peer : Fingerprint) (gct pt : Bytes) :
    Messages i (i.surface sha256 now peer gct pt) := by
  unfold Inner.surface
  dsimp only
  split
  · rfl
  split
  · rfl
  split
  · rfl
  split
  · rfl
  · exact (display _ peer _ _ _ _ _).trans (note i now _ _ _ _)

theorem groupMsg (i : Inner S) (now : UInt64) (peer : Fingerprint) (gct : Bytes) :
    ∃ seen, Messages { i with seen } (i.handleGroupMsg M sha256 now peer gct) := by
  unfold handleGroupMsg
  split
  · exact ⟨i.seen, rfl⟩
  · next i₁ hrecord =>
    obtain ⟨seen, rfl⟩ := record_eq_some hrecord
    refine ⟨seen, ?_⟩
    split
    · rfl
    · split
      · rfl
      · next g pt _ =>
        have hsurface : Messages _ ({ i with seen, group := some g }.surface sha256 now peer gct pt) := surface ..
        refine Eq.trans ?_ hsurface
        unfold Inner.keepForOffline Inner.reflood
        split <;> split <;> rfl

theorem sendMarked (i : Inner S) (now : UInt64) (text : String) (marking : Option Marking)
    (nameTag : Option (ByteArr 8)) : Messages i (i.sendMarked M sha256 now text marking nameTag) := by
  unfold Inner.sendMarked
  split
  · rfl
  · rfl
  · split
    · rfl
    · next g ct _ =>
      refine Eq.trans ?_ (note { i with group := some g } now i.me (sha256 ct) text marking)
      unfold Inner.post
      dsimp only
      split <;> rfl

end Messages

section Gossip
variable (sha256 : Bytes → Gid) (fingerprint : IdentityPublic → Fingerprint)

theorem handleRouteDescriptor_eq (i : Inner S) (peer : Fingerprint) (bytes : Bytes) :
    ∃ seen knownRoutes sent,
      i.handleRouteDescriptor sha256 fingerprint peer bytes = { i with seen, knownRoutes, sent } := by
  unfold handleRouteDescriptor
  split
  · exact ⟨_, _, _, rfl⟩
  · next i₁ hrecord =>
    obtain ⟨seen, rfl⟩ := record_eq_some hrecord
    split
    · exact ⟨_, _, _, rfl⟩
    split
    · split
      · split
        · exact ⟨_, _, _, rfl⟩
        · next i₂ hstore =>
          obtain ⟨knownRoutes, rfl⟩ := storeRoutes_eq_some hstore
          obtain ⟨sent, h⟩ := reflood_eq { i with seen, knownRoutes } peer (.routeDescriptor bytes)
          exact ⟨_, _, _, h⟩
      · exact ⟨_, _, _, rfl⟩
    · exact ⟨_, _, _, rfl⟩

theorem handleLeafSigCert_eq (i : Inner S) (now : UInt64) (hint : Nat) (peer : Fingerprint) (bytes : Bytes) :
    ∃ seen verifiedLeafAccounts sent, i.handleLeafSigCert sha256 fingerprint now hint peer bytes =
      { i with seen, verifiedLeafAccounts, sent } := by
  unfold handleLeafSigCert
  split
  · exact ⟨_, _, _, rfl⟩
  · next i₁ hrecord =>
    obtain ⟨seen, rfl⟩ := record_eq_some hrecord
    split
    · exact ⟨_, _, _, rfl⟩
    · dsimp only
      split
      · split <;> exact ⟨_, _, _, rfl⟩
      · split
        · exact ⟨_, _, _, rfl⟩
        · split <;> exact ⟨_, _, _, rfl⟩

theorem addRevocation_eq (i : Inner S) (r : Revocation) :
    ∃ revocations, i.revocations ⊆ revocations ∧ i.addRevocation fingerprint r = { i with revocations } := by
  unfold addRevocation
  split
  · exact ⟨_, Finset.subset_insert .., rfl⟩
  · exact ⟨_, Finset.Subset.refl _, rfl⟩

end Gossip

namespace Manages

theorem applyRetention (i : Inner S) (mode : UInt8) (carryFrom : Nat) : Manages i (i.applyRetention mode carryFrom) := by
  unfold Manages ungrouped unpromoted
  rfl

theorem settle (i : Inner S) (promoteId : Gid) : Manages i (i.settle promoteId) := by
  unfold Manages ungrouped unpromoted
  rfl

theorem commitPromotion (i : Inner S) (d : Draws S) (promoteId : Gid) (carried : List Fingerprint) :
    Manages i (i.commitPromotion d promoteId carried) := by
  have of_regroups {i i' : Inner S} (h : Regroups i i') : Manages i i' := congrArg unpromoted h
  unfold Inner.commitPromotion
  generalize i.retentionContract = contract
  dsimp only
  refine (settle _ promoteId).trans ((of_regroups (.selfUpdate ..)).trans ((of_regroups (.evict ..)).trans ?_))
  exact (applyRetention ..).trans (of_regroups (.announce ..))

variable (sha256 : Bytes → Gid)

theorem proposePromote (i : Inner S) (d : Draws S) (tier mode rule : UInt8) (picked : List Fingerprint)
    (onion : String) (carryFrom : Nat) :
    Manages i (i.proposePromote sha256 d tier mode rule picked onion carryFrom) := by
  unfold Inner.proposePromote
  split
  · rfl
  · next body payload _ =>
    dsimp only
    split
    · exact commitPromotion (i.openPromote body payload) _ _ _
    · rfl

theorem promote (i : Inner S) (peer : Fingerprint) (payload : Bytes) :
    Manages i (i.handlePromote sha256 peer payload) := by
  unfold handlePromote
  split <;> rfl

theorem respondPromote (i : Inner S) (promoteId : Gid) (accept : Bool) :
    Manages i (i.respondPromote sha256 promoteId accept) := by
  unfold Inner.respondPromote
  split <;> rfl

theorem consent (i : Inner S) (d : Draws S) (payload : Bytes) :
    Manages i (i.handleConsent sha256 d payload) := by
  unfold handleConsent
  split
  · rfl
  · split
    · rfl
    · next st _ =>
      dsimp only
      split
      · exact commitPromotion { i with promote := some st } _ _ _
      · rfl
      · rfl

theorem promoteCommit (i : Inner S) (payload : Bytes) :
    Manages i (i.handlePromoteCommit sha256 payload) := by
  unfold handlePromoteCommit
  split
  · rfl
  · split <;> rfl

end Manages

inductive Effect (i : Inner S) : Input S → Inner S → Prop
  | regroups {input : Input S} {i' : Inner S} (h : Regroups i i') : Effect i input i'
  | manages {input : Input S} {i' : Inner S} (hinput : input.isPromotion = true) (h : Manages i i') : Effect i input i'
  | posts {text : String} {marking : Option Marking} {nameTag : Option (ByteArr 8)} {i' : Inner S} (h : Messages i i') :
    Effect i (.sendMarked text marking nameTag) i'
  | heard {peer : Fingerprint} {gct : Bytes} {i' : Inner S} (seen : SeenSet) (h : Messages { i with seen } i') :
    Effect i (.frame peer (.groupMsg gct)) i'
  | routes {peer : Fingerprint} {bytes : Bytes} (seen : SeenSet)
    (knownRoutes : Table Fingerprint (UInt64 × List String)) (sent : List (Frame S × Route)) :
    Effect i (.frame peer (.routeDescriptor bytes)) { i with seen, knownRoutes, sent }
  | accounts {peer : Fingerprint} {bytes : Bytes} (seen : SeenSet)
    (verifiedLeafAccounts : Table Nat Fingerprint) (sent : List (Frame S × Route)) :
    Effect i (.frame peer (.leafSigCert bytes)) { i with seen, verifiedLeafAccounts, sent }
  | revokes {input : Input S} {revocations : Finset (Fingerprint × Fingerprint)} (h : i.revocations ⊆ revocations) :
    Effect i input { i with revocations }
  | links (connected : List Fingerprint) (gossip keeperEnabled : Bool) :
    Effect i (.setLinks connected gossip keeperEnabled) { i with connected, gossip, keeperEnabled }
  | access (isOpen : Bool) (admitted : List Fingerprint) :
    Effect i (.setAccess isOpen admitted) { i with accessOpen := isOpen, admittedPeers := admitted }

end Inner

namespace Env
variable (E : Env S)

theorem receive_effect (i : Inner S) (d : Draws S) (now : UInt64) (peer : Fingerprint) (f : Frame S) :
    Inner.Effect i (.frame peer f) (E.receive i d now peer f) := by
  have handled {input : Input S} {p : Prop} [Decidable p] {i' : Inner S} (h : Inner.Effect i input i') :
      Inner.Effect i input (if p then i' else i) := by
    split
    · exact h
    · exact .regroups rfl
  cases f with
  | keyPackage => exact handled (.regroups (.keyPackage ..))
  | welcome => exact handled (.regroups (.welcome ..))
  | commit => exact handled (.regroups (.commit ..))
  | updateProposal => exact handled (.regroups (.updateProposal ..))
  | roster => exact handled (.regroups (.roster ..))
  | promote => exact handled (.manages rfl (.promote ..))
  | consent => exact handled (.manages rfl (.consent ..))
  | promoteCommit => exact handled (.manages rfl (.promoteCommit ..))
  | groupMsg gct =>
    obtain ⟨seen, h⟩ := Inner.Messages.groupMsg i now peer gct
    exact .heard seen h
  | deliveryAck ids => exact .regroups rfl
  | routeDescriptor bytes =>
    obtain ⟨seen, knownRoutes, sent, h⟩ := i.handleRouteDescriptor_eq E.sha256 E.fingerprint peer bytes
    rw [receive, h]
    exact .routes ..
  | leafSigCert bytes =>
    obtain ⟨seen, accounts, sent, h⟩ := i.handleLeafSigCert_eq E.sha256 E.fingerprint now (d.hints 0) peer bytes
    rw [receive, h]
    exact handled (.accounts ..)
  | revocation bytes =>
    rw [receive]
    split
    · exact .regroups rfl
    · next r _ =>
      obtain ⟨revocations, hsub, h⟩ := i.addRevocation_eq E.fingerprint r
      rw [h]
      exact .revokes hsub

theorem step_effect (i : Inner S) (c : Call S) : Inner.Effect i c.input (E.step i c) := by
  obtain ⟨input, d, now⟩ := c
  cases input with
  | frame peer f => exact receive_effect E i d now peer f
  | removeMember fp => exact .regroups (.removeMember ..)
  | selfUpdate => exact .regroups (.selfUpdate ..)
  | sendMarked => exact .posts (.sendMarked ..)
  | proposePromote => exact .manages rfl (.proposePromote ..)
  | respondPromote => exact .manages rfl (.respondPromote ..)
  | setPersistence on => exact .manages rfl (by cases on <;> rfl)
  | purgeHistory => exact .manages rfl rfl
  | addRevocation r =>
    obtain ⟨revocations, hsub, h⟩ := i.addRevocation_eq E.fingerprint r
    simp only [step, h]
    exact .revokes hsub
  | setLinks => exact .links ..
  | setAccess => exact .access ..

theorem role_step (i : Inner S) (c : Call S) : (E.step i c).role = i.role := by
  have h := E.step_effect i c
  generalize E.step i c = i' at h
  generalize c.input = input at h
  cases h with
  | regroups h | manages _ h | posts h | heard _ h => exact (congrArg Inner.role h :)
  | _ => rfl

end Env

/-! ## A small group to run -/

def padArr (n : Nat) (b : Bytes) : ByteArr n := ⟨(b ++ List.replicate n 0).take n, by simp⟩

def Env.plain : Env Scheme.plain where
  messaging := .plain
  sha256 := padArr 32
  fingerprint pk := padArr 48 pk.sigVk

/-- The same environment, with signatures that verify only if they are in the log. -/
def Env.logged (E : Env S) (log : List (IdentityPublic × Bytes)) : Env (S.logged log) where
  messaging := ⟨E.messaging.kdfCk, E.messaging.aeadSeal, E.messaging.aeadOpen⟩
  sha256 := E.sha256
  fingerprint := E.fingerprint

def hostFp : Fingerprint := padArr 48 [1]
def peerFp : Fingerprint := padArr 48 [2]

/-- The founder's node, with leaf secret 10 and signing key 100. -/
def plainHost : Inner Scheme.plain := .founder hostFp none (.createWithSig .pqPure (100 : UInt8) (10 : UInt8))

/-- The bytes of a key package with this leaf secret and signing key. -/
def packageBytes (secret sig : UInt8) : Bytes := (TreeKem.World.plainKeys secret sig).keyPackage.encode

def plainCall (input : Input Scheme.plain) (fresh : UInt8) : Call Scheme.plain where
  input := input
  draws := { coins := fun n => TreeKem.World.plainCoins (fresh + UInt8.ofNat n), hints := fun _ => 0
             newSig := (200 : UInt8) }
  now := 1000

def plainWelcome : Option (Welcome Scheme.plain) :=
  let g : Group Scheme.plain := .createWithSig .pqPure (100 : UInt8) (10 : UInt8)
  match (g.add (TreeKem.World.plainCoins 11) (TreeKem.World.plainKeys 20 101).keyPackage).2 with
  | .ok (_, _, w) => some w
  | .error _ => none

def plainPeer : Inner Scheme.plain := .joiner peerFp none (TreeKem.World.plainKeys 20 101)

def welcomeCall : Call Scheme.plain := plainCall (.frame hostFp (.welcome plainWelcome)) 12

/-- The peer joins at leaf 1, with leaf secret 20 and signing key 101. -/
def joinCall : Call Scheme.plain := plainCall (.frame peerFp (.keyPackage (packageBytes 20 101))) 11

/-! The same group with signatures that verify only if they are in a log. -/

section Logged
variable (log : List (IdentityPublic × Bytes))

def loggedEnv : Env (Scheme.plain.logged log) := Env.plain.logged log

def loggedHost : Inner (Scheme.plain.logged log) :=
  .founder hostFp none (.createWithSig .pqPure (100 : UInt8) (10 : UInt8))

def loggedKeys (secret sig : UInt8) : LeafKeyPair (Scheme.plain.logged log) := ⟨.pqPure, secret, sig⟩

def loggedCoins (fresh : UInt8) : RekeyCoins (Scheme.plain.logged log) := ⟨fresh, fun _ _ => ()⟩

def loggedCall (input : Input (Scheme.plain.logged log)) (fresh : UInt8) : Call (Scheme.plain.logged log) where
  input := input
  draws := { coins := fun n => loggedCoins log (fresh + UInt8.ofNat n), hints := fun _ => 0
             newSig := (200 : UInt8) }
  now := 1000

/-- A peer joins with this leaf secret and signing key. -/
def loggedJoin (peer : Fingerprint) (secret sig fresh : UInt8) : Call (Scheme.plain.logged log) :=
  loggedCall log (.frame peer (.keyPackage (loggedKeys log secret sig).keyPackage.encode)) fresh

end Logged

end Talkrypt.Core
