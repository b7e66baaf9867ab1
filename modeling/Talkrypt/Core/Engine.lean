import Talkrypt.Core.Marking
import Talkrypt.Core.Seen
import Talkrypt.Crypto.TreeKem.Host

/-!
# The group side of an engine node (`crates/core/src/engine.rs`)

`Inner` has the shared state that the group handlers read and write. A handler with an `await` between
two lock sections is split at that point, and its sections carry their own names; the functions of the
code are their compositions. Frames and events that a node puts out are appended to `sent` and `events`.

The order in which a `HashMap` is iterated is not fixed, so where the code takes the first entry that
matches, `hint` names the one that it meets first. Commits and Welcomes travel decoded: `none` stands for
bytes that do not decode.
-/

namespace Talkrypt.Core
open TreeKem

variable {S : Scheme}

/-! ## Frames and events -/

inductive GroupRole where
  | none
  | host
  | member
deriving DecidableEq, Repr

inductive Route where
  | broadcast
  | peer (fp : Fingerprint)
  | committer
deriving DecidableEq

inductive Frame (S : Scheme) where
  | keyPackage (bytes : Bytes)
  | welcome (welcome : Option (Welcome S))
  /-- A membership commit, tagged with the epoch that it applies to. -/
  | commit (fromEpoch : Nat) (commit : Option (Commit S))
  | updateProposal (bytes : Bytes)
  | roster (epoch : Nat) (entries : List (Nat × Fingerprint)) (sig : Bytes)
  | promote (payload : Bytes)
  | consent (payload : Bytes)
  | promoteCommit (payload : Bytes)
  | groupMsg (bytes : Bytes)
  | deliveryAck (gossipIds : List Gid)
  | routeDescriptor (bytes : Bytes)
  | leafSigCert (bytes : Bytes)
  | revocation (bytes : Bytes)

inductive Event where
  | error (text : String)
  | message (sender : Fingerprint) (channel text : String) (marking : Option Marking)
  | promoteProposed (proposer : Fingerprint) (promoteId : Gid) (targetTier retentionMode : UInt8)
      (picked : List Fingerprint)
  | promoted (promoteId : Gid)
  | promoteAborted (promoteId : Gid)
  | delivered (gossipId : Gid)
deriving DecidableEq

/-- Payloads that a node passes on to its naming and vouching layers. -/
inductive Handed where
  | presence (bytes : Bytes)
  | linkage (bytes : Bytes)
  | vouch (bytes : Bytes)
  | nameTag (tag : ByteArr 8)
deriving DecidableEq

def ROSTER_CONTEXT : Bytes := utf8 "talkrypt-roster-v1"

def rosterTranscript (epoch : Nat) (entries : List (Nat × Fingerprint)) : Bytes :=
  putBytes ROSTER_CONTEXT ++ putU32 epoch ++ putU32 entries.length ++
    entries.flatMap fun e => putU32 e.1 ++ putBytes e.2.1

def hexByte (b : UInt8) : List Char :=
  ["0123456789abcdef".toList.getD (b.toNat / 16) '0', "0123456789abcdef".toList.getD (b.toNat % 16) '0']

def shortHex6 (fp : Fingerprint) : String := String.ofList ((fp.1.take 6).flatMap hexByte)

def WireError.display : WireError → String
  | .unexpectedEof needed had =>
    "unexpected end of input: needed " ++ toString needed ++ " more bytes, had " ++ toString had
  | .frameTooLarge len max =>
    "length prefix " ++ toString len ++ " exceeds MAX_FRAME (" ++ toString max ++ ")"
  | .trailingBytes n => "trailing bytes remain after decode: " ++ toString n

def CryptoError.display : CryptoError → String
  | .decryptionFailed => "decryption failed"
  | .malformed what => "malformed crypto material: " ++ what
  | .badSignature => "signature verification failed"
  | .tooManySkipped max => "too many skipped messages (max " ++ toString max ++ ")"
  | .wire e => "wire error: " ++ WireError.display e

/-! ## State -/

/-- The shared state of an engine node, as far as the group handlers use it. -/
structure Inner (S : Scheme) where
  role : GroupRole
  me : Fingerprint
  messagePadding : Option Nat
  group : Option (Group S)
  /-- A member's key pair for the Welcome that it waits for. -/
  leafKeypair : Option (LeafKeyPair S)
  pendingCommits : Table Nat (Option (Commit S))
  roster : Table Nat Fingerprint
  lastRosterEpoch : Nat
  accessOpen : Bool
  /-- The peers that presented an account which the access policy admits. -/
  admittedPeers : List Fingerprint
  promote : Option PromoteState
  persistent : Bool
  backlog : List BacklogEntry
  history : Table Gid Bytes
  sent : List (Frame S × Route)
  events : List Event
  channel : String := ""
  relayed : Bool := false
  gossip : Bool := false
  keeperEnabled : Bool := false
  connected : List Fingerprint := []
  seen : SeenSet := .new
  /-- Endpoints by signer, with the time that they were issued. -/
  knownRoutes : Table Fingerprint (UInt64 × List String) := ∅
  verifiedLeafAccounts : Table Nat Fingerprint := ∅
  revocations : Finset (Fingerprint × Fingerprint) := ∅
  /-- Messages handed to the keeper queue: recipient, gossip id, ciphertext, time. -/
  kept : List (Fingerprint × Gid × Bytes × UInt64) := []
  queued : List (Gid × Bytes × UInt64) := []
  handed : List (Fingerprint × Handed) := []

namespace Inner

def founder (me : Fingerprint) (messagePadding : Option Nat) (group : Group S) : Inner S where
  role := .host
  me := me
  messagePadding := messagePadding
  group := some { group with padBucket := messagePadding.getD 0 }
  leafKeypair := none
  pendingCommits := ∅
  roster := (∅ : Table Nat Fingerprint).insert 0 me
  lastRosterEpoch := 0
  accessOpen := true
  admittedPeers := []
  promote := none
  persistent := false
  backlog := []
  history := ∅
  sent := []
  events := []

def joiner (me : Fingerprint) (messagePadding : Option Nat) (leafKeypair : LeafKeyPair S) : Inner S where
  role := .member
  me := me
  messagePadding := messagePadding
  group := none
  leafKeypair := some leafKeypair
  pendingCommits := ∅
  roster := ∅
  lastRosterEpoch := 0
  accessOpen := true
  admittedPeers := []
  promote := none
  persistent := false
  backlog := []
  history := ∅
  sent := []
  events := []

def route (i : Inner S) (frame : Frame S) (dest : Route) : Inner S :=
  { i with sent := i.sent ++ [(frame, dest)] }

def emit (i : Inner S) (event : Event) : Inner S := { i with events := i.events ++ [event] }

def isOccupied (i : Inner S) (l : Nat) : Bool := i.group.any (·.isOccupied l)

variable {i : Inner S}

theorem isOccupied_eq {g : Group S} (h : i.group = some g) (l : Nat) : i.isOccupied l = g.isOccupied l := by
  rw [isOccupied, h]
  rfl

/-! ## Membership, on the host -/

def findLeaf (i : Inner S) (hint : Nat) (fp : Fingerprint) : Option Nat :=
  if i.roster.lookup hint = some fp then some hint
  else (i.roster.toList.find? fun e => e.2 = fp).map (·.1)

def signedRosterFrame (i : Inner S) (entries : List (Nat × Fingerprint)) : Option (Frame S) := do
  let g ← i.group
  let sig ← g.signAsHost (rosterTranscript g.epoch entries)
  pure (.roster g.epoch entries sig)

/-- Sign a snapshot of the roster and send it to everyone. -/
def broadcastRoster (i : Inner S) : Inner S :=
  match i.signedRosterFrame i.roster.toList with
  | none => i
  | some frame => i.route frame .broadcast

theorem broadcastRoster_eq (i : Inner S) : ∃ sent, i.broadcastRoster = { i with sent := sent } := by
  unfold broadcastRoster
  split
  · exact ⟨i.sent, rfl⟩
  · exact ⟨_, rfl⟩

def admits (i : Inner S) (peer : Fingerprint) : Bool := i.accessOpen || i.admittedPeers.contains peer

/-- Admit a new member: add its leaf, send it a Welcome, send everyone the commit. -/
def handleKeyPackage (i : Inner S) (r : RekeyCoins S) (peer : Fingerprint) (bytes : Bytes) : Inner S :=
  if !i.admits peer then
    i.emit (.error ("refused group join from non-member " ++ shortHex6 peer))
  else match i.group with
    | none => i
    | some g =>
      match KeyPackage.decode S g.profile bytes with
      | .error _ => i
      | .ok kp =>
        match g.add r kp with
        | (g', .error _) => { i with group := some g' }
        | (g', .ok (leaf, commit, welcome)) =>
          ((({ i with group := some g', roster := i.roster.insert leaf peer }.route
            (.welcome (some welcome)) (.peer peer)).route
            (.commit g.epoch (some commit)) .broadcast).broadcastRoster)

theorem handleKeyPackage_cases (i : Inner S) (r : RekeyCoins S) (peer : Fingerprint) (bytes : Bytes) :
    (∃ events, i.handleKeyPackage r peer bytes = { i with events := events }) ∨
    ∃ g kp, i.group = some g ∧ i.admits peer = true ∧ KeyPackage.decode S g.profile bytes = .ok kp ∧
      ((∃ g' f, g.add r kp = (g', .error f) ∧ i.handleKeyPackage r peer bytes = { i with group := some g' }) ∨
      ∃ g' leaf commit welcome sent, g.add r kp = (g', .ok (leaf, commit, welcome)) ∧
        i.handleKeyPackage r peer bytes =
          { i with group := some g', roster := i.roster.insert leaf peer, sent := sent }) := by
  unfold handleKeyPackage
  cases hadmit : i.admits peer with
  | false => exact .inl ⟨_, rfl⟩
  | true =>
    simp only [Bool.not_true, Bool.false_eq_true, if_false]
    split
    · exact .inl ⟨i.events, rfl⟩
    · next g hg =>
      split
      · exact .inl ⟨i.events, rfl⟩
      · next kp hkp =>
        refine .inr ⟨g, kp, hg, trivial, hkp, ?_⟩
        split
        · next g' f hadd => exact .inl ⟨g', f, hadd, rfl⟩
        · next g' leaf commit welcome hadd =>
          obtain ⟨sent, hsent⟩ := broadcastRoster_eq ((({ i with
            group := some g', roster := i.roster.insert leaf peer } : Inner S).route
            (.welcome (some welcome)) (.peer peer)).route (.commit g.epoch (some commit)) .broadcast)
          exact .inr ⟨g', leaf, commit, welcome, sent, hadd, hsent⟩

/-- Remove a member by fingerprint. The code returns `Ok` on every path. -/
def removeMember (i : Inner S) (r : RekeyCoins S) (hint : Nat) (fp : Fingerprint) : Inner S :=
  if i.role ≠ .host then i
  else match i.findLeaf hint fp with
    | none => i
    | some leaf =>
      match i.group with
      | none => i
      | some g =>
        match g.remove r leaf with
        | (g', .error _) => { i with group := some g' }
        | (g', .ok commit) =>
          ({ i with group := some g', roster := i.roster.erase leaf }.route
            (.commit g.epoch (some commit)) .broadcast).broadcastRoster

theorem findLeaf_eq_some {hint leaf : Nat} {fp : Fingerprint} (h : i.findLeaf hint fp = some leaf) :
    i.roster.lookup leaf = some fp := by
  unfold findLeaf at h
  split at h
  · next hhint =>
    cases h
    exact hhint
  · obtain ⟨e, he, rfl⟩ := Option.map_eq_some_iff.mp h
    have hfp : e.2 = fp := by simpa using List.find?_some he
    exact hfp ▸ Table.mem_toList.mp (List.mem_of_find?_eq_some he)

theorem findLeaf_eq_none {hint : Nat} {fp : Fingerprint} (h : i.findLeaf hint fp = none) (leaf : Nat) :
    i.roster.lookup leaf ≠ some fp := by
  intro hleaf
  unfold findLeaf at h
  split at h
  · cases h
  · have hnone := List.find?_eq_none.mp (Option.map_eq_none_iff.mp h) _ (Table.mem_toList.mpr hleaf)
    exact hnone (decide_eq_true rfl)

/-- What a removal does on the host: nothing, a failed `remove`, or a leaf out of the tree and the
roster. -/
theorem removeMember_cases (hrole : i.role = .host) (r : RekeyCoins S) (hint : Nat) (fp : Fingerprint) :
    (i.removeMember r hint fp = i ∧ (i.group = none ∨ ∀ leaf, i.roster.lookup leaf ≠ some fp)) ∨
    ∃ g leaf, i.group = some g ∧ i.roster.lookup leaf = some fp ∧
      ((∃ g' e, g.remove r leaf = (g', .error e) ∧ i.removeMember r hint fp = { i with group := some g' }) ∨
      ∃ g' commit sent, g.remove r leaf = (g', .ok commit) ∧ i.removeMember r hint fp =
        { i with group := some g', roster := i.roster.erase leaf, sent := sent }) := by
  unfold removeMember
  rw [if_neg (by simp [hrole])]
  split
  · next hnone => exact .inl ⟨rfl, .inr (findLeaf_eq_none hnone)⟩
  · next leaf hleaf =>
    split
    · next hg => exact .inl ⟨rfl, .inl hg⟩
    · next g hg =>
      refine .inr ⟨g, leaf, hg, findLeaf_eq_some hleaf, ?_⟩
      split
      · next g' e hremove => exact .inl ⟨g', e, hremove, rfl⟩
      · next g' commit hremove =>
        obtain ⟨sent, hsent⟩ := broadcastRoster_eq (({ i with
          group := some g', roster := i.roster.erase leaf } : Inner S).route
          (.commit g.epoch (some commit)) .broadcast)
        exact .inr ⟨g', commit, sent, hremove, hsent⟩

/-- Commit a member's `Update` proposal against the leaf that its sender occupies. -/
def handleUpdateProposal (i : Inner S) (r : RekeyCoins S) (hint : Nat) (peer : Fingerprint)
    (bytes : Bytes) : Inner S :=
  match i.findLeaf hint peer with
  | none => i
  | some leaf =>
    match i.group with
    | none => i
    | some g =>
      match g.commitUpdate r leaf bytes with
      | (g', .error _) => { i with group := some g' }
      | (g', .ok commit) =>
        { i with group := some g' }.route (.commit g.epoch (some commit)) .broadcast

theorem handleUpdateProposal_cases (i : Inner S) (r : RekeyCoins S) (hint : Nat) (peer : Fingerprint)
    (bytes : Bytes) :
    i.handleUpdateProposal r hint peer bytes = i ∨
    ∃ g leaf g' res sent, i.group = some g ∧ i.roster.lookup leaf = some peer ∧
      (HostOp.commitUpdate leaf bytes).exec g r = (g', res) ∧
      i.handleUpdateProposal r hint peer bytes = { i with group := some g', sent := sent } := by
  unfold handleUpdateProposal
  split
  · exact .inl rfl
  · next leaf hleaf =>
    split
    · exact .inl rfl
    · next g hg =>
      have hlisted := findLeaf_eq_some hleaf
      split
      · next g' e hup =>
        exact .inr ⟨g, leaf, g', _, i.sent, hg, hlisted, by rw [HostOp.exec, hup]; rfl, rfl⟩
      · next g' commit hup =>
        exact .inr ⟨g, leaf, g', _, _, hg, hlisted, by rw [HostOp.exec, hup]; rfl, rfl⟩

/-- Rotate our own leaf: the host commits, a member proposes. -/
def selfUpdate (i : Inner S) (r : RekeyCoins S) (newSig : S.SigSeed) : Inner S :=
  match i.role, i.group with
  | .none, _ | _, none => i
  | .host, some g =>
    match g.update r newSig with
    | (g', .error _) => { i with group := some g' }
    | (g', .ok commit) => { i with group := some g' }.route (.commit g.epoch (some commit)) .broadcast
  | .member, some g =>
    match g.proposeUpdate r.fresh newSig with
    | (g', .error _) => { i with group := some g' }
    | (g', .ok bytes) => { i with group := some g' }.route (.updateProposal bytes) .committer

theorem selfUpdate_cases (hrole : i.role = .host) (r : RekeyCoins S) (newSig : S.SigSeed) :
    i.selfUpdate r newSig = i ∨
    ∃ g g' res sent, i.group = some g ∧ (HostOp.update newSig).exec g r = (g', res) ∧
      i.selfUpdate r newSig = { i with group := some g', sent := sent } := by
  unfold selfUpdate
  rw [hrole]
  cases hg : i.group with
  | none => exact .inl rfl
  | some g =>
    dsimp only
    split
    · next g' e hup => exact .inr ⟨g, g', _, i.sent, rfl, by rw [HostOp.exec, hup]; rfl, rfl⟩
    · next g' commit hup => exact .inr ⟨g, g', _, _, rfl, by rw [HostOp.exec, hup]; rfl, rfl⟩

/-! ## Membership, on a member -/

/-- Enter the group from a Welcome. The key pair is spent even if this fails. -/
def handleWelcome (i : Inner S) (welcome : Option (Welcome S)) : Inner S :=
  match i.leafKeypair with
  | none => i
  | some kp =>
    let i := { i with leafKeypair := none }
    match welcome with
    | none => i
    | some w =>
      match Group.joinWithWelcome kp w with
      | .error e => i.emit (.error ("welcome failed: " ++ CryptoError.display e))
      | .ok g =>
        match i.messagePadding with
        | none => { i with group := some g }
        | some step => { i with group := some { g with padBucket := step } }

/-- Apply the buffered commits in epoch order. Every turn takes one out of the buffer, so its size
bounds the turns. -/
def applyPending : Nat → Group S → Table Nat (Option (Commit S)) → Group S × Table Nat (Option (Commit S))
  | 0, g, pending => (g, pending)
  | turns + 1, g, pending =>
    -- drop what is already applied
    let pending := pending.eraseAll (pending.toList.filterMap fun e => if e.1 < g.epoch then some e.1 else none)
    match pending.lookup g.epoch with
    | none => (g, pending)
    | some none => (g, pending.erase g.epoch)
    | some (some commit) =>
      match g.applyCommit commit with
      | (g', .error _) => (g', pending.erase g.epoch)
      | (g', .ok ()) => applyPending turns g' (pending.erase g.epoch)

def handleCommit (i : Inner S) (fromEpoch : Nat) (commit : Option (Commit S)) : Inner S :=
  let pending := i.pendingCommits.insert fromEpoch commit
  match i.group with
  | none => { i with pendingCommits := pending }
  | some g =>
    let (g, pending) := applyPending (Table.toList pending).length g pending
    { i with group := some g, pendingCommits := pending }

/-- Accept a roster that the host signed and that is not older than the last one. -/
def handleRoster (i : Inner S) (epoch : Nat) (entries : List (Nat × Fingerprint)) (sig : Bytes) : Inner S :=
  match i.group with
  | none => i
  | some g =>
    if g.verifyHostSig (rosterTranscript epoch entries) sig ∧ i.lastRosterEpoch ≤ epoch then
      { i with lastRosterEpoch := epoch, roster := Table.insertAll ∅ entries }
    else i

/-! ## Retention -/

def purgeHistory (i : Inner S) : Inner S := { i with history := ∅, backlog := [] }

def setPersistence (i : Inner S) (on : Bool) : Inner S :=
  if on then { i with persistent := true } else { i with persistent := false }.purgeHistory

/-- Note a message that this node saw; a persistent chat also seals it. -/
def recordBacklog (i : Inner S) (gid : Gid) (record : Bytes) (ts : Nat) : Inner S :=
  if i.backlog.any fun e => e.gid = gid then i
  else
    let backlog := i.backlog ++ [⟨gid, ts, record⟩]
    let i := { i with backlog := backlog.drop (backlog.length - BACKLOG_CAP) }
    if i.persistent then { i with history := i.history.insert gid record } else i

/-- Seal the part of the backlog that the contract retains, and drop the backlog. -/
def applyRetention (i : Inner S) (retentionMode : UInt8) (carryFromSecs : Nat) : Inner S :=
  let mode := (RetentionMode.fromU8 retentionMode).getD .fresh
  let toSeal := i.backlog.filter fun e => shouldSeal mode carryFromSecs e.ts
  { i with backlog := [], history := i.history.insertAll (toSeal.map fun e => (e.gid, e.record)) }

/-! ## Promotion: proposals and answers -/

section Promotion
variable (sha256 : Bytes → Gid)

/-- `propose_promote`, under the group lock: the body bound to the current epoch and its signed payload. -/
def draftPromote (i : Inner S) (targetTier retentionMode consentRule : UInt8) (picked : List Fingerprint)
    (onion : String) (carryFromSecs : Nat) : Option (PromoteBody × Bytes) := do
  let g ← i.group
  let body : PromoteBody :=
    { targetTier, retentionMode, consentRule, picked, onion, carryFromSecs, epoch := g.epoch }
  let sig ← (g.signPromote body.encode).toOption
  pure (body, wrapSigned body.encode g.me sig)

/-- `propose_promote`, under the slot lock. The proposer consents to its own proposal. -/
def openPromote (i : Inner S) (body : PromoteBody) (payload : Bytes) : Inner S :=
  { i with promote := some { body, consents := ∅, myResponse := some true } }.route
    (.promote payload) .broadcast

/-- `handle_promote`, under the group lock: a proposal that its leaf signed for the current epoch. -/
def checkPromote (i : Inner S) (payload : Bytes) : Option PromoteBody := do
  let (bodyBytes, leaf, sig) ← unwrapSigned payload
  let g ← i.group
  let body ← PromoteBody.decode bodyBytes
  if g.verifyPromote leaf bodyBytes sig ∧ body.epoch = g.epoch then pure body else none

/-- `handle_promote`, under the slot lock: the proposal replaces whatever is pending. -/
def adoptPromote (i : Inner S) (peer : Fingerprint) (body : PromoteBody) : Inner S :=
  { i with promote := some { body, consents := ∅, myResponse := none } }.emit
    (.promoteProposed peer (body.id sha256) body.targetTier body.retentionMode body.picked)

def draftConsent (i : Inner S) (promoteId : Gid) (accept : Bool) : Option Bytes := do
  let g ← i.group
  let body : ConsentBody := { promoteId, accept, leaf := g.me, epoch := g.epoch }
  let sig ← (g.signConsent body.encode).toOption
  pure (wrapSigned body.encode g.me sig)

/-- `respond_promote`, under the slot lock: our answer counts for the pending proposal only. -/
def answerPromote (i : Inner S) (promoteId : Gid) (accept : Bool) (payload : Bytes) : Inner S :=
  { i with promote := i.promote.map (PromoteState.answer sha256 promoteId accept) }.route (.consent payload) .committer

def handlePromote (i : Inner S) (peer : Fingerprint) (payload : Bytes) : Inner S :=
  match i.checkPromote payload with
  | none => i
  | some body => i.adoptPromote sha256 peer body

def respondPromote (i : Inner S) (promoteId : Gid) (accept : Bool) : Inner S :=
  match i.draftConsent promoteId accept with
  | none => i
  | some payload => i.answerPromote sha256 promoteId accept payload

/-! ## Promotion: the host's side -/

/-- `handle_consent`, under the group lock: an answer that its leaf signed in the current epoch. -/
def checkConsent (i : Inner S) (payload : Bytes) : Option ConsentBody := do
  let (bytes, leaf, sig) ← unwrapSigned payload
  let g ← i.group
  let cb ← ConsentBody.decode bytes
  if g.verifyConsent leaf bytes sig ∧ cb.leaf = leaf ∧ cb.epoch = g.epoch then pure cb else none

/-- `handle_consent`, under the slot lock: record the answer if it is for the pending proposal. -/
def tallied (i : Inner S) (cb : ConsentBody) : Option PromoteState := do
  let st ← i.promote
  if cb.promoteId = st.body.id sha256 ∧ cb.epoch = st.body.epoch then pure (st.record cb) else none

def retentionContract (i : Inner S) : UInt8 × Nat :=
  match i.promote with
  | none => (0, 0)
  | some st => (st.body.retentionMode, st.body.carryFromSecs)

/-- Announce the commit, signed in the epoch before the re-key. -/
def announce (i : Inner S) (promoteId : Gid) : Inner S :=
  match i.group with
  | none => i
  | some g =>
    match g.signPromoCommit promoteId.1 with
    | .error _ => i
    | .ok sig => i.route (.promoteCommit (wrapSigned promoteId.1 g.me sig)) .broadcast

def toRemove (i : Inner S) (carried : List Fingerprint) : List Fingerprint :=
  (i.roster.toList.map (·.2)).filter fun fp => fp ≠ i.me ∧ fp ∉ carried

/-- The end of `commit_promotion`: persistence on, the slot cleared. -/
def settle (i : Inner S) (promoteId : Gid) : Inner S :=
  { (i.setPersistence true).emit (.promoted promoteId) with promote := none }

def abortPromote (i : Inner S) : Inner S :=
  match i.promote with
  | none => i
  | some st => { i with promote := none }.emit (.promoteAborted (st.body.id sha256))

/-! ## Promotion: a member's side -/

/-- The contract that an announcement of `promoteId` makes this member apply. -/
def consented (i : Inner S) (promoteId : Gid) : Option (UInt8 × Nat) := do
  let st ← i.promote
  if st.body.id sha256 = promoteId ∧ st.myResponse = some true then
    pure (st.body.retentionMode, st.body.carryFromSecs)
  else none

/-- An announcement that verifies under the leaf it claims. -/
def checkPromoteCommit (i : Inner S) (payload : Bytes) : Option Gid := do
  let (body, leaf, sig) ← unwrapSigned payload
  let g ← i.group
  if h : g.verifyPromoCommit leaf body sig ∧ body.length = 32 then pure ⟨body, h.2⟩ else none

/-- The committer announced that a promotion committed: apply the contract that we consented to. The
pending proposal is cleared in any case. -/
def handlePromoteCommit (i : Inner S) (payload : Bytes) : Inner S :=
  match i.checkPromoteCommit payload with
  | none => i
  | some promoteId =>
    match i.consented sha256 promoteId with
    | none => { i with promote := none }
    | some (mode, carryFromSecs) =>
      (({ i with promote := none }.applyRetention mode carryFromSecs).setPersistence true).emit
        (.promoted promoteId)

end Promotion
end Inner
end Talkrypt.Core
