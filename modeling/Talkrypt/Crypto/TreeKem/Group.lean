import Talkrypt.Lib.KeyChain
import Talkrypt.Crypto.TreeKem.Messages

/-!
# `TreeKemGroup` (`crates/crypto/src/treekem.rs`)

One member's view of a group, and the operations on it. Randomness is an argument: `fresh` is the leaf
secret that `rekey_path` draws and `coins` the draws of its sealings. An operation that can fail
returns the group it leaves behind next to its result, since the code mutates the group before it
fails.
-/

namespace Talkrypt.TreeKem

variable {S : Scheme}

abbrev RecvChain (S : Scheme) := KeyChain.Receiver S.Secret

structure Group (S : Scheme) where
  profile : KemProfile
  capacity : Nat
  pubs : Table Node S.Public
  occupied : List Bool
  me : Nat
  secrets : Table Node S.Secret
  epoch : Nat
  epochSecret : S.Secret
  sendChain : S.Secret
  sendN : Nat
  recvs : Table Nat (RecvChain S)
  leafSigKeys : Table Nat IdentityPublic
  leafPops : Table Nat Bytes
  mySig : Option S.SigSeed
  /-- The staged key pair of the last `propose_update`. -/
  pendingUpdate : Option (LeafKeyPair S)
  padBucket : Nat

structure RekeyCoins (S : Scheme) where
  fresh : S.Secret
  coins : Node → Node → S.Coin

/-- Pair the nodes of a path with a secret and the secrets derived upwards from it. -/
def chainUp : S.Secret → List Node → List (Node × S.Secret)
  | _, [] => []
  | s, n :: ns => (n, s) :: chainUp (S.deriveParentSecret s) ns

def topSecret (s : S.Secret) (path : List Node) : S.Secret :=
  (S.deriveParentSecret)^[path.length - 1] s

def resize (l : List Bool) (n : Nat) : List Bool := l.take n ++ List.replicate (n - l.length) false

namespace Group

/-! ## Tree helpers -/

/-- Highest non-blank nodes covering a subtree; the depth of a subtree is at most its span. -/
def resolutionAux (pubs : Table Node S.Public) : Nat → Node → List Node
  | 0, _ => []
  | fuel + 1, node =>
    if (pubs.lookup node).isSome then [node]
    else match node.children with
      | none => []
      | some (l, r) => resolutionAux pubs fuel l ++ resolutionAux pubs fuel r

def resolution (g : Group S) (node : Node) : List Node := resolutionAux g.pubs node.span node

def isOccupied (g : Group S) (leaf : Nat) : Bool := g.occupied.getD leaf false

def firstFreeLeaf (g : Group S) : Option Nat := g.occupied.findIdx? (! ·)

def doubleCapacity (g : Group S) : Group S :=
  let capacity := g.capacity * 2 % 2 ^ 32
  { g with capacity, occupied := resize g.occupied capacity }

def resetEpoch (g : Group S) : Group S :=
  { g with sendChain := S.senderChain g.epochSecret g.me, sendN := 0, recvs := ∅ }

/-- Enter the next epoch with the secret of the commit. -/
def advance (g : Group S) (secret : S.Secret) : Group S :=
  { g with epoch := (g.epoch + 1) % 2 ^ 32, epochSecret := secret }.resetEpoch

/-- Set a path from a secret chain: public keys and secrets, leaf to root. -/
def installPath (g : Group S) (chain : List (Node × S.Secret)) : Group S :=
  { g with
    pubs := g.pubs.insertAll (chain.map fun e => (e.1, S.derivePublic g.profile e.2))
    secrets := g.secrets.insertAll chain }

/-- Create a new group with a caller-supplied founder leaf signature key. -/
def createWithSig (profile : KemProfile) (mySig : S.SigSeed) (leafSecret : S.Secret) : Group S :=
  let path := pathToRoot 2 0
  let g : Group S :=
    { profile, capacity := 2, pubs := ∅, occupied := [true, false], me := 0, secrets := ∅, epoch := 0
      epochSecret := S.deriveCommitSecret (topSecret leafSecret path), sendChain := S.zero, sendN := 0
      recvs := ∅, leafSigKeys := (∅ : Table Nat IdentityPublic).insert 0 (S.sigPublic mySig)
      leafPops := (∅ : Table Nat Bytes).insert 0 (S.sign mySig (popTranscript (S.sigPublic mySig)))
      mySig := some mySig, pendingUpdate := none, padBucket := 0 }
  (g.installPath (chainUp leafSecret path)).resetEpoch

/-! ## Proposals -/

def blankPathAbove (g : Group S) (leaf : Nat) : Group S :=
  { g with
    pubs := g.pubs.eraseAll (ancestorsOf g.capacity leaf)
    secrets := g.secrets.eraseAll (ancestorsOf g.capacity leaf) }

/-- Install leaf keys (the common part of `Add` and `Update`). -/
def setLeafKeys (g : Group S) (leaf : Nat) (leafPublic : S.Public) (sigPublic : IdentityPublic)
    (pop : Bytes) : Group S :=
  { g with
    pubs := g.pubs.insert (.leaf leaf) leafPublic
    leafSigKeys := g.leafSigKeys.insert leaf sigPublic
    leafPops := g.leafPops.insert leaf pop }

/-- If the updated leaf is ours, install the staged key pair, whichever it is. -/
def installPending (g : Group S) (leaf : Nat) : Group S :=
  if leaf = g.me then
    match g.pendingUpdate with
    | some kp =>
      { g with secrets := g.secrets.insert (.leaf g.me) kp.secret, mySig := some kp.sig,
               pendingUpdate := none }
    | none => g
  else g

/-- The authorization of an `Update` by the leaf's current signing key. -/
def verifyUpdateAuth (g : Group S) (leaf : Nat) (leafPublic : S.Public) (sigPublic : IdentityPublic)
    (auth : Bytes) : Except CryptoError Unit :=
  match g.leafSigKeys.lookup leaf with
  | none => .error (.malformed "update for a leaf with no current signing key")
  | some current =>
    orBadSignature (S.verify current (updateAuthTranscript leaf leafPublic sigPublic) auth)

/-- The checks on one proposal; they all precede its effects. -/
def checkProposal (g : Group S) (p : Proposal S) : Except CryptoError Unit :=
  if p.leaf ≥ g.occupied.length then .error (.malformed "treekem proposal leaf out of range")
  else match p with
    | .add _ _ sigPublic pop => verifyPop S sigPublic pop
    | .remove _ => .ok ()
    | .update leaf leafPublic sigPublic pop auth => do
      verifyPop S sigPublic pop
      if !g.isOccupied leaf then throw (.malformed "treekem update for empty leaf")
      g.verifyUpdateAuth leaf leafPublic sigPublic auth

def enactProposal (g : Group S) : Proposal S → Group S
  | .add leaf leafPublic sigPublic pop =>
    ({ g with occupied := g.occupied.set leaf true }.setLeafKeys leaf leafPublic sigPublic pop).blankPathAbove leaf
  | .remove leaf =>
    { g with
      occupied := g.occupied.set leaf false
      secrets := g.secrets.erase (.leaf leaf)
      pubs := g.pubs.erase (.leaf leaf)
      leafSigKeys := g.leafSigKeys.erase leaf
      leafPops := g.leafPops.erase leaf }.blankPathAbove leaf
  | .update leaf leafPublic sigPublic pop _ =>
    ((g.setLeafKeys leaf leafPublic sigPublic pop).installPending leaf).blankPathAbove leaf

/-- A failing proposal stops the loop; what the ones before it did stays. -/
def applyProposals (g : Group S) : List (Proposal S) → Group S × Except CryptoError Unit
  | [] => (g, .ok ())
  | p :: ps =>
    match g.checkProposal p with
    | .error e => (g, .error e)
    | .ok () => (g.enactProposal p).applyProposals ps

/-! ## Re-keying -/

def sealTo (g : Group S) (coins : Node → Node → S.Coin) (node : Node) (ps : S.Secret) (target : Node) :
    Except CryptoError (Node × Node × S.Blob) :=
  match g.pubs.lookup target with
  | none => .error (.malformed "resolution node has no key")
  | some targetPub => do
    let blob ← S.sealSecret targetPub ps (coins node target)
    pure (node, target, blob)

/-- Seal each path secret to the resolution of its copath; `below` is the path node under the first
one of the chain. -/
def sealLevels (g : Group S) (coins : Node → Node → S.Coin) :
    Node → List (Node × S.Secret) → Except CryptoError (List (Node × Node × S.Blob))
  | _, [] => .ok []
  | below, (node, ps) :: rest => do
    let here ← (g.resolution below.sibling).mapM (g.sealTo coins node ps)
    let above ← g.sealLevels coins node rest
    pure (here ++ above)

/-- Sign the commit with the committer's current leaf key. -/
def signCommit (g : Group S) (fromEpoch : Nat) (c : Commit S) : Commit S :=
  match g.mySig with
  | none => c
  | some signer =>
    { c with commitSig := S.sign signer (commitAuthTranscript fromEpoch g.me c.encodeBody) }

/-- Re-key the committer's path: fresh secrets, leaf to root, each sealed to its copath. -/
def rekeyPath (g : Group S) (r : RekeyCoins S) (proposals : List (Proposal S))
    (sigUpdate : Option (Nat × IdentityPublic × Bytes)) : Group S × Except CryptoError (Commit S) :=
  let fromEpoch := g.epoch
  let path := pathToRoot g.capacity g.me
  let chain := chainUp r.fresh path
  let g := g.installPath chain
  match g.sealLevels r.coins (.leaf g.me) chain.tail with
  | .error e => (g, .error e)
  | .ok ciphertexts =>
    let g := g.advance (S.deriveCommitSecret (topSecret r.fresh path))
    let commit : Commit S :=
      { proposals, pubUpdates := chain.map fun e => (e.1, S.derivePublic g.profile e.2), path
        ciphertexts, newCapacity := g.capacity, sigUpdate, commitSig := [] }
    (g, .ok (g.signCommit fromEpoch commit))

/-! ## Host operations -/

def commitProposals (g : Group S) (r : RekeyCoins S) (proposals : List (Proposal S)) :
    Group S × Except CryptoError (Commit S) :=
  match g.applyProposals proposals with
  | (g, .error e) => (g, .error e)
  | (g, .ok ()) => g.rekeyPath r proposals none

def welcomeFor (g : Group S) (leaf : Nat) (commit : Commit S) : Welcome S where
  capacity := g.capacity
  pubs := g.pubs.toList
  occupied := g.occupied
  epoch := g.epoch
  yourLeaf := leaf
  sigKeys := g.leafSigKeys.toList.filterMap fun e => do
    let lp ← g.pubs.lookup (.leaf e.1)
    let pop ← g.leafPops.lookup e.1
    pure (e.1, lp, e.2, pop)
  commit := commit

def makeRoom (g : Group S) : Group S := if g.firstFreeLeaf.isNone then g.doubleCapacity else g

def add (g : Group S) (r : RekeyCoins S) (kp : KeyPackage S) :
    Group S × Except Fault (Nat × Commit S × Welcome S) :=
  match g.makeRoom.firstFreeLeaf with
  | none => (g, .error (.abort "free leaf after doubling"))
  | some leaf =>
    match g.makeRoom.commitProposals r [.add leaf kp.leafPublic kp.sigPublic kp.pop] with
    | (g, .error e) => (g, .error (.error e))
    | (g, .ok commit) => (g, .ok (leaf, commit, g.welcomeFor leaf commit))

def remove (g : Group S) (r : RekeyCoins S) (leaf : Nat) : Group S × Except CryptoError (Commit S) :=
  g.commitProposals r [.remove leaf]

/-- Stage a fresh leaf key pair and return the encoded `Update` proposal for the host. -/
def proposeUpdate (g : Group S) (secret : S.Secret) (sig : S.SigSeed) : Group S × Except CryptoError Bytes :=
  let kp : LeafKeyPair S := ⟨g.profile, secret, sig⟩
  match g.mySig with
  | none => (g, .error (.malformed "no current leaf signing key"))
  | some current => ({ g with pendingUpdate := some kp }, .ok (kp.updateProposal g.me current).put)

/-- Commit a member's `Update` proposal, authenticated as coming from `proposerLeaf`. -/
def commitUpdate (g : Group S) (r : RekeyCoins S) (proposerLeaf : Nat) (proposalBytes : Bytes) :
    Group S × Except CryptoError (Commit S) :=
  match Proposal.decode S g.profile proposalBytes with
  | .error e => (g, .error e)
  | .ok prop =>
    match prop with
    | .update leaf .. =>
      if leaf = proposerLeaf then g.commitProposals r [prop]
      else (g, .error (.malformed "update proposal leaf does not match its authenticated proposer"))
    | _ => (g, .error (.malformed "expected an Update proposal"))

def rotateSig (g : Group S) (newSig : S.SigSeed) : Group S :=
  { g with
    leafSigKeys := g.leafSigKeys.insert g.me (S.sigPublic newSig)
    leafPops := g.leafPops.insert g.me (S.sign newSig (popTranscript (S.sigPublic newSig)))
    mySig := some newSig }

/-- Re-key our own path and rotate our leaf signing key. The commit is signed with the old key. -/
def update (g : Group S) (r : RekeyCoins S) (newSig : S.SigSeed) : Group S × Except CryptoError (Commit S) :=
  match g.rekeyPath r [] (some (g.me, S.sigPublic newSig,
      S.sign newSig (popTranscript (S.sigPublic newSig)))) with
  | (g, .error e) => (g, .error e)
  | (g, .ok commit) => (g.rotateSig newSig, .ok commit)

/-! ## Applying a commit -/

/-- The lowest level of the committer's path with a copath target whose secret we hold: the target, its
secret, and the path from that level on. -/
def findHeld (g : Group S) : Node → List Node → Option (Node × S.Secret × Node × List Node)
  | _, [] => none
  | below, node :: rest =>
    match (g.resolution below.sibling).findSome? fun t => (g.secrets.lookup t).map (t, ·) with
    | some (target, secret) => some (target, secret, node, rest)
    | none => g.findHeld node rest

def adoptPath (g : Group S) (c : Commit S) : Group S :=
  { g with pubs := g.pubs.insertAll c.pubUpdates }

/-- Adopt the committer's path keys, open the path secret where our path meets theirs, and chain to
the root secret. -/
def processUpdatePath (g : Group S) (c : Commit S) : Group S × Except CryptoError S.Secret :=
  let g := g.adoptPath c
  let held := match c.path with
    | [] => none
    | leaf :: rest => g.findHeld leaf rest
  match held with
  | none => (g, .error (.malformed "no common ancestor with committer"))
  | some (target, secret, node, rest) =>
    match c.ciphertexts.find? fun e => e.1 = node ∧ e.2.1 = target with
    | none => (g, .error (.malformed "no ciphertext for held target"))
    | some (_, _, blob) =>
      match S.openSecret g.profile secret blob with
      | .error e => (g, .error e)
      | .ok ps =>
        ({ g with secrets := g.secrets.insertAll (chainUp ps (node :: rest)) },
          .ok (S.deriveCommitSecret (topSecret ps (node :: rest))))

/-- The committing leaf, which must be the host and must have signed the commit. -/
def verifyCommit (g : Group S) (c : Commit S) : Except CryptoError Unit :=
  match c.path with
  | [] => .error (.malformed "commit path does not start at a leaf")
  | n :: _ =>
    if n.span ≠ 1 then .error (.malformed "commit path does not start at a leaf")
    else if n.lo ≠ HOST_LEAF then .error (.malformed "only the host leaf may broadcast a commit")
    else match g.leafSigKeys.lookup HOST_LEAF with
      | none => .error (.malformed "no host signing key bound")
      | some hostKey =>
        orBadSignature (S.verify hostKey (commitAuthTranscript g.epoch n.lo c.encodeBody) c.commitSig)

def growTo (g : Group S) (capacity : Nat) : Group S :=
  if capacity > g.capacity then { g with capacity, occupied := resize g.occupied capacity } else g

/-- The committer's rotation of its own signing key. `verifyCommit` has fixed the committer to be
`HOST_LEAF`. -/
def applySigUpdate (g : Group S) : Option (Nat × IdentityPublic × Bytes) → Except CryptoError (Group S)
  | none => .ok g
  | some (leaf, sigPublic, pop) =>
    if leaf ≠ HOST_LEAF then .error (.malformed "sig_update may only rotate the committer's own leaf")
    else if !g.isOccupied leaf then .error (.malformed "sig_update for empty leaf")
    else do
      verifyPop S sigPublic pop
      pure { g with leafSigKeys := g.leafSigKeys.insert leaf sigPublic,
                    leafPops := g.leafPops.insert leaf pop }

def applyCommit (g : Group S) (c : Commit S) : Group S × Except CryptoError Unit :=
  match g.verifyCommit c with
  | .error e => (g, .error e)
  | .ok () =>
    match (g.growTo c.newCapacity).applyProposals c.proposals with
    | (g, .error e) => (g, .error e)
    | (g, .ok ()) =>
      match g.applySigUpdate c.sigUpdate with
      | .error e => (g, .error e)
      | .ok g =>
        match g.processUpdatePath c with
        | (g, .error e) => (g, .error e)
        | (g, .ok secret) => (g.advance secret, .ok ())

/-- The state of a joiner before it processes the commit in its Welcome. -/
def joining (kp : LeafKeyPair S) (w : Welcome S) : Group S where
  profile := kp.profile
  capacity := w.capacity
  pubs := Table.insertAll ∅ w.pubs
  occupied := w.occupied
  me := w.yourLeaf
  secrets := (∅ : Table Node S.Secret).insert (.leaf w.yourLeaf) kp.secret
  epoch := w.epoch
  epochSecret := S.zero
  sendChain := S.zero
  sendN := 0
  recvs := ∅
  leafSigKeys := (Table.insertAll ∅ (w.sigKeys.map fun e => (e.1, e.2.2.1))).insert w.yourLeaf
    (S.sigPublic kp.sig)
  leafPops := Table.insertAll ∅ (w.sigKeys.map fun e => (e.1, e.2.2.2))
  mySig := some kp.sig
  pendingUpdate := none
  padBucket := 0

/-- Join a group from a Welcome with the matching leaf key. -/
def joinWithWelcome (kp : LeafKeyPair S) (w : Welcome S) : Except CryptoError (Group S) := do
  w.sigKeys.forM fun e => verifyPop S e.2.2.1 e.2.2.2
  match (joining kp w).processUpdatePath w.commit with
  | (_, .error e) => throw e
  | (g, .ok secret) => pure { g with epochSecret := secret }.resetEpoch

/-! ## Signatures on control bodies -/

/-- Sign a body with our leaf key, over a transcript of the current epoch. -/
def signBody (g : Group S) (transcript : Nat → Nat → Bytes → Bytes) (body : Bytes) :
    Except CryptoError Bytes :=
  match g.mySig with
  | none => .error (.malformed "group has no leaf signing key")
  | some sk => .ok (S.sign sk (transcript g.epoch g.me body))

/-- Verify a body under a leaf's bound key; an unknown leaf verifies nothing. -/
def verifyBody (g : Group S) (transcript : Nat → Nat → Bytes → Bytes) (leaf : Nat) (body sig : Bytes) :
    Bool :=
  match g.leafSigKeys.lookup leaf with
  | none => false
  | some pk => (S.verify pk (transcript g.epoch leaf body) sig).isOk

def signPromote (g : Group S) : Bytes → Except CryptoError Bytes := g.signBody promoteTranscript
def verifyPromote (g : Group S) : Nat → Bytes → Bytes → Bool := g.verifyBody promoteTranscript
def signConsent (g : Group S) : Bytes → Except CryptoError Bytes := g.signBody consentTranscript
def verifyConsent (g : Group S) : Nat → Bytes → Bytes → Bool := g.verifyBody consentTranscript
def signPromoCommit (g : Group S) : Bytes → Except CryptoError Bytes := g.signBody promoCommitTranscript
def verifyPromoCommit (g : Group S) : Nat → Bytes → Bytes → Bool := g.verifyBody promoCommitTranscript

def signAsHost (g : Group S) (msg : Bytes) : Option Bytes :=
  if g.me ≠ HOST_LEAF then none else g.mySig.map (S.sign · msg)

def verifyHostSig (g : Group S) (msg sig : Bytes) : Bool :=
  match g.leafSigKeys.lookup HOST_LEAF with
  | none => false
  | some key => (S.verify key msg sig).isOk

end Group
end Talkrypt.TreeKem
