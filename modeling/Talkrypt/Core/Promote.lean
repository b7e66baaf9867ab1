import Talkrypt.Lib.Table
import Talkrypt.Wire

/-!
# Promotion proposals and consents (`crates/core/src/engine.rs`)

The signed bodies of a promotion of an ephemeral group to a persistent one, their codecs, the tally of
consents and its decision, and the retention contract. What one node encodes another decodes
(`PromoteBody.decode_encode`, `ConsentBody.decode_encode`, `unwrapSigned_wrapSigned`).
-/

namespace Talkrypt.Core

abbrev Fingerprint := ByteArr 48

instance : LawfulBEq Fingerprint := inferInstance

/-- A SHA-256 digest: of a message ciphertext, or of a proposal body. -/
abbrev Gid := ByteArr 32

def getArr (n : Nat) : Reader Unit (ByteArr n) := do
  let v ← Reader.getBytes
  if h : v.length = n then pure ⟨v, h⟩ else throw ()

theorem getArr_putBytes {n : Nat} (hn : n ≤ MAX_FRAME) (a : ByteArr n) (rest : Bytes) :
    getArr n (putBytes a.1 ++ rest) = .ok (a, rest) := by
  rw [getArr, Reader.bind_ok (Reader.getBytes_putBytes (a.2.le.trans hn) rest), dif_pos a.2]
  rfl

/-! ## Retention -/

/-- What happens to the ephemeral backlog when a room is promoted. -/
inductive RetentionMode where
  | fresh
  | carry
  | carryFromPoint
deriving DecidableEq, Repr

/-- An unknown tag is no mode; callers then retain nothing. -/
def RetentionMode.fromU8 (v : UInt8) : Option RetentionMode :=
  if v = 0 then some .fresh
  else if v = 1 then some .carry
  else if v = 2 then some .carryFromPoint
  else none

def RetentionMode.asU8 : RetentionMode → UInt8
  | .fresh => 0
  | .carry => 1
  | .carryFromPoint => 2

/-- Whether a backlog entry with timestamp `ts` is sealed under `mode`. -/
def shouldSeal (mode : RetentionMode) (carryFromSecs ts : Nat) : Bool :=
  match mode with
  | .fresh => false
  | .carry => true
  | .carryFromPoint => carryFromSecs ≤ ts

/-- One message this node saw: its gossip id, its unix-second timestamp, its encoded record. -/
structure BacklogEntry where
  gid : Gid
  ts : Nat
  record : Bytes
deriving DecidableEq

def BACKLOG_CAP : Nat := 4096

/-! ## Proposals -/

/-- The body of a promotion proposal, signed by the promoter. -/
structure PromoteBody where
  targetTier : UInt8
  retentionMode : UInt8
  consentRule : UInt8
  picked : List Fingerprint
  onion : String
  carryFromSecs : Nat
  epoch : Nat
deriving DecidableEq

namespace PromoteBody

def MAX_PICKED : Nat := 256

def encode (b : PromoteBody) : Bytes :=
  putU8 b.targetTier ++ putU8 b.retentionMode ++ putU8 b.consentRule ++ putU32 b.picked.length ++
    b.picked.flatMap (fun fp => putBytes fp.1) ++ putBytes (utf8 b.onion) ++
    putU64 b.carryFromSecs ++ putU32 b.epoch

def getPicked : Nat → Reader Unit (List Fingerprint)
  | 0 => pure []
  | n + 1 => do
    let fp ← getArr 48
    let rest ← getPicked n
    pure (fp :: rest)

def get : Reader Unit PromoteBody := do
  let targetTier ← Reader.getU8
  let retentionMode ← Reader.getU8
  let consentRule ← Reader.getU8
  let n ← Reader.getU32
  if n > MAX_PICKED then throw ()
  let picked ← getPicked n
  let onion ← Reader.getBytes
  let carryFromSecs ← Reader.getU64
  let epoch ← Reader.getU32
  Reader.finish
  -- the code checks the text last, after the framing
  match fromUtf8 onion with
  | none => throw ()
  | some onion => pure { targetTier, retentionMode, consentRule, picked, onion, carryFromSecs, epoch }

def decode (bytes : Bytes) : Option PromoteBody := (Reader.parse get bytes).toOption

/-- The digest of the canonical body, which consents and the announcement refer to. -/
def id (sha256 : Bytes → Gid) (b : PromoteBody) : Gid := sha256 b.encode

/-- A body whose fields fit their wire types and limits. -/
structure Fits (b : PromoteBody) : Prop where
  picked : b.picked.length ≤ MAX_PICKED
  onion : (utf8 b.onion).length ≤ MAX_FRAME
  carryFromSecs : b.carryFromSecs < 2 ^ 64
  epoch : b.epoch < 2 ^ 32

end PromoteBody

/-! ## Consents -/

structure ConsentBody where
  promoteId : Gid
  accept : Bool
  leaf : Nat
  epoch : Nat
deriving DecidableEq

namespace ConsentBody

def encode (c : ConsentBody) : Bytes :=
  putBytes c.promoteId.1 ++ putU8 c.accept.toUInt8 ++ putU32 c.leaf ++ putU32 c.epoch

def get : Reader Unit ConsentBody := do
  let promoteId ← getArr 32
  let accept ← Reader.getU8
  let leaf ← Reader.getU32
  let epoch ← Reader.getU32
  Reader.finish
  pure { promoteId, accept := accept != 0, leaf, epoch }

def decode (bytes : Bytes) : Option ConsentBody := (Reader.parse get bytes).toOption

end ConsentBody

/-! ## Signed control blobs -/

/-- `body ‖ leaf ‖ sig`: the receiver learns which leaf to verify under. -/
def wrapSigned (body : Bytes) (leaf : Nat) (sig : Bytes) : Bytes :=
  putBytes body ++ putU32 leaf ++ putBytes sig

def getSigned : Reader Unit (Bytes × Nat × Bytes) := do
  let body ← Reader.getBytes
  let leaf ← Reader.getU32
  let sig ← Reader.getBytes
  Reader.finish
  pure (body, leaf, sig)

def unwrapSigned (payload : Bytes) : Option (Bytes × Nat × Bytes) :=
  (Reader.parse getSigned payload).toOption

/-! ## The tally -/

/-- The pending promotion: its body, the answers by leaf, and this node's own answer. -/
structure PromoteState where
  body : PromoteBody
  consents : Table Nat Bool
  myResponse : Option Bool

/-- The pending promotion with an answer recorded, one answer for each leaf. -/
def PromoteState.record (st : PromoteState) (cb : ConsentBody) : PromoteState :=
  { st with consents := st.consents.insert cb.leaf cb.accept }

/-- The pending promotion with this node's own answer, if the answer is for it. -/
def PromoteState.answer (sha256 : Bytes → Gid) (promoteId : Gid) (accept : Bool) (st : PromoteState) :
    PromoteState :=
  if st.body.id sha256 = promoteId then { st with myResponse := some accept } else st

inductive PromoDecision where
  | wait
  | abort
  /-- Keep these members (the host among them) and evict the others. -/
  | commit (carried : List Fingerprint)
deriving DecidableEq

/-- The rostered members that a proposal picks, the host apart. -/
def pickedMembers (picked : List Fingerprint) (roster : Table Nat Fingerprint) (me : Fingerprint) :
    List (Nat × Fingerprint) :=
  roster.toList.filter fun e => e.2 ∈ picked ∧ e.2 ≠ me

/-- Evaluate the pending promotion by its consent rule. -/
def promotionDecision (st : PromoteState) (roster : Table Nat Fingerprint) (me : Fingerprint) :
    PromoDecision :=
  let members := pickedMembers st.body.picked roster me
  if st.body.consentRule = 0 then
    if members.any fun e => st.consents.lookup e.1 = some false then .abort
    else if members.all fun e => st.consents.lookup e.1 = some true then
      .commit (me :: members.map (·.2))
    else .wait
  else if st.body.consentRule = 1 then
    if members.all fun e => (st.consents.lookup e.1).isSome then
      .commit (me :: (members.filter fun e => st.consents.lookup e.1 = some true).map (·.2))
    else .wait
  else .wait

/-- The host's mandate (rule 2) carries every picked member. -/
def mandateCarried (picked : List Fingerprint) (roster : Table Nat Fingerprint) (me : Fingerprint) :
    List Fingerprint :=
  me :: (pickedMembers picked roster me).map (·.2)

variable {roster : Table Nat Fingerprint} {me : Fingerprint}

theorem mem_pickedMembers {picked : List Fingerprint} {fp : Fingerprint} {leaf : Nat} :
    (leaf, fp) ∈ pickedMembers picked roster me ↔
      roster.lookup leaf = some fp ∧ fp ∈ picked ∧ fp ≠ me := by
  simp [pickedMembers, Table.mem_toList]

/-- The tally holds an acceptance from a leaf that the roster gives to `fp`. -/
def PromoteState.Accepted (st : PromoteState) (roster : Table Nat Fingerprint) (fp : Fingerprint) : Prop :=
  ∃ leaf, roster.lookup leaf = some fp ∧ st.consents.lookup leaf = some true

theorem promotionDecision_eq_commit {st : PromoteState} {carried : List Fingerprint}
    (h : promotionDecision st roster me = .commit carried) :
    (st.body.consentRule = 0 ∧
      (∀ e ∈ pickedMembers st.body.picked roster me, st.consents.lookup e.1 = some true) ∧
      carried = me :: (pickedMembers st.body.picked roster me).map (·.2)) ∨
    (st.body.consentRule = 1 ∧
      (∀ e ∈ pickedMembers st.body.picked roster me, (st.consents.lookup e.1).isSome) ∧
      carried = me :: ((pickedMembers st.body.picked roster me).filter
        fun e => st.consents.lookup e.1 = some true).map (·.2)) := by
  simp only [promotionDecision] at h
  split at h
  case isTrue hrule =>
    split at h
    · cases h
    · split at h
      case isTrue hall =>
        cases h
        exact .inl ⟨hrule, by simpa using hall, rfl⟩
      · cases h
  case isFalse =>
    split at h
    case isTrue hrule =>
      split at h
      case isTrue hall =>
        cases h
        exact .inr ⟨hrule, by simpa using hall, rfl⟩
      · cases h
    · cases h

theorem mem_carried_of_accepted {st : PromoteState} {fp : Fingerprint} {carried : List Fingerprint}
    (h : promotionDecision st roster me = .commit carried) (hpicked : fp ∈ st.body.picked)
    (haccepted : st.Accepted roster fp) (hme : fp ≠ me) : fp ∈ carried := by
  obtain ⟨leaf, hleaf, hyes⟩ := haccepted
  have hmem : (leaf, fp) ∈ pickedMembers st.body.picked roster me :=
    mem_pickedMembers.mpr ⟨hleaf, hpicked, hme⟩
  rcases promotionDecision_eq_commit h with ⟨-, -, rfl⟩ | ⟨-, -, rfl⟩
  · exact List.mem_cons_of_mem _ (List.mem_map_of_mem hmem)
  · refine List.mem_cons_of_mem _ (List.mem_map.mpr ⟨(leaf, fp), List.mem_filter.mpr ⟨hmem, ?_⟩, rfl⟩)
    exact decide_eq_true hyes

end Talkrypt.Core
