import Talkrypt.Crypto.TreeKem.GroupDelivery

/-!
# Length buckets of group messages

A member of a chat with padding seals the text and its length, filled up to the next bucket boundary. The
frame then has a length that depends on the bucket only; it is readable as long as the bucket and the tag of the
AEAD fit a field of the wire.
-/

namespace Talkrypt

def bucketSize (step : Nat) : Nat := min (max step 1) MAX_FRAME

def bucketOf (step len : Nat) : Nat := (len + (bucketSize step - 1)) / bucketSize step

theorem bucketSize_pos (step : Nat) : 0 < bucketSize step :=
  lt_min (lt_max_of_lt_right Nat.one_pos) (by decide)

theorem le_bucketOf_mul (step len : Nat) : len ≤ bucketOf step len * bucketSize step := by
  have hpos := bucketSize_pos step
  have hmod := Nat.mod_lt (len + (bucketSize step - 1)) hpos
  have hdiv := Nat.div_add_mod (len + (bucketSize step - 1)) (bucketSize step)
  rw [Nat.mul_comm] at hdiv
  unfold bucketOf
  omega

theorem bucketOf_mul_le (step len : Nat) : bucketOf step len * bucketSize step ≤ len + (bucketSize step - 1) :=
  Nat.div_mul_le_self ..

theorem length_padToBucket {payload : Bytes} (h : payload.length ≤ MAX_FRAME) (step : Nat) :
    (padToBucket payload step).length = bucketOf step (4 + payload.length) * bucketSize step := by
  have hsize : bucketSize step ≤ MAX_FRAME := min_le_right ..
  have hlimit : 2 * MAX_FRAME + 4 < USIZE_LIMIT := by decide
  have hpadded : paddedLen (4 + payload.length) step = bucketOf step (4 + payload.length) * bucketSize step :=
    if_pos (show 4 + payload.length + (bucketSize step - 1) < USIZE_LIMIT by omega)
  have hle := le_bucketOf_mul step (4 + payload.length)
  simp only [padToBucket, hpadded, max_eq_left hle, List.length_append, beBytes_length, List.length_replicate]
  omega

namespace TreeKem
open Primitives (AEAD_TAG_LEN)
open Ratchet (MAX_SKIP)

variable {S : Scheme} {M : Messaging S}

def Messaging.Tagged (M : Messaging S) : Prop :=
  ∀ {seed : S.Secret} {pt aad ct : Bytes}, M.aeadSeal seed pt aad = .ok ct → ct.length = pt.length + AEAD_TAG_LEN

theorem Messaging.ofPrimitives_tagged {P : Primitives} (htag : P.AeadTagged) : (Messaging.ofPrimitives P).Tagged := by
  intro seed pt aad ct hseal
  simp only [ofPrimitives, Primitives.aeadSeal] at hseal
  split at hseal
  · next hencrypt =>
    cases hseal
    exact htag _ _ _ _ _ hencrypt
  · cases hseal

namespace GroupMessage

theorem decode_encode_of_gt {m : GroupMessage} (hepoch : m.epoch < 2 ^ 32) (hleaf : m.leaf < 2 ^ 32)
    (hn : m.n < 2 ^ 32) (hct : MAX_FRAME < m.ct.length) (hlt : m.ct.length < 2 ^ 32) :
    decode m.encode = .error (FromWire.ofWire (.frameTooLarge m.ct.length MAX_FRAME)) := by
  simp only [decode, Reader.parse, get, encode, List.append_assoc]
  rw [Reader.bind_ok (Reader.getU8_putU8 GROUP_MSG_V2 _), if_neg (by simp),
    Reader.bind_ok (Reader.getU32_putU32 hepoch _), Reader.bind_ok (Reader.getU32_putU32 hleaf _),
    Reader.bind_ok (Reader.getU32_putU32 hn _), Reader.bind_error (Reader.getBytes_putBytes_of_gt hct hlt _)]
  rfl

theorem length_encode (m : GroupMessage) : m.encode.length = 21 + m.ct.length + m.sig.length := by
  simp only [encode, List.length_append, putBytes_length, putU8, putU32, beBytes_length, List.length_cons,
    List.length_nil]
  omega

end GroupMessage

namespace Group

variable {g₀ g : Group S} {p frame : Bytes}

/-- `g` is a member of the epoch of `g₀` that has the key of the next message of `g₀`. -/
structure Listens (M : Messaging S) (g₀ g : Group S) : Prop where
  epoch : g.epoch = g₀.epoch
  padBucket : g.padBucket = g₀.padBucket
  key : ∀ sk, g₀.mySig = some sk → g.leafSigKeys.lookup g₀.me = some (S.sigPublic sk)
  seed : (g.recvChain g₀.me).seedFor M.kdfCk MAX_SKIP g₀.sendN = some (M.kdfCk g₀.sendChain).2
  epoch_lt : g₀.epoch < 2 ^ 32
  me_lt : g₀.me < 2 ^ 32
  sendN_lt : g₀.sendN < 2 ^ 32

theorem length_padded (h : p.length ≤ MAX_FRAME) : (g₀.padded p).length =
    if g₀.padBucket = 0 then p.length else bucketOf g₀.padBucket (4 + p.length) * bucketSize g₀.padBucket := by
  unfold padded
  by_cases hoff : g₀.padBucket = 0
  · rw [if_neg (by omega), if_pos hoff]
  · rw [if_pos (by omega), if_neg hoff, length_padToBucket h]

theorem unpad_padded (h : p.length ≤ MAX_FRAME) (hpad : g.padBucket = g₀.padBucket) :
    g.unpad (g₀.padded p) = .ok p := by
  unfold unpad padded
  rw [hpad]
  split
  · rw [unpadBucket_padToBucket h]
  · rfl

theorem exists_message (h : (g₀.encryptSigned M p).2 = .ok frame) : ∃ sk ct, g₀.mySig = some sk ∧
    M.aeadSeal (M.kdfCk g₀.sendChain).2 (g₀.padded p) (msgAad g₀.epoch g₀.me g₀.sendN) = .ok ct ∧
    frame = GroupMessage.encode
      { epoch := g₀.epoch, leaf := g₀.me, n := g₀.sendN, ct
        sig := S.sign sk (sigTranscript g₀.epoch g₀.me g₀.sendN ct) } := by
  rcases encryptSigned_cases M g₀ p with ⟨e, herror⟩ | ⟨sk, ct, hsk, hseal⟩
  · rw [herror] at h
    cases h
  · rw [encryptSigned_of_seal hsk hseal] at h
    exact ⟨sk, ct, hsk, hseal, (Except.ok.inj h).symm⟩

theorem decryptVerified_iff (hS : S.Lawful) (hM : M.Correct) (htag : M.Tagged) (hp : p.length ≤ MAX_FRAME)
    (hframe : (g₀.encryptSigned M p).2 = .ok frame) (hlisten : g₀.Listens M g) :
    (g.decryptVerified M frame).2 = .ok p ↔ (g₀.padded p).length + AEAD_TAG_LEN ≤ MAX_FRAME := by
  obtain ⟨sk, ct, hsk, hseal, rfl⟩ := exists_message hframe
  rw [← htag hseal]
  constructor
  · intro hok
    by_contra hgt
    have hlt : ct.length < 2 ^ 32 := by
      have hsize : bucketSize g₀.padBucket ≤ MAX_FRAME := min_le_right ..
      have hbucket := bucketOf_mul_le g₀.padBucket (4 + p.length)
      have hmax : 2 * MAX_FRAME + 20 < 2 ^ 32 := by decide
      rw [htag hseal, length_padded hp, AEAD_TAG_LEN]
      split <;> omega
    have herror := GroupMessage.decode_encode_of_gt
      (m := { epoch := g₀.epoch, leaf := g₀.me, n := g₀.sendN, ct
              sig := S.sign sk (sigTranscript g₀.epoch g₀.me g₀.sendN ct) })
      hlisten.epoch_lt hlisten.me_lt hlisten.sendN_lt (not_le.mp hgt) hlt
    rw [decryptVerified, herror] at hok
    cases hok
  · intro hct
    have hverify : g.verifyMessage { epoch := g₀.epoch, leaf := g₀.me, n := g₀.sendN, ct
                                     sig := S.sign sk (sigTranscript g₀.epoch g₀.me g₀.sendN ct) } = true := by
      rw [verifyMessage]
      dsimp only
      rw [hlisten.key sk hsk]
      dsimp only
      rw [hS.verify_sign]
      rfl
    rw [decryptVerified_of_seedFor ⟨hlisten.epoch_lt, hlisten.me_lt, hlisten.sendN_lt, hct, hS.sign_length _ _⟩
      hverify hlisten.epoch.symm hlisten.seed (hM hseal) (unpad_padded hp hlisten.padBucket)]

/-- The text and the tag fit a frame after the text was filled up to the end of its bucket. -/
def BucketFits (step len : Nat) : Prop :=
  step = 0 ∨ bucketOf step (4 + len) * bucketSize step + AEAD_TAG_LEN ≤ MAX_FRAME

/-- **Padding.** A frame of a text that fits a frame with its length and tag is opened to that text by every
member that listens, exactly when the filled bucket fits as well; and texts in one bucket give frames of one
length. -/
theorem padding_transparent (hS : S.Lawful) (hM : M.Correct) (htag : M.Tagged) {sigLen : Nat}
    (hsig : ∀ sk m, (S.sign sk m).length = sigLen) (hp : 4 + p.length + AEAD_TAG_LEN ≤ MAX_FRAME)
    (hframe : (g₀.encryptSigned M p).2 = .ok frame) :
    (∀ g, g₀.Listens M g → ((g.decryptVerified M frame).2 = .ok p ↔ BucketFits g₀.padBucket p.length)) ∧
    ∀ (g₁ : Group S) (p₁ frame₁ : Bytes), g₁.padBucket = g₀.padBucket →
      4 + p₁.length + AEAD_TAG_LEN ≤ MAX_FRAME →
      bucketOf g₀.padBucket (4 + p₁.length) = bucketOf g₀.padBucket (4 + p.length) →
      (g₁.encryptSigned M p₁).2 = .ok frame₁ → frame₁.length = frame.length := by
  have hple : p.length ≤ MAX_FRAME := by omega
  refine ⟨fun g hlisten => ?_, fun g₁ p₁ frame₁ hpad hp₁ hbucket hframe₁ => ?_⟩
  · rw [decryptVerified_iff hS hM htag hple hframe hlisten, length_padded hple, BucketFits]
    split
    · next hoff => exact iff_of_true (by omega) (.inl hoff)
    · next hon => simp only [hon, false_or]
  · obtain ⟨sk, ct, -, hseal, rfl⟩ := exists_message hframe
    obtain ⟨sk₁, ct₁, -, hseal₁, rfl⟩ := exists_message hframe₁
    rw [GroupMessage.length_encode, GroupMessage.length_encode, hsig, hsig, htag hseal, htag hseal₁,
      length_padded hple, length_padded (show p₁.length ≤ MAX_FRAME by omega), hpad, hbucket]
    split
    · next hoff =>
      -- without padding a bucket is a single length
      have hone : bucketSize 0 = 1 := rfl
      rw [hoff] at hbucket
      simp only [bucketOf, hone, Nat.sub_self, Nat.add_zero, Nat.div_one] at hbucket
      omega
    · rfl

end Group

theorem Exchange.Inv.listens {ι : Type} {members : ι → Group S} {x : Exchange S ι} (h : x.Inv M members)
    (hepoch : SameEpoch members) {i j : ι} (hn : (x.members i).sendN < 2 ^ 32)
    (hnear : (x.members i).sendN ≤ ((x.members j).recvChain (members i).me).n + MAX_SKIP) :
    (x.members i).Listens M (x.members j) := by
  obtain ⟨recvs, hi⟩ := h.states i
  obtain ⟨recvs', hj⟩ := h.states j
  have hme : (x.members i).me = (members i).me := by rw [hi]
  have hnew : ¬ ((x.members j).recvChain (members i).me).Used (x.members i).sendN := by
    rw [h.used]
    rintro ⟨k, s, hs, rfl, heq, -⟩
    exact absurd (h.made s (List.mem_of_getElem? hs)).2 (by omega)
  refine ⟨?_, ?_, fun sk hsk => ?_, ?_, ?_, ?_, hn⟩
  · rw [hi, hj]
    exact hepoch.epoch j i
  · rw [hi, hj]
    exact hepoch.padBucket j i
  · rw [hme, hj]
    rw [hi] at hsk
    exact hepoch.keys i j sk hsk
  · rw [hme, (h.chains j i).seedFor_eq_some hnew hnear]
    conv_rhs => rw [hi]
    rfl
  · rw [hi]
    exact hepoch.epoch_lt i
  · rw [hme]
    exact hepoch.me_lt i

/-! ## Two members -/

namespace Padding

def tag (seed : UInt8) (aad : Bytes) : Bytes := (seed :: (aad ++ List.replicate 15 0)).take 16

theorem length_tag (seed : UInt8) (aad : Bytes) : (tag seed aad).length = 16 := by
  simp [tag]

/-- Message cryptography without secrecy, with a tag in front of the text. -/
def messaging : Messaging Scheme.plain where
  kdfCk (s : UInt8) := (s + 1, s + 64)
  aeadSeal (seed : UInt8) pt aad := .ok (tag seed aad ++ pt)
  aeadOpen (seed : UInt8) ct aad := if ct.take 16 = tag seed aad then .ok (ct.drop 16) else .error .decryptionFailed

theorem messaging_tagged : messaging.Tagged := by
  rintro seed pt aad _ ⟨⟩
  rw [List.length_append]
  exact (congrArg (· + pt.length) (length_tag seed aad)).trans (Nat.add_comm ..)

theorem messaging_correct : messaging.Correct := by
  rintro seed pt aad _ ⟨⟩
  have htake : (tag seed aad ++ pt).take 16 = tag seed aad := List.take_left' (length_tag ..)
  have hdrop : (tag seed aad ++ pt).drop 16 = pt := List.drop_left' (length_tag ..)
  exact (if_pos htake).trans (by rw [hdrop])

/-- The members at leaves 0 and 1 of a chat with padding. -/
def pair (step : Nat) (i : Fin 2) : Group Scheme.plain :=
  { Exchange.Sample.pair i with padBucket := step }

theorem pair_sameEpoch (step : Nat) : Exchange.SameEpoch (pair step) :=
  { Exchange.Sample.pair_sameEpoch with padBucket := fun _ _ => rfl }

def member (step : Nat) (i : Fin 2) : Group Scheme.plain := (Exchange.start (pair step)).members i

theorem member_listens (step : Nat) : (member step 1).Listens messaging (member step 0) :=
  (Exchange.Inv.start messaging (pair_sameEpoch step)).listens (pair_sameEpoch step) (Nat.two_pow_pos 32)
    (Nat.zero_le _)

/-- The ciphertext of the first message of the member at leaf 1. -/
def ctOf (step : Nat) (p : Bytes) : Bytes := tag 199 (msgAad 0 1 0) ++ (member step ⟨1, Nat.one_lt_two⟩).padded p

def frameOf (step : Nat) (p : Bytes) : Bytes :=
  GroupMessage.encode { epoch := 0, leaf := 1, n := 0, ct := ctOf step p, sig := [8] }

theorem encryptSigned_member (step : Nat) (p : Bytes) :
    ((member step 1).encryptSigned messaging p).2 = .ok (frameOf step p) := rfl

theorem padding_transparent_hi :
    ((member 256 0).decryptVerified messaging (frameOf 256 [104, 105])).2 = .ok [104, 105] :=
  ((Group.padding_transparent Scheme.plain_lawful messaging_correct messaging_tagged (fun _ _ => rfl)
    (by decide) (encryptSigned_member 256 [104, 105])).1 _ (member_listens 256)).mpr (.inr (by decide))

/-- With the largest bucket, the empty text makes a frame that nobody can read. -/
theorem unreadable_bucket : 4 + ([] : Bytes).length + AEAD_TAG_LEN ≤ MAX_FRAME ∧
    ((member MAX_FRAME 1).encryptSigned messaging []).2 = .ok (frameOf MAX_FRAME []) ∧
    ((member MAX_FRAME 0).decryptVerified messaging (frameOf MAX_FRAME [])).2 ≠ .ok [] := by
  refine ⟨by decide, encryptSigned_member MAX_FRAME [], fun hok => ?_⟩
  have hfits := (Group.decryptVerified_iff Scheme.plain_lawful messaging_correct messaging_tagged (Nat.zero_le _)
    (encryptSigned_member MAX_FRAME []) (member_listens MAX_FRAME)).mp hok
  rw [Group.length_padded (Nat.zero_le _)] at hfits
  exact absurd hfits (by decide)

end Padding

end TreeKem
end Talkrypt
