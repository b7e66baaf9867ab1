import Talkrypt.Crypto.Noise
import Talkrypt.Crypto.SenderKey
import Talkrypt.Crypto.TreeKem.FailedDecrypt

/-!
# How many skipped keys the receivers keep

The Noise session, the sender-key receiver and the group receiver refuse a message that is more than
`MAX_SKIP` messages ahead. None of them counts the keys it already keeps, as the Double Ratchet does, so
each legal gap adds to them: after messages `MAX_SKIP` and `2 * MAX_SKIP + 1` of an honest sender, with
everything in between lost, they keep `2 * MAX_SKIP` keys (`Losses.kept_too_many`). If every call has room
for the gap of its message, the keys stay within `MAX_SKIP` (`skipped_bounded`).
-/

namespace Talkrypt
open KeyChain (gap chainAt seedAt)
open Ratchet (MAX_SKIP SendCoins)

/-- There is room for the seeds that message `n` would add, if it is tried at all. -/
def HasRoom {K : Type} (kept : Table Nat K) (next n : Nat) : Prop :=
  gap kept next n ≤ MAX_SKIP → kept.toList.length + gap kept next n ≤ MAX_SKIP

instance {K : Type} (kept : Table Nat K) (next n : Nat) : Decidable (HasRoom kept next n) :=
  inferInstanceAs (Decidable (_ → _))

/-- What a call does to the kept seeds: it drops some, or keeps those that it passes. -/
inductive Keeps {K : Type} (kdf : K → K × K) (n : Nat) (kept : Table Nat K) (next : Nat) : Table Nat K → Prop where
  | same : Keeps kdf n kept next kept
  | drop : Keeps kdf n kept next (kept.erase n)
  | skip (ck : K) (hnone : kept.lookup n = none) (hgap : n - next ≤ MAX_SKIP) :
    Keeps kdf n kept next (KeyChain.skip kdf (n - next) ck next kept).2

theorem Keeps.length_le {K : Type} {kdf : K → K × K} {n next : Nat} {kept kept' : Table Nat K}
    (h : Keeps kdf n kept next kept') (hroom : HasRoom kept next n) (hle : kept.toList.length ≤ MAX_SKIP) :
    kept'.toList.length ≤ MAX_SKIP := by
  cases h with
  | same => exact hle
  | drop =>
    simp only [Table.toList, List.length_map] at hle ⊢
    exact (List.kerase_sublist n kept.entries).length_le.trans hle
  | skip ck hnone hgap =>
    rw [HasRoom, KeyChain.gap_of_lookup_eq_none hnone] at hroom
    exact (KeyChain.length_skip_le ..).trans (hroom hgap)

variable {P : Primitives}

/-! ## The Noise session -/

namespace NoiseSession

theorem receive_keeps {s s' : NoiseSession P} {n : Nat} {ct aad pt : Bytes} (h : s.receive n ct aad = .ok (s', pt)) :
    Keeps P.kdfCk n s.skipped s.recvN s'.skipped := by
  unfold receive at h
  split at h
  · obtain ⟨_, -, h⟩ := except_bind_eq_ok.mp h
    cases h
    exact .drop
  · next hnone =>
    split at h
    · cases h
    · next ck _ =>
      split at h
      · cases h
      · split at h
        · cases h
        · next hgap =>
          obtain ⟨_, -, h⟩ := except_bind_eq_ok.mp h
          cases h
          exact .skip ck hnone (Nat.not_lt.mp hgap)

theorem establishResponder_keeps {s s' : NoiseSession P} {ephPublic : RatchetPublic} {ct : Bytes}
    (h : s.establishResponder ephPublic ct = .ok s') : s'.skipped = s.skipped ∧ s'.recvN = s.recvN := by
  unfold establishResponder at h
  split at h
  · cases h
  · obtain ⟨_, -, h⟩ := except_bind_eq_ok.mp h
    cases h
    exact ⟨rfl, rfl⟩

theorem readHeader_keeps {s s' : NoiseSession P} {aad : Bytes} {n : Nat} (h : s.readHeader.parse aad = .ok (s', n)) :
    s'.skipped = s.skipped ∧ s'.recvN = s.recvN := by
  obtain ⟨⟨_, _⟩, hread, heq⟩ := except_map_eq_ok h
  cases heq
  obtain ⟨flag, _, -, hread⟩ := Reader.bind_eq_ok.mp hread
  obtain ⟨s₁, _, hkey, hread⟩ := Reader.bind_eq_ok.mp hread
  obtain ⟨_, _, -, hread⟩ := Reader.bind_eq_ok.mp hread
  obtain ⟨_, _, -, hread⟩ := Reader.bind_eq_ok.mp hread
  cases hread
  split at hkey
  · obtain ⟨_, _, -, hkey⟩ := Reader.bind_eq_ok.mp hkey
    obtain ⟨_, _, -, hkey⟩ := Reader.bind_eq_ok.mp hkey
    obtain ⟨_, _, -, hkey⟩ := Reader.bind_eq_ok.mp hkey
    split at hkey
    · exact establishResponder_keeps (Reader.lift_eq_ok hkey)
    · cases hkey
      exact ⟨rfl, rfl⟩
  · cases hkey
    exact ⟨rfl, rfl⟩

inductive Call (P : Primitives) where
  | encrypt (c : SendCoins P) (plaintext : Bytes)
  | decrypt (message : Bytes)

def step (s : NoiseSession P) : Call P → NoiseSession P
  | .encrypt c plaintext => (s.encrypt c plaintext).1
  | .decrypt message => (s.decrypt message).1

/-- The number of a message, as the session reads it. -/
def numberOf (s : NoiseSession P) (message : Bytes) : Option Nat :=
  match Ratchet.Session.readMessage.parse message with
  | .error _ => none
  | .ok (aad, _) => (s.readHeader.parse aad).toOption.map Prod.snd

/-- A message that opens has room for the seeds that it adds. -/
def Room (s : NoiseSession P) : Call P → Prop
  | .encrypt _ _ => True
  | .decrypt message => (s.decrypt message).2.isOk →
    ∀ n, s.numberOf message = some n → HasRoom s.skipped s.recvN n

theorem send_receiving (s : NoiseSession P) (pt : Bytes) :
    (s.send pt).1.recvChain = s.recvChain ∧ (s.send pt).1.recvN = s.recvN ∧ (s.send pt).1.skipped = s.skipped := by
  unfold send
  split
  · exact ⟨rfl, rfl, rfl⟩
  · split
    · exact ⟨rfl, rfl, rfl⟩
    · dsimp only
      split <;> exact ⟨rfl, rfl, rfl⟩

theorem encrypt_skipped (s : NoiseSession P) (c : SendCoins P) (pt : Bytes) :
    (s.encrypt c pt).1.skipped = s.skipped := by
  unfold encrypt
  split
  · split
    · split
      · rfl
      · next s' hs' =>
        rw [(send_receiving s' pt).2.2]
        unfold establishInitiator at hs'
        split at hs'
        · cases hs'
        · obtain ⟨_, -, hs'⟩ := except_bind_eq_ok.mp hs'
          cases hs'
          rfl
    · rfl
  · exact (send_receiving s pt).2.2

theorem step_length_le {s : NoiseSession P} {call : Call P} (hle : s.skipped.toList.length ≤ MAX_SKIP)
    (hroom : s.Room call) : (s.step call).skipped.toList.length ≤ MAX_SKIP := by
  cases call with
  | encrypt c pt => rwa [step, encrypt_skipped]
  | decrypt message =>
    unfold step
    dsimp only
    cases hinner : s.decryptInner message with
    | error e => simpa only [decrypt, hinner] using hle
    | ok res =>
      obtain ⟨s', pt⟩ := res
      have hres : s.decrypt message = (s', .ok pt) := by rw [decrypt, hinner]
      obtain ⟨⟨aad, ct⟩, hread, hrest⟩ := except_bind_eq_ok.mp hinner
      obtain ⟨⟨s₁, n⟩, hheader, hreceive⟩ := except_bind_eq_ok.mp hrest
      obtain ⟨hskipped, hrecvN⟩ := readHeader_keeps hheader
      have hnumber : s.numberOf message = some n := by
        rw [numberOf, hread]
        dsimp only
        rw [hheader]
        rfl
      have hkeeps := receive_keeps hreceive
      rw [hskipped, hrecvN] at hkeeps
      rw [hres]
      exact hkeeps.length_le (hroom (by rw [hres]; rfl) n hnumber) hle

end NoiseSession

/-! ## The sender-key receiver -/

namespace SenderKeyReceiver
variable {r : SenderKeyReceiver P} {f : Frame}

def Room (r : SenderKeyReceiver P) (f : Frame) : Prop := HasRoom r.skipped r.n f.n

instance (r : SenderKeyReceiver P) (f : Frame) : Decidable (r.Room f) := inferInstanceAs (Decidable (HasRoom ..))

theorem step_keeps (r : SenderKeyReceiver P) (f : Frame) : Keeps P.kdfCk f.n r.skipped r.n (r.step f).skipped := by
  unfold step
  cases hres : (r.openAt f.n f.ct f.aad).2 with
  | error e =>
    rw [openAt_eq_error hres]
    split
    · next hahead => exact .skip r.chain hahead.1 hahead.2.2
    · exact .same
  | ok pt =>
    rcases openAt_eq_ok hres with ⟨_, -, -, hstep⟩ | ⟨hnone, -, hgap, -, hstep⟩
    · rw [hstep]
      exact .drop
    · rw [hstep]
      exact .skip r.chain hnone hgap

end SenderKeyReceiver

/-! ## The group receiver -/

namespace TreeKem.Group
variable {S : Scheme} {M : Messaging S} {g : Group S}

def receiveStep (M : Messaging S) (g : Group S) (f : Incoming) : Group S := (g.receive M f).1

def kept (g : Group S) (leaf : Nat) : Table Nat S.Secret := (g.recvChain leaf).skipped

def Room (leaf : Nat) (g : Group S) (f : Incoming) : Prop :=
  ∀ m, f.body g = some m → m.leaf = leaf → HasRoom (g.kept leaf) (g.recvChain leaf).n m.n

theorem decryptBody_keeps (g : Group S) (epoch leaf n : Nat) (ct : Bytes) :
    Keeps M.kdfCk n (g.kept leaf) (g.recvChain leaf).n ((g.decryptBody M epoch leaf n ct).1.kept leaf) ∧
      ∀ l, l ≠ leaf → (g.decryptBody M epoch leaf n ct).1.kept l = g.kept l := by
  have hset (recv : RecvChain S) (hkeeps : Keeps M.kdfCk n (g.kept leaf) (g.recvChain leaf).n recv.skipped) :
      Keeps M.kdfCk n (g.kept leaf) (g.recvChain leaf).n ((g.setRecv leaf recv).kept leaf) ∧
        ∀ l, l ≠ leaf → (g.setRecv leaf recv).kept l = g.kept l := by
    refine ⟨?_, fun l hl => ?_⟩
    · rwa [kept.eq_1 (g.setRecv leaf recv), recvChain_setRecv, if_pos rfl]
    · rw [kept, recvChain_setRecv, if_neg hl, kept]
  unfold decryptBody
  dsimp only
  split
  · exact hset _ .drop
  · next hnone =>
    split
    · exact hset _ .same
    · split
      · exact hset _ .same
      · next hgap =>
        have hskip : Keeps M.kdfCk n (g.kept leaf) (g.recvChain leaf).n
            (KeyChain.skip M.kdfCk (n - (g.recvChain leaf).n) (g.recvChain leaf).chain (g.recvChain leaf).n
              (g.recvChain leaf).skipped).2 := .skip _ hnone (Nat.not_lt.mp hgap)
        rw [RecvChain.skipOne_iterate]
        dsimp only
        split
        · exact hset _ hskip
        · exact hset _ hskip

theorem receiveStep_length_le {f : Incoming} {leaf : Nat} (hle : (g.kept leaf).toList.length ≤ MAX_SKIP)
    (hroom : Room leaf g f) : ((g.receiveStep M f).kept leaf).toList.length ≤ MAX_SKIP := by
  unfold receiveStep
  cases hbody : f.body g with
  | none => rwa [(receive_of_body_eq_none hbody).1]
  | some m =>
    rw [receive_of_body hbody]
    obtain ⟨hown, hother⟩ := decryptBody_keeps (M := M) g m.epoch m.leaf m.n m.ct
    by_cases hl : leaf = m.leaf
    · subst hl
      exact hown.length_le (hroom m hbody rfl) hle
    · rwa [hother leaf hl]

end TreeKem.Group

/-- In every run of calls that all have room for the seeds they add, each receiver keeps at most `MAX_SKIP`. -/
theorem skipped_bounded (P : Primitives) (S : TreeKem.Scheme) (M : TreeKem.Messaging S) :
    (∀ (s : NoiseSession P) (calls : List (NoiseSession.Call P)), s.skipped.toList.length ≤ MAX_SKIP →
      Run.Along NoiseSession.step NoiseSession.Room s calls →
      (calls.foldl NoiseSession.step s).skipped.toList.length ≤ MAX_SKIP) ∧
    (∀ (r : SenderKeyReceiver P) (fs : List SenderKeyReceiver.Frame), r.skipped.toList.length ≤ MAX_SKIP →
      Run.Along SenderKeyReceiver.step SenderKeyReceiver.Room r fs →
      (fs.foldl SenderKeyReceiver.step r).skipped.toList.length ≤ MAX_SKIP) ∧
    ∀ (g : TreeKem.Group S) (leaf : Nat) (fs : List TreeKem.Group.Incoming),
      (g.kept leaf).toList.length ≤ MAX_SKIP →
      Run.Along (TreeKem.Group.receiveStep M) (TreeKem.Group.Room leaf) g fs →
      ((fs.foldl (TreeKem.Group.receiveStep M) g).kept leaf).toList.length ≤ MAX_SKIP := by
  refine ⟨fun s calls hs hrun => ?_, fun r fs hr hrun => ?_, fun g leaf fs hg hrun => ?_⟩
  · exact hrun.invariant (I := fun s => s.skipped.toList.length ≤ MAX_SKIP)
      (fun _ _ => NoiseSession.step_length_le) hs
  · exact hrun.invariant (I := fun r => r.skipped.toList.length ≤ MAX_SKIP)
      (fun r f hle hroom => (r.step_keeps f).length_le hroom hle) hr
  · exact hrun.invariant (I := fun g => (g.kept leaf).toList.length ≤ MAX_SKIP)
      (fun _ _ => TreeKem.Group.receiveStep_length_le) hg

/-- A forged frame one ahead leaves one key behind. -/
theorem skipped_bounded_forged :
    ([SenderKeyReceiver.Sample.forged 1 (by decide), SenderKeyReceiver.Sample.hello].foldl SenderKeyReceiver.step
      (.fromInitial SenderKeyReceiver.Sample.first)).skipped.toList.length ≤ MAX_SKIP :=
  (skipped_bounded .ideal .plain .plain).2.1 _ _ (Nat.zero_le _) (by decide +kernel)

/-! ## Two gaps -/

namespace Losses

open KeyChain.Receiver

variable {K σ ε : Type} {kdf : K → K × K} {c : K}

theorem length_used {r : KeyChain.Receiver K} {n : Nat} (h : r.Follows kdf c) (hle : r.n ≤ n) :
    (r.used kdf n).skipped.toList.length = r.skipped.toList.length + (n - r.n) := by
  have hfree (m : Nat) (hm : r.n ≤ m) : r.skipped.lookup m = none := by
    by_contra hsome
    obtain ⟨seed, hseed⟩ := Option.ne_none_iff_exists'.mp hsome
    exact absurd (h.kept m seed hseed).1 hm.not_gt
  rw [used, hfree n hle]
  exact KeyChain.length_skip _ _ _ _ hfree

/-- A receiver of the chain moves on for a message `G k m` of it: after two messages, each `MAX_SKIP` messages
after the one before, it keeps twice that many seeds. -/
theorem two_gaps {f : σ → ε → σ} {q : σ → Option (KeyChain.Receiver K)} {G : Nat → ε → Prop}
    (hgen : ∀ {s r k m}, G k m → k < 2 ^ 32 → q s = some r → r.Follows kdf c → r.n ≤ k → k ≤ r.n + MAX_SKIP →
      q (f s m) = some (r.used kdf k))
    {s : σ} (hs : q s = some (start c)) {m m' : ε} (h : G MAX_SKIP m) (h' : G (MAX_SKIP + 1 + MAX_SKIP) m') :
    ∃ r, q ([m, m'].foldl f s) = some r ∧ MAX_SKIP < r.skipped.toList.length := by
  have hfollows : (start c).Follows kdf c := follows_start c
  have hstart : (start c).n ≤ MAX_SKIP := Nat.zero_le _
  have hstep := hgen h (by decide) hs hfollows hstart (Nat.le_add_left ..)
  have hn : ((start c).used kdf MAX_SKIP).n = MAX_SKIP + 1 := hfollows.used_n hstart
  have hlen := length_used hfollows hstart
  have hfollows' := (hfollows.used (fun hused => absurd hused.1 hstart.not_gt) (by decide : MAX_SKIP + 1 < 2 ^ 32)).1
  have hle : ((start c).used kdf MAX_SKIP).n ≤ MAX_SKIP + 1 + MAX_SKIP := by omega
  refine ⟨_, hgen h' (by decide) hstep hfollows' hle (by omega), ?_⟩
  have hpos : 0 < MAX_SKIP := by decide
  rw [length_used hfollows' hle, hn, hlen]
  show MAX_SKIP < _ + (MAX_SKIP - 0) + _
  omega

end Losses

namespace NoiseSession

/-- Message `k` of the responder, on the chain that starts with `chain`. -/
def Genuine (chain : P.Key) (k : Nat) (message : Bytes) : Prop :=
  ∃ pt ct, P.sealWith (seedAt P.kdfCk chain k) pt (header none k) = .ok ct ∧ ct.length ≤ MAX_FRAME ∧
    message = putBytes (header none k) ++ putBytes ct


theorem decrypt_genuine (hcorrect : P.AeadCorrect) {s : NoiseSession P} {r : KeyChain.Receiver P.Key} {c : P.Key}
    {k : Nat} {message : Bytes} (h : Genuine c k message) (hk : k < 2 ^ 32) (hr : s.receiver = some r)
    (hfollows : r.Follows P.kdfCk c) (hle : r.n ≤ k) (hgap : k ≤ r.n + MAX_SKIP) :
    (s.decrypt message).1.receiver = some (r.used P.kdfCk k) := by
  obtain ⟨pt, ct, hseal, hct, rfl⟩ := h
  have hinner : s.decryptInner (putBytes (header none k) ++ putBytes ct) = s.receive k ct (header none k) :=
    decryptInner_append s (readable_none _) hk hct
  rw [receive_eq hr, hfollows.seedFor_eq_some (fun hused => absurd hused.1 hle.not_gt) hgap] at hinner
  dsimp only at hinner
  rw [Primitives.openWith_sealWith hcorrect hseal] at hinner
  rw [decrypt, hinner]
  rfl

end NoiseSession

namespace SenderKeyReceiver

theorem step_genuine (hcorrect : P.AeadCorrect) {r : SenderKeyReceiver P} {c : P.Key} {k : Nat} {f : Frame}
    (h : Genuine c k f) (hk : k < 2 ^ 32) (hfollows : r.Follows P.kdfCk c) (hle : r.n ≤ k) (hgap : k ≤ r.n + MAX_SKIP) :
    step r f = r.used P.kdfCk k := by
  obtain ⟨hn, pt, hseal⟩ := h
  rw [Nat.mod_eq_of_lt hk] at hn
  have hseed := hfollows.seedFor_eq_some (fun hused => absurd hused.1 hle.not_gt) hgap
  rw [step, hn, openAt_of_seedFor hseed (Primitives.openWith_sealWith hcorrect hseal)]

end SenderKeyReceiver

namespace TreeKem.Group
variable {S : Scheme} {M : Messaging S}

def Genuine (M : Messaging S) (g : Group S) (leaf k : Nat) (m : UnsignedMessage) : Prop :=
  m.epoch = g.epoch ∧ m.leaf = leaf ∧ m.n = k ∧ ∃ pt,
    M.aeadSeal (seedAt M.kdfCk (S.senderChain g.epochSecret leaf) k) pt (msgAad m.epoch m.leaf m.n) = .ok m.ct ∧
      M.aeadOpen (seedAt M.kdfCk (S.senderChain g.epochSecret leaf) k) m.ct (msgAad m.epoch m.leaf m.n) = .ok pt

/-- The receiving chain of a leaf, while the group is in the epoch. -/
def recvIn (epoch leaf : Nat) (g : Group S) : Option (RecvChain S) :=
  if g.epoch = epoch then some (g.recvChain leaf) else none

theorem receiveStep_genuine {g g' : Group S} {leaf k : Nat} {m : UnsignedMessage} {r : RecvChain S}
    (h : g.Genuine M leaf k m ∧ m.ct.length ≤ MAX_FRAME) (hepoch : g.epoch < 2 ^ 32) (hleaf : leaf < 2 ^ 32)
    (hk : k < 2 ^ 32) (hr : recvIn g.epoch leaf g' = some r)
    (hfollows : r.Follows M.kdfCk (S.senderChain g.epochSecret leaf)) (hle : r.n ≤ k) (hgap : k ≤ r.n + MAX_SKIP) :
    recvIn g.epoch leaf (g'.receiveStep M (.unsigned m.encode)) = some (r.used M.kdfCk k) := by
  obtain ⟨⟨hme, rfl, rfl, pt, -, hopen⟩, hct⟩ := h
  unfold recvIn at hr
  split at hr
  case isFalse => cases hr
  case isTrue hsame =>
    cases hr
    have hbody : Incoming.body g' (.unsigned m.encode) = some m := by
      simp only [Incoming.body, UnsignedMessage.decode_encode (hme ▸ hepoch) hleaf hk hct, if_pos (hme.trans hsame.symm)]
    have hseed := hfollows.seedFor_eq_some (fun hused => absurd hused.1 hle.not_gt) hgap
    rcases decryptBody_eq (M := M) g' m.epoch m.leaf m.n m.ct with ⟨hnone, -⟩ | ⟨seed, hsome, -, hset⟩
    · rw [hnone] at hseed
      cases hseed
    · obtain rfl := Option.some.inj (hseed.symm.trans hsome)
      rw [hopen] at hset
      rw [receiveStep, receive_of_body hbody]
      dsimp only
      rw [hset]
      refine (if_pos hsame).trans ?_
      rw [recvChain_setRecv, if_pos rfl]
      rfl

end TreeKem.Group

namespace Losses

theorem noise_gaps (hcorrect : P.AeadCorrect) {s : NoiseSession P} {c : P.Key} (hs : s.receiver = some (.start c))
    {m m' : Bytes} (h : NoiseSession.Genuine c MAX_SKIP m) (h' : NoiseSession.Genuine c (MAX_SKIP + 1 + MAX_SKIP) m') :
    MAX_SKIP < (([.decrypt m, .decrypt m'] : List (NoiseSession.Call P)).foldl NoiseSession.step
      s).skipped.toList.length := by
  obtain ⟨r, hr, hmany⟩ := two_gaps (f := fun s m => NoiseSession.step s (.decrypt m)) (q := NoiseSession.receiver)
    (G := NoiseSession.Genuine c) (fun h => NoiseSession.decrypt_genuine hcorrect h) hs h h'
  obtain ⟨ck, -, rfl⟩ := Option.map_eq_some_iff.mp hr
  exact hmany

theorem senderKey_gaps (hcorrect : P.AeadCorrect) {c : P.Key} {f f' : SenderKeyReceiver.Frame}
    (h : SenderKeyReceiver.Genuine c MAX_SKIP f) (h' : SenderKeyReceiver.Genuine c (MAX_SKIP + 1 + MAX_SKIP) f') :
    MAX_SKIP < ([f, f'].foldl SenderKeyReceiver.step (.fromInitial c)).skipped.toList.length := by
  obtain ⟨r, hr, hmany⟩ := two_gaps (f := SenderKeyReceiver.step) (q := some)
    (s := SenderKeyReceiver.fromInitial c) (K := P.Key) (G := SenderKeyReceiver.Genuine c)
    (by
      rintro s _ k f h hk ⟨⟩ hfollows hle hgap
      rw [SenderKeyReceiver.step_genuine hcorrect h hk hfollows hle hgap]) rfl h h'
  cases hr
  exact hmany

theorem group_gaps {S : TreeKem.Scheme} {M : TreeKem.Messaging S} {g : TreeKem.Group S} {leaf : Nat}
    {m m' : TreeKem.UnsignedMessage} (hrecvs : g.recvs = ∅) (hepoch : g.epoch < 2 ^ 32) (hleaf : leaf < 2 ^ 32)
    (h : g.Genuine M leaf MAX_SKIP m ∧ m.ct.length ≤ MAX_FRAME)
    (h' : g.Genuine M leaf (MAX_SKIP + 1 + MAX_SKIP) m' ∧ m'.ct.length ≤ MAX_FRAME) :
    MAX_SKIP < ((([.unsigned m.encode, .unsigned m'.encode] : List TreeKem.Group.Incoming).foldl
      (TreeKem.Group.receiveStep M) g).kept leaf).toList.length := by
  have hstart : TreeKem.Group.recvIn g.epoch leaf g = some (.start (S.senderChain g.epochSecret leaf)) := by
    rw [TreeKem.Group.recvIn, if_pos rfl, TreeKem.Group.recvChain, hrecvs, AList.lookup_empty]
    rfl
  obtain ⟨r, hr, hmany⟩ := two_gaps (f := fun g (m : TreeKem.UnsignedMessage) =>
    TreeKem.Group.receiveStep M g (.unsigned m.encode)) (q := TreeKem.Group.recvIn g.epoch leaf)
    (G := fun k m => g.Genuine M leaf k m ∧ m.ct.length ≤ MAX_FRAME)
    (fun h hk hr => TreeKem.Group.receiveStep_genuine h hepoch hleaf hk hr) hstart h h'
  unfold TreeKem.Group.recvIn at hr
  split at hr
  · cases hr
    exact hmany
  · cases hr

open Primitives (ideal)

def place (a k : Nat) : ideal.Key := (a, k)

def coin (c : UInt8) : ideal.Coin := c

theorem chainAt_place (a b k : Nat) : chainAt ideal.kdfCk (place a b) k = place a (b + k) := by
  induction k with
  | zero => rfl
  | succ k ih =>
    rw [KeyChain.chainAt_succ, ih]
    rfl

def bobPrekey : RatchetPublic := (RatchetSecret.generate ideal .hybrid ⟨coin 1, coin 1⟩).2

def alice : NoiseSession ideal :=
  ((NoiseSession.newInitiator (place 0 0) bobPrekey).encrypt ⟨⟨coin 2, coin 2⟩, coin 3⟩ []).1

theorem alice_listens : alice.recvChain = some (place 2 0) ∧ alice.receiver = some (.start (place 2 0)) := by
  obtain ⟨ikm, hstep, -⟩ := Primitives.ideal_step ⟨coin 2, coin 2⟩ ⟨coin 1, coin 1⟩ (coin 3)
  have hkeyed : ∃ s, (NoiseSession.newInitiator (place 0 0) bobPrekey).establishInitiator
      ⟨⟨coin 2, coin 2⟩, coin 3⟩ = .ok s ∧ s.recvChain = some (place 2 0) ∧ s.recvN = 0 ∧ s.skipped = ∅ := by
    refine ⟨_, except_bind_eq_ok.mpr ⟨_, hstep, rfl⟩, ?_, rfl, rfl⟩
    exact congrArg (some <| place · 0) (show Nat.pair 1 0 = 2 by decide)
  obtain ⟨s, hs, hrecv⟩ := hkeyed
  have halice : alice = (s.send []).1 := by
    unfold alice NoiseSession.encrypt
    rw [hs]
    rfl
  obtain ⟨h1, h2, h3⟩ := s.send_receiving []
  rw [NoiseSession.receiver, halice, h1, h2, h3, hrecv.1, hrecv.2.1, hrecv.2.2]
  exact ⟨rfl, rfl⟩

def fromBob (k : Nat) : Bytes :=
  putBytes (NoiseSession.header none k) ++ putBytes (sealHead (2, k + 1) [] (NoiseSession.header none k) ++ [])

theorem fromBob_genuine {k : Nat} (hk : k ≤ 10000) : NoiseSession.Genuine (place 2 0) k (fromBob k) := by
  refine ⟨[], _, ?_, ?_, rfl⟩
  · rw [seedAt, chainAt_place, Nat.zero_add]
    rfl
  · simp only [sealHead, sized, List.append_nil, List.length_append, unary_length, NoiseSession.header, putU8, putU32,
      beBytes_length, List.length_singleton, List.length_nil]
    unfold MAX_FRAME
    omega

def spoken (k : Nat) (h : k < 2 ^ 32) : SenderKeyReceiver.Frame :=
  ⟨k, sealHead (0, k + 1) [] (GroupSession.aadFor k) ++ [], GroupSession.aadFor k, h⟩

theorem spoken_genuine (k : Nat) (h : k < 2 ^ 32) : SenderKeyReceiver.Genuine (place 0 0) k (spoken k h) := by
  refine ⟨(Nat.mod_eq_of_lt h).symm, [], ?_⟩
  rw [seedAt, chainAt_place, Nat.zero_add]
  rfl

/-- A founder, which hears what others say in its first epoch. -/
def founder : TreeKem.Group .plain := .createWithSig .hybrid (5 : UInt8) (7 : UInt8)

def said (k : Nat) : TreeKem.UnsignedMessage where
  epoch := 0
  leaf := 1
  n := k
  ct := seedAt TreeKem.Messaging.plain.kdfCk (TreeKem.Scheme.plain.senderChain founder.epochSecret 1) k ::
    TreeKem.msgAad 0 1 k

theorem said_genuine (k : Nat) : founder.Genuine .plain 1 k (said k) := by
  refine ⟨rfl, rfl, rfl, [], congrArg Except.ok (congrArg _ (List.append_nil _)), ?_⟩
  have hlen (seed : UInt8) (aad : Bytes) : (seed :: aad).length ≤ aad.length + 1 := le_rfl
  exact (if_pos (List.take_of_length_le (hlen _ _))).trans
    (congrArg Except.ok (List.drop_of_length_le (hlen _ (TreeKem.msgAad 0 1 k))))

theorem said_length (k : Nat) : (said k).ct.length ≤ MAX_FRAME := by
  simp only [said, TreeKem.msgAad, putU32, List.length_cons, List.length_append, beBytes_length]
  decide

/-- Two messages of an honest sender, each `MAX_SKIP` messages after the one before, and twice that many keys. -/
theorem kept_too_many :
    (∃ m m' c, alice.recvChain = some c ∧ NoiseSession.Genuine c MAX_SKIP m ∧
      NoiseSession.Genuine c (MAX_SKIP + 1 + MAX_SKIP) m' ∧
      MAX_SKIP < (([.decrypt m, .decrypt m'] : List (NoiseSession.Call ideal)).foldl NoiseSession.step
        alice).skipped.toList.length) ∧
    (∃ f f', SenderKeyReceiver.Genuine (place 0 0) MAX_SKIP f ∧
      SenderKeyReceiver.Genuine (place 0 0) (MAX_SKIP + 1 + MAX_SKIP) f' ∧
      MAX_SKIP < ([f, f'].foldl SenderKeyReceiver.step (.fromInitial (place 0 0))).skipped.toList.length) ∧
    ∃ m m', founder.Genuine .plain 1 MAX_SKIP m ∧ founder.Genuine .plain 1 (MAX_SKIP + 1 + MAX_SKIP) m' ∧
      MAX_SKIP < ((([.unsigned m.encode, .unsigned m'.encode] : List TreeKem.Group.Incoming).foldl
        (TreeKem.Group.receiveStep .plain) founder).kept 1).toList.length := by
  have hlt : MAX_SKIP + 1 + MAX_SKIP < 2 ^ 32 := by decide
  have hbob : NoiseSession.Genuine (place 2 0) MAX_SKIP (fromBob MAX_SKIP) ∧
      NoiseSession.Genuine (place 2 0) (MAX_SKIP + 1 + MAX_SKIP) (fromBob (MAX_SKIP + 1 + MAX_SKIP)) :=
    ⟨fromBob_genuine (by decide), fromBob_genuine (by decide)⟩
  refine ⟨⟨_, _, place 2 0, alice_listens.1, hbob.1, hbob.2, ?_⟩,
    ⟨spoken MAX_SKIP (by omega), spoken _ hlt, spoken_genuine .., spoken_genuine .., ?_⟩,
    said MAX_SKIP, said (MAX_SKIP + 1 + MAX_SKIP), said_genuine _, said_genuine _, ?_⟩
  · exact noise_gaps Primitives.ideal_aeadCorrect alice_listens.2 hbob.1 hbob.2
  · exact senderKey_gaps Primitives.ideal_aeadCorrect (spoken_genuine ..) (spoken_genuine ..)
  · exact group_gaps rfl (by decide) (by decide) ⟨said_genuine _, said_length _⟩ ⟨said_genuine _, said_length _⟩

end Losses

end Talkrypt
