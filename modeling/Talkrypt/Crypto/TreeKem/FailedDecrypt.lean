import Talkrypt.Crypto.TreeKem.Epochs

/-!
# Group messages that fail to decrypt

Which seed a receiving chain has for a message (`seedFor`) decides whether the message opens. A
frame that fails may still move the chain, which changes no seed, but it also takes a kept seed out of it:
the genuine message of that number is lost then (`Sample.forged_frame_burns`). Every other message opens
afterwards as it did before (`harmless_iff`).
-/

namespace Talkrypt.TreeKem
open KeyChain (chainAt seedAt)
open Ratchet (MAX_SKIP)

variable {S : Scheme}

namespace RecvChain
open KeyChain.Receiver

variable {M : Messaging S} {recv : RecvChain S} {n k : Nat} {seed : S.Secret}

theorem seedFor_eq_some : recv.seedFor M.kdfCk MAX_SKIP k = some seed ↔ recv.skipped.lookup k = some seed ∨
    recv.skipped.lookup k = none ∧ recv.n ≤ k ∧ k - recv.n ≤ MAX_SKIP ∧
      seedAt M.kdfCk recv.chain (k - recv.n) = seed := by
  cases hkept : recv.skipped.lookup k with
  | some s =>
    rw [seedFor_of_lookup hkept]
    simp
  | none =>
    rw [seedFor_of_lookup_eq_none hkept]
    split
    · next h =>
      simp only [reduceCtorEq, true_and, false_or, false_iff]
      omega
    · next h =>
      simp only [Option.some.injEq, reduceCtorEq, true_and, false_or]
      exact ⟨fun heq => ⟨by omega, by omega, heq⟩, fun heq => heq.2.2⟩

theorem le_of_seedFor (hn : recv.seedFor M.kdfCk MAX_SKIP n ≠ none) (hnone : recv.skipped.lookup n = none) : recv.n ≤ n := by
  obtain ⟨s, hs⟩ := Option.ne_none_iff_exists'.mp hn
  rcases seedFor_eq_some.mp hs with hkept | ⟨-, hle, -⟩
  · exact nomatch hnone.symm.trans hkept
  · exact hle

def Behind (recv : RecvChain S) : Prop := ∀ k, recv.skipped.lookup k ≠ none → k < recv.n

theorem seedFor_moved (hbehind : recv.Behind) {recv' : RecvChain S}
    (hskipped : recv'.skipped = (KeyChain.skip M.kdfCk (n - recv.n) recv.chain recv.n recv.skipped).2)
    (hrest : n ≤ k → ∃ j, recv'.n = recv.n + j ∧ recv'.chain = chainAt M.kdfCk recv.chain j ∧ recv.n + j ≤ k)
    (hk : recv.seedFor M.kdfCk MAX_SKIP k = some seed) : recv'.seedFor M.kdfCk MAX_SKIP k = some seed := by
  have hlookup := lookup_skip_to M.kdfCk recv n k
  rw [← hskipped] at hlookup
  rw [seedFor_eq_some] at hk ⊢
  rcases hk with hkept | ⟨hnone, hle, hgap, hseed⟩
  · have hlt := hbehind k (hkept ▸ Option.some_ne_none seed)
    rw [if_neg (by omega)] at hlookup
    exact .inl (hlookup.trans hkept)
  · by_cases hlt : k < n
    · rw [if_pos ⟨hle, hlt⟩, hseed] at hlookup
      exact .inl hlookup
    · obtain ⟨j, hn, hchain, hj⟩ := hrest (Nat.not_lt.mp hlt)
      rw [if_neg fun h => hlt h.2] at hlookup
      refine .inr ⟨hlookup.trans hnone, by omega, by omega, ?_⟩
      rw [hn, hchain, KeyChain.seedAt_chainAt, ← hseed]
      congr 1
      omega

theorem seedFor_erase (hne : k ≠ n) :
    ({ recv with skipped := recv.skipped.erase n } : RecvChain S).seedFor M.kdfCk MAX_SKIP k = recv.seedFor M.kdfCk MAX_SKIP k := by
  unfold seedFor
  dsimp only
  rw [Table.lookup_erase_eq, if_neg hne]

theorem seedFor_tried (hbehind : recv.Behind) (hn : recv.seedFor M.kdfCk MAX_SKIP n ≠ none) (hk : recv.seedFor M.kdfCk MAX_SKIP k = some seed)
    (hother : k ≠ n ∨ recv.skipped.lookup n = none) : (recv.tried M n).seedFor M.kdfCk MAX_SKIP k = some seed := by
  unfold tried
  split
  · next s hs => rwa [seedFor_erase (hother.resolve_right (hs ▸ Option.some_ne_none s))]
  · next hnone =>
    have hle := le_of_seedFor hn hnone
    rw [skipOne_iterate]
    exact seedFor_moved hbehind rfl (fun hnk => ⟨n - recv.n, rfl, KeyChain.skip_fst .., by omega⟩) hk

theorem seedFor_used (hbehind : recv.Behind) (hn : recv.seedFor M.kdfCk MAX_SKIP n ≠ none) (hk : recv.seedFor M.kdfCk MAX_SKIP k = some seed)
    (hne : k ≠ n) (hlt : k < 2 ^ 32) : (recv.used M.kdfCk n).seedFor M.kdfCk MAX_SKIP k = some seed := by
  unfold used
  split
  · rwa [seedFor_erase hne]
  · next hnone =>
    have hle := le_of_seedFor hn hnone
    refine seedFor_moved hbehind rfl (fun hnk => ⟨n - recv.n + 1, ?_, rfl, by omega⟩) hk
    dsimp only
    omega

theorem seedFor_tried_self (hbehind : recv.Behind) (hkept : recv.skipped.lookup n ≠ none) :
    (recv.tried M n).seedFor M.kdfCk MAX_SKIP n = none := by
  have hlt := hbehind n hkept
  obtain ⟨s, hs⟩ := Option.ne_none_iff_exists'.mp hkept
  unfold tried
  rw [hs]
  unfold seedFor
  dsimp only
  rw [Table.lookup_erase_eq, if_pos rfl]
  exact if_pos (.inl hlt)

theorem seedFor_used_self (hbehind : recv.Behind) (hlt : n < 2 ^ 32) :
    (recv.used M.kdfCk n).seedFor M.kdfCk MAX_SKIP n = none := by
  by_cases hkept : recv.skipped.lookup n = none
  · have hlookup := lookup_skip_to M.kdfCk recv n n
    rw [if_neg (by omega), hkept] at hlookup
    rw [used, hkept]
    refine (seedFor_of_lookup_eq_none hlookup).trans ?_
    dsimp only
    -- the number after the last one is 0, and everything else is too far ahead of it
    have hfar : n + 1 = 2 ^ 32 → n > MAX_SKIP := fun h => by
      rw [Nat.succ.inj (h.trans (show 2 ^ 32 = Nat.succ (2 ^ 32 - 1) from rfl))]
      decide
    exact if_pos (by omega)
  · have htried : recv.used M.kdfCk n = recv.tried M n := by
      obtain ⟨s, hs⟩ := Option.ne_none_iff_exists'.mp hkept
      rw [used, tried, hs]
    rw [htried]
    exact seedFor_tried_self hbehind hkept

end RecvChain

namespace Group
variable {M : Messaging S} {g : Group S} {leaf : Nat} {pt : Bytes}

theorem behind_recvChain (h : g.Chained) (leaf : Nat) : (g.recvChain leaf).Behind := fun _ => recvChain_chained h

theorem body_setRecv (g : Group S) (leaf : Nat) (recv : RecvChain S) (f : Incoming) :
    f.body (g.setRecv leaf recv) = f.body g := by
  cases f <;> rfl

theorem text_setRecv (g : Group S) (leaf : Nat) (recv : RecvChain S) (f : Incoming) :
    f.text (g.setRecv leaf recv) = f.text g := by
  cases f <;> rfl

theorem receive_eq_ok {f : Incoming} : (g.receive M f).2 = .ok pt ↔ ∃ m seed body, f.body g = some m ∧
    (g.recvChain m.leaf).seedFor M.kdfCk MAX_SKIP m.n = some seed ∧
    M.aeadOpen seed m.ct (msgAad m.epoch m.leaf m.n) = .ok body ∧ f.text g body = .ok pt := by
  cases hbody : f.body g with
  | none =>
    obtain ⟨-, e, herror⟩ := receive_of_body_eq_none (M := M) hbody
    simp [herror]
  | some m =>
    rw [receive_of_body hbody]
    dsimp only
    rcases decryptBody_eq (M := M) g m.epoch m.leaf m.n m.ct with ⟨hnone, -, e, herror⟩ | ⟨seed, hseed, hopen, hset⟩
    · rw [herror]
      refine iff_of_false nofun ?_
      rintro ⟨_, seed, _, heq, hseed, -⟩
      cases heq
      exact nomatch hnone.symm.trans hseed
    · rw [hopen, hset, text_setRecv]
      constructor
      · intro h
        obtain ⟨body, hbody, htext⟩ := except_bind_eq_ok.mp h
        exact ⟨m, seed, body, rfl, hseed, hbody, htext⟩
      · rintro ⟨_, seed', body, heq, hseed', hbody, htext⟩
        cases heq
        cases hseed.symm.trans hseed'
        exact except_bind_eq_ok.mpr ⟨body, hbody, htext⟩

/-- The frame `f` takes the seed of the message in `m`: it has the same leaf and number, and the seed is a kept
one, or opens the body of `f`. -/
def Takes (M : Messaging S) (g : Group S) (f m : Incoming) : Prop :=
  ∃ b b', f.body g = some b ∧ m.body g = some b' ∧ b'.leaf = b.leaf ∧ b'.n = b.n ∧
    ((g.recvChain b.leaf).skipped.lookup b.n ≠ none ∨ (g.decryptBody M b.epoch b.leaf b.n b.ct).2.isOk)

section
variable {f m : Incoming} {b : UnsignedMessage} {recv : RecvChain S}

theorem takes_iff {b' : UnsignedMessage} (hf : f.body g = some b) (hm : m.body g = some b') :
    g.Takes M f m ↔ b'.leaf = b.leaf ∧ b'.n = b.n ∧
      ((g.recvChain b.leaf).skipped.lookup b.n ≠ none ∨ (g.decryptBody M b.epoch b.leaf b.n b.ct).2.isOk) := by
  constructor
  · rintro ⟨_, _, hf', hm', h⟩
    cases hf.symm.trans hf'
    cases hm.symm.trans hm'
    exact h
  · exact fun h => ⟨b, b', hf, hm, h⟩

theorem opens_setRecv (hm : m.body g = some b) {seed : S.Secret} {body : Bytes}
    (hopen : M.aeadOpen seed b.ct (msgAad b.epoch b.leaf b.n) = .ok body) (htext : m.text g body = .ok pt)
    (hseed : ((g.setRecv leaf recv).recvChain b.leaf).seedFor M.kdfCk MAX_SKIP b.n = some seed) :
    ((g.setRecv leaf recv).receive M m).2 = .ok pt :=
  receive_eq_ok.mpr ⟨b, seed, body, (body_setRecv ..).trans hm, hseed, hopen, (text_setRecv ..).symm ▸ htext⟩

theorem not_opens_setRecv (hm : m.body g = some b)
    (hseed : ((g.setRecv leaf recv).recvChain b.leaf).seedFor M.kdfCk MAX_SKIP b.n = none) :
    ((g.setRecv leaf recv).receive M m).2 ≠ .ok pt := fun h => by
  obtain ⟨_, _, _, hbody, hsome, -⟩ := receive_eq_ok.mp h
  cases (body_setRecv ..).symm.trans hbody |>.symm.trans hm
  exact nomatch hseed.symm.trans hsome

end

/-- After a frame, in particular one that fails, a message opens as before, unless the frame took its seed. -/
theorem harmless_iff (hg : g.Chained) (f m : Incoming) (hm : (g.receive M m).2 = .ok pt) :
    ((g.receive M f).1.receive M m).2 = .ok pt ↔ ¬ g.Takes M f m := by
  obtain ⟨b', seed', body', hbody', hseed', hopen', htext'⟩ := receive_eq_ok.mp hm
  cases hbody : f.body g with
  | none =>
    rw [(receive_of_body_eq_none hbody).1]
    refine iff_of_true hm ?_
    rintro ⟨_, _, hsome, -⟩
    exact nomatch hbody.symm.trans hsome
  | some b =>
    rw [receive_of_body hbody, takes_iff hbody hbody']
    have hbehind := behind_recvChain hg b.leaf
    -- a chain of another leaf is as before
    by_cases hleaf : b'.leaf = b.leaf
    case neg =>
      obtain ⟨recv, hset⟩ : ∃ recv, (g.decryptBody M b.epoch b.leaf b.n b.ct).1 = g.setRecv b.leaf recv := by
        rcases decryptBody_eq (M := M) g b.epoch b.leaf b.n b.ct with ⟨-, hset, -⟩ | ⟨_, -, -, hset⟩
        · exact ⟨_, hset⟩
        · exact ⟨_, hset⟩
      dsimp only
      rw [hset]
      refine iff_of_true (opens_setRecv hbody' hopen' htext' ?_) fun h => hleaf h.1
      rw [recvChain_setRecv, if_neg hleaf, hseed']
    rw [hleaf] at hseed'
    have hchain (recv : RecvChain S) : (g.setRecv b.leaf recv).recvChain b'.leaf = recv := by
      rw [recvChain_setRecv, if_pos hleaf]
    rcases decryptBody_eq (M := M) g b.epoch b.leaf b.n b.ct with ⟨hnone, hset, _, herror⟩ | ⟨seed, hseed, hopen, hset⟩
    · dsimp only
      rw [hset, herror]
      refine iff_of_true (opens_setRecv hbody' hopen' htext' (by rw [hchain, hseed'])) ?_
      rintro ⟨-, hn, -⟩
      rw [hn, hnone] at hseed'
      cases hseed'
    · have hsome : (g.recvChain b.leaf).seedFor M.kdfCk MAX_SKIP b.n ≠ none := hseed ▸ Option.some_ne_none seed
      dsimp only
      rw [hset, hopen]
      cases hok : (M.aeadOpen seed b.ct (msgAad b.epoch b.leaf b.n)).isOk with
      | true =>
        -- the body opened, and its padding was wrong
        rw [if_pos rfl]
        by_cases hn : b'.n = b.n
        · refine iff_of_false (not_opens_setRecv hbody' ?_) fun h => h ⟨hleaf, hn, .inr rfl⟩
          rw [hchain, hn]
          exact RecvChain.seedFor_used_self hbehind (Incoming.n_lt_of_body hbody)
        · refine iff_of_true (opens_setRecv hbody' hopen' htext' ?_) fun h => hn h.2.1
          rw [hchain]
          exact RecvChain.seedFor_used hbehind hsome hseed' hn (Incoming.n_lt_of_body hbody')
      | false =>
        rw [if_neg Bool.false_ne_true]
        by_cases hn : b'.n = b.n ∧ (g.recvChain b.leaf).skipped.lookup b.n ≠ none
        · refine iff_of_false (not_opens_setRecv hbody' ?_) fun h => h ⟨hleaf, hn.1, .inl hn.2⟩
          rw [hchain, hn.1]
          exact RecvChain.seedFor_tried_self hbehind hn.2
        · refine iff_of_true (opens_setRecv hbody' hopen' htext' ?_) ?_
          · rw [hchain]
            exact RecvChain.seedFor_tried hbehind hsome hseed' (by tauto)
          · rintro ⟨-, heq, hkept | hfalse⟩
            · exact hn ⟨heq, hkept⟩
            · cases hfalse

theorem chained_receive (hg : g.Chained) {f : Incoming} (hn : ∀ b, f.body g = some b → b.n + 1 < 2 ^ 32) :
    (g.receive M f).1.Chained := by
  cases hbody : f.body g with
  | none => rwa [(receive_of_body_eq_none hbody).1]
  | some b =>
    obtain ⟨recv, hset, hmoves, -⟩ := decryptBody_spec (M := M) hg b.epoch b.leaf b.ct (hn b hbody)
    rw [receive_of_body hbody]
    dsimp only
    rw [hset]
    exact chained_setRecv hmoves hg

/-! ## A forged frame for a kept seed -/

namespace Sample

def host : Group .plain := .createWithSig .hybrid (5 : UInt8) (7 : UInt8)

def peer : Group .plain := { host with me := 1 }.resetEpoch

def sent (res : Group .plain × Except CryptoError Bytes) : Incoming := .unsigned (res.2.toOption.getD [])

def first : Incoming := sent (peer.encrypt .plain [104])
def second : Incoming := sent ((peer.encrypt .plain [104]).1.encrypt .plain [105])

/-- The host has the second message and keeps the seed of the first. -/
def waiting : Group .plain := (host.receive .plain second).1

/-- Not a message of the peer, but with the leaf and the number of its first one. -/
def forged : Incoming := .unsigned (UnsignedMessage.encode ⟨0, 1, 0, []⟩)

theorem waiting_chained : waiting.Chained := by
  have hhost : host.Chained := chained_of_recvs_empty rfl
  refine chained_receive hhost fun b hb => ?_
  have hn : (second.body host).map UnsignedMessage.n = some 1 := by decide +kernel
  rw [hb] at hn
  rw [Option.some.inj hn]
  decide

/-- A forged frame further down the chain fails and does no harm. -/
def forgedAhead : Incoming := .unsigned (UnsignedMessage.encode ⟨0, 1, 5, []⟩)

theorem harmless_iff_forgedAhead : (waiting.receive .plain forgedAhead).2 = .error .decryptionFailed ∧
    ((waiting.receive .plain forgedAhead).1.receive .plain first).2 = .ok [104] := by
  refine ⟨by decide +kernel, (harmless_iff waiting_chained forgedAhead first (by decide +kernel)).mpr ?_⟩
  rintro ⟨b, b', hb, hb', -, hn, -⟩
  have hfive : (forgedAhead.body waiting).map UnsignedMessage.n = some 5 := by decide +kernel
  have hzero : (first.body waiting).map UnsignedMessage.n = some 0 := by decide +kernel
  rw [hb] at hfive
  rw [hb', Option.map_some, hn] at hzero
  exact nomatch (Option.some.inj hfive).symm.trans (Option.some.inj hzero)

/-- Before the forged frame, which fails, the first message opens; after it, it does not. -/
theorem forged_frame_burns :
    waiting.Chained ∧ (waiting.receive .plain forged).2 = .error .decryptionFailed ∧
      (waiting.receive .plain first).2 = .ok [104] ∧
      ((waiting.receive .plain forged).1.receive .plain first).2 = .error .decryptionFailed :=
  ⟨waiting_chained, by decide +kernel, by decide +kernel, by decide +kernel⟩

end Sample

end Group
end Talkrypt.TreeKem
