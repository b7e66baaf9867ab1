import Talkrypt.Lib.KeyChain
import Talkrypt.Lib.Run
import Talkrypt.Crypto.Ratchet.Ideal

/-!
# Sender keys (`crates/crypto/src/group.rs`)

Each member of a group owns a chain that moves on once per message, and every other member follows it with
a receiver. A receiver that is handed a message from further down the chain keeps the seeds of the messages
in between. It keeps them before the message is authenticated, but moves its own chain only afterwards: a
forged frame from further down leaves seeds behind that the chain can still derive, and a message that is
opened with such a seed can be opened once more from the chain (`Sample.opened_twice`). Where no frame fails
that is ahead of the chain, each position of the chain opens at most once (`opened_once`).
-/

namespace Talkrypt
open KeyChain (chainAt seedAt)
open Ratchet (MAX_SKIP)

/-- Identifier for a group member (its identity fingerprint). -/
abbrev MemberId := ByteArr 48

structure SenderKey (P : Primitives) where
  chain : P.Key
  n : Nat

abbrev SenderKeyReceiver (P : Primitives) := KeyChain.Receiver P.Key

variable {P : Primitives}

namespace SenderKey

/-- A fresh sender key, and the initial chain key to distribute. -/
def new (c : P.Coin) : SenderKey P × P.Key := (⟨P.drawKey c, 0⟩, P.drawKey c)

def sealNext (s : SenderKey P) (plaintext aad : Bytes) : SenderKey P × Except CryptoError (Nat × Bytes) :=
  match P.sealWith (P.kdfCk s.chain).2 plaintext aad with
  | .error e => (s, .error e)
  | .ok ct => (⟨(P.kdfCk s.chain).1, (s.n + 1) % 2 ^ 32⟩, .ok (s.n, ct))

end SenderKey

namespace SenderKeyReceiver

def fromInitial (chain : P.Key) : SenderKeyReceiver P := ⟨chain, 0, ∅⟩

/-- Open message `n`, with a kept seed or from the chain. -/
def openAt (r : SenderKeyReceiver P) (n : Nat) (ct aad : Bytes) : SenderKeyReceiver P × Except CryptoError Bytes :=
  match r.skipped.lookup n with
  | some mkSeed =>
    match P.openWith mkSeed ct aad with
    | .error e => (r, .error e)
    | .ok pt => ({ r with skipped := r.skipped.erase n }, .ok pt)
  | none =>
    if n < r.n then (r, .error .decryptionFailed)
    else if n - r.n > MAX_SKIP then (r, .error (.tooManySkipped MAX_SKIP))
    else
      let (chain, skipped) := KeyChain.skip P.kdfCk (n - r.n) r.chain r.n r.skipped
      match P.openWith (P.kdfCk chain).2 ct aad with
      -- the seeds have been kept by now, and the chain has not been moved
      | .error e => ({ r with skipped }, .error e)
      | .ok pt => ({ chain := (P.kdfCk chain).1, n := (n + 1) % 2 ^ 32, skipped }, .ok pt)

end SenderKeyReceiver

/-- A member's view of a group: its own sender key plus a receiver per peer. -/
structure GroupSession (P : Primitives) where
  own : SenderKey P
  receivers : Table MemberId (SenderKeyReceiver P)

namespace GroupSession

def new (c : P.Coin) : GroupSession P × P.Key := (⟨(SenderKey.new c).1, ∅⟩, (SenderKey.new c).2)

def addMember (g : GroupSession P) (member : MemberId) (initialChain : P.Key) : GroupSession P :=
  { g with receivers := g.receivers.insert member (.fromInitial initialChain) }

def aadFor (n : Nat) : Bytes := putU32 n

def sealMessage (g : GroupSession P) (plaintext : Bytes) : GroupSession P × Except CryptoError Bytes :=
  match g.own.sealNext plaintext (aadFor g.own.n) with
  | (own, .error e) => ({ g with own }, .error e)
  | (own, .ok (n, ct)) => ({ g with own }, .ok (putU32 n ++ putBytes ct))

def readMessage : Reader CryptoError (Nat × Bytes) := do
  let n ← Reader.getU32
  let ct ← Reader.getBytes
  Reader.finish
  pure (n, ct)

def openMessage (g : GroupSession P) (sender : MemberId) (message : Bytes) :
    GroupSession P × Except CryptoError Bytes :=
  match readMessage.parse message with
  | .error e => (g, .error e)
  | .ok (n, ct) =>
    match g.receivers.lookup sender with
    | none => (g, .error (.malformed "unknown group sender"))
    | some recv =>
      let (recv, res) := recv.openAt n ct (aadFor n)
      ({ g with receivers := g.receivers.insert sender recv }, res)

end GroupSession

/-! ## What one call does -/

namespace SenderKeyReceiver
variable {r : SenderKeyReceiver P} {n : Nat} {ct aad pt : Bytes} {e : CryptoError}

/-- Message `n` is further down the chain, and near enough to be tried. -/
def Ahead (r : SenderKeyReceiver P) (n : Nat) : Prop :=
  r.skipped.lookup n = none ∧ r.n < n ∧ n - r.n ≤ MAX_SKIP

instance (r : SenderKeyReceiver P) (n : Nat) : Decidable (r.Ahead n) :=
  inferInstanceAs (Decidable (_ = none ∧ _))

/-- The receiver that has kept the seeds up to message `n`. -/
def keep (r : SenderKeyReceiver P) (n : Nat) : Table Nat P.Key :=
  (KeyChain.skip P.kdfCk (n - r.n) r.chain r.n r.skipped).2

theorem keep_of_le (h : n ≤ r.n) : r.keep n = r.skipped := by
  rw [keep, Nat.sub_eq_zero_of_le h]
  rfl

/-- A call that opens its message uses a kept seed, which it drops, or one of the chain, which it moves past it. -/
theorem openAt_eq_ok (h : (r.openAt n ct aad).2 = .ok pt) :
    (∃ seed, r.skipped.lookup n = some seed ∧ P.openWith seed ct aad = .ok pt ∧
      (r.openAt n ct aad).1 = { r with skipped := r.skipped.erase n }) ∨
    r.skipped.lookup n = none ∧ r.n ≤ n ∧ n - r.n ≤ MAX_SKIP ∧
      P.openWith (seedAt P.kdfCk r.chain (n - r.n)) ct aad = .ok pt ∧
      (r.openAt n ct aad).1 =
        { chain := chainAt P.kdfCk r.chain (n - r.n + 1), n := (n + 1) % 2 ^ 32, skipped := r.keep n } := by
  unfold openAt at h ⊢
  split at h
  · next seed hseed =>
    split at h
    · cases h
    · next hopen =>
      cases h
      exact .inl ⟨seed, hseed, hopen, rfl⟩
  · next hnone =>
    split at h
    · cases h
    · next hle =>
      split at h
      · cases h
      · next hgap =>
        simp only [KeyChain.skip_fst] at h ⊢
        split at h
        · cases h
        · next hopen =>
          cases h
          refine .inr ⟨hnone, Nat.not_lt.mp hle, Nat.not_lt.mp hgap, hopen, ?_⟩
          simp only [if_neg hle, if_neg hgap, KeyChain.chainAt_succ, keep]

theorem openAt_of_seedFor {seed : P.Key} (hseed : r.seedFor P.kdfCk MAX_SKIP n = some seed)
    (hopen : P.openWith seed ct aad = .ok pt) : openAt r n ct aad = (r.used P.kdfCk n, .ok pt) := by
  unfold openAt KeyChain.Receiver.used
  cases hkept : r.skipped.lookup n with
  | some seed' =>
    cases (KeyChain.Receiver.seedFor_of_lookup hkept).symm.trans hseed
    simp only [hopen]
  | none =>
    rw [KeyChain.Receiver.seedFor_of_lookup_eq_none hkept] at hseed
    split at hseed
    · cases hseed
    · next hnear =>
      cases hseed
      rw [seedAt] at hopen
      simp only [if_neg fun h => hnear (.inl h), if_neg fun h => hnear (.inr h), KeyChain.skip_fst, hopen,
        KeyChain.chainAt_succ]

theorem openAt_eq_error (h : (r.openAt n ct aad).2 = .error e) :
    (r.openAt n ct aad).1 = if r.Ahead n then { r with skipped := r.keep n } else r := by
  unfold openAt at h ⊢
  split at h
  · next seed hseed =>
    rw [if_neg fun hahead : r.Ahead n => nomatch hseed.symm.trans hahead.1]
    split at h
    · rfl
    · cases h
  · next hnone =>
    split at h
    · next hlt => rw [if_neg fun hahead : r.Ahead n => absurd hahead.2.1 (by omega), if_pos hlt]
    · next hle =>
      split at h
      · next hgap => rw [if_neg fun hahead : r.Ahead n => absurd hahead.2.2 (by omega), if_neg hle, if_pos hgap]
      · next hgap =>
        rw [if_neg hle, if_neg hgap]
        dsimp only at h ⊢
        split at h
        · change { r with skipped := r.keep n } = _
          split
          · rfl
          · next hahead =>
            have hn : n ≤ r.n := not_lt.mp fun hlt => hahead ⟨hnone, hlt, Nat.not_lt.mp hgap⟩
            rw [keep_of_le hn]
        · cases h

/-! ## Runs -/

structure Frame where
  n : Nat
  ct : Bytes
  aad : Bytes
  fits : n < 2 ^ 32
deriving DecidableEq

def step (r : SenderKeyReceiver P) (f : Frame) : SenderKeyReceiver P := (r.openAt f.n f.ct f.aad).1

def Opens (r : SenderKeyReceiver P) (f : Frame) : Bool := (r.openAt f.n f.ct f.aad).2.isOk

def opened : SenderKeyReceiver P → List Frame → List Frame
  | _, [] => []
  | r, f :: fs => if r.Opens f then f :: opened (r.step f) fs else opened (r.step f) fs

/-- The frame is message `k` of the chain that starts with `chain`. -/
def Genuine (chain : P.Key) (k : Nat) (f : Frame) : Prop :=
  f.n = k % 2 ^ 32 ∧ ∃ pt, P.sealWith (seedAt P.kdfCk chain k) pt f.aad = .ok f.ct

/-- The receiver is at position `p` of the chain; of the earlier positions it keeps seeds that have not been
used. -/
structure At (c₀ : P.Key) (p : Nat) (used : List Nat) (r : SenderKeyReceiver P) : Prop where
  chain : r.chain = chainAt P.kdfCk c₀ p
  n : r.n = p % 2 ^ 32
  kept : ∀ i seed, r.skipped.lookup i = some seed →
    ∃ q, q < p ∧ q ∉ used ∧ i = q % 2 ^ 32 ∧ seed = seedAt P.kdfCk c₀ q
  used : ∀ q ∈ used, q < p

variable {c₀ : P.Key} {p q : Nat} {used : List Nat} {f : Frame} {fs : List Frame}

theorem at_fromInitial (c₀ : P.Key) : At c₀ 0 [] (fromInitial c₀) where
  chain := rfl
  n := rfl
  kept i _ h := nomatch (AList.lookup_empty i).symm.trans h
  used := nofun

theorem At.erase (h : At c₀ p used r) (hq : q < p) (hn : n = q % 2 ^ 32) :
    At c₀ p (q :: used) { r with skipped := r.skipped.erase n } where
  chain := h.chain
  n := h.n
  kept i seed hi := by
    rw [Table.lookup_erase_eq] at hi
    split at hi
    · cases hi
    · next hne =>
      obtain ⟨k, hk, hunused, rfl, hseed⟩ := h.kept i seed hi
      have hkq : k ≠ q := fun heq => hne (heq ▸ hn.symm)
      exact ⟨k, hk, List.not_mem_cons_of_ne_of_not_mem hkq hunused, rfl, hseed⟩
  used := List.forall_mem_cons.mpr ⟨hq, h.used⟩

theorem At.advance (h : At c₀ p used r) (hn : n < 2 ^ 32) (hle : r.n ≤ n) :
    At c₀ (p + (n - r.n) + 1) ((p + (n - r.n)) :: used)
      { chain := chainAt P.kdfCk r.chain (n - r.n + 1), n := (n + 1) % 2 ^ 32, skipped := r.keep n } where
  chain := by rw [h.chain, KeyChain.chainAt_chainAt, Nat.add_assoc]
  n := by
    have := h.n
    change (n + 1) % 2 ^ 32 = _
    omega
  kept i seed hi := by
    rw [keep, KeyChain.Receiver.lookup_skip_to] at hi
    split at hi
    · next hin =>
      cases hi
      refine ⟨p + (i - r.n), by omega, fun hmem => ?_, ?_, ?_⟩
      · rcases List.mem_cons.mp hmem with heq | hmem
        · omega
        · exact absurd (h.used _ hmem) (by omega)
      · have := h.n
        omega
      · rw [h.chain, KeyChain.seedAt_chainAt]
    · obtain ⟨k, hk, hunused, rfl, hseed⟩ := h.kept i seed hi
      have hkq : k ≠ p + (n - r.n) := by omega
      exact ⟨k, by omega, List.not_mem_cons_of_ne_of_not_mem hkq hunused, rfl, hseed⟩
  used := List.forall_mem_cons.mpr ⟨by omega, fun k hk => Nat.lt_of_lt_of_le (h.used k hk) (by omega)⟩

theorem At.opens (h : At c₀ p used r) (hopens : r.Opens f) :
    ∃ q pt p', q ∉ used ∧ P.openWith (seedAt P.kdfCk c₀ q) f.ct f.aad = .ok pt ∧
      At c₀ p' (q :: used) (r.step f) := by
  cases hres : (r.openAt f.n f.ct f.aad).2 with
  | error e =>
    rw [Opens, hres] at hopens
    cases hopens
  | ok pt =>
    rcases openAt_eq_ok hres with ⟨seed, hseed, hopen, hstep⟩ | ⟨-, hle, -, hopen, hstep⟩
    · obtain ⟨q, hq, hunused, hn, rfl⟩ := h.kept f.n seed hseed
      refine ⟨q, pt, p, hunused, hopen, ?_⟩
      rw [step, hstep]
      exact h.erase hq hn
    · refine ⟨p + (f.n - r.n), pt, p + (f.n - r.n) + 1, fun hmem => ?_, ?_, ?_⟩
      · exact absurd (h.used _ hmem) (by omega)
      · rwa [h.chain, KeyChain.seedAt_chainAt] at hopen
      · rw [step, hstep]
        exact h.advance f.fits hle

/-- The frame opens, or it is not ahead of the chain. -/
def Sound (r : SenderKeyReceiver P) (f : Frame) : Prop := r.Opens f ∨ ¬ r.Ahead f.n

instance (r : SenderKeyReceiver P) (f : Frame) : Decidable (r.Sound f) := inferInstanceAs (Decidable (_ ∨ _))

theorem step_of_not_opens (hsound : r.Sound f) (h : r.Opens f = false) : r.step f = r := by
  cases hres : (r.openAt f.n f.ct f.aad).2 with
  | error e => rw [step, openAt_eq_error hres, if_neg (hsound.resolve_left (by rw [h]; exact Bool.false_ne_true))]
  | ok pt =>
    rw [Opens, hres] at h
    cases h

theorem At.positions (h : At c₀ p used r) (hrun : Run.Along step Sound r fs) :
    ∃ qs, List.Forall₂ (fun f q => ∃ pt, P.openWith (seedAt P.kdfCk c₀ q) f.ct f.aad = .ok pt) (opened r fs) qs ∧
      qs.Nodup ∧ ∀ q ∈ qs, q ∉ used := by
  induction fs generalizing r p used with
  | nil => exact ⟨[], .nil, List.nodup_nil, nofun⟩
  | cons f fs ih =>
    rw [opened]
    split
    · next hopens =>
      obtain ⟨q, pt, p', hunused, hopen, hat⟩ := h.opens hopens
      obtain ⟨qs, hqs, hnodup, hfresh⟩ := ih hat hrun.2
      have hq : q ∉ qs := fun hmem => hfresh q hmem List.mem_cons_self
      refine ⟨q :: qs, .cons ⟨pt, hopen⟩ hqs, List.nodup_cons.mpr ⟨hq, hnodup⟩, ?_⟩
      exact List.forall_mem_cons.mpr ⟨hunused, fun k hk hmem => hfresh k hk (List.mem_cons_of_mem _ hmem)⟩
    · next hfails =>
      have hstep : r.step f = r := step_of_not_opens hrun.1 (Bool.eq_false_iff.mpr hfails)
      rw [hstep]
      have hrest := hrun.2
      rw [hstep] at hrest
      exact ih h hrest

theorem Genuine.eq_of_openWith (hintegrity : P.AeadIntegrity) (hkdf : P.KdfIdeal)
    (hfirst : ∀ c, (P.kdfCk c).1 ≠ c₀) {k : Nat} (h : Genuine c₀ k f)
    (hopen : P.openWith (seedAt P.kdfCk c₀ q) f.ct f.aad = .ok pt) : q = k := by
  obtain ⟨-, _, hseal⟩ := h
  have hkeys := (Primitives.eq_of_openWith hintegrity hseal hopen).1
  exact KeyChain.chainAt_inj hkdf.next hfirst (hkdf.seed _ _ (hkdf.message _ _ hkeys))

/-- Where every frame that is ahead of the chain opens, each genuine message opens at most once. -/
theorem opened_once (hintegrity : P.AeadIntegrity) (hkdf : P.KdfIdeal) (c₀ : P.Key)
    (hfirst : ∀ c, (P.kdfCk c).1 ≠ c₀) (fs : List Frame) (hrun : Run.Along step Sound (fromInitial c₀) fs)
    (k : Nat) (f : Frame) (hgenuine : Genuine c₀ k f) : (opened (fromInitial c₀) fs).count f ≤ 1 := by
  obtain ⟨qs, hqs, hnodup, -⟩ := (at_fromInitial c₀).positions hrun
  have hcount : (opened (fromInitial c₀) fs).count f ≤ qs.count k := by
    clear hnodup
    generalize opened (fromInitial c₀) fs = l at hqs ⊢
    induction hqs with
    | nil => exact le_rfl
    | @cons f' q l qs hopen _ ih =>
      obtain ⟨pt, hopen⟩ := hopen
      rw [List.count_cons, List.count_cons]
      by_cases hf : f' = f
      · subst hf
        rw [hgenuine.eq_of_openWith hintegrity hkdf hfirst hopen]
        simpa using ih
      · rw [if_neg (by simpa using hf)]
        exact ih.trans (Nat.le_add_right ..)
  exact hcount.trans (List.nodup_iff_count_le_one.mp hnodup k)

/-! ## A forged frame further down the chain -/

namespace Sample

def first : Primitives.ideal.Key := (0, 0)

def hello : Frame where
  n := 0
  ct := ((SenderKey.sealNext ⟨first, 0⟩ [104, 105] (GroupSession.aadFor 0)).2.toOption.map Prod.snd).getD []
  aad := GroupSession.aadFor 0
  fits := by decide

def forged (n : Nat) (h : n < 2 ^ 32) : Frame := ⟨n, [], GroupSession.aadFor n, h⟩

theorem hello_genuine : Genuine first 0 hello := ⟨rfl, [104, 105], by decide +kernel⟩

theorem kdfCk_ne_first (c : Primitives.ideal.Key) : (Primitives.ideal.kdfCk c).1 ≠ first := fun h =>
  Nat.succ_ne_zero _ (Prod.mk.inj h).2

/-- Replayed and forged frames that are not ahead of the chain do not open. -/
theorem opened_once_hello :
    (opened (fromInitial first) [hello, hello, forged 0 (by decide), forged 1 (by decide)]).count hello ≤ 1 :=
  opened_once Primitives.ideal_aeadIntegrity Primitives.ideal_kdfIdeal first kdfCk_ne_first _ (by decide +kernel) 0
    hello hello_genuine

/-- A forged frame for message 1, and message 0 opens twice: with the seed that the forged frame left, and from
the chain that it did not move. -/
theorem opened_twice : Genuine first 0 hello ∧
    opened (fromInitial first) [forged 1 (by decide), hello, hello] = [hello, hello] :=
  ⟨hello_genuine, by decide +kernel⟩

end Sample

end SenderKeyReceiver
end Talkrypt
