import Talkrypt.Crypto.Ratchet.Chains

/-!
# The ledger of a conversation

The two ends of a conversation, seen from above: the chains so far, how far each is sent and received, and
which messages have been opened. A session is the view of one end on the ledger, `Sends` for its own last
chain and `Receives` for the peer's, where the skipped keys are those of the messages that were passed
over and not opened. Each step of `receive` moves the ledger: skipping (`Receives.skipRecv`), entering the
peer's next chain (`Receives.ratchetRecv`), opening (`Receives.openNext`, `Receives.trySkipped`).
-/

namespace Talkrypt.Ratchet

variable {P : Primitives}

/-- One sending chain. Even chains are the initiator's, odd ones the responder's. Chain 1 is the
responder's prekey and chain 0 the initiator's missing one; they carry no messages. -/
structure Chain (P : Primitives) where
  key : Option (KeyCoins P)
  ct : Bytes
  root : P.Key
  ck : Option P.Key
  pn : Nat
  count : Nat
  got : Nat

namespace Chain

def secret (c : Chain P) (profile : KemProfile) : Option (RatchetSecret P) :=
  c.key.map fun k => (RatchetSecret.generate P profile k).1

def pub (c : Chain P) (profile : KemProfile) : Option RatchetPublic :=
  c.key.map fun k => (RatchetSecret.generate P profile k).2

/-- `d` answers `c`: it is made by a root step towards the key of `c`. -/
def Link (profile : KemProfile) (c d : Chain P) : Prop :=
  ∃ kc kd ikm ck, c.key = some kc ∧ d.key = some kd ∧
    (RatchetSecret.generate P profile kc).1.stepFrom (RatchetSecret.generate P profile kd).2 d.ct = .ok ikm ∧
    P.kdfRk c.root ikm = (d.root, ck) ∧ d.ck = some ck

theorem pub_eq_some {c : Chain P} {profile : KemProfile} {p : RatchetPublic} (h : c.pub profile = some p) :
    ∃ k, c.key = some k ∧ p = (RatchetSecret.generate P profile k).2 := by
  obtain ⟨k, hk, rfl⟩ := Option.map_eq_some_iff.mp h
  exact ⟨k, hk, rfl⟩

end Chain

structure Ledger (P : Primitives) where
  profile : KemProfile
  chain : Nat → Chain P
  /-- The last chain, and whether its receiver has entered it. -/
  top : Nat
  seen : Bool
  /-- The messages that have been decrypted, by chain and number. -/
  opened : Nat → Nat → Prop

namespace Ledger

structure WF (L : Ledger P) : Prop where
  top_pos : 1 ≤ L.top
  seen_top : L.top = 1 → L.seen = true
  first : (L.chain 0).key = none
  prekey : (L.chain 1).key ≠ none
  idle : ∀ k, k ≤ 1 → (L.chain k).ck = none ∧ (L.chain k).count = 0
  ct_length : ∀ k, k ≤ L.top → (L.chain k).ct.length ≤ KEM_CT_LEN
  linked : ∀ k, 1 ≤ k → k < L.top → Chain.Link L.profile (L.chain k) (L.chain (k + 1))
  pubs : ∀ k k' p, k ≤ L.top → k' ≤ L.top → (L.chain k).pub L.profile = some p →
    (L.chain k').pub L.profile = some p → k = k'
  pn : ∀ k, k + 2 ≤ L.top → (L.chain (k + 2)).pn = (L.chain k).count
  count_lt : ∀ k, k ≤ L.top → (L.chain k).count < 2 ^ 32
  got_le : ∀ k, k ≤ L.top → (L.chain k).got ≤ (L.chain k).count
  unseen : L.seen = false → (L.chain L.top).got = 0
  /-- A receiver enters a chain only after it has gone through the one before. -/
  closed : ∀ k, k + 3 ≤ L.top ∨ k + 2 = L.top ∧ L.seen = true → (L.chain k).got = (L.chain k).count
  opened_lt : ∀ k n, L.opened k n → n < (L.chain k).got
  opened_top : ∀ k n, L.opened k n → k ≤ L.top

/-- The seed that the receiver of chain `r` retains for a message: it was passed over and not opened. -/
def Retains (L : Ledger P) (r : Nat) (id : Bytes) (n : Nat) (seed : P.Key) : Prop :=
  ∃ k pub ck, k ≤ r ∧ k % 2 = r % 2 ∧ (L.chain k).pub L.profile = some pub ∧ id = pub.encode ∧
    (L.chain k).ck = some ck ∧ n < (L.chain k).got ∧ ¬ L.opened k n ∧ seed = seedAt ck n

def Sealed (L : Ledger P) (k n : Nat) (text : Bytes) (aad ct : Bytes) : Prop :=
  ∃ pub ck, (L.chain k).pub L.profile = some pub ∧ (L.chain k).ck = some ck ∧
    aad = Header.encode ⟨pub, (L.chain k).ct, (L.chain k).pn, n⟩ ∧
    P.gcmEncrypt (P.kdfMk (seedAt ck n)).1 (P.kdfMk (seedAt ck n)).2 text aad = some ct

end Ledger

structure Sends (profile : KemProfile) (c : Chain P) (s : Session P) : Prop where
  selfRatchet : s.selfRatchet = c.secret profile
  selfRatchetPub : s.selfRatchetPub = c.pub profile
  ct : s.selfSendCt = c.ct
  ck : s.sendCk = c.ck.map (chainKey · c.count)
  n : s.sendN = c.count
  prev : s.prevSendN = c.pn

structure Receives (L : Ledger P) (r : Nat) (s : Session P) : Prop where
  peer : s.peerRatchet = (L.chain r).pub L.profile
  ck : s.recvCk = (L.chain r).ck.map (chainKey · (L.chain r).got)
  n : s.recvN = (L.chain r).got
  skipped : ∀ id n seed, s.skipped.lookup (id, n) = some seed ↔ L.Retains r id n seed
  size : s.skipped.entries.length ≤ MAX_SKIP

/-! ## Places -/

section Places
variable {L : Ledger P} {k k' n r : Nat} {pub : RatchetPublic} {ck : P.Key} {s : Session P}

theorem Ledger.WF.encode_inj (hkem : P.KemCorrect) (h : L.WF) {pub' : RatchetPublic} (hk : k ≤ L.top)
    (hk' : k' ≤ L.top) (hpub : (L.chain k).pub L.profile = some pub)
    (hpub' : (L.chain k').pub L.profile = some pub') (heq : pub.encode = pub'.encode) : k = k' := by
  have hlen : KEM_EK_LEN ≤ MAX_FRAME := by decide
  obtain ⟨c, -, rfl⟩ := Chain.pub_eq_some hpub
  obtain ⟨c', -, rfl⟩ := Chain.pub_eq_some hpub'
  have hdec := RatchetPublic.decode_encode (p := (RatchetSecret.generate P L.profile c).2)
    ((hkem.generate_length c.kem).le.trans hlen)
  have hdec' := RatchetPublic.decode_encode (p := (RatchetSecret.generate P L.profile c').2)
    ((hkem.generate_length c'.kem).le.trans hlen)
  rw [RatchetSecret.generate_public_profile] at hdec hdec'
  rw [heq, hdec', Except.ok.injEq] at hdec
  exact h.pubs k k' _ hk hk' hpub (hdec ▸ hpub')

theorem Receives.lookup_retained (hR : Receives L r s) (hkr : k ≤ r) (hpar : k % 2 = r % 2)
    (hpub : (L.chain k).pub L.profile = some pub) (hck : (L.chain k).ck = some ck)
    (hn : n < (L.chain k).got) (hopen : ¬ L.opened k n) :
    s.skipped.lookup (pub.encode, n) = some (seedAt ck n) :=
  (hR.skipped _ _ _).mpr ⟨k, pub, ck, hkr, hpar, hpub, rfl, hck, hn, hopen, rfl⟩

theorem Receives.lookup_none (hkem : P.KemCorrect) (h : L.WF) (hR : Receives L r s) (hr : r ≤ L.top)
    (hk : k ≤ L.top) (hpub : (L.chain k).pub L.profile = some pub)
    (hout : k ≤ r → (L.chain k).got ≤ n ∨ L.opened k n) : s.skipped.lookup (pub.encode, n) = none := by
  by_contra hne
  obtain ⟨seed, hseed⟩ := Option.ne_none_iff_exists'.mp hne
  obtain ⟨k', pub', ck', hkr, -, hpub', hid, -, hn, hopen, -⟩ := (hR.skipped _ _ _).mp hseed
  obtain rfl := h.encode_inj hkem hk (hkr.trans hr) hpub hpub' hid
  rcases hout hkr with hge | hop
  · omega
  · exact hopen hop

theorem Ledger.WF.chain_ck (h : L.WF) (hk : 2 ≤ k) (hkt : k ≤ L.top) :
    ∃ ikm pub, (L.chain k).ck = some (P.kdfRk (L.chain (k - 1)).root ikm).2 ∧
      (L.chain k).root = (P.kdfRk (L.chain (k - 1)).root ikm).1 ∧ (L.chain k).pub L.profile = some pub := by
  obtain ⟨kc, kd, ikm, ck, -, hkd, -, hrk, hck⟩ := h.linked (k - 1) (by omega) (by omega)
  rw [show k - 1 + 1 = k by omega] at hkd hrk hck
  refine ⟨ikm, _, ?_, ?_, by rw [Chain.pub, hkd]; rfl⟩
  · rw [hrk, hck]
  · rw [hrk]

theorem Ledger.WF.root_ne (hk : P.KdfIdeal) (h : L.WF) {i j : Nat} (hi : 1 ≤ i) (hij : i < j) (hj : j ≤ L.top) :
    (L.chain i).root ≠ (L.chain j).root := by
  obtain ⟨rank, hrank⟩ := hk.acyclic
  have hstep : ∀ k, 1 ≤ k → k < L.top → rank (L.chain k).root < rank (L.chain (k + 1)).root := by
    intro k hk1 hkt
    obtain ⟨-, -, ikm, ck, -, -, -, hrk, -⟩ := h.linked k hk1 hkt
    have := hrank (L.chain k).root ikm
    rwa [hrk] at this
  have hlt : ∀ d, i + d + 1 ≤ L.top → rank (L.chain i).root < rank (L.chain (i + d + 1)).root := by
    intro d
    induction d with
    | zero => exact fun hd => hstep i hi (by omega)
    | succ d ih => exact fun hd => (ih (by omega)).trans (hstep (i + d + 1) (by omega) (by omega))
  intro heq
  have := hlt (j - i - 1) (by omega)
  rw [show i + (j - i - 1) + 1 = j by omega, heq] at this
  exact lt_irrefl _ this

end Places

/-! ## Moves of the ledger -/

namespace Ledger
variable (L : Ledger P) (r m : Nat)

def setGot : Ledger P :=
  { L with chain := Function.update L.chain r { L.chain r with got := m } }

def markOpened (k n : Nat) : Ledger P :=
  { L with opened := fun k' n' => L.opened k' n' ∨ k' = k ∧ n' = n }

def recount (count got : Nat → Nat) : Ledger P :=
  { L with chain := fun k => { L.chain k with count := count k, got := got k } }

variable {L r m}

theorem WF.recount (h : L.WF) {count got : Nat → Nat}
    (hkept : ∀ k, k ≤ 1 ∨ k + 2 ≤ L.top → count k = (L.chain k).count)
    (hlt : ∀ k, k ≤ L.top → count k < 2 ^ 32) (hle : ∀ k, k ≤ L.top → got k ≤ count k)
    (hunseen : L.seen = false → got L.top = 0)
    (hclosed : ∀ k, k + 3 ≤ L.top ∨ k + 2 = L.top ∧ L.seen = true → got k = count k)
    (hopened : ∀ k n, L.opened k n → n < got k) : (L.recount count got).WF :=
  { h with
    idle := fun k hk => ⟨(h.idle k hk).1, (hkept k (.inl hk)).trans (h.idle k hk).2⟩
    pn := fun k hk => (h.pn k hk).trans (hkept k (.inr hk)).symm
    count_lt := hlt
    got_le := hle
    unseen := hunseen
    closed := hclosed
    opened_lt := hopened }

@[simp] theorem setGot_self : (L.setGot r m).chain r = { L.chain r with got := m } :=
  Function.update_self ..

theorem setGot_ne {k : Nat} (hk : k ≠ r) : (L.setGot r m).chain k = L.chain k :=
  Function.update_of_ne hk ..

theorem setGot_chain (k : Nat) :
    (L.setGot r m).chain k = { L.chain k with got := if k = r then m else (L.chain k).got } := by
  split
  · next hk =>
    subst hk
    exact setGot_self
  · next hk => exact setGot_ne hk

@[simp] theorem setGot_pub (k : Nat) :
    ((L.setGot r m).chain k).pub (L.setGot r m).profile = (L.chain k).pub L.profile := by
  rw [setGot_chain]
  rfl

@[simp] theorem setGot_ck (k : Nat) : ((L.setGot r m).chain k).ck = (L.chain k).ck := by rw [setGot_chain]

theorem setGot_got (k : Nat) : ((L.setGot r m).chain k).got = if k = r then m else (L.chain k).got := by
  rw [setGot_chain]

theorem WF.setGot (h : L.WF) (hgot : (L.chain r).got ≤ m) (hm : m ≤ (L.chain r).count)
    (hseen : r = L.top → L.seen = true) : (L.setGot r m).WF := by
  have heq : L.setGot r m =
      L.recount (fun k => (L.chain k).count) fun k => if k = r then m else (L.chain k).got :=
    congrArg (fun chain : Nat → Chain P => { L with chain }) (funext fun k => setGot_chain (L := L) k)
  rw [heq]
  refine h.recount (fun _ _ => rfl) h.count_lt (fun k hk => ?_) (fun hs => ?_) (fun k hk => ?_) fun k n hn => ?_
  · split
    · next hkr => exact hkr ▸ hm
    · exact h.got_le k hk
  · split
    · next hkr => cases hs.symm.trans (hseen hkr.symm)
    · exact h.unseen hs
  · have hclosed := h.closed k hk
    split
    · next hkr =>
      subst hkr
      omega
    · exact hclosed
  · have hlt := h.opened_lt k n hn
    split
    · next hkr =>
      subst hkr
      exact hlt.trans_le hgot
    · exact hlt

theorem WF.markOpened (h : L.WF) {k n : Nat} (hk : k ≤ L.top) (hn : n < (L.chain k).got) :
    (L.markOpened k n).WF :=
  { h with
    opened_lt := by
      rintro k' n' (hop | ⟨rfl, rfl⟩)
      · exact h.opened_lt k' n' hop
      · exact hn
    opened_top := by
      rintro k' n' (hop | ⟨rfl, rfl⟩)
      · exact h.opened_top k' n' hop
      · exact hk }

end Ledger

/-! ## Steps of the receiver -/

section Receiver
variable {L : Ledger P} {k n m r : Nat} {pub : RatchetPublic} {ck : P.Key} {s : Session P}

theorem Receives.congr {L' : Ledger P} (hR : Receives L r s) (hprofile : L'.profile = L.profile)
    (hchain : ∀ k, k ≤ r → k % 2 = r % 2 → (L'.chain k).key = (L.chain k).key ∧
      (L'.chain k).ck = (L.chain k).ck ∧ (L'.chain k).got = (L.chain k).got)
    (hopened : ∀ k n, k % 2 = r % 2 → (L'.opened k n ↔ L.opened k n)) : Receives L' r s := by
  obtain ⟨hkey, hck, hgot⟩ := hchain r le_rfl rfl
  refine ⟨?_, ?_, ?_, fun id n seed => ?_, hR.size⟩
  · rw [hR.peer, Chain.pub, Chain.pub, hkey, hprofile]
  · rw [hR.ck, hck, hgot]
  · rw [hR.n, hgot]
  · rw [hR.skipped]
    constructor <;> rintro ⟨k, pub, ck, hkr, hpar, hpub, hid, hck, hn, hop, hseed⟩ <;>
      obtain ⟨hkey, hck', hgot⟩ := hchain k hkr hpar
    · refine ⟨k, pub, ck, hkr, hpar, ?_, hid, hck'.trans hck, hgot ▸ hn, ?_, hseed⟩
      · rw [Chain.pub, hkey, hprofile]; exact hpub
      · rwa [hopened k n hpar]
    · refine ⟨k, pub, ck, hkr, hpar, ?_, hid, hck'.symm.trans hck, hgot ▸ hn, ?_, hseed⟩
      · rw [Chain.pub, hkey, hprofile] at hpub; exact hpub
      · rwa [hopened k n hpar] at hop

theorem Receives.skipRecv (hkem : P.KemCorrect) (h : L.WF) (hR : Receives L r s) (hr : r ≤ L.top)
    (hck : (L.chain r).ck = some ck) (hpub : (L.chain r).pub L.profile = some pub)
    (hm : (L.chain r).got ≤ m)
    (hroom : s.skipped.entries.length + (m - (L.chain r).got) ≤ MAX_SKIP) :
    ∃ skipped, s.skipRecv m = .ok { s with recvCk := some (chainKey ck m), recvN := m, skipped } ∧
      Receives (L.setGot r m) r { s with recvCk := some (chainKey ck m), recvN := m, skipped } ∧
      skipped.entries.length = s.skipped.entries.length + (m - (L.chain r).got) := by
  have hrecv := hR.ck
  rw [hck, Option.map_some] at hrecv
  have hfst := skipLoop_fst pub.encode (m - (L.chain r).got) (chainKey ck (L.chain r).got) (L.chain r).got
    s.skipped
  rw [chainKey_chainKey, show (L.chain r).got + (m - (L.chain r).got) = m by omega] at hfst
  have hlookup := skipLoop_lookup pub.encode (m - (L.chain r).got) (chainKey ck (L.chain r).got)
    (L.chain r).got s.skipped
  have hlength := skipLoop_length pub.encode (m - (L.chain r).got) (chainKey ck (L.chain r).got)
    (L.chain r).got s.skipped fun m' hm' => hR.lookup_none hkem h hr hr hpub fun _ => .inl hm'
  refine ⟨_, ?_, ⟨?_, ?_, ?_, fun id n seed => ?_, ?_⟩, hlength⟩
  · unfold Session.skipRecv
    rw [hrecv, hR.n]
    dsimp only
    split
    · next hle =>
      obtain rfl : m = (L.chain r).got := by omega
      have hs : s = { s with recvCk := some (chainKey ck (L.chain r).got), recvN := (L.chain r).got } := by
        rw [← hrecv, ← hR.n]
      rw [Nat.sub_self]
      exact congrArg Except.ok hs
    · rw [if_neg (by omega), hR.peer, hpub, ← hfst]
      rfl
  · rw [Ledger.setGot_pub]
    exact hR.peer
  · rw [Ledger.setGot_self]
    show some (chainKey ck m) = (L.chain r).ck.map (chainKey · m)
    rw [hck]
    rfl
  · rw [Ledger.setGot_self]
  · show (Session.skipLoop ..).2.lookup (id, n) = some seed ↔ _
    rw [hlookup id n]
    split
    · next hin =>
      -- a number that is skipped now
      obtain ⟨rfl, hge, hlt⟩ := hin
      rw [seedAt_chainKey, show (L.chain r).got + (n - (L.chain r).got) = n by omega, Option.some.injEq]
      constructor
      · rintro rfl
        refine ⟨r, pub, ck, le_rfl, rfl, (Ledger.setGot_pub r).trans hpub, rfl,
          (Ledger.setGot_ck r).trans hck, ?_, fun hop => ?_, rfl⟩
        · rw [Ledger.setGot_self]
          show n < m
          omega
        · have := h.opened_lt r n hop
          omega
      · rintro ⟨k, pub', ck', hkr, -, hpub', hid, hck', -, -, rfl⟩
        rw [Ledger.setGot_pub] at hpub'
        rw [Ledger.setGot_ck] at hck'
        obtain rfl := h.encode_inj hkem hr (hkr.trans hr) hpub hpub' hid
        rw [Option.some.inj (hck.symm.trans hck')]
    · next hout =>
      rw [hR.skipped]
      constructor <;> rintro ⟨k, pub', ck', hkr, hpar, hpub', hid, hck', hn, hop, hseed⟩
      · refine ⟨k, pub', ck', hkr, hpar, (Ledger.setGot_pub k).trans hpub', hid,
          (Ledger.setGot_ck k).trans hck', ?_, hop, hseed⟩
        rw [Ledger.setGot_got]
        split
        · next hk =>
          subst hk
          omega
        · exact hn
      · rw [Ledger.setGot_pub] at hpub'
        rw [Ledger.setGot_ck] at hck'
        refine ⟨k, pub', ck', hkr, hpar, hpub', hid, hck', ?_, hop, hseed⟩
        rw [Ledger.setGot_got] at hn
        split at hn
        · next hk =>
          subst hk
          obtain rfl := Option.some.inj (hpub.symm.trans hpub')
          by_contra hge
          exact hout ⟨hid, by omega, by omega⟩
        · exact hn
  · exact hlength.le.trans hroom

theorem Receives.skipRecv_error (hR : Receives L r s) (hck : (L.chain r).ck = some ck)
    (hm : (L.chain r).got ≤ m) (hroom : MAX_SKIP < s.skipped.entries.length + (m - (L.chain r).got)) :
    s.skipRecv m = .error (.tooManySkipped MAX_SKIP) := by
  have hrecv := hR.ck
  rw [hck, Option.map_some] at hrecv
  have hsize := hR.size
  unfold Session.skipRecv
  rw [hrecv, hR.n]
  dsimp only
  rw [if_neg (by omega), if_pos (by omega)]

theorem Receives.ratchetRecv (hR : Receives L r s)
    (hself : s.selfRatchet = (L.chain (r + 1)).secret L.profile) (hroot : s.root = (L.chain (r + 1)).root)
    (hlink : Chain.Link L.profile (L.chain (r + 1)) (L.chain (r + 2))) (hgot : (L.chain (r + 2)).got = 0)
    (hd : Header) (hpub : (L.chain (r + 2)).pub L.profile = some hd.ratchetPub)
    (hct : hd.ct = (L.chain (r + 2)).ct) :
    ∃ s', s.ratchetRecv hd = .ok s' ∧ Receives L (r + 2) s' ∧
      s' = { s with root := (L.chain (r + 2)).root, peerRatchet := some hd.ratchetPub,
                    recvCk := (L.chain (r + 2)).ck, recvN := 0, needSendRatchet := true } := by
  obtain ⟨kc, kd, ikm, ck, hkc, hkd, hstep, hrk, hck⟩ := hlink
  have hpub' : (RatchetSecret.generate P L.profile kd).2 = hd.ratchetPub := by
    rw [Chain.pub, hkd] at hpub
    exact Option.some.inj hpub
  rw [Chain.secret, hkc, Option.map_some] at hself
  refine ⟨{ s with root := (L.chain (r + 2)).root, peerRatchet := some hd.ratchetPub,
                   recvCk := (L.chain (r + 2)).ck, recvN := 0, needSendRatchet := true }, ?_,
    ⟨hpub.symm, ?_, hgot.symm, fun id n seed => ?_, hR.size⟩, rfl⟩
  · rw [Session.ratchetRecv, hself, hroot]
    simp only [hct, ← hpub', hstep, hrk, hck, bind, Except.bind, pure, Except.pure]
  · rw [hck, hgot]
    rfl
  · show s.skipped.lookup (id, n) = some seed ↔ _
    rw [hR.skipped]
    constructor <;> rintro ⟨k, pub, ck, hkr, hpar, hrest⟩
    · exact ⟨k, pub, ck, by omega, by omega, hrest⟩
    · have hk : k ≠ r + 2 := by
        rintro rfl
        have hn := hrest.2.2.2.1
        omega
      exact ⟨k, pub, ck, by omega, by omega, hrest⟩

section Opening
variable {text aad ct : Bytes}

theorem Ledger.Sealed.aeadOpen (haead : P.AeadCorrect) (h : L.Sealed k n text aad ct)
    (hck : (L.chain k).ck = some ck) :
    P.aeadOpen (P.kdfMk (seedAt ck n)).1 (P.kdfMk (seedAt ck n)).2 ct aad = .ok text := by
  obtain ⟨pub, ck', -, hck', -, hseal⟩ := h
  obtain rfl := Option.some.inj (hck.symm.trans hck')
  rw [Primitives.aeadOpen, haead _ _ _ _ _ hseal]

theorem Ledger.Sealed.aeadOpen_error (hk : P.KdfIdeal) (hint : P.AeadIntegrity) (h : L.Sealed k n text aad ct)
    (hck : (L.chain k).ck = some ck) {seed : P.Key} (hne : seed ≠ seedAt ck n) :
    P.aeadOpen (P.kdfMk seed).1 (P.kdfMk seed).2 ct aad = .error .decryptionFailed := by
  obtain ⟨pub, ck', -, hck', -, hseal⟩ := h
  obtain rfl := Option.some.inj (hck.symm.trans hck')
  have hkeys : ((P.kdfMk seed).1, (P.kdfMk seed).2, aad) ≠
      ((P.kdfMk (seedAt ck n)).1, (P.kdfMk (seedAt ck n)).2, aad) := by
    intro heq
    simp only [Prod.mk.injEq, and_true] at heq
    exact hne (hk.message _ _ (Prod.ext heq.1 heq.2))
  rw [Primitives.aeadOpen, hint _ _ _ _ _ _ _ _ hseal hkeys]

theorem Receives.openNext (haead : P.AeadCorrect) (hR : Receives L r s) (hsealed : L.Sealed r n text aad ct)
    (hgot : (L.chain r).got = n) (hck : (L.chain r).ck = some ck) (hn : n + 1 < 2 ^ 32) :
    s.openNext ct aad = .ok ({ s with recvCk := some (chainKey ck (n + 1)), recvN := n + 1 }, text) ∧
      Receives ((L.setGot r (n + 1)).markOpened r n) r
        { s with recvCk := some (chainKey ck (n + 1)), recvN := n + 1 } := by
  have hrecv := hR.ck
  rw [hck, hgot, Option.map_some] at hrecv
  have hopen := hsealed.aeadOpen haead hck
  constructor
  · rw [Session.openNext, hrecv]
    simp only [← chainKey_succ, hR.n, hgot, Nat.mod_eq_of_lt hn, bind, Except.bind, pure, Except.pure]
    rw [show (P.kdfCk (chainKey ck n)).2 = seedAt ck n from rfl, hopen]
  · refine ⟨?_, ?_, ?_, fun id m seed => ?_, hR.size⟩
    · show s.peerRatchet = ((L.setGot r (n + 1)).chain r).pub (L.setGot r (n + 1)).profile
      rw [Ledger.setGot_pub]
      exact hR.peer
    · show some (chainKey ck (n + 1)) = ((L.setGot r (n + 1)).chain r).ck.map
        (chainKey · ((L.setGot r (n + 1)).chain r).got)
      rw [Ledger.setGot_self]
      show _ = (L.chain r).ck.map (chainKey · (n + 1))
      rw [hck]
      rfl
    · show n + 1 = ((L.setGot r (n + 1)).chain r).got
      rw [Ledger.setGot_self]
    · show s.skipped.lookup (id, m) = some seed ↔ _
      rw [hR.skipped]
      constructor <;> rintro ⟨k, pub, ck', hkr, hpar, hpub, hid, hck', hm, hop, hseed⟩
      · refine ⟨k, pub, ck', hkr, hpar, (Ledger.setGot_pub k).trans hpub, hid,
          (Ledger.setGot_ck k).trans hck', ?_, ?_, hseed⟩
        · show m < ((L.setGot r (n + 1)).chain k).got
          rw [Ledger.setGot_got]
          split
          · next hk =>
            subst hk
            omega
          · exact hm
        · rintro (hop' | ⟨rfl, rfl⟩)
          · exact hop hop'
          · omega
      · have hm' : m < ((L.setGot r (n + 1)).chain k).got := hm
        rw [Ledger.setGot_got] at hm'
        refine ⟨k, pub, ck', hkr, hpar, (Ledger.setGot_pub k).symm.trans hpub, hid,
          (Ledger.setGot_ck k).symm.trans hck', ?_, fun hop' => hop (.inl hop'), hseed⟩
        split at hm'
        · next hk =>
          subst hk
          have hmn : m ≠ n := fun heq => hop (.inr ⟨rfl, heq⟩)
          omega
        · exact hm'

theorem Receives.trySkipped (hkem : P.KemCorrect) (haead : P.AeadCorrect) (h : L.WF) (hR : Receives L r s)
    (hr : r ≤ L.top) (hsealed : L.Sealed k n text aad ct) (hkr : k ≤ r) (hpar : k % 2 = r % 2)
    (hgot : n < (L.chain k).got) (hopen : ¬ L.opened k n) (hd : Header)
    (hpub : (L.chain k).pub L.profile = some hd.ratchetPub) (hn : hd.n = n) :
    s.trySkipped hd ct aad =
        .ok (some ({ s with skipped := s.skipped.erase (hd.ratchetPub.encode, n) }, text)) ∧
      Receives (L.markOpened k n) r { s with skipped := s.skipped.erase (hd.ratchetPub.encode, n) } := by
  obtain ⟨-, ck, -, hck, -⟩ := id hsealed
  have hlookup := hR.lookup_retained hkr hpar hpub hck hgot hopen
  constructor
  · rw [Session.trySkipped, hn, hlookup]
    simp only [hsealed.aeadOpen haead hck, bind, Except.bind, pure, Except.pure]
  · refine ⟨hR.peer, hR.ck, hR.n, fun id m seed => ?_, ?_⟩
    · show (s.skipped.erase (hd.ratchetPub.encode, n)).lookup (id, m) = some seed ↔ _
      rw [Table.lookup_erase_eq]
      split
      · next heq =>
        -- the key that is used up
        obtain ⟨rfl, rfl⟩ := Prod.mk.inj heq
        refine ⟨nofun, ?_⟩
        rintro ⟨k', pub', ck', hkr', -, hpub', hid, -, -, hop, -⟩
        obtain rfl := h.encode_inj hkem (hkr.trans hr) (hkr'.trans hr) hpub hpub' hid
        exact absurd (.inr ⟨rfl, rfl⟩) hop
      · next hne =>
        rw [hR.skipped]
        constructor <;> rintro ⟨k', pub', ck', hkr', hpar', hpub', hid, hck', hm, hop, hseed⟩
        · refine ⟨k', pub', ck', hkr', hpar', hpub', hid, hck', hm, ?_, hseed⟩
          rintro (hop' | ⟨rfl, rfl⟩)
          · exact hop hop'
          · have hsame := Option.some.inj (hpub.symm.trans hpub')
            exact hne (by rw [hid, hsame])
        · exact ⟨k', pub', ck', hkr', hpar', hpub', hid, hck', hm, fun hop' => hop (.inl hop'), hseed⟩
    · exact (List.kerase_sublist ..).length_le.trans hR.size

end Opening

end Receiver

end Talkrypt.Ratchet
