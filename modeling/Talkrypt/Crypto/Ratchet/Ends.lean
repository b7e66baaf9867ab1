import Talkrypt.Crypto.Ratchet.Send

/-!
# The two ends of a conversation

`Ends L session` says that both sessions are views of one ledger. It survives a send, an answer and the arrival of
any message of the ledger (`Ends.receive`), whatever has been lost, reordered or repeated before.
-/

namespace Talkrypt.Ratchet

variable {P : Primitives}

inductive Side where
  | initiator
  | responder
deriving DecidableEq

def Side.other : Side → Side
  | .initiator => .responder
  | .responder => .initiator

def owner (k : Nat) : Side := if k % 2 = 0 then .initiator else .responder

theorem owner_succ (k : Nat) : owner (k + 1) = (owner k).other := by
  unfold owner
  rcases Nat.mod_two_eq_zero_or_one k with hk | hk
  · rw [if_neg (by omega), if_pos hk]; rfl
  · rw [if_pos (by omega), if_neg (by omega)]; rfl

theorem owner_eq_iff {k k' : Nat} : owner k = owner k' ↔ k % 2 = k' % 2 := by
  unfold owner
  split <;> split <;> simp <;> omega

theorem Side.other_other (side : Side) : side.other.other = side := by cases side <;> rfl

theorem Side.other_ne (side : Side) : side.other ≠ side := by cases side <;> exact nofun

/-! ## Receiving -/

namespace Session

/-- How many message keys `decrypt` sets aside to reach a message: those before it in its chain and, if it opens
a new chain, the rest of the current one. -/
def gap (s : Session P) (h : Header) : Nat :=
  if s.peerRatchet = some h.ratchetPub then h.n - s.recvN else (h.pn - s.recvN) + h.n

/-- The key of the message is retained, or the gap to it fits what is left of the skip budget. -/
def Within (s : Session P) (h : Header) : Prop :=
  s.skipped.lookup (h.ratchetPub.encode, h.n) ≠ none ∨ s.skipped.entries.length + s.gap h ≤ MAX_SKIP

end Session

section Receiving
variable {L L' : Ledger P} {own k n r t : Nat} {need : Bool} {s : Session P} {text aad ct : Bytes}
variable {pub : RatchetPublic}

/-- `L'` is `L` after message `n` of chain `k` has been opened. -/
structure Ledger.Opens (L L' : Ledger P) (k n : Nat) : Prop where
  profile : L'.profile = L.profile
  top : L'.top = L.top
  chain : ∀ j, ∃ got, L'.chain j = { L.chain j with got } ∧ (j % 2 ≠ k % 2 → got = (L.chain j).got)
  opened : ∀ j m, L'.opened j m ↔ L.opened j m ∨ j = k ∧ m = n

theorem Ledger.opens_markOpened : L.Opens (L.markOpened k n) k n :=
  ⟨rfl, rfl, fun _ => ⟨_, rfl, fun _ => rfl⟩, fun _ _ => Iff.rfl⟩

theorem Ledger.opens_setGot {m : Nat} : L.Opens ((L.setGot k m).markOpened k n) k n := by
  refine ⟨rfl, rfl, fun j => ?_, fun _ _ => Iff.rfl⟩
  exact ⟨_, setGot_chain j, fun hpar => if_neg (by rintro rfl; exact hpar rfl)⟩

theorem Ledger.opens_enter : L.Opens (L.enter r n) (r + 2) n := by
  refine ⟨rfl, rfl, fun j => ?_, fun _ _ => Iff.rfl⟩
  have hfinished : ((L.setGot r (L.chain r).count).see).chain j = _ := setGot_chain j
  refine ⟨_, (setGot_chain (L := (L.setGot r (L.chain r).count).see) j).trans (by rw [hfinished]), fun hpar => ?_⟩
  rw [if_neg (by omega), if_neg (by omega)]

theorem End.opens (he : End L own r t need s) (ho : L.Opens L' k n) (hpar : r % 2 ≠ k % 2) :
    End L' own r t need s := by
  refine he.congr ho.profile ?_ (fun j _ hj => ?_) ?_ fun j m hj => ?_
  · obtain ⟨got, heq, -⟩ := ho.chain own
    exact ⟨got, heq⟩
  · obtain ⟨got, heq, hgot⟩ := ho.chain j
    rw [heq]
    exact ⟨rfl, rfl, hgot (hj ▸ hpar)⟩
  · obtain ⟨got, heq, -⟩ := ho.chain t
    rw [heq]
  · rw [ho.opened]
    refine or_iff_left ?_
    rintro ⟨rfl, -⟩
    exact hpar hj.symm

theorem End.receive_le (hkem : P.KemCorrect) (haead : P.AeadCorrect) (h : L.WF) (he : End L own r t need s)
    (hr : r ≤ L.top) (hseen : r = L.top → L.seen = true) (hsealed : L.Sealed k n text aad ct) (hkr : k ≤ r)
    (hpar : k % 2 = r % 2) (hn : n < (L.chain k).count) (hold : k < r → (L.chain k).got = (L.chain k).count)
    (hpub : (L.chain k).pub L.profile = some pub) (hopen : ¬ L.opened k n) :
    (s.Within (L.header k n pub) → ∃ L' s', s.receive (L.header k n pub) ct aad = .ok (s', text) ∧
      End L' own r t need s' ∧ L'.WF ∧ L.Opens L' k n ∧ L'.seen = L.seen) ∧
    (¬ s.Within (L.header k n pub) →
      s.receive (L.header k n pub) ct aad = .error (.tooManySkipped MAX_SKIP)) := by
  by_cases hgot : n < (L.chain k).got
  · obtain ⟨-, ck, -, hck, -⟩ := id hsealed
    have hlookup := he.receives.lookup_retained hkr hpar hpub hck hgot hopen
    obtain ⟨s', hrecv, hend⟩ := he.receive_retained hkem haead h hr hsealed hkr hpar hgot hopen hpub
    refine ⟨fun _ => ⟨_, s', hrecv, hend, h.markOpened (hkr.trans hr) hgot, Ledger.opens_markOpened, rfl⟩,
      fun hwithin => ?_⟩
    refine absurd (.inl ?_) hwithin
    rw [show (L.header k n pub).ratchetPub = pub from rfl, show (L.header k n pub).n = n from rfl, hlookup]
    exact Option.some_ne_none _
  · obtain rfl : k = r := by
      by_contra hne
      have := hold (by omega)
      omega
    have hlookup := he.receives.lookup_none hkem h hr hr hpub (n := n) fun _ => .inl (by omega)
    have hgap : s.gap (L.header k n pub) = n - (L.chain k).got := by
      rw [Session.gap, if_pos, he.receives.n]
      · rfl
      · rw [he.receives.peer, hpub]
        rfl
    have hiff : s.Within (L.header k n pub) ↔ s.skipped.entries.length + (n - (L.chain k).got) ≤ MAX_SKIP := by
      rw [Session.Within, hgap]
      exact or_iff_right fun hne => hne hlookup
    obtain ⟨hroom, hfull⟩ := he.receive_current hkem haead h hr hsealed hseen (by omega) hn hpub
    rw [hiff, Nat.not_le]
    refine ⟨fun hle => ?_, hfull⟩
    obtain ⟨s', hrecv, hend, hwf⟩ := hroom hle
    exact ⟨_, s', hrecv, hend, hwf, Ledger.opens_setGot, rfl⟩

end Receiving

/-- Both sessions are views of the ledger: the owner of the last chain, and the other end, which has entered
that chain or is still in its own. -/
structure Ends (L : Ledger P) (session : Side → Session P) : Prop where
  wf : L.WF
  last : End L L.top (L.top - 1) L.top false (session (owner L.top))
  other : End L (L.top - 1) (if L.seen then L.top else L.top - 2) (if L.seen then L.top else L.top - 1) L.seen
    (session (owner L.top).other)

namespace Ends
variable {L : Ledger P} {session : Side → Session P} {k : Nat}

theorem side_cases (h : Ends L session) (side : Side) :
    (side = owner L.top ∧ End L L.top (L.top - 1) L.top false (session side)) ∨
    (side = (owner L.top).other ∧ L.seen = true ∧ End L (L.top - 1) L.top L.top true (session side)) ∨
    (side = (owner L.top).other ∧ L.seen = false ∧ 2 ≤ L.top ∧
      End L (L.top - 1) (L.top - 2) (L.top - 1) false (session side)) := by
  by_cases hside : side = owner L.top
  · exact .inl ⟨hside, hside ▸ h.last⟩
  · have hother : side = (owner L.top).other := by
      revert hside
      cases side <;> cases owner L.top <;> simp [Side.other]
    have hend := h.other
    rw [← hother] at hend
    cases hseen : L.seen with
    | true =>
      simp only [hseen, if_true] at hend
      exact .inr (.inl ⟨hother, rfl, hend⟩)
    | false =>
      simp only [hseen, Bool.false_eq_true, if_false] at hend
      refine .inr (.inr ⟨hother, rfl, ?_, hend⟩)
      have htop := h.wf.top_pos
      have := h.wf.seen_top
      by_contra hlt
      rw [this (by omega)] at hseen
      cases hseen

theorem profile (h : Ends L session) (side : Side) : (session side).profile = L.profile := by
  rcases h.side_cases side with ⟨-, he⟩ | ⟨-, -, he⟩ | ⟨-, -, -, he⟩ <;> exact he.profile

variable {s' : Session P}

theorem of_last (hwf : L.WF) (hlast : End L L.top (L.top - 1) L.top false s')
    (hother : End L (L.top - 1) (if L.seen then L.top else L.top - 2) (if L.seen then L.top else L.top - 1) L.seen (session (owner L.top).other)) : Ends L (Function.update session (owner L.top) s') := by
  refine ⟨hwf, ?_, ?_⟩
  · rw [Function.update_self]
    exact hlast
  · rw [Function.update_of_ne (Side.other_ne _)]
    exact hother

theorem of_other (hwf : L.WF) (hlast : End L L.top (L.top - 1) L.top false (session (owner L.top)))
    (hother : End L (L.top - 1) (if L.seen then L.top else L.top - 2) (if L.seen then L.top else L.top - 1) L.seen s') : Ends L (Function.update session (owner L.top).other s') := by
  refine ⟨hwf, ?_, ?_⟩
  · rw [Function.update_of_ne (Side.other_ne _).symm]
    exact hlast
  · rw [Function.update_self]
    exact hother

theorem send (h : Ends L session) (hlt : (L.chain k).count + 1 < 2 ^ 32) (hk : 2 ≤ k)
    (hend : k = L.top ∧ End (L.send k) k (L.top - 1) L.top false s' ∨ k + 1 = L.top ∧ L.seen = false ∧ End (L.send k) k (L.top - 2) (L.top - 1) false s') :
    Ends (L.send k) (Function.update session (owner k) s') := by
  rcases hend with ⟨rfl, hend⟩ | ⟨htop, hseen, hend⟩
  · exact of_last (L := L.send L.top) (h.wf.send hk (.inl rfl) hlt) hend (h.other.send_ne (by omega))
  · have hown : owner k = (owner L.top).other := by rw [← htop, owner_succ, Side.other_other]
    rw [hown]
    refine of_other (L := L.send k) (h.wf.send hk (.inr htop) hlt) (h.last.send_ne (by omega)) ?_
    show End _ (L.top - 1) (if L.seen then L.top else L.top - 2) (if L.seen then L.top else L.top - 1) L.seen _
    rw [hseen, ← htop, Nat.add_sub_cancel]
    rw [← htop, Nat.add_sub_cancel] at hend
    exact hend

theorem extend (h : Ends L session) {d : Chain P} (hwf : (L.extend d).WF)
    (hend : End (L.extend d) (L.top + 1) L.top (L.top + 1) false s') :
    Ends (L.extend d) (Function.update session (owner (L.top + 1)) s') := by
  refine of_last (L := L.extend d) hwf hend ?_
  show End _ L.top (L.top - 1) L.top false (session (owner (L.top + 1)).other)
  rw [owner_succ, Side.other_other]
  refine h.last.congr rfl ⟨_, Ledger.extend_chain le_rfl⟩ (fun j hj _ => ?_)
    (congrArg Chain.root (Ledger.extend_chain le_rfl)) fun _ _ _ => Iff.rfl
  rw [Ledger.extend_chain (by omega)]
  exact ⟨rfl, rfl, rfl⟩

/-! ## Encrypting -/

section Encrypt
variable {side : Side} {text : Bytes}

/-- The chain that carries a message, if `encrypt` returns one. -/
structure Carries (L : Ledger P) (session : Side → Session P) (side : Side) (text : Bytes) (k : Nat)
    (s' : Session P) (bytes : Bytes) : Prop where
  two_le : 2 ≤ k
  le_top : k ≤ L.top
  owner : side = owner k
  sealed : ∃ aad ct, L.Sealed k (L.chain k).count text aad ct ∧ bytes = putBytes aad ++ putBytes ct
  ends : s'.sendN ≠ 0 → Ends (L.send k) (Function.update session side s')

private theorem send_on (h : Ends L session) (hk : 2 ≤ k) (hside : side = owner k)
    (hend : k = L.top ∧ End L k (L.top - 1) L.top false (session side) ∨
      k + 1 = L.top ∧ L.seen = false ∧ End L k (L.top - 2) (L.top - 1) false (session side)) (text : Bytes) :
    (∃ e, (session side).send text = (session side, .error e)) ∨
      ∃ s' bytes, (session side).send text = (s', .ok bytes) ∧ Carries L session side text k s' bytes := by
  have hkt : k ≤ L.top := by omega
  obtain ⟨r, t, he, hnext⟩ : ∃ r t, End L k r t false (session side) ∧
      ∀ s', (L.chain k).count + 1 < 2 ^ 32 → End (L.send k) k r t false s' →
        Ends (L.send k) (Function.update session side s') := by
    rw [hside]
    rcases hend with ⟨htop, he⟩ | ⟨htop, hseen, he⟩
    · exact ⟨_, _, hside ▸ he, fun s' hlt hend => h.send hlt hk (.inl ⟨htop, hend⟩)⟩
    · exact ⟨_, _, hside ▸ he, fun s' hlt hend => h.send hlt hk (.inr ⟨htop, hseen, hend⟩)⟩
  rcases he.send h.wf hk hkt text with herr | ⟨aad, ct, s', hsealed, hsend, hsent⟩
  · exact .inl herr
  · refine .inr ⟨s', _, hsend, hk, hkt, hside, ⟨aad, ct, hsealed, rfl⟩, fun hwrap => ?_⟩
    obtain ⟨hlt, hend⟩ := hsent hwrap
    exact hnext s' hlt hend

private theorem encrypt_idle {s : Session P} {t : Nat} (h : L.WF) (he : End L 1 0 t false s) (c : SendCoins P)
    (text : Bytes) : s.encrypt c text = (s, .error (.error (.malformed "no peer ratchet key"))) := by
  have hck := he.sends.ck
  rw [(h.idle 1 le_rfl).1, Option.map_none] at hck
  have hpeer := he.receives.peer
  rw [Chain.pub, h.first, Option.map_none] at hpeer
  simp only [Session.encrypt, hck, Option.isNone_none, Bool.or_true, if_true, Session.ratchetSend, hpeer]

private theorem encrypt_send {s : Session P} {r t : Nat} (h : L.WF) (he : End L k r t false s) (hk : 2 ≤ k)
    (hkt : k ≤ L.top) (c : SendCoins P) (text : Bytes) : s.encrypt c text = s.send text := by
  obtain ⟨ikm, -, hck, -⟩ := h.chain_ck hk hkt
  have hsend := he.sends.ck
  rw [hck, Option.map_some] at hsend
  rw [Session.encrypt, he.need, hsend]
  rfl

/-- The ledger grows by the chain with which `side` answers the last one, or stays. -/
structure Extends (side : Side) (L L' : Ledger P) : Prop where
  profile : L'.profile = L.profile
  top : L'.top = L.top ∨ L'.top = L.top + 1 ∧ owner L'.top = side
  chain : ∀ k, k ≤ L.top → L'.chain k = L.chain k
  opened : L'.opened = L.opened

theorem encrypt (hkem : P.KemCorrect) (hdh : P.DhCorrect) (h : Ends L session) (side : Side) (c : SendCoins P)
    (text : Bytes) (hfresh : (session side).needSendRatchet = true → ∀ k p, k ≤ L.top →
      (L.chain k).pub L.profile = some p → (RatchetSecret.generate P (session side).profile c.key).2 ≠ p) :
    ∃ L', Extends side L L' ∧
      ((∃ s' e, (session side).encrypt c text = (s', .error e) ∧ Ends L' (Function.update session side s')) ∨
        ∃ s' bytes k, (session side).encrypt c text = (s', .ok bytes) ∧
          Carries L' session side text k s' bytes) := by
  have hrefl : Extends side L L := ⟨rfl, .inl rfl, fun _ _ => rfl, rfl⟩
  have hsame : Function.update session side (session side) = session := Function.update_eq_self ..
  have htop := h.wf.top_pos
  rcases h.side_cases side with ⟨hside, he⟩ | ⟨hside, hseen, he⟩ | ⟨hside, hseen, htop2, he⟩
  · refine ⟨L, hrefl, ?_⟩
    rcases Nat.lt_or_ge 1 L.top with hlt | hle
    · rw [encrypt_send h.wf he hlt le_rfl]
      rcases send_on h hlt hside (.inl ⟨rfl, he⟩) text with ⟨e, herr⟩ | ⟨s', bytes, hok⟩
      · exact .inl ⟨_, e, herr, hsame.symm ▸ h⟩
      · exact .inr ⟨s', bytes, _, hok⟩
    · have htop1 : L.top = 1 := Nat.le_antisymm hle htop
      rw [htop1] at he
      exact .inl ⟨_, _, encrypt_idle h.wf he c text, hsame.symm ▸ h⟩
  · -- the answer opens a chain, whatever becomes of the text
    obtain ⟨d, s₁, hratchet, hkey, hlen, hlink, hpn, hcount, hgot, hend⟩ := he.ratchetSend hkem hdh h.wf c
    have hwf : (L.extend d).WF := by
      refine h.wf.extend hseen hlen.le hlink (fun k p hk hp heq => ?_) hpn hcount hgot
      rw [Chain.pub, hkey, Option.map_some, Option.some.injEq, ← he.profile] at heq
      exact hfresh he.need k p hk hp heq
    have hside' : side = owner (L.top + 1) := hside.trans (owner_succ _).symm
    have hends := h.extend hwf hend
    rw [← hside'] at hends
    have hsession : Function.update session side s₁ side = s₁ := Function.update_self ..
    have henc : (session side).encrypt c text = (Function.update session side s₁ side).send text := by
      rw [Session.encrypt, he.need, Bool.true_or, if_pos rfl, hratchet, hsession]
    refine ⟨L.extend d, ⟨rfl, .inr ⟨rfl, hside'.symm⟩, fun k => Ledger.extend_chain, rfl⟩, ?_⟩
    rw [henc]
    rcases send_on hends (k := L.top + 1) (by omega) hside'
      (.inl ⟨rfl, by rw [hsession]; exact hend⟩) text with ⟨e, herr⟩ | ⟨s', bytes, hok, hc⟩
    · exact .inl ⟨_, e, herr, by rw [hsession]; exact hends⟩
    · refine .inr ⟨s', bytes, _, hok, hc.two_le, hc.le_top, hc.owner, hc.sealed, fun hwrap => ?_⟩
      have := hc.ends hwrap
      rwa [Function.update_idem] at this
  · refine ⟨L, hrefl, ?_⟩
    have hside' : side = owner (L.top - 1) := by
      rw [hside, ← owner_succ, owner_eq_iff]
      omega
    rcases Nat.lt_or_ge 1 (L.top - 1) with hlt | hle
    · rw [encrypt_send h.wf he hlt (by omega)]
      rcases send_on h hlt hside' (.inr ⟨by omega, hseen, he⟩) text with ⟨e, herr⟩ | ⟨s', bytes, hok⟩
      · exact .inl ⟨_, e, herr, hsame.symm ▸ h⟩
      · exact .inr ⟨s', bytes, _, hok⟩
    · rw [show L.top - 1 = 1 by omega, show L.top - 2 = 0 by omega] at he
      exact .inl ⟨_, _, encrypt_idle h.wf he c text, hsame.symm ▸ h⟩

end Encrypt

/-! ## Decrypting -/

section Receive
variable {n : Nat} {text aad ct : Bytes} {pub : RatchetPublic}

/-- What becomes of message `n` of chain `k` when it reaches its receiver. -/
structure Outcome (L : Ledger P) (session : Side → Session P) (k n : Nat) (text aad ct : Bytes)
    (pub : RatchetPublic) (side : Side) : Prop where
  again : L.opened k n → ∃ e, (session side).receive (L.header k n pub) ct aad = .error e
  within : ¬ L.opened k n → (session side).Within (L.header k n pub) →
    ∃ L' s', (session side).receive (L.header k n pub) ct aad = .ok (s', text) ∧ L.Opens L' k n ∧
      Ends L' (Function.update session side s')
  beyond : ¬ L.opened k n → ¬ (session side).Within (L.header k n pub) →
    (session side).receive (L.header k n pub) ct aad = .error (.tooManySkipped MAX_SKIP)

private theorem Outcome.of_le (hkem : P.KemCorrect) (hkdf : P.KdfIdeal) (haead : P.AeadCorrect)
    (hint : P.AeadIntegrity) (h : L.WF) {own r t : Nat} {need : Bool} {side : Side}
    (he : End L own r t need (session side)) (hrt : r ≤ t) (htt : t ≤ L.top)
    (hseen : r = L.top → L.seen = true) (hsealed : L.Sealed k n text aad ct) (hk : 2 ≤ k) (hkr : k ≤ r)
    (hpar : k % 2 = r % 2) (hn : n < (L.chain k).count)
    (hold : k < r → (L.chain k).got = (L.chain k).count) (hpub : (L.chain k).pub L.profile = some pub)
    (hends : ∀ L' s', L'.WF → L.Opens L' k n → L'.seen = L.seen → End L' own r t need s' →
      Ends L' (Function.update session side s')) :
    Outcome L session k n text aad ct pub side := by
  have hr := hrt.trans htt
  have hle := fun hopen => he.receive_le hkem haead h hr hseen hsealed hkr hpar hn hold hpub hopen
  refine ⟨fun hopen => ?_, fun hopen hwithin => ?_, fun hopen => (hle hopen).2⟩
  · exact he.receive_opened hkem hkdf hint h hr hrt htt hsealed hk hkr hopen hpub
  · obtain ⟨L', s', hrecv, hend, hwf, ho, hseen'⟩ := (hle hopen).1 hwithin
    exact ⟨L', s', hrecv, ho, hends L' s' hwf ho hseen' hend⟩

private theorem Outcome.of_next (hkem : P.KemCorrect) (haead : P.AeadCorrect) (h : Ends L session) {r : Nat}
    (he : End L (r + 1) r (r + 1) false (session (owner L.top).other)) (htop : L.top = r + 2)
    (hunseen : L.seen = false) (hsealed : L.Sealed (r + 2) n text aad ct) (hn : n < (L.chain (r + 2)).count)
    (hpub : (L.chain (r + 2)).pub L.profile = some pub) :
    Outcome L session (r + 2) n text aad ct pub (owner L.top).other := by
  have hgot : (L.chain (r + 2)).got = 0 := htop ▸ h.wf.unseen hunseen
  have hlookup := he.receives.lookup_none hkem h.wf (k := r + 2) (n := n) (by omega) (by omega) hpub
    fun hle => absurd hle (by omega)
  have hgap : (session (owner L.top).other).gap (L.header (r + 2) n pub) =
      (L.chain r).count - (L.chain r).got + n := by
    rw [Session.gap, if_neg, he.receives.n]
    · exact congrArg (· - (L.chain r).got + n) (h.wf.pn r (by omega))
    · intro heq
      rw [he.receives.peer] at heq
      have := h.wf.pubs r (r + 2) _ (by omega) (by omega) heq hpub
      omega
  have hiff : (session (owner L.top).other).Within (L.header (r + 2) n pub) ↔
      (session (owner L.top).other).skipped.entries.length + ((L.chain r).count - (L.chain r).got) + n ≤
        MAX_SKIP := by
    rw [Session.Within, hgap, ← Nat.add_assoc]
    exact or_iff_right fun hne => hne hlookup
  obtain ⟨hroom, hfull⟩ := he.receive_next hkem haead h.wf htop hunseen hsealed hn hpub
  refine ⟨fun hopen => ?_, fun _ hwithin => ?_, fun _ hwithin => ?_⟩
  · have := h.wf.opened_lt _ _ hopen
    omega
  · obtain ⟨s', hrecv, hend, hwf⟩ := hroom (hiff.mp hwithin)
    refine ⟨L.enter r n, s', hrecv, Ledger.opens_enter, of_other (L := L.enter r n) hwf ?_ ?_⟩
    · exact h.last.opens Ledger.opens_enter (by omega)
    · show End _ (L.top - 1) L.top L.top true s'
      rw [htop]
      exact hend
  · rw [hiff, Nat.not_le] at hwithin
    exact hfull hwithin

theorem receive (hkem : P.KemCorrect) (hkdf : P.KdfIdeal) (haead : P.AeadCorrect) (hint : P.AeadIntegrity)
    (h : Ends L session) (hsealed : L.Sealed k n text aad ct) (hk : 2 ≤ k) (hkt : k ≤ L.top)
    (hn : n < (L.chain k).count) (hpub : (L.chain k).pub L.profile = some pub) :
    Outcome L session k n text aad ct pub (owner k).other := by
  have htop := h.wf.top_pos
  by_cases hpar : k % 2 = L.top % 2
  · -- the sender owns the last chain
    rw [owner_eq_iff.mpr hpar]
    have hlast : ∀ L', L.Opens L' k n → End L' L'.top (L'.top - 1) L'.top false (session (owner L'.top)) := by
      intro L' ho
      rw [ho.top]
      exact h.last.opens ho (by omega)
    have hclosed : k + 2 ≤ L.top → k + 3 ≤ L.top ∨ k + 2 = L.top := by omega
    rcases h.side_cases (owner L.top).other with ⟨hside, -⟩ | ⟨-, hseen, he⟩ | ⟨-, hseen, htop2, he⟩
    · exact absurd hside (Side.other_ne _)
    · refine .of_le hkem hkdf haead hint h.wf he le_rfl le_rfl (fun _ => hseen) hsealed hk hkt hpar hn
        (fun hlt => h.wf.closed k ?_) hpub fun L' s' hwf ho hseen' hend => ?_
      · exact (hclosed (by omega)).imp id fun heq => ⟨heq, hseen⟩
      · rw [← ho.top]
        refine of_other hwf (hlast L' ho) ?_
        rw [hseen', hseen, ho.top]
        exact hend
    · rcases Nat.lt_or_ge (L.top - 2) k with hlt | hle
      · obtain ⟨r, hr⟩ := Nat.exists_eq_add_of_le htop2
        obtain rfl : k = r + 2 := by omega
        rw [show L.top - 1 = r + 1 by omega, show L.top - 2 = r by omega] at he
        exact .of_next hkem haead h he (by omega) hseen hsealed hn hpub
      · refine .of_le hkem hkdf haead hint h.wf he (by omega) (by omega) (fun heq => by omega) hsealed hk hle
          (by omega) hn (fun hlt => h.wf.closed k (.inl (by omega))) hpub fun L' s' hwf ho hseen' hend => ?_
        rw [← ho.top]
        refine of_other hwf (hlast L' ho) ?_
        rw [hseen', hseen, ho.top]
        exact hend
  · -- the sender is still in the chain before
    have hown : (owner k).other = owner L.top := by
      rw [← owner_succ, owner_eq_iff]
      omega
    rw [hown]
    refine .of_le hkem hkdf haead hint h.wf h.last (by omega) le_rfl (fun heq => by omega) hsealed hk (by omega)
      (by omega) hn (fun hlt => h.wf.closed k (.inl (by omega))) hpub fun L' s' hwf ho hseen' hend => ?_
    rw [← ho.top]
    refine of_last hwf (ho.top ▸ hend) ?_
    rw [hseen', ho.top]
    refine h.other.opens ho ?_
    split <;> omega

end Receive

end Ends

end Talkrypt.Ratchet
