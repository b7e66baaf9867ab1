import Talkrypt.Crypto.Ratchet.Ledger

/-!
# Receiving a genuine message

What `receive` does with message `n` of chain `k`, for an end that receives on chain `r`: it opens a message
whose key is retained (`End.receive_retained`), one of the current chain (`End.receive_current`) and one of the
next chain (`End.receive_next`) as long as the skip budget allows, and refuses one that it has opened before
(`End.receive_opened`).
-/

namespace Talkrypt.Ratchet

variable {P : Primitives}

/-- One end of the conversation: it sends on chain `own`, receives on chain `r`, and its root is that of
chain `t`. -/
structure End (L : Ledger P) (own r t : Nat) (need : Bool) (s : Session P) : Prop where
  profile : s.profile = L.profile
  sends : Sends L.profile (L.chain own) s
  receives : Receives L r s
  root : s.root = (L.chain t).root
  need : s.needSendRatchet = need

namespace Ledger
variable {L : Ledger P} {k n m r : Nat} {text aad ct : Bytes}

def header (L : Ledger P) (k n : Nat) (pub : RatchetPublic) : Header :=
  ⟨pub, (L.chain k).ct, (L.chain k).pn, n⟩

def see (L : Ledger P) : Ledger P := { L with seen := true }

theorem WF.see (h : L.WF) (hgot : ∀ k, k + 2 = L.top → (L.chain k).got = (L.chain k).count) : L.see.WF :=
  { h with
    seen_top := fun _ => rfl
    unseen := nofun
    closed := fun k hk => by
      rcases hk with hk | ⟨hk, -⟩
      · exact h.closed k (.inl hk)
      · exact hgot k hk }

theorem setGot_setGot {m' : Nat} : (L.setGot r m).setGot r m' = L.setGot r m' := by
  simp only [setGot, Function.update_idem, Function.update_self]

theorem Sealed.congr {L' : Ledger P} (h : L.Sealed k n text aad ct) (hprofile : L'.profile = L.profile)
    (hchain : ∃ count got, L'.chain k = { L.chain k with count, got }) : L'.Sealed k n text aad ct := by
  obtain ⟨count, got, heq⟩ := hchain
  obtain ⟨pub, ck, hpub, hck, haad, hseal⟩ := h
  refine ⟨pub, ck, ?_, ?_, ?_, hseal⟩
  · rw [heq, hprofile]
    exact hpub
  · rw [heq]
    exact hck
  · rw [heq]
    exact haad

theorem Sealed.setGot (h : L.Sealed k n text aad ct) : (L.setGot r m).Sealed k n text aad ct := by
  exact h.congr rfl ⟨_, _, setGot_chain k⟩

end Ledger

theorem Session.receive_of_none {s s₁ : Session P} {hd : Header} {ct aad : Bytes}
    (hlookup : s.skipped.lookup (hd.ratchetPub.encode, hd.n) = none) (henter : s.enterChain hd = .ok s₁) :
    s.receive hd ct aad = s₁.skipRecv hd.n >>= fun s₂ => s₂.openNext ct aad := by
  simp only [receive, trySkipped, hlookup, henter, bind, Except.bind]

section
variable {L : Ledger P} {own k n m r t : Nat} {need : Bool} {s : Session P} {text aad ct : Bytes}
variable {pub : RatchetPublic}

theorem Sends.setGot (h : Sends L.profile (L.chain k) s) :
    Sends (L.setGot r m).profile ((L.setGot r m).chain k) s := by
  rw [Ledger.setGot_chain]
  exact { h with }

theorem Ledger.setGot_root (k : Nat) : ((L.setGot r m).chain k).root = (L.chain k).root := by
  rw [Ledger.setGot_chain]

/-! ## A retained key -/

theorem End.receive_retained (hkem : P.KemCorrect) (haead : P.AeadCorrect) (h : L.WF)
    (he : End L own r t need s) (hr : r ≤ L.top) (hsealed : L.Sealed k n text aad ct) (hkr : k ≤ r)
    (hpar : k % 2 = r % 2) (hgot : n < (L.chain k).got) (hopen : ¬ L.opened k n)
    (hpub : (L.chain k).pub L.profile = some pub) :
    ∃ s', s.receive (L.header k n pub) ct aad = .ok (s', text) ∧
      End (L.markOpened k n) own r t need s' := by
  obtain ⟨htry, hR⟩ := he.receives.trySkipped hkem haead h hr hsealed hkr hpar hgot hopen
    (L.header k n pub) hpub rfl
  refine ⟨{ s with skipped := s.skipped.erase (pub.encode, n) }, ?_, he.profile, ?_, hR, he.root, he.need⟩
  · simp only [Session.receive, htry, bind, Except.bind, pure, Except.pure]
    rfl
  · exact { he.sends with }

/-! ## The current chain -/

private theorem End.open_at (hkem : P.KemCorrect) (haead : P.AeadCorrect) (h : L.WF)
    (he : End L own r t need s) (hr : r ≤ L.top) (hsealed : L.Sealed r n text aad ct)
    (hseen : r = L.top → L.seen = true) (hgot : (L.chain r).got ≤ n) (hn : n < (L.chain r).count)
    (hroom : s.skipped.entries.length + (n - (L.chain r).got) ≤ MAX_SKIP) :
    ∃ s₁ s', s.skipRecv n = .ok s₁ ∧ s₁.openNext ct aad = .ok (s', text) ∧
      End ((L.setGot r (n + 1)).markOpened r n) own r t need s' ∧
      ((L.setGot r (n + 1)).markOpened r n).WF := by
  obtain ⟨pub, ck, hpub, hck, -⟩ := id hsealed
  have hcount := h.count_lt r hr
  obtain ⟨skipped, hskip, hR, -⟩ := he.receives.skipRecv hkem h hr hck hpub hgot hroom
  obtain ⟨hopen, hR'⟩ := hR.openNext haead hsealed.setGot
    (by rw [Ledger.setGot_self]) ((Ledger.setGot_ck r).trans hck) (by omega)
  rw [Ledger.setGot_setGot] at hR'
  refine ⟨_, _, hskip, hopen, ⟨he.profile, ?_, hR', ?_, he.need⟩, ?_⟩
  · exact { he.sends.setGot (r := r) (m := n + 1) with }
  · exact he.root.trans (Ledger.setGot_root t).symm
  · refine (h.setGot (by omega) (by omega) hseen).markOpened hr ?_
    rw [Ledger.setGot_self]
    exact n.lt_succ_self

theorem End.receive_current (hkem : P.KemCorrect) (haead : P.AeadCorrect) (h : L.WF)
    (he : End L own r t need s) (hr : r ≤ L.top) (hsealed : L.Sealed r n text aad ct)
    (hseen : r = L.top → L.seen = true) (hgot : (L.chain r).got ≤ n) (hn : n < (L.chain r).count)
    (hpub : (L.chain r).pub L.profile = some pub) :
    (s.skipped.entries.length + (n - (L.chain r).got) ≤ MAX_SKIP →
      ∃ s', s.receive (L.header r n pub) ct aad = .ok (s', text) ∧
        End ((L.setGot r (n + 1)).markOpened r n) own r t need s' ∧
        ((L.setGot r (n + 1)).markOpened r n).WF) ∧
    (MAX_SKIP < s.skipped.entries.length + (n - (L.chain r).got) →
      s.receive (L.header r n pub) ct aad = .error (.tooManySkipped MAX_SKIP)) := by
  have hlookup := he.receives.lookup_none hkem h hr hr hpub (n := n) fun _ => .inl hgot
  have henter : s.enterChain (L.header r n pub) = .ok s := by
    rw [Session.enterChain, if_pos]
    rw [he.receives.peer, hpub]
    rfl
  rw [Session.receive_of_none hlookup henter, show (L.header r n pub).n = n from rfl]
  constructor
  · intro hroom
    obtain ⟨s₁, s', hskip, hopen, hend, hwf⟩ := he.open_at hkem haead h hr hsealed hseen hgot hn hroom
    refine ⟨s', ?_, hend, hwf⟩
    rw [hskip]
    exact hopen
  · intro hroom
    obtain ⟨-, ck, -, hck, -⟩ := id hsealed
    rw [he.receives.skipRecv_error hck hgot hroom]
    rfl

/-! ## The next chain -/

private theorem End.finish_chain (hkem : P.KemCorrect) (h : L.WF) (he : End L own r t need s) (hr : r ≤ L.top)
    (hseen : r = L.top → L.seen = true) :
    (s.skipped.entries.length + ((L.chain r).count - (L.chain r).got) ≤ MAX_SKIP →
      ∃ s', s.skipRecv (L.chain r).count = .ok s' ∧ End (L.setGot r (L.chain r).count) own r t need s' ∧
        (L.setGot r (L.chain r).count).WF ∧
        s'.skipped.entries.length = s.skipped.entries.length + ((L.chain r).count - (L.chain r).got)) ∧
    (MAX_SKIP < s.skipped.entries.length + ((L.chain r).count - (L.chain r).got) →
      s.skipRecv (L.chain r).count = .error (.tooManySkipped MAX_SKIP)) := by
  have hle := h.got_le r hr
  have hwf := h.setGot hle le_rfl hseen
  have hsize := he.receives.size
  cases hck : (L.chain r).ck with
  | none =>
    have hr1 : r ≤ 1 := by
      by_contra hr2
      obtain ⟨ikm, pub, hck', -⟩ := h.chain_ck (k := r) (by omega) hr
      rw [hck] at hck'
      cases hck'
    have hcount := (h.idle r hr1).2
    have hrecv := he.receives.ck
    rw [hck, Option.map_none] at hrecv
    have hsame : L.setGot r (L.chain r).count = L := by
      have hgot : (L.chain r).count = (L.chain r).got := by omega
      rw [hgot, Ledger.setGot, Function.update_eq_self_iff.mpr rfl]
    refine ⟨fun _ => ⟨s, ?_, by rw [hsame]; exact he, hwf, by omega⟩, fun hroom => by omega⟩
    rw [Session.skipRecv, hrecv]
  | some ck =>
    have hr2 : 2 ≤ r := by
      by_contra hr1
      rw [(h.idle r (by omega)).1] at hck
      cases hck
    obtain ⟨ikm, pub, -, -, hpub⟩ := h.chain_ck hr2 hr
    refine ⟨fun hroom => ?_, fun hroom => he.receives.skipRecv_error hck hle hroom⟩
    obtain ⟨skipped, hskip, hR, hlen⟩ := he.receives.skipRecv hkem h hr hck hpub hle hroom
    refine ⟨_, hskip, ⟨he.profile, ?_, hR, ?_, he.need⟩, hwf, hlen⟩
    · exact { he.sends.setGot (r := r) (m := (L.chain r).count) with }
    · exact he.root.trans (Ledger.setGot_root t).symm

/-- The ledger when the first message of the last chain comes in. -/
def Ledger.enter (L : Ledger P) (r n : Nat) : Ledger P :=
  (((L.setGot r (L.chain r).count).see).setGot (r + 2) (n + 1)).markOpened (r + 2) n

theorem End.receive_next (hkem : P.KemCorrect) (haead : P.AeadCorrect) (h : L.WF)
    (he : End L (r + 1) r (r + 1) need s) (htop : L.top = r + 2) (hunseen : L.seen = false)
    (hsealed : L.Sealed (r + 2) n text aad ct) (hn : n < (L.chain (r + 2)).count)
    (hpub : (L.chain (r + 2)).pub L.profile = some pub) :
    (s.skipped.entries.length + ((L.chain r).count - (L.chain r).got) + n ≤ MAX_SKIP →
      ∃ s', s.receive (L.header (r + 2) n pub) ct aad = .ok (s', text) ∧
        End (L.enter r n) (r + 1) (r + 2) (r + 2) true s' ∧ (L.enter r n).WF) ∧
    (MAX_SKIP < s.skipped.entries.length + ((L.chain r).count - (L.chain r).got) + n →
      s.receive (L.header (r + 2) n pub) ct aad = .error (.tooManySkipped MAX_SKIP)) := by
  have hgot : (L.chain (r + 2)).got = 0 := htop ▸ h.unseen hunseen
  have hlookup := he.receives.lookup_none hkem h (k := r + 2) (n := n) (by omega) (by omega) hpub
    fun hle => absurd hle (by omega)
  have hnew : s.peerRatchet ≠ some (L.header (r + 2) n pub).ratchetPub := by
    intro heq
    rw [he.receives.peer] at heq
    have := h.pubs r (r + 2) _ (by omega) (by omega) heq hpub
    omega
  have hpn : (L.header (r + 2) n pub).pn = (L.chain r).count := h.pn r (by omega)
  obtain ⟨hfinish, hfull⟩ := he.finish_chain hkem h (by omega) fun heq => by omega
  -- the two skips share one budget
  by_cases hroom : s.skipped.entries.length + ((L.chain r).count - (L.chain r).got) ≤ MAX_SKIP
  · obtain ⟨s₁, hskip, he₁, hwf₁, hlen⟩ := hfinish hroom
    have hL₁ : (L.setGot r (L.chain r).count).chain (r + 2) = L.chain (r + 2) := Ledger.setGot_ne (by omega)
    have hlink := hwf₁.linked (r + 1) (by omega) (show r + 1 < L.top by omega)
    obtain ⟨s₂, hratchet, hR₂, heq₂⟩ := he₁.receives.ratchetRecv he₁.sends.selfRatchet he₁.root hlink
      (by rw [hL₁]; exact hgot) (L.header (r + 2) n pub) ((Ledger.setGot_pub (r + 2)).trans hpub) (by rw [hL₁]; rfl)
    have henter : s.enterChain (L.header (r + 2) n pub) = .ok s₂ := by
      rw [Session.enterChain, if_neg hnew, hpn]
      simp only [hskip, bind, Except.bind]
      exact hratchet
    have hwf₂ : ((L.setGot r (L.chain r).count).see).WF := by
      refine hwf₁.see fun k hk => ?_
      obtain rfl : k = r := by
        have : k + 2 = L.top := hk
        omega
      rw [Ledger.setGot_self]
    have he₂ : End ((L.setGot r (L.chain r).count).see) (r + 1) (r + 2) (r + 2) true s₂ := by
      subst heq₂
      exact ⟨he₁.profile, { he₁.sends with }, { hR₂ with }, rfl, rfl⟩
    have hlen₂ : s₂.skipped.entries.length = s.skipped.entries.length + ((L.chain r).count - (L.chain r).got) := by
      rw [heq₂, ← hlen]
    have hsealed₂ : ((L.setGot r (L.chain r).count).see).Sealed (r + 2) n text aad ct := hsealed.setGot
    have hgot₂ : (((L.setGot r (L.chain r).count).see).chain (r + 2)).got = 0 := by
      show ((L.setGot r (L.chain r).count).chain (r + 2)).got = 0
      rw [hL₁]
      exact hgot
    rw [Session.receive_of_none hlookup henter, show (L.header (r + 2) n pub).n = n from rfl]
    constructor
    · intro hall
      obtain ⟨s₃, s', hskip', hopen, hend, hwf⟩ := he₂.open_at hkem haead hwf₂ (show r + 2 ≤ L.top by omega)
        hsealed₂ (fun _ => rfl) (by omega)
        (by show n < ((L.setGot r (L.chain r).count).chain (r + 2)).count; rw [hL₁]; exact hn)
        (by omega)
      refine ⟨s', ?_, hend, hwf⟩
      rw [hskip']
      exact hopen
    · intro hall
      obtain ⟨-, ck, -, hck, -⟩ := id hsealed₂
      rw [he₂.receives.skipRecv_error hck (by omega) (by omega)]
      rfl
  · refine ⟨fun hall => by omega, fun _ => ?_⟩
    have henter : s.enterChain (L.header (r + 2) n pub) = .error (.tooManySkipped MAX_SKIP) := by
      rw [Session.enterChain, if_neg hnew, hpn]
      simp only [hfull (by omega), bind, Except.bind]
    simp only [Session.receive, Session.trySkipped, Ledger.header, hlookup] at henter ⊢
    rw [henter]
    rfl

/-! ## A message that was opened before -/

theorem Session.skipRecv_eq_ok {s s' : Session P} (h : s.skipRecv m = .ok s') :
    ∃ recvCk recvN skipped, s' = { s with recvCk, recvN, skipped } ∧
      ∀ ck, s.recvCk = some ck → s.recvN ≤ m → recvCk = some (chainKey ck (m - s.recvN)) := by
  unfold Session.skipRecv at h
  cases hck : s.recvCk with
  | none =>
    rw [hck] at h
    cases h
    exact ⟨s.recvCk, s.recvN, s.skipped, rfl, nofun⟩
  | some ck =>
    rw [hck] at h
    dsimp only at h
    split at h
    · next hle =>
      cases h
      refine ⟨s.recvCk, s.recvN, s.skipped, rfl, ?_⟩
      rintro ck' ⟨⟩ hge
      rw [hck, show m - s.recvN = 0 by omega, chainKey_zero]
    · split at h
      · cases h
      · cases h
        refine ⟨_, _, _, rfl, ?_⟩
        rintro ck' ⟨⟩ hge
        rw [skipLoop_fst]

theorem Session.openNext_error {s : Session P} {ck : P.Key} {e : CryptoError} (hck : s.recvCk = some ck)
    (h : P.aeadOpen (P.kdfMk (P.kdfCk ck).2).1 (P.kdfMk (P.kdfCk ck).2).2 ct aad = .error e) :
    s.openNext ct aad = .error e := by
  simp only [Session.openNext, hck, h, bind, Except.bind]

/-- Only the seed of the message itself opens it: no other number of its chain, and no number of a chain
that a later root would give. -/
theorem Ledger.WF.seed_ne (hk : P.KdfIdeal) (h : L.WF) {ck : P.Key} (hk2 : 2 ≤ k) (hkt : k ≤ L.top)
    (hck : (L.chain k).ck = some ck) :
    (∀ n', n' ≠ n → seedAt ck n' ≠ seedAt ck n) ∧
      ∀ t ikm n', k ≤ t → t ≤ L.top → seedAt (P.kdfRk (L.chain t).root ikm).2 n' ≠ seedAt ck n := by
  obtain ⟨ikm, -, hck', -⟩ := h.chain_ck hk2 hkt
  obtain rfl := Option.some.inj (hck.symm.trans hck')
  refine ⟨fun n' hne heq => hne (seedAt_inj hk heq).1, fun t ikm' n' hkt' htt heq => ?_⟩
  exact h.root_ne hk (i := k - 1) (j := t) (by omega) (by omega) htt (seedAt_inj hk heq).2.symm

theorem End.receive_opened (hkem : P.KemCorrect) (hk : P.KdfIdeal) (hint : P.AeadIntegrity) (h : L.WF)
    (he : End L own r t need s) (hr : r ≤ L.top) (hrt : r ≤ t) (htt : t ≤ L.top)
    (hsealed : L.Sealed k n text aad ct) (hk2 : 2 ≤ k) (hkr : k ≤ r) (hopen : L.opened k n)
    (hpub : (L.chain k).pub L.profile = some pub) :
    ∃ e, s.receive (L.header k n pub) ct aad = .error e := by
  obtain ⟨-, ck, -, hck, -⟩ := id hsealed
  have hkt := hkr.trans hr
  have hlt := h.opened_lt k n hopen
  obtain ⟨hother, hlater⟩ := h.seed_ne hk (n := n) hk2 hkt hck
  have hlookup := he.receives.lookup_none hkem h hr hkt hpub (n := n) fun _ => .inr hopen
  cases henter : s.enterChain (L.header k n pub) with
  | error e =>
    refine ⟨e, ?_⟩
    simp only [Session.receive, Session.trySkipped, Ledger.header, hlookup] at henter ⊢
    rw [henter]
    rfl
  | ok s₁ =>
    rw [Session.receive_of_none hlookup henter, show (L.header k n pub).n = n from rfl]
    rw [Session.enterChain] at henter
    split at henter
    · -- the current chain: the next key is the one of a later number
      next hsame =>
      cases henter
      obtain rfl : k = r := by
        rw [he.receives.peer] at hsame
        exact (h.pubs k r _ hkt hr hpub hsame)
      have hrecv := he.receives.ck
      rw [hck, Option.map_some] at hrecv
      have hskip : s.skipRecv n = .ok s := by
        rw [Session.skipRecv, hrecv, he.receives.n]
        exact if_pos hlt.le
      rw [hskip]
      exact ⟨_, Session.openNext_error hrecv
        (hsealed.aeadOpen_error hk hint hck (hother (L.chain k).got hlt.ne'))⟩
    · -- an older chain: it is taken for a new one, and its key for one from the current root
      obtain ⟨s₂, hskip, hratchet⟩ := except_bind_eq_ok.mp henter
      obtain ⟨rck, rn, sk, rfl, -⟩ := Session.skipRecv_eq_ok hskip
      unfold Session.ratchetRecv at hratchet
      split at hratchet
      · cases hratchet
      · obtain ⟨ikm, -, hratchet⟩ := except_bind_eq_ok.mp hratchet
        cases hratchet
        cases hskip' : Session.skipRecv _ n with
        | error e => exact ⟨e, rfl⟩
        | ok s₃ =>
          obtain ⟨rck', rn', sk', rfl, hck'⟩ := Session.skipRecv_eq_ok hskip'
          have hrecv := hck' _ rfl (Nat.zero_le n)
          refine ⟨_, Session.openNext_error hrecv (hsealed.aeadOpen_error hk hint hck ?_)⟩
          have := hlater t ikm n (hkr.trans hrt) htt
          rwa [← he.root] at this

end

end Talkrypt.Ratchet
