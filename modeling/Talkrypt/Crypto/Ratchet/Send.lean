import Talkrypt.Crypto.Ratchet.Receive

/-!
# Sending

What `encrypt` does to an end of the conversation: `End.send` seals the next message of the chain the end sends
on, and `End.ratchetSend` answers the last chain with a new one.
-/

namespace Talkrypt.Ratchet

variable {P : Primitives}

namespace Ledger
variable (L : Ledger P)

def send (k : Nat) : Ledger P :=
  { L with chain := Function.update L.chain k { L.chain k with count := (L.chain k).count + 1 } }

/-- The receiver of the last chain answers with a chain of its own. -/
def extend (c : Chain P) : Ledger P :=
  { L with chain := Function.update L.chain (L.top + 1) c, top := L.top + 1, seen := false }

variable {L} {k : Nat}

theorem send_chain (j : Nat) : (L.send k).chain j =
    { L.chain j with count := if j = k then (L.chain j).count + 1 else (L.chain j).count } := by
  split
  · next hj =>
    subst hj
    exact Function.update_self ..
  · next hj => exact Function.update_of_ne hj ..

theorem WF.send (h : L.WF) (hk : 2 ≤ k) (hkt : k = L.top ∨ k + 1 = L.top)
    (hlt : (L.chain k).count + 1 < 2 ^ 32) : (L.send k).WF := by
  have heq : L.send k =
      L.recount (fun j => if j = k then (L.chain j).count + 1 else (L.chain j).count) fun j => (L.chain j).got :=
    congrArg (fun chain : Nat → Chain P => { L with chain }) (funext fun j => send_chain (L := L) j)
  rw [heq]
  refine h.recount (fun j hj => if_neg (by omega)) (fun j hj => ?_) (fun j hj => ?_) h.unseen (fun j hj => ?_)
    h.opened_lt
  · split
    · next hjk => exact hjk ▸ hlt
    · exact h.count_lt j hj
  · have hle := h.got_le j hj
    split
    · exact hle.trans (Nat.le_succ _)
    · exact hle
  · rw [if_neg (by omega)]
    exact h.closed j hj

theorem extend_chain {c : Chain P} {j : Nat} (hj : j ≤ L.top) : (L.extend c).chain j = L.chain j :=
  Function.update_of_ne (by omega) ..

@[simp] theorem extend_chain_top (c : Chain P) : (L.extend c).chain (L.top + 1) = c :=
  Function.update_self ..

theorem WF.extend {c : Chain P} (h : L.WF) (hseen : L.seen = true) (hct : c.ct.length ≤ KEM_CT_LEN)
    (hlink : Chain.Link L.profile (L.chain L.top) c)
    (hnew : ∀ k p, k ≤ L.top → (L.chain k).pub L.profile = some p → c.pub L.profile ≠ some p)
    (hpn : c.pn = (L.chain (L.top - 1)).count) (hcount : c.count = 0) (hgot : c.got = 0) :
    (L.extend c).WF := by
  have htop := h.top_pos
  have hcases : ∀ j, j ≤ L.top + 1 → j ≤ L.top ∨ j = L.top + 1 := fun j hj => by omega
  refine
    { top_pos := Nat.le_add_left ..
      seen_top := fun heq => by have : L.top + 1 = 1 := heq; omega
      first := by rw [extend_chain (by omega)]; exact h.first
      prekey := by rw [extend_chain htop]; exact h.prekey
      idle := fun j hj => by rw [extend_chain (by omega)]; exact h.idle j hj
      ct_length := fun j hj => ?_
      linked := fun j hj hjt => ?_
      pubs := fun j j' p hj hj' hp hp' => ?_
      pn := fun j hj => ?_
      count_lt := fun j hj => ?_
      got_le := fun j hj => ?_
      unseen := fun _ => by rw [show (L.extend c).top = L.top + 1 from rfl, extend_chain_top]; exact hgot
      closed := fun j hj => ?_
      opened_lt := fun j n hn => ?_
      opened_top := fun j n hn => (h.opened_top j n hn).trans (Nat.le_succ _) }
  · rcases hcases j hj with hle | rfl
    · rw [extend_chain hle]; exact h.ct_length j hle
    · rw [extend_chain_top]; exact hct
  · have hjt' : j < L.top + 1 := hjt
    rcases Nat.lt_succ_iff_lt_or_eq.mp hjt' with hlt | rfl
    · rw [extend_chain hlt.le, extend_chain hlt]; exact h.linked j hj hlt
    · rw [extend_chain le_rfl, extend_chain_top]; exact hlink
  · rcases hcases j hj with hle | rfl <;> rcases hcases j' hj' with hle' | rfl
    · rw [extend_chain hle] at hp
      rw [extend_chain hle'] at hp'
      exact h.pubs j j' p hle hle' hp hp'
    · rw [extend_chain hle] at hp
      rw [extend_chain_top] at hp'
      exact absurd hp' (hnew j p hle hp)
    · rw [extend_chain_top] at hp
      rw [extend_chain hle'] at hp'
      exact absurd hp (hnew j' p hle' hp')
    · rfl
  · have hj' : j + 2 ≤ L.top + 1 := hj
    rcases Nat.lt_or_ge (j + 1) L.top with hlt | hge
    · rw [extend_chain hlt, extend_chain (by omega)]; exact h.pn j hlt
    · obtain rfl : j = L.top - 1 := by omega
      rw [show L.top - 1 + 2 = L.top + 1 by omega, extend_chain_top, extend_chain (by omega)]
      exact hpn
  · rcases hcases j hj with hle | rfl
    · rw [extend_chain hle]; exact h.count_lt j hle
    · rw [extend_chain_top, hcount]; exact Nat.two_pow_pos 32
  · rcases hcases j hj with hle | rfl
    · rw [extend_chain hle]; exact h.got_le j hle
    · rw [extend_chain_top, hgot]; exact Nat.zero_le _
  · have hj' : j + 3 ≤ L.top + 1 := by
      rcases hj with hj | ⟨-, hj⟩
      · exact hj
      · cases hj
    rw [extend_chain (by omega)]
    refine h.closed j ?_
    rcases Nat.lt_or_ge (j + 2) L.top with hlt | hge
    · exact .inl hlt
    · exact .inr ⟨by omega, hseen⟩
  · rw [extend_chain (h.opened_top j n hn)]
    exact h.opened_lt j n hn

end Ledger

section Views
variable {L L' : Ledger P} {own k n r t : Nat} {need : Bool} {s : Session P}

theorem End.congr (he : End L own r t need s) (hprofile : L'.profile = L.profile)
    (hown : ∃ got, L'.chain own = { L.chain own with got })
    (hchain : ∀ k, k ≤ r → k % 2 = r % 2 → (L'.chain k).key = (L.chain k).key ∧
      (L'.chain k).ck = (L.chain k).ck ∧ (L'.chain k).got = (L.chain k).got)
    (hroot : (L'.chain t).root = (L.chain t).root)
    (hopened : ∀ k n, k % 2 = r % 2 → (L'.opened k n ↔ L.opened k n)) : End L' own r t need s := by
  obtain ⟨got, hown⟩ := hown
  have hs := he.sends
  refine ⟨he.profile.trans hprofile.symm, ?_, he.receives.congr hprofile hchain hopened,
    he.root.trans hroot.symm, he.need⟩
  rw [hprofile, hown]
  exact { hs with }

theorem End.send_ne (he : End L own r t need s) (hne : own ≠ k) : End (L.send k) own r t need s := by
  refine he.congr rfl ⟨_, Function.update_of_ne hne ..⟩ (fun j _ _ => ?_) ?_ fun _ _ _ => Iff.rfl
  · rw [Ledger.send_chain]
    exact ⟨rfl, rfl, rfl⟩
  · rw [Ledger.send_chain]

theorem End.send (h : L.WF) (he : End L k r t need s) (hk : 2 ≤ k) (hkt : k ≤ L.top) (text : Bytes) :
    (∃ e, s.send text = (s, .error e)) ∨
      ∃ aad ct s', L.Sealed k (L.chain k).count text aad ct ∧
        s.send text = (s', .ok (putBytes aad ++ putBytes ct)) ∧
        (s'.sendN ≠ 0 → (L.chain k).count + 1 < 2 ^ 32 ∧ End (L.send k) k r t need s') := by
  obtain ⟨ikm, pub, hck, -, hpub⟩ := h.chain_ck hk hkt
  have hcount := h.count_lt k hkt
  have hs := he.sends
  have hsend := hs.ck
  rw [hck, Option.map_some] at hsend
  have hpub' := hs.selfRatchetPub.trans hpub
  have hhead : (⟨pub, s.selfSendCt, s.prevSendN, s.sendN⟩ : Header) = L.header k (L.chain k).count pub := by
    rw [hs.ct, hs.prev, hs.n]
    rfl
  cases hseal : P.gcmEncrypt
      (P.kdfMk (P.kdfCk (chainKey (P.kdfRk (L.chain (k - 1)).root ikm).2 (L.chain k).count)).2).1
      (P.kdfMk (P.kdfCk (chainKey (P.kdfRk (L.chain (k - 1)).root ikm).2 (L.chain k).count)).2).2 text
      (L.header k (L.chain k).count pub).encode with
  | none =>
    refine .inl ⟨.error (.malformed "aead seal"), ?_⟩
    simp only [Session.send, hsend, hpub', hhead, Primitives.aeadSeal, hseal]
  | some ct =>
    refine .inr ⟨_, ct, { s with
        sendCk := some (P.kdfCk (chainKey (P.kdfRk (L.chain (k - 1)).root ikm).2 (L.chain k).count)).1
        sendN := (s.sendN + 1) % 2 ^ 32 }, ⟨pub, _, hpub, hck, rfl, hseal⟩, ?_, fun hwrap => ?_⟩
    · simp only [Session.send, hsend, hpub', hhead, Primitives.aeadSeal, hseal]
      rfl
    · have hlt : (L.chain k).count + 1 < 2 ^ 32 := by
        have hwrap' : (s.sendN + 1) % 2 ^ 32 ≠ 0 := hwrap
        rw [hs.n] at hwrap'
        omega
      have hR : Receives (L.send k) r s := by
        refine he.receives.congr rfl (fun j _ _ => ?_) fun _ _ _ => Iff.rfl
        rw [Ledger.send_chain]
        exact ⟨rfl, rfl, rfl⟩
      refine ⟨hlt, he.profile, ?_, { hR with }, ?_, he.need⟩
      · rw [show (L.send k).chain k = { L.chain k with count := (L.chain k).count + 1 } from
          Function.update_self ..]
        refine ⟨hs.selfRatchet, hs.selfRatchetPub, hs.ct, ?_, ?_, hs.prev⟩
        · show some _ = (L.chain k).ck.map (chainKey · ((L.chain k).count + 1))
          rw [hck, Option.map_some, chainKey_succ]
        · show (s.sendN + 1) % 2 ^ 32 = (L.chain k).count + 1
          rw [hs.n, Nat.mod_eq_of_lt hlt]
      · rw [Ledger.send_chain]
        exact he.root

theorem End.ratchetSend (hkem : P.KemCorrect) (hdh : P.DhCorrect) (h : L.WF)
    (he : End L (L.top - 1) L.top L.top true s) (c : SendCoins P) :
    ∃ d s', s.ratchetSend c = .ok s' ∧ d.key = some c.key ∧ d.ct.length = KEM_CT_LEN ∧
      Chain.Link L.profile (L.chain L.top) d ∧ d.pn = (L.chain (L.top - 1)).count ∧ d.count = 0 ∧ d.got = 0 ∧
      End (L.extend d) (L.top + 1) L.top (L.top + 1) false s' := by
  obtain ⟨kt, hkt⟩ : ∃ kt, (L.chain L.top).key = some kt := by
    rcases Nat.lt_or_ge 1 L.top with htop | htop
    · obtain ⟨-, kd, -, -, -, hkd, -⟩ := h.linked (L.top - 1) (by omega) (by omega)
      rw [show L.top - 1 + 1 = L.top by omega] at hkd
      exact ⟨kd, hkd⟩
    · rw [show L.top = 1 from Nat.le_antisymm htop h.top_pos]
      exact Option.ne_none_iff_exists'.mp h.prekey
  obtain ⟨ct, ikm, hto, hlen, hfrom⟩ := RatchetSecret.stepFrom_stepTo hkem hdh L.profile c.key kt c.enc
  have hpeer := he.receives.peer
  rw [Chain.pub, hkt, Option.map_some] at hpeer
  refine ⟨⟨some c.key, ct, (P.kdfRk s.root ikm).1, some (P.kdfRk s.root ikm).2, (L.chain (L.top - 1)).count, 0, 0⟩,
    { s with
      root := (P.kdfRk s.root ikm).1, prevSendN := s.sendN, sendN := 0, sendCk := some (P.kdfRk s.root ikm).2
      selfRatchet := some (RatchetSecret.generate P L.profile c.key).1
      selfRatchetPub := some (RatchetSecret.generate P L.profile c.key).2
      selfSendCt := ct, needSendRatchet := false },
    ?_, rfl, hlen, ?_, rfl, rfl, rfl, he.profile, ?_, ?_, ?_, rfl⟩
  · rw [Session.ratchetSend, hpeer, he.profile]
    simp only [hto, bind, Except.bind, pure, Except.pure]
  · exact ⟨kt, c.key, ikm, _, hkt, rfl, hfrom, by rw [← he.root], rfl⟩
  · rw [Ledger.extend_chain_top]
    exact ⟨rfl, rfl, rfl, rfl, rfl, he.sends.n⟩
  · have hR : Receives (L.extend ⟨some c.key, ct, (P.kdfRk s.root ikm).1, some (P.kdfRk s.root ikm).2,
        (L.chain (L.top - 1)).count, 0, 0⟩) L.top s :=
      he.receives.congr rfl (fun k hk _ => by rw [Ledger.extend_chain hk]; exact ⟨rfl, rfl, rfl⟩)
        fun _ _ _ => Iff.rfl
    exact { hR with }
  · rw [Ledger.extend_chain_top]

end Views

end Talkrypt.Ratchet
