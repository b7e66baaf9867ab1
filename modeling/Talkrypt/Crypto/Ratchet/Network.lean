import Talkrypt.Lib.Run
import Talkrypt.Crypto.Ratchet.Ends

/-!
# A conversation over a bad network

The two ends of a session, everything they have encrypted, and a network that delivers any of it at any
time and any number of times. `World.Described` is the invariant of every run whose steps are `Admitted`: there
is a ledger of which both sessions are views, and every message sent has its own place in it.
-/

namespace Talkrypt.Ratchet

variable {P : Primitives}

structure Sent where
  sender : Side
  text : Bytes
  bytes : Bytes

structure World (P : Primitives) where
  session : Side → Session P
  sent : List Sent
  opened : List Nat
  drawn : List RatchetPublic

inductive Event (P : Primitives) where
  | encrypt (side : Side) (c : SendCoins P) (text : Bytes)
  /-- The network delivers the `i`-th message to the peer of its sender. -/
  | deliver (i : Nat)

namespace World

def create (profile : KemProfile) (root : P.Key) (prekey : KeyCoins P) : World P where
  session
    | .initiator => .initiator root (RatchetSecret.generate P profile prekey).2
    | .responder => .responder root (RatchetSecret.generate P profile prekey).1
        (RatchetSecret.generate P profile prekey).2
  sent := []
  opened := []
  drawn := [(RatchetSecret.generate P profile prekey).2]

def step (w : World P) : Event P → World P
  | .encrypt side c text =>
    let (s, res) := (w.session side).encrypt c text
    { w with
      session := Function.update w.session side s
      sent := match res with
        | .ok bytes => w.sent ++ [⟨side, text, bytes⟩]
        | .error _ => w.sent
      drawn := w.drawn ++ s.selfRatchetPub.toList }
  | .deliver i =>
    match w.sent[i]? with
    | none => w
    | some m =>
      let (s, res) := (w.session m.sender.other).decrypt m.bytes
      { w with
        session := Function.update w.session m.sender.other s
        opened := match res with
          | .ok _ => i :: w.opened
          | .error _ => w.opened }

def run (profile : KemProfile) (root : P.Key) (prekey : KeyCoins P) (evs : List (Event P)) : World P :=
  evs.foldl step (create profile root prekey)

/-- The steps considered: a ratchet key that is drawn has not been drawn before, the sealed text fits one wire
field, and the `u32` counter of the sending chain does not wrap. -/
def Admitted (w : World P) : Event P → Prop
  | .encrypt side c text =>
    (((w.session side).needSendRatchet || (w.session side).sendCk.isNone) = true →
      (RatchetSecret.generate P (w.session side).profile c.key).2 ∉ w.drawn) ∧
    ∀ aad ct, ((w.session side).encrypt c text).2 = .ok (putBytes aad ++ putBytes ct) →
      ct.length ≤ MAX_FRAME ∧ ((w.session side).encrypt c text).1.sendN ≠ 0
  | .deliver _ => True

end World

namespace Session
variable {s : Session P} {hd : Header} {ct : Bytes}

def header (s : Session P) (message : Bytes) : Except CryptoError Header := do
  let (aad, _) ← readMessage.parse message
  Header.decode s.profile aad

theorem decryptInner_append (hprofile : hd.ratchetPub.profile = s.profile)
    (hek : hd.ratchetPub.kemEk.length = KEM_EK_LEN) (hkct : hd.ct.length ≤ KEM_CT_LEN) (hpn : hd.pn < 2 ^ 32)
    (hn : hd.n < 2 ^ 32) (hct : ct.length ≤ MAX_FRAME) :
    s.header (putBytes hd.encode ++ putBytes ct) = .ok hd ∧
      s.decryptInner (putBytes hd.encode ++ putBytes ct) = s.receive hd ct hd.encode := by
  have hdec := Header.decode_encode hek hkct hpn hn
  rw [hprofile] at hdec
  have hread := readMessage_append (Header.encode_length_le hek hkct) hct
  constructor
  · simp only [header, hread, bind, Except.bind, hdec]
  · simp only [decryptInner, hread, bind, Except.bind, hdec]

end Session

theorem Ledger.Sealed.decryptInner {L : Ledger P} {k n : Nat} {text aad ct : Bytes} (hkem : P.KemCorrect)
    (h : L.WF) (hsealed : L.Sealed k n text aad ct) (hk : 2 ≤ k) (hkt : k ≤ L.top) (hn : n < (L.chain k).count)
    (hct : ct.length ≤ MAX_FRAME) {s : Session P} (hprofile : s.profile = L.profile) :
    ∃ pub, (L.chain k).pub L.profile = some pub ∧
      s.header (putBytes aad ++ putBytes ct) = .ok (L.header k n pub) ∧
      s.decryptInner (putBytes aad ++ putBytes ct) = s.receive (L.header k n pub) ct aad := by
  obtain ⟨pub, -, hpub, -, rfl, -⟩ := hsealed
  obtain ⟨c, -, rfl⟩ := Chain.pub_eq_some hpub
  refine ⟨_, hpub, Session.decryptInner_append hprofile.symm (hkem.generate_length c.kem) (h.ct_length k hkt) ?_
    (hn.trans (h.count_lt k hkt)) hct⟩
  have hpn := h.pn (k - 2) (by omega)
  rw [show k - 2 + 2 = k by omega] at hpn
  exact hpn ▸ h.count_lt (k - 2) (by omega)

/-! ## The invariant -/

/-- Message `m` stands at number `n` of chain `k`. -/
structure Placed (L : Ledger P) (m : Sent) (k n : Nat) : Prop where
  two_le : 2 ≤ k
  le_top : k ≤ L.top
  lt_count : n < (L.chain k).count
  sender : m.sender = owner k
  sealed : ∃ aad ct, L.Sealed k n m.text aad ct ∧ ct.length ≤ MAX_FRAME ∧ m.bytes = putBytes aad ++ putBytes ct

section Placed
variable {L L' : Ledger P} {m : Sent} {j k n : Nat}

theorem Placed.congr (h : Placed L m k n) (hprofile : L'.profile = L.profile) (htop : L.top ≤ L'.top)
    (hchain : ∃ count got, L'.chain k = { L.chain k with count, got } ∧ (L.chain k).count ≤ count) :
    Placed L' m k n := by
  obtain ⟨count, got, heq, hle⟩ := hchain
  obtain ⟨aad, ct, hsealed, hrest⟩ := h.sealed
  refine ⟨h.two_le, h.le_top.trans htop, ?_, h.sender, aad, ct, hsealed.congr hprofile ⟨count, got, heq⟩, hrest⟩
  rw [heq]
  exact h.lt_count.trans_le hle

theorem Placed.opens (h : Placed L m k n) {n' : Nat} (ho : L.Opens L' j n') : Placed L' m k n := by
  obtain ⟨got, heq, -⟩ := ho.chain k
  exact h.congr ho.profile ho.top.ge ⟨_, got, heq, le_rfl⟩

theorem Placed.extended (h : Placed L m k n) {side : Side} (he : Ends.Extends side L L') : Placed L' m k n := by
  refine h.congr he.profile ?_ ⟨_, _, he.chain k h.le_top, le_rfl⟩
  have := he.top
  omega

theorem Placed.send (h : Placed L m k n) : Placed (L.send j) m k n := by
  refine h.congr rfl le_rfl ⟨_, _, Ledger.send_chain k, ?_⟩
  split
  · exact Nat.le_succ _
  · exact le_rfl

end Placed

namespace World
variable {w : World P} {L : Ledger P} {places : List (Nat × Nat)}

structure Recorded (w : World P) (L : Ledger P) (places : List (Nat × Nat)) : Prop where
  drawn : ∀ k p, k ≤ L.top → (L.chain k).pub L.profile = some p → p ∈ w.drawn
  length : places.length = w.sent.length
  nodup : places.Nodup
  placed : ∀ (i : Nat) m k n, w.sent[i]? = some m → places[i]? = some (k, n) → Placed L m k n
  opened : ∀ (i : Nat) k n, places[i]? = some (k, n) → (L.opened k n ↔ i ∈ w.opened)
  opened_lt : ∀ i ∈ w.opened, i < w.sent.length

structure Described (w : World P) (L : Ledger P) (places : List (Nat × Nat)) : Prop
    extends Recorded w L places where
  ends : Ends L w.session

namespace Described

def initial (profile : KemProfile) (root : P.Key) (prekey : KeyCoins P) : Ledger P where
  profile := profile
  chain k := ⟨if k = 1 then some prekey else none, [], root, none, 0, 0, 0⟩
  top := 1
  seen := true
  opened _ _ := False

theorem create (profile : KemProfile) (root : P.Key) (prekey : KeyCoins P) :
    Described (World.create profile root prekey) (initial profile root prekey) [] := by
  have hwf : (initial profile root prekey).WF :=
    { top_pos := le_rfl
      seen_top := fun _ => rfl
      first := rfl
      prekey := Option.some_ne_none _
      idle := fun _ _ => ⟨rfl, rfl⟩
      ct_length := fun _ _ => Nat.zero_le _
      linked := fun k hk hlt => absurd hk (Nat.not_le.mpr hlt)
      pubs := fun k k' p _ _ hp hp' => by
        have hone : ∀ j, ((initial profile root prekey).chain j).pub profile = some p → j = 1 := by
          intro j hj
          by_contra hne
          rw [Chain.pub, show ((initial profile root prekey).chain j).key = none from if_neg hne] at hj
          cases hj
        rw [hone k hp, hone k' hp']
      pn := fun _ _ => rfl
      count_lt := fun _ _ => Nat.two_pow_pos 32
      got_le := fun _ _ => le_rfl
      unseen := by simp [initial]
      closed := fun _ _ => rfl
      opened_lt := by simp [initial]
      opened_top := by simp [initial] }
  have hnone : ∀ r id n seed, ¬ (initial profile root prekey).Retains r id n seed := by
    rintro r id n seed ⟨k, pub, ck, -, -, -, -, hck, -⟩
    cases hck
  have hempty : ∀ r id n seed, (∅ : Table (Bytes × Nat) P.Key).lookup (id, n) = some seed ↔
      (initial profile root prekey).Retains r id n seed := fun r id n seed =>
    ⟨by simp, fun h => absurd h (hnone r id n seed)⟩
  refine ⟨⟨fun k p _ hp => ?_, rfl, List.nodup_nil, by simp, by simp, by simp [World.create]⟩, hwf, ?_, ?_⟩
  · obtain ⟨c, hc, rfl⟩ := Chain.pub_eq_some hp
    have hkey : (if k = 1 then some prekey else none) = some c := hc
    split at hkey
    · cases hkey
      exact List.mem_singleton.mpr rfl
    · cases hkey
  · exact ⟨rfl, ⟨rfl, rfl, rfl, rfl, rfl, rfl⟩, ⟨rfl, rfl, rfl, hempty 0, Nat.zero_le _⟩, rfl, rfl⟩
  · exact ⟨rfl, ⟨rfl, rfl, rfl, rfl, rfl, rfl⟩, ⟨rfl, rfl, rfl, hempty 1, Nat.zero_le _⟩, rfl, rfl⟩

end Described

namespace Recorded

variable {k n : Nat}

theorem opens (h : Recorded w L places) {L' : Ledger P} {session : Side → Session P} {i : Nat}
    (hi : places[i]? = some (k, n)) (ho : L.Opens L' k n) :
    Recorded { w with session, opened := i :: w.opened } L' places := by
  have hlt : i < places.length := (List.getElem?_eq_some_iff.mp hi).1
  refine ⟨fun j p hj hp => ?_, h.length, h.nodup, fun i' m k' n' hm hp => ?_, fun i' k' n' hp => ?_, ?_⟩
  · obtain ⟨got, heq, -⟩ := ho.chain j
    rw [ho.profile, heq] at hp
    exact h.drawn j p (ho.top ▸ hj) hp
  · exact (h.placed i' m k' n' hm hp).opens ho
  · rw [ho.opened, h.opened i' k' n' hp, List.mem_cons, or_comm]
    refine or_congr_left ⟨?_, ?_⟩
    · rintro ⟨rfl, rfl⟩
      exact ((List.getElem?_inj hlt h.nodup).mp (hi.trans hp.symm)).symm
    · rintro rfl
      rw [hi, Option.some.injEq, Prod.mk.injEq] at hp
      exact ⟨hp.1.symm, hp.2.symm⟩
  · intro i' hi'
    rcases List.mem_cons.mp hi' with rfl | hmem
    · exact h.length ▸ hlt
    · exact h.opened_lt i' hmem

theorem extended (h : Recorded w L places) {L' : Ledger P} {side : Side} (session : Side → Session P)
    (s' : Session P) (he : Ends.Extends side L L')
    (hpub : owner L'.top = side → s'.selfRatchetPub = (L'.chain L'.top).pub L'.profile) :
    Recorded { w with session, drawn := w.drawn ++ s'.selfRatchetPub.toList } L' places := by
  refine ⟨fun k p hk hp => ?_, h.length, h.nodup, fun i m k n hm hp => ?_, fun i k n hp => ?_, h.opened_lt⟩
  · rw [List.mem_append]
    by_cases hkt : k ≤ L.top
    · rw [he.profile, he.chain k hkt] at hp
      exact .inl (h.drawn k p hkt hp)
    · rcases he.top with htop | ⟨htop, hside⟩
      · omega
      · obtain rfl : k = L'.top := by omega
        right
        rw [hpub hside, hp]
        exact List.mem_singleton.mpr rfl
  · exact (h.placed i m k n hm hp).extended he
  · rw [he.opened]
    exact h.opened i k n hp

theorem send (h : Recorded w L places) {side : Side} {text bytes : Bytes} (hm : Placed L ⟨side, text, bytes⟩ k n)
    (hnew : (k, n) ∉ places) (hopen : ¬ L.opened k n) :
    Recorded { w with sent := w.sent ++ [⟨side, text, bytes⟩] } L (places ++ [(k, n)]) := by
  have hlength := h.length
  refine ⟨h.drawn, by simp [hlength], ?_, fun i m k' n' hi hp => ?_, fun i k' n' hp => ?_, fun i hi => ?_⟩
  · exact List.nodup_append.mpr ⟨h.nodup, List.nodup_singleton _, fun p hp q hq heq =>
      hnew (List.mem_singleton.mp hq ▸ heq ▸ hp)⟩
  · rcases getElem?_concat hi with hi | ⟨rfl, rfl⟩ <;> rcases getElem?_concat hp with hp | ⟨hp, heq⟩
    · exact h.placed i m k' n' hi hp
    · have := (List.getElem?_eq_some_iff.mp hi).1
      omega
    · have := (List.getElem?_eq_some_iff.mp hp).1
      omega
    · cases heq
      exact hm
  · rcases getElem?_concat hp with hp | ⟨rfl, heq⟩
    · exact h.opened i k' n' hp
    · cases heq
      refine iff_of_false hopen fun hmem => ?_
      have := h.opened_lt _ hmem
      omega
  · have := h.opened_lt i hi
    simp only [List.length_append, List.length_singleton]
    omega

theorem counted (h : Recorded w L places) (k : Nat) : Recorded w (L.send k) places := by
  refine ⟨fun j p hj hp => ?_, h.length, h.nodup, fun i m k n hm hp => (h.placed i m k n hm hp).send,
    h.opened, h.opened_lt⟩
  rw [Ledger.send_chain] at hp
  exact h.drawn j p hj hp

theorem place_new (h : Recorded w L places) (hn : (L.chain k).count ≤ n) : (k, n) ∉ places := by
  intro hmem
  obtain ⟨i, hi, hplace⟩ := List.getElem_of_mem hmem
  obtain ⟨m, hm⟩ : ∃ m, w.sent[i]? = some m := ⟨_, List.getElem?_eq_getElem (h.length ▸ hi)⟩
  have := (h.placed i m k n hm (List.getElem?_eq_some_iff.mpr ⟨hi, hplace⟩)).lt_count
  omega

end Recorded

namespace Described
variable (hkem : P.KemCorrect) (hdh : P.DhCorrect) (hkdf : P.KdfIdeal) (haead : P.AeadCorrect)
  (hint : P.AeadIntegrity)

include hkem hkdf haead hint in
theorem decrypt (h : Described w L places) {i : Nat} {m : Sent} (hi : w.sent[i]? = some m) :
    (i ∈ w.opened → ∃ e, (w.session m.sender.other).decrypt m.bytes = (w.session m.sender.other, .error e)) ∧
    (i ∉ w.opened → ∃ hd, (w.session m.sender.other).header m.bytes = .ok hd ∧
      ((w.session m.sender.other).Within hd → ∃ L' s',
        (w.session m.sender.other).decrypt m.bytes = (s', .ok m.text) ∧
        Described { w with session := Function.update w.session m.sender.other s', opened := i :: w.opened }
          L' places) ∧
      (¬ (w.session m.sender.other).Within hd → (w.session m.sender.other).decrypt m.bytes =
        (w.session m.sender.other, .error (.tooManySkipped MAX_SKIP)))) := by
  have hlt : i < places.length := h.length ▸ (List.getElem?_eq_some_iff.mp hi).1
  obtain ⟨⟨k, n⟩, hplace⟩ : ∃ p, places[i]? = some p := ⟨_, List.getElem?_eq_getElem hlt⟩
  have hm := h.placed i m k n hi hplace
  obtain ⟨aad, ct, hsealed, hct, hbytes⟩ := hm.sealed
  obtain ⟨pub, hpub, hhead, hinner⟩ := hsealed.decryptInner hkem h.ends.wf hm.two_le hm.le_top hm.lt_count hct
    (h.ends.profile m.sender.other)
  have hout := h.ends.receive hkem hkdf haead hint hsealed hm.two_le hm.le_top hm.lt_count hpub
  rw [← hm.sender] at hout
  rw [← hbytes] at hhead hinner
  refine ⟨fun hopen => ?_, fun hopen => ⟨_, hhead, fun hwithin => ?_, fun hwithin => ?_⟩⟩
  · obtain ⟨e, hrecv⟩ := hout.again ((h.opened i k n hplace).mpr hopen)
    exact ⟨e, by rw [Session.decrypt, hinner, hrecv]⟩
  · obtain ⟨L', s', hrecv, ho, hends⟩ := hout.within (fun hop => hopen ((h.opened i k n hplace).mp hop)) hwithin
    exact ⟨L', s', by rw [Session.decrypt, hinner, hrecv], h.opens hplace ho, hends⟩
  · have hrecv := hout.beyond (fun hop => hopen ((h.opened i k n hplace).mp hop)) hwithin
    rw [Session.decrypt, hinner, hrecv]

include hkem hdh in
theorem encrypt (h : Described w L places) {side : Side} {c : SendCoins P} {text : Bytes}
    (hadm : w.Admitted (.encrypt side c text)) :
    ∃ L' places', Described (w.step (.encrypt side c text)) L' places' := by
  obtain ⟨hfresh, hfit⟩ := hadm
  obtain ⟨L', hext, hout⟩ := h.ends.encrypt hkem hdh side c text fun hneed k p hk hp heq =>
    hfresh (by rw [hneed]; rfl) (heq ▸ h.drawn k p hk hp)
  rcases hout with ⟨s', e, henc, hends⟩ | ⟨s', bytes, k, henc, hc⟩
  · refine ⟨L', places, ?_⟩
    simp only [step, henc]
    refine ⟨h.extended _ s' hext fun hside => ?_, hends⟩
    have hpub := hends.last.sends.selfRatchetPub
    rwa [hside, Function.update_self] at hpub
  · obtain ⟨aad, ct, hsealed, rfl⟩ := hc.sealed
    obtain ⟨hct, hwrap⟩ := hfit aad ct (by rw [henc])
    rw [henc] at hwrap
    have hends := hc.ends hwrap
    have hrec := h.toRecorded.extended (Function.update w.session side s') s' hext
      fun hside => by
        have hpub := hends.last.sends.selfRatchetPub
        rw [show (L'.send k).top = L'.top from rfl, hside, Function.update_self, Ledger.send_chain] at hpub
        exact hpub
    have hplaced : Placed (L'.send k) ⟨side, text, putBytes aad ++ putBytes ct⟩ k (L'.chain k).count := by
      refine ⟨hc.two_le, hc.le_top, ?_, hc.owner, aad, ct,
        hsealed.congr rfl ⟨_, _, Ledger.send_chain k⟩, hct, rfl⟩
      rw [Ledger.send_chain, if_pos rfl]
      exact Nat.lt_succ_self _
    refine ⟨L'.send k, places ++ [(k, (L'.chain k).count)], ?_⟩
    simp only [step, henc]
    refine ⟨(hrec.counted k).send hplaced (hrec.place_new le_rfl) fun hopen => ?_, hends⟩
    -- nothing of a chain is opened before it is sent
    have hopen' : L.opened k (L'.chain k).count := hext.opened ▸ hopen
    have hkt := h.ends.wf.opened_top _ _ hopen'
    have hlt := h.ends.wf.opened_lt _ _ hopen'
    have hle := h.ends.wf.got_le k hkt
    rw [hext.chain k hkt] at hlt
    omega

include hkem hkdf haead hint in
theorem deliver (h : Described w L places) (i : Nat) : ∃ L', Described (w.step (.deliver i)) L' places := by
  cases hi : w.sent[i]? with
  | none => exact ⟨L, by simpa only [step, hi] using h⟩
  | some m =>
    have hsame : Function.update w.session m.sender.other (w.session m.sender.other) = w.session :=
      Function.update_eq_self ..
    obtain ⟨hagain, hfirst⟩ := h.decrypt hkem hkdf haead hint hi
    by_cases hopen : i ∈ w.opened
    · obtain ⟨e, hdec⟩ := hagain hopen
      exact ⟨L, by simpa only [step, hi, hdec, hsame] using h⟩
    · obtain ⟨hd, -, hin, hout⟩ := hfirst hopen
      by_cases hwithin : (w.session m.sender.other).Within hd
      · obtain ⟨L', s', hdec, h'⟩ := hin hwithin
        exact ⟨L', by simpa only [step, hi, hdec] using h'⟩
      · exact ⟨L, by simpa only [step, hi, hout hwithin, hsame] using h⟩

include hkem hdh hkdf haead hint in
theorem run {profile : KemProfile} {root : P.Key} {prekey : KeyCoins P} {evs : List (Event P)}
    (hevs : Run.Along step Admitted (World.create profile root prekey) evs) :
    ∃ L places, Described (World.run profile root prekey evs) L places := by
  refine hevs.invariant (I := fun w => ∃ L places, Described w L places) ?_ ⟨_, _, create profile root prekey⟩
  rintro w (⟨side, c, text⟩ | i) ⟨L, places, h⟩ hadm
  · exact h.encrypt hkem hdh hadm
  · obtain ⟨L', h'⟩ := h.deliver hkem hkdf haead hint i
    exact ⟨L', places, h'⟩

end Described

end World

end Talkrypt.Ratchet
