import Talkrypt.Crypto.Ratchet.Ideal
import Talkrypt.Crypto.Ratchet.Network

/-!
# Delivery

What both ends can count on in every run over the network: a message is opened at most once, and it is opened
with its text whenever it is within the skip budget. The budget is one for the whole session: lost messages use
it up for good (`losses_use_up_budget`).
-/

namespace Talkrypt.Ratchet

variable {P : Primitives}

/-! ## A one-sided conversation

Over the ideal primitives, the initiator sends the same text again and again. -/

namespace OneSided
open Primitives (ideal)

def prekey : KeyCoins ideal := ⟨(0 : UInt8), (0 : UInt8)⟩

def coins : SendCoins ideal := ⟨⟨(0 : UInt8), (1 : UInt8)⟩, (0 : UInt8)⟩

def key (chain position : Nat) : ideal.Key := (chain, position)

def start : World ideal := World.create .hybrid (key 0 0) prekey

def pub : RatchetPublic := (RatchetSecret.generate ideal .hybrid coins.key).2

def header (n : Nat) : Header := ⟨pub, List.replicate KEM_CT_LEN 0, 0, n⟩

def sealed (text : Bytes) (n : Nat) : Bytes := sealHead (0, n + 1) [] (header n).encode ++ text

def message (text : Bytes) (n : Nat) : Bytes := putBytes (header n).encode ++ putBytes (sealed text n)

def letter (text : Bytes) (n : Nat) : Sent := ⟨.initiator, text, message text n⟩

def sender (n : Nat) : Session ideal :=
  { start.session .initiator with
    root := key 1 0, sendN := n, sendCk := some (key 0 n)
    selfRatchet := some (RatchetSecret.generate ideal .hybrid coins.key).1
    selfRatchetPub := some pub, selfSendCt := List.replicate KEM_CT_LEN 0, needSendRatchet := false }

theorem ratchetSend_start : (start.session .initiator).ratchetSend coins = .ok (sender 0) := by
  obtain ⟨ikm, hto, -⟩ := Primitives.ideal_step coins.key prekey coins.enc
  have hpeer : (start.session .initiator).peerRatchet = some (RatchetSecret.generate ideal .hybrid prekey).2 := rfl
  have hprofile : (start.session .initiator).profile = .hybrid := rfl
  rw [Session.ratchetSend, hpeer]
  simp only [hprofile, hto, bind, Except.bind, pure, Except.pure]
  rfl

variable {n : Nat} {text : Bytes} {w : World ideal} {k : Nat}

theorem sender_send (text : Bytes) (hn : n + 1 < 2 ^ 32) :
    (sender n).send text = (sender (n + 1), .ok (message text n)) := by
  show (({ sender n with sendCk := some (key 0 (n + 1)), sendN := (n + 1) % 2 ^ 32 } : Session ideal), _) = _
  rw [Nat.mod_eq_of_lt hn]
  rfl

/-- What the world looks like after `n` messages. -/
structure After (text : Bytes) (n : Nat) (w : World ideal) : Prop where
  initiator : w.session .initiator = sender n
  responder : w.session .responder = start.session .responder
  sent : w.sent = (List.range n).map (letter text)
  opened : w.opened = []

theorem encrypt_start (text : Bytes) :
    (start.session .initiator).encrypt coins text = (sender 1, .ok (message text 0)) := by
  have hdraws : ((start.session .initiator).needSendRatchet || (start.session .initiator).sendCk.isNone) = true :=
    rfl
  rw [Session.encrypt, if_pos hdraws, ratchetSend_start]
  exact sender_send text (by decide)

theorem sender_keeps (n : Nat) : ((sender n).needSendRatchet || (sender n).sendCk.isNone) = false := rfl

theorem sender_encrypt (text : Bytes) (hn : n + 1 < 2 ^ 32) :
    (sender n).encrypt coins text = (sender (n + 1), .ok (message text n)) := by
  rw [Session.encrypt, sender_keeps, if_neg Bool.false_ne_true]
  exact sender_send text hn

theorem after_first (text : Bytes) : After text 1 (start.step (.encrypt .initiator coins text)) := by
  simp only [World.step, encrypt_start]
  exact ⟨Function.update_self Side.initiator (sender 1) start.session,
    Function.update_of_ne (Side.other_ne .initiator) (sender 1) start.session, rfl, rfl⟩

theorem After.step (h : After text n w) (hn : n + 1 < 2 ^ 32) :
    After text (n + 1) (w.step (.encrypt .initiator coins text)) := by
  simp only [World.step, h.initiator, sender_encrypt text hn]
  refine ⟨Function.update_self Side.initiator (sender (n + 1)) w.session, ?_, ?_, h.opened⟩
  · exact (Function.update_of_ne (Side.other_ne .initiator) (sender (n + 1)) w.session).trans h.responder
  · show w.sent ++ [_] = _
    rw [h.sent, List.range_succ, List.map_append]
    rfl

def sends (text : Bytes) (n : Nat) : List (Event ideal) := List.replicate n (.encrypt .initiator coins text)

def world (text : Bytes) (n : Nat) : World ideal := World.run .hybrid (key 0 0) prekey (sends text n)

theorem sends_succ (text : Bytes) (n : Nat) :
    sends text (n + 1) = sends text n ++ [.encrypt .initiator coins text] :=
  List.replicate_succ'

theorem world_zero (text : Bytes) : world text 0 = start := rfl

theorem world_succ (text : Bytes) (n : Nat) :
    world text (n + 1) = (world text n).step (.encrypt .initiator coins text) := by
  rw [world, World.run, sends_succ, List.foldl_append]
  rfl

theorem after_sends (text : Bytes) (hn : n + 1 < 2 ^ 32) : After text (n + 1) (world text (n + 1)) := by
  induction n with
  | zero =>
    rw [world_succ, world_zero]
    exact after_first text
  | succ n ih =>
    rw [world_succ]
    exact (ih (by omega)).step hn

theorem header_length (n : Nat) : (header n).encode.length = 3192 := by
  have hpub : pub.encode.length = 1608 := by
    have hx : (ideal.xPublic (ideal.xGenerate coins.key.aux)).1.length = 32 :=
      (ideal.xPublic (ideal.xGenerate coins.key.aux)).2
    have hfield : KemProfile.hybrid.hasX = true := rfl
    rw [pub, RatchetSecret.generate, RatchetPublic.encode_mk', if_pos hfield, List.length_append, putBytes_length,
      putBytes_length, hx, Primitives.ideal_kemCorrect.generate_length]
    rfl
  simp only [header, Header.encode, List.length_append, putBytes_length, hpub, List.length_replicate, putU32,
    beBytes_length]
  rfl

theorem sealed_length (text : Bytes) (n : Nat) : (sealed text n).length = text.length + n + 6389 := by
  simp only [sealed, sealHead, sized, List.length_append, unary_length, header_length, List.length_nil]
  omega

theorem message_length (text : Bytes) (n : Nat) : (message text n).length = text.length + n + 9589 := by
  simp only [message, List.length_append, putBytes_length, header_length, sealed_length]
  omega

theorem admitted_of_length {bytes : Bytes} {s : Session ideal}
    (henc : (w.session .initiator).encrypt coins text = (s, .ok bytes)) (hlen : bytes.length ≤ MAX_FRAME)
    (hs : s.sendN ≠ 0)
    (hfresh : ((w.session .initiator).needSendRatchet || (w.session .initiator).sendCk.isNone) = true → (RatchetSecret.generate ideal (w.session .initiator).profile coins.key).2 ∉ w.drawn) :
    w.Admitted (.encrypt .initiator coins text) := by
  refine ⟨hfresh, fun aad ct heq => ⟨?_, henc ▸ hs⟩⟩
  rw [henc, Except.ok.injEq] at heq
  rw [heq, List.length_append, putBytes_length, putBytes_length] at hlen
  omega

theorem pub_ne : pub ≠ (RatchetSecret.generate ideal .hybrid prekey).2 := by
  intro heq
  have hx := congrArg (fun p => p.xPub.map fun x => x.1.head?) heq
  exact absurd hx (by decide)

theorem start_fresh : (RatchetSecret.generate ideal (start.session .initiator).profile coins.key).2 ∉
    start.drawn := by
  have hprofile : (start.session .initiator).profile = .hybrid := rfl
  rw [hprofile]
  exact fun hmem => pub_ne (List.mem_singleton.mp hmem)

theorem admitted_start (hlen : (message text 0).length ≤ MAX_FRAME) :
    start.Admitted (.encrypt .initiator coins text) :=
  admitted_of_length (encrypt_start text) hlen Nat.one_ne_zero fun _ => start_fresh

theorem After.admitted (h : After text n w) (hn : n + 1 < 2 ^ 32) (hlen : (message text n).length ≤ MAX_FRAME) :
    w.Admitted (.encrypt .initiator coins text) := by
  have henc : (w.session .initiator).encrypt coins text = (sender (n + 1), .ok (message text n)) := by
    rw [h.initiator]
    exact sender_encrypt text hn
  refine admitted_of_length henc hlen (Nat.succ_ne_zero n) fun hdraws => ?_
  rw [h.initiator, sender_keeps] at hdraws
  cases hdraws

theorem admitted_sends (n : Nat) (hlen : (message text n).length ≤ MAX_FRAME) :
    Run.Along World.step World.Admitted start (sends text (n + 1)) := by
  have hmax : MAX_FRAME < 2 ^ 32 := by decide
  induction n with
  | zero => exact ⟨admitted_start hlen, Run.along_nil⟩
  | succ n ih =>
    rw [message_length] at hlen ih
    rw [sends_succ, Run.along_append]
    have hw := after_sends text (n := n) (by omega)
    exact ⟨ih (by omega), hw.admitted (by omega) (by rw [message_length]; omega), Run.along_nil⟩

theorem first_message (text : Bytes) (hlen : text.length + 9589 ≤ MAX_FRAME) :
    Run.Along World.step World.Admitted (World.create .hybrid (key 0 0) prekey) (sends text 1) ∧
      (world text 1).sent[0]? = some (letter text 0) ∧ 0 ∉ (world text 1).opened := by
  have hw := after_sends text (n := 0) (by decide)
  refine ⟨admitted_sends 0 ?_, ?_, ?_⟩
  · rw [message_length]
    exact hlen
  · rw [hw.sent]
    rfl
  · rw [hw.opened]
    exact List.not_mem_nil

theorem decryptInner_message {s : Session ideal} (hprofile : s.profile = .hybrid)
    (hlen : (message text n).length ≤ MAX_FRAME) :
    s.header (message text n) = .ok (header n) ∧
      s.decryptInner (message text n) = s.receive (header n) (sealed text n) (header n).encode := by
  have hmax : MAX_FRAME < 2 ^ 32 := by decide
  have hsealed : (sealed text n).length ≤ (message text n).length := by
    rw [message, List.length_append, putBytes_length, putBytes_length]
    omega
  have hn : n ≤ (message text n).length := by
    rw [message_length]
    omega
  exact Session.decryptInner_append hprofile.symm (Primitives.ideal_kemCorrect.generate_length coins.key.kem)
    List.length_replicate.le (Nat.two_pow_pos 32) (hn.trans_lt (hlen.trans_lt hmax)) (hsealed.trans hlen)

/-- The responder after message `n`, when nothing came in before. -/
def receiver (n : Nat) : Session ideal :=
  { start.session .responder with
    root := key 1 0, peerRatchet := some pub, recvCk := some (key 0 (n + 1)), recvN := n + 1, needSendRatchet := true
    skipped := (Session.skipLoop ideal pub.encode n (key 0 0) 0 ∅).2 }

theorem receiver_skipped (n : Nat) : (receiver n).skipped.entries.length = n :=
  (skipLoop_length pub.encode n (key 0 0) 0 ∅ fun _ _ => rfl).trans (Nat.zero_add n)

theorem chainKey_key (n : Nat) : chainKey (key 0 0) n = key 0 n := by
  induction n with
  | zero => rfl
  | succ n ih =>
    rw [chainKey_succ, ih]
    rfl

theorem enterChain_start (n : Nat) : (start.session .responder).enterChain (header n) =
    .ok { start.session .responder with
      root := key 1 0, peerRatchet := some pub, recvCk := some (key 0 0), recvN := 0, needSendRatchet := true } := by
  obtain ⟨ikm, -, hfrom⟩ := Primitives.ideal_step coins.key prekey coins.enc
  have hnew : (start.session .responder).peerRatchet ≠ some (header n).ratchetPub := nofun
  have hself : (start.session .responder).selfRatchet =
      some (RatchetSecret.generate ideal .hybrid prekey).1 := rfl
  have hskip : (start.session .responder).skipRecv (header n).pn = .ok (start.session .responder) := rfl
  rw [Session.enterChain, if_neg hnew, hskip]
  simp only [bind, Except.bind, Session.ratchetRecv, hself]
  rw [show (header n).ct = List.replicate KEM_CT_LEN 0 from rfl, show (header n).ratchetPub = pub from rfl, pub, hfrom]
  rfl

theorem receive_first (text : Bytes) (hpos : 0 < n) (hn : n ≤ MAX_SKIP) :
    (start.session .responder).receive (header n) (sealed text n) (header n).encode =
      .ok (receiver n, text) := by
  have htry : (start.session .responder).trySkipped (header n) (sealed text n) (header n).encode = .ok none := rfl
  have hfst : (Session.skipLoop ideal pub.encode n (key 0 0) 0 ∅).1 = key 0 n :=
    (skipLoop_fst pub.encode n (key 0 0) 0 ∅).trans (chainKey_key n)
  have hmod : (n + 1) % 2 ^ 32 = n + 1 := Nat.mod_eq_of_lt (by unfold MAX_SKIP at hn; omega)
  have hopen : ideal.aeadOpen (key 0 (n + 1)) [] (sealed text n) (header n).encode = .ok text := by
    rw [Primitives.aeadOpen, Primitives.ideal_aeadCorrect (key 0 (n + 1)) [] text _ (sealed text n) rfl]
  have hskip : Session.skipRecv { start.session .responder with
        root := key 1 0, peerRatchet := some pub, recvCk := some (key 0 0), recvN := 0, needSendRatchet := true } n =
      .ok { receiver n with recvCk := some (key 0 n), recvN := n } := by
    rw [Session.skipRecv]
    dsimp only
    have hroom : ¬ (∅ : Table (Bytes × Nat) ideal.Key).entries.length + (n - 0) > MAX_SKIP := by
      rw [show (∅ : Table (Bytes × Nat) ideal.Key).entries.length = 0 from rfl]
      omega
    rw [if_neg (by omega)]
    refine (if_neg hroom).trans ?_
    show Except.ok { receiver n with recvCk := some (Session.skipLoop ideal pub.encode n (key 0 0) 0 ∅).1, recvN := n } = _
    rw [hfst]
  have hnext : Session.openNext { receiver n with recvCk := some (key 0 n), recvN := n } (sealed text n)
      (header n).encode = .ok (receiver n, text) := by
    show (do
      let pt ← ideal.aeadOpen (key 0 (n + 1)) [] (sealed text n) (header n).encode
      pure (({ receiver n with recvN := (n + 1) % 2 ^ 32 } : Session ideal), pt) : Except CryptoError _) = _
    rw [hopen, hmod]
    rfl
  simp only [Session.receive, htry, enterChain_start, bind, Except.bind]
  rw [show (header n).n = n from rfl, hskip]
  exact hnext

theorem receive_second (text : Bytes) (hk : k + 1 < n) (hroom : MAX_SKIP < n - 1) :
    (receiver k).receive (header n) (sealed text n) (header n).encode = .error (.tooManySkipped MAX_SKIP) := by
  have hlookup : (receiver k).skipped.lookup (pub.encode, n) = none := by
    have h := skipLoop_lookup pub.encode k (key 0 0) 0 ∅ pub.encode n
    rw [if_neg (by omega)] at h
    exact h
  have htry : (receiver k).trySkipped (header n) (sealed text n) (header n).encode = .ok none := by
    rw [Session.trySkipped, show (header n).ratchetPub = pub from rfl, show (header n).n = n from rfl, hlookup]
  have henter : (receiver k).enterChain (header n) = .ok (receiver k) := if_pos rfl
  have hskip : (receiver k).skipRecv n = .error (.tooManySkipped MAX_SKIP) := by
    have hroom' : (receiver k).skipped.entries.length + (n - (k + 1)) > MAX_SKIP := by
      rw [receiver_skipped]
      omega
    exact (if_neg (Nat.not_le.mpr hk)).trans (if_pos hroom')
  simp only [Session.receive, htry, henter, bind, Except.bind]
  rw [show (header n).n = n from rfl, hskip]

theorem After.getElem? (h : After text n w) (hk : k < n) : w.sent[k]? = some (letter text k) := by
  rw [h.sent, List.getElem?_map, List.getElem?_range hk]
  rfl

theorem After.deliver (h : After text n w) (hk : k < n) (hpos : 0 < k) (hskip : k ≤ MAX_SKIP)
    (hlen : (message text k).length ≤ MAX_FRAME) :
    (w.step (.deliver k)).session .responder = receiver k ∧ (w.step (.deliver k)).sent = w.sent ∧
      (w.step (.deliver k)).opened = [k] := by
  have hdec : (w.session .responder).decrypt (message text k) = (receiver k, .ok text) := by
    rw [h.responder, Session.decrypt, (decryptInner_message rfl hlen).2, receive_first text hpos hskip]
  have hstep : w.step (.deliver k) =
      { w with session := Function.update w.session .responder (receiver k), opened := k :: w.opened } := by
    simp only [World.step, h.getElem? hk, letter, Side.other, hdec]
  rw [hstep]
  exact ⟨Function.update_self Side.responder (receiver k) w.session, rfl, congrArg (k :: ·) h.opened⟩

end OneSided

namespace World

section Results
variable (hkem : P.KemCorrect) (hdh : P.DhCorrect) (hkdf : P.KdfIdeal) (haead : P.AeadCorrect)
  (hint : P.AeadIntegrity) {profile : KemProfile} {root : P.Key} {prekey : KeyCoins P} {evs : List (Event P)}
  (hevs : Run.Along step Admitted (create profile root prekey) evs) {i : Nat} {m : Sent}
  (hi : (run profile root prekey evs).sent[i]? = some m)
include hkem hdh hkdf haead hint hevs hi

/-- A message that has not been opened is opened or hits the skip limit, and one that has been is refused. -/
theorem delivery :
    (i ∉ (run profile root prekey evs).opened →
      (∃ s', ((run profile root prekey evs).session m.sender.other).decrypt m.bytes = (s', .ok m.text)) ∨
      ((run profile root prekey evs).session m.sender.other).decrypt m.bytes =
        ((run profile root prekey evs).session m.sender.other, .error (.tooManySkipped MAX_SKIP))) ∧
    (i ∈ (run profile root prekey evs).opened →
      ∃ e, ((run profile root prekey evs).session m.sender.other).decrypt m.bytes =
        ((run profile root prekey evs).session m.sender.other, .error e)) := by
  obtain ⟨L, places, h⟩ := Described.run hkem hdh hkdf haead hint hevs
  obtain ⟨hagain, hfirst⟩ := h.decrypt hkem hkdf haead hint hi
  refine ⟨fun hopen => ?_, hagain⟩
  obtain ⟨hd, -, hin, hout⟩ := hfirst hopen
  by_cases hwithin : ((run profile root prekey evs).session m.sender.other).Within hd
  · obtain ⟨-, s', hdec, -⟩ := hin hwithin
    exact .inl ⟨s', hdec⟩
  · exact .inr (hout hwithin)

end Results

section
open OneSided
open Primitives (ideal)

theorem delivery_first : ∃ m, (world [42] 1).sent[0]? = some m ∧
    ((∃ s', ((world [42] 1).session m.sender.other).decrypt m.bytes = (s', .ok m.text)) ∨
      ((world [42] 1).session m.sender.other).decrypt m.bytes =
        ((world [42] 1).session m.sender.other, .error (.tooManySkipped MAX_SKIP))) := by
  obtain ⟨hevs, hsent, hopen⟩ := first_message [42] (by decide)
  rw [world] at hsent hopen ⊢
  have h := delivery Primitives.ideal_kemCorrect Primitives.ideal_dhCorrect Primitives.ideal_kdfIdeal
    Primitives.ideal_aeadCorrect Primitives.ideal_aeadIntegrity hevs hsent
  exact ⟨letter [42] 0, hsent, h.1 hopen⟩

/-- `encrypt` seals a text that does not fit one wire field, and `decrypt` never accepts it. -/
theorem oversized_undeliverable : ∃ (text : Bytes) (m : Sent) (n : Nat),
    (world text 1).sent = [m] ∧ (world text 1).opened = [] ∧ m.text = text ∧
    ((world text 1).session m.sender.other).decrypt m.bytes =
      ((world text 1).session m.sender.other, .error (.wire (.frameTooLarge n MAX_FRAME))) := by
  obtain ⟨text, htext⟩ : ∃ text : Bytes, text.length = MAX_FRAME := ⟨List.replicate MAX_FRAME 0, List.length_replicate⟩
  have hw := after_sends text (n := 0) (by decide)
  have hlen := sealed_length text 0
  rw [htext] at hlen
  refine ⟨text, letter text 0, (sealed text 0).length, hw.sent, hw.opened, rfl,
    Session.decrypt_oversized _ ?_ ?_ ?_⟩
  · rw [header_length]
    decide
  · omega
  · rw [hlen]
    decide

end

section Results
variable (hkem : P.KemCorrect) (hdh : P.DhCorrect) (hkdf : P.KdfIdeal) (haead : P.AeadCorrect)
  (hint : P.AeadIntegrity) {profile : KemProfile} {root : P.Key} {prekey : KeyCoins P} {evs : List (Event P)}
  (hevs : Run.Along step Admitted (create profile root prekey) evs) {i : Nat} {m : Sent}
  (hi : (run profile root prekey evs).sent[i]? = some m)
include hkem hdh hkdf haead hint hevs hi

/-- A message that has not been opened is accepted exactly as long as it is within the skip budget. -/
theorem accepted_iff (hopen : i ∉ (run profile root prekey evs).opened) :
    ∃ hd, ((run profile root prekey evs).session m.sender.other).header m.bytes = .ok hd ∧
      ((∃ s', ((run profile root prekey evs).session m.sender.other).decrypt m.bytes = (s', .ok m.text)) ↔
        ((run profile root prekey evs).session m.sender.other).Within hd) := by
  obtain ⟨L, places, h⟩ := Described.run hkem hdh hkdf haead hint hevs
  obtain ⟨hd, hhead, hin, hout⟩ := (h.decrypt hkem hkdf haead hint hi).2 hopen
  refine ⟨hd, hhead, fun ⟨s', hdec⟩ => ?_, fun hwithin => ?_⟩
  · by_contra hwithin
    rw [hout hwithin] at hdec
    cases hdec
  · obtain ⟨-, s', hdec, -⟩ := hin hwithin
    exact ⟨s', hdec⟩

end Results

section
open OneSided
open Primitives (ideal)

theorem accepted_iff_first : ∃ m hd, (world [42] 1).sent[0]? = some m ∧
    ((world [42] 1).session m.sender.other).header m.bytes = .ok hd ∧
    ((∃ s', ((world [42] 1).session m.sender.other).decrypt m.bytes = (s', .ok m.text)) ↔
      ((world [42] 1).session m.sender.other).Within hd) := by
  obtain ⟨hevs, hsent, hopen⟩ := first_message [42] (by decide)
  rw [world] at hsent hopen ⊢
  obtain ⟨hd, hhead, hiff⟩ := accepted_iff Primitives.ideal_kemCorrect Primitives.ideal_dhCorrect
    Primitives.ideal_kdfIdeal Primitives.ideal_aeadCorrect Primitives.ideal_aeadIntegrity hevs hsent hopen
  exact ⟨letter [42] 0, hd, hsent, hhead, hiff⟩

/-- Of 1003 messages only number 500 comes through. The last one is then 501 ahead, well below `MAX_SKIP`, and is
refused: the 500 messages lost before have used up the budget. -/
theorem losses_use_up_budget : ∃ (evs : List (Event ideal)) (i : Nat) (m : Sent) (hd : Header),
    Run.Along step Admitted (create .hybrid (key 0 0) prekey) evs ∧
    (run .hybrid (key 0 0) prekey evs).sent[i]? = some m ∧ i ∉ (run .hybrid (key 0 0) prekey evs).opened ∧
    ((run .hybrid (key 0 0) prekey evs).session m.sender.other).header m.bytes = .ok hd ∧
    ((run .hybrid (key 0 0) prekey evs).session m.sender.other).peerRatchet = some hd.ratchetPub ∧
    ((run .hybrid (key 0 0) prekey evs).session m.sender.other).recvN ≤ hd.n ∧
    hd.n - ((run .hybrid (key 0 0) prekey evs).session m.sender.other).recvN ≤ MAX_SKIP ∧
    ((run .hybrid (key 0 0) prekey evs).session m.sender.other).decrypt m.bytes =
      ((run .hybrid (key 0 0) prekey evs).session m.sender.other, .error (.tooManySkipped MAX_SKIP)) := by
  have hlen : ∀ n, n ≤ 1002 → (message [] n).length ≤ MAX_FRAME := by
    intro n hn
    rw [message_length, List.length_nil, MAX_FRAME]
    omega
  have hw := after_sends [] (n := 1002) (by decide)
  obtain ⟨hsession, hsent, hopened⟩ := hw.deliver (k := 500) (by decide) (by decide) (by decide) (hlen 500 (by decide))
  have hrun : run .hybrid (key 0 0) prekey (sends [] 1003 ++ [.deliver 500]) =
      (world [] 1003).step (.deliver 500) := by
    rw [run, List.foldl_append, List.foldl_cons, List.foldl_nil, world, run]
  refine ⟨sends [] 1003 ++ [.deliver 500], 1002, letter [] 1002, header 1002, ?_, ?_⟩
  · rw [Run.along_append]
    exact ⟨admitted_sends 1002 (hlen 1002 le_rfl), trivial, trivial⟩
  · rw [hrun]
    have hside : (letter [] 1002).sender.other = .responder := rfl
    have hbytes : (letter [] 1002).bytes = message [] 1002 := rfl
    obtain ⟨hhead, hinner⟩ := decryptInner_message (s := receiver 500) rfl (hlen 1002 le_rfl)
    rw [hside, hbytes, hsession, hsent, hopened]
    refine ⟨hw.getElem? (by decide), by decide, hhead, rfl, by decide, by decide, ?_⟩
    rw [Session.decrypt, hinner, receive_second [] (by decide) (by decide)]

end

end World

/-! ## The roots -/

/-- An end that is not due for a ratchet step, and the other end, which has the same root if it is due, and else
reaches that root with the key and the encapsulation of the next message. -/
structure Session.InStep (s behind : Session P) : Prop where
  idle : s.needSendRatchet = false
  due : behind.needSendRatchet = true → behind.root = s.root
  next : behind.needSendRatchet = false → ∃ key pub ikm ck, behind.selfRatchet = some key ∧
    s.selfRatchetPub = some pub ∧ key.stepFrom pub s.selfSendCt = .ok ikm ∧ P.kdfRk behind.root ikm = (s.root, ck)

namespace World

/-- In every admitted run, whatever was lost, repeated or reordered, the roots of the two ends are the same or
one ratchet step apart. -/
theorem roots_in_step (hkem : P.KemCorrect) (hdh : P.DhCorrect) (hkdf : P.KdfIdeal) (haead : P.AeadCorrect)
    (hint : P.AeadIntegrity) {profile : KemProfile} {root : P.Key} {prekey : KeyCoins P} {evs : List (Event P)}
    (hevs : Run.Along step Admitted (create profile root prekey) evs) :
    ∃ side, ((run profile root prekey evs).session side).InStep
      ((run profile root prekey evs).session side.other) := by
  obtain ⟨L, places, h⟩ := Described.run hkem hdh hkdf haead hint hevs
  obtain ⟨hwf, hlast, hother⟩ := h.ends
  refine ⟨owner L.top, hlast.need, fun hneed => ?_, fun hneed => ?_⟩
  · have hseen : L.seen = true := hother.need.symm.trans hneed
    rw [hother.root, hlast.root, if_pos hseen]
  · -- the other end has not entered the last chain, which a root step links to its own
    have hseen : L.seen = false := hother.need.symm.trans hneed
    have htop : L.top ≠ 1 := fun htop => Bool.false_ne_true (hseen.symm.trans (hwf.seen_top htop))
    have hpos := hwf.top_pos
    obtain ⟨kc, kd, ikm, ck, hkc, hkd, hstep, hroot, -⟩ := hwf.linked (L.top - 1) (by omega) (by omega)
    rw [Nat.sub_add_cancel hpos] at hkd hstep hroot
    rw [hother.root, hlast.root, hother.sends.selfRatchet, hlast.sends.selfRatchetPub, hlast.sends.ct,
      if_neg (by simp [hseen]), Chain.secret, Chain.pub, hkc, hkd]
    exact ⟨_, _, ikm, ck, rfl, rfl, hstep, hroot⟩

theorem roots_in_step_first : ∃ side, ((OneSided.world [42] 1).session side).InStep
    ((OneSided.world [42] 1).session side.other) := by
  obtain ⟨hevs, -⟩ := OneSided.first_message [42] (by decide)
  rw [OneSided.world]
  exact roots_in_step Primitives.ideal_kemCorrect Primitives.ideal_dhCorrect Primitives.ideal_kdfIdeal
    Primitives.ideal_aeadCorrect Primitives.ideal_aeadIntegrity hevs

end World

end Talkrypt.Ratchet
