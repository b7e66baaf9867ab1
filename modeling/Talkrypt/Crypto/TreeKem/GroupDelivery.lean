import Talkrypt.Crypto.TreeKem.Agreement
import Talkrypt.Crypto.TreeKem.FailedDecrypt

/-!
# Delivery of group messages within an epoch

The members of an epoch send to each other, and what they send arrives in any order and any number of times.
A message is returned, with its text and its leaf, the first time it arrives within the window of its
sender's chain, and never again (`Exchange.deliver_outcome`). One that arrives too early is refused and returned by a
later delivery, so not every repeated delivery fails, and a counter that wraps breaks the chains
(`Exchange.Sample.early_and_wrapped`).
-/

namespace Talkrypt.TreeKem
open KeyChain (chainAt seedAt)
open Ratchet (MAX_SKIP)

variable {S : Scheme}

def Messaging.Correct (M : Messaging S) : Prop :=
  ∀ {seed : S.Secret} {pt aad ct : Bytes}, M.aeadSeal seed pt aad = .ok ct → M.aeadOpen seed ct aad = .ok pt

namespace Group
variable {M : Messaging S} {g : Group S} {m : GroupMessage}

theorem decryptVerified_encode (hfits : m.Fits) (hverify : g.verifyMessage m = true) (hepoch : m.epoch = g.epoch) :
    g.decryptVerified M m.encode = ((g.decryptBody M m.epoch m.leaf m.n m.ct).1,
      (g.decryptBody M m.epoch m.leaf m.n m.ct).2.bind g.unpad) := by
  have hbody : (Incoming.signed m.encode).body g = some ⟨m.epoch, m.leaf, m.n, m.ct⟩ := by
    simp only [Incoming.body, GroupMessage.decode_encode hfits, hverify, hepoch, decide_true, Bool.and_self, if_true]
  have hunpad : (Incoming.signed m.encode).text (g.decryptBody M m.epoch m.leaf m.n m.ct).1 = g.unpad := by
    rcases decryptBody_eq (M := M) g m.epoch m.leaf m.n m.ct with ⟨-, hset, -⟩ | ⟨_, -, -, hset⟩
    · rw [hset, text_setRecv]
      rfl
    · rw [hset, text_setRecv]
      rfl
  exact (receive_of_body hbody).trans (by rw [hunpad])

theorem decryptVerified_of_seedFor_eq_none (hfits : m.Fits) (hverify : g.verifyMessage m = true)
    (hepoch : m.epoch = g.epoch) (hseed : (g.recvChain m.leaf).seedFor M.kdfCk MAX_SKIP m.n = none) :
    (g.decryptVerified M m.encode).1 = g.setRecv m.leaf (g.recvChain m.leaf) ∧
      ∃ e, (g.decryptVerified M m.encode).2 = .error e := by
  rw [decryptVerified_encode hfits hverify hepoch]
  rcases decryptBody_eq (M := M) g m.epoch m.leaf m.n m.ct with ⟨-, hset, e, herror⟩ | ⟨_, hsome, -⟩
  · exact ⟨hset, e, by rw [herror]; rfl⟩
  · exact nomatch hseed.symm.trans hsome

theorem decryptVerified_of_seedFor {seed : S.Secret} {body pt : Bytes} (hfits : m.Fits)
    (hverify : g.verifyMessage m = true) (hepoch : m.epoch = g.epoch)
    (hseed : (g.recvChain m.leaf).seedFor M.kdfCk MAX_SKIP m.n = some seed)
    (hopen : M.aeadOpen seed m.ct (msgAad m.epoch m.leaf m.n) = .ok body) (hunpad : g.unpad body = .ok pt) :
    g.decryptVerified M m.encode = (g.setRecv m.leaf ((g.recvChain m.leaf).used M.kdfCk m.n), .ok pt) := by
  rw [decryptVerified_encode hfits hverify hepoch]
  rcases decryptBody_eq (M := M) g m.epoch m.leaf m.n m.ct with ⟨hnone, -⟩ | ⟨seed', hsome, hbody, hset⟩
  · exact nomatch hnone.symm.trans hseed
  · cases hseed.symm.trans hsome
    rw [hopen] at hbody hset
    rw [hbody, hset]
    exact Prod.ext rfl hunpad

theorem encryptSigned_of_seal {sk : S.SigSeed} {pt ct : Bytes} (hsk : g.mySig = some sk)
    (hct : M.aeadSeal (M.kdfCk g.sendChain).2 (g.padded pt) (msgAad g.epoch g.me g.sendN) = .ok ct) :
    g.encryptSigned M pt =
      ({ g with sendChain := (M.kdfCk g.sendChain).1, sendN := (g.sendN + 1) % 2 ^ 32 },
        .ok (GroupMessage.encode
          { epoch := g.epoch, leaf := g.me, n := g.sendN, ct
            sig := S.sign sk (sigTranscript g.epoch g.me g.sendN ct) })) := by
  simp only [encryptSigned, hsk, hct]

theorem encryptSigned_cases (M : Messaging S) (g : Group S) (pt : Bytes) :
    (∃ e, g.encryptSigned M pt = (g, .error e)) ∨
    ∃ sk ct, g.mySig = some sk ∧
      M.aeadSeal (M.kdfCk g.sendChain).2 (g.padded pt) (msgAad g.epoch g.me g.sendN) = .ok ct := by
  unfold encryptSigned
  split
  · exact .inl ⟨_, rfl⟩
  · next sk hsk =>
    split
    · exact .inl ⟨_, rfl⟩
    · next ct hct => exact .inr ⟨sk, ct, hsk, hct⟩

end Group

/-! ## Members that exchange messages -/

structure Sent (ι : Type) where
  sender : ι
  text : Bytes
  n : Nat
  bytes : Bytes

/-- The members of an epoch, the messages they have made, and every delivery so far with its result. -/
structure Exchange (S : Scheme) (ι : Type) where
  members : ι → Group S
  sent : List (Sent ι)
  delivered : List (ι × Nat × Except CryptoError Bytes)

namespace Exchange
variable {ι : Type}

inductive Event (ι : Type) where
  | send (i : ι) (text : Bytes)
  | deliver (j : ι) (k : Nat)

/-- The groups are those of the members of one epoch. -/
structure SameEpoch (members : ι → Group S) : Prop where
  epoch : ∀ i j, (members i).epoch = (members j).epoch
  secret : ∀ i j, (members i).epochSecret = (members j).epochSecret
  padBucket : ∀ i j, (members i).padBucket = (members j).padBucket
  me : Function.Injective fun i => (members i).me
  keys : ∀ i j sk, (members i).mySig = some sk → (members j).leafSigKeys.lookup (members i).me = some (S.sigPublic sk)
  epoch_lt : ∀ i, (members i).epoch < 2 ^ 32
  me_lt : ∀ i, (members i).me < 2 ^ 32

def start (members : ι → Group S) : Exchange S ι where
  members i := (members i).resetEpoch
  sent := []
  delivered := []

def Returned (x : Exchange S ι) (j : ι) (k : Nat) : Prop := ∃ pt, (j, k, .ok pt) ∈ x.delivered

variable (M : Messaging S)

def step [DecidableEq ι] (x : Exchange S ι) : Event ι → Exchange S ι
  | .send i text =>
    match (x.members i).encryptSigned M text with
    | (g, .error _) => { x with members := Function.update x.members i g }
    | (g, .ok bytes) =>
      { x with
        members := Function.update x.members i g
        sent := x.sent ++ [{ sender := i, text, n := (x.members i).sendN, bytes }] }
  | .deliver j k =>
    match x.sent[k]? with
    | none => x
    | some s =>
      let r := (x.members j).decryptVerified M s.bytes
      { x with
        members := Function.update x.members j r.1
        delivered := x.delivered ++ [(j, k, r.2)] }

def run [DecidableEq ι] (members : ι → Group S) (evs : List (Event ι)) : Exchange S ι := evs.foldl (step M) (start members)

/-- The counter of the sender does not wrap, and the ciphertext fits a field. -/
def Fits (x : Exchange S ι) : Event ι → Prop
  | .send i text => (x.members i).sendN + 1 < 2 ^ 32 ∧
    ∀ ct, M.aeadSeal (M.kdfCk (x.members i).sendChain).2 ((x.members i).padded text)
      (msgAad (x.members i).epoch (x.members i).me (x.members i).sendN) = .ok ct → ct.length ≤ MAX_FRAME
  | .deliver .. => True

end Exchange

/-! ## The members of a group -/

namespace World
variable {w : World S} {n : Nat} {a g : Group S}

/-- `a` is the group of the host or of a member in step, after the first `n` commits. -/
inductive InEpoch (w : World S) (n : Nat) : Group S → Prop
  | host (h : w.log.length = n) : InEpoch w n w.host
  | member {m : Member S} (hm : m ∈ w.members) (hlive : m.live = true) (happlied : m.applied = n) : InEpoch w n m.group

theorem Inv.shape_state (h : w.Inv) (hg : w.state n = some g) : g.Shape := by
  cases hn : w.log[n]? with
  | some e =>
    obtain ⟨g', hg', hinv, -⟩ := (h.log n e hn).grown
    cases hg.symm.trans hg'
    exact hinv.shape
  | none =>
    have hlast : n = w.log.length := by
      have hle := List.getElem?_eq_none_iff.mp hn
      cases n with
      | zero => omega
      | succ n =>
        obtain ⟨e, he, -⟩ := Option.map_eq_some_iff.mp hg
        have hlt := (List.getElem?_eq_some_iff.mp he).1
        omega
    obtain ⟨g', hg', hinv, -⟩ := h.last
    rw [hlast] at hg
    cases hg.symm.trans hg'
    exact hinv.shape

theorem Inv.inEpoch (h : w.Inv) (ha : w.InEpoch n a) :
    ∃ g sk, w.state n = some g ∧ a.epoch = g.epoch ∧ a.epochSecret = g.epochSecret ∧ a.mySig = some sk ∧
      (∀ l, a.leafSigKeys.lookup l = g.leafSigKeys.lookup l) ∧
      a.leafSigKeys.lookup a.me = some (S.sigPublic sk) ∧ a.me < 2 ^ 32 := by
  cases ha with
  | host hlog =>
    obtain ⟨g, hg, -, hgrown⟩ := h.last
    obtain ⟨sk, hsk, hkey⟩ := h.founder.sig
    refine ⟨g, sk, hlog ▸ hg, hgrown.epoch, hgrown.epochSecret, hsk, fun l => by rw [hgrown.sigKeys], ?_, ?_⟩
    · rw [h.host.me, hkey]
    · rw [h.host.me]
      exact Nat.two_pow_pos 32
  | @member m hm hlive happlied =>
    obtain ⟨g, s, sk, hg, hagree, hold⟩ := h.members m hm hlive
    rw [happlied] at hg
    refine ⟨g, sk, hg, hagree.epoch, hagree.epochSecret, hold.sig, hagree.sigKeys, hold.sigKey, ?_⟩
    obtain ⟨k, hk, hcapacity⟩ := (h.shape_state hg).capacity
    have hlt : m.group.me < m.group.occupied.length := by
      by_contra hge
      have hoccupied := hold.occupied
      rw [Group.isOccupied, List.getD_eq_getElem?_getD, List.getElem?_eq_none (Nat.not_lt.mp hge)] at hoccupied
      cases hoccupied
    rw [hagree.occupied, (h.shape_state hg).length, hcapacity] at hlt
    exact hlt.trans (Nat.pow_lt_pow_right (by decide) hk)

/-- In every admitted run, the host and the members that have applied the same commits, one for each leaf, are
members of one epoch. -/
theorem sameEpoch (hS : S.Lawful) {profile : KemProfile} {mySig : S.SigSeed} {s : S.Secret} {evs : List (Event S)}
    (h : Run.Along World.step Admitted (World.create profile mySig s) evs) {ι : Type} {members : ι → Group S}
    (hmembers : ∀ i, (World.run profile mySig s evs).InEpoch n (members i))
    (hpad : ∀ i j, (members i).padBucket = (members j).padBucket)
    (hme : Function.Injective fun i => (members i).me) : Exchange.SameEpoch members := by
  have hinv := Inv.run hS h
  have hfounded : (World.run profile mySig s evs).founded.epoch = 0 := by
    rw [founded_run]
    rfl
  refine ⟨fun i j => ?_, fun i j => ?_, hpad, hme, fun i j sk hsk => ?_, fun i => ?_, fun i => ?_⟩
  · obtain ⟨g, -, hg, hepoch, -⟩ := hinv.inEpoch (hmembers i)
    obtain ⟨g', -, hg', hepoch', -⟩ := hinv.inEpoch (hmembers j)
    cases hg.symm.trans hg'
    rw [hepoch, hepoch']
  · obtain ⟨g, -, hg, -, hsecret, -⟩ := hinv.inEpoch (hmembers i)
    obtain ⟨g', -, hg', -, hsecret', -⟩ := hinv.inEpoch (hmembers j)
    cases hg.symm.trans hg'
    rw [hsecret, hsecret']
  · obtain ⟨g, sk', hg, -, -, hsk', hkeys, hkey, -⟩ := hinv.inEpoch (hmembers i)
    obtain ⟨g', -, hg', -, -, -, hkeys', -⟩ := hinv.inEpoch (hmembers j)
    cases hg.symm.trans hg'
    cases hsk.symm.trans hsk'
    rw [hkeys', ← hkeys, hkey]
  · obtain ⟨g, -, hg, hepoch, -⟩ := hinv.inEpoch (hmembers i)
    rw [hepoch, hinv.state_epoch hfounded hg]
    exact Nat.mod_lt _ (Nat.two_pow_pos 32)
  · obtain ⟨-, -, -, -, -, -, -, -, hlt⟩ := hinv.inEpoch (hmembers i)
    exact hlt

theorem sameEpoch_update : ∃ m ∈ (plainRun updateEvents).members,
    Exchange.SameEpoch fun i : Bool => if i then (plainRun updateEvents).host else m.group := by
  obtain ⟨m, hm, hlive, happlied, hpad, hme⟩ : ∃ m ∈ (plainRun updateEvents).members, m.live = true ∧
      m.applied = (plainRun updateEvents).log.length ∧
      m.group.padBucket = (plainRun updateEvents).host.padBucket ∧ m.group.me ≠ (plainRun updateEvents).host.me := by
    decide
  refine ⟨m, hm, sameEpoch Scheme.plain_lawful updateEvents_admitted (n := (plainRun updateEvents).log.length)
    (fun i => ?_) (fun i j => ?_) fun i j => ?_⟩
  · cases i
    · exact .member hm hlive happlied
    · exact .host rfl
  · cases i <;> cases j <;> simp [hpad]
  · cases i <;> cases j <;> simp [hme, hme.symm]

/-- In every admitted run, a live member has a well-formed tree and the keys of its own leaf and of no other. -/
theorem members_hold_own (hS : S.Lawful) {profile : KemProfile} {mySig : S.SigSeed} {s : S.Secret}
    {evs : List (Event S)} (h : Run.Along World.step Admitted (World.create profile mySig s) evs) :
    ∀ m ∈ (World.run profile mySig s evs).members, m.live = true →
      m.group.Shape ∧ ∃ secret sig, m.group.Holds secret sig := by
  intro m hm hlive
  have hinv := Inv.run hS h
  obtain ⟨g, secret, sig, hg, hagree, hold⟩ := hinv.members m hm hlive
  exact ⟨hagree.shape (hinv.shape_state hg), secret, sig, hold⟩

theorem members_hold_own_update : ∃ m ∈ (plainRun updateEvents).members,
    m.group.Shape ∧ ∃ secret sig, m.group.Holds secret sig := by
  obtain ⟨m, hm, hlive⟩ : ∃ m ∈ (plainRun updateEvents).members, m.live = true := by decide
  exact ⟨m, hm, members_hold_own Scheme.plain_lawful updateEvents_admitted m hm hlive⟩

end World

/-! ## What holds along an exchange -/

namespace Exchange
variable {ι : Type} (M : Messaging S)

def chainOf (members : ι → Group S) (i : ι) : S.Secret := S.senderChain (members i).epochSecret (members i).me

/-- The message of number `n` with ciphertext `ct` that the holder of `sk` makes as member `i`. -/
def message (members : ι → Group S) (i : ι) (n : Nat) (sk : S.SigSeed) (ct : Bytes) : GroupMessage where
  epoch := (members i).epoch
  leaf := (members i).me
  n := n
  ct := ct
  sig := S.sign sk (sigTranscript (members i).epoch (members i).me n ct)

/-- The sender has made the message with the key of its number. -/
def Made (members : ι → Group S) (s : Sent ι) : Prop :=
  s.n + 1 < 2 ^ 32 ∧ ∃ sk ct, (members s.sender).mySig = some sk ∧ ct.length ≤ MAX_FRAME ∧
    M.aeadSeal (seedAt M.kdfCk (chainOf members s.sender) s.n) ((members s.sender).padded s.text)
      (msgAad (members s.sender).epoch (members s.sender).me s.n) = .ok ct ∧
    s.bytes = (message members s.sender s.n sk ct).encode

/-- The numbers of the messages of `i` that `j` got the text of. -/
def opened (x : Exchange S ι) (j i : ι) : Set Nat :=
  {n | ∃ k s, x.sent[k]? = some s ∧ s.sender = i ∧ s.n = n ∧ x.Returned j k}

structure Inv (members : ι → Group S) (x : Exchange S ι) : Prop where
  states : ∀ i, ∃ recvs, x.members i =
    { members i with
      sendChain := chainAt M.kdfCk (chainOf members i) (x.members i).sendN, sendN := (x.members i).sendN, recvs }
  made : ∀ s ∈ x.sent, Made M members s ∧ s.n < (x.members s.sender).sendN
  numbers : ∀ (k k' : Nat) (s s' : Sent ι), x.sent[k]? = some s → x.sent[k']? = some s' → s.sender = s'.sender → s.n = s'.n → k = k'
  delivered : ∀ d ∈ x.delivered, d.2.1 < x.sent.length
  chains : ∀ j i, ((x.members j).recvChain (members i).me).Follows M.kdfCk (chainOf members i)
  used : ∀ j i n, ((x.members j).recvChain (members i).me).Used n ↔ n ∈ x.opened j i

variable {M} {members : ι → Group S} {x : Exchange S ι} {i j : ι} {k : Nat} {s : Sent ι}

theorem Inv.start (M : Messaging S) (h : SameEpoch members) : Inv M members (start members) where
  states i := ⟨∅, rfl⟩
  made s hs := absurd hs List.not_mem_nil
  numbers k k' s s' hs := nomatch hs
  delivered d hd := absurd hd List.not_mem_nil
  chains j i := by
    rw [chainOf, h.secret i j]
    exact KeyChain.Receiver.follows_start _
  used j i n := by
    refine iff_of_false (fun h => Nat.not_lt_zero n h.1) ?_
    rintro ⟨k, s, hs, -⟩
    exact nomatch hs

theorem Inv.used_iff (h : Inv M members x) (hs : x.sent[k]? = some s) :
    ((x.members j).recvChain (members s.sender).me).Used s.n ↔ x.Returned j k := by
  rw [h.used]
  constructor
  · rintro ⟨k', s', hs', hsender, hn, hreturned⟩
    obtain rfl := h.numbers k' k s' s hs' hs hsender hn
    exact hreturned
  · intro hreturned
    exact ⟨k, s, hs, rfl, rfl, hreturned⟩

theorem opened_concat (hdelivered : ∀ d ∈ x.delivered, d.2.1 < x.sent.length) (groups : ι → Group S) (s : Sent ι) :
    ({ x with members := groups, sent := x.sent ++ [s] } : Exchange S ι).opened j i = x.opened j i := by
  ext n
  constructor
  · rintro ⟨k, s', hs, hsender, hn, pt, hreturned⟩
    rcases getElem?_concat hs with hold | ⟨rfl, -⟩
    · exact ⟨k, s', hold, hsender, hn, pt, hreturned⟩
    · exact absurd (hdelivered _ hreturned) (Nat.lt_irrefl _)
  · rintro ⟨k, s', hs, hsender, hn, hreturned⟩
    have hlt := (List.getElem?_eq_some_iff.mp hs).1
    exact ⟨k, s', (List.getElem?_append_left hlt).trans hs, hsender, hn, hreturned⟩

theorem mem_opened_deliver (hs : x.sent[k]? = some s) (groups : ι → Group S) (r : Except CryptoError Bytes) {j' : ι} {n : Nat} :
    n ∈ ({ x with members := groups, delivered := x.delivered ++ [(j, k, r)] } : Exchange S ι).opened j' i ↔
      n ∈ x.opened j' i ∨ j' = j ∧ s.sender = i ∧ s.n = n ∧ r.isOk := by
  constructor
  · rintro ⟨k', s', hs', hsender, hn, pt, hreturned⟩
    rcases List.mem_append.mp hreturned with hold | hnew
    · exact .inl ⟨k', s', hs', hsender, hn, pt, hold⟩
    · cases List.mem_singleton.mp hnew
      cases hs.symm.trans hs'
      exact .inr ⟨rfl, hsender, hn, rfl⟩
  · rintro (⟨k', s', hs', hsender, hn, pt, hold⟩ | ⟨rfl, hsender, hn, hok⟩)
    · exact ⟨k', s', hs', hsender, hn, pt, List.mem_append_left _ hold⟩
    · cases r with
      | error e => cases hok
      | ok pt => exact ⟨k, s, hs, hsender, hn, pt, List.mem_append_right _ (List.mem_singleton.mpr rfl)⟩

theorem Inv.send [DecidableEq ι] (h : Inv M members x) {text : Bytes} (hfits : x.Fits M (.send i text)) :
    Inv M members (x.step M (.send i text)) := by
  obtain ⟨hlast, hct⟩ := hfits
  obtain ⟨e, hsend⟩ | ⟨sk, ct, hsk, hseal⟩ := Group.encryptSigned_cases M (x.members i) text
  · have hstep : x.step M (.send i text) = x := by
      simp only [step, hsend, Function.update_eq_self]
    rwa [hstep]
  · obtain ⟨recvs, hi⟩ := h.states i
    simp only [step, Group.encryptSigned_of_seal hsk hseal, Nat.mod_eq_of_lt hlast]
    have hother (j : ι) (hj : j ≠ i) : Function.update x.members i { x.members i with
        sendChain := (M.kdfCk (x.members i).sendChain).1, sendN := (x.members i).sendN + 1 } j = x.members j :=
      Function.update_of_ne hj ..
    have hchain (j : ι) (leaf : Nat) : (Function.update x.members i { x.members i with
        sendChain := (M.kdfCk (x.members i).sendChain).1, sendN := (x.members i).sendN + 1 } j).recvChain leaf =
          (x.members j).recvChain leaf := by
      by_cases hj : j = i
      · subst hj
        rw [Function.update_self]
        rfl
      · rw [hother j hj]
    refine ⟨fun j => ?_, fun s hs => ?_, fun k k' s s' hs hs' hsender hn => ?_, fun d hd => ?_, fun j i' => ?_,
      fun j i' n => ?_⟩
    · dsimp only
      by_cases hj : j = i
      · subst hj
        refine ⟨recvs, ?_⟩
        rw [Function.update_self, hi]
        dsimp only
        rw [KeyChain.chainAt_succ]
      · rw [hother j hj]
        exact h.states j
    · dsimp only at hs ⊢
      rcases List.mem_append.mp hs with hmem | hmem
      · obtain ⟨hmade, hlt⟩ := h.made s hmem
        refine ⟨hmade, ?_⟩
        by_cases hj : s.sender = i
        · rw [hj] at hlt ⊢
          rw [Function.update_self]
          exact Nat.lt_succ_of_lt hlt
        · rwa [hother _ hj]
      · obtain rfl := List.mem_singleton.mp hmem
        refine ⟨⟨hlast, sk, ct, ?_, hct ct hseal, ?_, ?_⟩, ?_⟩
        · rw [hi] at hsk
          exact hsk
        · rw [hi] at hseal
          exact hseal
        · rw [hi]
          rfl
        · dsimp only
          rw [Function.update_self]
          exact Nat.lt_succ_self _
    · dsimp only at hs hs'
      rcases getElem?_concat hs with hold | ⟨rfl, rfl⟩
      · rcases getElem?_concat hs' with hold' | ⟨rfl, rfl⟩
        · exact h.numbers k k' s s' hold hold' hsender hn
        · have hlt := (h.made s (List.mem_of_getElem? hold)).2
          dsimp only at hsender hn
          rw [hsender] at hlt
          omega
      · rcases getElem?_concat hs' with hold' | ⟨rfl, rfl⟩
        · have hlt := (h.made s' (List.mem_of_getElem? hold')).2
          dsimp only at hsender hn
          rw [← hsender] at hlt
          omega
        · rfl
    · dsimp only at hd ⊢
      rw [List.length_append]
      exact Nat.lt_add_right _ (h.delivered d hd)
    · dsimp only
      rw [hchain]
      exact h.chains j i'
    · rw [opened_concat h.delivered]
      dsimp only
      rw [hchain]
      exact h.used j i' n

/-- A delivery replaces the chain of the sender's leaf, which has the number open if the text was returned. -/
theorem Inv.received [DecidableEq ι] (h : Inv M members x) (hepoch : SameEpoch members) (hs : x.sent[k]? = some s)
    {recv : RecvChain S} {r : Except CryptoError Bytes}
    (hfollows : recv.Follows M.kdfCk (chainOf members s.sender))
    (hused : ∀ n, recv.Used n ↔ ((x.members j).recvChain (members s.sender).me).Used n ∨ n = s.n ∧ r.isOk) :
    Inv M members { x with
      members := Function.update x.members j ((x.members j).setRecv (members s.sender).me recv)
      delivered := x.delivered ++ [(j, k, r)] } := by
  have hsendN (i : ι) : (Function.update x.members j ((x.members j).setRecv (members s.sender).me recv) i).sendN =
      (x.members i).sendN := by
    by_cases hi : i = j
    · subst hi
      rw [Function.update_self]
      rfl
    · rw [Function.update_of_ne hi]
  have hchain (j' i : ι) : (Function.update x.members j ((x.members j).setRecv (members s.sender).me recv) j').recvChain
      (members i).me = if j' = j ∧ s.sender = i then recv else (x.members j').recvChain (members i).me := by
    by_cases hj : j' = j
    · subst hj
      rw [Function.update_self, Group.recvChain_setRecv]
      exact if_congr ⟨fun heq => ⟨rfl, (hepoch.me heq).symm⟩, fun heq => by rw [heq.2]⟩ rfl rfl
    · rw [Function.update_of_ne hj, if_neg fun h => hj h.1]
  refine ⟨fun i => ?_, fun s' hs' => ?_, h.numbers, fun d hd => ?_, fun j' i => ?_, fun j' i n => ?_⟩
  · dsimp only
    rw [hsendN]
    by_cases hi : i = j
    · subst hi
      obtain ⟨recvs, hstate⟩ := h.states i
      refine ⟨(x.members i).recvs.insert (members s.sender).me recv, ?_⟩
      rw [Function.update_self, Group.setRecv]
      conv_lhs => rw [hstate]
      rw [hstate]
    · rw [Function.update_of_ne hi]
      exact h.states i
  · dsimp only
    rw [hsendN]
    exact h.made s' hs'
  · rcases List.mem_append.mp hd with hold | hnew
    · exact h.delivered d hold
    · rw [List.mem_singleton.mp hnew]
      exact (List.getElem?_eq_some_iff.mp hs).1
  · dsimp only
    rw [hchain]
    split
    · next heq => exact heq.2 ▸ hfollows
    · exact h.chains j' i
  · rw [mem_opened_deliver hs]
    dsimp only
    rw [hchain]
    split
    · next heq =>
      obtain ⟨rfl, rfl⟩ := heq
      rw [hused, h.used]
      exact or_congr_right ⟨fun h => ⟨rfl, rfl, h.1.symm, h.2⟩, fun h => ⟨h.2.2.1.symm, h.2.2.2⟩⟩
    · next hne =>
      rw [h.used]
      exact (or_iff_left fun heq => hne ⟨heq.1, heq.2.1⟩).symm

section
variable (hS : S.Lawful) (hM : M.Correct) (hlength : M.Ideal) (hepoch : SameEpoch members)
include hS hM hlength hepoch

theorem Inv.genuine (h : Inv M members x) (hs : x.sent[k]? = some s) (j : ι) : ∃ m body, s.bytes = m.encode ∧ m.Fits ∧
    m.leaf = (members s.sender).me ∧ m.n = s.n ∧ m.epoch = (x.members j).epoch ∧ (x.members j).verifyMessage m = true ∧
    M.aeadOpen (seedAt M.kdfCk (chainOf members s.sender) s.n) m.ct (msgAad m.epoch m.leaf m.n) = .ok body ∧
    (x.members j).unpad body = .ok s.text := by
  obtain ⟨⟨hlast, sk, ct, hsk, hct, hseal, hbytes⟩, -⟩ := h.made s (List.mem_of_getElem? hs)
  obtain ⟨recvs, hj⟩ := h.states j
  refine ⟨message members s.sender s.n sk ct, _, hbytes, ?_, rfl, rfl, ?_, ?_, hM hseal, ?_⟩
  · exact ⟨hepoch.epoch_lt _, hepoch.me_lt _, show s.n < 2 ^ 32 by omega, hct, hS.sign_length _ _⟩
  · rw [hj]
    exact hepoch.epoch _ _
  · rw [hj, Group.verifyMessage]
    dsimp only [message]
    rw [hepoch.keys s.sender j sk hsk]
    dsimp only
    rw [hS.verify_sign]
    rfl
  · have hpad : (x.members j).padBucket = (members s.sender).padBucket := by
      rw [hj]
      exact hepoch.padBucket _ _
    have hlen := (hlength.length hseal).trans hct
    unfold Group.unpad Group.padded at *
    rw [hpad]
    split
    · next hpos =>
      rw [if_pos hpos] at hlen
      rw [unpadBucket_padToBucket ((length_le_padToBucket ..).trans hlen)]
    · rfl

theorem Inv.refused (h : Inv M members x) (hs : x.sent[k]? = some s)
    (hno : x.Returned j k ∨ ((x.members j).recvChain (members s.sender).me).n + MAX_SKIP < s.n) :
    ((x.members j).decryptVerified M s.bytes).1 =
        (x.members j).setRecv (members s.sender).me ((x.members j).recvChain (members s.sender).me) ∧
      ∃ e, ((x.members j).decryptVerified M s.bytes).2 = .error e := by
  obtain ⟨m, body, hbytes, hfits, hleaf, hn, hepoch', hverify, -⟩ := h.genuine hS hM hlength hepoch hs j
  rw [hbytes, ← hleaf]
  refine Group.decryptVerified_of_seedFor_eq_none hfits hverify hepoch' ?_
  rw [hleaf, hn]
  exact (h.chains j s.sender).seedFor_eq_none (hno.imp_left (h.used_iff hs).mpr)

theorem Inv.returned (h : Inv M members x) (hs : x.sent[k]? = some s) (hnew : ¬ x.Returned j k)
    (hnear : s.n ≤ ((x.members j).recvChain (members s.sender).me).n + MAX_SKIP) :
    (x.members j).decryptVerified M s.bytes = ((x.members j).setRecv (members s.sender).me
      (((x.members j).recvChain (members s.sender).me).used M.kdfCk s.n), .ok s.text) := by
  obtain ⟨m, body, hbytes, hfits, hleaf, hn, hepoch', hverify, hopen, hunpad⟩ := h.genuine hS hM hlength hepoch hs j
  have hseed := (h.chains j s.sender).seedFor_eq_some (fun hused => hnew ((h.used_iff hs).mp hused)) hnear
  rw [hbytes, ← hleaf, ← hn]
  refine Group.decryptVerified_of_seedFor hfits hverify hepoch' ?_ hopen hunpad
  rw [hleaf, hn]
  exact hseed

theorem Inv.deliver [DecidableEq ι] (h : Inv M members x) (j : ι) (k : Nat) :
    Inv M members (x.step M (.deliver j k)) := by
  simp only [step]
  split
  · exact h
  · next s hs =>
    by_cases hno : x.Returned j k ∨ ((x.members j).recvChain (members s.sender).me).n + MAX_SKIP < s.n
    · obtain ⟨hset, e, herror⟩ := h.refused hS hM hlength hepoch hs hno
      rw [hset, herror]
      exact h.received hepoch hs (h.chains j s.sender) fun n => (or_iff_left fun h => nomatch h.2).symm
    · rw [not_or, Nat.not_lt] at hno
      obtain ⟨hnew, hnear⟩ := hno
      rw [h.returned hS hM hlength hepoch hs hnew hnear]
      obtain ⟨hfollows, hused⟩ := (h.chains j s.sender).used (fun hused => hnew ((h.used_iff hs).mp hused))
        (h.made s (List.mem_of_getElem? hs)).1.1
      refine h.received hepoch hs hfollows fun n => ?_
      rw [hused, or_comm]
      exact or_congr_right (and_iff_left rfl).symm

theorem Inv.run [DecidableEq ι] {evs : List (Event ι)} (h : Run.Along (step M) (Fits M) (Exchange.start members) evs) :
    Inv M members (run M members evs) := by
  refine h.invariant (fun x ev hinv hfits => ?_) (.start M hepoch)
  cases ev with
  | send i text => exact hinv.send hfits
  | deliver j k => exact hinv.deliver hS hM hlength hepoch j k

/-- **Delivery.** In every exchange within an epoch, in which no counter wraps and every ciphertext fits a field, a
delivery of a message to `j` fails if `j` got it before. Otherwise it returns the text, and the frame names the
leaf of the sender, if the number is at most `MAX_SKIP` beyond the next one of that leaf; it fails if not. -/
theorem deliver_outcome [DecidableEq ι] {evs : List (Event ι)}
    (h : Run.Along (step M) (Fits M) (Exchange.start members) evs)
    (hs : (run M members evs).sent[k]? = some s) (j : ι) :
    (∃ m, GroupMessage.decode s.bytes = .ok m ∧ m.n = s.n) ∧
    ((run M members evs).Returned j k →
      ∃ e, (((run M members evs).members j).decryptVerified M s.bytes).2 = .error e) ∧
    (¬ (run M members evs).Returned j k →
      s.n ≤ (((run M members evs).members j).recvChain (members s.sender).me).n + MAX_SKIP →
      (((run M members evs).members j).decryptVerified M s.bytes).2 = .ok s.text ∧
        senderLeaf s.bytes = some (members s.sender).me) ∧
    (¬ (run M members evs).Returned j k →
      (((run M members evs).members j).recvChain (members s.sender).me).n + MAX_SKIP < s.n →
      ∃ e, (((run M members evs).members j).decryptVerified M s.bytes).2 = .error e) := by
  have hinv := Inv.run hS hM hlength hepoch h
  obtain ⟨m, -, hbytes, hfits, hleaf, hn, -⟩ := hinv.genuine hS hM hlength hepoch hs j
  have hdecode : GroupMessage.decode s.bytes = .ok m := hbytes ▸ GroupMessage.decode_encode hfits
  refine ⟨⟨m, hdecode, hn⟩, fun hreturned => ?_, fun hnew hnear => ⟨?_, ?_⟩, fun _ hfar => ?_⟩
  · exact (hinv.refused hS hM hlength hepoch hs (.inl hreturned)).2
  · rw [hinv.returned hS hM hlength hepoch hs hnew hnear]
  · rw [senderLeaf_of_decode hdecode, hleaf]
  · exact (hinv.refused hS hM hlength hepoch hs (.inr hfar)).2

end

/-! ## One member that sends -/

def sending (M : Messaging S) (members : ι → Group S) (i : ι) (k : Nat) : Group S :=
  { members i with sendChain := chainAt M.kdfCk (chainOf members i) k, sendN := k % 2 ^ 32, recvs := ∅ }

section
variable [DecidableEq ι] {sk : S.SigSeed} {text : Bytes} {ctAt : Nat → Bytes} (hsk : (members i).mySig = some sk)
  (hseal : ∀ m, M.aeadSeal (seedAt M.kdfCk (chainOf members i) m) ((members i).padded text)
    (msgAad (members i).epoch (members i).me (m % 2 ^ 32)) = .ok (ctAt m))
include hsk hseal

omit [DecidableEq ι] in
theorem encryptSigned_sending (k : Nat) : (sending M members i k).encryptSigned M text =
    (sending M members i (k + 1), .ok (message members i (k % 2 ^ 32) sk (ctAt k)).encode) := by
  rw [Group.encryptSigned_of_seal (show (sending M members i k).mySig = some sk from hsk) (hseal k)]
  simp only [sending, KeyChain.chainAt_succ, Nat.mod_add_mod]
  rfl

theorem run_sends (k : Nat) : run M members (List.replicate k (.send i text)) =
    { members := Function.update (start members).members i (sending M members i k)
      sent := (List.range k).map fun m =>
        { sender := i, text, n := m % 2 ^ 32, bytes := (message members i (m % 2 ^ 32) sk (ctAt m)).encode }
      delivered := [] } := by
  induction k with
  | zero =>
    have hstart : (start members).members i = sending M members i 0 := rfl
    rw [← hstart, Function.update_eq_self]
    rfl
  | succ k ih =>
    rw [List.replicate_succ', run, List.foldl_append, ← run, ih, List.foldl_cons, List.foldl_nil, step]
    dsimp only
    rw [Function.update_self, encryptSigned_sending hsk hseal, List.range_succ, List.map_append]
    dsimp only
    rw [Function.update_idem]
    rfl

theorem along_sends (hfits : ∀ m, (ctAt m).length ≤ MAX_FRAME) {k : Nat} (hk : k < 2 ^ 32) :
    Run.Along (step M) (Fits M) (start members) (List.replicate k (.send i text)) := by
  induction k with
  | zero => trivial
  | succ k ih =>
    rw [List.replicate_succ', Run.along_append]
    refine ⟨ih (by omega), ?_, trivial⟩
    have hrun := run_sends hsk hseal k
    rw [run] at hrun
    rw [hrun, Fits]
    dsimp only
    rw [Function.update_self]
    refine ⟨show k % 2 ^ 32 + 1 < 2 ^ 32 by omega, fun ct hct => ?_⟩
    cases (hseal k).symm.trans hct
    exact hfits k

end

section
variable [DecidableEq ι] (hS : S.Lawful) (hM : M.Correct) (hlength : M.Ideal) (hepoch : SameEpoch members)
include hS hM hlength hepoch

theorem Inv.step_refused (h : Inv M members x) (hs : x.sent[k]? = some s)
    (hno : x.Returned j k ∨ ((x.members j).recvChain (members s.sender).me).n + MAX_SKIP < s.n) :
    (x.step M (.deliver j k)).sent = x.sent ∧
      (∃ e, (x.step M (.deliver j k)).delivered = x.delivered ++ [(j, k, .error e)]) ∧
      ((x.step M (.deliver j k)).members j).recvChain (members s.sender).me =
        (x.members j).recvChain (members s.sender).me := by
  obtain ⟨hset, e, herror⟩ := h.refused hS hM hlength hepoch hs hno
  simp only [step, hs, hset, herror, Function.update_self, Group.recvChain_setRecv, if_true, true_and, and_true]
  exact ⟨e, rfl⟩

theorem Inv.step_returned (h : Inv M members x) (hs : x.sent[k]? = some s) (hnew : ¬ x.Returned j k)
    (hnear : s.n ≤ ((x.members j).recvChain (members s.sender).me).n + MAX_SKIP) :
    (x.step M (.deliver j k)).sent = x.sent ∧
      (x.step M (.deliver j k)).delivered = x.delivered ++ [(j, k, .ok s.text)] ∧
      ((x.step M (.deliver j k)).members j).recvChain (members s.sender).me =
        ((x.members j).recvChain (members s.sender).me).used M.kdfCk s.n := by
  have hreturned := h.returned hS hM hlength hepoch hs hnew hnear
  simp only [step, hs, hreturned, Function.update_self, Group.recvChain_setRecv, if_true, and_self]

theorem Inv.early (h : Inv M members x) {k' : Nat} {s' : Sent ι} (hs : x.sent[k]? = some s) (hs' : x.sent[k']? = some s')
    (hsender : s'.sender = s.sender) (hfirst : ((x.members j).recvChain (members s.sender).me).n = 0)
    (hempty : x.delivered = []) (hn : s.n = MAX_SKIP + 1) (hn' : s'.n = 1) :
    ∃ e, ([.deliver j k, .deliver j k', .deliver j k].foldl (step M) x).delivered =
      [(j, k, .error e), (j, k', .ok s'.text), (j, k, .ok s.text)] := by
  have hne : k ≠ k' := by
    rintro rfl
    cases hs.symm.trans hs'
    exact absurd (hn.symm.trans hn') (by decide)
  -- the first delivery
  obtain ⟨hsent₁, ⟨e, hdelivered₁⟩, hchain₁⟩ := h.step_refused hS hM hlength hepoch hs (j := j) (.inr (by omega))
  have h₁ := h.deliver hS hM hlength hepoch j k
  rw [hempty] at hdelivered₁
  simp only [List.foldl_cons, List.foldl_nil]
  generalize x.step M (.deliver j k) = x₁ at *
  have hnew₁ : ¬ x₁.Returned j k' := by
    rintro ⟨pt, hmem⟩
    rw [hdelivered₁] at hmem
    cases List.mem_singleton.mp hmem
  -- the second message
  rw [← hsent₁] at hs hs'
  obtain ⟨hsent₂, hdelivered₂, hchain₂⟩ := h₁.step_returned hS hM hlength hepoch hs' hnew₁
    (by rw [hsender, hchain₁, hfirst, hn']; decide)
  have hfollows := h₁.chains j s'.sender
  have h₂ := h₁.deliver hS hM hlength hepoch j k'
  rw [hdelivered₁] at hdelivered₂
  generalize x₁.step M (.deliver j k') = x₂ at *
  have hnew₂ : ¬ x₂.Returned j k := by
    rintro ⟨pt, hmem⟩
    rw [hdelivered₂] at hmem
    simp [hne] at hmem
  have hnext : ((x₂.members j).recvChain (members s.sender).me).n = 2 := by
    rw [← hsender, hchain₂, hfollows.used_n (by rw [hsender, hchain₁, hfirst]; exact Nat.zero_le _), hn']
    rfl
  -- the first message again
  rw [← hsent₂] at hs
  obtain ⟨-, hdelivered₃, -⟩ := h₂.step_returned hS hM hlength hepoch hs hnew₂ (by omega)
  exact ⟨e, by rw [hdelivered₃, hdelivered₂]; rfl⟩

end

namespace Sample

/-- A chain on which only the first key is different from the others. -/
def messaging : Messaging Scheme.plain := { Messaging.plain with kdfCk := fun s => ((0 : UInt8), s) }

theorem messaging_correct : messaging.Correct := by
  rintro (seed : UInt8) pt aad _ ⟨⟩
  have htake : (seed :: (aad ++ pt)).take (aad.length + 1) = seed :: aad := by simp
  have hdrop : (seed :: (aad ++ pt)).drop (aad.length + 1) = pt := by simp
  exact (if_pos htake).trans (congrArg Except.ok hdrop)

theorem messaging_ideal : messaging.Ideal := ⟨Messaging.plain_ideal.opens, Messaging.plain_ideal.length⟩

/-- The members at leaves 0 and 1, with signing keys 7 and 8. -/
def pair (i : Fin 2) : Group Scheme.plain :=
  { Group.createWithSig .hybrid (7 : UInt8) (5 : UInt8) with
    me := i
    mySig := some (if i = 0 then (7 : UInt8) else (8 : UInt8))
    leafSigKeys := ((∅ : Table Nat IdentityPublic).insert 0 ⟨[7]⟩).insert 1 ⟨[8]⟩ }

theorem pair_sameEpoch : SameEpoch pair where
  epoch _ _ := rfl
  secret _ _ := rfl
  padBucket _ _ := rfl
  me _ _ h := Fin.ext h
  keys i j sk hsk := by
    cases hsk
    fin_cases i <;> rfl
  epoch_lt _ := Nat.two_pow_pos 32
  me_lt i := i.2.trans (by decide)

/-- The ciphertext of the `m`-th message `hi` of the member at leaf 1. -/
def ctAt (m : Nat) : Bytes :=
  seedAt messaging.kdfCk (chainOf pair 1) m :: (msgAad 0 1 (m % 2 ^ 32) ++ [104, 105])

theorem ctAt_length (m : Nat) : (ctAt m).length ≤ MAX_FRAME := by
  have hlen : (ctAt m).length = 15 := by simp [ctAt, msgAad, putU32]
  rw [hlen]
  decide

def sends (k : Nat) : List (Event (Fin 2)) := List.replicate k (.send 1 [104, 105])

def sentAt (m : Nat) : Sent (Fin 2) where
  sender := 1
  text := [104, 105]
  n := m % 2 ^ 32
  bytes := (message pair 1 (m % 2 ^ 32) (8 : UInt8) (ctAt m)).encode

theorem run_hi (k : Nat) : run messaging pair (sends k) =
    { members := Function.update (start pair).members 1 (sending messaging pair 1 k)
      sent := (List.range k).map sentAt
      delivered := [] } :=
  run_sends rfl (fun _ => rfl) k

theorem sent_hi {k m : Nat} (h : m < k) : (run messaging pair (sends k)).sent[m]? = some (sentAt m) := by
  rw [run_hi, List.getElem?_map, List.getElem?_range h]
  rfl

theorem along_hi {k : Nat} (hk : k < 2 ^ 32) :
    Run.Along (step messaging) (Fits messaging) (start pair) (sends k) :=
  along_sends rfl (fun _ => rfl) ctAt_length hk

theorem members_hi (k : Nat) : (run messaging pair (sends k)).members 0 = (start pair).members 0 := by
  have hne : (0 : Fin 2) ≠ 1 := by decide
  rw [run_hi]
  exact Function.update_of_ne hne (sending messaging pair 1 k) (start pair).members

theorem deliver_outcome_hi : (((run messaging pair (sends 1)).members 0).decryptVerified messaging (sentAt 0).bytes).2 =
    .ok [104, 105] ∧ senderLeaf (sentAt 0).bytes = some 1 := by
  have hdelivery := deliver_outcome Scheme.plain_lawful messaging_correct messaging_ideal pair_sameEpoch (along_hi (by decide : 1 < 2 ^ 32))
    (sent_hi Nat.zero_lt_one) (0 : Fin 2)
  refine hdelivery.2.2.1 ?_ (Nat.zero_le _)
  rintro ⟨pt, hmem⟩
  rw [run_hi] at hmem
  cases hmem

def wrapped : GroupMessage := message pair 1 0 (8 : UInt8) (ctAt (2 ^ 32))

theorem wrapped_refused : (((start pair).members 0).decryptVerified messaging wrapped.encode).2 =
    .error .decryptionFailed := by
  have hfits : wrapped.Fits := ⟨Nat.two_pow_pos 32, by decide, Nat.two_pow_pos 32, ctAt_length _, by decide⟩
  have hseed : seedAt messaging.kdfCk (chainOf pair 1) (2 ^ 32) = (0 : UInt8) := by
    obtain ⟨m, hm⟩ : ∃ m, 2 ^ 32 = m + 1 := ⟨2 ^ 32 - 1, by decide⟩
    rw [hm]
    exact KeyChain.chainAt_succ ..
  have hct : wrapped.ct = (0 : UInt8) :: (msgAad 0 1 0 ++ [104, 105]) := by
    rw [← hseed]
    show ctAt (2 ^ 32) = _
    rw [ctAt, Nat.mod_self]
    rfl
  have hopen : messaging.aeadOpen (chainOf pair 1) wrapped.ct (msgAad 0 1 0) = .error .decryptionFailed := by
    rw [hct]
    rfl
  have hfirst : (((start pair).members 0).recvChain 1).seedFor messaging.kdfCk MAX_SKIP 0 = some (chainOf pair 1) := rfl
  have hverify : ((start pair).members 0).verifyMessage wrapped = true := rfl
  have hepoch : wrapped.epoch = ((start pair).members 0).epoch := rfl
  rw [Group.decryptVerified_encode hfits hverify hepoch]
  rcases Group.decryptBody_eq (M := messaging) ((start pair).members 0) 0 1 0 wrapped.ct with
    ⟨hnone, -⟩ | ⟨seed, hsome, hbody, -⟩
  · exact nomatch hfirst.symm.trans hnone
  · obtain rfl := Option.some.inj (hfirst.symm.trans hsome)
    have herror := hbody.trans hopen
    generalize wrapped.ct = ct at herror ⊢
    exact congrArg (Except.bind · ((start pair).members 0).unpad) herror

/-- A repeated delivery returns the text where the first one came too early, and a first delivery within the window
fails once the counter has wrapped. -/
theorem early_and_wrapped :
    (∃ e, (run messaging pair (sends (MAX_SKIP + 2) ++
      [.deliver 0 (MAX_SKIP + 1), .deliver 0 1, .deliver 0 (MAX_SKIP + 1)])).delivered =
        [(0, MAX_SKIP + 1, .error e), (0, 1, .ok [104, 105]), (0, MAX_SKIP + 1, .ok [104, 105])]) ∧
    ∃ s, (run messaging pair (sends (2 ^ 32 + 1))).sent[2 ^ 32]? = some s ∧
      (run messaging pair (sends (2 ^ 32 + 1))).delivered = [] ∧
      s.n ≤ (((run messaging pair (sends (2 ^ 32 + 1))).members 0).recvChain 1).n + MAX_SKIP ∧
      (((run messaging pair (sends (2 ^ 32 + 1))).members 0).decryptVerified messaging s.bytes).2 =
        .error .decryptionFailed := by
  constructor
  · have hlt : MAX_SKIP + 2 < 2 ^ 32 := by decide
    have hinv := Inv.run Scheme.plain_lawful messaging_correct messaging_ideal pair_sameEpoch (along_hi hlt)
    rw [run, List.foldl_append, ← run]
    refine hinv.early Scheme.plain_lawful messaging_correct messaging_ideal pair_sameEpoch (sent_hi (by omega))
      (sent_hi (by omega)) rfl ?_ ?_ (by decide) rfl
    · rw [members_hi]
      rfl
    · rw [run_hi]
  · refine ⟨sentAt (2 ^ 32), sent_hi (Nat.lt_succ_self _), by rw [run_hi], ?_, ?_⟩
    · exact (Nat.mod_self _).le.trans (Nat.zero_le _)
    · have hwrapped : (sentAt (2 ^ 32)).bytes = wrapped.encode := by rw [sentAt, Nat.mod_self, wrapped]
      rw [members_hi, hwrapped]
      exact wrapped_refused

end Sample

end Exchange
end Talkrypt.TreeKem
