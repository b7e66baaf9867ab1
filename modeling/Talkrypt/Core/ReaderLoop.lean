import Talkrypt.Core.Access
import Talkrypt.Core.Frames

/-!
# Connections and their reader loops (`register`, `reader_loop`)

Every connection has an entry in the table of peers and a task that reads its stream. The task decides once, when it
starts or when an identity is let in, that its peer may be heard. It keeps that decision while the policy, the
contacts and the revocations change (`heard_after_restriction`); messages are heard under the policy in force exactly
as long as nothing takes the admission of a peer back while it is connected (`heard_lawfully_iff`).

The entries of the table are removed by fingerprint, the streams come and go one by one: a stream that fails leaves
its entry behind, which then hides the entry of the next stream of that peer, and a stream that is dropped takes the
entries of the peer's other streams with it (`stale_entry_hides_stream`). `tracks_iff` says exactly when the table
tracks the open streams.

The frames that a reader loop hands to the group and naming layers leave the table of peers and the gate as they are;
they are treated with those layers.
-/

namespace Talkrypt.Core
open TreeKem Account

variable {S : Scheme}

structure Routed where
  dest : Route
  sender : Fingerprint
  inner : Bytes

namespace Routed

def getDest : Reader Unit Route := do
  let tag ← Reader.getU8
  if tag = 0 then pure .broadcast
  else if tag = 1 then do
    let fp ← getArr 48
    pure (.peer fp)
  else if tag = 2 then pure .committer
  else throw ()

def get : Reader Unit Routed := do
  let dest ← getDest
  let sender ← getArr 48
  let inner ← Reader.getBytes
  pure { dest, sender, inner }

def decode (bytes : Bytes) : Option Routed := (Reader.parse get bytes).toOption

end Routed

/-- What is fixed when the engine is built. Only groups run behind a relay. -/
structure Config where
  role : GroupRole
  relayed : Bool
  direct : role = .none → relayed = false

def Config.pairwise : Config := ⟨.none, false, fun _ => rfl⟩

structure Peer where
  fingerprint : Fingerprint
  /-- The stream whose writer, session and pending queue the entry holds. -/
  stream : Nat
deriving DecidableEq

structure Loop where
  fingerprint : Fingerprint
  started : Bool
  approved : Bool
  decryptFailures : Nat
deriving DecidableEq

def MAX_CONSECUTIVE_DECRYPT_FAILURES : Nat := 8

structure Links where
  config : Config
  gate : Gate
  peers : List Peer
  loops : Table Nat Loop
  streams : Nat
  notices : List Notice
  sent : List (Nat × WireFrame)
  /-- The chains that resolved for a peer. The engine keeps no such record. -/
  chains : List (Fingerprint × IdentityChain)

namespace Links

def new (config : Config) (gate : Gate) : Links := ⟨config, gate, [], ∅, 0, [], [], []⟩

inductive Act where
  | register (peer : Fingerprint)
  | start (k : Nat)
  | failed (k : Nat)
  | garbled (k : Nat)
  | payload (k : Nat) (now : UInt64) (bytes : Bytes)
  /-- `reconnect` drops a stranger that answered at a learned address. -/
  | dropStranger (peer : Fingerprint)
  | call (c : GateCall)

def peerHandles (m : Links) (peer : Fingerprint) : Option Nat :=
  (m.peers.find? (·.fingerprint = peer)).map (·.stream)

def pendingFor (m : Links) (peer : Fingerprint) : Option Nat :=
  (m.peers.find? (·.fingerprint = peer)).map (·.stream)

def report (m : Links) (notices : List Notice) : Links := { m with notices := m.notices ++ notices }

def setLoop (m : Links) (k : Nat) (l : Loop) : Links := { m with loops := m.loops.insert k l }

def endLoop (m : Links) (k : Nat) (peer : Fingerprint) : Links :=
  { m with loops := m.loops.erase k }.report [.disconnected peer]

def dropPeer (m : Links) (peer : Fingerprint) : Links :=
  { m with peers := m.peers.filter (·.fingerprint ≠ peer) }

def running (m : Links) (k : Nat) : Option Loop := (m.loops.lookup k).filter (·.started)

def isIdentity : Option WireFrame → Bool
  | some (.identity _) => true
  | _ => false

def settle (m : Links) (k : Nat) (l : Loop) : IdentityOutcome → Links
  | .allowed => m.setLoop k { l with approved := true }
  | .ignored => m
  | .rejected =>
    let denied := (m.peerHandles l.fingerprint).toList.map (·, .accessDenied "not permitted on this channel")
    ({ m with sent := m.sent ++ denied }.dropPeer l.fingerprint).endLoop k l.fingerprint

variable (S) (fingerprint : IdentityPublic → Fingerprint)

def takeIdentity (m : Links) (peer : Fingerprint) (now : UInt64) (bytes : Bytes) : Links :=
  { m with
    gate := (m.gate.handleIdentity S fingerprint peer now bytes).1
    chains := (m.gate.presented S fingerprint peer now bytes).toList.map (peer, ·) ++ m.chains }.report
      (m.gate.handleIdentity S fingerprint peer now bytes).2.1

def onIdentity (m : Links) (k : Nat) (l : Loop) (now : UInt64) (bytes : Bytes) : Links :=
  (m.takeIdentity S fingerprint l.fingerprint now bytes).settle k l
    (m.gate.handleIdentity S fingerprint l.fingerprint now bytes).2.2

def onFrame (m : Links) (k : Nat) (l : Loop) (peer : Fingerprint) (now : UInt64) : Option WireFrame → Links
  | some (.chat channel text marking) =>
    if m.config.role = .none then m.report [.message peer channel text marking] else m
  | some (.identity bytes) => if m.config.role = .none then m.onIdentity S fingerprint k l now bytes else m
  | some (.accessDenied reason) =>
    if m.config.role = .none then m.report [.error ("not admitted: " ++ reason)] else m
  | some (.revocation bytes) =>
    match Revocation.decode bytes with
    | .ok r => { m with gate := m.gate.addRevocation S fingerprint r }
    | .error _ => m
  | _ => m

def unwrap (m : Links) (l : Loop) (bytes : Bytes) : Option (Fingerprint × Bytes) :=
  if m.config.relayed then (Routed.decode bytes).map fun r => (r.sender, r.inner) else some (l.fingerprint, bytes)

def onPayload (m : Links) (k : Nat) (l : Loop) (now : UInt64) (bytes : Bytes) : Links :=
  match m.unwrap l bytes with
  | none => m
  | some (peer, frame) =>
    -- a peer that is not approved is heard with its identity only
    if m.config.role = .none ∧ l.approved = false ∧ isIdentity (WireFrame.decode frame) = false then m
    else m.onFrame S fingerprint k l peer now (WireFrame.decode frame)

def onGarbled (m : Links) (k : Nat) (l : Loop) : Links :=
  let m := m.report [.error "frame failed to decrypt"]
  if l.decryptFailures + 1 ≥ MAX_CONSECUTIVE_DECRYPT_FAILURES then
    (m.dropPeer l.fingerprint).endLoop k l.fingerprint
  else m.setLoop k { l with decryptFailures := l.decryptFailures + 1 }

def step (m : Links) : Act → Links
  | .register peer =>
    { m with
      peers := m.peers ++ [Peer.mk peer m.streams]
      loops := m.loops.insert m.streams (Loop.mk peer false false 0)
      streams := m.streams + 1 }.report [.connected peer]
  | .start k =>
    match m.loops.lookup k with
    | none => m
    | some l => if l.started then m else m.setLoop k { l with started := true, approved := m.gate.waived }
  | .failed k =>
    match m.running k with
    | none => m
    | some l => m.endLoop k l.fingerprint
  | .garbled k =>
    match m.running k with
    | none => m
    | some l => m.onGarbled k l
  | .payload k now bytes =>
    match m.running k with
    | none => m
    | some l =>
      let l := { l with decryptFailures := 0 }
      (m.setLoop k l).onPayload S fingerprint k l now bytes
  | .dropStranger peer => m.dropPeer peer
  | .call c => { m with gate := m.gate.call S fingerprint c }

variable {S fingerprint}

/-! ## What a step does -/

/-- The policy in force admits an account that the peer presented on a chain without a link revoked by now, or everyone
is heard. -/
def Cleared (fingerprint : IdentityPublic → Fingerprint) (m : Links) (peer : Fingerprint) : Prop :=
  m.gate.waived = true ∨ ∃ chain, (peer, chain) ∈ m.chains ∧ m.gate.admitsChain fingerprint chain = true

/-- A stream goes on, with the state `l'` of its loop. -/
structure Goes (fingerprint : IdentityPublic → Fingerprint) (m m' : Links) (k : Nat) (l l' : Loop) : Prop where
  fingerprint_eq : l'.fingerprint = l.fingerprint
  started_eq : l'.started = l.started
  approved : l'.approved = true → l.approved = true ∨ m'.Cleared fingerprint l.fingerprint
  config : m'.config = m.config
  peers : m'.peers = m.peers
  loops : ∀ j, m'.loops.lookup j = if j = k then some l' else m.loops.lookup j
  streams : m'.streams = m.streams

/-- A stream is dropped, with all entries of its peer. -/
structure Drops (m m' : Links) (k : Nat) (peer : Fingerprint) : Prop where
  config : m'.config = m.config
  peers : m'.peers = m.peers.filter (·.fingerprint ≠ peer)
  loops : ∀ j, m'.loops.lookup j = if j = k then none else m.loops.lookup j
  streams : m'.streams = m.streams

variable {m m' : Links} {k : Nat} {l l' : Loop}

theorem running_eq_some : m.running k = some l ↔ m.loops.lookup k = some l ∧ l.started = true := by
  rw [running, Option.filter_eq_some_iff]

theorem Goes.of_eq (hk : m.loops.lookup k = some l) (hconfig : m'.config = m.config) (hp : m'.peers = m.peers)
    (hl : m'.loops = m.loops) (hs : m'.streams = m.streams) : Goes fingerprint m m' k l l := by
  refine ⟨rfl, rfl, .inl, hconfig, hp, fun j => ?_, hs⟩
  rw [hl]
  split
  · next hj => exact hj ▸ hk
  · rfl

theorem Goes.of_setLoop {l₀ : Loop} (h : Goes fingerprint (m.setLoop k l₀) m' k l₀ l')
    (hfp : l₀.fingerprint = l.fingerprint) (hstarted : l₀.started = l.started) (happroved : l₀.approved = l.approved) :
    Goes fingerprint m m' k l l' := by
  refine ⟨h.fingerprint_eq.trans hfp, h.started_eq.trans hstarted, fun happ => ?_, h.config, h.peers, fun j => ?_,
    h.streams⟩
  · rw [← happroved, ← hfp]
    exact h.approved happ
  · rw [h.loops, setLoop, Table.lookup_insert_eq]
    split <;> rfl

theorem Drops.of_setLoop {l₀ : Loop} {peer : Fingerprint} (h : Drops (m.setLoop k l₀) m' k peer) :
    Drops m m' k peer := by
  refine ⟨h.config, h.peers, fun j => ?_, h.streams⟩
  rw [h.loops, setLoop, Table.lookup_insert_eq]
  split <;> rfl

theorem onGarbled_cases (m : Links) (k : Nat) (l : Loop) :
    (∃ l', Goes fingerprint m (m.onGarbled k l) k l l') ∨ Drops m (m.onGarbled k l) k l.fingerprint := by
  rw [onGarbled]
  split
  · exact .inr ⟨rfl, rfl, fun j => Table.lookup_erase_eq _ _ _, rfl⟩
  · exact .inl ⟨{ l with decryptFailures := l.decryptFailures + 1 }, rfl, rfl, .inl, rfl, rfl,
      fun j => Table.lookup_insert_eq _ _ _ _, rfl⟩

theorem onIdentity_cases (now : UInt64) (bytes : Bytes) (hk : m.loops.lookup k = some l) :
    (∃ l', Goes fingerprint m (m.onIdentity S fingerprint k l now bytes) k l l') ∨
    Drops m (m.onIdentity S fingerprint k l now bytes) k l.fingerprint := by
  rw [onIdentity]
  cases houtcome : (m.gate.handleIdentity S fingerprint l.fingerprint now bytes).2.2 with
  | allowed =>
    refine .inl ⟨{ l with approved := true }, rfl, rfl, fun _ => .inr (.inr ?_), rfl, rfl,
      fun j => Table.lookup_insert_eq _ _ _ _, rfl⟩
    -- the chain that was let in has just been presented
    obtain ⟨chain, hchain, hadmits⟩ := Gate.presented_of_allowed houtcome
    obtain ⟨seenAccounts, hgate⟩ := (Gate.handleIdentity_frame S fingerprint m.gate l.fingerprint now bytes).1
    refine ⟨chain, List.mem_append_left _ ?_, ?_⟩
    · rw [hchain]
      exact List.mem_singleton.mpr rfl
    · have hgate' : ((m.takeIdentity S fingerprint l.fingerprint now bytes).settle k l .allowed).gate =
          { m.gate with seenAccounts } := hgate
      rw [hgate']
      exact hadmits
  | ignored => exact .inl ⟨l, .of_eq hk rfl rfl rfl rfl⟩
  | rejected => exact .inr ⟨rfl, rfl, fun j => Table.lookup_erase_eq _ _ _, rfl⟩

theorem onFrame_cases (peer : Fingerprint) (now : UInt64) (f : Option WireFrame) (hk : m.loops.lookup k = some l) :
    (∃ l', Goes fingerprint m (m.onFrame S fingerprint k l peer now f) k l l') ∨
    Drops m (m.onFrame S fingerprint k l peer now f) k l.fingerprint := by
  unfold onFrame
  split
  · split <;> exact .inl ⟨l, .of_eq hk rfl rfl rfl rfl⟩
  · split
    · exact onIdentity_cases now _ hk
    · exact .inl ⟨l, .of_eq hk rfl rfl rfl rfl⟩
  · split <;> exact .inl ⟨l, .of_eq hk rfl rfl rfl rfl⟩
  · split <;> exact .inl ⟨l, .of_eq hk rfl rfl rfl rfl⟩
  · exact .inl ⟨l, .of_eq hk rfl rfl rfl rfl⟩

theorem onPayload_cases (S : Scheme) (fingerprint : IdentityPublic → Fingerprint) (now : UInt64) (bytes : Bytes)
    (hk : m.loops.lookup k = some l) :
    (∃ l', Goes fingerprint m (m.onPayload S fingerprint k l now bytes) k l l') ∨
    Drops m (m.onPayload S fingerprint k l now bytes) k l.fingerprint := by
  rw [onPayload]
  cases m.unwrap l bytes with
  | none => exact .inl ⟨l, .of_eq hk rfl rfl rfl rfl⟩
  | some p =>
    dsimp only
    split
    · exact .inl ⟨l, .of_eq hk rfl rfl rfl rfl⟩
    · exact onFrame_cases p.1 now _ hk

theorem step_garbled (S : Scheme) (fingerprint : IdentityPublic → Fingerprint) (hrun : m.running k = some l) :
    (∃ l', Goes fingerprint m (m.step S fingerprint (.garbled k)) k l l') ∨
    Drops m (m.step S fingerprint (.garbled k)) k l.fingerprint := by
  rw [step, hrun]
  exact onGarbled_cases m k l

theorem step_payload (S : Scheme) (fingerprint : IdentityPublic → Fingerprint) (now : UInt64) (bytes : Bytes)
    (hrun : m.running k = some l) :
    (∃ l', Goes fingerprint m (m.step S fingerprint (.payload k now bytes)) k l l') ∨
    Drops m (m.step S fingerprint (.payload k now bytes)) k l.fingerprint := by
  rw [step, hrun]
  have hk : (m.setLoop k { l with decryptFailures := 0 }).loops.lookup k = some { l with decryptFailures := 0 } :=
    (Table.lookup_insert_eq _ _ _ _).trans (if_pos rfl)
  obtain ⟨l', hgoes⟩ | hdrops := onPayload_cases S fingerprint now bytes hk
  · exact .inl ⟨l', hgoes.of_setLoop rfl rfl rfl⟩
  · exact .inr hdrops.of_setLoop

theorem step_config (a : Act) : (m.step S fingerprint a).config = m.config := by
  cases a with
  | register peer => rfl
  | start k =>
    rw [step]
    cases m.loops.lookup k with
    | none => rfl
    | some l =>
      dsimp only
      split <;> rfl
  | failed k =>
    rw [step]
    cases m.running k <;> rfl
  | garbled k =>
    cases hrun : m.running k with
    | none => rw [step, hrun]
    | some l =>
      obtain ⟨l', hgoes⟩ | hdrops := step_garbled S fingerprint hrun
      · exact hgoes.config
      · exact hdrops.config
  | payload k now bytes =>
    cases hrun : m.running k with
    | none => rw [step, hrun]
    | some l =>
      obtain ⟨l', hgoes⟩ | hdrops := step_payload S fingerprint now bytes hrun
      · exact hgoes.config
      · exact hdrops.config
  | dropStranger peer => rfl
  | call c => rfl

/-! ## Who is heard -/

def Surfaces (S : Scheme) (fingerprint : IdentityPublic → Fingerprint) (m : Links) (a : Act) (sender : Fingerprint) :
    Prop :=
  ∃ channel text marking, .message sender channel text marking ∈
    (m.step S fingerprint a).notices.drop m.notices.length

/-- Whatever comes next, a message is heard from cleared peers only. -/
def Lawful (S : Scheme) (fingerprint : IdentityPublic → Fingerprint) (m : Links) : Prop :=
  ∀ a sender, m.Surfaces S fingerprint a sender → m.Cleared fingerprint sender

/-- A step takes the admission of a peer back whose connection stays open and approved. -/
def Withdraws (S : Scheme) (fingerprint : IdentityPublic → Fingerprint) (m : Links) (a : Act) : Prop :=
  ∃ k l l', m.running k = some l ∧ l.approved = true ∧ (m.step S fingerprint a).running k = some l' ∧
    l'.approved = true ∧ l'.fingerprint = l.fingerprint ∧ ¬ (m.step S fingerprint a).Cleared fingerprint l.fingerprint

/-- The senders of the messages that are reported satisfy `P`. -/
def Reports (m m' : Links) (P : Fingerprint → Prop) : Prop :=
  ∃ new, m'.notices = m.notices ++ new ∧
    ∀ sender channel text marking, .message sender channel text marking ∈ new → P sender

theorem Reports.rfl {P : Fingerprint → Prop} : Reports m m P :=
  ⟨[], (List.append_nil _).symm, fun _ _ _ _ h => by cases h⟩

theorem reports_onIdentity (S : Scheme) (fingerprint : IdentityPublic → Fingerprint) (m : Links) (k : Nat) (l : Loop)
    (now : UInt64) (bytes : Bytes) :
    Reports m (m.onIdentity S fingerprint k l now bytes) fun _ => False := by
  have hnone := (Gate.handleIdentity_frame S fingerprint m.gate l.fingerprint now bytes).2
  rw [onIdentity]
  cases (m.gate.handleIdentity S fingerprint l.fingerprint now bytes).2.2 with
  | allowed => exact ⟨_, Eq.refl _, hnone⟩
  | ignored => exact ⟨_, Eq.refl _, hnone⟩
  | rejected =>
    refine ⟨(m.gate.handleIdentity S fingerprint l.fingerprint now bytes).2.1 ++ [Notice.disconnected l.fingerprint],
      List.append_assoc m.notices _ _, fun sender channel text marking h => ?_⟩
    rcases List.mem_append.mp h with h | h
    · exact hnone sender channel text marking h
    · cases List.mem_singleton.mp h

theorem reports_onFrame (S : Scheme) (fingerprint : IdentityPublic → Fingerprint) (m : Links) (k : Nat) (l : Loop)
    (peer : Fingerprint) (now : UInt64) (f : Option WireFrame) :
    Reports m (m.onFrame S fingerprint k l peer now f) fun sender => sender = peer ∧ isIdentity f = false := by
  unfold onFrame
  split
  · split
    · refine ⟨_, Eq.refl _, fun sender channel text marking h => ?_⟩
      cases List.mem_singleton.mp h
      exact ⟨Eq.refl _, Eq.refl _⟩
    · exact .rfl
  · split
    · obtain ⟨new, hnew, hnone⟩ := reports_onIdentity S fingerprint m k l now ‹Bytes›
      exact ⟨new, hnew, fun sender channel text marking h => (hnone sender channel text marking h).elim⟩
    · exact .rfl
  · split
    · refine ⟨_, Eq.refl _, fun sender channel text marking h => ?_⟩
      cases List.mem_singleton.mp h
    · exact .rfl
  · split
    · exact .rfl
    · exact .rfl
  · exact .rfl

theorem unwrap_pairwise (hconfig : m.config = .pairwise) (bytes : Bytes) :
    m.unwrap l bytes = some (l.fingerprint, bytes) := by
  rw [unwrap, hconfig]
  rfl

theorem reports_onPayload (S : Scheme) (fingerprint : IdentityPublic → Fingerprint) (k : Nat) (l : Loop)
    (hconfig : m.config = .pairwise) (now : UInt64) (bytes : Bytes) :
    Reports m (m.onPayload S fingerprint k l now bytes) fun sender => sender = l.fingerprint ∧ l.approved = true := by
  rw [onPayload, unwrap_pairwise hconfig]
  dsimp only
  split
  · exact .rfl
  · next hgate =>
    obtain ⟨new, hnew, hsender⟩ := reports_onFrame S fingerprint m k l l.fingerprint now (WireFrame.decode bytes)
    refine ⟨new, hnew, fun sender channel text marking h => ?_⟩
    obtain ⟨hfrom, hchat⟩ := hsender sender channel text marking h
    refine ⟨hfrom, ?_⟩
    cases happ : l.approved with
    | true => rfl
    | false => exact absurd ⟨by rw [hconfig]; rfl, happ, hchat⟩ hgate

variable {a : Act}

theorem approved_of_surfaces (hconfig : m.config = .pairwise) {sender : Fingerprint}
    (h : m.Surfaces S fingerprint a sender) :
    ∃ k l, m.running k = some l ∧ l.approved = true ∧ l.fingerprint = sender := by
  have hreports : Reports m (m.step S fingerprint a) fun sender =>
      ∃ k l, m.running k = some l ∧ l.approved = true ∧ l.fingerprint = sender := by
    cases a with
    | register peer =>
      refine ⟨_, Eq.refl _, fun sender channel text marking h => ?_⟩
      cases List.mem_singleton.mp h
    | start k =>
      rw [step]
      cases m.loops.lookup k with
      | none => exact .rfl
      | some l =>
        dsimp only
        split <;> exact .rfl
    | failed k =>
      rw [step]
      cases m.running k with
      | none => exact .rfl
      | some l =>
        refine ⟨_, Eq.refl _, fun sender channel text marking h => ?_⟩
        cases List.mem_singleton.mp h
    | garbled k =>
      rw [step]
      cases m.running k with
      | none => exact .rfl
      | some l =>
        dsimp only
        rw [onGarbled]
        split
        · refine ⟨[.error "frame failed to decrypt", .disconnected l.fingerprint], List.append_assoc _ _ _,
            fun sender channel text marking h => ?_⟩
          simp at h
        · refine ⟨_, Eq.refl _, fun sender channel text marking h => ?_⟩
          cases List.mem_singleton.mp h
    | payload k now bytes =>
      cases hrun : m.running k with
      | none =>
        rw [step, hrun]
        exact .rfl
      | some l =>
        rw [step, hrun]
        obtain ⟨new, hnew, hsender⟩ := reports_onPayload (m := m.setLoop k { l with decryptFailures := 0 }) S fingerprint k
          { l with decryptFailures := 0 } hconfig now bytes
        refine ⟨new, hnew, fun sender channel text marking h => ?_⟩
        obtain ⟨rfl, happ⟩ := hsender sender channel text marking h
        exact ⟨k, l, hrun, happ, Eq.refl _⟩
    | dropStranger peer => exact .rfl
    | call c => exact .rfl
  obtain ⟨new, hnew, hsender⟩ := hreports
  obtain ⟨channel, text, marking, hmem⟩ := h
  rw [hnew, List.drop_left] at hmem
  exact hsender sender channel text marking hmem

theorem onPayload_chat (hconfig : m.config = .pairwise) (happ : l.approved = true) (now : UInt64) :
    m.onPayload S fingerprint k l now (WireFrame.chat "" "" none).encode =
      m.report [.message l.fingerprint "" "" none] := by
  have hdecode : WireFrame.decode (WireFrame.chat "" "" none).encode = some (.chat "" "" none) := by decide +kernel
  rw [onPayload, unwrap_pairwise hconfig]
  dsimp only
  rw [if_neg (by simp [happ]), hdecode, onFrame, if_pos (by rw [hconfig]; rfl)]

theorem surfaces_of_approved (hconfig : m.config = .pairwise) (hrun : m.running k = some l)
    (happ : l.approved = true) :
    m.Surfaces S fingerprint (.payload k 0 (WireFrame.chat "" "" none).encode) l.fingerprint := by
  refine ⟨"", "", none, ?_⟩
  rw [step, hrun]
  dsimp only
  rw [onPayload_chat (m := m.setLoop k _) (l := { l with decryptFailures := 0 }) hconfig happ, report, setLoop, List.drop_left]
  exact List.mem_singleton.mpr rfl

/-- Every approved connection is that of a cleared peer. -/
def Sound (fingerprint : IdentityPublic → Fingerprint) (m : Links) : Prop :=
  ∀ k l, m.running k = some l → l.approved = true → m.Cleared fingerprint l.fingerprint

theorem lawful_iff_sound (hconfig : m.config = .pairwise) : m.Lawful S fingerprint ↔ m.Sound fingerprint := by
  constructor
  · intro h k l hrun happ
    exact h _ _ (surfaces_of_approved hconfig hrun happ)
  · intro h a sender hsurfaces
    obtain ⟨k, l, hrun, happ, rfl⟩ := approved_of_surfaces hconfig hsurfaces
    exact h k l hrun happ

theorem Goes.approved_of_running (h : Goes fingerprint m m' k l l') (hrun : m.running k = some l) {j : Nat} {lj : Loop}
    (hj : m'.running j = some lj) (happ : lj.approved = true) :
    (∃ l, m.running j = some l ∧ l.approved = true ∧ lj.fingerprint = l.fingerprint) ∨
      m'.Cleared fingerprint lj.fingerprint := by
  obtain ⟨hlookup, hstarted⟩ := running_eq_some.mp hj
  rw [h.loops] at hlookup
  split at hlookup
  · next hjk =>
    cases hlookup
    rcases h.approved happ with hold | hcleared
    · exact .inl ⟨l, hjk ▸ hrun, hold, h.fingerprint_eq⟩
    · exact .inr (h.fingerprint_eq ▸ hcleared)
  · exact .inl ⟨lj, running_eq_some.mpr ⟨hlookup, hstarted⟩, happ, rfl⟩

theorem approved_of_step {j : Nat} {lj : Loop} (hj : (m.step S fingerprint a).running j = some lj)
    (happ : lj.approved = true) :
    (∃ l, m.running j = some l ∧ l.approved = true ∧ lj.fingerprint = l.fingerprint) ∨
      (m.step S fingerprint a).Cleared fingerprint lj.fingerprint := by
  -- loops that are the same or gone were approved before
  have hsub (m' : Links) (hl : ∀ l, m'.loops.lookup j = some l → m.loops.lookup j = some l)
      (hj : m'.running j = some lj) : ∃ l, m.running j = some l ∧ l.approved = true ∧ lj.fingerprint = l.fingerprint := by
    obtain ⟨hlookup, hstarted⟩ := running_eq_some.mp hj
    exact ⟨lj, running_eq_some.mpr ⟨hl lj hlookup, hstarted⟩, happ, rfl⟩
  have herased {k : Nat} {m' : Links} (hl : ∀ i, m'.loops.lookup i = if i = k then none else m.loops.lookup i)
      (l : Loop) (h : m'.loops.lookup j = some l) : m.loops.lookup j = some l := by
    rw [hl] at h
    split at h
    · cases h
    · exact h
  cases a with
  | register peer =>
    obtain ⟨hlookup, hstarted⟩ := running_eq_some.mp hj
    rw [step, report, Table.lookup_insert_eq] at hlookup
    split at hlookup
    · cases hlookup
      cases hstarted
    · exact .inl ⟨lj, running_eq_some.mpr ⟨hlookup, hstarted⟩, happ, rfl⟩
  | start k =>
    rw [step] at hj ⊢
    cases hk : m.loops.lookup k with
    | none =>
      rw [hk] at hj
      exact .inl (hsub m (fun _ h => h) hj)
    | some l =>
      rw [hk] at hj
      dsimp only at hj ⊢
      split at hj
      · exact .inl (hsub m (fun _ h => h) hj)
      · next hnew =>
        obtain ⟨hlookup, hstarted⟩ := running_eq_some.mp hj
        rw [setLoop, Table.lookup_insert_eq] at hlookup
        split at hlookup
        · -- the approval of an open channel
          cases hlookup
          rw [if_neg hnew]
          exact .inr (.inl happ)
        · exact .inl ⟨lj, running_eq_some.mpr ⟨hlookup, hstarted⟩, happ, rfl⟩
  | failed k =>
    left
    rw [step] at hj
    cases hrun : m.running k with
    | none =>
      rw [hrun] at hj
      exact hsub m (fun _ h => h) hj
    | some l =>
      rw [hrun] at hj
      exact hsub _ (herased fun i => Table.lookup_erase_eq _ _ _) hj
  | garbled k =>
    cases hrun : m.running k with
    | none =>
      rw [step, hrun] at hj
      exact .inl (hsub m (fun _ h => h) hj)
    | some l =>
      obtain ⟨l', hgoes⟩ | hdrops := step_garbled S fingerprint hrun
      · exact hgoes.approved_of_running hrun hj happ
      · exact .inl (hsub _ (herased hdrops.loops) hj)
  | payload k now bytes =>
    cases hrun : m.running k with
    | none =>
      rw [step, hrun] at hj
      exact .inl (hsub m (fun _ h => h) hj)
    | some l =>
      obtain ⟨l', hgoes⟩ | hdrops := step_payload S fingerprint now bytes hrun
      · exact hgoes.approved_of_running hrun hj happ
      · exact .inl (hsub _ (herased hdrops.loops) hj)
  | dropStranger peer => exact .inl (hsub _ (fun _ h => h) hj)
  | call c => exact .inl (hsub _ (fun _ h => h) hj)

theorem sound_step_iff : (m.step S fingerprint a).Sound fingerprint ↔ ¬ m.Withdraws S fingerprint a := by
  constructor
  · rintro hsound ⟨k, l, l', -, -, hrun, happ, hfp, hnot⟩
    exact hnot (hfp ▸ hsound k l' hrun happ)
  · intro hkeep j lj hj happ
    rcases approved_of_step hj happ with ⟨l, hl, hlapp, hfp⟩ | hcleared
    · by_contra hnot
      exact hkeep ⟨j, l, lj, hl, hlapp, hj, happ, hfp, hfp ▸ hnot⟩
    · exact hcleared

/-- In a run of a pairwise node, messages are heard from cleared peers only, whatever comes next in any of its states,
exactly if no step takes the admission of a connected and approved peer back. -/
theorem heard_lawfully_iff (gate : Gate) (acts : List Act) :
    Run.Along (step S fingerprint) (fun m a => (m.step S fingerprint a).Lawful S fingerprint) (new .pairwise gate) acts ↔
      Run.Along (step S fingerprint) (fun m a => ¬ m.Withdraws S fingerprint a) (new .pairwise gate) acts := by
  refine Run.along_congr (I := fun m => m.config = .pairwise) (fun m a hconfig => ?_) (fun m a hconfig _ => ?_) rfl
  · rw [lawful_iff_sound ((step_config a).trans hconfig), sound_step_iff]
  · exact (step_config a).trans hconfig

/-- A peer connects to an open channel; then the channel is restricted to no account at all; the peer is still heard. -/
theorem heard_after_restriction :
    let m := [Act.register peerFp, .start 0, .call (.restrictToAccounts ∅)].foldl
      (step Scheme.plain Env.plain.fingerprint) (new .pairwise ⟨.everyone, none, [], ∅, ∅⟩)
    m.Surfaces Scheme.plain Env.plain.fingerprint (.payload 0 1000 (WireFrame.chat "general" "hi" none).encode) peerFp ∧
      ¬ m.Cleared Env.plain.fingerprint peerFp := by
  refine ⟨⟨"general", "hi", none, by decide +kernel⟩, ?_⟩
  rintro (hwaived | ⟨chain, hchain, -⟩)
  · cases hwaived
  · cases hchain

/-! ## The table of peers -/

/-- The table has an entry for every stream whose loop has not ended and no other, and a lookup by the fingerprint of
such a stream finds one. -/
structure Tracks (m : Links) : Prop where
  live : ∀ p ∈ m.peers, ∃ l, m.loops.lookup p.stream = some l ∧ l.fingerprint = p.fingerprint
  listed : ∀ k l, m.loops.lookup k = some l → ⟨l.fingerprint, k⟩ ∈ m.peers
  handles : ∀ k l, m.loops.lookup k = some l → ∃ k' l', m.peerHandles l.fingerprint = some k' ∧
    m.pendingFor l.fingerprint = some k' ∧ m.loops.lookup k' = some l' ∧ l'.fingerprint = l.fingerprint

def Alone (m : Links) (k : Nat) : Prop :=
  ∀ l, m.loops.lookup k = some l → ∀ k' l', m.loops.lookup k' = some l' → l'.fingerprint = l.fingerprint → k' = k

/-- No stream fails, a stream is dropped only if it is the only one of its peer, and no stranger is dropped while
connected. -/
def Orderly (S : Scheme) (fingerprint : IdentityPublic → Fingerprint) (m : Links) : Act → Prop
  | .failed k => m.running k = none
  | .garbled k => (m.step S fingerprint (.garbled k)).loops.lookup k = none → m.Alone k
  | .payload k now bytes => (m.step S fingerprint (.payload k now bytes)).loops.lookup k = none → m.Alone k
  | .dropStranger peer => ∀ k l, m.loops.lookup k = some l → l.fingerprint ≠ peer
  | _ => True

theorem Tracks.mk' (live : ∀ p ∈ m.peers, ∃ l, m.loops.lookup p.stream = some l ∧ l.fingerprint = p.fingerprint)
    (listed : ∀ k l, m.loops.lookup k = some l → ⟨l.fingerprint, k⟩ ∈ m.peers) : m.Tracks := by
  refine ⟨live, listed, fun k l hk => ?_⟩
  cases hfind : m.peers.find? (·.fingerprint = l.fingerprint) with
  | none =>
    have hnot := List.find?_eq_none.mp hfind _ (listed k l hk)
    simp at hnot
  | some p =>
    have hfp : p.fingerprint = l.fingerprint := by simpa using List.find?_some hfind
    obtain ⟨l', hl', hl'fp⟩ := live p (List.mem_of_find?_eq_some hfind)
    exact ⟨p.stream, l', by rw [peerHandles, hfind]; rfl, by rw [pendingFor, hfind]; rfl, hl', hl'fp.trans hfp⟩

theorem Tracks.congr (h : m.Tracks) (hp : m'.peers = m.peers)
    (hl : ∀ k, (m'.loops.lookup k).map (·.fingerprint) = (m.loops.lookup k).map (·.fingerprint)) : m'.Tracks := by
  refine .mk' (fun p hmem => ?_) (fun k l hk => ?_)
  · rw [hp] at hmem
    obtain ⟨l, hlookup, hfp⟩ := h.live p hmem
    have hsame := hl p.stream
    rw [hlookup, Option.map_some] at hsame
    obtain ⟨l', hl', hl'fp⟩ := Option.map_eq_some_iff.mp hsame
    exact ⟨l', hl', hl'fp.trans hfp⟩
  · have hsame := (hl k).symm
    rw [hk, Option.map_some] at hsame
    obtain ⟨l', hl', hl'fp⟩ := Option.map_eq_some_iff.mp hsame
    rw [hp, ← hl'fp]
    exact h.listed k l' hl'

theorem Goes.map_fingerprint (h : Goes fingerprint m m' k l l') (hk : m.loops.lookup k = some l) (j : Nat) :
    (m'.loops.lookup j).map (·.fingerprint) = (m.loops.lookup j).map (·.fingerprint) := by
  rw [h.loops]
  split
  · next hj =>
    rw [hj, hk, Option.map_some, Option.map_some, h.fingerprint_eq]
  · rfl

/-- When the entries of a peer are removed and the streams in `gone` end, all of them of that peer, the table still
tracks the streams exactly if no stream of the peer goes on. -/
theorem Tracks.filter_iff (h : m.Tracks) {peer : Fingerprint} (gone : Nat → Prop)
    (hp : m'.peers = m.peers.filter (·.fingerprint ≠ peer))
    (hl : ∀ k l, m'.loops.lookup k = some l ↔ m.loops.lookup k = some l ∧ ¬ gone k)
    (hgone : ∀ k l, m.loops.lookup k = some l → gone k → l.fingerprint = peer) :
    m'.Tracks ↔ ∀ k l, m.loops.lookup k = some l → l.fingerprint = peer → gone k := by
  have hmem (p : Peer) : p ∈ m'.peers ↔ p ∈ m.peers ∧ p.fingerprint ≠ peer := by
    rw [hp, List.mem_filter, decide_eq_true_iff]
  constructor
  · intro h' k l hk hfp
    by_contra hstays
    have hentry := (hmem _).mp (h'.listed k l ((hl k l).mpr ⟨hk, hstays⟩))
    exact hentry.2 hfp
  · intro hall
    refine .mk' (fun p hpm => ?_) (fun k l hk => ?_)
    · obtain ⟨hpm, hother⟩ := (hmem p).mp hpm
      obtain ⟨l, hlookup, hfp⟩ := h.live p hpm
      refine ⟨l, (hl _ l).mpr ⟨hlookup, fun hg => ?_⟩, hfp⟩
      exact hother (hfp ▸ hgone _ l hlookup hg)
    · obtain ⟨hk, hstays⟩ := (hl k l).mp hk
      exact (hmem _).mpr ⟨h.listed k l hk, fun hfp => hstays (hall k l hk hfp)⟩

theorem Drops.tracks_iff_alone (h : m.Tracks) (hdrops : Drops m m' k l.fingerprint) (hk : m.loops.lookup k = some l) :
    m'.Tracks ↔ m.Alone k := by
  have hl : ∀ j lj, m'.loops.lookup j = some lj ↔ m.loops.lookup j = some lj ∧ ¬ j = k := by
    intro j lj
    rw [hdrops.loops]
    split
    · next hj => simp [hj]
    · next hj => simp [hj]
  have hgone : ∀ j lj, m.loops.lookup j = some lj → j = k → lj.fingerprint = l.fingerprint := by
    rintro j lj hj rfl
    rw [hk] at hj
    cases hj
    rfl
  rw [h.filter_iff (· = k) hdrops.peers hl hgone]
  constructor
  · intro hall l' hl'
    rw [hk] at hl'
    cases hl'
    exact hall
  · intro halone
    exact halone l hk

theorem tracks_of_cases (h : m.Tracks) (hk : m.loops.lookup k = some l)
    (hcases : (∃ l', Goes fingerprint m m' k l l') ∨ Drops m m' k l.fingerprint) :
    m'.Tracks ↔ (m'.loops.lookup k = none → m.Alone k) := by
  obtain ⟨l', hgoes⟩ | hdrops := hcases
  · have hopen : m'.loops.lookup k = some l' := (hgoes.loops k).trans (if_pos rfl)
    rw [hopen]
    simp only [reduceCtorEq, IsEmpty.forall_iff, iff_true]
    exact h.congr hgoes.peers (hgoes.map_fingerprint hk)
  · have hended : m'.loops.lookup k = none := (hdrops.loops k).trans (if_pos rfl)
    rw [hended, hdrops.tracks_iff_alone h hk]
    simp

def Numbered (m : Links) : Prop := ∀ k, m.streams ≤ k → m.loops.lookup k = none

theorem Numbered.of_lookup (h : m.Numbered) (hs : m'.streams = m.streams)
    (hl : ∀ k, m.loops.lookup k = none → m'.loops.lookup k = none) : m'.Numbered :=
  fun k hk => hl k (h k (hs ▸ hk))

theorem Numbered.of_cases (h : m.Numbered) (hk : m.loops.lookup k = some l)
    (hcases : (∃ l', Goes fingerprint m m' k l l') ∨ Drops m m' k l.fingerprint) : m'.Numbered := by
  obtain ⟨l', hgoes⟩ | hdrops := hcases
  · refine h.of_lookup hgoes.streams fun j hj => ?_
    rw [hgoes.loops, if_neg, hj]
    rintro rfl
    rw [hj] at hk
    cases hk
  · refine h.of_lookup hdrops.streams fun j hj => ?_
    rw [hdrops.loops, hj, ite_self]

theorem start_cases (S : Scheme) (fingerprint : IdentityPublic → Fingerprint) (m : Links) (k : Nat) :
    m.step S fingerprint (.start k) = m ∨ ∃ l, m.loops.lookup k = some l ∧
      m.step S fingerprint (.start k) = m.setLoop k { l with started := true, approved := m.gate.waived } := by
  rw [step]
  cases hk : m.loops.lookup k with
  | none => exact .inl rfl
  | some l =>
    dsimp only
    split
    · exact .inl rfl
    · exact .inr ⟨l, rfl, rfl⟩

theorem Numbered.step (h : m.Numbered) (a : Act) : (m.step S fingerprint a).Numbered := by
  cases a with
  | register peer =>
    intro k hk
    rw [Links.step, report, Table.lookup_insert_eq, if_neg (Nat.ne_of_gt hk)]
    exact h k (Nat.le_of_succ_le hk)
  | start k =>
    obtain heq | ⟨l, hk, heq⟩ := start_cases S fingerprint m k
    · rw [heq]
      exact h
    · rw [heq]
      refine h.of_lookup rfl fun j hj => ?_
      rw [setLoop, Table.lookup_insert_eq, if_neg, hj]
      rintro rfl
      rw [hj] at hk
      cases hk
  | failed k =>
    rw [Links.step]
    cases m.running k with
    | none => exact h
    | some l =>
      refine h.of_lookup rfl fun j hj => ?_
      exact (Table.lookup_erase_eq _ _ _).trans (by rw [hj, ite_self])
  | garbled k =>
    cases hrun : m.running k with
    | none =>
      rw [Links.step, hrun]
      exact h
    | some l => exact h.of_cases (running_eq_some.mp hrun).1 (step_garbled S fingerprint hrun)
  | payload k now bytes =>
    cases hrun : m.running k with
    | none =>
      rw [Links.step, hrun]
      exact h
    | some l => exact h.of_cases (running_eq_some.mp hrun).1 (step_payload S fingerprint now bytes hrun)
  | dropStranger peer => exact h
  | call c => exact h

theorem Tracks.register (h : m.Tracks) (hn : m.Numbered) (peer : Fingerprint) :
    (m.step S fingerprint (.register peer)).Tracks := by
  have hlookup (k : Nat) : (m.step S fingerprint (.register peer)).loops.lookup k =
      if k = m.streams then some ⟨peer, false, false, 0⟩ else m.loops.lookup k := Table.lookup_insert_eq _ _ _ _
  refine .mk' (fun p hp => ?_) (fun k l hk => ?_)
  · rcases List.mem_append.mp hp with hp | hp
    · obtain ⟨l, hl, hfp⟩ := h.live p hp
      refine ⟨l, (hlookup _).trans ((if_neg ?_).trans hl), hfp⟩
      -- an old stream is not the new one
      intro hnew
      rw [hn p.stream hnew.ge] at hl
      cases hl
    · cases List.mem_singleton.mp hp
      exact ⟨_, (hlookup _).trans (if_pos rfl), rfl⟩
  · rw [hlookup] at hk
    split at hk
    · next hnew =>
      cases hk
      rw [hnew]
      exact List.mem_append_right _ (List.mem_singleton.mpr rfl)
    · exact List.mem_append_left _ (h.listed k l hk)

theorem not_tracks_failed (h : m.Tracks) (hrun : m.running k = some l) :
    ¬ (m.step S fingerprint (.failed k)).Tracks := by
  intro h'
  have hentry := h.listed k l (running_eq_some.mp hrun).1
  have hstep : m.step S fingerprint (.failed k) = m.endLoop k l.fingerprint := by rw [step, hrun]
  rw [hstep] at h'
  obtain ⟨l', hl', -⟩ := h'.live _ hentry
  have hended : (m.endLoop k l.fingerprint).loops.lookup k = none := (Table.lookup_erase_eq _ _ _).trans (if_pos rfl)
  rw [hended] at hl'
  cases hl'

theorem tracks_step_iff (h : m.Tracks) (hn : m.Numbered) (a : Act) :
    (m.step S fingerprint a).Tracks ↔ m.Orderly S fingerprint a := by
  cases a with
  | register peer => exact iff_of_true (h.register hn peer) trivial
  | start k =>
    refine iff_of_true ?_ trivial
    obtain heq | ⟨l, hk, heq⟩ := start_cases S fingerprint m k
    · rw [heq]
      exact h
    · rw [heq]
      refine h.congr rfl fun j => ?_
      rw [setLoop, Table.lookup_insert_eq]
      split
      · next hj => rw [hj, hk, Option.map_some, Option.map_some]
      · rfl
  | failed k =>
    cases hrun : m.running k with
    | none =>
      rw [step, hrun]
      exact iff_of_true h hrun
    | some l =>
      refine iff_of_false (not_tracks_failed h hrun) fun hnone => ?_
      rw [Orderly, hrun] at hnone
      cases hnone
  | garbled k =>
    cases hrun : m.running k with
    | none =>
      rw [Orderly, step, hrun]
      exact iff_of_true h fun hnone l hl => by rw [hnone] at hl; cases hl
    | some l => exact tracks_of_cases h (running_eq_some.mp hrun).1 (step_garbled S fingerprint hrun)
  | payload k now bytes =>
    cases hrun : m.running k with
    | none =>
      rw [Orderly, step, hrun]
      exact iff_of_true h fun hnone l hl => by rw [hnone] at hl; cases hl
    | some l => exact tracks_of_cases h (running_eq_some.mp hrun).1 (step_payload S fingerprint now bytes hrun)
  | dropStranger peer =>
    refine (h.filter_iff (fun _ => False) rfl (fun k l => ?_) fun _ _ _ hg => hg.elim).trans Iff.rfl
    simp [step, dropPeer]
  | call c => exact iff_of_true (h.congr rfl fun _ => rfl) trivial

/-- The table tracks the open streams after every step of a run exactly if the run is orderly. -/
theorem tracks_iff (config : Config) (gate : Gate) (acts : List Act) :
    Run.Along (step S fingerprint) (fun m a => (m.step S fingerprint a).Tracks) (new config gate) acts ↔
      Run.Along (step S fingerprint) (Orderly S fingerprint) (new config gate) acts := by
  have hstart : (new config gate).Tracks := .mk' (List.forall_mem_nil _) fun k l hk => by cases hk
  exact Run.along_congr (I := fun m => m.Tracks ∧ m.Numbered) (fun m a h => tracks_step_iff h.1 h.2 a)
    (fun m a h htracks => ⟨htracks, h.2.step a⟩) ⟨hstart, fun _ _ => rfl⟩

/-- A stream of a peer fails and the peer connects again: a lookup finds the stream that has ended. And of two open
streams of a peer, one that does not decrypt takes the entry of the other with it. -/
theorem stale_entry_hides_stream :
    let start := new .pairwise ⟨.everyone, none, [], ∅, ∅⟩
    let again := [Act.register peerFp, .start 0, .failed 0, .register peerFp, .start 1].foldl
      (step Scheme.plain Env.plain.fingerprint) start
    let twice := ([Act.register peerFp, .start 0, .register peerFp, .start 1] ++ List.replicate 8 (Act.garbled 0)).foldl
      (step Scheme.plain Env.plain.fingerprint) start
    (again.peerHandles peerFp = some 0 ∧ again.running 0 = none ∧ (again.running 1).isSome = true ∧ ¬ again.Tracks) ∧
    twice.peers = [] ∧ (twice.running 1).isSome = true ∧ ¬ twice.Tracks := by
  refine ⟨⟨by decide +kernel, by decide +kernel, by decide +kernel, fun h => ?_⟩, by decide +kernel, by decide +kernel,
    fun h => ?_⟩
  · obtain ⟨l, hl, -⟩ := h.live ⟨peerFp, 0⟩ (by decide +kernel)
    cases hl
  · cases h.listed 1 ⟨peerFp, true, true, 0⟩ (by decide +kernel)

end Links
end Talkrypt.Core
