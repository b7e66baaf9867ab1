import Talkrypt.Core.ReaderLoop

/-!
# The relay (`crates/core/src/relay.rs`)

A relay ends the sessions of its participants and forwards what they send to whom it is addressed. Each stream has a
loop, and the loops run side by side: between two targets of one frame any other loop may go on. A frame whose inner
payload the relay remembers is dropped, whoever it is for and whoever got it before, and a frame for a participant
whose session cannot send yet is dropped for it (`dropped`). A frame that is new to the relay goes once to each
registered participant that it is addressed to, if their sessions can send (`forwarded`).

Loops encrypt and write in one step. Frames of two loops for one participant may reach its stream in the other
order; nothing here depends on that order.
-/

namespace Talkrypt.Core

namespace Routed

def putDest : Route → Bytes
  | .broadcast => putU8 0
  | .peer fp => putU8 1 ++ putBytes fp.1
  | .committer => putU8 2

def encode (r : Routed) : Bytes := putDest r.dest ++ putBytes r.sender.1 ++ putBytes r.inner

end Routed

structure SessionHandle where
  Session : Type
  encrypt : Session → Bytes → Session × Except CryptoError Bytes
  decrypt : Session → Bytes → Session × Except CryptoError Bytes
  canSend : Session → Bool

def SessionHandle.Lawful (H : SessionHandle) : Prop :=
  ∀ {s : H.Session} (m : Bytes), H.canSend s = true → ∃ ct, (H.encrypt s m).2 = .ok ct

namespace Relay

structure RelayPeer where
  fp : Fingerprint
  /-- The stream whose writer and session the entry holds. -/
  stream : Nat
deriving DecidableEq

inductive Phase where
  | listening
  /-- Some of the streams that the frame is addressed to have it, the rest follow. -/
  | forwarding (fwd : Routed) (addressed written rest : List Nat)
  | ended

structure Stream (H : SessionHandle) where
  fp : Fingerprint
  session : H.Session
  phase : Phase
  out : List Bytes

/-- A frame that a loop is done with: which registered streams it was addressed to, and which it was written to. -/
structure Handled where
  stream : Nat
  fwd : Routed
  addressed : List Nat
  written : List Nat

structure Switch (H : SessionHandle) where
  peers : List RelayPeer
  committer : Option Fingerprint
  seen : SeenSet
  streams : Table Nat (Stream H)
  accepted : Nat
  handled : List Handled

inductive Event (H : SessionHandle) where
  | accept (fp : Fingerprint) (session : H.Session)
  | frame (k : Nat) (bytes : Bytes)
  | forward (k : Nat)
  | hangup (k : Nat)

def Event.isForward {H : SessionHandle} (k : Nat) : Event H → Bool
  | .forward j => j = k
  | _ => false

namespace Switch
variable {H : SessionHandle}

def new (H : SessionHandle) : Switch H := ⟨[], none, .new, ∅, 0, []⟩

def setStream (s : Switch H) (k : Nat) (st : Stream H) : Switch H := { s with streams := s.streams.insert k st }

def accept (s : Switch H) (fp : Fingerprint) (session : H.Session) : Switch H :=
  { s with
    peers := s.peers ++ [⟨fp, s.accepted⟩]
    -- the first participant is the committer
    committer := if s.committer.isNone then some fp else s.committer
    streams := s.streams.insert s.accepted ⟨fp, session, .listening, []⟩
    accepted := s.accepted + 1 }

/-- The registered streams that a frame is addressed to. -/
def targets (s : Switch H) (dest : Route) (senderFp : Fingerprint) : List Nat :=
  (s.peers.filter fun p =>
    match dest with
    | .broadcast => p.fp ≠ senderFp
    | .peer dst => p.fp = dst
    | .committer => some p.fp = s.committer ∧ p.fp ≠ senderFp).map RelayPeer.stream

/-- The loop of stream `k` goes on with the remaining targets, or back to its stream. -/
def proceed (s : Switch H) (k : Nat) (st : Stream H) (fwd : Routed) (addressed written rest : List Nat) : Switch H :=
  match rest with
  | [] =>
    { s.setStream k { st with phase := .listening } with
      handled := s.handled ++ [⟨k, fwd, addressed, written⟩] }
  | t :: rest => s.setStream k { st with phase := .forwarding fwd addressed written (t :: rest) }

def reads (st : Stream H) (bytes : Bytes) : Option Routed :=
  match (H.decrypt st.session bytes).2 with
  | .error _ => none
  | .ok pt => Routed.decode pt

variable (gossipId : Bytes → Gid)

/-- One turn of the loop of stream `k`, up to its first target. -/
def onFrame (s : Switch H) (k : Nat) (st : Stream H) (bytes : Bytes) : Switch H :=
  let st' := { st with session := (H.decrypt st.session bytes).1 }
  match reads st bytes with
  | none => s.setStream k st'
  | some routed =>
    let fwd := { routed with sender := st.fp }
    let addressed := s.targets routed.dest st.fp
    match s.seen.insert (gossipId routed.inner) with
    | (seen, false) =>
      { s.setStream k st' with seen, handled := s.handled ++ [⟨k, fwd, addressed, []⟩] }
    | (seen, true) => { s with seen }.proceed k st' fwd addressed [] addressed

/-- The loop of stream `k` encrypts for target `t` and writes to its stream. -/
def onTarget (s : Switch H) (k t : Nat) (fwd : Routed) (addressed written rest : List Nat) : Switch H :=
  match s.streams.lookup t with
  | none => s
  | some target =>
    let r := H.encrypt target.session fwd.encode
    let (out, written) :=
      match r.2 with
      | .error _ => (target.out, written)
      | .ok ct => (target.out ++ [ct], written ++ [t])
    let s := s.setStream t { target with session := r.1, out }
    match s.streams.lookup k with
    | none => s
    | some st => s.proceed k st fwd addressed written rest

def step (s : Switch H) : Event H → Switch H
  | .accept fp session => s.accept fp session
  | .frame k bytes =>
    match s.streams.lookup k with
    | none => s
    | some st =>
      match st.phase with
      | .listening => s.onFrame gossipId k st bytes
      | _ => s
  | .forward k =>
    match s.streams.lookup k with
    | none => s
    | some st =>
      match st.phase with
      | .forwarding fwd addressed written (t :: rest) => s.onTarget k t fwd addressed written rest
      | _ => s
  | .hangup k =>
    match s.streams.lookup k with
    | none => s
    | some st =>
      match st.phase with
      | .listening =>
        { s.setStream k { st with phase := .ended } with peers := s.peers.filter (·.fp ≠ st.fp) }
      | _ => s

def run (evs : List (Event H)) : Switch H := evs.foldl (step gossipId) (new H)

/-! ## What participants get -/

variable {gossipId}

/-- The frame was written to stream `t`, encrypted for it. -/
def Received (s : Switch H) (t : Nat) (fwd : Routed) : Prop :=
  ∃ st ct session, s.streams.lookup t = some st ∧ ct ∈ st.out ∧ (H.encrypt session fwd.encode).2 = .ok ct

/-- Each frame was written at most once to a stream, and to each registered stream that it was addressed to and that
had not been written the same payload under that address. -/
def Delivered (s : Switch H) : Prop :=
  ∀ pre h post, s.handled = pre ++ h :: post → h.written.Nodup ∧ (∀ t ∈ h.written, s.Received t h.fwd) ∧
    ∀ t ∈ h.addressed, t ∈ h.written ∨
      ∃ h' ∈ pre, h'.fwd.dest = h.fwd.dest ∧ h'.fwd.inner = h.fwd.inner ∧ t ∈ h'.written

/-- The steps considered: a frame that is read is not remembered, and the session of a target can send. -/
def Ready (gossipId : Bytes → Gid) (s : Switch H) : Event H → Prop
  | .frame k bytes => ∀ st routed, s.streams.lookup k = some st → st.phase = .listening → reads st bytes = some routed →
    gossipId routed.inner ∉ s.seen.set
  | .forward k => ∀ st fwd addressed written t rest target, s.streams.lookup k = some st →
    st.phase = .forwarding fwd addressed written (t :: rest) → s.streams.lookup t = some target →
    H.canSend target.session = true
  | _ => True

section Lemmas
variable {s s' : Switch H} {k t : Nat} {st st' : Stream H} {fwd : Routed} {addressed written rest : List Nat}

@[simp] theorem lookup_setStream : (s.setStream k st).streams.lookup t = if t = k then some st else s.streams.lookup t :=
  Table.lookup_insert_eq ..

def Grows (s s' : Switch H) : Prop :=
  ∀ t st, s.streams.lookup t = some st → ∃ st', s'.streams.lookup t = some st' ∧ st.out ⊆ st'.out

theorem Grows.refl (s : Switch H) : s.Grows s := fun _ st h => ⟨st, h, List.Subset.refl _⟩

theorem Grows.setStream (hst : s.streams.lookup k = some st) (hout : st.out ⊆ st'.out) :
    s.Grows (s.setStream k st') := by
  intro t st₀ ht
  rw [lookup_setStream]
  by_cases htk : t = k
  · subst htk
    cases hst.symm.trans ht
    exact ⟨st', if_pos rfl, hout⟩
  · exact ⟨st₀, (if_neg htk).trans ht, List.Subset.refl _⟩

theorem Received.mono (h : s.Received t fwd) (hgrows : s.Grows s') : s'.Received t fwd := by
  obtain ⟨st, ct, session, hst, hct, hencrypt⟩ := h
  obtain ⟨st', hst', hout⟩ := hgrows t st hst
  exact ⟨st', ct, session, hst', hout hct, hencrypt⟩

/-- A frame that goes to `addressed` has reached the beginning of that list. -/
structure Underway (s : Switch H) (fwd : Routed) (addressed written rest : List Nat) : Prop where
  split : addressed = written ++ rest
  nodup : addressed.Nodup
  known : ∀ t ∈ addressed, s.streams.lookup t ≠ none
  received : ∀ t ∈ written, s.Received t fwd

theorem Underway.mono (h : s.Underway fwd addressed written rest) (hgrows : s.Grows s') :
    s'.Underway fwd addressed written rest where
  split := h.split
  nodup := h.nodup
  known t ht := by
    obtain ⟨st, hst⟩ := Option.ne_none_iff_exists'.mp (h.known t ht)
    obtain ⟨st', hst', -⟩ := hgrows t st hst
    exact hst' ▸ Option.some_ne_none st'
  received t ht := (h.received t ht).mono hgrows

structure Inv (s : Switch H) : Prop where
  nodup : (s.peers.map RelayPeer.stream).Nodup
  peers : ∀ p ∈ s.peers, p.stream < s.accepted
  streams : ∀ k, k < s.accepted ↔ s.streams.lookup k ≠ none
  forwarding : ∀ k st fwd addressed written rest, s.streams.lookup k = some st →
    st.phase = .forwarding fwd addressed written rest → s.Underway fwd addressed written rest
  handled : ∀ h ∈ s.handled, s.Underway h.fwd h.addressed h.written []

theorem Inv.targets (h : s.Inv) (dest : Route) (fp : Fingerprint) :
    (s.targets dest fp).Nodup ∧ ∀ t ∈ s.targets dest fp, s.streams.lookup t ≠ none := by
  constructor
  · exact h.nodup.sublist (List.filter_sublist.map _)
  · intro t ht
    obtain ⟨p, hp, rfl⟩ := List.mem_map.mp ht
    exact (h.streams _).mp (h.peers p (List.mem_filter.mp hp).1)

theorem Inv.setStream (h : s.Inv) (hst : s.streams.lookup k = some st) (hout : st.out ⊆ st'.out)
    (hphase : ∀ fwd addressed written rest, st'.phase = .forwarding fwd addressed written rest →
      s.Underway fwd addressed written rest) : (s.setStream k st').Inv := by
  have hgrows : s.Grows (s.setStream k st') := .setStream hst hout
  refine ⟨h.nodup, h.peers, fun t => ?_, fun t st₀ fwd addressed written rest ht hfwd => ?_, fun h' hmem => ?_⟩
  · rw [lookup_setStream]
    split
    · next htk => exact iff_of_true ((h.streams t).mpr (htk ▸ hst ▸ Option.some_ne_none st)) (Option.some_ne_none _)
    · exact h.streams t
  · rw [lookup_setStream] at ht
    split at ht
    · cases ht
      exact (hphase _ _ _ _ hfwd).mono hgrows
    · exact (h.forwarding t st₀ _ _ _ _ ht hfwd).mono hgrows
  · exact (h.handled h' hmem).mono hgrows

theorem Inv.setSeen (h : s.Inv) (seen : SeenSet) : ({ s with seen } : Switch H).Inv :=
  ⟨h.nodup, h.peers, h.streams, fun k st fwd addressed written rest hk hphase =>
    (h.forwarding k st fwd addressed written rest hk hphase).mono (.refl s),
    fun h' hmem => (h.handled h' hmem).mono (.refl s)⟩

theorem Inv.handle (h : s.Inv) (hdone : s.Underway fwd addressed written []) :
    ({ s with handled := s.handled ++ [⟨k, fwd, addressed, written⟩] } : Switch H).Inv := by
  refine ⟨h.nodup, h.peers, h.streams, fun k st fwd addressed written rest hk hphase => ?_, fun h' hmem => ?_⟩
  · exact (h.forwarding k st fwd addressed written rest hk hphase).mono (.refl s)
  · rcases List.mem_append.mp hmem with hold | hnew
    · exact (h.handled h' hold).mono (.refl s)
    · cases List.mem_singleton.mp hnew
      exact hdone.mono (.refl s)

theorem Inv.proceed (h : s.Inv) (hst : s.streams.lookup k = some st) (hout : st.out ⊆ st'.out)
    (hfwd : s.Underway fwd addressed written rest) : (s.proceed k st' fwd addressed written rest).Inv := by
  cases rest with
  | nil =>
    have hset : (s.setStream k { st' with phase := .listening }).Inv := h.setStream hst hout nofun
    have hgrows : s.Grows (s.setStream k { st' with phase := .listening }) := .setStream hst hout
    exact hset.handle (hfwd.mono hgrows)
  | cons t rest =>
    refine h.setStream hst hout ?_
    rintro _ _ _ _ ⟨⟩
    exact hfwd

theorem Inv.new : (new H).Inv where
  nodup := List.nodup_nil
  peers _ hp := absurd hp List.not_mem_nil
  streams _ := iff_of_false (Nat.not_lt_zero _) (· rfl)
  forwarding _ _ _ _ _ _ hk := nomatch hk
  handled _ hh := absurd hh List.not_mem_nil

theorem Inv.accept (h : s.Inv) (fp : Fingerprint) (session : H.Session) : (s.accept fp session).Inv := by
  have hfresh : s.streams.lookup s.accepted = none := by
    by_contra hne
    exact Nat.lt_irrefl _ ((h.streams _).mpr hne)
  have hlookup (t : Nat) : (s.accept fp session).streams.lookup t =
      if t = s.accepted then some ⟨fp, session, .listening, []⟩ else s.streams.lookup t := Table.lookup_insert_eq ..
  have hgrows : s.Grows (s.accept fp session) := by
    intro t st ht
    have hne : t ≠ s.accepted := by
      rintro rfl
      exact nomatch hfresh.symm.trans ht
    exact ⟨st, by rw [hlookup, if_neg hne, ht], List.Subset.refl _⟩
  refine ⟨?_, fun p hp => ?_, fun k => ?_, fun k st fwd addressed written rest hk hphase => ?_, fun h' hmem => ?_⟩
  · rw [Switch.accept, List.map_append]
    refine h.nodup.append (List.nodup_singleton _) ?_
    rintro k hk hnew
    obtain ⟨p, hp, rfl⟩ := List.mem_map.mp hk
    exact Nat.lt_irrefl _ (List.mem_singleton.mp hnew ▸ h.peers p hp)
  · rcases List.mem_append.mp hp with hold | hnew
    · exact Nat.lt_succ_of_lt (h.peers p hold)
    · rw [List.mem_singleton.mp hnew]
      exact Nat.lt_succ_self _
  · rw [hlookup, show (s.accept fp session).accepted = s.accepted + 1 from rfl]
    split
    · next hk => exact iff_of_true (by omega) (Option.some_ne_none _)
    · next hk =>
      rw [← h.streams k]
      omega
  · rw [hlookup] at hk
    split at hk
    · cases hk
      cases hphase
    · exact (h.forwarding k st fwd addressed written rest hk hphase).mono hgrows
  · exact (h.handled h' hmem).mono hgrows

theorem Inv.hangup (h : s.Inv) (hst : s.streams.lookup k = some st) : ({ s.setStream k { st with phase := .ended } with
    peers := s.peers.filter (·.fp ≠ st.fp) } : Switch H).Inv := by
  have hset : (s.setStream k { st with phase := .ended }).Inv := h.setStream hst (List.Subset.refl _) nofun
  refine ⟨hset.nodup.sublist (List.filter_sublist.map _), fun p hp => ?_, hset.streams, ?_, ?_⟩
  · exact hset.peers p (List.mem_filter.mp hp).1
  · intro k st fwd addressed written rest hk hphase
    exact (hset.forwarding k st fwd addressed written rest hk hphase).mono (.refl _)
  · intro h' hmem
    exact (hset.handled h' hmem).mono (.refl _)

variable {bytes : Bytes} {evs : List (Event H)}

theorem Inv.onFrame (h : s.Inv) (hst : s.streams.lookup k = some st)
    (hnew : ∀ routed, reads st bytes = some routed → gossipId routed.inner ∉ s.seen.set)
    (hphase : st.phase = .listening) : (s.onFrame gossipId k st bytes).Inv := by
  unfold Switch.onFrame
  split
  · refine h.setStream hst (List.Subset.refl _) ?_
    intro _ _ _ _ hfwd
    exact nomatch hphase.symm.trans hfwd
  · next routed hreads =>
    dsimp only
    split
    · next seen hinsert =>
      have htrue := SeenSet.insert_snd_of_not_mem (hnew routed hreads)
      rw [hinsert] at htrue
      cases htrue
    · next seen hinsert =>
      obtain ⟨hnodup, hknown⟩ := h.targets routed.dest st.fp
      have hseen := h.setSeen seen
      exact hseen.proceed hst (List.Subset.refl _) ⟨rfl, hnodup, hknown, fun t ht => absurd ht List.not_mem_nil⟩

theorem Inv.onTarget (hH : H.Lawful) (h : s.Inv) {target : Stream H} (hst : s.streams.lookup k = some st)
    (hphase : st.phase = .forwarding fwd addressed written (t :: rest)) (ht : s.streams.lookup t = some target)
    (hsend : H.canSend target.session = true) : (s.onTarget k t fwd addressed written rest).Inv := by
  obtain ⟨ct, hct⟩ := hH fwd.encode hsend
  have hunderway := h.forwarding k st _ _ _ _ hst hphase
  simp only [Switch.onTarget, ht, hct]
  generalize (H.encrypt target.session fwd.encode).1 = session
  have hout : target.out ⊆ target.out ++ [ct] := List.subset_append_left ..
  have hgrows : s.Grows (s.setStream t { target with session, out := target.out ++ [ct] }) := .setStream ht hout
  have hset : (s.setStream t { target with session, out := target.out ++ [ct] }).Inv := by
    refine h.setStream ht hout ?_
    intro _ _ _ _ hfwd
    exact h.forwarding t target _ _ _ _ ht hfwd
  obtain ⟨st', hst', -⟩ := hgrows k st hst
  rw [hst']
  refine hset.proceed hst' (List.Subset.refl _) ?_
  have hmoved := hunderway.mono hgrows
  refine ⟨by rw [hmoved.split, List.append_assoc]; rfl, hmoved.nodup, hmoved.known, fun t' ht' => ?_⟩
  rcases List.mem_append.mp ht' with hold | hnew
  · exact hmoved.received t' hold
  · rw [List.mem_singleton.mp hnew]
    refine ⟨_, ct, target.session, lookup_setStream.trans (if_pos rfl), ?_, hct⟩
    exact List.mem_append_right _ (List.mem_singleton.mpr rfl)

theorem Inv.step (hH : H.Lawful) (ev : Event H) (h : s.Inv) (hready : s.Ready gossipId ev) : (s.step gossipId ev).Inv := by
  cases ev with
  | accept fp session => exact h.accept fp session
  | frame k bytes =>
    simp only [Switch.step]
    split
    · exact h
    · next st hst =>
      split
      · next hphase => exact h.onFrame hst (fun routed hreads => hready st routed hst hphase hreads) hphase
      · exact h
  | forward k =>
    simp only [Switch.step]
    split
    · exact h
    · next st hst =>
      split
      · next fwd addressed written t rest hphase =>
        have hunderway := h.forwarding k st _ _ _ _ hst hphase
        obtain ⟨target, ht⟩ := Option.ne_none_iff_exists'.mp
          (hunderway.known t (hunderway.split ▸ List.mem_append_right _ List.mem_cons_self))
        exact h.onTarget hH hst hphase ht (hready st _ _ _ _ _ target hst hphase ht)
      · exact h
  | hangup k =>
    simp only [Switch.step]
    split
    · exact h
    · next st hst =>
      split
      · exact h.hangup hst
      · exact h

theorem Inv.delivered (h : s.Inv) : s.Delivered := by
  intro pre h' post heq
  have hdone := h.handled h' (heq ▸ List.mem_append_right _ List.mem_cons_self)
  have hall : h'.addressed = h'.written := hdone.split.trans (List.append_nil _)
  exact ⟨hall ▸ hdone.nodup, hdone.received, fun t ht => .inl (hall ▸ ht)⟩

/-! ## Loops get on -/

theorem lookup_proceed_of_ne (hne : t ≠ k) : (s.proceed k st fwd addressed written rest).streams.lookup t =
    s.streams.lookup t := by
  cases rest with
  | nil => exact lookup_setStream.trans (if_neg hne)
  | cons _ rest => exact lookup_setStream.trans (if_neg hne)

theorem handled_proceed : s.handled ⊆ (s.proceed k st fwd addressed written rest).handled := by
  cases rest with
  | nil => exact List.subset_append_left ..
  | cons _ rest => exact List.Subset.refl _

theorem handled_onTarget : s.handled ⊆ (s.onTarget k t fwd addressed written rest).handled := by
  unfold Switch.onTarget
  split
  · exact List.Subset.refl _
  · dsimp only
    split
    · exact List.Subset.refl _
    · exact handled_proceed (s := s.setStream t _)

theorem handled_onFrame : s.handled ⊆ (s.onFrame gossipId k st bytes).handled := by
  unfold Switch.onFrame
  split
  · exact List.Subset.refl _
  · dsimp only
    split
    · exact List.subset_append_left ..
    · next seen _ => exact handled_proceed (s := { s with seen })

theorem handled_step (ev : Event H) : s.handled ⊆ (s.step gossipId ev).handled := by
  cases ev with
  | accept fp session => exact List.Subset.refl _
  | frame k bytes =>
    simp only [Switch.step]
    split
    · exact List.Subset.refl _
    · split
      · exact handled_onFrame
      · exact List.Subset.refl _
  | forward k =>
    simp only [Switch.step]
    split
    · exact List.Subset.refl _
    · split
      · exact handled_onTarget
      · exact List.Subset.refl _
  | hangup k =>
    simp only [Switch.step]
    split
    · exact List.Subset.refl _
    · split <;> exact List.Subset.refl _

theorem handled_run (evs : List (Event H)) : s.handled ⊆ (evs.foldl (Switch.step gossipId) s).handled := by
  induction evs generalizing s with
  | nil => exact List.Subset.refl _
  | cons ev evs ih => exact List.Subset.trans (handled_step ev) ih

theorem lookup_onFrame_of_ne (hne : t ≠ k) : (s.onFrame gossipId k st bytes).streams.lookup t =
    s.streams.lookup t := by
  unfold Switch.onFrame
  split
  · exact lookup_setStream.trans (if_neg hne)
  · dsimp only
    split
    · exact lookup_setStream.trans (if_neg hne)
    · exact lookup_proceed_of_ne hne

theorem lookup_onTarget_of_ne {j : Nat} (hne : k ≠ j) (hst : s.streams.lookup k = some st) :
    ∃ st', (s.onTarget j t fwd addressed written rest).streams.lookup k = some st' ∧ st'.phase = st.phase := by
  unfold Switch.onTarget
  split
  · exact ⟨st, hst, rfl⟩
  · next target ht =>
    dsimp only
    have hset (st' : Stream H) (hphase : st'.phase = target.phase) :
        ∃ st'', (s.setStream t st').streams.lookup k = some st'' ∧ st''.phase = st.phase := by
      rw [lookup_setStream]
      split
      · next hkt =>
        subst hkt
        cases hst.symm.trans ht
        exact ⟨st', rfl, hphase⟩
      · exact ⟨st, hst, rfl⟩
    split
    · exact hset _ rfl
    · rw [lookup_proceed_of_ne hne]
      exact hset _ rfl

theorem phase_step (gossipId : Bytes → Gid) (ev : Event H) (hst : s.streams.lookup k = some st)
    (hphase : st.phase = .forwarding fwd addressed written rest) (hother : ev.isForward k = false) (h : s.Inv) :
    ∃ st', (s.step gossipId ev).streams.lookup k = some st' ∧ st'.phase = .forwarding fwd addressed written rest := by
  cases ev with
  | accept fp session =>
    have hne : k ≠ s.accepted := by
      rintro rfl
      exact Nat.lt_irrefl _ ((h.streams _).mpr (hst ▸ Option.some_ne_none st))
    exact ⟨st, (Table.lookup_insert_eq ..).trans ((if_neg hne).trans hst), hphase⟩
  | frame j bytes =>
    simp only [Switch.step]
    split
    · exact ⟨st, hst, hphase⟩
    · next st₀ hst₀ =>
      split
      · next hlistening =>
        have hne : k ≠ j := by
          rintro rfl
          cases hst.symm.trans hst₀
          exact nomatch hphase.symm.trans hlistening
        exact ⟨st, (lookup_onFrame_of_ne hne).trans hst, hphase⟩
      · exact ⟨st, hst, hphase⟩
  | forward j =>
    simp only [Event.isForward, decide_eq_false_iff_not] at hother
    simp only [Switch.step]
    split
    · exact ⟨st, hst, hphase⟩
    · split
      · obtain ⟨st', hst', hsame⟩ := lookup_onTarget_of_ne (fun heq => hother heq.symm) hst
        exact ⟨st', hst', hsame.trans hphase⟩
      · exact ⟨st, hst, hphase⟩
  | hangup j =>
    simp only [Switch.step]
    split
    · exact ⟨st, hst, hphase⟩
    · next st₀ hst₀ =>
      split
      · next hlistening =>
        have hne : k ≠ j := by
          rintro rfl
          cases hst.symm.trans hst₀
          exact nomatch hphase.symm.trans hlistening
        exact ⟨st, lookup_setStream.trans ((if_neg hne).trans hst), hphase⟩
      · exact ⟨st, hst, hphase⟩

theorem forward_step (gossipId : Bytes → Gid) (hst : s.streams.lookup k = some st) (hphase : st.phase = .forwarding fwd addressed written (t :: rest))
    (h : s.Inv) :
    (rest = [] ∧ ∃ h' ∈ (s.step gossipId (.forward k)).handled, h'.stream = k ∧ h'.fwd = fwd ∧ h'.addressed = addressed) ∨
    rest ≠ [] ∧ ∃ st' written', (s.step gossipId (.forward k)).streams.lookup k = some st' ∧
      st'.phase = .forwarding fwd addressed written' rest := by
  have hunderway := h.forwarding k st _ _ _ _ hst hphase
  obtain ⟨target, ht⟩ := Option.ne_none_iff_exists'.mp
    (hunderway.known t (hunderway.split ▸ List.mem_append_right _ List.mem_cons_self))
  have hstep : s.step gossipId (.forward k) = s.onTarget k t fwd addressed written rest := by
    simp only [Switch.step, hst, hphase]
  rw [hstep, Switch.onTarget, ht]
  dsimp only
  generalize hset : s.setStream t _ = s'
  obtain ⟨st', hst'⟩ : ∃ st', s'.streams.lookup k = some st' := by
    rw [← hset, lookup_setStream]
    split
    · exact ⟨_, rfl⟩
    · exact ⟨st, hst⟩
  rw [hst']
  cases rest with
  | nil => exact .inl ⟨rfl, _, List.mem_append_right _ (List.mem_singleton.mpr rfl), rfl, rfl, rfl⟩
  | cons t' rest => exact .inr ⟨nofun, _, _, lookup_setStream.trans (if_pos rfl), rfl⟩

theorem Inv.finishes (hH : H.Lawful) (h : s.Inv) (halong : Run.Along (Switch.step gossipId) (Ready gossipId) s evs)
    (hst : s.streams.lookup k = some st) (hphase : st.phase = .forwarding fwd addressed written rest)
    (hrest : rest ≠ []) (hturns : rest.length ≤ evs.countP (Event.isForward k)) :
    ∃ h' ∈ (evs.foldl (Switch.step gossipId) s).handled, h'.stream = k ∧ h'.fwd = fwd ∧ h'.addressed = addressed := by
  induction evs generalizing s st written rest with
  | nil => exact absurd (List.eq_nil_of_length_eq_zero (Nat.le_zero.mp hturns)) hrest
  | cons ev evs ih =>
    have hinv := h.step hH ev halong.1
    cases hev : ev.isForward k with
    | false =>
      obtain ⟨st', hst', hphase'⟩ := phase_step gossipId ev hst hphase hev h
      rw [List.countP_cons_of_neg (by simp [hev])] at hturns
      exact ih hinv halong.2 hst' hphase' hrest hturns
    | true =>
      obtain rfl : ev = .forward k := by
        cases ev with
        | forward j => rw [of_decide_eq_true hev]
        | _ => cases hev
      rw [List.countP_cons_of_pos hev] at hturns
      cases rest with
      | nil => exact absurd rfl hrest
      | cons t rest =>
        obtain ⟨rfl, h', hmem, hfacts⟩ | ⟨hne, st', written', hst', hphase'⟩ :=
          forward_step gossipId hst hphase h
        · exact ⟨h', handled_run evs hmem, hfacts⟩
        · exact ih hinv halong.2 hst' hphase' hne (Nat.le_of_succ_le_succ hturns)

theorem step_frame {routed : Routed} (hst : s.streams.lookup k = some st) (hphase : st.phase = .listening)
    (hreads : reads st bytes = some routed) (hnew : gossipId routed.inner ∉ s.seen.set) :
    s.step gossipId (.frame k bytes) = { s with seen := (s.seen.insert (gossipId routed.inner)).1 }.proceed k
      { st with session := (H.decrypt st.session bytes).1 } { routed with sender := st.fp }
      (s.targets routed.dest st.fp) [] (s.targets routed.dest st.fp) := by
  have htrue := SeenSet.insert_snd_of_not_mem hnew
  simp only [Switch.step, hst, hphase, Switch.onFrame, hreads]
  split
  · next hinsert =>
    rw [hinsert] at htrue
    cases htrue
  · next hinsert => rw [hinsert]

theorem Inv.frame_finishes (hH : H.Lawful) {routed : Routed} (h : s.Inv)
    (halong : Run.Along (Switch.step gossipId) (Ready gossipId) s (.frame k bytes :: evs))
    (hst : s.streams.lookup k = some st) (hphase : st.phase = .listening) (hreads : reads st bytes = some routed)
    (hturns : (s.targets routed.dest st.fp).length ≤ evs.countP (Event.isForward k)) :
    ∃ h' ∈ ((.frame k bytes :: evs).foldl (Switch.step gossipId) s).handled, h'.stream = k ∧
      h'.fwd = { routed with sender := st.fp } ∧ h'.addressed = s.targets routed.dest st.fp := by
  obtain ⟨hready, halong⟩ := halong
  have hafter := h.step hH _ hready
  rw [step_frame hst hphase hreads (hready st routed hst hphase hreads)] at hafter halong
  rw [List.foldl_cons, step_frame hst hphase hreads (hready st routed hst hphase hreads)]
  cases htargets : s.targets routed.dest st.fp with
  | nil => exact ⟨_, handled_run evs (List.mem_append_right _ (List.mem_singleton.mpr rfl)), rfl, rfl, rfl⟩
  | cons t rest =>
    rw [htargets] at hafter halong hturns
    exact hafter.finishes hH halong (lookup_setStream.trans (if_pos rfl)) rfl nofun hturns

theorem Inv.run (hH : H.Lawful) (h : Run.Along (Switch.step gossipId) (Ready gossipId) (.new H) evs) :
    (run gossipId evs).Inv :=
  h.invariant (fun _ ev hinv hready => hinv.step hH ev hready) .new

end Lemmas

/-- In every run in which a frame that is read is new to the relay and the sessions of its targets can send, each frame
is written once to each registered stream that it is addressed to, as soon as its loop has had as many turns. -/
theorem forwarded (hH : H.Lawful) {evs : List (Event H)}
    (h : Run.Along (step gossipId) (Ready gossipId) (new H) evs) :
    (run gossipId evs).Delivered ∧
    ∀ pre k bytes post st routed, evs = pre ++ .frame k bytes :: post → (run gossipId pre).streams.lookup k = some st →
      st.phase = .listening → reads st bytes = some routed →
      ((run gossipId pre).targets routed.dest st.fp).length ≤ post.countP (Event.isForward k) →
      ∃ h ∈ (run gossipId evs).handled, h.stream = k ∧ h.fwd = { routed with sender := st.fp } ∧
        h.addressed = (run gossipId pre).targets routed.dest st.fp ∧ h.written = h.addressed ∧ h.written.Nodup ∧
        ∀ t ∈ h.written, (run gossipId evs).Received t h.fwd := by
  have hinv := Inv.run hH h
  refine ⟨hinv.delivered, ?_⟩
  intro pre k bytes post st routed hevs hst hphase hreads hturns
  obtain ⟨h', hmem, hstream, hfwd, haddressed⟩ : ∃ h' ∈ (run gossipId evs).handled, h'.stream = k ∧
      h'.fwd = { routed with sender := st.fp } ∧ h'.addressed = (run gossipId pre).targets routed.dest st.fp := by
    rw [hevs, Run.along_append] at h
    rw [hevs, run, List.foldl_append]
    exact (Inv.run hH h.1).frame_finishes hH h.2 hst hphase hreads hturns
  have hdone := hinv.handled h' hmem
  have hall : h'.addressed = h'.written := hdone.split.trans (List.append_nil _)
  exact ⟨h', hmem, hstream, hfwd, haddressed, hall.symm, hall ▸ hdone.nodup, hdone.received⟩

/-! ## Frames that are dropped -/

namespace Sample

/-- Sessions without secrecy that can send once they have received. -/
def plain : SessionHandle where
  Session := Bool
  encrypt ready m := (ready, if ready then .ok m else .error (.malformed "no peer ratchet key"))
  decrypt _ m := (true, .ok m)
  canSend ready := ready

theorem plain_lawful : plain.Lawful := fun m h => ⟨m, if_pos h⟩

def fp (n : UInt8) : Fingerprint := padArr 48 [n]

def connect (n : UInt8) : Event plain := .accept (fp n) false

def send (k : Nat) (dest : Route) (inner : Bytes) : Event plain := .frame k (Routed.encode ⟨dest, fp 0, inner⟩)

def readyNow (s : Switch plain) : Event plain → Bool
  | .frame k bytes => ((s.streams.lookup k).bind (reads · bytes)).all fun routed => padArr 32 routed.inner ∉ s.seen.set
  | .forward k =>
    match (s.streams.lookup k).map Stream.phase with
    | some (.forwarding _ _ _ (t :: _)) => (s.streams.lookup t).all fun target => plain.canSend target.session
    | _ => true
  | _ => true

theorem ready_of_readyNow (s : Switch plain) (ev : Event plain) (h : readyNow s ev = true) : s.Ready (padArr 32) ev := by
  cases ev with
  | accept | hangup => trivial
  | frame k bytes =>
    intro st routed hst hphase hreads
    rw [readyNow, hst, Option.bind_some, hreads] at h
    exact of_decide_eq_true h
  | forward k =>
    intro st fwd addressed written t rest target hst hphase ht
    rw [readyNow, hst, Option.map_some, hphase] at h
    dsimp only at h
    rw [ht] at h
    exact h

/-- 1 and 2 are connected, both have sent, and 2 sends to the committer. -/
def toCommitter : List (Event plain) :=
  [connect 1, connect 2, send 0 .committer [6], send 1 .committer [8], .forward 1]

theorem forwarded_toCommitter :
    (run (padArr 32) toCommitter).handled.map (fun h => (h.stream, h.addressed, h.written)) = [(0, [], []), (1, [0], [0])] ∧
      (run (padArr 32) toCommitter).Delivered := by
  refine ⟨by decide +kernel, (forwarded plain_lawful (Run.Along.mono ready_of_readyNow ?_)).1⟩
  decide +kernel

/-- A participant that is addressed is never written to. -/
def misses (t : Nat) (s : Switch plain) : Bool :=
  s.handled.any (t ∈ ·.addressed) && s.handled.all (t ∉ ·.written)

theorem not_delivered {t : Nat} {s : Switch plain} (h : misses t s = true) : ¬ s.Delivered := by
  obtain ⟨hany, hall⟩ := Bool.and_eq_true_iff.mp h
  obtain ⟨h', hmem, haddressed⟩ := List.any_eq_true.mp hany
  have hnever (h' : Handled) (hmem : h' ∈ s.handled) : t ∉ h'.written :=
    of_decide_eq_true (List.all_eq_true.mp hall h' hmem)
  intro hdelivered
  obtain ⟨pre, post, heq⟩ := List.append_of_mem hmem
  rcases (hdelivered pre h' post heq).2.2 t (of_decide_eq_true haddressed) with hwritten | ⟨h'', hpre, -, -, hwritten⟩
  · exact hnever h' hmem hwritten
  · exact hnever h'' (heq ▸ List.mem_append_left _ hpre) hwritten

/-- 1 sends to 2 before 2 is connected, and again after that. -/
def resent : List (Event plain) :=
  [connect 1, send 0 (.peer (fp 2)) [7], connect 2, send 1 .committer [8], .forward 1, send 0 (.peer (fp 2)) [7], .forward 0]

def second : List (Event plain) :=
  [connect 1, connect 2, connect 3, send 1 .committer [8], .forward 1, send 2 .committer [9], .forward 2,
    send 0 (.peer (fp 2)) [7], .forward 0, send 0 (.peer (fp 3)) [7], .forward 0]

/-- 1 sends to 2, which is connected and has not sent anything. -/
def silent : List (Event plain) := [connect 1, connect 2, send 0 (.peer (fp 2)) [7], .forward 0]

/-- The payload sent again, the one for a second participant and the one for a silent participant are dropped. -/
theorem dropped : ¬ (run (padArr 32) resent).Delivered ∧ ¬ (run (padArr 32) second).Delivered ∧
    ¬ (run (padArr 32) silent).Delivered :=
  ⟨not_delivered (t := 1) (by decide +kernel), not_delivered (t := 2) (by decide +kernel),
    not_delivered (t := 1) (by decide +kernel)⟩

end Sample


end Switch
end Relay
end Talkrypt.Core
