import Talkrypt.Core.Relay

/-!
# Sends before a pairwise session is keyed (`send_marked`, the flush of `reader_loop`)

A responder cannot encrypt before it has read its peer's first frame. A call that finds the session unkeyed puts its
payload into the queue of the connection, and the reader loop takes the queue out after each frame it decrypts. The
check, the push, the flush and each encryption and write are sections of their own, and those of other tasks may come
between. Two such interleavings go wrong: a payload pushed after the flush stays in the queue (`Sample.stranded`), and
a call that finds the session keyed before the queue is flushed overtakes it.

The connection stays open. The announcements of names and presence go through the same sections as `send_marked` and
count as calls; senders that never queue are `other`.
-/

namespace Talkrypt.Core
open scoped List

/-- What a suite's sessions keep to: one that can send does encrypt, encryption does not change whether it can, and a
decryption makes it send-ready or leaves it as it was. -/
structure SessionHandle.Keying (H : SessionHandle) : Prop where
  encrypts : H.Lawful
  canSend_encrypt : ∀ s m, H.canSend (H.encrypt s m).1 = H.canSend s
  canSend_decrypt : ∀ s m pt, (H.decrypt s m).2 = .ok pt → H.canSend (H.decrypt s m).1 = true
  decrypt_error : ∀ s m e, (H.decrypt s m).2 = .error e → (H.decrypt s m).1 = s

namespace Pending

inductive CallPhase
  | checking
  | sealing
  | writing (ct : Bytes)
  | queueing
  | returned
deriving DecidableEq

structure Call where
  payload : Bytes
  /-- The calls that had returned when this one was made. -/
  before : List Nat
  phase : CallPhase
deriving DecidableEq

/-- A payload and the call it is from, if it is from one. -/
structure Item where
  call : Option Nat
  payload : Bytes
deriving DecidableEq

/-- Where the reader loop is. Of the items it is sending, the first may be encrypted already. -/
inductive ReaderPhase
  | listening
  /-- The identity goes out once, after the first frame. -/
  | presenting (items : List Item) (ct : Option Bytes)
  | draining
  | flushing (items : List Item) (ct : Option Bytes)

structure Conn (H : SessionHandle) where
  session : H.Session
  pending : List Item
  presented : Bool
  calls : List Call
  reader : ReaderPhase
  wire : List (Item × Bytes)

inductive Event
  | call (payload : Bytes)
  | turn (i : Nat)
  /-- A frame arrives, with what the node would then present. -/
  | frame (bytes : Bytes) (presentation : List Bytes)
  | turnReader
  | other (payload : Bytes)
deriving DecidableEq

def callsOf (items : List Item) : List Nat := items.filterMap Item.call

namespace Conn
variable {H : SessionHandle}

/-- A connection as `register` leaves it; `replay` is what a keeper has put into the queue. -/
def new (session : H.Session) (replay : List Bytes) : Conn H where
  session
  pending := replay.map (⟨none, ·⟩)
  presented := false
  calls := []
  reader := .listening
  wire := []

def setPhase (w : Conn H) (i : Nat) (phase : CallPhase) : Conn H :=
  { w with calls := w.calls.modify i fun c => { c with phase } }

def returned (w : Conn H) : List Nat :=
  (List.range w.calls.length).filter fun i => (w.calls[i]?.map Call.phase) = some .returned

def call (w : Conn H) (payload : Bytes) : Conn H :=
  { w with calls := w.calls ++ [⟨payload, w.returned, .checking⟩] }

def turn (w : Conn H) (i : Nat) : Conn H :=
  match w.calls[i]? with
  | none => w
  | some c =>
    match c.phase with
    | .checking => w.setPhase i (if H.canSend w.session then .sealing else .queueing)
    | .sealing =>
      let w' := { w with session := (H.encrypt w.session c.payload).1 }
      match (H.encrypt w.session c.payload).2 with
      | .ok ct => w'.setPhase i (.writing ct)
      -- the error is ignored
      | .error _ => w'.setPhase i .returned
    | .writing ct => setPhase { w with wire := w.wire ++ [(⟨some i, c.payload⟩, ct)] } i .returned
    | .queueing => setPhase { w with pending := w.pending ++ [⟨some i, c.payload⟩] } i .returned
    | .returned => w

def frame (w : Conn H) (bytes : Bytes) (presentation : List Bytes) : Conn H :=
  match w.reader with
  | .listening =>
    let w' := { w with session := (H.decrypt w.session bytes).1 }
    match (H.decrypt w.session bytes).2 with
    | .error _ => w'
    | .ok _ =>
      if w.presented then { w' with reader := .draining }
      else { w' with presented := true, reader := .presenting (presentation.map (⟨none, ·⟩)) none }
  | _ => w

/-- One section of `send_payload` by the reader loop: what is left to send, then. -/
def sendItem (w : Conn H) (item : Item) (rest : List Item) : Option Bytes → Conn H × List Item × Option Bytes
  | none =>
    let w' := { w with session := (H.encrypt w.session item.payload).1 }
    match (H.encrypt w.session item.payload).2 with
    | .ok ct => (w', item :: rest, some ct)
    | .error _ => (w', rest, none)
  | some ct => ({ w with wire := w.wire ++ [(item, ct)] }, rest, none)

def turnReader (w : Conn H) : Conn H :=
  match w.reader with
  | .listening => w
  | .presenting [] _ => { w with reader := .draining }
  | .presenting (item :: rest) ct =>
    let (w', items, ct') := w.sendItem item rest ct
    { w' with reader := .presenting items ct' }
  | .draining => { w with pending := [], reader := .flushing w.pending none }
  -- the frame itself is handled, and the next one awaited
  | .flushing [] _ => { w with reader := .listening }
  | .flushing (item :: rest) ct =>
    let (w', items, ct') := w.sendItem item rest ct
    { w' with reader := .flushing items ct' }

def other (w : Conn H) (payload : Bytes) : Conn H :=
  let w' := { w with session := (H.encrypt w.session payload).1 }
  match (H.encrypt w.session payload).2 with
  | .ok ct => { w' with wire := w.wire ++ [(⟨none, payload⟩, ct)] }
  | .error _ => w'

def step (w : Conn H) : Event → Conn H
  | .call payload => w.call payload
  | .turn i => w.turn i
  | .frame bytes presentation => w.frame bytes presentation
  | .turnReader => w.turnReader
  | .other payload => w.other payload

def run (w : Conn H) (evs : List Event) : Conn H := evs.foldl step w

/-- What the reader loop has taken out of the queue and not written. -/
def flush (w : Conn H) : List Item :=
  match w.reader with
  | .flushing items _ => items
  | _ => []

def draining (w : Conn H) : Bool :=
  match w.reader with
  | .draining => true
  | _ => false

/-- No call looks at a keyed session while the payload of a call that returned before it is still to be flushed, and
the queue is not flushed while a call that found the session unkeyed has not pushed. -/
def Orderly (w : Conn H) : Event → Prop
  | .turn i => ∀ c ∈ w.calls[i]?, c.phase = .checking → H.canSend w.session = true →
    ∀ k ∈ callsOf (w.flush ++ w.pending), k ∉ c.before
  | .turnReader => w.draining = true → ∀ c ∈ w.calls, c.phase ≠ .queueing
  | _ => True

instance (w : Conn H) : (e : Event) → Decidable (w.Orderly e)
  | .turn i => inferInstanceAs (Decidable (∀ c ∈ w.calls[i]?, c.phase = .checking → H.canSend w.session = true →
      ∀ k ∈ callsOf (w.flush ++ w.pending), k ∉ c.before))
  | .turnReader => inferInstanceAs (Decidable (w.draining = true → ∀ c ∈ w.calls, c.phase ≠ .queueing))
  | .call _ | .frame _ _ | .other _ => inferInstanceAs (Decidable True)

/-- No call and no iteration of the reader loop is in progress. -/
def Quiet (w : Conn H) : Prop := (∀ c ∈ w.calls, c.phase = .returned) ∧ w.reader = .listening

def transmitted (w : Conn H) : List Nat := callsOf (w.wire.map Prod.fst)

/-- The payloads of calls are transmitted as they are, at most once and, for calls made one after the other, in
their order. In a quiet state of a keyed session each has been transmitted and the queue is empty. -/
structure Delivers (w : Conn H) : Prop where
  payload : ∀ e ∈ w.wire, ∀ i ∈ e.1.call, ∃ c, w.calls[i]? = some c ∧ c.payload = e.1.payload
  once : w.transmitted.Nodup
  ordered : ∀ (j : Nat) (c : Call), w.calls[j]? = some c → j ∈ w.transmitted → ∀ i ∈ c.before,
    [i, j] <+ w.transmitted
  complete : w.Quiet → H.canSend w.session = true → ∀ i < w.calls.length, i ∈ w.transmitted
  empty : w.Quiet → H.canSend w.session = true → w.pending = []

end Conn

/-! ## The line of payloads -/

theorem getElem?_setPhase {calls : List Call} {i j : Nat} {phase : CallPhase} {c : Call}
    (h : (calls.modify i fun c => { c with phase })[j]? = some c) :
    ∃ old, calls[j]? = some old ∧ c.payload = old.payload ∧ c.before = old.before ∧
      c.phase = if i = j then phase else old.phase := by
  rw [List.getElem?_modify] at h
  obtain ⟨old, hold, rfl⟩ := Option.map_eq_some_iff.mp h
  refine ⟨old, hold, ?_⟩
  split <;> exact ⟨rfl, rfl, rfl⟩

/-- The line of payloads (those on the wire and those that wait, in the order in which they would go out) holds each
call that has returned once, with its payload and after the calls that had returned before it. -/
structure Lined (calls : List Call) (line : List Item) : Prop where
  nodup : (callsOf line).Nodup
  mem : ∀ i, i ∈ callsOf line ↔ (calls[i]?.map Call.phase) = some .returned
  payload : ∀ it ∈ line, ∀ i ∈ it.call, ∃ c, calls[i]? = some c ∧ c.payload = it.payload
  before : ∀ (j : Nat) (c : Call), calls[j]? = some c → ∀ i ∈ c.before,
    (calls[i]?.map Call.phase) = some .returned
  ordered : ∀ (j : Nat) (c : Call), calls[j]? = some c → j ∈ callsOf line → ∀ i ∈ c.before, [i, j] <+ callsOf line

section
variable {calls : List Call} {front back line : List Item} {it : Item} {i j : Nat} {c : Call} {phase : CallPhase}

theorem callsOf_append (l l' : List Item) : callsOf (l ++ l') = callsOf l ++ callsOf l' :=
  List.filterMap_append

theorem Lined.setPhase (h : Lined calls line) (hj : calls[j]? = some c) (hold : c.phase ≠ .returned)
    (hnew : phase ≠ .returned) : Lined (calls.modify j fun c => { c with phase }) line := by
  have hreturned : ∀ i : Nat, ((calls.modify j fun c => { c with phase })[i]?.map Call.phase) = some .returned ↔
      (calls[i]?.map Call.phase) = some .returned := by
    intro i
    rw [List.getElem?_modify]
    by_cases hij : j = i
    · subst hij
      simp [hj, hold, hnew]
    · simp [hij]
  refine ⟨h.nodup, fun i => by rw [hreturned, h.mem], ?_, ?_, ?_⟩
  · intro it hit i hi
    obtain ⟨c', hc', hp⟩ := h.payload it hit i hi
    refine ⟨if j = i then { c' with phase } else c', by rw [List.getElem?_modify, hc']; rfl, ?_⟩
    split <;> exact hp
  · intro k c' hc' i hi
    obtain ⟨old, hgot, -, hbefore, -⟩ := getElem?_setPhase hc'
    rw [hreturned]
    exact h.before k old hgot i (hbefore ▸ hi)
  · intro k c' hc' hk i hi
    obtain ⟨old, hgot, -, hbefore, -⟩ := getElem?_setPhase hc'
    exact h.ordered k old hgot hk i (hbefore ▸ hi)

theorem Lined.other (h : Lined calls (front ++ back)) (hit : it.call = none) :
    Lined calls (front ++ it :: back) := by
  have hcalls : callsOf (front ++ it :: back) = callsOf (front ++ back) := by
    simp [callsOf, hit]
  refine ⟨hcalls ▸ h.nodup, fun i => by rw [hcalls, h.mem], ?_, h.before, ?_⟩
  · intro it' hit' i hi
    rcases List.mem_append.mp hit' with hfront | hback
    · exact h.payload it' (List.mem_append_left _ hfront) i hi
    · rcases List.mem_cons.mp hback with rfl | hback
      · rw [hit] at hi
        cases hi
      · exact h.payload it' (List.mem_append_right _ hback) i hi
  · rw [hcalls]
    exact h.ordered

theorem Lined.of_none {items : List Item} (h : Lined calls (front ++ items ++ back))
    (hnone : ∀ it ∈ items, it.call = none) : Lined calls (front ++ back) := by
  have hcalls : callsOf (front ++ items ++ back) = callsOf (front ++ back) := by
    have hitems : callsOf items = [] := List.filterMap_eq_nil_iff.mpr hnone
    simp only [callsOf_append, hitems, List.append_nil]
  refine ⟨hcalls ▸ h.nodup, fun i => by rw [← hcalls, h.mem], ?_, h.before, ?_⟩
  · intro it hit
    apply h.payload it
    rw [List.append_assoc]
    rcases List.mem_append.mp hit with hfront | hback
    · exact List.mem_append_left _ hfront
    · exact List.mem_append_right _ (List.mem_append_right _ hback)
  · rw [← hcalls]
    exact h.ordered

theorem Lined.with_none {items : List Item} (h : Lined calls (front ++ back))
    (hnone : ∀ it ∈ items, it.call = none) : Lined calls (front ++ items ++ back) := by
  induction items with
  | nil => simpa using h
  | cons it items ih =>
    have hrest := ih fun it' hit' => hnone it' (List.mem_cons_of_mem _ hit')
    rw [List.append_assoc] at hrest
    simpa using hrest.other (hnone it List.mem_cons_self)

theorem Lined.insert (h : Lined calls (front ++ back)) (hj : calls[j]? = some c) (hold : c.phase ≠ .returned)
    (hbefore : ∀ i ∈ c.before, i ∈ callsOf front) :
    Lined (calls.modify j fun c => { c with phase := .returned }) (front ++ ⟨some j, c.payload⟩ :: back) := by
  have hcalls : callsOf (front ++ ⟨some j, c.payload⟩ :: back) = callsOf front ++ j :: callsOf back := by
    simp [callsOf]
  have hback : callsOf (front ++ back) = callsOf front ++ callsOf back := callsOf_append _ _
  have hnot : j ∉ callsOf (front ++ back) := by
    rw [h.mem, hj]
    simpa using hold
  have hmem : ∀ i, i ∈ callsOf front ++ j :: callsOf back ↔ i = j ∨ i ∈ callsOf (front ++ back) := by
    intro i
    simp only [hback, List.mem_append, List.mem_cons]
    tauto
  have hsub : callsOf (front ++ back) <+ callsOf front ++ j :: callsOf back := by
    rw [hback]
    exact (List.Sublist.refl _).append (List.sublist_cons_self _ _)
  have hreturned : ∀ i : Nat, ((calls.modify j fun c => { c with phase := .returned })[i]?.map Call.phase) =
      some .returned ↔ i = j ∨ (calls[i]?.map Call.phase) = some .returned := by
    intro i
    rw [List.getElem?_modify]
    by_cases hij : j = i
    · subst hij
      simp [hj]
    · simp [hij, Ne.symm hij]
  refine ⟨?_, fun i => by rw [hcalls, hmem, hreturned, h.mem], ?_, ?_, ?_⟩
  · rw [hcalls, List.nodup_middle, ← hback, List.nodup_cons]
    exact ⟨hnot, h.nodup⟩
  · intro it hit i hi
    have hold : ∀ it ∈ front ++ back, ∀ i ∈ it.call, ∃ c', (calls.modify j fun c => { c with
        phase := .returned })[i]? = some c' ∧ c'.payload = it.payload := by
      intro it hit i hi
      obtain ⟨c', hc', hp⟩ := h.payload it hit i hi
      refine ⟨if j = i then { c' with phase := .returned } else c', by rw [List.getElem?_modify, hc']; rfl, ?_⟩
      split <;> exact hp
    rcases List.mem_append.mp hit with hfront | hrest
    · exact hold it (List.mem_append_left _ hfront) i hi
    · rcases List.mem_cons.mp hrest with rfl | hrest
      · cases hi
        exact ⟨{ c with phase := .returned }, by rw [List.getElem?_modify, hj]; simp, rfl⟩
      · exact hold it (List.mem_append_right _ hrest) i hi
  · intro k c' hc' i hi
    obtain ⟨old, hgot, -, hb, -⟩ := getElem?_setPhase hc'
    rw [hreturned]
    exact .inr (h.before k old hgot i (hb ▸ hi))
  · intro k c' hc' hk i hi
    obtain ⟨old, hgot, -, hb, -⟩ := getElem?_setPhase hc'
    rw [hb] at hi
    rw [hcalls] at hk ⊢
    rcases (hmem k).mp hk with rfl | hk
    · obtain rfl : c = old := Option.some.inj (hj.symm.trans hgot)
      exact (List.singleton_sublist.mpr (hbefore i hi)).append
        (List.singleton_sublist.mpr List.mem_cons_self)
    · exact (h.ordered k old hgot hk i hi).trans hsub

theorem Lined.call (h : Lined calls line) {payload : Bytes} {returned : List Nat}
    (hreturned : ∀ i ∈ returned, (calls[i]?.map Call.phase) = some .returned) :
    Lined (calls ++ [⟨payload, returned, .checking⟩]) line := by
  have hphase : ∀ i : Nat, ((calls ++ [⟨payload, returned, .checking⟩])[i]?.map Call.phase) = some .returned ↔
      (calls[i]?.map Call.phase) = some .returned := by
    intro i
    rw [List.getElem?_append]
    split
    · rfl
    · next hlen =>
      rw [List.getElem?_eq_none (Nat.le_of_not_lt hlen), List.getElem?_singleton]
      split <;> simp
  have hnew : calls.length ∉ callsOf line := by
    rw [h.mem]
    simp
  refine ⟨h.nodup, fun i => by rw [hphase, h.mem], ?_, ?_, ?_⟩
  · intro it hit i hi
    obtain ⟨c, hc, hp⟩ := h.payload it hit i hi
    exact ⟨c, by rw [List.getElem?_append_left (List.getElem?_eq_some_iff.mp hc).1, hc], hp⟩
  · intro j c hc i hi
    rw [hphase]
    rcases getElem?_concat hc with hold | ⟨-, rfl⟩
    · exact h.before j c hold i hi
    · exact hreturned i hi
  · intro j c hc hj i hi
    rcases getElem?_concat hc with hold | ⟨rfl, -⟩
    · exact h.ordered j c hold hj i hi
    · exact absurd hj hnew

end

/-! ## The invariant -/

def CallPhase.Ready : CallPhase → Prop
  | .sealing | .writing _ => True
  | _ => False

/-- The reader loop has decrypted a frame and not flushed the queue yet. -/
def ReaderPhase.Opening : ReaderPhase → Prop
  | .presenting _ _ | .draining => True
  | _ => False

namespace Conn
variable {H : SessionHandle} {w : Conn H}

structure Inv (w : Conn H) : Prop where
  lined : Lined w.calls (w.wire.map Prod.fst ++ (w.flush ++ w.pending))
  ready : ∀ (j : Nat) (c : Call), w.calls[j]? = some c → c.phase.Ready →
    H.canSend w.session = true ∧ ∀ i ∈ c.before, i ∈ w.transmitted
  keyed : H.canSend w.session = true →
    w.reader.Opening ∨ w.pending = [] ∧ ∀ c ∈ w.calls, c.phase ≠ .queueing
  reader : w.reader = .listening ∨ H.canSend w.session = true
  present : ∀ items ct, w.reader = .presenting items ct → ∀ it ∈ items, it.call = none

theorem Inv.new {session : H.Session} (hmute : H.canSend session = false) (replay : List Bytes) :
    (new session replay).Inv := by
  have hcalls : callsOf (replay.map (⟨none, ·⟩)) = [] := by simp [callsOf]
  have hline : Lined [] (replay.map (⟨none, ·⟩)) := by
    refine ⟨by rw [hcalls]; exact List.nodup_nil, by simp [hcalls], ?_, by simp, by simp⟩
    intro it hit i hi
    obtain ⟨payload, -, rfl⟩ := List.mem_map.mp hit
    cases hi
  refine ⟨hline, by simp [Conn.new], fun hsend => ?_, .inl rfl, nofun⟩
  rw [Conn.new, hmute] at hsend
  cases hsend

theorem Inv.setSession (hi : w.Inv) {session : H.Session} (hsend : H.canSend session = H.canSend w.session) :
    Inv { w with session } :=
  ⟨hi.lined, fun j c hc hready => by rw [hsend]; exact hi.ready j c hc hready,
    fun h => hi.keyed (hsend ▸ h), hi.reader.imp_right fun h => hsend.trans h, hi.present⟩

theorem Inv.call (hi : w.Inv) (payload : Bytes) : (w.call payload).Inv := by
  have hreturned : ∀ i ∈ w.returned, (w.calls[i]?.map Call.phase) = some .returned := by
    intro i hmem
    simpa using (List.mem_filter.mp hmem).2
  refine ⟨hi.lined.call hreturned, ?_, ?_, hi.reader, hi.present⟩
  · intro j c hc hready
    rcases getElem?_concat hc with hold | ⟨-, rfl⟩
    · exact hi.ready j c hold hready
    · cases hready
  · intro hsend
    refine (hi.keyed hsend).imp_right fun ⟨hpending, hqueue⟩ => ⟨hpending, ?_⟩
    intro c hc
    rcases List.mem_append.mp hc with hold | hnew
    · exact hqueue c hold
    · rw [List.mem_singleton.mp hnew]
      exact nofun

variable {i : Nat}

theorem mem_setPhase {calls : List Call} {phase : CallPhase} {c : Call}
    (h : c ∈ calls.modify i fun c => { c with phase }) : c.phase = phase ∨ ∃ old ∈ calls, c.phase = old.phase := by
  obtain ⟨j, hj⟩ := List.mem_iff_getElem?.mp h
  obtain ⟨old, hold, -, -, hphase⟩ := getElem?_setPhase hj
  split at hphase
  · exact .inl hphase
  · exact .inr ⟨old, List.mem_of_getElem? hold, hphase⟩

theorem Inv.setPhase (hi : w.Inv) {w' : Conn H} {c : Call} {phase : CallPhase} (hc : w.calls[i]? = some c)
    (hcalls : w'.calls = w.calls.modify i fun c => { c with phase })
    (hlined : Lined w'.calls (w'.wire.map Prod.fst ++ (w'.flush ++ w'.pending)))
    (hsend : H.canSend w'.session = H.canSend w.session) (hreader : w'.reader = w.reader)
    (hwire : ∀ k ∈ w.transmitted, k ∈ w'.transmitted)
    (hready : phase.Ready → H.canSend w.session = true ∧ ∀ k ∈ c.before, k ∈ w.transmitted)
    (hkeyed : H.canSend w.session = true → w.reader.Opening ∨ w'.pending = w.pending ∧ phase ≠ .queueing) :
    w'.Inv := by
  refine ⟨hlined, ?_, ?_, by rw [hreader, hsend]; exact hi.reader, by rw [hreader]; exact hi.present⟩
  · intro j c' hc' hr
    rw [hcalls] at hc'
    obtain ⟨old, hold, -, hbefore, hphase⟩ := getElem?_setPhase hc'
    rw [hsend, hbefore]
    rw [hphase] at hr
    split at hr
    · next hij =>
      subst hij
      obtain rfl : c = old := Option.some.inj (hc.symm.trans hold)
      exact ⟨(hready hr).1, fun k hk => hwire k ((hready hr).2 k hk)⟩
    · have h := hi.ready j old hold hr
      exact ⟨h.1, fun k hk => hwire k (h.2 k hk)⟩
  · intro hkey
    rw [hsend] at hkey
    rw [hreader]
    rcases hkeyed hkey with hopen | ⟨hpending, hne⟩
    · exact .inl hopen
    · refine (hi.keyed hkey).imp_right fun ⟨hempty, hqueue⟩ => ⟨hpending.trans hempty, ?_⟩
      intro c' hc'
      rw [hcalls] at hc'
      rcases mem_setPhase hc' with heq | ⟨old, hold, heq⟩
      · rw [heq]
        exact hne
      · rw [heq]
        exact hqueue old hold

theorem mem_transmitted_write {k : Nat} (h : k ∈ w.transmitted) (item : Item) (ct : Bytes) :
    k ∈ transmitted { w with wire := w.wire ++ [(item, ct)] } := by
  simp only [transmitted, List.map_append, callsOf_append]
  exact List.mem_append_left _ h

theorem Inv.turn (hH : H.Keying) (hi : w.Inv) (hok : w.Orderly (.turn i)) : (w.turn i).Inv := by
  unfold Conn.turn
  cases hc : w.calls[i]? with
  | none => exact hi
  | some c =>
    dsimp only
    cases hphase : c.phase with
    | returned => exact hi
    | checking =>
      have hnot : c.phase ≠ .returned := by rw [hphase]; exact nofun
      dsimp only
      split
      · next hsend =>
        refine hi.setPhase hc rfl (hi.lined.setPhase hc hnot nofun) rfl rfl (fun _ h => h) (fun _ => ⟨hsend, ?_⟩)
          fun _ => .inr ⟨rfl, nofun⟩
        -- what returned before is in the line and does not wait, so it is on the wire
        intro k hk
        have hline : k ∈ callsOf (w.wire.map Prod.fst ++ (w.flush ++ w.pending)) := by
          rw [hi.lined.mem]
          exact hi.lined.before i c hc k hk
        rw [callsOf_append] at hline
        exact (List.mem_append.mp hline).resolve_right fun hwait => hok c hc hphase hsend k hwait hk
      · next hmute =>
        exact hi.setPhase hc rfl (hi.lined.setPhase hc hnot nofun) rfl rfl (fun _ h => h) (fun h => h.elim)
          fun hsend => absurd hsend hmute
    | sealing =>
      have hnot : c.phase ≠ .returned := by rw [hphase]; exact nofun
      have hready := hi.ready i c hc (by rw [hphase]; trivial)
      obtain ⟨ct, hct⟩ := hH.encrypts c.payload hready.1
      dsimp only
      rw [hct]
      exact hi.setPhase hc rfl (hi.lined.setPhase hc hnot nofun) (hH.canSend_encrypt _ _) rfl (fun _ h => h)
        (fun _ => hready) fun _ => .inr ⟨rfl, nofun⟩
    | writing ct =>
      have hnot : c.phase ≠ .returned := by rw [hphase]; exact nofun
      have hready := hi.ready i c hc (by rw [hphase]; trivial)
      refine hi.setPhase hc rfl ?_ rfl rfl ?_ (fun h => h.elim) fun _ => .inr ⟨rfl, nofun⟩
      · have hnext := hi.lined.insert hc hnot hready.2
        simpa [Conn.setPhase, flush] using hnext
      · exact fun k hk => mem_transmitted_write hk _ _
    | queueing =>
      have hnot : c.phase ≠ .returned := by rw [hphase]; exact nofun
      refine hi.setPhase hc rfl ?_ rfl rfl (fun _ h => h) (fun h => h.elim) ?_
      · have hline : Lined w.calls ((w.wire.map Prod.fst ++ (w.flush ++ w.pending)) ++ []) := by
          rw [List.append_nil]
          exact hi.lined
        have hnext := hline.insert hc hnot fun k hk => by
          rw [hi.lined.mem]
          exact hi.lined.before i c hc k hk
        simpa [Conn.setPhase, flush] using hnext
      · -- the session has not been flushed since this call looked at it
        intro hsend
        exact .inl ((hi.keyed hsend).resolve_right fun h => h.2 c (List.mem_of_getElem? hc) hphase)

theorem Inv.frame (hH : H.Keying) (hi : w.Inv) (bytes : Bytes) (presentation : List Bytes) :
    (w.frame bytes presentation).Inv := by
  unfold Conn.frame
  split
  · next hlisten =>
    have hflush : w.flush = [] := by rw [flush, hlisten]
    have hlined := hi.lined
    rw [hflush] at hlined
    cases hdecrypt : (H.decrypt w.session bytes).2 with
    | error e =>
      dsimp only
      exact hi.setSession (by rw [hH.decrypt_error _ _ _ hdecrypt])
    | ok pt =>
      have hsend := hH.canSend_decrypt _ _ _ hdecrypt
      have hready : ∀ (j : Nat) (c : Call), w.calls[j]? = some c → c.phase.Ready →
          H.canSend (H.decrypt w.session bytes).1 = true ∧ ∀ i ∈ c.before, i ∈ w.transmitted :=
        fun j c hc h => ⟨hsend, (hi.ready j c hc h).2⟩
      dsimp only
      split
      · exact ⟨hlined, hready, fun _ => .inl trivial, .inr hsend, nofun⟩
      · refine ⟨hlined, hready, fun _ => .inl trivial, .inr hsend, ?_⟩
        rintro items ct ⟨⟩ it hit
        obtain ⟨payload, -, rfl⟩ := List.mem_map.mp hit
        rfl
  · exact hi

theorem sendItem_spec (hH : H.Keying) (item : Item) (rest : List Item) (hsend : H.canSend w.session = true)
    (ct : Option Bytes) :
    let next := w.sendItem item rest ct
    next.1.wire.map Prod.fst ++ next.2.1 = w.wire.map Prod.fst ++ item :: rest ∧
      (∀ it ∈ next.2.1, it ∈ item :: rest) ∧ (∀ k ∈ w.transmitted, k ∈ next.1.transmitted) ∧
      H.canSend next.1.session = true ∧ next.1.calls = w.calls ∧ next.1.pending = w.pending := by
  cases ct with
  | none =>
    obtain ⟨ct, hct⟩ := hH.encrypts item.payload hsend
    simp only [sendItem, hct]
    exact ⟨trivial, fun _ h => h, fun _ h => h, (hH.canSend_encrypt _ _).trans hsend, trivial, trivial⟩
  | some ct =>
    exact ⟨by simp [sendItem], fun _ h => List.mem_cons_of_mem _ h, fun k hk => mem_transmitted_write hk item ct,
      hsend, rfl, rfl⟩

theorem Inv.turnReader (hH : H.Keying) (hi : w.Inv) (hok : w.Orderly .turnReader) : w.turnReader.Inv := by
  have hlined := hi.lined
  unfold Conn.turnReader
  split
  · exact hi
  · next hreader =>
    rw [flush, hreader] at hlined
    have hsend := hi.reader.resolve_left (by rw [hreader]; exact nofun)
    exact ⟨hlined, hi.ready, fun _ => .inl trivial, .inr hsend, nofun⟩
  · next item rest ct hreader =>
    have hsend := hi.reader.resolve_left (by rw [hreader]; exact nofun)
    have hnone := hi.present _ _ hreader
    obtain ⟨hline, hmem, hwire, hsend', hcalls, hpending⟩ := sendItem_spec hH item rest hsend ct
    refine ⟨?_, ?_, fun _ => .inl trivial, .inr hsend', ?_⟩
    · rw [flush, hreader, List.nil_append] at hlined
      have hall := hlined.with_none hnone
      rw [← hline] at hall
      have hrest := hall.of_none fun it hit => hnone it (hmem it hit)
      simpa [flush, hcalls, hpending] using hrest
    · intro j c hc hready
      have h := hi.ready j c (hcalls ▸ hc) hready
      exact ⟨hsend', fun k hk => hwire k (h.2 k hk)⟩
    · rintro items ct' ⟨⟩ it hit
      exact hnone it (hmem it hit)
  · next hreader =>
    rw [flush, hreader, List.nil_append] at hlined
    have hsend := hi.reader.resolve_left (by rw [hreader]; exact nofun)
    refine ⟨by simpa [flush] using hlined, hi.ready, fun _ => .inr ⟨rfl, ?_⟩, .inr hsend, nofun⟩
    exact hok (by rw [draining, hreader])
  · next hreader =>
    rw [flush, hreader] at hlined
    refine ⟨hlined, hi.ready, fun hsend => ?_, .inl rfl, nofun⟩
    exact .inr ((hi.keyed hsend).resolve_left (by rw [hreader]; exact id))
  · next item rest ct hreader =>
    have hsend := hi.reader.resolve_left (by rw [hreader]; exact nofun)
    obtain ⟨hline, -, hwire, hsend', hcalls, hpending⟩ := sendItem_spec hH item rest hsend ct
    rw [flush, hreader, ← List.append_assoc, ← hline] at hlined
    refine ⟨?_, ?_, fun _ => ?_, .inr hsend', nofun⟩
    · simpa [flush, hcalls, hpending] using hlined
    · intro j c hc hready
      have h := hi.ready j c (hcalls ▸ hc) hready
      exact ⟨hsend', fun k hk => hwire k (h.2 k hk)⟩
    · have h := (hi.keyed hsend).resolve_left (by rw [hreader]; exact id)
      rw [← hpending, ← hcalls] at h
      exact .inr h

theorem Inv.other (hH : H.Keying) (hi : w.Inv) (payload : Bytes) : (w.other payload).Inv := by
  have hset : Inv { w with session := (H.encrypt w.session payload).1 } := hi.setSession (hH.canSend_encrypt _ _)
  unfold Conn.other
  dsimp only
  split
  · next ct _ =>
    refine ⟨?_, ?_, hset.keyed, hset.reader, hset.present⟩
    · have hnext : Lined w.calls (w.wire.map Prod.fst ++ ⟨none, payload⟩ :: (w.flush ++ w.pending)) :=
        hset.lined.other rfl
      simpa [flush] using hnext
    · intro j c hc hready
      exact ⟨(hset.ready j c hc hready).1,
        fun k hk => mem_transmitted_write ((hset.ready j c hc hready).2 k hk) _ _⟩
  · exact hset

theorem Inv.step (hH : H.Keying) (hi : w.Inv) {e : Event} (hok : w.Orderly e) : (w.step e).Inv := by
  cases e with
  | call payload => exact hi.call payload
  | turn i => exact hi.turn hH hok
  | frame bytes presentation => exact hi.frame hH bytes presentation
  | turnReader => exact hi.turnReader hH hok
  | other payload => exact hi.other hH payload

theorem Inv.delivers (hi : w.Inv) : w.Delivers := by
  have hline := callsOf_append (w.wire.map Prod.fst) (w.flush ++ w.pending)
  have hnodup := hi.lined.nodup
  rw [hline] at hnodup
  have hempty : w.Quiet → H.canSend w.session = true → w.pending = [] := by
    intro hquiet hsend
    exact ((hi.keyed hsend).resolve_left (by rw [hquiet.2]; exact id)).1
  refine ⟨?_, hnodup.of_append_left, ?_, ?_, hempty⟩
  · intro e he
    exact hi.lined.payload e.1 (List.mem_append_left _ (List.mem_map_of_mem he))
  · intro j c hc hj i hbefore
    have hpair := hi.lined.ordered j c hc (by rw [hline]; exact List.mem_append_left _ hj) i hbefore
    rw [hline, List.sublist_append_iff] at hpair
    obtain ⟨l₁, l₂, heq, hl₁, hl₂⟩ := hpair
    -- `j` is on the wire, so it does not wait
    have hnil : l₂ = [] := by
      by_contra hne
      have hlast : j ∈ l₂ := by
        have h := congrArg List.getLast? heq
        rw [List.getLast?_append_of_ne_nil _ hne] at h
        exact List.mem_of_getLast? h.symm
      exact (List.disjoint_of_nodup_append hnodup) hj (hl₂.subset hlast)
    rw [hnil, List.append_nil] at heq
    rw [heq]
    exact hl₁
  · intro hquiet hsend i hlt
    have hmem : i ∈ callsOf (w.wire.map Prod.fst ++ (w.flush ++ w.pending)) := by
      rw [hi.lined.mem, List.getElem?_eq_getElem hlt, Option.map_some, hquiet.1 _ (List.getElem_mem hlt)]
    rw [flush, hquiet.2, hempty hquiet hsend, List.append_nil, List.append_nil] at hmem
    exact hmem

/-! ## Deliveries -/

/-- In every orderly run from a connection that cannot send yet, the payloads of calls are neither lost nor repeated
nor reordered, and the queue does not keep any. -/
theorem delivers_of_orderly (hH : H.Keying) {session : H.Session} (hmute : H.canSend session = false)
    {replay : List Bytes} {evs : List Event} (h : Run.Along step Orderly (new session replay) evs) :
    ((new session replay).run evs).Delivers :=
  (h.invariant (fun _ _ hi hok => hi.step hH hok) (Inv.new hmute replay)).delivers

namespace Sample
open Relay.Switch.Sample (plain plain_lawful)

theorem plain_keying : plain.Keying where
  encrypts := plain_lawful
  canSend_encrypt _ _ := rfl
  canSend_decrypt _ _ _ _ := rfl
  decrypt_error _ _ _ h := by cases h

/-- A call before the first frame, the flush, and a call after it. -/
def served : List Event :=
  [.call [1], .turn 0, .turn 0, .frame [9] [[7]], .turnReader, .turnReader, .turnReader, .turnReader, .turnReader,
    .turnReader, .turnReader, .call [2], .turn 1, .turn 1, .turn 1]

theorem delivers_served :
    ((new (H := plain) false []).run served).transmitted = [0, 1] ∧ ((new (H := plain) false []).run served).Delivers :=
  ⟨by decide +kernel, delivers_of_orderly plain_keying rfl (by decide +kernel)⟩

/-- The call looks at the session before the first frame is decrypted and pushes after the flush: at rest, with a
session that can send, its payload waits in the queue. -/
theorem stranded :
    let w := (new (H := plain) false []).run
      [.call [1], .turn 0, .frame [9] [], .turnReader, .turnReader, .turnReader, .turn 0]
    (∀ c ∈ w.calls, c.phase = .returned) ∧ w.reader = .listening ∧ plain.canSend w.session = true ∧
      w.pending = [⟨some 0, [1]⟩] ∧ w.transmitted = [] := by
  exact ⟨by decide +kernel, rfl, by decide +kernel, by decide +kernel, by decide +kernel⟩

-- A call that is made when the first one has returned and the session is keyed overtakes the queue.
example :
    let w := (new (H := plain) false []).run
      [.call [1], .turn 0, .turn 0, .frame [9] [], .call [2], .turn 1, .turn 1, .turn 1, .turnReader, .turnReader,
        .turnReader, .turnReader, .turnReader]
    w.calls.map Call.before = [[], [0]] ∧ w.transmitted = [1, 0] := by
  decide +kernel

end Sample

end Conn
end Pending
end Talkrypt.Core
