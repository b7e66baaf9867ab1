import Talkrypt.Transport.Reassembly

/-! Chat frames over a mesh: senders that number their messages with a wrapping 16-bit counter, an air that
loses, repeats and reorders packets, and one listener that reassembles what it hears. -/

namespace Talkrypt
namespace Mesh

open Reassembler

/-- The source a packet is filed under: the node id in hex, or one name for all packets without an id. -/
def sourceKey : Option UInt32 → String
  | some id =>
    let digits := String.ofList (Nat.toDigits 16 id.toNat)
    "".pushn '0' (8 - digits.length) ++ digits
  | none => "mesh"

structure Sent where
  source : String
  msgId : UInt16
  payload : Bytes
  packets : List Bytes

namespace Sent

def key (e : Sent) : Key := (e.source, e.msgId, KIND_FRAME)

def chunks (e : Sent) : List Bytes := e.packets.map fun packet => packet.drop HEADER_LEN

end Sent

/-- The senders' counters, all that was sent, the listener and what it took for messages. -/
structure Air (ι : Type) where
  msgId : ι → UInt16
  sent : List Sent
  reasm : Reassembler
  returned : List Bytes

namespace Air

inductive Event (ι : Type) where
  | tee (i : ι) (bytes : Bytes) (mtu : Nat)
  | restart (i : ι)
  /-- Packet `j` of the message `n` reaches the listener. -/
  | hear (n j : Nat)

def start (ι : Type) : Air ι where
  msgId _ := 0
  sent := []
  reasm := .forKind KIND_FRAME
  returned := []

variable {ι : Type} [DecidableEq ι] (id : ι → Option UInt32)

def meshTee (a : Air ι) (i : ι) (bytes : Bytes) (mtu : Nat) : Air ι :=
  let a' := { a with msgId := Function.update a.msgId i (a.msgId i + 1) }
  match fragment KIND_FRAME (a.msgId i) bytes mtu with
  | none => a'
  | some frags => { a' with sent := a.sent ++ [⟨sourceKey (id i), a.msgId i, bytes, frags⟩] }

omit [DecidableEq ι] in
def onPacket (a : Air ι) (source : String) (packet : Bytes) : Air ι :=
  let (reasm, out) := a.reasm.accept source packet
  { a with reasm, returned := a.returned ++ out.toList }

def step (a : Air ι) : Event ι → Air ι
  | .tee i bytes mtu => a.meshTee id i bytes mtu
  | .restart i => { a with msgId := Function.update a.msgId i 0 }
  | .hear n j =>
    match a.sent[n]? with
    | none => a
    | some e =>
      match e.packets[j]? with
      | none => a
      | some packet => a.onPacket e.source packet

def run (evs : List (Event ι)) : Air ι := evs.foldl (step id) (start ι)

/-- A packet is heard while the listener holds, under the packet's key, nothing but chunks of the packet's
own message. -/
def Clear (a : Air ι) : Event ι → Prop
  | .hear n _ => ∀ e, a.sent[n]? = some e → ∀ p, a.reasm.partials.lookup e.key = some p → p.Holds e.chunks
  | _ => True

instance (a : Air ι) (ev : Event ι) : Decidable (a.Clear ev) :=
  match ev with
  | .hear n _ => inferInstanceAs (Decidable
      (∀ e, a.sent[n]? = some e → ∀ p, a.reasm.partials.lookup e.key = some p → p.Holds e.chunks))
  | .tee _ _ _ => .isTrue trivial
  | .restart _ => .isTrue trivial

/-! ### What is on the air -/

def Whole (e : Sent) : Prop :=
  ∃ m : Cut, m.kind = KIND_FRAME ∧ m.msgId = e.msgId ∧ m.payload = e.payload ∧ m.packets = e.packets

theorem chunks_packets (m : Cut) : m.packets.map (fun packet => packet.drop HEADER_LEN) = m.chunks := by
  have hdrop : ∀ i chunk, (m.fragmentAt i chunk).encode.drop HEADER_LEN = chunk := fun i chunk => by
    simp [Fragment.encode, Cut.fragmentAt, toBeBytes, HEADER_LEN]
  rw [Cut.packets, List.map_map]
  simp only [Function.comp_def, hdrop]
  exact List.zipIdx_map_fst 0 m.chunks

structure Inv (a : Air ι) : Prop where
  whole : ∀ e ∈ a.sent, Whole e
  kind : a.reasm.onlyKind = some KIND_FRAME
  returned : ∀ b ∈ a.returned, ∃ e ∈ a.sent, e.payload = b

variable {a : Air ι} {e : Sent} {n j : Nat}

omit [DecidableEq ι] in
theorem takes (h : a.Inv) : a.reasm.Takes KIND_FRAME := fun _ hw =>
  (Option.some.inj (h.kind.symm.trans hw)).symm

omit [DecidableEq ι] in
theorem inv_start : (start ι).Inv where
  whole _ he := by cases he
  kind := rfl
  returned _ hb := by cases hb

/-- The message that a heard packet belongs to, as the listener knows it. -/
structure Follows (a : Air ι) (e : Sent) (m : Cut) : Prop where
  kind : m.kind = KIND_FRAME
  payload : m.payload = e.payload
  packets : m.packets = e.packets
  key : keyOf e.source m = e.key
  holds : (a.reasm.slotOf e.source m).Holds m.chunks

omit [DecidableEq ι] in
theorem exists_follows (h : a.Inv) (he : e ∈ a.sent)
    (hclear : ∀ p, a.reasm.partials.lookup e.key = some p → p.Holds e.chunks) : ∃ m, a.Follows e m := by
  obtain ⟨m, hkind, hid, hpay, hpackets⟩ := h.whole e he
  have hkey : keyOf e.source m = e.key := by rw [keyOf, hkind, hid, Sent.key]
  refine ⟨m, hkind, hpay, hpackets, hkey, ?_⟩
  rw [slotOf, slot, hkey]
  cases hlook : a.reasm.partials.lookup e.key with
  | none => exact .new
  | some p =>
    rw [← chunks_packets m, hpackets]
    exact hclear p hlook

theorem Follows.hear {m : Cut} (hf : a.Follows e m) (h : a.Inv) (he : a.sent[n]? = some e)
    (hj : j < m.chunks.length) :
    ∃ chunk, m.chunks[j]? = some chunk ∧
      (((a.reasm.slotOf e.source m).put j chunk).isDone = false ∧
        (step id a (.hear n j)).Follows e m ∧
        (step id a (.hear n j)).reasm.slotOf e.source m = (a.reasm.slotOf e.source m).put j chunk ∧
        (step id a (.hear n j)).returned = a.returned ∨
      (step id a (.hear n j)).returned = a.returned ++ [e.payload]) := by
  have hc := List.getElem?_eq_getElem hj
  have hp : e.packets[j]? = some (own e.source m j m.chunks[j]).packet := by
    rw [← hf.packets, Cut.packets, List.getElem?_map, List.getElem?_zipIdx, hc]
    simp [own]
  have hstep : step id a (.hear n j) = a.onPacket e.source (own e.source m j m.chunks[j]).packet := by
    rw [step, he]
    dsimp only
    rw [hp]
  refine ⟨_, hc, ?_⟩
  rw [hstep]
  rcases accept_own (hf.kind ▸ takes h) hf.holds hc with ⟨hdone, hlook, hret⟩ | ⟨-, -, hret⟩
  · have hslot : (a.onPacket e.source (own e.source m j m.chunks[j]).packet).reasm.slotOf e.source m =
        (a.reasm.slotOf e.source m).put j m.chunks[j] := by
      have hlook' : (a.onPacket e.source (own e.source m j m.chunks[j]).packet).reasm.partials.lookup
          (keyOf e.source m) = some ((a.reasm.slotOf e.source m).put j m.chunks[j]) := hlook
      rw [slotOf, slot, hlook', Option.getD_some]
    refine .inl ⟨hdone, ⟨hf.kind, hf.payload, hf.packets, hf.key, ?_⟩, hslot, ?_⟩
    · rw [hslot]
      exact hf.holds.put hc
    · simp [onPacket, hret]
  · refine .inr ?_
    simp [onPacket, hret, hf.payload]

theorem sent_hear (a : Air ι) (n j : Nat) : (step id a (.hear n j)).sent = a.sent := by
  rw [step]
  split
  · rfl
  · split <;> rfl

theorem step_hear_of_none (he : a.sent[n]? = some e) (hj : e.packets[j]? = none) : step id a (.hear n j) = a := by
  rw [step, he]
  dsimp only
  rw [hj]

theorem returned_grows (a : Air ι) (ev : Event ι) : a.returned <+: (step id a ev).returned := by
  cases ev with
  | tee i bytes mtu =>
    rw [step, meshTee]
    split <;> exact List.prefix_rfl
  | restart i => exact List.prefix_rfl
  | hear n j =>
    rw [step]
    split
    · exact List.prefix_rfl
    · split
      · exact List.prefix_rfl
      · exact List.prefix_append ..

theorem returned_grows_foldl (a : Air ι) (evs : List (Event ι)) :
    a.returned <+: (evs.foldl (step id) a).returned := by
  induction evs generalizing a with
  | nil => exact List.prefix_rfl
  | cons ev evs ih => exact (returned_grows id a ev).trans (ih (step id a ev))

/-! ### One step, then runs -/

theorem inv_step (h : a.Inv) (ev : Event ι) (hclear : a.Clear ev) : (step id a ev).Inv := by
  cases ev with
  | restart i => exact ⟨h.whole, h.kind, h.returned⟩
  | tee i bytes mtu =>
    rw [step, meshTee]
    split
    · exact ⟨h.whole, h.kind, h.returned⟩
    · next frags hfrag =>
      obtain ⟨m, hkind, hid, hpay, hpackets, -⟩ := fragment_eq_some hfrag
      refine ⟨fun e he => ?_, h.kind, fun b hb => ?_⟩
      · rcases List.mem_append.mp he with he | he
        · exact h.whole e he
        · obtain rfl := List.mem_singleton.mp he
          exact ⟨m, hkind, hid, hpay, hpackets⟩
      · obtain ⟨e, he, heq⟩ := h.returned b hb
        exact ⟨e, List.mem_append_left _ he, heq⟩
  | hear n j =>
    cases he : a.sent[n]? with
    | none =>
      rw [step, he]
      exact h
    | some e =>
      cases hp : e.packets[j]? with
      | none =>
        rw [step_hear_of_none id he hp]
        exact h
      | some packet =>
        have hmem := List.mem_of_getElem? he
        obtain ⟨m, hf⟩ := exists_follows h hmem (hclear e he)
        have hlen : m.packets.length = m.chunks.length := by simp [Cut.packets]
        have hj : j < m.chunks.length := by
          rw [← hlen, hf.packets]
          exact (List.getElem?_eq_some_iff.mp hp).1
        refine ⟨?_, ?_, ?_⟩
        · rw [sent_hear]
          exact h.whole
        · rw [step, he]
          dsimp only
          rw [hp]
          exact (receive_limits a.reasm ⟨e.source, packet⟩).2.2.trans h.kind
        · rw [sent_hear]
          obtain ⟨chunk, -, ⟨-, -, -, hret⟩ | hret⟩ := hf.hear id h he hj <;> rw [hret]
          · exact h.returned
          · intro b hb
            rcases List.mem_append.mp hb with hb | hb
            · exact h.returned b hb
            · exact ⟨e, hmem, (List.mem_singleton.mp hb).symm⟩

/-- While only packets of one message are heard, and each of its chunks comes in or is held already, the
message is returned. -/
theorem Follows.burst {m : Cut} (js : List Nat) (h : a.Inv) (hf : a.Follows e m) (he : a.sent[n]? = some e)
    (hcover : ∀ j < m.chunks.length, j ∈ js ∨ (a.reasm.slotOf e.source m).chunks[j]? ≠ some none)
    (hlive : (a.reasm.slotOf e.source m).isDone = false ∨ ∃ j ∈ js, j < m.chunks.length) :
    e.payload ∈ ((js.map (.hear n)).foldl (step id) a).returned.drop a.returned.length := by
  induction js generalizing a with
  | nil =>
    have hfull := hf.holds.isDone_iff.mpr fun j hj => (hcover j hj).resolve_left (by simp)
    rcases hlive with hlive | ⟨j, hj, -⟩
    · rw [hfull] at hlive
      cases hlive
    · cases hj
  | cons j js ih =>
    rw [List.map_cons, List.foldl_cons]
    by_cases hj : j < m.chunks.length
    · have hinv : (step id a (.hear n j)).Inv := inv_step id h (.hear n j) fun e' he' p hlook => by
        obtain rfl : e = e' := Option.some.inj (he.symm.trans he')
        have hslot := hf.holds
        rw [slotOf, slot, hf.key, hlook, Option.getD_some, ← chunks_packets m, hf.packets] at hslot
        exact hslot
      obtain ⟨chunk, hc, ⟨hdone, hf', hslot, hret⟩ | hret⟩ := hf.hear id h he hj
      · have hrec := ih hinv hf' ((sent_hear id a n j).symm ▸ he) (fun i hi => ?_) (.inl (hslot.symm ▸ hdone))
        · rwa [hret] at hrec
        · rw [hslot, Ne, Partial.put_getElem?_eq_none (hf.holds.within.length_eq.symm ▸ hj)]
          by_cases hij : i = j
          · exact .inr fun hn => hn.1 hij
          · rcases hcover i hi with hi | hi
            · exact .inl ((List.mem_cons.mp hi).resolve_left hij)
            · exact .inr fun hn => hi hn.2
      · obtain ⟨rest, hrest⟩ := returned_grows_foldl id (step id a (.hear n j)) (js.map (.hear n))
        rw [← hrest, hret]
        simp
    · have hnone : e.packets[j]? = none := by
        rw [← hf.packets, List.getElem?_eq_none_iff]
        simpa [Cut.packets] using hj
      rw [step_hear_of_none id he hnone]
      refine ih h hf he (fun i hi => ?_) ?_
      · refine (hcover i hi).imp_left fun hmem => (List.mem_cons.mp hmem).resolve_left ?_
        rintro rfl
        exact hj hi
      · refine hlive.imp_right fun hin => ?_
        obtain ⟨i, hmem, hi⟩ := hin
        refine ⟨i, (List.mem_cons.mp hmem).resolve_left ?_, hi⟩
        rintro rfl
        exact hj hi

theorem run_append (pre evs : List (Event ι)) : run id (pre ++ evs) = evs.foldl (step id) (run id pre) :=
  List.foldl_append ..

/-- In a run in which no packet is heard beside chunks of another message with its key, all that is returned
was sent, and a message whose packets are heard one after the other is returned. -/
theorem unmixed_of_clear (id : ι → Option UInt32) (evs : List (Event ι))
    (h : Run.Along (step id) Clear (start ι) evs) :
    (∀ b ∈ (run id evs).returned, ∃ e ∈ (run id evs).sent, e.payload = b) ∧
    ∀ (pre : List (Event ι)) (n : Nat) (js : List Nat) (post : List (Event ι)) (e : Sent), evs = pre ++ js.map (.hear n) ++ post → (run id pre).sent[n]? = some e →
      (∀ j < e.packets.length, j ∈ js) →
      e.payload ∈ (run id (pre ++ js.map (.hear n))).returned.drop (run id pre).returned.length := by
  have hinv : ∀ {evs : List (Event ι)}, Run.Along (step id) Clear (start ι) evs → (run id evs).Inv :=
    fun h => h.invariant (fun _ ev hI hc => inv_step id hI ev hc) inv_start
  refine ⟨(hinv h).returned, ?_⟩
  rintro pre n js post e rfl he hcover
  obtain ⟨hpre, hburst⟩ := Run.along_append.mp (Run.along_append.mp h).1
  obtain ⟨m, -, -, -, hpackets⟩ := (hinv hpre).whole e (List.mem_of_getElem? he)
  have hlen : e.packets.length = m.chunks.length := by simp [← hpackets, Cut.packets]
  have hpos : 0 < e.packets.length := hlen ▸ List.length_pos_iff.mpr m.chunks_ne
  cases js with
  | nil => exact absurd (hcover 0 hpos) (by simp)
  | cons j js =>
    obtain ⟨m', hf⟩ := exists_follows (hinv hpre) (List.mem_of_getElem? he) (hburst.1 e he)
    have hlen' : m'.chunks.length = e.packets.length := by simp [← hf.packets, Cut.packets]
    rw [run_append]
    exact hf.burst id (j :: js) (hinv hpre) he (fun i hi => .inl (hcover i (hlen' ▸ hi)))
      (.inr ⟨0, hcover 0 hpos, hlen' ▸ hpos⟩)

/-- Two senders with node ids use the same message id, and their packets interleave. -/
def numbered : List (Event Bool) :=
  [.tee true [1, 2] 11, .tee false [3, 4] 11, .hear 0 0, .hear 1 1, .hear 1 0, .hear 0 1]

def twoNodes : Bool → Option UInt32 := fun i => some (if i then 1 else 2)

theorem unmixed_numbered : Run.Along (step twoNodes) Clear (start Bool) numbered ∧
    (∀ b ∈ (run twoNodes numbered).returned, ∃ e ∈ (run twoNodes numbered).sent, e.payload = b) ∧
    (run twoNodes numbered).returned = [[3, 4], [1, 2]] := by
  have h : Run.Along (step twoNodes) Clear (start Bool) numbered := by decide +kernel
  exact ⟨h, (unmixed_of_clear twoNodes numbered h).1, by decide +kernel⟩

/-- A sender loses the end of one message, restarts, and loses the start of the next. -/
def restarted : List (Event Bool) :=
  [.tee true [1, 2] 11, .restart true, .tee true [3, 4] 11, .hear 0 0, .hear 1 1]

/-- A packet of one sender without a node id, then a whole message of another such sender. -/
def crowded : List (Event Bool) :=
  [.tee true [1, 2, 3] 11, .tee false [4, 5] 11, .hear 0 0, .hear 1 0, .hear 1 1]

/-- A message nobody sent is returned, and one that was heard whole is not. -/
theorem mixed_and_blocked :
    (run twoNodes restarted).returned = [[1, 4]] ∧ (run twoNodes restarted).sent.map Sent.payload = [[1, 2], [3, 4]] ∧
    (run (fun _ => none) crowded).returned = [] := by
  decide +kernel

end Air

end Mesh
end Talkrypt
