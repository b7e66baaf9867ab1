import Talkrypt.Lib.Run
import Talkrypt.Transport.MeshStream

/-! One direction of a mesh connection over a network that loses, repeats, delays and reorders packets.
The writer cuts each frame into segments and sends them one at a time, each until it is acknowledged; the
peer's demultiplexer acknowledges a segment before it queues it for the reader. The other direction uses
channels of its own at both ends, so what is said here holds for each direction.

The network keeps every packet it was ever given, and a delivery picks any of them: losing a packet is not
delivering it. Beside the state of the code stands what happened: the frames passed to `send_frame`, the
results of the calls, the segments that arrived and the frames returned. -/

namespace Talkrypt
namespace MeshTransport

/-- A frame, by its place among all that were sent, and a segment of it. -/
abbrev Tag := Nat × Nat

structure Sending where
  msgSeq : UInt16
  segs : List Bytes
  idx : Nat
  tries : Nat
  /-- Whether the call is waiting for its acknowledgement. -/
  waiting : Bool
deriving DecidableEq

structure Link where
  mtu : Nat
  retries : Nat
  connId : UInt64
  nextMsgSeq : UInt16
  sending : Option Sending
  ackRx : List (Tag × InPkt)
  /-- The packets of the writer and those of the peer's demultiplexer. -/
  data : List (Tag × Bytes)
  acks : List (Tag × Bytes)
  /-- The packet the demultiplexer has acknowledged and not queued yet. -/
  pending : Option InPkt
  dataRx : List InPkt
  reader : MeshReader
  passed : List Bytes
  results : List Bool
  arrivals : List (Tag × InPkt)
  returned : List Bytes

/-- The segments that `arrived` hold all of frame `k`. -/
def Whole (mtu : Nat) (passed : List Bytes) (arrived : List Tag) (k : Nat) : Prop :=
  ∀ frame ∈ passed[k]?, ∀ j < (segments mtu frame).length, (k, j) ∈ arrived

instance (mtu : Nat) (passed : List Bytes) (arrived : List Tag) (k : Nat) :
    Decidable (Whole mtu passed arrived k) :=
  inferInstanceAs (Decidable (∀ frame ∈ passed[k]?, ∀ j < (segments mtu frame).length, (k, j) ∈ arrived))

inductive Event
  | send (frame : Bytes)
  | transmit
  | timeout
  | readAck
  | deliverData (n : Nat)
  | enqueue
  | deliverAck (n : Nat)
  | recv
deriving DecidableEq

namespace Link

/-- A connection that has just been set up. The answer to the dial may still be under way. -/
def new (mtu retries : Nat) (connId : UInt64) : Link where
  mtu
  retries
  connId
  nextMsgSeq := 0
  sending := none
  ackRx := []
  data := []
  acks := [((0, 0), encodeCtrl T_SYN_ACK connId 0 0)]
  pending := none
  dataRx := []
  reader := .new
  passed := []
  results := []
  arrivals := []
  returned := []

def send (s : Link) (frame : Bytes) : Link :=
  match s.sending with
  | some _ => s
  | none =>
    { s with
      nextMsgSeq := s.nextMsgSeq + 1
      sending := some ⟨s.nextMsgSeq, segments s.mtu frame, 0, 0, false⟩
      passed := s.passed ++ [frame] }

def transmit (s : Link) : Link :=
  match s.sending with
  | none => s
  | some c =>
    if c.waiting then s
    else match c.segs[c.idx]? with
      | none => s
      | some seg =>
        let pkt := encodeData s.connId c.msgSeq (UInt16.ofNat c.idx) (UInt16.ofNat c.segs.length) seg
        { s with
          data := s.data ++ [((s.passed.length - 1, c.idx), pkt)]
          sending := some { c with tries := c.tries + 1, waiting := true } }

/-- No acknowledgement came: the segment is sent again, or the call fails. -/
def timeout (s : Link) : Link :=
  match s.sending with
  | none => s
  | some c =>
    if ¬ c.waiting then s
    else if c.tries < max s.retries 1 then { s with sending := some { c with waiting := false } }
    else { s with sending := none, results := s.results ++ [false] }

/-- The current segment is acknowledged: the next one follows, or the call returns. -/
def acked (s : Link) (c : Sending) : Link :=
  if c.idx + 1 < c.segs.length then
    { s with sending := some { c with idx := c.idx + 1, tries := 0, waiting := false } }
  else { s with sending := none, results := s.results ++ [true] }

/-- The waiting call takes a packet from its channel. -/
def readAck (s : Link) : Link :=
  match s.sending, s.ackRx with
  | some c, (_, p) :: rest =>
    if ¬ c.waiting then s
    else if p.typ = T_DATA_ACK ∧ p.msgSeq = c.msgSeq ∧ p.fragIdx = UInt16.ofNat c.idx then
      acked { s with ackRx := rest } c
    -- stale or mismatched: the call keeps waiting
    else { s with ackRx := rest }
  | _, _ => s

def deliverData (s : Link) (n : Nat) : Link :=
  match s.pending, s.data[n]? with
  | none, some (tag, bytes) =>
    match route (· == s.connId) bytes with
    | .data reply p =>
      { s with
        acks := s.acks ++ [(tag, reply)]
        pending := some p.toInPkt
        arrivals := s.arrivals ++ [(tag, p.toInPkt)] }
    | _ => s
  | _, _ => s

def enqueue (s : Link) : Link :=
  { s with pending := none, dataRx := s.dataRx ++ s.pending.toList }

def deliverAck (s : Link) (n : Nat) : Link :=
  match s.acks[n]? with
  | none => s
  | some (tag, bytes) =>
    match route (· == s.connId) bytes with
    | .ack p => { s with ackRx := s.ackRx ++ [(tag, p.toInPkt)] }
    | _ => s

def recv (s : Link) : Link :=
  match s.dataRx with
  | [] => s
  | p :: rest =>
    { s with
      dataRx := rest
      reader := (s.reader.push p).1
      returned := s.returned ++ (s.reader.push p).2.toList }

def step (s : Link) : Event → Link
  | .send frame => s.send frame
  | .transmit => s.transmit
  | .timeout => s.timeout
  | .readAck => s.readAck
  | .deliverData n => s.deliverData n
  | .enqueue => s.enqueue
  | .deliverAck n => s.deliverAck n
  | .recv => s.recv

def run (s : Link) (evs : List Event) : Link := evs.foldl step s

def arrived (s : Link) : List Tag := s.arrivals.map Prod.fst

def Complete (s : Link) (k : Nat) : Prop := Whole s.mtu s.passed s.arrived k

instance (s : Link) (k : Nat) : Decidable (s.Complete k) :=
  inferInstanceAs (Decidable (Whole s.mtu s.passed s.arrived k))

/-- No call follows a failed one and no frame has more segments than the reader takes; no segment arrives
of a frame that has arrived whole; and no acknowledgement read belongs to an older frame whose number came
round to the present one. -/
def Orderly (s : Link) : Event → Prop
  | .send frame => s.sending = none →
    s.results.getLast? ≠ some false ∧ (segments s.mtu frame).length ≤ MAX_SEGMENTS.toNat
  | .deliverData n => s.pending = none → ∀ e ∈ s.data[n]?, ¬ s.Complete e.1.1
  | .readAck => ∀ c ∈ s.sending, ∀ e ∈ s.ackRx.head?,
    e.2.typ = T_DATA_ACK → e.2.msgSeq = c.msgSeq → e.1.1 + 1 = s.passed.length
  | _ => True

instance (s : Link) : (e : Event) → Decidable (s.Orderly e)
  | .send frame => inferInstanceAs (Decidable (s.sending = none →
      s.results.getLast? ≠ some false ∧ (segments s.mtu frame).length ≤ MAX_SEGMENTS.toNat))
  | .deliverData n => inferInstanceAs (Decidable (s.pending = none → ∀ e ∈ s.data[n]?, ¬ s.Complete e.1.1))
  | .readAck => inferInstanceAs (Decidable (∀ c ∈ s.sending, ∀ e ∈ s.ackRx.head?,
      e.2.typ = T_DATA_ACK → e.2.msgSeq = c.msgSeq → e.1.1 + 1 = s.passed.length))
  | .transmit | .timeout | .enqueue | .deliverAck _ | .recv => inferInstanceAs (Decidable True)

end Link

/-! ### The writer's and the reader's place in what was sent -/

section
variable (mtu : Nat) (passed : List Bytes) (arrived : List Tag)

/-- The packet is the segment `tag` of the frames passed. -/
def Carries (tag : Tag) (p : InPkt) : Prop :=
  ∃ frame seg, passed[tag.1]? = some frame ∧ (segments mtu frame)[tag.2]? = some seg ∧
    p = segmentPkt (UInt16.ofNat tag.1) (segments mtu frame) tag.2 seg

/-- The call in progress is that of the last frame, and what it has passed over has arrived. -/
structure Serves (c : Sending) (before : List Bytes) (frame : Bytes) : Prop where
  passed : passed = before ++ [frame]
  msgSeq : c.msgSeq = UInt16.ofNat before.length
  segs : c.segs = segments mtu frame
  idx : c.idx < c.segs.length
  acked : ∀ j < c.idx, (before.length, j) ∈ arrived

/-- Where the reader stands once it has read all that arrived: between two frames, or inside the last. -/
inductive View (r : MeshReader) (out : List Bytes) : Prop
  | between (hempty : r.Empty) (hout : out = passed) (hall : ∀ k < passed.length, Whole mtu passed arrived k)
  | inside (before : List Bytes) (frame : Bytes) (xs : List (Option Bytes))
      (hpassed : passed = before ++ [frame]) (hout : out = before)
      (hcol : r.Collects (UInt16.ofNat before.length) xs)
      (hwithin : Slots.Within xs (segments mtu frame))
      (hslots : ∀ j < (segments mtu frame).length, xs[j]? = some none ↔ (before.length, j) ∉ arrived)
      (hpart : Slots.filled xs ≠ (segments mtu frame).length)

end

section
variable {mtu : Nat} {passed : List Bytes} {arrived : List Tag} {tag : Tag} {p : InPkt} {frame : Bytes}
  {r : MeshReader} {out : List Bytes}

theorem Carries.concat (h : Carries mtu passed tag p) (frame : Bytes) :
    Carries mtu (passed ++ [frame]) tag p := by
  obtain ⟨frame', seg, hframe, hseg, rfl⟩ := h
  refine ⟨frame', seg, ?_, hseg, rfl⟩
  rw [List.getElem?_append_left (List.getElem?_eq_some_iff.mp hframe).1, hframe]

theorem Carries.bounds (h : Carries mtu passed tag p) :
    ∃ frame, passed[tag.1]? = some frame ∧ tag.2 < (segments mtu frame).length := by
  obtain ⟨frame, seg, hframe, hseg, -⟩ := h
  exact ⟨frame, hframe, (List.getElem?_eq_some_iff.mp hseg).1⟩

theorem Whole.concat {k : Nat} (h : Whole mtu passed arrived k) (hk : k < passed.length) (frame : Bytes) :
    Whole mtu (passed ++ [frame]) arrived k := by
  intro frame' hframe'
  rw [List.getElem?_append_left hk] at hframe'
  exact h frame' hframe'

theorem Whole.mono {arrived' : List Tag} {k : Nat} (h : Whole mtu passed arrived k)
    (hsub : ∀ t ∈ arrived, t ∈ arrived') : Whole mtu passed arrived' k :=
  fun frame hframe j hj => hsub _ (h frame hframe j hj)

theorem View.of_whole (hview : View mtu passed arrived r out)
    (hall : ∀ k < passed.length, Whole mtu passed arrived k) : r.Empty ∧ out = passed := by
  cases hview with
  | between hempty hout _ => exact ⟨hempty, hout⟩
  | inside before frame xs hpassed _ _ hwithin hslots hpart =>
    exfalso
    apply hpart
    rw [hwithin.filled_eq_length_iff_forall]
    intro j hj hnone
    have hlast := hall before.length (by simp [hpassed])
    exact (hslots j hj).mp hnone (hlast frame (by simp [hpassed]) j hj)

theorem View.isPrefix (hview : View mtu passed arrived r out) : out <+: passed := by
  cases hview with
  | between _ hout _ => exact hout ▸ List.prefix_refl _
  | inside before frame _ hpassed hout => exact hout ▸ hpassed ▸ List.prefix_append _ _

theorem View.begin (hempty : r.Empty) (hnew : ∀ j, (passed.length, j) ∉ arrived) :
    View mtu (passed ++ [frame]) arrived r passed := by
  refine .inside passed frame (List.replicate (segments mtu frame).length none) rfl rfl
    (hempty.collects _ _) (Slots.Within.replicate _) ?_ ?_
  · intro j hj
    rw [List.getElem?_replicate, if_pos hj]
    exact iff_of_true rfl (hnew j)
  · have hfilled : Slots.filled (List.replicate (segments mtu frame).length (none : Option Bytes)) = 0 :=
      Slots.weight_replicate _
    rw [hfilled]
    exact (List.length_pos_iff.mpr (segments_ne_nil _ _)).ne

theorem View.push (hview : View mtu passed arrived r out) (hcarries : Carries mtu passed tag p)
    (hsmall : ∀ frame ∈ passed, (segments mtu frame).length ≤ MAX_SEGMENTS.toNat)
    (hearlier : ∀ k, k + 1 < passed.length → Whole mtu passed arrived k)
    (hnot : ¬ Whole mtu passed arrived tag.1) :
    View mtu passed (arrived ++ [tag]) (r.push p).1 (out ++ (r.push p).2.toList) := by
  have hlt : tag.1 < passed.length := by
    obtain ⟨frame, hframe, -⟩ := hcarries.bounds
    exact (List.getElem?_eq_some_iff.mp hframe).1
  cases hview with
  | between _ _ hall => exact absurd (hall tag.1 hlt) hnot
  | inside before frame xs hpassed hout hcol hwithin hslots hpart =>
    -- only the last frame is not whole
    obtain ⟨k, i⟩ := tag
    obtain rfl : k = before.length := by
      have hlast : ¬ k + 1 < passed.length := fun hk => hnot (hearlier k hk)
      simp only [hpassed, List.length_append, List.length_singleton] at hlt hlast
      omega
    obtain ⟨frame', seg, hframe', hseg, rfl⟩ := hcarries
    obtain rfl : frame = frame' := by simpa [hpassed] using hframe'
    have hi : i < (segments mtu frame).length := (List.getElem?_eq_some_iff.mp hseg).1
    have hlen := hsmall frame (by simp [hpassed])
    have hmem : ∀ j, (before.length, j) ∈ arrived ++ [(before.length, i)] ↔
        (before.length, j) ∈ arrived ∨ j = i := by
      simp
    by_cases hmiss : xs[i]? = some none
    · have hset : ∀ j < (segments mtu frame).length, (xs.set i (some seg))[j]? = some none ↔
          (before.length, j) ∉ arrived ++ [(before.length, i)] := by
        intro j hj
        rw [hmem, not_or, ← hslots j hj, List.getElem?_set]
        have hixs : i < xs.length := hwithin.length_eq ▸ hi
        by_cases hij : i = j
        · simp [hij, hij ▸ hixs]
        · simp [hij, Ne.symm hij]
      by_cases hfull : Slots.filled xs + 1 = (segments mtu frame).length
      · obtain ⟨hgiven, hempty⟩ := MeshReader.push_of_last hcol hwithin hlen hseg hmiss hfull
        refine .between hempty ?_ ?_
        · rw [hgiven, flatten_segments, hout, hpassed, Option.toList_some]
        · intro k hk
          by_cases hkl : k = before.length
          · subst hkl
            intro frame'' hframe'' j hj
            obtain rfl : frame = frame'' := by simpa [hpassed] using hframe''
            by_contra hnone
            have hfilled : Slots.filled (xs.set i (some seg)) = (segments mtu frame).length := by
              rw [← hfull]
              exact Slots.weight_set hmiss
            exact ((hwithin.set hseg).filled_eq_length_iff_forall.mp hfilled) j hj ((hset j hj).mpr hnone)
          · have hk' : k + 1 < passed.length := by
              simp only [hpassed, List.length_append, List.length_singleton] at hk ⊢
              omega
            exact (hearlier k hk').mono fun t ht => List.mem_append_left _ ht
      · obtain ⟨hgiven, hcol'⟩ := MeshReader.push_of_missing hcol hwithin hlen hseg hmiss hfull
        rw [hgiven, Option.toList_none, List.append_nil]
        refine .inside before frame _ hpassed hout hcol' (hwithin.set hseg) hset ?_
        rwa [show Slots.filled (xs.set i (some seg)) = Slots.filled xs + 1 from Slots.weight_set hmiss]
    · have hheld : (before.length, i) ∈ arrived := by
        by_contra hnone
        exact hmiss ((hslots i hi).mpr hnone)
      have hpos : 0 < Slots.filled xs := by
        by_contra hzero
        have hreplicate := Slots.eq_replicate_of_filled_eq_zero (Nat.eq_zero_of_not_pos hzero)
        apply hmiss
        rw [hreplicate, List.getElem?_replicate, if_pos (hwithin.length_eq ▸ hi)]
      obtain ⟨hgiven, hcol'⟩ := MeshReader.push_of_held hcol hwithin hlen hseg hmiss hpart hpos
      rw [hgiven, Option.toList_none, List.append_nil]
      refine .inside before frame xs hpassed hout hcol' hwithin ?_ hpart
      intro j hj
      rw [hslots j hj, hmem]
      by_cases hij : j = i
      · subst hij
        simp [hheld]
      · simp [hij]

end

namespace Link

structure Inv (s : Link) : Prop where
  seq : s.nextMsgSeq = UInt16.ofNat s.passed.length
  small : ∀ frame ∈ s.passed, (segments s.mtu frame).length ≤ MAX_SEGMENTS.toNat
  data : ∀ e ∈ s.data, ∃ p, Carries s.mtu s.passed e.1 p ∧
    e.2 = encodeData s.connId p.msgSeq p.fragIdx p.fragCnt p.payload
  arrivals : ∀ e ∈ s.arrivals, Carries s.mtu s.passed e.1 e.2
  acks : ∀ e ∈ s.acks, e.2 = encodeCtrl T_SYN_ACK s.connId 0 0 ∨
    e.1 ∈ s.arrived ∧ e.2 = encodeCtrl T_DATA_ACK s.connId (UInt16.ofNat e.1.1) (UInt16.ofNat e.1.2)
  ackRx : ∀ e ∈ s.ackRx, e.2.typ = T_DATA_ACK → e.1 ∈ s.arrived ∧ e.2.fragIdx = UInt16.ofNat e.1.2
  sending : ∀ c ∈ s.sending, ∃ before frame, Serves s.mtu s.passed s.arrived c before frame
  earlier : ∀ k, k + 1 < s.passed.length → s.Complete k
  idle : s.sending = none → s.results.getLast? ≠ some false → ∀ k < s.passed.length, s.Complete k
  read : ∃ taken, s.arrivals.map Prod.snd = taken ++ (s.dataRx ++ s.pending.toList) ∧
    MeshReader.new.feed taken = (s.reader, s.returned)
  view : View s.mtu s.passed s.arrived (MeshReader.new.feed (s.arrivals.map Prod.snd)).1
    (MeshReader.new.feed (s.arrivals.map Prod.snd)).2

theorem Inv.new (mtu retries : Nat) (connId : UInt64) : Inv (new mtu retries connId) where
  seq := rfl
  small := by simp [Link.new]
  data := by simp [Link.new]
  arrivals := by simp [Link.new]
  acks := by simp [Link.new]
  ackRx := by simp [Link.new]
  sending := by simp [Link.new]
  earlier := by simp [Link.new]
  idle := by simp [Link.new]
  read := ⟨[], rfl, rfl⟩
  view := .between (fun _ => rfl) rfl (by simp [Link.new])

variable {s : Link}

theorem Inv.bounds (hi : s.Inv) {tag : Tag} (h : tag ∈ s.arrived) :
    ∃ frame, s.passed[tag.1]? = some frame ∧ tag.2 < (segments s.mtu frame).length := by
  obtain ⟨e, he, rfl⟩ := List.mem_map.mp h
  exact (hi.arrivals e he).bounds

/-! ### What each operation keeps -/

theorem Inv.send (hi : s.Inv) {frame : Bytes} (hok : s.Orderly (.send frame)) : (s.send frame).Inv := by
  unfold Link.send
  cases hsend : s.sending with
  | some c => exact hi
  | none =>
    dsimp only
    obtain ⟨hlast, hlen⟩ := hok hsend
    have hall := hi.idle hsend hlast
    refine ⟨?_, ?_, ?_, ?_, hi.acks, hi.ackRx, ?_, ?_, ?_, hi.read, ?_⟩
    · rw [hi.seq, List.length_append, List.length_singleton]
      exact (UInt16.ofNat_add _ _).symm
    · intro frame' hmem
      rcases List.mem_append.mp hmem with hold | hnew
      · exact hi.small frame' hold
      · rw [List.mem_singleton.mp hnew]
        exact hlen
    · intro e he
      obtain ⟨p, hp, hbytes⟩ := hi.data e he
      exact ⟨p, hp.concat frame, hbytes⟩
    · exact fun e he => (hi.arrivals e he).concat frame
    · rintro c ⟨⟩
      exact ⟨s.passed, frame, rfl, hi.seq, rfl, List.length_pos_iff.mpr (segments_ne_nil _ _), by simp⟩
    · intro k hk
      have hk' : k < s.passed.length := by simpa using hk
      exact (hall k hk').concat hk' frame
    · intro h
      cases h
    · obtain ⟨hempty, hout⟩ := hi.view.of_whole hall
      rw [hout]
      apply View.begin hempty
      intro j hmem
      obtain ⟨frame', hframe', -⟩ := hi.bounds hmem
      simp at hframe'

theorem Inv.writer (hi : s.Inv) {sending : Option Sending} {results : List Bool} {ackRx : List (Tag × InPkt)}
    (hack : ∀ e ∈ ackRx, e ∈ s.ackRx)
    (hsending : ∀ c ∈ sending, ∃ before frame, Serves s.mtu s.passed s.arrived c before frame)
    (hidle : sending = none → results.getLast? ≠ some false → ∀ k < s.passed.length, s.Complete k) :
    Inv { s with sending, results, ackRx } :=
  ⟨hi.seq, hi.small, hi.data, hi.arrivals, hi.acks, fun e he => hi.ackRx e (hack e he), hsending, hi.earlier,
    hidle, hi.read, hi.view⟩

theorem Inv.transmit (hi : s.Inv) : s.transmit.Inv := by
  unfold Link.transmit
  cases hsend : s.sending with
  | none => exact hi
  | some c =>
    dsimp only
    split
    · exact hi
    · split
      · exact hi
      · next seg hseg =>
        obtain ⟨before, frame, hserves⟩ := hi.sending c hsend
        have hlen : s.passed.length - 1 = before.length := by simp [hserves.passed]
        refine ⟨hi.seq, hi.small, ?_, hi.arrivals, hi.acks, hi.ackRx, ?_, hi.earlier, ?_, hi.read, hi.view⟩
        · intro e he
          rcases List.mem_append.mp he with hold | hnew
          · exact hi.data e hold
          · rw [List.mem_singleton.mp hnew, hlen]
            refine ⟨segmentPkt (UInt16.ofNat before.length) c.segs c.idx seg, ⟨frame, seg, ?_, ?_, ?_⟩, ?_⟩
            · simp [hserves.passed]
            · rw [← hserves.segs, hseg]
            · rw [hserves.segs]
            · rw [hserves.msgSeq]
              rfl
        · rintro c' ⟨⟩
          exact ⟨before, frame, hserves.passed, hserves.msgSeq, hserves.segs, hserves.idx, hserves.acked⟩
        · intro h
          cases h

theorem Inv.timeout (hi : s.Inv) : s.timeout.Inv := by
  unfold Link.timeout
  cases hsend : s.sending with
  | none => exact hi
  | some c =>
    dsimp only
    split
    · exact hi
    · split
      · refine hi.writer (fun _ he => he) ?_ (fun h => by cases h)
        rintro c' ⟨⟩
        obtain ⟨before, frame, hserves⟩ := hi.sending c hsend
        exact ⟨before, frame, hserves.passed, hserves.msgSeq, hserves.segs, hserves.idx, hserves.acked⟩
      · refine hi.writer (fun _ he => he) (by simp) ?_
        intro _ hlast
        simp at hlast

theorem Inv.acked (hi : s.Inv) {c : Sending} {before : List Bytes} {frame : Bytes}
    (hserves : Serves s.mtu s.passed s.arrived c before frame) (hidx : (before.length, c.idx) ∈ s.arrived) :
    (s.acked c).Inv := by
  have hacked : ∀ j < c.idx + 1, (before.length, j) ∈ s.arrived := by
    intro j hj
    rcases Nat.lt_succ_iff_lt_or_eq.mp hj with hlt | rfl
    · exact hserves.acked j hlt
    · exact hidx
  unfold Link.acked
  split
  · next hmore =>
    refine hi.writer (fun _ he => he) ?_ (fun h => by cases h)
    rintro c' ⟨⟩
    exact ⟨before, frame, hserves.passed, hserves.msgSeq, hserves.segs, hmore, hacked⟩
  · next hdone =>
    refine hi.writer (fun _ he => he) (by simp) ?_
    intro _ _ k hk
    by_cases hlast : k = before.length
    · subst hlast
      intro frame' hframe' j hj
      obtain rfl : frame = frame' := by simpa [hserves.passed] using hframe'
      rw [← hserves.segs] at hj
      exact hacked j (by have := hserves.idx; omega)
    · apply hi.earlier k
      simp only [hserves.passed, List.length_append, List.length_singleton] at hk ⊢
      omega

theorem Inv.readAck (hi : s.Inv) (hok : s.Orderly .readAck) : s.readAck.Inv := by
  unfold Link.readAck
  split
  · next c tag p rest hsend hrx =>
    have hrest : ∀ e ∈ rest, e ∈ s.ackRx := fun e he => by
      rw [hrx]
      exact List.mem_cons_of_mem _ he
    have hskip : Inv { s with ackRx := rest } := hi.writer hrest hi.sending hi.idle
    split
    · exact hi
    · split
      · next hmatch =>
        obtain ⟨htyp, hseq, hfrag⟩ := hmatch
        obtain ⟨before, frame, hserves⟩ := hi.sending c hsend
        have hhead : (tag, p) ∈ s.ackRx := by
          rw [hrx]
          exact List.mem_cons_self
        obtain ⟨harrived, htag⟩ := hi.ackRx (tag, p) hhead htyp
        have hpresent := hok c hsend (tag, p) (by rw [hrx]; rfl) htyp hseq
        have hmsg : tag.1 = before.length := by
          simp only [hserves.passed, List.length_append, List.length_singleton] at hpresent
          omega
        -- the segment numbers are below the limit, so the sixteen bits tell them apart
        obtain ⟨frame', hframe', hbound⟩ := hi.bounds harrived
        dsimp only at hframe' hbound htag
        obtain rfl : frame = frame' := by
          rw [hmsg] at hframe'
          simpa [hserves.passed] using hframe'
        have hlen := hi.small frame (by simp [hserves.passed])
        have hidx := hserves.idx
        have hmax : MAX_SEGMENTS.toNat = 4096 := rfl
        rw [hserves.segs] at hidx
        have hseg : tag.2 = c.idx := by
          have heq : UInt16.ofNat tag.2 = UInt16.ofNat c.idx := htag.symm.trans hfrag
          have := congrArg UInt16.toNat heq
          rwa [UInt16.toNat_ofNat', UInt16.toNat_ofNat', Nat.mod_eq_of_lt (by omega),
            Nat.mod_eq_of_lt (by omega)] at this
        refine hskip.acked hserves ?_
        rw [← hmsg, ← hseg]
        exact harrived
      · exact hskip
  · exact hi

theorem Inv.deliverData (hi : s.Inv) {n : Nat} (hok : s.Orderly (.deliverData n)) : (s.deliverData n).Inv := by
  unfold Link.deliverData
  split
  · next tag bytes hpending hget =>
    obtain ⟨p, hcarries, hbytes⟩ := hi.data (tag, bytes) (List.mem_of_getElem? hget)
    have hnot : ¬ s.Complete tag.1 := hok hpending (tag, bytes) hget
    have hp : p.msgSeq = UInt16.ofNat tag.1 ∧ p.fragIdx = UInt16.ofNat tag.2 ∧ p.typ = T_DATA := by
      obtain ⟨frame, seg, -, -, rfl⟩ := hcarries
      exact ⟨rfl, rfl, rfl⟩
    obtain ⟨hmsg, hfrag, htyp⟩ := hp
    dsimp only at hbytes
    rw [hbytes, route_encodeData (by simp)]
    dsimp only
    have hback : (⟨T_DATA, p.msgSeq, p.fragIdx, p.fragCnt, p.payload⟩ : InPkt) = p := by rw [← htyp]
    rw [hback]
    have harrived : ∀ t, t ∈ s.arrived → t ∈ (s.arrivals ++ [(tag, p)]).map Prod.fst := by
      intro t ht
      rw [List.map_append]
      exact List.mem_append_left _ ht
    refine ⟨hi.seq, hi.small, hi.data, ?_, ?_, ?_, ?_, ?_, ?_, ?_, ?_⟩
    · intro e he
      rcases List.mem_append.mp he with hold | hnew
      · exact hi.arrivals e hold
      · rw [List.mem_singleton.mp hnew]
        exact hcarries
    · intro e he
      rcases List.mem_append.mp he with hold | hnew
      · exact (hi.acks e hold).imp_right fun h => ⟨harrived _ h.1, h.2⟩
      · right
        rw [List.mem_singleton.mp hnew, hmsg, hfrag]
        exact ⟨by simp [arrived], rfl⟩
    · exact fun e he htyp => ⟨harrived _ (hi.ackRx e he htyp).1, (hi.ackRx e he htyp).2⟩
    · intro c hc
      obtain ⟨before, frame, h⟩ := hi.sending c hc
      exact ⟨before, frame, h.passed, h.msgSeq, h.segs, h.idx, fun j hj => harrived _ (h.acked j hj)⟩
    · exact fun k hk => (hi.earlier k hk).mono harrived
    · exact fun hsend hlast k hk => (hi.idle hsend hlast k hk).mono harrived
    · obtain ⟨taken, htaken, hfeed⟩ := hi.read
      refine ⟨taken, ?_, hfeed⟩
      rw [hpending, Option.toList_none, List.append_nil] at htaken
      simp [htaken]
    · have := hi.view.push hcarries hi.small hi.earlier hnot
      simpa only [arrived, List.map_append, List.map_cons, List.map_nil, MeshReader.feed_concat] using this
  · exact hi

theorem Inv.enqueue (hi : s.Inv) : s.enqueue.Inv := by
  refine ⟨hi.seq, hi.small, hi.data, hi.arrivals, hi.acks, hi.ackRx, hi.sending, hi.earlier, hi.idle, ?_, hi.view⟩
  obtain ⟨taken, htaken, hfeed⟩ := hi.read
  exact ⟨taken, by simpa [Link.enqueue] using htaken, hfeed⟩

theorem Inv.deliverAck (hi : s.Inv) (n : Nat) : (s.deliverAck n).Inv := by
  unfold Link.deliverAck
  split
  · exact hi
  · next tag bytes hget =>
    have hack := hi.acks (tag, bytes) (List.mem_of_getElem? hget)
    dsimp only at hack
    split
    · next p hroute =>
      refine ⟨hi.seq, hi.small, hi.data, hi.arrivals, hi.acks, ?_, hi.sending, hi.earlier, hi.idle, hi.read,
        hi.view⟩
      intro e he htyp
      rcases List.mem_append.mp he with hold | hnew
      · exact hi.ackRx e hold htyp
      · rw [List.mem_singleton.mp hnew] at htyp ⊢
        rcases hack with rfl | ⟨harrived, rfl⟩
        -- what is left of the dial is no acknowledgement of data
        · rw [route_encodeCtrl (by simp) (by decide) (by decide)] at hroute
          cases hroute
          exact absurd (show T_SYN_ACK = T_DATA_ACK from htyp) (by decide)
        · rw [route_encodeCtrl (by simp) (by decide) (by decide)] at hroute
          cases hroute
          exact ⟨harrived, rfl⟩
    · exact hi

theorem Inv.recv (hi : s.Inv) : s.recv.Inv := by
  unfold Link.recv
  split
  · exact hi
  · next p rest hrx =>
    refine ⟨hi.seq, hi.small, hi.data, hi.arrivals, hi.acks, hi.ackRx, hi.sending, hi.earlier, hi.idle, ?_,
      hi.view⟩
    obtain ⟨taken, htaken, hfeed⟩ := hi.read
    refine ⟨taken ++ [p], ?_, ?_⟩
    · rw [htaken, hrx]
      simp
    · rw [MeshReader.feed_concat, hfeed]

theorem Inv.step (hi : s.Inv) {e : Event} (hok : s.Orderly e) : (s.step e).Inv := by
  cases e with
  | send frame => exact hi.send hok
  | transmit => exact hi.transmit
  | timeout => exact hi.timeout
  | readAck => exact hi.readAck hok
  | deliverData n => exact hi.deliverData hok
  | enqueue => exact hi.enqueue
  | deliverAck n => exact hi.deliverAck n
  | recv => exact hi.recv

theorem Inv.run {mtu retries : Nat} {connId : UInt64} {evs : List Event}
    (h : Run.Along Link.step Orderly (Link.new mtu retries connId) evs) :
    ((Link.new mtu retries connId).run evs).Inv :=
  h.invariant (fun _ _ hi hok => hi.step hok) (Inv.new mtu retries connId)

theorem Inv.feed_eq (hi : s.Inv) :
    (MeshReader.new.feed (s.arrivals.map Prod.snd)).2 =
      s.returned ++ (s.reader.feed (s.dataRx ++ s.pending.toList)).2 := by
  obtain ⟨taken, htaken, hfeed⟩ := hi.read
  rw [htaken, MeshReader.feed_append, hfeed]

/-! ### Streams -/

/-- In every orderly run the frames returned are the first of those passed, in their order. -/
theorem returned_isPrefix_of_orderly {mtu retries : Nat} {connId : UInt64} {evs : List Event}
    (h : Run.Along Link.step Orderly (Link.new mtu retries connId) evs) :
    ((Link.new mtu retries connId).run evs).returned <+: ((Link.new mtu retries connId).run evs).passed := by
  have hi := Inv.run h
  have hview := hi.view.isPrefix
  rw [hi.feed_eq] at hview
  exact (List.prefix_append _ _).trans hview

namespace Sample

/-- The first acknowledgement is lost, so that the first of two segments arrives twice. -/
def resent : List Event :=
  [.send [1, 2], .transmit, .deliverData 0, .enqueue, .timeout, .transmit, .deliverData 1, .enqueue,
    .deliverAck 2, .readAck, .transmit, .deliverData 2, .enqueue, .recv, .recv, .deliverAck 3, .readAck, .recv]

theorem returned_isPrefix_resent :
    ((Link.new 19 8 7).run resent).returned = [[1, 2]] ∧
      ((Link.new 19 8 7).run resent).returned <+: ((Link.new 19 8 7).run resent).passed :=
  ⟨by decide +kernel, returned_isPrefix_of_orderly (by decide +kernel)⟩

/-- A frame of one segment whose acknowledgement is lost: the reader has forgotten the frame when the
segment arrives again. -/
theorem returned_twice :
    let s := (Link.new 19 8 7).run [.send [1], .transmit, .deliverData 0, .enqueue, .recv, .timeout, .transmit,
      .deliverData 1, .enqueue, .recv, .deliverAck 2, .readAck]
    s.passed = [[1]] ∧ s.results = [true] ∧ s.returned = [[1], [1]] := by
  decide +kernel

end Sample

/-- In every orderly run, once a call has returned `Ok`, the calls of `recv_frame` return all that is left
of the frames passed, the last of them that call's. -/
theorem returns_of_orderly {mtu retries : Nat} {connId : UInt64} {evs : List Event}
    (h : Run.Along Link.step Orderly (Link.new mtu retries connId) evs) :
    let s := (Link.new mtu retries connId).run evs
    s.sending = none → s.results.getLast? = some true →
      ∃ unread, s.passed = s.returned ++ unread ∧ s.reader.Returns (s.dataRx ++ s.pending.toList) unread := by
  intro s hsend hlast
  have hi : s.Inv := Inv.run h
  have hall := hi.idle hsend (by simp [hlast])
  refine ⟨(s.reader.feed (s.dataRx ++ s.pending.toList)).2, ?_, MeshReader.returns_feed _ _⟩
  rw [← hi.feed_eq, (hi.view.of_whole hall).2]

namespace Sample

theorem returns_resent :
    let s := (Link.new 19 8 7).run (resent.take 13 ++ [.deliverAck 3, .readAck])
    s.results = [true] ∧ s.returned = [] ∧
      ∃ unread, s.passed = s.returned ++ unread ∧ s.reader.Returns (s.dataRx ++ s.pending.toList) unread :=
  ⟨by decide +kernel, by decide +kernel,
    returns_of_orderly (by decide +kernel) (by decide +kernel) (by decide +kernel)⟩

end Sample

/-! ### Frames of too many segments

Over a network that loses nothing each segment of such a frame is acknowledged, and the reader ignores it. -/

/-- Segment `n` and its acknowledgement are delivered at once. -/
def exchange (n : Nat) : List Event :=
  [.transmit, .deliverData n, .enqueue, .deliverAck (n + 1), .readAck]

theorem run_exchange {n : Nat} {c : Sending} {seg : Bytes} (hsend : s.sending = some c)
    (hwait : c.waiting = false) (hseg : c.segs[n]? = some seg) (hidx : c.idx = n)
    (hdata : s.data.length = n) (hacks : s.acks.length = n + 1) (hrx : s.ackRx = [])
    (hpending : s.pending = none) :
    let pkt : InPkt := segmentPkt c.msgSeq c.segs n seg
    let tag : Tag := (s.passed.length - 1, n)
    s.run (exchange n) = acked { s with
      data := s.data ++ [(tag, encodeData s.connId c.msgSeq pkt.fragIdx pkt.fragCnt seg)]
      acks := s.acks ++ [(tag, encodeCtrl T_DATA_ACK s.connId c.msgSeq pkt.fragIdx)]
      dataRx := s.dataRx ++ [pkt]
      arrivals := s.arrivals ++ [(tag, pkt)]
      sending := some { c with tries := c.tries + 1, waiting := true } }
      { c with tries := c.tries + 1, waiting := true } := by
  subst hidx
  intro pkt tag
  have htransmit : s.step .transmit = { s with
      data := s.data ++ [(tag, encodeData s.connId c.msgSeq pkt.fragIdx pkt.fragCnt seg)]
      sending := some { c with tries := c.tries + 1, waiting := true } } := by
    simp only [step, transmit, hsend, hwait, Bool.false_eq_true, if_false, hseg]
    rfl
  have hget : ∀ e, (s.data ++ [e])[c.idx]? = some e := by
    intro e
    rw [← hdata, List.getElem?_concat_length]
  have hgetAck : ∀ e, (s.acks ++ [e])[c.idx + 1]? = some e := by
    intro e
    rw [← hacks, List.getElem?_concat_length]
  have hroute : route (· == s.connId) (encodeCtrl T_DATA_ACK s.connId c.msgSeq pkt.fragIdx) =
      .ack ⟨⟨T_DATA_ACK, c.msgSeq, pkt.fragIdx, 0, []⟩, s.connId⟩ :=
    route_encodeCtrl (by simp) (by decide) (by decide) _ _
  simp only [run, exchange, List.foldl_cons, List.foldl_nil, htransmit]
  simp only [step, deliverData, hpending, hget, route_encodeData, BEq.rfl, enqueue, Option.toList_some,
    deliverAck, hgetAck, hroute, readAck, hrx, List.nil_append, not_true_eq_false, if_false]
  rw [if_pos ⟨trivial, trivial, rfl⟩]
  rfl

/-- After `n` exchanges of the call of one frame, with a reader that has kept nothing. -/
structure Unheeded (mtu : Nat) (frame : Bytes) (n : Nat) (s : Link) : Prop where
  mtu_eq : s.mtu = mtu
  data : s.data.length = n
  acks : s.acks.length = n + 1
  ackRx : s.ackRx = []
  pending : s.pending = none
  reader : s.reader = .new
  passed : s.passed = [frame]
  returned : s.returned = []
  queued : ∀ p ∈ s.dataRx, p.fragCnt = UInt16.ofNat (segments mtu frame).length
  calling : n < (segments mtu frame).length → s.results = [] ∧
    ∃ c, s.sending = some c ∧ c.segs = segments mtu frame ∧ c.idx = n ∧ c.waiting = false
  done : n = (segments mtu frame).length → s.results = [true] ∧ s.sending = none

variable {mtu retries : Nat} {connId : UInt64} {frame : Bytes} {n : Nat}

theorem Unheeded.send : Unheeded mtu frame 0 ((Link.new mtu retries connId).send frame) := by
  have hpos : 0 < (segments mtu frame).length := List.length_pos_iff.mpr (segments_ne_nil _ _)
  exact ⟨rfl, rfl, rfl, rfl, rfl, rfl, rfl, rfl, by simp [Link.send, Link.new],
    fun _ => ⟨rfl, _, rfl, rfl, rfl, rfl⟩, fun h => absurd h hpos.ne⟩

theorem Unheeded.exchange (h : Unheeded mtu frame n s) (hn : n < (segments mtu frame).length) :
    Unheeded mtu frame (n + 1) (s.run (exchange n)) := by
  obtain ⟨hresults, c, hsend, hsegs, hidx, hwait⟩ := h.calling hn
  have hseg : c.segs[n]? = some (segments mtu frame)[n] := by rw [hsegs, List.getElem?_eq_getElem hn]
  rw [run_exchange hsend hwait hseg hidx h.data h.acks h.ackRx h.pending]
  have hqueued : ∀ p ∈ s.dataRx ++ [segmentPkt c.msgSeq (segments mtu frame) n (segments mtu frame)[n]],
      p.fragCnt = UInt16.ofNat (segments mtu frame).length := by
    intro p hp
    rcases List.mem_append.mp hp with hold | hnew
    · exact h.queued p hold
    · rw [List.mem_singleton.mp hnew]
      rfl
  unfold acked
  dsimp only
  rw [hsegs, hidx]
  split
  · next hmore =>
    exact ⟨h.mtu_eq, by simp [h.data], by simp [h.acks], h.ackRx, h.pending, h.reader, h.passed, h.returned,
      hqueued, fun _ => ⟨hresults, _, rfl, rfl, rfl, rfl⟩, fun hdone => absurd hdone hmore.ne⟩
  · next hdone =>
    exact ⟨h.mtu_eq, by simp [h.data], by simp [h.acks], h.ackRx, h.pending, h.reader, h.passed, h.returned,
      hqueued, fun hmore => absurd hmore hdone, fun _ => ⟨by simp [hresults], rfl⟩⟩

theorem Unheeded.exchanges (hn : n ≤ (segments mtu frame).length) :
    Unheeded mtu frame n
      ((Link.new mtu retries connId).run (.send frame :: (List.range n).flatMap Link.exchange)) := by
  induction n with
  | zero => exact Unheeded.send
  | succ n ih =>
    rw [List.range_succ, List.flatMap_append, List.flatMap_singleton, ← List.cons_append, run, List.foldl_append]
    exact (ih (by omega)).exchange hn

theorem Unheeded.returns_nil (h : Unheeded mtu frame n s)
    (hlarge : MAX_SEGMENTS < UInt16.ofNat (segments mtu frame).length) :
    s.reader.Returns (s.dataRx ++ s.pending.toList) [] := by
  have hloop : ∀ queue : List InPkt, (∀ p ∈ queue, MAX_SEGMENTS < p.fragCnt) → s.reader.recvOne queue = none := by
    intro queue hqueue
    induction queue with
    | nil => rfl
    | cons p queue ih =>
      rw [MeshReader.recvOne, MeshReader.push_of_large (hqueue p List.mem_cons_self)]
      exact ih fun q hq => hqueue q (List.mem_cons_of_mem _ hq)
  refine hloop _ fun p hp => ?_
  rw [h.pending, Option.toList_none, List.append_nil] at hp
  rw [h.queued p hp]
  exact hlarge

namespace Sample

/-- With one byte to a segment, a frame of 4097 bytes over a network that loses nothing is sent with `Ok`
and never returned. -/
theorem large_frame_lost :
    ∃ frame evs, let s := (Link.new 19 8 7).run evs
      s.passed = [frame] ∧ s.sending = none ∧ s.results = [true] ∧ s.returned = [] ∧
        s.reader.Returns (s.dataRx ++ s.pending.toList) [] := by
  have hlen : (segments 19 (List.replicate 4097 0)).length = 4097 := by
    have hne : List.replicate 4097 (0 : UInt8) ≠ [] := List.cons_ne_nil 0 (List.replicate 4096 0)
    rw [segments, if_neg hne, Mesh.length_chunksOf, List.length_replicate]
    rfl
  have hend : Unheeded 19 _ _ ((Link.new 19 8 7).run _) := Unheeded.exchanges hlen.ge
  obtain ⟨hresults, hsending⟩ := hend.done hlen.symm
  exact ⟨_, _, hend.passed, hsending, hresults, hend.returned, hend.returns_nil (by rw [hlen]; decide)⟩

end Sample

end Link

end MeshTransport
end Talkrypt
