import Talkrypt.Lib.Bytes
import Talkrypt.Lib.Framing
import Talkrypt.Lib.Run

/-!
# Deframing of the radio streams (`Deframer` of `mesh/meshtastic.rs` and `mesh/meshcore.rs`)

Both deframers look for a start mark, drop what is before it, and take off frames with a length in front. What they
emit depends on the bytes of the stream only, not on how they arrive, and frames in noise without a start byte come
out one for one (`deframe_stream`).
-/

namespace Talkrypt.Mesh

/-- A frame with `hdr` bytes before its payload, the length of which is in them; nothing until it is complete. -/
def takeFrame (hdr : Nat) (len : Bytes → Nat) (r : Bytes) : Option (Option Bytes × Bytes) :=
  if r.length < hdr + len r then none else some (some ((r.drop hdr).take (len r)), r.drop (hdr + len r))

theorem takeFrame_append {hdr : Nat} {len : Bytes → Nat} {r rest : Bytes} {frame : Option Bytes}
    (h : takeFrame hdr len r = some (frame, rest)) (more : Bytes) (hlen : len (r ++ more) = len r) :
    takeFrame hdr len (r ++ more) = some (frame, rest ++ more) := by
  unfold takeFrame at h ⊢
  split at h
  · cases h
  · cases h
    rw [hlen, if_neg (by rw [List.length_append]; omega), List.drop_append_of_le_length (by omega),
      List.drop_append_of_le_length (by omega), List.take_append_of_le_length (by rw [List.length_drop]; omega)]

theorem takeFrame_length {hdr : Nat} {len : Bytes → Nat} {r rest : Bytes} {frame : Option Bytes} (hhdr : hdr ≠ 0)
    (h : takeFrame hdr len r = some (frame, rest)) : rest.length < r.length := by
  unfold takeFrame at h
  split at h
  · cases h
  · cases h
    rw [List.length_drop]
    omega

theorem takeFrame_cons {len : Bytes → Nat} (hdr payload rest : Bytes) (hlen : len (hdr ++ payload ++ rest) = payload.length) :
    takeFrame hdr.length len (hdr ++ payload ++ rest) = some (some payload, rest) := by
  rw [takeFrame, hlen, if_neg (by simp only [List.length_append]; omega), ← List.length_append, List.drop_left,
    List.append_assoc, List.drop_left, List.take_left]

/-! ## Meshtastic -/

namespace Meshtastic

def START1 : UInt8 := 0x94
def START2 : UInt8 := 0xc3
def MAX_STREAM_PAYLOAD : Nat := 512

def frame (pb : Bytes) : Bytes := START1 :: START2 :: (beBytes 2 pb.length ++ pb)

/-- The buffer from the first pair of start bytes on. -/
def fromStart : Bytes → Option Bytes
  | a :: b :: l => if a = START1 ∧ b = START2 then some (a :: b :: l) else fromStart (b :: l)
  | _ => none

def frameLen (r : Bytes) : Nat := beNat ((r.drop 2).take 2)

/-- Over-long frames are dropped: the search goes on after their start bytes. -/
def deframer : Framing UInt8 Bytes where
  seek := fromStart
  keep buf := if buf.length > 1 then buf.drop (buf.length - 1) else buf
  parse r :=
    if r.length < 4 then none
    else if frameLen r > MAX_STREAM_PAYLOAD then some (none, r.drop 2)
    else takeFrame 4 frameLen r

theorem fromStart_append {buf r : Bytes} (h : fromStart buf = some r) (more : Bytes) :
    fromStart (buf ++ more) = some (r ++ more) := by
  fun_induction fromStart buf with
  | case1 a b l hstart =>
    cases h
    exact if_pos hstart
  | case2 a b l hstart ih =>
    rw [← ih h]
    exact if_neg hstart
  | case3 => cases h

theorem fromStart_self {buf r : Bytes} (h : fromStart buf = some r) : ∃ l, r = START1 :: START2 :: l ∧ r <:+ buf := by
  fun_induction fromStart buf with
  | case1 a b l hstart =>
    cases h
    exact ⟨l, by rw [hstart.1, hstart.2], List.suffix_rfl⟩
  | case2 a b l hstart ih =>
    obtain ⟨l', hr, hsuffix⟩ := ih h
    exact ⟨l', hr, hsuffix.trans (List.suffix_cons a _)⟩
  | case3 => cases h

theorem keep_eq (buf : Bytes) : deframer.keep buf = buf.rtake 1 := by
  simp only [deframer, List.rtake]
  split
  · rfl
  · rw [show buf.length - 1 = 0 by omega, List.drop_zero]

theorem fromStart_keep {buf : Bytes} (h : fromStart buf = none) (more : Bytes) :
    fromStart (buf.rtake 1 ++ more) = fromStart (buf ++ more) := by
  fun_induction fromStart buf with
  | case1 a b l hstart => cases h
  | case2 a b l hstart ih =>
    rw [show (a :: b :: l).rtake 1 = (b :: l).rtake 1 from rfl, ih h]
    exact (if_neg hstart).symm
  | case3 buf hshort =>
    rcases buf with - | ⟨a, - | ⟨b, l⟩⟩
    · rfl
    · rfl
    · exact absurd rfl (hshort a b l)

theorem frameLen_append {r : Bytes} (h : 4 ≤ r.length) (more : Bytes) : frameLen (r ++ more) = frameLen r := by
  rw [frameLen, List.drop_append_of_le_length (by omega), List.take_append_of_le_length (by rw [List.length_drop]; omega),
    frameLen]

theorem lawful : deframer.Lawful where
  seek_append := fromStart_append
  seek_self h := by
    obtain ⟨l, rfl, -⟩ := fromStart_self h
    simp only [deframer, fromStart, and_self, if_true]
  seek_length h := by
    obtain ⟨-, -, hsuffix⟩ := fromStart_self h
    exact hsuffix.length_le
  seek_keep h more := by
    rw [keep_eq]
    exact fromStart_keep h more
  keep_keep _ more := by rw [keep_eq, keep_eq, keep_eq, rtake_append]
  parse_append {r frame rest} h more := by
    simp only [deframer] at h ⊢
    split at h
    · cases h
    · next hlen =>
      rw [if_neg (by rw [List.length_append]; omega), frameLen_append (by omega)]
      split at h
      · next hlong =>
        cases h
        rw [if_pos hlong, List.drop_append_of_le_length (by omega)]
      · next hshort =>
        rw [if_neg hshort]
        exact takeFrame_append h more (frameLen_append (by omega) more)
  parse_length {r frame rest} h := by
    simp only [deframer] at h
    split at h
    · cases h
    · split at h
      · cases h
        rw [List.length_drop]
        omega
      · exact takeFrame_length (by decide) h

theorem seek_noise {junk : Bytes} (h : START1 ∉ junk) (rest : Bytes) :
    fromStart (junk ++ START1 :: START2 :: rest) = some (START1 :: START2 :: rest) := by
  induction junk with
  | nil => exact if_pos ⟨rfl, rfl⟩
  | cons a junk ih =>
    obtain ⟨ha, hjunk⟩ := not_or.mp (List.mem_cons.not.mp h)
    rw [← ih hjunk]
    cases junk with
    | nil => exact if_neg fun hstart => ha hstart.1.symm
    | cons b junk => exact if_neg fun hstart => ha hstart.1.symm

theorem seek_junk {junk : Bytes} (h : START1 ∉ junk) : fromStart junk = none := by
  fun_induction fromStart junk with
  | case1 a b l hstart => exact absurd (hstart.1 ▸ List.mem_cons_self) h
  | case2 a b l hstart ih => exact ih fun hmem => h (List.mem_cons_of_mem a hmem)
  | case3 => rfl

theorem parse_frame {pb : Bytes} (h : pb.length ≤ MAX_STREAM_PAYLOAD) (rest : Bytes) :
    deframer.parse (frame pb ++ rest) = some (some pb, rest) := by
  have hmax : MAX_STREAM_PAYLOAD = 512 := rfl
  have hlen : frameLen (frame pb ++ rest) = pb.length := by
    have htake : ((frame pb ++ rest).drop 2).take 2 = beBytes 2 pb.length := by
      rw [frame, List.cons_append, List.cons_append, List.drop_succ_cons, List.drop_succ_cons, List.drop_zero,
        List.append_assoc, List.take_left' (beBytes_length ..)]
    rw [frameLen, htake, beNat_beBytes_of_lt (by omega)]
  have hframe : frame pb ++ rest = (START1 :: START2 :: beBytes 2 pb.length) ++ pb ++ rest := rfl
  have hshort : ¬ (frame pb ++ rest).length < 4 := by
    rw [hframe]
    simp only [List.length_append, List.length_cons, beBytes_length]
    omega
  simp only [deframer]
  rw [if_neg hshort, if_neg (by omega), hframe]
  exact takeFrame_cons (START1 :: START2 :: beBytes 2 pb.length) pb rest (by rw [← hframe, hlen])

end Meshtastic

/-! ## Meshcore -/

namespace Meshcore

def TO_RADIO_TYPE : UInt8 := 0x3c
def FROM_RADIO_TYPE : UInt8 := 0x3e

def outerFrame (type : UInt8) (payload : Bytes) : Bytes := type :: ((beBytes 2 payload.length).reverse ++ payload)

def frame (payload : Bytes) : Bytes := outerFrame TO_RADIO_TYPE payload

def radioFrame (payload : Bytes) : Bytes := outerFrame FROM_RADIO_TYPE payload

def fromType : Bytes → Option Bytes
  | [] => none
  | a :: l => if a = FROM_RADIO_TYPE then some (a :: l) else fromType l

def frameLen (r : Bytes) : Nat := beNat ((r.drop 1).take 2).reverse

def deframer : Framing UInt8 Bytes where
  seek := fromType
  keep _ := []
  parse r := if r.length < 3 then none else takeFrame 3 frameLen r

theorem fromType_cons (l : Bytes) : fromType (FROM_RADIO_TYPE :: l) = some (FROM_RADIO_TYPE :: l) := if_pos rfl

theorem fromType_append {buf : Bytes} (more : Bytes) :
    fromType (buf ++ more) = ((fromType buf).map (· ++ more)).orElse fun _ => fromType more := by
  induction buf with
  | nil => rfl
  | cons a l ih =>
    rw [List.cons_append, fromType, fromType, ih]
    split <;> rfl

theorem fromType_self {buf r : Bytes} (h : fromType buf = some r) : ∃ l, r = FROM_RADIO_TYPE :: l ∧ r <:+ buf := by
  induction buf with
  | nil => cases h
  | cons a l ih =>
    rw [fromType] at h
    split at h
    · next ha =>
      cases h
      exact ⟨l, by rw [ha], List.suffix_rfl⟩
    · obtain ⟨l', hr, hsuffix⟩ := ih h
      exact ⟨l', hr, hsuffix.trans (List.suffix_cons a l)⟩

theorem frameLen_append {r : Bytes} (h : 3 ≤ r.length) (more : Bytes) : frameLen (r ++ more) = frameLen r := by
  rw [frameLen, List.drop_append_of_le_length (by omega), List.take_append_of_le_length (by rw [List.length_drop]; omega),
    frameLen]

theorem lawful : deframer.Lawful where
  seek_append {buf r} h more := by
    simp only [deframer] at h ⊢
    rw [fromType_append, h]
    rfl
  seek_self h := by
    obtain ⟨l, rfl, -⟩ := fromType_self h
    exact fromType_cons l
  seek_length h := by
    obtain ⟨-, -, hsuffix⟩ := fromType_self h
    exact hsuffix.length_le
  seek_keep {buf} h more := by
    simp only [deframer] at h ⊢
    rw [List.nil_append, fromType_append, h]
    rfl
  keep_keep _ _ := rfl
  parse_append {r frame rest} h more := by
    simp only [deframer] at h ⊢
    split at h
    · cases h
    · next hlen =>
      rw [if_neg (by rw [List.length_append]; omega)]
      exact takeFrame_append h more (frameLen_append (by omega) more)
  parse_length {r frame rest} h := by
    simp only [deframer] at h
    split at h
    · cases h
    · exact takeFrame_length (by decide) h

theorem seek_junk {junk : Bytes} (h : FROM_RADIO_TYPE ∉ junk) : fromType junk = none := by
  induction junk with
  | nil => rfl
  | cons a junk ih =>
    obtain ⟨ha, hjunk⟩ := not_or.mp (List.mem_cons.not.mp h)
    rw [fromType, if_neg (Ne.symm ha), ih hjunk]

theorem parse_frame {payload : Bytes} (h : payload.length ≤ 65535) (rest : Bytes) :
    deframer.parse (radioFrame payload ++ rest) = some (some payload, rest) := by
  have hlen : frameLen (radioFrame payload ++ rest) = payload.length := by
    have htake : ((radioFrame payload ++ rest).drop 1).take 2 = (beBytes 2 payload.length).reverse := by
      rw [radioFrame, outerFrame, List.cons_append, List.drop_succ_cons, List.drop_zero, List.append_assoc,
        List.take_left' (by rw [List.length_reverse, beBytes_length])]
    rw [frameLen, htake, List.reverse_reverse, beNat_beBytes_of_lt (by omega)]
  have hframe : radioFrame payload ++ rest = (FROM_RADIO_TYPE :: (beBytes 2 payload.length).reverse) ++ payload ++ rest := rfl
  have hshort : ¬ (radioFrame payload ++ rest).length < 3 := by
    rw [hframe]
    simp only [List.length_append, List.length_cons, List.length_reverse, beBytes_length]
    omega
  simp only [deframer]
  rw [if_neg hshort, hframe]
  exact takeFrame_cons (FROM_RADIO_TYPE :: (beBytes 2 payload.length).reverse) payload rest (by rw [← hframe, hlen])

end Meshcore

/-! ## Both -/

/-- How the stream is cut into pieces makes no difference to the frames and the buffer that is left, and frames in
noise without the first start byte are emitted one for one, whatever is in them. -/
theorem deframe_stream :
    (∀ pieces pieces' : List Bytes, pieces.flatten = pieces'.flatten →
      Meshtastic.deframer.pushAll [] pieces = Meshtastic.deframer.pushAll [] pieces' ∧
      Meshcore.deframer.pushAll [] pieces = Meshcore.deframer.pushAll [] pieces') ∧
    (∀ (items : List (Bytes × Bytes)) (tail : Bytes) (pieces : List Bytes),
      (∀ x ∈ items, Meshtastic.START1 ∉ x.1 ∧ x.2.length ≤ Meshtastic.MAX_STREAM_PAYLOAD) → Meshtastic.START1 ∉ tail →
      pieces.flatten = items.flatMap (fun x => x.1 ++ Meshtastic.frame x.2) ++ tail →
      (Meshtastic.deframer.pushAll [] pieces).1 = items.map Prod.snd) ∧
    ∀ (items : List (Bytes × Bytes)) (tail : Bytes) (pieces : List Bytes),
      (∀ x ∈ items, Meshcore.FROM_RADIO_TYPE ∉ x.1 ∧ x.2.length ≤ 65535) → Meshcore.FROM_RADIO_TYPE ∉ tail →
      pieces.flatten = items.flatMap (fun x => x.1 ++ Meshcore.radioFrame x.2) ++ tail →
      (Meshcore.deframer.pushAll [] pieces).1 = items.map Prod.snd := by
  have hpieces (pieces : List Bytes) :
      Meshtastic.deframer.pushAll [] pieces = Meshtastic.deframer.run ([] ++ pieces.flatten) :=
    Meshtastic.lawful.pushAll_eq_run pieces rfl
  have hpieces' (pieces : List Bytes) :
      Meshcore.deframer.pushAll [] pieces = Meshcore.deframer.run ([] ++ pieces.flatten) :=
    Meshcore.lawful.pushAll_eq_run pieces rfl
  refine ⟨fun pieces pieces' h => ?_, fun items tail pieces hitems htail h => ?_, fun items tail pieces hitems htail h => ?_⟩
  · rw [hpieces, hpieces, hpieces', hpieces', h]
    exact ⟨rfl, rfl⟩
  · rw [hpieces, List.nil_append, h, Meshtastic.lawful.run_frames (w := Meshtastic.frame)
      (J := (Meshtastic.START1 ∉ ·)) (P := (·.length ≤ Meshtastic.MAX_STREAM_PAYLOAD)) Meshtastic.seek_junk
      (fun hjunk hf rest => ⟨by rw [List.append_assoc]; exact Meshtastic.seek_noise hjunk _, Meshtastic.parse_frame hf rest⟩)
      items tail hitems htail]
  · rw [hpieces', List.nil_append, h, Meshcore.lawful.run_frames (w := Meshcore.radioFrame)
      (J := (Meshcore.FROM_RADIO_TYPE ∉ ·)) (P := (·.length ≤ 65535)) Meshcore.seek_junk
      (fun hjunk hf rest => ⟨by
        rw [List.append_assoc]
        simp only [Meshcore.deframer]
        rw [Meshcore.fromType_append, Meshcore.seek_junk hjunk]
        exact Meshcore.fromType_cons _, Meshcore.parse_frame hf rest⟩) items tail hitems htail]

/-- A frame that arrives in two pieces, cut inside the start mark. -/
theorem deframe_cut_mark : (Meshtastic.deframer.pushAll [] [[7, 0x94], [0xc3, 0, 1, 5, 8]]).1 = [[5]] :=
  deframe_stream.2.1 [([7], [5])] [8] _ (by decide) (by decide) (by decide)

end Talkrypt.Mesh
