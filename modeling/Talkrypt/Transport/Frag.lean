import Talkrypt.Lib.Bytes

/-! Fragmentation for the mesh: a sealed blob is cut into chunks, each behind a flat header of ten
bytes, so that every packet fits the radio's `mtu`. -/

namespace Talkrypt
namespace Mesh

def MAGIC0 : UInt8 := 0xA7
def MAGIC1 : UInt8 := 0x6D
def FRAG_VERSION : UInt8 := 1
def HEADER_LEN : Nat := 10
def KIND_ADVERT : UInt8 := 0
def KIND_FRAME : UInt8 := 1
def MIN_MTU : Nat := HEADER_LEN + 1
def MAX_FRAGMENTS : Nat := 256

structure Fragment where
  kind : UInt8
  msgId : UInt16
  fragIndex : UInt16
  fragCount : UInt16
  chunk : Bytes
deriving DecidableEq, Repr

def fromBeBytes (hi lo : UInt8) : UInt16 := UInt16.ofNat (hi.toNat * 256 + lo.toNat)

def toBeBytes (v : UInt16) : Bytes := [UInt8.ofNat (v.toNat / 256), UInt8.ofNat v.toNat]

theorem fromBeBytes_toBeBytes (v : UInt16) :
    fromBeBytes (UInt8.ofNat (v.toNat / 256)) (UInt8.ofNat v.toNat) = v := by
  have hv : v.toNat < 65536 := v.toNat_lt
  apply UInt16.toNat_inj.mp
  simp only [fromBeBytes, UInt8.toNat_ofNat', UInt16.toNat_ofNat']
  omega

def parseFragment : Bytes → Option Fragment
  | b0 :: b1 :: b2 :: kind :: b4 :: b5 :: b6 :: b7 :: b8 :: b9 :: chunk =>
    if b0 ≠ MAGIC0 ∨ b1 ≠ MAGIC1 ∨ b2 ≠ FRAG_VERSION then none
    else
      let msgId := fromBeBytes b4 b5
      let fragIndex := fromBeBytes b6 b7
      let fragCount := fromBeBytes b8 b9
      if fragCount = 0 ∨ fragIndex ≥ fragCount ∨ fragCount.toNat > MAX_FRAGMENTS then none
      else some { kind, msgId, fragIndex, fragCount, chunk }
  -- fewer than `HEADER_LEN` bytes
  | _ => none

def Fragment.encode (f : Fragment) : Bytes :=
  MAGIC0 :: MAGIC1 :: FRAG_VERSION :: f.kind ::
    (toBeBytes f.msgId ++ toBeBytes f.fragIndex ++ toBeBytes f.fragCount ++ f.chunk)

/-- How many chunks of `size` bytes a blob of `len` bytes takes (`div_ceil`). -/
def countOf (len size : Nat) : Nat := (len + size - 1) / size

def chunksOf (payload : Bytes) (size : Nat) : List Bytes :=
  (List.range (countOf payload.length size)).map fun i => (payload.drop (i * size)).take size

def fragment (kind : UInt8) (msgId : UInt16) (payload : Bytes) (mtu : Nat) : Option (List Bytes) :=
  if mtu < MIN_MTU ∨ payload = [] then none
  else
    let chunkSize := mtu - HEADER_LEN
    let count := countOf payload.length chunkSize
    if count = 0 ∨ count > MAX_FRAGMENTS then none
    else some ((chunksOf payload chunkSize).zipIdx.map fun (chunk, i) =>
      Fragment.encode ⟨kind, msgId, UInt16.ofNat i, UInt16.ofNat count, chunk⟩)

def Fragment.Valid (f : Fragment) : Prop :=
  f.fragIndex < f.fragCount ∧ f.fragCount.toNat ≤ MAX_FRAGMENTS

theorem Fragment.length_encode (f : Fragment) : f.encode.length = HEADER_LEN + f.chunk.length := by
  simp [Fragment.encode, toBeBytes, HEADER_LEN]
  omega

theorem parseFragment_encode {f : Fragment} (h : f.Valid) : parseFragment f.encode = some f := by
  obtain ⟨hidx, hmax⟩ := h
  have hcount : f.fragCount ≠ 0 := by
    intro h0
    rw [h0, UInt16.lt_iff_toNat_lt] at hidx
    simp at hidx
  have hnge : ¬ f.fragIndex ≥ f.fragCount := UInt16.not_le.mpr hidx
  simp only [Fragment.encode, toBeBytes, List.cons_append, List.nil_append, parseFragment, ne_eq,
    not_true_eq_false, or_self, if_false, fromBeBytes_toBeBytes, hcount, hnge, not_lt.mpr hmax]

theorem Fragment.valid_of_parse {packet : Bytes} {f : Fragment} (h : parseFragment packet = some f) : f.Valid := by
  unfold parseFragment at h
  split at h
  · split at h
    · cases h
    · dsimp only at h
      split at h
      · cases h
      · next hbad =>
        cases h
        push Not at hbad
        exact ⟨UInt16.not_le.mp hbad.2.1, hbad.2.2⟩
  · cases h

/-! ### The chunks of a blob -/

variable {blob : Bytes} {size : Nat}

@[simp] theorem length_chunksOf (payload : Bytes) (size : Nat) :
    (chunksOf payload size).length = countOf payload.length size := by
  simp [chunksOf]

theorem length_le_countOf_mul (len : Nat) (h : 0 < size) : len ≤ countOf len size * size := by
  have := Nat.div_add_mod (len + size - 1) size
  have := Nat.mod_lt (len + size - 1) h
  unfold countOf
  rw [Nat.mul_comm]
  omega

theorem flatten_take_chunks (payload : Bytes) (size n : Nat) :
    ((List.range n).map fun i => (payload.drop (i * size)).take size).flatten = payload.take (n * size) := by
  induction n with
  | zero => simp
  | succ n ih =>
    rw [List.range_succ, List.map_append, List.flatten_append, ih, Nat.succ_mul, List.take_add]
    simp

theorem flatten_chunksOf (payload : Bytes) (h : 0 < size) : (chunksOf payload size).flatten = payload := by
  rw [chunksOf, flatten_take_chunks]
  exact List.take_of_length_le (length_le_countOf_mul _ h)

theorem length_le_of_mem_chunksOf {c : Bytes} (h : c ∈ chunksOf blob size) : c.length ≤ size := by
  obtain ⟨i, -, rfl⟩ := List.mem_map.mp h
  exact List.length_take_le _ _

/-! ### What `fragment` makes -/

/-- A blob as it goes over the air: its header fields and its chunks. -/
structure Cut where
  kind : UInt8
  msgId : UInt16
  chunks : List Bytes
  chunks_ne : chunks ≠ []
  length_le : chunks.length ≤ MAX_FRAGMENTS

namespace Cut

/-- The fragment at an index, as the header carries it. -/
def fragmentAt (m : Cut) (i : Nat) (chunk : Bytes) : Fragment :=
  ⟨m.kind, m.msgId, UInt16.ofNat i, UInt16.ofNat m.chunks.length, chunk⟩

def packets (m : Cut) : List Bytes := m.chunks.zipIdx.map fun (chunk, i) => (m.fragmentAt i chunk).encode

def payload (m : Cut) : Bytes := m.chunks.flatten

variable {m : Cut} {i : Nat} {chunk : Bytes}

theorem toNat_count (m : Cut) : (UInt16.ofNat m.chunks.length).toNat = m.chunks.length := by
  have := m.length_le
  rw [UInt16.toNat_ofNat']
  simp only [MAX_FRAGMENTS] at this
  omega

theorem toNat_index (h : i < m.chunks.length) : (UInt16.ofNat i).toNat = i := by
  have := m.length_le
  rw [UInt16.toNat_ofNat']
  simp only [MAX_FRAGMENTS] at this
  omega

theorem fragmentAt_valid (h : i < m.chunks.length) : (m.fragmentAt i chunk).Valid := by
  refine ⟨?_, by rw [fragmentAt, toNat_count]; exact m.length_le⟩
  rw [UInt16.lt_iff_toNat_lt]
  simp only [fragmentAt, toNat_index h, toNat_count]
  exact h

theorem mem_packets {packet : Bytes} :
    packet ∈ m.packets ↔ ∃ i chunk, m.chunks[i]? = some chunk ∧ packet = (m.fragmentAt i chunk).encode := by
  simp only [packets, List.mem_map, Prod.exists, List.mem_zipIdx_iff_getElem?]
  constructor
  · rintro ⟨chunk, i, h, rfl⟩
    exact ⟨i, chunk, h, rfl⟩
  · rintro ⟨i, chunk, h, rfl⟩
    exact ⟨chunk, i, h, rfl⟩

theorem parse_packet (h : m.chunks[i]? = some chunk) :
    parseFragment (m.fragmentAt i chunk).encode = some (m.fragmentAt i chunk) :=
  parseFragment_encode (fragmentAt_valid (List.getElem?_eq_some_iff.mp h).1)

end Cut

theorem fragment_eq_some {kind : UInt8} {msgId : UInt16} {payload : Bytes} {mtu : Nat}
    {frags : List Bytes} (h : fragment kind msgId payload mtu = some frags) :
    ∃ m : Cut, m.kind = kind ∧ m.msgId = msgId ∧ m.payload = payload ∧ m.packets = frags ∧
      ∀ c ∈ m.chunks, HEADER_LEN + c.length ≤ mtu := by
  unfold fragment at h
  split at h
  · cases h
  · next hmtu =>
    dsimp only at h
    split at h
    · cases h
    · next hcount =>
      push Not at hmtu hcount
      have hsize : 0 < mtu - HEADER_LEN := by
        have := hmtu.1
        simp only [MIN_MTU] at this
        omega
      refine ⟨⟨kind, msgId, chunksOf payload (mtu - HEADER_LEN), ?_, by simpa using hcount.2⟩, rfl, rfl,
        flatten_chunksOf payload hsize, ?_, ?_⟩
      · intro h0
        apply hcount.1
        rw [← length_chunksOf, h0, List.length_nil]
      · simpa [Cut.packets, Cut.fragmentAt] using Option.some.inj h
      · intro c hc
        have := length_le_of_mem_chunksOf hc
        omega

end Mesh
end Talkrypt
