import Talkrypt.Transport.Reassembler

/-! Reassembly gives back what was cut. The partial of a key is followed by the set of indices delivered
for it so far; packets with other keys leave it alone unless they evict it. -/

namespace Talkrypt
namespace Mesh

open Reassembler

/-- The partial has taken chunks of this message only. -/
structure Partial.Holds (p : Partial) (chunks : List Bytes) : Prop where
  count : p.fragCount.toNat = chunks.length
  within : Slots.Within p.chunks chunks

instance (p : Partial) (chunks : List Bytes) : Decidable (p.Holds chunks) :=
  decidable_of_iff (p.fragCount.toNat = chunks.length ∧ Slots.Within p.chunks chunks)
    ⟨fun h => ⟨h.1, h.2⟩, fun h => ⟨h.1, h.2⟩⟩

namespace Partial.Holds

variable {p : Partial} {chunks : List Bytes} {i : Nat} {chunk : Bytes}

theorem new {m : Cut} : (Partial.new (UInt16.ofNat m.chunks.length)).Holds m.chunks := by
  refine ⟨m.toNat_count, ?_⟩
  show Slots.Within (List.replicate (UInt16.ofNat m.chunks.length).toNat none) m.chunks
  rw [m.toNat_count]
  exact .replicate m.chunks

theorem put (h : p.Holds chunks) (hi : chunks[i]? = some chunk) : (p.put i chunk).Holds chunks := by
  refine ⟨by rw [fragCount_put, h.count], ?_⟩
  by_cases hslot : p.chunks[i]? = some none
  · rw [put_of_empty hslot]
    exact h.within.set hi
  · rw [put_of_filled hslot]
    exact h.within

theorem isDone_iff (h : p.Holds chunks) :
    p.isDone = true ↔ ∀ i < chunks.length, p.chunks[i]? ≠ some none := by
  rw [← h.within.filled_eq_length_iff_forall, isDone, decide_eq_true_eq, p.held_eq, h.count]

theorem assemble_eq (h : p.Holds chunks) (hdone : p.isDone = true) : p.assemble = chunks.flatten := by
  have hfull : Slots.filled p.chunks = chunks.length := by
    rw [← p.held_eq, ← h.count]
    simpa [isDone] using hdone
  rw [assemble, h.within.filled_eq_length_iff.mp hfull]
  simp [List.flatMap_map]

end Partial.Holds

theorem Partial.put_getElem?_eq_none {p : Partial} {i j : Nat} {chunk : Bytes} (hi : i < p.chunks.length) :
    (p.put i chunk).chunks[j]? = some none ↔ j ≠ i ∧ p.chunks[j]? = some none := by
  by_cases hslot : p.chunks[i]? = some none
  · rw [put_of_empty hslot, List.getElem?_set]
    by_cases hj : i = j
    · subst hj
      simp [hi]
    · simp [hj, Ne.symm hj]
  · rw [put_of_filled hslot]
    exact ⟨fun h => ⟨fun hj => hslot (hj ▸ h), h⟩, fun h => h.2⟩

namespace Reassembler

variable {r : Reassembler} {m : Cut} {source : String} {i : Nat} {chunk : Bytes} {key : Key} {d : Delivery}

def keyOf (source : String) (m : Cut) : Key := (source, m.msgId, m.kind)

/-- The packet of the message's chunk `i`, as it comes in. -/
def own (source : String) (m : Cut) (i : Nat) (chunk : Bytes) : Delivery := ⟨source, (m.fragmentAt i chunk).encode⟩

def Takes (r : Reassembler) (kind : UInt8) : Prop := ∀ want ∈ r.onlyKind, want = kind

theorem read_own (hkind : r.Takes m.kind) (h : m.chunks[i]? = some chunk) :
    r.read (own source m i chunk).packet = some (m.fragmentAt i chunk) := by
  rw [read, own, Cut.parse_packet h]
  simp only [Option.bind_eq_bind, Option.bind_some]
  refine if_neg ?_
  cases hwant : r.onlyKind with
  | none => simp
  | some want => simp [hkind want hwant, Cut.fragmentAt]

theorem key?_own (h : m.chunks[i]? = some chunk) : (own source m i chunk).key? = some (keyOf source m) := by
  rw [Delivery.key?, own, Cut.parse_packet h]
  rfl

def slotOf (r : Reassembler) (source : String) (m : Cut) : Partial :=
  r.slot (keyOf source m) (UInt16.ofNat m.chunks.length)

theorem lookup_store_of_ne {k : Key} {p : Partial} {frag : Fragment} (h : k ≠ key) :
    (r.store key p frag).1.partials.lookup k = r.partials.lookup k := by
  rcases store_cases r key p frag with ⟨-, hs⟩ | ⟨-, -, ⟨-, hs⟩ | ⟨-, hs⟩⟩ <;> rw [hs]
  · exact AList.lookup_insert_ne h
  · show ((r.partials.insert key _).erase key).lookup k = _
    rw [AList.lookup_erase_ne h, AList.lookup_insert_ne h]

/-- What an own fragment does to a partial that holds this message's chunks: the chunk goes in, and the
whole payload comes out when no slot is empty any more. -/
theorem accept_own (hkind : r.Takes m.kind) (hholds : (r.slotOf source m).Holds m.chunks)
    (h : m.chunks[i]? = some chunk) :
    (((r.slotOf source m).put i chunk).isDone = false ∧
      (r.receive (own source m i chunk)).partials.lookup (keyOf source m) = some ((r.slotOf source m).put i chunk) ∧
      (r.accept source (own source m i chunk).packet).2 = none) ∨
    (((r.slotOf source m).put i chunk).isDone = true ∧
      (r.receive (own source m i chunk)).partials.lookup (keyOf source m) = none ∧
      (r.accept source (own source m i chunk).packet).2 = some m.payload) := by
  have hi : i < m.chunks.length := (List.getElem?_eq_some_iff.mp h).1
  have hindex : (m.fragmentAt i chunk).fragIndex.toNat = i := Cut.toNat_index hi
  have hcount : (r.slotOf source m).fragCount = (m.fragmentAt i chunk).fragCount := by
    rw [← UInt16.toNat_inj, hholds.count]
    exact m.toNat_count.symm
  have hacc : r.accept source (own source m i chunk).packet = (r.fetch (keyOf source m) (m.fragmentAt i chunk)).store
      (keyOf source m) (r.slotOf source m) (m.fragmentAt i chunk) := accept_of_read (read_own hkind h)
  rw [show r.receive (own source m i chunk) = (r.accept source (own source m i chunk).packet).1 from rfl, hacc]
  rcases store_cases (r.fetch (keyOf source m) (m.fragmentAt i chunk)) (keyOf source m) (r.slotOf source m)
    (m.fragmentAt i chunk) with ⟨hbad, -⟩ | ⟨-, -, ⟨hdone, hs⟩ | ⟨hdone, hs⟩⟩
  · rw [hindex, hholds.within.length_eq] at hbad
    rcases hbad with hbad | hbad
    · exact absurd hcount hbad
    · exact absurd hbad (not_le.mpr hi)
  · rw [hindex] at hdone hs
    rw [hs]
    exact .inl ⟨hdone, AList.lookup_insert _, rfl⟩
  · rw [hindex] at hdone hs
    rw [hs]
    exact .inr ⟨hdone, AList.lookup_erase _ _, congrArg some ((hholds.put h).assemble_eq hdone)⟩

/-- The caps do not force an eviction at this packet. -/
def Room (r : Reassembler) (d : Delivery) : Prop :=
  ∀ frag ∈ r.read d.packet,
    (d.source, frag.msgId, frag.kind) ∉ r.partials → ¬ r.full frag.chunk.length

instance (r : Reassembler) (d : Delivery) : Decidable (r.Room d) :=
  inferInstanceAs (Decidable (∀ frag ∈ r.read d.packet,
    (d.source, frag.msgId, frag.kind) ∉ r.partials → ¬ r.full frag.chunk.length))

theorem lookup_receive_of_ne (hroom : r.Room d) (hkey : d.key? ≠ some key) :
    (r.receive d).partials.lookup key = r.partials.lookup key := by
  rw [receive]
  cases hread : r.read d.packet with
  | none => rw [accept_of_read_none hread]
  | some frag =>
    obtain ⟨f, hparse, htake⟩ := Option.bind_eq_some_iff.mp hread
    obtain rfl : f = frag := by
      split at htake
      · cases htake
      · exact Option.some.inj htake
    have hne : key ≠ (d.source, f.msgId, f.kind) := by
      rintro rfl
      exact hkey (by rw [Delivery.key?, hparse]; rfl)
    rw [accept_of_read hread, lookup_store_of_ne hne]
    cases hk : r.partials.lookup (d.source, f.msgId, f.kind) with
    | some p => rw [fetch_of_lookup hk]
    | none =>
      have hfull := hroom f hread (AList.lookup_eq_none.mp hk)
      rw [fetch_of_none hk, evictIfNeeded, evictLoop_eq_self hfull]
      exact AList.lookup_insert_ne hne

/-! ### Following one message -/

/-- The message's chunk `i` is among the packets that came in. -/
def Got (source : String) (m : Cut) (ds : List Delivery) (i : Nat) : Prop :=
  ∃ chunk, m.chunks[i]? = some chunk ∧ own source m i chunk ∈ ds

/-- The partial has exactly the delivered chunks of the message. -/
structure Tracks (source : String) (m : Cut) (ds : List Delivery) (p : Partial) : Prop where
  holds : p.Holds m.chunks
  empty_iff : ∀ i < m.chunks.length, (p.chunks[i]? = some none ↔ ¬ Got source m ds i)

variable {ds : List Delivery} {p : Partial}

theorem Tracks.put (ht : Tracks source m ds p) (h : m.chunks[i]? = some chunk) :
    Tracks source m (ds ++ [own source m i chunk]) (p.put i chunk) := by
  have hi : i < p.chunks.length := ht.holds.within.length_eq ▸ (List.getElem?_eq_some_iff.mp h).1
  refine ⟨ht.holds.put h, fun j hj => ?_⟩
  rw [Partial.put_getElem?_eq_none hi, ht.empty_iff j hj]
  constructor
  · rintro ⟨hne, hnot⟩ ⟨c, hc, hmem⟩
    rcases List.mem_append.mp hmem with hmem | hmem
    · exact hnot ⟨c, hc, hmem⟩
    · have heq := congrArg (fun d => parseFragment d.packet) (List.mem_singleton.mp hmem)
      simp only [own, Cut.parse_packet hc, Cut.parse_packet h, Option.some.injEq] at heq
      have hidx := congrArg (fun f => f.fragIndex.toNat) heq
      simp only [Cut.fragmentAt, Cut.toNat_index hj, Cut.toNat_index (List.getElem?_eq_some_iff.mp h).1] at hidx
      exact hne hidx
  · intro hnot
    constructor
    · rintro rfl
      exact hnot ⟨chunk, h, by simp⟩
    · rintro ⟨c, hc, hmem⟩
      exact hnot ⟨c, hc, List.mem_append_left _ hmem⟩

theorem Tracks.isDone_iff (ht : Tracks source m ds p) :
    p.isDone = true ↔ ∀ i < m.chunks.length, Got source m ds i := by
  rw [ht.holds.isDone_iff]
  refine forall₂_congr fun i hi => ?_
  rw [Ne, ht.empty_iff i hi, not_not]

theorem Tracks.skip (ht : Tracks source m ds p) (hkey : d.key? ≠ some (keyOf source m)) :
    Tracks source m (ds ++ [d]) p := by
  refine ⟨ht.holds, fun i hi => ?_⟩
  rw [ht.empty_iff i hi]
  refine not_congr (exists_congr fun c => and_congr_right fun hc => ?_)
  rw [List.mem_append, List.mem_singleton]
  refine ⟨.inl, fun h => h.resolve_right ?_⟩
  rintro rfl
  exact hkey (key?_own hc)

theorem tracks_new (h : r.partials.lookup (keyOf source m) = none) :
    Tracks source m [] (r.slotOf source m) := by
  rw [slotOf, slot, h, Option.getD_none]
  refine ⟨.new, fun i hi => iff_of_true ?_ ?_⟩
  · exact Partial.new_empty (by rwa [m.toNat_count])
  · rintro ⟨_, _, hmem⟩
    cases hmem

/-- Every packet is one of the message's own or has another key. -/
def Traffic (source : String) (m : Cut) (ds : List Delivery) : Prop :=
  ∀ d ∈ ds, (∃ i chunk, m.chunks[i]? = some chunk ∧ d = own source m i chunk) ∨ d.key? ≠ some (keyOf source m)

theorem onlyKind_foldl (ds : List Delivery) (r : Reassembler) : (ds.foldl receive r).onlyKind = r.onlyKind := by
  induction ds generalizing r with
  | nil => rfl
  | cons d ds ih => exact (ih (r.receive d)).trans (receive_limits r d).2.2

theorem takes_foldl {kind : UInt8} (h : r.Takes kind) : (ds.foldl receive r).Takes kind := by
  intro want hwant
  rw [onlyKind_foldl] at hwant
  exact h want hwant

theorem tracks_run (hkind : r.Takes m.kind) (hnew : r.partials.lookup (keyOf source m) = none)
    (htraffic : Traffic source m ds) (hroom : Run.Along receive Room r ds)
    (hinc : ¬ ∀ i < m.chunks.length, Got source m ds i) :
    Tracks source m ds ((ds.foldl receive r).slotOf source m) := by
  induction ds using List.reverseRecOn with
  | nil => exact tracks_new hnew
  | append_singleton ds d ih =>
    have hroom' := Run.along_append.mp hroom
    have hinc' : ¬ ∀ i < m.chunks.length, Got source m ds i := fun hall =>
      hinc fun i hi => (hall i hi).imp fun _ hc => ⟨hc.1, List.mem_append_left _ hc.2⟩
    have ht := ih (fun d hd => htraffic d (List.mem_append_left _ hd)) hroom'.1 hinc'
    rw [List.foldl_append, List.foldl_cons, List.foldl_nil]
    rcases htraffic d (by simp) with ⟨i, chunk, hc, rfl⟩ | hkey
    · have ht' := ht.put hc
      rcases accept_own (takes_foldl hkind) ht.holds hc with ⟨-, hlook, -⟩ | ⟨hdone, -, -⟩
      · rw [slotOf, slot, hlook, Option.getD_some]
        exact ht'
      · exact absurd (ht'.isDone_iff.mp hdone) hinc
    · rw [slotOf, slot, lookup_receive_of_ne hroom'.2.1 hkey]
      exact ht.skip hkey

end Reassembler

open Reassembler

/-- Fragmentation round trip. Every fragment fits the `mtu`. Whatever order and however often the fragments
come in, among packets with other keys and while the caps force no eviction, nothing is returned for them
until the last missing one, which returns the payload. -/
theorem fragment_roundtrip {kind : UInt8} {msgId : UInt16} {payload : Bytes} {mtu : Nat} {frags : List Bytes}
    (h : fragment kind msgId payload mtu = some frags) :
    (∀ f ∈ frags, f.length ≤ mtu) ∧
    ∀ (r : Reassembler) (source : String) (ds : List Delivery), r.Takes kind →
      r.partials.lookup (source, msgId, kind) = none →
      (∀ d ∈ ds, (d.source = source ∧ d.packet ∈ frags) ∨ d.key? ≠ some (source, msgId, kind)) →
      Run.Along receive Room r ds →
      ∀ pre d post, ds = pre ++ d :: post → d.source = source → d.packet ∈ frags →
        ¬ (∀ f ∈ frags, ⟨source, f⟩ ∈ pre) →
        ((pre.foldl receive r).accept d.source d.packet).2 =
          if ∀ f ∈ frags, ⟨source, f⟩ ∈ pre ++ [d] then some payload else none := by
  obtain ⟨m, rfl, rfl, rfl, rfl, hsize⟩ := fragment_eq_some h
  have hgot : ∀ (source : String) (ds : List Delivery),
      (∀ f ∈ m.packets, (⟨source, f⟩ : Delivery) ∈ ds) ↔ ∀ i < m.chunks.length, Got source m ds i := by
    intro source ds
    constructor
    · intro hall i hi
      have hc := List.getElem?_eq_getElem hi
      exact ⟨m.chunks[i], hc, hall _ (Cut.mem_packets.mpr ⟨i, _, hc, rfl⟩)⟩
    · intro hall f hf
      obtain ⟨i, c, hc, rfl⟩ := Cut.mem_packets.mp hf
      obtain ⟨c', hc', hmem⟩ := hall i (List.getElem?_eq_some_iff.mp hc).1
      obtain rfl : c = c' := Option.some.inj (hc.symm.trans hc')
      exact hmem
  refine ⟨fun f hf => ?_, ?_⟩
  · obtain ⟨i, c, hc, rfl⟩ := Cut.mem_packets.mp hf
    rw [Fragment.length_encode]
    exact hsize c (List.mem_of_getElem? hc)
  · rintro r source ds hkind hnew htraffic hroom pre d post rfl rfl hd hinc
    have htraffic' : Traffic d.source m pre := fun e he => by
      rcases htraffic e (List.mem_append_left _ he) with ⟨hsrc, hmem⟩ | hkey
      · obtain ⟨i, c, hc, hp⟩ := Cut.mem_packets.mp hmem
        exact .inl ⟨i, c, hc, by rw [own, ← hp, ← hsrc]⟩
      · exact .inr hkey
    have ht := tracks_run hkind hnew htraffic' (Run.along_append.mp hroom).1 (mt (hgot d.source pre).mpr hinc)
    obtain ⟨i, c, hc, hp⟩ := Cut.mem_packets.mp hd
    have hown : d = own d.source m i c := by rw [own, ← hp]
    have hdone := (ht.put hc).isDone_iff
    rw [← hown, ← hgot] at hdone
    rw [hp]
    rcases accept_own (takes_foldl hkind) ht.holds hc with ⟨hfalse, -, hret⟩ | ⟨htrue, -, hret⟩
    · rw [if_neg fun hall => by simp [hdone.mpr hall] at hfalse]
      exact hret
    · rw [if_pos (hdone.mp htrue)]
      exact hret

def splitPackets : List Bytes :=
  [Fragment.encode ⟨KIND_FRAME, 7, 0, 2, [1, 2]⟩, Fragment.encode ⟨KIND_FRAME, 7, 1, 2, [3]⟩]

def splitDeliveries : List Delivery :=
  [⟨"a", Fragment.encode ⟨KIND_FRAME, 7, 1, 2, [3]⟩⟩, ⟨"b", Fragment.encode ⟨KIND_FRAME, 7, 0, 2, [9]⟩⟩,
    ⟨"a", Fragment.encode ⟨KIND_FRAME, 7, 0, 2, [1, 2]⟩⟩]

/-- The two packets in the other order, with a packet of another node between them. -/
theorem fragment_roundtrip_split :
    fragment KIND_FRAME 7 [1, 2, 3] 12 = some splitPackets ∧
    ((((splitDeliveries.take 2).foldl receive (forKind KIND_FRAME)).accept "a"
      (Fragment.encode ⟨KIND_FRAME, 7, 0, 2, [1, 2]⟩)).2 = some [1, 2, 3]) := by
  have hfrag : fragment KIND_FRAME 7 [1, 2, 3] 12 = some splitPackets := by decide
  refine ⟨hfrag, ?_⟩
  have h := (fragment_roundtrip hfrag).2 (forKind KIND_FRAME) "a" splitDeliveries
    (fun want hw => (Option.some.inj hw).symm) (by decide) (by decide) (by decide)
    (splitDeliveries.take 2) ⟨"a", Fragment.encode ⟨KIND_FRAME, 7, 0, 2, [1, 2]⟩⟩ [] rfl rfl (by decide) (by decide)
  rwa [if_pos (by decide)] at h

end Mesh
end Talkrypt
