import Talkrypt.Lib.Run
import Talkrypt.Lib.Slots
import Talkrypt.Lib.Table
import Talkrypt.Transport.Frag

/-! Reassembly of mesh fragments. A `Partial` collects the chunks of one message; the `Reassembler`
keeps one for each `(source, msg_id, kind)` in flight and lists them by age for eviction. The module
ends with what the caps bound over every sequence of packets. -/

namespace Talkrypt
namespace Mesh

/-- One message being reassembled. `held` (the source's `have`) and `bytes` count its filled slots and
their bytes. -/
structure Partial where
  fragCount : UInt16
  chunks : List (Option Bytes)
  held : Nat
  bytes : Nat
  held_eq : held = Slots.filled chunks
  bytes_eq : bytes = Slots.weight List.length chunks

namespace Partial

def new (fragCount : UInt16) : Partial where
  fragCount
  chunks := List.replicate fragCount.toNat none
  held := 0
  bytes := 0
  held_eq := (Slots.weight_replicate _).symm
  bytes_eq := (Slots.weight_replicate _).symm

theorem new_empty {fragCount : UInt16} {i : Nat} (h : i < fragCount.toNat) :
    (new fragCount).chunks[i]? = some none := by
  rw [new, List.getElem?_replicate, if_pos h]

/-- A chunk is kept only in a slot that is still empty. -/
def put (p : Partial) (idx : Nat) (chunk : Bytes) : Partial :=
  if h : p.chunks[idx]? = some none then
    { p with
      chunks := p.chunks.set idx (some chunk)
      held := p.held + 1
      bytes := p.bytes + chunk.length
      held_eq := by rw [Slots.filled, Slots.weight_set h, p.held_eq, Slots.filled]
      bytes_eq := by rw [Slots.weight_set h, p.bytes_eq] }
  else p

def gain (p : Partial) (idx : Nat) (chunk : Bytes) : Nat :=
  if p.chunks[idx]? = some none then chunk.length else 0

def isDone (p : Partial) : Bool := p.held = p.fragCount.toNat

def assemble (p : Partial) : Bytes := p.chunks.flatMap (·.getD [])

variable {p : Partial} {idx : Nat} {chunk : Bytes}

theorem put_of_empty (h : p.chunks[idx]? = some none) :
    (p.put idx chunk).chunks = p.chunks.set idx (some chunk) := by
  rw [put, dif_pos h]

theorem put_of_filled (h : p.chunks[idx]? ≠ some none) : p.put idx chunk = p := by
  rw [put, dif_neg h]

@[simp] theorem fragCount_put : (p.put idx chunk).fragCount = p.fragCount := by
  unfold put
  split <;> rfl

theorem bytes_put : (p.put idx chunk).bytes = p.bytes + p.gain idx chunk := by
  unfold put gain
  split <;> rfl

theorem held_put_of_empty (h : p.chunks[idx]? = some none) : (p.put idx chunk).held = p.held + 1 := by
  rw [put, dif_pos h]

end Partial

abbrev Key := String × UInt16 × UInt8

structure Reassembler where
  partials : Table Key Partial
  order : List Key
  onlyKind : Option UInt8
  maxMessages : Nat
  maxBytes : Nat
  buffered : Nat

namespace Reassembler

def withLimits (maxMessages maxBytes : Nat) : Reassembler where
  partials := ∅
  order := []
  onlyKind := none
  maxMessages := max maxMessages 1
  maxBytes := max maxBytes 1
  buffered := 0

def default : Reassembler := withLimits 32 (1024 * 1024)

def forKind (kind : UInt8) : Reassembler := { default with onlyKind := some kind }

def inFlight (r : Reassembler) : Nat := r.partials.toList.length

/-- One turn of the eviction loop: the oldest partial goes. -/
def removeOldest (r : Reassembler) (oldest : Key) (rest : List Key) : Reassembler :=
  { r with
    order := rest
    partials := r.partials.erase oldest
    buffered := r.buffered - (r.partials.lookup oldest).elim 0 Partial.bytes }

def full (r : Reassembler) (incoming : Nat) : Prop :=
  r.maxMessages ≤ r.inFlight ∨ r.maxBytes < r.buffered + incoming

instance (r : Reassembler) (incoming : Nat) : Decidable (r.full incoming) :=
  inferInstanceAs (Decidable (_ ∨ _))

def evictLoop (incoming : Nat) : List Key → Reassembler → Reassembler
  | [], r => r
  | oldest :: rest, r => if r.full incoming then evictLoop incoming rest (r.removeOldest oldest rest) else r

def evictIfNeeded (r : Reassembler) (incoming : Nat) : Reassembler := evictLoop incoming r.order r

def fetch (r : Reassembler) (key : Key) (frag : Fragment) : Reassembler :=
  if key ∈ r.partials then r
  else
    let r := r.evictIfNeeded frag.chunk.length
    { r with partials := r.partials.insert key (.new frag.fragCount), order := r.order ++ [key] }

def update (r : Reassembler) (key : Key) (p : Partial) (gain : Nat) : Reassembler :=
  { r with partials := r.partials.insert key p, buffered := r.buffered + gain }

def remove (r : Reassembler) (key : Key) (p : Partial) : Reassembler :=
  { r with
    partials := r.partials.erase key
    order := r.order.filter (· ≠ key)
    buffered := r.buffered - p.bytes }

def store (r : Reassembler) (key : Key) (p : Partial) (frag : Fragment) : Reassembler × Option Bytes :=
  let idx := frag.fragIndex.toNat
  if p.fragCount ≠ frag.fragCount ∨ p.chunks.length ≤ idx then (r, none)
  else
    let r := r.update key (p.put idx frag.chunk) (p.gain idx frag.chunk)
    let p := p.put idx frag.chunk
    if p.isDone then (r.remove key p, some p.assemble) else (r, none)

def acceptFragment (r : Reassembler) (key : Key) (frag : Fragment) : Reassembler × Option Bytes :=
  let r := r.fetch key frag
  match r.partials.lookup key with
  | none => (r, none)
  | some p => r.store key p frag

/-- The fragment a packet carries, if this reassembler takes its kind. -/
def read (r : Reassembler) (packet : Bytes) : Option Fragment := do
  let frag ← parseFragment packet
  if r.onlyKind.any (· ≠ frag.kind) then none else some frag

def accept (r : Reassembler) (source : String) (packet : Bytes) : Reassembler × Option Bytes :=
  match r.read packet with
  | none => (r, none)
  | some frag => r.acceptFragment (source, frag.msgId, frag.kind) frag

structure Delivery where
  source : String
  packet : Bytes
deriving DecidableEq

def receive (r : Reassembler) (d : Delivery) : Reassembler := (r.accept d.source d.packet).1

def Delivery.key? (d : Delivery) : Option Key :=
  (parseFragment d.packet).map fun f => (d.source, f.msgId, f.kind)

variable {r : Reassembler} {key k : Key} {frag : Fragment} {p : Partial} {incoming : Nat}

/-! ### One spec for each part -/

theorem evictLoop_eq_self {l : List Key} (h : ¬ r.full incoming) : evictLoop incoming l r = r := by
  cases l with
  | nil => rfl
  | cons oldest rest => rw [evictLoop, if_neg h]

theorem lookup_evictLoop (incoming : Nat) (k : Key) (l : List Key) (r : Reassembler) :
    (evictLoop incoming l r).partials.lookup k = r.partials.lookup k ∨
      (evictLoop incoming l r).partials.lookup k = none := by
  induction l generalizing r with
  | nil => exact .inl rfl
  | cons oldest rest ih =>
    rw [evictLoop]
    split
    · rcases ih (r.removeOldest oldest rest) with h | h
      · rw [h, removeOldest, Table.lookup_erase_eq]
        split
        · exact .inr rfl
        · exact .inl rfl
      · exact .inr h
    · exact .inl rfl

theorem evictLoop_limits (incoming : Nat) (l : List Key) (r : Reassembler) :
    (evictLoop incoming l r).maxMessages = r.maxMessages ∧ (evictLoop incoming l r).maxBytes = r.maxBytes ∧
      (evictLoop incoming l r).onlyKind = r.onlyKind := by
  induction l generalizing r with
  | nil => exact ⟨rfl, rfl, rfl⟩
  | cons oldest rest ih =>
    rw [evictLoop]
    split
    · exact ih (r.removeOldest oldest rest)
    · exact ⟨rfl, rfl, rfl⟩

theorem fetch_of_lookup (h : r.partials.lookup key = some p) : r.fetch key frag = r := by
  have hmem : key ∈ r.partials := AList.lookup_isSome.mp (by rw [h]; rfl)
  rw [fetch, if_pos hmem]

theorem fetch_of_none (h : r.partials.lookup key = none) : r.fetch key frag =
    { r.evictIfNeeded frag.chunk.length with
      partials := (r.evictIfNeeded frag.chunk.length).partials.insert key (.new frag.fragCount)
      order := (r.evictIfNeeded frag.chunk.length).order ++ [key] } := by
  rw [fetch, if_neg (AList.lookup_eq_none.mp h)]

def slot (r : Reassembler) (key : Key) (fragCount : UInt16) : Partial :=
  (r.partials.lookup key).getD (.new fragCount)

theorem lookup_fetch_self : (r.fetch key frag).partials.lookup key = some (r.slot key frag.fragCount) := by
  cases h : r.partials.lookup key with
  | some p => rw [fetch_of_lookup h, h, slot, h, Option.getD_some]
  | none =>
    rw [fetch_of_none h, slot, h, Option.getD_none]
    exact AList.lookup_insert _

theorem acceptFragment_eq :
    r.acceptFragment key frag = (r.fetch key frag).store key (r.slot key frag.fragCount) frag := by
  rw [acceptFragment, lookup_fetch_self]

theorem fetch_limits (r : Reassembler) (key : Key) (frag : Fragment) : (r.fetch key frag).maxMessages = r.maxMessages ∧
    (r.fetch key frag).maxBytes = r.maxBytes ∧ (r.fetch key frag).onlyKind = r.onlyKind := by
  cases h : r.partials.lookup key with
  | some p =>
    rw [fetch_of_lookup h]
    exact ⟨rfl, rfl, rfl⟩
  | none =>
    rw [fetch_of_none h]
    exact evictLoop_limits _ r.order r

/-- What a stored fragment does: nothing, when the header disagrees with the partial; else its chunk is
put in, and the partial goes once it is done. -/
theorem store_cases (r : Reassembler) (key : Key) (p : Partial) (frag : Fragment) :
    ((p.fragCount ≠ frag.fragCount ∨ p.chunks.length ≤ frag.fragIndex.toNat) ∧
      r.store key p frag = (r, none)) ∨
    (p.fragCount = frag.fragCount ∧ frag.fragIndex.toNat < p.chunks.length ∧
      ((p.put frag.fragIndex.toNat frag.chunk).isDone = false ∧
        r.store key p frag = (r.update key (p.put frag.fragIndex.toNat frag.chunk)
          (p.gain frag.fragIndex.toNat frag.chunk), none) ∨
      (p.put frag.fragIndex.toNat frag.chunk).isDone = true ∧
        r.store key p frag = ((r.update key (p.put frag.fragIndex.toNat frag.chunk)
          (p.gain frag.fragIndex.toNat frag.chunk)).remove key (p.put frag.fragIndex.toNat frag.chunk),
          some (p.put frag.fragIndex.toNat frag.chunk).assemble))) := by
  unfold store
  by_cases hbad : p.fragCount ≠ frag.fragCount ∨ p.chunks.length ≤ frag.fragIndex.toNat
  · exact .inl ⟨hbad, if_pos hbad⟩
  · refine .inr ?_
    rw [if_neg hbad]
    push Not at hbad
    refine ⟨hbad.1, hbad.2, ?_⟩
    cases hdone : (p.put frag.fragIndex.toNat frag.chunk).isDone with
    | false => exact .inl ⟨rfl, by simp [hdone]⟩
    | true => exact .inr ⟨rfl, by simp [hdone]⟩

theorem store_limits (r : Reassembler) (key : Key) (p : Partial) (frag : Fragment) :
    (r.store key p frag).1.maxMessages = r.maxMessages ∧ (r.store key p frag).1.maxBytes = r.maxBytes ∧
      (r.store key p frag).1.onlyKind = r.onlyKind := by
  rcases store_cases r key p frag with ⟨-, h⟩ | ⟨-, -, ⟨-, h⟩ | ⟨-, h⟩⟩ <;>
  · rw [h]
    exact ⟨rfl, rfl, rfl⟩

theorem accept_of_read_none {source : String} {packet : Bytes} (h : r.read packet = none) :
    r.accept source packet = (r, none) := by
  rw [accept, h]

theorem accept_of_read {source : String} {packet : Bytes} (h : r.read packet = some frag) :
    r.accept source packet = (r.fetch (source, frag.msgId, frag.kind) frag).store
      (source, frag.msgId, frag.kind) (r.slot (source, frag.msgId, frag.kind) frag.fragCount) frag := by
  rw [accept, h]
  exact acceptFragment_eq

theorem receive_limits (r : Reassembler) (d : Delivery) : (r.receive d).maxMessages = r.maxMessages ∧
    (r.receive d).maxBytes = r.maxBytes ∧ (r.receive d).onlyKind = r.onlyKind := by
  rw [receive]
  cases hread : r.read d.packet with
  | none =>
    rw [accept_of_read_none hread]
    exact ⟨rfl, rfl, rfl⟩
  | some frag =>
    have hs := store_limits (r.fetch (d.source, frag.msgId, frag.kind) frag)
      (d.source, frag.msgId, frag.kind) (r.slot (d.source, frag.msgId, frag.kind) frag.fragCount) frag
    have hf := fetch_limits r (d.source, frag.msgId, frag.kind) frag
    rw [accept_of_read hread]
    exact ⟨hs.1.trans hf.1, hs.2.1.trans hf.2.1, hs.2.2.trans hf.2.2⟩

/-! ### The bookkeeping -/

/-- The sizes of the stored chunks, over all partials. -/
def storedIn (partials : Table Key Partial) : Nat :=
  partials.total fun p => Slots.weight List.length p.chunks

/-- The counters and the order describe the table. -/
structure Accounted (r : Reassembler) : Prop where
  nodup : r.order.Nodup
  mem_order : ∀ k, k ∈ r.order ↔ r.partials.lookup k ≠ none
  buffered_eq : r.buffered = storedIn r.partials

theorem storedIn_insert (m : Table Key Partial) (key : Key) (p : Partial) :
    storedIn (m.insert key p) = p.bytes + storedIn (m.erase key) := by
  rw [storedIn, Table.total_insert, p.bytes_eq, storedIn]

theorem storedIn_erase {m : Table Key Partial} (h : m.lookup key = some p) :
    storedIn (m.erase key) + p.bytes = storedIn m := by
  rw [p.bytes_eq, storedIn]
  exact Table.total_erase (fun p => Slots.weight List.length p.chunks) h

namespace Accounted

theorem removeOldest {oldest : Key} {rest : List Key} (h : r.Accounted) (horder : r.order = oldest :: rest) :
    (r.removeOldest oldest rest).Accounted := by
  have hnodup := h.nodup
  rw [horder, List.nodup_cons] at hnodup
  have hmem : r.partials.lookup oldest ≠ none := (h.mem_order oldest).mp (by simp [horder])
  obtain ⟨p, hp⟩ := Option.ne_none_iff_exists'.mp hmem
  refine ⟨hnodup.2, fun k => ?_, ?_⟩
  · have hk := h.mem_order k
    rw [horder, List.mem_cons] at hk
    show k ∈ rest ↔ (r.partials.erase oldest).lookup k ≠ none
    rw [Table.lookup_erase_eq]
    by_cases heq : k = oldest
    · simp [heq, hnodup.1]
    · rw [if_neg heq, ← hk]
      simp [heq]
  · show r.buffered - (r.partials.lookup oldest).elim 0 Partial.bytes = _
    rw [hp, Option.elim_some, h.buffered_eq, ← storedIn_erase hp, Nat.add_sub_cancel]
    rfl

theorem evictLoop {l : List Key} (h : r.Accounted) (incoming : Nat) (horder : r.order = l) :
    (evictLoop incoming l r).Accounted ∧
      (¬ (Reassembler.evictLoop incoming l r).full incoming ∨ (Reassembler.evictLoop incoming l r).order = []) := by
  induction l generalizing r with
  | nil => exact ⟨h, .inr horder⟩
  | cons oldest rest ih =>
    rw [Reassembler.evictLoop]
    split
    · exact ih (h.removeOldest horder) rfl
    · next hroom => exact ⟨h, .inl hroom⟩

theorem partials_of_order_nil (h : r.Accounted) (hnil : r.order = []) : r.partials.toList = [] := by
  refine List.eq_nil_iff_forall_not_mem.mpr fun kv hkv => ?_
  have hk := (h.mem_order kv.1).mpr (by rw [Table.mem_toList.mp hkv]; simp)
  simp [hnil] at hk

theorem fetch (h : r.Accounted) (key : Key) (frag : Fragment) : (r.fetch key frag).Accounted := by
  cases hk : r.partials.lookup key with
  | some p => rwa [fetch_of_lookup hk]
  | none =>
    have hev := (evictLoop h frag.chunk.length rfl).1
    have hnone : (r.evictIfNeeded frag.chunk.length).partials.lookup key = none := by
      rcases lookup_evictLoop frag.chunk.length key r.order r with h' | h'
      · exact h'.trans hk
      · exact h'
    have hnot : key ∉ (r.evictIfNeeded frag.chunk.length).order :=
      fun hmem => (hev.mem_order key).mp hmem hnone
    rw [fetch_of_none hk]
    refine ⟨?_, fun k => ?_, ?_⟩
    · exact List.nodup_append.mpr ⟨hev.nodup, List.nodup_singleton key, by
        rintro a ha b hb rfl
        exact hnot (List.mem_singleton.mp hb ▸ ha)⟩
    · have hmem := hev.mem_order k
      simp only [evictIfNeeded, List.mem_append, List.mem_singleton, Table.lookup_insert_eq] at hmem ⊢
      by_cases heq : k = key
      · simp [heq]
      · simpa [heq] using hmem
    · show (r.evictIfNeeded frag.chunk.length).buffered = _
      rw [storedIn_insert, Table.erase_of_lookup_eq_none hnone,
        show (Partial.new frag.fragCount).bytes = 0 from rfl, Nat.zero_add]
      exact hev.buffered_eq

theorem update (h : r.Accounted) (hp : r.partials.lookup key = some p) (idx : Nat) (chunk : Bytes) :
    (r.update key (p.put idx chunk) (p.gain idx chunk)).Accounted := by
  refine ⟨h.nodup, fun k => ?_, ?_⟩
  · show k ∈ r.order ↔ (r.partials.insert key (p.put idx chunk)).lookup k ≠ none
    rw [h.mem_order, Table.lookup_insert_eq]
    by_cases heq : k = key
    · rw [if_pos heq, heq, hp]
      simp
    · rw [if_neg heq]
  · show r.buffered + p.gain idx chunk = storedIn (r.partials.insert key (p.put idx chunk))
    rw [storedIn_insert, Partial.bytes_put, h.buffered_eq, ← storedIn_erase hp]
    omega

theorem remove (h : r.Accounted) (hp : r.partials.lookup key = some p) : (r.remove key p).Accounted := by
  refine ⟨h.nodup.filter _, fun k => ?_, ?_⟩
  · show k ∈ r.order.filter (· ≠ key) ↔ (r.partials.erase key).lookup k ≠ none
    rw [List.mem_filter, h.mem_order, Table.lookup_erase_eq]
    by_cases heq : k = key
    · simp [heq]
    · simp [heq]
  · show r.buffered - p.bytes = storedIn (r.partials.erase key)
    rw [h.buffered_eq, ← storedIn_erase hp, Nat.add_sub_cancel]

theorem lookup_update {q : Partial} {n : Nat} : (r.update key q n).partials.lookup key = some q :=
  AList.lookup_insert _

theorem store (h : r.Accounted) (hp : r.partials.lookup key = some p) (frag : Fragment) :
    (r.store key p frag).1.Accounted := by
  rcases store_cases r key p frag with ⟨-, hs⟩ | ⟨-, -, ⟨-, hs⟩ | ⟨-, hs⟩⟩ <;> rw [hs]
  · exact h
  · exact h.update hp _ _
  · exact (h.update hp _ _).remove lookup_update

end Accounted

/-! ### The caps -/

theorem inFlight_update {q : Partial} {n : Nat} (hp : r.partials.lookup key = some p) :
    (r.update key q n).inFlight = r.inFlight := by
  have herase := Table.total_erase (fun _ => 1) hp
  simp only [inFlight, Table.length_toList_eq_total, update, Table.total_insert]
  omega

theorem inFlight_remove_le (hp : r.partials.lookup key = some p) : (r.remove key p).inFlight ≤ r.inFlight := by
  have herase := Table.total_erase (fun _ => 1) hp
  simp only [inFlight, Table.length_toList_eq_total, remove]
  omega

theorem inFlight_store_le (hp : r.partials.lookup key = some p) (frag : Fragment) :
    (r.store key p frag).1.inFlight ≤ r.inFlight := by
  rcases store_cases r key p frag with ⟨-, hs⟩ | ⟨-, -, ⟨-, hs⟩ | ⟨-, hs⟩⟩ <;> rw [hs]
  · exact (inFlight_update hp).le
  · exact (inFlight_remove_le Accounted.lookup_update).trans (inFlight_update hp).le

theorem inFlight_fetch_le (h : r.Accounted) (hpos : 0 < r.maxMessages) (hle : r.inFlight ≤ r.maxMessages) :
    (r.fetch key frag).inFlight ≤ r.maxMessages := by
  cases hk : r.partials.lookup key with
  | some p => rwa [fetch_of_lookup hk]
  | none =>
    have hlim := (evictLoop_limits frag.chunk.length r.order r).1
    have hlen := Table.length_insert_le (r.evictIfNeeded frag.chunk.length).partials key (.new frag.fragCount)
    rw [fetch_of_none hk]
    refine hlen.trans ?_
    obtain ⟨hev, hroom | hnil⟩ := h.evictLoop frag.chunk.length rfl
    · have hlt := lt_of_not_ge (not_or.mp hroom).1
      rw [hlim] at hlt
      exact hlt
    · rw [evictIfNeeded, hev.partials_of_order_nil hnil]
      exact hpos

theorem buffered_fetch_of_none (frag : Fragment) (h : r.Accounted) (hk : r.partials.lookup key = none) :
    (r.fetch key frag).buffered ≤ r.maxBytes ∧
      ((r.fetch key frag).buffered + frag.chunk.length ≤ r.maxBytes ↔ frag.chunk.length ≤ r.maxBytes) := by
  have hlim := (evictLoop_limits frag.chunk.length r.order r).2.1
  rw [fetch_of_none hk]
  show (evictLoop _ _ _).buffered ≤ _ ∧ ((evictLoop _ _ _).buffered + _ ≤ _ ↔ _)
  obtain ⟨hev, hroom | hnil⟩ := h.evictLoop frag.chunk.length rfl
  · have hle := not_lt.mp (not_or.mp hroom).2
    rw [hlim] at hle
    omega
  · have hzero : (evictLoop frag.chunk.length r.order r).buffered = 0 := by
      rw [hev.buffered_eq, storedIn, Table.total, hev.partials_of_order_nil hnil]
      rfl
    omega

theorem buffered_remove_update_le (r : Reassembler) (key : Key) (p : Partial) (idx : Nat) (chunk : Bytes) :
    ((r.update key (p.put idx chunk) (p.gain idx chunk)).remove key
      (p.put idx chunk)).buffered ≤ r.buffered := by
  show r.buffered + p.gain idx chunk - (p.put idx chunk).bytes ≤ r.buffered
  rw [Partial.bytes_put]
  omega

/-- The caps and the bookkeeping they rest on: the byte counter is the sum of the stored chunk sizes, the
eviction order lists exactly the messages in flight, once each, and neither cap is exceeded. -/
structure Bounded (r : Reassembler) : Prop extends r.Accounted where
  inFlight_le : r.inFlight ≤ r.maxMessages
  buffered_le : r.buffered ≤ r.maxBytes

/-- A packet that does not grow a partial over the byte cap. The first chunk of a message is measured alone
(eviction makes room for it); a further one that leaves its message incomplete has to fit beside all that
is buffered. -/
def Fits (r : Reassembler) (d : Delivery) : Prop :=
  ∀ frag ∈ r.read d.packet,
    match r.partials.lookup (d.source, frag.msgId, frag.kind) with
    | none => frag.fragCount = 1 ∨ frag.chunk.length ≤ r.maxBytes
    | some p => p.fragCount ≠ frag.fragCount ∨ p.chunks[frag.fragIndex.toNat]? ≠ some none ∨
        p.held + 1 = p.fragCount.toNat ∨ r.buffered + frag.chunk.length ≤ r.maxBytes

theorem buffered_store_iff (key : Key) (p : Partial) (frag : Fragment) (hle : r.buffered ≤ r.maxBytes) :
    (r.store key p frag).1.buffered ≤ r.maxBytes ↔
      p.fragCount ≠ frag.fragCount ∨ p.chunks[frag.fragIndex.toNat]? ≠ some none ∨
        p.held + 1 = p.fragCount.toNat ∨ r.buffered + frag.chunk.length ≤ r.maxBytes := by
  rcases store_cases r key p frag with ⟨hbad, hs⟩ | ⟨hcount, hidx, hrest⟩
  · rw [hs]
    refine iff_of_true hle ?_
    rcases hbad with hbad | hbad
    · exact .inl hbad
    · exact .inr (.inl (by rw [List.getElem?_eq_none hbad]; simp))
  · by_cases hslot : p.chunks[frag.fragIndex.toNat]? = some none
    · have hgain : p.gain frag.fragIndex.toNat frag.chunk = frag.chunk.length := if_pos hslot
      simp only [Partial.isDone, Partial.held_put_of_empty hslot, Partial.fragCount_put,
        decide_eq_false_iff_not, decide_eq_true_eq, hgain] at hrest
      simp only [hcount, hslot, ne_eq, not_true_eq_false, false_or]
      rw [hcount] at hrest
      rcases hrest with ⟨hdone, hs⟩ | ⟨hdone, hs⟩
      · rw [hs]
        simp only [update, hdone, false_or]
      · have hrem := buffered_remove_update_le r key p frag.fragIndex.toNat frag.chunk
        rw [hgain] at hrem
        rw [hs]
        exact iff_of_true (hrem.trans hle) (.inl hdone)
    · have hgain : p.gain frag.fragIndex.toNat frag.chunk = 0 := if_neg hslot
      refine iff_of_true ?_ (.inr (.inl hslot))
      rcases hrest with ⟨-, hs⟩ | ⟨-, hs⟩ <;> rw [hs]
      · simpa only [update, hgain, Nat.add_zero] using hle
      · exact (buffered_remove_update_le r key p _ _).trans hle

theorem buffered_receive_iff (h : r.Accounted) (hle : r.buffered ≤ r.maxBytes) (d : Delivery) :
    (r.receive d).buffered ≤ r.maxBytes ↔ r.Fits d := by
  rw [receive, Fits]
  cases hread : r.read d.packet with
  | none =>
    rw [accept_of_read_none hread]
    exact iff_of_true hle (by simp)
  | some frag =>
    rw [accept_of_read hread]
    simp only [Option.mem_def, Option.some.injEq, forall_eq']
    have hlim := (fetch_limits r (d.source, frag.msgId, frag.kind) frag).2.1
    cases hk : r.partials.lookup (d.source, frag.msgId, frag.kind) with
    | some p =>
      rw [fetch_of_lookup hk, slot, hk]
      exact buffered_store_iff _ p frag hle
    | none =>
      obtain ⟨hfetch, hfits⟩ := buffered_fetch_of_none frag h hk
      have hvalid : frag.Valid := by
        obtain ⟨f, hf, hkind⟩ := Option.bind_eq_some_iff.mp hread
        split at hkind
        · cases hkind
        · cases hkind
          exact Fragment.valid_of_parse hf
      have hstore := buffered_store_iff (d.source, frag.msgId, frag.kind) (r.slot (d.source, frag.msgId, frag.kind) frag.fragCount)
        frag (hlim ▸ hfetch)
      rw [hlim] at hstore
      rw [hstore, hfits, slot, hk, Option.getD_none]
      have hempty := Partial.new_empty (UInt16.lt_iff_toNat_lt.mp hvalid.1)
      have hone : (Partial.new frag.fragCount).held + 1 = frag.fragCount.toNat ↔ frag.fragCount = 1 := by
        rw [← UInt16.toNat_inj, eq_comm]
        rfl
      have hcount : (Partial.new frag.fragCount).fragCount = frag.fragCount := rfl
      simp only [hempty, hone, hcount, ne_eq, not_true_eq_false, false_or]

theorem bounded_receive_iff (h : r.Bounded) (hpos : 0 < r.maxMessages) (d : Delivery) :
    (r.receive d).Bounded ↔ r.Fits d := by
  have hlim := receive_limits r d
  have hacc : (r.receive d).Accounted ∧ (r.receive d).inFlight ≤ r.maxMessages := by
    rw [receive]
    cases hread : r.read d.packet with
    | none =>
      rw [accept_of_read_none hread]
      exact ⟨h.toAccounted, h.inFlight_le⟩
    | some frag =>
      rw [accept_of_read hread]
      exact ⟨(h.toAccounted.fetch _ frag).store lookup_fetch_self frag,
        (inFlight_store_le lookup_fetch_self frag).trans (inFlight_fetch_le h.toAccounted hpos h.inFlight_le)⟩
  rw [← buffered_receive_iff h.toAccounted h.buffered_le d]
  exact ⟨fun hb => hlim.2.1 ▸ hb.buffered_le,
    fun hb => ⟨hacc.1, hlim.1.symm ▸ hacc.2, hlim.2.1.symm ▸ hb⟩⟩

/-- A new reassembler, with the limits and the kind filter of its constructor. -/
def start (maxMessages maxBytes : Nat) (onlyKind : Option UInt8) : Reassembler :=
  { withLimits maxMessages maxBytes with onlyKind }

theorem bounded_start (maxMessages maxBytes : Nat) (onlyKind : Option UInt8) :
    (start maxMessages maxBytes onlyKind).Bounded where
  nodup := List.nodup_nil
  mem_order k := by
    show k ∈ [] ↔ AList.lookup k ∅ ≠ none
    simp
  buffered_eq := rfl
  inFlight_le := Nat.zero_le _
  buffered_le := Nat.zero_le _

theorem maxMessages_foldl (ds : List Delivery) (r : Reassembler) :
    (ds.foldl receive r).maxMessages = r.maxMessages := by
  induction ds generalizing r with
  | nil => rfl
  | cons d ds ih => exact (ih (r.receive d)).trans (receive_limits r d).1

/-- After every accepted packet the caps and the counters hold, exactly when every packet fits. -/
theorem bounded_iff_fits (maxMessages maxBytes : Nat) (onlyKind : Option UInt8) (ds : List Delivery) :
    (∀ pre, pre <+: ds → (pre.foldl receive (start maxMessages maxBytes onlyKind)).Bounded) ↔
      Run.Along receive Fits (start maxMessages maxBytes onlyKind) ds := by
  let I (r : Reassembler) : Prop := 0 < r.maxMessages ∧ r.Bounded
  have hpos : 0 < (start maxMessages maxBytes onlyKind).maxMessages := lt_max_of_lt_right Nat.one_pos
  have hiff : ∀ r d, I r → (I (r.receive d) ↔ r.Fits d) := fun r d hI => by
    rw [← bounded_receive_iff hI.2 hI.1 d]
    exact ⟨fun h => h.2, fun h => ⟨(receive_limits r d).1.symm ▸ hI.1, h⟩⟩
  rw [← Run.forall_reached_iff hiff ⟨hpos, bounded_start ..⟩]
  refine forall₂_congr fun pre _ => ⟨fun h => ⟨?_, h⟩, fun h => h.2⟩
  rw [maxMessages_foldl]
  exact hpos

/-- Two fragments of a message of three: each is within a cap of four bytes, both together are not. -/
def growing : List Delivery :=
  [⟨"a", Fragment.encode ⟨KIND_FRAME, 0, 0, 3, [1, 2, 3]⟩⟩, ⟨"a", Fragment.encode ⟨KIND_FRAME, 0, 1, 3, [4, 5, 6]⟩⟩]

/-- A partial grows over the byte cap: eviction runs for new messages only. -/
theorem buffered_over_cap : ¬ (growing.foldl receive (start 2 4 none)).Bounded := fun h =>
  absurd h.buffered_le (by decide)

end Reassembler

end Mesh
end Talkrypt
