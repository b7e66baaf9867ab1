import Talkrypt.Transport.MeshDial

/-! Each successful dial opens a fresh connection, as long as connection ids do not come back. The
invariant: every stream, queued packet and packet in the air belongs to the connection of the dial it
carries, and a `SYN_ACK` under way means that the node dialed has given a stream to its listener or is
about to. -/

namespace Talkrypt
namespace MeshTransport

/-! ### What holds of a node -/

/-- A listener of the node was given a stream for the dial, or is about to be. -/
def Node.Takes (n : Node) (d : Nat) : Prop :=
  d ∈ n.handed.map Handed.dial ∨ ∃ connId, n.accepting = some (connId, d)

section
variable (dials : List Dial) (accepted : Nat → Prop) (x : Side)

/-- A stream belongs to the connection of its dial: it is the dialing node's own or was given to a listener,
and every packet queued for it was sent on that connection. -/
structure MeshStream.Valid (handed : List Handed) (st : MeshStream) (dl : Dial) : Prop where
  dial : dials[st.dial]? = some dl
  connId : st.connId = dl.connId
  side : dl.node = x ∨ st.dial ∈ handed.map Handed.dial
  acks : ∀ e ∈ st.ackRx, e.2.typ = T_SYN_ACK → accepted st.dial
  carried : ∀ e ∈ st.carried, e.1 = st.dial

structure Node.Valid (n : Node) : Prop where
  streams : ∀ (i : Nat) (st : MeshStream), n.streams[i]? = some st →
    ∃ dl, st.Valid dials accepted x n.handed dl
  conns : ∀ connId i, n.conns.lookup connId = some i → ∃ st, n.streams[i]? = some st ∧ st.connId = connId
  syn : ∀ connId d, n.handling = some (.syn connId d) →
    ∃ dl, dials[d]? = some dl ∧ dl.connId = connId ∧ dl.node = x.other
  data : ∀ p d, n.handling = some (.data p d) → ∃ dl, dials[d]? = some dl ∧ dl.connId = p.connId
  once : (n.handed.map Handed.dial).Nodup
  handed : ∀ h ∈ n.handed, h.reader = .new ∧ ∃ st, n.streams[h.stream]? = some st ∧ st.dial = h.dial

/-- A packet in the air belongs to the connection of its dial, a `SYN` comes from the dialing node, and a
`SYN_ACK` from a node that takes the dial. -/
structure Packaged.Valid (m : Packaged) (p : Packet) (dl : Dial) : Prop where
  parse : parsePacket m.bytes = some p
  dial : dials[m.dial]? = some dl
  connId : p.connId = dl.connId
  syn : p.typ = T_SYN → m.sender = dl.node
  synAck : p.typ = T_SYN_ACK → accepted m.dial

end

section
variable {dials dials' : List Dial} {accepted accepted' : Nat → Prop} {x : Side} {n : Node} {st : MeshStream}
  {handed handed' : List Handed} {dl : Dial} {m : Packaged} {p : Packet} {d i : Nat} {connId : UInt64}
  {f : MeshStream → MeshStream}

theorem MeshStream.Valid.mono (h : st.Valid dials accepted x handed dl) (hd : dials <+: dials')
    (hacc : ∀ d, accepted d → accepted' d) (hhanded : handed ⊆ handed') :
    st.Valid dials' accepted' x handed' dl :=
  { h with
    dial := getElem?_of_prefix hd h.dial
    side := h.side.imp_right (List.map_subset _ hhanded ·)
    acks := fun e he htyp => hacc _ (h.acks e he htyp) }

theorem Node.Valid.mono (h : n.Valid dials accepted x) (hd : dials <+: dials')
    (hacc : ∀ d, accepted d → accepted' d) : n.Valid dials' accepted' x where
  streams i st hst := by
    obtain ⟨dl, hdl⟩ := h.streams i st hst
    exact ⟨dl, hdl.mono hd hacc (List.Subset.refl _)⟩
  conns := h.conns
  syn connId d hsyn := by
    obtain ⟨dl, hdl, hrest⟩ := h.syn connId d hsyn
    exact ⟨dl, getElem?_of_prefix hd hdl, hrest⟩
  data p d hdata := by
    obtain ⟨dl, hdl, hconn⟩ := h.data p d hdata
    exact ⟨dl, getElem?_of_prefix hd hdl, hconn⟩
  once := h.once
  handed := h.handed

theorem Packaged.Valid.mono (h : m.Valid dials accepted p dl) (hd : dials <+: dials')
    (hacc : ∀ d, accepted d → accepted' d) : m.Valid dials' accepted' p dl :=
  { h with dial := getElem?_of_prefix hd h.dial, synAck := fun htyp => hacc _ (h.synAck htyp) }

theorem getElem?_modify_eq_some {α : Type} {l : List α} {f : α → α} {i j : Nat} {b : α}
    (h : (l.modify i f)[j]? = some b) : ∃ a, l[j]? = some a ∧ b = if i = j then f a else a := by
  rw [List.getElem?_modify] at h
  obtain ⟨a, ha, rfl⟩ := Option.map_eq_some_iff.mp h
  exact ⟨a, ha, rfl⟩

theorem streams_modify {l : List MeshStream} (hdial : ∀ st, (f st).dial = st.dial) (j : Nat) (st : MeshStream)
    (h : l[j]? = some st) : ∃ st', (l.modify i f)[j]? = some st' ∧ st'.dial = st.dial := by
  refine ⟨if i = j then f st else st, by rw [List.getElem?_modify, h]; rfl, ?_⟩
  split
  · exact hdial st
  · rfl

theorem Node.Valid.modify (h : n.Valid dials accepted x) (hdial : ∀ st, (f st).dial = st.dial)
    (hconn : ∀ st, (f st).connId = st.connId)
    (hacks : ∀ st, n.streams[i]? = some st → ∀ e ∈ (f st).ackRx, e.2.typ = T_SYN_ACK →
      e ∈ st.ackRx ∨ accepted st.dial)
    (hcarried : ∀ st, n.streams[i]? = some st → ∀ e ∈ (f st).carried, e ∈ st.carried ∨ e.1 = st.dial) :
    Node.Valid dials accepted x { n with streams := n.streams.modify i f } where
  streams j st hst := by
    obtain ⟨old, hold, rfl⟩ := getElem?_modify_eq_some hst
    obtain ⟨dl, hdl⟩ := h.streams j old hold
    refine ⟨dl, ?_⟩
    split
    · next hij =>
      subst hij
      refine ⟨hdial old ▸ hdl.dial, (hconn old).trans hdl.connId, hdial old ▸ hdl.side, ?_, ?_⟩
      · intro e he htyp
        rw [hdial]
        exact (hacks old hold e he htyp).elim (hdl.acks e · htyp) id
      · intro e he
        rw [hdial]
        exact (hcarried old hold e he).elim (hdl.carried e) id
    · exact hdl
  conns connId j hlookup := by
    obtain ⟨st, hst, hid⟩ := h.conns connId j hlookup
    refine ⟨if i = j then f st else st, by rw [List.getElem?_modify, hst]; rfl, ?_⟩
    split
    · rw [hconn, hid]
    · exact hid
  syn := h.syn
  data := h.data
  once := h.once
  handed g hg := by
    obtain ⟨hreader, st, hst, hd⟩ := h.handed g hg
    obtain ⟨st', hst', hd'⟩ := streams_modify (i := i) hdial _ _ hst
    exact ⟨hreader, st', hst', hd'.trans hd⟩

theorem Node.Valid.register (h : n.Valid dials accepted x) (given : List Handed)
    (hdl : dials[d]? = some dl) (hid : dl.connId = connId) (hside : dl.node = x ∨ d ∈ given.map Handed.dial)
    (hgiven : ∀ g ∈ given, g.reader = .new ∧ g.stream = n.streams.length ∧ g.dial = d)
    (honce : ((n.handed ++ given).map Handed.dial).Nodup) :
    Node.Valid dials accepted x { n with
      conns := n.conns.insert connId n.streams.length
      streams := n.streams ++ [.new connId d]
      handed := n.handed ++ given } where
  streams i st hst := by
    rcases getElem?_concat hst with hold | ⟨-, rfl⟩
    · obtain ⟨dl', hdl'⟩ := h.streams i st hold
      exact ⟨dl', hdl'.mono List.prefix_rfl (fun _ h => h) (List.subset_append_left _ _)⟩
    · exact ⟨dl, hdl, hid.symm, hside.imp_right (List.map_subset _ (List.subset_append_right _ _) ·),
        nofun, nofun⟩
  conns connId' i hlookup := by
    rw [Table.lookup_insert_eq] at hlookup
    split at hlookup
    · next heq =>
      cases hlookup
      exact ⟨_, List.getElem?_concat_length, heq.symm⟩
    · obtain ⟨st, hst, hid'⟩ := h.conns connId' i hlookup
      exact ⟨st, getElem?_append_of_some _ hst, hid'⟩
  syn := h.syn
  data := h.data
  once := honce
  handed g hg := by
    rcases List.mem_append.mp hg with hold | hnew
    · obtain ⟨hreader, st, hst, hd⟩ := h.handed g hold
      exact ⟨hreader, st, getElem?_append_of_some _ hst, hd⟩
    · obtain ⟨hreader, hstream, hd⟩ := hgiven g hnew
      exact ⟨hreader, _, by rw [hstream]; exact List.getElem?_concat_length, hd.symm⟩

theorem Node.Valid.new (localEp : Bytes) : (Node.new localEp).Valid dials accepted x :=
  ⟨by simp [Node.new], nofun, nofun, nofun, List.nodup_nil, by simp [Node.new]⟩

theorem filter_dial_eq {l : List Handed} (hnd : (l.map Handed.dial).Nodup) {g : Handed} (hg : g ∈ l) :
    l.filter (·.dial = g.dial) = [g] := by
  induction l with
  | nil => cases hg
  | cons g' l ih =>
    obtain ⟨hnot, hnd⟩ := List.nodup_cons.mp hnd
    rcases List.mem_cons.mp hg with rfl | hmem
    · have hrest : l.filter (·.dial = g.dial) = [] := by
        rw [List.filter_eq_nil_iff]
        intro g' hg' heq
        exact hnot (List.mem_map.mpr ⟨g', hg', by simpa using heq⟩)
      rw [List.filter_cons_of_pos (by simp), hrest]
    · have hne : g'.dial ≠ g.dial := fun heq => hnot (List.mem_map.mpr ⟨g, hmem, heq.symm⟩)
      rw [List.filter_cons_of_neg (by simpa using hne), ih hnd hmem]

end

namespace Pair

def Accepted (w : Pair) (d : Nat) : Prop :=
  ∃ dl, w.dials[d]? = some dl ∧ (w.node dl.node.other).Takes d

structure Inv (w : Pair) : Prop where
  fresh : (w.dials.map Dial.connId).Nodup
  air : ∀ m ∈ w.air, ∃ p dl, m.Valid w.dials w.Accepted p dl
  node : ∀ x, (w.node x).Valid w.dials w.Accepted x
  own : ∀ (d : Nat) (dl : Dial), w.dials[d]? = some dl →
    ∃ st, (w.node dl.node).streams[dl.stream]? = some st ∧ st.dial = d
  ok : ∀ d : Nat, w.status[d]? = some .ok → w.Accepted d

variable {w w' : Pair} {x : Side} {n : Node} {d : Nat} {dl : Dial}

theorem Accepted.mono (h : w.Accepted d) (hd : w.dials <+: w'.dials)
    (htakes : ∀ x d, (w.node x).Takes d → (w'.node x).Takes d) : w'.Accepted d := by
  obtain ⟨dl, hdl, h⟩ := h
  exact ⟨dl, getElem?_of_prefix hd hdl, htakes _ _ h⟩

theorem node_setNode (w : Pair) (x y : Side) (n : Node) :
    (w.setNode x n).node y = if y = x then n else w.node y := Function.update_apply _ _ _ _

theorem takes_setNode (htakes : ∀ d, (w.node x).Takes d → n.Takes d) (y : Side) (d : Nat)
    (h : (w.node y).Takes d) : ((w.setNode x n).node y).Takes d := by
  rw [node_setNode]
  split
  · next hyx =>
    subst hyx
    exact htakes d h
  · exact h

theorem Inv.eq_of_connId (hi : w.Inv) {d' : Nat} {dl' : Dial} (h : w.dials[d]? = some dl)
    (h' : w.dials[d']? = some dl') (heq : dl.connId = dl'.connId) : d = d' := by
  obtain ⟨hlt, hget⟩ := List.getElem?_eq_some_iff.mp h
  obtain ⟨hlt', hget'⟩ := List.getElem?_eq_some_iff.mp h'
  have hmap : d < (w.dials.map Dial.connId).length := by simpa using hlt
  have hmap' : d' < (w.dials.map Dial.connId).length := by simpa using hlt'
  have hsame : (w.dials.map Dial.connId)[d] = (w.dials.map Dial.connId)[d'] := by simp [hget, hget', heq]
  exact hi.fresh.getElem_inj_iff.mp hsame

/-! ### How the parts of a step keep it -/

theorem Inv.setNode (hi : w.Inv) (hn : n.Valid w.dials w.Accepted x)
    (htakes : ∀ d, (w.node x).Takes d → n.Takes d)
    (hstreams : ∀ (i : Nat) (st : MeshStream), (w.node x).streams[i]? = some st →
      ∃ st', n.streams[i]? = some st' ∧ st'.dial = st.dial) : (w.setNode x n).Inv := by
  have hacc : ∀ d, w.Accepted d → (w.setNode x n).Accepted d :=
    fun d h => h.mono List.prefix_rfl (takes_setNode htakes)
  refine ⟨hi.fresh, ?_, ?_, ?_, fun d hd => hacc d (hi.ok d hd)⟩
  · intro m hm
    obtain ⟨p, dl, h⟩ := hi.air m hm
    exact ⟨p, dl, h.mono List.prefix_rfl hacc⟩
  · intro y
    rw [node_setNode]
    split
    · next hyx =>
      subst hyx
      exact hn.mono List.prefix_rfl hacc
    · exact (hi.node y).mono List.prefix_rfl hacc
  · intro d dl hdl
    obtain ⟨st, hst, hd⟩ := hi.own d dl hdl
    rw [node_setNode]
    split
    · next hx =>
      subst hx
      obtain ⟨st', hst', hd'⟩ := hstreams _ _ hst
      exact ⟨st', hst', hd'.trans hd⟩
    · exact ⟨st, hst, hd⟩

theorem Inv.touch (hi : w.Inv) (hn : n.Valid w.dials w.Accepted x)
    (htakes : ∀ d, (w.node x).Takes d → n.Takes d) (hstreams : n.streams = (w.node x).streams) :
    (w.setNode x n).Inv := hi.setNode hn htakes fun _ st hst => ⟨st, hstreams ▸ hst, rfl⟩

variable {i : Nat} {p : Packet}

theorem Inv.send (hi : w.Inv) {bytes : Bytes} (hm : Packaged.Valid w.dials w.Accepted ⟨x, d, bytes⟩ p dl) :
    (w.send x d bytes).Inv :=
  { hi with air := forall_mem_concat hi.air ⟨p, dl, hm⟩ }

theorem Inv.setStatus (hi : w.Inv) {st : Status} (hok : st = .ok → w.Accepted d) : (w.setStatus d st).Inv := by
  refine { hi with ok := fun d' hd' => ?_ }
  rw [Pair.setStatus, List.getElem?_set] at hd'
  split at hd'
  · next heq =>
    subst heq
    split at hd'
    · exact hok (Option.some.inj hd')
    · cases hd'
  · exact hi.ok d' hd'


theorem Inv.fail (hi : w.Inv) : (w.fail d dl).Inv := by
  have h := hi.node dl.node
  have hn : Node.Valid w.dials w.Accepted dl.node
      { w.node dl.node with conns := (w.node dl.node).conns.erase dl.connId } := by
    refine { h with conns := fun connId i hlookup => ?_ }
    rw [Table.lookup_erase_eq] at hlookup
    split at hlookup
    · cases hlookup
    · exact h.conns connId i hlookup
  exact (hi.touch hn (fun _ h => h) rfl).setStatus nofun

theorem Inv.again (hi : w.Inv) (tries : Nat) : (w.again d dl tries).Inv := by
  unfold Pair.again
  split
  · exact hi.setStatus nofun
  · exact hi.fail

/-! ### What each event keeps -/

theorem Inv.restart (hi : w.Inv) (hok : w.Orderly (.restart x)) : (w.restart x).Inv := by
  have h := hi.node x
  have hstreams : ∀ (i : Nat) (st : MeshStream), (w.node x).restart.streams[i]? = some st →
      ∃ old, (w.node x).streams[i]? = some old ∧ st = { old with dropped := true } := by
    intro i st hst
    simp only [Node.restart, List.getElem?_map, Option.map_eq_some_iff] at hst
    obtain ⟨old, hold, rfl⟩ := hst
    exact ⟨old, hold, rfl⟩
  have hkept : ∀ (i : Nat) (st : MeshStream), (w.node x).streams[i]? = some st →
      ∃ st', (w.node x).restart.streams[i]? = some st' ∧ st'.dial = st.dial := by
    intro i st hst
    exact ⟨{ st with dropped := true }, by simp [Node.restart, hst], rfl⟩
  have hset : (w.setNode x (w.node x).restart).Inv := by
    refine hi.setNode ⟨?_, ?_, ?_, ?_, h.once, ?_⟩ ?_ hkept
    · intro i st hst
      obtain ⟨old, hold, rfl⟩ := hstreams i st hst
      obtain ⟨dl, hdl⟩ := h.streams i old hold
      exact ⟨dl, hdl.dial, hdl.connId, hdl.side, hdl.acks, hdl.carried⟩
    · exact nofun
    · exact nofun
    · exact nofun
    · intro g hg
      obtain ⟨hreader, st, hst, hd⟩ := h.handed g hg
      obtain ⟨st', hst', hd'⟩ := hkept _ _ hst
      exact ⟨hreader, st', hst', hd'.trans hd⟩
    · -- no `SYN` was being accepted, so what was taken is with a listener
      rintro d (hmem | ⟨connId, hacc⟩)
      · exact .inl hmem
      · rw [show (w.node x).accepting = none from hok] at hacc
        cases hacc
  refine { hset with ok := fun d hd => hset.ok d ?_ }
  simp only [Pair.restart, List.getElem?_map, List.getElem?_zipIdx, Option.map_map, Option.map_eq_some_iff] at hd
  obtain ⟨st, hst, heq⟩ := hd
  dsimp only [Function.comp] at heq
  split at heq
  · cases heq
  · rw [heq] at hst
    exact hst

theorem Inv.dial (hi : w.Inv) {endpoint : Bytes} (hok : w.Orderly (.dial x endpoint)) :
    (w.dial x endpoint).Inv := by
  have hgrow : w.dials <+: (w.dial x endpoint).dials := List.prefix_append ..
  have hnode : ∀ y, (w.dial x endpoint).node y = if y = x then
      { (w.node x).registerConn (dialConnId (w.node x).localEp (w.node x).connCtr) w.dials.length with
        started := true, connCtr := (w.node x).connCtr + 1 } else w.node y :=
    fun y => node_setNode w x y _
  have htakes : ∀ y d, (w.node y).Takes d → ((w.dial x endpoint).node y).Takes d := by
    intro y d h
    rw [hnode]
    split
    · next hyx =>
      subst hyx
      exact h
    · exact h
  have hacc : ∀ d, w.Accepted d → (w.dial x endpoint).Accepted d := fun d h => h.mono hgrow htakes
  have hstreams : ∀ (y : Side) (i : Nat) (st : MeshStream), (w.node y).streams[i]? = some st →
      ((w.dial x endpoint).node y).streams[i]? = some st := by
    intro y i st hst
    rw [hnode]
    split
    · next hyx =>
      subst hyx
      exact getElem?_append_of_some _ hst
    · exact hst
  refine ⟨?_, ?_, ?_, ?_, ?_⟩
  · rw [Pair.dial, List.map_append, List.nodup_append]
    refine ⟨hi.fresh, by simp, ?_⟩
    intro a ha b hb heq
    rw [heq, List.mem_singleton.mp hb] at ha
    exact hok ha
  · intro m hm
    obtain ⟨p, dl, h⟩ := hi.air m hm
    exact ⟨p, dl, h.mono hgrow hacc⟩
  · intro y
    rw [hnode]
    split
    · next hyx =>
      subst hyx
      have hnew := ((hi.node y).mono hgrow hacc).register [] (d := w.dials.length)
        (List.getElem?_concat_length) rfl (.inl rfl) (by simp) (by simpa using (hi.node y).once)
      rw [List.append_nil] at hnew
      exact { hnew with }
    · exact (hi.node y).mono hgrow hacc
  · intro d dl hdl
    rcases getElem?_concat hdl with hold | ⟨rfl, rfl⟩
    · obtain ⟨st, hst, hd⟩ := hi.own d dl hold
      exact ⟨st, hstreams _ _ _ hst, hd⟩
    · refine ⟨.new (dialConnId (w.node x).localEp (w.node x).connCtr) w.dials.length, ?_, rfl⟩
      rw [hnode, if_pos rfl]
      exact List.getElem?_concat_length
  · intro d hd
    rcases getElem?_concat hd with hold | ⟨-, hcalling⟩
    · exact hacc d (hi.ok d hold)
    · cases hcalling

theorem Inv.sendSyn (hi : w.Inv) : (w.sendSyn d).Inv := by
  unfold Pair.sendSyn
  split
  · next dl tries hdl hstatus =>
    refine Inv.setStatus (hi.send ⟨parsePacket_encodeSyn _ _ _, hdl, rfl, fun _ => rfl, ?_⟩) nofun
    intro htyp
    exact absurd (show T_SYN = T_SYN_ACK from htyp) (by decide)
  · exact hi

theorem Inv.synTimeout (hi : w.Inv) : (w.synTimeout d).Inv := by
  unfold Pair.synTimeout
  split
  · exact hi.again _
  · exact hi

theorem Inv.closed (hi : w.Inv) : (w.closed d).Inv := by
  unfold Pair.closed
  split
  · dsimp only
    split
    · exact hi.fail
    · exact hi
  · exact hi

theorem Inv.readSynAck (hi : w.Inv) : (w.readSynAck d).Inv := by
  unfold Pair.readSynAck
  split
  · next dl tries hdl hstatus =>
    dsimp only
    split
    · next tag p rest hrx =>
      obtain ⟨st, hst, hd⟩ := hi.own d dl hdl
      rw [hst] at hrx
      have hack : st.ackRx = (tag, p) :: rest := Option.some.inj hrx
      have hread : Inv (w.setNode dl.node { w.node dl.node with
          streams := (w.node dl.node).streams.modify dl.stream fun st => { st with ackRx := rest } }) := by
        refine hi.setNode ((hi.node dl.node).modify (fun _ => rfl) (fun _ => rfl) ?_ ?_) (fun _ h => h)
          (streams_modify fun _ => rfl)
        · intro st' hst' e he _
          obtain rfl : st = st' := Option.some.inj (hst.symm.trans hst')
          left
          rw [hack]
          exact List.mem_cons_of_mem _ he
        · intro st' _ e he
          exact .inl he
      split
      · next htyp =>
        obtain ⟨dl', hvalid⟩ := (hi.node dl.node).streams _ _ hst
        have hacc : w.Accepted d := hd ▸ hvalid.acks (tag, p) (hack ▸ List.mem_cons_self) htyp
        exact hread.setStatus fun _ => hacc.mono List.prefix_rfl (takes_setNode fun _ h => h)
      · exact hread.again _
    · exact hi
  · exact hi

theorem Inv.sendData (hi : w.Inv) {msgSeq fragIdx fragCnt : UInt16} {seg : Bytes} :
    (w.sendData x i msgSeq fragIdx fragCnt seg).Inv := by
  unfold Pair.sendData
  split
  · exact hi
  · next st hst =>
    split
    · exact hi
    · obtain ⟨dl, hvalid⟩ := (hi.node x).streams i st hst
      refine hi.send ⟨parsePacket_encodeData _ _ _ _ _, hvalid.dial, hvalid.connId, ?_, ?_⟩
      · intro htyp
        exact absurd (show T_DATA = T_SYN from htyp) (by decide)
      · intro htyp
        exact absurd (show T_DATA = T_SYN_ACK from htyp) (by decide)

theorem Inv.dial_eq (hi : w.Inv) {st : MeshStream} (hst : (w.node x).streams[i]? = some st)
    (hdl : w.dials[d]? = some dl) (hid : st.connId = dl.connId) : st.dial = d := by
  obtain ⟨dl', hvalid⟩ := (hi.node x).streams i st hst
  exact hi.eq_of_connId hvalid.dial hdl (hvalid.connId.symm.trans hid)

theorem Inv.queue (hi : w.Inv) {f : MeshStream → MeshStream} {connId : UInt64}
    (hlookup : (w.node x).conns.lookup connId = some i) (hdl : w.dials[d]? = some dl) (hid : dl.connId = connId)
    (hdial : ∀ st, (f st).dial = st.dial) (hconn : ∀ st, (f st).connId = st.connId)
    (hacks : ∀ st, ∀ e ∈ (f st).ackRx, e.2.typ = T_SYN_ACK → e ∈ st.ackRx ∨ w.Accepted d)
    (hcarried : ∀ st, ∀ e ∈ (f st).carried, e ∈ st.carried ∨ e.1 = d) :
    Node.Valid w.dials w.Accepted x { w.node x with streams := (w.node x).streams.modify i f } := by
  obtain ⟨st₀, hst₀, hid₀⟩ := (hi.node x).conns connId i hlookup
  have hown : ∀ st, (w.node x).streams[i]? = some st → st.dial = d := by
    intro st hst
    obtain rfl : st₀ = st := Option.some.inj (hst₀.symm.trans hst)
    exact hi.dial_eq hst hdl (hid₀.trans hid.symm)
  refine (hi.node x).modify hdial hconn ?_ ?_
  · intro st hst e he htyp
    rw [hown st hst]
    exact hacks st e he htyp
  · intro st hst e he
    rw [hown st hst]
    exact hcarried st e he

theorem Inv.queueAck (hi : w.Inv) (hdl : w.dials[d]? = some dl) (hid : p.connId = dl.connId)
    (hack : p.typ = T_SYN_ACK → w.Accepted d) : (w.setNode x ((w.node x).queueAck p d)).Inv := by
  unfold Node.queueAck
  split
  · exact hi.touch (hi.node x) (fun _ h => h) rfl
  · next i hlookup =>
    have hdial : ∀ st : MeshStream,
        (if st.dropped then st else { st with ackRx := st.ackRx ++ [(d, p.toInPkt)] }).dial = st.dial := by
      intro st
      split <;> rfl
    refine hi.setNode (hi.queue hlookup hdl hid.symm hdial ?_ ?_ ?_) (fun _ h => h) (streams_modify hdial)
    · intro st
      split <;> rfl
    · intro st e he htyp
      split at he
      · exact .inl he
      · rcases List.mem_append.mp he with hold | hnew
        · exact .inl hold
        · rw [List.mem_singleton.mp hnew] at htyp
          exact .inr (hack htyp)
    · intro st e he
      left
      split at he <;> exact he

theorem Inv.handle (hi : w.Inv) (handling : Handling) (hidle : (w.node x).handling = none)
    (hsyn : ∀ connId d, handling = .syn connId d →
      ∃ dl, w.dials[d]? = some dl ∧ dl.connId = connId ∧ dl.node = x.other)
    (hdata : ∀ p d, handling = .data p d → ∃ dl, w.dials[d]? = some dl ∧ dl.connId = p.connId) :
    (w.setNode x { w.node x with handling := some handling }).Inv := by
  refine hi.touch { hi.node x with
    syn := fun connId d heq => hsyn connId d (Option.some.inj heq)
    data := fun p d heq => hdata p d (Option.some.inj heq) } ?_ rfl
  -- nothing was being accepted, so what was taken is with a listener
  rintro d (hmem | ⟨connId, hacc⟩)
  · exact .inl hmem
  · rw [Node.accepting, hidle] at hacc
    cases hacc

theorem Inv.deliver (hi : w.Inv) (k : Nat) : (w.deliver k).Inv := by
  unfold Pair.deliver
  cases hget : w.air[k]? with
  | none => exact hi
  | some m =>
    obtain ⟨p, dl, hm⟩ := hi.air m (List.mem_of_getElem? hget)
    dsimp only
    split
    · exact hi
    · next hready =>
      obtain ⟨-, hidle⟩ := not_or.mp hready
      rw [Option.not_isSome_iff_eq_none] at hidle
      have hspec := route_spec (fun id => ((w.node m.sender.other).conns.lookup id).isSome) m.bytes
      rw [hm.parse] at hspec
      cases hroute : route (fun id => ((w.node m.sender.other).conns.lookup id).isSome) m.bytes with
      | ignore => exact hi
      | syn p' =>
        rw [hroute] at hspec
        obtain ⟨rfl, htyp⟩ : p = p' ∧ p'.typ = T_SYN := ⟨Option.some.inj hspec.1, hspec.2⟩
        dsimp only
        split
        · exact hi
        · split
          · exact hi
          · have hset := hi.handle (.syn p.connId m.dial) hidle
              (by
                rintro connId d ⟨⟩
                exact ⟨dl, hm.dial, hm.connId.symm, by rw [Side.other_other, hm.syn htyp]⟩)
              nofun
            refine hset.send ⟨parsePacket_encodeCtrl _ _ _ _, hm.dial, hm.connId, ?_, fun _ => ⟨dl, hm.dial, ?_⟩⟩
            · intro hack
              exact absurd (show T_SYN_ACK = T_SYN from hack) (by decide)
            · rw [← hm.syn htyp, node_setNode, if_pos rfl]
              exact .inr ⟨p.connId, rfl⟩
      | data reply p' =>
        rw [hroute] at hspec
        obtain ⟨hp, htyp, rfl⟩ := hspec
        obtain rfl := Option.some.inj hp
        have hset := hi.handle (.data p m.dial) hidle nofun
          (by
            rintro p' d ⟨⟩
            exact ⟨dl, hm.dial, hm.connId.symm⟩)
        refine hset.send ⟨parsePacket_encodeCtrl _ _ _ _, hm.dial, hm.connId, ?_, ?_⟩
        · intro hack
          exact absurd (show T_DATA_ACK = T_SYN from hack) (by decide)
        · intro hack
          exact absurd (show T_DATA_ACK = T_SYN_ACK from hack) (by decide)
      | ack p' =>
        rw [hroute] at hspec
        obtain rfl := Option.some.inj hspec
        exact hi.queueAck hm.dial hm.connId hm.synAck

theorem Inv.idle (hi : w.Inv) (htaken : ∀ connId d, (w.node x).accepting = some (connId, d) →
    d ∈ (w.node x).handed.map Handed.dial) : (w.setNode x { w.node x with handling := none }).Inv := by
  refine hi.touch { hi.node x with syn := nofun, data := nofun } ?_ rfl
  rintro d (hmem | ⟨connId, hacc⟩)
  · exact .inl hmem
  · exact .inl (htaken connId d hacc)

theorem Inv.acceptSyn (hi : w.Inv) {connId : UInt64} (hsyn : (w.node x).handling = some (.syn connId d))
    (hok : (w.node x).conns.lookup connId = none →
      (w.node x).listening = true ∧ d ∉ (w.node x).handed.map Handed.dial) :
    (w.setNode x (Node.acceptSyn { w.node x with handling := none } connId d)).Inv := by
  have h := hi.node x
  obtain ⟨dl, hdl, hid, hside⟩ := h.syn connId d hsyn
  have haccepting : (w.node x).accepting = some (connId, d) := by rw [Node.accepting, hsyn]
  unfold Node.acceptSyn
  dsimp only
  cases hlookup : (w.node x).conns.lookup connId with
  | some i =>
    -- the connection was made by this dial's first `SYN`
    rw [Option.isSome_some, if_pos rfl]
    apply hi.idle
    intro connId' d' heq
    obtain ⟨rfl, rfl⟩ : connId = connId' ∧ d = d' := by simpa [haccepting] using heq
    obtain ⟨st, hst, hconn⟩ := h.conns connId i hlookup
    have hown := hi.dial_eq hst hdl (hconn.trans hid.symm)
    obtain ⟨dl', hvalid⟩ := h.streams i st hst
    have hside' := hvalid.side
    obtain rfl : dl = dl' := Option.some.inj (hdl.symm.trans (hown ▸ hvalid.dial))
    rw [hside, hown] at hside'
    exact hside'.resolve_left (Side.other_ne x)
  | none =>
    obtain ⟨hlisten, hnew⟩ := hok hlookup
    rw [Option.isSome_none, if_neg Bool.false_ne_true, if_pos hlisten]
    have hreg := h.register [⟨d, (w.node x).streams.length, .new⟩] hdl hid (.inr (by simp))
      (by simp) (by simpa [List.nodup_append] using ⟨h.once, by simpa using hnew⟩)
    refine hi.setNode { hreg with syn := nofun, data := nofun } ?_ ?_
    · rintro d' (hmem | ⟨connId', hacc⟩)
      · left
        rw [List.map_append]
        exact List.mem_append_left _ hmem
      · rw [haccepting] at hacc
        cases hacc
        left
        simp
    · intro i st hst
      exact ⟨st, getElem?_append_of_some _ hst, rfl⟩

theorem setNode_setNode (w : Pair) (x : Side) (n n' : Node) : (w.setNode x n).setNode x n' = w.setNode x n' := by
  simp only [setNode, Function.update_idem]

theorem Inv.queueData (hi : w.Inv) (hdl : w.dials[d]? = some dl) (hid : dl.connId = p.connId) :
    (w.setNode x ((w.node x).queueData p d)).Inv := by
  unfold Node.queueData
  split
  · exact hi.touch (hi.node x) (fun _ h => h) rfl
  · next i hlookup =>
    have hdial : ∀ st : MeshStream, (if st.dropped then st else { st with
        dataRx := st.dataRx ++ [p.toInPkt], carried := st.carried ++ [(d, p.toInPkt)] }).dial = st.dial := by
      intro st
      split <;> rfl
    refine hi.setNode (hi.queue hlookup hdl hid hdial ?_ ?_ ?_) (fun _ h => h) (streams_modify hdial)
    · intro st
      split <;> rfl
    · intro st e he _
      left
      split at he <;> exact he
    · intro st e he
      split at he
      · exact .inl he
      · rcases List.mem_append.mp he with hold | hnew
        · exact .inl hold
        · rw [List.mem_singleton.mp hnew]
          exact .inr rfl

theorem Inv.finish (hi : w.Inv) (hok : w.Orderly (.finish x)) : (w.setNode x (w.node x).finish).Inv := by
  unfold Node.finish
  split
  · exact hi.touch (hi.node x) (fun _ h => h) rfl
  · next connId d hsyn =>
    exact hi.acceptSyn hsyn (hok (connId, d) (by rw [Node.accepting, hsyn]; rfl))
  · next p d hdata =>
    have hset : (w.setNode x { w.node x with handling := none }).Inv := by
      apply hi.idle
      intro connId d' hacc
      rw [Node.accepting, hdata] at hacc
      cases hacc
    obtain ⟨dl, hdl, hid⟩ := (hi.node x).data p d hdata
    have := hset.queueData (x := x) hdl hid
    rwa [setNode_setNode, node_setNode, if_pos rfl] at this

theorem Inv.modify (hi : w.Inv) {f : MeshStream → MeshStream} (hdial : ∀ st, (f st).dial = st.dial)
    (hconn : ∀ st, (f st).connId = st.connId) (hacks : ∀ st, (f st).ackRx = st.ackRx)
    (hcarried : ∀ st, (f st).carried = st.carried) :
    (w.setNode x { w.node x with streams := (w.node x).streams.modify i f }).Inv :=
  hi.setNode ((hi.node x).modify hdial hconn (fun st _ _ he _ => .inl (hacks st ▸ he))
    fun st _ _ he => .inl (hcarried st ▸ he)) (fun _ h => h) (streams_modify hdial)

theorem Inv.step (hi : w.Inv) {e : Event} (hok : w.Orderly e) : (w.step e).Inv := by
  cases e with
  | listen x => exact hi.touch { hi.node x with } (fun _ h => h) rfl
  | dropListener x => exact hi.touch { hi.node x with } (fun _ h => h) rfl
  | restart x => exact hi.restart hok
  | dial x endpoint => exact hi.dial hok
  | sendSyn d => exact hi.sendSyn
  | synTimeout d => exact hi.synTimeout
  | readSynAck d => exact hi.readSynAck
  | closed d => exact hi.closed
  | dropStream x i => exact hi.modify (fun _ => rfl) (fun _ => rfl) (fun _ => rfl) fun _ => rfl
  | sendData x i msgSeq fragIdx fragCnt seg => exact hi.sendData
  | deliver k => exact hi.deliver k
  | finish x => exact hi.finish hok
  | recv x i =>
    refine hi.modify ?_ ?_ ?_ ?_
    all_goals
      intro st
      cases st.dataRx <;> rfl

theorem Inv.new (retries : Nat) (lossy : Bytes → Bytes) (epA epB : Bytes) :
    (new retries lossy epA epB).Inv where
  fresh := List.nodup_nil
  air := by simp [Pair.new]
  node
    | .a => .new epA
    | .b => .new epB
  own := by simp [Pair.new]
  ok := by simp [Pair.new]

/-! ### Fresh connections -/

/-- In every orderly run, each dial that returned `Ok` has exactly one stream that was given to a listener
of the other node, with an empty reader, and all that was ever queued for it was sent on this dial's
connection. The stream may still be about to be given. -/
theorem fresh_of_orderly {retries : Nat} {lossy : Bytes → Bytes} {epA epB : Bytes} {evs : List Event}
    (h : Run.Along step Orderly (new retries lossy epA epB) evs) :
    let w := (new retries lossy epA epB).run evs
    ∀ (d : Nat) (dl : Dial), w.dials[d]? = some dl → w.status[d]? = some .ok →
      (w.node dl.node.other).accepting.map Prod.snd ≠ some d →
      ∃ g st, (w.node dl.node.other).handed.filter (·.dial = d) = [g] ∧ g.reader = .new ∧
        (w.node dl.node.other).streams[g.stream]? = some st ∧ st.connId = dl.connId ∧
        ∀ e ∈ st.carried, e.1 = d := by
  intro w d dl hdl hok hidle
  have hi : w.Inv := h.invariant (fun _ _ hi hok => hi.step hok) (Inv.new retries lossy epA epB)
  obtain ⟨dl', hdl', htakes⟩ := hi.ok d hok
  obtain rfl : dl = dl' := Option.some.inj (hdl.symm.trans hdl')
  have hmem := htakes.resolve_right fun ⟨connId, hacc⟩ => hidle (by rw [hacc]; rfl)
  obtain ⟨g, hg, rfl⟩ := List.mem_map.mp hmem
  have hnode := hi.node dl.node.other
  obtain ⟨hreader, st, hst, hown⟩ := hnode.handed g hg
  obtain ⟨dl', hvalid⟩ := hnode.streams _ _ hst
  obtain rfl : dl = dl' := Option.some.inj (hdl.symm.trans (hown ▸ hvalid.dial))
  exact ⟨g, st, filter_dial_eq hnode.once hg, hreader, hst, hvalid.connId, hown ▸ hvalid.carried⟩

namespace Sample

/-- Node `a` dials node `b`, which listens, and gets its answer. -/
def dialed (d k : Nat) : List Event :=
  [.dial .a [98], .sendSyn d, .deliver k, .finish .b, .deliver (k + 1), .readSynAck d]

theorem fresh_dialed :
    let w := (new 8 id [97] [98]).run
      (.listen .b :: dialed 0 0 ++ [.sendData .a 0 0 0 1 [7], .deliver 2, .finish .b])
    ∃ g st, (w.node .b).handed.filter (·.dial = 0) = [g] ∧ g.reader = .new ∧
        (w.node .b).streams[g.stream]? = some st ∧ st.connId = dialConnId [97] 0 ∧ ∀ e ∈ st.carried, e.1 = 0 :=
  fresh_of_orderly (by decide +kernel) 0 ⟨.a, dialConnId [97] 0, 0, [98]⟩ (by decide +kernel) (by decide +kernel)
    (by decide +kernel)

/-- Node `a` is restarted and dials again: its counter begins anew, `b` knows the connection id and only
answers. Both dials return `Ok`, and one stream was given to the listener. -/
theorem redial_after_restart :
    let w := (new 8 id [97] [98]).run (.listen .b :: dialed 0 0 ++ .restart .a :: dialed 1 2)
    w.status = [.ok, .ok] ∧ (w.node .b).accepting = none ∧ (w.node .b).handed.map Handed.dial = [0] := by
  decide +kernel

end Sample

end Pair

end MeshTransport
end Talkrypt
