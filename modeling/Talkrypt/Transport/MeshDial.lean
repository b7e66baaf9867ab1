import Talkrypt.Lib.Run
import Talkrypt.Transport.MeshStream

/-! Dials between two mesh nodes, over their whole history. Each node may listen, dial, drop streams and
listeners and be restarted; the network loses, repeats, delays and reorders packets. A dial's connection id
is computed from the node's label and a counter that a restart sets back, while the peer keeps the
connections it has.

Every packet carries, beside its bytes, the dial whose connection it was sent on, and so does every stream;
the code sees connection ids only. -/

namespace Talkrypt
namespace MeshTransport

def fnv1a (s : Bytes) : UInt64 :=
  s.foldl (fun h b => (h ^^^ UInt64.ofNat b.toNat) * 0x00000100000001b3) 0xcbf29ce484222325

def dialConnId (localEp : Bytes) (ctr : UInt64) : UInt64 :=
  fnv1a localEp ^^^ (ctr * 0x9E3779B97F4A7C15 + 1)

inductive Side
  | a
  | b
deriving DecidableEq, Repr

def Side.other : Side → Side
  | .a => .b
  | .b => .a

@[simp] theorem Side.other_other (x : Side) : x.other.other = x := by cases x <;> rfl

@[simp] theorem Side.other_ne (x : Side) : x.other ≠ x := by cases x <;> decide

/-- A `MeshStream` with the dial its connection belongs to and all the packets that were queued for it. -/
structure MeshStream where
  connId : UInt64
  dial : Nat
  ackRx : List (Nat × InPkt)
  dataRx : List InPkt
  reader : MeshReader
  carried : List (Nat × InPkt)
  dropped : Bool

def MeshStream.new (connId : UInt64) (dial : Nat) : MeshStream where
  connId
  dial
  ackRx := []
  dataRx := []
  reader := .new
  carried := []
  dropped := false

/-- A stream given to a listener, with its reader at that time. -/
structure Handed where
  dial : Nat
  stream : Nat
  reader : MeshReader

/-- What the demultiplexer does after the answer it is sending. -/
inductive Handling
  | syn (connId : UInt64) (dial : Nat)
  | data (p : Packet) (dial : Nat)

structure Node where
  localEp : Bytes
  started : Bool
  listening : Bool
  connCtr : UInt64
  /-- The stream whose channels a connection id leads to. -/
  conns : Table UInt64 Nat
  handling : Option Handling
  /-- All streams the node ever made, and those its listeners were given. -/
  streams : List MeshStream
  handed : List Handed

def Node.new (localEp : Bytes) : Node where
  localEp
  started := false
  listening := false
  connCtr := 0
  conns := ∅
  handling := none
  streams := []
  handed := []

structure Dial where
  node : Side
  connId : UInt64
  stream : Nat
  endpoint : Bytes
deriving DecidableEq

inductive Status
  /-- The call is about to send its `SYN`, or waits for the answer, after so many transmissions. -/
  | calling (tries : Nat)
  | waiting (tries : Nat)
  | ok
  | failed
deriving DecidableEq

structure Packaged where
  sender : Side
  dial : Nat
  bytes : Bytes

/-- The two nodes, the dials made so far and all the packets sent so far. Labels are the bytes of their
text. -/
structure Pair where
  retries : Nat
  lossy : Bytes → Bytes
  node : Side → Node
  dials : List Dial
  status : List Status
  air : List Packaged

namespace Node

def registerConn (n : Node) (connId : UInt64) (dial : Nat) : Node :=
  { n with
    conns := n.conns.insert connId n.streams.length
    streams := n.streams ++ [.new connId dial] }

def restart (n : Node) : Node :=
  { n with
    started := false
    listening := false
    connCtr := 0
    conns := ∅
    handling := none
    streams := n.streams.map fun st => { st with dropped := true } }

/-- A packet goes to the channel its connection id leads to, if its receiver is still there. -/
def queueAck (n : Node) (p : Packet) (dial : Nat) : Node :=
  match n.conns.lookup p.connId with
  | none => n
  | some i =>
    { n with streams := n.streams.modify i fun st =>
        if st.dropped then st else { st with ackRx := st.ackRx ++ [(dial, p.toInPkt)] } }

def queueData (n : Node) (p : Packet) (dial : Nat) : Node :=
  match n.conns.lookup p.connId with
  | none => n
  | some i =>
    { n with streams := n.streams.modify i fun st =>
        if st.dropped then st
        else { st with dataRx := st.dataRx ++ [p.toInPkt], carried := st.carried ++ [(dial, p.toInPkt)] } }

def acceptSyn (n : Node) (connId : UInt64) (dial : Nat) : Node :=
  -- already established: the answer suffices
  if (n.conns.lookup connId).isSome then n
  else if n.listening then
    { n.registerConn connId dial with handed := n.handed ++ [⟨dial, n.streams.length, .new⟩] }
  -- without a listener the stream is dropped, and the connection stays
  else
    { n.registerConn connId dial with
      streams := n.streams ++ [{ MeshStream.new connId dial with dropped := true }] }

def finish (n : Node) : Node :=
  match n.handling with
  | none => n
  | some (.syn connId dial) => acceptSyn { n with handling := none } connId dial
  | some (.data p dial) => queueData { n with handling := none } p dial

/-- The connection id and the dial of the `SYN` the node has answered and is about to accept. -/
def accepting (n : Node) : Option (UInt64 × Nat) :=
  match n.handling with
  | some (.syn connId dial) => some (connId, dial)
  | _ => none

/-- One turn of the loop of `recv_one` on stream `i`. -/
def recv (n : Node) (i : Nat) : Node :=
  { n with streams := n.streams.modify i fun st =>
      match st.dataRx with
      | [] => st
      | p :: rest => { st with dataRx := rest, reader := (st.reader.push p).1 } }

end Node

namespace Pair

def new (retries : Nat) (lossy : Bytes → Bytes) (epA epB : Bytes) : Pair where
  retries
  lossy
  node
    | .a => .new epA
    | .b => .new epB
  dials := []
  status := []
  air := []

inductive Event
  | listen (x : Side)
  | dropListener (x : Side)
  | restart (x : Side)
  | dial (x : Side) (endpoint : Bytes)
  | sendSyn (d : Nat)
  | synTimeout (d : Nat)
  | readSynAck (d : Nat)
  | closed (d : Nat)
  | dropStream (x : Side) (i : Nat)
  | sendData (x : Side) (i : Nat) (msgSeq fragIdx fragCnt : UInt16) (seg : Bytes)
  | deliver (n : Nat)
  | finish (x : Side)
  | recv (x : Side) (i : Nat)

def setNode (w : Pair) (x : Side) (n : Node) : Pair := { w with node := Function.update w.node x n }

def send (w : Pair) (x : Side) (dial : Nat) (bytes : Bytes) : Pair :=
  { w with air := w.air ++ [⟨x, dial, bytes⟩] }

def setStatus (w : Pair) (d : Nat) (st : Status) : Pair := { w with status := w.status.set d st }

/-- The process of `x` ends, and with it its calls in progress. -/
def restart (w : Pair) (x : Side) : Pair :=
  { w.setNode x (w.node x).restart with
    status := w.status.zipIdx.map fun (st, d) =>
      if (w.dials[d]?.map (·.node)) = some x ∧ st ≠ .ok then .failed else st }

def dial (w : Pair) (x : Side) (endpoint : Bytes) : Pair :=
  let n := w.node x
  let connId := dialConnId n.localEp n.connCtr
  { w.setNode x { n.registerConn connId w.dials.length with started := true, connCtr := n.connCtr + 1 } with
    dials := w.dials ++ [⟨x, connId, n.streams.length, endpoint⟩]
    status := w.status ++ [.calling 0] }

/-- No `SYN_ACK`: the connection is forgotten and the call fails. -/
def fail (w : Pair) (d : Nat) (dl : Dial) : Pair :=
  let n := w.node dl.node
  (w.setNode dl.node { n with conns := n.conns.erase dl.connId }).setStatus d .failed

def again (w : Pair) (d : Nat) (dl : Dial) (tries : Nat) : Pair :=
  if tries < max w.retries 1 then w.setStatus d (.calling tries) else w.fail d dl

def sendSyn (w : Pair) (d : Nat) : Pair :=
  match w.dials[d]?, w.status[d]? with
  | some dl, some (.calling tries) =>
    let syn := encodeSyn dl.connId (w.node dl.node).localEp dl.endpoint
    (w.send dl.node d syn).setStatus d (.waiting (tries + 1))
  | _, _ => w

def synTimeout (w : Pair) (d : Nat) : Pair :=
  match w.dials[d]?, w.status[d]? with
  | some dl, some (.waiting tries) => w.again d dl tries
  | _, _ => w

/-- The waiting dial takes a packet from its stream's channel. -/
def readSynAck (w : Pair) (d : Nat) : Pair :=
  match w.dials[d]?, w.status[d]? with
  | some dl, some (.waiting tries) =>
    let n := w.node dl.node
    match (n.streams[dl.stream]?).map MeshStream.ackRx with
    | some ((_, p) :: rest) =>
      let w' := w.setNode dl.node
        { n with streams := n.streams.modify dl.stream fun st => { st with ackRx := rest } }
      if p.typ = T_SYN_ACK then w'.setStatus d .ok else w'.again d dl tries
    | _ => w
  | _, _ => w

/-- The waiting dial finds its channel closed: another connection took its id. -/
def closed (w : Pair) (d : Nat) : Pair :=
  match w.dials[d]?, w.status[d]? with
  | some dl, some (.waiting _) =>
    let n := w.node dl.node
    if (n.streams[dl.stream]?).map MeshStream.ackRx = some [] ∧ n.conns.lookup dl.connId ≠ some dl.stream then
      w.fail d dl
    else w
  | _, _ => w

def sendData (w : Pair) (x : Side) (i : Nat) (msgSeq fragIdx fragCnt : UInt16) (seg : Bytes) : Pair :=
  match (w.node x).streams[i]? with
  | none => w
  | some st => if st.dropped then w else w.send x st.dial (encodeData st.connId msgSeq fragIdx fragCnt seg)

/-- The demultiplexer of the other node reads a packet. -/
def deliver (w : Pair) (k : Nat) : Pair :=
  match w.air[k]? with
  | none => w
  | some m =>
    let y := m.sender.other
    let n := w.node y
    if ¬ n.started ∨ n.handling.isSome then w
    else match route (fun id => (n.conns.lookup id).isSome) m.bytes with
      | .ignore => w
      | .syn p =>
        match parseSynEps p.payload with
        | none => w
        | some (_, dst) =>
          if w.lossy dst ≠ n.localEp then w
          else (w.setNode y { n with handling := some (.syn p.connId m.dial) }).send y m.dial
            (encodeCtrl T_SYN_ACK p.connId 0 0)
      | .data reply p =>
        (w.setNode y { n with handling := some (.data p m.dial) }).send y m.dial reply
      | .ack p => w.setNode y (n.queueAck p m.dial)

def step (w : Pair) : Event → Pair
  | .listen x => w.setNode x { w.node x with started := true, listening := true }
  | .dropListener x => w.setNode x { w.node x with listening := false }
  | .restart x => w.restart x
  | .dial x endpoint => w.dial x endpoint
  | .sendSyn d => w.sendSyn d
  | .synTimeout d => w.synTimeout d
  | .readSynAck d => w.readSynAck d
  | .closed d => w.closed d
  | .dropStream x i =>
    w.setNode x { w.node x with
      streams := (w.node x).streams.modify i fun st => { st with dropped := true } }
  | .sendData x i msgSeq fragIdx fragCnt seg => w.sendData x i msgSeq fragIdx fragCnt seg
  | .deliver k => w.deliver k
  | .finish x => w.setNode x (w.node x).finish
  | .recv x i => w.setNode x ((w.node x).recv i)

def run (w : Pair) (evs : List Event) : Pair := evs.foldl step w

/-- A dial's connection id is that of no earlier dial of either node; when a `SYN` is accepted for a
connection its node does not have, a listener is there and was not given a stream for that dial before;
and no process ends between its answer to a `SYN` and the stream. -/
def Orderly (w : Pair) : Event → Prop
  | .dial x _ => dialConnId (w.node x).localEp (w.node x).connCtr ∉ w.dials.map Dial.connId
  | .finish x => ∀ c ∈ (w.node x).accepting, (w.node x).conns.lookup c.1 = none →
    (w.node x).listening = true ∧ c.2 ∉ (w.node x).handed.map Handed.dial
  | .restart x => (w.node x).accepting = none
  | _ => True

instance (w : Pair) : (e : Event) → Decidable (w.Orderly e)
  | .dial x _ =>
    inferInstanceAs (Decidable (dialConnId (w.node x).localEp (w.node x).connCtr ∉ w.dials.map Dial.connId))
  | .finish x => inferInstanceAs (Decidable (∀ c ∈ (w.node x).accepting, (w.node x).conns.lookup c.1 = none →
      (w.node x).listening = true ∧ c.2 ∉ (w.node x).handed.map Handed.dial))
  | .restart x => inferInstanceAs (Decidable ((w.node x).accepting = none))
  | .listen _ | .dropListener _ | .sendSyn _ | .synTimeout _ | .readSynAck _ | .closed _ | .dropStream _ _
  | .sendData .. | .deliver _ | .recv _ _ => inferInstanceAs (Decidable True)

end Pair

end MeshTransport
end Talkrypt
