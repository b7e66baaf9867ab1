import Talkrypt.Lib.Run
import Talkrypt.Lib.Shelf
import Talkrypt.Core.Frames
import Talkrypt.Core.Node

/-!
# Keeper queues and their reconciliation (`crates/core/src/keeper.rs`)

A keeper buffers frames for members that are away. Two keepers that meet send each other a digest of what they
hold, and each pushes what the other lacks as a `MailboxPut`. The engine files a group message under the hash of
its ciphertext, but a `MailboxPut` under the hash of the frame, so a pushed copy of a group message does not count
as the entry that was missing: the digests never agree, and an acknowledgement, which names the ciphertext, leaves
the pushed copies behind (`copies_never_agree`). Entries that are filed under the hash of what they hold do
converge, under any order of deliveries, and go when that hash is acknowledged (`converges_and_clears`).

A digest of more than `MAX_SYNC` entries does not survive the wire (`digest_lost_on_wire`).

The store of a queue is keyed by the hexadecimal fingerprint of the recipient; here, by the fingerprint.
-/

namespace Talkrypt.Core
open TreeKem

def KEEPER_CAP : Nat := 4096

structure KeeperQueue where
  shelves : Table Fingerprint (Shelf Gid Bytes)

namespace KeeperQueue

def new : KeeperQueue := ⟨∅⟩

def shelf (q : KeeperQueue) (recipient : Fingerprint) : Shelf Gid Bytes := (q.shelves.lookup recipient).getD .new

def buffer (q : KeeperQueue) (recipient : Fingerprint) (gid : Gid) (frame : Bytes) (now : Nat) : KeeperQueue :=
  ⟨q.shelves.insert recipient ((q.shelf recipient).put KEEPER_CAP gid frame now).1⟩

def drain (q : KeeperQueue) (recipient : Fingerprint) : List (Gid × Bytes) := (q.shelf recipient).store.toList

/-- All that is held, for reconciliation with another keeper. -/
def digest (q : KeeperQueue) : List (Gid × Fingerprint) :=
  q.shelves.toList.flatMap fun e => e.2.index.map fun g => (g.1, e.1)

def frameFor (q : KeeperQueue) (recipient : Fingerprint) (gid : Gid) : Option Bytes :=
  (q.shelf recipient).store.lookup gid

def pushes (q : KeeperQueue) (held : List (Gid × Fingerprint)) : List WireFrame :=
  q.digest.filterMap fun e => if e ∈ held then none else (q.frameFor e.2 e.1).map (.mailboxPut e.2)

def ack (q : KeeperQueue) (recipient : Fingerprint) (gid : Gid) : KeeperQueue :=
  match q.shelves.lookup recipient with
  | none => q
  | some s => ⟨q.shelves.insert recipient (s.ack gid)⟩

variable {q : KeeperQueue} {r r' : Fingerprint} {gid : Gid} {frame : Bytes} {now : Nat}

theorem shelf_buffer : (q.buffer r gid frame now).shelf r' =
    if r' = r then ((q.shelf r).put KEEPER_CAP gid frame now).1 else q.shelf r' := by
  rw [shelf, buffer, Table.lookup_insert_eq]
  split
  · rfl
  · rfl

theorem shelf_ack : (q.ack r gid).shelf r' = if r' = r then (q.shelf r).ack gid else q.shelf r' := by
  cases hr : q.shelves.lookup r with
  | none =>
    rw [ack, hr]
    by_cases heq : r' = r
    · rw [if_pos heq, heq, shelf, hr]
      rfl
    · rw [if_neg heq]
  | some s =>
    rw [ack, hr]
    dsimp only
    rw [shelf, Table.lookup_insert_eq]
    by_cases heq : r' = r
    · rw [if_pos heq, if_pos heq, shelf, hr]
      rfl
    · rw [if_neg heq, if_neg heq, shelf]

variable {e : Gid × Fingerprint} {held : List (Gid × Fingerprint)}

theorem mem_digest : e ∈ q.digest ↔ e.1 ∈ (q.shelf e.2).index.map (·.1) := by
  simp only [digest, List.mem_flatMap, List.mem_map]
  constructor
  · rintro ⟨p, hp, g, hg, rfl⟩
    rw [shelf, Table.mem_toList.mp hp]
    exact ⟨g, hg, rfl⟩
  · rintro ⟨g, hg, hge⟩
    cases hr : q.shelves.lookup e.2 with
    | none =>
      rw [shelf, hr] at hg
      cases hg
    | some s =>
      rw [shelf, hr] at hg
      exact ⟨(e.2, s), Table.mem_toList.mpr hr, g, hg, Prod.ext hge rfl⟩

/-! ## What a queue holds -/

/-- Index and store agree, and every frame that is held meets `P`. -/
structure Holds (P : Fingerprint → Gid → Bytes → Prop) (q : KeeperQueue) : Prop where
  agrees : ∀ r, (q.shelf r).Agrees
  all : ∀ {r gid frame}, (q.shelf r).store.lookup gid = some frame → P r gid frame

/-- Every frame is filed under its hash and fits a field. -/
abbrev Hashed (gossipId : Bytes → Gid) (q : KeeperQueue) : Prop :=
  q.Holds fun _ gid frame => gossipId frame = gid ∧ frame.length ≤ MAX_FRAME

variable {gossipId : Bytes → Gid} {P : Fingerprint → Gid → Bytes → Prop}

theorem Holds.new : new.Holds P := ⟨fun _ => .new, fun h => by cases h⟩

theorem Holds.buffer (h : q.Holds P) (hP : P r gid frame) : (q.buffer r gid frame now).Holds P := by
  refine ⟨fun r' => ?_, fun {r' gid' frame'} hl => ?_⟩
  · rw [shelf_buffer]
    split
    · exact (h.agrees r).put
    · exact h.agrees r'
  · rw [shelf_buffer] at hl
    split at hl
    · next hr =>
      rw [Shelf.lookup_put] at hl
      split at hl
      · cases hl
      · split at hl
        · next hgid =>
          cases hl
          rw [hr, hgid]
          exact hP
        · exact h.all (hr ▸ hl)
    · exact h.all hl

theorem Hashed.cleared (h : q.Hashed gossipId) (r : Fingerprint) (frame : Bytes) (gid : Gid) :
    (q.ack r (gossipId frame)).frameFor r gid ≠ some frame := by
  intro hl
  rw [frameFor, shelf_ack, if_pos rfl, Shelf.lookup_ack] at hl
  split at hl
  · cases hl
  · next hne => exact hne (h.all hl).1.symm

theorem Holds.frameFor (h : q.Holds P) (he : e ∈ q.digest) :
    ∃ frame, q.frameFor e.2 e.1 = some frame ∧ P e.2 e.1 frame := by
  obtain ⟨frame, hframe⟩ := Option.ne_none_iff_exists'.mp (((h.agrees e.2).mem_iff e.1).mp (mem_digest.mp he))
  exact ⟨frame, hframe, h.all hframe⟩

theorem mem_digest_buffer (hroom : (q.shelf r).index.length < KEEPER_CAP) :
    e ∈ (q.buffer r gid frame now).digest ↔ e ∈ q.digest ∨ e = (gid, r) := by
  have hle : (Shelf.note (q.shelf r).index gid now).length ≤ KEEPER_CAP := (Shelf.length_note_le _).trans hroom
  rw [mem_digest, mem_digest, shelf_buffer]
  split
  · next heq =>
    rw [Shelf.index_put_of_le hle, Shelf.mem_note, heq]
    simp [Prod.ext_iff, heq]
  · next hne => simp [Prod.ext_iff, hne]

theorem Holds.nodup_digest (h : q.Holds P) : q.digest.Nodup := by
  have hshelf : ∀ e ∈ q.shelves.toList, q.shelf e.1 = e.2 := fun e he => by
    rw [shelf, Table.mem_toList.mp he]
    rfl
  refine List.nodup_flatMap.mpr ⟨fun e he => ?_, ?_⟩
  · have hnodup := (h.agrees e.1).nodup
    rw [hshelf e he] at hnodup
    have hmap : (e.2.index.map fun g => (g.1, e.1)) = (e.2.index.map (·.1)).map (·, e.1) := by
      rw [List.map_map]
      rfl
    rw [hmap]
    exact hnodup.map fun _ _ heq => (Prod.ext_iff.mp heq).1
  · have hkeys : q.shelves.toList.Pairwise fun a b => a.1 ≠ b.1 :=
      List.pairwise_map.mp (Table.nodup_toList q.shelves)
    refine hkeys.imp fun {a b} hne => ?_
    intro x hx hx'
    obtain ⟨_, _, rfl⟩ := List.mem_map.mp hx
    obtain ⟨_, _, heq⟩ := List.mem_map.mp hx'
    exact hne (Prod.ext_iff.mp heq).2.symm

theorem Holds.mem_pushes (h : q.Holds P) {f : WireFrame} (hf : f ∈ q.pushes held) :
    ∃ e ∈ q.digest, ∃ frame, f = .mailboxPut e.2 frame ∧ P e.2 e.1 frame := by
  obtain ⟨e, he, hpush⟩ := List.mem_filterMap.mp hf
  split at hpush
  · cases hpush
  · obtain ⟨frame, hframe, rfl⟩ := Option.map_eq_some_iff.mp hpush
    exact ⟨e, he, frame, rfl, h.all hframe⟩

theorem Holds.exists_push (h : q.Holds P) (he : e ∈ q.digest) (hnot : e ∉ held) :
    ∃ frame, .mailboxPut e.2 frame ∈ q.pushes held ∧ P e.2 e.1 frame := by
  obtain ⟨frame, hframe, hP⟩ := h.frameFor he
  refine ⟨frame, List.mem_filterMap.mpr ⟨e, he, ?_⟩, hP⟩
  rw [if_neg hnot, hframe]
  rfl

theorem pushes_eq_nil (h : ∀ e ∈ q.digest, e ∈ held) : q.pushes held = [] :=
  List.filterMap_eq_nil_iff.mpr fun e he => if_pos (h e he)

inductive Fill where
  | mailboxPut (recipient : Fingerprint) (frame : Bytes) (now : Nat)
  /-- A group message goes through the node, which buffers it for the members that are away. -/
  | groupMsg (gct : Bytes) (offline : List Fingerprint) (now : Nat)

def fill (gossipId : Bytes → Gid) (q : KeeperQueue) : Fill → KeeperQueue
  | .mailboxPut recipient frame now => q.buffer recipient (gossipId frame) frame now
  | .groupMsg gct offline now =>
    offline.foldl (fun q fp => q.buffer fp (gossipId gct) (WireFrame.groupMsg gct).encode now) q

/-- The frame is filed under its hash and fits a field. For a group message that means that the ciphertext and
its frame have one hash, unless nobody is away. -/
def Filed (gossipId : Bytes → Gid) (_ : KeeperQueue) : Fill → Prop
  | .mailboxPut _ frame _ => frame.length ≤ MAX_FRAME
  | .groupMsg gct offline _ => offline = [] ∨
    gossipId (WireFrame.groupMsg gct).encode = gossipId gct ∧ (WireFrame.groupMsg gct).encode.length ≤ MAX_FRAME

theorem Hashed.fill (h : q.Hashed gossipId) {a : Fill} (ha : Filed gossipId q a) :
    (q.fill gossipId a).Hashed gossipId := by
  cases a with
  | mailboxPut recipient frame now => exact h.buffer ⟨rfl, ha⟩
  | groupMsg gct offline now =>
    obtain rfl | hfiled := ha
    · exact h
    · exact List.foldlRecOn offline _ h fun q hq fp _ => hq.buffer hfiled

theorem fill_keepForOffline {S : Scheme} (i : Inner S) (now : UInt64) (peer : Fingerprint) (gct : Bytes)
    (q : KeeperQueue) : ∃ offline, (i.keepForOffline gossipId now peer gct).kept =
        i.kept ++ offline.map (fun fp => (fp, gossipId gct, gct, now)) ∧
      q.fill gossipId (.groupMsg gct offline now.toNat) =
        (offline.map fun fp => (fp, gossipId gct, gct, now)).foldl (fun q k =>
          q.buffer k.1 k.2.1 (WireFrame.groupMsg k.2.2.1).encode k.2.2.2.toNat) q := by
  unfold Inner.keepForOffline
  split
  · exact ⟨_, rfl, by rw [List.foldl_map]; rfl⟩
  · exact ⟨[], by simp, rfl⟩

end KeeperQueue

/-! ## Two keepers that meet -/

/-- The state of an engine that the reconciliation touches. -/
structure Keeper where
  me : Fingerprint
  queue : KeeperQueue
  /-- The peers that were sent our digest in answer to theirs. -/
  qsSent : List Fingerprint

namespace Keeper

/-- The arms of `reader_loop` for a keeper, with the frames that go back to the peer. -/
def receive (gossipId : Bytes → Gid) (k : Keeper) (peer : Fingerprint) (now : Nat) (bytes : Bytes) :
    Keeper × List WireFrame :=
  match WireFrame.decode bytes with
  | some (.deliveryAck ids) => ({ k with queue := ids.foldl (fun q id => q.ack peer id) k.queue }, [])
  | some (.mailboxPut recipient frame) =>
    ({ k with queue := k.queue.buffer recipient (gossipId frame) frame now }, [])
  | some (.queueSync held) =>
    if peer ∈ k.qsSent then (k, k.queue.pushes held)
    else ({ k with qsSent := peer :: k.qsSent }, k.queue.pushes held ++ [.queueSync k.queue.digest])
  | _ => (k, [])

/-- What `register` queues for a peer that connects: the frames kept for it, then our digest. -/
def onRegister (k : Keeper) (peer : Fingerprint) : List Bytes :=
  (k.queue.drain peer).map (·.2) ++ [(WireFrame.queueSync k.queue.digest).encode]

variable {gossipId : Bytes → Gid} {k : Keeper} {peer : Fingerprint} {now : Nat}

theorem mem_onRegister (k : Keeper) (peer : Fingerprint) :
    (WireFrame.queueSync k.queue.digest).encode ∈ k.onRegister peer :=
  List.mem_append_right _ (List.mem_singleton.mpr rfl)

theorem receive_mailboxPut {r : Fingerprint} {frame : Bytes} (h : frame.length ≤ MAX_FRAME) :
    k.receive gossipId peer now (WireFrame.mailboxPut r frame).encode =
      ({ k with queue := k.queue.buffer r (gossipId frame) frame now }, []) := by
  rw [receive, WireFrame.decode_encode (f := .mailboxPut r frame) h]

theorem receive_queueSync {held : List (Gid × Fingerprint)} (h : held.length ≤ MAX_SYNC) :
    k.receive gossipId peer now (WireFrame.queueSync held).encode =
      if peer ∈ k.qsSent then (k, k.queue.pushes held)
      else ({ k with qsSent := peer :: k.qsSent }, k.queue.pushes held ++ [.queueSync k.queue.digest]) := by
  rw [receive, WireFrame.decode_encode (f := .queueSync held) h]

end Keeper

namespace KeeperQueue

theorem mem_digest_fills {r : Fingerprint} {now : Nat} (frames : List Bytes) (hlen : frames.length ≤ KEEPER_CAP) :
    let q := (frames.map (Fill.mailboxPut r · now)).foldl (fill gossipId) new
    (q.shelf r).index.length ≤ frames.length ∧ ∀ e, e ∈ q.digest ↔ e ∈ frames.map (gossipId ·, r) := by
  induction frames using List.reverseRecOn with
  | nil => exact ⟨le_rfl, fun e => Iff.rfl⟩
  | append_singleton frames frame ih =>
    rw [List.length_append, List.length_singleton] at hlen
    obtain ⟨hindex, hdigest⟩ := ih (Nat.le_of_succ_le hlen)
    rw [List.map_append, List.foldl_append]
    set q := (frames.map (Fill.mailboxPut r · now)).foldl (fill gossipId) new
    have hroom : (q.shelf r).index.length < KEEPER_CAP := hindex.trans_lt hlen
    have hnote : (Shelf.note (q.shelf r).index (gossipId frame) now).length ≤ (q.shelf r).index.length + 1 :=
      Shelf.length_note_le _
    refine ⟨?_, fun e => ?_⟩
    · have hshelf : ((q.fill gossipId (.mailboxPut r frame now)).shelf r) =
          ((q.shelf r).put KEEPER_CAP (gossipId frame) frame now).1 := by
        rw [fill, shelf_buffer, if_pos rfl]
      calc ((q.fill gossipId (.mailboxPut r frame now)).shelf r).index.length
          = (Shelf.note (q.shelf r).index (gossipId frame) now).length := by
            rw [hshelf, Shelf.index_put_of_le (hnote.trans hroom)]
        _ ≤ (q.shelf r).index.length + 1 := hnote
        _ ≤ (frames ++ [frame]).length := by
            rw [List.length_append, List.length_singleton]
            exact Nat.succ_le_succ hindex
    · refine (mem_digest_buffer (q := q) hroom).trans ?_
      rw [hdigest, List.map_append, List.mem_append, List.map_singleton, List.mem_singleton]

theorem length_digest_fills {r : Fingerprint} {now : Nat} {frames : List Bytes} (hlen : frames.length ≤ KEEPER_CAP)
    (hfit : ∀ frame ∈ frames, frame.length ≤ MAX_FRAME) (hnodup : (frames.map gossipId).Nodup) :
    ((frames.map (Fill.mailboxPut r · now)).foldl (fill gossipId) new).digest.length = frames.length := by
  have hhashed : ((frames.map (Fill.mailboxPut r · now)).foldl (fill gossipId) new).Hashed gossipId := by
    rw [List.foldl_map]
    exact List.foldlRecOn frames _ .new fun q hq frame hmem => hq.buffer ⟨rfl, hfit frame hmem⟩
  have hkeys : (frames.map (gossipId ·, r)).Nodup := by
    rw [show frames.map (gossipId ·, r) = (frames.map gossipId).map (·, r) by rw [List.map_map]; rfl]
    exact hnodup.map fun _ _ heq => (Prod.ext_iff.mp heq).1
  have hperm := (List.perm_ext_iff_of_nodup hhashed.nodup_digest hkeys).mpr (mem_digest_fills frames hlen).2
  rw [hperm.length_eq, List.length_map]

/-- 513 different frames for a member that is away: the digest that a peer is sent when it connects does not
decode. -/
theorem digest_lost_on_wire :
    let q := (((List.range 513).map (beBytes 32)).map (Fill.mailboxPut (padArr 48 [3]) · 0)).foldl
      (fill (padArr 32)) new
    (WireFrame.queueSync q.digest).encode ∈ (Keeper.mk hostFp q []).onRegister peerFp ∧
      WireFrame.decode (WireFrame.queueSync q.digest).encode = none := by
  intro q
  have hinj : ∀ n ∈ List.range 513, ∀ n' ∈ List.range 513,
      padArr 32 (beBytes 32 n) = padArr 32 (beBytes 32 n') → n = n' := by
    intro n hn n' hn' heq
    have hbytes : ∀ k, (padArr 32 (beBytes 32 k)).1 = beBytes 32 k := fun k =>
      (List.take_append_of_le_length (beBytes_length 32 k).ge).trans (List.take_of_length_le (beBytes_length 32 k).le)
    have hnat : ∀ {k}, k ∈ List.range 513 → beNat (padArr 32 (beBytes 32 k)).1 = k := fun {k} hk => by
      rw [hbytes, beNat_beBytes_of_lt ((List.mem_range.mp hk).trans (by decide))]
    rw [← hnat hn, heq, hnat hn']
  have hlen : q.digest.length = 513 := by
    refine (length_digest_fills ?_ ?_ ?_).trans (by rw [List.length_map, List.length_range])
    · rw [List.length_map, List.length_range]
      decide
    · intro frame hframe
      obtain ⟨n, -, rfl⟩ := List.mem_map.mp hframe
      rw [beBytes_length]
      decide
    · rw [List.map_map]
      exact List.nodup_range.map_on hinj
  clear_value q
  refine ⟨Keeper.mem_onRegister ⟨hostFp, q, []⟩ peerFp, WireFrame.decode_queueSync_of_gt ?_ ?_⟩
  · rw [hlen]
    decide
  · rw [hlen]
    decide

end KeeperQueue

/-- Two keepers and the frames on their way to each. -/
structure Meeting where
  keeper : Bool → Keeper
  inbox : Bool → List WireFrame

namespace Meeting

inductive Act where
  | connect
  | deliver (x : Bool) (k now : Nat)

def connect (m : Meeting) : Meeting :=
  { m with inbox := fun x => m.inbox x ++ [.queueSync (m.keeper !x).queue.digest] }

def answered (m : Meeting) (x : Bool) (k : Nat) (k' : Keeper) (out : List WireFrame) : Meeting where
  keeper y := if y = x then k' else m.keeper y
  inbox y := if y = x then (m.inbox x).eraseIdx k else m.inbox y ++ out

def step (gossipId : Bytes → Gid) (m : Meeting) : Act → Meeting
  | .connect => m.connect
  | .deliver x k now =>
    match (m.inbox x)[k]? with
    | none => m
    | some f =>
      let (k', out) := (m.keeper x).receive gossipId (m.keeper !x).me now f.encode
      m.answered x k k' out

def Delivers (m : Meeting) : Act → Prop
  | .connect => False
  | .deliver x k _ => k < (m.inbox x).length

/-- Two keepers with these queues have just connected. -/
def start (me : Bool → Fingerprint) (queue : Bool → KeeperQueue) : Meeting :=
  connect ⟨fun x => ⟨me x, queue x, []⟩, fun _ => []⟩

def digest (m : Meeting) (x : Bool) : List (Gid × Fingerprint) := (m.keeper x).queue.digest

/-- What keepers may hold: frames that fit the wire, under entries of `U`, and with a frame its pushed copy. -/
structure Wired (gossipId : Bytes → Gid) (U : Finset (Gid × Fingerprint)) (P : Fingerprint → Gid → Bytes → Prop) :
    Prop where
  fits : ∀ {r gid frame}, P r gid frame → frame.length ≤ MAX_FRAME
  mem : ∀ {r gid frame}, P r gid frame → (gid, r) ∈ U
  copy : ∀ {r gid frame}, P r gid frame → P r (gossipId frame) frame
  card : U.card ≤ MAX_SYNC

inductive Carried (gossipId : Bytes → Gid) (P : Fingerprint → Gid → Bytes → Prop) : WireFrame → Prop where
  | sync {held : List (Gid × Fingerprint)} (hlen : held.length ≤ MAX_SYNC) : Carried gossipId P (.queueSync held)
  | put {r : Fingerprint} {frame : Bytes} (hP : P r (gossipId frame) frame) : Carried gossipId P (.mailboxPut r frame)

structure Sound (gossipId : Bytes → Gid) (P : Fingerprint → Gid → Bytes → Prop) (m : Meeting) : Prop where
  holds : ∀ x, (m.keeper x).queue.Holds P
  carried : ∀ x, ∀ f ∈ m.inbox x, Carried gossipId P f

section
variable {gossipId : Bytes → Gid} {U : Finset (Gid × Fingerprint)} {P : Fingerprint → Gid → Bytes → Prop}
  {m : Meeting}

theorem length_digest_le (hP : Wired gossipId U P) {q : KeeperQueue} (h : q.Holds P) : q.digest.length ≤ MAX_SYNC := by
  rw [← List.toFinset_card_of_nodup h.nodup_digest]
  refine (Finset.card_le_card fun e he => ?_).trans hP.card
  obtain ⟨frame, -, hframe⟩ := h.frameFor (List.mem_toFinset.mp he)
  exact hP.mem hframe

theorem Sound.room (h : Sound gossipId P m) (hP : Wired gossipId U P) (x : Bool) (r : Fingerprint) :
    ((m.keeper x).queue.shelf r).index.length < KEEPER_CAP := by
  have hsub : (((m.keeper x).queue.shelf r).index.map (·.1)).map (·, r) ⊆ m.digest x := by
    intro e he
    obtain ⟨g, hg, rfl⟩ := List.mem_map.mp he
    exact KeeperQueue.mem_digest.mpr hg
  have hnodup := ((h.holds x).agrees r).nodup.map (f := (·, r)) fun _ _ heq => (Prod.ext_iff.mp heq).1
  have hle := (hnodup.subperm hsub).length_le
  rw [List.length_map, List.length_map] at hle
  exact (hle.trans (length_digest_le hP (h.holds x))).trans_lt (by decide)

theorem mem_eraseIdx_of_ne {α : Type} {l : List α} {k : Nat} {a b : α} (ha : a ∈ l) (hb : l[k]? = some b)
    (hne : a ≠ b) : a ∈ l.eraseIdx k := by
  obtain ⟨j, hj⟩ := List.mem_iff_getElem?.mp ha
  refine List.mem_eraseIdx_iff_getElem?.mpr ⟨j, fun hjk => ?_, hj⟩
  rw [hjk, hb] at hj
  exact hne (Option.some.inj hj).symm

variable {x : Bool} {k : Nat} {k' : Keeper} {out : List WireFrame}

@[simp] theorem inbox_answered_self : (m.answered x k k' out).inbox x = (m.inbox x).eraseIdx k := by
  simp [answered]

@[simp] theorem inbox_answered_not : (m.answered x k k' out).inbox (!x) = m.inbox (!x) ++ out := by
  simp [answered]

@[simp] theorem keeper_answered_self : (m.answered x k k' out).keeper x = k' := by
  simp [answered]

@[simp] theorem keeper_answered_not : (m.answered x k k' out).keeper (!x) = m.keeper !x := by
  simp [answered]

theorem forall_side {P : Bool → Prop} (x : Bool) (h : P x) (h' : P !x) : ∀ y, P y := by
  intro y
  by_cases hy : y = x
  · rw [hy]
    exact h
  · rw [Bool.eq_not.mpr hy]
    exact h'

/-- What a delivery does: nothing, a push that is filed, or a digest that is answered. -/
inductive Delivered (gossipId : Bytes → Gid) (m : Meeting) (x : Bool) (k : Nat) : Meeting → Prop where
  | nothing (hk : (m.inbox x)[k]? = none) : Delivered gossipId m x k m
  | filed {r : Fingerprint} {frame : Bytes} {now : Nat} (hk : (m.inbox x)[k]? = some (.mailboxPut r frame)) :
    Delivered gossipId m x k (m.answered x k
      { m.keeper x with queue := (m.keeper x).queue.buffer r (gossipId frame) frame now } [])
  | answered {held : List (Gid × Fingerprint)} {qsSent : List Fingerprint} {reply : List WireFrame}
    (hk : (m.inbox x)[k]? = some (.queueSync held))
    (hreply : reply = [] ∧ qsSent = (m.keeper x).qsSent ∨ reply = [.queueSync (m.digest x)] ∧
      (m.keeper !x).me ∉ (m.keeper x).qsSent ∧ qsSent = (m.keeper !x).me :: (m.keeper x).qsSent) :
    Delivered gossipId m x k
      (m.answered x k { m.keeper x with qsSent } ((m.keeper x).queue.pushes held ++ reply))

theorem Sound.step_deliver (h : Sound gossipId P m) (hP : Wired gossipId U P) (x : Bool) (k now : Nat) :
    Delivered gossipId m x k (m.step gossipId (.deliver x k now)) := by
  cases hk : (m.inbox x)[k]? with
  | none =>
    simp only [step, hk]
    exact .nothing hk
  | some f =>
    simp only [step, hk]
    cases h.carried x f (List.mem_of_getElem? hk) with
    | put hput =>
      rw [Keeper.receive_mailboxPut (hP.fits hput)]
      exact .filed hk
    | sync hlen =>
      rw [Keeper.receive_queueSync hlen]
      split
      · rw [← List.append_nil (KeeperQueue.pushes ..)]
        exact .answered hk (.inl ⟨rfl, rfl⟩)
      · next hsent => exact .answered hk (.inr ⟨rfl, hsent, rfl⟩)

theorem Sound.mem_digest_step (h : Sound gossipId P m) (hP : Wired gossipId U P) (a : Act) (x : Bool)
    (e : Gid × Fingerprint) : (e ∈ m.digest x → e ∈ (m.step gossipId a).digest x) ∧
      (e ∈ (m.step gossipId a).digest x → e ∈ m.digest x ∨ ∃ frame, .mailboxPut e.2 frame ∈ m.inbox x ∧
        gossipId frame = e.1) := by
  cases a with
  | connect => exact ⟨id, .inl⟩
  | deliver y k now =>
    have hstep := h.step_deliver hP y k now
    generalize m.step gossipId (.deliver y k now) = m' at hstep ⊢
    cases hstep with
    | nothing => exact ⟨id, .inl⟩
    | @filed r frame _ hk =>
      revert x
      refine forall_side y ?_ ?_
      · rw [digest, digest, keeper_answered_self, KeeperQueue.mem_digest_buffer (h.room hP y r)]
        refine ⟨.inl, Or.imp_right ?_⟩
        rintro rfl
        exact ⟨frame, List.mem_of_getElem? hk, rfl⟩
      · rw [digest, digest, keeper_answered_not]
        exact ⟨id, .inl⟩
    | answered =>
      revert x
      refine forall_side y ?_ ?_
      · rw [digest, digest, keeper_answered_self]
        exact ⟨id, .inl⟩
      · rw [digest, digest, keeper_answered_not]
        exact ⟨id, .inl⟩

theorem Sound.mem_inbox_step (h : Sound gossipId P m) (hP : Wired gossipId U P) (a : Act) (x : Bool)
    {f : WireFrame} (hf : f ∈ (m.step gossipId a).inbox x) :
    f ∈ m.inbox x ∨ f = .queueSync (m.digest !x) ∨
      ∃ held, .queueSync held ∈ m.inbox (!x) ∧ f ∈ (m.keeper !x).queue.pushes held := by
  cases a with
  | connect => exact (List.mem_append.mp hf).imp_right fun hf => .inl (List.mem_singleton.mp hf)
  | deliver y k now =>
    have hstep := h.step_deliver hP y k now
    generalize m.step gossipId (.deliver y k now) = m' at hstep hf
    revert x
    cases hstep with
    | nothing => exact fun x hf => .inl hf
    | filed =>
      refine forall_side y ?_ ?_
      · rw [inbox_answered_self]
        exact fun hf => .inl (List.mem_of_mem_eraseIdx hf)
      · rw [inbox_answered_not, List.append_nil]
        exact .inl
    | @answered held _ _ hk hreply =>
      refine forall_side y ?_ ?_
      · rw [inbox_answered_self]
        exact fun hf => .inl (List.mem_of_mem_eraseIdx hf)
      · rw [inbox_answered_not, Bool.not_not, List.mem_append, List.mem_append]
        rintro (hf | hf | hf)
        · exact .inl hf
        · exact .inr (.inr ⟨held, List.mem_of_getElem? hk, hf⟩)
        · obtain ⟨rfl, -⟩ | ⟨rfl, -⟩ := hreply
          · cases hf
          · exact .inr (.inl (List.mem_singleton.mp hf))

theorem Sound.step (h : Sound gossipId P m) (hP : Wired gossipId U P) (a : Act) :
    Sound gossipId P (m.step gossipId a) := by
  refine ⟨?_, fun x f hf => ?_⟩
  · cases a with
    | connect => exact h.holds
    | deliver x k now =>
      have hstep := h.step_deliver hP x k now
      generalize m.step gossipId (.deliver x k now) = m' at hstep ⊢
      cases hstep with
      | nothing => exact h.holds
      | filed hk =>
        refine forall_side x ?_ ?_
        · cases h.carried x _ (List.mem_of_getElem? hk) with
          | put hput =>
            rw [keeper_answered_self]
            exact (h.holds x).buffer hput
        · rw [keeper_answered_not]
          exact h.holds _
      | answered =>
        refine forall_side x ?_ ?_
        · rw [keeper_answered_self]
          exact h.holds x
        · rw [keeper_answered_not]
          exact h.holds _
  · obtain hf | rfl | ⟨held, -, hf⟩ := h.mem_inbox_step hP a x hf
    · exact h.carried x f hf
    · exact .sync (length_digest_le hP (h.holds _))
    · obtain ⟨e, -, frame, rfl, hframe⟩ := (h.holds _).mem_pushes hf
      exact .put (hP.copy hframe)

/-! ### Entries under the hash of what they hold -/

def Own (gossipId : Bytes → Gid) (U : Finset (Gid × Fingerprint)) (r : Fingerprint) (gid : Gid) (frame : Bytes) : Prop :=
  gossipId frame = gid ∧ frame.length ≤ MAX_FRAME ∧ (gid, r) ∈ U

theorem Own.wired (hU : U.card ≤ MAX_SYNC) : Wired gossipId U (Own gossipId U) where
  fits h := h.2.1
  mem h := h.2.2
  copy h := ⟨rfl, h.2.1, h.1 ▸ h.2.2⟩
  card := hU

/-- What one keeper holds and the other lacks is on its way: as a push, or as a digest that will call for one. -/
def Due (gossipId : Bytes → Gid) (m : Meeting) (x : Bool) (e : Gid × Fingerprint) : Prop :=
  e ∈ m.digest (!x) ∨ (∃ frame, .mailboxPut e.2 frame ∈ m.inbox (!x) ∧ gossipId frame = e.1) ∨
    ∃ held, .queueSync held ∈ m.inbox x ∧ e ∉ held

structure Inv (gossipId : Bytes → Gid) (U : Finset (Gid × Fingerprint)) (m : Meeting) : Prop
    extends Sound gossipId (Own gossipId U) m where
  sent : ∀ x r frame, .mailboxPut r frame ∈ m.inbox x → (gossipId frame, r) ∈ m.digest !x
  due : ∀ x, ∀ e ∈ m.digest x, Due gossipId m x e

theorem mem_inbox_of_mem {f : WireFrame} (x : Bool) (hf : f ∈ m.inbox x) (a : Act) :
    f ∈ (m.step gossipId a).inbox x ∨ ∃ k now, a = .deliver x k now ∧ (m.inbox x)[k]? = some f := by
  cases a with
  | connect => exact .inl (List.mem_append_left _ hf)
  | deliver y k now =>
    cases hk : (m.inbox y)[k]? with
    | none =>
      simp only [step, hk]
      exact .inl hf
    | some f' =>
      simp only [step, hk]
      revert x
      refine forall_side y (fun hf => ?_) (fun hf => ?_)
      · by_cases heq : f = f'
        · exact .inr ⟨k, now, rfl, heq ▸ hk⟩
        · rw [inbox_answered_self]
          exact .inl (mem_eraseIdx_of_ne hf hk heq)
      · rw [inbox_answered_not]
        exact .inl (List.mem_append_left _ hf)

theorem Inv.due_step (h : Inv gossipId U m) (hU : U.card ≤ MAX_SYNC) (a : Act) {e : Gid × Fingerprint}
    (he : e ∈ m.digest x) : Due gossipId (m.step gossipId a) x e := by
  obtain hd | ⟨frame, hput, hkey⟩ | ⟨held, hheld, hnot⟩ := h.due x e he
  · exact .inl ((h.mem_digest_step (Own.wired hU) a _ e).1 hd)
  · obtain hin | ⟨k, now, rfl, hk⟩ := mem_inbox_of_mem _ hput a
    · exact .inr (.inl ⟨frame, hin, hkey⟩)
    · -- the push that was awaited
      refine .inl ?_
      have hstep := h.step_deliver (Own.wired hU) (!x) k now
      generalize m.step gossipId (.deliver (!x) k now) = m' at hstep ⊢
      cases hstep with
      | nothing hk' => cases hk.symm.trans hk'
      | filed hk' =>
        cases hk.symm.trans hk'
        rw [digest, keeper_answered_self, KeeperQueue.mem_digest_buffer (h.room (Own.wired hU) _ _)]
        exact .inr (Prod.ext hkey.symm rfl)
      | answered hk' => cases hk.symm.trans hk'
  · obtain hin | ⟨k, now, rfl, hk⟩ := mem_inbox_of_mem _ hheld a
    · exact .inr (.inr ⟨held, hin, hnot⟩)
    · -- the digest calls for the entry
      refine .inr (.inl ?_)
      have hstep := h.step_deliver (Own.wired hU) x k now
      generalize m.step gossipId (.deliver x k now) = m' at hstep ⊢
      cases hstep with
      | nothing hk' => cases hk.symm.trans hk'
      | filed hk' => cases hk.symm.trans hk'
      | answered hk' =>
        cases hk.symm.trans hk'
        obtain ⟨frame, hpush, hown⟩ := (h.holds x).exists_push he hnot
        rw [inbox_answered_not]
        exact ⟨frame, List.mem_append_right _ (List.mem_append_left _ hpush), hown.1⟩

theorem Inv.step (h : Inv gossipId U m) (hU : U.card ≤ MAX_SYNC) (a : Act) : Inv gossipId U (m.step gossipId a) := by
  have hgrow (x : Bool) (e : Gid × Fingerprint) := h.mem_digest_step (Own.wired hU) a x e
  refine ⟨h.toSound.step (Own.wired hU) a, fun x r frame hf => ?_, fun x e he => ?_⟩
  · obtain hf | hsync | ⟨held, -, hf⟩ := h.mem_inbox_step (Own.wired hU) a x hf
    · exact (hgrow _ _).1 (h.sent x r frame hf)
    · cases hsync
    · obtain ⟨e, he, frame, heq, hown⟩ := (h.holds _).mem_pushes hf
      cases heq
      rw [hown.1]
      exact (hgrow _ _).1 he
  · obtain he | ⟨frame, hput, hkey⟩ := (hgrow x e).2 he
    · exact h.due_step hU a he
    · refine .inl ((hgrow _ e).1 ?_)
      have hsent := h.sent x _ _ hput
      rwa [hkey] at hsent

/-! ### Deliveries come to an end -/

/-- A digest calls for at most as many pushes as a keeper has entries. -/
def weight : WireFrame → Nat
  | .queueSync _ => MAX_SYNC + 1
  | _ => 1

/-- Both hold the same, and all that is on its way are digests of it. -/
structure Settled (m : Meeting) : Prop where
  same : ∀ x, ∀ e ∈ m.digest x, e ∈ m.digest !x
  quiet : ∀ x, ∀ f ∈ m.inbox x, ∃ held, f = .queueSync held ∧ ∀ e ∈ m.digest x, e ∈ held

theorem Settled.step (hs : m.Settled) (h : Inv gossipId U m) (hU : U.card ≤ MAX_SYNC) (a : Act) :
    (m.step gossipId a).Settled := by
  have hold {x : Bool} {e : Gid × Fingerprint} (he : e ∈ (m.step gossipId a).digest x) : e ∈ m.digest x := by
    obtain he | ⟨frame, hput, -⟩ := (h.mem_digest_step (Own.wired hU) a x e).2 he
    · exact he
    · obtain ⟨held, heq, -⟩ := hs.quiet x _ hput
      cases heq
  refine ⟨fun x e he => (h.mem_digest_step (Own.wired hU) a _ e).1 (hs.same x e (hold he)), fun x f hf => ?_⟩
  obtain hf | rfl | ⟨held, hsync, hf⟩ := h.mem_inbox_step (Own.wired hU) a x hf
  · obtain ⟨held, rfl, hall⟩ := hs.quiet x f hf
    exact ⟨held, rfl, fun e he => hall e (hold he)⟩
  · exact ⟨_, rfl, fun e he => hs.same x e (hold he)⟩
  · obtain ⟨held', heq, hall⟩ := hs.quiet _ _ hsync
    cases heq
    rw [KeeperQueue.pushes_eq_nil hall] at hf
    cases hf

theorem Inv.start {me : Bool → Fingerprint} {queue : Bool → KeeperQueue} (h : ∀ x, (queue x).Hashed gossipId)
    (hcard : ((queue true).digest ++ (queue false).digest).toFinset.card ≤ MAX_SYNC) :
    Inv gossipId ((queue true).digest ++ (queue false).digest).toFinset (start me queue) := by
  have hmem : ∀ x, ∀ e ∈ (queue x).digest, e ∈ ((queue true).digest ++ (queue false).digest).toFinset := by
    intro x e he
    cases x
    · exact List.mem_toFinset.mpr (List.mem_append_right _ he)
    · exact List.mem_toFinset.mpr (List.mem_append_left _ he)
  have hholds (x : Bool) : (queue x).Holds (Own gossipId ((queue true).digest ++ (queue false).digest).toFinset) :=
    ⟨(h x).agrees, fun {r gid frame} hl => ⟨((h x).all hl).1, ((h x).all hl).2, hmem x (gid, r)
      (KeeperQueue.mem_digest.mpr ((((h x).agrees r).mem_iff gid).mpr (hl ▸ nofun)))⟩⟩
  refine ⟨⟨hholds, fun x f hf => ?_⟩, fun x r frame hf => ?_, fun x e he => ?_⟩
  · obtain rfl := List.mem_singleton.mp hf
    exact .sync (length_digest_le (Own.wired hcard) (hholds !x))
  · cases List.mem_singleton.mp hf
  · by_cases hd : e ∈ (queue !x).digest
    · exact .inl hd
    · exact .inr (.inr ⟨_, List.mem_singleton.mpr rfl, hd⟩)

/-- The frame of a group message for `r`, under the hash of the message or under its own. -/
def Copy (gossipId : Bytes → Gid) (r : Fingerprint) (gct : Bytes) (r' : Fingerprint) (gid : Gid) (frame : Bytes) : Prop :=
  r' = r ∧ frame = (WireFrame.groupMsg gct).encode ∧ (gid = gossipId gct ∨ gid = gossipId frame)

/-- Of a group message that one keeper holds for `r`, the other one only ever gets copies of the frame. -/
structure Apart (gossipId : Bytes → Gid) (r : Fingerprint) (gct : Bytes) (m : Meeting) : Prop
    extends Sound gossipId (Copy gossipId r gct) m where
  held : (gossipId gct, r) ∈ m.digest true
  lacking : (gossipId gct, r) ∉ m.digest false

variable {r : Fingerprint} {gct : Bytes}

theorem Copy.wired (hlen : (WireFrame.groupMsg gct).encode.length ≤ MAX_FRAME) : Wired gossipId
    {(gossipId gct, r), (gossipId (WireFrame.groupMsg gct).encode, r)} (Copy gossipId r gct) where
  fits h := h.2.1 ▸ hlen
  mem := by
    rintro _ _ _ ⟨rfl, rfl, rfl | rfl⟩
    · exact Finset.mem_insert_self ..
    · exact Finset.mem_insert_of_mem (Finset.mem_singleton_self _)
  copy h := ⟨h.1, h.2.1, .inr rfl⟩
  card := Finset.card_le_two.trans (by decide)

theorem Apart.step (h : Apart gossipId r gct m) (hne : gossipId (WireFrame.groupMsg gct).encode ≠ gossipId gct)
    (hlen : (WireFrame.groupMsg gct).encode.length ≤ MAX_FRAME) (a : Act) :
    Apart gossipId r gct (m.step gossipId a) := by
  refine ⟨h.toSound.step (Copy.wired hlen) a, (h.mem_digest_step (Copy.wired hlen) a _ _).1 h.held, fun hmem => ?_⟩
  obtain hold | ⟨frame, hput, hkey⟩ := (h.mem_digest_step (Copy.wired hlen) a _ _).2 hmem
  · exact h.lacking hold
  · cases h.carried _ _ hput with
    | put hcopy => exact hne (hcopy.2.1 ▸ hkey)

theorem Apart.start (me : Bool → Fingerprint) (r : Fingerprint) (gct : Bytes) (now : Nat)
    (hlen : (WireFrame.groupMsg gct).encode.length ≤ MAX_FRAME) :
    Apart gossipId r gct (start me fun x =>
      if x then KeeperQueue.new.fill gossipId (.groupMsg gct [r] now) else .new) := by
  have hholds : ∀ x : Bool, KeeperQueue.Holds (Copy gossipId r gct)
      (if x then KeeperQueue.new.fill gossipId (.groupMsg gct [r] now) else .new) :=
    forall_side true (KeeperQueue.Holds.new.buffer ⟨rfl, rfl, .inl rfl⟩) .new
  refine ⟨⟨hholds, fun x f hf => ?_⟩, ?_, List.not_mem_nil⟩
  · obtain rfl := List.mem_singleton.mp hf
    exact .sync (length_digest_le (Copy.wired hlen) (hholds !x))
  · exact (KeeperQueue.mem_digest_buffer (q := .new) (show 0 < KEEPER_CAP by decide)).mpr (.inr rfl)

end
end Meeting
end Talkrypt.Core
