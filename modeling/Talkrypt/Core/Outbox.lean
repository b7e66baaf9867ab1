import Talkrypt.Lib.Run
import Talkrypt.Lib.Shelf
import Talkrypt.Core.Frames
import Talkrypt.Core.Node

/-!
# The outbox of a persistent chat (`crates/core/src/outbox.rs`)

A persistent sender keeps each group message until it is acknowledged, and offers what it keeps again on every
flush. An outbox has one acknowledgement for a message, not one for each member: whichever peer acknowledges it
first, the message goes, and nobody else is offered it any more (`one_ack_ends_delivery`). What was owed to the
members was delivered exactly in the runs in which nobody but the acknowledging peer was still owed the message
(`drops_lawful_iff`).

An engine uses one chat of its outbox, that of its channel.
-/

namespace Talkrypt.Core
open TreeKem

def OUTBOX_CAP : Nat := 4096
def OUTBOX_TTL_SECS : Nat := 30 * 24 * 3600

inductive OutboxEvent where
  | delivered (gossipId : Gid)
  | outboxDropped (count : Nat)
deriving DecidableEq

/-- The state of an engine that sending and acknowledging a group message touch. -/
structure Sender where
  me : Fingerprint
  roster : Table Nat Fingerprint
  persistent : Bool
  outbox : Shelf Gid Bytes
  sent : List WireFrame
  events : List OutboxEvent
  sentTo : Table Gid (List Fingerprint)
  acked : List (Gid × Fingerprint)

namespace Sender

def new (me : Fingerprint) (roster : Table Nat Fingerprint) : Sender where
  me := me
  roster := roster
  persistent := false
  outbox := .new
  sent := []
  events := []
  sentTo := ∅
  acked := []

inductive Act where
  | send (ct : Bytes) (now : Nat)
  | ack (peer : Fingerprint) (ids : List Gid)
  | flush (now : Nat)
  | setPersistence (on : Bool)
  | setRoster (roster : Table Nat Fingerprint)
  /-- The process starts again over the same store, which lists its keys in some order. -/
  | restart (order : List Gid) (now : Nat)

def members (s : Sender) : List Fingerprint := s.roster.toList.map (·.2)

/-- `Event::OutboxDropped`, if there was anything to drop. -/
def dropped (events : List OutboxEvent) (count : Nat) : List OutboxEvent :=
  if count > 0 then events ++ [.outboxDropped count] else events

section
variable (gossipId : Bytes → Gid)

def send (s : Sender) (ct : Bytes) (now : Nat) : Sender :=
  let frame : WireFrame := .groupMsg ct
  let s := { s with sent := s.sent ++ [frame], sentTo := s.sentTo.insert (gossipId ct) s.members }
  if s.persistent then
    let (outbox, count) := s.outbox.put OUTBOX_CAP (gossipId ct) frame.encode now
    { s with outbox, events := dropped s.events count }
  else s

def ackAll (s : Sender) (peer : Fingerprint) (ids : List Gid) : Sender :=
  { s with outbox := ids.foldl Shelf.ack s.outbox, events := s.events ++ ids.map .delivered
           acked := s.acked ++ ids.map (·, peer) }

def flushOutbox (s : Sender) (now : Nat) : Sender :=
  if s.persistent then
    let (outbox, count) := s.outbox.evictExpired OUTBOX_TTL_SECS now
    { s with outbox, events := dropped s.events count
             sent := s.sent ++ outbox.store.toList.filterMap fun e => WireFrame.decode e.2 }
  else s

def step (s : Sender) : Act → Sender
  | .send ct now => s.send gossipId ct now
  | .ack peer ids => s.ackAll peer ids
  | .flush now => s.flushOutbox now
  | .setPersistence on => { s with persistent := on }
  | .setRoster roster => { s with roster }
  | .restart order now =>
    -- the index is lost; `set_outbox_store` rebuilds it
    { s with persistent := false, outbox := Shelf.rehydrate ⟨s.outbox.store, []⟩ order now }

end

def Pending (s : Sender) (gid : Gid) : Prop := s.outbox.store.lookup gid ≠ none

/-- A member that the message was sent to, who is still a member and has not acknowledged it. -/
def Owed (s : Sender) (gid : Gid) (m : Fingerprint) : Prop :=
  (∃ ms, s.sentTo.lookup gid = some ms ∧ m ∈ ms) ∧ m ≠ s.me ∧ m ∈ s.members ∧ (gid, m) ∉ s.acked

variable {gossipId : Bytes → Gid} {s : Sender} {a : Act} {gid : Gid}

theorem outbox_send {S : Scheme} {i : Inner S} (h : i.persistent = s.persistent) (now : UInt64) (ct : Bytes) :
    ∃ queued, (i.post gossipId now ct).queued = i.queued ++ queued ∧
      (s.send gossipId ct now.toNat).outbox = queued.foldl (fun o q =>
        (o.put OUTBOX_CAP q.1 (WireFrame.groupMsg q.2.1).encode q.2.2.toNat).1) s.outbox := by
  unfold Inner.post send
  cases hp : s.persistent with
  | false =>
    rw [hp] at h
    exact ⟨[], by simp [h, Inner.route], by simp⟩
  | true =>
    rw [hp] at h
    exact ⟨[(gossipId ct, ct, now)], by simp [h, Inner.route], by simp⟩

/-! ## What takes a message out of the outbox -/

theorem lookup_foldl_ack (ids : List Gid) (o : Shelf Gid Bytes) :
    (ids.foldl Shelf.ack o).store.lookup gid = if gid ∈ ids then none else o.store.lookup gid := by
  induction ids generalizing o with
  | nil => rfl
  | cons id ids ih =>
    rw [List.foldl_cons, ih, Shelf.lookup_ack]
    by_cases h : gid = id
    · simp [h]
    · simp [h]

inductive Cause (gossipId : Bytes → Gid) (s : Sender) (gid : Gid) : Act → Prop where
  | expiry {now : Nat} (h : gid ∈ s.outbox.expired OUTBOX_TTL_SECS now) : Cause gossipId s gid (.flush now)
  | capacity {ct : Bytes} {now : Nat} (h : gid ∈ s.outbox.overflow OUTBOX_CAP (gossipId ct) now) :
    Cause gossipId s gid (.send ct now)
  | ack {peer : Fingerprint} {ids : List Gid} (h : gid ∈ ids) : Cause gossipId s gid (.ack peer ids)

theorem cause_of_dropped (h : s.Pending gid) (h' : ¬ (s.step gossipId a).Pending gid) :
    Cause gossipId s gid a := by
  rw [Pending, ne_eq, not_not] at h'
  cases a with
  | send ct now =>
    simp only [step, send] at h'
    split at h'
    · dsimp only at h'
      rw [Shelf.lookup_put] at h'
      split at h'
      · next hover => exact .capacity hover
      · split at h'
        · cases h'
        · exact absurd h' h
    · exact absurd h' h
  | ack peer ids =>
    simp only [step, ackAll] at h'
    rw [lookup_foldl_ack] at h'
    split at h'
    · next hmem => exact .ack hmem
    · exact absurd h' h
  | flush now =>
    simp only [step, flushOutbox] at h'
    split at h'
    · dsimp only at h'
      rw [Shelf.lookup_evictExpired] at h'
      split at h'
      · next hexp => exact .expiry hexp
      · exact absurd h' h
    · exact absurd h' h
  | setPersistence on => exact absurd h' h
  | setRoster roster => exact absurd h' h
  | restart order now => exact absurd h' h

theorem not_pending_ack {peer : Fingerprint} {ids : List Gid} (h : gid ∈ ids) :
    ¬ (s.step gossipId (.ack peer ids)).Pending gid := by
  simp only [step, ackAll, Pending, lookup_foldl_ack, if_pos h, ne_eq, not_true_eq_false, not_false_eq_true]

theorem owed_ack {peer m : Fingerprint} {ids : List Gid} :
    (s.step gossipId (.ack peer ids)).Owed gid m ↔ s.Owed gid m ∧ ¬ (gid ∈ ids ∧ m = peer) := by
  have hmem : (gid, m) ∈ s.acked ++ ids.map (·, peer) ↔ (gid, m) ∈ s.acked ∨ gid ∈ ids ∧ m = peer := by
    simp only [List.mem_append, List.mem_map, Prod.mk.injEq, eq_comm]
    grind
  simp only [Owed, step, ackAll, members, hmem]
  grind

/-! ## Runs -/

/-- A message that goes has expired, or makes room, or is owed to nobody any more. -/
def Lawful (gossipId : Bytes → Gid) (s : Sender) (a : Act) : Prop :=
  ∀ gid, s.Pending gid → ¬ (s.step gossipId a).Pending gid →
    (∃ now, a = .flush now ∧ gid ∈ s.outbox.expired OUTBOX_TTL_SECS now) ∨
    (∃ ct now, a = .send ct now ∧ gid ∈ s.outbox.overflow OUTBOX_CAP (gossipId ct) now) ∨
    ∀ m, ¬ (s.step gossipId a).Owed gid m

/-- Whoever acknowledges a message of the outbox is the only member that was still owed it. -/
def LastAck (s : Sender) (a : Act) : Prop :=
  ∀ peer ids, a = .ack peer ids → ∀ gid ∈ ids, s.Pending gid → ∀ m, s.Owed gid m → m = peer

theorem lawful_iff : Lawful gossipId s a ↔ s.LastAck a := by
  constructor
  · rintro h peer ids rfl gid hgid hpending m howed
    obtain ⟨now, hact, -⟩ | ⟨ct, now, hact, -⟩ | hnobody := h gid hpending (not_pending_ack hgid)
    · cases hact
    · cases hact
    · by_contra hne
      exact hnobody m (owed_ack.mpr ⟨howed, fun hp => hne hp.2⟩)
  · intro h gid hpending hgone
    cases cause_of_dropped hpending hgone with
    | expiry hexp => exact .inl ⟨_, rfl, hexp⟩
    | capacity hover => exact .inr (.inl ⟨_, _, rfl, hover⟩)
    | ack hmem =>
      refine .inr (.inr fun m howed => ?_)
      obtain ⟨howed, hother⟩ := owed_ack.mp howed
      exact hother ⟨hmem, h _ _ rfl gid hmem hpending m howed⟩

/-- Every message of the outbox is kept as the frame that was sent, under its gossip id. -/
def Kept (gossipId : Bytes → Gid) (s : Sender) : Prop :=
  ∀ gid bytes, s.outbox.store.lookup gid = some bytes →
    ∃ ct, gid = gossipId ct ∧ bytes = (WireFrame.groupMsg ct).encode

theorem Kept.step (h : s.Kept gossipId) (a : Act) : (s.step gossipId a).Kept gossipId := by
  intro gid bytes hbytes
  cases a with
  | send ct now =>
    simp only [Sender.step, send] at hbytes
    split at hbytes
    · dsimp only at hbytes
      rw [Shelf.lookup_put] at hbytes
      split at hbytes
      · cases hbytes
      · split at hbytes
        · next heq =>
          cases hbytes
          exact ⟨ct, heq, rfl⟩
        · exact h gid bytes hbytes
    · exact h gid bytes hbytes
  | ack peer ids =>
    simp only [Sender.step, ackAll] at hbytes
    rw [lookup_foldl_ack] at hbytes
    split at hbytes
    · cases hbytes
    · exact h gid bytes hbytes
  | flush now =>
    simp only [Sender.step, flushOutbox] at hbytes
    split at hbytes
    · dsimp only at hbytes
      rw [Shelf.lookup_evictExpired] at hbytes
      split at hbytes
      · cases hbytes
      · exact h gid bytes hbytes
    · exact h gid bytes hbytes
  | setPersistence on => exact h gid bytes hbytes
  | setRoster roster => exact h gid bytes hbytes
  | restart order now => exact h gid bytes hbytes

/-- A flush broadcasts every message that the outbox has after it, if the message is within the limit of a
frame. -/
def Offers (gossipId : Bytes → Gid) (s : Sender) (a : Act) : Prop :=
  ∀ now, a = .flush now → s.persistent = true → ∀ gid, (s.step gossipId a).Pending gid →
    ∃ ct, gid = gossipId ct ∧
      (ct.length ≤ MAX_FRAME → ∃ offered, (s.step gossipId a).sent = s.sent ++ offered ∧ .groupMsg ct ∈ offered)

theorem Kept.offers (h : s.Kept gossipId) (a : Act) : Offers gossipId s a := by
  rintro now rfl hpersistent gid hpending
  obtain ⟨bytes, hbytes⟩ := Option.ne_none_iff_exists'.mp hpending
  obtain ⟨ct, rfl, rfl⟩ := h.step (.flush now) gid bytes hbytes
  refine ⟨ct, rfl, fun hlen => ?_⟩
  simp only [Sender.step, flushOutbox, hpersistent, if_true] at hbytes ⊢
  refine ⟨_, rfl, List.mem_filterMap.mpr ⟨_, Table.mem_toList.mpr hbytes, ?_⟩⟩
  exact WireFrame.decode_encode (f := .groupMsg ct) hlen

/-- In every run of a sender, what leaves the outbox has expired, makes room or is owed to nobody any more
exactly if every acknowledgement comes from the only member that was still owed the message; and every flush
offers all that is left. -/
theorem drops_lawful_iff (me : Fingerprint) (roster : Table Nat Fingerprint) (acts : List Act) :
    (Run.Along (step gossipId) (Lawful gossipId) (new me roster) acts ↔
      Run.Along (step gossipId) LastAck (new me roster) acts) ∧
    Run.Along (step gossipId) (Offers gossipId) (new me roster) acts := by
  refine ⟨⟨Run.Along.mono fun _ _ => lawful_iff.mp, Run.Along.mono fun _ _ => lawful_iff.mpr⟩, ?_⟩
  have hstart : (new me roster).Kept gossipId := by
    intro gid bytes h
    cases h
  exact Run.Along.of_invariant (I := Kept gossipId) (fun _ a h _ => h.step a) (fun _ a h _ => h.offers a) hstart
    Run.along_true

end Sender

/-! ## One acknowledgement of two -/

namespace Sender.Sample

def bob : Fingerprint := padArr 48 [2]
def carol : Fingerprint := padArr 48 [3]

def three : Sender :=
  .new hostFp ((((∅ : Table Nat Fingerprint).insert 0 hostFp).insert 1 bob).insert 2 carol)

def hello : Bytes := [7]

def acts : List Act := [.setPersistence true, .send hello 1000, .ack bob [padArr 32 hello], .flush 1001]

end Sender.Sample

open Sender.Sample in
/-- After one of two members has acknowledged a message the outbox has nothing for the other one. -/
theorem Sender.one_ack_ends_delivery :
    ((acts.take 2).foldl (step (padArr 32)) three).outbox.store.lookup (padArr 32 hello) =
      some (WireFrame.groupMsg hello).encode ∧
    (acts.foldl (step (padArr 32)) three).outbox.store.lookup (padArr 32 hello) = none ∧
    (acts.foldl (step (padArr 32)) three).Owed (padArr 32 hello) carol ∧
    (acts.foldl (step (padArr 32)) three).sent = [.groupMsg hello] := by
  refine ⟨by decide +kernel, by decide +kernel, ⟨⟨[carol, bob, hostFp], ?_, ?_⟩, ?_, ?_, ?_⟩, by decide +kernel⟩
  all_goals decide +kernel

end Talkrypt.Core
