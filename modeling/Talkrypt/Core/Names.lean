import Talkrypt.Lib.Run
import Talkrypt.Core.Presence

/-!
# The name cache (`handle_presence` and `reconcile_name_tag` in `crates/core/src/engine.rs`)

A node keeps the last name that each peer announced. A presence replaces it if its sequence number is higher and
the peer has not used up its budget; a chat message whose name tag does not fit the cached name removes it. Each
handler takes the locks of the engine one after the other, so that calls on several connections interleave
between its sections.
-/

namespace Talkrypt.Core
open TreeKem (Scheme)
open Account

inductive NameTier where
  | bare
  | linked
  | registryConfirmed
deriving DecidableEq

structure NameRecord where
  label : String
  tier : NameTier
  seq : UInt64
  accountFp : Option Fingerprint
deriving DecidableEq

def PRESENCE_RATE_WINDOW_SECS : Nat := 2

def PRESENCE_RATE_BURST : Nat := 3

section
variable (sha256 : Bytes → Gid)

/-- What a message carries for the name of its sender. -/
def nameIdTag (label : String) (context : Gid) : Bytes :=
  (sha256 (putBytes (utf8 label) ++ context.1)).1.take 8

end

/-- The names that were heard, and for each peer the start of the current window and the presences in it. -/
structure NameCache where
  names : Table Fingerprint NameRecord := ∅
  presenceRate : Table Fingerprint (UInt64 × Nat) := ∅

namespace NameCache

/-! ## The sections of the two handlers -/

section
variable (S : Scheme) (fingerprint : IdentityPublic → Fingerprint)

/-- The record that a presence asks for, and the peer it is for: of a linked one, the device that signed. -/
def readPresence (revocations : Finset (Fingerprint × Fingerprint)) (ctx : Gid) (attributed : Fingerprint)
    (now : UInt64) (bytes : Bytes) : Option (Fingerprint × NameRecord) :=
  match NamePresence.decode bytes with
  | .error _ => none
  | .ok (.bare seq label) => some (attributed, ⟨label, .bare, seq, none⟩)
  | .ok np =>
    (np.resolve S fingerprint revocations ctx now).map fun v => (v.deviceFp, ⟨v.label, .linked, v.seq, some v.accountFp⟩)

end

def fresh (c : NameCache) (key : Fingerprint) (rec : NameRecord) : Bool :=
  match c.names.lookup key with
  | none => true
  | some existing => existing.seq < rec.seq

def spend (c : NameCache) (now : UInt64) (key : Fingerprint) : Option NameCache :=
  let e := (c.presenceRate.lookup key).getD (now, 0)
  let e := if now.toNat - e.1.toNat ≥ PRESENCE_RATE_WINDOW_SECS then (now, 0) else e
  if e.2 ≥ PRESENCE_RATE_BURST then none
  else some { c with presenceRate := c.presenceRate.insert key (e.1, e.2 + 1) }

def install (c : NameCache) (key : Fingerprint) (rec : NameRecord) : NameCache :=
  { c with names := c.names.insert key rec }

/-- The tag of a message does not fit the name that is cached for its sender. -/
def stale (sha256 : Bytes → Gid) (ctx : Gid) (c : NameCache) (sender : Fingerprint) (tag : Bytes) : Bool :=
  match c.names.lookup sender with
  | none => false
  | some rec => nameIdTag sha256 rec.label ctx ≠ tag

def drop (c : NameCache) (sender : Fingerprint) : NameCache := { c with names := c.names.erase sender }

/-- `handle_presence` without interruption, but for the rendering of the name. -/
def handlePresence (S : Scheme) (fingerprint : IdentityPublic → Fingerprint)
    (revocations : Finset (Fingerprint × Fingerprint)) (ctx : Gid) (c : NameCache) (attributed : Fingerprint)
    (now : UInt64) (bytes : Bytes) : NameCache :=
  match readPresence S fingerprint revocations ctx attributed now bytes with
  | none => c
  | some (key, rec) =>
    if c.fresh key rec then
      match c.spend now key with
      | none => c
      | some c => c.install key rec
    else c

def reconcileNameTag (sha256 : Bytes → Gid) (ctx : Gid) (c : NameCache) (sender : Fingerprint) (tag : Bytes) : NameCache :=
  if c.stale sha256 ctx sender tag then c.drop sender else c

theorem names_spend {c c' : NameCache} {now : UInt64} {key : Fingerprint} (h : c.spend now key = some c') :
    c'.names = c.names := by
  simp only [spend, Option.ite_none_left_eq_some, Option.some.injEq] at h
  rw [← h.2]

end NameCache

/-! ## Interleaved calls -/

inductive NameTask where
  | spend (now : UInt64) (key : Fingerprint) (rec : NameRecord)
  | install (key : Fingerprint) (rec : NameRecord)
  | drop (sender : Fingerprint)
  | done

/-- A presence that is about to be installed is still newer than the cached one. -/
def NameTask.timely (c : NameCache) : NameTask → Bool
  | .install key rec => c.fresh key rec
  | _ => true

/-- The cache, the calls that were made, and the sequence numbers of the presences that were installed. -/
structure NameDesk where
  cache : NameCache
  revocations : Finset (Fingerprint × Fingerprint)
  calls : List NameTask
  accepted : List (Fingerprint × UInt64)

namespace NameDesk

inductive Event where
  | presence (attributed : Fingerprint) (now : UInt64) (bytes : Bytes)
  | nameTag (sender : Fingerprint) (tag : Bytes)
  | resume (k : Nat)
  | revoke (r : Revocation)

section
variable (S : Scheme) (fingerprint : IdentityPublic → Fingerprint) (sha256 : Bytes → Gid) (ctx : Gid)

/-- A call up to the end of its first section on the cache. -/
def begin (d : NameDesk) (task : NameTask) : NameDesk := { d with calls := d.calls ++ [task] }

def resume (d : NameDesk) (k : Nat) : NameTask → NameDesk
  | .spend now key rec =>
    match d.cache.spend now key with
    | none => { d with calls := d.calls.set k .done }
    | some cache => { d with cache, calls := d.calls.set k (.install key rec) }
  | .install key rec =>
    { d with
      cache := d.cache.install key rec
      calls := d.calls.set k .done
      accepted := d.accepted ++ [(key, rec.seq)] }
  | .drop sender => { d with cache := d.cache.drop sender, calls := d.calls.set k .done }
  | .done => d

def step (d : NameDesk) : Event → NameDesk
  | .presence attributed now bytes =>
    match NameCache.readPresence S fingerprint d.revocations ctx attributed now bytes with
    | none => d
    | some (key, rec) => if d.cache.fresh key rec then d.begin (.spend now key rec) else d
  | .nameTag sender tag => if d.cache.stale sha256 ctx sender tag then d.begin (.drop sender) else d
  | .resume k =>
    match d.calls[k]? with
    | none => d
    | some task => d.resume k task
  | .revoke r =>
    if (r.verify S).isOk then { d with revocations := insert (fingerprint r.account, r.subjectFp) d.revocations } else d

def new (revocations : Finset (Fingerprint × Fingerprint)) : NameDesk where
  cache := {}
  revocations := revocations
  calls := []
  accepted := []

def run (revocations : Finset (Fingerprint × Fingerprint)) (evs : List Event) : NameDesk :=
  evs.foldl (step S fingerprint sha256 ctx) (new revocations)

/-- A name tag fits the name that is cached for its sender, if there is one; and a presence is installed while it is
still newer than the cached one. -/
def Orderly (d : NameDesk) : Event → Prop
  | .nameTag sender tag => d.cache.stale sha256 ctx sender tag = false
  | .resume k => ∀ task ∈ d.calls[k]?, task.timely d.cache = true
  | _ => True

instance (d : NameDesk) (ev : Event) : Decidable (d.Orderly sha256 ctx ev) :=
  match ev with
  | .nameTag sender tag => inferInstanceAs (Decidable (d.cache.stale sha256 ctx sender tag = false))
  | .resume k => inferInstanceAs (Decidable (∀ task ∈ d.calls[k]?, task.timely d.cache = true))
  | .presence .. | .revoke .. => .isTrue trivial

end

theorem cache_presence_alone (S : Scheme) (fingerprint : IdentityPublic → Fingerprint) (sha256 : Bytes → Gid) (ctx : Gid)
    (d : NameDesk) (attributed : Fingerprint) (now : UInt64) (bytes : Bytes) (hidle : d.calls = []) :
    ([Event.presence attributed now bytes, .resume 0, .resume 0].foldl (step S fingerprint sha256 ctx) d).cache =
      d.cache.handlePresence S fingerprint d.revocations ctx attributed now bytes := by
  simp only [List.foldl_cons, List.foldl_nil, step, NameCache.handlePresence]
  cases NameCache.readPresence S fingerprint d.revocations ctx attributed now bytes with
  | none => simp [hidle]
  | some p =>
    obtain ⟨key, rec⟩ := p
    dsimp only
    cases hfresh : d.cache.fresh key rec with
    | false => simp [hidle]
    | true => cases hspend : d.cache.spend now key <;> simp [begin, hidle, resume, hspend]

/-! ## Sequence numbers -/

/-- Per peer, the sequence numbers that were installed rise, up to that of the cached record. -/
structure Inv (d : NameDesk) : Prop where
  rising : d.accepted.Pairwise fun a b => a.1 = b.1 → a.2 < b.2
  last : ∀ a ∈ d.accepted, ∃ rec, d.cache.names.lookup a.1 = some rec ∧ a.2 ≤ rec.seq
  keeps : ∀ sender, .drop sender ∉ d.calls

variable {S : Scheme} {fingerprint : IdentityPublic → Fingerprint} {sha256 : Bytes → Gid} {ctx : Gid} {d : NameDesk}

theorem Inv.of_names (h : d.Inv) {d' : NameDesk} (hnames : d'.cache.names = d.cache.names)
    (haccepted : d'.accepted = d.accepted) (hkeeps : ∀ sender, .drop sender ∉ d'.calls) : d'.Inv where
  rising := haccepted ▸ h.rising
  last a ha := hnames ▸ h.last a (haccepted ▸ ha)
  keeps := hkeeps

theorem Inv.drop_notMem_set (h : d.Inv) (k : Nat) {task : NameTask} (htask : ∀ sender, .drop sender ≠ task)
    (sender : Fingerprint) : .drop sender ∉ d.calls.set k task := fun hmem =>
  (List.mem_or_eq_of_mem_set hmem).elim (h.keeps sender) (htask sender)

theorem Inv.install (h : d.Inv) (k : Nat) {key : Fingerprint} {rec : NameRecord} (hfresh : d.cache.fresh key rec = true) :
    (d.resume k (.install key rec)).Inv := by
  have hlt : ∀ existing, d.cache.names.lookup key = some existing → existing.seq < rec.seq := fun existing hex => by
    simpa [NameCache.fresh, hex] using hfresh
  refine ⟨?_, fun a ha => ?_, h.drop_notMem_set k (by simp)⟩
  · refine List.pairwise_append.mpr ⟨h.rising, List.pairwise_singleton .., ?_⟩
    rintro a ha b hb heq
    obtain rfl := List.mem_singleton.mp hb
    obtain ⟨existing, hex, hle⟩ := h.last a ha
    rw [heq] at hex
    exact UInt64.lt_of_le_of_lt hle (hlt existing hex)
  · show ∃ r, (d.cache.names.insert key rec).lookup a.1 = some r ∧ a.2 ≤ r.seq
    rw [Table.lookup_insert_eq]
    rcases List.mem_append.mp ha with hold | hnew
    · obtain ⟨existing, hex, hle⟩ := h.last a hold
      split
      · next heq =>
        rw [heq] at hex
        exact ⟨rec, rfl, UInt64.le_of_lt (UInt64.lt_of_le_of_lt hle (hlt existing hex))⟩
      · exact ⟨existing, hex, hle⟩
    · obtain rfl := List.mem_singleton.mp hnew
      rw [if_pos rfl]
      exact ⟨rec, rfl, UInt64.le_refl _⟩

theorem Inv.step (h : d.Inv) (ev : Event) (hok : d.Orderly sha256 ctx ev) : (d.step S fingerprint sha256 ctx ev).Inv := by
  have hbegin (task : NameTask) (htask : ∀ sender, .drop sender ≠ task) : (d.begin task).Inv :=
    h.of_names rfl rfl fun sender hmem => (List.mem_append.mp hmem).elim (h.keeps sender)
      fun hmem => htask sender (List.mem_singleton.mp hmem)
  cases ev with
  | presence attributed now bytes =>
    rw [NameDesk.step]
    split
    · exact h
    · split
      · exact hbegin _ (by simp)
      · exact h
  | nameTag sender tag =>
    have hkeep : d.cache.stale sha256 ctx sender tag = false := hok
    rw [NameDesk.step]
    rwa [if_neg (by simp [hkeep])]
  | revoke r =>
    rw [NameDesk.step]
    split
    · exact h.of_names rfl rfl h.keeps
    · exact h
  | resume k =>
    rw [NameDesk.step]
    split
    · exact h
    · next task htask =>
      cases task with
      | spend now key rec =>
        rw [NameDesk.resume]
        split
        · exact h.of_names rfl rfl (h.drop_notMem_set k (by simp))
        · next cache hspend => exact h.of_names (NameCache.names_spend hspend) rfl (h.drop_notMem_set k (by simp))
      | install key rec => exact h.install k (hok _ htask)
      | drop sender => exact absurd (List.mem_of_getElem? htask) (h.keeps sender)
      | done => exact h

/-- In every run in which the name tags fit and no presence is overtaken between its check and its installation, the
sequence numbers that are installed for a peer rise strictly. -/
theorem accepted_rising (S : Scheme) (fingerprint : IdentityPublic → Fingerprint) (sha256 : Bytes → Gid) (ctx : Gid)
    (revocations : Finset (Fingerprint × Fingerprint)) (evs : List Event)
    (h : Run.Along (NameDesk.step S fingerprint sha256 ctx) (Orderly sha256 ctx) (new revocations) evs) :
    (run S fingerprint sha256 ctx revocations evs).accepted.Pairwise fun a b => a.1 = b.1 → a.2 < b.2 := by
  refine (h.invariant (I := Inv) (fun d ev hinv hok => hinv.step ev hok) ?_).rising
  exact ⟨.nil, fun a ha => absurd ha List.not_mem_nil, fun sender => List.not_mem_nil⟩

/-! ## A peer that is heard twice -/

namespace Sample

def context : Gid := padArr 32 [7]

/-- The phone announces a name, signed, at a sequence number. -/
def announced (seq : UInt64) (label : String) : Bytes :=
  (NamePresence.announce Scheme.plain seq IdentityChain.phoneChain label context (2 : UInt8)).encode

def heard (seq : UInt64) (label : String) : Event := .presence peerFp 900 (announced seq label)

def tagOf (label : String) : Bytes := nameIdTag (padArr 32) label context

def after (evs : List Event) : NameDesk := run Scheme.plain Env.plain.fingerprint (padArr 32) context ∅ evs

def orderly : List Event :=
  [heard 5 "fox", .resume 0, .resume 0, .nameTag peerFp (tagOf "fox"), heard 6 "owl", .resume 1, .resume 1]

theorem accepted_rising_orderly :
    (after orderly).accepted = [(peerFp, 5), (peerFp, 6)] ∧
    (after orderly).accepted.Pairwise fun a b => a.1 = b.1 → a.2 < b.2 := by
  exact ⟨by decide +kernel, accepted_rising _ _ _ _ _ _ (by decide +kernel)⟩

/-- After a tag that does not fit, the presence that was installed before is installed again. -/
def replayed : List Event :=
  [heard 5 "fox", .resume 0, .resume 0, .nameTag peerFp (tagOf "owl"), .resume 1, heard 5 "fox", .resume 2, .resume 2]

/-- Two connections deliver presences of the peer at the same time. -/
def overtaken : List Event :=
  [heard 5 "fox", heard 6 "owl", .resume 0, .resume 1, .resume 1, .resume 0]

theorem accepted_again : (after replayed).accepted = [(peerFp, 5), (peerFp, 5)] ∧
    (after overtaken).accepted = [(peerFp, 6), (peerFp, 5)] := by
  decide +kernel

end Sample
end NameDesk
end Talkrypt.Core
