import Talkrypt.Core.Commits

/-!
# Concurrent joins (`handle_keypackage`)

Every connection of the host has its own reader, so calls of `handle_keypackage` interleave wherever one
awaits: before the group lock, at every send, and before the roster is signed. A call takes its snapshot
of the roster when it adds the leaf and signs the snapshot later, with the epoch of that moment. If
another call adds a leaf in between, an old snapshot goes out under a new epoch, and members take it for
the newest roster (`stale_roster_wins`). If every call signs while its snapshot is still the roster, all
members end with the roster of the host (`rosters_converge`).
-/

namespace Talkrypt.Core
open TreeKem

variable {S : Scheme}

namespace Inner

/-- The part of `handle_keypackage` under the group lock, up to the first send: the Welcome, the epoch
that the commit applies to, the commit and the snapshot of the roster. -/
def addMember (i : Inner S) (r : RekeyCoins S) (peer : Fingerprint) (bytes : Bytes) :
    Inner S × Option (Welcome S × Nat × Commit S × List (Nat × Fingerprint)) :=
  match i.group with
  | none => (i, none)
  | some g =>
    match KeyPackage.decode S g.profile bytes with
    | .error _ => (i, none)
    | .ok kp =>
      match g.add r kp with
      | (g', .error _) => ({ i with group := some g' }, none)
      | (g', .ok (leaf, commit, welcome)) =>
        let roster : Table Nat Fingerprint := i.roster.insert leaf peer
        ({ i with group := some g', roster }, some (welcome, g.epoch, commit, roster.toList))

theorem handleKeyPackage_eq (i : Inner S) (r : RekeyCoins S) (peer : Fingerprint) (bytes : Bytes) :
    i.handleKeyPackage r peer bytes =
      if !i.admits peer then i.emit (.error ("refused group join from non-member " ++ shortHex6 peer))
      else match i.addMember r peer bytes with
        | (i', none) => i'
        | (i', some (welcome, fromEpoch, commit, snapshot)) =>
          let i' := (i'.route (.welcome (some welcome)) (.peer peer)).route (.commit fromEpoch (some commit)) .broadcast
          match i'.signedRosterFrame snapshot with
          | none => i'
          | some frame => i'.route frame .broadcast := by
  unfold handleKeyPackage addMember
  split
  · rfl
  · cases i.group with
    | none => rfl
    | some g =>
      dsimp only
      cases KeyPackage.decode S g.profile bytes with
      | error => rfl
      | ok kp =>
        dsimp only
        rcases g.add r kp with ⟨g', _ | ⟨leaf, commit, welcome⟩⟩ <;> rfl

/-- What a member does with a frame of the host about the membership. -/
def onHostFrame (i : Inner S) : Frame S → Inner S
  | .welcome welcome => i.handleWelcome welcome
  | .commit fromEpoch commit => i.handleCommit fromEpoch commit
  | .roster epoch entries sig => i.handleRoster epoch entries sig
  | _ => i

end Inner

namespace Joins

/-- A call of `handle_keypackage` that has been let in, by what it does when it next runs. -/
inductive Task (S : Scheme) where
  | adding (peer : Fingerprint) (bytes : Bytes) (r : RekeyCoins S)
  | welcoming (peer : Fingerprint) (welcome : Welcome S) (fromEpoch : Nat) (commit : Commit S)
      (snapshot : List (Nat × Fingerprint))
  | committing (fromEpoch : Nat) (commit : Commit S) (snapshot : List (Nat × Fingerprint))
  | committingTo (rest : List Fingerprint) (fromEpoch : Nat) (commit : Commit S)
      (snapshot : List (Nat × Fingerprint))
  | signing (snapshot : List (Nat × Fingerprint))
  | announcing (frame : Frame S)
  | announcingTo (rest : List Fingerprint) (frame : Frame S)
  | finished

def Task.isFinished : Task S → Bool
  | .finished => true
  | _ => false

structure World (S : Scheme) where
  host : Inner S
  /-- The peers that have sent something: the session with a peer cannot send before. -/
  heard : List Fingerprint
  tasks : List (Task S)
  start : Fingerprint → Inner S
  inbox : Fingerprint → List (Frame S)

inductive Event (S : Scheme) where
  | connect (peer : Fingerprint)
  | keyPackage (peer : Fingerprint) (bytes : Bytes) (r : RekeyCoins S)
  | resume (k : Nat)

namespace World

def founded (me : Fingerprint) (padding : Option Nat) (profile : KemProfile) (mySig : S.SigSeed)
    (leafSecret : S.Secret) (start : Fingerprint → Inner S) : World S where
  host := .founder me padding (.createWithSig profile mySig leafSecret)
  heard := []
  tasks := []
  start := start
  inbox _ := []

/-- A peer with all frames delivered, in the order of sending. -/
def member (w : World S) (fp : Fingerprint) : Inner S := (w.inbox fp).foldl Inner.onHostFrame (w.start fp)

def Linked (w : World S) (fp : Fingerprint) : Prop := fp ∈ w.host.connected ∧ fp ∈ w.heard

instance (w : World S) (fp : Fingerprint) : Decidable (w.Linked fp) := inferInstanceAs (Decidable (_ ∧ _))

def send (w : World S) (fp : Fingerprint) (frame : Frame S) : World S :=
  if w.Linked fp then
    { w with inbox := Function.update w.inbox fp (w.inbox fp ++ [frame]) }
  else w

def resume (w : World S) : Task S → World S × Task S
  | .adding peer bytes r =>
    match w.host.addMember r peer bytes with
    | (host, none) => ({ w with host }, .finished)
    | (host, some (welcome, fromEpoch, commit, snapshot)) =>
      ({ w with host }, .welcoming peer welcome fromEpoch commit snapshot)
  | .welcoming peer welcome fromEpoch commit snapshot =>
    (w.send peer (.welcome (some welcome)), .committing fromEpoch commit snapshot)
  | .committing fromEpoch commit snapshot => (w, .committingTo w.host.connected fromEpoch commit snapshot)
  | .committingTo [] _ _ snapshot => (w, .signing snapshot)
  | .committingTo (fp :: rest) fromEpoch commit snapshot =>
    (w.send fp (.commit fromEpoch (some commit)), .committingTo rest fromEpoch commit snapshot)
  | .signing snapshot =>
    match w.host.signedRosterFrame snapshot with
    | none => (w, .finished)
    | some frame => (w, .announcing frame)
  | .announcing frame => (w, .announcingTo w.host.connected frame)
  | .announcingTo [] _ => (w, .finished)
  | .announcingTo (fp :: rest) frame => (w.send fp frame, .announcingTo rest frame)
  | .finished => (w, .finished)

def step (w : World S) : Event S → World S
  | .connect peer => { w with host := { w.host with connected := w.host.connected ++ [peer] } }
  | .keyPackage peer bytes r =>
    if peer ∈ w.host.connected then
      if w.host.admits peer then { w with heard := peer :: w.heard, tasks := w.tasks ++ [.adding peer bytes r] }
      else { w with
        heard := peer :: w.heard
        host := w.host.emit (.error ("refused group join from non-member " ++ shortHex6 peer)) }
    else w
  | .resume k =>
    match w.tasks[k]? with
    | none => w
    | some t => { (w.resume t).1 with tasks := w.tasks.set k (w.resume t).2 }

/-- The steps considered: a call signs its snapshot while it still is the roster, and the epoch does not
wrap. -/
def Prompt (w : World S) : Event S → Prop
  | .resume k => (∀ g, w.host.group = some g → g.epoch + 1 < 2 ^ 32) ∧
    ∀ snapshot, w.tasks[k]? = some (.signing snapshot) →
      ∀ l, (Table.insertAll ∅ snapshot).lookup l = w.host.roster.lookup l
  | _ => True

end World

/-! ## The group of the host -/

structure Anchored (sk : S.SigSeed) (g : Group S) : Prop where
  inv : g.HostInv
  mySig : g.mySig = some sk
  key : g.leafSigKeys.lookup HOST_LEAF = some (S.sigPublic sk)

/-- A commit that leaves the signing key of the host alone. -/
structure Spares (c : Commit S) : Prop where
  proposals : ∀ p ∈ c.proposals, p.binds HOST_LEAF = none ∧ p ≠ .remove HOST_LEAF
  sigUpdate : c.sigUpdate = none

/-- A Welcome that gives the signing key of the host. -/
structure Greets (sk : S.SigSeed) (wel : Welcome S) : Prop where
  leaf : wel.yourLeaf ≠ HOST_LEAF
  key : (Table.insertAll ∅ (wel.sigKeys.map fun e => (e.1, e.2.2.1))).lookup HOST_LEAF = some (S.sigPublic sk)

section Anchored
variable {sk : S.SigSeed} {g g' : Group S} {r : RekeyCoins S}

theorem rekeyPath_eq_error {ps : List (Proposal S)} {su : Option (Nat × IdentityPublic × Bytes)} {e : CryptoError}
    (hme : g.me = 0) (h : g.rekeyPath r ps su = (g', .error e)) :
    g' = g.installPath (chainUp r.fresh (pathToRoot g.capacity 0)) := by
  unfold Group.rekeyPath at h
  simp only [hme] at h
  split at h
  · cases h
    rfl
  · cases h

theorem Anchored.makeRoom (h : Anchored sk g) (hfree : g.makeRoom.firstFreeLeaf ≠ none) :
    Anchored sk g.makeRoom := by
  have hgrown := Group.Grown.makeRoom h.inv.shape hfree
  exact ⟨h.inv.makeRoom hfree, hgrown.mySig.trans h.mySig, by rw [hgrown.sigKeys, h.key]⟩

theorem Anchored.installPath (h : Anchored sk g) (s : S.Secret) :
    Anchored sk (g.installPath (chainUp s (pathToRoot g.capacity 0))) :=
  ⟨⟨h.inv.shape.installPath h.inv.occupied s, h.inv.me, h.inv.occupied, h.inv.sigKeys, h.inv.pops⟩, h.mySig, h.key⟩

theorem Anchored.enactAdd (h : Anchored sk g) {leaf : Nat} {lp : S.Public} {sp : IdentityPublic} {pop : Bytes}
    (hcheck : g.checkProposal (.add leaf lp sp pop) = .ok ()) (hleaf : leaf ≠ HOST_LEAF) :
    Anchored sk (g.enactProposal (.add leaf lp sp pop)) := by
  refine ⟨h.inv.enactProposal hcheck nofun, h.mySig, ?_⟩
  rw [Group.enactProposal_sigKey (p := .add leaf lp sp pop) nofun, Proposal.binds, if_neg hleaf.symm, Option.none_or, h.key]

theorem Anchored.advance (h : Anchored sk g) (secret : S.Secret) : Anchored sk (g.advance secret) :=
  ⟨⟨⟨h.inv.shape.capacity, h.inv.shape.length, h.inv.shape.leaves, h.inv.shape.inner⟩, h.inv.me, h.inv.occupied,
    h.inv.sigKeys, h.inv.pops⟩, h.mySig, h.key⟩

theorem Anchored.greets (h : Anchored sk g) {leaf : Nat} (hleaf : leaf ≠ HOST_LEAF) (c : Commit S) :
    Greets sk (g.welcomeFor leaf c) := by
  refine ⟨hleaf, ?_⟩
  rw [h.inv.welcome_sigKeys, Table.lookup_insertAll, Table.lastOf_toList, h.key]
  rfl

theorem Anchored.add (h : Anchored sk g) {kp : KeyPackage S} {res : Except Fault (Nat × Commit S × Welcome S)}
    (hadd : g.add r kp = (g', res)) :
    Anchored sk g' ∧ ((∃ f, res = .error f ∧ g'.epoch = g.epoch) ∨
      ∃ leaf c wel, res = .ok (leaf, c, wel) ∧ g'.epoch = (g.epoch + 1) % 2 ^ 32 ∧ Greets sk wel ∧ Spares c) := by
  unfold Group.add at hadd
  split at hadd
  · cases hadd
    exact ⟨h, .inl ⟨_, rfl, rfl⟩⟩
  · next leaf hfree =>
    have hroom := h.makeRoom (hfree ▸ Option.some_ne_none _)
    have hepoch := (Group.Grown.makeRoom h.inv.shape (hfree ▸ Option.some_ne_none _)).epoch
    have hleaf : leaf ≠ HOST_LEAF := by
      rintro rfl
      exact absurd ((Group.firstFreeLeaf_eq_some hfree).2.symm.trans hroom.inv.occupied) Bool.false_ne_true
    simp only [Group.commitProposals, Group.applyProposals] at hadd
    cases hcheck : g.makeRoom.checkProposal (.add leaf kp.leafPublic kp.sigPublic kp.pop) with
    | error e =>
      simp only [hcheck] at hadd
      cases hadd
      exact ⟨hroom, .inl ⟨_, rfl, hepoch⟩⟩
    | ok =>
      simp only [hcheck] at hadd
      have henact := hroom.enactAdd hcheck hleaf
      split at hadd
      · next hrekey =>
        cases hadd
        rw [rekeyPath_eq_error henact.inv.me hrekey]
        exact ⟨henact.installPath r.fresh, .inl ⟨_, rfl, hepoch⟩⟩
      · next g₁ c hrekey =>
        cases hadd
        have hrekeyed := Group.rekeyPath_eq_ok henact.inv.me hrekey
        have hg' : Anchored sk g' := by
          rw [hrekeyed.group]
          exact (henact.installPath r.fresh).advance _
        refine ⟨hg', .inr ⟨leaf, c, _, rfl, ?_, hg'.greets hleaf c, ?_, hrekeyed.sigUpdate⟩⟩
        · rw [hrekeyed.group, ← hepoch]
          rfl
        · intro p hp
          rw [hrekeyed.proposals, List.mem_singleton] at hp
          subst hp
          exact ⟨if_neg hleaf.symm, by simp⟩

end Anchored

/-! ## The keys of the members -/

/-- An engine that knows the host's signing key, if it has a group. -/
structure Keyed (sk : S.SigSeed) (i : Inner S) : Prop where
  group : ∀ g, i.group = some g → g.leafSigKeys.lookup HOST_LEAF = some (S.sigPublic sk)
  pending : ∀ n c, i.pendingCommits.lookup n = some (some c) → Spares c

section Keyed
variable {sk : S.SigSeed} {i : Inner S}

variable {g : Group S}

theorem Spares.applyCommit {c : Commit S} (h : Spares c) :
    (g.applyCommit c).1.leafSigKeys.lookup HOST_LEAF = g.leafSigKeys.lookup HOST_LEAF := by
  refine Group.applyCommit_keeps (P := fun keys => keys.lookup HOST_LEAF = g.leafSigKeys.lookup HOST_LEAF) rfl ?_ ?_
  · intro p hp g' hg'
    obtain ⟨hbinds, hremove⟩ := h.proposals p hp
    rw [Group.enactProposal_sigKey hremove, hbinds, Option.none_or, hg']
  · intro sp pop hsu
    exact nomatch h.sigUpdate.symm.trans hsu

theorem Keyed.drained {g' : Group S} {pending pending' : Table Nat (Option (Commit S))}
    (hkey : g.leafSigKeys.lookup HOST_LEAF = some (S.sigPublic sk))
    (hspare : ∀ n c, pending.lookup n = some (some c) → Spares c) (h : Inner.Drained g pending g' pending') :
    g'.leafSigKeys.lookup HOST_LEAF = some (S.sigPublic sk) ∧
      ∀ n c, pending'.lookup n = some (some c) → Spares c := by
  have hafter : ∀ {g : Group S} {pending : Table Nat (Option (Commit S))},
      (∀ n c, pending.lookup n = some (some c) → Spares c) →
      ∀ n c, (Inner.afterTurn g pending).lookup n = some (some c) → Spares c := by
    intro g pending hspare n c hc
    rw [Inner.lookup_afterTurn] at hc
    split at hc
    · cases hc
    · exact hspare n c hc
  induction h with
  | wait hnone =>
    refine ⟨hkey, fun n c hc => ?_⟩
    rw [Inner.lookup_ahead] at hc
    split at hc
    · cases hc
    · exact hspare n c hc
  | garbage => exact ⟨hkey, hafter hspare⟩
  | @refuse g g' pending c e hc happly =>
    have hsame := (hspare _ c hc).applyCommit (g := g)
    rw [happly] at hsame
    exact ⟨hsame.trans hkey, hafter hspare⟩
  | @apply g g' g'' pending pending'' c hc happly _ ih =>
    have hsame := (hspare _ c hc).applyCommit (g := g)
    rw [happly] at hsame
    exact ih (hsame.trans hkey) (hafter hspare)

theorem Keyed.commit (h : Keyed sk i) {fromEpoch : Nat} {c : Commit S} (hc : Spares c) :
    Keyed sk (i.handleCommit fromEpoch (some c)) := by
  have hinsert : ∀ n c', (i.pendingCommits.insert fromEpoch (some c)).lookup n = some (some c') → Spares c' := by
    intro n c' hc'
    rw [Table.lookup_insert_eq] at hc'
    split at hc'
    · cases hc'
      exact hc
    · exact h.pending n c' hc'
  rcases i.handleCommit_eq fromEpoch (some c) with ⟨hnone, heq⟩ | ⟨g, g', pending', hg, hdrained, heq⟩
  · rw [heq]
    exact ⟨h.group, hinsert⟩
  · obtain ⟨hkey, hpending⟩ := Keyed.drained (h.group g hg) hinsert hdrained
    rw [heq]
    refine ⟨fun g₁ hg₁ => ?_, hpending⟩
    cases hg₁
    exact hkey

theorem Greets.join {wel : Welcome S} {kp : LeafKeyPair S} (h : Greets sk wel)
    (hjoin : Group.joinWithWelcome kp wel = .ok g) : g.leafSigKeys.lookup HOST_LEAF = some (S.sigPublic sk) := by
  obtain ⟨⟨⟩, -, hjoin⟩ := except_bind_eq_ok.mp hjoin
  have hkeys := Group.processUpdatePath_leafSigKeys (Group.joining kp wel) wel.commit
  split at hjoin
  · cases hjoin
  · next g₁ secret hprocess =>
    cases hjoin
    rw [hprocess] at hkeys
    have hlookup : (Group.joining kp wel).leafSigKeys.lookup HOST_LEAF = some (S.sigPublic sk) := by
      refine (Table.lookup_insert_eq ..).trans ?_
      rw [if_neg h.leaf.symm, h.key]
    exact (congrArg (AList.lookup HOST_LEAF) hkeys).trans hlookup

theorem Keyed.welcome (h : Keyed sk i) {wel : Welcome S} (hwel : Greets sk wel) :
    Keyed sk (i.handleWelcome (some wel)) := by
  unfold Inner.handleWelcome
  split
  · exact h
  · next kp hkp =>
    dsimp only
    split
    · exact ⟨h.group, h.pending⟩
    · next g hjoin =>
      have hkey := hwel.join hjoin
      split
      all_goals
        refine ⟨fun g' hg' => ?_, h.pending⟩
        cases hg'
        exact hkey

end Keyed

/-! ## What a frame does to a member -/

section Frames
variable {sk : S.SigSeed} {i : Inner S}

theorem handleWelcome_roster (i : Inner S) (welcome : Option (Welcome S)) :
    (i.handleWelcome welcome).roster = i.roster ∧ (i.handleWelcome welcome).lastRosterEpoch = i.lastRosterEpoch := by
  unfold Inner.handleWelcome
  split
  · exact ⟨rfl, rfl⟩
  · dsimp only
    split
    · exact ⟨rfl, rfl⟩
    · split
      · exact ⟨rfl, rfl⟩
      · split <;> exact ⟨rfl, rfl⟩

theorem handleCommit_roster (i : Inner S) (fromEpoch : Nat) (commit : Option (Commit S)) :
    (i.handleCommit fromEpoch commit).roster = i.roster ∧
    (i.handleCommit fromEpoch commit).lastRosterEpoch = i.lastRosterEpoch ∧
    ((i.handleCommit fromEpoch commit).group ≠ none → i.group ≠ none) := by
  rcases i.handleCommit_eq fromEpoch commit with ⟨-, heq⟩ | ⟨g, g', pending', hg, -, heq⟩
  · rw [heq]
    exact ⟨rfl, rfl, id⟩
  · rw [heq]
    exact ⟨rfl, rfl, fun _ => hg ▸ Option.some_ne_none g⟩

theorem handleRoster_group (i : Inner S) (epoch : Nat) (entries : List (Nat × Fingerprint)) (sig : Bytes) :
    (i.handleRoster epoch entries sig).group = i.group := by
  unfold Inner.handleRoster
  split
  · rfl
  · split <;> rfl

theorem handleRoster_signed (hsig : S.SigCorrect) (h : Keyed sk i) (epoch : Nat)
    (entries : List (Nat × Fingerprint)) :
    i.handleRoster epoch entries (S.sign sk (rosterTranscript epoch entries)) =
      if i.group ≠ none ∧ i.lastRosterEpoch ≤ epoch then
        { i with lastRosterEpoch := epoch, roster := Table.insertAll ∅ entries }
      else i := by
  unfold Inner.handleRoster
  cases hgroup : i.group with
  | none => simp
  | some g =>
    have hverify : g.verifyHostSig (rosterTranscript epoch entries)
        (S.sign sk (rosterTranscript epoch entries)) = true := by
      rw [Group.verifyHostSig, h.group g hgroup]
      exact congrArg Except.isOk (hsig sk (rosterTranscript epoch entries))
    simp [hverify]

end Frames

/-! ## The invariant -/

namespace World

/-- The engine has the roster of the host, of the current epoch. -/
def UpToDate (w : World S) (g : Group S) (i : Inner S) : Prop :=
  i.lastRosterEpoch = g.epoch ∧ ∀ l, i.roster.lookup l = w.host.roster.lookup l

/-- A host at rest, with members that have its roster. -/
structure Settled (sk : S.SigSeed) (w : World S) : Prop where
  host : ∃ g, w.host.group = some g ∧ Anchored sk g ∧ ∀ fp, (w.member fp).lastRosterEpoch ≤ g.epoch ∧
    ((w.member fp).group ≠ none → w.UpToDate g (w.member fp))
  tasks : w.tasks = []
  keyed : ∀ fp, Keyed sk (w.member fp)
  linked : ∀ fp, (w.member fp).group ≠ none → w.Linked fp

end World

/-- The call will still send `fp` the roster of the current epoch. -/
def Task.Owes (epoch : Nat) (fp : Fingerprint) : Task S → Prop
  | .welcoming .. | .committing .. | .committingTo .. | .signing _ => True
  | .announcing frame => ∃ entries sig, frame = .roster epoch entries sig
  | .announcingTo rest frame => fp ∈ rest ∧ ∃ entries sig, frame = .roster epoch entries sig
  | _ => False

namespace World

/-- A roster that the host signed, the current one if it is of the current epoch. -/
structure Signed (sk : S.SigSeed) (w : World S) (g : Group S) (epoch : Nat) (entries : List (Nat × Fingerprint))
    (sig : Bytes) : Prop where
  signature : sig = S.sign sk (rosterTranscript epoch entries)
  le : epoch ≤ g.epoch
  current : epoch = g.epoch → ∀ l, (Table.insertAll ∅ entries).lookup l = w.host.roster.lookup l

/-- Some call will still send `fp` the roster of the current epoch. -/
def Owed (w : World S) (g : Group S) (fp : Fingerprint) : Prop := ∃ t ∈ w.tasks, t.Owes g.epoch fp

inductive Sends (sk : S.SigSeed) (w : World S) (g : Group S) (fp : Fingerprint) : Frame S → Prop
  | welcome {wel : Welcome S} (h : Greets sk wel) (howed : w.Owed g fp) : Sends sk w g fp (.welcome (some wel))
  | commit {n : Nat} {c : Commit S} (h : Spares c) : Sends sk w g fp (.commit n (some c))
  | roster {epoch : Nat} {entries : List (Nat × Fingerprint)} {sig : Bytes} (h : w.Signed sk g epoch entries sig) :
    Sends sk w g fp (.roster epoch entries sig)

end World

def Task.Genuine (sk : S.SigSeed) (w : World S) (g : Group S) : Task S → Prop
  | .adding peer _ _ => w.Linked peer
  | .welcoming peer wel _ c _ => w.Linked peer ∧ Greets sk wel ∧ Spares c
  | .committing _ c _ | .committingTo _ _ c _ => Spares c
  | .announcing frame | .announcingTo _ frame =>
    ∃ epoch entries sig, frame = .roster epoch entries sig ∧ w.Signed sk g epoch entries sig
  | _ => True

namespace World

/-- The engine of a peer: if it is a member, it has the current roster or some call will send it. -/
structure Awaits (sk : S.SigSeed) (w : World S) (g : Group S) (fp : Fingerprint) (i : Inner S) : Prop where
  keyed : Keyed sk i
  epoch : i.lastRosterEpoch ≤ g.epoch
  linked : i.group ≠ none → w.Linked fp
  level : i.group ≠ none → w.UpToDate g i ∨ w.Owed g fp

structure Inv (sk : S.SigSeed) (w : World S) (g : Group S) : Prop where
  group : w.host.group = some g
  anchored : Anchored sk g
  tasks : ∀ t ∈ w.tasks, t.Genuine sk w g
  members : ∀ fp, w.Awaits sk g fp (w.member fp)

section Inv
variable {sk : S.SigSeed} {w : World S} {g g' : Group S} {fp : Fingerprint}

theorem send_eq (w : World S) (fp : Fingerprint) (frame : Frame S) :
    ∃ inbox, w.send fp frame = { w with inbox } := by
  unfold send
  split
  · exact ⟨_, rfl⟩
  · exact ⟨_, rfl⟩

theorem member_send (w : World S) (fp fp' : Fingerprint) (frame : Frame S) :
    (w.send fp frame).member fp' =
      if fp' = fp ∧ w.Linked fp then (w.member fp').onHostFrame frame else w.member fp' := by
  unfold send
  by_cases hlinked : w.Linked fp
  · rw [if_pos hlinked]
    by_cases heq : fp' = fp
    · subst heq
      simp [member, hlinked]
    · simp [member, heq]
  · rw [if_neg hlinked, if_neg fun h => hlinked h.2]

theorem Awaits.upToDate (hsig : S.SigCorrect) {i : Inner S} (h : w.Awaits sk g fp i) (hjoined : i.group ≠ none)
    {entries : List (Nat × Fingerprint)} {sig : Bytes} (hsigned : w.Signed sk g g.epoch entries sig) :
    w.UpToDate g (i.handleRoster g.epoch entries sig) := by
  rw [hsigned.signature, handleRoster_signed hsig h.keyed, if_pos ⟨hjoined, h.epoch⟩]
  exact ⟨rfl, hsigned.current rfl⟩

theorem Awaits.receive (hsig : S.SigCorrect) {i : Inner S} (h : w.Awaits sk g fp i) (hlinked : w.Linked fp)
    {frame : Frame S} (hframe : w.Sends sk g fp frame) : w.Awaits sk g fp (i.onHostFrame frame) := by
  cases hframe with
  | @welcome wel hgreets howed =>
    obtain ⟨-, hepoch⟩ := handleWelcome_roster i (some wel)
    exact ⟨h.keyed.welcome hgreets, hepoch.le.trans h.epoch, fun _ => hlinked, fun _ => .inr howed⟩
  | @commit n c hspares =>
    obtain ⟨hroster, hepoch, hgroup⟩ := handleCommit_roster i n (some c)
    refine ⟨h.keyed.commit hspares, hepoch.le.trans h.epoch, fun _ => hlinked, fun hjoined => ?_⟩
    refine (h.level (hgroup hjoined)).imp_left fun hup => ⟨hepoch.trans hup.1, fun l => ?_⟩
    rw [← hup.2 l]
    exact congrArg (AList.lookup l) hroster
  | @roster epoch entries sig hsigned =>
    by_cases haccept : i.group ≠ none ∧ i.lastRosterEpoch ≤ epoch
    · have heq : i.handleRoster epoch entries sig =
          { i with lastRosterEpoch := epoch, roster := Table.insertAll ∅ entries } := by
        rw [hsigned.signature, handleRoster_signed hsig h.keyed, if_pos haccept]
      rw [Inner.onHostFrame, heq]
      refine ⟨⟨h.keyed.group, h.keyed.pending⟩, hsigned.le, fun _ => hlinked, fun hjoined => ?_⟩
      refine (h.level hjoined).imp_left fun hup => ?_
      -- a member that is up to date accepts no roster of an earlier epoch
      have hcurrent : epoch = g.epoch := le_antisymm hsigned.le (hup.1 ▸ haccept.2)
      exact ⟨hcurrent, hsigned.current hcurrent⟩
    · have heq : i.handleRoster epoch entries sig = i := by
        rw [hsigned.signature, handleRoster_signed hsig h.keyed, if_neg haccept]
      rw [Inner.onHostFrame, heq]
      exact h

theorem genuine_mono {t : Task S} (h : t.Genuine sk w g) {w' : World S}
    (hlinked : ∀ fp, w.Linked fp → w'.Linked fp)
    (hsigned : ∀ epoch entries sig, w.Signed sk g epoch entries sig → w'.Signed sk g' epoch entries sig) :
    t.Genuine sk w' g' := by
  cases t with
  | adding peer => exact hlinked peer h
  | welcoming peer => exact ⟨hlinked peer h.1, h.2⟩
  | committing | committingTo => exact h
  | announcing | announcingTo =>
    obtain ⟨epoch, entries, sig, hframe, hs⟩ := h
    exact ⟨epoch, entries, sig, hframe, hsigned epoch entries sig hs⟩
  | signing | finished => trivial

theorem Inv.send (hsig : S.SigCorrect) (h : w.Inv sk g) {frame : Frame S} (hframe : w.Sends sk g fp frame) :
    (w.send fp frame).Inv sk g := by
  have hmember : ∀ fp', w.Awaits sk g fp' ((w.send fp frame).member fp') := by
    intro fp'
    rw [member_send]
    split
    · next hfp =>
      obtain ⟨rfl, hlinked⟩ := hfp
      exact (h.members fp').receive hsig hlinked hframe
    · exact h.members fp'
  obtain ⟨inbox, heq⟩ := w.send_eq fp frame
  rw [heq] at hmember ⊢
  refine ⟨h.group, h.anchored, fun t ht => genuine_mono (h.tasks t ht) (fun _ hl => hl) ?_, fun fp' => ?_⟩
  · exact fun _ _ _ hs => ⟨hs.signature, hs.le, hs.current⟩
  · exact ⟨(hmember fp').keyed, (hmember fp').epoch, (hmember fp').linked, (hmember fp').level⟩

/-! ## Steps -/

section Task
variable {k : Nat} {t t' : Task S}

theorem Owed.setTask (h : w.Owed g fp) (ht : w.tasks[k]? = some t) (t' : Task S) :
    t.Owes g.epoch fp ∨ ({ w with tasks := w.tasks.set k t' } : World S).Owed g fp := by
  obtain ⟨t₁, hmem, howes⟩ := h
  obtain ⟨j, hj⟩ := List.mem_iff_getElem?.mp hmem
  by_cases hjk : k = j
  · subst hjk
    cases ht.symm.trans hj
    exact .inl howes
  · refine .inr ⟨t₁, List.mem_of_getElem? (i := j) ?_, howes⟩
    rw [List.getElem?_set_ne hjk, hj]

theorem mem_setTask (ht : w.tasks[k]? = some t) (t' : Task S) : t' ∈ w.tasks.set k t' :=
  List.mem_of_getElem? (List.getElem?_set_self (List.getElem?_eq_some_iff.mp ht).1)

theorem Inv.setTask (h : w.Inv sk g) (ht : w.tasks[k]? = some t) (hgenuine : t'.Genuine sk w g)
    (howes : ∀ fp, (w.member fp).group ≠ none → t.Owes g.epoch fp →
      t'.Owes g.epoch fp ∨ w.UpToDate g (w.member fp)) :
    ({ w with tasks := w.tasks.set k t' } : World S).Inv sk g := by
  have hmono : ∀ {t₁ : Task S}, t₁.Genuine sk w g →
      t₁.Genuine sk ({ w with tasks := w.tasks.set k t' } : World S) g := fun ht₁ =>
    genuine_mono ht₁ (fun _ hl => hl) fun _ _ _ hs => ⟨hs.signature, hs.le, hs.current⟩
  refine ⟨h.group, h.anchored, fun t₁ hmem => ?_, fun fp => ?_⟩
  · rcases List.mem_or_eq_of_mem_set hmem with hold | rfl
    · exact hmono (h.tasks t₁ hold)
    · exact hmono hgenuine
  · have hm := h.members fp
    refine ⟨hm.keyed, hm.epoch, hm.linked, fun hjoined => ?_⟩
    rcases hm.level hjoined with hup | howed
    · exact .inl hup
    · rcases howed.setTask ht t' with howe | howed'
      · rcases howes fp hjoined howe with howe' | hup
        · exact .inr ⟨t', mem_setTask ht t', howe'⟩
        · exact .inl hup
      · exact .inr howed'

theorem Inv.sendOn (hsig : S.SigCorrect) (h : w.Inv sk g) (ht : w.tasks[k]? = some t) {frame : Frame S}
    (hframe : w.Sends sk g fp frame) (hgenuine : t'.Genuine sk w g)
    (howes : ∀ fp', (w.member fp').group ≠ none → t.Owes g.epoch fp' →
      t'.Owes g.epoch fp' ∨ w.UpToDate g ((w.send fp frame).member fp'))
    (hjoins : ∀ fp', ((w.send fp frame).member fp').group ≠ none → (w.member fp').group ≠ none ∨
      t'.Owes g.epoch fp') :
    ({ w.send fp frame with tasks := w.tasks.set k t' } : World S).Inv sk g := by
  have hsent := h.send hsig hframe
  obtain ⟨inbox, heq⟩ := w.send_eq fp frame
  rw [heq] at hsent howes hjoins ⊢
  refine hsent.setTask ht ?_ fun fp' hjoined howe => ?_
  · exact genuine_mono hgenuine (fun _ hl => hl) fun _ _ _ hs => ⟨hs.signature, hs.le, hs.current⟩
  · rcases hjoins fp' hjoined with hbefore | howe'
    · exact howes fp' hbefore howe
    · exact .inl howe'

theorem Inv.setGroup (h : w.Inv sk g) (hg' : Anchored sk g') (hepoch : g'.epoch = g.epoch) :
    ({ w with host := { w.host with group := some g' } } : World S).Inv sk g' := by
  refine ⟨rfl, hg', fun t ht => genuine_mono (h.tasks t ht) (fun _ hl => hl) fun _ _ _ hs => ?_, fun fp => ?_⟩
  · exact ⟨hs.signature, hepoch ▸ hs.le, hepoch ▸ hs.current⟩
  · have hm := h.members fp
    refine ⟨hm.keyed, hepoch ▸ hm.epoch, hm.linked, fun hjoined => ?_⟩
    rw [UpToDate, Owed, hepoch]
    exact hm.level hjoined

theorem Inv.added (h : w.Inv sk g) (ht : w.tasks[k]? = some t) (hg' : Anchored sk g') (hepoch : g'.epoch = g.epoch + 1)
    {roster : Table Nat Fingerprint} (hgenuine : t'.Genuine sk w g) (howes : ∀ fp, t'.Owes g'.epoch fp) :
    ({ w with host := { w.host with group := some g', roster }, tasks := w.tasks.set k t' } : World S).Inv sk g' := by
  have hmono : ∀ {t₁ : Task S}, t₁.Genuine sk w g → t₁.Genuine sk
      ({ w with host := { w.host with group := some g', roster }, tasks := w.tasks.set k t' } : World S) g' := by
    refine fun ht₁ => genuine_mono ht₁ (fun _ hl => hl) fun epoch _ _ hs => ⟨hs.signature, ?_, fun heq => ?_⟩
    · have := hs.le
      omega
    · have := hs.le
      omega
  refine ⟨rfl, hg', fun t₁ hmem => ?_, fun fp => ?_⟩
  · rcases List.mem_or_eq_of_mem_set hmem with hold | rfl
    · exact hmono (h.tasks t₁ hold)
    · exact hmono hgenuine
  · have hm := h.members fp
    refine ⟨hm.keyed, hm.epoch.trans (by omega), hm.linked, fun _ => ?_⟩
    exact .inr ⟨t', mem_setTask ht t', howes fp⟩

theorem Inv.adding (h : w.Inv sk g) {peer : Fingerprint} {bytes : Bytes} {r : RekeyCoins S}
    (ht : w.tasks[k]? = some (.adding peer bytes r)) (hwrap : g.epoch + 1 < 2 ^ 32) :
    ∃ g', ({ (w.resume (.adding peer bytes r)).1 with
      tasks := w.tasks.set k (w.resume (.adding peer bytes r)).2 } : World S).Inv sk g' := by
  have hlinked : w.Linked peer := h.tasks _ (List.mem_of_getElem? ht)
  have hidle : ({ w with tasks := w.tasks.set k .finished } : World S).Inv sk g :=
    h.setTask ht trivial fun _ _ howes => howes.elim
  simp only [resume, Inner.addMember, h.group]
  cases KeyPackage.decode S g.profile bytes with
  | error => exact ⟨g, hidle⟩
  | ok kp =>
    dsimp only
    cases hadd : g.add r kp with
    | mk g' res =>
      obtain ⟨hg', ⟨f, rfl, hepoch⟩ | ⟨leaf, c, wel, rfl, hepoch, hgreets, hspares⟩⟩ := h.anchored.add hadd
      · exact ⟨g', (h.setGroup hg' hepoch).setTask ht trivial fun _ _ howes => howes.elim⟩
      · rw [Nat.mod_eq_of_lt hwrap] at hepoch
        exact ⟨g', h.added ht hg' hepoch ⟨hlinked, hgreets, hspares⟩ fun _ => trivial⟩

theorem signedRosterFrame_eq (h : w.Inv sk g) (snapshot : List (Nat × Fingerprint)) :
    w.host.signedRosterFrame snapshot =
      some (.roster g.epoch snapshot (S.sign sk (rosterTranscript g.epoch snapshot))) := by
  have hme : g.me = HOST_LEAF := h.anchored.inv.me
  simp [Inner.signedRosterFrame, h.group, Group.signAsHost, hme, h.anchored.mySig]

theorem Inv.announce (hsig : S.SigCorrect) (h : w.Inv sk g) {rest : List Fingerprint} {frame : Frame S}
    (ht : w.tasks[k]? = some (.announcingTo (fp :: rest) frame)) :
    ({ w.send fp frame with tasks := w.tasks.set k (.announcingTo rest frame) } : World S).Inv sk g := by
  have hgenuine := h.tasks _ (List.mem_of_getElem? ht)
  obtain ⟨epoch, entries, sig, rfl, hsigned⟩ := hgenuine
  refine h.sendOn hsig ht (.roster hsigned) ⟨epoch, entries, sig, rfl, hsigned⟩ ?_ fun fp' hjoined => ?_
  · rintro fp' hjoined ⟨hmem, entries', sig', hframe⟩
    obtain ⟨rfl, rfl, rfl⟩ := Frame.roster.inj hframe
    by_cases hfp : fp' = fp
    · subst hfp
      refine .inr ?_
      rw [member_send, if_pos ⟨rfl, (h.members fp').linked hjoined⟩]
      exact (h.members fp').upToDate hsig hjoined hsigned
    · exact .inl ⟨(List.mem_cons.mp hmem).resolve_left hfp, entries, sig, rfl⟩
  · refine .inl ?_
    rw [member_send] at hjoined
    split at hjoined
    · rwa [Inner.onHostFrame, handleRoster_group] at hjoined
    · exact hjoined

theorem Inv.resume (hsig : S.SigCorrect) (h : w.Inv sk g) (ht : w.tasks[k]? = some t) (hwrap : g.epoch + 1 < 2 ^ 32)
    (hprompt : ∀ snapshot, t = .signing snapshot →
      ∀ l, (Table.insertAll ∅ snapshot).lookup l = w.host.roster.lookup l) :
    ∃ g', ({ (w.resume t).1 with tasks := w.tasks.set k (w.resume t).2 } : World S).Inv sk g' := by
  have hmem := List.mem_of_getElem? ht
  have hgenuine := h.tasks t hmem
  cases t with
  | adding peer bytes r => exact h.adding ht hwrap
  | welcoming peer wel fromEpoch c snapshot =>
    refine ⟨g, h.sendOn hsig ht (.welcome hgenuine.2.1 ⟨_, hmem, trivial⟩) hgenuine.2.2 ?_ ?_⟩
    · exact fun _ _ _ => .inl trivial
    · exact fun _ _ => .inr trivial
  | committing fromEpoch c snapshot => exact ⟨g, h.setTask ht hgenuine fun _ _ _ => .inl trivial⟩
  | committingTo rest fromEpoch c snapshot =>
    cases rest with
    | nil => exact ⟨g, h.setTask ht trivial fun _ _ _ => .inl trivial⟩
    | cons fp rest =>
      refine ⟨g, h.sendOn hsig ht (.commit hgenuine) hgenuine ?_ ?_⟩
      · exact fun _ _ _ => .inl trivial
      · exact fun _ _ => .inr trivial
  | signing snapshot =>
    simp only [World.resume, signedRosterFrame_eq h]
    refine ⟨g, h.setTask ht ⟨g.epoch, snapshot, _, rfl, rfl, le_rfl, fun _ => hprompt snapshot rfl⟩ ?_⟩
    exact fun _ _ _ => .inl ⟨snapshot, _, rfl⟩
  | announcing frame =>
    refine ⟨g, h.setTask ht hgenuine fun fp hjoined howes => ?_⟩
    exact .inl ⟨((h.members fp).linked hjoined).1, howes⟩
  | announcingTo rest frame =>
    cases rest with
    | nil => exact ⟨g, h.setTask ht trivial fun _ _ howes => nomatch howes.1⟩
    | cons fp rest => exact ⟨g, h.announce hsig ht⟩
  | finished => exact ⟨g, h.setTask ht trivial fun _ _ howes => howes.elim⟩

end Task

theorem Inv.widen (h : w.Inv sk g) {w' : World S} (hgroup : w'.host.group = w.host.group)
    (hroster : w'.host.roster = w.host.roster) (hmember : ∀ fp, w'.member fp = w.member fp)
    (hlinked : ∀ fp, w.Linked fp → w'.Linked fp) (hsub : w.tasks ⊆ w'.tasks)
    (hnew : ∀ t ∈ w'.tasks, t ∈ w.tasks ∨ t.Genuine sk w' g) : w'.Inv sk g := by
  refine ⟨hgroup.trans h.group, h.anchored, fun t ht => ?_, fun fp => ?_⟩
  · refine (hnew t ht).elim (fun hold => genuine_mono (h.tasks t hold) hlinked fun _ _ _ hs => ?_) id
    exact ⟨hs.signature, hs.le, by rw [hroster]; exact hs.current⟩
  · have hm := h.members fp
    rw [hmember]
    refine ⟨hm.keyed, hm.epoch, fun hjoined => hlinked fp (hm.linked hjoined), fun hjoined => ?_⟩
    rcases hm.level hjoined with hup | ⟨t, ht, howes⟩
    · exact .inl ⟨hup.1, by rw [hroster]; exact hup.2⟩
    · exact .inr ⟨t, hsub ht, howes⟩

theorem Inv.step (hsig : S.SigCorrect) (h : w.Inv sk g) (ev : Event S) (hok : w.Prompt ev) :
    ∃ g', (w.step ev).Inv sk g' := by
  cases ev with
  | connect peer =>
    exact ⟨g, h.widen rfl rfl (fun _ => rfl) (fun fp hfp => ⟨List.mem_append_left _ hfp.1, hfp.2⟩)
      (List.Subset.refl _) fun t ht => .inl ht⟩
  | keyPackage peer bytes r =>
    simp only [World.step]
    split
    · next hconnected =>
      split
      · refine ⟨g, h.widen rfl rfl (fun _ => rfl) (fun fp hfp => ⟨hfp.1, List.mem_cons_of_mem _ hfp.2⟩)
          (List.subset_append_left _ _) fun t ht => ?_⟩
        refine (List.mem_append.mp ht).imp_right fun hnew => ?_
        obtain rfl := List.mem_singleton.mp hnew
        exact ⟨hconnected, List.mem_cons_self⟩
      · exact ⟨g, h.widen rfl rfl (fun _ => rfl) (fun fp hfp => ⟨hfp.1, List.mem_cons_of_mem _ hfp.2⟩)
          (List.Subset.refl _) fun t ht => .inl ht⟩
    · exact ⟨g, h⟩
  | resume k =>
    simp only [World.step]
    split
    · exact ⟨g, h⟩
    · next t ht =>
      exact h.resume hsig ht (hok.1 g h.group) fun snapshot hs => hok.2 snapshot (hs ▸ ht)

/-! ## Convergence -/

theorem Settled.inv (h : w.Settled sk) : ∃ g, w.Inv sk g := by
  obtain ⟨g, hg, hanchored, hup⟩ := h.host
  refine ⟨g, hg, hanchored, fun t ht => ?_, fun fp => ?_⟩
  · rw [h.tasks] at ht
    cases ht
  · exact ⟨h.keyed fp, (hup fp).1, h.linked fp, fun hjoined => .inl ((hup fp).2 hjoined)⟩

/-- **Rosters converge.** From a host at rest, in every interleaving of joins in which each call signs its
snapshot while that is still the roster: once all calls are finished, every member has the roster of the
host. -/
theorem rosters_converge (hsig : S.SigCorrect) (hw : w.Settled sk) {evs : List (Event S)}
    (h : Run.Along World.step Prompt w evs)
    (hdone : ∀ t ∈ (evs.foldl World.step w).tasks, t.isFinished = true) {fp : Fingerprint}
    (hjoined : ((evs.foldl World.step w).member fp).group ≠ none) (l : Nat) :
    ((evs.foldl World.step w).member fp).roster.lookup l = (evs.foldl World.step w).host.roster.lookup l := by
  have hinv : ∃ g, (evs.foldl World.step w).Inv sk g := by
    refine h.invariant (I := fun w => ∃ g, w.Inv sk g) ?_ hw.inv
    rintro w ev ⟨g, hg⟩ hok
    exact hg.step hsig ev hok
  obtain ⟨g, hg⟩ := hinv
  rcases (hg.members fp).level hjoined with hup | ⟨t, ht, howes⟩
  · exact hup.2 l
  · have hfinished := hdone t ht
    cases t with
    | finished => exact howes.elim
    | _ => cases hfinished

end Inv

theorem settled_founded (hsig : S.SigCorrect) (me : Fingerprint) (padding : Option Nat) (profile : KemProfile)
    (mySig : S.SigSeed) (leafSecret : S.Secret) (kp : Fingerprint → LeafKeyPair S) :
    (founded me padding profile mySig leafSecret fun fp => .joiner fp padding (kp fp)).Settled mySig := by
  have hinv := Group.HostInv.createWithSig hsig profile mySig leafSecret
  refine ⟨⟨_, rfl, ⟨⟨⟨hinv.shape.capacity, hinv.shape.length, hinv.shape.leaves, hinv.shape.inner⟩, hinv.me,
    hinv.occupied, hinv.sigKeys, hinv.pops⟩, rfl, rfl⟩, fun fp => ⟨Nat.zero_le _, ?_⟩⟩, rfl, fun fp => ⟨nofun, nofun⟩, ?_⟩
  · exact fun hjoined => absurd rfl hjoined
  · exact fun fp hjoined => absurd rfl hjoined

/-! ## Two joins -/

/-- The snapshot that is signed is the roster itself. -/
def promptly (w : World S) : Event S → Bool
  | .resume k => w.host.group.all (fun g => g.epoch + 1 < 2 ^ 32) &&
    match w.tasks[k]? with
    | some (.signing snapshot) => snapshot = w.host.roster.toList
    | _ => true
  | _ => true

theorem prompt_of_promptly {w : World S} {ev : Event S} (h : w.promptly ev = true) : w.Prompt ev := by
  cases ev with
  | resume k =>
    simp only [promptly, Bool.and_eq_true] at h
    refine ⟨fun g hg => by simpa [hg] using h.1, fun snapshot ht l => ?_⟩
    have hsnapshot : snapshot = w.host.roster.toList := by simpa [ht] using h.2
    rw [hsnapshot, Table.lookup_insertAll, Table.lastOf_toList, AList.lookup_empty, Option.or_none]
  | _ => trivial

end World

def guestFp : Fingerprint := padArr 48 [3]

def guestKeys (fp : Fingerprint) : LeafKeyPair Scheme.plain :=
  if fp = peerFp then TreeKem.World.plainKeys 20 101 else TreeKem.World.plainKeys 21 102

def plainWorld : World Scheme.plain :=
  .founded hostFp none .pqPure (100 : UInt8) (10 : UInt8) fun fp => .joiner fp none (guestKeys fp)

def arrivals : List (Event Scheme.plain) :=
  [.connect peerFp, .connect guestFp, .keyPackage peerFp (packageBytes 20 101) (TreeKem.World.plainCoins 11),
    .keyPackage guestFp (packageBytes 21 102) (TreeKem.World.plainCoins 12)]

/-- The first call signs before the second one adds, and sends its roster after the second one has. -/
def orderlyRun : List (Event Scheme.plain) :=
  arrivals ++ List.replicate 7 (.resume 0) ++ List.replicate 11 (.resume 1) ++ List.replicate 4 (.resume 0)

/-- The second call adds its leaf before the first one signs, and the first one sends last. -/
def racingRun : List (Event Scheme.plain) :=
  arrivals ++ [.resume 0, .resume 1] ++ List.replicate 10 (.resume 1) ++ List.replicate 10 (.resume 0)

theorem all_finished {ts : List (Task S)} (h : ts.all Task.isFinished = true) : ∀ t ∈ ts, t.isFinished = true :=
  List.all_eq_true.mp h

theorem rosters_converge_twice :
    (orderlyRun.foldl World.step plainWorld).host.roster.toList.length = 3 ∧
      ∀ fp ∈ [peerFp, guestFp], ∀ l, ((orderlyRun.foldl World.step plainWorld).member fp).roster.lookup l =
        (orderlyRun.foldl World.step plainWorld).host.roster.lookup l := by
  have hprompt : Run.Along World.step (fun w ev => World.promptly w ev = true) plainWorld orderlyRun := by
    decide +kernel
  have hjoined : ∀ fp ∈ [peerFp, guestFp],
      ((orderlyRun.foldl World.step plainWorld).member fp).group.isSome = true := by decide +kernel
  refine ⟨by decide +kernel, fun fp hfp l => ?_⟩
  refine World.rosters_converge Scheme.plain_lawful.verify_sign
    (World.settled_founded Scheme.plain_lawful.verify_sign hostFp none .pqPure (100 : UInt8) (10 : UInt8) guestKeys)
    (hprompt.mono fun _ _ => World.prompt_of_promptly) (all_finished (by decide +kernel)) ?_ l
  exact Option.isSome_iff_ne_none.mp (hjoined fp hfp)

/-- **An old roster wins**: both peers have joined and all calls are finished. The host lists both at leaves
1 and 2, and the roster of each of them lacks leaf 2, although it is of the current epoch. -/
theorem stale_roster_wins :
    plainWorld.Settled (100 : UInt8) ∧
    (∀ t ∈ (racingRun.foldl World.step plainWorld).tasks, t.isFinished = true) ∧
    (racingRun.foldl World.step plainWorld).host.roster.lookup 2 = some guestFp ∧
    ∀ fp ∈ [peerFp, guestFp],
      ((racingRun.foldl World.step plainWorld).member fp).group.map (·.epoch) = some 2 ∧
      ((racingRun.foldl World.step plainWorld).member fp).lastRosterEpoch = 2 ∧
      ((racingRun.foldl World.step plainWorld).member fp).roster.lookup 2 = none := by
  refine ⟨World.settled_founded Scheme.plain_lawful.verify_sign hostFp none .pqPure (100 : UInt8) (10 : UInt8)
    guestKeys, all_finished (by decide +kernel), by decide +kernel, by decide +kernel⟩

end Joins
end Talkrypt.Core
