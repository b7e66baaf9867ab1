import Talkrypt.Core.Commits
import Talkrypt.Core.LeafAccounts

/-!
# Redelivered frames

The handlers of flooded frames record a frame before they check it. A frame that comes too early, before
the group, the roster or the tree has what it depends on, is recorded and dropped; when it comes again, it
is dropped because it was recorded (`early_frames_are_lost`). It has the effect of a first delivery exactly
if the dedup set has forgotten it in between, or there is no effect (`redelivery_iff`).
-/

namespace Talkrypt.Core
open TreeKem

variable {S : Scheme}

def SeenSet.forget (s : SeenSet) (id : Gid) : SeenSet := ⟨s.order.filter (· ≠ id), s.set.erase id⟩

def Frame.flooded : Frame S → Option Bytes
  | .groupMsg bytes | .routeDescriptor bytes | .leafSigCert bytes => some bytes
  | _ => none

namespace Inner

def setSeen (i : Inner S) (seen : SeenSet) : Inner S := { i with seen }

def SameButSeen (i i' : Inner S) : Prop := i'.setSeen i.seen = i

def unseen (i : Inner S) (gid : Gid) : Inner S := i.setSeen (i.seen.forget gid)

theorem record_eq (sha256 : Bytes → Gid) (i : Inner S) (bytes : Bytes) :
    i.record sha256 bytes =
      if sha256 bytes ∈ i.seen.set then none else some (i.setSeen (i.seen.insert (sha256 bytes)).1) := by
  unfold record SeenSet.insert
  split
  · next seen heq =>
    split at heq
    · next hmem => rw [if_pos hmem]
    · dsimp only at heq
      split at heq
      · split at heq <;> cases heq
      · cases heq
  · next seen heq =>
    split at heq
    · cases heq
    · next hmem =>
      rw [if_neg hmem, if_neg hmem, heq]
      rfl

/-! ## The rest of the handlers -/

section Rest
variable (M : Messaging S) (sha256 : Bytes → Gid) (fingerprint : IdentityPublic → Fingerprint)

def openGroupMsg (i : Inner S) (now : UInt64) (peer : Fingerprint) (gct : Bytes) : Inner S :=
  match i.group with
  | none => i
  | some g =>
    match g.decryptVerified M gct with
    | (g, .error _) => { i with group := some g }
    | (g, .ok pt) =>
      (({ i with group := some g }.surface sha256 now peer gct pt).reflood peer (.groupMsg gct)).keepForOffline
        sha256 now peer gct

def openRouteDescriptor (i : Inner S) (peer : Fingerprint) (bytes : Bytes) : Inner S :=
  match RouteDescriptor.decode bytes with
  | none => i
  | some d =>
    if (S.verify d.signer (RouteDescriptor.transcript d.signer d.issued d.endpoints) d.sig).isOk then
      if (i.roster.toList.map (·.2)).contains (fingerprint d.signer) then
        match i.storeRoutes fingerprint d with
        | none => i
        | some i => i.reflood peer (.routeDescriptor bytes)
      else i
    else i

def openLeafSigCert (i : Inner S) (now : UInt64) (hint : Nat) (peer : Fingerprint) (bytes : Bytes) : Inner S :=
  match i.checkLeafSigCert fingerprint now bytes with
  | none => i
  | some (chain, account, leafKey) =>
    let relay (i : Inner S) : Inner S :=
      if !i.relayed && i.role = .host then i.flood peer (.leafSigCert bytes) else i
    match i.matchedLeaf hint leafKey with
    | none => relay i
    | some leaf =>
      if i.roster.lookup leaf = none ∨
          i.roster.lookup leaf ≠ chain.links.getLast?.map fun l => fingerprint l.issuer then i
      else relay { i with verifiedLeafAccounts := i.verifiedLeafAccounts.insert leaf (fingerprint account) }

end Rest

section Commute
variable {M : Messaging S} {sha256 : Bytes → Gid} {fingerprint : IdentityPublic → Fingerprint} (i : Inner S)
  (seen : SeenSet)

theorem reflood_setSeen (peer : Fingerprint) (frame : Frame S) :
    (i.setSeen seen).reflood peer frame = (i.reflood peer frame).setSeen seen := by
  unfold reflood
  rw [apply_ite (setSeen · seen)]
  rfl

theorem recordBacklog_setSeen (gid : Gid) (record : Bytes) (ts : Nat) :
    (i.setSeen seen).recordBacklog gid record ts = (i.recordBacklog gid record ts).setSeen seen := by
  have hbacklog : (i.setSeen seen).backlog = i.backlog := rfl
  unfold recordBacklog
  rw [hbacklog]
  split
  · rfl
  · generalize i.backlog ++ [⟨gid, ts, record⟩] = backlog
    dsimp only
    generalize backlog.drop (backlog.length - BACKLOG_CAP) = backlog
    rw [apply_ite (setSeen · seen)]
    rfl

theorem display_setSeen (peer sender : Fingerprint) (gid : Gid) (text : String) (marking : Option Marking)
    (nameTag : Option (ByteArr 8)) : (i.setSeen seen).display peer sender gid text marking nameTag =
      (i.display peer sender gid text marking nameTag).setSeen seen := by
  unfold display
  cases nameTag <;> dsimp only <;> rw [apply_ite (setSeen · seen)] <;> rfl

theorem surface_setSeen (now : UInt64) (peer : Fingerprint) (gct pt : Bytes) :
    (i.setSeen seen).surface sha256 now peer gct pt = (i.surface sha256 now peer gct pt).setSeen seen := by
  unfold surface
  dsimp only
  split
  · rfl
  split
  · rfl
  split
  · rfl
  split
  · rfl
  · rw [note, recordBacklog_setSeen, display_setSeen]
    rfl

theorem keepForOffline_setSeen (now : UInt64) (peer : Fingerprint) (gct : Bytes) :
    (i.setSeen seen).keepForOffline sha256 now peer gct =
      (i.keepForOffline sha256 now peer gct).setSeen seen := by
  unfold keepForOffline
  rw [apply_ite (setSeen · seen)]
  rfl

theorem openGroupMsg_setSeen (now : UInt64) (peer : Fingerprint) (gct : Bytes) :
    (i.setSeen seen).openGroupMsg M sha256 now peer gct =
      (i.openGroupMsg M sha256 now peer gct).setSeen seen := by
  have hgroup : (i.setSeen seen).group = i.group := rfl
  unfold openGroupMsg
  rw [hgroup]
  cases i.group with
  | none => rfl
  | some g =>
    dsimp only
    rcases g.decryptVerified M gct with ⟨g', _ | pt⟩
    · rfl
    · have hopened : ({ i.setSeen seen with group := some g' } : Inner S) =
          ({ i with group := some g' } : Inner S).setSeen seen := rfl
      dsimp only
      rw [hopened, surface_setSeen, reflood_setSeen, keepForOffline_setSeen]

theorem storeRoutes_setSeen (d : RouteDescriptor) :
    (i.setSeen seen).storeRoutes fingerprint d = (i.storeRoutes fingerprint d).map (setSeen · seen) := by
  have hroutes : (i.setSeen seen).knownRoutes = i.knownRoutes := rfl
  unfold storeRoutes
  dsimp only
  rw [hroutes]
  split
  · split <;> rfl
  · generalize RouteDescriptor.MAX_KNOWN_ROUTES = cap
    split <;> rfl

theorem openRouteDescriptor_setSeen (peer : Fingerprint) (bytes : Bytes) :
    (i.setSeen seen).openRouteDescriptor fingerprint peer bytes =
      (i.openRouteDescriptor fingerprint peer bytes).setSeen seen := by
  have hroster : (i.setSeen seen).roster = i.roster := rfl
  unfold openRouteDescriptor
  rw [hroster]
  split
  · rfl
  split
  · split
    · rw [storeRoutes_setSeen]
      cases i.storeRoutes fingerprint _ with
      | none => rfl
      | some i' => exact reflood_setSeen i' seen peer _
    · rfl
  · rfl

theorem openLeafSigCert_setSeen (now : UInt64) (hint : Nat) (peer : Fingerprint) (bytes : Bytes) :
    (i.setSeen seen).openLeafSigCert fingerprint now hint peer bytes =
      (i.openLeafSigCert fingerprint now hint peer bytes).setSeen seen := by
  have hcheck : (i.setSeen seen).checkLeafSigCert fingerprint now bytes = i.checkLeafSigCert fingerprint now bytes :=
    rfl
  have hmatched : ∀ leafKey, (i.setSeen seen).matchedLeaf hint leafKey = i.matchedLeaf hint leafKey := fun _ => rfl
  have hroster : (i.setSeen seen).roster = i.roster := rfl
  unfold openLeafSigCert
  rw [hcheck]
  split
  · rfl
  · dsimp only
    rw [hmatched, hroster]
    split
    · rw [apply_ite (setSeen · seen)]
      rfl
    · split
      · rfl
      · rw [apply_ite (setSeen · seen)]
        rfl

end Commute

theorem match_record {sha256 : Bytes → Gid} {i : Inner S} {F : Inner S → Inner S}
    (hF : ∀ seen, F (i.setSeen seen) = (F i).setSeen seen) (bytes : Bytes) :
    (match i.record sha256 bytes with
      | none => i
      | some i' => F i') =
      if sha256 bytes ∉ i.seen.set then (F i).setSeen (i.seen.insert (sha256 bytes)).1 else i := by
  rw [record_eq]
  by_cases hmem : sha256 bytes ∈ i.seen.set
  · rw [if_pos hmem, if_neg (not_not.mpr hmem)]
  · rw [if_neg hmem, if_pos hmem]
    exact hF _

end Inner

/-! ## Flooded frames -/

namespace Env
variable (E : Env S)

/-- What a node does with a flooded frame that it has not seen. -/
def openFlooded (i : Inner S) (d : Draws S) (now : UInt64) (peer : Fingerprint) : Frame S → Inner S
  | .groupMsg gct => i.openGroupMsg E.messaging E.sha256 now peer gct
  | .routeDescriptor bytes => i.openRouteDescriptor E.fingerprint peer bytes
  | .leafSigCert bytes => i.openLeafSigCert E.fingerprint now (d.hints 0) peer bytes
  | _ => i

/-- Outside of a group, certificates are not looked at. -/
def heeds (i : Inner S) : Frame S → Bool
  | .leafSigCert _ => i.role ≠ .none
  | _ => true

theorem openFlooded_setSeen (i : Inner S) (seen : SeenSet) (d : Draws S) (now : UInt64) (peer : Fingerprint)
    (f : Frame S) : E.openFlooded (i.setSeen seen) d now peer f = (E.openFlooded i d now peer f).setSeen seen := by
  cases f with
  | groupMsg gct => exact i.openGroupMsg_setSeen seen now peer gct
  | routeDescriptor bytes => exact i.openRouteDescriptor_setSeen seen peer bytes
  | leafSigCert bytes => exact i.openLeafSigCert_setSeen seen now _ peer bytes
  | _ => rfl

variable {f : Frame S} {bytes : Bytes}

theorem receive_flooded (i : Inner S) (d : Draws S) (now : UInt64) (peer : Fingerprint)
    (hf : f.flooded = some bytes) :
    E.receive i d now peer f =
      if heeds i f = true ∧ E.sha256 bytes ∉ i.seen.set then
        (E.openFlooded i d now peer f).setSeen (i.seen.insert (E.sha256 bytes)).1
      else i := by
  cases f with
  | groupMsg =>
    cases hf
    simp only [heeds, true_and]
    exact Inner.match_record (fun seen => i.openGroupMsg_setSeen seen now peer bytes) bytes
  | routeDescriptor =>
    cases hf
    simp only [heeds, true_and]
    exact Inner.match_record (fun seen => i.openRouteDescriptor_setSeen seen peer bytes) bytes
  | leafSigCert =>
    cases hf
    simp only [receive, heeds, decide_eq_true_eq, ite_and]
    refine if_congr Iff.rfl ?_ rfl
    exact Inner.match_record (fun seen => i.openLeafSigCert_setSeen seen now (d.hints 0) peer bytes) bytes
  | _ => cases hf

/-! ## What the dedup set remembers -/

def floods (c : Call S) : Bool :=
  match c.input with
  | .frame _ f => f.flooded.isSome
  | _ => false

theorem seen_of_effect {i i' : Inner S} {input : Input S} (h : Inner.Effect i input i')
    (hinput : ∀ peer f, input = .frame peer f → f.flooded = none) : i'.seen = i.seen := by
  cases h with
  | regroups h | manages _ h | posts h => exact (congrArg Inner.seen h :)
  | heard | routes | accounts => cases hinput _ _ rfl
  | _ => rfl

theorem seen_step (i : Inner S) (c : Call S) :
    (E.step i c).seen = i.seen ∨
      floods c = true ∧ ∃ bytes, (E.step i c).seen = (i.seen.insert (E.sha256 bytes)).1 := by
  by_cases hc : ∃ peer f bytes, c.input = .frame peer f ∧ f.flooded = some bytes
  · obtain ⟨peer, f, bytes, hinput, hf⟩ := hc
    have hstep : E.step i c = E.receive i c.draws c.now peer f := by rw [step, hinput]
    rw [hstep, E.receive_flooded i c.draws c.now peer hf, floods, hinput]
    split
    · exact .inr ⟨congrArg Option.isSome hf, bytes, rfl⟩
    · exact .inl rfl
  · refine .inl (seen_of_effect (E.step_effect i c) fun peer f hinput => ?_)
    rw [Option.eq_none_iff_forall_ne_some]
    exact fun bytes hf => hc ⟨peer, f, bytes, hinput, hf⟩

theorem seen_run (i : Inner S) (calls : List (Call S)) :
    ∃ ids, (E.run i calls).seen = i.seen.insertAll ids ∧ ids.length ≤ (calls.filter floods).length := by
  induction calls using List.reverseRecOn with
  | nil => exact ⟨[], rfl, le_rfl⟩
  | append_singleton calls c ih =>
    obtain ⟨ids, hseen, hlen⟩ := ih
    have hrun : E.run i (calls ++ [c]) = E.step (E.run i calls) c := List.foldl_concat ..
    rw [hrun, List.filter_append, List.length_append]
    rcases E.seen_step (E.run i calls) c with hsame | ⟨hfloods, bytes, hinsert⟩
    · exact ⟨ids, hsame.trans hseen, by omega⟩
    · refine ⟨ids ++ [E.sha256 bytes], ?_, ?_⟩
      · rw [hinsert, hseen, SeenSet.insertAll, SeenSet.insertAll, List.foldl_append]
        rfl
      · rw [List.length_append, List.filter_cons_of_pos hfloods]
        simp only [List.length_singleton, List.filter_nil]
        omega

theorem mem_seen_run {i : Inner S} (hwf : i.seen.Wf) {c : Call S} {peer : Fingerprint}
    (hc : c.input = .frame peer f) (hf : f.flooded = some bytes) (hheeds : heeds i f = true)
    (hfirst : E.sha256 bytes ∉ i.seen.set) {calls : List (Call S)}
    (hroom : (calls.filter floods).length < SeenSet.CAP) : E.sha256 bytes ∈ (E.run (E.step i c) calls).seen.set := by
  obtain ⟨-, hwf', horder⟩ := hwf.insert_of_not_mem hfirst
  have hseen : (E.step i c).seen = (i.seen.insert (E.sha256 bytes)).1 := by
    rw [step, hc]
    dsimp only
    rw [E.receive_flooded i c.draws c.now peer hf, if_pos ⟨hheeds, hfirst⟩]
    rfl
  have hlast : (i.seen.insert (E.sha256 bytes)).1.order =
      i.seen.order.drop (i.seen.order.length + 1 - SeenSet.CAP) ++ E.sha256 bytes :: [] := by
    have hcap : SeenSet.CAP = 4096 := rfl
    rw [horder, List.drop_append_of_le_length (by omega)]
  obtain ⟨ids, hrun, hlen⟩ := E.seen_run (E.step i c) calls
  rw [hrun, hseen]
  exact hwf'.mem_insertAll hlast (by rw [List.length_nil]; omega)

/-! ## Redelivery -/

theorem redelivered_iff (i : Inner S) (d : Draws S) (now : UInt64) (peer : Fingerprint)
    (hf : f.flooded = some bytes) :
    (E.receive i d now peer f).SameButSeen (E.receive (i.unseen (E.sha256 bytes)) d now peer f) ↔
      E.sha256 bytes ∉ i.seen.set ∨ i.SameButSeen (E.receive (i.unseen (E.sha256 bytes)) d now peer f) := by
  have hunseen : E.sha256 bytes ∉ (i.unseen (E.sha256 bytes)).seen.set := Finset.notMem_erase _ _
  have hheeds : heeds (i.unseen (E.sha256 bytes)) f = heeds i f := by cases f <;> rfl
  by_cases hmem : E.sha256 bytes ∈ i.seen.set
  · have hdropped : E.receive i d now peer f = i := by
      rw [E.receive_flooded i d now peer hf, if_neg (not_and_not_right.mpr fun _ => hmem)]
    rw [hdropped, or_iff_right (not_not.mpr hmem)]
  · refine iff_of_true ?_ (.inl hmem)
    rw [E.receive_flooded i d now peer hf, E.receive_flooded _ d now peer hf, hheeds]
    by_cases hh : heeds i f = true
    · rw [if_pos ⟨hh, hmem⟩, if_pos ⟨hh, hunseen⟩, Inner.unseen, openFlooded_setSeen]
      rfl
    · rw [if_neg fun h => hh h.1, if_neg fun h => hh h.1]
      rfl

/-- **Redelivery.** A node receives a flooded frame for the first time, makes any calls, and receives it
again. The second time has the effect of a first delivery if and only if the dedup set has forgotten the
frame, or a first delivery has no effect. The set does not forget it before its capacity of flooded frames
has come in. -/
theorem redelivery_iff {i : Inner S} (hwf : i.seen.Wf) {c : Call S} {peer : Fingerprint} {f : Frame S}
    {bytes : Bytes} (hc : c.input = .frame peer f) (hf : f.flooded = some bytes) (hheeds : heeds i f = true)
    (hfirst : E.sha256 bytes ∉ i.seen.set) {calls : List (Call S)} {i' : Inner S}
    (hi' : i' = E.run (E.step i c) calls) (d : Draws S) (now : UInt64) (peer' : Fingerprint) :
    ((E.receive i' d now peer' f).SameButSeen (E.receive (i'.unseen (E.sha256 bytes)) d now peer' f) ↔
      E.sha256 bytes ∉ i'.seen.set ∨ i'.SameButSeen (E.receive (i'.unseen (E.sha256 bytes)) d now peer' f)) ∧
    ((calls.filter floods).length < SeenSet.CAP → E.sha256 bytes ∈ i'.seen.set) := by
  refine ⟨E.redelivered_iff i' d now peer' hf, fun hroom => ?_⟩
  rw [hi']
  exact E.mem_seen_run hwf hc hf hheeds hfirst hroom

end Env

/-! ## Early frames -/

open Arrival (enteredPeer laterCommit)
open Env (badgeChain)

/-- The peer receives a frame over its connection to the host. -/
def hears (f : Frame Scheme.plain) : Call Scheme.plain := plainCall (.frame hostFp f) 0

def lateMessage : Bytes :=
  let g := (World.plainRun [.host (.add (World.plainKeys 20 101).keyPackage) (World.plainCoins 11),
    .host (.add (World.plainKeys 21 102).keyPackage) (World.plainCoins 12)]).host
  match (g.encryptSigned .plain (encodePayload none "hi")).2 with
  | .ok bytes => bytes
  | .error _ => []

def guestRoutes : RouteDescriptor := ⟨⟨[3]⟩, 7, ["guest:1"], [3]⟩

def guestRoster : Frame Scheme.plain := .roster 1 [(0, hostFp), (1, peerFp), (2, padArr 48 [3])] [100]

/-- The peer in epoch 1, after a frame and what it depends on. -/
def caughtUp (f dependence : Frame Scheme.plain) : Inner Scheme.plain :=
  Env.plain.run enteredPeer [hears f, hears dependence]

/-- The frame is lost: the first delivery does nothing, and the second one not what a first one would. -/
def Lost (f dependence : Frame Scheme.plain) : Prop :=
  ∃ bytes, f.flooded = some bytes ∧ Env.plain.sha256 bytes ∉ enteredPeer.seen.set ∧
    enteredPeer.SameButSeen (Env.plain.step enteredPeer (hears f)) ∧
    ¬ (Env.plain.step (caughtUp f dependence) (hears f)).SameButSeen
      (Env.plain.step ((caughtUp f dependence).unseen (Env.plain.sha256 bytes)) (hears f))

theorem lost_of_ne {f dependence : Frame Scheme.plain} {bytes : Bytes} (hf : f.flooded = some bytes)
    (hfirst : Env.plain.sha256 bytes ∉ enteredPeer.seen.set)
    (hearly : enteredPeer.SameButSeen (Env.plain.step enteredPeer (hears f))) {α : Type} (view : Inner Scheme.plain → α)
    (hview : ∀ i seen, view (i.setSeen seen) = view i)
    (hne : view (Env.plain.step ((caughtUp f dependence).unseen (Env.plain.sha256 bytes)) (hears f)) ≠
      view (Env.plain.step (caughtUp f dependence) (hears f))) : Lost f dependence := by
  refine ⟨bytes, hf, hfirst, hearly, fun hsame => hne ?_⟩
  rw [← hview _ (Env.plain.step (caughtUp f dependence) (hears f)).seen]
  exact congrArg view hsame

theorem redelivery_iff_lateMessage :
    Env.plain.sha256 lateMessage ∈ (caughtUp (.groupMsg lateMessage) (.commit 1 (some (laterCommit 1)))).seen.set := by
  refine (Env.redelivery_iff Env.plain (i := enteredPeer) ?_ (c := hears (.groupMsg lateMessage)) rfl rfl rfl ?_
    (rfl : _ = Env.plain.run (Env.plain.step enteredPeer _) [hears (.commit 1 (some (laterCommit 1)))])
    (hears (.groupMsg lateMessage)).draws 0 hostFp).2 ?_
  · exact .new
  · exact Finset.notMem_empty _
  · decide

theorem sameButSeen_of_idle {f : Frame Scheme.plain} {bytes : Bytes} (hf : f.flooded = some bytes)
    (hidle : Env.plain.openFlooded enteredPeer (hears f).draws (hears f).now hostFp f = enteredPeer) :
    enteredPeer.SameButSeen (Env.plain.step enteredPeer (hears f)) := by
  have hstep : Env.plain.step enteredPeer (hears f) = _ :=
    Env.plain.receive_flooded enteredPeer (hears f).draws (hears f).now hostFp hf
  rw [hstep, hidle]
  split <;> rfl

theorem idle_guestRoutes :
    enteredPeer.openRouteDescriptor Env.plain.fingerprint hostFp guestRoutes.encode = enteredPeer := by
  have hdecode : RouteDescriptor.decode guestRoutes.encode = some guestRoutes := by decide +kernel
  have hroster : (enteredPeer.roster.toList.map (·.2)).contains (Env.plain.fingerprint guestRoutes.signer) = false := by
    decide +kernel
  simp only [Inner.openRouteDescriptor, hdecode, hroster, Bool.false_eq_true, if_false, ite_self]

theorem idle_badgeChain (now : UInt64) (hint : Nat) :
    enteredPeer.openLeafSigCert Env.plain.fingerprint now hint hostFp badgeChain.encode = enteredPeer := by
  have hmatched : ∀ key, enteredPeer.matchedLeaf hint key = none := fun key => rfl
  unfold Inner.openLeafSigCert
  split
  · rfl
  · rw [hmatched]
    rfl

/-- **Early frames are lost**: a message of epoch 2 that comes before the commit of epoch 2, routes that
come before the roster with their signer, a certificate that comes before the roster with its leaf. -/
theorem early_frames_are_lost :
    Lost (.groupMsg lateMessage) (.commit 1 (some (laterCommit 1))) ∧
    Lost (.routeDescriptor guestRoutes.encode) guestRoster ∧
    Lost (.leafSigCert badgeChain.encode) guestRoster := by
  refine ⟨?_, ?_, ?_⟩
  · exact lost_of_ne rfl (by decide +kernel) rfl (fun i => i.events.length) (fun _ _ => rfl) (by decide +kernel)
  · have hearly := sameButSeen_of_idle (f := .routeDescriptor guestRoutes.encode) rfl idle_guestRoutes
    exact lost_of_ne rfl (by decide +kernel) hearly (fun i => i.knownRoutes.toList) (fun _ _ => rfl)
      (by decide +kernel)
  · have hearly := sameButSeen_of_idle (f := .leafSigCert badgeChain.encode) rfl
      (idle_badgeChain (hears (.leafSigCert badgeChain.encode)).now 0)
    exact lost_of_ne rfl (by decide +kernel) hearly (fun i => i.verifiedLeafAccounts.toList) (fun _ _ => rfl)
      (by decide +kernel)

end Talkrypt.Core
