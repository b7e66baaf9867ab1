import Talkrypt.Core.ReaderLoop
import Talkrypt.Core.Node

/-!
# Learned routes and `reconnect` (`handle_route_descriptor`, `remove_member`, `reconnect` in `crates/core/src/engine.rs`)

A node stores the routes of roster members, the newest of each. When it has no peers left, `reconnect` dials the
stored endpoints one by one; it returns the first peer that is in the roster or has routes, and drops the others.

A membership change leaves the routes of those that it takes out of the roster in place, and `reconnect` then accepts
them; a stranger that is dropped loses its entry in the table of peers, while the task that reads its stream goes on
(`removed_member_returned`). `sound_of_orderly` says what is enough: nobody with routes, or expected by a call
under way, is taken out of the roster, and strangers have hung up when they are dropped.
-/

namespace Talkrypt.Core
open TreeKem

variable {S : Scheme}

namespace Inner

def members (i : Inner S) : List Fingerprint := i.roster.toList.map (·.2)

theorem mem_members {i : Inner S} {fp : Fingerprint} : fp ∈ i.members ↔ ∃ leaf, i.roster.lookup leaf = some fp := by
  simp [members, Table.mem_toList]

/-! ## What the handlers do to the roster and the routes -/

section
variable (sha256 : Bytes → Gid) (fingerprint : IdentityPublic → Fingerprint)

/-- The descriptor is newer than the one on record, or there is room for it. -/
def hasRoomFor (i : Inner S) (d : RouteDescriptor) : Bool :=
  match i.knownRoutes.lookup (fingerprint d.signer) with
  | some (last, _) => last < d.issued
  | none => i.knownRoutes.toList.length < RouteDescriptor.MAX_KNOWN_ROUTES

/-- The descriptor in a frame, if its routes are stored. -/
def acceptedRoutes (i : Inner S) (bytes : Bytes) : Option RouteDescriptor :=
  if (i.record sha256 bytes).isSome then
    (RouteDescriptor.decode bytes).filter fun d =>
      (S.verify d.signer (RouteDescriptor.transcript d.signer d.issued d.endpoints) d.sig).isOk &&
        i.members.contains (fingerprint d.signer) && i.hasRoomFor fingerprint d
  else none

def takesRoster (i : Inner S) (epoch : Nat) (entries : List (Nat × Fingerprint)) (sig : Bytes) : Bool :=
  i.role = .member && i.group.any (·.verifyHostSig (rosterTranscript epoch entries) sig) && i.lastRosterEpoch ≤ epoch

variable {fingerprint} in
theorem storeRoutes_eq (i : Inner S) (d : RouteDescriptor) : i.storeRoutes fingerprint d =
    if i.hasRoomFor fingerprint d then
      some { i with knownRoutes := i.knownRoutes.insert (fingerprint d.signer) (d.issued, d.endpoints) }
    else none := by
  rw [storeRoutes, hasRoomFor]
  cases i.knownRoutes.lookup (fingerprint d.signer) with
  | none => simp only [decide_eq_true_eq, ← Nat.not_le, ite_not, ge_iff_le]
  | some e => simp only [decide_eq_true_eq, ← UInt64.not_le, ite_not]

theorem handleRouteDescriptor_roster (i : Inner S) (peer : Fingerprint) (bytes : Bytes) :
    (i.handleRouteDescriptor sha256 fingerprint peer bytes).roster = i.roster := by
  obtain ⟨seen, knownRoutes, sent, h⟩ := i.handleRouteDescriptor_eq sha256 fingerprint peer bytes
  rw [h]

theorem handleRouteDescriptor_knownRoutes (i : Inner S) (peer : Fingerprint) (bytes : Bytes) :
    (i.handleRouteDescriptor sha256 fingerprint peer bytes).knownRoutes =
      match i.acceptedRoutes sha256 fingerprint bytes with
      | none => i.knownRoutes
      | some d => i.knownRoutes.insert (fingerprint d.signer) (d.issued, d.endpoints) := by
  unfold handleRouteDescriptor acceptedRoutes
  cases hrecord : i.record sha256 bytes with
  | none => rfl
  | some i₁ =>
    obtain ⟨seen, rfl⟩ := record_eq_some hrecord
    cases RouteDescriptor.decode bytes with
    | none => rfl
    | some d =>
      dsimp only
      rw [Option.isSome_some, if_pos rfl, Option.filter_some]
      by_cases hverify : (S.verify d.signer (RouteDescriptor.transcript d.signer d.issued d.endpoints) d.sig).isOk
      · have hlist : i.roster.toList.map (·.2) = i.members := rfl
        rw [if_pos hverify, hverify, Bool.true_and, hlist]
        by_cases hmember : i.members.contains (fingerprint d.signer)
        · rw [if_pos hmember, hmember, Bool.true_and, storeRoutes_eq]
          have hroom : ({ i with seen } : Inner S).hasRoomFor fingerprint d = i.hasRoomFor fingerprint d := rfl
          rw [hroom]
          cases i.hasRoomFor fingerprint d with
          | false => rfl
          | true =>
            rw [if_pos rfl, if_pos rfl]
            dsimp only
            obtain ⟨sent, h⟩ := reflood_eq { i with
              seen, knownRoutes := i.knownRoutes.insert (fingerprint d.signer) (d.issued, d.endpoints) } peer (.routeDescriptor bytes)
            rw [h]
        · rw [if_neg hmember, Bool.eq_false_iff.mpr hmember, Bool.false_and]
          rfl
      · rw [if_neg hverify, Bool.eq_false_iff.mpr hverify, Bool.false_and, Bool.false_and]
        rfl

variable {sha256 fingerprint} in
theorem of_acceptedRoutes {i : Inner S} {bytes : Bytes} {d : RouteDescriptor}
    (h : i.acceptedRoutes sha256 fingerprint bytes = some d) : fingerprint d.signer ∈ i.members ∧
      ∀ last endpoints, i.knownRoutes.lookup (fingerprint d.signer) = some (last, endpoints) → last < d.issued := by
  unfold acceptedRoutes at h
  split at h
  · obtain ⟨-, hd⟩ := Option.filter_eq_some_iff.mp h
    simp only [Bool.and_eq_true] at hd
    refine ⟨List.contains_iff_mem.mp hd.1.2, fun last endpoints hlookup => ?_⟩
    have hroom := hd.2
    rw [hasRoomFor, hlookup] at hroom
    exact of_decide_eq_true hroom
  · cases h

end

theorem mem_members_removeMember {i : Inner S} {r : RekeyCoins S} {hint : Nat} {fp fp' : Fingerprint} (hne : i.role = .host → fp' ≠ fp)
    (h : fp' ∈ i.members) : fp' ∈ (i.removeMember r hint fp).members := by
  by_cases hrole : i.role = .host
  · obtain ⟨heq, -⟩ | ⟨g, leaf, -, hleaf, ⟨g', e, -, heq⟩ | ⟨g', commit, sent, -, heq⟩⟩ := removeMember_cases hrole r hint fp
    · rwa [heq]
    · rwa [heq]
    · obtain ⟨leaf', hleaf'⟩ := mem_members.mp h
      rw [heq]
      refine mem_members.mpr ⟨leaf', ?_⟩
      rw [Table.lookup_erase_eq, if_neg, hleaf']
      rintro rfl
      exact hne hrole (Option.some.inj (hleaf'.symm.trans hleaf))
  · rw [removeMember, if_pos hrole]
    exact h

theorem knownRoutes_removeMember (i : Inner S) (r : RekeyCoins S) (hint : Nat) (fp : Fingerprint) :
    (i.removeMember r hint fp).knownRoutes = i.knownRoutes :=
  (congrArg knownRoutes (Regroups.removeMember i r hint fp) :)

end Inner

/-- The frames that change the roster or the routes. -/
inductive Gossip where
  | roster (epoch : Nat) (entries : List (Nat × Fingerprint)) (sig : Bytes)
  | routes (bytes : Bytes)

namespace Gossip
variable (E : Env S)

def frame : Gossip → Frame S
  | roster epoch entries sig => .roster epoch entries sig
  | routes bytes => .routeDescriptor bytes

def take (i : Inner S) (peer : Fingerprint) : Gossip → Inner S
  | roster epoch entries sig => if i.role = .member then i.handleRoster epoch entries sig else i
  | routes bytes => i.handleRouteDescriptor E.sha256 E.fingerprint peer bytes

theorem take_roster (i : Inner S) (peer : Fingerprint) (epoch : Nat) (entries : List (Nat × Fingerprint)) (sig : Bytes) :
    take E i peer (roster epoch entries sig) =
      if i.takesRoster epoch entries sig then { i with lastRosterEpoch := epoch, roster := Table.insertAll ∅ entries } else i := by
  rw [take, Inner.handleRoster, Inner.takesRoster]
  by_cases hrole : i.role = .member
  · cases hg : i.group with
    | none => simp [hrole]
    | some g => simp [hrole]
  · simp [hrole]

def accepted (i : Inner S) : Gossip → Option RouteDescriptor
  | roster .. => none
  | routes bytes => i.acceptedRoutes E.sha256 E.fingerprint bytes

end Gossip

theorem Links.lookup_step {fingerprint : IdentityPublic → Fingerprint} {m : Links} {a : Links.Act} {j : Nat} {l' : Loop}
    (h : (m.step S fingerprint a).loops.lookup j = some l') :
    (∃ l, m.loops.lookup j = some l ∧ l.fingerprint = l'.fingerprint) ∨ a = .register l'.fingerprint := by
  have of_cases {m' : Links} {k : Nat} {l : Loop} (hk : m.loops.lookup k = some l)
      (hcases : (∃ l', Goes fingerprint m m' k l l') ∨ Drops m m' k l.fingerprint) (h : m'.loops.lookup j = some l') :
      ∃ l, m.loops.lookup j = some l ∧ l.fingerprint = l'.fingerprint := by
    obtain ⟨l₁, hgoes⟩ | hdrops := hcases
    · rw [hgoes.loops] at h
      split at h
      · next hj =>
        cases h
        exact ⟨l, hj ▸ hk, hgoes.fingerprint_eq.symm⟩
      · exact ⟨l', h, rfl⟩
    · rw [hdrops.loops] at h
      split at h
      · cases h
      · exact ⟨l', h, rfl⟩
  cases a with
  | register peer =>
    rw [step, report, Table.lookup_insert_eq] at h
    split at h
    · cases h
      exact .inr rfl
    · exact .inl ⟨l', h, rfl⟩
  | start k =>
    obtain heq | ⟨l, hk, heq⟩ := start_cases S fingerprint m k
    · rw [heq] at h
      exact .inl ⟨l', h, rfl⟩
    · rw [heq, setLoop, Table.lookup_insert_eq] at h
      split at h
      · next hj =>
        cases h
        exact .inl ⟨l, hj ▸ hk, rfl⟩
      · exact .inl ⟨l', h, rfl⟩
  | failed k =>
    rw [step] at h
    cases hrun : m.running k with
    | none =>
      rw [hrun] at h
      exact .inl ⟨l', h, rfl⟩
    | some l =>
      rw [hrun] at h
      dsimp only at h
      rw [endLoop, report, Table.lookup_erase_eq] at h
      split at h
      · cases h
      · exact .inl ⟨l', h, rfl⟩
  | garbled k =>
    cases hrun : m.running k with
    | none =>
      rw [step, hrun] at h
      exact .inl ⟨l', h, rfl⟩
    | some l => exact .inl (of_cases (running_eq_some.mp hrun).1 (step_garbled S fingerprint hrun) h)
  | payload k now bytes =>
    cases hrun : m.running k with
    | none =>
      rw [step, hrun] at h
      exact .inl ⟨l', h, rfl⟩
    | some l => exact .inl (of_cases (running_eq_some.mp hrun).1 (step_payload S fingerprint now bytes hrun) h)
  | dropStranger peer => exact .inl ⟨l', h, rfl⟩
  | call c => exact .inl ⟨l', h, rfl⟩

/-! ## A node that reconnects -/

inductive Phase where
  | dialing
  | reached (peer : Fingerprint)
  | healed (peer : Fingerprint)
  | done
deriving DecidableEq

structure Attempt where
  endpoints : List String
  expected : List Fingerprint
  phase : Phase
deriving DecidableEq

def Attempt.awaited (a : Attempt) : List Fingerprint :=
  match a.phase with
  | .dialing => if a.endpoints = [] then [] else a.expected
  | .reached _ | .healed _ => a.expected
  | .done => []

theorem Attempt.mem_expected {a : Attempt} {fp : Fingerprint} (h : fp ∈ a.awaited) : fp ∈ a.expected := by
  obtain ⟨endpoints, expected, phase⟩ := a
  cases phase with
  | dialing =>
    have hif : fp ∈ if endpoints = [] then [] else expected := h
    split at hif
    · cases hif
    · exact hif
  | reached => exact h
  | healed => exact h
  | done => cases h

/-- A frame that was processed: who sent it, whom `reconnect` had dropped, and who was in the roster. -/
structure Heard where
  peer : Fingerprint
  dropped : List Fingerprint
  members : List Fingerprint
deriving DecidableEq

structure Healer (S : Scheme) where
  node : Inner S
  links : Links
  calls : List Attempt
  /-- The routes that were stored. The engine keeps none of these records. -/
  accepted : List (Fingerprint × UInt64)
  /-- The peers that `reconnect` returned, with the roster of that moment. -/
  returned : List (Fingerprint × List Fingerprint)
  dropped : List Fingerprint
  processed : List Heard

namespace Healer

inductive Event (S : Scheme) where
  /-- Connections come and go, and bring frames for other layers. -/
  | link (a : Links.Act)
  /-- A frame on the `k`-th stream. Behind a relay, it carries the sender that the relay put in. -/
  | frame (k : Nat) (stamped : Fingerprint) (f : Gossip)
  | removeMember (r : RekeyCoins S) (hint : Nat) (fp : Fingerprint)
  | reconnect
  | refused (n : Nat)
  /-- A peer completes the handshake at the endpoint that the `n`-th call dials. -/
  | answered (n : Nat) (peer : Fingerprint)
  | settle (n : Nat)
  | finish (n : Nat)

def start (node : Inner S) (links : Links) : Healer S := ⟨node, links, [], [], [], [], []⟩

def setCall (w : Healer S) (n : Nat) (a : Attempt) : Healer S := { w with calls := w.calls.set n a }

def heard (w : Healer S) (k : Nat) : List Heard :=
  (w.links.running k).toList.map fun l => ⟨l.fingerprint, w.dropped, w.node.members⟩

def knownEndpoints (i : Inner S) : List String :=
  ((i.knownRoutes.toList.flatMap (·.2.2)).mergeSort (· ≤ ·)).destutter (· ≠ ·)

section
variable (E : Env S)

def linkStep (w : Healer S) (a : Links.Act) : Healer S :=
  { w with
    links := w.links.step S E.fingerprint a
    processed := (match a with | .payload k _ _ => w.heard k | _ => []) ++ w.processed }

def frameStep (w : Healer S) (k : Nat) (stamped : Fingerprint) (f : Gossip) : Healer S :=
  match w.links.running k with
  | none => w
  | some l =>
    { w with
      node := f.take E w.node (if w.node.relayed then stamped else l.fingerprint)
      links := w.links.setLoop k { l with decryptFailures := 0 }
      accepted := (f.accepted E w.node).toList.map (fun d => (E.fingerprint d.signer, d.issued)) ++ w.accepted
      processed := w.heard k ++ w.processed }

def beginReconnect (w : Healer S) : Healer S :=
  if w.links.peers.isEmpty then
    let expected := w.node.members ++ w.node.knownRoutes.toList.map (·.1)
    { w with calls := w.calls ++ [⟨knownEndpoints w.node, expected, .dialing⟩] }
  else w

def look (w : Healer S) (n : Nat) (endpoints : List String) (expected : List Fingerprint) (peer : Fingerprint) : Healer S :=
  if peer ∈ expected then w.setCall n ⟨endpoints, expected, .healed peer⟩
  else { w.setCall n ⟨endpoints, expected, .dialing⟩ with
         links := w.links.step S E.fingerprint (.dropStranger peer)
         dropped := peer :: w.dropped }

def step (w : Healer S) : Event S → Healer S
  | .link a => w.linkStep E a
  | .frame k stamped f => w.frameStep E k stamped f
  | .removeMember r hint fp => { w with node := w.node.removeMember r hint fp }
  | .reconnect => w.beginReconnect
  | .refused n =>
    match w.calls[n]? with
    | some ⟨_ :: endpoints, expected, .dialing⟩ => w.setCall n ⟨endpoints, expected, .dialing⟩
    | _ => w
  | .answered n peer =>
    match w.calls[n]? with
    | some ⟨_ :: endpoints, expected, .dialing⟩ =>
      (w.setCall n ⟨endpoints, expected, .reached peer⟩).linkStep E (.register peer)
    | _ => w
  | .settle n =>
    match w.calls[n]? with
    | some ⟨endpoints, expected, .reached peer⟩ => w.look E n endpoints expected peer
    | _ => w
  | .finish n =>
    match w.calls[n]? with
    | some ⟨endpoints, expected, .healed peer⟩ =>
      { w.setCall n ⟨endpoints, expected, .done⟩ with returned := (peer, w.node.members) :: w.returned }
    | _ => w

end

/-! ## What is asked of a run -/

/-- Those whose routes are known, and those that a call under way expects. -/
def needed (w : Healer S) : List Fingerprint := w.node.knownRoutes.toList.map (·.1) ++ w.calls.flatMap (·.awaited)

def Orderly (w : Healer S) : Event S → Prop
  | .link (.register peer) => peer ∉ w.dropped
  | .frame _ _ (.roster epoch entries sig) =>
    w.node.takesRoster epoch entries sig = true →
      ∀ fp ∈ w.needed, fp ∈ (Table.insertAll ∅ entries : Table Nat Fingerprint).toList.map (·.2)
  | .removeMember _ _ fp => w.node.role = .host → fp ∉ w.needed
  | .answered _ peer => peer ∉ w.dropped
  | .settle n =>
    ∀ a ∈ w.calls[n]?, ∀ l ∈ w.links.loops.toList, a.phase = .reached l.2.fingerprint → l.2.fingerprint ∈ a.expected
  | _ => True

instance Orderly.decidable (w : Healer S) : ∀ ev, Decidable (w.Orderly ev)
  | .link (.register peer) => inferInstanceAs (Decidable (peer ∉ w.dropped))
  | .link (.start _) | .link (.failed _) | .link (.garbled _) | .link (.payload ..) | .link (.dropStranger _) | .link (.call _) =>
    .isTrue trivial
  | .frame _ _ (.roster epoch entries sig) =>
    inferInstanceAs (Decidable (w.node.takesRoster epoch entries sig = true →
      ∀ fp ∈ w.needed, fp ∈ (Table.insertAll ∅ entries : Table Nat Fingerprint).toList.map (·.2)))
  | .removeMember _ _ fp => inferInstanceAs (Decidable (w.node.role = .host → fp ∉ w.needed))
  | .answered _ peer => inferInstanceAs (Decidable (peer ∉ w.dropped))
  | .settle n =>
    inferInstanceAs (Decidable (∀ a ∈ w.calls[n]?, ∀ l ∈ w.links.loops.toList,
      a.phase = .reached l.2.fingerprint → l.2.fingerprint ∈ a.expected))
  | .frame _ _ (.routes _) | .reconnect | .refused _ | .finish _ => .isTrue trivial

structure Sound (w : Healer S) : Prop where
  members : ∀ fp, w.node.knownRoutes.lookup fp ≠ none → fp ∈ w.node.members
  newest : ∀ fp issued endpoints, w.node.knownRoutes.lookup fp = some (issued, endpoints) →
    (fp, issued) ∈ w.accepted ∧ ∀ earlier, (fp, earlier) ∈ w.accepted → earlier ≤ issued
  returned : ∀ e ∈ w.returned, e.1 ∈ e.2
  processed : ∀ h ∈ w.processed, h.peer ∈ h.dropped → h.peer ∈ h.members

structure Inv (w : Healer S) : Prop extends Sound w where
  unknown : ∀ fp, w.node.knownRoutes.lookup fp = none → ∀ issued, (fp, issued) ∉ w.accepted
  awaited : ∀ a ∈ w.calls, ∀ fp ∈ a.awaited, fp ∈ w.node.members
  healed : ∀ a ∈ w.calls, ∀ peer, a.phase = .healed peer → peer ∈ a.awaited
  silent : ∀ k l, w.links.loops.lookup k = some l → l.fingerprint ∉ w.dropped

namespace Inv
variable {w : Healer S}

variable {node : Inner S}

theorem start (links : Links) (hroutes : node.knownRoutes = ∅) : Inv (start node links) where
  members fp h := absurd (by rw [Healer.start, hroutes]; rfl) h
  newest fp issued endpoints h := by
    rw [Healer.start, hroutes] at h
    cases h
  returned _ h := nomatch h
  processed _ h := nomatch h
  unknown _ _ _ h := nomatch h
  awaited _ h := nomatch h
  healed _ h := nomatch h
  silent _ _ _ h := nomatch h

theorem mem_members (h : Inv w) {fp : Fingerprint} (hfp : fp ∈ w.needed) : fp ∈ w.node.members := by
  rcases List.mem_append.mp hfp with hfp | hfp
  · exact h.members fp (Table.mem_map_fst_toList.mp hfp)
  · obtain ⟨a, ha, hfp⟩ := List.mem_flatMap.mp hfp
    exact h.awaited a ha fp hfp

theorem of_node (h : Inv w) (hroutes : node.knownRoutes = w.node.knownRoutes)
    (hkeep : ∀ fp ∈ w.needed, fp ∈ node.members) : Inv { w with node := node } where
  members fp hfp := by
    rw [hroutes] at hfp
    exact hkeep fp (List.mem_append_left _ (Table.mem_map_fst_toList.mpr hfp))
  newest := by
    rw [hroutes]
    exact h.newest
  returned := h.returned
  processed := h.processed
  unknown := by
    rw [hroutes]
    exact h.unknown
  awaited a ha fp hfp := hkeep fp (List.mem_append_right _ (List.mem_flatMap.mpr ⟨a, ha, hfp⟩))
  healed := h.healed
  silent := h.silent

theorem store (h : Inv w) {fp : Fingerprint} {issued : UInt64} {endpoints : List String}
    (hroster : node.roster = w.node.roster)
    (hroutes : node.knownRoutes = w.node.knownRoutes.insert fp (issued, endpoints)) (hmember : fp ∈ w.node.members)
    (hnewer : ∀ last old, w.node.knownRoutes.lookup fp = some (last, old) → last < issued) :
    Inv { w with node := node, accepted := (fp, issued) :: w.accepted } := by
  have hmembers : node.members = w.node.members := by rw [Inner.members, hroster, Inner.members]
  have hlookup (fp' : Fingerprint) :
      node.knownRoutes.lookup fp' = if fp' = fp then some (issued, endpoints) else w.node.knownRoutes.lookup fp' := by
    rw [hroutes, Table.lookup_insert_eq]
  have hlatest (earlier : UInt64) (he : (fp, earlier) ∈ w.accepted) : earlier ≤ issued := by
    cases hold : w.node.knownRoutes.lookup fp with
    | none => exact absurd he (h.unknown fp hold earlier)
    | some e =>
      have hle := (h.newest fp e.1 e.2 hold).2 earlier he
      exact UInt64.le_trans hle (UInt64.le_of_lt (hnewer e.1 e.2 hold))
  refine ⟨⟨fun fp' hfp' => ?_, fun fp' issued' endpoints' hfp' => ?_, h.returned, h.processed⟩, fun fp' hfp' issued' hmem => ?_,
    ?_, h.healed, h.silent⟩
  · rw [hmembers]
    rw [hlookup] at hfp'
    split at hfp'
    · next heq => exact heq ▸ hmember
    · exact h.members fp' hfp'
  · rw [hlookup] at hfp'
    split at hfp'
    · next heq =>
      cases hfp'
      cases heq
      refine ⟨List.mem_cons_self, fun earlier he => ?_⟩
      rcases List.mem_cons.mp he with he | he
      · cases he
        exact UInt64.le_refl _
      · exact hlatest earlier he
    · next hne =>
      obtain ⟨hmem, hmax⟩ := h.newest fp' issued' endpoints' hfp'
      refine ⟨List.mem_cons_of_mem _ hmem, fun earlier he => ?_⟩
      rcases List.mem_cons.mp he with he | he
      · cases he
        exact absurd rfl hne
      · exact hmax earlier he
  · rw [hlookup] at hfp'
    split at hfp'
    · cases hfp'
    · next hne =>
      rcases List.mem_cons.mp hmem with he | he
      · cases he
        exact hne rfl
      · exact h.unknown fp' hfp' issued' he
  · rw [hmembers]
    exact h.awaited

theorem of_links (h : Inv w) {links : Links} {processed : List Heard}
    (hloops : ∀ k l, links.loops.lookup k = some l → l.fingerprint ∉ w.dropped)
    (hprocessed : ∀ x ∈ processed, ∃ k, x ∈ w.heard k) :
    Inv { w with links := links, processed := processed ++ w.processed } where
  members := h.members
  newest := h.newest
  returned := h.returned
  processed x hx hdropped := by
    rcases List.mem_append.mp hx with hx | hx
    · obtain ⟨k, hx⟩ := hprocessed x hx
      obtain ⟨l, hl, rfl⟩ := List.mem_map.mp hx
      have hrun : w.links.running k = some l := Option.mem_toList.mp hl
      exact absurd hdropped (h.silent k l (Links.running_eq_some.mp hrun).1)
    · exact h.processed x hx hdropped
  unknown := h.unknown
  awaited := h.awaited
  healed := h.healed
  silent := hloops

theorem setCall (h : Inv w) {n : Nat} {a : Attempt} (hawaited : ∀ fp ∈ a.awaited, fp ∈ w.node.members)
    (hhealed : ∀ peer, a.phase = .healed peer → peer ∈ a.awaited) : Inv (w.setCall n a) where
  members := h.members
  newest := h.newest
  returned := h.returned
  processed := h.processed
  unknown := h.unknown
  awaited b hb fp hfp := by
    rcases List.mem_or_eq_of_mem_set hb with hb | rfl
    · exact h.awaited b hb fp hfp
    · exact hawaited fp hfp
  healed b hb peer hpeer := by
    rcases List.mem_or_eq_of_mem_set hb with hb | rfl
    · exact h.healed b hb peer hpeer
    · exact hhealed peer hpeer
  silent := h.silent

theorem linkStep (h : Inv w) (E : Env S) {a : Links.Act} (hok : ∀ peer, a = .register peer → peer ∉ w.dropped) :
    Inv (w.linkStep E a) := by
  refine h.of_links (fun k l hl => ?_) fun x hx => ?_
  · obtain ⟨l₀, hl₀, hfp⟩ | heq := Links.lookup_step hl
    · exact hfp ▸ h.silent k l₀ hl₀
    · exact hok l.fingerprint heq
  · split at hx
    · exact ⟨_, hx⟩
    · cases hx

theorem frameStep (h : Inv w) (E : Env S) {k : Nat} {stamped : Fingerprint} {f : Gossip} (hok : w.Orderly (.frame k stamped f)) :
    Inv (w.frameStep E k stamped f) := by
  rw [Healer.frameStep]
  cases hrun : w.links.running k with
  | none => exact h
  | some l =>
    dsimp only
    have hl : w.links.loops.lookup k = some l := (Links.running_eq_some.mp hrun).1
    -- the frame is read, then handled
    have hread : Inv { w with links := w.links.setLoop k { l with decryptFailures := 0 }, processed := w.heard k ++ w.processed } := by
      refine h.of_links (fun j l' hl' => ?_) fun x hx => ⟨k, hx⟩
      rw [Links.setLoop, Table.lookup_insert_eq] at hl'
      split at hl'
      · cases hl'
        exact h.silent k l hl
      · exact h.silent j l' hl'
    generalize (if w.node.relayed then stamped else l.fingerprint) = peer
    cases f with
    | roster epoch entries sig =>
      simp only [Gossip.accepted, Gossip.take_roster]
      cases htakes : w.node.takesRoster epoch entries sig with
      | false => exact hread
      | true => exact hread.of_node rfl (hok htakes)
    | routes bytes =>
      have hroster := w.node.handleRouteDescriptor_roster E.sha256 E.fingerprint peer bytes
      have hroutes := w.node.handleRouteDescriptor_knownRoutes E.sha256 E.fingerprint peer bytes
      simp only [Gossip.accepted, Gossip.take]
      cases hacc : w.node.acceptedRoutes E.sha256 E.fingerprint bytes with
      | none =>
        rw [hacc] at hroutes
        refine hread.of_node hroutes fun fp hfp => ?_
        rw [Inner.members, hroster]
        exact hread.mem_members hfp
      | some d =>
        rw [hacc] at hroutes
        obtain ⟨hmember, hnewer⟩ := Inner.of_acceptedRoutes hacc
        exact hread.store hroster hroutes hmember hnewer

theorem beginReconnect (h : Inv w) : Inv w.beginReconnect := by
  rw [Healer.beginReconnect]
  split
  · refine ⟨⟨h.members, h.newest, h.returned, h.processed⟩, h.unknown, fun a ha fp hfp => ?_, fun a ha peer hpeer => ?_, h.silent⟩
    · rcases List.mem_append.mp ha with ha | ha
      · exact h.awaited a ha fp hfp
      · cases List.mem_singleton.mp ha
        rcases List.mem_append.mp (Attempt.mem_expected hfp) with hfp | hfp
        · exact hfp
        · exact h.members fp (Table.mem_map_fst_toList.mp hfp)
    · rcases List.mem_append.mp ha with ha | ha
      · exact h.healed a ha peer hpeer
      · cases List.mem_singleton.mp ha
        cases hpeer
  · exact h

theorem step (h : Inv w) (E : Env S) (ev : Event S) (hok : w.Orderly ev) : Inv (w.step E ev) := by
  cases ev with
  | link a => exact h.linkStep E fun peer ha => by subst ha; exact hok
  | frame k stamped f => exact h.frameStep E hok
  | removeMember r hint fp =>
    refine h.of_node (Inner.knownRoutes_removeMember w.node r hint fp) fun fp' hfp' => ?_
    refine Inner.mem_members_removeMember (fun hrole heq => ?_) (h.mem_members hfp')
    exact hok hrole (heq ▸ hfp')
  | reconnect => exact h.beginReconnect
  | refused n =>
    rw [Healer.step]
    split
    · next e endpoints expected hcall =>
      have hawaited : ∀ fp ∈ expected, fp ∈ w.node.members := h.awaited _ (List.mem_of_getElem? hcall)
      exact h.setCall (fun fp hfp => hawaited fp (Attempt.mem_expected hfp)) nofun
    · exact h
  | answered n peer =>
    rw [Healer.step]
    split
    · next e endpoints expected hcall =>
      have hawaited : ∀ fp ∈ expected, fp ∈ w.node.members := h.awaited _ (List.mem_of_getElem? hcall)
      have hset := h.setCall (n := n) (a := ⟨endpoints, expected, .reached peer⟩) hawaited nofun
      exact hset.linkStep E fun peer' heq => by cases heq; exact hok
    · exact h
  | settle n =>
    rw [Healer.step]
    split
    · next endpoints expected peer hcall =>
      have hawaited : ∀ fp ∈ expected, fp ∈ w.node.members := h.awaited _ (List.mem_of_getElem? hcall)
      rw [look]
      split
      · next hexpected => exact h.setCall hawaited fun peer' heq => by cases heq; exact hexpected
      · next hstranger =>
        have hset := h.setCall (n := n) (a := ⟨endpoints, expected, .dialing⟩)
          (fun fp hfp => hawaited fp (Attempt.mem_expected hfp)) nofun
        -- the stranger has no open stream
        refine ⟨⟨hset.members, hset.newest, hset.returned, hset.processed⟩, hset.unknown, hset.awaited, hset.healed, fun k l hl hmem => ?_⟩
        rcases List.mem_cons.mp hmem with heq | hmem
        · exact hstranger (heq ▸ hok _ hcall (k, l) (Table.mem_toList.mpr hl) (heq ▸ rfl))
        · exact h.silent k l hl hmem
    · exact h
  | finish n =>
    rw [Healer.step]
    split
    · next endpoints expected peer hcall =>
      have hmem := List.mem_of_getElem? hcall
      have hpeer : peer ∈ w.node.members := h.awaited _ hmem peer (h.healed _ hmem peer rfl)
      have hset := h.setCall (n := n) (a := ⟨endpoints, expected, .done⟩) nofun nofun
      refine ⟨⟨hset.members, hset.newest, fun e he => ?_, hset.processed⟩, hset.unknown, hset.awaited, hset.healed, hset.silent⟩
      rcases List.mem_cons.mp he with rfl | he
      · exact hpeer
      · exact h.returned e he
    · exact h

end Inv

/-- In an orderly run, routes are kept for members only and the newest of each, `reconnect` returns members, and nothing
is heard of those that it dropped. -/
theorem sound_of_orderly (E : Env S) (node : Inner S) (links : Links) (hroutes : node.knownRoutes = ∅) (evs : List (Event S))
    (h : Run.Along (step E) Orderly (start node links) evs) : Sound (evs.foldl (step E) (start node links)) :=
  (h.invariant (fun _ ev hinv => hinv.step E ev) (Inv.start links hroutes)).toSound

namespace Sample

def host : Inner Scheme.plain := plainHost.handleKeyPackage (World.plainCoins 11) peerFp (packageBytes 20 101)

def begin : Healer Scheme.plain := start host (.new ⟨.host, false, nofun⟩ ⟨.everyone, none, [], ∅, ∅⟩)

def strangerFp : Fingerprint := padArr 48 [9]

def routes (issued : UInt64) : Gossip := .routes (RouteDescriptor.encode ⟨⟨[2]⟩, issued, ["peer.onion"], [2]⟩)

def announced : List (Event Scheme.plain) :=
  [.link (.register peerFp), .link (.start 0), .frame 0 peerFp (routes 5), .frame 0 peerFp (routes 3)]

/-- Its stream is given up, and the host looks for peers. -/
def partitioned : List (Event Scheme.plain) := List.replicate 8 (.link (.garbled 0)) ++ [.reconnect]

def returns : List (Event Scheme.plain) := [.answered 0 peerFp, .settle 0, .finish 0]

def after (evs : List (Event Scheme.plain)) : Healer Scheme.plain := evs.foldl (step Env.plain) begin

theorem sound_of_orderly_reconnect :
    (after (announced ++ partitioned ++ returns)).returned = [(peerFp, [peerFp, hostFp])] ∧
    Sound (after (announced ++ partitioned ++ returns)) :=
  ⟨by decide +kernel, sound_of_orderly Env.plain host _ rfl _ (by decide +kernel)⟩

/-- The peer is removed, and the host goes back to it. A stranger is dropped, and the host reads what it sends. -/
theorem removed_member_returned :
    (let w := after (announced ++ [.removeMember (World.plainCoins 12) 0 peerFp] ++ partitioned ++ returns)
     w.node.knownRoutes.lookup peerFp = some (5, ["peer.onion"]) ∧ w.node.members = [hostFp] ∧
       w.returned = [(peerFp, [hostFp])]) ∧
    (let w := after (announced ++ partitioned ++
        [.answered 0 strangerFp, .settle 0, .link (.start 1), .frame 1 strangerFp (routes 7)])
     w.processed.head? = some ⟨strangerFp, [strangerFp], [peerFp, hostFp]⟩ ∧
       w.node.knownRoutes.lookup peerFp = some (7, ["peer.onion"])) := by
  decide +kernel

end Sample

end Healer
end Talkrypt.Core
