import Talkrypt.Lib.Except
import Talkrypt.Crypto.TreeKem.Tree

/-!
# The update path: `rekey_path` against `process_update_path`

The committer seals the secret of each of its path nodes to the occupied leaves of the copath. A
member finds the one level whose copath holds its own leaf, opens the blob for it, and derives the
rest of the path upwards, so that it ends with the committer's epoch secret
(`processUpdatePath_rekeyPath`).
-/

namespace Talkrypt.TreeKem

variable {S : Scheme}

theorem nodeAt_founder_inj {i j : Nat} (h : nodeAt 0 i = nodeAt 0 j) : i = j :=
  Nat.pow_right_injective le_rfl (congrArg Node.span h)

/-- The committer's path from level `j` on, `n` nodes long. -/
def hostLevels (j n : Nat) : List Node := (List.range' j n).map (nodeAt 0)

@[simp] theorem hostLevels_succ (j n : Nat) :
    hostLevels j (n + 1) = nodeAt 0 j :: hostLevels (j + 1) n := by
  rw [hostLevels, List.range'_succ, List.map_cons, hostLevels]

@[simp] theorem hostLevels_length (j n : Nat) : (hostLevels j n).length = n := by simp [hostLevels]

theorem hostPath_eq (k : Nat) : pathToRoot (2 ^ k) 0 = Node.leaf 0 :: hostLevels 1 k := by
  rw [pathToRoot, ancestorsOf_eq, hostLevels]

theorem mem_chainUp_hostLevels {s ps : S.Secret} {node : Node} {j n : Nat}
    (h : (node, ps) ∈ chainUp s (hostLevels j n)) :
    ∃ d, d < n ∧ node = nodeAt 0 (j + d) ∧ ps = (S.deriveParentSecret)^[d] s := by
  induction n generalizing s j with
  | zero => cases h
  | succ n ih =>
    rw [hostLevels_succ, chainUp] at h
    rcases List.mem_cons.mp h with heq | hmem
    · cases heq
      exact ⟨0, n.succ_pos, rfl, rfl⟩
    · obtain ⟨d, hd, hnode, hps⟩ := ih hmem
      refine ⟨d + 1, by omega, by rw [hnode, Nat.add_right_comm, Nat.add_assoc], ?_⟩
      rw [hps, Function.iterate_succ_apply]

theorem mem_chainUp (s : S.Secret) {j n d : Nat} (hd : d < n) :
    (nodeAt 0 (j + d), (S.deriveParentSecret)^[d] s) ∈ chainUp s (hostLevels j n) := by
  induction n generalizing s j d with
  | zero => cases hd
  | succ n ih =>
    rw [hostLevels_succ, chainUp]
    cases d with
    | zero => exact List.mem_cons_self
    | succ d =>
      rw [Function.iterate_succ_apply, show j + (d + 1) = j + 1 + d by omega]
      exact List.mem_cons_of_mem _ (ih _ (by omega))

theorem nodup_hostLevels (j n : Nat) : (hostLevels j n).Nodup :=
  List.Nodup.map (fun _ _ => nodeAt_founder_inj) List.nodup_range'

theorem lastOf_chainUp (s : S.Secret) {j n d : Nat} (hd : d < n) :
    Table.lastOf (chainUp s (hostLevels j n)) (nodeAt 0 (j + d)) = some ((S.deriveParentSecret)^[d] s) :=
  Table.lastOf_eq_some (by rw [chainUp_map_fst]; exact nodup_hostLevels j n) (mem_chainUp s hd)

namespace Group
variable {g m : Group S}

/-- `m` holds a secret of the key that `g` has at node `n`. -/
def HoldsKey (m g : Group S) (n : Node) : Prop :=
  ∃ profile s, m.secrets.lookup n = some s ∧ g.pubs.lookup n = some (S.derivePublic profile s)

/-- `m` holds the secrets of the committer's path in `g`, from where its own path meets it. -/
def HoldsPath (m g : Group S) : Prop := ∀ j, 0 < j → 2 ^ j ≤ g.capacity → m.me < 2 ^ j → m.HoldsKey g (nodeAt 0 j)

/-! ## Sealing -/

variable {coins : Node → Node → S.Coin} {e : Node × Node × S.Blob} {cts : List (Node × Node × S.Blob)}

theorem sealTo_eq_ok {node target : Node} {ps : S.Secret} (h : g.sealTo coins node ps target = .ok e) :
    ∃ pub blob, g.pubs.lookup target = some pub ∧ S.sealSecret pub ps (coins node target) = .ok blob ∧
      e = (node, target, blob) := by
  unfold sealTo at h
  cases hpub : g.pubs.lookup target with
  | none => simp [hpub] at h
  | some pub =>
    simp only [hpub, except_bind_eq_ok] at h
    obtain ⟨blob, hblob, heq⟩ := h
    cases heq
    exact ⟨pub, blob, rfl, hblob, rfl⟩

theorem mem_sealLevels {below : Node} {chain : List (Node × S.Secret)}
    (h : g.sealLevels coins below chain = .ok cts) (he : e ∈ cts) :
    ∃ ps pub, (e.1, ps) ∈ chain ∧ g.pubs.lookup e.2.1 = some pub ∧
      S.sealSecret pub ps (coins e.1 e.2.1) = .ok e.2.2 := by
  induction chain generalizing below cts with
  | nil => cases h; cases he
  | cons np chain ih =>
    obtain ⟨node, ps⟩ := np
    rw [sealLevels, except_bind_eq_ok] at h
    obtain ⟨here, hhere, h⟩ := h
    obtain ⟨above, habove, h⟩ := except_bind_eq_ok.mp h
    cases h
    rcases List.mem_append.mp he with hmem | hmem
    · obtain ⟨target, -, hseal⟩ := except_mapM_of_mem hhere hmem
      obtain ⟨pub, blob, hpub, hblob, rfl⟩ := sealTo_eq_ok hseal
      exact ⟨ps, pub, List.mem_cons_self, hpub, hblob⟩
    · obtain ⟨ps', pub, hchain, hpub, hblob⟩ := ih habove hmem
      exact ⟨ps', pub, List.mem_cons_of_mem _ hchain, hpub, hblob⟩

theorem exists_mem_sealLevels {s : S.Secret} {j n : Nat}
    (h : g.sealLevels coins (nodeAt 0 j) (chainUp s (hostLevels (j + 1) n)) = .ok cts) {i : Nat} (hji : j ≤ i)
    (hin : i < j + n) {target : Node} (ht : target ∈ g.resolution (nodeAt 0 i).sibling) :
    ∃ blob, (nodeAt 0 (i + 1), target, blob) ∈ cts := by
  induction n generalizing s j cts with
  | zero => omega
  | succ n ih =>
    rw [hostLevels_succ, chainUp, sealLevels, except_bind_eq_ok] at h
    obtain ⟨here, hhere, h⟩ := h
    obtain ⟨above, habove, h⟩ := except_bind_eq_ok.mp h
    cases h
    rcases hji.eq_or_lt with rfl | hlt
    · obtain ⟨e, he, hseal⟩ := except_mapM_mem hhere ht
      obtain ⟨pub, blob, -, -, rfl⟩ := sealTo_eq_ok hseal
      exact ⟨blob, List.mem_append_left _ he⟩
    · obtain ⟨blob, hblob⟩ := ih habove hlt (by omega)
      exact ⟨blob, List.mem_append_right _ hblob⟩

theorem sealLevels_target {s : S.Secret} {j n : Nat}
    (h : g.sealLevels coins (nodeAt 0 j) (chainUp s (hostLevels (j + 1) n)) = .ok cts) (he : e ∈ cts) :
    ∃ i, e.2.1 ∈ g.resolution (nodeAt 0 i).sibling := by
  induction n generalizing s j cts with
  | zero => cases h; cases he
  | succ n ih =>
    rw [hostLevels_succ, chainUp, sealLevels, except_bind_eq_ok] at h
    obtain ⟨here, hhere, h⟩ := h
    obtain ⟨above, habove, h⟩ := except_bind_eq_ok.mp h
    cases h
    rcases List.mem_append.mp he with hmem | hmem
    · obtain ⟨target, ht, hseal⟩ := except_mapM_of_mem hhere hmem
      obtain ⟨pub, blob, -, -, rfl⟩ := sealTo_eq_ok hseal
      exact ⟨j, ht⟩
    · exact ih habove hmem

def Sealable (g : Group S) : Prop := ∀ n pk, g.pubs.lookup n = some pk → S.Seals pk

theorem Sealable.sealLevels_total (hg : g.Sealable) (coins : Node → Node → S.Coin) (below : Node)
    (chain : List (Node × S.Secret)) : ∃ cts, g.sealLevels coins below chain = .ok cts := by
  induction chain generalizing below with
  | nil => exact ⟨[], rfl⟩
  | cons np chain ih =>
    obtain ⟨node, ps⟩ := np
    obtain ⟨here, hhere⟩ : ∃ here, (g.resolution below.sibling).mapM (g.sealTo coins node ps) = .ok here := by
      refine except_mapM_total fun target ht => ?_
      obtain ⟨pub, hpub⟩ := Option.isSome_iff_exists.mp (resolutionAux_isSome ht)
      obtain ⟨blob, hblob⟩ := hg target pub hpub ps (coins node target)
      exact ⟨(node, target, blob), by simp [sealTo, hpub, hblob, bind, Except.bind, pure, Except.pure]⟩
    obtain ⟨above, habove⟩ := ih node
    exact ⟨here ++ above, by simp [sealLevels, hhere, habove, bind, Except.bind, pure, Except.pure]⟩

section Total
variable (hderive : ∀ profile s, S.Seals (S.derivePublic profile s))
include hderive

theorem Sealable.installPath (hg : g.Sealable) (chain : List (Node × S.Secret)) :
    (g.installPath chain).Sealable := by
  intro n pk hpk
  have hpk' := (Table.lookup_insertAll _ _ _).symm.trans hpk
  rcases Option.or_eq_some_iff.mp hpk' with hnew | ⟨-, hold⟩
  · obtain ⟨e, -, heq⟩ := List.mem_map.mp (Table.mem_of_lastOf hnew)
    cases heq
    exact hderive _ _
  · exact hg n pk hold

theorem Sealable.rekeyPath_total (hg : g.Sealable) (r : RekeyCoins S) (ps : List (Proposal S))
    (su : Option (Nat × IdentityPublic × Bytes)) : ∃ g' c, g.rekeyPath r ps su = (g', .ok c) := by
  obtain ⟨cts, hcts⟩ := (hg.installPath hderive (chainUp r.fresh (pathToRoot g.capacity g.me))).sealLevels_total
    r.coins (.leaf g.me) (chainUp r.fresh (pathToRoot g.capacity g.me)).tail
  unfold rekeyPath
  dsimp only
  split
  · next e herr => exact absurd (hcts.symm.trans herr) nofun
  · exact ⟨_, _, rfl⟩

end Total

theorem Sealable.enactProposal (hg : g.Sealable) {p : Proposal S}
    (hp : ∀ pk, p.newKey = some pk → S.Seals pk) : (g.enactProposal p).Sealable := by
  intro n pk hpk
  rw [pubs_enactProposal] at hpk
  split at hpk
  · cases hpk
  · split at hpk
    · exact hp pk hpk
    · exact hg n pk hpk

/-! ## The member's side -/

/-- A member holds the secret of its own leaf and of no other leaf, and the signing key its leaf is
bound to. -/
structure Holds (m : Group S) (s : S.Secret) (k : S.SigSeed) : Prop where
  pos : 0 < m.me
  occupied : m.isOccupied m.me = true
  secret : m.secrets.lookup (.leaf m.me) = some s
  only : ∀ l, l ≠ m.me → m.secrets.lookup (.leaf l) = none
  key : m.pubs.lookup (.leaf m.me) = some (S.derivePublic m.profile s)
  sig : m.mySig = some k
  sigKey : m.leafSigKeys.lookup m.me = some (S.sigPublic k)

theorem exists_level {l k : Nat} (hpos : 0 < l) (hlt : l < 2 ^ k) :
    ∃ i, i < k ∧ 2 ^ i ≤ l ∧ l < 2 ^ i + 2 ^ i := by
  refine ⟨Nat.log 2 l, Nat.log_lt_of_lt_pow hpos.ne' hlt, Nat.pow_log_le_self 2 hpos.ne', ?_⟩
  have := Nat.lt_pow_succ_log_self (b := 2) (by decide) l
  rw [Nat.pow_succ] at this
  omega

section FindHeld
variable {s : S.Secret} {k : S.SigSeed}

private theorem findSome?_ite {β : Type} {a : Nat} {o : Option β} (l : List Nat) :
    (l.findSome? fun x => if x = a then o else none) = if a ∈ l then o else none := by
  induction l with
  | nil => rfl
  | cons x l ih =>
    rw [List.findSome?_cons]
    by_cases hx : x = a
    · cases o <;> simp [hx]
    · simp [hx, ih, Ne.symm hx]

private theorem findSome?_copath (hm : m.Shape) (i : Nat) {o : Option S.Secret}
    (hown : m.secrets.lookup (.leaf m.me) = o)
    (honly : ∀ l, l ≠ m.me → m.secrets.lookup (.leaf l) = none) :
    ((m.resolution (nodeAt 0 i).sibling).findSome? fun t => (m.secrets.lookup t).map (t, ·)) =
      if m.isOccupied m.me = true ∧ 2 ^ i ≤ m.me ∧ m.me < 2 ^ i + 2 ^ i then
        o.map (Node.leaf m.me, ·) else none := by
  rw [sibling_nodeAt_founder, hm.resolution_eq i (Nat.two_pow_pos i), List.findSome?_map]
  have hval : ∀ l, ((fun t => (m.secrets.lookup t).map (t, ·)) ∘ Node.leaf) l =
      if l = m.me then o.map (Node.leaf m.me, ·) else none := by
    intro l
    by_cases hl : l = m.me
    · simp [hl, hown]
    · simp [hl, honly l hl]
  have hmem : m.me ∈ (List.range' (2 ^ i) (2 ^ i)).filter m.isOccupied ↔
      m.isOccupied m.me = true ∧ 2 ^ i ≤ m.me ∧ m.me < 2 ^ i + 2 ^ i := by
    rw [List.mem_filter, List.mem_range'_1, and_comm]
  rw [funext hval, findSome?_ite]
  simp only [hmem]

theorem findHeld_eq_some (hm : m.Shape) (h : m.Holds s k) {i : Nat} (hi : 2 ^ i ≤ m.me)
    (hi' : m.me < 2 ^ i + 2 ^ i) :
    ∀ {n j : Nat}, j ≤ i → i < j + n → m.findHeld (nodeAt 0 j) (hostLevels (j + 1) n) =
      some (.leaf m.me, s, nodeAt 0 (i + 1), hostLevels (i + 2) (j + n - (i + 1)))
  | 0, _, _, _ => by omega
  | n + 1, j, hj, hn => by
    rw [hostLevels_succ, findHeld, findSome?_copath hm j h.secret h.only]
    rcases hj.eq_or_lt with rfl | hlt
    · rw [if_pos ⟨h.occupied, hi, hi'⟩, show j + (n + 1) - (j + 1) = n by omega]
      rfl
    · have hout : ¬ m.me < 2 ^ j + 2 ^ j := by
        have : 2 ^ (j + 1) ≤ 2 ^ i := Nat.pow_le_pow_right (by decide) hlt
        rw [Nat.pow_succ] at this
        omega
      rw [if_neg fun hc => hout hc.2.2]
      simp only [findHeld_eq_some hm h hi hi' (j := j + 1) (n := n) hlt (by omega),
        show j + 1 + n = j + (n + 1) by omega]

theorem findHeld_eq_none (hm : m.Shape) (h : ∀ l, m.secrets.lookup (.leaf l) = none) :
    ∀ n j, m.findHeld (nodeAt 0 j) (hostLevels (j + 1) n) = none
  | 0, _ => rfl
  | n + 1, j => by
    rw [hostLevels_succ, findHeld, findSome?_copath hm j (h m.me) fun l _ => h l]
    simp [findHeld_eq_none hm h n (j + 1)]

end FindHeld

/-! ## The commit of a successful re-key -/

section SignCommit
variable (g : Group S) (fromEpoch : Nat) (c : Commit S)

@[simp] theorem signCommit_proposals : (g.signCommit fromEpoch c).proposals = c.proposals := by
  unfold signCommit; split <;> rfl
@[simp] theorem signCommit_pubUpdates : (g.signCommit fromEpoch c).pubUpdates = c.pubUpdates := by
  unfold signCommit; split <;> rfl
@[simp] theorem signCommit_path : (g.signCommit fromEpoch c).path = c.path := by
  unfold signCommit; split <;> rfl
@[simp] theorem signCommit_ciphertexts : (g.signCommit fromEpoch c).ciphertexts = c.ciphertexts := by
  unfold signCommit; split <;> rfl
@[simp] theorem signCommit_newCapacity : (g.signCommit fromEpoch c).newCapacity = c.newCapacity := by
  unfold signCommit; split <;> rfl
@[simp] theorem signCommit_sigUpdate : (g.signCommit fromEpoch c).sigUpdate = c.sigUpdate := by
  unfold signCommit; split <;> rfl
@[simp] theorem signCommit_encodeBody : (g.signCommit fromEpoch c).encodeBody = c.encodeBody := by
  simp [Commit.encodeBody]

end SignCommit

/-- What a successful re-key by leaf 0 leaves behind: the group it installed and the commit, up to its
signature. -/
structure Rekeyed (g : Group S) (r : RekeyCoins S) (proposals : List (Proposal S))
    (sigUpdate : Option (Nat × IdentityPublic × Bytes)) (g' : Group S) (c : Commit S) : Prop where
  group : g' = (g.installPath (chainUp r.fresh (pathToRoot g.capacity 0))).advance
    (S.deriveCommitSecret (topSecret r.fresh (pathToRoot g.capacity 0)))
  proposals : c.proposals = proposals
  pubUpdates : c.pubUpdates = (chainUp r.fresh (pathToRoot g.capacity 0)).map fun e =>
    (e.1, S.derivePublic g.profile e.2)
  path : c.path = pathToRoot g.capacity 0
  ciphertexts : (g.installPath (chainUp r.fresh (pathToRoot g.capacity 0))).sealLevels r.coins (.leaf 0)
    (chainUp (S.deriveParentSecret r.fresh) (ancestorsOf g.capacity 0)) = .ok c.ciphertexts
  newCapacity : c.newCapacity = g.capacity
  sigUpdate : c.sigUpdate = sigUpdate
  signature : ∀ k, g.mySig = some k →
    c.commitSig = S.sign k (commitAuthTranscript g.epoch 0 c.encodeBody)

theorem rekeyPath_eq_ok {r : RekeyCoins S} {ps : List (Proposal S)}
    {su : Option (Nat × IdentityPublic × Bytes)} {g' : Group S} {c : Commit S} (hme : g.me = 0)
    (h : g.rekeyPath r ps su = (g', .ok c)) : g.Rekeyed r ps su g' c := by
  unfold rekeyPath at h
  simp only [hme] at h
  split at h
  · cases h
  · next cts hseal =>
    simp only [Prod.mk.injEq, Except.ok.injEq] at h
    obtain ⟨rfl, rfl⟩ := h
    have hme' : (g.installPath (chainUp r.fresh (pathToRoot g.capacity 0))).me = 0 := hme
    rw [hme'] at hseal
    refine ⟨rfl, signCommit_proposals .., signCommit_pubUpdates .., signCommit_path ..,
      (signCommit_ciphertexts ..).symm ▸ hseal, signCommit_newCapacity .., signCommit_sigUpdate .., ?_⟩
    intro k hk
    rw [signCommit_encodeBody]
    have hsig : ((g.installPath (chainUp r.fresh (pathToRoot g.capacity 0))).advance
      (S.deriveCommitSecret (topSecret r.fresh (pathToRoot g.capacity 0)))).mySig = some k := hk
    simp only [signCommit, hsig]
    exact congrArg (fun me => S.sign k (commitAuthTranscript g.epoch me _)) hme

section Rekeyed
variable {r : RekeyCoins S} {ps : List (Proposal S)} {su : Option (Nat × IdentityPublic × Bytes)}
  {g' : Group S} {c : Commit S}

theorem Rekeyed.shape (h : g.Rekeyed r ps su g' c) (hg : g.Shape) (hocc : g.isOccupied 0 = true) :
    g'.Shape := by
  rw [h.group]
  exact ⟨hg.capacity, hg.length, (hg.installPath hocc r.fresh).leaves, (hg.installPath hocc r.fresh).inner⟩

theorem Rekeyed.lookup_leaf (h : g.Rekeyed r ps su g' c) (hg : g.Shape) {l : Nat} (hl : l ≠ 0) :
    g'.pubs.lookup (.leaf l) = g.pubs.lookup (.leaf l) := by
  obtain ⟨n, -, hcap⟩ := hg.capacity
  have hnone : Table.lastOf c.pubUpdates (.leaf l) = none := by
    rw [h.pubUpdates, ← Option.not_isSome_iff_eq_none, Table.isSome_lastOf, List.map_map, hcap]
    simpa only [Function.comp_def, chainUp_map_fst, leaf_mem_hostPath] using hl
  have hpubs : g'.pubs = g.pubs.insertAll c.pubUpdates := by rw [h.group, h.pubUpdates]; rfl
  rw [hpubs, Table.lookup_insertAll, hnone, Option.none_or]

theorem Rekeyed.insertAll_pubUpdates (h : g.Rekeyed r ps su g' c) :
    Table.Same (g'.pubs.insertAll c.pubUpdates) g'.pubs := by
  intro n
  have hpubs : g'.pubs = g.pubs.insertAll c.pubUpdates := by rw [h.group, h.pubUpdates]; rfl
  rw [hpubs, Table.lookup_insertAll, Table.lookup_insertAll, ← Option.or_assoc, Option.or_self]

theorem Rekeyed.lookup_path (h : g.Rekeyed r ps su g' c) {j k : Nat} (hcap : g.capacity = 2 ^ k) (hj : j ≤ k) :
    g'.secrets.lookup (nodeAt 0 j) = some ((S.deriveParentSecret)^[j] r.fresh) ∧
      g'.pubs.lookup (nodeAt 0 j) = some (S.derivePublic g.profile ((S.deriveParentSecret)^[j] r.fresh)) := by
  have hpath : pathToRoot (2 ^ k) 0 = hostLevels 0 (k + 1) := by
    rw [pathToRoot_eq, hostLevels, List.range_eq_range']
  have hmem := mem_chainUp r.fresh (j := 0) (Nat.lt_succ_of_le hj)
  have hlast := lastOf_chainUp r.fresh (j := 0) (Nat.lt_succ_of_le hj)
  rw [Nat.zero_add] at hmem hlast
  rw [h.group, hcap, hpath]
  refine ⟨(Table.lookup_insertAll ..).trans (by rw [hlast, Option.some_or]), (Table.lookup_insertAll ..).trans ?_⟩
  have hmem := List.mem_map_of_mem (f := fun e : Node × S.Secret => (e.1, S.derivePublic g.profile e.2)) hmem
  rw [Table.lastOf_eq_some _ hmem, Option.some_or]
  rw [List.map_map]
  simpa only [Function.comp_def, chainUp_map_fst] using nodup_hostLevels 0 (k + 1)

theorem Rekeyed.find?_ciphertexts (h : g.Rekeyed r ps su g' c) {i k : Nat}
    (hcap : g.capacity = 2 ^ k) (hi : i < k) {target : Node}
    (ht : target ∈ g'.resolution (nodeAt 0 i).sibling) :
    ∃ blob pub, c.ciphertexts.find? (fun e => e.1 = nodeAt 0 (i + 1) ∧ e.2.1 = target) =
        some (nodeAt 0 (i + 1), target, blob) ∧ g'.pubs.lookup target = some pub ∧
      S.sealSecret pub ((S.deriveParentSecret)^[i + 1] r.fresh) (r.coins (nodeAt 0 (i + 1)) target) =
        .ok blob := by
  have hcts := h.ciphertexts
  rw [hcap, ancestorsOf_eq, ← hostLevels, ← nodeAt_zero] at hcts
  have hpubs : g'.pubs = (g.installPath (chainUp r.fresh (pathToRoot (2 ^ k) 0))).pubs := by
    rw [h.group, hcap]
    rfl
  have hres : g'.resolution = (g.installPath (chainUp r.fresh (pathToRoot (2 ^ k) 0))).resolution := by
    funext n
    rw [resolution, hpubs, resolution]
  obtain ⟨blob₀, hmem₀⟩ := exists_mem_sealLevels hcts (Nat.zero_le i) (by omega) (hres ▸ ht)
  obtain ⟨e, hfind⟩ : ∃ e, c.ciphertexts.find?
      (fun e => e.1 = nodeAt 0 (i + 1) ∧ e.2.1 = target) = some e :=
    Option.isSome_iff_exists.mp (List.find?_isSome.mpr ⟨_, hmem₀, by simp⟩)
  obtain ⟨node, target', blob⟩ := e
  obtain ⟨rfl, rfl⟩ : node = nodeAt 0 (i + 1) ∧ target' = target := by
    simpa using List.find?_some hfind
  obtain ⟨s, pub, hchain, hpub, hseal⟩ := mem_sealLevels hcts (List.mem_of_find?_eq_some hfind)
  obtain ⟨d, -, hnode, rfl⟩ := mem_chainUp_hostLevels hchain
  obtain rfl : i = d := by
    have := nodeAt_founder_inj hnode
    omega
  refine ⟨blob, pub, hfind, by rw [hpubs]; exact hpub, ?_⟩
  rw [Function.iterate_succ_apply]
  exact hseal

theorem Rekeyed.mem_ciphertexts (h : g.Rekeyed r ps su g' c) (hg : g.Shape) (hocc : g.isOccupied 0 = true)
    {e : Node × Node × S.Blob} (he : e ∈ c.ciphertexts) :
    ∃ l pub d coin, l ≠ 0 ∧ g'.pubs.lookup (.leaf l) = some pub ∧
      S.sealSecret pub ((S.deriveParentSecret)^[d] r.fresh) coin = .ok e.2.2 := by
  obtain ⟨k, -, hcap⟩ := hg.capacity
  have hcts := h.ciphertexts
  have hshape := hg.installPath hocc r.fresh
  rw [hcap, ancestorsOf_eq, ← hostLevels, ← nodeAt_zero] at hcts
  rw [hcap] at hshape
  obtain ⟨s, pub, hchain, hpub, hseal⟩ := mem_sealLevels hcts he
  obtain ⟨d, -, -, rfl⟩ := mem_chainUp_hostLevels hchain
  obtain ⟨i, ht⟩ := sealLevels_target hcts he
  rw [sibling_nodeAt_founder, hshape.resolution_eq i (Nat.two_pow_pos i)] at ht
  obtain ⟨l, hl, hleaf⟩ := List.mem_map.mp ht
  have hpos := (List.mem_range'_1.mp (List.mem_filter.mp hl).1).1
  refine ⟨l, pub, d + 1, r.coins e.1 e.2.1, ((Nat.two_pow_pos i).trans_le hpos).ne', ?_, ?_⟩
  · rw [h.group, hcap, hleaf]
    exact hpub
  · rw [Function.iterate_succ_apply]
    exact hseal

/-- A member that sees the committer's tree and holds its own leaf secret follows the commit: it gets
the new epoch secret and learns no leaf secret. -/
theorem processUpdatePath_rekeyPath (hS : S.Lawful) (h : g.Rekeyed r ps su g' c) (hg : g.Shape)
    (hocc : g.isOccupied 0 = true) (hsame : SameNodes g' (m.adoptPath c)) {s : S.Secret} {k : S.SigSeed}
    (hm : (m.adoptPath c).Holds s k) :
    ∃ chain, (∀ l, Table.lastOf chain (Node.leaf l) = none) ∧
      HoldsPath { m.adoptPath c with secrets := (m.adoptPath c).secrets.insertAll chain } g' ∧
      m.processUpdatePath c =
        ({ m.adoptPath c with secrets := (m.adoptPath c).secrets.insertAll chain },
          .ok g'.epochSecret) := by
  obtain ⟨n, -, hcap⟩ := hg.capacity
  have hg' := h.shape hg hocc
  have hcap' : g'.capacity = 2 ^ n := by rw [h.group]; exact hcap
  have hlt : m.me < 2 ^ n := by
    rw [← hcap', ← hsame.capacity]
    exact (hsame.shape hg').isOccupied_lt hm.occupied
  obtain ⟨i, hin, hi, hi'⟩ := exists_level hm.pos hlt
  have hfound : (m.adoptPath c).findHeld (.leaf 0) (hostLevels 1 n) = some (.leaf m.me, s,
      nodeAt 0 (i + 1), hostLevels (i + 2) (n - (i + 1))) := by
    have := findHeld_eq_some (hsame.shape hg') hm hi hi' (n := n) (j := 0) (Nat.zero_le i) (by omega)
    rw [nodeAt_zero, Nat.zero_add, Nat.zero_add] at this
    exact this
  -- our leaf is a target of the committer at that level
  have hres : Node.leaf m.me ∈ g'.resolution (nodeAt 0 i).sibling := by
    rw [sibling_nodeAt_founder, hg'.resolution_eq i (Nat.two_pow_pos i)]
    refine List.mem_map_of_mem (List.mem_filter.mpr ⟨List.mem_range'_1.mpr ⟨hi, hi'⟩, ?_⟩)
    rw [← hsame.isOccupied]
    exact hm.occupied
  obtain ⟨blob, pub, hfind, hpub, hseal⟩ := h.find?_ciphertexts hcap hin hres
  obtain rfl : pub = S.derivePublic m.profile s := by
    have := hm.key.symm.trans ((hsame.pubs _).trans hpub)
    exact (Option.some.inj this).symm
  have hopen : S.openSecret (m.adoptPath c).profile s blob = _ := hS.open_seal _ _ _ _ _ hseal
  refine ⟨chainUp ((S.deriveParentSecret)^[i + 1] r.fresh) (hostLevels (i + 1) (n - i)), ?_, ?_, ?_⟩
  · intro l
    rw [← Option.not_isSome_iff_eq_none, Table.isSome_lastOf, chainUp_map_fst, hostLevels, List.mem_map]
    rintro ⟨j, hj, heq⟩
    have hj := List.mem_range'_1.mp hj
    have hspan : 2 ^ j = 1 := congrArg Node.span heq
    have := Nat.one_lt_two_pow (n := j) (by omega)
    omega
  · intro j hj hjcap hme
    have hjn : j ≤ n := (Nat.pow_le_pow_iff_right (by decide)).mp (hcap' ▸ hjcap)
    obtain ⟨d, rfl⟩ : ∃ d, j = i + 1 + d :=
      Nat.exists_eq_add_of_lt ((Nat.pow_lt_pow_iff_right (a := 2) (by decide)).mp (hi.trans_lt hme)) |>.imp
        fun d hd => by omega
    refine ⟨g.profile, (S.deriveParentSecret)^[i + 1 + d] r.fresh, (Table.lookup_insertAll ..).trans ?_,
      (h.lookup_path hcap hjn).2⟩
    rw [lastOf_chainUp _ (by omega), Option.some_or, ← Function.iterate_add_apply, Nat.add_comm d]
  · have hlevels : hostLevels (i + 1) (n - i) = nodeAt 0 (i + 1) :: hostLevels (i + 2) (n - (i + 1)) := by
      rw [show n - i = (n - (i + 1)) + 1 by omega, hostLevels_succ]
    have hsecret : g'.epochSecret =
        S.deriveCommitSecret (topSecret ((S.deriveParentSecret)^[i + 1] r.fresh)
          (hostLevels (i + 1) (n - i))) := by
      rw [h.group]
      simp only [topSecret, hcap, pathToRoot_eq, List.length_map, List.length_range, hostLevels_length]
      rw [← Function.iterate_add_apply, show n - i - 1 + (i + 1) = n + 1 - 1 by omega]
      rfl
    unfold processUpdatePath
    rw [h.path, hcap, hostPath_eq]
    simp only [hfound, hfind, hopen, ← hlevels]
    rw [hsecret]

end Rekeyed
end Group
end Talkrypt.TreeKem
