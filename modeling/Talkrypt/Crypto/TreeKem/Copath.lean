import Talkrypt.Crypto.TreeKem.Agreement
import Talkrypt.Crypto.TreeKem.Secrecy

/-!
# Copaths

`rekey_path` seals a path secret to the resolutions of the copath. Over any tree whose occupied leaves
carry keys, these resolutions cover every other occupied leaf exactly once (`Group.targets_below`), and
along a run each member holds the secrets of the nodes it is covered by (`World.copath_covers`), unless
it has staged another `Update` than the one committed (`World.restaged_leaf_lost`).
-/

namespace Talkrypt.TreeKem
open scoped List

variable {S : Scheme}

/-- The siblings along a path, from the leaf to below the root. -/
def copath (capacity leaf : Nat) : List Node := (pathToRoot capacity leaf).dropLast.map Node.sibling

theorem copath_eq (l k : Nat) : copath (2 ^ k) l = (List.range k).map fun i => (nodeAt l i).sibling := by
  rw [copath, pathToRoot_eq, List.range_succ, List.map_append, List.map_singleton, List.dropLast_concat,
    List.map_map]
  rfl

namespace Group
variable {g : Group S}

def below (g : Group S) (n : Node) : List Nat := (List.range' n.lo n.span).filter g.isOccupied

/-- The nodes that the path secrets of `leaf` are sealed to. -/
def targets (g : Group S) (leaf : Nat) : List Node := (copath g.capacity leaf).flatMap g.resolution

/-! ## The partition -/

theorem mem_below {n : Node} {l : Nat} : l ∈ g.below n ↔ n.Covers l ∧ g.isOccupied l = true := by
  rw [below, List.mem_filter, List.mem_range'_1, Node.Covers]

theorem below_halves (g : Group S) (lo j : Nat) :
    g.below ⟨lo, 2 ^ (j + 1)⟩ = g.below ⟨lo, 2 ^ j⟩ ++ g.below ⟨lo + 2 ^ j, 2 ^ j⟩ := by
  simp only [below]
  rw [← List.filter_append, pow_succ, Nat.mul_two, List.range'_append_1]

theorem children_two_pow (lo j : Nat) :
    Node.children ⟨lo, 2 ^ (j + 1)⟩ = some (⟨lo, 2 ^ j⟩, ⟨lo + 2 ^ j, 2 ^ j⟩) := by
  have hspan : 2 ^ (j + 1) ≠ 1 := (Nat.one_lt_two_pow (by omega)).ne'
  have hhalf : 2 ^ (j + 1) / 2 = 2 ^ j := by rw [pow_succ, Nat.mul_div_cancel _ (by decide)]
  simp only [Node.children, if_neg hspan, hhalf]

theorem resolutionAux_below (h : ∀ l, g.isOccupied l = true → (g.pubs.lookup (.leaf l)).isSome) {fuel j : Nat}
    (lo : Nat) (hj : j < fuel) : (resolutionAux g.pubs fuel ⟨lo, 2 ^ j⟩).flatMap g.below = g.below ⟨lo, 2 ^ j⟩ := by
  induction fuel generalizing lo j with
  | zero => cases hj
  | succ fuel ih =>
    rw [resolutionAux]
    split
    · rw [List.flatMap_singleton]
    · next hblank =>
      cases j with
      | zero =>
        have hfree : ¬ g.isOccupied lo = true := fun hocc => hblank (h lo hocc)
        simp [below, hfree, Node.children]
      | succ j =>
        simp only [children_two_pow, List.flatMap_append]
        rw [ih lo (by omega), ih (lo + 2 ^ j) (by omega), below_halves]

theorem below_sibling (g : Group S) (l i : Nat) :
    g.below (nodeAt l (i + 1)) ~ g.below (nodeAt l i) ++ g.below (nodeAt l i).sibling := by
  have hpos := Nat.two_pow_pos i
  have hlo : 2 ^ (i + 1) * (l / 2 ^ (i + 1)) = 2 ^ i * (2 * (l / 2 ^ i / 2)) := by
    rw [pow_succ, ← Nat.div_div_eq_div_mul, mul_assoc]
  simp only [nodeAt, hlo, Node.sibling, Nat.mul_div_cancel_left _ hpos]
  rw [below_halves]
  rcases Nat.mod_two_eq_zero_or_one (l / 2 ^ i) with heven | hodd
  · rw [if_pos heven, show 2 * (l / 2 ^ i / 2) = l / 2 ^ i by omega]
  · rw [if_neg (by omega), show l / 2 ^ i = 2 * (l / 2 ^ i / 2) + 1 by omega, Nat.mul_add, Nat.mul_one,
      Nat.add_sub_cancel, show (2 * (l / 2 ^ i / 2) + 1) / 2 = l / 2 ^ i / 2 by omega]
    exact List.perm_append_comm

theorem below_nodeAt {l : Nat} (hocc : g.isOccupied l = true) (i : Nat) :
    g.below (nodeAt l i) ~ l :: ((List.range i).map fun j => (nodeAt l j).sibling).flatMap g.below := by
  induction i with
  | zero => simp [below, Node.leaf, hocc]
  | succ i ih =>
    refine (below_sibling g l i).trans ((ih.append_right _).trans ?_)
    rw [List.range_succ, List.map_append, List.flatMap_append, List.map_singleton, List.flatMap_singleton]
    rfl

theorem targets_below (hcap : ∃ k, g.capacity = 2 ^ k)
    (h : ∀ l, g.isOccupied l = true → (g.pubs.lookup (.leaf l)).isSome) {leaf : Nat}
    (hocc : g.isOccupied leaf = true) (hlt : leaf < g.capacity) :
    (g.targets leaf).flatMap g.below ~ ((List.range g.capacity).filter g.isOccupied).erase leaf := by
  obtain ⟨k, hk⟩ := hcap
  have hroot : nodeAt leaf k = ⟨0, 2 ^ k⟩ := by
    rw [nodeAt, Nat.div_eq_of_lt (hk ▸ hlt), Nat.mul_zero]
  have hres : ∀ n ∈ copath (2 ^ k) leaf, (g.resolution n).flatMap g.below = g.below n := by
    intro n hn
    rw [copath_eq] at hn
    obtain ⟨i, -, rfl⟩ := List.mem_map.mp hn
    rw [show (nodeAt leaf i).sibling = ⟨(nodeAt leaf i).sibling.lo, 2 ^ i⟩ by
      rw [Node.sibling]; split <;> rfl]
    exact resolutionAux_below h _ Nat.lt_two_pow_self
  have hpart := below_nodeAt hocc k
  rw [← copath_eq, hroot] at hpart
  rw [targets, hk, List.flatMap_assoc, List.flatMap_congr hres, List.range_eq_range']
  have := hpart.symm.erase leaf
  rwa [List.erase_cons_head] at this

/-! ## Keyed nodes -/

theorem mem_resolutionAux {fuel j lo : Nat} {n : Node} (h : n ∈ resolutionAux g.pubs fuel ⟨lo, 2 ^ j⟩) :
    (g.pubs.lookup n).isSome ∧ ∃ i, n.span = 2 ^ i := by
  refine ⟨resolutionAux_isSome h, ?_⟩
  induction fuel generalizing lo j with
  | zero => cases h
  | succ fuel ih =>
    rw [resolutionAux] at h
    split at h
    · exact ⟨j, congrArg Node.span (List.mem_singleton.mp h)⟩
    · cases j with
      | zero => simp [Node.children] at h
      | succ j =>
        simp only [children_two_pow] at h
        rcases List.mem_append.mp h with hl | hr
        · exact ih hl
        · exact ih hr

theorem Shape.mem_targets (h : g.Shape) {leaf : Nat} {n : Node} (hn : n ∈ g.targets leaf) :
    (g.pubs.lookup n).isSome ∧ (n = .leaf n.lo ∨ ∃ j, 0 < j ∧ n = nodeAt 0 j) := by
  obtain ⟨k, -, hcap⟩ := h.capacity
  obtain ⟨c, hc, hn⟩ := List.mem_flatMap.mp hn
  rw [hcap, copath_eq] at hc
  obtain ⟨i, -, rfl⟩ := List.mem_map.mp hc
  rw [show (nodeAt leaf i).sibling = ⟨(nodeAt leaf i).sibling.lo, 2 ^ i⟩ by
    rw [Node.sibling]; split <;> rfl] at hn
  obtain ⟨hkey, j, hj⟩ := mem_resolutionAux hn
  obtain ⟨lo, span⟩ := n
  obtain rfl : span = 2 ^ j := hj
  refine ⟨hkey, ?_⟩
  cases j with
  | zero => exact .inl rfl
  | succ j =>
    have hspan : 2 ^ (j + 1) ≠ 1 := (Nat.one_lt_two_pow (by omega)).ne'
    obtain rfl : lo = 0 := h.inner _ hkey hspan
    exact .inr ⟨j + 1, j.succ_pos, (nodeAt_founder _).symm⟩

/-- The keys of the tree are at nodes that fit it, and the committer holds the secrets of its path. -/
structure OnPath (g : Group S) : Prop where
  span : ∀ n, (g.pubs.lookup n).isSome → n.span ≤ g.capacity
  path : ∀ j, 2 ^ j ≤ g.capacity → g.HoldsKey g (nodeAt 0 j)

variable {g' b : Group S} {r : RekeyCoins S} {ps : List (Proposal S)}
  {su : Option (Nat × IdentityPublic × Bytes)} {c : Commit S}

theorem OnPath.installPath (hcap : ∃ k, k < 32 ∧ g.capacity = 2 ^ k)
    (hspan : ∀ n, (g.pubs.lookup n).isSome → n.span ≤ g.capacity) (s : S.Secret) :
    ∀ n, ((g.installPath (chainUp s (pathToRoot g.capacity 0))).pubs.lookup n).isSome → n.span ≤ g.capacity := by
  obtain ⟨k, -, hcap⟩ := hcap
  intro n hn
  rw [Group.installPath, Table.lookup_insertAll, Option.isSome_or, Bool.or_eq_true, Table.isSome_lastOf,
    List.map_map] at hn
  simp only [Function.comp_def, chainUp_map_fst, hcap] at hn
  rcases hn with hpath | hold
  · obtain ⟨i, hi, rfl⟩ := mem_hostPath.mp hpath
    rw [hcap]
    exact Nat.pow_le_pow_right (by decide) hi
  · exact hspan n hold

theorem Rekeyed.onPath (h : g.Rekeyed r ps su g' c) (hg : g.Shape)
    (hspan : ∀ n, (g.pubs.lookup n).isSome → n.span ≤ g.capacity) : g'.OnPath := by
  obtain ⟨k, hk, hcap⟩ := hg.capacity
  have hcap' : g'.capacity = g.capacity := by rw [h.group]; rfl
  refine ⟨fun n hn => ?_, fun j hj => ?_⟩
  · rw [h.group] at hn ⊢
    exact OnPath.installPath hg.capacity hspan r.fresh n hn
  · rw [hcap', hcap] at hj
    obtain ⟨hsecret, hpub⟩ := h.lookup_path hcap ((Nat.pow_le_pow_iff_right (by decide)).mp hj)
    exact ⟨g.profile, _, hsecret, hpub⟩

theorem OnPath.commits {op : HostOp S} (hg : g.HostInv)
    (hspan : ∀ n, (g.pubs.lookup n).isSome → n.span ≤ g.capacity) (h : op.Commits g r g' c) : g'.OnPath := by
  cases h with
  | @proposal _ b _ p _ hprop hcheck hrekey =>
    obtain ⟨hb, hgrown, -⟩ := hg.proposes hprop
    refine hrekey.onPath (hb.shape.enactProposal hcheck) fun n hn => ?_
    rw [enactProposal_capacity]
    rw [pubs_enactProposal, hgrown.pubs] at hn
    split at hn
    · cases hn
    · split at hn
      · next hleaf =>
        obtain ⟨k, -, hcap⟩ := hb.shape.capacity
        rw [hleaf, hcap]
        exact Nat.one_le_two_pow
      · exact (hspan n hn).trans hgrown.capacity
  | rotation hrekey =>
    have h' := hrekey.onPath hg.shape hspan
    exact ⟨h'.span, h'.path⟩

theorem OnPath.createWithSig (profile : KemProfile) (mySig : S.SigSeed) (s : S.Secret) :
    (Group.createWithSig profile mySig s).OnPath := by
  refine ⟨OnPath.installPath (g := { (Group.createWithSig profile mySig s) with pubs := ∅ })
    ⟨1, by decide, rfl⟩ (fun n hn => by cases hn) s, fun j hj => ?_⟩
  have hj1 : j ≤ 1 := (Nat.pow_le_pow_iff_right (a := 2) (by decide)).mp hj
  interval_cases j
  · exact ⟨profile, s, rfl, rfl⟩
  · exact ⟨profile, S.deriveParentSecret s, rfl, rfl⟩

end Group

/-! ## Along a run -/

namespace World

/-- What a copath of the host's tree is to give: it covers the others once each, and whoever is covered by
a node it reaches, and has not been removed nor fallen behind, holds the secret of the node. -/
structure CopathCovers (w : World S) (leaf : Nat) : Prop where
  partition : (w.host.targets leaf).flatMap w.host.below ~
    ((List.range w.host.capacity).filter w.host.isOccupied).erase leaf
  founder : ∀ n ∈ w.host.targets leaf, 0 ∈ w.host.below n → w.host.HoldsKey w.host n
  members : ∀ n ∈ w.host.targets leaf, ∀ m ∈ w.members, m.group.me ∈ w.host.below n →
    w.Stays m.group.me m.joined w.log.length → (m.live = true → m.applied = w.log.length) →
    m.group.HoldsKey w.host n

/-- A member that has its leaf still follows, and holds the committer's path as of its last commit. -/
structure Follows (w : World S) (m : Member S) : Prop where
  joined : m.joined < m.applied
  path : m.live = true → ∃ g, w.state m.applied = some g ∧ m.group.HoldsPath g
  live : w.Stays m.group.me m.joined w.log.length → m.live = true

structure Covered (w : World S) : Prop where
  inv : w.Inv
  log : ∀ e ∈ w.log, ∀ bytes, e.op ≠ .commitUpdate 0 bytes
  last : ∃ g, w.state w.log.length = some g ∧ g.OnPath ∧ w.host.pubs = g.pubs ∧ w.host.secrets = g.secrets
  members : ∀ m ∈ w.members, w.Follows m

section Steps
variable {w : World S} {m : Member S}

theorem Covered.create (hS : S.Lawful) (profile : KemProfile) (mySig : S.SigSeed) (s : S.Secret) :
    (create profile mySig s).Covered where
  inv := .create hS profile mySig s
  log e he := by cases he
  last := ⟨_, rfl, .createWithSig profile mySig s, rfl, rfl⟩
  members m hm := by cases hm

theorem Follows.mono {w' : World S} (h : w.Follows m) (hstate : ∀ i g, w.state i = some g → w'.state i = some g)
    (hstays : w'.Stays m.group.me m.joined w'.log.length → w.Stays m.group.me m.joined w.log.length) :
    w'.Follows m where
  joined := h.joined
  path hlive := by
    obtain ⟨g, hg, hpath⟩ := h.path hlive
    exact ⟨g, hstate _ g hg, hpath⟩
  live hs := h.live (hstays hs)

theorem Linked.op_of_remove {i l : Nat} {e : Entry S} (h : w.Linked i e)
    (hmem : .remove l ∈ e.commit.proposals) : e.op = .remove l := by
  by_contra hop
  have hcommits := h.commits
  obtain ⟨before, op, coins, after, commit, welcome⟩ := e
  cases hcommits with
  | proposal hprop hcheck hrekey =>
    rw [hrekey.proposals] at hmem
    exact hprop.ne_remove hop (List.mem_singleton.mp hmem).symm
  | rotation hrekey =>
    rw [hrekey.proposals] at hmem
    cases hmem

theorem Follows.propose (h : w.Follows m) (secret : S.Secret) (sig : S.SigSeed) :
    w.Follows (m.propose secret sig) := by
  obtain ⟨pending, heq⟩ := proposeUpdate_fst m.group secret sig
  simp only [Member.propose, heq]
  exact ⟨h.joined, h.path, h.live⟩

theorem Follows.apply (hS : S.Lawful) (hw : w.Covered) (hmem : m ∈ w.members)
    (hstaged : ∀ e p, w.log[m.applied]? = some e → p ∈ e.commit.proposals → m.group.Staged p) :
    w.Follows (m.apply w.log) := by
  have h := hw.members m hmem
  rcases apply_cases m w.log with heq | ⟨e, g', hlive, he, hcase⟩
  · rwa [heq]
  · have hlinked := hw.inv.log _ _ he
    rcases hcase with ⟨happly, heq⟩ | ⟨⟨err, happly⟩, heq⟩
    · obtain ⟨g, s, k, hg, hagree, hold⟩ := hw.inv.members m hmem hlive
      obtain ⟨-, -, -, -, -, hpath⟩ := hlinked.applied hS hg hagree hold (fun p => hstaged e p he) happly
      rw [heq]
      exact ⟨h.joined.trans (Nat.lt_succ_self _), fun _ => ⟨e.after, by simp [World.state, he], hpath⟩,
        fun _ => hlive⟩
    · -- a commit that fails removes the member
      have hremove : .remove m.group.me ∈ e.commit.proposals := by
        by_contra hremove
        have hok := hw.inv.accepts hS hmem hlive e he (hw.log e (List.mem_of_getElem? he))
          (fun p => hstaged e p he) hremove
        rw [happly] at hok
        cases hok
      have hme : g'.me = m.group.me := by rw [← applyCommit_me m.group e.commit, happly]
      rw [heq]
      refine ⟨h.joined, by simp, fun hstays => ?_⟩
      have hlt := (List.getElem?_eq_some_iff.mp he).1
      exact absurd (hme ▸ hlinked.op_of_remove hremove) (hstays _ e h.joined hlt.le he)

theorem Covered.setMembers (h : w.Covered) {members : List (Member S)} (hinv : Inv { w with members })
    (hm : ∀ m ∈ members, w.Follows m) : Covered { w with members } :=
  ⟨hinv, h.log, h.last, fun m hmem => (hm m hmem).mono (fun _ _ hg => hg) id⟩

theorem Covered.step (hS : S.Lawful) (w : World S) (ev : Event S) (h : w.Covered) (hok : w.FounderKept ev) :
    (w.step ev).Covered := by
  have hinv := h.inv.step hS w ev hok.1
  have hlog := hok.log h.log
  cases ev with
  | host op r =>
    obtain ⟨g₀, hg₀, honpath, hpubs, hsecrets⟩ := h.last
    cases hexec : op.exec w.host r with
    | mk g res =>
      simp only [World.step, hexec] at hinv hlog ⊢
      cases res with
      | error f =>
        have hsame : g.pubs = w.host.pubs ∧ g.secrets = w.host.secrets := by
          rcases hok.1.2.1 g f hexec with rfl | ⟨rfl, -⟩
          · exact ⟨rfl, rfl⟩
          · unfold Group.makeRoom
            split <;> exact ⟨rfl, rfl⟩
        exact ⟨hinv, hlog, ⟨g₀, hg₀, honpath, hsame.1.trans hpubs, hsame.2.trans hsecrets⟩,
          fun m hm => (h.members m hm).mono (fun _ _ hg => hg) id⟩
      | ok cw =>
        obtain ⟨hcommits, -⟩ := HostOp.exec_eq_ok h.inv.host.me hexec
        obtain ⟨g₁, hg₁, -, hgrown⟩ := h.inv.last
        obtain rfl : g₁ = g₀ := Option.some.inj (hg₁.symm.trans hg₀)
        have hspan : ∀ n, (w.host.pubs.lookup n).isSome → n.span ≤ w.host.capacity := fun n hn =>
          (honpath.span n (hpubs ▸ hn)).trans hgrown.capacity
        refine ⟨hinv, hlog, ⟨g, by simp [World.state], .commits h.inv.host hspan hcommits, rfl, rfl⟩,
          fun m hm => (h.members m hm).mono (state_append g _) fun hstays i e hi hlen he => ?_⟩
        exact hstays i e hi (by rw [List.length_append]; omega) (getElem?_append_of_some _ he)
  | hostPropose secret sig =>
    obtain ⟨pending, heq⟩ := proposeUpdate_fst w.host secret sig
    simp only [World.step, heq] at hinv hlog ⊢
    exact ⟨hinv, hlog, h.last, fun m hm => (h.members m hm).mono (fun _ _ hg => hg) id⟩
  | join i kp =>
    cases he : w.log[i]? with
    | none => simpa [World.step, he] using h
    | some e =>
      obtain ⟨wel, m, hwel, hjoin, -, -, hpath⟩ := (h.inv.log i e he).join hS (hok.1 e he)
      simp only [World.step, he, Option.bind_some, hwel, hjoin] at hinv hlog ⊢
      refine h.setMembers hinv (forall_mem_concat h.members ⟨Nat.lt_succ_self i, fun _ => ?_, fun _ => rfl⟩)
      exact ⟨e.after, by simp [World.state, he], hpath⟩
  | propose j secret sig =>
    refine h.setMembers hinv (forall_mem_modify h.members fun m hm => ?_)
    exact (h.members m (List.mem_of_getElem? hm)).propose secret sig
  | apply j =>
    refine h.setMembers hinv (forall_mem_modify h.members fun m hm => ?_)
    exact .apply hS h (List.mem_of_getElem? hm) fun e p => hok.1 m e p hm

theorem Covered.copathCovers (h : w.Covered) {leaf : Nat} (hocc : w.host.isOccupied leaf = true) :
    w.CopathCovers leaf := by
  have hshape := h.inv.host.shape
  obtain ⟨k, -, hcap⟩ := hshape.capacity
  obtain ⟨g, hg, honpath, hpubs, hsecrets⟩ := h.last
  refine ⟨Group.targets_below ⟨k, hcap⟩ (fun l hl => by rw [hshape.leaves, hl]) hocc (hshape.isOccupied_lt hocc),
    fun n hn hzero => ?_, fun n hn m hm hme hstays hbehind => ?_⟩
  · obtain ⟨hcovers, -⟩ := Group.mem_below.mp hzero
    obtain ⟨hkey, hcase⟩ := hshape.mem_targets hn
    obtain ⟨j, rfl⟩ : ∃ j, n = nodeAt 0 j := by
      rcases hcase with hleaf | ⟨j, -, hj⟩
      · have hlo : n.lo = 0 := Nat.le_zero.mp hcovers.1
        exact ⟨0, by rw [hleaf, hlo, nodeAt_zero]⟩
      · exact ⟨j, hj⟩
    rw [hpubs] at hkey
    obtain ⟨profile, s, hs, hp⟩ := honpath.path j (honpath.span _ hkey)
    exact ⟨profile, s, by rw [hsecrets, hs], by rw [hpubs, hp]⟩
  · obtain ⟨hcovers, -⟩ := Group.mem_below.mp hme
    obtain ⟨hkey, hcase⟩ := hshape.mem_targets hn
    have hlive := (h.members m hm).live hstays
    obtain ⟨g₁, s, k, hg₁, hagree, hold⟩ := h.inv.members m hm hlive
    obtain ⟨g₂, hg₂, hpath⟩ := (h.members m hm).path hlive
    rw [hbehind hlive, hg] at hg₁ hg₂
    obtain rfl := Option.some.inj hg₁
    obtain rfl := Option.some.inj hg₂
    rw [hpubs] at hkey
    rcases hcase with hleaf | ⟨j, hj, rfl⟩
    · have hlo : n.lo = m.group.me := by
        have hlt : m.group.me < n.lo + 1 := by
          have := hcovers.2
          rwa [hleaf] at this
        exact Nat.le_antisymm hcovers.1 (Nat.lt_succ_iff.mp hlt)
      rw [hleaf, hlo]
      exact ⟨m.group.profile, s, hold.secret, by rw [hpubs, ← hagree.pubs, hold.key]⟩
    · have hlt : m.group.me < 2 ^ j := by
        have := hcovers.2
        rwa [nodeAt_founder, Nat.zero_add] at this
      obtain ⟨profile, s', hs, hp⟩ := hpath j hj (honpath.span _ hkey) hlt
      exact ⟨profile, s', hs, by rw [hpubs, hp]⟩

end Steps

/-! ## Theorems -/

/-- **Copaths cover the members.** In every run that keeps the founder, for every occupied leaf the
resolutions of its copath share out the other occupied leaves, and every member of the group that is not
behind holds the secret of each node that covers it there. -/
theorem copath_covers (hS : S.Lawful) {profile : KemProfile} {mySig : S.SigSeed} {s : S.Secret}
    {evs : List (Event S)} (h : Run.Along World.step FounderKept (World.create profile mySig s) evs) :
    ∀ leaf, (run profile mySig s evs).host.isOccupied leaf = true →
      (run profile mySig s evs).CopathCovers leaf := by
  intro leaf hocc
  have hcovered : (run profile mySig s evs).Covered :=
    h.invariant (Covered.step hS) (.create hS profile mySig s)
  exact hcovered.copathCovers hocc

theorem copath_covers_update :
    (plainRun updateEvents).host.isOccupied 1 = true ∧ (plainRun updateEvents).host.targets 1 = [.leaf 0] ∧
      (plainRun updateEvents).CopathCovers 1 :=
  ⟨by decide, by decide, copath_covers Scheme.plain_lawful updateEvents_founderKept 1 (by decide)⟩

def leafOneKey (g : Group Scheme.plain) : Option UInt8 := g.pubs.lookup (.leaf 1)

/-- The member that staged a second `Update` holds the secret of that one, while the tree binds its leaf to
the first: the host seals to a key whose secret the member no longer has. -/
theorem restaged_leaf_lost : (plainRun restageEvents).host.isOccupied 0 = true ∧
    ¬ (plainRun restageEvents).CopathCovers 0 := by
  refine ⟨by decide, fun h => ?_⟩
  obtain ⟨m, hm⟩ : ∃ m, (plainRun restageEvents).members = [m] := ⟨_, rfl⟩
  have hmember : (plainRun restageEvents).members.map (fun m => (m.group.me, m.live)) = [(1, false)] := by decide
  have hkeys : (plainRun restageEvents).members.map (fun m => (leafOneKeys m).1.1) = [some 22] := by decide
  rw [hm, List.map_singleton, List.singleton_inj] at hmember hkeys
  obtain ⟨hme, hdead⟩ := Prod.mk.inj hmember
  have hstays : ∀ e ∈ (plainRun restageEvents).log, e.op ≠ .remove 1 := by
    rintro e (_ | ⟨_, _ | ⟨_, ⟨⟩⟩⟩) <;> exact nofun
  obtain ⟨profile, s, hs, hp⟩ := h.members (.leaf 1) (by decide) m (by rw [hm]; exact List.mem_singleton_self m)
    (by rw [hme]; decide) (fun _ e _ _ he => hme ▸ hstays e (List.mem_of_getElem? he))
    (fun hlive => nomatch hdead.symm.trans hlive)
  obtain rfl : (22 : UInt8) = s := Option.some.inj (hkeys.symm.trans hs)
  have hkey : leafOneKey (plainRun restageEvents).host = some 21 := by decide
  exact absurd (Option.some.inj (hkey.symm.trans hp)) (show (21 : UInt8) ≠ 22 by decide)

end World
end Talkrypt.TreeKem
