import Talkrypt.Crypto.TreeKem.Group

/-!
# The shape of the tree

With one committer at leaf 0, the only inner nodes that ever carry a key are on the committer's path.
`Group.Shape` says so, next to the sizes of the tree; it makes the resolution of a copath node the
list of occupied leaves below it (`Shape.resolution_eq`). `SameTree` relates the view of a member to
the host's; proposals are checked and enacted on it alone.
-/

namespace Talkrypt.TreeKem

variable {S : Scheme}

/-! ## The occupied vector -/

@[simp] theorem resize_length (l : List Bool) (n : Nat) : (resize l n).length = n := by
  simp only [resize, List.length_append, List.length_take, List.length_replicate]
  omega

variable {l : List Bool}

theorem resize_of_le {n : Nat} (h : l.length ≤ n) : resize l n = l ++ List.replicate (n - l.length) false := by
  rw [resize, List.take_of_length_le h]

theorem resize_resize {a b : Nat} (hl : l.length ≤ a) (hab : a ≤ b) : resize (resize l a) b = resize l b := by
  rw [resize_of_le (by simpa using hab), resize_of_le hl, resize_of_le (hl.trans hab)]
  simp only [List.append_assoc, List.length_append, List.length_replicate, ← List.replicate_add]
  congr 2
  omega

@[simp] theorem resize_self (l : List Bool) : resize l l.length = l := by simp [resize]

theorem getD_resize {n : Nat} (h : l.length ≤ n) (i : Nat) : (resize l n).getD i false = l.getD i false := by
  rw [resize_of_le h, List.getD_eq_getElem?_getD, List.getD_eq_getElem?_getD, List.getElem?_append]
  by_cases hi : i < l.length
  · rw [if_pos hi]
  · rw [if_neg hi, List.getElem?_replicate, List.getElem?_eq_none (by omega)]
    split <;> rfl

namespace Group
variable {g m : Group S} {leaf : Nat}

theorem getD_set {l : List Bool} {leaf : Nat} (b : Bool) (h : leaf < l.length) (i : Nat) :
    (l.set leaf b).getD i false = if i = leaf then b else l.getD i false := by
  by_cases hi : i = leaf
  · simp [hi, h]
  · simp [hi, Ne.symm hi]

theorem lt_of_isOccupied (h : g.isOccupied leaf = true) : leaf < g.occupied.length := by
  by_contra hlt
  rw [isOccupied, List.getD_eq_getElem?_getD, List.getElem?_eq_none (by omega)] at h
  cases h

theorem set_isOccupied (h : g.isOccupied leaf = true) : g.occupied.set leaf true = g.occupied := by
  have hlt := lt_of_isOccupied h
  have hget : g.occupied[leaf] = true := by
    simpa [isOccupied, List.getD_eq_getElem?_getD, List.getElem?_eq_getElem hlt] using h
  rw [← hget, List.set_getElem_self]

theorem firstFreeLeaf_eq_some (h : g.firstFreeLeaf = some leaf) :
    leaf < g.occupied.length ∧ g.isOccupied leaf = false := by
  obtain ⟨hlt, hfree, -⟩ := List.findIdx?_eq_some_iff_getElem.mp h
  refine ⟨hlt, ?_⟩
  simpa [isOccupied, List.getD_eq_getElem?_getD, List.getElem?_eq_getElem hlt] using hfree

/-! ## Fields left alone -/

section Fields
variable (g : Group S) (leaf : Nat)

@[simp] theorem blankPathAbove_capacity : (g.blankPathAbove leaf).capacity = g.capacity := rfl
@[simp] theorem blankPathAbove_occupied : (g.blankPathAbove leaf).occupied = g.occupied := rfl
@[simp] theorem blankPathAbove_leafSigKeys :
    (g.blankPathAbove leaf).leafSigKeys = g.leafSigKeys := rfl
@[simp] theorem blankPathAbove_leafPops : (g.blankPathAbove leaf).leafPops = g.leafPops := rfl

@[simp] theorem installPending_pubs : (g.installPending leaf).pubs = g.pubs := by
  unfold installPending; split <;> [split <;> rfl; rfl]
@[simp] theorem installPending_capacity : (g.installPending leaf).capacity = g.capacity := by
  unfold installPending; split <;> [split <;> rfl; rfl]
@[simp] theorem installPending_occupied : (g.installPending leaf).occupied = g.occupied := by
  unfold installPending; split <;> [split <;> rfl; rfl]
@[simp] theorem installPending_leafSigKeys : (g.installPending leaf).leafSigKeys = g.leafSigKeys := by
  unfold installPending; split <;> [split <;> rfl; rfl]
@[simp] theorem installPending_leafPops : (g.installPending leaf).leafPops = g.leafPops := by
  unfold installPending; split <;> [split <;> rfl; rfl]
@[simp] theorem installPending_me : (g.installPending leaf).me = g.me := by
  unfold installPending; split <;> [split <;> rfl; rfl]
@[simp] theorem installPending_epoch : (g.installPending leaf).epoch = g.epoch := by
  unfold installPending; split <;> [split <;> rfl; rfl]
@[simp] theorem installPending_profile : (g.installPending leaf).profile = g.profile := by
  unfold installPending; split <;> [split <;> rfl; rfl]

@[simp] theorem enactProposal_capacity (p : Proposal S) : (g.enactProposal p).capacity = g.capacity := by
  cases p <;> simp [enactProposal, setLeafKeys]
@[simp] theorem enactProposal_me (p : Proposal S) : (g.enactProposal p).me = g.me := by
  cases p <;> simp [enactProposal, setLeafKeys, blankPathAbove]
@[simp] theorem enactProposal_epoch (p : Proposal S) : (g.enactProposal p).epoch = g.epoch := by
  cases p <;> simp [enactProposal, setLeafKeys, blankPathAbove]
end Fields

/-! ## What a proposal changes -/

section Enact
variable (g : Group S) (p : Proposal S)

theorem pubs_enactProposal (n : Node) : (g.enactProposal p).pubs.lookup n =
    if n ∈ ancestorsOf g.capacity p.leaf then none else if n = .leaf p.leaf then p.newKey else g.pubs.lookup n := by
  cases p with
  | add => exact (Table.lookup_eraseAll ..).trans (if_congr Iff.rfl rfl (Table.lookup_insert_eq ..))
  | remove => exact (Table.lookup_eraseAll ..).trans (if_congr Iff.rfl rfl (Table.lookup_erase_eq ..))
  | update =>
    simp only [enactProposal, blankPathAbove, installPending_pubs, installPending_capacity, Table.lookup_eraseAll,
      setLeafKeys, Table.lookup_insert_eq]
    rfl

theorem leafSigKeys_enactProposal (l : Nat) : (g.enactProposal p).leafSigKeys.lookup l =
    if l = p.leaf then p.newSig else g.leafSigKeys.lookup l := by
  cases p with
  | add => exact Table.lookup_insert_eq ..
  | remove => exact Table.lookup_erase_eq ..
  | update =>
    simp only [enactProposal, blankPathAbove_leafSigKeys, installPending_leafSigKeys]
    exact Table.lookup_insert_eq ..

theorem leafPops_enactProposal (l : Nat) : (g.enactProposal p).leafPops.lookup l =
    if l = p.leaf then p.newPop else g.leafPops.lookup l := by
  cases p with
  | add => exact Table.lookup_insert_eq ..
  | remove => exact Table.lookup_erase_eq ..
  | update =>
    simp only [enactProposal, blankPathAbove_leafPops, installPending_leafPops]
    exact Table.lookup_insert_eq ..

end Enact

section Check
variable {p : Proposal S}

theorem checkProposal_lt (hc : g.checkProposal p = .ok ()) : p.leaf < g.occupied.length := by
  by_contra hlt
  unfold checkProposal at hc
  rw [if_pos (by omega)] at hc
  cases hc

theorem checkProposal_update {lp : S.Public} {sp : IdentityPublic} {pop auth : Bytes}
    (hc : g.checkProposal (.update leaf lp sp pop auth) = .ok ()) :
    verifyPop S sp pop = .ok () ∧ g.isOccupied leaf = true ∧
      g.verifyUpdateAuth leaf lp sp auth = .ok () := by
  have hlt : ¬ leaf ≥ g.occupied.length := Nat.not_le.mpr (checkProposal_lt hc)
  simp only [checkProposal, Proposal.leaf, if_neg hlt] at hc
  cases hpop : verifyPop S sp pop with
  | error e => simp [hpop, bind, Except.bind] at hc
  | ok u =>
    cases hocc : g.isOccupied leaf with
    | false => simp [hpop, hocc, bind, Except.bind, throw, throwThe, MonadExceptOf.throw] at hc
    | true =>
      simp only [hpop, hocc, bind, Except.bind, Bool.not_true, Bool.false_eq_true, if_false] at hc
      exact ⟨rfl, rfl, hc⟩

/-- The proof of possession has been verified. -/
theorem checkProposal_newPop (hc : g.checkProposal p = .ok ()) {sp : IdentityPublic} (hsp : p.newSig = some sp) :
    ∃ pop, p.newPop = some pop ∧ verifyPop S sp pop = .ok () := by
  cases p with
  | add leaf lp sp pop =>
    have hlt := Nat.not_le.mpr (checkProposal_lt hc)
    cases hsp
    unfold checkProposal at hc
    rw [if_neg hlt] at hc
    exact ⟨pop, rfl, hc⟩
  | remove => cases hsp
  | update leaf lp sp pop auth =>
    cases hsp
    exact ⟨pop, rfl, (checkProposal_update hc).1⟩

theorem occupied_enactProposal_length (g : Group S) (p : Proposal S) :
    (g.enactProposal p).occupied.length = g.occupied.length := by
  cases p <;> simp [enactProposal, setLeafKeys]

theorem isOccupied_enactProposal (hp : g.checkProposal p = .ok ()) (l : Nat) :
    (g.enactProposal p).isOccupied l = if l = p.leaf then p.newKey.isSome else g.isOccupied l := by
  have hlt := checkProposal_lt hp
  cases p with
  | add leaf => exact getD_set true hlt l
  | remove leaf => exact getD_set false hlt l
  | update leaf lp sp pop auth =>
    obtain ⟨-, hocc, -⟩ := checkProposal_update hp
    rw [show (g.enactProposal (.update leaf lp sp pop auth)).isOccupied l = g.isOccupied l by
      simp [enactProposal, isOccupied, setLeafKeys]]
    split
    · next heq => rw [heq]; exact hocc
    · rfl

end Check

/-! ## Shape -/

structure Shape (g : Group S) : Prop where
  /-- The capacity is a power of two and a `u32`. -/
  capacity : ∃ k, k < 32 ∧ g.capacity = 2 ^ k
  length : g.occupied.length = g.capacity
  leaves : ∀ l, (g.pubs.lookup (.leaf l)).isSome = g.isOccupied l
  inner : ∀ n, (g.pubs.lookup n).isSome → n.span ≠ 1 → n.lo = 0

theorem leaf_notMem_ancestorsOf {k leaf l : Nat} : Node.leaf l ∉ ancestorsOf (2 ^ k) leaf := by
  rw [mem_ancestorsOf]
  rintro ⟨i, hi, -, heq⟩
  have hspan : (1 : Nat) = 2 ^ i := congrArg Node.span heq
  have : 2 ^ 1 ≤ 2 ^ i := Nat.pow_le_pow_right (by decide) hi
  omega

theorem lookup_leaf_eraseAll {V : Type} {cap : Nat} (hcap : ∃ k, k < 32 ∧ cap = 2 ^ k)
    (t : Table Node V) (leaf l : Nat) :
    (t.eraseAll (ancestorsOf cap leaf)).lookup (.leaf l) = t.lookup (.leaf l) := by
  obtain ⟨k, -, rfl⟩ := hcap
  rw [Table.lookup_eraseAll, if_neg leaf_notMem_ancestorsOf]

namespace Shape

theorem isOccupied_lt (h : g.Shape) (hocc : g.isOccupied leaf = true) : leaf < g.capacity :=
  h.length ▸ lt_of_isOccupied hocc

theorem pubs_leaf_enactProposal (h : g.Shape) (p : Proposal S) (l : Nat) :
    (g.enactProposal p).pubs.lookup (.leaf l) = if l = p.leaf then p.newKey else g.pubs.lookup (.leaf l) := by
  obtain ⟨k, -, hcap⟩ := h.capacity
  rw [pubs_enactProposal, hcap, if_neg leaf_notMem_ancestorsOf]
  simp only [Node.leaf_inj]

theorem enactProposal (h : g.Shape) {p : Proposal S} (hc : g.checkProposal p = .ok ()) :
    (g.enactProposal p).Shape where
  capacity := by rw [enactProposal_capacity]; exact h.capacity
  length := by rw [occupied_enactProposal_length, enactProposal_capacity, h.length]
  leaves l := by
    rw [h.pubs_leaf_enactProposal, isOccupied_enactProposal hc]
    split
    · rfl
    · exact h.leaves l
  inner n hn hspan := by
    have hne : n ≠ .leaf p.leaf := by
      rintro rfl
      exact hspan rfl
    rw [pubs_enactProposal, if_neg hne] at hn
    split at hn
    · cases hn
    · exact h.inner n hn hspan

theorem doubleCapacity_capacity (h : ∃ k, k < 32 ∧ g.capacity = 2 ^ k) (hfree : g.doubleCapacity.firstFreeLeaf ≠ none) :
    ∃ k, k + 1 < 32 ∧ g.capacity = 2 ^ k ∧ g.doubleCapacity.capacity = 2 ^ (k + 1) := by
  obtain ⟨k, hk, hcap⟩ := h
  have hk' : k + 1 < 32 := by
    by_contra hge
    have hk31 : k = 31 := by omega
    refine hfree ?_
    simp [firstFreeLeaf, Group.doubleCapacity, hcap, hk31, resize]
  refine ⟨k, hk', hcap, ?_⟩
  have hlt : 2 ^ (k + 1) < 2 ^ 32 := Nat.pow_lt_pow_right (by decide) hk'
  simp only [Group.doubleCapacity, hcap, ← pow_succ]
  exact Nat.mod_eq_of_lt hlt

theorem doubleCapacity (h : g.Shape) (hfree : g.doubleCapacity.firstFreeLeaf ≠ none) :
    g.doubleCapacity.Shape := by
  obtain ⟨k, hk, hcap, hdouble⟩ := doubleCapacity_capacity h.capacity hfree
  have hle : g.occupied.length ≤ g.doubleCapacity.capacity := by
    rw [h.length, hcap, hdouble]
    exact Nat.pow_le_pow_right (by decide) (by omega)
  exact
    { capacity := ⟨k + 1, hk, hdouble⟩
      length := resize_length _ _
      leaves := fun l => (h.leaves l).trans (getD_resize hle l).symm
      inner := h.inner }

end Shape
end Group

/-! ## The committer's path -/

@[simp] theorem chainUp_map_fst (s : S.Secret) (path : List Node) :
    (chainUp s path).map Prod.fst = path := by
  induction path generalizing s with
  | nil => rfl
  | cons n path ih => rw [chainUp, List.map_cons, ih]

theorem mem_hostPath {n : Node} {k : Nat} :
    n ∈ pathToRoot (2 ^ k) 0 ↔ ∃ i, i ≤ k ∧ n = ⟨0, 2 ^ i⟩ := by
  simp only [pathToRoot_eq, List.mem_map, List.mem_range, nodeAt_founder, Nat.lt_succ_iff, eq_comm]

theorem leaf_mem_hostPath {l k : Nat} : Node.leaf l ∈ pathToRoot (2 ^ k) 0 ↔ l = 0 := by
  rw [mem_hostPath]
  constructor
  · rintro ⟨i, -, heq⟩
    exact congrArg Node.lo heq
  · rintro rfl
    exact ⟨0, Nat.zero_le k, rfl⟩

namespace Group
variable {g m : Group S} {leaf : Nat}

theorem Shape.installPath (h : g.Shape) (hocc : g.isOccupied 0 = true) (s : S.Secret) :
    (g.installPath (chainUp s (pathToRoot g.capacity 0))).Shape := by
  obtain ⟨k, hk, hcap⟩ := h.capacity
  have hlookup : ∀ n, ((g.installPath (chainUp s (pathToRoot g.capacity 0))).pubs.lookup n).isSome ↔
      n ∈ pathToRoot (2 ^ k) 0 ∨ (g.pubs.lookup n).isSome := by
    intro n
    rw [Group.installPath, Table.lookup_insertAll, Option.isSome_or, Bool.or_eq_true,
      Table.isSome_lastOf, List.map_map, hcap]
    simp only [Function.comp_def, chainUp_map_fst]
  refine ⟨h.capacity, h.length, fun l => ?_, fun n hn hspan => ?_⟩
  · rw [Bool.eq_iff_iff, hlookup, leaf_mem_hostPath, h.leaves l]
    constructor
    · rintro (rfl | hl)
      · exact hocc
      · exact hl
    · exact Or.inr
  · rcases (hlookup n).mp hn with hpath | hold
    · obtain ⟨i, -, rfl⟩ := mem_hostPath.mp hpath
      rfl
    · exact h.inner n hold hspan

/-! ## Resolutions -/

theorem resolutionAux_isSome {t : Table Node S.Public} {target : Node} :
    ∀ {fuel : Nat} {n : Node}, target ∈ resolutionAux t fuel n → (t.lookup target).isSome = true
  | fuel + 1, n, h => by
    rw [resolutionAux] at h
    split at h
    · next hn => rwa [List.mem_singleton.mp h]
    · split at h
      · cases h
      · rcases List.mem_append.mp h with hl | hr
        · exact resolutionAux_isSome hl
        · exact resolutionAux_isSome hr

theorem Shape.resolutionAux_eq (h : g.Shape) :
    ∀ {j fuel lo : Nat}, j < fuel → 0 < lo →
      resolutionAux g.pubs fuel ⟨lo, 2 ^ j⟩ =
        ((List.range' lo (2 ^ j)).filter g.isOccupied).map Node.leaf
  | _, 0, _, hj, _ => absurd hj (Nat.not_lt_zero _)
  | 0, fuel + 1, lo, _, _ => by
    have hleaf := h.leaves lo
    rw [Node.leaf] at hleaf
    by_cases hocc : g.isOccupied lo = true
    · simp [resolutionAux, hleaf, hocc, Node.leaf]
    · simp [resolutionAux, hleaf, hocc, Node.children]
  | j + 1, fuel + 1, lo, hj, hlo => by
    have hspan : 2 ^ (j + 1) ≠ 1 := by
      have := Nat.one_lt_two_pow (n := j + 1) (by omega)
      omega
    have hblank : (g.pubs.lookup ⟨lo, 2 ^ (j + 1)⟩).isSome = false := by
      by_contra hsome
      exact hlo.ne' (h.inner _ (Bool.not_eq_false _ ▸ hsome) hspan)
    have hhalf : 2 ^ (j + 1) / 2 = 2 ^ j := by rw [pow_succ, Nat.mul_div_cancel _ (by decide)]
    rw [resolutionAux, hblank]
    simp only [Bool.false_eq_true, if_false, Node.children, if_neg hspan, hhalf]
    rw [h.resolutionAux_eq (by omega) hlo, h.resolutionAux_eq (by omega) (Nat.add_pos_left hlo _),
      ← List.map_append, ← List.filter_append, pow_succ, Nat.mul_two, List.range'_append_1]

theorem Shape.resolution_eq (h : g.Shape) {lo : Nat} (j : Nat) (hlo : 0 < lo) :
    g.resolution ⟨lo, 2 ^ j⟩ = ((List.range' lo (2 ^ j)).filter g.isOccupied).map Node.leaf :=
  h.resolutionAux_eq Nat.lt_two_pow_self hlo

/-! ## Two views of one tree -/

structure SameNodes (g m : Group S) : Prop where
  capacity : m.capacity = g.capacity
  occupied : m.occupied = g.occupied
  pubs : Table.Same m.pubs g.pubs

structure SameTree (g m : Group S) : Prop extends SameNodes g m where
  sigKeys : Table.Same m.leafSigKeys g.leafSigKeys

namespace SameNodes

theorem isOccupied (h : SameNodes g m) (l : Nat) : m.isOccupied l = g.isOccupied l := by
  rw [Group.isOccupied, Group.isOccupied, h.occupied]

theorem shape (h : SameNodes g m) (hg : g.Shape) : m.Shape where
  capacity := h.capacity ▸ hg.capacity
  length := by rw [h.occupied, h.capacity, hg.length]
  leaves l := by rw [h.pubs, h.isOccupied, hg.leaves]
  inner n hn := hg.inner n (h.pubs n ▸ hn)

end SameNodes

namespace SameTree

theorem checkProposal (h : SameTree g m) (p : Proposal S) : m.checkProposal p = g.checkProposal p := by
  unfold Group.checkProposal
  rw [h.occupied]
  cases p with
  | add => rfl
  | remove => rfl
  | update leaf => simp only [h.isOccupied, Group.verifyUpdateAuth, h.sigKeys leaf]

theorem blankPathAbove (h : SameTree g m) (leaf : Nat) :
    SameTree (g.blankPathAbove leaf) (m.blankPathAbove leaf) where
  capacity := h.capacity
  occupied := h.occupied
  pubs := by
    simp only [Group.blankPathAbove, h.capacity]
    exact h.pubs.eraseAll _
  sigKeys := h.sigKeys

theorem enactProposal (h : SameTree g m) (p : Proposal S) :
    SameTree (g.enactProposal p) (m.enactProposal p) := by
  cases p with
  | add leaf lp sp pop =>
    apply SameTree.blankPathAbove
    exact ⟨⟨h.capacity, congrArg (·.set leaf true) h.occupied, h.pubs.insert _ _⟩,
      h.sigKeys.insert _ _⟩
  | remove leaf =>
    apply SameTree.blankPathAbove
    exact ⟨⟨h.capacity, congrArg (·.set leaf false) h.occupied, h.pubs.erase _⟩, h.sigKeys.erase _⟩
  | update leaf lp sp pop auth =>
    apply SameTree.blankPathAbove
    refine ⟨⟨?_, ?_, ?_⟩, ?_⟩
    · simpa [setLeafKeys] using h.capacity
    · simpa [setLeafKeys] using h.occupied
    · simpa [setLeafKeys] using h.pubs.insert _ _
    · simpa [setLeafKeys] using h.sigKeys.insert _ _

end SameTree
end Group
end Talkrypt.TreeKem
