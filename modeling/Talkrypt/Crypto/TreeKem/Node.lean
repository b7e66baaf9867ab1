import Talkrypt.Lib.Bytes

/-!
# Ratchet-tree nodes (`crates/crypto/src/treekem.rs`, tree math)

A node is the leaf range `[lo, lo + span)` it covers, so indices stay stable when the tree doubles.
`nodeAt l i` is the ancestor of leaf `l` at height `i`; in a tree of capacity `2 ^ k` the path of `l`
is `nodeAt l 0, ..., nodeAt l k` (`pathToRoot_eq`).
-/

namespace Talkrypt.TreeKem

structure Node where
  lo : Nat
  span : Nat
deriving Repr, DecidableEq

namespace Node

def leaf (i : Nat) : Node := ⟨i, 1⟩

def children (n : Node) : Option (Node × Node) :=
  if n.span = 1 then none
  else
    let h := n.span / 2
    some (⟨n.lo, h⟩, ⟨n.lo + h, h⟩)

def parent (n : Node) (capacity : Nat) : Option Node :=
  if n.span ≥ capacity then none
  else
    let ps := n.span * 2
    some ⟨n.lo - n.lo % ps, ps⟩

def sibling (n : Node) : Node :=
  if (n.lo / n.span) % 2 = 0 then ⟨n.lo + n.span, n.span⟩ else ⟨n.lo - n.span, n.span⟩

def Covers (n : Node) (leaf : Nat) : Prop := n.lo ≤ leaf ∧ leaf < n.lo + n.span

instance (n : Node) (leaf : Nat) : Decidable (n.Covers leaf) := inferInstanceAs (Decidable (_ ∧ _))

theorem leaf_inj {i j : Nat} : leaf i = leaf j ↔ i = j := by simp [leaf]

end Node

def rootOf (capacity : Nat) : Node := ⟨0, capacity⟩

/-- The `while let Some(p) = cur.parent(capacity)` loop. A span of at least 1 doubles at each turn, so
`capacity` turns are enough from a leaf. -/
def ancestors (capacity : Nat) : Nat → Node → List Node
  | 0, _ => []
  | fuel + 1, cur =>
    match cur.parent capacity with
    | none => []
    | some p => p :: ancestors capacity fuel p

def ancestorsOf (capacity leaf : Nat) : List Node := ancestors capacity capacity (.leaf leaf)

def pathToRoot (capacity leaf : Nat) : List Node := .leaf leaf :: ancestorsOf capacity leaf

def nodeAt (l i : Nat) : Node := ⟨2 ^ i * (l / 2 ^ i), 2 ^ i⟩

@[simp] theorem nodeAt_zero (l : Nat) : nodeAt l 0 = .leaf l := by simp [nodeAt, Node.leaf]

@[simp] theorem nodeAt_span (l i : Nat) : (nodeAt l i).span = 2 ^ i := rfl

theorem nodeAt_founder (i : Nat) : nodeAt 0 i = ⟨0, 2 ^ i⟩ := by simp [nodeAt]

variable {l k : Nat}

theorem parent_nodeAt {i : Nat} (h : i < k) : (nodeAt l i).parent (2 ^ k) = some (nodeAt l (i + 1)) := by
  have hspan : ¬ (nodeAt l i).span ≥ 2 ^ k := by
    have := Nat.pow_lt_pow_right (a := 2) (by decide) h
    rw [nodeAt_span]
    omega
  have hdiv : l / 2 ^ (i + 1) = l / 2 ^ i / 2 := by rw [pow_succ, Nat.div_div_eq_div_mul]
  have hq : l / 2 ^ i - l / 2 ^ i % 2 = 2 * (l / 2 ^ i / 2) := by omega
  have hlo : 2 ^ i * (l / 2 ^ i) - 2 ^ i * (l / 2 ^ i) % (2 ^ i * 2)
      = 2 ^ (i + 1) * (l / 2 ^ (i + 1)) := by
    rw [Nat.mul_mod_mul_left, ← Nat.mul_sub, hq, hdiv, pow_succ, mul_assoc]
  rw [Node.parent, if_neg hspan]
  simp only [nodeAt, hlo, Option.some.injEq, Node.mk.injEq, true_and]
  rw [pow_succ]

theorem parent_nodeAt_top (l k : Nat) : (nodeAt l k).parent (2 ^ k) = none := by
  simp [nodeAt, Node.parent]

theorem ancestors_nodeAt :
    ∀ {fuel i : Nat}, i ≤ k → k - i ≤ fuel →
      ancestors (2 ^ k) fuel (nodeAt l i) = (List.range' (i + 1) (k - i)).map (nodeAt l)
  | 0, i, hi, hf => by
    have : k - i = 0 := by omega
    simp [ancestors, this]
  | fuel + 1, i, hi, hf => by
    by_cases hik : i = k
    · subst hik
      simp [ancestors, parent_nodeAt_top]
    · have hlt : i < k := by omega
      have hk : k - i = (k - (i + 1)) + 1 := by omega
      rw [ancestors, parent_nodeAt hlt]
      have ih : ancestors (2 ^ k) fuel (nodeAt l (i + 1)) = _ := ancestors_nodeAt hlt (by omega)
      simp only [ih]
      rw [hk, List.range'_succ, List.map_cons]

theorem ancestorsOf_eq (l k : Nat) :
    ancestorsOf (2 ^ k) l = (List.range' 1 k).map (nodeAt l) := by
  have h : ancestors (2 ^ k) (2 ^ k) (nodeAt l 0) = _ := ancestors_nodeAt (Nat.zero_le k)
    (by have := Nat.lt_two_pow_self (n := k); omega)
  simpa [ancestorsOf] using h

theorem pathToRoot_eq (l k : Nat) :
    pathToRoot (2 ^ k) l = (List.range (k + 1)).map (nodeAt l) := by
  rw [pathToRoot, ancestorsOf_eq, List.range_succ_eq_map, List.map_cons, List.map_map,
    List.range'_eq_map_range, List.map_map, nodeAt_zero]
  congr 2
  funext i
  simp [Nat.add_comm]

theorem mem_ancestorsOf {n : Node} : n ∈ ancestorsOf (2 ^ k) l ↔ ∃ i, 1 ≤ i ∧ i ≤ k ∧ n = nodeAt l i := by
  simp only [ancestorsOf_eq, List.mem_map, List.mem_range'_1]
  constructor
  · rintro ⟨i, hi, rfl⟩
    exact ⟨i, hi.1, by omega, rfl⟩
  · rintro ⟨i, h1, h2, rfl⟩
    exact ⟨i, ⟨h1, by omega⟩, rfl⟩

theorem sibling_nodeAt_founder (i : Nat) : (nodeAt 0 i).sibling = ⟨2 ^ i, 2 ^ i⟩ := by
  simp [nodeAt, Node.sibling]

example : pathToRoot 8 5 = [⟨5, 1⟩, ⟨4, 2⟩, ⟨4, 4⟩, ⟨0, 8⟩] := by decide

end Talkrypt.TreeKem
