import Talkrypt.Lib.Bytes

/-!
# MLS tree math (`crates/crypto/src/mls/treemath.rs`, `secret_tree.rs`)

The nodes of a tree with `n` leaves are numbered from left to right, so the leaves are the even numbers and a node of
level `l` ends in `l` ones. `nodeAt l i` is the `i`-th node of level `l`. In these coordinates the bit operations of the
source are the children `(l, 2i)` and `(l, 2i + 1)` and the parent `(l + 1, i / 2)`, and a tree with `2 ^ k` leaves has
the nodes with `l ≤ k` and `i < 2 ^ (k - l)`. Numbers are `u32`.
-/

namespace Talkrypt.Mls

/-! ## The source -/

def shl (a k : Nat) : Nat := (a <<< k) % 2 ^ 32

/-- The loops of `log2` and `level`: step up while the condition holds. -/
def countWhile (p : Nat → Bool) : Nat → Nat → Nat
  | 0, k => k
  | fuel + 1, k => if p k then countWhile p fuel (k + 1) else k

def log2 (x : Nat) : Nat := if x = 0 then 0 else countWhile (fun k => x >>> k > 0) 32 0 - 1

def level (x : Nat) : Nat := if x &&& 1 = 0 then 0 else countWhile (fun k => (x >>> k) &&& 1 = 1) 32 0

def nodeWidth (n : Nat) : Nat := if n = 0 then 0 else (2 * (n - 1) + 1) % 2 ^ 32

def root (n : Nat) : Nat := shl 1 (log2 (nodeWidth n)) - 1

def left (x : Nat) : Option Nat := if level x = 0 then none else some (x ^^^ shl 1 (level x - 1))

def right (x : Nat) : Option Nat := if level x = 0 then none else some (x ^^^ shl 3 (level x - 1))

def parentStep (x : Nat) : Nat :=
  let k := level x
  let b := (x >>> (k + 1)) &&& 1
  (x ||| shl 1 k) ^^^ shl b (k + 1)

def parentFrom (w : Nat) : Nat → Nat → Nat
  | 0, p => p
  | fuel + 1, p => if p ≥ w then parentFrom w fuel (parentStep p) else p

def parent (x n : Nat) : Option Nat :=
  if x = root n then none else some (parentFrom (nodeWidth n) 32 (parentStep x))

def sibling (x n : Nat) : Option Nat := do
  let p ← parent x n
  if x < p then right p else left p

inductive Turn where
  | left
  | right
deriving DecidableEq, Repr

def Turn.label : Turn → Bytes
  | .left => utf8 "left"
  | .right => utf8 "right"

def NH : Nat := 32

/-- Where the walk to `target` goes from a node; nowhere from a leaf. -/
def turn (target node : Nat) : Option (Turn × Nat) :=
  if target < node then (left node).map (Turn.left, ·) else (right node).map (Turn.right, ·)

/-- The loop of `leaf_secret`, which ends at level 0. -/
def leafSecretFrom (expandWithLabel : Bytes → String → Bytes → Nat → Bytes) (target : Nat) : Nat → Nat → Bytes → Bytes
  | 0, _, secret => secret
  | fuel + 1, node, secret =>
    match turn target node with
    | none => secret
    | some (t, node) => leafSecretFrom expandWithLabel target fuel node (expandWithLabel secret "tree" t.label NH)

def leafSecret (expandWithLabel : Bytes → String → Bytes → Nat → Bytes) (encryptionSecret : Bytes) (nLeaves leaf : Nat) :
    Bytes := leafSecretFrom expandWithLabel (2 * leaf) 32 (root nLeaves) encryptionSecret

/-! ## Coordinates -/

def nodeAt (l i : Nat) : Nat := 2 ^ (l + 1) * i + (2 ^ l - 1)

variable {l i k x : Nat}

theorem nodeAt_succ (l i : Nat) : nodeAt l i + 1 = 2 ^ l * (2 * i + 1) := by
  rw [nodeAt, Nat.add_assoc, Nat.sub_add_cancel (Nat.two_pow_pos l), pow_succ]
  ring

theorem exists_nodeAt (x : Nat) : ∃ l i, x = nodeAt l i := by
  obtain ⟨l, m, ⟨i, rfl⟩, h⟩ := Nat.exists_eq_two_pow_mul_odd x.succ_ne_zero
  exact ⟨l, i, Nat.succ.inj (h.trans (nodeAt_succ l i).symm)⟩

theorem two_pow_split (h : l ≤ k) : 2 ^ (k + 1) = 2 ^ l * (2 * 2 ^ (k - l)) := by
  rw [← pow_succ', ← pow_add]
  congr 1
  omega

theorem nodeAt_lt_iff : nodeAt l i < 2 ^ (k + 1) - 1 ↔ l ≤ k ∧ i < 2 ^ (k - l) := by
  rw [Nat.lt_sub_iff_add_lt, nodeAt_succ]
  constructor
  · intro h
    have hle : l ≤ k := by
      by_contra hlt
      have hpow : 2 ^ (k + 1) ≤ 2 ^ l := Nat.pow_le_pow_right (by decide) (by omega)
      have hpos : 2 ^ l ≤ 2 ^ l * (2 * i + 1) := Nat.le_mul_of_pos_right _ (by omega)
      omega
    rw [two_pow_split hle] at h
    have := Nat.lt_of_mul_lt_mul_left h
    omega
  · rintro ⟨hle, hi⟩
    rw [two_pow_split hle]
    exact Nat.mul_lt_mul_of_pos_left (by omega) (Nat.two_pow_pos l)

theorem xor_two_pow_mul_add {m a b c d : Nat} (ha : a < 2 ^ m) (hd : d < 2 ^ m) :
    (2 ^ m * b + a) ^^^ (2 ^ m * c + d) = 2 ^ m * (b ^^^ c) + (a ^^^ d) := by
  refine Nat.eq_of_testBit_eq fun j => ?_
  rw [Nat.testBit_xor, Nat.testBit_two_pow_mul_add _ ha, Nat.testBit_two_pow_mul_add _ hd,
    Nat.testBit_two_pow_mul_add _ (Nat.xor_lt_two_pow ha hd)]
  split <;> rw [Nat.testBit_xor]

theorem or_two_pow_mul_add {m a b c d : Nat} (ha : a < 2 ^ m) (hd : d < 2 ^ m) :
    (2 ^ m * b + a) ||| (2 ^ m * c + d) = 2 ^ m * (b ||| c) + (a ||| d) := by
  refine Nat.eq_of_testBit_eq fun j => ?_
  rw [Nat.testBit_or, Nat.testBit_two_pow_mul_add _ ha, Nat.testBit_two_pow_mul_add _ hd,
    Nat.testBit_two_pow_mul_add _ (Nat.or_lt_two_pow ha hd)]
  split <;> rw [Nat.testBit_or]

/-! ## The bit operations in coordinates -/

theorem countWhile_eq {p : Nat → Bool} {fuel k m : Nat} (hle : k ≤ m) (hfuel : m ≤ k + fuel)
    (h : ∀ j, k ≤ j → j < m → p j) (hm : ¬ p m) : countWhile p fuel k = m := by
  induction fuel generalizing k with
  | zero =>
    rw [countWhile]
    omega
  | succ fuel ih =>
    rw [countWhile]
    rcases hle.eq_or_lt with rfl | hlt
    · rw [if_neg hm]
    · rw [if_pos (h k le_rfl hlt)]
      exact ih hlt (by omega) fun j hj => h j (by omega)

theorem testBit_nodeAt (l i j : Nat) (hj : j ≤ l) : (nodeAt l i).testBit j = decide (j < l) := by
  have hlt : 2 ^ l - 1 < 2 ^ (l + 1) := by
    rw [pow_succ]
    have := Nat.two_pow_pos l
    omega
  rw [nodeAt, Nat.testBit_two_pow_mul_add _ hlt, if_pos (by omega), Nat.testBit_two_pow_sub_one]

theorem bit_iff (x j : Nat) : (x >>> j) &&& 1 = 1 ↔ x.testBit j := by
  rw [Nat.and_one_is_mod, Nat.shiftRight_eq_div_pow, Nat.testBit_eq_decide_div_mod_eq, decide_eq_true_eq]

theorem level_nodeAt (hl : l ≤ 32) : level (nodeAt l i) = l := by
  rw [level]
  split
  · next h =>
    by_contra hne
    have hbit := (bit_iff (nodeAt l i) 0).mpr (by rw [testBit_nodeAt _ _ _ (by omega)]; simpa using Nat.pos_of_ne_zero (Ne.symm hne))
    rw [Nat.shiftRight_zero] at hbit
    omega
  · refine countWhile_eq (Nat.zero_le l) (by omega) (fun j _ hj => ?_) ?_
    · rw [decide_eq_true_eq, bit_iff, testBit_nodeAt _ _ _ hj.le, decide_eq_true_eq]
      exact hj
    · rw [decide_eq_true_eq, bit_iff, testBit_nodeAt _ _ _ le_rfl]
      simp

theorem shl_eq {a k : Nat} (h : 2 ^ k * a < 2 ^ 32) : shl a k = 2 ^ k * a := by
  rw [shl, Nat.shiftLeft_eq, Nat.mul_comm, Nat.mod_eq_of_lt h]

theorem nodeAt_low (l i : Nat) : nodeAt (l + 1) i = 2 ^ l * (4 * i + 1) + (2 ^ l - 1) := by
  have hpos := Nat.two_pow_pos l
  have h := nodeAt_succ (l + 1) i
  have h' : 2 ^ (l + 1) * (2 * i + 1) = 2 ^ l * (4 * i + 1) + 2 ^ l := by ring
  omega

theorem xor_nodeAt (l i : Nat) {c r : Nat} (h : (4 * i + 1) ^^^ c = 2 * r) :
    nodeAt (l + 1) i ^^^ (2 ^ l * c) = nodeAt l r := by
  have hlt : 2 ^ l - 1 < 2 ^ l := Nat.sub_lt (Nat.two_pow_pos l) Nat.one_pos
  have hxor := xor_two_pow_mul_add (b := 4 * i + 1) (c := c) hlt (Nat.two_pow_pos l)
  simp only [← nodeAt_low, Nat.add_zero, Nat.xor_zero, h] at hxor
  rw [hxor, nodeAt, pow_succ, Nat.mul_assoc]

theorem left_nodeAt (hl : l < 30) : left (nodeAt (l + 1) i) = some (nodeAt l (2 * i)) := by
  have hpow : 2 ^ l < 2 ^ 30 := Nat.pow_lt_pow_right (by decide) hl
  have hxor : (4 * i + 1) ^^^ 1 = 2 * (2 * i) := by
    have h := xor_two_pow_mul_add (m := 2) (b := i) (c := 0) (show 1 < 2 ^ 2 by decide) (show 1 < 2 ^ 2 by decide)
    rw [Nat.xor_zero] at h
    simpa [← Nat.mul_assoc] using h
  rw [left, level_nodeAt (by omega), if_neg (by omega), Nat.add_sub_cancel, shl_eq (by omega), xor_nodeAt l i hxor]

theorem right_nodeAt (hl : l < 30) : right (nodeAt (l + 1) i) = some (nodeAt l (2 * i + 1)) := by
  have hpow : 2 ^ l < 2 ^ 30 := Nat.pow_lt_pow_right (by decide) hl
  have hxor : (4 * i + 1) ^^^ 3 = 2 * (2 * i + 1) := by
    have h := xor_two_pow_mul_add (m := 2) (b := i) (c := 0) (show 1 < 2 ^ 2 by decide) (show 3 < 2 ^ 2 by decide)
    rw [Nat.xor_zero] at h
    simpa [Nat.mul_add, ← Nat.mul_assoc] using h
  rw [right, level_nodeAt (by omega), if_neg (by omega), Nat.add_sub_cancel, shl_eq (by omega), xor_nodeAt l i hxor]

theorem parentStep_nodeAt (hl : l ≤ 30) : parentStep (nodeAt l i) = nodeAt (l + 1) (i / 2) := by
  have hpow : 2 ^ l ≤ 2 ^ 30 := Nat.pow_le_pow_right (by decide) hl
  have hlt : 2 ^ l - 1 < 2 ^ l := Nat.sub_lt (Nat.two_pow_pos l) Nat.one_pos
  have hlt' : 2 ^ (l + 1) - 1 < 2 ^ (l + 1) := Nat.sub_lt (Nat.two_pow_pos _) Nat.one_pos
  have hb : (nodeAt l i >>> (l + 1)) &&& 1 = i % 2 := by
    rw [Nat.and_one_is_mod, Nat.shiftRight_eq_div_pow, nodeAt, Nat.mul_add_div (Nat.two_pow_pos _),
      Nat.div_eq_of_lt (hlt.trans (Nat.pow_lt_pow_right (by decide) (by omega))), Nat.add_zero]
  -- the node with its lowest zero set
  have hor : nodeAt l i ||| 2 ^ l * 1 = 2 ^ (l + 1) * i + (2 ^ (l + 1) - 1) := by
    have htwo : (2 * i) ||| 1 = 2 * i + 1 := by
      have h := or_two_pow_mul_add (m := 1) (b := i) (c := 0) (show 0 < 2 ^ 1 by decide) (show 1 < 2 ^ 1 by decide)
      simpa using h
    have h := or_two_pow_mul_add (b := 2 * i) (c := 1) hlt (Nat.two_pow_pos l)
    simp only [Nat.add_zero, Nat.or_zero, htwo] at h
    rw [nodeAt, pow_succ, Nat.mul_assoc, h]
    have := Nat.two_pow_pos l
    have : 2 ^ l * (2 * i + 1) = 2 ^ l * (2 * i) + 2 ^ l := by ring
    omega
  have hxor : i ^^^ i % 2 = 2 * (i / 2) := by
    have h := xor_two_pow_mul_add (m := 1) (b := i / 2) (c := 0) (Nat.mod_lt i (by decide)) (Nat.mod_lt i (by decide))
    simpa [Nat.div_add_mod] using h
  have hbit : 2 ^ l * (i % 2) ≤ 2 ^ l * 1 := Nat.mul_le_mul_left _ (Nat.le_of_lt_succ (Nat.mod_lt i (by decide)))
  have h := xor_two_pow_mul_add (b := i) (c := i % 2) hlt' (Nat.two_pow_pos (l + 1))
  simp only [Nat.add_zero, Nat.xor_zero, hxor] at h
  rw [parentStep, level_nodeAt (by omega), hb, shl_eq (by omega), hor,
    shl_eq (by rw [pow_succ, Nat.mul_right_comm]; omega), h, nodeAt, pow_succ _ (l + 1), Nat.mul_assoc]

/-! ## The tree -/

theorem nodeWidth_two_pow (hk : k ≤ 30) : nodeWidth (2 ^ k) = 2 ^ (k + 1) - 1 := by
  have hpow : 2 ^ k ≤ 2 ^ 30 := Nat.pow_le_pow_right (by decide) hk
  have hpos := Nat.two_pow_pos k
  rw [nodeWidth, if_neg (by omega), pow_succ, Nat.mod_eq_of_lt (by omega)]
  omega

theorem root_two_pow (hk : k ≤ 30) : root (2 ^ k) = nodeAt k 0 := by
  have hpow : 2 ^ k ≤ 2 ^ 30 := Nat.pow_le_pow_right (by decide) hk
  have hpos := Nat.two_pow_pos k
  have hlog : log2 (2 ^ (k + 1) - 1) = k := by
    rw [log2, if_neg (by rw [pow_succ]; omega), countWhile_eq (m := k + 1) (Nat.zero_le _) (by omega)]
    · rfl
    · intro j _ hj
      have hle : 2 ^ j ≤ 2 ^ k := Nat.pow_le_pow_right (by decide) (by omega)
      rw [decide_eq_true_eq, Nat.shiftRight_eq_div_pow, gt_iff_lt, Nat.div_pos_iff, pow_succ]
      exact ⟨Nat.two_pow_pos j, by omega⟩
    · rw [decide_eq_true_eq, Nat.shiftRight_eq_div_pow, Nat.div_eq_of_lt (Nat.sub_lt (Nat.two_pow_pos _) Nat.one_pos)]
      exact Nat.lt_irrefl 0
  rw [root, nodeWidth_two_pow hk, hlog, shl_eq (by omega), nodeAt, Nat.mul_one, Nat.mul_zero, Nat.zero_add]

theorem nodeAt_inj {l' i' : Nat} (hl : l ≤ 32) (hl' : l' ≤ 32) : nodeAt l i = nodeAt l' i' ↔ l = l' ∧ i = i' := by
  refine ⟨fun h => ?_, fun ⟨h, h'⟩ => by rw [h, h']⟩
  obtain rfl : l = l' := by rw [← level_nodeAt (i := i) hl, h, level_nodeAt hl']
  exact ⟨rfl, Nat.eq_of_mul_eq_mul_left (Nat.two_pow_pos _) (Nat.add_right_cancel h)⟩

theorem parent_nodeAt (hk : k ≤ 30) (hl : l < k) (hi : i < 2 ^ (k - l)) :
    parent (nodeAt l i) (2 ^ k) = some (nodeAt (l + 1) (i / 2)) := by
  have hlt : nodeAt (l + 1) (i / 2) < 2 ^ (k + 1) - 1 := nodeAt_lt_iff.mpr ⟨hl, by
    rw [show k - l = k - (l + 1) + 1 by omega, pow_succ] at hi
    omega⟩
  rw [parent, root_two_pow hk, if_neg, parentStep_nodeAt (by omega), nodeWidth_two_pow hk, parentFrom, if_neg (by omega)]
  rw [nodeAt_inj (by omega) (by omega)]
  omega

theorem sibling_nodeAt (hk : k ≤ 30) (hl : l < k) (hi : i < 2 ^ (k - l)) :
    sibling (nodeAt l i) (2 ^ k) = some (nodeAt l (if i % 2 = 0 then i + 1 else i - 1)) := by
  have hx := nodeAt_succ l i
  have hp := nodeAt_succ (l + 1) (i / 2)
  have hpos := Nat.two_pow_pos l
  rw [sibling, parent_nodeAt hk hl hi]
  rcases Nat.mod_two_eq_zero_or_one i with hmod | hmod
  · have hlt : nodeAt l i < nodeAt (l + 1) (i / 2) := by
      have : 2 ^ l * (2 * i + 1) < 2 ^ (l + 1) * (2 * (i / 2) + 1) := by
        rw [pow_succ, Nat.mul_assoc]
        exact Nat.mul_lt_mul_of_pos_left (by omega) hpos
      omega
    rw [Option.bind_eq_bind, Option.bind_some, if_pos hlt, right_nodeAt (by omega), if_pos hmod]
    congr 3
    omega
  · have hle : nodeAt (l + 1) (i / 2) ≤ nodeAt l i := by
      have : 2 ^ (l + 1) * (2 * (i / 2) + 1) ≤ 2 ^ l * (2 * i + 1) := by
        rw [pow_succ, Nat.mul_assoc]
        exact Nat.mul_le_mul_left _ (by omega)
      omega
    rw [Option.bind_eq_bind, Option.bind_some, if_neg hle.not_gt, left_nodeAt (by omega), if_neg (by omega)]
    congr 2
    omega

theorem index_sibling_lt {m : Nat} (hm : m ≠ 0) (hi : i < 2 ^ m) : (if i % 2 = 0 then i + 1 else i - 1) < 2 ^ m := by
  obtain ⟨m, rfl⟩ := Nat.exists_eq_succ_of_ne_zero hm
  rw [Nat.succ_eq_add_one, pow_succ] at hi ⊢
  split <;> omega

def climb (n : Nat) : Nat → Nat → Option Nat
  | 0, x => some x
  | j + 1, x => (parent x n).bind (climb n j)

theorem climb_nodeAt (hk : k ≤ 30) (hl : l ≤ k) (hi : i < 2 ^ (k - l)) (j : Nat) :
    climb (2 ^ k) j (nodeAt l i) = if l + j ≤ k then some (nodeAt (l + j) (i / 2 ^ j)) else none := by
  induction j generalizing l i with
  | zero => rw [climb, Nat.add_zero, if_pos hl, pow_zero, Nat.div_one]
  | succ j ih =>
    rw [climb]
    rcases hl.eq_or_lt with rfl | hlt
    · rw [Nat.sub_self, pow_zero, Nat.lt_one_iff] at hi
      rw [parent, root_two_pow hk, hi, if_pos rfl, if_neg (by omega)]
      rfl
    · have hi' : i / 2 < 2 ^ (k - (l + 1)) := by
        rw [show k - l = k - (l + 1) + 1 by omega, pow_succ] at hi
        omega
      rw [parent_nodeAt hk hlt hi, Option.bind_some, ih hlt hi', Nat.div_div_eq_div_mul, ← pow_succ',
        Nat.succ_add_eq_add_succ]

/-! ## The walk to a leaf -/

def turnsFrom (target : Nat) : Nat → Nat → List Turn
  | 0, _ => []
  | fuel + 1, node =>
    match turn target node with
    | none => []
    | some (t, node) => t :: turnsFrom target fuel node

def turns (nLeaves leaf : Nat) : List Turn := turnsFrom (2 * leaf) 32 (root nLeaves)

def follow : Nat → List Turn → Option Nat
  | node, [] => some node
  | node, .left :: ts => (left node).bind (follow · ts)
  | node, .right :: ts => (right node).bind (follow · ts)

theorem leafSecretFrom_eq (expandWithLabel : Bytes → String → Bytes → Nat → Bytes) (target fuel node : Nat)
    (secret : Bytes) : leafSecretFrom expandWithLabel target fuel node secret =
      (turnsFrom target fuel node).foldl (fun s t => expandWithLabel s "tree" t.label NH) secret := by
  induction fuel generalizing node secret with
  | zero => rfl
  | succ fuel ih =>
    rw [leafSecretFrom, turnsFrom]
    cases turn target node with
    | none => rfl
    | some r => exact ih ..

theorem follow_turnsFrom (leaf : Nat) {fuel : Nat} (hl : l ≤ 30) (hfuel : l ≤ fuel) :
    follow (nodeAt l (leaf / 2 ^ l)) (turnsFrom (2 * leaf) fuel (nodeAt l (leaf / 2 ^ l))) = some (2 * leaf) ∧
      (turnsFrom (2 * leaf) fuel (nodeAt l (leaf / 2 ^ l))).length = l := by
  induction l generalizing fuel with
  | zero =>
    have hleaf : nodeAt 0 (leaf / 2 ^ 0) = 2 * leaf := by rw [nodeAt, pow_zero, Nat.div_one, pow_one, Nat.sub_self, Nat.add_zero]
    have hstop : turn (2 * leaf) (2 * leaf) = none := by
      rw [turn, if_neg (lt_irrefl _), right, ← hleaf, level_nodeAt (by omega)]
      rfl
    rw [hleaf]
    cases fuel <;> simp [turnsFrom, hstop, follow]
  | succ l ih =>
    obtain ⟨fuel, rfl⟩ : ∃ f, fuel = f + 1 := ⟨fuel - 1, by omega⟩
    obtain ⟨hfollow, hlen⟩ := ih (by omega) (show l ≤ fuel by omega)
    have hpos := Nat.two_pow_pos l
    have hq : leaf / 2 ^ (l + 1) = leaf / 2 ^ l / 2 := by rw [Nat.div_div_eq_div_mul, pow_succ]
    have hnode := nodeAt_succ (l + 1) (leaf / 2 ^ (l + 1))
    have hfloor := Nat.div_add_mod leaf (2 ^ l)
    have hmod := Nat.mod_lt leaf hpos
    rw [turnsFrom, turn]
    rw [hq] at hnode ⊢
    generalize leaf / 2 ^ l = q at *
    rcases Nat.mod_two_eq_zero_or_one q with h | h
    · have hlt : 2 * leaf < nodeAt (l + 1) (q / 2) := by
        have hmul : 2 ^ (l + 1) * (2 * (q / 2) + 1) = 2 * (2 ^ l * q) + 2 * 2 ^ l := by
          rw [show 2 * (q / 2) = q by omega]
          ring
        omega
      rw [if_pos hlt, left_nodeAt (by omega), show 2 * (q / 2) = q by omega]
      simp only [Option.map_some, follow, left_nodeAt (show l < 30 by omega), show 2 * (q / 2) = q by omega,
        Option.bind_some, List.length_cons, hlen, hfollow, and_self]
    · have hle : nodeAt (l + 1) (q / 2) ≤ 2 * leaf := by
        have hmul : 2 ^ (l + 1) * (2 * (q / 2) + 1) = 2 * (2 ^ l * q) := by
          rw [show 2 * (q / 2) + 1 = q by omega]
          ring
        omega
      rw [if_neg hle.not_gt, right_nodeAt (by omega), show 2 * (q / 2) + 1 = q by omega]
      simp only [Option.map_some, follow, right_nodeAt (show l < 30 by omega), show 2 * (q / 2) + 1 = q by omega,
        Option.bind_some, List.length_cons, hlen, hfollow, and_self]

theorem follow_turns (hk : k ≤ 30) {leaf : Nat} (hleaf : leaf < 2 ^ k) :
    follow (root (2 ^ k)) (turns (2 ^ k) leaf) = some (2 * leaf) ∧ (turns (2 ^ k) leaf).length = k := by
  have h := follow_turnsFrom leaf hk (show k ≤ 32 by omega)
  rwa [Nat.div_eq_of_lt hleaf, ← root_two_pow hk] at h

/-- With `2 ^ k` leaves the node numbers below the width are a perfect binary tree of height `k`, and `leaf_secret`
takes the turns that lead from its root to the leaf. -/
theorem tree_of_two_pow (hk : k ≤ 30) (hx : x < nodeWidth (2 ^ k)) :
    (level x ≠ 0 → ∃ a b, left x = some a ∧ right x = some b ∧ a < nodeWidth (2 ^ k) ∧ b < nodeWidth (2 ^ k) ∧ a ≠ b ∧
      parent a (2 ^ k) = some x ∧ parent b (2 ^ k) = some x) ∧
    (x ≠ root (2 ^ k) → ∃ y, sibling x (2 ^ k) = some y ∧ y < nodeWidth (2 ^ k) ∧ y ≠ root (2 ^ k) ∧ y ≠ x ∧
      sibling y (2 ^ k) = some x) ∧
    (parent x (2 ^ k) = none ↔ x = root (2 ^ k)) ∧
    (∀ j, climb (2 ^ k) j x = some (root (2 ^ k)) ↔ j = k - level x) ∧
    ∀ leaf < 2 ^ k, follow (root (2 ^ k)) (turns (2 ^ k) leaf) = some (2 * leaf) ∧
      (∀ leaf' < 2 ^ k, turns (2 ^ k) leaf = turns (2 ^ k) leaf' → leaf = leaf') ∧
      ∀ (expandWithLabel : Bytes → String → Bytes → Nat → Bytes) (secret : Bytes),
        leafSecret expandWithLabel secret (2 ^ k) leaf =
          (turns (2 ^ k) leaf).foldl (fun s t => expandWithLabel s "tree" t.label NH) secret := by
  obtain ⟨l, i, rfl⟩ := exists_nodeAt x
  rw [nodeWidth_two_pow hk] at hx ⊢
  obtain ⟨hl, hi⟩ := nodeAt_lt_iff.mp hx
  rw [root_two_pow hk, level_nodeAt (by omega)]
  refine ⟨fun hne => ?_, fun hne => ?_, ?_, fun j => ?_, fun leaf hleaf => ?_⟩
  · obtain ⟨l, rfl⟩ := Nat.exists_eq_succ_of_ne_zero hne
    have hi' : 2 * i + 1 < 2 ^ (k - l) := by
      rw [show k - l = k - l.succ + 1 by omega, pow_succ]
      omega
    refine ⟨_, _, left_nodeAt (by omega), right_nodeAt (by omega), nodeAt_lt_iff.mpr ⟨by omega, by omega⟩,
      nodeAt_lt_iff.mpr ⟨by omega, hi'⟩, fun h => ?_, ?_, ?_⟩
    · have := ((nodeAt_inj (by omega) (by omega)).mp h).2
      omega
    · rw [parent_nodeAt hk (by omega) (by omega), Nat.mul_div_cancel_left _ (by decide)]
    · rw [parent_nodeAt hk (by omega) hi', show (2 * i + 1) / 2 = i by omega]
  · have hlt : l < k := by
      refine hl.lt_of_ne fun h => hne ?_
      rw [h, Nat.sub_self, pow_zero, Nat.lt_one_iff] at hi
      rw [h, hi]
    have hi' := index_sibling_lt (show k - l ≠ 0 by omega) hi
    refine ⟨_, sibling_nodeAt hk hlt hi, nodeAt_lt_iff.mpr ⟨hl, hi'⟩, fun h => ?_, fun h => ?_, ?_⟩
    · have := ((nodeAt_inj (by omega) (by omega)).mp h).1
      omega
    · have := ((nodeAt_inj (by omega) (by omega)).mp h).2
      split at this <;> omega
    · rw [sibling_nodeAt hk hlt hi']
      congr 2
      split <;> split <;> omega
  · rw [parent, root_two_pow hk]
    split <;> simp [*]
  · rw [climb_nodeAt hk hl hi]
    split
    · rw [Option.some.injEq, nodeAt_inj (by omega) (by omega)]
      refine ⟨fun h => by omega, fun h => ⟨by omega, ?_⟩⟩
      rw [h, Nat.div_eq_of_lt hi]
    · exact iff_of_false nofun (by omega)
  · rw [← root_two_pow hk]
    obtain ⟨hfollow, -⟩ := follow_turns hk hleaf
    refine ⟨hfollow, fun leaf' hleaf' heq => ?_, fun expandWithLabel secret => leafSecretFrom_eq ..⟩
    have hfollow' := (follow_turns hk hleaf').1
    rw [← heq, hfollow, Option.some.injEq] at hfollow'
    omega

/-- Node 2 of a tree with eight leaves is not its root, so it has a parent. -/
theorem tree_of_eight : parent 2 (2 ^ 3) = some 1 ∧ (parent 2 (2 ^ 3) = none ↔ 2 = root (2 ^ 3)) :=
  ⟨by decide, (tree_of_two_pow (by decide) (by decide)).2.2.1⟩

end Talkrypt.Mls
