import Talkrypt.Lib.Table

/-! Symmetric key chains. Each chain key yields the next chain key and the key seed of one message. A
receiver that jumps ahead on a chain keeps the seeds it passes, under their message numbers. -/

namespace Talkrypt.KeyChain
variable {K : Type} (kdf : K → K × K)

def chainAt (ck : K) (n : Nat) : K := (fun c => (kdf c).1)^[n] ck

def seedAt (ck : K) (n : Nat) : K := (kdf (chainAt kdf ck n)).2

/-- Move `k` messages ahead of message `n`, keeping their seeds. -/
def skip : Nat → K → Nat → Table Nat K → K × Table Nat K
  | 0, ck, _, kept => (ck, kept)
  | k + 1, ck, n, kept => skip k (kdf ck).1 (n + 1) (kept.insert n (kdf ck).2)

/-- How many seeds a receiver whose next message is `next` passes to open message `n`. -/
def gap (kept : Table Nat K) (next n : Nat) : Nat := if (kept.lookup n).isSome then 0 else n - next

variable {kdf} {ck : K} {next n k : Nat} {kept : Table Nat K}

@[simp] theorem chainAt_zero (ck : K) : chainAt kdf ck 0 = ck := rfl

theorem chainAt_succ (ck : K) (n : Nat) : chainAt kdf ck (n + 1) = (kdf (chainAt kdf ck n)).1 :=
  Function.iterate_succ_apply' ..

theorem chainAt_next (ck : K) (n : Nat) : chainAt kdf (kdf ck).1 n = chainAt kdf ck (n + 1) :=
  (Function.iterate_succ_apply ..).symm

theorem chainAt_chainAt (ck : K) (m n : Nat) : chainAt kdf (chainAt kdf ck m) n = chainAt kdf ck (m + n) := by
  rw [chainAt, chainAt, chainAt, Nat.add_comm, Function.iterate_add_apply]

theorem seedAt_chainAt (ck : K) (m n : Nat) : seedAt kdf (chainAt kdf ck m) n = seedAt kdf ck (m + n) := by
  rw [seedAt, chainAt_chainAt, seedAt]

theorem chainAt_inj (hnext : ∀ c c', (kdf c).1 = (kdf c').1 → c = c') (hfirst : ∀ c, (kdf c).1 ≠ ck) :
    ∀ {m n : Nat}, chainAt kdf ck m = chainAt kdf ck n → m = n
  | 0, 0, _ => rfl
  | 0, n + 1, h => by
    rw [chainAt_zero, chainAt_succ] at h
    exact absurd h.symm (hfirst _)
  | m + 1, 0, h => by
    rw [chainAt_zero, chainAt_succ] at h
    exact absurd h (hfirst _)
  | m + 1, n + 1, h => by
    rw [chainAt_succ, chainAt_succ] at h
    rw [chainAt_inj hnext hfirst (hnext _ _ h)]

/-! ## Skipping -/

theorem gap_of_lookup_eq_none (h : kept.lookup n = none) : gap kept next n = n - next := by
  rw [gap, h]
  rfl

theorem skip_fst (k : Nat) (ck : K) (n : Nat) (kept : Table Nat K) : (skip kdf k ck n kept).1 = chainAt kdf ck k := by
  induction k generalizing ck n kept with
  | zero => rfl
  | succ k ih => rw [skip, ih, chainAt_next]

theorem lookup_skip (k : Nat) (ck : K) (n : Nat) (kept : Table Nat K) (m : Nat) :
    (skip kdf k ck n kept).2.lookup m =
      if n ≤ m ∧ m < n + k then some (seedAt kdf ck (m - n)) else kept.lookup m := by
  induction k generalizing ck n kept with
  | zero => rw [if_neg (by omega)]; rfl
  | succ k ih =>
    rw [skip, ih, Table.lookup_insert_eq]
    by_cases hm : m = n
    · subst hm
      rw [if_neg (by omega), if_pos rfl, if_pos (by omega), Nat.sub_self]
      rfl
    · rw [if_neg hm]
      by_cases hin : n ≤ m ∧ m < n + (k + 1)
      · rw [if_pos (by omega), if_pos hin, seedAt, chainAt_next, show m - (n + 1) + 1 = m - n by omega]
        rfl
      · rw [if_neg (by omega), if_neg hin]

theorem length_skip_le (k : Nat) (ck : K) (n : Nat) (kept : Table Nat K) :
    (Table.toList (skip kdf k ck n kept).2).length ≤ kept.toList.length + k := by
  induction k generalizing ck n kept with
  | zero => exact le_rfl
  | succ k ih =>
    have hinsert := Table.length_insert_le kept n (kdf ck).2
    have hrest := ih (kdf ck).1 (n + 1) (kept.insert n (kdf ck).2)
    rw [skip]
    omega

theorem length_skip (k : Nat) (ck : K) (n : Nat) (kept : Table Nat K) (hfree : ∀ m, n ≤ m → kept.lookup m = none) :
    (Table.toList (skip kdf k ck n kept).2).length = kept.toList.length + k := by
  induction k generalizing ck n kept with
  | zero => rfl
  | succ k ih =>
    have hfree' : ∀ m, n + 1 ≤ m → (kept.insert n (kdf ck).2).lookup m = none := by
      intro m hm
      rw [Table.lookup_insert_eq, if_neg (by omega)]
      exact hfree m (by omega)
    rw [skip, ih _ _ _ hfree', Table.length_insert_of_lookup_eq_none (hfree n le_rfl)]
    omega

/-! ## Receivers -/

/-- A receiver: its chain key, the number of its next message, and the seeds that it keeps of earlier ones. -/
structure Receiver (K : Type) where
  chain : K
  n : Nat
  skipped : Table Nat K

namespace Receiver

def start (ck : K) : Receiver K := ⟨ck, 0, ∅⟩

/-- Message `n` has been opened: the chain is past it, and its seed is not kept. -/
def Used (r : Receiver K) (n : Nat) : Prop := n < r.n ∧ r.skipped.lookup n = none

variable (kdf) in
/-- The seed that message `n` is tried with, if it is at most `limit` messages ahead. -/
def seedFor (limit : Nat) (r : Receiver K) (n : Nat) : Option K :=
  match r.skipped.lookup n with
  | some seed => some seed
  | none => if n < r.n ∨ n - r.n > limit then none else some (seedAt kdf r.chain (n - r.n))

variable (kdf) in
/-- The receiver once message `n` is opened. The numbers have 32 bits. -/
def used (r : Receiver K) (n : Nat) : Receiver K :=
  match r.skipped.lookup n with
  | some _ => { r with skipped := r.skipped.erase n }
  | none =>
    { chain := chainAt kdf r.chain (n - r.n + 1), n := (n + 1) % 2 ^ 32
      skipped := (skip kdf (n - r.n) r.chain r.n r.skipped).2 }

variable (kdf) in
/-- The receiver is on the chain that starts with `ck`, and keeps seeds of messages that it has passed. -/
structure Follows (ck : K) (r : Receiver K) : Prop where
  chain : r.chain = chainAt kdf ck r.n
  kept : ∀ n seed, r.skipped.lookup n = some seed → n < r.n ∧ seed = seedAt kdf ck n

variable {r : Receiver K} {limit : Nat} {seed : K}

variable (kdf) in
theorem lookup_skip_to (r : Receiver K) (n k : Nat) : (skip kdf (n - r.n) r.chain r.n r.skipped).2.lookup k =
    if r.n ≤ k ∧ k < n then some (seedAt kdf r.chain (k - r.n)) else r.skipped.lookup k := by
  rw [lookup_skip]
  congr 1
  exact propext (by omega)

theorem seedFor_of_lookup (h : r.skipped.lookup n = some seed) : r.seedFor kdf limit n = some seed := by
  rw [seedFor, h]

theorem seedFor_of_lookup_eq_none (h : r.skipped.lookup n = none) : r.seedFor kdf limit n =
    if n < r.n ∨ n - r.n > limit then none else some (seedAt kdf r.chain (n - r.n)) := by
  rw [seedFor, h]

theorem not_used_of_seedFor (h : r.seedFor kdf limit n = some seed) : ¬ r.Used n := by
  rintro ⟨hlt, hnone⟩
  rw [seedFor_of_lookup_eq_none hnone, if_pos (.inl hlt)] at h
  cases h

theorem used_self (hkept : r.skipped.lookup n ≠ none → n < r.n) (hn : n + 1 < 2 ^ 32) : (r.used kdf n).Used n := by
  unfold used
  split
  · next hseed => exact ⟨hkept (hseed ▸ nofun), (Table.lookup_erase_eq ..).trans (if_pos rfl)⟩
  · next hnone =>
    refine ⟨?_, ?_⟩
    · dsimp only
      omega
    · rw [lookup_skip_to, if_neg (by omega), hnone]

theorem follows_start (ck : K) : (start ck).Follows kdf ck :=
  ⟨rfl, fun n _ h => nomatch (AList.lookup_empty n).symm.trans h⟩

namespace Follows

theorem seedFor_eq (h : r.Follows kdf ck) (limit n : Nat) [Decidable (r.Used n ∨ r.n + limit < n)] :
    r.seedFor kdf limit n = if r.Used n ∨ r.n + limit < n then none else some (seedAt kdf ck n) := by
  cases hkept : r.skipped.lookup n with
  | some seed =>
    obtain ⟨hlt, rfl⟩ := h.kept n seed hkept
    rw [seedFor_of_lookup hkept, if_neg]
    rintro (⟨-, hnone⟩ | hfar)
    · exact nomatch hkept.symm.trans hnone
    · omega
  | none =>
    have hused : r.Used n ↔ n < r.n := and_iff_left hkept
    rw [seedFor_of_lookup_eq_none hkept]
    by_cases hno : n < r.n ∨ n - r.n > limit
    · rw [if_pos hno, if_pos (by rw [hused]; omega)]
    · rw [if_neg hno, if_neg (by rw [hused]; omega), h.chain, seedAt_chainAt, Nat.add_sub_of_le (by omega)]

theorem seedFor_eq_none (h : r.Follows kdf ck) (hno : r.Used n ∨ r.n + limit < n) : r.seedFor kdf limit n = none := by
  classical rw [h.seedFor_eq, if_pos hno]

theorem seedFor_eq_some (h : r.Follows kdf ck) (hnew : ¬ r.Used n) (hnear : n ≤ r.n + limit) :
    r.seedFor kdf limit n = some (seedAt kdf ck n) := by
  classical rw [h.seedFor_eq, if_neg (not_or.mpr ⟨hnew, hnear.not_gt⟩)]

theorem used (h : r.Follows kdf ck) (hnew : ¬ r.Used n) (hn : n + 1 < 2 ^ 32) :
    (r.used kdf n).Follows kdf ck ∧ ∀ k, (r.used kdf n).Used k ↔ k = n ∨ r.Used k := by
  unfold Receiver.used
  cases hkept : r.skipped.lookup n with
  | some seed =>
    refine ⟨⟨h.chain, fun k seed hk => ?_⟩, fun k => ?_⟩
    · rw [Table.lookup_erase_eq] at hk
      split at hk
      · cases hk
      · exact h.kept k seed hk
    · have hlt := (h.kept n seed hkept).1
      simp only [Used, Table.lookup_erase_eq]
      by_cases hk : k = n
      · simp [hk, hlt]
      · simp [hk]
  | none =>
    have hle : r.n ≤ n := Nat.not_lt.mp fun hlt => hnew ⟨hlt, hkept⟩
    simp only [Nat.mod_eq_of_lt hn]
    refine ⟨⟨?_, fun k seed hk => ?_⟩, fun k => ?_⟩
    · dsimp only
      rw [h.chain, chainAt_chainAt, show r.n + (n - r.n + 1) = n + 1 by omega]
    · dsimp only
      rw [lookup_skip_to] at hk
      split at hk
      · next hin =>
        cases hk
        exact ⟨by omega, by rw [h.chain, seedAt_chainAt, Nat.add_sub_of_le hin.1]⟩
      · obtain ⟨hlt, hseed⟩ := h.kept k seed hk
        exact ⟨by omega, hseed⟩
    · simp only [Used, lookup_skip_to]
      by_cases hin : r.n ≤ k ∧ k < n
      · simp only [if_pos hin, reduceCtorEq, and_false, false_iff]
        omega
      · rw [if_neg hin]
        constructor
        · rintro ⟨hlt, hnone⟩
          by_cases hk : k = n
          · exact .inl hk
          · exact .inr ⟨by omega, hnone⟩
        · rintro (rfl | ⟨hlt, hnone⟩)
          · exact ⟨Nat.lt_succ_self k, hkept⟩
          · exact ⟨by omega, hnone⟩

theorem used_n (h : r.Follows kdf ck) (hle : r.n ≤ n) : (r.used kdf n).n = (n + 1) % 2 ^ 32 := by
  unfold Receiver.used
  split
  · next seed hseed => exact absurd (h.kept n seed hseed).1 hle.not_gt
  · rfl

end Follows
end Receiver
end Talkrypt.KeyChain
