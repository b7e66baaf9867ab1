import Talkrypt.Crypto.Ratchet.Session

/-!
# Message keys along the chains of a conversation

A conversation is a sequence of sending chains that alternate between the two ends. Each chain is entered
by one root step, and its message keys are the seeds along one KDF chain. If the KDFs have no collisions
(`KdfIdeal`), every message of every chain has its own key, and no key derived from a later root is one of
them (`seedAt_inj`).
-/

namespace Talkrypt

/-- The key derivations do not collide: a message key determines its seed, the seed its chain key, a
chain key its position and the root it comes from, and roots never repeat. -/
structure Primitives.KdfIdeal (P : Primitives) : Prop where
  message : ∀ s s', P.kdfMk s = P.kdfMk s' → s = s'
  seed : ∀ c c', (P.kdfCk c).2 = (P.kdfCk c').2 → c = c'
  next : ∀ c c', (P.kdfCk c).1 = (P.kdfCk c').1 → c = c'
  chain : ∀ r r' i i', (P.kdfRk r i).2 = (P.kdfRk r' i').2 → r = r'
  fresh : ∀ r i c, (P.kdfRk r i).2 ≠ (P.kdfCk c).1
  acyclic : ∃ rank : P.Key → Nat, ∀ r i, rank r < rank (P.kdfRk r i).1

namespace Ratchet
variable {P : Primitives}

def chainKey (ck : P.Key) (n : Nat) : P.Key := (fun c => (P.kdfCk c).1)^[n] ck

def seedAt (ck : P.Key) (n : Nat) : P.Key := (P.kdfCk (chainKey ck n)).2

@[simp] theorem chainKey_zero (ck : P.Key) : chainKey ck 0 = ck := rfl

theorem chainKey_succ (ck : P.Key) (n : Nat) : chainKey ck (n + 1) = (P.kdfCk (chainKey ck n)).1 :=
  Function.iterate_succ_apply' ..

theorem chainKey_kdfCk (ck : P.Key) (n : Nat) : chainKey (P.kdfCk ck).1 n = chainKey ck (n + 1) :=
  (Function.iterate_succ_apply ..).symm

theorem chainKey_chainKey (ck : P.Key) (m n : Nat) : chainKey (chainKey ck m) n = chainKey ck (m + n) := by
  rw [chainKey, chainKey, chainKey, Nat.add_comm, Function.iterate_add_apply]

theorem seedAt_chainKey (ck : P.Key) (m n : Nat) : seedAt (chainKey ck m) n = seedAt ck (m + n) := by
  rw [seedAt, chainKey_chainKey, seedAt]

section Ideal
variable (hk : P.KdfIdeal) {r r' : P.Key} {i i' : Bytes}
include hk

theorem chainKey_inj : ∀ {n n' : Nat}, chainKey (P.kdfRk r i).2 n = chainKey (P.kdfRk r' i').2 n' →
    n = n' ∧ r = r'
  | 0, 0, h => ⟨rfl, hk.chain _ _ _ _ h⟩
  | 0, n' + 1, h => by
    rw [chainKey_zero, chainKey_succ] at h
    exact absurd h (hk.fresh _ _ _)
  | n + 1, 0, h => by
    rw [chainKey_zero, chainKey_succ] at h
    exact absurd h.symm (hk.fresh _ _ _)
  | n + 1, n' + 1, h => by
    rw [chainKey_succ, chainKey_succ] at h
    obtain ⟨rfl, hr⟩ := chainKey_inj (hk.next _ _ h)
    exact ⟨rfl, hr⟩

theorem seedAt_inj {n n' : Nat} (h : seedAt (P.kdfRk r i).2 n = seedAt (P.kdfRk r' i').2 n') :
    n = n' ∧ r = r' :=
  chainKey_inj hk (hk.seed _ _ h)

end Ideal

/-! ## The skip loop -/

section SkipLoop
variable (chainId : Bytes) (k : Nat) (ck : P.Key) (n : Nat) (skipped : Table (Bytes × Nat) P.Key)

theorem skipLoop_fst : (Session.skipLoop P chainId k ck n skipped).1 = chainKey ck k := by
  induction k generalizing ck n skipped with
  | zero => rfl
  | succ k ih => rw [Session.skipLoop, ih, chainKey_kdfCk]

theorem skipLoop_lookup (id : Bytes) (m : Nat) :
    (Session.skipLoop P chainId k ck n skipped).2.lookup (id, m) =
      if id = chainId ∧ n ≤ m ∧ m < n + k then some (seedAt ck (m - n)) else skipped.lookup (id, m) := by
  induction k generalizing ck n skipped with
  | zero => rw [if_neg (by omega)]; rfl
  | succ k ih =>
    rw [Session.skipLoop, ih, Table.lookup_insert_eq]
    by_cases hid : id = chainId
    · subst hid
      by_cases hm : m = n
      · subst hm
        rw [if_neg (by omega), if_pos rfl, if_pos ⟨rfl, le_rfl, by omega⟩, Nat.sub_self]
        rfl
      · have hne : (id, m) ≠ (id, n) := fun heq => hm (congrArg Prod.snd heq)
        rw [if_neg hne]
        by_cases hin : n ≤ m ∧ m < n + (k + 1)
        · rw [if_pos ⟨rfl, by omega, by omega⟩, if_pos ⟨rfl, hin⟩, seedAt, chainKey_kdfCk,
            show m - (n + 1) + 1 = m - n by omega]
          rfl
        · rw [if_neg (by omega), if_neg fun h => hin h.2]
    · rw [if_neg fun h => hid h.1, if_neg fun heq => hid (congrArg Prod.fst heq),
        if_neg fun h => hid h.1]

theorem skipLoop_length (hfree : ∀ m, n ≤ m → skipped.lookup (chainId, m) = none) :
    (Session.skipLoop P chainId k ck n skipped).2.entries.length = skipped.entries.length + k := by
  induction k generalizing ck n skipped with
  | zero => rfl
  | succ k ih =>
    have hnot : (chainId, n) ∉ skipped := AList.lookup_eq_none.mp (hfree n le_rfl)
    rw [Session.skipLoop, ih, AList.entries_insert_of_notMem hnot, List.length_cons]
    · omega
    · intro m hm
      have hne : (chainId, m) ≠ (chainId, n) := fun heq => by
        have := congrArg Prod.snd heq
        simp only at this
        omega
      rw [Table.lookup_insert_eq, if_neg hne]
      exact hfree m (by omega)

end SkipLoop

end Ratchet
end Talkrypt
