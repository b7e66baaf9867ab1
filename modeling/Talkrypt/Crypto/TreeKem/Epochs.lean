import Talkrypt.Crypto.TreeKem.GroupMessage
import Talkrypt.Crypto.TreeKem.Tree

/-!
# Epochs and receiving chains

A group keeps its receiving chains within an epoch and drops them at the end of it (`Group.Ages`). Within
an epoch, a message key that has been used stays used: its number is behind the chain and it is not among
the kept keys (`Group.Spent`). So a message opens at most once.
-/

namespace Talkrypt.TreeKem
open Ratchet (MAX_SKIP)

variable {S : Scheme}

namespace Group
variable {g g' g'' : Group S} {n n' : Nat}

/-! ## Commits -/

namespace Ages

end Ages

/-! ## Used message keys -/

/-- The message key `n` of a leaf's chain has been used. -/
def Spent (g : Group S) (leaf n : Nat) : Prop := ∃ recv, g.recvs.lookup leaf = some recv ∧ recv.Used n

def Chained (g : Group S) : Prop :=
  ∀ leaf recv, g.recvs.lookup leaf = some recv → ∀ n, recv.skipped.lookup n ≠ none → n < recv.n

theorem chained_of_recvs_empty (h : g.recvs = ∅) : g.Chained := by
  intro leaf recv hrecv
  rw [h, AList.lookup_empty] at hrecv
  cases hrecv

end Group

namespace RecvChain
variable {M : Messaging S}

theorem skipOne_iterate (recv : RecvChain S) (k : Nat) :
    (skipOne M)^[k] recv =
      { chain := (KeyChain.skip M.kdfCk k recv.chain recv.n recv.skipped).1
        n := recv.n + k
        skipped := (KeyChain.skip M.kdfCk k recv.chain recv.n recv.skipped).2 } := by
  induction k generalizing recv with
  | zero => rfl
  | succ k ih =>
    rw [Function.iterate_succ_apply, ih, skipOne, Nat.add_right_comm]
    rfl

/-- The chain after an attempt at message `n` that failed. -/
def tried (M : Messaging S) (recv : RecvChain S) (n : Nat) : RecvChain S :=
  match recv.skipped.lookup n with
  | some _ => { recv with skipped := recv.skipped.erase n }
  | none => (skipOne M)^[n - recv.n] recv

end RecvChain

namespace Group
variable {M : Messaging S} {g g' : Group S} {epoch leaf n : Nat} {ct pt : Bytes}

theorem recvChain_chained (h : g.Chained) (hn : (g.recvChain leaf).skipped.lookup n ≠ none) :
    n < (g.recvChain leaf).n := by
  unfold recvChain at hn ⊢
  cases hrecv : g.recvs.lookup leaf with
  | none =>
    rw [hrecv] at hn
    exact absurd (AList.lookup_empty n) hn
  | some recv =>
    rw [hrecv] at hn
    exact h leaf recv hrecv n hn

theorem spent_iff : g.Spent leaf n ↔ (g.recvChain leaf).Used n := by
  unfold Spent recvChain
  cases g.recvs.lookup leaf with
  | none => simp [KeyChain.Receiver.Used]
  | some recv => simp

theorem recvChain_setRecv (g : Group S) (leaf leaf' : Nat) (recv : RecvChain S) :
    (g.setRecv leaf recv).recvChain leaf' = if leaf' = leaf then recv else g.recvChain leaf' := by
  unfold recvChain setRecv
  rw [Table.lookup_insert_eq]
  split <;> rfl

/-- A receiving chain moves on: used keys stay used, and kept keys stay behind. -/
structure MovesOn (recv recv' : RecvChain S) : Prop where
  spent : ∀ n, recv.Used n → recv'.Used n
  chained : (∀ n, recv.skipped.lookup n ≠ none → n < recv.n) → ∀ n, recv'.skipped.lookup n ≠ none → n < recv'.n

namespace MovesOn
variable {recv : RecvChain S}

theorem erase (recv : RecvChain S) (n : Nat) : MovesOn recv { recv with skipped := recv.skipped.erase n } := by
  refine ⟨fun k ⟨hlt, hnone⟩ => ⟨hlt, ?_⟩, fun h k hk => h k ?_⟩
  · rw [Table.lookup_erase_eq, hnone, ite_self]
  · rw [Table.lookup_erase_eq] at hk
    split at hk
    · exact absurd rfl hk
    · exact hk

theorem skip {recv' : RecvChain S} (hn : recv.n ≤ n) (hle : n ≤ recv'.n)
    (hskipped : recv'.skipped = (KeyChain.skip M.kdfCk (n - recv.n) recv.chain recv.n recv.skipped).2) :
    MovesOn recv recv' := by
  have hlookup : ∀ k, k < recv.n ∨ n ≤ k → recv'.skipped.lookup k = recv.skipped.lookup k := by
    intro k hk
    rw [hskipped, KeyChain.Receiver.lookup_skip_to, if_neg (by omega)]
  refine ⟨fun k ⟨hlt, hnone⟩ => ⟨by omega, (hlookup k (.inl hlt)).trans hnone⟩, fun h k hk => ?_⟩
  by_cases hkn : n ≤ k
  · rw [hlookup k (.inr hkn)] at hk
    have := h k hk
    omega
  · omega

end MovesOn

theorem decryptBody_eq (g : Group S) (epoch leaf n : Nat) (ct : Bytes) :
    ((g.recvChain leaf).seedFor M.kdfCk MAX_SKIP n = none ∧
      (g.decryptBody M epoch leaf n ct).1 = g.setRecv leaf (g.recvChain leaf) ∧
      ∃ e, (g.decryptBody M epoch leaf n ct).2 = .error e) ∨
    ∃ seed, (g.recvChain leaf).seedFor M.kdfCk MAX_SKIP n = some seed ∧
      (g.decryptBody M epoch leaf n ct).2 = M.aeadOpen seed ct (msgAad epoch leaf n) ∧
      (g.decryptBody M epoch leaf n ct).1 = g.setRecv leaf
        (if (M.aeadOpen seed ct (msgAad epoch leaf n)).isOk then (g.recvChain leaf).used M.kdfCk n
        else (g.recvChain leaf).tried M n) := by
  unfold decryptBody
  dsimp only
  split
  · next seed hseed =>
    refine .inr ⟨seed, KeyChain.Receiver.seedFor_of_lookup hseed, rfl, ?_⟩
    rw [KeyChain.Receiver.used, RecvChain.tried, hseed]
    split <;> rfl
  · next hnone =>
    have hseedFor : (g.recvChain leaf).seedFor M.kdfCk MAX_SKIP n = _ :=
      KeyChain.Receiver.seedFor_of_lookup_eq_none hnone
    split
    · next hlt => exact .inl ⟨hseedFor.trans (if_pos (.inl hlt)), rfl, _, rfl⟩
    · next hle =>
      split
      · next hgap => exact .inl ⟨hseedFor.trans (if_pos (.inr hgap)), rfl, _, rfl⟩
      · next hgap =>
        refine .inr ⟨_, hseedFor.trans (if_neg (by omega)), ?_⟩
        rw [KeyChain.Receiver.used, RecvChain.tried, hnone, RecvChain.skipOne_iterate, KeyChain.skip_fst, KeyChain.seedAt,
          Nat.add_sub_of_le (Nat.not_lt.mp hle)]
        dsimp only
        split
        · next hopen =>
          rw [hopen]
          exact ⟨rfl, rfl⟩
        · next hopen =>
          rw [hopen, KeyChain.chainAt_succ]
          exact ⟨rfl, rfl⟩

theorem MovesOn.tried (recv : RecvChain S) (hn : recv.seedFor M.kdfCk MAX_SKIP n ≠ none) :
    MovesOn recv (recv.tried M n) := by
  unfold RecvChain.tried
  split
  · exact .erase recv n
  · next hnone =>
    rw [KeyChain.Receiver.seedFor_of_lookup_eq_none hnone] at hn
    have hle : recv.n ≤ n := Nat.not_lt.mp fun hlt => hn (if_pos (.inl hlt))
    rw [RecvChain.skipOne_iterate]
    exact .skip (M := M) hle (Nat.add_sub_of_le hle).ge rfl

theorem MovesOn.used (recv : RecvChain S) (hlt : n + 1 < 2 ^ 32) (hn : recv.seedFor M.kdfCk MAX_SKIP n ≠ none) :
    MovesOn recv (recv.used M.kdfCk n) := by
  unfold KeyChain.Receiver.used
  split
  · exact .erase recv n
  · next hnone =>
    rw [KeyChain.Receiver.seedFor_of_lookup_eq_none hnone] at hn
    have hle : recv.n ≤ n := Nat.not_lt.mp fun hlt => hn (if_pos (.inl hlt))
    exact .skip (M := M) hle (by rw [Nat.mod_eq_of_lt hlt]; exact Nat.le_succ n) rfl

theorem decryptBody_spec (hchained : g.Chained) (epoch leaf : Nat) (ct : Bytes) (hn : n + 1 < 2 ^ 32) :
    ∃ recv', (g.decryptBody M epoch leaf n ct).1 = g.setRecv leaf recv' ∧ MovesOn (g.recvChain leaf) recv' ∧
      ∀ pt, (g.decryptBody M epoch leaf n ct).2 = .ok pt → ¬ g.Spent leaf n ∧ recv'.Used n ∧
        ∃ seed, M.aeadOpen seed ct (msgAad epoch leaf n) = .ok pt := by
  rcases decryptBody_eq (M := M) g epoch leaf n ct with ⟨-, hset, e, herror⟩ | ⟨seed, hseed, hopen, hset⟩
  · exact ⟨_, hset, ⟨fun _ => id, id⟩, fun pt hpt => nomatch herror.symm.trans hpt⟩
  · have hsome : (g.recvChain leaf).seedFor M.kdfCk MAX_SKIP n ≠ none := hseed ▸ nofun
    refine ⟨_, hset, ?_, fun pt hpt => ⟨?_, ?_, seed, hopen.symm.trans hpt⟩⟩
    · split
      · exact .used _ hn hsome
      · exact .tried _ hsome
    · exact fun hspent => KeyChain.Receiver.not_used_of_seedFor hseed (spent_iff.mp hspent)
    · rw [hopen.symm.trans hpt]
      exact KeyChain.Receiver.used_self (recvChain_chained hchained) hn

variable {recv' : RecvChain S}

theorem chained_setRecv (h : MovesOn (g.recvChain leaf) recv') (hg : g.Chained) : (g.setRecv leaf recv').Chained := by
  intro l recv hrecv
  have hrecv := (Table.lookup_insert_eq ..).symm.trans hrecv
  split at hrecv
  · cases hrecv
    exact h.chained fun k hk => recvChain_chained hg hk
  · exact hg l recv hrecv

end Group
end Talkrypt.TreeKem
