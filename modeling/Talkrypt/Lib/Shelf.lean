import Talkrypt.Lib.Table

/-!
# Shelves

A shelf keeps values under keys until they are acknowledged: a store, and beside it an index of the keys in
the order of their arrival, with the times of arrival. It has a capacity, over which the oldest keys go, and
a time to live. The store and the index are written separately, so nothing here assumes that they agree.
-/

namespace Talkrypt

variable {G V : Type} [DecidableEq G]

structure Shelf (G V : Type) [DecidableEq G] where
  store : Table G V
  index : List (G × Nat)

namespace Shelf

def new : Shelf G V := ⟨∅, []⟩

/-- Drop the oldest keys as long as there are too many; how many were dropped. -/
def trim (cap : Nat) (store : Table G V) : List (G × Nat) → Shelf G V × Nat
  | [] => (⟨store, []⟩, 0)
  | e :: index =>
    if cap < (e :: index).length then
      let (s, dropped) := trim cap (store.erase e.1) index
      (s, dropped + 1)
    else (⟨store, e :: index⟩, 0)

def note (index : List (G × Nat)) (g : G) (now : Nat) : List (G × Nat) :=
  if index.any (·.1 = g) then index else index ++ [(g, now)]

def put (cap : Nat) (s : Shelf G V) (g : G) (v : V) (now : Nat) : Shelf G V × Nat :=
  trim cap (s.store.insert g v) (note s.index g now)

def ack (s : Shelf G V) (g : G) : Shelf G V := ⟨s.store.erase g, s.index.filter (·.1 ≠ g)⟩

def expired (ttl : Nat) (s : Shelf G V) (now : Nat) : List G :=
  (s.index.filter fun e => ttl < now - e.2).map (·.1)

def evictExpired (ttl : Nat) (s : Shelf G V) (now : Nat) : Shelf G V × Nat :=
  (⟨s.store.eraseAll (s.expired ttl now), s.index.filter fun e => now - e.2 ≤ ttl⟩, (s.expired ttl now).length)

def rehydrate (s : Shelf G V) (order : List G) (now : Nat) : Shelf G V :=
  let keys := order.filter (fun g => (s.store.lookup g).isSome) ++ s.store.toList.map (·.1)
  ⟨s.store, keys.foldl (fun index g => note index g now) s.index⟩

variable {cap ttl now : Nat} {s : Shelf G V} {g g' : G} {v : V}

/-! ## What each operation does to the store -/

theorem lookup_trim (store : Table G V) (index : List (G × Nat)) :
    (trim cap store index).1.store.lookup g =
      if g ∈ (index.take (index.length - cap)).map (·.1) then none else store.lookup g := by
  induction index generalizing store with
  | nil => simp [trim]
  | cons e index ih =>
    unfold trim
    split
    · next hlt =>
      have hcount : (e :: index).length - cap = index.length - cap + 1 := by
        simp only [List.length_cons] at hlt ⊢
        omega
      dsimp only
      rw [ih, hcount, List.take_succ_cons, List.map_cons, Table.lookup_erase_eq]
      by_cases hg : g = e.1
      · simp [hg]
      · simp [hg]
    · next hle =>
      rw [Nat.sub_eq_zero_of_le (Nat.not_lt.mp hle), List.take_zero, List.map_nil, if_neg List.not_mem_nil]

theorem index_trim (store : Table G V) (index : List (G × Nat)) :
    (trim cap store index).1.index = index.drop (index.length - cap) := by
  induction index generalizing store with
  | nil => rw [List.drop_nil, trim]
  | cons e index ih =>
    unfold trim
    split
    · next hlt =>
      have hcount : (e :: index).length - cap = index.length - cap + 1 := by
        simp only [List.length_cons] at hlt ⊢
        omega
      dsimp only
      rw [ih, hcount, List.drop_succ_cons]
    · next hle =>
      rw [Nat.sub_eq_zero_of_le (Nat.not_lt.mp hle), List.drop_zero]

/-- The keys that a new arrival pushes over the capacity. -/
def overflow (cap : Nat) (s : Shelf G V) (g : G) (now : Nat) : List G :=
  ((note s.index g now).take ((note s.index g now).length - cap)).map (·.1)

theorem lookup_put : (s.put cap g v now).1.store.lookup g' =
    if g' ∈ s.overflow cap g now then none else if g' = g then some v else s.store.lookup g' := by
  rw [put, lookup_trim, Table.lookup_insert_eq]
  rfl

theorem lookup_ack : (s.ack g).store.lookup g' = if g' = g then none else s.store.lookup g' := by
  rw [ack, Table.lookup_erase_eq]

theorem lookup_evictExpired : (s.evictExpired ttl now).1.store.lookup g =
    if g ∈ s.expired ttl now then none else s.store.lookup g := by
  rw [evictExpired, Table.lookup_eraseAll]

theorem length_note_le (index : List (G × Nat)) : (note index g now).length ≤ index.length + 1 := by
  unfold note
  split
  · exact Nat.le_succ _
  · rw [List.length_append, List.length_singleton]

variable {index : List (G × Nat)}

theorem mem_note : g' ∈ (note index g now).map (·.1) ↔ g' ∈ index.map (·.1) ∨ g' = g := by
  unfold note
  split
  · next hany =>
    obtain ⟨e, he, heq⟩ := List.any_eq_true.mp hany
    refine ⟨.inl, fun h => h.elim id fun hg => ?_⟩
    rw [hg, ← of_decide_eq_true heq]
    exact List.mem_map_of_mem he
  · rw [List.map_append, List.mem_append, List.map_singleton, List.mem_singleton]

theorem note_of_not_mem (h : g ∉ index.map (·.1)) : note index g now = index ++ [(g, now)] := by
  rw [note, if_neg]
  intro hany
  obtain ⟨e, he, heq⟩ := List.any_eq_true.mp hany
  exact h (of_decide_eq_true heq ▸ List.mem_map_of_mem he)

theorem nodup_note (h : (index.map (·.1)).Nodup) : ((note index g now).map (·.1)).Nodup := by
  by_cases hmem : g ∈ index.map (·.1)
  · rw [note, if_pos]
    · exact h
    · obtain ⟨e, he, heq⟩ := List.mem_map.mp hmem
      exact List.any_eq_true.mpr ⟨e, he, decide_eq_true heq⟩
  · rw [note_of_not_mem hmem, List.map_append]
    exact List.Nodup.append h (List.nodup_singleton g) (by simpa using hmem)

/-! ## The store and the index agree -/

/-- The index has the keys of the store, each once. -/
structure Agrees (s : Shelf G V) : Prop where
  nodup : (s.index.map (·.1)).Nodup
  mem_iff : ∀ g, g ∈ s.index.map (·.1) ↔ s.store.lookup g ≠ none

theorem Agrees.new : (new : Shelf G V).Agrees := ⟨List.nodup_nil, fun g => by simp [Shelf.new]⟩

theorem Agrees.put (h : s.Agrees) : (s.put cap g v now).1.Agrees := by
  have hindex : (s.put cap g v now).1.index = (note s.index g now).drop ((note s.index g now).length - cap) :=
    index_trim _ _
  have hnodup : ((note s.index g now).map (·.1)).Nodup := nodup_note h.nodup
  have hsplit := List.take_append_drop ((note s.index g now).length - cap) (note s.index g now)
  rw [← hsplit, List.map_append, List.nodup_append] at hnodup
  refine ⟨by rw [hindex]; exact hnodup.2.1, fun g' => ?_⟩
  have hmem : g' ∈ (note s.index g now).map (·.1) ↔ g' ∈ s.overflow cap g now ∨
      g' ∈ ((note s.index g now).drop ((note s.index g now).length - cap)).map (·.1) := by
    rw [overflow, ← List.mem_append, ← List.map_append, hsplit]
  rw [hindex, lookup_put]
  by_cases hover : g' ∈ s.overflow cap g now
  · -- a key that goes is not also one that stays
    simp only [if_pos hover, ne_eq, not_true_eq_false, iff_false]
    exact fun hstay => hnodup.2.2 g' hover g' hstay rfl
  · rw [if_neg hover]
    have hstay := hmem.trans (or_iff_right hover)
    rw [← hstay, mem_note, h.mem_iff]
    split
    · next heq => simp [heq]
    · next hne => simp [hne]

theorem index_put_of_le (h : (note s.index g now).length ≤ cap) : (s.put cap g v now).1.index = note s.index g now := by
  rw [put, index_trim, Nat.sub_eq_zero_of_le h, List.drop_zero]

end Shelf
end Talkrypt
