import Mathlib.Data.List.AList
import Mathlib.Tactic

/-! Finite maps, in the role of Rust's `HashMap`. Two tables are compared by what they map each key
to (`Table.Same`), as the order in which a hash map is iterated is not observable there. `insertAll`
is a loop of `insert`s (also `collect`, from the empty table), where the last value for a key wins. -/

namespace Talkrypt

abbrev Table (K V : Type) := AList fun _ : K => V

namespace Table
variable {K V : Type} [DecidableEq K] {m m' : Table K V} {kvs : List (K × V)} {ks : List K} {k k' : K}
  {v : V}

def insertAll (m : Table K V) (kvs : List (K × V)) : Table K V :=
  kvs.foldl (fun m kv => m.insert kv.1 kv.2) m

def eraseAll (m : Table K V) (ks : List K) : Table K V := ks.foldl (fun m k => m.erase k) m

def toList (m : Table K V) : List (K × V) := m.entries.map fun e => (e.1, e.2)

def lastOf : List (K × V) → K → Option V
  | [], _ => none
  | (k', v) :: kvs, k => (lastOf kvs k).or (if k' = k then some v else none)

theorem lookup_insert_eq (m : Table K V) (k : K) (v : V) (k' : K) :
    (m.insert k v).lookup k' = if k' = k then some v else m.lookup k' := by
  split
  · next h => rw [h, AList.lookup_insert]
  · next h => rw [AList.lookup_insert_ne h]

theorem lookup_erase_eq (m : Table K V) (k k' : K) :
    (m.erase k).lookup k' = if k' = k then none else m.lookup k' := by
  split
  · next h => rw [h, AList.lookup_erase]
  · next h => rw [AList.lookup_erase_ne h]

@[simp] theorem insertAll_cons : insertAll m ((k, v) :: kvs) = insertAll (m.insert k v) kvs := rfl

@[simp] theorem lookup_insertAll (m : Table K V) (kvs : List (K × V)) (k : K) :
    (insertAll m kvs).lookup k = (lastOf kvs k).or (m.lookup k) := by
  induction kvs generalizing m with
  | nil => rfl
  | cons kv kvs ih =>
    rw [insertAll_cons, ih, lastOf, lookup_insert_eq, Option.or_assoc]
    congr 1
    split <;> simp_all [eq_comm]

@[simp] theorem lookup_eraseAll (m : Table K V) (ks : List K) (k : K) :
    (eraseAll m ks).lookup k = if k ∈ ks then none else m.lookup k := by
  induction ks generalizing m with
  | nil => simp [eraseAll]
  | cons k' ks ih =>
    have hcons : eraseAll m (k' :: ks) = eraseAll (m.erase k') ks := rfl
    rw [hcons, ih, lookup_erase_eq]
    by_cases hk : k = k' <;> by_cases hks : k ∈ ks <;> simp [hk, hks]

theorem lastOf_eq_none : lastOf kvs k = none ↔ ∀ v, (k, v) ∉ kvs := by
  induction kvs with
  | nil => simp [lastOf]
  | cons kv kvs ih =>
    obtain ⟨k', w⟩ := kv
    by_cases h : k' = k
    · exact iff_of_false (by simp [lastOf, h]) fun hall => hall w (by simp [h])
    · simp [lastOf, h, ih, Ne.symm h]

theorem lastOf_append (kvs kvs' : List (K × V)) (k : K) : lastOf (kvs ++ kvs') k = (lastOf kvs' k).or (lastOf kvs k) := by
  induction kvs with
  | nil => exact Option.or_none.symm
  | cons kv kvs ih => rw [List.cons_append, lastOf, ih, Option.or_assoc, lastOf]

theorem lastOf_map_const (ks : List K) (v : V) (k : K) :
    lastOf (ks.map fun k' => (k', v)) k = if k ∈ ks then some v else none := by
  induction ks with
  | nil => rfl
  | cons k' ks ih =>
    rw [List.map_cons, lastOf, ih]
    by_cases hmem : k ∈ ks
    · rw [if_pos hmem, if_pos (List.mem_cons_of_mem _ hmem), Option.some_or]
    · rw [if_neg hmem, Option.none_or]
      simp only [List.mem_cons, hmem, or_false, eq_comm]

theorem isSome_lastOf : (lastOf kvs k).isSome ↔ k ∈ kvs.map Prod.fst := by
  rw [← not_iff_not, Bool.not_eq_true, Option.isSome_eq_false_iff, Option.isNone_iff_eq_none,
    lastOf_eq_none]
  simp

theorem mem_of_lastOf (h : lastOf kvs k = some v) : (k, v) ∈ kvs := by
  induction kvs with
  | nil => cases h
  | cons kv kvs ih =>
    obtain ⟨k', w⟩ := kv
    rw [lastOf, Option.or_eq_some_iff] at h
    rcases h with h | ⟨-, h⟩
    · exact List.mem_cons_of_mem _ (ih h)
    · split at h
      · next hk => cases h; rw [hk]; exact List.mem_cons_self
      · cases h

theorem lastOf_eq_some (hnd : (kvs.map Prod.fst).Nodup) (h : (k, v) ∈ kvs) : lastOf kvs k = some v := by
  induction kvs with
  | nil => cases h
  | cons kv kvs ih =>
    obtain ⟨k', w⟩ := kv
    simp only [List.map_cons, List.nodup_cons] at hnd
    rcases List.mem_cons.mp h with heq | hmem
    · cases heq
      have hnone : lastOf kvs k = none :=
        lastOf_eq_none.mpr fun v hv => hnd.1 (List.mem_map_of_mem hv)
      simp [lastOf, hnone]
    · simp [lastOf, ih hnd.2 hmem]

theorem mem_toList : (k, v) ∈ m.toList ↔ m.lookup k = some v := by
  rw [← Option.mem_def, AList.mem_lookup_iff, toList, List.mem_map]
  constructor
  · rintro ⟨⟨k', v'⟩, he, heq⟩
    cases heq
    exact he
  · intro h
    exact ⟨⟨k, v⟩, h, rfl⟩

omit [DecidableEq K] in
theorem nodup_toList (m : Table K V) : (m.toList.map Prod.fst).Nodup := by
  have h := m.nodupKeys
  rwa [List.NodupKeys, List.keys, show m.entries.map Sigma.fst = m.toList.map Prod.fst by
    simp [toList, Function.comp_def]] at h

@[simp] theorem lastOf_toList (m : Table K V) (k : K) : lastOf m.toList k = m.lookup k := by
  cases h : m.lookup k with
  | none => exact lastOf_eq_none.mpr fun v hv => by simp [mem_toList.mp hv] at h
  | some v => exact lastOf_eq_some m.nodup_toList (mem_toList.mpr h)

theorem mem_map_fst_toList : k ∈ m.toList.map Prod.fst ↔ m.lookup k ≠ none := by
  rw [Option.ne_none_iff_exists', List.mem_map]
  constructor
  · rintro ⟨⟨k', v⟩, he, rfl⟩
    exact ⟨v, mem_toList.mp he⟩
  · rintro ⟨v, hv⟩
    exact ⟨(k, v), mem_toList.mpr hv, rfl⟩

theorem length_insert_le (m : Table K V) (k : K) (v : V) :
    (Table.toList (m.insert k v)).length ≤ m.toList.length + 1 := by
  simp only [toList, List.length_map, AList.entries_insert, List.length_cons]
  exact Nat.succ_le_succ (List.kerase_sublist k m.entries).length_le

theorem length_insert_of_lookup_eq_none (h : m.lookup k = none) :
    (Table.toList (m.insert k v)).length = m.toList.length + 1 := by
  simp only [toList, List.length_map, AList.entries_insert_of_notMem (AList.lookup_eq_none.mp h), List.length_cons]

theorem length_toList_lt (hsub : ∀ k, m'.lookup k ≠ none → m.lookup k ≠ none) (hk : m.lookup k ≠ none)
    (hk' : m'.lookup k = none) : m'.toList.length < m.toList.length := by
  have hnodup : (k :: m'.toList.map Prod.fst).Nodup :=
    List.nodup_cons.mpr ⟨fun h => mem_map_fst_toList.mp h hk', m'.nodup_toList⟩
  have hsubset : k :: m'.toList.map Prod.fst ⊆ m.toList.map Prod.fst :=
    List.cons_subset.mpr ⟨mem_map_fst_toList.mpr hk,
      fun k' h => mem_map_fst_toList.mpr (hsub k' (mem_map_fst_toList.mp h))⟩
  have hle := (List.subperm_of_subset hnodup hsubset).length_le
  simpa using hle

def total (f : V → Nat) (m : Table K V) : Nat := (m.toList.map fun kv => f kv.2).sum

theorem erase_of_lookup_eq_none (h : m.lookup k = none) : m.erase k = m :=
  AList.ext (List.kerase_of_notMem_keys (AList.lookup_eq_none.mp h))

theorem total_insert (f : V → Nat) (m : Table K V) (k : K) (v : V) :
    total f (m.insert k v) = f v + total f (m.erase k) := by
  simp only [total, toList, AList.entries_insert, List.map_cons, List.sum_cons]
  rfl

theorem total_erase (f : V → Nat) (h : m.lookup k = some v) : total f (m.erase k) + f v = total f m := by
  have hmem : k ∈ m.entries.keys := AList.mem_keys.mp (AList.lookup_isSome.mp (by rw [h]; rfl))
  obtain ⟨v', front, back, -, hsplit, herase⟩ := List.exists_of_kerase hmem
  have hv : m.lookup k = some v' := AList.mem_lookup_iff.mpr (by rw [hsplit]; simp)
  obtain rfl : v = v' := Option.some.inj (h.symm.trans hv)
  have hentries : (m.erase k).entries = front ++ back := herase
  simp only [total, toList, hentries, hsplit, List.map_append, List.map_cons, List.sum_append, List.sum_cons]
  omega

omit [DecidableEq K] in
theorem length_toList_eq_total (m : Table K V) : m.toList.length = total (fun _ => 1) m := by
  simp [total]

/-! ## Tables with the same content -/

def Same (m m' : Table K V) : Prop := ∀ k, m.lookup k = m'.lookup k

namespace Same

theorem refl (m : Table K V) : Same m m := fun _ => rfl

theorem trans {m'' : Table K V} (h : Same m m') (h' : Same m' m'') : Same m m'' :=
  fun k => (h k).trans (h' k)

theorem insert (h : Same m m') (k : K) (v : V) : Same (m.insert k v) (m'.insert k v) := fun k' => by
  rw [lookup_insert_eq, lookup_insert_eq, h k']

theorem erase (h : Same m m') (k : K) : Same (m.erase k) (m'.erase k) := fun k' => by
  rw [lookup_erase_eq, lookup_erase_eq, h k']

theorem insertAll (h : Same m m') (kvs : List (K × V)) :
    Same (m.insertAll kvs) (m'.insertAll kvs) := fun k => by
  rw [lookup_insertAll, lookup_insertAll, h k]

theorem eraseAll (h : Same m m') (ks : List K) : Same (m.eraseAll ks) (m'.eraseAll ks) := fun k => by
  rw [lookup_eraseAll, lookup_eraseAll, h k]

theorem collect_toList (m : Table K V) : Same (Table.insertAll ∅ m.toList) m := fun k => by
  rw [lookup_insertAll, lastOf_toList, AList.lookup_empty, Option.or_none]

end Same

theorem exists_last (h : m.lookup k = some v) : ∃ (m' : Table K V) (es : List (K × V)), Same m m' ∧ m'.toList = es ++ [(k, v)] := by
  obtain ⟨front, back, hsplit⟩ := List.append_of_mem (AList.mem_lookup_iff.mp h)
  have hperm : m.entries.Perm (front ++ back ++ [⟨k, v⟩]) := by
    rw [hsplit, List.append_assoc]
    exact (List.perm_append_left_iff front).mpr (List.perm_append_singleton ..).symm
  let m' : Table K V := ⟨front ++ back ++ [⟨k, v⟩], (List.perm_nodupKeys hperm).mp m.nodupKeys⟩
  refine ⟨m', (front ++ back).map fun e => (e.1, e.2), fun k' => AList.perm_lookup hperm, ?_⟩
  exact List.map_append ..

end Table
end Talkrypt
