import Talkrypt.Lib.Run
import Talkrypt.Core.Promote

/-!
# The gossip dedup set (`SeenSet` of `crates/core/src/engine.rs`)

A queue of the remembered ids and a set of its elements. An id is not forgotten before the capacity of
other ids has come in after it (`SeenSet.Wf.mem_insertAll`), and it is refused exactly while it is among the last new
ones (`SeenSet.window`).
-/

namespace Talkrypt.Core

structure SeenSet where
  order : List Gid
  set : Finset Gid
deriving DecidableEq

namespace SeenSet

def CAP : Nat := 4096

def new : SeenSet := ⟨[], ∅⟩

def insert (s : SeenSet) (id : Gid) : SeenSet × Bool :=
  if id ∈ s.set then (s, false)
  else
    let order := s.order ++ [id]
    let set := Insert.insert id s.set
    if order.length > CAP then
      match order with
      | [] => (⟨order, set⟩, true)
      | old :: order => (⟨order, set.erase old⟩, true)
    else (⟨order, set⟩, true)

def insertAll (s : SeenSet) (ids : List Gid) : SeenSet := ids.foldl (fun s id => (s.insert id).1) s

/-- The set holds what is in the queue, once each, up to the capacity. -/
structure Wf (s : SeenSet) : Prop where
  nodup : s.order.Nodup
  length : s.order.length ≤ CAP
  set : s.set = s.order.toFinset

namespace Wf

theorem new : SeenSet.new.Wf := ⟨List.nodup_nil, Nat.zero_le _, rfl⟩

variable {s : SeenSet} {id : Gid}

theorem mem_set (h : s.Wf) : id ∈ s.set ↔ id ∈ s.order := by rw [h.set, List.mem_toFinset]

end Wf

variable {s : SeenSet} {id : Gid}

theorem insert_of_mem (h : id ∈ s.set) : s.insert id = (s, false) := if_pos h

theorem insert_snd_of_not_mem (h : id ∉ s.set) : (s.insert id).2 = true := by
  rw [insert, if_neg h]
  dsimp only
  split
  · split <;> rfl
  · rfl

theorem Wf.insert_of_not_mem (hs : s.Wf) (h : id ∉ s.set) :
    (s.insert id).2 = true ∧ (s.insert id).1.Wf ∧
      (s.insert id).1.order = (s.order ++ [id]).drop (s.order.length + 1 - CAP) := by
  have hid : id ∉ s.order := fun hmem => h (hs.mem_set.mpr hmem)
  have hnodup : (s.order ++ [id]).Nodup :=
    hs.nodup.append (List.nodup_singleton id) (by simpa using hid)
  have hset : Insert.insert id s.set = (s.order ++ [id]).toFinset := by
    rw [hs.set]
    ext x
    simp
  have hlen : (s.order ++ [id]).length = s.order.length + 1 := List.length_append
  rw [insert, if_neg h]
  dsimp only
  split
  · next hfull =>
    have hcap : s.order.length + 1 - CAP = 1 := by
      have := hs.length
      omega
    rw [hcap, hset]
    generalize hq : s.order ++ [id] = q at *
    cases q with
    | nil => simp at hq
    | cons old order =>
      simp only [List.length_cons] at hlen
      have hnodup := List.nodup_cons.mp hnodup
      refine ⟨rfl, ⟨hnodup.2, by have := hs.length; dsimp only; omega, ?_⟩, rfl⟩
      ext x
      simp only [List.toFinset_cons, Finset.mem_erase, Finset.mem_insert, List.mem_toFinset]
      constructor
      · rintro ⟨hne, rfl | hx⟩
        · exact absurd rfl hne
        · exact hx
      · intro hx
        exact ⟨fun heq => hnodup.1 (heq ▸ hx), .inr hx⟩
  · next hroom =>
    have hdrop : s.order.length + 1 - CAP = 0 := by omega
    rw [hdrop, hset]
    exact ⟨rfl, ⟨hnodup, by dsimp only; omega, rfl⟩, rfl⟩

theorem Wf.mem_insertAll (hs : s.Wf) {pre post ids : List Gid} (horder : s.order = pre ++ id :: post)
    (hroom : post.length + ids.length < CAP) : id ∈ (s.insertAll ids).set := by
  induction ids generalizing s pre post with
  | nil =>
    rw [insertAll, List.foldl_nil, hs.mem_set, horder]
    simp
  | cons x ids ih =>
    rw [List.length_cons] at hroom
    by_cases hx : x ∈ s.set
    · have hsame : s.insertAll (x :: ids) = s.insertAll ids := by
        rw [insertAll, List.foldl_cons, insert_of_mem hx]
        rfl
      rw [hsame]
      exact ih hs horder (by omega)
    · obtain ⟨-, hwf, hnew⟩ := hs.insert_of_not_mem hx
      have hlen := hs.length
      rw [horder, List.length_append, List.length_cons] at hlen hnew
      have hkeep : ((pre ++ id :: post) ++ [x]).drop (pre.length + (post.length + 1) + 1 - CAP) =
          pre.drop (pre.length + (post.length + 1) + 1 - CAP) ++ id :: (post ++ [x]) := by
        rw [List.append_assoc, List.drop_append_of_le_length (by omega)]
        rfl
      exact ih hwf (hnew.trans hkeep) (by rw [List.length_append, List.length_singleton]; omega)

/-- Those of the ids that an insertion finds new, oldest first. -/
def fresh (s : SeenSet) : List Gid → List Gid
  | [] => []
  | id :: ids => if (s.insert id).2 then id :: fresh (s.insert id).1 ids else fresh (s.insert id).1 ids

theorem insert_snd_eq_false (h : s.Wf) : (s.insert id).2 = false ↔ id ∈ s.order := by
  rw [← h.mem_set]
  by_cases hid : id ∈ s.set
  · simp [insert_of_mem hid, hid]
  · simp [insert_snd_of_not_mem hid, hid]

theorem Wf.order_insertAll (h : s.Wf) (ids : List Gid) :
    (s.insertAll ids).Wf ∧ (s.insertAll ids).order = (s.order ++ s.fresh ids).rtake CAP := by
  induction ids generalizing s with
  | nil =>
    refine ⟨h, ?_⟩
    rw [fresh.eq_def, List.append_nil, List.rtake, Nat.sub_eq_zero_of_le h.length]
    rfl
  | cons id ids ih =>
    rw [insertAll, List.foldl_cons, fresh.eq_def]
    dsimp only
    by_cases hid : id ∈ s.set
    · rw [insert_of_mem hid]
      exact ih h
    · obtain ⟨htrue, hwf, horder⟩ := h.insert_of_not_mem hid
      obtain ⟨hwf', horder'⟩ := ih hwf
      refine ⟨hwf', horder'.trans ?_⟩
      have hqueue : (s.order ++ [id]).drop (s.order.length + 1 - CAP) = (s.order ++ [id]).rtake CAP := by
        rw [List.rtake, List.length_append, List.length_singleton]
      rw [if_pos htrue, horder, hqueue, rtake_append, ← List.append_cons]

/-- The dedup set is a window over the history of new ids: after any inserts the set is the content of the queue, the
queue holds each id once and no more than its capacity, and an id is refused exactly if it is among the last ids, as
many as the capacity, that were new. -/
theorem window (ids : List Gid) (id : Gid) :
    let s := new.insertAll ids
    s.set = s.order.toFinset ∧ s.order.Nodup ∧ s.order.length ≤ CAP ∧
      ((s.insert id).2 = false ↔ id ∈ (new.fresh ids).dedup.rtake CAP) := by
  obtain ⟨hwf, horder⟩ := Wf.new.order_insertAll ids
  refine ⟨hwf.set, hwf.nodup, hwf.length, (insert_snd_eq_false hwf).trans ?_⟩
  have hnodup := hwf.nodup
  rw [horder, show (new.order ++ new.fresh ids) = new.fresh ids from rfl] at hnodup ⊢
  rw [rtake_dedup hnodup]

end SeenSet
end Talkrypt.Core
