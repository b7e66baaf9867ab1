import Mathlib.Tactic

/-!
# Lists split by an optional key

`loners` are the elements without a key, `cluster l b` those with key `b`, and `clusterKeys l` the keys in
use. Together they make up the list (`split_perm`), so a sum in which every cluster counts with a sign of its
own is a sum over the elements (`sum_clusters`).
-/

namespace Talkrypt

universe u v
variable {α : Type u} {β : Type v} [DecidableEq β] (key : α → Option β)

def loners (l : List α) : List α := l.filter fun a => key a = none

def cluster (l : List α) (b : β) : List α := l.filter fun a => key a = some b

def clusterKeys (l : List α) : List β := (l.filterMap key).dedup

/-- The element has a key and is not the only one with it. -/
def Crowded (l : List α) (a : α) : Prop := ∃ b, key a = some b ∧ 2 ≤ (cluster key l b).length

variable {key} {l l' : List α} {a : α} {b : β}

theorem mem_cluster : a ∈ cluster key l b ↔ a ∈ l ∧ key a = some b := by
  rw [cluster, List.mem_filter, decide_eq_true_eq]

theorem mem_clusterKeys : b ∈ clusterKeys key l ↔ ∃ a ∈ l, key a = some b := by
  rw [clusterKeys, List.mem_dedup, List.mem_filterMap]

theorem crowded_of_key (h : key a = some b) : Crowded key l a ↔ 2 ≤ (cluster key l b).length := by
  refine ⟨fun ⟨c, hc, hlen⟩ => ?_, fun hlen => ⟨b, h, hlen⟩⟩
  rw [h] at hc
  cases hc
  exact hlen

theorem not_crowded_of_none (h : key a = none) : ¬ Crowded key l a := fun ⟨b, hb, _⟩ => by
  rw [h] at hb
  cases hb

instance (l : List α) (a : α) : Decidable (Crowded key l a) :=
  match h : key a with
  | none => isFalse (not_crowded_of_none h)
  | some _ => decidable_of_iff _ (crowded_of_key h).symm

theorem cluster_perm (h : l.Perm l') (b : β) : (cluster key l b).Perm (cluster key l' b) := h.filter _

theorem crowded_perm (h : l.Perm l') : Crowded key l a ↔ Crowded key l' a := by
  constructor
  · rintro ⟨b, hb, hlen⟩
    exact ⟨b, hb, (cluster_perm h b).length_eq ▸ hlen⟩
  · rintro ⟨b, hb, hlen⟩
    exact ⟨b, hb, (cluster_perm h b).length_eq ▸ hlen⟩

theorem clusterKeys_perm (h : l.Perm l') : (clusterKeys key l).Perm (clusterKeys key l') :=
  (h.filterMap key).dedup

/-! ## Other lists with the same clusters -/

section
variable {ι : Type*} {γ : Type*} [DecidableEq γ] {key' : α → Option γ} {φ : β → γ}

theorem cluster_map (key : α → Option β) (f : ι → α) (l : List ι) (b : β) :
    cluster key (l.map f) b = (cluster (key ∘ f) l b).map f := List.filter_map

theorem clusterKeys_map (key : α → Option β) (f : ι → α) (l : List ι) :
    clusterKeys key (l.map f) = clusterKeys (key ∘ f) l := by
  rw [clusterKeys, List.filterMap_map, clusterKeys]

theorem crowded_map (key : α → Option β) (f : ι → α) (l : List ι) (i : ι) :
    Crowded key (l.map f) (f i) ↔ Crowded (key ∘ f) l i := by
  simp only [Crowded, cluster_map, List.length_map, Function.comp_apply]

theorem cluster_rename (hφ : Function.Injective φ) (h : ∀ a ∈ l, key' a = (key a).map φ) (b : β) :
    cluster key' l (φ b) = cluster key l b := by
  refine List.filter_congr fun a ha => ?_
  rw [h a ha]
  cases key a with
  | none => simp
  | some c => simp [hφ.eq_iff]

theorem clusterKeys_rename (hφ : Function.Injective φ) (h : ∀ a ∈ l, key' a = (key a).map φ) :
    clusterKeys key' l = (clusterKeys key l).map φ := by
  have hkeys : l.filterMap key' = (l.filterMap key).map φ := by
    rw [List.map_filterMap]
    exact List.filterMap_congr h
  rw [clusterKeys, hkeys, List.dedup_map_of_injective hφ, clusterKeys]

theorem crowded_rename (hφ : Function.Injective φ) (h : ∀ a ∈ l, key' a = (key a).map φ) (ha : a ∈ l) :
    Crowded key' l a ↔ Crowded key l a := by
  cases hkey : key a with
  | none =>
    have hkey' : key' a = none := by rw [h a ha, hkey, Option.map_none]
    exact iff_of_false (not_crowded_of_none hkey') (not_crowded_of_none hkey)
  | some b =>
    have hkey' : key' a = some (φ b) := by rw [h a ha, hkey, Option.map_some]
    rw [crowded_of_key hkey', crowded_of_key hkey, cluster_rename hφ h]

end

variable (key) in
theorem split_perm (l : List α) :
    (loners key l ++ (clusterKeys key l).flatMap (cluster key l)).Perm l := by
  classical
  rw [List.perm_iff_count]
  intro a
  rw [List.count_append, List.count_flatMap]
  cases h : key a with
  | none =>
    have hloner : List.count a (loners key l) = List.count a l := List.count_filter (by simp [h])
    have hzero : ∀ c ∈ (clusterKeys key l).map (List.count a ∘ cluster key l), c = 0 := by
      intro c hc
      obtain ⟨b, -, rfl⟩ := List.mem_map.mp hc
      exact List.count_eq_zero.mpr fun hmem => by simp [mem_cluster, h] at hmem
    rw [hloner, List.sum_eq_zero hzero, Nat.add_zero]
  | some b =>
    have hloner : List.count a (loners key l) = 0 :=
      List.count_eq_zero.mpr fun hmem => by simp [loners, h] at hmem
    have hother : ∀ c, c ≠ b → List.count a (cluster key l c) = 0 := fun c hc =>
      List.count_eq_zero.mpr fun hmem => by
        rw [mem_cluster, h, Option.some.injEq] at hmem
        exact hc hmem.2.symm
    have hown : List.count a (cluster key l b) = List.count a l := List.count_filter (by simp [h])
    rw [hloner, Nat.zero_add]
    by_cases hb : b ∈ clusterKeys key l
    · have hsum := List.sum_map_eq_nsmul_single b (l := clusterKeys key l) (List.count a ∘ cluster key l)
        fun c hc _ => hother c hc
      have hone : List.count b (clusterKeys key l) = 1 := List.count_eq_one_of_mem (List.nodup_dedup _) hb
      rw [hsum, hone, one_smul]
      exact hown
    · have hnot : a ∉ l := fun hmem => hb (mem_clusterKeys.mpr ⟨a, hmem, h⟩)
      rw [List.count_eq_zero.mpr hnot]
      refine List.sum_eq_zero fun c hc => ?_
      obtain ⟨d, hd, rfl⟩ := List.mem_map.mp hc
      exact hother d fun heq => hb (heq ▸ hd)

theorem sum_clusters (f : α → ℤ) (l : List α) :
    ((loners key l).map f).sum + ((clusterKeys key l).map fun b =>
      if 2 ≤ (cluster key l b).length then -((cluster key l b).map f).sum else ((cluster key l b).map f).sum).sum =
    (l.map fun a => if Crowded key l a then -f a else f a).sum := by
  rw [← ((split_perm key l).map _).sum_eq, List.map_append, List.sum_append, List.flatMap_def,
    List.map_flatten, List.sum_flatten, List.map_map, List.map_map]
  congr 1
  · refine congrArg List.sum (List.map_congr_left fun a ha => ?_)
    rw [if_neg (not_crowded_of_none (by simpa [loners] using (List.mem_filter.mp ha).2))]
  · refine congrArg List.sum (List.map_congr_left fun b _ => ?_)
    dsimp only [Function.comp]
    split
    · next hlen =>
      rw [List.sum_neg, List.map_map]
      refine congrArg List.sum (List.map_congr_left fun a ha => ?_)
      rw [if_pos ((crowded_of_key (mem_cluster.mp ha).2).mpr hlen), Function.comp_apply]
    · next hlen =>
      refine congrArg List.sum (List.map_congr_left fun a ha => ?_)
      rw [if_neg (mt (crowded_of_key (mem_cluster.mp ha).2).mp hlen)]

end Talkrypt
