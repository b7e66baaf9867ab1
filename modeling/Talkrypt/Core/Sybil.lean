import Talkrypt.Lib.Ties
import Talkrypt.Core.Names
import Talkrypt.Core.VouchLedger

/-!
# The number of people in a chat (`sybil_estimate` in `crates/core/src/engine.rs`)

A viewer that wants to know how many people are behind the participants of a chat counts the accounts that were
presented, the groupings that were proven, and the bare names that are in no grouping. The count is meant as a lower
bound on the classes of participants that the evidence does not link to each other. It is one exactly if no
participant has evidence of two kinds, or is in two groupings (`minDistinctPeople_le_people_iff`).
-/

namespace Talkrypt.Core
open TreeKem (Scheme)

structure SybilCount where
  distinctAccounts : Nat
  distinctGroupings : Nat
  isolated : Nat
  minDistinctPeople : Nat
deriving DecidableEq

def Ledger.Proven (l : Ledger) : Prop :=
  ∀ groupingPub leaves, l.groupingsSeen.lookup groupingPub = some leaves → leaves ≠ []

/-- The fields of the engine that the estimate reads. -/
structure Census where
  cache : NameCache
  ledger : Ledger
  proven : ledger.Proven

namespace Census

/-! ## The estimate -/

def grouped (c : Census) : Finset Fingerprint := (c.ledger.groupingsSeen.toList.flatMap Prod.snd).toFinset

/-- The loop over the names: the accounts so far, and the bare names in no grouping. -/
def tally (grouped : Finset Fingerprint) : List (Fingerprint × NameRecord) → Finset Fingerprint × Nat → Finset Fingerprint × Nat
  | [], acc => acc
  | (fp, rec) :: names, (accounts, isolated) =>
    match rec.accountFp with
    | some a => tally grouped names (insert a accounts, isolated)
    | none => tally grouped names (accounts, if fp ∉ grouped then isolated + 1 else isolated)

def sybilEstimate (c : Census) : SybilCount :=
  let (accounts, isolated) := tally c.grouped c.cache.names.toList (∅, 0)
  let distinctAccounts := accounts.card
  let distinctGroupings := c.ledger.groupingsSeen.toList.length
  { distinctAccounts, distinctGroupings, isolated
    minDistinctPeople := distinctAccounts + distinctGroupings + isolated }

/-! ## The evidence -/

/-- The participants that announced a name or proved a grouping. -/
def participants (c : Census) : Finset Fingerprint := (c.cache.names.toList.map Prod.fst).toFinset ∪ c.grouped

def Participant (c : Census) : Type := { fp // fp ∈ c.participants }

def Presents (c : Census) (fp account : Fingerprint) : Prop :=
  ∃ rec, c.cache.names.lookup fp = some rec ∧ rec.accountFp = some account

/-- The participant has proven that it is in the grouping. -/
def Belongs (c : Census) (fp : Fingerprint) (groupingPub : Bytes) : Prop :=
  ∃ leaves, c.ledger.groupingsSeen.lookup groupingPub = some leaves ∧ fp ∈ leaves

/-- The two presented one account, or are in one grouping. -/
def Linked (c : Census) (a b : c.Participant) : Prop :=
  (∃ account, c.Presents a.1 account ∧ c.Presents b.1 account) ∨ ∃ groupingPub, c.Belongs a.1 groupingPub ∧ c.Belongs b.1 groupingPub

/-- The number of classes of the equivalence relation that `Linked` generates. -/
noncomputable def people (c : Census) : Nat := Nat.card (Quot c.Linked)

/-- No participant is in two groupings, or in a grouping with an account. -/
structure Apart (c : Census) : Prop where
  groupings : ∀ fp groupingPub groupingPub', c.Belongs fp groupingPub → c.Belongs fp groupingPub' → groupingPub = groupingPub'
  accounts : ∀ fp account groupingPub, c.Presents fp account → ¬ c.Belongs fp groupingPub

/-! ## The count -/

def accounts (c : Census) : Finset Fingerprint := (c.cache.names.toList.filterMap (·.2.accountFp)).toFinset

def groupings (c : Census) : Finset Bytes := (c.ledger.groupingsSeen.toList.map Prod.fst).toFinset

def alone (c : Census) : List (Fingerprint × NameRecord) :=
  c.cache.names.toList.filter fun e => e.2.accountFp = none ∧ e.1 ∉ c.grouped

theorem tally_eq (grouped : Finset Fingerprint) (names : List (Fingerprint × NameRecord)) (accounts : Finset Fingerprint) (isolated : Nat) :
    tally grouped names (accounts, isolated) =
      (accounts ∪ (names.filterMap (·.2.accountFp)).toFinset,
        isolated + (names.filter fun e => e.2.accountFp = none ∧ e.1 ∉ grouped).length) := by
  induction names generalizing accounts isolated with
  | nil => simp [tally]
  | cons e names ih =>
    obtain ⟨fp, rec⟩ := e
    cases hacc : rec.accountFp with
    | some a =>
      rw [tally, hacc]
      dsimp only
      rw [ih]
      simp [hacc, Finset.insert_union]
    | none =>
      rw [tally, hacc]
      dsimp only
      rw [ih]
      by_cases hfp : fp ∈ grouped
      · simp [hacc, hfp]
      · simp [hacc, hfp, Nat.add_assoc, Nat.add_comm 1]

theorem minDistinctPeople_eq (c : Census) :
    c.sybilEstimate.minDistinctPeople = c.accounts.card + c.groupings.card + c.alone.length := by
  have hgroupings : c.groupings.card = c.ledger.groupingsSeen.toList.length := by
    rw [groupings, List.toFinset_card_of_nodup (Table.nodup_toList _), List.length_map]
  unfold sybilEstimate
  rw [tally_eq, hgroupings, Finset.empty_union, Nat.zero_add]
  rfl

variable {c : Census} {fp account : Fingerprint} {groupingPub : Bytes}

theorem mem_grouped : fp ∈ c.grouped ↔ ∃ groupingPub, c.Belongs fp groupingPub := by
  simp only [grouped, List.mem_toFinset, List.mem_flatMap, Prod.exists, Table.mem_toList, Belongs]

theorem mem_accounts : account ∈ c.accounts ↔ ∃ fp, c.Presents fp account := by
  simp only [accounts, List.mem_toFinset, List.mem_filterMap, Prod.exists, Table.mem_toList, Presents]

theorem mem_groupings : groupingPub ∈ c.groupings ↔ ∃ leaves, c.ledger.groupingsSeen.lookup groupingPub = some leaves := by
  rw [groupings, List.mem_toFinset, Table.mem_map_fst_toList, Option.ne_none_iff_exists']

theorem mem_participants : fp ∈ c.participants ↔ (∃ rec, c.cache.names.lookup fp = some rec) ∨ fp ∈ c.grouped := by
  rw [participants, Finset.mem_union, List.mem_toFinset, Table.mem_map_fst_toList, Option.ne_none_iff_exists']

theorem Presents.mem (h : c.Presents fp account) : fp ∈ c.participants := by
  obtain ⟨rec, hrec, -⟩ := h
  exact mem_participants.mpr (.inl ⟨rec, hrec⟩)

theorem Belongs.mem (h : c.Belongs fp groupingPub) : fp ∈ c.participants :=
  mem_participants.mpr (.inr (mem_grouped.mpr ⟨groupingPub, h⟩))

theorem Presents.unique {account' : Fingerprint} (h : c.Presents fp account) (h' : c.Presents fp account') : account = account' := by
  obtain ⟨rec, hrec, ha⟩ := h
  obtain ⟨rec', hrec', ha'⟩ := h'
  cases hrec.symm.trans hrec'
  exact Option.some.inj (ha.symm.trans ha')

/-! ## The evidence as ties -/

section
variable (c : Census)

def Evidence : Type := { account // account ∈ c.accounts } ⊕ { groupingPub // groupingPub ∈ c.groupings }

def tie : c.Evidence → Set c.Participant
  | .inl account => { p | c.Presents p.1 account.1 }
  | .inr groupingPub => { p | c.Belongs p.1 groupingPub.1 }

instance : Finite c.Participant := inferInstanceAs (Finite { fp // fp ∈ c.participants })

instance : Finite c.Evidence :=
  inferInstanceAs (Finite ({ account // account ∈ c.accounts } ⊕ { groupingPub // groupingPub ∈ c.groupings }))

theorem tie_nonempty (e : c.Evidence) : (c.tie e).Nonempty := by
  rcases e with ⟨account, haccount⟩ | ⟨groupingPub, hgrouping⟩
  · obtain ⟨fp, hfp⟩ := mem_accounts.mp haccount
    exact ⟨⟨fp, hfp.mem⟩, hfp⟩
  · obtain ⟨leaves, hleaves⟩ := mem_groupings.mp hgrouping
    obtain ⟨fp, hfp⟩ := List.exists_mem_of_ne_nil leaves (c.proven groupingPub leaves hleaves)
    have hbelongs : c.Belongs fp groupingPub := ⟨leaves, hleaves, hfp⟩
    exact ⟨⟨fp, hbelongs.mem⟩, hbelongs⟩

theorem linked_eq_tied : c.Linked = Ties.Tied c.tie := by
  funext a b
  refine propext ⟨?_, ?_⟩
  · rintro (⟨account, ha, hb⟩ | ⟨groupingPub, ha, hb⟩)
    · exact ⟨.inl ⟨account, mem_accounts.mpr ⟨a.1, ha⟩⟩, ha, hb⟩
    · obtain ⟨leaves, hleaves, -⟩ := id ha
      exact ⟨.inr ⟨groupingPub, mem_groupings.mpr ⟨leaves, hleaves⟩⟩, ha, hb⟩
  · rintro ⟨account | groupingPub, ha, hb⟩
    · exact .inl ⟨account.1, ha, hb⟩
    · exact .inr ⟨groupingPub.1, ha, hb⟩

theorem disjoint_iff_apart : (Pairwise fun e e' => Disjoint (c.tie e) (c.tie e')) ↔ c.Apart := by
  constructor
  · intro h
    -- the evidence that one participant has is one
    have hone : ∀ {e e' : c.Evidence} (p : c.Participant), p ∈ c.tie e → p ∈ c.tie e' → e = e' := fun p hp hp' =>
      by_contra fun hne => Set.disjoint_left.mp (h hne) hp hp'
    have key : ∀ {fp g} (hg : c.Belongs fp g), g ∈ c.groupings := fun ⟨leaves, hleaves, _⟩ => mem_groupings.mpr ⟨leaves, hleaves⟩
    refine ⟨fun fp g g' hg hg' => ?_, fun fp account g ha hg => ?_⟩
    · have heq : (.inr ⟨g, key hg⟩ : c.Evidence) = .inr ⟨g', key hg'⟩ := hone ⟨fp, hg.mem⟩ hg hg'
      exact congrArg Subtype.val (Sum.inr.inj heq)
    · have heq : (.inl ⟨account, mem_accounts.mpr ⟨fp, ha⟩⟩ : c.Evidence) = .inr ⟨g, key hg⟩ := hone ⟨fp, hg.mem⟩ ha hg
      cases heq
  · intro h e e' hne
    refine Set.disjoint_left.mpr fun p hp hp' => hne ?_
    rcases e with a | g <;> rcases e' with a' | g'
    · exact congrArg Sum.inl (Subtype.ext (Presents.unique hp hp'))
    · exact (h.accounts p.1 a.1 g'.1 hp hp').elim
    · exact (h.accounts p.1 a'.1 g.1 hp' hp).elim
    · exact congrArg Sum.inr (Subtype.ext (h.groupings p.1 g.1 g'.1 hp hp'))

theorem card_evidence : Nat.card c.Evidence = c.accounts.card + c.groupings.card := by
  rw [Evidence, Nat.card_sum, Nat.card_eq_fintype_card, Nat.card_eq_fintype_card, Fintype.card_coe, Fintype.card_coe]

end

theorem mem_alone : fp ∈ c.alone.map Prod.fst ↔
    fp ∈ c.participants ∧ (∀ account, ¬ c.Presents fp account) ∧ ∀ groupingPub, ¬ c.Belongs fp groupingPub := by
  have halone : fp ∈ c.alone.map Prod.fst ↔ ∃ rec, c.cache.names.lookup fp = some rec ∧ rec.accountFp = none ∧ fp ∉ c.grouped := by
    simp [alone, Table.mem_toList]
  rw [halone]
  constructor
  · rintro ⟨rec, hrec, hnone, hgrouped⟩
    refine ⟨mem_participants.mpr (.inl ⟨rec, hrec⟩), fun account ⟨rec', hrec', ha⟩ => ?_, fun g hg => hgrouped (mem_grouped.mpr ⟨g, hg⟩)⟩
    cases hrec.symm.trans hrec'
    cases hnone.symm.trans ha
  · rintro ⟨hmem, haccounts, hgroupings⟩
    have hgrouped : fp ∉ c.grouped := fun h => (mem_grouped.mp h).elim hgroupings
    obtain ⟨rec, hrec⟩ := (mem_participants.mp hmem).resolve_right hgrouped
    exact ⟨rec, hrec, Option.eq_none_iff_forall_ne_some.mpr fun a ha => haccounts a ⟨rec, hrec, ha⟩, hgrouped⟩

theorem loner_iff (p : c.Participant) : (∀ e, p ∉ c.tie e) ↔ p.1 ∈ (c.alone.map Prod.fst).toFinset := by
  rw [List.mem_toFinset, mem_alone]
  constructor
  · intro h
    refine ⟨p.2, fun account ha => h (.inl ⟨account, mem_accounts.mpr ⟨p.1, ha⟩⟩) ha, fun g hg => ?_⟩
    obtain ⟨leaves, hleaves, -⟩ := id hg
    exact h (.inr ⟨g, mem_groupings.mpr ⟨leaves, hleaves⟩⟩) hg
  · rintro ⟨-, haccounts, hgroupings⟩ (a | g) hp
    · exact haccounts a.1 hp
    · exact hgroupings g.1 hp

theorem card_loner (c : Census) : Nat.card (Ties.Loner c.tie) = c.alone.length := by
  have hnodup : (c.alone.map Prod.fst).Nodup :=
    (Table.nodup_toList c.cache.names).sublist (List.filter_sublist.map Prod.fst)
  let e : Ties.Loner c.tie ≃ { fp // fp ∈ (c.alone.map Prod.fst).toFinset } :=
    { toFun := fun p => ⟨p.1.1, (loner_iff p.1).mp p.2⟩
      invFun := fun fp =>
        have hmem : fp.1 ∈ c.participants := (mem_alone.mp (List.mem_toFinset.mp fp.2)).1
        ⟨⟨fp.1, hmem⟩, (loner_iff ⟨fp.1, hmem⟩).mpr fp.2⟩
      left_inv := fun _ => rfl
      right_inv := fun _ => rfl }
  rw [Nat.card_congr e, Nat.card_eq_fintype_card, Fintype.card_coe, List.toFinset_card_of_nodup hnodup, List.length_map]

theorem minDistinctPeople_le_people_iff (c : Census) : c.sybilEstimate.minDistinctPeople ≤ c.people ↔ c.Apart := by
  rw [minDistinctPeople_eq, ← card_evidence, ← card_loner, people, linked_eq_tied, ← disjoint_iff_apart]
  exact Ties.card_le_classes_iff c.tie_nonempty

end Census

/-! ## The handlers -/

namespace Ledger.Proven
variable {S : Scheme} {fingerprint : IdentityPublic → Fingerprint} {context : Gid} {l : Ledger} {senderFp : Fingerprint}
  {bytes : Bytes} {now : UInt64}

theorem of_eq {l' : Ledger} (h : l.Proven) (heq : l'.groupingsSeen = l.groupingsSeen) : l'.Proven := by
  intro groupingPub leaves hleaves
  rw [heq] at hleaves
  exact h groupingPub leaves hleaves

theorem onVouch (h : l.Proven) : (l.onVouch S fingerprint context senderFp bytes).Proven :=
  h.of_eq (groupingsSeen_onVouch l senderFp bytes)

theorem handleLinkage (h : l.Proven) : (l.handleLinkage S fingerprint context senderFp bytes now).Proven := by
  have hheard := groupingsSeen_witnessGossipRound l senderFp
  unfold Ledger.handleLinkage
  dsimp only
  split
  · exact h.of_eq hheard
  · next p hp =>
    split_ifs
    · exact h.of_eq hheard
    · intro groupingPub leaves hleaves
      rw [Table.lookup_insert_eq] at hleaves
      split at hleaves
      · cases hleaves
        exact List.ne_nil_of_mem List.mem_insert_self
      · rw [hheard] at hleaves
        exact h groupingPub leaves hleaves
    · exact h.of_eq hheard

end Ledger.Proven

namespace Census

inductive Event where
  | presence (attributed : Fingerprint) (now : UInt64) (bytes : Bytes)
  | nameTag (sender : Fingerprint) (tag : Bytes)
  | vouch (senderFp : Fingerprint) (bytes : Bytes)
  | linkage (senderFp : Fingerprint) (bytes : Bytes) (now : UInt64)

section
variable (S : Scheme) (fingerprint : IdentityPublic → Fingerprint) (sha256 : Bytes → Gid)
  (revocations : Finset (Fingerprint × Fingerprint)) (context : Gid)

def start : Census := ⟨{}, {}, fun _ _ h => nomatch h⟩

def step (c : Census) : Event → Census
  | .presence attributed now bytes =>
    { c with cache := c.cache.handlePresence S fingerprint revocations context attributed now bytes }
  | .nameTag sender tag => { c with cache := c.cache.reconcileNameTag sha256 context sender tag }
  | .vouch senderFp bytes =>
    ⟨c.cache, c.ledger.onVouch S fingerprint context senderFp bytes, c.proven.onVouch⟩
  | .linkage senderFp bytes now =>
    ⟨c.cache, c.ledger.handleLinkage S fingerprint context senderFp bytes now, c.proven.handleLinkage⟩

def run (events : List Event) : Census := events.foldl (step S fingerprint sha256 revocations context) start

end

/-! ## One participant with an account and two groupings -/

namespace Sample

def context : Gid := padArr 32 [7]

/-- The phone announces a name that is linked to its account. -/
def announced : Event :=
  .presence peerFp 900 (NamePresence.announce Scheme.plain 1 Account.IdentityChain.phoneChain "fox" context (2 : UInt8)).encode

def disclosed (grouping : UInt8) (seq : UInt64) : Event :=
  .linkage peerFp (LinkagePayload.encode ⟨[grouping], ⟨⟨[grouping]⟩, Account.IdentityChain.phoneCert, [grouping]⟩, [2], seq⟩) 900

def phone : Census :=
  run Scheme.plain Env.plain.fingerprint (padArr 32) ∅ context [announced, disclosed 40 1, disclosed 41 2]

theorem three_people_on_one_phone :
    phone.sybilEstimate = ⟨1, 2, 0, 3⟩ ∧ phone.participants = {peerFp} ∧ phone.people ≤ 1 := by
  have hone : phone.participants = {peerFp} := by decide +kernel
  refine ⟨by decide +kernel, hone, ?_⟩
  have hall (a : phone.Participant) : a.1 = peerFp := Finset.mem_singleton.mp (hone.subset a.2)
  have hsub : Subsingleton phone.Participant := ⟨fun a b => Subtype.ext ((hall a).trans (hall b).symm)⟩
  have hquot : Subsingleton (Quot phone.Linked) := ⟨by
    rintro ⟨a⟩ ⟨b⟩
    rw [Subsingleton.elim a b]⟩
  exact Finite.card_le_one_iff_subsingleton.mpr hquot

end Sample
end Census
end Talkrypt.Core
