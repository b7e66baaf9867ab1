import Talkrypt.Core.Node
import Talkrypt.Crypto.TreeKem.LeafKeys

/-!
# Commits on a member

A member buffers commits by the epoch that their frames claim, which nobody authenticates, and applies
them in order. `Drained` is the loop of `handle_commit` as a relation. A commit that the host did not sign
is refused without a trace when its turn comes, but until then it sits in the buffer, and it takes the
place of a commit of the host that waits there (`forged_replaces_genuine`). As long as it does not, forged
commits change nothing (`forged_inert`).
-/

namespace Talkrypt.Core
open TreeKem

variable {S : Scheme}

namespace Inner

/-! ## The loop -/

/-- The buffered commits that the group has not passed. -/
def ahead (g : Group S) (pending : Table Nat (Option (Commit S))) : Table Nat (Option (Commit S)) :=
  pending.eraseAll (pending.toList.filterMap fun e => if e.1 < g.epoch then some e.1 else none)

theorem lookup_ahead (g : Group S) (pending : Table Nat (Option (Commit S))) (k : Nat) :
    (ahead g pending).lookup k = if k < g.epoch then none else pending.lookup k := by
  rw [ahead, Table.lookup_eraseAll]
  by_cases hk : k < g.epoch
  · rw [if_pos hk]
    cases hlookup : pending.lookup k with
    | none => split <;> rfl
    | some c =>
      rw [if_pos]
      exact List.mem_filterMap.mpr ⟨(k, c), Table.mem_toList.mpr hlookup, if_pos hk⟩
  · rw [if_neg hk, if_neg]
    intro hmem
    obtain ⟨e, -, he⟩ := List.mem_filterMap.mp hmem
    split at he
    · next hlt =>
      cases he
      exact hk hlt
    · cases he

def afterTurn (g : Group S) (pending : Table Nat (Option (Commit S))) : Table Nat (Option (Commit S)) :=
  (ahead g pending).erase g.epoch

theorem lookup_afterTurn (g : Group S) (pending : Table Nat (Option (Commit S))) (k : Nat) :
    (afterTurn g pending).lookup k = if k ≤ g.epoch then none else pending.lookup k := by
  rw [afterTurn, Table.lookup_erase_eq, lookup_ahead]
  grind

/-- The loop of `handle_commit`: apply the commit of the group's epoch, as long as there is one and it
applies. -/
inductive Drained : Group S → Table Nat (Option (Commit S)) → Group S → Table Nat (Option (Commit S)) → Prop
  | wait {g : Group S} {pending : Table Nat (Option (Commit S))} (h : pending.lookup g.epoch = none) :
    Drained g pending g (ahead g pending)
  | garbage {g : Group S} {pending : Table Nat (Option (Commit S))} (h : pending.lookup g.epoch = some none) :
    Drained g pending g (afterTurn g pending)
  | refuse {g g' : Group S} {pending : Table Nat (Option (Commit S))} {c : Commit S} {e : CryptoError}
    (h : pending.lookup g.epoch = some (some c)) (happly : g.applyCommit c = (g', .error e)) :
    Drained g pending g' (afterTurn g pending)
  | apply {g g' g'' : Group S} {pending pending'' : Table Nat (Option (Commit S))} {c : Commit S}
    (h : pending.lookup g.epoch = some (some c)) (happly : g.applyCommit c = (g', .ok ()))
    (hrest : Drained g' (afterTurn g pending) g'' pending'') : Drained g pending g'' pending''

theorem applyPending_succ (turns : Nat) (g : Group S) (pending : Table Nat (Option (Commit S))) :
    applyPending (turns + 1) g pending = match pending.lookup g.epoch with
      | none => (g, ahead g pending)
      | some none => (g, afterTurn g pending)
      | some (some c) => match g.applyCommit c with
        | (g', .error _) => (g', afterTurn g pending)
        | (g', .ok ()) => applyPending turns g' (afterTurn g pending) := by
  have hturn : pending.lookup g.epoch = (ahead g pending).lookup g.epoch := by
    rw [lookup_ahead, if_neg (lt_irrefl _)]
  rw [hturn]
  rfl

theorem length_afterTurn {g : Group S} {pending : Table Nat (Option (Commit S))}
    (h : pending.lookup g.epoch ≠ none) : (afterTurn g pending).toList.length < pending.toList.length := by
  refine Table.length_toList_lt (fun k hk => ?_) h ?_
  · rw [lookup_afterTurn] at hk
    split at hk
    · exact absurd rfl hk
    · exact hk
  · rw [lookup_afterTurn, if_pos le_rfl]

theorem drained_applyPending {turns : Nat} {g : Group S} {pending : Table Nat (Option (Commit S))}
    (h : pending.toList.length ≤ turns) :
    Drained g pending (applyPending turns g pending).1 (applyPending turns g pending).2 := by
  induction turns generalizing g pending with
  | zero =>
    have hnil : pending.toList = [] := List.length_eq_zero_iff.mp (Nat.le_zero.mp h)
    have hnone : pending.lookup g.epoch = none := by
      by_contra hsome
      have hmem := Table.mem_map_fst_toList.mpr hsome
      rw [hnil] at hmem
      cases hmem
    have hsame : ahead g pending = pending := by
      rw [ahead, hnil]
      rfl
    have hwait := Drained.wait hnone
    rwa [hsame] at hwait
  | succ turns ih =>
    rw [applyPending_succ]
    split
    · next hnone => exact .wait hnone
    · next hgarbage => exact .garbage hgarbage
    · next c hc =>
      split
      · next happly => exact .refuse hc happly
      · next happly =>
        have hsmaller := length_afterTurn (hc ▸ Option.some_ne_none _ : pending.lookup g.epoch ≠ none)
        exact .apply hc happly (ih (by omega))

theorem handleCommit_eq (i : Inner S) (fromEpoch : Nat) (commit : Option (Commit S)) :
    (i.group = none ∧
      i.handleCommit fromEpoch commit = { i with pendingCommits := i.pendingCommits.insert fromEpoch commit }) ∨
    ∃ g g' pending', i.group = some g ∧ Drained g (i.pendingCommits.insert fromEpoch commit) g' pending' ∧
      i.handleCommit fromEpoch commit = { i with group := some g', pendingCommits := pending' } := by
  unfold handleCommit
  dsimp only
  split
  · next hg => exact .inl ⟨hg, rfl⟩
  · next g hg => exact .inr ⟨g, _, _, hg, drained_applyPending le_rfl, rfl⟩

end Inner

/-! ## Commits that the host did not sign -/

section Forged
variable (HostKey : IdentityPublic → Prop)

/-- The signing key at the host's leaf is one of the host's. -/
def Hosted (g : Group S) : Prop := ∀ pk, g.leafSigKeys.lookup HOST_LEAF = some pk → HostKey pk

/-- Bytes that are no commit, or a commit that no key of the host signed, for whichever epoch. -/
def Forged (commit : Option (Commit S)) : Prop :=
  ∀ c, commit = some c → ∀ pk, HostKey pk → ∀ epoch,
    S.verify pk (commitAuthTranscript epoch HOST_LEAF c.encodeBody) c.commitSig ≠ .ok ()

/-- A commit that binds no key but the host's to the host's leaf. -/
structure KeepsHost (c : Commit S) : Prop where
  proposals : ∀ p ∈ c.proposals, ∀ sp, p.binds HOST_LEAF = some sp → HostKey sp
  sigUpdate : ∀ leaf sp pop, c.sigUpdate = some (leaf, sp, pop) → HostKey sp

variable {HostKey} {g : Group S} {c : Commit S}

theorem Hosted.refuses (hg : Hosted HostKey g) (hc : Forged HostKey (some c)) :
    ∃ e, g.applyCommit c = (g, .error e) := by
  have hverify : ∃ e, g.verifyCommit c = .error e := by
    unfold Group.verifyCommit
    split
    · exact ⟨_, rfl⟩
    · next n path hpath =>
      split
      · exact ⟨_, rfl⟩
      · split
        · exact ⟨_, rfl⟩
        · next hlo =>
          split
          · exact ⟨_, rfl⟩
          · next hostKey hkey =>
            cases hres : orBadSignature (S.verify hostKey (commitAuthTranscript g.epoch n.lo c.encodeBody)
              c.commitSig) with
            | error e => exact ⟨e, rfl⟩
            | ok =>
              rw [not_ne_iff.mp hlo, orBadSignature_eq_ok] at hres
              exact absurd hres (hc c rfl hostKey (hg hostKey hkey) g.epoch)
  obtain ⟨e, he⟩ := hverify
  exact ⟨e, by rw [Group.applyCommit, he]⟩

theorem Hosted.applyCommit (hg : Hosted HostKey g) (hc : KeepsHost HostKey c) :
    Hosted HostKey (g.applyCommit c).1 := by
  refine Group.applyCommit_keeps (P := fun keys => ∀ pk, keys.lookup HOST_LEAF = some pk → HostKey pk) hg ?_ ?_
  · intro p hp g' hg' pk hpk
    by_cases hremove : p = .remove HOST_LEAF
    · subst hremove
      have hnone : (g'.enactProposal (.remove HOST_LEAF)).leafSigKeys.lookup HOST_LEAF = none :=
        (Table.lookup_erase_eq ..).trans (if_pos rfl)
      exact nomatch hnone.symm.trans hpk
    · rw [Group.enactProposal_sigKey hremove, Option.or_eq_some_iff] at hpk
      rcases hpk with hbinds | ⟨-, hbefore⟩
      · exact hc.proposals p hp pk hbinds
      · exact hg' pk hbefore
  · intro sp pop hsu keys _ pk hpk
    rw [AList.lookup_insert] at hpk
    cases hpk
    exact hc.sigUpdate _ sp pop hsu

/-! ## Buffers up to forged commits -/

variable (HostKey) in
/-- A place of the buffer with nothing in it, or something forged. -/
def Void (x : Option (Option (Commit S))) : Prop := ∀ commit, x = some commit → Forged HostKey commit

variable (HostKey) in
/-- Two places with the same content, or with nothing but forged commits. -/
def UpToForged (x y : Option (Option (Commit S))) : Prop := x = y ∨ Void HostKey x ∧ Void HostKey y

variable (HostKey) in
/-- A buffer with forged commits and commits that keep the host's keys. -/
def Sound (pending : Table Nat (Option (Commit S))) : Prop :=
  ∀ k c, pending.lookup k = some (some c) → Forged HostKey (some c) ∨ KeepsHost HostKey c

theorem void_none : Void HostKey (none : Option (Option (Commit S))) := nofun

theorem void_garbage : Void HostKey (some none : Option (Option (Commit S))) := by
  rintro _ ⟨⟩ c hc
  cases hc

theorem UpToForged.void {x y : Option (Option (Commit S))} (h : UpToForged HostKey x y)
    (hx : Void HostKey x) : Void HostKey y := by
  rcases h with rfl | ⟨-, hy⟩
  · exact hx
  · exact hy

theorem Sound.afterTurn {pending : Table Nat (Option (Commit S))} (h : Sound HostKey pending) :
    Sound HostKey (Inner.afterTurn g pending) := by
  intro k c hc
  rw [Inner.lookup_afterTurn] at hc
  split at hc
  · cases hc
  · exact h k c hc

section Drained
variable {g₁ g₁' : Group S} {pending pending₁ pending' pending₁' : Table Nat (Option (Commit S))}

theorem Hosted.drained (hg : Hosted HostKey g) (hvoid : Void HostKey (pending.lookup g.epoch))
    (h : Inner.Drained g pending g₁ pending₁) :
    g₁ = g ∧ ∀ k, pending₁.lookup k = (Inner.afterTurn g pending).lookup k := by
  cases h with
  | wait hnone =>
    refine ⟨rfl, fun k => ?_⟩
    rw [Inner.lookup_ahead, Inner.lookup_afterTurn]
    by_cases hk : k = g.epoch
    · subst hk
      simp [hnone]
    · grind
  | garbage => exact ⟨rfl, fun k => rfl⟩
  | refuse hc happly =>
    obtain ⟨e, hrefuse⟩ := hg.refuses (hvoid _ hc)
    rw [happly] at hrefuse
    cases hrefuse
    exact ⟨rfl, fun k => rfl⟩
  | apply hc happly =>
    obtain ⟨e, hrefuse⟩ := hg.refuses (hvoid _ hc)
    rw [happly] at hrefuse
    cases hrefuse

theorem upToForged_afterTurn
    (hrel : ∀ k, g.epoch ≤ k → UpToForged HostKey (pending.lookup k) (pending'.lookup k)) (k : Nat) :
    UpToForged HostKey ((Inner.afterTurn g pending).lookup k) ((Inner.afterTurn g pending').lookup k) := by
  rw [Inner.lookup_afterTurn, Inner.lookup_afterTurn]
  split
  · exact .inl rfl
  · exact hrel k (by omega)

theorem Hosted.drained_void (hg : Hosted HostKey g) (hsound : Sound HostKey pending)
    (hrel : ∀ k, g.epoch ≤ k → UpToForged HostKey (pending.lookup k) (pending'.lookup k))
    (hvoid : Void HostKey (pending.lookup g.epoch)) (h : Inner.Drained g pending g₁ pending₁)
    (h' : Inner.Drained g pending' g₁' pending₁') :
    g₁' = g₁ ∧ Hosted HostKey g₁ ∧ Sound HostKey pending₁ ∧
      ∀ k, UpToForged HostKey (pending₁.lookup k) (pending₁'.lookup k) := by
  obtain ⟨rfl, hlookup⟩ := hg.drained hvoid h
  obtain ⟨rfl, hlookup'⟩ := hg.drained ((hrel _ le_rfl).void hvoid) h'
  refine ⟨rfl, hg, fun k c hc => ?_, fun k => ?_⟩
  · rw [hlookup] at hc
    exact hsound.afterTurn k c hc
  · rw [hlookup, hlookup']
    exact upToForged_afterTurn hrel k

theorem Hosted.drained_alike (h : Inner.Drained g pending g₁ pending₁) (hg : Hosted HostKey g)
    (hsound : Sound HostKey pending)
    (hrel : ∀ k, g.epoch ≤ k → UpToForged HostKey (pending.lookup k) (pending'.lookup k))
    (h' : Inner.Drained g pending' g₁' pending₁') :
    g₁' = g₁ ∧ Hosted HostKey g₁ ∧ Sound HostKey pending₁ ∧
      ∀ k, UpToForged HostKey (pending₁.lookup k) (pending₁'.lookup k) := by
  induction h generalizing pending' with
  | wait hnone => exact hg.drained_void hsound hrel (hnone ▸ void_none) (.wait hnone) h'
  | garbage hgarbage => exact hg.drained_void hsound hrel (hgarbage ▸ void_garbage) (.garbage hgarbage) h'
  | @refuse g g₁ pending c e hc happly =>
    rcases hrel g.epoch le_rfl with heq | ⟨hvoid, -⟩
    · rw [hc] at heq
      cases h' with
      | wait hnone => exact nomatch heq.trans hnone
      | garbage hgarbage => exact nomatch heq.trans hgarbage
      | refuse hc' happly' =>
        cases heq.trans hc'
        rw [happly] at happly'
        cases happly'
        refine ⟨rfl, ?_, hsound.afterTurn, upToForged_afterTurn hrel⟩
        rcases hsound _ c hc with hforged | hkeeps
        · obtain ⟨e', hrefuse⟩ := hg.refuses hforged
          rw [happly] at hrefuse
          cases hrefuse
          exact hg
        · have hhosted := hg.applyCommit hkeeps
          rwa [happly] at hhosted
      | apply hc' happly' =>
        cases heq.trans hc'
        rw [happly] at happly'
        cases happly'
    · exact hg.drained_void hsound hrel hvoid (.refuse hc happly) h'
  | @apply g g' g'' pending pending'' c hc happly hrest ih =>
    rcases hrel g.epoch le_rfl with heq | ⟨hvoid, -⟩
    · rw [hc] at heq
      cases h' with
      | wait hnone => exact nomatch heq.trans hnone
      | garbage hgarbage => exact nomatch heq.trans hgarbage
      | refuse hc' happly' =>
        cases heq.trans hc'
        rw [happly] at happly'
        cases happly'
      | apply hc' happly' hrest' =>
        cases heq.trans hc'
        rw [happly] at happly'
        cases happly'
        have hhosted : Hosted HostKey g' := by
          rcases hsound _ c hc with hforged | hkeeps
          · obtain ⟨e', hrefuse⟩ := hg.refuses hforged
            rw [happly] at hrefuse
            cases hrefuse
          · have hhosted := hg.applyCommit hkeeps
            rwa [happly] at hhosted
        exact ih hhosted hsound.afterTurn (fun k _ => upToForged_afterTurn hrel k) hrest'
    · exact hg.drained_void hsound hrel hvoid (.apply hc happly hrest) h'

end Drained

/-! ## Interleavings -/

/-- A commit frame of the host, or one that the host did not sign. -/
inductive Arrival (S : Scheme) where
  | genuine (fromEpoch : Nat) (commit : Commit S)
  | forged (fromEpoch : Nat) (commit : Option (Commit S))

namespace Arrival

def isGenuine : Arrival S → Bool
  | .genuine _ _ => true
  | .forged _ _ => false

def deliver (i : Inner S) : Arrival S → Inner S
  | .genuine fromEpoch commit => i.handleCommit fromEpoch (some commit)
  | .forged fromEpoch commit => i.handleCommit fromEpoch commit

variable (HostKey)

def Proper : Arrival S → Prop
  | .genuine _ commit => KeepsHost HostKey commit
  | .forged _ commit => Forged HostKey commit

def Applicable (i : Inner S) (k : Nat) : Prop := ∀ g, i.group = some g → g.epoch ≤ k

/-- A forged frame that finds no commit of the host in the place that it claims, nor one that the group
could have applied. -/
def Harmless (i : Inner S) : Arrival S → Prop
  | .genuine _ _ => True
  | .forged fromEpoch _ => (Applicable i fromEpoch → Void HostKey (i.pendingCommits.lookup fromEpoch)) ∧
    ∀ g, i.group = some g → Void HostKey (i.pendingCommits.lookup g.epoch)

/-- The same group, and the same applicable commits of the host in the buffer. -/
structure Indistinct (i i' : Inner S) : Prop where
  group : i.group = i'.group
  buffered : ∀ k c, Applicable i k → ¬ Forged HostKey (some c) →
    (i.pendingCommits.lookup k = some (some c) ↔ i'.pendingCommits.lookup k = some (some c))

/-- Two nodes that differ in forged commits of their buffers, and in what is behind the group. -/
structure Alike (i i' : Inner S) : Prop where
  rest : ∃ pending, i = { i' with pendingCommits := pending }
  buffer : ∀ k, Applicable i' k →
    UpToForged HostKey (i.pendingCommits.lookup k) (i'.pendingCommits.lookup k)
  hosted : ∀ g, i'.group = some g → Hosted HostKey g
  sound : Sound HostKey i.pendingCommits

variable {HostKey} {i i' : Inner S}

theorem Alike.indistinct (h : Alike HostKey i i') : Indistinct HostKey i i' := by
  obtain ⟨⟨pending, rfl⟩, hbuffer, -, -⟩ := h
  refine ⟨rfl, fun k c hk hc => ?_⟩
  rcases hbuffer k hk with heq | ⟨hvoid, hvoid'⟩
  · rw [heq]
  · exact iff_of_false (fun hin => hc (hvoid _ hin)) fun hin => hc (hvoid' _ hin)

theorem sound_insert {pending : Table Nat (Option (Commit S))} (h : Sound HostKey pending) {fromEpoch : Nat}
    {commit : Option (Commit S)} (hcommit : ∀ c, commit = some c → Forged HostKey (some c) ∨ KeepsHost HostKey c) :
    Sound HostKey (pending.insert fromEpoch commit) := by
  intro k c hc
  rw [Table.lookup_insert_eq] at hc
  split at hc
  · exact hcommit c (Option.some.inj hc)
  · exact h k c hc

theorem Alike.genuine (h : Alike HostKey i i') (fromEpoch : Nat) {c : Commit S} (hc : KeepsHost HostKey c) :
    Alike HostKey (i.handleCommit fromEpoch (some c)) (i'.handleCommit fromEpoch (some c)) := by
  obtain ⟨⟨pending, rfl⟩, hbuffer, hhosted, hsound⟩ := h
  have hsound' : Sound HostKey (pending.insert fromEpoch (some c)) :=
    sound_insert hsound (by rintro _ ⟨⟩; exact .inr hc)
  have hrel (k : Nat) (hk : Applicable i' k) : UpToForged HostKey
      ((pending.insert fromEpoch (some c)).lookup k) ((i'.pendingCommits.insert fromEpoch (some c)).lookup k) := by
    rw [Table.lookup_insert_eq, Table.lookup_insert_eq]
    split
    · exact .inl rfl
    · exact hbuffer k hk
  rcases i'.handleCommit_eq fromEpoch (some c) with ⟨hg, heq'⟩ | ⟨g, g₁', pending₁', hg, hdrained', heq'⟩
  · rcases Inner.handleCommit_eq { i' with pendingCommits := pending } fromEpoch (some c) with
      ⟨-, heq⟩ | ⟨g, _, _, hg', -⟩
    · rw [heq, heq']
      exact ⟨⟨_, rfl⟩, hrel, hhosted, hsound'⟩
    · exact nomatch hg.symm.trans hg'
  · rcases Inner.handleCommit_eq { i' with pendingCommits := pending } fromEpoch (some c) with
      ⟨hg', -⟩ | ⟨g', g₁, pending₁, hg', hdrained, heq⟩
    · exact nomatch hg.symm.trans hg'
    · obtain rfl : g = g' := Option.some.inj (hg.symm.trans hg')
      have happlicable {k : Nat} (hk : g.epoch ≤ k) : Applicable i' k := fun g' hg' => by
        cases hg.symm.trans hg'
        exact hk
      obtain ⟨rfl, hhosted₁, hsound₁, hrel₁⟩ :=
        Hosted.drained_alike hdrained (hhosted g hg) hsound' (fun k hk => hrel k (happlicable hk)) hdrained'
      rw [heq, heq']
      exact ⟨⟨_, rfl⟩, fun k _ => hrel₁ k, by rintro _ ⟨⟩; exact hhosted₁, hsound₁⟩

theorem Alike.forged (h : Alike HostKey i i') {fromEpoch : Nat} {commit : Option (Commit S)}
    (hcommit : Forged HostKey commit) (hharmless : Harmless HostKey i (.forged fromEpoch commit)) :
    Alike HostKey (i.handleCommit fromEpoch commit) i' := by
  obtain ⟨⟨pending, rfl⟩, hbuffer, hhosted, hsound⟩ := h
  obtain ⟨hplace, hturn⟩ := hharmless
  have hsound' : Sound HostKey (pending.insert fromEpoch commit) :=
    sound_insert hsound (by rintro c rfl; exact .inl hcommit)
  have hforged : Void HostKey (some commit) := by
    rintro _ ⟨⟩
    exact hcommit
  have hrel (k : Nat) (hk : Applicable i' k) : UpToForged HostKey
      ((pending.insert fromEpoch commit).lookup k) (i'.pendingCommits.lookup k) := by
    rw [Table.lookup_insert_eq]
    split
    · next heq =>
      subst heq
      exact .inr ⟨hforged, (hbuffer k hk).void (hplace hk)⟩
    · exact hbuffer k hk
  rcases Inner.handleCommit_eq { i' with pendingCommits := pending } fromEpoch commit with
    ⟨hg, heq⟩ | ⟨g, g₁, pending₁, hg, hdrained, heq⟩
  · rw [heq]
    exact ⟨⟨_, rfl⟩, hrel, hhosted, hsound'⟩
  · have hvoid : Void HostKey ((pending.insert fromEpoch commit).lookup g.epoch) := by
      rw [Table.lookup_insert_eq]
      split
      · exact hforged
      · exact hturn g hg
    obtain ⟨rfl, hlookup⟩ := (hhosted g hg).drained hvoid hdrained
    rw [heq]
    refine ⟨⟨pending₁, ?_⟩, fun k hk => ?_, hhosted, fun k c hc => ?_⟩
    · rw [← hg]
    · rw [hlookup, Inner.lookup_afterTurn]
      split
      · next hle =>
        obtain rfl : k = g₁.epoch := le_antisymm hle (hk g₁ hg)
        exact .inr ⟨void_none, (hrel _ hk).void hvoid⟩
      · exact hrel k hk
    · rw [hlookup] at hc
      exact hsound'.afterTurn k c hc

/-- **Forged commits are inert** as long as each finds no commit of the host in the place of the buffer
that it claims, and no commit of the host that is due: the group and the applicable commits of the host in
the buffer are as if the forged frames had not come. -/
theorem forged_inert (hhosted : ∀ g, i.group = some g → Hosted HostKey g)
    (hsound : Sound HostKey i.pendingCommits) {arrivals : List (Arrival S)}
    (hproper : ∀ a ∈ arrivals, a.Proper HostKey) (h : Run.Along deliver (Harmless HostKey) i arrivals) :
    Indistinct HostKey (arrivals.foldl deliver i) ((arrivals.filter isGenuine).foldl deliver i) := by
  have halike : Alike HostKey i i := ⟨⟨_, rfl⟩, fun k _ => .inl rfl, hhosted, hsound⟩
  suffices hrun : ∀ i', Alike HostKey i i' →
      Alike HostKey (arrivals.foldl deliver i) ((arrivals.filter isGenuine).foldl deliver i') from
    (hrun i halike).indistinct
  clear halike hhosted hsound
  -- the node that hears everything, and the one that hears the host, step by step
  induction arrivals generalizing i with
  | nil => exact fun i' hi => hi
  | cons a arrivals ih =>
    obtain ⟨ha, harrivals⟩ := List.forall_mem_cons.mp hproper
    intro i' hi
    cases a with
    | genuine fromEpoch c => exact ih harrivals h.2 _ (hi.genuine fromEpoch ha)
    | forged fromEpoch commit => exact ih harrivals h.2 _ (hi.forged ha h.1)

/-! ## A buffered commit that is lost -/

/-- The commits with which the host adds two more members after the peer, in epochs 1 and 2. -/
def laterCommit (n : Nat) : Commit Scheme.plain :=
  match (World.plainRun [.host (.add (World.plainKeys 20 101).keyPackage) (World.plainCoins 11),
    .host (.add (World.plainKeys 21 102).keyPackage) (World.plainCoins 12),
    .host (.add (World.plainKeys 22 103).keyPackage) (World.plainCoins 13)]).log[n]? with
  | some e => e.commit
  | none => ⟨[], [], [], [], 0, none, []⟩

def PlainHost (pk : IdentityPublic) : Prop := pk = ⟨[100]⟩

theorem keepsHost_laterCommit (n : Nat) (hn : n = 1 ∨ n = 2) : KeepsHost PlainHost (laterCommit n) := by
  rcases hn with rfl | rfl
  all_goals
    refine ⟨fun p hp sp hsp => ?_, nofun⟩
    obtain rfl := List.mem_singleton.mp hp
    cases hsp

def enteredPeer : Inner Scheme.plain := Env.plain.run plainPeer [welcomeCall]

theorem harmless_of_isNone {i : Inner Scheme.plain} {k n : Nat} (hg : i.group.map (·.epoch) = some n)
    (hk : (i.pendingCommits.lookup k).isNone = true) (hn : (i.pendingCommits.lookup n).isNone = true) :
    Harmless PlainHost i (.forged k none) := by
  rw [Option.isNone_iff_eq_none] at hk hn
  refine ⟨fun _ => hk ▸ void_none, fun g hgroup => ?_⟩
  rw [hgroup, Option.map_some, Option.some.injEq] at hg
  rw [hg, hn]
  exact void_none

/-- Garbage for epochs without a buffered commit, before and between two commits of the host. -/
def garbled : List (Arrival Scheme.plain) :=
  [.forged 9 none, .genuine 1 (laterCommit 1), .forged 2 none, .genuine 2 (laterCommit 2)]

theorem forged_inert_garbled :
    (garbled.foldl deliver enteredPeer).group.map (·.epoch) = some 3 ∧
    Indistinct PlainHost (garbled.foldl deliver enteredPeer)
      ((garbled.filter isGenuine).foldl deliver enteredPeer) := by
  have hkey : (enteredPeer.group.all fun g => g.leafSigKeys.lookup HOST_LEAF = some ⟨[100]⟩) = true := by
    decide +kernel
  refine ⟨by decide +kernel, forged_inert (fun g hg pk hpk => ?_) (fun k c hc => ?_) ?_ ⟨?_, trivial, ?_, trivial, trivial⟩⟩
  · rw [hg, Option.all_some, decide_eq_true_eq, hpk] at hkey
    exact Option.some.inj hkey
  · have hempty : enteredPeer.pendingCommits = ∅ := rfl
    rw [hempty, AList.lookup_empty] at hc
    cases hc
  · simp only [garbled, List.forall_mem_cons, List.not_mem_nil, false_imp_iff, implies_true, and_true]
    exact ⟨nofun, keepsHost_laterCommit 1 (.inl rfl), nofun, keepsHost_laterCommit 2 (.inr rfl)⟩
  · exact harmless_of_isNone (n := 1) (by decide +kernel) (by decide +kernel) (by decide +kernel)
  · exact harmless_of_isNone (n := 2) (by decide +kernel) (by decide +kernel) (by decide +kernel)

/-- **A forged frame takes the place of a commit of the host**: garbage that claims epoch 2, for which a
commit waits, leaves the member in epoch 2; without it the member is in epoch 3. -/
theorem forged_replaces_genuine :
    (∀ a ∈ [Arrival.genuine 2 (laterCommit 2), .forged 2 none, .genuine 1 (laterCommit 1)],
      a.Proper PlainHost) ∧
    ([Arrival.genuine 2 (laterCommit 2), .forged 2 none, .genuine 1 (laterCommit 1)].foldl deliver
      enteredPeer).group.map (·.epoch) = some 2 ∧
    ([Arrival.genuine 2 (laterCommit 2), .genuine 1 (laterCommit 1)].foldl deliver
      enteredPeer).group.map (·.epoch) = some 3 ∧
    ¬ Indistinct PlainHost
      ([Arrival.genuine 2 (laterCommit 2), .forged 2 none, .genuine 1 (laterCommit 1)].foldl deliver enteredPeer)
      (([Arrival.genuine 2 (laterCommit 2), .forged 2 none, .genuine 1 (laterCommit 1)].filter
        isGenuine).foldl deliver enteredPeer) := by
  have hbehind : ([Arrival.genuine 2 (laterCommit 2), .forged 2 none, .genuine 1 (laterCommit 1)].foldl deliver
      enteredPeer).group.map (·.epoch) = some 2 := by decide +kernel
  have hlevel : ([Arrival.genuine 2 (laterCommit 2), .genuine 1 (laterCommit 1)].foldl deliver
      enteredPeer).group.map (·.epoch) = some 3 := by decide +kernel
  refine ⟨?_, hbehind, hlevel, fun h => ?_⟩
  · simp only [List.forall_mem_cons, List.not_mem_nil, false_imp_iff, implies_true, and_true]
    exact ⟨keepsHost_laterCommit 2 (.inr rfl), nofun, keepsHost_laterCommit 1 (.inl rfl)⟩
  · have hepoch := congrArg (Option.map Group.epoch) h.group
    rw [hbehind] at hepoch
    exact absurd (hepoch.trans hlevel) (by decide)

end Arrival
end Forged
end Talkrypt.Core
