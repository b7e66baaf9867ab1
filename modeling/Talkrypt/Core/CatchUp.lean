import Talkrypt.Core.Commits

/-!
# Catching up with the host

A joiner receives its Welcome and the commits that follow it, in any order. Commits that come too early
wait in the buffer, and the next commit frame takes them out. The Welcome does not: if it comes last, the
commits that came before it stay in the buffer (`welcome_last_stays_behind`). So the joiner is level with
the host exactly if there are no later commits or some commit frame comes after the Welcome
(`caught_up_iff`).
-/

namespace Talkrypt.Core
open TreeKem

variable {S : Scheme}

/-- A frame that the joiner receives: its Welcome, or the `n`-th commit of the host. -/
inductive Delivery where
  | welcome
  | commit (n : Nat)
deriving DecidableEq

namespace CatchUp
variable (w : World S) (j : Nat)

def deliver (i : Inner S) : Delivery → Inner S
  | .welcome => match w.log[j]? with
    | none => i
    | some e => i.handleWelcome e.welcome
  | .commit n => match w.log[n]? with
    | none => i
    | some e => i.handleCommit e.before.epoch (some e.commit)

/-- The node's group is in the host's epoch, with the host's epoch secret. -/
def Level (i : Inner S) : Prop :=
  ∃ g, i.group = some g ∧ g.epoch = w.host.epoch ∧ g.epochSecret = w.host.epochSecret

def FollowsWelcome (ds : List Delivery) : Prop := ∃ n, List.Sublist [.welcome, .commit n] ds

/-- A commit that the member at `leaf` can follow: it does not remove the member, it does not replace
keys that the member has not staged, and it is not signed with a key that the host installs by an `Update`
of its own leaf. -/
structure Followable (leaf : Nat) (e : Entry S) : Prop where
  op : ∀ bytes, e.op ≠ .commitUpdate 0 bytes
  remove : .remove leaf ∉ e.commit.proposals
  update : ∀ lp sp pop auth, .update leaf lp sp pop auth ∉ e.commit.proposals

/-- The member at `leaf` agrees with the host as of the first `a` commits. -/
def At (leaf : Nat) (m : Group S) (a : Nat) : Prop :=
  m.me = leaf ∧ ∃ g s k, w.state a = some g ∧ g.Agrees m ∧ m.Holds s k

/-- A buffer with commits of the host in their places. -/
def Genuine (pending : Table Nat (Option (Commit S))) : Prop :=
  ∀ n c, pending.lookup n = some c → ∃ e, w.log[n]? = some e ∧ c = some e.commit

variable {w j}

section Follow
variable {leaf a : Nat} {m m' : Group S} {pending pending' : Table Nat (Option (Commit S))}

theorem At.follow (hS : S.Lawful) (hw : w.Inv) (h : At w leaf m a) {e : Entry S} (he : w.log[a]? = some e)
    (hfollow : Followable leaf e) : ∃ m', m.applyCommit e.commit = (m', .ok ()) ∧ At w leaf m' (a + 1) := by
  obtain ⟨rfl, g, s, k, hg, hagree, hold⟩ := h
  have hlinked := hw.log a e he
  have hstaged : ∀ p ∈ e.commit.proposals, m.Staged p := by
    intro p hp
    cases p with
    | update leaf lp sp pop auth =>
      rintro rfl
      exact absurd hp (hfollow.update lp sp pop auth)
    | _ => trivial
  obtain ⟨m', s', k', happly, hagree', hold', hme, -⟩ := hlinked.follow hS hg hagree hold hstaged hfollow.remove
    (hlinked.verifyCommit hS hg hagree hfollow.op)
  exact ⟨m', happly, hme, e.after, s', k', by simp [World.state, he], hagree', hold'⟩

variable (hw : w.Inv) (hfounded : w.founded.epoch = 0) (hwrap : w.log.length < 2 ^ 32)
include hw hfounded hwrap

theorem state_epoch {g : Group S} (hg : w.state a = some g) : g.epoch = a := by
  have hlt : a < 2 ^ 32 := by
    cases a with
    | zero => decide
    | succ a =>
      obtain ⟨e, he, -⟩ := Option.map_eq_some_iff.mp hg
      have := (List.getElem?_eq_some_iff.mp he).1
      omega
  rw [hw.state_epoch hfounded hg, Nat.mod_eq_of_lt hlt]

theorem before_epoch {n : Nat} {e : Entry S} (he : w.log[n]? = some e) : e.before.epoch = n := by
  obtain ⟨g, hg, -, hgrown⟩ := (hw.log n e he).grown
  rw [hgrown.epoch, state_epoch hw hfounded hwrap hg]

theorem host_epoch : w.host.epoch = w.log.length := by
  obtain ⟨g, hg, -, hgrown⟩ := hw.last
  rw [hgrown.epoch, state_epoch hw hfounded hwrap hg]

theorem At.epoch (h : At w leaf m a) : m.epoch = a := by
  obtain ⟨-, g, -, -, hg, hagree, -⟩ := h
  rw [hagree.epoch, state_epoch hw hfounded hwrap hg]

theorem At.drained (hS : S.Lawful) (h : At w leaf m a)
    (hfollow : ∀ n e, a ≤ n → w.log[n]? = some e → Followable leaf e) (hgen : Genuine w pending)
    (hdrained : Inner.Drained m pending m' pending') :
    ∃ b, a ≤ b ∧ At w leaf m' b ∧ pending'.lookup b = none ∧ Genuine w pending' ∧
      ∀ n, pending.lookup n ≠ none → n < b ∨ pending'.lookup n ≠ none := by
  induction hdrained generalizing a with
  | @wait m pending hnone =>
    have hepoch := h.epoch hw hfounded hwrap
    refine ⟨a, le_rfl, h, ?_, fun n c hc => ?_, fun n hn => ?_⟩
    · rw [Inner.lookup_ahead, hepoch, if_neg (lt_irrefl a), ← hepoch, hnone]
    · rw [Inner.lookup_ahead] at hc
      split at hc
      · cases hc
      · exact hgen n c hc
    · rw [Inner.lookup_ahead, hepoch]
      by_cases hlt : n < a
      · exact .inl hlt
      · rw [if_neg hlt]
        exact .inr hn
  | garbage hgarbage =>
    obtain ⟨e, -, hsome⟩ := hgen _ _ hgarbage
    cases hsome
  | @refuse m m' pending c e hc happly =>
    obtain ⟨e', he', hsome⟩ := hgen _ _ hc
    cases hsome
    rw [h.epoch hw hfounded hwrap] at he'
    obtain ⟨m'', happly', -⟩ := h.follow hS hw he' (hfollow a e' le_rfl he')
    rw [happly] at happly'
    cases happly'
  | @apply m m₁ m₂ pending pending₂ c hc happly hrest ih =>
    have hepoch := h.epoch hw hfounded hwrap
    obtain ⟨e, he, hsome⟩ := hgen _ _ hc
    cases hsome
    rw [hepoch] at he
    obtain ⟨m₁', happly', hat⟩ := h.follow hS hw he (hfollow a e le_rfl he)
    rw [happly] at happly'
    cases happly'
    have hgen' : Genuine w (Inner.afterTurn m pending) := by
      intro n c hc
      rw [Inner.lookup_afterTurn] at hc
      split at hc
      · cases hc
      · exact hgen n c hc
    obtain ⟨b, hab, hb, hnone, hgen₂, hkept⟩ := ih hat (fun n e hn => hfollow n e (by omega)) hgen'
    refine ⟨b, by omega, hb, hnone, hgen₂, fun n hn => ?_⟩
    by_cases hle : n ≤ a
    · exact .inl (by omega)
    · refine hkept n ?_
      rwa [Inner.lookup_afterTurn, hepoch, if_neg hle]

end Follow

theorem processUpdatePath_me (g : Group S) (c : Commit S) : (g.processUpdatePath c).1.me = g.me := by
  unfold Group.processUpdatePath
  dsimp only
  split
  · rfl
  · split
    · rfl
    · split <;> rfl

theorem joinWithWelcome_me {kp : LeafKeyPair S} {wel : Welcome S} {m : Group S}
    (h : Group.joinWithWelcome kp wel = .ok m) : m.me = wel.yourLeaf := by
  obtain ⟨⟨⟩, -, h⟩ := except_bind_eq_ok.mp h
  have hme := processUpdatePath_me (Group.joining kp wel) wel.commit
  split at h
  · cases h
  · next g secret hprocess =>
    cases h
    rw [hprocess] at hme
    exact hme

/-! ## The order of frames -/

theorem pair_sublist_concat {α : Type} {a b d : α} {l : List α} :
    List.Sublist [a, b] (l ++ [d]) ↔ List.Sublist [a, b] l ∨ a ∈ l ∧ b = d := by
  rw [List.sublist_append_iff]
  constructor
  · rintro ⟨l₁, l₂, heq, h₁, h₂⟩
    rcases List.sublist_singleton.mp h₂ with rfl | rfl
    · rw [List.append_nil] at heq
      exact .inl (heq ▸ h₁)
    · obtain ⟨rfl, hb⟩ := List.append_inj' (show [a] ++ [b] = l₁ ++ [d] by rw [← heq]; rfl) rfl
      exact .inr ⟨List.singleton_sublist.mp h₁, List.singleton_inj.mp hb⟩
  · rintro (h | ⟨ha, rfl⟩)
    · exact ⟨[a, b], [], rfl, h, List.nil_sublist _⟩
    · exact ⟨[a], [b], rfl, List.singleton_sublist.mpr ha, .refl _⟩

variable {ds : List Delivery} {n : Nat}

theorem followsWelcome_welcome : FollowsWelcome (ds ++ [.welcome]) ↔ FollowsWelcome ds := by
  simp [FollowsWelcome, pair_sublist_concat]

theorem followsWelcome_commit (h : .welcome ∈ ds) :
    FollowsWelcome (ds ++ [.commit n]) := ⟨n, pair_sublist_concat.mpr (.inr ⟨h, rfl⟩)⟩

theorem welcome_mem (h : FollowsWelcome ds) : .welcome ∈ ds := by
  obtain ⟨n, hsub⟩ := h
  exact hsub.subset List.mem_cons_self

theorem mem_of_mem_concat (h : .commit n ∈ ds ++ [.welcome]) : .commit n ∈ ds := by
  simpa using h

/-! ## Phases of a joiner -/

section Phases
variable (w j) (kp : LeafKeyPair S) (leaf : Nat)

inductive Phase (i : Inner S) (ds : List Delivery) : Prop
  | waiting (hds : .welcome ∉ ds) (hkp : i.leafKeypair = some kp) (hgroup : i.group = none)
    (hgen : Genuine w i.pendingCommits) (hkept : ∀ n, .commit n ∈ ds → i.pendingCommits.lookup n ≠ none)
  | entered {m : Group S} (hds : ¬ FollowsWelcome ds) (hwelcome : .welcome ∈ ds) (hkp : i.leafKeypair = none)
    (hgroup : i.group = some m) (hat : At w leaf m (j + 1)) (hgen : Genuine w i.pendingCommits)
    (hkept : ∀ n, .commit n ∈ ds → i.pendingCommits.lookup n ≠ none)
  /-- The buffer has been drained: the next commit is missing. -/
  | drained {m : Group S} {a : Nat} (hds : FollowsWelcome ds) (hkp : i.leafKeypair = none)
    (hgroup : i.group = some m) (ha : j < a) (hat : At w leaf m a) (hgen : Genuine w i.pendingCommits)
    (hnext : i.pendingCommits.lookup a = none)
    (hkept : ∀ n, .commit n ∈ ds → n < a ∨ i.pendingCommits.lookup n ≠ none)

variable {w j kp leaf} {i : Inner S} {ds : List Delivery}

theorem At.setPadBucket {m : Group S} {a : Nat} (h : At w leaf m a) (step : Nat) :
    At w leaf { m with padBucket := step } a := by
  obtain ⟨hme, g, s, k, hg, hagree, hold⟩ := h
  refine ⟨hme, g, s, k, hg, ?_, ?_⟩
  · exact ⟨⟨⟨hagree.capacity, hagree.occupied, hagree.pubs⟩, hagree.sigKeys⟩, hagree.epoch,
      hagree.epochSecret⟩
  · exact ⟨hold.pos, hold.occupied, hold.secret, hold.only, hold.key, hold.sig, hold.sigKey⟩

theorem Phase.welcome {m : Group S} {wel : Welcome S} (hjoin : Group.joinWithWelcome kp wel = .ok m)
    (hat : At w leaf m (j + 1)) (h : Phase w j kp leaf i ds) :
    Phase w j kp leaf (i.handleWelcome (some wel)) (ds ++ [.welcome]) := by
  have hmem : .welcome ∈ ds ++ [.welcome] := by simp
  cases h with
  | waiting hds hkp hgroup hgen hkept =>
    have hfollows : ¬ FollowsWelcome (ds ++ [.welcome]) := fun h =>
      hds (welcome_mem (followsWelcome_welcome.mp h))
    simp only [Inner.handleWelcome, hkp, hjoin]
    split
    · exact .entered hfollows hmem rfl rfl hat hgen fun n hn => hkept n (mem_of_mem_concat hn)
    · exact .entered hfollows hmem rfl rfl (hat.setPadBucket _) hgen fun n hn => hkept n (mem_of_mem_concat hn)
  | entered hds hwelcome hkp hgroup hat' hgen hkept =>
    simp only [Inner.handleWelcome, hkp]
    exact .entered (mt followsWelcome_welcome.mp hds) hmem hkp hgroup hat' hgen
      fun n hn => hkept n (mem_of_mem_concat hn)
  | drained hds hkp hgroup ha hat' hgen hnext hkept =>
    simp only [Inner.handleWelcome, hkp]
    exact .drained (followsWelcome_welcome.mpr hds) hkp hgroup ha hat' hgen hnext
      fun n hn => hkept n (mem_of_mem_concat hn)

variable {n : Nat}

theorem Genuine.insert {pending : Table Nat (Option (Commit S))} (h : Genuine w pending) {e : Entry S}
    (he : w.log[n]? = some e) : Genuine w (pending.insert n (some e.commit)) := by
  intro n' c hc
  rw [Table.lookup_insert_eq] at hc
  split at hc
  · next heq =>
    subst heq
    exact ⟨e, he, (Option.some.inj hc).symm⟩
  · exact h n' c hc

theorem lookup_insert_ne_none {pending : Table Nat (Option (Commit S))} {n' : Nat} {c : Option (Commit S)}
    (h : n' = n ∨ pending.lookup n' ≠ none) : (pending.insert n c).lookup n' ≠ none := by
  rw [Table.lookup_insert_eq]
  split
  · exact Option.some_ne_none _
  · next hne => exact h.resolve_left hne

theorem commit_mem_concat {n' : Nat} (h : .commit n' ∈ ds ++ [.commit n]) : .commit n' ∈ ds ∨ n' = n := by
  simpa using h

section Commit
variable (hS : S.Lawful) (hw : w.Inv) (hfounded : w.founded.epoch = 0) (hwrap : w.log.length < 2 ^ 32)
  (hfollow : ∀ n e, j < n → w.log[n]? = some e → Followable leaf e)
include hS hw hfounded hwrap hfollow

variable {e : Entry S}

theorem Phase.drain {m : Group S} {a n : Nat} (he : w.log[n]? = some e) (hwelcome : .welcome ∈ ds)
    (hkp : i.leafKeypair = none) (hgroup : i.group = some m) (ha : j < a) (hat : At w leaf m a)
    (hgen : Genuine w i.pendingCommits) (hkept : ∀ n, .commit n ∈ ds → n < a ∨ i.pendingCommits.lookup n ≠ none) :
    Phase w j kp leaf (i.handleCommit n (some e.commit)) (ds ++ [.commit n]) := by
  rcases i.handleCommit_eq n (some e.commit) with ⟨hnone, -⟩ | ⟨m₀, m', pending', hm₀, hdrained, heq⟩
  · exact nomatch hgroup.symm.trans hnone
  · obtain rfl : m = m₀ := Option.some.inj (hgroup.symm.trans hm₀)
    obtain ⟨b, hab, hb, hnext, hgen', hkept'⟩ := hat.drained hw hfounded hwrap hS
      (fun n e hn => hfollow n e (by omega)) (hgen.insert he) hdrained
    rw [heq]
    refine .drained (followsWelcome_commit hwelcome) hkp rfl (by omega) hb hgen' hnext fun n' hn' => ?_
    rcases commit_mem_concat hn' with hmem | rfl
    · rcases hkept n' hmem with hlt | hin
      · exact .inl (by omega)
      · exact hkept' n' (lookup_insert_ne_none (.inr hin))
    · exact hkept' n' (lookup_insert_ne_none (.inl rfl))

theorem Phase.commit {n : Nat} (he : w.log[n]? = some e) (h : Phase w j kp leaf i ds) :
    Phase w j kp leaf (i.handleCommit n (some e.commit)) (ds ++ [.commit n]) := by
  cases h with
  | waiting hds hkp hgroup hgen hkept =>
    rcases i.handleCommit_eq n (some e.commit) with ⟨-, heq⟩ | ⟨m, _, _, hm, -⟩
    · rw [heq]
      refine .waiting (by simpa using hds) hkp hgroup (hgen.insert he) fun n' hn' => ?_
      exact lookup_insert_ne_none ((commit_mem_concat hn').symm.imp id (hkept n'))
    · exact nomatch hgroup.symm.trans hm
  | entered hds hwelcome hkp hgroup hat hgen hkept =>
    exact .drain hS hw hfounded hwrap hfollow he hwelcome hkp hgroup (Nat.lt_succ_self j) hat hgen
      fun n hn => .inr (hkept n hn)
  | drained hds hkp hgroup ha hat hgen hnext hkept =>
    exact .drain hS hw hfounded hwrap hfollow he (welcome_mem hds) hkp hgroup ha hat hgen hkept

theorem Phase.deliver {m : Group S} {wel : Welcome S} (he : w.log[j]? = some e) (hwel : e.welcome = some wel)
    (hjoin : Group.joinWithWelcome kp wel = .ok m) (hat : At w leaf m (j + 1)) {d : Delivery}
    (hd : ∀ n, d = .commit n → n < w.log.length) (h : Phase w j kp leaf i ds) :
    Phase w j kp leaf (CatchUp.deliver w j i d) (ds ++ [d]) := by
  cases d with
  | welcome =>
    simp only [CatchUp.deliver, he, hwel]
    exact h.welcome hjoin hat
  | commit n =>
    have hlt := hd n rfl
    have hn : w.log[n]? = some w.log[n] := List.getElem?_eq_getElem hlt
    simp only [CatchUp.deliver, hn, before_epoch hw hfounded hwrap hn]
    exact h.commit hS hw hfounded hwrap hfollow hn

end Commit
end Phases
/-! ## All frames received -/

section Final
variable {kp : LeafKeyPair S} {leaf : Nat} {i : Inner S} {ds : List Delivery} (hw : w.Inv)
  (hfounded : w.founded.epoch = 0) (hwrap : w.log.length < 2 ^ 32)
include hw hfounded hwrap

theorem At.level_iff {m : Group S} {a : Nat} (h : At w leaf m a) (hgroup : i.group = some m) :
    Level w i ↔ a = w.log.length := by
  constructor
  · rintro ⟨g, hg, hepoch, -⟩
    obtain rfl : m = g := Option.some.inj (hgroup.symm.trans hg)
    rw [← h.epoch hw hfounded hwrap, hepoch, host_epoch hw hfounded hwrap]
  · rintro rfl
    obtain ⟨-, g, -, -, hg, hagree, -⟩ := h
    obtain ⟨g', hg', -, hgrown⟩ := hw.last
    obtain rfl : g = g' := Option.some.inj (hg.symm.trans hg')
    exact ⟨m, hgroup, by rw [hagree.epoch, hgrown.epoch], by rw [hagree.epochSecret, hgrown.epochSecret]⟩

theorem Phase.level_iff (h : Phase w j kp leaf i ds) (hwelcome : .welcome ∈ ds)
    (hall : ∀ n, j < n → n < w.log.length → .commit n ∈ ds) :
    Level w i ↔ w.log.length = j + 1 ∨ FollowsWelcome ds := by
  cases h with
  | waiting hds => exact absurd hwelcome hds
  | entered hds _ _ hgroup hat =>
    rw [hat.level_iff hw hfounded hwrap hgroup, or_iff_left hds, eq_comm]
  | @drained m a hds _ hgroup ha hat hgen hnext hkept =>
    rw [hat.level_iff hw hfounded hwrap hgroup]
    refine iff_of_true ?_ (.inr hds)
    -- a missing commit would be among the frames, and not behind the member
    by_contra hne
    have hle : a ≤ w.log.length := by
      obtain ⟨-, g, -, -, hg, -⟩ := hat
      cases a with
      | zero => omega
      | succ a =>
        obtain ⟨e, he, -⟩ := Option.map_eq_some_iff.mp hg
        exact (List.getElem?_eq_some_iff.mp he).1
    rcases hkept a (hall a ha (by omega)) with hlt | hin
    · exact lt_irrefl a hlt
    · exact hin hnext

end Final

theorem Phase.start (me : Fingerprint) (padding : Option Nat) (kp : LeafKeyPair S) (leaf : Nat) :
    Phase w j kp leaf (.joiner me padding kp) [] :=
  .waiting nofun rfl rfl nofun nofun

theorem phase_foldl {kp : LeafKeyPair S} {e : Entry S} {m : Group S} {wel : Welcome S} (hS : S.Lawful) (hw : w.Inv)
    (hfounded : w.founded.epoch = 0) (hwrap : w.log.length < 2 ^ 32)
    (hfollow : ∀ n e, j < n → w.log[n]? = some e → Followable wel.yourLeaf e) (he : w.log[j]? = some e)
    (hwel : e.welcome = some wel) (hjoin : Group.joinWithWelcome kp wel = .ok m)
    (hat : At w wel.yourLeaf m (j + 1)) (me : Fingerprint) (padding : Option Nat) (ds : List Delivery)
    (hds : ∀ n, .commit n ∈ ds → n < w.log.length) :
    Phase w j kp wel.yourLeaf (ds.foldl (deliver w j) (.joiner me padding kp)) ds := by
  induction ds using List.reverseRecOn with
  | nil => exact .start me padding kp wel.yourLeaf
  | append_singleton ds d ih =>
    rw [List.foldl_append]
    refine .deliver hS hw hfounded hwrap hfollow he hwel hjoin hat ?_ (ih fun n hn => hds n ?_)
    · rintro n rfl
      exact hds n (by simp)
    · exact List.mem_append_left [d] hn

/-- **Order of the Welcome and the commits**: a joiner that has received its Welcome and all commits after
it, in any order and any number of times, is level with the host if and only if there are no later commits
or it has processed some commit frame after the Welcome. -/
theorem caught_up_iff (hS : S.Lawful) {profile : KemProfile} {mySig : S.SigSeed} {s : S.Secret}
    {evs : List (TreeKem.Event S)} (h : Run.Along World.step World.Admitted (World.create profile mySig s) evs)
    {w : World S} (hw : w = World.run profile mySig s evs) (hwrap : w.log.length < 2 ^ 32)
    {j : Nat} {e : Entry S} (he : w.log[j]? = some e) {kp : LeafKeyPair S} (hop : e.op = .add kp.keyPackage)
    (hfollow : ∀ n e' wel, j < n → w.log[n]? = some e' → e.welcome = some wel → Followable wel.yourLeaf e')
    (me : Fingerprint) (padding : Option Nat) {ds : List Delivery} (hwelcome : .welcome ∈ ds)
    (hall : ∀ n, j < n → n < w.log.length → .commit n ∈ ds) (hds : ∀ n, .commit n ∈ ds → n < w.log.length) :
    Level w (ds.foldl (deliver w j) (.joiner me padding kp)) ↔ w.log.length = j + 1 ∨ FollowsWelcome ds := by
  subst hw
  have hinv := World.Inv.run hS h
  have hfounded : (World.run profile mySig s evs).founded.epoch = 0 := by
    rw [World.founded_run]
    rfl
  obtain ⟨wel, m, hwel, hjoin, hagree, hold, -⟩ := (hinv.log j e he).join hS hop
  have hat : At (World.run profile mySig s evs) wel.yourLeaf m (j + 1) :=
    ⟨joinWithWelcome_me hjoin, e.after, kp.secret, kp.sig, by simp [World.state, he], hagree, hold⟩
  have hphase := phase_foldl hS hinv hfounded hwrap (fun n e' hn he' => hfollow n e' wel hn he' hwel) he hwel hjoin
    hat me padding ds hds
  exact hphase.level_iff hinv hfounded hwrap hwelcome hall

/-! ## Two joins -/

def twoAdds : List (TreeKem.Event Scheme.plain) :=
  [.host (.add (World.plainKeys 20 101).keyPackage) (World.plainCoins 11),
    .host (.add (World.plainKeys 21 102).keyPackage) (World.plainCoins 12)]

def firstJoiner (ds : List Delivery) : Inner Scheme.plain :=
  ds.foldl (deliver (World.plainRun twoAdds) 0) plainPeer

theorem admitted_twoAdds :
    Run.Along World.step World.Admitted (World.create .pqPure (100 : UInt8) (10 : UInt8)) twoAdds := by
  refine ⟨⟨nofun, fun g f => World.error_of_isOk (by decide +kernel), ?_⟩,
    ⟨nofun, fun g f => World.error_of_isOk (by decide +kernel), ?_⟩, trivial⟩
  all_goals
    rintro b p ⟨⟩
    trivial

theorem followable_twoAdds {leaf : Nat} {e : Entry Scheme.plain} (hn : 0 < n)
    (he : (World.plainRun twoAdds).log[n]? = some e) : Followable leaf e := by
  obtain rfl : n = 1 := by
    have hlt : n < 2 := (List.getElem?_eq_some_iff.mp he).1
    omega
  injection he with he
  subst he
  refine ⟨nofun, fun hmem => ?_, fun lp sp pop auth hmem => ?_⟩
  · exact nomatch List.mem_singleton.mp hmem
  · exact nomatch List.mem_singleton.mp hmem

theorem caught_up_iff_repeated :
    FollowsWelcome [.commit 1, .welcome, .commit 1] ∧
      Level (World.plainRun twoAdds) (firstJoiner [.commit 1, .welcome, .commit 1]) := by
  have hfollows : FollowsWelcome [.commit 1, .welcome, .commit 1] := ⟨1, by decide⟩
  refine ⟨hfollows, ?_⟩
  refine (caught_up_iff Scheme.plain_lawful admitted_twoAdds rfl (w := World.plainRun twoAdds) (j := 0) ?_ rfl rfl
    (fun n e' wel hn he' _ => followable_twoAdds hn he') peerFp none ?_ ?_ ?_).mpr (.inr hfollows)
  · exact (by decide : 2 < 2 ^ 32)
  · decide
  · intro n hn hlt
    obtain rfl : n = 1 := by
      have : n < 2 := hlt
      omega
    decide
  · intro n hn
    obtain rfl : n = 1 := by simpa using hn
    exact (by decide : 1 < 2)

/-- **The Welcome does not drain the buffer**: with the frames in the order commit 1, Welcome, the joiner
has everything and stays in epoch 1, while the host is in epoch 2. -/
theorem welcome_last_stays_behind :
    (World.plainRun twoAdds).host.epoch = 2 ∧
      (firstJoiner [.commit 1, .welcome]).group.map (·.epoch) = some 1 ∧
      ((firstJoiner [.commit 1, .welcome]).pendingCommits.lookup 1).isSome = true ∧
      ¬ Level (World.plainRun twoAdds) (firstJoiner [.commit 1, .welcome]) := by
  have hhost : (World.plainRun twoAdds).host.epoch = 2 := by decide +kernel
  have hepoch : (firstJoiner [.commit 1, .welcome]).group.map (·.epoch) = some 1 := by decide +kernel
  refine ⟨hhost, hepoch, by decide +kernel, ?_⟩
  rintro ⟨g, hg, hlevel, -⟩
  rw [hg, Option.map_some, hlevel, hhost] at hepoch
  cases hepoch

end CatchUp
end Talkrypt.Core
