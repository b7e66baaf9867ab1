import Talkrypt.Lib.Run
import Talkrypt.Crypto.TreeKem.Host

/-!
# A group over time

A world is a host, the log of the commits it has made, and the members, each of which applies the log
in order and at its own pace. Host operations, proposals, joins and applications interleave freely; a
member whose `apply_commit` fails is out (`live = false`). `World.Inv` is the invariant of every run
whose steps are `Admitted`: every live member agrees with the state the host had after the last
commit that the member has applied.
-/

namespace Talkrypt.TreeKem

variable {S : Scheme}

/-- One commit of the host, with the host before and after it. -/
structure Entry (S : Scheme) where
  before : Group S
  op : HostOp S
  coins : RekeyCoins S
  after : Group S
  commit : Commit S
  welcome : Option (Welcome S)

structure Member (S : Scheme) where
  group : Group S
  /-- How many commits of the log are behind this member. -/
  applied : Nat
  live : Bool
  joined : Nat
  /-- The leaf secrets it has drawn, for its key package and for its `Update`s. -/
  drawn : List S.Secret

structure World (S : Scheme) where
  founded : Group S
  host : Group S
  log : List (Entry S)
  members : List (Member S)

inductive Event (S : Scheme) where
  | host (op : HostOp S) (r : RekeyCoins S)
  | hostPropose (secret : S.Secret) (sig : S.SigSeed)
  | join (i : Nat) (kp : LeafKeyPair S)
  | propose (j : Nat) (secret : S.Secret) (sig : S.SigSeed)
  | apply (j : Nat)

namespace Member

def propose (m : Member S) (secret : S.Secret) (sig : S.SigSeed) : Member S :=
  { m with group := (m.group.proposeUpdate secret sig).1, drawn := secret :: m.drawn }

def apply (m : Member S) (log : List (Entry S)) : Member S :=
  if m.live then
    match log[m.applied]? with
    | none => m
    | some e =>
      match m.group.applyCommit e.commit with
      | (g, .ok ()) => { m with group := g, applied := m.applied + 1 }
      | (g, .error _) => { m with group := g, live := false }
  else m

end Member

namespace World

def create (profile : KemProfile) (mySig : S.SigSeed) (leafSecret : S.Secret) : World S :=
  let g := Group.createWithSig profile mySig leafSecret
  { founded := g, host := g, log := [], members := [] }

def step (w : World S) : Event S → World S
  | .host op r =>
    match op.exec w.host r with
    | (g, .ok (c, wel)) => { w with host := g, log := w.log ++ [⟨w.host, op, r, g, c, wel⟩] }
    | (g, .error _) => { w with host := g }
  | .hostPropose secret sig => { w with host := (w.host.proposeUpdate secret sig).1 }
  | .join i kp =>
    match (w.log[i]?).bind Entry.welcome with
    | none => w
    | some wel =>
      match Group.joinWithWelcome kp wel with
      | .ok g => { w with members := w.members ++ [⟨g, i + 1, true, i, [kp.secret]⟩] }
      | .error _ => w
  | .propose j secret sig => { w with members := w.members.modify j (·.propose secret sig) }
  | .apply j => { w with members := w.members.modify j (·.apply w.log) }

def run (profile : KemProfile) (mySig : S.SigSeed) (leafSecret : S.Secret) (evs : List (Event S)) :
    World S :=
  evs.foldl step (create profile mySig leafSecret)

def state (w : World S) : Nat → Option (Group S)
  | 0 => some w.founded
  | i + 1 => (w.log[i]?).map Entry.after

/-- A failed operation was refused: the host is as before, possibly with more room. It is not, when the
operation failed in the middle of sealing, to a leaf key that is no KEM key (`exec_refused`). -/
def Refused (g g' : Group S) : Prop :=
  g' = g ∨ g' = g.makeRoom ∧ g.makeRoom.firstFreeLeaf ≠ none

/-- The steps considered: leaf 0 is not removed, sealing does not fail, joiners use the Welcome made
for their key package, and every committed `Update` is the one its proposer has staged. -/
def Admitted (w : World S) : Event S → Prop
  | .host op r => op ≠ .remove 0 ∧ (∀ g f, op.exec w.host r = (g, .error f) → Refused w.host g) ∧
    ∀ b p, op.Proposes w.host b p → b.Staged p
  | .join i kp => ∀ e, w.log[i]? = some e → e.op = .add kp.keyPackage
  | .apply j => ∀ m e p, w.members[j]? = some m → w.log[m.applied]? = some e → p ∈ e.commit.proposals →
    m.group.Staged p
  | _ => True

end World

/-! ## Refused operations -/

section Refused
variable {g g' : Group S} {r : RekeyCoins S}

private theorem plain_refused {res : Group S × Except CryptoError (Commit S)} {f : Fault}
    (h : HostOp.plain res = (g', .error f)) : ∃ e, res = (g', .error e) := by
  obtain ⟨g₁, x⟩ := res
  cases x with
  | error e => cases h; exact ⟨e, rfl⟩
  | ok c => cases h

variable (hderive : ∀ profile s, S.Seals (S.derivePublic profile s)) (hg : g.Sealable)
include hderive hg

private theorem commitProposals_refused {p : Proposal S} {e : CryptoError}
    (hp : ∀ pk, p.newKey = some pk → S.Seals pk) (h : g.commitProposals r [p] = (g', .error e)) :
    g' = g := by
  unfold Group.commitProposals at h
  cases hcheck : g.checkProposal p with
  | error e' =>
    simp only [Group.applyProposals, hcheck, Prod.mk.injEq] at h
    exact h.1.symm
  | ok u =>
    rw [Group.applyProposals_singleton hcheck] at h
    obtain ⟨g₁, c, hrekey⟩ := (hg.enactProposal hp).rekeyPath_total hderive r [p] none
    exact absurd (hrekey.symm.trans h) (by simp)

/-- When sealing to the keys of the tree and to the key that comes in succeeds, every failed operation
was refused. -/
theorem World.exec_refused {op : HostOp S} {f : Fault}
    (hkey : ∀ b p, op.Proposes g b p → ∀ pk, p.newKey = some pk → S.Seals pk)
    (h : op.exec g r = (g', .error f)) : World.Refused g g' := by
  cases op with
  | add kp =>
    simp only [HostOp.exec] at h
    split at h
    · cases h
    · next g₁ f₁ hadd =>
      cases h
      unfold Group.add at hadd
      split at hadd
      · cases hadd; exact .inl rfl
      · next leaf hfree =>
        split at hadd
        · next hcommit =>
          cases hadd
          have hprop : (HostOp.add kp).Proposes g g.makeRoom _ := .add hfree
          exact .inr ⟨commitProposals_refused hderive (hg.proposes hprop) (hkey _ _ hprop) hcommit,
            by rw [hfree]; exact Option.some_ne_none _⟩
        · cases hadd
  | remove leaf =>
    obtain ⟨e, h⟩ := plain_refused h
    exact .inl (commitProposals_refused hderive hg (hkey _ _ .remove) h)
  | update newSig =>
    obtain ⟨e, h⟩ := plain_refused h
    unfold Group.update at h
    obtain ⟨g₁, c, hrekey⟩ := hg.rekeyPath_total hderive r [] (some (g.me, S.sigPublic newSig,
      S.sign newSig (popTranscript (S.sigPublic newSig))))
    rw [hrekey] at h
    cases h
  | commitUpdate leaf bytes =>
    obtain ⟨e, hup⟩ := plain_refused h
    unfold Group.commitUpdate at hup
    split at hup
    · cases hup; exact .inl rfl
    · next hdecode =>
      split at hup
      · split at hup
        · next heq =>
          subst heq
          exact .inl (commitProposals_refused hderive hg (hkey _ _ (.commitUpdate hdecode)) hup)
        · cases hup; exact .inl rfl
      · cases hup; exact .inl rfl

end Refused

/-! ## The founder's keys -/

namespace Group
variable {g g' b : Group S} {r : RekeyCoins S} {c : Commit S}

/-- Leaf 0 carries the keys whose secrets the host holds. -/
structure Founder (g : Group S) : Prop where
  key : ∃ s, g.secrets.lookup (.leaf 0) = some s ∧
    g.pubs.lookup (.leaf 0) = some (S.derivePublic g.profile s)
  sig : ∃ k, g.mySig = some k ∧ g.leafSigKeys.lookup 0 = some (S.sigPublic k)

theorem sig_enactProposal (hme : g.me = 0) (hsig : ∃ k, g.mySig = some k ∧
    g.leafSigKeys.lookup 0 = some (S.sigPublic k)) {p : Proposal S} (hstaged : g.Staged p)
    (hadd : ∀ leaf lp sp pop, p = .add leaf lp sp pop → leaf ≠ 0) (hremove : p ≠ .remove 0) :
    ∃ k, (g.enactProposal p).mySig = some k ∧
      (g.enactProposal p).leafSigKeys.lookup 0 = some (S.sigPublic k) := by
  obtain ⟨k, hk, hkey⟩ := hsig
  cases p with
  | add leaf lp sp pop =>
    exact ⟨k, hk, (AList.lookup_insert_ne (hadd _ _ _ _ rfl).symm).trans hkey⟩
  | remove leaf =>
    have hne : 0 ≠ leaf := fun heq => hremove (heq ▸ rfl)
    exact ⟨k, hk, (AList.lookup_erase_ne hne).trans hkey⟩
  | update leaf lp sp pop auth =>
    by_cases hleaf : leaf = g.me
    · obtain ⟨s', k', hkeys, -, hsp⟩ := hstaged hleaf
      refine ⟨k', ?_, ?_⟩
      · unfold installedKeys at hkeys
        cases hpend : g.pendingUpdate with
        | some kp =>
          simp only [hpend, Option.some.injEq, Prod.mk.injEq] at hkeys
          simp [enactProposal, blankPathAbove, installPending, setLeafKeys, hleaf, hpend, hkeys.2]
        | none =>
          cases hsec : g.secrets.lookup (.leaf g.me) with
          | none => simp [hpend, hsec] at hkeys
          | some s₀ =>
            simp only [hpend, hsec, hk, Option.some.injEq, Prod.mk.injEq] at hkeys
            simp [enactProposal, blankPathAbove, installPending, setLeafKeys, hleaf, hpend, hk, hkeys.2]
      · rw [leafSigKeys_enactProposal, hsp]
        exact if_pos (hme.symm.trans hleaf.symm)
    · refine ⟨k, ?_, ?_⟩
      · simpa [enactProposal, blankPathAbove, installPending, setLeafKeys, hleaf] using hk
      · rw [leafSigKeys_enactProposal]
        exact (if_neg fun h0 => hleaf (h0.symm.trans hme.symm)).trans hkey

theorem Rekeyed.founder_key {ps : List (Proposal S)} {su : Option (Nat × IdentityPublic × Bytes)}
    (h : g.Rekeyed r ps su g' c) (hg : g.Shape) :
    ∃ s, g'.secrets.lookup (.leaf 0) = some s ∧
      g'.pubs.lookup (.leaf 0) = some (S.derivePublic g'.profile s) := by
  obtain ⟨n, -, hcap⟩ := hg.capacity
  obtain ⟨hsecret, hpub⟩ := h.lookup_path hcap (Nat.zero_le n)
  rw [nodeAt_zero] at hsecret hpub
  refine ⟨r.fresh, hsecret, ?_⟩
  rw [hpub, h.group]
  rfl

theorem Founder.commits {op : HostOp S} (h : g.HostInv) (hf : g.Founder) (hop : op ≠ .remove 0)
    (hstaged : ∀ b p, op.Proposes g b p → b.Staged p) (hc : op.Commits g r g' c) : g'.Founder := by
  cases hc with
  | @proposal _ b _ p _ hprop hcheck hrekey =>
    obtain ⟨hb, hgrown, hadd⟩ := h.proposes hprop
    refine ⟨hrekey.founder_key (hb.shape.enactProposal hcheck), ?_⟩
    have hsig := sig_enactProposal hb.me (by rw [hgrown.mySig, hgrown.sigKeys]; exact hf.sig)
      (hstaged b p hprop) (fun leaf lp sp pop heq => (hadd leaf lp sp pop heq).2) (hprop.ne_remove hop)
    rw [hrekey.group]
    exact hsig
  | @rotation newSig g₁ _ hrekey =>
    have hkey := hrekey.founder_key h.shape
    have hme : g₁.me = 0 := (h.rekeyed hrekey).me
    refine ⟨hkey, newSig, rfl, ?_⟩
    simp only [rotateSig, hme]
    exact AList.lookup_insert _

theorem Founder.createWithSig (profile : KemProfile) (mySig : S.SigSeed) (s : S.Secret) :
    (Group.createWithSig profile mySig s).Founder :=
  ⟨⟨s, rfl, rfl⟩, mySig, rfl, rfl⟩

end Group

/-! ## The invariant -/

/-- A commit that the host made while leaf 0 was the founder's. -/
structure Entry.Made (e : Entry S) : Prop where
  before : e.before.HostInv
  op : e.op ≠ .remove 0
  commits : e.op.Commits e.before e.coins e.after e.commit
  welcome : e.op.MakesWelcome e.after e.commit e.welcome

namespace World
variable {w : World S}

/-- A commit of the log continues the state before it. -/
structure Linked (w : World S) (i : Nat) (e : Entry S) : Prop extends e.Made where
  grown : ∃ g, w.state i = some g ∧ g.HostInv ∧ g.Grown e.before
  founder : e.before.Founder

/-- A live member is in step with the host as of the last commit it has applied. -/
def InStep (w : World S) (m : Member S) : Prop :=
  m.live = true → ∃ g s k, w.state m.applied = some g ∧ g.Agrees m.group ∧ m.group.Holds s k

structure Inv (w : World S) : Prop where
  host : w.host.HostInv
  founder : w.host.Founder
  log : ∀ i e, w.log[i]? = some e → w.Linked i e
  last : ∃ g, w.state w.log.length = some g ∧ g.HostInv ∧ g.Grown w.host
  members : ∀ m ∈ w.members, w.InStep m

theorem Inv.create (hS : S.Lawful) (profile : KemProfile) (mySig : S.SigSeed) (s : S.Secret) :
    (create profile mySig s).Inv := by
  have hinv := Group.HostInv.createWithSig hS.verify_sign profile mySig s
  exact
    { host := hinv
      founder := .createWithSig profile mySig s
      log := fun i e he => by simp [World.create] at he
      last := ⟨_, rfl, hinv, .refl hinv.shape.length⟩
      members := fun m hm => by cases hm }

/-! ### Steps of the host -/

theorem state_append (host : Group S) (e : Entry S) (i : Nat) (g : Group S) (h : w.state i = some g) :
    ({ w with host, log := w.log ++ [e] } : World S).state i = some g := by
  cases i with
  | zero => exact h
  | succ i =>
    obtain ⟨e', he', rfl⟩ := Option.map_eq_some_iff.mp h
    simp only [World.state]
    rw [List.getElem?_append_left (List.getElem?_eq_some_iff.mp he').1, he']
    rfl

theorem Linked.mono {w' : World S} (h : w.Linked i e)
    (hstate : ∀ i g, w.state i = some g → w'.state i = some g) : w'.Linked i e := by
  obtain ⟨g, hg, hinv, hgrown⟩ := h.grown
  exact { h with grown := ⟨g, hstate i g hg, hinv, hgrown⟩ }

variable {g : Group S} {m : Member S}

theorem InStep.mono {w' : World S} (h : w.InStep m) (hstate : ∀ i g, w.state i = some g → w'.state i = some g) :
    w'.InStep m := by
  intro hlive
  obtain ⟨g, s, k, hg, hagree, hold⟩ := h hlive
  exact ⟨g, s, k, hstate _ g hg, hagree, hold⟩

private theorem Inv.commit (hS : S.Lawful) (h : w.Inv) {op : HostOp S} {r : RekeyCoins S} {c : Commit S}
    {wel : Option (Welcome S)} (hadm : w.Admitted (.host op r)) (hexec : op.exec w.host r = (g, .ok (c, wel))) :
    Inv { w with host := g, log := w.log ++ [⟨w.host, op, r, g, c, wel⟩] } := by
  obtain ⟨hop, -, hstaged⟩ := hadm
  obtain ⟨hcommits, hwelcome⟩ := HostOp.exec_eq_ok h.host.me hexec
  have hinv := h.host.commits hS.verify_sign hop hcommits
  have hstate := state_append (w := w) g ⟨w.host, op, r, g, c, wel⟩
  refine
    { host := hinv
      founder := h.founder.commits h.host hop hstaged hcommits
      log := fun i e he => ?_
      last := ⟨g, by simp [World.state], hinv, .refl hinv.shape.length⟩
      members := fun m hm => (h.members m hm).mono hstate }
  rcases getElem?_concat he with hold | ⟨rfl, rfl⟩
  · exact (h.log i e hold).mono hstate
  · obtain ⟨g₀, hg₀, hinv₀, hgrown₀⟩ := h.last
    exact
      { grown := ⟨g₀, hstate _ _ hg₀, hinv₀, hgrown₀⟩
        before := h.host
        founder := h.founder
        op := hop
        commits := hcommits
        welcome := hwelcome }

private theorem Inv.idle (h : w.Inv) (hinv : g.HostInv) (hfounder : g.Founder) (hgrown : w.host.Grown g) :
    Inv { w with host := g } := by
  obtain ⟨g₀, hg₀, hinv₀, hgrown₀⟩ := h.last
  have hstate : ∀ i g', w.state i = some g' → ({ w with host := g } : World S).state i = some g' := by
    rintro (_ | i) g' hg' <;> exact hg'
  exact
    { host := hinv
      founder := hfounder
      log := fun i e he => (h.log i e he).mono hstate
      last := ⟨g₀, hstate _ _ hg₀, hinv₀, hgrown₀.trans hinv₀.shape.length hgrown⟩
      members := fun m hm => (h.members m hm).mono hstate }

theorem proposeUpdate_fst (g : Group S) (secret : S.Secret) (sig : S.SigSeed) :
    ∃ pending, (g.proposeUpdate secret sig).1 = { g with pendingUpdate := pending } := by
  cases h : g.mySig with
  | none =>
    refine ⟨g.pendingUpdate, ?_⟩
    simp only [Group.proposeUpdate, h]
    rw [← h]
  | some current => exact ⟨some ⟨g.profile, secret, sig⟩, by simp [Group.proposeUpdate, h]⟩

private theorem Inv.hostPropose (h : w.Inv) (secret : S.Secret) (sig : S.SigSeed) :
    Inv { w with host := (w.host.proposeUpdate secret sig).1 } := by
  obtain ⟨pending, heq⟩ := proposeUpdate_fst w.host secret sig
  rw [heq]
  refine h.idle ?_ ⟨h.founder.key, h.founder.sig⟩ ?_
  · exact ⟨⟨h.host.shape.capacity, h.host.shape.length, h.host.shape.leaves, h.host.shape.inner⟩,
      h.host.me, h.host.occupied, h.host.sigKeys, h.host.pops⟩
  · exact { Group.Grown.refl h.host.shape.length with }

private theorem Inv.refused (h : w.Inv) (hg : Refused w.host g) : Inv { w with host := g } := by
  rcases hg with rfl | ⟨rfl, hfree⟩
  · exact h
  · have hgrown := Group.Grown.makeRoom h.host.shape hfree
    refine h.idle (h.host.makeRoom hfree) ⟨?_, ?_⟩ hgrown
    · have hsecrets : w.host.makeRoom.secrets = w.host.secrets := by
        unfold Group.makeRoom; split <;> rfl
      have hprofile : w.host.makeRoom.profile = w.host.profile := by
        unfold Group.makeRoom; split <;> rfl
      rw [hsecrets, hgrown.pubs, hprofile]
      exact h.founder.key
    · rw [hgrown.mySig, hgrown.sigKeys]
      exact h.founder.sig

/-! ### Steps of the members -/

private theorem Inv.setMembers (h : w.Inv) {members : List (Member S)}
    (hm : ∀ m ∈ members, w.InStep m) : Inv { w with members } := by
  have hstate : ∀ i g, w.state i = some g → ({ w with members } : World S).state i = some g := by
    rintro (_ | i) g hg <;> exact hg
  obtain ⟨g₀, hg₀, hlast⟩ := h.last
  exact
    { host := h.host
      founder := h.founder
      log := fun i e he => (h.log i e he).mono hstate
      last := ⟨g₀, hstate _ _ hg₀, hlast⟩
      members := fun m hmem => (hm m hmem).mono hstate }

theorem forall_mem_modify {α : Type} {P : α → Prop} {f : α → α} {l : List α} {j : Nat}
    (h : ∀ a ∈ l, P a) (hf : ∀ a, l[j]? = some a → P (f a)) : ∀ a ∈ l.modify j f, P a := by
  intro a ha
  obtain ⟨i, hi⟩ := List.mem_iff_getElem?.mp ha
  rw [List.getElem?_modify] at hi
  obtain ⟨a₀, ha₀, heq⟩ := Option.map_eq_some_iff.mp hi
  split at heq
  · next hij =>
    subst hij heq
    exact hf a₀ ha₀
  · subst heq
    exact h a₀ (List.mem_of_getElem? ha₀)

theorem InStep.propose (h : w.InStep m) (secret : S.Secret) (sig : S.SigSeed) : w.InStep (m.propose secret sig) := by
  intro hlive
  obtain ⟨g, s, k, hg, hagree, hold⟩ := h hlive
  obtain ⟨pending, heq⟩ := proposeUpdate_fst m.group secret sig
  refine ⟨g, s, k, hg, ?_, ?_⟩
  · simp only [Member.propose, heq]
    exact ⟨⟨⟨hagree.capacity, hagree.occupied, hagree.pubs⟩, hagree.sigKeys⟩, hagree.epoch,
      hagree.epochSecret⟩
  · simp only [Member.propose, heq]
    exact ⟨hold.pos, hold.occupied, hold.secret, hold.only, hold.key, hold.sig, hold.sigKey⟩

section Follow
variable {i : Nat} {e : Entry S} {g m : Group S} {s : S.Secret} {k : S.SigSeed}

theorem Linked.follow (hS : S.Lawful) (h : w.Linked i e) (hg : w.state i = some g) (hagree : g.Agrees m)
    (hm : m.Holds s k) (hstaged : ∀ p ∈ e.commit.proposals, m.Staged p)
    (hremove : .remove m.me ∉ e.commit.proposals) (hverify : m.verifyCommit e.commit = .ok ()) :
    ∃ m' s' k', m.applyCommit e.commit = (m', .ok ()) ∧ e.after.Agrees m' ∧ m'.Holds s' k' ∧
      m'.me = m.me ∧ m'.HoldsPath e.after := by
  obtain ⟨g₀, hg₀, hinv, hgrown⟩ := h.grown
  obtain rfl : g₀ = g := Option.some.inj (hg₀.symm.trans hg)
  have hcommits := h.commits
  obtain ⟨before, op, coins, after, commit, welcome⟩ := e
  cases hcommits with
  | @proposal _ b _ p _ hprop hcheck hrekey =>
    obtain ⟨hb, hroom, hadd⟩ := h.before.proposes hprop
    have hmem : p ∈ commit.proposals := by rw [hrekey.proposals]; exact List.mem_singleton_self p
    exact Group.applyCommit_proposal hS hagree hm hinv.shape.length
      (hgrown.trans hinv.shape.length hroom) hb.shape hcheck
      (fun leaf lp sp pop heq => (hadd leaf lp sp pop heq).1)
      (hb.occupied_enactProposal hcheck (hprop.ne_remove h.op))
      (fun heq => hremove (heq ▸ hmem)) (hstaged p hmem) hrekey hverify
  | rotation hrekey =>
    obtain ⟨m', hm'⟩ := Group.applyCommit_rotation hS hagree hm
      hinv.shape.length hgrown h.before.shape h.before.me h.before.occupied hrekey hverify
    exact ⟨m', s, k, hm'⟩

theorem Linked.removed (h : w.Linked i e) (hg : w.state i = some g) (hagree : g.Agrees m)
    (hm : m.Holds s k) (hremove : .remove m.me ∈ e.commit.proposals) :
    ∀ m', m.applyCommit e.commit ≠ (m', .ok ()) := by
  obtain ⟨g₀, hg₀, hinv, hgrown⟩ := h.grown
  obtain rfl : g₀ = g := Option.some.inj (hg₀.symm.trans hg)
  have hcommits := h.commits
  obtain ⟨before, op, coins, after, commit, welcome⟩ := e
  cases hcommits with
  | @proposal _ b _ p _ hprop hcheck hrekey =>
    obtain ⟨hb, hroom, -⟩ := h.before.proposes hprop
    obtain rfl : .remove m.me = p := by
      rw [hrekey.proposals] at hremove
      exact List.mem_singleton.mp hremove
    exact Group.applyCommit_removed hagree hm hinv.shape.length
      (hgrown.trans hinv.shape.length hroom) hb.shape hcheck
      (hb.occupied_enactProposal hcheck (hprop.ne_remove h.op)) hrekey
  | rotation hrekey =>
    rw [hrekey.proposals] at hremove
    cases hremove

/-- The committer check passes for every commit but an `Update` of leaf 0 itself, which is signed with
the key it installs. -/
theorem Linked.verifyCommit (hS : S.Lawful) (h : w.Linked i e) (hg : w.state i = some g)
    (hagree : g.Agrees m) (hop : ∀ bytes, e.op ≠ .commitUpdate 0 bytes) :
    m.verifyCommit e.commit = .ok () := by
  obtain ⟨g₀, hg₀, hinv, hgrown⟩ := h.grown
  obtain rfl : g₀ = g := Option.some.inj (hg₀.symm.trans hg)
  obtain ⟨key, hsig, hkey⟩ := h.founder.sig
  have hkey' : m.leafSigKeys.lookup HOST_LEAF = some (S.sigPublic key) := by
    rw [hagree.sigKeys, ← hgrown.sigKeys]
    exact hkey
  have hepoch : m.epoch = e.before.epoch := hagree.epoch.trans hgrown.epoch.symm
  have hcommits := h.commits
  obtain ⟨before, op, coins, after, commit, welcome⟩ := e
  cases hcommits with
  | @proposal _ b _ p _ hprop hcheck hrekey =>
    obtain ⟨hb, hroom, -⟩ := h.before.proposes hprop
    refine Group.verifyCommit_rekeyed hS hrekey ?_ hkey' ?_
    · -- only an `Update` of our own leaf changes the signing key
      rw [← hroom.mySig] at hsig
      cases hprop with
      | add => exact hsig
      | remove => exact hsig
      | @commitUpdate leaf bytes lp sp pop auth hdecode =>
        have hne : leaf ≠ before.me := by
          rw [show before.me = 0 from h.before.me]
          rintro rfl
          exact hop bytes rfl
        simpa [Group.enactProposal, Group.blankPathAbove, Group.installPending, Group.setLeafKeys, hne]
          using hsig
    · rw [Group.enactProposal_epoch, hroom.epoch, hepoch]
  | rotation hrekey => exact Group.verifyCommit_rekeyed hS hrekey hsig hkey' hepoch

theorem Linked.join (hS : S.Lawful) (h : w.Linked i e) {kp : LeafKeyPair S}
    (hop : e.op = .add kp.keyPackage) :
    ∃ wel m, e.welcome = some wel ∧ Group.joinWithWelcome kp wel = .ok m ∧ e.after.Agrees m ∧
      m.Holds kp.secret kp.sig ∧ m.HoldsPath e.after := by
  obtain ⟨leaf, hwel, hprops⟩ : ∃ leaf, e.welcome = some (e.after.welcomeFor leaf e.commit) ∧
      e.commit.proposals = [.add leaf kp.keyPackage.leafPublic kp.keyPackage.sigPublic
        kp.keyPackage.pop] := by
    have := h.welcome
    rwa [hop] at this
  have hcommits := h.commits
  rw [hop] at hcommits
  obtain ⟨m, hm⟩ := Group.joinWithWelcome_agrees hS h.before hcommits hprops
  exact ⟨_, m, hwel, hm⟩

theorem applyCommit_verify {m' : Group S} {c : Commit S} (h : m.applyCommit c = (m', .ok ())) :
    m.verifyCommit c = .ok () := by
  unfold Group.applyCommit at h
  cases hverify : m.verifyCommit c with
  | error e => simp [hverify] at h
  | ok u => rfl

theorem Linked.applied (hS : S.Lawful) (h : w.Linked i e) (hg : w.state i = some g) (hagree : g.Agrees m)
    (hm : m.Holds s k) (hstaged : ∀ p ∈ e.commit.proposals, m.Staged p) {m' : Group S}
    (happly : m.applyCommit e.commit = (m', .ok ())) :
    ∃ s' k', e.after.Agrees m' ∧ m'.Holds s' k' ∧ m'.me = m.me ∧ m'.HoldsPath e.after := by
  have hremove : .remove m.me ∉ e.commit.proposals := fun hmem => h.removed hg hagree hm hmem m' happly
  obtain ⟨m'', s', k', happly', hm'⟩ := h.follow hS hg hagree hm hstaged hremove (applyCommit_verify happly)
  obtain rfl : m'' = m' := congrArg Prod.fst (happly'.symm.trans happly)
  exact ⟨s', k', hm'⟩

end Follow

theorem apply_cases (m : Member S) (log : List (Entry S)) :
    m.apply log = m ∨ ∃ e g, m.live = true ∧ log[m.applied]? = some e ∧
      (m.group.applyCommit e.commit = (g, .ok ()) ∧ m.apply log = { m with group := g, applied := m.applied + 1 } ∨
        (∃ err, m.group.applyCommit e.commit = (g, .error err)) ∧ m.apply log = { m with group := g, live := false }) := by
  unfold Member.apply
  split
  · next hlive =>
    split
    · exact .inl rfl
    · next e he =>
      split
      · next g hok => exact .inr ⟨e, g, hlive, he, .inl ⟨hok, rfl⟩⟩
      · next g err herr => exact .inr ⟨e, g, hlive, he, .inr ⟨⟨err, herr⟩, rfl⟩⟩
  · exact .inl rfl

theorem InStep.apply (hS : S.Lawful) (h : w.Inv) (hm : w.InStep m)
    (hstaged : ∀ e p, w.log[m.applied]? = some e → p ∈ e.commit.proposals → m.group.Staged p) :
    w.InStep (m.apply w.log) := by
  rcases apply_cases m w.log with heq | ⟨e, g', hlive, he, ⟨happly, heq⟩ | ⟨-, heq⟩⟩
  · rwa [heq]
  · obtain ⟨g, s, k, hg, hagree, hold⟩ := hm hlive
    obtain ⟨s', k', hagree', hholds, -⟩ := (h.log _ _ he).applied hS hg hagree hold (fun p => hstaged e p he) happly
    rw [heq]
    exact fun _ => ⟨e.after, s', k', by simp [World.state, he], hagree', hholds⟩
  · rw [heq]
    exact fun hdead => nomatch hdead

private theorem Inv.join (hS : S.Lawful) (h : w.Inv) {i : Nat} {kp : LeafKeyPair S}
    (hadm : w.Admitted (.join i kp)) : (w.step (.join i kp)).Inv := by
  cases he : w.log[i]? with
  | none => simpa [World.step, he] using h
  | some e =>
    obtain ⟨wel, m, hwel, hjoin, hagree, hold, -⟩ := (h.log i e he).join hS (hadm e he)
    simp only [World.step, he, Option.bind_some, hwel, hjoin]
    refine h.setMembers fun m' hm' => ?_
    rcases List.mem_append.mp hm' with hmem | hmem
    · exact h.members m' hmem
    · obtain rfl := List.mem_singleton.mp hmem
      exact fun _ => ⟨e.after, kp.secret, kp.sig, by simp [World.state, he], hagree, hold⟩

theorem Inv.step (hS : S.Lawful) (w : World S) (ev : Event S) (h : w.Inv) (hadm : w.Admitted ev) :
    (w.step ev).Inv := by
  cases ev with
  | host op r =>
    cases hexec : op.exec w.host r with
    | mk g res =>
      cases res with
      | error f =>
        simp only [World.step, hexec]
        exact h.refused (hadm.2.1 g f hexec)
      | ok cw =>
        simp only [World.step, hexec]
        exact h.commit hS hadm hexec
  | hostPropose secret sig => exact h.hostPropose secret sig
  | join i kp => exact h.join hS hadm
  | propose j secret sig =>
    refine h.setMembers (forall_mem_modify h.members fun m hm => ?_)
    exact (h.members m (List.mem_of_getElem? hm)).propose secret sig
  | apply j =>
    refine h.setMembers (forall_mem_modify h.members fun m hm => ?_)
    exact (h.members m (List.mem_of_getElem? hm)).apply hS h fun e p => hadm m e p hm

theorem Inv.run (hS : S.Lawful) {profile : KemProfile} {mySig : S.SigSeed} {s : S.Secret}
    {evs : List (Event S)} (h : Run.Along World.step Admitted (World.create profile mySig s) evs) :
    (run profile mySig s evs).Inv :=
  h.invariant (Inv.step hS) (Inv.create hS profile mySig s)

/-! ## Epochs -/

theorem founded_step (w : World S) (ev : Event S) : (w.step ev).founded = w.founded := by
  cases ev with
  | host op r =>
    simp only [World.step]
    split <;> rfl
  | join i kp =>
    simp only [World.step]
    split
    · rfl
    · split <;> rfl
  | _ => rfl

theorem founded_run (profile : KemProfile) (mySig : S.SigSeed) (s : S.Secret) (evs : List (Event S)) :
    (run profile mySig s evs).founded = Group.createWithSig profile mySig s :=
  Run.Along.invariant (I := fun w => w.founded = Group.createWithSig profile mySig s)
    (fun w ev hw _ => (founded_step w ev).trans hw) rfl Run.along_true

theorem Linked.epoch {i : Nat} {e : Entry S} (h : w.Linked i e) : e.after.epoch = (e.before.epoch + 1) % 2 ^ 32 := by
  have hcommits := h.commits
  obtain ⟨before, op, coins, after, commit, welcome⟩ := e
  cases hcommits with
  | proposal hprop hcheck hrekey =>
    obtain ⟨-, hroom, -⟩ := h.before.proposes hprop
    rw [hrekey.group]
    simp only [Group.advance, Group.resetEpoch, Group.installPath, Group.enactProposal_epoch, hroom.epoch]
  | rotation hrekey =>
    rw [hrekey.group]
    rfl

theorem Inv.state_epoch (h : w.Inv) (hfounded : w.founded.epoch = 0) {n : Nat} (hg : w.state n = some g) :
    g.epoch = n % 2 ^ 32 := by
  induction n generalizing g with
  | zero =>
    cases hg
    exact hfounded
  | succ n ih =>
    obtain ⟨e, he, rfl⟩ := Option.map_eq_some_iff.mp hg
    have hlinked := h.log n e he
    obtain ⟨g₀, hg₀, -, hgrown⟩ := hlinked.grown
    rw [hlinked.epoch, hgrown.epoch, ih hg₀]
    omega

end World
end Talkrypt.TreeKem
