import Talkrypt.Crypto.TreeKem.Member

/-!
# The host

The four host operations under one type, what a successful one does (`HostOp.Commits`), and the
invariant of the host's group that they keep as long as leaf 0 is not removed (`HostInv`). A joiner
that uses the Welcome of its own `add` starts out in agreement with the host
(`joinWithWelcome_agrees`).
-/

namespace Talkrypt.TreeKem

variable {S : Scheme}

inductive HostOp (S : Scheme) where
  | add (kp : KeyPackage S)
  | remove (leaf : Nat)
  | update (newSig : S.SigSeed)
  | commitUpdate (proposerLeaf : Nat) (proposalBytes : Bytes)

namespace HostOp

/-- The result of an operation that makes no Welcome. -/
def plain (r : Group S × Except CryptoError (Commit S)) :
    Group S × Except Fault (Commit S × Option (Welcome S)) :=
  match r with
  | (g, .ok c) => (g, .ok (c, none))
  | (g, .error e) => (g, .error (.error e))

def exec (g : Group S) (r : RekeyCoins S) :
    HostOp S → Group S × Except Fault (Commit S × Option (Welcome S))
  | .add kp =>
    match g.add r kp with
    | (g, .ok (_, c, w)) => (g, .ok (c, some w))
    | (g, .error f) => (g, .error f)
  | .remove leaf => plain (g.remove r leaf)
  | .update newSig => plain (g.update r newSig)
  | .commitUpdate leaf bytes => plain (g.commitUpdate r leaf bytes)

/-- The proposal that an operation commits, and the tree (with room for an `add`) it commits it in. -/
inductive Proposes (g : Group S) : HostOp S → Group S → Proposal S → Prop
  | add {kp : KeyPackage S} {leaf : Nat} (hfree : g.makeRoom.firstFreeLeaf = some leaf) :
    Proposes g (.add kp) g.makeRoom (.add leaf kp.leafPublic kp.sigPublic kp.pop)
  | remove {leaf : Nat} : Proposes g (.remove leaf) g (.remove leaf)
  | commitUpdate {leaf : Nat} {bytes : Bytes} {lp : S.Public} {sp : IdentityPublic} {pop auth : Bytes}
    (hdecode : Proposal.decode S g.profile bytes = .ok (.update leaf lp sp pop auth)) :
    Proposes g (.commitUpdate leaf bytes) g (.update leaf lp sp pop auth)

inductive Commits (g : Group S) (r : RekeyCoins S) : HostOp S → Group S → Commit S → Prop
  | proposal {op : HostOp S} {b g' : Group S} {p : Proposal S} {c : Commit S} (hop : Proposes g op b p)
    (hcheck : b.checkProposal p = .ok ()) (hrekey : (b.enactProposal p).Rekeyed r [p] none g' c) :
    Commits g r op g' c
  | rotation {newSig : S.SigSeed} {g' : Group S} {c : Commit S}
    (hrekey : g.Rekeyed r [] (some (0, S.sigPublic newSig,
      S.sign newSig (popTranscript (S.sigPublic newSig)))) g' c) :
    Commits g r (.update newSig) (g'.rotateSig newSig) c

variable {g g' : Group S} {c : Commit S} {r : RekeyCoins S}

theorem Proposes.ne_remove {b : Group S} {op : HostOp S} {p : Proposal S} {leaf : Nat} (h : Proposes g op b p)
    (hop : op ≠ .remove leaf) : p ≠ .remove leaf := by
  rintro rfl
  cases h
  exact hop rfl

theorem commitProposals_eq_ok {p : Proposal S} (hme : g.me = 0) (h : g.commitProposals r [p] = (g', .ok c)) :
    g.checkProposal p = .ok () ∧ (g.enactProposal p).Rekeyed r [p] none g' c := by
  unfold Group.commitProposals at h
  cases hp : g.checkProposal p with
  | error e => simp [Group.applyProposals, hp] at h
  | ok u =>
    rw [Group.applyProposals_singleton hp] at h
    exact ⟨rfl, Group.rekeyPath_eq_ok ((Group.enactProposal_me g p).trans hme) h⟩

theorem plain_eq_ok {r : Group S × Except CryptoError (Commit S)} {w : Option (Welcome S)}
    (h : plain r = (g', .ok (c, w))) : r = (g', .ok c) ∧ w = none := by
  obtain ⟨g, r⟩ := r
  cases r with
  | error e => cases h
  | ok c => cases h; exact ⟨rfl, rfl⟩

theorem makeRoom_me (g : Group S) : g.makeRoom.me = g.me := by
  unfold Group.makeRoom; split <;> rfl

theorem makeRoom_pubs (g : Group S) : g.makeRoom.pubs = g.pubs := by
  unfold Group.makeRoom; split <;> rfl

/-- The Welcome that an operation makes: `add` makes one for the leaf it returns. -/
def MakesWelcome (g' : Group S) (c : Commit S) : HostOp S → Option (Welcome S) → Prop
  | .add kp, w => ∃ leaf, w = some (g'.welcomeFor leaf c) ∧
    c.proposals = [.add leaf kp.leafPublic kp.sigPublic kp.pop]
  | _, w => w = none

theorem add_eq_ok {kp : KeyPackage S} {leaf : Nat} {w : Welcome S} (hme : g.me = 0)
    (h : g.add r kp = (g', .ok (leaf, c, w))) :
    w = g'.welcomeFor leaf c ∧
      Proposes g (.add kp) g.makeRoom (.add leaf kp.leafPublic kp.sigPublic kp.pop) ∧
      g.makeRoom.checkProposal (.add leaf kp.leafPublic kp.sigPublic kp.pop) = .ok () ∧
      (g.makeRoom.enactProposal (.add leaf kp.leafPublic kp.sigPublic kp.pop)).Rekeyed r
        [.add leaf kp.leafPublic kp.sigPublic kp.pop] none g' c := by
  unfold Group.add at h
  split at h
  · cases h
  · next l hfree =>
    split at h
    · cases h
    · next g₁ c₁ hcommit =>
      cases h
      exact ⟨rfl, .add hfree, commitProposals_eq_ok ((makeRoom_me g).trans hme) hcommit⟩

theorem exec_eq_ok {op : HostOp S} {w : Option (Welcome S)} (hme : g.me = 0) (h : op.exec g r = (g', .ok (c, w))) :
    Commits g r op g' c ∧ op.MakesWelcome g' c w := by
  cases op with
  | add kp =>
    simp only [exec] at h
    split at h
    · next hadd =>
      cases h
      obtain ⟨rfl, hprop, hcheck, hrekey⟩ := add_eq_ok hme hadd
      exact ⟨.proposal hprop hcheck hrekey, _, rfl, hrekey.proposals⟩
    · cases h
  | remove leaf =>
    obtain ⟨hop, rfl⟩ := plain_eq_ok h
    obtain ⟨hcheck, hrekey⟩ := commitProposals_eq_ok hme hop
    exact ⟨.proposal .remove hcheck hrekey, rfl⟩
  | update newSig =>
    obtain ⟨hop, rfl⟩ := plain_eq_ok h
    unfold Group.update at hop
    split at hop
    · cases hop
    · next g₁ c₁ hrekey =>
      cases hop
      rw [hme] at hrekey
      exact ⟨.rotation (Group.rekeyPath_eq_ok hme hrekey), rfl⟩
  | commitUpdate leaf bytes =>
    obtain ⟨hop, rfl⟩ := plain_eq_ok h
    unfold Group.commitUpdate at hop
    split at hop
    · cases hop
    · next prop hdecode =>
      split at hop
      · next lf lp sp pop auth =>
        split at hop
        · next heq =>
          subst heq
          obtain ⟨hcheck, hrekey⟩ := commitProposals_eq_ok hme hop
          exact ⟨.proposal (.commitUpdate hdecode) hcheck hrekey, rfl⟩
        · cases hop
      · cases hop

end HostOp

/-! ## The invariant of the host -/

namespace Group
variable {g g' b : Group S} {r : RekeyCoins S} {c : Commit S}

structure HostInv (g : Group S) : Prop where
  shape : g.Shape
  me : g.me = 0
  occupied : g.isOccupied 0 = true
  sigKeys : ∀ l, (g.leafSigKeys.lookup l).isSome = g.isOccupied l
  /-- Every bound signing key comes with its proof of possession. -/
  pops : ∀ l key, g.leafSigKeys.lookup l = some key →
    ∃ pop, g.leafPops.lookup l = some pop ∧ verifyPop S key pop = .ok ()

namespace HostInv

theorem createWithSig (hsig : S.SigCorrect) (profile : KemProfile) (mySig : S.SigSeed) (s : S.Secret) :
    (Group.createWithSig profile mySig s).HostInv := by
  -- the founder's path is installed in a tree whose only occupied leaf is 0
  have hlookup : ∀ {V : Type} (l : Nat) (v : V),
      ((∅ : Table Nat V).insert 0 v).lookup l = if l = 0 then some v else none := by
    intro V l v
    rw [Table.lookup_insert_eq, AList.lookup_empty]
  have hocc : ∀ l, (Group.createWithSig profile mySig s).isOccupied l = decide (l = 0) := by
    intro l
    rcases l with _ | _ | l <;> rfl
  refine ⟨⟨⟨1, by decide, rfl⟩, rfl, fun l => ?_, fun n hn hspan => ?_⟩, rfl, rfl, fun l => ?_,
    fun l key hl => ?_⟩
  · rw [hocc]
    refine (congrArg Option.isSome (Table.lookup_insertAll ..)).trans ?_
    rw [AList.lookup_empty, Option.or_none, Bool.eq_iff_iff, Table.isSome_lastOf, List.map_map,
      decide_eq_true_iff, ← leaf_mem_hostPath (k := 1)]
    simp only [Function.comp_def, chainUp_map_fst, pow_one]
  · have hn' := congrArg Option.isSome (Table.lookup_insertAll (∅ : Table Node S.Public)
      ((chainUp s (pathToRoot 2 0)).map fun e => (e.1, S.derivePublic profile e.2)) n)
    rw [AList.lookup_empty, Option.or_none] at hn'
    have hmem := Table.isSome_lastOf.mp (hn'.symm.trans hn)
    rw [List.map_map] at hmem
    simp only [Function.comp_def, chainUp_map_fst] at hmem
    obtain ⟨i, -, rfl⟩ := mem_hostPath.mp (show n ∈ pathToRoot (2 ^ 1) 0 from hmem)
    rfl
  · rw [hocc]
    refine (congrArg Option.isSome (hlookup l (S.sigPublic mySig))).trans ?_
    split <;> simp_all
  · have hl' := (hlookup l (S.sigPublic mySig)).symm.trans hl
    split at hl'
    · next h0 =>
      cases hl'
      exact ⟨_, (hlookup l _).trans (if_pos h0), LeafKeyPair.verifyPop_pop hsig mySig⟩
    · cases hl'

theorem occupied_enactProposal (h : g.HostInv) {p : Proposal S} (hp : g.checkProposal p = .ok ())
    (hremove : p ≠ .remove 0) : (g.enactProposal p).isOccupied 0 = true := by
  rw [isOccupied_enactProposal hp]
  split
  · next h0 =>
    cases p with
    | add | update => rfl
    | remove leaf => exact absurd (congrArg Proposal.remove h0.symm) hremove
  · exact h.occupied

theorem enactProposal (h : g.HostInv) {p : Proposal S} (hp : g.checkProposal p = .ok ())
    (hremove : p ≠ .remove 0) : (g.enactProposal p).HostInv := by
  refine ⟨h.shape.enactProposal hp, (enactProposal_me g p).trans h.me,
    h.occupied_enactProposal hp hremove, fun l => ?_, fun l key hl => ?_⟩
  · rw [isOccupied_enactProposal hp, leafSigKeys_enactProposal]
    split
    · cases p <;> rfl
    · exact h.sigKeys l
  · rw [leafSigKeys_enactProposal] at hl
    rw [leafPops_enactProposal]
    split at hl
    · next heq =>
      rw [if_pos heq]
      exact checkProposal_newPop hp hl
    · next hne =>
      rw [if_neg hne]
      exact h.pops l key hl

theorem rekeyed {ps : List (Proposal S)} {su : Option (Nat × IdentityPublic × Bytes)} (h : g.HostInv)
    (hr : g.Rekeyed r ps su g' c) : g'.HostInv := by
  have hshape := hr.shape h.shape h.occupied
  rw [hr.group] at hshape ⊢
  exact ⟨hshape, h.me, h.occupied, h.sigKeys, h.pops⟩

theorem rotateSig (hsig : S.SigCorrect) (h : g.HostInv) (newSig : S.SigSeed) : (g.rotateSig newSig).HostInv := by
  refine ⟨⟨h.shape.capacity, h.shape.length, h.shape.leaves, h.shape.inner⟩, h.me, h.occupied,
    fun l => ?_, fun l key hl => ?_⟩
  · refine (congrArg Option.isSome (Table.lookup_insert_eq g.leafSigKeys g.me _ l)).trans ?_
    split
    · next heq => rw [heq, h.me]; exact h.occupied.symm
    · exact h.sigKeys l
  · have hl' := (Table.lookup_insert_eq g.leafSigKeys g.me _ l).symm.trans hl
    have hpops := Table.lookup_insert_eq g.leafPops g.me
      (S.sign newSig (popTranscript (S.sigPublic newSig))) l
    split at hl'
    · next heq =>
      cases hl'
      exact ⟨_, hpops.trans (if_pos heq), LeafKeyPair.verifyPop_pop hsig newSig⟩
    · next hne =>
      obtain ⟨pop', hpop', hverify⟩ := h.pops l key hl'
      exact ⟨pop', (hpops.trans (if_neg hne)).trans hpop', hverify⟩

theorem makeRoom (h : g.HostInv) (hfree : g.makeRoom.firstFreeLeaf ≠ none) : g.makeRoom.HostInv := by
  have hgrown := Grown.makeRoom h.shape hfree
  have hocc := hgrown.isOccupied h.shape.length
  have hshape : g.makeRoom.Shape := by
    unfold Group.makeRoom at hfree ⊢
    split
    · next hnone => exact h.shape.doubleCapacity (by rwa [if_pos hnone] at hfree)
    · exact h.shape
  refine ⟨hshape, hgrown.me.trans h.me, (hocc 0).trans h.occupied, fun l => ?_, fun l key hl => ?_⟩
  · rw [hgrown.sigKeys, hocc, h.sigKeys]
  · rw [hgrown.sigKeys] at hl
    rw [hgrown.pops]
    exact h.pops l key hl

end HostInv

variable {op : HostOp S}

theorem HostInv.proposes {p : Proposal S} (h : g.HostInv) (hop : op.Proposes g b p) :
    b.HostInv ∧ Grown g b ∧
      ∀ leaf lp sp pop, p = .add leaf lp sp pop → b.isOccupied leaf = false ∧ leaf ≠ 0 := by
  cases hop with
  | add hfree =>
    have hne : g.makeRoom.firstFreeLeaf ≠ none := by rw [hfree]; exact Option.some_ne_none _
    have hroom := h.makeRoom hne
    refine ⟨hroom, Grown.makeRoom h.shape hne, ?_⟩
    rintro leaf lp sp pop heq
    cases heq
    have hocc := (firstFreeLeaf_eq_some hfree).2
    refine ⟨hocc, ?_⟩
    rintro rfl
    rw [hroom.occupied] at hocc
    cases hocc
  | remove => exact ⟨h, .refl h.shape.length, fun _ _ _ _ heq => nomatch heq⟩
  | commitUpdate => exact ⟨h, .refl h.shape.length, fun _ _ _ _ heq => nomatch heq⟩

theorem HostInv.commits (hsig : S.SigCorrect) (h : g.HostInv) (hop : op ≠ .remove 0) (hc : op.Commits g r g' c) :
    g'.HostInv := by
  cases hc with
  | proposal hprop hcheck hrekey =>
    obtain ⟨hb, -, -⟩ := h.proposes hprop
    exact (hb.enactProposal hcheck (hprop.ne_remove hop)).rekeyed hrekey
  | rotation hrekey => exact (h.rekeyed hrekey).rotateSig hsig _

def Occupies (l : Nat) (before : Bool) : Proposal S → Bool
  | .add leaf .. => if l = leaf then true else before
  | .remove leaf => if l = leaf then false else before
  | .update .. => before

theorem HostInv.isOccupied_commit {p : Proposal S} (h : g.HostInv) (hop : op.Proposes g b p)
    (hcheck : b.checkProposal p = .ok ()) (hrekey : (b.enactProposal p).Rekeyed r [p] none g' c) (l : Nat) :
    g'.isOccupied l = Occupies l (g.isOccupied l) p := by
  have hocc : b.isOccupied l = g.isOccupied l := (h.proposes hop).2.1.isOccupied h.shape.length l
  rw [hrekey.group]
  refine (isOccupied_enactProposal hcheck l).trans ?_
  cases p with
  | add | remove =>
    simp only [hocc, Occupies, Proposal.leaf, Proposal.newKey]
    rfl
  | update leaf =>
    simp only [hocc, Occupies, Proposal.leaf, Proposal.newKey]
    split
    · next heq => rw [heq, ← (h.proposes hop).2.1.isOccupied h.shape.length, (checkProposal_update hcheck).2.1]; rfl
    · rfl

section Sealable
variable (hderive : ∀ profile s, S.Seals (S.derivePublic profile s)) (hg : g.Sealable)
include hg

theorem Sealable.proposes {op : HostOp S} {p : Proposal S} (hop : op.Proposes g b p) : b.Sealable := by
  cases hop with
  | add =>
    intro n pk hpk
    rw [HostOp.makeRoom_pubs] at hpk
    exact hg n pk hpk
  | remove => exact hg
  | commitUpdate => exact hg

include hderive

theorem Sealable.commits {op : HostOp S}
    (hkey : ∀ b p, op.Proposes g b p → ∀ pk, p.newKey = some pk → S.Seals pk)
    (hc : op.Commits g r g' c) : g'.Sealable := by
  cases hc with
  | proposal hop hcheck hrekey =>
    rw [hrekey.group]
    exact ((hg.proposes hop).enactProposal (hkey _ _ hop)).installPath hderive _
  | rotation hrekey =>
    rw [hrekey.group]
    exact hg.installPath hderive _

theorem Sealable.remove_total (r : RekeyCoins S) {leaf : Nat} (hlt : leaf < g.occupied.length) :
    ∃ g' c, g.remove r leaf = (g', .ok c) := by
  have hcheck : g.checkProposal (.remove leaf) = .ok () :=
    if_neg (c := (Proposal.remove (S := S) leaf).leaf ≥ g.occupied.length) hlt.not_ge
  obtain ⟨g', c, hrekey⟩ := (hg.enactProposal (p := .remove leaf) nofun).rekeyPath_total hderive r
    [.remove leaf] none
  refine ⟨g', c, ?_⟩
  rw [Group.remove, commitProposals, applyProposals_singleton hcheck]
  exact hrekey

end Sealable

/-! ## Joining -/

section Join
variable {kp : LeafKeyPair S} {leaf : Nat}

private theorem map_filterMap_eq {α β : Type} {f : α → Option β} {f' : β → α} :
    ∀ {l : List α}, (∀ a ∈ l, ∃ x, f a = some x ∧ f' x = a) → (l.filterMap f).map f' = l
  | [], _ => rfl
  | a :: l, h => by
    obtain ⟨x, hx, hfx⟩ := h a List.mem_cons_self
    rw [List.filterMap_cons_some hx, List.map_cons, hfx,
      map_filterMap_eq fun a ha => h a (List.mem_cons_of_mem _ ha)]

theorem HostInv.welcome_sigKeys (h : g.HostInv) :
    (g.welcomeFor leaf c).sigKeys.map (fun e => (e.1, e.2.2.1)) = g.leafSigKeys.toList := by
  refine map_filterMap_eq fun e he => ?_
  obtain ⟨l, key⟩ := e
  have hl := Table.mem_toList.mp he
  obtain ⟨pop, hpop, -⟩ := h.pops l key hl
  have hpub : (g.pubs.lookup (.leaf l)).isSome = true := by
    rw [h.shape.leaves, ← h.sigKeys, hl]
    rfl
  obtain ⟨lp, hlp⟩ := Option.isSome_iff_exists.mp hpub
  exact ⟨(l, lp, key, pop), by simp [hlp, hpop], rfl⟩

theorem HostInv.welcome_verifyPop (h : g.HostInv) {e : Nat × S.Public × IdentityPublic × Bytes}
    (he : e ∈ (g.welcomeFor leaf c).sigKeys) : verifyPop S e.2.2.1 e.2.2.2 = .ok () := by
  obtain ⟨⟨l, key⟩, hl, hsome⟩ := List.mem_filterMap.mp he
  obtain ⟨pop, hpop, hverify⟩ := h.pops l key (Table.mem_toList.mp hl)
  cases hlp : g.pubs.lookup (.leaf l) with
  | none => simp [hlp] at hsome
  | some lp =>
    simp only [hlp, hpop, Option.pure_def, Option.bind_eq_bind, Option.bind_some,
      Option.some.injEq] at hsome
    rw [← hsome]
    exact hverify

theorem joinWithWelcome_agrees (hS : S.Lawful) (h : g.HostInv)
    (hc : (HostOp.add kp.keyPackage).Commits g r g' c)
    (hleaf : c.proposals = [.add leaf kp.keyPackage.leafPublic kp.keyPackage.sigPublic kp.keyPackage.pop]) :
    ∃ m, joinWithWelcome kp (g'.welcomeFor leaf c) = .ok m ∧ Agrees g' m ∧ m.Holds kp.secret kp.sig ∧
      m.HoldsPath g' := by
  have hop : HostOp.add kp.keyPackage ≠ .remove 0 := nofun
  have hg' := h.commits hS.verify_sign hop hc
  obtain ⟨b, p, hprop, hcheck, hrekey⟩ : ∃ b p, (HostOp.add kp.keyPackage).Proposes g b p ∧
      b.checkProposal p = .ok () ∧ (b.enactProposal p).Rekeyed r [p] none g' c := by
    cases hc with
    | proposal hprop hcheck hrekey => exact ⟨_, _, hprop, hcheck, hrekey⟩
  obtain ⟨hb, -, hfree⟩ := h.proposes hprop
  have hp : p = .add leaf kp.keyPackage.leafPublic kp.keyPackage.sigPublic kp.keyPackage.pop := by
    simpa [hrekey.proposals] using hleaf
  subst hp
  obtain ⟨-, hne⟩ := hfree _ _ _ _ rfl
  have hpre := hb.enactProposal hcheck (fun heq => nomatch heq)
  have hnodePub : g'.pubs.lookup (.leaf leaf) = some kp.keyPackage.leafPublic := by
    rw [hrekey.lookup_leaf hpre.shape hne]
    exact (lookup_leaf_eraseAll hb.shape.capacity _ leaf leaf).trans (AList.lookup_insert _)
  have hsigKey : g'.leafSigKeys.lookup leaf = some (S.sigPublic kp.sig) := by
    rw [hrekey.group]
    exact AList.lookup_insert _
  have hocc : g'.isOccupied leaf = true := by rw [← hg'.sigKeys, hsigKey]; rfl
  -- the joiner's tree is the host's
  have hsame : SameNodes g' ((joining kp (g'.welcomeFor leaf c)).adoptPath c) := by
    have hcollect : Table.Same (joining kp (g'.welcomeFor leaf c)).pubs g'.pubs :=
      Table.Same.collect_toList g'.pubs
    exact ⟨rfl, rfl, (hcollect.insertAll _).trans hrekey.insertAll_pubUpdates⟩
  have hsig : Table.Same (joining kp (g'.welcomeFor leaf c)).leafSigKeys g'.leafSigKeys := by
    intro l
    refine (Table.lookup_insert_eq ..).trans ?_
    rw [hg'.welcome_sigKeys]
    split
    · next heq => rw [heq]; exact hsigKey.symm
    · exact Table.Same.collect_toList g'.leafSigKeys l
  have hold : ((joining kp (g'.welcomeFor leaf c)).adoptPath c).Holds kp.secret kp.sig := by
    refine ⟨Nat.pos_of_ne_zero hne, hocc, AList.lookup_insert _, fun l hl => ?_, ?_, rfl, ?_⟩
    · have hne' : Node.leaf l ≠ .leaf leaf := fun heq => hl (Node.leaf_inj.mp heq)
      exact (AList.lookup_insert_ne hne').trans (AList.lookup_empty _)
    · exact (hsame.pubs _).trans hnodePub
    · exact (hsig _).trans hsigKey
  obtain ⟨chain, hchain, hpath, hprocess⟩ :=
    processUpdatePath_rekeyPath hS hrekey hpre.shape hpre.occupied hsame hold
  let m : Group S := (joining kp (g'.welcomeFor leaf c)).adoptPath c
  refine ⟨{ m with secrets := m.secrets.insertAll chain, epochSecret := g'.epochSecret }.resetEpoch,
    ?_, ?_, ?_, hpath⟩
  · unfold joinWithWelcome
    rw [except_bind_eq_ok]
    refine ⟨(), except_forM_eq_ok.mpr fun e he => hg'.welcome_verifyPop he, ?_⟩
    rw [show (g'.welcomeFor leaf c).commit = c from rfl, hprocess]
    rfl
  · exact ⟨⟨⟨hsame.capacity, hsame.occupied, hsame.pubs⟩, hsig⟩, rfl, rfl⟩
  · refine hold.congr rfl hold.occupied (fun l => ?_) rfl rfl rfl rfl
    refine (Table.lookup_insertAll ..).trans ?_
    rw [hchain, Option.none_or]

end Join
end Group
end Talkrypt.TreeKem
