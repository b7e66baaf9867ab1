import Talkrypt.Crypto.TreeKem.UpdatePath

/-!
# A member follows the host's commits

`Agrees g m`: member `m` sees what the host saw in state `g`. A member that agrees with the host before
a commit, holds its own leaf keys and is not removed by the commit, agrees with the host after it
(`applyCommit_proposal`, `applyCommit_rotation`), provided that an `Update` of its own leaf in that
commit is the one it has staged (`Staged`).
-/

namespace Talkrypt.TreeKem.Group

variable {S : Scheme} {g b m : Group S} {s : S.Secret} {k : S.SigSeed}

/-- The same epoch, epoch secret, capacity, node keys, occupied leaves and leaf signing keys. -/
structure Agrees (g m : Group S) : Prop extends SameTree g m where
  epoch : m.epoch = g.epoch
  epochSecret : m.epochSecret = g.epochSecret

/-- `b` is `g`, possibly with more room; a refused `add` leaves the host so. -/
structure Grown (g b : Group S) : Prop where
  capacity : g.capacity ≤ b.capacity
  occupied : b.occupied = resize g.occupied b.capacity
  pubs : b.pubs = g.pubs
  sigKeys : b.leafSigKeys = g.leafSigKeys
  pops : b.leafPops = g.leafPops
  me : b.me = g.me
  epoch : b.epoch = g.epoch
  epochSecret : b.epochSecret = g.epochSecret
  mySig : b.mySig = g.mySig

namespace Grown

theorem refl (h : g.occupied.length = g.capacity) : Grown g g :=
  ⟨le_rfl, by rw [← h, resize_self], rfl, rfl, rfl, rfl, rfl, rfl, rfl⟩

theorem trans {d : Group S} (hlen : g.occupied.length = g.capacity) (h : Grown g b) (h' : Grown b d) :
    Grown g d where
  capacity := h.capacity.trans h'.capacity
  occupied := by
    rw [h'.occupied, h.occupied, resize_resize (hlen.le.trans h.capacity) h'.capacity]
  pubs := h'.pubs.trans h.pubs
  sigKeys := h'.sigKeys.trans h.sigKeys
  pops := h'.pops.trans h.pops
  me := h'.me.trans h.me
  epoch := h'.epoch.trans h.epoch
  epochSecret := h'.epochSecret.trans h.epochSecret
  mySig := h'.mySig.trans h.mySig

theorem isOccupied (hlen : g.occupied.length = g.capacity) (h : Grown g b) (l : Nat) :
    b.isOccupied l = g.isOccupied l := by
  rw [Group.isOccupied, h.occupied, getD_resize (hlen.le.trans h.capacity), Group.isOccupied]

theorem makeRoom (hg : g.Shape) (hfree : g.makeRoom.firstFreeLeaf ≠ none) : Grown g g.makeRoom := by
  unfold Group.makeRoom at hfree ⊢
  split
  · next hnone =>
    rw [if_pos hnone] at hfree
    obtain ⟨n, -, hcap, hdouble⟩ := Shape.doubleCapacity_capacity hg.capacity hfree
    refine ⟨?_, rfl, rfl, rfl, rfl, rfl, rfl, rfl, rfl⟩
    rw [hcap, hdouble]
    exact Nat.pow_le_pow_right (by decide) (by omega)
  · exact refl hg.length

end Grown

/-! ## Growing -/

theorem growTo_isOccupied (hlen : m.occupied.length = m.capacity) (cap l : Nat) :
    (m.growTo cap).isOccupied l = m.isOccupied l := by
  unfold growTo
  split
  · next h => exact getD_resize (hlen.le.trans (le_of_lt h)) l
  · rfl

theorem Agrees.growTo (h : Agrees g m) (hlen : g.occupied.length = g.capacity) (hb : Grown g b) :
    SameTree b (m.growTo b.capacity) := by
  have hcap := hb.capacity
  unfold Group.growTo
  split
  · refine ⟨⟨rfl, ?_, ?_⟩, ?_⟩
    · rw [hb.occupied, h.occupied]
    · rw [hb.pubs]; exact h.pubs
    · rw [hb.sigKeys]; exact h.sigKeys
  · next hle =>
    have heq : b.capacity = g.capacity := by
      have := h.capacity
      omega
    refine ⟨⟨h.capacity.trans heq.symm, ?_, ?_⟩, ?_⟩
    · rw [hb.occupied, h.occupied, heq, ← hlen, resize_self]
    · rw [hb.pubs]; exact h.pubs
    · rw [hb.sigKeys]; exact h.sigKeys

/-! ## What the member holds -/

theorem Holds.congr (h : m.Holds s k) {m' : Group S} (hme : m'.me = m.me)
    (hocc : m'.isOccupied m.me = true)
    (hsecrets : ∀ l, m'.secrets.lookup (.leaf l) = m.secrets.lookup (.leaf l))
    (hpubs : m'.pubs.lookup (.leaf m.me) = m.pubs.lookup (.leaf m.me)) (hprofile : m'.profile = m.profile)
    (hsig : m'.mySig = m.mySig) (hkey : m'.leafSigKeys.lookup m.me = m.leafSigKeys.lookup m.me) :
    m'.Holds s k where
  pos := hme ▸ h.pos
  occupied := hme.symm ▸ hocc
  secret := by rw [hme, hsecrets, h.secret]
  only l hl := by rw [hsecrets, h.only l (hme ▸ hl)]
  key := by rw [hme, hpubs, h.key, hprofile]
  sig := hsig.trans h.sig
  sigKey := by rw [hme, hkey, h.sigKey]

theorem Holds.growTo (h : m.Holds s k) (hlen : m.occupied.length = m.capacity) (cap : Nat) :
    (m.growTo cap).Holds s k := by
  refine h.congr ?_ ((growTo_isOccupied hlen cap _).trans h.occupied) (fun l => ?_) ?_ ?_ ?_ ?_ <;>
    (unfold Group.growTo; split <;> rfl)

theorem Holds.adoptPath (h : m.Holds s k) {c : Commit S} {n : Nat}
    (hc : c.pubUpdates.map Prod.fst = pathToRoot (2 ^ n) 0) : (m.adoptPath c).Holds s k := by
  refine h.congr rfl h.occupied (fun _ => rfl) ?_ rfl rfl rfl
  have hnone : Table.lastOf c.pubUpdates (.leaf m.me) = none := by
    rw [← Option.not_isSome_iff_eq_none, Table.isSome_lastOf, hc, leaf_mem_hostPath]
    exact h.pos.ne'
  rw [Group.adoptPath, Table.lookup_insertAll, hnone, Option.none_or]

/-- The leaf keys the member is left with by an `Update` of its own leaf. -/
def installedKeys (m : Group S) : Option (S.Secret × S.SigSeed) :=
  match m.pendingUpdate with
  | some kp => some (kp.secret, kp.sig)
  | none =>
    match m.secrets.lookup (.leaf m.me), m.mySig with
    | some s, some k => some (s, k)
    | _, _ => none

/-- If the proposal is an `Update` of our leaf, it carries the keys we would be left with. -/
def Staged (m : Group S) : Proposal S → Prop
  | .update leaf lp sp _ _ => leaf = m.me →
    ∃ s k, m.installedKeys = some (s, k) ∧ S.derivePublic m.profile s = lp ∧ S.sigPublic k = sp
  | _ => True

section Enact
variable {leaf : Nat} {lp : S.Public} {sp : IdentityPublic} {pop auth : Bytes}

variable {p : Proposal S}

theorem Holds.blankPathAbove (h : m.Holds s k) (hcap : ∃ n, n < 32 ∧ m.capacity = 2 ^ n) (leaf : Nat) :
    (m.blankPathAbove leaf).Holds s k :=
  h.congr rfl h.occupied (lookup_leaf_eraseAll hcap m.secrets leaf)
    (lookup_leaf_eraseAll hcap m.pubs leaf m.me) rfl rfl rfl

theorem Holds.enactProposal_ne (h : m.Holds s k) (hm : m.Shape) (hp : m.checkProposal p = .ok ())
    (hne : p.leaf ≠ m.me) : (m.enactProposal p).Holds s k := by
  have hlt := checkProposal_lt hp
  cases p with
  | add leaf lp sp pop =>
    apply Holds.blankPathAbove
    case hcap => exact hm.capacity
    refine h.congr rfl ?_ (fun _ => rfl) ?_ rfl rfl ?_
    · exact (getD_set true hlt _).trans ((if_neg (Ne.symm hne)).trans h.occupied)
    · exact (Table.lookup_insert_eq ..).trans (if_neg fun heq => hne (Node.leaf_inj.mp heq).symm)
    · exact (Table.lookup_insert_eq ..).trans (if_neg (Ne.symm hne))
  | remove leaf =>
    apply Holds.blankPathAbove
    case hcap => exact hm.capacity
    refine h.congr rfl ?_ (fun l => ?_) ?_ rfl rfl ?_
    · exact (getD_set false hlt _).trans ((if_neg (Ne.symm hne)).trans h.occupied)
    · refine (Table.lookup_erase_eq ..).trans ?_
      split
      · next heq =>
        rw [Node.leaf_inj] at heq
        exact (h.only l (heq ▸ hne)).symm
      · rfl
    · exact (Table.lookup_erase_eq ..).trans (if_neg fun heq => hne (Node.leaf_inj.mp heq).symm)
    · exact (Table.lookup_erase_eq ..).trans (if_neg (Ne.symm hne))
  | update leaf lp sp pop auth =>
    have hpending : (m.setLeafKeys leaf lp sp pop).installPending leaf = m.setLeafKeys leaf lp sp pop :=
      if_neg hne
    rw [enactProposal, hpending]
    apply Holds.blankPathAbove
    case hcap => exact hm.capacity
    refine h.congr rfl h.occupied (fun _ => rfl) ?_ rfl rfl ?_
    · exact (Table.lookup_insert_eq ..).trans (if_neg fun heq => hne (Node.leaf_inj.mp heq).symm)
    · exact (Table.lookup_insert_eq ..).trans (if_neg (Ne.symm hne))

theorem Holds.enactProposal_self (h : m.Holds s k) (hm : m.Shape) {s' : S.Secret} {k' : S.SigSeed}
    (hkeys : m.installedKeys = some (s', k')) (hlp : S.derivePublic m.profile s' = lp)
    (hsp : S.sigPublic k' = sp) : (m.enactProposal (.update m.me lp sp pop auth)).Holds s' k' := by
  apply Holds.blankPathAbove
  case hcap => simpa [setLeafKeys] using hm.capacity
  have hpub : (m.pubs.insert (.leaf m.me) lp).lookup (.leaf m.me) =
      some (S.derivePublic m.profile s') := by rw [AList.lookup_insert, hlp]
  have hsig : (m.leafSigKeys.insert m.me sp).lookup m.me = some (S.sigPublic k') := by
    rw [AList.lookup_insert, hsp]
  unfold installedKeys at hkeys
  cases hpend : m.pendingUpdate with
  | some kp =>
    simp only [hpend, Option.some.injEq, Prod.mk.injEq] at hkeys
    obtain ⟨rfl, rfl⟩ := hkeys
    have hinstall : (m.setLeafKeys m.me lp sp pop).installPending m.me =
        { m.setLeafKeys m.me lp sp pop with
          secrets := m.secrets.insert (.leaf m.me) kp.secret, mySig := some kp.sig,
          pendingUpdate := none } := by
      simp only [installPending, setLeafKeys, if_true, hpend]
    rw [hinstall]
    refine ⟨h.pos, h.occupied, AList.lookup_insert .., fun l hl => ?_, hpub, rfl, hsig⟩
    have hne : Node.leaf l ≠ .leaf m.me := fun heq => hl (Node.leaf_inj.mp heq)
    exact (AList.lookup_insert_ne hne).trans (h.only l hl)
  | none =>
    simp only [hpend, h.secret, h.sig, Option.some.injEq, Prod.mk.injEq] at hkeys
    obtain ⟨rfl, rfl⟩ := hkeys
    have hinstall : (m.setLeafKeys m.me lp sp pop).installPending m.me =
        m.setLeafKeys m.me lp sp pop := by
      simp only [installPending, setLeafKeys, if_true, hpend]
    rw [hinstall]
    exact ⟨h.pos, h.occupied, h.secret, h.only, hpub, h.sig, hsig⟩

theorem Holds.enactProposal (h : m.Holds s k) (hm : m.Shape) (hp : m.checkProposal p = .ok ())
    (hfree : ∀ leaf lp sp pop, p = .add leaf lp sp pop → m.isOccupied leaf = false) (hremove : p ≠ .remove m.me)
    (hstaged : m.Staged p) : ∃ s' k', (m.enactProposal p).Holds s' k' := by
  by_cases hne : p.leaf = m.me
  · cases p with
    | add leaf lp sp pop =>
      have hocc := h.occupied
      rw [← hne, show (Proposal.add leaf lp sp pop).leaf = leaf from rfl, hfree _ _ _ _ rfl] at hocc
      cases hocc
    | remove leaf => exact absurd (congrArg Proposal.remove hne) hremove
    | update leaf lp sp pop auth =>
      obtain ⟨s', k', hkeys, hlp, hsp⟩ := hstaged hne
      obtain rfl : leaf = m.me := hne
      exact ⟨s', k', h.enactProposal_self hm hkeys hlp hsp⟩
  · exact ⟨s, k, h.enactProposal_ne hm hp hne⟩

theorem Holds.enactProposal_removed (h : m.Holds s k) (hm : m.Shape) (l : Nat) :
    (m.enactProposal (.remove m.me)).secrets.lookup (.leaf l) = none := by
  refine (lookup_leaf_eraseAll hm.capacity _ m.me l).trans ((Table.lookup_erase_eq ..).trans ?_)
  split
  · rfl
  · next hne => exact h.only l fun heq => hne (heq ▸ rfl)

end Enact

/-! ## Applying a commit -/

section ApplyCommit
variable {r : RekeyCoins S} {ps : List (Proposal S)} {su : Option (Nat × IdentityPublic × Bytes)}
  {g' : Group S} {c : Commit S}

theorem verifyCommit_rekeyed (hS : S.Lawful) (h : g.Rekeyed r ps su g' c) {key : S.SigSeed}
    (hsig : g.mySig = some key) (hkey : m.leafSigKeys.lookup HOST_LEAF = some (S.sigPublic key))
    (hepoch : m.epoch = g.epoch) : m.verifyCommit c = .ok () := by
  unfold verifyCommit
  rw [h.path]
  simp only [pathToRoot, Node.leaf, ne_eq, not_true_eq_false, if_false, HOST_LEAF]
  rw [show AList.lookup 0 m.leafSigKeys = _ from hkey]
  simp only [orBadSignature_eq_ok]
  rw [hepoch, h.signature key hsig, hS.verify_sign]

private theorem finish_applyCommit (hS : S.Lawful) (h : g.Rekeyed r ps su g' c) (hg : g.Shape)
    (hocc : g.isOccupied 0 = true) (hsame : SameNodes g m) (hm : m.Holds s k)
    (hepoch : m.epoch = g.epoch) :
    ∃ m', m.processUpdatePath c = (m', .ok g'.epochSecret) ∧
      SameNodes g' (m'.advance g'.epochSecret) ∧ (m'.advance g'.epochSecret).Holds s k ∧
      m'.leafSigKeys = m.leafSigKeys ∧ m'.me = m.me ∧
      (m'.advance g'.epochSecret).epoch = g'.epoch ∧ (m'.advance g'.epochSecret).HoldsPath g' := by
  obtain ⟨n, -, hcap⟩ := hg.capacity
  have hadopt : SameNodes g' (m.adoptPath c) := by
    rw [h.group]
    refine ⟨hsame.capacity, hsame.occupied, ?_⟩
    rw [Group.adoptPath, h.pubUpdates]
    exact hsame.pubs.insertAll _
  have hkeys : c.pubUpdates.map Prod.fst = pathToRoot (2 ^ n) 0 := by
    rw [h.pubUpdates, List.map_map, hcap]
    simp only [Function.comp_def, chainUp_map_fst]
  obtain ⟨chain, hchain, hpath, hprocess⟩ :=
    processUpdatePath_rekeyPath hS h hg hocc hadopt (hm.adoptPath hkeys)
  refine ⟨_, hprocess, ⟨hadopt.capacity, hadopt.occupied, hadopt.pubs⟩, ?_, rfl, rfl, ?_, hpath⟩
  · refine (hm.adoptPath hkeys).congr rfl hm.occupied (fun l => ?_) rfl rfl rfl rfl
    refine (Table.lookup_insertAll ..).trans ?_
    rw [hchain, Option.none_or]
  · rw [h.group]
    exact congrArg (fun e => (e + 1) % 2 ^ 32) hepoch

theorem applyProposals_singleton {p : Proposal S} (hp : m.checkProposal p = .ok ()) :
    m.applyProposals [p] = (m.enactProposal p, .ok ()) := by
  simp only [applyProposals, hp]

theorem applyCommit_proposal (hS : S.Lawful) (hagree : Agrees g m) (hm : m.Holds s k)
    (hlen : g.occupied.length = g.capacity) (hgrown : Grown g b) (hb : b.Shape) {p : Proposal S}
    (hp : b.checkProposal p = .ok ())
    (hfree : ∀ leaf lp sp pop, p = .add leaf lp sp pop → b.isOccupied leaf = false)
    (hhost : (b.enactProposal p).isOccupied 0 = true) (hremove : p ≠ .remove m.me)
    (hstaged : m.Staged p) (h : (b.enactProposal p).Rekeyed r [p] none g' c)
    (hverify : m.verifyCommit c = .ok ()) :
    ∃ m' s' k', m.applyCommit c = (m', .ok ()) ∧ Agrees g' m' ∧ m'.Holds s' k' ∧ m'.me = m.me ∧
      m'.HoldsPath g' := by
  have hlenm : m.occupied.length = m.capacity := by rw [hagree.occupied, hagree.capacity, hlen]
  have hsame := hagree.growTo hlen hgrown
  have hshape := hsame.shape hb
  have hp' := (hsame.checkProposal p).trans hp
  have hgrowMe : (m.growTo b.capacity).me = m.me := by unfold growTo; split <;> rfl
  have hgrowEpoch : (m.growTo b.capacity).epoch = m.epoch := by unfold growTo; split <;> rfl
  have hstaged' : (m.growTo b.capacity).Staged p := by
    unfold growTo; split
    · cases p <;> exact hstaged
    · exact hstaged
  obtain ⟨s', k', hheld⟩ := (hm.growTo hlenm b.capacity).enactProposal hshape hp'
    (fun leaf lp sp pop heq => (hsame.isOccupied leaf).trans (hfree leaf lp sp pop heq))
    (hgrowMe ▸ hremove) hstaged'
  have hsame' := hsame.enactProposal p
  obtain ⟨m', hprocess, hnodes, hholds, hsig, hme, hepoch, hpath⟩ := finish_applyCommit hS h
    (hb.enactProposal hp) hhost hsame'.toSameNodes hheld
    (by simp only [enactProposal_epoch, hgrowEpoch, hagree.epoch, hgrown.epoch])
  refine ⟨_, s', k', ?_, ⟨⟨hnodes, ?_⟩, hepoch, rfl⟩, hholds, ?_, hpath⟩
  · unfold applyCommit
    simp only [hverify, h.newCapacity, enactProposal_capacity, h.proposals, applyProposals_singleton hp',
      h.sigUpdate, applySigUpdate, hprocess]
  · rw [h.group]
    exact fun l => (congrArg (AList.lookup l) hsig).trans (hsame'.sigKeys l)
  · exact hme.trans ((enactProposal_me _ p).trans hgrowMe)

theorem applyCommit_rotation (hS : S.Lawful) (hagree : Agrees g m) (hm : m.Holds s k)
    (hlen : g.occupied.length = g.capacity) (hgrown : Grown g b) (hb : b.Shape) (hme : b.me = 0)
    (hhost : b.isOccupied 0 = true) {newSig : S.SigSeed}
    (h : b.Rekeyed r [] (some (0, S.sigPublic newSig,
      S.sign newSig (popTranscript (S.sigPublic newSig)))) g' c)
    (hverify : m.verifyCommit c = .ok ()) :
    ∃ m', m.applyCommit c = (m', .ok ()) ∧ Agrees (g'.rotateSig newSig) m' ∧ m'.Holds s k ∧
      m'.me = m.me ∧ m'.HoldsPath (g'.rotateSig newSig) := by
  have hlenm : m.occupied.length = m.capacity := by rw [hagree.occupied, hagree.capacity, hlen]
  have hsame := hagree.growTo hlen hgrown
  have hgrowMe : (m.growTo b.capacity).me = m.me := by unfold growTo; split <;> rfl
  have hgrowEpoch : (m.growTo b.capacity).epoch = m.epoch := by unfold growTo; split <;> rfl
  have hheld := hm.growTo hlenm b.capacity
  -- the state after the rotation is applied
  let pop := S.sign newSig (popTranscript (S.sigPublic newSig))
  let m₁ : Group S := { m.growTo b.capacity with
    leafSigKeys := (m.growTo b.capacity).leafSigKeys.insert HOST_LEAF (S.sigPublic newSig)
    leafPops := (m.growTo b.capacity).leafPops.insert HOST_LEAF pop }
  have hrotate : (m.growTo b.capacity).applySigUpdate (some (0, S.sigPublic newSig, pop)) = .ok m₁ := by
    have hocc : (m.growTo b.capacity).isOccupied 0 = true := (hsame.isOccupied 0).trans hhost
    simp only [applySigUpdate, HOST_LEAF, ne_eq, not_true_eq_false, if_false, hocc, Bool.not_true,
      Bool.false_eq_true, pop, LeafKeyPair.verifyPop_pop hS.verify_sign, bind, Except.bind, pure, Except.pure]
    rfl
  have hne : m.me ≠ HOST_LEAF := hm.pos.ne'
  have hheld₁ : m₁.Holds s k := hheld.congr rfl hheld.occupied (fun _ => rfl) rfl rfl rfl
    (AList.lookup_insert_ne (hgrowMe ▸ hne))
  obtain ⟨m', hprocess, hnodes, hholds, hsig, hme', hepoch, hpath⟩ := finish_applyCommit hS h hb hhost
    (m := m₁) ⟨hsame.capacity, hsame.occupied, hsame.pubs⟩ hheld₁
    (by rw [show m₁.epoch = m.epoch from hgrowEpoch, hagree.epoch, hgrown.epoch])
  have hg'me : g'.me = 0 := by rw [h.group]; exact hme
  refine ⟨_, ?_, ⟨⟨⟨hnodes.capacity, hnodes.occupied, hnodes.pubs⟩, ?_⟩, hepoch, rfl⟩, hholds,
    hme'.trans hgrowMe, hpath⟩
  · unfold applyCommit
    simp only [hverify, h.newCapacity, h.proposals, applyProposals, h.sigUpdate]
    rw [hrotate]
    simp only [hprocess]
  · intro l
    refine (congrArg (AList.lookup l) hsig).trans ?_
    have hkeys : g'.leafSigKeys = b.leafSigKeys := by rw [h.group]; rfl
    simp only [rotateSig, hg'me, hkeys]
    exact hsame.sigKeys.insert 0 _ l

theorem applyCommit_removed (hagree : Agrees g m) (hm : m.Holds s k)
    (hlen : g.occupied.length = g.capacity) (hgrown : Grown g b) (hb : b.Shape)
    (hp : b.checkProposal (.remove m.me) = .ok ())
    (hhost : (b.enactProposal (.remove m.me)).isOccupied 0 = true)
    (h : (b.enactProposal (.remove m.me)).Rekeyed r [.remove m.me] none g' c) :
    ∀ m', m.applyCommit c ≠ (m', .ok ()) := by
  have hlenm : m.occupied.length = m.capacity := by rw [hagree.occupied, hagree.capacity, hlen]
  have hsame := hagree.growTo hlen hgrown
  have hshape := hsame.shape hb
  have hp' := (hsame.checkProposal (.remove m.me)).trans hp
  have hgrowMe : (m.growTo b.capacity).me = m.me := by unfold growTo; split <;> rfl
  have hheld := hm.growTo hlenm b.capacity
  have hnone := hheld.enactProposal_removed hshape
  rw [hgrowMe] at hnone
  let m₁ := (m.growTo b.capacity).enactProposal (.remove m.me)
  obtain ⟨n, -, hcap⟩ := hb.capacity
  have hadopt : SameNodes g' (m₁.adoptPath c) := by
    have hsame' := hsame.enactProposal (.remove m.me)
    rw [h.group]
    refine ⟨hsame'.capacity, hsame'.occupied, ?_⟩
    rw [Group.adoptPath, h.pubUpdates]
    exact hsame'.pubs.insertAll _
  have hfind : (m₁.adoptPath c).findHeld (.leaf 0) (hostLevels 1 n) = none := by
    have := findHeld_eq_none (hadopt.shape (h.shape (hb.enactProposal hp) hhost)) hnone n 0
    rwa [nodeAt_zero, Nat.zero_add] at this
  have hprocess : m₁.processUpdatePath c =
      (m₁.adoptPath c, .error (.malformed "no common ancestor with committer")) := by
    unfold processUpdatePath
    rw [h.path, enactProposal_capacity, hcap, hostPath_eq]
    simp only [hfind]
  intro m' happly
  unfold applyCommit at happly
  cases hverify : m.verifyCommit c with
  | error e => simp [hverify] at happly
  | ok u =>
    simp only [hverify, h.newCapacity, enactProposal_capacity, h.proposals,
      applyProposals_singleton hp', h.sigUpdate, applySigUpdate] at happly
    rw [show ((m.growTo b.capacity).enactProposal (.remove m.me)).processUpdatePath c = _ from
      hprocess] at happly
    cases happly

end ApplyCommit
end Talkrypt.TreeKem.Group
