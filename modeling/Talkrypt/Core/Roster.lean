import Talkrypt.Core.Node

/-!
# Removing a member (`remove_member`, `handle_keypackage`)

A host that admits key packages and removes members by fingerprint. `World.seat` records the peer whose
key package each leaf was added for. A removal finds one roster entry of the fingerprint, so it removes
the person exactly if that person has one seat (`Orderly`, `removal_removes`); a peer that joined twice
keeps a leaf (`second_seat_stays`).
-/

namespace Talkrypt.Core.Roster
open TreeKem

variable {S : Scheme}

/-- A host, and for each leaf the peer that it was last added for. -/
structure World (S : Scheme) where
  node : Inner S
  seat : Nat → Option Fingerprint

inductive Event (S : Scheme) where
  | keyPackage (peer : Fingerprint) (bytes : Bytes) (r : RekeyCoins S)
  | removeMember (fp : Fingerprint) (hint : Nat) (r : RekeyCoins S)
  | updateProposal (peer : Fingerprint) (hint : Nat) (bytes : Bytes) (r : RekeyCoins S)
  | selfUpdate (r : RekeyCoins S) (newSig : S.SigSeed)
  | setAccess (isOpen : Bool)
  /-- The peer presents an account that the access policy admits. -/
  | approve (peer : Fingerprint)

namespace World

def create (me : Fingerprint) (padding : Option Nat) (profile : KemProfile) (mySig : S.SigSeed)
    (leafSecret : S.Secret) : World S where
  node := .founder me padding (.createWithSig profile mySig leafSecret)
  seat l := if l = 0 then some me else none

def step (w : World S) : Event S → World S
  | .keyPackage peer bytes r =>
    let node := w.node.handleKeyPackage r peer bytes
    -- whatever leaf comes to be occupied, also by an `add` that then fails, is this peer's
    { node, seat := fun l => if node.isOccupied l && !w.node.isOccupied l then some peer else w.seat l }
  | .removeMember fp hint r => { w with node := w.node.removeMember r hint fp }
  | .updateProposal peer hint bytes r => { w with node := w.node.handleUpdateProposal r hint peer bytes }
  | .selfUpdate r newSig => { w with node := w.node.selfUpdate r newSig }
  | .setAccess isOpen => { w with node := { w.node with accessOpen := isOpen } }
  | .approve peer => { w with node := { w.node with admittedPeers := peer :: w.node.admittedPeers } }

def run (me : Fingerprint) (padding : Option Nat) (profile : KemProfile) (mySig : S.SigSeed)
    (leafSecret : S.Secret) (evs : List (Event S)) : World S :=
  evs.foldl step (create me padding profile mySig leafSecret)

/-- The person is out: no occupied leaf and no leaf key of the tree is a seat of `fp`, and the roster does
not list it. -/
structure Gone (w : World S) (fp : Fingerprint) : Prop where
  leaf : ∀ l, w.node.isOccupied l = true → w.seat l ≠ some fp
  key : ∀ g l, w.node.group = some g → w.seat l = some fp → g.pubs.lookup (.leaf l) = none
  roster : ∀ l, w.node.roster.lookup l ≠ some fp

/-- The steps considered: a key package that is let in comes from a peer without a seat and has a leaf key
that can be sealed to, so has the key of an `Update`, and the host does not remove itself. -/
def Orderly (w : World S) : Event S → Prop
  | .keyPackage peer bytes _ => ∀ g kp, w.node.group = some g → w.node.admits peer = true →
    KeyPackage.decode S g.profile bytes = .ok kp →
      (∀ l, w.node.isOccupied l = true → w.seat l ≠ some peer) ∧ S.Seals kp.leafPublic
  | .removeMember fp _ _ => fp ≠ w.node.me
  | .updateProposal _ _ bytes _ => ∀ g leaf lp sp pop auth, w.node.group = some g →
    Proposal.decode S g.profile bytes = .ok (.update leaf lp sp pop auth) → S.Seals lp
  | _ => True

/-! ## The roster and the tree -/

/-- The host's tree, with everybody at the seat that the roster says and at no other. -/
structure Seated (w : World S) (g : Group S) : Prop where
  group : w.node.group = some g
  role : w.node.role = .host
  inv : g.HostInv
  sealable : g.Sealable
  listed : ∀ l, (w.node.roster.lookup l).isSome = g.isOccupied l
  seat : ∀ l fp, w.node.roster.lookup l = some fp → w.seat l = some fp
  single : ∀ l l' fp, w.node.roster.lookup l = some fp → w.node.roster.lookup l' = some fp → l = l'
  host : w.node.roster.lookup 0 = some w.node.me

section Seated
variable {w : World S} {g g' : Group S}

namespace Seated

theorem exists_seat (h : w.Seated g) {l : Nat} (hocc : g.isOccupied l = true) :
    ∃ fp, w.node.roster.lookup l = some fp ∧ w.seat l = some fp := by
  obtain ⟨fp, hfp⟩ := Option.isSome_iff_exists.mp ((h.listed l).trans hocc)
  exact ⟨fp, hfp, h.seat l fp hfp⟩

variable {node : Inner S}

theorem other (h : w.Seated g) (hgroup : node.group = some g') (hrole : node.role = w.node.role)
    (hme : node.me = w.node.me) (hroster : node.roster = w.node.roster) (hinv : g'.HostInv) (hseal : g'.Sealable)
    (hocc : ∀ l, g'.isOccupied l = g.isOccupied l) : Seated { w with node := node } g' where
  group := hgroup
  role := hrole.trans h.role
  inv := hinv
  sealable := hseal
  listed l := by rw [hocc, hroster]; exact h.listed l
  seat l fp := by rw [hroster]; exact h.seat l fp
  single l l' fp := by rw [hroster]; exact h.single l l' fp
  host := by rw [hroster, hme]; exact h.host

theorem refused (h : w.Seated g) (hg' : TreeKem.World.Refused g g') :
    g'.HostInv ∧ g'.Sealable ∧ ∀ l, g'.isOccupied l = g.isOccupied l := by
  rcases hg' with rfl | ⟨rfl, hfree⟩
  · exact ⟨h.inv, h.sealable, fun _ => rfl⟩
  · have hgrown := Group.Grown.makeRoom h.inv.shape hfree
    refine ⟨h.inv.makeRoom hfree, ?_, hgrown.isOccupied h.inv.shape.length⟩
    intro n pk hpk
    rw [hgrown.pubs] at hpk
    exact h.sealable n pk hpk

theorem add (h : w.Seated g) {peer : Fingerprint} {leaf : Nat} {seat : Nat → Option Fingerprint}
    (hgroup : node.group = some g') (hrole : node.role = w.node.role) (hme : node.me = w.node.me)
    (hroster : node.roster = w.node.roster.insert leaf peer) (hinv : g'.HostInv) (hseal : g'.Sealable)
    (hocc : ∀ l, g'.isOccupied l = if l = leaf then true else g.isOccupied l) (hleaf : leaf ≠ 0)
    (hnew : ∀ l, w.node.roster.lookup l ≠ some peer)
    (hseat : ∀ l, seat l = if l = leaf then some peer else w.seat l) : Seated ⟨node, seat⟩ g' := by
  have hlookup : ∀ l, node.roster.lookup l = if l = leaf then some peer else w.node.roster.lookup l := by
    intro l
    rw [hroster, Table.lookup_insert_eq]
  refine ⟨hgroup, hrole.trans h.role, hinv, hseal, fun l => ?_, fun l fp hl => ?_, fun l l' fp hl hl' => ?_, ?_⟩
  · show (node.roster.lookup l).isSome = _
    rw [hlookup, hocc]
    split
    · rfl
    · exact h.listed l
  · show seat l = _
    rw [hseat]
    have hl := (hlookup l).symm.trans hl
    split at hl
    · next heq => rw [if_pos heq, hl]
    · next hne => rw [if_neg hne]; exact h.seat l fp hl
  · have hl := (hlookup l).symm.trans hl
    have hl' := (hlookup l').symm.trans hl'
    split at hl <;> split at hl'
    · next heq heq' => exact heq.trans heq'.symm
    · cases hl; exact absurd hl' (hnew l')
    · cases hl'; exact absurd hl (hnew l)
    · exact h.single l l' fp hl hl'
  · show node.roster.lookup 0 = some node.me
    rw [hlookup, if_neg hleaf.symm, hme, h.host]

theorem remove (h : w.Seated g) {leaf : Nat} (hgroup : node.group = some g') (hrole : node.role = w.node.role)
    (hme : node.me = w.node.me) (hroster : node.roster = w.node.roster.erase leaf) (hinv : g'.HostInv)
    (hseal : g'.Sealable) (hocc : ∀ l, g'.isOccupied l = if l = leaf then false else g.isOccupied l)
    (hleaf : leaf ≠ 0) : Seated { w with node := node } g' := by
  have hlookup : ∀ l, node.roster.lookup l = if l = leaf then none else w.node.roster.lookup l := by
    intro l
    rw [hroster, Table.lookup_erase_eq]
  have hkept : ∀ {l fp}, node.roster.lookup l = some fp → w.node.roster.lookup l = some fp := by
    intro l fp hl
    rw [hlookup] at hl
    split at hl
    · cases hl
    · exact hl
  refine ⟨hgroup, hrole.trans h.role, hinv, hseal, fun l => ?_, fun l fp hl => h.seat l fp (hkept hl),
    fun l l' fp hl hl' => h.single l l' fp (hkept hl) (hkept hl'), ?_⟩
  · show (node.roster.lookup l).isSome = _
    rw [hlookup, hocc]
    split
    · rfl
    · exact h.listed l
  · show node.roster.lookup 0 = some node.me
    rw [hlookup, if_neg hleaf.symm, hme, h.host]

section Steps
variable (hsig : S.SigCorrect) (hderive : ∀ profile s, S.Seals (S.derivePublic profile s))
include hsig hderive

theorem keyPackage (h : w.Seated g) {peer : Fingerprint} {bytes : Bytes} {r : RekeyCoins S}
    (hok : w.Orderly (.keyPackage peer bytes r)) : ∃ g', (w.step (.keyPackage peer bytes r)).Seated g' := by
  have hidle : ∀ (node : Inner S) {g'' : Group S}, node.group = some g'' →
      (∀ l, g''.isOccupied l = g.isOccupied l) →
      (fun l => if node.isOccupied l && !w.node.isOccupied l then some peer else w.seat l) = w.seat := by
    intro node g'' hnode hocc
    funext l
    rw [Inner.isOccupied_eq hnode, Inner.isOccupied_eq h.group, hocc]
    cases g.isOccupied l <;> rfl
  simp only [World.step]
  rcases w.node.handleKeyPackage_cases r peer bytes with ⟨events, heq⟩ | ⟨g₀, kp, hg₀, hadmit, hkp, hcases⟩
  · rw [heq, hidle { w.node with events := events } h.group fun _ => rfl]
    exact ⟨g, h.other h.group rfl rfl rfl h.inv h.sealable fun _ => rfl⟩
  · obtain rfl : g = g₀ := Option.some.inj (h.group.symm.trans hg₀)
    obtain ⟨hfree, hseals⟩ := hok g kp h.group hadmit hkp
    have hkey : ∀ b p, (HostOp.add kp).Proposes g b p → ∀ pk, p.newKey = some pk → S.Seals pk := by
      rintro b p ⟨hleaf⟩ pk hpk
      cases hpk
      exact hseals
    rcases hcases with ⟨g', f, hadd, heq⟩ | ⟨g', leaf, commit, welcome, sent, hadd, heq⟩
    · have hexec : (HostOp.add kp).exec g r = (g', .error f) := by simp [HostOp.exec, hadd]
      obtain ⟨hinv, hseal, hocc⟩ := h.refused (TreeKem.World.exec_refused hderive h.sealable hkey hexec)
      rw [heq, hidle { w.node with group := some g' } rfl hocc]
      exact ⟨g', h.other rfl rfl rfl rfl hinv hseal hocc⟩
    · obtain ⟨-, hprop, hcheck, hrekey⟩ := HostOp.add_eq_ok h.inv.me hadd
      have hcommits := HostOp.Commits.proposal hprop hcheck hrekey
      have hocc := h.inv.isOccupied_commit hprop hcheck hrekey
      obtain ⟨-, hgrown, hnew⟩ := h.inv.proposes hprop
      obtain ⟨hblank, hne⟩ := hnew leaf _ _ _ rfl
      rw [hgrown.isOccupied h.inv.shape.length] at hblank
      rw [heq]
      refine ⟨g', h.add rfl rfl rfl rfl (h.inv.commits hsig (by simp) hcommits)
        (h.sealable.commits hderive hkey hcommits) hocc hne ?_ fun l => ?_⟩
      · intro l hl
        have hl' : g.isOccupied l = true := by rw [← h.listed, hl]; rfl
        exact hfree l ((Inner.isOccupied_eq h.group l).trans hl') (h.seat l peer hl)
      · simp only [Inner.isOccupied, h.group, Option.any_some, hocc, Group.Occupies]
        by_cases hl : l = leaf
        · simp [hl, hblank]
        · simp [hl]

theorem rekey (h : w.Seated g) {op : HostOp S} {r : RekeyCoins S}
    {res : Except Fault (Commit S × Option (Welcome S))} {sent : List (Frame S × Route)}
    (hop : ∀ b p, op.Proposes g b p → ∃ leaf lp sp pop auth, p = .update leaf lp sp pop auth ∧ S.Seals lp)
    (hexec : op.exec g r = (g', res)) :
    Seated { w with node := { w.node with group := some g', sent := sent } } g' := by
  have hkey : ∀ b p, op.Proposes g b p → ∀ pk, p.newKey = some pk → S.Seals pk := by
    intro b p hp pk hpk
    obtain ⟨leaf, lp, sp, pop, auth, rfl, hlp⟩ := hop b p hp
    cases hpk
    exact hlp
  cases res with
  | error f =>
    obtain ⟨hinv, hseal, hocc⟩ := h.refused (TreeKem.World.exec_refused hderive h.sealable hkey hexec)
    exact h.other rfl rfl rfl rfl hinv hseal hocc
  | ok cw =>
    have hcommits := (HostOp.exec_eq_ok h.inv.me hexec).1
    have hne : op ≠ .remove 0 := by
      rintro rfl
      obtain ⟨_, _, _, _, _, heq, -⟩ := hop g _ .remove
      cases heq
    refine h.other rfl rfl rfl rfl (h.inv.commits hsig hne hcommits)
      (h.sealable.commits hderive hkey hcommits) fun l => ?_
    cases hcommits with
    | proposal hprop hcheck hrekey =>
      obtain ⟨leaf, lp, sp, pop, auth, rfl, -⟩ := hop _ _ hprop
      exact h.inv.isOccupied_commit hprop hcheck hrekey l
    | rotation hrekey => rw [hrekey.group]; rfl

theorem removeMember (h : w.Seated g) {fp : Fingerprint} (hint : Nat) (r : RekeyCoins S)
    (hfp : fp ≠ w.node.me) :
    (w.node.removeMember r hint fp = w.node ∧ ∀ l, w.node.roster.lookup l ≠ some fp) ∨
    ∃ g' leaf, (w.step (.removeMember fp hint r)).Seated g' ∧ w.node.roster.lookup leaf = some fp ∧
      (w.step (.removeMember fp hint r)).node.roster = w.node.roster.erase leaf := by
  rcases Inner.removeMember_cases h.role r hint fp with ⟨heq, hnone⟩ | ⟨g₀, leaf, hg₀, hleaf, hcases⟩
  · refine .inl ⟨heq, hnone.resolve_left ?_⟩
    rw [h.group]
    exact Option.some_ne_none _
  · obtain rfl : g = g₀ := Option.some.inj (h.group.symm.trans hg₀)
    have hocc : g.isOccupied leaf = true := by rw [← h.listed, hleaf]; rfl
    have hne : leaf ≠ 0 := by
      rintro rfl
      exact hfp (Option.some.inj (hleaf.symm.trans h.host))
    obtain ⟨g', commit, hremove⟩ := h.sealable.remove_total hderive r (Group.lt_of_isOccupied hocc)
    rcases hcases with ⟨g₁, e, herr, -⟩ | ⟨g₁, commit₁, sent, hok, heq⟩
    · rw [hremove] at herr
      cases herr
    · have hexec : (HostOp.remove leaf).exec g r = (g₁, .ok (commit₁, none)) := by
        simp [HostOp.exec, hok, HostOp.plain]
      obtain ⟨hcheck, hrekey⟩ := HostOp.commitProposals_eq_ok h.inv.me hok
      have hcommits := (HostOp.exec_eq_ok h.inv.me hexec).1
      have hkey : ∀ b p, (HostOp.remove leaf).Proposes g b p → ∀ pk, p.newKey = some pk → S.Seals pk := by
        rintro b p ⟨⟩ pk hpk
        cases hpk
      refine .inr ⟨g₁, leaf, ?_, hleaf, by simp only [World.step, heq]⟩
      simp only [World.step, heq]
      exact h.remove rfl rfl rfl rfl (h.inv.commits hsig (by simpa using hne) hcommits)
        (h.sealable.commits hderive hkey hcommits) (h.inv.isOccupied_commit .remove hcheck hrekey) hne

theorem step (h : w.Seated g) (ev : Event S) (hok : w.Orderly ev) : ∃ g', (w.step ev).Seated g' := by
  cases ev with
  | keyPackage peer bytes r => exact h.keyPackage hsig hderive hok
  | removeMember fp hint r =>
    rcases h.removeMember hsig hderive hint r hok with ⟨heq, -⟩ | ⟨g', leaf, hseated, -⟩
    · simp only [World.step, heq]
      exact ⟨g, h⟩
    · exact ⟨g', hseated⟩
  | updateProposal peer hint bytes r =>
    simp only [World.step]
    rcases w.node.handleUpdateProposal_cases r hint peer bytes with
      heq | ⟨g₀, leaf, g', res, sent, hg₀, -, hexec, heq⟩
    · rw [heq]
      exact ⟨g, h⟩
    · obtain rfl : g = g₀ := Option.some.inj (h.group.symm.trans hg₀)
      rw [heq]
      refine ⟨g', h.rekey hsig hderive ?_ hexec⟩
      rintro b p ⟨⟩
      next lp sp pop auth hdecode => exact ⟨leaf, lp, sp, pop, auth, rfl, hok _ _ _ _ _ _ h.group hdecode⟩
  | selfUpdate r newSig =>
    simp only [World.step]
    rcases Inner.selfUpdate_cases h.role r newSig with heq | ⟨g₀, g', res, sent, hg₀, hexec, heq⟩
    · rw [heq]
      exact ⟨g, h⟩
    · obtain rfl : g = g₀ := Option.some.inj (h.group.symm.trans hg₀)
      rw [heq]
      exact ⟨g', h.rekey hsig hderive (fun b p hp => by cases hp) hexec⟩
  | setAccess => exact ⟨g, h.other h.group rfl rfl rfl h.inv h.sealable fun _ => rfl⟩
  | approve => exact ⟨g, h.other h.group rfl rfl rfl h.inv h.sealable fun _ => rfl⟩

theorem create (me : Fingerprint) (padding : Option Nat) (profile : KemProfile) (mySig : S.SigSeed)
    (leafSecret : S.Secret) : ∃ g, (World.create me padding profile mySig leafSecret).Seated g := by
  have hinv := Group.HostInv.createWithSig hsig profile mySig leafSecret
  have hsealable : (Group.createWithSig profile mySig leafSecret).Sealable :=
    Group.Sealable.installPath hderive (fun n pk hpk => by cases (AList.lookup_empty n).symm.trans hpk) _
  have hroster : ∀ l, ((∅ : Table Nat Fingerprint).insert 0 me).lookup l = if l = 0 then some me else none := by
    intro l
    rw [Table.lookup_insert_eq, AList.lookup_empty]
  refine ⟨_, rfl, rfl, ⟨⟨hinv.shape.capacity, hinv.shape.length, hinv.shape.leaves, hinv.shape.inner⟩, hinv.me,
    hinv.occupied, hinv.sigKeys, hinv.pops⟩, hsealable, fun l => ?_, fun l fp hl => ?_, fun l l' fp hl hl' => ?_, ?_⟩
  · refine (congrArg Option.isSome (hroster l)).trans ?_
    rcases l with _ | _ | l <;> rfl
  · exact (hroster l).symm.trans hl
  · have hzero : ∀ {l}, ((∅ : Table Nat Fingerprint).insert 0 me).lookup l = some fp → l = 0 := by
      intro l hl
      rw [hroster] at hl
      split at hl
      · assumption
      · cases hl
    exact (hzero hl).trans (hzero hl').symm
  · exact hroster 0

end Steps
end Seated
end Seated
section Runs
variable {me : Fingerprint} {padding : Option Nat} {profile : KemProfile} {mySig : S.SigSeed}
  {leafSecret : S.Secret} {evs : List (Event S)}

theorem Seated.run (hsig : S.SigCorrect) (hderive : ∀ profile s, S.Seals (S.derivePublic profile s))
    (h : Run.Along World.step Orderly (World.create me padding profile mySig leafSecret) evs) :
    ∃ g, (run me padding profile mySig leafSecret evs).Seated g :=
  h.invariant (I := fun w => ∃ g, w.Seated g) (fun _ ev ⟨_, hw⟩ hok => hw.step hsig hderive ev hok)
    (Seated.create hsig hderive me padding profile mySig leafSecret)

theorem Seated.gone {w : World S} {g : Group S} {fp : Fingerprint} (h : w.Seated g)
    (hroster : ∀ l, w.node.roster.lookup l ≠ some fp) : w.Gone fp := by
  have hleaf : ∀ l, g.isOccupied l = true → w.seat l ≠ some fp := by
    intro l hocc hseat
    obtain ⟨fp', hlisted, hseat'⟩ := h.exists_seat hocc
    obtain rfl : fp = fp' := Option.some.inj (hseat.symm.trans hseat')
    exact hroster l hlisted
  refine ⟨fun l hocc => hleaf l ((Inner.isOccupied_eq h.group l).symm.trans hocc), fun g' l hg' hseat => ?_, hroster⟩
  obtain rfl : g = g' := Option.some.inj (h.group.symm.trans hg')
  cases hkey : g.pubs.lookup (.leaf l) with
  | none => rfl
  | some pk =>
    -- a leaf with a key is occupied
    have hocc : g.isOccupied l = true := by rw [← h.inv.shape.leaves, hkey]; rfl
    exact absurd hseat (hleaf l hocc)

/-- **Removal removes the person.** After any run in which peers join at one seat at a time, with keys that
can be sealed to, the removal of another member leaves it no leaf, no leaf key and no roster entry. -/
theorem removal_removes (hsig : S.SigCorrect) (hderive : ∀ profile s, S.Seals (S.derivePublic profile s))
    {fp : Fingerprint} {hint : Nat} {r : RekeyCoins S}
    (h : Run.Along step Orderly (create me padding profile mySig leafSecret)
      (evs ++ [.removeMember fp hint r])) :
    (run me padding profile mySig leafSecret (evs ++ [.removeMember fp hint r])).Gone fp := by
  obtain ⟨hevs, hfp, -⟩ := Run.along_append.mp h
  obtain ⟨g, hseated⟩ := Seated.run hsig hderive hevs
  rw [run, List.foldl_append]
  rcases hseated.removeMember hsig hderive hint r hfp with ⟨heq, hnone⟩ | ⟨g', leaf, hafter, hleaf, hroster⟩
  · show ((run me padding profile mySig leafSecret evs).step (.removeMember fp hint r)).Gone fp
    simp only [World.step, heq]
    exact hseated.gone hnone
  · refine hafter.gone fun l hl => ?_
    rw [hroster, Table.lookup_erase_eq] at hl
    split at hl
    · cases hl
    · next hne => exact hne (hseated.single l leaf fp hl hleaf)

end Runs

/-! ## Runs of a small group -/

def plainRun (evs : List (Event Scheme.plain)) : World Scheme.plain :=
  run hostFp none .pqPure (100 : UInt8) (10 : UInt8) evs

def joinEvent (secret sig fresh : UInt8) : Event Scheme.plain :=
  .keyPackage peerFp (packageBytes secret sig) (TreeKem.World.plainCoins fresh)

def removeEvent (hint : Nat) (fresh : UInt8) : Event Scheme.plain :=
  .removeMember peerFp hint (TreeKem.World.plainCoins fresh)

theorem removal_removes_joined :
    ([1] : List Nat).map (plainRun [joinEvent 20 101 11]).seat = [some peerFp] ∧
      (plainRun ([joinEvent 20 101 11] ++ [removeEvent 1 12])).Gone peerFp := by
  refine ⟨by decide, removal_removes Scheme.plain_lawful.verify_sign (fun _ _ x _ => ⟨_, rfl⟩) ⟨?_, ?_, trivial⟩⟩
  · intro g kp hg hadmit hkp
    refine ⟨fun l _ hseat => ?_, fun x _ => ⟨_, rfl⟩⟩
    have hseat' : (if l = 0 then some hostFp else none) = some peerFp := hseat
    split at hseat'
    · exact absurd (Option.some.inj hseat') (by decide)
    · cases hseat'
  · show peerFp ≠ hostFp
    decide

/-- The peer joins twice and is removed once: the removal takes out leaf 1, and leaf 2 stays occupied by
the same peer and listed in the roster. -/
theorem second_seat_stays :
    (plainRun [joinEvent 20 101 11, joinEvent 21 102 12, removeEvent 1 13]).node.isOccupied 2 = true ∧
    (plainRun [joinEvent 20 101 11, joinEvent 21 102 12, removeEvent 1 13]).seat 2 = some peerFp ∧
    (plainRun [joinEvent 20 101 11, joinEvent 21 102 12, removeEvent 1 13]).node.roster.lookup 2 = some peerFp ∧
    ¬ (plainRun [joinEvent 20 101 11, joinEvent 21 102 12, removeEvent 1 13]).Gone peerFp := by
  have hroster : (plainRun [joinEvent 20 101 11, joinEvent 21 102 12, removeEvent 1 13]).node.roster.lookup 2 =
      some peerFp := by decide
  exact ⟨by decide, by decide, hroster, fun h => h.roster 2 hroster⟩

end World
end Talkrypt.Core.Roster
