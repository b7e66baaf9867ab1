import Talkrypt.Lib.Closure
import Talkrypt.Crypto.TreeKem.World

/-!
# What the holder of a member's secrets can compute

The symbolic reading of the cryptography: from a secret one computes the secrets derived from it, and
opens the blobs sealed to its public key (`Learns`). In an ideal scheme every secret goes back to one
draw, its origin, and a blob is opened by the secret it is sealed to and by no other (`Ideal`). A member
that applies commits computes nothing else (`Group.Confined.applyCommit`).
-/

namespace Talkrypt.TreeKem

variable {S : Scheme}

/-- The draw that a secret, and the public key of a secret, go back to. -/
structure Origin (S : Scheme) (ι : Type) where
  secret : S.Secret → ι
  key : S.Public → ι

namespace Scheme

/-- Derivations keep the origin, and a blob yields its content to the secret it is sealed to only. -/
structure Ideal (S : Scheme) {ι : Type} (o : Origin S ι) : Prop where
  parent : ∀ s, o.secret (S.deriveParentSecret s) = o.secret s
  commit : ∀ s, o.secret (S.deriveCommitSecret s) = o.secret s
  sender : ∀ s leaf, o.secret (S.senderChain s leaf) = o.secret s
  key : ∀ profile s, o.key (S.derivePublic profile s) = o.secret s
  seals : ∀ pk x c, ∃ b, S.sealSecret pk x c = .ok b
  open_only : ∀ pk x c b profile s y, S.sealSecret pk x c = .ok b → S.openSecret profile s b = .ok y →
    pk = S.derivePublic profile s ∧ y = x
  verify_sign : S.SigCorrect

theorem Ideal.iterate_parent {ι : Type} {o : Origin S ι} (hI : S.Ideal o) (d : Nat) (s : S.Secret) :
    o.secret ((S.deriveParentSecret)^[d] s) = o.secret s := by
  induction d generalizing s with
  | zero => rfl
  | succ d ih => rw [Function.iterate_succ_apply, ih, hI.parent]

end Scheme

/-- One step of computation with a secret, with the blobs at hand. -/
inductive Learns (blobs : List S.Blob) : S.Secret → S.Secret → Prop
  | parent (s : S.Secret) : Learns blobs s (S.deriveParentSecret s)
  | commit (s : S.Secret) : Learns blobs s (S.deriveCommitSecret s)
  | sender (s : S.Secret) (leaf : Nat) : Learns blobs s (S.senderChain s leaf)
  | opened {s x : S.Secret} {b : S.Blob} {profile : KemProfile} (hb : b ∈ blobs)
    (h : S.openSecret profile s b = .ok x) : Learns blobs s x

theorem Learns.mono {blobs blobs' : List S.Blob} (hsub : blobs ⊆ blobs') {s t : S.Secret}
    (h : Learns blobs s t) : Learns blobs' s t := by
  cases h with
  | parent => exact .parent s
  | commit => exact .commit s
  | sender leaf => exact .sender s leaf
  | opened hb hopen => exact .opened (hsub hb) hopen

/-- A set of secrets that computation does not leave. -/
def Closed (blobs : List S.Blob) (K : S.Secret → Prop) : Prop := ∀ s t, Learns blobs s t → K s → K t

def Commit.blobs (c : Commit S) : List S.Blob := c.ciphertexts.map fun e => e.2.2

theorem Closed.chainUp {blobs : List S.Blob} {K : S.Secret → Prop} (hK : Closed blobs K)
    {path : List Node} {s : S.Secret} (hs : K s) : ∀ e ∈ chainUp s path, K e.2 := by
  induction path generalizing s with
  | nil => intro e he; cases he
  | cons n path ih =>
    intro e he
    rcases List.mem_cons.mp he with rfl | hmem
    · exact hs
    · exact ih (hK _ _ (.parent s) hs) e hmem

theorem Closed.topSecret {blobs : List S.Blob} {K : S.Secret → Prop} (hK : Closed blobs K)
    {path : List Node} {s : S.Secret} (hs : K s) : K (topSecret s path) := by
  unfold TreeKem.topSecret
  induction path.length - 1 with
  | zero => exact hs
  | succ n ih =>
    rw [Function.iterate_succ_apply']
    exact hK _ _ (.parent _) ih

namespace Group
variable {g : Group S} {c : Commit S} {K : S.Secret → Prop} {l : Nat} {blobs : List S.Blob}

def Knows (g : Group S) (s : S.Secret) : Prop :=
  (∃ n, g.secrets.lookup n = some s) ∨ (∃ kp, g.pendingUpdate = some kp ∧ kp.secret = s) ∨
    s = g.epochSecret ∨ s = g.sendChain

/-- The member at leaf `l` knows secrets of `K` only. -/
structure Confined (K : S.Secret → Prop) (l : Nat) (g : Group S) : Prop where
  me : g.me = l
  secrets : ∀ n s, g.secrets.lookup n = some s → K s
  pending : ∀ kp, g.pendingUpdate = some kp → K kp.secret
  epoch : K g.epochSecret
  chain : K g.sendChain

theorem Confined.knows (h : g.Confined K l) {s : S.Secret} (hs : g.Knows s) : K s := by
  rcases hs with ⟨n, hn⟩ | ⟨kp, hkp, rfl⟩ | rfl | rfl
  · exact h.secrets n s hn
  · exact h.pending kp hkp
  · exact h.epoch
  · exact h.chain

theorem Confined.mono {K' : S.Secret → Prop} (h : g.Confined K l) (hK : ∀ s, K s → K' s) :
    g.Confined K' l :=
  ⟨h.me, fun n s hs => hK _ (h.secrets n s hs), fun kp hkp => hK _ (h.pending kp hkp), hK _ h.epoch,
    hK _ h.chain⟩

/-! ## Applying a commit -/

private theorem lookup_of_eraseAll {t : Table Node S.Secret} {ns : List Node} {n : Node} {s : S.Secret}
    (h : (t.eraseAll ns).lookup n = some s) : t.lookup n = some s := by
  rw [Table.lookup_eraseAll] at h
  split at h
  · cases h
  · exact h

private theorem lookup_of_erase {t : Table Node S.Secret} {k n : Node} {s : S.Secret}
    (h : (t.erase k).lookup n = some s) : t.lookup n = some s := by
  rw [Table.lookup_erase_eq] at h
  split at h
  · cases h
  · exact h

theorem Confined.installPending (h : g.Confined K l) (leaf : Nat) :
    (g.installPending leaf).Confined K l := by
  unfold Group.installPending
  split
  · split
    · next kp hkp =>
      refine ⟨h.me, fun n s hs => ?_, nofun, h.epoch, h.chain⟩
      have hs' := (Table.lookup_insert_eq g.secrets (.leaf g.me) kp.secret n).symm.trans hs
      split at hs'
      · cases hs'
        exact h.pending kp hkp
      · exact h.secrets n s hs'
    · exact h
  · exact h

theorem Confined.blankPathAbove (h : g.Confined K l) (leaf : Nat) :
    (g.blankPathAbove leaf).Confined K l :=
  ⟨h.me, fun n s hs => h.secrets n s (lookup_of_eraseAll hs), h.pending, h.epoch, h.chain⟩

theorem Confined.enactProposal (h : g.Confined K l) (p : Proposal S) :
    (g.enactProposal p).Confined K l := by
  cases p with
  | add leaf lp sp pop =>
    apply Confined.blankPathAbove
    exact ⟨h.me, h.secrets, h.pending, h.epoch, h.chain⟩
  | remove leaf =>
    apply Confined.blankPathAbove
    exact ⟨h.me, fun n s hs => h.secrets n s (lookup_of_erase hs), h.pending, h.epoch, h.chain⟩
  | update leaf lp sp pop auth =>
    apply Confined.blankPathAbove
    apply Confined.installPending
    exact ⟨h.me, h.secrets, h.pending, h.epoch, h.chain⟩

theorem Confined.applyProposals (h : g.Confined K l) (ps : List (Proposal S)) :
    (g.applyProposals ps).1.Confined K l := by
  induction ps generalizing g with
  | nil => exact h
  | cons p ps ih =>
    rw [Group.applyProposals]
    split
    · exact h
    · exact ih (h.enactProposal p)

theorem Confined.growTo (h : g.Confined K l) (capacity : Nat) : (g.growTo capacity).Confined K l := by
  unfold Group.growTo
  split
  · exact ⟨h.me, h.secrets, h.pending, h.epoch, h.chain⟩
  · exact h

theorem Confined.applySigUpdate (h : g.Confined K l) {su : Option (Nat × IdentityPublic × Bytes)}
    {g' : Group S} (hsu : g.applySigUpdate su = .ok g') : g'.Confined K l := by
  unfold Group.applySigUpdate at hsu
  split at hsu
  · cases hsu; exact h
  · split at hsu
    · cases hsu
    · split at hsu
      · cases hsu
      · obtain ⟨-, -, hsu⟩ := except_bind_eq_ok.mp hsu
        cases hsu
        exact ⟨h.me, h.secrets, h.pending, h.epoch, h.chain⟩

theorem findHeld_secret {below target node : Node} {path rest : List Node} {s : S.Secret}
    (h : g.findHeld below path = some (target, s, node, rest)) : ∃ n, g.secrets.lookup n = some s := by
  induction path generalizing below with
  | nil => cases h
  | cons n path ih =>
    rw [findHeld] at h
    split at h
    · next t s' hfound =>
      cases h
      obtain ⟨t', -, hlookup⟩ := List.exists_of_findSome?_eq_some hfound
      obtain ⟨s', hs', heq⟩ := Option.map_eq_some_iff.mp hlookup
      cases heq
      exact ⟨_, hs'⟩
    · exact ih h

theorem processUpdatePath_fst (g : Group S) (c : Commit S) :
    ∃ pubs secrets, (g.processUpdatePath c).1 = { g with pubs, secrets } := by
  unfold Group.processUpdatePath
  dsimp only
  split
  · exact ⟨_, _, rfl⟩
  · split
    · exact ⟨_, _, rfl⟩
    · split <;> exact ⟨_, _, rfl⟩

theorem processUpdatePath_secrets (hK : Closed blobs K) (hc : c.blobs ⊆ blobs)
    (h : ∀ n s, g.secrets.lookup n = some s → K s) :
    (∀ n s, (g.processUpdatePath c).1.secrets.lookup n = some s → K s) ∧
      ∀ s, (g.processUpdatePath c).2 = .ok s → K s := by
  unfold Group.processUpdatePath
  dsimp only
  split
  · exact ⟨h, nofun⟩
  · next target s node rest hheld =>
    split
    · exact ⟨h, nofun⟩
    · next blob hfind =>
      split
      · exact ⟨h, nofun⟩
      · next ps hopen =>
        -- the opened secret is computed from a held one, and the rest of the path from it
        have hs : K s := by
          split at hheld
          · cases hheld
          · obtain ⟨n, hn⟩ := findHeld_secret hheld
            exact h n s hn
        have hblob : blob ∈ blobs := hc (List.mem_map.mpr ⟨_, List.mem_of_find?_eq_some hfind, rfl⟩)
        have hps : K ps := hK s ps (.opened hblob hopen) hs
        refine ⟨fun n t ht => ?_, fun t ht => ?_⟩
        · have ht' := (Table.lookup_insertAll ..).symm.trans ht
          rcases Option.or_eq_some_iff.mp ht' with hlast | ⟨-, hold⟩
          · exact hK.chainUp hps _ (Table.mem_of_lastOf hlast)
          · exact h n t hold
        · cases ht
          exact hK _ _ (.commit _) (hK.topSecret hps)

theorem Confined.enter (hK : Closed blobs K) {m : Group S} (hme : m.me = l)
    (hsecrets : ∀ n s, m.secrets.lookup n = some s → K s)
    (hpending : ∀ kp, m.pendingUpdate = some kp → K kp.secret) (hepoch : K m.epochSecret) :
    m.resetEpoch.Confined K l :=
  ⟨hme, hsecrets, hpending, hepoch, hK _ _ (.sender _ _) hepoch⟩

theorem Confined.applyCommit (hK : Closed blobs K) (hc : c.blobs ⊆ blobs) (h : g.Confined K l) :
    (g.applyCommit c).1.Confined K l := by
  have happly := (h.growTo c.newCapacity).applyProposals c.proposals
  unfold Group.applyCommit
  split
  · exact h
  · split
    · next hres => rw [hres] at happly; exact happly
    · next g₁ hres =>
      rw [hres] at happly
      split
      · exact happly
      · next g₂ hsu =>
        have hg₂ := happly.applySigUpdate hsu
        obtain ⟨pubs, secrets, hfst⟩ := processUpdatePath_fst g₂ c
        obtain ⟨hsecrets, hsecret⟩ := processUpdatePath_secrets hK hc hg₂.secrets
        split
        · next hres =>
          rw [hres] at hfst hsecrets
          subst hfst
          exact ⟨hg₂.me, hsecrets, hg₂.pending, hg₂.epoch, hg₂.chain⟩
        · next g₃ secret hres =>
          rw [hres] at hfst hsecrets hsecret
          subst hfst
          exact .enter hK hg₂.me hsecrets hg₂.pending (hsecret secret rfl)

/-! ## Joining and proposing -/

theorem Confined.joinWithWelcome (hK : Closed blobs K) {kp : LeafKeyPair S} {w : Welcome S}
    (hc : w.commit.blobs ⊆ blobs) (hkp : K kp.secret) (h : joinWithWelcome kp w = .ok g) :
    g.Confined K w.yourLeaf := by
  obtain ⟨-, -, h⟩ := except_bind_eq_ok.mp h
  have hjoining : ∀ n s, (joining kp w).secrets.lookup n = some s → K s := by
    intro n s hs
    have hs' := (Table.lookup_insert_eq (∅ : Table Node S.Secret) (Node.leaf w.yourLeaf) kp.secret
      n).symm.trans hs
    split at hs'
    · cases hs'; exact hkp
    · cases hs'
  obtain ⟨pubs, secrets, hfst⟩ := processUpdatePath_fst (joining kp w) w.commit
  obtain ⟨hsecrets, hsecret⟩ := processUpdatePath_secrets hK hc hjoining
  split at h
  · cases h
  · next g₁ secret hres =>
    cases h
    rw [hres] at hfst hsecrets hsecret
    subst hfst
    exact .enter hK rfl hsecrets nofun (hsecret secret rfl)

theorem Confined.proposeUpdate (h : g.Confined K l) {secret : S.Secret} (hs : K secret) (sig : S.SigSeed) :
    (g.proposeUpdate secret sig).1.Confined K l := by
  unfold Group.proposeUpdate
  split
  · exact h
  · exact ⟨h.me, h.secrets, fun kp hkp => by cases hkp; exact hs, h.epoch, h.chain⟩

end Group
end Talkrypt.TreeKem
