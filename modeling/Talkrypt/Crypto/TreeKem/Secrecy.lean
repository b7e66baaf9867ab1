import Talkrypt.Crypto.TreeKem.Knowledge

/-!
# Removal secrecy

What removed members can compute from all they ever held and all blobs of the log. A commit is sealed
to the leaf keys of the tree it leaves behind, so the question is who has drawn these keys. As long as
every leaf secret and every path secret is drawn anew, a leaf carries a key only from its occupant's
`Add` to its `Remove` (`World.Kept`), and removed members, in any coalition, compute no epoch secret from
the removal on (`World.removal_secrecy`). Nothing makes the host refuse a key that is in the tree
already: added twice, a member survives its removal (`World.readded_key_survives`).
-/

namespace Talkrypt.TreeKem

variable {S : Scheme} {ι : Type}

/-! ## The symbolic scheme -/

inductive Derivation where
  | parent
  | commit
  | sender (leaf : Nat)
deriving DecidableEq, Encodable

/-- A draw and what has been derived from it, the last derivation first. -/
structure Term where
  draw : Nat
  path : List Derivation
deriving DecidableEq, Encodable

namespace Term

def drawn (n : Nat) : Term := ⟨n, []⟩

def derive (t : Term) (d : Derivation) : Term := ⟨t.draw, d :: t.path⟩

def encode (t : Term) : Bytes := List.replicate (Encodable.encode t) 0

theorem of_opened {pk s x y : Term}
    (h : (if pk = s then .ok x else .error CryptoError.decryptionFailed) = Except.ok y) : pk = s ∧ y = x := by
  split at h
  · next heq => cases h; exact ⟨heq, rfl⟩
  · cases h

end Term

/-- Secrets are terms, and a key is the term it belongs to. -/
def Scheme.symbolic : Scheme where
  Secret := Term
  zero := .drawn 0
  Public := Term
  encode := Term.encode
  decode _ bytes := match Encodable.decode bytes.length with
    | some t => .ok t
    | none => .error (.malformed "ml-kem encapsulation key length")
  Blob := Term × Term
  blobBytes b := b.1.encode ++ b.2.encode
  Coin := Unit
  deriveParentSecret t := t.derive .parent
  deriveCommitSecret t := t.derive .commit
  senderChain t leaf := t.derive (.sender leaf)
  derivePublic _ t := t
  sealSecret pk x _ := .ok (pk, x)
  openSecret _ s b := if b.1 = s then .ok b.2 else .error .decryptionFailed
  SigSeed := UInt8
  sigVkLen := 1
  sigPublic k := ⟨[k]⟩
  sign k _ := [k]
  verify pk _ sig := if pk.sigVk = sig then .ok () else .error .badSignature

def Term.origin : Origin Scheme.symbolic Nat := ⟨Term.draw, Term.draw⟩

theorem symbolic_ideal : Scheme.symbolic.Ideal Term.origin where
  parent _ := rfl
  commit _ := rfl
  sender _ _ := rfl
  key _ _ := rfl
  seals pk x _ := ⟨(pk, x), rfl⟩
  open_only pk x _ b _ s y hseal hopen := by
    cases hseal
    exact Term.of_opened hopen
  verify_sign _ _ := if_pos rfl

def symbolicKeys (n : Nat) (sig : UInt8) : LeafKeyPair Scheme.symbolic := ⟨.pqPure, Term.drawn n, sig⟩

def symbolicCoins (n : Nat) : RekeyCoins Scheme.symbolic := ⟨Term.drawn n, fun _ _ => ()⟩

/-! ## Leaf keys under a commit -/

namespace Group
variable {g b g' : Group S} {r : RekeyCoins S} {c : Commit S} {l : Nat}

theorem HostInv.leafKey {op : HostOp S} {pk : S.Public} (h : g.HostInv) (hc : op.Commits g r g' c)
    (hl : l ≠ 0) (hpk : g'.pubs.lookup (.leaf l) = some pk) :
    (∃ kp, op = .add kp ∧ c.proposals = [.add l kp.leafPublic kp.sigPublic kp.pop] ∧ pk = kp.leafPublic) ∨
      (∃ b sp pop auth, op.Proposes g b (.update l pk sp pop auth)) ∨
      g.pubs.lookup (.leaf l) = some pk ∧ op ≠ .remove l := by
  cases hc with
  | @proposal _ b _ p _ hprop hcheck hrekey =>
    obtain ⟨hb, hgrown, -⟩ := h.proposes hprop
    rw [hrekey.lookup_leaf (hb.shape.enactProposal hcheck) hl, hb.shape.pubs_leaf_enactProposal,
      hgrown.pubs] at hpk
    split at hpk
    · next heq =>
      subst heq
      cases hprop with
      | add =>
        cases hpk
        exact .inl ⟨_, rfl, hrekey.proposals, rfl⟩
      | remove => cases hpk
      | commitUpdate hdecode =>
        cases hpk
        exact .inr (.inl ⟨g, _, _, _, .commitUpdate hdecode⟩)
    · next hne =>
      refine .inr (.inr ⟨hpk, ?_⟩)
      rintro rfl
      cases hprop
      exact hne rfl
  | rotation hrekey =>
    have hpk' := (hrekey.lookup_leaf h.shape hl).symm.trans hpk
    exact .inr (.inr ⟨hpk', nofun⟩)

end Group

/-- Every blob of a commit is sealed to a leaf key of the tree after it, and carries a secret that goes
back to the commit's own draw. -/
theorem Entry.Made.blob {o : Origin S ι} {e : Entry S} (h : e.Made) (hI : S.Ideal o) {b : S.Blob}
    (hb : b ∈ e.commit.blobs) :
    ∃ l pk x coin, l ≠ 0 ∧ e.after.pubs.lookup (.leaf l) = some pk ∧ S.sealSecret pk x coin = .ok b ∧
      o.secret x = o.secret e.coins.fresh := by
  have hcommits := h.commits
  obtain ⟨ct, hct, rfl⟩ := List.mem_map.mp hb
  obtain ⟨before, op, coins, after, commit, welcome⟩ := e
  cases hcommits with
  | @proposal _ t _ p _ hprop hcheck hrekey =>
    obtain ⟨ht, -, -⟩ := h.before.proposes hprop
    have hafter := ht.enactProposal hcheck (hprop.ne_remove h.op)
    obtain ⟨l, pk, d, coin, hl, hpk, hseal⟩ := hrekey.mem_ciphertexts hafter.shape hafter.occupied hct
    exact ⟨l, pk, _, coin, hl, hpk, hseal, hI.iterate_parent d _⟩
  | rotation hrekey =>
    obtain ⟨l, pk, d, coin, hl, hpk, hseal⟩ := hrekey.mem_ciphertexts h.before.shape h.before.occupied hct
    exact ⟨l, pk, _, coin, hl, hpk, hseal, hI.iterate_parent d _⟩

theorem Entry.Made.epochSecret {o : Origin S ι} {e : Entry S} (h : e.Made) (hI : S.Ideal o) :
    o.secret e.after.epochSecret = o.secret e.coins.fresh := by
  have hcommits := h.commits
  obtain ⟨before, op, coins, after, commit, welcome⟩ := e
  cases hcommits with
  | proposal hprop hcheck hrekey =>
    rw [hrekey.group]
    exact (hI.commit _).trans (hI.iterate_parent _ _)
  | @rotation newSig g₁ _ hrekey =>
    show o.secret g₁.epochSecret = _
    rw [hrekey.group]
    exact (hI.commit _).trans (hI.iterate_parent _ _)

namespace World

/-! ## Who has drawn the leaf keys -/

section History
variable (w : World S) (o : Origin S ι)

def blobs (log : List (Entry S)) : List S.Blob := log.flatMap fun e => e.commit.blobs

/-- What can be computed from some secrets and the log. -/
def Computes (drawn : List S.Secret) : S.Secret → Prop := Closure (Learns (blobs w.log)) (· ∈ drawn)

def Adds (i leaf : Nat) (kp : KeyPackage S) : Prop :=
  ∃ e, w.log[i]? = some e ∧ e.op = .add kp ∧
    e.commit.proposals = [.add leaf kp.leafPublic kp.sigPublic kp.pop]

/-- `a` is the origin of the key package added at `leaf` by commit `i`, or of a leaf secret drawn by
whoever joined with its Welcome. -/
def Owns (i leaf : Nat) (a : ι) : Prop :=
  ∃ kp, w.Adds i leaf kp ∧
    (o.key kp.leafPublic = a ∨ ∃ m ∈ w.members, m.joined = i ∧ a ∈ m.drawn.map o.secret)

/-- No commit after `i` and up to `k` removes `leaf`. -/
def Stays (leaf i k : Nat) : Prop :=
  ∀ i' e, i < i' → i' ≤ k → w.log[i']? = some e → e.op ≠ .remove leaf

/-- The origins seen so far: path secrets, key packages and the draws of the members. -/
def used : List ι :=
  (w.log.map fun e => o.secret e.coins.fresh) ++
    w.log.filterMap (fun e => match e.op with
      | .add kp => some (o.key kp.leafPublic)
      | _ => none) ++
    w.members.flatMap fun m => m.drawn.map o.secret

/-- The steps considered: leaf 0 is not removed, secrets are drawn anew, no key package carries a leaf key
seen before, joiners use the Welcome made for their key package, and an `Update` carries a leaf key
drawn by the occupant of the leaf. -/
def Distinct : Event S → Prop
  | .host op r => op ≠ .remove 0 ∧ o.secret r.fresh ∉ w.used o ∧
    (∀ kp, op = .add kp → o.key kp.leafPublic ∉ w.used o ∧ o.key kp.leafPublic ≠ o.secret r.fresh) ∧
    ∀ b l lp sp pop auth, op.Proposes w.host b (.update l lp sp pop auth) → l ≠ 0 →
      ∃ m ∈ w.members, m.group.me = l ∧ w.Stays l m.joined w.log.length ∧ o.key lp ∈ m.drawn.map o.secret
  | .join i kp => ∀ e, w.log[i]? = some e → e.op = .add kp.keyPackage
  | .propose _ secret _ => o.secret secret ∉ w.used o
  | _ => True

/-- Every leaf key but leaf 0's goes back to a draw of the occupant of its leaf, from its `Add` on and
up to its `Remove`, and members know what they can compute from their draws only. -/
structure Kept : Prop where
  host : w.host.HostInv
  log : ∀ e ∈ w.log, e.Made
  adds : ∀ m ∈ w.members, ∃ kp, w.Adds m.joined m.group.me kp
  confined : ∀ m ∈ w.members, m.group.Confined (w.Computes m.drawn) m.group.me
  fresh : (w.log.map fun e => o.secret e.coins.fresh).Nodup
  unique : ∀ i leaf i' leaf' a, w.Owns o i leaf a → w.Owns o i' leaf' a → i = i'
  draws : ∀ i leaf a, w.Owns o i leaf a → a ∉ w.log.map fun e => o.secret e.coins.fresh
  leaves : ∀ k e l pk, w.log[k]? = some e → l ≠ 0 → e.after.pubs.lookup (.leaf l) = some pk →
    ∃ i, w.Owns o i l (o.key pk) ∧ w.Stays l i k
  now : ∀ l pk, l ≠ 0 → w.host.pubs.lookup (.leaf l) = some pk →
    ∃ i, w.Owns o i l (o.key pk) ∧ w.Stays l i w.log.length

end History

section Lemmas
variable {w : World S} {o : Origin S ι} {i leaf : Nat} {a : ι}

theorem Adds.lt {kp : KeyPackage S} (h : w.Adds i leaf kp) : i < w.log.length := by
  obtain ⟨e, he, -⟩ := h
  exact (List.getElem?_eq_some_iff.mp he).1

theorem Adds.unique {leaf' : Nat} {kp kp' : KeyPackage S} (h : w.Adds i leaf kp) (h' : w.Adds i leaf' kp') :
    leaf = leaf' ∧ kp = kp' := by
  obtain ⟨e, he, hop, hps⟩ := h
  obtain ⟨e', he', hop', hps'⟩ := h'
  cases he.symm.trans he'
  cases hop.symm.trans hop'
  have := hps.symm.trans hps'
  simp only [List.cons.injEq, Proposal.add.injEq] at this
  exact ⟨this.1.1, rfl⟩

theorem Owns.mem_used (h : w.Owns o i leaf a) : a ∈ w.used o := by
  obtain ⟨kp, ⟨e, he, hop, -⟩, rfl | ⟨m, hm, -, ha⟩⟩ := h
  · refine List.mem_append_left _ (List.mem_append_right _ (List.mem_filterMap.mpr ⟨e, ?_, by rw [hop]⟩))
    exact List.mem_of_getElem? he
  · exact List.mem_append_right _ (List.mem_flatMap.mpr ⟨m, hm, ha⟩)

theorem mem_used_of_draw (h : a ∈ w.log.map fun e => o.secret e.coins.fresh) : a ∈ w.used o :=
  List.mem_append_left _ (List.mem_append_left _ h)

theorem computes_closed (w : World S) (drawn : List S.Secret) : Closed (blobs w.log) (w.Computes drawn) :=
  fun _ _ hl hs => .step hs hl

variable {e : Entry S}

theorem mem_blobs {log : List (Entry S)} (he : e ∈ log) : e.commit.blobs ⊆ blobs log :=
  fun _ hb => List.mem_flatMap.mpr ⟨e, he, hb⟩

theorem Computes.mono {w' : World S} {drawn drawn' : List S.Secret} {t : S.Secret}
    (h : w.Computes drawn t) (hlog : w.log ⊆ w'.log) (hdrawn : drawn ⊆ drawn') : w'.Computes drawn' t := by
  refine Closure.mono (fun s t hl => hl.mono fun b hb => ?_) (fun s hs => .base (hdrawn hs)) h
  obtain ⟨e, he, hbe⟩ := List.mem_flatMap.mp hb
  exact List.mem_flatMap.mpr ⟨e, hlog he, hbe⟩

theorem Kept.create (hsig : S.SigCorrect) (profile : KemProfile) (mySig : S.SigSeed) (s : S.Secret) :
    (create profile mySig s).Kept o := by
  have hinv := Group.HostInv.createWithSig hsig profile mySig s
  refine
    { host := hinv
      log := fun e he => by cases he
      adds := fun m hm => by cases hm
      confined := fun m hm => by cases hm
      fresh := List.nodup_nil
      unique := fun i leaf i' leaf' a h => ?_
      draws := fun i leaf a _ ha => by cases ha
      leaves := fun k e l pk he => by simp [World.create] at he
      now := fun l pk hl hpk => ?_ }
  · obtain ⟨kp, hadd, -⟩ := h
    exact absurd hadd.lt (Nat.not_lt_zero _)
  · have hocc := hinv.shape.leaves l
    have hpk' : ((Group.createWithSig profile mySig s).pubs.lookup (.leaf l)) = some pk := hpk
    rw [hpk'] at hocc
    have hnone : (Group.createWithSig profile mySig s).isOccupied l = false := by
      rcases l with _ | _ | l
      · exact absurd rfl hl
      · rfl
      · rfl
    rw [hnone] at hocc
    cases hocc

/-! ### Steps of the host -/

section Commit
variable {e : Entry S} {g : Group S}

theorem Adds.snoc {kp : KeyPackage S} (h : w.Adds i leaf kp) :
    Adds { w with host := g, log := w.log ++ [e] } i leaf kp := by
  have hlt := h.lt
  obtain ⟨e', he', hop⟩ := h
  exact ⟨e', (List.getElem?_append_left hlt).trans he', hop⟩

theorem Owns.snoc (h : w.Owns o i leaf a) : Owns { w with host := g, log := w.log ++ [e] } o i leaf a := by
  obtain ⟨kp, hadd, ha⟩ := h
  exact ⟨kp, hadd.snoc, ha⟩

theorem Kept.owns_snoc (h : w.Kept o)
    (howns : Owns { w with host := g, log := w.log ++ [e] } o i leaf a) :
    w.Owns o i leaf a ∨ i = w.log.length ∧ ∃ kp, e.op = .add kp ∧ o.key kp.leafPublic = a := by
  obtain ⟨kp, ⟨e', he', hop, hps⟩, ha⟩ := howns
  rcases getElem?_concat he' with hold | ⟨rfl, rfl⟩
  · exact .inl ⟨kp, ⟨e', hold, hop, hps⟩, ha⟩
  · rcases ha with rfl | ⟨m, hm, hj, -⟩
    · exact .inr ⟨rfl, kp, hop, rfl⟩
    · -- nobody has joined with the Welcome of a commit that is only made now
      obtain ⟨kp', hadd⟩ := h.adds m hm
      exact absurd hj hadd.lt.ne

theorem Stays.snoc {k : Nat} (h : w.Stays leaf i k) (hop : k < w.log.length ∨ e.op ≠ .remove leaf)
    (hk : k ≤ w.log.length) :
    Stays { w with host := g, log := w.log ++ [e] } leaf i k := by
  intro i' e' hi hk' he'
  rcases getElem?_concat he' with hold | ⟨rfl, rfl⟩
  · exact h i' e' hi hk' hold
  · rcases hop with hlt | hop
    · omega
    · exact hop

private theorem Kept.commit (hI : S.Ideal o) (h : w.Kept o) {op : HostOp S} {r : RekeyCoins S}
    {c : Commit S} {wel : Option (Welcome S)} (hok : w.Distinct o (.host op r))
    (hexec : op.exec w.host r = (g, .ok (c, wel))) :
    Kept { w with host := g, log := w.log ++ [⟨w.host, op, r, g, c, wel⟩] } o := by
  obtain ⟨hremove, hfresh, hadd, hupdate⟩ := hok
  obtain ⟨hcommits, hwelcome⟩ := HostOp.exec_eq_ok h.host.me hexec
  have hnow : ∀ l pk, l ≠ 0 → g.pubs.lookup (.leaf l) = some pk →
      ∃ i, Owns { w with host := g, log := w.log ++ [⟨w.host, op, r, g, c, wel⟩] } o i l (o.key pk) ∧
        Stays { w with host := g, log := w.log ++ [⟨w.host, op, r, g, c, wel⟩] } l i w.log.length := by
    intro l pk hl hpk
    rcases h.host.leafKey hcommits hl hpk with ⟨kp, rfl, hps, rfl⟩ | ⟨b, sp, pop, auth, hprop⟩ | ⟨hold, hop⟩
    · refine ⟨w.log.length, ⟨kp, ⟨⟨w.host, .add kp, r, g, c, wel⟩, by simp, rfl, hps⟩, .inl rfl⟩, fun i' e' hi hk' _ => ?_⟩
      omega
    · obtain ⟨m, hm, rfl, hstays, hkey⟩ := hupdate b l pk sp pop auth hprop hl
      obtain ⟨kp, hadds⟩ := h.adds m hm
      refine ⟨m.joined, ⟨kp, hadds.snoc, .inr ⟨m, hm, rfl, hkey⟩⟩, hstays.snoc (.inr ?_) le_rfl⟩
      cases hprop
      exact nofun
    · obtain ⟨i, howns, hstays⟩ := h.now l pk hl hold
      exact ⟨i, howns.snoc, hstays.snoc (.inr hop) le_rfl⟩
  refine
    { host := h.host.commits hI.verify_sign hremove hcommits
      log := fun e he => ?_
      adds := fun m hm => ?_
      confined := fun m hm => (h.confined m hm).mono fun s hs =>
        hs.mono (List.subset_append_left _ _) (List.Subset.refl _)
      fresh := ?_
      unique := fun i leaf i' leaf' a ha ha' => ?_
      draws := fun i leaf a ha => ?_
      leaves := fun k e l pk he hl hpk => ?_
      now := fun l pk hl hpk => ?_ }
  · rcases List.mem_append.mp he with hmem | hmem
    · exact h.log e hmem
    · obtain rfl := List.mem_singleton.mp hmem
      exact ⟨h.host, hremove, hcommits, hwelcome⟩
  · obtain ⟨kp, hadds⟩ := h.adds m hm
    exact ⟨kp, hadds.snoc⟩
  · rw [List.map_append, List.nodup_append]
    refine ⟨h.fresh, List.nodup_singleton _, fun a ha b hb => ?_⟩
    rintro rfl
    obtain rfl := List.mem_singleton.mp hb
    exact hfresh (mem_used_of_draw ha)
  · rcases h.owns_snoc ha with hold | ⟨rfl, kp, hop, rfl⟩
    · rcases h.owns_snoc ha' with hold' | ⟨rfl, kp', hop', rfl⟩
      · exact h.unique _ _ _ _ _ hold hold'
      · exact absurd hold.mem_used (hadd kp' hop').1
    · rcases h.owns_snoc ha' with hold' | ⟨rfl, -⟩
      · exact absurd hold'.mem_used (hadd kp hop).1
      · rfl
  · rw [List.map_append, List.mem_append, not_or]
    rcases h.owns_snoc ha with hold | ⟨rfl, kp, hop, rfl⟩
    · refine ⟨h.draws _ _ _ hold, fun hmem => ?_⟩
      obtain rfl := List.mem_singleton.mp hmem
      exact hfresh hold.mem_used
    · refine ⟨fun hmem => (hadd kp hop).1 (mem_used_of_draw hmem), fun hmem => ?_⟩
      exact (hadd kp hop).2 (List.mem_singleton.mp hmem)
  · rcases getElem?_concat he with hold | ⟨rfl, rfl⟩
    · have hlt := (List.getElem?_eq_some_iff.mp hold).1
      obtain ⟨i, howns, hstays⟩ := h.leaves k e l pk hold hl hpk
      exact ⟨i, howns.snoc, hstays.snoc (.inl hlt) hlt.le⟩
    · exact hnow l pk hl hpk
  · obtain ⟨i, howns, hstays⟩ := hnow l pk hl hpk
    refine ⟨i, howns, fun i' e' hi _ he' => ?_⟩
    have hlt := (List.getElem?_eq_some_iff.mp he').1
    rw [List.length_append, List.length_singleton] at hlt
    exact hstays i' e' hi (by omega) he'

end Commit

private theorem Kept.idle (h : w.Kept o) {g : Group S} (hinv : g.HostInv) (hpubs : g.pubs = w.host.pubs) :
    Kept { w with host := g } o :=
  { h with host := hinv, now := fun l pk hl hpk => h.now l pk hl (hpubs ▸ hpk) }

/-! ### Steps of the members -/

private theorem Kept.setMembers (h : w.Kept o) {members : List (Member S)} (i₀ : Nat)
    (hadds : ∀ m ∈ members, ∃ kp, w.Adds m.joined m.group.me kp)
    (hconfined : ∀ m ∈ members, m.group.Confined (w.Computes m.drawn) m.group.me)
    (hmono : ∀ i leaf a, w.Owns o i leaf a → Owns { w with members } o i leaf a)
    (hnew : ∀ i leaf a, Owns { w with members } o i leaf a → w.Owns o i leaf a ∨ a ∉ w.used o ∧ i = i₀) :
    Kept { w with members } o := by
  refine
    { host := h.host
      log := h.log
      adds := hadds
      confined := hconfined
      fresh := h.fresh
      unique := fun i leaf i' leaf' a ha ha' => ?_
      draws := fun i leaf a ha hmem => ?_
      leaves := fun k e l pk he hl hpk => ?_
      now := fun l pk hl hpk => ?_ }
  · rcases hnew _ _ _ ha with hold | ⟨hunused, rfl⟩
    · rcases hnew _ _ _ ha' with hold' | ⟨hunused, -⟩
      · exact h.unique _ _ _ _ _ hold hold'
      · exact absurd hold.mem_used hunused
    · rcases hnew _ _ _ ha' with hold' | ⟨-, rfl⟩
      · exact absurd hold'.mem_used hunused
      · rfl
  · rcases hnew _ _ _ ha with hold | ⟨hunused, -⟩
    · exact h.draws _ _ _ hold hmem
    · exact hunused (mem_used_of_draw hmem)
  · obtain ⟨i, howns, hstays⟩ := h.leaves k e l pk he hl hpk
    exact ⟨i, hmono _ _ _ howns, hstays⟩
  · obtain ⟨i, howns, hstays⟩ := h.now l pk hl hpk
    exact ⟨i, hmono _ _ _ howns, hstays⟩

private theorem Kept.join (hI : S.Ideal o) (h : w.Kept o) {kp : LeafKeyPair S} {wel : Welcome S} {g : Group S}
    (he : w.log[i]? = some e) (hop : e.op = .add kp.keyPackage) (hwel : e.welcome = some wel)
    (hjoin : Group.joinWithWelcome kp wel = .ok g) :
    Kept { w with members := w.members ++ [⟨g, i + 1, true, i, [kp.secret]⟩] } o := by
  have hmade := (h.log e (List.mem_of_getElem? he)).welcome
  rw [hop, hwel] at hmade
  obtain ⟨leaf, heq, hps⟩ := hmade
  obtain rfl := Option.some.inj heq
  have hadds : w.Adds i leaf kp.keyPackage := ⟨e, he, hop, hps⟩
  have hconf : g.Confined (w.Computes [kp.secret]) leaf :=
    Group.Confined.joinWithWelcome (computes_closed w _) (mem_blobs (List.mem_of_getElem? he))
      (.base (List.mem_singleton_self _)) hjoin
  refine h.setMembers 0 (fun m hm => ?_) (fun m hm => ?_) (fun i' leaf' a ha => ?_)
    fun i' leaf' a ha => .inl ?_
  · rcases List.mem_append.mp hm with hmem | hmem
    · exact h.adds m hmem
    · obtain rfl := List.mem_singleton.mp hmem
      exact ⟨_, hconf.me ▸ hadds⟩
  · rcases List.mem_append.mp hm with hmem | hmem
    · exact h.confined m hmem
    · obtain rfl := List.mem_singleton.mp hmem
      exact hconf.me ▸ hconf
  · obtain ⟨kp', hadd', ha⟩ := ha
    exact ⟨kp', hadd', ha.imp_right fun ⟨m, hm, hrest⟩ => ⟨m, List.mem_append_left _ hm, hrest⟩⟩
  · obtain ⟨kp', hadd', ha⟩ := ha
    refine ⟨kp', hadd', ?_⟩
    rcases ha with ha | ⟨m, hm, hj, ha⟩
    · exact .inl ha
    · rcases List.mem_append.mp hm with hmem | hmem
      · exact .inr ⟨m, hmem, hj, ha⟩
      · -- the joiner's own draw is the one of its key package
        obtain rfl := List.mem_singleton.mp hmem
        subst hj
        obtain ⟨-, rfl⟩ := Adds.unique hadds hadd'
        obtain rfl := List.mem_singleton.mp ha
        exact .inl (hI.key kp.profile kp.secret)

private theorem Kept.modify (h : w.Kept o) {j : Nat} {f : Member S → Member S}
    (hme : ∀ m, (f m).group.me = m.group.me) (hjoined : ∀ m, (f m).joined = m.joined)
    (hconfined : ∀ m ∈ w.members, (f m).group.Confined (w.Computes (f m).drawn) m.group.me)
    (hdrawn : ∀ m, m.drawn ⊆ (f m).drawn)
    (hnew : ∀ m a, a ∈ (f m).drawn.map o.secret → a ∈ m.drawn.map o.secret ∨ a ∉ w.used o) :
    Kept { w with members := w.members.modify j f } o := by
  refine h.setMembers (((w.members[j]?).map Member.joined).getD 0) ?_ ?_ (fun i leaf a ha => ?_)
    fun i leaf a ha => ?_
  · refine forall_mem_modify h.adds fun m hm => ?_
    rw [hme, hjoined]
    exact h.adds m (List.mem_of_getElem? hm)
  · refine forall_mem_modify h.confined fun m hm => ?_
    rw [hme]
    exact hconfined m (List.mem_of_getElem? hm)
  · obtain ⟨kp, hadd, ha⟩ := ha
    refine ⟨kp, hadd, ha.imp_right ?_⟩
    rintro ⟨m, hm, hj, ha⟩
    obtain ⟨n, hn⟩ := List.mem_iff_getElem?.mp hm
    by_cases hnj : j = n
    · refine ⟨f m, List.mem_iff_getElem?.mpr ⟨n, by simp [hnj, hn]⟩, (hjoined m).trans hj, ?_⟩
      exact List.map_subset _ (hdrawn m) ha
    · exact ⟨m, List.mem_iff_getElem?.mpr ⟨n, by simp [hnj, hn]⟩, hj, ha⟩
  · obtain ⟨kp, hadd, ha⟩ := ha
    rcases ha with ha | ⟨m, hm, hj, ha⟩
    · exact .inl ⟨kp, hadd, .inl ha⟩
    · obtain ⟨n, hn⟩ := List.mem_iff_getElem?.mp hm
      rw [List.getElem?_modify] at hn
      obtain ⟨m₀, hm₀, rfl⟩ := Option.map_eq_some_iff.mp hn
      split at hj
      · next hjn =>
        subst hjn
        rw [if_pos rfl] at ha
        rw [hjoined] at hj
        rcases hnew m₀ a ha with hold | hunused
        · exact .inl ⟨kp, hadd, .inr ⟨m₀, List.mem_of_getElem? hm₀, hj, hold⟩⟩
        · exact .inr ⟨hunused, by rw [hm₀]; exact hj.symm⟩
      · next hjn =>
        rw [if_neg hjn] at ha
        exact .inl ⟨kp, hadd, .inr ⟨m₀, List.mem_of_getElem? hm₀, hj, ha⟩⟩

theorem applyCommit_me (g : Group S) (c : Commit S) : (g.applyCommit c).1.me = g.me :=
  (Group.Confined.applyCommit (show Closed c.blobs fun _ => True from fun _ _ _ _ => trivial)
    (List.Subset.refl _) ⟨rfl, fun _ _ _ => trivial, fun _ _ => trivial, trivial, trivial⟩).me

theorem Member.apply_eq (m : Member S) (log : List (Entry S)) :
    (m.apply log).joined = m.joined ∧ (m.apply log).drawn = m.drawn ∧
      ((m.apply log).group = m.group ∨ ∃ e ∈ log, (m.apply log).group = (m.group.applyCommit e.commit).1) := by
  unfold Member.apply
  split
  · split
    · exact ⟨rfl, rfl, .inl rfl⟩
    · next e he =>
      have hmem := List.mem_of_getElem? he
      split <;> next hres => exact ⟨rfl, rfl, .inr ⟨e, hmem, by rw [hres]⟩⟩
  · exact ⟨rfl, rfl, .inl rfl⟩

theorem Kept.step (hI : S.Ideal o) (w : World S) (ev : Event S) (h : w.Kept o) (hok : w.Distinct o ev) :
    (w.step ev).Kept o := by
  cases ev with
  | host op r =>
    cases hexec : op.exec w.host r with
    | mk g res =>
      cases res with
      | ok cw =>
        simp only [World.step, hexec]
        exact h.commit hI hok hexec
      | error f =>
        simp only [World.step, hexec]
        rcases exec_refused (fun _ _ => hI.seals _) (fun _ pk _ => hI.seals pk) (fun _ _ _ pk _ => hI.seals pk)
          hexec with rfl | ⟨rfl, hfree⟩
        · exact h
        · exact h.idle (h.host.makeRoom hfree) (Group.Grown.makeRoom h.host.shape hfree).pubs
  | hostPropose secret sig =>
    obtain ⟨pending, heq⟩ := proposeUpdate_fst w.host secret sig
    simp only [World.step, heq]
    have hh := h.host
    exact h.idle ⟨⟨hh.shape.capacity, hh.shape.length, hh.shape.leaves, hh.shape.inner⟩, hh.me, hh.occupied,
      hh.sigKeys, hh.pops⟩ rfl
  | join i kp =>
    simp only [World.step]
    split
    · exact h
    · next wel hwel =>
      split
      · next g hjoin =>
        obtain ⟨e, he, hwel⟩ := Option.bind_eq_some_iff.mp hwel
        exact h.join hI he (hok e he) hwel hjoin
      · exact h
  | propose j secret sig =>
    refine h.modify (fun m => ?_) (fun m => rfl) (fun m hm => ?_) (fun m => List.subset_cons_self _ _)
      fun m a ha => ?_
    · obtain ⟨pending, heq⟩ := proposeUpdate_fst m.group secret sig
      simp only [Member.propose, heq]
    · refine Group.Confined.proposeUpdate ((h.confined m hm).mono fun s hs => ?_)
        (.base List.mem_cons_self) sig
      exact hs.mono (List.Subset.refl _) (List.subset_cons_self _ _)
    · rcases List.mem_cons.mp ha with rfl | hmem
      · exact .inr hok
      · exact .inl hmem
  | apply j =>
    refine h.modify (fun m => ?_) (fun m => (Member.apply_eq m w.log).1) (fun m hm => ?_) (fun m => ?_)
      fun m a ha => .inl ?_
    · rcases (Member.apply_eq m w.log).2.2 with heq | ⟨e, -, heq⟩
      · rw [heq]
      · rw [heq, applyCommit_me]
    · obtain ⟨-, hdrawn, hgroup⟩ := Member.apply_eq m w.log
      rw [hdrawn]
      rcases hgroup with heq | ⟨e, he, heq⟩
      · rw [heq]
        exact h.confined m hm
      · rw [heq]
        exact (h.confined m hm).applyCommit (computes_closed w _) (mem_blobs he)
    · rw [(Member.apply_eq m w.log).2.1]
      exact List.Subset.refl _
    · rwa [(Member.apply_eq m w.log).2.1] at ha

/-! ## What removed members compute -/

def RemovedBy (w : World S) (i : Nat) (m : Member S) : Prop :=
  ∃ i' e, m.joined < i' ∧ i' ≤ i ∧ w.log[i']? = some e ∧ e.op = .remove m.group.me

/-- The secrets that the `j`-th member has held at some point of the run. -/
def EverHeld (profile : KemProfile) (mySig : S.SigSeed) (s : S.Secret) (evs : List (Event S)) (j : Nat)
    (t : S.Secret) : Prop :=
  Run.Ever World.step (fun w => ∃ m, w.members[j]? = some m ∧ m.group.Knows t) (create profile mySig s) evs

theorem Kept.leafKey_unknown (h : w.Kept o) {k l : Nat} {pk : S.Public} (he : w.log[k]? = some e) (hl : l ≠ 0)
    (hpk : e.after.pubs.lookup (.leaf l) = some pk) :
    (∀ m ∈ w.members, w.RemovedBy k m → o.key pk ∉ m.drawn.map o.secret) ∧
      o.key pk ∉ w.log.map fun e => o.secret e.coins.fresh := by
  obtain ⟨i, howns, hstays⟩ := h.leaves k e l pk he hl hpk
  refine ⟨fun m hm hrem hmem => ?_, h.draws _ _ _ howns⟩
  obtain ⟨i', e', hjoined, hik, he', hop⟩ := hrem
  obtain ⟨kp, hadds⟩ := h.adds m hm
  -- the key has one owner, so the leaf is the member's, and the member's removal comes between
  obtain rfl := h.unique _ _ _ _ _ howns ⟨kp, hadds, .inr ⟨m, hm, rfl, hmem⟩⟩
  obtain ⟨kp', hadds', -⟩ := howns
  obtain ⟨rfl, -⟩ := Adds.unique hadds hadds'
  exact hstays i' e' hjoined hik he' hop

/-- The origins exposed to the members of `J`: their own draws and the commits before `k₀`. -/
def Exposed (w : World S) (o : Origin S ι) (J : Member S → Prop) (k₀ : Nat) (a : ι) : Prop :=
  (∃ m, J m ∧ a ∈ m.drawn.map o.secret) ∨
    ∃ k e, k < k₀ ∧ w.log[k]? = some e ∧ o.secret e.coins.fresh = a

section Coalition
variable {J : Member S → Prop} {k₀ : Nat}

theorem Kept.exposed_step (hI : S.Ideal o) (h : w.Kept o)
    (hJ : ∀ m, J m → m ∈ w.members ∧ w.RemovedBy k₀ m) {s t : S.Secret} (hl : Learns (blobs w.log) s t)
    (hs : w.Exposed o J k₀ (o.secret s)) : w.Exposed o J k₀ (o.secret t) := by
  cases hl with
  | parent => rwa [hI.parent]
  | commit => rwa [hI.commit]
  | sender leaf => rwa [hI.sender]
  | opened hb hopen =>
    obtain ⟨e, he, hbe⟩ := List.mem_flatMap.mp hb
    obtain ⟨k, hk⟩ := List.mem_iff_getElem?.mp he
    obtain ⟨l, pk, x, coin, hl0, hpk, hseal, horigin⟩ := (h.log e he).blob hI hbe
    obtain ⟨rfl, rfl⟩ := hI.open_only _ _ _ _ _ _ _ hseal hopen
    refine .inr ⟨k, e, ?_, hk, horigin.symm⟩
    -- a commit from the removal on is sealed to keys of others only
    by_contra hge
    obtain ⟨hmembers, hdraws⟩ := h.leafKey_unknown hk hl0 hpk
    rw [hI.key] at hmembers hdraws
    rcases hs with ⟨m, hm, hmem⟩ | ⟨k', e', -, he', heq⟩
    · obtain ⟨hm', i', e', hjoined, hi', hrest⟩ := hJ m hm
      exact hmembers m hm' ⟨i', e', hjoined, by omega, hrest⟩ hmem
    · exact hdraws (List.mem_map.mpr ⟨e', List.mem_of_getElem? he', heq⟩)

theorem Kept.removed_computes (hI : S.Ideal o) (h : w.Kept o)
    (hJ : ∀ m, J m → m ∈ w.members ∧ w.RemovedBy k₀ m) {t : S.Secret}
    (ht : Closure (Learns (blobs w.log)) (fun t => ∃ m, J m ∧ w.Computes m.drawn t) t) :
    w.Exposed o J k₀ (o.secret t) := by
  have hstep : ∀ s t, Learns (blobs w.log) s t → w.Exposed o J k₀ (o.secret s) →
      w.Exposed o J k₀ (o.secret t) := fun s t hl => h.exposed_step hI hJ hl
  refine ht.within (K := fun t => w.Exposed o J k₀ (o.secret t)) ?_ hstep
  rintro s ⟨m, hm, hs⟩
  exact hs.within (K := fun t => w.Exposed o J k₀ (o.secret t))
    (fun s hs => .inl ⟨m, hm, List.mem_map_of_mem hs⟩) hstep

theorem Kept.epochSecret_unknown (hI : S.Ideal o) (h : w.Kept o)
    (hJ : ∀ m, J m → m ∈ w.members ∧ w.RemovedBy k₀ m) {k : Nat} {e : Entry S} (hk : k₀ ≤ k)
    (he : w.log[k]? = some e) :
    ¬ Closure (Learns (blobs w.log)) (fun t => ∃ m, J m ∧ w.Computes m.drawn t) e.after.epochSecret := by
  intro hclosure
  have hepoch := (h.log e (List.mem_of_getElem? he)).epochSecret hI
  rcases h.removed_computes hI hJ hclosure with ⟨m, hm, hmem⟩ | ⟨k', e', hk', he', heq⟩
  · obtain ⟨kp, hadds⟩ := h.adds m (hJ m hm).1
    refine h.draws _ _ _ ⟨kp, hadds, .inr ⟨m, (hJ m hm).1, rfl, hmem⟩⟩ ?_
    rw [hepoch]
    exact List.mem_map.mpr ⟨e, List.mem_of_getElem? he, rfl⟩
  · rw [hepoch] at heq
    have hidx := (List.nodup_iff_getElem?_ne_getElem?.mp h.fresh) k' k (by omega)
      (by simpa using (List.getElem?_eq_some_iff.mp he).1)
    exact hidx (by simp [he, he', heq])

end Coalition

theorem computes_step (w : World S) (ev : Event S) {j : Nat} {t : S.Secret}
    (h : ∃ m, w.members[j]? = some m ∧ w.Computes m.drawn t) :
    ∃ m, (w.step ev).members[j]? = some m ∧ (w.step ev).Computes m.drawn t := by
  obtain ⟨m, hm, ht⟩ := h
  have hlt := (List.getElem?_eq_some_iff.mp hm).1
  cases ev with
  | host op r =>
    simp only [World.step]
    split
    · exact ⟨m, hm, ht.mono (List.subset_append_left _ _) (List.Subset.refl _)⟩
    · exact ⟨m, hm, ht⟩
  | hostPropose secret sig => exact ⟨m, hm, ht⟩
  | join i kp =>
    simp only [World.step]
    split
    · exact ⟨m, hm, ht⟩
    · split
      · exact ⟨m, (List.getElem?_append_left hlt).trans hm, ht⟩
      · exact ⟨m, hm, ht⟩
  | propose j' secret sig =>
    simp only [World.step, List.getElem?_modify, hm]
    split
    · exact ⟨_, rfl, ht.mono (List.Subset.refl _) (List.subset_cons_self _ _)⟩
    · exact ⟨m, rfl, ht⟩
  | apply j' =>
    simp only [World.step, List.getElem?_modify, hm]
    split
    · refine ⟨_, rfl, ?_⟩
      rw [(Member.apply_eq m w.log).2.1]
      exact ht
    · exact ⟨m, rfl, ht⟩

end Lemmas

section Runs
variable {profile : KemProfile} {mySig : S.SigSeed} {s : S.Secret} {evs : List (Event S)}
variable {o : Origin S ι}

/-- **Removal secrecy.** In every run with distinct draws, members that are all removed by commit `i`
cannot compute, from everything they ever held and all blobs of the log, the epoch secret of commit `i`
or of a later one. -/
theorem removal_secrecy (hI : S.Ideal o)
    (h : Run.Along World.step (fun w => w.Distinct o) (create profile mySig s) evs) (J : Nat → Prop) (i : Nat)
    (hJ : ∀ j, J j → ∃ m, (run profile mySig s evs).members[j]? = some m ∧
      (run profile mySig s evs).RemovedBy i m) :
    ∀ k e, i ≤ k → (run profile mySig s evs).log[k]? = some e →
      ¬ Closure (Learns (blobs (run profile mySig s evs).log))
        (fun t => ∃ j, J j ∧ EverHeld profile mySig s evs j t) e.after.epochSecret := by
  intro k e hk he hclosure
  have hkept : ∀ w : World S, ∀ ev, w.Kept o → w.Distinct o ev → (w.step ev).Kept o :=
    fun w ev hw hok => Kept.step hI w ev hw hok
  have hinv := h.invariant hkept (.create hI.verify_sign profile mySig s)
  refine Kept.epochSecret_unknown hI hinv (J := fun m => ∃ j, J j ∧ (run profile mySig s evs).members[j]? = some m)
    ?_ hk he ?_
  · rintro m ⟨j, hj, hm⟩
    obtain ⟨m', hm', hrem⟩ := hJ j hj
    obtain rfl := Option.some.inj (hm.symm.trans hm')
    exact ⟨List.mem_of_getElem? hm, hrem⟩
  · refine Closure.mono (fun _ _ hl => hl) (fun t ht => ?_) hclosure
    obtain ⟨j, hj, hheld⟩ := ht
    -- what was held could be computed from the draws then, and still can
    obtain ⟨m, hm, hcomp⟩ := hheld.recorded (Q := fun w => ∃ m, w.members[j]? = some m ∧ w.Computes m.drawn t)
      hkept (.create hI.verify_sign profile mySig s) h
      (fun w hw ⟨m, hm, hknows⟩ => ⟨m, hm, (hw.confined m (List.mem_of_getElem? hm)).knows hknows⟩)
      fun w ev hw => computes_step w ev hw
    exact .base ⟨m, ⟨j, hj, hm⟩, hcomp⟩

/-! ## Symbolic runs -/

def removalEvents : List (Event Scheme.symbolic) :=
  [.host (.add (symbolicKeys 1 101).keyPackage) (symbolicCoins 11), .join 0 (symbolicKeys 1 101),
    .host (.add (symbolicKeys 2 102).keyPackage) (symbolicCoins 12), .join 1 (symbolicKeys 2 102),
    .host (.remove 1) (symbolicCoins 13)]

def symbolicRun (evs : List (Event Scheme.symbolic)) : World Scheme.symbolic :=
  run .pqPure (100 : UInt8) (Term.drawn 0) evs

private theorem removalEvents_distinct : Run.Along World.step (fun w => w.Distinct Term.origin)
    (create .pqPure (100 : UInt8) (Term.drawn 0)) removalEvents := by
  refine ⟨⟨nofun, by decide, ?_, nofun⟩, ?_, ⟨nofun, by decide, ?_, nofun⟩, ?_, ⟨nofun, by decide, nofun, nofun⟩, trivial⟩
  · rintro kp ⟨⟩
    decide
  · intro e he
    exact Option.some.inj ((congrArg (Option.map Entry.op) he).symm.trans rfl)
  · rintro kp ⟨⟩
    decide
  · intro e he
    exact Option.some.inj ((congrArg (Option.map Entry.op) he).symm.trans rfl)

theorem removal_secrecy_removal :
    (∃ m, (symbolicRun removalEvents).members[0]? = some m ∧ (symbolicRun removalEvents).RemovedBy 2 m) ∧
      ∀ k e, 2 ≤ k → (symbolicRun removalEvents).log[k]? = some e →
        ¬ Closure (Learns (blobs (symbolicRun removalEvents).log))
          (fun t => ∃ j, j = 0 ∧ EverHeld .pqPure (100 : UInt8) (Term.drawn 0) removalEvents j t)
          e.after.epochSecret := by
  have hremoved : ∃ m, (symbolicRun removalEvents).members[0]? = some m ∧
      (symbolicRun removalEvents).RemovedBy 2 m :=
    ⟨_, rfl, 2, _, by decide, le_rfl, rfl, rfl⟩
  exact ⟨hremoved, removal_secrecy symbolic_ideal removalEvents_distinct (· = 0) 2
    (by rintro _ rfl; exact hremoved)⟩

/-- The same key package is added twice, and the member is removed. -/
def readdEvents : List (Event Scheme.symbolic) :=
  [.host (.add (symbolicKeys 1 101).keyPackage) (symbolicCoins 11), .join 0 (symbolicKeys 1 101),
    .host (.add (symbolicKeys 1 101).keyPackage) (symbolicCoins 12), .host (.remove 1) (symbolicCoins 13)]

/-- The removal of leaf 1 is sealed to leaf 2, which carries the same key: the removed member opens it
and computes the epoch secret. -/
theorem readded_key_survives :
    ∃ m e, (symbolicRun readdEvents).members[0]? = some m ∧ (symbolicRun readdEvents).RemovedBy 2 m ∧
      (symbolicRun readdEvents).host.isOccupied m.group.me = false ∧
      (symbolicRun readdEvents).log[2]? = some e ∧
      Closure (Learns (blobs ((symbolicRun readdEvents).log.drop 2)))
        (EverHeld .pqPure (100 : UInt8) (Term.drawn 0) readdEvents 0) e.after.epochSecret := by
  refine ⟨_, _, rfl, ⟨2, _, by decide, le_rfl, rfl, rfl⟩, by decide, rfl, ?_⟩
  have hheld : EverHeld .pqPure (100 : UInt8) (Term.drawn 0) readdEvents 0 (Term.drawn 1) :=
    ⟨readdEvents, List.prefix_rfl, _, rfl, .inl ⟨.leaf 1, rfl⟩⟩
  have hpath : Learns (S := Scheme.symbolic) (blobs ((symbolicRun readdEvents).log.drop 2)) (Term.drawn 1)
      ((Term.drawn 13).derive .parent |>.derive .parent) :=
    .opened (b := (Term.drawn 1, (Term.drawn 13).derive .parent |>.derive .parent)) List.mem_cons_self
      (show Scheme.symbolic.openSecret .pqPure _ _ = _ from rfl)
  exact .step (.step (.base hheld) hpath) (.commit _)

end Runs

end World
end Talkrypt.TreeKem
