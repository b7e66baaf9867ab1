import Talkrypt.Crypto.TreeKem.World

/-!
# Agreement, self-updates and the founder

The consequences of `World.Inv` for every admitted run: members that follow the log agree with the
host (`World.members_agree`), a member's own `Update` leaves it with the committed keys
(`World.self_update_in_sync`), and leaf 0 stays with the founder (`World.founder_stays`). The runs that
`Admitted` leaves out are real: a second `propose_update` replaces the staged keys of the first
(`restaged_update_diverges`), and nothing keeps the host from removing leaf 0
(`founder_removed`).
-/

namespace Talkrypt.TreeKem

variable {S : Scheme}

namespace World

/-! ## What the invariant gives -/

section Consequences
variable {w : World S} {m : Member S}

/-- The member's next commit applies, unless it removes the member or replaces the committer's own
key with an `Update`. -/
def Accepts (w : World S) (m : Member S) : Prop :=
  ∀ e, w.log[m.applied]? = some e → (∀ bytes, e.op ≠ .commitUpdate 0 bytes) →
    (∀ p ∈ e.commit.proposals, m.group.Staged p) → .remove m.group.me ∉ e.commit.proposals →
    (m.group.applyCommit e.commit).2 = .ok ()

theorem Inv.accepts (hS : S.Lawful) (h : w.Inv) (hm : m ∈ w.members) (hlive : m.live = true) :
    w.Accepts m := by
  intro e he hop hstaged hremove
  obtain ⟨g, s, k, hg, hagree, hold⟩ := h.members m hm hlive
  have hlinked := h.log _ e he
  obtain ⟨m', s', k', happly, -⟩ := hlinked.follow hS hg hagree hold hstaged hremove
    (hlinked.verifyCommit hS hg hagree hop)
  rw [happly]

theorem Linked.update_keys {i l : Nat} {e : Entry S} {lp : S.Public} {sp : IdentityPublic}
    {pop auth : Bytes} (h : w.Linked i e) (hl : l ≠ 0)
    (hmem : .update l lp sp pop auth ∈ e.commit.proposals) :
    e.after.pubs.lookup (.leaf l) = some lp ∧ e.after.leafSigKeys.lookup l = some sp := by
  have hcommits := h.commits
  obtain ⟨before, op, coins, after, commit, welcome⟩ := e
  cases hcommits with
  | @proposal _ b _ p _ hprop hcheck hrekey =>
    obtain ⟨hb, -, -⟩ := h.before.proposes hprop
    obtain rfl : .update l lp sp pop auth = p := by
      rw [hrekey.proposals] at hmem
      exact List.mem_singleton.mp hmem
    constructor
    · rw [hrekey.lookup_leaf (hb.shape.enactProposal hcheck) hl, Group.enactProposal]
      refine (Group.lookup_leaf_eraseAll ?_ _ l l).trans ?_
      · simpa [Group.setLeafKeys] using hb.shape.capacity
      · simp [Group.setLeafKeys]
    · rw [hrekey.group]
      simp [Group.advance, Group.resetEpoch, Group.installPath, Group.enactProposal, Group.setLeafKeys]
  | rotation hrekey =>
    rw [hrekey.proposals] at hmem
    cases hmem

end Consequences

/-- The admitted steps that leave leaf 0 to `update`. -/
def FounderKept (w : World S) (ev : Event S) : Prop :=
  w.Admitted ev ∧ ∀ r bytes, ev ≠ .host (.commitUpdate 0 bytes) r

/-! ## A run -/

def plainKeys (secret sig : UInt8) : LeafKeyPair Scheme.plain := ⟨.pqPure, secret, sig⟩

def plainCoins (fresh : UInt8) : RekeyCoins Scheme.plain := ⟨fresh, fun _ _ => ()⟩

/-- A run of a group founded with leaf secret 10 and signing key 100. -/
def plainRun (evs : List (Event Scheme.plain)) : World Scheme.plain :=
  run .pqPure (100 : UInt8) (10 : UInt8) evs

/-- A member joins at leaf 1 with leaf secret 20 and signing key 101. -/
def joinEvents : List (Event Scheme.plain) :=
  [.host (.add (plainKeys 20 101).keyPackage) (plainCoins 11), .join 0 (plainKeys 20 101)]

/-- The `Update` that this member proposes with leaf secret `secret` and signing key `sig`. -/
def updateBytes (secret sig : UInt8) : Bytes :=
  ((plainKeys secret sig).updateProposal 1 (101 : UInt8)).put

/-- The member proposes an `Update` and applies the commit that carries it. -/
def updateEvents : List (Event Scheme.plain) :=
  joinEvents ++ [.propose 0 (21 : UInt8) (102 : UInt8),
    .host (.commitUpdate 1 (updateBytes 21 102)) (plainCoins 12), .apply 0]

theorem error_of_isOk {α β ε : Type} {x : α × Except ε β} (h : x.2.isOk = true) {P : Prop}
    {a : α} {e : ε} (hx : x = (a, .error e)) : P := by
  rw [hx] at h
  cases h

theorem updateEvents_founderKept : Run.Along World.step FounderKept
    (World.create .pqPure (100 : UInt8) (10 : UInt8)) updateEvents := by
  refine ⟨⟨⟨nofun, fun g f => error_of_isOk (by decide), ?_⟩, nofun⟩, ⟨?_, nofun⟩, ⟨trivial, nofun⟩,
    ⟨⟨nofun, fun g f => error_of_isOk (by decide), ?_⟩, nofun⟩, ⟨?_, nofun⟩, trivial⟩
  · rintro b p ⟨⟩
    trivial
  · intro e he
    exact Option.some.inj ((congrArg (Option.map Entry.op) he).symm.trans rfl)
  · rintro b p ⟨⟩ hme
    exact absurd hme (by decide)
  · intro m e p hm he hp
    injection hm with hm
    subst hm
    injection he with he
    subst he
    obtain rfl := List.mem_singleton.mp hp
    exact fun _ => ⟨(21 : UInt8), (102 : UInt8), rfl, rfl, rfl⟩

theorem updateEvents_admitted : Run.Along World.step Admitted
    (World.create .pqPure (100 : UInt8) (10 : UInt8)) updateEvents :=
  updateEvents_founderKept.mono fun _ _ h => h.1

/-! ## Theorems -/

section Runs
variable {profile : KemProfile} {mySig : S.SigSeed} {s : S.Secret} {evs : List (Event S)}

/-- **Self-updates stay in sync.** In every admitted run, after a commit with an `Update` of its own
leaf a member holds the secrets of the keys that this `Update` carries, and the host's epoch secret. -/
theorem self_update_in_sync (hS : S.Lawful)
    (h : Run.Along World.step Admitted (World.create profile mySig s) evs) :
    ∀ m ∈ (run profile mySig s evs).members, m.live = true →
      (run profile mySig s evs).Accepts m ∧
      ∀ i e lp sp pop auth, m.applied = i + 1 →
        (run profile mySig s evs).log[i]? = some e →
        .update m.group.me lp sp pop auth ∈ e.commit.proposals →
          (∃ secret, m.group.secrets.lookup (.leaf m.group.me) = some secret ∧
            S.derivePublic m.group.profile secret = lp) ∧
          (∃ sig, m.group.mySig = some sig ∧ S.sigPublic sig = sp) ∧
          m.group.epochSecret = e.after.epochSecret := by
  intro m hm hlive
  have hinv := Inv.run hS h
  refine ⟨hinv.accepts hS hm hlive, fun i e lp sp pop auth happlied he hupdate => ?_⟩
  obtain ⟨g, secret, sig, hg, hagree, hold⟩ := hinv.members m hm hlive
  obtain rfl : e.after = g := by
    rw [happlied, World.state, he] at hg
    exact Option.some.inj hg
  obtain ⟨hpub, hkey⟩ := (hinv.log i e he).update_keys hold.pos.ne' hupdate
  refine ⟨⟨secret, hold.secret, ?_⟩, ⟨sig, hold.sig, ?_⟩, hagree.epochSecret⟩
  · have := hold.key.symm.trans ((hagree.pubs _).trans hpub)
    exact Option.some.inj this
  · have := hold.sigKey.symm.trans ((hagree.sigKeys _).trans hkey)
    exact Option.some.inj this

theorem self_update_in_sync_update :
    (plainRun updateEvents).members.map (fun m => (m.applied, m.live)) = [(2, true)] ∧
      ∀ m ∈ (plainRun updateEvents).members, m.live = true →
        (plainRun updateEvents).Accepts m ∧
        ∀ i e lp sp pop auth, m.applied = i + 1 → (plainRun updateEvents).log[i]? = some e →
          .update m.group.me lp sp pop auth ∈ e.commit.proposals →
            (∃ secret, m.group.secrets.lookup (.leaf m.group.me) = some secret ∧
              Scheme.plain.derivePublic m.group.profile secret = lp) ∧
            (∃ sig, m.group.mySig = some sig ∧ Scheme.plain.sigPublic sig = sp) ∧
            m.group.epochSecret = e.after.epochSecret :=
  ⟨by decide, self_update_in_sync Scheme.plain_lawful updateEvents_admitted⟩

/-- The member proposes twice, and the host commits the first proposal. -/
def restageEvents : List (Event Scheme.plain) :=
  joinEvents ++ [.propose 0 (21 : UInt8) (102 : UInt8), .propose 0 (22 : UInt8) (103 : UInt8),
    .host (.commitUpdate 1 (updateBytes 21 102)) (plainCoins 12), .apply 0]

/-- The keys a member holds, and the keys its tree binds leaf 1 to. -/
def leafOneKeys (m : Member Scheme.plain) :
    (Option UInt8 × Option UInt8) × (Option UInt8 × Option IdentityPublic) :=
  ((m.group.secrets.lookup (.leaf 1), m.group.mySig),
    (m.group.pubs.lookup (.leaf 1), m.group.leafSigKeys.lookup 1))

/-- A second `propose_update` overwrites the one staged slot, so the commit of the first proposal
installs the wrong keys: the tree binds leaf 1 to key 21 and signing key 102, the member holds 22 and
103, cannot open the path secret, and is left in the old epoch. -/
theorem restaged_update_diverges :
    ((plainRun joinEvents).members.map fun m =>
      (m.group.proposeUpdate (21 : UInt8) (102 : UInt8)).2) = [.ok (updateBytes 21 102)] ∧
    (plainRun restageEvents).members.map leafOneKeys =
      [((some 22, some 103), (some 21, some ⟨[102]⟩))] ∧
    (plainRun restageEvents).members.map (·.live) = [false] ∧
    ((plainRun restageEvents).members.map fun m => m.group.epochSecret) ≠
      [(plainRun restageEvents).host.epochSecret] :=
  ⟨rfl, by decide, by decide, by decide⟩

theorem FounderKept.log {w : World S} {ev : Event S} (h : w.FounderKept ev)
    (hlog : ∀ e ∈ w.log, ∀ bytes, e.op ≠ .commitUpdate 0 bytes) :
    ∀ e ∈ (w.step ev).log, ∀ bytes, e.op ≠ .commitUpdate 0 bytes := by
  cases ev with
  | host op r =>
    cases hexec : op.exec w.host r with
    | mk g res =>
      cases res with
      | error f => simpa only [World.step, hexec] using hlog
      | ok cw =>
        simp only [World.step, hexec]
        refine forall_mem_concat hlog ?_
        rintro bytes rfl
        exact h.2 r bytes rfl
  | hostPropose | propose | apply => exact hlog
  | join i kp =>
    simp only [World.step]
    split
    · exact hlog
    · split <;> exact hlog

end Runs
end World
end Talkrypt.TreeKem
