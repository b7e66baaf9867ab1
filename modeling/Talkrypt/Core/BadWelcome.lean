import Talkrypt.Core.Node

/-!
# Welcomes that do not let a member in (`handle_welcome`)

The handler takes the key pair of the leaf out of the state before it decodes the Welcome, and nothing
puts it back. The first Welcome to arrive, from whatever peer, is the only one that a member tries.
-/

namespace Talkrypt.Core
open TreeKem

variable {S : Scheme} {i : Inner S} {kp : LeafKeyPair S}

namespace Inner

/-- The Welcome does not decode, or the holder of the key pair cannot join with it. -/
def Refuses (kp : LeafKeyPair S) : Option (Welcome S) → Prop
  | none => True
  | some w => ∃ e, Group.joinWithWelcome kp w = .error e

/-- A member without a group that holds the key pair of its key package. -/
structure Waiting (kp : LeafKeyPair S) (i : Inner S) : Prop where
  role : i.role = .member
  keypair : i.leafKeypair = some kp
  group : i.group = none

/-- A member without a group that has no key pair to join with. -/
structure Stranded (i : Inner S) : Prop where
  role : i.role = .member
  keypair : i.leafKeypair = none
  group : i.group = none

theorem Stranded.handleWelcome (h : i.Stranded) (w : Option (Welcome S)) : i.handleWelcome w = i := by
  rw [Inner.handleWelcome, h.keypair]

/-- A refused Welcome costs the key pair. -/
theorem Waiting.stranded {w : Option (Welcome S)} (h : i.Waiting kp) (hw : Refuses kp w) :
    (i.handleWelcome w).Stranded := by
  cases w with
  | none =>
    simp only [Inner.handleWelcome, h.keypair]
    exact ⟨h.role, rfl, h.group⟩
  | some w =>
    obtain ⟨e, he⟩ := hw
    simp only [Inner.handleWelcome, h.keypair, he]
    exact ⟨h.role, rfl, h.group⟩

theorem Waiting.joined {w : Welcome S} {g : Group S} (h : i.Waiting kp) (hjoin : Group.joinWithWelcome kp w = .ok g) :
    (i.handleWelcome (some w)).group ≠ none := by
  simp only [Inner.handleWelcome, h.keypair, hjoin]
  split
  · exact Option.some_ne_none _
  · exact Option.some_ne_none _

end Inner

def Call.Brings (c : Call S) (w : Option (Welcome S)) : Prop := ∃ peer, c.input = .frame peer (.welcome w)

namespace Env
variable (E : Env S)

theorem step_welcome {c : Call S} {w : Option (Welcome S)} (hc : c.Brings w) (hrole : i.role = .member) :
    E.step i c = i.handleWelcome w := by
  obtain ⟨peer, hpeer⟩ := hc
  simp only [step, hpeer, receive, hrole, if_true]

theorem run_stranded {calls : List (Call S)} (h : i.Stranded) (hcalls : ∀ c ∈ calls, ∃ w, c.Brings w) :
    E.run i calls = i := by
  induction calls with
  | nil => rfl
  | cons c calls ih =>
    obtain ⟨w, hw⟩ := hcalls c List.mem_cons_self
    rw [run, List.foldl_cons, E.step_welcome hw h.role, h.handleWelcome]
    exact ih fun c' hc' => hcalls c' (List.mem_cons_of_mem c hc')

/-- The Welcome of the host installs the group that it would have installed at once exactly if no refused
one came before it. -/
theorem welcome_survives_iff {bad : List (Call S)} {good : Call S} {w : Welcome S} {g : Group S}
    (h : i.Waiting kp) (hbad : ∀ c ∈ bad, ∃ w, c.Brings w ∧ Inner.Refuses kp w) (hgood : good.Brings (some w))
    (hjoin : Group.joinWithWelcome kp w = .ok g) :
    (E.run i (bad ++ [good])).group = (E.run i [good]).group ↔ bad = [] := by
  refine ⟨fun heq => ?_, fun hnil => by rw [hnil, List.nil_append]⟩
  cases bad with
  | nil => rfl
  | cons c bad =>
    obtain ⟨w', hc, hw'⟩ := hbad c List.mem_cons_self
    have hstranded := h.stranded hw'
    -- from the first refused Welcome on, nothing changes
    have hrest : ∀ c' ∈ bad ++ [good], ∃ w, c'.Brings w := by
      intro c' hc'
      rcases List.mem_append.mp hc' with hc' | hc'
      · obtain ⟨w, hw, -⟩ := hbad c' (List.mem_cons_of_mem c hc')
        exact ⟨w, hw⟩
      · exact ⟨some w, List.mem_singleton.mp hc' ▸ hgood⟩
    have hrun : E.run i (c :: bad ++ [good]) = i.handleWelcome w' := by
      rw [run, List.cons_append, List.foldl_cons, E.step_welcome hc h.role]
      exact E.run_stranded hstranded hrest
    have hone : E.run i [good] = i.handleWelcome (some w) := E.step_welcome hgood h.role
    rw [hrun, hone, hstranded.group] at heq
    exact absurd heq.symm (h.joined hjoin)

end Env

def garbageWelcome : Call Scheme.plain := plainCall (.frame (padArr 48 [9]) (.welcome none)) 13

theorem waiting_plainPeer : plainPeer.Waiting (TreeKem.World.plainKeys 20 101) := ⟨rfl, rfl, rfl⟩

theorem plainWelcome_joins :
    (plainWelcome.any fun w => (Group.joinWithWelcome (TreeKem.World.plainKeys 20 101) w).isOk) = true := by
  decide +kernel

theorem welcome_survives_iff_plain : ∃ w g, plainWelcome = some w ∧
    Group.joinWithWelcome (TreeKem.World.plainKeys 20 101) w = .ok g ∧
    ((Env.plain.run plainPeer ([garbageWelcome] ++ [welcomeCall])).group =
      (Env.plain.run plainPeer [welcomeCall]).group ↔ [garbageWelcome] = []) := by
  have hjoins := plainWelcome_joins
  cases hw : plainWelcome with
  | none =>
    rw [hw] at hjoins
    cases hjoins
  | some w =>
    rw [hw, Option.any_some] at hjoins
    cases hjoin : Group.joinWithWelcome (TreeKem.World.plainKeys 20 101) w with
    | error e =>
      rw [hjoin] at hjoins
      cases hjoins
    | ok g =>
      refine ⟨w, g, rfl, hjoin, Env.plain.welcome_survives_iff waiting_plainPeer ?_ ⟨hostFp, ?_⟩ hjoin⟩
      · intro c hc
        obtain rfl := List.mem_singleton.mp hc
        exact ⟨none, ⟨_, rfl⟩, trivial⟩
      · rw [← hw]
        rfl

/-- A stranger's garbage keeps the peer out of the group that it was just added to. -/
theorem garbage_burns_key :
    (Env.plain.run plainPeer [welcomeCall]).group.isSome = true ∧
    (Env.plain.run plainPeer [garbageWelcome, welcomeCall]).group.isSome = false := by
  decide +kernel

end Talkrypt.Core
