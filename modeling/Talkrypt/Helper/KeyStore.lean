import Talkrypt.Lib.Bytes
import Talkrypt.Lib.Run
import Talkrypt.Lib.Table

/-!
# The key store of the helper (`crates/helper/src/store.rs`)

A key is a data file or a keychain entry, and a file of one byte with its tier. The calls of one name run in the
tasks of several connections without any lock, each as a sequence of file and keychain operations of which any may
fail. `fs::write` opens and truncates the file before it writes, and may fail at either.
-/

namespace Talkrypt.Helper

inductive CustodyTier where
  | softwareSealed
  | osKeystore
  | hardwareBacked
deriving DecidableEq

namespace CustodyTier

def tag : CustodyTier → UInt8
  | softwareSealed => 0
  | osKeystore => 1
  | hardwareBacked => 2

def fromTag (t : UInt8) : Option CustodyTier :=
  if t = 0 then some softwareSealed
  else if t = 1 then some osKeystore
  else if t = 2 then some hardwareBacked
  else none

@[simp] theorem fromTag_tag (tier : CustodyTier) : fromTag tier.tag = some tier := by cases tier <;> rfl

end CustodyTier

abbrev Key := CustodyTier × Bytes

def validName (name : String) : Bool :=
  !name.isEmpty && name != "." && name != ".." && (utf8 name).length ≤ 255 &&
    (utf8 name).all fun b =>
      (48 ≤ b && b ≤ 57) || (65 ≤ b && b ≤ 90) || (97 ≤ b && b ≤ 122) || b == 46 || b == 95 || b == 45

/-- The envelope around a secret with the key-encryption key wrapped by hardware, given the coins of the call. -/
structure HwWrapper where
  hwSeal : Nat → Bytes → Option Bytes
  hwUnseal : Bytes → Option Bytes
  hwUnseal_hwSeal : ∀ {coins secret blob}, hwSeal coins secret = some blob → hwUnseal blob = some secret

/-! ## Operations -/

inductive File where
  | sealed
  | tier

structure Backends where
  sealed : Option Bytes := none
  tier : Option Bytes := none
  keychain : Option Bytes := none
deriving DecidableEq

def Backends.setFile (b : Backends) (f : File) (content : Option Bytes) : Backends :=
  match f with
  | .sealed => { b with sealed := content }
  | .tier => { b with tier := content }

/-- Whether an operation works, and how much of a write went through if it does not. -/
inductive Outcome where
  | works
  | fails (written : Nat)
deriving DecidableEq

inductive Op where
  /-- The path of a file of the name, which is refused for an invalid name. -/
  | checkName (valid : Bool)
  | hwSeal (sealed : Option Bytes)
  | truncate (f : File)
  | fill (f : File) (content : Bytes)
  | setOwnerOnly (f : File)
  | keychainSet (secret : Bytes)
  | remove (f : File)
  | keychainDelete

namespace Op

/-- Run one operation; the flag is whether it worked. A failed removal from the keychain is ignored. -/
def run (b : Backends) : Op → Outcome → Backends × Bool
  | checkName valid, _ => (b, valid)
  | hwSeal sealed, .works => (b, sealed.isSome)
  | hwSeal _, .fails _ => (b, false)
  | truncate f, .works => (b.setFile f (some []), true)
  | truncate _, .fails _ => (b, false)
  | fill f content, .works => (b.setFile f (some content), true)
  | fill f content, .fails written => (b.setFile f (some (content.take written)), false)
  | setOwnerOnly _, .works => (b, true)
  | setOwnerOnly _, .fails _ => (b, false)
  | keychainSet secret, .works => ({ b with keychain := some secret }, true)
  | keychainSet _, .fails _ => (b, false)
  | remove f, .works => (b.setFile f none, true)
  | remove _, .fails _ => (b, false)
  | keychainDelete, .works => ({ b with keychain := none }, true)
  | keychainDelete, .fails _ => (b, true)

def passive : Op → Bool
  | checkName _ => true
  | hwSeal _ => true
  | _ => false

def isFill : Op → Bool
  | fill _ _ => true
  | _ => false

variable {op : Op}

theorem run_of_passive (h : op.passive = true) (b : Backends) (o : Outcome) : (op.run b o).1 = b := by
  cases op with
  | checkName valid => rfl
  | hwSeal sealed => cases o <;> rfl
  | truncate f | fill f content | setOwnerOnly f | keychainSet secret | remove f | keychainDelete => cases h

theorem run_of_failed {b : Backends} {o : Outcome} (h : (op.run b o).2 = false) (hfill : op.isFill = false) :
    (op.run b o).1 = b := by
  cases op with
  | fill f content => cases hfill
  | checkName valid => rfl
  | hwSeal sealed | truncate f | setOwnerOnly f | keychainSet secret | remove f | keychainDelete =>
    cases o with
    | works => first | rfl | cases h
    | fails written => rfl

theorem run_of_worked {b : Backends} {o : Outcome} (h : (op.run b o).2 = true) (hop : op ≠ keychainDelete) :
    op.run b o = op.run b .works := by
  cases op with
  | keychainDelete => exact absurd rfl hop
  | checkName valid => rfl
  | hwSeal sealed | truncate f | fill f content | setOwnerOnly f | keychainSet secret | remove f =>
    cases o with
    | works => rfl
    | fails written => cases h

end Op

def runAll (b : Backends) : List Op → Option Backends
  | [] => some b
  | op :: ops => if (op.run b .works).2 then runAll (op.run b .works).1 ops else none

/-! ## Calls -/

section

variable (hw : Option HwWrapper) (name : String)

def writeFile (f : File) (content : Bytes) : List Op := [.truncate f, .fill f content, .setOwnerOnly f]

def put (coins : Nat) (tier : CustodyTier) (blob : Bytes) : List Op :=
  (match tier with
    | .softwareSealed => .checkName (validName name) :: writeFile .sealed blob
    | .osKeystore => [.keychainSet blob]
    | .hardwareBacked =>
      let sealed := hw.bind fun hw => hw.hwSeal coins blob
      .hwSeal sealed :: .checkName (validName name) :: writeFile .sealed (sealed.getD [])) ++
  .checkName (validName name) :: writeFile .tier [tier.tag]

def delete : List Op :=
  [.checkName (validName name), .remove .sealed, .keychainDelete, .checkName (validName name), .remove .tier]

def tierOf (b : Backends) : Option CustodyTier :=
  if validName name then
    match b.tier with
    | some [tag] => CustodyTier.fromTag tag
    | _ => none
  else none

/-- What the second step of `get` reads for a key of the given tier. -/
def dataOf (b : Backends) : CustodyTier → Option Bytes
  | .softwareSealed => b.sealed
  | .osKeystore => b.keychain
  | .hardwareBacked => do
    let sealed ← b.sealed
    let hw ← hw
    hw.hwUnseal sealed

/-- What `get` returns when nothing fails and nothing else runs. -/
def get (b : Backends) : Option Key := do
  let tier ← tierOf name b
  let bytes ← dataOf hw b tier
  pure (tier, bytes)

variable {hw name}

variable {b b' : Backends} {tier : CustodyTier}

theorem get_eq_some {key : Key} :
    get hw name b = some key ↔ tierOf name b = some key.1 ∧ dataOf hw b key.1 = some key.2 := by
  simp only [get, Option.bind_eq_bind, Option.bind_eq_some_iff, Option.pure_def, Option.some.injEq]
  constructor
  · rintro ⟨tier, htier, bytes, hbytes, rfl⟩
    exact ⟨htier, hbytes⟩
  · rintro ⟨htier, hbytes⟩
    exact ⟨key.1, htier, key.2, hbytes, rfl⟩

def payload (hw : Option HwWrapper) (coins : Nat) (blob : Bytes) : CustodyTier → Option Bytes
  | .hardwareBacked => hw.bind fun hw => hw.hwSeal coins blob
  | _ => some blob

/-- The backends with data and tier of a key in place. -/
def Backends.store (b : Backends) (tier : CustodyTier) (data : Bytes) : Backends :=
  match tier with
  | .osKeystore => { b with keychain := some data, tier := some [tier.tag] }
  | _ => { b with sealed := some data, tier := some [tier.tag] }

theorem runAll_put (coins : Nat) (blob : Bytes) : runAll b (put hw name coins tier blob) =
    if validName name then (payload hw coins blob tier).map (b.store tier) else none := by
  cases hvalid : validName name with
  | false =>
    cases tier with
    | softwareSealed | osKeystore => simp [put, runAll, Op.run, hvalid]
    | hardwareBacked =>
      simp only [put, List.cons_append, runAll, hvalid]
      split <;> rfl
  | true =>
    cases tier with
    | softwareSealed | osKeystore =>
      simp [put, writeFile, runAll, Op.run, hvalid, Backends.setFile, payload, Backends.store]
    | hardwareBacked =>
      cases hseal : hw.bind fun hw => hw.hwSeal coins blob with
      | none => simp [put, runAll, Op.run, hseal, payload]
      | some sealed =>
        simp [put, writeFile, runAll, Op.run, hvalid, hseal, Backends.setFile, payload, Backends.store]

theorem get_of_runAll_put {coins : Nat} {blob : Bytes} (h : runAll b (put hw name coins tier blob) = some b') :
    get hw name b' = some (tier, blob) := by
  rw [runAll_put] at h
  split at h
  · next hvalid =>
    obtain ⟨data, hdata, rfl⟩ := Option.map_eq_some_iff.mp h
    rw [get_eq_some]
    cases tier with
    | softwareSealed | osKeystore =>
      cases hdata
      simp [tierOf, dataOf, hvalid, Backends.store]
    | hardwareBacked =>
      obtain ⟨wrapper, rfl, hseal⟩ := Option.bind_eq_some_iff.mp hdata
      simp [tierOf, dataOf, hvalid, Backends.store, wrapper.hwUnseal_hwSeal hseal]
  · cases h

theorem keychainDelete_notMem_put (coins : Nat) (tier : CustodyTier) (blob : Bytes) :
    .keychainDelete ∉ put hw name coins tier blob := by
  cases tier <;> simp [put, writeFile]

/-! ### Removals -/

/-- Everything that is stored was stored before. -/
structure Backends.Shrunk (b b' : Backends) : Prop where
  sealed : ∀ {x}, b'.sealed = some x → b.sealed = some x
  tier : ∀ {x}, b'.tier = some x → b.tier = some x
  keychain : ∀ {x}, b'.keychain = some x → b.keychain = some x

theorem Backends.Shrunk.refl (b : Backends) : b.Shrunk b := ⟨id, id, id⟩

theorem Backends.Shrunk.dataOf (h : b.Shrunk b') {bytes : Bytes} (hdata : dataOf hw b' tier = some bytes) :
    dataOf hw b tier = some bytes := by
  cases tier with
  | softwareSealed => exact h.sealed hdata
  | osKeystore => exact h.keychain hdata
  | hardwareBacked =>
    obtain ⟨blob, hblob, hunseal⟩ := Option.bind_eq_some_iff.mp hdata
    exact Option.bind_eq_some_iff.mpr ⟨blob, h.sealed hblob, hunseal⟩

theorem Backends.Shrunk.tierOf (h : b.Shrunk b') (htier : tierOf name b' = some tier) :
    tierOf name b = some tier := by
  rw [Helper.tierOf] at htier ⊢
  split at htier
  · next hvalid =>
    cases hfile : b'.tier with
    | none =>
      rw [hfile] at htier
      cases htier
    | some content =>
      rw [hfile] at htier
      rw [if_pos hvalid, h.tier hfile]
      exact htier
  · cases htier

theorem Backends.Shrunk.get (h : b.Shrunk b') {key : Key} (hget : get hw name b' = some key) :
    get hw name b = some key := by
  obtain ⟨htier, hdata⟩ := get_eq_some.mp hget
  exact get_eq_some.mpr ⟨h.tierOf htier, h.dataOf hdata⟩

def Op.removes : Op → Bool
  | checkName _ => true
  | remove _ => true
  | keychainDelete => true
  | _ => false

theorem Op.removes_of_mem_delete {op : Op} (h : op ∈ delete name) : op.removes = true := by
  simp only [delete, List.mem_cons, List.not_mem_nil, or_false] at h
  rcases h with rfl | rfl | rfl | rfl | rfl <;> rfl

theorem Op.shrunk_run {op : Op} (h : op.removes = true) (b : Backends) (o : Outcome) : b.Shrunk (op.run b o).1 := by
  cases op with
  | checkName valid => exact .refl b
  | remove f =>
    cases o with
    | works => cases f <;> exact ⟨by simp [Op.run, Backends.setFile], by simp [Op.run, Backends.setFile], id⟩
    | fails written => exact .refl b
  | keychainDelete =>
    cases o with
    | works => exact ⟨id, id, nofun⟩
    | fails written => exact .refl b
  | hwSeal sealed | truncate f | fill f content | setOwnerOnly f | keychainSet secret => cases h

end

end Talkrypt.Helper
