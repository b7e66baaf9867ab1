import Talkrypt.Core.Access

/-!
# Name presences and the chat they are signed for (`crates/core/src/presence.rs`)

A peer announces its name with a `NamePresence`. A linked one is signed by the device key of an account, over
a sequence number, the name and the chat's context, which is the hash of the invite token and the channel.
-/

namespace Talkrypt.Core
open TreeKem (Scheme)
open Account

def putWords (v : UInt64) : Bytes := putU32 (v.toNat / 2 ^ 32) ++ putU32 (v.toNat % 2 ^ 32)

def getWords (what : String) : Reader CoreError UInt64 := fun buf =>
  match (Reader.getU32 : Reader CoreError Nat) buf with
  | .error _ => .error (.malformed (what ++ " hi"))
  | .ok (hi, rest) =>
    match (Reader.getU32 : Reader CoreError Nat) rest with
    | .error _ => .error (.malformed (what ++ " lo"))
    | .ok (lo, rest) => .ok (UInt64.ofNat (hi * 2 ^ 32 + lo), rest)

theorem reads_words {ε : Type} [FromWire ε] :
    Reads (do let hi ← Reader.getU32; let lo ← Reader.getU32; pure (UInt64.ofNat (hi * 2 ^ 32 + lo)) : Reader ε UInt64)
      putWords Any := by
  refine .intro (fun {v} _ rest => ?_) fun {v s t} h => ⟨?_, trivial⟩
  · have hv := v.toNat_lt
    rw [putWords, List.append_assoc, bind_apply (Reader.getU32_putU32 (by omega) _),
      bind_apply (Reader.getU32_putU32 (by omega) _), Nat.div_add_mod', UInt64.ofNat_toNat]
    rfl
  · obtain ⟨hi, u, hhi, h⟩ := exists_of_bind h
    obtain ⟨lo, w, hlo, h⟩ := exists_of_bind h
    cases h
    obtain ⟨rfl, hhi⟩ := Reader.getU32_eq_ok hhi
    obtain ⟨rfl, hlo⟩ := Reader.getU32_eq_ok hlo
    rw [putWords, UInt64.toNat_ofNat_of_lt' (show _ < 2 ^ 64 by omega), List.append_assoc,
      show (hi * 2 ^ 32 + lo) / 2 ^ 32 = hi by omega, show (hi * 2 ^ 32 + lo) % 2 ^ 32 = lo by omega]

@[simp] theorem putWords_length (v : UInt64) : (putWords v).length = 8 := by simp [putWords, putU32]

def named {α : Type} (what : String) (r : Reader CoreError α) : Reader CoreError α := fun buf =>
  match r buf with
  | .error _ => .error (.malformed what)
  | .ok x => .ok x

theorem named_eq_ok {α : Type} {what : String} {r : Reader CoreError α} {s : Bytes} {x : α × Bytes} :
    named what r s = .ok x ↔ r s = .ok x := by
  unfold named
  cases r s <;> simp

section
variable (sha256 : Bytes → Gid)

def chatContext (inviteToken : Bytes) (channel : String) : Gid := sha256 (inviteToken ++ utf8 channel)

end

def signInput (seq : UInt64) (label : String) (context : Gid) : Bytes :=
  putWords seq ++ putBytes (utf8 label) ++ putBytes context.1

inductive NamePresence where
  | bare (seq : UInt64) (label : String)
  | linked (seq : UInt64) (presentation : Presentation) (context : Gid) (sig : Bytes)
deriving DecidableEq

structure VerifiedName where
  accountFp : Fingerprint
  deviceFp : Fingerprint
  label : String
  seq : UInt64
deriving DecidableEq

namespace NamePresence

def encode : NamePresence → Bytes
  | bare seq label => putU8 0 ++ putWords seq ++ putBytes (utf8 label)
  | linked seq presentation context sig =>
    putU8 1 ++ putWords seq ++ putBytes presentation.encode ++ putBytes context.1 ++ putBytes sig

def getField (what : String) : Reader CoreError Bytes := named what Reader.getBytes

def getBare : Reader CoreError NamePresence := do
  let seq ← getWords "u64"
  let bytes ← getField "bare label"
  match fromUtf8 bytes with
  | none => throw (.malformed "bare label utf-8")
  | some label => pure (bare seq label)

def getLinked : Reader CoreError NamePresence := do
  let seq ← getWords "u64"
  let bytes ← getField "linked presentation"
  let presentation ← liftM ((Presentation.decode bytes).mapError CoreError.crypto)
  let ctx ← getField "linked context"
  if h : ctx.length = 32 then
    let sig ← getField "linked sig"
    pure (linked seq presentation ⟨ctx, h⟩ sig)
  else throw (.malformed "context len")

def decode (bytes : Bytes) : Except CoreError NamePresence :=
  match (Reader.getU8 : Reader CoreError UInt8) bytes with
  | .error _ => .error (.malformed "presence tag")
  | .ok (tag, rest) =>
    match (if tag = 0 then getBare rest else if tag = 1 then getLinked rest
        else .error (.malformed "presence variant")) with
    | .error e => .error e
    | .ok (np, rest) => if rest = [] then .ok np else .error (.malformed "presence trailing")

section
variable (S : Scheme) (fingerprint : IdentityPublic → Fingerprint)

/-- The announcement of `label` by the device at the end of `chain`. -/
def announce (seq : UInt64) (chain : IdentityChain) (label : String) (context : Gid) (signer : S.SigSeed) :
    NamePresence :=
  linked seq ⟨chain, some label⟩ context (S.sign signer (signInput seq label context))

/-- The chain is valid, and the device at its end signed the announcement. -/
def verifyLinked (now : UInt64) : NamePresence → Option VerifiedName
  | bare .. => none
  | linked seq presentation context sig => do
    let leaf ← presentation.chain.leaf
    let account ← presentation.chain.links.head?.map (·.issuer)
    if ¬ (presentation.chain.verify S account leaf now).isOk then none
    else
      let label ← presentation.username
      if ¬ (S.verify leaf (signInput seq label context) sig).isOk then none
      else some { accountFp := fingerprint account, deviceFp := fingerprint leaf, label, seq }

/-- What `handle_presence` takes for a name of the chat with this context, before its replay and rate checks. -/
def resolve (revocations : Finset (Fingerprint × Fingerprint)) (ctx : Gid) (now : UInt64) (np : NamePresence) :
    Option VerifiedName := do
  let v ← np.verifyLinked S fingerprint now
  match np with
  | bare .. => none
  | linked _ _ context _ =>
    if context ≠ ctx then none else if (v.accountFp, v.deviceFp) ∈ revocations then none else some v

/-- What a verified presence names: the account and the device at the two ends of its chain, which signed it. -/
theorem verifyLinked_eq_some {now seq : UInt64} {p : Presentation} {context : Gid} {sig : Bytes} {v : VerifiedName}
    (h : (linked seq p context sig).verifyLinked S fingerprint now = some v) :
    ∃ leaf account label, p.chain.leaf = some leaf ∧ p.chain.links.head?.map (·.issuer) = some account ∧
      p.username = some label ∧ S.verify leaf (signInput seq label context) sig = .ok () ∧
      v = { accountFp := fingerprint account, deviceFp := fingerprint leaf, label, seq } := by
  obtain ⟨leaf, hleaf, h⟩ := Option.bind_eq_some_iff.mp h
  obtain ⟨account, haccount, h⟩ := Option.bind_eq_some_iff.mp h
  split at h
  · cases h
  · obtain ⟨label, hlabel, h⟩ := Option.bind_eq_some_iff.mp h
    split at h
    · cases h
    · next hsig => exact ⟨leaf, account, label, hleaf, haccount, hlabel, except_eq_ok_of_isOk (not_not.mp hsig),
        (Option.some.inj h).symm⟩

theorem context_of_resolve {revocations : Finset (Fingerprint × Fingerprint)} {ctx : Gid} {now : UInt64}
    {np : NamePresence} {v : VerifiedName} (h : np.resolve S fingerprint revocations ctx now = some v) :
    ∃ seq presentation sig, np = linked seq presentation ctx sig := by
  obtain ⟨v', -, h⟩ := Option.bind_eq_some_iff.mp h
  cases np with
  | bare seq label => cases h
  | linked seq presentation context sig =>
    dsimp only at h
    split at h
    · cases h
    · next hctx => exact ⟨seq, presentation, sig, by rw [not_not.mp hctx]⟩

end
end NamePresence
end Talkrypt.Core
