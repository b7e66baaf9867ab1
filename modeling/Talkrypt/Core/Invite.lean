import Talkrypt.Core.Descriptor

/-!
# Opened invites (`descriptor.rs`, `b32.rs`)

An invite travels as a `talkrypt://` URI. Whoever opens it may set a channel password, which is never in the
URI, and derives the root of the first session from both. The derivation calls Argon2id with the invite token as
its salt and unwraps the result, so that a salt which Argon2id refuses aborts the process. Of the fields of the
invite the root depends on the token, the suite, the anonymity flag and the password.
-/

namespace Talkrypt.Core

/-! ## Base32 -/

namespace B32

/-- The value of a letter of the alphabet, in either case. -/
def value (c : Char) : Option UInt32 :=
  if 'a' ≤ c ∧ c ≤ 'z' then some (c.val - 'a'.val)
  else if 'A' ≤ c ∧ c ≤ 'Z' then some (c.val - 'A'.val)
  else if '2' ≤ c ∧ c ≤ '7' then some (c.val - '2'.val + 26)
  else none

/-- The bits read so far that do not make a byte yet are the low `bits` of `buffer`. -/
structure Bits where
  out : Bytes := []
  buffer : UInt32 := 0
  bits : UInt32 := 0

def Bits.push (s : Bits) (c : Char) : Option Bits := do
  let v ← value c
  let buffer := (s.buffer <<< 5) ||| v
  let bits := s.bits + 5
  if 8 ≤ bits then some { out := s.out ++ [(buffer >>> (bits - 8)).toUInt8], buffer, bits := bits - 8 }
  else some { s with buffer, bits }

def decode (s : List Char) : Option Bytes := (s.foldlM Bits.push {}).map (·.out)

end B32

/-! ## URIs -/

def URI_SCHEME : String := "talkrypt://"

def isWhitespace (c : Char) : Bool :=
  let n := c.toNat
  (0x9 ≤ n && n ≤ 0xD) || n == 0x20 || n == 0x85 || n == 0xA0 || n == 0x1680 || (0x2000 ≤ n && n ≤ 0x200A) ||
    n == 0x2028 || n == 0x2029 || n == 0x202F || n == 0x205F || n == 0x3000

def trim (s : List Char) : List Char := ((s.dropWhile isWhitespace).reverse.dropWhile isWhitespace).reverse

/-- A descriptor in memory. The password is set by the one who opens the invite and never encoded. -/
structure Invite extends ChatDescriptor where
  password : Option String := none
deriving DecidableEq

namespace Invite

def fromUri (uri : String) : Except CoreError Invite :=
  if URI_SCHEME.toList.isPrefixOf uri.toList then
    match B32.decode (trim (uri.toList.drop URI_SCHEME.toList.length)) with
    | none => .error (.malformed "bad base32")
    | some bytes => (ChatDescriptor.decodeBytes bytes).map fun d => { d with }
  else .error (.malformed "missing talkrypt:// scheme")

def withPassword (d : Invite) (password : Option String) : Invite := { d with password }

def DEFAULT_SUITE_ID : String := "tk.dr.mlkem1024+pad.aes256gcm.sha3-384.mldsa87"

def resolvedSuiteId (d : Invite) : String := if d.suiteId.isEmpty then DEFAULT_SUITE_ID else d.suiteId

end Invite

/-! ## Argon2id -/

inductive Argon2Error where
  | pwdTooLong
  | saltTooShort
  | saltTooLong
deriving DecidableEq

/-- The functions a root is derived with. Keys are used as the input of further derivations through their
bytes, and `argon2id` is the function that Argon2id computes where it accepts its inputs. -/
structure RootKdf where
  Key : Type
  bytes : Key → Bytes
  macKdf : Bytes → Bytes → Bytes → Key
  argon2id : Bytes → Bytes → Key

namespace RootKdf

variable (D : RootKdf)

def hashPasswordInto (password salt : Bytes) : Except Argon2Error D.Key :=
  if 2 ^ 32 ≤ password.length then .error .pwdTooLong
  else if salt.length < 8 then .error .saltTooShort
  else if 2 ^ 32 ≤ salt.length then .error .saltTooLong
  else .ok (D.argon2id password salt)

/-- No two inputs of a derivation give one key. -/
structure Injective : Prop where
  bytes : Function.Injective D.bytes
  macKdf : ∀ {k k' m m' l l'}, D.macKdf k m l = D.macKdf k' m' l' → k = k' ∧ m = m' ∧ l = l'
  argon2id : ∀ {p p' s s'}, D.argon2id p s = D.argon2id p' s' → p = p' ∧ s = s'

variable {D} in
theorem hashPasswordInto_eq_ok {password salt : Bytes} {key : D.Key} :
    D.hashPasswordInto password salt = .ok key ↔
      (password.length < 2 ^ 32 ∧ 8 ≤ salt.length ∧ salt.length < 2 ^ 32) ∧ D.argon2id password salt = key := by
  rw [hashPasswordInto]
  split
  · next h =>
    refine ⟨nofun, fun hok => ?_⟩
    omega
  split
  · next h =>
    refine ⟨nofun, fun hok => ?_⟩
    omega
  split
  · next h =>
    refine ⟨nofun, fun hok => ?_⟩
    omega
  · next hp hs hs' =>
    rw [Except.ok.injEq]
    exact ⟨fun hkey => ⟨by omega, hkey⟩, And.right⟩

end RootKdf

/-! ## The root of a session -/

def ROOT_SALT : Bytes := utf8 "talkrypt-root-v1"

def PW_ROOT_SALT : Bytes := utf8 "talkrypt-pw-root-v1"

def ANON_ROOT_SALT : Bytes := utf8 "talkrypt-anon-root-v1"

namespace Invite

variable {D : RootKdf} {d d₁ d₂ : Invite}

variable (D) in
def base (d : Invite) : D.Key :=
  let base := D.macKdf d.inviteToken ROOT_SALT (utf8 d.resolvedSuiteId)
  if d.requireAnon then D.macKdf (D.bytes base) ANON_ROOT_SALT (utf8 "require-anon") else base

variable (D) in
/-- `derive_root`. The error is the one that the source unwraps, which aborts the process. -/
def deriveRoot (d : Invite) : Except Argon2Error D.Key :=
  match d.password with
  | none => .ok (d.base D)
  | some pw => do
    let pwKey ← D.hashPasswordInto (utf8 pw) d.inviteToken
    pure (D.macKdf (D.bytes pwKey) PW_ROOT_SALT (D.bytes (d.base D)))

/-- Argon2id, when it is called, accepts the password and the token. -/
def Opens (d : Invite) : Prop :=
  ∀ pw ∈ d.password, (utf8 pw).length < 2 ^ 32 ∧ 8 ≤ d.inviteToken.length ∧ d.inviteToken.length < 2 ^ 32

theorem deriveRoot_of_none (h : d.password = none) : d.deriveRoot D = .ok (d.base D) := by
  rw [deriveRoot, h]

theorem deriveRoot_of_some {pw : String} (h : d.password = some pw) {root : D.Key} :
    d.deriveRoot D = .ok root ↔ d.Opens ∧
      D.macKdf (D.bytes (D.argon2id (utf8 pw) d.inviteToken)) PW_ROOT_SALT (D.bytes (d.base D)) = root := by
  have hopens : d.Opens ↔
      (utf8 pw).length < 2 ^ 32 ∧ 8 ≤ d.inviteToken.length ∧ d.inviteToken.length < 2 ^ 32 := by
    simp [Opens, h]
  have hderive : d.deriveRoot D = D.hashPasswordInto (utf8 pw) d.inviteToken >>= fun pwKey =>
      pure (D.macKdf (D.bytes pwKey) PW_ROOT_SALT (D.bytes (d.base D))) := by rw [deriveRoot, h]
  rw [hderive, except_bind_eq_ok, hopens]
  constructor
  · rintro ⟨key, hkey, hroot⟩
    obtain ⟨hok, rfl⟩ := RootKdf.hashPasswordInto_eq_ok.mp hkey
    exact ⟨hok, Except.ok.inj hroot⟩
  · rintro ⟨hok, rfl⟩
    exact ⟨_, RootKdf.hashPasswordInto_eq_ok.mpr ⟨hok, rfl⟩, rfl⟩

theorem exists_deriveRoot_iff : (∃ root, d.deriveRoot D = .ok root) ↔ d.Opens := by
  cases h : d.password with
  | none =>
    refine iff_of_true ⟨_, deriveRoot_of_none h⟩ ?_
    intro pw hpw
    rw [h] at hpw
    cases hpw
  | some pw => simp only [deriveRoot_of_some h, exists_and_left, exists_eq', and_true]

/-! ### What the root binds -/

theorem base_inj (hD : D.Injective) (h : d₁.base D = d₂.base D) :
    d₁.inviteToken = d₂.inviteToken ∧ d₁.resolvedSuiteId = d₂.resolvedSuiteId ∧ d₁.requireAnon = d₂.requireAnon := by
  have hinner (hkey : D.macKdf d₁.inviteToken ROOT_SALT (utf8 d₁.resolvedSuiteId) =
      D.macKdf d₂.inviteToken ROOT_SALT (utf8 d₂.resolvedSuiteId)) :
      d₁.inviteToken = d₂.inviteToken ∧ d₁.resolvedSuiteId = d₂.resolvedSuiteId := by
    obtain ⟨htoken, -, hsuite⟩ := hD.macKdf hkey
    exact ⟨htoken, utf8_injective hsuite⟩
  -- the two salts tell a root with the flag from one without it
  have hsalt : ANON_ROOT_SALT ≠ ROOT_SALT := by decide +kernel
  cases h₁ : d₁.requireAnon <;> cases h₂ : d₂.requireAnon <;>
    simp only [base, h₁, h₂, if_true, Bool.false_eq_true, if_false] at h
  · exact ⟨(hinner h).1, (hinner h).2, rfl⟩
  · exact absurd (hD.macKdf h).2.1.symm hsalt
  · exact absurd (hD.macKdf h).2.1 hsalt
  · have hbytes := hD.bytes (hD.macKdf h).1
    exact ⟨(hinner hbytes).1, (hinner hbytes).2, rfl⟩

theorem base_congr (htoken : d₁.inviteToken = d₂.inviteToken) (hsuite : d₁.resolvedSuiteId = d₂.resolvedSuiteId)
    (hanon : d₁.requireAnon = d₂.requireAnon) : d₁.base D = d₂.base D := by
  rw [base, base, htoken, hsuite, hanon]

theorem base_ne_gated (hD : D.Injective) (key label : Bytes) : d.base D ≠ D.macKdf key PW_ROOT_SALT label := by
  intro h
  rw [base] at h
  split at h
  · exact absurd (hD.macKdf h).2.1 (by decide +kernel)
  · exact absurd (hD.macKdf h).2.1 (by decide +kernel)

structure SameKeying (d₁ d₂ : Invite) : Prop where
  token : d₁.inviteToken = d₂.inviteToken
  suite : d₁.resolvedSuiteId = d₂.resolvedSuiteId
  anon : d₁.requireAnon = d₂.requireAnon
  password : d₁.password = d₂.password

theorem SameKeying.deriveRoot_eq (h : SameKeying d₁ d₂) : d₁.deriveRoot D = d₂.deriveRoot D := by
  rw [deriveRoot, deriveRoot, h.password, h.token, base_congr h.token h.suite h.anon]

theorem SameKeying.of_deriveRoot_eq (hD : D.Injective) {root : D.Key} (h₁ : d₁.deriveRoot D = .ok root)
    (h₂ : d₂.deriveRoot D = .ok root) : SameKeying d₁ d₂ := by
  cases hp₁ : d₁.password with
  | none =>
    cases hp₂ : d₂.password with
    | none =>
      have hroot := h₁.trans h₂.symm
      rw [deriveRoot_of_none hp₁, deriveRoot_of_none hp₂, Except.ok.injEq] at hroot
      obtain ⟨htoken, hsuite, hanon⟩ := base_inj hD hroot
      exact ⟨htoken, hsuite, hanon, by rw [hp₁, hp₂]⟩
    | some pw =>
      rw [deriveRoot_of_none hp₁, Except.ok.injEq] at h₁
      exact absurd (h₁.trans ((deriveRoot_of_some hp₂).mp h₂).2.symm) (base_ne_gated hD _ _)
  | some pw =>
    obtain ⟨-, hroot₁⟩ := (deriveRoot_of_some hp₁).mp h₁
    cases hp₂ : d₂.password with
    | none =>
      rw [deriveRoot_of_none hp₂, Except.ok.injEq] at h₂
      exact absurd (h₂.trans hroot₁.symm) (base_ne_gated hD _ _)
    | some pw' =>
      obtain ⟨-, hroot₂⟩ := (deriveRoot_of_some hp₂).mp h₂
      obtain ⟨hkey, -, hbase⟩ := hD.macKdf (hroot₁.trans hroot₂.symm)
      obtain ⟨htoken, hsuite, hanon⟩ := base_inj hD (hD.bytes hbase)
      have hpw := utf8_injective (hD.argon2id (hD.bytes hkey)).1
      exact ⟨htoken, hsuite, hanon, by rw [hp₁, hp₂, hpw]⟩

variable (D) in
/-- Two invites with one root agree in everything that the root should bind: the keying fields and, where an
anonymizing transport is required, the endpoints. -/
def Bound (d₁ d₂ : Invite) : Prop :=
  ∀ root, d₁.deriveRoot D = .ok root → d₂.deriveRoot D = .ok root →
    SameKeying d₁ d₂ ∧ (d₁.requireAnon = true → d₁.endpoints = d₂.endpoints)

/-- One invite is the other with the endpoints of an anonymous chat replaced. -/
structure Rerouted (d₁ d₂ : Invite) : Prop extends SameKeying d₁ d₂ where
  required : d₁.requireAnon = true
  moved : d₁.endpoints ≠ d₂.endpoints

/-- The root of an opened invite binds it, except that the endpoints can always be replaced. -/
theorem bound_iff_not_rerouted (hD : D.Injective) (d₁ d₂ : Invite) :
    Bound D d₁ d₂ ↔ ¬ (Rerouted d₁ d₂ ∧ d₁.Opens) := by
  constructor
  · rintro hbound ⟨hmoved, hopens⟩
    obtain ⟨root, hroot⟩ := exists_deriveRoot_iff (D := D).mpr hopens
    have hroot' : d₂.deriveRoot D = .ok root := by rw [← hmoved.deriveRoot_eq, hroot]
    exact hmoved.moved ((hbound root hroot hroot').2 hmoved.required)
  · intro hnot root h₁ h₂
    have hsame := SameKeying.of_deriveRoot_eq hD h₁ h₂
    refine ⟨hsame, fun hanon => ?_⟩
    by_contra hmoved
    exact hnot ⟨⟨hsame, hanon, hmoved⟩, exists_deriveRoot_iff.mp ⟨root, h₁⟩⟩

/-! ### What a decoded invite holds -/

theorem inviteToken_length_le {bytes : Bytes} {c : ChatDescriptor} (h : ChatDescriptor.decodeBytes bytes = .ok c) :
    c.inviteToken.length ≤ MAX_FRAME := by
  obtain ⟨⟨c', rest⟩, hget, rfl⟩ := except_map_eq_ok h
  rw [ChatDescriptor.get] at hget
  obtain ⟨version, _, -, hget⟩ := Reader.bind_eq_ok.mp hget
  split at hget
  · cases hget
  rw [ChatDescriptor.getFields] at hget
  -- the fields before the token
  iterate 7 obtain ⟨_, _, -, hget⟩ := Reader.bind_eq_ok.mp hget
  obtain ⟨token, _, htoken, hget⟩ := Reader.bind_eq_ok.mp hget
  -- the fields after it
  iterate 11 obtain ⟨_, _, -, hget⟩ := Reader.bind_eq_ok.mp hget
  cases hget
  exact (Reader.getBytes_eq_ok htoken).2

theorem inviteToken_length_lt_of_fromUri {uri : String} (h : fromUri uri = .ok d) :
    d.inviteToken.length < 2 ^ 32 ∧ d.password = none := by
  rw [fromUri] at h
  split at h
  · split at h
    · cases h
    · obtain ⟨c, hc, rfl⟩ := except_map_eq_ok h
      have hle := inviteToken_length_le hc
      unfold MAX_FRAME at hle
      exact ⟨show c.inviteToken.length < 2 ^ 32 by omega, rfl⟩
  · cases h

/-- Opening an accepted invite gives a root exactly when no password is set, or the token is long enough to be a
salt and the password within the limit of Argon2id. -/
theorem exists_deriveRoot_iff_of_fromUri {uri : String} (h : fromUri uri = .ok d) (password : Option String) :
    (∃ root, (d.withPassword password).deriveRoot D = .ok root) ↔
      ∀ pw ∈ password, 8 ≤ d.inviteToken.length ∧ (utf8 pw).length < 2 ^ 32 := by
  have hlt := (inviteToken_length_lt_of_fromUri h).1
  rw [exists_deriveRoot_iff]
  constructor
  · intro hopens pw hpw
    exact ⟨(hopens pw hpw).2.1, (hopens pw hpw).1⟩
  · intro hlong pw hpw
    exact ⟨(hlong pw hpw).2, (hlong pw hpw).1, hlt⟩

namespace Sample

/-- A byte string followed by more: each byte is announced by a one, the end by a zero. -/
def announce (rest : Bytes) : Bytes → Bytes
  | [] => 0 :: rest
  | x :: b => 1 :: x :: announce rest b

theorem announce_inj {b b' rest rest' : Bytes} (h : announce rest b = announce rest' b') : b = b' ∧ rest = rest' := by
  induction b generalizing b' with
  | nil =>
    cases b' with
    | nil => exact ⟨rfl, (List.cons.inj h).2⟩
    | cons x b' => cases (List.cons.inj h).1
  | cons x b ih =>
    cases b' with
    | nil => cases (List.cons.inj h).1
    | cons x' b' =>
      obtain ⟨hx, htail⟩ := List.cons.inj (List.cons.inj h).2
      obtain ⟨rfl, rfl⟩ := ih htail
      exact ⟨by rw [hx], rfl⟩

def announced : RootKdf where
  Key := Bytes
  bytes := id
  macKdf key msg label := announce (announce label msg) key
  argon2id password salt := announce salt password

theorem injective_announced : announced.Injective where
  bytes := Function.injective_id
  macKdf h := by
    obtain ⟨hk, hrest⟩ := announce_inj h
    exact ⟨hk, announce_inj hrest⟩
  argon2id h := announce_inj h

/-- The invite of an anonymous chat, at the given endpoints. -/
def anonymous (endpoints : List String) : Invite where
  topology := .hub
  persistence := .ephemeral
  suiteId := ""
  endpoints
  inviteToken := List.replicate 32 7
  channel := "general"
  requireAnon := true

/-- The onion of an anonymous chat replaced by an address in the clear: the root stays the same. -/
theorem onion_stripped :
    (anonymous ["abc.onion"]).deriveRoot announced = (anonymous ["192.0.2.1:80"]).deriveRoot announced ∧
    ¬ Bound announced (anonymous ["abc.onion"]) (anonymous ["192.0.2.1:80"]) := by
  refine ⟨rfl, fun hbound => ?_⟩
  have hsame := (hbound _ rfl rfl).2 rfl
  exact absurd hsame (by decide +kernel)

theorem bound_iff_not_rerouted_flag :
    announced.Injective ∧ Bound announced (anonymous ["abc.onion"])
      { anonymous ["192.0.2.1:80"] with requireAnon := false } := by
  refine ⟨injective_announced, (bound_iff_not_rerouted injective_announced _ _).mpr ?_⟩
  rintro ⟨hmoved, -⟩
  exact absurd hmoved.anon (by decide)

/-- A first-version invite with an empty channel and the given token. -/
def minimal (inviteToken : Bytes) : Invite where
  version := 1
  topology := .p2p
  persistence := .ephemeral
  suiteId := ""
  endpoints := []
  inviteToken
  channel := ""

def shortTokenUri : String := "talkrypt://aaaaaaiaaaaaaaaaaaaaaaaaaaaaaaaaaaaqcaaaaaaaaaa"

theorem fromUri_shortTokenUri : fromUri shortTokenUri = .ok (minimal [1]) :=
  except_eq_ok_of_toOption (by decide +kernel)

/-- An accepted invite with a token of one byte: setting a password on it aborts the derivation. -/
theorem short_token_aborts :
    ∃ d, fromUri shortTokenUri = .ok d ∧
      (d.withPassword (some "hunter2")).deriveRoot announced = .error .saltTooShort :=
  ⟨minimal [1], fromUri_shortTokenUri, rfl⟩

theorem exists_deriveRoot_minimal :
    fromUri "talkrypt://aaaaaaiaaaaaaaaaaaaaaaaaaaaaaaaaaaeacaqdaqcqmbyiaaaaaaaaaa" =
        .ok (minimal [1, 2, 3, 4, 5, 6, 7, 8]) ∧
      ∃ root, ((minimal [1, 2, 3, 4, 5, 6, 7, 8]).withPassword (some "hunter2")).deriveRoot announced = .ok root := by
  have haccepted : fromUri "talkrypt://aaaaaaiaaaaaaaaaaaaaaaaaaaaaaaaaaaeacaqdaqcqmbyiaaaaaaaaaa" =
      .ok (minimal [1, 2, 3, 4, 5, 6, 7, 8]) := except_eq_ok_of_toOption (by decide +kernel)
  refine ⟨haccepted, (exists_deriveRoot_iff_of_fromUri haccepted (some "hunter2")).mpr ?_⟩
  rintro pw ⟨⟩
  decide +kernel

end Sample
end Invite
end Talkrypt.Core
