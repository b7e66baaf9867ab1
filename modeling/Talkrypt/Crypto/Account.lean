import Talkrypt.Lib.Except
import Talkrypt.Crypto.TreeKem.Scheme

/-!
# Account identities (`crates/crypto/src/account.rs`)

An account key certifies device keys, a device key may certify further keys, and an `IdentityChain` is a
path from the account to a leaf key. Account keys also sign username claims and revocations; none of the
three signed encodings carries a tag. They are records of four, three and two length-prefixed fields, so
the bytes of one are never those of another (`Issuance.eq_cert_of_bytes_eq`), and whoever signs nothing
else has issued every link of an accepted chain (`IdentityChain.accepted_chain_issued`).
-/

namespace Talkrypt.Account
open TreeKem (Scheme)

/-! ## Signed bodies -/

def CLOCK_SKEW_TOLERANCE : UInt64 := 300

def saturatingAdd (a b : UInt64) : UInt64 := UInt64.ofNat (min (a.toNat + b.toNat) (2 ^ 64 - 1))

theorem saturatingAdd_toNat (a b : UInt64) :
    (saturatingAdd a b).toNat = min (a.toNat + b.toNat) (2 ^ 64 - 1) := by
  rw [saturatingAdd, UInt64.toNat_ofNat_of_lt']
  have : UInt64.size = 2 ^ 64 := rfl
  omega

def be8 (v : UInt64) : Bytes := beBytes 8 v.toNat

theorem be8_injective : Function.Injective be8 := fun v w h => by
  have h := congrArg beNat h
  rw [be8, be8, beNat_beBytes_of_lt v.toNat_lt, beNat_beBytes_of_lt w.toNat_lt] at h
  exact UInt64.toNat_inj.mp h

structure Cert where
  subject : IdentityPublic
  label : String
  validFrom : UInt64
  expiry : UInt64
deriving DecidableEq

namespace Cert

def fields (c : Cert) : List Bytes := [c.subject.sigVk, utf8 c.label, be8 c.validFrom, be8 c.expiry]

def encode (c : Cert) : Bytes := putFields c.fields

def validAt (c : Cert) (now : UInt64) : Bool :=
  c.validFrom ≤ saturatingAdd now CLOCK_SKEW_TOLERANCE &&
    (c.expiry == 0 || now ≤ saturatingAdd c.expiry CLOCK_SKEW_TOLERANCE)

/-- `now` lies in the validity window, up to the tolerance. -/
def InWindow (c : Cert) (now : UInt64) : Prop :=
  c.validFrom.toNat ≤ now.toNat + CLOCK_SKEW_TOLERANCE.toNat ∧
    (c.expiry ≠ 0 → now.toNat ≤ c.expiry.toNat + CLOCK_SKEW_TOLERANCE.toNat)

theorem inWindow_of_validAt {c : Cert} {now : UInt64} (h : c.validAt now = true) : c.InWindow now := by
  simp only [validAt, Bool.and_eq_true, Bool.or_eq_true, decide_eq_true_eq, beq_iff_eq,
    UInt64.le_iff_toNat_le, saturatingAdd_toNat] at h
  refine ⟨h.1.trans (Nat.min_le_left _ _), fun hexp => ?_⟩
  exact (h.2.resolve_left hexp).trans (Nat.min_le_left _ _)

theorem fields_injective : Function.Injective fields := fun c d h => by
  obtain ⟨⟨vk⟩, label, vf, ex⟩ := c
  obtain ⟨⟨vk'⟩, label', vf', ex'⟩ := d
  simp only [fields, List.cons.injEq, and_true] at h
  obtain ⟨rfl, hlabel, hvf, hex⟩ := h
  rw [utf8_injective hlabel, be8_injective hvf, be8_injective hex]

end Cert

/-- An account's claim that it owns a username. -/
structure UsernameClaim where
  username : String
  account : IdentityPublic
  issued : UInt64
deriving DecidableEq

def UsernameClaim.encodeSigned (c : UsernameClaim) : Bytes :=
  putFields [utf8 c.username, c.account.sigVk, be8 c.issued]

/-- An account's statement that it revokes a device or segment key. -/
structure Revocation where
  account : IdentityPublic
  subjectFp : ByteArr 48
  issued : UInt64
  sig : Bytes
deriving DecidableEq

def Revocation.signedBytes (subjectFp : ByteArr 48) (issued : UInt64) : Bytes :=
  putFields [subjectFp.1, be8 issued]

def Revocation.verify (S : Scheme) (r : Revocation) : Except CryptoError Unit :=
  S.verify r.account (signedBytes r.subjectFp r.issued) r.sig

/-! ## Chains -/

structure SignedCert where
  issuer : IdentityPublic
  cert : Cert
  sig : Bytes
deriving DecidableEq

def SignedCert.issue {S : Scheme} (issuer : S.SigSeed) (subject : IdentityPublic) (label : String)
    (validFrom expiry : UInt64) : SignedCert :=
  let cert : Cert := { subject, label, validFrom, expiry }
  { issuer := S.sigPublic issuer, cert, sig := S.sign issuer cert.encode }

def SignedCert.verifySignature (S : Scheme) (c : SignedCert) : Except CryptoError Unit :=
  S.verify c.issuer c.cert.encode c.sig

/-- A path of certificates from the account to a leaf key. -/
structure IdentityChain where
  links : List SignedCert
deriving DecidableEq

namespace IdentityChain

def device {S : Scheme} (account : S.SigSeed) (device : IdentityPublic) (label : String) (validFrom expiry : UInt64) :
    IdentityChain := ⟨[.issue account device label validFrom expiry]⟩

/-- The owner of the current leaf certifies a key below it. -/
def extend {S : Scheme} (c : IdentityChain) (leafKp : S.SigSeed) (sub : IdentityPublic) (label : String)
    (validFrom expiry : UInt64) : IdentityChain := ⟨c.links ++ [.issue leafKp sub label validFrom expiry]⟩

def leaf (c : IdentityChain) : Option IdentityPublic := c.links.getLast?.map (·.cert.subject)

/-- One link after the previous link's subject (`none` before the first). -/
def verifyLink (S : Scheme) (now : UInt64) (prev : Option IdentityPublic) (link : SignedCert) :
    Except CryptoError Unit := do
  link.verifySignature S
  -- expired or not yet valid, or broken chaining
  if !link.cert.validAt now || prev.any (link.issuer ≠ ·) then throw .badSignature else pure ()

def verifyLinks (S : Scheme) (now : UInt64) : Option IdentityPublic → List SignedCert →
    Except CryptoError Unit
  | _, [] => pure ()
  | prev, link :: links => do
    verifyLink S now prev link
    verifyLinks S now (some link.cert.subject) links

/-- The chain roots at `account`, every link is signed by its issuer, in its validity window and issued by
the previous link's subject, and the last subject is `leaf`. -/
def verify (S : Scheme) (c : IdentityChain) (account leaf : IdentityPublic) (now : UInt64) :
    Except CryptoError Unit :=
  match c.links with
  | [] => throw (.malformed "empty identity chain")
  | first :: _ =>
    if first.issuer ≠ account then throw .badSignature
    else do
      verifyLinks S now none c.links
      if c.leaf = some leaf then pure () else throw .badSignature

end IdentityChain

/-! ## Codec -/

def SignedCert.encode (c : SignedCert) : Bytes := putFields [c.issuer.sigVk, c.cert.encode, c.sig]

def IdentityChain.encode (c : IdentityChain) : Bytes :=
  putU32 c.links.length ++ putFields (c.links.map SignedCert.encode)

def getPub : Reader CryptoError IdentityPublic := do
  let sigVk ← Reader.getBytes
  pure ⟨sigVk⟩

def getU64Field : Reader CryptoError UInt64 := do
  let b ← Reader.getBytes
  if b.length ≠ 8 then throw (.malformed "u64 length") else pure (UInt64.ofNat (beNat b))

def Cert.read : Reader CryptoError Cert := do
  let subject ← getPub
  let label ← Reader.getBytes
  match fromUtf8 label with
  | none => throw (.malformed "cert label utf-8")
  | some label =>
    let validFrom ← getU64Field
    let expiry ← getU64Field
    pure { subject, label, validFrom, expiry }

def parseAll {α : Type} (r : Reader CryptoError α) (bytes : Bytes) : Except CryptoError α :=
  Reader.parse (do let a ← r; Reader.finish; pure a) bytes

def SignedCert.read : Reader CryptoError SignedCert := do
  let issuer ← getPub
  let certBytes ← Reader.getBytes
  let cert ← liftM (parseAll Cert.read certBytes)
  let sig ← Reader.getBytes
  pure { issuer, cert, sig }

def SignedCert.decode (bytes : Bytes) : Except CryptoError SignedCert := parseAll SignedCert.read bytes

def Revocation.read : Reader CryptoError Revocation := do
  let account ← getPub
  let sfp ← Reader.getBytes
  if h : sfp.length = 48 then
    let issued ← getU64Field
    let sig ← Reader.getBytes
    pure { account, subjectFp := ⟨sfp, h⟩, issued, sig }
  else throw (.malformed "revocation subject fp length")

def Revocation.decode (bytes : Bytes) : Except CryptoError Revocation := parseAll Revocation.read bytes

namespace IdentityChain

def getLinks : Nat → Reader CryptoError (List SignedCert)
  | 0 => pure []
  | n + 1 => do
    let linkBytes ← Reader.getBytes
    let link ← liftM (parseAll SignedCert.read linkBytes)
    let links ← getLinks n
    pure (link :: links)

def decode (bytes : Bytes) : Except CryptoError IdentityChain := do
  let links ← parseAll (do
    let n ← Reader.getU32
    if n > 16 then throw (.malformed "identity chain too long") else getLinks n) bytes
  pure ⟨links⟩

end IdentityChain

/-! ## What is encoded is read, and nothing else -/

theorem parseAll_eq_ok {α : Type} {r : Reader CryptoError α} {bytes : Bytes} {a : α} :
    parseAll r bytes = .ok a ↔ r bytes = .ok (a, []) := Reader.parse_finish_eq_ok

theorem reads_parseAll {α : Type} {r : Reader CryptoError α} {put : α → Bytes} {F : α → Prop} (h : Reads r put F) :
    Reads (do let b ← Reader.getBytes; liftM (parseAll r b) : Reader CryptoError α) (fun a => putBytes (put a))
      (fun a => F a ∧ (put a).length ≤ MAX_FRAME) := codec_field (Codec.finish h).decodes Reader.lift_iff

theorem reads_pub : Reads getPub (fun pk => putBytes pk.sigVk) (·.sigVk.length ≤ MAX_FRAME) :=
  (Codec.seq (π := IdentityPublic.sigVk) reads_bytes fun vk _ => .done fun pk => by cases pk; simp).conv (by simp) (by simp)

theorem reads_u64Field : Reads getU64Field (fun v => putBytes (be8 v)) Any := by
  refine .intro (fun {v} _ rest => ?_) fun {v s t} h => ⟨?_, trivial⟩
  · have hlen : (be8 v).length = 8 := beBytes_length 8 _
    rw [getU64Field, Reader.bind_ok (Reader.getBytes_putBytes (by rw [hlen]; decide) rest), if_neg (by simp [hlen]),
      be8, beNat_beBytes_of_lt v.toNat_lt, UInt64.ofNat_toNat]
    rfl
  · obtain ⟨b, u, hb, hfield⟩ := Reader.bind_eq_ok.mp h
    obtain ⟨rfl, -⟩ := Reader.getBytes_eq_ok hb
    split at hfield
    · cases hfield
    · next hlen =>
      have hlen : b.length = 8 := not_not.mp hlen
      cases hfield
      have hlt : beNat b < 2 ^ 64 := by
        have := beNat_lt b
        rwa [hlen] at this
      rw [be8, UInt64.toNat_ofNat_of_lt' hlt, ← hlen, beBytes_beNat]

theorem Cert.reads_read :
    Reads Cert.read encode (fun c => c.subject.sigVk.length ≤ MAX_FRAME ∧ (utf8 c.label).length ≤ MAX_FRAME) := by
  suffices ∀ vk, Codec True False _ (fun c : Cert => putFields c.fields.tail) (fun c => True ∧ c.subject = vk) _ from
    Codec.seq (π := subject) reads_pub fun vk _ => this vk
  intro subject
  rw [bind_eq_readChecked (f := fromUtf8) _ (fun _ h => by rw [h]) fun _ _ h => by rw [h]]
  refine (Codec.seq (π := label) reads_text fun label _ => .seq (π := validFrom) reads_u64Field fun validFrom _ =>
    .seq (π := expiry) reads_u64Field fun expiry _ => .done fun c => ?_).conv (fun c _ => ?_) fun c _ => by simp
  · cases c
    simp [and_assoc]
  · simp [fields]

def SignedCert.Fits (c : SignedCert) : Prop := c.issuer.sigVk.length ≤ MAX_FRAME ∧
  ((c.cert.subject.sigVk.length ≤ MAX_FRAME ∧ (utf8 c.cert.label).length ≤ MAX_FRAME) ∧
    c.cert.encode.length ≤ MAX_FRAME) ∧ c.sig.length ≤ MAX_FRAME

theorem SignedCert.reads_read : Reads SignedCert.read encode Fits := by
  refine (Codec.seq (π := issuer) reads_pub fun issuer _ => .seq₂ (π := cert) (reads_parseAll Cert.reads_read)
    fun cert _ => .seq (π := sig) reads_bytes fun sig _ => .done fun c => ?_).conv (fun c _ => ?_)
    fun c _ => by simp [Fits]
  · cases c
    simp [and_assoc]
  · simp [encode]

theorem SignedCert.fits_of_encode {c : SignedCert} (h : c.encode.length ≤ MAX_FRAME) : c.Fits := by
  have hfits (f : Bytes) (hf : f ∈ [c.issuer.sigVk, c.cert.encode, c.sig]) : f.length ≤ MAX_FRAME :=
    (Nat.le_add_right _ _).trans ((length_le_putFields hf).trans h)
  have hcert : c.cert.encode.length ≤ MAX_FRAME := hfits _ (by simp)
  have hfields (f : Bytes) (hf : f ∈ c.cert.fields) : f.length ≤ MAX_FRAME :=
    (Nat.le_add_right _ _).trans ((length_le_putFields hf).trans hcert)
  exact ⟨hfits _ (by simp), ⟨⟨hfields _ (by simp [Cert.fields]), hfields _ (by simp [Cert.fields])⟩, hcert⟩,
    hfits _ (by simp)⟩

theorem SignedCert.decode_encode {c : SignedCert} (h : c.encode.length ≤ MAX_FRAME) : decode c.encode = .ok c :=
  parseAll_eq_ok.mpr (reads_read.read_nil (fits_of_encode h))

namespace IdentityChain

theorem getLinks_eq (n : Nat) : getLinks n = readMany (do let b ← Reader.getBytes; liftM (parseAll SignedCert.read b)) n := by
  induction n with
  | zero => rfl
  | succ n ih => rw [getLinks, readMany, bind_assoc, ih]

theorem reads_links : Reads (do
      let n ← Reader.getU32
      if n > 16 then throw (.malformed "identity chain too long") else getLinks n : Reader CryptoError (List SignedCert))
    (putCounted fun c => putBytes c.encode)
    (fun links => links.length ≤ 16 ∧ ∀ c ∈ links, c.Fits ∧ c.encode.length ≤ MAX_FRAME) :=
  reads_capped reads_u32 (reads_parseAll SignedCert.reads_read) getLinks_eq (by decide)

theorem decode_eq_ok {bytes : Bytes} {c : IdentityChain} : decode bytes = .ok c ↔
    bytes = c.encode ∧ c.links.length ≤ 16 ∧ ∀ link ∈ c.links, link.encode.length ≤ MAX_FRAME := by
  have hencode : c.encode = putCounted (fun c => putBytes c.encode) c.links := by
    rw [encode, putFields, List.flatMap_map]
    rfl
  constructor
  · intro h
    obtain ⟨links, hlinks, hpure⟩ := except_bind_eq_ok.mp h
    cases hpure
    obtain ⟨hbytes, hlen, hfits⟩ := reads_links.accepts (parseAll_eq_ok.mp hlinks)
    exact ⟨by rw [hencode, hbytes, List.append_nil], hlen, fun link hlink => (hfits link hlink).2⟩
  · rintro ⟨rfl, hlen, hfits⟩
    have hread := reads_links.read_nil ⟨hlen, fun link hlink => ⟨SignedCert.fits_of_encode (hfits link hlink),
      hfits link hlink⟩⟩
    rw [decode, hencode, parseAll_eq_ok.mpr hread]
    rfl

theorem decode_encode_length {bytes : Bytes} {c : IdentityChain} (h : decode bytes = .ok c) :
    ∀ link ∈ c.links, link.cert.encode.length ≤ MAX_FRAME :=
  fun link hlink => (SignedCert.fits_of_encode ((decode_eq_ok.mp h).2.2 link hlink)).2.1.2

/-! ## What an accepted chain is -/

/-- The issuers of the links form a path between two keys. -/
def Path : IdentityPublic → List SignedCert → IdentityPublic → Prop
  | account, [], leaf => account = leaf
  | account, link :: links, leaf => link.issuer = account ∧ Path link.cert.subject links leaf

variable {S : Scheme} {now : UInt64}

theorem verifyLink_eq_ok {prev : Option IdentityPublic} {link : SignedCert}
    (h : verifyLink S now prev link = .ok ()) :
    link.verifySignature S = .ok () ∧ link.cert.validAt now = true ∧ ∀ pk ∈ prev, link.issuer = pk := by
  obtain ⟨⟨⟩, hsig, h⟩ := except_bind_eq_ok.mp h
  split at h
  · cases h
  · next hchecks =>
    simp only [Bool.or_eq_true, not_or, Bool.not_eq_true', Bool.not_eq_false] at hchecks
    refine ⟨hsig, hchecks.1, ?_⟩
    rintro pk rfl
    simpa using hchecks.2

/-- The links of a chain are checked one after the other: each is signed and valid, and from any key the
rest leads to the last subject. -/
theorem verifyLinks_eq_ok {prev : Option IdentityPublic} {links : List SignedCert}
    (h : verifyLinks S now prev links = .ok ()) :
    (∀ link ∈ links, link.verifySignature S = .ok () ∧ link.cert.validAt now = true) ∧
      ∀ pk ∈ prev, ∀ leaf, (pk :: links.map (·.cert.subject)).getLast? = some leaf →
        Path pk links leaf := by
  induction links generalizing prev with
  | nil => exact ⟨List.forall_mem_nil _, fun _ _ _ hleaf => Option.some.inj hleaf⟩
  | cons link links ih =>
    obtain ⟨⟨⟩, hlink, h⟩ := except_bind_eq_ok.mp h
    obtain ⟨hsig, hvalid, hissuer⟩ := verifyLink_eq_ok hlink
    obtain ⟨hall, hpath⟩ := ih h
    refine ⟨List.forall_mem_cons.mpr ⟨⟨hsig, hvalid⟩, hall⟩, fun pk hpk leaf hleaf => ?_⟩
    rw [List.map_cons, List.getLast?_cons_cons] at hleaf
    exact ⟨hissuer pk hpk, hpath _ rfl leaf hleaf⟩

theorem verify_eq_ok {c : IdentityChain} {account leaf : IdentityPublic} (h : c.verify S account leaf now = .ok ()) :
    (∀ link ∈ c.links, link.verifySignature S = .ok () ∧ link.cert.validAt now = true) ∧
      c.links ≠ [] ∧ Path account c.links leaf := by
  obtain ⟨links⟩ := c
  cases links with
  | nil => cases h
  | cons first links =>
    simp only [verify] at h
    split at h
    · cases h
    · next hroot =>
      obtain ⟨⟨⟩, hlinks, h⟩ := except_bind_eq_ok.mp h
      split at h
      · next hleaf =>
        obtain ⟨⟨⟩, -, hrest⟩ := except_bind_eq_ok.mp hlinks
        rw [IdentityChain.leaf, ← List.getLast?_map, List.map_cons] at hleaf
        exact ⟨(verifyLinks_eq_ok hlinks).1, List.cons_ne_nil _ _, not_not.mp hroot,
          (verifyLinks_eq_ok hrest).2 _ rfl leaf hleaf⟩
      · cases h

end IdentityChain

/-! ## Who signs what -/

/-- What an account or device key signs through the library. -/
inductive Issuance where
  | cert (c : Cert)
  | claim (c : UsernameClaim)
  | revocation (subjectFp : ByteArr 48) (issued : UInt64)

namespace Issuance

def bytes : Issuance → Bytes
  | .cert c => c.encode
  | .claim c => c.encodeSigned
  | .revocation subjectFp issued => Revocation.signedBytes subjectFp issued

/-- The number of fields tells certificates from everything else that is signed. The issued record need
not fit a frame: as it has the bytes of one that does, its length prefixes were not cut. -/
theorem eq_cert_of_bytes_eq {iss : Issuance} {c : Cert} (hc : c.encode.length ≤ MAX_FRAME)
    (h : iss.bytes = c.encode) : iss = .cert c := by
  have hlen : c.encode.length < 2 ^ 32 := hc.trans_lt (by decide)
  have hfields {fs : List Bytes} (heq : putFields fs = c.encode) : c.fields = fs :=
    putFields_inj hlen heq.symm
  cases iss with
  | cert d =>
    have hsame : c.fields = d.fields := hfields h
    rw [Cert.fields_injective hsame]
  | claim d =>
    have := congrArg List.length (hfields h)
    simp [Cert.fields] at this
  | revocation fp issued =>
    have := congrArg List.length (hfields h)
    simp [Cert.fields] at this

end Issuance

/-- Ideal signatures of keys that sign only through the library: what verifies under a key is the body of
something that the key issued. -/
def Unforgeable (S : Scheme) (log : Set (IdentityPublic × Issuance)) : Prop :=
  ∀ pk m sig, S.verify pk m sig = .ok () → ∃ iss, (pk, iss) ∈ log ∧ iss.bytes = m

namespace IdentityChain

/-- Every link of an accepted chain was issued as a certificate by its issuer, and by nothing else that
the issuer signed; it is in its validity window; and the issuers lead from the account to the leaf. -/
theorem accepted_chain_issued {S : Scheme} {log : Set (IdentityPublic × Issuance)} (hlog : Unforgeable S log)
    {bytes : Bytes} {chain : IdentityChain} (hdecode : decode bytes = .ok chain)
    {account leaf : IdentityPublic} {now : UInt64} (hverify : chain.verify S account leaf now = .ok ()) :
    (∀ link ∈ chain.links, (link.issuer, .cert link.cert) ∈ log ∧ link.cert.InWindow now ∧
      ∀ iss : Issuance, iss.bytes = link.cert.encode → iss = .cert link.cert) ∧
    chain.links ≠ [] ∧ Path account chain.links leaf := by
  obtain ⟨hlinks, hne, hpath⟩ := verify_eq_ok hverify
  refine ⟨fun link hlink => ?_, hne, hpath⟩
  obtain ⟨hsig, hvalid⟩ := hlinks link hlink
  have honly (iss : Issuance) : iss.bytes = link.cert.encode → iss = .cert link.cert :=
    Issuance.eq_cert_of_bytes_eq (decode_encode_length hdecode link hlink)
  obtain ⟨iss, hiss, hbytes⟩ := hlog _ _ _ hsig
  exact ⟨honly iss hbytes ▸ hiss, Cert.inWindow_of_validAt hvalid, honly⟩

/-- A device certified by an account whose key signed this certificate and nothing else. -/
def phoneCert : Cert := { subject := ⟨[2]⟩, label := "device:phone", validFrom := 1000, expiry := 0 }

def phoneChain : IdentityChain :=
  ⟨[SignedCert.issue (S := Scheme.plain) (1 : UInt8) ⟨[2]⟩ "device:phone" 1000 0]⟩

theorem accepted_phone_issued : decode phoneChain.encode = .ok phoneChain ∧
    phoneChain.verify (Scheme.plain.logged [(⟨[1]⟩, phoneCert.encode)]) ⟨[1]⟩ ⟨[2]⟩ 800 = .ok () ∧
    (∀ link ∈ phoneChain.links, (link.issuer, .cert link.cert) ∈
        ({(⟨[1]⟩, .cert phoneCert)} : Set (IdentityPublic × Issuance)) ∧ link.cert.InWindow 800 ∧
      ∀ iss : Issuance, iss.bytes = link.cert.encode → iss = .cert link.cert) ∧
    phoneChain.links ≠ [] ∧ Path ⟨[1]⟩ phoneChain.links ⟨[2]⟩ := by
  have hdecode : decode phoneChain.encode = .ok phoneChain := decode_eq_ok.mpr ⟨rfl, by decide, by decide⟩
  have hverify : phoneChain.verify (Scheme.plain.logged [(⟨[1]⟩, phoneCert.encode)]) ⟨[1]⟩ ⟨[2]⟩ 800 =
    .ok () := by decide
  refine ⟨hdecode, hverify, accepted_chain_issued (fun pk m sig h => ?_) hdecode hverify⟩
  have hmem := List.mem_singleton.mp (Scheme.mem_of_logged_verify h)
  cases hmem
  exact ⟨.cert phoneCert, rfl, rfl⟩

end IdentityChain
end Talkrypt.Account
