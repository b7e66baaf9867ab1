import Talkrypt.Lib.Codec
import Talkrypt.Lib.Run
import Talkrypt.Core.Frames
import Talkrypt.Crypto.Account

/-!
# The username registry (`crates/core/src/registry.rs`)

A table of self-signed claims behind one lock. `Register` keeps the account that a name has, `List` answers with
every claim in one response. The encoder of the response has no limit, while its decoder and the frame it travels
in do.
-/

namespace Talkrypt
open TreeKem (Scheme)

/-! ## Signed claims (`crates/crypto/src/account.rs`) -/

namespace Account

def UsernameClaim.read : Reader CryptoError UsernameClaim := do
  let username ← Reader.getBytes
  match fromUtf8 username with
  | none => throw (.malformed "username utf-8")
  | some username =>
    let account ← getPub
    let issued ← getU64Field
    pure { username, account, issued }

/-- A username claim signed by the account key. -/
structure SignedClaim where
  claim : UsernameClaim
  sig : Bytes
deriving DecidableEq

namespace SignedClaim

def issue {S : Scheme} (account : S.SigSeed) (username : String) (issued : UInt64) : SignedClaim :=
  let claim : UsernameClaim := { username, account := S.sigPublic account, issued }
  { claim, sig := S.sign account claim.encodeSigned }

def verify (S : Scheme) (c : SignedClaim) : Except CryptoError Unit :=
  S.verify c.claim.account c.claim.encodeSigned c.sig

def encode (c : SignedClaim) : Bytes := putFields [c.claim.encodeSigned, c.sig]

def read : Reader CryptoError SignedClaim := do
  let claimBytes ← Reader.getBytes
  let claim ← liftM (parseAll UsernameClaim.read claimBytes)
  let sig ← Reader.getBytes
  pure { claim, sig }

def decode (bytes : Bytes) : Except CryptoError SignedClaim := parseAll read bytes

end SignedClaim

theorem UsernameClaim.reads_read : Reads read encodeSigned
    (fun c => (utf8 c.username).length ≤ MAX_FRAME ∧ c.account.sigVk.length ≤ MAX_FRAME) := by
  rw [read, bind_eq_readChecked (f := fromUtf8) _ (fun _ h => by rw [h]) fun _ _ h => by rw [h]]
  refine (Codec.seq (π := username) reads_text fun username _ => .seq (π := account) reads_pub fun account _ =>
    .seq (π := issued) reads_u64Field fun issued _ => .done fun c => ?_).conv (fun c _ => ?_) fun c _ => by simp
  · cases c
    simp [and_assoc]
  · simp [encodeSigned]

def SignedClaim.Fits (c : SignedClaim) : Prop := (((utf8 c.claim.username).length ≤ MAX_FRAME ∧
  c.claim.account.sigVk.length ≤ MAX_FRAME) ∧ c.claim.encodeSigned.length ≤ MAX_FRAME) ∧ c.sig.length ≤ MAX_FRAME

theorem SignedClaim.reads_read : Reads read encode Fits := by
  refine (Codec.seq₂ (π := claim) (reads_parseAll UsernameClaim.reads_read) fun claim _ =>
    .seq (π := sig) reads_bytes fun sig _ => .done fun c => ?_).conv (fun c _ => ?_) fun c _ => by simp [Fits]
  · cases c
    simp
  · simp [encode]

theorem SignedClaim.fits_of_encode {c : SignedClaim} (h : c.encode.length ≤ MAX_FRAME) : c.Fits := by
  have hfits {fs : List Bytes} (hfs : (putFields fs).length ≤ MAX_FRAME) (f : Bytes) (hf : f ∈ fs) :
      f.length ≤ MAX_FRAME := (Nat.le_add_right _ _).trans ((length_le_putFields hf).trans hfs)
  have hclaim : c.claim.encodeSigned.length ≤ MAX_FRAME := hfits h _ (by simp)
  exact ⟨⟨⟨hfits hclaim _ (by simp), hfits hclaim _ (by simp)⟩, hclaim⟩, hfits h _ (by simp)⟩

end Account

namespace Core.Registry
open Account

/-! ## Messages -/

def MAX_CLAIMS : Nat := 100000

inductive Request where
  | register (claim : SignedClaim)
  | resolve (name : String)
  | list

inductive Response where
  | registered
  | claims (claims : List SignedClaim)
  | error (msg : String)
deriving DecidableEq

/-- An error of the crypto layer, as an error of this one. -/
def orCrypto {α : Type} : Except CryptoError α → Except CoreError α
  | .ok a => .ok a
  | .error e => .error (.crypto e)

def getClaim : Reader CoreError SignedClaim := do
  let bytes ← Reader.getBytes
  liftM (orCrypto (SignedClaim.decode bytes))

def getText (what : String) : Reader CoreError String := do
  let bytes ← Reader.getBytes
  match fromUtf8 bytes with
  | none => throw (.malformed what)
  | some s => pure s

namespace Request

def encode : Request → Bytes
  | register claim => putU8 0 ++ putBytes claim.encode
  | resolve name => putU8 1 ++ putBytes (utf8 name)
  | list => putU8 2

def get : Reader CoreError Request := do
  let tag ← Reader.getU8
  if tag = 0 then
    let claim ← getClaim
    pure (register claim)
  else if tag = 1 then
    let name ← getText "resolve username utf-8"
    pure (resolve name)
  else if tag = 2 then pure list
  else throw (.malformed "registry request tag")

def decode (bytes : Bytes) : Except CoreError Request := get.parse bytes

end Request

namespace Response

def encode : Response → Bytes
  | registered => putU8 0
  | claims cs => putU8 1 ++ (putU32 cs.length ++ cs.flatMap fun c => putBytes c.encode)
  | error msg => putU8 2 ++ putBytes (utf8 msg)

def getClaims : Reader CoreError (List SignedClaim) := do
  let n ← Reader.getU32
  if n > MAX_CLAIMS then throw (.malformed "too many claims") else readMany getClaim n

def get : Reader CoreError Response := do
  let tag ← Reader.getU8
  if tag = 0 then pure registered
  else if tag = 1 then
    let cs ← getClaims
    pure (claims cs)
  else if tag = 2 then
    let msg ← getText "registry error utf-8"
    pure (error msg)
  else throw (.malformed "registry response tag")

def decode (bytes : Bytes) : Except CoreError Response := get.parse bytes

end Response

/-! ## The server -/

abbrev Store := Table String SignedClaim

variable (S : Scheme)

/-- Apply a request to the store. The claims of `List` come in the order in which the table is iterated. -/
def apply (store : Store) : Request → Response × Store
  | .register claim =>
    match claim.verify S with
    | .error _ => (.error "claim is not validly self-signed", store)
    | .ok () =>
      let name := claim.claim.username
      match store.lookup name with
      | some existing =>
        if existing.claim.account ≠ claim.claim.account then
          (.error "username already registered to another account", store)
        else (.registered, store.insert name claim)
      | none => (.registered, store.insert name claim)
  | .resolve name => (.claims (store.lookup name).toList, store)
  | .list => (.claims (store.toList.map Prod.snd), store)

/-- One request of `serve_loop`, as it was decrypted. -/
def serve (store : Store) (pt : Bytes) : Response × Store :=
  match Request.decode pt with
  | .ok req => apply S store req
  | .error _ => (.error "malformed request", store)

def step (store : Store) (pt : Bytes) : Store := (serve S store pt).2

/-! ## Frames -/

structure Channel where
  overhead : Nat
  sealFrame : Bytes → Bytes
  openFrame : Bytes → Except CryptoError Bytes
  length_sealFrame : ∀ pt, (sealFrame pt).length = pt.length + overhead
  openFrame_sealFrame : ∀ pt, openFrame (sealFrame pt) = .ok pt

/-- What the client gets of a response: the frame may be too large for the transport, or the response for the
client. -/
def Channel.deliver (ch : Channel) (r : Response) : Except CoreError Response :=
  let ct := ch.sealFrame r.encode
  if MAX_FRAME < ct.length then .error (.wire (.frameTooLarge ct.length MAX_FRAME))
  else
    match ch.openFrame ct with
    | .error e => .error (.crypto e)
    | .ok pt => Response.decode pt

/-! ## What a request does to the store -/

variable {S} {store : Store}

theorem reads_claim : Reads getClaim (fun c => putBytes c.encode) (fun c => c.encode.length ≤ MAX_FRAME) := by
  refine (codec_field (d := fun b => orCrypto (SignedClaim.decode b)) (F := SignedClaim.Fits) ⟨fun hc => ?_,
    fun {c b} h => ?_⟩ Reader.lift_iff).conv (fun _ _ => rfl) fun c _ =>
    ⟨And.right, fun h => ⟨SignedClaim.fits_of_encode h, h⟩⟩
  · rw [SignedClaim.decode, parseAll_eq_ok.mpr (SignedClaim.reads_read.read_nil hc)]
    rfl
  · cases hd : SignedClaim.decode b with
    | error e =>
      rw [hd] at h
      cases h
    | ok c' =>
      rw [hd] at h
      cases h
      exact (Codec.finish SignedClaim.reads_read).decodes.accepts hd

theorem encode_length_of_decode {pt : Bytes} {claim : SignedClaim} (h : Request.decode pt = .ok (.register claim)) :
    claim.encode.length ≤ MAX_FRAME := by
  obtain ⟨⟨req, rest⟩, hget, rfl⟩ := except_map_eq_ok h
  obtain ⟨tag, u, -, hget⟩ := Reader.bind_eq_ok.mp hget
  split at hget
  · obtain ⟨claim', v, hclaim, hpure⟩ := Reader.bind_eq_ok.mp hget
    cases hpure
    exact (reads_claim.accepts hclaim).2
  split at hget
  · obtain ⟨name, v, -, hpure⟩ := Reader.bind_eq_ok.mp hget
    cases hpure
  split at hget
  · cases hget
  · cases hget

/-- A request leaves the store, or enters a valid claim under its own name, which was free or had the same
account. -/
theorem step_cases (S : Scheme) (store : Store) (pt : Bytes) :
    step S store pt = store ∨ ∃ claim : SignedClaim, claim.verify S = .ok () ∧ claim.encode.length ≤ MAX_FRAME ∧
      (∀ existing ∈ store.lookup claim.claim.username, existing.claim.account = claim.claim.account) ∧
      step S store pt = store.insert claim.claim.username claim := by
  rw [step, serve]
  cases hdecode : Request.decode pt with
  | error e => exact .inl rfl
  | ok req =>
    cases req with
    | resolve name => exact .inl rfl
    | list => exact .inl rfl
    | register claim =>
      have hlen := encode_length_of_decode hdecode
      simp only [apply]
      cases hverify : claim.verify S with
      | error e => exact .inl rfl
      | ok u =>
        cases hlookup : store.lookup claim.claim.username with
        | none =>
          refine .inr ⟨claim, hverify, hlen, fun existing hmem => ?_, rfl⟩
          rw [hlookup] at hmem
          cases hmem
        | some existing =>
          by_cases hsame : existing.claim.account = claim.claim.account
          · refine .inr ⟨claim, hverify, hlen, fun existing' hmem => ?_, by simp [hsame]⟩
            rw [hlookup] at hmem
            cases hmem
            exact hsame
          · exact .inl (by simp [hsame])

structure Valid (S : Scheme) (store : Store) : Prop where
  verify : ∀ {name claim}, store.lookup name = some claim → claim.verify S = .ok ()
  username : ∀ {name claim}, store.lookup name = some claim → claim.claim.username = name
  fits : ∀ {name claim}, store.lookup name = some claim → claim.encode.length ≤ MAX_FRAME

theorem Valid.step (h : Valid S store) (pt : Bytes) : Valid S (step S store pt) := by
  rcases step_cases S store pt with heq | ⟨claim, hverify, hlen, -, heq⟩
  · rw [heq]
    exact h
  · rw [heq]
    have hcases {name : String} {claim' : SignedClaim}
        (hlookup : (store.insert claim.claim.username claim).lookup name = some claim') :
        name = claim.claim.username ∧ claim' = claim ∨ store.lookup name = some claim' := by
      rw [Table.lookup_insert_eq] at hlookup
      split at hlookup
      · next hname => exact .inl ⟨hname, (Option.some.inj hlookup).symm⟩
      · exact .inr hlookup
    refine ⟨fun hlookup => ?_, fun hlookup => ?_, fun hlookup => ?_⟩
    · rcases hcases hlookup with ⟨-, rfl⟩ | hold
      · exact hverify
      · exact h.verify hold
    · rcases hcases hlookup with ⟨rfl, rfl⟩ | hold
      · rfl
      · exact h.username hold
    · rcases hcases hlookup with ⟨-, rfl⟩ | hold
      · exact hlen
      · exact h.fits hold

theorem valid_empty : Valid S ∅ := ⟨nofun, nofun, nofun⟩

theorem valid_run (S : Scheme) (pts : List Bytes) : Valid S (pts.foldl (step S) ∅) :=
  List.foldlRecOn pts (step S) valid_empty fun _ h pt _ => h.step pt

/-- Every name that was registered still is, to the same account. -/
def Kept (earlier later : Store) : Prop :=
  ∀ name claim, earlier.lookup name = some claim →
    ∃ claim', later.lookup name = some claim' ∧ claim'.claim.account = claim.claim.account

theorem kept_step (S : Scheme) (store : Store) (pt : Bytes) : Kept store (step S store pt) := by
  intro name claim hlookup
  rcases step_cases S store pt with heq | ⟨claim', -, -, hsame, heq⟩
  · exact ⟨claim, by rw [heq]; exact hlookup, rfl⟩
  · rw [heq, Table.lookup_insert_eq]
    split
    · next hname =>
      subst hname
      exact ⟨claim', rfl, (hsame claim hlookup).symm⟩
    · exact ⟨claim, hlookup, rfl⟩

theorem kept_run (S : Scheme) (store : Store) (pts : List Bytes) : Kept store (pts.foldl (step S) store) := by
  induction pts using List.reverseRecOn with
  | nil => exact fun name claim h => ⟨claim, h, rfl⟩
  | append_singleton pts pt ih =>
    intro name claim hlookup
    obtain ⟨claim', hlookup', haccount'⟩ := ih name claim hlookup
    rw [List.foldl_append]
    obtain ⟨claim'', hlookup'', haccount''⟩ := kept_step S _ pt name claim' hlookup'
    exact ⟨claim'', hlookup'', haccount''.trans haccount'⟩

/-! ## The response to `List` -/

def claimsSize (cs : List SignedClaim) : Nat := (cs.map fun c => 4 + c.encode.length).sum

theorem length_encode_claims (cs : List SignedClaim) : (Response.claims cs).encode.length = 5 + claimsSize cs := by
  have hbody : (cs.flatMap fun c => putBytes c.encode).length = claimsSize cs := by
    simp [claimsSize, List.length_flatMap, putBytes_length]
  rw [Response.encode, List.length_append, List.length_append, hbody, putU32, beBytes_length]
  show 1 + (4 + _) = _
  omega

theorem length_le_claimsSize (cs : List SignedClaim) : 4 * cs.length ≤ claimsSize cs := by
  induction cs with
  | nil => exact Nat.le_refl 0
  | cons c cs ih =>
    rw [claimsSize, List.map_cons, List.sum_cons, List.length_cons]
    rw [claimsSize] at ih
    omega

variable {cs : List SignedClaim} {ch : Channel}

theorem decode_encode_claims (hlen : cs.length ≤ MAX_CLAIMS) (hfits : ∀ c ∈ cs, c.encode.length ≤ MAX_FRAME) :
    Response.decode (Response.claims cs).encode = .ok (.claims cs) := by
  have hcs := Reads.read_nil (reads_claim.many cs.length) ⟨rfl, hfits⟩
  have hlt : cs.length < 2 ^ 32 := hlen.trans_lt (by decide)
  rw [Response.decode, Reader.parse, Response.get, Response.encode, Reader.bind_ok (Reader.getU8_putU8 _ _)]
  simp only [if_neg (show (1 : UInt8) ≠ 0 by decide), if_true]
  rw [Reader.bind_ok (?_ : Response.getClaims _ = .ok (cs, []))]
  · rfl
  · rw [Response.getClaims, Reader.bind_ok (Reader.getU32_putU32 hlt _), if_neg (by omega)]
    exact hcs

theorem decode_encode_claims_of_gt (hlen : MAX_CLAIMS < cs.length) (hlt : cs.length < 2 ^ 32) :
    Response.decode (Response.claims cs).encode = .error (.malformed "too many claims") := by
  rw [Response.decode, Reader.parse, Response.get, Response.encode, Reader.bind_ok (Reader.getU8_putU8 _ _)]
  simp only [if_neg (show (1 : UInt8) ≠ 0 by decide), if_true]
  rw [Reader.bind_error (e := .malformed "too many claims")]
  · rfl
  · rw [Response.getClaims, Reader.bind_ok (Reader.getU32_putU32 hlt _), if_pos hlen]
    rfl

/-- The limits of one response: the number of claims, and the bytes of a frame. -/
structure Fits (overhead : Nat) (cs : List SignedClaim) : Prop where
  count : cs.length ≤ MAX_CLAIMS
  size : 5 + claimsSize cs + overhead ≤ MAX_FRAME

theorem deliver_of_fits (hfits : ∀ c ∈ cs, c.encode.length ≤ MAX_FRAME) (h : Fits ch.overhead cs) :
    ch.deliver (.claims cs) = .ok (.claims cs) := by
  have hlen := ch.length_sealFrame (Response.claims cs).encode
  rw [length_encode_claims] at hlen
  rw [Channel.deliver, if_neg (by have := h.size; omega), ch.openFrame_sealFrame]
  exact decode_encode_claims h.count hfits

theorem fits_of_deliver {r : Response} (h : ch.deliver (.claims cs) = .ok r) : Fits ch.overhead cs := by
  have hlen := ch.length_sealFrame (Response.claims cs).encode
  have hcount := length_le_claimsSize cs
  rw [length_encode_claims] at hlen
  rw [Channel.deliver] at h
  split at h
  · cases h
  · next hsize =>
    rw [ch.openFrame_sealFrame] at h
    refine ⟨?_, by omega⟩
    by_contra hmany
    have hlt : cs.length < 2 ^ 32 := by
      unfold MAX_FRAME at hsize
      omega
    cases (decode_encode_claims_of_gt (Nat.not_le.mp hmany) hlt).symm.trans h

/-- Whatever order the table is iterated in, the client gets exactly the stored claims. -/
def Listed (S : Scheme) (ch : Channel) (store : Store) : Prop :=
  ∀ store', Table.Same store store' →
    ∃ cs, ch.deliver (apply S store' .list).1 = .ok (.claims cs) ∧ ∀ c, c ∈ cs ↔ ∃ name, store.lookup name = some c

/-- The limits of a response that lists the whole store. -/
def FitsStore (overhead : Nat) (store : Store) : Prop :=
  store.toList.length ≤ MAX_CLAIMS ∧ 5 + store.total (fun c => 4 + c.encode.length) + overhead ≤ MAX_FRAME

theorem fits_toList_iff {overhead : Nat} : Fits overhead (store.toList.map Prod.snd) ↔ FitsStore overhead store := by
  have hsize : claimsSize (store.toList.map Prod.snd) = store.total fun c => 4 + c.encode.length := by
    simp [claimsSize, Table.total, Function.comp_def]
  refine ⟨fun h => ⟨?_, ?_⟩, fun h => ⟨?_, ?_⟩⟩
  · simpa using h.count
  · rw [← hsize]
    exact h.size
  · simpa using h.1
  · rw [hsize]
    exact h.2

theorem mem_values {c : SignedClaim} : c ∈ store.toList.map Prod.snd ↔ ∃ name, store.lookup name = some c := by
  rw [List.mem_map]
  constructor
  · rintro ⟨⟨name, c'⟩, hmem, rfl⟩
    exact ⟨name, Table.mem_toList.mp hmem⟩
  · rintro ⟨name, hname⟩
    exact ⟨(name, c), Table.mem_toList.mpr hname, rfl⟩

theorem FitsStore.congr {overhead : Nat} {store' : Store} (hsame : Table.Same store store')
    (h : FitsStore overhead store) : FitsStore overhead store' := by
  have hperm : store.toList.Perm store'.toList := by
    refine (List.perm_ext_iff_of_nodup store.nodup_toList.of_map store'.nodup_toList.of_map).mpr fun ⟨name, c⟩ => ?_
    rw [Table.mem_toList, Table.mem_toList, hsame name]
  refine ⟨?_, ?_⟩
  · rw [← hperm.length_eq]
    exact h.1
  · rw [Table.total, ← (hperm.map fun kv => 4 + kv.2.encode.length).sum_eq]
    exact h.2

theorem listed_iff (hvalid : Valid S store) : Listed S ch store ↔ FitsStore ch.overhead store := by
  constructor
  · intro h
    obtain ⟨cs, hcs, -⟩ := h store (.refl store)
    exact fits_toList_iff.mp (fits_of_deliver hcs)
  · intro h store' hsame
    refine ⟨store'.toList.map Prod.snd, ?_, fun c => ?_⟩
    · refine deliver_of_fits (fun c hc => ?_) (fits_toList_iff.mpr (h.congr hsame))
      obtain ⟨name, hname⟩ := mem_values.mp hc
      exact hvalid.fits (show store.lookup name = some c by rw [hsame name, hname])
    · rw [mem_values]
      exact exists_congr fun name => by rw [hsame name]

/-! ## Consistency -/

/-- What a registry promises of its store, between two moments of its run. -/
structure Consistent (S : Scheme) (ch : Channel) (earlier later : Store) : Prop where
  kept : Kept earlier later
  valid : ∀ name claim, later.lookup name = some claim → claim.verify S = .ok () ∧ claim.claim.username = name
  listed : Listed S ch later

/-- Names keep their accounts and claims are valid in every run; the directory can be listed as long as it keeps
within the limits of one response. -/
theorem consistent_run_iff (S : Scheme) (ch : Channel) (pre post : List Bytes) :
    Consistent S ch (pre.foldl (step S) ∅) ((pre ++ post).foldl (step S) ∅) ↔
      FitsStore ch.overhead ((pre ++ post).foldl (step S) ∅) := by
  have hvalid := valid_run S (pre ++ post)
  constructor
  · intro h
    exact (listed_iff hvalid).mp h.listed
  · intro h
    refine ⟨?_, fun name claim hclaim => ⟨hvalid.verify hclaim, hvalid.username hclaim⟩, (listed_iff hvalid).mpr h⟩
    rw [List.foldl_append]
    exact kept_run S _ post

namespace Sample

def bare : Channel where
  overhead := 0
  sealFrame pt := pt
  openFrame ct := .ok ct
  length_sealFrame _ := rfl
  openFrame_sealFrame _ := rfl

def claimOf (key : Bytes) (username : String) : SignedClaim where
  claim := { username, account := ⟨key⟩, issued := 0 }
  sig := key

theorem verify_claimOf (key : Bytes) (username : String) : (claimOf key username).verify Scheme.plain = .ok () :=
  if_pos rfl

theorem length_claimOf (key : Bytes) (username : String) :
    (claimOf key username).encode.length = 28 + 2 * key.length + (utf8 username).length := by
  simp only [SignedClaim.encode, UsernameClaim.encodeSigned, putFields_cons, putFields_nil, List.length_append,
    putBytes_length, List.length_nil, claimOf, be8, beBytes_length]
  omega

theorem decode_register {claim : SignedClaim} (h : claim.encode.length ≤ MAX_FRAME) :
    Request.decode (Request.register claim).encode = .ok (.register claim) := by
  have hclaim := reads_claim.read_nil h
  rw [Request.decode, Reader.parse, Request.get, Request.encode, Reader.bind_ok (Reader.getU8_putU8 _ _), if_pos rfl,
    Reader.bind_ok hclaim]
  rfl

theorem step_claimOf {store : Store} {key : Bytes} {username : String}
    (hlen : (claimOf key username).encode.length ≤ MAX_FRAME) (hfree : store.lookup username = none) :
    step Scheme.plain store (Request.register (claimOf key username)).encode =
      store.insert username (claimOf key username) := by
  have hlookup : store.lookup (claimOf key username).claim.username = none := hfree
  rw [step, serve, decode_register hlen]
  simp only [apply, verify_claimOf, hlookup]
  rfl

/-- Two names with a key of five mebibytes register, each in a request that fits a frame, and the directory can
not be listed any more. -/
theorem two_large_claims :
    ∃ key : Bytes, key.length = 5242880 ∧
      (∀ name ∈ ["a", "b"], (Request.register (claimOf key name)).encode.length ≤ MAX_FRAME) ∧
      ¬ Consistent Scheme.plain bare ∅
        ((["a", "b"].map fun name => (Request.register (claimOf key name)).encode).foldl (step Scheme.plain) ∅) := by
  obtain ⟨key, hkey⟩ : ∃ key : Bytes, key.length = 5242880 := ⟨List.replicate 5242880 1, List.length_replicate⟩
  have hlen {name : String} (hname : name ∈ ["a", "b"]) : (claimOf key name).encode.length = 10485789 := by
    have hone : ∀ name ∈ ["a", "b"], (utf8 name).length = 1 := by decide +kernel
    rw [length_claimOf, hkey, hone name hname]
  have ha : "a" ∈ ["a", "b"] := by decide
  have hb : "b" ∈ ["a", "b"] := by decide
  have hfits {name : String} (hname : name ∈ ["a", "b"]) : (claimOf key name).encode.length ≤ MAX_FRAME := by
    rw [hlen hname]
    decide
  refine ⟨key, hkey, fun name hname => ?_, fun h => ?_⟩
  · rw [Request.encode, List.length_append, putBytes_length, hlen hname]
    decide
  · obtain ⟨cs, hcs, -⟩ := h.listed _ (.refl _)
    have hsize := (fits_toList_iff.mp (fits_of_deliver hcs)).2
    have hfree : ((∅ : Store).insert "a" (claimOf key "a")).lookup "b" = none := by
      rw [Table.lookup_insert_eq, if_neg (by decide)]
      rfl
    rw [List.map_cons, List.map_cons, List.map_nil, List.foldl_cons, List.foldl_cons, List.foldl_nil,
      step_claimOf (hfits ha) rfl, step_claimOf (hfits hb) hfree, Table.total_insert,
      Table.erase_of_lookup_eq_none hfree, Table.total_insert, Table.erase_of_lookup_eq_none rfl, hlen ha, hlen hb] at hsize
    exact absurd hsize (by decide)

end Sample
end Core.Registry
end Talkrypt
