import Talkrypt.Core.Presence

/-!
# Saved names and identity chains (`NameBook` in `crates/core/src/presence.rs`)

The decoder of a name book refuses more than 4096 names and the decoder of a chain more than 16 links. `upsert` and
`extend` have no such limit. What they build is read back exactly if it is within the limits (`loads_iff`).
-/

namespace Talkrypt.Core
open TreeKem (Scheme)
open Account

/-! ## Readers that name what they miss -/

section
variable {α : Type} {e c : Prop}

theorem codec_named {what : String} {r : Reader CoreError α} {put : α → Bytes} {P F : α → Prop}
    (h : Codec e c r put P F) : Codec e c (named what r) put P F :=
  ⟨fun hP hF rest hrest => named_eq_ok.mpr (h.read hP hF rest hrest), fun hs => h.accepts (named_eq_ok.mp hs)⟩

theorem reads_getField (what : String) :
    Reads (NamePresence.getField what) putBytes (·.length ≤ MAX_FRAME) :=
  codec_named (r := Reader.getBytes) reads_bytes

def getString (what : String) : Reader CoreError String :=
  readChecked (NamePresence.getField what) fromUtf8 (.malformed (what ++ " utf-8"))

theorem reads_getString (what : String) :
    Reads (getString what) (fun s => putBytes (utf8 s)) (fun s => (utf8 s).length ≤ MAX_FRAME) :=
  (reads_getField what).checked fromUtf8_utf8 utf8_of_fromUtf8

theorem codec_getCrypto (what : String) {d : Bytes → Except CryptoError α} {put : α → Bytes} {F : α → Prop}
    (h : Decodes e d put F) :
    Codec e False (do let b ← NamePresence.getField what; liftM ((d b).mapError CoreError.crypto) : Reader CoreError α)
      (fun a => putBytes (put a)) Any (fun a => F a ∧ (put a).length ≤ MAX_FRAME) := by
  have hfield := codec_field (h.mapError (f := CoreError.crypto)) Reader.lift_iff
  refine ⟨fun hP hF rest hrest => ?_, fun hs => ?_⟩
  · obtain ⟨b, u, hb, hs⟩ := exists_of_bind (hfield.read hP hF rest hrest)
    rwa [NamePresence.getField, bind_apply (named_eq_ok.mpr hb)]
  · obtain ⟨b, u, hb, hs⟩ := exists_of_bind hs
    refine hfield.accepts ?_
    rwa [bind_apply (named_eq_ok.mp hb)]

end

/-! ## Chains and presences -/

structure Certification (S : Scheme) where
  signer : S.SigSeed
  subject : IdentityPublic
  label : String
  validFrom : UInt64
  expiry : UInt64

def buildChain {S : Scheme} (root : Certification S) (subs : List (Certification S)) : IdentityChain :=
  subs.foldl (fun c s => c.extend s.signer s.subject s.label s.validFrom s.expiry)
    (.device root.signer root.subject root.label root.validFrom root.expiry)

theorem buildChain_length {S : Scheme} (root : Certification S) (subs : List (Certification S)) :
    (buildChain root subs).links.length = subs.length + 1 := by
  induction subs using List.reverseRecOn with
  | nil => rfl
  | append_singleton subs s ih =>
    rw [buildChain, List.foldl_append, List.length_append]
    exact List.length_append.trans (congrArg (· + 1) ih)

theorem decodes_chain : Decodes True IdentityChain.decode IdentityChain.encode
    (fun c => c.links.length ≤ 16 ∧ ∀ link ∈ c.links, link.encode.length ≤ MAX_FRAME) :=
  ⟨fun h => IdentityChain.decode_eq_ok.mpr ⟨rfl, h⟩, fun h => by
    obtain ⟨rfl, hfits⟩ := IdentityChain.decode_eq_ok.mp h
    exact ⟨hfits, le_rfl, fun _ => rfl⟩⟩

theorem links_of_encode {c : IdentityChain} (h : c.encode.length ≤ MAX_FRAME) :
    ∀ link ∈ c.links, link.encode.length ≤ MAX_FRAME := fun link hlink => by
  have hle := length_le_putFields (List.mem_map_of_mem (f := SignedCert.encode) hlink)
  rw [IdentityChain.encode, List.length_append] at h
  omega

theorem Presentation.decodes : Decodes True Presentation.decode encode
    (fun p => p.chain.links.length ≤ 16 ∧ p.chain.encode.length ≤ MAX_FRAME ∧
      ∀ u, p.username = some u → (utf8 u).length ≤ MAX_FRAME) := by
  have husername : Reads getUsername (putOption fun u => putBytes (utf8 u))
      (fun o => ∀ u, o = some u → (utf8 u).length ≤ MAX_FRAME) :=
    codec_option reads_u8 reads_text (bind_eq_readChecked _ (fun _ h => by rw [h]) fun _ _ h => by rw [h])
  refine (Codec.finish ((Codec.seq₂ (π := chain) (codec_field decodes_chain Reader.lift_iff) fun chain _ =>
    .seq (π := username) husername fun username _ => .done fun p => ?_).conv (fun p _ => ?_) fun p _ => ?_)).decodes
  · cases p
    simp
  · rw [List.append_nil, encode]
    cases p.username <;> rfl
  · have := @links_of_encode p.chain
    tauto

theorem Presentation.parts {p : Presentation} (h : p.encode.length ≤ MAX_FRAME) : p.chain.encode.length ≤ MAX_FRAME ∧
    ∀ u, p.username = some u → (utf8 u).length ≤ MAX_FRAME := by
  rw [encode, List.length_append, putBytes_length] at h
  refine ⟨by omega, fun u hu => ?_⟩
  rw [hu] at h
  simp only [List.length_append, putBytes_length] at h
  omega

namespace NamePresence

def tag : NamePresence → UInt8
  | bare .. => 0
  | linked .. => 1

def body : NamePresence → Bytes
  | bare seq label => putWords seq ++ putBytes (utf8 label)
  | linked seq presentation context sig =>
    putWords seq ++ (putBytes presentation.encode ++ (putBytes context.1 ++ putBytes sig))

def Fits : NamePresence → Prop
  | bare _ label => (utf8 label).length ≤ MAX_FRAME
  | linked _ p _ sig => p.encode.length ≤ MAX_FRAME ∧ sig.length ≤ MAX_FRAME

/-- The chain of a linked presence has no more links than its decoder allows. -/
def Counted : NamePresence → Prop
  | bare .. => True
  | linked _ p _ _ => p.chain.links.length ≤ 16

theorem reads_getWords (what : String) : Reads (getWords what) putWords Any := by
  have heq {s : Bytes} {x : UInt64 × Bytes} : getWords what s = .ok x ↔ (do
      let hi ← Reader.getU32
      let lo ← Reader.getU32
      pure (UInt64.ofNat (hi * 2 ^ 32 + lo)) : Reader CoreError UInt64) s = .ok x := by
    simp only [getWords, bind, StateT.bind, Except.bind]
    cases hhi : (Reader.getU32 : Reader CoreError Nat) s with
    | error e => simp
    | ok hi =>
      dsimp only
      cases hlo : (Reader.getU32 : Reader CoreError Nat) hi.2 with
      | error e => simp
      | ok lo => exact Iff.rfl
  exact ⟨fun hP hF rest hrest => heq.mpr (Codec.read reads_words hP hF rest hrest),
    fun hs => Codec.accepts reads_words (heq.mp hs)⟩

theorem codec_bare : Codec True False getBare body (fun np => np.tag = 0) (fun np => np.Fits ∧ np.Counted) := by
  have h : Codec True False _ body (fun np => np.tag = 0) (fun np => np.Fits ∧ np.Counted) :=
    ((reads_getWords "u64").pair (reads_getString "bare label")).codec.image (f := fun x => bare x.1 x.2)
      (fun np => by cases np <;> simp [tag]) (fun _ => rfl) fun x => by simp [Fits, Counted]
  simp only [bind_assoc, pure_bind] at h
  rw [getBare, bind_congr fun _ => bind_eq_readChecked (f := fromUtf8) _ (fun _ h => by rw [h]) fun _ _ h => by rw [h]]
  exact h

def toContext (b : Bytes) : Option Gid := if h : b.length = 32 then some ⟨b, h⟩ else none

theorem toContext_eq {b : Bytes} {c : Gid} (h : toContext b = some c) : c.1 = b := by
  unfold toContext at h
  split at h
  · cases h
    rfl
  · cases h

theorem reads_context : Reads (readChecked (getField "linked context") toContext (.malformed "context len"))
    (fun c => putBytes c.1) (fun c => c.1.length ≤ MAX_FRAME) :=
  (reads_getField _).checked (fun c => dif_pos c.2) toContext_eq

theorem codec_linked : Codec True False getLinked body (fun np => np.tag = 1) (fun np => np.Fits ∧ np.Counted) := by
  have h : Codec True False _ body (fun np => np.tag = 1) (fun np => np.Fits ∧ np.Counted) :=
    ((reads_getWords "u64").pair ((codec_getCrypto "linked presentation" Presentation.decodes).pair
      (reads_context.pair (reads_getField "linked sig")))).codec.image
      (f := fun x => linked x.1 x.2.1 x.2.2.1 x.2.2.2) (fun np => by cases np <;> simp [tag]) (fun _ => rfl) fun x => by
        have hctx : x.2.2.1.1.length ≤ MAX_FRAME := x.2.2.1.2.trans_le (by decide)
        have hparts := @Presentation.parts x.2.1
        simp only [Fits, Counted, hctx]
        tauto
  simp only [bind_assoc, pure_bind] at h
  rw [getLinked, bind_congr fun _ => bind_congr fun _ => bind_congr fun _ => bind_eq_readChecked (f := toContext) _
    (fun ctx hctx => ?_) fun ctx c hctx => ?_]
  · exact h
  · unfold toContext at hctx
    split at hctx
    · cases hctx
    · next hlen => exact dif_neg hlen
  · obtain rfl := toContext_eq hctx
    exact dif_pos c.2

theorem finish_eq_ok {np : NamePresence} (x : Except CoreError (NamePresence × Bytes)) : (match x with
    | .error e => .error e
    | .ok (np, rest) => if rest = [] then .ok np else .error (.malformed "presence trailing") :
      Except CoreError NamePresence) = .ok np ↔ x = .ok (np, []) := by
  rcases x with e | ⟨np', rest⟩
  · simp
  · by_cases hrest : rest = [] <;> simp [hrest]

theorem decodes : Decodes True NamePresence.decode encode (fun np => np.Fits ∧ np.Counted) := by
  have h : Codec True False _ encode Any (fun np => np.Fits ∧ np.Counted) :=
    codec_variants (x := CoreError.malformed "presence variant") reads_u8 codec_bare codec_linked
      (fun np => by cases np <;> simp [tag]) fun np => by
        cases np <;> simp only [encode, body, tag, List.append_assoc]
  have heq {bytes : Bytes} {np : NamePresence} : decode bytes = .ok np ↔ (do
      let t ← Reader.getU8
      if t = 0 then getBare else if t = 1 then getLinked else throw (.malformed "presence variant") :
        Reader CoreError NamePresence) bytes = .ok (np, []) := by
    rw [decode]
    simp only [bind, StateT.bind, Except.bind]
    cases (Reader.getU8 : Reader CoreError UInt8) bytes with
    | error e => simp
    | ok p =>
      refine (finish_eq_ok _).trans ?_
      dsimp only
      split
      · rfl
      · split <;> rfl
  refine ⟨fun hF => ?_, fun hs => ?_⟩
  · exact heq.mpr (Reads.read_nil h hF)
  · obtain ⟨hs, hF⟩ := Reads.accepts h (heq.mp hs)
    rw [List.append_nil] at hs
    exact ⟨hF, by rw [hs], fun _ => hs⟩

end NamePresence

/-! ## The book -/

inductive NameBacking where
  | bare
  | account (chain : IdentityChain)
deriving DecidableEq

structure NameEntry where
  id : String
  label : String
  backing : NameBacking
deriving DecidableEq

structure NameBook where
  entries : List NameEntry
  default : Option String
deriving DecidableEq

namespace NameBacking

def encode : NameBacking → Bytes
  | bare => putU8 0
  | account chain => putU8 1 ++ putBytes chain.encode

def get : Reader CoreError NameBacking := do
  let tag ← named "backing tag" Reader.getU8
  if tag = 0 then pure bare
  else if tag = 1 then do
    let bytes ← NamePresence.getField "chain"
    let chain ← liftM ((IdentityChain.decode bytes).mapError CoreError.crypto)
    pure (account chain)
  else throw (.malformed "backing variant")

def Fits : NameBacking → Prop
  | bare => True
  | account chain => chain.encode.length ≤ MAX_FRAME

def Counted : NameBacking → Prop
  | bare => True
  | account chain => chain.links.length ≤ 16

def chain? : NameBacking → Option IdentityChain
  | bare => none
  | account chain => some chain

end NameBacking

namespace NameEntry

def encode (e : NameEntry) : Bytes := putBytes (utf8 e.id) ++ putBytes (utf8 e.label) ++ e.backing.encode

def get : Reader CoreError NameEntry := do
  let id ← getString "id"
  let label ← getString "label"
  let backing ← NameBacking.get
  pure { id, label, backing }

def Fits (e : NameEntry) : Prop :=
  (utf8 e.id).length ≤ MAX_FRAME ∧ (utf8 e.label).length ≤ MAX_FRAME ∧ e.backing.Fits

end NameEntry

namespace NameBook

/-- Insert an entry, in the place of the one with its id if there is one. -/
def upsert (b : NameBook) (entry : NameEntry) : NameBook :=
  match b.entries.findIdx? (·.id = entry.id) with
  | some i => { b with entries := b.entries.set i entry }
  | none => { b with entries := b.entries ++ [entry] }

def remove (b : NameBook) (id : String) : NameBook :=
  { entries := b.entries.filter (·.id ≠ id), default := if b.default = some id then none else b.default }

def encode (b : NameBook) : Bytes :=
  putU32 b.entries.length ++ b.entries.flatMap NameEntry.encode ++ match b.default with
    | none => putU8 0
    | some d => putU8 1 ++ putBytes (utf8 d)

def getDefault : Reader CoreError (Option String) := do
  let tag ← named "default tag" Reader.getU8
  if tag = 0 then pure none
  else if tag = 1 then do
    let d ← getString "default"
    pure (some d)
  else throw (.malformed "default variant")

def getEntries : Reader CoreError (List NameEntry) := do
  let n ← named "book len" Reader.getU32
  if n > 4096 then throw (.malformed "too many names") else readMany NameEntry.get n

def decode (bytes : Bytes) : Except CoreError NameBook :=
  Reader.parse (do
    let entries ← getEntries
    let default ← getDefault
    named "book trailing" Reader.finish
    pure { entries, default }) bytes

def Fits (b : NameBook) : Prop :=
  (∀ e ∈ b.entries, e.Fits) ∧ ∀ d, b.default = some d → (utf8 d).length ≤ MAX_FRAME

/-- Not more names than the decoder counts, and not more links in their chains. -/
def Counted (b : NameBook) : Prop := b.entries.length ≤ 4096 ∧ ∀ e ∈ b.entries, e.backing.Counted

end NameBook

theorem NameBacking.reads_get : Reads get encode (fun b => b.Fits ∧ b.Counted) := by
  have hchain : Codec True False _ (fun b : NameBacking => b.chain?.elim [] fun c => putBytes c.encode)
      (fun b => (if b.chain?.isSome then 1 else 0 : UInt8) = 1) (fun b => b.Fits ∧ b.Counted) :=
    (codec_getCrypto "chain" decodes_chain).image (f := account) (fun b => by cases b <;> simp [chain?]) (fun _ => rfl)
      fun c => by
        have := @links_of_encode c
        simp only [Fits, Counted]
        tauto
  rw [bind_assoc] at hchain
  refine codec_variants (codec_named reads_u8)
    ((Codec.done (a := bare) fun b => by cases b <;> simp [chain?]).conv (fun b hb => ?_) fun b hb => ?_) hchain
    (fun b => by cases b <;> simp [chain?]) fun b => by cases b <;> rfl
  all_goals
    cases b
    · simp [chain?, Fits, Counted]
    · simp [chain?] at hb

theorem NameEntry.reads_get : Reads get encode (fun e => e.Fits ∧ e.backing.Counted) := by
  refine (Codec.seq (π := id) (reads_getString "id") fun id _ => .seq (π := label) (reads_getString "label") fun label _ =>
    .seq (π := backing) NameBacking.reads_get fun backing _ => .done fun e => ?_).conv (fun e _ => ?_) fun e _ => ?_
  · cases e
    simp [and_assoc]
  · simp [encode]
  · simp [Fits, and_assoc]

namespace NameBook

theorem decodes : Decodes True NameBook.decode encode (fun b => b.Fits ∧ b.Counted) := by
  have hentries : Reads getEntries (putCounted NameEntry.encode) _ :=
    reads_capped (codec_named reads_u32) NameEntry.reads_get (fun _ => rfl) (by decide)
  have hdefault : Reads getDefault (putOption fun d => putBytes (utf8 d)) _ :=
    codec_option (codec_named reads_u8) (reads_getString "default") rfl
  refine ((Codec.seq (π := entries) hentries fun entries _ => .seq (π := default) hdefault fun default _ =>
    .last (named_eq_ok.trans Reader.finish_eq_ok) fun b => ?_).conv (fun b _ => ?_) fun b _ => ?_).decodes
  · cases b
    simp
  · rw [encode, putCounted, List.append_nil]
    cases b.default <;> rfl
  · simp only [Fits, Counted, and_true, forall_and]
    tauto

inductive Call where
  | upsert (entry : NameEntry)
  | remove (id : String)

/-- The book after these calls, `default` leading at their start. -/
def build (default : Option String) (calls : List Call) : NameBook :=
  calls.foldl (fun b call => match call with
    | .upsert entry => b.upsert entry
    | .remove id => b.remove id) ⟨[], default⟩

end NameBook

/-- What is built of names, chains and presences is loaded again exactly if it is within the counts of the decoders:
4096 names in a book, and a chain that was not extended more than 15 times. -/
theorem loads_iff (S : Scheme) :
    (∀ default calls, let book := NameBook.build default calls
      book.Fits → (NameBook.decode book.encode = .ok book ↔ book.Counted)) ∧
    ∀ (root : Certification S) (subs : List (Certification S)), let chain := buildChain root subs
      (∀ link ∈ chain.links, link.encode.length ≤ MAX_FRAME) →
        (IdentityChain.decode chain.encode = .ok chain ↔ subs.length ≤ 15) ∧
        ∀ seq username context sig, let presence := NamePresence.linked seq ⟨chain, username⟩ context sig
          presence.Fits → (NamePresence.decode presence.encode = .ok presence ↔ subs.length ≤ 15) := by
  refine ⟨fun default calls hbook => NameBook.decodes.read_iff.trans (and_iff_right hbook), fun root subs hlinks => ?_⟩
  have hlen : (buildChain root subs).links.length ≤ 16 ↔ subs.length ≤ 15 := by
    rw [buildChain_length]
    omega
  exact ⟨decodes_chain.read_iff.trans ((and_iff_left hlinks).trans hlen),
    fun seq username context sig hfits => NamePresence.decodes.read_iff.trans ((and_iff_right hfits).trans hlen)⟩

namespace Sample

def again : Certification Scheme.plain := ⟨(1 : UInt8), ⟨[1]⟩, "", 0, 0⟩

def deepChain : IdentityChain := buildChain again (List.replicate 16 again)

/-- Sixteen extensions, and the chain cannot be loaded: not alone, not in a book and not in a presence. -/
theorem deep_chain_lost :
    IdentityChain.decode deepChain.encode = .error (.malformed "identity chain too long") ∧
    NameBook.decode (NameBook.build none [.upsert ⟨"1", "fox", .account deepChain⟩]).encode =
      .error (.crypto (.malformed "identity chain too long")) ∧
    NamePresence.decode (NamePresence.linked 1 ⟨deepChain, none⟩ ⟨List.replicate 32 0, rfl⟩ []).encode =
      .error (.crypto (.malformed "identity chain too long")) := by
  decide +kernel

/-- A book after a rename. -/
theorem renamed_book_loads :
    let book := NameBook.build (some "1") [.upsert ⟨"1", "fox", .bare⟩, .upsert ⟨"1", "owl", .bare⟩]
    NameBook.decode book.encode = .ok book := by
  intro book
  have hentries : ∀ e ∈ book.entries, e = ⟨"1", "owl", .bare⟩ := by decide +kernel
  refine ((loads_iff Scheme.plain).1 _ _ ⟨fun e he => ?_, by decide +kernel⟩).mpr ⟨by decide +kernel, fun e he => ?_⟩
  · obtain rfl := hentries e he
    exact ⟨by decide +kernel, by decide +kernel, trivial⟩
  · obtain rfl := hentries e he
    exact trivial

end Sample
end Talkrypt.Core
