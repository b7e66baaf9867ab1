import Talkrypt.Lib.Bytes
import Talkrypt.Lib.Codec

/-!
# The length-prefixed wire codec (`crates/wire`)

A `Writer` only ever appends, so its operations are the byte strings they append. A `Reader` is a
state monad over the unread tail of the input. Readers are generic in the error type, as `?`
converts a `WireError` into the error type of the decoder that calls them (`FromWire`).
-/

namespace Talkrypt

/-- Largest single length-prefixed field that is ever read (16 MiB). -/
def MAX_FRAME : Nat := 16 * 1024 * 1024

inductive WireError where
  | unexpectedEof (needed had : Nat)
  | frameTooLarge (len max : Nat)
  | trailingBytes (n : Nat)
deriving Repr, DecidableEq

class FromWire (ε : Type) where
  ofWire : WireError → ε

instance : FromWire WireError := ⟨id⟩

instance : FromWire Unit := ⟨fun _ => ()⟩

/-! ## Writer -/

def putU8 (v : UInt8) : Bytes := [v]

def putU32 (v : Nat) : Bytes := beBytes 4 v

def putU64 (v : Nat) : Bytes := beBytes 8 v

def putBytes (bytes : Bytes) : Bytes := putU32 bytes.length ++ bytes

theorem putBytes_length (b : Bytes) : (putBytes b).length = 4 + b.length := by
  simp [putBytes, putU32]

/-! ## Reader -/

abbrev Reader (ε : Type) := StateT Bytes (Except ε)

namespace Reader
variable {ε α β : Type} [FromWire ε]

def take (n : Nat) : Reader ε Bytes := fun buf =>
  if buf.length < n then .error (FromWire.ofWire (.unexpectedEof n buf.length))
  else .ok (buf.take n, buf.drop n)

def getU8 : Reader ε UInt8 := do
  let b ← take 1
  pure (b.headD 0)

def getU32 : Reader ε Nat := do
  let b ← take 4
  pure (beNat b)

def getU64 : Reader ε Nat := do
  let b ← take 8
  pure (beNat b)

/-- Read a `u32`-length-prefixed byte field, enforcing `MAX_FRAME`. -/
def getBytes : Reader ε Bytes := do
  let len ← getU32
  if len > MAX_FRAME then throw (FromWire.ofWire (.frameTooLarge len MAX_FRAME))
  take len

def remaining : Reader ε Nat := fun buf => .ok (buf.length, buf)

def finish : Reader ε Unit := fun buf =>
  if buf.length ≠ 0 then .error (FromWire.ofWire (.trailingBytes buf.length)) else .ok ((), buf)

def parse (r : Reader ε α) (bytes : Bytes) : Except ε α := (r bytes).map (·.1)

omit [FromWire ε] in
theorem bind_ok {r : Reader ε α} {f : α → Reader ε β} {s s' : Bytes} {a : α}
    (h : r s = .ok (a, s')) : (r >>= f) s = f a s' := by
  simp only [bind, StateT.bind, h, Except.bind]

omit [FromWire ε] in
theorem bind_error {r : Reader ε α} {f : α → Reader ε β} {s : Bytes} {e : ε}
    (h : r s = .error e) : (r >>= f) s = .error e := by
  simp only [bind, StateT.bind, h, Except.bind]

omit [FromWire ε] in
@[simp] theorem pure_apply (a : α) (s : Bytes) : (pure a : Reader ε α) s = .ok (a, s) := rfl

omit [FromWire ε] in
omit [FromWire ε] in
theorem bind_eq_ok {r : Reader ε α} {f : α → Reader ε β} {s s' : Bytes} {b : β} :
    (r >>= f) s = .ok (b, s') ↔ ∃ a t, r s = .ok (a, t) ∧ f a t = .ok (b, s') := by
  cases h : r s with
  | error e => simp [bind_error h]
  | ok p =>
    obtain ⟨a, t⟩ := p
    simp [bind_ok h]

omit [FromWire ε] in
theorem lift_eq_ok {x : Except ε α} {s s' : Bytes} {a : α}
    (h : (liftM x : Reader ε α) s = .ok (a, s')) : x = .ok a := by
  cases x with
  | error e => cases h
  | ok b =>
    cases h
    rfl

omit [FromWire ε] in
theorem lift_rest {x : Except ε α} {s s' : Bytes} {a : α} (h : (liftM x : Reader ε α) s = .ok (a, s')) : s' = s := by
  cases x with
  | error e => cases h
  | ok b =>
    cases h
    rfl

theorem take_append (b rest : Bytes) : (take b.length : Reader ε Bytes) (b ++ rest) = .ok (b, rest) := by
  simp [take]

@[simp] theorem getU8_putU8 (v : UInt8) (rest : Bytes) :
    (getU8 : Reader ε UInt8) (putU8 v ++ rest) = .ok (v, rest) := by
  have ht := take_append (ε := ε) (putU8 v) rest
  rw [show (putU8 v).length = 1 from rfl] at ht
  rw [getU8, bind_ok ht]
  rfl

theorem getU32_putU32 {v : Nat} (h : v < 2 ^ 32) (rest : Bytes) :
    (getU32 : Reader ε Nat) (putU32 v ++ rest) = .ok (v, rest) := by
  have ht := take_append (ε := ε) (putU32 v) rest
  rw [show (putU32 v).length = 4 from beBytes_length 4 v] at ht
  rw [getU32, bind_ok ht, putU32, beNat_beBytes_of_lt (by omega)]
  rfl

theorem getBytes_putBytes {b : Bytes} (h : b.length ≤ MAX_FRAME) (rest : Bytes) :
    (getBytes : Reader ε Bytes) (putBytes b ++ rest) = .ok (b, rest) := by
  have hlt : b.length < 2 ^ 32 := by unfold MAX_FRAME at h; omega
  rw [getBytes, putBytes, List.append_assoc, bind_ok (getU32_putU32 hlt _), if_neg (by omega)]
  exact take_append b rest

theorem getBytes_putBytes_of_gt {b : Bytes} (h : MAX_FRAME < b.length) (hlt : b.length < 2 ^ 32)
    (rest : Bytes) : (getBytes : Reader ε Bytes) (putBytes b ++ rest) =
      .error (FromWire.ofWire (.frameTooLarge b.length MAX_FRAME)) := by
  rw [getBytes, putBytes, List.append_assoc, bind_ok (getU32_putU32 hlt _), if_pos h]
  rfl

theorem take_eq_ok {n : Nat} {s b t : Bytes} (h : (take n : Reader ε Bytes) s = .ok (b, t)) :
    s = b ++ t ∧ b.length = n := by
  unfold take at h
  split at h
  · cases h
  · cases h
    exact ⟨(List.take_append_drop n s).symm, List.length_take_of_le (by omega)⟩

theorem getU8_eq_ok {v : UInt8} {s t : Bytes} (h : (getU8 : Reader ε UInt8) s = .ok (v, t)) :
    s = putU8 v ++ t := by
  obtain ⟨b, u, hb, hpure⟩ := bind_eq_ok.mp h
  cases hpure
  obtain ⟨rfl, hlen⟩ := take_eq_ok hb
  obtain ⟨x, rfl⟩ := List.length_eq_one_iff.mp hlen
  rfl

theorem getU32_eq_ok {v : Nat} {s t : Bytes} (h : (getU32 : Reader ε Nat) s = .ok (v, t)) :
    s = putU32 v ++ t ∧ v < 2 ^ 32 := by
  obtain ⟨b, u, hb, hpure⟩ := bind_eq_ok.mp h
  cases hpure
  obtain ⟨rfl, hlen⟩ := take_eq_ok hb
  have hlt := beNat_lt b
  rw [hlen] at hlt
  exact ⟨by rw [putU32, ← hlen, beBytes_beNat], by omega⟩

theorem getBytes_eq_ok {s b t : Bytes} (h : (getBytes : Reader ε Bytes) s = .ok (b, t)) :
    s = putBytes b ++ t ∧ b.length ≤ MAX_FRAME := by
  obtain ⟨len, u, hlen, hbody⟩ := bind_eq_ok.mp h
  obtain ⟨rfl, -⟩ := getU32_eq_ok hlen
  split at hbody
  · cases hbody
  · next hmax =>
    obtain ⟨rfl, hb⟩ := take_eq_ok hbody
    exact ⟨by rw [putBytes, hb, List.append_assoc], by omega⟩

@[simp] theorem finish_nil : (finish : Reader ε Unit) [] = .ok ((), []) := rfl

theorem finish_eq_ok {s s' : Bytes} : (finish : Reader ε Unit) s = .ok ((), s') ↔ s = [] ∧ s' = [] := by
  cases s with
  | nil => simp [eq_comm]
  | cons x s => simp [finish]

theorem parse_finish_eq_ok {r : Reader ε α} {bytes : Bytes} {a : α} :
    parse (do let a ← r; finish; pure a) bytes = .ok a ↔ r bytes = .ok (a, []) := by
  constructor
  · intro h
    cases hr : r bytes with
    | error e =>
      rw [parse, bind_error hr] at h
      cases h
    | ok p =>
      obtain ⟨a', t⟩ := p
      rw [parse, bind_ok hr] at h
      cases t with
      | nil =>
        cases h
        rfl
      | cons x t => cases h
  · intro h
    rw [parse, bind_ok h]
    rfl

end Reader

/-! ## Codecs of the fields -/

theorem Codec.decodes {ε α : Type} {e : Prop} {r : Reader ε α} {put : α → Bytes} {F : α → Prop}
    (h : Codec e True r put Any F) : Decodes e (Reader.parse r) put F where
  read ha := by
    have hread := h.read trivial ha [] fun _ => rfl
    rw [List.append_nil] at hread
    rw [Reader.parse, hread]
    rfl
  accepts {a s} hs := by
    cases hr : r s with
    | error x =>
      rw [Reader.parse, hr] at hs
      cases hs
    | ok p =>
      rw [Reader.parse, hr] at hs
      cases hs
      obtain ⟨-, hF, hlen, hexact, hend⟩ := h.accepts hr
      obtain ⟨a, t⟩ := p
      obtain rfl := hend trivial
      exact ⟨hF, hlen, fun he => by rw [hexact he, List.append_nil]⟩

section
variable {ε α : Type} [FromWire ε] {e : Prop}

theorem reads_u8 : Reads (Reader.getU8 : Reader ε UInt8) putU8 Any :=
  .intro (fun _ rest => Reader.getU8_putU8 _ rest) fun h => ⟨Reader.getU8_eq_ok h, trivial⟩

theorem reads_u32 : Reads (Reader.getU32 : Reader ε Nat) putU32 (· < 2 ^ 32) :=
  .intro (fun h rest => Reader.getU32_putU32 h rest) fun h => Reader.getU32_eq_ok h

theorem reads_bytes : Reads (Reader.getBytes : Reader ε Bytes) putBytes (·.length ≤ MAX_FRAME) :=
  .intro (fun h rest => Reader.getBytes_putBytes h rest) fun h => Reader.getBytes_eq_ok h

theorem reads_text {x : ε} :
    Reads (readChecked Reader.getBytes fromUtf8 x) (fun s => putBytes (utf8 s)) (fun s => (utf8 s).length ≤ MAX_FRAME) :=
  reads_bytes.checked fromUtf8_utf8 utf8_of_fromUtf8

theorem reads_tag {tag : α → UInt8} {dec : UInt8 → Except ε α} (h : ∀ {t a}, dec t = .ok a ↔ t = tag a) :
    Reads (do let t ← Reader.getU8; liftM (dec t) : Reader ε α) (fun a => putU8 (tag a)) Any := by
  refine .intro (fun {a} _ rest => ?_) fun hs => ?_
  · rw [bind_apply (Reader.getU8_putU8 _ rest), h.mpr rfl]
    rfl
  · obtain ⟨t, u, ht, hs⟩ := exists_of_bind hs
    rw [Reader.lift_rest hs, ← h.mp (Reader.lift_eq_ok hs)]
    exact ⟨Reader.getU8_eq_ok ht, trivial⟩

def putOption (put : α → Bytes) : Option α → Bytes
  | none => putU8 0
  | some a => putU8 1 ++ put a

omit [FromWire ε] in
theorem codec_variants {flag : Reader ε UInt8} {r₀ r₁ : Reader ε α} {put w : α → Bytes} {τ : α → UInt8}
    {F : α → Prop} {x : ε} (hflag : Reads flag putU8 Any) (h₀ : Codec e False r₀ w (fun a => τ a = 0) F)
    (h₁ : Codec e False r₁ w (fun a => τ a = 1) F) (htag : ∀ a, τ a = 0 ∨ τ a = 1)
    (hput : ∀ a, put a = putU8 (τ a) ++ w a) :
    Codec e False (do let t ← flag; if t = 0 then r₀ else if t = 1 then r₁ else throw x) put Any F := by
  suffices ∀ t, Codec e False _ w (fun a => True ∧ τ a = t) F from
    (hflag.codec.seq (π := τ) fun t _ => this t).conv (fun a _ => (hput a).symm) fun a _ => true_and _ ▸ Iff.rfl
  intro t
  simp only [true_and]
  refine .ite (fun ht => ht ▸ h₀) fun hne => .ite (fun ht => ht ▸ h₁) fun hne' => .fail fun a ha => ?_
  rcases htag a with h | h
  · exact absurd (ha.symm.trans h) hne
  · exact absurd (ha.symm.trans h) hne'

omit [FromWire ε] in
theorem codec_option {flag : Reader ε UInt8} {r : Reader ε α} {r' : Reader ε (Option α)} {put : α → Bytes}
    {F : α → Prop} {x : ε} (hflag : Reads flag putU8 Any) (h : Codec e False r put Any F)
    (hr : r' = r >>= fun a => pure (some a)) :
    Codec e False (do let t ← flag; if t = 0 then pure none else if t = 1 then r' else throw x)
      (putOption put) Any (fun o => ∀ a, o = some a → F a) := by
  subst hr
  refine codec_variants (τ := fun o => if o.isSome then 1 else 0) (w := fun o => o.elim [] put) hflag
    ((Codec.done (a := none) fun o => by cases o <;> simp).conv (fun o ho => ?_) fun o ho => ?_)
    (h.image (f := some) (fun o => by cases o <;> simp) (fun _ => rfl) fun a => by simp)
    (fun o => by cases o <;> simp) fun o => by cases o <;> rfl
  all_goals cases o <;> simp at ho ⊢

def putCounted (put : α → Bytes) (as : List α) : Bytes := putU32 as.length ++ as.flatMap put

omit [FromWire ε] in
theorem reads_capped {cap : Nat} {count : Reader ε Nat} {r : Reader ε α} {put : α → Bytes} {F : α → Prop} {x : ε}
    {q : Nat → Reader ε (List α)} (hcount : Reads count putU32 (· < 2 ^ 32)) (h : Reads r put F)
    (hq : ∀ n, q n = readMany r n) (hcap : cap < 2 ^ 32) :
    Reads (do let n ← count; if n > cap then throw x else q n) (putCounted put)
      (fun as => as.length ≤ cap ∧ ∀ a ∈ as, F a) :=
  Codec.counted 0 h (fun _ _ => Nat.zero_le _) (fun hn _ => hcount.read (hn.trans_lt hcap) _)
    (fun hs => (hcount.accepts hs).1) (fun hn => (if_neg hn.not_gt).trans (hq _)) fun {n s t u as} _ hs => by
    by_contra hn
    rw [if_pos (Nat.not_le.mp hn)] at hs
    cases hs

theorem Codec.finish {r : Reader ε α} {put : α → Bytes} {F : α → Prop} (h : Codec e False r put Any F) :
    Codec e True (do let a ← r; Reader.finish; pure a) put Any F :=
  (h.seq (π := id) fun _ _ => .last Reader.finish_eq_ok fun b => by simp).conv (fun _ _ => List.append_nil _)
    fun _ _ => and_true _ ▸ Iff.rfl

theorem decodes_pair : Decodes True
    (Reader.parse (do let a ← Reader.getBytes; let b ← Reader.getBytes; Reader.finish; pure (a, b)) :
      Bytes → Except ε (Bytes × Bytes))
    (fun p => putBytes p.1 ++ putBytes p.2) (fun p => p.1.length ≤ MAX_FRAME ∧ p.2.length ≤ MAX_FRAME) :=
  ((reads_bytes.seq (π := Prod.fst) fun a _ => Codec.seq (π := Prod.snd) reads_bytes fun b _ =>
    .last Reader.finish_eq_ok fun p => by rw [true_and, ← Prod.ext_iff (y := (a, b))]).conv
    (fun p _ => by rw [List.append_nil]) fun p _ => by rw [and_true]).decodes

theorem codec_field {q : Bytes → Reader ε α} {d : Bytes → Except ε α} {put : α → Bytes} {F : α → Prop}
    (h : Decodes e d put F) (hq : ∀ {a b s t}, q b s = .ok (a, t) ↔ d b = .ok a ∧ t = s) :
    Codec e False (Reader.getBytes >>= q) (fun a => putBytes (put a)) Any
      (fun a => F a ∧ (put a).length ≤ MAX_FRAME) where
  read _ ha rest _ := by
    rw [bind_apply (Reader.getBytes_putBytes ha.2 rest), hq.mpr ⟨h.read ha.1, rfl⟩]
  accepts hs := by
    obtain ⟨b, u, hb, hs⟩ := exists_of_bind hs
    obtain ⟨hd, rfl⟩ := hq.mp hs
    obtain ⟨hF, hle, hexact⟩ := h.accepts hd
    obtain ⟨rfl, hmax⟩ := Reader.getBytes_eq_ok hb
    refine ⟨trivial, ⟨hF, hle.trans hmax⟩, ?_, fun he => by rw [hexact he], nofun⟩
    simp only [List.length_append, putBytes_length]
    omega

omit [FromWire ε] in
theorem Reader.lift_iff {x : Except ε α} {s t : Bytes} {a : α} :
    (liftM x : Reader ε α) s = .ok (a, t) ↔ x = .ok a ∧ t = s :=
  ⟨fun h => ⟨lift_eq_ok h, lift_rest h⟩, fun ⟨h, hs⟩ => by rw [h, hs]; rfl⟩

end

/-! ## Length buckets -/

def USIZE_LIMIT : Nat := 2 ^ 64

/-- The next multiple of the bucket size, which is clamped to a frame. -/
def paddedLen (raw step : Nat) : Nat :=
  let step := min (max step 1) MAX_FRAME
  if raw + (step - 1) < USIZE_LIMIT then (raw + (step - 1)) / step * step else raw

def padToBucket (payload : Bytes) (step : Nat) : Bytes :=
  let raw := 4 + payload.length
  let total := max (paddedLen raw step) raw
  beBytes 4 payload.length ++ payload ++ List.replicate (total - raw) 0

def unpadBucket (padded : Bytes) : Option Bytes :=
  if padded.length < 4 then none
  else
    let real := beNat (padded.take 4)
    if real > MAX_FRAME ∨ 4 + real > padded.length then none else some ((padded.drop 4).take real)

theorem unpadBucket_padToBucket {payload : Bytes} (h : payload.length ≤ MAX_FRAME) (step : Nat) :
    unpadBucket (padToBucket payload step) = some payload := by
  have hmax : MAX_FRAME < 256 ^ 4 := by decide
  have htake : (padToBucket payload step).take 4 = beBytes 4 payload.length := by
    simp [padToBucket]
  have hdrop : (padToBucket payload step).drop 4 = payload ++ List.replicate
      (max (paddedLen (4 + payload.length) step) (4 + payload.length) - (4 + payload.length)) 0 := by
    simp [padToBucket]
  have hlen : 4 + payload.length ≤ (padToBucket payload step).length := by
    simp [padToBucket]
  rw [unpadBucket, if_neg (by omega)]
  dsimp only
  rw [htake, beNat_beBytes_of_lt (by omega), if_neg (by omega), hdrop, List.take_left]

theorem length_le_padToBucket (payload : Bytes) (step : Nat) :
    payload.length ≤ (padToBucket payload step).length := by
  simp only [padToBucket, List.length_append]
  omega

/-! ## Records of length-prefixed fields -/

def putFields (fs : List Bytes) : Bytes := fs.flatMap putBytes

@[simp] theorem putFields_nil : putFields [] = [] := rfl

@[simp] theorem putFields_cons (f : Bytes) (fs : List Bytes) :
    putFields (f :: fs) = putBytes f ++ putFields fs := rfl

theorem length_le_putFields {f : Bytes} {fs : List Bytes} (h : f ∈ fs) :
    f.length + 4 ≤ (putFields fs).length := by
  induction fs with
  | nil => cases h
  | cons f' fs ih =>
    rw [putFields_cons, List.length_append, putBytes_length]
    rcases List.mem_cons.mp h with rfl | h
    · omega
    · have := ih h
      omega

theorem putU32_inj {a b : Nat} (ha : a < 2 ^ 32) (hb : b < 2 ^ 32) (h : putU32 a = putU32 b) : a = b := by
  rw [← beNat_beBytes_of_lt (w := 4) (n := a) (by omega), ← putU32, h, putU32, beNat_beBytes_of_lt (by omega)]

theorem putBytes_append_inj {f f' rest rest' : Bytes} (h : f.length < 2 ^ 32) (h' : f'.length < 2 ^ 32)
    (heq : putBytes f ++ rest = putBytes f' ++ rest') : f = f' ∧ rest = rest' := by
  simp only [putBytes, List.append_assoc] at heq
  obtain ⟨hlen, heq⟩ := List.append_inj heq (by simp [putU32])
  exact List.append_inj heq (putU32_inj h h' hlen)

theorem putFields_inj {fs fs' : List Bytes} (hlen : (putFields fs).length < 2 ^ 32)
    (h : putFields fs = putFields fs') : fs = fs' := by
  induction fs generalizing fs' with
  | nil =>
    cases fs' with
    | nil => rfl
    | cons f' fs' =>
      have := congrArg List.length h
      simp only [putFields_nil, putFields_cons, List.length_nil, List.length_append,
        putBytes_length] at this
      omega
  | cons f fs ih =>
    cases fs' with
    | nil =>
      have := congrArg List.length h
      simp only [putFields_nil, putFields_cons, List.length_nil, List.length_append,
        putBytes_length] at this
      omega
    | cons f' fs' =>
      have hf := length_le_putFields (List.mem_cons_self : f ∈ f :: fs)
      have hf' := length_le_putFields (List.mem_cons_self : f' ∈ f' :: fs')
      rw [← h] at hf'
      obtain ⟨rfl, hrest⟩ := putBytes_append_inj (by omega) (by omega) h
      rw [putFields_cons, List.length_append] at hlen
      rw [ih (by omega) hrest]

end Talkrypt
