import Talkrypt.Core.Frames
import Talkrypt.Core.Invite

/-!
# Invites are read back as they are written (`descriptor.rs`, `b32.rs`)

Whatever the decoder of descriptors accepts, `to_uri` writes in a form that `from_uri` reads to the same descriptor,
in each of the seven layouts. The version is read from four bytes and cut to sixteen bits before it is compared, so
that the version on the wire is a known one exactly if it fits sixteen bits (`Invite.stable_iff`).
-/

namespace Talkrypt.Core

/-! ## Base32 -/

namespace B32

def ALPHABET : List Char := "abcdefghijklmnopqrstuvwxyz234567".toList

/-- The letter of the low five bits, which are an index into the alphabet. -/
def letter (idx : UInt32) : Char := ALPHABET.getD (idx &&& 0x1f).toNat 'a'

/-- The letters of the full groups of five among the low `bits` of the buffer, and how many bits are left. -/
def emit (buffer : UInt32) : Nat → List Char × Nat
  | bits + 5 => ((emit buffer bits).1.cons (letter (buffer >>> UInt32.ofNat bits)), (emit buffer bits).2)
  | bits => ([], bits)

structure Letters where
  out : List Char := []
  buffer : UInt32 := 0
  bits : Nat := 0

def Letters.push (s : Letters) (b : UInt8) : Letters :=
  let buffer := (s.buffer <<< 8) ||| b.toUInt32
  let (letters, bits) := emit buffer (s.bits + 8)
  { out := s.out ++ letters, buffer, bits }

def encode (data : Bytes) : List Char :=
  let s := data.foldl Letters.push {}
  if 0 < s.bits then s.out ++ [letter (s.buffer <<< UInt32.ofNat (5 - s.bits))] else s.out

/-! ### Groups of bits as digits -/

/-- The number that a string of letters writes in base 32. -/
def number (s : List Char) : Nat := s.foldl (fun acc c => acc * 32 + (value c).elim 0 UInt32.toNat) 0

theorem number_concat (s : List Char) (c : Char) : number (s ++ [c]) = number s * 32 + (value c).elim 0 UInt32.toNat := by
  rw [number, List.foldl_append]
  rfl

theorem beNat_concat (data : Bytes) (b : UInt8) : beNat (data ++ [b]) = beNat data * 2 ^ 8 + b.toNat := by
  rw [beNat, List.foldl_append]
  rfl

theorem shift_in (buffer : UInt32) {x : UInt32} {n w : Nat} (hx : x.toNat < 2 ^ w) (hw : n + w ≤ 32) (hlt : w < 32) :
    ((buffer <<< UInt32.ofNat w) ||| x).toNat % 2 ^ (n + w) = buffer.toNat % 2 ^ n * 2 ^ w + x.toNat := by
  have hshift : (buffer <<< UInt32.ofNat w).toNat = 2 ^ w * (buffer.toNat % 2 ^ (32 - w)) := by
    have hsplit : 2 ^ 32 = 2 ^ (32 - w) * 2 ^ w := by rw [← pow_add, Nat.sub_add_cancel hlt.le]
    rw [UInt32.toNat_shiftLeft, UInt32.toNat_ofNat_of_lt' (hlt.trans (by decide)), Nat.mod_eq_of_lt hlt,
      Nat.shiftLeft_eq, hsplit, Nat.mul_mod_mul_right, Nat.mul_comm]
  have hlow : 2 ^ w * (buffer.toNat % 2 ^ (32 - w)) % 2 ^ (n + w) = buffer.toNat % 2 ^ n * 2 ^ w := by
    rw [Nat.mul_comm, pow_add, Nat.mul_mod_mul_right, Nat.mod_mod_of_dvd _ (Nat.pow_dvd_pow 2 (by omega))]
  rw [UInt32.toNat_or, hshift, ← Nat.two_pow_add_eq_or_of_lt hx, Nat.add_mod, hlow,
    Nat.mod_eq_of_lt (a := x.toNat) (hx.trans_le (Nat.pow_le_pow_right (by decide) (by omega)))]
  refine Nat.mod_eq_of_lt ?_
  have hmod := Nat.mod_lt buffer.toNat (Nat.two_pow_pos n)
  rw [pow_add]
  nlinarith

theorem toNat_shiftRight {buffer k : UInt32} (hk : k.toNat < 32) :
    (buffer >>> k).toNat = buffer.toNat / 2 ^ k.toNat := by
  rw [UInt32.toNat_shiftRight, Nat.mod_eq_of_lt hk, Nat.shiftRight_eq_div_pow]

theorem split_digit (a b k w : Nat) :
    a * 2 ^ (k + w) + b % 2 ^ (k + w) = (a * 2 ^ w + b / 2 ^ k % 2 ^ w) * 2 ^ k + b % 2 ^ k := by
  rw [pow_add, Nat.mod_mul]
  ring

theorem value_letter (idx : UInt32) : value (letter idx) = some (idx &&& 0x1f) := by
  have h : ∀ i < 32, value (ALPHABET.getD i 'a') = some (UInt32.ofNat i) := by decide +kernel
  have hlt : (idx &&& 0x1f).toNat < 32 := by
    rw [UInt32.toNat_and]
    exact Nat.and_lt_two_pow _ (by decide : 31 < 2 ^ 5)
  rw [letter, h _ hlt, UInt32.ofNat_toNat]

theorem number_letter (s : List Char) (idx : UInt32) : number (s ++ [letter idx]) = number s * 2 ^ 5 + idx.toNat % 2 ^ 5 := by
  rw [number_concat, value_letter, Option.elim_some, UInt32.toNat_and]
  exact congrArg _ (Nat.and_two_pow_sub_one_eq_mod _ 5)

/-! ### The encoder -/

theorem emit_number {buffer : UInt32} {bits : Nat} (h : bits ≤ 32) (out : List Char) :
    number (out ++ (emit buffer bits).1) * 2 ^ (emit buffer bits).2 + buffer.toNat % 2 ^ (emit buffer bits).2 =
      number out * 2 ^ bits + buffer.toNat % 2 ^ bits := by
  fun_induction emit buffer bits generalizing out with
  | case1 bits ih =>
    have hbits : (UInt32.ofNat bits).toNat = bits := UInt32.toNat_ofNat_of_lt' (show bits < 2 ^ 32 by omega)
    dsimp only
    rw [List.append_cons, ih (by omega), number_letter, toNat_shiftRight (by omega), hbits, ← split_digit]
  | case2 bits hbits => rw [List.append_nil]

theorem emit_length (buffer : UInt32) (bits : Nat) :
    5 * (emit buffer bits).1.length + (emit buffer bits).2 = bits ∧ (emit buffer bits).2 < 5 := by
  fun_induction emit buffer bits with
  | case1 bits ih =>
    rw [List.length_cons]
    omega
  | case2 bits hbits =>
    refine ⟨Nat.zero_add bits, ?_⟩
    by_contra hge
    exact hbits (bits - 5) (by omega)

theorem mem_emit (buffer : UInt32) (bits : Nat) : ∀ c ∈ (emit buffer bits).1, ∃ idx, letter idx = c := by
  fun_induction emit buffer bits with
  | case1 bits ih => exact List.forall_mem_cons.mpr ⟨⟨_, rfl⟩, ih⟩
  | case2 bits hbits => exact nofun

/-- The letters and the bits left are the data written in another base. -/
structure Letters.Inv (data : Bytes) (s : Letters) : Prop where
  letters : ∀ c ∈ s.out, ∃ idx, letter idx = c
  number : beNat data = number s.out * 2 ^ s.bits + s.buffer.toNat % 2 ^ s.bits
  length : 8 * data.length = 5 * s.out.length + s.bits
  bits_lt : s.bits < 5

theorem Letters.Inv.concat {data : Bytes} {s : Letters} (h : s.Inv data) (b : UInt8) : (s.push b).Inv (data ++ [b]) where
  letters := List.forall_mem_append.mpr ⟨h.letters, mem_emit _ (s.bits + 8)⟩
  number := by
    have hbits := h.bits_lt
    have hin := shift_in s.buffer (n := s.bits) (x := b.toUInt32) b.toNat_lt (by omega) (by decide)
    calc beNat (data ++ [b])
      _ = (B32.number s.out * 2 ^ s.bits + s.buffer.toNat % 2 ^ s.bits) * 2 ^ 8 + b.toNat := by rw [beNat_concat, h.number]
      _ = B32.number s.out * 2 ^ (s.bits + 8) + (s.buffer.toNat % 2 ^ s.bits * 2 ^ 8 + b.toNat) := by ring
      _ = B32.number s.out * 2 ^ (s.bits + 8) + _ % 2 ^ (s.bits + 8) := congrArg _ hin.symm
      _ = _ := (emit_number (by omega) s.out).symm
  length := by
    have hemit := (emit_length ((s.buffer <<< 8) ||| b.toUInt32) (s.bits + 8)).1
    have hlength := h.length
    simp only [Letters.push, List.length_append, List.length_singleton]
    omega
  bits_lt := (emit_length _ _).2

theorem Letters.inv (data : Bytes) : (data.foldl Letters.push {}).Inv data := by
  induction data using List.reverseRecOn with
  | nil => exact ⟨nofun, rfl, rfl, by decide⟩
  | append_singleton data b ih =>
    rw [List.foldl_append]
    exact ih.concat b

theorem mem_encode (data : Bytes) : ∀ c ∈ encode data, ∃ idx, letter idx = c := by
  have hletters := (Letters.inv data).letters
  unfold encode
  dsimp only
  split
  · exact List.forall_mem_append.mpr ⟨hletters, List.forall_mem_singleton.mpr ⟨_, rfl⟩⟩
  · exact hletters

theorem encode_number (data : Bytes) :
    ∃ pad < 5, number (encode data) = beNat data * 2 ^ pad ∧ 5 * (encode data).length = 8 * data.length + pad := by
  have hinv := Letters.inv data
  unfold encode
  generalize data.foldl Letters.push {} = s at hinv
  have hlength := hinv.length
  have hbits := hinv.bits_lt
  dsimp only
  split
  · next hpos =>
    have hin := shift_in s.buffer (x := 0) (n := s.bits) (w := 5 - s.bits) (Nat.two_pow_pos _) (by omega)
      (by omega)
    rw [UInt32.or_zero, Nat.add_sub_of_le hbits.le] at hin
    refine ⟨5 - s.bits, by omega, ?_, ?_⟩
    · rw [number_letter, hin, hinv.number, Nat.add_mul, Nat.mul_assoc, ← pow_add, Nat.add_sub_of_le hbits.le]
      rfl
    · rw [List.length_append, List.length_singleton]
      omega
  · next hzero =>
    have hz : s.bits = 0 := by omega
    refine ⟨0, by decide, ?_, by omega⟩
    rw [hinv.number, hz, pow_zero, Nat.mod_one, Nat.add_zero, Nat.mul_one, Nat.mul_one]

/-! ### The decoder -/

structure Bits.Inv (s : List Char) (b : Bits) : Prop where
  number : number s = beNat b.out * 2 ^ b.bits.toNat + b.buffer.toNat % 2 ^ b.bits.toNat
  length : 5 * s.length = 8 * b.out.length + b.bits.toNat
  bits_lt : b.bits.toNat < 8

theorem Bits.Inv.concat {s : List Char} {b : Bits} (h : b.Inv s) (idx : UInt32) :
    ∃ b', b.push (letter idx) = some b' ∧ b'.Inv (s ++ [letter idx]) := by
  have hbits := h.bits_lt
  have hlength := h.length
  have hadd : (b.bits + 5).toNat = b.bits.toNat + 5 := by
    rw [UInt32.toNat_add]
    exact Nat.mod_eq_of_lt (show b.bits.toNat + 5 < 2 ^ 32 by omega)
  have hmask : (idx &&& 0x1f).toNat = idx.toNat % 2 ^ 5 := by
    rw [UInt32.toNat_and]
    exact Nat.and_two_pow_sub_one_eq_mod _ 5
  have hnumber : B32.number (s ++ [letter idx]) = beNat b.out * 2 ^ (b.bits + 5).toNat +
      ((b.buffer <<< 5) ||| (idx &&& 0x1f)).toNat % 2 ^ (b.bits + 5).toNat := by
    have hin := shift_in b.buffer (n := b.bits.toNat) (x := idx &&& 0x1f) (w := 5)
      (hmask ▸ Nat.mod_lt _ (by decide)) (by omega) (by decide)
    rw [hadd]
    calc B32.number (s ++ [letter idx])
      _ = (beNat b.out * 2 ^ b.bits.toNat + b.buffer.toNat % 2 ^ b.bits.toNat) * 2 ^ 5 + (idx &&& 0x1f).toNat := by
        rw [number_letter, h.number, hmask]
      _ = beNat b.out * 2 ^ (b.bits.toNat + 5) + (b.buffer.toNat % 2 ^ b.bits.toNat * 2 ^ 5 + (idx &&& 0x1f).toNat) := by
        ring
      _ = _ := congrArg _ hin.symm
  simp only [push, value_letter, Option.bind_eq_bind, Option.bind_some]
  split
  · next hge =>
    have hge : 8 ≤ (b.bits + 5).toNat := hge
    have hsub : (b.bits + 5 - 8).toNat + 8 = (b.bits + 5).toNat := by
      rw [UInt32.toNat_sub_of_le _ _ ‹_›]
      exact Nat.sub_add_cancel hge
    refine ⟨_, rfl, ?_, ?_, ?_⟩
    · dsimp only
      rw [beNat_concat, UInt32.toNat_toUInt8, toNat_shiftRight (by omega), ← split_digit, hsub]
      exact hnumber
    · simp only [List.length_append, List.length_singleton]
      omega
    · dsimp only
      omega
  · next hlt =>
    have hlt : ¬ 8 ≤ (b.bits + 5).toNat := hlt
    refine ⟨_, rfl, hnumber, ?_, ?_⟩
    · simp only [List.length_append, List.length_singleton]
      omega
    · dsimp only
      omega

theorem Bits.exists_inv (s : List Char) (h : ∀ c ∈ s, ∃ idx, letter idx = c) :
    ∃ b, s.foldlM Bits.push {} = some b ∧ b.Inv s := by
  induction s using List.reverseRecOn with
  | nil => exact ⟨{}, rfl, rfl, rfl, by decide⟩
  | append_singleton s c ih =>
    obtain ⟨hs, hc⟩ := List.forall_mem_append.mp h
    obtain ⟨b, hb, hinv⟩ := ih hs
    obtain ⟨idx, rfl⟩ := List.forall_mem_singleton.mp hc
    obtain ⟨b', hb', hinv'⟩ := hinv.concat idx
    refine ⟨b', ?_, hinv'⟩
    rw [List.foldlM_append, hb]
    simp [hb']

theorem decode_encode (data : Bytes) : decode (encode data) = some data := by
  obtain ⟨pad, hpad, hnumber, hlength⟩ := encode_number data
  obtain ⟨b, hb, hinv⟩ := Bits.exists_inv _ (mem_encode data)
  have hlength' := hinv.length
  have hbits := hinv.bits_lt
  have hpads : b.bits.toNat = pad := by omega
  have hcount : b.out.length = data.length := by omega
  have hbytes : beNat b.out = beNat data := by
    have heq := hnumber.symm.trans hinv.number
    rw [hpads] at heq
    have hmod := Nat.mod_lt b.buffer.toNat (Nat.two_pow_pos pad)
    have hdiv := congrArg (· / 2 ^ pad) heq
    simp only [Nat.mul_div_cancel _ (Nat.two_pow_pos pad)] at hdiv
    rw [hdiv, Nat.mul_comm, Nat.mul_add_div (Nat.two_pow_pos pad), Nat.div_eq_of_lt hmod, Nat.add_zero]
  rw [decode, hb, Option.map_some, beNat_inj hcount hbytes]

end B32

/-! ## The fields of a descriptor -/

theorem TopologyKind.fromTag_eq_ok {t : UInt8} {k : TopologyKind} : fromTag t = .ok k ↔ t = k.tag := by
  constructor
  · intro h
    unfold fromTag at h
    split_ifs at h
    all_goals
      cases h
      assumption
  · rintro rfl
    cases k <;> rfl

theorem Persistence.fromTag_eq_ok {t : UInt8} {p : Persistence} : fromTag t = .ok p ↔ t = p.tag := by
  constructor
  · intro h
    unfold fromTag at h
    split_ifs at h
    all_goals
      cases h
      assumption
  · rintro rfl
    cases p <;> rfl

namespace Predicate

def tag : Predicate → UInt8
  | linkedToAccount _ => 0
  | grouping _ => 1
  | derivedFromNamed _ => 2

def body : Predicate → Bytes
  | linkedToAccount fp => putBytes fp.1
  | grouping pub => putBytes pub
  | derivedFromNamed fp => putBytes fp.1

def Fits : Predicate → Prop
  | grouping pub => pub.length ≤ MAX_FRAME
  | _ => True

theorem reads_get : Reads get encode Fits := by
  have harr := reads_arr (n := 48) (by decide)
  suffices ∀ t, Codec True False _ body (fun p => True ∧ p.tag = t) Fits from
    (Codec.seq (π := tag) reads_u8 fun t _ => this t).conv (fun p _ => by cases p <;> rfl) fun p _ => true_and _ ▸ Iff.rfl
  intro t
  refine .ite (fun ht => ?_) fun _ => .ite (fun ht => ?_) fun _ => .ite (fun ht => ?_) fun _ => .fail fun p hp => ?_
  · exact harr.image (f := linkedToAccount) (fun p => by cases p <;> simp [tag, ht]) (fun _ => rfl) fun _ => Iff.rfl
  · exact Codec.image reads_bytes (f := grouping) (fun p => by cases p <;> simp [tag, ht]) (fun _ => rfl) fun _ => Iff.rfl
  · exact harr.image (f := derivedFromNamed) (fun p => by cases p <;> simp [tag, ht]) (fun _ => rfl) fun _ => Iff.rfl
  · cases p <;> simp_all [tag]

end Predicate

namespace VouchPolicy

theorem reads_getWord : Reads getWord (fun w => putU32 w.toNat) Any := by
  refine .intro (fun {w} _ rest => ?_) fun hs => ?_
  · rw [getWord, bind_apply (Reader.getU32_putU32 w.toNat_lt rest), UInt32.ofNat_toNat]
    rfl
  · obtain ⟨n, u, hn, hs⟩ := exists_of_bind hs
    cases hs
    obtain ⟨rfl, hlt⟩ := Reader.getU32_eq_ok hn
    exact ⟨by rw [UInt32.toNat_ofNat_of_lt' hlt], trivial⟩

def putEligibility : VoucherEligibility → Bytes
  | .anyLinked => putU8 0
  | .contactsOfViewer => putU8 1
  | .transitive depth => putU8 2 ++ putU8 depth

def eligibilityTag : VoucherEligibility → UInt8
  | .anyLinked => 0
  | .contactsOfViewer => 1
  | .transitive _ => 2

theorem reads_eligibility : Reads getEligibility putEligibility Any := by
  suffices ∀ t, Codec True False _ (fun e => match e with
      | .transitive depth => putU8 depth
      | _ => []) (fun e => True ∧ eligibilityTag e = t) Any from
    (Codec.seq (π := eligibilityTag) reads_u8 fun t _ => this t).conv (fun e _ => by cases e <;> rfl)
      fun e _ => true_and _ ▸ Iff.rfl
  intro t
  refine .ite (fun ht => ?_) fun _ => .ite (fun ht => ?_) fun _ => .ite (fun ht => ?_) fun _ => .fail fun e he => ?_
  · exact (Codec.done (a := VoucherEligibility.anyLinked) fun e => by cases e <;> simp [eligibilityTag, ht]).conv
      (fun e he => by cases e <;> simp_all [eligibilityTag]) fun _ _ => Iff.rfl
  · exact (Codec.done (a := VoucherEligibility.contactsOfViewer) fun e => by cases e <;> simp [eligibilityTag, ht]).conv
      (fun e he => by cases e <;> simp_all [eligibilityTag]) fun _ _ => Iff.rfl
  · exact Codec.image reads_u8 (f := VoucherEligibility.transitive) (fun e => by cases e <;> simp [eligibilityTag, ht]) (fun _ => rfl)
      fun _ => Iff.rfl
  · cases e <;> simp_all [eligibilityTag]

def putThreshold : Threshold → Bytes
  | .count c => putU8 0 ++ putU32 c.toNat
  | .percent q => putU8 1 ++ putU8 q

theorem reads_threshold : Reads getThreshold putThreshold Any :=
  codec_variants (τ := fun | .count _ => 0 | .percent _ => 1) (w := fun
      | .count c => putU32 c.toNat
      | .percent q => putU8 q) reads_u8
    (Codec.image reads_getWord (f := Threshold.count) (fun h => by cases h <;> simp) (fun _ => rfl) fun _ => Iff.rfl)
    (Codec.image reads_u8 (f := Threshold.percent) (fun h => by cases h <;> simp) (fun _ => rfl) fun _ => Iff.rfl)
    (fun h => by cases h <;> simp) fun h => by cases h <;> rfl

theorem codec_get : Codec True True get encode Any Any := by
  refine (Codec.seq (π := eligibility) reads_eligibility fun eligibility _ =>
    .seq (π := (·.weighting.friend)) reads_getWord fun friend _ =>
    .seq (π := (·.weighting.contact)) reads_getWord fun contact _ =>
    .seq (π := (·.weighting.stranger)) reads_getWord fun stranger _ =>
    .seq (π := threshold) reads_threshold fun threshold _ =>
    .seq (π := freshnessIntervalRounds) reads_getWord fun freshness _ =>
    .last Reader.finish_eq_ok fun p => ?_).conv (fun p _ => ?_) fun p _ => ?_
  · obtain ⟨_, ⟨_, _, _⟩, _, _⟩ := p
    simp [and_assoc]
  · simp only [encode, List.append_assoc, List.append_nil]
    rfl
  · simp

end VouchPolicy

namespace ChatDescriptor

/-! ## Descriptors -/

section
variable {α : Type} {e : Prop} {put : α → Bytes} {F : α → Prop}

theorem codec_malformed {what : String} {r : Reader Unit α} (h : Decodes e r.parse put F) :
    Codec e False (do let b ← Reader.getBytes; orMalformed what (r.parse b).toOption) (fun a => putBytes (put a)) Any
      (fun a => F a ∧ (put a).length ≤ MAX_FRAME) := by
  refine codec_field (h.mapError (f := fun _ => CoreError.malformed what)) fun {a b s t} => ?_
  cases hb : r.parse b with
  | error x => exact iff_of_false nofun nofun
  | ok c =>
    constructor
    · rintro ⟨⟩
      exact ⟨rfl, rfl⟩
    · rintro ⟨⟨⟩, rfl⟩
      rfl

theorem codec_fieldSince {since version : Nat} {dflt : α} {r : Reader CoreError α} (h : Codec e False r put Any F) :
    Codec e False (fieldSince since version dflt r) (fun a => if since ≤ version then put a else []) Any
      (fun a => if since ≤ version then F a else a = dflt) := by
  unfold fieldSince
  split
  · exact h
  · exact (Codec.done fun a => Iff.rfl).any.conv (fun _ _ => rfl) fun a _ => and_true _ ▸ Iff.rfl

end

theorem reads_getString : Reads getString (fun s => putBytes (utf8 s)) (fun s => (utf8 s).length ≤ MAX_FRAME) := by
  rw [getString, bind_eq_readChecked (f := fromUtf8) pure (fun _ h => by rw [h]) fun _ _ h => by rw [h], bind_pure]
  exact reads_text

theorem codec_getFlag : Codec False False getFlag putFlag Any Any := by
  refine ⟨fun {b} _ _ rest _ => ?_, fun {b s t} hs => ?_⟩
  · cases b <;> rfl
  · obtain ⟨x, u, hx, hs⟩ := exists_of_bind hs
    cases hs
    obtain rfl := Reader.getU8_eq_ok hx
    refine ⟨trivial, trivial, ?_, nofun, nofun⟩
    rw [List.length_append]
    rfl

theorem reads_nameTrustPolicy : Reads (do
      let tag ← Reader.getU8
      orMalformed "name trust policy tag" (NameTrustPolicy.fromTag tag) : Reader CoreError NameTrustPolicy)
    (fun p => putU8 p.tag) Any := by
  rw [bind_eq_readChecked (f := NameTrustPolicy.fromTag) pure (fun _ h => by rw [h]; rfl) fun _ _ h => by rw [h]; rfl,
    bind_pure]
  refine reads_u8.checked (fun p => by cases p <;> rfl) fun {t p} h => ?_
  unfold NameTrustPolicy.fromTag at h
  split_ifs at h
  all_goals
    cases h
    exact Eq.symm ‹_›

theorem reads_getPredicate : Reads getPredicate (putOption fun p => putBytes p.encode)
    (fun o => ∀ p, o = some p → p.Fits ∧ p.encode.length ≤ MAX_FRAME) :=
  codec_option reads_u8 (codec_malformed Predicate.reads_get.finish.decodes) (bind_assoc ..).symm

theorem reads_getPadding : Reads getPadding (fun o => putU32 (o.getD 0)) (fun o => o ≠ some 0 ∧ o.getD 0 < 2 ^ 32) := by
  refine (Codec.image reads_u32 (f := fun n => if n = 0 then none else some n) (fun o => ?_) (fun n => ?_) fun n => ?_).any
  · constructor
    · intro ho
      refine ⟨o.getD 0, ?_⟩
      cases o with
      | none => rfl
      | some n => exact if_neg fun hn => ho (congrArg some hn)
    · rintro ⟨n, rfl⟩ hn
      split at hn
      · cases hn
      · next hne => exact hne (Option.some.inj hn)
  · split
    · next hn =>
      rw [hn]
      rfl
    · rfl
  · split
    · next hn => simp [hn]
    · rfl

theorem reads_getVouchPolicy : Reads getVouchPolicy (fun p => putBytes p.encode)
    (fun p => True ∧ p.encode.length ≤ MAX_FRAME) :=
  codec_malformed VouchPolicy.codec_get.decodes

theorem reads_getPromotion : Reads getPromotion (putOption fun m => putU8 m.tier ++ putBytes (utf8 m.onion))
    (fun o => ∀ m, o = some m → (utf8 m.onion).length ≤ MAX_FRAME) := by
  have h : Reads (do let tier ← Reader.getU8; let onion ← getString; pure ⟨tier, onion⟩ : Reader CoreError PromotionMeta)
      (fun m => putU8 m.tier ++ putBytes (utf8 m.onion)) (fun m => (utf8 m.onion).length ≤ MAX_FRAME) :=
    (Codec.seq (π := PromotionMeta.tier) reads_u8 fun tier _ => .seq (π := PromotionMeta.onion) reads_getString
      fun onion _ => .done fun m => by cases m; simp).conv (fun _ _ => by rw [List.append_nil]) fun _ _ => by simp
  exact codec_option reads_u8 h (by simp only [bind_assoc, pure_bind])

def fieldBytes (d : ChatDescriptor) : Bytes := d.encodeBytes.drop 4

theorem encodeBytes_eq (d : ChatDescriptor) : d.encodeBytes = putU32 d.version ++ d.fieldBytes := by
  simp only [fieldBytes, encodeBytes, List.append_assoc]
  rfl

theorem finishDescriptor_eq_ok {s t : Bytes} : finishDescriptor s = .ok ((), t) ↔ s = [] ∧ t = [] := by
  unfold finishDescriptor
  split
  · next hs => exact ⟨fun h => ⟨hs, (congrArg Prod.snd (Except.ok.inj h)).symm⟩, fun h => by rw [h.2]⟩
  · next hs => exact iff_of_false nofun fun h => hs h.1

theorem reads_getEndpoints : Reads getEndpoints (putCounted fun s => putBytes (utf8 s))
    (fun l => l.length ≤ 1024 ∧ ∀ s ∈ l, (utf8 s).length ≤ MAX_FRAME) :=
  reads_capped reads_u32 reads_getString (fun _ => rfl) (by decide)

theorem putOption_predicate (o : Option Predicate) : putOption (fun p => putBytes p.encode) o = match o with
    | some p => putU8 1 ++ putBytes p.encode
    | none => putU8 0 := by
  cases o <;> rfl

theorem putOption_promotion (o : Option PromotionMeta) :
    putOption (fun m => putU8 m.tier ++ putBytes (utf8 m.onion)) o = match o with
      | none => putU8 0
      | some m => putU8 1 ++ putU8 m.tier ++ putBytes (utf8 m.onion) := by
  cases o <;> rfl

theorem exists_codec_getFields (version : Nat) :
    ∃ F, Codec False True (getFields version) fieldBytes (fun d => d.version = version) F := by
  refine ⟨_, Codec.conv
    (Codec.seq₂ (π := topology) (reads_tag TopologyKind.fromTag_eq_ok).codec fun topology _ =>
    .seq₂ (π := persistence) (reads_tag Persistence.fromTag_eq_ok).codec fun persistence _ =>
    .seq (π := suiteId) reads_getString.codec fun suiteId _ =>
    .seq (π := suiteParams) reads_bytes.codec fun suiteParams _ =>
    .seq (π := endpoints) reads_getEndpoints.codec fun endpoints _ =>
    .seq (π := inviteToken) reads_bytes.codec fun inviteToken _ =>
    .seq (π := channel) reads_getString.codec fun channel _ =>
    .seq (π := group) codec_getFlag fun group _ =>
    .seq (π := channelMarking) Marking.reads_getOpt.codec fun channelMarking _ =>
    .seq (π := nameTrustPolicy) (codec_fieldSince reads_nameTrustPolicy.codec) fun nameTrustPolicy _ =>
    .seq (π := groupDisplayAmplifyIsolated) (codec_fieldSince codec_getFlag) fun groupDisplayAmplifyIsolated _ =>
    .seq (π := accessPredicate) (codec_fieldSince reads_getPredicate.codec) fun accessPredicate _ =>
    .seq (π := messagePadding) (codec_fieldSince reads_getPadding.codec) fun messagePadding _ =>
    .seq (π := vouchPolicy) (codec_fieldSince reads_getVouchPolicy.codec) fun vouchPolicy _ =>
    .seq (π := promotion) (codec_fieldSince reads_getPromotion.codec) fun promotion _ =>
    .seq (π := requireAnon) (codec_fieldSince codec_getFlag) fun requireAnon _ =>
    .last finishDescriptor_eq_ok fun d => ?_) (fun d hd => ?_) fun d _ => Iff.rfl⟩
  · cases d
    simp [and_assoc]
  · obtain rfl := hd
    refine List.append_cancel_left ((encodeBytes_eq d).symm.trans ?_).symm
    simp only [encodeBytes, putOption_predicate, putOption_promotion, putCounted, putFields, List.flatMap_map, List.append_assoc,
      List.append_nil]
    split_ifs <;> rfl

theorem codec_version {α : Type} {π : α → Nat} {k : Nat → Reader CoreError α} {put : α → Bytes} {F : Nat → α → Prop}
    (hk : ∀ version, Codec False True (k version) put (fun a => π a = version) (F version)) :
    Codec False True (do
        let wireVersion ← Reader.getU32
        let version := wireVersion % 2 ^ 16
        if version = 0 ∨ version > DESCRIPTOR_VERSION then throw (.unsupportedVersion version) else k version)
      (fun a => putU32 (π a) ++ put a) Any (fun a => (0 < π a ∧ π a ≤ DESCRIPTOR_VERSION) ∧ F (π a) a) where
  read {a} _ ha rest hrest := by
    obtain ⟨⟨hpos, hle⟩, hF⟩ := ha
    have hsmall : π a < 2 ^ 16 := hle.trans_lt (by decide)
    rw [List.append_assoc, bind_apply (Reader.getU32_putU32 (hsmall.trans (by decide)) _)]
    rw [Nat.mod_eq_of_lt hsmall, if_neg (by omega)]
    exact (hk _).read rfl hF rest hrest
  accepts hs := by
    obtain ⟨w, u, hw, hfields⟩ := exists_of_bind hs
    obtain ⟨rfl, -⟩ := Reader.getU32_eq_ok hw
    dsimp only at hfields
    split at hfields
    · cases hfields
    · next hversion =>
      obtain ⟨hπ, hF, hlen, -, hend⟩ := (hk _).accepts hfields
      refine ⟨trivial, ⟨by omega, hπ ▸ hF⟩, ?_, nofun, hend⟩
      rw [List.length_append, List.length_append]
      have hput (n : Nat) : (putU32 n).length = 4 := beBytes_length 4 n
      rw [hput, hput]
      omega

theorem exists_decodes : ∃ F, Decodes False decodeBytes encodeBytes F := by
  choose F hF using exists_codec_getFields
  exact ⟨_, ((codec_version hF).conv (fun d _ => (encodeBytes_eq d).symm) fun _ _ => Iff.rfl).decodes⟩

theorem decodeBytes_encodeBytes {bytes : Bytes} {d : ChatDescriptor} (h : decodeBytes bytes = .ok d) :
    decodeBytes d.encodeBytes = .ok d := by
  obtain ⟨F, hF⟩ := exists_decodes
  exact hF.read (hF.accepts h).1

def wireVersion (bytes : Bytes) : Nat := beNat (bytes.take 4)

theorem version_of_decodeBytes {bytes : Bytes} {d : ChatDescriptor} (h : decodeBytes bytes = .ok d) :
    0 < wireVersion bytes % 2 ^ 16 ∧ wireVersion bytes % 2 ^ 16 ≤ DESCRIPTOR_VERSION := by
  obtain ⟨⟨_, rest⟩, hget, rfl⟩ := except_map_eq_ok h
  obtain ⟨w, u, hw, hfields⟩ := exists_of_bind hget
  obtain ⟨rfl, hlt⟩ := Reader.getU32_eq_ok hw
  have hwire : wireVersion (putU32 w ++ u) = w := by
    rw [wireVersion, putU32, List.take_left' (beBytes_length 4 w)]
    exact beNat_beBytes_of_lt hlt
  rw [hwire]
  dsimp only at hfields
  split at hfields
  · cases hfields
  · omega

end ChatDescriptor

/-! ## URIs -/

namespace Invite
open ChatDescriptor

def toUri (d : Invite) : String := URI_SCHEME ++ String.ofList (B32.encode d.encodeBytes)

theorem trim_encode (data : Bytes) : trim (B32.encode data) = B32.encode data := by
  have hletter : ∀ i < 32, isWhitespace (B32.ALPHABET.getD i 'a') = false := by decide +kernel
  have hword : ∀ c ∈ B32.encode data, isWhitespace c = false := by
    intro c hc
    obtain ⟨idx, rfl⟩ := B32.mem_encode data c hc
    refine hletter _ ?_
    rw [UInt32.toNat_and]
    exact Nat.and_lt_two_pow _ (by decide : 31 < 2 ^ 5)
  have hdrop (l : List Char) (hl : ∀ c ∈ l, isWhitespace c = false) : l.dropWhile isWhitespace = l := by
    cases l with
    | nil => rfl
    | cons c l => exact List.dropWhile_cons_of_neg (by rw [hl c List.mem_cons_self]; decide)
  rw [trim, hdrop _ hword, hdrop _ fun c hc => hword c (List.mem_reverse.mp hc), List.reverse_reverse]

theorem fromUri_toUri (d : Invite) : fromUri d.toUri = (decodeBytes d.encodeBytes).map fun c => { c with } := by
  have hchars : d.toUri.toList = URI_SCHEME.toList ++ B32.encode d.encodeBytes := by
    rw [toUri, String.toList_append, String.toList_ofList]
  rw [fromUri, hchars, if_pos (List.isPrefixOf_iff_prefix.mpr (List.prefix_append _ _)), List.drop_left, trim_encode,
    B32.decode_encode]

/-- Of every accepted byte string, the version on the wire is a known one and the descriptor survives its own URI,
exactly if the version on the wire fits sixteen bits. -/
theorem stable_iff {bytes : Bytes} {d : ChatDescriptor} (h : decodeBytes bytes = .ok d) :
    ((1 ≤ wireVersion bytes ∧ wireVersion bytes ≤ 7) ∧ fromUri (toUri { d with }) = .ok { d with }) ↔
      wireVersion bytes < 2 ^ 16 := by
  have hstable : fromUri (toUri { d with }) = .ok { d with } := by
    rw [fromUri_toUri, decodeBytes_encodeBytes h]
    rfl
  obtain ⟨hpos, hle⟩ := version_of_decodeBytes h
  unfold DESCRIPTOR_VERSION at hle
  constructor
  · rintro ⟨⟨-, hwire⟩, -⟩
    omega
  · intro hwire
    rw [Nat.mod_eq_of_lt hwire] at hpos hle
    exact ⟨⟨hpos, hle⟩, hstable⟩

namespace Sample

/-- An empty first-version descriptor whose version field is the given number. -/
def versioned (version : Nat) : Bytes := putU32 version ++ List.replicate 24 0

theorem decodeBytes_versioned : decodeBytes (versioned 1) = .ok (minimal []).toChatDescriptor :=
  except_eq_ok_of_toOption (by decide +kernel)

/-- The version 65537 passes for the version 1. -/
theorem wrapped_version_accepted :
    decodeBytes (versioned 65537) = .ok (minimal []).toChatDescriptor ∧ ¬ wireVersion (versioned 65537) ≤ 7 :=
  ⟨except_eq_ok_of_toOption (by decide +kernel), by decide +kernel⟩

theorem stable_versioned : decodeBytes (versioned 1) = .ok (minimal []).toChatDescriptor ∧
    (1 ≤ wireVersion (versioned 1) ∧ wireVersion (versioned 1) ≤ 7) ∧
      fromUri (toUri { (minimal []).toChatDescriptor with }) = .ok { (minimal []).toChatDescriptor with } :=
  ⟨decodeBytes_versioned, (stable_iff decodeBytes_versioned).mpr (by decide +kernel)⟩

end Sample
end Invite
end Talkrypt.Core
