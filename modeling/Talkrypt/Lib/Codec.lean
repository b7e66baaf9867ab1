import Mathlib.Tactic

/-!
# Readers and writers

A reader consumes a list from its front. `Codec e c r put P F` says that `r` reads back what `put` writes of every
value in `F`, and that a value it accepts is in `F` and takes no more room when it is written. If `e` holds then the
reader is exact as well: it accepts nothing but what `put` writes. If `c` holds then it reads to the end of the
input. `P` is what is known of the value from the fields before, so that a record is read field by field
(`Codec.seq`, `Codec.done`, `Codec.last`). `Reads r put F` is an exact reader of a whole value.
-/

namespace Talkrypt

variable {β ε α γ δ : Type} {e c : Prop}

/-- Read a value and put it through a check, which may change its representation. -/
def readChecked (r : StateT (List β) (Except ε) α) (f : α → Option γ) (e : ε) : StateT (List β) (Except ε) γ := do
  let a ← r
  match f a with
  | none => throw e
  | some c => pure c

theorem bind_eq_readChecked {r : StateT (List β) (Except ε) α} {f : α → Option γ} {x : ε}
    {k : α → StateT (List β) (Except ε) δ} (k' : γ → StateT (List β) (Except ε) δ)
    (hnone : ∀ a, f a = none → k a = throw x) (hsome : ∀ a c, f a = some c → k a = k' c) :
    r >>= k = readChecked r f x >>= k' := by
  rw [readChecked, bind_assoc]
  congr 1
  funext a
  cases hf : f a with
  | none => exact hnone a hf
  | some c => exact hsome a c hf

section
variable {r : StateT (List β) (Except ε) α} {k : α → StateT (List β) (Except ε) γ} {s t : List β} {a : α} {b : γ}

theorem bind_apply (h : r s = .ok (a, t)) : (r >>= k) s = k a t := by
  simp only [bind, StateT.bind, h, Except.bind]

theorem exists_of_bind (h : (r >>= k) s = .ok (b, t)) : ∃ a u, r s = .ok (a, u) ∧ k a u = .ok (b, t) := by
  cases hr : r s with
  | error e =>
    simp only [bind, StateT.bind, hr, Except.bind] at h
    cases h
  | ok p => exact ⟨p.1, p.2, rfl, by rwa [bind_apply hr] at h⟩

end

structure Codec (e c : Prop) (r : StateT (List β) (Except ε) α) (put : α → List β) (P F : α → Prop) : Prop where
  read : ∀ {a : α}, P a → F a → ∀ rest : List β, (c → rest = []) → r (put a ++ rest) = .ok (a, rest)
  accepts : ∀ {a : α} {s t : List β}, r s = .ok (a, t) →
    P a ∧ F a ∧ (put a).length + t.length ≤ s.length ∧ (e → s = put a ++ t) ∧ (c → t = [])

abbrev Any (_ : α) : Prop := True

namespace Codec

variable {r r' : StateT (List β) (Except ε) α} {put put₁ : α → List β} {put' : γ → List β} {P F F₁ : α → Prop}
  {P' F' : γ → Prop} {k : α → StateT (List β) (Except ε) γ} {π : γ → α}

theorem seq (h : Codec e False r put Any F) (hk : ∀ a, F a → Codec e c (k a) put' (fun b => P' b ∧ π b = a) F') :
    Codec e c (r >>= k) (fun b => put (π b) ++ put' b) P' (fun b => F (π b) ∧ F' b) where
  read hP hF rest hrest := by
    rw [List.append_assoc, bind_apply (h.read trivial hF.1 _ nofun)]
    exact (hk _ hF.1).read ⟨hP, rfl⟩ hF.2 rest hrest
  accepts hs := by
    obtain ⟨a, u, hr, hs⟩ := exists_of_bind hs
    obtain ⟨-, ha, hlen, hexact, -⟩ := h.accepts hr
    obtain ⟨⟨hP, rfl⟩, hF, hlen', hexact', hend⟩ := (hk a ha).accepts hs
    refine ⟨hP, ⟨ha, hF⟩, ?_, fun he => ?_, hend⟩
    · rw [List.length_append]
      omega
    · rw [hexact he, hexact' he, List.append_assoc]

theorem seq₂ {q : StateT (List β) (Except ε) δ} {f : δ → StateT (List β) (Except ε) α}
    (h : Codec e False (q >>= f) put Any F) (hk : ∀ a, F a → Codec e c (k a) put' (fun b => P' b ∧ π b = a) F') :
    Codec e c (q >>= fun d => f d >>= k) (fun b => put (π b) ++ put' b) P' (fun b => F (π b) ∧ F' b) := by
  rw [← bind_assoc]
  exact h.seq hk

theorem done {a : α} (h : ∀ b, P b ↔ b = a) :
    Codec e False (pure a : StateT (List β) (Except ε) α) (fun _ => []) P (fun _ => True) where
  read hP _ rest _ := by
    obtain rfl := (h _).mp hP
    rfl
  accepts hs := by
    cases hs
    exact ⟨(h _).mpr rfl, trivial, by simp, fun _ => rfl, nofun⟩

theorem last {fin : StateT (List β) (Except ε) Unit} (hfin : ∀ {s t}, fin s = .ok ((), t) ↔ s = [] ∧ t = []) {a : α}
    (h : ∀ b, P b ↔ b = a) : Codec e True (fin >>= fun _ => pure a) (fun _ => []) P (fun _ => True) where
  read hP _ rest hrest := by
    obtain rfl := (h _).mp hP
    obtain rfl := hrest trivial
    rw [List.append_nil, bind_apply (hfin.mpr ⟨rfl, rfl⟩)]
    rfl
  accepts hs := by
    obtain ⟨_, u, hu, hs⟩ := exists_of_bind hs
    obtain ⟨rfl, rfl⟩ := hfin.mp hu
    cases hs
    exact ⟨(h _).mpr rfl, trivial, le_rfl, fun _ => rfl, fun _ => rfl⟩

theorem conv (h : Codec e c r put P F) (hput : ∀ a, P a → put a = put₁ a) (hF : ∀ a, P a → (F a ↔ F₁ a)) :
    Codec e c r put₁ P F₁ where
  read hP hF₁ rest := by
    rw [← hput _ hP]
    exact h.read hP ((hF _ hP).mpr hF₁) rest
  accepts hs := by
    obtain ⟨hP, hFa, hmore⟩ := h.accepts hs
    rw [← hput _ hP]
    exact ⟨hP, (hF _ hP).mp hFa, hmore⟩

theorem ite {p : Prop} [Decidable p] (h : p → Codec e c r put P F) (h' : ¬ p → Codec e c r' put P F) :
    Codec e c (if p then r else r') put P F := by
  split
  · exact h ‹_›
  · exact h' ‹_›

theorem fail {x : ε} (h : ∀ a, P a → ¬ F a) : Codec e c (throw x : StateT (List β) (Except ε) α) put P F :=
  ⟨fun hP hF => (h _ hP hF).elim, fun hs => by cases hs⟩

theorem checked {f : α → Option γ} {g : γ → α} {x : ε} (h : Codec e c r put Any F) (hf : ∀ b, f (g b) = some b)
    (hg : ∀ {a b}, f a = some b → g b = a) :
    Codec e c (readChecked r f x) (fun b => put (g b)) Any (fun b => F (g b)) where
  read _ hb rest hrest := by
    rw [readChecked, bind_apply (h.read trivial hb rest hrest)]
    simp only [hf]
    rfl
  accepts hs := by
    obtain ⟨a, u, hr, hcheck⟩ := exists_of_bind hs
    cases hb : f a with
    | none =>
      simp only [hb] at hcheck
      cases hcheck
    | some b =>
      simp only [hb] at hcheck
      cases hcheck
      rw [hg hb]
      exact h.accepts hr

theorem any (h : Codec e c r put P F) : Codec e c r put Any (fun a => P a ∧ F a) :=
  ⟨fun _ ha => h.read ha.1 ha.2, fun hs =>
    have ⟨hP, hF, hmore⟩ := h.accepts hs
    ⟨trivial, ⟨hP, hF⟩, hmore⟩⟩

theorem image {f : α → γ} (h : Codec e False r put Any F) (hP : ∀ b, P' b ↔ ∃ a, f a = b)
    (hput : ∀ a, put' (f a) = put a) (hF : ∀ a, F' (f a) ↔ F a) :
    Codec e False (r >>= fun a => pure (f a)) put' P' F' where
  read hb hFb rest hrest := by
    obtain ⟨a, rfl⟩ := (hP _).mp hb
    rw [hput, bind_apply (h.read trivial ((hF a).mp hFb) rest hrest)]
    rfl
  accepts hs := by
    obtain ⟨a, u, hr, hs⟩ := exists_of_bind hs
    cases hs
    obtain ⟨-, ha, hmore⟩ := h.accepts hr
    rw [hput]
    exact ⟨(hP _).mpr ⟨a, rfl⟩, (hF a).mpr ha, hmore⟩

theorem pair {r' : StateT (List β) (Except ε) γ} (h : Codec e False r put Any F) (h' : Codec e False r' put' Any F') :
    Codec e False (do let a ← r; let b ← r'; pure (a, b)) (fun p => put p.1 ++ put' p.2) Any
      (fun p => F p.1 ∧ F' p.2) :=
  (h.seq (π := Prod.fst) fun a _ => h'.seq (π := Prod.snd) fun b _ => .done fun p => by
    rw [true_and, ← Prod.ext_iff (y := (a, b))]).conv (fun p _ => by rw [List.append_nil]) fun p _ => by
    rw [and_true]

end Codec

/-! ## Whole inputs -/

structure Decodes (e : Prop) (d : List β → Except ε α) (put : α → List β) (F : α → Prop) : Prop where
  read : ∀ {a : α}, F a → d (put a) = .ok a
  accepts : ∀ {a : α} {s : List β}, d s = .ok a → F a ∧ (put a).length ≤ s.length ∧ (e → s = put a)

namespace Decodes
variable {d d' : List β → Except ε α} {put : α → List β} {F : α → Prop}

theorem read_iff (h : Decodes e d put F) {a : α} : d (put a) = .ok a ↔ F a := ⟨fun hs => (h.accepts hs).1, h.read⟩

theorem mapError {δ : Type} {f : ε → δ} (h : Decodes e d put F) : Decodes e (fun s => (d s).mapError f) put F :=
  ⟨fun ha => by rw [h.read ha]; rfl, fun {a s} hs => h.accepts (by
    cases hd : d s with
    | error x =>
      rw [hd] at hs
      cases hs
    | ok b =>
      rw [hd] at hs
      rw [Except.ok.inj hs])⟩

end Decodes

/-! ## Lists -/

def readMany (r : StateT (List β) (Except ε) α) : Nat → StateT (List β) (Except ε) (List α)
  | 0 => pure []
  | n + 1 => do
    let a ← r
    let as ← readMany r n
    pure (a :: as)

variable {r : StateT (List β) (Except ε) α} {put : α → List β} {F : α → Prop}

theorem Codec.many (h : Codec e False r put Any F) (n : Nat) :
    Codec e False (readMany r n) (fun as => as.flatMap put) Any (fun as => as.length = n ∧ ∀ a ∈ as, F a) := by
  induction n with
  | zero =>
    refine ⟨fun {as} _ has rest _ => ?_, fun hs => ?_⟩
    · obtain rfl := List.length_eq_zero_iff.mp has.1
      rfl
    · cases hs
      exact ⟨trivial, ⟨rfl, nofun⟩, by simp, fun _ => rfl, nofun⟩
  | succ n ih =>
    refine ⟨fun {as} _ has rest _ => ?_, fun hs => ?_⟩
    · obtain ⟨a, as, rfl⟩ := List.exists_cons_of_length_eq_add_one has.1
      obtain ⟨ha, has'⟩ := List.forall_mem_cons.mp has.2
      rw [List.flatMap_cons, List.append_assoc, readMany, bind_apply (h.read trivial ha _ nofun),
        bind_apply (ih.read trivial ⟨Nat.succ.inj has.1, has'⟩ rest nofun)]
      rfl
    · obtain ⟨a, u, hr, hs⟩ := exists_of_bind hs
      obtain ⟨as, v, htail, hs⟩ := exists_of_bind hs
      cases hs
      obtain ⟨-, ha, hlen, hexact, -⟩ := h.accepts hr
      obtain ⟨-, ⟨hcount, has⟩, hlen', hexact', -⟩ := ih.accepts htail
      refine ⟨trivial, ⟨by rw [List.length_cons, hcount], List.forall_mem_cons.mpr ⟨ha, has⟩⟩, ?_, fun he => ?_, nofun⟩
      · rw [List.flatMap_cons, List.length_append]
        omega
      · rw [hexact he, hexact' he, List.flatMap_cons, List.append_assoc]

theorem length_flatMap_ge {min : Nat} (hmin : ∀ a, F a → min ≤ (put a).length) :
    ∀ {as : List α}, (∀ a ∈ as, F a) → min * as.length ≤ (as.flatMap put).length
  | [], _ => by simp
  | a :: as, h => by
    obtain ⟨ha, has⟩ := List.forall_mem_cons.mp h
    have htail := length_flatMap_ge hmin has
    have hhead := hmin a ha
    rw [List.flatMap_cons, List.length_append, List.length_cons, Nat.mul_succ]
    omega

/-- A count and as many values. The count is refused above `cap`, and may be refused if there is no room left for
values of `min` symbols each. -/
theorem Codec.counted (min : Nat) {n : StateT (List β) (Except ε) Nat} {q : Nat → StateT (List β) (Except ε) (List α)}
    {putN : Nat → List β} {cap : Nat} (h : Codec e False r put Any F) (hmin : ∀ a, F a → min ≤ (put a).length)
    (hread : ∀ {i rest}, i ≤ cap → min * i ≤ rest.length → n (putN i ++ rest) = .ok (i, rest))
    (hcount : ∀ {s i t}, n s = .ok (i, t) → s = putN i ++ t)
    (hq : ∀ {i}, i ≤ cap → q i = readMany r i)
    (hcap : ∀ {i s t u as}, n s = .ok (i, t) → q i t = .ok (as, u) → i ≤ cap) :
    Codec e False (n >>= q) (fun as => putN as.length ++ as.flatMap put) Any
      (fun as => as.length ≤ cap ∧ ∀ a ∈ as, F a) where
  read {as} _ has rest _ := by
    have hroom : min * as.length ≤ (as.flatMap put ++ rest).length := by
      rw [List.length_append]
      exact (length_flatMap_ge hmin has.2).trans (Nat.le_add_right ..)
    rw [List.append_assoc, bind_apply (hread has.1 hroom), hq has.1]
    exact (h.many _).read trivial ⟨rfl, has.2⟩ rest nofun
  accepts hs := by
    obtain ⟨i, u, hi, hs⟩ := exists_of_bind hs
    have hle := hcap hi hs
    rw [hq hle] at hs
    obtain ⟨-, ⟨rfl, has⟩, hlen, hexact, -⟩ := (h.many _).accepts hs
    obtain rfl := hcount hi
    refine ⟨trivial, ⟨hle, has⟩, ?_, fun he => ?_, nofun⟩
    · simp only [List.length_append]
      omega
    · rw [hexact he, List.append_assoc]

/-! ## Exact readers -/

def Reads (r : StateT (List β) (Except ε) α) (put : α → List β) (F : α → Prop) : Prop := Codec True False r put Any F

namespace Reads
variable {r' : StateT (List β) (Except ε) γ} {put' : γ → List β} {F' : γ → Prop}

theorem intro (hread : ∀ {a}, F a → ∀ rest, r (put a ++ rest) = .ok (a, rest))
    (haccepts : ∀ {a s t}, r s = .ok (a, t) → s = put a ++ t ∧ F a) : Reads r put F :=
  ⟨fun _ ha rest _ => hread ha rest, fun hs => by
    obtain ⟨rfl, ha⟩ := haccepts hs
    exact ⟨trivial, ha, by rw [List.length_append], fun _ => rfl, nofun⟩⟩

theorem read (h : Reads r put F) {a : α} (ha : F a) (rest : List β) : r (put a ++ rest) = .ok (a, rest) :=
  Codec.read h trivial ha rest nofun

theorem accepts (h : Reads r put F) {a : α} {s t : List β} (hs : r s = .ok (a, t)) : s = put a ++ t ∧ F a :=
  have ⟨_, ha, _, hexact, _⟩ := Codec.accepts h hs
  ⟨hexact trivial, ha⟩

theorem read_nil (h : Reads r put F) {a : α} (ha : F a) : r (put a) = .ok (a, []) := by
  have hread := h.read ha []
  rwa [List.append_nil] at hread

theorem codec (h : Reads r put F) : Codec e False r put Any F :=
  ⟨h.1, fun hs =>
    have ⟨hP, ha, hlen, hexact, hend⟩ := Codec.accepts h hs
    ⟨hP, ha, hlen, fun _ => hexact trivial, hend⟩⟩

theorem pair (h : Reads r put F) (h' : Reads r' put' F') :
    Reads (do let a ← r; let b ← r'; pure (a, b)) (fun p => put p.1 ++ put' p.2) (fun p => F p.1 ∧ F' p.2) :=
  Codec.pair h h'

end Reads

/-! ## Writings that show where they end -/

/-- What is written of two values of `F` agrees with something after it only if the values do. -/
def SelfDelimiting (put : α → List β) (F : α → Prop) : Prop :=
  ∀ ⦃a b : α⦄ ⦃s t : List β⦄, F a → F b → put a ++ s = put b ++ t → a = b ∧ s = t

theorem SelfDelimiting.flatMap (h : SelfDelimiting put F) {as bs : List α} {s t : List β}
    (hlen : as.length = bs.length) (has : ∀ a ∈ as, F a) (hbs : ∀ b ∈ bs, F b)
    (heq : as.flatMap put ++ s = bs.flatMap put ++ t) : as = bs ∧ s = t := by
  induction as generalizing bs with
  | nil =>
    obtain rfl := List.length_eq_zero_iff.mp hlen.symm
    exact ⟨rfl, heq⟩
  | cons a as ih =>
    obtain ⟨b, bs, rfl⟩ := List.exists_cons_of_length_eq_add_one hlen.symm
    rw [List.flatMap_cons, List.flatMap_cons, List.append_assoc, List.append_assoc] at heq
    obtain ⟨rfl, hrest⟩ := h (has a List.mem_cons_self) (hbs b List.mem_cons_self) heq
    obtain ⟨rfl, hst⟩ := ih (Nat.succ.inj hlen) (fun c hc => has c (List.mem_cons_of_mem a hc))
      (fun c hc => hbs c (List.mem_cons_of_mem a hc)) hrest
    exact ⟨rfl, hst⟩

theorem SelfDelimiting.pair {put' : γ → List β} {F' : γ → Prop} (h : SelfDelimiting put F)
    (h' : SelfDelimiting put' F') :
    SelfDelimiting (fun p : α × γ => put p.1 ++ put' p.2) (fun p => F p.1 ∧ F' p.2) := by
  intro p q s t hp hq heq
  rw [List.append_assoc, List.append_assoc] at heq
  obtain ⟨hfst, heq⟩ := h hp.1 hq.1 heq
  obtain ⟨hsnd, hst⟩ := h' hp.2 hq.2 heq
  exact ⟨Prod.ext hfst hsnd, hst⟩

end Talkrypt
