import Talkrypt.Lib.Run
import Talkrypt.Lib.SlidingWindow
import Talkrypt.Lib.Table

/-!
# Duty-cycle pacing (`crates/transport/src/mesh/pacing.rs`)

A paced node asks its airtime budget how long to wait, sleeps, and then records the transmission. Asking and
recording are two sections of one lock, so other calls may record in between, and the time that was waited does
not account for them. The clock is read under the lock. Airtimes are exact rationals here, and sums of times wrap
at 64 bits.
-/

namespace Talkrypt.Transport
open SlidingWindow

/-! ## Time on air -/

structure LoraParams where
  spreadingFactor : Nat
  bandwidthHz : Nat
  codingRate : Nat
  preambleSymbols : Nat
  crc : Bool
  implicitHeader : Bool

namespace LoraParams

def tsymMs (p : LoraParams) : ℚ := 1000 * 2 ^ p.spreadingFactor / p.bandwidthHz

def lowDataRateOpt (p : LoraParams) : Bool := 16 < p.tsymMs

end LoraParams

inductive MeshtasticPreset where
  | shortTurbo
  | shortFast
  | shortSlow
  | mediumFast
  | mediumSlow
  | longFast
  | longModerate
  | longSlow

def MeshtasticPreset.params (preset : MeshtasticPreset) : LoraParams :=
  let (sf, bw) := match preset with
    | .shortTurbo => (7, 500000)
    | .shortFast => (7, 250000)
    | .shortSlow => (8, 250000)
    | .mediumFast => (9, 250000)
    | .mediumSlow => (10, 250000)
    | .longFast => (11, 250000)
    | .longModerate => (11, 125000)
    | .longSlow => (12, 125000)
  { spreadingFactor := sf, bandwidthHz := bw, codingRate := 1, preambleSymbols := 16, crc := true
    implicitHeader := false }

def airtimeMs (payloadLen : Nat) (p : LoraParams) : ℚ :=
  let tPreamble := (p.preambleSymbols + 17 / 4) * p.tsymMs
  let de : ℚ := if p.lowDataRateOpt then 1 else 0
  let crc : ℚ := if p.crc then 1 else 0
  let ih : ℚ := if p.implicitHeader then 1 else 0
  let numerator : ℚ := 8 * payloadLen - 4 * p.spreadingFactor + 28 + 16 * crc - 20 * ih
  let denominator : ℚ := 4 * (p.spreadingFactor - 2 * de)
  let payloadSymb : ℚ := 8 + max (⌈numerator / denominator⌉ : ℚ) 0 * (p.codingRate + 4)
  tPreamble + payloadSymb * p.tsymMs

/-! ## The budget -/

def addMs (a b : Nat) : Nat := (a + b) % 2 ^ 64

theorem addMs_of_lt {a b : Nat} (h : a + b < 2 ^ 64) : addMs a b = a + b := Nat.mod_eq_of_lt h

structure AirtimeBudget where
  windowMs : Nat
  budgetMs : ℚ
  minGapMs : Nat
  log : List (Nat × ℚ) := []
  totalMs : ℚ := 0
  lastSentMs : Option Nat := none

namespace AirtimeBudget

def new (windowMs : Nat) (dutyCycle : ℚ) (minGapMs : Nat) : AirtimeBudget where
  windowMs := max windowMs 1
  budgetMs := windowMs * max 0 (min dutyCycle 1)
  minGapMs

/-- Drop the entries at the front that are older than the cutoff, and their airtime. -/
def pruneLog (cutoff : Nat) : List (Nat × ℚ) → ℚ → List (Nat × ℚ) × ℚ
  | [], total => ([], total)
  | (t, air) :: log, total => if t < cutoff then pruneLog cutoff log (total - air) else ((t, air) :: log, total)

def prune (b : AirtimeBudget) (nowMs : Nat) : AirtimeBudget :=
  let (log, total) := pruneLog (nowMs - b.windowMs) b.log b.totalMs
  { b with log, totalMs := if total < 0 then 0 else total }

def gapWait (b : AirtimeBudget) (nowMs : Nat) : Nat :=
  match b.lastSentMs with
  | some last => addMs last b.minGapMs - nowMs
  | none => 0

def dutyWait (b : AirtimeBudget) (nowMs : Nat) (airtime : ℚ) : Nat :=
  if b.budgetMs < b.totalMs + airtime then
    match freeing (b.totalMs + airtime - b.budgetMs) 0 b.log with
    | some t => addMs t b.windowMs - nowMs
    | none =>
      -- the packet is bigger than the budget
      match b.log.getLast? with
      | some e => addMs e.1 b.windowMs - nowMs
      | none => 0
  else 0

/-- How long a packet has to wait, and the budget without the entries that are too old. -/
def delayMs (b : AirtimeBudget) (nowMs : Nat) (airtime : ℚ) : Nat × AirtimeBudget :=
  let b := b.prune nowMs
  (max (b.gapWait nowMs) (b.dutyWait nowMs airtime), b)

def record (b : AirtimeBudget) (nowMs : Nat) (airtime : ℚ) : AirtimeBudget :=
  let b := b.prune nowMs
  { b with log := b.log ++ [(nowMs, airtime)], totalMs := b.totalMs + airtime, lastSentMs := some nowMs }

@[simp] theorem prune_minGapMs (b : AirtimeBudget) (nowMs : Nat) : (b.prune nowMs).minGapMs = b.minGapMs := rfl

theorem budgetMs_new_nonneg (windowMs : Nat) (dutyCycle : ℚ) (minGapMs : Nat) :
    0 ≤ (new windowMs dutyCycle minGapMs).budgetMs :=
  mul_nonneg (Nat.cast_nonneg _) (le_max_left _ _)

theorem pruneLog_split (cutoff : Nat) (log : List (Nat × ℚ)) (total : ℚ) :
    ∃ old, log = old ++ (pruneLog cutoff log total).1 ∧ (∀ e ∈ old, e.1 < cutoff) ∧
      total = weight old + (pruneLog cutoff log total).2 := by
  induction log generalizing total with
  | nil => exact ⟨[], rfl, nofun, (zero_add total).symm⟩
  | cons e log ih =>
    rw [pruneLog]
    split
    · next hold =>
      obtain ⟨old, hlog, hcut, htotal⟩ := ih (total - e.2)
      refine ⟨e :: old, by rw [List.cons_append, ← hlog], ?_, ?_⟩
      · intro e' he'
        rcases List.mem_cons.mp he' with rfl | he'
        · exact hold
        · exact hcut e' he'
      · rw [weight_cons, add_assoc, ← htotal]
        ring
    · exact ⟨[], rfl, nofun, (zero_add total).symm⟩

/-- The budget's own log is what the window can still need of everything sent, and its total is the log's. -/
structure Tracks (b : AirtimeBudget) (clock : Nat) (sent : List (Nat × ℚ)) : Prop where
  log : ∃ old, sent = old ++ b.log ∧ ∀ e ∈ old, e.1 + b.windowMs < clock
  total : b.totalMs = weight b.log
  last : b.lastSentMs = sent.getLast?.map Prod.fst

section

variable {b : AirtimeBudget} {clock now : Nat} {sent : List (Nat × ℚ)} {airtime : ℚ}

theorem Tracks.prune (h : b.Tracks clock sent) (hnonneg : ∀ e ∈ sent, 0 ≤ e.2) (hle : clock ≤ now) :
    (b.prune now).Tracks now sent := by
  obtain ⟨old, hsent, hold⟩ := h.log
  obtain ⟨old', hlog, hcut, htotal⟩ := pruneLog_split (now - b.windowMs) b.log b.totalMs
  have hpruned : (b.prune now).log = (pruneLog (now - b.windowMs) b.log b.totalMs).1 := rfl
  have hweight : (pruneLog (now - b.windowMs) b.log b.totalMs).2 = weight (b.prune now).log := by
    have hsum : weight b.log = weight old' + weight (b.prune now).log := by rw [hpruned, ← weight_append, ← hlog]
    linarith [h.total]
  refine ⟨⟨old ++ old', ?_, ?_⟩, ?_, h.last⟩
  · rw [hpruned, List.append_assoc, ← hlog]
    exact hsent
  · intro e he
    show e.1 + b.windowMs < now
    rcases List.mem_append.mp he with he | he
    · have := hold e he
      omega
    · have := hcut e he
      omega
  · have hrest : ∀ e ∈ (b.prune now).log, 0 ≤ e.2 := fun e he => hnonneg e (by
      rw [hsent, hlog, ← hpruned]
      simp [he])
    show (if (pruneLog (now - b.windowMs) b.log b.totalMs).2 < 0 then 0 else _) = _
    rw [hweight, if_neg (not_lt.mpr (weight_nonneg hrest))]

theorem Tracks.record (h : b.Tracks clock sent) (hnonneg : ∀ e ∈ sent, 0 ≤ e.2) (hle : clock ≤ now) :
    (b.record now airtime).Tracks now (sent ++ [(now, airtime)]) := by
  have hpruned := h.prune hnonneg hle
  obtain ⟨old, hsent, hold⟩ := hpruned.log
  refine ⟨⟨old, ?_, hold⟩, ?_, ?_⟩
  · show sent ++ _ = old ++ ((b.prune now).log ++ [(now, airtime)])
    rw [← List.append_assoc, ← hsent]
  · show (b.prune now).totalMs + airtime = weight ((b.prune now).log ++ [(now, airtime)])
    rw [weight_append, hpruned.total, weight_cons, weight_nil, add_zero]
  · rw [List.getLast?_append_of_ne_nil _ (by simp)]
    rfl

theorem held_eq_of_pruned (h : b.Tracks now sent) {t : Nat} (hle : now ≤ t) :
    held b.windowMs t sent = held b.windowMs t b.log := by
  obtain ⟨old, hsent, hold⟩ := h.log
  have hgone : held b.windowMs t old = 0 := by
    refine held_eq_zero fun e he => .inl ?_
    have := hold e he
    omega
  rw [hsent, held_append, hgone, zero_add]

theorem Tracks.gapWait (h : b.Tracks now sent) (hsmall : ∀ e ∈ sent, e.1 + b.minGapMs < 2 ^ 64) :
    ∀ e ∈ sent.getLast?, e.1 + b.minGapMs ≤ now + b.gapWait now := by
  intro e he
  have hlast : b.lastSentMs = some e.1 := by rw [h.last, he]; rfl
  rw [AirtimeBudget.gapWait, hlast]
  simp only [addMs_of_lt (hsmall e (List.mem_of_getLast? he))]
  omega

theorem Tracks.dutyWait (h : b.Tracks now sent) (hnonneg : ∀ e ∈ sent, 0 ≤ e.2) (hsorted : Sorted sent)
    (hsmall : ∀ e ∈ sent, e.1 + b.windowMs < 2 ^ 64) (hair : airtime ≤ b.budgetMs) {t : Nat}
    (hle : now + b.dutyWait now airtime ≤ t) : held b.windowMs t sent + airtime ≤ b.budgetMs := by
  obtain ⟨old, hsent, -⟩ := h.log
  have hmem : ∀ e ∈ b.log, e ∈ sent := fun e he => by rw [hsent]; exact List.mem_append_right old he
  have hlog : ∀ e ∈ b.log, 0 ≤ e.2 := fun e he => hnonneg e (hmem e he)
  have hlogSorted : Sorted b.log := (List.pairwise_append.mp (hsent ▸ hsorted)).2.1
  rw [held_eq_of_pruned h (by omega)]
  rw [AirtimeBudget.dutyWait] at hle
  split at hle
  · next hover =>
    cases hfree : freeing (b.totalMs + airtime - b.budgetMs) 0 b.log with
    | some t₀ =>
      simp only [hfree] at hle
      obtain ⟨e, he, rfl⟩ := exists_mem_of_freeing hfree
      rw [addMs_of_lt (hsmall e (hmem e he))] at hle
      have hheld := held_of_freeing hlogSorted hlog hfree (show e.1 + b.windowMs ≤ t by omega)
      rw [← h.total] at hheld
      linarith
    | none =>
      -- a packet within the budget always finds enough to wait for
      have hlt := lt_of_freeing_eq_none hfree (by linarith)
      rw [← h.total] at hlt
      linarith
  · next hunder =>
    have hheld := held_le_weight (w := b.windowMs) (t := t) hlog
    rw [← h.total] at hheld
    linarith

/-- What waiting is for: after the wait there is room in the window, and the gap to the last transmission is
kept, as long as nothing else was sent. -/
theorem Tracks.delayMs (h : b.Tracks clock sent) (hnonneg : ∀ e ∈ sent, 0 ≤ e.2) (hsorted : Sorted sent)
    (hsmall : ∀ e ∈ sent, e.1 + b.windowMs < 2 ^ 64 ∧ e.1 + b.minGapMs < 2 ^ 64) (hle : clock ≤ now)
    (hair : airtime ≤ b.budgetMs) :
    (∀ t, now + (b.delayMs now airtime).1 ≤ t → held b.windowMs t sent + airtime ≤ b.budgetMs) ∧
      ∀ e ∈ sent.getLast?, e.1 + b.minGapMs ≤ now + (b.delayMs now airtime).1 := by
  have hpruned := h.prune hnonneg hle
  have hgap := hpruned.gapWait fun e he => (hsmall e he).2
  have hgapLe : (b.prune now).gapWait now ≤ (b.delayMs now airtime).1 := le_max_left _ _
  have hdutyLe : (b.prune now).dutyWait now airtime ≤ (b.delayMs now airtime).1 := le_max_right _ _
  refine ⟨fun t ht => ?_, fun e he => ?_⟩
  · exact hpruned.dutyWait hnonneg hsorted (fun e he => (hsmall e he).1) hair (by omega)
  · have := hgap e he
    rw [prune_minGapMs] at this
    omega

end

end AirtimeBudget

/-! ## Concurrent sends -/

/-- A call of `send` that has computed its delay and sleeps until `due`. -/
structure Waiting where
  airtime : ℚ
  due : Nat
  /-- How many transmissions had been recorded when the delay was computed. -/
  mark : Nat

/-- A paced node with the calls in progress on it. `sent` is the history of recorded transmissions. -/
structure PacedMeshNode where
  budget : AirtimeBudget
  clock : Nat := 0
  calls : Table Nat Waiting := ∅
  sent : List (Nat × ℚ) := []

/-- The two sections of a call in which it holds the lock of the budget, with the time read there. -/
inductive Section where
  | delay (call nowMs : Nat) (airtime : ℚ)
  | record (call nowMs : Nat)

/-- The first section of a call that sends a packet of the given length. -/
def MeshtasticPreset.send (preset : MeshtasticPreset) (call nowMs payloadLen : Nat) : Section :=
  .delay call nowMs (airtimeMs payloadLen preset.params)

namespace PacedMeshNode

/-- The clock does not go back, and a call does not wake before its delay is over. -/
def step (n : PacedMeshNode) : Section → PacedMeshNode
  | .delay call now airtime =>
    if n.clock ≤ now then
      let (delay, budget) := n.budget.delayMs now airtime
      { n with budget, clock := now, calls := n.calls.insert call ⟨airtime, now + delay, n.sent.length⟩ }
    else n
  | .record call now =>
    match n.calls.lookup call with
    | none => n
    | some c =>
      if n.clock ≤ now ∧ c.due ≤ now then
        { n with
          budget := n.budget.record now c.airtime, clock := now, calls := n.calls.erase call
          sent := n.sent ++ [(now, c.airtime)] }
      else n

/-- The airtimes are those that the budget is for, times do not wrap, and nothing was recorded between the two
sections of a call. -/
def Orderly (n : PacedMeshNode) : Section → Prop
  | .delay _ _ airtime => 0 ≤ airtime ∧ airtime ≤ n.budget.budgetMs
  | .record call now =>
    (now + n.budget.windowMs < 2 ^ 64 ∧ now + n.budget.minGapMs < 2 ^ 64) ∧
      ∀ c ∈ n.calls.lookup call, c.mark = n.sent.length

instance (n : PacedMeshNode) : ∀ e, Decidable (n.Orderly e)
  | .delay _ _ airtime => inferInstanceAs (Decidable (0 ≤ airtime ∧ airtime ≤ n.budget.budgetMs))
  | .record call now => inferInstanceAs (Decidable ((now + n.budget.windowMs < 2 ^ 64 ∧
      now + n.budget.minGapMs < 2 ^ 64) ∧ ∀ c ∈ n.calls.lookup call, c.mark = n.sent.length))

/-- The airtime sent in the window that ends at a transmission is within the budget, and consecutive
transmissions keep the gap. -/
structure WithinLimits (n : PacedMeshNode) : Prop where
  duty : ∀ e ∈ n.sent, held n.budget.windowMs e.1 n.sent ≤ n.budget.budgetMs
  gap : n.sent.IsChain fun e e' => e.1 + n.budget.minGapMs ≤ e'.1

/-- A call that nothing was recorded after may send once it is due. -/
structure Granted (n : PacedMeshNode) (c : Waiting) : Prop where
  room : ∀ t, c.due ≤ t → held n.budget.windowMs t n.sent + c.airtime ≤ n.budget.budgetMs
  gap : ∀ e ∈ n.sent.getLast?, e.1 + n.budget.minGapMs ≤ c.due

structure Inv (n : PacedMeshNode) : Prop where
  tracks : n.budget.Tracks n.clock n.sent
  sorted : Sorted n.sent
  past : ∀ e ∈ n.sent, e.1 ≤ n.clock
  nonneg : ∀ e ∈ n.sent, 0 ≤ e.2
  small : ∀ e ∈ n.sent, e.1 + n.budget.windowMs < 2 ^ 64 ∧ e.1 + n.budget.minGapMs < 2 ^ 64
  held : ∀ t, held n.budget.windowMs t n.sent ≤ n.budget.budgetMs
  gap : n.sent.IsChain fun e e' => e.1 + n.budget.minGapMs ≤ e'.1
  calls : ∀ {i c}, n.calls.lookup i = some c →
    0 ≤ c.airtime ∧ c.mark ≤ n.sent.length ∧ (c.mark = n.sent.length → n.Granted c)

variable {n : PacedMeshNode}

theorem Inv.withinLimits (h : n.Inv) : n.WithinLimits := ⟨fun e _ => h.held e.1, h.gap⟩

theorem inv_new (windowMs : Nat) (dutyCycle : ℚ) (minGapMs : Nat) :
    ({ budget := .new windowMs dutyCycle minGapMs } : PacedMeshNode).Inv where
  tracks := ⟨⟨[], rfl, nofun⟩, rfl, rfl⟩
  sorted := .nil
  past := nofun
  nonneg := nofun
  small := nofun
  held _ := AirtimeBudget.budgetMs_new_nonneg windowMs dutyCycle minGapMs
  gap := .nil
  calls h := nomatch h

theorem Inv.step_delay (h : n.Inv) {call now : Nat} {airtime : ℚ} (hair : 0 ≤ airtime ∧ airtime ≤ n.budget.budgetMs) :
    (n.step (.delay call now airtime)).Inv := by
  rw [step]
  split
  · next hle =>
    obtain ⟨hroom, hgap⟩ := h.tracks.delayMs h.nonneg h.sorted h.small hle hair.2
    refine ⟨h.tracks.prune h.nonneg hle, h.sorted, fun e he => (h.past e he).trans hle, h.nonneg, h.small, h.held,
      h.gap, fun {i c} hi => ?_⟩
    rw [Table.lookup_insert_eq] at hi
    split at hi
    · cases hi
      exact ⟨hair.1, le_refl _, fun _ => ⟨hroom, hgap⟩⟩
    · obtain ⟨hnonneg, hmark, hgranted⟩ := h.calls hi
      exact ⟨hnonneg, hmark, fun heq => ⟨(hgranted heq).room, (hgranted heq).gap⟩⟩
  · exact h

theorem Inv.step_record (h : n.Inv) {call now : Nat} (hok : n.Orderly (.record call now)) :
    (n.step (.record call now)).Inv := by
  rw [step]
  cases hc : n.calls.lookup call with
  | none => exact h
  | some c =>
    obtain ⟨hsmall, hmark⟩ := hok
    obtain ⟨hair, -, hgranted⟩ := h.calls hc
    have hgrant := hgranted (hmark c hc)
    dsimp only
    split
    · next hle =>
      have hpast : ∀ e ∈ n.sent, e.1 ≤ now := fun e he => (h.past e he).trans hle.1
      -- the new transmission is the last one
      have hforall {P : Nat × ℚ → Prop} (hall : ∀ e ∈ n.sent, P e) (hnew : P (now, c.airtime)) :
          ∀ e ∈ n.sent ++ [(now, c.airtime)], P e := by
        intro e he
        rcases List.mem_append.mp he with he | he
        · exact hall e he
        · rw [List.mem_singleton.mp he]
          exact hnew
      refine ⟨h.tracks.record h.nonneg hle.1, ?_, hforall hpast (le_refl now), hforall h.nonneg hair,
        hforall h.small hsmall, held_concat_le h.nonneg hair hpast h.held (hgrant.room now hle.2), ?_, ?_⟩
      · refine List.pairwise_append.mpr ⟨h.sorted, List.pairwise_singleton _ _, fun e he e' he' => ?_⟩
        rw [List.mem_singleton.mp he']
        exact hpast e he
      · refine List.isChain_append.mpr ⟨h.gap, List.isChain_singleton _, fun e he e' he' => ?_⟩
        cases he'
        exact (hgrant.gap e he).trans hle.2
      · intro i c' hi
        rw [Table.lookup_erase_eq] at hi
        split at hi
        · cases hi
        · obtain ⟨hnonneg, hle', -⟩ := h.calls hi
          rw [List.length_append, List.length_singleton]
          exact ⟨hnonneg, hle'.trans (Nat.le_succ _), fun heq => absurd heq (by omega)⟩
    · exact h

theorem Inv.step (h : n.Inv) (e : Section) (hok : n.Orderly e) : (n.step e).Inv := by
  cases e with
  | delay call now airtime => exact h.step_delay hok
  | record call now => exact h.step_record hok

/-- Where no two sends overlap in a recorded transmission, the duty cycle and the gap are kept. -/
theorem withinLimits_of_orderly (windowMs : Nat) (dutyCycle : ℚ) (minGapMs : Nat) {es : List Section}
    (h : Run.Along step Orderly { budget := .new windowMs dutyCycle minGapMs } es) :
    (es.foldl step { budget := .new windowMs dutyCycle minGapMs }).WithinLimits :=
  (h.invariant (fun _ e hn hok => hn.step e hok) (inv_new windowMs dutyCycle minGapMs)).withinLimits

namespace Sample

/-- One twentieth of a minute, and a quarter of a second between packets. -/
def node : PacedMeshNode := { budget := .new 60000 (1 / 20) 250 }

theorem withinLimits_of_orderly_two :
    Run.Along step Orderly node [MeshtasticPreset.longFast.send 0 10 200, .record 0 10,
      MeshtasticPreset.longFast.send 1 20 200, .record 1 60010] ∧
    ([MeshtasticPreset.longFast.send 0 10 200, .record 0 10, MeshtasticPreset.longFast.send 1 20 200,
      .record 1 60010].foldl step node).WithinLimits := by
  have horderly : Run.Along step Orderly node [MeshtasticPreset.longFast.send 0 10 200, .record 0 10,
      MeshtasticPreset.longFast.send 1 20 200, .record 1 60010] := by decide +kernel
  exact ⟨horderly, withinLimits_of_orderly 60000 (1 / 20) 250 horderly⟩

/-- Two sends at once: neither sees the other's transmission, both are told not to wait, and together they use
more than the budget without any gap. -/
theorem concurrent_sends :
    (([MeshtasticPreset.longFast.send 0 10 200, MeshtasticPreset.longFast.send 1 10 200, .record 0 10,
      .record 1 10].foldl step node).sent = [(10, 218368 / 125), (10, 218368 / 125)]) ∧
    ¬ ([MeshtasticPreset.longFast.send 0 10 200, MeshtasticPreset.longFast.send 1 10 200, .record 0 10,
      .record 1 10].foldl step node).WithinLimits := by
  have hsent : ([MeshtasticPreset.longFast.send 0 10 200, MeshtasticPreset.longFast.send 1 10 200, .record 0 10,
      .record 1 10].foldl step node).sent = [(10, 218368 / 125), (10, 218368 / 125)] := by decide +kernel
  refine ⟨hsent, fun h => ?_⟩
  exact absurd (h.duty (10, 218368 / 125) (by rw [hsent]; simp)) (by decide +kernel)

end Sample
end PacedMeshNode
end Talkrypt.Transport
