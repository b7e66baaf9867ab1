import Talkrypt.Helper.KeyStore

/-!
# Concurrent calls of the key store

The calls on one name, interleaved operation by operation. A `put` writes the data before the tier, so that a call
which runs between the two, or an operation that fails there, leaves the tier of one key with the data of another.
-/

namespace Talkrypt.Helper

inductive Call where
  /-- `before` is what `get` returned when the call began, `begun` whether the call has changed anything. -/
  | put (key : Key) (before : Option Key) (begun : Bool) (rest : List Op)
  | getTier
  | getData (tier : CustodyTier)
  | delete (rest : List Op)

def Call.isPut : Call → Bool
  | put _ _ _ _ => true
  | _ => false

/-- The store of one name and the calls in progress. The last three fields are the history: the keys put, the
results of `get`, and for each failed `put` what `get` returned before and after. -/
structure KeyStore where
  hw : Option HwWrapper := none
  name : String
  backends : Backends := {}
  calls : Table Nat Call := ∅
  puts : List Key := []
  returned : List Key := []
  failed : List (Option Key × Option Key) := []

inductive Event where
  | put (call coins : Nat) (tier : CustodyTier) (blob : Bytes)
  | get (call : Nat)
  | delete (call : Nat)
  | act (call : Nat) (o : Outcome)

namespace KeyStore

def visible (s : KeyStore) : Option Key := get s.hw s.name s.backends

def setCall (s : KeyStore) (i : Nat) (c : Call) : KeyStore := { s with calls := s.calls.insert i c }

def finish (s : KeyStore) (i : Nat) : KeyStore := { s with calls := s.calls.erase i }

def actPut (s : KeyStore) (i : Nat) (key : Key) (before : Option Key) (begun : Bool) (op : Op) (rest : List Op)
    (o : Outcome) : KeyStore :=
  let s' := { s with backends := (op.run s.backends o).1 }
  if (op.run s.backends o).2 then
    if rest.isEmpty then s'.finish i else s'.setCall i (.put key before (begun || !op.passive) rest)
  else { s'.finish i with failed := s.failed ++ [(before, s'.visible)] }

def actDelete (s : KeyStore) (i : Nat) (op : Op) (rest : List Op) (o : Outcome) : KeyStore :=
  let s' := { s with backends := (op.run s.backends o).1 }
  if (op.run s.backends o).2 ∧ rest ≠ [] then s'.setCall i (.delete rest) else s'.finish i

def actGetTier (s : KeyStore) (i : Nat) : Outcome → KeyStore
  | .fails _ => s.finish i
  | .works =>
    match tierOf s.name s.backends with
    | none => s.finish i
    | some tier => s.setCall i (.getData tier)

def actGetData (s : KeyStore) (i : Nat) (tier : CustodyTier) : Outcome → KeyStore
  | .fails _ => s.finish i
  | .works =>
    match dataOf s.hw s.backends tier with
    | none => s.finish i
    | some bytes => { s.finish i with returned := s.returned ++ [(tier, bytes)] }

def act (s : KeyStore) (i : Nat) (o : Outcome) : KeyStore :=
  match s.calls.lookup i with
  | none => s
  | some (.put _ _ _ []) => s
  | some (.put key before begun (op :: rest)) => s.actPut i key before begun op rest o
  | some .getTier => s.actGetTier i o
  | some (.getData tier) => s.actGetData i tier o
  | some (.delete []) => s
  | some (.delete (op :: rest)) => s.actDelete i op rest o

def step (s : KeyStore) : Event → KeyStore
  | .put i coins tier blob =>
    if s.calls.lookup i = none then
      { s.setCall i (.put (tier, blob) s.visible false (put s.hw s.name coins tier blob)) with
        puts := s.puts ++ [(tier, blob)] }
    else s
  | .get i => if s.calls.lookup i = none then s.setCall i .getTier else s
  | .delete i => if s.calls.lookup i = none then s.setCall i (.delete (delete s.name)) else s
  | .act i o => s.act i o

def OrderlyAct (s : KeyStore) (o : Outcome) : Option Call → Prop
  | some (.put _ _ begun (op :: _)) =>
    (op.run s.backends o).2 = false → begun = false ∧ op.isFill = false
  | _ => True

instance (s : KeyStore) (o : Outcome) : ∀ c, Decidable (s.OrderlyAct o c)
  | none => inferInstanceAs (Decidable True)
  | some (.put _ _ _ []) => inferInstanceAs (Decidable True)
  | some (.put _ _ begun (op :: _)) =>
    inferInstanceAs (Decidable ((op.run s.backends o).2 = false → begun = false ∧ op.isFill = false))
  | some .getTier => inferInstanceAs (Decidable True)
  | some (.getData _) => inferInstanceAs (Decidable True)
  | some (.delete _) => inferInstanceAs (Decidable True)

/-- A `put` runs alone, and fails only as long as it has changed nothing. -/
def Orderly (s : KeyStore) : Event → Prop
  | .put _ _ _ _ => s.calls.toList = []
  | .get _ => ∀ e ∈ s.calls.toList, e.2.isPut = false
  | .delete _ => ∀ e ∈ s.calls.toList, e.2.isPut = false
  | .act i o => s.OrderlyAct o (s.calls.lookup i)

instance (s : KeyStore) : ∀ e, Decidable (s.Orderly e)
  | .put _ _ _ _ => inferInstanceAs (Decidable (s.calls.toList = []))
  | .get _ => inferInstanceAs (Decidable (∀ e ∈ s.calls.toList, e.2.isPut = false))
  | .delete _ => inferInstanceAs (Decidable (∀ e ∈ s.calls.toList, e.2.isPut = false))
  | .act i o => inferInstanceAs (Decidable (s.OrderlyAct o (s.calls.lookup i)))

/-- What `get` returned is one put's key, and a failed `put` left the key that was stored. -/
structure Atomic (s : KeyStore) : Prop where
  returned : ∀ key ∈ s.returned, key ∈ s.puts
  failed : ∀ p ∈ s.failed, ∀ key, p.1 = some key → p.2 = some key

def Writing (s : KeyStore) : Prop := ∃ i key before rest, s.calls.lookup i = some (.put key before true rest)

end KeyStore

/-- What holds of each call in progress, over what is stored and the keys put. -/
def Call.Sound (hw : Option HwWrapper) (name : String) (b : Backends) (puts : List Key) : Call → Prop
  | put key before begun rest =>
    key ∈ puts ∧ (∀ b', runAll b rest = some b' → get hw name b' = some key) ∧
      (begun = false → get hw name b = before) ∧ .keychainDelete ∉ rest
  | getTier => True
  | getData tier => ∀ bytes, dataOf hw b tier = some bytes → (tier, bytes) ∈ puts
  | delete rest => ∀ op ∈ rest, op.removes = true

theorem Call.Sound.shrink {hw : Option HwWrapper} {name : String} {b b' : Backends} {puts : List Key} {c : Call}
    (h : c.Sound hw name b puts) (hput : c.isPut = false) (hb : b.Shrunk b') : c.Sound hw name b' puts := by
  cases c with
  | put key before begun rest => cases hput
  | getTier => trivial
  | getData tier => exact fun bytes hbytes => h bytes (hb.dataOf hbytes)
  | delete rest => exact h

namespace KeyStore

structure Inv (s : KeyStore) : Prop extends Atomic s where
  alone : ∀ {i c j c'}, s.calls.lookup i = some c → s.calls.lookup j = some c' → c.isPut = true → j = i
  calls : ∀ {i c}, s.calls.lookup i = some c → c.Sound s.hw s.name s.backends s.puts
  stored : ¬ s.Writing → ∀ key, s.visible = some key → key ∈ s.puts

variable {s : KeyStore}

theorem inv_empty (hw : Option HwWrapper) (name : String) : ({ hw, name } : KeyStore).Inv where
  returned := nofun
  failed := nofun
  alone h := nomatch h
  calls h := nomatch h
  stored _ key h := by
    obtain ⟨htier, -⟩ := get_eq_some.mp h
    rw [tierOf] at htier
    split at htier <;> cases htier

/-! ### Steps of `get` and `delete` -/

def Quiet (s : KeyStore) : Prop := ∀ {i c}, s.calls.lookup i = some c → c.isPut = false

theorem Quiet.not_writing (h : s.Quiet) : ¬ s.Writing := by
  rintro ⟨i, key, before, rest, hi⟩
  cases h hi

variable {i : Nat} {b : Backends} {rest : List Op}

theorem Inv.quiet (h : s.Inv) {c : Call} (hi : s.calls.lookup i = some c) (hput : c.isPut = false) : s.Quiet := by
  intro j c' hj
  cases hput' : c'.isPut with
  | false => rfl
  | true =>
    obtain rfl := h.alone hj hi hput'
    rw [Option.some.inj (hj.symm.trans hi), hput] at hput'
    cases hput'

theorem Inv.of_shrunk (h : s.Inv) (hquiet : s.Quiet) (hb : s.backends.Shrunk b) {m : Table Nat Call}
    (hm : ∀ {j c}, m.lookup j = some c → s.calls.lookup j = some c ∨ c.isPut = false ∧ c.Sound s.hw s.name b s.puts) :
    ({ s with backends := b, calls := m } : KeyStore).Inv := by
  have hquiet' : ({ s with backends := b, calls := m } : KeyStore).Quiet := by
    intro j c hj
    rcases hm hj with hj | hj
    · exact hquiet hj
    · exact hj.1
  refine ⟨⟨h.returned, h.failed⟩, fun {i c j c'} hi _ hput => ?_, fun {i c} hi => ?_, fun _ key hkey => ?_⟩
  · rw [hquiet' hi] at hput
    cases hput
  · rcases hm hi with hi | hi
    · exact (h.calls hi).shrink (hquiet hi) hb
    · exact hi.2
  · exact h.stored hquiet.not_writing key (hb.get hkey)

theorem Inv.finish (h : s.Inv) (hquiet : s.Quiet) (hb : s.backends.Shrunk b) (i : Nat) :
    ({ s with backends := b }.finish i).Inv := by
  refine h.of_shrunk hquiet hb fun {j c} hj => .inl ?_
  rw [Table.lookup_erase_eq] at hj
  split at hj
  · cases hj
  · exact hj

theorem Inv.setCall (h : s.Inv) (hquiet : s.Quiet) (hb : s.backends.Shrunk b) (i : Nat) {c : Call}
    (hput : c.isPut = false) (hc : c.Sound s.hw s.name b s.puts) : ({ s with backends := b }.setCall i c).Inv := by
  refine h.of_shrunk hquiet hb fun {j c'} hj => ?_
  rw [Table.lookup_insert_eq] at hj
  split at hj
  · cases hj
    exact .inr ⟨hput, hc⟩
  · exact .inl hj

theorem Inv.actGetTier (h : s.Inv) (hi : s.calls.lookup i = some .getTier) (o : Outcome) :
    (s.actGetTier i o).Inv := by
  have hquiet : s.Quiet := h.quiet hi rfl
  cases o with
  | fails written => exact h.finish hquiet (.refl _) i
  | works =>
    rw [KeyStore.actGetTier]
    cases htier : tierOf s.name s.backends with
    | none => exact h.finish hquiet (.refl _) i
    | some tier =>
      refine h.setCall hquiet (.refl _) i rfl fun bytes hbytes => ?_
      exact h.stored hquiet.not_writing (tier, bytes) (get_eq_some.mpr ⟨htier, hbytes⟩)

theorem Inv.actGetData (h : s.Inv) {tier : CustodyTier} (hi : s.calls.lookup i = some (.getData tier)) (o : Outcome) :
    (s.actGetData i tier o).Inv := by
  have hfinish := h.finish (h.quiet hi rfl) (.refl _) i
  cases o with
  | fails written => exact hfinish
  | works =>
    rw [KeyStore.actGetData]
    cases hdata : dataOf s.hw s.backends tier with
    | none => exact hfinish
    | some bytes =>
      refine ⟨⟨fun key hkey => ?_, hfinish.failed⟩, hfinish.alone, hfinish.calls, hfinish.stored⟩
      rcases List.mem_append.mp hkey with hkey | hkey
      · exact h.returned key hkey
      · rw [List.mem_singleton.mp hkey]
        exact h.calls hi bytes hdata

theorem Inv.actDelete (h : s.Inv) {op : Op} (hi : s.calls.lookup i = some (.delete (op :: rest))) (o : Outcome) :
    (s.actDelete i op rest o).Inv := by
  have hops : ∀ op' ∈ op :: rest, op'.removes = true := h.calls hi
  have hshrunk := Op.shrunk_run (hops op List.mem_cons_self) s.backends o
  rw [KeyStore.actDelete]
  split
  · exact h.setCall (h.quiet hi rfl) hshrunk i rfl fun op' hop' => hops op' (List.mem_cons_of_mem op hop')
  · exact h.finish (h.quiet hi rfl) hshrunk i

/-! ### Steps of `put` -/

theorem Inv.not_writing (h : s.Inv) {key : Key} {before : Option Key}
    (hi : s.calls.lookup i = some (.put key before false rest)) : ¬ s.Writing := by
  rintro ⟨j, key', before', rest', hj⟩
  obtain rfl := h.alone hi hj rfl
  cases hi.symm.trans hj

theorem Inv.actPut (h : s.Inv) {key : Key} {before : Option Key} {begun : Bool} {op : Op}
    (hi : s.calls.lookup i = some (.put key before begun (op :: rest))) {o : Outcome}
    (hok : s.OrderlyAct o (some (.put key before begun (op :: rest)))) :
    (s.actPut i key before begun op rest o).Inv := by
  obtain ⟨hkey, hrun, hbefore, hnot⟩ := h.calls hi
  have hother {j : Nat} {c : Call} (hj : s.calls.lookup j = some c) : j = i := h.alone hi hj rfl
  -- once the call has returned, nothing is in progress
  have hnone {j : Nat} {c : Call} (hj : (s.calls.erase i).lookup j = some c) : False := by
    rw [Table.lookup_erase_eq] at hj
    split at hj
    · cases hj
    · next hne => exact hne (hother hj)
  rw [KeyStore.actPut]
  dsimp only
  split
  · next hworked =>
    have hrun' : runAll s.backends (op :: rest) = runAll (op.run s.backends o).1 rest := by
      have hworks := Op.run_of_worked hworked fun heq => hnot (heq ▸ List.mem_cons_self)
      rw [runAll, ← hworks, if_pos hworked]
    split
    · next hempty =>
      obtain rfl := List.isEmpty_iff.mp hempty
      refine ⟨⟨h.returned, h.failed⟩, fun hj => (hnone hj).elim, fun hj => (hnone hj).elim, fun _ key' hkey' => ?_⟩
      have hstored := (hrun _ hrun').symm.trans hkey'
      rwa [← Option.some.inj hstored]
    · have hlast {j : Nat} {c : Call} (hj : (s.calls.insert i
          (.put key before (begun || !op.passive) rest)).lookup j = some c) :
          j = i ∧ c = .put key before (begun || !op.passive) rest := by
        rw [Table.lookup_insert_eq] at hj
        split at hj
        · next heq => exact ⟨heq, (Option.some.inj hj).symm⟩
        · next hne => exact absurd (hother hj) hne
      have hsame (hbegun : (begun || !op.passive) = false) :
          begun = false ∧ (op.run s.backends o).1 = s.backends := by
        simp only [Bool.or_eq_false_iff, Bool.not_eq_false'] at hbegun
        exact ⟨hbegun.1, Op.run_of_passive hbegun.2 s.backends o⟩
      refine ⟨⟨h.returned, h.failed⟩, fun hj hj' _ => ?_, fun hj => ?_, fun hwriting key' hkey' => ?_⟩
      · rw [(hlast hj).1, (hlast hj').1]
      · obtain ⟨rfl, rfl⟩ := hlast hj
        refine ⟨hkey, fun b hb => hrun b (hrun'.trans hb), fun hbegun => ?_,
          fun hmem => hnot (List.mem_cons_of_mem op hmem)⟩
        obtain ⟨hfalse, hbackends⟩ := hsame hbegun
        exact (congrArg (get s.hw s.name) hbackends).trans (hbefore hfalse)
      · -- a call that has changed nothing yet
        cases hbegun : begun || !op.passive with
        | true => exact absurd ⟨i, key, before, rest, by rw [← hbegun]; exact AList.lookup_insert _⟩ hwriting
        | false =>
          obtain ⟨hfalse, hbackends⟩ := hsame hbegun
          exact h.stored (h.not_writing (hfalse ▸ hi)) key'
            ((congrArg (get s.hw s.name) hbackends).symm.trans hkey')
  · next hfailed =>
    obtain ⟨hfalse, hfill⟩ := hok (Bool.eq_false_iff.mpr hfailed)
    have hbackends := Op.run_of_failed (Bool.eq_false_iff.mpr hfailed) hfill
    have hvisible : get s.hw s.name (op.run s.backends o).1 = before :=
      (congrArg (get s.hw s.name) hbackends).trans (hbefore hfalse)
    refine ⟨⟨h.returned, fun p hp key' hkey' => ?_⟩, fun hj => (hnone hj).elim, fun hj => (hnone hj).elim,
      fun _ key' hkey' => ?_⟩
    · rcases List.mem_append.mp hp with hp | hp
      · exact h.failed p hp key' hkey'
      · rw [List.mem_singleton.mp hp] at hkey' ⊢
        exact hvisible.trans hkey'
    · exact h.stored (h.not_writing (hfalse ▸ hi)) key' ((congrArg (get s.hw s.name) hbackends).symm.trans hkey')

theorem Inv.act (h : s.Inv) {o : Outcome} (hok : s.Orderly (.act i o)) : (s.act i o).Inv := by
  have hok : s.OrderlyAct o (s.calls.lookup i) := hok
  rw [KeyStore.act]
  cases hi : s.calls.lookup i with
  | none => exact h
  | some c =>
    rw [hi] at hok
    cases c with
    | put key before begun rest =>
      cases rest with
      | nil => exact h
      | cons op rest => exact h.actPut hi hok
    | getTier => exact h.actGetTier hi o
    | getData tier => exact h.actGetData hi o
    | delete rest =>
      cases rest with
      | nil => exact h
      | cons op rest => exact h.actDelete hi o

theorem Inv.beginPut (h : s.Inv) (hidle : s.calls.toList = []) (i coins : Nat) (tier : CustodyTier) (blob : Bytes) :
    (s.step (.put i coins tier blob)).Inv := by
  have hnone (j : Nat) : s.calls.lookup j = none := by
    cases hj : s.calls.lookup j with
    | none => rfl
    | some c =>
      have hmem := Table.mem_toList.mpr hj
      rw [hidle] at hmem
      cases hmem
  have hquiet : s.Quiet := fun {j c} hj => by
    rw [hnone j] at hj
    cases hj
  have hlast {j : Nat} {c : Call} (hj : (s.calls.insert i
      (.put (tier, blob) s.visible false (put s.hw s.name coins tier blob))).lookup j = some c) :
      j = i ∧ c = .put (tier, blob) s.visible false (put s.hw s.name coins tier blob) := by
    rw [Table.lookup_insert_eq, hnone j] at hj
    split at hj
    · next heq => exact ⟨heq, (Option.some.inj hj).symm⟩
    · cases hj
  rw [step, if_pos (hnone i)]
  refine ⟨⟨fun key hkey => List.mem_append_left _ (h.returned key hkey), h.failed⟩, fun hj hj' _ => ?_, fun hj => ?_,
    fun _ key hkey => List.mem_append_left _ (h.stored hquiet.not_writing key hkey)⟩
  · rw [(hlast hj).1, (hlast hj').1]
  · obtain ⟨rfl, rfl⟩ := hlast hj
    exact ⟨List.mem_append_right _ List.mem_cons_self, fun b hb => get_of_runAll_put hb, fun _ => rfl,
      keychainDelete_notMem_put coins tier blob⟩

theorem Inv.step (h : s.Inv) (e : Event) (hok : s.Orderly e) : (s.step e).Inv := by
  have hquiet (hnone : ∀ e ∈ s.calls.toList, e.2.isPut = false) : s.Quiet := fun {i c} hi =>
    hnone (i, c) (Table.mem_toList.mpr hi)
  cases e with
  | put i coins tier blob => exact h.beginPut hok i coins tier blob
  | get i =>
    rw [KeyStore.step]
    split
    · exact h.setCall (hquiet hok) (.refl _) i rfl trivial
    · exact h
  | delete i =>
    rw [KeyStore.step]
    split
    · exact h.setCall (hquiet hok) (.refl _) i rfl fun _ => Op.removes_of_mem_delete
    · exact h
  | act i o => exact h.act hok

/-- Where each `put` runs alone and fails only before it has changed anything, the calls are atomic. -/
theorem atomic_of_orderly (hw : Option HwWrapper) (name : String) {es : List Event}
    (h : Run.Along step Orderly { hw, name } es) : (es.foldl step { hw, name }).Atomic :=
  (h.invariant (fun _ e hs hok => hs.step e hok) (inv_empty hw name)).toAtomic

namespace Sample

def marked : HwWrapper where
  hwSeal _ secret := some (7 :: secret)
  hwUnseal blob := if blob.head? = some 7 then some blob.tail else none
  hwUnseal_hwSeal h := by
    cases h
    rfl

def store : KeyStore := { hw := some marked, name := "k" }

/-- All operations of the call that put the first key. -/
def putFirst : List Event := .put 0 0 .softwareSealed [1] :: List.replicate 8 (.act 0 .works)

def readBack (call : Nat) : List Event := [.get call, .act call .works, .act call .works]

theorem atomic_of_orderly_read :
    Run.Along step Orderly store (putFirst ++ readBack 1) ∧
      ((putFirst ++ readBack 1).foldl step store).returned = [(.softwareSealed, [1])] ∧
      ((putFirst ++ readBack 1).foldl step store).Atomic := by
  have horderly : Run.Along step Orderly store (putFirst ++ readBack 1) := by decide +kernel
  exact ⟨horderly, by decide +kernel, atomic_of_orderly (some marked) "k" horderly⟩

/-- The second put fails when it writes its tier: it returns an error, and `get` returns its key from then on. -/
def failedPut : List Event :=
  putFirst ++ .put 1 0 .softwareSealed [2] :: List.replicate 5 (.act 1 .works) ++ [.act 1 (.fails 0)]

/-- A `get` between the data and the tier of a put to the hardware tier. -/
def getBetween : List Event :=
  putFirst ++ .put 1 0 .hardwareBacked [9] :: List.replicate 4 (.act 1 .works) ++ readBack 2

/-- A failed put that replaces the key, and a `get` that returns the tier of one put with the data of another. -/
theorem torn_puts :
    (failedPut.foldl step store).failed = [(some (.softwareSealed, [1]), some (.softwareSealed, [2]))] ∧
      ¬ (failedPut.foldl step store).Atomic ∧
    (getBetween.foldl step store).puts = [(.softwareSealed, [1]), (.hardwareBacked, [9])] ∧
      (getBetween.foldl step store).returned = [(.softwareSealed, [7, 9])] ∧
      ¬ (getBetween.foldl step store).Atomic := by
  have hfailed : (failedPut.foldl step store).failed =
      [(some (.softwareSealed, [1]), some (.softwareSealed, [2]))] := by decide +kernel
  have hputs : (getBetween.foldl step store).puts = [(.softwareSealed, [1]), (.hardwareBacked, [9])] := by
    decide +kernel
  have hreturned : (getBetween.foldl step store).returned = [(.softwareSealed, [7, 9])] := by decide +kernel
  refine ⟨hfailed, fun h => ?_, hputs, hreturned, fun h => ?_⟩
  · have hkept := h.failed _ (by rw [hfailed]; exact List.mem_cons_self) (.softwareSealed, [1]) rfl
    exact absurd hkept (by decide)
  · have hmem := h.returned (.softwareSealed, [7, 9]) (by rw [hreturned]; exact List.mem_cons_self)
    rw [hputs] at hmem
    exact absurd hmem (by decide)

end Sample
end KeyStore
end Talkrypt.Helper
