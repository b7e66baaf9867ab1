import Talkrypt.Lib.Run
import Talkrypt.Core.Transcripts

/-!
# Agreement on a handshake

Any number of handshakes run at once over a network that delivers what an adversary likes. A call of `initiate`
or `respond` is a run; identity keys also sign everything else that they sign. Where a signature under an honest
key verifies only if the key made it, a run that returns with an honest peer has a partner that saw the same
values, and with fresh nonces no two runs have the same partner (`World.agreement`).
-/

namespace Talkrypt.Core.Handshake
open TreeKem (Scheme)
open Account (Issuance)

variable {S : Scheme}

/-- Where a call of `initiate` stands after its `Init`. -/
inductive InitiatorState where
  | awaiting
  /-- It has signed its view; it returns if `Confirm` could be sent. -/
  | signed (view : View) (returned : Bool)
  | failed

structure Initiator (S : Scheme) where
  party : Party S
  nonceI : ByteArr 32
  coin : party.suite.Coin
  state : InitiatorState

inductive ResponderState where
  | awaiting
  | returned
  | failed
deriving DecidableEq

/-- A call of `respond` that has signed its view. -/
structure Responder (S : Scheme) where
  party : Party S
  nonceR : ByteArr 32
  view : View
  prekeySecret : party.suite.PrekeySecret
  state : ResponderState

/-- What identity keys sign besides handshakes. -/
inductive Other where
  | tagged (x : IdentitySigned) (h : x.Fits ∧ x.purpose ≠ .resp ∧ x.purpose ≠ .confirm)
  | issued (x : Issuance)

def Other.bytes : Other → Bytes
  | tagged x _ => x.bytes
  | issued x => x.bytes

structure World (S : Scheme) where
  initiators : List (Initiator S) := []
  responders : List (Responder S) := []
  log : List (IdentityPublic × Bytes) := []

inductive Act (S : Scheme) where
  | dial (party : Party S) (nonceI : ByteArr 32) (coin : party.suite.Coin)
  /-- A frame for an initiator; `up` says whether its stream takes `Confirm`. -/
  | resp (k : Nat) (frame : Bytes) (up : Bool)
  /-- A call of `respond` with its first frame; `up` says whether its stream takes `Resp`. -/
  | accept (party : Party S) (nonceR : ByteArr 32) (coin : party.suite.Coin) (frame : Bytes) (up : Bool)
  | confirm (j : Nat) (frame : Bytes)
  | sign (key : S.SigSeed) (x : Other)

namespace World

def onResp (w : World S) (k : Nat) (i : Initiator S) (frame : Bytes) (up : Bool) : World S :=
  match i.party.onResp i.nonceI i.coin frame with
  | .error _ => { w with initiators := w.initiators.set k { i with state := .failed } }
  | .ok (view, _, _) =>
    { w with
      initiators := w.initiators.set k { i with state := .signed view up }
      log := w.log ++ [(i.party.identityPublic, view.transcript T_CONFIRM)] }

def onInit (w : World S) (party : Party S) (nonceR : ByteArr 32) (coin : party.suite.Coin) (frame : Bytes)
    (up : Bool) : World S :=
  match party.onInit nonceR coin frame with
  | .error _ => w
  | .ok (view, prekeySecret, _) =>
    { w with
      responders := w.responders ++ [⟨party, nonceR, view, prekeySecret, if up then .awaiting else .failed⟩]
      log := w.log ++ [(party.identityPublic, view.transcript T_RESP)] }

def onConfirm (w : World S) (j : Nat) (r : Responder S) (frame : Bytes) : World S :=
  match r.party.onConfirm r.view r.prekeySecret frame with
  | .error _ => { w with responders := w.responders.set j { r with state := .failed } }
  | .ok _ => { w with responders := w.responders.set j { r with state := .returned } }

def step (w : World S) : Act S → World S
  | .dial party nonceI coin => { w with initiators := w.initiators ++ [⟨party, nonceI, coin, .awaiting⟩] }
  | .resp k frame up =>
    match w.initiators[k]? with
    | none => w
    | some i =>
      match i.state with
      | .awaiting => w.onResp k i frame up
      -- the call has read its frame
      | _ => w
  | .accept party nonceR coin frame up => w.onInit party nonceR coin frame up
  | .confirm j frame =>
    match w.responders[j]? with
    | none => w
    | some r => if r.state = .awaiting then w.onConfirm j r frame else w
  | .sign key x => { w with log := w.log ++ [(S.sigPublic key, x.bytes)] }

/-- Whatever this signature verifies for under an honest key was signed with that key. -/
def Made (honest : IdentityPublic → Prop) (w : World S) (sig : Bytes) : Prop :=
  ∀ pk m, honest pk → S.verify pk m sig = .ok () → (pk, m) ∈ w.log

/-- The signatures in delivered frames are not forged. -/
def Unforged (honest : IdentityPublic → Prop) (w : World S) : Act S → Prop
  | .resp _ frame _ => ∀ r, getResp.parse frame = .ok r → w.Made honest r.2.2.2
  | .confirm _ frame => ∀ sig, getConfirm.parse frame = .ok sig → w.Made honest sig
  | _ => True

def Initiated (w : World S) (k : Nat) (view : View) : Prop :=
  ∃ i, w.initiators[k]? = some i ∧ i.state = .signed view true

def Responded (w : World S) (j : Nat) (view : View) : Prop :=
  ∃ r, w.responders[j]? = some r ∧ r.state = .returned ∧ r.view = view

/-- The two calls, of the two parties of the view, saw the same values. -/
def Agree (w : World S) (k j : Nat) (view : View) : Prop :=
  ∃ i r up, w.initiators[k]? = some i ∧ w.responders[j]? = some r ∧ i.state = .signed view up ∧ r.view = view ∧
    i.party.identityPublic = view.idI ∧ r.party.identityPublic = view.idR ∧
    i.nonceI.1 = view.nonceI ∧ r.nonceR.1 = view.nonceR

end World

/-! ## What a call has checked -/

variable {pk : IdentityPublic}

theorem decodeIdentity_length {s t : Bytes} (h : decodeIdentity s = .ok (pk, t)) : pk.sigVk.length ≤ MAX_FRAME := by
  obtain ⟨blob, u, -, h⟩ := Reader.bind_eq_ok.mp h
  obtain ⟨⟨sigVk, rest⟩, v, hinner, h⟩ := Reader.bind_eq_ok.mp h
  dsimp only at h
  by_cases hrest : rest ≠ []
  · rw [if_pos hrest] at h
    cases h
  · rw [if_neg hrest] at h
    cases h
    exact (Reader.getBytes_eq_ok (Reader.lift_eq_ok hinner)).2

theorem parse_eq_ok {α : Type} {r : Reader CoreError α} {bytes : Bytes} {a : α} (h : r.parse bytes = .ok a) :
    ∃ t, r bytes = .ok (a, t) := by
  obtain ⟨⟨a', t⟩, hrun, rfl⟩ := except_map_eq_ok h
  exact ⟨t, hrun⟩

theorem getResp_lengths {frame : Bytes} {prekey nonceR sigR : Bytes}
    (h : getResp.parse frame = .ok (pk, prekey, nonceR, sigR)) :
    pk.sigVk.length ≤ MAX_FRAME ∧ prekey.length ≤ MAX_FRAME ∧ nonceR.length ≤ MAX_FRAME := by
  obtain ⟨t, h⟩ := parse_eq_ok h
  obtain ⟨pk', u, hpk, h⟩ := Reader.bind_eq_ok.mp h
  obtain ⟨prekey', v, hprekey, h⟩ := Reader.bind_eq_ok.mp h
  obtain ⟨nonceR', w, hnonceR, h⟩ := Reader.bind_eq_ok.mp h
  obtain ⟨sigR', x, -, h⟩ := Reader.bind_eq_ok.mp h
  cases h
  exact ⟨decodeIdentity_length hpk, (Reader.getBytes_eq_ok hprekey).2, (Reader.getBytes_eq_ok hnonceR).2⟩

theorem getInit_lengths {frame : Bytes} {nonceI : Bytes} (h : getInit.parse frame = .ok (pk, nonceI)) :
    pk.sigVk.length ≤ MAX_FRAME ∧ nonceI.length ≤ MAX_FRAME := by
  obtain ⟨t, h⟩ := parse_eq_ok h
  obtain ⟨pk', u, hpk, h⟩ := Reader.bind_eq_ok.mp h
  obtain ⟨nonceI', v, hnonceI, h⟩ := Reader.bind_eq_ok.mp h
  cases h
  exact ⟨decodeIdentity_length hpk, (Reader.getBytes_eq_ok hnonceI).2⟩

namespace Party
variable {p : Party S} {nonceI nonceR : ByteArr 32} {coin : p.suite.Coin} {frame sig : Bytes} {view : View}

theorem onResp_eq_ok {session : p.suite.Session} (h : p.onResp nonceI coin frame = .ok (view, session, sig)) :
    ∃ r, getResp.parse frame = .ok r ∧ view = p.initiatorView nonceI r.1 r.2.1 r.2.2.1 ∧
      S.verify view.idR (view.transcript T_RESP) r.2.2.2 = .ok () := by
  unfold onResp at h
  cases hparse : getResp.parse frame with
  | error e =>
    rw [hparse] at h
    cases h
  | ok r =>
    obtain ⟨pk, prekey, nonceR, sigR⟩ := r
    rw [hparse] at h
    dsimp only at h
    cases hverify : S.verify pk ((p.initiatorView nonceI pk prekey nonceR).transcript T_RESP) sigR with
    | error e =>
      rw [hverify] at h
      cases h
    | ok u =>
      rw [hverify] at h
      dsimp only at h
      split at h
      · cases h
      · cases h
        exact ⟨_, rfl, rfl, hverify⟩

theorem onInit_eq_ok {secret : p.suite.PrekeySecret} (h : p.onInit nonceR coin frame = .ok (view, secret, sig)) :
    ∃ r, getInit.parse frame = .ok r ∧ view = p.responderView r.1 r.2 (p.suite.generatePrekey coin).1 nonceR := by
  unfold onInit at h
  cases hparse : getInit.parse frame with
  | error e =>
    rw [hparse] at h
    cases h
  | ok r =>
    rw [hparse] at h
    cases h
    exact ⟨_, rfl, rfl⟩

theorem onConfirm_eq_ok {secret : p.suite.PrekeySecret} {session : p.suite.Session}
    (h : p.onConfirm view secret frame = .ok session) :
    ∃ sigI, getConfirm.parse frame = .ok sigI ∧ S.verify view.idI (view.transcript T_CONFIRM) sigI = .ok () := by
  unfold onConfirm at h
  cases hparse : getConfirm.parse frame with
  | error e =>
    rw [hparse] at h
    cases h
  | ok sigI =>
    rw [hparse] at h
    dsimp only at h
    cases hverify : S.verify view.idI (view.transcript T_CONFIRM) sigI with
    | error e =>
      rw [hverify] at h
      cases h
    | ok u => exact ⟨sigI, rfl, hverify⟩

abbrev KeysFit (S : Scheme) : Prop := ∀ k, (S.sigPublic k).sigVk.length ≤ MAX_FRAME

theorem initiatorView_fits (hkeys : KeysFit S) {r : IdentityPublic × Bytes × Bytes × Bytes}
    (h : getResp.parse frame = .ok r) : (p.initiatorView nonceI r.1 r.2.1 r.2.2.1).Fits := by
  obtain ⟨hpk, hprekey, hnonceR⟩ := getResp_lengths h
  exact ⟨p.suite.id_length, hkeys _, nonceI.2.le.trans (by decide), hpk, hprekey, hnonceR⟩

theorem responderView_fits (hkeys : KeysFit S) {r : IdentityPublic × Bytes} (h : getInit.parse frame = .ok r) :
    (p.responderView r.1 r.2 (p.suite.generatePrekey coin).1 nonceR).Fits := by
  obtain ⟨hpk, hnonceI⟩ := getInit_lengths h
  exact ⟨p.suite.id_length, hpk, hnonceI, hkeys _, p.suite.prekey_length coin, nonceR.2.le.trans (by decide)⟩

end Party

/-! ## What was signed -/

theorem View.Fits.transcript_ne {view : View} (h : view.Fits) {tag : Bytes} (htag : tag = T_RESP ∨ tag = T_CONFIRM)
    (x : Other) : view.transcript tag ≠ x.bytes := by
  have htagLen : tag.length ≤ MAX_FRAME := by rcases htag with rfl | rfl <;> decide
  have hlen := h.transcript_length htagLen
  cases x with
  | tagged x hx =>
    obtain ⟨hfits, hresp, hconfirm⟩ := hx
    intro heq
    rcases htag with rfl | rfl
    · refine (IdentitySigned.bytes_ne_of_tag (a := .resp view) rfl ?_ h hfits) heq
      exact hresp.symm
    · refine (IdentitySigned.bytes_ne_of_tag (a := .confirm view) rfl ?_ h hfits) heq
      exact hconfirm.symm
  | issued x =>
    intro heq
    have hfields {fs : List Bytes} (h : view.transcript tag = putFields fs) : fs.length = 7 := by
      rw [← putFields_inj hlen h]
      rfl
    cases x with
    | cert c => exact absurd (hfields heq) (by simp [Account.Cert.fields])
    | claim c => exact absurd (hfields heq) (by simp)
    | revocation fp issued => exact absurd (hfields heq) (by simp)

namespace World
variable {honest : IdentityPublic → Prop} {w w' : World S}

def Meant (w : World S) (pk : IdentityPublic) (m : Bytes) : Prop :=
  (∃ r ∈ w.responders, r.party.identityPublic = pk ∧ m = r.view.transcript T_RESP) ∨
  (∃ i ∈ w.initiators, ∃ view up, i.state = .signed view up ∧ i.party.identityPublic = pk ∧
    m = view.transcript T_CONFIRM) ∨
  ∃ x : Other, m = x.bytes

/-- An initiator that has signed its view had it signed by the responder. -/
def Checked (honest : IdentityPublic → Prop) (log : List (IdentityPublic × Bytes)) (i : Initiator S) : Prop :=
  ∀ view up, i.state = .signed view up → view.Fits ∧ i.party.identityPublic = view.idI ∧ i.nonceI.1 = view.nonceI ∧
    (honest view.idR → (view.idR, view.transcript T_RESP) ∈ log)

/-- A responder that has returned had its view signed by the initiator. -/
def Confirmed (honest : IdentityPublic → Prop) (log : List (IdentityPublic × Bytes)) (r : Responder S) : Prop :=
  r.view.Fits ∧ r.party.identityPublic = r.view.idR ∧ r.nonceR.1 = r.view.nonceR ∧
    (r.state = .returned → honest r.view.idI → (r.view.idI, r.view.transcript T_CONFIRM) ∈ log)

structure Sound (honest : IdentityPublic → Prop) (w : World S) : Prop where
  meant : ∀ pk m, (pk, m) ∈ w.log → w.Meant pk m
  checked : ∀ i ∈ w.initiators, Checked honest w.log i
  confirmed : ∀ r ∈ w.responders, Confirmed honest w.log r

variable {k : Nat} {i : Initiator S} {pk : IdentityPublic} {α : Type*} {l : List α} {y : α} {frame : Bytes}
  {r : Responder S} {x : α} {view : View}

theorem Checked.mono {log log' : List (IdentityPublic × Bytes)} (hsub : log ⊆ log') (h : Checked honest log i) :
    Checked honest log' i := fun view up hstate =>
  have ⟨hfits, hid, hnonce, hlog⟩ := h view up hstate
  ⟨hfits, hid, hnonce, fun hh => hsub (hlog hh)⟩

theorem Confirmed.mono {log log' : List (IdentityPublic × Bytes)} (hsub : log ⊆ log') (h : Confirmed honest log r) :
    Confirmed honest log' r :=
  ⟨h.1, h.2.1, h.2.2.1, fun hret hh => hsub (h.2.2.2 hret hh)⟩

structure Extends (w w' : World S) : Prop where
  initiators : ∀ i ∈ w.initiators, ∀ view up, i.state = .signed view up → i ∈ w'.initiators
  responders : ∀ r ∈ w.responders, ∃ r' ∈ w'.responders, r'.party.identityPublic = r.party.identityPublic ∧ r'.view = r.view

theorem Meant.mono {m : Bytes} (h : w.Meant pk m) (hext : w.Extends w') : w'.Meant pk m := by
  rcases h with ⟨r, hr, hpk, hm⟩ | ⟨i, hi, view, up, hstate, hpk, hm⟩ | hother
  · obtain ⟨r', hr', hparty, hview⟩ := hext.responders r hr
    exact .inl ⟨r', hr', hparty.trans hpk, hview ▸ hm⟩
  · exact .inr (.inl ⟨i, hext.initiators i hi view up hstate, view, up, hstate, hpk, hm⟩)
  · exact .inr (.inr hother)

theorem mem_set_or (z : α) (hy : l[k]? = some y) (hx : x ∈ l) : x ∈ l.set k z ∨ x = y := by
  obtain ⟨n, hn⟩ := List.mem_iff_getElem?.mp hx
  by_cases hnk : n = k
  · subst hnk
    rw [hn] at hy
    exact .inr (Option.some.inj hy)
  · refine .inl (List.mem_iff_getElem?.mpr ⟨n, ?_⟩)
    rw [List.getElem?_set_ne (Ne.symm hnk), hn]

theorem mem_set_self (z : α) (hy : l[k]? = some y) : z ∈ l.set k z :=
  List.mem_iff_getElem?.mpr ⟨k, by rw [List.getElem?_set_self (List.getElem?_eq_some_iff.mp hy).1]⟩

theorem Sound.extend (h : w.Sound honest) (hext : w.Extends w') (hsub : w.log ⊆ w'.log)
    (hlog : ∀ pk m, (pk, m) ∈ w'.log → (pk, m) ∈ w.log ∨ w'.Meant pk m)
    (hi : ∀ i ∈ w'.initiators, i ∈ w.initiators ∨ Checked honest w'.log i)
    (hr : ∀ r ∈ w'.responders, r ∈ w.responders ∨ Confirmed honest w'.log r) : w'.Sound honest where
  meant pk m hmem := (hlog pk m hmem).elim (fun hold => (h.meant pk m hold).mono hext) id
  checked i hmem := (hi i hmem).elim (fun hold => (h.checked i hold).mono hsub) id
  confirmed r hmem := (hr r hmem).elim (fun hold => (h.confirmed r hold).mono hsub) id

theorem mem_append_singleton (h : x ∈ l ++ [y]) : x ∈ l ∨ x = y :=
  (List.mem_append.mp h).imp_right List.mem_singleton.mp

theorem dial_sound (h : w.Sound honest) (party : Party S) (nonceI : ByteArr 32) (coin : party.suite.Coin) :
    (w.step (.dial party nonceI coin)).Sound honest := by
  refine h.extend ⟨fun i hi _ _ _ => List.mem_append_left _ hi, fun r hr => ⟨r, hr, rfl, rfl⟩⟩ (List.Subset.refl _)
    (fun _ _ hmem => .inl hmem) (fun i hi => ?_) fun r hr => .inl hr
  rcases mem_append_singleton hi with hi | rfl
  · exact .inl hi
  · exact .inr fun view up hstate => by cases hstate

theorem sign_sound (h : w.Sound honest) (key : S.SigSeed) (x : Other) : (w.step (.sign key x)).Sound honest := by
  refine h.extend ⟨fun i hi _ _ _ => hi, fun r hr => ⟨r, hr, rfl, rfl⟩⟩ (List.subset_append_left ..)
    (fun pk m hmem => ?_) (fun i hi => .inl hi) fun r hr => .inl hr
  rcases mem_append_singleton hmem with hmem | heq
  · exact .inl hmem
  · cases heq
    exact .inr (.inr (.inr ⟨x, rfl⟩))

theorem extends_set_initiator (hi : w.initiators[k]? = some i) (hstate : i.state = .awaiting) (i' : Initiator S)
    (log : List (IdentityPublic × Bytes)) : w.Extends { w with initiators := w.initiators.set k i', log := log } where
  initiators i₀ hi₀ view up hsigned := by
    rcases mem_set_or i' hi hi₀ with hmem | rfl
    · exact hmem
    · rw [hstate] at hsigned
      cases hsigned
  responders r hr := ⟨r, hr, rfl, rfl⟩

theorem onResp_sound (hkeys : Party.KeysFit S) (h : w.Sound honest) (hi : w.initiators[k]? = some i)
    (hstate : i.state = .awaiting) {up : Bool} (hsig : w.Unforged honest (.resp k frame up)) :
    (w.onResp k i frame up).Sound honest := by
  unfold onResp
  cases hresp : i.party.onResp i.nonceI i.coin frame with
  | error e =>
    refine h.extend (extends_set_initiator hi hstate _ _) (List.Subset.refl _) (fun _ _ hmem => .inl hmem)
      (fun i₀ hi₀ => ?_) fun r hr => .inl hr
    rcases List.mem_or_eq_of_mem_set hi₀ with hi₀ | rfl
    · exact .inl hi₀
    · exact .inr fun view up hsigned => by cases hsigned
  | ok res =>
    obtain ⟨view, session, sigI⟩ := res
    obtain ⟨r, hparse, hview, hverify⟩ := Party.onResp_eq_ok hresp
    have hfits : view.Fits := hview ▸ Party.initiatorView_fits hkeys hparse
    refine h.extend (extends_set_initiator hi hstate _ _) (List.subset_append_left ..) (fun pk m hmem => ?_)
      (fun i₀ hi₀ => ?_) fun r hr => .inl hr
    · rcases mem_append_singleton hmem with hmem | heq
      · exact .inl hmem
      · cases heq
        exact .inr (.inr (.inl ⟨_, mem_set_self _ hi, view, up, rfl, rfl, rfl⟩))
    · rcases List.mem_or_eq_of_mem_set hi₀ with hi₀ | rfl
      · exact .inl hi₀
      · refine .inr fun view' up' hsigned => ?_
        cases hsigned
        refine ⟨hfits, by rw [hview]; rfl, by rw [hview]; rfl, fun hhonest => ?_⟩
        exact List.mem_append_left _ (hsig r hparse _ _ hhonest hverify)

theorem onInit_sound (hkeys : Party.KeysFit S) (h : w.Sound honest) (party : Party S) (nonceR : ByteArr 32)
    (coin : party.suite.Coin) (frame : Bytes) (up : Bool) : (w.onInit party nonceR coin frame up).Sound honest := by
  unfold onInit
  cases hinit : party.onInit nonceR coin frame with
  | error e => exact h
  | ok res =>
    obtain ⟨view, secret, sigR⟩ := res
    obtain ⟨r, hparse, hview⟩ := Party.onInit_eq_ok hinit
    have hfits : view.Fits := hview ▸ Party.responderView_fits hkeys hparse
    refine h.extend ⟨fun i hi _ _ _ => hi, fun r hr => ⟨r, List.mem_append_left _ hr, rfl, rfl⟩⟩
      (List.subset_append_left ..) (fun pk m hmem => ?_) (fun i hi => .inl hi) fun r₀ hr₀ => ?_
    · rcases mem_append_singleton hmem with hmem | heq
      · exact .inl hmem
      · cases heq
        exact .inr (.inl ⟨_, List.mem_append_right _ (List.mem_singleton_self _), rfl, rfl⟩)
    · rcases mem_append_singleton hr₀ with hr₀ | rfl
      · exact .inl hr₀
      · refine .inr ⟨hfits, by rw [hview]; rfl, by rw [hview]; rfl, fun hret => ?_⟩
        dsimp only at hret
        split at hret <;> cases hret

theorem onConfirm_sound (h : w.Sound honest) {j : Nat} (hr : w.responders[j]? = some r)
    (hsig : w.Unforged honest (.confirm j frame)) : (w.onConfirm j r frame).Sound honest := by
  have hext (state : ResponderState) :
      w.Extends { w with responders := w.responders.set j { r with state := state } } := by
    refine ⟨fun i hi _ _ _ => hi, fun r₀ hr₀ => ?_⟩
    rcases mem_set_or { r with state := state } hr hr₀ with hmem | rfl
    · exact ⟨r₀, hmem, rfl, rfl⟩
    · exact ⟨_, mem_set_self _ hr, rfl, rfl⟩
  have hold := h.confirmed r (List.mem_of_getElem? hr)
  unfold onConfirm
  cases hconfirm : r.party.onConfirm r.view r.prekeySecret frame with
  | error e =>
    refine h.extend (hext .failed) (List.Subset.refl _) (fun _ _ hmem => .inl hmem) (fun i hi => .inl hi)
      fun r₀ hr₀ => ?_
    rcases List.mem_or_eq_of_mem_set hr₀ with hr₀ | rfl
    · exact .inl hr₀
    · exact .inr ⟨hold.1, hold.2.1, hold.2.2.1, fun hret => by cases hret⟩
  | ok session =>
    obtain ⟨sigI, hparse, hverify⟩ := Party.onConfirm_eq_ok hconfirm
    refine h.extend (hext .returned) (List.Subset.refl _) (fun _ _ hmem => .inl hmem) (fun i hi => .inl hi)
      fun r₀ hr₀ => ?_
    rcases List.mem_or_eq_of_mem_set hr₀ with hr₀ | rfl
    · exact .inl hr₀
    · exact .inr ⟨hold.1, hold.2.1, hold.2.2.1, fun _ hhonest => hsig sigI hparse _ _ hhonest hverify⟩

theorem step_sound (hkeys : Party.KeysFit S) (w : World S) (a : Act S) (h : w.Sound honest)
    (hsig : w.Unforged honest a) : (w.step a).Sound honest := by
  cases a with
  | dial party nonceI coin => exact dial_sound h party nonceI coin
  | accept party nonceR coin frame up => exact onInit_sound hkeys h party nonceR coin frame up
  | sign key x => exact sign_sound h key x
  | resp k frame up =>
    unfold step
    dsimp only
    cases hi : w.initiators[k]? with
    | none => exact h
    | some i =>
      dsimp only
      cases hstate : i.state with
      | awaiting => exact onResp_sound hkeys h hi hstate hsig
      | signed view returned => exact h
      | failed => exact h
  | confirm j frame =>
    unfold step
    dsimp only
    cases hr : w.responders[j]? with
    | none => exact h
    | some r =>
      dsimp only
      split
      · exact onConfirm_sound h hr hsig
      · exact h

/-! ## Agreement -/

theorem T_RESP_ne_T_CONFIRM : T_RESP ≠ T_CONFIRM := by decide

theorem Sound.responder_of_mem (h : w.Sound honest) (hfits : view.Fits)
    (hmem : (pk, view.transcript T_RESP) ∈ w.log) :
    ∃ r ∈ w.responders, r.party.identityPublic = pk ∧ r.view = view := by
  have hlen : (view.transcript T_RESP).length < 2 ^ 32 := hfits.transcript_length (by decide)
  rcases h.meant _ _ hmem with ⟨r, hr, hpk, hm⟩ | ⟨i, -, view', up, -, -, hm⟩ | ⟨x, hm⟩
  · exact ⟨r, hr, hpk, (View.transcript_inj hlen hm).2.symm⟩
  · exact absurd (View.transcript_inj hlen hm).1 T_RESP_ne_T_CONFIRM
  · exact absurd hm (hfits.transcript_ne (.inl rfl) x)

theorem Sound.initiator_of_mem (h : w.Sound honest) (hfits : view.Fits)
    (hmem : (pk, view.transcript T_CONFIRM) ∈ w.log) :
    ∃ i ∈ w.initiators, ∃ up, i.party.identityPublic = pk ∧ i.state = .signed view up := by
  have hlen : (view.transcript T_CONFIRM).length < 2 ^ 32 := hfits.transcript_length (by decide)
  rcases h.meant _ _ hmem with ⟨r, -, -, hm⟩ | ⟨i, hi, view', up, hstate, hpk, hm⟩ | ⟨x, hm⟩
  · exact absurd (View.transcript_inj hlen hm).1.symm T_RESP_ne_T_CONFIRM
  · obtain ⟨-, rfl⟩ := View.transcript_inj hlen hm
    exact ⟨i, hi, up, hpk, hstate⟩
  · exact absurd hm (hfits.transcript_ne (.inr rfl) x)

theorem eq_of_getElem?_map {β : Type*} {f : α → β} (hnd : (l.map f).Nodup) {m n : Nat} (hm : l[m]? = some x)
    (hn : l[n]? = some y) (heq : f x = f y) : m = n := by
  have hm' : (l.map f)[m]? = some (f x) := by rw [List.getElem?_map, hm]; rfl
  have hn' : (l.map f)[n]? = some (f x) := by rw [List.getElem?_map, hn, heq]; rfl
  obtain ⟨hlt, -⟩ := List.getElem?_eq_some_iff.mp hm'
  exact (List.getElem?_inj hlt hnd).mp (hm'.trans hn'.symm)

/-- Agreement in both directions. A call that returns with an honest peer has a partner, a call of that peer in
the other role that saw the same identities, nonces, prekey and suite. With fresh nonces a call is the partner of
one call only. -/
theorem agreement (hkeys : Party.KeysFit S) {acts : List (Act S)} (h : Run.Along step (Unforged honest) {} acts) :
    let w := acts.foldl step {}
    (∀ k view, w.Initiated k view → honest view.idR → ∃ j, w.Agree k j view) ∧
    (∀ j view, w.Responded j view → honest view.idI → ∃ k, w.Agree k j view) ∧
    ((w.initiators.map (·.nonceI)).Nodup → ∀ k k' j view view', w.Agree k j view → w.Agree k' j view' → k = k') ∧
    ((w.responders.map (·.nonceR)).Nodup → ∀ k j j' view view', w.Agree k j view → w.Agree k j' view' → j = j') := by
  intro w
  have hsound : w.Sound honest :=
    h.invariant (I := Sound honest) (fun w a hw ha => step_sound hkeys w a hw ha)
      { meant := fun _ _ hmem => absurd hmem List.not_mem_nil
        checked := fun _ hmem => absurd hmem List.not_mem_nil
        confirmed := fun _ hmem => absurd hmem List.not_mem_nil }
  refine ⟨?_, ?_, ?_, ?_⟩
  · rintro k view ⟨i, hi, hstate⟩ hhonest
    obtain ⟨hfits, hid, hnonce, hlog⟩ := hsound.checked i (List.mem_of_getElem? hi) view true hstate
    obtain ⟨r, hr, hpk, hview⟩ := hsound.responder_of_mem hfits (hlog hhonest)
    obtain ⟨j, hj⟩ := List.mem_iff_getElem?.mp hr
    have hnonceR := (hsound.confirmed r hr).2.2.1
    exact ⟨j, i, r, true, hi, hj, hstate, hview, hid, hpk, hnonce, hview ▸ hnonceR⟩
  · rintro j view ⟨r, hr, hret, rfl⟩ hhonest
    obtain ⟨hfits, hid, hnonce, hlog⟩ := hsound.confirmed r (List.mem_of_getElem? hr)
    obtain ⟨i, hi, up, hpk, hstate⟩ := hsound.initiator_of_mem hfits (hlog hret hhonest)
    obtain ⟨k, hk⟩ := List.mem_iff_getElem?.mp hi
    have hnonceI := (hsound.checked i hi r.view up hstate).2.2.1
    exact ⟨k, i, r, up, hk, hr, hstate, rfl, hpk, hid, hnonceI, hnonce⟩
  · rintro hfresh k k' j view view' ⟨i, r, up, hi, hr, -, hview, -, -, hn, -⟩ ⟨i', r', up', hi', hr', -, hview', -, -, hn', -⟩
    obtain rfl : r = r' := Option.some.inj (hr.symm.trans hr')
    refine eq_of_getElem?_map hfresh hi hi' (Subtype.ext ?_)
    rw [hn, hn', ← hview, ← hview']
  · rintro hfresh k j j' view view' ⟨i, r, up, hi, hr, hs, -, -, -, -, hn⟩ ⟨i', r', up', hi', hr', hs', -, -, -, -, hn'⟩
    obtain rfl : i = i' := Option.some.inj (hi.symm.trans hi')
    rw [hs] at hs'
    cases hs'
    exact eq_of_getElem?_map hfresh hr hr' (Subtype.ext (hn.trans hn'.symm))

theorem step_resp (hi : w.initiators[k]? = some i) (hstate : i.state = .awaiting) {sig : Bytes}
    {session : i.party.suite.Session} (h : i.party.onResp i.nonceI i.coin frame = .ok (view, session, sig))
    (up : Bool) :
    w.step (.resp k frame up) =
      { w with
        initiators := w.initiators.set k { i with state := .signed view up }
        log := w.log ++ [(i.party.identityPublic, view.transcript T_CONFIRM)] } := by
  simp only [step, hi, hstate, onResp, h]

theorem step_confirm {j : Nat} (hr : w.responders[j]? = some r) (hstate : r.state = .awaiting)
    {session : r.party.suite.Session} (h : r.party.onConfirm r.view r.prekeySecret frame = .ok session) :
    w.step (.confirm j frame) = { w with responders := w.responders.set j { r with state := .returned } } := by
  simp only [step, hr, hstate, onConfirm, h, if_true]

/-! One handshake between the holders of the keys 1 and 2, over a network that delivers. -/

def zeros : ByteArr 32 := .zeros 32

def sampleView : View := ⟨"tk.plain", ⟨[1]⟩, zeros.1, ⟨[2]⟩, [9], zeros.1⟩

/-- The two keys sign what the handshake asks them to. -/
def sampleScheme : Scheme :=
  Scheme.plain.logged [(⟨[2]⟩, sampleView.transcript T_RESP), (⟨[1]⟩, sampleView.transcript T_CONFIRM)]

def sampleParty (key : UInt8) : Party sampleScheme := ⟨key, .plain, zeros⟩

def sampleActs : List (Act sampleScheme) :=
  [.dial (sampleParty 1) zeros (), .accept (sampleParty 2) zeros () ((sampleParty 1).initFrame zeros) true,
    .resp 0 (Party.respFrame sampleView [2]) true, .confirm 0 (Party.confirmFrame [1])]

theorem mem_of_sample_verify {m : Bytes} {key : UInt8} (h : sampleScheme.verify pk m [key] = .ok ()) : pk = ⟨[key]⟩ ∧
      (pk, m) ∈ [((⟨[2]⟩ : IdentityPublic), sampleView.transcript T_RESP), (⟨[1]⟩, sampleView.transcript T_CONFIRM)] := by
  have hmem := Scheme.mem_of_logged_verify h
  have hkey : Scheme.plain.verify pk m [key] = .ok () := by
    rw [← h]
    exact (if_pos hmem).symm
  refine ⟨?_, hmem⟩
  obtain ⟨vk⟩ := pk
  by_cases hvk : vk = [key]
  · rw [hvk]
  · rw [show Scheme.plain.verify ⟨vk⟩ m [key] = .error .badSignature from if_neg hvk] at hkey
    cases hkey

theorem sampleView_fits : sampleView.Fits := by
  constructor <;> decide

theorem plain_verify (key : UInt8) (m : Bytes) : Scheme.plain.verify ⟨[key]⟩ m [key] = .ok () := if_pos rfl

theorem sample_onInit : (sampleParty 2).onInit zeros () ((sampleParty 1).initFrame zeros) = .ok (sampleView, (), [2]) :=
  Party.onInit_initFrame (sampleParty 1) (sampleParty 2) (by decide) zeros zeros ()

theorem sample_onResp : (sampleParty 1).onResp zeros () (Party.respFrame sampleView [2]) = .ok (sampleView, (), [1]) := by
  have hverify : sampleScheme.verify ⟨[2]⟩ (sampleView.transcript T_RESP) [2] = .ok () := by
    rw [sampleScheme, Scheme.logged_verify_of_mem List.mem_cons_self]
    exact plain_verify 2 _
  exact Party.onResp_respFrame (sampleParty 1) rfl (by decide) sampleView_fits (by decide) hverify rfl

theorem sample_onConfirm : (sampleParty 2).onConfirm sampleView () (Party.confirmFrame [1]) = .ok () := by
  have hverify : sampleScheme.verify ⟨[1]⟩ (sampleView.transcript T_CONFIRM) [1] = .ok () := by
    rw [sampleScheme, Scheme.logged_verify_of_mem (List.mem_cons_of_mem _ List.mem_cons_self)]
    exact plain_verify 1 _
  exact Party.onConfirm_confirmFrame (sampleParty 2) (by decide) hverify rfl

def sampleOffered : World sampleScheme where
  initiators := [⟨sampleParty 1, zeros, (), .awaiting⟩]
  responders := [⟨sampleParty 2, zeros, sampleView, (), .awaiting⟩]
  log := [(⟨[2]⟩, sampleView.transcript T_RESP)]

def sampleSigned : World sampleScheme where
  initiators := [⟨sampleParty 1, zeros, (), .signed sampleView true⟩]
  responders := [⟨sampleParty 2, zeros, sampleView, (), .awaiting⟩]
  log := [(⟨[2]⟩, sampleView.transcript T_RESP), (⟨[1]⟩, sampleView.transcript T_CONFIRM)]

theorem step_sample_accept :
    step ⟨[⟨sampleParty 1, zeros, (), .awaiting⟩], [], []⟩
      (.accept (sampleParty 2) zeros () ((sampleParty 1).initFrame zeros) true) = sampleOffered := by
  unfold step onInit
  dsimp only
  rw [sample_onInit]
  rfl

theorem step_sample_resp : sampleOffered.step (.resp 0 (Party.respFrame sampleView [2]) true) = sampleSigned :=
  step_resp (i := ⟨sampleParty 1, zeros, (), .awaiting⟩) rfl rfl sample_onResp true

theorem step_sample_confirm : sampleSigned.step (.confirm 0 (Party.confirmFrame [1])) =
    { sampleSigned with responders := [⟨sampleParty 2, zeros, sampleView, (), .returned⟩] } :=
  step_confirm (r := ⟨sampleParty 2, zeros, sampleView, (), .awaiting⟩) rfl rfl sample_onConfirm

theorem sampleActs_unforged : Run.Along step (Unforged fun _ => True) ({} : World sampleScheme) sampleActs := by
  have hdial : step ({} : World sampleScheme) (.dial (sampleParty 1) zeros ()) =
      ⟨[⟨sampleParty 1, zeros, (), .awaiting⟩], [], []⟩ := rfl
  unfold sampleActs
  simp only [Run.along_cons, hdial, step_sample_accept, step_sample_resp, Run.along_nil, and_true]
  refine ⟨trivial, trivial, ?_, ?_⟩
  · intro r hr pk m _ hverify
    have hparse : getResp.parse (Party.respFrame sampleView [2]) = .ok (⟨[2]⟩, [9], zeros.1, [2]) :=
      getResp_respFrame (by decide) sampleView_fits.prekey sampleView_fits.nonceR (by decide)
    cases hparse.symm.trans hr
    obtain ⟨rfl, hmem⟩ := mem_of_sample_verify hverify
    rcases List.mem_cons.mp hmem with heq | hmem
    · exact List.mem_singleton.mpr heq
    · have hkey : (⟨[2]⟩ : IdentityPublic) = ⟨[1]⟩ := congrArg Prod.fst (List.mem_singleton.mp hmem)
      exact absurd hkey (by decide)
  · intro sig hsig pk m _ hverify
    have hparse : getConfirm.parse (Party.confirmFrame [1]) = .ok [1] := getConfirm_confirmFrame (by decide)
    cases hparse.symm.trans hsig
    exact (mem_of_sample_verify hverify).2

theorem sampleActs_run : (sampleActs.foldl step ({} : World sampleScheme)) =
    { sampleSigned with responders := [⟨sampleParty 2, zeros, sampleView, (), .returned⟩] } := by
  have hdial : step ({} : World sampleScheme) (.dial (sampleParty 1) zeros ()) =
      ⟨[⟨sampleParty 1, zeros, (), .awaiting⟩], [], []⟩ := rfl
  unfold sampleActs
  simp only [List.foldl_cons, List.foldl_nil, hdial, step_sample_accept, step_sample_resp, step_sample_confirm]

/-- In the delivered handshake both calls return, and each is the partner of the other. -/
theorem agreement_delivered : let w := sampleActs.foldl step ({} : World sampleScheme)
    w.Initiated 0 sampleView ∧ w.Responded 0 sampleView ∧ (∃ j, w.Agree 0 j sampleView) ∧ ∃ k, w.Agree k 0 sampleView := by
  have hkeys : Party.KeysFit sampleScheme := fun _ => show 1 ≤ MAX_FRAME by decide
  have hinitiated : (sampleActs.foldl step ({} : World sampleScheme)).Initiated 0 sampleView := by
    rw [sampleActs_run]
    exact ⟨_, rfl, rfl⟩
  have hresponded : (sampleActs.foldl step ({} : World sampleScheme)).Responded 0 sampleView := by
    rw [sampleActs_run]
    exact ⟨_, rfl, rfl, rfl⟩
  obtain ⟨hfirst, hsecond, -, -⟩ := agreement hkeys sampleActs_unforged
  exact ⟨hinitiated, hresponded, hfirst 0 sampleView hinitiated trivial, hsecond 0 sampleView hresponded trivial⟩

end World
end Talkrypt.Core.Handshake
