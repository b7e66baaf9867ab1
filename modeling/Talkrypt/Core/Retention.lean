import Talkrypt.Core.Consent

/-!
# Retention on a member

What a member seals. `Retains` says what a call does to the persistence flag, the backlog and the sealed
history; a record enters the history while the chat is persistent, when the node receives or sends it, or
out of the backlog when a promotion is finalized. Either way the member has agreed: its own call or a
promotion that it proposed or accepted turned persistence on, and such a promotion seals the backlog
(`sealed_by_consent`).
-/

namespace Talkrypt.Core
open TreeKem

variable {S : Scheme}

/-- The time from which on a proposal retains the backlog; `none` if it retains nothing. The `carry` mode
does not use the field. -/
def PromoteBody.carryPoint (b : PromoteBody) : Option Nat :=
  match RetentionMode.fromU8 b.retentionMode with
  | some .carry => some 0
  | some .carryFromPoint => some b.carryFromSecs
  | _ => none

theorem shouldSeal_iff {b : PromoteBody} {ts : Nat} :
    shouldSeal ((RetentionMode.fromU8 b.retentionMode).getD .fresh) b.carryFromSecs ts = true ↔
      ∃ point ∈ b.carryPoint, point ≤ ts := by
  unfold PromoteBody.carryPoint
  cases RetentionMode.fromU8 b.retentionMode with
  | none => simp [shouldSeal]
  | some mode => cases mode <;> simp [shouldSeal]

namespace Inner

/-- A node that was just started: nothing is pending, retained or sealed. -/
structure Fresh (i : Inner S) : Prop where
  promote : i.promote = none
  persistent : i.persistent = false
  backlog : i.backlog = []
  history : i.history = ∅

theorem fresh_joiner (me : Fingerprint) (messagePadding : Option Nat) (kp : LeafKeyPair S) :
    (joiner me messagePadding kp).Fresh := ⟨rfl, rfl, rfl, rfl⟩

/-! ## The retained state after each handler -/

variable {i : Inner S} {gid : Gid}

theorem retained_note {i' : Inner S} (h : i.retained = i'.retained) (now : UInt64) (sender : Fingerprint)
    (gid : Gid) (text : String) (marking : Option Marking) :
    (i.note now sender gid text marking).retained = (i'.note now sender gid text marking).retained := by
  simp only [retained, Prod.mk.injEq] at h
  simp only [note, recordBacklog, h.2.1]
  split
  · simp only [retained, h.1, h.2.1, h.2.2]
  · simp only [h.1]
    split <;> simp only [retained, h.2.2]

section Handlers
variable {M : Messaging S} {sha256 : Bytes → Gid}

theorem retained_surface (i : Inner S) (now : UInt64) (peer : Fingerprint) (gct pt : Bytes) :
    (i.surface sha256 now peer gct pt).retained = i.retained ∨
      ∃ text marking nameTag, decodePayloadTagged pt = some (marking, text, nameTag) ∧
        (i.surface sha256 now peer gct pt).retained =
          (i.note now (i.senderOf peer gct) (sha256 gct) text marking).retained := by
  unfold surface
  dsimp only
  split
  · exact .inl rfl
  split
  · exact .inl rfl
  split
  · exact .inl rfl
  split
  · exact .inl rfl
  · next marking text nameTag hpt =>
    refine .inr ⟨text, marking, nameTag, hpt, ?_⟩
    unfold display
    cases nameTag <;> dsimp only <;> split <;> rfl

theorem retained_groupMsg (i : Inner S) (now : UInt64) (peer : Fingerprint) (gct : Bytes) :
    (i.handleGroupMsg M sha256 now peer gct).retained = i.retained ∨
      ∃ g g' pt text marking nameTag, i.group = some g ∧ g.decryptVerified M gct = (g', .ok pt) ∧
        decodePayloadTagged pt = some (marking, text, nameTag) ∧
        (i.handleGroupMsg M sha256 now peer gct).retained =
          (i.note now (i.senderOf peer gct) (sha256 gct) text marking).retained := by
  unfold handleGroupMsg
  split
  · exact .inl rfl
  · next i₁ hrecord =>
    obtain ⟨seen, rfl⟩ := record_eq_some hrecord
    dsimp only
    split
    · exact .inl rfl
    · next g hg =>
      split
      · exact .inl rfl
      · next g' pt hopen =>
        have hpassed (i : Inner S) :
            ((i.reflood peer (.groupMsg gct)).keepForOffline sha256 now peer gct).retained = i.retained := by
          unfold keepForOffline reflood
          split <;> split <;> rfl
        rw [hpassed]
        refine (retained_surface ..).imp id fun ⟨text, marking, nameTag, hpt, h⟩ => ?_
        exact ⟨g, g', pt, text, marking, nameTag, hg, hopen, hpt, h.trans (retained_note (by rfl) ..)⟩

theorem retained_sendMarked (i : Inner S) (now : UInt64) (text : String) (marking : Option Marking)
    (nameTag : Option (ByteArr 8)) :
    (i.sendMarked M sha256 now text marking nameTag).retained = i.retained ∨
      ∃ g g' ct, i.group = some g ∧
        g.encryptSigned M (encodePayloadTagged marking text nameTag) = (g', .ok ct) ∧
        (i.sendMarked M sha256 now text marking nameTag).retained =
          (i.note now i.me (sha256 ct) text marking).retained := by
  unfold sendMarked
  split
  · exact .inl rfl
  · exact .inl rfl
  · next g hg _ =>
    split
    · exact .inl rfl
    · next g' ct hsealed =>
      have hpost (i : Inner S) : (i.post sha256 now ct).retained = i.retained := by
        unfold post
        dsimp only
        split <;> rfl
      rw [hpost]
      exact .inr ⟨g, g', ct, by assumption, hsealed, retained_note (by rfl) ..⟩

end Handlers

theorem lookup_history_note {now : UInt64} {sender : Fingerprint} {gid' : Gid} {text : String}
    {marking : Option Marking} {record : Bytes}
    (h : (i.note now sender gid' text marking).history.lookup gid = some record) :
    i.history.lookup gid = some record ∨ i.persistent = true ∧ gid = gid' ∧
      record = HistoryRecord.encode { sender, ts := now.toNat, text, marking } := by
  simp only [note, recordBacklog] at h
  split at h
  · exact .inl h
  · split at h
    · next hon =>
      rw [Table.lookup_insert_eq] at h
      split at h
      · next hgid => exact .inr ⟨hon, hgid, (Option.some.inj h).symm⟩
      · exact .inl h
    · exact .inl h

theorem mem_backlog_note {now : UInt64} {sender : Fingerprint} {text : String} {marking : Option Marking}
    {e : BacklogEntry} (h : e ∈ (i.note now sender gid text marking).backlog) :
    e ∈ i.backlog ∨
      e = ⟨gid, now.toNat, HistoryRecord.encode { sender, ts := now.toNat, text, marking }⟩ := by
  simp only [note, recordBacklog] at h
  split at h
  · exact .inl h
  · have hmem : e ∈ i.backlog ++
        [⟨gid, now.toNat, HistoryRecord.encode { sender, ts := now.toNat, text, marking }⟩] := by
      split at h <;> dsimp only at h <;> exact List.mem_of_mem_drop h
    exact (List.mem_append.mp hmem).imp id List.mem_singleton.mp

theorem lookup_history_applyRetention {b : PromoteBody} {record : Bytes}
    (h : (i.applyRetention b.retentionMode b.carryFromSecs).history.lookup gid = some record) :
    i.history.lookup gid = some record ∨
      ∃ e ∈ i.backlog, e.gid = gid ∧ e.record = record ∧ ∃ point ∈ b.carryPoint, point ≤ e.ts := by
  simp only [applyRetention, Table.lookup_insertAll, Option.or_eq_some_iff] at h
  rcases h with h | ⟨-, h⟩
  · obtain ⟨e, he, heq⟩ := List.mem_map.mp (Table.mem_of_lastOf h)
    obtain ⟨hmem, hseal⟩ := List.mem_filter.mp he
    cases heq
    exact .inr ⟨e, hmem, rfl, rfl, shouldSeal_iff.mp hseal⟩
  · exact .inl h

end Inner

namespace Answering
variable (E : Env S)

/-! ## What a call does -/

/-- The promotion that a call finalizes on a member: the pending one, when it is announced, or its own
mandate. -/
inductive Finalizes (i : Inner S) : Input S → PromoteBody → Prop
  | announced {peer : Fingerprint} {payload : Bytes} {st : PromoteState} (hst : i.promote = some st)
    (hcheck : i.checkPromoteCommit payload = some (st.body.id E.sha256)) :
    Finalizes i (.frame peer (.promoteCommit payload)) st.body
  | mandate {tier mode : UInt8} {picked : List Fingerprint} {onion : String} {carryFrom : UInt64}
    {body : PromoteBody} {payload : Bytes}
    (hdraft : i.draftPromote tier mode 2 picked onion carryFrom.toNat = some (body, payload)) :
    Finalizes i (.proposePromote tier mode 2 picked onion carryFrom) body

/-- The call finalizes a promotion, and the last answer of this node to it was to accept. -/
def Approves (w : Answering S) (c : Call S) (body : PromoteBody) : Prop :=
  Finalizes E w.node c.input body ∧ (w.step E c).answers (body.id E.sha256) = some true

/-- The call turns persistence on with this node's consent. -/
def TurnsOn (w : Answering S) (c : Call S) : Prop :=
  c.input = .setPersistence true ∨ ∃ body, Approves E w c body

/-- The message that a call receives or sends, by its gossip id. -/
inductive Saw (i : Inner S) (now : UInt64) : Input S → Gid → HistoryRecord → Prop
  | received {peer : Fingerprint} {gct pt : Bytes} {g g' : Group S} {text : String}
    {marking : Option Marking} {nameTag : Option (ByteArr 8)} (hg : i.group = some g)
    (hopen : g.decryptVerified E.messaging gct = (g', .ok pt))
    (hpt : decodePayloadTagged pt = some (marking, text, nameTag)) :
    Saw i now (.frame peer (.groupMsg gct)) (E.sha256 gct)
      { sender := i.senderOf peer gct, ts := now.toNat, text, marking }
  | sent {ct : Bytes} {g g' : Group S} {text : String} {marking : Option Marking}
    {nameTag : Option (ByteArr 8)} (hg : i.group = some g)
    (hseal : g.encryptSigned E.messaging (encodePayloadTagged marking text nameTag) = (g', .ok ct)) :
    Saw i now (.sendMarked text marking nameTag) (E.sha256 ct)
      { sender := i.me, ts := now.toNat, text, marking }

/-- What a call can do to the retained state of a member. -/
inductive Retains (w : Answering S) (c : Call S) : Bool × List BacklogEntry × Table Gid Bytes → Prop
  | same : Retains w c w.node.retained
  | turnOn (h : c.input = .setPersistence true) : Retains w c (true, w.node.backlog, w.node.history)
  | purge {on : Bool} (h : on = true → w.node.persistent = true) : Retains w c (on, [], ∅)
  | note {gid : Gid} {sender : Fingerprint} {text : String} {marking : Option Marking}
    (h : Saw E w.node c.now c.input gid { sender, ts := c.now.toNat, text, marking }) :
    Retains w c (w.node.note c.now sender gid text marking).retained
  | finalize {body : PromoteBody} (h : Approves E w c body) :
    Retains w c (true, [], (w.node.applyRetention body.retentionMode body.carryFromSecs).history)

variable {E}

variable {w : Answering S}

theorem retains_promoteCommit (hw : w.Faithful E) {peer : Fingerprint} {payload : Bytes} {d : Draws S}
    {now : UInt64} :
    Retains E w ⟨.frame peer (.promoteCommit payload), d, now⟩
      (w.node.handlePromoteCommit E.sha256 payload).retained := by
  unfold Inner.handlePromoteCommit
  split
  · exact .same
  · next promoteId hcheck =>
    split
    · exact .same
    · next mode carryFrom hcontract =>
      simp only [Inner.consented, Option.bind_eq_bind, Option.bind_eq_some_iff] at hcontract
      obtain ⟨st, hst, hcontract⟩ := hcontract
      split at hcontract
      · next hyes =>
        cases hcontract
        refine .finalize ⟨.announced hst (hyes.1 ▸ hcheck), ?_⟩
        rw [answers_step_of_none rfl]
        exact hw st true hst hyes.2
      · cases hcontract

theorem retains_proposePromote (w : Answering S) {tier mode rule : UInt8} {picked : List Fingerprint}
    {onion : String} {carryFrom : UInt64} {d : Draws S} {now : UInt64} :
    Retains E w ⟨.proposePromote tier mode rule picked onion carryFrom, d, now⟩
      (w.node.proposePromote E.sha256 d tier mode rule picked onion carryFrom.toNat).retained := by
  unfold Inner.proposePromote
  split
  · exact .same
  · next body payload hdraft =>
    dsimp only
    split
    · next hrule =>
      subst hrule
      rw [Inner.retained_commitPromotion]
      have hgiven : given E w.node (.proposePromote tier mode 2 picked onion carryFrom) =
          some (body.id E.sha256, true) := by
        rw [given, hdraft]
        rfl
      exact .finalize ⟨.mandate hdraft, by rw [answers_step_of_some hgiven, Function.update_self]⟩
    · exact .same

theorem retained_of_effect {i i' : Inner S} {input : Input S} (h : Inner.Effect i input i')
    (hpromotion : input.isPromotion = false) (hheard : ∀ peer gct, input ≠ .frame peer (.groupMsg gct))
    (hsent : ∀ text marking nameTag, input ≠ .sendMarked text marking nameTag) : i'.retained = i.retained := by
  cases h with
  | regroups h => exact (congrArg Inner.retained h :)
  | manages hinput => exact nomatch hpromotion.symm.trans hinput
  | posts => exact absurd rfl (hsent _ _ _)
  | heard => exact absurd rfl (hheard _ _)
  | _ => rfl

theorem step_retains (hw : w.Faithful E) (hrole : w.node.role = .member) (c : Call S) :
    Retains E w c (w.step E c).node.retained := by
  obtain ⟨input, d, now⟩ := c
  have hsame {i' : Inner S} (h : i'.retained = w.node.retained) : Retains E w ⟨input, d, now⟩ i'.retained :=
    h ▸ .same
  have heffect := E.step_effect w.node ⟨input, d, now⟩
  rw [step]
  cases input with
  | frame peer f =>
    have hstep : E.step w.node ⟨.frame peer f, d, now⟩ = E.receive w.node d now peer f := rfl
    rw [hstep] at heffect ⊢
    cases f with
    | promote payload =>
      rw [Env.receive, if_pos (by simp [hrole]), Inner.handlePromote]
      split <;> exact .same
    | consent payload => exact hsame (congrArg Inner.retained (if_neg (by simp [hrole])))
    | promoteCommit payload =>
      rw [Env.receive, if_pos hrole]
      exact retains_promoteCommit hw
    | groupMsg gct =>
      rcases Inner.retained_groupMsg w.node now peer gct with h | ⟨g, g', pt, text, marking, tag, hg, hopen, hpt, h⟩
      · exact hsame h
      · rw [Env.receive, h]
        exact .note (.received hg hopen hpt)
    | _ => exact hsame (retained_of_effect heffect rfl (by simp) (by simp))
  | sendMarked text marking nameTag =>
    rcases Inner.retained_sendMarked w.node now text marking nameTag with h | ⟨g, g', ct, hg, hsealed, h⟩
    · exact hsame h
    · rw [Env.step, h]
      exact .note (.sent hg hsealed)
  | proposePromote => exact retains_proposePromote w
  | respondPromote promoteId accept =>
    simp only [Env.step, Inner.respondPromote]
    split <;> exact .same
  | setPersistence on =>
    cases on
    · exact .purge fun hon => absurd hon Bool.false_ne_true
    · exact .turnOn rfl
  | purgeHistory => exact .purge id
  | _ => exact hsame (retained_of_effect heffect rfl (by simp) (by simp))

/-! ## What came of it -/

section Retains
variable {w : Answering S} {c : Call S} {ret : Bool × List BacklogEntry × Table Gid Bytes} (h : Retains E w c ret)
include h

theorem Retains.persistent (hon : ret.1 = true) : w.node.persistent = true ∨ TurnsOn E w c := by
  cases h with
  | same => exact .inl hon
  | turnOn hinput => exact .inr (.inl hinput)
  | purge hkept => exact .inl (hkept hon)
  | note => exact .inl ((congrArg Inner.persistent (Inner.Messages.note w.node c.now _ _ _ _) :).symm.trans hon)
  | finalize happ => exact .inr (.inr ⟨_, happ⟩)

theorem Retains.backlog {e : BacklogEntry} (he : e ∈ ret.2.1) :
    e ∈ w.node.backlog ∨ ∃ r, Saw E w.node c.now c.input e.gid r ∧ e.ts = r.ts ∧ e.record = r.encode := by
  cases h with
  | same => exact .inl he
  | turnOn => exact .inl he
  | purge => cases he
  | note hsaw =>
    refine (Inner.mem_backlog_note he).imp id fun heq => ?_
    subst heq
    exact ⟨_, hsaw, rfl, rfl⟩
  | finalize => cases he

theorem Retains.history {gid : Gid} {record : Bytes} (hin : ret.2.2.lookup gid = some record) :
    w.node.history.lookup gid = some record ∨
    (w.node.persistent = true ∧ ∃ r, Saw E w.node c.now c.input gid r ∧ record = r.encode) ∨
    ∃ body, Approves E w c body ∧ ∃ e ∈ w.node.backlog, e.gid = gid ∧ e.record = record ∧
      ∃ point ∈ body.carryPoint, point ≤ e.ts := by
  cases h with
  | same => exact .inl hin
  | turnOn => exact .inl hin
  | purge => exact nomatch (AList.lookup_empty gid).symm.trans hin
  | note hsaw =>
    refine (Inner.lookup_history_note hin).imp id fun ⟨hon, hgid, hrecord⟩ => .inl ⟨hon, _, ?_, hrecord⟩
    rwa [hgid]
  | finalize happ => exact (Inner.lookup_history_applyRetention hin).imp id fun hbacklog => .inr ⟨_, happ, hbacklog⟩

end Retains

/-! ## Runs -/

variable (E)

/-- A member whose slot tells its own last answer. -/
structure AsMember (w : Answering S) : Prop where
  faithful : w.Faithful E
  role : w.node.role = .member

/-- After `calls` persistence is on: a call turned it on with consent, and it was on since. -/
def OnByConsent (w : Answering S) (calls : List (Call S)) : Prop :=
  ∃ pre c post, calls = pre ++ c :: post ∧ TurnsOn E (pre.foldl (step E) w) c ∧
    Run.Along (step E) (fun w c => (w.step E c).node.persistent = true) (pre.foldl (step E) w) (c :: post)

/-- Some call of the run received or sent the message. -/
def SawBefore (w : Answering S) (calls : List (Call S)) (gid : Gid) (r : HistoryRecord) : Prop :=
  ∃ pre c post, calls = pre ++ c :: post ∧ Saw E (pre.foldl (step E) w).node c.now c.input gid r

/-- The two ways in which a call may seal a record after the run `calls`. -/
inductive Sealing (w : Answering S) (calls : List (Call S)) (c : Call S) (gid : Gid) (r : HistoryRecord) : Prop
  | live (hsaw : Saw E (calls.foldl (step E) w).node c.now c.input gid r) (hon : OnByConsent E w calls)
  | carried {body : PromoteBody} (happ : Approves E (calls.foldl (step E) w) c body)
    (hpoint : ∃ point ∈ body.carryPoint, point ≤ r.ts) (hsaw : SawBefore E w calls gid r)

/-- A promotion that this node did not accept seals nothing, and does not turn persistence on. -/
def Spared (w : Answering S) (c : Call S) : Prop :=
  ∀ body, Finalizes E w.node c.input body → (w.step E c).answers (body.id E.sha256) ≠ some true →
    (w.step E c).node.history = w.node.history ∧ (w.step E c).node.persistent = w.node.persistent

variable {E} {w : Answering S} {calls : List (Call S)}

theorem asMember_step (hw : w.AsMember E) (c : Call S) : (w.step E c).AsMember E :=
  ⟨hw.faithful.step c, (E.role_step w.node c).trans hw.role⟩

theorem AsMember.run (hw : w.AsMember E) (calls : List (Call S)) : (calls.foldl (step E) w).AsMember E :=
  List.foldlRecOn calls (step E) hw fun _ hw c _ => asMember_step hw c

theorem AsMember.onByConsent (hw : w.AsMember E) (hoff : w.node.persistent = false)
    (hon : (calls.foldl (step E) w).node.persistent = true) : OnByConsent E w calls := by
  obtain ⟨pre, c, post, hcalls, hbefore, halong⟩ :=
    Run.exists_rise (P := fun w : Answering S => w.node.persistent = true) (by simp [hoff]) hon
  refine ⟨pre, c, post, hcalls, ?_, halong⟩
  exact ((step_retains (hw.run pre).faithful (hw.run pre).role c).persistent halong.1).resolve_left hbefore

theorem AsMember.sawBefore (hw : w.AsMember E) (hempty : w.node.backlog = []) {e : BacklogEntry}
    (he : e ∈ (calls.foldl (step E) w).node.backlog) :
    ∃ r, SawBefore E w calls e.gid r ∧ e.ts = r.ts ∧ e.record = r.encode := by
  obtain ⟨pre, c, post, hcalls, hbefore, halong⟩ :=
    Run.exists_rise (P := fun w : Answering S => e ∈ w.node.backlog) (by simp [hempty]) he
  obtain ⟨r, hsaw, hr⟩ :=
    ((step_retains (hw.run pre).faithful (hw.run pre).role c).backlog halong.1).resolve_left hbefore
  exact ⟨r, ⟨pre, c, post, hcalls, hsaw⟩, hr⟩

theorem AsMember.spared (hw : w.AsMember E) (c : Call S) : w.Spared E c := by
  obtain ⟨input, d, now⟩ := c
  intro body hfinal hno
  cases hfinal with
  | @announced peer payload st hst hcheck =>
    have hnone : w.node.consented E.sha256 (st.body.id E.sha256) = none := by
      simp only [Inner.consented, hst, Option.bind_eq_bind, Option.bind_some]
      refine if_neg fun hyes => hno ?_
      rw [answers_step_of_none rfl]
      exact hw.faithful st true hst hyes.2
    have hstep : E.step w.node ⟨.frame peer (.promoteCommit payload), d, now⟩ =
        { w.node with promote := none } := by
      simp only [Env.step, Env.receive, if_pos hw.role, Inner.handlePromoteCommit, hcheck, hnone]
    rw [Answering.step, hstep]
    exact ⟨rfl, rfl⟩
  | @mandate tier mode picked onion carryFrom body payload hdraft =>
    have hgiven : given E w.node (.proposePromote tier mode 2 picked onion carryFrom) =
        some (body.id E.sha256, true) := by
      rw [given, hdraft]
      rfl
    exact absurd (by rw [answers_step_of_some hgiven, Function.update_self]) hno

theorem AsMember.sealing (hw : w.AsMember E) (hi : w.node.Fresh) {gid : Gid} {record : Bytes}
    (h : (calls.foldl (step E) w).node.history.lookup gid = some record) :
    ∃ r pre c post, record = r.encode ∧ calls = pre ++ c :: post ∧ Sealing E w pre c gid r ∧
      Run.Along (step E) (fun w c => (w.step E c).node.history.lookup gid = some record)
        (pre.foldl (step E) w) (c :: post) := by
  obtain ⟨pre, c, post, hcalls, hbefore, halong⟩ :=
    Run.exists_rise (P := fun w : Answering S => w.node.history.lookup gid = some record) (by simp [hi.history]) h
  have hpre := hw.run pre
  rcases ((step_retains hpre.faithful hpre.role c).history halong.1).resolve_left hbefore with
    ⟨hon, r, hsaw, hrecord⟩ | ⟨body, happ, e, he, rfl, rfl, hpoint⟩
  · exact ⟨r, pre, c, post, hrecord, hcalls, .live hsaw (hw.onByConsent hi.persistent hon), halong⟩
  · obtain ⟨r, hsaw, hts, hrecord⟩ := hw.sawBefore hi.backlog he
    exact ⟨r, pre, c, post, hrecord, hcalls, .carried happ (hts ▸ hpoint) hsaw, halong⟩

/-- **A member seals with its own consent only.** In every run from a fresh start, each record of the
history was sealed while its own call or an accepted promotion had turned persistence on, or by an
accepted promotion that carries the message; a promotion that was declined or not answered seals nothing;
and turning persistence off leaves nothing. -/
theorem sealed_by_consent {i : Inner S} (hi : i.Fresh) (hrole : i.role = .member) (calls : List (Call S)) :
    (∀ gid record, (calls.foldl (step E) ⟨i, fun _ => none⟩).node.history.lookup gid = some record →
      ∃ r pre c post, record = r.encode ∧ calls = pre ++ c :: post ∧
        Sealing E ⟨i, fun _ => none⟩ pre c gid r ∧
        Run.Along (step E) (fun w c => (w.step E c).node.history.lookup gid = some record)
          (pre.foldl (step E) ⟨i, fun _ => none⟩) (c :: post)) ∧
    Run.Along (step E) (Spared E) ⟨i, fun _ => none⟩ calls ∧
    ∀ c, c.input = .setPersistence false →
      ((calls.foldl (step E) ⟨i, fun _ => none⟩).step E c).node.history = ∅ := by
  have hw : AsMember E ⟨i, fun _ => none⟩ := ⟨fun st accept hst => absurd (hi.promote.symm.trans hst) nofun, hrole⟩
  refine ⟨fun gid record => hw.sealing hi, ?_, fun c hc => ?_⟩
  · exact Run.Along.of_invariant (I := AsMember E) (fun w c hw _ => asMember_step hw c)
      (fun w c hw _ => hw.spared c) hw Run.along_true
  · simp only [Answering.step, Env.step, hc]
    rfl

/-- The peer joins, sends a message, and then promotes the chat by a mandate of its own that carries the
backlog. -/
def mandateCalls : List (Call Scheme.plain) :=
  [welcomeCall, plainCall (.sendMarked "hi" none none) 13, plainCall (.proposePromote 1 1 2 [] "" 0) 14]

theorem sealed_by_consent_mandate :
    plainPeer.Fresh ∧ plainPeer.role = .member ∧
    (mandateCalls.foldl (step Env.plain) ⟨plainPeer, fun _ => none⟩).node.history.toList.length = 1 ∧
    ∀ gid record, (mandateCalls.foldl (step Env.plain) ⟨plainPeer, fun _ => none⟩).node.history.lookup gid =
        some record →
      ∃ r pre c post, record = r.encode ∧ mandateCalls = pre ++ c :: post ∧
        Sealing Env.plain ⟨plainPeer, fun _ => none⟩ pre c gid r ∧
        Run.Along (step Env.plain) (fun w c => (w.step Env.plain c).node.history.lookup gid = some record)
          (pre.foldl (step Env.plain) ⟨plainPeer, fun _ => none⟩) (c :: post) := by
  have hfresh : plainPeer.Fresh := Inner.fresh_joiner ..
  exact ⟨hfresh, rfl, by decide, (sealed_by_consent hfresh rfl mandateCalls).1⟩

end Answering
end Talkrypt.Core
