import Tunnel.Lemmas.SwitcherSteps

/-!
# Failures of the switcher

Why the server destroys a connection (`Cause`): its own read or write failed, its topic was closed while it waited, or a
transfer that it was part of failed. The last is where a failure of one client closes the connection of another; another
one is the accept loop, which ends when the address of a socket cannot be had (`switcher_partner_closed`). Without
these, and without a `Serialize` that throws, every client that is left is attended to (`switcher_isolation`).
-/

namespace Tunnel

open Lib

namespace Switcher

/-- Why a step destroys a connection. -/
inductive Cause (s : State) (c : Conn) : Event → Prop where
  /-- its request could not be read -/
  | request : Cause s c (.requestFails c)
  /-- its response could not be written -/
  | answer : Cause s c (.answerFails c)
  /-- its topic is closed -/
  | topic {d : Conn} {pkg : RequestPackage} {rest : List Message} (hin : (s.sessions d).inbox = .request pkg :: rest)
      (htype : pkg.type = requestTypeCloseTopic) (hwaits : c ∈ (s.nodes pkg.topic).pushingNodes ++
        (s.nodes pkg.topic).popingNodes) :
      Cause s c (.request d)
  /-- its transfer failed, on its side or on the other -/
  | transfer {q p : Conn} {t : Topic} {ph : Phase} (hframe : s.frames q = some (.transfer p t ph)) (hc : c = q ∨
      c = p) :
      Cause s c (.transferFails q)

/-- A request of a known type destroys the connections that wait on a topic it closes, and no other. -/
theorem State.handle_closed (s : State) {d : Conn} {k : Call} {pkg : RequestPackage} (hasks : k.Asks pkg) {c : Conn}
    (h : c ∈ (s.handle d pkg).closed) : c ∈ s.closed ∨
      (pkg.type = requestTypeCloseTopic ∧ c ∈ (s.nodes pkg.topic).pushingNodes ++ (s.nodes pkg.topic).popingNodes) := by
  unfold State.handle at h
  split at h
  · unfold State.handlePushRequest at h
    dsimp only at h
    split at h <;> exact .inl h
  split at h
  · unfold State.handlePopRequest at h
    dsimp only at h
    split at h <;> exact .inl h
  split at h
  · rename_i htype
    exact (List.mem_append.1 h).imp_right (fun hmem => ⟨htype, hmem⟩)
  split at h
  · exact .inl h
  · rename_i hpush hpop hclose hcheck
    have htype := hasks.2
    cases k with
    | push t v => exact absurd htype hpush
    | pop t => exact absurd htype hpop
    | closeTopic t => exact absurd htype hclose
    | checkTopicExist t => exact absurd htype hcheck

section

variable {address : Conn → Bytes} {s s' : State} {c : Conn}

/-- Who a step closes, and why. -/
theorem closed_step (h : s.ReachableBy address (fun e => e.serializes = true)) {e : Event}
    (he : s.step address e = some s') (hc : c ∈ s'.closed) :
    c ∈ s.closed ∨ Cause s c e := by
  cases e with
  | request d =>
    simp only [State.step] at he
    split at he
    · rename_i m rest hframe hin
      obtain ⟨site, hfiled, hlink, -⟩ := h.linked
      have hl := hlink d
      rw [hfiled.of_handle hframe] at hl
      obtain ⟨k, pkg, rfl, -, -, hasks, -⟩ := hl.of_inbox hin
      cases he
      exact (State.handle_closed _ hasks hc).imp_right (fun hclose => .topic hin hclose.1 hclose.2)
    · cases he
  | requestFails d =>
    simp only [State.step] at he
    split at he
    · cases he
      refine (List.mem_append.1 hc).imp_right (fun hmem => ?_)
      rw [List.mem_singleton.1 hmem]
      exact .request
    · cases he
  | answerFails d =>
    simp only [State.step] at he
    split at he
    · cases he
      refine (List.mem_append.1 hc).imp_right (fun hmem => ?_)
      rw [List.mem_singleton.1 hmem]
      exact .answer
    · cases he
  | transferFails q =>
    simp only [State.step] at he
    split at he
    · rename_i p t ph hframe
      cases he
      exact (List.mem_append.1 hc).imp_right (fun hmem => .transfer hframe (by simpa using hmem))
    · cases he
  | sendData d =>
    obtain ⟨x, -, rfl⟩ := Option.map_eq_some_iff.1 he
    exact .inl hc
  | serializeThrows d =>
    obtain ⟨x, -, rfl⟩ := Option.map_eq_some_iff.1 he
    exact .inl hc
  | transfer q =>
    simp only [State.step] at he
    split at he
    · rename_i p t ph hframe
      cases ph with
      | readData =>
        simp only [State.transferData] at he
        split at he
        · cases he
        · split at he
          · cases he
            exact .inl hc
          · cases he
            exact .inl hc
      | _ =>
        cases he
        exact .inl hc
    · cases he
  | receive d =>
    simp only [State.step] at he
    split at he
    · cases he
    · cases he
      exact .inl hc
    · cases he
      exact .inl hc
  | _ =>
    simp only [State.step] at he
    split at he <;> cases he
    exact .inl hc

/-- A connection that is destroyed in a run was destroyed by some step of it, for a cause. -/
theorem closed_run (h : s.ReachableBy address (fun e => e.serializes = true)) {es : List Event}
    (hes : ∀ e ∈ es, e.serializes = true) (hrun : s.runAll address es = some s') (hc : c ∈ s'.closed) :
    c ∈ s.closed ∨ ∃ es₁ e es₂ s₁, es = es₁ ++ e :: es₂ ∧ s.runAll address es₁ = some s₁ ∧ Cause s₁ c e := by
  induction es generalizing s with
  | nil =>
    cases hrun
    exact .inl hc
  | cons e rest ih =>
    obtain ⟨s₁, he, hrest⟩ := Option.bind_eq_some_iff.1 hrun
    obtain ⟨hserial, hes⟩ := List.forall_mem_cons.1 hes
    rcases ih (Relation.ReflTransGen.tail h ⟨e, hserial, he⟩) hes hrest with hclosed | ⟨es₁, e', es₂, s₂, rfl, hrun₁,
      hcause⟩
    · refine (closed_step h he hclosed).imp_right (fun hcause => ?_)
      exact ⟨[], e, rest, s, rfl, rfl, hcause⟩
    · refine .inr ⟨e :: es₁, e', es₂, s₂, rfl, ?_, hcause⟩
      exact Option.bind_eq_some_iff.2 ⟨s₁, he, hrun₁⟩

/-- The server accepts until its accept loop fails. -/
theorem State.step_accepting {e : Event} (he : s.step address e = some s') (hne : e ≠ .acceptFails) :
    s'.accepting = s.accepting := by
  cases e with
  | acceptFails => exact absurd rfl hne
  | sendData c =>
    obtain ⟨x, -, rfl⟩ := Option.map_eq_some_iff.1 he
    rfl
  | serializeThrows c =>
    obtain ⟨x, -, rfl⟩ := Option.map_eq_some_iff.1 he
    rfl
  | request c =>
    simp only [State.step] at he
    split at he
    · split at he
      · cases he
        exact (State.handle_accepts _ c _).2
      · cases he
        rfl
    · cases he
  | transfer q =>
    simp only [State.step] at he
    split at he
    · rename_i p t ph hframe
      cases ph with
      | readData =>
        simp only [State.transferData] at he
        split at he
        · cases he
        · split at he <;> cases he <;> rfl
      | _ =>
        cases he
        rfl
    · cases he
  | _ =>
    simp only [State.step] at he
    split at he <;> cases he <;> rfl

/-- The accept loop goes on. -/
theorem State.run_accepting {es : List Event} (hes : .acceptFails ∉ es) (hrun : s.runAll address es = some s') :
    s'.accepting = s.accepting := by
  induction es generalizing s with
  | nil =>
    cases hrun
    rfl
  | cons e rest ih =>
    obtain ⟨s₁, he, hrest⟩ := Option.bind_eq_some_iff.1 hrun
    have hne : e ≠ .acceptFails := by
      rintro rfl
      exact hes List.mem_cons_self
    exact (ih (fun hmem => hes (List.mem_cons_of_mem e hmem)) hrest).trans (State.step_accepting he hne)

end

/-! ## Calls that wait -/

/-- The call of a client is attended to: its request is still to be read, its socket is parked or in a transfer or about
to be answered, or its response is on its way. -/
def State.Attends (s : State) (c : Conn) (k : Call) : Prop :=
  (∃ pkg, .request pkg ∈ (s.sessions c).inbox) ∨ (∃ r, .response r ∈ (s.sessions c).outbox) ∨
  match k with
  | .push t _ => c ∈ (s.nodes t).pushingNodes ∨ ∃ p ph, s.frames c = some (.transfer p t ph)
  | .pop t => c ∈ (s.nodes t).popingNodes ∨ ∃ q ph, s.frames q = some (.transfer c t ph)
  | _ => ∃ rpkg, s.frames c = some (.answer rpkg)

/-- Who is owed an answer gets one. -/
theorem ClientCtl.Owed.response {ctl : ClientCtl} {out : List Message} (h : ctl.Owed out) : ∃ r, .response r ∈ out := by
  cases ctl with
  | idle => nomatch h
  | pushRequested t v => nomatch h
  | popWaits t =>
    obtain ⟨d, r, rfl⟩ := h
    exact ⟨r, by simp⟩
  | _ =>
    obtain ⟨r, rfl⟩ := h
    exact ⟨r, by simp⟩

/-- Every connection that is not lost is attended to. -/
theorem Filed.attends {s : State} {site : Conn → Site} (h : Filed s site) {c : Conn}
    (hlink : Link (s.sessions c) (site c).stage) (hkept : ¬ s.Lost c) {k : Call}
    (hk : (s.sessions c).ctl.call = some k) : s.Attends c k := by
  rw [h.lost] at hkept
  have howner := h.owner c
  -- a request that is not served yet, or all of the answer is on its way
  have hfresh : Link (s.sessions c) .fresh → s.Attends c k := by
    rintro (⟨hidle, -⟩ | ⟨k', pkg, -, -, -, hin, -⟩ | ⟨howed, -⟩)
    · rw [hidle] at hk
      nomatch hk
    · exact .inl ⟨pkg, by rw [hin]; exact List.mem_cons_self⟩
    · exact .inr (.inl howed.response)
  cases hsite : site c with
  | out =>
    rw [hsite] at hlink
    exact hfresh hlink
  | gone => exact absurd hsite hkept
  | handle =>
    rw [hsite] at hlink
    exact hfresh hlink
  | answer =>
    rw [hsite] at hlink howner
    obtain ⟨⟨t, hctl | hctl⟩, -⟩ := hlink
    · rw [hctl] at hk
      cases hk
      exact .inr (.inr howner)
    · rw [hctl] at hk
      cases hk
      exact .inr (.inr howner)
  | pushing t =>
    rw [hsite] at hlink
    obtain ⟨⟨v, hcall⟩, -⟩ := hlink
    rw [hcall] at hk
    cases hk
    exact .inr (.inr (.inl (h.pushing.mem.2 hsite)))
  | poping t =>
    rw [hsite] at hlink
    rw [hlink.1] at hk
    cases hk
    exact .inr (.inr (.inl (h.poping.mem.2 hsite)))
  | sender p t ph =>
    rw [hsite] at hlink howner
    have hpush : (∃ v, k = .push t v) → s.Attends c k := by
      rintro ⟨v, rfl⟩
      exact .inr (.inr (.inr ⟨p, ph, howner⟩))
    cases ph with
    | readData =>
      obtain ⟨⟨v, hcall⟩, -⟩ := hlink
      exact hpush ⟨v, Option.some.inj (hk.symm.trans hcall)⟩
    | writeData d =>
      obtain ⟨⟨v, hctl, -⟩, -⟩ := hlink
      rw [hctl] at hk
      exact hpush ⟨v, (Option.some.inj hk).symm⟩
    | answerPush =>
      obtain ⟨⟨v, hctl⟩, -⟩ := hlink
      rw [hctl] at hk
      exact hpush ⟨v, (Option.some.inj hk).symm⟩
    | answerPop => exact hfresh hlink
  | receiver q t ph =>
    have hq := h.owner q
    rw [(h.paired q c t ph).2 hsite] at hq
    have hpop : k = .pop t → s.Attends c k := by
      rintro rfl
      exact .inr (.inr (.inr ⟨q, ph, hq⟩))
    rw [hsite] at hlink
    have hgiven : Link (s.sessions c) (.given t) → s.Attends c k := by
      rintro ⟨⟨d, ⟨hctl, -⟩ | ⟨hctl, -⟩⟩, -⟩
      · rw [hctl] at hk
        exact hpop (Option.some.inj hk).symm
      · rw [hctl] at hk
        exact hpop (Option.some.inj hk).symm
    have hwants : Link (s.sessions c) (.wantsValue t) → s.Attends c k := by
      rintro ⟨hctl, -⟩
      rw [hctl] at hk
      exact hpop (Option.some.inj hk).symm
    cases ph with
    | readData => exact hwants hlink
    | writeData d => exact hwants hlink
    | answerPush => exact hgiven hlink
    | answerPop => exact hgiven hlink

/-- In a run in which no transfer fails, nor the accept loop, and no `Serialize` throws, whatever reads of requests and
writes of responses fail: a connection that is lost had a failure of its own, or its topic was closed while it waited;
every other connection has its pending call unread, parked, matched or answered; and who is not accepted yet can be. -/
theorem switcher_isolation (address : Conn → Bytes) (es : List Event) (s : State)
    (hrun : State.init.runAll address es = some s) (hcalm : ∀ q, .transferFails q ∉ es) (haccepts : .acceptFails ∉ es)
    (hserial : ∀ c, .serializeThrows c ∉ es) :
    (∀ c, s.Lost c → .requestFails c ∈ es ∨ .answerFails c ∈ es ∨
      ∃ es₁ d es₂ s₁ pkg rest, es = es₁ ++ .request d :: es₂ ∧ State.init.runAll address es₁ = some s₁ ∧
        (s₁.sessions d).inbox = .request pkg :: rest ∧ pkg.type = requestTypeCloseTopic ∧
        c ∈ (s₁.nodes pkg.topic).pushingNodes ++ (s₁.nodes pkg.topic).popingNodes) ∧
    (∀ c, ¬ s.Lost c → ∀ k, (s.sessions c).ctl.call = some k → s.Attends c k) ∧
    ∀ c, c ∉ s.opened → (s.step address (.accept c)).isSome = true := by
  have hes : ∀ e ∈ es, e.serializes = true := by
    intro e he
    cases e with
    | serializeThrows c => exact absurd he (hserial c)
    | _ => rfl
  have haccepting : s.accepting = true := State.run_accepting haccepts hrun
  refine ⟨?_, ?_, ?_⟩
  · rintro c (hc | ⟨-, hnot⟩)
    · obtain hnil | ⟨es₁, e, es₂, s₁, rfl, hrun₁, hcause⟩ := closed_run Relation.ReflTransGen.refl hes hrun hc
      · nomatch hnil
      · cases hcause with
        | request => exact .inl (by simp)
        | answer => exact .inr (.inl (by simp))
        | topic hin htype hwaits => exact .inr (.inr ⟨es₁, _, es₂, s₁, _, _, rfl, hrun₁, hin, htype, hwaits⟩)
        | @transfer q p t ph hframe hc => exact absurd (by simp) (hcalm q)
    · rw [haccepting] at hnot
      nomatch hnot
  · intro c hkept k hk
    obtain ⟨site, hfiled, hlink, -⟩ := (State.ReachableBy.run .refl hes hrun).linked
    exact hfiled.attends (hlink c) hkept hk
  · intro c hc
    rw [State.step, if_pos ⟨hc, haccepting⟩]
    rfl

/-- A push is parked, and the connection of another client fails. -/
def strangerFails : List Event :=
    [.accept 0, .accept 1, .call 0 (.push [116] (some [1])) 0, .request 0, .requestFails 1]

/-- A stranger fails, and the push stays parked. -/
theorem switcher_isolation_stranger : ∃ s, State.init.runAll (fun _ => []) strangerFails = some s ∧ s.closed = [1] ∧
    s.Attends 0 (.push [116] (some [1])) := by
  have hrun : (State.init.runAll (fun _ => []) strangerFails).map (fun s => (s.opened, s.closed, (s.sessions 0).ctl)) =
      some ([0, 1], [1], .pushRequested [116] (some [1])) := rfl
  obtain ⟨s, hs, heq⟩ := Option.map_eq_some_iff.1 hrun
  obtain ⟨hopened, heq⟩ := Prod.mk.inj heq
  obtain ⟨hclosed, hctl⟩ := Prod.mk.inj heq
  refine ⟨s, hs, hclosed, ?_⟩
  refine (switcher_isolation (fun _ => []) strangerFails s hs (by simp [strangerFails]) (by simp [strangerFails])
    (by simp [strangerFails])).2.1 0 ?_ (.push [116] (some [1])) (by rw [hctl]; rfl)
  rw [State.Lost, hclosed, hopened]
  simp

/-- A push is parked and its connection fails, which nobody notices; a pop comes and is matched with it. -/
def parkedFails : List Event :=
  [.accept 0, .accept 1, .call 0 (.push [116] (some [1])) 0, .request 0, .call 1 (.pop [116]) 0, .request 1]

/-- A push is parked and a pop is sent; before its connection comes another one, which its client has reset: the accept
loop ends. -/
def resetBeforeAccept : List Event :=
  [.accept 0, .call 0 (.push [116] (some [1])) 0, .request 0, .call 1 (.pop [116]) 0, .acceptFails]

/-- The read from the connection that failed is the first thing the transfer does, and it takes the connection of the
pop with it: the pop was matched, and its client waits for a value. And where the accept loop ends, a pop that was sent
is never served. -/
theorem switcher_partner_closed : (∃ s s', State.init.runAll (fun _ => []) parkedFails = some s ∧
    s.frames 0 = some (.transfer 1 [116] .readData) ∧ s.closed = [] ∧ s.step (fun _ => []) (.transferFails 0) =
    some s' ∧ 1 ∈ s'.closed ∧ (s'.sessions 1).ctl = .popWaits [116] ∧ (s'.sessions 1).outbox = []) ∧
    ∃ s, State.init.runAll (fun _ => []) resetBeforeAccept = some s ∧ s.Lost 1 ∧ (s.sessions 1).ctl = .popWaits [116] ∧
      s.step (fun _ => []) (.accept 1) = none := by
  constructor
  · have hrun : (State.init.runAll (fun _ => []) parkedFails).map
        (fun s => (s.frames 0, s.closed, (s.sessions 1).ctl, (s.sessions 1).outbox)) =
        some (some (.transfer 1 [116] .readData), [], .popWaits [116], []) := rfl
    obtain ⟨s, hs, heq⟩ := Option.map_eq_some_iff.1 hrun
    obtain ⟨hframe, heq⟩ := Prod.mk.inj heq
    obtain ⟨hclosed, heq⟩ := Prod.mk.inj heq
    obtain ⟨hctl, hout⟩ := Prod.mk.inj heq
    refine ⟨s, s.destroy [0, 1], hs, hframe, hclosed, ?_, ?_, hctl, hout⟩
    · rw [State.step, hframe]
    · exact List.mem_append_right _ (by decide)
  · have hrun : (State.init.runAll (fun _ => []) resetBeforeAccept).map (fun s => (s.opened, s.accepting,
        (s.sessions 1).ctl)) =
        some ([0], false, .popWaits [116]) := rfl
    obtain ⟨s, hs, heq⟩ := Option.map_eq_some_iff.1 hrun
    obtain ⟨hopened, heq⟩ := Prod.mk.inj heq
    obtain ⟨haccepting, hctl⟩ := Prod.mk.inj heq
    refine ⟨s, hs, .inr ⟨?_, haccepting⟩, hctl, ?_⟩
    · rw [hopened]
      decide
    · rw [State.step, haccepting]
      simp

end Switcher

end Tunnel
