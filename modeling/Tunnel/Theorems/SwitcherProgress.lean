import Tunnel.Theorems.SwitcherTable

/-!
# The switcher brings calls together

What a connection still has to do is bounded by the calls of its client: each call brings some effort, every step of the
client or of the server for it takes some away, and whatever the others do adds nothing. Where nobody can take a step, a
call that has not returned waits on its topic, and nobody waits on the other side of it. All this is so while no
`Serialize` of a value throws.
-/

namespace Tunnel

open Lib Function

namespace Switcher

/-! ## Who does a step -/

/-- The connection for which a client or the server goes on with a call. The owner of a transfer is the connection of
the push. -/
def Event.actor : Event → Option Conn
  | .sendData c => some c
  | .receive c => some c
  | .request c => some c
  | .answer c => some c
  | .transfer push => some push
  | _ => none

/-- The connection whose client begins a call. -/
def Event.caller : Event → Option Conn
  | .call c _ _ => some c
  | _ => none

/-! ## Effort -/

/-- What the client of a call still has to do: to send the data, to receive the data and the response. -/
def ClientCtl.effort : ClientCtl → Nat
  | .idle => 0
  | .pushRequested _ _ => 2
  | .popWaits _ => 2
  | _ => 1

def Message.isRequest : Message → Bool
  | .request _ => true
  | _ => false

/-- What is left of `transfer_data`. -/
def Phase.effort : Phase → Nat
  | .readData => 4
  | .writeData _ => 3
  | .answerPush => 2
  | .answerPop => 1

/-- What is left of a coroutine. -/
def Frame.effort : Frame → Nat
  | .handle => 0
  | .answer _ => 1
  | .transfer _ _ ph => ph.effort

open Classical in
/-- What the server still has to do for a connection; a push that is parked has a transfer before it. -/
noncomputable def State.serverEffort (s : State) (c : Conn) : Nat :=
  match s.frames c with
  | some f => f.effort
  | none => if ∃ t, c ∈ (s.nodes t).pushingNodes then 4 else 0

/-- What a client still has to do, and the server with its requests: one that is not read yet leads to a transfer at
most. -/
def Session.effort (x : Session) : Nat := x.ctl.effort + 5 * x.inbox.countP Message.isRequest

noncomputable def State.effort (s : State) (c : Conn) : Nat := (s.sessions c).effort + s.serverEffort c

section effort

variable {s s' : State} {site : Conn → Site} {c d : Conn}

theorem Frame.effort_le (f : Frame) : f.effort ≤ 4 := by
  cases f with
  | handle => exact Nat.zero_le 4
  | answer => exact Nat.le_of_ble_eq_true rfl
  | transfer p t ph => cases ph <;> exact Nat.le_of_ble_eq_true rfl

/-- A connection has four steps left at most. -/
theorem State.serverEffort_le (s : State) (c : Conn) : s.serverEffort c ≤ 4 := by
  unfold State.serverEffort
  split
  · exact Frame.effort_le _
  · split
    · exact Nat.le_refl 4
    · exact Nat.zero_le 4

/-- Those of its coroutine. -/
theorem State.serverEffort_some {f : Frame} (hf : s.frames c = some f) : s.serverEffort c = f.effort := by
  unfold State.serverEffort
  rw [hf]

/-- Four while it waits. -/
theorem State.serverEffort_parked (hf : s.frames c = none) {t : Topic} (hc : c ∈ (s.nodes t).pushingNodes) :
    s.serverEffort c = 4 := by
  unfold State.serverEffort
  rw [hf]
  exact if_pos ⟨t, hc⟩

theorem State.serverEffort_none (hf : s.frames c = none) (hc : ∀ t, c ∉ (s.nodes t).pushingNodes) :
    s.serverEffort c = 0 := by
  unfold State.serverEffort
  rw [hf]
  exact if_neg (by rintro ⟨t, ht⟩; exact hc t ht)

/-- A connection whose coroutine stays, and that is not parked. -/
theorem State.serverEffort_congr (hf : s'.frames d = s.frames d)
    (hn : ∀ t, d ∈ (s'.nodes t).pushingNodes → d ∈ (s.nodes t).pushingNodes) :
    s'.serverEffort d ≤ s.serverEffort d := by
  cases hd : s.frames d with
  | some f => rw [serverEffort_some hd, serverEffort_some (hf.trans hd)]
  | none =>
    by_cases hparked : ∃ t, d ∈ (s'.nodes t).pushingNodes
    · obtain ⟨t, ht⟩ := hparked
      rw [serverEffort_parked hd (hn t ht)]
      exact s'.serverEffort_le d
    · rw [serverEffort_none (hf.trans hd) (by intro t ht; exact hparked ⟨t, ht⟩)]
      exact Nat.zero_le _

/-- Somebody else is parked, or taken from a list of the parked. -/
theorem Filed.pushingNodes_le {topic : Topic} {n : PendingNodes}
    (hn : d ∈ n.pushingNodes → d ∈ (s.nodes topic).pushingNodes) (t : Topic)
    (hd : d ∈ (((s.datas.assign topic n).get t).getD {}).pushingNodes) : d ∈ (s.nodes t).pushingNodes := by
  rw [Filed.pushingNodes_assign] at hd
  split at hd
  · rename_i ht
    rw [ht]
    exact hn hd
  · exact hd

/-- A push request gives no work to others. -/
theorem State.handlePushRequest_effort (hd : d ≠ c) (topic : Topic) :
    (s.handlePushRequest c topic).serverEffort d ≤ s.serverEffort d := by
  unfold State.handlePushRequest
  split
  · refine State.serverEffort_congr (update_of_ne hd ..) (Filed.pushingNodes_le ?_)
    intro hmem
    exact (List.mem_cons.1 hmem).resolve_left hd
  · exact State.serverEffort_congr (update_of_ne hd ..) (Filed.pushingNodes_le id)

/-- Nor does a pop request. -/
theorem Filed.handlePopRequest_effort (h : Filed s site) (hd : d ≠ c) (topic : Topic) :
    (s.handlePopRequest c topic).serverEffort d ≤ s.serverEffort d := by
  unfold State.handlePopRequest
  split
  · exact State.serverEffort_congr (update_of_ne hd ..) (Filed.pushingNodes_le id)
  · rename_i q rest hq
    have hmem : q ∈ (s.nodes topic).pushingNodes := by
      rw [hq]
      exact List.mem_cons_self
    by_cases hdq : d = q
    · subst hdq
      rw [State.serverEffort_parked (h.frame_of_pushing hmem) hmem]
      exact State.serverEffort_le _ d
    · refine State.serverEffort_congr ?_ (Filed.pushingNodes_le ?_)
      · exact (update_of_ne hdq ..).trans (update_of_ne hd ..)
      · intro hrest
        rw [hq]
        exact List.mem_cons_of_mem q hrest

/-- Nor does a close. -/
theorem Filed.handleCloseTopicRequest_effort (h : Filed s site) (hd : d ≠ c) (topic : Topic) :
    (s.handleCloseTopicRequest c topic).serverEffort d ≤ s.serverEffort d := by
  refine State.serverEffort_congr ?_ ?_
  · refine (update_of_ne hd ..).trans ?_
    show (if d ∈ (s.nodes topic).pushingNodes ++ (s.nodes topic).popingNodes then none else s.frames d) = s.frames d
    split
    · rename_i hmem
      exact (h.frame_of_waiting hmem).symm
    · rfl
  · intro t ht
    rw [Filed.closeTopic_nodes] at ht
    split at ht
    · cases ht
    · exact ht

/-- Sockets that have a coroutine, or take part in one, are destroyed. -/
theorem State.destroy_effort {cs : List Conn} (hcs : ∀ c ∈ cs, ∀ t, c ∉ (s.nodes t).pushingNodes) (d : Conn) :
    (s.destroy cs).serverEffort d ≤ s.serverEffort d := by
  by_cases hd : d ∈ cs
  · rw [State.serverEffort_none (s := s.destroy cs) (if_pos hd) (hcs d hd)]
    exact Nat.zero_le _
  · exact State.serverEffort_congr (if_neg hd) (fun _ => id)

/-- Handling a request is no effort for the other connections. -/
theorem Filed.handle_effort (h : Filed s site) (hc : s.frames c = some .handle) (hd : d ≠ c) (pkg : RequestPackage) :
    (s.handle c pkg).serverEffort d ≤ s.serverEffort d := by
  have hlogged : Filed { s with handled := s.handled ++ [pkg] } site := h.congr rfl rfl ⟨rfl, rfl, rfl⟩
  unfold State.handle
  dsimp only
  split
  · exact State.handlePushRequest_effort hd _
  split
  · exact hlogged.handlePopRequest_effort hd _
  split
  · exact hlogged.handleCloseTopicRequest_effort hd _
  split
  · exact State.serverEffort_congr (update_of_ne hd ..) (fun _ => id)
  · refine State.destroy_effort ?_ d
    intro e he
    obtain rfl := List.mem_singleton.1 he
    exact h.not_pushing (by rw [hc]; rintro ⟨⟩)

end effort

/-! ## Steps -/

namespace Session

variable {x x' : Session}

/-- A call is seven steps at most. -/
theorem effort_begin (x : Session) (k : Call) (timeoutMs : Int32) : (x.begin k timeoutMs).effort ≤ x.effort + 7 := by
  have hinbox : (x.begin k timeoutMs).inbox.countP Message.isRequest = x.inbox.countP Message.isRequest + 1 := by
    simp [Session.begin, Message.isRequest]
  have hctl : (x.begin k timeoutMs).ctl.effort ≤ 2 := by cases k <;> simp [Session.begin, ClientCtl.effort]
  unfold effort
  rw [hinbox]
  omega

theorem effort_sendData (h : x.sendData = some x') : x'.effort + 1 = x.effort := by
  obtain ⟨t, v, hctl, rfl⟩ := sendData_eq h
  simp [effort, hctl, ClientCtl.effort, Message.isRequest]
  omega

/-- A read is one less. -/
theorem effort_receive (h : x.receive = .ok x') : x'.effort + 1 ≤ x.effort := by
  obtain ⟨m, rest, -, ⟨t, d, hctl, -, rfl⟩ | ⟨r, a, -, rfl, hreads, -⟩⟩ := receive_ok h
  · simp only [effort, hctl, ClientCtl.effort]
    omega
  · have hpos : 0 < x.ctl.effort := by
      cases hx : x.ctl with
      | idle =>
        rw [hx] at hreads
        cases hreads
      | _ => simp [ClientCtl.effort]
    show 0 + _ + 1 ≤ x.ctl.effort + _
    simp only [finish]
    omega

end Session

section steps

variable {address : Conn → Bytes} {s s' : State} {site : Conn → Site} {c d : Conn} {x : Session}

/-- One session changes, and no coroutine. -/
theorem State.effort_setSession (s : State) (c : Conn) (x : Session) (d : Conn) :
    (s.setSession c x).effort d = if d = c then x.effort + s.serverEffort d else s.effort d := by
  show (update s.sessions c x d).effort + s.serverEffort d = _
  split
  · rename_i hd
    rw [hd, update_self]
  · rename_i hd
    rw [update_of_ne hd]
    rfl

/-- A package to a client is no effort. -/
theorem State.effort_write (s : State) (c : Conn) (m : Message) (d : Conn) :
    ((s.write c m).sessions d).effort = (s.sessions d).effort := by
  show (update s.sessions c _ d).effort = _
  by_cases hd : d = c
  · subst hd
    rw [update_self]
    rfl
  · rw [update_of_ne hd]

/-- A coroutine goes on; nobody is parked, and others are at most handled again. -/
theorem State.effort_server (d : Conn) {f : Frame} (hsessions : ∀ d, (s'.sessions d).effort = (s.sessions d).effort)
    (hdatas : s'.datas = s.datas) (hc : s'.frames c = some f)
    (hother : ∀ d, d ≠ c → s'.frames d = s.frames d ∨ s'.frames d = some .handle)
    (hless : f.effort + 1 = s.serverEffort c) : s'.effort d + (if d = c then 1 else 0) ≤ s.effort d := by
  unfold State.effort
  rw [hsessions]
  split
  · rename_i hd
    subst hd
    rw [State.serverEffort_some hc]
    omega
  · rename_i hd
    refine Nat.add_le_add_left (n := s'.serverEffort d) ?_ _
    rcases hother d hd with hframe | hframe
    · refine State.serverEffort_congr hframe ?_
      intro t ht
      rwa [State.nodes, hdatas] at ht
    · rw [State.serverEffort_some hframe]
      exact Nat.zero_le _

/-- What `transfer_data` does is taken from the effort of the push. -/
theorem State.transfer_effort (hfiled : Filed s site) (hlink : ∀ c, Link (s.sessions c) (site c).stage)
    (h : s.step address (.transfer c) = some s') (d : Conn) : s'.effort d + (if d = c then 1 else 0) ≤ s.effort d := by
  simp only [State.step] at h
  split at h
  · rename_i p t ph hframe
    have heffort := (State.serverEffort_some hframe).symm
    have hother : ∀ f d, d ≠ c → update s.frames c f d = s.frames d ∨ update s.frames c f d = some .handle := by
      intro f d hd
      exact .inl (update_of_ne hd ..)
    cases ph with
    | readData =>
      simp only [State.transferData] at h
      split at h
      · cases h
      · rename_i m rest hin
        have hl := hlink c
        rw [(hfiled.of_transfer hframe).1] at hl
        obtain ⟨v, rfl, -⟩ := hl.of_wantsData hin
        cases h
        refine State.effort_server d ?_ rfl (update_self ..) (hother _) heffort
        intro e
        show (update s.sessions c _ e).effort = _
        by_cases he : e = c
        · subst he
          rw [update_self]
          simp [Session.effort, hin, Message.isRequest]
        · rw [update_of_ne he]
    | writeData dpkg =>
      cases h
      exact State.effort_server d (s.effort_write p (.data dpkg)) rfl (update_self ..) (hother _) heffort
    | answerPush =>
      cases h
      exact State.effort_server d (s.effort_write c _) rfl (update_self ..) (hother _) heffort
    | answerPop =>
      cases h
      have hne := hfiled.paired.ne (hfiled.of_transfer hframe).1
      refine State.effort_server d (f := .handle) (s.effort_write p _) rfl ?_ ?_ heffort
      · exact (update_of_ne hne.symm ..).trans (update_self ..)
      · intro e he
        by_cases hep : e = p
        · subst hep
          exact .inr (update_self ..)
        · exact .inl ((update_of_ne hep ..).trans (update_of_ne he ..))
  · cases h

/-- A request is one less for its client. -/
theorem State.request_effort (hfiled : Filed s site) (hlink : ∀ c, Link (s.sessions c) (site c).stage)
    (h : s.step address (.request c) = some s') (d : Conn) : s'.effort d + (if d = c then 1 else 0) ≤ s.effort d := by
  simp only [State.step] at h
  split at h
  · rename_i m rest hframe hin
    have hl := hlink c
    rw [hfiled.of_handle hframe] at hl
    obtain ⟨k, pkg, rfl, -⟩ := hl.of_inbox hin
    cases h
    generalize hr : s.setSession c { s.sessions c with inbox := rest, served := (s.sessions c).served + 1 } = r
    have hrfiled : Filed r site := hr ▸ hfiled.congr rfl rfl ⟨rfl, rfl, rfl⟩
    have hsessions : ∀ e, ((r.handle c pkg).sessions e).effort + (if e = c then 5 else 0) = (s.sessions e).effort := by
      intro e
      rw [(State.handle_frame r c pkg).1, ← hr]
      show (update s.sessions c _ e).effort + _ = _
      by_cases he : e = c
      · subst he
        rw [update_self, if_pos rfl]
        simp only [Session.effort, hin, List.countP_cons, Message.isRequest, if_true]
        omega
      · rw [update_of_ne he, if_neg he]
        rfl
    have hd := hsessions d
    unfold State.effort
    split
    · rename_i heq
      rw [if_pos heq] at hd
      have hle := (r.handle c pkg).serverEffort_le d
      omega
    · rename_i hne
      rw [if_neg hne] at hd
      have hle := hrfiled.handle_effort (d := d) (by rw [← hr]; exact hframe) hne pkg
      have hsame : r.serverEffort d = s.serverEffort d := by rw [← hr]; rfl
      omega
  · cases h

/-- Sockets are destroyed. -/
theorem State.effort_destroy {cs : List Conn} (hcs : ∀ c ∈ cs, ∀ t, c ∉ (s.nodes t).pushingNodes) (d : Conn) :
    (s.destroy cs).effort d ≤ s.effort d := Nat.add_le_add_left (State.destroy_effort hcs d) _

/-- A call brings effort to its connection, and every step that goes on with a call takes some away. -/
theorem State.step_effort (hfiled : Filed s site) (hlink : ∀ c, Link (s.sessions c) (site c).stage) {e : Event}
    (he : e.serializes = true) (h : s.step address e = some s') (d : Conn) :
    s'.effort d + (if e.actor = some d then 1 else 0) ≤ s.effort d + (if e.caller = some d then 7 else 0) := by
  have hactor : ∀ c, s'.effort d + (if d = c then 1 else 0) ≤ s.effort d →
      s'.effort d + (if some c = some d then 1 else 0) ≤ s.effort d + 0 := by
    intro c hc
    simpa [eq_comm] using hc
  cases e with
  | call c k timeoutMs =>
    simp only [State.step] at h
    split at h
    · cases h
      rw [State.effort_setSession]
      have hbegin := (s.sessions c).effort_begin k timeoutMs
      by_cases hd : d = c
      · subst hd
        simp only [Event.actor, Event.caller, if_true, State.effort]
        simp
        omega
      · simp [Event.actor, hd]
    · cases h
  | sendData c =>
    refine hactor c ?_
    obtain ⟨x, hx, rfl⟩ := Option.map_eq_some_iff.1 h
    have heffort := Session.effort_sendData hx
    rw [State.effort_setSession]
    split
    · rename_i hd
      subst hd
      rw [State.effort]
      omega
    · exact Nat.le_refl _
  | serializeThrows c => cases he
  | receive c =>
    refine hactor c ?_
    simp only [State.step] at h
    split at h
    · cases h
    · rename_i hfault
      exact absurd hfault (hlink c).not_fault
    · rename_i x hx
      cases h
      have heffort := Session.effort_receive hx
      rw [State.effort_setSession]
      split
      · rename_i hd
        subst hd
        rw [State.effort]
        omega
      · exact Nat.le_refl _
  | raise c =>
    simp only [State.step] at h
    split at h
    · cases h
      show (s.setSession c _).effort d ≤ s.effort d
      rw [State.effort_setSession]
      split
      · rename_i hd
        subst hd
        refine Nat.add_le_add_right ?_ _
        exact Nat.add_le_add_right (Nat.zero_le _) _
      · exact Nat.le_refl _
    · cases h
  | accept c =>
    simp only [State.step] at h
    split at h
    · cases h
      show State.effort _ d ≤ s.effort d
      refine Nat.add_le_add_left ?_ _
      by_cases hd : d = c
      · subst hd
        rw [State.serverEffort_some (f := .handle) (update_self ..)]
        exact Nat.zero_le _
      · exact State.serverEffort_congr (update_of_ne hd ..) (fun _ => id)
    · cases h
  | acceptFails =>
    simp only [State.step] at h
    split at h
    · cases h
      exact Nat.le_refl _
    · cases h
  | request c => exact hactor c (State.request_effort hfiled hlink h d)
  | requestFails c =>
    simp only [State.step] at h
    split at h
    · rename_i hframe
      cases h
      refine State.effort_destroy ?_ d
      intro e he
      obtain rfl := List.mem_singleton.1 he
      exact hfiled.not_pushing (by rw [hframe]; rintro ⟨⟩)
    · cases h
  | answer c =>
    simp only [State.step] at h
    split at h
    · rename_i rpkg hframe
      cases h
      refine hactor c (State.effort_server d (s.effort_write c _) rfl (update_self ..) ?_
        (State.serverEffort_some hframe).symm)
      intro e he
      exact .inl (update_of_ne he ..)
    · cases h
  | answerFails c =>
    simp only [State.step] at h
    split at h
    · rename_i rpkg hframe
      cases h
      refine State.effort_destroy ?_ d
      intro e he
      obtain rfl := List.mem_singleton.1 he
      exact hfiled.not_pushing (by rw [hframe]; rintro ⟨⟩)
    · cases h
  | transfer c => exact hactor c (State.transfer_effort hfiled hlink h d)
  | transferFails c =>
    simp only [State.step] at h
    split at h
    · rename_i p t ph hframe
      cases h
      refine State.effort_destroy ?_ d
      intro e he t' hmem
      rcases List.mem_cons.1 he with rfl | he
      · exact hfiled.not_pushing (by rw [hframe]; rintro ⟨⟩) t' hmem
      · obtain rfl := List.mem_singleton.1 he
        have hsite : site e = .pushing t' := hfiled.pushing.mem.1 hmem
        rw [(hfiled.of_transfer hframe).2] at hsite
        cases hsite
    · cases h

/-- Along a run, the steps that go on with the calls of a connection are paid for by its calls. -/
theorem State.ReachableBy.effort_run (hs : s.ReachableBy address (fun e => e.serializes = true)) {es : List Event}
    (hes : ∀ e ∈ es, e.serializes = true) (hrun : s.runAll address es = some s') (c : Conn) :
    s'.effort c + es.countP (fun e => e.actor = some c) ≤ s.effort c + 7 * es.countP (fun e => e.caller = some c) := by
  induction es generalizing s with
  | nil =>
    cases hrun
    exact Nat.le_refl _
  | cons e es ih =>
    obtain ⟨r, hr, hrest⟩ := Option.bind_eq_some_iff.1 hrun
    obtain ⟨hserial, hes⟩ := List.forall_mem_cons.1 hes
    obtain ⟨site, hfiled, hlink, -⟩ := hs.linked
    have hstep := State.step_effort hfiled hlink hserial hr c
    have hlater := ih (Relation.ReflTransGen.tail hs ⟨e, hserial, hr⟩) hes hrest
    simp only [List.countP_cons, decide_eq_true_eq]
    split at hstep <;> split at hstep <;> simp_all <;> omega

/-! ## Standstill -/

/-- Nobody can go on with a call. -/
def State.Still (address : Conn → Bytes) (s : State) : Prop := ∀ e c, e.actor = some c → s.step address e = none

/-- A transfer goes on, or the client of the push does. -/
theorem State.Still.no_transfer (hstill : s.Still address) (hfiled : Filed s site)
    (hlink : ∀ c, Link (s.sessions c) (site c).stage) {p : Conn} {t : Topic} {ph : Phase} :
    s.frames c ≠ some (.transfer p t ph) := by
  intro hframe
  have hstep : s.step address (.transfer c) = s.transferData address c p t ph := by simp only [State.step, hframe]
  have hblocked := hstep.symm.trans (hstill _ c rfl)
  cases ph with
  | readData =>
    have hl := hlink c
    rw [(hfiled.of_transfer hframe).1] at hl
    obtain ⟨⟨v, hcall⟩, hin, -⟩ := hl
    cases hctl : (s.sessions c).ctl with
    | pushRequested t' v' =>
      have hsend := hstill (.sendData c) c rfl
      simp [State.step, Session.sendData, hctl] at hsend
    | pushWaits t' v' =>
      rw [hctl] at hin
      simp only [State.transferData, hin, ClientCtl.dataSent] at hblocked
      cases hblocked
    | _ =>
      rw [hctl] at hcall
      cases hcall
  | _ => cases hblocked

/-- A client has received all that is on its way. -/
theorem State.Still.not_owed (hstill : s.Still address) : ¬(s.sessions c).ctl.Owed (s.sessions c).outbox := by
  intro howed
  have hreceive := hstill (.receive c) c rfl
  cases hctl : (s.sessions c).ctl with
  | idle =>
    rw [hctl] at howed
    cases howed
  | pushRequested t v =>
    rw [hctl] at howed
    cases howed
  | popWaits t =>
    rw [hctl] at howed
    obtain ⟨d, r, hout⟩ := howed
    simp [State.step, Session.receive, Session.goOn, hctl, hout] at hreceive
  | _ =>
    rw [hctl] at howed
    obtain ⟨r, hout⟩ := howed
    simp [State.step, Session.receive, Session.goOn, hctl, hout] at hreceive

/-- Where nobody can go on with a call, a call waits on its topic, or there is none. -/
theorem State.Still.waits (hstill : s.Still address) (hfiled : Filed s site)
    (hlink : ∀ c, Link (s.sessions c) (site c).stage) (hopened : c ∈ s.opened) (hclosed : c ∉ s.closed) :
    (s.sessions c).ctl = .idle ∨ (∃ t v, (s.sessions c).ctl = .pushWaits t v ∧ c ∈ (s.nodes t).pushingNodes) ∨
      ∃ t, (s.sessions c).ctl = .popWaits t ∧ c ∈ (s.nodes t).popingNodes := by
  obtain ⟨hout, hgone⟩ := hfiled.live hopened hclosed
  have hl := hlink c
  have howner := hfiled.owner c
  cases hsite : site c with
  | out => exact absurd hsite hout
  | gone => exact absurd hsite hgone
  | handle =>
    rw [hsite] at hl howner
    obtain ⟨hidle, -⟩ | ⟨k, pkg, -, -, -, hin, -⟩ | ⟨howed, -⟩ := hl
    · exact .inl hidle
    · have hrequest := hstill (.request c) c rfl
      simp only [State.step, show s.frames c = some .handle from howner, hin] at hrequest
      cases hrequest
    · exact absurd howed hstill.not_owed
  | answer =>
    rw [hsite] at howner
    obtain ⟨rpkg, hframe⟩ := howner
    have hanswer := hstill (.answer c) c rfl
    simp only [State.step, hframe] at hanswer
    cases hanswer
  | pushing t =>
    rw [hsite] at hl
    obtain ⟨⟨v, hcall⟩, -⟩ := hl
    cases hctl : (s.sessions c).ctl with
    | pushRequested t' v' =>
      have hsend := hstill (.sendData c) c rfl
      simp [State.step, Session.sendData, hctl] at hsend
    | pushWaits t' v' =>
      rw [hctl] at hcall
      cases hcall
      exact .inr (.inl ⟨t, v, rfl, hfiled.pushing.mem.2 hsite⟩)
    | _ =>
      rw [hctl] at hcall
      cases hcall
  | poping t =>
    rw [hsite] at hl
    exact .inr (.inr ⟨t, hl.1, hfiled.poping.mem.2 hsite⟩)
  | sender p t ph =>
    rw [hsite] at howner
    exact absurd howner (hstill.no_transfer hfiled hlink)
  | receiver q t ph =>
    have hq := hfiled.owner q
    rw [(hfiled.paired q c t ph).2 hsite] at hq
    exact absurd hq (hstill.no_transfer hfiled hlink)

/-- On a topic only pushes wait, or only pops. -/
theorem Tabled.one_side (h : Tabled s) (t : Topic) : (s.nodes t).pushingNodes = [] ∨ (s.nodes t).popingNodes = [] := by
  obtain ⟨-, hpush, hpop⟩ := h t
  rcases Nat.le_total (handledSince requestTypePush t s.handled) (handledSince requestTypePop t s.handled)
    with hle | hle
  · exact .inl (List.length_eq_zero_iff.1 (hpush.trans (Nat.sub_eq_zero_of_le hle)))
  · exact .inr (List.length_eq_zero_iff.1 (hpop.trans (Nat.sub_eq_zero_of_le hle)))

end steps

/-- In every run in which no `Serialize` of a value throws, whatever else fails, client and server take at most seven
steps for each call of a connection. Where nobody can go on with a call, the client of every connection that was
accepted and not destroyed is in no call, or its push waits on a topic on which no pop waits, or its pop on one on which
no push does. -/
theorem switcher_progress (address : Conn → Bytes) (es : List Event) (s : State)
    (hrun : State.init.runAll address es = some s) (hserial : ∀ e ∈ es, e.serializes = true) :
    (∀ c, es.countP (fun e => e.actor = some c) ≤ 7 * es.countP (fun e => e.caller = some c)) ∧
    ((∀ e c, e.actor = some c → s.step address e = none) → ∀ c ∈ s.opened, c ∉ s.closed →
      (s.sessions c).ctl = .idle ∨
      (∃ t v, (s.sessions c).ctl = .pushWaits t v ∧ c ∈ (s.nodes t).pushingNodes ∧ (s.nodes t).popingNodes = []) ∨
      ∃ t, (s.sessions c).ctl = .popWaits t ∧ c ∈ (s.nodes t).popingNodes ∧ (s.nodes t).pushingNodes = []) := by
  have hreach : s.ReachableBy address (fun e => e.serializes = true) := State.ReachableBy.run .refl hserial hrun
  constructor
  · intro c
    have hstart : State.init.effort c = 0 := by
      rw [State.effort, State.serverEffort_none rfl (by intro t ht; cases ht)]
      rfl
    have heffort := State.ReachableBy.effort_run .refl hserial hrun c
    omega
  · intro hstill c hopened hclosed
    obtain ⟨site, hfiled, hlink, -⟩ := hreach.linked
    have htabled := hreach.reachable.tabled
    rcases State.Still.waits hstill hfiled hlink hopened hclosed with hidle | ⟨t, v, hctl, hc⟩ | ⟨t, hctl, hc⟩
    · exact .inl hidle
    · refine .inr (.inl ⟨t, v, hctl, hc, (htabled.one_side t).resolve_left ?_⟩)
      intro hnil
      rw [hnil] at hc
      cases hc
    · refine .inr (.inr ⟨t, hctl, hc, (htabled.one_side t).resolve_right ?_⟩)
      intro hnil
      rw [hnil] at hc
      cases hc

/-- Two pushes on one topic and one pop: nobody can go on, and the first push, which was not matched, waits. -/
def unmatched : List Event :=
  [.accept 0, .accept 1, .accept 2, .call 0 (.push [116] none) 0, .sendData 0, .request 0, .call 1 (.push [116] none) 0,
    .sendData 1, .request 1, .call 2 (.pop [116]) 0, .request 2, .transfer 1, .transfer 1, .transfer 1, .transfer 1,
    .receive 1, .receive 2, .receive 2]

/-- A client that nobody serves. -/
theorem switcher_progress_unmatched : ∃ s, State.init.runAll (fun _ => []) unmatched = some s ∧
    unmatched.countP (fun e => e.actor = some 1) = 7 ∧ unmatched.countP (fun e => e.actor = some 1) ≤ 7 *
    unmatched.countP (fun e => e.caller = some 1) ∧ (s.sessions 0).ctl = .pushWaits [116] none := by
  obtain ⟨s, hs, hctl⟩ : ∃ s, State.init.runAll (fun _ => []) unmatched = some s ∧
    (s.sessions 0).ctl = .pushWaits [116] none := ⟨_, rfl, rfl⟩
  exact ⟨s, hs, by decide, (switcher_progress (fun _ => []) unmatched s hs (by decide)).1 1, hctl⟩

end Switcher

end Tunnel
