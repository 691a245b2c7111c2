import Tunnel.Lemmas.Sites

/-!
# Steps of the switcher

Every step keeps the sockets where their sites say, and one in which no `Serialize` throws is a hop of each connection
(`step_advances`). So what holds of each connection by itself, from hop to hop, holds in every state that is reached by
such steps (`State.ReachableBy.located`).
-/

namespace Tunnel

open Lib Function Relation

namespace Switcher

/-! ## Records -/

namespace Label

/-- What is recorded of a value that is taken, in the call of number `n`. -/
def pushLog (n : Nat) : Label → List (Nat × Topic × DataPackage)
  | .pushes t d => [(n, t, d)]
  | _ => []

/-- What is recorded of a value that is given. -/
def popLog (n : Nat) : Label → List (Nat × Topic × DataPackage)
  | .pops t d => [(n, t, d)]
  | _ => []

/-- What is recorded of a response to a push. -/
def ackLog (n : Nat) : Label → List Nat
  | .acks => [n]
  | _ => []

end Label

namespace State

/-- The values taken from a connection. -/
def takenFrom (s : State) (c : Conn) : List (Nat × Topic × DataPackage) :=
  (s.delivered.filter (fun e => e.push = c)).map (fun e => (e.pushCall, e.topic, e.data))

/-- The values given to a connection. -/
def givenTo (s : State) (c : Conn) : List (Nat × Topic × DataPackage) :=
  (s.delivered.filter (fun e => e.pop = c)).map (fun e => (e.popCall, e.topic, e.data))

/-- The pushes of a connection that were answered. -/
def ackedTo (s : State) (c : Conn) : List Nat := (s.acked.filter (fun a => a.1 = c)).map Prod.snd

end State

/-- What is recorded of a step, for each connection. -/
structure Logs (s : State) (lab : Conn → Label) (s' : State) : Prop where
  taken : ∀ c, s'.takenFrom c = s.takenFrom c ++ (lab c).pushLog ((s.sessions c).served - 1)
  given : ∀ c, s'.givenTo c = s.givenTo c ++ (lab c).popLog ((s.sessions c).served - 1)
  acked : ∀ c, s'.ackedTo c = s.ackedTo c ++ (lab c).ackLog ((s.sessions c).served - 1)

namespace Logs

variable {s s' : State}

theorem quiet (hdelivered : s'.delivered = s.delivered) (hacked : s'.acked = s.acked) :
    Logs s (fun _ => .quiet) s' where
  taken c := by
    rw [State.takenFrom, hdelivered]
    exact (List.append_nil _).symm
  given c := by
    rw [State.givenTo, hdelivered]
    exact (List.append_nil _).symm
  acked c := by
    rw [State.ackedTo, hacked]
    exact (List.append_nil _).symm

/-- A delivery is logged on both sides. -/
theorem deliver {q p : Conn} {t : Topic} {d : DataPackage} (hne : p ≠ q)
    (hdelivered : s'.delivered = s.delivered ++ [⟨q, (s.sessions q).served - 1, p, (s.sessions p).served - 1, t, d⟩])
    (hacked : s'.acked = s.acked) :
    Logs s (update (update (fun _ => .quiet) p (.pops t d)) q (.pushes t d)) s' where
  taken c := by
    rw [State.takenFrom, hdelivered, List.filter_append, List.map_append]
    refine congrArg (s.takenFrom c ++ ·) ?_
    by_cases hcq : c = q
    · subst hcq
      rw [update_self, List.filter_cons_of_pos (by simp)]
      rfl
    · rw [update_of_ne hcq, List.filter_cons_of_neg (by simpa using Ne.symm hcq), update_apply]
      split <;> rfl
  given c := by
    rw [State.givenTo, hdelivered, List.filter_append, List.map_append]
    refine congrArg (s.givenTo c ++ ·) ?_
    by_cases hcp : c = p
    · subst hcp
      rw [update_of_ne hne, update_self, List.filter_cons_of_pos (by simp)]
      rfl
    · rw [List.filter_cons_of_neg (by simpa using Ne.symm hcp), update_apply, update_of_ne hcp]
      split <;> rfl
  acked c := by
    rw [State.ackedTo, hacked, update_apply, update_apply]
    refine (List.append_nil _).symm.trans (congrArg (s.ackedTo c ++ ·) ?_)
    split
    · rfl
    · split <;> rfl

/-- An answer is logged. -/
theorem ack {q : Conn} (hdelivered : s'.delivered = s.delivered)
    (hacked : s'.acked = s.acked ++ [(q, (s.sessions q).served - 1)]) :
    Logs s (update (fun _ => .quiet) q .acks) s' where
  taken c := by
    rw [State.takenFrom, hdelivered, update_apply]
    refine (List.append_nil _).symm.trans (congrArg (s.takenFrom c ++ ·) ?_)
    split <;> rfl
  given c := by
    rw [State.givenTo, hdelivered, update_apply]
    refine (List.append_nil _).symm.trans (congrArg (s.givenTo c ++ ·) ?_)
    split <;> rfl
  acked c := by
    rw [State.ackedTo, hacked, List.filter_append, List.map_append]
    refine congrArg (s.ackedTo c ++ ·) ?_
    by_cases hcq : c = q
    · subst hcq
      rw [update_self, List.filter_cons_of_pos (by simp)]
      rfl
    · rw [update_of_ne hcq, List.filter_cons_of_neg (by simpa using Ne.symm hcq)]
      rfl

end Logs

/-! ## Steps -/

/-- A step of the system is a hop of each connection. -/
structure Follows (s : State) (site : Conn → Site) (s' : State) (site' : Conn → Site) : Prop where
  filed : Filed s' site'
  fault : s'.fault = s.fault
  hops : ∃ lab, Logs s lab s' ∧ ∀ c, Hop (s.sessions c) (site c).stage (lab c) (s'.sessions c) (site' c).stage

namespace Follows

variable {s s' : State} {site site' : Conn → Site} {c : Conn} {x : Session}

/-- A step in which one connection hops, and the others stay or are closed. -/
theorem one (hfiled : Filed s' site') (hfault : s'.fault = s.fault) (hdelivered : s'.delivered = s.delivered)
    (hacked : s'.acked = s.acked) (hsessions : s'.sessions = update s.sessions c x)
    (hc : Hop (s.sessions c) (site c).stage .quiet x (site' c).stage)
    (hother : ∀ d, d ≠ c → (site' d).stage = (site d).stage ∨ (site' d).stage = .gone) : Follows s site s' site' := by
  refine ⟨hfiled, hfault, fun _ => .quiet, .quiet hdelivered hacked, ?_⟩
  intro d
  rw [hsessions]
  by_cases hd : d = c
  · subst hd
    rwa [update_self]
  · rw [update_of_ne hd]
    rcases hother d hd with heq | heq <;> rw [heq]
    · exact .stay _ _
    · exact .close _ _

/-- A client takes a step. -/
theorem client (hfiled : Filed s site) (hc : Hop (s.sessions c) (site c).stage .quiet x (site c).stage) :
    Follows s site (s.setSession c x) site :=
  one (hfiled.congr rfl rfl ⟨rfl, rfl, rfl⟩) rfl rfl rfl rfl hc (fun _ _ => .inl rfl)

/-- Sockets are destroyed. -/
theorem destroyed (hfiled : Filed s' site') (hfault : s'.fault = s.fault) (hdelivered : s'.delivered = s.delivered)
    (hacked : s'.acked = s.acked) (hsessions : s'.sessions = s.sessions)
    (hsites : ∀ d, site' d = site d ∨ site' d = .gone) :
    Follows s site s' site' := by
  refine ⟨hfiled, hfault, fun _ => .quiet, .quiet hdelivered hacked, ?_⟩
  intro d
  rw [hsessions]
  rcases hsites d with heq | heq <;> rw [heq]
  · exact .stay _ _
  · exact .close _ _

/-- A step in which the two connections of a transfer hop. -/
theorem two {q p : Conn} {y z : Site} {xq xp : Session} (lq lp : Label) (hne : p ≠ q)
    (hfiled : Filed s' (update (update site p z) q y)) (hfault : s'.fault = s.fault)
    (hlogs : Logs s (update (update (fun _ => .quiet) p lp) q lq) s')
    (hsessions : s'.sessions = update (update s.sessions p xp) q xq)
    (hq : Hop (s.sessions q) (site q).stage lq xq y.stage) (hp : Hop (s.sessions p) (site p).stage lp xp z.stage) :
    Follows s site s' (update (update site p z) q y) := by
  refine ⟨hfiled, hfault, _, hlogs, ?_⟩
  intro d
  rw [hsessions]
  by_cases hdq : d = q
  · subst hdq
    rwa [update_self, update_self, update_self]
  · rw [update_of_ne hdq, update_of_ne hdq, update_of_ne hdq]
    by_cases hdp : d = p
    · subst hdp
      rwa [update_self, update_self, update_self]
    · rw [update_of_ne hdp, update_of_ne hdp, update_of_ne hdp]
      exact .stay _ _

end Follows

/-- What the handling of a request leaves alone. -/
theorem State.handle_frame (s : State) (c : Conn) (pkg : RequestPackage) : (s.handle c pkg).sessions = s.sessions ∧
    (s.handle c pkg).fault = s.fault ∧ (s.handle c pkg).delivered = s.delivered ∧ (s.handle c pkg).acked = s.acked := by
  unfold State.handle
  split
  · unfold State.handlePushRequest
    dsimp only
    split <;> exact ⟨rfl, rfl, rfl, rfl⟩
  split
  · unfold State.handlePopRequest
    dsimp only
    split <;> exact ⟨rfl, rfl, rfl, rfl⟩
  split
  · exact ⟨rfl, rfl, rfl, rfl⟩
  split
  · exact ⟨rfl, rfl, rfl, rfl⟩
  · exact ⟨rfl, rfl, rfl, rfl⟩

/-- Handling a request is no matter of the accept loop. -/
theorem State.handle_accepts (s : State) (c : Conn) (pkg : RequestPackage) :
    (s.handle c pkg).opened = s.opened ∧ (s.handle c pkg).accepting = s.accepting := by
  unfold State.handle
  split
  · unfold State.handlePushRequest
    dsimp only
    split <;> exact ⟨rfl, rfl⟩
  split
  · unfold State.handlePopRequest
    dsimp only
    split <;> exact ⟨rfl, rfl⟩
  split
  · exact ⟨rfl, rfl⟩
  split
  · exact ⟨rfl, rfl⟩
  · exact ⟨rfl, rfl⟩

section Step

variable {address : Conn → Bytes} {s s' : State} {site : Conn → Site}

/-! ### Sockets -/

/-- An update leaves a value as it is, or sets it. -/
theorem update_kept_or_set {α β : Type} [DecidableEq α] (f : α → β) (a : α) (x : β) (d : α) :
    update f a x d = f d ∨ update f a x d = x := by
  by_cases hd : d = a
  · subst hd
    exact .inr (update_self ..)
  · exact .inl (update_of_ne hd ..)

/-- Where a step leads: the sockets are where their sites say and, if no `Serialize` throws and every connection is
linked, it is a hop of each connection. -/
def Advances (s : State) (site : Conn → Site) (e : Event) (s' : State) : Prop :=
  ∃ site', Filed s' site' ∧ (e.serializes = true → (∀ c, Link (s.sessions c) (site c).stage) → Follows s site s' site')

theorem Advances.of {e : Event} {site' : Conn → Site} (h : Follows s site s' site') : Advances s site e s' :=
  ⟨site', h.filed, fun _ _ => h⟩

/-- A request is a step of its connection. -/
theorem request_advances (hfiled : Filed s site) {c : Conn} (h : s.step address (.request c) = some s') :
    Advances s site (.request c) s' := by
  simp only [State.step] at h
  split at h
  · rename_i m rest hframe hin
    have hc := hfiled.of_handle hframe
    -- what a linked connection has sent is a request
    have hrequest : (∀ c, Link (s.sessions c) (site c).stage) → ∃ pkg, m = .request pkg := by
      intro hlink
      have hl := hlink c
      rw [hc] at hl
      obtain ⟨k, pkg, hm, -⟩ := hl.of_inbox hin
      exact ⟨pkg, hm⟩
    split at h
    · rename_i pkg hpkg
      cases h
      have hset : Filed (s.setSession c { s.sessions c with inbox := rest, served := (s.sessions c).served + 1 })
        site :=
        hfiled.congr rfl rfl ⟨rfl, rfl, rfl⟩
      obtain ⟨site', hfiled', hst, hother⟩ := hset.handle hc pkg
      obtain ⟨hsessions, hfault, hdelivered, hacked⟩ :=
        State.handle_frame (s.setSession c { s.sessions c with inbox := rest, served := (s.sessions c).served + 1 }) c
          pkg
      refine ⟨site', hfiled', fun _ hlink => .one hfiled' hfault hdelivered hacked hsessions ?_ hother⟩
      obtain ⟨pkg', rfl⟩ := hrequest hlink
      cases hpkg
      rw [hc]
      exact .request hin hst
    · rename_i hnone
      cases h
      refine ⟨site, hfiled.congr rfl rfl ⟨rfl, rfl, rfl⟩, fun _ hlink => ?_⟩
      obtain ⟨pkg, rfl⟩ := hrequest hlink
      nomatch hnone
  · nomatch h

/-- A transfer is a step of two. -/
theorem transfer_advances (hfiled : Filed s site) {q : Conn} (h : s.step address (.transfer q) = some s') :
    Advances s site (.transfer q) s' := by
  simp only [State.step] at h
  split at h
  · rename_i p t ph hframe
    obtain ⟨hq, hp⟩ := hfiled.of_transfer hframe
    have hne := hfiled.paired.ne hq
    -- only one of the two sessions changes
    have hpush : ∀ x, update s.sessions q x = update (update s.sessions p (s.sessions p)) q x := by
      intro x
      rw [update_eq_self]
    have hpop : ∀ x, update s.sessions p x = update (update s.sessions p x) q (s.sessions q) := by
      intro x
      rw [update_comm hne, update_eq_self]
    cases ph with
    | readData =>
      simp only [State.transferData] at h
      split at h
      · nomatch h
      · rename_i m rest hin
        -- what a linked connection has sent is the data of its push
        have hdata : (∀ c, Link (s.sessions c) (site c).stage) → ∃ d, m = .data d := by
          intro hlink
          have hl := hlink q
          rw [hq] at hl
          obtain ⟨v, hm, -⟩ := hl.of_wantsData hin
          exact ⟨_, hm⟩
        split at h
        · rename_i d hd
          cases h
          refine ⟨_, hfiled.transferNext hq (.writeData d) rfl rfl ⟨rfl, rfl, rfl⟩, fun _ hlink => ?_⟩
          refine .two .quiet .quiet hne (hfiled.transferNext hq (.writeData d) rfl rfl ⟨rfl, rfl,
            rfl⟩) rfl ?_ (hpush _) ?_ ?_
          · rw [update_eq_self_iff.2 rfl, update_eq_self_iff.2 rfl]
            exact .quiet rfl rfl
          · obtain ⟨d', rfl⟩ := hdata hlink
            cases hd
            rw [hq]
            exact .data hin
          · rw [hp]
            exact .stay _ _
        · rename_i hnone
          cases h
          refine ⟨site, hfiled.congr rfl rfl ⟨rfl, rfl, rfl⟩, fun _ hlink => ?_⟩
          obtain ⟨d, rfl⟩ := hdata hlink
          nomatch hnone
    | writeData d =>
      cases h
      refine .of (.two (.pushes t d) (.pops t d) hne (hfiled.transferNext hq .answerPush rfl rfl ⟨rfl, rfl,
        rfl⟩) rfl ?_ (hpop _) ?_ ?_)
      · exact .deliver hne rfl rfl
      · rw [hq]
        exact .deliver _ t d
      · rw [hp]
        exact .give _ t d
    | answerPush =>
      cases h
      refine .of (.two .acks .quiet hne (hfiled.transferNext hq .answerPop rfl rfl ⟨rfl, rfl,
        rfl⟩) rfl ?_ (hpush _) ?_ ?_)
      · rw [update_eq_self_iff (a := p) |>.2 rfl]
        exact .ack rfl rfl
      · rw [hq]
        exact .ack _ t _
      · rw [hp]
        exact .stay _ _
    | answerPop =>
      cases h
      refine .of (.two .quiet .quiet hne (hfiled.transferEnd hq rfl rfl ⟨rfl, rfl, rfl⟩) rfl ?_ (hpop _) ?_ ?_)
      · rw [update_eq_self_iff.2 rfl, update_eq_self_iff.2 rfl]
        exact .quiet rfl rfl
      · rw [hq]
        exact .stay _ _
      · rw [hp]
        exact .finish _ t _
  · nomatch h

/-- Every step is a step of its connections. -/
theorem step_advances (hfiled : Filed s site) {e : Event} (h : s.step address e = some s') : Advances s site e s' := by
  cases e with
  | call c k timeoutMs =>
    simp only [State.step] at h
    split at h
    · rename_i hidle
      cases h
      exact .of (.client hfiled (.begin _ k timeoutMs hidle))
    · nomatch h
  | sendData c =>
    obtain ⟨x, hx, rfl⟩ := Option.map_eq_some_iff.1 h
    exact .of (.client hfiled (.sendData _ hx))
  | serializeThrows c =>
    obtain ⟨x, -, rfl⟩ := Option.map_eq_some_iff.1 h
    exact ⟨site, hfiled.congr rfl rfl ⟨rfl, rfl, rfl⟩, nofun⟩
  | receive c =>
    simp only [State.step] at h
    split at h
    · nomatch h
    · rename_i x hfault
      cases h
      exact ⟨site, hfiled.congr rfl rfl ⟨rfl, rfl, rfl⟩, fun _ hlink => absurd hfault (hlink c).not_fault⟩
    · rename_i x hx
      cases h
      exact .of (.client hfiled (.receive _ hx))
  | raise c =>
    simp only [State.step] at h
    split at h
    · rename_i hlost
      cases h
      refine .of (.client hfiled ?_)
      rw [(hfiled.lost c).1 hlost]
      exact .raise _
    · nomatch h
  | accept c =>
    simp only [State.step] at h
    split at h
    · rename_i hawaits
      cases h
      refine .of (.one (c := c) (x := s.sessions c) (hfiled.accept hawaits) rfl rfl rfl ?_ ?_ ?_)
      · exact (update_eq_self c s.sessions).symm
      · rw [update_self, (hfiled.awaits c).1 hawaits]
        exact .stay _ _
      · intro d hd
        exact .inl (by rw [update_of_ne hd])
    · nomatch h
  | acceptFails =>
    simp only [State.step] at h
    split at h
    · rename_i haccepting
      cases h
      refine .of (.destroyed (hfiled.acceptFails haccepting) rfl rfl rfl rfl ?_)
      intro d
      split
      · exact .inr rfl
      · exact .inl rfl
    · nomatch h
  | request c => exact request_advances hfiled h
  | requestFails c =>
    simp only [State.step] at h
    split at h
    · rename_i hframe
      cases h
      exact .of (.destroyed (hfiled.destroyOne (.inl (hfiled.of_handle hframe))) rfl rfl rfl rfl
        (update_kept_or_set site c _))
    · nomatch h
  | answer c =>
    simp only [State.step] at h
    split at h
    · rename_i rpkg hframe
      cases h
      have hc := hfiled.of_answer hframe
      refine .of (.one (hfiled.set (.inr hc) (.inl rfl) rfl rfl rfl ⟨rfl, rfl, rfl⟩) rfl rfl rfl rfl ?_ ?_)
      · rw [update_self, hc]
        exact .answer _ _
      · intro d hd
        exact .inl (by rw [update_of_ne hd])
    · nomatch h
  | answerFails c =>
    simp only [State.step] at h
    split at h
    · rename_i rpkg hframe
      cases h
      exact .of (.destroyed (hfiled.destroyOne (.inr (hfiled.of_answer hframe))) rfl rfl rfl rfl
        (update_kept_or_set site c _))
    · nomatch h
  | transfer q => exact transfer_advances hfiled h
  | transferFails q =>
    simp only [State.step] at h
    split at h
    · rename_i p t ph hframe
      cases h
      refine .of (.destroyed (hfiled.destroyBoth (hfiled.of_transfer hframe).1) rfl rfl rfl rfl ?_)
      intro d
      rcases update_kept_or_set (update site p .gone) q .gone d with hd | hd
      · rw [hd]
        exact update_kept_or_set site p .gone d
      · exact .inr hd
    · nomatch h

end Step

/-! ## Packages -/

/-- Whoever reads next from a connection finds a package of the kind that it asks for. -/
def State.InStep (s : State) : Prop :=
  (∀ c f kind m rest, s.frames c = some f → f.reads = some kind → (s.sessions c).inbox = m :: rest → m.kind = kind) ∧
  ∀ c kind m rest, (s.sessions c).ctl.reads = some kind → (s.sessions c).outbox = m :: rest → m.kind = kind

/-- What comes to a coroutine is of the kind that it waits for. -/
theorem Filed.kind_of_inbox {s : State} {site : Conn → Site} {c : Conn} (hfiled : Filed s site)
    (hlink : Link (s.sessions c) (site c).stage) {f : Frame} (hf : s.frames c = some f) {kind : Kind}
    (hreads : f.reads = some kind) {m : Message} {rest : List Message} (hin : (s.sessions c).inbox = m :: rest) :
    m.kind = kind := by
  cases f with
  | handle =>
    cases hreads
    rw [hfiled.of_handle hf] at hlink
    obtain ⟨k, pkg, rfl, -⟩ := hlink.of_inbox hin
    rfl
  | answer rpkg => cases hreads
  | transfer p t ph =>
    cases ph with
    | readData =>
      cases hreads
      rw [(hfiled.of_transfer hf).1] at hlink
      obtain ⟨v, rfl, -⟩ := hlink.of_wantsData hin
      rfl
    | _ => cases hreads

/-- Packages are of the kind asked for. -/
theorem Filed.inStep {s : State} {site : Conn → Site} (hfiled : Filed s site)
    (hlink : ∀ c, Link (s.sessions c) (site c).stage) : s.InStep := by
  constructor
  · intro c f kind m rest hf hreads hin
    exact hfiled.kind_of_inbox (hlink c) hf hreads hin
  · intro c kind m rest hreads hout
    exact (hlink c).kind_of_outbox hreads hout

section Runs

variable {address : Conn → Bytes} {s s' : State}

/-- The sockets are where their sites say. -/
theorem State.Reachable.filed (h : s.Reachable address) : ∃ site, Filed s site := by
  induction h with
  | refl => exact ⟨_, filed_init⟩
  | tail _ hlast ih =>
    obtain ⟨site, hfiled⟩ := ih
    obtain ⟨e, he⟩ := hlast
    obtain ⟨site', hfiled', -⟩ := step_advances hfiled he
    exact ⟨site', hfiled'⟩

/-- What is kept by every step in which no `Serialize` throws, of a state and the sites that go with it, holds of every
state that is reached by such steps. Each connection is linked in it. -/
theorem State.ReachableBy.located {P : State → (Conn → Site) → Prop} (hinit : P .init (fun _ => .out))
    (hstep : ∀ s site s' site', Filed s site → (∀ c, Link (s.sessions c) (site c).stage) → Follows s site s' site' →
      P s site → P s' site')
    (h : s.ReachableBy address (fun e => e.serializes = true)) :
    ∃ site, Filed s site ∧ (∀ c, Link (s.sessions c) (site c).stage) ∧ s.fault = false ∧ P s site := by
  induction h with
  | refl => exact ⟨_, filed_init, fun _ => .inl ⟨rfl, rfl, rfl, rfl⟩, rfl, hinit⟩
  | tail _ hlast ih =>
    obtain ⟨site, hfiled, hlink, hfault, hp⟩ := ih
    obtain ⟨e, hserial, he⟩ := hlast
    obtain ⟨site', hfiled', hfollows⟩ := step_advances hfiled he
    have hfollows := hfollows hserial hlink
    obtain ⟨lab, -, hhops⟩ := hfollows.hops
    exact ⟨site', hfiled', fun c => (hlink c).hop (hhops c), hfollows.fault.trans hfault,
      hstep _ _ _ _ hfiled hlink hfollows hp⟩

/-- Each connection is linked. -/
theorem State.ReachableBy.linked (h : s.ReachableBy address (fun e => e.serializes = true)) :
    ∃ site, Filed s site ∧ (∀ c, Link (s.sessions c) (site c).stage) ∧ s.fault = false := by
  obtain ⟨site, hfiled, hlink, hfault, -⟩ := h.located (P := fun _ _ => True) trivial (fun _ _ _ _ _ _ _ _ => trivial)
  exact ⟨site, hfiled, hlink, hfault⟩

theorem State.ReachableBy.mono {allowed allowed' : Event → Prop} (h : s.ReachableBy address allowed)
    (hall : ∀ e, allowed e → allowed' e) :
    s.ReachableBy address allowed' :=
  ReflTransGen.mono (fun _ _ ⟨e, he, hstep⟩ => ⟨e, hall e he, hstep⟩) _ _ h

theorem State.ReachableBy.reachable {allowed : Event → Prop} (h : s.ReachableBy address allowed) :
    s.Reachable address :=
  ReflTransGen.mono (fun _ _ ⟨e, _, he⟩ => ⟨e, he⟩) _ _ h

/-- Where a run of allowed steps leads is reached by such steps. -/
theorem State.ReachableBy.run {allowed : Event → Prop} (h : s.ReachableBy address allowed) {es : List Event}
    (hes : ∀ e ∈ es, allowed e) (hrun : s.runAll address es = some s') : s'.ReachableBy address allowed := by
  induction es generalizing s with
  | nil =>
    cases hrun
    exact h
  | cons e rest ih =>
    obtain ⟨s₁, he, hrest⟩ := Option.bind_eq_some_iff.1 hrun
    obtain ⟨hallowed, hes⟩ := List.forall_mem_cons.1 hes
    exact ih (ReflTransGen.tail h ⟨e, hallowed, he⟩) hes hrest

/-- Where a run leads is reached. -/
theorem State.Reachable.run (h : s.Reachable address) {es : List Event} (hrun : s.runAll address es = some s') :
    s'.Reachable address := by
  induction es generalizing s with
  | nil =>
    cases hrun
    exact h
  | cons e rest ih =>
    obtain ⟨s₁, he, hrest⟩ := Option.bind_eq_some_iff.1 hrun
    exact ih (ReflTransGen.tail h ⟨e, he⟩) hrest

end Runs

end Switcher

end Tunnel
