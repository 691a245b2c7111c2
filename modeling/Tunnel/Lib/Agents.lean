import Tunnel.Lib.Monitor

/-!
# Agents that work on monitors

Agents use objects, one operation at a time: what an agent does next depends on where it stands alone, and an operation
brings it further by its result. The objects can be atomic, an operation being one step (`Agents.Step`), or monitors,
where it takes a lock, waits, is woken, notifies and gives the lock back, all of it interleaved with what the other
agents do (`Agents.LockedStep`).

The second system refines the first: an agent whose operation has taken effect counts as one that has its result
already. And it brings in no new way to get stuck: where nobody but a sleeper that wakes without a reason can take a
step, the first system stands still as well.
-/

namespace Lib

open Function Relation

/-! ## One monitor -/

namespace Monitor

variable {C σ Op Res Cv : Type} [DecidableEq C] [DecidableEq Cv] {ops : Op → Operation σ Res Cv}
  {s s' : State C σ Op Res} {c : C}

/-- A step inside an operation of a client that does not sleep: no call, no return and no wake-up without a reason. -/
structure Advances (ops : Op → Operation σ Res Cv) (s s' : State C σ Op Res) : Prop where
  step : Step ops s s'
  called : s'.called = s.called
  done : s'.done = s.done
  awake : ∃ c, (∀ op, s.ctl c ≠ .asleep op) ∧ s'.ctl c ≠ s.ctl c

/-- A client calls an operation. -/
def State.enter (s : State C σ Op Res) (c : C) (op : Op) : State C σ Op Res :=
  { s.goto c (.entering op) with called := s.called ++ [(c, op)] }

/-- A client gives the lock back and returns. -/
def State.exit (s : State C σ Op Res) (c : C) (op : Op) (r : Res) : State C σ Op Res :=
  { s.goto c .idle with owner := none, done := s.done ++ [(c, (op, r))] }

omit [DecidableEq Cv] in
theorem State.enter_ctl (s : State C σ Op Res) (c : C) (op : Op) :
    (s.enter c op).ctl = update s.ctl c (.entering op) := rfl

omit [DecidableEq Cv] in
theorem State.exit_ctl (s : State C σ Op Res) (c : C) (op : Op) (r : Res) :
    (s.exit c op r).ctl = update s.ctl c .idle := rfl

omit [DecidableEq C] [DecidableEq Cv] in
/-- Who has an effect behind it is in an operation. -/
theorem Ctl.pending_of_settled {x : Ctl Op Res} {op : Op} {r : Res} (h : x.settled = some (op, r)) :
    op ∈ x.pending := by
  cases x with
  | notifying op' r' =>
    cases h
    exact List.mem_singleton_self _
  | leaving op' r' =>
    cases h
    exact List.mem_singleton_self _
  | _ => cases h

/-- A step inside an operation leaves every client in the operation it is in. -/
theorem Step.pending (hs : Step ops s s') (h : s.InOrder) (hcalled : s'.called = s.called) (hdone : s'.done = s.done)
    (c : C) :
    (s'.ctl c).pending = (s.ctl c).pending := by
  have hnew := hs.inOrder h c
  rw [hcalled, hdone, h c] at hnew
  exact (List.append_cancel_left hnew).symm

/-- Who moves without settling leaves what is settled. -/
theorem State.settled_goto_ctl {x : Ctl Op Res} (hx : x.settled = (s.ctl c).settled) (d : C) :
    ((s.goto c x).ctl d).settled = (s.ctl d).settled := by
  by_cases hd : d = c
  · subst hd
    rw [goto_self, hx]
  · rw [goto_other s x hd]

variable {Inv : σ → Prop} {Enabled : Op → σ → Prop} {effect : σ → Op → Res → σ → Prop}

/-- A step inside an operation changes nothing that is seen from outside, or it is the one in which an operation takes
effect. -/
theorem Step.settles (hs : Step ops s s') (heff : Effective ops Inv Enabled effect) (hsafe : s.Safe Inv Enabled)
    (hcalled : s'.called = s.called) (hdone : s'.done = s.done) :
    (s'.shared = s.shared ∧ ∀ c, (s'.ctl c).settled = (s.ctl c).settled) ∨
      ∃ c op r, (s.ctl c).settled = none ∧ (s.ctl c).pending = [op] ∧ (s'.ctl c).settled = some (op, r) ∧
        (∀ d, d ≠ c → (s'.ctl d).settled = (s.ctl d).settled) ∧ effect s.shared op r s'.shared := by
  cases hs with
  | call op hc => simp at hcalled
  | leave hc => simp at hdone
  | lock hc => exact .inl ⟨rfl, State.settled_goto_ctl (by rw [hc]; rfl)⟩
  | pass hc => exact .inl ⟨rfl, State.settled_goto_ctl (by rw [hc]; rfl)⟩
  | @refuse c op r hc hcheck ho =>
    refine .inr ⟨c, op, r, by rw [hc]; rfl, by rw [hc]; rfl, by rw [State.goto_self]; rfl, fun d hd => ?_, ?_⟩
    · rw [State.goto_other s _ hd]
    · exact heff.refuse op _ r hsafe.inv hcheck ho
  | wait hc => exact .inl ⟨rfl, State.settled_goto_ctl (by rw [hc]; rfl)⟩
  | ready hc => exact .inl ⟨rfl, State.settled_goto_ctl (by rw [hc]; rfl)⟩
  | sleep hc => exact .inl ⟨rfl, State.settled_goto_ctl (by rw [hc]; rfl)⟩
  | wake hc => exact .inl ⟨rfl, State.settled_goto_ctl (by rw [hc]; rfl)⟩
  | relock hc => exact .inl ⟨rfl, State.settled_goto_ctl (by rw [hc]; rfl)⟩
  | @act c op r q hc hbody =>
    refine .inr ⟨c, op, r, by rw [hc]; rfl, by rw [hc]; rfl, ?_, fun d hd => ?_, ?_⟩
    · show ((s.goto c (.notifying op r)).ctl c).settled = some (op, r)
      rw [State.goto_self]
      rfl
    · show ((s.goto c (.notifying op r)).ctl d).settled = _
      rw [State.goto_other s _ hd]
    · exact heff.act op _ r q hsafe.inv (hsafe.enabled c op hc) hbody
  | @notify c op r d op' hc hd =>
    have hne : c ≠ d := by
      rintro rfl
      rw [hc] at hd
      cases hd
    refine .inl ⟨rfl, fun e => ?_⟩
    rw [State.settled_goto_ctl (s := s.goto d _) (by rw [State.goto_other s _ hne, hc]; rfl),
      State.settled_goto_ctl (by rw [hd]; rfl)]
  | notifyNone hc => exact .inl ⟨rfl, State.settled_goto_ctl (by rw [hc]; rfl)⟩

/-- The operation of a client that waits for something. -/
def Ctl.waiting : Ctl Op Res → Option Op
  | .testing op | .asleep op | .woken op => some op
  | _ => none

/-- Only operations that wait on a condition variable wait. -/
def State.Waits (ops : Op → Operation σ Res Cv) (s : State C σ Op Res) : Prop :=
  ∀ c op, (s.ctl c).waiting = some op → ∃ k ready, (ops op).otherwise = .wait k ready

omit [DecidableEq Cv] in
/-- A caller moves, and who waits still waits. -/
theorem State.Waits.move {x : Ctl Op Res} (h : s.Waits ops) (hctl : s'.ctl = update s.ctl c x)
    (hx : ∀ op, x.waiting = some op → ∃ k ready, (ops op).otherwise = .wait k ready) : s'.Waits ops := by
  intro d op hd
  rw [hctl] at hd
  by_cases hdc : d = c
  · subst hdc
    rw [update_self] at hd
    exact hx op hd
  · rw [update_of_ne hdc] at hd
    exact h d op hd

/-- Every step keeps who waits. -/
theorem Step.waits (hs : Step ops s s') (h : s.Waits ops) : s'.Waits ops := by
  cases hs with
  | call => exact h.move rfl (by rintro _ ⟨⟩)
  | lock => exact h.move rfl (by rintro _ ⟨⟩)
  | pass => exact h.move rfl (by rintro _ ⟨⟩)
  | refuse => exact h.move rfl (by rintro _ ⟨⟩)
  | wait hc hcheck ho =>
    refine h.move rfl ?_
    rintro _ ⟨⟩
    exact ⟨_, _, ho⟩
  | ready => exact h.move rfl (by rintro _ ⟨⟩)
  | sleep hc ho =>
    refine h.move rfl ?_
    rintro _ ⟨⟩
    exact ⟨_, _, ho⟩
  | @wake c op hc => exact h.move rfl (fun op' hop => h c op' (by rw [hc]; exact hop))
  | @relock c op hc => exact h.move rfl (fun op' hop => h c op' (by rw [hc]; exact hop))
  | act => exact h.move rfl (by rintro _ ⟨⟩)
  | @notify c op r d op' hc hd =>
    have hwoken : (s.goto d (.woken op')).Waits ops := h.move rfl (fun op hop => h d op (by rw [hd]; exact hop))
    exact hwoken.move rfl (by rintro _ ⟨⟩)
  | notifyNone => exact h.move rfl (by rintro _ ⟨⟩)
  | leave => exact h.move rfl (by rintro _ ⟨⟩)

/-- Who waits does so in every run. -/
theorem Reaches.waits {q₀ : σ} (hs : Reaches ops (.init q₀) s) : s.Waits ops :=
  (hs.induct (P := fun s => s.Waits ops) (by rintro _ _ ⟨⟩) (fun _ _ _ h hab => hab.waits h)).2

theorem Advances.goto {x : Ctl Op Res} (hs : Step ops s s') (hcalled : s'.called = s.called) (hdone : s'.done = s.done)
    (hctl : s'.ctl = update s.ctl c x) (hawake : ∀ op, s.ctl c ≠ .asleep op) (hx : x ≠ s.ctl c) : Advances ops s s' :=
  ⟨hs, hcalled, hdone, c, hawake, by rw [hctl, update_self]; exact hx⟩

/-- Whoever has the lock, or could have it, can take a step. -/
theorem State.exists_advance (h : s.Owned) (hwaits : s.Waits ops) (hsafe : s.Safe Inv Enabled)
    (hbody : ∀ op q, Enabled op q → ((ops op).body q).isSome = true) (hc : s.ctl c ≠ .idle)
    (hsleep : ∀ op, s.ctl c ≠ .asleep op) :
    (∃ d op r, s.ctl d = .leaving op r) ∨ ∃ s', Advances ops s s' := by
  cases howner : s.owner with
  | none =>
    have hfree : ∀ d, (s.ctl d).holds = false := by
      intro d
      rw [← Bool.not_eq_true, h d, howner]
      exact fun he => by cases he
    cases hctl : s.ctl c with
    | idle => exact absurd hctl hc
    | asleep op => exact absurd hctl (hsleep op)
    | entering op =>
      exact .inr ⟨_, .goto (.lock hctl howner) rfl rfl rfl (by rw [hctl]; rintro _ ⟨⟩) (by rw [hctl]; rintro ⟨⟩)⟩
    | woken op =>
      exact .inr ⟨_, .goto (.relock hctl howner) rfl rfl rfl (by rw [hctl]; rintro _ ⟨⟩) (by rw [hctl]; rintro ⟨⟩)⟩
    | _ =>
      have := hfree c
      rw [hctl] at this
      cases this
  | some d =>
    have hd := (h d).2 howner
    cases hctl : s.ctl d with
    | locked op =>
      right
      cases hcheck : (ops op).blocked s.shared with
      | false => exact ⟨_, .goto (.pass hctl hcheck) rfl rfl rfl (by rw [hctl]; rintro _ ⟨⟩) (by rw [hctl]; rintro ⟨⟩)⟩
      | true =>
        cases ho : (ops op).otherwise with
        | wait k ready =>
          exact ⟨_, .goto (.wait hctl hcheck ho) rfl rfl rfl (by rw [hctl]; rintro _ ⟨⟩) (by rw [hctl]; rintro ⟨⟩)⟩
        | refuse r =>
          exact ⟨_, .goto (.refuse hctl hcheck ho) rfl rfl rfl (by rw [hctl]; rintro _ ⟨⟩) (by rw [hctl]; rintro ⟨⟩)⟩
    | testing op =>
      right
      obtain ⟨k, ready, ho⟩ := hwaits d op (by rw [hctl]; rfl)
      cases hready : ready s.shared with
      | false =>
        exact ⟨_, .goto (.sleep hctl ho hready) rfl rfl rfl (by rw [hctl]; rintro _ ⟨⟩) (by rw [hctl]; rintro ⟨⟩)⟩
      | true =>
        exact ⟨_, .goto (.ready hctl ho hready) rfl rfl rfl (by rw [hctl]; rintro _ ⟨⟩) (by rw [hctl]; rintro ⟨⟩)⟩
    | acting op =>
      obtain ⟨⟨r, q⟩, hbody⟩ := Option.isSome_iff_exists.1 (hbody op _ (hsafe.enabled d op hctl))
      exact .inr ⟨_, .goto (.act hctl hbody) rfl rfl rfl (by rw [hctl]; rintro _ ⟨⟩) (by rw [hctl]; rintro ⟨⟩)⟩
    | notifying op r =>
      right
      by_cases hnone : ∀ e, (s.ctl e).asleepOn ops (ops op).notifies = false
      · exact ⟨_, .goto (.notifyNone hctl hnone) rfl rfl rfl (by rw [hctl]; rintro _ ⟨⟩) (by rw [hctl]; rintro ⟨⟩)⟩
      · simp only [not_forall, Bool.not_eq_false] at hnone
        obtain ⟨e, he⟩ := hnone
        cases hce : s.ctl e with
        | asleep op' =>
          rw [hce] at he
          refine ⟨_, .notify hctl hce he, rfl, rfl, d, by rw [hctl]; rintro _ ⟨⟩, ?_⟩
          rw [State.goto_self, hctl]
          rintro ⟨⟩
        | _ =>
          rw [hce] at he
          cases he
    | leaving op r => exact .inl ⟨d, op, r, hctl⟩
    | _ =>
      rw [hctl] at hd
      cases hd

/-- What an operation that nobody disturbs does: it gives this result and leaves the object so. -/
def Does (o : Operation σ Res Cv) (q : σ) (r : Res) (q' : σ) : Prop :=
  (o.blocked q = false ∧ o.body q = some (r, q')) ∨ (o.blocked q = true ∧ o.otherwise = .refuse r ∧ q' = q)

/-- A client that has called while all others are outside comes to the end of its operation. -/
theorem State.exists_alone {op : Op} {r : Res} {q : σ} (hctl : ∀ d, s.ctl d = .idle) (howner : s.owner = none)
    (hdoes : Does (ops op) s.shared r q) :
    ∃ t, ReflTransGen (Advances ops) (s.enter c op) t ∧ t.ctl = update s.ctl c (.leaving op r) ∧ t.shared = q := by
  have hlock : Advances ops (s.enter c op) { (s.enter c op).goto c (.locked op) with owner := some c } :=
    .goto (.lock (State.goto_self ..) howner) rfl rfl rfl (by rw [enter_ctl, update_self]; rintro _ ⟨⟩)
      (by rw [enter_ctl, update_self]; rintro ⟨⟩)
  generalize hm : { (s.enter c op).goto c (.locked op) with owner := some c } = m at hlock
  have hshared : m.shared = s.shared := by rw [← hm]; rfl
  have hmctl : m.ctl = update s.ctl c (.locked op) := by
    rw [← hm]
    exact update_idem ..
  have hmc : m.ctl c = .locked op := by rw [hmctl, update_self]
  rcases hdoes with ⟨hcheck, hbody⟩ | ⟨hcheck, ho, rfl⟩
  · have hpass : Advances ops m (m.goto c (.acting op)) :=
      .goto (.pass hmc (by rw [hshared]; exact hcheck)) rfl rfl rfl (by rw [hmc]; rintro _ ⟨⟩) (by rw [hmc]; rintro ⟨⟩)
    have hact : Advances ops (m.goto c (.acting op))
        { (m.goto c (.acting op)).goto c (.notifying op r) with shared := q } :=
      .goto (.act (State.goto_self ..) (show (ops op).body m.shared = _ by rw [hshared]; exact hbody)) rfl rfl rfl
        (by rw [State.goto_self]; rintro _ ⟨⟩) (by rw [State.goto_self]; rintro ⟨⟩)
    generalize hn : { (m.goto c (.acting op)).goto c (.notifying op r) with shared := q } = n at hact
    have hnctl : n.ctl = update s.ctl c (.notifying op r) := by
      rw [← hn]
      show update (update m.ctl c _) c _ = _
      rw [update_idem, hmctl, update_idem]
    have hnc : n.ctl c = .notifying op r := by rw [hnctl, update_self]
    have hnotify : Advances ops n (n.goto c (.leaving op r)) := by
      refine .goto (.notifyNone hnc (fun d => ?_)) rfl rfl rfl (by rw [hnc]; rintro _ ⟨⟩) (by rw [hnc]; rintro ⟨⟩)
      rw [hnctl]
      by_cases hd : d = c
      · subst hd
        rw [update_self]
        rfl
      · rw [update_of_ne hd, hctl]
        rfl
    refine ⟨_, (((ReflTransGen.single hlock).tail hpass).tail hact).tail hnotify, ?_, by rw [← hn]; rfl⟩
    show update n.ctl c _ = _
    rw [hnctl, update_idem]
  · have hrefuse : Advances ops m (m.goto c (.leaving op r)) :=
      .goto (.refuse hmc (by rw [hshared]; exact hcheck) ho) rfl rfl rfl (by rw [hmc]; rintro _ ⟨⟩)
        (by rw [hmc]; rintro ⟨⟩)
    refine ⟨_, (ReflTransGen.single hlock).tail hrefuse, ?_, hshared⟩
    show update m.ctl c _ = _
    rw [hmctl, update_idem]

end Monitor

/-! ## Agents -/

/-- What agents do: the operation an agent wants to do next, if it is one, how it goes on with the result, and what it
can do by itself otherwise. -/
structure Agents (A : Type) {Q : Type} (Op Res : Q → Type) where
  wants : A → Option ((q : Q) × Op q)
  resume : A → (q : Q) → Res q → A
  goes : A → A → Prop
  alone : ∀ a b, goes a b → wants a = none

namespace Agents

variable {C A Q Cv : Type} {σ Op Res : Q → Type} [DecidableEq C]

/-- The agents and the objects. -/
structure State (C A : Type) {Q : Type} (σ : Q → Type) where
  agents : C → A
  objects : (q : Q) → σ q

/-- The agents, and a monitor for each object. -/
structure Locked (C A : Type) {Q : Type} (σ Op Res : Q → Type) where
  agents : C → A
  monitors : (q : Q) → Monitor.State C (σ q) (Op q) (Res q)

namespace Locked

/-- The monitors around some objects, before any call. -/
def init (agents : C → A) (objects : (q : Q) → σ q) : Locked C A σ Op Res := ⟨agents, fun q => .init (objects q)⟩

/-- An agent moves. -/
def setAgent (s : Locked C A σ Op Res) (c : C) (a : A) : Locked C A σ Op Res := { s with agents := update s.agents c a }

variable [DecidableEq Q]

/-- A monitor moves. -/
def setMonitor (s : Locked C A σ Op Res) (q : Q) (m : Monitor.State C (σ q) (Op q) (Res q)) : Locked C A σ Op Res :=
  { s with monitors := update s.monitors q m }

omit [DecidableEq C] in
@[simp] theorem setMonitor_self (s : Locked C A σ Op Res) (q : Q) (m : Monitor.State C (σ q) (Op q) (Res q)) :
    (s.setMonitor q m).monitors q = m := update_self ..

omit [DecidableEq C] in
theorem setMonitor_ne (s : Locked C A σ Op Res) {q r : Q} (m : Monitor.State C (σ q) (Op q) (Res q)) (h : r ≠ q) :
    (s.setMonitor q m).monitors r = s.monitors r := update_of_ne h ..

end Locked

variable [DecidableEq Q] [DecidableEq Cv]

/-- A step with atomic objects. -/
inductive Step (ag : Agents A Op Res) (effect : (q : Q) → σ q → Op q → Res q → σ q → Prop) :
    State C A σ → State C A σ → Prop where
  | go {s c a} (h : ag.goes (s.agents c) a) : Step ag effect s { s with agents := update s.agents c a }
  | use {s c q op r o} (h : ag.wants (s.agents c) = some ⟨q, op⟩) (he : effect q (s.objects q) op r o) :
      Step ag effect s ⟨update s.agents c (ag.resume (s.agents c) q r), update s.objects q o⟩

variable (ag : Agents A Op Res) (ops : (q : Q) → Op q → Operation (σ q) (Res q) Cv)

/-- A step of an agent: by itself, into an operation, inside it, or out of it with the result. -/
inductive Progress : Locked C A σ Op Res → Locked C A σ Op Res → Prop where
  | go {s c a} (h : ag.goes (s.agents c) a) : Progress s (s.setAgent c a)
  | call {s c q op} (h : ag.wants (s.agents c) = some ⟨q, op⟩) (hidle : (s.monitors q).ctl c = .idle) :
      Progress s (s.setMonitor q ((s.monitors q).enter c op))
  | advance {s q m} (h : Monitor.Advances (ops q) (s.monitors q) m) : Progress s (s.setMonitor q m)
  | leave {s c q op r} (h : (s.monitors q).ctl c = .leaving op r) :
      Progress s ((s.setAgent c (ag.resume (s.agents c) q r)).setMonitor q ((s.monitors q).exit c op r))

/-- A step with locks: one of an agent, or a wake-up without a reason. -/
inductive LockedStep : Locked C A σ Op Res → Locked C A σ Op Res → Prop where
  | progress {s s'} (h : Progress ag ops s s') : LockedStep s s'
  | wake {s c q op} (h : (s.monitors q).ctl c = .asleep op) :
      LockedStep s (s.setMonitor q ((s.monitors q).goto c (.woken op)))

/-- Every monitor has come to where it is by its own steps, and an agent is in the operation it wants to do, if it is in
one. -/
structure Locked.Inv (q₀ : (q : Q) → σ q) (s : Locked C A σ Op Res) : Prop where
  reaches : ∀ q, Monitor.Reaches (ops q) (.init (q₀ q)) (s.monitors q)
  busy : ∀ q c op, op ∈ ((s.monitors q).ctl c).pending → ag.wants (s.agents c) = some ⟨q, op⟩

variable {ag ops} {q₀ : (q : Q) → σ q} {s s' : Locked C A σ Op Res} {t : State C A σ} {c : C}

/-! ## The invariant -/

namespace Locked.Inv

omit [DecidableEq Q] in
/-- It holds at the start. -/
theorem init (agents : C → A) : (Locked.init agents q₀ : Locked C A σ Op Res).Inv ag ops q₀ :=
  ⟨fun _ => .refl, fun q c op h => by cases h⟩

omit [DecidableEq Q] in
/-- An agent is in one operation at most. -/
theorem unique (h : s.Inv ag ops q₀) {q q' : Q} {op : Op q} {op' : Op q'} (hq : op ∈ ((s.monitors q).ctl c).pending)
    (hq' : op' ∈ ((s.monitors q').ctl c).pending) : q = q' :=
  congrArg Sigma.fst (Option.some.inj ((h.busy q c op hq).symm.trans (h.busy q' c op' hq')))

/-- A step at one monitor, of agents in the operation they want to do. -/
theorem move (h : s.Inv ag ops q₀) {q : Q} {m : Monitor.State C (σ q) (Op q) (Res q)}
    (hm : Monitor.Step (ops q) (s.monitors q) m)
    (hbusy : ∀ c op, op ∈ (m.ctl c).pending → ag.wants (s.agents c) = some ⟨q, op⟩) :
    (s.setMonitor q m).Inv ag ops q₀ := by
  refine ⟨fun r => ?_, fun r c op hop => ?_⟩
  · by_cases hr : r = q
    · subst hr
      rw [Locked.setMonitor_self]
      exact (h.reaches r).tail hm
    · rw [Locked.setMonitor_ne _ _ hr]
      exact h.reaches r
  · by_cases hr : r = q
    · subst hr
      rw [Locked.setMonitor_self] at hop
      exact hbusy c op hop
    · rw [Locked.setMonitor_ne _ _ hr] at hop
      exact h.busy r c op hop

/-- A step inside a monitor keeps it. -/
theorem inner (h : s.Inv ag ops q₀) {q : Q} {m : Monitor.State C (σ q) (Op q) (Res q)}
    (hm : Monitor.Step (ops q) (s.monitors q) m) (hcalled : m.called = (s.monitors q).called)
    (hdone : m.done = (s.monitors q).done) : (s.setMonitor q m).Inv ag ops q₀ := by
  refine h.move hm (fun c op hop => h.busy q c op ?_)
  rwa [← hm.pending (h.reaches q).inOrder hcalled hdone c]

/-- So does progress. -/
theorem progress (h : s.Inv ag ops q₀) (hs : Progress ag ops s s') : s'.Inv ag ops q₀ := by
  cases hs with
  | @go c a hgo =>
    refine ⟨h.reaches, fun q d op hop => ?_⟩
    by_cases hd : d = c
    · subst hd
      have hwants := h.busy q d op hop
      rw [ag.alone _ _ hgo] at hwants
      cases hwants
    · show ag.wants (update s.agents c a d) = _
      rw [update_of_ne hd]
      exact h.busy q d op hop
  | @call c q op hwants hidle =>
    refine h.move (.call op hidle) (fun d op' hop => ?_)
    by_cases hd : d = c
    · subst hd
      rw [Monitor.State.enter_ctl, update_self, Monitor.Ctl.pending, List.mem_singleton] at hop
      rw [hop]
      exact hwants
    · rw [Monitor.State.enter_ctl, update_of_ne hd] at hop
      exact h.busy q d op' hop
  | @advance q m hm => exact h.inner hm.step hm.called hm.done
  | @leave c q op r hc =>
    refine ⟨fun q' => ?_, fun q' d op' hop => ?_⟩
    · by_cases hq : q' = q
      · subst hq
        rw [Locked.setMonitor_self]
        exact (h.reaches q').tail (.leave hc)
      · rw [Locked.setMonitor_ne _ _ hq]
        exact h.reaches q'
    · have hd : d ≠ c := by
        rintro rfl
        by_cases hq : q' = q
        · subst hq
          rw [Locked.setMonitor_self, Monitor.State.exit_ctl, update_self] at hop
          cases hop
        · rw [Locked.setMonitor_ne _ _ hq] at hop
          exact hq (h.unique hop (show op ∈ ((s.monitors q).ctl d).pending by rw [hc]; exact List.mem_singleton_self _))
      have hop' : op' ∈ ((s.monitors q').ctl d).pending := by
        by_cases hq : q' = q
        · subst hq
          rwa [Locked.setMonitor_self, Monitor.State.exit_ctl, update_of_ne hd] at hop
        · rwa [Locked.setMonitor_ne _ _ hq] at hop
      show ag.wants (update s.agents c _ d) = _
      rw [update_of_ne hd]
      exact h.busy q' d op' hop'

/-- So does every step. -/
theorem step (h : s.Inv ag ops q₀) (hs : LockedStep ag ops s s') : s'.Inv ag ops q₀ := by
  cases hs with
  | progress hp => exact h.progress hp
  | wake hc => exact h.inner (.wake hc) rfl rfl

end Locked.Inv

/-! ## Refinement -/

/-- How an agent looks from outside: one whose operation has taken effect has its result. -/
def Locked.Shows (ag : Agents A Op Res) (s : Locked C A σ Op Res) (c : C) (a : A) : Prop :=
  (∃ q op r, ((s.monitors q).ctl c).settled = some (op, r) ∧ a = ag.resume (s.agents c) q r) ∨
    ((∀ q, ((s.monitors q).ctl c).settled = none) ∧ a = s.agents c)

/-- The state with atomic objects that a state with locks stands for. -/
structure Locked.Refines (ag : Agents A Op Res) (s : Locked C A σ Op Res) (t : State C A σ) : Prop where
  objects : ∀ q, t.objects q = (s.monitors q).shared
  agents : ∀ c, s.Shows ag c (t.agents c)

omit [DecidableEq C] [DecidableEq Q] in
/-- Nothing that is seen of an agent changes. -/
theorem Locked.Shows.congr {a : A} (h : s.Shows ag c a) (hagent : s'.agents c = s.agents c)
    (hsettled : ∀ q, ((s'.monitors q).ctl c).settled = ((s.monitors q).ctl c).settled) : s'.Shows ag c a := by
  rcases h with ⟨q, op, r, hq, rfl⟩ | ⟨hnone, rfl⟩
  · exact .inl ⟨q, op, r, by rw [hsettled, hq], by rw [hagent]⟩
  · exact .inr ⟨fun q => by rw [hsettled, hnone q], hagent.symm⟩

omit [DecidableEq C] [DecidableEq Q] in
/-- At first both are the same. -/
theorem Locked.refines_init (agents : C → A) (objects : (q : Q) → σ q) :
    (Locked.init agents objects : Locked C A σ Op Res).Refines ag ⟨agents, objects⟩ :=
  ⟨fun _ => rfl, fun _ => .inr ⟨fun _ => rfl, rfl⟩⟩

omit [DecidableEq Q] in
/-- An agent in an operation that has not taken effect looks as it is. -/
theorem Locked.Refines.unsettled (h : s.Refines ag t) (hinv : s.Inv ag ops q₀) {q : Q} {op : Op q}
    (hop : op ∈ ((s.monitors q).ctl c).pending) (hq : ((s.monitors q).ctl c).settled = none) :
    t.agents c = s.agents c := by
  rcases h.agents c with ⟨q', op', r, hq', -⟩ | ⟨-, ha⟩
  · obtain rfl := hinv.unique hop (Monitor.Ctl.pending_of_settled hq')
    rw [hq] at hq'
    cases hq'
  · exact ha

omit [DecidableEq C] in
/-- Something happens at one monitor that is not seen from outside. -/
theorem Locked.Refines.setMonitor (h : s.Refines ag t) {q : Q} {m : Monitor.State C (σ q) (Op q) (Res q)}
    (hshared : m.shared = (s.monitors q).shared) (hsettled : ∀ c, (m.ctl c).settled = ((s.monitors q).ctl c).settled) :
    (s.setMonitor q m).Refines ag t := by
  refine ⟨fun q' => ?_, fun c => (h.agents c).congr rfl (fun q' => ?_)⟩
  · by_cases hq : q' = q
    · subst hq
      rw [Locked.setMonitor_self, hshared, h.objects]
    · rw [Locked.setMonitor_ne _ _ hq, h.objects]
  · by_cases hq : q' = q
    · subst hq
      rw [Locked.setMonitor_self, hsettled]
    · rw [Locked.setMonitor_ne _ _ hq]

section refinement

variable {Inv : (q : Q) → σ q → Prop} {Enabled : (q : Q) → Op q → σ q → Prop}
  {effect : (q : Q) → σ q → Op q → Res q → σ q → Prop} (heff : ∀ q,
  Monitor.Effective (ops q) (Inv q) (Enabled q) (effect q)) (h0 : ∀ q, Inv q (q₀ q))
include heff h0

/-- A step inside an operation is not seen from outside, or it is the one in which the operation takes effect. -/
theorem Locked.Refines.inner (h : s.Refines ag t) (hinv : s.Inv ag ops q₀) {q : Q}
    {m : Monitor.State C (σ q) (Op q) (Res q)} (hm : Monitor.Step (ops q) (s.monitors q) m)
    (hcalled : m.called = (s.monitors q).called) (hdone : m.done = (s.monitors q).done) :
    (s.setMonitor q m).Refines ag t ∨ ∃ t', Step ag effect t t' ∧ (s.setMonitor q m).Refines ag t' := by
  have hsafe := (hinv.reaches q).safe (heff q).toSound (h0 q)
  rcases hm.settles (heff q) hsafe hcalled hdone with ⟨hshared, hsettled⟩ | ⟨c, op, r, hnone, hpending, hnew, hothers,
    heffect⟩
  · exact .inl (h.setMonitor hshared hsettled)
  · have hop : op ∈ ((s.monitors q).ctl c).pending := by
      rw [hpending]
      exact List.mem_singleton_self op
    have hagent := h.unsettled hinv hop hnone
    have hwants : ag.wants (t.agents c) = some ⟨q, op⟩ := by
      rw [hagent]
      exact hinv.busy q c op hop
    rw [← h.objects] at heffect
    refine .inr ⟨_, .use hwants heffect, fun q' => ?_, fun d => ?_⟩
    · by_cases hq : q' = q
      · subst hq
        rw [Locked.setMonitor_self]
        exact update_self ..
      · rw [Locked.setMonitor_ne _ _ hq, ← h.objects]
        exact update_of_ne hq ..
    · by_cases hd : d = c
      · subst hd
        refine .inl ⟨q, op, r, by rw [Locked.setMonitor_self, hnew], ?_⟩
        show update t.agents d _ d = ag.resume (s.agents d) q r
        rw [update_self, hagent]
      · show Locked.Shows ag _ d (update t.agents c _ d)
        rw [update_of_ne hd]
        refine (h.agents d).congr rfl (fun q' => ?_)
        by_cases hq : q' = q
        · subst hq
          rw [Locked.setMonitor_self, hothers d hd]
        · rw [Locked.setMonitor_ne _ _ hq]

/-- A step with locks is a step with atomic objects, or nothing is seen of it. -/
theorem Locked.Refines.step (h : s.Refines ag t) (hinv : s.Inv ag ops q₀) (hs : LockedStep ag ops s s') :
    s'.Refines ag t ∨ ∃ t', Step ag effect t t' ∧ s'.Refines ag t' := by
  cases hs with
  | wake hc => exact h.inner heff h0 hinv (.wake hc) rfl rfl
  | progress hp =>
    cases hp with
    | @go c a hgo =>
      have hfree : ∀ q, ((s.monitors q).ctl c).settled = none := by
        intro q
        cases hq : ((s.monitors q).ctl c).settled with
        | none => rfl
        | some x =>
          have hwants := hinv.busy q c x.1 (Monitor.Ctl.pending_of_settled hq)
          rw [ag.alone _ _ hgo] at hwants
          cases hwants
      have hagent : t.agents c = s.agents c := by
        rcases h.agents c with ⟨q, op, r, hq, -⟩ | ⟨-, ha⟩
        · rw [hfree q] at hq
          cases hq
        · exact ha
      refine .inr ⟨_, .go (c := c) (a := a) (by rw [hagent]; exact hgo), h.objects, fun d => ?_⟩
      by_cases hd : d = c
      · subst hd
        exact .inr ⟨hfree, by simp [Locked.setAgent]⟩
      · show Locked.Shows ag _ d (update t.agents c a d)
        rw [update_of_ne hd]
        exact (h.agents d).congr (update_of_ne hd ..) (fun _ => rfl)
    | @call c q op hwants hidle =>
      refine .inl (h.setMonitor rfl (fun d => ?_))
      rw [Monitor.State.enter_ctl]
      by_cases hd : d = c
      · subst hd
        rw [update_self, hidle]
        rfl
      · rw [update_of_ne hd]
    | advance hm => exact h.inner heff h0 hinv hm.step hm.called hm.done
    | @leave c q op r hc =>
      have hop : op ∈ ((s.monitors q).ctl c).pending := by
        rw [hc]
        exact List.mem_singleton_self op
      refine .inl ⟨fun q' => ?_, fun d => ?_⟩
      · by_cases hq : q' = q
        · subst hq
          rw [Locked.setMonitor_self, h.objects]
          rfl
        · rw [Locked.setMonitor_ne _ _ hq, h.objects]
          rfl
      · by_cases hd : d = c
        · subst hd
          -- it has its result now, and before it looked as if it had
          refine .inr ⟨fun q' => ?_, ?_⟩
          · by_cases hq : q' = q
            · subst hq
              rw [Locked.setMonitor_self, Monitor.State.exit_ctl, update_self]
              rfl
            · rw [Locked.setMonitor_ne _ _ hq]
              cases hs : ((s.monitors q').ctl d).settled with
              | none => exact hs
              | some x => exact absurd (hinv.unique (Monitor.Ctl.pending_of_settled hs) hop) hq
          · rcases h.agents d with ⟨q', op', r', hq', ha⟩ | ⟨hnone, -⟩
            · obtain rfl := hinv.unique (Monitor.Ctl.pending_of_settled hq') hop
              rw [hc] at hq'
              cases hq'
              rw [ha]
              show _ = update s.agents d _ d
              rw [update_self]
            · have := hnone q
              rw [hc] at this
              cases this
        · refine (h.agents d).congr (update_of_ne hd ..) (fun q' => ?_)
          by_cases hq : q' = q
          · subst hq
            rw [Locked.setMonitor_self, Monitor.State.exit_ctl, update_of_ne hd]
          · rw [Locked.setMonitor_ne _ _ hq]
            rfl

/-- Every run with locks is a run with atomic objects. -/
theorem Locked.exists_refined {agents : C → A} (hs : ReflTransGen (LockedStep ag ops) (Locked.init agents q₀) s) :
    s.Inv ag ops q₀ ∧ ∃ t, ReflTransGen (Step ag effect) ⟨agents, q₀⟩ t ∧ s.Refines ag t := by
  induction hs with
  | refl => exact ⟨.init agents, _, .refl, Locked.refines_init agents q₀⟩
  | tail _ hab ih =>
    obtain ⟨hinv, t, ht, hr⟩ := ih
    refine ⟨hinv.step hab, ?_⟩
    rcases hr.step heff h0 hinv hab with hsame | ⟨t', hstep, hr'⟩
    · exact ⟨t, ht, hsame⟩
    · exact ⟨t', ht.tail hstep, hr'⟩

end refinement

/-! ## Standstill -/

section standstill

variable {Inv : (q : Q) → σ q → Prop} {Enabled : (q : Q) → Op q → σ q → Prop} {room : (q : Q) → Cv → σ q → Nat}
  (hroomy : ∀ q, Monitor.Roomy (ops q) (Inv q) (Enabled q) (room q)) (h0 : ∀ q, Inv q (q₀ q))
  (hbody : ∀ q op o, Enabled q op o → ((ops q op).body o).isSome = true) (hinv : s.Inv ag ops q₀) (hstuck : ∀ s',
    ¬Progress ag ops s s')
include hroomy h0 hbody hinv hstuck

/-- Where no agent can take a step, every one is outside or sleeps. -/
theorem Locked.outside_or_asleep (q : Q) (c : C) :
    (s.monitors q).ctl c = .idle ∨ ∃ op, (s.monitors q).ctl c = .asleep op := by
  by_contra hno
  simp only [not_or, not_exists] at hno
  have howned := ((hinv.reaches q).induct (P := fun _ => True) trivial (fun _ _ _ _ _ => trivial)).1
  rcases Monitor.State.exists_advance howned (hinv.reaches q).waits ((hinv.reaches q).safe (hroomy q).toSound (h0 q))
    (hbody q) hno.1 hno.2 with
    ⟨d, op, r, hd⟩ | ⟨m, hm⟩
  · exact hstuck _ (.leave hd)
  · exact hstuck _ (.advance hm)

/-- The locks are free, and who sleeps has nothing to wake up for. -/
theorem Locked.no_room [Fintype C] {q : Q} {op : Op q} (hc : (s.monitors q).ctl c = .asleep op) {k : Cv}
    (hk : (ops q op).waitsOn k = true) : room q k (s.monitors q).shared = 0 := by
  have hrest := Locked.outside_or_asleep hroomy h0 hbody hinv hstuck q
  have howned := ((hinv.reaches q).induct (P := fun _ => True) trivial (fun _ _ _ _ _ => trivial)).1
  have hfree : (s.monitors q).owner = none := by
    cases howner : (s.monitors q).owner with
    | none => rfl
    | some d =>
      have hholds := (howned d).2 howner
      rcases hrest d with hd | ⟨op', hd⟩ <;> rw [hd] at hholds <;> cases hholds
  have hwoken := (hinv.reaches q).woken (hroomy q) (h0 q) hfree ⟨c, by rw [hc]; exact hk⟩
  have hnone : countIn Finset.univ (Monitor.Ctl.wokenOn (ops q) k) (s.monitors q).ctl = 0 := by
    refine countIn_eq_zero (fun d _ => ?_)
    rcases hrest d with hd | ⟨op', hd⟩ <;> rw [hd] <;> rfl
  omega

/-- Where no agent can take a step, the system with atomic objects stands still as well. -/
theorem Locked.still [Fintype C] {effect : (q : Q) → σ q → Op q → Res q → σ q → Prop}
    (hfits : ∀ q o op r o' k, effect q o op r o' → (ops q op).waitsOn k = true → 0 < room q k o) (hr : s.Refines ag t) :
    (∀ c, t.agents c = s.agents c) ∧ ∀ t', ¬Step ag effect t t' := by
  have hrest := Locked.outside_or_asleep hroomy h0 hbody hinv hstuck
  have hagents : ∀ c, t.agents c = s.agents c := by
    intro c
    rcases hr.agents c with ⟨q, op, r, hq, -⟩ | ⟨-, ha⟩
    · rcases hrest q c with hc | ⟨op', hc⟩ <;> rw [hc] at hq <;> cases hq
    · exact ha
  refine ⟨hagents, fun t' ht => ?_⟩
  cases ht with
  | @go c a hgo =>
    rw [hagents c] at hgo
    exact hstuck _ (.go hgo)
  | @use c q op r o hwants heffect =>
    rw [hagents c] at hwants
    rcases hrest q c with hc | ⟨op', hc⟩
    · exact hstuck _ (.call hwants hc)
    · have hwants' := hinv.busy q c op' (by rw [hc]; exact List.mem_singleton_self op')
      rw [hwants] at hwants'
      cases hwants'
      obtain ⟨k, ready, ho⟩ := (hinv.reaches q).waits c op (by rw [hc]; rfl)
      have hk : (ops q op).waitsOn k = true := Operation.waitsOn_iff.2 ⟨ready, ho⟩
      have hpos := hfits q _ op r o k heffect hk
      rw [hr.objects, Locked.no_room hroomy h0 hbody hinv hstuck hc hk] at hpos
      exact absurd hpos (Nat.lt_irrefl 0)

end standstill

/-! ## One operation behind the other -/

/-- Nobody is in an operation. -/
structure Locked.Quiet (s : Locked C A σ Op Res) : Prop where
  ctl : ∀ q c, (s.monitors q).ctl c = .idle
  owner : ∀ q, (s.monitors q).owner = none

section alone

variable {effect : (q : Q) → σ q → Op q → Res q → σ q → Prop}
  (hdoes : ∀ q o op r o', effect q o op r o' → Monitor.Does (ops q op) o r o')
include hdoes

omit hdoes in
/-- Steps at one monitor. -/
theorem Locked.advances {q : Q} {m m' : Monitor.State C (σ q) (Op q) (Res q)}
    (h : ReflTransGen (Monitor.Advances (ops q)) m m') :
    ReflTransGen (Progress ag ops) (s.setMonitor q m) (s.setMonitor q m') := by
  refine h.lift (fun m => s.setMonitor q m) (fun a b hab => ?_)
  have hstep : Progress ag ops (s.setMonitor q a) ((s.setMonitor q a).setMonitor q b) :=
    .advance (by rw [Locked.setMonitor_self]; exact hab)
  rwa [Locked.setMonitor, Locked.setMonitor, update_idem] at hstep

/-- A step with atomic objects, taken with locks while nobody else does anything. -/
theorem Locked.Quiet.step (h : s.Quiet) (hs : Step ag effect ⟨s.agents, fun q => (s.monitors q).shared⟩ t) :
    ∃ s', ReflTransGen (Progress ag ops) s s' ∧ s'.Quiet ∧ t = ⟨s'.agents, fun q => (s'.monitors q).shared⟩ := by
  cases hs with
  | @go c a hgo => exact ⟨_, .single (.go hgo), ⟨h.ctl, h.owner⟩, rfl⟩
  | @use c q op r o hwants heffect =>
    obtain ⟨m, hm, hctl, hshared⟩ :=
      Monitor.State.exists_alone (h.ctl q) (h.owner q) (hdoes q _ op r o heffect) (c := c)
    have hcall : Progress ag ops s (s.setMonitor q ((s.monitors q).enter c op)) := .call hwants (h.ctl q c)
    have hleave : Progress ag ops (s.setMonitor q m)
        (((s.setMonitor q m).setAgent c (ag.resume (s.agents c) q r)).setMonitor q
        (((s.setMonitor q m).monitors q).exit c op r)) := .leave (by rw [Locked.setMonitor_self, hctl, update_self])
    rw [Locked.setMonitor_self] at hleave
    refine ⟨_, ((ReflTransGen.single hcall).trans (Locked.advances hm)).tail hleave, ⟨fun q' d => ?_, fun q' => ?_⟩, ?_⟩
    · by_cases hq : q' = q
      · subst hq
        rw [Locked.setMonitor_self, Monitor.State.exit_ctl, hctl, update_idem]
        by_cases hd : d = c
        · rw [hd, update_self]
        · rw [update_of_ne hd, h.ctl]
      · rw [Locked.setMonitor_ne _ _ hq]
        exact (congrArg (fun m => m.ctl d) (Locked.setMonitor_ne s m hq)).trans (h.ctl q' d)
    · by_cases hq : q' = q
      · subst hq
        rw [Locked.setMonitor_self]
        rfl
      · rw [Locked.setMonitor_ne _ _ hq]
        exact (congrArg (fun m => m.owner) (Locked.setMonitor_ne s m hq)).trans (h.owner q')
    · refine congrArg (State.mk _) (funext fun q' => ?_)
      by_cases hq : q' = q
      · subst hq
        rw [Locked.setMonitor_self, update_self]
        exact hshared.symm
      · rw [Locked.setMonitor_ne _ _ hq, update_of_ne hq]
        exact (congrArg (fun m => m.shared) (Locked.setMonitor_ne s m hq)).symm

/-- Every run with atomic objects is one with locks. -/
theorem Locked.exists_locked {agents : C → A} (ht : ReflTransGen (Step ag effect) ⟨agents, q₀⟩ t) :
    ∃ s : Locked C A σ Op Res, ReflTransGen (Progress ag ops) (.init agents q₀) s ∧ s.Quiet ∧
      t = ⟨s.agents, fun q => (s.monitors q).shared⟩ := by
  induction ht with
  | refl => exact ⟨_, .refl, ⟨fun _ _ => rfl, fun _ => rfl⟩, rfl⟩
  | tail _ hstep ih =>
    obtain ⟨s, hs, hquiet, rfl⟩ := ih
    obtain ⟨s', hs', hquiet', ht⟩ := hquiet.step hdoes hstep
    exact ⟨s', hs.trans hs', hquiet', ht⟩

omit hdoes in
/-- Where nobody is in an operation, somebody can take a step unless all agents are done. -/
theorem Locked.Quiet.stuck (h : s.Quiet) (hdone : ∀ c, ag.wants (s.agents c) = none ∧ ∀ a, ¬ag.goes (s.agents c) a) :
    ∀ s', ¬Progress ag ops s s' := by
  intro s' hs
  cases hs with
  | @go c a hgo => exact (hdone c).2 a hgo
  | @call c q op hwants =>
    rw [(hdone c).1] at hwants
    cases hwants
  | @advance q m hm =>
    obtain ⟨hstep, hcalled, -, -⟩ := hm
    cases hstep with
    | call op hc => simp at hcalled
    | _ hc =>
      rw [h.ctl] at hc
      cases hc
  | @leave c q op r hc =>
    rw [h.ctl] at hc
    cases hc

end alone

end Agents

end Lib
