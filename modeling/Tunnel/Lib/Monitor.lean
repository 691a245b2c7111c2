import Mathlib.Data.Fintype.Basic
import Mathlib.Logic.Relation
import Tunnel.Lib.Count
import Tunnel.Lib.Interleave

/-!
# Monitors

An object whose operations run under one lock and wait on condition variables. Any number of clients call operations,
each client one at a time, and they move in any order. A client that waits gives the lock back; it may wake without a
reason, and it looks again at what it waits for once it has the lock.

Three rules are proved for all monitors. An invariant of the object that every operation keeps holds always, and with it
what the operation checked before it acts (`Sound`). The operations take effect one behind the other in the order in
which they have the lock (`Replays`). And a wake-up is not lost when an operation notifies the clients it has made room
for (`Roomy`).
-/

namespace Lib

open Function

variable {σ Op Res Cv C : Type}

/-- What an operation does when its check fails: it waits on a condition variable until a predicate holds, or it
returns. -/
inductive Otherwise (σ Res Cv : Type) where
  | wait (k : Cv) (ready : σ → Bool)
  | refuse (r : Res)

/-- An operation of a monitor, from where it has the lock: its check, what follows if the check fails, what it does, and
whom it notifies then. What it does may be undefined. -/
structure Operation (σ Res Cv : Type) where
  blocked : σ → Bool
  otherwise : Otherwise σ Res Cv
  body : σ → Option (Res × σ)
  notifies : Cv

namespace Operation

variable [DecidableEq Cv]

/-- The operation waits on this condition variable, if it waits. -/
def waitsOn (o : Operation σ Res Cv) (k : Cv) : Bool :=
  match o.otherwise with
  | .wait k' _ => k' = k
  | .refuse _ => false

/-- When an operation waits. -/
theorem waitsOn_iff {o : Operation σ Res Cv} {k : Cv} : o.waitsOn k = true ↔ ∃ ready, o.otherwise = .wait k ready := by
  unfold waitsOn
  split
  · rename_i k' ready ho
    simp [ho]
  · rename_i r ho
    simp [ho]

end Operation

namespace Monitor

/-- Where a client stands in an operation. -/
inductive Ctl (Op Res : Type) where
  | idle
  /-- waits for the lock -/
  | entering (op : Op)
  /-- has the lock, before its check -/
  | locked (op : Op)
  /-- has the lock, before it looks whether what it waits for is there -/
  | testing (op : Op)
  /-- sleeps on its condition variable -/
  | asleep (op : Op)
  /-- was woken, waits for the lock -/
  | woken (op : Op)
  /-- has the lock, past its check -/
  | acting (op : Op)
  /-- has the lock, before it notifies -/
  | notifying (op : Op) (r : Res)
  /-- has the lock, before it gives it back and returns -/
  | leaving (op : Op) (r : Res)
  deriving DecidableEq

namespace Ctl

/-- The client has the lock. -/
def holds : Ctl Op Res → Bool
  | .locked _ | .testing _ | .acting _ | .notifying _ _ | .leaving _ _ => true
  | _ => false

/-- The operation the client is in. -/
def pending : Ctl Op Res → List Op
  | .idle => []
  | .entering op | .locked op | .testing op | .asleep op | .woken op | .acting op => [op]
  | .notifying op _ | .leaving op _ => [op]

/-- The operation that has taken effect, and its result. -/
def settled : Ctl Op Res → Option (Op × Res)
  | .notifying op r | .leaving op r => some (op, r)
  | _ => none

end Ctl

/-- A monitor with its clients: who has the lock, where each client stands, the calls in their order, and the operations
that have returned in the order in which they had the lock. -/
structure State (C σ Op Res : Type) where
  shared : σ
  owner : Option C
  ctl : C → Ctl Op Res
  called : List (C × Op)
  done : List (C × (Op × Res))

/-- Nobody has called yet. -/
def State.init (q : σ) : State C σ Op Res where
  shared := q
  owner := none
  ctl := fun _ => .idle
  called := []
  done := []

variable [DecidableEq C]

/-- A client moves. -/
def State.goto (s : State C σ Op Res) (c : C) (x : Ctl Op Res) : State C σ Op Res := { s with ctl := update s.ctl c x }

variable (ops : Op → Operation σ Res Cv)

/-- The client sleeps on this condition variable. -/
def Ctl.asleepOn [DecidableEq Cv] (k : Cv) : Ctl Op Res → Bool
  | .asleep op => (ops op).waitsOn k
  | _ => false

/-- The steps. A client that sleeps may wake at any time; one that notifies wakes one of those that sleep, if there is
one. -/
inductive Step [DecidableEq Cv] : State C σ Op Res → State C σ Op Res → Prop where
  | call {s c} (op) (h : s.ctl c = .idle) : Step s { s.goto c (.entering op) with called := s.called ++ [(c, op)] }
  | lock {s c op} (h : s.ctl c = .entering op) (hfree : s.owner = none) :
      Step s { s.goto c (.locked op) with owner := some c }
  | pass {s c op} (h : s.ctl c = .locked op) (hcheck : (ops op).blocked s.shared = false) :
      Step s (s.goto c (.acting op))
  | refuse {s c op r} (h : s.ctl c = .locked op) (hcheck : (ops op).blocked s.shared = true) (ho : (ops op).otherwise =
      .refuse r) :
      Step s (s.goto c (.leaving op r))
  | wait {s c op k ready} (h : s.ctl c = .locked op) (hcheck : (ops op).blocked s.shared = true)
      (ho : (ops op).otherwise = .wait k ready) : Step s (s.goto c (.testing op))
  | ready {s c op k ready} (h : s.ctl c = .testing op) (ho : (ops op).otherwise =
      .wait k ready) (hready : ready s.shared = true) :
      Step s (s.goto c (.acting op))
  | sleep {s c op k ready} (h : s.ctl c = .testing op) (ho : (ops op).otherwise =
      .wait k ready) (hready : ready s.shared = false) :
      Step s { s.goto c (.asleep op) with owner := none }
  | wake {s c op} (h : s.ctl c = .asleep op) : Step s (s.goto c (.woken op))
  | relock {s c op} (h : s.ctl c = .woken op) (hfree : s.owner = none) :
      Step s { s.goto c (.testing op) with owner := some c }
  | act {s c op r q} (h : s.ctl c = .acting op) (hbody : (ops op).body s.shared = some (r, q)) :
      Step s { s.goto c (.notifying op r) with shared := q }
  | notify {s c op r d op'} (h : s.ctl c = .notifying op r) (hd : s.ctl d = .asleep op')
      (hk : (ops op').waitsOn (ops op).notifies = true) : Step s ((s.goto d (.woken op')).goto c (.leaving op r))
  | notifyNone {s c op r} (h : s.ctl c = .notifying op r) (hnone : ∀ d, (s.ctl d).asleepOn ops (ops op).notifies =
      false) :
      Step s (s.goto c (.leaving op r))
  | leave {s c op r} (h : s.ctl c = .leaving op r) :
      Step s { s.goto c .idle with owner := none, done := s.done ++ [(c, (op, r))] }

/-- `s'` is reached from `s` by steps. -/
def Reaches [DecidableEq Cv] (s s' : State C σ Op Res) : Prop := Relation.ReflTransGen (Step ops) s s'

variable {ops} {s s' : State C σ Op Res} {c d : C} {x : Ctl Op Res}

@[simp] theorem State.goto_self (s : State C σ Op Res) (c : C) (x : Ctl Op Res) :
    (s.goto c x).ctl c = x := update_self ..

@[simp] theorem State.goto_other (s : State C σ Op Res) (x : Ctl Op Res) (h : d ≠ c) : (s.goto c x).ctl d = s.ctl d :=
  update_of_ne h ..

@[simp] theorem State.goto_done (s : State C σ Op Res) (c : C) (x : Ctl Op Res) : (s.goto c x).done = s.done := rfl

@[simp] theorem State.goto_owner (s : State C σ Op Res) (c : C) (x : Ctl Op Res) : (s.goto c x).owner = s.owner := rfl

/-! ## Mutual exclusion -/

/-- The owner of the lock is the client that stands where the lock is held. -/
def State.Owned (s : State C σ Op Res) : Prop := ∀ c, (s.ctl c).holds = true ↔ s.owner = some c

namespace State.Owned

/-- A client moves without a change of the lock. -/
theorem goto (h : s.Owned) (hx : x.holds = (s.ctl c).holds) : (s.goto c x).Owned := by
  intro d
  by_cases hd : d = c
  · subst hd
    rw [goto_self, hx]
    exact h d
  · rw [goto_other s x hd]
    exact h d

/-- A caller takes the mutex. -/
theorem acquire (h : s.Owned) (hfree : s.owner = none) (hx : x.holds = true) :
    State.Owned { s.goto c x with owner := some c } := by
  intro d
  show ((s.goto c x).ctl d).holds = true ↔ some c = some d
  by_cases hd : d = c
  · subst hd
    simp [hx]
  · rw [goto_other s x hd, h d, hfree]
    simp [Ne.symm hd]

/-- A caller gives the mutex back. -/
theorem release (h : s.Owned) (hc : (s.ctl c).holds = true) (hx : x.holds = false) :
    State.Owned { s.goto c x with owner := none } := by
  intro d
  show ((s.goto c x).ctl d).holds = true ↔ none = some d
  by_cases hd : d = c
  · subst hd
    simp [hx]
  · rw [goto_other s x hd, h d, (h c).1 hc]
    simp [Ne.symm hd]

omit [DecidableEq C] in
/-- Only one client has the lock. -/
theorem unique (h : s.Owned) (hc : (s.ctl c).holds = true) (hd : (s.ctl d).holds = true) : d = c :=
  Option.some.inj (((h d).1 hd).symm.trans ((h c).1 hc))

end State.Owned

variable [DecidableEq Cv]

/-- Every step keeps mutual exclusion. -/
theorem Step.owned (hs : Step ops s s') (h : s.Owned) : s'.Owned := by
  cases hs with
  | call op hc => exact h.goto (by rw [hc]; rfl)
  | lock hc hfree => exact h.acquire hfree rfl
  | pass hc => exact h.goto (by rw [hc]; rfl)
  | refuse hc => exact h.goto (by rw [hc]; rfl)
  | wait hc => exact h.goto (by rw [hc]; rfl)
  | ready hc => exact h.goto (by rw [hc]; rfl)
  | sleep hc => exact h.release (by rw [hc]; rfl) rfl
  | wake hc => exact h.goto (by rw [hc]; rfl)
  | relock hc hfree => exact h.acquire hfree rfl
  | act hc => exact h.goto (by rw [hc]; rfl)
  | @notify c op r d op' hc hd =>
    have hne : c ≠ d := by
      rintro rfl
      rw [hc] at hd
      nomatch hd
    exact (h.goto (by rw [hd]; rfl)).goto (by rw [State.goto_other s _ hne, hc]; rfl)
  | notifyNone hc => exact h.goto (by rw [hc]; rfl)
  | leave hc => exact h.release (by rw [hc]; rfl) rfl

/-- What holds at the beginning and is kept by every step holds in every state that is reached; the lock has one owner.
-/
theorem Reaches.induct {P : State C σ Op Res → Prop} {q : σ} (hs : Reaches ops (.init q) s) (h0 : P (.init q))
    (hstep : ∀ s s', s.Owned → P s → Step ops s s' → P s') : s.Owned ∧ P s := by
  induction hs with
  | refl => exact ⟨fun c => by simp [State.init, Ctl.holds], h0⟩
  | tail _ hab ih => exact ⟨hab.owned ih.1, hstep _ _ ih.1 ih.2 hab⟩

/-! ## Invariants of the object -/

/-- An invariant of the object, and what an operation has made sure of when it acts. -/
structure Sound (ops : Op → Operation σ Res Cv) (Inv : σ → Prop) (Enabled : Op → σ → Prop) : Prop where
  pass : ∀ op q, Inv q → (ops op).blocked q = false → Enabled op q
  ready : ∀ op q k ready, Inv q → (ops op).otherwise = .wait k ready → ready q = true → Enabled op q
  keep : ∀ op q r q', Inv q → Enabled op q → (ops op).body q = some (r, q') → Inv q'

variable {Inv : σ → Prop} {Enabled : Op → σ → Prop} {q₀ : σ}

/-- The invariant holds, and a client that acts may do so. -/
structure State.Safe (Inv : σ → Prop) (Enabled : Op → σ → Prop) (s : State C σ Op Res) : Prop where
  inv : Inv s.shared
  enabled : ∀ c op, s.ctl c = .acting op → Enabled op s.shared

/-- A client moves and the object stays as it is. -/
theorem State.Safe.move (h : s.Safe Inv Enabled) (hshared : s'.shared = s.shared) (hctl : s'.ctl = update s.ctl c x)
    (hx : ∀ op, x = .acting op → Enabled op s.shared) : s'.Safe Inv Enabled := by
  refine ⟨hshared ▸ h.inv, fun d op hd => ?_⟩
  rw [hshared]
  by_cases hdc : d = c
  · subst hdc
    rw [hctl, update_self] at hd
    exact hx op hd
  · rw [hctl, update_of_ne hdc] at hd
    exact h.enabled d op hd

/-- Every step keeps the invariant of the object. -/
theorem Step.safe (hsound : Sound ops Inv Enabled) (hs : Step ops s s') (howned : s.Owned) (h : s.Safe Inv Enabled) :
    s'.Safe Inv Enabled := by
  cases hs with
  | call => exact h.move rfl rfl (by nofun)
  | lock => exact h.move rfl rfl (by nofun)
  | @pass c op hc hcheck =>
    refine h.move rfl rfl ?_
    rintro _ ⟨⟩
    exact hsound.pass op _ h.inv hcheck
  | refuse => exact h.move rfl rfl (by nofun)
  | wait => exact h.move rfl rfl (by nofun)
  | @ready c op k ready hc ho hready =>
    refine h.move rfl rfl ?_
    rintro _ ⟨⟩
    exact hsound.ready op _ k ready h.inv ho hready
  | sleep => exact h.move rfl rfl (by nofun)
  | wake => exact h.move rfl rfl (by nofun)
  | relock => exact h.move rfl rfl (by nofun)
  | @act c op r q hc hbody =>
    refine ⟨hsound.keep op _ r q h.inv (h.enabled c op hc) hbody, fun d op' hd => ?_⟩
    -- nobody else acts, since the lock is held
    by_cases hdc : d = c
    · subst hdc
      rw [State.goto_self] at hd
      nomatch hd
    · rw [State.goto_other s _ hdc] at hd
      exact absurd (howned.unique (by rw [hc]; rfl) (by rw [hd]; rfl)) hdc
  | @notify c op r d op' =>
    have hwoken : (s.goto d (.woken op')).Safe Inv Enabled := h.move rfl rfl (by nofun)
    exact hwoken.move rfl rfl (by nofun)
  | notifyNone => exact h.move rfl rfl (by nofun)
  | leave => exact h.move rfl rfl (by nofun)

/-- It holds in every run. -/
theorem Reaches.safe (hsound : Sound ops Inv Enabled) (h0 : Inv q₀) (hs : Reaches ops (.init q₀) s) :
    s.Safe Inv Enabled :=
  (hs.induct ⟨h0, nofun⟩ (fun _ _ howned h hab => hab.safe hsound howned h)).2

/-! ## The operations, one behind the other -/

/-- What operations do when they run alone, and what each of them did to the object. -/
inductive Replays (effect : σ → Op → Res → σ → Prop) (q₀ : σ) : List (C × (Op × Res)) → σ → Prop where
  | nil : Replays effect q₀ [] q₀
  | snoc {t q c op r q'} (h : Replays effect q₀ t q) (he : effect q op r q') :
      Replays effect q₀ (t ++ [(c, (op, r))]) q'

/-- Every operation has an effect that is allowed: what it does when it acts, and that it leaves the object alone when
it is refused. -/
structure Effective (ops : Op → Operation σ Res Cv) (Inv : σ → Prop) (Enabled : Op → σ → Prop)
    (effect : σ → Op → Res → σ → Prop) :
    Prop extends Sound ops Inv Enabled where
  act : ∀ op q r q', Inv q → Enabled op q → (ops op).body q = some (r, q') → effect q op r q'
  refuse : ∀ op q r, Inv q → (ops op).blocked q = true → (ops op).otherwise = .refuse r → effect q op r q

variable {effect : σ → Op → Res → σ → Prop}

/-- The operation of the client with the lock that has taken effect, if there is one. -/
def State.settled (s : State C σ Op Res) : Option (Op × Res) := s.owner.bind (fun c => (s.ctl c).settled)

/-- The operations that have returned lead to an object; the one that has taken effect and not yet returned leads from
it to the object there is. -/
def State.Linearized (effect : σ → Op → Res → σ → Prop) (q₀ : σ) (s : State C σ Op Res) : Prop :=
  ∃ q, Replays effect q₀ s.done q ∧
    match s.settled with
    | none => q = s.shared
    | some (op, r) => effect q op r s.shared

omit [DecidableEq C] [DecidableEq Cv] in
/-- What is settled is what the owner has settled. -/
theorem State.settled_of_owner (h : s.owner = some c) : s.settled = (s.ctl c).settled := by
  rw [State.settled, h]
  rfl

/-- A client without the lock moves. -/
theorem State.settled_goto (h : s.owner ≠ some c) : (s.goto c x).settled = s.settled := by
  unfold State.settled
  rw [goto_owner]
  cases howner : s.owner with
  | none => rfl
  | some d =>
    have hne : d ≠ c := by
      rintro rfl
      exact h howner
    show ((s.goto c x).ctl d).settled = _
    rw [goto_other s x hne]
    rfl

omit [DecidableEq C] [DecidableEq Cv] in
/-- Only the object and its account count. -/
theorem State.Linearized.congr (h : s.Linearized effect q₀) (hshared : s'.shared = s.shared) (hdone : s'.done = s.done)
    (hsettled : s'.settled = s.settled) : s'.Linearized effect q₀ := by
  obtain ⟨q, hreplay, hq⟩ := h
  refine ⟨q, hdone ▸ hreplay, ?_⟩
  rw [hshared, hsettled]
  exact hq

/-- The client with the lock moves, and nothing takes effect. -/
theorem State.Owned.settled_goto (h : s.Owned) (hc : (s.ctl c).holds = true) (hx : x.settled = (s.ctl c).settled) :
    (s.goto c x).settled = s.settled := by
  have howner := (h c).1 hc
  have hnew : (s.goto c x).settled = ((s.goto c x).ctl c).settled := State.settled_of_owner howner
  rw [hnew, goto_self, hx, State.settled_of_owner howner]

omit [DecidableEq C] [DecidableEq Cv] in
/-- Who does not hold the mutex is not its owner. -/
theorem State.Owned.owner_ne (h : s.Owned) (hc : (s.ctl c).holds = false) : s.owner ≠ some c := by
  intro howner
  rw [(h c).2 howner] at hc
  nomatch hc

/-- Every step keeps the account. -/
theorem Step.linearized (hsound : Effective ops Inv Enabled effect) (hs : Step ops s s') (howned : s.Owned)
    (hsafe : s.Safe Inv Enabled) (h : s.Linearized effect q₀) : s'.Linearized effect q₀ := by
  cases hs with
  | call op hc => exact h.congr rfl rfl (State.settled_goto (howned.owner_ne (by rw [hc]; rfl)))
  | lock hc hfree => exact h.congr rfl rfl (by simp [State.settled, hfree, Ctl.settled])
  | pass hc => exact h.congr rfl rfl (howned.settled_goto (by rw [hc]; rfl) (by rw [hc]; rfl))
  | @refuse c op r hc hcheck ho =>
    obtain ⟨q, hreplay, hq⟩ := h
    have howner := (howned c).1 (by rw [hc]; rfl)
    rw [State.settled_of_owner howner, hc] at hq
    obtain rfl : q = s.shared := hq
    refine ⟨s.shared, hreplay, ?_⟩
    rw [State.settled_of_owner (s := s.goto c _) howner, State.goto_self]
    exact hsound.refuse op _ r hsafe.inv hcheck ho
  | wait hc => exact h.congr rfl rfl (howned.settled_goto (by rw [hc]; rfl) (by rw [hc]; rfl))
  | ready hc => exact h.congr rfl rfl (howned.settled_goto (by rw [hc]; rfl) (by rw [hc]; rfl))
  | @sleep c op k ready hc =>
    have howner := (howned c).1 (by rw [hc]; rfl)
    refine h.congr rfl rfl ?_
    rw [State.settled_of_owner howner, hc]
    rfl
  | wake hc => exact h.congr rfl rfl (State.settled_goto (howned.owner_ne (by rw [hc]; rfl)))
  | relock hc hfree => exact h.congr rfl rfl (by simp [State.settled, hfree, Ctl.settled])
  | @act c op r q' hc hbody =>
    obtain ⟨q, hreplay, hq⟩ := h
    have howner := (howned c).1 (by rw [hc]; rfl)
    rw [State.settled_of_owner howner, hc] at hq
    obtain rfl : q = s.shared := hq
    refine ⟨s.shared, hreplay, ?_⟩
    rw [State.settled_of_owner (s := { s.goto c _ with shared := q' }) howner, State.goto_self]
    exact hsound.act op _ r q' hsafe.inv (hsafe.enabled c op hc) hbody
  | @notify c op r d op' hc hd =>
    have hne : c ≠ d := by
      rintro rfl
      rw [hc] at hd
      nomatch hd
    have hwoken : (s.goto d (.woken op')).settled = s.settled := State.settled_goto (howned.owner_ne (by rw [hd]; rfl))
    have howned' : (s.goto d (.woken op')).Owned := howned.goto (by rw [hd]; rfl)
    refine h.congr rfl rfl ((howned'.settled_goto ?_ ?_).trans hwoken) <;> rw [State.goto_other s _ hne, hc] <;> rfl
  | notifyNone hc => exact h.congr rfl rfl (howned.settled_goto (by rw [hc]; rfl) (by rw [hc]; rfl))
  | @leave c op r hc =>
    obtain ⟨q, hreplay, hq⟩ := h
    rw [State.settled_of_owner ((howned c).1 (by rw [hc]; rfl)), hc] at hq
    exact ⟨s.shared, hreplay.snoc hq, rfl⟩

/-- In every state that is reached, the operations have taken effect one behind the other. -/
theorem Reaches.linearized (hsound : Effective ops Inv Enabled effect) (h0 : Inv q₀) (hs : Reaches ops (.init q₀) s) :
    s.Linearized effect q₀ := by
  refine (hs.induct (P := fun s => s.Safe Inv Enabled ∧ s.Linearized effect q₀) ⟨⟨h0, nofun⟩, q₀, .nil, rfl⟩ ?_).2.2
  intro s s' howned h hab
  exact ⟨hab.safe hsound.toSound howned h.1, hab.linearized hsound howned h.1 h.2⟩

/-- A step moves one caller. -/
theorem State.ctl_goto_ne (h : (s.goto d x).ctl c ≠ s.ctl c) : d = c ∧ (s.goto d x).ctl c = x := by
  by_cases hdc : c = d
  · subst hdc
    exact ⟨rfl, goto_self s c x⟩
  · exact absurd (goto_other s x hdc) h

/-- A client that leaves right after its check was refused; the object stays as it is. -/
theorem Step.refused {op op' : Op} {r : Res} (hs : Step ops s s') (hc : s.ctl c = .locked op)
    (hc' : s'.ctl c = .leaving op' r) :
    (ops op).blocked s.shared = true ∧ (ops op).otherwise = .refuse r ∧ s'.shared = s.shared := by
  -- it is this client that moved, and it moved to where it leaves
  have hmoved : ∀ {t : State C σ Op Res} {d x}, t.ctl c = .locked op → (t.goto d x).ctl c = .leaving op' r → d = c ∧
      x = .leaving op' r := by
    intro t d x ht h
    obtain ⟨hdc, hx⟩ := State.ctl_goto_ne (s := t) (d := d) (x := x) (c := c) (by rw [ht, h]; nofun)
    exact ⟨hdc, hx.symm.trans h⟩
  cases hs with
  | refuse hd hcheck ho =>
    obtain ⟨rfl, hx⟩ := hmoved hc hc'
    cases hx
    rw [hc] at hd
    cases hd
    exact ⟨hcheck, ho, rfl⟩
  | @notify c₁ op₁ r₁ d op₂ h₁ hd =>
    have hne : c ≠ d := by
      rintro rfl
      rw [hc] at hd
      nomatch hd
    obtain ⟨rfl, -⟩ := hmoved (by rw [State.goto_other s _ hne, hc]) hc'
    rw [hc] at h₁
    nomatch h₁
  | notifyNone hd =>
    obtain ⟨rfl, -⟩ := hmoved hc hc'
    rw [hc] at hd
    nomatch hd
  | call => nomatch (hmoved hc hc').2
  | lock => nomatch (hmoved hc hc').2
  | pass => nomatch (hmoved hc hc').2
  | wait => nomatch (hmoved hc hc').2
  | ready => nomatch (hmoved hc hc').2
  | sleep => nomatch (hmoved hc hc').2
  | wake => nomatch (hmoved hc hc').2
  | relock => nomatch (hmoved hc hc').2
  | act => nomatch (hmoved hc hc').2
  | leave => nomatch (hmoved hc hc').2

/-! ## Calls and returns -/

/-- A client's operations have returned in the order of its calls; at most one has not returned. -/
def State.InOrder (s : State C σ Op Res) : Prop :=
  ∀ c, streamOf s.called c = (streamOf s.done c).map (·.1) ++ (s.ctl c).pending

/-- A client moves on in its operation. -/
theorem State.InOrder.move (h : s.InOrder) (hcalled : s'.called = s.called) (hdone : s'.done = s.done)
    (hctl : s'.ctl = update s.ctl c x) (hx : x.pending = (s.ctl c).pending) : s'.InOrder := by
  intro d
  rw [hcalled, hdone, hctl, h d]
  by_cases hdc : d = c
  · subst hdc
    rw [update_self, hx]
  · rw [update_of_ne hdc]

/-- Every step keeps calls and returns in order. -/
theorem Step.inOrder (hs : Step ops s s') (h : s.InOrder) : s'.InOrder := by
  cases hs with
  | @call c op hc =>
    intro d
    show streamOf (s.called ++ [(c, op)]) d = _ ++ ((s.goto c (.entering op)).ctl d).pending
    rw [streamOf_append, h d]
    by_cases hdc : d = c
    · subst hdc
      rw [hc, State.goto_self, streamOf_cons_self]
      simp [Ctl.pending]
    · rw [streamOf_cons_ne _ _ hdc, State.goto_other s _ hdc]
      simp
  | lock hc => exact h.move rfl rfl rfl (by rw [hc]; rfl)
  | pass hc => exact h.move rfl rfl rfl (by rw [hc]; rfl)
  | refuse hc => exact h.move rfl rfl rfl (by rw [hc]; rfl)
  | wait hc => exact h.move rfl rfl rfl (by rw [hc]; rfl)
  | ready hc => exact h.move rfl rfl rfl (by rw [hc]; rfl)
  | sleep hc => exact h.move rfl rfl rfl (by rw [hc]; rfl)
  | wake hc => exact h.move rfl rfl rfl (by rw [hc]; rfl)
  | relock hc => exact h.move rfl rfl rfl (by rw [hc]; rfl)
  | act hc => exact h.move rfl rfl rfl (by rw [hc]; rfl)
  | @notify c op r d op' hc hd =>
    have hne : c ≠ d := by
      rintro rfl
      rw [hc] at hd
      cases hd
    have hwoken : (s.goto d (.woken op')).InOrder := h.move rfl rfl rfl (by rw [hd]; rfl)
    exact hwoken.move rfl rfl rfl (by rw [State.goto_other s _ hne, hc]; rfl)
  | notifyNone hc => exact h.move rfl rfl rfl (by rw [hc]; rfl)
  | @leave c op r hc =>
    intro d
    show streamOf s.called d = (streamOf (s.done ++ [(c, (op, r))]) d).map (·.1) ++ ((s.goto c .idle).ctl d).pending
    rw [streamOf_append, h d]
    by_cases hdc : d = c
    · subst hdc
      rw [hc, State.goto_self, streamOf_cons_self]
      simp [Ctl.pending]
    · rw [streamOf_cons_ne _ _ hdc, State.goto_other s _ hdc]
      simp

/-- They are in order in every run. -/
theorem Reaches.inOrder (hs : Reaches ops (.init q₀) s) : s.InOrder :=
  (hs.induct (fun _ => rfl) (fun _ _ _ h hab => hab.inOrder h)).2

/-! ## Wake-ups -/

/-- `room k` bounds how many of the operations that wait on `k` could act one behind the other. A client that finds
nothing leaves no room; one that acts uses up room of its own and makes room at most for one client, which is among
those it notifies. -/
structure Roomy (ops : Op → Operation σ Res Cv) (Inv : σ → Prop) (Enabled : Op → σ → Prop) (room : Cv → σ → Nat) : Prop
    extends Sound ops Inv Enabled where
  none : ∀ op q k ready, Inv q → (ops op).otherwise = .wait k ready → ready q = false → room k q = 0
  own : ∀ op q r q' k, Inv q → Enabled op q → (ops op).body q = some (r, q') → (ops op).waitsOn k = true →
    room k q' + 1 ≤ room k q
  other : ∀ op q r q' k, Inv q → Enabled op q → (ops op).body q = some (r, q') →
    room k q' ≤ room k q + if k = (ops op).notifies then 1 else 0

/-- The client was woken on `k` and has not yet the lock. -/
def Ctl.wokenOn (ops : Op → Operation σ Res Cv) (k : Cv) : Ctl Op Res → Bool
  | .woken op => (ops op).waitsOn k
  | _ => false

/-- The client has been woken on `k` and will look for room, or takes it, or is about to wake another one for it. -/
def Ctl.tends (ops : Op → Operation σ Res Cv) (k : Cv) : Ctl Op Res → Bool
  | .woken op | .testing op | .acting op => (ops op).waitsOn k
  | .notifying op _ => k = (ops op).notifies
  | _ => false

variable [Fintype C]

/-- When somebody sleeps on `k`, there are clients for all the room. -/
def State.Tended (ops : Op → Operation σ Res Cv) (room : Cv → σ → Nat) (k : Cv) (s : State C σ Op Res) : Prop :=
  (∃ c, (s.ctl c).asleepOn ops k = true) → room k s.shared ≤ countIn Finset.univ (Ctl.tends ops k) s.ctl

variable {room : Cv → σ → Nat} {k : Cv}

omit [Fintype C] in
/-- Nobody goes to sleep when a client moves to where it does not sleep. -/
theorem exists_asleep_update (hx : x.asleepOn ops k = false) {f : C → Ctl Op Res}
    (h : ∃ d, (update f c x d).asleepOn ops k = true) : ∃ d, (f d).asleepOn ops k = true := by
  obtain ⟨d, hd⟩ := h
  by_cases hdc : d = c
  · subst hdc
    rw [update_self, hx] at hd
    nomatch hd
  · rw [update_of_ne hdc] at hd
    exact ⟨d, hd⟩

/-- A client moves that does not go to sleep on `k` and tends no less. -/
theorem State.Tended.move (h : s.Tended ops room k) (hshared : s'.shared = s.shared) (hctl : s'.ctl = update s.ctl c x)
    (hsleep : x.asleepOn ops k = false) (htends : (s.ctl c).tends ops k = true → x.tends ops k = true) :
    s'.Tended ops room k := by
  intro hasleep
  rw [hctl] at hasleep
  have hroom := h (exists_asleep_update hsleep hasleep)
  have hcount := countIn_update (Finset.mem_univ c) (Ctl.tends ops k) s.ctl x
  have hle : ((s.ctl c).tends ops k).toNat ≤ (x.tends ops k).toNat := Bool.toNat_le_toNat htends
  rw [hshared, hctl]
  omega

/-- Every step leaves a wake-up for who needs one. -/
theorem Step.tended (hroomy : Roomy ops Inv Enabled room) (hs : Step ops s s') (hsafe : s.Safe Inv Enabled)
    (h : s.Tended ops room k) : s'.Tended ops room k := by
  cases hs with
  | call op hc => exact h.move rfl rfl rfl (by rw [hc]; nofun)
  | lock hc => exact h.move rfl rfl rfl (by rw [hc]; nofun)
  | pass hc => exact h.move rfl rfl rfl (by rw [hc]; nofun)
  | refuse hc => exact h.move rfl rfl rfl (by rw [hc]; nofun)
  | wait hc => exact h.move rfl rfl rfl (by rw [hc]; nofun)
  | ready hc => exact h.move rfl rfl rfl (by rw [hc]; exact id)
  | @sleep c op k' ready hc ho hready =>
    by_cases hk : (ops op).waitsOn k = true
    · -- it found no room
      obtain ⟨ready', ho'⟩ := Operation.waitsOn_iff.1 hk
      rw [ho] at ho'
      obtain ⟨rfl, rfl⟩ := Otherwise.wait.inj ho'
      intro _
      exact Nat.le_of_eq (hroomy.none op _ _ _ hsafe.inv ho hready) |>.trans (Nat.zero_le _)
    · exact h.move rfl rfl (Bool.eq_false_iff.2 hk) (by rw [hc]; exact fun htends => absurd htends hk)
  | wake hc => exact h.move rfl rfl rfl (by rw [hc]; nofun)
  | relock hc => exact h.move rfl rfl rfl (by rw [hc]; exact id)
  | @act c op r q hc hbody =>
    intro hasleep
    have hroom := h (exists_asleep_update (x := .notifying op r) rfl hasleep)
    have hcount := countIn_update (Finset.mem_univ c) (Ctl.tends ops k) s.ctl (.notifying op r)
    rw [hc] at hcount
    show room k q ≤ countIn Finset.univ (Ctl.tends ops k) (update s.ctl c (.notifying op r))
    simp only [Ctl.tends] at hcount
    by_cases hk : (ops op).waitsOn k = true
    · have hown := hroomy.own op _ r q k hsafe.inv (hsafe.enabled c op hc) hbody hk
      rw [hk, Bool.toNat_true] at hcount
      omega
    · have hother := hroomy.other op _ r q k hsafe.inv (hsafe.enabled c op hc) hbody
      rw [Bool.eq_false_iff.2 hk, Bool.toNat_false] at hcount
      by_cases hn : k = (ops op).notifies
      · rw [if_pos hn] at hother
        rw [decide_eq_true hn, Bool.toNat_true] at hcount
        omega
      · rw [if_neg hn] at hother
        omega
  | @notify c op r d op' hc hd hk =>
    have hne : c ≠ d := by
      rintro rfl
      rw [hc] at hd
      nomatch hd
    have hc' : (s.goto d (.woken op')).ctl c = .notifying op r := by rw [State.goto_other s _ hne, hc]
    by_cases hn : k = (ops op).notifies
    · -- the client that wakes takes the place of the one that notified it
      intro hasleep
      have hroom := h (exists_asleep_update (x :=
        .woken op') rfl (exists_asleep_update (x := .leaving op r) rfl hasleep))
      have hd' := countIn_update (Finset.mem_univ d) (Ctl.tends ops k) s.ctl (.woken op')
      have hcount := countIn_update (Finset.mem_univ c) (Ctl.tends ops k) (s.goto d (.woken op')).ctl (.leaving op r)
      rw [hd] at hd'
      rw [hc'] at hcount
      simp only [Ctl.tends, hn, hk, decide_true, Bool.toNat_true, Bool.toNat_false] at hd' hcount
      rw [hn] at hroom ⊢
      show room _ s.shared ≤ countIn Finset.univ _ (update (s.goto d (.woken op')).ctl c (.leaving op r))
      have hgoto : (s.goto d (.woken op')).ctl = update s.ctl d (.woken op') := rfl
      rw [hgoto] at hcount ⊢
      omega
    · have hwoken : (s.goto d (.woken op')).Tended ops room k := h.move rfl rfl rfl (by rw [hd]; nofun)
      exact hwoken.move rfl rfl rfl (by rw [hc']; exact fun htends => absurd (of_decide_eq_true htends) hn)
  | @notifyNone c op r hc hnone =>
    by_cases hn : k = (ops op).notifies
    · intro hasleep
      obtain ⟨d, hd⟩ := exists_asleep_update (x := .leaving op r) rfl hasleep
      rw [hn, hnone d] at hd
      nomatch hd
    · exact h.move rfl rfl rfl (by rw [hc]; exact fun htends => absurd (of_decide_eq_true htends) hn)
  | leave hc => exact h.move rfl rfl rfl (by rw [hc]; nofun)

/-- While the lock is free and somebody sleeps on `k`, for all the room there are clients that were woken. -/
theorem Reaches.woken (hroomy : Roomy ops Inv Enabled room) (h0 : Inv q₀) (hs : Reaches ops (.init q₀) s)
    (hfree : s.owner = none) (hasleep : ∃ c, (s.ctl c).asleepOn ops k = true) :
    room k s.shared ≤ countIn Finset.univ (Ctl.wokenOn ops k) s.ctl := by
  obtain ⟨howned, -, htended⟩ := hs.induct (P := fun s => s.Safe Inv Enabled ∧ s.Tended ops room k) ⟨⟨h0, nofun⟩, nofun⟩
    (fun _ _ howned h hab => ⟨hab.safe hroomy.toSound howned h.1, hab.tended hroomy h.1 h.2⟩)
  refine (htended hasleep).trans (countIn_le (fun c _ htends => ?_))
  -- who tends otherwise has the lock
  have hc : (s.ctl c).holds = false := by
    rw [Bool.eq_false_iff]
    intro hc
    rw [(howned c).1 hc] at hfree
    nomatch hfree
  cases hctl : s.ctl c with
  | woken op => rwa [hctl] at htends
  | testing op => rw [hctl] at hc; nomatch hc
  | acting op => rw [hctl] at hc; nomatch hc
  | notifying op r => rw [hctl] at hc; nomatch hc
  | _ => rw [hctl] at htends; nomatch htends

end Monitor

end Lib
