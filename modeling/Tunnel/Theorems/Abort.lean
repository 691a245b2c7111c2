import Tunnel.Lemmas.Project
import Tunnel.Lib.Count
import Tunnel.Theorems.Eof

/-!
# The abort channel

Processors of any number of pipelines share one abort channel. A token is in the channel, or in transit: a processor has
popped it and has not yet pushed one of its own. Tokens come from user exceptions alone, and once there is one, there is
always one.
-/

namespace Tunnel

open Lib Function

variable {V : Type}

namespace Ctl

/-- A token in transit: the processor popped it and has not yet executed its own `TryPush`. -/
def inTransit (c : Ctl V) : Bool := c.threwBy = some .abortChannel

/-- A user exception that has not yet led to a `TryPush`. -/
def raising (c : Ctl V) : Bool :=
  match c.threwBy with
  | some (.callback _) => true
  | _ => false

/-- Who threw is in `hosted_mode`. -/
theorem hosted_of_threwBy {c : Ctl V} {e : Cause} (h : c.threwBy = some e) : c.hosted = true := by
  cases c <;> first | rfl | nomatch h

end Ctl

/-- Somebody other than a processor uses the abort channel. -/
def Event.onAbortChannel : Event V → Bool
  | .addToken => true
  | .takeToken => true
  | _ => false

/-- The processor whose callback throws. -/
def Event.thrower : Event V → Option Id
  | .throw u _ => some u
  | _ => none

/-- The processors that threw a user exception. -/
def throwers (es : List (Event V)) : Finset Id := (es.filterMap Event.thrower).toFinset

/-- The tokens in transit. -/
def State.inTransit (U : Finset Id) (s : State V) : Nat := countIn U (fun x => x.any (·.ctl.inTransit)) s.procs

/-- The user exceptions that have not yet led to a `TryPush`. -/
def State.raising (U : Finset Id) (s : State V) : Nat := countIn U (fun x => x.any (·.ctl.raising)) s.procs

namespace Proc

variable {x y : Proc V}

/-! ## What a step of a processor does to the abort channel -/

/-- The step of a processor, on an abort channel with these tokens and this capacity; `raised` when a callback of its
throws. -/
inductive Deals (x : Proc V) (tokens capacity : Nat) : Bool → Proc V → Nat → Prop where
  | raise {y : Proc V} {standard : Bool} (hx : x.ctl.hosted = false) (hy : y.ctl.threwBy = some (.callback standard)) :
      Deals x tokens capacity true y tokens
  | get {y : Proc V} (hx : x.ctl.threwBy = none) (hport : x.abortPort = true) (ht : 0 < tokens) (hy : y.ctl.threwBy =
      some .abortChannel) :
      Deals x tokens capacity false y (tokens - 1)
  | tell {y : Proc V} {c : Cause} (hx : x.ctl.threwBy = some c) (hport : x.abortPort = true) (hy : y.ctl.threwBy =
      none) :
      Deals x tokens capacity false y (if tokens < capacity then tokens + 1 else tokens)
  | die {y : Proc V} {c : Cause} (hx : x.ctl.threwBy = some c) (hport : x.abortPort = false) (hy : y.ctl.threwBy =
      none) :
      Deals x tokens capacity false y tokens
  | pass {y : Proc V} (hx : x.ctl.threwBy = none) (hy : y.ctl.threwBy = none) : Deals x tokens capacity false y tokens

/-- Only a processor with an abort channel gets a token. -/
theorem Deals.port {tokens capacity tokens' : Nat} {raised : Bool} (h : x.Deals tokens capacity raised y tokens')
    (hy : y.ctl.threwBy = some .abortChannel) : x.abortPort = true := by
  cases h with
  | get _ hport => exact hport
  | raise _ h => rw [h] at hy; nomatch hy
  | tell _ _ h => rw [h] at hy; nomatch hy
  | die _ _ h => rw [h] at hy; nomatch hy
  | pass _ h => rw [h] at hy; nomatch hy

/-- A callback throws only in a processor that no exception has left. -/
theorem Deals.raised {tokens capacity tokens' : Nat} (h : x.Deals tokens capacity true y tokens') :
    x.ctl.hosted = false ∧ y.ctl.hosted = true := by
  cases h with
  | raise hx hy => exact ⟨hx, Ctl.hosted_of_threwBy hy⟩

/-- A processor that goes on by itself after an exception has no abort channel. -/
theorem internal_deals (ha : x.action = .internal) (tokens capacity : Nat) :
    x.Deals tokens capacity false x.internal tokens := by
  cases hc : x.ctl.threwBy with
  | none => exact .pass hc (internal_threwBy x)
  | some c =>
    refine .die hc ?_ (internal_threwBy x)
    cases hctl : x.ctl with
    | threw c' =>
      simp only [action, hctl] at ha
      split at ha
      · cases ha
      · rename_i hport
        exact Bool.eq_false_iff.2 hport
    | _ => rw [hctl] at hc; cases hc

/-- Looking at the abort channel takes one token. -/
theorem checked_deals (ha : x.action = .tryPop) (tokens capacity : Nat) :
    x.Deals tokens capacity false (x.checked (0 < tokens)) (tokens - 1) := by
  obtain ⟨hport, hc⟩ := action_tryPop ha
  have hx : x.ctl.threwBy = none := by
    rcases hc with ⟨i, v, hc⟩ | ⟨rest, next, hc⟩ <;> rw [hc] <;> rfl
  by_cases ht : 0 < tokens
  · exact .get hx hport ht (by simp [checked, ht, Ctl.threwBy])
  · obtain rfl : tokens = 0 := Nat.eq_zero_of_not_pos ht
    refine .pass hx ?_
    rcases hc with ⟨i, v, hc⟩ | ⟨rest, next, hc⟩
    · rcases v with _ | v <;> simp [checked, hc, Ctl.threwBy]
    · simp [checked, hc]

/-- Telling the others adds one, if there is room. -/
theorem notified_deals (ha : x.action = .tryPush) (tokens capacity : Nat) :
    x.Deals tokens capacity false x.notified (if tokens < capacity then tokens + 1 else tokens) := by
  obtain ⟨hport, c, hc⟩ := action_tryPush ha
  exact .tell (c := c) (by rw [hc]; rfl) hport (by simp [notified, hc, Ctl.threwBy])

/-- A callback runs before `hosted_mode`. -/
theorem hosted_of_inCallback (h : x.inCallback = true) : x.ctl.hosted = false := by
  cases hc : x.ctl with
  | generate => rfl
  | handle i a => rfl
  | eof i => rfl
  | _ => simp [inCallback, hc] at h

end Proc

variable {s s' : State V} {e : Event V}

/-- A step of a run that is not one of somebody else on the abort channel leaves processors and tokens alone, or is the
step of one processor. -/
theorem Moves.deals (hm : Moves s e s') (he : e.onAbortChannel = false) : s'.abortCapacity = s.abortCapacity ∧
    ((s'.procs = s.procs ∧ s'.tokens = s.tokens ∧ e.thrower = none) ∨
      ∃ u x y raised, s.procs u = some x ∧ s'.procs = update s.procs u (some y) ∧ y.abortPort = x.abortPort ∧
        e.thrower = (if raised then some u else none) ∧ x.Deals s.tokens s.abortCapacity raised y s'.tokens) := by
  cases hm with
  | @pop u x i q v rest hu ha hq =>
    obtain ⟨hx, hy⟩ := Proc.popped_threwBy ha v
    exact ⟨rfl, .inr ⟨u, x, _, false, hu, rfl, Proc.popped_abortPort .., rfl, .pass hx hy⟩⟩
  | @push u x o q v hu ha hq =>
    obtain ⟨hx, hy⟩ := Proc.pushed_threwBy ha
    exact ⟨rfl, .inr ⟨u, x, _, false, hu, rfl, Proc.pushed_abortPort .., rfl, .pass hx hy⟩⟩
  | @tryPop u x hu ha =>
    exact ⟨rfl, .inr ⟨u, x, _, false, hu, rfl, Proc.checked_abortPort .., rfl, Proc.checked_deals ha _ _⟩⟩
  | @tryPush u x hu ha =>
    exact ⟨rfl, .inr ⟨u, x, _, false, hu, rfl, Proc.notified_abortPort _, rfl, Proc.notified_deals ha _ _⟩⟩
  | @internal u x hu ha =>
    exact ⟨rfl, .inr ⟨u, x, _, false, hu, rfl, Proc.internal_abortPort _, rfl, Proc.internal_deals ha _ _⟩⟩
  | @throw u x _ hu hc =>
    exact ⟨rfl, .inr ⟨u, x, _, true, hu, rfl, rfl, rfl, .raise (Proc.hosted_of_inCallback hc) rfl⟩⟩
  | send hq => exact ⟨rfl, .inl ⟨rfl, rfl, rfl⟩⟩
  | receive hq => exact ⟨rfl, .inl ⟨rfl, rfl, rfl⟩⟩
  | addToken ht => nomatch he
  | takeToken ht => nomatch he

/-! ## The account -/

/-- The books of the abort channel, kept for the processors `U`, with the processors that threw a user exception so far.
-/
structure State.Accounts (U throwers : Finset Id) (s : State V) : Prop where
  dom : ∀ u x, s.procs u = some x → u ∈ U
  port : ∀ u x, s.procs u = some x → x.ctl.threwBy = some .abortChannel → x.abortPort = true
  threw : ∀ u ∈ throwers, ∃ x, s.procs u = some x ∧ x.ctl.hosted = true
  le : s.tokens + s.inTransit U + s.raising U ≤ throwers.card

/-- There is a token, in the channel or in transit. -/
def State.Signalled (U : Finset Id) (s : State V) : Prop := 1 ≤ s.tokens + s.inTransit U

/-- Who counts as in transit, and who as raising. -/
def Cause.weights : Option Cause → Nat × Nat
  | some .abortChannel => (1, 0)
  | some (.callback _) => (0, 1)
  | none => (0, 0)

/-- What a processor owes the abort channel. -/
theorem Ctl.toNat_weights (c : Ctl V) :
    c.inTransit.toNat = (Cause.weights c.threwBy).1 ∧ c.raising.toNat = (Cause.weights c.threwBy).2 := by
  unfold inTransit raising
  rcases c.threwBy with _ | _ | _ <;> exact ⟨rfl, rfl⟩

/-- What a step of one processor does to the numbers. -/
theorem State.counts_update {U : Finset Id} {u : Id} {x y : Proc V} (hu : u ∈ U) (hx : s.procs u = some x)
    (hprocs : s'.procs = update s.procs u (some y)) :
    s'.inTransit U + (Cause.weights x.ctl.threwBy).1 = s.inTransit U + (Cause.weights y.ctl.threwBy).1 ∧
    s'.raising U + (Cause.weights x.ctl.threwBy).2 = s.raising U + (Cause.weights y.ctl.threwBy).2 := by
  have htransit := countIn_update hu (fun x => x.any (fun x : Proc V => x.ctl.inTransit)) s.procs (some y)
  have hraising := countIn_update hu (fun x => x.any (fun x : Proc V => x.ctl.raising)) s.procs (some y)
  simp only [hx, ← hprocs, Option.any_some, Ctl.toNat_weights] at htransit hraising
  exact ⟨htransit, hraising⟩

theorem Ctl.threwBy_of_hosted {c : Ctl V} (h : c.hosted = false) : c.threwBy = none := by
  cases hc : c.threwBy with
  | none => rfl
  | some e =>
    rw [Ctl.hosted_of_threwBy hc] at h
    nomatch h

/-- Nothing is on its way. -/
theorem State.inTransit_eq_zero {U : Finset Id} (s : State V) (h : ∀ u x, s.procs u = some x → x.ctl.threwBy = none) :
    s.inTransit U = 0 := by
  refine countIn_eq_zero (fun u _ => ?_)
  cases hx : s.procs u with
  | none => rfl
  | some x => rw [Option.any_some, Ctl.inTransit, h u x hx]; rfl

/-- Nothing is about to be. -/
theorem State.raising_eq_zero {U : Finset Id} (s : State V) (h : ∀ u x, s.procs u = some x → x.ctl.threwBy = none) :
    s.raising U = 0 := by
  refine countIn_eq_zero (fun u _ => ?_)
  cases hx : s.procs u with
  | none => rfl
  | some x => rw [Option.any_some, Ctl.raising, h u x hx]

/-- Who has finished has told the others. -/
theorem Ctl.threwBy_of_finished {c : Ctl V} (h : c.isFinished = true) : c.threwBy = none := by
  cases c with
  | threw => nomatch h
  | _ => rfl

namespace State.Accounts

variable {U T : Finset Id}

/-- The numbers after a step of one processor. -/
theorem deal (h : s.Accounts U T) {u : Id} {x y : Proc V} {raised : Bool} (hx : s.procs u = some x)
    (hprocs : s'.procs = update s.procs u (some y)) (hd : x.Deals s.tokens s.abortCapacity raised y s'.tokens) :
    s'.tokens + s'.inTransit U + s'.raising U ≤ s.tokens + s.inTransit U + s.raising U + raised.toNat ∧
    (1 ≤ s.abortCapacity → s.Signalled U → s'.Signalled U) := by
  obtain ⟨htransit, hraising⟩ := State.counts_update (h.dom u x hx) hx hprocs
  unfold State.Signalled
  generalize s'.tokens = tokens at hd ⊢
  cases hd with
  | raise hold hy =>
    rw [Ctl.threwBy_of_hosted hold, hy] at htransit hraising
    simp only [Cause.weights, Bool.toNat_true] at htransit hraising ⊢
    omega
  | get hold hport ht hy =>
    rw [hold, hy] at htransit hraising
    simp only [Cause.weights, Bool.toNat_false] at htransit hraising ⊢
    omega
  | @tell _ c hold hport hy =>
    rw [hold, hy] at htransit hraising
    cases c <;> simp only [Cause.weights, Bool.toNat_false] at htransit hraising ⊢ <;> split <;> omega
  | @die _ c hold hport hy =>
    cases c with
    | callback =>
      rw [hold, hy] at htransit hraising
      simp only [Cause.weights, Bool.toNat_false] at htransit hraising ⊢
      omega
    | abortChannel =>
      rw [h.port u x hx hold] at hport
      nomatch hport
  | pass hold hy =>
    rw [hold, hy] at htransit hraising
    simp only [Cause.weights, Bool.toNat_false] at htransit hraising ⊢
    omega

/-- Every step keeps the books. -/
theorem moves (h : s.Accounts U T) (hm : Moves s e s') (he : e.onAbortChannel = false) :
    s'.Accounts U (T ∪ e.thrower.toFinset) ∧ (1 ≤ s.abortCapacity → s.Signalled U → s'.Signalled U) := by
  have hhosted : ∀ u ∈ T, ∃ x, s'.procs u = some x ∧ x.ctl.hosted = true := by
    intro u hu
    obtain ⟨x, hx, hh⟩ := h.threw u hu
    exact hm.hosted hx hh
  obtain ⟨-, ⟨hprocs, htokens, hthrower⟩ | ⟨u, x, y, raised, hx, hprocs, hport, hthrower, hd⟩⟩ := hm.deals he
  · have htransit : s'.inTransit U = s.inTransit U := by rw [State.inTransit, hprocs]; rfl
    have hraising : s'.raising U = s.raising U := by rw [State.raising, hprocs]; rfl
    rw [hthrower, Option.toFinset_none, Finset.union_empty]
    refine ⟨⟨by rw [hprocs]; exact h.dom, by rw [hprocs]; exact h.port, hhosted, ?_⟩, fun _ hs => ?_⟩
    · rw [htokens, htransit, hraising]
      exact h.le
    · unfold State.Signalled
      rwa [htokens, htransit]
  · obtain ⟨hsum, hsignal⟩ := h.deal hx hprocs hd
    refine ⟨⟨?_, ?_, ?_, ?_⟩, hsignal⟩
    · intro v z hz
      rw [hprocs] at hz
      by_cases hvu : v = u
      · exact hvu ▸ h.dom u x hx
      · rw [update_of_ne hvu] at hz
        exact h.dom v z hz
    · intro v z hz hthrew
      rw [hprocs] at hz
      by_cases hvu : v = u
      · subst hvu
        rw [update_self] at hz
        cases hz
        rw [hport]
        exact hd.port hthrew
      · rw [update_of_ne hvu] at hz
        exact h.port v z hz hthrew
    · intro v hv
      rw [Finset.mem_union] at hv
      rcases hv with hv | hv
      · exact hhosted v hv
      · cases raised with
        | false => rw [hthrower] at hv; simp at hv
        | true =>
          rw [hthrower] at hv
          obtain rfl : v = u := by simpa using hv
          exact ⟨y, by rw [hprocs, update_self], hd.raised.2⟩
    · -- a processor throws at most once
      cases raised with
      | false =>
        rw [hthrower]
        simpa using Nat.le_trans hsum h.le
      | true =>
        have hnew : u ∉ T := by
          intro hu
          obtain ⟨z, hz, hh⟩ := h.threw u hu
          cases hx.symm.trans hz
          rw [hd.raised.1] at hh
          nomatch hh
        rw [hthrower, if_pos rfl, Option.toFinset_some,
          Finset.card_union_of_disjoint (Finset.disjoint_singleton_right.2 hnew), Finset.card_singleton]
        exact Nat.le_trans hsum (Nat.add_le_add_right h.le 1)

end State.Accounts

/-! ## Whole runs -/

variable {U T : Finset Id}

theorem throwers_cons (e : Event V) (es : List (Event V)) : throwers (e :: es) = e.thrower.toFinset ∪ throwers es := by
  unfold throwers
  cases h : e.thrower with
  | none => simp [h]
  | some u => simp [h]

/-- Who threw in a run. -/
theorem mem_throwers {es : List (Event V)} {u : Id} : u ∈ throwers es ↔ ∃ standard, Event.throw u standard ∈ es := by
  simp only [throwers, List.mem_toFinset, List.mem_filterMap]
  constructor
  · rintro ⟨e, he, hu⟩
    cases e with
    | throw v standard =>
      cases hu
      exact ⟨standard, he⟩
    | _ => nomatch hu
  · exact fun ⟨_, h⟩ => ⟨_, h, rfl⟩

/-- The room of the abort channel stays. -/
theorem Moves.abortCapacity (hm : Moves s e s') : s'.abortCapacity = s.abortCapacity := by
  cases hm <;> rfl

/-- Along a run the books are kept, and a signal is not lost. -/
theorem State.Accounts.run {es : List (Event V)} (hes : ∀ e ∈ es, e.onAbortChannel = false) (h : s.Accounts U T)
    (hrun : s.runAll es = some s') : s'.Accounts U (T ∪ throwers es) ∧ s'.abortCapacity = s.abortCapacity ∧
      (1 ≤ s.abortCapacity → s.Signalled U → s'.Signalled U) := by
  induction es generalizing s T with
  | nil =>
    cases hrun
    refine ⟨?_, rfl, fun _ hs => hs⟩
    rwa [show throwers ([] : List (Event V)) = ∅ from rfl, Finset.union_empty]
  | cons e es ih =>
    obtain ⟨he, hes⟩ := List.forall_mem_cons.1 hes
    obtain ⟨t, ht, hrun⟩ := Option.bind_eq_some_iff.1 hrun
    have hm := (State.step_iff.1 ht).2
    obtain ⟨haccounts, hsignal⟩ := h.moves hm he
    obtain ⟨haccounts', hcapacity, hsignal'⟩ := ih hes haccounts hrun
    rw [hm.abortCapacity] at hcapacity hsignal'
    refine ⟨?_, hcapacity, fun hcap hs => hsignal' hcap (hsignal hcap hs)⟩
    rwa [throwers_cons, ← Finset.union_assoc]

/-- A `TryPush` leaves a token in the channel. -/
theorem State.signalled_of_tryPush {u : Id} {x : Proc V} (hcap : 1 ≤ s.abortCapacity) (hx : s.procs u = some x)
    (ha : x.action = .tryPush) (hstep : s.step (.run u) = some s') : s'.Signalled U := by
  obtain ⟨hdead, -⟩ := State.step_iff.1 hstep
  simp only [State.step, hdead, hx, State.stepProc, ha, Option.bind_some, Bool.false_eq_true, if_false,
    Option.some.injEq] at hstep
  subst hstep
  show 1 ≤ (if s.tokens < s.abortCapacity then s.tokens + 1 else s.tokens) + _
  split <;> omega

/-- Runs one after another. -/
theorem State.runAll_append (s : State V) (es es' : List (Event V)) :
    s.runAll (es ++ es') = (s.runAll es).bind (fun s => s.runAll es') := by
  induction es generalizing s with
  | nil => rfl
  | cons e es ih =>
    rw [List.cons_append, State.runAll, State.runAll, Option.bind_assoc]
    exact congrArg _ (funext ih)

/-- Processors that have not begun, with an empty abort channel. -/
structure State.Fresh (s : State V) : Prop where
  start : ∀ u x, s.procs u = some x → x.ctl = .start
  empty : s.tokens = 0

theorem Pipeline.start_fresh (p : Pipeline V) (pre : UserChannel → List (Option V)) : (p.start pre 0).Fresh where
  start u x hx := by
    obtain ⟨n, -, rfl⟩ := Option.map_eq_some_iff.1 hx
    rfl
  empty := rfl

/-- The processors of another run beside those of this one, with its queues and its abort channel. -/
def State.beside (s t : State V) : State V := { s with procs := fun u => (s.procs u).or (t.procs u) }

/-- Two fresh states are fresh. -/
theorem State.Fresh.beside {t : State V} (h : s.Fresh) (ht : t.Fresh) : (s.beside t).Fresh where
  start u x hx := by
    rcases Option.or_eq_some_iff.1 hx with hx | ⟨-, hx⟩
    · exact h.start u x hx
    · exact ht.start u x hx
  empty := h.empty

theorem Pipeline.start_dom (p : Pipeline V) (pre : UserChannel → List (Option V)) (tokens : Nat) :
    ∀ u x, (p.start pre tokens).procs u = some x → u ∈ p.nodes.keys := by
  intro u x hx
  obtain ⟨n, hn, -⟩ := Option.map_eq_some_iff.1 hx
  exact PMap.mem_keys_of_get hn

/-- The processors of two states. -/
theorem State.beside_dom {t : State V} (hs : ∀ u x, s.procs u = some x → u ∈ U)
    (ht : ∀ u x, t.procs u = some x → u ∈ T) :
    ∀ u x, (s.beside t).procs u = some x → u ∈ U ∪ T := by
  intro u x hx
  rw [Finset.mem_union]
  rcases Option.or_eq_some_iff.1 hx with hx | ⟨-, hx⟩
  · exact .inl (hs u x hx)
  · exact .inr (ht u x hx)

/-- A fresh account is balanced. -/
theorem State.Fresh.accounts (h : s.Fresh) (hU : ∀ u x, s.procs u = some x → u ∈ U) : s.Accounts U ∅ where
  dom := hU
  port u x hx hc := by
    rw [h.start u x hx] at hc
    nomatch hc
  threw := by simp
  le := by
    rw [h.empty, s.inTransit_eq_zero (fun u x hx => by rw [h.start u x hx]; rfl),
      s.raising_eq_zero (fun u x hx => by rw [h.start u x hx]; rfl)]
    exact Nat.le_refl 0

/-- Once a processor has executed its `TryPush` after a user exception, the tokens in the channel and in transit are at
least one, and when all processors have finished, there is a token in the channel. There are never more tokens than
processors that threw a user exception, and nobody gets one when nobody threw. -/
theorem abort_signal {s₀ : State V} {es : List (Event V)} (hU : ∀ u x, s₀.procs u = some x → u ∈ U) (hfresh : s₀.Fresh)
    (hcap : 1 ≤ s₀.abortCapacity) (hes : ∀ e ∈ es, e.onAbortChannel = false) (hrun : s₀.runAll es = some s) :
    (∀ before after u a x standard, es = before ++ .run u :: after → s₀.runAll before = some a → a.procs u = some x →
      x.ctl = .threw (.callback standard) → x.action = .tryPush →
      1 ≤ s.tokens + s.inTransit U ∧ ((∀ v y, s.procs v = some y → y.ctl.isFinished = true) → 1 ≤ s.tokens)) ∧
    s.tokens + s.inTransit U ≤ (throwers es).card ∧
    ∀ u x, s.procs u = some x → x.ctl = .threw .abortChannel → ∃ v standard, Event.throw v standard ∈ es := by
  have hstart := hfresh.accounts hU
  obtain ⟨haccounts, -, -⟩ := hstart.run hes hrun
  rw [Finset.empty_union] at haccounts
  have hle : s.tokens + s.inTransit U ≤ (throwers es).card := Nat.le_trans (Nat.le_add_right _ _) haccounts.le
  refine ⟨?_, hle, ?_⟩
  · rintro before after u a x standard rfl hbefore hx - ha
    rw [State.runAll_append, hbefore, Option.bind_some] at hrun
    obtain ⟨t, ht, hafter⟩ := Option.bind_eq_some_iff.1 hrun
    obtain ⟨hhead, htail⟩ := List.forall_mem_append.1 hes
    obtain ⟨hrun', htail⟩ := List.forall_mem_cons.1 htail
    obtain ⟨hbooks, hcapacity, -⟩ := hstart.run hhead hbefore
    have hm := (State.step_iff.1 ht).2
    have hnow : t.Signalled U := State.signalled_of_tryPush (hcapacity ▸ hcap) hx ha ht
    obtain ⟨-, -, hkeep⟩ := (hbooks.moves hm hrun').1.run htail hafter
    have hs : s.Signalled U := hkeep (by rw [hm.abortCapacity, hcapacity]; exact hcap) hnow
    refine ⟨hs, fun hfin => ?_⟩
    have hzero : s.inTransit U = 0 := s.inTransit_eq_zero (fun v y hy => Ctl.threwBy_of_finished (hfin v y hy))
    unfold State.Signalled at hs
    omega
  · intro u x hx hc
    have hpos : 0 < s.inTransit U :=
      countIn_pos.2 ⟨u, haccounts.dom u x hx, by rw [hx, Option.any_some, Ctl.inTransit, hc]; rfl⟩
    have hcard : 0 < (throwers es).card := Nat.lt_of_lt_of_le hpos (Nat.le_trans (Nat.le_add_left _ _) hle)
    obtain ⟨v, hv⟩ := Finset.card_pos.1 hcard
    exact ⟨v, mem_throwers.1 hv⟩

/-- The first pipeline of the test `share_abort_channel`; here it is the source that throws. -/
def throwingPipeline : Pipeline Nat :=
  (Pipeline.ofCalls Call.Proper { bindAbortChannel := true }
    [.addSource 1 "source" (.generate (fun _ => none)), .setSink 2 "sink" .consume (.single 1)]).1

/-- The second one, whose source never stops. -/
def endlessPipeline : Pipeline Nat :=
  (Pipeline.ofCalls Call.Proper { bindAbortChannel := true }
    [.addSource 3 "source" (.generate (fun n => some n)), .setSink 4 "sink" .consume (.single 3)]).1

/-- The token of the first source is in transit at the second one. -/
theorem abort_signal_shared :
    ∃ s x, ((throwingPipeline.start (fun _ => []) 0).beside (endlessPipeline.start (fun _ => []) 0)).runAll
      [.run 1, .throw 1 true, .run 1, .run 3, .run 3, .run 3, .run 3] = some s ∧
    s.tokens = 0 ∧ s.procs 3 = some x ∧ x.ctl = .threw .abortChannel ∧
    1 ≤ s.tokens + s.inTransit (throwingPipeline.nodes.keys ∪ endlessPipeline.nodes.keys) := by
  have hfresh := (throwingPipeline.start_fresh (fun _ => [])).beside (endlessPipeline.start_fresh (fun _ => []))
  refine ⟨_, _, rfl, rfl, rfl, rfl, ?_⟩
  exact ((abort_signal (State.beside_dom (Pipeline.start_dom _ _ _) (Pipeline.start_dom _ _ _)) hfresh (by decide)
    (by decide) rfl).1
    [.run 1, .throw 1 true] [.run 3, .run 3, .run 3, .run 3] 1 _ _ true rfl rfl rfl rfl rfl).1

end Tunnel
