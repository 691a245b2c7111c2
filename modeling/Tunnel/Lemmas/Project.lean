import Tunnel.Lib.Simulation
import Tunnel.Theorems.Termination

/-!
# A run as seen from a part of the pipeline

A part of a pipeline that runs is a pipeline that runs by itself, as long as what crosses the border is accounted for. A
step of a processor is what it does at the queues (`Proc.Does`). The processors of the part go along with processors of
the whole, step by step (`Shadow`): they do what these do at the queues of the part, and what these do at other queues
they do not see.
-/

namespace Tunnel

open Lib Function

variable {V : Type} {p p' : Pipeline V} {s s' t : State V}

/-! ## What a step does at the queues -/

/-- What a step does at the queues. -/
inductive Effect (V : Type) where
  | pop (q : Queue) (v : Option V)
  | push (q : Queue) (v : Option V)
  | silent

/-- A step of a processor when no exception comes. -/
inductive Proc.Does (x : Proc V) : Effect V → Proc V → Prop where
  | pop {i : Nat} {q : Queue} (ha : x.action = .pop i q) (v : Option V) : Does x (.pop q v) (x.popped i v)
  | push {o : Nat} {q : Queue} {v : Option V} (ha : x.action = .push o q v) : Does x (.push q v) (x.pushed o v)
  | checked (ha : x.action = .tryPop) : Does x .silent (x.checked false)
  | internal (ha : x.action = .internal) : Does x .silent x.internal

variable {x y : Proc V} {u : Id} {e : Effect V}

/-- A step that touches no queue of the pipeline. -/
theorem Proc.does_silent : x.Does .silent y ↔ y = x.internal ∧ (x.action = .internal ∨ x.action = .tryPop) := by
  constructor
  · intro h
    cases h with
    | checked ha => exact ⟨(internal_eq_checked (action_tryPop ha).2).symm, Or.inr ha⟩
    | internal ha => exact ⟨rfl, Or.inl ha⟩
  · rintro ⟨rfl, ha | ha⟩
    · exact .internal ha
    · rw [internal_eq_checked (action_tryPop ha).2]
      exact .checked ha

/-- What is in the queues. -/
def State.contents (s : State V) (q : Queue) : List (Option V) := (s.queues q).content

namespace Effect

/-- The effect is possible. -/
def Enabled (c : Queue → List (Option V)) : Effect V → Prop
  | .pop q v => ∃ rest, c q = v :: rest
  | .push q _ => (c q).length < q.capacity
  | .silent => True

/-- What is in the queues afterwards. -/
def apply (c : Queue → List (Option V)) : Effect V → Queue → List (Option V)
  | .pop q _ => update c q (c q).tail
  | .push q v => update c q (c q ++ [v])
  | .silent => c

/-- What is seen of it at some queues only. -/
def within (own : Queue → Bool) : Effect V → Effect V
  | .pop q v => if own q then .pop q v else .silent
  | .push q v => if own q then .push q v else .silent
  | .silent => .silent

variable {own : Queue → Bool} {c d : Queue → List (Option V)}

/-- The queues that are seen do not care about the others. -/
theorem apply_within (e : Effect V) (h : ∀ q, own q = true → d q = c q) {q : Queue} (hq : own q = true) :
    (e.within own).apply d q = e.apply c q := by
  cases e with
  | pop r v =>
    by_cases hr : own r = true
    · by_cases hqr : q = r
      · subst hqr
        simp [within, hr, apply, h q hr]
      · simp [within, hr, apply, hqr, h q hq]
    · have hqr : q ≠ r := fun he => hr (he ▸ hq)
      simp [within, hr, apply, hqr, h q hq]
  | push r v =>
    by_cases hr : own r = true
    · by_cases hqr : q = r
      · subst hqr
        simp [within, hr, apply, h q hr]
      · simp [within, hr, apply, hqr, h q hq]
    · have hqr : q ≠ r := fun he => hr (he ▸ hq)
      simp [within, hr, apply, hqr, h q hq]
  | silent => exact h q hq

theorem enabled_within {e : Effect V} (h : ∀ q, own q = true → d q = c q) (he : e.Enabled c) :
    (e.within own).Enabled d := by
  cases e with
  | pop r v =>
    by_cases hr : own r = true
    · simpa [within, hr, Enabled, h r hr] using he
    · simp [within, hr, Enabled]
  | push r v =>
    by_cases hr : own r = true
    · simpa [within, hr, Enabled, h r hr] using he
    · simp [within, hr, Enabled]
  | silent => trivial

end Effect

theorem State.contents_setQueue (s : State V) (q : Queue) (f : Fifo Writer (Option V)) :
    (s.setQueue q f).contents = update s.contents q f.content := by
  funext r
  rw [State.contents, State.setQueue_queues]
  by_cases hr : r = q
  · subst hr
    simp
  · rw [if_neg hr, update_of_ne hr]
    rfl

/-- A step of a processor that ends in no exception. -/
theorem Moves.does (hm : Moves s (.run u) s') (hquiet : ∀ y, s'.procs u = some y → y.ctl.hosted = false) :
    ∃ x e y, s.procs u = some x ∧ x.Does e y ∧ e.Enabled s.contents ∧ s'.contents = e.apply s.contents ∧
      s'.procs = update s.procs u (some y) := by
  cases hm with
  | @pop _ x i q v rest hu ha hq =>
    exact ⟨x, _, _, hu, .pop ha v, ⟨rest, hq⟩, s.contents_setQueue q _, rfl⟩
  | @push _ x o q v hu ha hq => exact ⟨x, _, _, hu, .push ha, hq, s.contents_setQueue q _, rfl⟩
  | @tryPop _ x hu ha =>
    by_cases htoken : 0 < s.tokens
    · have hthrew := hquiet _ (update_self ..)
      simp [htoken, Proc.checked, Ctl.hosted] at hthrew
    · refine ⟨x, _, _, hu, .checked ha, trivial, rfl, ?_⟩
      simp [State.setProc, htoken]
  | @tryPush _ x hu ha =>
    obtain ⟨-, c, hc⟩ := Proc.action_tryPush ha
    have hclose := hquiet _ (update_self ..)
    simp [Proc.notified, hc, Ctl.hosted] at hclose
  | @internal _ x hu ha => exact ⟨x, _, _, hu, .internal ha, trivial, rfl, rfl⟩

/-- What comes from outside leaves the processors alone, and the queues of the pipeline. -/
theorem Moves.outside {e : Event V} (hm : Moves s e s') (he : ∀ u, e ≠ .run u ∧ ∀ standard, e ≠ .throw u standard) :
    s'.procs = s.procs ∧ ∀ q, q.isLink = true → s'.contents q = s.contents q := by
  have huser : ∀ (ch : UserChannel) (f : Fifo Writer (Option V)) (q : Queue), q.isLink = true →
      (s.setQueue (.user ch) f).contents q = s.contents q := by
    intro ch f q hq
    rw [s.contents_setQueue, update_of_ne (by rintro rfl; cases hq)]
  cases hm with
  | send hq => exact ⟨rfl, huser _ _⟩
  | receive hq => exact ⟨rfl, huser _ _⟩
  | addToken ht => exact ⟨rfl, fun _ _ => rfl⟩
  | takeToken ht => exact ⟨rfl, fun _ _ => rfl⟩
  | throw hu hc => exact absurd rfl ((he _).2 _)
  | _ => exact absurd rfl (he _).1

/-- A processor that an exception left stays so. -/
theorem Moves.hosted {e : Event V} (hm : Moves s e s') (hx : s.procs u = some x) (hh : x.ctl.hosted = true) :
    ∃ y, s'.procs u = some y ∧ y.ctl.hosted = true := by
  have hset : ∀ (t : State V) (v : Id) (x' y : Proc V), t.procs = s.procs → s.procs v = some x' → x'.Turn y →
      ∃ z, (t.setProc v y).procs u = some z ∧ z.ctl.hosted = true := by
    intro t v x' y ht hv hturn
    rw [State.setProc_procs, ht]
    by_cases huv : u = v
    · subst huv
      cases hx.symm.trans hv
      exact ⟨y, if_pos rfl, hturn.hosted hh⟩
    · exact ⟨x, (if_neg huv).trans hx, hh⟩
  cases hm with
  | pop hu ha hq => exact hset (s.setQueue _ _) _ _ _ rfl hu (.popped ha _)
  | push hu ha hq => exact hset (s.setQueue _ _) _ _ _ rfl hu (.pushed ha)
  | tryPop hu ha => exact hset { s with tokens := _ } _ _ _ rfl hu (.checked ha _)
  | tryPush hu ha => exact hset { s with tokens := _ } _ _ _ rfl hu (.notified ha)
  | internal hu ha => exact hset s _ _ _ rfl hu (.internal ha)
  | throw hu hc => exact hset s _ _ _ rfl hu (.throw hc _)
  | _ => exact ⟨x, hx, hh⟩

/-- An exception stays: a run that ends without one went without one. -/
theorem State.Reaches.quiet (h : s.Reaches s') (hq : ∀ u x, s'.procs u = some x → x.ctl.hosted = false) :
    ∀ u x, s.procs u = some x → x.ctl.hosted = false := by
  intro u x hx
  by_contra hh
  rw [Bool.not_eq_false] at hh
  obtain ⟨y, hy, hhy⟩ := h.induct (I := fun s => ∃ y, s.procs u = some y ∧ y.ctl.hosted = true) ⟨x, hx, hh⟩
    (fun a b e hI _ hm => hI.elim (fun z hz => hm.hosted hz.1 hz.2))
  rw [hq u y hy] at hhy
  cases hhy

/-- Such a step can be taken wherever its effect is possible. -/
theorem State.Calm.does (h : t.Calm) (hx : t.procs u = some x) (hd : x.Does e y) (he : e.Enabled t.contents)
    (hy : y.ctl.hosted = false) : ∃ t', t.step (.run u) = some t' ∧ t'.Calm ∧
      t'.contents = e.apply t.contents ∧ t'.procs = update t.procs u (some y) := by
  cases hd with
  | @pop i q ha v =>
    obtain ⟨rest, hq⟩ := he
    exact ⟨_, State.step_iff.2 ⟨h.alive, .pop hx ha hq⟩, h.setProc (t := t.setQueue q _) rfl rfl h.tokens hy,
      t.contents_setQueue q _, rfl⟩
  | @push o q v ha =>
    exact ⟨_, State.step_iff.2 ⟨h.alive, .push hx ha he⟩, h.setProc (t := t.setQueue q _) rfl rfl h.tokens hy,
      t.contents_setQueue q _, rfl⟩
  | checked ha =>
    refine ⟨_, State.step_iff.2 ⟨h.alive, .tryPop hx ha⟩, ?_, rfl, ?_⟩
    · exact h.setProc (t := { t with tokens := t.tokens - 1 }) rfl rfl (by simp [h.tokens])
        (by simpa [h.tokens] using hy)
    · simp [State.setProc, h.tokens]
  | internal ha => exact ⟨_, State.step_iff.2 ⟨h.alive, .internal hx ha⟩, h.setProc rfl rfl h.tokens hy, rfl, rfl⟩

/-! ## Following a run -/

/-- A run of a part beside a run of the whole: every processor `u` of the part goes along with the processor `name u` of
the whole, and the queues of the part hold the same. -/
structure Shadow (p' : Pipeline V) (name : Id → Id) (own : Queue → Bool) (R : Id → Proc V → Proc V → Prop)
    (s t : State V) : Prop where
  calm : t.Calm
  procs : ∀ u ∈ p'.nodes.keys, ∃ x x', s.procs (name u) = some x ∧ t.procs u = some x' ∧ R u x x'
  contents : ∀ q, own q = true → t.contents q = s.contents q

/-- A step of a processor of the whole is followed by one of the part, or by none. -/
def Follows (own : Queue → Bool) (R : Proc V → Proc V → Prop) (x : Proc V) (e : Effect V) (y : Proc V) : Prop :=
  ∀ x', R x x' → (∃ y', x'.Does (e.within own) y' ∧ y'.ctl.hosted = false ∧ R y y') ∨ (e.within own = .silent ∧ R y x')

variable {name : Id → Id} {own : Queue → Bool} {R : Id → Proc V → Proc V → Prop}

theorem Shadow.step (hinj : ∀ u ∈ p'.nodes.keys, ∀ v ∈ p'.nodes.keys, name u = name v → u = v)
    (h : Shadow p' name own R s t) {w : Id} (hx : s.procs w = some x) (he : e.Enabled s.contents)
    (hcontents : s'.contents = e.apply s.contents) (hprocs : s'.procs = update s.procs w (some y))
    (hin : ∀ u ∈ p'.nodes.keys, name u = w → Follows own (R u) x e y)
    (hout : (∀ u ∈ p'.nodes.keys, name u ≠ w) → e.within own = .silent) :
    ∃ t', t.Runs t' ∧ Shadow p' name own R s' t' := by
  have hqueues : ∀ {d : Queue → List (Option V)}, (∀ q, d q = (e.within own).apply t.contents q) → ∀ q, own q = true →
      d q = s'.contents q := by
    intro d hd q hq
    rw [hd, hcontents]
    exact e.apply_within h.contents hq
  have hother : ∀ v ∈ p'.nodes.keys, name v ≠ w → ∃ x x', s'.procs (name v) = some x ∧ t.procs v = some x' ∧
      R v x x' := by
    intro v hv hne
    rw [hprocs, update_of_ne hne]
    exact h.procs v hv
  by_cases hw : ∃ u ∈ p'.nodes.keys, name u = w
  · obtain ⟨u, hu, rfl⟩ := hw
    obtain ⟨x₀, x', hx₀, hx', hR⟩ := h.procs u hu
    cases hx₀.symm.trans hx
    have hne : ∀ v ∈ p'.nodes.keys, v ≠ u → name v ≠ name u := fun v hv hvu hn => hvu (hinj v hv u hu hn)
    have hself : s'.procs (name u) = some y := by rw [hprocs, update_self]
    rcases hin u hu rfl x' hR with ⟨y', hd, hy', hR'⟩ | ⟨hsilent, hR'⟩
    · obtain ⟨t', hstep, hcalm, hc', hp'⟩ := h.calm.does hx' hd (e.enabled_within h.contents he) hy'
      refine ⟨t', .single ⟨u, hstep⟩, hcalm, fun v hv => ?_, hqueues (fun q => by rw [hc'])⟩
      by_cases hvu : v = u
      · subst hvu
        exact ⟨y, y', hself, by rw [hp', update_self], hR'⟩
      · rw [hp', update_of_ne hvu]
        exact hother v hv (hne v hv hvu)
    · refine ⟨t, .refl, h.calm, fun v hv => ?_, hqueues (fun q => by rw [hsilent]; rfl)⟩
      by_cases hvu : v = u
      · subst hvu
        exact ⟨y, x', hself, hx', hR'⟩
      · exact hother v hv (hne v hv hvu)
  · have hnone : ∀ u ∈ p'.nodes.keys, name u ≠ w := fun u hu hn => hw ⟨u, hu, hn⟩
    exact ⟨t, .refl, h.calm, fun v hv => hother v hv (hnone v hv), hqueues (fun q => by rw [hout hnone]; rfl)⟩

/-- A run of the whole that ends without an exception is followed to its end; what comes from outside is not seen. -/
theorem Shadow.run {start : State V} (hinj : ∀ u ∈ p'.nodes.keys, ∀ v ∈ p'.nodes.keys, name u = name v → u = v)
    (hown : ∀ q, own q = true → q.isLink = true) (hs : start.Reaches s)
    (hquiet : ∀ u x, s.procs u = some x → x.ctl.hosted = false) (h0 : Shadow p' name own R start t)
    (hstep : ∀ (a b : State V) w x e y, start.Reaches a → a.Reaches s → a.procs w = some x → b.procs w = some y →
      x.ctl.hosted = false → y.ctl.hosted = false → x.Does e y →
      (∀ u ∈ p'.nodes.keys, name u = w → Follows own (R u) x e y) ∧
      ((∀ u ∈ p'.nodes.keys, name u ≠ w) → e.within own = .silent)) :
    ∃ t', t.Runs t' ∧ Shadow p' name own R s t' := by
  refine simulates hs (fun a b t hpre hab hpost hR => ?_) h0
  obtain ⟨ev, hev⟩ := hab
  have hm := (State.step_iff.1 hev).2
  have hb := State.Reaches.quiet hpost hquiet
  have ha : a.Reaches s := .head ⟨ev, hev⟩ hpost
  by_cases hrun : ∃ w, ev = .run w
  · obtain ⟨w, rfl⟩ := hrun
    obtain ⟨x, e, y, hx, hd, he, hcontents, hprocs⟩ := hm.does (hb w)
    have hy : b.procs w = some y := by rw [hprocs, update_self]
    obtain ⟨hin, hout⟩ := hstep a b w x e y hpre ha hx hy (ha.quiet hquiet w x hx) (hb w y hy) hd
    exact hR.step hinj hx he hcontents hprocs hin hout
  · by_cases hthrow : ∃ w standard, ev = .throw w standard
    · obtain ⟨w, standard, rfl⟩ := hthrow
      cases hm with
      | throw hu hc => exact absurd (hb w _ (update_self ..)) (by simp [Ctl.hosted])
    · obtain ⟨hprocs, hcontents⟩ :=
        hm.outside (fun u => ⟨fun h => hrun ⟨u, h⟩, fun standard h => hthrow ⟨u, standard, h⟩⟩)
      refine ⟨t, .refl, hR.calm, ?_, fun q hq => (hR.contents q hq).trans (hcontents q (hown q hq)).symm⟩
      rw [hprocs]
      exact hR.procs

/-! ## The abort channel -/

namespace Proc

/-- The processor with or without the abort channel. -/
def withAbort (b : Bool) (x : Proc V) : Proc V := { x with abortPort := b }

variable {x y : Proc V} {e : Effect V}

theorem withAbort_popped (b : Bool) (x : Proc V) (i : Nat) (v : Option V) :
    (x.withAbort b).popped i v = (x.popped i v).withAbort b := by
  obtain ⟨ports, c, a, calls, g⟩ := x
  by_cases h0 : ports.obj.need = 0 <;> by_cases h1 : ports.obj.need = 1 <;> cases c <;> cases v <;>
    simp [popped, withAbort, goto, h0, h1]

theorem withAbort_pushed (b : Bool) (x : Proc V) (o : Nat) (v : Option V) :
    (x.withAbort b).pushed o v = (x.pushed o v).withAbort b := by
  obtain ⟨ports, c, a, calls, g⟩ := x
  cases c <;> cases v <;> rfl

theorem withAbort_internal (b : Bool) (x : Proc V) : (x.withAbort b).internal = x.internal.withAbort b := by
  obtain ⟨ports, c, a, calls, g⟩ := x
  cases c with
  | start =>
    by_cases h : ports.obj.beforeWork = true <;> by_cases h' : ports.obj.kind.generates = true <;>
      simp [internal, withAbort, work_eq, h, h']
  | generate =>
    simp only [internal, withAbort, generating]
    split <;> rfl
  | popCheck i v => cases v <;> rfl
  | eof i => by_cases h : i + 1 < ports.obj.kind.nin <;> simp [internal, withAbort, ended, h]
  | afterWork => by_cases h : ports.obj.kind.isChannelSink = true <;> simp [internal, withAbort, h]
  | _ => rfl

/-- The abort channel is asked behind a check, and nowhere else as long as no exception comes. -/
theorem withAbort_action (b : Bool) (hx : x.ctl.hosted = false) : (x.withAbort b).action = x.action ∨
    ((x.action = .internal ∨ x.action = .tryPop) ∧
      ((x.withAbort b).action = .internal ∨ (x.withAbort b).action = .tryPop)) := by
  have hasked : ∀ c : Bool, (if c = true then (.tryPop : Action V) else .internal) = .internal ∨
      (if c = true then (.tryPop : Action V) else .internal) = .tryPop := by
    intro c
    cases c
    · exact Or.inl rfl
    · exact Or.inr rfl
  cases hc : x.ctl with
  | popCheck i v =>
    exact Or.inr ⟨by simpa only [action, hc] using hasked _, by simpa only [action, Proc.withAbort, hc] using hasked _⟩
  | pushCheck rest next =>
    exact Or.inr ⟨by simpa only [action, hc] using hasked _, by simpa only [action, Proc.withAbort, hc] using hasked _⟩
  | threw c => rw [hc] at hx; cases hx
  | _ => exact Or.inl (by simp only [action, Proc.withAbort, hc] <;> rfl)

/-- The abort channel makes no difference to a step without exceptions: where it is asked, it gives nothing. -/
theorem Does.withAbort (h : x.Does e y) (hx : x.ctl.hosted = false) (b : Bool) :
    (x.withAbort b).Does e (y.withAbort b) := by
  have haction := withAbort_action b hx
  cases h with
  | @pop i q ha v =>
    rw [← withAbort_popped]
    rw [ha] at haction
    exact .pop (by simpa using haction) v
  | @push o q v ha =>
    rw [← withAbort_pushed]
    rw [ha] at haction
    exact .push (by simpa using haction)
  | checked ha =>
    rw [← internal_eq_checked (action_tryPop ha).2, ← withAbort_internal]
    exact does_silent.2 ⟨rfl, haction.elim (fun h => Or.inr (h.trans ha)) And.right⟩
  | internal ha =>
    rw [← withAbort_internal]
    exact does_silent.2 ⟨rfl, haction.elim (fun h => Or.inl (h.trans ha)) And.right⟩

end Proc

/-- A processor that is the same in the part and in the whole, up to the abort channel, is followed step by step. -/
theorem follows_same {own : Queue → Bool} (hd : x.Does e y) (hx : x.ctl.hosted = false) (hy : y.ctl.hosted = false)
    (he : e.within own = e) : Follows own (fun x x' => ∃ b, x' = x.withAbort b) x e y := by
  rintro x' ⟨b, rfl⟩
  refine Or.inl ⟨y.withAbort b, ?_, hy, b, rfl⟩
  rw [he]
  exact hd.withAbort hx b

end Tunnel
