import Tunnel.Theorems.Schedule
import Tunnel.Theorems.StreamFunctions

/-!
# Runs end

Every step takes a processor further: an element goes through one of its ports, it handles a value, asks for one, or
comes closer to its next queue, and after an exception closer to its way out (`Proc.effort`). In a pipeline whose
sources are finite there is a bound to all this, since a processor writes no more than it handled, asked for, and an
EOF. A run that consists of steps of the processors alone, with an empty abort channel, has no exceptions
(`State.Calm`).
-/

namespace Tunnel

open Lib Function

variable {V : Type} {p : Pipeline V} {U : Finset Id} {s s' : State V}

/-- `s'` is reached by steps of processors alone. -/
def State.Runs (s s' : State V) : Prop := Relation.ReflTransGen (fun a b => ∃ u, a.step (.run u) = some b) s s'

/-- Such a run is a run. -/
theorem State.Runs.reaches (h : s.Runs s') : s.Reaches s' :=
  Relation.ReflTransGen.mono (fun _ _ ⟨u, h⟩ => ⟨.run u, h⟩) _ _ h

/-- A list of processors that step is such a run. -/
theorem State.Runs.of_runAll (ids : List Id) (h : s.runAll (ids.map .run) = some s') : s.Runs s' :=
  reaches_of_run (fun s ids => s.runAll (ids.map .run)) (fun _ => rfl) (fun _ _ _ => rfl) ids h

/-- No exception came and none can come from the abort channel. -/
structure State.Calm (s : State V) : Prop where
  alive : s.dead = false
  tokens : s.tokens = 0
  quiet : ∀ u x, s.procs u = some x → x.ctl.hosted = false

/-- Nothing escapes in a calm state. -/
theorem State.Calm.not_escaped (h : s.Calm) (u : Id) (x : Proc V) (hx : s.procs u = some x) : x.ctl ≠ .escaped := by
  intro hc
  have hq := h.quiet u x hx
  rw [hc] at hq
  cases hq

theorem Ctl.isDead_of_hosted {c : Ctl V} (h : c.hosted = false) : c.isDead = false := by
  cases c <;> simp_all [Ctl.hosted, Ctl.isDead]

/-- A processor moves, and the state stays calm. -/
theorem State.Calm.setProc {t : State V} (h : s.Calm) (hprocs : t.procs = s.procs) (hd : t.dead = s.dead)
    (ht : t.tokens = 0) {u : Id} {y : Proc V} (hy : y.ctl.hosted = false) : (t.setProc u y).Calm := by
  refine ⟨?_, ht, fun v z hz => ?_⟩
  · simp [State.setProc, hd, h.alive, Ctl.isDead_of_hosted hy]
  · rcases State.setProc_procs_some hz with ⟨-, rfl⟩ | ⟨-, hz⟩
    · exact hy
    · exact h.quiet v z (hprocs ▸ hz)

/-- How close the coroutine is to its next queue. -/
def Ctl.rank : Ctl V → Nat
  | .start => 0
  | .popCheck _ _ => 1
  | .pushCheck _ _ => 1
  | .eof _ => 1
  | .finished _ => 3
  | _ => 2

/-- How far the coroutine is on its way to the next queue, and in `hosted_mode` how far on its way out. -/
def Ctl.stage (nin nout : Nat) : Ctl V → Nat
  | .threw _ => 4
  | .closeInput _ i => 5 + min i nin
  | .closeOutput _ o => 6 + nin + min o nout
  | .finished (some _) => 7 + nin + nout
  | .escaped => 8 + nin + nout
  | .dead _ => 8 + nin + nout
  | c => c.rank

theorem Ctl.stage_emit (todo : List (Nat × Option V)) (next : Next) (nin nout : Nat) :
    (Ctl.emit todo next).stage nin nout = 2 := by
  cases todo <;> cases next <;> rfl

/-- There are so many stages only. -/
theorem Ctl.stage_le (c : Ctl V) (nin nout : Nat) : c.stage nin nout ≤ 8 + nin + nout := by
  cases c with
  | finished c => cases c <;> simp only [Ctl.stage, Ctl.rank] <;> omega
  | _ =>
    simp only [Ctl.stage, Ctl.rank]
    omega

namespace Proc

variable {n : Processor V} {x y : Proc V}

/-! ## Steps without exceptions -/

/-- A pop throws nothing. -/
theorem popped_hosted (h : Inv n x) (hx : x.ctl.hosted = false) {i : Nat} {q : Queue} (ha : x.action = .pop i q)
    (v : Option V) :
    (x.popped i v).ctl.hosted = false := by
  have hfault := (h.popped ha v).not_faulty.1
  obtain ⟨-, hc | ⟨c, hc, -⟩⟩ := action_pop ha
  · cases v with
    | some a => simp [Proc.popped, hc, goto, Ctl.hosted]
    | none =>
      simp only [Proc.popped, hc] at hfault ⊢
      split
      · rename_i h0
        rw [if_pos h0] at hfault
        exact absurd rfl hfault
      · split <;> rfl
  · rw [hc] at hx
    cases hx

/-- A push throws nothing. -/
theorem pushed_hosted (hx : x.ctl.hosted = false) {o : Nat} {q : Queue} {v : Option V} (ha : x.action = .push o q v) :
    (x.pushed o v).ctl.hosted = false := by
  obtain ⟨-, ⟨rest, next, hc⟩ | ⟨hc, -, -, rfl⟩ | ⟨c, hc, -, -⟩⟩ := action_push ha
  · cases v <;> simp [Proc.pushed, hc, goto, Ctl.hosted]
  · simp [Proc.pushed, hc, goto, Ctl.hosted]
  · rw [hc] at hx
    cases hx

/-- An empty abort channel throws nothing. -/
theorem checked_hosted (ha : x.action = .tryPop) : (x.checked false).ctl.hosted = false := by
  obtain ⟨-, ⟨i, v, hc⟩ | ⟨rest, next, hc⟩⟩ := action_tryPop ha
  · cases v <;> simp [Proc.checked, hc, Ctl.hosted]
  · simp [Proc.checked, hc]

/-- Without a queue nothing is thrown. -/
theorem internal_hosted (hr : n.Ready) (h : Inv n x) (hb : n.beforeWork = true) (hx : x.ctl.hosted = false)
    (ha : x.action = .internal) : x.internal.ctl.hosted = false := by
  have hfault := (h.internal hr ha).not_faulty.2
  cases hc : x.ctl with
  | start =>
    have hobj : x.obj = n := by
      have hstand := h.standing
      rw [hc] at hstand
      exact hstand.1
    simp only [Proc.internal, hc, hobj, hb, if_true, work_eq]
    split <;> rfl
  | generate =>
    simp only [Proc.internal, hc, Proc.generating]
    split
    · simp
    · rw [hc]
      rfl
  | popCheck i v => cases v <;> simp [Proc.internal, Proc.checked, hc, Ctl.hosted]
  | pushCheck rest next => simp [Proc.internal, Proc.checked, hc]
  | handle i a => simp [Proc.internal, hc]
  | eof i =>
    simp only [Proc.internal, hc, Proc.ended]
    split
    · rfl
    · exact Ctl.emit_hosted _ _
  | afterWork =>
    simp only [Proc.internal, hc] at hfault ⊢
    split
    · rename_i hk
      rw [if_pos hk] at hfault
      exact absurd rfl hfault
    · rfl
  | pop i =>
    simp only [Proc.internal, hc] at hfault
    exact absurd rfl hfault
  | push o v rest next =>
    simp only [Proc.internal, hc] at hfault
    exact absurd rfl hfault
  | finished c => simpa [Proc.internal, hc] using hx
  | _ => rw [hc] at hx; cases hx

/-! ## How far a processor has come -/

/-- How often a `Source` called `generate`. -/
def asked (n : Processor V) (x : Proc V) : Nat := if n.kind.generates then x.generated else 0

/-- What went through the ports, what was handled and what was asked for. -/
def tally (n : Processor V) (x : Proc V) : Nat :=
  ∑ i ∈ Finset.range n.kind.nin, (x.taken i).length + ∑ o ∈ Finset.range n.kind.nout, (x.put o).length +
    x.calls.length + x.asked n

def effort (n : Processor V) (x : Proc V) : Nat := 4 * x.tally n + x.ctl.stage n.kind.nin n.kind.nout

/-- One element more at the inputs. -/
theorem sum_length_take (x : Ports V) {i m : Nat} (hi : i < m) (v : Option V) :
    ∑ j ∈ Finset.range m, ((x.take i v).taken j).length = ∑ j ∈ Finset.range m, (x.taken j).length + 1 := by
  have hone : ∀ j ∈ Finset.range m, ((x.take i v).taken j).length = (x.taken j).length + if j = i then 1 else 0 := by
    intro j _
    by_cases hj : j = i <;> simp [Ports.take, hj]
  rw [Finset.sum_congr rfl hone, Finset.sum_add_distrib, Finset.sum_ite_eq', if_pos (Finset.mem_range.2 hi)]

/-- One element more at the outputs. -/
theorem sum_length_give (x : Ports V) {o m : Nat} (ho : o < m) (v : Option V) :
    ∑ j ∈ Finset.range m, ((x.give o v).put j).length = ∑ j ∈ Finset.range m, (x.put j).length + 1 := by
  have hone : ∀ j ∈ Finset.range m, ((x.give o v).put j).length = (x.put j).length + if j = o then 1 else 0 := by
    intro j _
    by_cases hj : j = o <;> simp [Ports.give, hj]
  rw [Finset.sum_congr rfl hone, Finset.sum_add_distrib, Finset.sum_ite_eq', if_pos (Finset.mem_range.2 ho)]

/-- Queues do not call back. -/
theorem popped_counts (x : Proc V) (i : Nat) (v : Option V) :
    (x.popped i v).calls = x.calls ∧ (x.popped i v).generated = x.generated := by
  cases hc : x.ctl <;> cases v <;> simp only [Proc.popped, hc, goto, and_self]
  all_goals
    split
    · exact ⟨rfl, rfl⟩
    · split <;> exact ⟨rfl, rfl⟩

theorem pushed_counts (x : Proc V) (o : Nat) (v : Option V) :
    (x.pushed o v).calls = x.calls ∧ (x.pushed o v).generated = x.generated := by
  cases hc : x.ctl <;> cases v <;> simp [Proc.pushed, hc, goto]

/-- A pop counts. -/
theorem tally_popped (h : Inv n x) {i : Nat} {q : Queue} (ha : x.action = .pop i q) (v : Option V) :
    (x.popped i v).tally n = x.tally n + 1 := by
  obtain ⟨hi, -, -⟩ := h.pop_port ha
  obtain ⟨htaken, hput⟩ := popped_taken ha v
  obtain ⟨hcalls, hgen⟩ := x.popped_counts i v
  simp only [tally, asked, htaken, hput, hcalls, hgen, sum_length_take x.toPorts hi v]
  omega

/-- A push counts. -/
theorem tally_pushed (h : Inv n x) {o : Nat} {q : Queue} {v : Option V} (ha : x.action = .push o q v) :
    (x.pushed o v).tally n = x.tally n + 1 := by
  obtain ⟨ho, -, -⟩ := h.push_port ha
  obtain ⟨hput, htaken⟩ := pushed_put ha
  obtain ⟨hcalls, hgen⟩ := x.pushed_counts o v
  simp only [tally, asked, htaken, hput, hcalls, hgen, sum_length_give x.toPorts ho v]
  omega

/-- A processor that pops, or pushes, does not go back by more than the element counts. -/
theorem stage_popped {i : Nat} {q : Queue} (ha : x.action = .pop i q) (v : Option V) :
    x.ctl.stage n.kind.nin n.kind.nout ≤ (x.popped i v).ctl.stage n.kind.nin n.kind.nout + 3 := by
  obtain ⟨-, hc | ⟨c, hc, hlt⟩⟩ := action_pop ha
  · rw [hc]
    simp only [Ctl.stage, Ctl.rank]
    omega
  · rw [hc]
    cases v with
    | some a =>
      simp only [popped, hc, goto, Ctl.stage]
      omega
    | none =>
      simp only [popped, hc]
      split
      · simp only [goto, Ctl.stage]
        omega
      · split <;> simp only [goto, Ctl.stage] <;> omega

theorem stage_pushed {o : Nat} {q : Queue} {v : Option V} (ha : x.action = .push o q v) :
    x.ctl.stage n.kind.nin n.kind.nout ≤ (x.pushed o v).ctl.stage n.kind.nin n.kind.nout + 3 := by
  obtain ⟨-, ⟨rest, next, hc⟩ | ⟨hc, -, -, -⟩ | ⟨c, hc, -, rfl⟩⟩ := action_push ha
  · rw [hc]
    simp only [Ctl.stage, Ctl.rank]
    omega
  · rw [hc]
    simp only [Ctl.stage, Ctl.rank]
    omega
  · simp only [pushed, hc, goto, Ctl.stage]
    omega

/-- The coroutine comes further. -/
theorem effort_ctl {c : Ctl V} (h : x.ctl.stage n.kind.nin n.kind.nout < c.stage n.kind.nin n.kind.nout) :
    x.effort n < effort n { x with ctl := c } := by
  simp only [effort, tally, asked]
  omega

/-- A look at the abort channel brings the coroutine further. -/
theorem effort_checked (h : (∃ i v, x.ctl = .popCheck i v) ∨ ∃ rest next, x.ctl = .pushCheck rest next) (token : Bool) :
    x.effort n < (x.checked token).effort n := by
  cases token with
  | true => exact effort_ctl (by rcases h with ⟨i, v, hc⟩ | ⟨rest, next, hc⟩ <;> simp [hc, Ctl.stage, Ctl.rank])
  | false =>
    rcases h with ⟨i, v, hc⟩ | ⟨rest, next, hc⟩
    · cases v <;> simp only [Proc.checked, hc, Bool.false_eq_true, if_false] <;>
        exact effort_ctl (by simp [hc, Ctl.stage, Ctl.rank])
    · simp only [Proc.checked, hc, Bool.false_eq_true, if_false]
      exact effort_ctl (by rw [hc, Ctl.stage_emit]; exact Nat.one_lt_two)

/-- A step without a queue brings the coroutine further: on its way to the next queue, or on its way out. -/
theorem effort_internal (h : Inv n x) (ha : x.action = .internal) : x.effort n < x.internal.effort n := by
  cases hc : x.ctl with
  | start =>
    simp only [internal, hc, work_eq]
    split <;> refine effort_ctl ?_ <;> rw [hc]
    · split <;> exact Nat.zero_lt_two
    · simp only [Ctl.stage, Ctl.rank]
      omega
  | generate =>
    have hg : n.kind.generates = true := by
      have hstand := h.standing
      rw [hc] at hstand
      exact hstand.1
    obtain ⟨g, hk⟩ := Kind.exists_generate hg
    simp only [internal, hc, generating, h.kind.trans hk, effort, tally, asked, hg, if_true, Ctl.stage_emit]
    simp only [Ctl.stage, Ctl.rank]
    omega
  | popCheck i v =>
    have hint : x.internal = x.checked false := by simp [internal, hc]
    exact hint ▸ effort_checked (Or.inl ⟨i, v, hc⟩) false
  | pushCheck rest next =>
    have hint : x.internal = x.checked false := by simp [internal, hc]
    exact hint ▸ effort_checked (Or.inr ⟨rest, next, hc⟩) false
  | handle i a =>
    simp only [internal, hc, effort, tally, asked, Ctl.stage_emit, List.length_append, List.length_singleton]
    simp only [Ctl.stage, Ctl.rank]
    omega
  | eof i =>
    simp only [internal, hc, ended]
    split <;> refine effort_ctl ?_ <;> rw [hc]
    · exact Nat.one_lt_two
    · rw [Ctl.stage_emit]
      exact Nat.one_lt_two
  | finished c => simp [action, hc] at ha
  | escaped => simp [action, hc] at ha
  | dead d => simp [action, hc] at ha
  | _ =>
    simp only [internal, hc, h.kind]
    first
      | split <;> refine effort_ctl ?_ <;> simp only [hc, Ctl.stage, Ctl.rank] <;> omega
      | refine effort_ctl ?_
        simp only [hc, Ctl.stage, Ctl.rank]
        omega

/-- Every turn brings a processor further. -/
theorem Turn.effort_lt (h : Inv n x) (ht : x.Turn y) : x.effort n < y.effort n := by
  cases ht with
  | popped ha v =>
    have htally := tally_popped h ha v
    have hstage := stage_popped (n := n) ha v
    unfold effort
    omega
  | pushed ha =>
    have htally := tally_pushed h ha
    have hstage := stage_pushed (n := n) ha
    unfold effort
    omega
  | checked ha token => exact effort_checked (action_tryPop ha).2 token
  | notified ha =>
    obtain ⟨-, c, hc⟩ := action_tryPush ha
    simp only [Proc.notified, hc]
    refine effort_ctl ?_
    simp only [hc, Ctl.stage]
    omega
  | internal ha => exact effort_internal h ha
  | throw hc =>
    refine effort_ctl ?_
    cases hctl : x.ctl <;> simp [inCallback, hctl] at hc <;> simp [Ctl.stage, Ctl.rank]

end Proc

/-! ## What a processor writes -/

/-- What is no value is an EOF. -/
theorem length_eq_values_add_eofs (l : List (Option V)) : l.length = l.reduceOption.length + eofs l := by
  induction l with
  | nil => rfl
  | cons v l ih => cases v <;> simp_all [eofs] <;> omega

/-- One round writes one element at most to an output. -/
theorem length_streamOf_le {l : List (Nat × V)} (h : (l.map (·.1)).Pairwise (· < ·)) (o : Nat) :
    (streamOf l o).length ≤ 1 := by
  have hcount : (streamOf l o).length = (l.map (·.1)).count o := by
    rw [streamOf, List.length_map, List.count, List.countP_map, List.countP_eq_length_filter]
    congr 1
  rw [hcount]
  exact List.nodup_iff_count_le_one.1 (h.imp (fun hab => Nat.ne_of_lt hab)) o

namespace Kind

/-- A class pushes one element at most to each output in a round, and in the order of the outputs. -/
theorem onValue_inOrder (k : Kind V) (calls : List V) (v : V) : ((k.onValue calls v).map (·.1)).Pairwise (· < ·) := by
  cases k with
  | source k => cases k <;> simp [onValue]
  | transform k =>
    cases k with
    | filter f =>
      simp only [onValue]
      split <;> simp
    | _ => simp [onValue]
  | sink k => cases k <;> simp [onValue]
  | fork n pos =>
    simp only [onValue, List.map_map, Function.comp_def, List.map_id_fun', id]
    exact List.pairwise_lt_range
  | _ => simp [onValue]

/-- A class puts one value at most on each output for each value it handles, also when its callback keeps state. -/
theorem length_streamOf_emitted (k : Kind V) (ins : List V) (o : Nat) :
    (streamOf (k.emitted ins) o).length ≤ ins.length := by
  have hfrom : ∀ before, (streamOf (k.emittedFrom before ins) o).length ≤ ins.length := by
    induction ins with
    | nil => exact fun _ => Nat.le_refl 0
    | cons v ins ih =>
      intro before
      have hone := length_streamOf_le (k.onValue_inOrder before v) o
      have hrest := ih (before ++ [v])
      rw [emittedFrom, streamOf_append, List.length_append, List.length_cons]
      omega
  exact hfrom []

/-- At its end it puts one value at most. -/
theorem length_onEof_values (k : Kind V) (calls : List V) (o : Nat) :
    (streamOf (k.onEof calls) o).reduceOption.length ≤ 1 := by
  have hnone : (∀ w ∈ k.onEof calls, w.2 = none) → (streamOf (k.onEof calls) o).reduceOption.length ≤ 1 := by
    intro h
    have hnil : (streamOf (k.onEof calls) o).reduceOption = [] := by
      rw [List.reduceOption, List.filterMap_eq_nil_iff]
      intro v hv
      obtain ⟨w, hw, rfl⟩ := List.mem_map.1 hv
      exact h w (List.mem_filter.1 hw).1
    rw [hnil]
    exact Nat.zero_le 1
  cases k with
  | transform k =>
    cases k with
    | accumulate g =>
      by_cases ho : o = 0
      · subst ho
        exact Nat.le_refl 1
      · rw [onEof, streamOf_cons_ne _ _ ho, streamOf_cons_ne _ _ ho]
        exact Nat.zero_le 1
    | _ => exact hnone (by simp [onEof])
  | _ => exact hnone (by simp [onEof])

/-- A class makes no more than it got, and one value. -/
theorem length_produced (k : Kind V) (calls : List V) (generated : Nat) (closed : Bool) (o : Nat) :
    (k.produced calls generated closed o).length ≤ calls.length + (if k.generates then generated else 0) + 1 := by
  cases hg : k.generates with
  | true =>
    obtain ⟨g, rfl⟩ := Kind.exists_generate hg
    have := List.length_filterMap_le g (List.range generated)
    rw [List.length_range] at this
    rw [Kind.produced, if_pos rfl]
    omega
  | false =>
    have hemitted := k.length_streamOf_emitted calls o
    have heof := k.length_onEof_values calls o
    rw [Kind.produced_eq hg, List.length_append]
    split
    · omega
    · rw [List.length_nil]
      omega

end Kind

/-- What is read was taken. -/
theorem Ports.length_reads (x : Ports V) (m : Nat) : (x.reads m).length ≤ ∑ i ∈ Finset.range m, (x.taken i).length := by
  induction m with
  | zero => exact Nat.le_refl 0
  | succ m ih =>
    have := length_eq_values_add_eofs (x.taken m)
    rw [Finset.sum_range_succ]
    simp only [Ports.reads, List.range_succ, List.flatMap_append, List.flatMap_singleton, List.length_append] at ih ⊢
    omega

namespace Proc

variable {n : Processor V} {x : Proc V}

/-- What a processor has put on an output is bounded by what it handled and asked for, also after an exception. -/
theorem Tracked.length_put (h : Tracked n x) {o : Nat} (ho : o < n.kind.nout) :
    (x.put o).length ≤ x.calls.length + x.asked n + 2 := by
  obtain ⟨closed, hheld⟩ := h.held
  have hvalues := (hheld.puts o ho).length_le
  have hproduced := n.kind.length_produced x.calls x.generated closed o
  have heofs : eofs (x.put o) ≤ 1 := by
    rcases h.inv.values_or_ended ho with hv | he
    · rw [hv.eofs_eq]
      exact Nat.zero_le 1
    · exact Nat.le_of_eq he.eofs_eq
  rw [length_eq_values_add_eofs]
  unfold asked
  omega

/-- What is handled was taken. -/
theorem Tracked.length_calls (h : Tracked n x) :
    x.calls.length ≤ ∑ i ∈ Finset.range n.kind.nin, (x.taken i).length := by
  obtain ⟨closed, hheld⟩ := h.held
  exact Nat.le_trans hheld.calls.length_le (x.toPorts.length_reads n.kind.nin)

end Proc

/-- Every source comes to an end. -/
def Pipeline.FiniteSources (p : Pipeline V) :
    Prop := ∀ u n g, p.nodes.get u = some n → n.kind = .source (.generate g) → ∃ k, g k = none

/-- A `Source` does not ask again after its EOF. -/
theorem Generating.le {g : Nat → Option V} {count : Nat} {closing : Bool} (h : Generating g count closing) {k : Nat}
    (hk : g k = none) :
    count ≤ k + 1 := by
  have hlt : ∀ m, (∀ j < m, (g j).isSome = true) → m ≤ k := by
    intro m hm
    by_contra hkm
    have := hm k (by omega)
    rw [hk] at this
    cases this
  cases closing with
  | false =>
    have := hlt count h
    omega
  | true =>
    obtain ⟨m, rfl, -, hm⟩ := h
    have := hlt m hm
    omega

/-- What `generate` gave so far are values, and an EOF at most at the end, also after an exception. -/
theorem Proc.generating_turns {n : Processor V} {x : Proc V} (hr : n.Ready)
    (hx : Relation.ReflTransGen Proc.Turn (p.startProc n) x) {g : Nat → Option V}
    (hk : n.kind = .source (.generate g)) : ∃ closing, Generating g x.generated closing := by
  induction hx with
  | refl => exact ⟨false, fun k hk => absurd hk (Nat.not_lt_zero k)⟩
  | @tail x y hx ht ih =>
    cases hh : y.ctl.hosted with
    | false => exact ⟨_, ((Tracked.turns hr (hx.tail ht)).flow hh).source g hk⟩
    | true =>
      rw [(ht.hosted_frame hh).1.2]
      exact ih

/-- In all states of all runs of a pipeline with finite sources, how far a processor has come is bounded. -/
theorem Network.effort_le (hnet : Network p U)
    (hchannel : ∀ u n, p.nodes.get u = some n → n.kind.isChannelSource = false) (hfin : p.FiniteSources) (u : Id) :
    ∃ bound, ∀ pre tokens s, (p.start pre tokens).Reaches s → ∀ n x, p.nodes.get u = some n →
      s.procs u = some x → x.effort n ≤ bound ∧ ∀ o < n.kind.nout, (x.put o).length ≤ bound := by
  induction u using hnet.sound.ranked.wellFounded.induction with
  | _ u ih =>
    cases hn : p.nodes.get u with
    | none => exact ⟨0, fun pre tokens s _ n x hn' => by cases hn'⟩
    | some n =>
      -- the bounds of the writers, and what they allow at each input
      have hbound : ∀ w, ∃ b, p.Edge w u → ∀ pre tokens s, (p.start pre tokens).Reaches s →
          ∀ m y, p.nodes.get w = some m → s.procs w = some y → ∀ o < m.kind.nout, (y.put o).length ≤ b := by
        intro w
        by_cases he : p.Edge w u
        · obtain ⟨b, hb⟩ := ih w he
          exact ⟨b, fun _ pre tokens s hs m y hm hy => (hb pre tokens s hs m y hm hy).2⟩
        · exact ⟨0, fun h => absurd h he⟩
      choose b hb using hbound
      obtain ⟨N, hN⟩ : ∃ N, ∀ g, n.kind = .source (.generate g) → ∃ k < N, g k = none := by
        cases hg : n.kind.generates with
        | false => exact ⟨0, fun g hk => by rw [hk] at hg; cases hg⟩
        | true =>
          obtain ⟨g, hk⟩ := Kind.exists_generate hg
          obtain ⟨k, hk0⟩ := hfin u n g hn hk
          exact ⟨k + 1, fun g' hk' => ⟨k, Nat.lt_succ_self k, by rw [hk] at hk'; cases hk'; exact hk0⟩⟩
      let inputs := ∑ i ∈ Finset.range n.kind.nin, ∑ w ∈ (n.inChan i).elim ∅ p.writers, b w.1
      refine ⟨4 * (inputs + n.kind.nout * (inputs + N + 2) + inputs + N) + (8 + n.kind.nin + n.kind.nout) + inputs + 2,
        fun pre tokens s hs n' x hn' hx => ?_⟩
      cases hn'
      have hR := hnet.running hs
      have hturns := hs.turns hn hx
      have htracked := Proc.Tracked.turns (hnet.ready hn) hturns
      have htaken : ∑ i ∈ Finset.range n.kind.nin, (x.taken i).length ≤ inputs := by
        refine Finset.sum_le_sum (fun i hi => ?_)
        obtain ⟨q, hqi, hlink⟩ := hnet.link_input hn (hchannel u n hn) (Finset.mem_range.1 hi)
        have hlen := (hR.interleaves hlink).length_eq
        rw [hR.taken u n x i q hn hx hqi hlink, List.length_append] at hlen
        rw [hqi]
        refine Nat.le_trans (Nat.le_trans (Nat.le_add_right _ _) (Nat.le_of_eq hlen)) (Finset.sum_le_sum (fun w hw =>
          ?_))
        obtain ⟨m, hm, ho⟩ := (p.mem_writers q w.1 w.2).1 hw
        obtain ⟨y, hy, -⟩ := hR.proc hm
        rw [hR.put w.1 m y w.2 q hm hy ho]
        exact hb w.1 (hnet.wired.port_edge w.1 u m n w.2 i q hm hn ho hqi hlink) pre tokens s hs m y hm hy w.2
          ((hnet.wired.shaped w.1 m hm).out_lt w.2 q ho)
      have hcalls := htracked.length_calls
      have hasked : x.asked n ≤ N := by
        unfold Proc.asked
        split
        · rename_i hg
          obtain ⟨g, hk⟩ := Kind.exists_generate hg
          obtain ⟨k, hkN, hk0⟩ := hN g hk
          obtain ⟨closing, hgen⟩ := Proc.generating_turns (hnet.ready hn) hturns hk
          have := hgen.le hk0
          omega
        · exact Nat.zero_le N
      have hputs : ∀ o < n.kind.nout, (x.put o).length ≤ inputs + N + 2 := by
        intro o ho
        have := htracked.length_put ho
        omega
      have hsum : ∑ o ∈ Finset.range n.kind.nout, (x.put o).length ≤ n.kind.nout * (inputs + N + 2) := by
        have := Finset.sum_le_card_nsmul (Finset.range n.kind.nout) (fun o => (x.put o).length) (inputs + N + 2)
          (fun o ho => hputs o (Finset.mem_range.1 ho))
        simpa using this
      have hstage := x.ctl.stage_le n.kind.nin n.kind.nout
      refine ⟨?_, fun o ho => ?_⟩
      · unfold Proc.effort Proc.tally
        omega
      · have := hputs o ho
        omega

/-! ## The end -/

/-- How far a run has come. -/
def State.effort (p : Pipeline V) (s : State V) : Nat :=
  ∑ u ∈ p.nodes.keys, match p.nodes.get u, s.procs u with
    | some n, some x => x.effort n
    | _, _ => 0

/-- A turn of a processor counts, and what happens outside the processors does not. -/
theorem Moves.effort_le {e : Event V} (hR : Running p s) (hm : Moves s e s') :
    s.effort p + (if e.proc.isSome then 1 else 0) ≤ s'.effort p := by
  have hturn : ∀ {u x y}, s.procs u = some x → x.Turn y → s'.procs = update s.procs u (some y) →
      s.effort p < s'.effort p := by
    intro u x y hx ht hprocs
    obtain ⟨n, hn, hinv⟩ := hR.node hx
    refine Finset.sum_lt_sum (fun v _ => ?_) ⟨u, PMap.mem_keys_of_get hn, ?_⟩
    · rw [hprocs]
      by_cases hv : v = u
      · rw [hv, hn, hx, update_self]
        exact Nat.le_of_lt (ht.effort_lt hinv)
      · rw [update_of_ne hv]
    · rw [hprocs, hn, hx, update_self]
      exact ht.effort_lt hinv
  cases hm with
  | pop hu ha hq => exact hturn hu (.popped ha _) rfl
  | push hu ha hq => exact hturn hu (.pushed ha) rfl
  | tryPop hu ha => exact hturn hu (.checked ha _) rfl
  | tryPush hu ha => exact hturn hu (.notified ha) rfl
  | internal hu ha => exact hturn hu (.internal ha) rfl
  | throw hu hc => exact hturn hu (.throw hc _) rfl
  | _ => exact Nat.le_refl _

/-- So how far the runs of the pipeline come is bounded. -/
theorem Network.effort_bounded (hnet : Network p U)
    (hchannel : ∀ u n, p.nodes.get u = some n → n.kind.isChannelSource = false) (hfin : p.FiniteSources) :
    ∃ bound, ∀ pre tokens s, (p.start pre tokens).Reaches s → s.effort p ≤ bound := by
  choose bound hbound using hnet.effort_le hchannel hfin
  refine ⟨∑ u ∈ p.nodes.keys, bound u, fun pre tokens s hs => Finset.sum_le_sum (fun u hu => ?_)⟩
  obtain ⟨n, hn⟩ := (p.nodes.mem_keys_iff u).1 hu
  obtain ⟨x, hx, -⟩ := (hnet.running hs).proc hn
  rw [hn, hx]
  exact (hbound u pre tokens s hs n x hn hx).1

/-- Only a channel node can fail in `before_work`. -/
theorem Network.pure_beforeWork (hnet : Network p U) (hp : p.Pure) {u : Id} {n : Processor V}
    (hn : p.nodes.get u = some n) :
    n.beforeWork = true := by
  rw [← Bool.not_eq_false]
  intro hb
  obtain ⟨hsource, hsink⟩ := (hp u n hn).not_channel
  rcases hnet.beforeWork hn hb with ⟨hk, -⟩ | ⟨hk, -⟩
  · rw [hsource] at hk
    cases hk
  · rw [hsink] at hk
    cases hk

/-- A step of a processor brings no exception into a calm state. -/
theorem State.Calm.run (hnet : Network p U) (hp : p.Pure) (hR : Running p s) (h : s.Calm) {u : Id}
    (hm : Moves s (.run u) s') :
    s'.Calm := by
  cases hm with
  | @pop _ x i q v rest hu ha hq =>
    obtain ⟨n, hn, hinv⟩ := hR.node hu
    exact h.setProc (t := s.setQueue q _) rfl rfl h.tokens (Proc.popped_hosted hinv (h.quiet u x hu) ha v)
  | @push _ x o q v hu ha hq =>
    exact h.setProc (t := s.setQueue q _) rfl rfl h.tokens (Proc.pushed_hosted (h.quiet u x hu) ha)
  | tryPop hu ha =>
    rw [h.tokens]
    exact h.setProc (t := { s with tokens := 0 }) rfl rfl rfl (Proc.checked_hosted ha)
  | @tryPush _ x hu ha =>
    obtain ⟨-, c, hc⟩ := Proc.action_tryPush ha
    have := h.quiet u x hu
    rw [hc] at this
    cases this
  | @internal _ x hu ha =>
    obtain ⟨n, hn, hinv⟩ := hR.node hu
    exact h.setProc rfl rfl h.tokens (Proc.internal_hosted (hnet.ready hn) hinv (hnet.pure_beforeWork hp hn)
      (h.quiet u x hu) ha)

/-- A run starts calm. -/
theorem calm_start (p : Pipeline V) (pre : UserChannel → List (Option V)) : (p.start pre 0).Calm := by
  refine ⟨rfl, rfl, fun u x hx => ?_⟩
  obtain ⟨n, -, rfl⟩ := Option.map_eq_some_iff.1 hx
  rfl

/-- Runs of the processors alone are calm. -/
theorem Network.calm (hnet : Network p U) (hp : p.Pure) {pre : UserChannel → List (Option V)}
    (h : (p.start pre 0).Runs s) : s.Calm := by
  induction h with
  | refl => exact calm_start p pre
  | tail hrun hstep ih =>
    obtain ⟨u, hu⟩ := hstep
    exact ih.run hnet hp (hnet.running (State.Runs.reaches hrun)) (State.step_iff.1 hu).2

/-- From every state of a run of the processors alone, processors can only take so many steps: they come to a state in
which none can take one. -/
theorem Network.run_ends (hnet : Network p U) (hp : p.Pure) (hfin : p.FiniteSources)
    {pre : UserChannel → List (Option V)} (h : (p.start pre 0).Runs s) :
    ∃ s', s.Runs s' ∧ ∀ u, s'.canStep u = false := by
  obtain ⟨bound, hbound⟩ := hnet.effort_bounded (fun u n hn => (hp u n hn).not_channel.1) hfin
  -- by induction on what is left of the bound
  have hleft : ∀ k s, (p.start pre 0).Runs s → bound - s.effort p = k →
      ∃ s', s.Runs s' ∧ ∀ u, s'.canStep u = false := by
    intro k
    induction k using Nat.strong_induction_on with
    | _ k ih =>
      intro s hs hk
      by_cases hstuck : ∀ u, s.canStep u = false
      · exact ⟨s, .refl, hstuck⟩
      · simp only [not_forall, Bool.not_eq_false] at hstuck
        obtain ⟨u, hu⟩ := hstuck
        obtain ⟨s₁, hs₁⟩ := Option.isSome_iff_exists.1 hu
        have hruns : (p.start pre 0).Runs s₁ := hs.tail ⟨u, hs₁⟩
        have hlt : s.effort p + 1 ≤ s₁.effort p := (State.step_iff.1 hs₁).2.effort_le (hnet.running hs.reaches)
        have hb := hbound pre 0 s₁ hruns.reaches
        obtain ⟨s', hs', hend⟩ := ih _ (by omega) s₁ hruns rfl
        exact ⟨s', .head ⟨u, hs₁⟩ hs', hend⟩
  exact hleft _ s h rfl

end Tunnel
