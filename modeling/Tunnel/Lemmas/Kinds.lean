import Tunnel.Lemmas.Flow
import Tunnel.Lemmas.Sources

/-!
# Other callbacks in a run

A pipeline whose sources generate something else takes the same steps, up to the next `generate` that returns something
else (`State.withKinds_step`).
-/

namespace Tunnel

open Lib

variable {V : Type}

/-- The processor with another callback. -/
def Proc.withKind (x : Proc V) (k : Kind V) : Proc V := { x with obj := x.obj.withKind k }

/-- The pipeline that runs, with other callbacks. -/
def State.withKinds (s : State V) (f : Id → Kind V → Kind V) : State V :=
  { s with procs := fun u => (s.procs u).map (fun x => x.withKind (f u x.obj.kind)) }

namespace Proc

variable {x : Proc V} {k : Kind V}

theorem popped_kind (x : Proc V) (i : Nat) (v : Option V) : (x.popped i v).obj.kind = x.obj.kind := by
  simp only [popped]
  split
  · rfl
  · split
    · rfl
    · split <;> simp [goto, Ports.take, Ports.countEof, Ports.resetInput]
  · rfl
  · split
    · rfl
    · split <;> simp [goto, Ports.take, Ports.countEof]
  · rfl

theorem pushed_kind (x : Proc V) (o : Nat) (v : Option V) : (x.pushed o v).obj.kind = x.obj.kind := by
  simp only [pushed]
  split
  · rfl
  · simp [goto, Ports.give, Ports.resetOutput]
  all_goals rfl

section generates

variable (hx : x.obj.kind.generates = true) (hk : k.generates = true)
include hx hk

/-- The new class has the same shape. -/
theorem withKind_alike : x.obj.kind.Alike k := by
  obtain ⟨g, hg⟩ := Kind.exists_generate hx
  obtain ⟨g', rfl⟩ := Kind.exists_generate hk
  rw [hg]
  constructor <;> rfl

/-- It does the same next. -/
theorem withKind_action : (x.withKind k).action = x.action := by
  have ha := withKind_alike hx hk
  have hin : ∀ i, (x.withKind k).popAction i = x.popAction i := by
    intro i
    simp only [popAction, withKind, Processor.withKind_inChan ha]
  have hout : ∀ o v, (x.withKind k).pushAction o v = x.pushAction o v := by
    intro o v
    simp only [pushAction, withKind, Processor.withKind_outChan ha]
  have hsink : (x.withKind k).obj.kind.isChannelSink = x.obj.kind.isChannelSink := ha.channelSink
  have hnin : (x.withKind k).obj.kind.nin = x.obj.kind.nin := ha.nin
  have hnout : (x.withKind k).obj.kind.nout = x.obj.kind.nout := ha.nout
  simp only [action, hin, hout, hsink, hnin, hnout]
  rfl

/-- It pops alike. -/
theorem withKind_popped (i : Nat) (v : Option V) : (x.withKind k).popped i v = (x.popped i v).withKind k := by
  have ha := withKind_alike hx hk
  have hneed : (x.withKind k).obj.need = x.obj.need := Processor.withKind_need ha
  have hctl : (x.withKind k).ctl = x.ctl := rfl
  simp only [popped, hneed, hctl]
  have hx' : x.obj.kind.isMultiIn = false := by
    obtain ⟨g, hg⟩ := Kind.exists_generate hx
    rw [hg]
    rfl
  split
  · rfl
  · split
    · rfl
    · split <;> simp [withKind, Processor.withKind, goto, Ports.take, Ports.countEof, Ports.resetInput,
        Processor.countEof, Processor.resetInput, ha.multiIn, hx']
  · rfl
  · split
    · rfl
    · split <;> simp [withKind, Processor.withKind, goto, Ports.take, Ports.countEof, Processor.countEof, ha.multiIn,
        hx']
  · rfl

/-- It pushes alike. -/
theorem withKind_pushed (o : Nat) (v : Option V) : (x.withKind k).pushed o v = (x.pushed o v).withKind k := by
  have ha := withKind_alike hx hk
  have hctl : (x.withKind k).ctl = x.ctl := rfl
  have hx' : x.obj.kind.isMultiOut = false := by
    obtain ⟨g, hg⟩ := Kind.exists_generate hx
    rw [hg]
    rfl
  simp only [pushed, hctl]
  split
  · rfl
  · simp [withKind, Processor.withKind, goto, Ports.give, Ports.resetOutput, Processor.resetOutput, ha.multiOut, hx']
  · rfl
  · rfl
  · rfl

/-- It goes on alike, but for `generate`. -/
theorem withKind_internal (hc : x.ctl ≠ .generate) : (x.withKind k).internal = x.internal.withKind k := by
  obtain ⟨g, hg⟩ := Kind.exists_generate hx
  obtain ⟨g', rfl⟩ := Kind.exists_generate hk
  have hctl : (x.withKind (.source (.generate g'))).ctl = x.ctl := rfl
  have hkind : (x.withKind (.source (.generate g'))).obj.kind = .source (.generate g') := rfl
  cases h : x.ctl with
  | generate => exact absurd h hc
  | start =>
    simp only [internal, hctl, h, Processor.beforeWork, hkind, hg, work, if_true]
    rfl
  | handle i v =>
    simp only [internal, hctl, h, hkind, hg, Kind.onValue, List.map_nil]
    rfl
  | eof i =>
    simp only [internal, hctl, h, ended, hkind, hg, Kind.nin, Nat.not_lt_zero, if_false, Kind.onEof]
    rfl
  | popCheck i v =>
    simp only [internal, hctl, h, checked, Bool.false_eq_true, if_false]
    cases v <;> rfl
  | pushCheck rest next =>
    simp only [internal, hctl, h, checked, Bool.false_eq_true, if_false]
    rfl
  | closeInput c i =>
    simp only [internal, hctl, h, hkind, hg, Kind.nin]
    rfl
  | closeOutput c o =>
    simp only [internal, hctl, h, hkind, hg, Kind.nout]
    rfl
  | afterWork =>
    simp only [internal, hctl, h, hkind, hg, Kind.isChannelSink, Bool.false_eq_true, if_false]
    rfl
  | finished c => simp only [internal, hctl, h]
  | escaped => simp only [internal, hctl, h]
  | dead c => simp only [internal, hctl, h]
  | _ =>
    simp only [internal, hctl, h]
    rfl

end generates

/-- The processor takes the same steps with a class that is its own, or that generates as its own does. -/
theorem withKind_steps (h : k = x.obj.kind ∨ x.obj.kind.generates = true ∧ k.generates = true) :
    (x.withKind k).action = x.action ∧ (∀ i v, (x.withKind k).popped i v = (x.popped i v).withKind k) ∧
      (∀ o v, (x.withKind k).pushed o v = (x.pushed o v).withKind k) ∧
      ((x.ctl = .generate → k = x.obj.kind) → (x.withKind k).internal = x.internal.withKind k) := by
  by_cases hk : k = x.obj.kind
  · subst hk
    have hself : x.withKind x.obj.kind = x := rfl
    refine ⟨by rw [hself], ?_, ?_, ?_⟩
    · intro i v
      rw [hself, ← popped_kind x i v]
      rfl
    · intro o v
      rw [hself, ← pushed_kind x o v]
      rfl
    · intro _
      have hkind : x.internal.obj.kind = x.obj.kind := congrArg (fun ports => ports.obj.kind) (internal_toPorts x)
      rw [hself, ← hkind]
      rfl
  · obtain ⟨hx, hg⟩ := h.resolve_left hk
    refine ⟨withKind_action hx hg, withKind_popped hx hg, withKind_pushed hx hg, ?_⟩
    intro hc
    exact withKind_internal hx hg (fun hgen => hk (hc hgen))

/-- It is in a callback alike. -/
theorem withKind_inCallback (h : k = x.obj.kind ∨ x.obj.kind.generates = true ∧ k.generates = true) :
    (x.withKind k).inCallback = x.inCallback := by
  rcases h with rfl | ⟨hx, hk⟩
  · rfl
  · obtain ⟨g, hg⟩ := Kind.exists_generate hx
    obtain ⟨g', rfl⟩ := Kind.exists_generate hk
    have hctl : (x.withKind (.source (.generate g'))).ctl = x.ctl := rfl
    have hkind : (x.withKind (.source (.generate g'))).obj.kind = .source (.generate g') := rfl
    simp only [inCallback, hctl, hkind, hg, Kind.handles, Kind.generatesAtEof]

/-- It looks at the abort channel alike. -/
theorem withKind_checked (token : Bool) : (x.withKind k).checked token = (x.checked token).withKind k := by
  have hctl : (x.withKind k).ctl = x.ctl := rfl
  cases token with
  | true => rfl
  | false =>
    simp only [checked, hctl, Bool.false_eq_true, if_false]
    split <;> rfl

theorem withKind_notified : x.notified.withKind k = (x.withKind k).notified := by
  have hctl : (x.withKind k).ctl = x.ctl := rfl
  simp only [notified, hctl]
  split <;> rfl

/-- No step changes the class of a processor. -/
theorem Turn.kind {y : Proc V} (ht : x.Turn y) : y.obj.kind = x.obj.kind := by
  cases ht with
  | @popped i q ha v => exact popped_kind x i v
  | @pushed o q v ha => exact pushed_kind x o v
  | checked ha token => exact congrArg (fun ports => ports.obj.kind) (checked_toPorts x token)
  | notified ha => exact congrArg (fun ports => ports.obj.kind) (notified_toPorts x)
  | internal ha => exact congrArg (fun ports => ports.obj.kind) (internal_toPorts x)
  | throw hc => rfl

end Proc

namespace State

variable {s s' : State V} {f : Id → Kind V → Kind V}

/-- A processor with its new callback. -/
theorem withKinds_procs {u : Id} {x : Proc V} (hx : s.procs u = some x) :
    (s.withKinds f).procs u = some (x.withKind (f u x.obj.kind)) := by
  simp only [withKinds, hx, Option.map_some]

/-- Two states with the same processors, and the same around them. -/
theorem eq_of_procs {s t : State V} (hprocs : ∀ u, s.procs u = t.procs u) (hqueues : s.queues = t.queues)
    (htokens : s.tokens = t.tokens) (hcapacity : s.abortCapacity = t.abortCapacity) (hdead : s.dead = t.dead) :
    s = t := by
  rw [State.mk.injEq]
  exact ⟨funext hprocs, hqueues, htokens, hcapacity, hdead⟩

/-- A processor moves with its callback. -/
theorem withKinds_setProc (s : State V) (u : Id) {y : Proc V} {k : Kind V} (hk : f u y.obj.kind = k) :
    (s.setProc u y).withKinds f = (s.withKinds f).setProc u (y.withKind k) := by
  subst hk
  refine eq_of_procs ?_ rfl rfl rfl rfl
  intro v
  by_cases hv : v = u
  · subst hv
    simp [withKinds, setProc]
  · simp [withKinds, setProc, hv]

/-- A step that is no return of a changed `generate` is one with other callbacks as well. -/
theorem withKinds_step {e : Event V} (hf : ∀ u x, s.procs u = some x → f u x.obj.kind = x.obj.kind ∨
      x.obj.kind.generates = true ∧ (f u x.obj.kind).generates = true)
    (he : ∀ u x, e = .run u → s.procs u = some x → x.ctl = .generate → f u x.obj.kind = x.obj.kind)
    (h : s.step e = some s') :
    (s.withKinds f).step e = some (s'.withKinds f) := by
  obtain ⟨hd, hm⟩ := State.step_iff.1 h
  refine State.step_iff.2 ⟨hd, ?_⟩
  cases hm with
  | @pop u x i q v rest hu ha hq =>
    obtain ⟨haction, hpopped, -, -⟩ := Proc.withKind_steps (hf u x hu)
    rw [withKinds_setProc _ u (congrArg (f u) (Proc.popped_kind x i v)), ← hpopped]
    exact .pop (withKinds_procs hu) (haction.trans ha) hq
  | @push u x o q v hu ha hq =>
    obtain ⟨haction, -, hpushed, -⟩ := Proc.withKind_steps (hf u x hu)
    rw [withKinds_setProc _ u (congrArg (f u) (Proc.pushed_kind x o v)), ← hpushed]
    exact .push (withKinds_procs hu) (haction.trans ha) hq
  | @tryPop u x hu ha =>
    obtain ⟨haction, -, -, -⟩ := Proc.withKind_steps (hf u x hu)
    rw [withKinds_setProc _ u (congrArg (f u) (Proc.Turn.checked ha _).kind), ← Proc.withKind_checked]
    exact .tryPop (withKinds_procs hu) (haction.trans ha)
  | @tryPush u x hu ha =>
    obtain ⟨haction, -, -, -⟩ := Proc.withKind_steps (hf u x hu)
    rw [withKinds_setProc _ u (congrArg (f u) (Proc.Turn.notified ha).kind), Proc.withKind_notified]
    exact .tryPush (withKinds_procs hu) (haction.trans ha)
  | @internal u x hu ha =>
    obtain ⟨haction, -, -, hinternal⟩ := Proc.withKind_steps (hf u x hu)
    rw [withKinds_setProc _ u (congrArg (f u) (Proc.Turn.internal ha).kind), ← hinternal (he u x rfl hu)]
    exact .internal (withKinds_procs hu) (haction.trans ha)
  | @throw u x standard hu hc =>
    rw [withKinds_setProc _ u rfl]
    exact .throw (withKinds_procs hu) ((Proc.withKind_inCallback (hf u x hu)).trans hc)
  | send hq => exact .send hq
  | receive hq => exact .receive hq
  | addToken ht => exact .addToken ht
  | takeToken ht => exact .takeToken ht

end State

/-- A run with other callbacks starts as the pipeline with other callbacks does. -/
theorem Pipeline.withKinds_start (p : Pipeline V) (f : Id → Kind V → Kind V) (pre : UserChannel → List (Option V))
    (tokens : Nat) :
    (p.withKinds f).start pre tokens = (p.start pre tokens).withKinds f := by
  refine State.eq_of_procs ?_ rfl rfl rfl rfl
  intro u
  simp only [start, withKinds, State.withKinds, PMap.get_mapVals, Option.map_map]
  rfl

end Tunnel
