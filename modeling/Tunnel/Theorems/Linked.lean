import Tunnel.Lemmas.Linked
import Tunnel.Theorems.ForkConcat
import Tunnel.Theorems.Returns

/-!
# Pipelines that sockets connect

A run of two pipelines that sockets connect is, on each side, a run of the pipeline there by itself (`linked_runs`): on
the left of the pipeline as it is, on the right of the pipeline with sources that generate what the sinks on the left
consume.
-/

namespace Tunnel

open Lib

variable {V : Type}

variable {s : State V} {p : Pipeline V} {U : Finset Id} {pre : UserChannel → List (Option V)} {tokens : Nat}

/-- What the sink in a place has consumed. -/
theorem State.consumed_place {sinks : List Id} {i : Nat} {a : Id} {x : Proc V} (ha : sinks[i]? = some a)
    (hx : s.procs a = some x) :
    ((sinks.map s.consumed)[i]?).getD [] = x.calls := by
  rw [List.getElem?_map, ha]
  simp only [Option.map_some, Option.getD_some, State.consumed, hx]

/-! ## The left pipeline -/

/-- What a callback was called with only grows, and not once the processor has finished. -/
theorem State.Reaches.calls {s' : State V} (h : s.Reaches s') {u : Id} {x : Proc V} (hx : s.procs u = some x) :
    ∃ y, s'.procs u = some y ∧ x.calls <+: y.calls ∧ (x.ctl.isFinished = true → y = x) := by
  refine h.induct (I := fun s' => ∃ y, s'.procs u = some y ∧ x.calls <+: y.calls ∧ (x.ctl.isFinished = true → y = x))
    ⟨x, hx, List.prefix_refl _, fun _ => rfl⟩ ?_
  intro a b e hI _ hm
  obtain ⟨y, hy, hpre, hend⟩ := hI
  obtain ⟨z, hz, ⟨-, hturn⟩ | ⟨-, rfl⟩⟩ := hm.proc hy
  · refine ⟨z, hz, ?_, ?_⟩
    · rcases hturn.counts.1 with heq | ⟨i, v, -, heq⟩
      · rw [heq]
        exact hpre
      · rw [heq]
        exact hpre.trans (List.prefix_append _ _)
    · intro hf
      have hnot := hturn.not_finished
      rw [hend hf, hf] at hnot
      cases hnot
  · exact ⟨z, hz, hpre, hend⟩

namespace Deployment

variable {d : Deployment V} {c c' : Linked V} {e : LinkedEvent V}

/-- What the left pipeline sees of a step is a step of it. -/
theorem left_step (hm : LinkedMoves d c e c') :
    e.onLeft = none ∧ c'.left = c.left ∨ ∃ e', e.onLeft = some e' ∧ c.left.step e' = some c'.left := by
  cases hm with
  | right haside hs => exact .inl ⟨rfl, rfl⟩
  | generate hu hy hc hd hr => exact .inl ⟨rfl, rfl⟩
  | left haside hs => exact .inr ⟨_, rfl, hs⟩
  | consume hu hx hc hw hs => exact .inr ⟨_, rfl, hs⟩
  | afterWork hu hx hc hw hs => exact .inr ⟨_, rfl, hs⟩
  | breaks hu hx hc hw hs => exact .inr ⟨_, rfl, hs⟩
  | eofBreaks hu hx hc hw hs => exact .inr ⟨_, rfl, hs⟩

/-- The left pipeline runs by itself. -/
theorem left_runAll {es : List (LinkedEvent V)} (h : d.runAll c es = some c') :
    c.left.runAll (es.filterMap LinkedEvent.onLeft) = some c'.left := by
  induction es generalizing c with
  | nil =>
    cases h
    rfl
  | cons e rest ih =>
    obtain ⟨c₁, hstep, hrest⟩ := Option.bind_eq_some_iff.1 h
    rcases left_step (step_moves hstep) with ⟨he, hsame⟩ | ⟨e', he, hone⟩
    · rw [List.filterMap_cons_none he, ← hsame]
      exact ih hrest
    · rw [List.filterMap_cons_some he]
      exact Option.bind_eq_some_iff.2 ⟨c₁.left, hone, ih hrest⟩

/-! ## The right pipeline -/

/-- The sources of the right pipeline, generating what the sinks on the left have consumed in `s`. -/
def feeds (d : Deployment V) (s : State V) (u : Id) (k : Kind V) : Kind V :=
  if u ∈ d.right.sources then .source (.ofList (((d.left.sinks.map s.consumed)[d.right.sources.idxOf u]?).getD []))
    else k

/-- The pipelines and the codec that a deployment needs: both pipelines are built and can be run, their callbacks keep
no state, there is a source for each sink, and every value goes through the codec into a frame and back. -/
structure Ready (d : Deployment V) (U U' : Finset Id) (enc : V → Bytes) : Prop where
  left : Built Call.Proper d.left U
  right : Built Call.Proper d.right U'
  runsLeft : d.left.runChecks true = .ok ()
  runsRight : d.right.runChecks true = .ok ()
  pureLeft : d.left.Pure
  pureRight : d.right.Pure
  places : d.left.sinks.length = d.right.sources.length
  codec : d.codec.RoundTrips d.writer d.reader enc
  fits : ∀ v, FrameFits (enc v)

namespace Ready

variable {U U' : Finset Id} {enc : V → Bytes} (hd : d.Ready U U' enc)
include hd

theorem networkLeft : Network d.left U := built_network hd.left (Pipeline.runChecks_ok hd.runsLeft).1

theorem networkRight : Network d.right U' := built_network hd.right (Pipeline.runChecks_ok hd.runsRight).1

/-- A step keeps the invariant. -/
theorem inv_step (hI : d.Inv enc c) (h : d.step c e = some c') : d.Inv enc c' :=
  hI.moves hd.networkLeft hd.pureLeft hd.networkRight hd.codec hd.fits (step_moves h)

variable {es : List (LinkedEvent V)}

/-- So does a run. -/
theorem inv_run (hI : d.Inv enc c) (h : d.runAll c es = some c') : d.Inv enc c' := by
  induction es generalizing c with
  | nil =>
    cases h
    exact hI
  | cons e rest ih =>
    obtain ⟨c₁, hstep, hrest⟩ := Option.bind_eq_some_iff.1 h
    exact ih (hd.inv_step hI hstep) hrest

/-- A source and the sink in its place. -/
theorem place {u : Id} (hu : u ∈ d.right.sources) :
    ∃ a, d.left.sinks[d.right.sources.idxOf u]? = some a ∧ a ∈ d.left.nodes.keys := by
  have hlt : d.right.sources.idxOf u < d.left.sinks.length := by
    rw [hd.places]
    exact List.idxOf_lt_length_iff.2 hu
  have ha := List.getElem?_eq_getElem hlt
  exact ⟨_, ha, hd.networkLeft.sound.sink_mem (List.mem_of_getElem? ha)⟩

/-- Only the sources generate something else. -/
theorem feeds_kind (hI : d.Inv enc c) (s : State V) (u : Id) (y : Proc V) (hy : c.right.procs u = some y) :
    d.feeds s u y.obj.kind = y.obj.kind ∨ y.obj.kind.generates = true ∧ (d.feeds s u y.obj.kind).generates = true := by
  obtain ⟨n, hn, hk⟩ := hI.kinds u y hy
  by_cases hu : u ∈ d.right.sources
  · refine .inr ⟨?_, by rw [feeds, if_pos hu]; rfl⟩
    obtain ⟨m, hm, hsource⟩ := (hd.networkRight.sound.sources_iff u).1 hu
    cases hm.symm.trans hn
    have hpure := hd.pureRight u n hn
    rw [hk]
    cases hkind : n.kind with
    | source k =>
      cases k with
      | generate g => rfl
      | channel ch => rw [hkind] at hpure; exact absurd hpure not_false
    | _ => rw [hkind] at hsource; cases hsource
  · exact .inl (if_neg hu)

/-- What `generate` returns is what the sink in the place of the source has consumed in the end, and the EOF behind it.
-/
theorem reads_feed (hI : d.Inv enc c) {s : State V} (hs : c.left.Reaches s) {u : Id} (hu : u ∈ d.right.sources)
    {y : Proc V} (hy : c.right.procs u = some y) (hc : y.ctl = .generate) {v : Option V} {k : Connection}
    (hread : d.readFrom (c.connections (d.right.sources.idxOf u)) = some (v, k)) :
    v = (((d.left.sinks.map s.consumed)[d.right.sources.idxOf u]?).getD [])[y.generated]? := by
  obtain ⟨a, ha, hmem⟩ := hd.place hu
  obtain ⟨n, hn⟩ := (d.left.nodes.mem_keys_iff a).1 hmem
  obtain ⟨x, hx, -⟩ := hI.left.proc hn
  obtain ⟨z, hz, hpre, hend⟩ := hs.calls hx
  obtain ⟨hle, hpos⟩ := (hI.received _ a u x y ha (List.getElem?_idxOf hu) hx hy).asks (by rw [hc]; rfl)
  rw [State.consumed_place ha hz]
  rcases (hI.sent _ a x ha hx).readFrom hd.codec hd.fits hle hpos hread with ⟨w, rfl, hw, -⟩ | ⟨rfl, hlen, hfin, -⟩
  · obtain ⟨more, hmore⟩ := hpre
    obtain ⟨hlt, -⟩ := List.getElem?_eq_some_iff.1 hw
    rw [← hmore, List.getElem?_append_left hlt, hw]
  · rw [hend (by rw [hfin]; rfl)]
    exact (List.getElem?_eq_none (Nat.le_of_eq hlen.symm)).symm

/-- What the right pipeline sees of a step is a step of the pipeline with these sources. -/
theorem right_step (hI : d.Inv enc c) (hm : LinkedMoves d c e c') {s : State V} (hs : c.left.Reaches s) :
    e.onRight = none ∧ c'.right = c.right ∨
      ∃ e', e.onRight = some e' ∧ (c.right.withKinds (d.feeds s)).step e' = some (c'.right.withKinds (d.feeds s)) := by
  cases hm with
  | left haside hs => exact .inl ⟨rfl, rfl⟩
  | consume hu hx hc hw hs => exact .inl ⟨rfl, rfl⟩
  | afterWork hu hx hc hw hs => exact .inl ⟨rfl, rfl⟩
  | breaks hu hx hc hw hs => exact .inl ⟨rfl, rfl⟩
  | eofBreaks hu hx hc hw hs => exact .inl ⟨rfl, rfl⟩
  | right haside hstep =>
    refine .inr ⟨_, rfl, State.withKinds_step (hd.feeds_kind hI s) ?_ hstep⟩
    rintro u y rfl hy hc
    exact if_neg (fun hu => atSource_eq_false haside hu hy hc)
  | @generate u y v k hu hy hc halive hread =>
    have hv := hd.reads_feed hI hs hu hy hc hread
    have hkind : d.feeds s u y.obj.kind =
        .source (.ofList (((d.left.sinks.map s.consumed)[d.right.sources.idxOf u]?).getD [])) := if_pos hu
    have hproc := State.withKinds_procs (f := d.feeds s) hy
    rw [hkind] at hproc
    have hset : (c.right.setProc u (y.returns v)).withKinds (d.feeds s) =
        (c.right.withKinds (d.feeds s)).setProc u ((y.returns v).withKind _) :=
      c.right.withKinds_setProc u hkind
    rw [hv, ← Proc.withKind_generating hc] at hset
    refine .inr ⟨_, rfl, State.step_iff.2 ⟨halive, ?_⟩⟩
    rw [hv]
    exact hset ▸ .internal hproc (by simp only [Proc.action, Proc.withKind, hc])

/-- The right pipeline runs, fed from the left. -/
theorem right_runAll (hI : d.Inv enc c) (h : d.runAll c es = some c') :
    (c.right.withKinds (d.feeds c'.left)).runAll (es.filterMap LinkedEvent.onRight) =
    some (c'.right.withKinds (d.feeds c'.left)) := by
  induction es generalizing c with
  | nil =>
    cases h
    rfl
  | cons e rest ih =>
    obtain ⟨c₁, hstep, hrest⟩ := Option.bind_eq_some_iff.1 h
    have hreach : c.left.Reaches c'.left := State.Reaches.of_runAll _ (left_runAll h)
    have hih := ih (hd.inv_step hI hstep) hrest
    rcases hd.right_step hI (step_moves hstep) hreach with ⟨he, hsame⟩ | ⟨e', he, hone⟩
    · rw [List.filterMap_cons_none he, ← hsame]
      exact hih
    · rw [List.filterMap_cons_some he]
      exact Option.bind_eq_some_iff.2 ⟨_, hone, hih⟩

/-- On the right runs the pipeline whose sources generate what the sinks on the left have consumed. -/
theorem right_runs {pre pre' : UserChannel → List (Option V)} {tokens tokens' : Nat}
    (h : d.runAll (d.start pre pre' tokens tokens') es = some c) :
    ((d.right.withSources (d.left.sinks.map c.left.consumed)).start pre' tokens').runAll
    (es.filterMap LinkedEvent.onRight) =
      some (c.right.withKinds (d.feeds c.left)) := by
  rw [Pipeline.withSources, Pipeline.withKinds_start]
  exact hd.right_runAll (d.inv_start enc pre pre' tokens tokens') h

end Ready

end Deployment

/-! ## What a source passes on -/

theorem Kind.generated_getElem? (values : List V) : Kind.generated (fun k => values[k]?) = values := by
  have hnone : values[values.length]? = none := List.getElem?_eq_none (Nat.le_refl _)
  have hsome : ∀ k < values.length, (values[k]?).isSome = true := by
    intro k hk
    rw [List.getElem?_eq_getElem hk]
    rfl
  rw [Kind.generated_eq hnone hsome, ForkConcat.filterMap_getElem?, List.take_length]

/-- A source that generates the values of a list has passed on a beginning of it, and all of it once it has finished
without an exception. -/
theorem Network.passes (hnet : Network p U) (hs : (p.start pre tokens).Reaches s) {u : Id} {n : Processor V}
    {values : List V} (hn : p.nodes.get u = some n) (hk : n.kind = .source (.ofList values)) {y : Proc V}
    (hy : s.procs u = some y) :
    s.valuesOut u 0 <+: values ∧
    (y.ctl = .finished none → s.valuesOut u 0 = values ∧ y.generated = values.length + 1) := by
  have htracked := Proc.Tracked.turns (hnet.ready hn) (hs.turns hn hy)
  have hnout : 0 < n.kind.nout := by
    rw [hk]
    exact Nat.one_pos
  have hout : s.valuesOut u 0 = (y.put 0).reduceOption := by simp only [State.valuesOut, hy]
  rw [hout]
  refine ⟨?_, ?_⟩
  · obtain ⟨closed, hheld⟩ := htracked.held
    have hputs := hheld.puts 0 hnout
    rw [hk] at hputs
    refine hputs.trans ?_
    show (List.range y.generated).filterMap (fun k => values[k]?) <+: values
    rw [ForkConcat.filterMap_getElem?]
    exact List.take_prefix _ _
  · intro hc
    have hflow := htracked.flow (by rw [hc]; rfl)
    have hsource := hflow.source _ hk
    rw [hc] at hsource
    obtain ⟨m, hm, hnone, hsome⟩ := hsource
    have hlen : m = values.length := by
      refine Nat.le_antisymm ?_ (List.getElem?_eq_none_iff.1 hnone)
      by_contra hlt
      have := hsome values.length (Nat.not_le.1 hlt)
      simp at this
    subst hlen
    refine ⟨?_, hm⟩
    rw [(hflow.finished hc).2 0 hnout, hk]
    exact Kind.generated_getElem? values

/-- What a source has passed on of what the sink in its place has consumed. -/
theorem Deployment.Ready.passes {d : Deployment V} {U' : Finset Id} {enc : V → Bytes} (hd : d.Ready U U' enc)
    {pre' : UserChannel → List (Option V)} {tokens' : Nat} {es : List (LinkedEvent V)} {c : Linked V}
    (h : d.runAll (d.start pre pre' tokens tokens') es = some c) {i : Nat} {a b : Id} {y : Proc V}
    (ha : d.left.sinks[i]? = some a) (hb : d.right.sources[i]? = some b) (hy : c.right.procs b = some y) :
    ∃ x, c.left.procs a = some x ∧ c.right.valuesOut b 0 <+: x.calls ∧
      (y.ctl = .finished none →
        c.right.valuesOut b 0 = x.calls ∧ x.ctl = .finished none ∧ (c.connections i).failed = false ∧
        x.calls ≠ []) := by
  have hI := hd.inv_run (d.inv_start enc pre pre' tokens tokens') h
  obtain ⟨n, hn⟩ := (d.left.nodes.mem_keys_iff a).1 (hd.networkLeft.sound.sink_mem (List.mem_of_getElem? ha))
  obtain ⟨m, hm, -⟩ := hI.kinds b y hy
  obtain ⟨x, hx, -⟩ := hI.left.proc hn
  have hnode := Pipeline.withSources_get (d.left.sinks.map c.left.consumed) hd.networkRight.sound.sources_nodup hb hm
  rw [State.consumed_place ha hx] at hnode
  have hnet := Pipeline.withSources_network hd.networkRight hd.pureRight (d.left.sinks.map c.left.consumed)
  have hproc := State.withKinds_procs (f := d.feeds c.left) hy
  obtain ⟨hpre, hend⟩ := hnet.passes (State.Reaches.of_runAll _ (hd.right_runs h)) hnode rfl hproc
  have hout : (c.right.withKinds (d.feeds c.left)).valuesOut b 0 = c.right.valuesOut b 0 := by
    simp only [State.valuesOut, hproc, hy]
    rfl
  rw [hout] at hpre hend
  refine ⟨x, hx, hpre, ?_⟩
  intro hc
  obtain ⟨hall, hcount⟩ := hend hc
  have hlt : x.calls.length < y.generated := Nat.lt_of_lt_of_eq (Nat.lt_succ_self _) hcount.symm
  exact ⟨hall, (hI.received i a b x y ha hb hx hy).ahead hlt⟩

/-- Two pipelines without state, the sinks of one connected to the sources of the other by sockets. Whatever fails, on
the left runs the pipeline as it would by itself, and on the right the pipeline with sources that generate what the
sinks on the left have consumed. No value is lost, doubled or out of order on the way: what a source has passed on is a
beginning of what the sink in its place has consumed. Where a source has finished without an exception, so has the sink,
and the source has passed on all of it. -/
theorem linked_runs {d : Deployment V} {U U' : Finset Id} {enc : V → Bytes} (hd : d.Ready U U' enc)
    {pre pre' : UserChannel → List (Option V)} {tokens tokens' : Nat} {es : List (LinkedEvent V)} {c : Linked V}
    (h : d.runAll (d.start pre pre' tokens tokens') es = some c) :
    (d.left.start pre tokens).runAll (es.filterMap LinkedEvent.onLeft) = some c.left ∧
    ((d.right.withSources (d.left.sinks.map c.left.consumed)).start pre' tokens').runAll
    (es.filterMap LinkedEvent.onRight) =
      some (c.right.withKinds (d.feeds c.left)) ∧
    ∀ (i : Nat) a b y, d.left.sinks[i]? = some a → d.right.sources[i]? = some b → c.right.procs b = some y →
      c.right.valuesOut b 0 <+: c.left.consumed a ∧
      (y.ctl = .finished none → c.right.valuesOut b 0 = c.left.consumed a ∧
        (∃ x, c.left.procs a = some x ∧ x.ctl = .finished none) ∧ (c.connections i).failed = false) := by
  refine ⟨Deployment.left_runAll h, hd.right_runs h, ?_⟩
  intro i a b y ha hb hy
  obtain ⟨x, hx, hpre, hend⟩ := hd.passes h ha hb hy
  have hcalls : c.left.consumed a = x.calls := by simp only [State.consumed, hx]
  rw [hcalls]
  refine ⟨hpre, ?_⟩
  intro hc
  obtain ⟨hall, hfin, hfail, -⟩ := hend hc
  exact ⟨hall, ⟨x, hx, hfin⟩, hfail⟩

/-- A source of two values before a sink. -/
def sending : Pipeline UInt32 × Finset Id :=
  Pipeline.ofCalls Call.Proper {} [.addSource 1 "source" (.ofList [7, 8]), .setSink 2 "sink" .consume (.single 1)]

/-- A source before a sink. -/
def receiving : Pipeline UInt32 × Finset Id :=
  Pipeline.ofCalls Call.Proper {} [.addSource 3 "source" (.ofList []), .setSink 4 "sink" .consume (.single 3)]

/-- The two on hosts of different byte orders, with a connection that does not hold a frame. -/
def twoHosts : Deployment UInt32 where
  left := sending.1
  right := receiving.1
  codec := uint32Codec
  writer := .little
  reader := .big
  window _ := 8

theorem sending_keys : ∀ v ∈ sending.1.nodes.keys, v = 1 ∨ v = 2 := by decide

theorem receiving_keys : ∀ v ∈ receiving.1.nodes.keys, v = 3 ∨ v = 4 := by decide

theorem twoHosts_ready : twoHosts.Ready sending.2 receiving.2 (fun v => encodeIntegral v.toBitVec) where
  left := built_ofCalls _ _ _
  right := built_ofCalls _ _ _
  runsLeft := rfl
  runsRight := rfl
  pureLeft := by
    intro u n hn
    rcases sending_keys u (PMap.mem_keys_of_get hn) with rfl | rfl <;> cases hn <;> trivial
  pureRight := by
    intro u n hn
    rcases receiving_keys u (PMap.mem_keys_of_get hn) with rfl | rfl <;> cases hn <;> trivial
  places := rfl
  codec := uint32Codec_roundTrips .little .big
  fits := frameFits_uint32

/-- The right pipeline waits, and then takes each value as soon as it is there. -/
def takeEach : List (LinkedEvent UInt32) :=
  let left (ids : List Id) : List (LinkedEvent UInt32) := ids.map (fun u => .left (.run u))
  let right (ids : List Id) : List (LinkedEvent UInt32) := ids.map (fun u => .right (.run u))
  let pass := [.write 2 .always, .generate 3] ++ right [3, 4, 4, 4, 3]
  right [4, 3] ++ left [2, 1, 1, 1, 2, 2] ++ pass ++ left [1, 1, 1, 2, 2] ++ pass ++ left [1, 1, 1, 2, 2] ++ pass ++
    right [3] ++ left [1, 1]

/-- Everything has finished, and both sinks have consumed the two values. -/
theorem takeEach_ends : ∃ c, twoHosts.runAll (twoHosts.start (fun _ => []) (fun _ => []) 0 0) takeEach = some c ∧
    c.left.Completed ∧ c.right.Completed ∧ c.left.consumed 2 = [7, 8] ∧ c.right.consumed 4 = [7, 8] ∧
    ∃ y, c.right.procs 3 = some y ∧ y.ctl = .finished none := by
  have hrun : (twoHosts.runAll (twoHosts.start (fun _ => []) (fun _ => []) 0 0) takeEach).map (fun c =>
      ([1, 2].map (fun u => (c.left.procs u).map (·.ctl)) ++ [3, 4].map (fun u => (c.right.procs u).map (·.ctl)),
        c.left.consumed 2, c.right.consumed 4)) = some (List.replicate 4 (some (.finished none)), [7, 8], [7, 8]) := by
    decide +kernel
  obtain ⟨c, hc, hend⟩ := Option.map_eq_some_iff.1 hrun
  simp only [List.map_cons, List.map_nil, List.cons_append, List.nil_append, List.replicate_succ, List.replicate_zero,
    Prod.mk.injEq, List.cons.injEq, and_true] at hend
  obtain ⟨⟨h1, h2, h3, h4⟩, hleft, hright⟩ := hend
  have hI := twoHosts_ready.inv_run (twoHosts.inv_start _ _ _ _ _) hc
  refine ⟨c, hc, ?_, ?_, hleft, hright, Option.map_eq_some_iff.1 h3⟩
  · intro u x hx
    obtain ⟨n, hn, -⟩ := hI.left.node hx
    rcases sending_keys u (PMap.mem_keys_of_get hn) with rfl | rfl
    · rw [hx] at h1
      exact Option.some.inj h1
    · rw [hx] at h2
      exact Option.some.inj h2
  · intro u x hx
    obtain ⟨n, hn, -⟩ := hI.kinds u x hx
    rcases receiving_keys u (PMap.mem_keys_of_get hn) with rfl | rfl
    · rw [hx] at h3
      exact Option.some.inj h3
    · rw [hx] at h4
      exact Option.some.inj h4

/-- The source on the right has passed on the two values that the sink on the left consumed. -/
theorem linked_runs_two : ∃ c, twoHosts.runAll (twoHosts.start (fun _ => []) (fun _ => []) 0 0) takeEach = some c ∧
    c.left.consumed 2 = [7, 8] ∧ c.right.valuesOut 3 0 = [7, 8] ∧
    (sending.1.start (fun _ => []) 0).runAll (takeEach.filterMap LinkedEvent.onLeft) = some c.left := by
  obtain ⟨c, hc, -, -, hleft, -, y, hy, hfin⟩ := takeEach_ends
  obtain ⟨hrun, -, hpass⟩ := linked_runs twoHosts_ready hc
  exact ⟨c, hc, hleft, (((hpass 0 2 3 y rfl rfl hy).2 hfin).1).trans hleft, hrun⟩

/-! ## The same as the merged pipeline -/

section sources

variable {p : Pipeline V} {U : Finset Id} (hs : Sound p U) (hp : p.Pure) {seqs seqs' : List (List V)}
include hs hp

/-- What comes to a queue is what comes at the same outputs, whatever the sources generate. -/
theorem Pipeline.withSources_joined {outs outs' : Id → Nat → Multiset V} (h : ∀ u o, outs u o = outs' u o)
    (q : Option Queue) :
    (p.withSources seqs).joined outs q = (p.withSources seqs').joined outs' q := by
  cases q with
  | none => rfl
  | some q =>
    have hwriters : (p.withSources seqs).writers q = (p.withSources seqs').writers q :=
      (withKinds_writers (withSources_alike hs hp seqs) q).trans
        (withKinds_writers (withSources_alike hs hp seqs') q).symm
    simp only [joined, hwriters]
    exact Finset.sum_congr rfl (fun w _ => h w.1 w.2)

variable (h : ∀ i : Nat, ((seqs[i]?).getD [] : Multiset V) = ((seqs'[i]?).getD [] : Multiset V))
include h

/-- How often a value comes at an output does not depend on the order of what the sources generate. -/
theorem Pipeline.withSources_denote (depth : Nat) (u : Id) (o : Nat) :
    (p.withSources seqs).denote depth u o = (p.withSources seqs').denote depth u o := by
  induction depth generalizing u o with
  | zero => rfl
  | succ depth ih =>
    have hjoined : ∀ q, (p.withSources seqs).joined _ q = (p.withSources seqs').joined _ q :=
      withSources_joined hs hp ih
    cases hn : p.nodes.get u with
    | none => simp only [denote, withSources, withKinds, PMap.get_mapVals, hn, Option.map_none]
    | some n =>
      by_cases hu : u ∈ p.sources
      · have hget : ∀ seqs : List (List V), (p.withSources seqs).denote (depth + 1) u o =
            ((seqs[p.sources.idxOf u]?).getD [] : Multiset V) := by
          intro seqs
          rw [denote, withSources_get seqs hs.sources_nodup (List.getElem?_idxOf hu) hn]
          exact congrArg _ (Kind.generated_getElem? _)
        rw [hget, hget, h]
      · rw [denote, denote, withSources_get_of_notMem seqs hu hn, withSources_get_of_notMem seqs' hu hn]
        simp only [hjoined]

theorem Pipeline.withSources_inflow (n : Processor V) (i : Nat) :
    (p.withSources seqs).inflow n i = (p.withSources seqs').inflow n i := by
  exact withSources_joined hs hp (fun u o => withSources_denote hs hp h _ u o) (n.inChan i)

end sources

/-- What a sink has consumed in two runs that completed. -/
theorem Network.consumed_agree (hnet : Network p U) (hp : p.Pure) {pre' : UserChannel → List (Option V)}
    {tokens' : Nat} {t : State V} (hs : (p.start pre tokens).Reaches s) (ht : (p.start pre' tokens').Reaches t)
    (hsc : s.Completed) (htc : t.Completed) {b : Id} {n : Processor V} (hn : p.nodes.get b = some n)
    (hk : n.kind.isSink = true) :
    (s.consumed b : Multiset V) = p.inflow n 0 ∧ (t.consumed b : Multiset V) = p.inflow n 0 ∧
    (p.Joinless → s.consumed b = t.consumed b) := by
  obtain ⟨x, y, hx, hy, hagree⟩ := hnet.sinks_agree hp hs ht hsc htc hn hk
  simp only [State.consumed, hx, hy]
  exact hagree

/-- A completed run of a merged pipeline is one of each side, and the sinks on the right consume the same in both. -/
theorem merged_sides {l r : Pipeline V} {UL UR : Finset Id} {noopId : Nat → Id} (hready : MergeReady l r UL UR noopId)
    (hm : Merged l r noopId p) (hl : Network l UL) (hr : Network r UR) (hnet : Network p U) (hpl : l.Pure)
    (hpr : r.Pure) (hs : (p.start pre tokens).Reaches s) (hc : s.Completed) :
    ∃ t w, (l.start pre 0).Runs t ∧ t.Completed ∧ ((r.withSources (l.sinks.map t.consumed)).start pre 0).Runs w ∧
    w.Completed ∧
      ∀ b ∈ r.sinks, s.consumed b = w.consumed b := by
  obtain ⟨t, ht, hleft⟩ := left_run hready hm hl hr hnet hpl hpr hs (fun u x hx => by rw [hc u x hx]; rfl)
  have htc : t.Completed := hleft.completed hl ht hc (fun u x x' => leftView_finished)
  have hseqs : ∀ i x, i < l.sinks.length → s.procs (noopId i) = some x → ((l.sinks.map t.consumed)[i]?).getD [] =
      x.calls := by
    intro i x hi hx
    have ha := List.getElem?_eq_getElem hi
    have hmem := List.mem_of_getElem? ha
    obtain ⟨m, m', hm₁, -, -⟩ := hm.noop i _ _ ha (List.getElem?_eq_getElem (hready.len ▸ hi))
    obtain ⟨y, y', hy, hy', hview⟩ := hleft.procs _ (hready.soundL.sink_mem hmem)
    rw [mergedName_getElem noopId hready.soundL.sinks_nodup ha] at hy
    rw [leftView_sink hmem hm₁] at hview
    cases hx.symm.trans hy
    subst hview
    rw [State.consumed_place ha hy']
    rfl
  obtain ⟨w, hw, hright⟩ := right_run hready hm hl hr hnet hpl hpr hs hc hseqs
  have hwc : w.Completed :=
    hright.completed (Pipeline.withSources_network hr hpr _) hw hc (fun u x x' => rightView_finished)
  refine ⟨t, w, ht, htc, hw, hwc, ?_⟩
  intro b hb
  obtain ⟨n, hn, -⟩ := (hready.soundR.sinks_iff b).1 hb
  have hnot : b ∉ r.sources := fun h => hready.soundR.source_not_sink h hb
  obtain ⟨x, x', hx, hx', hview⟩ := hright.procs b (show b ∈ r.nodes.keys from PMap.mem_keys_of_get hn)
  rw [mergedName_of_notMem hnot] at hx
  rw [rightView_other (r := r.withSources _) hnot] at hview
  obtain ⟨bound, rfl⟩ := hview
  simp only [State.consumed, hx, hx']
  rfl

/-- Two pipelines without state on two hosts compute what `MergePipeline` of them computes on one: where everything has
finished without an exception, each sink on the right has consumed the same values as in any run of the merged pipeline
that ends so; if no queue has two writers, in the same order. -/
theorem linked_merges {d : Deployment V} {U U' : Finset Id} {enc : V → Bytes} (hd : d.Ready U U' enc) {p : Pipeline V}
    {noopId : Nat → Id} (hdis : Disjoint U U') (hnd : ((List.range d.left.sinks.length).map noopId).Nodup)
    (hnew : ∀ i < d.left.sinks.length, noopId i ∉ U ∪ U') (hmerge : d.left.mergePipeline d.right noopId = .ok p)
    {pre pre' pre₀ : UserChannel → List (Option V)} {tokens tokens' tokens₀ : Nat} {es : List (LinkedEvent V)}
    {c : Linked V} (h : d.runAll (d.start pre pre' tokens tokens') es = some c) (hleft : c.left.Completed)
    (hright : c.right.Completed) {s : State V} (hs : (p.start pre₀ tokens₀).Reaches s) (hsc : s.Completed) :
    ∀ b ∈ d.right.sinks, (c.right.consumed b : Multiset V) = s.consumed b ∧
      (d.left.Joinless → d.right.Joinless → c.right.consumed b = s.consumed b) := by
  have hl := hd.networkLeft
  have hr := hd.networkRight
  obtain ⟨-, -, ⟨he, -⟩ | ⟨he, -⟩ | ⟨-, -, hready, hm⟩⟩ :=
    mergePipeline_ok (built_sound hd.left) (built_sound hd.right) hdis hnd hnew hmerge
  · exact absurd he (Pipeline.runChecks_ok hd.runsLeft).2
  · exact absurd he (Pipeline.runChecks_ok hd.runsRight).2
  have hnet := built_network (.mergePipeline noopId hd.left hd.right hdis hnd hnew hmerge) hm.leaves
  obtain ⟨t, w, ht, htc, hw, hwc, hsame⟩ := merged_sides hready hm hl hr hnet hd.pureLeft hd.pureRight hs hsc
  -- the sinks on the left consume the same in both runs
  have hsinks : ∀ a ∈ d.left.sinks, (c.left.consumed a : Multiset V) = t.consumed a ∧
      (d.left.Joinless → c.left.consumed a = t.consumed a) := by
    intro a ha
    obtain ⟨n, hn, hk⟩ := (hl.sound.sinks_iff a).1 ha
    obtain ⟨hxc, hyc, hj⟩ := hl.consumed_agree hd.pureLeft (State.Reaches.of_runAll _ (Deployment.left_runAll h))
      ht.reaches hleft htc hn hk
    exact ⟨hxc.trans hyc.symm, hj⟩
  have hseqs : ∀ i : Nat, (((d.left.sinks.map c.left.consumed)[i]?).getD [] : Multiset V) =
      ((d.left.sinks.map t.consumed)[i]?).getD [] := by
    intro i
    rw [List.getElem?_map, List.getElem?_map]
    cases ha : d.left.sinks[i]? with
    | none => rfl
    | some a => exact (hsinks a (List.mem_of_getElem? ha)).1
  -- the right side with these sources
  have hpure := Pipeline.withSources_pure hd.pureRight
  have hfed := Pipeline.withSources_network hr hd.pureRight
  have hrun := State.Reaches.of_runAll _ (hd.right_runs h)
  have hend : (c.right.withKinds (d.feeds c.left)).Completed := by
    intro u y hy
    obtain ⟨z, hz, rfl⟩ := Option.map_eq_some_iff.1 hy
    exact hright u z hz
  intro b hb
  obtain ⟨n, hn, hk⟩ := (hr.sound.sinks_iff b).1 hb
  have hnot : b ∉ d.right.sources := fun hsource => hr.sound.source_not_sink hsource hb
  have hn' := fun seqs => Pipeline.withSources_get_of_notMem (p := d.right) seqs hnot hn
  have hconsumed : (c.right.withKinds (d.feeds c.left)).consumed b = c.right.consumed b := by
    simp only [State.consumed, State.withKinds]
    cases c.right.procs b <;> rfl
  rw [hsame b hb, ← hconsumed]
  refine ⟨?_, ?_⟩
  · rw [((hfed _).consumed_agree (hpure _) hrun hrun hend hend (hn' _) hk).1,
      ((hfed _).consumed_agree (hpure _) hw.reaches hw.reaches hwc hwc (hn' _) hk).1,
      Pipeline.withSources_inflow hr.sound hd.pureRight hseqs]
  · intro hjl hjr
    have hmap : d.left.sinks.map t.consumed = d.left.sinks.map c.left.consumed :=
      List.map_congr_left (fun a ha => ((hsinks a ha).2 hjl).symm)
    rw [hmap] at hw
    obtain ⟨-, -, hj⟩ := (hfed _).consumed_agree (hpure _) hrun hw.reaches hend hwc (hn' _) hk
    exact hj (Pipeline.withSources_joinless hr.sound hd.pureRight hjr _)

/-- `MergePipeline` of the two pipelines. -/
def oneHost : Pipeline UInt32 := (sending.1.mergePipeline receiving.1 (fun _ => 5)).toOption.getD {}

/-- A run of it to its end. -/
def passTwoValues : List Id :=
  [4, 5, 1, 1, 1, 5, 5, 5, 5, 4, 4, 4, 5, 1, 1, 1, 5, 5, 5, 5, 4, 4, 4, 5, 1, 1, 1, 5, 5, 5, 4, 4, 4, 5, 5, 1, 1]

/-- On two hosts and on one, the sink on the right consumes the two values. -/
theorem linked_merges_two : ∃ c s, twoHosts.runAll (twoHosts.start (fun _ => []) (fun _ => []) 0 0) takeEach = some c ∧
    (oneHost.start (fun _ => []) 0).Reaches s ∧ s.Completed ∧ c.right.consumed 4 = [7, 8] ∧
    (s.consumed 4 : Multiset UInt32) = ([7, 8] : List UInt32) := by
  have hdis : Disjoint sending.2 receiving.2 := by decide
  have hnd : ((List.range sending.1.sinks.length).map (fun _ => 5)).Nodup := by decide
  have hnew : ∀ i < sending.1.sinks.length, (fun _ => 5) i ∉ sending.2 ∪ receiving.2 := by decide
  have hmerge : sending.1.mergePipeline receiving.1 (fun _ => 5) = .ok oneHost := rfl
  obtain ⟨c, hc, hleft, hright, -, hsink, -⟩ := takeEach_ends
  have hrun := State.Reaches.of_runAll (s := oneHost.start (fun _ => []) 0) (passTwoValues.map .run) rfl
  have hkeys : ∀ v ∈ oneHost.nodes.keys, v = 1 ∨ v = 5 ∨ v = 4 := by decide
  have hnet := built_network (.mergePipeline _ twoHosts_ready.left twoHosts_ready.right hdis hnd hnew hmerge) rfl
  have hend : State.Completed _ := .of_keys (hnet.running hrun) (fun u hu => by
    rcases hkeys u hu with rfl | rfl | rfl <;> exact ⟨_, rfl, rfl⟩)
  have hsame := (linked_merges twoHosts_ready hdis hnd hnew hmerge hc hleft hright hrun hend 4 (by decide)).1
  exact ⟨c, _, hc, hrun, hend, hsink, by rw [← hsame, hsink]⟩

end Tunnel
