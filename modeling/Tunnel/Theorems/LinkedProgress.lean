import Tunnel.Theorems.Linked

/-!
# Where pipelines that sockets connect come to their end

A `SocketSink` waits as long as its connection is full, so that a processor on the left may wait for one on the right.
When nobody can go on, a sink that waits to write has a source that waits to push (`source_waits`), and a source that
waits to read has a sink that waits to pop (`sink_waits`): the chains of waiting processors go on from one pipeline to
the other, and end at a `Fork` or a `Dispatch` on the left above a `Concat` on the right, if there is one.

A `SocketSink` connects when it consumes its first value. So the right pipeline comes to its end only if every sink on
the left has consumed something: the `SocketSource` of a sink without values waits for a connection for ever.
-/

namespace Tunnel

open Lib Relation

variable {V : Type}

/-! ## Writes where everything succeeds -/

section always

variable {codec : UserCodec V} {writer reader : Endian} {enc : V → Bytes}

/-- A write that is given room succeeds. -/
theorem SocketSink.writePackage_always (s : SocketSink) (host : Endian) (pkg : Package)
    (hdata : FitsLength pkg.binData) :
    ∃ s', s.writePackage host .always pkg = .ok s' := by
  rw [writePackage, (lawful_package host host).writes pkg [] hdata]
  exact ⟨_, rfl⟩

/-- So does `consume`. -/
theorem SocketSink.consume_always (hcodec : codec.RoundTrips writer reader enc) (s : SocketSink) {v : V}
    (hfits : FrameFits (enc v)) :
    ∃ s', s.consume codec writer .always v = .ok s' := by
  simp only [consume, write, hcodec.writes, Except.mapError, bind, Except.bind]
  split
  · exact writePackage_always _ writer { eof := false, binData := enc v } hfits.data
  · exact writePackage_always s writer { eof := false, binData := enc v } hfits.data

/-- So does `after_work`. -/
theorem SocketSink.afterWork_always (s : SocketSink) : ∃ s', s.afterWork writer .always = .ok s' := by
  simp only [afterWork, writeEof, bind, Except.bind]
  split
  · obtain ⟨s', h'⟩ := writePackage_always s writer { eof := true, binData := [] } (Nat.zero_le _)
    rw [h']
    exact ⟨_, rfl⟩
  · exact ⟨s, rfl⟩

end always

/-! ## The callbacks that a running pipeline had -/

/-- The callbacks of a pipeline that runs. -/
def State.kindOf (s : State V) (u : Id) (k : Kind V) : Kind V := ((s.procs u).map (fun x => x.obj.kind)).getD k

/-- The class of a running processor. -/
theorem State.kindOf_eq {s : State V} {u : Id} {x : Proc V} (hx : s.procs u = some x) (k : Kind V) :
    s.kindOf u k = x.obj.kind := by
  simp only [kindOf, hx, Option.map_some, Option.getD_some]

/-- The callbacks of a state, put back. -/
theorem State.withKinds_kindOf (s : State V) (f : Id → Kind V → Kind V) : (s.withKinds f).withKinds s.kindOf = s := by
  refine eq_of_procs ?_ rfl rfl rfl rfl
  intro u
  cases hx : s.procs u with
  | none => simp only [withKinds, hx, Option.map_none]
  | some x =>
    simp only [withKinds, hx, Option.map_some, kindOf_eq hx]
    rfl

/-- Other sequences at the sources let nobody wait. -/
theorem Pipeline.Unblocked.withSources {p : Pipeline V} {U : Finset Id} (h : p.Unblocked) (hs : Sound p U) (hp : p.Pure)
    (seqs : List (List V)) :
    (p.withSources seqs).Unblocked := by
  have halike := withSources_alike hs hp seqs
  refine ⟨?_, ?_, ?_⟩
  · intro v m i q hm hi hq
    obtain ⟨n, hn, rfl⟩ := get_of_withKinds hm
    exact h.capacity v n i q hn ((Processor.withKind_inChan (halike v n hn) i).symm.trans hi) hq
  · intro u n hn
    exact (withSources_pure hp seqs u n hn).not_channel
  · intro u v n m hn hm hout hin
    obtain ⟨n', hn', rfl⟩ := get_of_withKinds hn
    obtain ⟨m', hm', rfl⟩ := get_of_withKinds hm
    exact h.concat u v n' m' hn' hm' ((halike u n' hn').multiOut.symm.trans hout)
      ((halike v m' hm').multiIn.symm.trans hin)

/-! ## Runs without exceptions -/

/-- Quiet events are steps of processors on both sides. -/
theorem LinkedEvent.quiet_runs {es : List (LinkedEvent V)} (hes : es.all LinkedEvent.quiet = true) :
    (∃ ids : List Id, es.filterMap LinkedEvent.onLeft = ids.map .run) ∧ ∃ ids :
    List Id, es.filterMap LinkedEvent.onRight = ids.map .run := by
  induction es with
  | nil => exact ⟨⟨[], rfl⟩, [], rfl⟩
  | cons e rest ih =>
    rw [List.all_cons, Bool.and_eq_true] at hes
    obtain ⟨⟨ids, hleft⟩, ids', hright⟩ := ih hes.2
    have hone : (e.onRight = none ∧ ∃ u, e.onLeft = some (.run u)) ∨ e.onLeft = none ∧
        ∃ u, e.onRight = some (.run u) := by
      cases e with
      | left e =>
        cases e with
        | run u => exact .inl ⟨rfl, u, rfl⟩
        | _ => exact absurd hes.1 Bool.false_ne_true
      | write u peer => exact .inl ⟨rfl, u, rfl⟩
      | right e =>
        cases e with
        | run u => exact .inr ⟨rfl, u, rfl⟩
        | _ => exact absurd hes.1 Bool.false_ne_true
      | generate u => exact .inr ⟨rfl, u, rfl⟩
      | breaks u cut => exact absurd hes.1 Bool.false_ne_true
      | eofBreaks u cut => exact absurd hes.1 Bool.false_ne_true
    rcases hone with ⟨hno, u, hyes⟩ | ⟨hno, u, hyes⟩
    · rw [List.filterMap_cons_none hno, List.filterMap_cons_some hyes, hleft, hright]
      exact ⟨⟨u :: ids, rfl⟩, ids', rfl⟩
    · rw [List.filterMap_cons_none hno, List.filterMap_cons_some hyes, hleft, hright]
      exact ⟨⟨ids, rfl⟩, u :: ids', rfl⟩

/-! ## Room in a connection -/

/-- A sink that is not connected writes nothing; otherwise it adds a frame, which a source reads as a whole. -/
theorem Sent.written {d : Deployment V} {enc : V → Bytes} (hcodec : d.codec.RoundTrips d.writer d.reader enc)
    (hfits : ∀ v, FrameFits (enc v)) {x : Proc V} {k : Connection} (h : Sent enc x k) (hk : x.obj.kind = .sink .consume)
    {v : Option V} {peer : Peer} {sink : SocketSink}
    (hctl : (∃ i a, x.ctl = .handle i a ∧ v = some a) ∨ x.ctl = .afterWork ∧ v = none)
    (hw : d.written peer v k.sink = .ok sink) :
    sink.wire = none ∨ ∃ w bytes, sink.wire = some (frames enc x.calls ++ bytes) ∧
      SocketSource.read d.codec d.reader ⟨true, bytes⟩ = .ok (w, ⟨true, []⟩) := by
  rcases hctl with ⟨i, a, hc, rfl⟩ | ⟨hc, rfl⟩
  · have hcalls : x.internal.calls = x.calls ++ [a] := by simp only [Proc.internal, hc]
    have hctl : x.internal.ctl = .pop i := by simp only [Proc.internal, hc, hk, Kind.onValue, List.map_nil, Ctl.emit]
    have hwire := ((h.consume hcodec hfits hk hc hw).working (by rw [hctl]; rfl)).2
    rw [if_neg (by simp [hcalls]), hcalls, frames_append] at hwire
    refine .inr ⟨some a, frames enc [a], hwire, ?_⟩
    rw [frames_cons, SocketSource.read_value hcodec (hfits a)]
    rfl
  · have hwire := (h.afterWork (d := d) hk hc hw).ended (by rw [Proc.internal_afterWork hk hc]) rfl
    rw [Proc.internal_afterWork hk hc] at hwire
    by_cases hnil : x.calls = []
    · exact .inl (hwire.trans (if_pos hnil))
    · refine .inr ⟨none, eofFrame, hwire.trans (if_neg hnil), ?_⟩
      rw [← List.append_nil eofFrame]
      exact SocketSource.read_frame d.codec d.reader (Nat.zero_le _) fitsLength_eof

namespace Deployment

variable {d : Deployment V} {c c' : Linked V}

/-- A source in `generate` that has read everything makes room for a frame of any length. -/
theorem hasRoom_of_reads {enc : V → Bytes} {calls : List V} {i : Nat} {sink : SocketSink} (hreads : d.reads c i = true)
    (hread : (c.connections i).read = (frames enc calls).length)
    (hwire : sink.wire = none ∨ ∃ w bytes, sink.wire = some (frames enc calls ++ bytes) ∧
      SocketSource.read d.codec d.reader ⟨true, bytes⟩ = .ok (w, ⟨true, []⟩)) : d.hasRoom c i sink = true := by
  rcases hwire with hnone | ⟨w, bytes, hsome, hframe⟩
  · simp only [hasRoom, hnone]
  · simp only [hasRoom, hsome, hread, List.drop_left, hreads, if_true, hframe, List.length_nil, Nat.zero_le,
      decide_true]

/-- Nobody in the deployment waits for ever: nobody does in the two pipelines, and no `Fork` or `Dispatch` on the left
is above a `Concat` on the right. -/
structure Unblocked (d : Deployment V) : Prop where
  left : d.left.Unblocked
  right : d.right.Unblocked
  across : ∀ (i : Nat) a b u v n m, d.left.sinks[i]? = some a → d.right.sources[i]? = some b →
    d.left.nodes.get u = some n → d.right.nodes.get v = some m → n.kind.isMultiOut = true → m.kind.isMultiIn = true →
    TransGen d.left.Edge u a → ¬TransGen d.right.Edge b v

/-- A write that succeeds leaves no connection failed. -/
theorem atPlace_failed (h : ∀ i, (c.connections i).failed = false) (j : Nat) (s : State V) (sink : SocketSink)
    (i : Nat) :
    ((c.atPlace j s sink false).connections i).failed = false := by
  by_cases hi : i = j
  · simp [Linked.atPlace, hi]
  · simpa [Linked.atPlace, hi] using h i

/-- `WriteEof` throws only where a step says so. -/
theorem failed_step {e : LinkedEvent V} (he : e.quiet = true) (hm : LinkedMoves d c e c')
    (h : ∀ i, (c.connections i).failed = false) (i : Nat) :
    (c'.connections i).failed = false := by
  cases hm with
  | left haside hs => exact h i
  | right haside hs => exact h i
  | consume hu hx hc hw hs => exact atPlace_failed h _ _ _ i
  | afterWork hu hx hc hw hs => exact atPlace_failed h _ _ _ i
  | breaks hu hx hc hw hs => cases he
  | eofBreaks hu hx hc hw hs => cases he
  | @generate u y v k hu hy hc hd hr =>
    obtain ⟨n, rfl⟩ := readFrom_frame hr
    by_cases hi : i = d.right.sources.idxOf u
    · simpa [hi] using h (d.right.sources.idxOf u)
    · simpa [hi] using h i

/-- In a quiet run no connection fails. -/
theorem failed_run {es : List (LinkedEvent V)} (hes : es.all LinkedEvent.quiet = true) (h : d.runAll c es = some c')
    (h0 : ∀ i, (c.connections i).failed = false) (i : Nat) : (c'.connections i).failed = false := by
  induction es generalizing c with
  | nil =>
    cases h
    exact h0 i
  | cons e rest ih =>
    rw [List.all_cons, Bool.and_eq_true] at hes
    obtain ⟨c₁, hstep, hrest⟩ := Option.bind_eq_some_iff.1 h
    exact ih hes.2 hrest (failed_step hes.1 (step_moves hstep) h0)

namespace Ready

variable {U U' : Finset Id} {enc : V → Bytes} (hd : d.Ready U U' enc)
include hd

omit hd in
/-- `generate` returns where something can be read. -/
theorem generate_goes_on (halive : c.right.dead = false) {u : Id} (hsource : d.atSource c (.run u) = true)
    {v : Option V} {k : Connection} (hread : d.readFrom (c.connections (d.right.sources.idxOf u)) = some (v, k)) :
    ∃ c', d.step c (.generate u) = some c' := by
  obtain ⟨-, y, hy, -⟩ := atSource_run hsource
  exact ⟨{ c with
      right := c.right.setProc u (y.returns v)
      connections := Function.update c.connections (d.right.sources.idxOf u) k },
    by simp only [step, hsource, halive, and_self, if_true, hy, hread]⟩

/-- A source at `generate` has something to read, if the sink in its place has finished and has consumed something. -/
theorem source_goes_on (hI : d.Inv enc c) (hfail : ∀ i, (c.connections i).failed = false)
    (halive : c.right.dead = false) {u a : Id} (hsource : d.atSource c (.run u) = true)
    (ha : d.left.sinks[d.right.sources.idxOf u]? = some a) {x : Proc V} (hx : c.left.procs a = some x)
    (hend : x.ctl = .finished none) (hne : x.calls ≠ []) : ∃ c', d.step c (.generate u) = some c' := by
  obtain ⟨hu, y, hy, hc⟩ := atSource_run hsource
  have hwire := (hI.sent _ a x ha hx).ended hend (hfail _)
  rw [if_neg hne] at hwire
  obtain ⟨hle, hread⟩ := (hI.received _ a u x y ha (List.getElem?_idxOf hu) hx hy).asks (by rw [hc]; rfl)
  -- a value that it has not read yet, or the EOF
  rcases Nat.lt_or_eq_of_le hle with hlt | heq
  · exact generate_goes_on halive hsource (readFrom_value hwire hread hd.codec hd.fits (List.getElem?_eq_getElem hlt))
  · obtain ⟨k, hk⟩ := readFrom_eof (d := d) hwire hread heq rfl
    exact generate_goes_on halive hsource hk

/-- A sink writes where the connection has room. -/
theorem write_goes_on (hI : d.Inv enc c) (halive : c.left.dead = false) {u : Id} {v : Option V}
    (hw : d.writes c u = some v) :
    ∃ sink, d.written .always v (c.connections (d.left.sinks.idxOf u)).sink = .ok sink ∧
      (d.hasRoom c (d.left.sinks.idxOf u) sink = true → ∃ c', d.step c (.write u .always) = some c') := by
  obtain ⟨hu, x, hx, hctl⟩ := writes_some hw
  obtain ⟨n, hn, hk⟩ := hd.networkLeft.sink_kind hd.pureLeft hu
  have hkind := (hI.left.inv u n x hn hx).kind.trans hk
  have ha : x.action = .internal := by
    rcases hctl with ⟨i, a, hc, -⟩ | ⟨hc, -⟩
    · simp only [Proc.action, hc]
    · exact Proc.action_afterWork hkind hc
  have hs : c.left.step (.run u) = some (c.left.setProc u x.internal) := State.step_iff.2 ⟨halive, .internal hx ha⟩
  obtain ⟨sink, hsink⟩ : ∃ sink, d.written .always v (c.connections (d.left.sinks.idxOf u)).sink = .ok sink := by
    cases v with
    | none => exact SocketSink.afterWork_always _
    | some v => exact SocketSink.consume_always hd.codec _ (hd.fits v)
  refine ⟨sink, hsink, fun hroom => ?_⟩
  exact ⟨c.atPlace (d.left.sinks.idxOf u) (c.left.setProc u x.internal) sink false,
    by simp [step, hw, hsink, hroom, sinkStep, hs]⟩

/-- Where a source is in `generate` and a sink about to write, one of the two can go on: the source reads what is there,
or the connection is empty and takes the frame, which the source takes out of it. -/
theorem reads_goes_on (hI : d.Inv enc c) (halive : c.left.dead = false) (halive' : c.right.dead = false) {u : Id}
    {v : Option V} (hw : d.writes c u = some v) (hreads : d.reads c (d.left.sinks.idxOf u) = true) :
    ∃ e c', e.quiet = true ∧ d.step c e = some c' := by
  obtain ⟨hu, x, hx, hctl⟩ := writes_some hw
  have ha := List.getElem?_idxOf hu
  obtain ⟨n, hn, hk⟩ := hd.networkLeft.sink_kind hd.pureLeft hu
  have hkind := (hI.left.inv u n x hn hx).kind.trans hk
  have hsent := hI.sent _ u x ha hx
  obtain ⟨b, hb, hsource⟩ : ∃ b, d.right.sources[d.left.sinks.idxOf u]? = some b ∧ d.atSource c (.run b) = true := by
    unfold reads at hreads
    split at hreads
    · rename_i b hb
      exact ⟨b, hb, hreads⟩
    · cases hreads
  obtain ⟨hbmem, y, hy, hyc⟩ := atSource_run hsource
  have hplace : d.right.sources.idxOf b = d.left.sinks.idxOf u := by
    obtain ⟨hlt, hget⟩ := List.getElem?_eq_some_iff.1 hb
    rw [← hget, hd.networkRight.sound.sources_nodup.idxOf_getElem]
  obtain ⟨hle, hread⟩ := (hI.received _ u b x y ha hb hx hy).asks (by rw [hyc]; rfl)
  have hworking : x.ctl.working = true := by
    rcases hctl with ⟨i, a, hc, -⟩ | ⟨hc, -⟩ <;> rw [hc] <;> rfl
  rcases Nat.lt_or_eq_of_le hle with hlt | heq
  · have hne : x.calls ≠ [] := fun hnil => by rw [hnil] at hlt; exact absurd hlt (Nat.not_lt_zero _)
    have hwire := (hsent.working hworking).2
    rw [if_neg hne, ← List.append_nil (frames enc x.calls)] at hwire
    have hvalue := readFrom_value hwire hread hd.codec hd.fits (List.getElem?_eq_getElem hlt)
    rw [← hplace] at hvalue
    obtain ⟨c', hc'⟩ := generate_goes_on halive' hsource hvalue
    exact ⟨.generate b, c', rfl, hc'⟩
  · obtain ⟨sink, hsink, hgo⟩ := hd.write_goes_on hI halive hw
    rw [heq, List.take_length] at hread
    obtain ⟨c', hc'⟩ := hgo (hasRoom_of_reads hreads hread (hsent.written hd.codec hd.fits hkind hctl hsink))
    exact ⟨.write u .always, c', rfl, hc'⟩

/-- Where no source reads, the right pipeline goes on as it does with its sources fed. -/
theorem aside_goes_on (hI : d.Inv enc c) {u : Id} (haside : d.atSource c (.run u) = false) {t : State V}
    (ht : (c.right.withKinds (d.feeds c.left)).step (.run u) = some t) :
    ∃ c', d.step c (.right (.run u)) = some c' := by
  have hkinds : ∀ v z, (c.right.withKinds (d.feeds c.left)).procs v = some z →
      c.right.kindOf v z.obj.kind = z.obj.kind ∨ z.obj.kind.generates = true ∧ (c.right.kindOf v z.obj.kind).generates =
      true := by
    intro v z hz
    obtain ⟨y, hy, rfl⟩ := Option.map_eq_some_iff.1 hz
    rw [State.kindOf_eq hy]
    rcases hd.feeds_kind hI c.left v y hy with hsame | ⟨hgen, hgen'⟩
    · exact .inl hsame.symm
    · exact .inr ⟨hgen', hgen⟩
  have hstep := State.withKinds_step hkinds (by
    rintro v z he hz hc
    cases he
    obtain ⟨y, hy, rfl⟩ := Option.map_eq_some_iff.1 hz
    have hnot : u ∉ d.right.sources := fun hu => atSource_eq_false haside hu hy hc
    rw [State.kindOf_eq hy]
    exact (if_neg hnot).symm) ht
  rw [State.withKinds_kindOf] at hstep
  exact ⟨{ c with right := t.withKinds c.right.kindOf }, by simp only [step, haside, Bool.false_eq_true, if_false,
    hstep, Option.map_some]⟩

/-- A source has come to its end only if the sink in its place has consumed something. -/
theorem consumed_of_completed {pre pre' : UserChannel → List (Option V)} {tokens tokens' : Nat}
    {es : List (LinkedEvent V)} (h : d.runAll (d.start pre pre' tokens tokens') es = some c)
    (hright : c.right.Completed) {a : Id} (ha : a ∈ d.left.sinks) :
    c.left.consumed a ≠ [] := by
  obtain ⟨i, hi, hget⟩ := List.getElem_of_mem ha
  have hai : d.left.sinks[i]? = some a := List.getElem?_eq_some_iff.2 ⟨hi, hget⟩
  have hbi := List.getElem?_eq_getElem (hd.places ▸ hi)
  -- the source in the place of the sink
  obtain ⟨m, hm⟩ := (d.right.nodes.mem_keys_iff _).1 (hd.networkRight.sound.source_mem (List.mem_of_getElem? hbi))
  have hm' := Pipeline.withSources_get (d.left.sinks.map c.left.consumed) hd.networkRight.sound.sources_nodup hbi hm
  have hnet := Pipeline.withSources_network hd.networkRight hd.pureRight (d.left.sinks.map c.left.consumed)
  obtain ⟨z, hz, -⟩ := (hnet.running (State.Reaches.of_runAll _ (hd.right_runs h))).proc hm'
  obtain ⟨y, hy, -⟩ := Option.map_eq_some_iff.1 hz
  obtain ⟨x, hx, -, hend⟩ := hd.passes h hai hbi hy
  obtain ⟨-, -, -, hne⟩ := hend (hright _ y hy)
  rwa [State.consumed, hx]

end Ready

end Deployment

/-! ## The end -/

/-- What has finished with no exception behind it has finished as it should. -/
theorem finished_of_quiet {x : Proc V} (hf : x.ctl.isFinished = true) (hq : x.ctl.hosted = false) :
    x.ctl = .finished none := by
  cases hc : x.ctl with
  | finished c =>
    cases c with
    | none => rfl
    | some c => rw [hc] at hq; cases hq
  | _ => rw [hc] at hf; cases hf

/-- Without exceptions, a pipeline in which nobody waits for ever and nobody can take a step has completed. -/
theorem State.Calm.completed {p : Pipeline V} {U : Finset Id} {s : State V} (h : s.Calm) (hp : p.Unblocked)
    (hnet : Network p U) {pre : UserChannel → List (Option V)} {tokens : Nat} (hs : (p.start pre tokens).Reaches s)
    (hstuck : ∀ u, s.canStep u = false) :
    s.Completed :=
  fun u x hx => finished_of_quiet (hp.all_finished hnet hs h.alive h.not_escaped hstuck hx) (h.quiet u x hx)

namespace Deployment

/-- The right pipeline with its sources fed. -/
abbrev fed (d : Deployment V) (c : Linked V) : State V := c.right.withKinds (d.feeds c.left)

/-- What is known where a run without exceptions has come to and nobody can go on. -/
structure Rests (d : Deployment V) (enc : V → Bytes) (c : Linked V) : Prop where
  inv : d.Inv enc c
  left : ∃ pre, (d.left.start pre 0).Runs c.left
  right : ∃ pre, ((d.right.withSources (d.left.sinks.map c.left.consumed)).start pre 0).Runs (d.fed c)
  failed : ∀ i, (c.connections i).failed = false
  ended : ∀ (i : Nat) a b x y, d.left.sinks[i]? = some a → d.right.sources[i]? = some b → c.left.procs a = some x →
    c.right.procs b = some y → y.ctl = .finished none → x.ctl = .finished none
  stuck : ∀ e, e.quiet = true → d.step c e = none

variable {d : Deployment V} {c : Linked V} {U U' : Finset Id} {enc : V → Bytes}

/-- A standstill is a state at rest. -/
theorem Ready.rests (hd : d.Ready U U' enc) {pre pre' : UserChannel → List (Option V)} {es : List (LinkedEvent V)}
    (h : d.runAll (d.start pre pre' 0 0) es = some c) (hes : es.all LinkedEvent.quiet = true)
    (hstuck : ∀ e, e.quiet = true → d.step c e = none) : d.Rests enc c := by
  obtain ⟨⟨ids, hids⟩, ids', hids'⟩ := LinkedEvent.quiet_runs hes
  have hleft := left_runAll h
  have hright := hd.right_runs h
  rw [hids] at hleft
  rw [hids'] at hright
  refine ⟨hd.inv_run (d.inv_start enc pre pre' 0 0) h, ⟨pre, .of_runAll ids hleft⟩, ⟨pre', .of_runAll ids' hright⟩,
    failed_run hes h (fun _ => rfl), fun i a b x y ha hb hx hy hend => ?_, hstuck⟩
  obtain ⟨x', hx', -, hfin⟩ := hd.passes h ha hb hy
  cases hx.symm.trans hx'
  exact (hfin hend).2.1

section fed

variable (hd : d.Ready U U' enc) (c)
include hd

/-- Fed from the connections, the right pipeline is a network. -/
theorem Ready.network_fed : Network (d.right.withSources (d.left.sinks.map c.left.consumed)) U' :=
  Pipeline.withSources_network hd.networkRight hd.pureRight _

theorem Ready.unblocked_fed (hu : d.Unblocked) : (d.right.withSources (d.left.sinks.map c.left.consumed)).Unblocked :=
  hu.right.withSources hd.networkRight.sound hd.pureRight _

/-- A `Concat` of the right pipeline with its sources fed is one of the right pipeline. -/
theorem Ready.multiIn_fed {v : Id} {m : Processor V}
    (hm : (d.right.withSources (d.left.sinks.map c.left.consumed)).nodes.get v = some m) :
    ∃ m', d.right.nodes.get v = some m' ∧ m.kind.isMultiIn = m'.kind.isMultiIn := by
  obtain ⟨m', hm', rfl⟩ := Pipeline.get_of_withKinds hm
  exact ⟨m', hm', (Pipeline.withSources_alike hd.networkRight.sound hd.pureRight _ v m' hm').multiIn⟩

end fed

namespace Rests

variable (hd : d.Ready U U' enc) (hr : d.Rests enc c)
include hd hr

/-- The left pipeline is calm. -/
theorem calm_left : c.left.Calm := by
  obtain ⟨pre, hs⟩ := hr.left
  exact hd.networkLeft.calm hd.pureLeft hs

/-- The right one is calm, too. -/
theorem calm_fed : (d.fed c).Calm := by
  obtain ⟨pre, hs⟩ := hr.right
  exact (hd.network_fed c).calm (Pipeline.withSources_pure hd.pureRight _) hs

/-- It runs as if its sources were lists. -/
theorem running_fed : Running (d.right.withSources (d.left.sinks.map c.left.consumed)) (d.fed c) := by
  obtain ⟨pre, hs⟩ := hr.right
  exact (hd.network_fed c).running hs.reaches

omit hd in
/-- On the left nobody can take a step that is not at a socket. -/
theorem canStep_left {u : Id} (haside : d.atSink c (.run u) = false) : c.left.canStep u = false := by
  rw [← Bool.not_eq_true]
  intro hcan
  obtain ⟨s, hs⟩ := Option.isSome_iff_exists.1 hcan
  have hnone := hr.stuck (.left (.run u)) rfl
  simp [step, haside, hs] at hnone

/-- It cannot go on, but for its sources. -/
theorem canStep_fed {u : Id} (haside : d.atSource c (.run u) = false) : (d.fed c).canStep u = false := by
  rw [← Bool.not_eq_true]
  intro hcan
  obtain ⟨t, ht⟩ := Option.isSome_iff_exists.1 hcan
  obtain ⟨c', hc'⟩ := hd.aside_goes_on hr.inv haside ht
  rw [hr.stuck (.right (.run u)) rfl] at hc'
  cases hc'

/-- The left pipeline stands still, but for sinks that wait for room in their connections. -/
theorem standstill_left (hu : d.Unblocked) : StandstillBut (fun u => d.atSink c (.run u) = true) c.left := by
  obtain ⟨pre, hs⟩ := hr.left
  have hcalm := hr.calm_left hd
  exact hu.left.standstill hd.networkLeft hs.reaches hcalm.alive hcalm.not_escaped
    (fun u hnot => hr.canStep_left (by simpa using hnot))

/-- The right pipeline stands still, but for sources that wait for a frame. -/
theorem standstill_fed (hu : d.Unblocked) : StandstillBut (fun u => d.atSource c (.run u) = true) (d.fed c) := by
  obtain ⟨pre, hs⟩ := hr.right
  have hcalm := hr.calm_fed hd
  exact (hd.unblocked_fed c hu).standstill (hd.network_fed c) hs.reaches hcalm.alive hcalm.not_escaped
    (fun u hnot => hr.canStep_fed hd (by simpa using hnot))

/-- A sink does not wait for room while its source waits for a frame. -/
theorem not_both_wait {i : Nat} {a b : Id} (ha : d.left.sinks[i]? = some a) (hb : d.right.sources[i]? = some b)
    (hsink : d.atSink c (.run a) = true) : d.atSource c (.run b) = false := by
  rw [← Bool.not_eq_true]
  intro hsource
  obtain ⟨v, hv⟩ := Option.isSome_iff_exists.1 hsink
  have hplace : d.left.sinks.idxOf a = i := by
    obtain ⟨hlt, hget⟩ := List.getElem?_eq_some_iff.1 ha
    rw [← hget, hd.networkLeft.sound.sinks_nodup.idxOf_getElem]
  have hreads : d.reads c (d.left.sinks.idxOf a) = true := by simp only [reads, hplace, hb, hsource]
  obtain ⟨e, c', he, hstep⟩ := hd.reads_goes_on hr.inv (hr.calm_left hd).alive (hr.calm_fed hd).alive hv hreads
  rw [hr.stuck e he] at hstep
  cases hstep

/-- A sink that waits for room has a source that waits to push. -/
theorem source_waits (hu : d.Unblocked) {i : Nat} {a b : Id} (ha : d.left.sinks[i]? = some a)
    (hb : d.right.sources[i]? = some b) (hsink : d.atSink c (.run a) = true) :
    ∃ y o q, (d.fed c).procs b = some y ∧ (d.fed c).WaitsPush y o q := by
  obtain ⟨m, hm⟩ := (d.right.nodes.mem_keys_iff b).1 (hd.networkRight.sound.source_mem (List.mem_of_getElem? hb))
  have hm' := Pipeline.withSources_get (d.left.sinks.map c.left.consumed) hd.networkRight.sound.sources_nodup hb hm
  obtain ⟨y, hy, hinv⟩ := (hr.running_fed hd).proc hm'
  rcases (hr.standstill_fed hd hu).waits b y hy with hf | ⟨j, q, hpop⟩ | ⟨o, q, hpush⟩ | hgen
  · -- it has read the EOF, which the sink has not written
    obtain ⟨v, hv⟩ := Option.isSome_iff_exists.1 hsink
    obtain ⟨-, x, hx, hctl⟩ := writes_some hv
    have hfin := finished_of_quiet hf ((hr.calm_fed hd).quiet b y hy)
    obtain ⟨z, hz, rfl⟩ := Option.map_eq_some_iff.1 hy
    have hend := hr.ended i a b x z ha hb hx hz hfin
    rcases hctl with ⟨j, v', hc, -⟩ | ⟨hc, -⟩ <;> cases hc.symm.trans hend
  · have hlt := (hinv.pop_port hpop.1).1
    exact absurd hlt (Nat.not_lt_zero _)
  · exact ⟨y, o, q, hy, hpush⟩
  · rw [hr.not_both_wait hd ha hb hsink] at hgen
    cases hgen

/-- A source that waits for a frame has a sink that waits to pop, if that has consumed something. -/
theorem sink_waits (hu : d.Unblocked) (hsome : ∀ a ∈ d.left.sinks, c.left.consumed a ≠ []) {i : Nat} {a b : Id}
    (ha : d.left.sinks[i]? = some a) (hb : d.right.sources[i]? = some b) (hgen : d.atSource c (.run b) = true) :
    ∃ n x j q, d.left.nodes.get a = some n ∧ c.left.procs a = some x ∧ c.left.WaitsPop x j q := by
  obtain ⟨n, hn, hk⟩ := hd.networkLeft.sink_kind hd.pureLeft (List.mem_of_getElem? ha)
  obtain ⟨x, hx, hinv⟩ := hr.inv.left.proc hn
  rcases (hr.standstill_left hd hu).waits a x hx with hf | ⟨j, q, hpop⟩ | ⟨o, q, ⟨v, hpush⟩, -⟩ | hsink
  · have hne := hsome a (List.mem_of_getElem? ha)
    rw [State.consumed, hx] at hne
    have hplace : d.right.sources.idxOf b = i := by
      obtain ⟨hlt, hget⟩ := List.getElem?_eq_some_iff.1 hb
      rw [← hget, hd.networkRight.sound.sources_nodup.idxOf_getElem]
    obtain ⟨c', hc'⟩ := hd.source_goes_on hr.inv hr.failed (hr.calm_fed hd).alive hgen (hplace ▸ ha) hx
      (finished_of_quiet hf ((hr.calm_left hd).quiet a x hx)) hne
    rw [hr.stuck _ rfl] at hc'
    cases hc'
  · exact ⟨n, x, j, q, hn, hx, hpop⟩
  · have hlt := (hinv.push_port hpush).1
    rw [hk] at hlt
    exact absurd hlt (Nat.not_lt_zero _)
  · rw [hr.not_both_wait hd ha hb hsink] at hgen
    cases hgen

/-- No `Concat` on the right waits to pop: the chain would go up to a `Fork` or a `Dispatch`, on the right or on the
left. -/
theorem concat_goes_on (hu : d.Unblocked) (hsome : ∀ a ∈ d.left.sinks, c.left.consumed a ≠ []) {v : Id}
    {m : Processor V} {y : Proc V} {j : Nat} {q : Queue}
    (hm : (d.right.withSources (d.left.sinks.map c.left.consumed)).nodes.get v = some m)
    (hy : (d.fed c).procs v = some y) (hmulti : m.kind.isMultiIn = true) : ¬(d.fed c).WaitsPop y j q := by
  intro hwait
  have hfree := hd.unblocked_fed c hu
  obtain ⟨b, k, hbv, hk, hgen | hout⟩ :=
    (hr.standstill_fed hd hu).upstream (hd.network_fed c) (hr.running_fed hd) hfree.capacity v hm hy hwait
  · obtain ⟨hb, -⟩ := atSource_run hgen
    obtain ⟨a, ha, -⟩ := hd.place hb
    have hb' := List.getElem?_idxOf hb
    obtain ⟨n, x, j', q', hn, hx, hpop⟩ := hr.sink_waits hd hu hsome ha hb' hgen
    obtain ⟨w, l, hwa, hl, hsink | hout⟩ :=
      (hr.standstill_left hd hu).upstream hd.networkLeft hr.inv.left hu.left.capacity a hn hx hpop
    · -- nothing comes behind a sink
      obtain ⟨o, ho⟩ := Option.isSome_iff_exists.1 hsink
      obtain ⟨z, hwz, -⟩ := TransGen.head'_iff.1 hwa
      exact hd.networkLeft.sound.sinks_out w (writes_some ho).1 z hwz
    · obtain ⟨m', hm', hsame⟩ := hd.multiIn_fed c hm
      exact hu.across _ a b w v l m' ha hb' hl hm' hout (hsame.symm.trans hmulti) hwa hbv
  · exact hfree.concat b v k m hk hm hout hmulti hbv

/-- If no `Concat` on the right waits to pop, no sink on the left waits for room, and the left pipeline has come to its
end. -/
theorem left_completed (hu : d.Unblocked)
    (hconcat : ∀ v m y j q, (d.right.withSources (d.left.sinks.map c.left.consumed)).nodes.get v = some m →
      (d.fed c).procs v = some y → m.kind.isMultiIn = true → ¬(d.fed c).WaitsPop y j q) : c.left.Completed := by
  have haside : ∀ u, d.atSink c (.run u) = false := by
    intro u
    rw [← Bool.not_eq_true]
    intro hsink
    obtain ⟨v, hv⟩ := Option.isSome_iff_exists.1 hsink
    have ha := List.getElem?_idxOf (writes_some hv).1
    obtain ⟨hlt, -⟩ := List.getElem?_eq_some_iff.1 ha
    have hb := List.getElem?_eq_getElem (hd.places ▸ hlt)
    obtain ⟨y, o, q, hy, hpush⟩ := hr.source_waits hd hu ha hb hsink
    obtain ⟨w, hbw, hgen | ⟨m, z, j, r, hm, hz, hmulti, hpop⟩⟩ :=
      (hr.standstill_fed hd hu).downstream (hd.network_fed c) (hr.running_fed hd) (hd.unblocked_fed c hu).capacity _ hy
      hpush
    · -- nothing comes before a source
      obtain ⟨z, -, hzw⟩ := TransGen.tail'_iff.1 hbw
      exact hd.networkRight.sound.sources_in w (atSource_run hgen).1 z hzw
    · exact hconcat w m z j r hm hz hmulti hpop
  obtain ⟨pre, hs⟩ := hr.left
  exact (hr.calm_left hd).completed hu.left hd.networkLeft hs.reaches (fun u => hr.canStep_left (haside u))

/-- If every sink on the left has finished and has consumed something, the right pipeline has come to its end. -/
theorem right_completed (hu : d.Unblocked) (hleft : c.left.Completed)
    (hsome : ∀ a ∈ d.left.sinks, c.left.consumed a ≠ []) :
    c.right.Completed := by
  have haside : ∀ u, d.atSource c (.run u) = false := by
    intro u
    rw [← Bool.not_eq_true]
    intro hgen
    obtain ⟨hmem, -⟩ := atSource_run hgen
    obtain ⟨a, ha, -⟩ := hd.place hmem
    obtain ⟨n, x, j, q, -, hx, hpop⟩ := hr.sink_waits hd hu hsome ha (List.getElem?_idxOf hmem) hgen
    have haction := hpop.1
    simp [Proc.action, hleft a x hx] at haction
  obtain ⟨pre, hs⟩ := hr.right
  have hfed := (hr.calm_fed hd).completed (hd.unblocked_fed c hu) (hd.network_fed c) hs.reaches (fun u =>
    hr.canStep_fed hd (haside u))
  intro u y hy
  exact hfed u (y.withKind (d.feeds c.left u y.obj.kind)) (State.withKinds_procs hy)

end Rests

end Deployment

/-- Two pipelines without state that sockets connect, with connections that hold as many bytes as they may, and with no
`Fork` or `Dispatch` before a `Concat`, on one side or across. A run in which no exception comes goes on until every
processor has finished, on the left and on the right, if and only if every sink on the left has consumed something: a
`SocketSink` without values never connects, so that its `SocketSource` has nothing to read. Without a `Concat` on the
right, the left pipeline comes to its end in any case. -/
theorem linked_completes {d : Deployment V} {U U' : Finset Id} {enc : V → Bytes} (hd : d.Ready U U' enc)
    (hu : d.Unblocked) {pre pre' : UserChannel → List (Option V)} {es : List (LinkedEvent V)} {c : Linked V}
    (h : d.runAll (d.start pre pre' 0 0) es = some c) (hes : es.all LinkedEvent.quiet = true)
    (hstuck : ∀ e, e.quiet = true → d.step c e = none) :
    (c.left.Completed ∧ c.right.Completed ↔ ∀ a ∈ d.left.sinks, c.left.consumed a ≠ []) ∧
    ((∀ v m, d.right.nodes.get v = some m → m.kind.isMultiIn = false) → c.left.Completed) := by
  have hr := hd.rests h hes hstuck
  refine ⟨⟨fun hboth a ha => hd.consumed_of_completed h hboth.2 ha, fun hsome => ?_⟩, fun hno => ?_⟩
  · have hleft := hr.left_completed hd hu (fun v m y j q hm hy hmulti => hr.concat_goes_on hd hu hsome hm hy hmulti)
    exact ⟨hleft, hr.right_completed hd hu hleft hsome⟩
  · refine hr.left_completed hd hu (fun v m y j q hm hy hmulti => ?_)
    obtain ⟨m', hm', hsame⟩ := hd.multiIn_fed c hm
    rw [hsame, hno v m' hm'] at hmulti
    cases hmulti

/-- Where both pipelines have completed, nothing more happens. -/
theorem Linked.stuck_of_completed (d : Deployment V) {c : Linked V} (hleft : c.left.Completed)
    (hright : c.right.Completed) (e : LinkedEvent V) (he : e.quiet = true) : d.step c e = none := by
  have hrun : ∀ {s : State V}, s.Completed → ∀ u, s.step (.run u) = none := by
    intro s hs u
    cases hx : s.procs u with
    | none => simp [State.step, hx]
    | some x => simp [State.step, hx, State.stepProc, Proc.action, hs u x hx]
  have hwrites : ∀ u, d.writes c u = none := by
    intro u
    cases hw : d.writes c u with
    | none => rfl
    | some v =>
      obtain ⟨-, x, hx, ⟨i, a, hc, -⟩ | ⟨hc, -⟩⟩ := Deployment.writes_some hw
      · cases hc.symm.trans (hleft u x hx)
      · cases hc.symm.trans (hleft u x hx)
  cases e with
  | left e =>
    cases e with
    | run u => simp [Deployment.step, hrun hleft]
    | _ => cases he
  | write u peer => simp [Deployment.step, hwrites]
  | right e =>
    cases e with
    | run u => simp [Deployment.step, hrun hright]
    | _ => cases he
  | generate u =>
    have hno : d.atSource c (.run u) ≠ true := by
      intro hs
      obtain ⟨-, y, hy, hc⟩ := Deployment.atSource_run hs
      cases hc.symm.trans (hright u y hy)
    simp [Deployment.step, hno]
  | breaks u cut => cases he
  | eofBreaks u cut => cases he

theorem sending_unblocked : sending.1.Unblocked := by
  refine .of_keys sending_keys (fun u n i q hu hn hi => ?_) (fun u n hu hn => ?_)
  · rcases hu with rfl | rfl <;> cases hn <;> cases i <;> cases hi
    decide
  · rcases hu with rfl | rfl <;> cases hn <;> exact ⟨rfl, rfl, rfl⟩

theorem receiving_unblocked : receiving.1.Unblocked := by
  refine .of_keys receiving_keys (fun u n i q hu hn hi => ?_) (fun u n hu hn => ?_)
  · rcases hu with rfl | rfl <;> cases hn <;> cases i <;> cases hi
    decide
  · rcases hu with rfl | rfl <;> cases hn <;> exact ⟨rfl, rfl, rfl⟩

/-- Nobody waits forever between the two hosts. -/
theorem twoHosts_unblocked : twoHosts.Unblocked where
  left := sending_unblocked
  right := receiving_unblocked
  across i a b u v n m _ _ hn _ hout := by
    rcases sending_keys u (PMap.mem_keys_of_get hn) with rfl | rfl <;> cases hn <;> cases hout

/-- The sink on the left has consumed two values, and everything has come to its end. -/
theorem linked_completes_two : ∃ c, twoHosts.runAll (twoHosts.start (fun _ => []) (fun _ => []) 0 0) takeEach = some c ∧
    (∀ e, e.quiet = true → twoHosts.step c e = none) ∧ c.left.Completed ∧ ∀ a ∈ sending.1.sinks, c.left.consumed a ≠
    [] := by
  obtain ⟨c, hc, hleft, hright, -⟩ := takeEach_ends
  have hstuck := Linked.stuck_of_completed twoHosts hleft hright
  have hiff := (linked_completes twoHosts_ready twoHosts_unblocked hc rfl hstuck).1
  exact ⟨c, hc, hstuck, hleft, hiff.1 ⟨hleft, hright⟩⟩

end Tunnel
