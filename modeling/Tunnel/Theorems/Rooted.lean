import Tunnel.Theorems.Wiring

/-!
# No orphans

`Run` checks that `leaves_` is empty and `nodes_` is not. As long as no `SetSink` or `Merge` is given an empty set of
leaves, this is enough: every processor is reached from a source (`Rooted`), and in a completed pipeline it reaches a
sink. Given an empty set, they make an orphan, wherever the call comes (`mergeTo_orphan`).
-/

namespace Tunnel

open Lib Relation

variable {V : Type}

/-- Every processor is reached from a source, and has its inputs bound unless it is a source. -/
structure Rooted (p : Pipeline V) : Prop where
  root : ∀ u ∈ p.nodes.keys, ∃ s ∈ p.sources, ReflTransGen p.Edge s u
  in_bound : ∀ u n, p.nodes.get u = some n → n.kind.isSource = false → ∀ i < n.kind.nin, (n.inChan i).isSome = true

/-- A growth whose processors are sources or have an edge into them, and their inputs bound. -/
structure Growth.Feeds (g : Growth V) : Prop where
  fed : ∀ u, (g.fresh u).isSome = true → u ∈ g.sources ∨ ∃ w, g.edge w u
  in_bound : ∀ u n, g.fresh u = some n → n.kind.isSource = false → ∀ i < n.kind.nin, (n.inChan i).isSome = true

variable {node : Processor V} {p l r : Pipeline V} {U UL UR : Finset Id} {noopId : Nat → Id}

theorem feeds_attach (id : Id) (hn : node.Unfed) (L : List Id) (size : Nat) (isSink : Bool) (ne : L ≠ []) :
    (Growth.attach id node L size isSink).Feeds := by
  refine ⟨fun u hu => Or.inr ?_, fun u n hu _ i hi => ?_⟩
  · obtain ⟨a, ha⟩ := List.exists_mem_of_ne_nil L ne
    refine ⟨a, ha, ?_⟩
    by_contra hne
    simp [Growth.attach, hne] at hu
  · simp only [Growth.attach] at hu
    split at hu
    · cases hu
      rw [Growth.fed_kind, hn.nin] at hi
      have hlen : L.length ≠ 0 := fun h => ne (List.length_eq_zero_iff.1 h)
      rw [hn.fed_inChan, if_pos ⟨by omega, hlen⟩]
      rfl
    · cases hu

/-- A fan-out feeds its branches. -/
theorem feeds_fanOut (leaf id : Id) (n : Nat) (noopId : Nat → Id) (size : Nat) (hni : node.kind.nin = 1)
    (hmi : node.kind.isMultiIn = false) :
    (Growth.fanOut leaf id node n noopId size).Feeds := by
  refine ⟨fun u hu => Or.inr ?_, fun u m hu _ i hi => ?_⟩
  · simp only [Growth.fanOut] at hu ⊢
    by_cases hid : u = id
    · exact ⟨leaf, Or.inl ⟨rfl, hid⟩⟩
    · by_cases hm : u ∈ (List.range n).map noopId
      · exact ⟨id, Or.inr ⟨rfl, hm⟩⟩
      · simp only [hid, hm, if_false, Option.isSome_none, Bool.false_eq_true] at hu
  · simp only [Growth.fanOut] at hu
    split at hu
    · cases hu
      rw [show i = 0 by have : i < node.kind.nin := hi; omega]
      simp [Processor.inChan, hmi]
    · split at hu
      · cases hu
        rw [show i = 0 by have : i < 1 := hi; omega]
        rfl
      · cases hu

theorem GrowthOf.feeds {nr ne : Prop} {K : Finset Id} {g : Growth V} (hne : ne) (h : GrowthOf nr ne p K g) :
    g.Feeds := by
  cases h with
  | nothing => exact ⟨fun u hu => (by cases hu), fun u n hu => (by cases hu)⟩
  | source id name k =>
    refine ⟨fun u hu => Or.inl ?_, fun u n hu hk => ?_⟩
    · by_contra hm
      have hne : u ≠ id := by simpa [Growth.source] using hm
      simp [Growth.source, hne] at hu
    · simp only [Growth.source] at hu
      split at hu
      · cases hu
        rw [Processor.ofSource_kind] at hk
        cases hk
      · cases hu
  | transform id name k L mem nodup ne => exact feeds_attach id (Processor.ofTransform_unfed name k) L _ false (ne hne)
  | sink id name k L mem nodup ne => exact feeds_attach id (Processor.ofSink_unfed name k) L _ true (ne hne)
  | concat id L pos mem nodup =>
    refine ⟨fun u hu => Or.inr ?_, fun u n hu _ i hi => ?_⟩
    · obtain ⟨a, ha⟩ := List.exists_mem_of_length_pos pos
      refine ⟨a, ha, ?_⟩
      by_contra hne
      simp [Growth.concat, hne] at hu
    · simp only [Growth.concat] at hu
      split at hu
      · cases hu
        simp only [Kind.nin] at hi
        simp [Processor.inChan, Kind.isMultiIn, Growth.concatQueues_join, hi]
      · cases hu
  | dispatch leaf id name n pos d noopId mem nodup => exact feeds_fanOut leaf id n noopId _ rfl rfl
  | fork leaf id n pos noopId mem nodup => exact feeds_fanOut leaf id n noopId _ rfl rfl

theorem rooted_new (o : PipelineOption) : Rooted (Pipeline.new o : Pipeline V) := by
  refine ⟨?_, ?_⟩ <;> simp [Pipeline.new, PMap.empty]

/-- A growth that feeds its processors keeps every processor reached from a source. -/
theorem Rooted.grown {p' : Pipeline V} {K : Finset Id} {g : Growth V} (hr : Rooted p) (hp : Sound p U)
    (hf : g.Fits p K) (hfeed : g.Feeds) (hK : Disjoint K U) (h : Grown p g p') : Rooted p' := by
  have hold : ∀ u ∈ p.nodes.keys, ∃ s ∈ p'.sources, ReflTransGen p'.Edge s u := by
    intro u hu
    obtain ⟨s, hs, hpath⟩ := hr.root u hu
    refine ⟨s, by rw [h.sources]; exact List.mem_append_left _ hs, ?_⟩
    exact ReflTransGen.mono (fun a b hab => (h.edges a b).2 (Or.inl hab)) _ _ hpath
  obtain ⟨height, hheight⟩ := hf.height
  -- a new processor hangs behind an old leaf or behind a new one below it
  have hnew : ∀ n u, height u < n → u ∈ K → ∃ s ∈ p'.sources, ReflTransGen p'.Edge s u := by
    intro n
    induction n with
    | zero => intro u hu; omega
    | succ n ih =>
      intro u hu huK
      rcases hfeed.fed u ((hf.fresh_iff u).2 huK) with hs | ⟨w, hw⟩
      · exact ⟨u, by rw [h.sources]; exact List.mem_append_right _ hs, .refl⟩
      · have hpre : ∃ s ∈ p'.sources, ReflTransGen p'.Edge s w := by
          rcases hf.edge_from w u hw with hwK | ⟨hl, -⟩
          · have := hheight w u hw hwK
            exact ih w (by omega) hwK
          · exact hold w ((hp.leaves_iff w).1 hl).1
        obtain ⟨s, hs, hpath⟩ := hpre
        exact ⟨s, hs, hpath.tail ((h.edges w u).2 (Or.inr hw))⟩
  refine ⟨fun u hu => ?_, fun u n hu hk i hi => ?_⟩
  · rcases (h.mem_keys hf u).1 hu with hu | hu
    · exact hnew (height u + 1) u (by omega) hu
    · exact hold u hu
  · rcases h.get_cases hp hf hK hu with ⟨-, hu⟩ | ⟨-, m, hm, rfl⟩
    · exact hfeed.in_bound u n hu hk i hi
    · rw [Processor.setOut_kind] at hk hi
      rw [Processor.setOut_inChan]
      exact hr.in_bound u m hm hk i hi

/-- A path of the left is one of the merge, up to the name of its end. -/
theorem Merged.path_left (hr : MergeReady l r UL UR noopId) (h : Merged l r noopId p) {s u : Id} (hs : s ∈ l.sources)
    (hpath : ReflTransGen l.Edge s u) :
    ReflTransGen p.Edge s (mergedName l.sinks noopId u) := by
  induction hpath with
  | refl =>
    rw [mergedName_of_notMem (hr.soundL.source_not_sink hs)]
  | @tail a b _ hab ih =>
    have ha : a ∉ l.sinks := fun ha => hr.soundL.sinks_out a ha b hab
    rw [mergedName_of_notMem ha] at ih
    exact ih.tail ((h.edges a _).2 (Or.inl ⟨b, hab, rfl⟩))

/-- A path of the right is one of the merge, from the processor that took the place of its source on. -/
theorem Merged.path_right (hr : MergeReady l r UL UR noopId) (h : Merged l r noopId p) {s u : Id}
    (hpath : ReflTransGen r.Edge s u) :
    ReflTransGen p.Edge (mergedName r.sources noopId s) (mergedName r.sources noopId u) := by
  induction hpath with
  | refl => exact .refl
  | @tail a b _ hab ih =>
    have hb : b ∉ r.sources := fun hb => hr.soundR.sources_in b hb a hab
    rw [mergedName_of_notMem hb]
    exact ih.tail ((h.edges _ b).2 (Or.inr ⟨a, hab, rfl⟩))

theorem Rooted.merged (hr : MergeReady l r UL UR noopId) (h : Merged l r noopId p) (hl : Rooted l) (hr' : Rooted r) :
    Rooted p := by
  have hleft : ∀ u ∈ l.nodes.keys, ∃ s ∈ p.sources, ReflTransGen p.Edge s (mergedName l.sinks noopId u) := by
    intro u hu
    obtain ⟨s, hs, hpath⟩ := hl.root u hu
    exact ⟨s, by rw [h.sources]; exact hs, h.path_left hr hs hpath⟩
  -- the i-th new processor stands where the i-th sink of the left stood
  have hnoop : ∀ i < l.sinks.length, ∃ s ∈ p.sources, ReflTransGen p.Edge s (noopId i) := by
    intro i hi
    have hget := List.getElem?_eq_getElem hi
    rw [← mergedName_getElem noopId hr.soundL.sinks_nodup hget]
    exact hleft _ (hr.soundL.sink_mem (List.getElem_mem hi))
  refine ⟨fun u hu => ?_, fun u n hu hk i hi => ?_⟩
  · rcases (h.keys u).1 hu with ⟨hu, hs⟩ | ⟨hu, hs⟩ | ⟨i, hi, rfl⟩
    · obtain ⟨s, hsrc, hpath⟩ := hleft u hu
      rw [mergedName_of_notMem hs] at hpath
      exact ⟨s, hsrc, hpath⟩
    · obtain ⟨b, hb, hpath⟩ := hr'.root u hu
      obtain ⟨i, hi, -, hn⟩ := hr.exists_name.2 hb
      obtain ⟨s, hsrc, hpre⟩ := hnoop i hi
      have hpost := h.path_right hr hpath
      rw [hn, mergedName_of_notMem hs] at hpost
      exact ⟨s, hsrc, hpre.trans hpost⟩
    · exact hnoop i hi
  · rcases h.get_cases hu with ⟨-, hu⟩ | ⟨-, hu⟩ | ⟨j, a, b, s, t, rfl, ha, hb, hs, ht, rfl⟩
    · exact hl.in_bound u n hu hk i hi
    · exact hr'.in_bound u n hu hk i hi
    · obtain ⟨hks, -⟩ := hr.noop_kinds ha hb hs ht
      rw [mergeSinkAndSource_inChan t hks]
      refine hl.in_bound a s hs ?_ i ?_
      · cases hkind : s.kind <;> simp_all [Kind.isSink, Kind.isSource]
      · cases hkind : s.kind <;> simp_all [Kind.isSink, Kind.nin, mergeSinkAndSource_kind]

/-- In every pipeline that builder calls reach without an empty set of leaves, a source leads to every processor. -/
theorem built_rooted {P : Call V → Prop} (hP : ∀ c, P c → c.NonemptyLeaves) (h : Built P p U) :
    Rooted p := by
  induction h with
  | new o => exact rooted_new o
  | call c hb hc hdis hid he hrun ih =>
    have hs := built_sound hb
    have hgrows := call_grows False True c hs.keys (fun l hl => ((hs.leaves_iff l).1 hl).1) hdis hid he nofun
      (fun _ => hP c hc) hrun
    exact (hgrows.induct (I := fun p U => Sound p U ∧ Rooted p) ⟨hs, ih⟩ (fun hI hg hK hstep =>
      ⟨hI.1.grown (hg.fits hI.1 hK) hK hstep, hI.2.grown hI.1 (hg.fits hI.1 hK) (hg.feeds trivial) hK hstep⟩)).2
  | mergePipeline noopId hbl hbr hdis hnd hnew hrun ihl ihr =>
    obtain ⟨-, -, ⟨-, rfl⟩ | ⟨-, rfl⟩ | ⟨-, -, hready, hm⟩⟩ :=
      mergePipeline_ok (built_sound hbl) (built_sound hbr) hdis hnd hnew hrun
    · exact ihr
    · exact ihl
    · exact Rooted.merged hready hm ihl ihr

/-- In a completed pipeline every processor leads to a sink. -/
theorem Sound.reaches_sink (h : Sound p U) (hc : p.leaves = ∅) (u : Id) (hu : u ∈ p.nodes.keys) :
    ∃ t ∈ p.sinks, ReflTransGen p.Edge u t := by
  induction u using (h.ranked.wellFounded_flip p.nodes.keys (fun u v he => (h.edge_mem u v he).2)).induction with
  | _ u ih =>
    by_cases hs : u ∈ p.sinks
    · exact ⟨u, hs, .refl⟩
    · obtain ⟨v, hv⟩ := h.exists_succ hc hu hs
      obtain ⟨t, ht, hpath⟩ := ih v hv (h.edge_mem u v hv).2
      exact ⟨t, ht, .head hv hpath⟩

/-- A pipeline that `Run` accepts has no orphan, as long as no `SetSink` or `Merge` was given an empty set of leaves:
every processor lies on a path from a source to a sink, and one that is no source has an edge into it and its inputs
bound. -/
theorem run_accepts_no_orphan {p : Pipeline V} {U : Finset Id} (h : Built Call.NonemptyLeaves p U)
    (hrun : p.runChecks true = .ok ()) :
    (∀ u ∈ p.nodes.keys, ∃ s ∈ p.sources, ∃ t ∈ p.sinks, ReflTransGen p.Edge s u ∧ ReflTransGen p.Edge u t) ∧
    (∀ u n, p.nodes.get u = some n → u ∉ p.sources →
      (∃ w, p.Edge w u) ∧ 0 < n.kind.nin ∧ ∀ i < n.kind.nin, (n.inChan i).isSome = true) := by
  have hs := built_sound h
  have hroot := built_rooted (fun _ hc => hc) h
  have hc : p.leaves = ∅ := by
    unfold Pipeline.runChecks at hrun
    by_contra hne
    rw [if_pos hne] at hrun
    cases hrun
  refine ⟨fun u hu => ?_, fun u n hn hu => ?_⟩
  · obtain ⟨s, hsrc, hpath⟩ := hroot.root u hu
    obtain ⟨t, ht, hpath'⟩ := hs.reaches_sink hc u hu
    exact ⟨s, hsrc, t, ht, hpath, hpath'⟩
  · have hk : n.kind.isSource = false := by
      rw [← Bool.not_eq_true]
      exact fun hk => hu ((hs.sources_iff u).2 ⟨n, hn, hk⟩)
    refine ⟨?_, ?_, hroot.in_bound u n hn hk⟩
    · obtain ⟨s, hsrc, hpath⟩ := hroot.root u (PMap.mem_keys_of_get hn)
      rcases ReflTransGen.cases_tail hpath with rfl | ⟨w, -, hw⟩
      · exact absurd hsrc hu
      · exact ⟨w, hw⟩
    · cases hkind : n.kind <;> simp_all [Kind.isSource, Kind.nin]

/-- A source, a transform that two branches were merged into and a sink. -/
theorem run_accepts_diamond :
    ∃ (p : Pipeline Nat) (U : Finset Id), Built Call.NonemptyLeaves p U ∧ p.runChecks true = .ok () ∧
      ∀ u ∈ p.nodes.keys, ∃ s ∈ p.sources, ∃ t ∈ p.sinks, ReflTransGen p.Edge s u ∧ ReflTransGen p.Edge u t := by
  have h := built_ofCalls (V := Nat) Call.NonemptyLeaves {} [.addSource 1 "source" (.generate (fun _ => none)),
    .forkFrom 1 2 2 (fun i => i + 3), .mergeTo 5 ⟨[4, 3], by decide⟩, .setSink 6 "sink" .consume ⟨[5], by decide⟩]
  exact ⟨_, _, h, rfl, (run_accepts_no_orphan h rfl).1⟩

/-- A `SetSink` or `Merge` that is given an empty set of leaves, whatever was built before it: if it returns, the new
processor is as the user made it, with no input bound by the call, and nothing leads to it. -/
theorem mergeTo_orphan {P : Call V → Prop} {p' : Pipeline V} (h : Built P p U) {id r : Id} (hid : id ∉ U)
    {insertToLeaves : Bool} {order : IdSet} (hempty : order.elems = [])
    (hcall : Pipeline.mergeTo insertToLeaves p id node order = .ok (p', r)) :
    p'.nodes.get id = some node ∧ id ∉ p'.sources ∧ (∀ w, ¬p'.Edge w id) ∧
    ∀ s ∈ p'.sources, ¬ReflTransGen p'.Edge s id := by
  have hs := built_sound h
  have hnew : id ∉ p.nodes.keys := fun hk => hid (hs.keys hk)
  obtain ⟨-, -, -, hgrown⟩ := Pipeline.mergeTo_grown hcall
  have hgrown := hgrown (if insertToLeaves then [] else [id]) (fun hi => if_pos hi) (fun hi => by rw [hi]; rfl)
  rw [hempty] at hgrown
  have hsources : p'.sources = p.sources := by
    have := hgrown.sources
    simpa [Growth.attach] using this
  have hedge : ∀ w, ¬p'.Edge w id := by
    intro w hw
    rcases (hgrown.edges w id).1 hw with he | ⟨hmem, -⟩
    · exact hnew (hs.edge_mem w id he).2
    · cases hmem
  have hnot : id ∉ p'.sources := by
    rw [hsources]
    exact fun hm => hnew (hs.source_mem hm)
  refine ⟨hgrown.get_fresh (if_pos rfl), hnot, hedge, fun s hmem hpath => ?_⟩
  rcases ReflTransGen.cases_tail hpath with rfl | ⟨w, -, hw⟩
  · exact hnot hmem
  · exact hedge w hw

/-- `SetSink(sink, {})` returns, and `Run` accepts the pipeline although no source leads to the sink and its input is
not bound. -/
theorem run_accepts_orphan_sink :
    ∃ (p : Pipeline Nat) (U : Finset Id) (n : Processor Nat), Built (fun _ => True) p U ∧ p.runChecks true = .ok () ∧
      p.nodes.get 3 = some n ∧ 3 ∉ p.sources ∧ n.inChan 0 = none ∧ (∀ w, ¬p.Edge w 3) ∧
      ∀ s ∈ p.sources, ¬ReflTransGen p.Edge s 3 := by
  have h := built_ofCalls (V := Nat) (fun _ => True) {} [.addSource 1 "source" (.generate (fun _ => none)),
    .setSink 2 "sink" .consume ⟨[1], by decide⟩, .setSinkTo 3 "orphan" .consume ⟨[], by decide⟩]
  have hbefore := built_ofCalls (V := Nat) (fun _ => True) {} [.addSource 1 "source" (.generate (fun _ => none)),
    .setSink 2 "sink" .consume ⟨[1], by decide⟩]
  obtain ⟨hn, hsource, hedge, hpath⟩ := mergeTo_orphan hbefore (show 3 ∉ _ by decide) rfl
    (show Pipeline.mergeTo false _ 3 (.ofSink "orphan" .consume) ⟨[], List.nodup_nil⟩ = _ from rfl)
  exact ⟨_, _, _, h, rfl, hn, hsource, rfl, hedge, hpath⟩

end Tunnel
