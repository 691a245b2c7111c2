import Tunnel.Wiring

/-!
# The wiring of every pipeline the builder makes

`MergePipeline` keeps the wiring (`Wired.merged`): a `NoOpTransform` it makes reads what the sink read and writes what
the source wrote. Hence `built_wired`, and what `built_wiring` says of the EOF counts. A `ConcatFrom` that names a leaf
twice is the exception, wherever it comes (`concatFrom_repeated`).
-/

namespace Tunnel

open Lib

variable {V : Type}

/-! ## Ports of sinks and sources -/

/-- No port of a sink is before a queue of the pipeline. -/
theorem Processor.Shaped.sink_out {n : Processor V} (h : n.Shaped) (hk : n.kind.isSink = true) {o : Nat} {q : Queue}
    (ho : n.outChan o = some q) : q.isLink = false := by
  have hlt := h.out_lt o q ho
  have hl := h.out_link o q ho
  cases hkind : n.kind with
  | sink k => cases k <;> simp_all [Kind.nout, Kind.isChannelSink]
  | _ => simp_all [Kind.isSink]

/-- No port of a source is behind a queue of the pipeline. -/
theorem Processor.Shaped.source_in {n : Processor V} (h : n.Shaped) (hk : n.kind.isSource = true) {i : Nat} {q : Queue}
    (hi : n.inChan i = some q) : q.isLink = false := by
  have hlt := h.in_lt i q hi
  have hl := h.in_link i q hi
  cases hkind : n.kind with
  | source k => cases k <;> simp_all [Kind.nin, Kind.isChannelSource]
  | _ => simp_all [Kind.isSource]

/-- The `NoOpTransform` made of a sink and a source has the input of the one and the output of the other. -/
theorem mergeSinkAndSource_inChan {s : Processor V} (t : Processor V) (hs : s.kind.isSink = true) (i : Nat) :
    (Pipeline.mergeSinkAndSource s t).inChan i = s.inChan i := by
  cases hk : s.kind <;> simp_all [Kind.isSink, Pipeline.mergeSinkAndSource, Processor.inChan, Processor.noOp,
    Processor.ofTransform, Kind.isMultiIn]

theorem mergeSinkAndSource_need {s : Processor V} (t : Processor V) (hs : s.kind.isSink = true) :
    (Pipeline.mergeSinkAndSource s t).need = s.need := by
  cases hk : s.kind <;> simp_all [Kind.isSink, Pipeline.mergeSinkAndSource, Processor.need, Processor.noOp,
    Processor.ofTransform, Kind.isMultiIn]

theorem mergeSinkAndSource_outChan (s : Processor V) {t : Processor V} (ht : t.kind.isSource = true) (o : Nat) :
    (Pipeline.mergeSinkAndSource s t).outChan o = t.outChan o := by
  cases hk : t.kind <;> simp_all [Kind.isSource, Pipeline.mergeSinkAndSource, Processor.outChan, Processor.noOp,
    Processor.ofTransform, Kind.isMultiOut]

/-! ## Who reads and who writes in a merge -/

section merge

variable {l r p : Pipeline V} {UL UR : Finset Id} {noopId : Nat → Id}

variable {a b : Id}

section

variable (hr : MergeReady l r UL UR noopId)
include hr

/-- The kind of the `i`-th sink of the left and of the `i`-th source of the right. -/
theorem MergeReady.noop_kinds {i : Nat} {s t : Processor V}
    (ha : l.sinks[i]? = some a) (hb : r.sources[i]? = some b) (hs : l.nodes.get a = some s)
    (ht : r.nodes.get b = some t) :
    s.kind.isSink = true ∧ t.kind.isSource = true := by
  obtain ⟨s', hs', hk⟩ := (hr.soundL.sinks_iff a).1 (List.mem_of_getElem? ha)
  obtain ⟨t', ht', hk'⟩ := (hr.soundR.sources_iff b).1 (List.mem_of_getElem? hb)
  rw [hs] at hs'
  rw [ht] at ht'
  cases hs'
  cases ht'
  exact ⟨hk, hk'⟩

/-- Who has the inputs of a processor of the left in the merge. -/
theorem Merged.reader_left (h : Merged l r noopId p) {m : Processor V}
    (ha : l.nodes.get a = some m) :
    ∃ n, p.nodes.get (mergedName l.sinks noopId a) = some n ∧ (∀ i, n.inChan i = m.inChan i) ∧ n.need = m.need := by
  by_cases hs : a ∈ l.sinks
  · obtain ⟨i, hi, hai, hn⟩ := hr.exists_name.1 hs
    have hb := List.getElem?_eq_getElem (hr.len ▸ hi)
    obtain ⟨s, t, hs', ht, hm⟩ := h.noop i _ _ hai hb
    obtain ⟨hks, -⟩ := hr.noop_kinds hai hb hs' ht
    rw [ha] at hs'
    cases hs'
    rw [hn]
    exact ⟨_, hm, mergeSinkAndSource_inChan t hks, mergeSinkAndSource_need t hks⟩
  · rw [mergedName_of_notMem hs]
    exact ⟨m, (h.left a (PMap.mem_keys_of_get ha) hs).trans ha, fun _ => rfl, rfl⟩

/-- Who has the outputs of a processor of the right in the merge. -/
theorem Merged.writer_right (h : Merged l r noopId p) {m : Processor V}
    (hb : r.nodes.get b = some m) :
    ∃ n, p.nodes.get (mergedName r.sources noopId b) = some n ∧ ∀ o, n.outChan o = m.outChan o := by
  by_cases hs : b ∈ r.sources
  · obtain ⟨i, hi, hbi, hn⟩ := hr.exists_name.2 hs
    have ha := List.getElem?_eq_getElem hi
    obtain ⟨s, t, hs', ht, hm⟩ := h.noop i _ _ ha hbi
    obtain ⟨-, hkt⟩ := hr.noop_kinds ha hbi hs' ht
    rw [hb] at ht
    cases ht
    rw [hn]
    exact ⟨_, hm, mergeSinkAndSource_outChan s hkt⟩
  · rw [mergedName_of_notMem hs]
    exact ⟨m, (h.right b (PMap.mem_keys_of_get hb) hs).trans hb, fun _ => rfl⟩

/-- The inputs of a processor of the merge are those of one of the left, or of one of the right that is no source. -/
theorem Merged.reader_cases (h : Merged l r noopId p) {v : Id} {n : Processor V}
    (hv : p.nodes.get v = some n) :
    (∃ a m, l.nodes.get a = some m ∧ v = mergedName l.sinks noopId a ∧ (∀ i, n.inChan i = m.inChan i) ∧
      n.need = m.need) ∨ (v ∉ r.sources ∧ r.nodes.get v = some n) := by
  rcases h.get_cases hv with ⟨hs, hl⟩ | hr' | ⟨i, a, b, s, t, rfl, ha, hb, hs, ht, rfl⟩
  · exact Or.inl ⟨v, n, hl, (mergedName_of_notMem hs).symm, fun _ => rfl, rfl⟩
  · exact Or.inr hr'
  · obtain ⟨hks, -⟩ := hr.noop_kinds ha hb hs ht
    exact Or.inl ⟨a, s, hs, (mergedName_getElem noopId hr.soundL.sinks_nodup ha).symm, mergeSinkAndSource_inChan t hks,
      mergeSinkAndSource_need t hks⟩

/-- The outputs of a processor of the merge are those of one of the left that is no sink, or of one of the right. -/
theorem Merged.writer_cases (h : Merged l r noopId p) {u : Id} {n : Processor V}
    (hu : p.nodes.get u = some n) :
    (u ∉ l.sinks ∧ l.nodes.get u = some n) ∨
      ∃ b m, r.nodes.get b = some m ∧ u = mergedName r.sources noopId b ∧ ∀ o, n.outChan o = m.outChan o := by
  rcases h.get_cases hu with hl | ⟨hs, hr'⟩ | ⟨i, a, b, s, t, rfl, ha, hb, hs, ht, rfl⟩
  · exact Or.inl hl
  · exact Or.inr ⟨u, n, hr', (mergedName_of_notMem hs).symm, fun _ => rfl⟩
  · obtain ⟨-, hkt⟩ := hr.noop_kinds ha hb hs ht
    exact Or.inr ⟨b, t, ht, (mergedName_getElem noopId hr.soundR.sources_nodup hb).symm,
      mergeSinkAndSource_outChan s hkt⟩

/-- Different processors of the right get different names. -/
theorem MergeReady.nameR_inj (ha : a ∈ r.nodes.keys) (hb : b ∈ r.nodes.keys)
    (he : mergedName r.sources noopId a = mergedName r.sources noopId b) : a = b :=
  mergedName_inj (fun _ hi _ hj => hr.inj (hr.len ▸ hi) (hr.len ▸ hj)) (fun _ hi =>
    hr.notMem_right (hr.len ▸ hi)) ha hb he

theorem MergeReady.nameL_inj (ha : a ∈ l.nodes.keys) (hb : b ∈ l.nodes.keys)
    (he : mergedName l.sinks noopId a = mergedName l.sinks noopId b) : a = b :=
  mergedName_inj (fun _ hi _ hj => hr.inj hi hj) (fun _ hi => hr.notMem_left hi) ha hb he

omit hr in
/-- The processor made of a sink and a source is well shaped. -/
theorem mergeSinkAndSource_shaped {s t : Processor V} (hs : s.Shaped) (ht : t.Shaped) (hks : s.kind.isSink = true)
    (hkt : t.kind.isSource = true) : (Pipeline.mergeSinkAndSource s t).Shaped := by
  refine ⟨fun i q h => ?_, fun o q h => ?_, fun i q h => ?_, fun o q h => ?_, fun i q h => ?_, nofun, nofun, nofun⟩
  · rw [mergeSinkAndSource_inChan t hks] at h
    have := hs.in_lt i q h
    cases hk : s.kind <;> simp_all [Kind.isSink, Kind.nin, mergeSinkAndSource_kind]
  · rw [mergeSinkAndSource_outChan s hkt] at h
    have := ht.out_lt o q h
    cases hk : t.kind <;> simp_all [Kind.isSource, Kind.nout, mergeSinkAndSource_kind]
  · rw [mergeSinkAndSource_inChan t hks] at h
    rw [hs.in_link i q h]
    cases hk : s.kind <;> simp_all [Kind.isSink, Kind.isChannelSource, mergeSinkAndSource_kind]
  · rw [mergeSinkAndSource_outChan s hkt] at h
    rw [ht.out_link o q h]
    cases hk : t.kind <;> simp_all [Kind.isSource, Kind.isChannelSink, mergeSinkAndSource_kind]
  · rw [mergeSinkAndSource_inChan t hks] at h
    rw [mergeSinkAndSource_need t hks]
    exact hs.need_pos i q h

/-- The writers of a queue of the left are the same in the merge. -/
theorem Merged.writers_left (h : Merged l r noopId p) (hwl : Ported l UL) (hwr : Ported r UR)
    {id k c : Nat} (hid : id ∈ UL) : p.writers (.link id k c) = l.writers (.link id k c) := by
  ext ⟨u, o⟩
  rw [Pipeline.mem_writers, Pipeline.mem_writers]
  constructor
  · rintro ⟨n, hn, ho⟩
    rcases h.writer_cases hr hn with ⟨-, hl⟩ | ⟨b, m, hb, -, hout⟩
    · exact ⟨n, hl, ho⟩
    · rw [hout] at ho
      exact absurd (hwr.out_mem b m o _ _ _ hb ho) (Finset.disjoint_left.1 hr.disjoint hid)
  · rintro ⟨n, hn, ho⟩
    have hs : u ∉ l.sinks := by
      intro hs
      obtain ⟨n', hn', hk⟩ := (hr.soundL.sinks_iff u).1 hs
      rw [hn] at hn'
      cases hn'
      have := (hwl.shaped u n hn).sink_out hk ho
      cases this
    exact ⟨n, (h.left u (PMap.mem_keys_of_get hn) hs).trans hn, ho⟩

/-- The writers of a queue of the right keep their number: a source's port is now one of the processor that took its
place. -/
theorem Merged.writers_right (h : Merged l r noopId p) (hwl : Ported l UL)
    {id k c : Nat} (hid : id ∈ UR) :
    p.writers (.link id k c) = (r.writers (.link id k c)).image (fun w => (mergedName r.sources noopId w.1, w.2)) := by
  ext ⟨u, o⟩
  simp only [Pipeline.mem_writers, Finset.mem_image, Prod.exists, Prod.mk.injEq]
  constructor
  · rintro ⟨n, hn, ho⟩
    rcases h.writer_cases hr hn with ⟨-, hl⟩ | ⟨b, m, hb, rfl, hout⟩
    · exact absurd hid (Finset.disjoint_left.1 hr.disjoint (hwl.out_mem u n o _ _ _ hl ho))
    · rw [hout] at ho
      exact ⟨b, o, ⟨m, hb, ho⟩, rfl, rfl⟩
  · rintro ⟨b, o', ⟨m, hb, ho⟩, rfl, rfl⟩
    obtain ⟨n, hn, hout⟩ := h.writer_right hr hb
    exact ⟨n, hn, (hout o').trans ho⟩

theorem MergeReady.card_writers_right (q : Queue) :
    ((r.writers q).image (fun w => (mergedName r.sources noopId w.1, w.2))).card = (r.writers q).card := by
  refine Finset.card_image_of_injOn ?_
  rintro ⟨a, o⟩ ha ⟨b, o'⟩ hb he
  obtain ⟨n, hn, -⟩ := (r.mem_writers q a o).1 ha
  obtain ⟨m, hm, -⟩ := (r.mem_writers q b o').1 hb
  obtain ⟨he1, rfl⟩ := Prod.mk.inj he
  rw [hr.nameR_inj (PMap.mem_keys_of_get hn) (PMap.mem_keys_of_get hm) he1]

/-- The merge of two completed pipelines keeps the invariant of the ports. -/
theorem Ported.merged (h : Merged l r noopId p) (hwl : Ported l UL) (hwr : Ported r UR)
    (hlc : l.leaves = ∅) (hrc : r.leaves = ∅) :
    Ported p (UL ∪ UR ∪ ((List.range l.sinks.length).map noopId).toFinset) := by
  have hdis : ∀ {x}, x ∈ UL → x ∉ UR := fun hx => Finset.disjoint_left.1 hr.disjoint hx
  have hnosrc : ∀ {v m i q}, r.nodes.get v = some m → m.inChan i = some q → q.isLink = true → v ∉ r.sources := by
    intro v m i q hv hi hq hs
    obtain ⟨m', hm', hk⟩ := (hr.soundR.sources_iff v).1 hs
    rw [hv] at hm'
    cases hm'
    rw [(hwr.shaped v m hv).source_in hk hi] at hq
    cases hq
  refine ⟨fun u n hu => ?_, fun u n i x k c hu hi => ?_, fun u n o x k c hu ho => ?_,
    fun u n i v m j q hu hv hi hj hq => ?_, fun u n o o' q hu ho ho' => ?_, fun u v he => ?_,
    fun u v n m o i q hu hv ho hi hq => ?_, fun u n o q hu ho hq => ?_, fun u n hu hl => ?_,
    fun u n hu hl hs o ho => ?_⟩
  · rcases h.get_cases hu with ⟨-, hl⟩ | ⟨-, hr'⟩ | ⟨i, a, b, s, t, rfl, ha, hb, hs, ht, rfl⟩
    · exact hwl.shaped u n hl
    · exact hwr.shaped u n hr'
    · obtain ⟨hks, hkt⟩ := hr.noop_kinds ha hb hs ht
      exact mergeSinkAndSource_shaped (hwl.shaped a s hs) (hwr.shaped b t ht) hks hkt
  · rcases h.reader_cases hr hu with ⟨a, m, ha, -, hin, -⟩ | ⟨-, hr'⟩
    · exact Finset.mem_union_left _ (Finset.mem_union_left _ (hwl.in_mem a m i x k c ha ((hin i).symm.trans hi)))
    · exact Finset.mem_union_left _ (Finset.mem_union_right _ (hwr.in_mem u n i x k c hr' hi))
  · rcases h.writer_cases hr hu with ⟨-, hl⟩ | ⟨b, m, hb, -, hout⟩
    · exact Finset.mem_union_left _ (Finset.mem_union_left _ (hwl.out_mem u n o x k c hl ho))
    · exact Finset.mem_union_left _ (Finset.mem_union_right _ (hwr.out_mem b m o x k c hb ((hout o).symm.trans ho)))
  · cases q with
    | user ch => cases hq
    | link x k c =>
      rcases h.reader_cases hr hu with ⟨a, n', ha, rfl, hin, -⟩ | ⟨-, hu'⟩ <;>
        rcases h.reader_cases hr hv with ⟨b, m', hb, rfl, hin', -⟩ | ⟨-, hv'⟩
      · obtain ⟨rfl, rfl⟩ := hwl.reader_unique a n' i b m' j _ ha hb ((hin i).symm.trans hi) ((hin' j).symm.trans hj) hq
        exact ⟨rfl, rfl⟩
      · exact absurd (hwr.in_mem v m j x k c hv' hj) (hdis (hwl.in_mem a n' i x k c ha ((hin i).symm.trans hi)))
      · exact absurd (hwr.in_mem u n i x k c hu' hi) (hdis (hwl.in_mem b m' j x k c hb ((hin' j).symm.trans hj)))
      · exact hwr.reader_unique u n i v m j _ hu' hv' hi hj hq
  · rcases h.writer_cases hr hu with ⟨-, hl⟩ | ⟨b, m, hb, -, hout⟩
    · exact hwl.out_unique u n o o' q hl ho ho'
    · exact hwr.out_unique b m o o' q hb ((hout o).symm.trans ho) ((hout o').symm.trans ho')
  · rcases (h.edges u v).1 he with ⟨b, hb, rfl⟩ | ⟨a, ha, rfl⟩
    · obtain ⟨n, m, o, i, q, hn, hm, ho, hi⟩ := hwl.edge_port u b hb
      obtain ⟨m', hm', hin, -⟩ := h.reader_left hr hm
      have hu := h.left u (PMap.mem_keys_of_get hn) (fun hs => hr.soundL.sinks_out u hs b hb)
      exact ⟨n, m', o, i, q, hu.trans hn, hm', ho, (hin i).trans hi⟩
    · obtain ⟨n, m, o, i, q, hn, hm, ho, hi⟩ := hwr.edge_port a v ha
      obtain ⟨n', hn', hout⟩ := h.writer_right hr hn
      have hv := h.right v (PMap.mem_keys_of_get hm) (fun hs => hr.soundR.sources_in v hs a ha)
      exact ⟨n', m, o, i, q, hn', hv.trans hm, (hout o).trans ho, hi⟩
  · cases q with
    | user ch => cases hq
    | link x k c =>
      rw [h.edges]
      rcases h.writer_cases hr hu with ⟨-, hl⟩ | ⟨b, m', hb, rfl, hout⟩ <;>
        rcases h.reader_cases hr hv with ⟨a, n', ha, rfl, hin, -⟩ | ⟨-, hv'⟩
      · exact Or.inl ⟨a, hwl.port_edge u a n n' o i _ hl ha ho ((hin i).symm.trans hi) hq, rfl⟩
      · exact absurd (hwr.in_mem v m i x k c hv' hi) (hdis (hwl.out_mem u n o x k c hl ho))
      · exact absurd (hwr.out_mem b m' o x k c hb ((hout o).symm.trans ho))
          (hdis (hwl.in_mem a n' i x k c ha ((hin i).symm.trans hi)))
      · exact Or.inr ⟨b, hwr.port_edge b v m' m o i _ hb hv' ((hout o).symm.trans ho) hi hq, rfl⟩
  · rcases h.writer_cases hr hu with ⟨-, hl⟩ | ⟨b, m, hb, -, hout⟩
    · obtain ⟨v, m, i, hv, hi⟩ := hwl.out_read u n o q hl ho hq
      obtain ⟨m', hm', hin, -⟩ := h.reader_left hr hv
      exact ⟨_, m', i, hm', (hin i).trans hi⟩
    · obtain ⟨v, m', i, hv, hi⟩ := hwr.out_read b m o q hb ((hout o).symm.trans ho) hq
      exact ⟨v, m', i, (h.right v (PMap.mem_keys_of_get hv) (hnosrc hv hi hq)).trans hv, hi⟩
  · rw [h.leaves] at hl
    simp at hl
  · have hnl : ∀ u, u ∉ l.leaves := fun u => by simp [hlc]
    have hnr : ∀ u, u ∉ r.leaves := fun u => by simp [hrc]
    rcases h.get_cases hu with ⟨-, hl⟩ | ⟨-, hr'⟩ | ⟨i, a, b, s, t, rfl, ha, hb, hs', ht, rfl⟩
    · exact hwl.out_bound u n hl (hnl u) hs o ho
    · exact hwr.out_bound u n hr' (hnr u) hs o ho
    · obtain ⟨-, hkt⟩ := hr.noop_kinds ha hb hs' ht
      rw [mergeSinkAndSource_outChan s hkt]
      refine hwr.out_bound b t ht (hnr b) ?_ o ?_
      · cases hk : t.kind <;> simp_all [Kind.isSource, Kind.isSink]
      · cases hk : t.kind <;> simp_all [Kind.isSource, Kind.nout, mergeSinkAndSource_kind]

/-- The merge keeps the EOF counts, since a `NoOpTransform` waits for as many EOFs as the sink did. -/
theorem Pipeline.Counted.merged (h : Merged l r noopId p) (hwl : Ported l UL) (hwr : Ported r UR)
    (hcl : l.Counted) (hcr : r.Counted) : p.Counted := by
  intro v n i q hv hi hq
  cases q with
  | user ch => cases hq
  | link x k c =>
    rcases h.reader_cases hr hv with ⟨a, m, ha, -, hin, hneed⟩ | ⟨-, hv'⟩
    · have hi' := (hin i).symm.trans hi
      rw [h.writers_left hr hwl hwr (hwl.in_mem a m i x k c ha hi'), hneed]
      exact hcl a m i _ ha hi' hq
    · rw [h.writers_right hr hwl (hwr.in_mem v n i x k c hv' hi), hr.card_writers_right]
      exact hcr v n i _ hv' hi hq

/-- The merge of two completed pipelines keeps the wiring. -/
theorem Wired.merged (h : Merged l r noopId p) (hwl : Wired l UL) (hwr : Wired r UR)
    (hlc : l.leaves = ∅) (hrc : r.leaves = ∅) :
    Wired p (UL ∪ UR ∪ ((List.range l.sinks.length).map noopId).toFinset) := by
  exact ⟨Ported.merged hr h hwl.toPorted hwr.toPorted hlc hrc,
    Pipeline.Counted.merged hr h hwl.toPorted hwr.toPorted hwl.count hwr.count⟩

end

end merge

variable {p : Pipeline V} {U : Finset Id} {P : Call V → Prop}

theorem Ported.mono {U' : Finset Id} (h : Ported p U) (hU : U ⊆ U') : Ported p U' :=
  { h with
    in_mem := fun u n i r k c hu hi => hU (h.in_mem u n i r k c hu hi)
    out_mem := fun u n o r k c hu ho => hU (h.out_mem u n o r k c hu ho) }

theorem Wired.mono {U' : Finset Id} (h : Wired p U) (hU : U ⊆ U') : Wired p U' :=
  ⟨h.toPorted.mono hU, h.count⟩

/-- The ports of every pipeline that builder calls reach are in order, whatever leaves the calls name. -/
theorem built_ported (h : Built P p U) : Ported p U := by
  induction h with
  | new o => exact (wired_new o).toPorted
  | call c hb hc hdis hid he hrun ih =>
    have hs := built_sound hb
    exact ih.grows hs (call_grows False False c hs.keys (fun l hl =>
      ((hs.leaves_iff l).1 hl).1) hdis hid he nofun nofun hrun)
  | mergePipeline noopId hbl hbr hdis hnd hnew hrun ihl ihr =>
    obtain ⟨hlc, hrc, ⟨-, rfl⟩ | ⟨-, rfl⟩ | ⟨-, -, hready, hm⟩⟩ :=
      mergePipeline_ok (built_sound hbl) (built_sound hbr) hdis hnd hnew hrun
    · exact ihr.mono (fun x hx => Finset.mem_union_left _ (Finset.mem_union_right _ hx))
    · exact ihl.mono (fun x hx => Finset.mem_union_left _ (Finset.mem_union_left _ hx))
    · exact Ported.merged hready hm ihl ihr hlc hrc

/-- Every pipeline that builder calls reach is well wired, as long as no `ConcatFrom` names a leaf twice. -/
theorem built_wired (hP : ∀ c, P c → c.NoRepeat) (h : Built P p U) :
    Wired p U := by
  induction h with
  | new o => exact wired_new o
  | call c hb hc hdis hid he hrun ih =>
    have hs := built_sound hb
    exact ih.grows trivial hs (call_grows True False c hs.keys (fun l hl => ((hs.leaves_iff l).1 hl).1) hdis hid he
      (fun _ => hP c hc) nofun hrun)
  | mergePipeline noopId hbl hbr hdis hnd hnew hrun ihl ihr =>
    obtain ⟨hlc, hrc, ⟨-, rfl⟩ | ⟨-, rfl⟩ | ⟨-, -, hready, hm⟩⟩ :=
      mergePipeline_ok (built_sound hbl) (built_sound hbr) hdis hnd hnew hrun
    · exact ihr.mono (fun x hx => Finset.mem_union_left _ (Finset.mem_union_right _ hx))
    · exact ihl.mono (fun x hx => Finset.mem_union_left _ (Finset.mem_union_left _ hx))
    · exact Wired.merged hready hm ihl ihr hlc hrc

/-! ## EOF counts -/

/-- As long as no `ConcatFrom` names a leaf twice, builder calls keep the wiring in step with the EOF counts: as many
output ports hold the queue of an input (of a processor that is no `ChannelSource`) as EOFs are waited for there, and
every edge is a queue that an output of the one and an input of the other hold. -/
theorem built_wiring {p : Pipeline V} {U : Finset Id} (h : Built Call.NoRepeat p U) :
    (∀ v n i q, p.nodes.get v = some n → n.kind.isChannelSource = false → n.inChan i = some q →
      (p.writers q).card = n.need) ∧
    (∀ u v, p.Edge u v → ∃ n m o i q, p.nodes.get u = some n ∧ p.nodes.get v = some m ∧ n.outChan o = some q ∧
      m.inChan i = some q) := by
  have hw := built_wired (fun _ hc => hc) h
  refine ⟨fun v n i q hv hk hi => hw.count v n i q hv hi ?_, hw.edge_port⟩
  rw [(hw.shaped v n hv).in_link i q hi, hk]
  rfl

/-- Two sources before one sink: it waits for two EOFs, and two ports hold its queue. -/
theorem built_wiring_two_sources :
    ∃ (p : Pipeline Nat) (U : Finset Id) (n : Processor Nat)
    (q : Queue), Built Call.NoRepeat p U ∧ p.nodes.get 3 = some n ∧
      n.inChan 0 = some q ∧ n.need = 2 ∧ (p.writers q).card = n.need := by
  have h := built_ofCalls (V := Nat) Call.NoRepeat {} [.addSource 1 "one" (.generate (fun _ => none)),
    .addSource 2 "two" (.generate (fun _ => none)), .setSink 3 "sink" .consume ⟨[1, 2], by decide⟩]
  exact ⟨_, _, _, _, h, rfl, rfl, rfl, (built_wiring h).1 3 _ 0 _ rfl rfl rfl⟩

/-- Where an id stands in a list is not behind its last place. -/
theorem Growth.le_lastIndex {L : List Id} {j : Nat} {l : Id} (h : L[j]? = some l) : j ≤ Growth.lastIndex L l := by
  induction L using List.reverseRecOn with
  | nil => cases h
  | append_singleton L a ih =>
    rw [Pipeline.lastIndex_snoc]
    obtain ⟨hlt, -⟩ := List.getElem?_eq_some_iff.1 h
    rw [List.length_append, List.length_singleton] at hlt
    split
    · omega
    · rename_i hne
      rcases Nat.lt_or_eq_of_le (Nat.le_of_lt_succ hlt) with hj | rfl
      · rw [List.getElem?_append_left hj] at h
        exact ih h
      · rw [List.getElem?_concat_length] at h
        exact absurd (Option.some.inj h).symm hne

/-- A `ConcatFrom` that names a leaf twice, whatever was built before it: if it returns, nothing writes the queue of the
earlier place, on which the `Concat` waits for one EOF. -/
theorem concatFrom_repeated {p' : Pipeline V} (h : Built P p U) {L : List Id} {id r : Id} (hid : id ∉ U)
    (hcall : p.concatFrom L id = .ok (p', r)) {i j : Nat} {l : Id} (hi : L[i]? = some l) (hj : L[j]? = some l)
    (hij : i < j) :
    ∃ n q, p'.nodes.get id = some n ∧ n.kind.isChannelSource = false ∧ n.inChan i = some q ∧ n.need = 1 ∧
    p'.writers q = ∅ := by
  have hs := built_sound h
  obtain ⟨hmem, pos, hgrown⟩ := Pipeline.concatFrom_grown (fun hk => hid (hs.keys hk)) hcall
  have hof : GrowthOf False False p {id} (.concat id L pos p.option.channelSize) := .concat id L pos hmem nofun
  have hK : Disjoint {id} U := Finset.disjoint_singleton_left.2 hid
  have hgrowing : Growing p U {id} _ p' := ⟨built_ported h, hs, hof.fits hs hK, hof.hangs, hK, hgrown⟩
  have hnode : p'.nodes.get id = some (Growth.concatNode V id L pos p.option.channelSize) :=
    hgrown.get_fresh (if_pos rfl)
  have hlt : i < L.length := (List.getElem?_eq_some_iff.1 hi).1
  refine ⟨_, .link id i p.option.channelSize, hnode, rfl, by rw [concatNode_inChan, if_pos hlt], rfl, ?_⟩
  rw [Finset.eq_empty_iff_forall_notMem]
  rintro ⟨u, o⟩ hu
  rcases (hgrowing.mem_writers_new (Finset.mem_singleton_self id)).1 hu with ⟨-, hout⟩ | ⟨m, hm, ho⟩
  · -- the leaf of this place has the queue of its last place
    obtain ⟨hu, hq⟩ := eq_of_ite_some hout
    injection hq with _ hlast _
    have hget := Growth.getElem?_lastIndex hu
    rw [← hlast, hi] at hget
    cases hget
    have := Growth.le_lastIndex hj
    omega
  · obtain ⟨-, rfl⟩ := eq_of_ite_some hm
    exact absurd ho (by simp [Processor.outChan, Kind.isMultiOut])

/-- `ConcatFrom({s, s})` passes `leaves_check` and returns. The output port of `s` then holds the second queue only:
nothing writes the first one, and the `Concat` waits for one EOF on it. -/
theorem concat_repeated_leaf :
    ∃ (p : Pipeline Nat) (U : Finset Id) (n : Processor Nat)
    (q : Queue), Built (fun _ => True) p U ∧ p.nodes.get 2 = some n ∧
      n.kind.isChannelSource = false ∧ n.inChan 0 = some q ∧ n.need = 1 ∧ p.writers q = ∅ := by
  have h := built_ofCalls (V := Nat) (fun _ => True) {} [.addSource 1 "source" (.generate (fun _ => none)),
    .concatFrom [1, 1] 2]
  have hsource := built_ofCalls (V := Nat) (fun _ => True) {} [.addSource 1 "source" (.generate (fun _ => none))]
  obtain ⟨n, q, hn, hk, hq, hneed, hwriters⟩ :=
    concatFrom_repeated hsource (show 2 ∉ _ by decide) (L := [1, 1]) rfl (i := 0) (j := 1) rfl rfl
    Nat.one_pos
  exact ⟨_, _, n, q, h, hn, hk, hq, hneed, hwriters⟩

end Tunnel
