import Tunnel.Lemmas.Calls
import Tunnel.Lib.Ranked

/-!
# The structure of a built pipeline

`Sound p U` is the invariant of the builder: the shape of `dags_`, what `leaves_`, `sources_` and `sinks_` are in terms
of it, and which class the processors of each have. A growth keeps it (`Sound.grown`); so does `MergePipeline` (in
`Merge.lean`).
-/

namespace Tunnel

open Lib

variable {V : Type}

/-- The invariant of the builder, with the ids handed out so far. -/
structure Sound (p : Pipeline V) (U : Finset Id) : Prop where
  keys : p.nodes.keys ⊆ U
  edge_mem : ∀ u v, p.Edge u v → u ∈ p.nodes.keys ∧ v ∈ p.nodes.keys
  ranked : Ranked p.Edge
  dagKeys : ∀ u ∈ p.dags.keys, ∃ v, p.Edge u v
  leaves_iff : ∀ u, u ∈ p.leaves ↔ u ∈ p.nodes.keys ∧ u ∉ p.sinks ∧ ∀ v, ¬p.Edge u v
  sources_iff : ∀ u, u ∈ p.sources ↔ ∃ n, p.nodes.get u = some n ∧ n.kind.isSource = true
  sinks_iff : ∀ u, u ∈ p.sinks ↔ ∃ n, p.nodes.get u = some n ∧ n.kind.isSink = true
  sources_in : ∀ u ∈ p.sources, ∀ v, ¬p.Edge v u
  sinks_out : ∀ u ∈ p.sinks, ∀ v, ¬p.Edge u v
  sources_nodup : p.sources.Nodup
  sinks_nodup : p.sinks.Nodup

/-- What makes a growth fit a pipeline: the processors with the ids `K` are new, edges lead to them from the leaves that
are hung before a queue or between them (then upwards), and the lists of leaves, sources and sinks grow by what belongs
there. -/
structure Growth.Fits (g : Growth V) (p : Pipeline V) (K : Finset Id) : Prop where
  fresh_iff : ∀ j, (g.fresh j).isSome = true ↔ j ∈ K
  edge_to : ∀ u v, g.edge u v → v ∈ K
  edge_from : ∀ u v, g.edge u v → u ∈ K ∨ (u ∈ p.leaves ∧ (g.out u).isSome = true)
  out_leaf : ∀ u, (g.out u).isSome = true → u ∈ p.leaves ∧ ∃ v, g.edge u v
  height : ∃ height : Id → Nat, ∀ u v, g.edge u v → u ∈ K → height u < height v
  leaf_iff : ∀ u, g.leaf u ↔ u ∈ K ∧ u ∉ g.sinks ∧ ∀ v, ¬g.edge u v
  sources_iff : ∀ u, u ∈ g.sources ↔ ∃ n, g.fresh u = some n ∧ n.kind.isSource = true
  sinks_iff : ∀ u, u ∈ g.sinks ↔ ∃ n, g.fresh u = some n ∧ n.kind.isSink = true
  sources_in : ∀ u ∈ g.sources, ∀ v, ¬g.edge v u
  sinks_out : ∀ u ∈ g.sinks, ∀ v, ¬g.edge u v
  sources_nodup : g.sources.Nodup
  sinks_nodup : g.sinks.Nodup

theorem Processor.ofSource_kind (name : Name) (k : SourceKind V) : (Processor.ofSource name k).kind = .source k := by
  cases k <;> rfl

theorem Processor.ofSink_kind (name : Name) (k : SinkKind) :
    (Processor.ofSink name k : Processor V).kind = .sink k := by
  cases k <;> rfl

theorem Processor.setOut_kind (n : Processor V) (o : Option Queue) : (n.setOut o).kind = n.kind := by
  cases o <;> rfl

theorem Growth.fed_kind (n : Processor V) (q : Queue) (k : Nat) : (Growth.fed n q k).kind = n.kind := by
  unfold Growth.fed
  split <;> rfl

variable {p p' : Pipeline V} {U K : Finset Id} {g : Growth V} {u : Id}

/-- The growth of a single processor behind leaves fits when its class goes with the list it joins. -/
theorem fits_attach (hp : Sound p U) {id : Id} (hid : id ∉ U) (node : Processor V) (L : List Id) (size : Nat)
    (isSink : Bool) (mem : ∀ l ∈ L, l ∈ p.leaves) (hsrc : node.kind.isSource = false)
    (hsink : node.kind.isSink = isSink) : (Growth.attach id node L size isSink).Fits p {id} := by
  have hne : ∀ u ∈ L, u ≠ id := fun u hu he => hid (he ▸ hp.keys ((hp.leaves_iff u).1 (mem u hu)).1)
  refine ⟨fun j => ?_, fun u v h => ?_, fun u v h => Or.inr ⟨mem u h.1, ?_⟩, fun u h => ?_,
    ⟨fun _ => 0, fun u v h hu => ?_⟩, fun u => ?_, fun u => ?_, fun u => ?_, ?_, fun u hu v h => ?_, ?_, ?_⟩
  · by_cases hj : j = id <;> simp [Growth.attach, hj]
  · exact Finset.mem_singleton.2 h.2
  · simp [Growth.attach, h.1]
  · by_cases hu : u ∈ L
    · exact ⟨mem u hu, id, hu, rfl⟩
    · simp [Growth.attach, hu] at h
  · exact absurd (Finset.mem_singleton.1 hu) (hne u h.1)
  · simp only [Growth.attach, Finset.mem_singleton]
    constructor
    · rintro ⟨hs, rfl⟩
      exact ⟨rfl, by simp [hs], fun v h => hne _ h.1 rfl⟩
    · rintro ⟨rfl, hs, -⟩
      cases isSink <;> simp_all
  · simp only [Growth.attach, List.not_mem_nil, false_iff]
    rintro ⟨n, hn, hk⟩
    split at hn
    · cases hn
      rw [Growth.fed_kind, hsrc] at hk
      cases hk
    · cases hn
  · simp only [Growth.attach]
    by_cases hu : u = id
    · simp [hu, Growth.fed_kind, hsink]
    · simp [hu]
  · simp [Growth.attach]
  · have hu' : u = id := by
      simp only [Growth.attach] at hu
      split at hu
      · simpa using hu
      · simp at hu
    exact hne u h.1 hu'
  · simp [Growth.attach]
  · simp only [Growth.attach]
    split <;> simp

/-- The growth of a fan-out fits. -/
theorem fits_fanOut (hp : Sound p U) {leaf id : Id} {n : Nat} {noopId : Nat → Id}
    (hK : Disjoint (insert id ((List.range n).map noopId).toFinset) U) (node : Processor V) (size : Nat) (pos : 0 < n)
    (mem : leaf ∈ p.leaves) (nodup : (id :: (List.range n).map noopId).Nodup) (hsrc : node.kind.isSource = false)
    (hsink : node.kind.isSink = false) :
    (Growth.fanOut leaf id node n noopId size).Fits p (insert id ((List.range n).map noopId).toFinset) := by
  obtain ⟨hidm, -⟩ := List.nodup_cons.1 nodup
  have hlU : leaf ∈ U := hp.keys ((hp.leaves_iff leaf).1 mem).1
  have hlid : leaf ≠ id := fun h => Finset.disjoint_left.1 hK (by simp) (h ▸ hlU)
  have hln : leaf ∉ (List.range n).map noopId :=
    fun h => Finset.disjoint_left.1 hK (Finset.mem_insert_of_mem (List.mem_toFinset.2 h)) hlU
  have h0 : noopId 0 ∈ (List.range n).map noopId := List.mem_map.2 ⟨0, List.mem_range.2 pos, rfl⟩
  refine ⟨fun j => ?_, fun u v h => ?_, fun u v h => ?_, fun u h => ?_,
    ⟨fun x => if x = id then 0 else 1, fun u v h hu => ?_⟩, fun u => ?_, fun u => ?_, fun u => ?_, by
    simp [Growth.fanOut], by simp [Growth.fanOut], by simp [Growth.fanOut], by simp [Growth.fanOut]⟩
  · simp only [Growth.fanOut, Finset.mem_insert, List.mem_toFinset]
    by_cases hj : j = id
    · simp [hj]
    · by_cases hm : j ∈ (List.range n).map noopId
      · simp only [hj, hm, if_true, if_false, Option.isSome_some, or_true]
      · simp only [hj, hm, if_false, Option.isSome_none, or_false, Bool.false_eq_true]
  · rcases h with ⟨-, rfl⟩ | ⟨-, h⟩
    · simp
    · exact Finset.mem_insert_of_mem (List.mem_toFinset.2 h)
  · rcases h with ⟨rfl, -⟩ | ⟨rfl, -⟩
    · exact Or.inr ⟨mem, by simp [Growth.fanOut]⟩
    · exact Or.inl (by simp)
  · by_cases hu : u = leaf
    · subst hu
      exact ⟨mem, id, Or.inl ⟨rfl, rfl⟩⟩
    · simp [Growth.fanOut, hu] at h
  · rcases h with ⟨rfl, -⟩ | ⟨rfl, h⟩
    · exact absurd hlU (Finset.disjoint_left.1 hK hu)
    · have hv : v ≠ u := fun he => hidm (he ▸ h)
      simp [hv]
  · simp only [Growth.fanOut, Finset.mem_insert, List.mem_toFinset, List.not_mem_nil, not_false_eq_true, true_and]
    constructor
    · intro hu
      refine ⟨Or.inr hu, fun v h => ?_⟩
      rcases h with ⟨rfl, -⟩ | ⟨rfl, -⟩
      · exact hln hu
      · exact hidm hu
    · rintro ⟨rfl | hu, h⟩
      · exact absurd (Or.inr ⟨rfl, h0⟩) (h (noopId 0))
      · exact hu
  all_goals
    simp only [Growth.fanOut, List.not_mem_nil, false_iff]
    rintro ⟨m, hm, hk⟩
    split at hm
    · cases hm
      simp_all
    · split at hm
      · cases hm
        simp [Processor.setInputPort, Processor.noOp, Processor.ofTransform, Kind.isSource, Kind.isSink] at hk
      · cases hm

/-- The growth of every builder call fits. -/
theorem GrowthOf.fits {nr ne : Prop} (hp : Sound p U) (hg : GrowthOf nr ne p K g) (hK : Disjoint K U) :
    g.Fits p K := by
  cases hg with
  | nothing => exact ⟨by simp [Growth.nothing], fun _ _ => False.elim, fun _ _ => False.elim, by simp [Growth.nothing],
      ⟨fun _ => 0, fun _ _ => False.elim⟩, by simp [Growth.nothing], by simp [Growth.nothing], by simp [Growth.nothing],
      fun _ _ _ => not_false, fun _ _ _ => not_false, by simp [Growth.nothing], by simp [Growth.nothing]⟩
  | source id name k =>
    refine ⟨fun j => ?_, fun _ _ => False.elim, fun _ _ => False.elim,
      by simp [Growth.source], ⟨fun _ => 0, fun _ _ => False.elim⟩, by
      simp [Growth.source], fun u => ?_, fun u => ?_, fun _ _ _ => not_false, fun _ _ _ => not_false, by
      simp [Growth.source], by simp [Growth.source]⟩
    · by_cases hj : j = id <;> simp [Growth.source, hj]
    · by_cases hu : u = id <;> simp [Growth.source, hu, Processor.ofSource_kind, Kind.isSource]
    · by_cases hu : u = id <;> simp [Growth.source, hu, Processor.ofSource_kind, Kind.isSink]
  | transform id name k L mem nodup _ =>
    exact fits_attach hp (Finset.disjoint_singleton_left.1 hK) _ L _ false mem rfl rfl
  | sink id name k L mem nodup _ =>
    exact fits_attach hp (Finset.disjoint_singleton_left.1 hK) _ L _ true mem
      (by rw [Processor.ofSink_kind]; rfl) (by rw [Processor.ofSink_kind]; rfl)
  | concat id L pos mem nodup =>
    -- the shape is that of one processor behind leaves; only the ports differ
    have h := fits_attach hp (Finset.disjoint_singleton_left.1 hK) { name := "concat", kind := .concat L.length pos } L
      p.option.channelSize false mem rfl rfl
    refine ⟨fun j => ?_, h.edge_to, fun u v he => Or.inr ⟨mem u he.1, by simp [Growth.concat, he.1]⟩, fun u hu => ?_,
      h.height, fun u => ?_, fun u => ?_, fun u => ?_, h.sources_in, by simp [Growth.concat], h.sources_nodup, by
      simp [Growth.concat]⟩
    · by_cases hj : j = id <;> simp [Growth.concat, hj]
    · by_cases hL : u ∈ L
      · exact ⟨mem u hL, id, hL, rfl⟩
      · simp [Growth.concat, hL] at hu
    · have := h.leaf_iff u
      simpa [Growth.concat, Growth.attach] using this
    · by_cases hu : u = id <;> simp [Growth.concat, hu, Kind.isSource]
    · by_cases hu : u = id <;> simp [Growth.concat, hu, Kind.isSink]
  | dispatch leaf id name n pos d noopId mem nodup => exact fits_fanOut hp hK _ _ pos mem nodup rfl rfl
  | fork leaf id n pos noopId mem nodup => exact fits_fanOut hp hK _ _ pos mem nodup rfl rfl

/-! ## A growth keeps the invariant -/

/-- A new pipeline is sound. -/
theorem sound_new (o : PipelineOption) : Sound (Pipeline.new o : Pipeline V) ∅ := by
  refine ⟨by simp [Pipeline.new, PMap.empty], ?_, ⟨fun _ => 0, ?_⟩, ?_, ?_, ?_, ?_, ?_, ?_, ?_, ?_⟩ <;>
    simp [Pipeline.new, Pipeline.Edge, Pipeline.succs, PMap.empty]

/-- The keys after a growth. -/
theorem Grown.mem_keys (h : Grown p g p') (hf : g.Fits p K) (j : Id) :
    j ∈ p'.nodes.keys ↔ j ∈ K ∨ j ∈ p.nodes.keys := by
  rw [PMap.mem_keys, PMap.mem_keys, h.nodes, Option.isSome_or, Option.isSome_map, Bool.or_eq_true, hf.fresh_iff]

/-- The processors after a growth: a new one, or an old one with its class. -/
theorem Grown.exists_kind (h : Grown p g p') (hp : Sound p U) (hf : g.Fits p K) (hK : Disjoint K U)
    (f : Kind V → Bool) (j : Id) :
    (∃ n, p'.nodes.get j = some n ∧ f n.kind = true) ↔
      (∃ n, p.nodes.get j = some n ∧ f n.kind = true) ∨ ∃ n, g.fresh j = some n ∧ f n.kind = true := by
  rw [h.nodes]
  by_cases hj : j ∈ K
  · have hn : p.nodes.get j = none :=
      (p.nodes.get_eq_none_iff j).2 (fun hm => Finset.disjoint_left.1 hK hj (hp.keys hm))
    obtain ⟨m, hm⟩ := Option.isSome_iff_exists.1 ((hf.fresh_iff j).2 hj)
    simp [hn, hm]
  · have hn : g.fresh j = none := by
      rw [← Option.not_isSome_iff_eq_none, hf.fresh_iff]
      exact hj
    cases hg : p.nodes.get j with
    | none => simp [hn]
    | some m => simp [hn, Processor.setOut_kind]

/-- Sources are nodes. -/
theorem Sound.source_mem (h : Sound p U) (hu : u ∈ p.sources) : u ∈ p.nodes.keys := by
  obtain ⟨n, hn, -⟩ := (h.sources_iff u).1 hu
  exact PMap.mem_keys_of_get hn

/-- Sinks are nodes. -/
theorem Sound.sink_mem (h : Sound p U) (hu : u ∈ p.sinks) : u ∈ p.nodes.keys := by
  obtain ⟨n, hn, -⟩ := (h.sinks_iff u).1 hu
  exact PMap.mem_keys_of_get hn

theorem Growth.Fits.source_mem (hf : g.Fits p K) (hu : u ∈ g.sources) : u ∈ K := by
  obtain ⟨n, hn, -⟩ := (hf.sources_iff u).1 hu
  exact (hf.fresh_iff u).1 (by rw [hn]; rfl)

theorem Growth.Fits.sink_mem (hf : g.Fits p K) (hu : u ∈ g.sinks) : u ∈ K := by
  obtain ⟨n, hn, -⟩ := (hf.sinks_iff u).1 hu
  exact (hf.fresh_iff u).1 (by rw [hn]; rfl)

section

variable {p p' : Pipeline V} {U K : Finset Id} {g : Growth V} {u v : Id}

section

variable (hp : Sound p U)
include hp

/-- Old nodes are not new. -/
theorem Sound.not_fresh (hK : Disjoint K U) (hu : u ∈ p.nodes.keys) : u ∉ K :=
  fun hm => Finset.disjoint_left.1 hK hm (hp.keys hu)

/-- The leaves after a growth: the new ones, and the old ones that are hung before no queue. -/
theorem Sound.grown_leaves (hf : g.Fits p K) (hK : Disjoint K U) (h : Grown p g p') :
    u ∈ p'.leaves ↔ u ∈ p'.nodes.keys ∧ u ∉ p'.sinks ∧ ∀ v, ¬p'.Edge u v := by
  have hleaf : ∀ u ∈ p.leaves, u ∈ p.nodes.keys ∧ u ∉ p.sinks ∧ ∀ v, ¬p.Edge u v := fun u hu => (hp.leaves_iff u).1 hu
  rw [h.leaves, h.mem_keys hf, h.sinks, List.mem_append, hf.leaf_iff]
  by_cases huK : u ∈ K
  · have hl : u ∉ p.leaves := fun hl => hp.not_fresh hK (hleaf u hl).1 huK
    have hs : u ∉ p.sinks := fun hs => hp.not_fresh hK (hp.sink_mem hs) huK
    -- an edge from a new processor is new
    have hedge : ∀ v, p'.Edge u v ↔ g.edge u v := by
      intro v
      rw [h.edges]
      exact or_iff_right (fun he => hp.not_fresh hK (hp.edge_mem u v he).1 huK)
    simp [hl, hs, huK, hedge]
  · have hs : u ∉ g.sinks := fun hs => huK (hf.sink_mem hs)
    simp only [huK, hs, false_or, or_false, false_and]
    constructor
    · rintro ⟨hl, ho⟩
      refine ⟨(hleaf u hl).1, (hleaf u hl).2.1, fun v he => ?_⟩
      rcases (h.edges u v).1 he with he | he
      · exact (hleaf u hl).2.2 v he
      · rcases hf.edge_from u v he with hu | ⟨-, hu⟩
        · exact huK hu
        · rw [ho] at hu
          nomatch hu
    · rintro ⟨hk, hs, he⟩
      refine ⟨(hp.leaves_iff u).2 ⟨hk, hs, fun v hv => he v ((h.edges u v).2 (Or.inl hv))⟩, ?_⟩
      cases ho : g.out u with
      | none => rfl
      | some q =>
        obtain ⟨-, v, hv⟩ := hf.out_leaf u (by rw [ho]; rfl)
        exact absurd ((h.edges u v).2 (Or.inr hv)) (he v)

/-- Edges join nodes. -/
theorem Sound.grown_edge_mem (hf : g.Fits p K) (h : Grown p g p') (he : p'.Edge u v) :
    u ∈ p'.nodes.keys ∧ v ∈ p'.nodes.keys := by
  rw [h.mem_keys hf, h.mem_keys hf]
  rcases (h.edges u v).1 he with he | he
  · obtain ⟨h1, h2⟩ := hp.edge_mem u v he
    exact ⟨Or.inr h1, Or.inr h2⟩
  · refine ⟨?_, Or.inl (hf.edge_to u v he)⟩
    exact (hf.edge_from u v he).imp_right (fun hl => ((hp.leaves_iff u).1 hl.1).1)

/-- New edges lead to new processors, which are ranked above the old ones. -/
theorem Sound.grown_ranked (hf : g.Fits p K) (hK : Disjoint K U) (h : Grown p g p') : Ranked p'.Edge := by
  obtain ⟨height, hh⟩ := hf.height
  refine hp.ranked.extend p.nodes.keys hp.edge_mem height (fun u v he => ?_)
  rcases (h.edges u v).1 he with he | he
  · exact Or.inl he
  · refine Or.inr ⟨fun hv => hp.not_fresh hK hv (hf.edge_to u v he), ?_⟩
    rcases hf.edge_from u v he with hu | hl
    · exact Or.inr (hh u v he hu)
    · exact Or.inl ((hp.leaves_iff u).1 hl.1).1

/-- Nothing leads into a source. -/
theorem Sound.grown_sources_in (hf : g.Fits p K) (hK : Disjoint K U) (h : Grown p g p') (hu : u ∈ p'.sources) :
    ¬p'.Edge v u := by
  intro he
  rw [h.sources, List.mem_append] at hu
  rcases (h.edges v u).1 he with he | he
  · rcases hu with hu | hu
    · exact hp.sources_in u hu v he
    · exact hp.not_fresh hK (hp.edge_mem v u he).2 (hf.source_mem hu)
  · rcases hu with hu | hu
    · exact hp.not_fresh hK (hp.source_mem hu) (hf.edge_to v u he)
    · exact hf.sources_in u hu v he

/-- Nothing leads out of a sink. -/
theorem Sound.grown_sinks_out (hf : g.Fits p K) (hK : Disjoint K U) (h : Grown p g p') (hu : u ∈ p'.sinks) :
    ¬p'.Edge u v := by
  intro he
  rw [h.sinks, List.mem_append] at hu
  rcases (h.edges u v).1 he with he | he
  · rcases hu with hu | hu
    · exact hp.sinks_out u hu v he
    · exact hp.not_fresh hK (hp.edge_mem u v he).1 (hf.sink_mem hu)
  · rcases hu with hu | hu
    · rcases hf.edge_from u v he with hk | ⟨hl, -⟩
      · exact hp.not_fresh hK (hp.sink_mem hu) hk
      · exact ((hp.leaves_iff u).1 hl).2.1 hu
    · exact hf.sinks_out u hu v he

/-- A growth that fits keeps the invariant of the builder. -/
theorem Sound.grown (hf : g.Fits p K) (hK : Disjoint K U) (h : Grown p g p') : Sound p' (U ∪ K) := by
  refine ⟨fun j hj => ?_, fun u v => hp.grown_edge_mem hf h, hp.grown_ranked hf hK h, fun u hu => ?_,
    fun u => hp.grown_leaves hf hK h, fun u => ?_, fun u => ?_, fun u hu v => hp.grown_sources_in hf hK h hu,
    fun u hu v => hp.grown_sinks_out hf hK h hu, ?_, ?_⟩
  · rcases (h.mem_keys hf j).1 hj with hj | hj
    · exact Finset.mem_union_right _ hj
    · exact Finset.mem_union_left _ (hp.keys hj)
  · rcases h.dagKeys u hu with hu | ⟨v, hv⟩
    · obtain ⟨v, hv⟩ := hp.dagKeys u hu
      exact ⟨v, (h.edges u v).2 (Or.inl hv)⟩
    · exact ⟨v, (h.edges u v).2 (Or.inr hv)⟩
  · rw [h.exists_kind hp hf hK (·.isSource), h.sources, List.mem_append, hp.sources_iff, hf.sources_iff]
  · rw [h.exists_kind hp hf hK (·.isSink), h.sinks, List.mem_append, hp.sinks_iff, hf.sinks_iff]
  · rw [h.sources, List.nodup_append]
    refine ⟨hp.sources_nodup, hf.sources_nodup, fun a ha b hb hab => ?_⟩
    subst hab
    exact hp.not_fresh hK (hp.source_mem ha) (hf.source_mem hb)
  · rw [h.sinks, List.nodup_append]
    refine ⟨hp.sinks_nodup, hf.sinks_nodup, fun a ha b hb hab => ?_⟩
    subst hab
    exact hp.not_fresh hK (hp.sink_mem ha) (hf.sink_mem hb)

end

end

/-- A builder call keeps the invariant. -/
theorem Sound.grows {nr ne : Prop} {U' : Finset Id} (hp : Sound p U) (h : Grows nr ne p U p' U') :
    Sound p' U' :=
  h.induct hp (fun hp hg hK hs => hp.grown (hg.fits hp hK) hK hs)

end Tunnel
