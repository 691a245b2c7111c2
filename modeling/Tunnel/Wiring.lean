import Tunnel.Theorems.Structure

/-!
# The wiring of a built pipeline

The invariant of the ports, kept beside `dags_` by side effects of three `connect` overloads: who holds which queue, and
how many EOFs are waited for on it. `Wired p U` is what holds as long as no `ConcatFrom` names a leaf twice; a repeated
leaf loses the queue that its first occurrence was hung before.
-/

namespace Tunnel

open Lib

variable {V : Type}

/-- The ports of a processor are the ones its class has, and hold queues of the right origin: a `ChannelSource` reads
and a `ChannelSink` writes a channel of the user's, every other port is on a queue of the pipeline. -/
structure Processor.Shaped (n : Processor V) : Prop where
  in_lt : ∀ i q, n.inChan i = some q → i < n.kind.nin
  out_lt : ∀ o q, n.outChan o = some q → o < n.kind.nout
  in_link : ∀ i q, n.inChan i = some q → q.isLink = !n.kind.isChannelSource
  out_link : ∀ o q, n.outChan o = some q → q.isLink = !n.kind.isChannelSink
  need_pos : ∀ i q, n.inChan i = some q → 0 < n.need
  channel_count : n.kind.isChannelSource = true → n.inputCount = 1
  multi_in : n.kind.isMultiIn = true → n.inputs.length = n.kind.nin ∧ ∀ i < n.kind.nin, (n.inChan i).isSome = true
  multi_out : n.kind.isMultiOut = true → n.outputs.length = n.kind.nout ∧ ∀ o < n.kind.nout, (n.outChan o).isSome = true

/-- The invariant of the ports without the EOF counts, which holds whatever leaves a `ConcatFrom` names. -/
structure Ported (p : Pipeline V) (U : Finset Id) : Prop where
  shaped : ∀ u n, p.nodes.get u = some n → n.Shaped
  in_mem : ∀ u n i r k c, p.nodes.get u = some n → n.inChan i = some (.link r k c) → r ∈ U
  out_mem : ∀ u n o r k c, p.nodes.get u = some n → n.outChan o = some (.link r k c) → r ∈ U
  reader_unique : ∀ u n i v m j q, p.nodes.get u = some n → p.nodes.get v = some m → n.inChan i = some q →
    m.inChan j = some q → q.isLink = true → u = v ∧ i = j
  out_unique : ∀ u n o o' q, p.nodes.get u = some n → n.outChan o = some q → n.outChan o' = some q → o = o'
  edge_port : ∀ u v, p.Edge u v → ∃ n m o i q, p.nodes.get u = some n ∧ p.nodes.get v = some m ∧ n.outChan o = some q ∧
    m.inChan i = some q
  port_edge : ∀ u v n m o i q, p.nodes.get u = some n → p.nodes.get v = some m → n.outChan o = some q →
    m.inChan i = some q → q.isLink = true → p.Edge u v
  out_read : ∀ u n o q, p.nodes.get u = some n → n.outChan o = some q → q.isLink = true →
    ∃ v m i, p.nodes.get v = some m ∧ m.inChan i = some q
  leaf_out : ∀ u n, p.nodes.get u = some n → u ∈ p.leaves → n.kind.isMultiOut = false ∧ n.outputPort = none
  out_bound : ∀ u n, p.nodes.get u = some n → u ∉ p.leaves → n.kind.isSink = false →
    ∀ o < n.kind.nout, (n.outChan o).isSome = true

/-- The EOF counts: as many output ports hold a queue of the pipeline as EOFs are waited for on it. -/
def Pipeline.Counted (p : Pipeline V) : Prop :=
  ∀ v n i q, p.nodes.get v = some n → n.inChan i = some q → q.isLink = true → (p.writers q).card = n.need

/-- The invariant of the ports. -/
structure Wired (p : Pipeline V) (U : Finset Id) : Prop extends Ported p U where
  count : p.Counted

variable {p p' : Pipeline V} {U K : Finset Id} {o : Nat} {q : Queue} {g : Growth V} {n : Processor V} {u : Id}
  {nr ne : Prop}

/-! ## Ports -/

/-- What a guarded `some` holds. -/
theorem eq_of_ite_some {α : Type} {P : Prop} [Decidable P] {a b : α} (h : (if P then some a else none) = some b) :
    P ∧ b = a := by
  obtain ⟨hP, hab⟩ := Option.ite_none_right_eq_some.1 h
  exact ⟨hP, (Option.some.inj hab).symm⟩

/-- A used output is in the list, or the single port. -/
theorem Processor.outChan_lt_length (n : Processor V) (h : n.outChan o = some q) :
    o < n.outputs.length + 1 := by
  unfold Processor.outChan at h
  split at h
  · cases ho : n.outputs[o]? with
    | none => rw [ho] at h; cases h
    | some x =>
      obtain ⟨hlt, -⟩ := List.getElem?_eq_some_iff.1 ho
      omega
  · split at h
    · omega
    · cases h

/-- The writers of a queue are the ports that hold it. -/
theorem Pipeline.mem_writers (p : Pipeline V) (q : Queue) (u : Id) (o : Nat) :
    (u, o) ∈ p.writers q ↔ ∃ n, p.nodes.get u = some n ∧ n.outChan o = some q := by
  unfold Pipeline.writers
  simp only [Finset.mem_biUnion]
  constructor
  · rintro ⟨w, -, hm⟩
    cases hw : p.nodes.get w with
    | none => rw [hw] at hm; simp at hm
    | some n =>
      rw [hw] at hm
      simp only [Finset.mem_image, List.mem_toFinset, List.mem_filter, decide_eq_true_eq, Prod.mk.injEq] at hm
      obtain ⟨o', ⟨-, ho⟩, rfl, rfl⟩ := hm
      exact ⟨n, hw, ho⟩
  · rintro ⟨n, hn, ho⟩
    refine ⟨u, PMap.mem_keys_of_get hn, ?_⟩
    rw [hn]
    simp only [Finset.mem_image, List.mem_toFinset, List.mem_filter, decide_eq_true_eq, Prod.mk.injEq, List.mem_range]
    exact ⟨o, ⟨n.outChan_lt_length ho, ho⟩, trivial, rfl⟩

/-- Hanging a processor before a queue leaves its inputs alone. -/
theorem Processor.setOut_inChan (n : Processor V) (x : Option Queue) (i : Nat) :
    (n.setOut x).inChan i = n.inChan i := by
  cases x <;> rfl

theorem Processor.setOut_need (n : Processor V) (x : Option Queue) : (n.setOut x).need = n.need := by
  cases x <;> rfl

/-- The outputs of a processor that had none and was hung before a queue. -/
theorem Processor.setOut_outChan (n : Processor V) (q : Queue) (o : Nat) (hm : n.kind.isMultiOut = false) :
    (n.setOut (some q)).outChan o = if o = 0 then some q else none := by
  simp [Processor.setOut, Processor.setOutputPort, Processor.outChan, hm]

/-! ## What a growth wires -/

/-- What makes a growth hang its processors well, without the number of writers of each queue. -/
structure Growth.Hangs (g : Growth V) : Prop where
  shaped : ∀ u n, g.fresh u = some n → n.Shaped
  fresh_in : ∀ v n i q, g.fresh v = some n → n.inChan i = some q → q.isLink = true → ∃ c, q = .link v i c
  fresh_out : ∀ u n o q, g.fresh u = some n → n.outChan o = some q → q.isLink = true →
    ∃ v m i, g.fresh v = some m ∧ m.inChan i = some q ∧ g.edge u v
  out_unique : ∀ u n o o' q, g.fresh u = some n → n.outChan o = some q → n.outChan o' = some q → o = o'
  out : ∀ u q, g.out u = some q → q.isLink = true ∧ ∃ v m i, g.fresh v = some m ∧ m.inChan i = some q ∧ g.edge u v
  edge : ∀ u v, g.edge u v → ∃ m i q, g.fresh v = some m ∧ m.inChan i = some q ∧
    ((∃ n o, g.fresh u = some n ∧ n.outChan o = some q) ∨ g.out u = some q)
  leaf_out : ∀ u n, g.fresh u = some n → g.leaf u → n.kind.isMultiOut = false ∧ n.outputPort = none
  out_bound : ∀ u n, g.fresh u = some n → ¬g.leaf u → n.kind.isSink = false → ∀ o < n.kind.nout, (n.outChan o).isSome =
    true

/-- What makes a growth wire its processors well. -/
structure Growth.Wires (g : Growth V) (p : Pipeline V) : Prop extends g.Hangs where
  count : ∀ v n i q, g.fresh v = some n → n.inChan i = some q → q.isLink = true →
    ∃ S : Finset (Id × Nat), S.card = n.need ∧
      ∀ u o, (u, o) ∈ S ↔ (o = 0 ∧ g.out u = some q) ∨ ∃ m, g.fresh u = some m ∧ m.outChan o = some q

/-- The queue of an input of a fresh processor is new. -/
theorem Growth.Hangs.reader (hw : g.Hangs) (hf : g.Fits p K) {v : Id} {m : Processor V} {i : Nat}
    (hv : g.fresh v = some m) (hi : m.inChan i = some q) (hq : q.isLink = true) :
    ∃ c, q = .link v i c ∧ v ∈ K := by
  obtain ⟨c, rfl⟩ := hw.fresh_in v m i q hv hi hq
  exact ⟨c, rfl, (hf.fresh_iff v).1 (by rw [hv]; rfl)⟩

/-! ## The growths of the calls wire well -/

/-- A call that adds nothing wires nothing. -/
theorem wires_nothing (p : Pipeline V) : (Growth.nothing : Growth V).Wires p := by
  constructor
  · constructor <;> simp [Growth.nothing]
  · simp [Growth.nothing]

/-- A source has no queue of the pipeline yet. -/
theorem Processor.ofSource_shaped (name : Name) (k : SourceKind V) : (Processor.ofSource name k).Shaped := by
  cases k with
  | generate g =>
    refine ⟨?_, ?_, ?_, ?_, ?_, ?_, ?_, ?_⟩ <;>
      simp [Processor.ofSource, Processor.inChan, Processor.outChan, Kind.isMultiIn, Kind.isMultiOut,
        Kind.isChannelSource]
  | channel ch =>
    refine ⟨?_, ?_, ?_, ?_, ?_, ?_, ?_, ?_⟩ <;>
      simp [Processor.ofSource, Processor.inChan, Processor.outChan, Kind.isMultiIn, Kind.isMultiOut, Kind.nin,
        Processor.need, Kind.isChannelSource] <;>
      (intros; subst_vars; simp [Queue.isLink])

/-- A source has no output yet. -/
theorem Processor.ofSource_outChan (name : Name) (k : SourceKind V) (o : Nat) :
    (Processor.ofSource name k).outChan o = none := by
  cases k <;> simp [Processor.ofSource, Processor.outChan, Kind.isMultiOut]

/-- A source wires well. -/
theorem wires_source (p : Pipeline V) (id : Id) (name : Name) (k : SourceKind V) :
    (Growth.source id (.ofSource name k)).Wires p := by
  have hfresh : ∀ {u n}, (Growth.source id (.ofSource name k)).fresh u = some n → u = id ∧ n = .ofSource name k := by
    intro u n h
    simp only [Growth.source] at h
    exact eq_of_ite_some h
  have hlink : ∀ i q, (Processor.ofSource name k).inChan i = some q → q.isLink = true → False := by
    intro i q h hq
    cases k with
    | generate g => simp [Processor.ofSource, Processor.inChan, Kind.isMultiIn] at h
    | channel ch =>
      rw [(Processor.ofSource_shaped name (.channel ch)).in_link i q h] at hq
      cases hq
  refine ⟨⟨fun u n h => ?_, fun v n i q h hi hq => ?_, fun u n o q h ho _ => ?_, fun u n o o' q h ho _ => ?_,
    fun u q h => ?_, fun u v h => h.elim, fun u n h _ => ?_, fun u n h hl => ?_⟩, fun v n i q h hi hq => ?_⟩
  · obtain ⟨-, rfl⟩ := hfresh h
    exact Processor.ofSource_shaped name k
  · obtain ⟨-, rfl⟩ := hfresh h
    exact (hlink i q hi hq).elim
  · obtain ⟨-, rfl⟩ := hfresh h
    rw [Processor.ofSource_outChan] at ho
    cases ho
  · obtain ⟨-, rfl⟩ := hfresh h
    rw [Processor.ofSource_outChan] at ho
    cases ho
  · cases h
  · obtain ⟨-, rfl⟩ := hfresh h
    cases k <;> exact ⟨rfl, rfl⟩
  · obtain ⟨rfl, -⟩ := hfresh h
    exact absurd rfl hl
  · obtain ⟨-, rfl⟩ := hfresh h
    exact (hlink i q hi hq).elim

/-- A processor with one input that has not been fed yet; its output is not on a queue of the pipeline. -/
structure Processor.Unfed (n : Processor V) : Prop where
  nin : n.kind.nin = 1
  multi_in : n.kind.isMultiIn = false
  multi_out : n.kind.isMultiOut = false
  channel_source : n.kind.isChannelSource = false
  port : n.inputPort = none
  count : n.inputCount = 0
  out : ∀ q, n.outputPort = some q → q.isLink = false ∧ n.kind.nout = 1 ∧ n.kind.isChannelSink = true

/-- A transform is not fed yet. -/
theorem Processor.ofTransform_unfed (name : Name) (k : TransformKind V) : (Processor.ofTransform name k).Unfed :=
  ⟨rfl, rfl, rfl, rfl, rfl, rfl, fun q h => by cases h⟩

/-- Nor is a sink. -/
theorem Processor.ofSink_unfed (name : Name) (k : SinkKind) : (Processor.ofSink name k : Processor V).Unfed := by
  cases k with
  | consume => exact ⟨rfl, rfl, rfl, rfl, rfl, rfl, fun q h => by cases h⟩
  | channel ch =>
    refine ⟨rfl, rfl, rfl, rfl, rfl, rfl, fun q h => ?_⟩
    obtain ⟨c, -, rfl⟩ := Option.map_eq_some_iff.1 h
    exact ⟨rfl, rfl, rfl⟩

/-- Its input, once it is fed. -/
theorem Processor.Unfed.fed_inChan (hn : n.Unfed) (q : Queue) (k i : Nat) :
    (Growth.fed n q k).inChan i = if i = 0 ∧ k ≠ 0 then some q else none := by
  unfold Growth.fed Processor.inChan
  by_cases hk : k = 0
  · simp [hk, hn.multi_in, hn.port]
  · simp [hk, hn.multi_in]

/-- It waits for an EOF of each leaf. -/
theorem Processor.Unfed.fed_need (hn : n.Unfed) (q : Queue) (k : Nat) : (Growth.fed n q k).need = k := by
  unfold Growth.fed Processor.need
  by_cases hk : k = 0
  · simp [hk, hn.multi_in, hn.count]
  · simp [hk, hn.multi_in, hn.count]

theorem Growth.fed_outChan (n : Processor V) (q : Queue) (k o : Nat) : (Growth.fed n q k).outChan o = n.outChan o := by
  unfold Growth.fed
  split <;> rfl

theorem Growth.fed_outputPort (n : Processor V) (q : Queue) (k : Nat) :
    (Growth.fed n q k).outputPort = n.outputPort := by
  unfold Growth.fed
  split <;> rfl

/-- Its only output. -/
theorem Processor.Unfed.outChan (hn : n.Unfed) (h : n.outChan o = some q) :
    o = 0 ∧ n.outputPort = some q := by
  unfold Processor.outChan at h
  rw [hn.multi_out] at h
  simp only [Bool.false_eq_true, if_false] at h
  split at h
  · rename_i ho
    exact ⟨ho, h⟩
  · cases h

/-- It is well shaped. -/
theorem Processor.Unfed.fed_shaped (hn : n.Unfed) (id size k : Nat) :
    (Growth.fed n (.link id 0 size) k).Shaped := by
  refine ⟨fun i q h => ?_, fun o q h => ?_, fun i q h => ?_, fun o q h => ?_, fun i q h => ?_, fun h => ?_, fun h => ?_,
    fun h => ?_⟩
  · rw [hn.fed_inChan] at h
    rw [Growth.fed_kind, hn.nin]
    split at h
    · omega
    · cases h
  · rw [Growth.fed_outChan] at h
    obtain ⟨rfl, hp⟩ := hn.outChan h
    rw [Growth.fed_kind, (hn.out q hp).2.1]
    exact Nat.one_pos
  · rw [hn.fed_inChan] at h
    rw [Growth.fed_kind, hn.channel_source]
    split at h
    · cases h; rfl
    · cases h
  · rw [Growth.fed_outChan] at h
    obtain ⟨-, hl, -, hs⟩ := hn.outChan h |>.imp_right (hn.out q)
    rw [Growth.fed_kind, hs, hl]
    rfl
  · rw [hn.fed_inChan] at h
    rw [hn.fed_need]
    split at h
    · omega
    · cases h
  · rw [Growth.fed_kind, hn.channel_source] at h
    cases h
  · rw [Growth.fed_kind, hn.multi_in] at h
    cases h
  · rw [Growth.fed_kind, hn.multi_out] at h
    cases h

/-- One processor behind leaves, once each, on one queue, is fed by as many ports as it counts. -/
theorem wires_attach (p : Pipeline V) (id : Id) {node : Processor V} (hn : node.Unfed) (L : List Id) (size : Nat)
    (isSink : Bool) (nodup : L.Nodup) (hsink : node.kind.isSink = isSink)
    (hout : isSink = false → node.outputPort = none) :
    (Growth.attach id node L size isSink).Wires p := by
  have hfresh : ∀ {u n}, (Growth.attach id node L size isSink).fresh u = some n →
      u = id ∧ n = Growth.fed node (.link id 0 size) L.length := by
    intro u n h
    simp only [Growth.attach] at h
    exact eq_of_ite_some h
  have hnew : (Growth.attach id node L size isSink).fresh id = some (Growth.fed node (.link id 0 size) L.length) := by
    simp [Growth.attach]
  have hin : ∀ i q, (Growth.fed node (.link id 0 size) L.length).inChan i = some q → i = 0 ∧ L ≠ [] ∧
      q = .link id 0 size := by
    intro i q h
    rw [hn.fed_inChan] at h
    split at h
    · rename_i hi
      exact ⟨hi.1, fun he => hi.2 (by rw [he]; rfl), (Option.some.inj h).symm⟩
    · cases h
  have hport : ∀ u ∈ L, (Growth.fed node (.link id 0 size) L.length).inChan 0 = some (.link id 0 size) := by
    intro u hu
    have : L.length ≠ 0 := fun h => by simp [List.length_eq_zero_iff.1 h] at hu
    simp [hn.fed_inChan, this]
  have hlink : ∀ o q, (Growth.fed node (.link id 0 size) L.length).outChan o = some q → o = 0 ∧ q.isLink = false := by
    intro o q h
    rw [Growth.fed_outChan] at h
    exact (hn.outChan h).imp_right (fun h => (hn.out q h).1)
  have houtL : ∀ u q, (Growth.attach id node L size isSink).out u = some q ↔ u ∈ L ∧ q = .link id 0 size := by
    intro u q
    by_cases hu : u ∈ L <;> simp [Growth.attach, hu, eq_comm]
  refine ⟨⟨fun u n h => ?_, fun v n i q h hi hq => ?_, fun u n o q h ho hq => ?_, fun u n o o' q h ho ho' => ?_,
    fun u q h => ?_, fun u v h => ?_, fun u n h hl => ?_, fun u n h hl hs => ?_⟩, fun v n i q h hi hq => ?_⟩
  · obtain ⟨-, rfl⟩ := hfresh h
    exact hn.fed_shaped id size L.length
  · obtain ⟨rfl, rfl⟩ := hfresh h
    obtain ⟨rfl, -, rfl⟩ := hin i q hi
    exact ⟨size, rfl⟩
  · obtain ⟨-, rfl⟩ := hfresh h
    rw [(hlink o q ho).2] at hq
    cases hq
  · obtain ⟨-, rfl⟩ := hfresh h
    exact (hlink o q ho).1.trans (hlink o' q ho').1.symm
  · obtain ⟨hu, rfl⟩ := (houtL u q).1 h
    exact ⟨rfl, id, _, 0, hnew, hport u hu, hu, rfl⟩
  · obtain ⟨hu, rfl⟩ := h
    exact ⟨_, 0, _, hnew, hport u hu, Or.inr ((houtL u _).2 ⟨hu, rfl⟩)⟩
  · obtain ⟨-, rfl⟩ := hfresh h
    rw [Growth.fed_kind, Growth.fed_outputPort]
    exact ⟨hn.multi_out, hout hl.1⟩
  · obtain ⟨rfl, rfl⟩ := hfresh h
    rw [Growth.fed_kind, hsink] at hs
    exact absurd ⟨hs, rfl⟩ hl
  · obtain ⟨rfl, rfl⟩ := hfresh h
    obtain ⟨-, -, rfl⟩ := hin i q hi
    refine ⟨L.toFinset.image (fun u => (u, 0)), ?_, fun u o => ?_⟩
    · rw [Finset.card_image_of_injective _ (fun a b hab => (Prod.mk.inj hab).1), List.toFinset_card_of_nodup nodup,
        hn.fed_need]
    · rw [houtL]
      simp only [Finset.mem_image, List.mem_toFinset, Prod.mk.injEq, and_true]
      constructor
      · rintro ⟨w, hw, rfl, rfl⟩
        exact Or.inl ⟨rfl, hw⟩
      · rintro (⟨rfl, hu⟩ | ⟨m, hm, ho⟩)
        · exact ⟨u, hu, rfl, rfl⟩
        · obtain ⟨-, rfl⟩ := hfresh hm
          have := (hlink o _ ho).2
          cases this

/-- The last place of an element holds it. -/
theorem Growth.getElem?_lastIndex {L : List Id} (h : u ∈ L) : L[Growth.lastIndex L u]? = some u := by
  have hlt : L.reverse.idxOf u < L.reverse.length := List.idxOf_lt_length_iff.2 (List.mem_reverse.2 h)
  have hget : L.reverse[L.reverse.idxOf u]? = some u := by
    rw [List.getElem?_eq_getElem hlt, List.getElem_idxOf hlt]
  rw [List.length_reverse] at hlt
  rw [List.getElem?_reverse hlt] at hget
  exact hget

/-- The queues of a `Concat`, by place. -/
theorem Growth.concatQueues_join (id : Id) (size n i : Nat) :
    ((Growth.concatQueues id size n)[i]?).join = if i < n then some (.link id i size) else none := by
  by_cases hi : i < n <;> simp [Growth.concatQueues, hi]

/-! A `Concat` behind leaves. -/

/-- The `Concat` with its queues. -/
def Growth.concatNode (V : Type) (id : Id) (L : List Id) (pos : 0 < L.length) (size : Nat) : Processor V :=
  { name := "concat", kind := .concat L.length pos, inputs := Growth.concatQueues id size L.length }

section Concat

variable {id : Id} {L : List Id} {pos : 0 < L.length} {size : Nat} {u : Id} {n : Processor V} {i o : Nat} {q : Queue}

/-- The inputs of a `Concat`. -/
theorem concatNode_inChan (i : Nat) :
    (Growth.concatNode V id L pos size).inChan i = if i < L.length then some (.link id i size) else none := by
  simp [Growth.concatNode, Processor.inChan, Kind.isMultiIn, Growth.concatQueues_join]

theorem concatNode_inChan_eq (h : (Growth.concatNode V id L pos size).inChan i = some q) :
    i < L.length ∧ q = .link id i size := by
  rw [concatNode_inChan] at h
  exact eq_of_ite_some h

/-- A `Concat` has no output yet. -/
theorem concatNode_outChan (o : Nat) : (Growth.concatNode V id L pos size).outChan o = none := by
  simp [Growth.concatNode, Processor.outChan, Kind.isMultiOut]

/-- A `Concat` is well shaped. -/
theorem concatNode_shaped : (Growth.concatNode V id L pos size).Shaped := by
  have hout : ∀ o q, (Growth.concatNode V id L pos size).outChan o ≠ some q := by
    intro o q h
    rw [concatNode_outChan] at h
    cases h
  refine ⟨fun i q h => (concatNode_inChan_eq h).1, fun o q h => absurd h (hout o q), fun i q h => ?_,
    fun o q h => absurd h (hout o q), fun i q h => Nat.one_pos, fun h => ?_, fun _ => ⟨?_, fun i hi => ?_⟩, fun h => ?_⟩
  · rw [(concatNode_inChan_eq h).2]
    rfl
  · cases h
  · simp [Growth.concatNode, Growth.concatQueues, Kind.nin]
  · rw [concatNode_inChan, if_pos (show i < L.length from hi)]
    rfl
  · cases h

/-- The one new processor is the `Concat`. -/
theorem concat_fresh (h : (Growth.concat id L pos size : Growth V).fresh u = some n) :
    u = id ∧ n = Growth.concatNode V id L pos size := by
  simp only [Growth.concat] at h
  exact eq_of_ite_some h

theorem concat_new : (Growth.concat id L pos size : Growth V).fresh id = some (Growth.concatNode V id L pos size) := by
  simp [Growth.concat, Growth.concatNode]

/-- A leaf is hung before the queue of its place. -/
theorem concat_out (nodup : L.Nodup) : (Growth.concat id L pos size : Growth V).out u = some q ↔ ∃ i, L[i]? = some u ∧
    q = .link id i size := by
  by_cases hu : u ∈ L
  · have hlast := Growth.getElem?_lastIndex hu
    simp only [Growth.concat, hu, if_true, Option.some.injEq]
    constructor
    · rintro rfl
      exact ⟨_, hlast, rfl⟩
    · rintro ⟨i, hi, rfl⟩
      -- without repetition the place of a leaf is the only one
      have hlt := (List.getElem?_eq_some_iff.1 hlast).1
      rw [(List.getElem?_inj hlt nodup).1 (hlast.trans hi.symm)]
  · simp only [Growth.concat, hu, if_false]
    constructor
    · intro h
      cases h
    · rintro ⟨i, hi, -⟩
      exact absurd (List.mem_of_getElem? hi) hu

end Concat

/-- A leaf that a `Concat` is hung behind is before the last queue it got. -/
theorem concat_out_last {id : Id} {L : List Id} (pos : 0 < L.length) {size : Nat} (hu : u ∈ L) :
    (Growth.concat id L pos size : Growth V).out u = some (.link id (Growth.lastIndex L u) size) ∧
      (Growth.concatNode V id L pos size).inChan (Growth.lastIndex L u) =
      some (.link id (Growth.lastIndex L u) size) := by
  have hlast := Growth.getElem?_lastIndex hu
  refine ⟨by simp only [Growth.concat, hu, if_true], ?_⟩
  rw [concatNode_inChan, if_pos (List.getElem?_eq_some_iff.1 hlast).1]

/-- A `Concat` behind leaves hangs well, also where they repeat. -/
theorem hangs_concat (id : Id) (L : List Id) (pos : 0 < L.length) (size : Nat) :
    (Growth.concat id L pos size : Growth V).Hangs := by
  have hout : ∀ {u n o q}, (Growth.concat id L pos size : Growth V).fresh u = some n → n.outChan o ≠ some q := by
    intro u n o q h ho
    obtain ⟨-, rfl⟩ := concat_fresh h
    rw [concatNode_outChan] at ho
    nomatch ho
  refine ⟨fun u n h => ?_, fun v n i q h hi hq => ?_, fun u n o q h ho _ => absurd ho (hout h),
    fun u n o o' q h ho _ => absurd ho (hout h), fun u q h => ?_, fun u v h => ?_, fun u n h hl => ?_,
    fun u n h hl hs => ?_⟩
  · obtain ⟨-, rfl⟩ := concat_fresh h
    exact concatNode_shaped
  · obtain ⟨rfl, rfl⟩ := concat_fresh h
    exact ⟨size, (concatNode_inChan_eq hi).2⟩
  · by_cases hu : u ∈ L
    · obtain ⟨hlast, hin⟩ := concat_out_last (V := V) pos hu
      obtain rfl := Option.some.inj (h.symm.trans hlast)
      exact ⟨rfl, id, _, _, concat_new, hin, hu, rfl⟩
    · simp [Growth.concat, hu] at h
  · obtain ⟨hu, rfl⟩ := h
    obtain ⟨hlast, hin⟩ := concat_out_last (V := V) pos hu
    exact ⟨_, _, _, concat_new, hin, Or.inr hlast⟩
  · obtain ⟨-, rfl⟩ := concat_fresh h
    exact ⟨rfl, rfl⟩
  · obtain ⟨rfl, -⟩ := concat_fresh h
    exact absurd rfl hl

/-- A `Concat` behind leaves, none of them named twice, has one port before each of its queues. -/
theorem wires_concat (p : Pipeline V) (id : Id) (L : List Id) (pos : 0 < L.length) (size : Nat) (nodup : L.Nodup) :
    (Growth.concat id L pos size : Growth V).Wires p := by
  refine ⟨hangs_concat id L pos size, fun v n i q h hi hq => ?_⟩
  obtain ⟨rfl, rfl⟩ := concat_fresh h
  obtain ⟨hlt, rfl⟩ := concatNode_inChan_eq hi
  refine ⟨{(L[i], 0)}, rfl, fun u o => ?_⟩
  rw [concat_out nodup, Finset.mem_singleton, Prod.mk.injEq]
  constructor
  · rintro ⟨rfl, rfl⟩
    exact Or.inl ⟨rfl, i, List.getElem?_eq_getElem hlt, rfl⟩
  · rintro (⟨rfl, j, hj, hq'⟩ | ⟨m, hm, ho⟩)
    · cases hq'
      exact ⟨(List.getElem?_eq_some_iff.1 hj).2.symm, rfl⟩
    · obtain ⟨-, rfl⟩ := concat_fresh hm
      rw [concatNode_outChan] at ho
      nomatch ho

/-- The queues of a fan-out, by branch. -/
theorem Growth.branchQueues_join (noopId : Nat → Id) (size n o : Nat) :
    ((Growth.branchQueues noopId size n)[o]?).join = if o < n then some (.link (noopId o) 0 size) else none := by
  by_cases ho : o < n <;> simp [Growth.branchQueues, ho]

/-- The `NoOpTransform` of a branch, before the branch goes on. -/
theorem Processor.branch_inChan (j size i : Nat) :
    ((Processor.noOp : Processor V).setInputPort (.link j 0 size)).inChan i = if i = 0 then some (.link j 0 size)
    else none := rfl

theorem Processor.branch_outChan (j size o : Nat) :
    ((Processor.noOp : Processor V).setInputPort (.link j 0 size)).outChan o = none := by
  simp [Processor.noOp, Processor.ofTransform, Processor.setInputPort, Processor.outChan]

/-- A branch is well shaped. -/
theorem Processor.branch_shaped (j size : Nat) :
    ((Processor.noOp : Processor V).setInputPort (.link j 0 size)).Shaped := by
  have h := (Processor.ofTransform_unfed (V := V) "no_op" .noOp).fed_shaped j size 1
  simpa [Growth.fed, Processor.noOp, Processor.setInputPort] using h

/-! A fan-out: the processor behind the leaf, which is the hub, and the `NoOpTransform` of each branch. -/

/-- The class of a fan-out, and that it is new. -/
structure Processor.Hub (node : Processor V) (n : Nat) : Prop where
  multi_in : node.kind.isMultiIn = false
  multi_out : node.kind.isMultiOut = true
  nin : node.kind.nin = 1
  nout : node.kind.nout = n
  channel_source : node.kind.isChannelSource = false
  channel_sink : node.kind.isChannelSink = false
  outputs : node.outputs = []
  count : node.inputCount = 0

/-- The hub with its queues. -/
def Growth.hub (id : Id) (node : Processor V) (n : Nat) (noopId : Nat → Id) (size : Nat) : Processor V :=
  { node with
    outputs := node.outputs ++ Growth.branchQueues noopId size n
    inputPort := some (.link id 0 size)
    inputCount := node.inputCount + 1 }

section FanOut

variable {leaf id : Id} {node : Processor V} {n : Nat} {noopId : Nat → Id} {size : Nat} {u v : Id} {m : Processor V}
  {i o : Nat} {q : Queue}

/-- The hub reads one queue. -/
theorem Processor.Hub.inChan (h : node.Hub n) (i : Nat) :
    (Growth.hub id node n noopId size).inChan i = if i = 0 then some (.link id 0 size) else none := by
  simp [Growth.hub, Processor.inChan, h.multi_in]

/-- The hub writes one queue for each branch. -/
theorem Processor.Hub.outChan (h : node.Hub n) (o : Nat) :
    (Growth.hub id node n noopId size).outChan o = if o < n then some (.link (noopId o) 0 size) else none := by
  simp [Growth.hub, Processor.outChan, h.multi_out, h.outputs, Growth.branchQueues_join]

theorem Processor.Hub.outChan_eq (h : node.Hub n) (ho : (Growth.hub id node n noopId size).outChan o = some q) :
    o < n ∧ q = .link (noopId o) 0 size := by
  rw [h.outChan] at ho
  exact eq_of_ite_some ho

/-- The new processors are the hub and its branches. -/
theorem fanOut_cases (h : (Growth.fanOut leaf id node n noopId size).fresh u = some m) :
    (u = id ∧ m = Growth.hub id node n noopId size) ∨
      (u ≠ id ∧ ∃ i < n, u = noopId i ∧ m = Processor.noOp.setInputPort (.link u 0 size)) := by
  simp only [Growth.fanOut] at h
  split at h
  · rename_i hu
    exact .inl ⟨hu, (Option.some.inj h).symm⟩
  · rename_i hu
    split at h
    · rename_i hm
      obtain ⟨i, hi, rfl⟩ := List.mem_map.1 hm
      exact .inr ⟨hu, i, List.mem_range.1 hi, rfl, (Option.some.inj h).symm⟩
    · cases h

theorem fanOut_hub : (Growth.fanOut leaf id node n noopId size).fresh id = some (Growth.hub id node n noopId size) := by
  simp [Growth.fanOut, Growth.hub]

theorem fanOut_branch (hid : id ∉ (List.range n).map noopId) (hi : i < n) :
    (Growth.fanOut leaf id node n noopId size).fresh (noopId i) =
    some (Processor.noOp.setInputPort (.link (noopId i) 0 size)) := by
  have hmem : noopId i ∈ (List.range n).map noopId := List.mem_map.2 ⟨i, List.mem_range.2 hi, rfl⟩
  have hne : noopId i ≠ id := fun h => hid (h ▸ hmem)
  simp only [Growth.fanOut, hne, if_false, hmem, if_true]

/-- Each of them reads its own queue. -/
theorem fanOut_in (hnode : node.Hub n) (h : (Growth.fanOut leaf id node n noopId size).fresh v = some m)
    (hi : m.inChan i = some q) :
    i = 0 ∧ q = .link v 0 size := by
  have hq : (if i = 0 then some (Queue.link v 0 size) else none) = some q := by
    rcases fanOut_cases h with ⟨rfl, rfl⟩ | ⟨-, j, -, -, rfl⟩
    · rw [← hnode.inChan, hi]
    · rw [← Processor.branch_inChan (V := V), hi]
  exact eq_of_ite_some hq

/-- The leaf is hung before the hub. -/
theorem fanOut_out : (Growth.fanOut leaf id node n noopId size).out u = some q ↔ u = leaf ∧ q = .link id 0 size := by
  by_cases hu : u = leaf
  · simp [Growth.fanOut, hu, eq_comm]
  · simp [Growth.fanOut, hu]

/-- The hub is well shaped. -/
theorem Processor.Hub.shaped (h : node.Hub n) : (Growth.hub id node n noopId size).Shaped := by
  have hin : ∀ i q, (Growth.hub id node n noopId size).inChan i = some q → i = 0 ∧ q = .link id 0 size :=
    fun i q hi => eq_of_ite_some ((h.inChan i).symm.trans hi)
  refine ⟨fun i q hi => ?_, fun o q ho => ?_, fun i q hi => ?_, fun o q ho => ?_, fun i q hi => ?_, fun hc => ?_,
    fun hc => ?_, fun _ => ⟨?_, fun o ho => ?_⟩⟩
  · rw [(hin i q hi).1]
    exact h.nin.symm ▸ Nat.one_pos
  · exact h.nout.symm ▸ (h.outChan_eq ho).1
  · rw [(hin i q hi).2]
    exact h.channel_source.symm ▸ rfl
  · rw [(h.outChan_eq ho).2]
    exact h.channel_sink.symm ▸ rfl
  · simp [Growth.hub, Processor.need, h.multi_in]
  · exact absurd hc (by simp [Growth.hub, h.channel_source])
  · exact absurd hc (by simp [Growth.hub, h.multi_in])
  · simp [Growth.hub, h.outputs, Growth.branchQueues, h.nout]
  · rw [h.outChan, if_pos (h.nout ▸ ho)]
    rfl

/-- Only the hub writes queues of its branches. -/
theorem fanOut_writes (hnode : node.Hub n) :
    (∃ m, (Growth.fanOut leaf id node n noopId size).fresh u = some m ∧ m.outChan o = some q) ↔
      u = id ∧ o < n ∧ q = .link (noopId o) 0 size := by
  constructor
  · rintro ⟨m, hm, ho⟩
    rcases fanOut_cases hm with ⟨rfl, rfl⟩ | ⟨-, j, -, -, rfl⟩
    · exact ⟨rfl, hnode.outChan_eq ho⟩
    · rw [Processor.branch_outChan] at ho
      nomatch ho
  · rintro ⟨rfl, ho, rfl⟩
    exact ⟨_, fanOut_hub, by rw [hnode.outChan, if_pos ho]⟩

/-- Each new queue has one writer: the leaf that of the hub, the hub those of its branches. -/
theorem fanOut_count (hnode : node.Hub n) (nodup : (id :: (List.range n).map noopId).Nodup)
    (h : (Growth.fanOut leaf id node n noopId size).fresh v = some m) (hi : m.inChan i = some q) :
    ∃ S : Finset (Id × Nat), S.card = m.need ∧ ∀ u o, (u, o) ∈ S ↔
      (o = 0 ∧ (Growth.fanOut leaf id node n noopId size).out u = some q) ∨
        ∃ k, (Growth.fanOut leaf id node n noopId size).fresh u = some k ∧ k.outChan o = some q := by
  obtain ⟨hid, hnd⟩ := List.nodup_cons.1 nodup
  obtain ⟨rfl, rfl⟩ := fanOut_in hnode h hi
  simp only [fanOut_writes hnode, fanOut_out]
  rcases fanOut_cases h with ⟨rfl, rfl⟩ | ⟨hne, j, hj, rfl, rfl⟩
  · refine ⟨{(leaf, 0)}, by simp [Growth.hub, Processor.need, hnode.multi_in, hnode.count], fun u o => ?_⟩
    rw [Finset.mem_singleton, Prod.mk.injEq]
    constructor
    · rintro ⟨rfl, rfl⟩
      exact .inl ⟨rfl, rfl, rfl⟩
    · rintro (⟨rfl, rfl, -⟩ | ⟨-, ho, hq⟩)
      · exact ⟨rfl, rfl⟩
      · injection hq with hv
        exact absurd (hv ▸ List.mem_map.2 ⟨o, List.mem_range.2 ho, rfl⟩) hid
  · refine ⟨{(id, j)}, rfl, fun u o => ?_⟩
    rw [Finset.mem_singleton, Prod.mk.injEq]
    constructor
    · rintro ⟨rfl, rfl⟩
      exact .inr ⟨rfl, hj, rfl⟩
    · rintro (⟨-, -, hq⟩ | ⟨rfl, ho, hq⟩)
      · injection hq with hv
        exact absurd hv hne
      · injection hq with hv
        exact ⟨rfl, List.inj_on_of_nodup_map hnd (List.mem_range.2 ho) (List.mem_range.2 hj) hv.symm⟩

/-- A fan-out behind a leaf, with branches of its own, has one port before each new queue. -/
theorem wires_fanOut (p : Pipeline V) (hnode : node.Hub n) (nodup : (id :: (List.range n).map noopId).Nodup) :
    (Growth.fanOut leaf id node n noopId size).Wires p := by
  obtain ⟨hid, hnd⟩ := List.nodup_cons.1 nodup
  refine ⟨⟨fun u m h => ?_, fun v m i q h hi _ => ?_, fun u m o q h ho _ => ?_, fun u m o o' q h ho ho' => ?_,
    fun u q h => ?_, fun u v h => ?_, fun u m h hl => ?_, fun u m h hl _ => ?_⟩,
    fun v m i q h hi _ => fanOut_count hnode nodup h hi⟩
  · rcases fanOut_cases h with ⟨rfl, rfl⟩ | ⟨-, j, -, -, rfl⟩
    · exact hnode.shaped
    · exact Processor.branch_shaped u size
  · obtain ⟨rfl, rfl⟩ := fanOut_in hnode h hi
    exact ⟨size, rfl⟩
  · obtain ⟨rfl, hlt, rfl⟩ := (fanOut_writes hnode).1 ⟨m, h, ho⟩
    exact ⟨noopId o, _, 0, fanOut_branch hid hlt, rfl, .inr ⟨rfl, List.mem_map.2 ⟨o, List.mem_range.2 hlt, rfl⟩⟩⟩
  · obtain ⟨-, hlt, rfl⟩ := (fanOut_writes hnode).1 ⟨m, h, ho⟩
    obtain ⟨-, hlt', hq⟩ := (fanOut_writes hnode).1 ⟨m, h, ho'⟩
    exact List.inj_on_of_nodup_map hnd (List.mem_range.2 hlt) (List.mem_range.2 hlt') (by injection hq)
  · obtain ⟨rfl, rfl⟩ := fanOut_out.1 h
    exact ⟨rfl, id, _, 0, fanOut_hub, hnode.inChan 0, .inl ⟨rfl, rfl⟩⟩
  · rcases h with ⟨rfl, rfl⟩ | ⟨rfl, hv⟩
    · exact ⟨_, 0, _, fanOut_hub, hnode.inChan 0, .inr (fanOut_out.2 ⟨rfl, rfl⟩)⟩
    · obtain ⟨i, hi, rfl⟩ := List.mem_map.1 hv
      have hlt := List.mem_range.1 hi
      exact ⟨_, 0, _, fanOut_branch hid hlt, rfl, .inl ⟨_, i, fanOut_hub, by rw [hnode.outChan, if_pos hlt]⟩⟩
  · rcases fanOut_cases h with ⟨rfl, rfl⟩ | ⟨-, j, -, -, rfl⟩
    · exact absurd hl hid
    · exact ⟨rfl, rfl⟩
  · rcases fanOut_cases h with ⟨rfl, rfl⟩ | ⟨-, j, hj, rfl, rfl⟩
    · exact fun o ho => (hnode.shaped.multi_out hnode.multi_out).2 o ho
    · exact absurd (List.mem_map.2 ⟨j, List.mem_range.2 hj, rfl⟩) hl

end FanOut

/-- Every growth of a builder call wires well, if no `ConcatFrom` names a leaf twice. -/
theorem GrowthOf.wires (hnr : nr) (h : GrowthOf nr ne p K g) :
    g.Wires p := by
  cases h with
  | nothing => exact wires_nothing p
  | source id name k => exact wires_source p id name k
  | transform id name k L mem nodup _ =>
    exact wires_attach p id (Processor.ofTransform_unfed name k) L _ false nodup rfl (fun _ => rfl)
  | sink id name k L mem nodup _ =>
    refine wires_attach p id (Processor.ofSink_unfed name k) L _ true nodup ?_ (fun h => by cases h)
    rw [Processor.ofSink_kind]
    rfl
  | concat id L pos mem nodup => exact wires_concat p id L pos _ (nodup hnr)
  | dispatch leaf id name n pos d noopId mem nodup =>
    exact wires_fanOut p ⟨rfl, rfl, rfl, rfl, rfl, rfl, rfl, rfl⟩ nodup
  | fork leaf id n pos noopId mem nodup =>
    exact wires_fanOut p ⟨rfl, rfl, rfl, rfl, rfl, rfl, rfl, rfl⟩ nodup

/-- The growth of every builder call hangs its processors well, whatever leaves a `ConcatFrom` names. -/
theorem GrowthOf.hangs (h : GrowthOf nr ne p K g) : g.Hangs := by
  cases h with
  | nothing => exact (wires_nothing p).toHangs
  | source id name k => exact (wires_source p id name k).toHangs
  | transform id name k L mem nodup _ =>
    exact (wires_attach p id (Processor.ofTransform_unfed name k) L _ false nodup rfl (fun _ => rfl)).toHangs
  | sink id name k L mem nodup _ =>
    refine (wires_attach p id (Processor.ofSink_unfed name k) L _ true nodup ?_ (fun h => by cases h)).toHangs
    rw [Processor.ofSink_kind]
    rfl
  | concat id L pos mem nodup => exact hangs_concat id L pos _
  | dispatch leaf id name n pos d noopId mem nodup =>
    exact (wires_fanOut p ⟨rfl, rfl, rfl, rfl, rfl, rfl, rfl, rfl⟩ nodup).toHangs
  | fork leaf id n pos noopId mem nodup =>
    exact (wires_fanOut p ⟨rfl, rfl, rfl, rfl, rfl, rfl, rfl, rfl⟩ nodup).toHangs

/-! ## Growths keep the wiring -/

/-- A new pipeline is wired. -/
theorem wired_new (o : PipelineOption) : Wired (Pipeline.new o : Pipeline V) ∅ := by
  constructor
  · constructor <;> simp [Pipeline.new, PMap.empty, Pipeline.Edge, Pipeline.succs]
  · simp [Pipeline.Counted, Pipeline.new, PMap.empty]

/-- The processors after a growth: a new one, or an old one that is hung before a queue if it was a leaf. -/
theorem Grown.get_cases (h : Grown p g p') (hp : Sound p U) (hf : g.Fits p K) (hK : Disjoint K U)
    (hu : p'.nodes.get u = some n) :
    (u ∈ K ∧ g.fresh u = some n) ∨ (u ∉ K ∧ ∃ m, p.nodes.get u = some m ∧ n = m.setOut (g.out u)) := by
  rw [h.nodes] at hu
  cases hg : g.fresh u with
  | some m =>
    rw [hg] at hu
    exact Or.inl ⟨(hf.fresh_iff u).1 (by rw [hg]; rfl), hu⟩
  | none =>
    rw [hg, Option.none_or] at hu
    obtain ⟨m, hm, rfl⟩ := Option.map_eq_some_iff.1 hu
    exact Or.inr ⟨fun hk => Finset.disjoint_left.1 hK hk (hp.keys (PMap.mem_keys_of_get hm)), m, hm, rfl⟩

/-- A new processor is there. -/
theorem Grown.get_fresh (h : Grown p g p') (hu : g.fresh u = some n) : p'.nodes.get u = some n := by
  rw [h.nodes, hu]
  rfl

/-- An old one is there, hung before its queue. -/
theorem Grown.get_old (h : Grown p g p') (hp : Sound p U) (hf : g.Fits p K) (hK : Disjoint K U)
    (hu : p.nodes.get u = some n) :
    p'.nodes.get u = some (n.setOut (g.out u)) := by
  have hn : g.fresh u = none := by
    rw [← Option.not_isSome_iff_eq_none, hf.fresh_iff]
    exact fun hk => Finset.disjoint_left.1 hK hk (hp.keys (PMap.mem_keys_of_get hu))
  rw [h.nodes, hn, hu]
  rfl

/-- The output of an old processor: what it was, or, on a leaf that is hung before a queue, that queue on port zero. -/
theorem Ported.setOut_cases (hw : Ported p U) (hf : g.Fits p K) {m : Processor V} (hm : p.nodes.get u = some m) :
    (m.setOut (g.out u)).outChan o = some q ↔ m.outChan o = some q ∨ (o = 0 ∧ g.out u = some q) := by
  cases ho : g.out u with
  | none => simp
  | some q' =>
    obtain ⟨hl, hp⟩ := hw.leaf_out u m hm (hf.out_leaf u (by rw [ho]; rfl)).1
    have hnone : m.outChan o = none := by simp [Processor.outChan, hl, hp]
    rw [Processor.setOut_outChan m q' o hl, hnone]
    by_cases h0 : o = 0 <;> simp [h0]

/-- A processor stays well shaped when it is hung before a queue of the pipeline. -/
theorem Processor.Shaped.setOut (h : n.Shaped) (hm : n.kind.isMultiOut = false) (hs : n.kind.isSink = false)
    (hq : q.isLink = true) : (n.setOut (some q)).Shaped := by
  have hout : ∀ o q', (n.setOut (some q)).outChan o = some q' → o = 0 ∧ q' = q := by
    intro o q' ho
    rw [Processor.setOut_outChan n q o hm] at ho
    exact eq_of_ite_some ho
  refine ⟨h.in_lt, fun o q' ho => ?_, h.in_link, fun o q' ho => ?_, h.need_pos, h.channel_count, h.multi_in,
    fun hm' => ?_⟩
  · obtain ⟨rfl, rfl⟩ := hout o q' ho
    rw [Processor.setOut_kind]
    cases hk : n.kind <;> simp_all [Kind.nout, Kind.isSink, Kind.isMultiOut]
  · obtain ⟨rfl, rfl⟩ := hout o q' ho
    rw [Processor.setOut_kind, hq]
    cases hk : n.kind <;> simp_all [Kind.isChannelSink, Kind.isSink]
  · rw [Processor.setOut_kind, hm] at hm'
    cases hm'

/-- A builder call makes a pipeline grow. -/
structure Growing (p : Pipeline V) (U K : Finset Id) (g : Growth V) (p' : Pipeline V) : Prop where
  ported : Ported p U
  sound : Sound p U
  fits : g.Fits p K
  hangs : g.Hangs
  disjoint : Disjoint K U
  grown : Grown p g p'

/-- The queue is made for an input of a new processor behind `u`. -/
def Growth.Makes (g : Growth V) (K : Finset Id) (u : Id) (q : Queue) : Prop :=
  ∃ v i c m, q = .link v i c ∧ v ∈ K ∧ g.fresh v = some m ∧ m.inChan i = some q ∧ g.edge u v

namespace Growing

variable {p p' : Pipeline V} {U K : Finset Id} {g : Growth V} {u v : Id} {n m : Processor V} {o i : Nat} {q : Queue}

section

variable (h : Growing p U K g p')
include h

/-- New ids are not old ones. -/
theorem not_mem (hv : v ∈ K) : v ∉ U := Finset.disjoint_left.1 h.disjoint hv

/-- A processor is new or old. -/
theorem get_cases (hu : p'.nodes.get u = some n) :
    (u ∈ K ∧ g.fresh u = some n) ∨ (u ∉ K ∧ ∃ m, p.nodes.get u = some m ∧ n = m.setOut (g.out u)) :=
  h.grown.get_cases h.sound h.fits h.disjoint hu

/-- An old processor has the inputs it had. -/
theorem old_in (hm : p.nodes.get v = some m) (hi : m.inChan i = some q) :
    ∃ m', p'.nodes.get v = some m' ∧ m'.inChan i = some q :=
  ⟨_, h.grown.get_old h.sound h.fits h.disjoint hm, (Processor.setOut_inChan m _ i).trans hi⟩

/-- An old processor has the outputs it had, and those of its queue if it is hung before one. -/
theorem old_out (hn : p.nodes.get u = some n) (ho : n.outChan o = some q ∨ (o = 0 ∧ g.out u = some q)) :
    ∃ n', p'.nodes.get u = some n' ∧ n'.outChan o = some q :=
  ⟨_, h.grown.get_old h.sound h.fits h.disjoint hn, (h.ported.setOut_cases h.fits hn).2 ho⟩

/-- A processor that is hung before a queue is an old one. -/
theorem exists_old (ho : g.out u = some q) : ∃ n, p.nodes.get u = some n := by
  have hleaf := (h.fits.out_leaf u (by rw [ho]; rfl)).1
  exact Option.isSome_iff_exists.1 ((p.nodes.mem_keys u).1 ((h.sound.leaves_iff u).1 hleaf).1)

/-- Who is hung before a queue writes a new one. -/
theorem makes_of_out (ho : g.out u = some q) : g.Makes K u q := by
  obtain ⟨hl, v, m, i, hv, hi, he⟩ := h.hangs.out u q ho
  obtain ⟨c, hq, hvK⟩ := h.hangs.reader h.fits hv hi hl
  exact ⟨v, i, c, m, hq, hvK, hv, hi, he⟩

/-- A new processor writes new queues. -/
theorem makes_of_fresh (hu : g.fresh u = some n) (ho : n.outChan o = some q) (hq : q.isLink = true) :
    g.Makes K u q := by
  obtain ⟨v, m, i, hv, hi, he⟩ := h.hangs.fresh_out u n o q hu ho hq
  obtain ⟨c, hlink, hvK⟩ := h.hangs.reader h.fits hv hi hq
  exact ⟨v, i, c, m, hlink, hvK, hv, hi, he⟩

/-- An input is an old one, or has the queue that is made for it. -/
theorem in_cases (hv : p'.nodes.get v = some m) (hi : m.inChan i = some q) (hq : q.isLink = true) :
    (v ∈ K ∧ g.fresh v = some m ∧ ∃ c, q = .link v i c) ∨ ∃ m₀, p.nodes.get v = some m₀ ∧ m₀.inChan i = some q ∧
    m.need = m₀.need := by
  rcases h.get_cases hv with ⟨hvK, hv⟩ | ⟨-, m₀, hm, rfl⟩
  · exact .inl ⟨hvK, hv, h.hangs.fresh_in v m i q hv hi hq⟩
  · rw [Processor.setOut_inChan] at hi
    exact .inr ⟨m₀, hm, hi, Processor.setOut_need m₀ _⟩

/-- An output is an old one, or has a new queue. -/
theorem out_cases (hu : p'.nodes.get u = some n) (ho : n.outChan o = some q) (hq : q.isLink = true) :
    g.Makes K u q ∨ ∃ n₀, p.nodes.get u = some n₀ ∧ n₀.outChan o = some q := by
  rcases h.get_cases hu with ⟨-, hu⟩ | ⟨-, n₀, hn, rfl⟩
  · exact .inl (h.makes_of_fresh hu ho hq)
  · rcases (h.ported.setOut_cases h.fits hn).1 ho with ho | ⟨-, ho⟩
    · exact .inr ⟨n₀, hn, ho⟩
    · exact .inl (h.makes_of_out ho)

/-- No old output has a new queue. -/
theorem not_makes_of_out {w : Id} (hn : p.nodes.get u = some n) (ho : n.outChan o = some q) : ¬g.Makes K w q := by
  rintro ⟨v, i, c, -, rfl, hvK, -⟩
  exact h.not_mem hvK (h.ported.out_mem u n o _ _ _ hn ho)

/-- No old input has a new queue. -/
theorem not_makes_of_in {w : Id} (hm : p.nodes.get v = some m) (hi : m.inChan i = some q) : ¬g.Makes K w q := by
  rintro ⟨v', i', c, -, rfl, hvK, -⟩
  exact h.not_mem hvK (h.ported.in_mem v m i _ _ _ hm hi)

/-- All are well shaped. -/
theorem shaped (hu : p'.nodes.get u = some n) : n.Shaped := by
  rcases h.get_cases hu with ⟨-, hu⟩ | ⟨-, m, hm, rfl⟩
  · exact h.hangs.shaped u n hu
  · cases ho : g.out u with
    | none => exact h.ported.shaped u m hm
    | some q =>
      have hleaf := (h.fits.out_leaf u (by rw [ho]; rfl)).1
      have hs : m.kind.isSink = false := by
        rw [← Bool.not_eq_true]
        exact fun hs => ((h.sound.leaves_iff u).1 hleaf).2.1 ((h.sound.sinks_iff u).2 ⟨m, hm, hs⟩)
      exact (h.ported.shaped u m hm).setOut (h.ported.leaf_out u m hm hleaf).1 hs (h.hangs.out u q ho).1

end

variable {c : Nat}

section

variable (h : Growing p U K g p')
include h

/-- The readers of the queues at inputs are in the pipeline. -/
theorem in_mem {r k : Nat} (hu : p'.nodes.get u = some n)
    (hi : n.inChan i = some (.link r k c)) : r ∈ U ∪ K := by
  rcases h.in_cases hu hi rfl with ⟨hvK, -, c', hq⟩ | ⟨m, hm, hi, -⟩
  · injection hq with hr
    exact Finset.mem_union_right _ (hr ▸ hvK)
  · exact Finset.mem_union_left _ (h.ported.in_mem u m i r k c hm hi)

/-- So are the readers of those at outputs. -/
theorem out_mem {r k : Nat} (hu : p'.nodes.get u = some n)
    (ho : n.outChan o = some (.link r k c)) : r ∈ U ∪ K := by
  rcases h.out_cases hu ho rfl with ⟨v, i, c', m, hq, hvK, -⟩ | ⟨m, hm, ho⟩
  · injection hq with hr
    exact Finset.mem_union_right _ (hr ▸ hvK)
  · exact Finset.mem_union_left _ (h.ported.out_mem u m o r k c hm ho)

/-- An old reader holds an old queue, a new reader the queue made for it. -/
theorem reader_unique {j : Nat} (hu : p'.nodes.get u = some n) (hv : p'.nodes.get v = some m)
    (hi : n.inChan i = some q) (hj : m.inChan j = some q) (hq : q.isLink = true) : u = v ∧ i = j := by
  rcases h.in_cases hu hi hq with ⟨huK, -, c, rfl⟩ | ⟨n₀, hn, hi, -⟩
  · rcases h.in_cases hv hj hq with ⟨-, -, c', hq'⟩ | ⟨m₀, hm, hj, -⟩
    · cases hq'
      exact ⟨rfl, rfl⟩
    · exact absurd (h.ported.in_mem v m₀ j _ _ _ hm hj) (h.not_mem huK)
  · rcases h.in_cases hv hj hq with ⟨hvK, -, c, rfl⟩ | ⟨m₀, hm, hj, -⟩
    · exact absurd (h.ported.in_mem u n₀ i _ _ _ hn hi) (h.not_mem hvK)
    · exact h.ported.reader_unique u n₀ i v m₀ j q hn hm hi hj hq

/-- An output has a queue of its own. -/
theorem out_unique {o' : Nat} (hu : p'.nodes.get u = some n) (ho : n.outChan o = some q)
    (ho' : n.outChan o' = some q) : o = o' := by
  rcases h.get_cases hu with ⟨-, hu⟩ | ⟨-, m, hm, rfl⟩
  · exact h.hangs.out_unique u n o o' q hu ho ho'
  · rcases (h.ported.setOut_cases h.fits hm).1 ho with h1 | ⟨h1, hg1⟩ <;> rcases (h.ported.setOut_cases h.fits hm).1 ho'
      with h2 | ⟨h2, hg2⟩
    · exact h.ported.out_unique u m o o' q hm h1 h2
    · exact absurd (h.makes_of_out hg2) (h.not_makes_of_out hm h1)
    · exact absurd (h.makes_of_out hg1) (h.not_makes_of_out hm h2)
    · exact h1.trans h2.symm

/-- A new queue is written by the new processors and the old leaves that the growth says. -/
theorem mem_writers_new {i : Nat} (hv : v ∈ K) :
    (u, o) ∈ p'.writers (.link v i c) ↔ (o = 0 ∧ g.out u = some (.link v i c)) ∨ ∃ m, g.fresh u = some m ∧
    m.outChan o = some (.link v i c) := by
  rw [Pipeline.mem_writers]
  constructor
  · rintro ⟨k, hu, ho⟩
    rcases h.get_cases hu with ⟨-, hu⟩ | ⟨-, k₀, hk, rfl⟩
    · exact .inr ⟨k, hu, ho⟩
    · rcases (h.ported.setOut_cases h.fits hk).1 ho with ho | ho
      · exact absurd (h.ported.out_mem u k₀ o _ _ _ hk ho) (h.not_mem hv)
      · exact .inl ho
  · rintro (⟨rfl, ho⟩ | ⟨k, hu, ho⟩)
    · obtain ⟨k, hk⟩ := h.exists_old ho
      exact h.old_out hk (.inr ⟨rfl, ho⟩)
    · exact ⟨k, h.grown.get_fresh hu, ho⟩

/-- An old queue has the writers it had. -/
theorem mem_writers_old (hm : p.nodes.get v = some m) (hi : m.inChan i = some q) (hq : q.isLink = true) :
    (u, o) ∈ p'.writers q ↔ (u, o) ∈ p.writers q := by
  rw [Pipeline.mem_writers, Pipeline.mem_writers]
  constructor
  · rintro ⟨k, hu, ho⟩
    exact (h.out_cases hu ho hq).resolve_left (h.not_makes_of_in hm hi)
  · rintro ⟨k, hk, ho⟩
    exact h.old_out hk (.inl ho)

/-- The EOFs counted are those of the writers. -/
theorem count (hwires : g.Wires p) (hcount : p.Counted) (hv : p'.nodes.get v = some n) (hi : n.inChan i = some q)
    (hq : q.isLink = true) :
    (p'.writers q).card = n.need := by
  rcases h.in_cases hv hi hq with ⟨hvK, hv, c, rfl⟩ | ⟨m, hm, hi, hneed⟩
  · obtain ⟨S, hcard, hS⟩ := hwires.count v n i _ hv hi hq
    rw [← hcard]
    congr 1
    ext ⟨u, o⟩
    rw [h.mem_writers_new hvK, hS]
  · rw [hneed, ← hcount v m i q hm hi hq]
    congr 1
    ext ⟨u, o⟩
    exact h.mem_writers_old hm hi hq

/-- An edge is a queue between two ports. -/
theorem edge_port (he : p'.Edge u v) :
    ∃ n m o i q, p'.nodes.get u = some n ∧ p'.nodes.get v = some m ∧ n.outChan o = some q ∧ m.inChan i = some q := by
  rcases (h.grown.edges u v).1 he with he | he
  · obtain ⟨n, m, o, i, q, hn, hm, ho, hi⟩ := h.ported.edge_port u v he
    obtain ⟨n', hn', ho'⟩ := h.old_out hn (.inl ho)
    obtain ⟨m', hm', hi'⟩ := h.old_in hm hi
    exact ⟨n', m', o, i, q, hn', hm', ho', hi'⟩
  · obtain ⟨m, i, q, hv, hi, ⟨n, o, hn, ho⟩ | ho⟩ := h.hangs.edge u v he
    · exact ⟨n, m, o, i, q, h.grown.get_fresh hn, h.grown.get_fresh hv, ho, hi⟩
    · obtain ⟨k, hk⟩ := h.exists_old ho
      obtain ⟨n', hn', ho'⟩ := h.old_out hk (.inr ⟨rfl, ho⟩)
      exact ⟨n', m, 0, i, q, hn', h.grown.get_fresh hv, ho', hi⟩

/-- A queue between two ports is an edge. -/
theorem port_edge (hu : p'.nodes.get u = some n) (hv : p'.nodes.get v = some m) (ho : n.outChan o = some q)
    (hi : m.inChan i = some q) (hq : q.isLink = true) : p'.Edge u v := by
  rw [h.grown.edges]
  rcases h.out_cases hu ho hq with hnew | ⟨n₀, hn, ho⟩
  · -- who reads a new queue is the new processor it was made for
    rcases h.in_cases hv hi hq with ⟨-, -, c, rfl⟩ | ⟨m₀, hm, hi, -⟩
    · obtain ⟨w, j, c', k, hq', -, -, -, he⟩ := hnew
      cases hq'
      exact .inr he
    · exact absurd hnew (h.not_makes_of_in hm hi)
  · rcases h.in_cases hv hi hq with ⟨hvK, -, c, rfl⟩ | ⟨m₀, hm, hi, -⟩
    · exact absurd (h.ported.out_mem u n₀ o _ _ _ hn ho) (h.not_mem hvK)
    · exact .inl (h.ported.port_edge u v n₀ m₀ o i q hn hm ho hi hq)

/-- Every queue written is read. -/
theorem out_read (hu : p'.nodes.get u = some n) (ho : n.outChan o = some q) (hq : q.isLink = true) :
    ∃ v m i, p'.nodes.get v = some m ∧ m.inChan i = some q := by
  rcases h.out_cases hu ho hq with ⟨v, i, c, m, -, -, hv, hi, -⟩ | ⟨n₀, hn, ho⟩
  · exact ⟨v, m, i, h.grown.get_fresh hv, hi⟩
  · obtain ⟨v, m, i, hv, hi⟩ := h.ported.out_read u n₀ o q hn ho hq
    obtain ⟨m', hm', hi'⟩ := h.old_in hv hi
    exact ⟨v, m', i, hm', hi'⟩

/-- A leaf writes nowhere yet. -/
theorem leaf_out (hu : p'.nodes.get u = some n) (hl : u ∈ p'.leaves) :
    n.kind.isMultiOut = false ∧ n.outputPort = none := by
  rcases (h.grown.leaves u).1 hl with ⟨hl, ho⟩ | hl
  · rcases h.get_cases hu with ⟨huK, -⟩ | ⟨-, n₀, hn, rfl⟩
    · exact absurd (h.sound.keys ((h.sound.leaves_iff u).1 hl).1) (h.not_mem huK)
    · rw [ho]
      exact h.ported.leaf_out u n₀ hn hl
  · rcases h.get_cases hu with ⟨-, hu⟩ | ⟨huK, -⟩
    · exact h.hangs.leaf_out u n hu hl
    · exact absurd ((h.fits.leaf_iff u).1 hl).1 huK

/-- Who is no leaf writes everywhere. -/
theorem out_bound (hu : p'.nodes.get u = some n) (hl : u ∉ p'.leaves) (hs : n.kind.isSink = false)
    (ho : o < n.kind.nout) : (n.outChan o).isSome = true := by
  have hl' := fun hx => hl ((h.grown.leaves u).2 hx)
  rcases h.get_cases hu with ⟨-, hu⟩ | ⟨-, n₀, hn, rfl⟩
  · exact h.hangs.out_bound u n hu (fun hx => hl' (.inr hx)) hs o ho
  · rw [Processor.setOut_kind] at hs ho
    cases hgo : g.out u with
    | none => exact h.ported.out_bound u n₀ hn (fun hx => hl' (.inl ⟨hx, hgo⟩)) hs o ho
    | some q =>
      obtain ⟨hmo, -⟩ := h.ported.leaf_out u n₀ hn (h.fits.out_leaf u (by rw [hgo]; rfl)).1
      have h0 : o = 0 := by
        cases hk : n₀.kind <;> simp_all [Kind.nout, Kind.isSink, Kind.isMultiOut]
      rw [Processor.setOut_outChan n₀ q o hmo, if_pos h0]
      rfl

end

end Growing

/-- A growth keeps the ports in order. -/
theorem Ported.grown (hw : Ported p U) (hp : Sound p U) (hf : g.Fits p K) (hg : g.Hangs) (hK : Disjoint K U)
    (h : Grown p g p') : Ported p' (U ∪ K) :=
  have hgrow : Growing p U K g p' := ⟨hw, hp, hf, hg, hK, h⟩
  { shaped := fun _ _ hu => hgrow.shaped hu
    in_mem := fun _ _ _ _ _ _ hu hi => hgrow.in_mem hu hi
    out_mem := fun _ _ _ _ _ _ hu ho => hgrow.out_mem hu ho
    reader_unique := fun _ _ _ _ _ _ _ hu hv hi hj hq => hgrow.reader_unique hu hv hi hj hq
    out_unique := fun _ _ _ _ _ hu ho ho' => hgrow.out_unique hu ho ho'
    edge_port := fun _ _ he => hgrow.edge_port he
    port_edge := fun _ _ _ _ _ _ _ hu hv ho hi hq => hgrow.port_edge hu hv ho hi hq
    out_read := fun _ _ _ _ hu ho hq => hgrow.out_read hu ho hq
    leaf_out := fun _ _ hu hl => hgrow.leaf_out hu hl
    out_bound := fun _ _ hu hl hs _ ho => hgrow.out_bound hu hl hs ho }

/-- A growth keeps the wiring. -/
theorem Wired.grown (hw : Wired p U) (hp : Sound p U) (hf : g.Fits p K) (hg : g.Wires p) (hK : Disjoint K U)
    (h : Grown p g p') : Wired p' (U ∪ K) := by
  have hgrow : Growing p U K g p' := ⟨hw.toPorted, hp, hf, hg.toHangs, hK, h⟩
  exact ⟨hw.toPorted.grown hp hf hg.toHangs hK h, fun _ _ _ _ hv hi hq => hgrow.count hg hw.count hv hi hq⟩

/-- A builder call keeps the invariant of the ports. -/
theorem Ported.grows {U' : Finset Id} (hw : Ported p U) (hp : Sound p U) (h : Grows nr ne p U p' U') : Ported p' U' :=
  (h.induct (I := fun p U => Sound p U ∧ Ported p U) ⟨hp, hw⟩ (fun hI hg hK hs =>
    ⟨hI.1.grown (hg.fits hI.1 hK) hK hs, hI.2.grown hI.1 (hg.fits hI.1 hK) hg.hangs hK hs⟩)).2

/-- A builder call keeps the wiring, unless it is a `ConcatFrom` that names a leaf twice. -/
theorem Wired.grows {U' : Finset Id} (hnr : nr) (hw : Wired p U) (hp : Sound p U) (h : Grows nr ne p U p' U') :
    Wired p' U' :=
  (h.induct (I := fun p U => Sound p U ∧ Wired p U) ⟨hp, hw⟩ (fun hI hg hK hs =>
    ⟨hI.1.grown (hg.fits hI.1 hK) hK hs, hI.2.grown hI.1 (hg.fits hI.1 hK) (hg.wires hnr) hK hs⟩)).2

end Tunnel
