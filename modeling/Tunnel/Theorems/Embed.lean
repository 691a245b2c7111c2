import Tunnel.Embed
import Tunnel.Theorems.Schedule
import Tunnel.Lemmas.Occupancy

/-!
# Embedding a pipeline

With one writer upstream a pipeline inside a `Transform` does what its transforms do one behind the other
(`embedding_transparent`): its processors form a line (`Pipeline.Embeds.line`), what the `ChannelSource` reads is what
was written to the input queue (`Reads`), and it reads up to the first EOF. With two writers or more the first EOF ends
it as well, and another writer waits forever (`embedding_writers`).
-/

namespace Tunnel

open Lib Function

variable {V : Type}

/-! ## Transforms as maps -/

/-- A plain transform maps its values. -/
theorem TransformKind.Plain.output_eq {k : TransformKind V} (hk : k.Plain) (ins : List V) :
    (Kind.transform k).output ins 0 = k.mapFrom [] ins := by
  have hvalues : ∀ before, streamOf ((Kind.transform k).emittedFrom before ins) 0 = k.mapFrom before ins := by
    induction ins with
    | nil => exact fun _ => rfl
    | cons v rest ih =>
      intro before
      rw [Kind.emittedFrom, streamOf_append, ih, TransformKind.mapFrom]
      cases hk <;> rfl
  have hend : (streamOf ((Kind.transform k).onEof ins) 0).reduceOption = [] := by cases hk <;> rfl
  rw [Kind.output_eq rfl, hend, List.append_nil]
  exact hvalues []

theorem Kind.isChannelSource_iff {k : Kind V} : k.isChannelSource = true ↔ ∃ ch, k = .source (.channel ch) := by
  constructor
  · intro hk
    cases k with
    | source k =>
      cases k with
      | channel ch => exact ⟨ch, rfl⟩
      | generate g => nomatch hk
    | _ => nomatch hk
  · rintro ⟨ch, rfl⟩
    rfl

theorem Kind.isChannelSink_iff {k : Kind V} : k.isChannelSink = true ↔ ∃ ch, k = .sink (.channel ch) := by
  constructor
  · intro hk
    cases k with
    | sink k =>
      cases k with
      | channel ch => exact ⟨ch, rfl⟩
      | consume => nomatch hk
    | _ => nomatch hk
  · rintro ⟨ch, rfl⟩
    rfl

/-- A class that hands on every value. -/
theorem Kind.output_same {k : Kind V} (hgen : k.generates = false) (hvalue : ∀ before v, k.onValue before v = [(0, v)])
    (hend : ∀ ins, (streamOf (k.onEof ins) 0).reduceOption = []) (ins : List V) : k.output ins 0 = ins := by
  have hvalues : ∀ before, streamOf (k.emittedFrom before ins) 0 = ins := by
    induction ins with
    | nil => exact fun _ => rfl
    | cons v rest ih =>
      intro before
      rw [Kind.emittedFrom, streamOf_append, ih, hvalue]
      rfl
  rw [Kind.output_eq hgen, hend, List.append_nil]
  exact hvalues []

/-! ## The line of processors -/

namespace Pipeline.Embeds

variable {p : Pipeline V} {U : Finset Id} {u z v w : Id} {n : Processor V} {input output : UserChannel}

section

variable (h : p.Embeds u z input output)
include h

/-- The class of each processor. -/
theorem kinds (hn : p.nodes.get v = some n) :
    (v = u ∧ ∃ ch, n.kind = .source (.channel ch)) ∨ (v = z ∧ ∃ ch, n.kind = .sink (.channel ch)) ∨
      ∃ k : TransformKind V, n.kind = .transform k ∧ k.Plain := by
  by_cases hu : v = u
  · obtain ⟨m, hm, hk, -⟩ := h.source
    rw [hu, hm] at hn
    cases hn
    exact .inl ⟨hu, Kind.isChannelSource_iff.1 hk⟩
  · by_cases hz : v = z
    · obtain ⟨m, hm, hk, -⟩ := h.sink
      rw [hz, hm] at hn
      cases hn
      exact .inr (.inl ⟨hz, Kind.isChannelSink_iff.1 hk⟩)
    · exact .inr (.inr (h.others v n hn hu hz))

/-- Every processor of the line has one input and one output. -/
theorem one_port (hn : p.nodes.get v = some n) : n.kind.nin = 1 ∧ n.kind.nout = 1 := by
  rcases h.kinds hn with ⟨-, ch, hk⟩ | ⟨-, ch, hk⟩ | ⟨k, hk, -⟩ <;> rw [hk] <;> exact ⟨rfl, rfl⟩

section

variable (hnet : Network p U)
include hnet

/-- Only `u` is a source. -/
theorem source_iff : v ∈ p.sources ↔ v = u := by
  rw [hnet.sound.sources_iff]
  constructor
  · rintro ⟨n, hn, hsource⟩
    rcases h.kinds hn with ⟨hv, -⟩ | ⟨-, ch, hk⟩ | ⟨k, hk, -⟩
    · exact hv
    · rw [hk] at hsource
      nomatch hsource
    · rw [hk] at hsource
      nomatch hsource
  · rintro rfl
    obtain ⟨n, hn, hk, -⟩ := h.source
    obtain ⟨ch, hk⟩ := Kind.isChannelSource_iff.1 hk
    exact ⟨n, hn, by rw [hk]; rfl⟩

/-- Its end is a sink. -/
theorem sink_mem : z ∈ p.sinks := by
  rw [hnet.sound.sinks_iff]
  obtain ⟨n, hn, hk, -⟩ := h.sink
  obtain ⟨ch, hk⟩ := Kind.isChannelSink_iff.1 hk
  exact ⟨n, hn, by rw [hk]; rfl⟩

/-- An edge is a queue of the pipeline, from the output of the one to the input of the other. -/
theorem edge_queue (he : p.Edge v w) :
    ∃ n m q, p.nodes.get v = some n ∧ p.nodes.get w = some m ∧ n.outChan 0 = some q ∧ m.inChan 0 = some q ∧
    q.isLink = true := by
  obtain ⟨n, m, o, i, q, hn, hm, ho, hi⟩ := hnet.wired.edge_port v w he
  have hlink : q.isLink = true := by
    rw [(hnet.wired.shaped w m hm).in_link i q hi]
    rcases h.kinds hm with ⟨rfl, -⟩ | ⟨-, ch, hk⟩ | ⟨k, hk, -⟩
    · exact absurd he (hnet.sound.sources_in w ((h.source_iff hnet).2 rfl) v)
    · rw [hk]
      rfl
    · rw [hk]
      rfl
  have ho' := (hnet.wired.shaped v n hn).out_lt o q ho
  have hi' := (hnet.wired.shaped w m hm).in_lt i q hi
  rw [(h.one_port hn).2, Nat.lt_one_iff] at ho'
  rw [(h.one_port hm).1, Nat.lt_one_iff] at hi'
  subst ho' hi'
  exact ⟨n, m, q, hn, hm, ho, hi, hlink⟩

/-- No processor has two next ones. -/
theorem edge_rightUnique : Relator.RightUnique p.Edge := by
  intro v w w' he he'
  obtain ⟨n, m, q, hn, hm, ho, hi, hlink⟩ := h.edge_queue hnet he
  obtain ⟨n', m', q', hn', hm', ho', hi', -⟩ := h.edge_queue hnet he'
  rw [hn] at hn'
  cases hn'
  rw [ho] at ho'
  cases ho'
  exact (hnet.wired.reader_unique w m 0 w' m' 0 q hm hm' hi hi' hlink).1

/-- All processors are behind the first. -/
theorem reached (hn : p.nodes.get v = some n) : Relation.ReflTransGen p.Edge u v := by
  obtain ⟨s, hs, hsv⟩ := hnet.rooted.root v (PMap.mem_keys_of_get hn)
  rw [(h.source_iff hnet).1 hs] at hsv
  exact hsv

/-- The queue of an edge has one writer. -/
theorem writers_le_one {m : Processor V} {q : Queue} (hm : p.nodes.get w = some m)
    (hi : m.inChan 0 = some q) (hlink : q.isLink = true) : (p.writers q).card ≤ 1 := by
  refine Finset.card_le_one.2 ?_
  rintro ⟨a, o⟩ ha ⟨b, o'⟩ hb
  obtain ⟨na, hna, hoa⟩ := (p.mem_writers q a o).1 ha
  obtain ⟨nb, hnb, hob⟩ := (p.mem_writers q b o').1 hb
  obtain rfl : a = b := hnet.sound.ranked.pred_unique (h.edge_rightUnique hnet) (h.reached hnet hna)
    (h.reached hnet hnb) (hnet.wired.port_edge a w na m o 0 q hna hm hoa hi hlink)
    (hnet.wired.port_edge b w nb m o' 0 q hnb hm hob hi hlink)
  rw [hna] at hnb
  cases hnb
  rw [hnet.wired.out_unique a na o o' q hna hoa hob]

/-- There is a line from the source to every processor but the sink. -/
theorem exists_line (huv : Relation.ReflTransGen p.Edge u v) (hz : v ≠ z) :
    ∃ ks, p.Line u v ks := by
  induction huv with
  | refl => exact ⟨[], .nil⟩
  | @tail v w huv he ih =>
    have hvz : v ≠ z := by
      rintro rfl
      exact hnet.sound.sinks_out v (h.sink_mem hnet) w he
    obtain ⟨ks, hline⟩ := ih hvz
    obtain ⟨n, m, q, -, hm, -⟩ := h.edge_queue hnet he
    rcases h.kinds hm with ⟨rfl, -⟩ | ⟨rfl, -⟩ | ⟨k, hk, -⟩
    · exact absurd he (hnet.sound.sources_in w ((h.source_iff hnet).2 rfl) v)
    · exact absurd rfl hz
    · exact ⟨ks ++ [k], .snoc hline he hm hk⟩

/-- The line from the source to the sink. -/
theorem line : ∃ v ks, p.Line u v ks ∧ p.Edge v z := by
  obtain ⟨n, hn, hk, -⟩ := h.sink
  obtain ⟨ch, hk⟩ := Kind.isChannelSink_iff.1 hk
  rcases (h.reached hnet hn).cases_tail with heq | ⟨v, huv, he⟩
  · obtain ⟨m, hm, hk', -⟩ := h.source
    rw [← heq, hn] at hm
    cases hm
    rw [hk] at hk'
    nomatch hk'
  · have hvz : v ≠ z := by
      rintro rfl
      exact hnet.sound.sinks_out v (h.sink_mem hnet) v he
    obtain ⟨ks, hline⟩ := h.exists_line hnet huv hvz
    exact ⟨v, ks, hline, he⟩

end

end

section

variable {ins outs : Id → Nat → List V}

section

variable (h : p.Embeds u z input output)
include h

/-- What a processor reads is what the one before it writes. -/
theorem ins_eq (hnet : Network p U) (hh : Histories p ins outs) (he : p.Edge v w) : ins w 0 = outs v 0 := by
  obtain ⟨n, m, q, hn, hm, ho, hi, hlink⟩ := h.edge_queue hnet he
  exact (hh.joins w m 0 q hm hi hlink).eq_of_card_le_one (h.writers_le_one hnet hm hi hlink)
    ((p.mem_writers q v 0).2 ⟨n, hn, ho⟩)

/-- A processor writes what its class makes of its input. -/
theorem outs_eq (hh : Histories p ins outs) (hn : p.nodes.get v = some n) : outs v 0 = n.kind.output (ins v 0) 0 := by
  obtain ⟨hnin, hnout⟩ := h.one_port hn
  rw [hh.outputs v n 0 hn (by omega), hnin]
  exact congrArg (fun l => n.kind.output l 0) (List.flatMap_singleton (ins v) 0)

/-- Along the line the transforms are applied one by one. -/
theorem outs_line (hnet : Network p U) (hh : Histories p ins outs) {ks : List (TransformKind V)}
    (hline : p.Line u v ks) : outs v 0 = through ks (ins u 0) := by
  induction hline with
  | nil =>
    obtain ⟨n, hn, hk, -⟩ := h.source
    obtain ⟨ch, hk⟩ := Kind.isChannelSource_iff.1 hk
    rw [h.outs_eq hh hn, hk]
    exact Kind.output_same rfl (fun _ _ => rfl) (fun _ => rfl) _
  | @snoc v w n k ks hline he hw hk ih =>
    have hplain : k.Plain := by
      rcases h.kinds hw with ⟨-, ch, hk'⟩ | ⟨-, ch, hk'⟩ | ⟨k', hk', hplain⟩
      · rw [hk] at hk'
        nomatch hk'
      · rw [hk] at hk'
        nomatch hk'
      · rw [hk] at hk'
        cases hk'
        exact hplain
    rw [h.outs_eq hh hw, h.ins_eq hnet hh he, ih, hk, hplain.output_eq, through, through, List.foldl_append]
    rfl

/-- The sink gets what came through all of them. -/
theorem outs_sink (hnet : Network p U) (hh : Histories p ins outs) {ks : List (TransformKind V)}
    (hline : p.Line u v ks) (he : p.Edge v z) : outs z 0 = through ks (ins u 0) := by
  obtain ⟨n, hn, hk, -⟩ := h.sink
  obtain ⟨ch, hk⟩ := Kind.isChannelSink_iff.1 hk
  rw [h.outs_eq hh hn, h.ins_eq hnet hh he, h.outs_line hnet hh hline, hk]
  exact Kind.output_same rfl (fun _ _ => rfl) (fun _ => rfl) _

end

end

end Pipeline.Embeds

/-! ## The input queue -/

/-- What was taken from the input queue, the source has read. -/
def Reads (s : State V) (u : Id) (input : UserChannel) :
    Prop := ∀ x, s.procs u = some x → (s.queues (.user input)).taken = x.taken 0

section

variable {p : Pipeline V} {U : Finset Id} {u z : Id} {input output : UserChannel} {s s' : State V} {e : Event V}

/-- A processor moves without reading. -/
theorem Reads.setProc (h : Reads s u input) (t : State V) (hprocs : t.procs = s.procs)
    (hqueue : (t.queues (.user input)).taken = (s.queues (.user input)).taken) {w : Id} {x y : Proc V}
    (hw : s.procs w = some x) (hy : y.taken = x.taken) : Reads (t.setProc w y) u input := by
  intro x' hx'
  rw [State.setProc_queues, hqueue]
  rcases State.setProc_procs_some hx' with ⟨rfl, rfl⟩ | ⟨-, hx'⟩
  · rw [hy]
    exact h x hw
  · exact h x' (hprocs ▸ hx')

/-- Nobody but the source reads the input queue. -/
theorem Reads.moves (h : Reads s u input) (he : p.Embeds u z input output) (hnet : Network p U) (hR : Running p s)
    (hm : Moves s e s') (hreceive : e ≠ .receive input) : Reads s' u input := by
  cases hm with
  | @pop w x i q v rest hw ha hq =>
    obtain ⟨n, hn, hinv⟩ := hR.node hw
    obtain ⟨-, -, hchan⟩ := hinv.pop_port ha
    have hshaped := hnet.wired.shaped w n hn
    obtain ⟨htaken, -⟩ := Proc.popped_taken ha v
    by_cases hwu : w = u
    · -- the source, on its one input
      subst hwu
      obtain ⟨m, hm, -, hin⟩ := he.source
      rw [hn] at hm
      cases hm
      have hi := hshaped.in_lt i q hchan
      rw [(he.one_port hn).1, Nat.lt_one_iff] at hi
      subst hi
      rw [hin] at hchan
      cases hchan
      intro x' hx'
      rw [State.setProc_procs, if_pos rfl] at hx'
      cases hx'
      rw [State.setProc_queues, State.setQueue_queues, if_pos rfl, Fifo.taken_pop hq, htaken, h x hw]
      show _ = update x.taken 0 (x.taken 0 ++ [v]) 0
      rw [update_self]
    · -- any other processor, on a queue of the pipeline
      have hlink : q.isLink = true := by
        rw [hshaped.in_link i q hchan]
        rcases he.kinds hn with ⟨heq, -⟩ | ⟨-, ch, hk⟩ | ⟨k, hk, -⟩
        · exact absurd heq hwu
        · rw [hk]
          rfl
        · rw [hk]
          rfl
      intro x' hx'
      rw [State.setProc_procs, if_neg (Ne.symm hwu)] at hx'
      rw [State.setProc_queues, State.setQueue_queues, if_neg (by rintro rfl; nomatch hlink)]
      exact h x' hx'
  | @push w x o q v hw ha hq =>
    refine h.setProc (s.setQueue q _) rfl ?_ hw (Proc.pushed_put ha).2
    exact s.setQueue_keeps Fifo.taken (Fifo.taken_push _ _ _) _
  | tryPop hw ha => exact h.setProc { s with tokens := _ } rfl rfl hw (by rw [Proc.checked_toPorts])
  | tryPush hw ha => exact h.setProc { s with tokens := _ } rfl rfl hw (by rw [Proc.notified_toPorts])
  | internal hw ha => exact h.setProc s rfl rfl hw (by rw [Proc.internal_toPorts])
  | throw hw hc => exact h.setProc s rfl rfl hw rfl
  | @send ch v hq =>
    intro x' hx'
    rw [s.setQueue_keeps Fifo.taken (Fifo.taken_push _ _ _)]
    exact h x' hx'
  | @receive ch v rest hq =>
    intro x' hx'
    rw [State.setQueue_queues, if_neg (by rintro ⟨⟩; exact hreceive rfl)]
    exact h x' hx'
  | addToken ht => exact h
  | takeToken ht => exact h

/-- Nobody but the writers upstream writes to the input queue. -/
theorem Moves.log_input (he : p.Embeds u z input output) (hne : input ≠ output) (hnet : Network p U) (hR : Running p s)
    (hm : Moves s e s') (htouch : e.touches input = false) :
    (s'.queues (.user input)).log = (s.queues (.user input)).log := by
  cases hm with
  | @pop w x i q v rest hw ha hq =>
    rw [State.setProc_queues]
    exact s.setQueue_keeps Fifo.log (Fifo.log_pop _) _
  | @push w x o q v hw ha hq =>
    rw [State.setProc_queues, State.setQueue_queues, if_neg]
    rintro rfl
    obtain ⟨n, hn, hinv⟩ := hR.node hw
    obtain ⟨-, -, hchan⟩ := hinv.push_port ha
    have hshaped := hnet.wired.shaped w n hn
    have hlink := hshaped.out_link o _ hchan
    rcases he.kinds hn with ⟨-, ch, hk⟩ | ⟨rfl, -⟩ | ⟨k, hk, -⟩
    · rw [hk] at hlink
      nomatch hlink
    · -- the sink writes to its own channel
      obtain ⟨m, hm, -, hout⟩ := he.sink
      rw [hn] at hm
      cases hm
      have ho := hshaped.out_lt o _ hchan
      rw [(he.one_port hn).2, Nat.lt_one_iff] at ho
      subst ho
      rw [hout] at hchan
      cases hchan
      exact hne rfl
    · rw [hk] at hlink
      nomatch hlink
  | tryPop => rfl
  | tryPush => rfl
  | internal => rfl
  | throw => rfl
  | @send ch v hq =>
    rw [State.setQueue_queues, if_neg]
    rintro ⟨⟩
    simp [Event.touches] at htouch
  | @receive ch v rest hq =>
    rw [State.setQueue_queues, if_neg]
    rintro ⟨⟩
    simp [Event.touches] at htouch
  | addToken => rfl
  | takeToken => rfl

end

/-! ## One writer -/

theorem reduceOption_ended (values : List V) : (values.map some ++ [none]).reduceOption = values := by
  simp [List.reduceOption]

section

variable {n : Nat} {p : Pipeline V} {U : Finset Id} {u z : Id} {input output : UserChannel}
  {pre : UserChannel → List (Option V)} {tokens : Nat} {values : Fin n → List V}

/-- What holds along a run with one writer upstream. -/
structure Embedded.Kept (p : Pipeline V) (u : Id) (input : UserChannel) (pre : UserChannel → List (Option V))
    (tokens : Nat) (values : Fin n → List V) (i : Fin n) (m : Embedded n V) : Prop where
  reaches : (p.start (update pre input []) tokens).Reaches m.sub
  reads : Reads m.sub u input
  written : (m.sub.queues (.user input)).log.map Prod.snd ++ m.todo i = (values i).map some ++ [none]

/-- It holds at the start. -/
theorem Embedded.kept_start (i : Fin n) :
    (Embedded.start p input pre tokens values).Kept p u input pre tokens values i := by
  refine ⟨.refl, ?_, ?_⟩
  · intro x hx
    obtain ⟨m, -, rfl⟩ := Option.map_eq_some_iff.1 hx
    rfl
  · show ((Fifo.ofList Writer.outside (update pre input [] input)).log.map Prod.snd) ++ _ = _
    rw [update_self]
    rfl

/-- Every step keeps it. -/
theorem Embedded.Kept.step {i : Fin n} {m m' : Embedded n V} (h : m.Kept p u input pre tokens values i)
    (he : p.Embeds u z input output) (hne : input ≠ output) (hnet : Network p U) (hone : ∀ j, j = i)
    {e : EmbeddedEvent n V} (hstep : m.step input e = some m') :
    m'.Kept p u input pre tokens values i := by
  have hR := hnet.running h.reaches
  cases e with
  | write j =>
    obtain rfl := hone j
    unfold Embedded.step at hstep
    dsimp only at hstep
    split at hstep
    · nomatch hstep
    · rename_i v rest htodo
      obtain ⟨sub, hsub, rfl⟩ := Option.map_eq_some_iff.1 hstep
      obtain ⟨-, hm⟩ := State.step_iff.1 hsub
      refine ⟨h.reaches.tail ⟨_, hsub⟩, h.reads.moves he hnet hR hm nofun, ?_⟩
      cases hm
      have hwritten := h.written
      rw [htodo] at hwritten
      dsimp only
      rw [State.setQueue_queues, if_pos rfl, Fifo.log_push, List.map_append, update_self, List.append_assoc]
      exact hwritten
  | inside e =>
    unfold Embedded.step at hstep
    dsimp only at hstep
    split at hstep
    · nomatch hstep
    · rename_i htouch
      obtain ⟨sub, hsub, rfl⟩ := Option.map_eq_some_iff.1 hstep
      obtain ⟨-, hm⟩ := State.step_iff.1 hsub
      have htouch' : e.touches input = false := Bool.eq_false_iff.2 htouch
      refine ⟨h.reaches.tail ⟨_, hsub⟩, h.reads.moves he hnet hR hm ?_, ?_⟩
      · rintro rfl
        simp [Event.touches] at htouch'
      · rw [hm.log_input he hne hnet hR htouch']
        exact h.written

/-- So does a run. -/
theorem Embedded.Reaches.kept {m : Embedded n V} (h : (Embedded.start p input pre tokens values).Reaches input m)
    (he : p.Embeds u z input output) (hne : input ≠ output) (hnet : Network p U) {i : Fin n} (hone : ∀ j, j = i) :
    m.Kept p u input pre tokens values i := by
  induction h with
  | refl => exact Embedded.kept_start i
  | tail _ hlast ih =>
    obtain ⟨e, he'⟩ := hlast
    exact ih.step he hne hnet hone he'

/-- A pipeline between two channels in a `Transform` that has one writer upstream: once all its processors are done
without exception, the writer has written everything and all of it was read, and the output queue got the values that
the transforms make of it and one EOF. -/
theorem embedding_transparent (hb : Built Call.Proper p U) (hrun : p.runChecks true = .ok ())
    (he : p.Embeds u z input output) (hne : input ≠ output) (hn : n = 1) (m : Embedded n V)
    (hm : (Embedded.start p input pre tokens values).Reaches input m) (hdone : m.sub.Completed) :
    (∀ i, m.todo i = []) ∧ (m.sub.queues (.user input)).content = [] ∧
    ((m.sub.queues (.user input)).taken.reduceOption : Multiset V) = ∑ i, (values i : Multiset V) ∧
    ∃ v ks, p.Line u v ks ∧ p.Edge v z ∧ (m.sub.queues (.user output)).putBy (.port z 0) =
      (through ks (m.sub.queues (.user input)).taken.reduceOption).map some ++ [none] := by
  subst hn
  have hone : ∀ j : Fin 1, j = 0 := fun j => Subsingleton.elim j 0
  have hnet := built_network hb (Pipeline.runChecks_ok hrun).1
  have hkept := hm.kept he hne hnet hone
  have hR := hnet.running hkept.reaches
  obtain ⟨nu, hnu, hku, hin⟩ := he.source
  obtain ⟨nz, hnz, -, hout⟩ := he.sink
  obtain ⟨x, hx, hxinv⟩ := hR.proc hnu
  obtain ⟨y, hy, hyinv⟩ := hR.proc hnz
  -- the source has read an EOF, and nothing comes behind it
  have heof : eofs (m.sub.queues (.user input)).taken ≠ 0 := by
    have hfin : x.ctl.isFinished = true := by rw [hdone u x hx]; rfl
    rw [hkept.reads x hx, (hxinv.finished hfin).1 0 (by rw [(he.one_port hnu).1]; exact Nat.one_pos)]
    exact Nat.ne_of_gt ((hnet.wired.shaped u nu hnu).need_pos 0 _ hin)
  have hwritten := hkept.written
  rw [(m.sub.queues (.user input)).log_eq, List.append_assoc] at hwritten
  obtain ⟨hcontent, htodo⟩ := List.append_eq_nil_iff.1 (Ended.eq_nil ⟨values 0, hwritten⟩ heof)
  rw [hcontent, htodo, List.append_nil, List.append_nil] at hwritten
  -- what the sink has put is its values and one EOF
  have hhist := hnet.histories hkept.reaches hdone
  obtain ⟨v, ks, hline, hedge⟩ := he.line hnet
  have hvalues : (y.put 0).reduceOption = through ks (x.taken 0).reduceOption := by
    have hsink := he.outs_sink hnet hhist hline hedge
    simp only [State.valuesOut, State.valuesIn, hx, hy] at hsink
    exact hsink
  have hended : Ended (y.put 0) := by
    have hfin : y.ctl.isFinished = true := by rw [hdone z y hy]; rfl
    exact (hyinv.finished hfin).2 0 (by rw [(he.one_port hnz).2]; exact Nat.one_pos)
  refine ⟨fun i => by rw [hone i]; exact htodo, hcontent, ?_, v, ks, hline, hedge, ?_⟩
  · rw [hwritten, reduceOption_ended, Fintype.sum_unique]
    rfl
  · obtain ⟨vs, hvs⟩ := hended
    rw [hvs, reduceOption_ended] at hvalues
    rw [hR.put z nz y 0 _ hnz hy hout, hkept.reads x hx, ← hvalues, hvs]

/-- A list of steps is a run. -/
theorem Embedded.Reaches.of_runAll (es : List (EmbeddedEvent n V)) {m m' : Embedded n V}
    (h : m.runAll input es = some m') :
    m.Reaches input m' :=
  reaches_of_run (Embedded.runAll input) (fun _ => rfl) (fun _ _ _ => rfl) es h

end

/-- A `ChannelSource`, a transform that doubles and a `ChannelSink`. -/
def doubling : Pipeline Nat × Finset Id :=
  Pipeline.ofCalls Call.Proper {} [.addSource 1 "channel_source" (.channel (some ⟨0, 1⟩)),
    .addTransform 1 2 "double" (.simple (fun _ v => 2 * v)),
    .setSink 3 "channel_sink" (.channel (some ⟨1, 2⟩)) (.single 2)]

theorem doubling_keys : ∀ v ∈ doubling.1.nodes.keys, v = 1 ∨ v = 2 ∨ v = 3 := by decide

/-- It is a line from `ChannelSource` to `ChannelSink`. -/
theorem doubling_embeds : doubling.1.Embeds 1 3 ⟨0, 1⟩ ⟨1, 2⟩ where
  source := ⟨_, rfl, rfl, rfl⟩
  sink := ⟨_, rfl, rfl, rfl⟩
  others v n hn hsource hsink := by
    rcases doubling_keys v (PMap.mem_keys_of_get hn) with rfl | rfl | rfl
    · exact absurd rfl hsource
    · cases hn
      exact ⟨_, rfl, .simple _⟩
    · exact absurd rfl hsink

def runs {n : Nat} (ids : List Id) : List (EmbeddedEvent n Nat) := ids.map (fun u => .inside (.run u))

/-- Where the processors of `doubling` stand, and what came out. -/
def Embedded.result {n : Nat} (m : Embedded n Nat) : List (Option (Ctl Nat)) × List (Option Nat) :=
  ([1, 2, 3].map (fun u => (m.sub.procs u).map Proc.ctl), (m.sub.queues (.user ⟨1, 2⟩)).putBy (.port 3 0))

theorem Embedded.finished_of_result {n : Nat} {m : Embedded n Nat} {l : List (Option Nat)}
    (h : m.result = (List.replicate 3 (some (.finished none)), l)) {u : Id} (hu : u ∈ doubling.1.nodes.keys) :
    ∃ x, m.sub.procs u = some x ∧ x.ctl = .finished none := by
  obtain ⟨hctl, -⟩ := Prod.mk.inj h
  obtain ⟨h1, hctl⟩ := List.cons.inj hctl
  obtain ⟨h2, hctl⟩ := List.cons.inj hctl
  rcases doubling_keys u hu with rfl | rfl | rfl
  · exact Option.map_eq_some_iff.1 h1
  · exact Option.map_eq_some_iff.1 h2
  · exact Option.map_eq_some_iff.1 (List.cons.inj hctl).1

/-- One writer writes a value and EOF. -/
def oneWriter : List (EmbeddedEvent 1 Nat) :=
  runs [3, 2, 1] ++ .write ⟨0, Nat.zero_lt_one⟩ :: runs [1, 1, 1, 1, 2, 2, 2, 2, 3, 3, 3, 3, 3, 2, 1] ++
    .write ⟨0, Nat.zero_lt_one⟩ :: runs [1, 1, 1, 2, 2, 2, 3, 3, 3, 2, 2, 1, 1]

/-- One writer, one value. -/
theorem embedding_transparent_double :
    ∃ m, (Embedded.start doubling.1 ⟨0, 1⟩ (fun _ => []) 0 (fun _ : Fin 1 => [5])).runAll ⟨0, 1⟩ oneWriter = some m ∧
    m.sub.Completed ∧ (∀ i, m.todo i = []) ∧ (m.sub.queues (.user ⟨1, 2⟩)).putBy (.port 3 0) = [some 10, none] := by
  have hb : Built Call.Proper doubling.1 _ := built_ofCalls _ _ _
  have hrun : ((Embedded.start doubling.1 ⟨0, 1⟩ (fun _ => []) 0 (fun _ : Fin 1 => [5])).runAll ⟨0,
      1⟩ oneWriter).map Embedded.result =
      some (List.replicate 3 (some (.finished none)), [some 10, none]) := by decide +kernel
  obtain ⟨m, hrun, hresult⟩ := Option.map_eq_some_iff.1 hrun
  have hm := Embedded.Reaches.of_runAll oneWriter hrun
  have hkept := hm.kept doubling_embeds (by decide) (built_network hb rfl) (i := 0) (fun j => Subsingleton.elim j 0)
  have hdone : m.sub.Completed :=
    .of_keys ((built_network hb rfl).running hkept.reaches) (fun u hu => Embedded.finished_of_result hresult hu)
  exact ⟨m, hrun, hdone, (embedding_transparent hb rfl doubling_embeds (by decide) rfl m hm hdone).1,
    (Prod.mk.inj hresult).2⟩

/-- Of the writers, one has nothing to write but its EOF and comes first, and another has a value. -/
def twoWriters (k : Nat) : List (EmbeddedEvent (k + 2) Nat) :=
  runs [3, 2, 1] ++ .write ⟨0, Nat.succ_pos _⟩ :: runs [1, 1, 1, 2, 2, 2, 3, 3, 3, 2, 2, 1, 1] ++
    [.write ⟨1, Nat.succ_lt_succ (Nat.succ_pos _)⟩]

/-- As soon as there are two writers, however many: the pipeline is done without exception after the first EOF. The
value of another writer stays in the input queue, which has no room for its EOF and which nobody reads any more; the
output queue got EOF alone. -/
theorem embedding_writers (k : Nat) : ∃ m : Embedded (k + 2) Nat,
    (Embedded.start doubling.1 ⟨0, 1⟩ (fun _ => []) 0 (fun i => if i.1 = 0 then [] else [5])).runAll ⟨0,
      1⟩ (twoWriters k) = some m ∧
    (∀ u ∈ doubling.1.nodes.keys, ∃ x, m.sub.procs u = some x ∧ x.ctl = .finished none) ∧
    m.todo ⟨1, Nat.succ_lt_succ (Nat.succ_pos _)⟩ = [none] ∧
    (m.sub.queues (.user ⟨0, 1⟩)).content = [some 5] ∧ m.sub.hasRoom (.user ⟨0, 1⟩) = false ∧
    (m.sub.queues (.user ⟨1, 2⟩)).putBy (.port 3 0) = [none] := by
  have hresult : ∃ m, (Embedded.start doubling.1 ⟨0, 1⟩ (fun _ => []) 0 (fun i : Fin (k + 2) => if i.1 = 0 then []
      else [5])).runAll ⟨0, 1⟩
      (twoWriters k) = some m ∧ m.result = (List.replicate 3 (some (.finished none)), [none]) ∧
      m.todo ⟨1, Nat.succ_lt_succ (Nat.succ_pos _)⟩ = [none] ∧ (m.sub.queues (.user ⟨0, 1⟩)).content = [some 5] ∧
      m.sub.hasRoom (.user ⟨0, 1⟩) = false := ⟨_, rfl, rfl, rfl, rfl, rfl⟩
  obtain ⟨m, hrun, hresult, htodo, hcontent, hroom⟩ := hresult
  exact ⟨m, hrun, fun u hu => Embedded.finished_of_result hresult hu, htodo, hcontent, hroom, (Prod.mk.inj hresult).2⟩

/-- With two writers: the one that has a value is left with its EOF. -/
theorem embedding_two_writers : ∃ m : Embedded 2 Nat,
    (Embedded.start doubling.1 ⟨0, 1⟩ (fun _ => []) 0 (fun i => if i.1 = 0 then [] else [5])).runAll ⟨0,
      1⟩ (twoWriters 0) = some m ∧
    (∀ u ∈ doubling.1.nodes.keys, ∃ x, m.sub.procs u = some x ∧ x.ctl = .finished none) ∧ m.todo 1 = [none] ∧
    (m.sub.queues (.user ⟨0, 1⟩)).content = [some 5] ∧ m.sub.hasRoom (.user ⟨0, 1⟩) = false ∧
    (m.sub.queues (.user ⟨1, 2⟩)).putBy (.port 3 0) = [none] :=
  embedding_writers 0

end Tunnel
