import Tunnel.Theorems.Termination

/-!
# How much is where

Counting what is between two processors: a queue holds no more than its capacity (`Network.bounded`), a `NoOpTransform`
holds at most one element (`Proc.noOp_holds`), and a `Concat` takes nothing from an input before it is through with the
ones before it (`Proc.concat_unread`). A processor pushes to its outputs in their order, one element to each in a round
(`Proc.InOrder`).
-/

namespace Tunnel

open Lib

variable {V : Type} {p : Pipeline V} {U : Finset Id} {s s' : State V}

/-! ## Queues -/

/-- A queue of the pipeline holds no more than its capacity. -/
theorem bounded {pre : UserChannel → List (Option V)} {tokens : Nat} (hs : (p.start pre tokens).Reaches s) {q : Queue}
    (hq : q.isLink = true) : (s.queues q).content.length ≤ q.capacity := by
  refine hs.induct (I := fun s => ∀ q : Queue, q.isLink = true → (s.queues q).content.length ≤ q.capacity) (fun q hq =>
    ?_)
    (fun a b e hI _ hm q hq => ?_) q hq
  · cases q with
    | link r k c => exact Nat.zero_le _
    | user ch => cases hq
  · have hset : ∀ (r : Queue) (f : Fifo Writer (Option V)), (r.isLink = true → f.content.length ≤ r.capacity) →
        ((a.setQueue r f).queues q).content.length ≤ q.capacity := by
      intro r f hf
      rw [State.setQueue_queues]
      split
      · rename_i hqr
        exact hqr ▸ hf (hqr ▸ hq)
      · exact hI q hq
    cases hm with
    | pop hu ha hc =>
      refine hset _ _ (fun hr => ?_)
      have := hI _ hr
      rw [hc] at this
      rw [Fifo.content_pop, hc]
      exact Nat.le_of_succ_le this
    | push hu ha hc =>
      refine hset _ _ (fun hr => ?_)
      rw [Fifo.content_push, List.length_append]
      exact hc
    | send hc => exact hset _ _ (fun hr => by cases hr)
    | receive hc => exact hset _ _ (fun hr => by cases hr)
    | _ => exact hI q hq

/-- Between a writer and the reader of its queue, when there is no other writer: what was put is what was taken and what
is there. -/
theorem Running.single_writer (hnet : Network p U) (h : Running p s) {u v : Id} {n m : Processor V} {x y : Proc V}
    {o i : Nat} {q : Queue} (hn : p.nodes.get u = some n) (hx : s.procs u = some x) (ho : n.outChan o = some q)
    (hm : p.nodes.get v = some m) (hy : s.procs v = some y) (hi : m.inChan i = some q) (hq : q.isLink = true)
    (hneed : m.need = 1) :
    x.put o = y.taken i ++ (s.queues q).content := by
  have hcard : (p.writers q).card ≤ 1 := Nat.le_of_eq ((hnet.wired.count v m i q hm hi hq).trans hneed)
  have hmem : (u, o) ∈ p.writers q := (p.mem_writers q u o).2 ⟨n, hn, ho⟩
  have hone := (h.interleaves hq).eq_of_card_le_one hcard hmem
  rw [h.taken v m y i q hm hy hi hq] at hone
  rw [hone]
  exact (h.put u n x o q hn hx ho).symm

/-! ## The order of the pushes -/

namespace Kind

theorem Pure.onEof_inOrder {k : Kind V} (h : k.Pure) (calls : List V) :
    ((k.onEof calls).map (·.1)).Pairwise (· < ·) := by
  have hrange : ∀ n, (((List.range n).map (fun o => (o, (none : Option V)))).map (·.1)).Pairwise (· < ·) := by
    intro n
    simp only [List.map_map, Function.comp_def, List.map_id_fun', id]
    exact List.pairwise_lt_range
  cases k with
  | transform k =>
    cases k with
    | accumulate g => exact absurd h id
    | _ => simp [onEof]
  | dispatch n pos d => exact hrange n
  | fork n pos => exact hrange n
  | _ => simp [onEof]

end Kind

namespace Proc

variable {n : Processor V} {x y : Proc V}

/-- What is still to be pushed in this round goes to the outputs in their order, one element to each. -/
def InOrder (x : Proc V) : Prop := (x.ctl.todo.map (·.1)).Pairwise (· < ·)

theorem InOrder.of_nil (h : x.ctl.todo = []) : x.InOrder := by
  unfold InOrder
  rw [h]
  exact List.Pairwise.nil

theorem InOrder.internal (hp : x.obj.kind.Pure) (h : x.InOrder) : x.internal.InOrder := by
  cases hc : x.ctl with
  | start =>
    simp only [Proc.internal, hc, work_eq]
    refine .of_nil ?_
    split
    · split <;> rfl
    · rfl
  | generate =>
    simp only [Proc.internal, hc, Proc.generating]
    split
    · simp [InOrder]
    · exact h
  | popCheck i v => cases v <;> simp only [Proc.internal, Proc.checked, hc] <;> exact .of_nil rfl
  | pushCheck rest next =>
    simp only [Proc.internal, Proc.checked, hc, Bool.false_eq_true, if_false]
    unfold InOrder at h ⊢
    rw [hc] at h
    rw [Ctl.emit_todo]
    exact h
  | handle i a =>
    simp only [Proc.internal, hc]
    unfold InOrder
    rw [Ctl.emit_todo, List.map_map]
    exact Kind.onValue_inOrder _ _ a
  | eof i =>
    simp only [Proc.internal, hc, Proc.ended]
    split
    · exact .of_nil rfl
    · unfold InOrder
      rw [Ctl.emit_todo]
      exact hp.onEof_inOrder _
  | afterWork =>
    simp only [Proc.internal, hc]
    refine .of_nil ?_
    split <;> rfl
  | threw c =>
    simp only [Proc.internal, hc]
    refine .of_nil ?_
    split <;> rfl
  | closeInput c i =>
    simp only [Proc.internal, hc]
    refine .of_nil ?_
    split <;> rfl
  | closeOutput c o =>
    simp only [Proc.internal, hc]
    refine .of_nil ?_
    split <;> rfl
  | _ =>
    simp only [Proc.internal, hc]
    exact .of_nil (by simp [Ctl.todo, hc])

theorem InOrder.turn (hp : x.obj.kind.Pure) (h : x.InOrder) (ht : x.Turn y) : y.InOrder := by
  cases ht with
  | @popped i q ha v =>
    refine .of_nil ?_
    obtain ⟨-, hc | ⟨c, hc, -⟩⟩ := action_pop ha <;> cases v <;> simp only [Proc.popped, hc]
    · split
      · rfl
      · split <;> rfl
    · rfl
    · split
      · rfl
      · split <;> rfl
    · rfl
  | @pushed o q v ha =>
    obtain ⟨-, ⟨rest, next, hc⟩ | ⟨hc, -, -, rfl⟩ | ⟨c, hc, -, rfl⟩⟩ := action_push ha
    · have htail : (rest.map (·.1)).Pairwise (· < ·) := by
        unfold InOrder at h
        rw [hc] at h
        exact (List.pairwise_cons.1 h).2
      cases v <;> simp only [Proc.pushed, hc] <;> exact htail
    · simp only [Proc.pushed, hc]
      exact .of_nil rfl
    · simp only [Proc.pushed, hc]
      exact .of_nil rfl
  | checked ha token =>
    cases token with
    | true => exact .of_nil rfl
    | false =>
      rw [← internal_eq_checked (action_tryPop ha).2]
      exact h.internal hp
  | notified ha =>
    obtain ⟨-, c, hc⟩ := action_tryPush ha
    simp only [Proc.notified, hc]
    exact .of_nil rfl
  | internal ha => exact h.internal hp
  | throw hc => exact .of_nil rfl

/-- An output gets one element at most in what is left of a round. -/
theorem InOrder.length_le (h : x.InOrder) (o : Nat) : (streamOf x.ctl.todo o).length ≤ 1 := by
  unfold InOrder at h
  have hcount : (streamOf x.ctl.todo o).length = (x.ctl.todo.map (·.1)).count o := by
    rw [streamOf, List.length_map, List.count, List.countP_map, List.countP_eq_length_filter]
    congr 1
  rw [hcount]
  exact List.nodup_iff_count_le_one.1 (h.imp (fun hab => Nat.ne_of_lt hab)) o

/-- The outputs before the one that is next get nothing more in this round. -/
theorem InOrder.eq_nil (h : x.InOrder) {o : Nat} {v : Option V} {rest : List (Nat × Option V)} {next : Next}
    (hc : x.ctl = .push o v rest next) {j : Nat} (hj : j < o) : streamOf x.ctl.todo j = [] := by
  unfold InOrder at h
  rw [hc, Ctl.todo, List.map_cons, List.pairwise_cons] at h
  rw [hc, Ctl.todo, streamOf_cons_ne _ _ (Nat.ne_of_lt hj), streamOf, List.map_eq_nil_iff, List.filter_eq_nil_iff]
  intro w hw
  have := h.1 w.1 (List.mem_map_of_mem hw)
  simp only [decide_eq_true_eq]
  omega

/-- A step puts an element on an output by a push, and not otherwise. -/
theorem Turn.put (ht : x.Turn y) :
    y.put = x.put ∨ ∃ o q v, x.action = .push o q v ∧ y.put = (x.toPorts.give o v).put := by
  cases ht with
  | popped ha v => exact Or.inl (popped_taken ha v).2
  | @pushed o q v ha => exact Or.inr ⟨o, q, v, ha, (pushed_put ha).1⟩
  | checked ha token => exact Or.inl (congrArg Ports.put (checked_toPorts x token))
  | notified ha => exact Or.inl (congrArg Ports.put (notified_toPorts x))
  | internal ha => exact Or.inl (congrArg Ports.put (internal_toPorts x))
  | throw hc => exact Or.inl rfl

end Proc

theorem Network.inOrder (hnet : Network p U) (hp : p.Pure) {pre : UserChannel → List (Option V)} {tokens : Nat}
    (hs : (p.start pre tokens).Reaches s) {u : Id} {x : Proc V} (hx : s.procs u = some x) : x.InOrder := by
  refine (hs.induct (I := fun s => Running p s ∧ ∀ u x, s.procs u = some x → x.InOrder) ⟨running_start p pre tokens,
    fun u x hx => ?_⟩
    (fun a b e hI _ hm => ⟨hI.1.moves hnet hm, fun u y hy => ?_⟩)).2 u x hx
  · obtain ⟨n, -, rfl⟩ := Option.map_eq_some_iff.1 hx
    exact .of_nil rfl
  · rcases hm.turn hy with hy | ⟨x, hx, ht⟩
    · exact hI.2 u y hy
    · obtain ⟨n, hn, hinv⟩ := hI.1.node hx
      exact (hI.2 u x hx).turn (hinv.kind ▸ hp u n hn) ht

/-! ## Where a processor stands -/

/-- How many inputs are read to their end where `work` goes on. -/
def Next.position (nin : Nat) : Next → Nat
  | .generate => 0
  | .pop i => i
  | .ret => nin

/-- How many inputs are read to their end where the coroutine stands. -/
def Ctl.position (nin : Nat) : Ctl V → Nat
  | .start => 0
  | .generate => 0
  | .pop i => i
  | .popCheck i _ => i
  | .handle i _ => i
  | .eof i => i + 1
  | .push _ _ _ next => next.position nin
  | .pushCheck _ next => next.position nin
  | _ => nin

/-- A processor that closes has read its inputs to their end. -/
theorem Ctl.position_of_closing {c : Ctl V} (h : c.closing = true) (nin : Nat) : c.position nin = nin := by
  cases c with
  | push o v rest next => rw [of_decide_eq_true h]; rfl
  | pushCheck rest next => rw [of_decide_eq_true h]; rfl
  | afterWork => rfl
  | finished c => rfl
  | _ => cases h

/-! ## What a processor holds -/

/-- Nothing comes behind an EOF. -/
theorem Ended.eq_nil {l m : List (Option V)} (h : Ended (l ++ m)) (hl : eofs l ≠ 0) : m = [] := by
  obtain ⟨vs, hvs⟩ := h
  rcases List.eq_nil_or_concat' m with rfl | ⟨m, v, rfl⟩
  · rfl
  · rw [← List.append_assoc] at hvs
    have hinit := congrArg eofs (List.append_inj' hvs rfl).1
    rw [eofs_append, eofs_map_some] at hinit
    omega

/-- A class that passes every value on to an output. -/
theorem Kind.Pure.emitted_copy {k : Kind V} (h : k.Pure) {o : Nat} (hc : ∀ v, streamOf (k.onValue [] v) o = [v])
    (calls : List V) :
    streamOf (k.emitted calls) o = calls := by
  rw [h.emitted_eq, streamOf_flatMap]
  simp [hc]

namespace Proc

variable {n : Processor V} {x : Proc V}

/-- What such a processor has put on the output, and will put there in this round, is what it handled. -/
theorem Flow.copies (hf : Flow n x) (hp : n.kind.Pure) (hg : n.kind.generates = false) {o : Nat} (ho : o < n.kind.nout)
    (hc : ∀ v, streamOf (n.kind.onValue [] v) o = [v]) :
    (x.put o).reduceOption ++ (streamOf x.ctl.todo o).reduceOption = x.calls := by
  have hnil : (if x.ctl.closing = true then (streamOf (n.kind.onEof x.calls) o).reduceOption else []) = [] := by
    split
    · exact hp.onEof_values x.calls o
    · rfl
  rw [hf.puts o ho, Kind.produced_eq hg, hnil, List.append_nil, hp.emitted_copy hc]

/-- What a processor with one input has taken is what it handled and has in hand. -/
theorem Flow.taken_values (hf : Flow n x) (hn : n.kind.nin = 1) :
    (x.taken 0).reduceOption = x.calls ++ x.ctl.inHand := by
  have hreads := hf.reads
  rw [hn] at hreads
  rw [hreads]
  simp [Ports.reads]

/-- The inputs before the position are read to their end, the others are not. -/
theorem Inv.position (h : Inv n x) (hh : x.ctl.hosted = false) :
    (∀ j < n.kind.nin, j < x.ctl.position n.kind.nin → eofs (x.taken j) = n.need) ∧
    (∀ j < n.kind.nin, x.ctl.position n.kind.nin ≤ j → x.taken j = [] ∨ eofs (x.taken j) < n.need) := by
  have hread : ∀ {k}, Ports.Reading n x.toPorts k → (∀ j < n.kind.nin, j < k → eofs (x.taken j) = n.need) ∧
      (∀ j < n.kind.nin, k ≤ j → x.taken j = [] ∨ eofs (x.taken j) < n.need) :=
    fun hr => ⟨fun j hj hjk => (hr.shut j hj hjk).eq, fun j hj hjk => Or.inr (hr.opened j hj hjk).lt⟩
  have hemit : ∀ {todo next}, Ports.Emitting n x.toPorts todo next →
      Ports.Reading n x.toPorts (next.position n.kind.nin) := by
    intro todo next he
    cases next with
    | generate => exact Ports.reading_of_generates he.1 0
    | pop i => exact he.2.1
    | ret => exact he.2.1
  have hstand := h.standing
  cases hc : x.ctl with
  | start =>
    rw [hc] at hstand
    exact ⟨fun j _ hj => absurd hj (Nat.not_lt_zero j), fun j _ _ => Or.inl (hstand.2.1 j)⟩
  | generate => rw [hc] at hstand; exact hread (Ports.reading_of_generates hstand.1 0)
  | pop i => rw [hc] at hstand; exact hread hstand.2.1
  | popCheck i v => rw [hc] at hstand; exact hread hstand.2.1
  | handle i a => rw [hc] at hstand; exact hread hstand.2.1
  | eof i => rw [hc] at hstand; exact hread hstand.2.1
  | push o v rest next => rw [hc] at hstand; exact hread (hemit hstand)
  | pushCheck rest next => rw [hc] at hstand; exact hread (hemit hstand)
  | afterWork => rw [hc] at hstand; exact hread hstand.1
  | finished c =>
    rw [hc] at hstand
    exact ⟨fun j hj _ => hstand.1 j hj, fun j hj hle => absurd hj (by simpa [Ctl.position] using hle)⟩
  | _ => rw [hc] at hh; cases hh

/-- A processor that reads inputs is at one of them or through with all. -/
theorem Inv.input_cases (h : Inv n x) (hh : x.ctl.hosted = false) (hg : n.kind.generates = false) :
    (∃ i, x.ctl.input = some i ∧ i ≤ x.ctl.position n.kind.nin) ∨ x.ctl.position n.kind.nin = n.kind.nin := by
  have hstand := h.standing
  have hemit : ∀ {todo next}, Ports.Emitting n x.toPorts todo next →
      (∃ i, next.input = some i ∧ i ≤ next.position n.kind.nin) ∨ next.position n.kind.nin = n.kind.nin := by
    intro todo next he
    cases next with
    | generate => exact absurd he.1 (by simp [hg])
    | pop i => exact Or.inl ⟨i, rfl, Nat.le_refl i⟩
    | ret => exact Or.inr rfl
  cases hc : x.ctl with
  | start => exact Or.inl ⟨0, rfl, Nat.le_refl 0⟩
  | generate => rw [hc] at hstand; exact absurd hstand.1 (by simp [hg])
  | pop i => exact Or.inl ⟨i, rfl, Nat.le_refl i⟩
  | popCheck i v => exact Or.inl ⟨i, rfl, Nat.le_refl i⟩
  | handle i a => exact Or.inl ⟨i, rfl, Nat.le_refl i⟩
  | eof i => exact Or.inl ⟨i, rfl, Nat.le_succ i⟩
  | push o v rest next => rw [hc] at hstand; exact hemit hstand
  | pushCheck rest next => rw [hc] at hstand; exact hemit hstand
  | afterWork => exact Or.inr rfl
  | finished c => exact Or.inr rfl
  | _ => rw [hc] at hh; cases hh

/-- A `Concat` that has not come to the end of an input has taken nothing from those behind it. -/
theorem concat_unread (h : Inv n x) (hf : Flow n x) (hh : x.ctl.hosted = false) (hg : n.kind.generates = false)
    {t k : Nat} (ht : t < n.kind.nin) (htk : t < k) (hopen : eofs (x.taken t) < n.need) : x.taken k = [] := by
  have hpos : x.ctl.position n.kind.nin ≤ t := by
    by_contra hlt
    have := (h.position hh).1 t ht (by omega)
    omega
  rcases h.input_cases hh hg with ⟨i, hi, hle⟩ | hall
  · exact hf.later i hi k (by omega)
  · omega

/-- The elements a processor has put on an output. -/
theorem Inv.eofs_put (h : Inv n x) (hh : x.ctl.hosted = false) (hk : n.kind.isSink = false) {o : Nat}
    (ho : o < n.kind.nout) :
    (eofs (x.put o) = 0 ∧ (x.ctl.closing = true → Ended (streamOf x.ctl.todo o))) ∨
    (eofs (x.put o) = 1 ∧ x.ctl.closing = true ∧ streamOf x.ctl.todo o = []) := by
  have hstand := h.standing
  have hopen : Ports.OutsOpen n x.toPorts → eofs (x.put o) = 0 := fun hout => (hout o ho).values.eofs_eq
  have hemit : ∀ {todo next}, Ports.Emitting n x.toPorts todo next →
      (eofs (x.put o) = 0 ∧ ((next = .ret : Bool) = true → Ended (streamOf todo o))) ∨
      (eofs (x.put o) = 1 ∧ (next = .ret : Bool) = true ∧ streamOf todo o = []) := by
    intro todo next he
    cases next with
    | generate => exact Or.inl ⟨hopen he.2.1, fun hr => by cases hr⟩
    | pop i => exact Or.inl ⟨hopen he.2.2.1, fun hr => by cases hr⟩
    | ret =>
      rcases he.2.2.2 o ho with ⟨hshut, htodo⟩ | ⟨hop, hend⟩
      · exact Or.inr ⟨hshut.ended.eofs_eq, rfl, htodo⟩
      · exact Or.inl ⟨hop.values.eofs_eq, fun _ => hend⟩
  cases hc : x.ctl with
  | start =>
    rw [hc] at hstand
    exact Or.inl ⟨by rw [hstand.2.2]; rfl, nofun⟩
  | generate => rw [hc] at hstand; exact Or.inl ⟨hopen hstand.2, nofun⟩
  | pop i => rw [hc] at hstand; exact Or.inl ⟨hopen hstand.2.2, nofun⟩
  | popCheck i v => rw [hc] at hstand; exact Or.inl ⟨hopen hstand.2.2, nofun⟩
  | handle i a => rw [hc] at hstand; exact Or.inl ⟨hopen hstand.2.2, nofun⟩
  | eof i => rw [hc] at hstand; exact Or.inl ⟨hopen hstand.2.2, nofun⟩
  | push o' v rest next => rw [hc] at hstand; exact hemit hstand
  | pushCheck rest next => rw [hc] at hstand; exact hemit hstand
  | afterWork =>
    rw [hc] at hstand
    have hout := hstand.2
    rw [hk] at hout
    exact Or.inr ⟨(hout o ho).ended.eofs_eq, rfl, rfl⟩
  | finished c =>
    cases c with
    | none => rw [hc] at hstand; exact Or.inr ⟨(hstand.2 o ho).eofs_eq, rfl, rfl⟩
    | some c => rw [hc] at hh; cases hh
  | _ => rw [hc] at hh; cases hh

/-- The EOFs taken by a processor with one input and one EOF to come. -/
theorem Inv.eofs_taken (h : Inv n x) (hh : x.ctl.hosted = false) (hn : n.kind.nin = 1) (hneed : n.need = 1) :
    eofs (x.taken 0) = if x.ctl.position 1 = 0 then 0 else 1 := by
  have hpos := h.position hh
  rw [hn, hneed] at hpos
  split
  · rename_i h0
    rcases hpos.2 0 Nat.one_pos (Nat.le_of_eq h0) with hnil | hlt
    · rw [hnil]
      rfl
    · omega
  · exact hpos.1 0 Nat.one_pos (by omega)

theorem InOrder.inHand_add_todo (h : x.InOrder) (o : Nat) :
    x.ctl.inHand.length + (streamOf x.ctl.todo o).length ≤ 1 := by
  have hone := h.length_le o
  cases hc : x.ctl with
  | push o' v rest next => rw [hc] at hone; simpa [Ctl.inHand] using hone
  | pushCheck rest next => rw [hc] at hone; simpa [Ctl.inHand] using hone
  | popCheck i v => cases v <;> simp [Ctl.inHand, Ctl.todo]
  | _ => simp [Ctl.inHand, Ctl.todo]

/-- Once its EOF is read, a processor with one input has nothing in hand and nothing but its last round to push. -/
theorem Inv.after_eof (h : Inv n x) (hh : x.ctl.hosted = false) (hn : n.kind.nin = 1) (hpos : x.ctl.position 1 ≠ 0) :
    x.ctl.inHand = [] ∧ (x.ctl.closing = true ∨ x.ctl.todo = []) := by
  have hstand := h.standing
  have hemit : ∀ {todo next}, Ports.Emitting n x.toPorts todo next → next.position 1 ≠ 0 → next = .ret := by
    intro todo next he hpos
    cases next with
    | generate => exact absurd rfl hpos
    | pop i =>
      have hi := he.1
      rw [hn] at hi
      simp only [Next.position] at hpos
      omega
    | ret => rfl
  have hzero : ∀ {i}, i < n.kind.nin → i ≠ 0 → False := fun hi h0 => by omega
  cases hc : x.ctl with
  | start => rw [hc] at hpos; exact absurd rfl hpos
  | generate => rw [hc] at hpos; exact absurd rfl hpos
  | pop i => rw [hc] at hpos hstand; exact absurd hpos (fun h0 => hzero hstand.1 h0)
  | popCheck i v => rw [hc] at hpos hstand; exact absurd hpos (fun h0 => hzero hstand.1 h0)
  | handle i a => rw [hc] at hpos hstand; exact absurd hpos (fun h0 => hzero hstand.1 h0)
  | eof i => exact ⟨rfl, Or.inr rfl⟩
  | push o v rest next =>
    rw [hc] at hpos hstand
    exact ⟨rfl, Or.inl (decide_eq_true (hemit hstand hpos))⟩
  | pushCheck rest next =>
    rw [hc] at hpos hstand
    exact ⟨rfl, Or.inl (decide_eq_true (hemit hstand hpos))⟩
  | afterWork => exact ⟨rfl, Or.inr rfl⟩
  | finished c => exact ⟨rfl, Or.inr rfl⟩
  | _ => rw [hc] at hh; cases hh

/-- A processor that passes its input on holds at most one element. -/
theorem copier_holds (h : Inv n x) (hf : Flow n x) (hord : x.InOrder) (hh : x.ctl.hosted = false) (hp : n.kind.Pure)
    (hn : n.kind.nin = 1) (hneed : n.need = 1) (hk : n.kind.isSink = false) {o : Nat} (ho : o < n.kind.nout)
    (hc : ∀ v, streamOf (n.kind.onValue [] v) o = [v]) : (x.taken 0).length ≤ (x.put o).length + 1 := by
  have hg : n.kind.generates = false := Kind.generates_of_nin (by omega)
  have htaken := congrArg List.length (hf.taken_values hn)
  have hput := congrArg List.length (hf.copies hp hg ho hc)
  have heofs := h.eofs_taken hh hn hneed
  have hone := hord.inHand_add_todo o
  have htodo := length_eq_values_add_eofs (streamOf x.ctl.todo o)
  rw [List.length_append] at htaken hput
  rw [length_eq_values_add_eofs (x.taken 0), length_eq_values_add_eofs (x.put o)]
  split at heofs
  · omega
  · rename_i hpos
    obtain ⟨hhand, hlast⟩ := h.after_eof hh hn hpos
    rw [hhand, List.length_nil] at htaken
    rcases h.eofs_put hh hk ho with ⟨h0, hend⟩ | ⟨h1, -, hnil⟩
    · -- the EOF is all that is left to push, if anything is
      rcases hlast with hclosing | hnil
      · have := (hend hclosing).eofs_eq
        omega
      · rw [hnil] at htodo hput
        simp only [streamOf_nil, List.reduceOption_nil, List.length_nil] at hput
        omega
    · rw [hnil, List.reduceOption_nil, List.length_nil] at hput
      omega

/-- Only the last round pushes an EOF. -/
theorem Inv.next_eq_ret (h : Inv n x) {o : Nat} {rest : List (Nat × Option V)} {next : Next}
    (hctl : x.ctl = .push o none rest next) :
    next = .ret := by
  have hstand := h.standing
  rw [hctl] at hstand
  cases next with
  | generate => exact absurd (hstand.2.2 (o, none) List.mem_cons_self).2 (by simp)
  | pop i => exact absurd (hstand.2.2.2 (o, none) List.mem_cons_self).2 (by simp)
  | ret => rfl

/-- A processor that passes its input on and is about to push holds an element. -/
theorem copier_pushes (h : Inv n x) (hf : Flow n x) (hh : x.ctl.hosted = false) (hp : n.kind.Pure) (hn : n.kind.nin = 1)
    (hneed : n.need = 1) {o : Nat} (ho : o < n.kind.nout) (hc : ∀ v, streamOf (n.kind.onValue [] v) o = [v])
    {v : Option V} {rest : List (Nat × Option V)} {next : Next} (hctl : x.ctl = .push o v rest next) :
    (x.put o).length + 1 ≤ (x.taken 0).length := by
  have hg : n.kind.generates = false := Kind.generates_of_nin (by omega)
  have htaken := congrArg List.length (hf.taken_values hn)
  have hput := congrArg List.length (hf.copies hp hg ho hc)
  have heofs := h.eofs_taken hh hn hneed
  have hstand := h.standing
  rw [hctl] at hstand
  have hopen := hstand.head.2.values.eofs_eq
  rw [List.length_append] at htaken hput
  rw [length_eq_values_add_eofs (x.taken 0), length_eq_values_add_eofs (x.put o), hopen]
  rw [hctl] at hput htaken heofs
  rw [Ctl.todo, streamOf_cons_self] at hput
  cases v with
  | some a =>
    rw [List.reduceOption_cons_of_some, List.length_cons] at hput
    omega
  | none =>
    rw [h.next_eq_ret hctl, if_neg (by simp [Ctl.position, Next.position])] at heofs
    omega

end Proc

end Tunnel
