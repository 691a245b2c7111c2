import Tunnel.Lemmas.Builder
import Tunnel.Run

/-!
# Builder calls that throw, and the queues they make

A recipe (`Recipe`) is any sequence of builder calls and merges. Every queue it makes has the capacity that the option
of the pipeline had at the time, which is no capacity at all after a merge of two pipelines with processors
(`queues_carry`). A call that throws leaves the pipeline alone, unless it is an `AddTransform(creater)` that throws in a
later round than its first (`builder_atomic`).
-/

namespace Tunnel

open Lib

variable {V : Type}

/-! ## What calls keep, thrown or not -/

theorem Pipeline.Keeps.refl (p : Pipeline V) : p.Keeps p := ⟨rfl, fun h => h⟩

/-- Whether it returns or throws, a call leaves the option alone and the leaves are processors as they were. -/
theorem Call.exec_keeps (c : Call V) (s : Site V) : s.pipeline.Keeps (c.exec s).2.pipeline := by
  by_cases hc : ∀ order create, c ≠ .addTransforms order create
  · obtain ⟨qs, -, -, he⟩ := Call.exec_eq hc s
    rw [he]
    cases hrun : c.run s.pipeline with
    | error e => exact .refl _
    | ok p => exact Call.run_keeps hc hrun
  · push Not at hc
    obtain ⟨order, create, rfl⟩ := hc
    have hk := Builder.loop_keeps create order.elems 0 ∅ s
    rcases Call.exec_addTransforms order create s with ⟨e, -, he⟩ | ⟨leaves, hl, he⟩ <;> rw [he]
    · refine ⟨hk.option, fun hp => ?_⟩
      rw [Pipeline.LeavesIn, hk.leaves]
      exact hp.trans hk.keys
    · exact ⟨hk.option, fun _ => Builder.loop_leaves create order.elems 0 ∅ leaves s (Finset.empty_subset _) hl⟩

/-- The leaves of every pipeline that calls and merges make are processors of it. -/
theorem Recipe.leavesIn (r : Recipe V) : ∀ {s : Site V}, r.site = .ok s → s.pipeline.LeavesIn := by
  induction r with
  | new option =>
    intro s hs
    cases hs
    exact Finset.empty_subset _
  | call r c ih =>
    intro s hs
    obtain ⟨t, ht, hs⟩ := bind_ok hs
    cases hs
    exact (Call.exec_keeps c t).2 (ih ht)
  | mergePipeline l r noopId ihl ihr =>
    intro s hs
    obtain ⟨t, ht, hs⟩ := bind_ok hs
    obtain ⟨t', ht', hs⟩ := bind_ok hs
    obtain ⟨p, hp, hs⟩ := bind_ok hs
    cases hs
    obtain ⟨-, rfl⟩ | ⟨-, -, rfl⟩ | ⟨-, -, hl, -⟩ := Pipeline.mergePipeline_cases hp
    · have h := ihr ht'
      exact h
    · have h := ihl ht
      exact h
    · intro x hx
      rw [hl] at hx
      simp at hx

variable {p : Pipeline V} {c : Call V} {create : Nat → Except String (NewTransform V)} {s : Site V} {e : BuildError}

/-- Every pipeline of `Built` has a recipe. -/
theorem Built.recipe {P : Call V → Prop} {U : Finset Id} (h : Built P p U) :
    ∃ (r : Recipe V) (s : Site V), r.Enumerates ∧ r.site = .ok s ∧ s.pipeline = p := by
  induction h with
  | new option => exact ⟨.new option, _, trivial, rfl, rfl⟩
  | call c _ _ _ _ he hrun ih =>
    obtain ⟨r, s, hr, hs, rfl⟩ := ih
    refine ⟨.call r c, (c.exec s).2, ⟨hr, fun t ht => ?_⟩, by rw [Recipe.site, hs]; rfl, ?_⟩
    · rw [hs] at ht
      cases ht
      exact he
    · rcases Call.exec_run c s with ⟨e, hrun', -⟩ | ⟨p, hrun', -, hp⟩ <;> rw [hrun] at hrun' <;> cases hrun'
      exact hp
  | mergePipeline noopId _ _ _ _ _ hrun ihl ihr =>
    obtain ⟨l, s, hl, hs, rfl⟩ := ihl
    obtain ⟨r, t, hr, ht, rfl⟩ := ihr
    exact ⟨.mergePipeline l r noopId, ⟨_, s.made ++ t.made⟩, ⟨hl, hr⟩,
      by rw [Recipe.site, hs, ht]; simp only [bind, Except.bind, hrun], rfl⟩

/-! ## When a call returns -/

/-- The `m`-th round of an `AddTransform(creater)` goes through: `creater` returns a transform with an id that nobody
has yet. -/
def RoundPasses (p : Pipeline V) (create : Nat → Except String (NewTransform V)) (m : Nat) : Prop :=
  ∃ t, create m = .ok t ∧ t.id ∉ p.nodes.keys ∧ ∀ k < m, ∀ t', create k = .ok t' → t'.id ≠ t.id

/-- The checks of a call pass. -/
def Call.Passes (p : Pipeline V) : Call V → Prop
  | .setAbortChannel _ => True
  | .addSource id _ _ => id ∉ p.nodes.keys
  | .addTransform leaf id _ _ => id ∉ p.nodes.keys ∧ leaf ∈ p.leaves
  | .addTransforms order create => ∀ m < order.elems.length, RoundPasses p create m
  | .setSink id _ _ _ => p.leaves ≠ ∅ ∧ id ∉ p.nodes.keys
  | .setSinkTo id _ _ leaves => id ∉ p.nodes.keys ∧ ∀ l ∈ leaves.elems, l ∈ p.leaves
  | .mergeTransformTo id _ _ leaves => id ∉ p.nodes.keys ∧ ∀ l ∈ leaves.elems, l ∈ p.leaves
  | .mergeTo id leaves => id ∉ p.nodes.keys ∧ ∀ l ∈ leaves.elems, l ∈ p.leaves
  | .mergeTransform id _ _ _ => p.leaves ≠ ∅ ∧ id ∉ p.nodes.keys
  | .merge id _ => p.leaves ≠ ∅ ∧ id ∉ p.nodes.keys
  | .dispatchFrom leaf _ _ _ _ _ _ => leaf ∈ p.leaves
  | .concatFrom leaves _ => leaves ≠ [] ∧ ∀ l ∈ leaves, l ∈ p.leaves
  | .forkFrom leaf n _ _ => 0 < n ∧ leaf ∈ p.leaves

namespace Pipeline

variable {p : Pipeline V} {id : Id} {α : Type}

theorem newNodeCheck_iff : p.newNodeCheck id = .ok () ↔ id ∉ p.nodes.keys := by
  unfold newNodeCheck
  split <;> simp_all

theorem leafCheck_iff {leaf : Id} : p.leafCheck leaf = .ok () ↔ leaf ∈ p.leaves := by
  unfold leafCheck
  split <;> simp_all

theorem leavesCheck_iff {L : List Id} : p.leavesCheck L = .ok () ↔ ∀ l ∈ L, l ∈ p.leaves := by
  refine ⟨fun h => leavesCheck_ok h, fun h => ?_⟩
  induction L with
  | nil => rfl
  | cons each rest ih =>
    rw [leavesCheck, leafCheck_iff.2 (h each (by simp))]
    exact ih (fun l hl => h l (by simp [hl]))

/-- A check in front of a call. -/
theorem check_returns {c : Except BuildError Unit} {f : Unit → Except BuildError α} :
    (∃ x, (c >>= f) = .ok x) ↔ c = .ok () ∧ ∃ x, f () = .ok x := by
  cases c with
  | error e => exact iff_of_false (fun ⟨_, h⟩ => nomatch h) (fun ⟨h, _⟩ => nomatch h)
  | ok u => exact ⟨fun h => ⟨rfl, h⟩, fun h => h.2⟩

/-- When `MergeTo` returns. -/
theorem mergeTo_returns {b : Bool} {node : Processor V} {leaves : IdSet} :
    (∃ x, Pipeline.mergeTo b p id node leaves = .ok x) ↔ id ∉ p.nodes.keys ∧ ∀ l ∈ leaves.elems, l ∈ p.leaves := by
  rw [← newNodeCheck_iff, ← leavesCheck_iff]
  exact check_returns.trans (and_congr_right fun _ => check_returns.trans (and_iff_left ⟨_, rfl⟩))

/-- When `Merge` returns. -/
theorem merge_returns {b : Bool} {node : Processor V} {order : IdSet} :
    (∃ x, Pipeline.merge b p id node order = .ok x) ↔ p.leaves ≠ ∅ ∧ id ∉ p.nodes.keys := by
  unfold Pipeline.merge
  by_cases h : p.leaves = ∅
  · simp [h]
  · rw [if_neg h, ← newNodeCheck_iff]
    exact check_returns.trans ⟨fun hx => ⟨h, hx.1⟩, fun hx => ⟨hx.2, _, rfl⟩⟩

/-- What comes behind a call that returned. -/
theorem then_returns {β : Type} {x : Except BuildError α} {f : α → Except BuildError β} (hf : ∀ a, ∃ b, f a = .ok b) :
    (∃ b, (x >>= f) = .ok b) ↔ ∃ a, x = .ok a := by
  cases x with
  | error e => exact iff_of_false (fun ⟨_, h⟩ => nomatch h) (fun ⟨_, h⟩ => nomatch h)
  | ok a => exact ⟨fun _ => ⟨a, rfl⟩, fun _ => hf a⟩

theorem map_returns {β : Type} {x : Except BuildError α} {f : α → β} : (∃ b, f <$> x = .ok b) ↔ ∃ a, x = .ok a := by
  cases x with
  | error e => exact iff_of_false (fun ⟨_, h⟩ => nomatch h) (fun ⟨_, h⟩ => nomatch h)
  | ok a => exact ⟨fun _ => ⟨a, rfl⟩, fun _ => ⟨f a, rfl⟩⟩

end Pipeline

/-- A call returns when its checks pass. -/
theorem Call.returns_iff (hp : p.LeavesIn) (hc : ∀ order create, c ≠ .addTransforms order create) :
    (∃ p', c.run p = .ok p') ↔ c.Passes p := by
  cases c with
  | setAbortChannel ch => exact iff_of_true ⟨_, rfl⟩ trivial
  | addSource id name k =>
    rw [Call.run, Pipeline.map_returns, Call.Passes, ← Pipeline.newNodeCheck_iff]
    exact Pipeline.check_returns.trans (and_iff_left ⟨_, rfl⟩)
  | addTransform leaf id name k =>
    rw [Call.run, Pipeline.map_returns, Call.Passes, ← Pipeline.newNodeCheck_iff, ← Pipeline.leafCheck_iff]
    refine Pipeline.check_returns.trans (and_congr_right fun _ =>
      Pipeline.check_returns.trans (and_iff_left_of_imp fun hl => ?_))
    rw [if_neg (not_not.2 (hp (Pipeline.leafCheck_iff.1 hl)))]
    exact ⟨_, rfl⟩
  | addTransforms order create => exact absurd rfl (hc order create)
  | setSink id name k order =>
    rw [Call.run, Pipeline.map_returns, Pipeline.setSink, Pipeline.then_returns (fun _ => ⟨_, rfl⟩)]
    exact Pipeline.merge_returns
  | setSinkTo id name k leaves =>
    rw [Call.run, Pipeline.map_returns, Pipeline.setSinkTo, Pipeline.then_returns (fun _ => ⟨_, rfl⟩)]
    exact Pipeline.mergeTo_returns
  | mergeTransformTo id name k leaves => exact Pipeline.map_returns.trans Pipeline.mergeTo_returns
  | mergeTo id leaves => exact Pipeline.map_returns.trans Pipeline.mergeTo_returns
  | mergeTransform id name k order => exact Pipeline.map_returns.trans Pipeline.merge_returns
  | merge id order => exact Pipeline.map_returns.trans Pipeline.merge_returns
  | dispatchFrom leaf id name n pos d noopId =>
    rw [Call.run, Pipeline.map_returns, Call.Passes, ← Pipeline.leafCheck_iff]
    exact Pipeline.check_returns.trans (and_iff_left ⟨_, rfl⟩)
  | concatFrom leaves id =>
    rw [Call.run, Pipeline.map_returns, Call.Passes, ← Pipeline.leavesCheck_iff, and_comm]
    refine Pipeline.check_returns.trans (and_congr_right fun _ => ?_)
    by_cases pos : 0 < leaves.length
    · rw [dif_pos pos]
      exact iff_of_true ⟨_, rfl⟩ (List.ne_nil_of_length_pos pos)
    · rw [dif_neg pos]
      exact iff_of_false (by rintro ⟨_, h⟩; cases h) (fun h => pos (List.length_pos_of_ne_nil h))
  | forkFrom leaf n id noopId =>
    rw [Call.run, Pipeline.map_returns, Call.Passes, ← Pipeline.leafCheck_iff, and_comm]
    refine Pipeline.check_returns.trans (and_congr_right fun _ => ?_)
    by_cases pos : 0 < n
    · rw [dif_pos pos]
      exact iff_of_true ⟨_, rfl⟩ pos
    · rw [dif_neg pos]
      exact iff_of_false (by rintro ⟨_, h⟩; cases h) pos

/-! ## The queues of a recipe -/

/-- The call comes as far as making a queue. -/
def Call.Allocates (p : Pipeline V) : Call V → Prop
  | .addTransforms order create => order.elems ≠ [] ∧ RoundPasses p create 0
  | c => c.makesQueues = true ∧ c.Passes p

theorem roundPasses_zero :
    RoundPasses p create 0 ↔ ∃ t, create 0 = .ok t ∧ t.id ∉ p.nodes.keys :=
  ⟨fun ⟨t, ht, hid, _⟩ => ⟨t, ht, hid⟩, fun ⟨t, ht, hid⟩ => ⟨t, ht, hid, fun _ hk => absurd hk (Nat.not_lt_zero _)⟩⟩

/-- The first round of the loop goes through, or throws. -/
theorem Builder.loop_first (create : Nat → Except String (NewTransform V)) {each : Id} (rest : List Id)
    (he : each ∈ s.pipeline.nodes.keys) :
    (¬RoundPasses s.pipeline create 0 ∧ ∃ e, addTransformsLoop create (each :: rest) 0 ∅ s = (.error e, s)) ∨
    ∃ t, create 0 = .ok t ∧ t.id ∉ s.pipeline.nodes.keys ∧ RoundPasses s.pipeline create 0 ∧
      LoopKeeps (round s each t) (addTransformsLoop create (each :: rest) 0 ∅ s).2 := by
  rw [roundPasses_zero]
  cases hc : create 0 with
  | error w => exact Or.inl ⟨nofun, _, loop_creater hc⟩
  | ok t =>
    by_cases hid : t.id ∈ s.pipeline.nodes.keys
    · refine Or.inl ⟨?_, _, loop_duplicate hc hid⟩
      rintro ⟨t', ht', hid'⟩
      cases ht'
      exact hid' hid
    · refine Or.inr ⟨t, rfl, hid, ⟨t, rfl, hid⟩, ?_⟩
      rw [loop_round hc hid he]
      exact loop_keeps create rest _ _ _

/-- The queues a call makes, whether it returns or throws, have the capacity of the option, and there are some if it
comes that far. -/
theorem Call.exec_made (hs : s.pipeline.LeavesIn) (hen : c.Enumerates s.pipeline) :
    ∃ qs, (c.exec s).2.made = s.made ++ qs ∧ (∀ q ∈ qs, q.capacity = s.pipeline.option.channelSize) ∧
      (qs ≠ [] ↔ c.Allocates s.pipeline) := by
  by_cases hc : ∀ order create, c ≠ .addTransforms order create
  · obtain ⟨qs, hcap, hne, he⟩ := Call.exec_eq hc s
    have hall : c.Allocates s.pipeline ↔ c.makesQueues = true ∧ c.Passes s.pipeline := by
      cases c with
      | addTransforms order create => exact absurd rfl (hc order create)
      | _ => exact Iff.rfl
    rw [he, hall, ← Call.returns_iff hs hc]
    cases hrun : c.run s.pipeline with
    | error e => exact ⟨[], (List.append_nil _).symm, by simp, by simp⟩
    | ok p => exact ⟨qs, rfl, hcap, by simp [hne p hrun]⟩
  · push Not at hc
    obtain ⟨order, create, rfl⟩ := hc
    have hmade : ((Call.addTransforms order create).exec s).2.made =
        (Builder.addTransformsLoop create order.elems 0 ∅ s).2.made := by
      rcases Call.exec_addTransforms order create s with ⟨e, -, he⟩ | ⟨leaves, -, he⟩ <;> rw [he]
    rw [hmade, Call.Allocates]
    cases hL : order.elems with
    | nil => exact ⟨[], (List.append_nil _).symm, by simp, by simp⟩
    | cons each rest =>
      have heach : each ∈ s.pipeline.nodes.keys := by
        refine hs ?_
        rw [← (hen : order.elems.toFinset = s.pipeline.leaves), hL]
        simp
      rcases Builder.loop_first create rest heach with ⟨hno, e, he⟩ | ⟨t, -, -, hyes, hk⟩
      · exact ⟨[], by rw [he, List.append_nil], by simp, by simp [hno]⟩
      · obtain ⟨qs, hqs, hcap⟩ := hk.made
        refine ⟨.link t.id 0 s.pipeline.option.channelSize :: qs, ?_, fun q hq => ?_, by simp [hyes]⟩
        · rw [hqs]
          exact List.append_assoc _ [_] qs
        · rcases List.mem_cons.1 hq with rfl | hq
          · rfl
          · exact hcap q hq

namespace Recipe

/-- What the recipe makes has no processors. -/
def Empty (r : Recipe V) : Prop := ∃ s, r.site = .ok s ∧ s.pipeline.getProcessorSize = 0

/-- The pipeline is what `MergePipeline` made of two pipelines with processors, and of what calls did to it afterwards.
-/
def Joined : Recipe V → Prop
  | .new _ => False
  | .call r _ => r.Joined
  | .mergePipeline l r _ => (l.Empty ∧ r.Joined) ∨ (¬l.Empty ∧ r.Empty ∧ l.Joined) ∨ (¬l.Empty ∧ ¬r.Empty)

/-- A call makes queues for such a pipeline. -/
def AllocatesJoined : Recipe V → Prop
  | .new _ => False
  | .call r c => r.AllocatesJoined ∨ (r.Joined ∧ ∃ s, r.site = .ok s ∧ c.Allocates s.pipeline)
  | .mergePipeline l r _ => l.AllocatesJoined ∨ r.AllocatesJoined

/-- What a merge in a recipe was given and made. -/
theorem site_merge {l r : Recipe V} {noopId : Nat → Id} {s : Site V}
    (h : (Recipe.mergePipeline l r noopId).site = .ok s) :
    ∃ t t', l.site = .ok t ∧ r.site = .ok t' ∧ t.pipeline.mergePipeline t'.pipeline noopId = .ok s.pipeline ∧
    s.made = t.made ++ t'.made := by
  obtain ⟨t, ht, h⟩ := bind_ok h
  obtain ⟨t', ht', h⟩ := bind_ok h
  obtain ⟨p, hp, h⟩ := bind_ok h
  cases h
  exact ⟨t, t', ht, ht', hp, rfl⟩

/-- An empty recipe. -/
theorem empty_iff {r : Recipe V} {s : Site V} (h : r.site = .ok s) : r.Empty ↔ s.pipeline.getProcessorSize = 0 := by
  constructor
  · rintro ⟨t, ht, h0⟩
    rw [h] at ht
    cases ht
    exact h0
  · exact fun h0 => ⟨s, h, h0⟩

/-- The capacity that the next queues get: none after a merge of two pipelines with processors. -/
theorem channelSize_pos_iff (r : Recipe V) : ∀ {s : Site V}, r.site = .ok s → (∀ o ∈ r.options, 1 ≤ o.channelSize) →
    (1 ≤ s.pipeline.option.channelSize ↔ ¬r.Joined) := by
  induction r with
  | new option =>
    intro s hs hopt
    cases hs
    exact iff_of_true (hopt option (by simp [options])) (fun h => h)
  | call r c ih =>
    intro s hs hopt
    obtain ⟨t, ht, hs⟩ := bind_ok hs
    cases hs
    rw [(Call.exec_keeps c t).1]
    exact ih ht hopt
  | mergePipeline l r noopId ihl ihr =>
    intro s hs hopt
    obtain ⟨t, t', ht, ht', hp, -⟩ := site_merge hs
    have hl := ihl ht (fun o ho => hopt o (List.mem_append_left _ ho))
    have hr := ihr ht' (fun o ho => hopt o (List.mem_append_right _ ho))
    rw [Joined, empty_iff ht, empty_iff ht']
    rcases Pipeline.mergePipeline_cases hp with ⟨h0, he⟩ | ⟨h0, h0', he⟩ | ⟨h0, h0', -, he⟩ <;> rw [he]
    · rw [hr]
      tauto
    · rw [hl]
      tauto
    · simp [h0, h0']

/-- The queues of a recipe have room for an element as long as no call made any after a merge. -/
theorem made_pos_iff (r : Recipe V) :
    ∀ {s : Site V}, r.site = .ok s → r.Enumerates → (∀ o ∈ r.options, 1 ≤ o.channelSize) →
    ((∀ q ∈ s.made, 1 ≤ q.capacity) ↔ ¬r.AllocatesJoined) := by
  induction r with
  | new option =>
    intro s hs _ _
    cases hs
    exact iff_of_true (by simp) (fun h => h)
  | call r c ih =>
    intro s hs hen hopt
    obtain ⟨t, ht, hs⟩ := bind_ok hs
    cases hs
    have hsize := channelSize_pos_iff r ht hopt
    obtain ⟨qs, hmade, hcap, hne⟩ := Call.exec_made (r.leavesIn ht) (hen.2 t ht)
    have hnew : (∀ q ∈ qs, 1 ≤ q.capacity) ↔ ¬(r.Joined ∧ c.Allocates t.pipeline) := by
      rw [← hne, not_and, ne_eq, not_not]
      constructor
      · intro h hj
        by_contra hqs
        obtain ⟨q, hq⟩ := List.exists_mem_of_ne_nil qs hqs
        exact hsize.1 (hcap q hq ▸ h q hq) hj
      · intro h q hq
        rw [hcap q hq, hsize]
        intro hj
        rw [h hj] at hq
        simp at hq
    have hall : (∃ s, r.site = .ok s ∧ c.Allocates s.pipeline) ↔ c.Allocates t.pipeline := by
      rw [ht]
      exact ⟨fun ⟨s, hs, h⟩ => Except.ok.inj hs ▸ h, fun h => ⟨t, rfl, h⟩⟩
    rw [hmade, AllocatesJoined, hall, not_or, ← ih ht hen.1 hopt, ← hnew]
    exact List.forall_mem_append
  | mergePipeline l r noopId ihl ihr =>
    intro s hs hen hopt
    obtain ⟨t, t', ht, ht', -, hmade⟩ := site_merge hs
    rw [hmade, AllocatesJoined, not_or, ← ihl ht hen.1 (fun o ho => hopt o (List.mem_append_left _ ho)),
      ← ihr ht' hen.2 (fun o ho => hopt o (List.mem_append_right _ ho))]
    exact List.forall_mem_append

end Recipe

/-- Every queue that builder calls make, for a pipeline of calls and merges whose options have a channel size of at
least one, has room for an element when it is empty, unless a call made queues for what `MergePipeline` returned for two
pipelines with processors: such a queue has the capacity zero, which `MergePipeline` sets as the channel size. -/
theorem queues_carry (r : Recipe V) {s : Site V} (hs : r.site = .ok s) (hen : r.Enumerates)
    (hopt : ∀ o ∈ r.options, 1 ≤ o.channelSize) :
    (∀ q ∈ s.made, 1 ≤ q.capacity ∧ ∀ st : State V, (st.queues q).content = [] → st.hasRoom q = true) ↔
    ¬r.AllocatesJoined := by
  rw [← Recipe.made_pos_iff r hs hen hopt]
  constructor
  · exact fun h q hq => (h q hq).1
  · intro h q hq
    refine ⟨h q hq, fun st hempty => ?_⟩
    simp only [State.hasRoom, hempty, List.length_nil, decide_eq_true_eq]
    exact h q hq

/-- Two pipelines of a source and a sink each, merged. -/
def mergeOfTwo : Recipe Nat :=
  .mergePipeline
    (.call (.call (.new {}) (.addSource 1 "source" (.generate (fun _ => none)))) (.setSink 2 "sink" .consume ⟨[1],
      by decide⟩))
    (.call (.call (.new {}) (.addSource 3 "source" (.generate (fun _ => none)))) (.setSink 4 "sink" .consume ⟨[3],
      by decide⟩))
    (fun _ => 5)

/-- The merge, with another source and a transform behind it. -/
def mergeOfTwoGrown : Recipe Nat :=
  .call (.call mergeOfTwo (.addSource 6 "source" (.generate (fun _ => none)))) (.addTransform 6 7 "transform" .noOp)

theorem mergeOfTwo_enumerates : mergeOfTwo.Enumerates := by
  refine ⟨⟨⟨trivial, fun _ _ => trivial⟩, fun s hs => ?_⟩, ⟨trivial, fun _ _ => trivial⟩, fun s hs => ?_⟩
  · cases hs
    decide
  · cases hs
    decide

/-- Two pipelines and their queues. -/
theorem queues_carry_mergeOfTwo : ∃ s, mergeOfTwo.site = .ok s ∧ s.made = [.link 2 0 1, .link 4 0 1] ∧
    ∀ q ∈ s.made, 1 ≤ q.capacity ∧ ∀ st : State Nat, (st.queues q).content = [] → st.hasRoom q = true := by
  refine ⟨_, rfl, by decide, (queues_carry mergeOfTwo rfl mergeOfTwo_enumerates (by decide)).2 ?_⟩
  rintro ((h | ⟨h, -⟩) | h | ⟨h, -⟩)
  · exact h.elim id (fun h => h.1)
  · exact h
  · exact h.elim id (fun h => h.1)
  · exact h

/-- The queue of the transform has no room, ever. -/
theorem queue_without_room : ∃ s q, mergeOfTwoGrown.site = .ok s ∧ mergeOfTwoGrown.Enumerates ∧
    (∀ o ∈ mergeOfTwoGrown.options, 1 ≤ o.channelSize) ∧ q ∈ s.made ∧ q.capacity = 0 ∧ ∀ st :
    State Nat, st.hasRoom q = false := by
  refine ⟨_, .link 7 0 0, rfl, ⟨⟨mergeOfTwo_enumerates, fun _ _ => trivial⟩, fun _ _ => trivial⟩,
    by decide, by decide, rfl, fun st => ?_⟩
  simp [State.hasRoom, Queue.capacity]

/-! ## Calls that throw -/

/-- An `AddTransform(creater)` that throws, but not in its first round. -/
def Call.ThrowsLate (p : Pipeline V) : Call V → Prop
  | .addTransforms order create => RoundPasses p create 0 ∧ ∃ m < order.elems.length, ¬RoundPasses p create m
  | _ => False

/-- The ids in use before the `n`-th round: those of the pipeline, and those of the rounds before. -/
def UsedBefore (p : Pipeline V) (create : Nat → Except String (NewTransform V)) (n : Nat) (keys : Finset Id) : Prop :=
  ∀ id, id ∈ keys ↔ id ∈ p.nodes.keys ∨ ∃ k < n, ∃ t, create k = .ok t ∧ t.id = id

theorem UsedBefore.round {n : Nat} {each : Id} {t : NewTransform V} (h : UsedBefore p create n s.pipeline.nodes.keys)
    (ht : create n = .ok t) :
    UsedBefore p create (n + 1) (Builder.round s each t).pipeline.nodes.keys := by
  intro id
  rw [Builder.keys_round, Finset.mem_insert, h id]
  constructor
  · rintro (rfl | hp | ⟨k, hk, hrest⟩)
    · exact Or.inr ⟨n, Nat.lt_succ_self n, t, ht, rfl⟩
    · exact Or.inl hp
    · exact Or.inr ⟨k, Nat.lt_succ_of_lt hk, hrest⟩
  · rintro (hp | ⟨k, hk, t', ht', rfl⟩)
    · exact Or.inr (Or.inl hp)
    · rcases Nat.lt_succ_iff_lt_or_eq.1 hk with hk | rfl
      · exact Or.inr (Or.inr ⟨k, hk, t', ht', rfl⟩)
      · rw [ht] at ht'
        cases ht'
        exact Or.inl rfl

/-- A round passes when its id is not in use. -/
theorem UsedBefore.roundPasses_iff {n : Nat} {keys : Finset Id} {t : NewTransform V} (h : UsedBefore p create n keys)
    (ht : create n = .ok t) : RoundPasses p create n ↔ t.id ∉ keys := by
  rw [h t.id, not_or]
  constructor
  · rintro ⟨t', ht', hid, hk⟩
    rw [ht] at ht'
    cases ht'
    exact ⟨hid, fun ⟨k, hkn, t'', ht'', he⟩ => hk k hkn t'' ht'' he⟩
  · rintro ⟨hid, hk⟩
    exact ⟨t, ht, hid, fun k hkn t' ht' he => hk ⟨k, hkn, t', ht', he⟩⟩

/-- The loop returns when all its rounds pass, and else throws. -/
theorem Builder.loop_returns (p : Pipeline V) (create : Nat → Except String (NewTransform V)) (L : List Id) :
    ∀ (n : Nat) (newLeaves : Finset Id) (s : Site V), UsedBefore p create n s.pipeline.nodes.keys →
    (∀ each ∈ L, each ∈ s.pipeline.nodes.keys) → ((∀ m, n ≤ m → m < n + L.length → RoundPasses p create m) ∧
      ∃ leaves, (addTransformsLoop create L n newLeaves s).1 = .ok leaves) ∨
    ((∃ m, n ≤ m ∧ m < n + L.length ∧ ¬RoundPasses p create m) ∧
      ∃ e, (addTransformsLoop create L n newLeaves s).1 = .error e ∧ e.what.isSome = true) := by
  induction L with
  | nil => exact fun n newLeaves s _ _ => Or.inl ⟨fun m h h' => absurd h' (Nat.not_lt.2 h), newLeaves, rfl⟩
  | cons each rest ih =>
    intro n newLeaves s hused hL
    obtain ⟨heach, hrest⟩ := List.forall_mem_cons.1 hL
    have hnow : n < n + (each :: rest).length := Nat.lt_add_of_pos_right (Nat.succ_pos _)
    cases hc : create n with
    | error w =>
      refine Or.inr ⟨⟨n, le_refl n, hnow, ?_⟩, _, by rw [loop_creater hc], rfl⟩
      rintro ⟨t, ht, -⟩
      rw [hc] at ht
      cases ht
    | ok t =>
      have hpass := hused.roundPasses_iff hc
      by_cases hid : t.id ∈ s.pipeline.nodes.keys
      · exact Or.inr ⟨⟨n, le_refl n, hnow, fun h => hpass.1 h hid⟩, _, by rw [loop_duplicate hc hid], rfl⟩
      rw [loop_round hc hid heach]
      rcases ih (n + 1) (insert t.id newLeaves) (round s each t) (hused.round hc)
        (fun x hx => by rw [keys_round]; exact Finset.mem_insert_of_mem (hrest x hx)) with ⟨hall, hok⟩ |
          ⟨⟨m, hm, hm', hno⟩, herr⟩
      · refine Or.inl ⟨fun m hm hm' => ?_, hok⟩
        rcases Nat.eq_or_lt_of_le hm with rfl | hm
        · exact hpass.2 hid
        · exact hall m hm (by simp only [List.length_cons] at hm'; omega)
      · exact Or.inr ⟨⟨m, by omega, by simp only [List.length_cons]; omega, hno⟩, herr⟩

/-- Every call but `AddTransform(creater)` leaves the pipeline alone when it throws. -/
theorem Call.exec_error (hc : ∀ order create, c ≠ .addTransforms order create) (h : (c.exec s).1 = .error e) :
    (c.exec s).2 = s := by
  obtain ⟨qs, -, -, he⟩ := Call.exec_eq hc s
  rw [he] at h ⊢
  cases hrun : c.run s.pipeline with
  | error e => rfl
  | ok p =>
    rw [hrun] at h
    cases h

/-- `AddTransform(creater)` leaves the pipeline alone when it throws, if it does so in the first round. -/
theorem Call.addTransforms_atomic_iff {order : IdSet} (hs : s.pipeline.LeavesIn)
    (hen : order.elems.toFinset = s.pipeline.leaves) :
    (∀ e, ((Call.addTransforms order create).exec s).1 = .error e → e.what.isSome = true →
      ((Call.addTransforms order create).exec s).2.pipeline = s.pipeline) ↔
      ¬(Call.addTransforms order create).ThrowsLate s.pipeline := by
  have hkeys : ∀ each ∈ order.elems, each ∈ s.pipeline.nodes.keys := fun each h => hs (hen ▸ List.mem_toFinset.2 h)
  have hused : UsedBefore s.pipeline create 0 s.pipeline.nodes.keys := fun id =>
    ⟨Or.inl, fun h => h.elim (fun h => h) (fun ⟨k, hk, _⟩ => absurd hk (Nat.not_lt_zero k))⟩
  have hret := Builder.loop_returns s.pipeline create order.elems 0 ∅ s hused hkeys
  constructor
  · rintro hatomic ⟨hfirst, m, hm, hno⟩
    -- a later round throws, and the transform of the first is in the pipeline
    obtain ⟨hall, -⟩ | ⟨-, e, herr, hwhat⟩ := hret
    · exact hno (hall m (Nat.zero_le m) (by omega))
    rcases Call.exec_addTransforms order create s with ⟨e', hl', he⟩ | ⟨leaves, hl', he⟩ <;> rw [herr] at hl' <;>
      cases hl'
    have heq := hatomic e (by rw [he]) hwhat
    rw [he] at heq
    cases hL : order.elems with
    | nil =>
      rw [hL] at hm
      exact absurd hm (Nat.not_lt_zero m)
    | cons each rest =>
      rw [hL] at heq
      rcases Builder.loop_first create rest (hkeys each (by rw [hL]; simp)) with ⟨hno', -⟩ | ⟨t, -, hid, -, hk⟩
      · exact hno' hfirst
      · refine hid (heq ▸ hk.keys ?_)
        rw [Builder.keys_round]
        exact Finset.mem_insert_self _ _
  · intro hnot e he hwhat
    rcases Call.exec_addTransforms order create s with ⟨e', hl', hex⟩ | ⟨leaves, -, hex⟩
    · obtain ⟨-, leaves, hok⟩ | ⟨⟨m, -, hm, hno⟩, -⟩ := hret
      · rw [hok] at hl'
        cases hl'
      have hfirst : ¬RoundPasses s.pipeline create 0 := fun h => hnot ⟨h, m, by omega, hno⟩
      rw [hex]
      cases hL : order.elems with
      | nil => rfl
      | cons each rest =>
        rcases Builder.loop_first create rest (hkeys each (by rw [hL]; simp)) with ⟨-, e'', he''⟩ | ⟨t, -, -, h, -⟩
        · rw [he'']
        · exact absurd h hfirst
    · rw [hex] at he
      cases he

/-- Past the checks of `MergePipeline` there is only the null pointer. -/
theorem Pipeline.mergeNoops_error {l r : Pipeline V} {ids : List (Id × Id)} (h : mergeNoops l r ids = .error e) :
    e = .nullProcessor := by
  induction ids with
  | nil => cases h
  | cons x rest ih =>
    unfold mergeNoops at h
    split at h
    · cases hrest : mergeNoops l r rest with
      | error e' =>
        rw [hrest] at h
        cases h
        exact ih hrest
      | ok noops =>
        rw [hrest] at h
        cases h
    · cases h
      rfl

/-- The result of `MergePipeline`, apart from what becomes of its operands. -/
theorem Builder.mergePipeline_result (l r : Pipeline V) (noopId : Nat → Id) :
    (Builder.mergePipeline noopId (l, r)).1 = l.mergePipeline r noopId := by
  unfold mergePipeline
  rw [Attempt.get_bind_apply]
  dsimp only
  split
  · rename_i hc
    rw [Pipeline.mergePipeline, if_pos hc]
    rfl
  rename_i hc
  split
  · rename_i hl
    rw [Pipeline.mergePipeline, if_neg hc, if_pos hl]
    rfl
  rename_i hl
  split
  · rename_i hr
    rw [Pipeline.mergePipeline, if_neg hc, if_neg hl, if_pos hr]
    rfl
  rename_i hr
  split
  · rename_i hlen
    rw [Pipeline.mergePipeline, if_neg hc, if_neg hl, if_neg hr, if_pos hlen]
    rfl
  · rfl

/-- `MergePipeline` checks before it takes anything from its operands. -/
theorem Builder.mergePipeline_atomic {l r : Pipeline V} {noopId : Nat → Id} {st : Pipeline V × Pipeline V}
    (h : mergePipeline noopId (l, r) = (.error e, st)) (hwhat : e.what.isSome = true) : st = (l, r) := by
  unfold mergePipeline at h
  rw [Attempt.get_bind_apply] at h
  dsimp only at h
  split at h
  · cases h
    rfl
  rename_i hc
  split at h
  · cases h
  rename_i hl
  split at h
  · cases h
  rename_i hr
  split at h
  · cases h
    rfl
  rename_i hlen
  have herr := congrArg Prod.fst h
  rw [Attempt.modify_bind_apply, Attempt.lift_apply, Pipeline.mergePipeline, if_neg hc, if_neg hl, if_neg hr,
    if_neg hlen] at herr
  cases hnoops : Pipeline.mergeNoops l r (l.sinks.zip r.sources) with
  | error e' =>
    rw [hnoops] at herr
    cases herr
    rw [Pipeline.mergeNoops_error hnoops] at hwhat
    cases hwhat
  | ok noops =>
    rw [hnoops] at herr
    cases herr

/-- Builder calls on a pipeline that calls and merges made, and merges of two of them: those that throw leave the
pipeline as it was, unless it is an `AddTransform(creater)` that throws in a later round than its first. The rounds
before it stay in the pipeline. -/
theorem builder_atomic (r : Recipe V) {s : Site V} (hs : r.site = .ok s) :
    (∀ c : Call V, c.Enumerates s.pipeline →
      ((∀ e, (c.exec s).1 = .error e → e.what.isSome = true → (c.exec s).2.pipeline = s.pipeline) ↔
        ¬c.ThrowsLate s.pipeline)) ∧
    ∀ (r' : Recipe V) (s' : Site V) (noopId : Nat → Id) (e : BuildError)
    (st : Pipeline V × Pipeline V), r'.site = .ok s' →
      Builder.mergePipeline noopId (s.pipeline, s'.pipeline) = (.error e, st) → e.what.isSome = true →
      st = (s.pipeline, s'.pipeline) := by
  refine ⟨fun c hen => ?_, fun r' s' noopId e st _ h hwhat => Builder.mergePipeline_atomic h hwhat⟩
  by_cases hc : ∀ order create, c ≠ .addTransforms order create
  · refine iff_of_true (fun e he _ => by rw [Call.exec_error hc he]) ?_
    cases c with
    | addTransforms order create => exact absurd rfl (hc order create)
    | _ => exact fun h => h
  · push Not at hc
    obtain ⟨order, create, rfl⟩ := hc
    exact Call.addTransforms_atomic_iff (r.leavesIn hs) hen

/-- Two sources. -/
def sourcesOnly : Recipe Nat :=
  .call (.call (.new {}) (.addSource 1 "source" (.generate (fun _ => none))))
    (.addSource 2 "source" (.generate (fun _ => none)))

/-- `AddTransform` with a `creater` that throws when it is called again. -/
def addTransformsOnce : Call Nat :=
  .addTransforms ⟨[1, 2], by decide⟩ (fun n => if n = 0 then .ok ⟨3, "transform", .noOp⟩ else .error "no more")

/-- The first transform stays in the pipeline, behind its source, and the source is still a leaf. -/
theorem addTransforms_not_atomic : ∃ s t, sourcesOnly.site = .ok s ∧ addTransformsOnce.Enumerates s.pipeline ∧
    addTransformsOnce.exec s = (.error (.creater "no more"), t) ∧ 3 ∉ s.pipeline.nodes.keys ∧
    3 ∈ t.pipeline.nodes.keys ∧ t.pipeline.Edge 1 3 ∧ t.pipeline.leaves = {1, 2} := by
  refine ⟨_, _, rfl, ?_, rfl, ?_, ?_, ?_, ?_⟩ <;> decide

/-- A second source with the id of the first. -/
theorem builder_atomic_duplicate : ∃ s e, sourcesOnly.site = .ok s ∧
    ((Call.addSource 1 "source" (.generate (fun _ => none)) : Call Nat).exec s).1 = .error e ∧
    ((Call.addSource 1 "source" (.generate (fun _ => none)) : Call Nat).exec s).2.pipeline = s.pipeline := by
  refine ⟨_, .duplicateNode, rfl, rfl, ?_⟩
  exact ((builder_atomic sourcesOnly rfl).1 (.addSource 1 "source" (.generate (fun _ => none))) trivial).2 (fun h =>
    h) .duplicateNode rfl rfl

end Tunnel
