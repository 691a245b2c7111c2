import Tunnel.Theorems.Merge
import Tunnel.Theorems.Rooted

/-!
# `MergePipeline` is associative

What a merge makes but for the names of its new processors is a `Blueprint`, and two pipelines with one blueprint are
the same up to these names. Three pipelines, merged in either order, give one chain (`Chained`) and so one blueprint
(`merge_assoc`).
-/

namespace Tunnel

open Lib

variable {V : Type}

/-! ## Pipelines up to the names of their new processors -/

/-- `p'` is `p` with its processors under other names. -/
structure Renamed (ρ : Id → Id) (p p' : Pipeline V) : Prop where
  inj : ∀ u ∈ p.nodes.keys, ∀ v ∈ p.nodes.keys, ρ u = ρ v → u = v
  keys : p'.nodes.keys = p.nodes.keys.image ρ
  nodes : ∀ u ∈ p.nodes.keys, p'.nodes.get (ρ u) = p.nodes.get u
  edges : ∀ u v, p'.Edge u v ↔ ∃ a b, p.Edge a b ∧ u = ρ a ∧ v = ρ b
  leaves : p'.leaves = p.leaves.image ρ
  sources : p'.sources = p.sources.map ρ
  sinks : p'.sinks = p.sinks.map ρ
  option : p'.option = p.option
  abortChannel : p'.abortChannel = p.abortChannel

/-- A pipeline under its own names. -/
theorem Renamed.refl (p : Pipeline V) : Renamed id p p := by
  refine ⟨fun _ _ _ _ h => h, by simp, fun _ _ => rfl, fun u v => ?_, by simp, by simp, by simp, rfl, rfl⟩
  constructor
  · exact fun h => ⟨u, v, h, rfl, rfl⟩
  · rintro ⟨a, b, h, rfl, rfl⟩
    exact h

/-- A completed pipeline of which some processors, those of `J`, have no names yet. -/
structure Blueprint (V J : Type) where
  node : Id ⊕ J → Processor V → Prop
  edge : Id ⊕ J → Id ⊕ J → Prop
  sources : List Id
  sinks : List Id
  option : PipelineOption

/-- The pipeline is the blueprint, with names for the processors that have none in it. -/
structure Blueprint.Realized {J : Type} (b : Blueprint V J) (name : J → Id) (p : Pipeline V) : Prop where
  inj : ∀ x y m n, b.node x m → b.node y n → Sum.elim id name x = Sum.elim id name y → x = y
  node : ∀ u n, p.nodes.get u = some n ↔ ∃ x, b.node x n ∧ u = Sum.elim id name x
  edge : ∀ u v, p.Edge u v ↔ ∃ x y, b.edge x y ∧ u = Sum.elim id name x ∧ v = Sum.elim id name y
  edge_node : ∀ x y, b.edge x y → (∃ n, b.node x n) ∧ ∃ n, b.node y n
  leaves : p.leaves = ∅
  sources : p.sources = b.sources
  sinks : p.sinks = b.sinks
  option : p.option = b.option
  abortChannel : p.abortChannel = none

variable {p l r : Pipeline V} {U : Finset Id} {noopId : Nat → Id} {k : Nat}

/-- Two pipelines with one blueprint are the same up to the names it leaves open. -/
theorem Blueprint.Realized.renamed {J : Type} {b : Blueprint V J} {name name' : J → Id} {p' : Pipeline V}
    (h : b.Realized name p) (h' : b.Realized name' p') (hname : ∀ x n, b.node (.inr x) n → name x ∉ U)
    (hsources : ∀ u ∈ b.sources, u ∈ U) (hsinks : ∀ u ∈ b.sinks, u ∈ U) :
    ∃ ρ : Id → Id, (∀ u ∈ U, ρ u = u) ∧ Renamed ρ p p' := by
  classical
  -- a name of the one belongs to one place of the blueprint, and that has a name in the other
  let ρ : Id → Id := fun u => if hu : ∃ x, (∃ n, b.node x n) ∧ u = Sum.elim id name x then Sum.elim id name' hu.choose
    else u
  have hρ : ∀ x n, b.node x n → ρ (Sum.elim id name x) = Sum.elim id name' x := by
    intro x n hx
    have hu : ∃ y, (∃ n, b.node y n) ∧ Sum.elim id name x = Sum.elim id name y := ⟨x, ⟨n, hx⟩, rfl⟩
    obtain ⟨⟨m, hm⟩, he⟩ := hu.choose_spec
    simp only [ρ, dif_pos hu]
    exact congrArg (Sum.elim id name') (h.inj _ _ _ _ hx hm he).symm
  have hfix : ∀ u ∈ U, ρ u = u := by
    intro u huU
    by_cases hu : ∃ x, (∃ n, b.node x n) ∧ u = Sum.elim id name x
    · obtain ⟨x | x, ⟨n, hn⟩, rfl⟩ := hu
      · exact hρ _ n hn
      · exact absurd huU (hname x n hn)
    · simp only [ρ, dif_neg hu]
  have hget : ∀ u n, p.nodes.get u = some n → p'.nodes.get (ρ u) = some n := by
    intro u n hn
    obtain ⟨x, hx, rfl⟩ := (h.node u n).1 hn
    rw [hρ x n hx]
    exact (h'.node _ n).2 ⟨x, hx, rfl⟩
  have hmap : ∀ L : List Id, (∀ u ∈ L, u ∈ U) → L = L.map ρ := by
    intro L hL
    conv_lhs => rw [← List.map_id L]
    exact List.map_congr_left (fun u hu => (hfix u (hL u hu)).symm)
  refine ⟨ρ, hfix, fun u hu v hv he => ?_, ?_, fun u hu => ?_, fun u v => ?_,
    by rw [h.leaves, h'.leaves, Finset.image_empty], ?_, ?_, by rw [h.option, h'.option], by
    rw [h.abortChannel, h'.abortChannel]⟩
  · obtain ⟨m, hm⟩ := (p.nodes.mem_keys_iff u).1 hu
    obtain ⟨n, hn⟩ := (p.nodes.mem_keys_iff v).1 hv
    obtain ⟨x, hx, rfl⟩ := (h.node u m).1 hm
    obtain ⟨y, hy, rfl⟩ := (h.node v n).1 hn
    rw [hρ x m hx, hρ y n hy] at he
    rw [h'.inj x y m n hx hy he]
  · ext u
    rw [Finset.mem_image, PMap.mem_keys_iff]
    constructor
    · rintro ⟨n, hn⟩
      obtain ⟨x, hx, rfl⟩ := (h'.node u n).1 hn
      exact ⟨_, PMap.mem_keys_of_get ((h.node _ n).2 ⟨x, hx, rfl⟩), hρ x n hx⟩
    · rintro ⟨v, hv, rfl⟩
      obtain ⟨n, hn⟩ := (p.nodes.mem_keys_iff v).1 hv
      exact ⟨n, hget v n hn⟩
  · obtain ⟨n, hn⟩ := (p.nodes.mem_keys_iff u).1 hu
    rw [hget u n hn, hn]
  · rw [h'.edge]
    constructor
    · rintro ⟨x, y, hxy, rfl, rfl⟩
      obtain ⟨⟨m, hm⟩, n, hn⟩ := h.edge_node x y hxy
      exact ⟨_, _, (h.edge _ _).2 ⟨x, y, hxy, rfl, rfl⟩, (hρ x m hm).symm, (hρ y n hn).symm⟩
    · rintro ⟨a, c, hac, rfl, rfl⟩
      obtain ⟨x, y, hxy, rfl, rfl⟩ := (h.edge a c).1 hac
      obtain ⟨⟨m, hm⟩, n, hn⟩ := h.edge_node x y hxy
      exact ⟨x, y, hxy, hρ x m hm, hρ y n hn⟩
  · rw [h.sources, h'.sources]
    exact hmap _ hsources
  · rw [h.sinks, h'.sinks]
    exact hmap _ hsinks

/-! ## Chains of pipelines -/

/-- The `i`-th sink of the left and the `i`-th source of the right make the processor. -/
def Joint (l r : Pipeline V) (i : Nat) (n : Processor V) : Prop :=
  ∃ a b s t, l.sinks[i]? = some a ∧ r.sources[i]? = some b ∧ l.nodes.get a = some s ∧ r.nodes.get b = some t ∧
    n = Pipeline.mergeSinkAndSource s t

/-- The processors of the merged pipeline: old ones, or those at the joints. -/
theorem Merged.get_iff (h : Merged l r noopId p) (u : Id) (n : Processor V) :
    p.nodes.get u = some n ↔ (u ∉ l.sinks ∧ l.nodes.get u = some n) ∨ (u ∉ r.sources ∧ r.nodes.get u = some n) ∨
      ∃ i, Joint l r i n ∧ u = noopId i := by
  constructor
  · intro hn
    rcases h.get_cases hn with hl | hr | ⟨i, a, b, s, t, hu, hrest⟩
    · exact Or.inl hl
    · exact Or.inr (Or.inl hr)
    · exact Or.inr (Or.inr ⟨i, ⟨a, b, s, t, hrest⟩, hu⟩)
  · rintro (⟨hs, hn⟩ | ⟨hs, hn⟩ | ⟨i, ⟨a, b, s, t, ha, hb, hs, ht, rfl⟩, rfl⟩)
    · rw [h.left u (PMap.mem_keys_of_get hn) hs, hn]
    · rw [h.right u (PMap.mem_keys_of_get hn) hs, hn]
    · obtain ⟨s', t', hs', ht', hn⟩ := h.noop i a b ha hb
      rw [hs] at hs'
      rw [ht] at ht'
      cases hs'
      cases ht'
      exact hn

/-- A joint is at a sink. -/
theorem Joint.lt {i : Nat} {n : Processor V} (h : Joint l r i n) : i < l.sinks.length := by
  obtain ⟨a, -, -, -, ha, -⟩ := h
  exact (List.getElem?_eq_some_iff.1 ha).1

/-- Where a processor goes that may be one of those that a merge replaces. -/
def place {J : Type} (olds : List Id) (joint : Nat → J) (v : Id) :
    Id ⊕ J := if v ∈ olds then .inr (joint (olds.idxOf v)) else .inl v

/-- What a place is called. -/
theorem elim_place {J : Type} (olds : List Id) (joint : Nat → J) (name : J → Id) (v : Id) :
    Sum.elim id name (place olds joint v) = mergedName olds (fun i => name (joint i)) v := by
  unfold place mergedName
  split <;> rfl

section

variable {l r : Pipeline V} {UL UR : Finset Id} {noopId : Nat → Id}

/-- Every sink has its joint. -/
theorem MergeReady.joint (h : MergeReady l r UL UR noopId) {i : Nat} (hi : i < l.sinks.length) :
    ∃ n, Joint l r i n := by
  have ha := List.getElem?_eq_getElem hi
  have hb := List.getElem?_eq_getElem (h.len ▸ hi)
  obtain ⟨s, hs⟩ := (l.nodes.mem_keys_iff _).1 (h.soundL.sink_mem (List.getElem_mem hi))
  obtain ⟨t, ht⟩ := (r.nodes.mem_keys_iff _).1 (h.soundR.source_mem (List.getElem_mem (h.len ▸ hi)))
  exact ⟨_, _, _, s, t, ha, hb, hs, ht, rfl⟩

/-- A processor of the left keeps its place, or one of the new ones has it. -/
theorem MergeReady.place_sink {J : Type} (h : MergeReady l r UL UR noopId) (joint : Nat → J) {v : Id}
    (hv : v ∈ l.nodes.keys) :
    (∃ n, v ∉ l.sinks ∧ l.nodes.get v = some n ∧ place l.sinks joint v = .inl v) ∨
      ∃ i n, Joint l r i n ∧ place l.sinks joint v = .inr (joint i) := by
  by_cases hs : v ∈ l.sinks
  · obtain ⟨n, hn⟩ := h.joint (List.idxOf_lt_length_of_mem hs)
    exact Or.inr ⟨_, n, hn, if_pos hs⟩
  · obtain ⟨n, hn⟩ := (l.nodes.mem_keys_iff v).1 hv
    exact Or.inl ⟨n, hs, hn, if_neg hs⟩

/-- A processor of the right keeps its place, or one of the new ones has it. -/
theorem MergeReady.place_source {J : Type} (h : MergeReady l r UL UR noopId) (joint : Nat → J) {v : Id}
    (hv : v ∈ r.nodes.keys) :
    (∃ n, v ∉ r.sources ∧ r.nodes.get v = some n ∧ place r.sources joint v = .inl v) ∨
      ∃ i n, Joint l r i n ∧ place r.sources joint v = .inr (joint i) := by
  by_cases hs : v ∈ r.sources
  · obtain ⟨n, hn⟩ := h.joint (h.len ▸ List.idxOf_lt_length_of_mem hs)
    exact Or.inr ⟨_, n, hn, if_pos hs⟩
  · obtain ⟨n, hn⟩ := (r.nodes.mem_keys_iff v).1 hv
    exact Or.inl ⟨n, hs, hn, if_neg hs⟩

end

/-- A name that is new to a set, or an id that is not in it, is not in it. -/
theorem mergedName_notMem {olds : List Id} {v : Id} {S : Finset Id} (hv : v ∉ S)
    (hnew : ∀ i < olds.length, noopId i ∉ S) :
    mergedName olds noopId v ∉ S := by
  by_cases h : v ∈ olds
  · obtain ⟨i, hi, -, hn⟩ := mergedName_of_mem noopId h
    rw [hn]
    exact hnew i hi
  · rwa [mergedName_of_notMem h]

/-- The merge of two pipelines, without the names of the new processors. -/
def Blueprint.pair (l r : Pipeline V) : Blueprint V Nat where
  node
    | .inl u, n => (u ∉ l.sinks ∧ l.nodes.get u = some n) ∨ (u ∉ r.sources ∧ r.nodes.get u = some n)
    | .inr i, n => Joint l r i n
  edge x y := (∃ a b, l.Edge a b ∧ x = .inl a ∧ y = place l.sinks id b) ∨
    (∃ a b, r.Edge a b ∧ x = place r.sources id a ∧ y = .inl b)
  sources := l.sources
  sinks := r.sinks
  option := mergedOption l.option r.option

/-- The merge of three pipelines, without the names of the new processors: those of `Sum.inl` stand between the first
two. -/
def Blueprint.chain (A B C : Pipeline V) : Blueprint V (Nat ⊕ Nat) where
  node
    | .inl u, n => (u ∉ A.sinks ∧ A.nodes.get u = some n) ∨ (u ∉ B.sources ∧ u ∉ B.sinks ∧ B.nodes.get u = some n) ∨
        (u ∉ C.sources ∧ C.nodes.get u = some n)
    | .inr (.inl i), n => Joint A B i n
    | .inr (.inr i), n => Joint B C i n
  edge x y := (∃ a b, A.Edge a b ∧ x = .inl a ∧ y = place A.sinks .inl b) ∨
    (∃ a b, B.Edge a b ∧ x = place B.sources .inl a ∧ y = place B.sinks .inr b) ∨
    (∃ a b, C.Edge a b ∧ x = place C.sources .inr a ∧ y = .inl b)
  sources := A.sources
  sinks := C.sinks
  option := mergedOption (mergedOption A.option B.option) C.option

/-- What `MergePipeline` returns for two pipelines with processors. -/
structure Joined (l r : Pipeline V) (UL UR : Finset Id) (noopId : Nat → Id) (p : Pipeline V) : Prop where
  ready : MergeReady l r UL UR noopId
  merged : Merged l r noopId p
  option : p.option = mergedOption l.option r.option
  abortChannel : p.abortChannel = none

/-- A merge is its blueprint. -/
theorem Joined.realized {UL UR : Finset Id} (h : Joined l r UL UR noopId p) :
    (Blueprint.pair l r).Realized noopId p where
  inj := by
    have hkeys : ∀ u n, (Blueprint.pair l r).node (.inl u) n → u ∈ l.nodes.keys ∨ u ∈ r.nodes.keys := by
      rintro u n (⟨-, hn⟩ | ⟨-, hn⟩)
      · exact Or.inl (PMap.mem_keys_of_get hn)
      · exact Or.inr (PMap.mem_keys_of_get hn)
    have hne : ∀ u i m n, (Blueprint.pair l r).node (.inl u) m → Joint l r i n → u ≠ noopId i := by
      rintro u i m n hu hi rfl
      rcases hkeys _ m hu with hu | hu
      · exact h.ready.notMem_left hi.lt hu
      · exact h.ready.notMem_right hi.lt hu
    rintro (u | i) (v | j) m n hx hy he
    · exact congrArg Sum.inl he
    · exact absurd he (hne u j m n hx hy)
    · exact absurd he.symm (hne v i n m hy hx)
    · exact congrArg Sum.inr (h.ready.inj hx.lt hy.lt he)
  node u n := by
    rw [h.merged.get_iff]
    constructor
    · rintro (hl | hr | ⟨i, hi, rfl⟩)
      · exact ⟨.inl u, Or.inl hl, rfl⟩
      · exact ⟨.inl u, Or.inr hr, rfl⟩
      · exact ⟨.inr i, hi, rfl⟩
    · rintro ⟨v | i, hx, rfl⟩
      · rcases hx with hx | hx
        · exact Or.inl hx
        · exact Or.inr (Or.inl hx)
      · exact Or.inr (Or.inr ⟨i, hx, rfl⟩)
  edge u v := by
    rw [h.merged.edges]
    constructor
    · rintro (⟨b, hb, rfl⟩ | ⟨a, ha, rfl⟩)
      · exact ⟨_, _, Or.inl ⟨u, b, hb, rfl, rfl⟩, rfl, (elim_place ..).symm⟩
      · exact ⟨_, _, Or.inr ⟨a, v, ha, rfl, rfl⟩, (elim_place ..).symm, rfl⟩
    · rintro ⟨x, y, ⟨a, b, hab, rfl, rfl⟩ | ⟨a, b, hab, rfl, rfl⟩, rfl, rfl⟩
      · exact Or.inl ⟨b, hab, elim_place ..⟩
      · exact Or.inr ⟨a, hab, elim_place ..⟩
  edge_node := by
    rintro x y (⟨a, b, hab, rfl, rfl⟩ | ⟨a, b, hab, rfl, rfl⟩)
    · obtain ⟨ha, hb⟩ := h.ready.soundL.edge_mem a b hab
      obtain ⟨n, hn⟩ := (l.nodes.mem_keys_iff a).1 ha
      refine ⟨⟨n, Or.inl ⟨fun hs => h.ready.soundL.sinks_out a hs b hab, hn⟩⟩, ?_⟩
      rcases h.ready.place_sink id hb with ⟨m, hs, hm, he⟩ | ⟨i, m, hm, he⟩ <;> rw [he]
      · exact ⟨m, Or.inl ⟨hs, hm⟩⟩
      · exact ⟨m, hm⟩
    · obtain ⟨ha, hb⟩ := h.ready.soundR.edge_mem a b hab
      obtain ⟨n, hn⟩ := (r.nodes.mem_keys_iff b).1 hb
      refine ⟨?_, n, Or.inr ⟨fun hs => h.ready.soundR.sources_in b hs a hab, hn⟩⟩
      rcases h.ready.place_source id ha with ⟨m, hs, hm, he⟩ | ⟨i, m, hm, he⟩ <;> rw [he]
      · exact ⟨m, Or.inr ⟨hs, hm⟩⟩
      · exact ⟨m, hm⟩
  leaves := h.merged.leaves
  sources := h.merged.sources
  sinks := h.merged.sinks
  option := h.option
  abortChannel := h.abortChannel

/-- Three pipelines with processors that fit together, and names for the processors between them. -/
structure ChainReady (A B C : Pipeline V) (UA UB UC : Finset Id) (f g : Nat → Id) : Prop where
  front : MergeReady A B UA UB f
  back : MergeReady B C UB UC g
  disjoint : Disjoint UA UC
  front_new : ∀ i < A.sinks.length, f i ∉ UC
  back_new : ∀ j < B.sinks.length, g j ∉ UA
  names : ∀ i < A.sinks.length, ∀ j < B.sinks.length, f i ≠ g j

/-- The chain of three pipelines, under the names of its processors. -/
structure Chained (A B C : Pipeline V) (f g : Nat → Id) (p : Pipeline V) : Prop where
  get : ∀ u n, p.nodes.get u = some n ↔ (u ∉ A.sinks ∧ A.nodes.get u = some n) ∨
    (u ∉ B.sources ∧ u ∉ B.sinks ∧ B.nodes.get u = some n) ∨ (u ∉ C.sources ∧ C.nodes.get u = some n) ∨
    (∃ i, Joint A B i n ∧ u = f i) ∨ (∃ j, Joint B C j n ∧ u = g j)
  edges : ∀ u v, p.Edge u v ↔ (∃ b, A.Edge u b ∧ v = mergedName A.sinks f b) ∨
    (∃ a b, B.Edge a b ∧ u = mergedName B.sources f a ∧ v = mergedName B.sinks g b) ∨
      (∃ a, C.Edge a v ∧ u = mergedName C.sources g a)
  leaves : p.leaves = ∅
  sources : p.sources = A.sources
  sinks : p.sinks = C.sinks
  option : p.option = mergedOption (mergedOption A.option B.option) C.option
  abortChannel : p.abortChannel = none

section

variable {A B C p : Pipeline V} {UA UB UC : Finset Id} {f g : Nat → Id}

namespace ChainReady

section

variable (h : ChainReady A B C UA UB UC f g)
include h

/-- The sinks of the middle are not in front. -/
theorem sinks_of_front {u : Id} (hu : u ∈ UA) : u ∉ B.sinks := fun hs =>
  Finset.disjoint_left.1 h.front.disjoint hu (h.back.soundL.keys (h.back.soundL.sink_mem hs))

/-- Its sources are not at the back. -/
theorem sources_of_back {u : Id} (hu : u ∈ UC) : u ∉ B.sources := fun hs =>
  Finset.disjoint_left.1 h.back.disjoint (h.back.soundL.keys (h.back.soundL.source_mem hs)) hu

/-- The new processors before the second pipeline are none of its sinks. -/
theorem front_notMem_sinks {i : Nat} (hi : i < A.sinks.length) : f i ∉ B.sinks := fun hs =>
  h.front.notMem_right hi (h.back.soundL.sink_mem hs)

theorem back_notMem_sources {j : Nat} (hj : j < B.sinks.length) : g j ∉ B.sources := fun hs =>
  h.back.notMem_left hj (h.back.soundL.source_mem hs)

/-- The blueprint of a chain. -/
theorem realized (hp : Chained A B C f g p) :
    (Blueprint.chain A B C).Realized (Sum.elim f g) p where
  inj := by
    have hkeys : ∀ u n, (Blueprint.chain A B C).node (.inl u) n → u ∈ UA ∪ UB ∪ UC := by
      rintro u n (⟨-, hn⟩ | ⟨-, -, hn⟩ | ⟨-, hn⟩)
      · exact Finset.mem_union_left _ (Finset.mem_union_left _ (h.front.soundL.keys (PMap.mem_keys_of_get hn)))
      · exact Finset.mem_union_left _ (Finset.mem_union_right _ (h.front.soundR.keys (PMap.mem_keys_of_get hn)))
      · exact Finset.mem_union_right _ (h.back.soundR.keys (PMap.mem_keys_of_get hn))
    have hnew : ∀ x n, (Blueprint.chain A B C).node (.inr x) n → Sum.elim f g x ∉ UA ∪ UB ∪ UC := by
      rintro (i | j) n hx
      · rw [Finset.mem_union, not_or]
        exact ⟨h.front.fresh i (Joint.lt hx), h.front_new i (Joint.lt hx)⟩
      · rw [Finset.union_assoc, Finset.mem_union, not_or]
        exact ⟨h.back_new j (Joint.lt hx), h.back.fresh j (Joint.lt hx)⟩
    rintro (u | x) (v | y) m n hx hy he
    · exact congrArg Sum.inl he
    · exact absurd (he ▸ hkeys u m hx) (hnew y n hy)
    · exact absurd (he.symm ▸ hkeys v n hy) (hnew x m hx)
    · rcases x with i | i <;> rcases y with j | j
      · exact congrArg (Sum.inr ∘ Sum.inl) (h.front.inj (Joint.lt hx) (Joint.lt hy) he)
      · exact absurd he (h.names i (Joint.lt hx) j (Joint.lt hy))
      · exact absurd he.symm (h.names j (Joint.lt hy) i (Joint.lt hx))
      · exact congrArg (Sum.inr ∘ Sum.inr) (h.back.inj (Joint.lt hx) (Joint.lt hy) he)
  node u n := by
    rw [hp.get]
    constructor
    · rintro (ha | hb | hc | ⟨i, hi, rfl⟩ | ⟨j, hj, rfl⟩)
      · exact ⟨.inl u, Or.inl ha, rfl⟩
      · exact ⟨.inl u, Or.inr (Or.inl hb), rfl⟩
      · exact ⟨.inl u, Or.inr (Or.inr hc), rfl⟩
      · exact ⟨.inr (.inl i), hi, rfl⟩
      · exact ⟨.inr (.inr j), hj, rfl⟩
    · rintro ⟨v | i | j, hx, rfl⟩
      · rcases hx with ha | hb | hc
        · exact Or.inl ha
        · exact Or.inr (Or.inl hb)
        · exact Or.inr (Or.inr (Or.inl hc))
      · exact Or.inr (Or.inr (Or.inr (Or.inl ⟨i, hx, rfl⟩)))
      · exact Or.inr (Or.inr (Or.inr (Or.inr ⟨j, hx, rfl⟩)))
  edge u v := by
    have hf : ∀ olds v, Sum.elim id (Sum.elim f g) (place olds .inl v) = mergedName olds f v := fun olds v =>
      elim_place olds Sum.inl (Sum.elim f g) v
    have hg : ∀ olds v, Sum.elim id (Sum.elim f g) (place olds .inr v) = mergedName olds g v := fun olds v =>
      elim_place olds Sum.inr (Sum.elim f g) v
    rw [hp.edges]
    constructor
    · rintro (⟨b, hb, rfl⟩ | ⟨a, b, hab, rfl, rfl⟩ | ⟨a, ha, rfl⟩)
      · exact ⟨_, _, Or.inl ⟨u, b, hb, rfl, rfl⟩, rfl, (hf A.sinks b).symm⟩
      · exact ⟨_, _, Or.inr (Or.inl ⟨a, b, hab, rfl, rfl⟩), (hf B.sources a).symm, (hg B.sinks b).symm⟩
      · exact ⟨_, _, Or.inr (Or.inr ⟨a, v, ha, rfl, rfl⟩), (hg C.sources a).symm, rfl⟩
    · rintro ⟨x, y, ⟨a, b, hab, rfl, rfl⟩ | ⟨a, b, hab, rfl, rfl⟩ | ⟨a, b, hab, rfl, rfl⟩, rfl, rfl⟩
      · exact Or.inl ⟨b, hab, hf A.sinks b⟩
      · exact Or.inr (Or.inl ⟨a, b, hab, hf B.sources a, hg B.sinks b⟩)
      · exact Or.inr (Or.inr ⟨a, hab, hg C.sources a⟩)
  edge_node := by
    rintro x y (⟨a, b, hab, rfl, rfl⟩ | ⟨a, b, hab, rfl, rfl⟩ | ⟨a, b, hab, rfl, rfl⟩)
    · obtain ⟨ha, hb⟩ := h.front.soundL.edge_mem a b hab
      obtain ⟨n, hn⟩ := (A.nodes.mem_keys_iff a).1 ha
      refine ⟨⟨n, Or.inl ⟨fun hs => h.front.soundL.sinks_out a hs b hab, hn⟩⟩, ?_⟩
      rcases h.front.place_sink Sum.inl hb with ⟨m, hs, hm, he⟩ | ⟨i, m, hm, he⟩ <;> rw [he]
      · exact ⟨m, Or.inl ⟨hs, hm⟩⟩
      · exact ⟨m, hm⟩
    · obtain ⟨ha, hb⟩ := h.back.soundL.edge_mem a b hab
      constructor
      · rcases h.front.place_source Sum.inl ha with ⟨m, hs, hm, he⟩ | ⟨i, m, hm, he⟩ <;> rw [he]
        · exact ⟨m, Or.inr (Or.inl ⟨hs, fun ht => h.back.soundL.sinks_out a ht b hab, hm⟩)⟩
        · exact ⟨m, hm⟩
      · rcases h.back.place_sink Sum.inr hb with ⟨m, hs, hm, he⟩ | ⟨i, m, hm, he⟩ <;> rw [he]
        · exact ⟨m, Or.inr (Or.inl ⟨fun ht => h.back.soundL.sources_in b ht a hab, hs, hm⟩)⟩
        · exact ⟨m, hm⟩
    · obtain ⟨ha, hb⟩ := h.back.soundR.edge_mem a b hab
      obtain ⟨n, hn⟩ := (C.nodes.mem_keys_iff b).1 hb
      refine ⟨?_, n, Or.inr (Or.inr ⟨fun hs => h.back.soundR.sources_in b hs a hab, hn⟩)⟩
      rcases h.back.place_source Sum.inr ha with ⟨m, hs, hm, he⟩ | ⟨i, m, hm, he⟩ <;> rw [he]
      · exact ⟨m, Or.inr (Or.inr ⟨hs, hm⟩)⟩
      · exact ⟨m, hm⟩
  leaves := hp.leaves
  sources := hp.sources
  sinks := hp.sinks
  option := hp.option
  abortChannel := hp.abortChannel

/-- The sinks of the second pipeline are as they were in its merge with the first. -/
theorem joint_front {AB : Pipeline V} (hm : Merged A B f AB) (j : Nat) (n : Processor V) :
    Joint AB C j n ↔ Joint B C j n := by
  have hget : ∀ a ∈ B.sinks, AB.nodes.get a = B.nodes.get a := fun a ha =>
    hm.right a (h.back.soundL.sink_mem ha) (fun hs => h.back.soundL.source_not_sink hs ha)
  constructor
  · rintro ⟨a, b, s, t, ha, hb, hs, hrest⟩
    rw [hm.sinks] at ha
    exact ⟨a, b, s, t, ha, hb, hget a (List.mem_of_getElem? ha) ▸ hs, hrest⟩
  · rintro ⟨a, b, s, t, ha, hb, hs, hrest⟩
    exact ⟨a, b, s, t, hm.sinks ▸ ha, hb, (hget a (List.mem_of_getElem? ha)).trans hs, hrest⟩

/-- The sources of the second pipeline are as they were in its merge with the third. -/
theorem joint_back {BC : Pipeline V} (hm : Merged B C g BC) (i : Nat) (n : Processor V) :
    Joint A BC i n ↔ Joint A B i n := by
  have hget : ∀ b ∈ B.sources, BC.nodes.get b = B.nodes.get b := fun b hb =>
    hm.left b (h.back.soundL.source_mem hb) (h.back.soundL.source_not_sink hb)
  constructor
  · rintro ⟨a, b, s, t, ha, hb, hs, ht, hrest⟩
    rw [hm.sources] at hb
    exact ⟨a, b, s, t, ha, hb, hs, hget b (List.mem_of_getElem? hb) ▸ ht, hrest⟩
  · rintro ⟨a, b, s, t, ha, hb, hs, ht, hrest⟩
    exact ⟨a, b, s, t, ha, hm.sources ▸ hb, hs, (hget b (List.mem_of_getElem? hb)).trans ht, hrest⟩

/-- The third pipeline merged with the merge of the first two. -/
theorem left {AB : Pipeline V} {U : Finset Id} (hm : Joined A B UA UB f AB)
    (hp : Joined AB C U UC g p) : Chained A B C f g p where
  get u n := by
    rw [hp.merged.get_iff, hm.merged.get_iff, hm.merged.sinks]
    simp only [h.joint_front hm.merged]
    constructor
    · rintro (⟨hs, hA | ⟨hr, hB⟩ | hf⟩ | hC | hg)
      · exact Or.inl hA
      · exact Or.inr (Or.inl ⟨hr, hs, hB⟩)
      · exact Or.inr (Or.inr (Or.inr (Or.inl hf)))
      · exact Or.inr (Or.inr (Or.inl hC))
      · exact Or.inr (Or.inr (Or.inr (Or.inr hg)))
    · rintro (⟨hs, hA⟩ | ⟨hr, hs, hB⟩ | hC | ⟨i, hi, rfl⟩ | hg)
      · exact Or.inl ⟨h.sinks_of_front (h.front.soundL.keys (PMap.mem_keys_of_get hA)), Or.inl ⟨hs, hA⟩⟩
      · exact Or.inl ⟨hs, Or.inr (Or.inl ⟨hr, hB⟩)⟩
      · exact Or.inr (Or.inl hC)
      · exact Or.inl ⟨h.front_notMem_sinks hi.lt, Or.inr (Or.inr ⟨i, hi, rfl⟩)⟩
      · exact Or.inr (Or.inr hg)
  edges u v := by
    -- an edge of the first pipeline leads to no sink of the second, so that the second merge keeps its name
    have hA : ∀ {b}, A.Edge u b → mergedName B.sinks g (mergedName A.sinks f b) = mergedName A.sinks f b := by
      intro b hb
      refine mergedName_of_notMem (fun hs => mergedName_notMem (S := B.sinks.toFinset) ?_ (fun i hi hs =>
        ?_) (List.mem_toFinset.2 hs))
      · exact fun hs => h.sinks_of_front (h.front.soundL.keys (h.front.soundL.edge_mem u b hb).2)
          (List.mem_toFinset.1 hs)
      · exact h.front_notMem_sinks hi (List.mem_toFinset.1 hs)
    rw [hp.merged.edges]
    simp only [hm.merged.edges, hm.merged.sinks]
    constructor
    · rintro (⟨w, ⟨b, hb, rfl⟩ | ⟨a, ha, rfl⟩, rfl⟩ | hC)
      · exact Or.inl ⟨b, hb, hA hb⟩
      · exact Or.inr (Or.inl ⟨a, w, ha, rfl, rfl⟩)
      · exact Or.inr (Or.inr hC)
    · rintro (⟨b, hb, rfl⟩ | ⟨a, b, hab, rfl, rfl⟩ | hC)
      · exact Or.inl ⟨_, Or.inl ⟨b, hb, rfl⟩, (hA hb).symm⟩
      · exact Or.inl ⟨b, Or.inr ⟨a, hab, rfl⟩, rfl⟩
      · exact Or.inr hC
  leaves := hp.merged.leaves
  sources := hp.merged.sources.trans hm.merged.sources
  sinks := hp.merged.sinks
  option := by rw [hp.option, hm.option]
  abortChannel := hp.abortChannel

/-- The first pipeline merged with the merge of the others. -/
theorem right {BC : Pipeline V} {U : Finset Id} (hm : Joined B C UB UC g BC)
    (hp : Joined A BC UA U f p) : Chained A B C f g p where
  get u n := by
    rw [hp.merged.get_iff, hm.merged.get_iff, hm.merged.sources]
    simp only [h.joint_back hm.merged]
    constructor
    · rintro (hA | ⟨hr, ⟨hs, hB⟩ | hC | hg⟩ | hf)
      · exact Or.inl hA
      · exact Or.inr (Or.inl ⟨hr, hs, hB⟩)
      · exact Or.inr (Or.inr (Or.inl hC))
      · exact Or.inr (Or.inr (Or.inr (Or.inr hg)))
      · exact Or.inr (Or.inr (Or.inr (Or.inl hf)))
    · rintro (hA | ⟨hr, hs, hB⟩ | ⟨hs, hC⟩ | hf | ⟨j, hj, rfl⟩)
      · exact Or.inl hA
      · exact Or.inr (Or.inl ⟨hr, Or.inl ⟨hs, hB⟩⟩)
      · exact Or.inr (Or.inl ⟨h.sources_of_back (h.back.soundR.keys (PMap.mem_keys_of_get hC)),
          Or.inr (Or.inl ⟨hs, hC⟩)⟩)
      · exact Or.inr (Or.inr hf)
      · exact Or.inr (Or.inl ⟨h.back_notMem_sources hj.lt, Or.inr (Or.inr ⟨j, hj, rfl⟩)⟩)
  edges u v := by
    -- an edge of the third pipeline comes from no source of the second
    have hC : ∀ {a}, C.Edge a v → mergedName B.sources f (mergedName C.sources g a) = mergedName C.sources g a := by
      intro a ha
      refine mergedName_of_notMem (fun hs => mergedName_notMem (S := B.sources.toFinset) ?_ (fun i hi hs =>
        ?_) (List.mem_toFinset.2 hs))
      · exact fun hs => h.sources_of_back (h.back.soundR.keys (h.back.soundR.edge_mem a v ha).1)
          (List.mem_toFinset.1 hs)
      · exact h.back_notMem_sources (h.back.len ▸ hi) (List.mem_toFinset.1 hs)
    rw [hp.merged.edges]
    simp only [hm.merged.edges, hm.merged.sources]
    constructor
    · rintro (hA | ⟨w, ⟨b, hb, rfl⟩ | ⟨a, ha, rfl⟩, rfl⟩)
      · exact Or.inl hA
      · exact Or.inr (Or.inl ⟨w, b, hb, rfl, rfl⟩)
      · exact Or.inr (Or.inr ⟨a, ha, hC ha⟩)
    · rintro (hA | ⟨a, b, hab, rfl, rfl⟩ | ⟨a, ha, rfl⟩)
      · exact Or.inl hA
      · exact Or.inr ⟨a, Or.inl ⟨b, hab, rfl⟩, rfl⟩
      · exact Or.inr ⟨_, Or.inr ⟨a, ha, rfl⟩, (hC ha).symm⟩
  leaves := hp.merged.leaves
  sources := hp.merged.sources
  sinks := hp.merged.sinks.trans hm.merged.sinks
  option := by
    rw [hp.option, hm.option]
    simp only [mergedOption, List.append_assoc, Bool.and_assoc]
  abortChannel := hp.abortChannel

end

end ChainReady

end

/-! ## `MergePipeline` as an operation -/

/-- Names that `GenerateId` gave to `k` new processors: they differ, and none of them is known already. -/
structure FreshIds (noopId : Nat → Id) (k : Nat) (U : Finset Id) : Prop where
  nodup : ((List.range k).map noopId).Nodup
  new : ∀ i < k, noopId i ∉ U

/-- The names of `k` new processors. -/
def newIds (noopId : Nat → Id) (k : Nat) : Finset Id := ((List.range k).map noopId).toFinset

theorem mem_newIds {i : Nat} (hi : i < k) : noopId i ∈ newIds noopId k :=
  List.mem_toFinset.2 (List.mem_map_of_mem (List.mem_range.2 hi))

theorem FreshIds.mono {U' : Finset Id} (h : FreshIds noopId k U) (hU : U' ⊆ U) : FreshIds noopId k U' :=
  ⟨h.nodup, fun i hi hm => h.new i hi (hU hm)⟩

/-- The ids of two pipelines and the new names stay apart from those of a third. -/
theorem FreshIds.disjoint {V W : Finset Id} (h : FreshIds noopId k W) (hU : Disjoint U W) (hV : Disjoint V W) :
    Disjoint (U ∪ V ∪ newIds noopId k) W := by
  rw [Finset.disjoint_union_left, Finset.disjoint_union_left]
  refine ⟨⟨hU, hV⟩, Finset.disjoint_left.2 (fun x hx => ?_)⟩
  obtain ⟨i, hi, rfl⟩ := List.mem_map.1 (List.mem_toFinset.1 hx)
  exact h.new i (List.mem_range.1 hi)

/-- Two results are the same up to names that are not in `U`: both calls threw, or both returned pipelines that are. -/
def SameUpTo (U : Finset Id) (x y : Except BuildError (Pipeline V)) : Prop :=
  ((∃ p, x = .ok p) ↔ ∃ p, y = .ok p) ∧ ∀ p p', x = .ok p → y = .ok p' → ∃ ρ :
    Id → Id, (∀ u ∈ U, ρ u = u) ∧ Renamed ρ p p'

theorem SameUpTo.refl (U : Finset Id) (x : Except BuildError (Pipeline V)) : SameUpTo U x x := by
  refine ⟨Iff.rfl, fun p p' hp hp' => ⟨id, fun _ _ => rfl, ?_⟩⟩
  rw [hp] at hp'
  cases hp'
  exact Renamed.refl p

theorem SameUpTo.of_errors {x y : Except BuildError (Pipeline V)} (hx : ∀ p, x ≠ .ok p) (hy : ∀ p, y ≠ .ok p) :
    SameUpTo U x y :=
  ⟨⟨fun ⟨p, hp⟩ => absurd hp (hx p), fun ⟨p, hp⟩ => absurd hp (hy p)⟩, fun p _ hp _ => absurd hp (hx p)⟩

section

variable {l r p : Pipeline V} {noopId : Nat → Id}

/-- A merge before a pipeline without processors. -/
theorem mergePipeline_left_empty (hl : l.nodes.keys = ∅) (hlc : l.leaves = ∅) (hrc : r.leaves = ∅) :
    l.mergePipeline r noopId = .ok r := by
  have hl0 : l.getProcessorSize = 0 := Finset.card_eq_zero.2 hl
  simp [Pipeline.mergePipeline, Pipeline.isCompleted, hlc, hrc, hl0]

/-- A merge of a pipeline with processors before one without. -/
theorem mergePipeline_right_empty (hl : l.nodes.keys ≠ ∅) (hr : r.nodes.keys = ∅) (hlc : l.leaves = ∅)
    (hrc : r.leaves = ∅) :
    l.mergePipeline r noopId = .ok l := by
  have hl0 : l.getProcessorSize ≠ 0 := fun h0 => hl (Finset.card_eq_zero.1 h0)
  have hr0 : r.getProcessorSize = 0 := Finset.card_eq_zero.2 hr
  simp [Pipeline.mergePipeline, Pipeline.isCompleted, hlc, hrc, hl0, hr0]

/-- Incomplete pipelines are not merged. -/
theorem mergePipeline_incomplete (h : ¬(l.leaves = ∅ ∧ r.leaves = ∅)) : l.mergePipeline r noopId ≠ .ok p := by
  have hc : (!l.isCompleted || !r.isCompleted) = true := by
    simp only [Pipeline.isCompleted, Bool.or_eq_true, Bool.not_eq_true', decide_eq_false_iff_not]
    tauto
  simp [Pipeline.mergePipeline, hc]

/-- Nor those whose ends do not match. -/
theorem mergePipeline_mismatch (hl : l.nodes.keys ≠ ∅) (hr : r.nodes.keys ≠ ∅) (h : l.sinks.length ≠ r.sources.length) :
    l.mergePipeline r noopId ≠ .ok p := by
  have hl0 : l.getProcessorSize ≠ 0 := fun h0 => hl (Finset.card_eq_zero.1 h0)
  have hr0 : r.getProcessorSize ≠ 0 := fun h0 => hr (Finset.card_eq_zero.1 h0)
  unfold Pipeline.mergePipeline
  simp only [hl0, hr0, h, if_false, ne_eq, not_false_eq_true, if_true]
  split <;> nofun

end

section

variable {l r p : Pipeline V} {UL UR : Finset Id} {noopId : Nat → Id}

/-- The merge of two pipelines with processors. -/
theorem mergePipeline_joined (hl : Sound l UL) (hr : Sound r UR) (hdis : Disjoint UL UR)
    (hf : FreshIds noopId l.sinks.length (UL ∪ UR)) (hlc : l.leaves = ∅) (hrc : r.leaves = ∅) (hln : l.nodes.keys ≠ ∅)
    (hrn : r.nodes.keys ≠ ∅) (hlen : l.sinks.length = r.sources.length) :
    ∃ p, l.mergePipeline r noopId = .ok p ∧ Joined l r UL UR noopId p := by
  have hready : MergeReady l r UL UR noopId := ⟨hl, hr, hdis, hf.nodup, hf.new, hlen⟩
  obtain ⟨p, hp, hm, ho, ha⟩ := hready.merge hlc hrc hln hrn
  exact ⟨p, hp, hready, hm, ho, ha⟩

/-- What a merge returns is completed. -/
theorem mergePipeline_leaves (hl : Sound l UL) (hr : Sound r UR) (hdis : Disjoint UL UR)
    (hf : FreshIds noopId l.sinks.length (UL ∪ UR)) (h : l.mergePipeline r noopId = .ok p) : p.leaves = ∅ := by
  obtain ⟨hlc, hrc, ⟨-, rfl⟩ | ⟨-, rfl⟩ | ⟨-, -, -, hm⟩⟩ := mergePipeline_ok hl hr hdis hf.nodup hf.new h
  · exact hrc
  · exact hlc
  · exact hm.leaves

/-- A merge has processors: the sinks of the right are there. -/
theorem Merged.nonempty (hready : MergeReady l r UL UR noopId) (h : Merged l r noopId p) (hrc : r.leaves = ∅)
    (hrn : r.nodes.keys ≠ ∅) :
    p.nodes.keys ≠ ∅ := by
  obtain ⟨u, hu⟩ := Finset.nonempty_iff_ne_empty.2 hrn
  obtain ⟨t, ht, -⟩ := hready.soundR.reaches_sink hrc u hu
  have hmem := (h.keys t).2 (Or.inr (Or.inl ⟨hready.soundR.sink_mem ht, fun hs => hready.soundR.source_not_sink hs ht⟩))
  exact Finset.ne_empty_of_mem hmem

/-- The merged pipeline is sound. -/
theorem Joined.sound (h : Joined l r UL UR noopId p) (hlc : l.leaves = ∅) (hrc : r.leaves = ∅) :
    Sound p (UL ∪ UR ∪ newIds noopId l.sinks.length) :=
  Sound.merged h.ready h.merged hlc hrc

/-- What one merge gives does not depend on the names of the new processors. -/
theorem mergePipeline_sameUpTo {noopId' : Nat → Id} {U : Finset Id} (hl : Sound l UL) (hr : Sound r UR)
    (hdis : Disjoint UL UR) (hU : UL ∪ UR ⊆ U) (hf : FreshIds noopId l.sinks.length U)
    (hf' : FreshIds noopId' l.sinks.length U) (hlc : l.leaves = ∅) (hrc : r.leaves = ∅) :
    SameUpTo U (l.mergePipeline r noopId) (l.mergePipeline r noopId') := by
  by_cases hln : l.nodes.keys = ∅
  · rw [mergePipeline_left_empty hln hlc hrc, mergePipeline_left_empty hln hlc hrc]
    exact .refl U _
  by_cases hrn : r.nodes.keys = ∅
  · rw [mergePipeline_right_empty hln hrn hlc hrc, mergePipeline_right_empty hln hrn hlc hrc]
    exact .refl U _
  by_cases hlen : l.sinks.length = r.sources.length
  · obtain ⟨p, hp, hj⟩ := mergePipeline_joined hl hr hdis (hf.mono hU) hlc hrc hln hrn hlen
    obtain ⟨p', hp', hj'⟩ := mergePipeline_joined hl hr hdis (hf'.mono hU) hlc hrc hln hrn hlen
    rw [hp, hp']
    refine ⟨⟨fun _ => ⟨p', rfl⟩, fun _ => ⟨p, rfl⟩⟩, fun _ _ h h' => ?_⟩
    cases h
    cases h'
    refine hj.realized.renamed hj'.realized (fun i n hi => hf.new i (Joint.lt hi)) (fun u hu => ?_) (fun u hu => ?_)
    · exact hU (Finset.mem_union_left _ (hl.keys (hl.source_mem hu)))
    · exact hU (Finset.mem_union_right _ (hr.keys (hr.sink_mem hu)))
  · exact .of_errors (fun p => mergePipeline_mismatch hln hrn hlen) (fun p => mergePipeline_mismatch hln hrn hlen)

end

/-! ## Three pipelines -/

/-- `MergePipeline(MergePipeline(A, B), C)`. -/
def mergeLeft (A B C : Pipeline V) (m m' : Nat → Id) : Except BuildError (Pipeline V) := do
  let AB ← A.mergePipeline B m
  AB.mergePipeline C m'

/-- `MergePipeline(A, MergePipeline(B, C))`. -/
def mergeRight (A B C : Pipeline V) (n n' : Nat → Id) : Except BuildError (Pipeline V) := do
  let BC ← B.mergePipeline C n
  A.mergePipeline BC n'

/-- Three pipelines with ids of their own. -/
structure Apart (A B C : Pipeline V) (UA UB UC : Finset Id) : Prop where
  soundA : Sound A UA
  soundB : Sound B UB
  soundC : Sound C UC
  disAB : Disjoint UA UB
  disAC : Disjoint UA UC
  disBC : Disjoint UB UC

/-- The names of the new processors are new when they are given, in both orders of merging. -/
structure OrderIds (A B : Pipeline V) (U : Finset Id) (m m' n n' : Nat → Id) : Prop where
  left : FreshIds m A.sinks.length U
  left' : ∀ AB, A.mergePipeline B m = .ok AB → FreshIds m' AB.sinks.length (U ∪ newIds m A.sinks.length)
  right : FreshIds n B.sinks.length U
  right' : FreshIds n' A.sinks.length (U ∪ newIds n B.sinks.length)

section

variable {A B C : Pipeline V} {UA UB UC : Finset Id} {m m' n n' : Nat → Id}

/-- The left one first, if it works. -/
theorem mergeLeft_ok {AB : Pipeline V} (h : A.mergePipeline B m = .ok AB) :
    mergeLeft A B C m m' = AB.mergePipeline C m' := by
  rw [mergeLeft, h]
  rfl

/-- The right one first, if it works. -/
theorem mergeRight_ok {BC : Pipeline V} (h : B.mergePipeline C n = .ok BC) :
    mergeRight A B C n n' = A.mergePipeline BC n' := by
  rw [mergeRight, h]
  rfl

/-- A merge of three throws as soon as one of its two steps does. -/
theorem mergeLeft_ne_ok {p : Pipeline V} (h : ∀ AB, A.mergePipeline B m = .ok AB → AB.mergePipeline C m' ≠ .ok p) :
    mergeLeft A B C m m' ≠ .ok p := by
  intro hp
  obtain ⟨AB, hAB, hp⟩ := bind_ok hp
  exact h AB hAB hp

/-- It fails where the second merge does. -/
theorem mergeRight_ne_ok {p : Pipeline V} (h : ∀ BC, B.mergePipeline C n = .ok BC → A.mergePipeline BC n' ≠ .ok p) :
    mergeRight A B C n n' ≠ .ok p := by
  intro hp
  obtain ⟨BC, hBC, hp⟩ := bind_ok hp
  exact h BC hBC hp

/-- Neither order goes through when one of the three is not completed. -/
theorem assoc_incomplete {U : Finset Id} (h : ¬(A.leaves = ∅ ∧ B.leaves = ∅ ∧ C.leaves = ∅)) :
    SameUpTo U (mergeLeft A B C m m') (mergeRight A B C n n') := by
  refine .of_errors (fun p => mergeLeft_ne_ok (fun AB hAB => ?_)) (fun p => mergeRight_ne_ok (fun BC hBC => ?_))
  · refine mergePipeline_incomplete (fun hc => ?_)
    have hab : A.leaves = ∅ ∧ B.leaves = ∅ := not_not.1 (fun hn => mergePipeline_incomplete hn hAB)
    exact h ⟨hab.1, hab.2, hc.2⟩
  · refine mergePipeline_incomplete (fun hc => ?_)
    have hbc : B.leaves = ∅ ∧ C.leaves = ∅ := not_not.1 (fun hn => mergePipeline_incomplete hn hBC)
    exact h ⟨hc.1, hbc.1, hbc.2⟩

section

variable (h : Apart A B C UA UB UC) (hid : OrderIds A B (UA ∪ UB ∪ UC) m m' n n') (hA : A.leaves = ∅)
  (hB : B.leaves = ∅) (hC : C.leaves = ∅)
include h hid hA hB hC

/-- Nothing is before the second pipeline: both orders merge it with the third. -/
theorem assoc_first_empty (hAn : A.nodes.keys = ∅) :
    SameUpTo (UA ∪ UB ∪ UC) (mergeLeft A B C m m') (mergeRight A B C n n') := by
  have hsub : UB ∪ UC ⊆ UA ∪ UB ∪ UC := Finset.union_subset_union_left Finset.subset_union_right
  have hAB : A.mergePipeline B m = .ok B := mergePipeline_left_empty hAn hA hB
  have hright : mergeRight A B C n n' = B.mergePipeline C n := by
    rcases hBC : B.mergePipeline C n with e | BC
    · rw [mergeRight, hBC]
      rfl
    · rw [mergeRight_ok hBC]
      exact mergePipeline_left_empty hAn hA (mergePipeline_leaves h.soundB h.soundC h.disBC (hid.right.mono hsub) hBC)
  rw [mergeLeft_ok hAB, hright]
  exact mergePipeline_sameUpTo h.soundB h.soundC h.disBC hsub ((hid.left' B hAB).mono Finset.subset_union_left)
    hid.right hB hC

/-- Nothing is between the first pipeline and the third. -/
theorem assoc_middle_empty (hAn : A.nodes.keys ≠ ∅) (hBn : B.nodes.keys = ∅) :
    SameUpTo (UA ∪ UB ∪ UC) (mergeLeft A B C m m') (mergeRight A B C n n') := by
  have hsub : UA ∪ UC ⊆ UA ∪ UB ∪ UC := Finset.union_subset_union_left Finset.subset_union_left
  have hAB : A.mergePipeline B m = .ok A := mergePipeline_right_empty hAn hBn hA hB
  have hBC : B.mergePipeline C n = .ok C := mergePipeline_left_empty hBn hB hC
  rw [mergeLeft_ok hAB, mergeRight_ok hBC]
  exact mergePipeline_sameUpTo h.soundA h.soundC h.disAC hsub ((hid.left' A hAB).mono Finset.subset_union_left)
    (hid.right'.mono Finset.subset_union_left) hA hC

/-- Nothing is behind the second pipeline: both orders merge the first with it. -/
theorem assoc_last_empty (hAn : A.nodes.keys ≠ ∅) (hBn : B.nodes.keys ≠ ∅) (hCn : C.nodes.keys = ∅) :
    SameUpTo (UA ∪ UB ∪ UC) (mergeLeft A B C m m') (mergeRight A B C n n') := by
  have hsub : UA ∪ UB ⊆ UA ∪ UB ∪ UC := Finset.subset_union_left
  have hBC : B.mergePipeline C n = .ok B := mergePipeline_right_empty hBn hCn hB hC
  have hleft : mergeLeft A B C m m' = A.mergePipeline B m := by
    rcases hAB : A.mergePipeline B m with e | AB
    · rw [mergeLeft, hAB]
      rfl
    · obtain ⟨-, -, ⟨hAn', -⟩ | ⟨hBn', -⟩ | ⟨-, -, hready, hm⟩⟩ :=
        mergePipeline_ok h.soundA h.soundB h.disAB hid.left.nodup
        (hid.left.mono hsub).new hAB
      · exact absurd hAn' hAn
      · exact absurd hBn' hBn
      · rw [mergeLeft_ok hAB]
        exact mergePipeline_right_empty (Merged.nonempty hready hm hB hBn) hCn hm.leaves hC
  rw [hleft, mergeRight_ok hBC]
  exact mergePipeline_sameUpTo h.soundA h.soundB h.disAB hsub hid.left (hid.right'.mono Finset.subset_union_left) hA hB

/-- Three pipelines with processors: both orders make one chain. -/
theorem assoc_chain (hAn : A.nodes.keys ≠ ∅) (hBn : B.nodes.keys ≠ ∅) (hCn : C.nodes.keys ≠ ∅) :
    SameUpTo (UA ∪ UB ∪ UC) (mergeLeft A B C m m') (mergeRight A B C n n') := by
  have hsubAB : UA ∪ UB ⊆ UA ∪ UB ∪ UC := Finset.subset_union_left
  have hsubBC : UB ∪ UC ⊆ UA ∪ UB ∪ UC := Finset.union_subset_union_left Finset.subset_union_right
  by_cases hlenAB : A.sinks.length = B.sources.length
  swap
  · -- the sources of the second pipeline are those of its merge with the third
    refine .of_errors (fun p => mergeLeft_ne_ok (fun AB hAB => absurd hAB (mergePipeline_mismatch hAn hBn hlenAB)))
      (fun p => mergeRight_ne_ok (fun BC hBC => ?_))
    obtain ⟨-, -, ⟨hBn', -⟩ | ⟨hCn', -⟩ | ⟨-, -, hready, hm⟩⟩ :=
      mergePipeline_ok h.soundB h.soundC h.disBC hid.right.nodup
      (hid.right.mono hsubBC).new hBC
    · exact absurd hBn' hBn
    · exact absurd hCn' hCn
    · exact mergePipeline_mismatch hAn (Merged.nonempty hready hm hC hCn) (by rwa [hm.sources])
  obtain ⟨AB, hAB, hjAB⟩ := mergePipeline_joined h.soundA h.soundB h.disAB (hid.left.mono hsubAB) hA hB hAn hBn hlenAB
  have hABn := Merged.nonempty hjAB.ready hjAB.merged hB hBn
  rw [mergeLeft_ok hAB]
  by_cases hlenBC : B.sinks.length = C.sources.length
  swap
  · refine .of_errors (fun p => mergePipeline_mismatch hABn hCn (by rwa [hjAB.merged.sinks]))
      (fun p => mergeRight_ne_ok (fun BC hBC => absurd hBC (mergePipeline_mismatch hBn hCn hlenBC)))
  obtain ⟨BC, hBC, hjBC⟩ := mergePipeline_joined h.soundB h.soundC h.disBC (hid.right.mono hsubBC) hB hC hBn hCn hlenBC
  have hBCn := Merged.nonempty hjBC.ready hjBC.merged hC hCn
  rw [mergeRight_ok hBC]
  have hm' := hid.left' AB hAB
  obtain ⟨p, hp, hj⟩ : ∃ p, AB.mergePipeline C m' = .ok p ∧ Joined AB C (UA ∪ UB ∪ newIds m A.sinks.length) UC m' p :=
    mergePipeline_joined (hjAB.sound hA hB) h.soundC ((hid.left.mono Finset.subset_union_right).disjoint h.disAC
      h.disBC)
      (hm'.mono (by grind)) hjAB.merged.leaves hC hABn hCn (by rwa [hjAB.merged.sinks])
  obtain ⟨p', hp', hj'⟩ : ∃ p, A.mergePipeline BC n' = .ok p ∧
    Joined A BC UA (UB ∪ UC ∪ newIds n B.sinks.length) n' p :=
    mergePipeline_joined h.soundA (hjBC.sound hB hC)
      ((hid.right.mono (by grind)).disjoint h.disAB.symm h.disAC.symm).symm
      (hid.right'.mono (by grind)) hA hjBC.merged.leaves hAn hBCn (by rwa [hjBC.merged.sources])
  rw [hjAB.merged.sinks] at hm'
  have hready : ChainReady A B C UA UB UC m m' := by
    refine ⟨hjAB.ready, ⟨h.soundB, h.soundC, h.disBC, hm'.nodup, (hm'.mono (by grind)).new, hlenBC⟩, h.disAC, ?_, ?_,
      ?_⟩
    · exact (hid.left.mono Finset.subset_union_right).new
    · exact (hm'.mono (by grind)).new
    · exact fun i hi j hj he => hm'.new j hj (Finset.mem_union_right _ (he ▸ mem_newIds hi))
  have hready' : ChainReady A B C UA UB UC n' n := by
    refine ⟨⟨h.soundA, h.soundB, h.disAB, hid.right'.nodup, (hid.right'.mono (by grind)).new, hlenAB⟩, hjBC.ready,
      h.disAC, ?_, ?_, ?_⟩
    · exact (hid.right'.mono (by grind)).new
    · exact (hid.right.mono (by grind)).new
    · exact fun i hi j hj he => hid.right'.new i hi (Finset.mem_union_right _ (he ▸ mem_newIds hj))
  rw [hp, hp']
  refine ⟨⟨fun _ => ⟨p', rfl⟩, fun _ => ⟨p, rfl⟩⟩, fun _ _ he he' => ?_⟩
  cases he
  cases he'
  refine (hready.realized (hready.left hjAB hj)).renamed (hready'.realized (hready'.right hjBC hj')) ?_ (fun u hu =>
    ?_) (fun u hu => ?_)
  · rintro (i | j) k hk
    · exact hid.left.new i (Joint.lt hk)
    · exact (hm'.mono Finset.subset_union_left).new j (Joint.lt hk)
  · exact Finset.mem_union_left _ (Finset.mem_union_left _ (h.soundA.keys (h.soundA.source_mem hu)))
  · exact Finset.mem_union_right _ (h.soundC.keys (h.soundC.sink_mem hu))

end

end

/-- `MergePipeline` of three pipelines with ids of their own throws in the one order if and only if it does in the
other, and the results are the same up to the names of the new processors. A pipeline without processors is an identity
of it: on the left of any completed pipeline, and on the right of any completed pipeline that has processors. Of two
pipelines without processors the right one is returned. -/
theorem merge_assoc {A B C : Pipeline V} {UA UB UC : Finset Id} {m m' n n' : Nat → Id} (h : Apart A B C UA UB UC)
    (hid : OrderIds A B (UA ∪ UB ∪ UC) m m' n n') :
    SameUpTo (UA ∪ UB ∪ UC) (mergeLeft A B C m m') (mergeRight A B C n n') ∧
    ∀ (E P : Pipeline V) (UE UP : Finset Id) (noopId : Nat → Id), Sound E UE → Sound P UP → E.nodes.keys = ∅ →
    P.isCompleted = true →
      E.mergePipeline P noopId = .ok P ∧ (P.nodes.keys ≠ ∅ → P.mergePipeline E noopId = .ok P) ∧
      (P.nodes.keys = ∅ → P.mergePipeline E noopId = .ok E) := by
  constructor
  · by_cases hc : A.leaves = ∅ ∧ B.leaves = ∅ ∧ C.leaves = ∅
    swap
    · exact assoc_incomplete hc
    obtain ⟨hA, hB, hC⟩ := hc
    by_cases hAn : A.nodes.keys = ∅
    · exact assoc_first_empty h hid hA hB hC hAn
    by_cases hBn : B.nodes.keys = ∅
    · exact assoc_middle_empty h hid hA hB hC hAn hBn
    by_cases hCn : C.nodes.keys = ∅
    · exact assoc_last_empty h hid hA hB hC hAn hBn hCn
    · exact assoc_chain h hid hA hB hC hAn hBn hCn
  · intro E P UE UP noopId hE hP hEn hPc
    have hEc : E.leaves = ∅ := by
      refine Finset.eq_empty_of_forall_notMem (fun u hu => ?_)
      have := ((hE.leaves_iff u).1 hu).1
      rw [hEn] at this
      simp at this
    rw [Pipeline.isCompleted_iff] at hPc
    exact ⟨mergePipeline_left_empty hEn hEc hPc, fun hPn => mergePipeline_right_empty hPn hEn hPc hEc,
      fun hPn => mergePipeline_left_empty hPn hPc hEc⟩

/-- A source before a sink, and their ids. -/
def shortPipeline (source sink : Id) : Pipeline Nat × Finset Id :=
  Pipeline.ofCalls (fun _ => True) {} [.addSource source "source" (.generate (fun _ => none)),
    .setSink sink "sink" .consume ⟨[source], by simp⟩]

theorem sound_shortPipeline (source sink : Id) : Sound (shortPipeline source sink).1 (shortPipeline source sink).2 :=
  built_sound (built_ofCalls (fun _ => True) _ _)

/-- Ids counted from a bound are new. -/
theorem freshIds_add (c k : Nat) (h : ∀ u ∈ U, u < c) : FreshIds (c + ·) k U where
  nodup := List.Nodup.map (fun a b he => by simpa using he) List.nodup_range
  new i _ hm := absurd (h _ hm) (by simp)

/-- Three pipelines of a source and a sink each: both orders return. -/
theorem merge_assoc_short :
    ∃ p p', mergeLeft (shortPipeline 1 2).1 (shortPipeline 3 4).1 (shortPipeline 5 6).1 (10 + ·) (20 + ·) = .ok p ∧
    mergeRight (shortPipeline 1 2).1 (shortPipeline 3 4).1 (shortPipeline 5 6).1 (30 + ·) (40 + ·) = .ok p' ∧
    ∃ ρ, (∀ u ∈ (shortPipeline 1 2).2 ∪ (shortPipeline 3 4).2 ∪ (shortPipeline 5 6).2, ρ u = u) ∧ Renamed ρ p p' := by
  have hap : Apart (shortPipeline 1 2).1 (shortPipeline 3 4).1 (shortPipeline 5 6).1 (shortPipeline 1 2).2
      (shortPipeline 3 4).2
      (shortPipeline 5 6).2 :=
    ⟨sound_shortPipeline 1 2, sound_shortPipeline 3 4, sound_shortPipeline 5 6, by decide, by decide, by decide⟩
  have hid : OrderIds (shortPipeline 1 2).1 (shortPipeline 3 4).1 ((shortPipeline 1 2).2 ∪ (shortPipeline 3 4).2 ∪
      (shortPipeline 5 6).2) (10 + ·) (20 + ·) (30 + ·) (40 + ·) :=
    ⟨freshIds_add 10 _ (by decide), fun _ _ => freshIds_add 20 _ (by decide), freshIds_add 30 _ (by decide),
      freshIds_add 40 _ (by decide)⟩
  obtain ⟨⟨hiff, hsame⟩, -⟩ := merge_assoc hap hid
  have hok : (mergeLeft (shortPipeline 1 2).1 (shortPipeline 3 4).1 (shortPipeline 5 6).1 (10 + ·) (20 + ·)).toBool =
      true := by decide
  obtain ⟨p, hp⟩ : ∃ p, mergeLeft (shortPipeline 1 2).1 (shortPipeline 3 4).1 (shortPipeline 5 6).1 (10 + ·) (20 + ·) =
    .ok p := by
    cases hm : mergeLeft (shortPipeline 1 2).1 (shortPipeline 3 4).1 (shortPipeline 5 6).1 (10 + ·) (20 + ·) with
    | error e =>
      rw [hm] at hok
      cases hok
    | ok p => exact ⟨p, rfl⟩
  obtain ⟨p', hp'⟩ := hiff.1 ⟨p, hp⟩
  exact ⟨p, p', hp, hp', hsame p p' hp hp'⟩

/-- Of two pipelines without processors the right one is returned, under its own name. -/
theorem merge_both_empty : ∃ P E : Pipeline Nat, Sound P ∅ ∧ Sound E ∅ ∧ E.nodes.keys = ∅ ∧ P.isCompleted = true ∧
    P.mergePipeline E (fun _ => 0) ≠ .ok P := by
  refine ⟨.new { name := "first" }, .new { name := "second" }, sound_new _, sound_new _, rfl, rfl, ?_⟩
  rw [mergePipeline_left_empty rfl rfl rfl]
  intro he
  have hname : ("second" : Name) = "first" := congrArg (fun p : Pipeline Nat => p.option.name) (Except.ok.inj he)
  exact absurd hname (by decide)

end Tunnel
