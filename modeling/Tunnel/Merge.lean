import Tunnel.Structure

/-!
# What `MergePipeline` does

`Merged l r noopId p` says what the pipeline made of two completed ones holds: the nodes of both, the sinks of the left
and the sources of the right gone, and one `NoOpTransform` for each pair of them, under whose id the edges of both meet.
`ReplaceSinkIdInDags` renames inside the adjacency sets, `ReplaceSourceIdInDags` moves whole entries through an
accumulator it never clears; both come down to `mergedName`.
-/

namespace Tunnel

open Lib

variable {V : Type}

/-- The name an id has after the merge: the `i`-th of the replaced ids is called `noopId i`. -/
def mergedName (olds : List Id) (noopId : Nat → Id) (v : Id) : Id := if v ∈ olds then noopId (olds.idxOf v) else v

/-- The pipeline that `MergePipeline` makes of two pipelines that have processors. -/
structure Merged (l r : Pipeline V) (noopId : Nat → Id) (p : Pipeline V) : Prop where
  len : l.sinks.length = r.sources.length
  noop : ∀ (i : Nat) (a b : Id), l.sinks[i]? = some a → r.sources[i]? = some b → ∃ s t, l.nodes.get a = some s ∧
    r.nodes.get b = some t ∧ p.nodes.get (noopId i) = some (Pipeline.mergeSinkAndSource s t)
  left : ∀ u ∈ l.nodes.keys, u ∉ l.sinks → p.nodes.get u = l.nodes.get u
  right : ∀ u ∈ r.nodes.keys, u ∉ r.sources → p.nodes.get u = r.nodes.get u
  keys : ∀ u, u ∈ p.nodes.keys ↔ (u ∈ l.nodes.keys ∧ u ∉ l.sinks) ∨ (u ∈ r.nodes.keys ∧ u ∉ r.sources) ∨
    ∃ i < l.sinks.length, u = noopId i
  edges : ∀ u v, p.Edge u v ↔ (∃ b, l.Edge u b ∧ v = mergedName l.sinks noopId b) ∨
    (∃ a, r.Edge a v ∧ u = mergedName r.sources noopId a)
  dagKeys : ∀ u ∈ p.dags.keys, ∃ v, p.Edge u v
  leaves : p.leaves = ∅
  sources : p.sources = l.sources
  sinks : p.sinks = r.sinks
  bind : p.option.bindAbortChannel = (l.option.bindAbortChannel && r.option.bindAbortChannel)

namespace Pipeline

/-- The loop of `ReplaceSinkIdInDags` on one adjacency set. -/
theorem replaceSink_set (ids : List (Id × Id)) : ∀ s : Finset Id, (ids.map (·.1)).Nodup → (ids.map (·.2)).Nodup →
    (∀ x ∈ ids, x.2 ∉ s ∧ x.2 ∉ ids.map (·.1)) →
    ∀ v, v ∈ ids.foldl (fun s x => if x.1 ∈ s then insert x.2 (s.erase x.1) else s) s ↔
      (v ∈ s ∧ v ∉ ids.map (·.1)) ∨ ∃ x ∈ ids, x.1 ∈ s ∧ v = x.2 := by
  induction ids with
  | nil => intro s _ _ _ v; simp
  | cons x ids ih =>
    intro s h1 h2 h3 v
    rw [List.map_cons, List.nodup_cons] at h1 h2
    obtain ⟨hx1, hx2⟩ := h3 x (by simp)
    rw [List.map_cons, List.mem_cons, not_or] at hx2
    -- the set after the first round, and why the other new ids are still new to it
    have hstep : ∀ w, w ∈ (if x.1 ∈ s then insert x.2 (s.erase x.1) else s) ↔
        (w ∈ s ∧ w ≠ x.1) ∨ (x.1 ∈ s ∧ w = x.2) := by
      intro w
      by_cases hs : x.1 ∈ s
      · simp only [hs, if_true, Finset.mem_insert, Finset.mem_erase, true_and]
        tauto
      · simp only [hs, if_false, false_and, or_false]
        constructor
        · intro hw
          exact ⟨hw, fun he => hs (he ▸ hw)⟩
        · exact fun hw => hw.1
    rw [List.foldl_cons, ih _ h1.2 h2.2]
    · simp only [hstep, List.map_cons, List.mem_cons, not_or]
      constructor
      · rintro (⟨⟨hv, hne⟩ | ⟨hs, rfl⟩, hm⟩ | ⟨y, hy, ⟨hys, -⟩ | ⟨-, he⟩, rfl⟩)
        · exact Or.inl ⟨hv, hne, hm⟩
        · exact Or.inr ⟨x, Or.inl rfl, hs, rfl⟩
        · exact Or.inr ⟨y, Or.inr hy, hys, rfl⟩
        · exact absurd (he ▸ List.mem_map_of_mem hy) hx2.2
      · rintro (⟨hv, hne, hm⟩ | ⟨y, rfl | hy, hys, rfl⟩)
        · exact Or.inl ⟨Or.inl ⟨hv, hne⟩, hm⟩
        · exact Or.inl ⟨Or.inr ⟨hys, rfl⟩, hx2.2⟩
        · exact Or.inr ⟨y, hy, Or.inl ⟨hys, fun he => h1.1 (he ▸ List.mem_map_of_mem hy)⟩, rfl⟩
    · intro y hy
      obtain ⟨hy1, hy2⟩ := h3 y (by simp [hy])
      rw [List.map_cons, List.mem_cons, not_or] at hy2
      refine ⟨fun hm => ?_, hy2.2⟩
      rcases (hstep y.2).1 hm with ⟨hm, -⟩ | ⟨-, he⟩
      · exact hy1 hm
      · exact h2.1 (he ▸ List.mem_map_of_mem hy)

/-- The loop goes through the sets of all keys at once. -/
theorem get_replaceSinkIdInDags (dags : PMap Id (Finset Id)) (ids : List (Id × Id)) (u : Id) :
    (replaceSinkIdInDags dags ids).get u =
      (dags.get u).map (fun s => ids.foldl (fun s x => if x.1 ∈ s then insert x.2 (s.erase x.1) else s) s) := by
  unfold replaceSinkIdInDags
  induction ids generalizing dags with
  | nil => simp
  | cons x ids ih =>
    rw [List.foldl_cons, ih, PMap.get_mapVals, Option.map_map]
    rfl

/-- One round of `ReplaceSourceIdInDags`: the new id holds what the old one held, and nothing else changed. The entries
that `add_dag` still holds are all in `dags` already, so that inserting them again does nothing. -/
theorem get_replaceSourceStep {st : PMap Id (Finset Id) × PMap Id (Finset Id)} {x : Id × Id}
    (hnew : st.1.get x.2 = none) (hne : x.2 ≠ x.1) (hadd : ∀ k, st.1.get k = none → st.2.get k = none)
    (hold : st.2.get x.1 = none) (u : Id) :
    (replaceSourceStep st x).1.get u = if u = x.2 then st.1.get x.1 else if u = x.1 then none else st.1.get u := by
  unfold replaceSourceStep
  cases hs : st.1.get x.1 with
  | none =>
    simp only [PMap.get_union]
    by_cases hu2 : u = x.2
    · subst hu2
      simp [hnew, hadd _ hnew]
    · by_cases hu1 : u = x.1
      · subst hu1
        simp [hu2, hs, hadd _ hs]
      · cases hu : st.1.get u with
        | none => simp [hu2, hu1, hadd u hu]
        | some s => simp [hu2, hu1]
  | some s =>
    simp only [PMap.get_union, PMap.get_erase, PMap.get_insert_of_notMem (hadd _ hnew)]
    by_cases hu2 : u = x.2
    · subst hu2
      simp [hnew, hne]
    · by_cases hu1 : u = x.1
      · subst hu1
        simp [hu2, hold]
      · cases hu : st.1.get u with
        | none => simp [hu2, hu1, hadd u hu]
        | some s => simp [hu2, hu1]

/-- What `add_dag` holds after a round is in `dags`, and was there before or is the new id. -/
theorem keys_replaceSourceStep (st : PMap Id (Finset Id) × PMap Id (Finset Id)) (x : Id × Id) {k : Id}
    (hk : k ∈ (replaceSourceStep st x).2.keys) : k ∈ (replaceSourceStep st x).1.keys ∧ (k ∈ st.2.keys ∨ k = x.2) := by
  unfold replaceSourceStep at hk ⊢
  cases hs : st.1.get x.1 with
  | none =>
    rw [hs] at hk
    simp only [PMap.mapVals] at hk
    exact ⟨Finset.mem_union_right _ hk, Or.inl hk⟩
  | some s =>
    rw [hs] at hk
    simp only [PMap.mapVals] at hk
    refine ⟨Finset.mem_union_right _ hk, ?_⟩
    rw [PMap.mem_keys, PMap.get_insert] at hk
    by_cases hkx : k = x.2
    · exact Or.inr hkx
    · rw [if_neg hkx, ← PMap.mem_keys] at hk
      exact Or.inl hk

/-- The rounds of `ReplaceSourceIdInDags`: an entry under an old id is found under the new one. -/
theorem replaceSource_foldl (ids : List (Id × Id)) : ∀ st : PMap Id (Finset Id) × PMap Id (Finset Id),
    (ids.map (·.1)).Nodup → (ids.map (·.2)).Nodup →
    (∀ x ∈ ids, st.1.get x.2 = none ∧ x.2 ∉ ids.map (·.1)) →
    (∀ k ∈ st.2.keys, k ∈ st.1.keys ∧ k ∉ ids.map (·.1)) →
    (∀ x ∈ ids, (ids.foldl replaceSourceStep st).1.get x.2 = st.1.get x.1) ∧
    (∀ x ∈ ids, (ids.foldl replaceSourceStep st).1.get x.1 = none) ∧
    (∀ u, u ∉ ids.map (·.1) → u ∉ ids.map (·.2) → (ids.foldl replaceSourceStep st).1.get u = st.1.get u) := by
  induction ids with
  | nil => intro st _ _ _ _; simp
  | cons x ids ih =>
    intro st h1 h2 h3 h4
    rw [List.map_cons, List.nodup_cons] at h1 h2
    obtain ⟨hx1, hx2⟩ := h3 x List.mem_cons_self
    rw [List.map_cons, List.mem_cons, not_or] at hx2
    have hadd : ∀ k, st.1.get k = none → st.2.get k = none := by
      intro k hk
      rw [PMap.get_eq_none_iff] at hk ⊢
      exact fun hm => hk (h4 k hm).1
    have hxadd : st.2.get x.1 = none := by
      rw [PMap.get_eq_none_iff]
      intro hm
      exact (h4 x.1 hm).2 List.mem_cons_self
    have hstep := get_replaceSourceStep hx1 hx2.1 hadd hxadd
    rw [List.foldl_cons]
    obtain ⟨ha, hb, hc⟩ := ih (replaceSourceStep st x) h1.2 h2.2
      (by
        intro y hy
        obtain ⟨hy1, hy2⟩ := h3 y (List.mem_cons_of_mem _ hy)
        rw [List.map_cons, List.mem_cons, not_or] at hy2
        have hne : y.2 ≠ x.2 := fun he => h2.1 (he ▸ List.mem_map_of_mem hy)
        refine ⟨?_, hy2.2⟩
        rw [hstep, if_neg hne, if_neg hy2.1, hy1])
      (by
        intro k hk
        obtain ⟨hk1, hk2⟩ := keys_replaceSourceStep st x hk
        refine ⟨hk1, ?_⟩
        rcases hk2 with hk2 | rfl
        · exact fun hm => (h4 k hk2).2 (List.mem_cons_of_mem _ hm)
        · exact hx2.2)
    refine ⟨fun y hy => ?_, fun y hy => ?_, fun u hu1 hu2 => ?_⟩
    · rcases List.mem_cons.1 hy with rfl | hy
      · rw [hc _ hx2.2 h2.1, hstep, if_pos rfl]
      · have hne2 : y.1 ≠ x.2 := fun he => hx2.2 (he ▸ List.mem_map_of_mem hy)
        have hne1 : y.1 ≠ x.1 := fun he => h1.1 (he ▸ List.mem_map_of_mem hy)
        rw [ha y hy, hstep, if_neg hne2, if_neg hne1]
    · rcases List.mem_cons.1 hy with rfl | hy
      · by_cases hm : y.1 ∈ ids.map (·.2)
        · obtain ⟨z, hz, he⟩ := List.mem_map.1 hm
          have hz1 := (h3 z (List.mem_cons_of_mem _ hz)).2
          rw [List.map_cons, List.mem_cons, not_or] at hz1
          exact absurd he hz1.1
        · rw [hc _ h1.1 hm, hstep, if_neg (Ne.symm hx2.1), if_pos rfl]
      · exact hb y hy
    · rw [List.map_cons, List.mem_cons, not_or] at hu1 hu2
      rw [hc u hu1.2 hu2.2, hstep, if_neg hu2.1, if_neg hu1.1]

/-- The loop of `MergePipeline` over the pairs of a sink and a source. -/
theorem mergeNoops_ok {l r : Pipeline V} : ∀ (ids : List (Id × Id)) (noops : List (Processor V)),
    mergeNoops l r ids = .ok noops → noops.length = ids.length ∧
      ∀ (i : Nat) (a b : Id), ids[i]? = some (a, b) → ∃ s t, l.nodes.get a = some s ∧ r.nodes.get b = some t ∧
        noops[i]? = some (mergeSinkAndSource s t) := by
  intro ids
  induction ids with
  | nil =>
    intro noops h
    cases h
    exact ⟨rfl, by simp⟩
  | cons x ids ih =>
    intro noops h
    obtain ⟨a, b⟩ := x
    simp only [mergeNoops] at h
    split at h
    · rename_i s t hs ht
      obtain ⟨rest, hrest, h⟩ := bind_ok h
      cases h
      obtain ⟨hlen, hget⟩ := ih rest hrest
      refine ⟨by simp [hlen], fun i a' b' hi => ?_⟩
      cases i with
      | zero =>
        simp only [List.getElem?_cons_zero, Option.some.injEq, Prod.mk.injEq] at hi ⊢
        obtain ⟨rfl, rfl⟩ := hi
        exact ⟨s, t, hs, ht, rfl⟩
      | succ i =>
        simp only [List.getElem?_cons_succ] at hi ⊢
        exact hget i a' b' hi
    · cases h

/-- The new nodes are found under their ids, and every other lookup is as before. -/
theorem insert_foldl {α : Type} (xs : List (Id × α)) : ∀ m : PMap Id α, (xs.map (·.1)).Nodup →
    (∀ x ∈ xs, m.get x.1 = none) →
    (∀ x ∈ xs, (xs.foldl (fun m x => m.insert x.1 x.2) m).get x.1 = some x.2) ∧
    (∀ u, u ∉ xs.map (·.1) → (xs.foldl (fun m x => m.insert x.1 x.2) m).get u = m.get u) := by
  induction xs with
  | nil => intro m _ _; simp
  | cons x xs ih =>
    intro m hnd hm
    rw [List.map_cons, List.nodup_cons] at hnd
    have hx := PMap.get_insert_of_notMem (hm x (by simp))
    obtain ⟨h1, h2⟩ := ih (m.insert x.1 x.2) hnd.2 (by
      intro y hy
      have hne : y.1 ≠ x.1 := fun he => hnd.1 (he ▸ List.mem_map_of_mem hy)
      rw [hx, if_neg hne]
      exact hm y (by simp [hy]))
    rw [List.foldl_cons]
    refine ⟨fun y hy => ?_, fun u hu => ?_⟩
    · rcases List.mem_cons.1 hy with rfl | hy
      · rw [h2 _ hnd.1, hx, if_pos rfl]
      · exact h1 y hy
    · rw [List.map_cons, List.mem_cons, not_or] at hu
      rw [h2 u hu.2, hx, if_neg hu.1]

end Pipeline

variable {olds : List Id} {v : Id} {noopId : Nat → Id}

theorem mergedName_of_mem (noopId : Nat → Id) (h : v ∈ olds) :
    ∃ i < olds.length, olds[i]? = some v ∧ mergedName olds noopId v = noopId i :=
  ⟨olds.idxOf v, List.idxOf_lt_length_of_mem h, List.getElem?_idxOf h, by rw [mergedName, if_pos h]⟩

theorem mergedName_of_notMem (h : v ∉ olds) : mergedName olds noopId v = v := by
  rw [mergedName, if_neg h]

/-- The `i`-th id of a list without repetitions is called `noopId i`. -/
theorem mergedName_getElem (noopId : Nat → Id) (hnd : olds.Nodup) {i : Nat} (h : olds[i]? = some v) :
    mergedName olds noopId v = noopId i := by
  obtain ⟨hi, rfl⟩ := List.getElem?_eq_some_iff.1 h
  rw [mergedName, if_pos (List.getElem_mem hi), hnd.idxOf_getElem i hi]

/-- The names of the merged processors differ as the processors do, as long as the new ids are new and differ. -/
theorem mergedName_inj {K : Finset Id} (hinj : ∀ i < olds.length, ∀ j < olds.length, noopId i = noopId j → i = j)
    (hfresh : ∀ i < olds.length, noopId i ∉ K) {a b : Id} (ha : a ∈ K) (hb : b ∈ K)
    (he : mergedName olds noopId a = mergedName olds noopId b) : a = b := by
  by_cases has : a ∈ olds <;> by_cases hbs : b ∈ olds
  · obtain ⟨i, hi, hai, hna⟩ := mergedName_of_mem noopId has
    obtain ⟨j, hj, hbj, hnb⟩ := mergedName_of_mem noopId hbs
    have hij := hinj i hi j hj (hna.symm.trans (he.trans hnb))
    rw [hij, hbj] at hai
    exact (Option.some.inj hai).symm
  · obtain ⟨i, hi, -, hna⟩ := mergedName_of_mem noopId has
    rw [hna, mergedName_of_notMem hbs] at he
    exact absurd (he ▸ hb) (hfresh i hi)
  · obtain ⟨i, hi, -, hnb⟩ := mergedName_of_mem noopId hbs
    rw [hnb, mergedName_of_notMem has] at he
    exact absurd (he ▸ ha) (hfresh i hi)
  · rwa [mergedName_of_notMem has, mergedName_of_notMem hbs] at he

/-- The pairs of an old id and its new name. -/
theorem mem_zip_names {x : Id × Id} (hnd : olds.Nodup) (h : x ∈ olds.zip ((List.range olds.length).map noopId)) :
    x.1 ∈ olds ∧ x.2 = mergedName olds noopId x.1 := by
  obtain ⟨i, hi⟩ := List.mem_iff_getElem?.1 h
  rw [List.getElem?_zip_eq_some] at hi
  obtain ⟨h1, h2⟩ := hi
  refine ⟨List.mem_of_getElem? h1, ?_⟩
  rw [mergedName_getElem noopId hnd h1]
  rw [List.getElem?_map] at h2
  obtain ⟨j, hj, he⟩ := Option.map_eq_some_iff.1 h2
  rw [List.getElem?_eq_some_iff] at hj
  obtain ⟨hj, rfl⟩ := hj
  rw [← he, List.getElem_range]

theorem mem_zip_names_of_mem (h : v ∈ olds) :
    (v, mergedName olds noopId v) ∈ olds.zip ((List.range olds.length).map noopId) := by
  obtain ⟨i, hi, hv, hn⟩ := mergedName_of_mem noopId h
  rw [List.mem_iff_getElem?]
  refine ⟨i, ?_⟩
  rw [List.getElem?_zip_eq_some]
  refine ⟨hv, ?_⟩
  rw [List.getElem?_map, List.getElem?_range hi, hn]
  rfl

/-! ## The merge of two pipelines with processors -/

/-- Two pipelines whose merge goes through: as many sinks as sources, and fresh ids for the new processors. -/
structure MergeReady (l r : Pipeline V) (UL UR : Finset Id) (noopId : Nat → Id) : Prop where
  soundL : Sound l UL
  soundR : Sound r UR
  disjoint : Disjoint UL UR
  nodup : ((List.range l.sinks.length).map noopId).Nodup
  fresh : ∀ i < l.sinks.length, noopId i ∉ UL ∪ UR
  len : l.sinks.length = r.sources.length

namespace MergeReady

variable {l r : Pipeline V} {UL UR : Finset Id} {noopId : Nat → Id}

variable {i : Nat} {p : Pipeline V}

section

variable (h : MergeReady l r UL UR noopId)
include h

theorem inj {j : Nat} (hi : i < l.sinks.length) (hj : j < l.sinks.length)
    (he : noopId i = noopId j) : i = j :=
  List.inj_on_of_nodup_map h.nodup (List.mem_range.2 hi) (List.mem_range.2 hj) he

theorem notMem_left (hi : i < l.sinks.length) : noopId i ∉ l.nodes.keys :=
  fun hm => h.fresh i hi (Finset.mem_union_left _ (h.soundL.keys hm))

theorem notMem_right (hi : i < l.sinks.length) : noopId i ∉ r.nodes.keys :=
  fun hm => h.fresh i hi (Finset.mem_union_right _ (h.soundR.keys hm))

theorem left_notMem_right {u : Id} (hu : u ∈ l.nodes.keys) : u ∉ r.nodes.keys :=
  fun hm => Finset.disjoint_left.1 h.disjoint (h.soundL.keys hu) (h.soundR.keys hm)

/-- A replaced id gets the name of one of the new processors. -/
theorem exists_name {v : Id} :
    (v ∈ l.sinks → ∃ i < l.sinks.length, l.sinks[i]? = some v ∧ mergedName l.sinks noopId v = noopId i) ∧
    (v ∈ r.sources → ∃ i < l.sinks.length, r.sources[i]? = some v ∧ mergedName r.sources noopId v = noopId i) := by
  refine ⟨fun hv => mergedName_of_mem noopId hv, fun hv => ?_⟩
  obtain ⟨i, hi, h1, h2⟩ := mergedName_of_mem noopId hv
  exact ⟨i, h.len ▸ hi, h1, h2⟩

/-- The successors in the left's `dags_` after `ReplaceSinkIdInDags`. -/
theorem mem_replaceSink (u v : Id) :
    v ∈ ((Pipeline.replaceSinkIdInDags l.dags (l.sinks.zip ((List.range l.sinks.length).map noopId))).get u).getD ∅ ↔
      ∃ b, l.Edge u b ∧ v = mergedName l.sinks noopId b := by
  have hfst : (l.sinks.zip ((List.range l.sinks.length).map noopId)).map (·.1) = l.sinks := List.map_fst_zip (by simp)
  have hsnd : (l.sinks.zip ((List.range l.sinks.length).map noopId)).map (·.2) =
      (List.range l.sinks.length).map noopId :=
    List.map_snd_zip (by simp)
  rw [Pipeline.get_replaceSinkIdInDags]
  cases hu : l.dags.get u with
  | none => simp [Pipeline.Edge, Pipeline.succs, hu]
  | some s =>
    have hedge : ∀ b, l.Edge u b ↔ b ∈ s := fun b => by simp only [Pipeline.Edge, Pipeline.succs, hu, Option.getD_some]
    rw [Option.map_some, Option.getD_some, Pipeline.replaceSink_set _ s (by rw [hfst]; exact h.soundL.sinks_nodup)
      (by rw [hsnd]; exact h.nodup)]
    · rw [hfst]
      simp only [hedge]
      constructor
      · rintro (⟨hv, hns⟩ | ⟨x, hx, hxs, rfl⟩)
        · exact ⟨v, hv, (mergedName_of_notMem hns).symm⟩
        · exact ⟨x.1, hxs, (mem_zip_names h.soundL.sinks_nodup hx).2⟩
      · rintro ⟨b, hb, rfl⟩
        by_cases hbs : b ∈ l.sinks
        · exact Or.inr ⟨_, mem_zip_names_of_mem hbs, hb, rfl⟩
        · rw [mergedName_of_notMem hbs]
          exact Or.inl ⟨hb, hbs⟩
    · intro x hx
      obtain ⟨hx1, hx2⟩ := mem_zip_names h.soundL.sinks_nodup hx
      obtain ⟨i, hi, -, hn⟩ := h.exists_name.1 hx1
      rw [hfst, hx2, hn]
      refine ⟨fun hm => h.notMem_left hi (h.soundL.edge_mem u _ ((hedge _).2 hm)).2, fun hm => ?_⟩
      obtain ⟨n, hn, -⟩ := (h.soundL.sinks_iff _).1 hm
      exact h.notMem_left hi (PMap.mem_keys_of_get hn)

/-- An entry of the right's `dags_` after `ReplaceSourceIdInDags` is the one of the only id that is now called so. -/
theorem get_replaceSource (u : Id) :
    (∃ a, u = mergedName r.sources noopId a ∧ (∀ b ∈ r.nodes.keys, u = mergedName r.sources noopId b → b = a) ∧
      (Pipeline.replaceSourceIdInDags r.dags (r.sources.zip ((List.range l.sinks.length).map noopId))).get u =
      r.dags.get a) ∨
    ((∀ b, u ≠ mergedName r.sources noopId b) ∧
      (Pipeline.replaceSourceIdInDags r.dags (r.sources.zip ((List.range l.sinks.length).map noopId))).get u =
      none) := by
  have hfst : (r.sources.zip ((List.range l.sinks.length).map noopId)).map (·.1) = r.sources :=
    List.map_fst_zip (by simp [h.len])
  have hsnd : (r.sources.zip ((List.range l.sinks.length).map noopId)).map (·.2) =
      (List.range l.sinks.length).map noopId :=
    List.map_snd_zip (by simp [h.len])
  have hsrcK : ∀ a ∈ r.sources, a ∈ r.nodes.keys := by
    intro a ha
    obtain ⟨n, hn, -⟩ := (h.soundR.sources_iff a).1 ha
    exact PMap.mem_keys_of_get hn
  have hzip : ∀ x ∈ r.sources.zip ((List.range l.sinks.length).map noopId), x.1 ∈ r.sources ∧
      x.2 = mergedName r.sources noopId x.1 := by
    intro x hx
    rw [h.len] at hx
    exact mem_zip_names h.soundR.sources_nodup hx
  obtain ⟨hnew, hold, hrest⟩ := Pipeline.replaceSource_foldl (r.sources.zip ((List.range l.sinks.length).map noopId))
    (r.dags, .empty) (by rw [hfst]; exact h.soundR.sources_nodup) (by rw [hsnd]; exact h.nodup)
    (by
      intro x hx
      obtain ⟨hx1, hx2⟩ := hzip x hx
      obtain ⟨i, hi, -, hn⟩ := h.exists_name.2 hx1
      rw [hfst, hx2, hn]
      refine ⟨?_, fun hm => h.notMem_right hi (hsrcK _ hm)⟩
      rw [PMap.get_eq_none_iff]
      intro hm
      obtain ⟨w, hw⟩ := h.soundR.dagKeys _ hm
      exact h.notMem_right hi (h.soundR.edge_mem _ _ hw).1)
    (by simp [PMap.empty])
  rw [hfst, hsnd] at hrest
  unfold Pipeline.replaceSourceIdInDags
  by_cases hu : ∃ i < l.sinks.length, u = noopId i
  · -- a new id: it has the entry of the source it replaces
    obtain ⟨i, hi, rfl⟩ := hu
    obtain ⟨a, ha⟩ : ∃ a, r.sources[i]? = some a := ⟨_, List.getElem?_eq_getElem (h.len ▸ hi)⟩
    have hna := mergedName_getElem noopId h.soundR.sources_nodup ha
    have hx : (a, noopId i) ∈ r.sources.zip ((List.range l.sinks.length).map noopId) := by
      rw [h.len, ← hna]
      exact mem_zip_names_of_mem (List.mem_of_getElem? ha)
    refine Or.inl ⟨a, hna.symm, fun b hb he => ?_, hnew _ hx⟩
    by_cases hbs : b ∈ r.sources
    · obtain ⟨j, hj, hjb, hjn⟩ := h.exists_name.2 hbs
      rw [hjn] at he
      rw [← h.inj hi hj he, ha] at hjb
      exact (Option.some.inj hjb).symm
    · rw [mergedName_of_notMem hbs] at he
      exact absurd (he ▸ hb) (h.notMem_right hi)
  · have hun : u ∉ (List.range l.sinks.length).map noopId := by
      intro hm
      obtain ⟨i, hi, rfl⟩ := List.mem_map.1 hm
      exact hu ⟨i, List.mem_range.1 hi, rfl⟩
    have hname : ∀ a, u = mergedName r.sources noopId a → a ∉ r.sources ∧ u = a := by
      intro a he
      by_cases has : a ∈ r.sources
      · obtain ⟨j, hj, -, hjn⟩ := h.exists_name.2 has
        exact absurd ⟨j, hj, he.trans hjn⟩ hu
      · rw [mergedName_of_notMem has] at he
        exact ⟨has, he⟩
    by_cases hus : u ∈ r.sources
    · obtain ⟨x, hx, hxu⟩ : ∃ x ∈ r.sources.zip ((List.range l.sinks.length).map noopId), x.1 = u := by
        rw [← hfst] at hus
        exact List.mem_map.1 hus
      refine Or.inr ⟨fun a he => ?_, by rw [← hxu]; exact hold x hx⟩
      obtain ⟨ha, rfl⟩ := hname a he
      exact ha hus
    · exact Or.inl ⟨u, (mergedName_of_notMem hus).symm, fun b _ he => (hname b he).2.symm, hrest u hus hun⟩

/-- The successors in the right's `dags_` after `ReplaceSourceIdInDags`. -/
theorem mem_replaceSource (u v : Id) :
    v ∈ ((Pipeline.replaceSourceIdInDags r.dags (r.sources.zip ((List.range l.sinks.length).map noopId))).get u).getD
    ∅ ↔
      ∃ a, r.Edge a v ∧ u = mergedName r.sources noopId a := by
  rcases h.get_replaceSource u with ⟨a, hua, huniq, hget⟩ | ⟨hno, hget⟩
  · rw [hget]
    constructor
    · exact fun hv => ⟨a, hv, hua⟩
    · rintro ⟨b, hb, he⟩
      have := huniq b (h.soundR.edge_mem b v hb).1 he
      subst this
      exact hb
  · rw [hget]
    simp only [Option.getD_none, Finset.notMem_empty, false_iff]
    rintro ⟨a, -, he⟩
    exact hno a he

omit h in
/-- The nodes that stay: those of the left but its sinks, and those of the right but its sources. -/
theorem get_keptNodes (l r : Pipeline V) (u : Id) :
    ((l.nodes.filter (fun id => !l.isSink id)).union (r.nodes.filter (fun id => !r.isSource id))).get u =
      (if u ∈ l.sinks then none else l.nodes.get u).or (if u ∈ r.sources then none else r.nodes.get u) := by
  simp only [PMap.get_union, PMap.get_filter, Pipeline.isSink, Pipeline.isSource]
  by_cases h1 : u ∈ l.sinks <;> by_cases h2 : u ∈ r.sources <;> simp [h1, h2]

/-- The nodes of the merge: a new id holds the merge of its sink and its source, and any other id what stays. -/
theorem merged_nodes {noops : List (Processor V)}
    (hnoops : Pipeline.mergeNoops l r (l.sinks.zip r.sources) = .ok noops)
    (hnodes : p.nodes = (((List.range l.sinks.length).map noopId).zip noops).foldl (fun m x =>
      m.insert x.1 x.2) ((l.nodes.filter (fun id => !l.isSink id)).union (r.nodes.filter (fun id => !r.isSource id)))) :
    (∀ (i : Nat) (a b : Id), l.sinks[i]? = some a → r.sources[i]? = some b → ∃ s t, l.nodes.get a = some s ∧
      r.nodes.get b = some t ∧ p.nodes.get (noopId i) = some (Pipeline.mergeSinkAndSource s t)) ∧
    ∀ u, (∀ i < l.sinks.length, u ≠ noopId i) →
      p.nodes.get u = (if u ∈ l.sinks then none else l.nodes.get u).or (if u ∈ r.sources then none
        else r.nodes.get u) := by
  obtain ⟨hnl, hng⟩ := Pipeline.mergeNoops_ok _ noops hnoops
  rw [List.length_zip, ← h.len, Nat.min_self] at hnl
  have hfst : (((List.range l.sinks.length).map noopId).zip noops).map (·.1) = (List.range l.sinks.length).map noopId :=
    List.map_fst_zip (by simp [hnl])
  obtain ⟨hin, hout⟩ := Pipeline.insert_foldl (((List.range l.sinks.length).map noopId).zip noops)
    ((l.nodes.filter (fun id => !l.isSink id)).union (r.nodes.filter (fun id => !r.isSource id)))
    (by rw [hfst]; exact h.nodup)
    (by
      intro x hx
      have hx1 : x.1 ∈ (List.range l.sinks.length).map noopId := hfst ▸ List.mem_map_of_mem hx
      obtain ⟨i, hi, he⟩ := List.mem_map.1 hx1
      have hi := List.mem_range.1 hi
      rw [← he, get_keptNodes, (l.nodes.get_eq_none_iff _).2 (h.notMem_left hi),
        (r.nodes.get_eq_none_iff _).2 (h.notMem_right hi)]
      simp)
  rw [hnodes]
  refine ⟨fun i a b ha hb => ?_, fun u hu => ?_⟩
  · obtain ⟨hi, -⟩ := List.getElem?_eq_some_iff.1 ha
    obtain ⟨s, t, hs, ht, hn⟩ := hng i a b (List.getElem?_zip_eq_some.2 ⟨ha, hb⟩)
    refine ⟨s, t, hs, ht, hin (noopId i, _) (List.mem_iff_getElem?.2 ⟨i, List.getElem?_zip_eq_some.2 ⟨?_, hn⟩⟩)⟩
    rw [List.getElem?_map, List.getElem?_range hi]
    rfl
  · rw [hfst] at hout
    rw [hout u (fun hm => ?_), get_keptNodes]
    obtain ⟨i, hi, he⟩ := List.mem_map.1 hm
    exact hu i (List.mem_range.1 hi) he.symm

/-- The edges of the merge: those of both, the sinks and the sources under their new ids. -/
theorem merged_edges
    (hdags : p.dags = (Pipeline.replaceSinkIdInDags l.dags (l.sinks.zip ((List.range l.sinks.length).map noopId))).union
      (Pipeline.replaceSourceIdInDags r.dags (r.sources.zip ((List.range l.sinks.length).map noopId))))
    (u v : Id) :
    p.Edge u v ↔ (∃ b, l.Edge u b ∧ v = mergedName l.sinks noopId b) ∨
    (∃ a, r.Edge a v ∧ u = mergedName r.sources noopId a) := by
  rw [← h.mem_replaceSink, ← h.mem_replaceSource]
  simp only [Pipeline.Edge, Pipeline.succs, hdags, PMap.get_union]
  cases hs : (Pipeline.replaceSinkIdInDags l.dags (l.sinks.zip ((List.range l.sinks.length).map noopId))).get u with
  | none => simp
  | some s =>
    -- the right has no edge from an id of the left
    have hu : u ∈ l.nodes.keys := by
      rw [Pipeline.get_replaceSinkIdInDags] at hs
      obtain ⟨s', hs', -⟩ := Option.map_eq_some_iff.1 hs
      obtain ⟨w, hw⟩ := h.soundL.dagKeys u (PMap.mem_keys_of_get hs')
      exact (h.soundL.edge_mem u w hw).1
    have hno : ¬∃ a, r.Edge a v ∧ u = mergedName r.sources noopId a := by
      rintro ⟨a, hav, he⟩
      by_cases has : a ∈ r.sources
      · obtain ⟨i, hi, -, hn⟩ := h.exists_name.2 has
        exact h.notMem_left hi ((he.trans hn) ▸ hu)
      · rw [mergedName_of_notMem has] at he
        exact h.left_notMem_right hu (he ▸ (h.soundR.edge_mem a v hav).1)
    rw [← h.mem_replaceSource] at hno
    simp [hno]

/-- The pipeline that the last part of `MergePipeline` puts together. -/
theorem merged {noops : List (Processor V)}
    (hnoops : Pipeline.mergeNoops l r (l.sinks.zip r.sources) = .ok noops)
    (hbind : p.option.bindAbortChannel = (l.option.bindAbortChannel && r.option.bindAbortChannel))
    (hnodes : p.nodes = (((List.range l.sinks.length).map noopId).zip noops).foldl (fun m x =>
      m.insert x.1 x.2) ((l.nodes.filter (fun id => !l.isSink id)).union (r.nodes.filter (fun id => !r.isSource id))))
    (hdags : p.dags = (Pipeline.replaceSinkIdInDags l.dags (l.sinks.zip ((List.range l.sinks.length).map noopId))).union
      (Pipeline.replaceSourceIdInDags r.dags (r.sources.zip ((List.range l.sinks.length).map noopId))))
    (hleaves : p.leaves = ∅) (hsources : p.sources = l.sources) (hsinks : p.sinks = r.sinks) :
    Merged l r noopId p := by
  obtain ⟨hnoop, hkept⟩ := h.merged_nodes hnoops hnodes
  have hedges := h.merged_edges hdags
  refine ⟨h.len, hnoop, fun u hu hns => ?_, fun u hu hns => ?_, fun u => ?_, hedges, fun u hu => ?_, hleaves, hsources,
    hsinks, hbind⟩
  · obtain ⟨n, hn⟩ := (l.nodes.mem_keys_iff u).1 hu
    rw [hkept u (fun i hi he => h.notMem_left hi (he ▸ hu)), if_neg hns, hn]
    rfl
  · have hul : u ∉ l.nodes.keys := fun hm => h.left_notMem_right hm hu
    rw [hkept u (fun i hi he => h.notMem_right hi (he ▸ hu)), if_neg hns, (l.nodes.get_eq_none_iff u).2 hul]
    simp
  · by_cases hu : ∃ i < l.sinks.length, u = noopId i
    · obtain ⟨i, hi, rfl⟩ := hu
      obtain ⟨s, t, -, -, hn⟩ := hnoop i _ _ (List.getElem?_eq_getElem hi) (List.getElem?_eq_getElem (h.len ▸ hi))
      exact iff_of_true (PMap.mem_keys_of_get hn) (Or.inr (Or.inr ⟨i, hi, rfl⟩))
    · have hu' : ∀ i < l.sinks.length, u ≠ noopId i := fun i hi he => hu ⟨i, hi, he⟩
      rw [PMap.mem_keys, hkept u hu', Option.isSome_or, Bool.or_eq_true, l.nodes.mem_keys, r.nodes.mem_keys]
      by_cases h1 : u ∈ l.sinks <;> by_cases h2 : u ∈ r.sources <;> simp [h1, h2, hu]
  · rw [hdags] at hu
    rcases Finset.mem_union.1 hu with hu | hu
    · rw [PMap.mem_keys, Pipeline.get_replaceSinkIdInDags, Option.isSome_map, ← PMap.mem_keys] at hu
      obtain ⟨v, hv⟩ := h.soundL.dagKeys u hu
      exact ⟨_, (hedges u _).2 (Or.inl ⟨v, hv, rfl⟩)⟩
    · rw [PMap.mem_keys] at hu
      rcases h.get_replaceSource u with ⟨a, hua, -, hget⟩ | ⟨-, hget⟩
      · rw [hget, ← PMap.mem_keys] at hu
        obtain ⟨v, hv⟩ := h.soundR.dagKeys a hu
        exact ⟨v, (hedges u v).2 (Or.inr ⟨a, hv, hua⟩)⟩
      · rw [hget] at hu
        cases hu

end

end MergeReady

/-- What a call of `MergePipeline` that returned gave: the other pipeline when one is empty, else the merge. -/
theorem mergePipeline_ok {l r p : Pipeline V} {UL UR : Finset Id} (hl : Sound l UL) (hr : Sound r UR)
    (hdis : Disjoint UL UR) (hnd : ((List.range l.sinks.length).map noopId).Nodup)
    (hnew : ∀ i < l.sinks.length, noopId i ∉ UL ∪ UR) (h : l.mergePipeline r noopId = .ok p) :
    l.leaves = ∅ ∧ r.leaves = ∅ ∧
      ((l.nodes.keys = ∅ ∧ p = r) ∨ (r.nodes.keys = ∅ ∧ p = l) ∨
        (l.nodes.keys ≠ ∅ ∧ r.nodes.keys ≠ ∅ ∧ MergeReady l r UL UR noopId ∧ Merged l r noopId p)) := by
  unfold Pipeline.mergePipeline at h
  split at h
  · cases h
  rename_i hc
  simp only [Pipeline.isCompleted, Bool.or_eq_true, Bool.not_eq_true', decide_eq_false_iff_not, not_or, not_not] at hc
  refine ⟨hc.1, hc.2, ?_⟩
  split at h
  · rename_i h0
    cases h
    exact Or.inl ⟨Finset.card_eq_zero.1 h0, rfl⟩
  rename_i hl0
  split at h
  · rename_i h0
    cases h
    exact Or.inr (Or.inl ⟨Finset.card_eq_zero.1 h0, rfl⟩)
  rename_i hr0
  split at h
  · cases h
  rename_i hlen
  obtain ⟨noops, hnoops, h⟩ := bind_ok h
  have hready : MergeReady l r UL UR noopId := ⟨hl, hr, hdis, hnd, hnew, not_not.1 hlen⟩
  cases h
  exact Or.inr (Or.inr ⟨fun he => hl0 (Finset.card_eq_zero.2 he), fun he => hr0 (Finset.card_eq_zero.2 he), hready,
    hready.merged hnoops rfl rfl rfl rfl rfl rfl⟩)

end Tunnel
