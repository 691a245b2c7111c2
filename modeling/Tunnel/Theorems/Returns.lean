import Tunnel.Lemmas.Occupancy
import Tunnel.Lemmas.Shared
import Tunnel.Theorems.Termination

/-!
# Every run returns

A pipeline whose sources are finite takes a bounded number of steps, whatever its callbacks do and whatever the abort
channel holds, and ends where every processor has finished, unless an exception had nowhere to go.
-/

namespace Tunnel

open Lib

variable {V : Type} {p : Pipeline V} {U : Finset Id} {s s' : State V}

/-- Every step of a processor counts. -/
theorem Network.effort_run (hnet : Network p U) {pre : UserChannel → List (Option V)} {tokens : Nat}
    {es : List (Event V)} (hs : (p.start pre tokens).Reaches s) (hrun : s.runAll es = some s') :
    s.effort p + es.countP (·.proc.isSome) ≤ s'.effort p := by
  induction es generalizing s with
  | nil =>
    cases hrun
    exact Nat.le_refl _
  | cons e es ih =>
    obtain ⟨t, ht, hrest⟩ := Option.bind_eq_some_iff.1 hrun
    have hstep := (State.step_iff.1 ht).2.effort_le (hnet.running hs)
    have htail := ih (hs.tail ⟨e, ht⟩) hrest
    rw [List.countP_cons]
    omega

/-- A pipeline with finite sources, in which nobody waits forever, returns from `Run`: whatever its callbacks throw,
whatever the abort channel holds and in whatever order the processors take their turns, they take a bounded number of
steps. Where they can take no more, all of them have finished, unless a callback of a pipeline without an abort channel
has thrown: then the process has ended, or, if what it threw is no `std::exception`, the exception has left a processor.
-/
theorem run_returns {p : Pipeline V} {U : Finset Id} (hb : Built Call.Proper p U) (hrun : p.runChecks true = .ok ())
    (hp : p.Unblocked) (hfin : p.FiniteSources) : ∃ N, ∀ pre tokens es s, (p.start pre tokens).runAll es = some s →
      es.countP (·.proc.isSome) ≤ N ∧ ((∀ u, s.canStep u = false) →
        (∀ u x, s.procs u = some x → x.ctl.isFinished = true) ∨
          (p.option.bindAbortChannel = false ∧ (∃ e ∈ es, e.isThrow = true) ∧
            (s.dead = true ∨ ∃ u x, s.procs u = some x ∧ x.ctl = .escaped))) := by
  have hnet := built_network hb (Pipeline.runChecks_ok hrun).1
  obtain ⟨bound, hbound⟩ := hnet.effort_bounded (fun u n hn => (hp.channels u n hn).1) hfin
  refine ⟨bound, fun pre tokens es s hes => ⟨?_, fun hstuck => ?_⟩⟩
  · have hle := hbound pre tokens s (.of_runAll es hes)
    have := hnet.effort_run .refl hes
    omega
  · have hL : Lives p (∃ e ∈ es, e.isThrow = true) s :=
      hnet.lives_by (.of_runAll es hes (fun e he hthrow => .inr ⟨e, he, hthrow⟩))
    by_cases hout : s.dead = true ∨ ∃ u x, s.procs u = some x ∧ x.ctl = .escaped
    · have hunbound : p.option.bindAbortChannel = false ∧ ∃ e ∈ es, e.isThrow = true := by
        rcases hout with hd | ⟨u, x, hx, hc⟩
        · rcases hL.cause hd with hunbound | ⟨u, n, hn, hbefore⟩
          · exact hunbound
          · rw [hp.beforeWork hnet hn] at hbefore
            cases hbefore
        · exact hL.escaped u x hx hc
      exact .inr ⟨hunbound.1, hunbound.2, hout⟩
    · simp only [not_or, Bool.not_eq_true] at hout
      exact .inl (fun u x hx => hp.all_finished hnet (.of_runAll es hes) hout.1 (fun v y hy hc =>
        hout.2 ⟨v, y, hy, hc⟩) hstuck hx)

/-- A source of one value before a sink. -/
theorem run_returns_chain : ∃ N, ∀ pre tokens es s,
    ((sourceAndSink (.generate (fun k => if k = 0 then some 7 else none))).1.start pre tokens).runAll es = some s →
      es.countP (·.proc.isSome) ≤ N ∧ ((∀ u, s.canStep u = false) → (∀ e ∈ es, e.isThrow = false) →
        ∀ u x, s.procs u = some x → x.ctl.isFinished = true) := by
  have hkeys : ∀ v ∈ (sourceAndSink (.generate (fun k => if k = 0 then some 7 else none))).1.nodes.keys, v = 1 ∨
      v = 2 := by decide
  obtain ⟨N, hN⟩ := run_returns (built_ofCalls Call.Proper {} [.addSource 1 "source"
    (.generate (fun k => if k = 0 then some 7 else none)), .setSink 2 "sink" .consume (.single 1)]) rfl
    (.of_keys hkeys (fun u n i q hu hn hi => by
      rcases hu with rfl | rfl <;> cases hn <;> cases i <;> cases hi
      decide) (fun u n hu hn => by rcases hu with rfl | rfl <;> cases hn <;> exact ⟨rfl, rfl, rfl⟩))
    (fun u n g hn hk => by
      rcases hkeys u (PMap.mem_keys_of_get hn) with rfl | rfl <;> cases hn <;> cases hk
      exact ⟨1, rfl⟩)
  refine ⟨N, fun pre tokens es s hes => ⟨(hN pre tokens es s hes).1, fun hstuck hquiet => ?_⟩⟩
  rcases (hN pre tokens es s hes).2 hstuck with hall | ⟨-, ⟨e, he, hthrow⟩, -⟩
  · exact hall
  · rw [hquiet e he] at hthrow
    cases hthrow

end Tunnel
