import Tunnel.Lemmas.SwitcherSteps
import Tunnel.Lib.Numbered

/-!
# The records of one connection

What the server has recorded of a connection fits the calls of its client: the values that were taken from it are those
of its first pushes, one for each, and the values that were written to it are for its first pops, one for each, and are
what the client got or is about to get (`Books`). Every hop keeps the books.
-/

namespace Tunnel

open Lib

namespace Switcher

/-- The value of a push. -/
def Call.pushed : Call → Option (Topic × DataPackage)
  | .push t v => some (t, dataPackage v)
  | _ => none

/-- The topic of a pop. -/
def Call.popped : Call → Option Topic
  | .pop t => some t
  | _ => none

/-- The value of the current push is still to be written. -/
def Stage.pushes : Stage → Bool
  | .wantsData _ => true
  | .sending _ _ => true
  | _ => false

/-- The value for the current pop is still to be written. -/
def Stage.pops : Stage → Bool
  | .wantsValue _ => true
  | _ => false

/-! ## Calls -/

/-- The last call of a client is the one it is in. -/
def Session.Current (x : Session) : Prop := ∀ k, x.ctl.call = some k → x.calls.getLast? = some k

/-- The entries for the calls of one kind are there, each once and in the order of the calls; only that of the current
call may be missing. -/
def Settled {β : Type} (f : Call → Option β) (waits : Stage → Bool) (x : Session) (st : Stage) (l : List (Nat × β)) :
    Prop :=
  ∃ n, n ≤ x.calls.length ∧ l = numbered f (x.calls.take n) ∧
    (st = .gone ∨ n = if waits st then x.served - 1 else x.served)

/-- A hop keeps a call current. -/
theorem Session.Current.hop {x x' : Session} {st st' : Stage} {l : Label} (h : x.Current) (hh : Hop x st l x' st') :
    x'.Current := by
  cases hh with
  | begin _ k timeoutMs hidle =>
    intro k' hk'
    rw [(x.begin_call k timeoutMs).1] at hk'
    cases hk'
    exact List.getLast?_concat
  | sendData _ hsend =>
    obtain ⟨t, v, hctl, rfl⟩ := Session.sendData_eq hsend
    rintro k ⟨⟩
    exact h _ (by rw [hctl]; rfl)
  | receive _ hrec =>
    obtain ⟨m, rest, -, ⟨t, d, hctl, -, rfl⟩ | ⟨r, a, -, rfl, -⟩⟩ := Session.receive_ok hrec
    · rintro k ⟨⟩
      exact h _ (by rw [hctl]; rfl)
    · nofun
  | raise => nofun
  | _ => exact h

namespace Settled

variable {β : Type} {f : Call → Option β} {waits : Stage → Bool} {x x' : Session} {st st' : Stage} {l : List (Nat × β)}

/-- Nothing is served. -/
theorem keep (h : Settled f waits x st l) (hcalls : ∃ more, x'.calls = x.calls ++ more) (hserved : x'.served = x.served)
    (hst : st' = .gone ∨ (waits st' = waits st ∧ st ≠ .gone)) : Settled f waits x' st' l := by
  obtain ⟨n, hn, rfl, hdone⟩ := h
  obtain ⟨more, hmore⟩ := hcalls
  refine ⟨n, by rw [hmore, List.length_append]; omega, by rw [hmore, List.take_append_of_le_length hn], ?_⟩
  rcases hst with rfl | ⟨hwaits, hst⟩
  · exact .inl rfl
  · rw [hwaits, hserved]
    exact .inr (hdone.resolve_left hst)

/-- What is settled stays so. -/
theorem stay (h : Settled f waits x st l) (hcalls : ∃ more, x'.calls = x.calls ++ more)
    (hserved : x'.served = x.served) :
    Settled f waits x' st l := by
  by_cases hst : st = .gone
  · exact h.keep hcalls hserved (.inl hst)
  · exact h.keep hcalls hserved (.inr ⟨rfl, hst⟩)

/-- A request is read. -/
theorem request (h : Settled f waits x .fresh l) (hfresh : waits .fresh = false) {k : Call}
    (hlast : x.calls.getLast? = some k) (hserved : x.served + 1 = x.calls.length)
    (hst : st' = .gone ∨ waits st' = (f k).isSome) (inbox : List Message) :
    Settled f waits { x with inbox := inbox, served := x.served + 1 } st' l := by
  obtain ⟨n, hn, rfl, hdone⟩ := h
  rw [hfresh] at hdone
  obtain rfl : n = x.served := hdone.resolve_left nofun
  rcases hst with hgone | hwaits
  · exact ⟨x.served, hn, rfl, .inl hgone⟩
  cases hk : f k with
  | some b =>
    refine ⟨x.served, hn, rfl, .inr ?_⟩
    rw [hwaits, hk]
    rfl
  | none =>
    refine ⟨x.served + 1, hserved.le, ?_, .inr ?_⟩
    · obtain ⟨init, hinit⟩ := List.getLast?_eq_some_iff.1 hlast
      have hlen : x.served = init.length := by
        rw [hinit, List.length_append] at hserved
        exact Nat.succ.inj hserved
      show numbered f (x.calls.take x.served) = numbered f (x.calls.take (x.served + 1))
      rw [hserved, List.take_length, hinit, hlen, List.take_left, numbered_concat, hk]
      exact (List.append_nil _).symm
    · rw [hwaits, hk]
      rfl

/-- The entry of the current call is made. -/
theorem log (h : Settled f waits x st l) (hwaits : waits st = true) (hst : st ≠ .gone) (hwaits' : waits st' = false)
    {k : Call} {b : β} (hlast : x.calls.getLast? = some k) (hserved : x.served = x.calls.length) (hk : f k = some b)
    (hcalls : x'.calls = x.calls) (hserved' : x'.served = x.served) :
    Settled f waits x' st' (l ++ [(x.served - 1, b)]) := by
  obtain ⟨n, -, rfl, hdone⟩ := h
  rw [hwaits] at hdone
  obtain rfl : n = x.served - 1 := hdone.resolve_left hst
  refine ⟨x.served, by rw [hcalls, hserved], ?_, .inr (by rw [hwaits', hserved']; rfl)⟩
  obtain ⟨init, hinit⟩ := List.getLast?_eq_some_iff.1 hlast
  have hlen : x.served - 1 = init.length := by
    rw [hserved, hinit, List.length_append]
    rfl
  rw [hcalls, hlen, hserved, List.take_length, hinit, List.take_left, numbered_concat, hk]
  rfl

end Settled

/-! ## Values that come back -/

namespace Session

/-- The values that the pops of a client returned. -/
def got (x : Session) : List (Topic × Option Bytes) :=
  x.returns.filterMap (fun
    | .popped t v => some (t, v)
    | _ => none)

/-- The value that the current pop is about to return. -/
def coming (x : Session) : List (Topic × Option Bytes) :=
  match x.ctl, x.outbox with
  | .popGot t d, _ => [(t, valueOf d)]
  | .popWaits t, .data d :: _ => [(t, valueOf d)]
  | _, _ => []

variable {x x' : Session}

/-- Nothing is coming. -/
theorem coming_nil (hout : x.outbox = []) (hctl : ∀ t d, x.ctl ≠ .popGot t d) : x.coming = [] := by
  unfold coming
  split
  · rename_i t d hgot
    exact absurd hgot (hctl t d)
  · rename_i hdata
    rw [hout] at hdata
    nomatch hdata
  · rfl

theorem coming_put_response (x : Session) (r : ResponsePackage) : (x.put (.response r)).coming = x.coming := by
  unfold coming put
  cases x.ctl with
  | popWaits t => rcases x.outbox with _ | ⟨_ | _ | _, rest⟩ <;> rfl
  | _ => rfl

/-- What was coming has come. -/
theorem receive_got {st : Stage} (hlink : Link x st) (h : x.receive = .ok x') :
    x'.got ++ x'.coming = x.got ++ x.coming := by
  obtain ⟨m, rest, hout, ⟨t, d, hctl, hd, rfl⟩ | ⟨r, a, -, rfl, hreads, hpopped⟩⟩ := receive_ok h
  · have hkind := hlink.kind_of_outbox (show x.ctl.reads = some .data by rw [hctl]; rfl) hout
    cases m with
    | data d' =>
      cases hd
      show x.got ++ [(t, valueOf d)] = _
      unfold coming
      rw [hctl, hout]
    | _ => nomatch hkind
  · have hgot : (x.finish rest a).got = x.got ++ x.coming := by
      unfold got finish
      rw [List.filterMap_append]
      congr 1
      cases hctl : x.ctl with
      | popGot t d =>
        rw [(hpopped t (valueOf d)).2 ⟨d, hctl, rfl⟩]
        unfold coming
        rw [hctl]
        rfl
      | popWaits t =>
        rw [hctl] at hreads
        nomatch hreads
      | _ =>
        have hother : x.coming = [] := by
          unfold coming
          rw [hctl]
        rw [hother]
        cases a with
        | popped t v =>
          obtain ⟨d, hd, -⟩ := (hpopped t v).1 rfl
          rw [hctl] at hd
          nomatch hd
        | _ => rfl
    rw [hgot]
    exact List.append_nil _

end Session

/-- The client got the values that were written to its connection, but for the ones on their way; after the connection
is destroyed it may never get these. -/
def Received (x : Session) (st : Stage) (told : List (Topic × Option Bytes)) : Prop :=
  x.got ++ x.coming = told ∨ (st = .gone ∧ x.got ++ x.coming <+: told)

/-- Only what came and is coming counts. -/
theorem Received.congr {x x' : Session} {st st' : Stage} {told : List (Topic × Option Bytes)} (h : Received x st told)
    (heq : x'.got ++ x'.coming = x.got ++ x.coming) (hst : st = .gone → st' = .gone) : Received x' st' told := by
  rcases h with h | ⟨hgone, h⟩
  · exact .inl (heq.trans h)
  · exact .inr ⟨hst hgone, heq ▸ h⟩

/-! ## The books -/

/-- The call and the topic of an entry. -/
def asked (e : Nat × Topic × DataPackage) : Nat × Topic := (e.1, e.2.1)

/-- What the pop of an entry returns. -/
def answered (e : Nat × Topic × DataPackage) : Topic × Option Bytes := (e.2.1, valueOf e.2.2)

/-- What the server recorded of a connection, and the client's calls and what they returned. -/
structure Books (x : Session) (st : Stage) (taken given : List (Nat × Topic × DataPackage)) (acked : List Nat) :
    Prop where
  current : x.Current
  pushes : Settled Call.pushed Stage.pushes x st taken
  pops : Settled Call.popped Stage.pops x st (given.map asked)
  received : Received x st (given.map answered)
  acks : ∀ n ∈ acked, ∃ e ∈ taken, e.1 = n

/-- What the server makes of a request. -/
theorem Call.Asks.pushes {k : Call} {pkg : RequestPackage} {st : Stage} (h : k.Asks pkg) (hst : st.after pkg) :
    st = .gone ∨ (st.pushes = k.pushed.isSome ∧ st.pops = k.popped.isSome) := by
  rw [Stage.after, h.1, h.2] at hst
  cases k with
  | push t v =>
    obtain rfl : st = .wantsData t := hst
    exact .inr ⟨rfl, rfl⟩
  | pop t =>
    obtain rfl : st = .wantsValue t := hst
    exact .inr ⟨rfl, rfl⟩
  | closeTopic t =>
    obtain rfl | rfl : st = .answers ∨ st = .gone := hst
    · exact .inr ⟨rfl, rfl⟩
    · exact .inl rfl
  | checkTopicExist t =>
    obtain rfl | rfl : st = .answers ∨ st = .gone := hst
    · exact .inr ⟨rfl, rfl⟩
    · exact .inl rfl

namespace Books

variable {x x' : Session} {st st' : Stage} {taken given : List (Nat × Topic × DataPackage)} {acked : List Nat}
  {l : Label}

/-- Empty books. -/
theorem init : Books {} .fresh [] [] [] where
  current := nofun
  pushes := ⟨0, Nat.le_refl _, rfl, .inr rfl⟩
  pops := ⟨0, Nat.le_refl _, rfl, .inr rfl⟩
  received := .inl rfl
  acks := nofun

section

variable (h : Books x st taken given acked)
include h

/-- A hop keeps the pushes. -/
theorem pushes_hop (hlink : Link x st) (hh : Hop x st l x' st') :
    Settled Call.pushed Stage.pushes x' st' (taken ++ l.pushLog (x.served - 1)) := by
  have hquiet : ∀ {y : Session} {st₁ : Stage}, Settled Call.pushed Stage.pushes y st₁ taken →
      Settled Call.pushed Stage.pushes y st₁ (taken ++ []) := by
    intro _ _ h
    rwa [List.append_nil]
  have hsame : ∃ more, x.calls = x.calls ++ more := ⟨[], (List.append_nil _).symm⟩
  cases hh with
  | stay => exact hquiet h.pushes
  | begin _ k timeoutMs => exact hquiet (h.pushes.stay ⟨[k], rfl⟩ rfl)
  | sendData _ hsend =>
    obtain ⟨t, v, -, rfl⟩ := Session.sendData_eq hsend
    exact hquiet (h.pushes.stay hsame rfl)
  | receive _ hrec =>
    obtain ⟨m, rest, -, ⟨t, d, -, -, rfl⟩ | ⟨r, a, -, rfl, -⟩⟩ := Session.receive_ok hrec
    · exact hquiet (h.pushes.stay hsame rfl)
    · exact hquiet (h.pushes.stay hsame rfl)
  | raise => exact hquiet (h.pushes.stay hsame rfl)
  | close => exact hquiet (h.pushes.keep hsame rfl (.inl rfl))
  | request hin hst =>
    obtain ⟨k, pkg', hm, hcall, -, hasks, -, -, hserved⟩ := hlink.of_inbox hin
    cases hm
    exact hquiet (h.pushes.request rfl (h.current k hcall) hserved ((hasks.pushes hst).imp_right And.left) _)
  | answer => exact hquiet (h.pushes.keep hsame rfl (.inr ⟨rfl, nofun⟩))
  | data => exact hquiet (h.pushes.keep hsame rfl (.inr ⟨rfl, nofun⟩))
  | deliver t d =>
    obtain ⟨⟨v, hctl, rfl⟩, -, -, hserved⟩ := hlink
    exact h.pushes.log rfl nofun rfl (h.current (.push t v) (by rw [hctl]; rfl)) hserved rfl rfl rfl
  | ack => exact hquiet (h.pushes.keep hsame rfl (.inr ⟨rfl, nofun⟩))
  | give => exact hquiet (h.pushes.keep hsame rfl (.inr ⟨rfl, nofun⟩))
  | finish => exact hquiet (h.pushes.keep hsame rfl (.inr ⟨rfl, nofun⟩))

/-- A hop keeps the pops. -/
theorem pops_hop (hlink : Link x st) (hh : Hop x st l x' st') :
    Settled Call.popped Stage.pops x' st' ((given ++ l.popLog (x.served - 1)).map asked) := by
  have hquiet : ∀ {y : Session} {st₁ : Stage}, Settled Call.popped Stage.pops y st₁ (given.map asked) →
      Settled Call.popped Stage.pops y st₁ ((given ++ []).map asked) := by
    intro _ _ h
    rwa [List.append_nil]
  have hsame : ∃ more, x.calls = x.calls ++ more := ⟨[], (List.append_nil _).symm⟩
  cases hh with
  | stay => exact hquiet h.pops
  | begin _ k timeoutMs => exact hquiet (h.pops.stay ⟨[k], rfl⟩ rfl)
  | sendData _ hsend =>
    obtain ⟨t, v, -, rfl⟩ := Session.sendData_eq hsend
    exact hquiet (h.pops.stay hsame rfl)
  | receive _ hrec =>
    obtain ⟨m, rest, -, ⟨t, d, -, -, rfl⟩ | ⟨r, a, -, rfl, -⟩⟩ := Session.receive_ok hrec
    · exact hquiet (h.pops.stay hsame rfl)
    · exact hquiet (h.pops.stay hsame rfl)
  | raise => exact hquiet (h.pops.stay hsame rfl)
  | close => exact hquiet (h.pops.keep hsame rfl (.inl rfl))
  | request hin hst =>
    obtain ⟨k, pkg', hm, hcall, -, hasks, -, -, hserved⟩ := hlink.of_inbox hin
    cases hm
    exact hquiet (h.pops.request rfl (h.current k hcall) hserved ((hasks.pushes hst).imp_right And.right) _)
  | answer => exact hquiet (h.pops.keep hsame rfl (.inr ⟨rfl, nofun⟩))
  | data => exact hquiet (h.pops.keep hsame rfl (.inr ⟨rfl, nofun⟩))
  | deliver => exact hquiet (h.pops.keep hsame rfl (.inr ⟨rfl, nofun⟩))
  | ack => exact hquiet (h.pops.keep hsame rfl (.inr ⟨rfl, nofun⟩))
  | give t d =>
    obtain ⟨hctl, -, -, hserved⟩ := hlink
    rw [List.map_append]
    exact h.pops.log rfl nofun rfl (h.current (.pop t) (by rw [hctl]; rfl)) hserved rfl rfl rfl
  | finish => exact hquiet (h.pops.keep hsame rfl (.inr ⟨rfl, nofun⟩))

/-- A hop keeps what was answered. -/
theorem received_hop (hlink : Link x st) (hh : Hop x st l x' st') :
    Received x' st' ((given ++ l.popLog (x.served - 1)).map answered) := by
  have hquiet : ∀ {y : Session} {st₁ : Stage}, Received y st₁ (given.map answered) →
      Received y st₁ ((given ++ []).map answered) := by
    intro _ _ h
    rwa [List.append_nil]
  have hrec := h.received
  cases hh with
  | stay => exact hquiet hrec
  | begin _ k timeoutMs hidle =>
    have hout : x.outbox = [] := by
      obtain ⟨-, -, hout, -⟩ | ⟨-, hout⟩ := hlink.of_idle hidle
      · exact hout
      · exact hout
    refine hquiet (hrec.congr ?_ (fun hst => hst))
    rw [Session.coming_nil hout (by rw [hidle]; nofun)]
    exact congrArg (x.got ++ ·) (Session.coming_nil hout (by cases k <;> nofun))
  | sendData _ hsend =>
    obtain ⟨t, v, hctl, rfl⟩ := Session.sendData_eq hsend
    refine hquiet (hrec.congr ?_ (fun hst => hst))
    have hcoming : x.coming = [] := by
      unfold Session.coming
      rw [hctl]
    rw [hcoming]
    rfl
  | receive _ hreceive => exact hquiet (hrec.congr (Session.receive_got hlink hreceive) (fun hst => hst))
  | raise =>
    refine hquiet (.inr ⟨rfl, ?_⟩)
    show x.got ++ [] <+: _
    rw [List.append_nil]
    rcases hrec with hrec | ⟨-, hrec⟩
    · rw [← hrec]
      exact List.prefix_append _ _
    · exact (List.prefix_append _ _).trans hrec
  | close => exact hquiet (hrec.congr rfl (fun _ => rfl))
  | request => exact hquiet (hrec.congr rfl nofun)
  | answer r =>
    refine hquiet (hrec.congr ?_ nofun)
    exact congrArg (x.got ++ ·) (x.coming_put_response r)
  | data => exact hquiet (hrec.congr rfl nofun)
  | deliver => exact hquiet (hrec.congr rfl nofun)
  | ack t r =>
    refine hquiet (hrec.congr ?_ nofun)
    exact congrArg (x.got ++ ·) (x.coming_put_response r)
  | give t d =>
    obtain ⟨hctl, -, hout, -⟩ := hlink
    have hbefore : x.coming = [] := Session.coming_nil hout (by rw [hctl]; nofun)
    have hafter : (x.put (.data d)).coming = [(t, valueOf d)] := by
      unfold Session.coming Session.put
      rw [hctl, hout]
      rfl
    rw [Received, hbefore, List.append_nil] at hrec
    have htold := hrec.resolve_right (fun hgone => nomatch hgone.1)
    rw [List.map_append, ← htold]
    exact .inl (congrArg (x.got ++ ·) hafter)
  | finish t r =>
    refine hquiet (hrec.congr ?_ nofun)
    exact congrArg (x.got ++ ·) (x.coming_put_response r)

/-- A hop keeps what was acknowledged. -/
theorem acks_hop (hlink : Link x st) (hh : Hop x st l x' st') :
    ∀ n ∈ acked ++ l.ackLog (x.served - 1), ∃ e ∈ taken ++ l.pushLog (x.served - 1), e.1 = n := by
  intro n hn
  rcases List.mem_append.1 hn with hn | hn
  · obtain ⟨e, he, heq⟩ := h.acks n hn
    exact ⟨e, List.mem_append_left _ he, heq⟩
  · cases hh with
    | ack t r =>
      obtain rfl := List.mem_singleton.1 hn
      obtain ⟨⟨v, hctl⟩, -, -, hserved⟩ := hlink
      obtain ⟨n, -, rfl, hdone⟩ := h.pushes
      obtain rfl : n = x.served := hdone.resolve_left nofun
      have hlast := h.current (.push t v) (by rw [hctl]; rfl)
      refine ⟨(x.served - 1, t, dataPackage v), List.mem_append_left _ (mem_numbered.2 ⟨.push t v, ?_, rfl⟩), rfl⟩
      rw [hserved, List.take_length, ← List.getLast?_eq_getElem?, hlast]
    | _ => nomatch hn

/-- Every hop keeps the books. -/
theorem hop (hlink : Link x st) (hh : Hop x st l x' st') :
    Books x' st' (taken ++ l.pushLog (x.served - 1)) (given ++ l.popLog (x.served - 1)) (acked ++
      l.ackLog (x.served - 1)) :=
  ⟨h.current.hop hh, h.pushes_hop hlink hh, h.pops_hop hlink hh, h.received_hop hlink hh, h.acks_hop hlink hh⟩

end

end Books

end Switcher

end Tunnel
