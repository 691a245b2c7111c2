import Tunnel.Switcher

/-!
# One connection of the switcher

What happens to one connection, whatever happens to the others: the server stands at some stage of the connection's
current request (`Stage`), and client, server and the packages on the way fit together (`Link`). A step of the system in
which no `Serialize` throws is a hop of each connection (`Hop`), and every hop keeps the link.
-/

namespace Tunnel

open Lib

namespace Switcher

/-! ## Packages of their own kind -/

namespace Message

@[simp] theorem asRequest_request (pkg : RequestPackage) : (Message.request pkg).asRequest = some pkg := rfl

@[simp] theorem asData_data (pkg : DataPackage) : (Message.data pkg).asData = some pkg := rfl

@[simp] theorem asResponse_response (pkg : ResponsePackage) : (Message.response pkg).asResponse = some pkg := rfl

end Message

/-! ## Stages and links -/

/-- What the server is about to do with a connection. -/
inductive Stage where
  /-- read its next request -/
  | fresh
  /-- read the data of a push -/
  | wantsData (t : Topic)
  /-- write the data of a push elsewhere -/
  | sending (t : Topic) (d : DataPackage)
  /-- write the response of a push -/
  | sent (t : Topic)
  /-- write the data that a pop waits for -/
  | wantsValue (t : Topic)
  /-- write the response of a pop -/
  | given (t : Topic)
  /-- write the response of another request -/
  | answers
  /-- nothing any more -/
  | gone
  deriving DecidableEq

namespace ClientCtl

/-- The call a client is in. -/
def call : ClientCtl → Option Call
  | .idle => none
  | .pushRequested t v => some (.push t v)
  | .pushWaits t v => some (.push t v)
  | .popWaits t => some (.pop t)
  | .popGot t _ => some (.pop t)
  | .closeWaits t => some (.closeTopic t)
  | .checkWaits t => some (.checkTopicExist t)

/-- The data the client has sent in its call. -/
def dataSent : ClientCtl → List Message
  | .pushWaits _ v => [.data (dataPackage v)]
  | _ => []

/-- The client has nothing of the server's answer yet. -/
def unanswered : ClientCtl → Bool
  | .popGot _ _ => false
  | _ => true

/-- All that the client waits for is on its way. -/
def Owed : ClientCtl → List Message → Prop
  | .popWaits _, out => ∃ d r, out = [.data d, .response r]
  | .pushWaits _ _, out => ∃ r, out = [.response r]
  | .popGot _ _, out => ∃ r, out = [.response r]
  | .closeWaits _, out => ∃ r, out = [.response r]
  | .checkWaits _, out => ∃ r, out = [.response r]
  | _, _ => False

end ClientCtl

/-- The request of a call. -/
def Call.Asks (k : Call) (pkg : RequestPackage) : Prop := pkg.topic = k.topic ∧ pkg.type = k.type

/-- Client, packages on the way and server fit together. -/
def Link (x : Session) : Stage → Prop
  | .fresh =>
    (x.ctl = .idle ∧ x.inbox = [] ∧ x.outbox = [] ∧ x.served = x.calls.length) ∨
    (∃ k pkg, x.ctl.call = some k ∧ x.ctl.unanswered = true ∧ k.Asks pkg ∧ x.inbox = .request pkg :: x.ctl.dataSent ∧
      x.outbox = [] ∧ x.served + 1 = x.calls.length) ∨
    (x.ctl.Owed x.outbox ∧ x.inbox = [] ∧ x.served = x.calls.length)
  | .wantsData t =>
    (∃ v, x.ctl.call = some (.push t v)) ∧ x.inbox = x.ctl.dataSent ∧ x.outbox = [] ∧ x.served = x.calls.length
  | .sending t d =>
    (∃ v, x.ctl = .pushWaits t v ∧ d = dataPackage v) ∧ x.inbox = [] ∧ x.outbox = [] ∧ x.served = x.calls.length
  | .sent t => (∃ v, x.ctl = .pushWaits t v) ∧ x.inbox = [] ∧ x.outbox = [] ∧ x.served = x.calls.length
  | .wantsValue t => x.ctl = .popWaits t ∧ x.inbox = [] ∧ x.outbox = [] ∧ x.served = x.calls.length
  | .given t =>
    (∃ d, (x.ctl = .popWaits t ∧ x.outbox = [.data d]) ∨ (x.ctl = .popGot t d ∧ x.outbox = [])) ∧ x.inbox = [] ∧
      x.served = x.calls.length
  | .answers =>
    (∃ t, x.ctl = .closeWaits t ∨ x.ctl = .checkWaits t) ∧ x.inbox = [] ∧ x.outbox = [] ∧ x.served = x.calls.length
  | .gone => x.outbox = [] ∨ x.ctl.Owed x.outbox ∨ ∃ t d, x.ctl = .popWaits t ∧ x.outbox = [.data d]

/-- What a hop means for the records of the server. -/
inductive Label where
  | quiet
  | pushes (t : Topic) (d : DataPackage)
  | pops (t : Topic) (d : DataPackage)
  | acks
  deriving DecidableEq

/-- Where a request leads. -/
def Stage.after (pkg : RequestPackage) (st : Stage) : Prop :=
  if pkg.type = requestTypePush then st = .wantsData pkg.topic
  else if pkg.type = requestTypePop then st = .wantsValue pkg.topic
  else st = .answers ∨ st = .gone

/-- A package to the client. -/
def Session.put (x : Session) (m : Message) : Session := { x with outbox := x.outbox ++ [m] }

/-- What happens to one connection in a step. -/
inductive Hop : Session → Stage → Label → Session → Stage → Prop where
  | stay (x : Session) (st : Stage) : Hop x st .quiet x st
  | begin {x : Session} (st : Stage) (k : Call) (timeoutMs : Int32) (h : x.ctl = .idle) :
      Hop x st .quiet (x.begin k timeoutMs) st
  | sendData {x x' : Session} (st : Stage) (h : x.sendData = some x') : Hop x st .quiet x' st
  | receive {x x' : Session} (st : Stage) (h : x.receive = .ok x') : Hop x st .quiet x' st
  | raise (x : Session) : Hop x .gone .quiet { x with ctl := .idle, outbox := [] } .gone
  | close (x : Session) (st : Stage) : Hop x st .quiet x .gone
  | request {x : Session} {pkg : RequestPackage} {rest : List Message} {st : Stage} (h : x.inbox = .request pkg :: rest)
      (hst : st.after pkg) : Hop x .fresh .quiet { x with inbox := rest, served := x.served + 1 } st
  | answer (x : Session) (r : ResponsePackage) : Hop x .answers .quiet (x.put (.response r)) .fresh
  | data {x : Session} {t : Topic} {d : DataPackage} {rest : List Message} (h : x.inbox = .data d :: rest) :
      Hop x (.wantsData t) .quiet { x with inbox := rest } (.sending t d)
  | deliver (x : Session) (t : Topic) (d : DataPackage) : Hop x (.sending t d) (.pushes t d) x (.sent t)
  | ack (x : Session) (t : Topic) (r : ResponsePackage) : Hop x (.sent t) .acks (x.put (.response r)) .fresh
  | give (x : Session) (t : Topic) (d : DataPackage) : Hop x (.wantsValue t) (.pops t d) (x.put (.data d)) (.given t)
  | finish (x : Session) (t : Topic) (r : ResponsePackage) : Hop x (.given t) .quiet (x.put (.response r)) .fresh

/-! ## What the clients do -/

namespace Session

variable {x x' : Session}

/-- A read that comes to an end does so with a package that was decoded. -/
theorem goOn_ok {α : Type} {rest : List Message} {next : α → Session} {a : Option α} (h : x.goOn rest next a = .ok x') :
    ∃ v, a = some v ∧ x' = next v := by
  cases a with
  | none => nomatch h
  | some v =>
    cases h
    exact ⟨v, rfl, rfl⟩

/-- A client receives what it waits for. -/
theorem receive_ok (h : x.receive = .ok x') : ∃ m rest, x.outbox = m :: rest ∧
    ((∃ t d, x.ctl = .popWaits t ∧ m.asData = some d ∧ x' = { x with ctl := .popGot t d, outbox := rest }) ∨
    (∃ r a, m.asResponse = some r ∧ x' = x.finish rest a ∧ x.ctl.reads = some .response ∧
      ∀ t v, a = .popped t v ↔ ∃ d, x.ctl = .popGot t d ∧ v = valueOf d)) := by
  unfold receive at h
  split at h
  · nomatch h
  · nomatch h
  · nomatch h
  · rename_i t v m rest hctl hout
    obtain ⟨r, hr, rfl⟩ := goOn_ok h
    exact ⟨m, rest, hout, .inr ⟨r, _, hr, rfl, by rw [hctl]; rfl, by rw [hctl]; simp⟩⟩
  · rename_i t m rest hctl hout
    obtain ⟨d, hd, rfl⟩ := goOn_ok h
    exact ⟨m, rest, hout, .inl ⟨t, d, hctl, hd, rfl⟩⟩
  · rename_i t d m rest hctl hout
    obtain ⟨r, hr, rfl⟩ := goOn_ok h
    refine ⟨m, rest, hout, .inr ⟨r, _, hr, rfl, by rw [hctl]; rfl, ?_⟩⟩
    intro t' v
    rw [hctl]
    constructor
    · rintro ⟨⟩
      exact ⟨d, rfl, rfl⟩
    · rintro ⟨d', ⟨⟩, rfl⟩
      rfl
  · rename_i t m rest hctl hout
    obtain ⟨r, hr, rfl⟩ := goOn_ok h
    exact ⟨m, rest, hout, .inr ⟨r, _, hr, rfl, by rw [hctl]; rfl, by rw [hctl]; simp⟩⟩
  · rename_i t m rest hctl hout
    obtain ⟨r, hr, rfl⟩ := goOn_ok h
    exact ⟨m, rest, hout, .inr ⟨r, _, hr, rfl, by rw [hctl]; rfl, by rw [hctl]; simp⟩⟩

/-- A package of the wrong kind. -/
theorem goOn_fault {α : Type} {rest : List Message} {next : α → Session} {a : Option α}
    (h : x.goOn rest next a = .fault x') :
    a = none ∧ x' = { x with outbox := rest } := by
  cases a with
  | none =>
    cases h
    exact ⟨rfl, rfl⟩
  | some v => nomatch h

/-- A client reads a package that it cannot decode. -/
theorem receive_fault (h : x.receive = .fault x') : ∃ m rest, x.outbox = m :: rest ∧ x' = { x with outbox := rest } ∧
    ((x.ctl.reads = some .data ∧ m.asData = none) ∨ (x.ctl.reads = some .response ∧ m.asResponse = none)) := by
  unfold receive at h
  split at h
  · nomatch h
  · nomatch h
  · nomatch h
  · rename_i m rest hctl hout
    obtain ⟨hm, rfl⟩ := goOn_fault h
    exact ⟨m, rest, hout, rfl, .inr ⟨by rw [hctl]; rfl, hm⟩⟩
  · rename_i m rest hctl hout
    obtain ⟨hm, rfl⟩ := goOn_fault h
    exact ⟨m, rest, hout, rfl, .inl ⟨by rw [hctl]; rfl, hm⟩⟩
  all_goals
    rename_i m rest hctl hout
    obtain ⟨hm, rfl⟩ := goOn_fault h
    exact ⟨m, rest, hout, rfl, .inr ⟨by rw [hctl]; rfl, hm⟩⟩

/-- What `serialize` leaves when it throws. -/
theorem serializeThrows_eq (h : x.serializeThrows = some x') :
    ∃ t v, x.ctl = .pushRequested t (some v) ∧ x' = { x with ctl := .idle } := by
  unfold serializeThrows at h
  split at h
  · rename_i t v hctl
    cases h
    exact ⟨t, v, hctl, rfl⟩
  · nomatch h

/-- Data go to the server. -/
theorem sendData_eq (h : x.sendData = some x') : ∃ t v, x.ctl = .pushRequested t v ∧
    x' = { x with ctl := .pushWaits t v, inbox := x.inbox ++ [.data (dataPackage v)] } := by
  unfold sendData at h
  split at h
  · rename_i t v hctl
    cases h
    exact ⟨t, v, hctl, rfl⟩
  · nomatch h

/-- A call begins. -/
theorem begin_call (x : Session) (k : Call) (timeoutMs : Int32) :
    (x.begin k timeoutMs).ctl.call = some k ∧ (x.begin k timeoutMs).ctl.unanswered = true ∧
    (x.begin k timeoutMs).ctl.dataSent = [] := by
  cases k <;> exact ⟨rfl, rfl, rfl⟩

end Session

/-! ## Every hop keeps the link -/

namespace Link

variable {x x' : Session} {st : Stage}

/-- A closed connection. -/
theorem close (h : Link x st) : Link x .gone := by
  cases st with
  | fresh =>
    obtain ⟨-, -, hout, -⟩ | ⟨k, pkg, -, -, -, -, hout, -⟩ | ⟨howed, -⟩ := h
    · exact .inl hout
    · exact .inl hout
    · exact .inr (.inl howed)
  | wantsData t => exact .inl h.2.2.1
  | sending t d => exact .inl h.2.2.1
  | sent t => exact .inl h.2.2.1
  | wantsValue t => exact .inl h.2.2.1
  | given t =>
    obtain ⟨⟨d, ⟨hctl, hout⟩ | ⟨-, hout⟩⟩, -⟩ := h
    · exact .inr (.inr ⟨t, d, hctl, hout⟩)
    · exact .inl hout
  | answers => exact .inl h.2.2.1
  | gone => exact h

/-- A client that is in no call has nothing on its way, unless the server has closed the connection. -/
theorem of_idle (h : Link x st) (hidle : x.ctl = .idle) :
    (st = .fresh ∧ x.inbox = [] ∧ x.outbox = [] ∧ x.served = x.calls.length) ∨ (st = .gone ∧ x.outbox = []) := by
  cases st with
  | fresh =>
    obtain ⟨-, hin, hout, hserved⟩ | ⟨k, pkg, hcall, -⟩ | ⟨howed, -⟩ := h
    · exact .inl ⟨rfl, hin, hout, hserved⟩
    · rw [hidle] at hcall
      nomatch hcall
    · rw [hidle] at howed
      nomatch howed
  | wantsData t =>
    obtain ⟨⟨v, hcall⟩, -⟩ := h
    rw [hidle] at hcall
    nomatch hcall
  | sending t d =>
    obtain ⟨⟨v, hctl, -⟩, -⟩ := h
    rw [hidle] at hctl
    nomatch hctl
  | sent t =>
    obtain ⟨⟨v, hctl⟩, -⟩ := h
    rw [hidle] at hctl
    nomatch hctl
  | wantsValue t =>
    obtain ⟨hctl, -⟩ := h
    rw [hidle] at hctl
    nomatch hctl
  | given t =>
    obtain ⟨⟨d, ⟨hctl, -⟩ | ⟨hctl, -⟩⟩, -⟩ := h <;> rw [hidle] at hctl <;> nomatch hctl
  | answers =>
    obtain ⟨⟨t, hctl | hctl⟩, -⟩ := h <;> rw [hidle] at hctl <;> nomatch hctl
  | gone =>
    obtain hout | howed | ⟨t, d, hctl, -⟩ := h
    · exact .inr ⟨rfl, hout⟩
    · rw [hidle] at howed
      nomatch howed
    · rw [hidle] at hctl
      nomatch hctl

/-- A call keeps it. -/
theorem begin (h : Link x st) (hidle : x.ctl = .idle) (k : Call) (timeoutMs : Int32) :
    Link (x.begin k timeoutMs) st := by
  obtain ⟨hcall, hun, hsent⟩ := x.begin_call k timeoutMs
  obtain ⟨rfl, hin, hout, hserved⟩ | ⟨rfl, hout⟩ := h.of_idle hidle
  · refine .inr (.inl ⟨k, k.request timeoutMs, hcall, hun, ⟨rfl, rfl⟩, ?_, hout, ?_⟩)
    · rw [hsent]
      show x.inbox ++ _ = _
      rw [hin]
      rfl
    · show x.served + 1 = (x.calls ++ [k]).length
      rw [hserved, List.length_append]
      rfl
  · exact .inl hout

/-- A client between the request and the data of a push. -/
theorem of_requested (h : Link x st) {t : Topic} {v : Option Bytes} (hctl : x.ctl = .pushRequested t v) :
    (st = .fresh ∧ ∃ pkg, (Call.push t v).Asks pkg ∧ x.inbox = [.request pkg] ∧ x.outbox = [] ∧
      x.served + 1 = x.calls.length) ∨
    (st = .wantsData t ∧ x.inbox = [] ∧ x.outbox = [] ∧ x.served = x.calls.length) ∨ (st = .gone ∧ x.outbox = []) := by
  cases st with
  | fresh =>
    obtain ⟨hidle, -⟩ | ⟨k, pkg, hcall, -, hasks, hin, hout, hserved⟩ | ⟨howed, -⟩ := h
    · rw [hctl] at hidle
      nomatch hidle
    · rw [hctl] at hcall hin
      cases hcall
      exact .inl ⟨rfl, pkg, hasks, hin, hout, hserved⟩
    · rw [hctl] at howed
      nomatch howed
  | wantsData t' =>
    obtain ⟨⟨v', hcall⟩, hin, hout, hserved⟩ := h
    rw [hctl] at hcall hin
    cases hcall
    exact .inr (.inl ⟨rfl, hin, hout, hserved⟩)
  | sending t d =>
    obtain ⟨⟨v, h, -⟩, -⟩ := h
    rw [hctl] at h
    nomatch h
  | sent t =>
    obtain ⟨⟨v, h⟩, -⟩ := h
    rw [hctl] at h
    nomatch h
  | wantsValue t =>
    obtain ⟨h, -⟩ := h
    rw [hctl] at h
    nomatch h
  | given t =>
    obtain ⟨⟨d, ⟨h, -⟩ | ⟨h, -⟩⟩, -⟩ := h <;> rw [hctl] at h <;> nomatch h
  | answers =>
    obtain ⟨⟨t, h | h⟩, -⟩ := h <;> rw [hctl] at h <;> nomatch h
  | gone =>
    obtain hout | howed | ⟨t, d, h, -⟩ := h
    · exact .inr (.inr ⟨rfl, hout⟩)
    · rw [hctl] at howed
      nomatch howed
    · rw [hctl] at h
      nomatch h

/-- Data keep it. -/
theorem sendData (h : Link x st) (hsend : x.sendData = some x') : Link x' st := by
  obtain ⟨t, v, hctl, rfl⟩ := Session.sendData_eq hsend
  obtain ⟨rfl, pkg, hasks, hin, hout, hserved⟩ | ⟨rfl, hin, hout, hserved⟩ | ⟨rfl, hout⟩ := h.of_requested hctl
  · exact .inr (.inl ⟨.push t v, pkg, rfl, rfl, hasks, by simp [hin, ClientCtl.dataSent], hout, hserved⟩)
  · exact ⟨⟨v, rfl⟩, by simp [hin, ClientCtl.dataSent], hout, hserved⟩
  · exact .inl hout

/-- When there is something for a client to receive, the server is done with its request, or has given a pop its data,
or is gone. -/
theorem of_outbox (h : Link x st) (hne : x.outbox ≠ []) :
    (st = .fresh ∧ x.ctl.Owed x.outbox ∧ x.inbox = [] ∧ x.served = x.calls.length) ∨
    (∃ t d, st = .given t ∧ x.ctl = .popWaits t ∧ x.outbox = [.data d] ∧ x.inbox = [] ∧ x.served = x.calls.length) ∨
    (st = .gone ∧ (x.ctl.Owed x.outbox ∨ ∃ t d, x.ctl = .popWaits t ∧ x.outbox = [.data d])) := by
  cases st with
  | fresh =>
    obtain ⟨-, -, hout, -⟩ | ⟨k, pkg, -, -, -, -, hout, -⟩ | ⟨howed, hin, hserved⟩ := h
    · exact absurd hout hne
    · exact absurd hout hne
    · exact .inl ⟨rfl, howed, hin, hserved⟩
  | wantsData t => exact absurd h.2.2.1 hne
  | sending t d => exact absurd h.2.2.1 hne
  | sent t => exact absurd h.2.2.1 hne
  | wantsValue t => exact absurd h.2.2.1 hne
  | given t =>
    obtain ⟨⟨d, ⟨hctl, hout⟩ | ⟨-, hout⟩⟩, hin, hserved⟩ := h
    · exact .inr (.inl ⟨t, d, rfl, hctl, hout, hin, hserved⟩)
    · exact absurd hout hne
  | answers => exact absurd h.2.2.1 hne
  | gone =>
    obtain hout | h := h
    · exact absurd hout hne
    · exact .inr (.inr ⟨rfl, h⟩)

/-- What a client receives when all it waits for is on its way. -/
theorem owed_receive (h : x.ctl.Owed x.outbox) (hrec : x.receive = .ok x') :
    x'.inbox = x.inbox ∧ x'.served = x.served ∧ x'.calls = x.calls ∧
    ((x'.ctl = .idle ∧ x'.outbox = []) ∨ x'.ctl.Owed x'.outbox) := by
  obtain ⟨m, rest, hout, ⟨t, d, hctl, -, rfl⟩ | ⟨r, a, -, rfl, hreads, -⟩⟩ := Session.receive_ok hrec
  · rw [hctl, hout] at h
    obtain ⟨d', r, hrest⟩ := h
    obtain ⟨-, rfl⟩ := List.cons.inj hrest
    exact ⟨rfl, rfl, rfl, .inr ⟨r, rfl⟩⟩
  · refine ⟨rfl, rfl, rfl, .inl ⟨rfl, ?_⟩⟩
    show rest = []
    cases hctl : x.ctl with
    | popWaits t => rw [hctl] at hreads; nomatch hreads
    | idle => rw [hctl] at h; nomatch h
    | pushRequested t v => rw [hctl] at h; nomatch h
    | _ =>
      rw [hctl, hout] at h
      obtain ⟨r', hr⟩ := h
      exact (List.cons.inj hr).2

/-- A read keeps it. -/
theorem receive (h : Link x st) (hrec : x.receive = .ok x') : Link x' st := by
  have hne : x.outbox ≠ [] := by
    obtain ⟨m, rest, hout, -⟩ := Session.receive_ok hrec
    rw [hout]
    exact List.cons_ne_nil m rest
  -- the data of a pop alone
  have hdata : ∀ t d, x.ctl = .popWaits t → x.outbox = [.data d] →
      x' = { x with ctl := .popGot t d, outbox := [] } := by
    intro t d hctl hout
    obtain ⟨m, rest, hout', ⟨t', d', hctl', hd, rfl⟩ | ⟨r, a, -, -, hreads, -⟩⟩ := Session.receive_ok hrec
    · rw [hctl] at hctl'
      rw [hout] at hout'
      cases hctl'
      cases hout'
      cases hd
      rfl
    · rw [hctl] at hreads
      nomatch hreads
  obtain ⟨rfl, howed, hin, hserved⟩ | ⟨t, d, rfl, hctl, hout, hin, hserved⟩ | ⟨rfl, howed | ⟨t, d, hctl, hout⟩⟩ :=
    h.of_outbox hne
  · obtain ⟨hin', hserved', hcalls', ⟨hctl', hout'⟩ | howed'⟩ := owed_receive howed hrec
    · exact .inl ⟨hctl', hin'.trans hin, hout', by rw [hserved', hcalls', hserved]⟩
    · exact .inr (.inr ⟨howed', hin'.trans hin, by rw [hserved', hcalls', hserved]⟩)
  · obtain rfl := hdata t d hctl hout
    exact ⟨⟨d, .inr ⟨rfl, rfl⟩⟩, hin, hserved⟩
  · obtain ⟨-, -, -, ⟨-, hout'⟩ | howed'⟩ := owed_receive howed hrec
    · exact .inl hout'
    · exact .inr (.inl howed')
  · obtain rfl := hdata t d hctl hout
    exact .inl rfl

variable {m : Message} {rest : List Message}

/-- What comes to a client is of the kind that it waits for. -/
theorem kind_of_outbox (h : Link x st) {kind : Kind} (hreads : x.ctl.reads = some kind) (hout : x.outbox = m :: rest) :
    m.kind = kind := by
  have howed : x.ctl.Owed x.outbox → m.kind = kind := by
    intro howed
    rw [hout] at howed
    cases hctl : x.ctl with
    | idle => rw [hctl] at howed; nomatch howed
    | pushRequested t v => rw [hctl] at howed; nomatch howed
    | popWaits t =>
      rw [hctl] at howed hreads
      obtain ⟨d, r, hlist⟩ := howed
      cases hlist
      exact Option.some.inj hreads
    | _ =>
      rw [hctl] at howed hreads
      obtain ⟨r, hlist⟩ := howed
      cases hlist
      exact Option.some.inj hreads
  have hdata : ∀ t d, x.ctl = .popWaits t → x.outbox = [.data d] → m.kind = kind := by
    intro t d hctl hout'
    rw [hctl] at hreads
    rw [hout] at hout'
    cases hout'
    exact Option.some.inj hreads
  obtain ⟨-, h, -⟩ | ⟨t, d, -, hctl, hout', -⟩ | ⟨-, h | ⟨t, d, hctl, hout'⟩⟩ :=
    h.of_outbox (by rw [hout]; exact List.cons_ne_nil _ _)
  · exact howed h
  · exact hdata t d hctl hout'
  · exact howed h
  · exact hdata t d hctl hout'

/-- A client decodes what it waits for. -/
theorem not_fault (h : Link x st) : x.receive ≠ .fault x' := by
  intro hfault
  obtain ⟨m, rest, hout, -, ⟨hreads, hnone⟩ | ⟨hreads, hnone⟩⟩ := Session.receive_fault hfault
  · have hkind := h.kind_of_outbox hreads hout
    cases m with
    | data d => nomatch hnone
    | _ => nomatch hkind
  · have hkind := h.kind_of_outbox hreads hout
    cases m with
    | response r => nomatch hnone
    | _ => nomatch hkind

/-! ### The server -/

/-- What the server reads from a connection whose request it reads next is a request, of the call the client is in. -/
theorem of_inbox (h : Link x .fresh) (hin : x.inbox = m :: rest) :
    ∃ k pkg, m = .request pkg ∧ x.ctl.call = some k ∧ x.ctl.unanswered = true ∧ k.Asks pkg ∧ rest = x.ctl.dataSent ∧
    x.outbox = [] ∧
      x.served + 1 = x.calls.length := by
  obtain ⟨-, hnil, -⟩ | ⟨k, pkg, hcall, hun, hasks, hin', hout, hserved⟩ | ⟨-, hnil, -⟩ := h
  · rw [hin] at hnil
    nomatch hnil
  · rw [hin] at hin'
    obtain ⟨rfl, rfl⟩ := List.cons.inj hin'
    exact ⟨k, pkg, rfl, hcall, hun, hasks, rfl, hout, hserved⟩
  · rw [hin] at hnil
    nomatch hnil

/-- A request keeps it. -/
theorem request (h : Link x .fresh) {pkg : RequestPackage} (hin : x.inbox = .request pkg :: rest) (hst : st.after pkg) :
    Link { x with inbox := rest, served := x.served + 1 } st := by
  obtain ⟨k, pkg', hm, hcall, hun, ⟨htopic, htype⟩, rfl, hout, hserved⟩ := h.of_inbox hin
  cases hm
  rw [Stage.after, htype, htopic] at hst
  cases hctl : x.ctl with
  | idle => rw [hctl] at hcall; nomatch hcall
  | popGot t d => rw [hctl] at hun; nomatch hun
  | pushRequested t v =>
    rw [hctl] at hcall
    cases hcall
    obtain rfl : st = .wantsData t := hst
    exact ⟨⟨v, rfl⟩, rfl, hout, hserved⟩
  | pushWaits t v =>
    rw [hctl] at hcall
    cases hcall
    obtain rfl : st = .wantsData t := hst
    exact ⟨⟨v, rfl⟩, rfl, hout, hserved⟩
  | popWaits t =>
    rw [hctl] at hcall
    cases hcall
    obtain rfl : st = .wantsValue t := hst
    exact ⟨rfl, rfl, hout, hserved⟩
  | closeWaits t =>
    rw [hctl] at hcall
    cases hcall
    obtain rfl | rfl : st = .answers ∨ st = .gone := hst
    · exact ⟨⟨t, .inl rfl⟩, rfl, hout, hserved⟩
    · exact .inl hout
  | checkWaits t =>
    rw [hctl] at hcall
    cases hcall
    obtain rfl | rfl : st = .answers ∨ st = .gone := hst
    · exact ⟨⟨t, .inr rfl⟩, rfl, hout, hserved⟩
    · exact .inl hout

/-- What the server reads from a connection whose data it reads next is the data of the push. -/
theorem of_wantsData {t : Topic} (h : Link x (.wantsData t)) (hin : x.inbox = m :: rest) :
    ∃ v, m = .data (dataPackage v) ∧ rest = [] ∧ x.ctl = .pushWaits t v := by
  obtain ⟨⟨v, hcall⟩, hin', -⟩ := h
  rw [hin] at hin'
  cases hctl : x.ctl with
  | pushWaits t' v' =>
    rw [hctl] at hcall hin'
    cases hcall
    obtain ⟨rfl, rfl⟩ := List.cons.inj hin'
    exact ⟨v, rfl, rfl, rfl⟩
  | _ => rw [hctl] at hin'; nomatch hin'

/-- Every hop keeps it. -/
theorem hop {l : Label} {st' : Stage} (h : Link x st) (hh : Hop x st l x' st') : Link x' st' := by
  cases hh with
  | stay => exact h
  | begin _ k timeoutMs hidle => exact h.begin hidle k timeoutMs
  | sendData _ hsend => exact h.sendData hsend
  | receive _ hrec => exact h.receive hrec
  | raise => exact .inl rfl
  | close => exact h.close
  | request hin hst => exact h.request hin hst
  | answer r =>
    obtain ⟨⟨t, hctl⟩, hin, hout, hserved⟩ := h
    refine .inr (.inr ⟨?_, hin, hserved⟩)
    obtain hctl | hctl := hctl <;> simp only [Session.put, hctl, hout] <;> exact ⟨r, rfl⟩
  | @data t d rest hin =>
    obtain ⟨v, hm, rfl, hctl⟩ := h.of_wantsData hin
    cases hm
    exact ⟨⟨v, hctl, rfl⟩, rfl, h.2.2⟩
  | deliver t d =>
    obtain ⟨⟨v, hctl, -⟩, hrest⟩ := h
    exact ⟨⟨v, hctl⟩, hrest⟩
  | ack t r =>
    obtain ⟨⟨v, hctl⟩, hin, hout, hserved⟩ := h
    refine .inr (.inr ⟨?_, hin, hserved⟩)
    simp only [Session.put, hctl, hout]
    exact ⟨r, rfl⟩
  | give t d =>
    obtain ⟨hctl, hin, hout, hserved⟩ := h
    exact ⟨⟨d, .inl ⟨hctl, by simp [Session.put, hout]⟩⟩, hin, hserved⟩
  | finish t r =>
    obtain ⟨⟨d, ⟨hctl, hout⟩ | ⟨hctl, hout⟩⟩, hin, hserved⟩ := h
    · refine .inr (.inr ⟨?_, hin, hserved⟩)
      simp only [Session.put, hctl, hout]
      exact ⟨d, r, rfl⟩
    · refine .inr (.inr ⟨?_, hin, hserved⟩)
      simp only [Session.put, hctl, hout]
      exact ⟨r, rfl⟩

end Link

end Switcher

end Tunnel
