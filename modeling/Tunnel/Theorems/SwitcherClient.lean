import Tunnel.SwitcherClient
import Tunnel.Theorems.Socket

/-!
# What a client writes depends on its calls

Everything that a call does behind its request is the same whatever the memory held (`afterRequest_memory`): both paths
of `Push` set `eof`, and a read that returns has filled its buffer (`receive_eq`). In the request itself `topic` and
`type` are set and `timeout_ms` is not. So the bytes of a call are a text with a gap, and in the gap is as much of
`timeout_ms` as the connection has taken (`perform_gap`); two runs write the same bytes exactly when the gaps are filled
alike (`client_bytes`).
-/

namespace Tunnel

open Lib

namespace SwitcherClient

/-- The bytes of `timeout_ms` on the wire. -/
def Memory.timeoutBytes (mem : Memory) : Bytes := encodeIntegral mem.timeoutMs.toBitVec

@[simp] theorem Memory.length_timeoutBytes (mem : Memory) :
    mem.timeoutBytes.length = integralSize := length_encodeIntegral _

/-! ## Reads and writes -/

theorem appends_ofWire {α : Type} (r : Except WireFault α) : Attempt.Appends (ofWire r) := Attempt.Appends.lift _

section

variable {link : Link} {bytes : Bytes} {c : SwitcherClient}

/-- Without a connection nothing goes out. -/
theorem send_closed (hc : c.connected = false) (log : Bytes) :
    send link bytes (c, log) = (.error (.threw "Bad file descriptor"), c, log) :=
  if_pos hc

/-- A connection that holds takes all bytes. -/
theorem send_all (hc : c.connected = true) (hb : link.breaks c.writes = none) (log : Bytes) :
    send link bytes (c, log) = (.ok (), { c with writes := c.writes + 1 }, log ++ bytes) := by
  simp [send, hc, hb]

/-- One that breaks takes some of them. -/
theorem send_part (hc : c.connected = true) {n : Nat} (hb : link.breaks c.writes = some n) (log : Bytes) :
    send link bytes (c, log) = (.error (.threw "socket write error"), { c with writes := c.writes + 1 },
      log ++ bytes.take n) := by
  simp [send, hc, hb]

end

/-- `send` only adds to what was sent. -/
theorem appends_send (link : Link) (bytes : Bytes) : Attempt.Appends (send link bytes) := by
  intro c
  cases hc : c.connected with
  | false => exact ⟨_, c, [], fun log => by rw [send_closed hc, List.append_nil]⟩
  | true =>
    cases hb : link.breaks c.writes with
    | none => exact ⟨_, _, bytes, send_all hc hb⟩
    | some n => exact ⟨_, _, bytes.take n, send_part hc hb⟩

/-- How many bytes of two writes the connection takes, the first of `a` bytes and the second of `b`. -/
def pairTaken (link : Link) (c : SwitcherClient) (a b : Nat) : Nat :=
  if c.connected = false then 0 else
  match link.breaks c.writes with
  | some n => min n a
  | none =>
    match link.breaks (c.writes + 1) with
    | some n => a + n
    | none => a + b

/-- Of two writes the connection takes the first bytes, all of them if both return. -/
theorem send_pair (link : Link) (c : SwitcherClient) (a : Bytes) (size : Nat) :
    ∃ (r : Except SocketStop Unit)
    (c' : SwitcherClient), (r = .ok () → a.length + size ≤ pairTaken link c a.length size) ∧
      ∀ (b log : Bytes), b.length = size →
        (send link a >>= fun _ => send link b) (c, log) = (r, c',
          log ++ (a ++ b).take (pairTaken link c a.length size)) := by
  cases hc : c.connected with
  | false =>
    refine ⟨.error (.threw "Bad file descriptor"), c, fun h => (by cases h), fun b log _ => ?_⟩
    have htakes : pairTaken link c a.length size = 0 := if_pos hc
    rw [Attempt.bind_error (send_closed hc log), htakes, List.take_zero, List.append_nil]
  | true =>
    cases hb : link.breaks c.writes with
    | some n =>
      refine ⟨.error (.threw "socket write error"), { c with writes := c.writes + 1 }, fun h => (by cases h),
        fun b log _ => ?_⟩
      have htakes : pairTaken link c a.length size = min n a.length := by simp [pairTaken, hc, hb]
      rw [Attempt.bind_error (send_part hc hb log), htakes, ← List.take_take, List.take_left]
    | none =>
      let c₁ : SwitcherClient := { c with writes := c.writes + 1 }
      cases hb' : link.breaks c₁.writes with
      | some n =>
        refine ⟨.error (.threw "socket write error"), { c₁ with writes := c₁.writes + 1 }, fun h => (by cases h),
          fun b log _ => ?_⟩
        have htakes : pairTaken link c a.length size = a.length + n := by
          simp [pairTaken, hc, hb, show link.breaks (c.writes + 1) = some n from hb']
        rw [Attempt.bind_ok (send_all hc hb log), send_part (c := c₁) hc hb', htakes, List.take_length_add_append,
          List.append_assoc]
      | none =>
        have htakes : pairTaken link c a.length size = a.length + size := by
          simp [pairTaken, hc, hb, show link.breaks (c.writes + 1) = none from hb']
        refine ⟨.ok (), { c₁ with writes := c₁.writes + 1 }, fun _ => Nat.le_of_eq htakes.symm, fun b log hsize => ?_⟩
        rw [Attempt.bind_ok (send_all hc hb log), send_all (c := c₁) hc hb', htakes, ← hsize, ← List.length_append,
          List.take_length, List.append_assoc]

/-- `receive` sends nothing. -/
theorem appends_receive (link : Link) (buf : Bytes) : Attempt.Appends (receive link buf) := by
  intro c
  refine ⟨(receive link buf (c, [])).1, (receive link buf (c, [])).2.1, [], fun log => ?_⟩
  rw [List.append_nil]
  unfold receive
  dsimp only
  split
  · rfl
  · split <;> rfl

/-- A read that does not end gives what it was asked for. -/
theorem length_transferred {n : Nat} {unread : Bytes} (h : (Switcher.asyncRead n unread).eof = false) :
    (Switcher.asyncRead n unread).transferred.length = n := by
  unfold Switcher.asyncRead at h ⊢
  split
  · rename_i hle
    exact List.length_take_of_le hle
  · rename_i hle
    rw [if_neg hle] at h
    cases h

/-- A read that returns has replaced all that the buffer held. -/
theorem receive_eq (link : Link) {buf buf' : Bytes} (h : buf.length = buf'.length) :
    receive link buf = receive link buf' := by
  have hfull : ∀ (b : Bytes) (c : SwitcherClient), (Switcher.asyncRead b.length c.unread).eof = false →
      b.drop (Switcher.asyncRead b.length c.unread).transferred.length = [] := by
    intro b c he
    rw [length_transferred he, List.drop_length]
  funext ⟨c, log⟩
  have hbuf := hfull buf c
  have hbuf' := hfull buf' c
  unfold receive
  rw [h] at hbuf ⊢
  cases he : (Switcher.asyncRead buf'.length c.unread).eof with
  | true => simp only [he, if_true]
  | false => simp only [he, hbuf he, hbuf' he]

/-- What the buffer held before does not count. -/
theorem readPackage_held (host : Endian) (link : Link) (T : WireType) (held held' : Fin integralSize → UInt8) :
    readPackage host link T held = readPackage host link T held' := by
  unfold readPackage
  rw [receive_eq link (show (List.ofFn held).length = (List.ofFn held').length by simp)]

theorem appends_readPackage (host : Endian) (link : Link) (T : WireType) (held : Fin integralSize → UInt8) :
    Attempt.Appends (readPackage host link T held) := by
  refine (appends_receive link _).bind (fun buf => ?_)
  refine (appends_ofWire _).bind (fun length => ?_)
  exact (appends_receive link _).bind (fun buffer => appends_ofWire _)

theorem appends_writePackage (host : Endian) (link : Link) (T : WireType) (pkg : T.Carrier) :
    Attempt.Appends (writePackage host link T pkg) := by
  refine (appends_ofWire _).bind (fun buf => ?_)
  split
  · exact (appends_ofWire _).bind (fun lengthBuf => (appends_send link _).bind (fun _ => appends_send link _))
  · exact Attempt.Appends.lift _

/-! ## The request -/

/-- Where `timeout_ms` stands in what a call on the topic writes: behind the length of the package, the topic with its
length, and the type. -/
def timeoutPlace (topic : Bytes) : Nat := integralSize + (integralSize + topic.length + integralSize)

/-- What a call writes, whatever `timeout_ms` is: the bytes before it, how many bytes of it there are, and the bytes
behind it. What is not written completely has nothing behind it. -/
structure Gap (topic : Bytes) where
  before : Bytes
  size : Nat
  after : Bytes
  size_le : size ≤ integralSize
  before_le : before.length ≤ timeoutPlace topic
  size_eq : before.length < timeoutPlace topic → size = 0
  after_eq : size < integralSize → after = []

namespace Gap

variable {topic : Bytes}

/-- The bytes with those of `timeout_ms` in their place. -/
def fill (g : Gap topic) (timeout : Bytes) : Bytes := g.before ++ timeout.take g.size ++ g.after

/-- The first `n` bytes of a text and of `timeout_ms` behind it. -/
def cut (text : Bytes) (h : text.length = timeoutPlace topic) (n : Nat) : Gap topic where
  before := text.take n
  size := min integralSize (n - text.length)
  after := []
  size_le := Nat.min_le_left ..
  before_le := by
    rw [List.length_take, h]
    exact Nat.min_le_right ..
  size_eq hlt := by
    rw [List.length_take] at hlt
    omega
  after_eq _ := rfl

/-- The gap of a text that is cut off. -/
theorem fill_cut {text : Bytes} (h : text.length = timeoutPlace topic) (n : Nat) {timeout : Bytes}
    (ht : timeout.length = integralSize) :
    (cut text h n).fill timeout = (text ++ timeout).take n := by
  have hmin : timeout.take (min integralSize (n - text.length)) = timeout.take (n - text.length) := by
    rw [← List.take_take, List.take_of_length_le (by rw [List.length_take, ht]; exact Nat.min_le_right ..)]
  rw [fill, cut, List.append_nil, hmin, List.take_append]

/-- How long the text is. -/
theorem length_fill (g : Gap topic) {timeout : Bytes} (h : timeout.length = integralSize) :
    (g.fill timeout).length = g.before.length + g.size + g.after.length := by
  rw [fill, List.length_append, List.length_append, List.length_take, h, Nat.min_eq_left g.size_le]

/-- The gap shows as many bytes of the time-out as it has. -/
theorem fill_inj (g : Gap topic) {timeout timeout' : Bytes} (h : timeout.length = integralSize)
    (h' : timeout'.length = integralSize) :
    g.fill timeout = g.fill timeout' ↔ timeout.take g.size = timeout'.take g.size := by
  constructor
  · intro he
    have hmid := (List.append_inj he (by simp [h, h'])).1
    exact List.append_cancel_left hmid
  · intro he
    rw [fill, fill, he]

end Gap

theorem length_encodeRequest (rp : RequestPackage) : (encodeRequest rp).length = rp.topic.length + 12 := by
  simp only [encodeRequest, encodeString, List.length_append, length_encodeIntegral, integralSize]
  omega

/-- When a request can be serialized. -/
theorem serializeRequest_eq (host : Endian) (rp : RequestPackage) :
    serializeRequest host rp [] = if FitsLength rp.topic then .ok (encodeRequest rp) else .error .assertFailed := by
  by_cases h : FitsLength rp.topic
  · rw [if_pos h]
    exact (lawful_request host host).writes rp [] h
  · have htopic : serializeString host rp.topic [] = .error .assertFailed := if_neg h
    rw [if_neg h, serializeRequest, htopic]
    rfl

/-- The request up to `timeout_ms`. -/
def requestHead (topic : Bytes) (type : Int32) : Bytes := encodeString topic ++ encodeIntegral type.toBitVec

/-- A request is its head, then the time-out. -/
theorem encodeRequest_eq (topic : Bytes) (type timeoutMs : Int32) :
    encodeRequest { topic := topic, type := type, timeoutMs := timeoutMs } = requestHead topic type ++
    encodeIntegral timeoutMs.toBitVec :=
  (List.append_assoc ..).symm

theorem length_requestHead (topic : Bytes) (type : Int32) :
    (requestHead topic type).length = integralSize + topic.length + integralSize := by
  simp only [requestHead, encodeString, List.length_append, length_encodeIntegral]

/-- The length in front of a request, which does not depend on `timeout_ms`. -/
def requestLength (topic : Bytes) : Bytes := encodeIntegral (BitVec.ofNat 32 (topic.length + 12))

/-- A request goes out in two writes. -/
theorem writeRequest_eq (host : Endian) (link : Link) {rp : RequestPackage} (htopic : FitsLength rp.topic)
    (hfits : rp.topic.length + 12 ≤ uint32Max) :
    writePackage host link .request rp = (send link (requestLength rp.topic) >>= fun _ =>
      send link (encodeRequest rp)) := by
  have hbuf : serializeRequest host rp [] = .ok (encodeRequest rp) :=
    (serializeRequest_eq host rp).trans (if_pos htopic)
  have hlen : serializeUInt32 host (UInt32.ofNat (encodeRequest rp).length) [] = .ok (requestLength rp.topic) := by
    rw [requestLength, ← length_encodeRequest]
    exact (lawful_uint32 host host).writes _ [] trivial
  funext s
  change (ofWire (serializeRequest host rp []) >>= _) s = _
  rw [hbuf, Attempt.bind_ok (show ofWire (Except.ok (encodeRequest rp)) s = (.ok (encodeRequest rp), s) from rfl),
    if_pos (by rwa [length_encodeRequest]), hlen]
  rfl

/-- A request that is too long for its length ends the process before anything is written. -/
theorem writeRequest_long (host : Endian) (link : Link) {rp : RequestPackage}
    (hfits : ¬(FitsLength rp.topic ∧ rp.topic.length + 12 ≤ uint32Max)) (s : SwitcherClient × Bytes) :
    writePackage host link .request rp s = (.error (.fault .assertFailed), s) := by
  change (ofWire (serializeRequest host rp []) >>= _) s = _
  by_cases htopic : FitsLength rp.topic
  · have hlong : ¬(encodeRequest rp).length ≤ uint32Max := by
      rw [length_encodeRequest]
      exact fun h => hfits ⟨htopic, h⟩
    rw [serializeRequest_eq, if_pos htopic,
      Attempt.bind_ok (show ofWire (Except.ok (encodeRequest rp)) s = (.ok (encodeRequest rp), s) from rfl),
      if_neg hlong]
    rfl
  · rw [serializeRequest_eq, if_neg htopic]
    rfl

/-- The bytes of a request up to `timeout_ms`, the length in front. -/
def requestText (topic : Bytes) (type : Int32) : Bytes := requestLength topic ++ requestHead topic type

/-- The time-out stands behind the text. -/
theorem length_requestText (topic : Bytes) (type : Int32) : (requestText topic type).length = timeoutPlace topic := by
  rw [requestText, List.length_append, length_requestHead, requestLength, length_encodeIntegral, timeoutPlace]

/-- How many bytes of a request on the topic, with its length in front, the socket takes: none if the request is too
long for the length. -/
def requestTaken (link : Link) (c : SwitcherClient) (topic : Bytes) : Nat :=
  if topic.length + 12 ≤ uint32Max then pairTaken link c integralSize (topic.length + 12) else 0

/-- What `write_package` makes of a request: as many of its bytes are written as the socket takes. -/
theorem writeRequest_take (host : Endian) (link : Link) (c : SwitcherClient) (topic : Bytes) (type : Int32) :
    ∃ (r : Except SocketStop Unit)
    (c' : SwitcherClient), (r = .ok () → timeoutPlace topic + integralSize ≤ requestTaken link c topic) ∧
      ∀ (timeoutMs : Int32) (log : Bytes),
      writePackage host link .request { topic := topic, type := type, timeoutMs := timeoutMs } (c, log) =
        (r, c', log ++ (requestText topic type ++
          encodeIntegral timeoutMs.toBitVec).take (requestTaken link c topic)) := by
  by_cases hfits : topic.length + 12 ≤ uint32Max
  · have htopic : FitsLength topic := Nat.le_trans (Nat.le_add_right _ _) hfits
    obtain ⟨r, c', hn, hsend⟩ := send_pair link c (requestLength topic) (topic.length + 12)
    rw [show (requestLength topic).length = integralSize from length_encodeIntegral _] at hn hsend
    have htaken : requestTaken link c topic = pairTaken link c integralSize (topic.length + 12) := if_pos hfits
    rw [htaken]
    refine ⟨r, c', fun hr => ?_, fun timeoutMs log => ?_⟩
    · have hle := hn hr
      simp only [timeoutPlace, integralSize] at hle ⊢
      omega
    · rw [writeRequest_eq host link htopic hfits, hsend _ log (length_encodeRequest _), encodeRequest_eq, requestText,
        List.append_assoc]
  · have htaken : requestTaken link c topic = 0 := if_neg hfits
    rw [htaken]
    refine ⟨.error (.fault .assertFailed), c, fun h => (by cases h), fun timeoutMs log => ?_⟩
    rw [writeRequest_long host link (fun h => hfits h.2), List.take_zero, List.append_nil]

/-! ## Behind the request -/

section

variable {ι : Type} {T : ι → Type}

def Call.topic : Call T → Bytes
  | .push _ topic _ => topic
  | .pop _ topic => topic
  | .closeTopic topic => topic
  | .checkTopicExist topic => topic

def Call.type : Call T → Int32
  | .push _ _ _ => Switcher.requestTypePush
  | .pop _ _ => Switcher.requestTypePop
  | .closeTopic _ => Switcher.requestTypeCloseTopic
  | .checkTopicExist _ => Switcher.requestTypeCheckTopicExist

/-- The request of a call: two of its members are set. -/
def Call.request (call : Call T) (mem : Memory) :
    RequestPackage := { topic := call.topic, type := call.type, timeoutMs := mem.timeoutMs }

variable (codec : ∀ i, UserCodec (T i)) (host : Endian) (link : Link)

/-- What a call does behind its request. -/
def afterRequest (mem : Memory) : Call T → Task (Return T)
  | .push i _ value => do
    let _ ← (do
      let dp ← match value with
        | some value => do
          let data ← ofWire ((codec i).serialize host value [])
          pure { data := data, metaInfo := [], eof := false }
        | none => pure { data := [], metaInfo := [], eof := true }
      writePackage host link .data dp
      let _ ← readPackage host link .response (mem.buf 0)
      pure () : Task Unit)
    pure .pushed
  | .pop i _ => do
    let v ← (do
      let dp : DataPackage ← readPackage host link .data (mem.buf 0)
      let _ ← readPackage host link .response (mem.buf 1)
      if dp.eof = true then pure none else
      let v ← ofWire (deserializeView ((codec i).deserialize host) dp.data)
      pure (some v) : Task (Option (T i)))
    pure (.popped i v)
  | .closeTopic _ => do
    let responseCode ← (do
      let dp : ResponsePackage ← readPackage host link .response (mem.buf 0)
      pure dp.responseCode : Task Int32)
    pure (.code responseCode)
  | .checkTopicExist _ => do
    let answer ← (do
      let dp : ResponsePackage ← readPackage host link .response (mem.buf 0)
      pure (dp.responseCode = Switcher.responseOk) : Task Bool)
    pure (.topicExists answer)

/-- A call writes its request first. -/
theorem perform_eq (mem : Memory) (call : Call T) :
    perform codec host link mem call = (writePackage host link .request (call.request mem) >>= fun _ =>
      afterRequest codec host link mem call) := by
  cases call with
  | push i topic value => cases value <;> exact Attempt.bind_assoc _ _ _
  | pop i topic => exact Attempt.bind_assoc _ _ _
  | closeTopic topic => exact Attempt.bind_assoc _ _ _
  | checkTopicExist topic => exact Attempt.bind_assoc _ _ _

/-- Behind its request a call reads nothing of what the memory held. -/
theorem afterRequest_memory (mem mem' : Memory) (call : Call T) :
    afterRequest codec host link mem call = afterRequest codec host link mem' call := by
  have hbuf : ∀ T k, readPackage host link T (mem.buf k) = readPackage host link T (mem'.buf k) :=
    fun T k => readPackage_held host link T _ _
  cases call with
  | push i topic value => simp only [afterRequest, hbuf]
  | pop i topic => simp only [afterRequest, hbuf]
  | closeTopic topic => simp only [afterRequest, hbuf]
  | checkTopicExist topic => simp only [afterRequest, hbuf]

/-- What comes behind the request only adds. -/
theorem appends_afterRequest (mem : Memory) (call : Call T) :
    Attempt.Appends (afterRequest codec host link mem call) := by
  cases call with
  | push i topic value =>
    have hsend : ∀ dp : DataPackage, Attempt.Appends (do
        writePackage host link .data dp
        let _ ← readPackage host link .response (mem.buf 0)
        pure () : Task Unit) :=
      fun dp => (appends_writePackage host link .data dp).bind (fun _ =>
        (appends_readPackage host link _ _).bind (fun _ => .pure _))
    cases value with
    | none => exact ((Attempt.Appends.pure _).bind hsend).bind (fun _ => .pure _)
    | some v =>
      exact ((appends_ofWire _).bind (fun data => (Attempt.Appends.pure _).bind hsend)).bind (fun _ => .pure _)
  | pop i topic =>
    refine Attempt.Appends.bind ((appends_readPackage host link _ _).bind (fun dp => ?_)) (fun v => .pure _)
    refine (appends_readPackage host link _ _).bind (fun _ => ?_)
    split
    · exact .pure _
    · exact (appends_ofWire _).bind (fun v => .pure _)
  | closeTopic topic => exact ((appends_readPackage host link _ _).bind (fun dp => .pure _)).bind (fun code => .pure _)
  | checkTopicExist topic =>
    exact ((appends_readPackage host link _ _).bind (fun dp => .pure _)).bind (fun answer => .pure _)

/-- Memory that held zeros. -/
def blank : Memory where
  type := 0
  timeoutMs := 0
  eof := false
  buf _ _ := 0

/-- What a call returns and what becomes of the client does not depend on what the memory held, and what the call writes
is a text with a gap for `timeout_ms`, as large as the socket takes of it. -/
theorem perform_gap (c : SwitcherClient) (call : Call T) :
    ∃ g : Gap call.topic, g.size = min integralSize (requestTaken link c call.topic - timeoutPlace call.topic) ∧
      ∀ mem : Memory, perform codec host link mem call (c, []) =
        ((perform codec host link blank call (c, [])).1, (perform codec host link blank call (c, [])).2.1,
          g.fill mem.timeoutBytes) := by
  obtain ⟨r, c₁, hn, hrequest⟩ := writeRequest_take host link c call.topic call.type
  have hlength := length_requestText call.topic call.type
  let g := Gap.cut (requestText call.topic call.type) hlength (requestTaken link c call.topic)
  have hgap : g.size = min integralSize (requestTaken link c call.topic - timeoutPlace call.topic) := by
    rw [← hlength]
    rfl
  have hwrite : ∀ mem : Memory, writePackage host link .request (call.request mem) (c, []) = (r, c₁,
      g.fill mem.timeoutBytes) := by
    intro mem
    rw [Gap.fill_cut _ _ mem.length_timeoutBytes]
    exact hrequest mem.timeoutMs []
  cases r with
  | error e =>
    refine ⟨g, hgap, fun mem => ?_⟩
    have hperform : ∀ mem, perform codec host link mem call (c, []) = (.error e, c₁, g.fill mem.timeoutBytes) := by
      intro mem
      rw [perform_eq, Attempt.bind_error (hwrite mem)]
    rw [hperform mem, hperform blank]
  | ok u =>
    obtain ⟨r, c₂, out, hafter⟩ := appends_afterRequest codec host link blank call c₁
    -- the request is complete, so there may be something behind it
    have hsize : g.size = integralSize := by
      have hlen := hn rfl
      rw [hgap]
      exact Nat.min_eq_left (by omega)
    refine ⟨{ g with after := out, after_eq := fun h => absurd hsize (Nat.ne_of_lt h) }, hgap, fun mem => ?_⟩
    have hperform : ∀ mem, perform codec host link mem call (c, []) = (r, c₂, g.fill mem.timeoutBytes ++ out) := by
      intro mem
      rw [perform_eq, Attempt.bind_ok (hwrite mem), afterRequest_memory codec host link mem blank, hafter]
    have hnil : g.after = [] := rfl
    rw [hperform mem, hperform blank]
    simp only [Gap.fill, hnil, List.append_nil]

/-! ## Two runs -/

/-- The client behind a call, if another one may follow: not after a fault, and not if it waits for ever. What the
memory held does not matter for that. -/
def Call.next (call : Call T) (c : SwitcherClient) : Option SwitcherClient :=
  let done := perform codec host link blank call (c, [])
  let o : Outcome T := { result := done.1, written := done.2.2 }
  if o.isLast then none else some done.2.1

/-- The client before the `k`-th call, if that is made: the connection as the calls before have left it. -/
def before : List (Call T) → SwitcherClient → Nat → Option SwitcherClient
  | [], _, _ => none
  | _ :: _, c, 0 => some c
  | call :: calls, c, k + 1 => (call.next codec host link c).bind (fun c' => before calls c' k)

/-- A run is the first call and the calls behind it, if there are any: what the memory held before the first one shows
in its gap only. -/
theorem run_cons (call : Call T) (calls : List (Call T)) (c : SwitcherClient) :
    ∃ (r : Except SocketStop (Return T)) (g : Gap call.topic),
      g.size = min integralSize (requestTaken link c call.topic - timeoutPlace call.topic) ∧
      ∀ mem : Nat → Memory, run codec host link mem (call :: calls) c =
      { result := r, written := g.fill (mem 0).timeoutBytes } ::
        ((call.next codec host link c).map (run codec host link (fun k => mem (k + 1)) calls)).getD [] := by
  obtain ⟨g, hsize, hperform⟩ := perform_gap codec host link c call
  refine ⟨(perform codec host link blank call (c, [])).1, g, hsize, fun mem => ?_⟩
  -- whether another call follows is seen from the result alone
  have hlast : ∀ (r : Except SocketStop (Return T)) (written : Bytes),
      Outcome.isLast { result := r, written := written } =
      Outcome.isLast { result := r, written := [] } := fun _ _ => rfl
  rw [run, hperform, Call.next]
  simp only [hlast]
  cases Outcome.isLast { result := (perform codec host link blank call (c, [])).1, written := [] } with
  | true => rfl
  | false => rfl

/-- What the memory held at the place of `timeout_ms` is the same, as far as the socket takes it with the first `n`
bytes of the request. -/
def SameLeak (topic : Bytes) (n : Nat) (mem mem' : Memory) : Prop :=
  mem.timeoutBytes.take (n - timeoutPlace topic) = mem'.timeoutBytes.take (n - timeoutPlace topic)

/-- Two memories leak the same where the gap is filled the same. -/
theorem sameLeak_iff {topic : Bytes} {n : Nat} (g : Gap topic)
    (hsize : g.size = min integralSize (n - timeoutPlace topic)) (mem mem' : Memory) :
    SameLeak topic n mem mem' ↔ g.fill mem.timeoutBytes = g.fill mem'.timeoutBytes := by
  have htake : ∀ m : Memory, m.timeoutBytes.take g.size = m.timeoutBytes.take (n - timeoutPlace topic) := by
    intro m
    rw [hsize, ← List.take_take,
      List.take_of_length_le (by rw [List.length_take, m.length_timeoutBytes]; exact Nat.min_le_right ..)]
  rw [g.fill_inj mem.length_timeoutBytes mem'.length_timeoutBytes, htake, htake, SameLeak]

theorem bytes_cons (o : Outcome T) (os : List (Outcome T)) :
    bytes (o :: os) = o.written ++ bytes os := List.flatMap_cons

/-- The calls return the same, and as many of them are made, whatever the memory held. -/
theorem run_results (calls : List (Call T)) (mem mem' : Nat → Memory) (c : SwitcherClient) :
    (run codec host link mem calls c).map (·.result) = (run codec host link mem' calls c).map (·.result) := by
  induction calls generalizing mem mem' c with
  | nil => rfl
  | cons call calls ih =>
    obtain ⟨r, g, -, hrun⟩ := run_cons codec host link call calls c
    rw [hrun mem, hrun mem', List.map_cons, List.map_cons]
    cases call.next codec host link c with
    | none => rfl
    | some c' => exact congrArg (r :: ·) (ih _ _ c')

/-- Two runs write the same bytes exactly when the gaps of their requests are filled alike. -/
theorem run_bytes (calls : List (Call T)) (mem mem' : Nat → Memory) (c : SwitcherClient) :
    bytes (run codec host link mem calls c) = bytes (run codec host link mem' calls c) ↔
      ∀ (k : Nat) (call : Call T)
      (c' : SwitcherClient), calls[k]? = some call → before codec host link calls c k = some c' →
        SameLeak call.topic (requestTaken link c' call.topic) (mem k) (mem' k) := by
  induction calls generalizing mem mem' c with
  | nil =>
    refine iff_of_true rfl (fun k call c' hcall => ?_)
    cases hcall
  | cons call calls ih =>
    obtain ⟨r, g, hsize, hrun⟩ := run_cons codec host link call calls c
    have hfirst := sameLeak_iff g hsize (mem 0) (mem' 0)
    have hlength : (g.fill (mem 0).timeoutBytes).length = (g.fill (mem' 0).timeoutBytes).length := by
      rw [g.length_fill (mem 0).length_timeoutBytes, g.length_fill (mem' 0).length_timeoutBytes]
    have hrest : bytes (((call.next codec host link c).map (run codec host link (fun k => mem (k + 1)) calls)).getD
        []) =
        bytes (((call.next codec host link c).map (run codec host link (fun k => mem' (k + 1)) calls)).getD []) ↔
        ∀ (k : Nat) (call' : Call T) (c' : SwitcherClient), calls[k]? = some call' →
          before codec host link (call :: calls) c (k + 1) = some c' →
          SameLeak call'.topic (requestTaken link c' call'.topic) (mem (k + 1)) (mem' (k + 1)) := by
      simp only [before]
      cases call.next codec host link c with
      | none =>
        refine iff_of_true rfl (fun k call' c' _ hc => ?_)
        cases hc
      | some c₁ => exact ih (fun k => mem (k + 1)) (fun k => mem' (k + 1)) c₁
    rw [hrun mem, hrun mem', bytes_cons, bytes_cons]
    constructor
    · intro heq
      obtain ⟨hhead, htail⟩ := List.append_inj heq hlength
      intro k call' c' hcall hc
      cases k with
      | zero =>
        cases hcall
        cases hc
        exact hfirst.2 hhead
      | succ k => exact hrest.1 htail k call' c' hcall hc
    · intro hsame
      have hhead := hfirst.1 (hsame 0 call c rfl rfl)
      have htail := hrest.2 (fun k call' c' hcall hc => hsame (k + 1) call' c' hcall hc)
      exact congr (congrArg (· ++ ·) hhead) htail

/-- Two runs of a client with the same calls on the same connection write the same bytes exactly when, before each call
that is made, the memory held the same at the place of `timeout_ms`, as far as the socket takes it: how far that is
follows from the connection and the topic. Nothing else that the memory held gets out, and the calls return the same in
any case. -/
theorem client_bytes (calls : List (Call T)) (mem mem' : Nat → Memory) (c : SwitcherClient) :
    (run codec host link mem calls c).map (·.result) = (run codec host link mem' calls c).map (·.result) ∧
    (bytes (run codec host link mem calls c) = bytes (run codec host link mem' calls c) ↔
      ∀ (k : Nat) (call : Call T)
      (c' : SwitcherClient), calls[k]? = some call → before codec host link calls c k = some c' →
        SameLeak call.topic (requestTaken link c' call.topic) (mem k) (mem' k)) :=
  ⟨run_results codec host link calls mem mem' c, run_bytes codec host link calls mem mem' c⟩

end

/-- A connection on which nothing goes wrong. -/
def working : Link where
  accepts _ := true
  breaks _ := none
  closes := true

/-- Memory that holds this at the place of `timeout_ms`, and zeros elsewhere. -/
def holding (timeoutMs : Int32) : Memory where
  type := 0
  timeoutMs := timeoutMs
  eof := false
  buf _ _ := 0

/-- The server answers that there is a topic `t`. -/
def topicExists : Bytes :=
    frame (encodeResponse { topic := [ascii 't'], waitMs := 0, peerAddr := [], responseCode := Switcher.responseOk })

/-- A client asks once whether there is a topic `t`. -/
def askOnce (timeoutMs : Int32) (c : SwitcherClient) : List (Outcome (fun _ : Unit => UInt32)) :=
  run (fun _ => uint32Codec) .little working (fun _ => holding timeoutMs) [.checkTopicExist [ascii 't']] c

/-- The answer is the same, and the last four bytes of the request are what the memory happened to hold. -/
theorem client_leaks_timeout : ∃ c, connect working ({ unread := topicExists }, []) = (.ok (), c, []) ∧
    (askOnce 0 c).map (·.result) = [.ok (.topicExists true)] ∧ (askOnce 0x01020304 c).map (·.result) =
    [.ok (.topicExists true)] ∧ bytes (askOnce 0 c) = [0, 0, 0, 13, 0, 0, 0, 1, ascii 't', 0, 0, 0, 2, 0, 0, 0, 0] ∧
    bytes (askOnce 0x01020304 c) = [0, 0, 0, 13, 0, 0, 0, 1, ascii 't', 0, 0, 0, 2, 1, 2, 3, 4] ∧
    bytes (askOnce 0 c) ≠ bytes (askOnce 0x01020304 c) := by
  refine ⟨_, rfl, rfl, rfl, ?_, ?_, ?_⟩
  · decide +kernel
  · decide +kernel
  · decide +kernel

end SwitcherClient

end Tunnel
