import Tunnel.Lemmas.SwitcherSteps
import Tunnel.SwitcherBytes
import Tunnel.Theorems.Wire

/-!
# What the connections of the switcher carry

A connection carries a list of packages and, while one is being written, a part of it. `Transports` relates the switcher
over sockets with the switcher whose packages are sent as wholes: the parties are the same, and the lanes carry what is
on the way. Bytes that move keep it, and so does a party that goes on, when the other system takes its step too.
-/

namespace Tunnel

open Lib Function

namespace Switcher

variable {a : Nat} {address : Conn → Bytes} {clientHost : Conn → Endian} {host : Endian}

/-! ## The format of a package -/

/-- The topic of a call that fits, fits. -/
theorem Call.Fits.topic {k : Call} (h : k.Fits a) : TopicFits a k.topic := by
  cases k with
  | push topic value => exact h.1
  | _ => exact h

namespace Message

def encode : Message → Bytes
  | .request pkg => encodeRequest pkg
  | .data pkg => encodeData pkg
  | .response pkg => encodeResponse pkg

/-- The length of the package is a `uint32_t`. -/
def Fits (m : Message) : Prop := FitsLength m.encode

/-- A package of a client. If the server takes it for a request, there is room for the answer. -/
def Asks (a : Nat) (m : Message) : Prop := m.kind ≠ .response ∧ m.encode.length + a + 4 ≤ uint32Max

/-- What a reader that asks for this kind makes of a package. -/
def readAs (m : Message) : Kind → Option Message
  | .request => m.asRequest.map .request
  | .data => m.asData.map .data
  | .response => m.asResponse.map .response

variable {m m' : Message} {kind : Kind}

/-- What a client may send can be sent. -/
theorem Asks.fits (h : m.Asks a) : m.Fits := by
  have hlength := h.2
  show m.encode.length ≤ uint32Max
  omega

theorem length_encodeRequest (pkg : RequestPackage) : (encodeRequest pkg).length = pkg.topic.length + 12 := by
  simp only [encodeRequest, encodeString, List.length_append, length_encodeIntegral, integralSize]
  omega

theorem length_encodeData (pkg : DataPackage) :
    (encodeData pkg).length = pkg.data.length + pkg.metaInfo.length + 9 := by
  simp only [encodeData, encodeString, encodeFlag, List.length_append, length_encodeIntegral, integralSize,
    List.length_singleton]
  omega

theorem length_encodeResponse (pkg : ResponsePackage) :
    (encodeResponse pkg).length = pkg.topic.length + pkg.peerAddr.length + 16 := by
  simp only [encodeResponse, encodeString, List.length_append, length_encodeIntegral, integralSize]
  omega

/-- When a request fits. -/
theorem asks_request {pkg : RequestPackage} : (Message.request pkg).Asks a ↔ TopicFits a pkg.topic := by
  have hlength := length_encodeRequest pkg
  simp only [Asks, encode, kind, TopicFits, hlength]
  constructor
  · rintro ⟨-, h⟩
    omega
  · intro h
    exact ⟨by simp, by omega⟩

/-- When a response fits. -/
theorem fits_response {pkg : ResponsePackage} :
    (Message.response pkg).Fits ↔ pkg.topic.length + pkg.peerAddr.length + 16 ≤ uint32Max := by
  rw [Fits, FitsLength, encode, length_encodeResponse]

end Message

theorem integralSize_pos : 0 < integralSize := Nat.zero_lt_succ 3

theorem length_lengthBytes (m : Message) :
    (encodeIntegral (BitVec.ofNat 32 m.encode.length)).length = integralSize := length_encodeIntegral _

/-- Packages on a connection: a length of four bytes in front of the bytes of the package. -/
def framing (Fits : Message → Prop) : Framing UInt8 Message where
  size := integralSize
  header m := encodeIntegral (BitVec.ofNat 32 m.encode.length)
  body := Message.encode
  Fits := Fits
  size_pos := integralSize_pos
  length_header := length_lengthBytes

/-- A decoder gets a package back from its bytes. -/
theorem toOption_encode (T : WireType) {v : T.Carrier} (hv : T.Valid v) (host : Endian) :
    (deserializeView (T.deserialize host) (T.encode v)).toOption = some v := by
  rw [(T.deserializeView_ok host).2 ⟨hv, rfl⟩]
  rfl

/-- What a decoder makes of a view does not depend on its host. -/
theorem toOption_deserializeView (T : WireType) (host host' : Endian) (view : Bytes) :
    (deserializeView (T.deserialize host) view).toOption = (deserializeView (T.deserialize host') view).toOption := by
  have hok : ∀ h h' v, deserializeView (T.deserialize h) view = .ok v → deserializeView (T.deserialize h') view =
      .ok v :=
    fun h h' v hv => (T.deserializeView_ok h').2 ((T.deserializeView_ok h).1 hv)
  cases hread : deserializeView (T.deserialize host) view with
  | ok v => rw [hok host host' v hread]
  | error e =>
    cases hread' : deserializeView (T.deserialize host') view with
    | ok v =>
      rw [hok host' host v hread'] at hread
      cases hread
    | error e' => rfl

namespace Message

variable {m m' : Message} {kind : Kind}

/-- A request that fits is valid. -/
theorem Fits.request {pkg : RequestPackage} (h : (Message.request pkg).Fits) : WireType.request.Valid pkg := by
  rw [Fits, FitsLength, encode, length_encodeRequest] at h
  show pkg.topic.length ≤ uint32Max
  omega

theorem Fits.data {pkg : DataPackage} (h : (Message.data pkg).Fits) : WireType.data.Valid pkg := by
  rw [Fits, FitsLength, encode, length_encodeData] at h
  show pkg.data.length ≤ uint32Max ∧ pkg.metaInfo.length ≤ uint32Max
  omega

theorem Fits.response {pkg : ResponsePackage} (h : (Message.response pkg).Fits) : WireType.response.Valid pkg := by
  rw [fits_response] at h
  show pkg.topic.length ≤ uint32Max ∧ pkg.peerAddr.length ≤ uint32Max
  omega

/-- Its body is its encoding. -/
theorem body_eq (host : Endian) (h : m.Fits) : m.body host = .ok m.encode := by
  cases m with
  | request pkg => exact (WireType.lawful .request host host).writes pkg [] h.request
  | data pkg => exact (WireType.lawful .data host host).writes pkg [] h.data
  | response pkg => exact (WireType.lawful .response host host).writes pkg [] h.response

/-- A package of another kind is decoded from its bytes. -/
theorem decode_eq {α : Type} (h : m.Fits) (read : WireReader α) :
    m.decode read = (deserializeView read m.encode).toOption := by
  rw [decode, body_eq .big h]

/-- What the three decoders make of a package, on any host. -/
theorem asRequest_eq (h : m.Fits) (host : Endian) :
    m.asRequest = (deserializeView (deserializeRequest host) m.encode).toOption := by
  cases m with
  | request pkg => exact (toOption_encode .request h.request host).symm
  | _ => exact (decode_eq h _).trans (toOption_deserializeView .request .big host _)

/-- To read data is to decode them. -/
theorem asData_eq (h : m.Fits) (host : Endian) :
    m.asData = (deserializeView (deserializeData host) m.encode).toOption := by
  cases m with
  | data pkg => exact (toOption_encode .data h.data host).symm
  | _ => exact (decode_eq h _).trans (toOption_deserializeView .data .big host _)

/-- To read a response is to decode it. -/
theorem asResponse_eq (h : m.Fits) (host : Endian) :
    m.asResponse = (deserializeView (deserializeResponse host) m.encode).toOption := by
  cases m with
  | response pkg => exact (toOption_encode .response h.response host).symm
  | _ => exact (decode_eq h _).trans (toOption_deserializeView .response .big host _)

/-- What a reader makes of the bytes of a package is what it makes of the package. -/
theorem read_encode (h : m.Fits) (host : Endian) (kind : Kind) :
    (kind.read host m.encode).toOption = m.readAs kind := by
  have hmap : ∀ {α : Type} (f : α → Message) (r : Except WireFault α), (r.map f).toOption = r.toOption.map f := by
    intro α f r
    cases r <;> rfl
  cases kind with
  | request => rw [Kind.read, hmap, ← asRequest_eq h host, readAs]
  | data => rw [Kind.read, hmap, ← asData_eq h host, readAs]
  | response => rw [Kind.read, hmap, ← asResponse_eq h host, readAs]

/-- What a decoder gets has the bytes of the view. -/
theorem encode_of_toOption (T : WireType) {v : T.Carrier} {view : Bytes}
    (h : (deserializeView (T.deserialize .big) view).toOption = some v) : T.encode v = view := by
  cases hview : deserializeView (T.deserialize .big) view with
  | error e =>
    rw [hview] at h
    cases h
  | ok w =>
    rw [hview] at h
    cases h
    exact ((T.deserializeView_ok .big).1 hview).2.symm

/-- What is read has the bytes of the package, and the kind that was asked for. -/
theorem readAs_some (h : m.Fits) (hm : m.readAs kind = some m') : m'.kind = kind ∧ m'.encode = m.encode := by
  cases kind with
  | request =>
    obtain ⟨pkg, hpkg, rfl⟩ := Option.map_eq_some_iff.1 hm
    rw [asRequest_eq h .big] at hpkg
    exact ⟨rfl, encode_of_toOption .request hpkg⟩
  | data =>
    obtain ⟨pkg, hpkg, rfl⟩ := Option.map_eq_some_iff.1 hm
    rw [asData_eq h .big] at hpkg
    exact ⟨rfl, encode_of_toOption .data hpkg⟩
  | response =>
    obtain ⟨pkg, hpkg, rfl⟩ := Option.map_eq_some_iff.1 hm
    rw [asResponse_eq h .big] at hpkg
    exact ⟨rfl, encode_of_toOption .response hpkg⟩

/-- What is read from a client fits as it did. -/
theorem Asks.readAs (h : m.Asks a) (hm : m.readAs kind = some m') (hkind : kind ≠ .response) : m'.Asks a := by
  obtain ⟨hk, hencode⟩ := readAs_some h.fits hm
  rw [Asks, hk, hencode]
  exact ⟨hkind, h.2⟩

end Message

/-! ## Reads -/

section reads

variable {P : Message → Prop} {l l' : Lane UInt8} {ms : List Message} {current : Option Message} {kind : Kind}

/-- The outcome of a read of a package that is there. -/
inductive Outcome (m : Message) (kind : Kind) : Except WireFault (Option Message) → Prop where
  | failed {e : WireFault} (h : m.readAs kind = none) : Outcome m kind (.error e)
  | done {m' : Message} (h : m.readAs kind = some m') : Outcome m kind (.ok (some m'))

/-- What a read gives, for every message that fits. -/
theorem Outcome.read {m : Message} (hm : m.Fits) (host : Endian) (kind : Kind) :
    Outcome m kind ((kind.read host m.encode).map some) := by
  have hread := Message.read_encode hm host kind
  cases hr : kind.read host m.encode with
  | ok m' =>
    rw [hr] at hread
    exact .done hread.symm
  | error e =>
    rw [hr] at hread
    exact .failed hread.symm

end reads

/-! ## Parties and packages -/

namespace Message

variable {m m' : Message}

end Message

namespace Session

variable {x y : Session}

/-- The same outcome of a read, apart from what is on the way. -/
inductive Alike : Read Session → Read Session → Prop where
  | blocked : Alike .blocked .blocked
  | fault {x y : Session} (h : x.offline = y.offline) : Alike (.fault x) (.fault y)
  | ok {x y : Session} (h : x.offline = y.offline) : Alike (.ok x) (.ok y)

end Session

namespace State

variable {s : State} {x y : Conn → Session} {c : Conn}

end State

section coroutines

variable {s : State} {site : Conn → Site} {c q : Conn} {f : Frame}

variable {d : Conn}

/-- At one place something is new, and elsewhere it is as it was. -/
theorem update_some {α : Type} {g : Conn → Option α} {o : Option α} {v : α} (h : update g c o q = some v) :
    o = some v ∨ g q = some v := by
  rw [update_apply] at h
  split at h
  · exact .inl h
  · exact .inr h

/-- What the coroutine of a connection writes: to its connection, or to that of the pop it has been matched with. -/
inductive Frame.Writes (address : Conn → Bytes) (c : Conn) : Frame → Conn → Message → Prop where
  | answer (rpkg : ResponsePackage) : Writes address c (.answer rpkg) c (.response rpkg)
  | data (p : Conn) (t : Topic) (dpkg : DataPackage) : Writes address c (.transfer p t (.writeData dpkg)) p (.data dpkg)
  | answerPush (p : Conn) (t : Topic) :
      Writes address c (.transfer p t .answerPush) c (State.transferResponse t (address p))
  | answerPop (p : Conn) (t : Topic) :
      Writes address c (.transfer p t .answerPop) p (State.transferResponse t (address c))

/-- What a coroutine writes, case by case. -/
theorem Frame.writes_iff {d : Conn} {m : Message} : f.writes address q = some (d, m) ↔ f.Writes address q d m := by
  constructor
  · intro h
    cases f with
    | handle => cases h
    | answer rpkg =>
      cases h
      exact .answer rpkg
    | transfer p t ph => cases ph <;> cases h <;> constructor
  · intro h
    cases h <;> rfl

/-- Whoever writes to a connection has it. -/
theorem Filed.of_writes (h : Filed s site) (hf : s.frames q = some f) {d : Conn} {m : Message}
    (hw : f.writes address q = some (d, m)) :
    (d = q ∧ (site d = .answer ∨ ∃ p t ph, site d = .sender p t ph)) ∨ ∃ t ph, site d = .receiver q t ph := by
  cases Frame.writes_iff.1 hw with
  | answer => exact .inl ⟨rfl, .inl (h.of_answer hf)⟩
  | answerPush p t => exact .inl ⟨rfl, .inr ⟨p, t, _, (h.of_transfer hf).1⟩⟩
  | data | answerPop => exact .inr ⟨_, _, (h.of_transfer hf).2⟩

/-- One coroutine at a time writes to a connection. -/
theorem Filed.writer_unique (h : Filed s site) (hf : s.frames q = some f) {m : Message}
    (hw : f.writes address q = some (d, m)) {q' : Conn} {f' : Frame} (hf' : s.frames q' = some f') {m' : Message}
    (hw' : f'.writes address q' = some (d, m')) : q = q' := by
  obtain ⟨rfl, hd⟩ | ⟨t, ph, hd⟩ := h.of_writes hf hw
  · obtain ⟨rfl, -⟩ | ⟨t, ph, hd'⟩ := h.of_writes hf' hw'
    · rfl
    · obtain hd | ⟨p, t', ph', hd⟩ := hd <;> rw [hd'] at hd <;> cases hd
  · obtain ⟨rfl, hd' | ⟨p, t', ph', hd'⟩⟩ | ⟨t', ph', hd'⟩ := h.of_writes hf' hw'
    · rw [hd] at hd'
      cases hd'
    · rw [hd] at hd'
      cases hd'
    · rw [hd] at hd'
      cases hd'
      rfl

end coroutines

/-! ## What the connections carry -/

def Phase.Fits : Phase → Prop
  | .writeData dpkg => (Message.data dpkg).Fits
  | _ => True

/-- What a coroutine is going to write fits into packages. -/
def Frame.Fits (a : Nat) : Frame → Prop
  | .handle => True
  | .answer rpkg => (Message.response rpkg).Fits
  | .transfer _ topic phase => TopicFits a topic ∧ phase.Fits

/-- What a client is going to write fits into packages. -/
def ClientCtl.Fits (a : Nat) : ClientCtl → Prop
  | .pushRequested _ value => (Message.data (dataPackage value)).Asks a
  | _ => True

/-- The package that a client is writing: the request of a call, or the data of a push. -/
inductive Sends : Option (Call × Int32) → ClientCtl → Option Message → Prop where
  | nothing (ctl : ClientCtl) : Sends none ctl none
  | request (ctl : ClientCtl) (k : Call) (timeoutMs : Int32) :
      Sends (some (k, timeoutMs)) ctl (some (.request (k.request timeoutMs)))
  | data (topic : Topic) (value : Option Bytes) :
      Sends none (.pushRequested topic value) (some (.data (dataPackage value)))

/-- A coroutine of the server writes this package to this connection. -/
def State.Writing (address : Conn → Bytes) (s : State) (d : Conn) (m : Message) : Prop :=
  ∃ q f, s.frames q = some f ∧ f.writes address q = some (d, m)

/-- The way to the server carries what the client has sent, and what it is sending. -/
def UpCarries (a : Nat) (k : Option (Call × Int32)) (l : Lane UInt8) (x : Session) : Prop :=
  ∃ current, l.Carries (framing (Message.Asks a)) x.inbox current ∧ Sends k x.ctl current

/-- The way to a client carries what the server has sent and, unless the connection is lost, what a coroutine is
sending. -/
def DownCarries (address : Conn → Bytes) (s : State) (l : Lane UInt8) (d : Conn) (outbox : List Message) : Prop :=
  ∃ current, l.Carries (framing Message.Fits) outbox current ∧
    (¬ s.Lost d → ∀ m, current = some m → s.Writing address d m)

/-- The parties are the same, and the connections carry the packages that are on the way. -/
structure Transports (address : Conn → Bytes) (a : Nat) (b : ByteState) (s : State) : Prop where
  parties : b.parties = s.offline
  sending : ∀ c k, b.sending c = some k → k.1.Fits a
  ctl : ∀ c, (s.sessions c).ctl.Fits a
  frame : ∀ c f, s.frames c = some f → f.Fits a
  up : ∀ c, ¬ s.Lost c → UpCarries a (b.sending c) (b.up c) (s.sessions c)
  down : ∀ c, DownCarries address s (b.down c) c (s.sessions c).outbox

/-- At one connection: another request that the client is writing, other lanes, another session. -/
def ByteState.refit (b : ByteState) (s : State) (c : Conn) (k : Option (Call × Int32)) (up down : Lane UInt8)
    (x : Session) : ByteState :=
  { ((b.setUp c up).setSending c k).setDown c down with parties := (s.setSession c x).offline }

namespace Transports

variable {b : ByteState} {s s' : State} {c : Conn}

/-- At first nothing is on the way. -/
theorem init : Transports address a .init .init where
  parties := rfl
  sending := by
    intro c k hk
    cases hk
  ctl := by
    intro c
    trivial
  frame := by
    intro c f hf
    cases hf
  up := by
    intro c _
    exact ⟨none, .empty, .nothing _⟩
  down := by
    intro c
    refine ⟨none, .empty, ?_⟩
    intro _ m hm
    cases hm

variable {k : Option (Call × Int32)} {l : Lane UInt8} {t : Topic} {n : Nat} {f : Frame} {d : Conn} {m : Message}
  {rest : List Message} {kind : Kind}

section

variable (h : Transports address a b s)
include h

/-- Something happens at one connection, and the coroutines stay as they are. -/
theorem connection {up down : Lane UInt8} {x : Session}
    (hk : ∀ k', k = some k' → k'.1.Fits a) (hctl : x.ctl.Fits a) (hup : ¬ s.Lost c → UpCarries a k up x)
    (hdown : DownCarries address s down c x.outbox) :
    Transports address a (b.refit s c k up down x) (s.setSession c x) where
  parties := rfl
  sending := by
    intro d k' hk'
    obtain hk' | hk' := update_some hk'
    · exact hk k' hk'
    · exact h.sending d k' hk'
  ctl := by
    intro d
    change ((update s.sessions c x d).ctl).Fits a
    rw [update_apply]
    split
    · exact hctl
    · exact h.ctl d
  frame := h.frame
  up := by
    intro d hd
    change UpCarries a (update b.sending c k d) (update b.up c up d) (update s.sessions c x d)
    by_cases hdc : d = c
    · subst hdc
      rw [update_self, update_self, update_self]
      exact hup hd
    · rw [update_of_ne hdc, update_of_ne hdc, update_of_ne hdc]
      exact h.up d hd
  down := by
    intro d
    change DownCarries address s (update b.down c down d) d (update s.sessions c x d).outbox
    by_cases hdc : d = c
    · subst hdc
      rw [update_self, update_self]
      exact hdown
    · rw [update_of_ne hdc, update_of_ne hdc]
      exact h.down d

/-- The server goes on: what a coroutine is sending it still sends, or the connection is closed. -/
theorem server (hsessions : s'.sessions = s.sessions) (hframe : ∀ c f, s'.frames c = some f → f.Fits a)
    (hlost : ∀ d, s.Lost d → s'.Lost d)
    (hkeep : ∀ q f d m, s.frames q = some f → f.writes address q = some (d, m) → ¬ s'.Lost d → (b.down d).rest ≠ none →
      s'.frames q = some f) :
    Transports address a { b with parties := s'.offline } s' where
  parties := rfl
  sending := h.sending
  ctl := by
    intro d
    rw [hsessions]
    exact h.ctl d
  frame := hframe
  up := by
    intro d hd
    rw [hsessions]
    refine h.up d ?_
    intro hd'
    exact hd (hlost d hd')
  down := by
    intro d
    rw [hsessions]
    obtain ⟨current, hcarries, hwriting⟩ := h.down d
    refine ⟨current, hcarries, ?_⟩
    rintro hd m rfl
    obtain ⟨q, f, hf, hfw⟩ := hwriting (fun hd' => hd (hlost d hd')) m rfl
    obtain ⟨bytes, hrest, -⟩ := hcarries.busy m rfl
    have hbusy : (b.down d).rest ≠ none := by
      rw [hrest]
      exact Option.some_ne_none bytes
    exact ⟨q, f, hkeep q f d m hf hfw hd hbusy, hfw⟩

/-! ### Bytes on the way -/

/-- A client sends. -/
theorem setSending (hk : ∀ k', k = some k' → k'.1.Fits a)
    (hup : ¬ s.Lost c → UpCarries a k l (s.sessions c)) : Transports address a ((b.setUp c l).setSending c k) s := by
  have heq : b.refit s c k l (b.down c) (s.sessions c) = (b.setUp c l).setSending c k := by
    simp [ByteState.refit, ByteState.setUp, ByteState.setDown, ByteState.setSending, State.setSession, h.parties]
  have hnew := h.connection hk (h.ctl c) hup (h.down c)
  rwa [heq, State.setSession, update_eq_self] at hnew

/-- Bytes move towards the server. -/
theorem setUp (hup : ¬ s.Lost c → UpCarries a (b.sending c) l (s.sessions c)) :
    Transports address a (b.setUp c l) s := by
  have heq : (b.setUp c l).setSending c (b.sending c) = b.setUp c l := by
    simp [ByteState.setUp, ByteState.setSending]
  rw [← heq]
  exact h.setSending (h.sending c) hup

/-- Bytes move towards the client. -/
theorem setDown (hdown : DownCarries address s l c (s.sessions c).outbox) :
    Transports address a (b.setDown c l) s := by
  have heq : b.refit s c (b.sending c) (b.up c) l (s.sessions c) = b.setDown c l := by
    simp [ByteState.refit, ByteState.setUp, ByteState.setDown, ByteState.setSending, State.setSession, h.parties]
  have hnew := h.connection (h.sending c) (h.ctl c) (h.up c) hdown
  rwa [heq, State.setSession, update_eq_self] at hnew

/-- A call begins to write its request. -/
theorem call (hctl : (s.sessions c).ctl = .idle) (hsending : b.sending c = none) {k : Call} (hk : k.Fits a)
    (timeoutMs : Int32) : Transports address a
      ((b.setUp c ((b.up c).begin ((framing (Message.Asks a)).frame (.request (k.request timeoutMs))))).setSending c
        (some (k, timeoutMs))) s := by
  refine h.setSending ?_ ?_
  · rintro _ ⟨⟩
    exact hk
  · intro hc
    obtain ⟨current, hcarries, hsends⟩ := h.up c hc
    rw [hctl, hsending] at hsends
    cases hsends
    exact ⟨_, hcarries.begin (Message.asks_request.2 (Call.Fits.topic hk)), .request _ k timeoutMs⟩

/-- `Push` begins to write its data. -/
theorem sendData {v : Option Bytes} (hctl : (s.sessions c).ctl = .pushRequested t v)
    (hrest : (b.up c).rest = none) :
    Transports address a (b.setUp c ((b.up c).begin ((framing (Message.Asks a)).frame (.data (dataPackage v))))) s := by
  have hfits : (Message.data (dataPackage v)).Asks a := by
    have hctl' := h.ctl c
    rwa [hctl] at hctl'
  refine h.setUp ?_
  intro hc
  obtain ⟨current, hcarries, hsends⟩ := h.up c hc
  have hnone : current.isSome = false := by
    rw [← hcarries.rest_isSome, hrest]
    rfl
  cases current with
  | some m => cases hnone
  | none =>
    rw [hctl] at hsends
    generalize b.sending c = k at hsends ⊢
    cases hsends
    refine ⟨_, hcarries.begin hfits, ?_⟩
    rw [hctl]
    exact .data t v

/-- A coroutine begins to write a package. -/
theorem serverSend (hf : s.frames c = some f)
    (hwrites : f.writes address c = some (d, m)) (hm : m.Fits) (hrest : (b.down d).rest = none) :
    Transports address a (b.setDown d ((b.down d).begin ((framing Message.Fits).frame m))) s := by
  refine h.setDown ?_
  obtain ⟨current, hcarries, -⟩ := h.down d
  have hnone : current.isSome = false := by
    rw [← hcarries.rest_isSome, hrest]
    rfl
  cases current with
  | some m' => cases hnone
  | none =>
    refine ⟨some m, hcarries.begin hm, ?_⟩
    rintro - _ ⟨⟩
    exact ⟨c, f, hf, hwrites⟩

/-- A package could not be decoded. -/
theorem failed : Transports address a { b with parties := s.failed.offline } s.failed where
  parties := rfl
  sending := h.sending
  ctl := h.ctl
  frame := h.frame
  up := h.up
  down := h.down

end

/-! ### Packages that are there -/

section

variable (h : Transports address a b s)
include h

/-- The `Serialize` of a push throws. -/
theorem serializeThrows (hrest : (b.up c).rest = none) (hstep : s.step address (.serializeThrows c) = some s') :
    Transports address a { b with parties := s'.offline } s' := by
  obtain ⟨x, hx, rfl⟩ := Option.map_eq_some_iff.1 hstep
  have heq : b.refit s c (b.sending c) (b.up c) (b.down c) x = { b with parties := (s.setSession c x).offline } := by
    simp [ByteState.refit, ByteState.setUp, ByteState.setDown, ByteState.setSending]
  obtain ⟨t, v, hctl, rfl⟩ := Session.serializeThrows_eq hx
  rw [← heq]
  refine h.connection (h.sending c) trivial ?_ (h.down c)
  intro hc
  obtain ⟨current, hcarries, hsends⟩ := h.up c hc
  have hnone : current.isSome = false := by
    rw [← hcarries.rest_isSome, hrest]
    rfl
  cases current with
  | some m => cases hnone
  | none =>
    refine ⟨none, hcarries, ?_⟩
    generalize (s.sessions c).ctl = ctl, b.sending c = k at hsends ⊢
    cases hsends
    exact .nothing _

omit h in
/-- What a client is writing does not depend on where its read leads. -/
theorem sends_after_read {ctl ctl' : ClientCtl} {current : Option Message} (hreads : ctl.reads ≠ none)
    (hsends : Sends k ctl current) : Sends k ctl' current := by
  cases hsends with
  | nothing => exact .nothing _
  | request => exact .request _ _ _
  | data => exact absurd rfl hreads

/-- A client receives a package. -/
theorem received (hout : (s.sessions c).outbox = m :: rest)
    (hl : DownCarries address s l c rest) (hstep : s.step address (.receive c) = some s') :
    Transports address a { b.setDown c l with parties := s'.offline } s' := by
  have heq : ∀ x p, ({ b.refit s c (b.sending c) (b.up c) l x with parties := p } : ByteState) =
    { b.setDown c l with parties := p } := by
    intro x p
    simp [ByteState.refit, ByteState.setUp, ByteState.setDown, ByteState.setSending]
  -- the session after the read: nothing but the package is gone from the connection
  have hsession : ∀ x, x.inbox = (s.sessions c).inbox → x.outbox = rest → x.ctl.Fits a →
      ((s.sessions c).ctl.reads ≠ none) →
      Transports address a (b.refit s c (b.sending c) (b.up c) l x) (s.setSession c x) := by
    intro x hin hrest hctl hreads
    refine h.connection (h.sending c) hctl ?_ (by rwa [hrest])
    intro hc
    obtain ⟨current, hcarries, hcurrent⟩ := h.up c hc
    exact ⟨current, by rwa [hin], sends_after_read hreads hcurrent⟩
  simp only [State.step] at hstep
  split at hstep
  · cases hstep
  · rename_i x hx
    cases hstep
    obtain ⟨m', rest', hout', rfl, hreads⟩ := Session.receive_fault hx
    obtain ⟨-, rfl⟩ := List.cons.inj (hout.symm.trans hout')
    have hreads : (s.sessions c).ctl.reads ≠ none := by
      obtain ⟨hreads, -⟩ | ⟨hreads, -⟩ := hreads <;> rw [hreads] <;> exact Option.some_ne_none _
    rw [← heq { s.sessions c with outbox := rest }]
    exact (hsession { s.sessions c with outbox := rest } rfl rfl (h.ctl c) hreads).failed
  · rename_i x hx
    cases hstep
    obtain ⟨m', rest', hout', ⟨t, d, hctl, -, rfl⟩ | ⟨r, answer, -, rfl, hreads, -⟩⟩ := Session.receive_ok hx
    · obtain ⟨-, rfl⟩ := List.cons.inj (hout.symm.trans hout')
      rw [← heq { s.sessions c with ctl := .popGot t d, outbox := rest }]
      refine hsession _ rfl rfl trivial ?_
      rw [hctl]
      exact Option.some_ne_none _
    · obtain ⟨-, rfl⟩ := List.cons.inj (hout.symm.trans hout')
      rw [← heq ((s.sessions c).finish rest answer)]
      refine hsession _ rfl rfl trivial ?_
      rw [hreads]
      exact Option.some_ne_none _

/-- A call ends with an exception. -/
theorem raise (hstep : s.step address (.raise c) = some s') : Transports address a
    { ((b.setSending c none).setUp c { b.up c with rest := none }).setDown c {} with parties := s'.offline } s' := by
  simp only [State.step] at hstep
  split at hstep
  · rename_i hlost
    cases hstep
    refine h.connection ?_ trivial ?_ ?_
    · rintro _ ⟨⟩
    · intro hc
      exact absurd hlost hc
    · refine ⟨none, .empty, ?_⟩
      rintro - _ ⟨⟩
  · cases hstep

end

/-! ### The server -/

variable {site : Conn → Site}

section

variable (h : Transports address a b s)
include h

/-- A connection is accepted. -/
theorem accept (hfiled : Filed s site) (hstep : s.step address (.accept c) = some s') :
    Transports address a { b with parties := s'.offline } s' := by
  simp only [State.step] at hstep
  split at hstep
  · rename_i hawaits
    cases hstep
    have hnone : s.frames c = none := by
      have howner := hfiled.owner c
      rwa [(hfiled.awaits c).1 hawaits] at howner
    refine h.server rfl ?_ ?_ ?_
    · intro q f hf
      obtain hf | hf := update_some hf
      · cases hf
        trivial
      · exact h.frame q f hf
    · rintro d (hd | ⟨-, hnot⟩)
      · exact .inl hd
      · rw [hawaits.2] at hnot
        cases hnot
    · intro q f d m hf _ _ _
      have hq : q ≠ c := by
        rintro rfl
        rw [hnone] at hf
        cases hf
      show update s.frames c (some .handle) q = some f
      rwa [update_of_ne hq]
  · cases hstep

/-- The acceptor fails. -/
theorem acceptFails (hstep : s.step address .acceptFails = some s') :
    Transports address a { b with parties := s'.offline } s' := by
  simp only [State.step] at hstep
  split at hstep
  · cases hstep
    refine h.server rfl h.frame ?_ ?_
    · rintro d (hd | ⟨hd, -⟩)
      · exact .inl hd
      · exact .inr ⟨hd, rfl⟩
    · intro q f d m hf _ _ _
      exact hf
  · cases hstep

/-- A package is written, and its coroutine goes on. -/
theorem goesOn (hfiled : Filed s site) (hf : s.frames c = some f)
    (hw : f.writes address c = some (d, m)) (hwrite : (b.down d).write n = some l) (hrest : l.rest = none)
    (hsessions : s'.sessions = (s.write d m).sessions) (hlost : ∀ d, s.Lost d → s'.Lost d)
    (hnew : ∀ q g, s'.frames q = some g → s.frames q = some g ∨ g.Fits a)
    (hold : ∀ q g, q ≠ c → s.frames q = some g → s'.frames q = some g) :
    Transports address a { b.setDown d l with parties := s'.offline } s' := by
  have hopen : ¬ s.Lost d := by
    rw [hfiled.lost]
    intro hgone
    obtain ⟨-, hd | ⟨p, t, ph, hd⟩⟩ | ⟨t, ph, hd⟩ := hfiled.of_writes hf hw <;> rw [hgone] at hd <;> cases hd
  -- what was being written to the connection is this package
  have hcarries : l.Carries (framing Message.Fits) ((s.sessions d).outbox ++ [m]) none := by
    obtain ⟨current, hcarries, hwriting⟩ := h.down d
    obtain ⟨hsome, -⟩ | ⟨m', rfl, -, hnew⟩ := hcarries.write hwrite
    · exact absurd hrest hsome
    · obtain ⟨q, g, hg, hgw⟩ := hwriting hopen m' rfl
      obtain rfl := hfiled.writer_unique hf hw hg hgw
      rw [hf] at hg
      cases hg
      rw [hw] at hgw
      cases hgw
      exact hnew
  have hwritten := h.connection (c := d) (x := { s.sessions d with outbox := (s.sessions d).outbox ++ [m] })
    (h.sending d) (h.ctl d) (h.up d)
    ⟨none, hcarries, by rintro - _ ⟨⟩⟩
  have heq :
      ∀ p, ({ b.refit s d (b.sending d) (b.up d) l { s.sessions d with outbox := (s.sessions d).outbox ++ [m] } with
      parties := p } : ByteState) = { b.setDown d l with parties := p } := by
    intro p
    simp [ByteState.refit, ByteState.setUp, ByteState.setDown, ByteState.setSending]
  rw [← heq]
  refine hwritten.server hsessions ?_ hlost ?_
  · intro q g hg
    obtain hg | hg := hnew q g hg
    · exact h.frame q g hg
    · exact hg
  · intro q g d' m' hg hgw _ hbusy
    refine hold q g ?_ hg
    rintro rfl
    change s.frames q = some g at hg
    rw [hf] at hg
    cases hg
    rw [hw] at hgw
    cases hgw
    change (update b.down d l d).rest ≠ none at hbusy
    rw [update_self] at hbusy
    exact hbusy hrest

/-- A coroutine has written its package. -/
theorem written (hfiled : Filed s site) (hf : s.frames c = some f)
    (hw : f.writes address c = some (d, m)) (hwrite : (b.down d).write n = some l) (hrest : l.rest = none)
    (hstep : s.step address (f.event c) = some s') :
    Transports address a { b.setDown d l with parties := s'.offline } s' := by
  have hset : ∀ (g : Frame), g.Fits a → ∀ q g', update s.frames c (some g) q = some g' → s.frames q = some g' ∨
      g'.Fits a := by
    intro g hg q g' hq
    obtain hq | hq := update_some hq
    · cases hq
      exact .inr hg
    · exact .inl hq
  have hkept : ∀ (g : Frame) q g', q ≠ c → s.frames q = some g' → update s.frames c (some g) q = some g' := by
    intro g q g' hq hg'
    rwa [update_of_ne hq]
  cases Frame.writes_iff.1 hw with
  | answer rpkg =>
    simp only [Frame.event, State.step, hf] at hstep
    cases hstep
    exact h.goesOn hfiled hf rfl hwrite hrest rfl (fun _ hd => hd) (hset .handle trivial) (hkept .handle)
  | data p t dpkg =>
    simp only [Frame.event, State.step, hf] at hstep
    cases hstep
    exact h.goesOn hfiled hf rfl hwrite hrest rfl (fun _ hd =>
      hd) (hset (.transfer d t .answerPush) ⟨(h.frame c _ hf).1, trivial⟩) (hkept _)
  | answerPush p t =>
    simp only [Frame.event, State.step, hf] at hstep
    cases hstep
    exact h.goesOn hfiled hf rfl hwrite hrest rfl (fun _ hd => hd) (hset (.transfer p t .answerPop) ⟨(h.frame c _ hf).1,
      trivial⟩) (hkept _)
  | answerPop p t =>
    simp only [Frame.event, State.step, hf] at hstep
    cases hstep
    refine h.goesOn hfiled hf rfl hwrite hrest rfl (fun _ hd => hd) ?_ ?_
    · intro q g hg
      obtain hg | hg := update_some hg
      · cases hg
        exact .inr trivial
      · exact hset .handle trivial q g hg
    · intro q g hq hg
      have hqd : q ≠ d := by
        rintro rfl
        have howner := hfiled.owner q
        rw [(hfiled.of_transfer hf).2, hg] at howner
        cases howner
      show update (update s.frames c (some .handle)) d (some .handle) q = some g
      rw [update_of_ne hqd]
      exact hkept .handle q g hq hg

/-- A read or a write of a coroutine fails: what it was sending stays unfinished. -/
theorem fails (hfiled : Filed s site) (hf : s.frames c = some f)
    (hstep : s.step address (f.failure c) = some s') : Transports address a { b with parties := s'.offline } s' := by
  -- a coroutine that is destroyed writes to a connection that is
  have hdestroy : ∀ cs : List Conn, (∀ q ∈ cs, ∀ g d m, s.frames q = some g → g.writes address q = some (d, m) →
      d ∈ cs) → Transports address a { b with parties := (s.destroy cs).offline } (s.destroy cs) := by
    intro cs hcs
    refine h.server rfl ?_ (fun d hd => hd.imp_left (fun hd => List.mem_append_left _ hd)) ?_
    · intro q g hg
      change (if q ∈ cs then none else s.frames q) = some g at hg
      split at hg
      · cases hg
      · exact h.frame q g hg
    · intro q g d m hg hgw hd _
      have hq : q ∉ cs := by
        intro hq
        exact hd (.inl (List.mem_append_right _ (hcs q hq g d m hg hgw)))
      show (if q ∈ cs then none else s.frames q) = some g
      rwa [if_neg hq]
  have hown : ∀ g d m, s.frames c = some g → g.writes address c = some (d, m) → d = c ∨
      ∃ t ph, g = .transfer d t ph := by
    intro g d m _ hgw
    cases Frame.writes_iff.1 hgw with
    | answer | answerPush => exact .inl rfl
    | data | answerPop => exact .inr ⟨_, _, rfl⟩
  have hone : (∀ p t ph, f ≠ .transfer p t ph) →
      Transports address a { b with parties := (s.destroy [c]).offline } (s.destroy [c]) := by
    intro hne
    refine hdestroy [c] ?_
    intro q hq g d m hg hgw
    rw [List.mem_singleton] at hq
    subst hq
    obtain rfl | ⟨t, ph, rfl⟩ := hown g d m hg hgw
    · exact List.mem_singleton_self _
    · rw [hf] at hg
      cases hg
      exact absurd rfl (hne d t ph)
  cases f with
  | handle =>
    simp only [Frame.failure, State.step, hf] at hstep
    cases hstep
    exact hone (by rintro _ _ _ ⟨⟩)
  | answer rpkg =>
    simp only [Frame.failure, State.step, hf] at hstep
    cases hstep
    exact hone (by rintro _ _ _ ⟨⟩)
  | transfer p t ph =>
    simp only [Frame.failure, State.step, hf] at hstep
    cases hstep
    refine hdestroy [c, p] ?_
    intro q hq g d m hg hgw
    have hnone : s.frames p = none := by
      have howner := hfiled.owner p
      rwa [(hfiled.of_transfer hf).2] at howner
    rcases List.mem_cons.1 hq with rfl | hq
    · obtain rfl | ⟨t', ph', rfl⟩ := hown g d m hg hgw
      · exact List.mem_cons_self
      · rw [hf] at hg
        cases hg
        exact List.mem_cons_of_mem _ (List.mem_singleton_self _)
    · rw [List.mem_singleton.1 hq, hnone] at hg
      cases hg

/-! ### Reads -/

end

end Transports

end Switcher

end Tunnel
