import Tunnel.SwitcherWire
import Tunnel.Theorems.Wire

/-!
# Requests as they arrive

The two `read_package(s, eof)` are one function (`client_readPackage`). Complete frames are read one by one; what it
makes of a remainder depends on where in the header or in the body the connection ends. A request that was read is
dispatched by its type, but the log line looks its type up before anything has checked it.
-/

namespace Tunnel

open Lib

namespace Switcher

variable {T : WireType} {host : Endian}

/-! ## The end of a connection -/

/-- No complete frame: the header is not there, or fewer bytes behind it than it says. -/
def Incomplete (rest : Bytes) : Prop := rest.length < integralSize + (decodeIntegral (rest.take integralSize)).toNat

/-- The connection holds the frames of these packages and then a remainder. Successive calls return the packages; then
`eof` is set if the remainder is empty, and an exception is thrown if it is not. -/
def ClosesCleanly {α : Type} (read : Bytes → Except SocketStop (Option α × Bytes)) (encode : α → Bytes)
    (values : List α) (rest : Bytes) : Prop :=
  ∀ n, values.length < n → ∃ last, packages read n ((values.map (fun v => frame (encode v))).flatten ++ rest) =
    values.map (fun v => .ok (some v)) ++ [last] ∧ (last = .ok none ↔ rest = []) ∧
      (rest ≠ [] → ∃ what, last = .error (.threw what))

theorem asyncRead_append (bytes rest : Bytes) :
    asyncRead bytes.length (bytes ++ rest) = { eof := false, transferred := bytes, rest := rest } := by
  simp [asyncRead]

/-- Too few bytes are the end of the file. -/
theorem asyncRead_short {n : Nat} {unread : Bytes} (h : unread.length < n) :
    asyncRead n unread = { eof := true, transferred := unread, rest := [] } :=
  if_neg (Nat.not_le.2 h)

/-- Both see the end of the connection in the header, and both throw it in the body. -/
theorem client_readPackage (host : Endian) (T : WireType) : Client.readPackage host T = readPackage host T := by
  have hbody : socketReadAwaiter true = awaitRead := by
    funext n unread
    simp only [socketReadAwaiter, awaitRead, Bool.and_true]
  funext unread
  unfold Client.readPackage readPackage
  rw [hbody]
  by_cases hlen : integralSize ≤ unread.length
  · have hfull : (unread.take integralSize).length = integralSize := List.length_take_of_le hlen
    simp [socketReadAwaiter, asyncRead, hlen, bind, Except.bind, hfull]
  · have hshort : unread.length ≠ integralSize := fun he => hlen (Nat.le_of_eq he.symm)
    simp [socketReadAwaiter, asyncRead, hlen, bind, Except.bind, hshort]

/-- With a header, the read goes on with the body. -/
theorem readPackage_header {header : BitVec 32} (rest : Bytes) :
    readPackage host T (encodeIntegral header ++ rest) = (do
      let (buffer, unread) ← awaitRead header.toNat rest
      let v ← (deserializeView (T.deserialize host) buffer).mapError .ofWire
      .ok (some v, unread)) := by
  have hview : deserializeView (deserializeUInt32 host) (encodeIntegral header) = .ok (UInt32.ofBitVec header) :=
    (WireType.deserializeView_ok .uint32 host).2 ⟨trivial, rfl⟩
  have hfirst : asyncRead integralSize (encodeIntegral header ++ rest) =
      { eof := false, transferred := encodeIntegral header, rest := rest } := by
    rw [← length_encodeIntegral header]
    exact asyncRead_append _ _
  simp only [readPackage, hfirst, Bool.false_eq_true, if_false, readBody, hview, Except.mapError, bind, Except.bind,
    UInt32.toNat_ofBitVec]

/-- A frame is read as its package. -/
theorem readPackage_frame {v : T.Carrier} (hv : T.Valid v) (hfits : FitsLength (T.encode v)) (rest : Bytes) :
    readPackage host T (frame (T.encode v) ++ rest) = .ok (some v, rest) := by
  have hview : deserializeView (T.deserialize host) (T.encode v) = .ok v :=
    (WireType.deserializeView_ok T host).2 ⟨hv, rfl⟩
  have hlength : (BitVec.ofNat 32 (T.encode v).length).toNat = (T.encode v).length := by
    rw [BitVec.toNat_ofNat]
    exact Nat.mod_eq_of_lt (Nat.lt_succ_of_le hfits)
  rw [frame, List.append_assoc, readPackage_header, hlength]
  simp only [awaitRead, asyncRead_append, Bool.false_eq_true, if_false, hview, Except.mapError, bind, Except.bind]

/-- A header that is cut sets `eof`, as if the connection had ended before it. -/
theorem readPackage_short {rest : Bytes} (h : rest.length < integralSize) :
    readPackage host T rest = .ok (none, []) := by
  rw [readPackage, asyncRead_short h]
  rfl

/-- A frame that is cut off is an error. -/
theorem readPackage_cut {rest : Bytes} (hrest : Incomplete rest) (h : integralSize ≤ rest.length) :
    readPackage host T rest = .error (.threw "End of file") := by
  have hlen : (rest.take integralSize).length = integralSize := List.length_take_of_le h
  have hsplit : rest = encodeIntegral (decodeIntegral (rest.take integralSize)) ++ rest.drop integralSize := by
    rw [encodeIntegral_decodeIntegral hlen, List.take_append_drop]
  have hshort : (rest.drop integralSize).length < (decodeIntegral (rest.take integralSize)).toNat := by
    unfold Incomplete at hrest
    rw [List.length_drop]
    omega
  rw [hsplit, readPackage_header, awaitRead, asyncRead_short hshort]
  rfl

/-- The packages of the complete frames, then what the remainder gives. -/
theorem packages_frames {values : List T.Carrier} (hvalues : ∀ v ∈ values, T.Valid v ∧ FitsLength (T.encode v))
    {rest : Bytes} {last : Except SocketStop (Option T.Carrier)} (hlast : packages (readPackage host T) 1 rest = [last])
    (hstop : ∀ v, last ≠ .ok (some v)) {n : Nat} (hn : values.length < n) :
    packages (readPackage host T) n ((values.map (fun v => frame (T.encode v))).flatten ++ rest) =
    values.map (fun v => .ok (some v)) ++ [last] := by
  induction values generalizing n with
  | nil =>
    obtain ⟨n, rfl⟩ := Nat.exists_eq_succ_of_ne_zero (Nat.ne_zero_of_lt hn)
    rw [List.map_nil, List.flatten_nil, List.nil_append, List.map_nil, List.nil_append, ← hlast]
    -- nothing is called behind the last result, however many calls are left
    unfold packages at hlast ⊢
    split
    · rename_i v unread hread
      rw [hread] at hlast
      exact absurd (List.cons.inj hlast).1.symm (hstop v)
    · rfl
    · rfl
  | cons v values ih =>
    obtain ⟨n, rfl⟩ := Nat.exists_eq_succ_of_ne_zero (Nat.ne_zero_of_lt hn)
    obtain ⟨⟨hv, hfits⟩, hrest⟩ := List.forall_mem_cons.1 hvalues
    rw [List.map_cons, List.flatten_cons, List.append_assoc, packages, readPackage_frame hv hfits]
    exact congrArg (Except.ok (some v) :: ·) (ih hrest (Nat.lt_of_succ_lt_succ hn))

/-- A header that is not there or is cut sets `eof`; a header with no complete body behind it throws. -/
theorem packages_incomplete {rest : Bytes} (hrest : Incomplete rest) :
    packages (readPackage host T) 1 rest = [if rest.length < integralSize then .ok none
      else .error (.threw "End of file")] := by
  by_cases h : rest.length < integralSize
  · rw [packages, readPackage_short h, if_pos h]
  · rw [packages, readPackage_cut hrest (Nat.not_lt.1 h), if_neg h]

/-- A remainder of one to three bytes is reported as a clean close; any other one is told apart from it. -/
theorem closesCleanly_iff {values : List T.Carrier} (hvalues : ∀ v ∈ values, T.Valid v ∧ FitsLength (T.encode v))
    {rest : Bytes} (hrest : Incomplete rest) : ClosesCleanly (readPackage host T) T.encode values rest ↔ rest = [] ∨
    integralSize ≤ rest.length := by
  have hlast : packages (readPackage host T) 1 rest = [if rest.length < integralSize then .ok none
      else .error (.threw "End of file")] :=
    packages_incomplete hrest
  have hpackages := fun n hn => packages_frames (n := n) hvalues hlast (by split <;> nofun) hn
  constructor
  · intro h
    obtain ⟨last, hcalls, hlast, -⟩ := h (values.length + 1) (Nat.lt_succ_self _)
    rw [hpackages _ (Nat.lt_succ_self _), List.append_cancel_left_eq, List.singleton_inj] at hcalls
    rcases Nat.lt_or_ge rest.length integralSize with hlt | hge
    · rw [if_pos hlt] at hcalls
      exact Or.inl (hlast.1 hcalls.symm)
    · exact Or.inr hge
  · intro h n hn
    refine ⟨_, hpackages n hn, ?_⟩
    rcases h with rfl | hge
    · exact ⟨iff_of_true rfl rfl, fun hne => absurd rfl hne⟩
    · have hne : rest ≠ [] := by
        rintro rfl
        exact absurd hge (by decide)
      rw [if_neg (Nat.not_lt.2 hge)]
      exact ⟨iff_of_false nofun hne, fun _ => ⟨_, rfl⟩⟩

/-- Frames and a remainder that holds no complete one, on a connection the peer then closes: the server's and the
client's `read_package(s, eof)` return the packages, and report a clean close for the empty remainder and throw for any
other one, exactly when the remainder is not a header that is cut. -/
theorem clean_close {values : List T.Carrier} (hvalues : ∀ v ∈ values, T.Valid v ∧ FitsLength (T.encode v))
    {rest : Bytes} (hrest : Incomplete rest) :
    (ClosesCleanly (readPackage host T) T.encode values rest ↔ rest = [] ∨ integralSize ≤ rest.length) ∧
    (ClosesCleanly (Client.readPackage host T) T.encode values rest ↔ rest = [] ∨ integralSize ≤ rest.length) := by
  rw [client_readPackage]
  exact ⟨closesCleanly_iff hvalues hrest, closesCleanly_iff hvalues hrest⟩

/-- A `Pop` on the topic "t". -/
def popRequest : RequestPackage := { topic := [116], type := requestTypePop, timeoutMs := 0 }

theorem popRequest_valid : ∀ v ∈ ([popRequest] : List WireType.request.Carrier), WireType.request.Valid v ∧
    FitsLength (WireType.request.encode v) := by
  intro v hv
  rw [List.mem_singleton.1 hv]
  exact ⟨(by decide : FitsLength [116]), by decide⟩

/-- A request, then a header that announces five bytes and two of them. -/
theorem clean_close_body :
    ClosesCleanly (readPackage .little .request) encodeRequest [popRequest] [0, 0, 0, 5, 1, 2] := by
  have hrest : Incomplete [0, 0, 0, 5, 1, 2] := by
    unfold Incomplete
    decide
  exact (clean_close (T := .request) popRequest_valid hrest).1.2 (Or.inr (by decide))

/-- A request, then one byte of the next header: both readers set `eof`. -/
theorem clean_close_half_header :
    packages (readPackage .little .request) 2 (frame (encodeRequest popRequest) ++ [0]) = [.ok (some popRequest),
      .ok none] ∧
    ¬ClosesCleanly (readPackage .little .request) encodeRequest [popRequest] [0] ∧
    ¬ClosesCleanly (Client.readPackage .little .request) encodeRequest [popRequest] [0] := by
  have hrest : Incomplete [0] := by
    unfold Incomplete
    decide
  have hnot : ¬([0] = ([] : Bytes) ∨ integralSize ≤ [(0 : UInt8)].length) := by decide
  have hcloses : ¬ClosesCleanly (readPackage .little .request) encodeRequest [popRequest] [0] :=
    fun h => hnot ((closesCleanly_iff (T := .request) popRequest_valid hrest).1 h)
  refine ⟨packages_frames (T := .request) (n :=
    2) popRequest_valid (packages_incomplete hrest) nofun (Nat.lt_succ_self 1), hcloses, ?_⟩
  rw [client_readPackage]
  exact hcloses

/-! ## Requests of any type -/

/-- The type of a request is one that `handle` knows. -/
def Known (type : Int32) : Prop :=
  type = requestTypePush ∨ type = requestTypePop ∨ type = requestTypeCheckTopicExist ∨ type = requestTypeCloseTopic

/-- The one handler that the type selects has the request, or it is rejected as invalid, with `datas_` and every other
connection as before. It is what the server does with the request among all its other steps. -/
def Dispatched (s : State) (c : Conn) (pkg : RequestPackage) : Verdict → Prop
  | .handler s' => s' = s.handle c pkg ∧
    ((pkg.type = requestTypePush ∧ s' = State.handlePushRequest { s with handled := s.handled ++ [pkg] } c pkg.topic) ∨
    (pkg.type = requestTypePop ∧ s' = State.handlePopRequest { s with handled := s.handled ++ [pkg] } c pkg.topic) ∨
    (pkg.type = requestTypeCloseTopic ∧
      s' = State.handleCloseTopicRequest { s with handled := s.handled ++ [pkg] } c pkg.topic) ∨
    (pkg.type = requestTypeCheckTopicExist ∧
      s' = State.handleCheckTopicExist { s with handled := s.handled ++ [pkg] } c pkg.topic))
  | .rejected what s' =>
    s' = s.handle c pkg ∧ what = "invalid request type for switcher now." ∧ ¬Known pkg.type ∧ s'.datas = s.datas ∧
      s'.sessions = s.sessions ∧
    ∀ d, d ≠ c → s'.frames d = s.frames d ∧ (d ∈ s'.closed ↔ d ∈ s.closed)
  | .failed _ => False
  | .closed => False
  | .outOfBounds => False
  | .disconnected _ _ => False

/-- The four types. -/
theorem known_iff {type : Int32} : Known type ↔ 0 ≤ type.toInt ∧ type.toInt < 4 := by
  have hvalue : ∀ t : Int32, type = t ↔ type.toInt = t.toInt := fun t => Int32.toInt_inj.symm
  have hpush : requestTypePush.toInt = 0 := rfl
  have hpop : requestTypePop.toInt = 1 := rfl
  have hcheck : requestTypeCheckTopicExist.toInt = 2 := rfl
  have hclose : requestTypeCloseTopic.toInt = 3 := rfl
  unfold Known
  rw [hvalue, hvalue, hvalue, hvalue, hpush, hpop, hcheck, hclose]
  omega

/-- `request_type_str` has an element for the known types and for no other ones. -/
theorem typeStr_isSome {type : Int32} : (typeStr type).isSome = true ↔ Known type := by
  rw [known_iff]
  unfold typeStr
  by_cases hneg : 0 ≤ type.toInt
  · rw [if_pos hneg, Option.isSome_iff_ne_none, Ne, List.getElem?_eq_none_iff, requestTypeStr]
    simp only [List.length_cons, List.length_nil]
    omega
  · rw [if_neg hneg]
    simp [hneg]

/-- Behind the log line, every request is dispatched or rejected. -/
theorem dispatched (s : State) (c : Conn) (pkg : RequestPackage) : Dispatched s c pkg (dispatch s c pkg) := by
  unfold dispatch
  dsimp only
  split
  · rename_i hpush
    exact ⟨by simp only [State.handle, if_pos hpush], Or.inl ⟨hpush, rfl⟩⟩
  rename_i hpush
  split
  · rename_i hpop
    exact ⟨by simp only [State.handle, if_neg hpush, if_pos hpop], Or.inr (Or.inl ⟨hpop, rfl⟩)⟩
  rename_i hpop
  split
  · rename_i hclose
    exact ⟨by simp only [State.handle, if_neg hpush, if_neg hpop,
      if_pos hclose], Or.inr (Or.inr (Or.inl ⟨hclose, rfl⟩))⟩
  rename_i hclose
  split
  · rename_i hcheck
    exact ⟨by simp only [State.handle, if_neg hpush, if_neg hpop, if_neg hclose,
      if_pos hcheck], Or.inr (Or.inr (Or.inr ⟨hcheck, rfl⟩))⟩
  rename_i hcheck
  refine ⟨by simp only [State.handle, if_neg hpush, if_neg hpop, if_neg hclose,
    if_neg hcheck], rfl, ?_, rfl, rfl, fun d hd => ⟨?_, ?_⟩⟩
  · rintro (h | h | h | h)
    · exact hpush h
    · exact hpop h
    · exact hcheck h
    · exact hclose h
  · exact if_neg (fun hm => hd (List.mem_singleton.1 hm))
  · simp [State.destroy, hd]

/-- A well-encoded request with any topic, type and timeout, in any state of the server: `handle` runs the handler that
its type selects or rejects it, and reads `request_type_str` inside its bounds, exactly when the type is one of the four
and the address of the client can be had, or the log line is not compiled in. -/
theorem request_dispatch (logs : Bool) (address : Except String Bytes) (host : Endian) (s : State) (c : Conn)
    {pkg : RequestPackage} (htopic : FitsLength pkg.topic) (hframe : FitsLength (encodeRequest pkg)) (rest : Bytes) :
    Dispatched s c pkg (handleBytes logs address host s c (frame (encodeRequest pkg) ++ rest)) ↔
      logs = false ∨ (Known pkg.type ∧ address.isOk = true) := by
  have hread : readPackage host .request (frame (encodeRequest pkg) ++ rest) = .ok (some pkg, rest) :=
    readPackage_frame (T := .request) htopic hframe rest
  rw [handleBytes, hread, ← typeStr_isSome]
  dsimp only
  cases logs with
  | false => exact iff_of_true (dispatched s c pkg) (Or.inl rfl)
  | true =>
    cases hstr : typeStr pkg.type with
    | none => simp [handleRequest, hstr, Dispatched]
    | some str =>
      cases address with
      | error what => simp [handleRequest, hstr, Dispatched, Except.isOk, Except.toBool]
      | ok ipport =>
        have hsame : handleRequest true (.ok ipport) s c pkg = dispatch s c pkg := by simp [handleRequest, hstr]
        rw [hsame]
        exact iff_of_true (dispatched s c pkg) (Or.inr ⟨rfl, rfl⟩)

/-- A pop request. -/
theorem request_dispatch_pop :
    Dispatched .init 0 popRequest (handleBytes true (.ok []) .little .init 0 (frame (encodeRequest popRequest) ++
      [])) := by
  have htopic : FitsLength popRequest.topic := by decide
  have hframe : FitsLength (encodeRequest popRequest) := by decide
  rw [request_dispatch true (.ok []) .little .init 0 htopic hframe []]
  exact Or.inr ⟨Or.inr (Or.inl rfl), rfl⟩

/-- A request of a type that no client has. -/
def unknownRequest : RequestPackage := { topic := [116], type := 4, timeoutMs := 0 }

/-- A request of type 4, the first that reaches the server: the log line reads `request_type_str[4]`. And a pop of a
client that has reset the connection behind it: the log line throws, and neither a handler nor the rejection sees the
request. -/
theorem request_dispatch_unknown :
    (handleBytes true (.ok []) .little .init 0 (frame (encodeRequest unknownRequest) ++ []) = .outOfBounds ∧
      ¬Dispatched .init 0 unknownRequest
      (handleBytes true (.ok []) .little .init 0 (frame (encodeRequest unknownRequest) ++ []))) ∧
    ¬Dispatched .init 0 popRequest (handleBytes true (.error "remote_endpoint: Transport endpoint is not connected")
      .little .init 0
      (frame (encodeRequest popRequest) ++ [])) := by
  have hread : readPackage .little .request (frame (encodeRequest unknownRequest) ++ []) = .ok (some unknownRequest,
      []) :=
    readPackage_frame (T := .request) (v := unknownRequest) (by decide : FitsLength [116]) (by decide) []
  have hpop : readPackage .little .request (frame (encodeRequest popRequest) ++ []) = .ok (some popRequest, []) :=
    readPackage_frame (T := .request) (v := popRequest) (by decide : FitsLength [116]) (by decide) []
  have hstr : typeStr unknownRequest.type = none := by decide
  have hpopStr : typeStr popRequest.type = some "request_pop" := by decide
  have hbounds : handleBytes true (.ok []) .little .init 0 (frame (encodeRequest unknownRequest) ++ []) =
      .outOfBounds := by
    rw [handleBytes, hread]
    simp [handleRequest, hstr]
  refine ⟨⟨hbounds, ?_⟩, ?_⟩
  · rw [hbounds]
    exact id
  · rw [handleBytes, hpop]
    simp [handleRequest, hpopStr, Dispatched]

end Switcher

end Tunnel
