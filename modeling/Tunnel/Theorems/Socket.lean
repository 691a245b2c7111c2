import Tunnel.Socket
import Tunnel.Theorems.Wire

/-!
# From a SocketSink to a SocketSource

What a `SocketSink` leaves on its connection are the frames of its values and the frame of the EOF
(`SocketSink.run_wire`). A `SocketSource` reads frame by frame, and an exception ends it inside a frame that the
connection does not hold completely (`SocketSource.calls_cut`).
-/

namespace Tunnel

open Lib

variable {V : Type}

/-- The user's codec goes from one host to the other: what `Serialize` makes of a value is `enc`, and `Deserialize`
makes the value of it. -/
structure UserCodec.RoundTrips (codec : UserCodec V) (writer reader : Endian) (enc : V → Bytes) : Prop where
  writes : ∀ v, codec.serialize writer v [] = .ok (enc v)
  reads : ∀ v, deserializeView (codec.deserialize reader) (enc v) = .ok v

/-- The package around an encoded value fits the length of a frame. -/
def FrameFits (binData : Bytes) : Prop := FitsLength (encodePackage { eof := false, binData := binData })

/-- A body that fits in a frame has a length. -/
theorem FrameFits.data {binData : Bytes} (h : FrameFits binData) : FitsLength binData := by
  have hlen : binData.length ≤ (encodePackage { eof := false, binData := binData }).length := by
    simp only [encodePackage, encodeString, List.length_append]
    omega
  exact Nat.le_trans hlen h

/-! ## What the sink writes -/

/-- A network where everything succeeds. -/
def Peer.always : Peer where
  accepts _ := true
  takes _ := true

namespace SocketSink

variable {peer : Peer} {s s' : SocketSink}

/-- A write that succeeds adds its bytes. -/
theorem send_ok {bytes : Bytes} (h : s.send peer bytes = .ok s') :
    s'.connected = s.connected ∧ s'.wire = s.wire.map (· ++ bytes) := by
  unfold send at h
  split at h
  · cases h
    exact ⟨rfl, rfl⟩
  · nomatch h

/-- A new connection is empty. -/
theorem connect_ok {left : Nat} (h : s.connect peer left = .ok s') : s'.connected = true ∧ s'.wire = some [] := by
  induction left generalizing s with
  | zero => nomatch h
  | succ left ih =>
    unfold connect at h
    split at h
    · cases h
      exact ⟨rfl, rfl⟩
    · exact ih h

/-- A package is one frame. -/
theorem writePackage_ok {host : Endian} {pkg : Package} (hfits : FitsLength pkg.binData)
    (h : s.writePackage host peer pkg = .ok s') :
    s'.connected = s.connected ∧ s'.wire = s.wire.map (· ++ frame (encodePackage pkg)) := by
  have hpkg := (lawful_package host host).writes pkg [] hfits
  have hlen := (lawful_uint32 host host).writes (UInt32.ofNat (encodePackage pkg).length) [] trivial
  simp only [writePackage, hpkg, hlen, List.nil_append, Except.mapError, bind, Except.bind] at h
  split at h
  · nomatch h
  · rename_i s₁ h₁
    obtain ⟨hc₁, hw₁⟩ := send_ok h₁
    obtain ⟨hc₂, hw₂⟩ := send_ok h
    refine ⟨hc₂.trans hc₁, ?_⟩
    rw [hw₂, hw₁, Option.map_map]
    refine congrArg (s.wire.map ·) (funext fun w => ?_)
    simp only [Function.comp, frame, List.append_assoc]
    rfl

variable {codec : UserCodec V} {writer reader : Endian} {enc : V → Bytes} (hcodec : codec.RoundTrips writer reader enc)
include hcodec

/-- A value is one frame. -/
theorem write_ok {v : V} (hfits : FrameFits (enc v)) (h : s.write codec writer peer v = .ok s') :
    s'.connected = s.connected ∧ s'.wire = s.wire.map (· ++ valueFrame (enc v)) := by
  simp only [write, hcodec.writes, Except.mapError, bind, Except.bind] at h
  exact writePackage_ok hfits.data h

/-- On a connection, the values are appended frame by frame. -/
theorem consume_all {values : List V} (hfits : ∀ v ∈ values, FrameFits (enc v)) {w : Bytes} (hc : s.connected = true)
    (hw : s.wire = some w) (h : values.foldlM (consume codec writer peer) s = .ok s') :
    s'.connected = true ∧ s'.wire = some (w ++ (values.map enc).flatMap valueFrame) := by
  induction values generalizing s w with
  | nil =>
    cases h
    exact ⟨hc, by simp [hw]⟩
  | cons v rest ih =>
    obtain ⟨hv, hrest⟩ := List.forall_mem_cons.1 hfits
    rw [List.foldlM_cons] at h
    obtain ⟨s₁, h₁, h⟩ : ∃ s₁, s.consume codec writer peer v = .ok s₁ ∧ rest.foldlM (consume codec writer peer) s₁ =
      .ok s' := by
      cases h₁ : s.consume codec writer peer v with
      | error e => rw [h₁] at h; nomatch h
      | ok s₁ => rw [h₁] at h; exact ⟨s₁, rfl, h⟩
    simp only [consume, hc, Bool.true_eq_false, if_false, bind, Except.bind] at h₁
    obtain ⟨hc₁, hw₁⟩ := write_ok hcodec hv h₁
    obtain ⟨hc', hw'⟩ := ih hrest (hc₁.trans hc) (w := w ++ valueFrame (enc v)) (by rw [hw₁, hw]; rfl) h
    exact ⟨hc', by rw [hw', List.map_cons, List.flatMap_cons, List.append_assoc]⟩

/-- A sink that ends normally leaves on its connection the frames of its values and that of the EOF; it has no
connection if there were no values. -/
theorem run_wire {values : List V} (hfits : ∀ v ∈ values, FrameFits (enc v))
    (h : run codec writer peer values = .ok s) :
    s.wire = if values = [] then none else some (transcript (values.map enc)) := by
  rcases values with _ | ⟨v, rest⟩
  · cases h
    rfl
  · obtain ⟨hv, hrest⟩ := List.forall_mem_cons.1 hfits
    obtain ⟨s₁, h₁, s₂, h₂, h⟩ : ∃ s₁, ({} : SocketSink).consume codec writer peer v = .ok s₁ ∧
        ∃ s₂, rest.foldlM (consume codec writer peer) s₁ = .ok s₂ ∧ s₂.afterWork writer peer = .ok s := by
      rw [run, List.foldlM_cons] at h
      cases h₁ : ({} : SocketSink).consume codec writer peer v with
      | error e => rw [h₁] at h; nomatch h
      | ok s₁ =>
        rw [h₁] at h
        simp only [bind, Except.bind] at h
        split at h
        · nomatch h
        · rename_i s₂ h₂
          exact ⟨s₁, rfl, s₂, h₂, h⟩
    -- the first value makes the connection
    obtain ⟨s₀, h₀, hw⟩ : ∃ s₀, ({} : SocketSink).connect peer 5 = .ok s₀ ∧ s₀.write codec writer peer v = .ok s₁ := by
      simp only [consume, if_true, bind, Except.bind] at h₁
      split at h₁
      · nomatch h₁
      · rename_i s₀ h₀
        exact ⟨s₀, h₀, h₁⟩
    obtain ⟨hc₀, hw₀⟩ := connect_ok h₀
    obtain ⟨hc₁, hw₁⟩ := write_ok hcodec hv hw
    obtain ⟨hc₂, hw₂⟩ := consume_all hcodec hrest (hc₁.trans hc₀) (w := valueFrame (enc v)) (by rw [hw₁, hw₀]; rfl) h₂
    simp only [afterWork, hc₂, if_true, writeEof, bind, Except.bind] at h
    split at h
    · nomatch h
    · rename_i s₃ h₃
      cases h
      obtain ⟨-, hw₃⟩ := writePackage_ok (Nat.zero_le _) h₃
      rw [hw₃, hw₂, if_neg (List.cons_ne_nil v rest), transcript, List.map_cons, List.flatMap_cons]
      rfl

/-- Where everything succeeds, a sink ends normally. -/
theorem run_always {values : List V} (hfits : ∀ v ∈ values, FrameFits (enc v)) :
    ∃ s, run codec writer .always values = .ok s := by
  have hpackage : ∀ (s : SocketSink) (pkg : Package), FitsLength pkg.binData → ∃ s', s.writePackage writer .always pkg =
      .ok s' := by
    intro s pkg hdata
    rw [writePackage, (lawful_package writer writer).writes pkg [] hdata]
    exact ⟨_, rfl⟩
  have hwork : ∀ s : SocketSink, ∃ s', values.foldlM (consume codec writer .always) s = .ok s' := by
    induction values with
    | nil => exact fun s => ⟨s, rfl⟩
    | cons v values ih =>
      obtain ⟨hv, hrest⟩ := List.forall_mem_cons.1 hfits
      intro s
      obtain ⟨s₁, h₁⟩ : ∃ s₁, s.consume codec writer .always v = .ok s₁ := by
        simp only [consume, write, hcodec.writes, Except.mapError, bind, Except.bind]
        split
        · exact hpackage _ { eof := false, binData := enc v } hv.data
        · exact hpackage s { eof := false, binData := enc v } hv.data
      rw [List.foldlM_cons, h₁]
      exact ih hrest s₁
  obtain ⟨s, hs⟩ := hwork {}
  rw [run, hs]
  simp only [bind, Except.bind, afterWork]
  split
  · obtain ⟨s', h'⟩ := hpackage s { eof := true, binData := [] } (Nat.zero_le _)
    rw [writeEof, h']
    exact ⟨_, rfl⟩
  · exact ⟨s, rfl⟩

end SocketSink

/-! ## What the source reads -/

namespace SocketSource

variable {c : Bool} {rest : Bytes}

/-- What was sent is received. -/
theorem receive_append (bytes : Bytes) : receive bytes.length ⟨c, bytes ++ rest⟩ = .ok (bytes, ⟨c, rest⟩) := by
  simp [receive]

/-- Too few bytes are the end of the file. -/
theorem receive_short {n : Nat} (h : rest.length < n) : receive n ⟨c, rest⟩ = .error (.threw "End of file") :=
  if_neg (Nat.not_le.2 h)

section

variable (codec : UserCodec V) (host : Endian)

/-- With the length in front, `Read` goes on with as many bytes. -/
theorem read_length {n : Nat} (hn : n ≤ uint32Max) :
    read codec host ⟨c, encodeIntegral (BitVec.ofNat 32 n) ++ rest⟩ = (do
      let (databuf, s) ← receive n ⟨c, rest⟩
      let pkg ← (deserializeView (deserializePackage host) databuf).mapError .ofWire
      if pkg.eof then .ok (none, s) else
      let v ← (deserializeView (codec.deserialize host) pkg.binData).mapError .ofWire
      .ok (some v, s)) := by
  have hview : deserializeView (deserializeUInt32 host) (encodeIntegral (BitVec.ofNat 32 n)) = .ok (UInt32.ofNat n) :=
    (WireType.deserializeView_ok .uint32 host).2 ⟨trivial, rfl⟩
  have hnat : (UInt32.ofNat n).toNat = n := UInt32.toNat_ofNat_of_lt' (Nat.lt_succ_of_le hn)
  have hfirst : receive integralSize ⟨c, encodeIntegral (BitVec.ofNat 32 n) ++ rest⟩ =
      .ok (encodeIntegral (BitVec.ofNat 32 n), ⟨c, rest⟩) := by
    rw [← length_encodeIntegral (BitVec.ofNat 32 n)]
    exact receive_append _
  rw [read, hfirst]
  simp only [bind, Except.bind, hview, Except.mapError, hnat]

/-- A frame is read as its package. -/
theorem read_frame {pkg : Package} (hdata : FitsLength pkg.binData) (hfits : FitsLength (encodePackage pkg)) :
    read codec host ⟨c, frame (encodePackage pkg) ++ rest⟩ = if pkg.eof then .ok (none, ⟨c, rest⟩) else
      ((deserializeView (codec.deserialize host) pkg.binData).mapError .ofWire).map (fun v => (some v, ⟨c, rest⟩)) := by
  have hview : deserializeView (deserializePackage host) (encodePackage pkg) = .ok pkg :=
    (WireType.deserializeView_ok .package host).2 ⟨hdata, rfl⟩
  rw [frame, List.append_assoc, read_length codec host hfits, receive_append]
  simp only [bind, Except.bind, hview, Except.mapError]
  split
  · rfl
  · cases deserializeView (codec.deserialize host) pkg.binData <;> rfl

/-- A connection that ends inside a frame. -/
theorem read_cut {body : Bytes} (hfits : FitsLength body) {k : Nat} (hk : k < (frame body).length) :
    read codec host ⟨c, (frame body).take k⟩ = .error (.threw "End of file") := by
  have hlen := length_encodeIntegral (BitVec.ofNat 32 body.length)
  rw [frame, List.length_append, hlen] at hk
  by_cases hhead : k < integralSize
  · -- inside the length
    have hshort : ((frame body).take k).length < integralSize := by rw [List.length_take]; omega
    rw [read, receive_short hshort]
    rfl
  · -- behind the length, inside the body
    have hsplit : (frame body).take k = encodeIntegral (BitVec.ofNat 32 body.length) ++
        body.take (k - integralSize) := by
      rw [frame, List.take_append, hlen, List.take_of_length_le (by omega)]
    have hshort : (body.take (k - integralSize)).length < body.length := by rw [List.length_take]; omega
    rw [hsplit, read_length codec host hfits, receive_short hshort]
    rfl

/-- A source that is connected reads. -/
theorem generate_connected (peer : Option Bytes) (s : SocketSource) (hs : s.connected = true) :
    s.generate codec host peer = s.read codec host := by
  simp [generate, hs, bind, Except.bind]

/-- From the first call on, the connection is read from its begin. -/
theorem calls_accept {bytes : Bytes} {n : Nat} (hn : 0 < n) :
    calls codec host (some bytes) n {} = calls codec host (some bytes) n ⟨true, bytes⟩ := by
  obtain ⟨n, rfl⟩ := Nat.exists_eq_succ_of_ne_zero (Nat.ne_of_gt hn)
  rw [calls, calls]
  rfl

end

variable {codec : UserCodec V} {writer reader : Endian} {enc : V → Bytes} (hcodec : codec.RoundTrips writer reader enc)
include hcodec

/-- A value is read as it was written. -/
theorem read_value {v : V} (hfits : FrameFits (enc v)) {c : Bool} (rest : Bytes) :
    read codec reader ⟨c, valueFrame (enc v) ++ rest⟩ = .ok (some v, ⟨c, rest⟩) := by
  rw [valueFrame, read_frame codec reader hfits.data hfits, if_neg Bool.false_ne_true, hcodec.reads]
  rfl

/-- The calls of `generate` on a connection that was cut: the values whose frames arrived, then EOF if its frame
arrived, too. -/
theorem calls_cut {values : List V} (hfits : ∀ v ∈ values, FrameFits (enc v)) (peer : Option Bytes) {n : Nat}
    (hn : values.length < n) (k : Nat) :
    ∃ m ≤ values.length, (((values.map enc).take m).flatMap valueFrame).length ≤ k ∧
      (m < values.length → k < (((values.map enc).take (m + 1)).flatMap valueFrame).length) ∧
      calls codec reader peer n ⟨true, (transcript (values.map enc)).take k⟩ =
      (values.take m).map (fun v => .ok (some v)) ++
        [if (transcript (values.map enc)).length ≤ k then .ok none else .error (.threw "End of file")] := by
  -- by the values; the cut moves by the frames that have been read
  induction values generalizing n k with
  | nil =>
    obtain ⟨n, rfl⟩ := Nat.exists_eq_succ_of_ne_zero (Nat.ne_zero_of_lt hn)
    have hbody : FitsLength (encodePackage { eof := true, binData := [] }) := by decide
    refine ⟨0, Nat.le_refl 0, Nat.zero_le k, nofun, ?_⟩
    rw [calls, generate_connected _ _ _ _ rfl]
    by_cases hk : (transcript []).length ≤ k
    · have hread : read codec reader ⟨true, transcript [] ++ []⟩ = .ok (none, ⟨true, []⟩) :=
        read_frame codec reader (Nat.zero_le _) hbody
      rw [List.append_nil] at hread
      rw [List.map_nil, List.take_of_length_le hk, if_pos hk, hread]
      rfl
    · rw [List.map_nil, if_neg hk, show transcript [] = eofFrame from rfl, eofFrame,
        read_cut codec reader hbody (Nat.not_le.1 hk)]
      rfl
  | cons v values ih =>
    obtain ⟨n, rfl⟩ := Nat.exists_eq_succ_of_ne_zero (Nat.ne_zero_of_lt hn)
    obtain ⟨hv, hrest⟩ := List.forall_mem_cons.1 hfits
    have htail : transcript ((v :: values).map enc) = valueFrame (enc v) ++ transcript (values.map enc) := by
      simp [transcript]
    have hlen : (transcript ((v :: values).map enc)).length = (valueFrame (enc v)).length +
        (transcript (values.map enc)).length := by
      rw [htail, List.length_append]
    rw [calls, generate_connected _ _ _ _ rfl]
    by_cases hk : k < (valueFrame (enc v)).length
    · -- the cut is inside the frame of this value
      refine ⟨0, Nat.zero_le _, Nat.zero_le k, fun _ => by simpa using hk, ?_⟩
      rw [htail, List.take_append_of_le_length (Nat.le_of_lt hk), valueFrame, read_cut codec reader hv hk,
        if_neg (by rw [← valueFrame, ← htail]; omega)]
      rfl
    · obtain ⟨m, hm, hle, hlt, hcalls⟩ := ih hrest (Nat.lt_of_succ_lt_succ hn) (k - (valueFrame (enc v)).length)
      refine ⟨m + 1, Nat.succ_le_succ hm, ?_, ?_, ?_⟩
      · rw [List.map_cons, List.take_succ_cons, List.flatMap_cons, List.length_append]
        omega
      · intro hm'
        have := hlt (Nat.lt_of_succ_lt_succ hm')
        rw [List.map_cons, List.take_succ_cons, List.flatMap_cons, List.length_append]
        omega
      · rw [htail, List.take_append, List.take_of_length_le (Nat.not_lt.1 hk), read_value hcodec hv]
        have hcut : (transcript (values.map enc)).length ≤ k - (valueFrame (enc v)).length ↔
            (transcript ((v :: values).map enc)).length ≤ k := by omega
        dsimp only
        rw [hcalls, ← htail, List.take_succ_cons, List.map_cons, List.cons_append]
        simp only [hcut]

end SocketSource

/-! ## From end to end -/

/-- Fewer frames are fewer bytes. -/
theorem length_flatMap_take_le (bodies : List Bytes) (m : Nat) :
    ((bodies.take m).flatMap valueFrame).length ≤ (bodies.flatMap valueFrame).length := by
  conv_rhs => rw [← List.take_append_drop m bodies, List.flatMap_append, List.length_append]
  exact Nat.le_add_right _ _

/-- The codec of a `uint32_t`, for a pipeline of such values. -/
def uint32Codec : UserCodec UInt32 where
  serialize := serializeUInt32
  deserialize := deserializeUInt32

/-- Integers make a codec. -/
theorem uint32Codec_roundTrips (writer reader : Endian) :
    uint32Codec.RoundTrips writer reader (fun v => encodeIntegral v.toBitVec) where
  writes v := (lawful_uint32 writer reader).writes v [] trivial
  reads _ := (WireType.deserializeView_ok .uint32 reader).2 ⟨trivial, rfl⟩

theorem frameFits_uint32 (v : UInt32) : FrameFits (encodeIntegral v.toBitVec) := by
  simp [FrameFits, FitsLength, encodePackage, encodeString, encodeFlag, length_encodeIntegral, integralSize, uint32Max]

section

variable {codec : UserCodec V} {writer reader : Endian} {enc : V → Bytes} (hcodec : codec.RoundTrips writer reader enc)
include hcodec

/-- A source to which a sink with values has written returns them, and then EOF. -/
theorem SocketSource.calls_run {values : List V} (hne : values ≠ []) (hfits : ∀ v ∈ values, FrameFits (enc v))
    {peer : Peer} {s : SocketSink} (hrun : SocketSink.run codec writer peer values = .ok s) {n : Nat}
    (hn : values.length < n) :
    SocketSource.calls codec reader s.wire n {} = values.map (fun v => .ok (some v)) ++ [.ok none] := by
  rw [SocketSink.run_wire hcodec hfits hrun, if_neg hne, SocketSource.calls_accept codec reader (Nat.zero_lt_of_lt hn)]
  obtain ⟨m, hm, -, hlt, hcalls⟩ := SocketSource.calls_cut hcodec hfits (some (transcript (values.map enc))) hn
    (transcript (values.map enc)).length
  rw [List.take_of_length_le (Nat.le_refl _), if_pos (Nat.le_refl _)] at hcalls
  -- nothing is cut off, so every frame arrived
  have hall : ¬m < values.length := by
    intro hm'
    have hfew := length_flatMap_take_le (values.map enc) (m + 1)
    have hmany := hlt hm'
    rw [transcript, List.length_append] at hmany
    omega
  rwa [List.take_of_length_le (Nat.not_lt.1 hall)] at hcalls

/-- The values that a `SocketSink` consumed before it ended normally, and then EOF, come out of the `SocketSource`
exactly if there was one: without a value the sink has made no connection, and the source waits for one. -/
theorem socket_stream {values : List V} (hfits : ∀ v ∈ values, FrameFits (enc v)) {peer : Peer} {s : SocketSink}
    (hrun : SocketSink.run codec writer peer values = .ok s) {n : Nat} (hn : values.length < n) :
    SocketSource.calls codec reader s.wire n {} = values.map (fun v => .ok (some v)) ++ [.ok none] ↔ values ≠ [] := by
  constructor
  · rintro hcalls rfl
    obtain ⟨n, rfl⟩ := Nat.exists_eq_succ_of_ne_zero (Nat.ne_zero_of_lt hn)
    have hwire : s.wire = none := by rw [SocketSink.run_wire hcodec hfits hrun, if_pos rfl]
    rw [hwire] at hcalls
    have hwaits : SocketSource.calls codec reader none (n + 1) {} = [.error .waits] := rfl
    rw [hwaits] at hcalls
    cases hcalls
  · intro hne
    exact SocketSource.calls_run hcodec hne hfits hrun hn

/-- A connection that is cut at any byte: the values whose frames lie before the cut, then EOF if its frame does, and an
exception otherwise. -/
theorem socket_truncation {values : List V} (hne : values ≠ []) (hfits : ∀ v ∈ values, FrameFits (enc v)) {peer : Peer}
    {s : SocketSink} (hrun : SocketSink.run codec writer peer values = .ok s) (k : Nat) {n : Nat}
    (hn : values.length < n) :
    s.wire = some (transcript (values.map enc)) ∧
    ∃ m ≤ values.length, (((values.map enc).take m).flatMap valueFrame).length ≤ k ∧
      (m < values.length → k < (((values.map enc).take (m + 1)).flatMap valueFrame).length) ∧
      SocketSource.calls codec reader (s.wire.map (·.take k)) n {} = (values.take m).map (fun v => .ok (some v)) ++
        [if (transcript (values.map enc)).length ≤ k then .ok none else .error (.threw "End of file")] := by
  have hwire : s.wire = some (transcript (values.map enc)) := by rw [SocketSink.run_wire hcodec hfits hrun, if_neg hne]
  refine ⟨hwire, ?_⟩
  rw [hwire, Option.map_some, SocketSource.calls_accept codec reader (Nat.zero_lt_of_lt hn)]
  exact SocketSource.calls_cut hcodec hfits _ hn k

end

/-- Every list of integers is written. -/
theorem uint32_run (values : List UInt32) : ∃ s, SocketSink.run uint32Codec .little .always values = .ok s :=
  SocketSink.run_always (uint32Codec_roundTrips .little .little) (fun v _ => frameFits_uint32 v)

/-- Two integers go across. -/
theorem socket_stream_two : ∃ s, SocketSink.run uint32Codec .little .always [7, 8] = .ok s ∧
    SocketSource.calls uint32Codec .big s.wire 3 {} = [.ok (some 7), .ok (some 8), .ok none] := by
  obtain ⟨s, hs⟩ := uint32_run [7, 8]
  exact ⟨s, hs, (socket_stream (uint32Codec_roundTrips .little .big) (fun v _ =>
    frameFits_uint32 v) hs (Nat.lt_succ_self 2)).2
    (List.cons_ne_nil 7 [8])⟩

/-- Cut in the frame of the second value. -/
theorem socket_truncation_second : ∃ s, SocketSink.run uint32Codec .little .always [7, 8] = .ok s ∧
    SocketSource.calls uint32Codec .big (s.wire.map (·.take 15)) 3 {} = [.ok (some 7),
      .error (.threw "End of file")] := by
  obtain ⟨s, hs⟩ := uint32_run [7, 8]
  obtain ⟨-, m, hm, hle, hlt, hcalls⟩ :=
    socket_truncation (uint32Codec_roundTrips .little .big) (List.cons_ne_nil 7 [8])
    (fun v _ => frameFits_uint32 v) hs 15 (Nat.lt_succ_self 2)
  obtain rfl : m = 1 := by
    rcases m with _ | _ | _ | m
    · exact absurd (hlt (by decide)) (by decide)
    · rfl
    · exact absurd hle (by decide)
    · exact absurd hm (by simp)
  exact ⟨s, hs, hcalls⟩

/-- Without a value there is no connection: the sink ends, and the source waits for one. -/
theorem socket_stream_empty : ∃ s, SocketSink.run uint32Codec .little .always [] = .ok s ∧ s.wire = none ∧
    ∀ n, SocketSource.calls uint32Codec .little s.wire (n + 1) {} = [.error .waits] :=
  ⟨_, rfl, rfl, fun _ => rfl⟩

/-! ## The length in front of a package -/

theorem length_encodePackage (pkg : Package) : (encodePackage pkg).length = pkg.binData.length + 5 := by
  simp only [encodePackage, encodeString, encodeFlag, List.length_append, length_encodeIntegral, integralSize,
    List.length_singleton]
  omega

/-- Both writes of `Write` go through: the length, as far as 32 bits hold it, and the package. -/
theorem SocketSink.write_takes {codec : UserCodec V} {host : Endian} {v : V} {b : Bytes}
    (hwrites : codec.serialize host v [] = .ok b) (hb : FitsLength b) {peer : Peer} {s : SocketSink} {w : Bytes}
    (hs : s.wire = some w) (hfirst : peer.takes s.writes = true) (hsecond : peer.takes (s.writes + 1) = true) :
    ∃ s', s.write codec host peer v = .ok s' ∧ s'.wire = some (w ++ valueFrame b) := by
  have hpkg := (lawful_package host host).writes { eof := false, binData := b } [] hb
  have hwrite : ∃ s', s.write codec host peer v = .ok s' := by
    simp only [write, writePackage, hwrites, hpkg, Except.mapError, bind, Except.bind, send, hfirst, hsecond, if_true]
    exact ⟨_, rfl⟩
  obtain ⟨s', hs'⟩ := hwrite
  refine ⟨s', hs', ?_⟩
  simp only [write, hwrites, Except.mapError, bind, Except.bind] at hs'
  obtain ⟨-, hwire⟩ := writePackage_ok hb hs'
  rw [hwire, hs]
  rfl

/-- `Write` of a value whose serialized form `b` a `std::string` may hold: the length that it puts in front of the
package is the number of bytes behind it, and `Read` of the two writes returns the value, exactly when five bytes more
than `b` has still fit 32 bits. -/
theorem socket_length {codec : UserCodec V} {writer reader : Endian} {v : V} {b : Bytes}
    (hwrites : codec.serialize writer v [] = .ok b) (hreads : deserializeView (codec.deserialize reader) b = .ok v)
    (hb : FitsLength b) {peer : Peer} {s : SocketSink} {w : Bytes} (hs : s.wire = some w)
    (hfirst : peer.takes s.writes = true) (hsecond : peer.takes (s.writes + 1) = true) :
    ∃ (length : UInt32) (body : Bytes) (s' : SocketSink), s.write codec writer peer v = .ok s' ∧
      s'.wire = some (w ++ (encodeIntegral length.toBitVec ++ body)) ∧
      ((length.toNat = body.length ∧
        ∀ c rest, SocketSource.read codec reader ⟨c, encodeIntegral length.toBitVec ++ body ++ rest⟩ = .ok (some v,
          ⟨c, rest⟩)) ↔
          b.length + 5 ≤ uint32Max) := by
  obtain ⟨s', hwrite, hwire⟩ := SocketSink.write_takes hwrites hb hs hfirst hsecond
  have hlen := length_encodePackage { eof := false, binData := b }
  refine ⟨UInt32.ofNat (encodePackage { eof := false, binData := b }).length,
    encodePackage { eof := false, binData := b }, s', hwrite, hwire, ?_⟩
  constructor
  · rintro ⟨hhead, -⟩
    rw [← hlen, ← hhead]
    exact Nat.le_of_lt_succ (UInt32.toNat_lt _)
  · intro hle
    have hfits : FrameFits b := by
      show (encodePackage { eof := false, binData := b }).length ≤ uint32Max
      rwa [hlen]
    refine ⟨UInt32.toNat_ofNat_of_lt' (Nat.lt_succ_of_le hfits), fun c rest => ?_⟩
    refine (SocketSource.read_frame codec reader hb hfits).trans ?_
    rw [if_neg Bool.false_ne_true, hreads]
    rfl

/-- One integer, with its length. -/
theorem socket_length_one : ∃ (length : UInt32) (body : Bytes) (s' : SocketSink),
    ({ connected := true, wire := some [] } : SocketSink).write uint32Codec .little .always 7 = .ok s' ∧
      s'.wire = some (encodeIntegral length.toBitVec ++ body) ∧ length.toNat = body.length ∧
      ∀ c rest, SocketSource.read uint32Codec .big ⟨c, encodeIntegral length.toBitVec ++ body ++ rest⟩ = .ok (some 7,
        ⟨c, rest⟩) := by
  have hcodec := uint32Codec_roundTrips .little .big
  obtain ⟨length, body, s', hwrite, hwire, hiff⟩ :=
    socket_length (s := { connected := true, wire := some [] }) (hcodec.writes 7) (hcodec.reads 7)
    (by decide) rfl (show Peer.always.takes 0 = true from rfl) rfl
  obtain ⟨hhead, hread⟩ := hiff.2 (by decide)
  exact ⟨length, body, s', hwrite, hwire, hhead, hread⟩

/-- The codec of a `std::string`. -/
def stringCodec : UserCodec Bytes where
  serialize := serializeString
  deserialize := deserializeString

/-- A package around `2 ^ 32 - 1` bytes goes out with the length 4. `Read` takes the first four of its bytes for all of
it, and looks for the length of a string behind them. -/
theorem SocketSource.read_wrapped {b : Bytes} (hb : b.length = uint32Max) :
    valueFrame b = encodeIntegral 4 ++ encodePackage { eof := false, binData := b } ∧
    SocketSource.read stringCodec .little ⟨true, valueFrame b⟩ = .error (.fault .outOfRange) := by
  have hlength : BitVec.ofNat 32 (encodePackage { eof := false, binData := b }).length = 4 := by
    rw [length_encodePackage, hb]
    rfl
  have hframe : valueFrame b = encodeIntegral (BitVec.ofNat 32 4) ++ encodePackage { eof := false, binData := b } := by
    rw [valueFrame, frame, hlength]
    rfl
  have hbody : encodePackage { eof := false, binData := b } = [ascii 'n', 255, 255, 255] ++ 255 :: b := by
    rw [encodePackage, encodeString, hb]
    rfl
  have hview : deserializeView (deserializePackage .little) [ascii 'n', 255, 255, 255] = .error .outOfRange := by decide
  refine ⟨hframe, ?_⟩
  rw [hframe, read_length stringCodec .little (by decide), hbody, show 4 = [ascii 'n', 255, 255, 255].length from rfl,
    receive_append]
  simp only [bind, Except.bind, hview, Except.mapError, SocketStop.ofWire]

/-- A string of `2 ^ 32 - 5` bytes: `Serialize` takes it, and its serialized form, too. -/
theorem socket_length_wraps : ∃ (v b body : Bytes) (s' : SocketSink), serializeString .little v [] = .ok b ∧
    FitsLength b ∧ ({ connected := true, wire := some [] } : SocketSink).write stringCodec .little .always v = .ok s' ∧
    s'.wire = some (encodeIntegral 4 ++ body) ∧ body.length = 2 ^ 32 + 4 ∧
    SocketSource.read stringCodec .little ⟨true, encodeIntegral 4 ++ body⟩ = .error (.fault .outOfRange) := by
  obtain ⟨v, hv⟩ : ∃ v : Bytes, v.length = uint32Max - 4 := ⟨List.replicate (uint32Max - 4) 0, List.length_replicate⟩
  have hfits : FitsLength v := by
    rw [FitsLength, hv]
    exact Nat.sub_le _ _
  have hb : (encodeString v).length = uint32Max := by
    rw [encodeString, List.length_append, length_encodeIntegral, hv]
    rfl
  have hwrites : stringCodec.serialize .little v [] = .ok (encodeString v) :=
    (lawful_string .little .little).writes v [] hfits
  obtain ⟨s', hwrite, hwire⟩ :=
    SocketSink.write_takes (s := { connected := true, wire := some [] }) hwrites (Nat.le_of_eq hb)
    rfl (show Peer.always.takes 0 = true from rfl) rfl
  obtain ⟨hframe, hread⟩ := SocketSource.read_wrapped hb
  rw [List.nil_append, hframe] at hwire
  rw [hframe] at hread
  refine ⟨v, encodeString v, _, s', hwrites, Nat.le_of_eq hb, hwrite, hwire, ?_, hread⟩
  rw [length_encodePackage, hb]
  rfl

end Tunnel
