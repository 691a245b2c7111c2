import Tunnel.Wire

/-!
# Round trips of the wire format

Every codec of the library is lawful between any two hosts: what one writes is the encoding of the value, and the other
accepts the encodings of the values and nothing else. The integral types come first, the rest is built from them.
-/

namespace Tunnel

open Lib

/-! ## Integral types -/

namespace Endian

/-- What is stored is loaded. -/
theorem load_store (host : Endian) (v : BitVec 32) : host.load (host.store v) = v := by
  have hround : ofBytes (toBytes integralSize v.toNat) = v.toNat := ofBytes_toBytes (w := 4) v.isLt
  rcases host with _ | _
  · simp [load, store, hround]
  · simp [load, store, hround]

/-- What is loaded is stored. -/
theorem store_load (host : Endian) {bytes : Bytes} (h : bytes.length = integralSize) :
    host.store (host.load bytes) = bytes := by
  have hround : ∀ bs : Bytes, bs.length = integralSize → toBytes integralSize (BitVec.ofNat 32 (ofBytes bs)).toNat =
      bs := by
    intro bs hbs
    have hlt : ofBytes bs < 2 ^ 32 := Nat.lt_of_lt_of_eq (ofBytes_lt bs) (by rw [hbs]; rfl)
    rw [BitVec.toNat_ofNat, Nat.mod_eq_of_lt hlt, ← hbs, toBytes_ofBytes]
  rcases host with _ | _
  · simp only [load, store, hround bytes.reverse (by simpa using h), List.reverse_reverse]
  · exact hround bytes h

/-- Four bytes. -/
theorem length_store (host : Endian) (v : BitVec 32) : (host.store v).length = integralSize := by
  rcases host with _ | _ <;> simp [store]

end Endian

/-- What is written does not depend on the host: four bytes, the highest first. -/
theorem serializeIntegral_eq (host : Endian) (v : BitVec 32) (p : Bytes) :
    serializeIntegral host v p = p ++ encodeIntegral v := by
  rcases host with _ | _
  · rfl
  · have hflip : Endian.little.store (flipByByte .little v) = encodeIntegral v := by
      unfold flipByByte
      rw [Endian.store_load]
      · rfl
      · rw [List.length_reverse, Endian.length_store]
    simp [serializeIntegral, hflip]

/-- What an integral type is read as does not depend on the host either. -/
def decodeIntegral (bytes : Bytes) : BitVec 32 := Endian.load .big bytes

theorem decodeIntegral_encodeIntegral (v : BitVec 32) :
    decodeIntegral (encodeIntegral v) = v := Endian.load_store .big v

theorem encodeIntegral_decodeIntegral {bytes : Bytes} (h : bytes.length = integralSize) :
    encodeIntegral (decodeIntegral bytes) = bytes :=
  Endian.store_load .big h

theorem length_encodeIntegral (v : BitVec 32) : (encodeIntegral v).length = integralSize := Endian.length_store .big v

/-- The reader brings the bytes into its own order. -/
theorem read_integral (host : Endian) {bytes : Bytes} (h : bytes.length = integralSize) :
    (if host = .little then flipByByte host (host.load bytes) else host.load bytes) = decodeIntegral bytes := by
  rcases host with _ | _
  · rfl
  · rw [if_pos rfl, flipByByte, Endian.store_load .little h]
    rfl

/-- Integers are read as they were written, on any host. -/
theorem lawful_integral (writer reader : Endian) :
    Lawful (fun _ => True) encodeIntegral (fun v p =>
      .ok (serializeIntegral writer v p)) (deserializeIntegral reader) := by
  refine ⟨fun v p _ => congrArg Except.ok (serializeIntegral_eq writer v p), fun view o v o' => ?_⟩
  simp only [deserializeIntegral, Reader.bind_ok, Reader.take_ok, Reader.pure_ok, true_and]
  constructor
  · rintro ⟨bytes, o₁, ⟨hlen, hholds⟩, rfl, rfl⟩
    rwa [read_integral reader hlen, encodeIntegral_decodeIntegral hlen]
  · intro hholds
    refine ⟨encodeIntegral v, o', ⟨length_encodeIntegral v, hholds⟩, ?_, rfl⟩
    rw [read_integral reader (length_encodeIntegral v), decodeIntegral_encodeIntegral]

/-- A type whose values are the objects of an integral type. -/
theorem Lawful.iso {α : Type} {f : α → BitVec 32} {g : BitVec 32 → α} (hgf : ∀ a, g (f a) = a) (hfg : ∀ v, f (g v) = v)
    (writer reader : Endian) : Lawful (fun _ => True) (fun a => encodeIntegral (f a))
      (fun a p => (.ok (serializeIntegral writer (f a) p) : Except WireFault Bytes)) (do
        let v ← deserializeIntegral reader
        pure (g v)) := by
  refine ⟨fun a p _ => congrArg Except.ok (serializeIntegral_eq writer (f a) p), fun view o a o' => ?_⟩
  simp only [Reader.bind_ok, (lawful_integral writer reader).reads, Reader.pure_ok, true_and]
  constructor
  · rintro ⟨v, o₁, hholds, rfl, rfl⟩
    rwa [hfg]
  · intro hholds
    exact ⟨f a, o', hholds, hgf a, rfl⟩

theorem lawful_uint32 (writer reader : Endian) :
    Lawful (fun _ => True) (fun v => encodeIntegral v.toBitVec) (serializeUInt32 writer) (deserializeUInt32 reader) :=
  Lawful.iso (fun _ => rfl) (fun _ => rfl) writer reader

theorem lawful_int (writer reader : Endian) :
    Lawful (fun _ => True) (fun v => encodeIntegral v.toBitVec) (serializeInt writer) (deserializeInt reader) :=
  Lawful.iso (fun _ => rfl) (fun _ => rfl) writer reader

/-! ## Strings and booleans -/

/-- Strings are read as they were written. -/
theorem lawful_string (writer reader : Endian) :
    Lawful FitsLength encodeString (serializeString writer) (deserializeString reader) := by
  have hlength := lawful_uint32 writer reader
  refine ⟨fun v p hv => ?_, fun view o v o' => ?_⟩
  · have hle : v.length ≤ uint32Max := hv
    simp only [serializeString, if_pos hle, hlength.writes _ p trivial, bind, Except.bind, encodeString,
      List.append_assoc]
    rfl
  · simp only [deserializeString, encodeString, FitsLength, Holds.append, Reader.bind_ok, hlength.reads, Reader.take_ok,
      true_and]
    constructor
    · rintro ⟨n, o₁, hn, hlen, hv⟩
      have hlt := n.toNat_lt
      refine ⟨by rw [hlen, uint32Max]; omega, o₁, ?_, hv⟩
      rwa [hlen, ← UInt32.toNat_toBitVec, BitVec.ofNat_toNat, BitVec.setWidth_eq]
    · rintro ⟨hmax, o₁, hn, hv⟩
      refine ⟨UInt32.ofNat v.length, o₁, hn, ?_, hv⟩
      rw [UInt32.toNat_ofNat', Nat.mod_eq_of_lt]
      rw [uint32Max] at hmax
      omega

/-- So are booleans. -/
theorem lawful_bool : Lawful (fun _ => True) (encodeFlag 't' 'f') serializeBool deserializeBool := by
  refine ⟨fun v p _ => rfl, fun view o v o' => ?_⟩
  simp only [deserializeBool, Reader.bind_ok, Reader.byte_ok, true_and]
  constructor
  · rintro ⟨c, o₁, hc, hv⟩
    split at hv
    · rename_i htf
      obtain ⟨rfl, rfl⟩ := Reader.pure_ok.1 hv
      rcases htf with rfl | rfl
      · exact hc
      · exact hc
    · exact absurd hv Reader.fail_ok
  · intro hc
    refine ⟨_, o', hc, ?_⟩
    rcases v with _ | _ <;> rfl

/-! ## Packages -/

/-- The letter in front of a package. -/
theorem package_tag {c : UInt8} {eof : Bool} : (¬(c ≠ ascii 'e' ∧ c ≠ ascii 'n') ∧ decide (c = ascii 'e') = eof) ↔
    [c] = encodeFlag 'e' 'n' eof := by
  have hen : ascii 'n' ≠ ascii 'e' := by decide
  simp only [not_and_or, not_not, encodeFlag, List.cons.injEq, and_true]
  constructor
  · rintro ⟨rfl | rfl, rfl⟩
    · rfl
    · simp [hen]
  · rintro rfl
    rcases eof with _ | _
    · exact ⟨Or.inr rfl, decide_eq_false hen⟩
    · exact ⟨Or.inl rfl, decide_eq_true rfl⟩

/-- So are packages. -/
theorem lawful_package (writer reader : Endian) :
    Lawful (fun v => FitsLength v.binData) encodePackage (serializePackage writer) (deserializePackage reader) := by
  have hstring := lawful_string writer reader
  refine ⟨fun v p hv => ?_, fun view o v o' => ?_⟩
  · rw [serializePackage, hstring.writes v.binData _ hv, encodePackage, List.append_assoc]
    rfl
  · rw [encodePackage, Holds.append, deserializePackage]
    constructor
    · intro h
      obtain ⟨w, o₁, hw, h⟩ := Reader.bind_ok.1 h
      obtain ⟨rfl, rfl⟩ := Reader.whole_ok.1 hw
      split at h
      · exact absurd h Reader.fail_ok
      obtain ⟨c, o₂, hc, h⟩ := Reader.bind_ok.1 h
      split at h
      · exact absurd h Reader.fail_ok
      rename_i htag
      obtain ⟨b, o₃, hb, h⟩ := Reader.bind_ok.1 h
      obtain ⟨rfl, rfl⟩ := Reader.pure_ok.1 h
      obtain ⟨hmax, hholds⟩ := (hstring.reads view o₂ b o₃).1 hb
      exact ⟨hmax, o₂, package_tag.1 ⟨htag, rfl⟩ ▸ Reader.byte_ok.1 hc, hholds⟩
    · rintro ⟨hmax, o₁, htag, hholds⟩
      have hview : view ≠ [] := by
        rintro rfl
        obtain ⟨p, s, hp, -, -⟩ := htag
        simp [encodeFlag] at hp
      obtain ⟨hen, heof⟩ := package_tag.2 (show [_] = encodeFlag 'e' 'n' v.eof from rfl)
      refine Reader.bind_ok.2 ⟨view, o, Reader.whole_ok.2 ⟨rfl, rfl⟩, ?_⟩
      rw [if_neg hview]
      refine Reader.bind_ok.2 ⟨_, o₁, Reader.byte_ok.2 htag, ?_⟩
      rw [if_neg hen]
      refine Reader.bind_ok.2 ⟨_, o', (hstring.reads view o₁ _ o').2 ⟨hmax, hholds⟩, Reader.pure_ok.2 ⟨?_, rfl⟩⟩
      rw [heof]

/-- So are requests. -/
theorem lawful_request (writer reader : Endian) :
    Lawful (fun v => FitsLength v.topic) encodeRequest (serializeRequest writer) (deserializeRequest reader) := by
  have hstring := lawful_string writer reader
  have hint := lawful_int writer reader
  refine ⟨fun v p hv => ?_, fun view o v o' => ?_⟩
  · simp only [serializeRequest, hstring.writes _ _ hv, hint.writes _ _ trivial, bind, Except.bind, encodeRequest,
      List.append_assoc]
  · simp only [deserializeRequest, encodeRequest, Reader.bind_ok, Reader.pure_ok, hstring.reads, hint.reads,
      Holds.append, true_and]
    constructor
    · rintro ⟨topic, o₁, ⟨hmax, h₁⟩, type, o₂, h₂, timeout, o₃, h₃, rfl, rfl⟩
      exact ⟨hmax, o₁, h₁, o₂, h₂, h₃⟩
    · rintro ⟨hmax, o₁, h₁, o₂, h₂, h₃⟩
      exact ⟨v.topic, o₁, ⟨hmax, h₁⟩, v.type, o₂, h₂, v.timeoutMs, o', h₃, rfl, rfl⟩

/-- So are responses. -/
theorem lawful_response (writer reader : Endian) :
    Lawful (fun v => FitsLength v.topic ∧ FitsLength v.peerAddr) encodeResponse
    (serializeResponse writer) (deserializeResponse reader) := by
  have hstring := lawful_string writer reader
  have hint := lawful_int writer reader
  refine ⟨fun v p hv => ?_, fun view o v o' => ?_⟩
  · simp only [serializeResponse, hstring.writes _ _ hv.1, hstring.writes _ _ hv.2, hint.writes _ _ trivial, bind,
      Except.bind, encodeResponse, List.append_assoc]
  · simp only [deserializeResponse, encodeResponse, Reader.bind_ok, Reader.pure_ok, hstring.reads, hint.reads,
      Holds.append, true_and]
    constructor
    · rintro ⟨topic, o₁, ⟨hmax, h₁⟩, waitMs, o₂, h₂, peer, o₃, ⟨hmax', h₃⟩, code, o₄, h₄, rfl, rfl⟩
      exact ⟨⟨hmax, hmax'⟩, o₁, h₁, o₂, h₂, o₃, h₃, h₄⟩
    · rintro ⟨⟨hmax, hmax'⟩, o₁, h₁, o₂, h₂, o₃, h₃, h₄⟩
      exact ⟨v.topic, o₁, ⟨hmax, h₁⟩, v.waitMs, o₂, h₂, v.peerAddr, o₃, ⟨hmax', h₃⟩, v.responseCode, o', h₄, rfl, rfl⟩

/-- So are data packages. -/
theorem lawful_data (writer reader : Endian) : Lawful (fun v => FitsLength v.data ∧ FitsLength v.metaInfo) encodeData
    (serializeData writer) (deserializeData reader) := by
  have hstring := lawful_string writer reader
  refine ⟨fun v p hv => ?_, fun view o v o' => ?_⟩
  · simp only [serializeData, hstring.writes _ _ hv.1, hstring.writes _ _ hv.2, lawful_bool.writes _ _ trivial, bind,
      Except.bind, encodeData, List.append_assoc]
  · simp only [deserializeData, encodeData, Reader.bind_ok, Reader.pure_ok, hstring.reads, lawful_bool.reads,
      Holds.append, true_and]
    constructor
    · rintro ⟨data, o₁, ⟨hmax, h₁⟩, metaInfo, o₂, ⟨hmax', h₂⟩, eof, o₃, h₃, rfl, rfl⟩
      exact ⟨⟨hmax, hmax'⟩, o₁, h₁, o₂, h₂, h₃⟩
    · rintro ⟨⟨hmax, hmax'⟩, o₁, h₁, o₂, h₂, h₃⟩
      exact ⟨v.data, o₁, ⟨hmax, h₁⟩, v.metaInfo, o₂, ⟨hmax', h₂⟩, v.eof, o', h₃, rfl, rfl⟩

/-- Every wire type is lawful between any two hosts. -/
theorem WireType.lawful (T : WireType) (writer reader : Endian) :
    Lawful T.Valid T.encode (T.serialize writer) (T.deserialize reader) :=
  match T with
  | uint32 => lawful_uint32 writer reader
  | int => lawful_int writer reader
  | string => lawful_string writer reader
  | bool => lawful_bool
  | package => lawful_package writer reader
  | request => lawful_request writer reader
  | response => lawful_response writer reader
  | data => lawful_data writer reader

/-- `Deserialize(view)` returns a value exactly on the encoding of a valid value. -/
theorem WireType.deserializeView_ok (T : WireType) (reader : Endian) {view : Bytes} {v : T.Carrier} :
    deserializeView (T.deserialize reader) view = .ok v ↔ T.Valid v ∧ view = T.encode v := by
  have hreads := (T.lawful .big reader).reads view 0
  rw [← holds_all, ← hreads, deserializeView]
  split
  · rename_i w offset hw
    rw [hw]
    constructor
    · intro h
      split at h
      · rename_i hend
        rw [hend, Except.ok.inj h]
      · nomatch h
    · intro h
      obtain ⟨rfl, rfl⟩ := Prod.mk.inj (Except.ok.inj h)
      rw [if_pos rfl]
  · rename_i e he
    rw [he]
    simp

/-! ## Both ways -/

/-- The wire format goes both ways. Between any two hosts, what is written behind a buffer is read back at its offset,
whatever stands behind it, and the offset moves behind it; the buffer in front is left alone. And a byte string that
`Deserialize(view)` accepts is what `Serialize` makes of the result. -/
theorem wire_round_trip (T : WireType) (writer reader : Endian) :
    (∀ (v : T.Carrier) (p s : Bytes), T.Valid v → ∃ e, T.serialize writer v [] = .ok e ∧
      T.serialize writer v p = .ok (p ++ e) ∧ (T.deserialize reader).run (p ++ e ++ s) p.length = .ok (v,
        p.length + e.length)) ∧
    ∀ (b : Bytes) (v : T.Carrier), deserializeView (T.deserialize reader) b = .ok v →
    T.serialize writer v [] = .ok b := by
  have hT := T.lawful writer reader
  refine ⟨fun v p s hv => ⟨T.encode v, ?_, hT.writes v p hv, hT.round_trip hv p s⟩, fun b v h => ?_⟩
  · simpa using hT.writes v [] hv
  · obtain ⟨hv, rfl⟩ := (T.deserializeView_ok reader).1 h
    simpa using hT.writes v [] hv

/-- A message of the switcher from a little-endian host to a big-endian one, between other bytes. -/
theorem wire_round_trip_data :
    ∃ e, serializeData .little ⟨[1, 2], [], true⟩ [] = .ok e ∧ e.length = 11 ∧
      (deserializeData .big).run ([9] ++ e ++ [8, 8]) 1 = .ok (⟨[1, 2], [], true⟩, 12) := by
  obtain ⟨hround, -⟩ := wire_round_trip .data .little .big
  have hvalid : WireType.data.Valid (⟨[1, 2], [], true⟩ : DataPackage) := by
    constructor <;> exact Nat.le_of_ble_eq_true rfl
  obtain ⟨e, he, -, hread⟩ := hround ⟨[1, 2], [], true⟩ [9] [8, 8] hvalid
  have hlen : e.length = 11 := by
    cases he
    rfl
  rw [hlen] at hread
  exact ⟨e, he, hlen, hread⟩

/-! ## Staying inside the view -/

/-- The reader throws no exception: if it does not return, it read outside the view or failed an `assert`. -/
def Throwless {α : Type} (read : WireReader α) : Prop := ∀ view o what, read.run view o ≠ .error (.runtimeError what)

namespace Throwless

variable {α β : Type}

theorem pure (a : α) : Throwless (Pure.pure a) := fun _ _ _ => Reader.pure_error

/-- A view that ends is no `runtime_error`. -/
theorem take (n : Nat) : Throwless (Reader.take .outOfRange n) := by
  intro view o what h
  exact nomatch (Reader.take_error.1 h).2

theorem byte : Throwless (Reader.byte .outOfRange) := by
  intro view o what h
  exact nomatch (Reader.byte_error.1 h).2

/-- Readers that do not throw compose. -/
theorem bind {x : WireReader α} {f : α → WireReader β} (hx : Throwless x) (hf : ∀ a, Throwless (f a)) :
    Throwless (x >>= f) := by
  intro view o what h
  rcases Reader.bind_error.1 h with h | ⟨a, o₁, -, h⟩
  · exact hx view o what h
  · exact hf a view o₁ what h

theorem uint32 (reader : Endian) : Throwless (deserializeUInt32 reader) :=
    ((take _).bind (fun _ => pure _)).bind (fun _ => pure _)

theorem int (reader : Endian) : Throwless (deserializeInt reader) :=
    ((take _).bind (fun _ => pure _)).bind (fun _ => pure _)

theorem string (reader : Endian) : Throwless (deserializeString reader) := (uint32 reader).bind (fun _ => take _)

theorem bool : Throwless deserializeBool := by
  refine byte.bind (fun c => ?_)
  split
  · exact pure _
  · intro view o what h
    exact nomatch Reader.fail_error.1 h

end Throwless

/-- Only the decoder of a package throws. -/
theorem WireType.throwless (T : WireType) (reader : Endian) (hT : T ≠ .package) : Throwless (T.deserialize reader) := by
  have hstring := Throwless.string reader
  have hint := Throwless.int reader
  match T with
  | uint32 => exact .uint32 reader
  | int => exact hint
  | string => exact hstring
  | bool => exact .bool
  | package => exact absurd rfl hT
  | request => exact hstring.bind (fun _ => hint.bind (fun _ => hint.bind (fun _ => .pure _)))
  | response => exact hstring.bind (fun _ => hint.bind (fun _ => hstring.bind (fun _ => hint.bind (fun _ => .pure _))))
  | data => exact hstring.bind (fun _ => hstring.bind (fun _ => Throwless.bool.bind (fun _ => .pure _)))

/-- The view is not the beginning of a package: it is empty, or its first byte is no letter of a package. -/
def NoPackage (view : Bytes) : Prop := ∀ c rest, view = c :: rest → c ≠ ascii 'e' ∧ c ≠ ascii 'n'

/-- It throws when the view does not begin with the letter of a package. -/
theorem deserializePackage_throws (reader : Endian) (view : Bytes) :
    (∃ what, (deserializePackage reader).run view 0 = .error (.runtimeError what)) ↔ NoPackage view := by
  constructor
  · rintro ⟨what, h⟩ c rest rfl
    obtain h | ⟨w, o₁, hw, h⟩ := Reader.bind_error.1 h
    · exact absurd h Reader.whole_error
    obtain ⟨rfl, rfl⟩ := Reader.whole_ok.1 hw
    rw [if_neg (List.cons_ne_nil c rest)] at h
    obtain h | ⟨c', o₂, hc, h⟩ := Reader.bind_error.1 h
    · exact absurd h (Throwless.byte _ _ what)
    obtain ⟨rfl, -⟩ := Prod.mk.inj (Except.ok.inj hc)
    split at h
    · rename_i htag
      exact htag
    · exact absurd h (((Throwless.string reader).bind (fun _ => Throwless.pure _)) _ _ what)
  · intro hno
    rcases view with _ | ⟨c, rest⟩
    · exact ⟨_, rfl⟩
    · refine ⟨"deserialize package error, parse invalid field",
        Reader.bind_error.2 (Or.inr ⟨_, 0, Reader.whole_ok.2 ⟨rfl, rfl⟩, ?_⟩)⟩
      rw [if_neg (List.cons_ne_nil c rest)]
      refine Reader.bind_error.2 (Or.inr ⟨c, 1, rfl, ?_⟩)
      rw [if_pos (hno c rest rfl)]
      exact Reader.fail_error.2 rfl

/-- `Deserialize(view)` reads inside the view only and returns a value whose encoding the view is, or throws. -/
def WireType.StaysInside (T : WireType) (reader : Endian) (view : Bytes) : Prop :=
  (∃ v, deserializeView (T.deserialize reader) view = .ok v ∧ T.serialize reader v [] = .ok view) ∨
    ∃ what, deserializeView (T.deserialize reader) view = .error (.runtimeError what)

/-- What a view adds is no `runtime_error`. -/
theorem deserializeView_throws {α : Type} (read : WireReader α) (view : Bytes) (what : String) :
    deserializeView read view = .error (.runtimeError what) ↔ read.run view 0 = .error (.runtimeError what) := by
  unfold deserializeView
  split
  · rename_i v offset h
    rw [h]
    split <;> simp
  · rename_i e h
    rw [h]
    simp

/-- A decoder stays inside what it was given on the encodings of its values, and a package decoder also on views that do
not begin with the letter of a package; on all others it reads outside, or an `assert` fails. -/
theorem decoder_stays_inside (T : WireType) (reader : Endian) (view : Bytes) :
    T.StaysInside reader view ↔ (∃ v, T.Valid v ∧ view = T.encode v) ∨ (T = .package ∧ NoPackage view) := by
  have haccepts : (∃ v, deserializeView (T.deserialize reader) view = .ok v ∧ T.serialize reader v [] = .ok view) ↔
      ∃ v, T.Valid v ∧ view = T.encode v := by
    constructor
    · rintro ⟨v, hv, -⟩
      exact ⟨v, (T.deserializeView_ok reader).1 hv⟩
    · rintro ⟨v, hv, rfl⟩
      exact ⟨v, (T.deserializeView_ok reader).2 ⟨hv, rfl⟩, by simpa using (T.lawful reader reader).writes v [] hv⟩
  have hthrows : (∃ what, deserializeView (T.deserialize reader) view = .error (.runtimeError what)) ↔ T = .package ∧
      NoPackage view := by
    simp only [deserializeView_throws]
    constructor
    · intro h
      by_cases hT : T = .package
      · subst hT
        exact ⟨rfl, (deserializePackage_throws reader view).1 h⟩
      · obtain ⟨what, h⟩ := h
        exact absurd h (T.throwless reader hT view 0 what)
    · rintro ⟨rfl, hno⟩
      exact (deserializePackage_throws reader view).2 hno
  exact or_congr haccepts hthrows

/-- A frame of one byte, the letter of a last package: the decoder reads the length from behind the frame. -/
theorem package_reads_outside :
    deserializeView (WireType.package.deserialize .little) [ascii 'e'] = .error .outOfRange ∧
    ¬WireType.package.StaysInside .little [ascii 'e'] := by
  have houtside : deserializeView (WireType.package.deserialize .little) [ascii 'e'] = .error .outOfRange := rfl
  refine ⟨houtside, ?_⟩
  rintro (⟨v, hv, -⟩ | ⟨what, hwhat⟩)
  · rw [houtside] at hv
    nomatch hv
  · rw [houtside] at hwhat
    nomatch hwhat

end Tunnel
