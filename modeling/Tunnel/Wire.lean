import Tunnel.Lib.Codec

/-!
# The wire format

`Serialize` and `Deserialize` of `tunnel/sedeserialize.h`, `tunnel/package.h` and `switcher/switcher.h`, each as the
source computes it. A `std::string` is its bytes. What an object of an integral type is in memory depends on the host:
`memcpy` copies the bytes of the memory, and `flipByByte` turns them around.

A decoder is given a view and an offset and checks little: a read outside the view is a fault here (`outOfRange`), an
`assert` that fails is another one. The second layer is the format itself: the bytes of each value, without a host
(`WireType.encode`).
-/

namespace Tunnel

open Lib

/-- `Endian::Type`. -/
inductive Endian where
  | big
  | little
  deriving DecidableEq, Repr

/-- What keeps `Serialize` or `Deserialize` from returning: a read outside the view, a failed `assert`, a
`std::runtime_error`. -/
inductive WireFault where
  | outOfRange
  | assertFailed
  | runtimeError (what : String)
  deriving DecidableEq, Repr

abbrev WireReader := Reader WireFault

/-! ## Integral types -/

/-- `sizeof` of `uint32_t` and of `int`. -/
def integralSize : Nat := 4

namespace Endian

/-- The bytes of an object of an integral type in memory. -/
def store (host : Endian) (v : BitVec 32) : Bytes :=
  match host with
  | .little => toBytes integralSize v.toNat
  | .big => (toBytes integralSize v.toNat).reverse

/-- The object with these bytes. -/
def load (host : Endian) (bytes : Bytes) : BitVec 32 :=
  match host with
  | .little => BitVec.ofNat 32 (ofBytes bytes)
  | .big => BitVec.ofNat 32 (ofBytes bytes.reverse)

end Endian

/-- `flipByByte`: the bytes of the object the other way around. -/
def flipByByte (host : Endian) (t : BitVec 32) : BitVec 32 := host.load (host.store t).reverse

/-- `Serialize` of an integral type. -/
def serializeIntegral (host : Endian) (v : BitVec 32) (appender : Bytes) : Bytes :=
  let rv := if host = .little then flipByByte host v else v
  appender ++ host.store rv

/-- `Deserialize` of an integral type. -/
def deserializeIntegral (host : Endian) : WireReader (BitVec 32) := do
  let bytes ← Reader.take .outOfRange integralSize
  let v := host.load bytes
  pure (if host = .little then flipByByte host v else v)

def serializeUInt32 (host : Endian) (v : UInt32) (appender : Bytes) : Except WireFault Bytes :=
  .ok (serializeIntegral host v.toBitVec appender)

def deserializeUInt32 (host : Endian) : WireReader UInt32 := do
  let v ← deserializeIntegral host
  pure (UInt32.ofBitVec v)

def serializeInt (host : Endian) (v : Int32) (appender : Bytes) : Except WireFault Bytes :=
  .ok (serializeIntegral host v.toBitVec appender)

def deserializeInt (host : Endian) : WireReader Int32 := do
  let v ← deserializeIntegral host
  pure (Int32.ofBitVec v)

/-! ## Strings and booleans -/

/-- `std::numeric_limits<uint32_t>::max()`. -/
def uint32Max : Nat := 2 ^ 32 - 1

def serializeString (host : Endian) (v : Bytes) (appender : Bytes) : Except WireFault Bytes := do
  if v.length ≤ uint32Max then
    let appender ← serializeUInt32 host (UInt32.ofNat v.length) appender
    .ok (appender ++ v)
  else .error .assertFailed

def deserializeString (host : Endian) : WireReader Bytes := do
  let v ← deserializeUInt32 host
  Reader.take .outOfRange v.toNat

/-- A `char`. -/
def ascii (c : Char) : UInt8 := c.toUInt8

def serializeBool (v : Bool) (appender : Bytes) : Except WireFault Bytes :=
  .ok (appender ++ [if v = true then ascii 't' else ascii 'f'])

def deserializeBool : WireReader Bool := do
  let c ← Reader.byte .outOfRange
  if c = ascii 't' ∨ c = ascii 'f' then pure (c = ascii 't') else Reader.fail .assertFailed

/-! ## Packages -/

structure Package where
  eof : Bool
  binData : Bytes
  deriving DecidableEq

def serializePackage (host : Endian) (v : Package) (appender : Bytes) : Except WireFault Bytes :=
  serializeString host v.binData (appender ++ [if v.eof = true then ascii 'e' else ascii 'n'])

def deserializePackage (host : Endian) : WireReader Package := do
  let view ← Reader.whole
  if view = [] then Reader.fail (.runtimeError "deserialize package error, empty") else
  let c ← Reader.byte .outOfRange
  if c ≠ ascii 'e' ∧ c ≠ ascii 'n' then Reader.fail (.runtimeError "deserialize package error, parse invalid field")
    else
  let binData ← deserializeString host
  pure { eof := c = ascii 'e', binData := binData }

structure RequestPackage where
  topic : Bytes
  type : Int32
  timeoutMs : Int32
  deriving DecidableEq

def serializeRequest (host : Endian) (v : RequestPackage) (appender : Bytes) : Except WireFault Bytes := do
  let appender ← serializeString host v.topic appender
  let appender ← serializeInt host v.type appender
  serializeInt host v.timeoutMs appender

def deserializeRequest (host : Endian) : WireReader RequestPackage := do
  let topic ← deserializeString host
  let type ← deserializeInt host
  let timeoutMs ← deserializeInt host
  pure { topic := topic, type := type, timeoutMs := timeoutMs }

structure ResponsePackage where
  topic : Bytes
  waitMs : Int32
  peerAddr : Bytes
  responseCode : Int32
  deriving DecidableEq

def serializeResponse (host : Endian) (v : ResponsePackage) (appender : Bytes) : Except WireFault Bytes := do
  let appender ← serializeString host v.topic appender
  let appender ← serializeInt host v.waitMs appender
  let appender ← serializeString host v.peerAddr appender
  serializeInt host v.responseCode appender

def deserializeResponse (host : Endian) : WireReader ResponsePackage := do
  let topic ← deserializeString host
  let waitMs ← deserializeInt host
  let peerAddr ← deserializeString host
  let responseCode ← deserializeInt host
  pure { topic := topic, waitMs := waitMs, peerAddr := peerAddr, responseCode := responseCode }

structure DataPackage where
  data : Bytes
  metaInfo : Bytes
  eof : Bool
  deriving DecidableEq

def serializeData (host : Endian) (v : DataPackage) (appender : Bytes) : Except WireFault Bytes := do
  let appender ← serializeString host v.data appender
  let appender ← serializeString host v.metaInfo appender
  serializeBool v.eof appender

def deserializeData (host : Endian) : WireReader DataPackage := do
  let data ← deserializeString host
  let metaInfo ← deserializeString host
  let eof ← deserializeBool
  pure { data := data, metaInfo := metaInfo, eof := eof }

/-- `Deserialize<T>(view)`: the whole view from its beginning, and nothing behind it. -/
def deserializeView {α : Type} (read : WireReader α) (view : Bytes) : Except WireFault α :=
  match read.run view 0 with
  | .ok (v, offset) => if offset = view.length then .ok v else .error .assertFailed
  | .error e => .error e

/-! ## The wire types -/

/-- The types with a `Serialize` and a `Deserialize` of the library's own. -/
inductive WireType where
  | uint32
  | int
  | string
  | bool
  | package
  | request
  | response
  | data
  deriving DecidableEq, Repr

namespace WireType

def Carrier : WireType → Type
  | uint32 => UInt32
  | int => Int32
  | string => Bytes
  | bool => Bool
  | package => Package
  | request => RequestPackage
  | response => ResponsePackage
  | data => DataPackage

def serialize (host : Endian) : (T : WireType) → T.Carrier → Bytes → Except WireFault Bytes
  | uint32 => serializeUInt32 host
  | int => serializeInt host
  | string => serializeString host
  | bool => serializeBool
  | package => serializePackage host
  | request => serializeRequest host
  | response => serializeResponse host
  | data => serializeData host

def deserialize (host : Endian) : (T : WireType) → WireReader T.Carrier
  | uint32 => deserializeUInt32 host
  | int => deserializeInt host
  | string => deserializeString host
  | bool => deserializeBool
  | package => deserializePackage host
  | request => deserializeRequest host
  | response => deserializeResponse host
  | data => deserializeData host

end WireType

/-! ## The format -/

/-- The string is at most `2 ^ 32 - 1` bytes long. -/
def FitsLength (v : Bytes) : Prop := v.length ≤ uint32Max

instance (v : Bytes) : Decidable (FitsLength v) := inferInstanceAs (Decidable (v.length ≤ uint32Max))

/-- The strings of the value are at most `2 ^ 32 - 1` bytes long. -/
def WireType.Valid : (T : WireType) → T.Carrier → Prop
  | uint32, _ => True
  | int, _ => True
  | string, v => FitsLength v
  | bool, _ => True
  | package, v => FitsLength v.binData
  | request, v => FitsLength v.topic
  | response, v => FitsLength v.topic ∧ FitsLength v.peerAddr
  | data, v => FitsLength v.data ∧ FitsLength v.metaInfo

/-- Four bytes, the highest first. -/
def encodeIntegral (v : BitVec 32) : Bytes := (toBytes integralSize v.toNat).reverse

/-- The length, then the bytes. -/
def encodeString (v : Bytes) : Bytes := encodeIntegral (BitVec.ofNat 32 v.length) ++ v

/-- One letter for true, another one for false. -/
def encodeFlag (yes no : Char) (v : Bool) : Bytes := [if v then ascii yes else ascii no]

def encodePackage (v : Package) : Bytes := encodeFlag 'e' 'n' v.eof ++ encodeString v.binData

def encodeRequest (v : RequestPackage) : Bytes :=
  encodeString v.topic ++ (encodeIntegral v.type.toBitVec ++ encodeIntegral v.timeoutMs.toBitVec)

def encodeResponse (v : ResponsePackage) : Bytes :=
  encodeString v.topic ++ (encodeIntegral v.waitMs.toBitVec ++
    (encodeString v.peerAddr ++ encodeIntegral v.responseCode.toBitVec))

def encodeData (v : DataPackage) : Bytes := encodeString v.data ++ (encodeString v.metaInfo ++ encodeFlag 't' 'f' v.eof)

/-- The bytes of a value on the wire: its fields one behind the other. -/
def WireType.encode : (T : WireType) → T.Carrier → Bytes
  | uint32 => fun v : UInt32 => encodeIntegral v.toBitVec
  | int => fun v : Int32 => encodeIntegral v.toBitVec
  | string => encodeString
  | bool => encodeFlag 't' 'f'
  | package => encodePackage
  | request => encodeRequest
  | response => encodeResponse
  | data => encodeData

end Tunnel
