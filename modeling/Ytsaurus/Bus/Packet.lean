import Ytsaurus.Bus.Crc64
import Ytsaurus.Lib.Written
import Mathlib.Algebra.Order.Ring.Nat

/-!
# `Bus/Packet.lean` — bus packet framing (`packet.rs`)

A packet is a fixed header of 36 bytes, for most packets a variable header with a size and a
checksum word for each part, and the parts that are not null one behind the other. A null
part has a size word of its own and no bytes, which is not the same as a part of length zero.

`encode` appends to an output; `decodeWith` looks at the front of a buffer and takes a packet
off it once all of it is there. Both compute the same checksum; a checksum word of zero says
that the sender computed none, and is not compared.
-/

set_option autoImplicit false

namespace Ytsaurus
namespace Bus

open LittleEndian

/-- The sixteen bytes of a GUID, in wire order. -/
structure Guid where
  bytes : List UInt8
  length_eq : bytes.length = 16
  deriving DecidableEq

def signature : Nat := 0x78616d4f

def fixedHeaderSize : Nat := 36

/-- The part-size word of a part that is absent. -/
def nullPartSize : Nat := 0xffffffff

def maxPartSize : Nat := 0x40000000

def maxPartCount : Nat := 0x10000000

def defaultMaxPartCount : Nat := 0x10000

/-- A checksum word that is not to be verified. -/
def nullChecksum : BitVec 64 := 0

inductive PacketType where
  | message
  | ack
  | sslAck
  deriving DecidableEq, Repr

namespace PacketType

def toWire : PacketType → Nat
  | message => 0
  | ack => 1
  | sslAck => 2

def fromWire : Nat → Option PacketType
  | 0 => some message
  | 1 => some ack
  | 2 => some sslAck
  | _ => none

end PacketType

structure Packet where
  packetType : PacketType
  flags : BitVec 16
  id : Guid
  parts : List (Option (List UInt8))
  deriving DecidableEq

/-- Message packets always have a variable header, others only when they have parts. -/
def hasVariableHeader (packetType : PacketType) (partCount : Nat) : Bool :=
  packetType = .message || partCount > 0

inductive PacketError where
  | signature (found : Nat)
  | unknownType (value : Nat)
  | tooManyParts (count : Nat)
  | partTooLarge (index size : Nat)
  | fixedHeaderChecksum (expected actual : BitVec 64)
  | variableHeaderChecksum (expected actual : BitVec 64)
  | partChecksum (index : Nat) (expected actual : BitVec 64)
  | messageTooLarge (size limit : Nat)
  deriving DecidableEq, Repr

/-! ## Encoding -/

/-- The first part that is too large for the wire, counted from `index`. -/
def validateParts : Nat → List (Option (List UInt8)) → Except PacketError Unit
  | _, [] => .ok ()
  | index, none :: parts => validateParts (index + 1) parts
  | index, some bytes :: parts =>
    if bytes.length > maxPartSize then
      .error (.partTooLarge index (min bytes.length 0xffffffff))
    else validateParts (index + 1) parts

def validate (packet : Packet) : Except PacketError Unit :=
  if packet.parts.length > maxPartCount then
    .error (.tooManyParts (min packet.parts.length 0xffffffff))
  else validateParts 0 packet.parts

/-- A header block and the checksum behind it. -/
def sealed (block : List UInt8) : List UInt8 := block ++ toLeBytes 8 (Crc64.checksum block)

def fixedBlock (packet : Packet) : List UInt8 :=
  leBytes 4 signature ++ leBytes 2 packet.packetType.toWire ++ toLeBytes 2 packet.flags ++
    packet.id.bytes ++ leBytes 4 packet.parts.length

def partSize : Option (List UInt8) → Nat
  | some bytes => bytes.length
  | none => nullPartSize

def partChecksum : Option (List UInt8) → BitVec 64
  | some bytes => Crc64.checksum bytes
  | none => nullChecksum

def variableBlock (parts : List (Option (List UInt8))) : List UInt8 :=
  parts.flatMap (fun part => leBytes 4 (partSize part)) ++
    parts.flatMap fun part => toLeBytes 8 (partChecksum part)

/-- The parts that have bytes. -/
def payload (parts : List (Option (List UInt8))) : List UInt8 :=
  parts.flatMap fun part => part.getD []

/-- Appends the encoded packet, or nothing if `validate` refuses it. -/
def encode (packet : Packet) : Written PacketError Unit := do
  Written.lift (validate packet)
  Written.emit (sealed (fixedBlock packet))
  if hasVariableHeader packet.packetType packet.parts.length then
    Written.emit (sealed (variableBlock packet.parts))
    Written.emit (payload packet.parts)

def variableHeaderSize (partCount : Nat) : Nat := partCount * (4 + 8) + 8

/-- The number of bytes `encode` will append for this packet. -/
def encodedSize (packet : Packet) : Nat :=
  if hasVariableHeader packet.packetType packet.parts.length then
    fixedHeaderSize + variableHeaderSize packet.parts.length +
      (packet.parts.map fun part => (part.getD []).length).sum
  else fixedHeaderSize

/-! ## Decoding -/

/-- The bytes `from..from + count` of a buffer. -/
def slice (bytes : List UInt8) (start count : Nat) : List UInt8 := (bytes.drop start).take count

def word (bytes : List UInt8) (start count : Nat) : Nat := ofLeBytes (slice bytes start count)

def checksumWord (bytes : List UInt8) (start : Nat) : BitVec 64 :=
  fromLeBytes 64 (slice bytes start 8)

/-- Compares a checksum with the bytes it stands for, unless it is null. -/
def verify (expected : BitVec 64) (bytes : List UInt8)
    (mismatch : BitVec 64 → BitVec 64 → PacketError) : Except PacketError Unit :=
  if expected ≠ nullChecksum ∧ Crc64.checksum bytes ≠ expected then
    .error (mismatch expected (Crc64.checksum bytes))
  else .ok ()

/-- What the fixed header says. -/
structure FixedHeader where
  packetType : PacketType
  flags : BitVec 16
  id : Guid
  partCount : Nat

theorem slice_length {bytes : List UInt8} {start count : Nat} (h : start + count ≤ bytes.length) :
    (slice bytes start count).length = count := by
  unfold slice
  rw [List.length_take, List.length_drop]
  omega

def readFixedHeader (input : List UInt8) (h : fixedHeaderSize ≤ input.length) :
    Except PacketError FixedHeader := do
  if word input 0 4 ≠ signature then
    throw (.signature (word input 0 4))
  let rawType := word input 4 2
  match PacketType.fromWire rawType with
  | none => throw (.unknownType rawType)
  | some packetType =>
    let flags := fromLeBytes 16 (slice input 6 2)
    let id : Guid := ⟨slice input 8 16, slice_length (Nat.le_trans (by decide) h)⟩
    let partCount := word input 24 4
    verify (checksumWord input 28) (slice input 0 28) .fixedHeaderChecksum
    return ⟨packetType, flags, id, partCount⟩

/-- The sizes of the parts that are not null, added up. -/
def payloadSize (header : List UInt8) : List Nat → Nat → Except PacketError Nat
  | [], total => .ok total
  | index :: indexes, total =>
    let size := word header (index * 4) 4
    if size = nullPartSize then payloadSize header indexes total
    else if size > maxPartSize then .error (.partTooLarge index size)
    else payloadSize header indexes (total + size)

/-- Splits the parts off the input; `headers` are the index, the size word and the checksum
word of each. -/
def splitParts : List (Nat × Nat × BitVec 64) → List UInt8 →
    Except PacketError (List (Option (List UInt8))) × List UInt8
  | [], input => (.ok [], input)
  | (index, size, expected) :: headers, input =>
    if size = nullPartSize then
      let rest := splitParts headers input
      (rest.1.map (none :: ·), rest.2)
    else
      let part := input.take size
      match verify expected part (.partChecksum index) with
      | .error e => (.error e, input.drop size)
      | .ok () =>
        let rest := splitParts headers (input.drop size)
        (rest.1.map (some part :: ·), rest.2)

/-- The part headers of a variable header. -/
def partHeaders (header : List UInt8) (partCount : Nat) : List (Nat × Nat × BitVec 64) :=
  (List.range partCount).map fun index =>
    (index, word header (index * 4) 4, checksumWord header (partCount * 4 + index * 8))

/-- Everything behind the fixed header, once that is known. -/
def decodeBody (fixed : FixedHeader) (maxMessageSize : Nat) (input : List UInt8) :
    Except PacketError (Option Packet) × List UInt8 :=
  let variableSize := variableHeaderSize fixed.partCount
  let headerTotal := fixedHeaderSize + variableSize
  if headerTotal > maxMessageSize then
    (.error (.messageTooLarge headerTotal maxMessageSize), input)
  else if input.length < headerTotal then (.ok none, input)
  else
    let header := slice input fixedHeaderSize variableSize
    match verify (checksumWord header (variableSize - 8)) (header.take (variableSize - 8))
      .variableHeaderChecksum with
    | .error e => (.error e, input)
    | .ok () =>
      match payloadSize header (List.range fixed.partCount) 0 with
      | .error e => (.error e, input)
      | .ok payloadSize =>
        let total := headerTotal + payloadSize
        if total > maxMessageSize then (.error (.messageTooLarge total maxMessageSize), input)
        else if input.length < total then (.ok none, input)
        else
          let split := splitParts (partHeaders header fixed.partCount) (input.drop headerTotal)
          (split.1.map fun parts => some ⟨fixed.packetType, fixed.flags, fixed.id, parts⟩,
            split.2)

/-- Decodes one packet from the front of the input, if a whole one is there. -/
def decodeWith (maxMessageSize partLimit : Nat) (input : List UInt8) :
    Except PacketError (Option Packet) × List UInt8 :=
  if h : input.length < fixedHeaderSize then (.ok none, input)
  else
    match readFixedHeader input (Nat.not_lt.mp h) with
    | .error e => (.error e, input)
    | .ok fixed =>
      if fixed.partCount > min maxPartCount partLimit then
        (.error (.tooManyParts fixed.partCount), input)
      else if hasVariableHeader fixed.packetType fixed.partCount then
        decodeBody fixed maxMessageSize input
      else
        (.ok (some ⟨fixed.packetType, fixed.flags, fixed.id, []⟩), input.drop fixedHeaderSize)

/-! ## The reader -/

inductive ReceiveError where
  | packet (e : PacketError)
  | unexpectedEof
  deriving DecidableEq, Repr

/-- A connection's read half; `stream` is what each read of the socket will yield. -/
structure BusReader where
  buffer : List UInt8
  stream : List (List UInt8)
  maxMessageSize : Nat
  partLimit : Nat

namespace BusReader

/-- The loop of `receive`, over what the socket still yields. A read of no bytes is its end. -/
def receiveLoop (maxMessageSize partLimit : Nat) (buffer : List UInt8)
    (stream : List (List UInt8)) :
    Except ReceiveError Packet × List UInt8 × List (List UInt8) :=
  match decodeWith maxMessageSize partLimit buffer, stream with
  | (.error e, buffer), stream => (.error (.packet e), buffer, stream)
  | (.ok (some message), buffer), stream => (.ok message, buffer, stream)
  | (.ok none, buffer), [] => (.error .unexpectedEof, buffer, [])
  | (.ok none, buffer), read :: stream =>
    if read = [] then (.error .unexpectedEof, buffer, stream)
    else receiveLoop maxMessageSize partLimit (buffer ++ read) stream

/-- Reads until one whole packet is available. -/
def receive (reader : BusReader) : Except ReceiveError Packet × BusReader :=
  let r := receiveLoop reader.maxMessageSize reader.partLimit reader.buffer reader.stream
  (r.1, { reader with buffer := r.2.1, stream := r.2.2 })

end BusReader

end Bus
end Ytsaurus
