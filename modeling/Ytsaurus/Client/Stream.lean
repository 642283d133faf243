import Ytsaurus.Lib.Written

/-!
# `Client/Stream.lean` — rows as the body of a write (`stream.rs`)

`RowStream` encodes rows a bufferful at a time, as the transport asks for bytes. The iterator of
the rows is what it answers to each of its calls: one that is not fused yields again after a
`None`. A row's `Serialize` is what it appends to the serializer's output, and how it ends.
-/

set_option autoImplicit false

namespace Ytsaurus.Client

/-- How much to encode before handing bytes over. -/
def rowChunk : Nat := 65536

structure RowStream where
  /-- How often the iterator has been called. -/
  asked : Nat
  buffer : List UInt8
  position : Nat
  /-- How many rows have been encoded. -/
  written : Nat
  /-- The first row that would not serialise. -/
  failed : Option String
  /-- Latched once the rows run out. -/
  exhausted : Bool

namespace RowStream

def new : RowStream := ⟨0, [], 0, 0, none, false⟩

section

variable {T : Type} (rows : Nat → Option T) (serialize : T → Written String Unit)

/-- The loop of `fill`. -/
def fillLoop (s : RowStream) : RowStream :=
  if s.buffer.length < rowChunk then
    match rows s.asked with
    | none => { s with asked := s.asked + 1, exhausted := true }
    | some row =>
      match (serialize row).result with
      | .error e =>
        { s with
          asked := s.asked + 1
          buffer := s.buffer ++ (serialize row).bytes
          failed := some ("row " ++ toString s.written ++ ": " ++ e) }
      | .ok () =>
        fillLoop { s with
          asked := s.asked + 1
          buffer := s.buffer ++ (serialize row).bytes ++ [0x3B]
          written := s.written + 1 }
  else s
termination_by rowChunk - s.buffer.length
decreasing_by
  simp only [List.length_append, List.length_singleton]
  omega

/-- Encodes rows until the buffer is full or the rows run out. -/
def fill (s : RowStream) : RowStream :=
  let s := { s with buffer := [], position := 0 }
  if s.exhausted then s else fillLoop rows serialize s

/-- The part of `read` that hands bytes over. -/
def handOver (s : RowStream) (room : Nat) : Except String (List UInt8) × RowStream :=
  let n := min room (s.buffer.length - s.position)
  (.ok ((s.buffer.drop s.position).take n), { s with position := s.position + n })

/-- `read` into a buffer with this much room. -/
def read (s : RowStream) (room : Nat) : Except String (List UInt8) × RowStream :=
  if s.position = s.buffer.length then
    if s.failed.isSome then (.error "a row could not be encoded", s)
    else
      let s := s.fill rows serialize
      match s.failed with
      | some reason => (.error reason, s)
      | none => if s.buffer.isEmpty then (.ok [], s) else s.handOver room
  else s.handOver room

/-- What the reads of these sizes are answered, one after the other. -/
def reads (s : RowStream) : List Nat → List (Except String (List UInt8))
  | [] => []
  | room :: rooms =>
    (s.read rows serialize room).1 :: (s.read rows serialize room).2.reads rooms

end

end RowStream

end Ytsaurus.Client
