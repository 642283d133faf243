import Ytsaurus.Bus.Packet

/-!
# `Proof/Bus/Header.lean` — reading the headers that were written

Both headers are blocks of little-endian words behind each other, with a checksum at the
end. Everything that is read from them is a slice of what was written, and the checksums
are compared with the bytes they were computed from.

The fixed header has a signature, the type, the flags, the id and the number of parts. The variable
header has a size word for each part, and then a checksum word for each part; so the words of one
part are not next to each other, and where they are depends on how many parts there are
(`word_variableBlock`, `checksumWord_variableBlock`). Both are read with something behind them, as
they stand in a buffer.
-/

set_option autoImplicit false

namespace Ytsaurus
namespace Bus

open LittleEndian

/-! ## Slices -/

section Slice

variable {a b : List UInt8} {n start count : Nat}

theorem slice_front (h : a.length = n) : slice (a ++ b) 0 n = a := by
  unfold slice
  rw [List.drop_zero]
  exact List.take_left' h

theorem slice_skip (h : a.length = n) : slice (a ++ b) (n + start) count = slice b start count := by
  unfold slice
  rw [← List.drop_drop, List.drop_left' h]

/-- The slice of one of a number of blocks that have the same length. -/
theorem slice_flatMap {β : Type} {f : β → List UInt8} (hf : ∀ x, (f x).length = n) {l : List β}
    {index : Nat} {x : β} (h : l[index]? = some x) :
    slice (l.flatMap f ++ b) (index * n) n = f x := by
  induction l generalizing index with
  | nil => cases h
  | cons y l ih =>
    rw [List.flatMap_cons, List.append_assoc]
    cases index with
    | zero =>
      obtain rfl : y = x := Option.some.inj h
      rw [Nat.zero_mul]
      exact slice_front (hf y)
    | succ index =>
      rw [Nat.succ_mul, Nat.add_comm, slice_skip (hf y)]
      exact ih h

theorem flatMap_length {β : Type} {f : β → List UInt8} (hf : ∀ x, (f x).length = n) (l : List β) :
    (l.flatMap f).length = l.length * n := by
  induction l with
  | nil => rw [List.flatMap_nil, List.length_nil, List.length_nil, Nat.zero_mul]
  | cons x l ih =>
    rw [List.flatMap_cons, List.length_append, hf x, ih, List.length_cons, Nat.succ_mul,
      Nat.add_comm]

end Slice

/-! ## Checksums -/

theorem verify_checksum (bytes : List UInt8) (mismatch : BitVec 64 → BitVec 64 → PacketError) :
    verify (Crc64.checksum bytes) bytes mismatch = .ok () := by
  unfold verify
  rw [if_neg]
  intro h
  exact h.2 rfl

theorem sealed_length (block : List UInt8) : (sealed block).length = block.length + 8 := by
  rw [sealed, List.length_append, toLeBytes_length]

theorem slice_sealed {block : List UInt8} {n : Nat} (h : block.length = n) (z : List UInt8) :
    slice (sealed block ++ z) 0 n = block := by
  rw [sealed, List.append_assoc]
  exact slice_front h

/-- The checksum word behind a block is the block's checksum. -/
theorem checksumWord_sealed {block : List UInt8} {n : Nat} (h : block.length = n)
    (z : List UInt8) : checksumWord (sealed block ++ z) n = Crc64.checksum block := by
  unfold checksumWord
  rw [sealed, List.append_assoc, ← Nat.add_zero n, slice_skip h,
    slice_front (toLeBytes_length 8 _)]
  exact fromLeBytes_toLeBytes rfl _

/-! ## The fixed header -/

theorem fixedBlock_length (packet : Packet) : (fixedBlock packet).length = 28 := by
  unfold fixedBlock
  rw [List.length_append, List.length_append, List.length_append, List.length_append,
    leBytes_length, leBytes_length, toLeBytes_length, packet.id.length_eq, leBytes_length]

theorem PacketType.fromWire_toWire (packetType : PacketType) :
    fromWire packetType.toWire = some packetType := by
  cases packetType <;> rfl

theorem PacketType.toWire_lt (packetType : PacketType) : packetType.toWire < 256 ^ 2 := by
  cases packetType <;> decide

/-- **The fixed header that was written is read back.** -/
theorem readFixedHeader_append {packet : Packet} {z : List UInt8}
    (hcount : packet.parts.length < 256 ^ 4)
    (h : fixedHeaderSize ≤ (sealed (fixedBlock packet) ++ z).length) :
    readFixedHeader (sealed (fixedBlock packet) ++ z) h =
      .ok ⟨packet.packetType, packet.flags, packet.id, packet.parts.length⟩ := by
  have hinput : sealed (fixedBlock packet) ++ z = leBytes 4 signature ++
      (leBytes 2 packet.packetType.toWire ++ (toLeBytes 2 packet.flags ++ (packet.id.bytes ++
        (leBytes 4 packet.parts.length ++
          (toLeBytes 8 (Crc64.checksum (fixedBlock packet)) ++ z))))) := by
    unfold sealed fixedBlock
    simp only [List.append_assoc]
  have hsignature : word (sealed (fixedBlock packet) ++ z) 0 4 = signature := by
    rw [word, hinput, slice_front (leBytes_length 4 _)]
    exact ofLeBytes_leBytes (by decide)
  have htype : word (sealed (fixedBlock packet) ++ z) 4 2 = packet.packetType.toWire := by
    rw [word, hinput]
    show ofLeBytes (slice _ (4 + 0) 2) = _
    rw [slice_skip (leBytes_length 4 _), slice_front (leBytes_length 2 _)]
    exact ofLeBytes_leBytes packet.packetType.toWire_lt
  have hflags : fromLeBytes 16 (slice (sealed (fixedBlock packet) ++ z) 6 2) = packet.flags := by
    rw [hinput]
    show fromLeBytes 16 (slice _ (4 + (2 + 0)) 2) = _
    rw [slice_skip (leBytes_length 4 _), slice_skip (leBytes_length 2 _),
      slice_front (toLeBytes_length 2 _)]
    exact fromLeBytes_toLeBytes rfl _
  have hid : slice (sealed (fixedBlock packet) ++ z) 8 16 = packet.id.bytes := by
    rw [hinput]
    show slice _ (4 + (2 + (2 + 0))) 16 = _
    rw [slice_skip (leBytes_length 4 _), slice_skip (leBytes_length 2 _),
      slice_skip (toLeBytes_length 2 _), slice_front packet.id.length_eq]
  have hparts : word (sealed (fixedBlock packet) ++ z) 24 4 = packet.parts.length := by
    rw [word, hinput]
    show ofLeBytes (slice _ (4 + (2 + (2 + (16 + 0)))) 4) = _
    rw [slice_skip (leBytes_length 4 _), slice_skip (leBytes_length 2 _),
      slice_skip (toLeBytes_length 2 _), slice_skip packet.id.length_eq,
      slice_front (leBytes_length 4 _)]
    exact ofLeBytes_leBytes hcount
  have hverify : verify (checksumWord (sealed (fixedBlock packet) ++ z) 28)
      (slice (sealed (fixedBlock packet) ++ z) 0 28) .fixedHeaderChecksum = .ok () := by
    rw [checksumWord_sealed (fixedBlock_length packet), slice_sealed (fixedBlock_length packet)]
    exact verify_checksum _ _
  have hguid : (⟨slice (sealed (fixedBlock packet) ++ z) 8 16,
      slice_length (Nat.le_trans (by decide) h)⟩ : Guid) = packet.id := by
    cases hcase : packet.id with
    | mk bytes length_eq =>
      rw [hcase] at hid
      congr 1
  unfold readFixedHeader
  rw [if_neg (not_not_intro hsignature), htype]
  dsimp only
  rw [PacketType.fromWire_toWire]
  dsimp only
  rw [hverify, hflags, hguid, hparts]
  rfl

/-! ## The variable header -/

section Variable

variable (parts : List (Option (List UInt8)))

theorem variableBlock_length : (variableBlock parts).length = parts.length * 12 := by
  unfold variableBlock
  rw [List.length_append, flatMap_length fun _ => leBytes_length 4 _,
    flatMap_length fun _ => toLeBytes_length 8 _]
  omega

theorem sealed_variableBlock_length :
    (sealed (variableBlock parts)).length = variableHeaderSize parts.length := by
  rw [sealed_length, variableBlock_length]
  rfl

variable {parts} {index : Nat} {part : Option (List UInt8)}

/-- The size word of a part. -/
theorem word_variableBlock (h : parts[index]? = some part) (hsize : partSize part < 256 ^ 4)
    (z : List UInt8) : word (variableBlock parts ++ z) (index * 4) 4 = partSize part := by
  unfold word variableBlock
  rw [List.append_assoc, slice_flatMap (fun _ => leBytes_length 4 _) h]
  exact ofLeBytes_leBytes hsize

/-- The checksum word of a part. -/
theorem checksumWord_variableBlock (h : parts[index]? = some part) (z : List UInt8) :
    checksumWord (variableBlock parts ++ z) (parts.length * 4 + index * 8) = partChecksum part := by
  unfold checksumWord variableBlock
  rw [List.append_assoc, slice_skip (flatMap_length (fun _ => leBytes_length 4 _) parts),
    slice_flatMap (fun _ => toLeBytes_length 8 _) h]
  exact fromLeBytes_toLeBytes rfl _

end Variable

end Bus
end Ytsaurus
