import Ytsaurus.Proof.Bus.Crc64
import Ytsaurus.Proof.Bus.Decode

/-!
# `Proof/Bus/Corruption.lean` — a changed byte is noticed

Every byte of an encoded packet is covered by a checksum, or is part of one. A byte changed
under a checksum that is compared is an error (`Crc64.checksum_ne`); a changed checksum word
is one too, or is null now and not compared, and then everything else is still there.

A null checksum means "not computed" and is not compared. So a packet some part of which happens to
have the checksum zero is not protected there, and `Checked` says that this packet is not of that
kind: its header, its part headers and every part with bytes have checksums that are compared.
The same exception is met from the other side when the flipped bit lies in the checksum word and
leaves zero behind: then nothing is compared, and nothing else has changed.

The proof goes along the layout: the fixed header, the part headers, the parts, each with its
checksum. Behind a header that was read as the packet's the decoder can only give the packet
or fail (`decodeWith_intact`), so each case has to say what its changed byte does to the block
it lies in. A length word that was changed is noticed before it is used, because the block it is
in is verified first.
-/

set_option autoImplicit false

namespace Ytsaurus
namespace Bus

open LittleEndian

/-! ## Checksums of changed bytes -/

/-- The checksum of a block with one byte changed is another one. -/
theorem checksum_set_ne {block : List UInt8} {position : Nat} {old b : UInt8}
    (hold : block[position]? = some old) (hb : old ≠ b) :
    Crc64.checksum (block.set position b) ≠ Crc64.checksum block := by
  obtain ⟨hposition, rfl⟩ := List.getElem?_eq_some_iff.mp hold
  have hsplit : block = block.take position ++ block[position] :: block.drop (position + 1) := by
    rw [List.getElem_cons_drop, List.take_append_drop]
  rw [List.set_eq_take_append_cons_drop, if_pos hposition]
  conv => rhs; rw [hsplit]
  exact Crc64.checksum_ne _ _ hb.symm

/-- A changed block does not pass for the one its checksum was computed from. -/
theorem verify_set {block : List UInt8} {position : Nat} {old b : UInt8}
    (mismatch : BitVec 64 → BitVec 64 → PacketError) (hnull : Crc64.checksum block ≠ nullChecksum)
    (hold : block[position]? = some old) (hb : old ≠ b) :
    ∃ e, verify (Crc64.checksum block) (block.set position b) mismatch = .error e := by
  unfold verify
  rw [if_pos ⟨hnull, checksum_set_ne hold hb⟩]
  exact ⟨_, rfl⟩

/-! ## The fixed header -/

theorem slice_take {bytes : List UInt8} {start count n : Nat} (h : start + count ≤ n) :
    slice (bytes.take n) start count = slice bytes start count := by
  unfold slice
  rw [List.drop_take, List.take_take, Nat.min_eq_left (Nat.le_sub_of_add_le' h)]

/-- A header that was read agrees with its checksum word. -/
theorem readFixedHeader_verified {input : List UInt8} {h : fixedHeaderSize ≤ input.length}
    {fixed : FixedHeader} (hread : readFixedHeader input h = .ok fixed) :
    verify (checksumWord input 28) (slice input 0 28) .fixedHeaderChecksum = .ok () := by
  unfold readFixedHeader at hread
  by_cases hsignature : word input 0 4 ≠ signature
  · rw [if_pos hsignature] at hread
    cases hread
  · rw [if_neg hsignature] at hread
    dsimp only at hread
    cases htype : PacketType.fromWire (word input 4 2) with
    | none =>
      rw [htype] at hread
      cases hread
    | some packetType =>
      rw [htype] at hread
      cases hverify : verify (checksumWord input 28) (slice input 0 28) .fixedHeaderChecksum with
      | ok _ => rfl
      | error e =>
        rw [hverify] at hread
        cases hread

/-- What a header says is in its first 28 bytes. -/
theorem readFixedHeader_congr {a b : List UInt8} {ha : fixedHeaderSize ≤ a.length}
    {hb : fixedHeaderSize ≤ b.length} (hsame : a.take 28 = b.take 28) {f g : FixedHeader}
    (hf : readFixedHeader a ha = .ok f) (hg : readFixedHeader b hb = .ok g) : f = g := by
  have hslice : ∀ start count, start + count ≤ 28 → slice a start count = slice b start count := by
    intro start count h
    rw [← slice_take h, hsame, slice_take h]
  have hverified := readFixedHeader_verified hf
  have hverified' := readFixedHeader_verified hg
  unfold readFixedHeader at hf hg
  rw [hverified] at hf
  rw [hverified'] at hg
  simp only [word, hslice 0 4 (by decide), hslice 4 2 (by decide), hslice 6 2 (by decide),
    hslice 8 16 (by decide), hslice 24 4 (by decide)] at hf
  exact Except.ok.inj (hf.symm.trans hg)

/-! ## The parts -/

/-- Every part that has bytes has a checksum that is compared. -/
def PartsChecked (parts : List (Option (List UInt8))) : Prop :=
  ∀ bytes, some bytes ∈ parts → bytes ≠ [] → Crc64.checksum bytes ≠ nullChecksum

/-- A changed byte of the parts is an error of the part it lies in. -/
theorem splitParts_set {parts : List (Option (List UInt8))}
    (hfits : ∀ part ∈ parts, PartFits part) (hchecked : PartsChecked parts) (start : Nat)
    {position : Nat} {old b : UInt8} (hold : (payload parts)[position]? = some old) (hb : old ≠ b)
    (rest : List UInt8) :
    ∃ e, (splitParts ((parts.zipIdx start).map headerOf)
      ((payload parts).set position b ++ rest)).1 = .error e := by
  induction parts generalizing start position with
  | nil => cases hold
  | cons part parts ih =>
    obtain ⟨hpart, hothers⟩ := List.forall_mem_cons.mp hfits
    have hrestChecked : PartsChecked parts :=
      fun bytes hmem => hchecked bytes (List.mem_cons_of_mem _ hmem)
    rw [List.zipIdx_cons, List.map_cons]
    cases part with
    | none =>
      obtain ⟨e, he⟩ := ih hothers hrestChecked (start + 1) hold
      refine ⟨e, ?_⟩
      show (splitParts ((start, nullPartSize, nullChecksum) :: _)
        ((payload parts).set position b ++ rest)).1 = _
      unfold splitParts
      rw [if_pos rfl]
      dsimp only
      rw [he]
      rfl
    | some bytes =>
      have hpayload : payload (some bytes :: parts) = bytes ++ payload parts := rfl
      show ∃ e, (splitParts ((start, bytes.length, Crc64.checksum bytes) :: _)
        ((payload (some bytes :: parts)).set position b ++ rest)).1 = _
      unfold splitParts
      rw [if_neg hpart.size_ne_null]
      dsimp only
      by_cases hhere : position < bytes.length
      · -- the byte lies in this part
        have hset : (payload (some bytes :: parts)).set position b ++ rest =
            bytes.set position b ++ (payload parts ++ rest) := by
          rw [hpayload, List.set_append_left _ _ hhere, List.append_assoc]
        have htake : (bytes.set position b ++ (payload parts ++ rest)).take bytes.length =
            bytes.set position b := List.take_left' List.length_set
        rw [hpayload, List.getElem?_append_left hhere] at hold
        have hnull := hchecked bytes List.mem_cons_self (List.ne_nil_of_length_pos (by omega))
        obtain ⟨e, he⟩ := verify_set (.partChecksum start) hnull hold hb
        rw [hset, htake, he]
        exact ⟨e, rfl⟩
      · have hle : bytes.length ≤ position := Nat.not_lt.mp hhere
        have hset : (payload (some bytes :: parts)).set position b ++ rest =
            bytes ++ ((payload parts).set (position - bytes.length) b ++ rest) := by
          rw [hpayload, List.set_append_right _ _ hle, List.append_assoc]
        rw [hpayload, List.getElem?_append_right hle] at hold
        obtain ⟨e, he⟩ := ih hothers hrestChecked (start + 1) hold
        refine ⟨e, ?_⟩
        rw [hset, List.take_left' rfl, List.drop_left' rfl, verify_checksum]
        dsimp only
        rw [he]
        rfl

/-! ## The whole packet -/

/-- Every checksum of this packet's encoding is one that is compared. -/
structure Checked (packet : Packet) : Prop where
  fixed : Crc64.checksum (fixedBlock packet) ≠ nullChecksum
  header : hasVariableHeader packet.packetType packet.parts.length →
    Crc64.checksum (variableBlock packet.parts) ≠ nullChecksum
  parts : PartsChecked packet.parts

section Packet

variable {maxMessageSize partLimit position : Nat} {packet packet' : Packet} {old b : UInt8}
  {front stored : List UInt8}

/-- Behind a header that was written, whatever its checksum word is now, the decoder gives the
packet or an error. -/
theorem decodeBody_intact (h : Fits maxMessageSize partLimit packet)
    (hvariable : hasVariableHeader packet.packetType packet.parts.length)
    (hfront : front.length = fixedHeaderSize) (hstored : stored.length = 8) (rest : List UInt8)
    (hdecode : (decodeBody (fixedOf packet) maxMessageSize
      (front ++ (variableBlock packet.parts ++ stored ++ (payload packet.parts ++ rest)))).1 =
        .ok (some packet')) : packet' = packet := by
  cases hverify : verify (fromLeBytes 64 stored) (variableBlock packet.parts)
    .variableHeaderChecksum with
  | error e =>
    rw [decodeBody_mismatch h hvariable hfront (variableBlock_length packet.parts) hstored
      hverify] at hdecode
    cases hdecode
  | ok _ =>
    have hwhole : ¬ (payload packet.parts ++ rest).length < payloadLength packet.parts := by
      rw [List.length_append, payload_length]
      exact Nat.not_lt.mpr (Nat.le_add_right _ _)
    rw [decodeBody_block h hvariable hfront hstored hverify, if_neg hwhole,
      splitParts_append h.parts 0 rest] at hdecode
    cases hdecode
    rfl

/-- What is encoded behind the fixed header. -/
def body (packet : Packet) : List UInt8 :=
  if hasVariableHeader packet.packetType packet.parts.length then
    sealed (variableBlock packet.parts) ++ payload packet.parts
  else []

/-- Behind a fixed header that was read as the packet's, an unchanged body gives the packet or
an error. -/
theorem decodeWith_intact (h : Fits maxMessageSize partLimit packet)
    (hfront : front.length = fixedHeaderSize) (rest : List UInt8)
    (hlength : fixedHeaderSize ≤ (front ++ (body packet ++ rest)).length)
    (hread : readFixedHeader (front ++ (body packet ++ rest)) hlength = .ok (fixedOf packet))
    (hdecode : (decodeWith maxMessageSize partLimit (front ++ (body packet ++ rest))).1 =
      .ok (some packet')) : packet' = packet := by
  rw [decodeWith_read h hfront _ hlength hread] at hdecode
  by_cases hvariable : hasVariableHeader packet.packetType packet.parts.length
  · rw [if_pos hvariable] at hdecode
    apply decodeBody_intact h hvariable hfront (toLeBytes_length 8
      (Crc64.checksum (variableBlock packet.parts))) rest
    rw [← hdecode]
    unfold body sealed
    rw [if_pos hvariable]
    simp only [List.append_assoc]
  · rw [if_neg hvariable] at hdecode
    cases hdecode
    rfl

/-- A changed byte of the fixed header. -/
theorem decodeWith_set_fixed (h : Fits maxMessageSize partLimit packet)
    (hnull : Crc64.checksum (fixedBlock packet) ≠ nullChecksum)
    (hold : (sealed (fixedBlock packet))[position]? = some old) (hb : old ≠ b) (rest : List UInt8)
    (hdecode : (decodeWith maxMessageSize partLimit
      ((sealed (fixedBlock packet)).set position b ++ (body packet ++ rest))).1 =
      .ok (some packet')) : packet' = packet := by
  have hfront : ((sealed (fixedBlock packet)).set position b).length = fixedHeaderSize := by
    rw [List.length_set, sealed_fixedBlock_length]
  have hlength : ∀ front : List UInt8, front.length = fixedHeaderSize →
      fixedHeaderSize ≤ (front ++ (body packet ++ rest)).length := by
    intro front hfront
    rw [List.length_append, hfront]
    exact Nat.le_add_right _ _
  have hblock := fixedBlock_length packet
  cases hread : readFixedHeader _ (hlength _ hfront) with
  | error e =>
    unfold decodeWith at hdecode
    rw [dif_neg (Nat.not_lt.mpr (hlength _ hfront)), hread] at hdecode
    cases hdecode
  | ok fixed =>
    by_cases hcovered : position < 28
    · -- the byte is under the checksum
      have hset : (sealed (fixedBlock packet)).set position b =
          (fixedBlock packet).set position b ++ toLeBytes 8 (Crc64.checksum (fixedBlock packet)) :=
        List.set_append_left _ _ (by omega)
      rw [sealed, List.getElem?_append_left (by omega)] at hold
      have hverified := readFixedHeader_verified hread
      have hslice : slice ((sealed (fixedBlock packet)).set position b ++ (body packet ++ rest)) 0 28 =
          (fixedBlock packet).set position b := by
        rw [hset, List.append_assoc]
        exact slice_front (List.length_set.trans hblock)
      have hword : checksumWord ((sealed (fixedBlock packet)).set position b ++
          (body packet ++ rest)) (28 + 0) = Crc64.checksum (fixedBlock packet) := by
        unfold checksumWord
        rw [hset, List.append_assoc, slice_skip (List.length_set.trans hblock),
          slice_front (toLeBytes_length 8 _)]
        exact fromLeBytes_toLeBytes rfl _
      obtain ⟨e, he⟩ := verify_set .fixedHeaderChecksum hnull hold hb
      rw [hslice, hword, he] at hverified
      cases hverified
    · -- the header says what it said
      have hsame : ((sealed (fixedBlock packet)).set position b ++ (body packet ++ rest)).take 28 =
          (sealed (fixedBlock packet) ++ (body packet ++ rest)).take 28 := by
        unfold sealed
        rw [List.set_append_right _ _ (by omega), List.append_assoc, List.append_assoc,
          List.take_left' hblock, List.take_left' hblock]
      have hwritten := readFixedHeader_fixed h (body packet ++ rest)
        (hlength _ (sealed_fixedBlock_length packet))
      rw [readFixedHeader_congr hsame hread hwritten] at hread
      exact decodeWith_intact h hfront rest (hlength _ hfront) hread hdecode

/-- A changed byte behind the fixed header. -/
theorem decodeWith_set_body (h : Fits maxMessageSize partLimit packet) (hchecked : Checked packet)
    (hold : (body packet)[position]? = some old) (hb : old ≠ b) (rest : List UInt8)
    (hdecode : (decodeWith maxMessageSize partLimit
      (sealed (fixedBlock packet) ++ ((body packet).set position b ++ rest))).1 =
      .ok (some packet')) : packet' = packet := by
  have hfront := sealed_fixedBlock_length packet
  have hblock := variableBlock_length packet.parts
  have hsealed := toLeBytes_length 8 (Crc64.checksum (variableBlock packet.parts))
  rw [decodeWith_fixed h] at hdecode
  by_cases hvariable : hasVariableHeader packet.packetType packet.parts.length
  · rw [if_pos hvariable] at hdecode
    have hbody : body packet = variableBlock packet.parts ++
        (toLeBytes 8 (Crc64.checksum (variableBlock packet.parts)) ++ payload packet.parts) := by
      unfold body sealed
      rw [if_pos hvariable, List.append_assoc]
    rw [hbody] at hold hdecode
    by_cases hcovered : position < (variableBlock packet.parts).length
    · -- the byte is under the checksum of the header
      rw [List.set_append_left _ _ hcovered] at hdecode
      rw [List.getElem?_append_left hcovered] at hold
      obtain ⟨e, he⟩ := verify_set .variableHeaderChecksum (hchecked.header hvariable) hold hb
      have hmismatch := decodeBody_mismatch (w := payload packet.parts ++ rest) h hvariable hfront
        (List.length_set.trans hblock) hsealed (e := e) (by
          rw [@fromLeBytes_toLeBytes 8 64 rfl]
          exact he)
      simp only [List.append_assoc] at hdecode hmismatch
      rw [hmismatch] at hdecode
      cases hdecode
    · have hle : (variableBlock packet.parts).length ≤ position := Nat.not_lt.mp hcovered
      rw [List.set_append_right _ _ hle] at hdecode
      rw [List.getElem?_append_right hle] at hold
      by_cases hword : position - (variableBlock packet.parts).length <
          (toLeBytes 8 (Crc64.checksum (variableBlock packet.parts))).length
      · -- the byte is in the checksum of the header
        rw [List.set_append_left _ _ hword] at hdecode
        have hstored : ((toLeBytes 8 (Crc64.checksum (variableBlock packet.parts))).set
            (position - (variableBlock packet.parts).length) b).length = 8 :=
          List.length_set.trans hsealed
        apply decodeBody_intact h hvariable hfront hstored rest
        rw [← hdecode]
        simp only [List.append_assoc]
      · -- the byte is in a part
        have hpast := Nat.not_lt.mp hword
        rw [List.set_append_right _ _ hpast] at hdecode
        rw [List.getElem?_append_right hpast] at hold
        obtain ⟨e, he⟩ := splitParts_set h.parts hchecked.parts 0 hold hb rest
        generalize position - (variableBlock packet.parts).length -
          (toLeBytes 8 (Crc64.checksum (variableBlock packet.parts))).length = offset at he hdecode
        have hwhole : ¬ ((payload packet.parts).set offset b ++ rest).length <
            payloadLength packet.parts := by
          rw [List.length_append, List.length_set, payload_length]
          exact Nat.not_lt.mpr (Nat.le_add_right _ _)
        have hparts := decodeBody_header (w := (payload packet.parts).set offset b ++ rest) h
          hvariable hfront
        have hheader : sealed (variableBlock packet.parts) = variableBlock packet.parts ++
            toLeBytes 8 (Crc64.checksum (variableBlock packet.parts)) := rfl
        rw [if_neg hwhole, he, hheader] at hparts
        simp only [List.append_assoc] at hdecode hparts
        rw [hparts] at hdecode
        cases hdecode
  · unfold body at hold
    rw [if_neg hvariable] at hold
    cases hold

/-- **A changed byte is noticed**: what is decoded, if anything, is the packet that was
encoded. -/
theorem decodeWith_set (h : Fits maxMessageSize partLimit packet) (hchecked : Checked packet)
    (hold : (encoding packet)[position]? = some old) (hb : old ≠ b) (rest : List UInt8)
    (hdecode : (decodeWith maxMessageSize partLimit
      ((encoding packet).set position b ++ rest)).1 = .ok (some packet')) : packet' = packet := by
  have hencoding : encoding packet = sealed (fixedBlock packet) ++ body packet := rfl
  rw [hencoding] at hold hdecode
  by_cases hfixed : position < (sealed (fixedBlock packet)).length
  · rw [List.set_append_left _ _ hfixed, List.append_assoc] at hdecode
    rw [List.getElem?_append_left hfixed] at hold
    exact decodeWith_set_fixed h hchecked.fixed hold hb rest hdecode
  · have hle : (sealed (fixedBlock packet)).length ≤ position := Nat.not_lt.mp hfixed
    rw [List.set_append_right _ _ hle, List.append_assoc] at hdecode
    rw [List.getElem?_append_right hle] at hold
    exact decodeWith_set_body h hchecked hold hb rest hdecode

/-- These bytes with one bit flipped. -/
def flipBit (bytes : List UInt8) (position bit : Nat) : List UInt8 :=
  bytes.modify position (· ^^^ UInt8.ofNat (2 ^ bit))

theorem xor_bit_ne (byte : UInt8) {bit : Nat} (hbit : bit < 8) :
    byte ≠ byte ^^^ UInt8.ofNat (2 ^ bit) := by
  have hbits : ∀ k < 8, UInt8.ofNat (2 ^ k) ≠ 0 := by decide
  intro hsame
  apply hbits bit hbit
  apply (UInt8.xor_right_inj byte).mp
  rw [← hsame, UInt8.xor_zero]

/-- **Single-bit corruption is never mistaken for another packet.** Of a packet that `validate`
accepts and whose checksums are all compared, whatever one bit of the encoding is flipped: the
decoder gives that packet, no packet, or an error. -/
theorem flipped_bit_noticed {bytes : List UInt8} {bit : Nat}
    (h : Fits maxMessageSize partLimit packet) (hchecked : Checked packet)
    (hencode : encode packet = .wrote bytes ()) (hposition : position < bytes.length)
    (hbit : bit < 8) (rest : List UInt8) :
    let decoded := (decodeWith maxMessageSize partLimit (flipBit bytes position bit ++ rest)).1
    decoded = .ok (some packet) ∨ decoded = .ok none ∨ ∃ e, decoded = .error e := by
  intro decoded
  rw [encode_eq h.valid] at hencode
  cases hencode
  have hold := List.getElem?_eq_getElem hposition
  have hset : flipBit (encoding packet) position bit = (encoding packet).set position
      ((encoding packet)[position] ^^^ UInt8.ofNat (2 ^ bit)) := by
    unfold flipBit
    rw [List.modify_eq_set, hold]
    rfl
  cases hdecode : decoded with
  | error e => exact .inr (.inr ⟨e, rfl⟩)
  | ok found =>
    cases found with
    | none => exact .inr (.inl rfl)
    | some packet' =>
      have hfound : (decodeWith maxMessageSize partLimit ((encoding packet).set position
          ((encoding packet)[position] ^^^ UInt8.ofNat (2 ^ bit)) ++ rest)).1 =
          .ok (some packet') := by
        rw [← hset]
        exact hdecode
      have hsame : packet' = packet :=
        decodeWith_set h hchecked hold (xor_bit_ne _ hbit) rest hfound
      rw [hsame]
      exact .inl rfl

/-- A message with a null part, an empty one and one that has bytes. -/
def flippedPacket : Packet :=
  ⟨.message, 0, ⟨List.replicate 16 3, rfl⟩, [none, some [], some [1, 2, 3]]⟩

/-- A bit of the size word of the last part. -/
theorem flipped_bit_noticed_size :
    let decoded := (decodeWith 1000 10 (flipBit (encoding flippedPacket) 44 2 ++ [])).1
    (decoded = .ok (some flippedPacket) ∨ decoded = .ok none ∨ ∃ e, decoded = .error e) ∧
      decoded.toBool = false := by
  have hvalid : validate flippedPacket = .ok () := rfl
  intro decoded
  constructor
  · apply flipped_bit_noticed ⟨hvalid, by decide, by decide⟩ ?_ (encode_eq hvalid) (by decide)
      (by decide) []
    refine ⟨by decide +kernel, fun _ => by decide +kernel, ?_⟩
    intro bytes hmem hbytes
    simp only [flippedPacket, List.mem_cons, List.not_mem_nil, or_false, Option.some.injEq,
      reduceCtorEq, false_or] at hmem
    rcases hmem with rfl | rfl
    · exact absurd rfl hbytes
    · decide +kernel
  · decide +kernel

end Packet

end Bus
end Ytsaurus
