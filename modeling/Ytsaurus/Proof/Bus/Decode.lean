import Ytsaurus.Lib.Incremental
import Ytsaurus.Proof.Bus.Header

/-!
# `Proof/Bus/Decode.lean` — one packet at the front of a buffer

A packet that `validate` accepts is taken off the front of a buffer as soon as all of its
bytes are there (`decodeWith_complete`), and until then the decoder waits at one of three
points: before the end of the fixed header, before the end of the variable header, and before
the end of the parts (`decodeWith_short`).

The decoder starts over at every call. It keeps nothing between two of them, reads the headers
again, and takes the packet off the buffer when the whole of it is there; so there is no state to
have an invariant about, and a call is a function of the buffer. What is needed to carry this over
to a stream of packets is collected in `decodes`, an instance of the interface of
`Lib/Incremental.lean`.

`Fits` is what is asked of a packet: it is accepted by `validate`, and it is within the limits of
this decoder, which may be set lower. The number of parts and their sizes come from the wire as
words, and a part that is absent has a size word of its own (`nullPartSize`); `PartFits` keeps the
sizes of the others apart from it.
-/

set_option autoImplicit false

namespace Ytsaurus
namespace Bus

open LittleEndian

/-! ## What `validate` guarantees -/

/-- A part that the size word can hold. -/
def PartFits (part : Option (List UInt8)) : Prop := ∀ bytes, part = some bytes →
  bytes.length ≤ maxPartSize

theorem validateParts_eq_ok {index : Nat} {parts : List (Option (List UInt8))} :
    validateParts index parts = .ok () ↔ ∀ part ∈ parts, PartFits part := by
  induction parts generalizing index with
  | nil => exact ⟨fun _ _ h => absurd h List.not_mem_nil, fun _ => rfl⟩
  | cons part parts ih =>
    rw [List.forall_mem_cons]
    cases part with
    | none =>
      rw [validateParts, ih]
      constructor
      · intro h
        refine ⟨?_, h⟩
        intro bytes hsome
        cases hsome
      · intro h
        exact h.2
    | some bytes =>
      unfold validateParts
      by_cases hlarge : bytes.length > maxPartSize
      · rw [if_pos hlarge]
        constructor
        · intro h
          cases h
        · intro h
          exact absurd (h.1 bytes rfl) (Nat.not_le.mpr hlarge)
      · rw [if_neg hlarge, ih]
        constructor
        · intro h
          refine ⟨?_, h⟩
          intro bytes' hsome
          cases hsome
          exact Nat.not_lt.mp hlarge
        · intro h
          exact h.2

theorem validate_eq_ok {packet : Packet} :
    validate packet = .ok () ↔
      packet.parts.length ≤ maxPartCount ∧ ∀ part ∈ packet.parts, PartFits part := by
  unfold validate
  by_cases hmany : packet.parts.length > maxPartCount
  · rw [if_pos hmany]
    constructor
    · intro h
      cases h
    · intro h
      exact absurd h.1 (Nat.not_le.mpr hmany)
  · rw [if_neg hmany, validateParts_eq_ok]
    exact ⟨fun h => ⟨Nat.not_lt.mp hmany, h⟩, fun h => h.2⟩

theorem PartFits.size_lt {part : Option (List UInt8)} (h : PartFits part) :
    partSize part < 256 ^ 4 := by
  cases part with
  | none => decide
  | some bytes => exact Nat.lt_of_le_of_lt (h bytes rfl) (by decide)

/-- The size word of a part that is there is not that of a null part. -/
theorem PartFits.size_ne_null {bytes : List UInt8} (h : PartFits (some bytes)) :
    bytes.length ≠ nullPartSize := by
  have hle : bytes.length ≤ 0x40000000 := h bytes rfl
  show bytes.length ≠ 0xffffffff
  omega

/-! ## The parts -/

/-- How many bytes of a packet are parts. -/
def payloadLength (parts : List (Option (List UInt8))) : Nat :=
  (parts.map fun part => (part.getD []).length).sum

theorem payload_length (parts : List (Option (List UInt8))) :
    (payload parts).length = payloadLength parts := by
  unfold payload payloadLength
  rw [List.length_flatMap]

theorem payloadLength_cons (part : Option (List UInt8)) (parts : List (Option (List UInt8))) :
    payloadLength (part :: parts) = (part.getD []).length + payloadLength parts := by
  unfold payloadLength
  rw [List.map_cons, List.sum_cons]

/-- The size loop adds up the parts whose size words it reads. -/
theorem payloadSize_words {header : List UInt8} {parts : List (Option (List UInt8))}
    (hfits : ∀ part ∈ parts, PartFits part) {start : Nat}
    (hwords : ∀ part index, (part, index) ∈ parts.zipIdx start →
      word header (index * 4) 4 = partSize part) (total : Nat) :
    payloadSize header ((parts.zipIdx start).map Prod.snd) total =
      .ok (total + payloadLength parts) := by
  induction parts generalizing start total with
  | nil => rfl
  | cons part parts ih =>
    obtain ⟨hpart, hrest⟩ := List.forall_mem_cons.mp hfits
    have hword := hwords part start List.mem_cons_self
    have hothers : ∀ part index, (part, index) ∈ parts.zipIdx (start + 1) →
        word header (index * 4) 4 = partSize part :=
      fun part index h => hwords part index (List.mem_cons_of_mem _ h)
    rw [List.zipIdx_cons, List.map_cons, payloadLength_cons]
    unfold payloadSize
    rw [hword]
    cases part with
    | none =>
      have hnull : partSize none = nullPartSize := rfl
      dsimp only
      rw [if_pos hnull, ih hrest hothers]
      show _ = Except.ok (total + (0 + payloadLength parts))
      rw [Nat.zero_add]
    | some bytes =>
      have hpresent : partSize (some bytes) ≠ nullPartSize := hpart.size_ne_null
      have hsmall : ¬ partSize (some bytes) > maxPartSize := Nat.not_lt.mpr (hpart bytes rfl)
      dsimp only
      rw [if_neg hpresent, if_neg hsmall, ih hrest hothers, Nat.add_assoc]
      rfl

/-- The index, the size word and the checksum word of a part. -/
def headerOf (indexed : Option (List UInt8) × Nat) : Nat × Nat × BitVec 64 :=
  (indexed.2, partSize indexed.1, partChecksum indexed.1)

/-- **The parts that were written are split off again**, null parts as null parts. -/
theorem splitParts_append {parts : List (Option (List UInt8))}
    (hfits : ∀ part ∈ parts, PartFits part) (start : Nat) (rest : List UInt8) :
    splitParts ((parts.zipIdx start).map headerOf) (payload parts ++ rest) = (.ok parts, rest) := by
  induction parts generalizing start with
  | nil => rfl
  | cons part parts ih =>
    obtain ⟨hpart, hothers⟩ := List.forall_mem_cons.mp hfits
    have hrest := ih hothers (start + 1)
    rw [List.zipIdx_cons, List.map_cons]
    cases part with
    | none =>
      show splitParts ((start, nullPartSize, nullChecksum) :: _) (payload parts ++ rest) = _
      unfold splitParts
      rw [if_pos rfl, hrest]
      rfl
    | some bytes =>
      show splitParts ((start, bytes.length, Crc64.checksum bytes) :: _)
        (bytes ++ payload parts ++ rest) = _
      have htake : (bytes ++ payload parts ++ rest).take bytes.length = bytes := by
        rw [List.append_assoc]
        exact List.take_left' rfl
      have hdrop : (bytes ++ payload parts ++ rest).drop bytes.length = payload parts ++ rest := by
        rw [List.append_assoc]
        exact List.drop_left' rfl
      unfold splitParts
      rw [if_neg hpart.size_ne_null]
      dsimp only
      rw [htake, verify_checksum, hdrop]
      dsimp only
      rw [hrest]
      rfl

/-! ## The whole packet -/

/-- What `encode` writes for a packet that `validate` accepts. -/
def encoding (packet : Packet) : List UInt8 :=
  sealed (fixedBlock packet) ++
    if hasVariableHeader packet.packetType packet.parts.length then
      sealed (variableBlock packet.parts) ++ payload packet.parts
    else []

theorem encode_eq {packet : Packet} (h : validate packet = .ok ()) :
    encode packet = .wrote (encoding packet) () := by
  unfold encode encoding
  rw [h]
  cases hasVariableHeader packet.packetType packet.parts.length
  · rw [if_neg Bool.false_ne_true, if_neg Bool.false_ne_true]
    rfl
  · rw [if_pos rfl, if_pos rfl]
    rfl

theorem sealed_fixedBlock_length (packet : Packet) :
    (sealed (fixedBlock packet)).length = fixedHeaderSize := by
  rw [sealed_length, fixedBlock_length]
  rfl

/-- Each packet contributes exactly `encoded_size` bytes. -/
theorem encoding_length (packet : Packet) : (encoding packet).length = encodedSize packet := by
  unfold encoding encodedSize
  rw [List.length_append, sealed_fixedBlock_length]
  split
  · rw [List.length_append, sealed_variableBlock_length, payload_length, Nat.add_assoc]
    rfl
  · rfl

/-- A packet that `validate` accepts, within the limits of a decoder. -/
structure Fits (maxMessageSize partLimit : Nat) (packet : Packet) : Prop where
  valid : validate packet = .ok ()
  size : encodedSize packet ≤ maxMessageSize
  count : packet.parts.length ≤ partLimit

variable {maxMessageSize partLimit : Nat} {packet : Packet}

theorem Fits.parts (h : Fits maxMessageSize partLimit packet) :
    ∀ part ∈ packet.parts, PartFits part := (validate_eq_ok.mp h.valid).2

/-- The header of this packet, as it was read. -/
def fixedOf (packet : Packet) : FixedHeader :=
  ⟨packet.packetType, packet.flags, packet.id, packet.parts.length⟩

/-- Past a fixed header that says what the packet's does, the decoder is in the body of the
packet or done. -/
theorem decodeWith_read (h : Fits maxMessageSize partLimit packet) {front : List UInt8}
    (hfront : front.length = fixedHeaderSize) (z : List UInt8)
    (hlength : fixedHeaderSize ≤ (front ++ z).length)
    (hread : readFixedHeader (front ++ z) hlength = .ok (fixedOf packet)) :
    decodeWith maxMessageSize partLimit (front ++ z) =
      if hasVariableHeader packet.packetType packet.parts.length then
        decodeBody (fixedOf packet) maxMessageSize (front ++ z)
      else (.ok (some packet), z) := by
  have hcount := (validate_eq_ok.mp h.valid).1
  have hfew : ¬ (fixedOf packet).partCount > min maxPartCount partLimit :=
    Nat.not_lt.mpr (Nat.le_min.mpr ⟨hcount, h.count⟩)
  unfold decodeWith
  rw [dif_neg (Nat.not_lt.mpr hlength), hread]
  dsimp only
  rw [if_neg hfew]
  show (if hasVariableHeader packet.packetType packet.parts.length then _ else _) = _
  by_cases hvariable : hasVariableHeader packet.packetType packet.parts.length
  · rw [if_pos hvariable, if_pos hvariable]
  · rw [if_neg hvariable, if_neg hvariable, List.drop_left' hfront]
    -- Without a variable header there are no parts.
    have hnone : packet.parts = [] := by
      cases hparts : packet.parts with
      | nil => rfl
      | cons part parts =>
        rw [hparts] at hvariable
        exact absurd (by simp [hasVariableHeader]) hvariable
    obtain ⟨packetType, flags, id, parts⟩ := packet
    obtain rfl : parts = [] := hnone
    rfl

theorem readFixedHeader_fixed (h : Fits maxMessageSize partLimit packet) (z : List UInt8)
    (hlength : fixedHeaderSize ≤ (sealed (fixedBlock packet) ++ z).length) :
    readFixedHeader (sealed (fixedBlock packet) ++ z) hlength = .ok (fixedOf packet) := by
  have hcount := (validate_eq_ok.mp h.valid).1
  exact readFixedHeader_append
    (Nat.lt_of_le_of_lt hcount (show maxPartCount < 256 ^ 4 by decide)) hlength

theorem decodeWith_fixed (h : Fits maxMessageSize partLimit packet) (z : List UInt8) :
    decodeWith maxMessageSize partLimit (sealed (fixedBlock packet) ++ z) =
      if hasVariableHeader packet.packetType packet.parts.length then
        decodeBody (fixedOf packet) maxMessageSize (sealed (fixedBlock packet) ++ z)
      else (.ok (some packet), z) := by
  have hfront := sealed_fixedBlock_length packet
  have hlength : fixedHeaderSize ≤ (sealed (fixedBlock packet) ++ z).length := by
    rw [List.length_append, hfront]
    exact Nat.le_add_right _ _
  exact decodeWith_read h hfront z hlength (readFixedHeader_fixed h z hlength)

/-- The limit admits the packet with its variable header. -/
theorem Fits.total_le (h : Fits maxMessageSize partLimit packet)
    (hvariable : hasVariableHeader packet.packetType packet.parts.length) :
    fixedHeaderSize + variableHeaderSize packet.parts.length + payloadLength packet.parts ≤
      maxMessageSize := by
  have hsize := h.size
  unfold encodedSize at hsize
  rwa [if_pos hvariable] at hsize

theorem decodeBody_waits (h : Fits maxMessageSize partLimit packet)
    (hvariable : hasVariableHeader packet.packetType packet.parts.length) {input : List UInt8}
    (hshort : input.length < fixedHeaderSize + variableHeaderSize packet.parts.length) :
    decodeBody (fixedOf packet) maxMessageSize input = (.ok none, input) := by
  have hheader : ¬ fixedHeaderSize + variableHeaderSize packet.parts.length > maxMessageSize :=
    Nat.not_lt.mpr (Nat.le_of_add_right_le (h.total_le hvariable))
  unfold decodeBody fixedOf
  dsimp only
  rw [if_neg hheader, if_pos hshort]

/-- The part headers are read back, in order. -/
theorem partHeaders_append (hparts : ∀ part ∈ packet.parts, PartFits part) (z : List UInt8) :
    partHeaders (variableBlock packet.parts ++ z) packet.parts.length =
      packet.parts.zipIdx.map headerOf := by
  unfold partHeaders
  apply List.ext_getElem
  · rw [List.length_map, List.length_map, List.length_range, List.length_zipIdx]
  · intro index hleft hright
    have hindex : index < packet.parts.length := by
      rwa [List.length_map, List.length_range] at hleft
    have hpart : packet.parts[index]? = some packet.parts[index] :=
      List.getElem?_eq_getElem hindex
    have hfits := hparts _ (List.getElem_mem hindex)
    rw [List.getElem_map, List.getElem_map, List.getElem_range, List.getElem_zipIdx,
      word_variableBlock hpart hfits.size_lt, checksumWord_variableBlock hpart, Nat.zero_add]
    rfl

section Header

variable {front block stored w : List UInt8}

/-- Where the parts of a variable header lie, whatever its bytes are. -/
theorem header_slices {count : Nat} (hfront : front.length = fixedHeaderSize)
    (hblock : block.length = count * 12) (hstored : stored.length = 8) :
    (front ++ (block ++ stored ++ w)).length =
        fixedHeaderSize + variableHeaderSize count + w.length ∧
      slice (front ++ (block ++ stored ++ w)) fixedHeaderSize (variableHeaderSize count) =
        block ++ stored ∧
      checksumWord (block ++ stored) (variableHeaderSize count - 8) = fromLeBytes 64 stored ∧
      (block ++ stored).take (variableHeaderSize count - 8) = block ∧
      (front ++ (block ++ stored ++ w)).drop (fixedHeaderSize + variableHeaderSize count) = w := by
  have hsealed : (block ++ stored).length = variableHeaderSize count := by
    rw [List.length_append, hblock, hstored]
    rfl
  have hminus : variableHeaderSize count - 8 = count * 12 := rfl
  refine ⟨?_, ?_, ?_, ?_, ?_⟩
  · rw [List.length_append, List.length_append, hfront, hsealed, Nat.add_assoc]
  · rw [← Nat.add_zero fixedHeaderSize, slice_skip hfront]
    exact slice_front hsealed
  · have hbehind : slice (block ++ (stored ++ [])) (count * 12) 8 = stored := by
      rw [← Nat.add_zero (count * 12), slice_skip hblock]
      exact slice_front hstored
    rw [List.append_nil] at hbehind
    unfold checksumWord
    rw [hminus, hbehind]
  · rw [hminus]
    exact List.take_left' hblock
  · rw [← List.drop_drop, List.drop_left' hfront, List.drop_left' hsealed]

/-- A variable header that its checksum word contradicts is refused. -/
theorem decodeBody_mismatch (h : Fits maxMessageSize partLimit packet)
    (hvariable : hasVariableHeader packet.packetType packet.parts.length)
    (hfront : front.length = fixedHeaderSize) (hblock : block.length = packet.parts.length * 12)
    (hstored : stored.length = 8) {e : PacketError}
    (hverify : verify (fromLeBytes 64 stored) block .variableHeaderChecksum = .error e) :
    (decodeBody (fixedOf packet) maxMessageSize (front ++ (block ++ stored ++ w))).1 =
      .error e := by
  have hheader : ¬ fixedHeaderSize + variableHeaderSize packet.parts.length > maxMessageSize :=
    Nat.not_lt.mpr (Nat.le_of_add_right_le (h.total_le hvariable))
  obtain ⟨hlength, hslice, hword, htake, _⟩ := header_slices (w := w) hfront hblock hstored
  have hwhole : ¬ (front ++ (block ++ stored ++ w)).length <
      fixedHeaderSize + variableHeaderSize packet.parts.length := by
    rw [hlength]
    exact Nat.not_lt.mpr (Nat.le_add_right _ _)
  unfold decodeBody fixedOf
  dsimp only
  rw [if_neg hheader, if_neg hwhole, hslice, hword, htake, hverify]

/-- Behind a whole variable header with a checksum word that does not contradict it, the
decoder waits for the parts or splits them off. -/
theorem decodeBody_block (h : Fits maxMessageSize partLimit packet)
    (hvariable : hasVariableHeader packet.packetType packet.parts.length)
    (hfront : front.length = fixedHeaderSize) (hstored : stored.length = 8)
    (hverify : verify (fromLeBytes 64 stored) (variableBlock packet.parts)
      .variableHeaderChecksum = .ok ()) :
    decodeBody (fixedOf packet) maxMessageSize
        (front ++ (variableBlock packet.parts ++ stored ++ w)) =
      if w.length < payloadLength packet.parts then
        (.ok none, front ++ (variableBlock packet.parts ++ stored ++ w))
      else
        ((splitParts (packet.parts.zipIdx.map headerOf) w).1.map fun parts =>
            some { packet with parts := parts },
          (splitParts (packet.parts.zipIdx.map headerOf) w).2) := by
  have htotal := h.total_le hvariable
  have hheader : ¬ fixedHeaderSize + variableHeaderSize packet.parts.length > maxMessageSize :=
    Nat.not_lt.mpr (Nat.le_of_add_right_le htotal)
  obtain ⟨hlength, hslice, hword, htake, hdrop⟩ :=
    header_slices (w := w) hfront (variableBlock_length packet.parts) hstored
  have hwhole : ¬ (front ++ (variableBlock packet.parts ++ stored ++ w)).length <
      fixedHeaderSize + variableHeaderSize packet.parts.length := by
    rw [hlength]
    exact Nat.not_lt.mpr (Nat.le_add_right _ _)
  have hwords : ∀ part index, (part, index) ∈ packet.parts.zipIdx 0 →
      word (variableBlock packet.parts ++ stored) (index * 4) 4 = partSize part := by
    intro part index hmem
    have hpart : packet.parts[index]? = some part := List.mem_zipIdx_iff_getElem?.mp hmem
    exact word_variableBlock hpart (h.parts part (List.mem_of_getElem? hpart)).size_lt stored
  have hrange : List.range packet.parts.length = (packet.parts.zipIdx 0).map Prod.snd := by
    rw [List.zipIdx_map_snd, List.range_eq_range']
  have hpayload : payloadSize (variableBlock packet.parts ++ stored)
      (List.range packet.parts.length) 0 = .ok (payloadLength packet.parts) := by
    rw [hrange, payloadSize_words h.parts hwords, Nat.zero_add]
  have hfits : ¬ fixedHeaderSize + variableHeaderSize packet.parts.length +
      payloadLength packet.parts > maxMessageSize := Nat.not_lt.mpr htotal
  have hcompare : (front ++ (variableBlock packet.parts ++ stored ++ w)).length <
      fixedHeaderSize + variableHeaderSize packet.parts.length + payloadLength packet.parts ↔
      w.length < payloadLength packet.parts := by
    rw [hlength]
    exact Nat.add_lt_add_iff_left
  unfold decodeBody fixedOf
  dsimp only
  rw [if_neg hheader, if_neg hwhole, hslice, hword, htake, hverify]
  dsimp only
  rw [hpayload]
  dsimp only
  rw [if_neg hfits, partHeaders_append h.parts, hdrop]
  by_cases hshort : w.length < payloadLength packet.parts
  · rw [if_pos hshort, if_pos (hcompare.mpr hshort)]
  · rw [if_neg hshort, if_neg (fun h' => hshort (hcompare.mp h'))]

end Header

/-- The header that was written is one. -/
theorem decodeBody_header (h : Fits maxMessageSize partLimit packet)
    (hvariable : hasVariableHeader packet.packetType packet.parts.length) {front w : List UInt8}
    (hfront : front.length = fixedHeaderSize) :
    decodeBody (fixedOf packet) maxMessageSize
        (front ++ (sealed (variableBlock packet.parts) ++ w)) =
      if w.length < payloadLength packet.parts then
        (.ok none, front ++ (sealed (variableBlock packet.parts) ++ w))
      else
        ((splitParts (packet.parts.zipIdx.map headerOf) w).1.map fun parts =>
            some { packet with parts := parts },
          (splitParts (packet.parts.zipIdx.map headerOf) w).2) := by
  apply decodeBody_block h hvariable hfront (toLeBytes_length 8 _)
  rw [@fromLeBytes_toLeBytes 8 64 rfl]
  exact verify_checksum _ _

/-- **A whole packet is taken off the buffer.** -/
theorem decodeWith_complete (h : Fits maxMessageSize partLimit packet) (rest : List UInt8) :
    decodeWith maxMessageSize partLimit (encoding packet ++ rest) = (.ok (some packet), rest) := by
  unfold encoding
  rw [List.append_assoc, decodeWith_fixed h]
  by_cases hvariable : hasVariableHeader packet.packetType packet.parts.length
  · have hwhole : ¬ (payload packet.parts ++ rest).length < payloadLength packet.parts := by
      rw [List.length_append, payload_length]
      exact Nat.not_lt.mpr (Nat.le_add_right _ _)
    rw [if_pos hvariable, if_pos hvariable, List.append_assoc]
    apply (decodeBody_header h hvariable (sealed_fixedBlock_length packet)).trans
    rw [if_neg hwhole, splitParts_append h.parts 0 rest]
    rfl
  · rw [if_neg hvariable, if_neg hvariable]
    rfl

/-- **A packet that is not all there is waited for**, and the buffer is left alone. -/
theorem decodeWith_short (h : Fits maxMessageSize partLimit packet) {buffer more rest : List UInt8}
    (hshort : buffer.length < (encoding packet).length)
    (hstream : buffer ++ more = encoding packet ++ rest) :
    decodeWith maxMessageSize partLimit buffer = (.ok none, buffer) := by
  by_cases hfixed : buffer.length < fixedHeaderSize
  · unfold decodeWith
    rw [dif_pos hfixed]
  · unfold encoding at hstream hshort
    rw [List.append_assoc] at hstream
    have hlength := sealed_fixedBlock_length packet
    obtain ⟨z, rfl, hz⟩ := Incremental.split_front
      (by rw [hlength]; exact Nat.not_lt.mp hfixed) hstream
    rw [decodeWith_fixed h]
    by_cases hvariable : hasVariableHeader packet.packetType packet.parts.length
    · rw [if_pos hvariable] at hshort hz ⊢
      rw [List.append_assoc] at hz
      by_cases hheader : z.length < variableHeaderSize packet.parts.length
      · apply decodeBody_waits h hvariable
        rw [List.length_append, hlength]
        exact Nat.add_lt_add_left hheader _
      · obtain ⟨w, rfl, _⟩ := Incremental.split_front
          (by rw [sealed_variableBlock_length]; exact Nat.not_lt.mp hheader) hz
        have hparts : w.length < payloadLength packet.parts := by
          rw [← payload_length]
          simp only [List.length_append] at hshort
          omega
        apply (decodeBody_header h hvariable hlength).trans
        rw [if_pos hparts]
    · rw [if_neg hvariable, List.append_nil, List.length_append] at hshort
      exact absurd hshort (Nat.not_lt.mpr (Nat.le_add_right _ _))

/-- The packets a decoder admits, as a stream of items. -/
theorem decodes (maxMessageSize partLimit : Nat) :
    Incremental.Decodes (decodeWith maxMessageSize partLimit) encoding
      (Fits maxMessageSize partLimit) where
  empty := rfl
  complete h rest := decodeWith_complete h rest
  short h := decodeWith_short h

end Bus
end Ytsaurus
