import Mathlib.Data.List.Forall2
import Ytsaurus.Lib.ExceptList
import Ytsaurus.Proof.Bus.Decode

/-!
# `Proof/Bus/Stream.lean` — packets over a stream

What the decoder does with one packet carries over to any number of them, however their bytes
are cut into reads. `BusReader::receive` calls the decoder, reads when it finds nothing, and
calls it again; it yields the packets one by one and reports the end of the stream behind the
last.

How the bytes arrive is a list of pieces, and a caller of the decoder may call it any time, before
or after the next piece (`Incremental.Reaches`). In every such order no call fails, what has been
taken is a beginning of the packets, and once everything is there and a call finds nothing, it is
all of them. `receive` is one particular order; its reads are not empty, since an empty one is the
end of the stream.

Two facts hold of any input, packets or not. A call that finds nothing leaves the buffer
untouched (`decodeWith_none`), by a case distinction over all the ways in which a call can end
(`Call`); and a part is null exactly when its size word says so (`decodeWith_null`), so an empty
part and an absent one are never confused.
-/

set_option autoImplicit false

namespace Ytsaurus
namespace Bus

/-! ## Any call

On any input at all, the decoder leaves the buffer alone or splits parts off it. -/

/-- The parts behind the headers of this input. -/
def splitOf (fixed : FixedHeader) (input : List UInt8) :
    Except PacketError (List (Option (List UInt8))) × List UInt8 :=
  splitParts
    (partHeaders (slice input fixedHeaderSize (variableHeaderSize fixed.partCount))
      fixed.partCount)
    (input.drop (fixedHeaderSize + variableHeaderSize fixed.partCount))

/-- The packet with these parts. -/
def FixedHeader.packet (fixed : FixedHeader) (parts : List (Option (List UInt8))) : Packet :=
  ⟨fixed.packetType, fixed.flags, fixed.id, parts⟩

inductive BodyCall (fixed : FixedHeader) (input : List UInt8) :
    Except PacketError (Option Packet) × List UInt8 → Prop
  | waits : BodyCall fixed input (.ok none, input)
  | refuses (e : PacketError) : BodyCall fixed input (.error e, input)
  | splits : BodyCall fixed input
      ((splitOf fixed input).1.map fun parts => some (fixed.packet parts), (splitOf fixed input).2)

theorem decodeBody_call (fixed : FixedHeader) (maxMessageSize : Nat) (input : List UInt8) :
    BodyCall fixed input (decodeBody fixed maxMessageSize input) := by
  unfold decodeBody
  dsimp only
  split
  · exact .refuses _
  · split
    · exact .waits
    · split
      · exact .refuses _
      · split
        · exact .refuses _
        · split
          · exact .refuses _
          · split
            · exact .waits
            · exact .splits

/-- The decoder at any input: it waits, it fails, or it is past a fixed header. -/
inductive Call (input : List UInt8) : Except PacketError (Option Packet) × List UInt8 → Prop
  | waits : Call input (.ok none, input)
  | refuses (e : PacketError) : Call input (.error e, input)
  | bare (fixed : FixedHeader) :
      Call input (.ok (some (fixed.packet [])), input.drop fixedHeaderSize)
  | body {fixed : FixedHeader} {r : Except PacketError (Option Packet) × List UInt8}
      (h : BodyCall fixed input r) : Call input r

theorem decodeWith_call (maxMessageSize partLimit : Nat) (input : List UInt8) :
    Call input (decodeWith maxMessageSize partLimit input) := by
  unfold decodeWith
  split
  · exact .waits
  · split
    · exact .refuses _
    · split
      · exact .refuses _
      · split
        · exact .body (decodeBody_call _ _ _)
        · exact .bare _

/-- **A call that finds nothing leaves the buffer untouched.** -/
theorem decodeWith_none {maxMessageSize partLimit : Nat} {input : List UInt8}
    (h : (decodeWith maxMessageSize partLimit input).1 = .ok none) :
    (decodeWith maxMessageSize partLimit input).2 = input := by
  have hcall := decodeWith_call maxMessageSize partLimit input
  generalize decodeWith maxMessageSize partLimit input = r at h hcall
  cases hcall with
  | waits => rfl
  | refuses e => rfl
  | bare fixed => cases h
  | body hbody =>
    cases hbody with
    | waits => rfl
    | refuses e => rfl
    | splits =>
      -- Parts that were split off make a packet.
      cases hparts : (splitOf _ input).1 with
      | error e =>
        rw [hparts] at h
        cases h
      | ok parts =>
        rw [hparts] at h
        cases h

/-! ## Null parts -/

/-- A part is null exactly when its size word says so. -/
theorem splitParts_null {headers : List (Nat × Nat × BitVec 64)} {input rest : List UInt8}
    {parts : List (Option (List UInt8))} (h : splitParts headers input = (.ok parts, rest)) :
    List.Forall₂ (fun header part => part = none ↔ header.2.1 = nullPartSize) headers parts := by
  induction headers generalizing input parts with
  | nil =>
    cases h
    exact .nil
  | cons header headers ih =>
    obtain ⟨index, size, expected⟩ := header
    unfold splitParts at h
    by_cases hnull : size = nullPartSize
    · rw [if_pos hnull] at h
      dsimp only at h
      cases hrest : splitParts headers input with
      | mk answer left =>
        rw [hrest] at h
        cases answer with
        | error e => cases h
        | ok others =>
          cases h
          exact .cons ⟨fun _ => hnull, fun _ => rfl⟩ (ih hrest)
    · rw [if_neg hnull] at h
      dsimp only at h
      split at h
      · cases h
      · cases hrest : splitParts headers (input.drop size) with
        | mk answer left =>
          rw [hrest] at h
          cases answer with
          | error e => cases h
          | ok others =>
            cases h
            refine .cons ⟨?_, fun hsize => absurd hsize hnull⟩ (ih hrest)
            intro hnone
            cases hnone

/-- **A null part is never read as an empty one**, nor an empty one as null: on any input, a
part of a decoded packet is null exactly when its size word is the null word. -/
theorem decodeWith_null {maxMessageSize partLimit : Nat} {input : List UInt8} {packet : Packet}
    (h : (decodeWith maxMessageSize partLimit input).1 = .ok (some packet))
    {index : Nat} {part : Option (List UInt8)} (hpart : packet.parts[index]? = some part) :
    part = none ↔ word (slice input fixedHeaderSize (variableHeaderSize packet.parts.length))
      (index * 4) 4 = nullPartSize := by
  have hcall := decodeWith_call maxMessageSize partLimit input
  generalize decodeWith maxMessageSize partLimit input = r at h hcall
  cases hcall with
  | waits => cases h
  | refuses e => cases h
  | bare fixed =>
    cases h
    cases hpart
  | @body fixed _ hbody =>
    cases hbody with
    | waits => cases h
    | refuses e => cases h
    | splits =>
      obtain ⟨parts, hparts, hpacket⟩ := ExceptList.map_eq_ok.mp h
      obtain rfl := Option.some.inj hpacket
      have hsplit : splitOf fixed input = (.ok parts, (splitOf fixed input).2) :=
        Prod.ext hparts rfl
      obtain ⟨hlength, hnull⟩ := List.forall₂_iff_get.mp (splitParts_null hsplit)
      have hcount : fixed.partCount = parts.length := by
        rw [← hlength, partHeaders, List.length_map, List.length_range]
      obtain ⟨hindex, hfound⟩ := List.getElem?_eq_some_iff.mp hpart
      have hat := hnull index (by rw [hlength]; exact hindex) hindex
      have hheader : ∀ hlt, ((partHeaders
          (slice input fixedHeaderSize (variableHeaderSize fixed.partCount)) fixed.partCount).get
            ⟨index, hlt⟩).2.1 =
          word (slice input fixedHeaderSize (variableHeaderSize fixed.partCount)) (index * 4) 4 := by
        intro hlt
        simp [partHeaders]
      rw [hheader, hcount] at hat
      rw [← hfound]
      exact hat

/-! ## The limits of a decoder without limits -/

def u64Max : Nat := 0xffffffffffffffff

theorem payloadLength_le {parts : List (Option (List UInt8))}
    (h : ∀ part ∈ parts, PartFits part) : payloadLength parts ≤ parts.length * maxPartSize := by
  induction parts with
  | nil => exact Nat.le_refl _
  | cons part parts ih =>
    obtain ⟨hpart, hrest⟩ := List.forall_mem_cons.mp h
    have hlength : (part.getD []).length ≤ maxPartSize := by
      cases part with
      | none => exact Nat.zero_le _
      | some bytes => exact hpart bytes rfl
    rw [payloadLength_cons, List.length_cons, Nat.succ_mul, Nat.add_comm]
    exact Nat.add_le_add (ih hrest) hlength

/-- A packet that can be written at all is within the widest limits. -/
theorem fits_of_validate {packet : Packet} (h : validate packet = .ok ()) :
    Fits u64Max maxPartCount packet := by
  obtain ⟨hcount, hparts⟩ := validate_eq_ok.mp h
  refine ⟨h, ?_, hcount⟩
  have hpayload : payloadLength packet.parts ≤ maxPartCount * maxPartSize :=
    Nat.le_trans (payloadLength_le hparts) (Nat.mul_le_mul_right _ hcount)
  have hheader : variableHeaderSize packet.parts.length ≤ variableHeaderSize maxPartCount :=
    Nat.add_le_add_right (Nat.mul_le_mul_right _ hcount) _
  unfold encodedSize
  split
  · calc fixedHeaderSize + variableHeaderSize packet.parts.length + payloadLength packet.parts
        ≤ fixedHeaderSize + variableHeaderSize maxPartCount + maxPartCount * maxPartSize :=
          Nat.add_le_add (Nat.add_le_add_left hheader _) hpayload
      _ ≤ u64Max := by decide
  · decide

/-! ## Receiving -/

/-- Packets that were received one after another. -/
inductive Receives : BusReader → List Packet → BusReader → Prop
  | nil {reader : BusReader} : Receives reader [] reader
  | cons {reader reader' final : BusReader} {packet : Packet} {packets : List Packet}
      (h : reader.receive = (.ok packet, reader')) (hrest : Receives reader' packets final) :
      Receives reader (packet :: packets) final

/-- What is left of the packets is in the reader's buffer and in the reads to come, none of
which is empty. -/
structure Holds (reader : BusReader) (packets : List Packet) : Prop where
  fits : ∀ packet ∈ packets, Fits reader.maxMessageSize reader.partLimit packet
  stream : reader.buffer ++ reader.stream.flatten = Incremental.encodeAll encoding packets
  reads : ∀ read ∈ reader.stream, read ≠ []

theorem receiveLoop_packet {maxMessageSize partLimit : Nat} {packet : Packet}
    {packets : List Packet}
    (hfits : ∀ p ∈ packet :: packets, Fits maxMessageSize partLimit p)
    {stream : List (List UInt8)} (hreads : ∀ read ∈ stream, read ≠ []) {buffer : List UInt8}
    (hstream : buffer ++ stream.flatten = Incremental.encodeAll encoding (packet :: packets)) :
    ∃ buffer' stream', BusReader.receiveLoop maxMessageSize partLimit buffer stream =
        (.ok packet, buffer', stream') ∧
      buffer' ++ stream'.flatten = Incremental.encodeAll encoding packets ∧
      ∀ read ∈ stream', read ≠ [] := by
  induction stream generalizing buffer with
  | nil =>
    cases (decodes maxMessageSize partLimit).front hfits hstream with
    | waits hshort _ =>
      have hlength := congrArg List.length hstream
      rw [List.flatten_nil, List.append_nil, Incremental.encodeAll, List.map_cons,
        List.flatten_cons, List.length_append] at hlength
      omega
    | @takes _ _ buffer' hcall hrest =>
      refine ⟨buffer', [], ?_, hrest, hreads⟩
      unfold BusReader.receiveLoop
      rw [hcall]
  | cons read stream ih =>
    obtain ⟨hread, hothers⟩ := List.forall_mem_cons.mp hreads
    cases (decodes maxMessageSize partLimit).front hfits hstream with
    | waits _ hcall =>
      rw [List.flatten_cons, ← List.append_assoc] at hstream
      obtain ⟨buffer', stream', hloop, hrest, hreads'⟩ := ih hothers hstream
      refine ⟨buffer', stream', ?_, hrest, hreads'⟩
      unfold BusReader.receiveLoop
      rw [hcall]
      dsimp only
      rw [if_neg hread]
      exact hloop
    | @takes _ _ buffer' hcall hrest =>
      refine ⟨buffer', read :: stream, ?_, hrest, hreads⟩
      unfold BusReader.receiveLoop
      rw [hcall]

theorem Holds.receive {reader : BusReader} {packet : Packet} {packets : List Packet}
    (h : Holds reader (packet :: packets)) :
    ∃ reader', reader.receive = (.ok packet, reader') ∧ Holds reader' packets := by
  obtain ⟨buffer', stream', hloop, hrest, hreads⟩ :=
    receiveLoop_packet h.fits h.reads h.stream
  refine ⟨{ reader with buffer := buffer', stream := stream' }, ?_, ?_, hrest, hreads⟩
  · unfold BusReader.receive
    rw [hloop]
  · intro p hp
    exact h.fits p (List.mem_cons_of_mem _ hp)

/-- Behind the last packet, the reader reports the end of the stream. -/
theorem Holds.receive_end {reader : BusReader} (h : Holds reader []) :
    reader.receive.1 = .error .unexpectedEof := by
  obtain ⟨hbuffer, hstream⟩ := List.append_eq_nil_iff.mp h.stream
  have hnone : reader.stream = [] := by
    cases hcase : reader.stream with
    | nil => rfl
    | cons read stream =>
      rw [hcase, List.flatten_cons] at hstream
      have hread := h.reads read (by rw [hcase]; exact List.mem_cons_self)
      exact absurd (List.append_eq_nil_iff.mp hstream).1 hread
  unfold BusReader.receive BusReader.receiveLoop
  rw [hbuffer, hnone, (decodes _ _).empty]

/-- **The packets are received one by one**, and then the end of the stream. -/
theorem Holds.receives {reader : BusReader} {packets : List Packet} (h : Holds reader packets) :
    ∃ final, Receives reader packets final ∧ final.receive.1 = .error .unexpectedEof := by
  induction packets generalizing reader with
  | nil => exact ⟨reader, .nil, h.receive_end⟩
  | cons packet packets ih =>
    obtain ⟨reader', hreceive, hholds⟩ := h.receive
    obtain ⟨final, hreceives, hend⟩ := ih hholds
    exact ⟨final, .cons hreceive hreceives, hend⟩

/-! ## The round trip -/

/-- The whole of what was sent. -/
def sent (packets : List Packet) : List UInt8 :=
  (packets.map fun packet => (encode packet).bytes).flatten

theorem sent_eq {packets : List Packet} (h : ∀ packet ∈ packets, validate packet = .ok ()) :
    sent packets = Incremental.encodeAll encoding packets := by
  unfold sent Incremental.encodeAll
  congr 1
  apply List.map_congr_left
  intro packet hpacket
  rw [encode_eq (h packet hpacket)]
  rfl

/-- **Bus packets round trip under any chunking.** Every packet that `validate` accepts is
written in `encoded_size` bytes. However what was written is cut into pieces, calling the
decoder after each of them yields the packets in order and leaves nothing; in any other order
of arrivals and calls no call fails, what is taken is a beginning of the packets, and it is
all of them once everything has arrived and a call finds nothing; and `receive` yields them
one by one, when no read is empty. A call that finds nothing leaves the buffer untouched, and
a part is null exactly when its size word is the null word. -/
theorem packets_round_trip {packets : List Packet}
    (hvalid : ∀ packet ∈ packets, validate packet = .ok ()) :
    (∀ packet ∈ packets, (encode packet).result = .ok () ∧
      (encode packet).bytes.length = encodedSize packet) ∧
    (∀ pieces : List (List UInt8), pieces.flatten = sent packets →
      Incremental.Feeds (decodeWith u64Max maxPartCount) [] pieces packets [] ∧
      (∀ buffer coming taken,
        Incremental.Reaches (decodeWith u64Max maxPartCount) pieces buffer coming taken →
        taken <+: packets ∧
        (∃ found buffer', decodeWith u64Max maxPartCount buffer = (.ok found, buffer')) ∧
        (coming = [] → (decodeWith u64Max maxPartCount buffer).1 = .ok none →
          taken = packets ∧ buffer = [])) ∧
      ((∀ piece ∈ pieces, piece ≠ []) →
        ∃ final, Receives ⟨[], pieces, u64Max, maxPartCount⟩ packets final ∧
          final.receive.1 = .error .unexpectedEof)) ∧
    (∀ maxMessageSize partLimit input,
      (decodeWith maxMessageSize partLimit input).1 = .ok none →
      (decodeWith maxMessageSize partLimit input).2 = input) ∧
    ∀ maxMessageSize partLimit input packet,
      (decodeWith maxMessageSize partLimit input).1 = .ok (some packet) →
      ∀ index part, packet.parts[index]? = some part →
        (part = none ↔
          word (slice input fixedHeaderSize (variableHeaderSize packet.parts.length))
            (index * 4) 4 = nullPartSize) := by
  have hfits : ∀ packet ∈ packets, Fits u64Max maxPartCount packet :=
    fun packet hpacket => fits_of_validate (hvalid packet hpacket)
  refine ⟨?_, ?_, ?_, ?_⟩
  · intro packet hpacket
    rw [encode_eq (hvalid packet hpacket)]
    exact ⟨rfl, encoding_length packet⟩
  · intro pieces hpieces
    rw [sent_eq hvalid] at hpieces
    refine ⟨(decodes _ _).feeds_all hfits hpieces, ?_, ?_⟩
    · intro buffer coming taken hreach
      exact (decodes _ _).any_order hfits hpieces hreach
    · intro hreads
      exact Holds.receives ⟨hfits, hpieces, hreads⟩
  · intro maxMessageSize partLimit input h
    exact decodeWith_none h
  · intro maxMessageSize partLimit input packet h index part hpart
    exact decodeWith_null h hpart

/-- A message with a part, a null part and an empty part. -/
def threeParts : Packet :=
  ⟨.message, 1, ⟨List.replicate 16 7, rfl⟩, [some [1, 2], none, some []]⟩

theorem three_parts_round_trip :
    Incremental.Feeds (decodeWith u64Max maxPartCount) []
      [(sent [threeParts]).take 50, (sent [threeParts]).drop 50] [threeParts] [] := by
  have hvalid : ∀ packet ∈ [threeParts], validate packet = .ok () := by
    intro packet hpacket
    obtain rfl := List.mem_singleton.mp hpacket
    rfl
  obtain ⟨_, hpieces, _⟩ := packets_round_trip hvalid
  apply (hpieces _ _).1
  rw [List.flatten_cons, List.flatten_cons, List.flatten_nil, List.append_nil]
  exact List.take_append_drop 50 _

end Bus
end Ytsaurus
