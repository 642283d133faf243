import Ytsaurus.Client.Trace
import Ytsaurus.Proof.Rpc.Guid

/-!
# `Proof/Client/Trace.lean` — a trace that was passed on is passed on

Ids of a fixed width are numbers printed at that width (`IsId.eq_padded`), so everything a header
says is four numbers. `parse` takes the headers that say them (`parse_iff`), the client's own
header says the same again, and the cluster's spelling is the text of a GUID.

A header may be written in capitals, with blanks around it, without its version, or in a later
version with more behind it than is understood. All of these are put into one form by being read,
and what is passed on is that form. So passing on is no copy of a text, and that nothing is lost is
a statement about the numbers.

The cluster writes an id as four numbers without leading zeros, each of them a quarter of the
digits, and the quarters are words of a GUID in the opposite order (`Rpc/Guid.lean`). A group of
zeros is written as one zero, since a number is never an empty text.
-/

set_option autoImplicit false

namespace Ytsaurus.Client.TraceContext

open Hex (value padded)

/-! ## Ids -/

/-- So many digits, in either case. -/
def Digits (count : Nat) (text : Str) : Prop :=
  text.length = count ∧ ∀ c ∈ text, (IpAddr.hexDigit c).isSome

section

variable {count : Nat} {text : Str}

theorem isHex_iff : isHex text count ↔ Digits count text := by
  unfold isHex Digits
  rw [Bool.and_eq_true, beq_iff_eq, List.all_eq_true]

theorem isHex_eq_false_iff : isHex text count = false ↔ ¬ Digits count text := by
  rw [← isHex_iff, Bool.not_eq_true]

theorem isZero_iff (h : Digits count text) : isZero text ↔ value text = 0 := by
  unfold isZero
  rw [Hex.value_eq_zero_iff h.2]
  simp

theorem Digits.lower (h : Digits count text) (hcount : 0 < count) :
    Text.toAsciiLowercase text = padded count (value text) := by
  have hne : text ≠ [] := by
    intro hnil
    rw [hnil] at h
    exact absurd h.1 (Nat.ne_of_lt hcount)
  rw [← h.1]
  exact (Hex.padded_value hne h.2).symm

theorem digits_of_isId (h : IsId count text) : Digits count text :=
  ⟨h.1, fun c hc => (h.2 c hc).1⟩

/-- **An id is its number, printed.** -/
theorem eq_padded (h : IsId count text) (hcount : 0 < count) : text = padded count (value text) := by
  have hlower : text.map Char.toLower = text.map id :=
    List.map_congr_left fun c hc => (h.2 c hc).2
  rw [← (digits_of_isId h).lower hcount]
  unfold Text.toAsciiLowercase
  rw [hlower, List.map_id]

theorem Digits.value_lt (h : Digits count text) : value text < 16 ^ count := by
  rw [← h.1]
  exact Hex.value_lt h.2

theorem Digits.not_dash (h : Digits count text) : '-' ∉ text := by
  intro hmem
  exact absurd (h.2 _ hmem) (by decide)

theorem Digits.padded {n : Nat} (hcount : 0 < count) (hn : n < 16 ^ count) :
    Digits count (Hex.padded count n) :=
  ⟨Hex.padded_length hcount hn, Hex.padded_digits count n⟩

/-- The version that the standard reserves. -/
theorem lower_eq_ff_iff (h : Digits 2 text) :
    Text.toAsciiLowercase text = "ff".toList ↔ value text = 255 := by
  rw [h.lower (by decide)]
  constructor
  · intro hff
    have hvalue := congrArg value hff
    rw [Hex.value_padded] at hvalue
    exact hvalue
  · intro hvalue
    rw [hvalue]
    decide

/-- `u8::from_str_radix` takes two digits. -/
theorem fromStrRadix_digits (h : Digits 2 text) : Hex.fromStrRadix 256 text = some (value text) := by
  have hplus : Hex.withoutPlus text = text := by
    apply Hex.withoutPlus_of_head
    intro hhead
    exact absurd (h.2 '+' (List.mem_of_mem_head? hhead)) (by decide)
  have hne : text ≠ [] := by
    intro hnil
    rw [hnil] at h
    exact absurd h.1 (by decide)
  apply (Hex.fromStrRadix_iff (by decide)).mpr
  rw [hplus]
  exact ⟨⟨hne, h.2⟩, rfl, h.value_lt⟩

end

/-! ## Which headers are taken -/

/-- The groups of a header: four of them, more when the version is a later one, or three when the
version is left out. -/
def Grouped (header : Str) (g : Groups) : Prop :=
  (∃ rest, Text.split '-' (Text.trim header) =
      g.version :: g.traceId :: g.spanId :: g.flags :: rest ∧
    (rest = [] ∨ g.version ≠ "00".toList)) ∨
  (Text.split '-' (Text.trim header) = [g.traceId, g.spanId, g.flags] ∧
    g.version = "00".toList)

/-- What the groups may say, and the context they name. -/
structure Names (g : Groups) (context : TraceContext) : Prop where
  version : Digits 2 g.version ∧ value g.version ≠ 255
  trace : Digits 32 g.traceId ∧ value g.traceId ≠ 0
  span : Digits 16 g.spanId ∧ value g.spanId ≠ 0
  flags : Digits 2 g.flags
  traceId : context.traceId = padded 32 (value g.traceId)
  spanId : context.spanId = padded 16 (value g.spanId)
  flag : context.flags.toNat = value g.flags
  tracestate : context.tracestate = none

theorem groups_iff {pieces : List Str} {g : Groups} (htrace : Digits 32 g.traceId) :
    groups pieces = .ok g ↔
      (∃ rest, pieces = g.version :: g.traceId :: g.spanId :: g.flags :: rest ∧
        (rest = [] ∨ g.version ≠ "00".toList)) ∨
      (pieces = [g.traceId, g.spanId, g.flags] ∧ g.version = "00".toList) := by
  obtain ⟨version, traceId, spanId, flags⟩ := g
  dsimp only at htrace ⊢
  constructor
  · intro h
    unfold groups at h
    split at h
    · split at h
      · cases h
        exact .inr ⟨rfl, rfl⟩
      · split at h <;> cases h
    · cases h
      exact .inl ⟨[], rfl, .inl rfl⟩
    · split at h
      · rename_i hversion
        cases h
        exact .inl ⟨_, rfl, .inr hversion⟩
      · cases h
    · cases h
  · intro h
    rcases h with ⟨rest, rfl, hrest⟩ | ⟨rfl, rfl⟩
    · cases rest with
      | nil => rfl
      | cons piece rest =>
        rcases hrest with hnil | hversion
        · cases hnil
        · unfold groups
          exact if_pos hversion
    · unfold groups
      exact if_pos (isHex_iff.mpr htrace)

/-- **The headers that are taken, and what they name.** -/
theorem parse_iff {header : Str} {context : TraceContext} :
    parse header = .ok context ↔ ∃ g, Grouped header g ∧ Names g context := by
  constructor
  · intro h
    unfold parse at h
    split at h
    · cases h
    · rename_i g hgroups
      split at h
      · cases h
      rename_i hversion
      split at h
      · cases h
      rename_i hreserved
      split at h
      · cases h
      rename_i htrace
      split at h
      · cases h
      rename_i hzero
      split at h
      · cases h
      rename_i hspan
      split at h
      · cases h
      rename_i hzeroSpan
      split at h
      · cases h
      rename_i hflags
      rw [isHex_eq_false_iff, Classical.not_not] at hversion htrace hspan hflags
      rw [isZero_iff htrace] at hzero
      rw [isZero_iff hspan] at hzeroSpan
      rw [lower_eq_ff_iff hversion] at hreserved
      cases h
      refine ⟨g, (groups_iff htrace).mp hgroups, ⟨hversion, hreserved⟩, ⟨htrace, hzero⟩,
        ⟨hspan, hzeroSpan⟩, hflags, htrace.lower (by decide), hspan.lower (by decide), ?_, rfl⟩
      show (UInt8.ofNat _).toNat = _
      rw [fromStrRadix_digits hflags, Option.getD_some, UInt8.toNat_ofNat_of_lt' hflags.value_lt]
  · intro h
    obtain ⟨g, hgrouped, hversion, htrace, hspan, hflags, htraceId, hspanId, hflag, hstate⟩ := h
    have hgroups := (groups_iff htrace.1).mpr hgrouped
    have hnot {count : Nat} {text : Str} (h : Digits count text) : ¬ isHex text count = false := by
      rw [isHex_eq_false_iff, Classical.not_not]
      exact h
    unfold parse
    rw [hgroups]
    dsimp only
    rw [if_neg (hnot hversion.1), if_neg (mt (lower_eq_ff_iff hversion.1).mp hversion.2),
      dif_neg (hnot htrace.1), if_neg (mt (isZero_iff htrace.1).mp htrace.2),
      dif_neg (hnot hspan.1), if_neg (mt (isZero_iff hspan.1).mp hspan.2), if_neg (hnot hflags)]
    obtain ⟨traceId, spanId, flags, tracestate, trace_ok, span_ok⟩ := context
    dsimp only at htraceId hspanId hflag hstate
    have hflags' : UInt8.ofNat ((Hex.fromStrRadix 256 g.flags).getD 0) = flags := by
      rw [fromStrRadix_digits hflags, Option.getD_some, ← hflag, UInt8.ofNat_toNat]
    congr 2
    · rw [htraceId]
      exact htrace.1.lower (by decide)
    · rw [hspanId]
      exact hspan.1.lower (by decide)
    · exact hstate.symm

/-! ## What is passed on -/

section

variable {context : TraceContext}

theorem digit_not_whitespace {c : Char} (h : (IpAddr.hexDigit c).isSome) :
    Text.isWhitespace c = false := by
  have hall : ∀ n : Fin 128, (IpAddr.hexDigit (Char.ofNat n)).isSome →
      Text.isWhitespace (Char.ofNat n) = false := by decide
  have hlt := Hex.digit_lt h
  have hcase := hall ⟨c.toNat, hlt⟩
  rw [Char.ofNat_toNat] at hcase
  exact hcase h

theorem flags_digits (context : TraceContext) : Digits 2 (padded 2 context.flags.toNat) :=
  Digits.padded (by decide) context.flags.toNat_lt

theorem split_header (context : TraceContext) :
    Text.split '-' (Text.trim context.header) =
      ["00".toList, context.traceId, context.spanId, padded 2 context.flags.toNat] := by
  have htrace := (digits_of_isId context.trace_ok).not_dash
  have hspan := (digits_of_isId context.span_ok).not_dash
  have hflags := (flags_digits context).not_dash
  have hheader : context.header = "00".toList ++ '-' :: (context.traceId ++ '-' ::
      (context.spanId ++ '-' :: padded 2 context.flags.toNat)) := by
    unfold header
    simp
  have htrim : Text.trim context.header = context.header := by
    apply Text.trim_eq_self
    · intro c hc
      rw [hheader] at hc
      cases hc
      rfl
    · intro c hc
      have hlength := (flags_digits context).1
      rw [hheader, List.getLast?_append, List.getLast?_cons, List.getLast?_append,
        List.getLast?_cons, List.getLast?_append, List.getLast?_cons] at hc
      cases hlast : (padded 2 context.flags.toNat).getLast? with
      | none =>
        rw [List.getLast?_eq_none_iff] at hlast
        rw [hlast] at hlength
        exact absurd hlength (by decide)
      | some last =>
        rw [hlast] at hc
        cases hc
        exact digit_not_whitespace ((flags_digits context).2 _ (List.mem_of_getLast? hlast))
  rw [htrim, hheader, Text.split_append, Text.split_append, Text.split_append,
    Text.split_single htrace, Text.split_single hspan, Text.split_single hflags]
  rfl

/-- **The header of a context names it**, when its ids are not zero. -/
theorem parse_header (htrace : value context.traceId ≠ 0) (hspan : value context.spanId ≠ 0) :
    parse context.header = .ok { context with tracestate := none } := by
  have hversion : Digits 2 "00".toList := isHex_iff.mp (by decide)
  have hlater : value "00".toList ≠ 255 := by decide
  apply parse_iff.mpr
  refine ⟨⟨"00".toList, context.traceId, context.spanId, padded 2 context.flags.toNat⟩,
    .inl ⟨[], split_header context, .inl rfl⟩, ⟨hversion, hlater⟩,
    ⟨digits_of_isId context.trace_ok, htrace⟩, ⟨digits_of_isId context.span_ok, hspan⟩,
    flags_digits context, eq_padded context.trace_ok (by decide),
    eq_padded context.span_ok (by decide), ?_, rfl⟩
  exact (Hex.value_padded 2 _).symm

theorem value_ne_zero {header : Str} (h : parse header = .ok context) :
    value context.traceId ≠ 0 ∧ value context.spanId ≠ 0 := by
  obtain ⟨g, -, hnames⟩ := parse_iff.mp h
  rw [hnames.traceId, hnames.spanId, Hex.value_padded, Hex.value_padded]
  exact ⟨hnames.trace.2, hnames.span.2⟩

/-- **A trace that was passed on is passed on.** The headers of a client that carries what a
header named say who is asking, and name the same trace, span and flags again; the `tracestate`
is the one that came with it, and comes behind it. -/
theorem trace_passed_on {incoming : Str} (h : parse incoming = .ok context) (t : Transport)
    (state : Option Str) :
    ∃ outgoing, (t.carry { context with tracestate := state }).caller =
        (t.token.map fun token => ("Authorization", "OAuth ".toList ++ token)).toList ++
          [("traceparent", outgoing)] ++ (state.map fun state => ("tracestate", state)).toList ∧
      parse outgoing = .ok context := by
  obtain ⟨htrace, hspan⟩ := value_ne_zero h
  refine ⟨context.header, rfl, ?_⟩
  rw [parse_header htrace hspan]
  obtain ⟨g, -, hnames⟩ := parse_iff.mp h
  rw [← hnames.tracestate]

end

/-! ## The cluster's spelling -/

section

variable {context : TraceContext}

/-- The number of one of the four groups. -/
def groupValue (context : TraceContext) (group : Nat) : Nat :=
  value ((context.traceId.drop (group * 8)).take 8)

theorem group_digits (context : TraceContext) {group : Nat} (h : group < 4) :
    Digits 8 ((context.traceId.drop (group * 8)).take 8) := by
  have hdigits := digits_of_isId context.trace_ok
  refine ⟨?_, ?_⟩
  · rw [List.length_take, List.length_drop, hdigits.1]
    omega
  · intro c hc
    exact hdigits.2 c (List.mem_of_mem_drop (List.mem_of_mem_take hc))

theorem group_padded (context : TraceContext) {group : Nat} (h : group < 4) :
    (context.traceId.drop (group * 8)).take 8 = padded 8 (context.groupValue group) := by
  have hid : IsId 8 ((context.traceId.drop (group * 8)).take 8) :=
    ⟨(group_digits context h).1, fun c hc =>
      context.trace_ok.2 c (List.mem_of_mem_drop (List.mem_of_mem_take hc))⟩
  exact eq_padded hid (by decide)

/-- A group is written without its leading zeros. -/
theorem guidGroup_eq (context : TraceContext) {group : Nat} (h : group < 4) :
    guidGroup context.traceId group = Nat.toDigits 16 (context.groupValue group) := by
  unfold guidGroup
  rw [group_padded context h, Hex.dropWhile_padded]
  by_cases hzero : context.groupValue group = 0
  · rw [if_pos hzero, hzero]
    rfl
  · rw [if_neg hzero]
    obtain ⟨c, rest, hdigits, -⟩ := Hex.head_toDigits (Nat.pos_of_ne_zero hzero)
    rw [hdigits]
    rfl

theorem groupValue_lt (context : TraceContext) {group : Nat} (h : group < 4) :
    context.groupValue group < 2 ^ 32 := (group_digits context h).value_lt

/-- The trace as a GUID: the last of its words is the first group. -/
def guid (context : TraceContext) : Rpc.Guid :=
  .fromParts #v[BitVec.ofNat 32 (context.groupValue 3), BitVec.ofNat 32 (context.groupValue 2),
    BitVec.ofNat 32 (context.groupValue 1), BitVec.ofNat 32 (context.groupValue 0)]

theorem lowerHex_ofNat {n : Nat} (h : n < 2 ^ 32) :
    Rpc.Guid.lowerHex (BitVec.ofNat 32 n) = Nat.toDigits 16 n := by
  unfold Rpc.Guid.lowerHex
  rw [BitVec.toNat_ofNat, Nat.mod_eq_of_lt h]

theorem parts_guid (context : TraceContext) : context.guid.parts =
    #v[BitVec.ofNat 32 (context.groupValue 3), BitVec.ofNat 32 (context.groupValue 2),
      BitVec.ofNat 32 (context.groupValue 1), BitVec.ofNat 32 (context.groupValue 0)] :=
  Rpc.Guid.parts_fromParts _

/-- Four groups are the whole id. -/
theorem traceId_groups (context : TraceContext) :
    context.traceId = padded 8 (context.groupValue 0) ++ padded 8 (context.groupValue 1) ++
      padded 8 (context.groupValue 2) ++ padded 8 (context.groupValue 3) := by
  rw [← group_padded context (by decide), ← group_padded context (by decide),
    ← group_padded context (by decide), ← group_padded context (by decide)]
  have hlength : (context.traceId.drop 24).length = 8 := by
    rw [List.length_drop, context.trace_ok.1]
  have hlast : (context.traceId.drop 24).take 8 = context.traceId.drop 24 :=
    List.take_of_length_le (Nat.le_of_eq hlength)
  have hcut (front : Nat) : context.traceId.drop front =
      (context.traceId.drop front).take 8 ++ context.traceId.drop (front + 8) := by
    rw [← List.drop_drop, List.take_append_drop]
  show _ = (context.traceId.drop 0).take 8 ++ (context.traceId.drop 8).take 8 ++
    (context.traceId.drop 16).take 8 ++ (context.traceId.drop 24).take 8
  rw [hlast]
  calc context.traceId = context.traceId.drop 0 := rfl
    _ = (context.traceId.drop 0).take 8 ++ context.traceId.drop 8 := hcut 0
    _ = (context.traceId.drop 0).take 8 ++ ((context.traceId.drop 8).take 8 ++
          context.traceId.drop 16) := congrArg _ (hcut 8)
    _ = (context.traceId.drop 0).take 8 ++ ((context.traceId.drop 8).take 8 ++
          ((context.traceId.drop 16).take 8 ++ context.traceId.drop 24)) :=
      congrArg _ (congrArg _ (hcut 16))
    _ = _ := by simp only [List.append_assoc]

/-- **The cluster's spelling of a trace is the text of a GUID**, whose words say the same digits. -/
theorem yt_trace_id_guid (context : TraceContext) :
    context.ytTraceId = context.guid.toText ∧
      Rpc.Guid.fromText context.ytTraceId = some context.guid ∧
      context.traceId = padded 8 (context.guid.parts.get 3).toNat ++
        padded 8 (context.guid.parts.get 2).toNat ++ padded 8 (context.guid.parts.get 1).toNat ++
        padded 8 (context.guid.parts.get 0).toNat := by
  have hword {group : Nat} (h : group < 4) :
      (BitVec.ofNat 32 (context.groupValue group)).toNat = context.groupValue group := by
    rw [BitVec.toNat_ofNat, Nat.mod_eq_of_lt (groupValue_lt context h)]
  have htext : context.ytTraceId = context.guid.toText := by
    have hgroups : context.ytTraceId = guidGroup context.traceId 0 ++ '-' ::
        (guidGroup context.traceId 1 ++ '-' :: (guidGroup context.traceId 2 ++ '-' ::
          guidGroup context.traceId 3)) := by
      unfold ytTraceId
      simp [List.range_succ, List.intercalate, List.intersperse]
    rw [hgroups, guidGroup_eq context (by decide), guidGroup_eq context (by decide),
      guidGroup_eq context (by decide), guidGroup_eq context (by decide)]
    unfold Rpc.Guid.toText
    rw [parts_guid, ← lowerHex_ofNat (groupValue_lt context (by decide : 0 < 4)),
      ← lowerHex_ofNat (groupValue_lt context (by decide : 1 < 4)),
      ← lowerHex_ofNat (groupValue_lt context (by decide : 2 < 4)),
      ← lowerHex_ofNat (groupValue_lt context (by decide : 3 < 4))]
    rfl
  refine ⟨htext, ?_, ?_⟩
  · rw [htext]
    exact Rpc.Guid.fromText_toText context.guid
  · rw [parts_guid]
    show context.traceId = padded 8 (BitVec.ofNat 32 (context.groupValue 0)).toNat ++
      padded 8 (BitVec.ofNat 32 (context.groupValue 1)).toNat ++
      padded 8 (BitVec.ofNat 32 (context.groupValue 2)).toNat ++
      padded 8 (BitVec.ofNat 32 (context.groupValue 3)).toNat
    rw [hword (by decide), hword (by decide), hword (by decide), hword (by decide)]
    exact traceId_groups context

end

/-- The example of the specification. -/
def specified : Str := "00-4bf92f3577b34da6a3ce929d0e0e4736-00f067aa0ba902b7-01".toList

theorem trace_passed_on_specified :
    ∃ context outgoing, parse specified = .ok context ∧
      ((Transport.new ['a'] none true none false 0).carry
        { context with tracestate := none }).caller = [("traceparent", outgoing)] ∧
      parse outgoing = .ok context := by
  have hsome : (parse specified).toOption.isSome = true := by decide +kernel
  cases hparse : parse specified with
  | error e =>
    rw [hparse] at hsome
    cases hsome
  | ok context =>
    obtain ⟨outgoing, hcaller, houtgoing⟩ :=
      trace_passed_on hparse (.new ['a'] none true none false 0) none
    exact ⟨context, outgoing, rfl, hcaller, houtgoing⟩

/-- The cluster drops the zeros in front of a group. -/
example : (parse specified).toOption.map ytTraceId =
    some "4bf92f35-77b34da6-a3ce929d-e0e4736".toList := by
  decide +kernel

end Ytsaurus.Client.TraceContext
