import Ytsaurus.Client.Batch
import Ytsaurus.Client.Jobs
import Ytsaurus.Proof.Scalars

/-!
# `Proof/Client/ErrorReaders.lean` — three readers of one error

An error of the cluster is a tree, and it comes as a JSON document in a header or as a YSON
document in an answer. Whichever it is, the reader takes the code and the message of the tree's
top and the deepest message on the way of first inner errors (`YtError.innermost`). Each reader
walks its own document by its own recursion; each is compared with the tree, not with the others.

The header is a text, and `serde_json` makes a document of it only where the document nests few
enough arrays and objects. An error takes two levels for every error inside it, so a tree of
sixty-four is refused, and the header's reader then knows no code at all (`readers_disagree_deep`).
Within the limit the three agree, whatever the shape of the tree (`error_readers_agree`).
-/

set_option autoImplicit false

namespace Ytsaurus.Client

open Yson (YsonValue YsonNode FloatText)
open Utf8 (asBytes)

/-! ## Trees -/

/-- An error of the cluster. Each field may be missing; attributes are whatever the two
encodings hold under that name. -/
inductive YtError where
  | mk (code : Option Int64) (message : Option String) (attributes : Option (Json × YsonValue))
      (inner : Option (List YtError))

namespace YtError

def code : YtError → Option Int64
  | .mk code _ _ _ => code

def message : YtError → Option String
  | .mk _ message _ _ => message

def inner : YtError → Option (List YtError)
  | .mk _ _ _ inner => inner

mutual

/-- The message of the last error on the way down the first inner errors that has one. -/
def innermost : YtError → Option String
  | .mk _ _ _ inner => innermostInner inner

def innermostInner : Option (List YtError) → Option String
  | some errors => innermostFirst errors
  | none => none

def innermostFirst : List YtError → Option String
  | first :: _ => (innermost first).or first.message
  | [] => none

end

/-- The message and, where it says something else, the innermost one. -/
def joined (outer : String) (inner : Option String) : String :=
  match inner with
  | some inner => if inner ≠ outer then outer ++ ": " ++ inner else outer
  | none => outer

/-! ## Documents -/

/-- A member that may be missing. -/
def member {κ α : Type} (name : κ) (value : Option α) : List (κ × α) :=
  value.toList.map fun v => (name, v)

mutual

/-- The error as `X-YT-Error` has it. -/
def toJson : YtError → Json
  | .mk code message attributes inner =>
    .object (member "attributes" (attributes.map Prod.fst) ++
      member "code" (code.map fun code => .int code.toInt) ++
      member "inner_errors" (innerJson inner) ++ member "message" (message.map .string))

def innerJson : Option (List YtError) → Option Json
  | some errors => some (.array (jsons errors))
  | none => none

def jsons : List YtError → List Json
  | [] => []
  | error :: errors => toJson error :: jsons errors

end

mutual

/-- The error as an answer in YSON has it. -/
def toYson : YtError → YsonValue
  | .mk code message attributes inner =>
    .bare (.map (member (asBytes "attributes") (attributes.map Prod.snd) ++
      member (asBytes "code") (code.map fun code => .bare (.int64 code)) ++
      member (asBytes "inner_errors") (innerYson inner) ++
      member (asBytes "message") (message.map fun text => .bare (.string (asBytes text)))))

def innerYson : Option (List YtError) → Option YsonValue
  | some errors => some (.bare (.list (ysons errors)))
  | none => none

def ysons : List YtError → List YsonValue
  | [] => []
  | error :: errors => toYson error :: ysons errors

end

/-! ## Members -/

section Members

variable {α : Type}

theorem get_member {name wanted : String} (value : Option Json) (fields : List (String × Json)) :
    Json.get wanted (.object (member name value ++ fields)) =
      if name = wanted then value.or (Json.get wanted (.object fields))
      else Json.get wanted (.object fields) := by
  cases value with
  | none =>
    by_cases h : name = wanted
    · rw [if_pos h]
      rfl
    · rw [if_neg h]
      rfl
  | some v =>
    by_cases h : name = wanted
    · rw [if_pos h, h]
      simp [Json.get, member]
    · rw [if_neg h]
      simp [Json.get, member, h]

theorem lookup_member {name wanted : List UInt8} (value : Option α)
    (entries : List (List UInt8 × α)) :
    SortedMap.lookup wanted (member name value ++ entries) =
      if name = wanted then value.or (SortedMap.lookup wanted entries)
      else SortedMap.lookup wanted entries := by
  cases value with
  | none =>
    by_cases h : name = wanted
    · rw [if_pos h]
      rfl
    · rw [if_neg h]
      rfl
  | some v =>
    by_cases h : name = wanted
    · rw [if_pos h]
      exact (SortedMap.lookup_cons wanted (name, v) entries).trans (if_pos h.symm)
    · rw [if_neg h]
      exact (SortedMap.lookup_cons wanted (name, v) entries).trans (if_neg fun heq => h heq.symm)

end Members

/-! ## What a document has under a name -/

theorem json_code (error : YtError) :
    (error.toJson.get "code").bind Json.asI64 = error.code.map Int64.toInt := by
  obtain ⟨code, message, attributes, inner⟩ := error
  rw [toJson, List.append_assoc, List.append_assoc, get_member, if_neg (by decide), get_member,
    if_pos rfl]
  cases code with
  | some code =>
    have hrange : -9223372036854775808 ≤ code.toInt ∧ code.toInt < 9223372036854775808 :=
      ⟨code.le_toInt, code.toInt_lt⟩
    exact if_pos hrange
  | none =>
    have hnone : Json.get "code" (.object (member "inner_errors" (innerJson inner) ++
        member "message" (message.map .string))) = none := by
      rw [get_member, if_neg (by decide), ← List.append_nil (member "message" _), get_member,
        if_neg (by decide)]
      rfl
    rw [Option.map_none, Option.none_or, hnone]
    rfl

theorem json_message (error : YtError) :
    (error.toJson.get "message").bind Json.asStr = error.message := by
  obtain ⟨code, message, attributes, inner⟩ := error
  rw [toJson, List.append_assoc, List.append_assoc, get_member, if_neg (by decide), get_member,
    if_neg (by decide), get_member, if_neg (by decide), ← List.append_nil (member "message" _),
    get_member, if_pos rfl]
  cases message <;> rfl

theorem yson_code (error : YtError) :
    (field error.toYson "code").bind asI64 = error.code := by
  obtain ⟨code, message, attributes, inner⟩ := error
  show (SortedMap.lookup (asBytes "code") _).bind asI64 = _
  rw [List.append_assoc, List.append_assoc, lookup_member, if_neg (by decide), lookup_member,
    if_pos rfl]
  cases code with
  | some code => rfl
  | none =>
    have hnone : SortedMap.lookup (asBytes "code") (member (asBytes "inner_errors")
        (innerYson inner) ++ member (asBytes "message")
          (message.map fun text => YsonValue.bare (.string (asBytes text)))) = none := by
      rw [lookup_member, if_neg (by decide), ← List.append_nil (member (asBytes "message") _),
        lookup_member, if_neg (by decide)]
      rfl
    rw [Option.map_none, Option.none_or, hnone]
    rfl

/-- A YSON message, by either way of making a text of its bytes. -/
theorem yson_message (error : YtError) {read : YsonValue → Option String}
    (hread : ∀ text, read (.bare (.string (asBytes text))) = some text) :
    (field error.toYson "message").bind read = error.message := by
  obtain ⟨code, message, attributes, inner⟩ := error
  show (SortedMap.lookup (asBytes "message") _).bind read = _
  rw [List.append_assoc, List.append_assoc, lookup_member, if_neg (by decide), lookup_member,
    if_neg (by decide), lookup_member, if_neg (by decide),
    ← List.append_nil (member (asBytes "message") _), lookup_member, if_pos rfl]
  cases message with
  | none => rfl
  | some text => exact hread text

theorem asStr_text (text : String) : asStr (.bare (.string (asBytes text))) = some text :=
  Utf8.fromUtf8_asBytes text

theorem jobs_text (text : String) : Jobs.text (.bare (.string (asBytes text))) = some text :=
  congrArg some (Utf8.fromUtf8Lossy_asBytes text)

/-! ## The walks -/

theorem json_inner (error : YtError) : error.toJson.innermostMessage =
    (innerJson error.inner).bind Json.innermostOfFirst := by
  have hfields : ∀ fields, Json.innermostOfFields fields =
      (Json.get "inner_errors" (.object fields)).bind Json.innermostOfFirst := by
    intro fields
    induction fields with
    | nil => rfl
    | cons entry fields ih =>
      obtain ⟨name, value⟩ := entry
      have hcons : Json.get "inner_errors" (.object (member name (some value) ++ fields)) = _ :=
        get_member (some value) fields
      rw [Json.innermostOfFields]
      refine Eq.trans ?_ (congrArg (Option.bind · Json.innermostOfFirst) hcons).symm
      by_cases h : name = "inner_errors"
      · rw [if_pos h, if_pos h]
        rfl
      · rw [if_neg h, if_neg h]
        exact ih
  obtain ⟨code, message, attributes, inner⟩ := error
  rw [toJson, Json.innermostMessage, hfields, List.append_assoc, List.append_assoc, get_member,
    if_neg (by decide), get_member, if_neg (by decide), get_member, if_pos rfl,
    ← List.append_nil (member "message" _), get_member, if_neg (by decide)]
  exact congrArg (Option.bind · Json.innermostOfFirst) (Option.or_none)

mutual

theorem json_innermost : ∀ error : YtError, error.toJson.innermostMessage = error.innermost
  | .mk code message attributes inner => by
    rw [json_inner, innermost]
    exact json_innermostInner inner

theorem json_innermostInner : ∀ inner : Option (List YtError),
    (innerJson inner).bind Json.innermostOfFirst = innermostInner inner
  | none => rfl
  | some errors => json_innermostFirst errors

theorem json_innermostFirst : ∀ errors : List YtError,
    Json.innermostOfFirst (.array (jsons errors)) = innermostFirst errors
  | [] => rfl
  | error :: errors => by
    rw [jsons, Json.innermostOfFirst, json_innermost error, json_message, innermostFirst]

end

/-- What a walk makes of the list under `inner_errors`. -/
def firstOf (read walk : YsonValue → Option String) : YsonValue → Option String
  | ⟨_, .list (first :: _)⟩ => (walk first).or ((field first "message").bind read)
  | _ => none

/-- A walk down a YSON document, whichever way it reads texts. -/
def IsWalk (read walk : YsonValue → Option String) : Prop :=
  ∀ entries, walk (.bare (.map entries)) =
    (SortedMap.lookup (asBytes "inner_errors") entries).bind (firstOf read walk)

theorem batch_isWalk : IsWalk asStr innermostMessage := by
  have hfirst : innermostOfFirst = firstOf asStr innermostMessage := by
    funext value
    rw [innermostOfFirst.eq_def]
    rfl
  intro entries
  show innermostMessage ⟨none, .map entries⟩ = _
  rw [innermostMessage]
  induction entries with
  | nil => rfl
  | cons entry entries ih =>
    obtain ⟨name, value⟩ := entry
    rw [innermostOfEntries, SortedMap.lookup_cons, hfirst]
    by_cases h : name = asBytes "inner_errors"
    · rw [if_pos h, if_pos h.symm]
      rfl
    · rw [if_neg h, if_neg fun heq => h heq.symm]
      exact ih

theorem jobs_isWalk : IsWalk Jobs.text Jobs.innermostMessage := by
  have hfirst : Jobs.innermostOfFirst = firstOf Jobs.text Jobs.innermostMessage := by
    funext value
    rw [Jobs.innermostOfFirst.eq_def]
    rfl
  intro entries
  show Jobs.innermostMessage ⟨none, .map entries⟩ = _
  rw [Jobs.innermostMessage]
  induction entries with
  | nil => rfl
  | cons entry entries ih =>
    obtain ⟨name, value⟩ := entry
    rw [Jobs.innermostOfEntries, SortedMap.lookup_cons, hfirst]
    by_cases h : name = asBytes "inner_errors"
    · rw [if_pos h, if_pos h.symm]
      rfl
    · rw [if_neg h, if_neg fun heq => h heq.symm]
      exact ih

section Walk

variable {read walk : YsonValue → Option String}

theorem yson_inner (hwalk : IsWalk read walk) (error : YtError) :
    walk error.toYson = (innerYson error.inner).bind (firstOf read walk) := by
  obtain ⟨code, message, attributes, inner⟩ := error
  rw [toYson, hwalk, List.append_assoc, List.append_assoc, lookup_member, if_neg (by decide),
    lookup_member, if_neg (by decide), lookup_member, if_pos rfl,
    ← List.append_nil (member (asBytes "message") _), lookup_member, if_neg (by decide)]
  exact congrArg (Option.bind · (firstOf read walk)) (Option.or_none)

mutual

theorem yson_innermost (hwalk : IsWalk read walk)
    (hread : ∀ text, read (.bare (.string (asBytes text))) = some text) :
    ∀ error : YtError, walk error.toYson = error.innermost
  | .mk code message attributes inner => by
    rw [yson_inner hwalk, innermost]
    exact yson_innermostInner hwalk hread inner

theorem yson_innermostInner (hwalk : IsWalk read walk)
    (hread : ∀ text, read (.bare (.string (asBytes text))) = some text) :
    ∀ inner : Option (List YtError),
      (innerYson inner).bind (firstOf read walk) = innermostInner inner
  | none => rfl
  | some errors => yson_innermostFirst hwalk hread errors

theorem yson_innermostFirst (hwalk : IsWalk read walk)
    (hread : ∀ text, read (.bare (.string (asBytes text))) = some text) :
    ∀ errors : List YtError,
      firstOf read walk (.bare (.list (ysons errors))) = innermostFirst errors
  | [] => rfl
  | error :: errors => by
    show (walk error.toYson).or ((field error.toYson "message").bind read) = _
    rw [yson_innermost hwalk hread error, yson_message error hread, innermostFirst]

end

end Walk

end YtError

/-! ## The readers -/

section Readers

variable [FloatText] [JsonText]

open YtError

omit [JsonText] in
theorem partError_toYson (command : String) (error : YtError) :
    ∃ raw, partError command error.toYson = .cluster command
      ((error.code.map Int64.toInt).getD (-1))
      (joined (error.message.getD "(no message)") error.innermost) raw := by
  refine ⟨(toText error.toYson).toOption.getD "", ?_⟩
  unfold partError
  rw [yson_code, yson_message error asStr_text, yson_innermost batch_isWalk asStr_text]
  rfl

omit [FloatText] in
theorem fromYtError_toJson (command : String) (status : Nat) {raw : String} {error : YtError}
    (h : JsonText.parse raw = some error.toJson) :
    ClientError.fromYtError command status raw = .cluster command
      ((error.code.map Int64.toInt).getD (-1))
      (joined (error.message.getD "(no message)") error.innermost) raw := by
  unfold ClientError.fromYtError
  rw [h]
  dsimp only
  rw [json_code, json_message, json_innermost]
  unfold joined
  cases error.innermost with
  | none => rfl
  | some inner =>
    dsimp only
    split <;> rfl

omit [FloatText] in
/-- What is no JSON is reported as it stands. -/
theorem fromYtError_none (command : String) (status : Nat) {raw : String}
    (h : JsonText.parse raw = none) :
    ClientError.fromYtError command status raw = .http command status (truncate raw 400) := by
  unfold ClientError.fromYtError
  rw [h]

omit [FloatText] [JsonText] in
theorem errorSummary_toYson (error : YtError) :
    Jobs.errorSummary error.toYson =
      error.message.map fun message => joined message error.innermost := by
  unfold Jobs.errorSummary
  rw [yson_message error jobs_text, yson_innermost jobs_isWalk jobs_text]
  rfl

/-! ### How deep a document is -/

mutual

/-- How many arrays and objects are around the innermost value. -/
def Json.depth : Json → Nat
  | .array items => itemsDepth items + 1
  | .object fields => fieldsDepth fields + 1
  | _ => 0

def itemsDepth : List Json → Nat
  | [] => 0
  | item :: items => max item.depth (itemsDepth items)

def fieldsDepth : List (String × Json) → Nat
  | [] => 0
  | (_, value) :: fields => max value.depth (fieldsDepth fields)

end

/-- The levels of arrays and objects that `serde_json` takes; at one more it refuses the text. -/
def recursionLimit : Nat := 127

/-- What `serde_json::from_str` makes of a text that spells a document: the document, unless it
nests too deeply. -/
structure JsonText.Reads (Spells : String → Json → Prop) : Prop where
  within {raw : String} {value : Json} (h : Spells raw value)
    (hdepth : value.depth ≤ recursionLimit) : JsonText.parse raw = some value
  beyond {raw : String} {value : Json} (h : Spells raw value)
    (hdepth : recursionLimit < value.depth) : JsonText.parse raw = none

/-- The two readers of YSON make this code and this message of an error. The summary of a job has
no text of its own for an error without a message, and says nothing then. -/
def AnswersSay (command : String) (error : YtError) (code : Int) (message : String) : Prop :=
  (∃ raw, partError command error.toYson = .cluster command code message raw) ∧
    (error.message.isSome → Jobs.errorSummary error.toYson = some message)

/-- The three readers find the same code and the same message. -/
def ReadersAgree (command : String) (status : Nat) (error : YtError) (raw : String) : Prop :=
  ∃ code message, AnswersSay command error code message ∧
    ClientError.fromYtError command status raw = .cluster command code message raw

/-- **The error readers agree** on every tree and every text that spells it, the header's reader as
far as the document is within the limit; beyond it the header is reported as it stands. -/
theorem error_readers_agree {Spells : String → Json → Prop} (hreads : JsonText.Reads Spells)
    (command : String) (status : Nat) (error : YtError) {raw : String}
    (hraw : Spells raw error.toJson) :
    ∃ code message, AnswersSay command error code message ∧
      (error.toJson.depth ≤ recursionLimit →
        ClientError.fromYtError command status raw = .cluster command code message raw) ∧
      (recursionLimit < error.toJson.depth →
        ClientError.fromYtError command status raw =
          .http command status (truncate raw 400)) := by
  refine ⟨_, _, ⟨partError_toYson command error, ?_⟩, ?_, ?_⟩
  · intro hmessage
    obtain ⟨message, hsome⟩ := Option.isSome_iff_exists.mp hmessage
    rw [errorSummary_toYson, hsome]
    rfl
  · intro hdepth
    exact fromYtError_toJson command status (hreads.within hraw hdepth)
  · intro hdepth
    exact fromYtError_none command status (hreads.beyond hraw hdepth)

end Readers

/-! ### Errors inside errors -/

/-- `n` errors around one. -/
def chain : Nat → YtError
  | 0 => .mk (some 1) (some "cause") none none
  | n + 1 => .mk (some 500) (some "outer") none (some [chain n])

def causeText : String := "\x7b\"code\":1,\"message\":\"cause\"\x7d"

def opening : String := "\x7b\"code\":500,\"inner_errors\":["

def closing : String := "],\"message\":\"outer\"\x7d"

/-- The header that says so. -/
def chainText : Nat → String
  | 0 => causeText
  | n + 1 => opening ++ chainText n ++ closing

theorem chain_depth (n : Nat) : (chain n).toJson.depth = 2 * n + 1 := by
  induction n with
  | zero => rfl
  | succ n ih =>
    have hdepth : (chain (n + 1)).toJson.depth = max (max (chain n).toJson.depth 0 + 1) 0 + 1 := by
      rfl
    rw [hdepth, ih]
    omega

/-- A text has as many objects as opening braces. -/
def braces (text : String) : Nat := (text.toList.filter (· == '\x7b')).length

theorem braces_append (front back : String) :
    braces (front ++ back) = braces front + braces back := by
  unfold braces
  rw [String.toList_append, List.filter_append, List.length_append]

theorem braces_causeText : braces causeText = 1 := by decide +kernel

theorem braces_opening : braces opening = 1 := by decide +kernel

theorem braces_closing : braces closing = 0 := by decide +kernel

theorem braces_chainText (n : Nat) : braces (chainText n) = n + 1 := by
  induction n with
  | zero => exact braces_causeText
  | succ n ih =>
    rw [chainText, braces_append, braces_append, ih, braces_opening, braces_closing]
    exact Nat.add_comm 1 (n + 1)

/-- A parser that knows these texts, and refuses the ones that `serde_json` refuses. -/
@[reducible] def chainJsonText : JsonText where
  parse text :=
    let n := braces text - 1
    if text = chainText n ∧ (chain n).toJson.depth ≤ recursionLimit then some (chain n).toJson
    else none

def SpellsChain (raw : String) (value : Json) : Prop :=
  ∃ n, raw = chainText n ∧ value = (chain n).toJson

theorem chain_reads : @JsonText.Reads chainJsonText SpellsChain := by
  have hparse (n : Nat) : @JsonText.parse chainJsonText (chainText n) =
      if (chain n).toJson.depth ≤ recursionLimit then some (chain n).toJson else none := by
    show (if chainText n = chainText (braces (chainText n) - 1) ∧
        (chain (braces (chainText n) - 1)).toJson.depth ≤ recursionLimit then _ else _) = _
    rw [braces_chainText, Nat.add_sub_cancel]
    simp only [true_and]
  refine @JsonText.Reads.mk chainJsonText SpellsChain ?_ ?_
  · intro raw value h hdepth
    obtain ⟨n, rfl, rfl⟩ := h
    rw [hparse, if_pos hdepth]
  · intro raw value h hdepth
    obtain ⟨n, rfl, rfl⟩ := h
    rw [hparse, if_neg (Nat.not_le_of_lt hdepth)]

/-- The deepest chain that is read, and the first that is not. -/
theorem error_readers_agree_chain :
    @ReadersAgree Yson.plainFloatText chainJsonText "get" 400 (chain 63) (chainText 63) ∧
      @ClientError.fromYtError chainJsonText "get" 400 (chainText 64) =
        .http "get" 400 (truncate (chainText 64) 400) := by
  constructor
  · obtain ⟨code, message, hanswers, hwithin, -⟩ := @error_readers_agree Yson.plainFloatText
      chainJsonText _ chain_reads "get" 400 (chain 63) (chainText 63) ⟨63, rfl, rfl⟩
    refine ⟨code, message, hanswers, hwithin ?_⟩
    rw [chain_depth]
    decide
  · obtain ⟨code, message, -, -, hbeyond⟩ := @error_readers_agree Yson.plainFloatText
      chainJsonText _ chain_reads "get" 400 (chain 64) (chainText 64) ⟨64, rfl, rfl⟩
    apply hbeyond
    rw [chain_depth]
    decide

/-- Sixty-four errors around one: two readers find code 500 and the cause, the header's none. -/
theorem readers_disagree_deep :
    @JsonText.Reads chainJsonText SpellsChain ∧ SpellsChain (chainText 64) (chain 64).toJson ∧
      ¬ @ReadersAgree Yson.plainFloatText chainJsonText "get" 400 (chain 64) (chainText 64) := by
  refine ⟨chain_reads, ⟨64, rfl, rfl⟩, ?_⟩
  intro hagree
  obtain ⟨code, message, -, hheader⟩ := hagree
  have hdepth : recursionLimit < (chain 64).toJson.depth := by
    rw [chain_depth]
    decide
  rw [@fromYtError_none chainJsonText "get" 400 _
    (@JsonText.Reads.beyond chainJsonText _ chain_reads _ _ ⟨64, rfl, rfl⟩ hdepth)] at hheader
  cases hheader

end Ytsaurus.Client
