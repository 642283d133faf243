import Ytsaurus.Client.Batch
import Ytsaurus.Lib.ExceptList
import Ytsaurus.Proof.Client.Call

/-!
# `Proof/Client/Batch.lean` — every answer belongs to its part

A piece of a batch is answered by the items of its own response, one for each part in order
(`Answered`), and the answers of a batch are those of its pieces put together (`Paired`). What
the loop over the pieces keeps is said once, in `answerChunks_spec`, with the answers so far as
an accumulator; both ways in which it ends are read off that.

Nothing in a response names the part it answers. An item belongs to a part by its place alone, so a
response with one item too few would shift every answer behind the gap; `parse_results` counts
them first, and `parseResults_miscounted` is what rests on that.

The requests are commands like any other, so what is known of one command (`OneMutation`) is known
of each of them: a request that is repeated is repeated as it was, under one id. An id of the
caller's can be an id of one request only, and goes with a batch that is one.
-/

set_option autoImplicit false

namespace Ytsaurus.Client

open Yson (YsonValue FloatText)
open Utf8 (asBytes)

/-! ## What an answer is -/

/-- What one item of a response says about the part it belongs to. -/
inductive Answers [FloatText] (part : BatchPart) (item : YsonValue) :
    Except ClientError YsonValue → Prop where
  | failed {document : YsonValue} (h : item.node = .map [(asBytes "error", document)]) :
      Answers part item (.error (partError part.command document))
  | succeeded {output : YsonValue} (h : item.node = .map [(asBytes "output", output)])
      (hkey : ∀ key, part.output = .keyed key → (field output key).isSome) :
      Answers part item (.ok output)
  | empty (h : item.node = .map []) (hkey : part.output = .unchecked) :
      Answers part item (.ok YsonBuild.emptyMap)

/-- A dict of one entry that holds something under a name holds nothing else. -/
theorem field_single {value held : YsonValue} {name : String}
    {entries : List (List UInt8 × YsonValue)} (hnode : value.node = .map entries)
    (hone : entries.length = 1) (hheld : field value name = some held) :
    value.node = .map [(asBytes name, held)] := by
  obtain ⟨entry, rfl⟩ := List.length_eq_one_iff.mp hone
  unfold field at hheld
  rw [hnode] at hheld
  dsimp only at hheld
  rw [SortedMap.lookup_cons] at hheld
  by_cases hname : asBytes name = entry.1
  · rw [if_pos hname] at hheld
    cases hheld
    rw [hnode, hname]
  · cases (if_neg hname).symm.trans hheld

section

variable [FloatText]

/-- **An item is read as what it says.** -/
theorem partResult_ok {item : YsonValue} {part : BatchPart} {answer : Except ClientError YsonValue}
    (h : partResult item part = .ok answer) : Answers part item answer := by
  unfold partResult at h
  cases hnode : item.node with
  | map entries =>
    rw [hnode] at h
    dsimp only at h
    split at h
    · rename_i error herror hnone hone
      cases h
      exact .failed (field_single hnode hone herror)
    · rename_i output hnone houtput hone
      cases hkeyed : part.output with
      | keyed key =>
        rw [hkeyed] at h
        dsimp only at h
        by_cases hmissing : (field output key).isNone = true
        · cases (if_pos hmissing).symm.trans h
        · cases (if_neg hmissing).symm.trans h
          apply Answers.succeeded (field_single hnode hone houtput)
          intro other hother
          cases hkeyed.symm.trans hother
          exact Option.isSome_iff_ne_none.mpr fun hnone =>
            hmissing (Option.isNone_iff_eq_none.mpr hnone)
      | unchecked =>
        rw [hkeyed] at h
        cases h
        apply Answers.succeeded (field_single hnode hone houtput)
        intro other hother
        cases hkeyed.symm.trans hother
    · rename_i hzero
      by_cases hunchecked : part.output = .unchecked
      · cases (if_pos hunchecked).symm.trans h
        rw [List.eq_nil_of_length_eq_zero hzero] at hnode
        exact .empty hnode hunchecked
      · cases (if_neg hunchecked).symm.trans h
    · cases h
  | _ =>
    rw [hnode] at h
    cases h

/-- The errors of one request: none of them is that of an interrupted batch. -/
def BatchError.Plain : BatchError → Prop
  | .interrupted .. => False
  | _ => True

omit [FloatText] in
theorem plain_client (e : ClientError) : (BatchError.client e).Plain := trivial

theorem plain_partResult {item : YsonValue} {part : BatchPart} {e : BatchError}
    (h : partResult item part = .error e) : e.Plain := by
  unfold partResult at h
  split at h
  · split at h
    · cases h
    · split at h
      · split at h
        · cases h
          trivial
        · cases h
      · cases h
    · split at h
      · cases h
      · cases h
        trivial
    · cases h
      trivial
  · cases h
    trivial

theorem plain_resultItems {body : List UInt8} {e : BatchError}
    (h : resultItems body = .error e) : e.Plain := by
  unfold resultItems at h
  split at h
  · cases h
    trivial
  · split at h
    · split at h
      · cases h
        trivial
      · split at h
        · cases h
        · cases h
          trivial
    · cases h
      trivial

theorem plain_parseResults {body : List UInt8} {parts : List BatchPart} {e : BatchError}
    (h : parseResults body parts = .error e) : e.Plain := by
  unfold parseResults at h
  split at h
  · rename_i hitems
    cases h
    exact plain_resultItems hitems
  · split at h
    · cases h
      trivial
    · obtain ⟨pair, _, hpair⟩ := ExceptList.mapM_error h
      exact plain_partResult hpair

theorem plain_renderChunk {parts : List BatchPart} {concurrency : Option Int64}
    {transaction : Option String} {e : BatchError}
    (h : renderChunk parts concurrency transaction = .error e) : e.Plain := by
  unfold renderChunk at h
  split at h
  · cases h
    trivial
  · split at h
    · cases h
      trivial
    · cases h

/-- **A response with another number of answers than parts is refused.** -/
theorem parseResults_miscounted {body : List UInt8} {items : List YsonValue}
    {parts : List BatchPart} (hitems : resultItems body = .ok items)
    (hcount : items.length ≠ parts.length) :
    parseResults body parts = .error (.refused (.miscounted parts.length items.length)) := by
  unfold parseResults
  rw [hitems]
  exact if_pos hcount

theorem parseResults_ok {body : List UInt8} {parts : List BatchPart}
    {answers : List (Except ClientError YsonValue)} (h : parseResults body parts = .ok answers) :
    ∃ items, resultItems body = .ok items ∧ items.length = parts.length ∧
      List.Forall₂ (fun pair answer => Answers pair.2 pair.1 answer) (items.zip parts) answers := by
  unfold parseResults at h
  cases hitems : resultItems body with
  | error e =>
    rw [hitems] at h
    cases h
  | ok items =>
    rw [hitems] at h
    dsimp only at h
    by_cases hcount : items.length ≠ parts.length
    · cases (if_pos hcount).symm.trans h
    · replace h := (if_neg hcount).symm.trans h
      refine ⟨items, rfl, Decidable.not_not.mp hcount, ?_⟩
      exact (ExceptList.mapM_ok_iff.mp h).imp fun _ _ hpair => partResult_ok hpair

end

/-! ## The pieces -/

/-- The answers of a piece: one item of its own response for each of its parts, in order. -/
def Answered [FloatText] (piece : Piece) (answers : List (Except ClientError YsonValue)) : Prop :=
  ∃ body items, piece.called.result = .ok body ∧ resultItems body = .ok items ∧
    items.length = piece.parts.length ∧
    List.Forall₂ (fun pair answer => Answers pair.2 pair.1 answer) (items.zip piece.parts) answers

/-- The answers to `parts` are those of the pieces they were sent in, put together. -/
def Paired [FloatText] (pieces : List Piece) (parts : List BatchPart)
    (answers : List (Except ClientError YsonValue)) : Prop :=
  (pieces.map Piece.parts).flatten = parts ∧
    ∃ answered, List.Forall₂ Answered pieces answered ∧ answered.flatten = answers

section

variable [FloatText]

theorem Answered.length {piece : Piece} {answers : List (Except ClientError YsonValue)}
    (h : Answered piece answers) : answers.length = piece.parts.length := by
  obtain ⟨_, items, _, _, hcount, hall⟩ := h
  rw [← hall.length_eq, List.length_zip, hcount, Nat.min_self]

/-- **There are as many answers as parts.** -/
theorem Paired.length {pieces : List Piece} {parts : List BatchPart}
    {answers : List (Except ClientError YsonValue)} (h : Paired pieces parts answers) :
    answers.length = parts.length := by
  obtain ⟨rfl, answered, hall, rfl⟩ := h
  induction hall with
  | nil => rfl
  | cons hfirst _ ih =>
    rw [List.flatten_cons, List.map_cons, List.flatten_cons, List.length_append, List.length_append,
      hfirst.length, ih]

theorem Paired.nil : Paired [] [] [] := ⟨rfl, [], .nil, rfl⟩

theorem Paired.cons {piece : Piece} {pieces : List Piece} {parts : List BatchPart}
    {first rest : List (Except ClientError YsonValue)} (hfirst : Answered piece first)
    (hrest : Paired pieces parts rest) :
    Paired (piece :: pieces) (piece.parts ++ parts) (first ++ rest) := by
  obtain ⟨rfl, answered, hall, rfl⟩ := hrest
  exact ⟨rfl, first :: answered, .cons hfirst hall, rfl⟩

end

/-! ## The requests -/

/-- The class of a part on its own. -/
def PartKind.repeatable : PartKind → Repeatable
  | .read => .freely
  | .masterMutation => .withMutationId
  | .raw => .never

/-- How cautious a class is. -/
def Repeatable.caution : Repeatable → Nat
  | .freely => 0
  | .withMutationId => 1
  | .never => 2
  | .heavy => 3

theorem BatchRequest.repeatable_ne_heavy (batch : BatchRequest) : batch.repeatable ≠ .heavy := by
  unfold BatchRequest.repeatable
  split
  · exact nofun
  · split <;> exact nofun

/-- **A batch is as cautious as its most cautious part.** -/
theorem BatchRequest.repeatable_cautious (batch : BatchRequest) :
    (∀ part ∈ batch.parts, part.kind.repeatable.caution ≤ batch.repeatable.caution) ∧
      (batch.parts ≠ [] → ∃ part ∈ batch.parts, part.kind.repeatable = batch.repeatable) := by
  unfold BatchRequest.repeatable
  by_cases hraw : batch.parts.any fun part => part.kind == .raw
  · rw [if_pos hraw]
    obtain ⟨part, hmem, hkind⟩ := List.any_eq_true.mp hraw
    refine ⟨?_, fun _ => ⟨part, hmem, by rw [eq_of_beq hkind]; rfl⟩⟩
    intro other _
    cases other.kind <;> decide
  · rw [if_neg hraw]
    have hnot : ∀ part ∈ batch.parts, part.kind ≠ .raw := by
      intro part hmem hkind
      exact hraw (List.any_eq_true.mpr ⟨part, hmem, beq_iff_eq.mpr hkind⟩)
    by_cases hmutation : batch.parts.any fun part => part.kind == .masterMutation
    · rw [if_pos hmutation]
      obtain ⟨part, hmem, hkind⟩ := List.any_eq_true.mp hmutation
      refine ⟨?_, fun _ => ⟨part, hmem, by rw [eq_of_beq hkind]; rfl⟩⟩
      intro other hother
      have := hnot other hother
      cases hk : other.kind with
      | raw => exact absurd hk this
      | read => decide
      | masterMutation => decide
    · rw [if_neg hmutation]
      have hread : ∀ part ∈ batch.parts, part.kind = .read := by
        intro part hmem
        cases hk : part.kind with
        | raw => exact absurd hk (hnot part hmem)
        | read => rfl
        | masterMutation =>
          refine absurd (List.any_eq_true.mpr ⟨part, hmem, ?_⟩) hmutation
          rw [hk]
          rfl
      refine ⟨?_, ?_⟩
      · intro part hmem
        rw [hread part hmem]
        exact Nat.le_refl 0
      · intro hsome
        obtain ⟨part, hmem⟩ := List.exists_mem_of_ne_nil _ hsome
        exact ⟨part, hmem, by rw [hread part hmem]; rfl⟩

theorem BatchRequest.maxPartSize_pos (batch : BatchRequest) : 1 ≤ batch.maxPartSize := by
  unfold BatchRequest.maxPartSize
  cases hgiven : batch.maxPartSizeGiven with
  | none => exact Nat.le_max_right _ _
  | some size => exact batch.positive size hgiven

theorem isDict_emptyMap : isDict YsonBuild.emptyMap := rfl

/-- What `execute_batch` is asked for a part: its command, its parameters with the transaction
of the client, and its input. -/
structure Asks (transaction : Option String) (part : BatchPart) (request : YsonValue) : Prop where
  command : field request "command" = some (YsonBuild.string part.command)
  parameters : ∃ parameters, field request "parameters" = some parameters ∧
    field parameters TRANSACTION_ID =
      (if takesNoTransaction part.command then field part.parameters TRANSACTION_ID
        else (field part.parameters TRANSACTION_ID).or (transaction.map YsonBuild.string)) ∧
    ∀ name, name ≠ TRANSACTION_ID → field parameters name = field part.parameters name
  input : field request "input" = part.input

/-- The transaction goes into the parameters of a part as into those of a command. -/
theorem partParameters_ok {transaction : Option String} {part : BatchPart} {parameters : YsonValue}
    (h : partParameters transaction part = .ok parameters) :
    field parameters TRANSACTION_ID =
        (if takesNoTransaction part.command then field part.parameters TRANSACTION_ID
          else (field part.parameters TRANSACTION_ID).or (transaction.map YsonBuild.string)) ∧
      ∀ name, name ≠ TRANSACTION_ID → field parameters name = field part.parameters name := by
  unfold partParameters at h
  cases transaction with
  | none =>
    cases h
    rw [Option.map_none, Option.or_none, ite_self]
    exact ⟨rfl, fun _ _ => rfl⟩
  | some id =>
    dsimp only at h
    by_cases htakes : takesNoTransaction part.command = true
    · rw [htakes, Bool.true_or, if_pos rfl] at h
      cases h
      rw [if_pos htakes]
      exact ⟨rfl, fun _ _ => rfl⟩
    · rw [if_neg htakes]
      by_cases hown : (field part.parameters TRANSACTION_ID).isSome = true
      · rw [hown, Bool.or_true, if_pos rfl] at h
        cases h
        obtain ⟨own, hown⟩ := Option.isSome_iff_exists.mp hown
        rw [hown, Option.some_or]
        exact ⟨rfl, fun _ _ => rfl⟩
      · have hneither : ¬ (takesNoTransaction part.command ||
            (field part.parameters TRANSACTION_ID).isSome) = true := by
          rw [Bool.or_eq_true]
          exact not_or.mpr ⟨htakes, hown⟩
        have hfield := YsonBuild.field_insert ((if_neg hneither).symm.trans h)
        rw [Option.not_isSome_iff_eq_none.mp hown]
        refine ⟨hfield TRANSACTION_ID, ?_⟩
        intro name hname
        rw [hfield name, if_neg hname]

theorem asks_partRequest {transaction : Option String} {part : BatchPart} {request : YsonValue}
    (h : partRequest transaction part = .ok request) : Asks transaction part request := by
  unfold partRequest at h
  cases hparameters : partParameters transaction part with
  | error e =>
    rw [hparameters] at h
    cases h
  | ok parameters =>
    rw [hparameters] at h
    dsimp only at h
    have hmap := YsonBuild.field_map [("command", YsonBuild.string part.command),
      ("parameters", parameters)]
    cases hin : part.input with
    | none =>
      rw [hin] at h
      cases h
      exact ⟨hmap _, ⟨parameters, hmap _, partParameters_ok hparameters⟩, (hmap _).trans hin.symm⟩
    | some input =>
      rw [hin] at h
      have hfield := YsonBuild.field_insert h
      exact ⟨(hfield _).trans (hmap _), ⟨parameters, (hfield _).trans (hmap _),
        partParameters_ok hparameters⟩, (hfield "input").trans hin.symm⟩

/-- The body of a request: the parts in order, each as it is asked for, and the concurrency. -/
structure Renders [FloatText] (parts : List BatchPart) (concurrency : Option Int64)
    (transaction : Option String) (body : List UInt8) : Prop where
  rendered : ∃ requests rendered text, List.Forall₂ (Asks transaction) parts requests ∧
    field rendered "requests" = some (YsonBuild.list requests) ∧
    field rendered "concurrency" = concurrency.map YsonBuild.int ∧
    toText rendered = .ok text ∧ body = asBytes text

theorem renders_of_renderChunk [FloatText] {parts : List BatchPart} {concurrency : Option Int64}
    {transaction : Option String} {body : List UInt8}
    (h : renderChunk parts concurrency transaction = .ok body) :
    Renders parts concurrency transaction body := by
  unfold renderChunk at h
  split at h
  · cases h
  · rename_i rendered hrendered
    split at h
    · cases h
    · rename_i text htext
      cases h
      obtain ⟨requests, hrequests, hchunk⟩ := ExceptList.bind_eq_ok.mp hrendered
      refine ⟨requests, rendered, text, ?_, ?_, ?_, htext, rfl⟩
      · exact (ExceptList.mapM_ok_iff.mp hrequests).imp fun _ _ => asks_partRequest
      · unfold chunkParameters at hchunk
        cases concurrency with
        | none =>
          cases hchunk
          exact YsonBuild.field_map _ _
        | some concurrency =>
          exact (YsonBuild.field_insert hchunk "requests").trans (YsonBuild.field_map _ _)
      · unfold chunkParameters at hchunk
        cases concurrency with
        | none =>
          cases hchunk
          exact YsonBuild.field_map _ _
        | some concurrency => exact YsonBuild.field_insert hchunk "concurrency"

/-! ## The loop -/

section

variable [FloatText] [JsonText]

/-- A request of a batch: it has no more parts than the batch allows, its body is those parts,
and it is one command that is repeated as the whole batch may be. -/
structure Sends (t : Transport) (batch : BatchRequest) (mutationId : Option MutationId)
    (piece : Piece) : Prop where
  fits : piece.parts.length ≤ batch.maxPartSize
  rendered : Renders piece.parts batch.concurrency t.transaction piece.body
  called : ∃ (around : Around) (network : Nat → Nat → Hop) (stamped : YsonValue)
      (failures : List ClientError) (last : Except ClientError (List UInt8)),
    Stamps t "execute_batch" YsonBuild.emptyMap stamped ∧
      OneMutation t network t.base .post "execute_batch" stamped (.bytes piece.body)
        batch.repeatable (mutationIdFor batch.repeatable mutationId around.first around.second)
        piece.called failures last

namespace Transport

variable {t : Transport} {batch : BatchRequest} {mutationId : Option MutationId}

/-- **One request of a batch** is answered part by part, or it fails; either way it was sent with
the parts of its chunk, or not at all. -/
theorem answerChunk_spec (t : Transport) (ambient : Ambient) (batch : BatchRequest)
    (mutationId : Option MutationId) {chunk : List BatchPart}
    (hfits : chunk.length ≤ batch.maxPartSize) :
    (∀ piece, (t.answerChunk ambient batch mutationId chunk).2 = some piece →
        piece.parts = chunk ∧ Sends t batch mutationId piece) ∧
      (∀ answers, (t.answerChunk ambient batch mutationId chunk).1 = .ok answers →
        ∃ piece, (t.answerChunk ambient batch mutationId chunk).2 = some piece ∧
          Answered piece answers) ∧
      ∀ e, (t.answerChunk ambient batch mutationId chunk).1 = .error e → e.Plain := by
  unfold answerChunk
  cases hbody : renderChunk chunk batch.concurrency t.transaction with
  | error e =>
    refine ⟨?_, ?_, ?_⟩
    · intro piece hpiece
      cases hpiece
    · intro answers hanswers
      cases hanswers
    · intro e' he'
      cases he'
      exact plain_renderChunk hbody
  | ok body =>
    dsimp only
    obtain ⟨stamped, failures, last, hstamps, hmutation⟩ := t.callWith_retried ambient.around
      ambient.network .post "execute_batch" (.bytes body) batch.repeatable mutationId
      isDict_emptyMap
      (t.baseFor_light batch.repeatable_ne_heavy ambient.heavy ambient.around.asking)
    generalize t.callWith ambient.around ambient.network .post "execute_batch" _ _ _ _ _ = called
      at hmutation ⊢
    have hsends : Sends t batch mutationId ⟨chunk, body, called⟩ :=
      ⟨hfits, renders_of_renderChunk hbody, ambient.around, ambient.network, stamped, failures,
        last, hstamps, hmutation⟩
    cases hresult : called.result with
    | error e =>
      refine ⟨?_, ?_, ?_⟩
      · intro piece hpiece
        cases hpiece
        exact ⟨rfl, hsends⟩
      · intro answers hanswers
        cases hanswers
      · intro e' he'
        cases he'
        trivial
    | ok answer =>
      refine ⟨?_, ?_, ?_⟩
      · intro piece hpiece
        cases hpiece
        exact ⟨rfl, hsends⟩
      · intro answers hanswers
        obtain ⟨items, hitems, hcount, hall⟩ := parseResults_ok hanswers
        exact ⟨_, rfl, answer, items, hresult, hitems, hcount, hall⟩
      · intro e he
        exact plain_parseResults he

/-- How the loop over the chunks ends, `results` being the answers so far. -/
inductive Ends (batch : BatchRequest) (chunks : List (List BatchPart))
    (results : List (Except ClientError YsonValue)) :
    Except BatchError (List (Except ClientError YsonValue)) → List Piece → Prop where
  | done {pieces : List Piece} {answers : List (Except ClientError YsonValue)}
      (hparts : pieces.map Piece.parts = chunks) (hpaired : Paired pieces chunks.flatten answers) :
      Ends batch chunks results (.ok (results ++ answers)) pieces
  | failed {pieces : List Piece} {answers : List (Except ClientError YsonValue)}
      {done rest : List (List BatchPart)} {chunk : List BatchPart} {last : Option Piece}
      {cause : BatchError} (hchunks : chunks = done ++ chunk :: rest)
      (hparts : pieces.map Piece.parts = done) (hpaired : Paired pieces done.flatten answers)
      (hlast : ∀ piece, last = some piece → piece.parts = chunk) (hplain : cause.Plain) :
      Ends batch chunks results
        (.error (if (results ++ answers).isEmpty then cause
          else .interrupted (results ++ answers) batch.parts.length cause))
        (pieces ++ last.toList)

/-- **The loop over the chunks.** -/
theorem answerChunks_spec (t : Transport) (ambient : Nat → Ambient) (batch : BatchRequest)
    (mutationId : Option MutationId) {chunks : List (List BatchPart)}
    (hfit : ∀ chunk ∈ chunks, chunk.length ≤ batch.maxPartSize) (n : Nat)
    (results : List (Except ClientError YsonValue)) :
    Ends batch chunks results (t.answerChunks ambient batch mutationId n chunks results).1
        (t.answerChunks ambient batch mutationId n chunks results).2 ∧
      ∀ piece ∈ (t.answerChunks ambient batch mutationId n chunks results).2,
        Sends t batch mutationId piece := by
  induction chunks generalizing n results with
  | nil =>
    refine ⟨?_, List.forall_mem_nil _⟩
    have hdone : Ends batch [] results (.ok (results ++ [])) [] := .done rfl Paired.nil
    rw [List.append_nil] at hdone
    exact hdone
  | cons chunk chunks ih =>
    obtain ⟨hsent, hanswered, hplain⟩ := t.answerChunk_spec (ambient n) batch mutationId
      (hfit chunk List.mem_cons_self)
    unfold answerChunks
    dsimp only
    generalize t.answerChunk (ambient n) batch mutationId chunk = answered at hsent hanswered hplain ⊢
    obtain ⟨result, sent⟩ := answered
    cases result with
    | error cause =>
      have hends : Ends batch (chunk :: chunks) results
          (.error (if (results ++ []).isEmpty then cause
            else .interrupted (results ++ []) batch.parts.length cause)) ([] ++ sent.toList) :=
        .failed rfl rfl Paired.nil (fun piece hpiece => (hsent piece hpiece).1) (hplain cause rfl)
      have hlog : ∀ piece ∈ sent.toList, Sends t batch mutationId piece := by
        intro piece hpiece
        exact (hsent piece (Option.mem_toList.mp hpiece)).2
      rw [List.append_nil, List.nil_append] at hends
      dsimp only
      by_cases hempty : results.isEmpty = true
      · rw [if_pos hempty] at hends ⊢
        exact ⟨hends, hlog⟩
      · rw [if_neg hempty] at hends ⊢
        exact ⟨hends, hlog⟩
    | ok answers =>
      obtain ⟨piece, rfl, hanswers⟩ := hanswered answers rfl
      obtain ⟨hparts, hpiece⟩ := hsent piece rfl
      subst hparts
      obtain ⟨hends, hlog⟩ := ih (fun chunk hchunk => hfit chunk (List.mem_cons_of_mem _ hchunk))
        (n + 1) (results ++ answers)
      dsimp only
      generalize t.answerChunks ambient batch mutationId (n + 1) chunks (results ++ answers) = rest
        at hends hlog ⊢
      obtain ⟨result, pieces⟩ := rest
      refine ⟨?_, ?_⟩
      · cases hends with
        | done hmore hpaired =>
          rw [List.append_assoc]
          exact .done (congrArg (piece.parts :: ·) hmore) (hpaired.cons hanswers)
        | @failed pieces more done rest failing last cause hchunks hmore hpaired hlast hplain =>
          rw [List.append_assoc]
          show Ends batch _ results _ ((piece :: pieces) ++ last.toList)
          exact .failed (congrArg (piece.parts :: ·) hchunks) (congrArg (piece.parts :: ·) hmore)
            (hpaired.cons hanswers) hlast hplain
      · intro other hother
        rcases List.mem_cons.mp hother with rfl | hother
        · exact hpiece
        · exact hlog other hother

/-- What an interrupted batch reports: whole chunks were answered, from the first on, and their
answers are those of the first parts; of the others, at most the parts of the chunk that failed
were sent. -/
structure Interrupts (batch : BatchRequest) (pieces : List Piece)
    (answered : List (Except ClientError YsonValue)) (parts : Nat) : Prop where
  parts : parts = batch.parts.length
  prior : ∃ (done rest : List (List BatchPart)) (chunk : List BatchPart) (before : List Piece)
      (last : Option Piece),
    Chunks.chunks batch.maxPartSize batch.parts = done ++ chunk :: rest ∧ done ≠ [] ∧
      pieces = before ++ last.toList ∧ before.map Piece.parts = done ∧
      Paired before (batch.parts.take answered.length) answered ∧
      ∀ piece, last = some piece → piece.parts = chunk

/-- A batch that is sent at all is the loop over its chunks. -/
theorem executeBatchWith_cases (t : Transport) (ambient : Nat → Ambient) (batch : BatchRequest)
    (mutationId : Option MutationId) :
    (∃ e : BatchError, e.Plain ∧ t.executeBatchWith ambient batch mutationId = (.error e, [])) ∨
      batch.parts ≠ [] ∧ (mutationId.isSome → batch.parts.length ≤ batch.maxPartSize) ∧
        t.executeBatchWith ambient batch mutationId =
          t.answerChunks ambient batch mutationId 0
            (Chunks.chunks batch.maxPartSize batch.parts) [] := by
  unfold executeBatchWith
  by_cases hempty : batch.parts.isEmpty = true
  · rw [if_pos hempty]
    exact .inl ⟨_, plain_client _, rfl⟩
  · rw [if_neg hempty]
    by_cases hsplit : (mutationId.isSome && decide (batch.maxPartSize < batch.parts.length)) = true
    · rw [if_pos hsplit]
      exact .inl ⟨_, plain_client _, rfl⟩
    · rw [if_neg hsplit]
      refine .inr ⟨fun hnil => hempty (by rw [hnil]; rfl), ?_, rfl⟩
      intro hsome
      rw [hsome, Bool.true_and, decide_eq_true_eq] at hsplit
      exact Nat.le_of_not_lt hsplit

section

variable {chunks : List (List BatchPart)} {pieces : List Piece}
  {result : Except BatchError (List (Except ClientError YsonValue))}

omit [JsonText] in
theorem Ends.interrupts (h : Ends batch (Chunks.chunks batch.maxPartSize batch.parts) [] result
      pieces) (hflatten : (Chunks.chunks batch.maxPartSize batch.parts).flatten = batch.parts)
    {answered : List (Except ClientError YsonValue)} {parts : Nat} {cause : BatchError}
    (hresult : result = .error (.interrupted answered parts cause)) :
    Interrupts batch pieces answered parts := by
  cases h with
  | done _ _ => cases hresult
  | @failed before more done rest chunk last why hchunks hparts hpaired hlast hplain =>
    rw [List.nil_append] at hresult
    by_cases hempty : more.isEmpty = true
    · rw [if_pos hempty] at hresult
      cases hresult
      exact hplain.elim
    · rw [if_neg hempty] at hresult
      cases hresult
      refine ⟨rfl, done, rest, chunk, before, last, hchunks, ?_, rfl, hparts, ?_, hlast⟩
      · rintro rfl
        exact hempty (List.isEmpty_iff.mpr (List.eq_nil_of_length_eq_zero hpaired.length))
      · -- the chunks that were answered are the first parts
        have hfront : batch.parts = done.flatten ++ (chunk :: rest).flatten := by
          rw [← List.flatten_append, ← hchunks, hflatten]
        have htake : batch.parts.take answered.length = done.flatten := by
          rw [hfront]
          exact List.take_left' hpaired.length.symm
        rw [htake]
        exact hpaired

omit [JsonText] in
/-- A failure that is reported as it is has answered nothing before it. -/
theorem Ends.few (h : Ends batch chunks [] result pieces) (hnonempty : ∀ chunk ∈ chunks, chunk ≠ [])
    {e : BatchError} (hresult : result = .error e) (hplain : e.Plain) : pieces.length ≤ 1 := by
  cases h with
  | done _ _ => cases hresult
  | @failed before more done rest chunk last cause hchunks hparts hpaired _ _ =>
    rw [List.nil_append] at hresult
    by_cases hempty : more.isEmpty = true
    · have hnone : done.flatten = [] := by
        apply List.eq_nil_of_length_eq_zero
        rw [← hpaired.length, List.isEmpty_iff.mp hempty]
        rfl
      have hdone : done = [] := by
        cases done with
        | nil => rfl
        | cons first others =>
          rw [List.flatten_cons] at hnone
          refine absurd (List.append_eq_nil_iff.mp hnone).1 (hnonempty first ?_)
          rw [hchunks]
          exact List.mem_cons_self
      rw [hdone] at hparts
      rw [List.map_eq_nil_iff.mp hparts, List.nil_append]
      cases last with
      | none => exact Nat.zero_le 1
      | some piece => exact Nat.le_refl 1
    · rw [if_neg hempty] at hresult
      cases hresult
      exact hplain.elim

omit [JsonText] in
/-- A batch of one chunk is at most one request. -/
theorem Ends.whole (h : Ends batch chunks [] result pieces) {parts : List BatchPart}
    (hone : chunks = [parts]) {piece : Piece} (hpiece : piece ∈ pieces) :
    pieces = [piece] ∧ piece.parts = parts := by
  subst hone
  cases h with
  | done hparts _ =>
    obtain ⟨only, rfl, honly⟩ := List.map_eq_singleton_iff.mp hparts
    obtain rfl := List.mem_singleton.mp hpiece
    exact ⟨rfl, honly⟩
  | @failed before more done rest chunk last cause hchunks hparts _ hlast _ =>
    cases done with
    | nil =>
      cases hchunks
      obtain rfl := List.map_eq_nil_iff.mp hparts
      rw [List.nil_append] at hpiece ⊢
      have hsome := Option.mem_toList.mp hpiece
      rw [hsome]
      exact ⟨rfl, hlast piece hsome⟩
    | cons first others =>
      have hlength := congrArg List.length hchunks
      simp at hlength

end

/-- **Every answer of a batch is that of its own part.** Of a batch that is answered, whatever the
network does, the answers are as many as the parts, and each is read off the item of its part in
the response to the request its part was in. An interrupted batch reports the answers of whole
chunks, from the first part on, and has sent nothing behind the chunk that failed. A request
carries its parts in order, is repeated as the most cautious part of the batch allows, and carries
an id of the caller only if it is the whole batch. -/
theorem answers_belong (t : Transport) (ambient : Nat → Ambient) (batch : BatchRequest)
    (mutationId : Option MutationId) :
    (∀ answers, (t.executeBatchWith ambient batch mutationId).1 = .ok answers →
        Paired (t.executeBatchWith ambient batch mutationId).2 batch.parts answers ∧
          answers.length = batch.parts.length) ∧
      (∀ answered parts cause,
        (t.executeBatchWith ambient batch mutationId).1 =
            .error (.interrupted answered parts cause) →
          Interrupts batch (t.executeBatchWith ambient batch mutationId).2 answered parts) ∧
      (∀ e : BatchError, (t.executeBatchWith ambient batch mutationId).1 = .error e → e.Plain →
        (t.executeBatchWith ambient batch mutationId).2.length ≤ 1) ∧
      (∀ piece ∈ (t.executeBatchWith ambient batch mutationId).2,
        Sends t batch mutationId piece) ∧
      (mutationId.isSome → ∀ piece ∈ (t.executeBatchWith ambient batch mutationId).2,
        (t.executeBatchWith ambient batch mutationId).2 = [piece] ∧ piece.parts = batch.parts) ∧
      (∀ body items (parts : List BatchPart), resultItems body = .ok items →
        items.length ≠ parts.length →
        parseResults body parts = .error (.refused (.miscounted parts.length items.length))) ∧
      (∀ part ∈ batch.parts, part.kind.repeatable.caution ≤ batch.repeatable.caution) ∧
      (batch.parts ≠ [] → ∃ part ∈ batch.parts, part.kind.repeatable = batch.repeatable) := by
  have hpos := batch.maxPartSize_pos
  rcases t.executeBatchWith_cases ambient batch mutationId with
    ⟨e, hplain, hrun⟩ | ⟨hsome, hfits, hrun⟩
  · rw [hrun]
    refine ⟨?_, ?_, ?_, List.forall_mem_nil _, fun _ => List.forall_mem_nil _,
      fun _ _ _ => parseResults_miscounted, batch.repeatable_cautious⟩
    · intro answers hanswers
      cases hanswers
    · intro answered parts cause herror
      cases herror
      exact hplain.elim
    · intro _ _ _
      exact Nat.zero_le 1
  · rw [hrun]
    obtain ⟨hends, hsends⟩ := t.answerChunks_spec ambient batch mutationId
      (fun chunk hchunk => (Chunks.mem_chunks hpos hchunk).2) 0 []
    have hflatten := Chunks.chunks_flatten hpos batch.parts
    have hnonempty : ∀ chunk ∈ Chunks.chunks batch.maxPartSize batch.parts, chunk ≠ [] :=
      fun chunk hchunk => (Chunks.mem_chunks hpos hchunk).1
    have hone : mutationId.isSome →
        Chunks.chunks batch.maxPartSize batch.parts = [batch.parts] :=
      fun hid => Chunks.chunks_of_le hsome (hfits hid)
    generalize t.answerChunks ambient batch mutationId 0 _ [] = run at hends hsends ⊢
    obtain ⟨result, pieces⟩ := run
    refine ⟨?_, ?_, ?_, hsends, ?_, fun _ _ _ => parseResults_miscounted,
      batch.repeatable_cautious⟩
    · intro answers hanswers
      cases hends with
      | done hparts hpaired =>
        cases hanswers
        rw [hflatten] at hpaired
        exact ⟨hpaired, hpaired.length⟩
      | failed _ _ _ _ _ => cases hanswers
    · intro answered parts cause herror
      exact hends.interrupts hflatten herror
    · intro e herror hplain
      exact hends.few hnonempty herror hplain
    · intro hid piece hpiece
      exact hends.whole (hone hid) hpiece

end Transport

end

/-! ## A batch of three parts, two to a request -/

/-- One part is answered and the other refused. -/
def twoResults : List UInt8 :=
  asBytes ("\x7bresults=[\x7boutput=\x7bvalue=1\x7d\x7d;" ++
    "\x7berror=\x7bcode=500;message=refused\x7d\x7d]\x7d")

def oneResult : List UInt8 := asBytes "\x7bresults=[\x7b\x7d]\x7d"

def threeParts : BatchRequest :=
  (((BatchRequest.new.get "//a").exists "//b").remove "//c").withMaxPartSize 2

/-- The cluster answers the first request with `twoResults`, and those behind it as given. -/
def answeredThen (status : Nat) (body : List UInt8) (n : Nat) : Ambient where
  around := secondTimeAround
  network _ _ :=
    .answered <|
      if n = 0 then ⟨200, none, none, twoResults, none, .ok ""⟩
      else ⟨status, none, none, body, none, .ok ""⟩
  heavy := .unasked

/-- `threeParts`, with a second request that is answered so. -/
def threePartsRun (status : Nat) (body : List UInt8) :
    Except BatchError (List (Except ClientError YsonValue)) × List Piece :=
  @Transport.executeBatchWith Yson.plainFloatText ⟨fun _ => none⟩
    (.new ['a'] none true none false 0) (answeredThen status body) threeParts none

/-- What an interrupted batch keeps: which parts were answered, and how many there were. -/
def kept {α : Type} : Except BatchError α → Option (List Bool × Nat)
  | .error (.interrupted answered parts _) => some (answered.map Except.isOk, parts)
  | _ => none

theorem eq_interrupted {α : Type} {result : Except BatchError α} {oks : List Bool} {parts : Nat}
    (h : kept result = some (oks, parts)) :
    ∃ answered cause, result = .error (.interrupted answered parts cause) ∧
      answered.map Except.isOk = oks := by
  unfold kept at h
  split at h
  · cases h
    exact ⟨_, _, rfl, rfl⟩
  · cases h

/-- Each part is answered in its place, whichever request it went with. -/
example : (threePartsRun 200 oneResult).1.toOption.map (List.map Except.isOk) =
    some [true, false, true] := by
  decide +kernel

/-- The second request is refused: the two answers of the first are kept. -/
theorem threePartsRun_refused : kept (threePartsRun 400 []).1 = some ([true, false], 3) := by
  decide +kernel

theorem Transport.answers_belong_interrupted :
    ∃ answered cause,
      (threePartsRun 400 []).1 = .error (.interrupted answered 3 cause) ∧
        answered.map Except.isOk = [true, false] ∧
        @Interrupts Yson.plainFloatText threeParts (threePartsRun 400 []).2 answered 3 := by
  obtain ⟨answered, cause, hresult, hoks⟩ := eq_interrupted threePartsRun_refused
  refine ⟨answered, cause, hresult, hoks, ?_⟩
  exact (@Transport.answers_belong Yson.plainFloatText ⟨fun _ => none⟩ _ _ _ none).2.1
    answered 3 cause hresult

end Ytsaurus.Client
