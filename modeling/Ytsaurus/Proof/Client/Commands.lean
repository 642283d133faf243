import Ytsaurus.Client.Cypress
import Ytsaurus.Proof.Client.Call

/-!
# `Proof/Client/Commands.lean` — what one command of a script comes to

A `tell` or a `request` is one exchange, and its result is read off the answer. An answer is not
anything at all: when it is an error of the cluster, the error names the command that was sent
(`Blamed`), and where the transport carries an order out, that is how it is (`perform_blamed`).

This is less obvious than it looks. An error passes through the redirects, the retries and the
routing before anybody reads it, and each of them may put words of its own around it: a heavy
command reports a place behind its name. The uploads depend on it, since they decide by the name in
an error whether it was the cache that refused (`Proof/Client/FileCache.lean`).
-/

set_option autoImplicit false

namespace Ytsaurus.Client

open Dialogue

variable {order : Order} {said : List (Exchange Order Answer)}

theorem talk_tell_ok_iff {u : Unit} :
    Talk (tell order) said (.ok u) ↔ ∃ body, said = [(order, .ok body)] := by
  unfold tell
  rw [talk_ask_iff]
  constructor
  · intro h
    obtain ⟨answer, rest, rfl, h⟩ := h
    obtain ⟨rfl, hresult⟩ := talk_done_iff.mp h
    cases answer with
    | error e => cases hresult
    | ok body => exact ⟨body, rfl⟩
  · intro h
    obtain ⟨body, rfl⟩ := h
    exact ⟨.ok body, [], rfl, .done _⟩

theorem talk_tell_error_iff {failure : CallError} :
    Talk (tell order) said (.error failure) ↔
      ∃ e, said = [(order, .error e)] ∧ failure = .client e := by
  unfold tell
  rw [talk_ask_iff]
  constructor
  · intro h
    obtain ⟨answer, rest, rfl, h⟩ := h
    obtain ⟨rfl, hresult⟩ := talk_done_iff.mp h
    cases answer with
    | ok body => cases hresult
    | error e =>
      cases hresult
      exact ⟨e, rfl, rfl⟩
  · intro h
    obtain ⟨e, rfl, rfl⟩ := h
    exact ⟨.error e, [], rfl, .done _⟩

theorem talk_request_iff {r : Except CallError (List UInt8)} :
    Talk (request order) said r ↔ ∃ answer, said = [(order, answer)] ∧
      r = answer.mapError .client := by
  unfold request
  rw [talk_ask_iff]
  constructor
  · intro h
    obtain ⟨answer, rest, rfl, h⟩ := h
    obtain ⟨rfl, rfl⟩ := talk_done_iff.mp h
    exact ⟨answer, rfl, rfl⟩
  · intro h
    obtain ⟨answer, rfl, rfl⟩ := h
    exact ⟨answer, [], rfl, .done _⟩

theorem talk_request_ok_iff {body : List UInt8} :
    Talk (request order) said (.ok body) ↔ said = [(order, .ok body)] := by
  rw [talk_request_iff]
  constructor
  · intro h
    obtain ⟨answer, hsaid, hresult⟩ := h
    cases answer with
    | error e => cases hresult
    | ok body =>
      cases hresult
      exact hsaid
  · intro h
    exact ⟨.ok body, h, rfl⟩

theorem talk_request_error_iff {failure : CallError} :
    Talk (request order) said (.error failure) ↔
      ∃ e, said = [(order, .error e)] ∧ failure = .client e := by
  rw [talk_request_iff]
  constructor
  · intro h
    obtain ⟨answer, hsaid, hresult⟩ := h
    cases answer with
    | ok body => cases hresult
    | error e =>
      cases hresult
      exact ⟨e, hsaid, rfl⟩
  · intro h
    obtain ⟨e, hsaid, rfl⟩ := h
    exact ⟨.error e, hsaid, rfl⟩

/-! ## What an order names -/

@[simp] theorem asStr_string (text : String) : asStr (YsonBuild.string text) = some text :=
  Utf8.fromUtf8_asBytes text

section

variable (c : Client) (path : String)

@[simp] theorem target_createOrder (nodeType : String) :
    (c.createOrder nodeType path).target = some path := by
  simp [Client.createOrder, Order.target, YsonBuild.field_map]

@[simp] theorem target_removeOrder (recursive force : Bool) :
    (c.removeOrder path recursive force).target = some path := by
  simp [Client.removeOrder, Order.target, YsonBuild.field_map]

@[simp] theorem target_setOrder (name : String) (encoded : List UInt8) :
    (c.setOrder path name encoded).target = some (path ++ "/@" ++ name) := by
  simp [Client.setOrder, Order.target, YsonBuild.field_map]

@[simp] theorem target_writeFileOrder (contents : List UInt8) (computeMd5 : Bool) :
    (c.writeFileOrder path contents computeMd5).target = some path := by
  cases computeMd5 <;> simp [Client.writeFileOrder, Order.target, YsonBuild.field_map]

@[simp] theorem nodeType_createOrder (nodeType : String) :
    (c.createOrder nodeType path).nodeType = some nodeType := by
  simp [Client.createOrder, Order.nodeType, YsonBuild.field_map]

@[simp] theorem command_createOrder (nodeType : String) :
    (c.createOrder nodeType path).command = "create" := rfl

@[simp] theorem command_removeOrder (recursive force : Bool) :
    (c.removeOrder path recursive force).command = "remove" := rfl

@[simp] theorem command_setOrder (name : String) (encoded : List UInt8) :
    (c.setOrder path name encoded).command = "set" := rfl

@[simp] theorem command_writeFileOrder (contents : List UInt8) (computeMd5 : Bool) :
    (c.writeFileOrder path contents computeMd5).command = "write_file" := rfl

end

/-! ## What an order touches -/

section

variable (c : Client) {path other : String}

theorem touches_createOrder {nodeType : String} :
    (c.createOrder nodeType path).Touches other ↔ path = other ∧ nodeType = "file" := by
  simp [Order.Touches, Order.READS]

theorem touches_setOrder {name : String} {encoded : List UInt8} :
    (c.setOrder path name encoded).Touches other ↔ path ++ "/@" ++ name = other := by
  simp [Order.Touches, Order.READS]

theorem touches_writeFileOrder {contents : List UInt8} {computeMd5 : Bool} :
    (c.writeFileOrder path contents computeMd5).Touches other ↔ path = other := by
  simp [Order.Touches, Order.READS]

theorem touches_removeOrder {recursive force : Bool} :
    (c.removeOrder path recursive force).Touches other ↔
      path = other ∨ ∃ rest, other = path ++ "/" ++ rest := by
  simp [Order.Touches, Order.READS]

end

/-! ## Which command an error names -/

/-- The command that an error of the cluster names is one of these. -/
def ClientError.Blames (error : ClientError) (named : String → Prop) : Prop :=
  ∀ command code message raw, error = .cluster command code message raw → named command

/-- The names under which an order is reported: a heavy one may say where it went. -/
def Order.Called (order : Order) (name : String) : Prop :=
  name = order.command ∨
    order.repeatable = .heavy ∧ ∃ place, name = order.command ++ " at " ++ place

/-- Errors of the cluster name the command they answer. -/
def Blamed (x : Exchange Order Answer) : Prop :=
  ∀ error, x.2 = .error error → error.Blames x.1.Called

section

variable {t : Transport} {named : String → Prop} {error : ClientError}

theorem blames_tlsUnavailable {url : Str} (h : t.tlsUnavailable url = some error) :
    error.Blames named := by
  intro command code message raw herror
  unfold Transport.tlsUnavailable at h
  split at h
  · cases h
    cases herror
  · cases h

theorem blames_unusable {url : Str} (h : t.unusable url = some error) : error.Blames named := by
  intro command code message raw herror
  unfold Transport.unusable at h
  split at h
  · rename_i e he
    cases h
    exact blames_tlsUnavailable he command code message raw herror
  · split at h
    · split at h
      · cases h
        cases herror
      · cases h
    · cases h

theorem blames_redirect {command : String} {response : Response} {url : Str} {body : Outgoing}
    {hops : Nat} (h : t.redirect command response url body hops = .error error) :
    error.Blames named := by
  intro _ _ _ _ herror
  subst herror
  unfold Transport.redirect at h
  dsimp only at h
  repeat' split at h
  all_goals cases h

/-- What a chain of redirects fails with is none of the cluster's errors. -/
theorem blames_follow {command : String} {request : Str → Request} {body : Outgoing}
    {guard : Str → Option ClientError} {network : Nat → Hop}
    (hguard : ∀ url e, guard url = some e → e.Blames named) {fuel hops : Nat} {url : Str}
    (h : (t.follow command request body guard network fuel hops url).1 = .error error) :
    error.Blames named := by
  induction fuel generalizing hops url with
  | zero =>
    intro _ _ _ _ herror
    subst herror
    cases h
  | succ fuel ih =>
    unfold Transport.follow at h
    cases hhop : network hops with
    | expired =>
      rw [hhop] at h
      cases h
      intro _ _ _ _ herror
      cases herror
    | failed e =>
      rw [hhop] at h
      cases h
      intro _ _ _ _ herror
      cases herror
    | answered response =>
      rw [hhop] at h
      dsimp only at h
      cases hredirect : t.redirect command response url body hops with
      | error e =>
        rw [hredirect] at h
        cases h
        exact blames_redirect hredirect
      | ok next =>
        rw [hredirect] at h
        cases next with
        | none => cases h
        | some next =>
          dsimp only at h
          cases hnext : guard next with
          | some e =>
            rw [hnext] at h
            cases h
            exact hguard next error hnext
          | none =>
            rw [hnext] at h
            exact ih h

theorem blames_fromYtError [JsonText] (command : String) (status : Nat) (raw : String) :
    (ClientError.fromYtError command status raw).Blames (· = command) := by
  intro named code message document herror
  unfold ClientError.fromYtError at herror
  dsimp only at herror
  repeat' split at herror
  all_goals cases herror
  all_goals rfl

variable [Yson.FloatText] [JsonText]

/-- **The error of one request names its command.** -/
theorem blames_dispatch {base : Str} {method : Method} {command : String}
    {parameters : Yson.YsonValue} {body : Outgoing} {network : Nat → Hop}
    (h : (t.dispatch base method command parameters body network).1 = .error error) :
    error.Blames (· = command) := by
  unfold Transport.dispatch at h
  cases hunusable : t.unusable base with
  | some e =>
    rw [hunusable] at h
    cases h
    exact blames_unusable hunusable
  | none =>
    rw [hunusable] at h
    dsimp only at h
    cases hencoded : Transport.encodedParameters command parameters with
    | error e =>
      rw [hencoded] at h
      cases h
      intro _ _ _ _ herror
      subst herror
      unfold Transport.encodedParameters at hencoded
      repeat' split at hencoded
      all_goals cases hencoded
    | ok encoded =>
      rw [hencoded] at h
      dsimp only at h
      split at h
      · rename_i e he
        cases h
        exact blames_follow (fun _ _ hguard => blames_tlsUnavailable hguard) he
      · split at h
        · cases h
          exact blames_fromYtError command _ _
        · cases h

theorem blames_send {attempt : Attempt} {network : Nat → Hop}
    (h : (t.send attempt network).1 = .error error) : error.Blames (· = attempt.command) := by
  unfold Transport.send at h
  dsimp only at h
  split at h
  · rename_i e he
    cases h
    exact blames_dispatch he
  · split at h
    · rename_i e he
      cases h
      intro _ _ _ _ herror
      subst herror
      unfold readCapped at he
      repeat' split at he
      all_goals cases he
    · split at h
      · cases h
      · cases h
        intro _ _ _ _ herror
        cases herror

theorem blames_attemptOn {network : Nat → Nat → Hop} {base : Str} {method : Method}
    {command : String} {parameters : Yson.YsonValue} {payload : Payload}
    {mutationId : Option MutationId} {isRetry : Bool} {sent : List Sent}
    (h : (t.attemptOn network base method command parameters payload mutationId isRetry sent).1 =
      .error error) : error.Blames (· = command) := by
  unfold Transport.attemptOn at h
  split at h
  · rename_i e he
    cases h
    intro _ _ _ _ herror
    subst herror
    unfold taggedWith at he
    split at he
    · split at he
      · rename_i e' he'
        cases he
        cases YsonBuild.insert_panicked he'
      · cases YsonBuild.insert_panicked he
    · cases he
  · exact blames_send h

omit [Yson.FloatText] in
theorem blames_run (retries : RetryPolicy) (repeatable : Repeatable)
    {action : Bool → List Sent → Except ClientError (List UInt8) × List Sent}
    (haction : ∀ flag sent e, (action flag sent).1 = .error e → e.Blames named)
    (h : (run retries repeatable action []).result = .error error) : error.Blames named := by
  -- every outcome of the loop is one of an attempt, and the result is the last of them
  have hall := run_state retries repeatable action
    (fun outcomes _ => ∀ outcome ∈ outcomes, ∀ e, outcome = .error e → e.Blames named) []
    (by
      intro made sent hmade outcome houtcome e he
      rcases List.mem_append.mp houtcome with hold | hnew
      · exact hmade outcome hold e he
      · rw [List.mem_singleton] at hnew
        exact haction _ sent e (hnew.symm.trans he))
    (by
      intro outcome houtcome
      cases houtcome)
  obtain ⟨failures, last, hstops⟩ := run_stops retries repeatable action []
  apply hall last _ error
  · rw [← hstops.result]
    exact h
  · rw [hstops.outcomes]
    exact List.mem_append_right _ List.mem_cons_self

omit [Yson.FloatText] [JsonText] in
theorem blames_refusalHint {why : String} (h : error.Blames named) :
    (refusalHint error why).Blames named := by
  intro command code message raw herror
  unfold refusalHint at herror
  cases error with
  | cluster command' code' message' raw' =>
    dsimp only at herror
    split at herror
    · cases herror
      exact h command code message' raw rfl
    · exact h command code message raw herror
  | _ => exact h command code message raw herror

/-- **An order that was carried out is answered under its own name.** -/
theorem perform_blamed (world : Nat → World) (s : Performed) (order : Order) :
    Blamed (order, (perform world s order).1) := by
  intro error h
  have hnone : ∀ {e : ClientError}, e = .panicked → e.Blames order.Called := by
    intro e he _ _ _ _ herror
    rw [he] at herror
    cases herror
  unfold perform at h
  dsimp only at h
  unfold Transport.callWith at h
  dsimp only at h
  split at h
  · rename_i e he
    cases h
    apply hnone
    unfold Transport.stamped at he
    split at he
    · rename_i e' he'
      cases he
      unfold Transport.inTransaction at he'
      repeat' split at he'
      all_goals cases he'
      rename_i hinsert
      exact YsonBuild.insert_panicked hinsert
    · cases he
  · split at h
    · rename_i e he
      cases h
      apply hnone
      unfold Transport.baseFor Transport.settle Transport.pickFrom at he
      repeat' split at he
      all_goals cases he
      all_goals rfl
    · rename_i parameters _ _ routed _
      have hran : ∀ e, (run order.transport.retries order.repeatable
          (order.transport.attemptOn (world s.called.length).network routed.2.address
            order.method order.command parameters order.payload
            (mutationIdFor order.repeatable none (world s.called.length).around.first
              (world s.called.length).around.second)) []).result = .error e →
          e.Blames (· = order.command) := by
        intro e he
        exact blames_run _ _ (fun _ _ _ hattempt => blames_attemptOn hattempt) he
      generalize run order.transport.retries order.repeatable _ [] = ran at h hran
      by_cases hheavy : order.repeatable = .heavy
      · obtain ⟨hok, herror⟩ := order.transport.afterHeavy_result order.repeatable routed.2
          ran.result ((world s.called.length).around.meanwhile routed.1)
          (world s.called.length).around.judgedAt
        cases hresult : ran.result with
        | ok value =>
          rw [hok value hresult] at h
          cases h
        | error e =>
          have hblames : e.Blames order.Called := fun command code message raw he =>
            .inl (hran e hresult command code message raw he)
          rcases herror e hresult with hsame | ⟨why, hhint⟩ | ⟨base, hrouted⟩
          · rw [hsame] at h
            cases h
            exact hblames
          · rw [hhint] at h
            cases h
            exact blames_refusalHint hblames
          · rw [hrouted] at h
            cases h
            intro command code message raw hcluster
            unfold routedTo at hcluster
            cases e with
            | cluster command' code' message' raw' =>
              cases hcluster
              rw [hran _ hresult command' code message raw rfl]
              exact .inr ⟨hheavy, _, String.append_assoc.symm⟩
            | _ => cases hcluster
      · have hsame : (order.transport.afterHeavy order.repeatable routed.2 ran.result
            ((world s.called.length).around.meanwhile routed.1)
            (world s.called.length).around.judgedAt).1 = ran.result := by
          unfold Transport.afterHeavy
          rw [if_pos hheavy]
        rw [hsame] at h
        intro command code message raw hcluster
        exact .inl (hran error h command code message raw hcluster)

/-- **A script that is carried out over the network is a talk in which errors name the
commands.** -/
theorem blamed_play {R : Type} (world : Nat → World) (p : Script Order Answer R) (s : Performed) :
    ∀ x ∈ (p.play (perform world) s).1, Blamed x := by
  induction p generalizing s with
  | done r =>
    intro x hx
    cases hx
  | ask order next ih =>
    intro x hx
    rcases List.mem_cons.mp hx with rfl | hx
    · exact perform_blamed world s order
    · exact ih _ _ x hx

end

end Ytsaurus.Client
