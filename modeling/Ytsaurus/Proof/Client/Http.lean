import Ytsaurus.Client.Http
import Ytsaurus.Proof.Client.Url

/-!
# `Proof/Client/Http.lean` — token and body stay at the origin

What one redirect may do is said once (`redirect_some`): with a token or with data it goes to the
origin of the request it answers, a reader is not sent again, and the hops are counted. The chain
of requests follows by induction on the hops that are left.

The network answers each request as it likes, with any status and any location, so nothing can be
said about where a chain leads. What can be said is what it takes along (`Contained`). A chain with
neither a token nor data may go anywhere; one with either stays where it began, and needs
transitivity for it, because each redirect compares with the request it answers and not with the
first.

The model follows redirects with a fuel, the source with a counter. `follow_finishes` says that the
counter runs out first, so the fuel is never the reason that a chain ends.
-/

set_option autoImplicit false

namespace Ytsaurus.Client

/-- The request says who is asking. -/
def Request.carriesToken (request : Request) : Prop :=
  ∃ header ∈ request.headers, header.1 = "Authorization"

/-- What holds of the requests of one chain that begins at `first`. -/
structure Contained (first : Str) (log : List Request) : Prop where
  origin : ∀ request ∈ log, request.carriesToken ∨ request.body.carriesData →
    origin request.url = origin first
  streamed : (log.filter fun request => request.body = .stream).length ≤ 1
  few : log.length ≤ MAX_REDIRECTS + 1

theorem carriesToken_callerHeaders {token trace tracestate : Option Str}
    (h : ∃ header ∈ callerHeaders token trace tracestate, header.1 = "Authorization") :
    token.isSome := by
  obtain ⟨header, hmem, hname⟩ := h
  unfold callerHeaders at hmem
  rw [List.mem_append, List.mem_append] at hmem
  rcases hmem with (hmem | hmem) | hmem
  · obtain ⟨value, hvalue, _⟩ := Option.map_eq_some_iff.mp (Option.mem_toList.mp hmem)
    exact Option.isSome_of_eq_some hvalue
  · obtain ⟨value, _, rfl⟩ := Option.map_eq_some_iff.mp (Option.mem_toList.mp hmem)
    have hnot : "traceparent" ≠ "Authorization" := by decide
    exact absurd hname hnot
  · obtain ⟨_, _, hstate⟩ := Option.bind_eq_some_iff.mp (Option.mem_toList.mp hmem)
    obtain ⟨value, _, rfl⟩ := Option.map_eq_some_iff.mp hstate
    have hnot : "tracestate" ≠ "Authorization" := by decide
    exact absurd hname hnot

namespace Transport

open Yson (YsonValue FloatText)

variable {t : Transport} {command : String} {body : Outgoing}

/-- **A redirect that is followed** goes to the request's own origin whenever it takes the token
or data along, takes no reader along, and is not the one too many. -/
theorem redirect_some {response : Response} {url next : Str} {hops : Nat}
    (h : t.redirect command response url body hops = .ok (some next)) :
    (t.token.isSome ∨ body.carriesData → sameOrigin url next) ∧ body.replayable ∧
      hops < MAX_REDIRECTS := by
  unfold redirect at h
  by_cases hstatus : response.status < 300 ∨ 400 ≤ response.status
  · cases (if_pos hstatus).symm.trans h
  · replace h := (if_neg hstatus).symm.trans h
    cases hlocation : response.location with
    | none =>
      rw [hlocation] at h
      cases h
    | some location =>
      rw [hlocation] at h
      dsimp only at h
      cases hresolve : resolve url location with
      | none =>
        rw [hresolve] at h
        cases h
      | some target =>
        rw [hresolve] at h
        dsimp only at h
        by_cases htoken : (t.token.isSome && !sameOrigin url target) = true
        · cases (if_pos htoken).symm.trans h
        replace h := (if_neg htoken).symm.trans h
        by_cases hbody : (!body.replayable) = true
        · cases (if_pos hbody).symm.trans h
        replace h := (if_neg hbody).symm.trans h
        by_cases hdata : (!sameOrigin url target && body.carriesData) = true
        · cases (if_pos hdata).symm.trans h
        replace h := (if_neg hdata).symm.trans h
        by_cases hhops : MAX_REDIRECTS ≤ hops
        · cases (if_pos hhops).symm.trans h
        replace h := (if_neg hhops).symm.trans h
        cases h
        refine ⟨?_, by simpa using hbody, Nat.lt_of_not_le hhops⟩
        intro hcarries
        cases hsame : sameOrigin url next with
        | true => rfl
        | false =>
          rw [hsame] at htoken hdata
          rcases hcarries with hcarries | hcarries
          · rw [hcarries] at htoken
            exact absurd rfl htoken
          · rw [hcarries] at hdata
            exact absurd rfl hdata

theorem redirect_error {response : Response} {url : Str} {hops : Nat} {e : ClientError}
    (h : t.redirect command response url body hops = .error e) : e ≠ .outOfFuel := by
  unfold redirect at h
  split at h
  · cases h
  · split at h
    · cases h
    · split at h
      · cases h
      · rename_i target _
        dsimp only at h
        intro he
        subst he
        split_ifs at h <;> cases h

/-- The requests of one chain, from the request to `url` on. -/
inductive Chain (t : Transport) (command : String) (request : Str → Request) (body : Outgoing) :
    Nat → Str → List Request → Prop where
  | unsent {hops : Nat} {url : Str} : Chain t command request body hops url []
  | last {hops : Nat} {url : Str} : Chain t command request body hops url [request url]
  | redirected {hops : Nat} {url next : Str} {response : Response} {log : List Request} :
      t.redirect command response url body hops = .ok (some next) →
      Chain t command request body (hops + 1) next log →
      Chain t command request body hops url (request url :: log)

section

variable (t command body) (request : Str → Request) (guard : Str → Option ClientError)
  (network : Nat → Hop)

theorem follow_chain (fuel hops : Nat) (url : Str) :
    Chain t command request body hops url
      (t.follow command request body guard network fuel hops url).2 := by
  induction fuel generalizing hops url with
  | zero => exact .unsent
  | succ fuel ih =>
    unfold follow
    cases network hops with
    | expired => exact .unsent
    | failed e => exact .last
    | answered response =>
      dsimp only
      cases hredirect : t.redirect command response url body hops with
      | error e => exact .last
      | ok target =>
        cases target with
        | none => exact .last
        | some next =>
          dsimp only
          cases guard next with
          | some e => exact .last
          | none => exact .redirected hredirect (ih (hops + 1) next)

theorem enough (n : Nat) : n < 0 + (n + 1) := by
  rw [Nat.zero_add]
  exact Nat.lt_succ_self n

/-- The loop ends by itself. -/
theorem follow_finishes (hguard : ∀ url e, guard url = some e → e ≠ .outOfFuel) {fuel hops : Nat}
    (hfuel : MAX_REDIRECTS < hops + fuel) (hhops : hops ≤ MAX_REDIRECTS) (url : Str) :
    (t.follow command request body guard network fuel hops url).1 ≠ .error .outOfFuel := by
  induction fuel generalizing hops url with
  | zero => exact absurd hfuel (Nat.not_lt_of_le hhops)
  | succ fuel ih =>
    intro h
    unfold follow at h
    cases hhop : network hops with
    | expired =>
      rw [hhop] at h
      cases h
    | failed e =>
      rw [hhop] at h
      cases h
    | answered response =>
      rw [hhop] at h
      dsimp only at h
      cases hredirect : t.redirect command response url body hops with
      | error e =>
        rw [hredirect] at h
        cases h
        exact redirect_error hredirect rfl
      | ok target =>
        rw [hredirect] at h
        cases target with
        | none => cases h
        | some next =>
          dsimp only at h
          cases hnext : guard next with
          | some e =>
            rw [hnext] at h
            cases h
            exact hguard next _ hnext rfl
          | none =>
            rw [hnext] at h
            have hmore := (redirect_some hredirect).2.2
            exact ih (by omega) hmore next h

end

section Chain

variable {request : Str → Request} {hops : Nat} {url : Str} {log : List Request}

theorem Chain.mem (h : Chain t command request body hops url log) :
    ∀ sent ∈ log, ∃ url, sent = request url := by
  induction h with
  | unsent =>
    intro sent hsent
    cases hsent
  | last =>
    intro sent hsent
    exact ⟨_, List.mem_singleton.mp hsent⟩
  | redirected _ _ ih =>
    intro sent hsent
    rcases List.mem_cons.mp hsent with rfl | hsent
    · exact ⟨_, rfl⟩
    · exact ih sent hsent

theorem Chain.few (h : Chain t command request body hops url log) (hhops : hops ≤ MAX_REDIRECTS) :
    hops + log.length ≤ MAX_REDIRECTS + 1 := by
  induction h with
  | unsent => exact Nat.le_succ_of_le hhops
  | last => exact Nat.succ_le_succ hhops
  | redirected hredirect _ ih =>
    have hbound := ih (redirect_some hredirect).2.2
    rw [List.length_cons]
    omega

/-- A reader is sent once. -/
theorem Chain.streamed (h : Chain t command request body hops url log)
    (hbody : ∀ url, (request url).body = .stream → body = .stream) :
    (log.filter fun request => request.body = .stream).length ≤ 1 := by
  have hmem := h.mem
  cases h with
  | unsent => exact Nat.zero_le 1
  | last => exact List.length_filter_le _ _
  | redirected hredirect hrest =>
    -- a redirect was followed, so the body is no reader
    have hreplay := (redirect_some hredirect).2.1
    rw [List.filter_eq_nil_iff.mpr]
    · exact Nat.zero_le 1
    · intro sent hsent hstream
      obtain ⟨url', rfl⟩ := hmem sent hsent
      rw [hbody url' (of_decide_eq_true hstream)] at hreplay
      cases hreplay

/-- **What is taken along stays at the origin.** -/
theorem Chain.origin (h : Chain t command request body hops url log)
    (hurl : ∀ url, (request url).url = url)
    (hcarries : ∀ url, (request url).carriesToken ∨ (request url).body.carriesData →
      t.token.isSome ∨ body.carriesData) :
    ∀ sent ∈ log, sent.carriesToken ∨ sent.body.carriesData →
      Client.origin sent.url = Client.origin url := by
  induction h with
  | unsent =>
    intro sent hsent
    cases hsent
  | last =>
    intro sent hsent _
    rw [List.mem_singleton.mp hsent, hurl]
  | @redirected hops url next response log hredirect hrest ih =>
    intro sent hsent hsecret
    rcases List.mem_cons.mp hsent with rfl | hsent
    · rw [hurl]
    · obtain ⟨url', rfl⟩ := hrest.mem sent hsent
      rw [ih _ hsent hsecret]
      exact sameOrigin_eq ((redirect_some hredirect).1 (hcarries url' hsecret))

end Chain

/-- The chain of one call, from its first request on. -/
theorem Chain.contained {request : Str → Request} {url : Str} {log : List Request}
    (h : Chain t command request body 0 url log) (hurl : ∀ url, (request url).url = url)
    (hbody : ∀ url, (request url).body = .stream → body = .stream)
    (hcarries : ∀ url, (request url).carriesToken ∨ (request url).body.carriesData →
      t.token.isSome ∨ body.carriesData) : Contained url log where
  origin := h.origin hurl hcarries
  streamed := h.streamed hbody
  few := by
    have hfew := h.few (Nat.zero_le _)
    rwa [Nat.zero_add] at hfew

theorem contained_nil (first : Str) : Contained first [] where
  origin := by
    intro sent hsent
    cases hsent
  streamed := Nat.zero_le 1
  few := Nat.zero_le _

theorem unusable_ne {base : Str} {e : ClientError} (h : t.unusable base = some e) :
    e ≠ .outOfFuel := by
  intro he
  subst he
  unfold unusable tlsUnavailable at h
  split at h
  · rename_i hnone
    split at hnone
    · cases h
      cases hnone
    · cases hnone
  · split at h
    · split at h <;> cases h
    · cases h

theorem tlsUnavailable_ne {base : Str} {e : ClientError} (h : t.tlsUnavailable base = some e) :
    e ≠ .outOfFuel := by
  intro he
  subst he
  unfold tlsUnavailable at h
  split at h <;> cases h

theorem token_of_caller (h : ∃ header ∈ t.caller, header.1 = "Authorization") :
    t.token.isSome := by
  rw [t.rendered] at h
  exact carriesToken_callerHeaders h

theorem commandRequest_carries {method : Method} {encoded url : Str}
    (h : (t.commandRequest method encoded body url).carriesToken ∨
      (t.commandRequest method encoded body url).body.carriesData) :
    t.token.isSome ∨ body.carriesData := by
  rcases h with h | h
  · obtain ⟨header, hmem, hname⟩ := h
    rcases List.mem_append.mp hmem with hmem | hmem
    · have hnone : ∀ header ∈ commandHeaders encoded, header.1 ≠ "Authorization" := by
        unfold commandHeaders
        simp
      exact absurd hname (hnone header hmem)
    · exact .inl (token_of_caller ⟨header, hmem, hname⟩)
  · right
    unfold commandRequest at h
    dsimp only at h
    split at h
    · cases h
    · exact h

theorem commandRequest_stream {method : Method} {encoded url : Str}
    (h : (t.commandRequest method encoded body url).body = .stream) : body = .stream := by
  unfold commandRequest at h
  dsimp only at h
  split at h
  · cases h
  · exact h

theorem encodedParameters_ne [FloatText] {parameters : YsonValue} {e : ClientError}
    (h : encodedParameters command parameters = .error e) : e ≠ .outOfFuel := by
  intro he
  subst he
  unfold encodedParameters at h
  split at h
  · cases h
  · split at h <;> cases h

theorem fromYtError_ne [JsonText] (status : Nat) (raw : String) :
    ClientError.fromYtError command status raw ≠ .outOfFuel := by
  intro h
  unfold ClientError.fromYtError at h
  split at h
  · cases h
  · dsimp only at h
    split at h
    · split at h <;> cases h
    · cases h

/-- **One request of a command, with its redirects.** -/
theorem dispatch_contained [FloatText] [JsonText] (t : Transport) (base : Str) (method : Method)
    (command : String) (parameters : YsonValue) (body : Outgoing) (network : Nat → Hop) :
    Contained (base ++ "/api/v4/".toList ++ command.toList)
        (t.dispatch base method command parameters body network).2 ∧
      (t.dispatch base method command parameters body network).1 ≠ .error .outOfFuel := by
  unfold dispatch
  cases hunusable : t.unusable base with
  | some error =>
    refine ⟨contained_nil _, ?_⟩
    intro h
    cases h
    exact unusable_ne hunusable rfl
  | none =>
    dsimp only
    cases hencoded : encodedParameters command parameters with
    | error e =>
      refine ⟨contained_nil _, ?_⟩
      intro h
      cases h
      exact encodedParameters_ne hencoded rfl
    | ok encoded =>
      dsimp only
      have hcontained := (follow_chain t command body (t.commandRequest method encoded body)
        t.tlsUnavailable network (MAX_REDIRECTS + 1) 0
        (base ++ "/api/v4/".toList ++ command.toList)).contained (fun _ => rfl)
        (fun _ => commandRequest_stream) (fun _ => commandRequest_carries)
      have hfinishes := follow_finishes t command body (t.commandRequest method encoded body)
        t.tlsUnavailable network (fun _ _ => tlsUnavailable_ne) (enough _) (Nat.zero_le _)
        (base ++ "/api/v4/".toList ++ command.toList)
      generalize t.follow command _ body _ network _ 0 _ = sending at hcontained hfinishes ⊢
      obtain ⟨result, log⟩ := sending
      cases result with
      | error e => exact ⟨hcontained, hfinishes⟩
      | ok response =>
        dsimp only
        cases response.error with
        | none => exact ⟨hcontained, hfinishes⟩
        | some raw =>
          refine ⟨hcontained, ?_⟩
          intro h
          exact fromYtError_ne response.status raw (Except.error.inj h)

/-- **A lookup, with its redirects.** -/
theorem fetch_contained (t : Transport) (path : Str) (what : String) (network : Nat → Hop) :
    Contained (t.base ++ path) (t.fetch path what network).2 ∧
      (t.fetch path what network).1 ≠ .error .outOfFuel := by
  unfold fetch
  cases hunusable : t.unusable t.base with
  | some error =>
    refine ⟨contained_nil _, ?_⟩
    intro h
    cases h
    exact unusable_ne hunusable rfl
  | none =>
    dsimp only
    have hcarries : ∀ url, (t.lookupRequest url).carriesToken ∨
        (t.lookupRequest url).body.carriesData → t.token.isSome ∨ Outgoing.empty.carriesData := by
      intro url h
      rcases h with h | h
      · exact .inl (token_of_caller h)
      · cases h
    have hcontained := (follow_chain t what .empty t.lookupRequest t.unusable network
      (MAX_REDIRECTS + 1) 0 (t.base ++ path)).contained (fun _ => rfl) (fun _ h => by cases h)
      hcarries
    have hfinishes := follow_finishes t what .empty t.lookupRequest t.unusable network
      (fun _ _ => unusable_ne) (enough _) (Nat.zero_le _) (t.base ++ path)
    generalize t.follow what _ _ _ network _ 0 _ = sending at hcontained hfinishes ⊢
    obtain ⟨result, log⟩ := sending
    cases result with
    | error e =>
      refine ⟨hcontained, ?_⟩
      intro h
      cases h
      exact hfinishes rfl
    | ok response =>
      dsimp only
      cases response.text with
      | error e =>
        refine ⟨hcontained, ?_⟩
        intro h
        cases h
      | ok text =>
        dsimp only
        refine ⟨?_, ?_⟩
        · split <;> exact hcontained
        · split <;> intro h <;> cases h

/-- **Token and body never leave the origin**: of the requests that one command or one lookup
sends, those that carry the token or data go to the origin of the first, a reader goes out once,
and there are at most `MAX_REDIRECTS + 1` of them, wherever the answers point; and a relative
location that does not begin with `//` never changes the origin. -/
theorem token_and_body_stay [FloatText] [JsonText] (t : Transport) :
    (∀ base method command parameters body network,
        Contained (base ++ "/api/v4/".toList ++ command.toList)
            (t.dispatch base method command parameters body network).2 ∧
          (t.dispatch base method command parameters body network).1 ≠ .error .outOfFuel) ∧
      (∀ path what network, Contained (t.base ++ path) (t.fetch path what network).2 ∧
          (t.fetch path what network).1 ≠ .error .outOfFuel) ∧
      ∀ request location target, resolve request location = some target →
        hasScheme (Text.trim location) = false →
        Text.startsWith ['/', '/'] (Text.trim location) = false →
        origin target = origin request := by
  refine ⟨t.dispatch_contained, t.fetch_contained, ?_⟩
  intro request location target hresolve hrelative hpath
  apply origin_resolve hrelative _ hresolve
  unfold Text.startsWith at hpath
  exact Option.isSome_eq_false_iff.mp hpath |> Option.isNone_iff_eq_none.mp

end Transport

end Ytsaurus.Client
