import Ytsaurus.Client.FileCache
import Ytsaurus.Proof.Client.Commands

/-!
# `Proof/Client/FileCache.lean` — a worker is staged, handed over, and cleared away

What can be said in an upload is put down once, as a relation for each function (`Uploads` and
those it is made of), and everything else is read off it. The paths of two uploads differ in the
nonce, so in any interleaving of uploads a staging node is touched by one of them.

The relations follow the functions of the source, and they are the only place where the functions
are taken apart. `uploads_of_talk` says that they have every dialogue; nothing is assumed of the
answers.

A refusal is one particular answer to one of three writes (`Staging.Denial`). The source decides by
the command that an error names, and this is the write that was sent, because errors name the
command they answer (`Blamed`). Failures that follow a refusal are not all alike: the node that the
cache would not take is removed, and if that fails nobody is told. `Staging.Counts` is the rule,
and `Staging.Reports` and `Staging.Quiet` are what it comes to in a whole dialogue.

The last part is about paths. The id in a path is four numbers with marks between them, and neither
a hash nor an id has a slash or an underscore in it, so a path says which upload it belongs to
(`staging_ne`), and it is not the path of an entry of the cache (`not_namedByHash`).
-/

set_option autoImplicit false

namespace Ytsaurus.Client

open Dialogue
open Yson (FloatText)

/-! ## What can be said -/

section

variable [FloatText]

/-- The path of a handover that was answered. -/
def handedPath (body : List UInt8) : Except CallError String :=
  (Client.cachedPath body "put_file_to_cache").bind fun path =>
    match path with
    | some path => .ok path
    | none => .error (.answer .noCachedPath)

/-- `%true`, in binary. -/
def encodedTrue : List UInt8 := [5]

theorem setAttribute_executable (c : Client) (path : String) :
    c.setAttribute path "executable" (YsonBuild.boolean true) =
      tell (c.setOrder path "executable" encodedTrue) := rfl

/-- The orders of a handover. -/
structure Staging where
  client : Client
  bytes : List UInt8
  digest : String
  path : String

namespace Staging

variable (s : Staging)

def created : Order := s.client.createOrder "file" s.path

def written : Order := s.client.writeFileOrder s.path s.bytes true

def marked : Order := s.client.setOrder s.path "executable" encodedTrue

def handed : Order := s.client.putFileToCacheOrder s.path s.digest

def removed : Order := s.client.removeOrder s.path true true

end Staging

/-- What can be said while the staging node is written and handed over. -/
inductive HandsOver (s : Staging) : List (Exchange Order Answer) → Except CallError String → Prop
  | unwritten (e : ClientError) : HandsOver s [(s.written, .error e)] (.error (.client e))
  | unmarked (written : List UInt8) (e : ClientError) :
      HandsOver s [(s.written, .ok written), (s.marked, .error e)] (.error (.client e))
  | refused (written marked : List UInt8) (e : ClientError) :
      HandsOver s [(s.written, .ok written), (s.marked, .ok marked), (s.handed, .error e)]
        (.error (.client e))
  | answered (written marked body : List UInt8) :
      HandsOver s [(s.written, .ok written), (s.marked, .ok marked), (s.handed, .ok body)]
        (handedPath body)

theorem handsOver_of_talk {c : Client} {bytes : List UInt8} {digest path : String}
    {said : List (Exchange Order Answer)} {r : Except CallError String}
    (h : Talk (c.handOver bytes digest path) said r) : HandsOver ⟨c, bytes, digest, path⟩ said r := by
  unfold Client.handOver Client.writeFileComputingMd5 Client.writeFileInner Client.putFileToCache at h
  rw [setAttribute_executable] at h
  rcases talk_andThen_iff.mp h with ⟨failure, hfront, rfl⟩ | ⟨front, _, back, rfl, hfront, hback⟩
  · rcases talk_andThen_iff.mp hfront with ⟨_, hwrite, hresult⟩ | ⟨_, _, _, rfl, hwrite, hset⟩
    · obtain ⟨e, rfl, rfl⟩ := talk_tell_error_iff.mp hwrite
      cases hresult
      exact .unwritten e
    · obtain ⟨written, rfl⟩ := talk_tell_ok_iff.mp hwrite
      obtain ⟨e, rfl, rfl⟩ := talk_tell_error_iff.mp hset
      exact .unmarked written e
  · rcases talk_andThen_iff.mp hfront with ⟨_, _, hresult⟩ | ⟨_, _, _, rfl, hwrite, hset⟩
    · cases hresult
    · obtain ⟨written, rfl⟩ := talk_tell_ok_iff.mp hwrite
      obtain ⟨marked, rfl⟩ := talk_tell_ok_iff.mp hset
      rcases talk_andThen_iff.mp hback with ⟨_, hput, rfl⟩ | ⟨_, body, _, rfl, hput, hdone⟩
      · obtain ⟨e, rfl, rfl⟩ := talk_request_error_iff.mp hput
        exact .refused written marked e
      · rw [talk_request_ok_iff.mp hput]
        obtain ⟨rfl, rfl⟩ := talk_done_iff.mp hdone
        exact .answered written marked body

/-- What can be said in an upload outside the cache. -/
inductive Uncached (c : Client) (bytes : List UInt8) (path : String) :
    List (Exchange Order Answer) → Except CallError String → Prop
  | uncreated (e : ClientError) :
      Uncached c bytes path [(c.createOrder "file" path, .error e)] (.error (.client e))
  | unwritten (created : List UInt8) (e : ClientError) :
      Uncached c bytes path
        [(c.createOrder "file" path, .ok created), (c.writeFileOrder path bytes false, .error e)]
        (.error (.client e))
  | unmarked (created written : List UInt8) (e : ClientError) :
      Uncached c bytes path
        [(c.createOrder "file" path, .ok created), (c.writeFileOrder path bytes false, .ok written),
          (c.setOrder path "executable" encodedTrue, .error e)] (.error (.client e))
  | uploaded (created written marked : List UInt8) :
      Uncached c bytes path
        [(c.createOrder "file" path, .ok created), (c.writeFileOrder path bytes false, .ok written),
          (c.setOrder path "executable" encodedTrue, .ok marked)] (.ok path)

theorem uncached_of_talk {c : Client} {bytes : List UInt8} {digest : String} {nonce : MutationId}
    {said : List (Exchange Order Answer)} {r : Except CallError String}
    (h : Talk (c.uploadUncached digest nonce bytes) said r) :
    Uncached c bytes (Client.uncachedPath digest nonce) said r := by
  unfold Client.uploadUncached Client.uploadExecutable Client.create Client.writeFile
    Client.writeFileInner at h
  rw [setAttribute_executable] at h
  rcases talk_andThen_iff.mp h with ⟨failure, hfront, rfl⟩ | ⟨front, _, back, rfl, hfront, hback⟩
  · rcases talk_andThen_iff.mp hfront with ⟨_, hcreate, hresult⟩ | ⟨_, _, _, rfl, hcreate, hrest⟩
    · obtain ⟨e, rfl, rfl⟩ := talk_tell_error_iff.mp hcreate
      cases hresult
      exact .uncreated e
    · obtain ⟨created, rfl⟩ := talk_tell_ok_iff.mp hcreate
      rcases talk_andThen_iff.mp hrest with ⟨_, hwrite, hresult⟩ | ⟨_, _, _, rfl, hwrite, hset⟩
      · obtain ⟨e, rfl, rfl⟩ := talk_tell_error_iff.mp hwrite
        cases hresult
        exact .unwritten created e
      · obtain ⟨written, rfl⟩ := talk_tell_ok_iff.mp hwrite
        obtain ⟨e, rfl, rfl⟩ := talk_tell_error_iff.mp hset
        exact .unmarked created written e
  · obtain ⟨rfl, rfl⟩ := talk_done_iff.mp hback
    rw [List.append_nil]
    rcases talk_andThen_iff.mp hfront with ⟨_, _, hresult⟩ | ⟨_, _, _, rfl, hcreate, hrest⟩
    · cases hresult
    · rcases talk_andThen_iff.mp hrest with ⟨_, _, hresult⟩ | ⟨_, _, _, rfl, hwrite, hset⟩
      · cases hresult
      · obtain ⟨created, rfl⟩ := talk_tell_ok_iff.mp hcreate
        obtain ⟨written, rfl⟩ := talk_tell_ok_iff.mp hwrite
        obtain ⟨marked, rfl⟩ := talk_tell_ok_iff.mp hset
        exact .uploaded created written marked

variable [JsonText]

/-- What can be said to the cache. -/
inductive IntoCache (s : Staging) : List (Exchange Order Answer) → Except CallError Cached → Prop
  | noDirectory (e : ClientError) :
      IntoCache s [(s.client.createOrder "map_node" s.client.fileCache, .error e)]
        (refusedOrReported (.client e))
  | noStaging (made : List UInt8) (e : ClientError) :
      IntoCache s
        [(s.client.createOrder "map_node" s.client.fileCache, .ok made), (s.created, .error e)]
        (refusedOrReported (.client e))
  | staged (made created : List UInt8) {work : List (Exchange Order Answer)}
      {cached : Except CallError String} (hwork : HandsOver s work cached) (removed : Answer) :
      IntoCache s
        ((s.client.createOrder "map_node" s.client.fileCache, .ok made) ::
          (s.created, .ok created) :: (work ++ [(s.removed, removed)]))
        (Client.settled cached ((removed.mapError .client).map fun _ => ()))

theorem intoCache_of_talk {c : Client} {bytes : List UInt8} {digest : String} {nonce : MutationId}
    {said : List (Exchange Order Answer)} {r : Except CallError Cached}
    (h : Talk (c.uploadIntoCache bytes digest nonce) said r) :
    IntoCache ⟨c, bytes, digest, c.stagingPath digest nonce⟩ said r := by
  unfold Client.uploadIntoCache Client.create Client.removeTree Client.removeWith at h
  obtain ⟨_, made, back, rfl, hmade, hback⟩ := talk_bind_iff.mp h
  cases made with
  | error failure =>
    obtain ⟨e, rfl, rfl⟩ := talk_tell_error_iff.mp hmade
    obtain ⟨rfl, rfl⟩ := talk_done_iff.mp hback
    exact .noDirectory e
  | ok _ =>
    obtain ⟨made, rfl⟩ := talk_tell_ok_iff.mp hmade
    obtain ⟨_, created, rest, rfl, hcreated, hrest⟩ := talk_bind_iff.mp hback
    cases created with
    | error failure =>
      obtain ⟨e, rfl, rfl⟩ := talk_tell_error_iff.mp hcreated
      obtain ⟨rfl, rfl⟩ := talk_done_iff.mp hrest
      exact .noStaging made e
    | ok _ =>
      obtain ⟨created, rfl⟩ := talk_tell_ok_iff.mp hcreated
      obtain ⟨work, cached, behind, rfl, hwork, hbehind⟩ := talk_bind_iff.mp hrest
      obtain ⟨_, removed, last, rfl, hremoved, hlast⟩ := talk_bind_iff.mp hbehind
      obtain ⟨rfl, rfl⟩ := talk_done_iff.mp hlast
      obtain ⟨answer, _, rfl, hdone⟩ := talk_ask_iff.mp hremoved
      obtain ⟨rfl, rfl⟩ := talk_done_iff.mp hdone
      exact .staged made created (handsOver_of_talk hwork) answer

/-- An upload: whose it is, what it uploads, and what its paths are made of. -/
structure Upload where
  client : Client
  name : String
  bytes : List UInt8
  digest : String
  staged : MutationId
  uncached : MutationId

namespace Upload

variable (u : Upload)

def staging : Staging := ⟨u.client, u.bytes, u.digest, u.client.stagingPath u.digest u.staged⟩

def outside : String := Client.uncachedPath u.digest u.uncached

def lookedUp : Order := u.client.getFileFromCacheOrder u.digest

end Upload

/-- What can be said in an upload. -/
inductive Uploads (u : Upload) : List (Exchange Order Answer) → Except CallError CachedFile → Prop
  | unanswered (e : ClientError) : Uploads u [(u.lookedUp, .error e)] (.error (.client e))
  | unreadable (body : List UInt8) (failure : CallError)
      (hbody : Client.cachedPath body "get_file_from_cache" = .error failure) :
      Uploads u [(u.lookedUp, .ok body)] (.error failure)
  | hit (body : List UInt8) (path : String)
      (hbody : Client.cachedPath body "get_file_from_cache" = .ok (some path)) :
      Uploads u [(u.lookedUp, .ok body)] (.ok ⟨path, u.name, false, true⟩)
  | failed (body : List UInt8) (failure : CallError) {work : List (Exchange Order Answer)}
      (hbody : Client.cachedPath body "get_file_from_cache" = .ok none)
      (hwork : IntoCache u.staging work (.error failure)) :
      Uploads u ((u.lookedUp, .ok body) :: work) (.error failure)
  | cached (body : List UInt8) (path : String) (marked : Answer)
      {work : List (Exchange Order Answer)}
      (hbody : Client.cachedPath body "get_file_from_cache" = .ok none)
      (hwork : IntoCache u.staging work (.ok (.at path))) :
      Uploads u
        ((u.lookedUp, .ok body) ::
          (work ++ [(u.client.setOrder path "executable" encodedTrue, marked)]))
        ((marked.mapError .client).map fun _ => ⟨path, u.name, true, true⟩)
  | refused (body : List UInt8) (denial : CallError) {work rest : List (Exchange Order Answer)}
      {result : Except CallError String}
      (hbody : Client.cachedPath body "get_file_from_cache" = .ok none)
      (hwork : IntoCache u.staging work (.ok (.refused denial)))
      (hrest : Uncached u.client u.bytes u.outside rest result) :
      Uploads u ((u.lookedUp, .ok body) :: (work ++ rest))
        (result.map fun path => ⟨path, u.name, true, false⟩)

/-- **Whatever the cluster answers, an upload goes one of these ways.** -/
theorem uploads_of_talk {c : Client} {md5 : List UInt8 → List UInt8} {name : String}
    {bytes : List UInt8} {staged uncached : MutationId} {said : List (Exchange Order Answer)}
    {r : Except CallError CachedFile}
    (h : Talk (c.uploadWorkerCached md5 name bytes staged uncached) said r) :
    Uploads ⟨c, name, bytes, digestText (md5 bytes), staged, uncached⟩ said r := by
  unfold Client.uploadWorkerCached Client.fileFromCache at h
  rcases talk_andThen_iff.mp h with ⟨failure, hfront, rfl⟩ | ⟨_, hit, back, rfl, hfront, hback⟩
  · rcases talk_andThen_iff.mp hfront with ⟨_, hlookup, hresult⟩ | ⟨_, body, _, rfl, hlookup, hdone⟩
    · obtain ⟨e, rfl, rfl⟩ := talk_request_error_iff.mp hlookup
      cases hresult
      exact .unanswered e
    · rw [talk_request_ok_iff.mp hlookup]
      obtain ⟨rfl, hbody⟩ := talk_done_iff.mp hdone
      exact .unreadable body failure hbody.symm
  · rcases talk_andThen_iff.mp hfront with ⟨_, _, hresult⟩ | ⟨_, body, _, rfl, hlookup, hdone⟩
    · cases hresult
    · rw [talk_request_ok_iff.mp hlookup]
      obtain ⟨rfl, hbody⟩ := talk_done_iff.mp hdone
      cases hit with
      | some path =>
        obtain ⟨rfl, rfl⟩ := talk_done_iff.mp hback
        exact .hit body path hbody.symm
      | none =>
        rcases talk_andThen_iff.mp hback with ⟨failure, hwork, rfl⟩ |
          ⟨work, cached, rest, rfl, hwork, hrest⟩
        · exact .failed body failure hbody.symm (intoCache_of_talk hwork)
        · cases cached with
          | «at» path =>
            unfold Client.afterCache at hrest
            dsimp only at hrest
            rw [setAttribute_executable] at hrest
            rcases talk_andThen_iff.mp hrest with ⟨_, hset, rfl⟩ | ⟨_, _, _, rfl, hset, hdone⟩
            · obtain ⟨e, rfl, rfl⟩ := talk_tell_error_iff.mp hset
              exact .cached body path (.error e) hbody.symm (intoCache_of_talk hwork)
            · obtain ⟨marked, rfl⟩ := talk_tell_ok_iff.mp hset
              obtain ⟨rfl, rfl⟩ := talk_done_iff.mp hdone
              exact .cached body path (.ok marked) hbody.symm (intoCache_of_talk hwork)
          | refused denial =>
            unfold Client.afterCache at hrest
            dsimp only at hrest
            rcases talk_andThen_iff.mp hrest with ⟨e, hup, rfl⟩ | ⟨_, path, _, rfl, hup, hdone⟩
            · exact Uploads.refused (u := ⟨c, name, bytes, digestText (md5 bytes), staged, uncached⟩)
                body denial hbody.symm (intoCache_of_talk hwork) (uncached_of_talk hup)
            · obtain ⟨rfl, rfl⟩ := talk_done_iff.mp hdone
              simp only [List.append_nil]
              exact Uploads.refused (u := ⟨c, name, bytes, digestText (md5 bytes), staged, uncached⟩)
                body denial hbody.symm (intoCache_of_talk hwork) (uncached_of_talk hup)

/-! ## When it falls back, and what it reports -/

/-- The three writes that only a cache asks for. -/
def Staging.CacheWrite (s : Staging) (order : Order) : Prop :=
  order = s.client.createOrder "map_node" s.client.fileCache ∨ order = s.created ∨
    order = s.handed

/-- The cache refuses this caller. -/
def Staging.Denial (s : Staging) (x : Exchange Order Answer) : Prop :=
  s.CacheWrite x.1 ∧ ∃ e, x.2 = .error e ∧ denied (.client e) x.1.command

variable {s : Staging} {u : Upload} {said work : List (Exchange Order Answer)}

omit [FloatText] in
theorem not_denial_of_ok (order : Order) (body : List UInt8) :
    ¬ s.Denial (order, .ok body) := by
  intro h
  obtain ⟨-, e, he, -⟩ := h
  cases he

omit [FloatText] in
theorem not_denial_of_command {order : Order} (answer : Answer)
    (h : order.command ≠ "create" ∧ order.command ≠ "put_file_to_cache") :
    ¬ s.Denial (order, answer) := by
  intro hdenial
  rcases hdenial.1 with rfl | rfl | rfl
  · exact h.1 rfl
  · exact h.1 rfl
  · exact h.2 rfl

omit [FloatText] in
theorem denial_iff {order : Order} (e : ClientError) (horder : s.CacheWrite order) :
    s.Denial (order, .error e) ↔ denied (.client e) order.command := by
  constructor
  · intro h
    obtain ⟨-, e', he, hdenied⟩ := h
    cases he
    exact hdenied
  · intro h
    exact ⟨horder, e, rfl, h⟩

omit [FloatText] in
theorem written_not_denial (answer : Answer) : ¬ s.Denial (s.written, answer) := by
  apply not_denial_of_command
  simp [Staging.written]

omit [FloatText] in
theorem marked_not_denial (answer : Answer) : ¬ s.Denial (s.marked, answer) := by
  apply not_denial_of_command
  simp [Staging.marked]

omit [FloatText] in
theorem removed_not_denial (answer : Answer) : ¬ s.Denial (s.removed, answer) := by
  apply not_denial_of_command
  simp [Staging.removed]

omit [FloatText] in
theorem denied_cluster {e : ClientError} {command : String}
    (h : denied (.client e) command = true) :
    ∃ code message raw, e = .cluster command code message raw := by
  unfold denied at h
  cases e with
  | cluster failed code message raw =>
    dsimp only at h
    rw [Bool.and_eq_true, beq_iff_eq] at h
    exact ⟨code, message, raw, by rw [h.1]⟩
  | _ => cases h

omit [FloatText] in
/-- What went wrong while the node was written is no refusal of the handover. -/
theorem written_not_denied {e : ClientError} (h : Blamed (s.written, .error e)) :
    denied (.client e) "put_file_to_cache" = false := by
  rw [Bool.eq_false_iff]
  intro hdenied
  obtain ⟨code, message, raw, rfl⟩ := denied_cluster hdenied
  rcases h _ rfl _ _ _ _ rfl with hname | ⟨-, place, hname⟩
  · have hsame : "put_file_to_cache" = "write_file" := hname
    exact absurd hsame (by decide)
  · -- the names begin with different letters
    have hsame : "put_file_to_cache" = "write_file" ++ " at " ++ place := hname
    have hfirst := congrArg (fun name => name.toList.head?) hsame
    simp only [String.toList_append, List.head?_append] at hfirst
    exact absurd hfirst (by simp)

omit [FloatText] in
theorem marked_not_denied {e : ClientError} (h : Blamed (s.marked, .error e)) :
    denied (.client e) "put_file_to_cache" = false := by
  rw [Bool.eq_false_iff]
  intro hdenied
  obtain ⟨code, message, raw, rfl⟩ := denied_cluster hdenied
  rcases h _ rfl _ _ _ _ rfl with hname | ⟨hheavy, -⟩
  · have hsame : "put_file_to_cache" = "set" := hname
    exact absurd hsame (by decide)
  · cases hheavy

omit [FloatText] [JsonText] in
theorem fieldOf_error {value : Yson.YsonValue} {key : String} {failure : CallError}
    (h : Client.fieldOf value key = .error failure) : ∃ problem, failure = .answer problem := by
  unfold Client.fieldOf at h
  repeat' split at h
  all_goals cases h
  all_goals exact ⟨_, rfl⟩

omit [JsonText] in
theorem cachedPath_error {body : List UInt8} {command : String} {failure : CallError}
    (h : Client.cachedPath body command = .error failure) :
    ∃ problem, failure = .answer problem := by
  unfold Client.cachedPath Client.stripEnvelope at h
  cases henvelope : Yson.YsonValue.fromSlice body .text with
  | error e =>
    rw [henvelope] at h
    cases h
    exact ⟨_, rfl⟩
  | ok value =>
    rw [henvelope] at h
    dsimp only [Except.mapError, Except.bind] at h
    split at h
    · rename_i e he
      cases h
      split at he
      · exact fieldOf_error he
      · cases he
    · repeat' split at h
      all_goals cases h
      exact ⟨_, rfl⟩

omit [JsonText] in
theorem handedPath_error {body : List UInt8} {failure : CallError}
    (h : handedPath body = .error failure) : ∃ problem, failure = .answer problem := by
  unfold handedPath at h
  cases hpath : Client.cachedPath body "put_file_to_cache" with
  | error e =>
    rw [hpath] at h
    cases h
    exact cachedPath_error hpath
  | ok path =>
    rw [hpath] at h
    cases path with
    | some path => cases h
    | none =>
      cases h
      exact ⟨_, rfl⟩

omit [FloatText] in
theorem settled_refused_iff {cached : Except CallError String} {removed : Except CallError Unit} :
    (∃ denial, Client.settled cached removed = .ok (.refused denial)) ↔
      ∃ failed, cached = .error failed ∧ denied failed "put_file_to_cache" := by
  unfold Client.settled
  cases cached with
  | ok path =>
    cases removed <;> simp
  | error failed =>
    dsimp only
    by_cases h : denied failed "put_file_to_cache" = true
    · simp [h]
    · simp [h]

/-- **The cache is given up exactly when it refuses this caller.** -/
theorem refused_iff_denial {r : Except CallError Cached} (h : IntoCache s said r)
    (hblamed : ∀ x ∈ said, Blamed x) :
    (∃ denial, r = .ok (.refused denial)) ↔ ∃ x ∈ said, s.Denial x := by
  cases h with
  | noDirectory e =>
    have hwrite : s.CacheWrite (s.client.createOrder "map_node" s.client.fileCache) := .inl rfl
    simp only [List.mem_singleton, exists_eq_left, denial_iff e hwrite, command_createOrder]
    unfold refusedOrReported
    split <;> simp_all
  | noStaging made e =>
    have hwrite : s.CacheWrite s.created := .inr (.inl rfl)
    simp only [List.mem_cons, List.not_mem_nil, or_false, exists_eq_or_imp, exists_eq_left,
      not_denial_of_ok, false_or, denial_iff e hwrite]
    rw [Staging.created, command_createOrder]
    unfold refusedOrReported
    split <;> simp_all
  | @staged made created work cached hwork removed =>
    simp only [List.mem_cons, List.mem_append, List.not_mem_nil, or_false, not_denial_of_ok,
      false_or, or_and_right, exists_or, exists_eq_left, removed_not_denial]
    have hwritten : ∀ x ∈ work, Blamed x := by
      intro x hx
      apply hblamed
      simp [hx]
    rw [settled_refused_iff]
    cases hwork with
    | unwritten e =>
      have hdenied := written_not_denied (hwritten _ List.mem_cons_self)
      simp [written_not_denial, hdenied]
    | unmarked written e =>
      have hdenied := marked_not_denied (hwritten (s.marked, .error e) (by simp))
      simp [not_denial_of_ok, marked_not_denial, hdenied]
    | refused written marked e =>
      have hwrite : s.CacheWrite s.handed := .inr (.inr rfl)
      have hcommand : s.handed.command = "put_file_to_cache" := rfl
      simp [not_denial_of_ok, denial_iff e hwrite, hcommand]
    | answered written marked body =>
      simp only [List.mem_cons, List.not_mem_nil, or_false, exists_eq_or_imp, exists_eq_left,
        not_denial_of_ok, or_self, iff_false, not_exists, not_and]
      intro failure hpath
      obtain ⟨problem, rfl⟩ := handedPath_error hpath
      simp [denied]

/-- A failure that an upload has to report, where `front` is what was said before: it is not a
refusal by the cache, and not the removal of a node that the cache has refused to take. -/
def Staging.Counts (s : Staging) (front : List (Exchange Order Answer))
    (x : Exchange Order Answer) : Prop :=
  (∃ e, x.2 = .error e) ∧ ¬ s.Denial x ∧ ¬ (x.1 = s.removed ∧ ∃ y ∈ front, s.Denial y)

/-- No failure among these counts, each judged by what was said before it. -/
def Staging.Quiet (s : Staging) (said : List (Exchange Order Answer)) : Prop :=
  ∀ front x back, said = front ++ x :: back → ¬ s.Counts front x

/-- What an upload reports: a handover it could not make sense of, or the first failure that
counts. -/
def Staging.Reports (s : Staging) (said : List (Exchange Order Answer)) (failure : CallError) :
    Prop :=
  (∃ front body back, said = front ++ (s.handed, .ok body) :: back ∧ s.Quiet front ∧
      handedPath body = .error failure) ∨
    ∃ front x e back, said = front ++ x :: back ∧ x.2 = .error e ∧ failure = .client e ∧
      s.Counts front x ∧ s.Quiet front

omit [FloatText] in
theorem quiet_of_ok (hok : ∀ x ∈ said, ∃ body, x.2 = .ok body) : s.Quiet said := by
  intro front x back hsaid hcounts
  obtain ⟨e, he⟩ := hcounts.1
  obtain ⟨body, hbody⟩ := hok x (by simp [hsaid])
  rw [hbody] at he
  cases he

omit [FloatText] in
/-- What counts still counts when less was said before, so what is quiet stays so behind more. -/
theorem quiet_append {front back : List (Exchange Order Answer)} (hfront : s.Quiet front)
    (hback : s.Quiet back) : s.Quiet (front ++ back) := by
  intro before x after hsaid hcounts
  rcases List.append_eq_append_iff.mp hsaid with ⟨middle, rfl, hmiddle⟩ | ⟨middle, rfl, hmiddle⟩
  · refine hback middle x after hmiddle ⟨hcounts.1, hcounts.2.1, ?_⟩
    intro hremoved
    obtain ⟨y, hy, hdenial⟩ := hremoved.2
    exact hcounts.2.2 ⟨hremoved.1, y, List.mem_append_right _ hy, hdenial⟩
  · cases middle with
    | nil =>
      refine hback [] x after hmiddle.symm ⟨hcounts.1, hcounts.2.1, ?_⟩
      simp
    | cons first middle =>
      injection hmiddle with hfirst
      subst hfirst
      exact hfront before _ middle rfl hcounts

omit [FloatText] in
theorem quiet_concat {front : List (Exchange Order Answer)} {x : Exchange Order Answer}
    (hfront : s.Quiet front) (hx : ¬ s.Counts front x) : s.Quiet (front ++ [x]) := by
  intro before y after hsaid
  rcases List.eq_nil_or_concat after with rfl | ⟨after, last, rfl⟩
  · obtain ⟨rfl, hlast⟩ := List.append_inj' hsaid rfl
    cases hlast
    exact hx
  · rw [List.concat_eq_append, ← List.cons_append, ← List.append_assoc] at hsaid
    obtain ⟨rfl, -⟩ := List.append_inj' hsaid rfl
    exact hfront before y after rfl

omit [FloatText] in
/-- A failure behind nothing but answers counts, unless it is a refusal. -/
theorem counts_behind_ok {front : List (Exchange Order Answer)} {x : Exchange Order Answer}
    {e : ClientError} (hx : x.2 = .error e) (hdenial : ¬ s.Denial x)
    (hok : ∀ y ∈ front, ∃ body, y.2 = .ok body) : s.Counts front x := by
  refine ⟨⟨e, hx⟩, hdenial, ?_⟩
  intro hremoved
  obtain ⟨y, hy, hdenied⟩ := hremoved.2
  obtain ⟨body, hbody⟩ := hok y hy
  obtain ⟨-, e', he', -⟩ := hdenied
  rw [hbody] at he'
  cases he'

theorem reports_behind_ok {front back : List (Exchange Order Answer)}
    {x : Exchange Order Answer} {e : ClientError} {failure : CallError}
    (hsaid : said = front ++ x :: back) (hx : x.2 = .error e) (hfailure : failure = .client e)
    (hdenial : ¬ s.Denial x) (hok : ∀ y ∈ front, ∃ body, y.2 = .ok body) :
    s.Reports said failure :=
  .inr ⟨front, x, e, back, hsaid, hx, hfailure, counts_behind_ok hx hdenial hok, quiet_of_ok hok⟩

omit [FloatText] in
theorem refusedOrReported_error {e : ClientError} {failure : CallError}
    (h : refusedOrReported (.client e) = .error failure) :
    failure = .client e ∧ denied (.client e) "create" = false := by
  unfold refusedOrReported at h
  split at h
  · cases h
  · rename_i hdenied
    cases h
    exact ⟨rfl, Bool.eq_false_iff.mpr hdenied⟩

omit [JsonText] in
/-- A handover that was answered with a path went well all along. -/
theorem handsOver_ok {path : String} (h : HandsOver s work (.ok path)) :
    ∃ written marked body, handedPath body = .ok path ∧
      work = [(s.written, .ok written), (s.marked, .ok marked), (s.handed, .ok body)] := by
  generalize hresult : (Except.ok path : Except CallError String) = result at h
  cases h with
  | answered written marked body => exact ⟨written, marked, body, rfl, rfl⟩
  | _ => cases hresult

/-- An upload that reached the cache. -/
theorem intoCache_at {path : String} (h : IntoCache s said (.ok (.at path))) :
    ∃ made created written marked body removed, handedPath body = .ok path ∧
      said = [(s.client.createOrder "map_node" s.client.fileCache, .ok made),
        (s.created, .ok created), (s.written, .ok written), (s.marked, .ok marked),
        (s.handed, .ok body), (s.removed, .ok removed)] := by
  generalize hresult : (Except.ok (.at path) : Except CallError Cached) = result at h
  cases h with
  | noDirectory e =>
    unfold refusedOrReported at hresult
    split at hresult <;> cases hresult
  | noStaging made e =>
    unfold refusedOrReported at hresult
    split at hresult <;> cases hresult
  | @staged made created work cached hwork removed =>
    unfold Client.settled at hresult
    cases cached with
    | error failed =>
      dsimp only at hresult
      split at hresult <;> cases hresult
    | ok path' =>
      cases removed with
      | error e => cases hresult
      | ok removed =>
        cases hresult
        obtain ⟨written, marked, body, hbody, rfl⟩ := handsOver_ok hwork
        exact ⟨made, created, written, marked, body, removed, hbody, rfl⟩

theorem intoCache_reports {failure : CallError} (h : IntoCache s said (.error failure))
    (hblamed : ∀ x ∈ said, Blamed x) : s.Reports said failure := by
  have hnone : ¬ ∃ x ∈ said, s.Denial x := by
    rw [← refused_iff_denial h hblamed]
    intro hrefused
    obtain ⟨denial, hdenial⟩ := hrefused
    cases hdenial
  have hquiet {front back : List (Exchange Order Answer)} {x : Exchange Order Answer}
      {e : ClientError} (hsaid : said = front ++ x :: back) (hx : x.2 = .error e)
      (hfailure : failure = .client e) (hok : ∀ y ∈ front, ∃ body, y.2 = .ok body) :
      s.Reports said failure := by
    refine reports_behind_ok hsaid hx hfailure ?_ hok
    intro hdenial
    exact hnone ⟨x, by simp [hsaid], hdenial⟩
  generalize hresult : (Except.error failure : Except CallError Cached) = result at h
  cases h with
  | noDirectory e =>
    obtain ⟨rfl, -⟩ := refusedOrReported_error hresult.symm
    exact @hquiet [] _ _ _ rfl rfl rfl (by simp)
  | noStaging made e =>
    obtain ⟨rfl, -⟩ := refusedOrReported_error hresult.symm
    exact @hquiet [_] _ _ _ rfl rfl rfl (by simp)
  | @staged made created work cached hwork removed =>
    unfold Client.settled at hresult
    cases cached with
    | ok path =>
      obtain ⟨written, marked, body, hbody, rfl⟩ := handsOver_ok hwork
      cases removed with
      | ok removed => cases hresult
      | error e =>
        cases hresult
        exact @hquiet [_, _, _, _, _] _ _ _ rfl rfl rfl (by simp)
    | error failed =>
      dsimp only at hresult
      split at hresult
      · cases hresult
      · injection hresult with hfailed
        subst hfailed
        generalize hcached : (Except.error failure : Except CallError String) = cached at hwork
        cases hwork with
        | unwritten e =>
          cases hcached
          exact @hquiet [_, _] _ _ _ rfl rfl rfl (by simp)
        | unmarked written e =>
          cases hcached
          exact @hquiet [_, _, _] _ _ _ rfl rfl rfl (by simp)
        | refused written marked e =>
          cases hcached
          exact @hquiet [_, _, _, _] _ _ _ rfl rfl rfl (by simp)
        | answered written marked body =>
          refine .inl ⟨[_, _, _, _], body, _, rfl, quiet_of_ok ?_, hcached.symm⟩
          simp

end

/-! ## The paths -/

/-- Neither of the two marks that the paths are made of. -/
def Plain (text : List Char) : Prop := ∀ c ∈ text, c ≠ '/' ∧ c ≠ '_'

theorem Plain.append {front back : List Char} (hfront : Plain front) (hback : Plain back) :
    Plain (front ++ back) := by
  intro c hc
  rcases List.mem_append.mp hc with hc | hc
  · exact hfront c hc
  · exact hback c hc

theorem plain_digits {text : List Char} (h : ∀ c ∈ text, (IpAddr.hexDigit c).isSome) :
    Plain text := by
  intro c hc
  refine ⟨?_, ?_⟩
  · rintro rfl
    exact absurd (h _ hc) (by decide)
  · rintro rfl
    exact absurd (h _ hc) (by decide)

theorem plain_digestText (digest : List UInt8) : Plain (digestText digest).toList := by
  unfold digestText
  rw [String.toList_ofList]
  apply plain_digits
  intro c hc
  obtain ⟨b, -, hb⟩ := List.mem_flatMap.mp hc
  exact Hex.padded_digits 2 b.toNat c hb

/-- The four numbers of a fresh id. -/
theorem generate_toList (first second : UInt64) :
    (generate first second).toList =
      Nat.toDigits 16 (first >>> 32).toNat ++ '-' :: (Nat.toDigits 16 first.toUInt32.toNat ++
        '-' :: (Nat.toDigits 16 (second >>> 32).toNat ++
          '-' :: Nat.toDigits 16 second.toUInt32.toNat)) := by
  unfold generate lowerHex
  simp [String.toList_append]

theorem plain_generate (first second : UInt64) : Plain (generate first second).toList := by
  rw [generate_toList]
  have hdigits (n : Nat) : Plain (Nat.toDigits 16 n) := plain_digits (Hex.toDigits_isDigits n).2
  have hmark {text : List Char} (h : Plain text) : Plain ('-' :: text) := by
    intro c hc
    rcases List.mem_cons.mp hc with rfl | hc
    · exact ⟨by decide, by decide⟩
    · exact h c hc
  exact (hdigits _).append (hmark ((hdigits _).append (hmark ((hdigits _).append
    (hmark (hdigits _))))))

/-- **Different words make different ids.** -/
theorem generate_inj {a b a' b' : UInt64} (h : generate a b = generate a' b') :
    a = a' ∧ b = b' := by
  have hlist := congrArg String.toList h
  rw [generate_toList, generate_toList] at hlist
  have hdigits (n : Nat) : '-' ∉ Nat.toDigits 16 n := (Hex.toDigits_isDigits n).not_mem.1
  have hpieces := congrArg (Text.split '-') hlist
  simp only [Text.split_append, Text.split_single (hdigits _), List.singleton_append,
    List.cons.injEq, and_true] at hpieces
  obtain ⟨h1, h2, h3, h4⟩ := hpieces
  have hvalue {m n : Nat} (h : Nat.toDigits 16 m = Nat.toDigits 16 n) : m = n := by
    rw [← Hex.value_toDigits m, h, Hex.value_toDigits]
  have hword {x y : UInt64} (hhigh : (x >>> 32).toNat = (y >>> 32).toNat)
      (hlow : x.toUInt32.toNat = y.toUInt32.toNat) : x = y := by
    apply UInt64.toNat_inj.mp
    rw [UInt64.toNat_shiftRight, UInt64.toNat_shiftRight] at hhigh
    rw [UInt64.toNat_toUInt32, UInt64.toNat_toUInt32] at hlow
    have hx := Nat.div_add_mod x.toNat (2 ^ 32)
    have hy := Nat.div_add_mod y.toNat (2 ^ 32)
    have hshift (n : Nat) : n >>> ((32 : UInt64).toNat % 64) = n / 2 ^ 32 :=
      Nat.shiftRight_eq_div_pow n 32
    rw [hshift, hshift] at hhigh
    omega
  exact ⟨hword (hvalue h1) (hvalue h2), hword (hvalue h3) (hvalue h4)⟩

/-- What the nodes are called in their directories. -/
def stagedName (digest : String) (nonce : MutationId) : List Char :=
  "staged_".toList ++ digest.toList ++ '_' :: nonce.id.toList

def uncachedName (digest : String) (nonce : MutationId) : List Char :=
  "ytsaurus_rs_worker_".toList ++ digest.toList ++ '_' :: nonce.id.toList

theorem stagingPath_toList (c : Client) (digest : String) (nonce : MutationId) :
    (c.stagingPath digest nonce).toList = c.fileCache.toList ++ '/' :: stagedName digest nonce := by
  unfold Client.stagingPath stagedName
  simp [String.toList_append]

theorem uncachedPath_toList (digest : String) (nonce : MutationId) :
    (Client.uncachedPath digest nonce).toList =
      UNCACHED_UPLOAD_DIR.toList ++ '/' :: uncachedName digest nonce := by
  unfold Client.uncachedPath uncachedName
  simp [String.toList_append]

/-- The paths of an upload are made of a hash and of a fresh id. -/
structure Upload.Drawn (u : Upload) : Prop where
  digest : Plain u.digest.toList
  staged : Plain u.staged.id.toList
  uncached : Plain u.uncached.id.toList

section

variable {u v : Upload}

theorem Upload.Drawn.slash (h : u.Drawn) :
    '/' ∉ stagedName u.digest u.staged ∧ '/' ∉ uncachedName u.digest u.uncached := by
  have hdigest (hmem : '/' ∈ u.digest.toList) : False := (h.digest _ hmem).1 rfl
  have hstaged (hmem : '/' ∈ u.staged.id.toList) : False := (h.staged _ hmem).1 rfl
  have huncached (hmem : '/' ∈ u.uncached.id.toList) : False := (h.uncached _ hmem).1 rfl
  unfold stagedName uncachedName
  refine ⟨?_, ?_⟩
  · simpa using ⟨hdigest, hstaged⟩
  · simpa using ⟨hdigest, huncached⟩

theorem staging_toList (u : Upload) : u.staging.path.toList =
    u.client.fileCache.toList ++ '/' :: stagedName u.digest u.staged :=
  stagingPath_toList u.client u.digest u.staged

theorem outside_toList (u : Upload) :
    u.outside.toList = UNCACHED_UPLOAD_DIR.toList ++ '/' :: uncachedName u.digest u.uncached :=
  uncachedPath_toList u.digest u.uncached

theorem stagedName_head (digest : String) (nonce : MutationId) :
    (stagedName digest nonce).head? = some 's' := by
  unfold stagedName
  simp

theorem uncachedName_head (digest : String) (nonce : MutationId) :
    (uncachedName digest nonce).head? = some 'y' := by
  unfold uncachedName
  simp

/-- **The staging nodes of two uploads are different nodes.** -/
theorem staging_ne (hu : u.Drawn) (hv : v.Drawn) (h : u.staged.id ≠ v.staged.id) :
    u.staging.path ≠ v.staging.path := by
  intro hsame
  have hlist := congrArg String.toList hsame
  rw [staging_toList, staging_toList] at hlist
  obtain ⟨-, hname⟩ := Text.append_mark_inj hlist hu.slash.1 hv.slash.1
  have hmark {w : Upload} (hw : w.Drawn) : '_' ∉ w.staged.id.toList :=
    fun hmem => (hw.staged _ hmem).2 rfl
  obtain ⟨-, hid⟩ := Text.append_mark_inj hname (hmark hu) (hmark hv)
  exact h (String.toList_inj.mp hid)

theorem outside_ne (hu : u.Drawn) (hv : v.Drawn) (h : u.uncached.id ≠ v.uncached.id) :
    u.outside ≠ v.outside := by
  intro hsame
  have hlist := congrArg String.toList hsame
  rw [outside_toList, outside_toList] at hlist
  obtain ⟨-, hname⟩ := Text.append_mark_inj hlist hu.slash.2 hv.slash.2
  have hmark {w : Upload} (hw : w.Drawn) : '_' ∉ w.uncached.id.toList :=
    fun hmem => (hw.uncached _ hmem).2 rfl
  obtain ⟨-, hid⟩ := Text.append_mark_inj hname (hmark hu) (hmark hv)
  exact h (String.toList_inj.mp hid)

theorem staging_ne_outside (hu : u.Drawn) (hv : v.Drawn) : u.staging.path ≠ v.outside := by
  intro hsame
  have hlist := congrArg String.toList hsame
  rw [staging_toList, outside_toList] at hlist
  obtain ⟨-, hname⟩ := Text.append_mark_inj hlist hu.slash.1 hv.slash.2
  have hhead := congrArg List.head? hname
  rw [stagedName_head, uncachedName_head] at hhead
  exact absurd hhead (by decide)

/-- An attribute is no node. -/
theorem executable_toList (path : String) :
    (path ++ "/@" ++ "executable").toList = path.toList ++ '/' :: "@executable".toList := by
  simp [String.toList_append]

theorem attribute_ne_staging (hu : u.Drawn) (path : String) :
    path ++ "/@" ++ "executable" ≠ u.staging.path := by
  intro hsame
  have hlist := congrArg String.toList hsame
  rw [executable_toList, staging_toList] at hlist
  obtain ⟨-, hname⟩ := Text.append_mark_inj hlist (by decide) hu.slash.1
  have hhead := congrArg List.head? hname
  rw [stagedName_head] at hhead
  exact absurd hhead (by decide)

theorem attribute_ne_outside (hu : u.Drawn) (path : String) :
    path ++ "/@" ++ "executable" ≠ u.outside := by
  intro hsame
  have hlist := congrArg String.toList hsame
  rw [executable_toList, outside_toList] at hlist
  obtain ⟨-, hname⟩ := Text.append_mark_inj hlist (by decide) hu.slash.2
  have hhead := congrArg List.head? hname
  rw [uncachedName_head] at hhead
  exact absurd hhead (by decide)

/-- A staging node holds no other one of the same cache. -/
theorem staging_not_above (hu : u.Drawn) (hcache : u.client.fileCache = v.client.fileCache)
    (rest : String) : u.staging.path ≠ v.staging.path ++ "/" ++ rest := by
  intro hsame
  have hlist := congrArg String.toList hsame
  rw [String.toList_append, String.toList_append, staging_toList, staging_toList, hcache,
    List.append_assoc, List.append_assoc] at hlist
  have hname := (List.cons.inj (List.append_cancel_left hlist)).2
  apply hu.slash.1
  rw [hname]
  simp

/-- Nor does it hold a worker outside the cache. -/
theorem outside_not_below (hu : u.Drawn) (hv : v.Drawn) (rest : String) :
    u.outside ≠ v.staging.path ++ "/" ++ rest := by
  intro hsame
  have hlist := congrArg String.toList hsame
  rw [String.toList_append, String.toList_append, staging_toList, outside_toList] at hlist
  have hslash : "/".toList ++ rest.toList = '/' :: rest.toList := by simp
  rw [List.append_assoc, hslash] at hlist
  have hpieces := congrArg (Text.split '/') hlist
  rw [Text.split_append, Text.split_append, Text.split_append, Text.split_single hu.slash.2,
    Text.split_single hv.slash.1] at hpieces
  -- the name of the staging node would be one of the pieces
  have hmem : stagedName v.digest v.staged ∈
      Text.split '/' UNCACHED_UPLOAD_DIR.toList ++ [uncachedName u.digest u.uncached] := by
    rw [hpieces]
    simp
  have hdirectory : Text.split '/' UNCACHED_UPLOAD_DIR.toList = [[], [], ['t', 'm', 'p']] := by
    decide
  have hhead := stagedName_head v.digest v.staged
  rw [hdirectory] at hmem
  simp only [List.cons_append, List.nil_append, List.mem_cons, List.not_mem_nil, or_false] at hmem
  rcases hmem with hname | hname | hname | hname
  all_goals rw [hname] at hhead
  · cases hhead
  · cases hhead
  · exact absurd hhead (by decide)
  · rw [uncachedName_head] at hhead
    exact absurd hhead (by decide)

/-- A path with a mark in its name is not that of an entry of the cache. -/
theorem not_namedByHash {path : String} {directory name : List Char}
    (hpath : path.toList = directory ++ '/' :: name) (hslash : '/' ∉ name) (hmark : '_' ∈ name) :
    ¬ Order.NamedByHash path := by
  intro h
  obtain ⟨directory', name', rfl, hdigits⟩ := h
  have hother : (directory' ++ "/" ++ name').toList = directory'.toList ++ '/' :: name'.toList := by
    simp [String.toList_append]
  have hdigit : '/' ∉ name'.toList := by
    intro hmem
    exact absurd (hdigits.2 _ hmem) (by decide)
  obtain ⟨-, rfl⟩ := Text.append_mark_inj (hpath.symm.trans hother) hslash hdigit
  exact absurd (hdigits.2 _ hmark) (by decide)

end

end Ytsaurus.Client
