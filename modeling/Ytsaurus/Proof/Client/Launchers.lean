import Ytsaurus.Proof.Client.FileCache
import Ytsaurus.Proof.Scalars

/-!
# `Proof/Client/Launchers.lean` — a launcher and what it may touch

A launcher uploads its worker, whatever the cluster answers. What its result says is true, and it
leaves the cache exactly when the cache refuses it. Of the nodes that another launcher writes it
touches none.

What a launcher says is an upload (`Proof/Client/FileCache.lean`), whose ids are made of four words
that were drawn for it. Here the words are fields of the launcher; that no two launchers drew the
same ones is a matter of all of them together (`Proof/Client/SharedCache.lean`).

What an upload returns says how it went: whether the worker was uploaded, whether it is in the
cache, and where it is. `upload_truthful` compares this with the dialogue it was part of.
`upload_leaves_cache` compares what the launcher did with what it was answered: a node outside the
cache is there if and only if the cache refused something, a failure that is reported is one that
counts and the first of these, and a success has none behind it. All three are read off the
relation of one upload, and what a front part of a dialogue says about the whole of it is in
`reports_behind`.
-/

set_option autoImplicit false

namespace Ytsaurus.Client

open Dialogue
open Yson (FloatText)

/-! ## What an upload touches -/

/-- The orders of an upload. -/
inductive UploadOrder (u : Upload) : Order → Prop
  | lookedUp : UploadOrder u u.lookedUp
  | made : UploadOrder u (u.client.createOrder "map_node" u.client.fileCache)
  | created : UploadOrder u u.staging.created
  | written : UploadOrder u u.staging.written
  | handed : UploadOrder u u.staging.handed
  | removed : UploadOrder u u.staging.removed
  | outsideCreated : UploadOrder u (u.client.createOrder "file" u.outside)
  | outsideWritten : UploadOrder u (u.client.writeFileOrder u.outside u.bytes false)
  | marked (path : String) : UploadOrder u (u.client.setOrder path "executable" encodedTrue)

section

variable [FloatText] [JsonText] {u v : Upload} {said : List (Exchange Order Answer)}
  {r : Except CallError CachedFile}

omit [JsonText] in
theorem order_of_handsOver {cached : Except CallError String}
    (h : HandsOver u.staging said cached) : ∀ x ∈ said, UploadOrder u x.1 := by
  cases h
  all_goals
    simp only [List.mem_cons, List.not_mem_nil, or_false, forall_eq_or_imp, forall_eq]
  · exact .written
  · exact ⟨.written, .marked _⟩
  · exact ⟨.written, .marked _, .handed⟩
  · exact ⟨.written, .marked _, .handed⟩

theorem order_of_intoCache {cached : Except CallError Cached}
    (h : IntoCache u.staging said cached) : ∀ x ∈ said, UploadOrder u x.1 := by
  cases h with
  | noDirectory e =>
    simp only [List.mem_singleton, forall_eq]
    exact .made
  | noStaging made e =>
    simp only [List.mem_cons, List.not_mem_nil, or_false, forall_eq_or_imp, forall_eq]
    exact ⟨.made, .created⟩
  | staged made created hwork removed =>
    simp only [List.mem_cons, List.mem_append, List.not_mem_nil, or_false, or_imp, forall_and,
      forall_eq]
    exact ⟨.made, .created, order_of_handsOver hwork, .removed⟩

omit [FloatText] [JsonText] in
theorem order_of_uncached {result : Except CallError String}
    (h : Uncached u.client u.bytes u.outside said result) : ∀ x ∈ said, UploadOrder u x.1 := by
  cases h
  all_goals
    simp only [List.mem_cons, List.not_mem_nil, or_false, forall_eq_or_imp, forall_eq]
  · exact .outsideCreated
  · exact ⟨.outsideCreated, .outsideWritten⟩
  · exact ⟨.outsideCreated, .outsideWritten, .marked _⟩
  · exact ⟨.outsideCreated, .outsideWritten, .marked _⟩

theorem order_of_uploads (h : Uploads u said r) : ∀ x ∈ said, UploadOrder u x.1 := by
  cases h
  all_goals
    simp only [List.mem_cons, List.mem_append, List.not_mem_nil, or_false, or_imp, forall_and,
      forall_eq]
  · exact .lookedUp
  · exact .lookedUp
  · exact .lookedUp
  · rename_i hwork
    exact ⟨.lookedUp, order_of_intoCache hwork⟩
  · rename_i hwork
    exact ⟨.lookedUp, order_of_intoCache hwork, .marked _⟩
  · rename_i hwork hrest
    exact ⟨.lookedUp, order_of_intoCache hwork, order_of_uncached hrest⟩

omit [FloatText] [JsonText] in
theorem touches_handed {path : String} :
    u.staging.handed.Touches path ↔ u.staging.path = path ∨ Order.NamedByHash path := by
  simp [Staging.handed, Client.putFileToCacheOrder, Order.Touches, Order.READS, Order.target,
    YsonBuild.field_map]

omit [FloatText] [JsonText] in
theorem not_touches_lookedUp {path : String} : ¬ u.lookedUp.Touches path := by
  simp [Upload.lookedUp, Client.getFileFromCacheOrder, Order.Touches, Order.READS]

omit [FloatText] [JsonText] in
/-- **A staging node is touched by its own upload only.** -/
theorem not_touches_staging (hu : u.Drawn) (hv : v.Drawn) (hstaged : u.staged.id ≠ v.staged.id)
    (hcache : u.client.fileCache = v.client.fileCache) {order : Order}
    (horder : UploadOrder v order) : ¬ order.Touches u.staging.path := by
  have hne : v.staging.path ≠ u.staging.path := fun h => staging_ne hu hv hstaged h.symm
  have houtside : v.outside ≠ u.staging.path := fun h => staging_ne_outside hu hv h.symm
  intro htouches
  cases horder with
  | lookedUp => exact not_touches_lookedUp htouches
  | made => exact absurd ((touches_createOrder _).mp htouches).2 (by decide)
  | created => exact hne ((touches_createOrder _).mp htouches).1
  | written => exact hne ((touches_writeFileOrder _).mp htouches)
  | handed =>
    rcases touches_handed.mp htouches with h | h
    · exact hne h
    · exact not_namedByHash (staging_toList u) hu.slash.1
        (List.mem_append_right _ List.mem_cons_self) h
  | removed =>
    rcases (touches_removeOrder _).mp htouches with h | ⟨rest, h⟩
    · exact hne h
    · exact staging_not_above hu hcache rest h
  | outsideCreated => exact houtside ((touches_createOrder _).mp htouches).1
  | outsideWritten => exact houtside ((touches_writeFileOrder _).mp htouches)
  | marked path => exact attribute_ne_staging hu path ((touches_setOrder _).mp htouches)

omit [FloatText] [JsonText] in
/-- **A worker outside the cache is touched by its own upload only.** -/
theorem not_touches_outside (hu : u.Drawn) (hv : v.Drawn)
    (huncached : u.uncached.id ≠ v.uncached.id) {order : Order} (horder : UploadOrder v order) :
    ¬ order.Touches u.outside := by
  have hne : v.outside ≠ u.outside := fun h => outside_ne hu hv huncached h.symm
  have hstaging : v.staging.path ≠ u.outside := staging_ne_outside hv hu
  intro htouches
  cases horder with
  | lookedUp => exact not_touches_lookedUp htouches
  | made => exact absurd ((touches_createOrder _).mp htouches).2 (by decide)
  | created => exact hstaging ((touches_createOrder _).mp htouches).1
  | written => exact hstaging ((touches_writeFileOrder _).mp htouches)
  | handed =>
    rcases touches_handed.mp htouches with h | h
    · exact hstaging h
    · exact not_namedByHash (outside_toList u) hu.slash.2
        (List.mem_append_right _ List.mem_cons_self) h
  | removed =>
    rcases (touches_removeOrder _).mp htouches with h | ⟨rest, h⟩
    · exact hstaging h
    · exact outside_not_below hu hv rest h
  | outsideCreated => exact hne ((touches_createOrder _).mp htouches).1
  | outsideWritten => exact hne ((touches_writeFileOrder _).mp htouches)
  | marked path => exact attribute_ne_outside hu path ((touches_setOrder _).mp htouches)

end

/-! ## Launchers -/

/-- A process that uploads a worker; the words are those that its two ids are made of. -/
structure Launcher where
  client : Client
  name : String
  bytes : List UInt8
  staged : UInt64 × UInt64
  uncached : UInt64 × UInt64

namespace Launcher

variable (md5 : List UInt8 → List UInt8) (l : Launcher)

def upload : Upload where
  client := l.client
  name := l.name
  bytes := l.bytes
  digest := digestText (md5 l.bytes)
  staged := .new l.staged.1 l.staged.2
  uncached := .new l.uncached.1 l.uncached.2

/-- What the launcher does. -/
def run [FloatText] [JsonText] : Commands CachedFile :=
  l.client.uploadWorkerCached md5 l.name l.bytes (.new l.staged.1 l.staged.2)
    (.new l.uncached.1 l.uncached.2)

theorem drawn : (l.upload md5).Drawn where
  digest := plain_digestText _
  staged := plain_generate _ _
  uncached := plain_generate _ _

end Launcher

section

variable [FloatText] [JsonText] {md5 : List UInt8 → List UInt8} {l : Launcher}
  {said : List (Exchange Order Answer)}

/-- What is said to the cache, with its answer to the handover. -/
def Launcher.cacheTalk (md5 : List UInt8 → List UInt8) (l : Launcher) (handed : Answer) :
    List (Exchange Order Answer) :=
  [(l.client.createOrder "map_node" l.client.fileCache, .ok []),
    ((l.upload md5).staging.created, .ok []), ((l.upload md5).staging.written, .ok []),
    ((l.upload md5).staging.marked, .ok []), ((l.upload md5).staging.handed, handed),
    ((l.upload md5).staging.removed, .ok [])]

/-- What is said when the cache takes the worker. -/
def Launcher.cachedTalk (md5 : List UInt8 → List UInt8) (l : Launcher) (miss reply : List UInt8)
    (path : String) : List (Exchange Order Answer) :=
  ((l.upload md5).lookedUp, .ok miss) :: (l.cacheTalk md5 (.ok reply) ++
    [(l.client.setOrder path "executable" encodedTrue, .ok [])])

/-- What is said when it does not, and the worker is uploaded elsewhere. -/
def Launcher.refusedTalk (md5 : List UInt8 → List UInt8) (l : Launcher) (miss : List UInt8)
    (denial : ClientError) : List (Exchange Order Answer) :=
  ((l.upload md5).lookedUp, .ok miss) :: (l.cacheTalk md5 (.error denial) ++
    [(l.client.createOrder "file" (l.upload md5).outside, .ok []),
      (l.client.writeFileOrder (l.upload md5).outside l.bytes false, .ok []),
      (l.client.setOrder (l.upload md5).outside "executable" encodedTrue, .ok [])])

omit [FloatText] [JsonText] in
theorem talk_tell (order : Order) (body : List UInt8) :
    Talk (tell order) [(order, .ok body)] (.ok ()) := talk_tell_ok_iff.mpr ⟨body, rfl⟩

omit [JsonText] in
theorem talk_missed {miss : List UInt8}
    (hmiss : Client.cachedPath miss "get_file_from_cache" = .ok none) :
    Talk (l.client.fileFromCache (l.upload md5).digest) [((l.upload md5).lookedUp, .ok miss)]
      (.ok none) := by
  apply talk_andThen_iff.mpr
  refine .inr ⟨_, miss, [], rfl, talk_request_ok_iff.mpr rfl, ?_⟩
  rw [hmiss]
  exact .done _

/-- Everything goes well up to the handover, and so does the removal. -/
theorem talk_intoCache {handed : Answer} {result : Except CallError String} {cached : Cached}
    (hput : Talk (l.client.putFileToCache (l.upload md5).staging.path (l.upload md5).digest)
      [((l.upload md5).staging.handed, handed)] result)
    (hsettled : Client.settled result (.ok ()) = .ok cached) :
    Talk (l.client.uploadIntoCache l.bytes (l.upload md5).digest (l.upload md5).staged)
      (l.cacheTalk md5 handed) (.ok cached) := by
  have hover : Talk (l.client.handOver l.bytes (l.upload md5).digest (l.upload md5).staging.path)
      [((l.upload md5).staging.written, .ok []), ((l.upload md5).staging.marked, .ok []),
        ((l.upload md5).staging.handed, handed)] result :=
    talk_andThen_iff.mpr (.inr ⟨[_, _], (), [_], rfl,
      talk_andThen_iff.mpr (.inr ⟨[_], (), [_], rfl, talk_tell _ _, talk_tell _ _⟩), hput⟩)
  rw [← hsettled]
  exact talk_bind_iff.mpr ⟨[_], .ok (), _, rfl, talk_tell _ _,
    talk_bind_iff.mpr ⟨[_], .ok (), _, rfl, talk_tell _ _,
      talk_bind_iff.mpr ⟨[_, _, _], result, [_], rfl, hover,
        talk_bind_iff.mpr ⟨[_], .ok (), [], rfl, talk_tell _ _, .done _⟩⟩⟩⟩

theorem talk_cached {miss reply : List UInt8} {path : String}
    (hmiss : Client.cachedPath miss "get_file_from_cache" = .ok none)
    (hreply : Client.cachedPath reply "put_file_to_cache" = .ok (some path)) :
    Talk (l.run md5) (l.cachedTalk md5 miss reply path) (.ok ⟨path, l.name, true, true⟩) := by
  have hput : Talk (l.client.putFileToCache (l.upload md5).staging.path (l.upload md5).digest)
      [((l.upload md5).staging.handed, .ok reply)] (.ok path) := by
    apply talk_andThen_iff.mpr
    refine .inr ⟨_, reply, [], rfl, talk_request_ok_iff.mpr rfl, ?_⟩
    rw [hreply]
    exact .done _
  exact talk_andThen_iff.mpr (.inr ⟨[_], none, _, rfl, talk_missed hmiss,
    talk_andThen_iff.mpr (.inr ⟨_, .at path, [_], rfl, talk_intoCache hput rfl,
      talk_andThen_iff.mpr (.inr ⟨[_], (), [], rfl, talk_tell _ _, .done _⟩)⟩)⟩)

theorem talk_refused {miss : List UInt8} {denial : ClientError}
    (hmiss : Client.cachedPath miss "get_file_from_cache" = .ok none)
    (hdenied : denied (.client denial) "put_file_to_cache" = true) :
    Talk (l.run md5) (l.refusedTalk md5 miss denial)
      (.ok ⟨(l.upload md5).outside, l.name, true, false⟩) := by
  have hput : Talk (l.client.putFileToCache (l.upload md5).staging.path (l.upload md5).digest)
      [((l.upload md5).staging.handed, .error denial)] (.error (.client denial)) :=
    talk_andThen_iff.mpr (.inl ⟨_, talk_request_iff.mpr ⟨_, rfl, rfl⟩, rfl⟩)
  have hsettled : Client.settled (.error (.client denial)) (.ok ()) =
      .ok (.refused (.client denial)) := by
    unfold Client.settled
    exact if_pos hdenied
  exact talk_andThen_iff.mpr (.inr ⟨[_], none, _, rfl, talk_missed hmiss,
    talk_andThen_iff.mpr (.inr ⟨_, _, [_, _, _], rfl, talk_intoCache hput hsettled,
      talk_andThen_iff.mpr (.inr ⟨[_, _, _], _, [], rfl,
        talk_andThen_iff.mpr (.inr ⟨[_, _, _], (), [], rfl,
          talk_andThen_iff.mpr (.inr ⟨[_], (), [_, _], rfl, talk_tell _ _,
            talk_andThen_iff.mpr (.inr ⟨[_], (), [_], rfl, talk_tell _ _, talk_tell _ _⟩)⟩),
          .done _⟩),
        .done _⟩)⟩)⟩)

/-- **What an upload returns is so.** A hit is what the lookup was answered with, and nothing else
was sent. A cached worker was written with its hash recorded, made executable, handed over to the
path that is returned, and its staging node removed, all of it with success and in this order. An
uncached one stands under a path of its own, written and executable. -/
theorem upload_truthful {file : CachedFile} (h : Talk (l.run md5) said (.ok file)) :
    file.name = l.name ∧
      (file.uploaded = false → file.cached = true ∧ ∃ body,
        said = [((l.upload md5).lookedUp, .ok body)] ∧
          Client.cachedPath body "get_file_from_cache" = .ok (some file.path)) ∧
      (file.uploaded = true → file.cached = true →
        ∃ written marked body removed last : List UInt8,
          handedPath body = .ok file.path ∧
            [((l.upload md5).staging.written, .ok written),
              ((l.upload md5).staging.marked, .ok marked),
              ((l.upload md5).staging.handed, .ok body),
              ((l.upload md5).staging.removed, .ok removed),
              (l.client.setOrder file.path "executable" encodedTrue, .ok last)].Sublist said) ∧
      (file.cached = false → file.uploaded = true ∧ file.path = (l.upload md5).outside ∧
        ∃ front created written marked, said = front ++
          [(l.client.createOrder "file" file.path, .ok created),
            (l.client.writeFileOrder file.path l.bytes false, .ok written),
            (l.client.setOrder file.path "executable" encodedTrue, .ok marked)]) := by
  have huploads := uploads_of_talk h
  generalize hresult : (Except.ok file : Except CallError CachedFile) = result at huploads
  cases huploads with
  | unanswered e => cases hresult
  | unreadable body failure hbody => cases hresult
  | failed body failure hbody hwork => cases hresult
  | hit body path hbody =>
    cases hresult
    exact ⟨rfl, fun _ => ⟨rfl, body, rfl, hbody⟩, nofun, nofun⟩
  | cached body path marked hbody hwork =>
    cases marked with
    | error e => cases hresult
    | ok last =>
      cases hresult
      obtain ⟨made, created, written, marked, reply, removed, hreply, rfl⟩ := intoCache_at hwork
      refine ⟨rfl, nofun, ?_, nofun⟩
      intro _ _
      refine ⟨written, marked, reply, removed, last, hreply, ?_⟩
      apply List.Sublist.cons
      apply List.Sublist.cons
      apply List.Sublist.cons
      exact List.Sublist.refl _
  | @refused body denial work rest result hbody hwork hrest =>
    cases hrest with
    | uploaded created written marked =>
      cases hresult
      exact ⟨rfl, nofun, nofun, fun _ => ⟨rfl, rfl, _ :: work, created, written, marked, rfl⟩⟩
    | _ => cases hresult

end

theorem answered {body : List UInt8} {command : String} {path : Option String}
    (h : (@Client.cachedPath Yson.plainFloatText body command).toOption = some path) :
    @Client.cachedPath Yson.plainFloatText body command = .ok path := by
  cases hpath : @Client.cachedPath Yson.plainFloatText body command with
  | error e =>
    rw [hpath] at h
    cases h
  | ok path' =>
    rw [hpath] at h
    cases h
    rfl

/-- `""`. -/
def emptyText : List UInt8 := [34, 34]

/-- `"//w"`. -/
def pathText : List UInt8 := [34, 47, 47, 119, 34]

theorem emptyText_missed :
    @Client.cachedPath Yson.plainFloatText emptyText "get_file_from_cache" = .ok none :=
  answered (by decide +kernel)

theorem pathText_handed :
    @Client.cachedPath Yson.plainFloatText pathText "put_file_to_cache" = .ok (some "//w") :=
  answered (by decide +kernel)

def oneLauncher : Launcher where
  client := ⟨.new ['a'] none true none false 0, false, "//cache"⟩
  name := "worker"
  bytes := [1]
  staged := (1, 2)
  uncached := (3, 4)

theorem upload_truthful_cached :
    ∃ written marked body removed last : List UInt8,
      @handedPath Yson.plainFloatText body = .ok "//w" ∧
        [((oneLauncher.upload id).staging.written, .ok written),
          ((oneLauncher.upload id).staging.marked, .ok marked),
          ((oneLauncher.upload id).staging.handed, .ok body),
          ((oneLauncher.upload id).staging.removed, .ok removed),
          (oneLauncher.client.setOrder "//w" "executable" encodedTrue, .ok last)].Sublist
            (oneLauncher.cachedTalk id emptyText pathText "//w") := by
  let _ : FloatText := Yson.plainFloatText
  let _ : JsonText := ⟨fun _ => none⟩
  exact (upload_truthful (talk_cached emptyText_missed pathText_handed)).2.2.1 rfl rfl

section

variable [FloatText] [JsonText] {said : List (Exchange Order Answer)}

/-! ## Leaving the cache -/

section

variable {u : Upload} {work : List (Exchange Order Answer)}

omit [FloatText] in
theorem lookedUp_not_denial (u : Upload) (answer : Answer) :
    ¬ u.staging.Denial (u.lookedUp, answer) := by
  apply not_denial_of_command
  simp [Upload.lookedUp, Client.getFileFromCacheOrder]

omit [FloatText] [JsonText] in
/-- The node outside the cache is made by none of the writes that the cache asks for. -/
theorem outside_not_cacheWrite (hu : u.Drawn) :
    ¬ u.staging.CacheWrite (u.client.createOrder "file" u.outside) := by
  intro h
  rcases h with h | h | h
  · have htype := congrArg Order.nodeType h
    rw [nodeType_createOrder, nodeType_createOrder] at htype
    exact absurd htype (by decide)
  · have htarget := congrArg Order.target h
    rw [Staging.created, target_createOrder, target_createOrder] at htarget
    exact staging_ne_outside hu hu (Option.some.inj htarget).symm
  · have hcommand : "create" = "put_file_to_cache" := congrArg Order.command h
    exact absurd hcommand (by decide)

/-- The launcher makes a node of its own outside the cache. -/
def Upload.LeavesCache (u : Upload) (said : List (Exchange Order Answer)) : Prop :=
  ∃ x ∈ said, x.1 = u.client.createOrder "file" u.outside

omit [FloatText] [JsonText] in
theorem ne_createOrder {order : Order} {nodeType path : String} {c : Client}
    (h : order.command ≠ "create") : order ≠ c.createOrder nodeType path := by
  intro hsame
  apply h
  rw [hsame]
  rfl

omit [FloatText] [JsonText] in
theorem handsOver_stays [FloatText] {cached : Except CallError String}
    (h : HandsOver u.staging work cached) : ¬ u.LeavesCache work := by
  have hwritten : u.staging.written ≠ u.client.createOrder "file" u.outside := by
    apply ne_createOrder
    simp [Staging.written]
  have hmarked : u.staging.marked ≠ u.client.createOrder "file" u.outside := by
    apply ne_createOrder
    simp [Staging.marked]
  have hhanded : u.staging.handed ≠ u.client.createOrder "file" u.outside := by
    apply ne_createOrder
    simp [Staging.handed, Client.putFileToCacheOrder]
  unfold Upload.LeavesCache
  cases h with
  | unwritten e => simpa using hwritten
  | unmarked written e => simpa using ⟨hwritten, hmarked⟩
  | refused written marked e => simpa using ⟨hwritten, hmarked, hhanded⟩
  | answered written marked body => simpa using ⟨hwritten, hmarked, hhanded⟩

theorem intoCache_stays (hu : u.Drawn) {cached : Except CallError Cached}
    (h : IntoCache u.staging work cached) : ¬ u.LeavesCache work := by
  have hmade : u.staging.client.createOrder "map_node" u.staging.client.fileCache ≠
      u.client.createOrder "file" u.outside :=
    fun hsame => outside_not_cacheWrite hu (.inl hsame.symm)
  have hcreated : u.staging.created ≠ u.client.createOrder "file" u.outside :=
    fun hsame => outside_not_cacheWrite hu (.inr (.inl hsame.symm))
  have hremoved : u.staging.removed ≠ u.client.createOrder "file" u.outside := by
    apply ne_createOrder
    simp [Staging.removed]
  intro hleaves
  obtain ⟨x, hx, horder⟩ := hleaves
  cases h with
  | noDirectory e =>
    rw [List.mem_singleton] at hx
    rw [hx] at horder
    exact hmade horder
  | noStaging made e =>
    simp only [List.mem_cons, List.not_mem_nil, or_false] at hx
    rcases hx with rfl | rfl
    · exact hmade horder
    · exact hcreated horder
  | staged made created hwork removed =>
    simp only [List.mem_cons, List.mem_append, List.not_mem_nil, or_false] at hx
    rcases hx with rfl | rfl | hx | rfl
    · exact hmade horder
    · exact hcreated horder
    · exact handsOver_stays hwork ⟨x, hx, horder⟩
    · exact hremoved horder

/-- A report stands behind more that is quiet, unless it is about a removal and there was a refusal
to excuse it. -/
theorem reports_behind {s : Staging} {front back : List (Exchange Order Answer)}
    {failure : CallError} (h : s.Reports back failure) (hfront : s.Quiet front)
    (hremoved : ∀ x ∈ back, x.1 = s.removed → ∀ y ∈ front, ¬ s.Denial y) :
    s.Reports (front ++ back) failure := by
  rcases h with ⟨before, body, after, rfl, hquiet, hpath⟩ |
    ⟨before, x, e, after, rfl, hx, hfailure, hcounts, hquiet⟩
  · exact .inl ⟨front ++ before, body, after, by simp, quiet_append hfront hquiet, hpath⟩
  · refine .inr ⟨front ++ before, x, e, after, by simp, hx, hfailure, ?_,
      quiet_append hfront hquiet⟩
    refine ⟨hcounts.1, hcounts.2.1, ?_⟩
    intro hbehind
    obtain ⟨y, hy, hdenial⟩ := hbehind.2
    rcases List.mem_append.mp hy with hy | hy
    · exact hremoved x (by simp) hbehind.1 y hy hdenial
    · exact hcounts.2.2 ⟨hbehind.1, y, hy, hdenial⟩

omit [FloatText] in
theorem denial_not_counts {s : Staging} {front : List (Exchange Order Answer)}
    {x : Exchange Order Answer} (h : s.Denial x) : ¬ s.Counts front x :=
  fun hcounts => hcounts.2.1 h

/-- Where the cache refused, nothing that failed counts. -/
theorem intoCache_refused {s : Staging} {denial : CallError}
    (h : IntoCache s work (.ok (.refused denial))) (hblamed : ∀ x ∈ work, Blamed x) :
    s.Quiet work := by
  have hdenials := (refused_iff_denial h hblamed).mp ⟨denial, rfl⟩
  generalize hresult : (Except.ok (.refused denial) : Except CallError Cached) = result at h
  obtain ⟨x, hx, hdenial⟩ := hdenials
  cases h with
  | noDirectory e =>
    rw [List.mem_singleton] at hx
    subst hx
    exact @quiet_concat _ s [] _ (quiet_of_ok (by simp)) (denial_not_counts hdenial)
  | noStaging made e =>
    simp only [List.mem_cons, List.not_mem_nil, or_false] at hx
    rcases hx with rfl | rfl
    · exact absurd hdenial (not_denial_of_ok _ _)
    · exact @quiet_concat _ s [_] _ (quiet_of_ok (by simp)) (denial_not_counts hdenial)
  | @staged made created work cached hwork removed =>
    obtain ⟨failed, hcached, hdenied⟩ := settled_refused_iff.mp ⟨denial, hresult.symm⟩
    have hwritten : ∀ x ∈ work, Blamed x := by
      intro x hx
      apply hblamed
      simp [hx]
    cases hwork with
    | unwritten e =>
      cases hcached
      rw [written_not_denied (hwritten _ List.mem_cons_self)] at hdenied
      cases hdenied
    | unmarked written e =>
      cases hcached
      rw [marked_not_denied (hwritten ((s.marked, .error e)) (by simp))] at hdenied
      cases hdenied
    | refused written marked e =>
      cases hcached
      have hrefused : s.Denial (s.handed, .error e) := ⟨.inr (.inr rfl), e, rfl, hdenied⟩
      have hfront : s.Quiet [(s.client.createOrder "map_node" s.client.fileCache, .ok made),
          (s.created, .ok created), (s.written, .ok written), (s.marked, .ok marked),
          (s.handed, .error e)] :=
        @quiet_concat _ s [_, _, _, _] _ (quiet_of_ok (by simp)) (denial_not_counts hrefused)
      apply @quiet_concat _ s [_, _, _, _, _] _ hfront
      -- the node could not be removed, and the cache had refused it
      intro hcounts
      exact hcounts.2.2 ⟨rfl, _, by simp, hrefused⟩
    | answered written marked body =>
      obtain ⟨problem, rfl⟩ := handedPath_error hcached
      cases hdenied

/-- An upload outside the cache reports what failed. -/
theorem uncached_reports (hu : u.Drawn) {failure : CallError}
    (h : Uncached u.client u.bytes u.outside work (.error failure)) :
    u.staging.Reports work failure := by
  generalize hresult : (Except.error failure : Except CallError String) = result at h
  cases h with
  | uncreated e =>
    cases hresult
    apply @reports_behind_ok _ _ _ _ [] _ _ e _ rfl rfl rfl
    · intro hdenial
      exact outside_not_cacheWrite hu hdenial.1
    · simp
  | unwritten created e =>
    cases hresult
    apply @reports_behind_ok _ _ _ _ [_] _ _ e _ rfl rfl rfl
    · apply not_denial_of_command
      simp
    · simp
  | unmarked created written e =>
    cases hresult
    apply @reports_behind_ok _ _ _ _ [_, _] _ _ e _ rfl rfl rfl
    · apply not_denial_of_command
      simp
    · simp
  | uploaded created written marked => cases hresult

omit [FloatText] [JsonText] in
theorem uncached_not_removed {r : Except CallError String}
    (h : Uncached u.client u.bytes u.outside work r) : ∀ x ∈ work, x.1 ≠ u.staging.removed := by
  have hcommand : ∀ x ∈ work, x.1.command ≠ u.staging.removed.command := by
    cases h <;> simp [Staging.removed]
  intro x hx hremoved
  exact hcommand x hx (congrArg Order.command hremoved)

omit [FloatText] [JsonText] in
theorem uncached_all_ok {path : String} (h : Uncached u.client u.bytes u.outside work (.ok path)) :
    ∀ x ∈ work, ∃ body, x.2 = .ok body := by
  generalize hresult : (Except.ok path : Except CallError String) = result at h
  cases h with
  | uploaded created written marked => simp
  | _ => cases hresult

/-- What an upload fails with: a lookup it could not read, behind which nothing is said, or what its
work reports. -/
def Upload.Reports (u : Upload) (said : List (Exchange Order Answer)) (failure : CallError) :
    Prop :=
  (∃ body, said = [(u.lookedUp, .ok body)] ∧
      Client.cachedPath body "get_file_from_cache" = .error failure) ∨
    u.staging.Reports said failure

omit [FloatText] [JsonText] in
theorem leavesCache_cons {x : Exchange Order Answer} (hx : x.1.command ≠ "create")
    (rest : List (Exchange Order Answer)) : u.LeavesCache (x :: rest) ↔ u.LeavesCache rest := by
  unfold Upload.LeavesCache
  rw [List.exists_mem_cons_iff, or_iff_right]
  exact ne_createOrder hx

omit [FloatText] [JsonText] in
theorem leavesCache_append (front back : List (Exchange Order Answer)) :
    u.LeavesCache (front ++ back) ↔ u.LeavesCache front ∨ u.LeavesCache back := by
  simp only [Upload.LeavesCache, List.mem_append, or_and_right, exists_or]

theorem uploads_leaves {r : Except CallError CachedFile} (hu : u.Drawn) (h : Uploads u said r)
    (hblamed : ∀ x ∈ said, Blamed x) :
    u.LeavesCache said ↔ ∃ x ∈ said, u.staging.Denial x := by
  have hlookup : u.lookedUp.command ≠ "create" := by
    simp [Upload.lookedUp, Client.getFileFromCacheOrder]
  have hnothing (answer : Answer) : u.LeavesCache [(u.lookedUp, answer)] ↔
      ∃ x ∈ [(u.lookedUp, answer)], u.staging.Denial x := by
    rw [leavesCache_cons hlookup]
    simp [Upload.LeavesCache, lookedUp_not_denial]
  cases h with
  | unanswered e => exact hnothing _
  | unreadable body failure hbody => exact hnothing _
  | hit body path hbody => exact hnothing _
  | @failed body failure work hbody hwork =>
    have hworked : ∀ x ∈ work, Blamed x := fun x hx => hblamed x (List.mem_cons_of_mem _ hx)
    rw [leavesCache_cons hlookup, List.exists_mem_cons_iff, or_iff_right (lookedUp_not_denial u _),
      ← refused_iff_denial hwork hworked, iff_false_left (intoCache_stays hu hwork)]
    intro hrefused
    obtain ⟨denial, hdenial⟩ := hrefused
    cases hdenial
  | @cached body path marked work hbody hwork =>
    have hworked : ∀ x ∈ work, Blamed x := by
      intro x hx
      apply hblamed
      simp [hx]
    have hlast : (u.client.setOrder path "executable" encodedTrue).command ≠ "create" := by simp
    have hset : ¬ u.staging.Denial (u.client.setOrder path "executable" encodedTrue, marked) := by
      apply not_denial_of_command
      simp
    have hnone : ¬ ∃ x ∈ work, u.staging.Denial x := by
      rw [← refused_iff_denial hwork hworked]
      intro hrefused
      obtain ⟨denial, hdenial⟩ := hrefused
      cases hdenial
    rw [leavesCache_cons hlookup, leavesCache_append, leavesCache_cons hlast,
      List.exists_mem_cons_iff, or_iff_right (lookedUp_not_denial u _)]
    simp only [List.mem_append, or_and_right, exists_or, List.mem_singleton, exists_eq_left]
    refine iff_of_false ?_ ?_
    · intro hleaves
      rcases hleaves with hleaves | hleaves
      · exact intoCache_stays hu hwork hleaves
      · simp [Upload.LeavesCache] at hleaves
    · intro hdenial
      rcases hdenial with hdenial | hdenial
      · exact hnone hdenial
      · exact hset hdenial
  | @refused body denial work rest result hbody hwork hrest =>
    have hworked : ∀ x ∈ work, Blamed x := by
      intro x hx
      apply hblamed
      simp [hx]
    obtain ⟨x, hx, hdenial⟩ := (refused_iff_denial hwork hworked).mp ⟨denial, rfl⟩
    refine iff_of_true ?_ ⟨x, by simp [hx], hdenial⟩
    rw [leavesCache_cons hlookup, leavesCache_append]
    refine .inr ?_
    cases hrest
    all_goals exact ⟨_, List.mem_cons_self, rfl⟩

theorem uploads_reports {failure : CallError} (hu : u.Drawn)
    (h : Uploads u said (.error failure)) (hblamed : ∀ x ∈ said, Blamed x) :
    u.Reports said failure := by
  generalize hresult : (Except.error failure : Except CallError CachedFile) = result at h
  have hbehind {body : List UInt8} {back : List (Exchange Order Answer)}
      (h : u.staging.Reports back failure) :
      u.staging.Reports ([(u.lookedUp, .ok body)] ++ back) failure := by
    refine reports_behind h (quiet_of_ok (by simp)) ?_
    intro x hx hremoved y hy
    rw [List.mem_singleton] at hy
    rw [hy]
    exact not_denial_of_ok _ _
  cases h with
  | unanswered e =>
    cases hresult
    exact .inr (@reports_behind_ok _ _ _ _ [] _ _ e _ rfl rfl rfl (lookedUp_not_denial u _)
      (by simp))
  | unreadable body problem hbody =>
    cases hresult
    exact .inl ⟨body, rfl, hbody⟩
  | hit body path hbody => cases hresult
  | @failed body problem work hbody hwork =>
    cases hresult
    have hworked : ∀ x ∈ work, Blamed x := fun x hx => hblamed x (List.mem_cons_of_mem _ hx)
    exact .inr (hbehind (intoCache_reports hwork hworked))
  | @cached body path marked work hbody hwork =>
    cases marked with
    | ok last => cases hresult
    | error e =>
      cases hresult
      obtain ⟨made, created, written, marked, reply, removed, -, hsaid⟩ := intoCache_at hwork
      have hok : ∀ y ∈ work, ∃ body, y.2 = .ok body := by
        rw [hsaid]
        simp
      have hset : ¬ u.staging.Denial
          (u.client.setOrder path "executable" encodedTrue, .error e) := by
        apply not_denial_of_command
        simp
      exact .inr (hbehind (reports_behind_ok rfl rfl rfl hset hok))
  | @refused body denial work rest result hbody hwork hrest =>
    have hworked : ∀ x ∈ work, Blamed x := by
      intro x hx
      apply hblamed
      simp [hx]
    cases result with
    | ok path => cases hresult
    | error problem =>
      cases hresult
      refine .inr (hbehind (reports_behind (uncached_reports hu hrest)
        (intoCache_refused hwork hworked) ?_))
      intro x hx hremoved
      exact absurd hremoved (uncached_not_removed hrest x hx)

/-- An upload that went well passed over nothing that counts. -/
theorem uploads_quiet {file : CachedFile} (h : Uploads u said (.ok file))
    (hblamed : ∀ x ∈ said, Blamed x) : u.staging.Quiet said := by
  generalize hresult : (Except.ok file : Except CallError CachedFile) = result at h
  cases h with
  | unanswered e => cases hresult
  | unreadable body problem hbody => cases hresult
  | hit body path hbody => exact quiet_of_ok (by simp)
  | failed body problem hbody hwork => cases hresult
  | @cached body path marked work hbody hwork =>
    cases marked with
    | error e => cases hresult
    | ok last =>
      obtain ⟨made, created, written, marked, reply, removed, -, rfl⟩ := intoCache_at hwork
      exact quiet_of_ok (by simp)
  | @refused body denial work rest result hbody hwork hrest =>
    have hworked : ∀ x ∈ work, Blamed x := by
      intro x hx
      apply hblamed
      simp [hx]
    cases result with
    | error problem => cases hresult
    | ok path =>
      apply @quiet_append _ _ [_] _ (quiet_of_ok (by simp))
      exact quiet_append (intoCache_refused hwork hworked) (quiet_of_ok (uncached_all_ok hrest))

end

/-- **A launcher leaves the cache exactly when the cache refuses it**, at one of the three writes
that only a cache asks for. Of everything else that fails the first is reported, and an upload that
went well has nothing to report: all it passed over is a refusal, or the removal of the node that was
refused. Here the network may do anything to every attempt of every command. -/
theorem upload_leaves_cache (md5 : List UInt8 → List UInt8) (l : Launcher) (world : Nat → World)
    (s : Performed) :
    ((l.upload md5).LeavesCache ((l.run md5).play (perform world) s).1 ↔
        ∃ x ∈ ((l.run md5).play (perform world) s).1, (l.upload md5).staging.Denial x) ∧
      (∀ failure, ((l.run md5).play (perform world) s).2.1 = .error failure →
        (l.upload md5).Reports ((l.run md5).play (perform world) s).1 failure) ∧
      ∀ file, ((l.run md5).play (perform world) s).2.1 = .ok file →
        (l.upload md5).staging.Quiet ((l.run md5).play (perform world) s).1 := by
  have htalk := talk_play (perform world) (l.run md5) s
  have hblamed := blamed_play world (l.run md5) s
  have huploads := uploads_of_talk htalk
  refine ⟨uploads_leaves (l.drawn md5) huploads hblamed, ?_, ?_⟩
  · intro failure hresult
    rw [hresult] at huploads
    exact uploads_reports (l.drawn md5) huploads hblamed
  · intro file hresult
    rw [hresult] at huploads
    exact uploads_quiet huploads hblamed

end

end Ytsaurus.Client
