import Ytsaurus.Proof.Client.Launchers

/-!
# `Proof/Client/SharedCache.lean` — launchers that share a file cache

Any number of launchers may upload at once, and their commands reach the cluster in any order. A
staging node is touched by the upload it belongs to and by no other, so what is handed over is
what was written; it is gone when the upload is over, unless the cluster failed to make it or to
remove it. A worker outside the cache keeps its contents.

The files of the cluster are a map from paths to contents, and `Effect` is what the commands
promise about it: a write that is answered without an error has written, a removal has removed, and
no command touches another path than the ones it names. A command that fails may have been carried
out or not. Nothing is said about which of the launchers is answered first.

For one path only the exchanges that touch it matter, and these are those of one launcher
(`staging_evolves`): the log of all of them, seen at this path, is the dialogue of this one. What
is left is an induction along a dialogue that `Proof/Client/FileCache.lean` has the shape of.
-/

set_option autoImplicit false

namespace Ytsaurus.Client

open Dialogue
open Yson (FloatText)

/-! ## The contents of one file -/

/-- What an exchange may make of the file at a path. -/
def At (path : String) (x : Exchange Order Answer) (before after : Option (List UInt8)) : Prop :=
  ∃ s t, Effect x s t ∧ s path = before ∧ t path = after

section

variable {path : String} {x : Exchange Order Answer} {before after : Option (List UInt8)}
  {said : List (Exchange Order Answer)}

theorem At.untouched (h : At path x before after) (hx : ¬ x.1.Touches path) : after = before := by
  obtain ⟨s, t, heffect, rfl, rfl⟩ := h
  exact heffect.frame path hx

theorem evolves_untouched (h : Evolves (At path) said before after)
    (hsaid : ∀ x ∈ said, ¬ x.1.Touches path) : after = before :=
  h.unchanged fun x hx _ _ heffect => heffect.untouched (hsaid x hx)

/-- What was written stays, when nothing behind it touches the file. -/
theorem evolves_written {front back : List (Exchange Order Answer)} {order : Order}
    {contents body : List UInt8}
    (h : Evolves (At path) (front ++ (order, .ok body) :: back) before after)
    (hcommand : order.command = "write_file") (htarget : order.target = some path)
    (hpayload : order.payload = .bytes contents) (hback : ∀ x ∈ back, ¬ x.1.Touches path) :
    after = some contents := by
  obtain ⟨_, -, hrest⟩ := evolves_append_iff.mp h
  obtain ⟨_, ⟨s, t, heffect, -, rfl⟩, hlast⟩ := evolves_cons_iff.mp hrest
  rw [evolves_untouched hlast hback]
  exact heffect.written path contents body hcommand htarget hpayload rfl

theorem evolves_removed {front back : List (Exchange Order Answer)} {order : Order}
    {body : List UInt8} (h : Evolves (At path) (front ++ (order, .ok body) :: back) before after)
    (hcommand : order.command = "remove") (htarget : order.target = some path)
    (hback : ∀ x ∈ back, ¬ x.1.Touches path) : after = none := by
  obtain ⟨_, -, hrest⟩ := evolves_append_iff.mp h
  obtain ⟨_, ⟨s, t, heffect, -, rfl⟩, hlast⟩ := evolves_cons_iff.mp hrest
  rw [evolves_untouched hlast hback]
  exact heffect.removed path body hcommand htarget rfl

/-- A cluster that carries out what it answers keeps what the commands promise. -/
theorem effect_carry (files : Files) (x : Exchange Order Answer) : Effect x files (carry files x) where
  frame := by
    intro path htouches
    unfold carry
    by_cases hcarried : x.2.isOk ∧ x.1.target = some path
    · rw [if_pos hcarried]
      by_cases hwrite : x.1.command = "write_file"
      · apply absurd _ htouches
        simp [Order.Touches, Order.READS, hwrite, hcarried.2]
      · by_cases hremove : x.1.command = "remove"
        · apply absurd _ htouches
          simp [Order.Touches, Order.READS, hremove, hcarried.2]
        · rw [if_neg hwrite, if_neg hremove]
    · rw [if_neg hcarried]
  written := by
    intro path contents body hcommand htarget hpayload hok
    unfold carry
    rw [if_pos ⟨by rw [hok]; rfl, htarget⟩, if_pos hcommand, hpayload]
  removed := by
    intro path body hcommand htarget hok
    unfold carry
    have hwrite : x.1.command ≠ "write_file" := by
      rw [hcommand]
      decide
    rw [if_pos ⟨by rw [hok]; rfl, htarget⟩, if_neg hwrite, if_pos hcommand]

end

/-! ## What is said before a handover, and after -/

/-- What stands in front of the only one of its kind. -/
theorem split_only {α : Type} (kind : α → Prop) {front back front' back' : List α} {x x' : α}
    (h : front ++ x :: back = front' ++ x' :: back') (hx : kind x)
    (hfront : ∀ y ∈ front', ¬ kind y) (hback : ∀ y ∈ back', ¬ kind y) : front = front' := by
  induction front generalizing front' with
  | nil =>
    cases front' with
    | nil => rfl
    | cons y front' =>
      obtain ⟨rfl, -⟩ := List.cons.inj h
      exact absurd hx (hfront _ List.mem_cons_self)
  | cons z front ih =>
    cases front' with
    | nil =>
      obtain ⟨-, rfl⟩ := List.cons.inj h
      exact absurd hx (hback x (List.mem_append_right _ List.mem_cons_self))
    | cons y front' =>
      obtain ⟨rfl, hrest⟩ := List.cons.inj h
      rw [ih hrest fun w hw => hfront w (List.mem_cons_of_mem _ hw)]

section

variable {u : Upload} {said work : List (Exchange Order Answer)}

/-- A handover stands behind the write and the mark, both answered without an error. -/
def HandedLast (u : Upload) (said : List (Exchange Order Answer)) : Prop :=
  ∀ front answer back, said = front ++ (u.staging.handed, answer) :: back →
    ∃ before written marked,
      front = before ++ [(u.staging.written, .ok written), (u.staging.marked, .ok marked)]

/-- The order is another command. -/
def NotHanded (x : Exchange Order Answer) : Prop := ¬ x.1.command = "put_file_to_cache"

theorem handedLast_of_none (h : ∀ x ∈ said, NotHanded x) : HandedLast u said := by
  intro front answer back hsaid
  have hmem : (u.staging.handed, answer) ∈ said := by
    rw [hsaid]
    exact List.mem_append_right _ List.mem_cons_self
  exact absurd rfl (h _ hmem)

theorem notHanded_written (answer : Answer) : NotHanded (u.staging.written, answer) := by
  simp [NotHanded, Staging.written]

theorem notHanded_marked (answer : Answer) : NotHanded (u.staging.marked, answer) := by
  simp [NotHanded, Staging.marked]

theorem handedLast_of_one {before back : List (Exchange Order Answer)} {answer : Answer}
    {written marked : List UInt8} (hbefore : ∀ x ∈ before, NotHanded x)
    (hback : ∀ x ∈ back, NotHanded x) :
    HandedLast u (before ++ [(u.staging.written, .ok written), (u.staging.marked, .ok marked),
      (u.staging.handed, answer)] ++ back) := by
  intro front answer' back' h
  refine ⟨before, written, marked, ?_⟩
  have hsplit : front ++ (u.staging.handed, answer') :: back' =
      (before ++ [(u.staging.written, .ok written), (u.staging.marked, .ok marked)]) ++
        (u.staging.handed, answer) :: back := by
    rw [← h]
    simp
  apply split_only (fun x => x.1.command = "put_file_to_cache") hsplit rfl
  · intro x hx
    rcases List.mem_append.mp hx with hx | hx
    · exact hbefore x hx
    · simp only [List.mem_cons, List.not_mem_nil, or_false] at hx
      rcases hx with rfl | rfl
      · exact notHanded_written _
      · exact notHanded_marked _
  · exact hback

variable [FloatText]

/-- The handover of a staging node, between orders of other kinds. -/
theorem handsOver_handedLast {cached : Except CallError String}
    {before back : List (Exchange Order Answer)} (h : HandsOver u.staging work cached)
    (hbefore : ∀ x ∈ before, NotHanded x) (hback : ∀ x ∈ back, NotHanded x) :
    HandedLast u (before ++ work ++ back) := by
  cases h with
  | unwritten e =>
    apply handedLast_of_none
    simp only [List.mem_append, or_imp, forall_and, List.mem_singleton, forall_eq]
    exact ⟨⟨hbefore, notHanded_written _⟩, hback⟩
  | unmarked written e =>
    apply handedLast_of_none
    simp only [List.mem_append, List.mem_cons, List.not_mem_nil, or_false, or_imp, forall_and,
      forall_eq]
    exact ⟨⟨hbefore, notHanded_written _, notHanded_marked _⟩, hback⟩
  | refused written marked e => exact handedLast_of_one hbefore hback
  | answered written marked body => exact handedLast_of_one hbefore hback

variable [JsonText]

theorem intoCache_handedLast {cached : Except CallError Cached}
    {before back : List (Exchange Order Answer)} (h : IntoCache u.staging work cached)
    (hbefore : ∀ x ∈ before, NotHanded x) (hback : ∀ x ∈ back, NotHanded x) :
    HandedLast u (before ++ work ++ back) := by
  have hmade (answer : Answer) : NotHanded
      (u.staging.client.createOrder "map_node" u.staging.client.fileCache, answer) := by
    simp [NotHanded]
  have hcreated (answer : Answer) : NotHanded (u.staging.created, answer) := by
    simp [NotHanded, Staging.created]
  have hremoved (answer : Answer) : NotHanded (u.staging.removed, answer) := by
    simp [NotHanded, Staging.removed]
  cases h with
  | noDirectory e =>
    apply handedLast_of_none
    simp only [List.mem_append, or_imp, forall_and, List.mem_singleton, forall_eq]
    exact ⟨⟨hbefore, hmade _⟩, hback⟩
  | noStaging made e =>
    apply handedLast_of_none
    simp only [List.mem_append, List.mem_cons, List.not_mem_nil, or_false, or_imp, forall_and,
      forall_eq]
    exact ⟨⟨hbefore, hmade _, hcreated _⟩, hback⟩
  | @staged made created work cached hwork removed =>
    have hlast := @handsOver_handedLast u work _ cached
      (before ++ [(u.staging.client.createOrder "map_node" u.staging.client.fileCache, .ok made),
        (u.staging.created, .ok created)]) ((u.staging.removed, removed) :: back) hwork
      (by simpa [or_imp, forall_and] using ⟨fun a b => hbefore (a, b), hmade _, hcreated _⟩)
      (by simpa [or_imp, forall_and] using ⟨hremoved _, fun a b => hback (a, b)⟩)
    simpa using hlast

theorem uploads_handedLast {r : Except CallError CachedFile} (h : Uploads u said r) :
    HandedLast u said := by
  have hlookup (answer : Answer) : NotHanded (u.lookedUp, answer) := by
    simp [NotHanded, Upload.lookedUp, Client.getFileFromCacheOrder]
  have hnone (answer : Answer) : HandedLast u [(u.lookedUp, answer)] := by
    apply handedLast_of_none
    simpa using hlookup answer
  have hone {answer : Answer} {back : List (Exchange Order Answer)}
      {cached : Except CallError Cached} {work : List (Exchange Order Answer)}
      (hwork : IntoCache u.staging work cached) (hback : ∀ x ∈ back, NotHanded x) :
      HandedLast u ([(u.lookedUp, answer)] ++ work ++ back) := by
    apply intoCache_handedLast hwork _ hback
    simpa using hlookup answer
  cases h with
  | unanswered e => exact hnone _
  | unreadable body failure hbody => exact hnone _
  | hit body path hbody => exact hnone _
  | failed body failure hbody hwork =>
    have hlast := @hone (.ok body) [] _ _ hwork (by simp)
    simpa using hlast
  | cached body path marked hbody hwork =>
    have hlast := @hone (.ok body) [(u.client.setOrder path "executable" encodedTrue, marked)] _ _
      hwork (by simp [NotHanded])
    simpa using hlast
  | @refused body denial work rest result hbody hwork hrest =>
    have hlast := @hone (.ok body) rest _ _ hwork (by
      cases hrest
      all_goals simp [NotHanded])
    simpa using hlast

end

/-! ## What an upload leaves -/

section

variable [FloatText] [JsonText] {u : Upload} {said : List (Exchange Order Answer)}
  {before after : Option (List UInt8)}

omit [FloatText] [JsonText] in
theorem marked_untouched (hu : u.Drawn) (path : String) :
    ¬ (u.client.setOrder path "executable" encodedTrue).Touches u.staging.path ∧
      ¬ (u.client.setOrder path "executable" encodedTrue).Touches u.outside :=
  ⟨fun h => attribute_ne_staging hu path ((touches_setOrder _).mp h),
    fun h => attribute_ne_outside hu path ((touches_setOrder _).mp h)⟩

omit [FloatText] [JsonText] in
/-- The orders of an upload outside the cache leave the staging node alone. -/
theorem uncached_untouched (hu : u.Drawn) {result : Except CallError String}
    (h : Uncached u.client u.bytes u.outside said result) :
    ∀ x ∈ said, ¬ x.1.Touches u.staging.path := by
  have hne : u.outside ≠ u.staging.path := (staging_ne_outside hu hu).symm
  have hcreated : ¬ (u.client.createOrder "file" u.outside).Touches u.staging.path :=
    fun h => hne ((touches_createOrder _).mp h).1
  have hwritten : ¬ (u.client.writeFileOrder u.outside u.bytes false).Touches u.staging.path :=
    fun h => hne ((touches_writeFileOrder _).mp h)
  have hmarked := (marked_untouched hu u.outside).1
  cases h
  all_goals
    simp only [List.mem_cons, List.not_mem_nil, or_false, forall_eq_or_imp, forall_eq]
  · exact hcreated
  · exact ⟨hcreated, hwritten⟩
  · exact ⟨hcreated, hwritten, hmarked⟩
  · exact ⟨hcreated, hwritten, hmarked⟩

/-- The staging node of an upload that went through the cache. -/
theorem intoCache_left {cached : Except CallError Cached}
    {front work back : List (Exchange Order Answer)} (hwork : IntoCache u.staging work cached)
    (hfront : ∀ x ∈ front, ¬ x.1.Touches u.staging.path)
    (hback : ∀ x ∈ back, ¬ x.1.Touches u.staging.path)
    (h : Evolves (At u.staging.path) (front ++ work ++ back) none after) (hleft : after ≠ none) :
    ∃ x ∈ work, (x.1 = u.staging.created ∨ x.1 = u.staging.removed) ∧ ∃ e, x.2 = .error e := by
  have hmade : ¬ (u.client.createOrder "map_node" u.client.fileCache).Touches u.staging.path := by
    intro htouches
    exact absurd ((touches_createOrder _).mp htouches).2 (by decide)
  cases hwork with
  | noDirectory e =>
    apply absurd _ hleft
    apply evolves_untouched h
    simp only [List.mem_append, or_imp, forall_and, List.mem_singleton, forall_eq]
    exact ⟨⟨hfront, hmade⟩, hback⟩
  | noStaging made e => exact ⟨(u.staging.created, .error e), by simp, .inl rfl, e, rfl⟩
  | @staged made created work cached hwork removed =>
    cases removed with
    | error e => exact ⟨(u.staging.removed, .error e), by simp, .inr rfl, e, rfl⟩
    | ok removed =>
      apply absurd _ hleft
      have hsaid : front ++ ((u.staging.client.createOrder "map_node" u.staging.client.fileCache,
          Except.ok made) :: (u.staging.created, .ok created) ::
            (work ++ [(u.staging.removed, .ok removed)])) ++ back =
          (front ++ ((u.staging.client.createOrder "map_node" u.staging.client.fileCache,
            Except.ok made) :: (u.staging.created, .ok created) :: work)) ++
            (u.staging.removed, .ok removed) :: back := by simp
      rw [hsaid] at h
      apply evolves_removed h _ _ hback
      · simp [Staging.removed]
      · simp [Staging.removed]

theorem staging_left (hu : u.Drawn) {r : Except CallError CachedFile} (h : Uploads u said r)
    (hsaid : Evolves (At u.staging.path) said none after) (hleft : after ≠ none) :
    ∃ x ∈ said, (x.1 = u.staging.created ∨ x.1 = u.staging.removed) ∧ ∃ e, x.2 = .error e := by
  have hlookup (answer : Answer) :
      ∀ x ∈ [(u.lookedUp, answer)], ¬ x.1.Touches u.staging.path := by
    simpa using not_touches_lookedUp
  have hwhole {body : List UInt8} {work back : List (Exchange Order Answer)}
      {cached : Except CallError Cached} (hwork : IntoCache u.staging work cached)
      (hback : ∀ x ∈ back, ¬ x.1.Touches u.staging.path)
      (hsaid : Evolves (At u.staging.path) ((u.lookedUp, .ok body) :: (work ++ back)) none after) :
      ∃ x ∈ (u.lookedUp, .ok body) :: (work ++ back),
        (x.1 = u.staging.created ∨ x.1 = u.staging.removed) ∧ ∃ e, x.2 = .error e := by
    obtain ⟨x, hx, horder⟩ := intoCache_left hwork (hlookup (.ok body)) hback
      (by simpa using hsaid) hleft
    exact ⟨x, by simp [hx], horder⟩
  cases h with
  | unanswered e => exact absurd (evolves_untouched hsaid (hlookup _)) hleft
  | unreadable body failure hbody => exact absurd (evolves_untouched hsaid (hlookup _)) hleft
  | hit body path hbody => exact absurd (evolves_untouched hsaid (hlookup _)) hleft
  | @failed body failure work hbody hwork =>
    have hall := @hwhole body work [] _ hwork (by simp) (by simpa using hsaid)
    simpa using hall
  | cached body path marked hbody hwork =>
    apply hwhole hwork _ hsaid
    simpa using (marked_untouched hu path).1
  | refused body denial hbody hwork hrest =>
    exact hwhole hwork (uncached_untouched hu hrest) hsaid

theorem uncached_left (hu : u.Drawn) {file : CachedFile} (h : Uploads u said (.ok file))
    (hcached : file.cached = false) (hsaid : Evolves (At u.outside) said before after) :
    after = some u.bytes ∧ file.path = u.outside := by
  generalize hresult : (Except.ok file : Except CallError CachedFile) = result at h
  cases h with
  | unanswered e => cases hresult
  | unreadable body failure hbody => cases hresult
  | failed body failure hbody hwork => cases hresult
  | hit body path hbody =>
    cases hresult
    cases hcached
  | cached body path marked hbody hwork =>
    cases marked with
    | error e => cases hresult
    | ok marked =>
      cases hresult
      cases hcached
  | @refused body denial work rest result hbody hwork hrest =>
    cases hrest with
    | uploaded created written marked =>
      cases hresult
      refine ⟨?_, rfl⟩
      have hsplit : (u.lookedUp, Except.ok body) :: (work ++
          [(u.client.createOrder "file" u.outside, .ok created),
            (u.client.writeFileOrder u.outside u.bytes false, .ok written),
            (u.client.setOrder u.outside "executable" encodedTrue, .ok marked)]) =
          ((u.lookedUp, Except.ok body) :: (work ++
            [(u.client.createOrder "file" u.outside, .ok created)])) ++
            (u.client.writeFileOrder u.outside u.bytes false, .ok written) ::
              [(u.client.setOrder u.outside "executable" encodedTrue, .ok marked)] := by simp
      rw [hsplit] at hsaid
      apply evolves_written hsaid
      · simp
      · simp
      · rfl
      · simpa using (marked_untouched hu u.outside).2
    | _ => cases hresult

end

/-! ## Many launchers and one cluster -/

/-- Launchers that share a cache; no two of them drew the same words. -/
structure Launchers (ι : Type) where
  launcher : ι → Launcher
  cache : ∀ i j, (launcher i).client.fileCache = (launcher j).client.fileCache
  staged : ∀ i j, (launcher i).staged = (launcher j).staged → i = j
  uncached : ∀ i j, (launcher i).uncached = (launcher j).uncached → i = j

namespace Launchers

variable {ι : Type} (L : Launchers ι) (md5 : List UInt8 → List UInt8)

def upload (i : ι) : Upload := (L.launcher i).upload md5

variable [DecidableEq ι] [FloatText] [JsonText]

/-- What each of the launchers said so far is the beginning of an upload. -/
def Uploading (log : List (ι × Exchange Order Answer)) : Prop :=
  ∀ i, ∃ rest r, Talk ((L.launcher i).run md5) (own i log ++ rest) r

variable {L md5} {log : List (ι × Exchange Order Answer)} {before after : Files} {i : ι}

omit [DecidableEq ι] [FloatText] [JsonText] in
theorem staged_ne {j : ι} (h : j ≠ i) :
    (L.upload md5 i).staged.id ≠ (L.upload md5 j).staged.id := by
  intro hsame
  obtain ⟨hfirst, hsecond⟩ := generate_inj hsame
  exact h (L.staged i j (Prod.ext hfirst hsecond)).symm

omit [DecidableEq ι] [FloatText] [JsonText] in
theorem uncached_ne {j : ι} (h : j ≠ i) :
    (L.upload md5 i).uncached.id ≠ (L.upload md5 j).uncached.id := by
  intro hsame
  obtain ⟨hfirst, hsecond⟩ := generate_inj hsame
  exact h (L.uncached i j (Prod.ext hfirst hsecond)).symm

theorem order_of_uploading (h : L.Uploading md5 log) {entry : ι × Exchange Order Answer}
    (hentry : entry ∈ log) : UploadOrder (L.upload md5 entry.1) entry.2.1 := by
  obtain ⟨rest, r, htalk⟩ := h entry.1
  exact order_of_uploads (uploads_of_talk htalk) entry.2
    (List.mem_append_left _ (mem_own hentry))

/-- **What becomes of a staging node is the work of its own launcher.** -/
theorem staging_evolves (h : L.Uploading md5 log)
    (hlog : Evolves (fun entry => Effect entry.2) log before after) :
    Evolves (At (L.upload md5 i).staging.path) (own i log) (before (L.upload md5 i).staging.path)
      (after (L.upload md5 i).staging.path) := by
  apply own_evolves (fun files : Files => files (L.upload md5 i).staging.path) _ hlog
  intro entry hentry hother s t heffect
  apply heffect.frame
  exact not_touches_staging ((L.launcher i).drawn md5) ((L.launcher entry.1).drawn md5)
    (staged_ne hother) (L.cache i entry.1) (order_of_uploading h hentry)

theorem outside_evolves (h : L.Uploading md5 log)
    (hlog : Evolves (fun entry => Effect entry.2) log before after) :
    Evolves (At (L.upload md5 i).outside) (own i log) (before (L.upload md5 i).outside)
      (after (L.upload md5 i).outside) := by
  apply own_evolves (fun files : Files => files (L.upload md5 i).outside) _ hlog
  intro entry hentry hother s t heffect
  apply heffect.frame
  exact not_touches_outside ((L.launcher i).drawn md5) ((L.launcher entry.1).drawn md5)
    (uncached_ne hother) (order_of_uploading h hentry)

theorem uploading_front {front back : List (ι × Exchange Order Answer)}
    (h : L.Uploading md5 (front ++ back)) : L.Uploading md5 front := by
  intro j
  obtain ⟨rest, r, htalk⟩ := h j
  rw [own_append, List.append_assoc] at htalk
  exact ⟨_, r, htalk⟩

end Launchers

/-! ## What is handed over, and what is left behind -/

section

variable [FloatText] [JsonText] {ι : Type} [DecidableEq ι] {L : Launchers ι}
  {md5 : List UInt8 → List UInt8} {before after : Files} {i : ι}

/-- **What a launcher hands over to the cache is what it wrote**, however many upload at once and
in whatever order their commands arrive. -/
theorem handed_over_intact {front back : List (ι × Exchange Order Answer)} {answer : Answer}
    (h : L.Uploading md5 (front ++ (i, ((L.upload md5 i).staging.handed, answer)) :: back))
    (hfront : Evolves (fun entry => Effect entry.2) front before after) :
    after (L.upload md5 i).staging.path = some (L.launcher i).bytes := by
  obtain ⟨rest, r, htalk⟩ := h i
  rw [own_append, own_cons_self] at htalk
  obtain ⟨said, written, marked, hown⟩ := uploads_handedLast (u := L.upload md5 i)
    (uploads_of_talk htalk) (own i front) answer (own i back ++ rest) (by simp)
  have hevolves := Launchers.staging_evolves (i := i) (Launchers.uploading_front h) hfront
  rw [hown] at hevolves
  apply evolves_written hevolves
  · simp [Staging.written]
  · simp [Staging.written]
  · rfl
  · simp only [List.mem_singleton, forall_eq]
    intro htouches
    exact attribute_ne_staging ((L.launcher i).drawn md5) _ ((touches_setOrder _).mp htouches)

/-- **Nothing is left behind, and nothing is lost.** When an upload is over its staging node is
gone, unless the cluster failed to make it or to remove it; a worker outside the cache then still
holds what was uploaded. -/
theorem upload_settled {log : List (ι × Exchange Order Answer)}
    {r : Except CallError CachedFile} (h : L.Uploading md5 log)
    (hlog : Evolves (fun entry => Effect entry.2) log before after)
    (hdone : Talk ((L.launcher i).run md5) (own i log) r)
    (hfresh : before (L.upload md5 i).staging.path = none) :
    (after (L.upload md5 i).staging.path ≠ none → ∃ x ∈ own i log,
        (x.1 = (L.upload md5 i).staging.created ∨ x.1 = (L.upload md5 i).staging.removed) ∧
          ∃ e, x.2 = .error e) ∧
      ∀ file, r = .ok file → file.cached = false →
        after file.path = some (L.launcher i).bytes := by
  have huploads : Uploads (L.upload md5 i) (own i log) r := uploads_of_talk hdone
  have hstaging := Launchers.staging_evolves (i := i) h hlog
  have houtside := Launchers.outside_evolves (i := i) h hlog
  have hdrawn := (L.launcher i).drawn md5
  rw [hfresh] at hstaging
  refine ⟨staging_left hdrawn huploads hstaging, ?_⟩
  intro file hfile hcached
  rw [hfile] at huploads
  obtain ⟨hcontents, hpath⟩ := uncached_left hdrawn huploads hcached houtside
  rw [hpath]
  exact hcontents

end

/-! ## Two of them -/

/-- Two launchers, each with a worker of its own. -/
def pair : Launchers Bool where
  launcher who :=
    { oneLauncher with
      bytes := [if who then 1 else 2]
      staged := (if who then 1 else 2, 0)
      uncached := (if who then 1 else 2, 0) }
  cache _ _ := rfl
  staged := by decide
  uncached := by decide

/-- Their commands in turn. -/
def pairLog : List (Bool × Exchange Order Answer) :=
  (((pair.launcher true).cachedTalk id emptyText pathText "//w").zip
    ((pair.launcher false).cachedTalk id emptyText pathText "//w")).flatMap fun turn =>
      [(true, turn.1), (false, turn.2)]

theorem own_pairLog (who : Bool) :
    own who pairLog = (pair.launcher who).cachedTalk id emptyText pathText "//w" := by
  cases who <;> rfl

theorem pair_done (who : Bool) :
    @Talk _ _ _ (@Launcher.run id (pair.launcher who) Yson.plainFloatText ⟨fun _ => none⟩)
      (own who pairLog) (.ok ⟨"//w", "worker", true, true⟩) := by
  let _ : FloatText := Yson.plainFloatText
  let _ : JsonText := ⟨fun _ => none⟩
  rw [own_pairLog]
  exact talk_cached emptyText_missed pathText_handed

theorem pair_uploading :
    @Launchers.Uploading _ pair id _ Yson.plainFloatText ⟨fun _ => none⟩ pairLog := by
  intro who
  have hdone := pair_done who
  rw [← List.append_nil (own who pairLog)] at hdone
  exact ⟨[], _, hdone⟩

theorem handed_over_intact_pair :
    (pairLog.take 10).foldl (fun files entry => carry files entry.2) (fun _ => none)
      (pair.upload id true).staging.path = some [1] := by
  let _ : FloatText := Yson.plainFloatText
  let _ : JsonText := ⟨fun _ => none⟩
  have h : pair.Uploading id (pairLog.take 10 ++
      (true, ((pair.upload id true).staging.handed, .ok pathText)) :: pairLog.drop 11) :=
    pair_uploading
  exact handed_over_intact h
    (evolves_foldl (fun files (entry : Bool × Exchange Order Answer) =>
      effect_carry files entry.2) _ _)

/-! ### One of them is refused -/

def accessDenied : ClientError := .cluster "put_file_to_cache" ACCESS_DENIED "Access denied" ""

/-- What one of the two says, when the cache takes only the first one's worker. -/
def mixedTalk (who : Bool) : List (Exchange Order Answer) :=
  if who then (pair.launcher true).cachedTalk id emptyText pathText "//w"
  else (pair.launcher false).refusedTalk id emptyText accessDenied

/-- In turn, and what is left of the longer dialogue behind. -/
def mixedLog : List (Bool × Exchange Order Answer) :=
  (((mixedTalk true).zip (mixedTalk false)).flatMap fun turn => [(true, turn.1), (false, turn.2)])
    ++ ((mixedTalk false).drop 8).map fun exchange => (false, exchange)

theorem own_mixedLog (who : Bool) : own who mixedLog = mixedTalk who := by
  cases who <;> rfl

theorem mixed_done (who : Bool) :
    @Talk _ _ _ (@Launcher.run id (pair.launcher who) Yson.plainFloatText ⟨fun _ => none⟩)
      (own who mixedLog)
      (.ok (if who then ⟨"//w", "worker", true, true⟩
        else ⟨(pair.upload id false).outside, "worker", true, false⟩)) := by
  let _ : FloatText := Yson.plainFloatText
  let _ : JsonText := ⟨fun _ => none⟩
  rw [own_mixedLog]
  cases who with
  | true => exact talk_cached emptyText_missed pathText_handed
  | false => exact talk_refused emptyText_missed rfl

theorem mixed_uploading :
    @Launchers.Uploading _ pair id _ Yson.plainFloatText ⟨fun _ => none⟩ mixedLog := by
  intro who
  have hdone := mixed_done who
  rw [← List.append_nil (own who mixedLog)] at hdone
  exact ⟨[], _, hdone⟩

/-- Neither staging node is left, and the worker that was refused is where its launcher says. -/
theorem upload_settled_mixed :
    (∀ who, mixedLog.foldl (fun files entry => carry files entry.2) (fun _ => none)
      (pair.upload id who).staging.path = none) ∧
    mixedLog.foldl (fun files entry => carry files entry.2) (fun _ => none)
      (pair.upload id false).outside = some [2] := by
  let _ : FloatText := Yson.plainFloatText
  let _ : JsonText := ⟨fun _ => none⟩
  have hevolves := evolves_foldl (fun files (entry : Bool × Exchange Order Answer) =>
    effect_carry files entry.2) mixedLog fun _ => none
  constructor
  · intro who
    obtain ⟨hsettled, -⟩ := upload_settled mixed_uploading hevolves (mixed_done who) rfl
    by_contra hleft
    obtain ⟨x, hx, horder, e, he⟩ := hsettled hleft
    rw [own_mixedLog] at hx
    -- the only error is the answer to the handover
    have hhanded : x.1.command = "put_file_to_cache" := by
      cases who with
      | true =>
        simp only [mixedTalk, Launcher.cachedTalk, Launcher.cacheTalk, if_true, List.cons_append,
          List.nil_append, List.mem_cons, List.not_mem_nil, or_false] at hx
        rcases hx with rfl | rfl | rfl | rfl | rfl | rfl | rfl | rfl
        all_goals cases he
      | false =>
        simp only [mixedTalk, Launcher.refusedTalk, Launcher.cacheTalk, Bool.false_eq_true, if_false,
          List.cons_append, List.nil_append, List.mem_cons, List.not_mem_nil, or_false] at hx
        rcases hx with rfl | rfl | rfl | rfl | rfl | rfl | rfl | rfl | rfl | rfl
        all_goals first
          | cases he
            done
          | rfl
    rcases horder with hcreated | hremoved
    · rw [hcreated, Staging.created, command_createOrder] at hhanded
      exact absurd hhanded (by decide)
    · rw [hremoved, Staging.removed, command_removeOrder] at hhanded
      exact absurd hhanded (by decide)
  · exact (upload_settled mixed_uploading hevolves (mixed_done false) rfl).2 _ rfl rfl

end Ytsaurus.Client
