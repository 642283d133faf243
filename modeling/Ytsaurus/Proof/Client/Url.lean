import Ytsaurus.Client.Url

/-!
# `Proof/Client/Url.lean` — a relative location stays at the origin

`resolve` and `origin` cut their texts separately, so that they agree has to be shown: whatever
`resolve` puts behind an authority begins with a character that ends an authority
(`resolveRelative_behind`), and `origin` looks no further than that (`originOf_behind`).

A location may be a URL, begin with two slashes, or be relative. The first two name an authority of
their own, and whether they change the origin is for `same_origin` to find out. The third keeps the
authority of the request by the standard, and here by the way the text is put together: a path, a
query or a fragment each begins with its own mark, and where the location has none a slash is put
in front of it.
-/

set_option autoImplicit false

namespace Ytsaurus.Client

/-- A text that ends the authority in front of it, by its first character or by being none. -/
def EndsAuthority (target : Str) : Prop := ∀ c ∈ target.head?, endsAuthority c

theorem endsAuthority_dropWhile (rest : Str) :
    EndsAuthority (rest.dropWhile fun c => !endsAuthority c) := by
  intro c hc
  have hhead := List.head?_dropWhile_not (fun c => !endsAuthority c) rest
  cases hdrop : (rest.dropWhile fun c => !endsAuthority c).head? with
  | none =>
    rw [hdrop] at hc
    cases hc
  | some d =>
    rw [hdrop] at hc hhead
    cases hc
    simpa using hhead

/-- A prefix of such a text is one too. -/
theorem EndsAuthority.of_prefix {front target : Str} (h : EndsAuthority target)
    (hfront : front <+: target) : EndsAuthority front := by
  intro c hc
  obtain ⟨rest, rfl⟩ := hfront
  cases front with
  | nil => cases hc
  | cons d front => exact h c hc

theorem EndsAuthority.append {front rest : Str} (hfront : EndsAuthority front)
    (hrest : EndsAuthority rest) : EndsAuthority (front ++ rest) := by
  cases front with
  | nil => exact hrest
  | cons d front => exact hfront

theorem endsAuthority_of_head {text : Str} {c : Char} (h : text.head? = some c)
    (hc : endsAuthority c) : EndsAuthority text := by
  intro d hd
  rw [h] at hd
  cases hd
  exact hc

/-- The authority in front of a text that ends it. -/
theorem takeWhile_authority {authority target : Str}
    (hauthority : ∀ c ∈ authority, endsAuthority c = false) (h : EndsAuthority target) :
    (authority ++ target).takeWhile (fun c => !endsAuthority c) = authority := by
  rw [List.takeWhile_append_of_pos]
  · cases target with
    | nil => rw [List.takeWhile_nil, List.append_nil]
    | cons c target =>
      have hc : endsAuthority c := h c rfl
      rw [List.takeWhile_cons_of_neg, List.append_nil]
      rw [hc]
      decide
  · intro c hc
    rw [hauthority c hc]
    rfl

theorem authority_plain (rest : Str) :
    ∀ c ∈ rest.takeWhile (fun c => !endsAuthority c), endsAuthority c = false := by
  intro c hc
  have hpos := List.mem_takeWhile_imp hc
  simpa using hpos

/-- **An origin does not depend on what is behind the authority.** -/
theorem originOf_behind (scheme : Str) {rest target : Str} (h : EndsAuthority target) :
    originOf scheme (rest.takeWhile (fun c => !endsAuthority c) ++ target) =
      originOf scheme rest := by
  unfold originOf
  rw [takeWhile_authority (authority_plain rest) h]

/-- **Behind the authority a relative location puts something that ends it.** -/
theorem resolveRelative_behind {scheme authority target location : Str}
    (hlocation : Text.stripPrefix ['/', '/'] location = none) (htarget : EndsAuthority target) :
    ∃ behind, resolveRelative scheme authority target location =
      scheme ++ schemeMark ++ (authority ++ behind) ∧ EndsAuthority behind := by
  have hbase : EndsAuthority (target.takeWhile (· != '#')) :=
    htarget.of_prefix (List.takeWhile_prefix _)
  have hpath : EndsAuthority ((target.takeWhile (· != '#')).takeWhile (· != '?')) :=
    hbase.of_prefix (List.takeWhile_prefix _)
  unfold resolveRelative
  rw [hlocation]
  dsimp only
  by_cases hslash : location.head? = some '/'
  · rw [if_pos hslash]
    exact ⟨_, rfl, endsAuthority_of_head hslash rfl⟩
  · rw [if_neg hslash]
    by_cases hfragment : location.head? = some '#'
    · rw [if_pos hfragment]
      exact ⟨_, rfl, hbase.append (endsAuthority_of_head hfragment rfl)⟩
    · rw [if_neg hfragment]
      by_cases hquery : location.head? = some '?'
      · rw [if_pos hquery]
        exact ⟨_, rfl, hpath.append (endsAuthority_of_head hquery rfl)⟩
      · rw [if_neg hquery]
        refine ⟨_, rfl, EndsAuthority.append ?_ (endsAuthority_of_head rfl rfl)⟩
        -- the directory is the front of the path
        cases hcut : Text.rsplitOnce '/'
            ((target.takeWhile (· != '#')).takeWhile (· != '?')) with
        | none =>
          intro c hc
          cases hc
        | some parts =>
          apply hpath.of_prefix
          rw [Text.rsplitOnce_eq hcut]
          exact List.prefix_append _ _

/-- **A relative location that does not begin with `//` never changes the origin.** -/
theorem origin_resolve {request location target : Str}
    (hrelative : hasScheme (Text.trim location) = false)
    (hpath : Text.stripPrefix ['/', '/'] (Text.trim location) = none)
    (h : resolve request location = some target) : origin target = origin request := by
  unfold resolve at h
  by_cases hempty : Text.trim location = []
  · cases (if_pos hempty).symm.trans h
  · replace h := (if_neg hempty).symm.trans h
    rw [hrelative] at h
    cases hcut : Text.splitOnce schemeMark request with
    | none =>
      rw [hcut] at h
      cases h
    | some parts =>
      obtain ⟨scheme, rest⟩ := parts
      rw [hcut] at h
      dsimp only at h
      by_cases hauthority : rest.takeWhile (fun c => !endsAuthority c) = []
      · cases (if_pos hauthority).symm.trans h
      · replace h := (if_neg hauthority).symm.trans h
        cases h
        obtain ⟨behind, htarget, hends⟩ := resolveRelative_behind hpath
          (endsAuthority_dropWhile rest)
        have hmark : schemeMark ≠ [] := List.cons_ne_nil _ _
        have hswap := Text.splitOnce_swap hmark hcut
          (rest.takeWhile (fun c => !endsAuthority c) ++ behind)
        unfold origin
        rw [htarget, hswap, hcut]
        exact originOf_behind scheme hends

theorem sameOrigin_eq {one other : Str} (h : sameOrigin one other) :
    origin other = origin one := by
  unfold sameOrigin at h
  cases hone : origin one with
  | none =>
    rw [hone] at h
    cases h
  | some first =>
    cases hother : origin other with
    | none =>
      rw [hone, hother] at h
      cases h
    | some second =>
      rw [hone, hother] at h
      rw [of_decide_eq_true h]

end Ytsaurus.Client
