import Ytsaurus.Client.Heavy

/-!
# `Proof/Client/Authority.lean` — what an entry of `/hosts` becomes

An entry is checked by `is_authority` and `admits`, the URL is put together by `heavy_base`,
and whoever reads the URL uses `host_of` and `port_of`: four functions that each cut the text
on their own. `IsAuthority` says what an authority is, and `WithinPolicy` what the URL has to
be. They agree as long as nothing but a port follows the first `]` of the entry
(`heavyBase_within_iff`): outside brackets `is_authority` takes a `]` for a character of the
name, while `has_port` and `port_of` look for a port behind it.

The policy is about names, so it is stated about the labels of a name: the rule compares the ends of
two texts, and `isUnder_iff` says that this compares whole labels. What `admits` lets through then
comes out as `HeavyHosts.Allows`, which knows of the entry only its host and its port.

The scheme is the other half of the URL. `heavy_base` knows two of them; any other one, and a
`https` with a capital letter, becomes `http` without a word (`SchemeKept`).
-/

set_option autoImplicit false

namespace Ytsaurus.Client

/-! ## Authorities -/

/-- A character that neither ends an authority nor cuts userinfo off it. -/
def plainChar (c : Char) : Bool :=
  !(c == '/' || c == '?' || c == '#' || c == '@' || Text.isWhitespace c)

/-- A host as it is written, and without the brackets around an IPv6 literal. -/
inductive HostText : Str → Str → Prop
  | literal {address : Str} (hliteral : (IpAddr.parseIpv6 address).isSome)
      (hfree : ']' ∉ address) : HostText ('[' :: (address ++ [']'])) address
  | name {name : Str} (hne : name ≠ []) (hcolon : ':' ∉ name) (hopen : name.head? ≠ some '[') :
      HostText name name

def portText : Option Str → Str
  | none => []
  | some port => ':' :: port

/-- The text is one host and at most one port, and nothing else. -/
structure IsAuthority (text host : Str) (port : Option Str) : Prop where
  cut : ∃ written, HostText written host ∧ text = written ++ portText port
  port : ∀ p ∈ port, isPort p
  plain : ∀ c ∈ text, plainChar c

/-- Nothing but a port follows the first `]`. -/
def BracketsClose (text : Str) : Prop :=
  ∀ front rest, ']' ∉ front → text = front ++ ']' :: rest → rest = [] ∨ rest.head? = some ':'

section Authority

variable {text host url : Str} {port : Option Str}

/-- **What `is_authority` accepts is an authority.** -/
theorem isAuthority_cut (hne : text ≠ []) (hplain : ∀ c ∈ text, plainChar c)
    (h : isAuthority text) : ∃ host port, IsAuthority text host port := by
  unfold isAuthority at h
  cases hopen : Text.stripPrefix ['['] text with
  | some rest =>
    rw [hopen] at h
    dsimp only at h
    have htext : text = '[' :: rest := Text.stripPrefix_eq_some.mp hopen
    rcases Text.cut_cases ']' rest with ⟨address, tail, hfree, rfl⟩ | hnone
    · rw [Text.splitOnce_single hfree] at h
      dsimp only at h
      rw [Bool.and_eq_true, Bool.or_eq_true] at h
      obtain ⟨hliteral, htail | htail⟩ := h
      · rw [List.isEmpty_iff.mp htail] at htext
        refine ⟨address, none, ⟨_, .literal hliteral hfree, ?_⟩, nofun, hplain⟩
        rw [htext]
        exact (List.append_nil _).symm
      · obtain ⟨given, hgiven, hport⟩ := (Option.any_eq_true _ _).mp htail
        rw [Text.stripPrefix_eq_some.mp hgiven] at htext
        refine ⟨address, some given, ⟨_, .literal hliteral hfree, ?_⟩, ?_, hplain⟩
        · rw [htext]
          show _ = '[' :: ((address ++ [']']) ++ ':' :: given)
          rw [List.append_assoc]
          rfl
        · intro p hp
          cases hp
          exact hport
    · rw [Text.splitOnce_single_none hnone] at h
      cases h
  | none =>
    rw [hopen] at h
    dsimp only at h
    have hhead : text.head? ≠ some '[' := by
      intro hhead
      obtain ⟨rest, rfl⟩ := List.head?_eq_some_iff.mp hhead
      cases hopen
    rcases Text.cut_cases ':' text with ⟨name, given, hfree, rfl⟩ | hnone
    · rw [Text.splitOnce_single hfree] at h
      dsimp only at h
      rw [Bool.and_eq_true, Bool.not_eq_true', List.isEmpty_eq_false_iff] at h
      obtain ⟨hname, hport⟩ := h
      refine ⟨name, some given, ⟨name, .name hname hfree ?_, rfl⟩, ?_, hplain⟩
      · obtain ⟨c, name, rfl⟩ := List.exists_cons_of_ne_nil hname
        exact hhead
      · intro p hp
        cases hp
        exact hport
    · exact ⟨text, none, ⟨text, .name hne hnone hhead, (List.append_nil _).symm⟩, nofun, hplain⟩

/-! ## Reading an authority -/

theorem plainChar_iff {c : Char} : plainChar c ↔
    (c ≠ '/' ∧ c ≠ '?' ∧ c ≠ '#') ∧ c ≠ '@' ∧ Text.isWhitespace c = false := by
  unfold plainChar
  simp only [Bool.not_eq_true', Bool.or_eq_false_iff, beq_eq_false_iff_ne]
  exact ⟨fun ⟨⟨⟨⟨h₁, h₂⟩, h₃⟩, h₄⟩, h₅⟩ => ⟨⟨h₁, h₂, h₃⟩, h₄, h₅⟩,
    fun ⟨⟨h₁, h₂, h₃⟩, h₄, h₅⟩ => ⟨⟨⟨⟨h₁, h₂⟩, h₃⟩, h₄⟩, h₅⟩⟩

theorem takeWhile_plain (hplain : ∀ c ∈ text, plainChar c) :
    text.takeWhile (fun c => !endsAuthority c) = text := by
  rw [List.takeWhile_eq_self_iff]
  intro c hc
  obtain ⟨⟨hslash, hquery, hfragment⟩, -⟩ := plainChar_iff.mp (hplain c hc)
  simp [endsAuthority, hslash, hquery, hfragment]

theorem not_mem_of_plain {c : Char} (hplain : ∀ c ∈ text, plainChar c) (hc : plainChar c = false) :
    c ∉ text := by
  intro hmem
  rw [hplain c hmem] at hc
  cases hc

/-- The authority of a URL is what follows its scheme, if that is plain. -/
theorem authorityOf_of_rest (hplain : ∀ c ∈ text, plainChar c)
    (h : ((Text.splitOnce schemeMark url).map Prod.snd).getD url = text) :
    authorityOf url = text := by
  unfold authorityOf
  rw [h]
  dsimp only
  rw [takeWhile_plain hplain, Text.rsplitOnce_none (not_mem_of_plain hplain rfl)]
  rfl

theorem authorityOf_plain (hplain : ∀ c ∈ text, plainChar c) : authorityOf text = text := by
  apply authorityOf_of_rest hplain
  cases hscheme : Text.splitOnce schemeMark text with
  | none => rfl
  | some parts =>
    -- the mark of a scheme has a slash in it
    have htext := Text.splitOnce_eq hscheme
    refine absurd ?_ (not_mem_of_plain (c := '/') hplain rfl)
    rw [htext]
    simp [schemeMark]

theorem authorityOf_url {scheme : Str} (hplain : ∀ c ∈ text, plainChar c)
    (h : Text.splitOnce schemeMark url = some (scheme, text)) : authorityOf url = text := by
  apply authorityOf_of_rest hplain
  rw [h]
  rfl

theorem hostOf_eq (hurl : authorityOf url = text) (h : IsAuthority text host port) :
    hostOf url = host := by
  obtain ⟨written, hwritten, rfl⟩ := h.cut
  unfold hostOf
  rw [hurl]
  cases hwritten with
  | literal hliteral hfree =>
    rw [List.cons_append, List.append_assoc, Text.stripPrefix, if_pos rfl, Text.stripPrefix]
    dsimp only
    rw [List.takeWhile_append_of_pos]
    · rw [List.singleton_append, List.takeWhile_cons_of_neg (by decide), List.append_nil]
    · intro c hc
      rw [bne_iff_ne]
      intro heq
      exact hfree (heq ▸ hc)
  | name hne hcolon hopen =>
    obtain ⟨c, name, rfl⟩ := List.exists_cons_of_ne_nil hne
    have hc : '[' ≠ c := by
      intro heq
      exact hopen (by rw [heq]; rfl)
    rw [List.cons_append, Text.stripPrefix, if_neg hc, ← List.cons_append]
    dsimp only
    rw [List.takeWhile_append_of_pos]
    · cases port with
      | none => rw [portText, List.takeWhile_nil, List.append_nil]
      | some p => rw [portText, List.takeWhile_cons_of_neg (by decide), List.append_nil]
    · intro d hd
      rw [bne_iff_ne]
      intro heq
      exact hcolon (heq ▸ hd)

/-! ### Ports -/

theorem portText_plain (h : ∀ p ∈ port, isPort p) : ']' ∉ portText port := by
  cases port with
  | none => exact List.not_mem_nil
  | some p =>
    intro hmem
    have hport := h p rfl
    unfold isPort at hport
    rw [Bool.and_eq_true, List.all_eq_true] at hport
    rcases List.mem_cons.mp hmem with heq | hmem
    · cases heq
    · exact Bool.noConfusion (hport.2 _ hmem)

theorem portText_head (port : Option Str) :
    portText port = [] ∨ (portText port).head? = some ':' := by
  cases port with
  | none => exact .inl rfl
  | some p => exact .inr rfl

/-- What follows the first `]` is the port, if it is nothing else. -/
theorem behind_bracket {front rest : Str} (h : IsAuthority text host port) (hfront : ']' ∉ front)
    (htext : text = front ++ ']' :: rest) (hclose : rest = [] ∨ rest.head? = some ':') :
    rest = portText port := by
  obtain ⟨written, hwritten, hcut⟩ := h.cut
  have hplain := portText_plain h.port
  cases hwritten with
  | literal hliteral hfree =>
    have hopen : ']' ∉ '[' :: host := by
      rw [List.mem_cons, not_or]
      exact ⟨by decide, hfree⟩
    have hcut' : text = ('[' :: host) ++ ']' :: portText port := by
      rw [hcut, List.cons_append, List.append_assoc]
      rfl
    -- the first `]` is where it is
    have hone := Text.splitOnce_single hfront rest
    have hother := Text.splitOnce_single hopen (portText port)
    rw [← htext] at hone
    rw [← hcut', hone] at hother
    cases hother
    rfl
  | name hne hcolon hopen =>
    rw [hcut] at htext
    rcases List.append_eq_append_iff.mp htext with ⟨between, -, hport⟩ | ⟨between, hname, hport⟩
    · exact absurd (by rw [hport]; simp) hplain
    · cases between with
      | nil =>
        rw [List.nil_append] at hport
        exact absurd (by rw [← hport]; exact List.mem_cons_self) hplain
      | cons c between =>
        injection hport with hc hrest
        subst hc
        -- a name has no colon, so nothing of it is left
        have hnil : between = [] := by
          rcases hclose with hnil | hhead
          · rw [hnil] at hrest
            exact (List.append_eq_nil_iff.mp hrest.symm).1
          · cases between with
            | nil => rfl
            | cons d between =>
              rw [hrest] at hhead
              cases hhead
              rw [hname] at hcolon
              exact absurd (by simp) hcolon
        rw [hrest, hnil]
        rfl

theorem isAuthority_colon {p : Str} (h : IsAuthority text host (some p)) : ':' ∈ text := by
  obtain ⟨written, -, rfl⟩ := h.cut
  exact List.mem_append_right _ List.mem_cons_self

theorem bracketsClose_or (text : Str) : BracketsClose text ∨
    ∃ front c rest, ']' ∉ front ∧ text = front ++ ']' :: c :: rest ∧ c ≠ ':' := by
  rcases Text.cut_cases ']' text with ⟨front, rest, hfront, rfl⟩ | hnone
  · by_cases hclose : rest = [] ∨ rest.head? = some ':'
    · left
      intro front' rest' hfront' heq
      have hone := Text.splitOnce_single hfront rest
      rw [heq, Text.splitOnce_single hfront' rest'] at hone
      cases hone
      exact hclose
    · right
      rw [not_or] at hclose
      obtain ⟨c, rest, rfl⟩ := List.exists_cons_of_ne_nil hclose.1
      exact ⟨front, c, rest, hfront, rfl, fun heq => hclose.2 (by rw [heq]; rfl)⟩
  · left
    intro front rest _ heq
    exact absurd (by rw [heq]; simp) hnone

/-- **The port that is read is the port**, if nothing else follows a `]`. -/
theorem portOf_eq (hurl : authorityOf url = text) (h : IsAuthority text host port)
    (hclose : BracketsClose text) : portOf url = port := by
  have hport : ∀ p, port = some p → isPort p := fun p hp => h.port p hp
  unfold portOf
  rw [hurl]
  rcases Text.cut_cases ']' text with ⟨front, rest, hfront, htext⟩ | hnone
  · rw [behind_bracket h hfront htext (hclose front rest hfront htext)] at htext
    rw [htext, Text.splitOnce_single hfront]
    cases port with
    | none => rfl
    | some p => exact if_pos (hport p rfl)
  · rw [Text.splitOnce_single_none hnone]
    obtain ⟨written, hwritten, rfl⟩ := h.cut
    cases hwritten with
    | literal hliteral hfree => exact absurd (by simp) hnone
    | name hne hcolon hopen =>
      cases port with
      | none =>
        rw [portText, List.append_nil, Text.splitOnce_single_none hcolon]
        rfl
      | some p =>
        rw [portText, Text.splitOnce_single hcolon]
        exact if_pos (hport p rfl)

theorem hasPort_eq (h : IsAuthority text host port) (hclose : BracketsClose text) :
    hasPort text = port.isSome := by
  unfold hasPort
  rcases Text.cut_cases ']' text with ⟨front, rest, hfront, htext⟩ | hnone
  · rw [behind_bracket h hfront htext (hclose front rest hfront htext)] at htext
    rw [htext, Text.splitOnce_single hfront]
    cases port with
    | none => rfl
    | some p => rfl
  · rw [Text.splitOnce_single_none hnone]
    obtain ⟨written, hwritten, rfl⟩ := h.cut
    cases hwritten with
    | literal hliteral hfree => exact absurd (by simp) hnone
    | name hne hcolon hopen =>
      cases port with
      | none =>
        rw [portText, List.append_nil]
        simpa using hcolon
      | some p => simp [portText]

/-- **No port is found where something else follows the first `]`.** -/
theorem port_unread {front rest : Str} {c : Char} (hfront : ']' ∉ front) (hc : c ≠ ':') :
    hasPort (front ++ ']' :: c :: rest) = false ∧
      ∀ url, authorityOf url = front ++ ']' :: c :: rest → portOf url = none := by
  have hstrip : Text.stripPrefix [':'] (c :: rest) = none := if_neg (Ne.symm hc)
  constructor
  · unfold hasPort
    rw [Text.splitOnce_single hfront]
    dsimp only
    unfold Text.startsWith
    rw [hstrip]
    rfl
  · intro url hurl
    unfold portOf
    rw [hurl, Text.splitOnce_single hfront]
    dsimp only
    rw [hstrip]
    rfl

end Authority

/-! ## The policy -/

/-- The labels of a name, without case. -/
def labels (name : Str) : List Str := Text.split '.' (Text.toAsciiLowercase name)

/-- Neither is a literal IP address. -/
def Named (configured host : Str) : Prop :=
  IpAddr.parse (Text.toAsciiLowercase configured) = none ∧
    IpAddr.parse (Text.toAsciiLowercase host) = none

/-- The configured host's own domain, by whole labels. -/
inductive SharesDomain (configured host : Str) : Prop
  | same (h : Text.toAsciiLowercase configured = Text.toAsciiLowercase host)
  /-- A name without a dot is a label of the host, and not the leftmost one. -/
  | label {name : Str} (hnamed : Named configured host) (h : labels configured = [name])
      (hmem : name ∈ (labels host).drop 1)
  /-- Two labels are a domain of their own. -/
  | whole (hnamed : Named configured host) (h : (labels configured).length = 2)
      (hsuffix : labels configured <:+ labels host)
  /-- The parent domain of a longer name. -/
  | parent {first : Str} {domain : List Str} (hnamed : Named configured host)
      (h : labels configured = first :: domain) (hlong : 2 ≤ domain.length)
      (hsuffix : domain <:+ labels host)

/-- What a policy says of a host and of the port that its entry names. -/
def HeavyHosts.Allows (allowed : HeavyHosts) (configured host : Str) (port : Option Str) : Prop :=
  match allowed with
  | .sameDomain => SharesDomain (hostOf configured) host
  | .under domains _ => SharesDomain (hostOf configured) host ∨
    ∃ domain ∈ domains, Text.split '.' domain <:+ labels host
  | .anywhere => True
  | .only names => ∃ name ∈ names,
    Text.toAsciiLowercase (hostOf (Text.trim name)) = Text.toAsciiLowercase host ∧
      ∀ listed ∈ portOf (Text.trim name), ∀ given ∈ port, listed = given

/-- **The suffix rule is a rule about labels.** -/
theorem isUnder_iff {domain discovered : Str} :
    isUnder domain discovered ↔ Text.split '.' domain <:+ Text.split '.' discovered := by
  unfold isUnder
  rw [Text.split_suffix_iff, Bool.or_eq_true, beq_iff_eq, Text.endsWith_iff]
  constructor
  · intro h
    rcases h with h | ⟨front, h⟩
    · exact .inl h
    · exact .inr ⟨front, h.symm⟩
  · intro h
    rcases h with h | ⟨front, h⟩
    · exact .inl h
    · exact .inr ⟨front, h.symm⟩

theorem sharesDomain_of_sameDomain {configured host : Str} (h : sameDomain configured host) :
    SharesDomain configured host := by
  unfold sameDomain at h
  dsimp only at h
  by_cases hsame : Text.toAsciiLowercase configured = Text.toAsciiLowercase host
  · exact .same hsame
  rw [if_neg hsame] at h
  by_cases haddress : (IpAddr.parse (Text.toAsciiLowercase configured)).isSome ||
      (IpAddr.parse (Text.toAsciiLowercase host)).isSome
  · rw [if_pos haddress] at h
    cases h
  rw [if_neg haddress] at h
  have hnamed : Named configured host := by
    rw [Bool.or_eq_true, not_or, Option.not_isSome_iff_eq_none, Option.not_isSome_iff_eq_none]
      at haddress
    exact haddress
  rcases Text.cut_cases '.' (Text.toAsciiLowercase configured) with ⟨first, parent, hfree, hcut⟩ |
    hnone
  · rw [hcut, Text.splitOnce_single hfree] at h
    dsimp only at h
    have hlabels : labels configured = first :: Text.split '.' parent := by
      unfold labels
      rw [hcut, Text.split_append, Text.split_single hfree]
      rfl
    rcases Text.cut_cases '.' parent with ⟨second, rest, hfree', hcut'⟩ | hnone'
    · -- the parent domain has two labels or more
      have hdot : parent.contains '.' := by
        rw [hcut']
        simp
      rw [if_pos hdot] at h
      refine .parent hnamed hlabels ?_ (isUnder_iff.mp h)
      rw [hcut', Text.split_append, Text.split_single hfree', List.length_append]
      exact Nat.add_le_add (Nat.le_refl 1) (List.length_pos_iff.mpr (Text.split_ne_nil '.' rest))
    · have hdot : ¬ parent.contains '.' := by simpa using hnone'
      rw [if_neg hdot, ← hcut] at h
      refine .whole hnamed ?_ (isUnder_iff.mp h)
      rw [hlabels, Text.split_single hnone']
      rfl
  · rw [Text.splitOnce_single_none hnone] at h
    dsimp only at h
    obtain ⟨label, hlabel, heq⟩ := List.any_eq_true.mp h
    rw [beq_iff_eq] at heq
    subst heq
    exact .label hnamed (Text.split_single hnone) hlabel

/-- **What `admits` lets through, the policy allows.** -/
theorem allows_of_admits {allowed : HeavyHosts} {configured entry host : Str} {port : Option Str}
    (h : allowed.admits configured entry) (hhost : hostOf entry = host)
    (hport : ∀ p ∈ port, portOf entry = some p) : allowed.Allows configured host port := by
  subst hhost
  cases allowed with
  | sameDomain => exact sharesDomain_of_sameDomain h
  | under domains ignored =>
    rcases Bool.or_eq_true _ _ ▸ h with h | h
    · exact .inl (sharesDomain_of_sameDomain h)
    · obtain ⟨domain, hdomain, hunder⟩ := List.any_eq_true.mp h
      exact .inr ⟨domain, hdomain, isUnder_iff.mp hunder⟩
  | anywhere => trivial
  | only names =>
    obtain ⟨name, hname, hsame⟩ := List.any_eq_true.mp h
    refine ⟨name, hname, ?_⟩
    unfold sameName at hsame
    dsimp only at hsame
    by_cases hhosts : Text.toAsciiLowercase (hostOf (Text.trim name)) =
        Text.toAsciiLowercase (hostOf entry)
    · rw [if_neg (not_not_intro hhosts)] at hsame
      refine ⟨hhosts, ?_⟩
      intro listed hlisted given hgiven
      rw [hlisted, hport given hgiven] at hsame
      exact beq_iff_eq.mp hsame
    · rw [if_pos hhosts] at hsame
      cases hsame

/-! ## The URL -/

/-- The scheme of a URL. -/
def schemeOf (url : Str) : Option Str := (Text.splitOnce schemeMark url).map Prod.fst

/-- What the URL made of an entry has to be: the configured scheme, and an authority of the
entry's host and of the entry's port or else the configured one, which is what is read of it
and what the policy allows. -/
structure WithinPolicy (allowed : HeavyHosts) (configured entry url : Str) : Prop where
  scheme : (schemeOf url).map Text.toAsciiLowercase = (schemeOf configured).map Text.toAsciiLowercase
  authority : ∃ host port scheme rest, IsAuthority entry host port ∧
    Text.splitOnce schemeMark url = some (scheme, rest) ∧
    IsAuthority rest host (port.or (portOf configured)) ∧
    hostOf url = host ∧ portOf url = port.or (portOf configured) ∧
    allowed.Allows configured host port

/-- The configured scheme is one that `heavy_base` recognises. -/
def SchemeKept (configured : Str) : Prop :=
  Text.startsWith httpsPrefix configured ∨
    (schemeOf configured).map Text.toAsciiLowercase = some "http".toList

/-- Nothing but a port follows the first `]` of the entry, or no port is named at all. -/
def BracketsInPlace (configured entry : Str) : Prop :=
  BracketsClose entry ∨ (':' ∉ entry ∧ portOf configured = none)

/-- An entry that has been accepted. -/
structure Accepted (allowed : HeavyHosts) (configured entry url : Str) : Prop where
  ne : entry ≠ []
  plain : ∀ c ∈ entry, plainChar c
  authority : isAuthority entry
  admitted : allowed.admits configured entry
  url : url = (if Text.startsWith httpsPrefix configured then httpsPrefix else httpPrefix) ++
    (entry ++ portText (if hasPort entry then none else portOf configured))

section Url

variable {allowed : HeavyHosts} {configured entry url : Str}

theorem accepted_of_heavyBase (h : heavyBase configured entry allowed = .ok url) :
    Accepted allowed configured (Text.trim entry) url := by
  unfold heavyBase at h
  dsimp only at h
  split at h
  · cases h
  · rename_i hshape
    simp only [Bool.or_eq_true, not_or, Bool.not_eq_true', Bool.not_eq_false] at hshape
    obtain ⟨⟨⟨⟨⟨⟨hne, -⟩, hslash⟩, huserinfo⟩, hquery⟩, hspace⟩, hauthority⟩ := hshape
    split at h
    · cases h
    · rename_i hadmits
      refine ⟨?_, ?_, hauthority, by simpa using hadmits, ?_⟩
      · intro hnil
        exact hne (by rw [hnil]; rfl)
      · intro c hc
        rw [plainChar_iff]
        refine ⟨⟨?_, ?_, ?_⟩, ?_, ?_⟩
        · rintro rfl
          exact hslash (List.contains_iff_mem.mpr hc)
        · rintro rfl
          exact hquery (List.any_eq_true.mpr ⟨_, hc, rfl⟩)
        · rintro rfl
          exact hquery (List.any_eq_true.mpr ⟨_, hc, rfl⟩)
        · rintro rfl
          exact huserinfo (List.contains_iff_mem.mpr hc)
        · rw [← Bool.not_eq_true]
          intro hwhite
          exact hspace (List.any_eq_true.mpr ⟨c, hc, hwhite⟩)
      · cases hhas : hasPort (Text.trim entry) with
        | true =>
          rw [hhas] at h
          cases h
          rw [if_pos rfl]
          simp [portText]
        | false =>
          rw [hhas] at h
          cases hport : portOf configured with
          | none =>
            rw [hport] at h
            cases h
            simp [portText]
          | some p =>
            rw [hport] at h
            cases h
            simp [portText, List.append_assoc]

theorem portOf_isPort {p : Str} (h : portOf url = some p) : isPort p := by
  unfold portOf at h
  obtain ⟨found, -, hfound⟩ := Option.bind_eq_some_iff.mp h
  split at hfound
  · cases hfound
    assumption
  · cases hfound

theorem digit_plain {c : Char} (h : c.isDigit) : plainChar c := by
  have hrange : 48 ≤ c.toNat ∧ c.toNat ≤ 57 := by
    unfold Char.isDigit at h
    rw [Bool.and_eq_true, decide_eq_true_iff, decide_eq_true_iff] at h
    exact h
  rw [plainChar_iff]
  refine ⟨⟨?_, ?_, ?_⟩, ?_, ?_⟩
  · rintro rfl
    cases h
  · rintro rfl
    cases h
  · rintro rfl
    cases h
  · rintro rfl
    cases h
  · simp only [Text.isWhitespace, Bool.or_eq_false_iff, Bool.and_eq_false_iff, decide_eq_false_iff_not,
      beq_eq_false_iff_ne]
    omega

theorem plain_portText {port : Option Str} (h : ∀ p ∈ port, isPort p) :
    ∀ c ∈ portText port, plainChar c := by
  intro c hc
  cases port with
  | none => cases hc
  | some p =>
    rcases List.mem_cons.mp hc with rfl | hc
    · rfl
    · have hport := h p rfl
      unfold isPort at hport
      rw [Bool.and_eq_true, List.all_eq_true] at hport
      exact digit_plain (hport.2 c hc)

theorem splitOnce_scheme (configured rest : Str) :
    Text.splitOnce schemeMark ((if Text.startsWith httpsPrefix configured then httpsPrefix
      else httpPrefix) ++ rest) =
      some (if Text.startsWith httpsPrefix configured then "https".toList else "http".toList,
        rest) := by
  have hmark : schemeMark ≠ [] := List.cons_ne_nil _ _
  split
  · have hcut : Text.splitOnce schemeMark httpsPrefix = some ("https".toList, []) := by decide
    exact Text.splitOnce_swap hmark hcut rest
  · have hcut : Text.splitOnce schemeMark httpPrefix = some ("http".toList, []) := by decide
    exact Text.splitOnce_swap hmark hcut rest

/-- **The scheme is kept** exactly when it is one that is recognised. -/
theorem Accepted.scheme_iff (h : Accepted allowed configured entry url) :
    (schemeOf url).map Text.toAsciiLowercase =
      (schemeOf configured).map Text.toAsciiLowercase ↔ SchemeKept configured := by
  have hurl : schemeOf url =
      some (if Text.startsWith httpsPrefix configured then "https".toList else "http".toList) := by
    unfold schemeOf
    rw [h.url, splitOnce_scheme]
    rfl
  unfold SchemeKept
  rw [hurl]
  by_cases hhttps : Text.startsWith httpsPrefix configured
  · obtain ⟨rest, rfl⟩ := Text.startsWith_iff.mp hhttps
    have hconfigured := splitOnce_scheme (httpsPrefix ++ rest) rest
    rw [if_pos hhttps, if_pos hhttps] at hconfigured
    refine iff_of_true ?_ (.inl hhttps)
    unfold schemeOf
    rw [if_pos hhttps, hconfigured]
    rfl
  · rw [if_neg hhttps, or_iff_right hhttps, Option.map_some]
    exact eq_comm

/-- The entry's authority, with the configured port behind it if the entry has none. -/
theorem IsAuthority.withPort {text host : Str} {port extra : Option Str}
    (h : IsAuthority text host port) (hextra : ∀ p ∈ extra, isPort p)
    (hone : port = none ∨ extra = none) :
    IsAuthority (text ++ portText extra) host (port.or extra) := by
  obtain ⟨written, hwritten, hcut⟩ := h.cut
  refine ⟨⟨written, hwritten, ?_⟩, ?_, ?_⟩
  · rcases hone with rfl | rfl
    · rw [hcut, portText, List.append_nil, Option.none_or]
    · rw [hcut, Option.or_none]
      exact List.append_nil _
  · rcases hone with rfl | rfl
    · rwa [Option.none_or]
    · rw [Option.or_none]
      exact h.port
  · intro c hc
    rcases List.mem_append.mp hc with hc | hc
    · exact h.plain c hc
    · exact plain_portText hextra c hc

theorem BracketsClose.withPort {text : Str} {extra : Option Str} (h : BracketsClose text)
    (hextra : ∀ p ∈ extra, isPort p) : BracketsClose (text ++ portText extra) := by
  intro front rest hfront htext
  rcases List.append_eq_append_iff.mp htext with ⟨between, rfl, hport⟩ | ⟨between, htext', hrest⟩
  · exact absurd (by rw [hport]; simp) (portText_plain hextra)
  · cases between with
    | nil =>
      rw [List.nil_append] at hrest
      exact absurd (by rw [← hrest]; exact List.mem_cons_self) (portText_plain hextra)
    | cons c between =>
      injection hrest with hc hrest
      subst hc
      rcases h front between hfront htext' with rfl | hhead
      · rw [hrest]
        exact portText_head extra
      · right
        obtain ⟨between, rfl⟩ := List.head?_eq_some_iff.mp hhead
        rw [hrest]
        rfl

/-- What an accepted entry's URL is read as. -/
theorem Accepted.within {host : Str} {port : Option Str}
    (h : Accepted allowed configured entry url) (extra : Option Str) (hscheme : SchemeKept configured)
    (hauthority : IsAuthority entry host port)
    (hextra : (if hasPort entry then none else portOf configured) = extra)
    (hone : port = none ∨ extra = none) (hport : port.or extra = port.or (portOf configured))
    (hread : ∀ url, authorityOf url = entry ++ portText extra → portOf url = port.or extra)
    (hallowed : ∀ p ∈ port, portOf entry = some p) :
    WithinPolicy allowed configured entry url := by
  have hports : ∀ p ∈ extra, isPort p := by
    intro p hp
    rw [← hextra] at hp
    split at hp
    · cases hp
    · exact portOf_isPort hp
  have hwhole := hauthority.withPort hports hone
  have hcut := splitOnce_scheme configured (entry ++ portText extra)
  rw [← hextra, ← h.url, hextra] at hcut
  have hurl := authorityOf_url hwhole.plain hcut
  refine ⟨h.scheme_iff.mpr hscheme, host, port, _, _, hauthority, hcut, ?_⟩
  rw [← hport]
  exact ⟨hwhole, hostOf_eq hurl hwhole, hread url hurl,
    allows_of_admits h.admitted (hostOf_eq (authorityOf_plain h.plain) hauthority) hallowed⟩

/-- **Every accepted entry becomes a URL within policy**, exactly when the configured scheme
is recognised and nothing but a port follows the first `]` of the entry. -/
theorem heavyBase_within_iff (h : heavyBase configured entry allowed = .ok url) :
    WithinPolicy allowed configured (Text.trim entry) url ↔
      SchemeKept configured ∧ BracketsInPlace configured (Text.trim entry) := by
  have haccepted := accepted_of_heavyBase h
  generalize Text.trim entry = entry at haccepted
  have hconfigured : ∀ p ∈ portOf configured, isPort p := fun p hp => portOf_isPort hp
  constructor
  · intro hwithin
    refine ⟨haccepted.scheme_iff.mp hwithin.scheme, ?_⟩
    rcases bracketsClose_or entry with hclose | ⟨front, c, rest, hfront, hentry, hc⟩
    · exact .inl hclose
    · right
      -- neither the entry's port nor the configured one is read of the URL
      have hread : authorityOf url = front ++ ']' :: c :: (rest ++ portText (portOf configured)) := by
        have hurl := haccepted.url
        rw [hentry, (port_unread hfront hc).1, if_neg Bool.false_ne_true] at hurl
        have hplain : ∀ d ∈ entry ++ portText (portOf configured), plainChar d := by
          intro d hd
          rcases List.mem_append.mp hd with hd | hd
          · exact haccepted.plain d hd
          · exact plain_portText hconfigured d hd
        have hcut := splitOnce_scheme configured (entry ++ portText (portOf configured))
        rw [hentry] at hcut hplain
        rw [← hurl] at hcut
        rw [authorityOf_url hplain hcut, List.append_assoc]
        rfl
      have hnone := (port_unread hfront hc).2 url hread
      obtain ⟨host, port, -, -, hauthority, -, -, -, hport, -⟩ := hwithin.authority
      rw [hnone] at hport
      cases port with
      | some p => cases hport
      | none =>
        refine ⟨?_, by rw [← Option.none_or (o := portOf configured), ← hport]⟩
        obtain ⟨written, hwritten, hcut⟩ := hauthority.cut
        rw [portText, List.append_nil] at hcut
        cases hwritten with
        | literal hliteral hfree =>
          -- nothing follows the bracket of a literal
          have hopen : ']' ∉ '[' :: host := by
            rw [List.mem_cons, not_or]
            exact ⟨by decide, hfree⟩
          have hclosed : entry = ('[' :: host) ++ ']' :: [] := hcut
          have hone := Text.splitOnce_single hopen []
          rw [← hclosed, hentry, Text.splitOnce_single hfront] at hone
          cases hone
        | name hne hcolon hopen =>
          rw [hcut]
          exact hcolon
  · intro hkept
    obtain ⟨hscheme, hplace⟩ := hkept
    obtain ⟨host, port, hauthority⟩ :=
      isAuthority_cut haccepted.ne haccepted.plain haccepted.authority
    rcases hplace with hclose | ⟨hcolon, hnone⟩
    · have hread := portOf_eq (authorityOf_plain haccepted.plain) hauthority hclose
      have hhas := hasPort_eq hauthority hclose
      cases port with
      | none =>
        refine haccepted.within _ hscheme hauthority (by rw [hhas]; rfl) (.inl rfl) rfl ?_ nofun
        intro url hurl
        exact portOf_eq hurl (hauthority.withPort hconfigured (.inl rfl))
          (hclose.withPort hconfigured)
      | some p =>
        refine haccepted.within none hscheme hauthority (by rw [hhas]; rfl) (.inr rfl)
          rfl ?_ ?_
        · intro url hurl
          rw [portText, List.append_nil] at hurl
          exact portOf_eq hurl hauthority hclose
        · intro q hq
          cases hq
          exact hread
    · have hport : port = none := by
        cases port with
        | none => rfl
        | some p => exact absurd (isAuthority_colon hauthority) hcolon
      subst hport
      refine haccepted.within none hscheme hauthority (by rw [hnone]; split <;> rfl)
        (.inl rfl) (by rw [hnone]) ?_ nofun
      intro url hurl
      rw [portText, List.append_nil] at hurl
      rcases bracketsClose_or entry with hclose | ⟨front, c, rest, hfront, hentry, hc⟩
      · exact portOf_eq hurl hauthority hclose
      · rw [hentry] at hurl
        exact (port_unread hfront hc).2 url hurl

end Url

/-- A name without brackets. -/
theorem BracketsClose.of_not_mem {text : Str} (h : ']' ∉ text) : BracketsClose text := by
  intro front rest _ htext
  exact absurd (by rw [htext]; simp) h

theorem heavyBase_within_proxy :
    WithinPolicy .sameDomain "https://cluster.example.net:8443".toList
      (Text.trim "n0132-sas.example.net".toList) "https://n0132-sas.example.net:8443".toList := by
  apply (heavyBase_within_iff (by decide +kernel)).mpr
  exact ⟨.inl (by decide +kernel), .inl (BracketsClose.of_not_mem (by decide +kernel))⟩

/-- A `]` that no `[` opens: both ports are in the URL, and none is read of it. -/
theorem heavyBase_two_ports :
    heavyBase "http://cluster.example.net:8000".toList "n0132]x.example.net:80".toList
        .sameDomain = .ok "http://n0132]x.example.net:80:8000".toList ∧
      ¬ WithinPolicy .sameDomain "http://cluster.example.net:8000".toList
        (Text.trim "n0132]x.example.net:80".toList)
        "http://n0132]x.example.net:80:8000".toList := by
  refine ⟨by decide +kernel, ?_⟩
  intro hwithin
  obtain ⟨host, port, -, -, -, -, -, -, hport, -⟩ := hwithin.authority
  have hread : portOf "http://n0132]x.example.net:80:8000".toList = none := by decide +kernel
  have hconfigured : portOf "http://cluster.example.net:8000".toList = some "8000".toList := by
    decide +kernel
  rw [hread, hconfigured] at hport
  cases port <;> cases hport

end Ytsaurus.Client
