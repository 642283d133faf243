import Mathlib.Data.List.TakeWhile

/-!
# `Lib/Text.lean` — cutting texts

A text is a list of characters. Searching for a pattern cuts a text at its first occurrence
(`splitOnce`), searching from the end for a character cuts it at the last one (`rsplitOnce`).

The fact that makes it safe to put something else behind a cut is `splitOnce_swap`: where a
pattern is found first depends on nothing behind it.
-/

set_option autoImplicit false

namespace Text

section Search

variable {α : Type} [DecidableEq α]

/-- What follows the pattern, if the text begins with it. -/
def stripPrefix : List α → List α → Option (List α)
  | [], text => some text
  | _ :: _, [] => none
  | p :: pattern, c :: text => if p = c then stripPrefix pattern text else none

/-- The text in front of the first occurrence of the pattern, and behind it. -/
def splitOnce (pattern : List α) : List α → Option (List α × List α)
  | [] => (stripPrefix pattern []).map fun rest => ([], rest)
  | c :: text =>
    match stripPrefix pattern (c :: text) with
    | some rest => some ([], rest)
    | none => (splitOnce pattern text).map fun parts => (c :: parts.1, parts.2)

/-- The text in front of the last occurrence of a character, and behind it. -/
def rsplitOnce (mark : α) : List α → Option (List α × List α)
  | [] => none
  | c :: text =>
    match rsplitOnce mark text with
    | some parts => some (c :: parts.1, parts.2)
    | none => if c = mark then some ([], text) else none

/-- The pieces of a text between the occurrences of a character. -/
def split (mark : α) : List α → List (List α)
  | [] => [[]]
  | c :: text =>
    if c = mark then [] :: split mark text
    else
      match split mark text with
      | [] => [[c]]
      | piece :: pieces => (c :: piece) :: pieces

/-- The pattern occurs in the text. -/
def contains (pattern text : List α) : Bool := (splitOnce pattern text).isSome

def startsWith (pattern text : List α) : Bool := (stripPrefix pattern text).isSome

def endsWith (pattern text : List α) : Bool := startsWith pattern.reverse text.reverse

attribute [local simp] stripPrefix splitOnce rsplitOnce split

theorem stripPrefix_eq_some {pattern text rest : List α} :
    stripPrefix pattern text = some rest ↔ text = pattern ++ rest := by
  induction pattern generalizing text with
  | nil =>
    rw [stripPrefix, List.nil_append, Option.some.injEq]
  | cons p pattern ih =>
    cases text with
    | nil => simp [stripPrefix]
    | cons c text =>
      rw [stripPrefix]
      by_cases hc : p = c
      · rw [if_pos hc, ih, hc]
        simp
      · rw [if_neg hc]
        simp [Ne.symm hc]

theorem stripPrefix_append (pattern rest : List α) :
    stripPrefix pattern (pattern ++ rest) = some rest :=
  stripPrefix_eq_some.mpr rfl

/-- Whether a text begins with a pattern is decided within the length of the pattern. -/
theorem stripPrefix_none_swap {pattern front rest : List α} (rest' : List α)
    (hlength : pattern.length ≤ front.length) (h : stripPrefix pattern (front ++ rest) = none) :
    stripPrefix pattern (front ++ rest') = none := by
  cases hfound : stripPrefix pattern (front ++ rest') with
  | none => rfl
  | some found =>
    have htext := stripPrefix_eq_some.mp hfound
    have hfront : front.take pattern.length = pattern := by
      have htake := congrArg (List.take pattern.length) htext
      rw [List.take_append_of_le_length hlength, List.take_left] at htake
      exact htake
    have hwhole : pattern ++ (front.drop pattern.length ++ rest) = front ++ rest := by
      have hsplit := List.take_append_drop pattern.length front
      rw [hfront] at hsplit
      rw [← List.append_assoc, hsplit]
    rw [← hwhole, stripPrefix_append] at h
    cases h

theorem splitOnce_eq {pattern text front rest : List α}
    (h : splitOnce pattern text = some (front, rest)) : text = front ++ pattern ++ rest := by
  induction text generalizing front with
  | nil =>
    rw [splitOnce] at h
    obtain ⟨found, hfound, heq⟩ := Option.map_eq_some_iff.mp h
    cases heq
    exact stripPrefix_eq_some.mp hfound
  | cons c text ih =>
    rw [splitOnce] at h
    cases hfound : stripPrefix pattern (c :: text) with
    | some found =>
      rw [hfound] at h
      cases h
      exact stripPrefix_eq_some.mp hfound
    | none =>
      rw [hfound] at h
      obtain ⟨parts, hparts, heq⟩ := Option.map_eq_some_iff.mp h
      cases heq
      rw [ih hparts]
      rfl

/-- **Where a pattern is found first does not depend on what is behind it.** -/
theorem splitOnce_swap {pattern text front rest : List α} (hpattern : pattern ≠ [])
    (h : splitOnce pattern text = some (front, rest)) (rest' : List α) :
    splitOnce pattern (front ++ pattern ++ rest') = some (front, rest') := by
  induction text generalizing front with
  | nil =>
    rw [splitOnce] at h
    obtain ⟨found, hfound, _⟩ := Option.map_eq_some_iff.mp h
    obtain ⟨p, pattern, rfl⟩ := List.exists_cons_of_ne_nil hpattern
    cases hfound
  | cons c text ih =>
    have htext := splitOnce_eq h
    rw [splitOnce] at h
    cases hfound : stripPrefix pattern (c :: text) with
    | some found =>
      rw [hfound] at h
      cases h
      obtain ⟨p, pattern, rfl⟩ := List.exists_cons_of_ne_nil hpattern
      rw [List.nil_append, List.cons_append, splitOnce, ← List.cons_append, stripPrefix_append]
    | none =>
      rw [hfound] at h
      obtain ⟨parts, hparts, heq⟩ := Option.map_eq_some_iff.mp h
      cases heq
      -- the pattern would have to begin within what did not change
      have hnone : stripPrefix pattern ((c :: parts.1 ++ pattern) ++ rest') = none := by
        apply stripPrefix_none_swap rest'
        · rw [List.length_append]
          exact Nat.le_add_left _ _
        · rw [← htext]
          exact hfound
      rw [List.cons_append, List.cons_append] at hnone ⊢
      rw [splitOnce, hnone]
      dsimp only
      rw [ih hparts]
      rfl

theorem rsplitOnce_eq {mark : α} {text front rest : List α}
    (h : rsplitOnce mark text = some (front, rest)) : text = front ++ mark :: rest := by
  induction text generalizing front with
  | nil => cases h
  | cons c text ih =>
    rw [rsplitOnce] at h
    cases hfound : rsplitOnce mark text with
    | some parts =>
      rw [hfound] at h
      cases h
      rw [ih hfound]
      rfl
    | none =>
      rw [hfound] at h
      by_cases hc : c = mark
      · rw [if_pos hc] at h
        cases h
        rw [hc]
        rfl
      · rw [if_neg hc] at h
        cases h

/-! ### Cutting at one character -/

section One

variable {mark : α} {front text : List α}

theorem splitOnce_single (h : mark ∉ front) (rest : List α) :
    splitOnce [mark] (front ++ mark :: rest) = some (front, rest) := by
  induction front with
  | nil =>
    rw [List.nil_append, splitOnce, stripPrefix, if_pos rfl]
    rfl
  | cons c front ih =>
    rw [List.mem_cons, not_or] at h
    rw [List.cons_append, splitOnce, stripPrefix, if_neg h.1]
    dsimp only
    rw [ih h.2]
    rfl

theorem splitOnce_single_none (h : mark ∉ text) : splitOnce [mark] text = none := by
  induction text with
  | nil => rfl
  | cons c text ih =>
    rw [List.mem_cons, not_or] at h
    rw [splitOnce, stripPrefix, if_neg h.1]
    dsimp only
    rw [ih h.2]
    rfl

/-- A text is cut at the first occurrence of a character, or the character is not in it. -/
theorem cut_cases (mark : α) (text : List α) :
    (∃ front rest, mark ∉ front ∧ text = front ++ mark :: rest) ∨ mark ∉ text := by
  by_cases h : mark ∈ text
  · obtain ⟨front, rest, htext, hfront⟩ := List.eq_append_cons_of_mem h
    exact .inl ⟨front, rest, hfront, htext⟩
  · exact .inr h

theorem rsplitOnce_none (h : mark ∉ text) : rsplitOnce mark text = none := by
  induction text with
  | nil => rfl
  | cons c text ih =>
    rw [List.mem_cons, not_or] at h
    rw [rsplitOnce, ih h.2]
    exact if_neg (Ne.symm h.1)

theorem split_ne_nil (mark : α) (text : List α) : split mark text ≠ [] := by
  cases text with
  | nil => exact List.cons_ne_nil _ _
  | cons c text =>
    rw [split]
    split
    · exact List.cons_ne_nil _ _
    · split <;> exact List.cons_ne_nil _ _

theorem split_single (h : mark ∉ text) : split mark text = [text] := by
  induction text with
  | nil => rfl
  | cons c text ih =>
    rw [List.mem_cons, not_or] at h
    rw [split, if_neg (Ne.symm h.1), ih h.2]

/-- **The pieces on both sides of a cut** are the pieces of the text. -/
theorem split_append (mark : α) (front rest : List α) :
    split mark (front ++ mark :: rest) = split mark front ++ split mark rest := by
  induction front with
  | nil => exact if_pos rfl
  | cons c front ih =>
    rw [List.cons_append, split, split, ih]
    by_cases hc : c = mark
    · rw [if_pos hc, if_pos hc]
      rfl
    · rw [if_neg hc, if_neg hc]
      cases hpieces : split mark front with
      | nil => exact absurd hpieces (split_ne_nil mark front)
      | cons piece pieces => rfl

/-- Texts with the same pieces are the same. -/
theorem split_inj {other : List α} (h : split mark text = split mark other) : text = other := by
  generalize hpieces : split mark other = pieces at h
  induction pieces generalizing text other with
  | nil => exact absurd hpieces (split_ne_nil mark other)
  | cons piece pieces ih =>
    -- each text is its first piece, or that with the mark and a text of the other pieces
    have hfirst : ∀ text : List α, split mark text = piece :: pieces →
        (text = piece ∧ pieces = []) ∨
          ∃ rest, text = piece ++ mark :: rest ∧ split mark rest = pieces := by
      intro text htext
      rcases cut_cases mark text with ⟨front, rest, hfront, rfl⟩ | hnone
      · rw [split_append, split_single hfront] at htext
        cases htext
        exact .inr ⟨rest, rfl, rfl⟩
      · rw [split_single hnone] at htext
        cases htext
        exact .inl ⟨rfl, rfl⟩
    rcases hfirst text h with ⟨rfl, hnil⟩ | ⟨rest, rfl, hrest⟩
    · rcases hfirst other hpieces with ⟨rfl, -⟩ | ⟨rest', -, hrest'⟩
      · rfl
      · exact absurd (hrest'.trans hnil) (split_ne_nil mark rest')
    · rcases hfirst other hpieces with ⟨-, hnil⟩ | ⟨rest', rfl, hrest'⟩
      · exact absurd (hrest.trans hnil) (split_ne_nil mark rest)
      · rw [ih hrest' hrest]

/-- **Behind the last mark stands the last piece**, so a cut there is the only one. -/
theorem append_mark_inj {front' tail tail' : List α}
    (h : front ++ mark :: tail = front' ++ mark :: tail') (htail : mark ∉ tail)
    (htail' : mark ∉ tail') : front = front' ∧ tail = tail' := by
  have hpieces := congrArg (split mark) h
  rw [split_append, split_append, split_single htail, split_single htail'] at hpieces
  obtain ⟨hfront, hlast⟩ := List.append_inj' hpieces rfl
  exact ⟨split_inj hfront, List.singleton_inj.mp hlast⟩

/-- **A text ends in another at a piece boundary** exactly when the pieces of the one end in
the pieces of the other. -/
theorem split_suffix_iff {tail : List α} :
    split mark tail <:+ split mark text ↔ text = tail ∨ ∃ front, text = front ++ mark :: tail := by
  constructor
  · intro h
    obtain ⟨pre, hpre⟩ := h
    induction pre generalizing text with
    | nil => exact .inl (split_inj hpre.symm)
    | cons piece pre ih =>
      right
      rcases cut_cases mark text with ⟨front, rest, hfront, rfl⟩ | hnone
      · rw [split_append, split_single hfront] at hpre
        injection hpre with _ hrest
        rcases ih hrest with rfl | ⟨front', rfl⟩
        · exact ⟨front, rfl⟩
        · exact ⟨front ++ mark :: front', by rw [List.append_assoc, List.cons_append]⟩
      · -- there is only one piece
        rw [split_single hnone] at hpre
        injection hpre with _ hnil
        exact absurd (List.append_eq_nil_iff.mp hnil).2 (split_ne_nil mark tail)
  · intro h
    rcases h with rfl | ⟨front, rfl⟩
    · exact List.suffix_refl _
    · rw [split_append]
      exact List.suffix_append _ _

end One

theorem startsWith_iff {pattern text : List α} : startsWith pattern text ↔ pattern <+: text := by
  unfold startsWith
  rw [Option.isSome_iff_exists]
  constructor
  · intro h
    obtain ⟨rest, hrest⟩ := h
    exact ⟨rest, (stripPrefix_eq_some.mp hrest).symm⟩
  · intro h
    obtain ⟨rest, hrest⟩ := h
    exact ⟨rest, stripPrefix_eq_some.mpr hrest.symm⟩

theorem endsWith_iff {pattern text : List α} : endsWith pattern text ↔ pattern <:+ text := by
  unfold endsWith
  rw [startsWith_iff, List.reverse_prefix]

end Search

/-! ## Characters -/

/-- The characters with the property `White_Space`. -/
def isWhitespace (c : Char) : Bool :=
  (0x09 ≤ c.toNat && c.toNat ≤ 0x0D) || c.toNat == 0x20 || c.toNat == 0x85 || c.toNat == 0xA0 ||
    c.toNat == 0x1680 || (0x2000 ≤ c.toNat && c.toNat ≤ 0x200A) || c.toNat == 0x2028 ||
    c.toNat == 0x2029 || c.toNat == 0x202F || c.toNat == 0x205F || c.toNat == 0x3000

def trimStart (text : List Char) : List Char := text.dropWhile isWhitespace

/-- Without the white space on either side. -/
def trim (text : List Char) : List Char := (trimStart (trimStart text).reverse).reverse

theorem trimStart_eq_self {text : List Char} (h : ∀ c ∈ text.head?, isWhitespace c = false) :
    trimStart text = text := by
  unfold trimStart
  cases text with
  | nil => rfl
  | cons c text =>
    have hc := h c rfl
    exact List.dropWhile_cons_of_neg (by rw [hc]; decide)

theorem trim_eq_self {text : List Char} (hfirst : ∀ c ∈ text.head?, isWhitespace c = false)
    (hlast : ∀ c ∈ text.getLast?, isWhitespace c = false) : trim text = text := by
  unfold trim
  rw [trimStart_eq_self hfirst, trimStart_eq_self, List.reverse_reverse]
  rw [List.head?_reverse]
  exact hlast

/-- Letters of ASCII in lower case; every other character as it is. -/
def toAsciiLowercase (text : List Char) : List Char := text.map Char.toLower

/-- The number that decimal digits spell. -/
def digitsValue (digits : List Char) : Nat :=
  digits.foldl (fun value c => 10 * value + (c.toNat - 0x30)) 0

end Text
