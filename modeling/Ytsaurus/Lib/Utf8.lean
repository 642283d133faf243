import Mathlib.Data.String.Basic

/-!
# `Lib/Utf8.lean` — text and its bytes

Text goes to bytes and back, strictly or with replacement characters for what is not text.
The replacing decoder is the identity on the bytes of a text, and on other bytes it never
invents an ASCII character: what it shows as ASCII was ASCII.
-/

set_option autoImplicit false

namespace Utf8

/-! ## Strict -/

/-- The bytes of a text. -/
def asBytes (text : String) : List UInt8 := text.toByteArray.data.toList

/-- The text these bytes are, if they are one. -/
def fromUtf8 (bytes : List UInt8) : Option String := String.fromUTF8? ⟨bytes.toArray⟩

theorem fromUtf8_asBytes (text : String) : fromUtf8 (asBytes text) = some text := by
  unfold fromUtf8 asBytes String.fromUTF8?
  rw [dif_pos text.isValidUTF8]
  rfl

theorem asBytes_of_fromUtf8 {bytes : List UInt8} {text : String} (h : fromUtf8 bytes = some text) :
    asBytes text = bytes := by
  unfold fromUtf8 String.fromUTF8? at h
  split at h
  · obtain rfl := Option.some.inj h
    rfl
  · cases h

theorem asBytes_injective {a b : String} (h : asBytes a = asBytes b) : a = b := by
  have hsome : some a = some b := by rw [← fromUtf8_asBytes a, h, fromUtf8_asBytes b]
  exact Option.some.inj hsome

theorem asBytes_eq_nil {text : String} : asBytes text = [] ↔ text = "" := by
  constructor
  · intro h
    exact asBytes_injective h
  · intro h
    rw [h]
    rfl

theorem asBytes_append (a b : String) : asBytes (a ++ b) = asBytes a ++ asBytes b := by
  unfold asBytes
  rw [String.toByteArray_append, ByteArray.data_append, Array.toList_append]

/-! ## With replacement -/

/-- U+FFFD. -/
def replacement : Char := Char.ofNat 0xFFFD

def isContinuation (b : UInt8) : Bool := 0x80 ≤ b && b ≤ 0xBF

/-- The second byte of a sequence of three or four: the first byte rules out overlong forms,
surrogates and what lies above U+10FFFF. -/
def isSecond (first b : UInt8) : Bool :=
  if first = 0xE0 then 0xA0 ≤ b && b ≤ 0xBF
  else if first = 0xED then 0x80 ≤ b && b ≤ 0x9F
  else if first = 0xF0 then 0x90 ≤ b && b ≤ 0xBF
  else if first = 0xF4 then 0x80 ≤ b && b ≤ 0x8F
  else isContinuation b

/-- The six bits of a continuation byte. -/
def bits (b : UInt8) : Nat := b.toNat - 0x80

/-- What stands at the front of bytes that begin with `b`: a character, or the replacement for
the longest part of a sequence that breaks off; and how many bytes behind `b` belong to it. -/
def chunk (b : UInt8) (rest : List UInt8) : Char × Nat :=
  if b < 0x80 then (Char.ofNat b.toNat, 0)
  else if 0xC2 ≤ b && b ≤ 0xDF then
    match rest with
    | c :: _ =>
      if isContinuation c then (Char.ofNat ((b.toNat - 0xC0) * 64 + bits c), 1)
      else (replacement, 0)
    | [] => (replacement, 0)
  else if 0xE0 ≤ b && b ≤ 0xEF then
    match rest with
    | c :: rest =>
      if isSecond b c then
        match rest with
        | d :: _ =>
          if isContinuation d then
            (Char.ofNat ((b.toNat - 0xE0) * 4096 + bits c * 64 + bits d), 2)
          else (replacement, 1)
        | [] => (replacement, 1)
      else (replacement, 0)
    | [] => (replacement, 0)
  else if 0xF0 ≤ b && b ≤ 0xF4 then
    match rest with
    | c :: rest =>
      if isSecond b c then
        match rest with
        | d :: rest =>
          if isContinuation d then
            match rest with
            | e :: _ =>
              if isContinuation e then
                (Char.ofNat ((b.toNat - 0xF0) * 262144 + bits c * 4096 + bits d * 64 + bits e), 3)
              else (replacement, 2)
            | [] => (replacement, 2)
          else (replacement, 1)
        | [] => (replacement, 1)
      else (replacement, 0)
    | [] => (replacement, 0)
  else (replacement, 0)

/-- The characters of these bytes, chunk by chunk. -/
def repair : List UInt8 → List Char
  | [] => []
  | b :: rest => (chunk b rest).1 :: repair (rest.drop (chunk b rest).2)
termination_by bytes => bytes.length
decreasing_by
  rw [List.length_drop, List.length_cons]
  omega

/-- The text of these bytes, with replacement characters for what is not text. -/
def fromUtf8Lossy (bytes : List UInt8) : String :=
  (fromUtf8 bytes).getD (String.ofList (repair bytes))

theorem fromUtf8Lossy_asBytes (text : String) : fromUtf8Lossy (asBytes text) = text := by
  unfold fromUtf8Lossy
  rw [fromUtf8_asBytes]
  rfl

/-! ## What is shown as ASCII was ASCII -/

theorem toNat_replacement : replacement.toNat = 0xFFFD := by decide

theorem bounds_isContinuation {b : UInt8} (h : isContinuation b) :
    0x80 ≤ b.toNat ∧ b.toNat ≤ 0xBF := by
  unfold isContinuation at h
  simp only [Bool.and_eq_true, decide_eq_true_eq, UInt8.le_iff_toNat_le] at h
  exact h

theorem bounds_isSecond {first b : UInt8} (h : isSecond first b) :
    0x80 ≤ b.toNat ∧ b.toNat ≤ 0xBF ∧ (first.toNat = 0xE0 → 0xA0 ≤ b.toNat) ∧
      (first.toNat = 0xED → b.toNat ≤ 0x9F) ∧ (first.toNat = 0xF0 → 0x90 ≤ b.toNat) ∧
      (first.toNat = 0xF4 → b.toNat ≤ 0x8F) := by
  have hcont := @bounds_isContinuation b
  simp only [isSecond, ← UInt8.toNat_inj, UInt8.reduceToNat] at h
  split at h
  · simp only [Bool.and_eq_true, decide_eq_true_eq, UInt8.le_iff_toNat_le,
      UInt8.reduceToNat] at h
    omega
  split at h
  · simp only [Bool.and_eq_true, decide_eq_true_eq, UInt8.le_iff_toNat_le,
      UInt8.reduceToNat] at h
    omega
  split at h
  · simp only [Bool.and_eq_true, decide_eq_true_eq, UInt8.le_iff_toNat_le,
      UInt8.reduceToNat] at h
    omega
  split at h
  · simp only [Bool.and_eq_true, decide_eq_true_eq, UInt8.le_iff_toNat_le,
      UInt8.reduceToNat] at h
    omega
  · have hbounds := hcont h
    omega

theorem toNat_ofNat {n : Nat} (h : n.isValidChar) : (Char.ofNat n).toNat = n := by
  unfold Char.ofNat
  rw [dif_pos h]
  rfl

/-- A character that takes two bytes or more. -/
def Wide (c : Char) : Prop := 0x80 ≤ c.toNat

theorem wide_replacement : Wide replacement := by
  unfold Wide
  rw [toNat_replacement]
  decide

theorem wide_ofNat {n : Nat} (hwide : 0x80 ≤ n) (hvalid : n.isValidChar) :
    Wide (Char.ofNat n) := by
  unfold Wide
  rw [toNat_ofNat hvalid]
  exact hwide

theorem wide_two {b c : UInt8} (hb : 0xC2 ≤ b.toNat ∧ b.toNat ≤ 0xDF)
    (hc : 0x80 ≤ c.toNat ∧ c.toNat ≤ 0xBF) :
    Wide (Char.ofNat ((b.toNat - 0xC0) * 64 + bits c)) := by
  unfold bits
  apply wide_ofNat
  · omega
  · left
    omega

theorem wide_three {b c d : UInt8} (hb : 0xE0 ≤ b.toNat ∧ b.toNat ≤ 0xEF)
    (hc : 0x80 ≤ c.toNat ∧ c.toNat ≤ 0xBF) (hlow : b.toNat = 0xE0 → 0xA0 ≤ c.toNat)
    (hsurrogate : b.toNat = 0xED → c.toNat ≤ 0x9F) (hd : 0x80 ≤ d.toNat ∧ d.toNat ≤ 0xBF) :
    Wide (Char.ofNat ((b.toNat - 0xE0) * 4096 + bits c * 64 + bits d)) := by
  unfold bits
  apply wide_ofNat
  · omega
  · by_cases h : b.toNat ≤ 0xED
    · left
      omega
    · right
      omega

theorem wide_four {b c d e : UInt8} (hb : 0xF0 ≤ b.toNat ∧ b.toNat ≤ 0xF4)
    (hc : 0x80 ≤ c.toNat ∧ c.toNat ≤ 0xBF) (hlow : b.toNat = 0xF0 → 0x90 ≤ c.toNat)
    (hhigh : b.toNat = 0xF4 → c.toNat ≤ 0x8F) (hd : 0x80 ≤ d.toNat ∧ d.toNat ≤ 0xBF)
    (he : 0x80 ≤ e.toNat ∧ e.toNat ≤ 0xBF) :
    Wide (Char.ofNat ((b.toNat - 0xF0) * 262144 + bits c * 4096 + bits d * 64 + bits e)) := by
  unfold bits
  apply wide_ofNat
  · omega
  · right
    omega

theorem toNat_between {lo hi b : UInt8} (h : (lo ≤ b && b ≤ hi) = true) :
    lo.toNat ≤ b.toNat ∧ b.toNat ≤ hi.toNat := by
  simp only [Bool.and_eq_true, decide_eq_true_eq, UInt8.le_iff_toNat_le] at h
  exact h

/-- A chunk that does not begin with ASCII is not shown as ASCII. -/
theorem wide_chunk {b : UInt8} (rest : List UInt8) (h : ¬ b < 0x80) : Wide (chunk b rest).1 := by
  unfold chunk
  rw [if_neg h]
  split
  · rename_i hfirst
    have hb := toNat_between hfirst
    simp only [UInt8.reduceToNat] at hb
    split
    · split
      · rename_i hc
        dsimp only
        exact wide_two hb (bounds_isContinuation hc)
      · exact wide_replacement
    · exact wide_replacement
  split
  · rename_i hfirst
    have hb := toNat_between hfirst
    simp only [UInt8.reduceToNat] at hb
    split
    · split
      · rename_i hc
        obtain ⟨hmin, hmax, hlow, hsurrogate, _⟩ := bounds_isSecond hc
        split
        · split
          · rename_i hd
            dsimp only
            exact wide_three hb ⟨hmin, hmax⟩ hlow hsurrogate
              (bounds_isContinuation hd)
          · exact wide_replacement
        · exact wide_replacement
      · exact wide_replacement
    · exact wide_replacement
  split
  · rename_i hfirst
    have hb := toNat_between hfirst
    simp only [UInt8.reduceToNat] at hb
    split
    · split
      · rename_i hc
        obtain ⟨hmin, hmax, _, _, hlow, hhigh⟩ := bounds_isSecond hc
        split
        · split
          · rename_i hd
            split
            · split
              · rename_i he
                dsimp only
                exact wide_four hb ⟨hmin, hmax⟩ hlow hhigh
                  (bounds_isContinuation hd) (bounds_isContinuation he)
              · exact wide_replacement
            · exact wide_replacement
          · exact wide_replacement
        · exact wide_replacement
      · exact wide_replacement
    · exact wide_replacement
  · exact wide_replacement

/-- **A character shown as ASCII stands for the byte that it is.** -/
theorem repair_ascii {bytes : List UInt8} {c : Char} {cs : List Char} (hc : c.toNat < 0x80)
    (h : repair bytes = c :: cs) :
    ∃ rest, bytes = UInt8.ofNat c.toNat :: rest ∧ repair rest = cs := by
  cases bytes with
  | nil =>
    rw [repair] at h
    cases h
  | cons b rest =>
    rw [repair] at h
    obtain ⟨hhead, htail⟩ := List.cons.inj h
    by_cases hb : b < 0x80
    · have hchunk : chunk b rest = (Char.ofNat b.toNat, 0) := if_pos hb
      have hlt : b.toNat < 0x80 := by simpa [UInt8.lt_iff_toNat_lt] using hb
      have hvalid : b.toNat.isValidChar := Or.inl (by omega)
      rw [hchunk] at hhead htail
      refine ⟨rest, ?_, htail⟩
      rw [← hhead, toNat_ofNat hvalid, UInt8.ofNat_toNat]
    · have hwide := wide_chunk rest hb
      rw [hhead] at hwide
      exact absurd hc (Nat.not_lt.mpr hwide)

theorem repair_eq_ascii {bytes : List UInt8} {cs : List Char} (hcs : ∀ c ∈ cs, c.toNat < 0x80)
    (h : repair bytes = cs) : bytes = cs.map fun c => UInt8.ofNat c.toNat := by
  induction cs generalizing bytes with
  | nil =>
    cases bytes with
    | nil => rfl
    | cons b rest =>
      rw [repair] at h
      cases h
  | cons c cs ih =>
    obtain ⟨hc, hcs⟩ := List.forall_mem_cons.mp hcs
    obtain ⟨rest, rfl, hrest⟩ := repair_ascii hc h
    rw [List.map_cons, ← ih hcs hrest]

/-! ## The bytes of text that is shown as ASCII -/

theorem asBytes_cons (c : Char) (cs : List Char) :
    asBytes (String.ofList (c :: cs)) = String.utf8EncodeChar c ++ asBytes (String.ofList cs) := by
  unfold asBytes
  rw [String.toByteArray_ofList, String.toByteArray_ofList, List.utf8Encode_cons,
    List.utf8Encode_singleton, ByteArray.data_append, Array.toList_append,
    List.data_toByteArray, List.toList_toArray]

theorem high_or (x y : UInt8) (hy : 0x80 ≤ y.toNat) : ¬ (x ||| y) < 0x80 := by
  rw [UInt8.lt_iff_toNat_lt, UInt8.toNat_or]
  have hle : y.toNat ≤ x.toNat ||| y.toNat := Nat.right_le_or
  simp only [UInt8.reduceToNat]
  omega

/-- The first byte of a character is ASCII only if the character is. -/
theorem encodeChar_ascii {c : Char} {b : UInt8} {rest : List UInt8} (hb : b < 0x80)
    (h : String.utf8EncodeChar c = b :: rest) : c.toNat < 0x80 ∧ b = UInt8.ofNat c.toNat := by
  have hsize := c.utf8Size_pos
  have hle := c.utf8Size_le_four
  have hcases : c.utf8Size = 1 ∨ c.utf8Size = 2 ∨ c.utf8Size = 3 ∨ c.utf8Size = 4 := by omega
  rcases hcases with h₁ | h₂ | h₃ | h₄
  · rw [String.utf8EncodeChar_eq_singleton h₁] at h
    obtain ⟨rfl, -⟩ := List.cons.inj h
    have hval : c.toNat ≤ 0x7F := by
      have hval := Char.utf8Size_eq_one_iff.mp h₁
      rwa [UInt32.le_iff_toNat_le] at hval
    exact ⟨by omega, rfl⟩
  · rw [String.utf8EncodeChar_eq_cons_cons h₂] at h
    rw [← (List.cons.inj h).1] at hb
    exact absurd hb (high_or _ _ (by decide))
  · rw [String.utf8EncodeChar_eq_cons_cons_cons h₃] at h
    rw [← (List.cons.inj h).1] at hb
    exact absurd hb (high_or _ _ (by decide))
  · rw [String.utf8EncodeChar_eq_cons_cons_cons_cons h₄] at h
    rw [← (List.cons.inj h).1] at hb
    exact absurd hb (high_or _ _ (by decide))

/-- **An ASCII byte at the front of the repaired text was at the front of the bytes.** -/
theorem lossy_head {bytes rest : List UInt8} {b : UInt8} (hb : b < 0x80)
    (h : asBytes (fromUtf8Lossy bytes) = b :: rest) : bytes.head? = some b := by
  unfold fromUtf8Lossy at h
  cases htext : fromUtf8 bytes with
  | some text =>
    rw [htext, Option.getD_some, asBytes_of_fromUtf8 htext] at h
    rw [h]
    rfl
  | none =>
    rw [htext, Option.getD_none] at h
    cases hrepair : repair bytes with
    | nil =>
      rw [hrepair] at h
      cases h
    | cons c cs =>
      rw [hrepair, asBytes_cons] at h
      cases hchar : String.utf8EncodeChar c with
      | nil => exact absurd hchar String.utf8EncodeChar_ne_nil
      | cons first more =>
        rw [hchar] at h
        obtain rfl : first = b := (List.cons.inj h).1
        obtain ⟨hc, rfl⟩ := encodeChar_ascii hb hchar
        obtain ⟨tail, rfl, -⟩ := repair_ascii hc hrepair
        rfl

/-- **Bytes repaired to an ASCII text are its bytes.** -/
theorem lossy_eq_ascii {bytes : List UInt8} {text : String}
    (hascii : ∀ c ∈ text.toList, c.toNat < 0x80) (h : fromUtf8Lossy bytes = text) :
    bytes = asBytes text ∨ bytes = text.toList.map fun c => UInt8.ofNat c.toNat := by
  unfold fromUtf8Lossy at h
  cases hvalid : fromUtf8 bytes with
  | some found =>
    rw [hvalid, Option.getD_some] at h
    left
    rw [← h, asBytes_of_fromUtf8 hvalid]
  | none =>
    rw [hvalid, Option.getD_none] at h
    right
    apply repair_eq_ascii hascii
    rw [← h, String.toList_ofList]

end Utf8
