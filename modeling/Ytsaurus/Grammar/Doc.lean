import Ytsaurus.Yson.Value

/-!
# `Grammar/Doc.lean` — documents

A document is a syntax tree of YSON as loosely as any of the crate's parsers reads it: the
number of `;` in front of each item and before a closing bracket is kept, and attribute
blocks may be stacked. `Doc.toks` is the tokens it is written with; what the decoder makes
of it is `Doc.value`. The parsers are compared with each other, and with the stricter
documented grammar, on documents.
-/

set_option autoImplicit false

namespace Ytsaurus.Yson

inductive Scalar where
  | string (bytes : List UInt8)
  | int64 (v : Int64)
  | uint64 (v : UInt64)
  | double (v : F64)
  | boolean (v : Bool)
  deriving DecidableEq, Repr

def Scalar.token : Scalar → Token
  | .string s => .string s
  | .int64 v => .int64 v
  | .uint64 v => .uint64 v
  | .double v => .double v
  | .boolean v => .boolean v

def Scalar.node : Scalar → YsonNode
  | .string s => .string s
  | .int64 v => .int64 v
  | .uint64 v => .uint64 v
  | .double v => .double v
  | .boolean v => .boolean v

/-- Each item and pair carries the number of `;` before it; `trail` is the number before the
closing bracket. -/
inductive Doc where
  | scalar (s : Scalar)
  | entity
  | list (items : List (Nat × Doc)) (trail : Nat)
  | map (pairs : List (Nat × List UInt8 × Doc)) (trail : Nat)
  | attributed (pairs : List (Nat × List UInt8 × Doc)) (trail : Nat) (body : Doc)

def Doc.isAttributed : Doc → Bool
  | .attributed _ _ _ => true
  | _ => false

/-- A run of separators. -/
def seps (n : Nat) : List Token := List.replicate n .itemSeparator

mutual

def Doc.toks : Doc → List Token
  | .scalar s => [s.token]
  | .entity => [.entity]
  | .list items trail => .beginList :: (itemsToks items ++ (seps trail ++ [.endList]))
  | .map pairs trail => .beginMap :: (pairsToks pairs ++ (seps trail ++ [.endMap]))
  | .attributed pairs trail body =>
    .beginAttributes :: (pairsToks pairs ++ (seps trail ++ (.endAttributes :: body.toks)))

def itemsToks : List (Nat × Doc) → List Token
  | [] => []
  | (n, d) :: items => seps n ++ (d.toks ++ itemsToks items)

def pairsToks : List (Nat × List UInt8 × Doc) → List Token
  | [] => []
  | (n, k, d) :: pairs =>
    seps n ++ (.string k :: .keyValueSeparator :: (d.toks ++ pairsToks pairs))

end

/-- `[;#]` -/
example : (Doc.list [(1, .entity)] 0).toks = [.beginList, .itemSeparator, .entity, .endList] := by
  simp [Doc.toks, itemsToks, seps]

/-- The entries a map fragment offers. -/
def mapEntries (pairs : List (Nat × List UInt8 × Doc)) : List (List UInt8 × Doc) :=
  pairs.map fun p => (p.2.1, p.2.2)

/-- The entries an attribute block offers: the keys carry an `@`. -/
def attributeEntries (pairs : List (Nat × List UInt8 × Doc)) : List (List UInt8 × Doc) :=
  pairs.map fun p => (0x40 :: p.2.1, p.2.2)

/-- The entries the body behind an attribute block offers. -/
def bodyEntries : Doc → List (List UInt8 × Doc)
  | .map pairs _ => mapEntries pairs
  | .entity => []
  | d => [(valueKey, d)]

/-- Evaluate the values of a list of entries, in order. -/
def entriesM {ε ν : Type} (f : Doc → Except ε ν) :
    List (List UInt8 × Doc) → Except ε (List (List UInt8 × ν))
  | [] => .ok []
  | (k, d) :: es => do
    let v ← f d
    let vs ← entriesM f es
    .ok ((k, v) :: vs)

def itemsM {ε ν : Type} (f : Doc → Except ε ν) : List (Nat × Doc) → Except ε (List ν)
  | [] => .ok []
  | (_, d) :: items => do
    let v ← f d
    let vs ← itemsM f items
    .ok (v :: vs)

def YsonValue.MapParts.addAll (parts : YsonValue.MapParts)
    (entries : List (List UInt8 × YsonValue)) : YsonValue.MapParts :=
  entries.foldl (fun parts e => parts.add e.1 e.2) parts

mutual

/-- What the decoder makes of a document at nesting depth `depth`. -/
def Doc.value (limit : Nat) : Nat → Doc → Except YsonError YsonValue
  | _, .scalar s => .ok (.bare s.node)
  | _, .entity => .ok (.bare .entity)
  | depth, .list items _ =>
    if depth + 1 > limit then .error (.custom .recursionLimit)
    else (itemsValue limit (depth + 1) items).map fun vs => .bare (.list vs)
  | depth, .map pairs _ =>
    if depth + 1 > limit then .error (.custom .recursionLimit)
    else (pairsValue limit (depth + 1) pairs).bind fun es =>
      (YsonValue.MapParts.addAll .new es).finish
  | depth, .attributed pairs _ body =>
    if depth + 1 > limit then .error (.custom .recursionLimit)
    else (pairsValue limit (depth + 1) pairs).bind fun es =>
      let bodyValue := Doc.value limit (depth + 1) body
      let bodyEntries := match body with
        | .map pairs' _ => pairsValue limit (depth + 1) pairs'
        | .entity => .ok []
        | _ => bodyValue.map fun v => [(valueKey, v)]
      bodyEntries.bind fun es' =>
        (YsonValue.MapParts.addAll .new (es.map (fun e => (0x40 :: e.1, e.2)) ++ es')).finish

def itemsValue (limit : Nat) : Nat → List (Nat × Doc) → Except YsonError (List YsonValue)
  | _, [] => .ok []
  | depth, (_, d) :: items => do
    let v ← Doc.value limit depth d
    let vs ← itemsValue limit depth items
    .ok (v :: vs)

def pairsValue (limit : Nat) :
    Nat → List (Nat × List UInt8 × Doc) → Except YsonError (List (List UInt8 × YsonValue))
  | _, [] => .ok []
  | depth, (_, k, d) :: pairs => do
    let v ← Doc.value limit depth d
    let vs ← pairsValue limit depth pairs
    .ok ((k, v) :: vs)

end

/-- A list opens a level, what it holds does not. -/
example : Doc.value 1 0 (.list [(0, .entity)] 0) = .ok (.bare (.list [.bare .entity])) := by
  rw [Doc.value, itemsValue, Doc.value]
  rfl

mutual

/-- Between the entries of a list or a map, and before its closing bracket, at most one `;`
stands; the map that is the body of an attributed value (`plain` is false there) is exempt. -/
def Doc.Separated : Bool → Doc → Prop
  | _, .scalar _ => True
  | _, .entity => True
  | _, .list items trail => trail ≤ 1 ∧ itemsSeparated items
  | plain, .map pairs trail =>
    (plain = true → trail ≤ 1 ∧ ∀ p ∈ pairs, p.1 ≤ 1) ∧ pairsSeparated pairs
  | _, .attributed pairs _ body => pairsSeparated pairs ∧ Doc.Separated false body

def itemsSeparated : List (Nat × Doc) → Prop
  | [] => True
  | (n, d) :: items => n ≤ 1 ∧ Doc.Separated true d ∧ itemsSeparated items

/-- The values of the pairs are fine; the separators between them are not looked at. -/
def pairsSeparated : List (Nat × List UInt8 × Doc) → Prop
  | [] => True
  | (_, _, d) :: pairs => Doc.Separated true d ∧ pairsSeparated pairs

end

/-- No two `;` in a row where the decoder does not allow them. -/
abbrev Doc.SingleSep (d : Doc) : Prop := d.Separated true

/-! ## The parts of a document -/

theorem itemsValue_eq (limit depth : Nat) (items : List (Nat × Doc)) :
    itemsValue limit depth items = itemsM (Doc.value limit depth) items := by
  induction items with
  | nil => rfl
  | cons p items ih => rw [itemsValue, itemsM, ih]

theorem pairsValue_eq (limit depth : Nat) (pairs : List (Nat × List UInt8 × Doc)) :
    pairsValue limit depth pairs = entriesM (Doc.value limit depth) (mapEntries pairs) := by
  induction pairs with
  | nil => rfl
  | cons p pairs ih =>
    rw [pairsValue, ih]
    rfl

theorem entriesM_append {ε ν : Type} (f : Doc → Except ε ν) (E E' : List (List UInt8 × Doc)) :
    entriesM f (E ++ E')
      = (entriesM f E).bind fun es => (entriesM f E').map fun es' => es ++ es' := by
  induction E with
  | nil => cases h : entriesM f E' <;> simp [entriesM, h, Except.bind, Except.map]
  | cons e E ih =>
    simp only [List.cons_append, entriesM, ih, bind]
    cases f e.2 with
    | error _ => rfl
    | ok v =>
      cases entriesM f E with
      | error _ => rfl
      | ok vs => cases entriesM f E' <;> rfl

theorem entriesM_attributeEntries {ε ν : Type} (f : Doc → Except ε ν)
    (pairs : List (Nat × List UInt8 × Doc)) :
    entriesM f (attributeEntries pairs)
      = (entriesM f (mapEntries pairs)).map fun es => es.map fun e => (0x40 :: e.1, e.2) := by
  induction pairs with
  | nil => rfl
  | cons p pairs ih =>
    simp only [attributeEntries, mapEntries, List.map_cons, entriesM, bind] at ih ⊢
    rw [ih]
    cases f p.2.2 with
    | error _ => rfl
    | ok v => cases entriesM f (pairs.map fun p => (p.2.1, p.2.2)) <;> rfl

/-- A map or an attributed value is what its entries add up to. -/
theorem Doc.value_map {limit depth : Nat} (h : depth + 1 ≤ limit)
    (pairs : List (Nat × List UInt8 × Doc)) (trail : Nat) :
    Doc.value limit depth (.map pairs trail)
      = (entriesM (Doc.value limit (depth + 1)) (mapEntries pairs)).bind fun es =>
          (YsonValue.MapParts.addAll .new es).finish := by
  rw [Doc.value, if_neg (by omega), pairsValue_eq]

theorem Doc.value_attributed {limit depth : Nat} (h : depth + 1 ≤ limit)
    (pairs : List (Nat × List UInt8 × Doc)) (trail : Nat) (body : Doc) :
    Doc.value limit depth (.attributed pairs trail body)
      = (entriesM (Doc.value limit (depth + 1)) (attributeEntries pairs ++ bodyEntries body)).bind
          fun es => (YsonValue.MapParts.addAll .new es).finish := by
  have hbody : (match body with
      | .map pairs' _ => pairsValue limit (depth + 1) pairs'
      | .entity => .ok []
      | _ => (Doc.value limit (depth + 1) body).map fun v => [(valueKey, v)])
      = entriesM (Doc.value limit (depth + 1)) (bodyEntries body) := by
    cases body with
    | map pairs' trail' => exact pairsValue_eq _ _ _
    | entity => rfl
    | scalar s => rfl
    | list items trail' =>
      simp only [bodyEntries, entriesM, bind]
      cases Doc.value limit (depth + 1) (.list items trail') <;> rfl
    | attributed pairs' trail' body' =>
      simp only [bodyEntries, entriesM, bind]
      cases Doc.value limit (depth + 1) (.attributed pairs' trail' body') <;> rfl
  rw [Doc.value, if_neg (by omega), pairsValue_eq, entriesM_append, entriesM_attributeEntries]
  simp only
  rw [hbody]
  cases entriesM (Doc.value limit (depth + 1)) (mapEntries pairs) with
  | error _ => rfl
  | ok es =>
    cases entriesM (Doc.value limit (depth + 1)) (bodyEntries body) <;> rfl

theorem Doc.value_list {limit depth : Nat} (h : depth + 1 ≤ limit) (items : List (Nat × Doc))
    (trail : Nat) :
    Doc.value limit depth (.list items trail)
      = (itemsM (Doc.value limit (depth + 1)) items).map fun vs => .bare (.list vs) := by
  rw [Doc.value, if_neg (by omega), itemsValue_eq]

theorem Doc.value_deep {limit depth : Nat} (h : limit < depth + 1) {d : Doc}
    (hd : (∀ s, d ≠ .scalar s) ∧ d ≠ .entity) :
    Doc.value limit depth d = .error (.custom .recursionLimit) := by
  cases d with
  | scalar s => exact absurd rfl (hd.1 s)
  | entity => exact absurd rfl hd.2
  | list items trail => rw [Doc.value, if_pos h]
  | map pairs trail => rw [Doc.value, if_pos h]
  | attributed pairs trail body => rw [Doc.value, if_pos h]

theorem mem_itemsSeparated {items : List (Nat × Doc)} (h : itemsSeparated items) :
    ∀ p ∈ items, p.1 ≤ 1 ∧ p.2.SingleSep := by
  induction items with
  | nil => simp
  | cons q items ih =>
    obtain ⟨n, d⟩ := q
    obtain ⟨hn, hd, hrest⟩ := h
    intro p hp
    rcases List.mem_cons.mp hp with rfl | hp
    · exact ⟨hn, hd⟩
    · exact ih hrest p hp

theorem pairsSeparated_iff {pairs : List (Nat × List UInt8 × Doc)} :
    pairsSeparated pairs ↔ ∀ e ∈ mapEntries pairs, e.2.SingleSep := by
  induction pairs with
  | nil => simp [mapEntries, pairsSeparated]
  | cons p pairs ih =>
    obtain ⟨n, k, d⟩ := p
    simp only [mapEntries, List.map_cons, List.mem_cons, forall_eq_or_imp, pairsSeparated] at ih ⊢
    rw [ih]

/-- As a body: the values a document offers are fine. -/
theorem separated_body {body : Doc} :
    body.Separated false ↔ ∀ e ∈ bodyEntries body, e.2.SingleSep := by
  cases body with
  | map pairs trail => simpa [Doc.Separated, bodyEntries] using pairsSeparated_iff
  | _ => simp [bodyEntries, Doc.Separated]

theorem Doc.SingleSep.body {d : Doc} (h : d.SingleSep) : d.Separated false := by
  cases d with
  | map pairs trail => exact ⟨fun h => absurd h (by decide), h.2⟩
  | scalar | entity => trivial
  | list | attributed => exact h

/-- The entries an attributed document offers are fine when it is. -/
theorem separated_attributed {pairs : List (Nat × List UInt8 × Doc)} {trail : Nat} {body : Doc}
    (h : (Doc.attributed pairs trail body).SingleSep) :
    ∀ e ∈ attributeEntries pairs ++ bodyEntries body, e.2.SingleSep := by
  obtain ⟨hpairs, hbody⟩ := h
  intro e he
  rcases List.mem_append.mp he with he | he
  · obtain ⟨p, hp, rfl⟩ := List.mem_map.mp he
    exact pairsSeparated_iff.mp hpairs (p.2.1, p.2.2) (List.mem_map.mpr ⟨p, hp, rfl⟩)
  · exact separated_body.mp hbody e he

/-! ## Nesting is bounded by the number of tokens -/

theorem mem_items_length {items : List (Nat × Doc)} {p : Nat × Doc} (h : p ∈ items) :
    p.2.toks.length ≤ (itemsToks items).length := by
  induction items with
  | nil => cases h
  | cons q items ih =>
    obtain ⟨n, d⟩ := q
    simp only [itemsToks, List.length_append]
    rcases List.mem_cons.mp h with rfl | h
    · simp only
      omega
    · have := ih h
      omega

theorem mem_pairs_length {pairs : List (Nat × List UInt8 × Doc)} {p : Nat × List UInt8 × Doc}
    (h : p ∈ pairs) : p.2.2.toks.length ≤ (pairsToks pairs).length := by
  induction pairs with
  | nil => cases h
  | cons q pairs ih =>
    obtain ⟨n, k, d⟩ := q
    simp only [pairsToks, List.length_append, List.length_cons]
    rcases List.mem_cons.mp h with rfl | h
    · simp only
      omega
    · have := ih h
      omega

theorem mem_mapEntries_length {pairs : List (Nat × List UInt8 × Doc)} {trail : Nat}
    {e : List UInt8 × Doc} (h : e ∈ mapEntries pairs) :
    e.2.toks.length < (Doc.map pairs trail).toks.length := by
  obtain ⟨p, hp, rfl⟩ := List.mem_map.mp h
  have := mem_pairs_length hp
  simp only [Doc.toks, List.length_cons, List.length_append]
  omega

theorem mem_attributed_length {pairs : List (Nat × List UInt8 × Doc)} {trail : Nat} {body : Doc}
    {e : List UInt8 × Doc} (h : e ∈ attributeEntries pairs ++ bodyEntries body) :
    e.2.toks.length < (Doc.attributed pairs trail body).toks.length := by
  simp only [Doc.toks, List.length_cons, List.length_append]
  rcases List.mem_append.mp h with h | h
  · obtain ⟨p, hp, rfl⟩ := List.mem_map.mp h
    have := mem_pairs_length hp
    simp only
    omega
  · have hbody : e.2.toks.length ≤ body.toks.length := by
      cases body with
      | map pairs' trail' => exact Nat.le_of_lt (mem_mapEntries_length h)
      | entity => cases h
      | scalar s => exact Nat.le_of_eq (by rw [List.mem_singleton.mp h])
      | list items trail' => exact Nat.le_of_eq (by rw [List.mem_singleton.mp h])
      | attributed pairs' trail' body' => exact Nat.le_of_eq (by rw [List.mem_singleton.mp h])
    omega

end Ytsaurus.Yson
