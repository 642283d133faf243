import Ytsaurus.Grammar.Levels
import Ytsaurus.Lib.ExceptList

/-!
# `Proof/Value.lean` — the value of a document

When `Doc.value` succeeds and with what. A map or an attributed value is what its entries
add up to in `MapParts`, so the first part says what a list of entries adds up to; the rest
follows the entries (`Doc.entries_induction`).

A key is that of an attribute, that of the body, or a plain one (`key_cases`), and entries of the
three kinds go to three different places. So whether a list of entries adds up to a value does not
depend on their order: it does unless it holds both `$value` and a plain key
(`MapParts.addAll_finish_ok_iff`). This holds for maps as for attribute blocks, where the entries
of the body stand behind those of the block.

With that, a document has a value exactly when it nests within the limit and no map in it offers
two bodies (`Doc.value_ok_iff`). The induction is on the entries rather than on the document,
since a map and an attributed map of the same entries are read by the same code; what is proved of
one is then proved of the other.
-/

set_option autoImplicit false

namespace Ytsaurus.Yson

/-! ## Evaluating entries -/

theorem itemsM_eq_mapM {ε ν : Type} (f : Doc → Except ε ν) (items : List (Nat × Doc)) :
    itemsM f items = items.mapM fun p => f p.2 := by
  induction items with
  | nil => rfl
  | cons p items ih =>
    rw [itemsM, List.mapM_cons, ih]
    rfl

theorem entriesM_eq_mapM {ε ν : Type} (f : Doc → Except ε ν) (E : List (List UInt8 × Doc)) :
    entriesM f E = E.mapM fun e => (f e.2).map fun v => (e.1, v) := by
  induction E with
  | nil => rfl
  | cons e E ih =>
    rw [entriesM, List.mapM_cons, ih]
    cases f e.2 <;> rfl

theorem itemsM_ok_iff {ε ν : Type} {f : Doc → Except ε ν} {items : List (Nat × Doc)} {vs : List ν} :
    itemsM f items = .ok vs ↔ List.Forall₂ (fun p v => f p.2 = .ok v) items vs := by
  rw [itemsM_eq_mapM, ExceptList.mapM_ok_iff]

theorem itemsM_error {ε ν : Type} {f : Doc → Except ε ν} {items : List (Nat × Doc)} {e : ε}
    (h : itemsM f items = .error e) : ∃ p ∈ items, f p.2 = .error e := by
  rw [itemsM_eq_mapM] at h
  exact ExceptList.mapM_error h

theorem itemsM_succeeds_iff {ε ν : Type} {f : Doc → Except ε ν} {items : List (Nat × Doc)} :
    (∃ vs, itemsM f items = .ok vs) ↔ ∀ p ∈ items, ∃ v, f p.2 = .ok v := by
  rw [itemsM_eq_mapM, ExceptList.mapM_succeeds_iff]

theorem entriesM_ok_iff {ε ν : Type} {f : Doc → Except ε ν} {E : List (List UInt8 × Doc)}
    {es : List (List UInt8 × ν)} :
    entriesM f E = .ok es ↔ List.Forall₂ (fun e r => f e.2 = .ok r.2 ∧ e.1 = r.1) E es := by
  rw [entriesM_eq_mapM, ExceptList.mapM_ok_iff]
  have hiff : ∀ (e : List UInt8 × Doc) (r : List UInt8 × ν),
      ((f e.2).map fun v => (e.1, v)) = .ok r ↔ f e.2 = .ok r.2 ∧ e.1 = r.1 := by
    rintro e ⟨k, v⟩
    cases f e.2 <;> simp [Except.map, and_comm]
  exact ⟨fun h => h.imp fun e r => (hiff e r).mp, fun h => h.imp fun e r => (hiff e r).mpr⟩

theorem entriesM_error {ε ν : Type} {f : Doc → Except ε ν} {E : List (List UInt8 × Doc)} {err : ε}
    (h : entriesM f E = .error err) : ∃ e ∈ E, f e.2 = .error err := by
  rw [entriesM_eq_mapM] at h
  obtain ⟨e, he, hf⟩ := ExceptList.mapM_error h
  cases hv : f e.2 with
  | error err' =>
    rw [hv] at hf
    cases hf
    exact ⟨e, he, hv⟩
  | ok v =>
    rw [hv] at hf
    cases hf

theorem entriesM_succeeds_iff {ε ν : Type} {f : Doc → Except ε ν} {E : List (List UInt8 × Doc)} :
    (∃ es, entriesM f E = .ok es) ↔ ∀ e ∈ E, ∃ v, f e.2 = .ok v := by
  rw [entriesM_eq_mapM, ExceptList.mapM_succeeds_iff]
  refine forall₂_congr fun e _ => ?_
  cases f e.2 <;> simp [Except.map]

/-! ## What entries add up to -/

/-- A key is that of an attribute, that of the body, or a plain one. -/
theorem key_cases (key : List UInt8) :
    (∃ name, key = 0x40 :: name) ∨ key = valueKey ∨ isPlainKey key := by
  by_cases hvalue : key = valueKey
  · exact .inr (.inl hvalue)
  by_cases hattr : ∃ name, key = 0x40 :: name
  · exact .inl hattr
  · exact .inr (.inr (isPlainKey_iff.mpr ⟨fun name h => hattr ⟨name, h⟩, hvalue⟩))

namespace YsonValue

theorem MapParts.add_attribute (parts : MapParts) (name : List UInt8) (v : YsonValue) :
    parts.add (0x40 :: name) v = { parts with
      isAttributed := true, attributes := SortedMap.insert name v parts.attributes } := rfl

theorem MapParts.add_value (parts : MapParts) (v : YsonValue) :
    parts.add valueKey v = { parts with
      isAttributed := true
      bodyNode := some v.node
      attributes := SortedMap.extend parts.attributes (v.attributes.getD []) } := by
  rw [add, if_pos rfl]
  exact fun name h => attributeKey_ne_value name h.symm

theorem MapParts.add_plain (parts : MapParts) {key : List UInt8} (h : isPlainKey key)
    (v : YsonValue) :
    parts.add key v = { parts with plainMap := SortedMap.insert key v parts.plainMap } := by
  obtain ⟨hattr, hvalue⟩ := isPlainKey_iff.mp h
  rw [add, if_neg hvalue]
  exact hattr

theorem MapParts.addAll_cons (parts : MapParts) (e : List UInt8 × YsonValue)
    (es : List (List UInt8 × YsonValue)) :
    parts.addAll (e :: es) = (parts.add e.1 e.2).addAll es := rfl

theorem MapParts.addAll_append (parts : MapParts) (es es' : List (List UInt8 × YsonValue)) :
    parts.addAll (es ++ es') = (parts.addAll es).addAll es' :=
  List.foldl_append

/-- A body was offered: some entry has the key `$value`. -/
theorem MapParts.addAll_bodyNode (es : List (List UInt8 × YsonValue)) (parts : MapParts) :
    (parts.addAll es).bodyNode ≠ none ↔ parts.bodyNode ≠ none ∨ ∃ e ∈ es, e.1 = valueKey := by
  induction es generalizing parts with
  | nil => simp [addAll]
  | cons e es ih =>
    obtain ⟨k, v⟩ := e
    rw [addAll_cons, ih]
    rcases key_cases k with ⟨name, rfl⟩ | rfl | hplain
    · simp [add_attribute, attributeKey_ne_value]
    · simp [add_value]
    · simp [add_plain _ hplain, (isPlainKey_iff.mp hplain).2]

/-- The map has entries: some entry has a plain key. -/
theorem MapParts.addAll_plainMap (es : List (List UInt8 × YsonValue)) (parts : MapParts) :
    (parts.addAll es).plainMap ≠ [] ↔ parts.plainMap ≠ [] ∨ ∃ e ∈ es, isPlainKey e.1 := by
  induction es generalizing parts with
  | nil => simp [addAll]
  | cons e es ih =>
    obtain ⟨k, v⟩ := e
    rw [addAll_cons, ih]
    rcases key_cases k with ⟨name, rfl⟩ | rfl | hplain
    · simp [add_attribute, isPlainKey]
    · simp [add_value, valueKey_not_plain]
    · simp [add_plain _ hplain, hplain, SortedMap.insert_ne_nil]

theorem MapParts.addAll_isAttributed (es : List (List UInt8 × YsonValue)) (parts : MapParts)
    (h : parts.bodyNode ≠ none → parts.isAttributed = true) :
    (parts.addAll es).bodyNode ≠ none → (parts.addAll es).isAttributed = true := by
  induction es generalizing parts with
  | nil => exact h
  | cons e es ih =>
    obtain ⟨k, v⟩ := e
    rw [addAll_cons]
    apply ih
    rcases key_cases k with ⟨name, rfl⟩ | rfl | hplain
    · simp [add_attribute]
    · simp [add_value]
    · simpa [add_plain _ hplain] using h

theorem MapParts.finish_ok_iff {parts : MapParts}
    (h : parts.bodyNode ≠ none → parts.isAttributed = true) :
    (∃ v, parts.finish = .ok v) ↔ ¬ (parts.bodyNode ≠ none ∧ parts.plainMap ≠ []) := by
  obtain ⟨attributes, plainMap, bodyNode, isAttributed⟩ := parts
  cases isAttributed <;> cases plainMap <;> cases bodyNode <;> simp_all [finish]

/-- Entries add up to a value unless they hold both `$value` and a plain key. -/
theorem MapParts.addAll_finish_ok_iff {E : List (List UInt8 × Doc)}
    {es : List (List UInt8 × YsonValue)} (hkeys : es.map Prod.fst = E.map Prod.fst) :
    (∃ v, (MapParts.addAll .new es).finish = .ok v) ↔ OneBodyKeys E := by
  have hmem : ∀ p : List UInt8 → Prop, (∃ e ∈ es, p e.1) ↔ ∃ e ∈ E, p e.1 := fun p => by
    have h₁ : (∃ k ∈ es.map Prod.fst, p k) ↔ ∃ e ∈ es, p e.1 := by simp
    have h₂ : (∃ k ∈ E.map Prod.fst, p k) ↔ ∃ e ∈ E, p e.1 := by simp
    rw [← h₁, ← h₂, hkeys]
  rw [finish_ok_iff (addAll_isAttributed es .new (by simp [MapParts.new])), addAll_bodyNode,
    addAll_plainMap, hmem (· = valueKey), hmem (isPlainKey · = true)]
  simp [OneBodyKeys, MapParts.new]

end YsonValue

/-! ## When a document has a value -/

theorem entriesM_keys {f : Doc → Except YsonError YsonValue} {E : List (List UInt8 × Doc)}
    {es : List (List UInt8 × YsonValue)} (h : entriesM f E = .ok es) :
    es.map Prod.fst = E.map Prod.fst := by
  have hpairs := entriesM_ok_iff.mp h
  clear h
  induction hpairs with
  | nil => rfl
  | cons hab _ ih => rw [List.map_cons, List.map_cons, ih, hab.2]

/-- Entries that nest within the limit add up to a value if they offer one body. -/
theorem entriesValue_ok_iff {limit depth : Nat} {E : List (List UInt8 × Doc)}
    (ih : ∀ e ∈ E, (∃ v, e.2.value limit (depth + 1) = .ok v) ↔
      e.2.Fits limit (depth + 1) ∧ e.2.OneBody) :
    (∃ v, ((entriesM (Doc.value limit (depth + 1)) E).bind fun es =>
        (YsonValue.MapParts.addAll .new es).finish) = .ok v) ↔
      (∀ e ∈ E, e.2.Fits limit (depth + 1)) ∧ OneBodyKeys E ∧ ∀ e ∈ E, e.2.OneBody := by
  have hall : (∃ es, entriesM (Doc.value limit (depth + 1)) E = .ok es) ↔
      (∀ e ∈ E, e.2.Fits limit (depth + 1)) ∧ ∀ e ∈ E, e.2.OneBody := by
    rw [entriesM_succeeds_iff, forall₂_congr ih]
    simp only [forall_and]
  cases hes : entriesM (Doc.value limit (depth + 1)) E with
  | error e =>
    rw [hes] at hall
    have hno : ¬ ((∀ e ∈ E, e.2.Fits limit (depth + 1)) ∧ ∀ e ∈ E, e.2.OneBody) := by
      rw [← hall]
      simp
    simp only [Except.bind, reduceCtorEq, exists_false, false_iff]
    exact fun ⟨hfit, _, hone⟩ => hno ⟨hfit, hone⟩
  | ok es =>
    rw [hes] at hall
    have hyes := hall.mp ⟨es, rfl⟩
    simp only [Except.bind]
    rw [YsonValue.MapParts.addAll_finish_ok_iff (entriesM_keys hes)]
    exact ⟨fun h => ⟨hyes.1, h, hyes.2⟩, fun h => h.2.1⟩

/-- **A document has a value exactly when it nests within the limit and no map in it carries
`$value` beside a plain key.** -/
theorem Doc.value_ok_iff {limit : Nat} (d : Doc) : ∀ {depth : Nat}, depth ≤ limit →
    ((∃ v, d.value limit depth = .ok v) ↔ d.Fits limit depth ∧ d.OneBody) := by
  induction d using Doc.entries_induction with
  | scalar s => exact fun h => ⟨fun _ => ⟨h, trivial⟩, fun _ => ⟨_, by rw [value]⟩⟩
  | entity => exact fun h => ⟨fun _ => ⟨h, trivial⟩, fun _ => ⟨_, by rw [value]⟩⟩
  | list items trail ih =>
    intro depth h
    by_cases hlimit : depth + 1 ≤ limit
    · have hsucc : (∃ v, (Doc.list items trail).value limit depth = .ok v) ↔
          ∃ vs, itemsM (Doc.value limit (depth + 1)) items = .ok vs := by
        rw [value_list hlimit]
        cases itemsM (Doc.value limit (depth + 1)) items <;> simp [Except.map]
      rw [hsucc, itemsM_succeeds_iff, fits_list, OneBody, itemsOneBody_iff,
        forall₂_congr fun p hp => ih p hp hlimit]
      simp only [forall_and, hlimit, true_and]
    · rw [value_deep (by omega) (by simp), fits_list]
      simp [hlimit]
  | map pairs trail ih =>
    intro depth h
    by_cases hlimit : depth + 1 ≤ limit
    · rw [value_map hlimit, entriesValue_ok_iff fun e he => ih e he hlimit, fits_map, oneBody_map]
      simp only [hlimit, true_and]
    · rw [value_deep (by omega) (by simp), fits_map]
      simp [hlimit]
  | attributed pairs trail body ih =>
    intro depth h
    by_cases hlimit : depth + 1 ≤ limit
    · rw [value_attributed hlimit, entriesValue_ok_iff fun e he => ih e he hlimit,
        fits_attributed, oneBody_attributed]
      simp only [hlimit, true_and]
    · rw [value_deep (by omega) (by simp), fits_attributed]
      simp [hlimit]

theorem entriesValue_error {limit depth : Nat} {E : List (List UInt8 × Doc)} {err : YsonError}
    (hkeys : OneBodyKeys E)
    (ih : ∀ e ∈ E, e.2.value limit (depth + 1) = .error err → err = .custom .recursionLimit)
    (h : ((entriesM (Doc.value limit (depth + 1)) E).bind fun es =>
      (YsonValue.MapParts.addAll .new es).finish) = .error err) :
    err = .custom .recursionLimit := by
  cases hes : entriesM (Doc.value limit (depth + 1)) E with
  | error e =>
    rw [hes] at h
    cases h
    obtain ⟨e, he, herr⟩ := entriesM_error hes
    exact ih e he herr
  | ok es =>
    rw [hes] at h
    obtain ⟨v, hv⟩ := (YsonValue.MapParts.addAll_finish_ok_iff (entriesM_keys hes)).mpr hkeys
    rw [Except.bind, hv] at h
    cases h

/-- Nesting is all that can be wrong with a document whose maps have one body each. -/
theorem Doc.value_error {limit : Nat} {err : YsonError} (d : Doc) : ∀ {depth : Nat}, d.OneBody →
    d.value limit depth = .error err → err = .custom .recursionLimit := by
  induction d using Doc.entries_induction with
  | scalar s => exact fun _ h => by rw [value] at h; cases h
  | entity => exact fun _ h => by rw [value] at h; cases h
  | list items trail ih =>
    intro depth hone h
    by_cases hlimit : depth + 1 ≤ limit
    · rw [value_list hlimit] at h
      obtain ⟨p, hp, herr⟩ := itemsM_error (ExceptList.map_eq_error.mp h)
      exact ih p hp (itemsOneBody_iff.mp hone p hp) herr
    · rw [value_deep (by omega) (by simp)] at h
      cases h
      rfl
  | map pairs trail ih =>
    intro depth hone h
    obtain ⟨hkeys, hbodies⟩ := oneBody_map.mp hone
    by_cases hlimit : depth + 1 ≤ limit
    · rw [value_map hlimit] at h
      exact entriesValue_error hkeys (fun e he => ih e he (hbodies e he)) h
    · rw [value_deep (by omega) (by simp)] at h
      cases h
      rfl
  | attributed pairs trail body ih =>
    intro depth hone h
    obtain ⟨hkeys, hbodies⟩ := oneBody_attributed.mp hone
    by_cases hlimit : depth + 1 ≤ limit
    · rw [value_attributed hlimit] at h
      exact entriesValue_error hkeys (fun e he => ih e he (hbodies e he)) h
    · rw [value_deep (by omega) (by simp)] at h
      cases h
      rfl

end Ytsaurus.Yson
