import Ytsaurus.Proof.Entries

/-!
# `Proof/Separators.lean` — a `;` where a value should stand

The access objects step over one `;`. Where two stand in a row, the second is what the next seed
finds, and every type refuses it: the tokens it could begin with do not include it. So a document
with such a pair in it is not read, and nothing has to be said of where its readers stop.

Two kinds of types look at something else first. A struct that asks for attributes offers what is
neither a map nor a block to the field `$value`, which then refuses. `WithAttributes` reads its
attributes before its value; at a `;` there are none, and the attributes may well be content with
that, but they leave the `;` where it is (`Stays`), and the value refuses it.
-/

set_option autoImplicit false

namespace Ytsaurus.Yson.De

open StateExcept (Ensures)

variable {α : Type} [FloatText] {limit depth : Nat} {de : Deserializer} {it' : YsonIterator}

/-! ## Seeds that refuse -/

theorem Refuses.option {visitSome : De α} (h : Refuses visitSome) :
    Refuses (deserializeOption visitSome) := by
  intro limit depth de it' ts hready hlex
  refine .bind_ok (takeReadingAttributes_plain hready.plain) ?_
  rw [if_neg Bool.false_ne_true]
  refine .bind_ok (skipAttributes_plain de (by simp) hlex) ?_
  have hready₁ : Ready limit depth (de.withLexer de.lexer.skipIgnored) := hready.withLexer _
  have hlex₁ : Lexes (de.withLexer de.lexer.skipIgnored).lexer (.itemSeparator :: ts) it' :=
    hlex.skipIgnored
  obtain ⟨b, hpeek, hlead⟩ := peekByte_of_lexes _ hlex₁
  have hb : b ≠ 0x23 := fun hb => by cases (hlead.eq_iff (u := .entity) rfl).mp hb
  refine .bind_ok hpeek ?_
  rw [StateExcept.ite_apply, if_neg hb]
  exact h.bind _ (hready₁.withLexer _) hlex₁.skipIgnored

theorem Refuses.enum (variants : List (List UInt8 × VariantDe)) :
    Refuses (deserializeEnum (visitEnum variants)) := by
  intro limit depth de it' ts hready hlex
  have hready₁ : Ready limit depth (de.withLexer de.lexer.skipIgnored) := hready.withLexer _
  have hlex₁ : Lexes (de.withLexer de.lexer.skipIgnored).lexer (.itemSeparator :: ts) it' :=
    hlex.skipIgnored
  obtain ⟨b, hpeek, hlead⟩ := peekByte_of_lexes _ hlex₁
  have hb : b ≠ 0x7B := fun hb => by cases (hlead.eq_iff (u := .beginMap) rfl).mp hb
  rw [deserializeEnum, StateExcept.get_bind, StateExcept.ite_apply,
    if_pos (by rw [hready.plain]; rfl)]
  refine .bind_ok (skipAttributes_plain de (by simp) hlex) ?_
  refine .bind_ok hpeek ?_
  rw [StateExcept.ite_apply, if_neg hb]
  exact visitEnum_stops (hready₁.withLexer _) rfl hlex₁.skipIgnored _

/-! ## Attribute position -/

/-- In attribute position the seed does not move past a `;`. -/
def Stays (seed : De α) : Prop :=
  ∀ {limit depth : Nat} {de : Deserializer} {it' : YsonIterator} {ts : List Token},
    Flagged limit depth de → Lexes de.lexer (.itemSeparator :: ts) it' →
    Ensures (seed de) fun _ de' =>
      (de'.depth = depth ∧ de'.maxDepth = limit) ∧ Lexes de'.lexer (.itemSeparator :: ts) it'

/-- A pure step at the end. -/
theorem Stays.map {β : Type} {seed : De α} (h : Stays seed) (f : α → β) :
    Stays (seed >>= fun v => pure (f v)) := fun hflag hlex =>
  (h hflag hlex).bind fun _ _ hend => .ok hend

theorem Stays.skipping {visitor : Visitor α} (hvisit : MapCovers visitor []) :
    Stays (deserializeSkipping visitor) := by
  intro limit depth de it' ts hflag hlex
  obtain ⟨htake, hready⟩ := hflag.take
  have hlex₁ : Lexes (unflagged de).lexer (.itemSeparator :: ts) it' := hlex
  obtain ⟨b, hpeek, hlead⟩ := peekByte_of_lexes _ hlex₁
  have hb : b ≠ 0x3C := fun hb => by cases (hlead.eq_iff (u := .beginAttributes) rfl).mp hb
  rw [deserializeSkipping, StateExcept.get_bind, StateExcept.ite_apply,
    if_neg (by simp [hflag.flag])]
  refine .bind_ok htake ?_
  rw [if_pos rfl, deserializeAttributes]
  refine .bind_ok hpeek ?_
  rw [StateExcept.ite_apply, if_pos hb]
  have hstop : Stops de.lexer.skipIgnored := hlex.skipIgnored.stops ⟨_, _, rfl, by simp⟩
  have hmap : Bracketed .empty := trivial
  refine (hvisit (hready.withLexer _) hmap (.presents (.empty _)) hstop).bind ?_
  rintro ⟨v, access⟩ de₁ ⟨⟨hready₁, hlexer⟩, _⟩
  refine .ok ⟨⟨hready₁.depth, hready₁.limit⟩, ?_⟩
  rw [hlexer]
  exact hlex.skipIgnored

theorem Stays.option (visitSome : De α) : Stays (deserializeOption visitSome) := by
  intro limit depth de it' ts hflag hlex
  obtain ⟨htake, hready⟩ := hflag.take
  have hlex₁ : Lexes (unflagged de).lexer (.itemSeparator :: ts) it' := hlex
  obtain ⟨b, hpeek, hlead⟩ := peekByte_of_lexes _ hlex₁
  have hb : b ≠ 0x3C := fun hb => by cases (hlead.eq_iff (u := .beginAttributes) rfl).mp hb
  refine .bind_ok htake ?_
  rw [if_pos rfl]
  refine .bind_ok hpeek ?_
  rw [StateExcept.ite_apply, if_neg hb]
  exact .ok ⟨⟨hready.depth, hready.limit⟩, hlex.skipIgnored⟩

theorem ignored_stays : Stays ignored := by
  intro limit depth de it' ts hflag hlex
  have hany : ∀ fuel, Stays (ignoredAny fuel) := by
    intro fuel
    cases fuel with
    | zero => exact fun _ _ => .error _
    | succ fuel =>
      have hnone : MapCovers (ignoredVisitor (ignoredAny fuel)) [] :=
        ignoredVisitor_map (ignoredAny_refuses fuel) (fun _ he => absurd he List.not_mem_nil)
          fun _ he => absurd he List.not_mem_nil
      show Stays (deserializeSkipping _)
      exact Stays.skipping hnone
  refine .bind_ok (budget_apply de) ?_
  exact hany _ hflag hlex

/-! ## Flat structs and `WithAttributes` -/

/-- The one entry of a value that is neither a map nor has attributes goes to some field, or is
ignored. -/
theorem fieldEntries_valueOnly {fields : List FieldDe} {P : Deserializer → Prop}
    (hignored : Ensures (ignored de) fun _ => P)
    (hfields : ∀ field ∈ fields, Ensures (field.value de) fun _ => P) (fuel : Nat)
    (slots : List (Option Datum)) :
    Ensures (fieldEntries fields fuel slots (.flatStruct .valueOnly false) de) fun _ => P := by
  cases fuel with
  | zero => exact .error _
  | succ fuel =>
  have hkey : Ensures (nextKey (fieldKey (fields.map FieldDe.name)) (.flatStruct .valueOnly false)
      de) fun r de' => (∃ key, r = (some key, .flatStruct .done true)) ∧ de' = de := by
    refine .of_ok (a := (some ((fields.map FieldDe.name).findIdx? (· == ascii "$value")), _)) rfl
      ⟨⟨_, rfl⟩, rfl⟩
  have hentry : ∀ key, Ensures (fieldEntry fields slots (.flatStruct .done true) key de)
      fun _ => P := by
    intro key
    cases key with
    | none =>
      refine Ensures.bind (Q := fun _ => P) hignored ?_
      intro _ de' hend
      exact .ok hend
    | some i =>
      rw [fieldEntry]
      cases hi : fields[i]? with
      | none => exact .error _
      | some field =>
        dsimp only
        rw [StateExcept.ite_apply]
        split
        · exact .error _
        · refine Ensures.bind (Q := fun _ => P) (hfields field (List.mem_of_getElem? hi)) ?_
          intro v de' hend
          exact .ok hend
  refine hkey.bind ?_
  rintro _ _ ⟨⟨key, rfl⟩, rfl⟩
  refine (hentry key).bind ?_
  intro slots' de' hend
  cases fuel with
  | zero => exact .error _
  | succ fuel => exact .ok hend

theorem visitFlatStruct_sep {fields : List FieldDe} {ts : List Token} {P : Deserializer → Prop}
    (h : Lexes de.lexer (.itemSeparator :: ts) it')
    (hignored : Ensures (ignored (de.deeper.withLexer de.lexer.skipIgnored)) fun _ => P)
    (hfields : ∀ field ∈ fields,
      Ensures (field.value (de.deeper.withLexer de.lexer.skipIgnored)) fun _ => P) :
    Ensures (visitFlatStruct (structVisitor fields) de) fun _ de' =>
      ∃ de₁, P de₁ ∧ de' = { de₁ with depth := de₁.depth - 1 } := by
  refine nested_ensures (Q := fun _ => P) ?_
  have hlex : Lexes de.deeper.lexer (.itemSeparator :: ts) it' := h
  obtain ⟨b, hpeek, hlead⟩ := peekByte_of_lexes _ hlex
  have hstart : flatStructStart de.deeper =
      .ok (.valueOnly, de.deeper.withLexer de.lexer.skipIgnored) := by
    have h₁ : b ≠ 0x3C := fun hb => by cases (hlead.eq_iff (u := .beginAttributes) rfl).mp hb
    have h₂ : b ≠ 0x7B := fun hb => by cases (hlead.eq_iff (u := .beginMap) rfl).mp hb
    have h₃ : b ≠ 0x23 := fun hb => by cases (hlead.eq_iff (u := .entity) rfl).mp hb
    rw [flatStructStart, StateExcept.bind_ok hpeek, if_neg h₁, if_neg h₂, if_neg h₃]
    rfl
  refine .bind_ok hstart ?_
  refine Ensures.bind (Q := fun _ => P) ?_ fun _ _ hend => .ok hend
  refine .bind_ok (budget_apply _) ?_
  refine (fieldEntries_valueOnly hignored hfields _ _).bind ?_
  rintro ⟨slots, map'⟩ de' hend
  have hfinish : Ensures (ofExcept (finishFields fields slots) de') fun _ de₁ => de₁ = de' := by
    rw [ofExcept_apply]
    cases finishFields fields slots with
    | error e => exact .error _
    | ok vs => exact .ok rfl
  refine hfinish.bind ?_
  rintro vs _ rfl
  exact .ok hend

theorem Refuses.flatStruct {fields : List FieldDe} (h : ∀ field ∈ fields, Refuses field.value) :
    Refuses (visitFlatStruct (structVisitor fields)) := by
  intro limit depth de it' ts hready hlex
  have hready₁ : Ready limit (depth + 1) (de.deeper.withLexer de.lexer.skipIgnored) :=
    hready.deeper.withLexer _
  refine (visitFlatStruct_sep (P := fun _ => False) hlex
    (ignored_refuses hready₁ hlex.skipIgnored)
    fun field hfield => h field hfield hready₁ hlex.skipIgnored).imp ?_
  rintro _ _ ⟨_, hfalse, _⟩
  exact hfalse

theorem Stays.flatStruct {fields : List FieldDe} (h : ∀ field ∈ fields, Stays field.value) :
    Stays (visitFlatStruct (structVisitor fields)) := by
  intro limit depth de it' ts hflag hlex
  have hflag₁ : Flagged limit (depth + 1) (de.deeper.withLexer de.lexer.skipIgnored) :=
    ⟨hflag.flag, congrArg (· + 1) hflag.depth, hflag.limit⟩
  refine (visitFlatStruct_sep (P := fun de₁ => (de₁.depth = depth + 1 ∧ de₁.maxDepth = limit) ∧
      Lexes de₁.lexer (.itemSeparator :: ts) it') hlex
    (ignored_stays hflag₁ hlex.skipIgnored)
    fun field hfield => h field hfield hflag₁ hlex.skipIgnored).imp ?_
  rintro _ _ ⟨de₁, ⟨⟨hdepth, hlimit⟩, hend⟩, rfl⟩
  exact ⟨⟨by simp [hdepth], hlimit⟩, hend⟩

/-- A struct that asks for attributes takes none of a `;` and refuses it as a value. -/
theorem withAttributes_stops {attributes value : De Datum} {ts : List Token}
    (hattributes : Stays attributes) (hvalue : Refuses value) (hdepth : de.depth = depth)
    (hlimit : de.maxDepth = limit) (h : Lexes de.lexer (.itemSeparator :: ts) it') :
    Ensures (visitAttributesWrapper (withAttributesVisitor attributes value) de)
      fun _ _ => False := by
  have hflag : Flagged limit (depth + 1) { de.deeper with isReadingAttributes := true } :=
    ⟨rfl, congrArg (· + 1) hdepth, hlimit⟩
  refine (nested_ensures (Q := fun _ _ => False) ?_).imp fun _ _ hend => hend.elim fun _ h => h.1
  refine Ensures.bind (Q := fun _ _ => False) ?_ fun _ _ hfalse => hfalse.elim
  refine Ensures.bind (Q := fun r de₁ => (∃ a, r = (some a, .attributesWrapper 1)) ∧
    Ready limit (depth + 1) de₁ ∧ Lexes de₁.lexer (.itemSeparator :: ts) it') ?_ ?_
  · rw [nextElement, StateExcept.modify_bind]
    refine (hattributes hflag h).bind ?_
    rintro a de₁ ⟨⟨hdepth₁, hlimit₁⟩, hsep⟩
    rw [StateExcept.modify_bind]
    exact .ok ⟨⟨a, rfl⟩, ⟨rfl, hdepth₁, hlimit₁⟩, hsep⟩
  · rintro _ de₁ ⟨⟨a, rfl⟩, hready₁, hsep⟩
    refine .bind_ok rfl ?_
    exact (hvalue.bind _ hready₁ hsep).bind fun _ _ hfalse => hfalse.elim

end Ytsaurus.Yson.De
