import Mathlib.Data.List.Basic
import Ytsaurus.Helpers.Derive

/-!
# `Proof/Helpers/Derive.lean` — the derived schema and the checked one

The macro and the client check schemas apart from each other: one while it walks over fields, the
other over finished columns. Both are compared with the columns that the struct describes. The
macro's loop is at `Expansion.of` of the columns so far, so what one turn does is decided by
those (`expandField_described`), and a whole run by what is proved of lists of columns.

A derived schema is meant to be a valid one, so that a type which compiles can have its table
created. The two rule sets overlap: names that are distinct, keys in front, and a key where keys are
to be unique are known to both (`FollowsMacro`); what a name may be and how many columns there may
be is known to the client alone (`FollowsCluster`). So they agree on a struct that breaks a rule of
the macro, which both refuse, and on one that keeps all of them (`derive_agrees`); the rest compiles
and is refused later.

What a struct describes is stated without the loop (`describes`), field by field, with the options
and the type of each. A struct that describes nothing, because an option is unknown or a type has
no column type, is refused by the macro with an error of its own and is not compared.
-/

set_option autoImplicit false

namespace Ytsaurus

open Client (Column ColumnType TableSchema SchemaError)

/-! ## Lists of columns -/

namespace Client

/-- No key column comes behind one that is none. -/
def KeysFirst (columns : List Column) : Prop :=
  columns.Pairwise fun a b => b.isKey = true → a.isKey = true

/-- The rules the macro knows: distinct names, and the keys first. -/
def Ordered (columns : List Column) : Prop :=
  (columns.map Column.name).Nodup ∧ KeysFirst columns

/-- The rules it does not know: what a name may be. -/
def NameFits (name : String) : Prop :=
  name ≠ "" ∧ name.utf8ByteSize ≤ TableSchema.MAX_NAME ∧ name.toList.head? ≠ some '@'

theorem Ordered.left {columns more : List Column} (h : Ordered (columns ++ more)) :
    Ordered columns := by
  refine ⟨?_, (List.pairwise_append.mp h.2).1⟩
  have hnames := h.1
  rw [List.map_append] at hnames
  exact (List.nodup_append.mp hnames).1

theorem ordered_snoc {columns : List Column} (h : Ordered columns) (column : Column) :
    Ordered (columns ++ [column]) ↔ column.name ∉ columns.map Column.name ∧
      ¬ (column.isKey = true ∧ columns.any (fun c => !c.isKey) = true) := by
  have hany : columns.any (fun c => !c.isKey) = true ↔ ∃ c ∈ columns, c.isKey = false := by simp
  have hkeys : KeysFirst (columns ++ [column]) ↔
      ¬ (column.isKey = true ∧ ∃ c ∈ columns, c.isKey = false) := by
    unfold KeysFirst
    rw [List.pairwise_append]
    constructor
    · rintro ⟨_, _, hall⟩ ⟨hkey, c, hc, hnot⟩
      have hkey' := hall c hc column List.mem_cons_self hkey
      rw [hnot] at hkey'
      cases hkey'
    · intro hnone
      refine ⟨h.2, List.pairwise_singleton _ column, ?_⟩
      intro c hc d hd hkey
      rw [List.mem_singleton] at hd
      subst hd
      by_contra hnot
      exact hnone ⟨hkey, c, hc, Bool.eq_false_iff.mpr hnot⟩
  have hnames : ((columns ++ [column]).map Column.name).Nodup ↔
      column.name ∉ columns.map Column.name := by
    rw [List.map_append, List.nodup_append]
    constructor
    · rintro ⟨_, _, hne⟩ hmem
      exact hne _ hmem column.name List.mem_cons_self rfl
    · intro hnot
      refine ⟨h.1, List.pairwise_singleton _ column.name, ?_⟩
      intro a ha b hb
      rw [List.map_singleton, List.mem_singleton] at hb
      rintro rfl
      exact hnot (hb ▸ ha)
  rw [hany]
  exact and_congr hnames hkeys

/-! ## `validate` -/

theorem checkColumns_ok {columns : List Column} {seen : List String} :
    TableSchema.checkColumns seen columns = .ok () ↔
      (∀ column ∈ columns, NameFits column.name) ∧
      (∀ column ∈ columns, column.name ∉ seen) ∧ (columns.map Column.name).Nodup ∧
      ∀ column ∈ columns, column.required = true → column.columnType.canBeRequired = true := by
  induction columns generalizing seen with
  | nil => simp [TableSchema.checkColumns]
  | cons column columns ih =>
    rw [TableSchema.checkColumns, List.map_cons, List.nodup_cons]
    simp only [List.forall_mem_cons, NameFits]
    by_cases hempty : column.name = ""
    · simp [hempty]
    by_cases hlong : column.name.utf8ByteSize > TableSchema.MAX_NAME
    · simp [hempty, hlong, Nat.not_le.mpr hlong]
    by_cases hreserved : column.name.toList.head? = some '@'
    · simp [hempty, hlong, hreserved]
    by_cases hseen : column.name ∈ seen
    · simp [hempty, hlong, hreserved, hseen]
    by_cases hrequired : column.required = true ∧ column.columnType.canBeRequired = false
    · simp [hempty, hlong, hreserved, hseen, hrequired]
    rw [if_neg hempty, if_neg hlong, if_neg hreserved, if_neg hseen, if_neg hrequired, ih]
    have hle := Nat.not_lt.mp hlong
    have hfree : column.required = true → column.columnType.canBeRequired = true := by
      intro hreq
      by_contra hnot
      exact hrequired ⟨hreq, Bool.eq_false_iff.mpr hnot⟩
    have hapart : (∀ c ∈ columns, c.name ∉ column.name :: seen) ↔
        column.name ∉ columns.map Column.name ∧ ∀ c ∈ columns, c.name ∉ seen := by
      simp only [List.mem_cons, not_or, List.mem_map, not_exists, not_and]
      exact ⟨fun h => ⟨fun c hc => (h c hc).1, fun c hc => (h c hc).2⟩,
        fun h c hc => ⟨h.1 c hc, h.2 c hc⟩⟩
    rw [hapart]
    constructor
    · rintro ⟨hfits, ⟨hnot, hseen'⟩, hnodup, hreq⟩
      exact ⟨⟨⟨hempty, hle, hreserved⟩, hfits⟩, ⟨hseen, hseen'⟩, ⟨hnot, hnodup⟩, hfree, hreq⟩
    · rintro ⟨⟨_, hfits⟩, ⟨_, hseen'⟩, ⟨hnot, hnodup⟩, _, hreq⟩
      exact ⟨hfits, ⟨hnot, hseen'⟩, hnodup, hreq⟩

/-- What is left behind the first keys has no key. -/
theorem find_rest {columns : List Column} :
    (columns.drop (columns.takeWhile Column.isKey).length).find? Column.isKey = none ↔
      KeysFirst columns := by
  induction columns with
  | nil => exact ⟨fun _ => List.Pairwise.nil, fun _ => rfl⟩
  | cons column columns ih =>
    unfold KeysFirst at ih ⊢
    rw [List.pairwise_cons]
    by_cases hkey : column.isKey = true
    · rw [List.takeWhile_cons_of_pos hkey, List.length_cons, List.drop_succ_cons, ih]
      exact ⟨fun h => ⟨fun _ _ _ => hkey, h⟩, fun h => h.2⟩
    · rw [List.takeWhile_cons_of_neg hkey, List.length_nil, List.drop_zero, List.find?_eq_none]
      constructor
      · intro hnone
        have hrest := fun c hc => hnone c (List.mem_cons_of_mem column hc)
        refine ⟨fun c hc hkey' => absurd hkey' (hrest c hc), ?_⟩
        exact List.pairwise_of_forall_mem_list fun a _ b hb hkey' => absurd hkey' (hrest b hb)
      · rintro ⟨hall, _⟩ c hc hkey'
        rcases List.mem_cons.mp hc with rfl | hmem
        · exact hkey hkey'
        · exact hkey (hall c hmem hkey')

theorem takeWhile_empty {columns : List Column} (h : KeysFirst columns) :
    (columns.takeWhile Column.isKey).length = 0 ↔ columns.any Column.isKey = false := by
  cases columns with
  | nil => simp
  | cons column columns =>
    by_cases hkey : column.isKey = true
    · simp [hkey]
    · have hrest : ∀ c ∈ columns, c.isKey = false := by
        intro c hc
        exact Bool.eq_false_iff.mpr fun hkey' => hkey ((List.pairwise_cons.mp h).1 c hc hkey')
      simpa [hkey] using hrest

theorem checkKeys_ok {schema : TableSchema} :
    schema.checkKeys = .ok () ↔ KeysFirst schema.columns ∧
      (schema.uniqueKeys = true → schema.columns.any Column.isKey = true) := by
  unfold TableSchema.checkKeys
  dsimp only
  cases hstray : (schema.columns.drop (schema.columns.takeWhile Column.isKey).length).find?
      Column.isKey with
  | some stray =>
    have hmem := List.mem_of_find?_eq_some hstray
    obtain ⟨first, rest, hrest⟩ := List.exists_cons_of_ne_nil (List.ne_nil_of_mem hmem)
    rw [hrest]
    constructor
    · intro h
      cases h
    · rintro ⟨hkeys, _⟩
      rw [find_rest.mpr hkeys] at hstray
      cases hstray
  | none =>
    have hkeys := find_rest.mp hstray
    simp only [takeWhile_empty hkeys]
    by_cases hunique : schema.uniqueKeys = true ∧ schema.columns.any Column.isKey = false
    · rw [if_pos hunique]
      constructor
      · intro h
        cases h
      · rintro ⟨_, hany⟩
        have hkey := hany hunique.1
        rw [hunique.2] at hkey
        cases hkey
    · rw [if_neg hunique]
      refine ⟨fun _ => ⟨hkeys, fun h => ?_⟩, fun _ => rfl⟩
      by_contra hnone
      exact hunique ⟨h, Bool.eq_false_iff.mpr hnone⟩

/-- **What `validate` accepts.** -/
theorem validate_ok {schema : TableSchema} : schema.validate = .ok () ↔
    (schema.columns.length ≤ TableSchema.MAX_COLUMNS ∧
      ∀ column ∈ schema.columns, NameFits column.name) ∧
    Ordered schema.columns ∧
    (schema.uniqueKeys = true → schema.columns.any Column.isKey = true) ∧
    ∀ column ∈ schema.columns,
      column.required = true → column.columnType.canBeRequired = true := by
  unfold TableSchema.validate
  by_cases hmany : schema.columns.length > TableSchema.MAX_COLUMNS
  · rw [if_pos hmany]
    constructor
    · intro h
      cases h
    · rintro ⟨⟨hle, _⟩, _⟩
      exact absurd hle (Nat.not_le.mpr hmany)
  · rw [if_neg hmany]
    have hcolumns := @checkColumns_ok schema.columns []
    cases hrun : TableSchema.checkColumns [] schema.columns with
    | error e =>
      rw [hrun] at hcolumns
      constructor
      · intro h
        cases h
      · rintro ⟨⟨_, hnames⟩, ⟨hnodup, _⟩, _, hrequired⟩
        exact nomatch hcolumns.mpr ⟨hnames, fun _ _ => List.not_mem_nil, hnodup, hrequired⟩
    | ok u =>
      obtain ⟨hnames, _, hnodup, hrequired⟩ := hcolumns.mp hrun
      dsimp only
      rw [checkKeys_ok]
      exact ⟨fun h => ⟨⟨Nat.not_lt.mp hmany, hnames⟩, ⟨hnodup, h.1⟩, h.2, hrequired⟩,
        fun h => ⟨h.2.1.2, h.2.2.1⟩⟩

end Client

/-! ## `expand` -/

namespace Helpers

open Client (Ordered KeysFirst NameFits ordered_snoc validate_ok)

/-- The column that a field describes, or nothing for a field that is skipped; not even that
where an option is unknown or a type is not supported. -/
def describedColumn (field : Field) : Option (Option Column) :=
  match fieldOptions field.metas with
  | .error _ => none
  | .ok options =>
    if options.skip then some none
    else
      let name := options.name.getD field.ident
      match fieldType options field.ty name with
      | .error _ => none
      | .ok found => some (some
          { name := name
            columnType := found.1
            required := !found.2 && found.1.canBeRequired
            sortOrder := if options.key then some .ascending else none })

/-- One column for each field that is not skipped, in order. -/
def describedColumns : List Field → Option (List Column)
  | [] => some []
  | field :: fields =>
    match describedColumn field, describedColumns fields with
    | some none, some columns => some columns
    | some (some column), some columns => some (column :: columns)
    | _, _ => none

/-- The schema that a struct describes. -/
def describes (input : DeriveInput) : Option TableSchema :=
  match structOptions input.metas, input.fields with
  | .ok options, some fields => (describedColumns fields).map fun columns =>
      ⟨columns, options.strict, options.uniqueKeys⟩
  | _, _ => none

theorem writeColumn_eq (name : String) (columnType : ColumnType) (optional key : Bool) :
    writeColumn name columnType optional key =
      { name := name
        columnType := columnType
        required := !optional && columnType.canBeRequired
        sortOrder := if key then some .ascending else none } := by
  have hnever : NEVER_REQUIRED.contains columnType = !columnType.canBeRequired := by
    cases columnType <;> rfl
  unfold writeColumn
  rw [hnever]
  cases optional <;> cases columnType.canBeRequired <;> cases key <;> rfl

/-- Where the loop is when it has written these columns. -/
def Expansion.of (columns : List Column) : Expansion where
  columns := columns
  names := columns.map Column.name
  keysEnded := columns.any fun column => !column.isKey
  anyKey := columns.any Column.isKey

/-- A field that is skipped. -/
theorem expandField_skipped {field : Field} (h : describedColumn field = some none)
    (expansion : Expansion) : expandField expansion field = .ok expansion := by
  unfold describedColumn at h
  unfold expandField
  cases hoptions : fieldOptions field.metas with
  | error e =>
    rw [hoptions] at h
    cases h
  | ok options =>
    rw [hoptions] at h
    dsimp only at h ⊢
    by_cases hskip : options.skip = true
    · rw [if_pos hskip]
    · rw [if_neg hskip] at h
      cases hfound : fieldType options field.ty (options.name.getD field.ident) with
      | error e =>
        rw [hfound] at h
        cases h
      | ok found =>
        rw [hfound] at h
        cases h

/-- The name is looked for among the columns before. -/
theorem find_name {columns : List Column} {name : String} :
    (Expansion.of columns).names.find? (fun seen => seen == name) = none ↔
      name ∉ columns.map Column.name := by
  rw [List.find?_eq_none]
  constructor
  · intro hnone hmem
    exact hnone name hmem (beq_self_eq_true name)
  · intro hnot seen hseen heq
    exact hnot (eq_of_beq heq ▸ hseen)

theorem addKey_of (columns : List Column) (column : Column) :
    ({ Expansion.of columns with names := columns.map Column.name ++ [column.name] }.addKey
      column.isKey) =
      { Expansion.of (columns ++ [column]) with columns := columns } := by
  unfold Expansion.addKey Expansion.of
  cases hkey : column.isKey <;> simp [hkey]

/-- **One turn of the loop**: the column is written where it may follow the ones before. -/
theorem expandField_described {field : Field} {column : Column} {columns : List Column}
    (h : describedColumn field = some (some column)) (hordered : Ordered columns) :
    (Ordered (columns ++ [column]) →
      expandField (.of columns) field = .ok (.of (columns ++ [column]))) ∧
    (¬ Ordered (columns ++ [column]) → ∃ e, expandField (.of columns) field = .error e) := by
  rw [ordered_snoc hordered]
  unfold describedColumn at h
  unfold expandField
  cases hoptions : fieldOptions field.metas with
  | error e =>
    rw [hoptions] at h
    cases h
  | ok options =>
    rw [hoptions] at h
    dsimp only at h ⊢
    by_cases hskip : options.skip = true
    · rw [if_pos hskip] at h
      cases h
    rw [if_neg hskip] at h ⊢
    cases hfound : fieldType options field.ty (options.name.getD field.ident) with
    | error e =>
      rw [hfound] at h
      cases h
    | ok found =>
      rw [hfound] at h
      have hcolumn := Option.some.inj (Option.some.inj h)
      have hname : options.name.getD field.ident = column.name := congrArg Column.name hcolumn
      have hkey : options.key = column.isKey := by
        rw [← hcolumn]
        cases options.key <;> rfl
      rw [← writeColumn_eq] at hcolumn
      dsimp only
      rw [hcolumn, hname, hkey]
      cases hseen : (Expansion.of columns).names.find? (fun seen => seen == column.name) with
      | some first =>
        refine ⟨fun hnew => ?_, fun _ => ⟨_, rfl⟩⟩
        rw [find_name.mpr hnew.1] at hseen
        cases hseen
      | none =>
        have hnew := find_name.mp hseen
        by_cases hlate : column.isKey = true ∧ columns.any (fun c => !c.isKey) = true
        · exact ⟨fun hboth => absurd hlate hboth.2, fun _ => ⟨_, if_pos hlate⟩⟩
        · refine ⟨fun _ => ?_, fun hnot => absurd ⟨hnew, hlate⟩ hnot⟩
          refine (if_neg hlate).trans ?_
          exact congrArg (fun e : Expansion => Except.ok { e with columns := e.columns ++ [column] })
            (addKey_of columns column)

theorem describedColumns_cons {field : Field} {fields : List Field} {columns : List Column}
    (h : describedColumns (field :: fields) = some columns) :
    (describedColumn field = some none ∧ describedColumns fields = some columns) ∨
    ∃ column rest, describedColumn field = some (some column) ∧
      describedColumns fields = some rest ∧ columns = column :: rest := by
  unfold describedColumns at h
  cases hfield : describedColumn field with
  | none =>
    rw [hfield] at h
    cases h
  | some described =>
    rw [hfield] at h
    cases hfields : describedColumns fields with
    | none =>
      rw [hfields] at h
      cases described <;> cases h
    | some rest =>
      rw [hfields] at h
      cases described with
      | none => exact .inl ⟨rfl, h⟩
      | some column => exact .inr ⟨column, rest, rfl, rfl, (Option.some.inj h).symm⟩

/-- **All turns**: the fields are written as long as their columns keep the order. -/
theorem expandFields_described {fields : List Field} {columns more : List Column}
    (h : describedColumns fields = some more) (hordered : Ordered columns) :
    (Ordered (columns ++ more) →
      fields.foldlM expandField (.of columns) = .ok (.of (columns ++ more))) ∧
    (¬ Ordered (columns ++ more) →
      ∃ e, fields.foldlM expandField (.of columns) = .error e) := by
  induction fields generalizing columns more with
  | nil =>
    cases h
    rw [List.append_nil]
    exact ⟨fun _ => rfl, fun hnot => absurd hordered hnot⟩
  | cons field fields ih =>
    rw [List.foldlM_cons]
    rcases describedColumns_cons h with ⟨hskip, hrest⟩ | ⟨column, rest, hcolumn, hrest, rfl⟩
    · rw [expandField_skipped hskip]
      exact ih hrest hordered
    · rw [List.append_cons]
      have hturn := expandField_described hcolumn hordered
      by_cases hnext : Ordered (columns ++ [column])
      · rw [hturn.1 hnext]
        exact ih hrest hnext
      · obtain ⟨e, he⟩ := hturn.2 hnext
        rw [he]
        exact ⟨fun hall => absurd hall.left hnext, fun _ => ⟨e, rfl⟩⟩

/-- A described column is required only where its type allows it. -/
theorem describedColumn_required {field : Field} {column : Column}
    (h : describedColumn field = some (some column)) (hrequired : column.required = true) :
    column.columnType.canBeRequired = true := by
  unfold describedColumn at h
  split at h
  · cases h
  · split at h
    · cases h
    · dsimp only at h
      split at h
      · cases h
      · cases h
        exact (Bool.and_eq_true_iff.mp hrequired).2

theorem describedColumns_required {fields : List Field} {columns : List Column}
    (h : describedColumns fields = some columns) :
    ∀ column ∈ columns, column.required = true → column.columnType.canBeRequired = true := by
  induction fields generalizing columns with
  | nil =>
    cases h
    exact fun _ hmem => absurd hmem List.not_mem_nil
  | cons field fields ih =>
    rcases describedColumns_cons h with ⟨_, hrest⟩ | ⟨column, rest, hcolumn, hrest, rfl⟩
    · exact ih hrest
    · exact List.forall_mem_cons.mpr ⟨describedColumn_required hcolumn, ih hrest⟩

/-! ## The two rule sets -/

/-- The rules that the macro knows. -/
def FollowsMacro (schema : TableSchema) : Prop :=
  Ordered schema.columns ∧
    (schema.uniqueKeys = true → schema.columns.any Column.isKey = true)

/-- The rules that only the client knows. -/
def FollowsCluster (schema : TableSchema) : Prop :=
  schema.columns.length ≤ TableSchema.MAX_COLUMNS ∧
    ∀ column ∈ schema.columns, NameFits column.name

theorem describes_eq {input : DeriveInput} {schema : TableSchema}
    (h : describes input = some schema) : ∃ options fields columns,
      structOptions input.metas = .ok options ∧ input.fields = some fields ∧
      describedColumns fields = some columns ∧
      schema = ⟨columns, options.strict, options.uniqueKeys⟩ := by
  unfold describes at h
  cases hoptions : structOptions input.metas with
  | error e =>
    rw [hoptions] at h
    cases h
  | ok options =>
    cases hfields : input.fields with
    | none =>
      rw [hoptions, hfields] at h
      cases h
    | some fields =>
      rw [hoptions, hfields] at h
      obtain ⟨columns, hcolumns, heq⟩ := Option.map_eq_some_iff.mp h
      exact ⟨options, fields, columns, rfl, rfl, hcolumns, heq.symm⟩

/-- What `expand` accepts, and what it writes then. -/
theorem expand_described {input : DeriveInput} {schema : TableSchema}
    (h : describes input = some schema) :
    (FollowsMacro schema → expand input = .ok schema) ∧
    (¬ FollowsMacro schema → ∃ e, expand input = .error e) := by
  obtain ⟨options, fields, columns, hoptions, hfields, hcolumns, rfl⟩ := describes_eq h
  have hstart : Ordered [] := ⟨List.nodup_nil, List.Pairwise.nil⟩
  have hrun := expandFields_described hcolumns hstart
  rw [List.nil_append] at hrun
  have hfold : fields.foldlM expandField {} = fields.foldlM expandField (.of []) := rfl
  unfold expand
  rw [hoptions, hfields]
  dsimp only
  rw [hfold]
  by_cases hordered : Ordered columns
  · rw [hrun.1 hordered]
    dsimp only
    by_cases hkeyless : options.uniqueKeys = true ∧ (Expansion.of columns).anyKey = false
    · refine ⟨fun hfollows => ?_, fun _ => ⟨_, if_pos hkeyless⟩⟩
      have hany := hfollows.2 hkeyless.1
      exact absurd hkeyless.2 (Bool.not_eq_false _ ▸ hany)
    · rw [if_neg hkeyless]
      refine ⟨fun _ => rfl, fun hnot => absurd ⟨hordered, fun hunique => ?_⟩ hnot⟩
      by_contra hnone
      exact hkeyless ⟨hunique, Bool.eq_false_iff.mpr hnone⟩
  · obtain ⟨e, he⟩ := hrun.2 hordered
    rw [he]
    exact ⟨fun hfollows => absurd hfollows.1 hordered, fun _ => ⟨e, rfl⟩⟩

/-- What `validate` accepts of a described schema. -/
theorem validate_described {input : DeriveInput} {schema : TableSchema}
    (h : describes input = some schema) :
    schema.validate = .ok () ↔ FollowsCluster schema ∧ FollowsMacro schema := by
  obtain ⟨options, fields, columns, _, _, hcolumns, rfl⟩ := describes_eq h
  rw [validate_ok]
  constructor
  · intro hall
    exact ⟨hall.1, hall.2.1, hall.2.2.1⟩
  · intro hboth
    exact ⟨hboth.1, hboth.2.1, hboth.2.2, describedColumns_required hcolumns⟩

/-- **When the macro and the check agree.** On a struct that describes a schema they do exactly
where the schema breaks a rule of the macro's or keeps those that only the client knows. -/
theorem derive_agrees {input : DeriveInput} {schema : TableSchema}
    (h : describes input = some schema) :
    (expand input = .ok schema ∨ ∃ e, expand input = .error e) ∧
    (((∃ derived, expand input = .ok derived) ↔ schema.validate = .ok ()) ↔
      ¬ FollowsMacro schema ∨ FollowsCluster schema) := by
  have hexpand := expand_described h
  rw [validate_described h]
  by_cases hfollows : FollowsMacro schema
  · have haccepts : ∃ derived, expand input = .ok derived := ⟨schema, hexpand.1 hfollows⟩
    refine ⟨.inl (hexpand.1 hfollows), ?_⟩
    simp only [haccepts, hfollows, true_iff, and_true, not_true, false_or]
  · obtain ⟨e, he⟩ := hexpand.2 hfollows
    have hrefuses : ¬ ∃ derived, expand input = .ok derived := by
      rintro ⟨derived, hderived⟩
      rw [he] at hderived
      cases hderived
    refine ⟨.inr ⟨e, he⟩, ?_⟩
    simp only [hrefuses, hfollows, and_false, not_false_eq_true, true_or]

/-- A struct with one `i64` field of this name. -/
def oneField (name : String) : DeriveInput where
  metas := []
  fields := some [⟨"value", .path false "i64" none, [.name name]⟩]

/-- A schema of one such column. -/
def oneColumn (name : String) : TableSchema :=
  ⟨[⟨name, .int64, true, none⟩], true, false⟩

/-- A struct with a key under another name, a field that is left out, and two more columns, one of
which may be missing. -/
def eventStruct : DeriveInput where
  metas := [.uniqueKeys]
  fields := some [⟨"id", .path false "u64" none, [.key, .name "event_id"]⟩,
    ⟨"cached", .other, [.skip]⟩, ⟨"text", .path false "String" none, []⟩,
    ⟨"at", .path false "Option" (some [.type (.path false "i64" none)]), []⟩]

def eventSchema : TableSchema where
  columns := [⟨"event_id", .uint64, true, some .ascending⟩, ⟨"text", .utf8, true, none⟩,
    ⟨"at", .int64, false, none⟩]
  strict := true
  uniqueKeys := true

theorem derive_agrees_event :
    describes eventStruct = some eventSchema ∧
    (expand eventStruct = .ok eventSchema ∨ ∃ e, expand eventStruct = .error e) ∧
    (((∃ derived, expand eventStruct = .ok derived) ↔ eventSchema.validate = .ok ()) ↔
      ¬ FollowsMacro eventSchema ∨ FollowsCluster eventSchema) :=
  have h : describes eventStruct = some eventSchema := rfl
  ⟨h, derive_agrees h⟩

/-- A column without a name passes the macro, and not the check. -/
theorem empty_name_derived :
    describes (oneField "") = some (oneColumn "") ∧
    expand (oneField "") = .ok (oneColumn "") ∧
    (oneColumn "").validate = .error .emptyName :=
  ⟨rfl, rfl, rfl⟩

end Helpers

end Ytsaurus
