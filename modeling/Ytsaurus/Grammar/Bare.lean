import Ytsaurus.Grammar.Doc

/-!
# `Grammar/Bare.lean` — what the typed readers see of a document

A reader that has no use for attributes passes over one block in front of a value: `Doc.bare` is
what it comes to. Where a second block stands there, the reader meets a value with attributes, and
offers what it holds to a visitor of maps, attributes and all (`Doc.offered`).

An enum is read from a map of one entry, and the map is closed by the first bracket that is found
behind the variant. `Doc.variantEnds` says that it is the map's own.
-/

set_option autoImplicit false

namespace Ytsaurus.Yson

/-- The document behind its attribute block, if it has one. -/
def Doc.bare : Doc → Doc
  | .attributed _ _ body => body
  | d => d

theorem Doc.bare_of_plain {d : Doc} (h : d.isAttributed = false) : d.bare = d := by
  cases d with
  | attributed => cases h
  | scalar | entity | list | map => rfl

theorem Doc.plain_lead {d : Doc} {t : Token} {ts : List Token} (h : d.isAttributed = false)
    (htoks : d.toks = t :: ts) : t ≠ .beginAttributes := by
  rintro rfl
  cases d with
  | attributed => cases h
  | scalar s => cases s <;> simp [Doc.toks, Scalar.token] at htoks
  | entity | list | map => simp [Doc.toks] at htoks

/-- The items of a list. -/
def Doc.elements : Doc → List Doc
  | .list items _ => items.map Prod.snd
  | _ => []

/-- The entries of a map. -/
def Doc.entries : Doc → List (List UInt8 × Doc)
  | .map pairs _ => mapEntries pairs
  | _ => []

/-- The entries of the attribute block in front. -/
def Doc.blockEntries : Doc → List (List UInt8 × Doc)
  | .attributed pairs _ _ => mapEntries pairs
  | _ => []

/-- What is left of the tokens behind a variant once everything up to the first `;` or `}` was
passed over. -/
def behindVariant (ts : List Token) : List Token :=
  ts.dropWhile fun t => decide (t ≠ .itemSeparator ∧ t ≠ .endMap)

/-- A closing bracket that is not the last token. -/
def closesEarly : List Token → Bool
  | .endMap :: ts => !ts.isEmpty
  | .itemSeparator :: .endMap :: ts => !ts.isEmpty
  | _ => false

/-- In the map an enum is read from, the bracket that is found behind the variant is that of the
map. It always is where a `;` follows the variant. -/
def Doc.variantEnds : Doc → Bool
  | .map (_ :: pairs) trail =>
    !closesEarly (behindVariant (pairsToks pairs ++ (seps trail ++ [.endMap])))
  | _ => true

/-- The entries a flat struct is offered. -/
def Doc.flatEntries : Doc → List (List UInt8 × Doc)
  | .attributed pairs _ body => attributeEntries pairs ++ bodyEntries body
  | d => bodyEntries d

/-- The entries a visitor of maps is offered behind the attribute block that is passed over. -/
def Doc.offered : Doc → List (List UInt8 × Doc)
  | .map pairs _ => mapEntries pairs
  | .attributed pairs _ body => attributeEntries pairs ++ bodyEntries body
  | _ => []

def Doc.isList : Doc → Bool
  | .list _ _ => true
  | _ => false

def Doc.isEntity : Doc → Bool
  | .entity => true
  | _ => false

end Ytsaurus.Yson
