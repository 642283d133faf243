import Ytsaurus.Proof.Spells
import Ytsaurus.Yson.Scan

/-!
# `Proof/Scan.lean` — the scanner on documents

`scan_value` walks over a value without building it, and reports how many bytes it took. It is
what the job reader cuts its records with, so which inputs it delimits is the first thing to know
about it. The answer is in terms of documents: it delimits exactly those without stacked attribute
blocks that nest no deeper than `MAX_DEPTH` by its own count (`Doc.Scans`,
`scanValue_complete_iff`). It counts a level for a list, a map and an attribute block, and not for
a value behind a block; the deserializer counts otherwise, and the two counts are compared in
`Proof/Delimit.lean`.

The two directions are proved separately, since the walk is not structural in anything: its
recursion is on a budget, and its loops look one byte ahead. That a walk which succeeds went over
a document is by induction on the budget (`scanTree_ok`); that it succeeds on every document that
scans is by induction on the length of the document in tokens, with any budget that is large
enough (`scanTree_reads`). `TreeAccepts` and `TreeReads` are the two inductive hypotheses, stated
of any walk that stands for the recursive call, so that the three loops have lemmas of their own.
-/

set_option autoImplicit false

namespace Ytsaurus.Yson

/-! ## Documents the scanner delimits -/

mutual

/-- The document nests within `limit` as the scanner counts, starting at `depth`, and no
attribute block stands directly behind another. -/
def Doc.Scans (limit : Nat) : Nat → Doc → Prop
  | depth, .scalar _ => depth ≤ limit
  | depth, .entity => depth ≤ limit
  | depth, .list items _ => depth + 1 ≤ limit ∧ itemsScan limit (depth + 1) items
  | depth, .map pairs _ => depth + 1 ≤ limit ∧ pairsScan limit (depth + 1) pairs
  | depth, .attributed pairs _ body =>
    (depth + 1 ≤ limit ∧ pairsScan limit (depth + 1) pairs) ∧
      body.isAttributed = false ∧ Doc.Scans limit depth body

def itemsScan (limit : Nat) : Nat → List (Nat × Doc) → Prop
  | _, [] => True
  | depth, (_, d) :: items => Doc.Scans limit depth d ∧ itemsScan limit depth items

def pairsScan (limit : Nat) : Nat → List (Nat × List UInt8 × Doc) → Prop
  | _, [] => True
  | depth, (_, _, d) :: pairs => Doc.Scans limit depth d ∧ pairsScan limit depth pairs

end

theorem Doc.Scans.depth_le {limit depth : Nat} {d : Doc} (h : d.Scans limit depth) :
    depth ≤ limit := by
  cases d with
  | scalar s => exact h
  | entity => exact h
  | list items trail => exact Nat.le_of_succ_le h.1
  | map pairs trail => exact Nat.le_of_succ_le h.1
  | attributed pairs trail body => exact Nat.le_of_succ_le h.1.1

theorem mem_itemsScan {items : List (Nat × Doc)} {limit depth : Nat}
    (h : itemsScan limit depth items) :
    ∀ p ∈ items, p.2.Scans limit depth := by
  induction items with
  | nil => simp
  | cons p items ih =>
    intro q hq
    rcases List.mem_cons.mp hq with rfl | hq
    · exact h.1
    · exact ih h.2 q hq

theorem mem_pairsScan {pairs : List (Nat × List UInt8 × Doc)} {limit depth : Nat}
    (h : pairsScan limit depth pairs) :
    ∀ p ∈ pairs, p.2.2.Scans limit depth := by
  induction pairs with
  | nil => simp
  | cons p pairs ih =>
    intro q hq
    rcases List.mem_cons.mp hq with rfl | hq
    · exact h.1
    · exact ih h.2 q hq

/-! ## Steps of the scanner -/

theorem lex_peek_ok {it it' : YsonIterator} {b : UInt8} (h : peekByte it = .ok (b, it')) :
    it' = it.skipIgnored := by
  rw [peekByte] at h
  split at h
  · cases h
  · cases h
    rfl

theorem checkDepth_ok {it it' : YsonIterator} {depth : Nat}
    (h : checkDepth depth it = .ok ((), it')) : depth ≤ MAX_DEPTH ∧ it = it' := by
  rw [checkDepth, StateExcept.ite_apply] at h
  split at h
  · cases h
  · cases h
    exact ⟨by omega, rfl⟩

theorem checkDepth_le {depth : Nat} (h : depth ≤ MAX_DEPTH) (it : YsonIterator) :
    checkDepth depth it = .ok ((), it) := by
  rw [checkDepth, StateExcept.ite_apply, if_neg (by omega)]
  rfl

/-- The closing token of a fragment. -/
def Fragment.endTok : Fragment → Token
  | .map => .endMap
  | .attributes => .endAttributes

theorem Fragment.endTok_lead (frag : Fragment) : frag.endTok.lead = some frag.endByte := by
  cases frag <;> rfl

variable [FloatText] {it it' : YsonIterator} {limit depth fuel : Nat}

/-- Peek, then read: the two steps on one token. -/
theorem lex_peek_next {t : Token} {ts : List Token} (h : Lexes it (t :: ts) it') :
    ∃ b it₁, peekByte it = .ok (b, it.skipIgnored) ∧ Leads b t ∧
      nextToken it.skipIgnored = .ok (t, it₁) ∧ Lexes it₁ ts it' := by
  obtain ⟨b, hpeek, hlead⟩ := h.peek
  obtain ⟨it₁, hnext, hrest⟩ := Lexes.cons_iff.mp h
  exact ⟨b, it₁, hpeek, hlead, by rwa [nextToken_skipIgnored], hrest⟩

theorem lex_peek_next_ok {b : UInt8} {t : Token} {it₁ : YsonIterator}
    (hpeek : peekByte it = .ok (b, it₁)) (hnext : nextToken it₁ = .ok (t, it')) :
    Leads b t ∧ Lexes it [t] it' := by
  cases lex_peek_ok hpeek
  rw [nextToken_skipIgnored] at hnext
  obtain ⟨c, hpeek', hlead⟩ := peekByte_of_nextToken hnext
  cases hpeek.symm.trans hpeek'
  exact ⟨hlead, .single hnext⟩

theorem lex_take_ok {b : UInt8} {t u : Token} {it₁ : YsonIterator}
    (hpeek : peekByte it = .ok (b, it₁)) (hnext : nextToken it₁ = .ok (t, it'))
    (hu : u.lead = some b) : Lexes it [u] it' := by
  obtain ⟨hlead, hlex⟩ := lex_peek_next_ok hpeek hnext
  rwa [(hlead.eq_iff hu).mp rfl] at hlex

/-! ## A scan that succeeded saw a document -/

/-- A success of `tree` went over a document that scans at `depth`. -/
def TreeAccepts (depth : Nat) (tree : LexM Unit) : Prop :=
  ∀ it it', tree it = .ok ((), it') → ∃ d : Doc, d.Scans MAX_DEPTH depth ∧ Lexes it d.toks it'

theorem scanListLoop_ok {tree : LexM Unit} (htree : TreeAccepts depth tree)
    (h : scanListLoop tree fuel it = .ok ((), it')) :
    ∃ items trail, itemsScan MAX_DEPTH depth items ∧
      Lexes it (itemsToks items ++ (seps trail ++ [.endList])) it' := by
  induction fuel generalizing it with
  | zero => cases h
  | succ fuel ih =>
    replace h := StateExcept.bind_eq_ok.mp h
    obtain ⟨b, it₁, hpeek, h⟩ := h
    rw [StateExcept.ite_apply] at h
    split at h
    · rename_i hb
      replace h := StateExcept.bind_eq_ok.mp h
      obtain ⟨t, it₂, hnext, h⟩ := h
      cases h
      exact ⟨[], 0, trivial, lex_take_ok (u := .endList) hpeek hnext (by rw [hb]; rfl)⟩
    · rw [StateExcept.ite_apply] at h
      split at h
      · rename_i hb
        replace h := StateExcept.bind_eq_ok.mp h
        obtain ⟨t, it₂, hnext, h⟩ := h
        have hsep := lex_take_ok (u := .itemSeparator) hpeek hnext (by rw [hb]; rfl)
        obtain ⟨items, trail, hitems, hrest⟩ := ih h
        cases items with
        | nil => exact ⟨[], trail + 1, trivial, hsep.append hrest⟩
        | cons p items => exact ⟨(p.1 + 1, p.2) :: items, trail, hitems, hsep.append hrest⟩
      · replace h := StateExcept.bind_eq_ok.mp h
        obtain ⟨_, it₂, hrun, h⟩ := h
        obtain ⟨d, hd, hlex⟩ := htree _ _ hrun
        obtain ⟨items, trail, hitems, hrest⟩ := ih h
        cases lex_peek_ok hpeek
        refine ⟨(0, d) :: items, trail, ⟨hd, hitems⟩, ?_⟩
        have := (De.lexes_doc_skipIgnored hlex).append hrest
        simpa [itemsToks, seps] using this

theorem scanKey_ok (h : scanKey it = .ok ((), it')) :
    ∃ s, Lexes it [.string s, .keyValueSeparator] it' := by
  replace h := StateExcept.bind_eq_ok.mp h
  obtain ⟨t, it₁, hkey, h⟩ := h
  cases t with
  | string s =>
    replace h := StateExcept.bind_eq_ok.mp h
    obtain ⟨u, it₂, heq, h⟩ := h
    cases u with
    | keyValueSeparator =>
      cases h
      exact ⟨s, .cons hkey (.single heq)⟩
    | _ => cases h
  | _ => cases h

theorem scanFragmentLoop_ok {tree : LexM Unit} {frag : Fragment} (htree : TreeAccepts depth tree)
    (h : scanFragmentLoop tree frag fuel it = .ok ((), it')) :
    ∃ pairs trail, pairsScan MAX_DEPTH depth pairs ∧
      Lexes it (pairsToks pairs ++ (seps trail ++ [frag.endTok])) it' := by
  induction fuel generalizing it with
  | zero => cases h
  | succ fuel ih =>
    replace h := StateExcept.bind_eq_ok.mp h
    obtain ⟨b, it₁, hpeek, h⟩ := h
    rw [StateExcept.ite_apply] at h
    split at h
    · rename_i hb
      replace h := StateExcept.bind_eq_ok.mp h
      obtain ⟨t, it₂, hnext, h⟩ := h
      cases h
      exact ⟨[], 0, trivial, lex_take_ok hpeek hnext (by rw [hb]; exact frag.endTok_lead)⟩
    · rw [StateExcept.ite_apply] at h
      split at h
      · rename_i hb
        replace h := StateExcept.bind_eq_ok.mp h
        obtain ⟨t, it₂, hnext, h⟩ := h
        have hsep := lex_take_ok (u := .itemSeparator) hpeek hnext (by rw [hb]; rfl)
        obtain ⟨pairs, trail, hpairs, hrest⟩ := ih h
        cases pairs with
        | nil => exact ⟨[], trail + 1, trivial, hsep.append hrest⟩
        | cons p pairs => exact ⟨(p.1 + 1, p.2) :: pairs, trail, hpairs, hsep.append hrest⟩
      · replace h := StateExcept.bind_eq_ok.mp h
        obtain ⟨_, it₂, hkey, h⟩ := h
        replace h := StateExcept.bind_eq_ok.mp h
        obtain ⟨_, it₃, hrun, h⟩ := h
        obtain ⟨s, hkey⟩ := scanKey_ok hkey
        obtain ⟨d, hd, hlex⟩ := htree _ _ hrun
        obtain ⟨pairs, trail, hpairs, hrest⟩ := ih h
        cases lex_peek_ok hpeek
        refine ⟨(0, s, d) :: pairs, trail, ⟨hd, hpairs⟩, ?_⟩
        have := (Lexes.of_skipIgnored hkey).append (hlex.append hrest)
        simpa [pairsToks, seps] using this

theorem scanObject_ok {tree : Nat → LexM Unit} {t : Token} {it₀ : YsonIterator}
    (htree : TreeAccepts (depth + 1) (tree (depth + 1))) (hdepth : depth ≤ MAX_DEPTH)
    (htok : Lexes it₀ [t] it) (h : scanObject tree fuel depth t it = .ok ((), it')) :
    ∃ d : Doc, d.Scans MAX_DEPTH depth ∧ d.isAttributed = false ∧ Lexes it₀ d.toks it' := by
  have hscalar : ∀ s : Scalar, s.token = t → it' = it →
      ∃ d : Doc, d.Scans MAX_DEPTH depth ∧ d.isAttributed = false ∧ Lexes it₀ d.toks it' := by
    rintro s rfl rfl
    exact ⟨.scalar s, hdepth, rfl, htok⟩
  cases t with
  | string s => cases h; exact hscalar (.string s) rfl rfl
  | int64 s => cases h; exact hscalar (.int64 s) rfl rfl
  | uint64 s => cases h; exact hscalar (.uint64 s) rfl rfl
  | double s => cases h; exact hscalar (.double s) rfl rfl
  | boolean s => cases h; exact hscalar (.boolean s) rfl rfl
  | entity => cases h; exact ⟨.entity, hdepth, rfl, htok⟩
  | beginList =>
    replace h := StateExcept.bind_eq_ok.mp h
    obtain ⟨_, it₁, hcheck, h⟩ := h
    obtain ⟨hle, rfl⟩ := checkDepth_ok hcheck
    obtain ⟨items, trail, hitems, hrest⟩ := scanListLoop_ok htree h
    refine ⟨.list items trail, ⟨hle, hitems⟩, rfl, ?_⟩
    rw [Doc.toks]
    exact htok.append hrest
  | beginMap =>
    replace h := StateExcept.bind_eq_ok.mp h
    obtain ⟨_, it₁, hcheck, h⟩ := h
    obtain ⟨hle, rfl⟩ := checkDepth_ok hcheck
    obtain ⟨pairs, trail, hpairs, hrest⟩ := scanFragmentLoop_ok htree h
    refine ⟨.map pairs trail, ⟨hle, hpairs⟩, rfl, ?_⟩
    rw [Doc.toks]
    exact htok.append hrest
  | beginAttributes | endAttributes | endList | endMap | keyValueSeparator | itemSeparator => cases h

/-- **What the scanner delimits is a document.** -/
theorem scanTree_ok (fuel : Nat) : ∀ depth, TreeAccepts depth (scanTree fuel depth) := by
  induction fuel with
  | zero =>
    intro depth it it' h
    cases h
  | succ fuel ih =>
    intro depth it it' h
    replace h := StateExcept.bind_eq_ok.mp h
    obtain ⟨_, it₁, hcheck, h⟩ := h
    obtain ⟨hdepth, rfl⟩ := checkDepth_ok hcheck
    replace h := StateExcept.bind_eq_ok.mp h
    obtain ⟨t, it₂, hnext, h⟩ := h
    rw [StateExcept.ite_apply] at h
    split at h
    · rename_i ht
      subst ht
      replace h := StateExcept.bind_eq_ok.mp h
      obtain ⟨_, it₃, hfrag, h⟩ := h
      replace hfrag := StateExcept.bind_eq_ok.mp hfrag
      obtain ⟨_, it₄, hcheck', hfrag⟩ := hfrag
      obtain ⟨hle, rfl⟩ := checkDepth_ok hcheck'
      obtain ⟨pairs, trail, hpairs, hrest⟩ := scanFragmentLoop_ok (ih (depth + 1)) hfrag
      replace h := StateExcept.bind_eq_ok.mp h
      obtain ⟨u, it₅, hnext', h⟩ := h
      obtain ⟨body, hbody, hplain, hlex⟩ :=
        scanObject_ok (ih (depth + 1)) hdepth (.single hnext') h
      refine ⟨.attributed pairs trail body, ⟨⟨hle, hpairs⟩, hplain, hbody⟩, ?_⟩
      have := (Lexes.single hnext).append (hrest.append hlex)
      simpa [Doc.toks, Fragment.endTok] using this
    · obtain ⟨d, hd, _, hlex⟩ := scanObject_ok (ih (depth + 1)) hdepth (.single hnext) h
      exact ⟨d, hd, hlex⟩

/-! ## A document is scanned -/

/-- `tree` goes over document `d`. -/
def TreeReads (tree : LexM Unit) (d : Doc) : Prop :=
  ∀ it it', Lexes it d.toks it' → tree it = .ok ((), it')

theorem scanListLoop_sep (tree : LexM Unit) (fuel : Nat) {ts : List Token}
    (h : Lexes it (.itemSeparator :: ts) it') :
    ∃ it₁, scanListLoop tree (fuel + 1) it = scanListLoop tree fuel it₁ ∧ Lexes it₁ ts it' := by
  obtain ⟨b, it₁, hpeek, hlead, hnext, hrest⟩ := lex_peek_next h
  have hb : b = 0x3B := (hlead.eq_iff (u := .itemSeparator) rfl).mpr rfl
  refine ⟨it₁, ?_, hrest⟩
  rw [scanListLoop, StateExcept.bind_ok hpeek]
  rw [StateExcept.ite_apply, if_neg (by rw [hb]; decide), StateExcept.ite_apply, if_pos hb,
    StateExcept.bind_ok hnext]

theorem scanListLoop_reads {tree : LexM Unit} {items : List (Nat × Doc)} {trail : Nat}
    (hitems : ∀ p ∈ items, TreeReads tree p.2)
    (hfuel : (itemsToks items ++ (seps trail ++ [Token.endList])).length ≤ fuel)
    (h : Lexes it (itemsToks items ++ (seps trail ++ [.endList])) it') :
    scanListLoop tree fuel it = .ok ((), it') := by
  -- one round of the loop takes one separator, one item or the bracket
  induction fuel generalizing it items trail with
  | zero => simp at hfuel
  | succ fuel ih =>
    cases items with
    | nil =>
      cases trail with
      | zero =>
        obtain ⟨b, it₁, hpeek, hlead, hnext, hrest⟩ := lex_peek_next h
        cases Lexes.nil_iff.mp hrest
        rw [scanListLoop, StateExcept.bind_ok hpeek]
        rw [StateExcept.ite_apply, if_pos ((hlead.eq_iff (u := .endList) rfl).mpr rfl),
          StateExcept.bind_ok hnext]
        rfl
      | succ trail =>
        obtain ⟨it₁, hstep, hrest⟩ := scanListLoop_sep tree fuel h
        rw [hstep]
        exact ih hitems (by simpa [itemsToks, seps] using hfuel) hrest
    | cons p items =>
      obtain ⟨n, d⟩ := p
      cases n with
      | zero =>
        rw [itemsToks, seps_zero, List.nil_append, List.append_assoc] at h
        obtain ⟨it₁, hd, hrest⟩ := Lexes.append_iff.mp h
        obtain ⟨t, ts, htoks, ht⟩ := d.toks_head
        have hlex := hd
        rw [htoks] at hlex
        obtain ⟨b, it₂, hpeek, hlead, _, _⟩ := lex_peek_next hlex
        have hend : b ≠ 0x5D := fun hb => by
          rw [(hlead.eq_iff (u := .endList) rfl).mp hb] at ht
          cases ht
        have hsep : b ≠ 0x3B := fun hb => by
          rw [(hlead.eq_iff (u := .itemSeparator) rfl).mp hb] at ht
          cases ht
        have htree : tree it.skipIgnored = .ok ((), it₁) := by
          refine hitems _ List.mem_cons_self _ _ ?_
          rw [htoks]
          exact hlex.skipIgnored
        rw [scanListLoop, StateExcept.bind_ok hpeek]
        rw [StateExcept.ite_apply, if_neg hend, StateExcept.ite_apply, if_neg hsep,
          StateExcept.bind_ok htree]
        refine ih (fun p hp => hitems p (List.mem_cons_of_mem _ hp)) ?_ hrest
        have := d.toks_length_pos
        simp only [itemsToks, seps_zero, List.nil_append, List.length_append] at hfuel ⊢
        omega
      | succ n =>
        obtain ⟨it₁, hstep, hrest⟩ := scanListLoop_sep tree fuel h
        rw [hstep]
        refine ih ?_ ?_
          (show Lexes it₁ (itemsToks ((n, d) :: items) ++ (seps trail ++ [.endList])) it' from hrest)
        · intro p hp
          rcases List.mem_cons.mp hp with rfl | hp
          · exact hitems (n + 1, d) List.mem_cons_self
          · exact hitems p (List.mem_cons_of_mem _ hp)
        · simpa [itemsToks, seps_succ] using hfuel

theorem scanFragmentLoop_sep (tree : LexM Unit) (frag : Fragment) (fuel : Nat)
    {ts : List Token}
    (h : Lexes it (.itemSeparator :: ts) it') :
    ∃ it₁, scanFragmentLoop tree frag (fuel + 1) it = scanFragmentLoop tree frag fuel it₁ ∧
      Lexes it₁ ts it' := by
  obtain ⟨b, it₁, hpeek, hlead, hnext, hrest⟩ := lex_peek_next h
  have hb : b = 0x3B := (hlead.eq_iff (u := .itemSeparator) rfl).mpr rfl
  have hend : b ≠ frag.endByte := by cases frag <;> (rw [hb]; decide)
  refine ⟨it₁, ?_, hrest⟩
  rw [scanFragmentLoop, StateExcept.bind_ok hpeek]
  rw [StateExcept.ite_apply, if_neg hend, StateExcept.ite_apply, if_pos hb, StateExcept.bind_ok hnext]

theorem scanKey_reads {k : List UInt8} {ts : List Token}
    (h : Lexes it (.string k :: .keyValueSeparator :: ts) it') :
    ∃ it₁, scanKey it = .ok ((), it₁) ∧ Lexes it₁ ts it' := by
  obtain ⟨it₁, hkey, hrest⟩ := Lexes.cons_iff.mp h
  obtain ⟨it₂, heq, hrest⟩ := Lexes.cons_iff.mp hrest
  refine ⟨it₂, ?_, hrest⟩
  rw [scanKey, StateExcept.bind_ok hkey]
  exact StateExcept.bind_ok heq

theorem scanFragmentLoop_reads {tree : LexM Unit} {frag : Fragment}
    {pairs : List (Nat × List UInt8 × Doc)} {trail : Nat}
    (hpairs : ∀ p ∈ pairs, TreeReads tree p.2.2)
    (hfuel : (pairsToks pairs ++ (seps trail ++ [frag.endTok])).length ≤ fuel)
    (h : Lexes it (pairsToks pairs ++ (seps trail ++ [frag.endTok])) it') :
    scanFragmentLoop tree frag fuel it = .ok ((), it') := by
  induction fuel generalizing it pairs trail with
  | zero => simp at hfuel
  | succ fuel ih =>
    cases pairs with
    | nil =>
      cases trail with
      | zero =>
        obtain ⟨b, it₁, hpeek, hlead, hnext, hrest⟩ := lex_peek_next h
        cases Lexes.nil_iff.mp hrest
        rw [scanFragmentLoop, StateExcept.bind_ok hpeek]
        rw [StateExcept.ite_apply, if_pos ((hlead.eq_iff frag.endTok_lead).mpr rfl),
          StateExcept.bind_ok hnext]
        rfl
      | succ trail =>
        obtain ⟨it₁, hstep, hrest⟩ := scanFragmentLoop_sep tree frag fuel h
        rw [hstep]
        exact ih hpairs (by simpa [pairsToks, seps] using hfuel) hrest
    | cons p pairs =>
      obtain ⟨n, k, d⟩ := p
      cases n with
      | zero =>
        simp only [pairsToks, seps_zero, List.nil_append, List.append_assoc, List.cons_append] at h
        obtain ⟨b, it₂, hpeek, hlead, _, _⟩ := lex_peek_next h
        have hend : b ≠ frag.endByte := fun hb => by
          have := (hlead.eq_iff frag.endTok_lead).mp hb
          cases frag <;> cases this
        have hsep : b ≠ 0x3B := fun hb => by cases (hlead.eq_iff (u := .itemSeparator) rfl).mp hb
        obtain ⟨it₃, hkey, hrest⟩ := scanKey_reads h.skipIgnored
        obtain ⟨it₄, hd, hrest⟩ := Lexes.append_iff.mp hrest
        have htree : tree it₃ = .ok ((), it₄) := hpairs _ List.mem_cons_self _ _ hd
        rw [scanFragmentLoop, StateExcept.bind_ok hpeek]
        rw [StateExcept.ite_apply, if_neg hend, StateExcept.ite_apply, if_neg hsep,
          StateExcept.bind_ok hkey, StateExcept.bind_ok htree]
        refine ih (fun p hp => hpairs p (List.mem_cons_of_mem _ hp)) ?_ hrest
        simp only [pairsToks, seps_zero, List.nil_append, List.length_append,
          List.length_cons] at hfuel ⊢
        omega
      | succ n =>
        obtain ⟨it₁, hstep, hrest⟩ := scanFragmentLoop_sep tree frag fuel h
        rw [hstep]
        refine ih ?_ ?_
          (show Lexes it₁ (pairsToks ((n, k, d) :: pairs) ++ (seps trail ++ [frag.endTok])) it'
            from hrest)
        · intro p hp
          rcases List.mem_cons.mp hp with rfl | hp
          · exact hpairs (n + 1, k, d) List.mem_cons_self
          · exact hpairs p (List.mem_cons_of_mem _ hp)
        · simpa [pairsToks, seps_succ] using hfuel

/-- The part of a document behind its attributes, from its first token on. -/
theorem scanObject_reads (tree : Nat → LexM Unit) (fuel : Nat) {d : Doc} (hd : d.Scans MAX_DEPTH depth)
    (hplain : d.isAttributed = false) (hfuel : d.toks.length ≤ fuel + 1)
    (htree : ∀ d' : Doc, d'.toks.length < d.toks.length → d'.Scans MAX_DEPTH (depth + 1) →
      TreeReads (tree (depth + 1)) d')
    (h : Lexes it d.toks it') :
    ∃ t it₁, nextToken it = .ok (t, it₁) ∧ t ≠ .beginAttributes ∧
      scanObject tree fuel depth t it₁ = .ok ((), it') := by
  cases d with
  | scalar s =>
    obtain ⟨it₁, hnext, hrest⟩ := Lexes.cons_iff.mp h
    cases Lexes.nil_iff.mp hrest
    exact ⟨s.token, it', hnext, by cases s <;> simp [Scalar.token], by cases s <;> rfl⟩
  | entity =>
    obtain ⟨it₁, hnext, hrest⟩ := Lexes.cons_iff.mp h
    cases Lexes.nil_iff.mp hrest
    exact ⟨.entity, it', hnext, by decide, rfl⟩
  | list items trail =>
    rw [Doc.toks] at h
    obtain ⟨it₁, hnext, hrest⟩ := Lexes.cons_iff.mp h
    refine ⟨.beginList, it₁, hnext, by decide, ?_⟩
    show scanList (tree (depth + 1)) fuel (depth + 1) it₁ = _
    rw [scanList, StateExcept.bind_ok (checkDepth_le hd.1 it₁)]
    refine scanListLoop_reads (fun p hp => htree p.2 ?_ (mem_itemsScan hd.2 p hp)) ?_ hrest
    · have := mem_items_length hp
      simp only [Doc.toks, List.length_cons, List.length_append]
      omega
    · simp only [Doc.toks, List.length_cons] at hfuel
      omega
  | map pairs trail =>
    rw [Doc.toks] at h
    obtain ⟨it₁, hnext, hrest⟩ := Lexes.cons_iff.mp h
    refine ⟨.beginMap, it₁, hnext, by decide, ?_⟩
    show scanFragment (tree (depth + 1)) fuel (depth + 1) .map it₁ = _
    rw [scanFragment, StateExcept.bind_ok (checkDepth_le hd.1 it₁)]
    refine scanFragmentLoop_reads (fun p hp => htree p.2.2 ?_ (mem_pairsScan hd.2 p hp)) ?_ hrest
    · have := mem_pairs_length hp
      simp only [Doc.toks, List.length_cons, List.length_append]
      omega
    · simp only [Doc.toks, List.length_cons] at hfuel
      exact Nat.le_of_succ_le_succ hfuel
  | attributed pairs trail body => cases hplain

/-- **A document that scans is delimited.** -/
theorem scanTree_reads (d : Doc) : ∀ (fuel depth : Nat), d.Scans MAX_DEPTH depth →
    d.toks.length ≤ fuel → TreeReads (scanTree fuel depth) d := by
  induction hn : d.toks.length using Nat.strongRecOn generalizing d with
  | ind n ih =>
  subst hn
  intro fuel depth hd hfuel it it' hlex
  obtain ⟨fuel, rfl⟩ : ∃ m, fuel = m + 1 := ⟨fuel - 1, by have := d.toks_length_pos; omega⟩
  have hchild : ∀ d' : Doc, d'.toks.length < d.toks.length → d'.Scans MAX_DEPTH (depth + 1) →
      TreeReads (scanTree fuel (depth + 1)) d' :=
    fun d' hlt hd' => ih _ hlt d' rfl fuel (depth + 1) hd' (by omega)
  rw [scanTree, StateExcept.bind_ok (checkDepth_le hd.depth_le it)]
  cases hplain : d.isAttributed with
  | false =>
    obtain ⟨t, it₁, hnext, ht, hrun⟩ := scanObject_reads _ _ hd hplain hfuel hchild hlex
    rw [StateExcept.bind_ok hnext, StateExcept.ite_apply, if_neg ht]
    exact hrun
  | true =>
    cases d with
    | attributed pairs trail body =>
      obtain ⟨⟨hle, hpairs⟩, hbody, hscan⟩ := hd
      have hsplit : Lexes it (.beginAttributes :: ((pairsToks pairs ++ (seps trail ++
          [Fragment.attributes.endTok])) ++ body.toks)) it' := by
        simpa [Doc.toks, Fragment.endTok] using hlex
      obtain ⟨it₁, hnext, hrest⟩ := Lexes.cons_iff.mp hsplit
      obtain ⟨it₂, hfrag, hbodylex⟩ := Lexes.append_iff.mp hrest
      have hlen : (pairsToks pairs ++ (seps trail ++ [Fragment.attributes.endTok])).length
          + body.toks.length ≤ fuel := by
        simp only [Doc.toks, Fragment.endTok, List.length_cons, List.length_append,
          List.length_nil] at hfuel ⊢
        omega
      have hrun : scanFragment (scanTree fuel (depth + 1)) fuel (depth + 1) .attributes it₁
          = .ok ((), it₂) := by
        rw [scanFragment, StateExcept.bind_ok (checkDepth_le hle it₁)]
        refine scanFragmentLoop_reads (fun p hp => hchild p.2.2 ?_ (mem_pairsScan hpairs p hp))
          (by omega) hfrag
        have := mem_pairs_length hp
        simp only [Doc.toks, List.length_cons, List.length_append]
        omega
      obtain ⟨t, it₃, hnext', _, hobj⟩ := scanObject_reads (scanTree fuel) fuel hscan
        hbody (by omega) (fun d' hlt hd' => hchild d' (by
          simp only [Doc.toks, List.length_cons, List.length_append]
          omega) hd') hbodylex
      rw [StateExcept.bind_ok hnext, StateExcept.ite_apply, if_pos rfl, StateExcept.bind_ok hrun,
        StateExcept.bind_ok hnext']
      exact hobj
    | _ => cases hplain

/-- **The scanner delimits exactly the documents that scan.** -/
theorem scanValue_complete_iff {bytes : List UInt8} {f : YsonFormat} {len : Nat} :
    scanValue bytes f = .ok (.complete len) ↔
      ∃ (d : Doc) (it : YsonIterator), d.Scans MAX_DEPTH 0 ∧
        Lexes (.new bytes f.isBinary) d.toks it ∧ it.pos = len := by
  constructor
  · intro h
    rw [scanValue] at h
    split at h
    · rename_i it hrun
      cases h
      obtain ⟨d, hd, hlex⟩ := scanTree_ok _ _ _ _ hrun
      exact ⟨d, it, hd, hlex, rfl⟩
    · split at h <;> cases h
  · rintro ⟨d, it, hd, hlex, rfl⟩
    have hlen : d.toks.length ≤ bytes.length + 1 := by
      have := hlex.length_le
      simp only [YsonIterator.new] at this
      omega
    rw [scanValue, scanTree_reads d _ 0 hd hlen _ _ hlex]

end Ytsaurus.Yson
