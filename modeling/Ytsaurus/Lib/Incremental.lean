import Mathlib.Data.List.Basic

/-!
# `Lib/Incremental.lean` — decoding from a buffer that grows

A decoder for a stream of items looks at the front of a buffer. It takes an item off it, or
says that there is not yet a whole one and leaves the buffer alone, or fails. `Decodes` is
what such a decoder has to do with the encodings of single items; the rest of this file is
what follows for a stream of them that arrives in pieces, whatever the pieces are and
whenever the decoder is called.
-/

set_option autoImplicit false

namespace Incremental

variable {α β ε : Type}

/-- What a decoder is: an answer, and the buffer it leaves. -/
abbrev Decoder (α β ε : Type) := List α → Except ε (Option β) × List α

/-- The encodings of these items, one behind the other. -/
def encodeAll (encode : β → List α) (items : List β) : List α := (items.map encode).flatten

/-- The decoder takes the encoding of an item off the front of a buffer as soon as all of it
is there, and waits until then. -/
structure Decodes (decode : Decoder α β ε) (encode : β → List α) (valid : β → Prop) :
    Prop where
  empty : decode [] = (.ok none, [])
  complete : ∀ {b : β}, valid b → ∀ rest, decode (encode b ++ rest) = (.ok (some b), rest)
  short : ∀ {b : β}, valid b → ∀ {buffer more rest : List α}, buffer.length < (encode b).length →
    buffer ++ more = encode b ++ rest → decode buffer = (.ok none, buffer)

variable {decode : Decoder α β ε} {encode : β → List α} {valid : β → Prop}

/-- A beginning of the whole that is there is a beginning of the buffer. -/
theorem split_front {buffer more front rest : List α} (hlength : front.length ≤ buffer.length)
    (h : buffer ++ more = front ++ rest) : ∃ behind, buffer = front ++ behind ∧
      behind ++ more = rest := by
  have hfront : front <+: buffer ++ more := ⟨rest, h.symm⟩
  have hbuffer : buffer <+: buffer ++ more := List.prefix_append _ _
  obtain ⟨behind, rfl⟩ := List.prefix_of_prefix_length_le hfront hbuffer hlength
  rw [List.append_assoc] at h
  exact ⟨behind, rfl, List.append_cancel_left h⟩

/-- The first item of a stream of which the buffer holds a part. -/
inductive Front (decode : Decoder α β ε) (encode : β → List α) (buffer more : List α) :
    List β → Prop
  | finished (hbuffer : buffer = []) (h : decode buffer = (.ok none, buffer)) :
      Front decode encode buffer more []
  | waits {b : β} {items : List β} (hshort : buffer.length < (encode b).length)
      (h : decode buffer = (.ok none, buffer)) : Front decode encode buffer more (b :: items)
  | takes {b : β} {items : List β} {buffer' : List α}
      (h : decode buffer = (.ok (some b), buffer'))
      (hrest : buffer' ++ more = encodeAll encode items) :
      Front decode encode buffer more (b :: items)

/-- **What a call does with a part of the stream.** -/
theorem Decodes.front (h : Decodes decode encode valid) {items : List β}
    (hvalid : ∀ b ∈ items, valid b) {buffer more : List α}
    (hstream : buffer ++ more = encodeAll encode items) : Front decode encode buffer more items := by
  cases items with
  | nil =>
    obtain ⟨rfl, _⟩ := List.append_eq_nil_iff.mp hstream
    exact .finished rfl h.empty
  | cons b items =>
    have hb := hvalid b List.mem_cons_self
    have hsplit : buffer ++ more = encode b ++ encodeAll encode items := hstream
    by_cases hshort : buffer.length < (encode b).length
    · exact .waits hshort (h.short hb hshort hsplit)
    · obtain ⟨behind, rfl, hbehind⟩ := split_front (Nat.not_lt.mp hshort) hsplit
      exact .takes (h.complete hb behind) hbehind

/-! ## Any order of arrivals and calls -/

/-- The buffer, the pieces still to come and the items taken so far, after any order of
arrivals and of calls that did not fail. -/
inductive Reaches (decode : Decoder α β ε) (pieces : List (List α)) :
    List α → List (List α) → List β → Prop
  | start : Reaches decode pieces [] pieces []
  | arrives {buffer piece : List α} {coming : List (List α)} {taken : List β}
      (h : Reaches decode pieces buffer (piece :: coming) taken) :
      Reaches decode pieces (buffer ++ piece) coming taken
  | waits {buffer buffer' : List α} {coming : List (List α)} {taken : List β}
      (h : Reaches decode pieces buffer coming taken)
      (hcall : decode buffer = (.ok none, buffer')) : Reaches decode pieces buffer' coming taken
  | takes {buffer buffer' : List α} {coming : List (List α)} {taken : List β} {b : β}
      (h : Reaches decode pieces buffer coming taken)
      (hcall : decode buffer = (.ok (some b), buffer')) :
      Reaches decode pieces buffer' coming (taken ++ [b])

/-- What was taken is a beginning of the items, and the rest of them is in the buffer and in
the pieces to come. -/
theorem Decodes.split (h : Decodes decode encode valid) {items : List β}
    (hvalid : ∀ b ∈ items, valid b) {pieces : List (List α)}
    (hpieces : pieces.flatten = encodeAll encode items) {buffer : List α}
    {coming : List (List α)} {taken : List β} (hreach : Reaches decode pieces buffer coming taken) :
    ∃ rest, items = taken ++ rest ∧ buffer ++ coming.flatten = encodeAll encode rest := by
  induction hreach with
  | start => exact ⟨items, rfl, hpieces⟩
  | arrives _ ih =>
    obtain ⟨rest, hitems, hstream⟩ := ih
    refine ⟨rest, hitems, ?_⟩
    rw [← hstream, List.flatten_cons, List.append_assoc]
  | waits _ hcall ih =>
    obtain ⟨rest, hitems, hstream⟩ := ih
    have hrest : ∀ b ∈ rest, valid b := fun b hb =>
      hvalid b (hitems ▸ List.mem_append_right _ hb)
    refine ⟨rest, hitems, ?_⟩
    cases h.front hrest hstream with
    | finished _ hfront =>
      cases hcall.symm.trans hfront
      exact hstream
    | waits _ hfront =>
      cases hcall.symm.trans hfront
      exact hstream
    | takes hfront _ => cases hcall.symm.trans hfront
  | takes _ hcall ih =>
    obtain ⟨rest, hitems, hstream⟩ := ih
    have hrest : ∀ b ∈ rest, valid b := fun b hb =>
      hvalid b (hitems ▸ List.mem_append_right _ hb)
    cases h.front hrest hstream with
    | finished _ hfront => cases hcall.symm.trans hfront
    | waits _ hfront => cases hcall.symm.trans hfront
    | takes hfront hmore =>
      cases hcall.symm.trans hfront
      refine ⟨_, ?_, hmore⟩
      rw [hitems, List.append_assoc]
      rfl

/-- **No order of arrivals and calls makes a difference**: a call does not fail, what was
taken is a beginning of the items, and it is all of them once everything has arrived and a
call finds nothing more. -/
theorem Decodes.any_order (h : Decodes decode encode valid) {items : List β}
    (hvalid : ∀ b ∈ items, valid b) {pieces : List (List α)}
    (hpieces : pieces.flatten = encodeAll encode items) {buffer : List α}
    {coming : List (List α)} {taken : List β} (hreach : Reaches decode pieces buffer coming taken) :
    taken <+: items ∧ (∃ found buffer', decode buffer = (.ok found, buffer')) ∧
      (coming = [] → (decode buffer).1 = .ok none → taken = items ∧ buffer = []) := by
  obtain ⟨rest, rfl, hstream⟩ := h.split hvalid hpieces hreach
  have hrest : ∀ b ∈ rest, valid b := fun b hb => hvalid b (List.mem_append_right _ hb)
  refine ⟨List.prefix_append _ _, ?_, ?_⟩
  · cases h.front hrest hstream with
    | finished _ hfront => exact ⟨_, _, hfront⟩
    | waits _ hfront => exact ⟨_, _, hfront⟩
    | takes hfront _ => exact ⟨_, _, hfront⟩
  · intro hcoming hnone
    subst hcoming
    cases h.front hrest hstream with
    | finished hbuffer _ => exact ⟨(List.append_nil _).symm, hbuffer⟩
    | @waits b more hshort _ =>
      -- Everything has arrived, so the buffer is not shorter than the next item.
      have hlength := congrArg List.length hstream
      rw [List.flatten_nil, List.append_nil, encodeAll, List.map_cons, List.flatten_cons,
        List.length_append] at hlength
      omega
    | takes hfront _ =>
      rw [hfront] at hnone
      cases hnone

/-! ## A call after every arrival -/

/-- Calls until one finds nothing. -/
inductive Takes (decode : Decoder α β ε) : List α → List β → List α → Prop
  | stops {buffer buffer' : List α} (h : decode buffer = (.ok none, buffer')) :
      Takes decode buffer [] buffer'
  | takes {buffer buffer' final : List α} {b : β} {items : List β}
      (h : decode buffer = (.ok (some b), buffer')) (hrest : Takes decode buffer' items final) :
      Takes decode buffer (b :: items) final

/-- Pieces arrive one after another, and after each the decoder is called until it finds
nothing. -/
inductive Feeds (decode : Decoder α β ε) : List α → List (List α) → List β → List α → Prop
  | nil {buffer : List α} : Feeds decode buffer [] [] buffer
  | cons {buffer piece buffer' final : List α} {pieces : List (List α)} {items more : List β}
      (h : Takes decode (buffer ++ piece) items buffer')
      (hrest : Feeds decode buffer' pieces more final) :
      Feeds decode buffer (piece :: pieces) (items ++ more) final

/-- The items of which the whole encoding is in the buffer are taken. -/
theorem Decodes.takes (h : Decodes decode encode valid) {items : List β}
    (hvalid : ∀ b ∈ items, valid b) {buffer more : List α}
    (hstream : buffer ++ more = encodeAll encode items) :
    ∃ taken rest buffer', items = taken ++ rest ∧ Takes decode buffer taken buffer' ∧
      buffer' ++ more = encodeAll encode rest ∧ (more = [] → rest = [] ∧ buffer' = []) := by
  induction items generalizing buffer with
  | nil =>
    cases h.front hvalid hstream with
    | finished hbuffer hfront =>
      exact ⟨[], [], buffer, rfl, .stops hfront, hstream, fun _ => ⟨rfl, hbuffer⟩⟩
  | cons b items ih =>
    cases h.front hvalid hstream with
    | waits hshort hfront =>
      refine ⟨[], b :: items, buffer, rfl, .stops hfront, hstream, ?_⟩
      intro hmore
      have hlength := congrArg List.length hstream
      rw [hmore, List.append_nil, encodeAll, List.map_cons, List.flatten_cons,
        List.length_append] at hlength
      omega
    | takes hfront hrest =>
      have hothers : ∀ b ∈ items, valid b := fun b hb => hvalid b (List.mem_cons_of_mem _ hb)
      obtain ⟨taken, rest, buffer', hitems, htakes, hstream', hend⟩ := ih hothers hrest
      exact ⟨b :: taken, rest, buffer', by rw [hitems]; rfl, .takes hfront htakes, hstream', hend⟩

/-- **A stream yields its items however it is cut into pieces.** -/
theorem Decodes.feeds (h : Decodes decode encode valid) {items : List β}
    (hvalid : ∀ b ∈ items, valid b) {pieces : List (List α)} {buffer : List α}
    (hstream : buffer ++ pieces.flatten = encodeAll encode items)
    (hend : pieces = [] → items = [] ∧ buffer = []) : Feeds decode buffer pieces items [] := by
  induction pieces generalizing buffer items with
  | nil =>
    obtain ⟨rfl, rfl⟩ := hend rfl
    exact .nil
  | cons piece pieces ih =>
    rw [List.flatten_cons, ← List.append_assoc] at hstream
    obtain ⟨taken, rest, buffer', rfl, htakes, hrest, hmore⟩ := h.takes hvalid hstream
    refine .cons htakes (ih (fun b hb => hvalid b (List.mem_append_right _ hb)) hrest ?_)
    intro hlast
    exact hmore (by rw [hlast]; rfl)

/-- An item has an encoding that is not empty: the decoder finds nothing in an empty buffer. -/
theorem Decodes.encode_ne_nil (h : Decodes decode encode valid) {b : β} (hb : valid b) :
    encode b ≠ [] := by
  intro hempty
  have hfound := h.complete hb []
  rw [hempty, List.append_nil, h.empty] at hfound
  cases hfound

theorem Decodes.feeds_all (h : Decodes decode encode valid) {items : List β}
    (hvalid : ∀ b ∈ items, valid b) {pieces : List (List α)}
    (hpieces : pieces.flatten = encodeAll encode items) : Feeds decode [] pieces items [] := by
  apply h.feeds hvalid hpieces
  intro hnone
  rw [hnone] at hpieces
  cases items with
  | nil => exact ⟨rfl, rfl⟩
  | cons b items =>
    have hempty : encode b ++ encodeAll encode items = [] := hpieces.symm
    exact absurd (List.append_eq_nil_iff.mp hempty).1
      (h.encode_ne_nil (hvalid b List.mem_cons_self))

end Incremental
