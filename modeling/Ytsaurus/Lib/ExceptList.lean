import Mathlib.Data.List.Forall2

/-!
# `Lib/ExceptList.lean` — computations that can fail

A mapped computation succeeds when the computation does (`map_eq_ok`).
`List.mapM` in `Except` succeeds when every element does and then gives the results in
order (`mapM_ok_iff`); otherwise it fails with the error of some element (`mapM_error`).
-/

set_option autoImplicit false

namespace ExceptList

variable {ε α β : Type} {f : α → Except ε β} {l : List α}

/-- A successful map was the image of a success. -/
theorem map_eq_ok {x : Except ε α} {g : α → β} {b : β} :
    x.map g = .ok b ↔ ∃ a, x = .ok a ∧ g a = b := by
  cases x <;> simp [Except.map]

theorem map_eq_error {x : Except ε α} {g : α → β} {e : ε} : x.map g = .error e ↔ x = .error e := by
  cases x <;> simp [Except.map]

/-- A successful sequence was two successes. -/
theorem bind_eq_ok {x : Except ε α} {g : α → Except ε β} {b : β} :
    (x >>= g) = .ok b ↔ ∃ a, x = .ok a ∧ g a = .ok b := by
  cases x <;> simp [bind, Except.bind]

/-- Success and failure, as far as they can be computed. -/
theorem exists_ok {x : Except ε α} (h : x.toBool) : ∃ a, x = .ok a := by
  cases x with
  | ok a => exact ⟨a, rfl⟩
  | error e => cases h

theorem exists_ok_and {x : Except ε α} {p : α → Prop} [DecidablePred p]
    (h : (match x with | .ok a => decide (p a) | .error _ => false) = true) :
    ∃ a, x = .ok a ∧ p a := by
  cases x with
  | ok a => exact ⟨a, rfl, of_decide_eq_true h⟩
  | error e => cases h

theorem not_exists_ok {x : Except ε α} (h : x.toBool = false) : ¬ ∃ a, x = .ok a := by
  rintro ⟨a, rfl⟩
  cases h

theorem mapM_ok_iff {bs : List β} :
    l.mapM f = .ok bs ↔ List.Forall₂ (fun a b => f a = .ok b) l bs := by
  induction l generalizing bs with
  | nil =>
    rw [List.mapM_nil, List.forall₂_nil_left_iff]
    exact ⟨fun h => (Except.ok.inj h).symm, fun h => h ▸ rfl⟩
  | cons a l ih =>
    rw [List.mapM_cons, List.forall₂_cons_left_iff]
    constructor
    · intro h
      cases ha : f a with
      | error e => simp [ha, bind, Except.bind] at h
      | ok b =>
        cases hl : l.mapM f with
        | error e => simp [ha, hl, bind, Except.bind] at h
        | ok bs' =>
          rw [ha, hl] at h
          exact ⟨b, bs', rfl, ih.mp hl, (Except.ok.inj h).symm⟩
    · rintro ⟨b, bs', ha, hl, rfl⟩
      rw [ha, ih.mpr hl]
      rfl

theorem mapM_error {e : ε} (h : l.mapM f = .error e) : ∃ a ∈ l, f a = .error e := by
  induction l with
  | nil => cases h
  | cons a l ih =>
    rw [List.mapM_cons] at h
    cases ha : f a with
    | error e' =>
      rw [ha] at h
      cases h
      exact ⟨a, List.mem_cons_self, ha⟩
    | ok b =>
      cases hl : l.mapM f with
      | error e' =>
        rw [ha, hl] at h
        cases h
        obtain ⟨a', ha', hf⟩ := ih hl
        exact ⟨a', List.mem_cons_of_mem _ ha', hf⟩
      | ok bs =>
        rw [ha, hl] at h
        cases h

/-- What holds pairwise relates every element of the first list to one of the second. -/
theorem forall₂_left {R : α → β → Prop} {bs : List β} (h : List.Forall₂ R l bs) :
    ∀ a ∈ l, ∃ b ∈ bs, R a b := by
  induction h with
  | nil => simp
  | cons hab _ ih =>
    intro a ha
    rcases List.mem_cons.mp ha with rfl | ha
    · exact ⟨_, List.mem_cons_self, hab⟩
    · obtain ⟨b, hb, hR⟩ := ih a ha
      exact ⟨b, List.mem_cons_of_mem _ hb, hR⟩

theorem forall₂_right {R : α → β → Prop} {bs : List β} (h : List.Forall₂ R l bs) :
    ∀ b ∈ bs, ∃ a ∈ l, R a b := by
  induction h with
  | nil => simp
  | cons hab _ ih =>
    intro b hb
    rcases List.mem_cons.mp hb with rfl | hb
    · exact ⟨_, List.mem_cons_self, hab⟩
    · obtain ⟨a, ha, hR⟩ := ih b hb
      exact ⟨a, List.mem_cons_of_mem _ ha, hR⟩

/-- Searches by corresponding properties find corresponding elements. -/
theorem forall₂_find? {R : α → β → Prop} {bs : List β} {p : α → Bool} {q : β → Bool}
    (hpq : ∀ a b, R a b → p a = q b) (h : List.Forall₂ R l bs) :
    Option.Rel R (l.find? p) (bs.find? q) := by
  induction h with
  | nil => exact .none
  | @cons a b l bs hab _ ih =>
    rw [List.find?_cons, List.find?_cons, hpq a b hab]
    cases q b with
    | true => exact .some hab
    | false => exact ih

theorem mapM_succeeds_iff : (∃ bs, l.mapM f = .ok bs) ↔ ∀ a ∈ l, ∃ b, f a = .ok b := by
  constructor
  · rintro ⟨bs, h⟩ a ha
    obtain ⟨b, _, hb⟩ := forall₂_left (mapM_ok_iff.mp h) a ha
    exact ⟨b, hb⟩
  · intro h
    cases hl : l.mapM f with
    | ok bs => exact ⟨bs, rfl⟩
    | error e =>
      obtain ⟨a, ha, herr⟩ := mapM_error hl
      obtain ⟨b, hb⟩ := h a ha
      rw [herr] at hb
      cases hb

/-- A reader that undoes the writer on every element undoes it on the list. -/
theorem mapM_map_ok {g : β → α} {bs : List β} (h : ∀ b ∈ bs, f (g b) = .ok b) :
    (bs.map g).mapM f = .ok bs := by
  rw [mapM_ok_iff, List.forall₂_map_left_iff, List.forall₂_same]
  exact h

theorem forM_eq_ok {g : α → Except ε Unit} : l.forM g = .ok () ↔ ∀ a ∈ l, g a = .ok () := by
  induction l with
  | nil =>
    constructor
    · intro _ a ha
      cases ha
    · intro _
      rfl
  | cons a l ih =>
    rw [List.forall_mem_cons]
    show (g a >>= fun _ => l.forM g) = .ok () ↔ _
    rw [bind_eq_ok]
    constructor
    · intro h
      obtain ⟨_, ha, hl⟩ := h
      exact ⟨ha, ih.mp hl⟩
    · intro h
      exact ⟨(), h.1, ih.mpr h.2⟩

end ExceptList
