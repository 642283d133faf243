import Mathlib.Data.List.Basic

/-!
# `Lib/Dialogue.lean` — programs that ask, and go on with the answer

A *script* is a program whose every effect is a question to somebody else: what it does next may
depend on the answers so far, and on nothing more. `Talk` relates a script to what can be said in
a run of it, whatever the other side answers, so a theorem about every talk is a theorem about
every environment. `play` is one environment, an answerer with a state of its own; what it comes
to is a talk (`talk_play`).

The rules take a talk apart along the script (`talk_bind_iff`, `talk_andThen_iff`), and carry a
condition on the questions (`Asks`) from the script to each of its talks. Several parties that
talk to one environment make a log; `own_evolves` reduces what it does to a part of the state to
the exchanges of the one party that touches that part.
-/

set_option autoImplicit false

namespace Dialogue

/-- A program that puts questions of type `Q`, gets answers of type `A` and comes to an `R`. -/
inductive Script (Q A R : Type) where
  | done (result : R)
  | ask (question : Q) (next : A → Script Q A R)

/-- A question with its answer. -/
abbrev Exchange (Q A : Type) := Q × A

namespace Script

variable {Q A R S ε σ : Type}

/-- One script behind the other. -/
def bind : Script Q A R → (R → Script Q A S) → Script Q A S
  | done r, f => f r
  | ask q next, f => ask q fun a => (next a).bind f

/-- `?`: goes on with what was returned, and ends with the error otherwise. -/
def andThen (p : Script Q A (Except ε R)) (f : R → Script Q A (Except ε S)) :
    Script Q A (Except ε S) :=
  p.bind fun result => match result with
    | .ok r => f r
    | .error e => done (.error e)

/-- The same script, with another result. -/
def map (f : R → S) (p : Script Q A R) : Script Q A S := p.bind fun r => done (f r)

/-- What an answerer with a state makes of a script: what was said, and what it came to. -/
def play (answer : σ → Q → A × σ) : Script Q A R → σ → List (Exchange Q A) × R × σ
  | done r, s => ([], r, s)
  | ask q next, s =>
    let answered := answer s q
    let rest := (next answered.1).play answer answered.2
    ((q, answered.1) :: rest.1, rest.2)

/-- Every question the script can come to meets a condition. -/
def Asks (ok : Q → Prop) : Script Q A R → Prop
  | done _ => True
  | ask q next => ok q ∧ ∀ a, (next a).Asks ok

end Script

open Script

variable {Q A R S ε σ : Type}

/-- What can be said in a run, in order, and what the run then comes to. -/
inductive Talk : Script Q A R → List (Exchange Q A) → R → Prop
  | done (r : R) : Talk (done r) [] r
  | ask {q : Q} {next : A → Script Q A R} {a : A} {said : List (Exchange Q A)} {r : R}
      (h : Talk (next a) said r) : Talk (ask q next) ((q, a) :: said) r

/-! ## Taking a talk apart -/

variable {p : Script Q A R} {said : List (Exchange Q A)} {r : R}

@[simp] theorem talk_done_iff {r' : R} :
    Talk (done r' : Script Q A R) said r ↔ said = [] ∧ r = r' := by
  constructor
  · intro h
    cases h
    exact ⟨rfl, rfl⟩
  · intro h
    obtain ⟨rfl, rfl⟩ := h
    exact .done r

theorem talk_ask_iff {q : Q} {next : A → Script Q A R} :
    Talk (ask q next) said r ↔ ∃ a rest, said = (q, a) :: rest ∧ Talk (next a) rest r := by
  constructor
  · intro h
    cases h with
    | ask h => exact ⟨_, _, rfl, h⟩
  · intro h
    obtain ⟨a, rest, rfl, h⟩ := h
    exact .ask h

/-- **What is said in two scripts, one behind the other, is what is said in each.** -/
theorem talk_bind_iff {f : R → Script Q A S} {s : S} :
    Talk (p.bind f) said s ↔
      ∃ front r back, said = front ++ back ∧ Talk p front r ∧ Talk (f r) back s := by
  constructor
  · intro h
    induction p generalizing said with
    | done r => exact ⟨[], r, said, rfl, .done r, h⟩
    | ask q next ih =>
      obtain ⟨a, rest, rfl, hrest⟩ := talk_ask_iff.mp h
      obtain ⟨front, r, back, rfl, hfront, hback⟩ := ih a hrest
      exact ⟨(q, a) :: front, r, back, rfl, .ask hfront, hback⟩
  · intro h
    obtain ⟨front, r, back, rfl, hfront, hback⟩ := h
    induction hfront with
    | done r => exact hback
    | ask _ ih => exact .ask (ih hback)

/-- A script that stops at the first error: it failed in front, or went on. -/
theorem talk_andThen_iff {p : Script Q A (Except ε R)} {f : R → Script Q A (Except ε S)}
    {s : Except ε S} :
    Talk (p.andThen f) said s ↔
      (∃ e, Talk p said (.error e) ∧ s = .error e) ∨
      ∃ front r back, said = front ++ back ∧ Talk p front (.ok r) ∧ Talk (f r) back s := by
  unfold andThen
  rw [talk_bind_iff]
  constructor
  · intro h
    obtain ⟨front, result, back, rfl, hfront, hback⟩ := h
    cases result with
    | error e =>
      obtain ⟨rfl, rfl⟩ := talk_done_iff.mp hback
      rw [List.append_nil]
      exact .inl ⟨e, hfront, rfl⟩
    | ok r => exact .inr ⟨front, r, back, rfl, hfront, hback⟩
  · intro h
    rcases h with ⟨e, h, rfl⟩ | ⟨front, r, back, rfl, hfront, hback⟩
    · exact ⟨said, .error e, [], (List.append_nil said).symm, h, .done _⟩
    · exact ⟨front, .ok r, back, rfl, hfront, hback⟩

theorem talk_map_iff {f : R → S} {s : S} :
    Talk (p.map f) said s ↔ ∃ r, Talk p said r ∧ s = f r := by
  unfold Script.map
  rw [talk_bind_iff]
  constructor
  · intro h
    obtain ⟨front, r, back, rfl, hfront, hback⟩ := h
    obtain ⟨rfl, rfl⟩ := talk_done_iff.mp hback
    rw [List.append_nil]
    exact ⟨r, hfront, rfl⟩
  · intro h
    obtain ⟨r, h, rfl⟩ := h
    exact ⟨said, r, [], (List.append_nil said).symm, h, .done _⟩

/-- **What an answerer makes of a script is a talk.** -/
theorem talk_play (answer : σ → Q → A × σ) (p : Script Q A R) (s : σ) :
    Talk p (p.play answer s).1 (p.play answer s).2.1 := by
  induction p generalizing s with
  | done r => exact .done r
  | ask q next ih => exact .ask (ih _ _)

/-! ## The questions of a script -/

theorem Script.asks_done (ok : Q → Prop) (r : R) : Asks ok (done r : Script Q A R) := trivial

theorem Script.Asks.bind {ok : Q → Prop} {f : R → Script Q A S} (h : p.Asks ok)
    (hf : ∀ r, (f r).Asks ok) : (p.bind f).Asks ok := by
  induction p with
  | done r => exact hf r
  | ask q next ih => exact ⟨h.1, fun a => ih a (h.2 a)⟩

theorem Script.Asks.andThen {ok : Q → Prop} {p : Script Q A (Except ε R)}
    {f : R → Script Q A (Except ε S)} (h : p.Asks ok) (hf : ∀ r, (f r).Asks ok) :
    (p.andThen f).Asks ok := by
  apply h.bind
  intro result
  cases result with
  | error e => exact asks_done ok _
  | ok r => exact hf r

theorem Script.Asks.mono {ok ok' : Q → Prop} (hok : ∀ q, ok q → ok' q) (h : p.Asks ok) :
    p.Asks ok' := by
  induction p with
  | done r => exact asks_done ok' r
  | ask q next ih => exact ⟨hok q h.1, fun a => ih a (h.2 a)⟩

/-- Each question put in a talk is one of the script's. -/
theorem Talk.asks {ok : Q → Prop} (h : Talk p said r) (hok : p.Asks ok) :
    ∀ exchange ∈ said, ok exchange.1 := by
  induction h with
  | done r =>
    intro exchange hmem
    cases hmem
  | ask _ ih =>
    intro exchange hmem
    rcases List.mem_cons.mp hmem with rfl | hmem
    · exact hok.1
    · exact ih (hok.2 _) exchange hmem

/-! ## Several parties and one environment -/

section

variable {ι X τ : Type}

/-- What one of the parties said and heard, out of the log of all of them. -/
def own [DecidableEq ι] (i : ι) : List (ι × X) → List X
  | [] => []
  | entry :: log => if entry.1 = i then entry.2 :: own i log else own i log

/-- What exchanges one after another make of a state, when each may have several effects. -/
inductive Evolves (effect : X → σ → σ → Prop) : List X → σ → σ → Prop
  | nil (s : σ) : Evolves effect [] s s
  | cons {x : X} {xs : List X} {s t u : σ} (hx : effect x s t) (h : Evolves effect xs t u) :
      Evolves effect (x :: xs) s u

variable {effect : X → σ → σ → Prop} {s u : σ}

theorem evolves_nil_iff : Evolves effect [] s u ↔ u = s := by
  constructor
  · intro h
    cases h
    rfl
  · intro h
    rw [h]
    exact .nil s

theorem evolves_cons_iff {x : X} {xs : List X} :
    Evolves effect (x :: xs) s u ↔ ∃ t, effect x s t ∧ Evolves effect xs t u := by
  constructor
  · intro h
    cases h with
    | cons hx h => exact ⟨_, hx, h⟩
  · intro h
    obtain ⟨t, hx, h⟩ := h
    exact .cons hx h

theorem evolves_append_iff {xs ys : List X} :
    Evolves effect (xs ++ ys) s u ↔ ∃ t, Evolves effect xs s t ∧ Evolves effect ys t u := by
  induction xs generalizing s with
  | nil => simp [evolves_nil_iff]
  | cons x xs ih =>
    simp only [List.cons_append, evolves_cons_iff, ih]
    constructor
    · intro h
      obtain ⟨t, hx, t', hxs, hys⟩ := h
      exact ⟨t', ⟨t, hx, hxs⟩, hys⟩
    · intro h
      obtain ⟨t', ⟨t, hx, hxs⟩, hys⟩ := h
      exact ⟨t, hx, t', hxs, hys⟩

/-- What each exchange leaves alone, all of them do. -/
theorem Evolves.unchanged {xs : List X} (h : Evolves effect xs s u)
    (hsame : ∀ x ∈ xs, ∀ s t, effect x s t → t = s) : u = s := by
  induction h with
  | nil s => rfl
  | @cons x xs s t u hx _ ih =>
    rw [ih fun y hy => hsame y (List.mem_cons_of_mem _ hy), hsame x List.mem_cons_self s t hx]

/-- One way to carry everything out, where each exchange has one. -/
theorem evolves_foldl {next : σ → X → σ} (hnext : ∀ s x, effect x s (next s x)) (xs : List X)
    (s : σ) : Evolves effect xs s (xs.foldl next s) := by
  induction xs generalizing s with
  | nil => exact .nil s
  | cons x xs ih => exact .cons (hnext s x) (ih _)

variable [DecidableEq ι] {i : ι}

theorem own_cons_eq {entry : ι × X} (h : entry.1 = i) (log : List (ι × X)) :
    own i (entry :: log) = entry.2 :: own i log := if_pos h

@[simp] theorem own_cons_self (x : X) (log : List (ι × X)) :
    own i ((i, x) :: log) = x :: own i log := if_pos rfl

theorem own_cons_ne {entry : ι × X} (h : entry.1 ≠ i) (log : List (ι × X)) :
    own i (entry :: log) = own i log := if_neg h

theorem own_append (front back : List (ι × X)) :
    own i (front ++ back) = own i front ++ own i back := by
  induction front with
  | nil => rfl
  | cons entry front ih =>
    by_cases hentry : entry.1 = i
    · rw [List.cons_append, own_cons_eq hentry, own_cons_eq hentry, List.cons_append, ih]
    · rw [List.cons_append, own_cons_ne hentry, own_cons_ne hentry, ih]

theorem mem_own {log : List (ι × X)} {entry : ι × X} (h : entry ∈ log) :
    entry.2 ∈ own entry.1 log := by
  induction log with
  | nil => cases h
  | cons other log ih =>
    by_cases hother : other.1 = entry.1
    · rw [own_cons_eq hother]
      rcases List.mem_cons.mp h with rfl | hrest
      · exact List.mem_cons_self
      · exact List.mem_cons_of_mem _ (ih hrest)
    · rw [own_cons_ne hother]
      rcases List.mem_cons.mp h with rfl | hrest
      · exact absurd rfl hother
      · exact ih hrest

/-- **A view that the others leave alone evolves by one party's exchanges.** -/
theorem own_evolves (view : σ → τ) {log : List (ι × X)}
    (hothers : ∀ entry ∈ log, entry.1 ≠ i → ∀ s t, effect entry.2 s t → view t = view s)
    (h : Evolves (fun entry => effect entry.2) log s u) :
    Evolves (fun x a b => ∃ s t, effect x s t ∧ view s = a ∧ view t = b) (own i log) (view s)
      (view u) := by
  induction h with
  | nil s => exact .nil _
  | @cons entry log s t u hentry _ ih =>
    have hrest := ih fun other hother => hothers other (List.mem_cons_of_mem _ hother)
    by_cases hparty : entry.1 = i
    · rw [own_cons_eq hparty]
      exact .cons ⟨s, t, hentry, rfl, rfl⟩ hrest
    · rw [own_cons_ne hparty, ← hothers entry List.mem_cons_self hparty s t hentry]
      exact hrest

end

end Dialogue
