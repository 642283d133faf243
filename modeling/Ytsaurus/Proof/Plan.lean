import Ytsaurus.Lib.Reading
import Ytsaurus.Proof.Built
import Ytsaurus.Yson.Scan

/-!
# `Proof/Plan.lean` — scanning and deserializing as plans

The lexer is a source of bytes to look at and tokens to take. The scanner and every
deserializer are plans over it, so the tokens of a run can be counted, also of a run that fails:
there are at most as many as bytes.

A plan is a tree of questions: stop with an outcome, or look at the next byte, take the next
token, or ask where the lexer stands, and go on (`Lib/Reading.lean`). Running it against the lexer
gives the program's outcome, and the plan also says how many tokens were taken on the way, which
the program itself does not report when it fails. Each token takes a byte at least, so the general
bound of the library is the number of bytes. The scanner is turned into a plan directly, and the
deserializer through `Built`.
-/

set_option autoImplicit false

namespace Ytsaurus.Yson

variable {α β : Type} [FloatText]

/-- The lexer, as what is read. It tells its offset and how many bytes are left. -/
def lexer : Reading.Source YsonIterator YsonError UInt8 Token (Nat × Nat) where
  peek it := (it.skipIgnored.rest.head?, it.skipIgnored)
  take := nextToken
  tell it := (it.pos, it.rest.length)

/-- A program over the lexer. -/
abbrev Plan := Reading.Plan YsonError UInt8 Token (Nat × Nat)

/-- **A plan takes no more tokens than there are bytes**, whatever becomes of it. -/
theorem lexer_taken_le (p : Plan α) (it : YsonIterator) : p.taken lexer it ≤ it.rest.length := by
  have hpeek : ∀ it : YsonIterator, (lexer.peek it).2.rest.length ≤ it.rest.length :=
    skipIgnored_length
  refine Reading.Plan.taken_le (fun it => it.rest.length) hpeek ?_ p it
  intro it t it' h
  obtain ⟨n, hpos, hn⟩ := nextToken_advanced h
  have hlen := hn.length
  omega

/-! ## Programs of the lexer -/

/-- The program is what a plan does. -/
def Planned (m : LexM α) : Prop := ∃ p : Plan α, m = p.run lexer

namespace Planned

theorem pure (a : α) : Planned (Pure.pure a : LexM α) := ⟨.done (.ok a), rfl⟩

theorem throw (e : YsonError) : Planned (MonadExcept.throw e : LexM α) := ⟨.done (.error e), rfl⟩

theorem bind {m : LexM α} {f : α → LexM β} (hm : Planned m) (hf : ∀ a, Planned (f a)) :
    Planned (m >>= f) := by
  obtain ⟨p, rfl⟩ := hm
  choose q hq using hf
  refine ⟨p.bind q, funext fun it => ?_⟩
  rw [Reading.Plan.run_bind, funext hq]

theorem ite {c : Prop} [Decidable c] {m n : LexM α} (hm : Planned m) (hn : Planned n) :
    Planned (if c then m else n) := by
  split
  · exact hm
  · exact hn

theorem peekByte : Planned Yson.peekByte := by
  refine ⟨.peek fun b => .done (b.elim (.error .eof) .ok), funext fun it => ?_⟩
  unfold Yson.peekByte Reading.Plan.run lexer
  dsimp only
  cases it.skipIgnored.rest <;> rfl

theorem nextToken : Planned Yson.nextToken := by
  refine ⟨.take fun t => .done (.ok t), funext fun it => ?_⟩
  unfold Reading.Plan.run lexer
  dsimp only
  cases Yson.nextToken it <;> rfl

theorem unexpected (expected : Expected) (found : Token) :
    Planned (Yson.unexpected expected found : LexM α) :=
  ⟨.tell fun at_ => .done (.error (.unexpectedToken expected found at_.1)), rfl⟩

end Planned

/-! ## The scanner -/

theorem checkDepth_planned (depth : Nat) : Planned (checkDepth depth) := .ite (.throw _) (.pure _)

theorem scanListLoop_planned {tree : LexM Unit} (htree : Planned tree) :
    ∀ fuel : Nat, Planned (scanListLoop tree fuel)
  | 0 => .throw _
  | fuel + 1 => by
    have hloop := scanListLoop_planned htree fuel
    refine .bind .peekByte fun b => .ite (.bind .nextToken fun _ => .pure _) (.ite ?_ ?_)
    · exact .bind .nextToken fun _ => hloop
    · exact .bind htree fun _ => hloop

theorem scanKey_planned : Planned scanKey := by
  refine .bind .nextToken fun t => ?_
  cases t with
  | string s =>
    refine .bind .nextToken fun u => ?_
    cases u with
    | keyValueSeparator => exact .pure _
    | _ => exact .unexpected _ _
  | _ =>
    refine .bind (.unexpected _ _) fun _ => .bind .nextToken fun u => ?_
    cases u with
    | keyValueSeparator => exact .pure _
    | _ => exact .unexpected _ _

theorem scanFragmentLoop_planned {tree : LexM Unit} (htree : Planned tree) (frag : Fragment) :
    ∀ fuel : Nat, Planned (scanFragmentLoop tree frag fuel)
  | 0 => .throw _
  | fuel + 1 => by
    have hloop := scanFragmentLoop_planned htree frag fuel
    refine .bind .peekByte fun b => .ite (.bind .nextToken fun _ => .pure _) (.ite ?_ ?_)
    · exact .bind .nextToken fun _ => hloop
    · exact .bind scanKey_planned fun _ => .bind htree fun _ => hloop

theorem scanObject_planned {tree : Nat → LexM Unit} (htree : ∀ depth, Planned (tree depth))
    (fuel depth : Nat) (t : Token) : Planned (scanObject tree fuel depth t) := by
  cases t with
  | beginList => exact .bind (checkDepth_planned _) fun _ => scanListLoop_planned (htree _) fuel
  | beginMap =>
    exact .bind (checkDepth_planned _) fun _ => scanFragmentLoop_planned (htree _) _ fuel
  | string | int64 | uint64 | double | boolean | entity => exact .pure _
  | _ => exact .unexpected _ _

theorem scanTree_planned : ∀ fuel depth : Nat, Planned (scanTree fuel depth)
  | 0, _ => .throw _
  | fuel + 1, depth => by
    have htree := scanTree_planned fuel
    refine .bind (checkDepth_planned _) fun _ => .bind .nextToken fun t => .ite ?_ ?_
    · refine .bind (.bind (checkDepth_planned _) fun _ => ?_) fun _ => ?_
      · exact scanFragmentLoop_planned (htree _) _ fuel
      · exact .bind .nextToken fun u => scanObject_planned htree fuel depth u
    · exact scanObject_planned htree fuel depth t

/-! ## The deserializer -/

/-- From any fields a program of the deserializer's steps is a plan, which gives the fields it
ends with besides its result. -/
theorem Built.plan {m : De α} (h : Built m) (de : Deserializer) :
    ∃ p : Plan (α × Deserializer), ∀ it, m (de.withLexer it) =
      (p.run lexer it).map fun r => (r.1.1, r.1.2.withLexer r.2) := by
  induction h generalizing de with
  | pure a => exact ⟨.done (.ok (a, de)), fun _ => rfl⟩
  | throw e => exact ⟨.done (.error e), fun _ => rfl⟩
  | failAt e => exact ⟨.tell fun told => .done (.error (e told.1)), fun _ => rfl⟩
  | bind _ _ ihm ihf =>
    obtain ⟨p, hp⟩ := ihm de
    choose q hq using fun r : _ × Deserializer => ihf r.1 r.2
    refine ⟨p.bind q, fun it => ?_⟩
    rw [Reading.Plan.run_bind, StateExcept.bind_apply, StateExcept.bind_apply, hp]
    cases p.run lexer it with
    | error e => rfl
    | ok r => exact hq r.1 r.2
  | peek =>
    refine ⟨.peek fun b => .done (.ok (b, de)), fun it => ?_⟩
    show De.peekAny (de.withLexer it) =
      .ok (it.skipIgnored.rest.head?, de.withLexer it.skipIgnored)
    unfold De.peekAny Yson.peekByte
    rw [show (de.withLexer it).lexer = it from rfl]
    cases it.skipIgnored.rest <;> rfl
  | token =>
    refine ⟨.take fun t => .done (.ok (t, de)), fun it => ?_⟩
    unfold De.nextToken De.lex Reading.Plan.run lexer
    dsimp only
    rw [show (de.withLexer it).lexer = it from rfl]
    cases Yson.nextToken it <;> rfl
  | budget => exact ⟨.tell fun told => .done (.ok (told.2 + 1, de)), fun _ => rfl⟩
  | @get _ f h _ ih =>
    obtain ⟨p, hp⟩ := ih de de
    refine ⟨p, fun it => ?_⟩
    rw [StateExcept.get_bind, h, hp]
  | @update f h =>
    refine ⟨.done (.ok ((), f de)), fun it => ?_⟩
    rw [StateExcept.modify_apply, h]
    rfl

/-- `from_bytes`, `deserialize` and `end`, on a cursor. -/
def readAll (deserialize : De α) : LexM α := fun it =>
  ((do let value ← deserialize; De.end; pure value : De α)
    ⟨it, false, false, 0, 128⟩).map fun r => (r.1, r.2.lexer)

theorem readAll_planned {deserialize : De α} (h : Built deserialize) :
    Planned (readAll deserialize) := by
  have hall : Built (do let value ← deserialize; De.end; pure value : De α) :=
    .bind h fun value => .bind De.end_built fun _ => .pure value
  obtain ⟨p, hp⟩ := hall.plan ⟨.new [] false, false, false, 0, 128⟩
  refine ⟨p.bind fun r => .done (.ok r.1), funext fun it => ?_⟩
  rw [Reading.Plan.run_bind, StateExcept.bind_apply]
  refine (congrArg (Except.map fun r => (r.1, r.2.lexer)) (hp it)).trans ?_
  cases p.run lexer it <;> rfl

end Ytsaurus.Yson
