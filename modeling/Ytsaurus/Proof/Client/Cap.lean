import Ytsaurus.Client.Call
import Ytsaurus.Client.Cap

/-!
# `Proof/Client/Cap.lean` — the cap is exact

Whatever pieces a body arrives in and whatever buffers it is read into, the capped reader hands
out a front part of it that is no longer than the cap, ends where the body ends if that is within
the cap, and fails with the cap's own error if it is not. What one read does is one case of
`reads_capped` for each thing the reader underneath can do.

The reader underneath belongs to the HTTP library and appears as a parameter. `Presents` says what
is asked of it: each read gives some of what is left, at most as much as there is room for, and
nothing only when there is no room, or nothing is left. Which part of the body it gives is its own
affair.

A body of exactly the cap is the case that decides the design. The reader cannot know that it has
ended without asking for a byte more than it may hand out, which is why `room` is one larger than
what is left, and why the byte too many is an error and not an end. `u64` is the type of the cap,
and the one more saturates.
-/

set_option autoImplicit false

namespace Ytsaurus.Client

open Drain (Outcome)

/-! ## The reader underneath -/

/-- What a reader may answer with this much of a body left: some of it that fits, or, when
nothing is left, nothing, or the error that cut the body off. -/
inductive Delivers (cut : Option UreqError) :
    List UInt8 → UInt64 → Except UreqError (List UInt8) → List UInt8 → Prop
  | chunk {front back : List UInt8} {room : UInt64} (hfront : front ≠ [])
      (hroom : front.length ≤ room.toNat) : Delivers cut (front ++ back) room (.ok front) back
  | noRoom {rest : List UInt8} : Delivers cut rest 0 (.ok []) rest
  | ended {room : UInt64} (hcut : cut = none) : Delivers cut [] room (.ok []) []
  | failed {room : UInt64} {e : UreqError} (hcut : cut = some e) :
      Delivers cut [] room (.error e) []

/-- A reader that keeps to this as long as it is read; `P` says how much of the body a state of
it has left. -/
def Presents {R : Type} (inner : R → UInt64 → Except UreqError (List UInt8) × R)
    (cut : Option UreqError) (P : R → List UInt8 → Prop) : Prop :=
  ∀ r rest, P r rest → ∀ room,
    ∃ rest', Delivers cut rest room (inner r room).1 rest' ∧ P (inner r room).2 rest'

/-! ## One read -/

theorem saturatingAdd_one_ne_zero (left : UInt64) : saturatingAdd left 1 ≠ 0 := by
  unfold saturatingAdd
  intro h
  have hone : (1 : UInt64).toNat = 1 := rfl
  rw [hone] at h
  split at h
  · rename_i hlt
    have hsum : (left + 1).toNat = left.toNat + 1 := by
      rw [UInt64.toNat_add, hone]
      exact Nat.mod_eq_of_lt hlt
    rw [h] at hsum
    cases hsum
  · cases h

/-- There is room for something whenever the consumer has room for something. -/
theorem room_eq_zero {left bufLen : UInt64} (h : min (saturatingAdd left 1) bufLen = 0) :
    bufLen = 0 := by
  have hleft := saturatingAdd_one_ne_zero left
  rw [UInt64.min_def] at h
  split at h
  · exact absurd h hleft
  · exact h

/-- What a consumer has got of a body of which `rest` is to come, under a cap of which `left` is
to be spent. -/
structure Capped (cut : Option UreqError) (limit : UInt64) (left : Nat) (rest : List UInt8)
    (bufLens : List UInt64) (run : List UInt8 × Outcome UreqError) : Prop where
  handed : run.1 <+: rest
  within : run.1.length ≤ left
  finished : run.2 = .finished → run.1 = rest ∧ cut = none
  failed : ∀ e, run.2 = .failed e →
    (e = .bodyExceedsLimit limit.toNat ∧ left < rest.length) ∨ (cut = some e ∧ run.1 = rest)
  unfinished : run.2 = .unfinished → bufLens.countP (· ≠ 0) ≤ run.1.length

namespace Capped

variable {cut : Option UreqError} {limit : UInt64} {left : Nat} {rest : List UInt8}
  {bufLens : List UInt64}

theorem stop {e : UreqError}
    (h : (e = .bodyExceedsLimit limit.toNat ∧ left < rest.length) ∨ (cut = some e ∧ rest = [])) :
    Capped cut limit left rest bufLens ([], .failed e) where
  handed := List.nil_prefix
  within := Nat.zero_le left
  finished := fun h => nomatch h
  failed := by
    intro e' he'
    cases he'
    rcases h with h | ⟨hcut, rfl⟩
    · exact .inl h
    · exact .inr ⟨hcut, rfl⟩
  unfinished := fun h => nomatch h

/-- A read that gave something, or nothing because nothing was asked for, and the reads behind
it. -/
theorem step {front back : List UInt8} {bufLen : UInt64}
    {run : List UInt8 × Outcome UreqError} (hleft : front.length ≤ left)
    (hsome : bufLen ≠ 0 → front ≠ [])
    (h : Capped cut limit (left - front.length) back bufLens run) :
    Capped cut limit left (front ++ back) (bufLen :: bufLens) (front ++ run.1, run.2) where
  handed := (List.prefix_append_right_inj front).mpr h.handed
  within := by
    have hrest := h.within
    rw [List.length_append]
    omega
  finished := by
    intro hdone
    obtain ⟨hbytes, hcut⟩ := h.finished hdone
    exact ⟨by rw [hbytes], hcut⟩
  failed := by
    intro e he
    rcases h.failed e he with ⟨rfl, hlong⟩ | ⟨hcut, hbytes⟩
    · left
      rw [List.length_append]
      exact ⟨rfl, by omega⟩
    · right
      exact ⟨hcut, by rw [hbytes]⟩
  unfinished := by
    intro hrun
    have hrest := h.unfinished hrun
    rw [List.length_append]
    by_cases hbuf : bufLen = 0
    · rw [List.countP_cons_of_neg (by simpa using hbuf)]
      exact Nat.le_trans hrest (Nat.le_add_left _ _)
    · have hfront := List.length_pos_of_ne_nil (hsome hbuf)
      rw [List.countP_cons_of_pos (by simpa using hbuf)]
      omega

/-- A read into no buffer changes nothing. -/
theorem idle {back : List UInt8} {bufLen : UInt64} {run : List UInt8 × Outcome UreqError}
    (hbuf : bufLen = 0) (h : Capped cut limit left back bufLens run) :
    Capped cut limit left back (bufLen :: bufLens) ([] ++ run.1, run.2) := by
  have hall : Capped cut limit left ([] ++ back) (bufLen :: bufLens) ([] ++ run.1, run.2) :=
    .step (Nat.zero_le left) (fun hne => absurd hbuf hne) h
  exact hall

end Capped

/-! ## Whole runs -/

/-- **Every run under the cap**, by what the reader underneath does at each read. -/
theorem reads_capped {R : Type} {inner : R → UInt64 → Except UreqError (List UInt8) × R}
    {cut : Option UreqError} {P : R → List UInt8 → Prop} (hinner : Presents inner cut P)
    (self : CapReader R) {rest : List UInt8} (hP : P self.reader rest) (bufLens : List UInt64) :
    Capped cut self.limit self.left.toNat rest bufLens (self.reads inner bufLens) := by
  induction bufLens generalizing self rest with
  | nil =>
    exact ⟨List.nil_prefix, Nat.zero_le _, (nomatch ·), fun _ => (nomatch ·),
      fun _ => Nat.le_refl 0⟩
  | cons bufLen bufLens ih =>
    obtain ⟨back, hdelivers, hback⟩ := hinner _ _ hP (min (saturatingAdd self.left 1) bufLen)
    rw [CapReader.reads, CapReader.read]
    dsimp only
    generalize hroom : min (saturatingAdd self.left 1) bufLen = room at hdelivers hback ⊢
    generalize inner self.reader room = answer at hdelivers hback ⊢
    obtain ⟨answer, reader⟩ := answer
    dsimp only at hdelivers hback ⊢
    -- nothing was read, and the run goes on if nothing was asked for
    have hnothing : Capped cut self.limit self.left.toNat back bufLens
        (({ self with reader := reader } : CapReader R).reads inner bufLens) :=
      ih { self with reader := reader } hback
    cases hdelivers with
    | @chunk front _ _ hfront hlength =>
      dsimp only
      have hsize : (UInt64.ofNat front.length).toNat = front.length :=
        UInt64.toNat_ofNat_of_lt (Nat.lt_of_le_of_lt hlength room.toNat_lt)
      by_cases hlong : UInt64.ofNat front.length > self.left
      · rw [if_pos hlong]
        have hlt := UInt64.lt_iff_toNat_lt.mp hlong
        rw [hsize] at hlt
        refine .stop (.inl ⟨rfl, ?_⟩)
        rw [List.length_append]
        omega
      · rw [if_neg hlong]
        have hle : front.length ≤ self.left.toNat := by
          rw [← hsize]
          exact Nat.not_lt.mp fun hlt => hlong (UInt64.lt_iff_toNat_lt.mpr hlt)
        have hspent : (self.left - UInt64.ofNat front.length).toNat
            = self.left.toNat - front.length := by
          rw [UInt64.toNat_sub_of_le _ _ (UInt64.le_iff_toNat_le.mpr (by rwa [hsize])), hsize]
        have hrest := ih ⟨reader, self.limit, self.left - UInt64.ofNat front.length⟩ hback
        rw [hspent] at hrest
        dsimp only
        rw [if_neg fun h => hfront h.1]
        exact .step hle (fun _ => hfront) hrest
    | noRoom =>
      have hbuf := room_eq_zero hroom
      have hzero : self.left - UInt64.ofNat ([] : List UInt8).length = self.left := by simp
      dsimp only
      rw [if_neg (by simp), hzero]
      dsimp only
      rw [if_neg fun h => h.2 hbuf]
      exact .idle hbuf hnothing
    | ended hcut =>
      have hzero : self.left - UInt64.ofNat ([] : List UInt8).length = self.left := by simp
      dsimp only
      rw [if_neg (by simp), hzero]
      dsimp only
      by_cases hbuf : bufLen = 0
      · rw [if_neg fun h => h.2 hbuf]
        exact .idle hbuf hnothing
      · rw [if_pos ⟨rfl, hbuf⟩]
        exact ⟨List.nil_prefix, Nat.zero_le _, fun _ => ⟨rfl, hcut⟩, fun _ => (nomatch ·),
          (nomatch ·)⟩
    | failed hcut => exact .stop (.inr ⟨hcut, rfl⟩)

/-- **The cap is exact**: of a body that arrives whole, in whatever pieces and into whatever
buffers, a run hands out a front part within the cap; when it is over, that is the whole body, or
the error is the cap's and the body is longer; and a consumer that goes on asking is told which. -/
theorem capped_exactly {R : Type} {inner : R → UInt64 → Except UreqError (List UInt8) × R}
    {P : R → List UInt8 → Prop} (hinner : Presents inner none P) {body : R} {bytes : List UInt8}
    (hbody : P body bytes) (limit : UInt64) (bufLens : List UInt64) :
    let run := (CapReader.new body limit).reads inner bufLens
    (run.1 <+: bytes ∧ run.1.length ≤ limit.toNat) ∧
    (run.2 = .finished → run.1 = bytes ∧ bytes.length ≤ limit.toNat) ∧
    (∀ e, run.2 = .failed e → e = .bodyExceedsLimit limit.toNat ∧ limit.toNat < bytes.length) ∧
    (bytes.length < bufLens.countP (· ≠ 0) →
      (bytes.length ≤ limit.toNat → run = (bytes, .finished)) ∧
      (limit.toNat < bytes.length → run.2 = .failed (.bodyExceedsLimit limit.toNat))) := by
  intro run
  have h : Capped none limit limit.toNat bytes bufLens run := reads_capped hinner (.new body limit) hbody bufLens
  have hfinished : run.2 = .finished → run.1 = bytes ∧ bytes.length ≤ limit.toNat := by
    intro hdone
    have hbytes := (h.finished hdone).1
    have hwithin := h.within
    rw [hbytes] at hwithin
    exact ⟨hbytes, hwithin⟩
  have hfailed : ∀ e, run.2 = .failed e →
      e = .bodyExceedsLimit limit.toNat ∧ limit.toNat < bytes.length := by
    intro e he
    rcases h.failed e he with hlong | ⟨hcut, _⟩
    · exact hlong
    · cases hcut
  refine ⟨⟨h.handed, h.within⟩, hfinished, hfailed, fun hcount => ?_⟩
  cases hend : run.2 with
  | finished =>
    obtain ⟨hbytes, hle⟩ := hfinished hend
    exact ⟨fun _ => Prod.ext hbytes hend, fun hlong => absurd hle (Nat.not_le.mpr hlong)⟩
  | failed e =>
    obtain ⟨rfl, hlong⟩ := hfailed e hend
    exact ⟨fun hle => absurd hle (Nat.not_le.mpr hlong), fun _ => rfl⟩
  | unfinished =>
    have hasked := h.unfinished hend
    have hgot := h.handed.length_le
    omega

/-- A reader that gives one byte at a time. -/
def byteByByte (rest : List UInt8) (room : UInt64) : Except UreqError (List UInt8) × List UInt8 :=
  match rest with
  | [] => (.ok [], [])
  | b :: rest => if room = 0 then (.ok [], b :: rest) else (.ok [b], rest)

theorem byteByByte_presents : Presents byteByByte none fun r rest => r = rest := by
  rintro r _ rfl room
  cases r with
  | nil => exact ⟨[], .ended rfl, rfl⟩
  | cons b rest =>
    by_cases hroom : room = 0
    · refine ⟨b :: rest, ?_, ?_⟩
      · rw [byteByByte, if_pos hroom, hroom]
        exact .noRoom
      · rw [byteByByte, if_pos hroom]
    · refine ⟨rest, ?_, ?_⟩
      · rw [byteByByte, if_neg hroom]
        have hpos : [b].length ≤ room.toNat :=
          Nat.pos_of_ne_zero fun h => hroom (UInt64.toNat_inj.mp h)
        have hone : Delivers none ([b] ++ rest) room (.ok [b]) rest :=
          .chunk (List.cons_ne_nil b []) hpos
        exact hone
      · rw [byteByByte, if_neg hroom]

/-- Two bytes under a cap of two, and three. -/
theorem capped_exactly_two :
    (CapReader.new [1, 2] 2).reads byteByByte [4, 0, 4, 4] = ([1, 2], .finished) ∧
    ((CapReader.new [1, 2, 3] 2).reads byteByByte [4, 4, 4, 4]).2 = .failed (.bodyExceedsLimit 2) :=
  ⟨((capped_exactly byteByByte_presents rfl 2 [4, 0, 4, 4]).2.2.2 (by decide)).1 (by decide),
    ((capped_exactly byteByByte_presents rfl 2 [4, 4, 4, 4]).2.2.2 (by decide)).2 (by decide)⟩

/-! ## Buffered bodies -/

/-- **`read_capped` answers what the body and the cap say**, whichever buffers it takes, and also
for a body that was cut off. -/
theorem readToEnd_eq {R : Type} {inner : R → UInt64 → Except UreqError (List UInt8) × R}
    {response : Response} {P : R → List UInt8 → Prop} (hinner : Presents inner response.cut P)
    {body : R} (hbody : P body response.body) (command : String) (limit : UInt64)
    {bufLens : List UInt64} {answer : Except ClientError (List UInt8)}
    (h : readToEnd inner command body limit bufLens = some answer) :
    answer = readCapped command response limit.toNat := by
  have hrun : Capped response.cut limit limit.toNat response.body bufLens
      ((CapReader.new body limit).reads inner bufLens) := reads_capped hinner (.new body limit) hbody bufLens
  unfold readToEnd at h
  unfold readCapped
  generalize (CapReader.new body limit).reads inner bufLens = run at hrun h
  obtain ⟨bytes, outcome⟩ := run
  cases outcome with
  | unfinished => cases h
  | finished =>
    cases h
    obtain ⟨hbytes, hcut⟩ := hrun.finished rfl
    have hwithin := hrun.within
    rw [hbytes] at hwithin
    rw [if_neg (Nat.not_lt.mpr hwithin), hcut]
    exact congrArg Except.ok hbytes
  | failed e =>
    cases h
    rcases hrun.failed e rfl with ⟨rfl, hlong⟩ | ⟨hcut, hbytes⟩
    · rw [if_pos hlong]
      rfl
    · have hwithin := hrun.within
      rw [hbytes] at hwithin
      rw [if_neg (Nat.not_lt.mpr hwithin), hcut]
      cases e <;> rfl

end Ytsaurus.Client
