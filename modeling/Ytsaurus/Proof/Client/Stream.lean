import Ytsaurus.Client.Stream

/-!
# `Proof/Client/Stream.lean` — what a stream of rows hands out

While no row fails, what was handed out and what is still in the buffer are together the records
of the rows encoded so far (`Live`). A row that fails leaves what its chunk holds in the buffer:
nothing is handed out behind the error exactly when there is nothing there.

The stream is read by the HTTP library, which asks for as many bytes as it has room for and sends
what it gets. A body that goes on behind an error would have a row missing from its middle, and one
that ends early would have rows missing at its end; the cluster could tell neither from a whole
one. `Delivers` excludes both, for any sequence of reads and any sizes of them.

The rows are encoded in chunks, one fill after another, and the place of a failure in its chunk is
decided by the lengths of the rows before it (`chunkBytes`), not by how they are read. So the
condition is about the iterator and the serializer alone (`FailsClean`), and the reads that show it
necessary drain each chunk at once (`exists_ok_behind_error`).
-/

set_option autoImplicit false

namespace Ytsaurus.Client.RowStream

variable {T : Type} (rows : Nat → Option T) (serialize : T → Written String Unit)

/-! ## What a stream is to deliver -/

/-- The record of the row that the iterator answers its `k`-th call with. -/
def record (k : Nat) : List UInt8 :=
  match rows k with
  | some row => (serialize row).bytes ++ [0x3B]
  | none => []

/-- The records of the first `k` rows. -/
def records (k : Nat) : List UInt8 := (List.range k).flatMap (record rows serialize)

/-- The iterator answers its first `k` calls with rows that encode. -/
def Encodes (k : Nat) : Prop :=
  ∀ i, i < k → ∃ row, rows i = some row ∧ (serialize row).result = .ok ()

/-- The bytes of the successful reads. -/
def handed (answers : List (Except String (List UInt8))) : List UInt8 :=
  answers.flatMap fun answer => answer.toOption.getD []

/-- What the reads that go on behind `front` are to be: whole records until the rows run out, or
an error from then on. -/
structure Delivers (front : List UInt8) (rooms : List Nat)
    (answers : List (Except String (List UInt8))) : Prop where
  wholeRows : ∃ k, Encodes rows serialize k ∧
    front ++ handed answers <+: records rows serialize k
  ended : ∀ (i room : Nat), rooms[i]? = some room → 0 < room → answers[i]? = some (.ok []) →
    ∃ k, Encodes rows serialize k ∧ rows k = none ∧
      front ++ handed (answers.take i) = records rows serialize k
  sticky : ∀ (i j : Nat) (reason : String) (answer : Except String (List UInt8)), i < j →
    answers[i]? = some (.error reason) → answers[j]? = some answer →
    ∃ reason', answer = .error reason'

/-- The bytes that are in the buffer when the `k`-th row is encoded. -/
def chunkBytes : Nat → Nat
  | 0 => 0
  | k + 1 =>
    if chunkBytes k + (record rows serialize k).length < rowChunk then
      chunkBytes k + (record rows serialize k).length
    else 0

/-- The first row that fails is the first of its chunk, and it fails before it writes. -/
def FailsClean : Prop :=
  ∀ (k : Nat) (row : T) (e : String), Encodes rows serialize k → rows k = some row →
    (serialize row).result = .error e →
    chunkBytes rows serialize k = 0 ∧ (serialize row).bytes = []

variable {rows serialize}

theorem encodes_zero : Encodes rows serialize 0 := by
  intro i hi
  cases hi

theorem encodes_succ {k : Nat} {row : T} (h : Encodes rows serialize k) (hrow : rows k = some row)
    (hok : (serialize row).result = .ok ()) : Encodes rows serialize (k + 1) := by
  intro i hi
  by_cases hik : i < k
  · exact h i hik
  · have hi' : i = k := Nat.le_antisymm (Nat.le_of_lt_succ hi) (Nat.le_of_not_lt hik)
    subst hi'
    exact ⟨row, hrow, hok⟩

/-- Nothing is encoded beyond a row that does not encode. -/
theorem encodes_le {k stop : Nat} (h : Encodes rows serialize k)
    (hstop : ∀ row, rows stop = some row → (serialize row).result ≠ .ok ()) : k ≤ stop := by
  apply Nat.le_of_not_lt
  intro hlt
  obtain ⟨row, hrow, hok⟩ := h stop hlt
  exact hstop row hrow hok

theorem records_succ (k : Nat) : records rows serialize (k + 1) =
    records rows serialize k ++ record rows serialize k := by
  simp [records, List.range_succ]

theorem record_eq {k : Nat} {row : T} (hrow : rows k = some row) :
    record rows serialize k = (serialize row).bytes ++ [0x3B] := by
  simp only [record, hrow]

variable (rows serialize) in
theorem records_length_mono {k stop : Nat} (h : k ≤ stop) :
    (records rows serialize k).length ≤ (records rows serialize stop).length := by
  induction h with
  | refl => exact Nat.le_refl _
  | step _ ih =>
    rw [records_succ, List.length_append]
    exact Nat.le_trans ih (Nat.le_add_right _ _)

/-! ## One fill -/

variable (rows serialize)

/-- How the loop of `fill` ends, when it goes on behind `front`. -/
inductive Filled (front : List UInt8) (s : RowStream) : Prop
  | full (hfailed : s.failed = none) (hexhausted : s.exhausted = false)
      (hasked : s.asked = s.written) (hencodes : Encodes rows serialize s.written)
      (hrecords : front ++ s.buffer = records rows serialize s.written)
      (hchunk : chunkBytes rows serialize s.written = 0) (hfull : rowChunk ≤ s.buffer.length)
  | ranOut (hfailed : s.failed = none) (hexhausted : s.exhausted = true)
      (hrows : rows s.written = none) (hencodes : Encodes rows serialize s.written)
      (hrecords : front ++ s.buffer = records rows serialize s.written)
  | failed (row : T) (e : String) (chunk : List UInt8) (hfailed : s.failed.isSome = true)
      (hrow : rows s.written = some row) (he : (serialize row).result = .error e)
      (hencodes : Encodes rows serialize s.written)
      (hrecords : front ++ chunk = records rows serialize s.written)
      (hbuffer : s.buffer = chunk ++ (serialize row).bytes)
      (hchunk : chunkBytes rows serialize s.written = chunk.length)

variable {rows serialize}

theorem fillLoop_position (s : RowStream) :
    (s.fillLoop rows serialize).position = s.position := by
  fun_induction fillLoop rows serialize s with
  | case1 => rfl
  | case2 => rfl
  | case3 s hlength row hrow hok ih => exact ih
  | case4 => rfl

/-- **The loop of `fill`** adds whole records, until the buffer is full, the rows run out or one
fails. -/
theorem fillLoop_spec {front : List UInt8} {s : RowStream} (hfailed : s.failed = none)
    (hexhausted : s.exhausted = false) (hasked : s.asked = s.written)
    (hencodes : Encodes rows serialize s.written)
    (hrecords : front ++ s.buffer = records rows serialize s.written)
    (hchunk : chunkBytes rows serialize s.written =
      if s.buffer.length < rowChunk then s.buffer.length else 0) :
    Filled rows serialize front (s.fillLoop rows serialize) := by
  fun_induction fillLoop rows serialize s with
  | case1 s hlength hrow =>
    rw [hasked] at hrow
    exact .ranOut hfailed rfl hrow hencodes hrecords
  | case2 s hlength row hrow e he =>
    rw [hasked] at hrow
    rw [if_pos hlength] at hchunk
    exact .failed row e s.buffer rfl hrow he hencodes hrecords rfl hchunk
  | case3 s hlength row hrow hok ih =>
    rw [hasked] at hrow
    rw [if_pos hlength] at hchunk
    apply ih hfailed hexhausted (congrArg (· + 1) hasked) (encodes_succ hencodes hrow hok)
    · dsimp only
      rw [records_succ, ← hrecords, record_eq hrow]
      simp only [List.append_assoc]
    · dsimp only
      rw [chunkBytes, hchunk, record_eq hrow, List.append_assoc, ← List.length_append]
  | case4 s hlength =>
    rw [if_neg hlength] at hchunk
    exact .full hfailed hexhausted hasked hencodes hrecords hchunk (Nat.le_of_not_lt hlength)

/-! ## One read -/

variable (rows serialize)

/-- No row has failed: what was handed out and what is left in the buffer are the records of the
rows encoded so far. -/
structure Live (front : List UInt8) (s : RowStream) : Prop where
  failed : s.failed = none
  position : s.position ≤ s.buffer.length
  encodes : Encodes rows serialize s.written
  records : front ++ s.buffer.drop s.position = records rows serialize s.written
  more : s.exhausted = false → s.asked = s.written ∧ chunkBytes rows serialize s.written = 0
  ranOut : s.exhausted = true → rows s.written = none

/-- A row has failed, and nothing is left in the buffer. -/
structure Dead (s : RowStream) : Prop where
  failed : s.failed.isSome = true
  empty : s.buffer = []
  position : s.position = 0

variable {rows serialize}

theorem live_new : Live rows serialize [] new where
  failed := rfl
  position := Nat.le_refl _
  encodes := encodes_zero
  records := rfl
  more _ := ⟨rfl, rfl⟩
  ranOut h := by cases h

/-- Handing bytes over moves them from the buffer to the front. -/
theorem live_handOver {front : List UInt8} {s : RowStream} (h : Live rows serialize front s)
    (room : Nat) : ∃ bytes, (s.handOver room).1 = .ok bytes ∧
      Live rows serialize (front ++ bytes) (s.handOver room).2 ∧
      (s.position < s.buffer.length → 0 < room → bytes ≠ []) := by
  refine ⟨_, rfl, ⟨h.failed, ?_, h.encodes, ?_, h.more, h.ranOut⟩, ?_⟩
  · have hmin := Nat.min_le_right room (s.buffer.length - s.position)
    have hposition := h.position
    show s.position + min room (s.buffer.length - s.position) ≤ s.buffer.length
    omega
  · show front ++ (s.buffer.drop s.position).take (min room (s.buffer.length - s.position)) ++
      s.buffer.drop (s.position + min room (s.buffer.length - s.position)) = _
    rw [List.append_assoc, ← List.drop_drop, List.take_append_drop]
    exact h.records
  · intro hposition hroom hnil
    have hlength := congrArg List.length hnil
    rw [List.length_take, List.length_drop, List.length_nil] at hlength
    omega

/-- A drained stream that is not over is filled behind what was handed out. -/
theorem filled_of_live {front : List UInt8} {s : RowStream} (h : Live rows serialize front s)
    (hdrained : s.position = s.buffer.length) (hmore : s.exhausted = false) :
    Filled rows serialize front (s.fill rows serialize) := by
  obtain ⟨hasked, hchunk⟩ := h.more hmore
  have hrecords := h.records
  rw [hdrained, List.drop_length] at hrecords
  unfold fill
  dsimp only
  rw [if_neg (by rw [hmore]; exact Bool.false_ne_true)]
  exact fillLoop_spec h.failed hmore hasked h.encodes hrecords hchunk

variable (rows serialize) in
theorem fill_position (s : RowStream) : (s.fill rows serialize).position = 0 := by
  unfold fill
  dsimp only
  split
  · rfl
  · exact fillLoop_position _

/-- What `read` does when the buffer is drained. -/
theorem read_drained {s : RowStream} (hdrained : s.position = s.buffer.length)
    (hfailed : s.failed = none) (room : Nat) : s.read rows serialize room =
      match (s.fill rows serialize).failed with
      | some reason => (.error reason, s.fill rows serialize)
      | none =>
        if (s.fill rows serialize).buffer.isEmpty then (.ok [], s.fill rows serialize)
        else (s.fill rows serialize).handOver room := by
  unfold read
  rw [if_pos hdrained, hfailed]
  rfl

variable (rows serialize) in
theorem read_undrained {s : RowStream} (h : s.position ≠ s.buffer.length) (room : Nat) :
    s.read rows serialize room = s.handOver room := by
  unfold read
  rw [if_neg h]

/-- A filled stream in which no row has failed goes on as before. -/
theorem live_of_filled {front : List UInt8} {s : RowStream} (hposition : s.position = 0)
    (h : Filled rows serialize front s) (hfailed : s.failed = none) :
    Live rows serialize front s := by
  cases h with
  | full _ hexhausted hasked hencodes hrecords hchunk _ =>
    refine ⟨hfailed, ?_, hencodes, ?_, fun _ => ⟨hasked, hchunk⟩, ?_⟩
    · rw [hposition]
      exact Nat.zero_le _
    · rw [hposition]
      exact hrecords
    · intro hover
      rw [hexhausted] at hover
      cases hover
  | ranOut _ hexhausted hrows hencodes hrecords =>
    refine ⟨hfailed, ?_, hencodes, ?_, ?_, fun _ => hrows⟩
    · rw [hposition]
      exact Nat.zero_le _
    · rw [hposition]
      exact hrecords
    · intro hmore
      rw [hexhausted] at hmore
      cases hmore
  | failed _ _ _ hsome =>
    rw [hfailed] at hsome
    cases hsome

/-- **One read.** It hands over the next bytes, none only behind the last row, or it fails and
leaves nothing. -/
theorem read_step (hclean : FailsClean rows serialize) {front : List UInt8} {s : RowStream}
    (h : Live rows serialize front s) (room : Nat) :
    (∃ bytes, (s.read rows serialize room).1 = .ok bytes ∧
      Live rows serialize (front ++ bytes) (s.read rows serialize room).2 ∧
      (bytes = [] → 0 < room → ∃ k, Encodes rows serialize k ∧ rows k = none ∧
        front = records rows serialize k)) ∨
      ∃ reason, (s.read rows serialize room).1 = .error reason ∧
        Dead (s.read rows serialize room).2 := by
  by_cases hdrained : s.position = s.buffer.length
  · rw [read_drained hdrained h.failed]
    have hposition := fill_position rows serialize s
    cases hmore : s.exhausted with
    | true =>
      -- nothing is asked for once the rows have run out
      have hfill : s.fill rows serialize = { s with buffer := [], position := 0 } := by
        unfold fill
        dsimp only
        rw [if_pos hmore]
      have hrecords := h.records
      rw [hdrained, List.drop_length, List.append_nil] at hrecords
      have hlive : Live rows serialize front (s.fill rows serialize) := by
        rw [hfill]
        exact ⟨h.failed, Nat.le_refl _, h.encodes, (List.append_nil _).trans hrecords, h.more,
          h.ranOut⟩
      have hempty : (s.fill rows serialize).buffer.isEmpty = true := by
        rw [hfill]
        rfl
      rw [hlive.failed]
      dsimp only
      rw [if_pos hempty]
      refine .inl ⟨[], rfl, ?_, fun _ _ => ⟨s.written, h.encodes, h.ranOut hmore, hrecords⟩⟩
      rw [List.append_nil]
      exact hlive
    | false =>
      have hfilled := filled_of_live h hdrained hmore
      cases hfailed : (s.fill rows serialize).failed with
      | some reason =>
        refine .inr ⟨reason, rfl, ?_⟩
        cases hfilled with
        | full hnone | ranOut hnone =>
          rw [hfailed] at hnone
          cases hnone
        | failed row e chunk hsome hrow he hencodes _ hbuffer hchunk =>
          obtain ⟨hzero, hbytes⟩ := hclean _ row e hencodes hrow he
          have hchunk' : chunk = [] := List.length_eq_zero_iff.mp (hchunk.symm.trans hzero)
          rw [hchunk', hbytes] at hbuffer
          exact ⟨hsome, hbuffer, hposition⟩
      | none =>
        have hlive := live_of_filled hposition hfilled hfailed
        dsimp only
        by_cases hempty : (s.fill rows serialize).buffer.isEmpty = true
        · rw [if_pos hempty]
          have hnil := List.isEmpty_iff.mp hempty
          refine .inl ⟨[], rfl, ?_, ?_⟩
          · rw [List.append_nil]
            exact hlive
          · intro _ _
            cases hfilled with
            | full _ _ _ _ _ _ hfull =>
              rw [hnil] at hfull
              cases hfull
            | ranOut _ _ hrows hencodes hrecords =>
              rw [hnil, List.append_nil] at hrecords
              exact ⟨_, hencodes, hrows, hrecords⟩
            | failed _ _ _ hsome =>
              rw [hfailed] at hsome
              cases hsome
        · rw [if_neg hempty]
          obtain ⟨bytes, hbytes, hnext, hnonempty⟩ := live_handOver hlive room
          refine .inl ⟨bytes, hbytes, hnext, fun hnil hroom => absurd hnil (hnonempty ?_ hroom)⟩
          rw [hposition]
          exact List.length_pos_iff.mpr fun hnil => hempty (List.isEmpty_iff.mpr hnil)
  · rw [read_undrained rows serialize hdrained]
    obtain ⟨bytes, hbytes, hnext, hnonempty⟩ := live_handOver h room
    exact .inl ⟨bytes, hbytes, hnext, fun hnil hroom =>
      absurd hnil (hnonempty (Nat.lt_of_le_of_ne h.position hdrained) hroom)⟩

/-! ## All the reads -/

variable (rows serialize) in
/-- Once a row has failed and nothing is left, every read fails. -/
theorem dead_reads {s : RowStream} (h : Dead s) (rooms : List Nat) :
    ∀ answer ∈ s.reads rows serialize rooms, ∃ reason, answer = .error reason := by
  have hread : ∀ room, s.read rows serialize room =
      (.error "a row could not be encoded", s) := by
    intro room
    have hdrained : s.position = s.buffer.length := by
      rw [h.position, h.empty]
      rfl
    unfold read
    rw [if_pos hdrained, if_pos h.failed]
  induction rooms with
  | nil => exact List.forall_mem_nil _
  | cons room rooms ih =>
    rw [reads, hread]
    exact List.forall_mem_cons.mpr ⟨⟨_, rfl⟩, ih⟩

theorem handed_cons (answer : Except String (List UInt8))
    (answers : List (Except String (List UInt8))) :
    handed (answer :: answers) = answer.toOption.getD [] ++ handed answers := rfl

theorem handed_errors {answers : List (Except String (List UInt8))}
    (h : ∀ answer ∈ answers, ∃ reason, answer = .error reason) : handed answers = [] := by
  unfold handed
  rw [List.flatMap_eq_nil_iff]
  intro answer hanswer
  obtain ⟨reason, rfl⟩ := h answer hanswer
  rfl

/-- **Every sequence of reads delivers.** -/
theorem delivers_of_live (hclean : FailsClean rows serialize) (rooms : List Nat)
    {front : List UInt8} {s : RowStream} (h : Live rows serialize front s) :
    Delivers rows serialize front rooms (s.reads rows serialize rooms) := by
  induction rooms generalizing front s with
  | nil =>
    refine ⟨⟨s.written, h.encodes, ?_⟩, ?_, ?_⟩
    · rw [← h.records]
      exact ⟨s.buffer.drop s.position, congrArg (· ++ _) (List.append_nil front)⟩
    · intro i room hroom
      cases hroom
    · intro i j reason answer _ hanswer
      cases hanswer
  | cons room rooms ih =>
    unfold reads
    rcases read_step hclean h room with ⟨bytes, hread, hlive, hended⟩ | ⟨reason, hread, hdead⟩
    · have hrest := ih hlive
      rw [hread]
      refine ⟨?_, ?_, ?_⟩
      · obtain ⟨k, hk, hwhole⟩ := hrest.wholeRows
        refine ⟨k, hk, ?_⟩
        rw [handed_cons, ← List.append_assoc]
        exact hwhole
      · intro i
        cases i with
        | zero =>
          rintro _ ⟨⟩ hroom ⟨⟩
          obtain ⟨k, hk, hrows, hfront⟩ := hended rfl hroom
          exact ⟨k, hk, hrows, (List.append_nil _).trans hfront⟩
        | succ i =>
          intro asked hasked hroom hanswer
          obtain ⟨k, hk, hrows, hfront⟩ := hrest.ended i asked hasked hroom hanswer
          refine ⟨k, hk, hrows, ?_⟩
          rw [List.take_succ_cons, handed_cons, ← List.append_assoc]
          exact hfront
      · intro i j reason answer hij hi hj
        cases i with
        | zero => cases hi
        | succ i =>
          cases j with
          | zero => cases hij
          | succ j => exact hrest.sticky i j reason answer (Nat.lt_of_succ_lt_succ hij) hi hj
    · have herrors := dead_reads rows serialize hdead rooms
      rw [hread]
      refine ⟨⟨s.written, h.encodes, ?_⟩, ?_, ?_⟩
      · rw [handed_cons, handed_errors herrors, ← h.records]
        exact ⟨s.buffer.drop s.position, congrArg (· ++ _) (List.append_nil front)⟩
      · intro i asked _ _ hanswer
        cases i with
        | zero => cases hanswer
        | succ i =>
          obtain ⟨_, herror⟩ := herrors _ (List.mem_of_getElem? hanswer)
          cases herror
      · intro i j _ answer hij _ hj
        cases j with
        | zero => cases hij
        | succ j => exact herrors _ (List.mem_of_getElem? hj)

/-! ## A row that leaves something in the buffer -/

/-- A fill that a row ends in the middle of a chunk, or in its own middle, is answered by an error
and then by what is left. -/
theorem ok_behind_error {front : List UInt8} {s : RowStream} (h : Live rows serialize front s)
    (hdrained : s.position = s.buffer.length)
    (hfailed : (s.fill rows serialize).failed.isSome = true)
    (hleft : (s.fill rows serialize).buffer ≠ []) :
    ∃ reason bytes, s.reads rows serialize [0, 0] = [.error reason, .ok bytes] := by
  obtain ⟨reason, hreason⟩ := Option.isSome_iff_exists.mp hfailed
  have hposition := fill_position rows serialize s
  have hundrained : (s.fill rows serialize).position ≠ (s.fill rows serialize).buffer.length := by
    rw [hposition]
    exact fun hzero => hleft (List.length_eq_zero_iff.mp hzero.symm)
  have hfirst : s.read rows serialize 0 = (.error reason, s.fill rows serialize) := by
    rw [read_drained hdrained h.failed, hreason]
  have hsecond := read_undrained rows serialize hundrained 0
  have hnothing : ((s.fill rows serialize).handOver 0).1 = .ok [] := by
    unfold handOver
    rw [Nat.zero_min]
    rfl
  refine ⟨reason, [], ?_⟩
  simp only [reads, hfirst, hsecond, hnothing]

/-- A row that fails and leaves something is reached by reads that drain each chunk. -/
theorem exists_ok_behind_error {k : Nat} {row : T} {e : String}
    (hencodes : Encodes rows serialize k) (hrow : rows k = some row)
    (he : (serialize row).result = .error e)
    (hleft : chunkBytes rows serialize k ≠ 0 ∨ (serialize row).bytes ≠ [])
    {front : List UInt8} {s : RowStream} (h : Live rows serialize front s)
    (hdrained : s.position = s.buffer.length) (hmore : s.exhausted = false) :
    ∃ (rooms : List Nat) (i : Nat) (reason : String) (bytes : List UInt8),
      (s.reads rows serialize rooms)[i]? = some (.error reason) ∧
        (s.reads rows serialize rooms)[i + 1]? = some (.ok bytes) := by
  have hstop : ∀ failing, rows k = some failing → (serialize failing).result ≠ .ok () := by
    intro failing hfailing hok
    cases hrow.symm.trans hfailing
    cases he.symm.trans hok
  induction hn : (records rows serialize k).length - front.length using Nat.strongRecOn
    generalizing front s with
  | ind n ih =>
    have hposition := fill_position rows serialize s
    have hfilled := filled_of_live h hdrained hmore
    cases hfilled with
    | ranOut _ _ hrows hencodes' _ =>
      -- the rows run out where the failing one is
      have hle := encodes_le hencodes' hstop
      have hge := encodes_le hencodes (fun failing hfailing => by
        rw [hrows] at hfailing
        cases hfailing)
      have heq := Nat.le_antisymm hle hge
      rw [heq, hrow] at hrows
      cases hrows
    | failed failing e' chunk hsome hfailing he' hencodes' _ hbuffer hchunk =>
      have hle := encodes_le hencodes' hstop
      have hge := encodes_le hencodes (fun again hagain hok => by
        cases hfailing.symm.trans hagain
        cases he'.symm.trans hok)
      have heq := Nat.le_antisymm hle hge
      rw [heq] at hfailing hchunk
      cases hrow.symm.trans hfailing
      have hsomething : (s.fill rows serialize).buffer ≠ [] := by
        rw [hbuffer]
        intro hnil
        obtain ⟨hchunkNil, hbytesNil⟩ := List.append_eq_nil_iff.mp hnil
        rcases hleft with hleft | hleft
        · apply hleft
          rw [hchunk, hchunkNil]
          rfl
        · exact hleft hbytesNil
      obtain ⟨reason, bytes, hreads⟩ := ok_behind_error h hdrained hsome hsomething
      refine ⟨[0, 0], 0, reason, bytes, ?_, ?_⟩
      · rw [hreads]
        rfl
      · rw [hreads]
        rfl
    | full hfailed hexhausted hasked hencodes' hrecords hchunk hfull =>
      -- a full chunk is drained by one read
      have hlive := live_of_filled hposition
        (.full hfailed hexhausted hasked hencodes' hrecords hchunk hfull) hfailed
      have hpositive : 0 < (s.fill rows serialize).buffer.length :=
        Nat.lt_of_lt_of_le (by decide) hfull
      have hread : s.read rows serialize (s.fill rows serialize).buffer.length =
          (s.fill rows serialize).handOver (s.fill rows serialize).buffer.length := by
        rw [read_drained hdrained h.failed, hfailed]
        dsimp only
        rw [if_neg fun hempty => Nat.ne_of_gt hpositive
          (List.length_eq_zero_iff.mpr (List.isEmpty_iff.mp hempty))]
      obtain ⟨bytes, hbytes, hnext, _⟩ :=
        live_handOver hlive (s.fill rows serialize).buffer.length
      have hall : bytes = (s.fill rows serialize).buffer := by
        have hbytes' := Except.ok.inj hbytes
        rw [hposition, Nat.sub_zero, Nat.min_self, List.drop_zero, List.take_length] at hbytes'
        exact hbytes'.symm
      have hdrained' : ((s.fill rows serialize).handOver
          (s.fill rows serialize).buffer.length).2.position =
            (s.fill rows serialize).buffer.length := by
        show (s.fill rows serialize).position + min _ _ = _
        rw [hposition, Nat.sub_zero, Nat.min_self, Nat.zero_add]
      have hwithin := records_length_mono rows serialize
        (encodes_le hencodes' hstop)
      have hlonger := congrArg List.length hrecords
      rw [List.length_append] at hlonger
      obtain ⟨rooms, i, reason, behind, herror, hok⟩ := ih
        ((records rows serialize k).length - (front ++ bytes).length) (by
          rw [List.length_append, hall]
          omega) hnext hdrained' hexhausted rfl
      refine ⟨(s.fill rows serialize).buffer.length :: rooms, i + 1, reason, behind, ?_, ?_⟩
      · unfold reads
        rw [hread]
        exact herror
      · unfold reads
        rw [hread]
        exact hok

/-- **Row streaming delivers whole rows or an error**, for every sequence of reads, exactly when
a row that fails leaves nothing in the buffer. -/
theorem delivers_iff_failsClean (rows : Nat → Option T) (serialize : T → Written String Unit) :
    (∀ rooms, Delivers rows serialize [] rooms (new.reads rows serialize rooms)) ↔
      FailsClean rows serialize := by
  constructor
  · intro hdelivers k row e hencodes hrow he
    apply Classical.byContradiction
    intro hleft
    obtain ⟨rooms, i, reason, bytes, herror, hok⟩ := exists_ok_behind_error hencodes hrow he
      (Classical.not_and_iff_not_or_not.mp hleft) live_new rfl rfl
    obtain ⟨_, hsticky⟩ := (hdelivers rooms).sticky i (i + 1) reason _ (Nat.lt_succ_self i)
      herror hok
    cases hsticky
  · intro hclean rooms
    exact delivers_of_live hclean rooms live_new

/-! ## Two rows, the second of which fails -/

/-- A row that encodes as `#`, and a list whose first item does not encode. -/
def twoRows (asked : Nat) : Option Bool :=
  match asked with
  | 0 => some true
  | 1 => some false
  | _ => none

def serializeEither (encodes : Bool) : Written String Unit :=
  if encodes then .emit [0x23] else ⟨[0x5B], .error "no encoding"⟩

/-- The read after the error hands out the first row, and the beginning of the second. -/
theorem twoRows_reads : new.reads twoRows serializeEither [16, 16] =
      [.error "row 1: no encoding", .ok [0x23, 0x3B, 0x5B]] ∧
    ¬ Delivers twoRows serializeEither [] [16, 16]
      (new.reads twoRows serializeEither [16, 16]) := by
  have hfill : fill twoRows serializeEither new =
      ⟨2, [0x23, 0x3B, 0x5B], 0, 1, some "row 1: no encoding", false⟩ := by
    unfold fill
    simp only [new, Bool.false_eq_true, if_false]
    rw [fillLoop, if_pos (by decide)]
    show fillLoop twoRows serializeEither ⟨1, [0x23, 0x3B], 0, 1, none, false⟩ = _
    rw [fillLoop, if_pos (by decide)]
    rfl
  have hreads : new.reads twoRows serializeEither [16, 16] =
      [.error "row 1: no encoding", .ok [0x23, 0x3B, 0x5B]] := by
    unfold reads
    rw [read_drained rfl rfl, hfill]
    rfl
  refine ⟨hreads, fun h => ?_⟩
  rw [hreads] at h
  obtain ⟨_, hsticky⟩ := h.sticky 0 1 _ _ Nat.zero_lt_one rfl rfl
  cases hsticky

end Ytsaurus.Client.RowStream
