import RateLimit.MemoryIsolation
import RateLimit.MemoryOverflow
import RateLimit.Reference

/-! The reference oracle against the memory store, on the windows of one key. Both count in
64-bit nanoseconds and wrap alike, so that their states mirror each other at every step of every
run. They differ in one place: the reference takes the index zero for "no segment in use" when
it looks for the earliest one. -/
namespace RateLimit.Memory

open Machine
open Reference (ReferenceState ReferenceSegment Answered)

/-! ## The oracle's calls -/

/-- `Reference.AdmitStrict`, on the entry of one key. -/
def referenceAdmit (entry : Option ReferenceState) (waits : Waits) (request : Request) :
    Machine (Option ReferenceState × Admitted) :=
  match request.validate, strictContext waits.entry with
  | .error problem, _ => pure (entry, ⟨{}, some (.wrapped problem)⟩)
  | .ok (), some problem => pure (entry, ⟨{}, some problem⟩)
  | .ok (), none =>
    if request.policy.algorithm = .concurrency then pure (entry, ⟨{}, some (.sentinel .unsupported)⟩)
    else match waits.interrupted with
      | some problem => pure (entry, ⟨{}, some problem⟩)
      | none => do
        let (entry, answer) ← Reference.admitStrict entry request
        pure (entry, ⟨answer.decision, answer.error.map .sentinel⟩)

/-! ## Indices of segments -/

/-- The reference asks for the sign first, the store for the remainder. -/
theorem referenceBoundary_eq (positive : 0 < size) (small : size < 9223372036854775808) (value : Int) :
    Reference.floorBoundary value size = floorBoundary value size := by
  have above : -size < value.tmod size := Int.lt_tmod_of_pos value positive
  have below : value.tmod size < size := Int.tmod_lt_of_pos value positive
  unfold Reference.floorBoundary floorBoundary
  rw [rem_exact (by omega) (by omega) (by omega)]
  simp only [pure_bind]
  congr 1
  funext quotient
  by_cases divides : value.tmod size = 0
  · simp [divides]
  · simp [divides]

/-! ## The earliest segment in use -/

/-- The indices of the segments in use that have not expired, in the order of their slots. -/
def liveIndices (oldest : Int) (segments : Fin 16 → Segment) (slots : List (Fin 16)) : List Int :=
  (slots.filter fun slot => decide (oldest < (segments slot).index ∧ (segments slot).used ≠ 0)).map
    fun slot => (segments slot).index

theorem liveIndices_cons (oldest : Int) (segments : Fin 16 → Segment) (slot : Fin 16) (rest : List (Fin 16)) :
    liveIndices oldest segments (slot :: rest) = if oldest < (segments slot).index ∧ (segments slot).used ≠ 0 then
      (segments slot).index :: liveIndices oldest segments rest else liveIndices oldest segments rest := by
  simp only [liveIndices, List.filter_cons, decide_eq_true_eq]
  split <;> rfl

/-- How the reference keeps the earliest index. -/
def earlierIndex (earliest index : Int) : Int := if earliest = 0 ∨ index < earliest then index else earliest

/-- The segments as the reference keeps them. -/
def mirror (segments : Fin 16 → Segment) : Fin 16 → ReferenceSegment :=
  fun slot => ⟨(segments slot).index, (segments slot).used⟩

theorem mirror_update (segments : Fin 16 → Segment) (slot : Fin 16) (segment : Segment) :
    Function.update (mirror segments) slot ⟨segment.index, segment.used⟩ =
      mirror (Function.update segments slot segment) := by
  funext other
  unfold mirror
  by_cases same : other = slot
  · subst same
    rw [Function.update_self, Function.update_self]
  · rw [Function.update_of_ne same, Function.update_of_ne same]

theorem liveIndices_update {oldest : Int} {segments : Fin 16 → Segment} (fresh : slot ∉ slots) (segment : Segment) :
    liveIndices oldest (Function.update segments slot segment) slots = liveIndices oldest segments slots := by
  have apart : ∀ other ∈ slots, Function.update segments slot segment other = segments other := by
    intro other member
    exact Function.update_of_ne (by rintro rfl; exact fresh member) _ _
  unfold liveIndices
  rw [List.filter_congr fun other member => by rw [apart other member]]
  exact List.map_congr_left fun other member => by rw [apart other (List.mem_of_mem_filter member)]

/-- Both sweeps leave the same segments and the same usage, and go through the same indices. -/
theorem sweep_mirrors (oldest : Int) (slots : List (Fin 16)) (distinct : slots.Nodup) (segments : Fin 16 → Segment)
    (used : Nat) (entry : ReferenceState) (first second : Int) :
    ∃ left total,
      (sweepSegments oldest slots segments used first).Returns
        (left, total, (liveIndices oldest segments slots).foldl min first) ∧
      (Reference.sweepReference oldest slots { entry with used := used, segments := mirror segments } second).Returns
        ({ entry with used := total, segments := mirror left },
          (liveIndices oldest segments slots).foldl earlierIndex second) ∧
      ∀ slot, (left slot).used ≠ 0 → left slot = segments slot := by
  induction slots generalizing segments used first second with
  | nil => exact ⟨segments, used, returns_pure _, returns_pure _, fun _ _ => rfl⟩
  | cons slot rest ih =>
    obtain ⟨fresh, later⟩ := List.nodup_cons.mp distinct
    unfold sweepSegments Reference.sweepReference
    by_cases expired : (segments slot).index ≤ oldest
    · obtain ⟨left, total, here, there, old⟩ := ih later (Function.update segments slot {}) used first second
      have none : liveIndices oldest segments (slot :: rest) = liveIndices oldest segments rest := by
        rw [liveIndices_cons, if_neg fun both => absurd both.1 (not_lt.mpr expired)]
      rw [liveIndices_update fresh] at here there
      rw [if_pos expired, if_pos (show ((mirror segments) slot).index ≤ oldest from expired), none]
      refine ⟨left, total, here, ?_, fun other some => ?_⟩
      · have cleared := mirror_update segments slot {}
        rw [cleared]
        exact there
      · have same := old other some
        by_cases here : other = slot
        · rw [here, Function.update_self] at same
          rw [here, same] at some
          exact absurd rfl some
        · rwa [Function.update_of_ne here] at same
    · rw [if_neg expired, if_neg (show ¬ ((mirror segments) slot).index ≤ oldest from expired)]
      by_cases some : (segments slot).used = 0
      · have none : liveIndices oldest segments (slot :: rest) = liveIndices oldest segments rest := by
          rw [liveIndices_cons, if_neg fun both => both.2 some]
        obtain ⟨left, total, here, there, old⟩ := ih later segments _ first second
        refine ⟨left, total, (u64_returns _).bind ?_, (u64_returns _).bind ?_, old⟩
        · rw [if_neg (not_not.mpr some), none]
          exact here
        · rw [if_neg (by simp [mirror, some]), none]
          exact there
      · have live : liveIndices oldest segments (slot :: rest) =
            (segments slot).index :: liveIndices oldest segments rest := by
          rw [liveIndices_cons, if_pos ⟨not_le.mp expired, some⟩]
        obtain ⟨left, total, here, there, old⟩ := ih later segments _ (min first (segments slot).index)
          (earlierIndex second (segments slot).index)
        refine ⟨left, total, (u64_returns _).bind ?_, (u64_returns _).bind ?_, old⟩
        · rw [if_pos some, live]
          exact here
        · have kept : (if ((mirror segments) slot).used > 0 ∧
            (second = 0 ∨ ((mirror segments) slot).index < second) then
              ((mirror segments) slot).index else second) = earlierIndex second (segments slot).index := by
            simp [mirror, earlierIndex, Nat.pos_of_ne_zero some]
          rw [live]
          rw [kept]
          exact there

/-- The least of the indices is the earliest one. -/
theorem foldl_min_eq (indices : List Int) (small : ∀ index ∈ indices, index < start) :
    indices.foldl min start = indices.min?.getD start := by
  cases indices with
  | nil => rfl
  | cons index rest =>
    rw [List.foldl_cons, min_eq_right (small index List.mem_cons_self).le, List.min?_cons']
    rfl

/-- Without the index zero the reference finds the least index too. -/
theorem foldl_earlier_eq (indices : List Int) (nonzero : 0 ∉ indices) :
    indices.foldl earlierIndex 0 = indices.min?.getD 0 := by
  have onward : ∀ (rest : List Int) (index : Int), index ≠ 0 → 0 ∉ rest → rest.foldl earlierIndex index =
    rest.foldl min index := by
    intro rest
    induction rest with
    | nil => exact fun _ _ _ => rfl
    | cons next rest ih =>
      intro index some nonzero
      have least : earlierIndex index next = min index next := by
        simp only [earlierIndex, some, false_or, min_def]
        split <;> split <;> omega
      have other : next ≠ 0 := fun zero => nonzero (by simp [zero])
      rw [List.foldl_cons, List.foldl_cons, least]
      exact ih _ (by rcases min_choice index next with same | same <;> simp [same, some, other])
        fun member => nonzero (List.mem_cons_of_mem _ member)
  cases indices with
  | nil => rfl
  | cons index rest =>
    have other : index ≠ 0 := fun zero => nonzero (by simp [zero])
    rw [List.foldl_cons, List.min?_cons', show earlierIndex 0 index = index from if_pos (Or.inl rfl),
      onward rest index other fun member => nonzero (List.mem_cons_of_mem _ member)]
    rfl

/-- What holds of the segments in use. -/
structure SegmentsPlaced (state : State) : Prop where
  placed : ∀ slot, (state.segments slot).used ≠ 0 → slot = Ring.slot 16 (state.segments slot).index
  bounded : ∀ slot, (state.segments slot).used ≠ 0 →
    -9223372036854775808 ≤ (state.segments slot).index * segmentSize state.windowPeriod ∧
      (state.segments slot).index * segmentSize state.windowPeriod < 9223372036854775808
  started : ∀ slot, (state.segments slot).used ≠ 0 → (state.segments slot).index = 0 → 0 ≤ state.lastSeen.nanos

theorem mem_liveIndices {oldest index : Int} {segments : Fin 16 → Segment} {slots : List (Fin 16)} :
    index ∈ liveIndices oldest segments slots ↔
      ∃ slot ∈ slots, oldest < (segments slot).index ∧ (segments slot).used ≠ 0 ∧ (segments slot).index = index := by
  simp only [liveIndices, List.mem_map, List.mem_filter, decide_eq_true_eq]
  constructor
  · rintro ⟨slot, ⟨member, newer, used⟩, same⟩
    exact ⟨slot, member, newer, used, same⟩
  · rintro ⟨slot, member, newer, used, same⟩
    exact ⟨slot, ⟨member, newer, used⟩, same⟩

/-- The index zero has the first slot. -/
theorem liveIndices_zero {oldest : Int} {segments : Fin 16 → Segment}
    (placed : ∀ slot, (segments slot).used ≠ 0 → slot = Ring.slot 16 (segments slot).index)
    (zero : 0 ∈ liveIndices oldest segments (List.finRange 16)) :
    ∃ rest, liveIndices oldest segments (List.finRange 16) = 0 :: rest ∧ 0 ∉ rest := by
  obtain ⟨slot, -, newer, used, index⟩ := mem_liveIndices.mp zero
  have first : ∀ slot, (segments slot).used ≠ 0 → (segments slot).index = 0 → slot = 0 := by
    intro slot used index
    rw [placed slot used, index]
    rfl
  obtain rfl := first slot used index
  refine ⟨liveIndices oldest segments ((List.finRange 15).map Fin.succ), ?_, fun again => ?_⟩
  · rw [List.finRange_succ, liveIndices_cons, if_pos ⟨newer, used⟩, index]
  · obtain ⟨slot, member, -, used, index⟩ := mem_liveIndices.mp again
    obtain ⟨before, -, rfl⟩ := List.mem_map.mp member
    exact Fin.succ_ne_zero before (first _ used index)

/-- The reset that follows from the earliest index. -/
def resetAt (size : Int) (request : Request) : Option Int → Time
  | none => request.now.add request.policy.period
  | some index => (⟨((index + 1) * size).bmod 18446744073709551616⟩ : Time).add request.policy.period

theorem slidingReset_returns {least : Option Int} (size : Int) (request : Request)
    (small : ∀ index, least = some index → index < maxInt64) :
    (slidingReset (least.getD maxInt64) size request).Returns (resetAt size request least) := by
  unfold slidingReset
  cases least with
  | none =>
    rw [if_neg (by simp)]
    exact returns_pure _
  | some index =>
    rw [Option.getD_some, if_pos (small index rfl).ne]
    exact boundary_returns index size _ (returns_pure _)

theorem referenceReset_returns {least : Option Int} (size : Int) (request : Request)
    (nonzero : ∀ index, least = some index → index ≠ 0) :
    (Reference.referenceReset (least.getD 0) size request).Returns (resetAt size request least) := by
  unfold Reference.referenceReset
  cases least with
  | none =>
    rw [if_neg (by simp)]
    exact returns_pure _
  | some index =>
    rw [Option.getD_some, if_pos (nonzero index rfl)]
    exact boundary_returns index size _ (returns_pure _)

/-! ## Steps on one state -/

/-- An entry of the reference holds what a state of the store holds. -/
structure Mirrored (state : State) (entry : ReferenceState) : Prop where
  algorithm : entry.algorithm = state.algorithm
  observed : entry.observed = state.lastSeen
  period : entry.period = state.windowPeriod
  window : entry.window = state.windowStart
  used : entry.used = state.used
  segments : entry.segments = mirror state.segments

/-- What the two algorithms return: the same but for the resets, which decide the rest. -/
structure Alike (outcome : Outcome) (answered : Answered) (reset reset' : Time) : Prop where
  mirrored : Mirrored outcome.state answered.state
  error : outcome.error = answered.error
  told : outcome.decision.reset = reset
  told' : answered.decision.reset = reset'
  same : reset = reset' → outcome.decision = answered.decision

theorem consume_alike {request : Request} {period : Nat} (limits : Limits request period) {current : State}
    {entry : ReferenceState} (mirrored : Mirrored current entry) (reset reset' : Time) :
    ∃ outcome answered, consumeWindow current request reset = pure outcome ∧
      Reference.referenceConsume entry request reset' = pure answered ∧ Alike outcome answered reset reset' ∧
      outcome.state = { current with used := outcome.state.used } := by
  have limit := limits.limit_le
  have cost := limits.cost_pos
  unfold consumeWindow Reference.referenceConsume
  dsimp only
  rw [mirrored.used, u64_sub_exact (min_le_right _ _) (by omega), pure_bind, pure_bind]
  split
  · refine ⟨_, _, rfl, rfl, ⟨mirrored, rfl, rfl, rfl, ?_⟩, rfl⟩
    rintro rfl
    rfl
  · rename_i enough
    have room : current.used + request.cost ≤ request.policy.limit := by omega
    rw [u64_add_exact (by omega), pure_bind, pure_bind, u64_sub_exact room (by omega), pure_bind, pure_bind]
    refine ⟨_, _, rfl, rfl, ⟨⟨mirrored.algorithm, mirrored.observed, mirrored.period, mirrored.window, rfl,
      mirrored.segments⟩, rfl, rfl, rfl, ?_⟩, rfl⟩
    rintro rfl
    rfl

/-- What a window leaves in use: what was, and the segment of the request. -/
structure Slid (current next : State) (index : Int) : Prop where
  algorithm : next.algorithm = current.algorithm
  seen : next.lastSeen = current.lastSeen
  period : next.windowPeriod = current.windowPeriod
  segments : ∀ slot, (next.segments slot).used ≠ 0 →
    (next.segments slot).index = index ∧ slot = Ring.slot 16 index ∨
      (current.segments slot).used ≠ 0 ∧ (next.segments slot).index = (current.segments slot).index

/-- Fixed windows agree. -/
theorem fixed_alike {request : Request} {period : Nat} (limits : Limits request period) {current : State}
    {entry : ReferenceState} (mirrored : Mirrored current entry) (index : Int) :
    ∃ outcome answered reset, (admitFixed current request).Returns outcome ∧
      (Reference.referenceFixed entry request).Returns answered ∧ Alike outcome answered reset reset ∧
      Slid current outcome.state index := by
  obtain ⟨nanos, positive, small⟩ := period_nanos limits
  have ⟨low, high⟩ := bmod_bounds request.now.nanos
  have mirrored' : ∀ start, Mirrored
      (if current.windowStart ≠ start then { current with windowStart := start, used := 0 } else current)
      (if entry.window ≠ start then { entry with window := start, used := 0 } else entry) := by
    intro start
    rw [mirrored.window]
    split
    · exact ⟨mirrored.algorithm, mirrored.observed, mirrored.period, rfl, rfl, mirrored.segments⟩
    · exact mirrored
  have opened : ∀ start used, Slid current
      { (if current.windowStart ≠ start then { current with windowStart := start, used := 0 } else current) with
        used := used } index := by
    intro start used
    split
    · exact ⟨rfl, rfl, rfl, fun slot used => Or.inr ⟨used, rfl⟩⟩
    · exact ⟨rfl, rfl, rfl, fun slot used => Or.inr ⟨used, rfl⟩⟩
  obtain ⟨outcome, answered, charged, consumed, alike, kept⟩ := consume_alike limits
    (mirrored' ((request.now.nanos.bmod 18446744073709551616 / request.policy.period.nanos *
      request.policy.period.nanos).bmod 18446744073709551616)) _ _
  refine ⟨outcome, answered, _, (i64_returns _).bind ?_, (i64_returns _).bind ?_, alike, kept ▸ opened _ _⟩
  · rw [floorBoundary_eq (by omega) (by omega) low high]
    exact (i64_returns _).bind ((i64_returns _).bind (returns_of_eq charged))
  · rw [referenceBoundary_eq (by omega) (by omega), floorBoundary_eq (by omega) (by omega) low high]
    exact (i64_returns _).bind ((i64_returns _).bind (returns_of_eq consumed))

/-- The earliest segment in use, and what the reference takes for it. -/
def leastLive (oldest : Int) (segments : Fin 16 → Segment) : Option Int :=
  (liveIndices oldest segments (List.finRange 16)).min?

def leastNonzero (oldest : Int) (segments : Fin 16 → Segment) : Option Int :=
  ((liveIndices oldest segments (List.finRange 16)).filter fun index => decide (index ≠ 0)).min?

/-- The reference finds the least index but zero. -/
theorem foldl_earlier_live {oldest : Int} {segments : Fin 16 → Segment}
    (placed : ∀ slot, (segments slot).used ≠ 0 → slot = Ring.slot 16 (segments slot).index) :
    (liveIndices oldest segments (List.finRange 16)).foldl earlierIndex 0 = (leastNonzero oldest segments).getD 0 := by
  unfold leastNonzero
  by_cases zero : 0 ∈ liveIndices oldest segments (List.finRange 16)
  · obtain ⟨rest, shape, none⟩ := liveIndices_zero placed zero
    have kept : rest.filter (fun index => decide (index ≠ 0)) = rest :=
      List.filter_eq_self.mpr fun index member => by simpa using fun same : index = 0 => none (same ▸ member)
    rw [shape, List.foldl_cons, List.filter_cons_of_neg (by simp), kept, ← foldl_earlier_eq rest none]
    rfl
  · have kept : (liveIndices oldest segments (List.finRange 16)).filter (fun index => decide (index ≠ 0)) = _ :=
      List.filter_eq_self.mpr fun index member => by simpa using fun same : index = 0 => zero (same ▸ member)
    rw [kept, foldl_earlier_eq _ zero]

/-- The usage of a request is added to its segment by both. -/
theorem credit_alike (request : Request) {outcome : Outcome} {answered : Answered} {reset reset' : Time} (slot : Fin 16)
    (alike : Alike outcome answered reset reset') :
    ∃ outcome' answered',
      (if outcome.error = none then do
          let used ← u64 (((outcome.state.segments slot).used : Int) + request.cost)
          pure { outcome with
            state := { outcome.state with
              segments := Function.update outcome.state.segments slot
                { outcome.state.segments slot with used := used } } }
        else pure outcome).Returns outcome' ∧
      (if answered.error = none then do
          let used ← u64 (((answered.state.segments slot).used : Int) + request.cost)
          pure { answered with
            state := { answered.state with
              segments := Function.update answered.state.segments slot
                { answered.state.segments slot with used := used } } }
        else pure answered).Returns answered' ∧
      Alike outcome' answered' reset reset' ∧ outcome'.state.algorithm = outcome.state.algorithm ∧
      outcome'.state.lastSeen = outcome.state.lastSeen ∧
      outcome'.state.windowPeriod = outcome.state.windowPeriod ∧
      ∀ other, (outcome'.state.segments other).index = (outcome.state.segments other).index ∧
        (other ≠ slot → outcome'.state.segments other = outcome.state.segments other) := by
  have mirrored := alike.mirrored
  have segment : answered.state.segments slot =
    ⟨(outcome.state.segments slot).index, (outcome.state.segments slot).used⟩ := by
    rw [mirrored.segments]
    rfl
  rw [segment, mirrored.segments]
  by_cases allowed : outcome.error = none
  · rw [if_pos allowed, if_pos (alike.error ▸ allowed)]
    refine ⟨_, _, (u64_returns _).bind (returns_pure _), (u64_returns _).bind (returns_pure _), ?_, rfl, rfl, rfl,
      fun other => ?_⟩
    · exact ⟨⟨mirrored.algorithm, mirrored.observed, mirrored.period, mirrored.window, mirrored.used,
        mirror_update outcome.state.segments slot { outcome.state.segments slot with used := _ }⟩,
        alike.error, alike.told, alike.told', alike.same⟩
    · dsimp only
      by_cases same : other = slot
      · subst same
        rw [Function.update_self]
        exact ⟨rfl, fun apart => absurd rfl apart⟩
      · rw [Function.update_of_ne same]
        exact ⟨rfl, fun _ => rfl⟩
  · rw [if_neg allowed, if_neg (alike.error ▸ allowed)]
    exact ⟨outcome, answered, returns_pure _, returns_pure _, alike, rfl, rfl, rfl, fun _ => ⟨rfl, fun _ => rfl⟩⟩

/-- The slot of an index, as the reference computes it. -/
theorem position_eq (index : Int) (rest : Int → Machine α) :
    (rem index 16 >>= fun position => if position < 0 then i64 (position + 16) >>= rest else pure position >>= rest) =
      rest (index % 16) := by
  have exact := congrArg (· >>= rest) (positiveMod_exact index)
  simp only [positiveMod, bind_assoc, pure_bind] at exact
  rw [← exact]
  congr 1
  funext position
  split <;> rfl

theorem claim_mirrors (entry : ReferenceState) (total : Nat) (left : Fin 16 → Segment) (slot : Fin 16) (index : Int) :
    (if ((mirror left) slot).index ≠ index then
        { entry with used := total, segments := Function.update (mirror left) slot { index := index } }
      else { entry with used := total, segments := mirror left }) =
      { entry with
        used := total
        segments := mirror (if (left slot).index ≠ index then Function.update left slot { index := index } else left)
          } := by
  have taken := mirror_update left slot { index := index }
  rw [taken, show ((mirror left) slot).index = (left slot).index from rfl]
  split <;> rfl

section
variable {request : Request} {period : Nat} (limits : Limits request period) {current : State} {entry : ReferenceState}
  (mirrored : Mirrored current entry)
  (placed : ∀ slot, (current.segments slot).used ≠ 0 → slot = Ring.slot 16 (current.segments slot).index)
  (small : ∀ slot, (current.segments slot).used ≠ 0 → (current.segments slot).index < maxInt64)
include limits mirrored placed small

/-- Sliding windows agree but for the reset. -/
theorem sliding_alike :
    ∃ outcome answered, (admitSliding current request).Returns outcome ∧
      (Reference.referenceSliding entry request).Returns answered ∧
      Alike outcome answered
        (resetAt (segmentSize request.policy.period) request (leastLive (countedIndex
          (request.now.nanos - request.policy.period.nanos) (segmentSize request.policy.period)) current.segments))
        (resetAt (segmentSize request.policy.period) request (leastNonzero (countedIndex
          (request.now.nanos - request.policy.period.nanos) (segmentSize request.policy.period)) current.segments)) ∧
      Slid current outcome.state (countedIndex request.now.nanos (segmentSize request.policy.period)) := by
  obtain ⟨size_eq, large, below, most⟩ := segmentSize_bounds limits
  obtain ⟨nanos, positive, -⟩ := period_nanos limits
  generalize segmentSize request.policy.period = size at *
  generalize indexed : countedIndex request.now.nanos size = index
  generalize expired : countedIndex (request.now.nanos - request.policy.period.nanos) size = oldest
  obtain ⟨left, total, here, there, old⟩ := sweep_mirrors oldest (List.finRange 16)
    (List.nodup_finRange 16) current.segments 0
    entry maxInt64 0
  have bounded : ∀ index ∈ liveIndices oldest current.segments (List.finRange 16), index < maxInt64 := by
    intro index member
    obtain ⟨slot, -, -, used, rfl⟩ := mem_liveIndices.mp member
    exact small slot used
  rw [foldl_min_eq _ bounded] at here
  rw [foldl_earlier_live placed] at there
  -- The slot of the request, taken over by both in the same way.
  generalize claims : (if (left (Ring.slot 16 index)).index ≠ index then
    Function.update left (Ring.slot 16 index) { index := index } else left) = claimed
  have taken : Mirrored { current with used := total, segments := claimed }
      { entry with used := total, segments := mirror claimed } :=
    ⟨mirrored.algorithm, mirrored.observed, mirrored.period, mirrored.window, rfl, rfl⟩
  obtain ⟨outcome, answered, charged, consumed, alike, kept⟩ := consume_alike limits taken
    (resetAt size request (leastLive oldest current.segments))
      (resetAt size request (leastNonzero oldest current.segments))
  obtain ⟨outcome', answered', credited, credited', alike', named, seen, lasts, segments⟩ :=
    credit_alike request (Ring.slot 16 index) alike
  refine ⟨outcome', answered', ?_, ?_, alike', ?_⟩
  · unfold admitSliding
    rw [i64_exact (by omega) (by omega), pure_bind, quo_exact (by decide) (by omega) (by omega), pure_bind, size_eq]
    refine countedIndex_returns _ large (by omega) ?_
    refine countedIndex_returns (request.now.nanos - request.policy.period.nanos) large (by omega) ?_
    rw [indexed, expired]
    refine here.bind ?_
    dsimp only
    rw [positiveMod_exact, pure_bind, Postgres.slotAt_exact, pure_bind, claims]
    refine (slidingReset_returns size request fun least found => bounded least (List.min?_mem found)).bind ?_
    exact (returns_of_eq charged).bind credited
  · unfold Reference.referenceSliding
    have padded : request.policy.period.nanos + 15 = request.policy.period.nanos + 16 - 1 := by omega
    rw [padded, i64_exact (by omega) (by omega), pure_bind, quo_exact (by decide) (by omega) (by omega),
      pure_bind, size_eq]
    simp only [referenceBoundary_eq (show 0 < size by omega) (by omega)]
    refine countedIndex_returns _ large (by omega) ?_
    refine countedIndex_returns (request.now.nanos - request.policy.period.nanos) large (by omega) ?_
    have empty : ({ entry with used := 0 } : ReferenceState) =
      { entry with used := 0, segments := mirror current.segments } := by
      rw [← mirrored.segments]
    rw [indexed, expired, empty]
    refine there.bind ?_
    rw [position_eq, Postgres.slotAt_exact, pure_bind, claim_mirrors entry total left, claims]
    refine (referenceReset_returns size request fun least found => ?_).bind ((returns_of_eq consumed).bind credited')
    simpa using (List.mem_filter.mp (List.min?_mem found)).2
  · refine ⟨by rw [named, kept], by rw [seen, kept], by rw [lasts, kept], fun slot used => ?_⟩
    obtain ⟨named, others⟩ := segments slot
    rw [kept] at named others
    dsimp only at named others
    by_cases here : slot = Ring.slot 16 index
    · refine Or.inl ⟨?_, here⟩
      rw [named, ← claims, here]
      split
      · rw [Function.update_self]
      · rename_i same
        exact not_not.mp same
    · have same := others here
      rw [← claims] at same
      have untouched : outcome'.state.segments slot = left slot := by
        rw [same]
        split
        · exact Function.update_of_ne here _ _
        · rfl
      rw [untouched] at used ⊢
      have before := old slot used
      exact Or.inr ⟨before ▸ used, by rw [before]⟩

end

/-! ## Where the resets differ -/

/-- Before 1970 no segment has the index zero. -/
theorem countedIndex_zero (positive : 0 < size) (small : size ≤ 562949953421312000)
    (low : -9007199254740991000 ≤ nanos) (high : nanos < 9007199254740992000)
    (zero : countedIndex nanos size = 0) : 0 ≤ nanos := by
  by_contra negative
  have bounds := Postgres.multiple_bounds nanos positive
  have below : nanos / size < 0 := Int.ediv_neg_of_neg_of_pos (by omega) positive
  by_cases fits : -9223372036854775808 ≤ nanos / size * size
  · rw [countedIndex_exact positive fits (by omega)] at zero
    omega
  · have same : nanos.bmod 18446744073709551616 = nanos := Int.bmod_eq_of_le (by norm_num; omega) (by norm_num; omega)
    have wrapped := bmod_low (show -18446744073709551616 ≤ nanos / size * size by omega) (not_le.mp fits)
    rw [countedIndex, same, wrapped, Int.tdiv_eq_ediv_of_nonneg (by omega)] at zero
    have late := (Postgres.multiple_bounds (nanos / size * size + 18446744073709551616) positive).2
    rw [zero] at late
    omega

/-- The segment with the index zero is in use and has not expired, and no earlier one is; the
reference takes it for none. If it is the only one and the request comes when it ends, this
makes no difference. -/
def ZeroMissed (segments : Fin 16 → Segment) (now : Time) (period : Duration) : Prop :=
  (∃ slot, (segments slot).used ≠ 0 ∧ (segments slot).index = 0) ∧ now.nanos < period.nanos ∧
    (∀ slot, (segments slot).used ≠ 0 → (now.nanos - period.nanos) / segmentSize period < (segments slot).index →
      0 ≤ (segments slot).index) ∧
    ¬ (now.nanos = segmentSize period ∧ ∀ slot, (segments slot).used ≠ 0 →
      (now.nanos - period.nanos) / segmentSize period < (segments slot).index → (segments slot).index = 0)

/-- The segment boundary of one period ago is in range after 1970. -/
theorem expiredIndex_exact {now period size : Int} (sized : size = (period + 16 - 1) / 16) (positive : 0 < period)
    (small : period ≤ 9007199254740991000) (started : 0 ≤ now) (high : now + period < 9007199254740992000) :
    countedIndex (now - period) size = (now - period) / size := by
  have least : -16 ≤ (now - period) / size := (Int.le_ediv_iff_mul_le (by omega)).mpr (by omega)
  have multiple := mul_le_mul_of_nonneg_right least (show 0 ≤ size by omega)
  exact countedIndex_exact (by omega) (by omega) (by omega)

/-- With no segment in use the reset is one period on, and so it is when the segment with the
index zero ends now. -/
theorem resetAt_zero {size : Int} (request : Request) (positive : 0 < size) (small : size < 9223372036854775808) :
    resetAt size request (some 0) = resetAt size request none ↔ request.now.nanos = size := by
  have fits : size.bmod 18446744073709551616 = size := Int.bmod_eq_of_le (by norm_num; omega) (by norm_num; omega)
  simp only [resetAt, Time.add, zero_add, one_mul, fits, Time.mk.injEq, add_left_inj]
  exact eq_comm

/-- Another segment resets at another time. -/
theorem resetAt_apart {index size : Int} (request : Request) (positive : 0 < index * size)
    (high : index * size < 9223372036854775808) : resetAt size request (some 0) ≠ resetAt size request
      (some index) := by
  intro same
  have equal := congrArg Time.nanos same
  simp only [resetAt, Time.add, zero_add, one_mul, add_left_inj] at equal
  rw [show (index + 1) * size = index * size + size by ring] at equal
  have wrapped : (index * size).bmod 18446744073709551616 = (0 : Int).bmod 18446744073709551616 := by
    rw [← Int.bmod_add_cancel_right size, zero_add]
    exact equal.symm
  have zero := (bmod_inj (by rw [sub_zero, abs_of_pos positive]; omega)).mp wrapped
  omega

section
variable {request : Request} {period : Nat} (limits : Limits request period) (range : InRange request.now period)
  {current : State} (placed : SegmentsPlaced current) (seen : current.lastSeen = request.now)
  (samePeriod : current.windowPeriod = request.policy.period)
include limits range placed seen samePeriod

/-- The resets are the same unless the reference misses the index zero. -/
theorem resets_eq_iff :
    resetAt (segmentSize request.policy.period) request (leastLive (countedIndex
          (request.now.nanos - request.policy.period.nanos) (segmentSize request.policy.period)) current.segments) =
        resetAt (segmentSize request.policy.period) request (leastNonzero (countedIndex
          (request.now.nanos - request.policy.period.nanos) (segmentSize request.policy.period)) current.segments) ↔
      ¬ ZeroMissed current.segments request.now request.policy.period := by
  obtain ⟨-, large, below, most⟩ := segmentSize_bounds limits
  obtain ⟨low, high⟩ := now_bounds limits range
  obtain ⟨nanos, positive, -⟩ := period_nanos limits
  have bounded := placed.bounded
  have started := placed.started
  rw [samePeriod] at bounded
  rw [seen] at started
  have exact : 0 ≤ request.now.nanos → countedIndex (request.now.nanos - request.policy.period.nanos)
      (segmentSize request.policy.period) =
      (request.now.nanos - request.policy.period.nanos) / segmentSize request.policy.period :=
    fun later => expiredIndex_exact rfl (by omega) most later high
  unfold ZeroMissed
  generalize segmentSize request.policy.period = size at *
  generalize countedIndex (request.now.nanos - request.policy.period.nanos) size = oldest at *
  unfold leastNonzero leastLive
  by_cases zero : 0 ∈ liveIndices oldest current.segments (List.finRange 16)
  · obtain ⟨slot, -, newer, used, index⟩ := mem_liveIndices.mp zero
    have later := started slot used index
    obtain rfl := exact later
    have early : request.now.nanos < request.policy.period.nanos := by
      by_contra late
      have := Int.ediv_nonneg (show 0 ≤ request.now.nanos - request.policy.period.nanos by omega)
        (show 0 ≤ size by omega)
      omega
    obtain ⟨rest, shape, none⟩ := liveIndices_zero placed.placed zero
    have kept : rest.filter (fun index => decide (index ≠ 0)) = rest :=
      List.filter_eq_self.mpr fun index member => by simpa using fun same : index = 0 => none (same ▸ member)
    have listed : ∀ slot, (current.segments slot).used ≠ 0 →
        (request.now.nanos - request.policy.period.nanos) / size < (current.segments slot).index →
        (current.segments slot).index = 0 ∨ (current.segments slot).index ∈ rest := by
      intro slot used newer
      have member := mem_liveIndices.mpr ⟨slot, List.mem_finRange slot, newer, used, rfl⟩
      rwa [shape, List.mem_cons] at member
    rw [shape, List.filter_cons_of_neg (by simp), kept]
    cases least : rest.min? with
    | none =>
      obtain rfl := List.min?_eq_none_iff.mp least
      have alone : ∀ slot, (current.segments slot).used ≠ 0 →
          (request.now.nanos - request.policy.period.nanos) / size < (current.segments slot).index →
          (current.segments slot).index = 0 := fun slot used newer => (listed slot used newer).resolve_right (by simp)
      rw [List.min?_singleton, resetAt_zero request (by omega) (by omega)]
      constructor
      · exact fun ends missed => missed.2.2.2 ⟨ends, alone⟩
      · refine fun found => by_contra fun apart => found ⟨⟨slot, used, index⟩, early, ?_, fun ends => apart ends.1⟩
        exact fun slot used newer => (alone slot used newer).ge
    | some other =>
      obtain ⟨member, smallest⟩ := List.min?_eq_some_iff.mp least
      obtain ⟨place, -, newer', used', rfl⟩ := mem_liveIndices.mp (shape ▸ List.mem_cons_of_mem 0 member)
      have nonzero : (current.segments place).index ≠ 0 := fun same => none (same ▸ member)
      rcases lt_or_gt_of_ne nonzero with before | after
      · have first : (0 :: rest).min? = some (current.segments place).index := by
          rw [List.min?_cons, least]
          exact congrArg some (min_eq_right before.le)
        rw [first]
        exact iff_of_true rfl fun missed => absurd (missed.2.2.1 place used' newer') (by omega)
      · have first : (0 :: rest).min? = some 0 := by
          rw [List.min?_cons, least]
          exact congrArg some (min_eq_left after.le)
        rw [first]
        refine iff_of_false (resetAt_apart request (by nlinarith) (bounded place used').2) (not_not_intro ?_)
        refine ⟨⟨slot, used, index⟩, early, fun slot used newer => ?_, fun ends => nonzero (ends.2 place used' newer')⟩
        rcases listed slot used newer with same | listed
        · exact same.ge
        · exact after.le.trans (smallest _ listed)
  · have kept : (liveIndices oldest current.segments (List.finRange 16)).filter (fun index => decide (index ≠ 0)) = _ :=
      List.filter_eq_self.mpr fun index member => by simpa using fun same : index = 0 => zero (same ▸ member)
    rw [kept]
    refine iff_of_true rfl ?_
    rintro ⟨⟨slot, used, index⟩, early, -, -⟩
    obtain rfl := exact (started slot used index)
    refine zero (mem_liveIndices.mpr ⟨slot, List.mem_finRange slot, ?_, used, index⟩)
    rw [index]
    exact Int.ediv_neg_of_neg_of_pos (by omega) (by omega)

omit samePeriod in
/-- If the index zero is missed, it is that of the earliest segment in use. -/
theorem leastLive_missed (missed : ZeroMissed current.segments request.now request.policy.period) :
    leastLive (countedIndex (request.now.nanos - request.policy.period.nanos) (segmentSize request.policy.period))
      current.segments = some 0 := by
  obtain ⟨⟨slot, used, index⟩, early, least, -⟩ := missed
  obtain ⟨-, large, -, most⟩ := segmentSize_bounds limits
  obtain ⟨nanos, positive, -⟩ := period_nanos limits
  have later := placed.started slot used index
  rw [seen] at later
  have exact : countedIndex (request.now.nanos - request.policy.period.nanos) (segmentSize request.policy.period) = _ :=
    expiredIndex_exact rfl (by omega) most later (now_bounds limits range).2
  rw [exact]
  refine List.min?_eq_some_iff.mpr ⟨mem_liveIndices.mpr ⟨slot, List.mem_finRange slot, ?_, used, index⟩,
    fun other member => ?_⟩
  · rw [index]
    exact Int.ediv_neg_of_neg_of_pos (by omega) (by omega)
  · obtain ⟨place, -, newer, used, rfl⟩ := mem_liveIndices.mp member
    exact least place used newer

/-- What a window leaves is placed. -/
theorem SegmentsPlaced.slid {next : State}
    (slid : Slid current next (countedIndex request.now.nanos (segmentSize request.policy.period))) :
    SegmentsPlaced next := by
  obtain ⟨low, high⟩ := now_bounds limits range
  obtain ⟨-, large, -, most⟩ := segmentSize_bounds limits
  obtain ⟨nanos, positive, -⟩ := period_nanos limits
  have bounded := placed.bounded
  have small : segmentSize request.policy.period ≤ 562949953421312000 := by
    unfold segmentSize
    omega
  rw [samePeriod] at bounded
  refine ⟨fun slot used => ?_, fun slot used => ?_, fun slot used index => ?_⟩
  · rcases slid.segments slot used with ⟨index, here⟩ | ⟨used, index⟩
    · rw [index, ← here]
    · rw [index]
      exact placed.placed slot used
  · rw [slid.period, samePeriod]
    rcases slid.segments slot used with ⟨index, -⟩ | ⟨used, index⟩
    · rw [index]
      exact countedIndex_bounds _ (by omega)
    · rw [index]
      exact bounded slot used
  · rw [slid.seen]
    rcases slid.segments slot used with ⟨here, -⟩ | ⟨used, here⟩
    · rw [seen]
      exact countedIndex_zero (by omega) small low (by omega) (here.symm.trans index)
    · exact placed.started slot used (here.symm.trans index)

/-- Windows agree but for the reset, and for that too unless the index zero is missed. -/
theorem window_alike {entry : ReferenceState} (mirrored : Mirrored current entry)
    (window : request.policy.algorithm = .fixedWindow ∨ request.policy.algorithm = .slidingWindow) :
    ∃ outcome answered reset reset', (admitState current request).Returns outcome ∧
      (Reference.admitCurrent entry request).Returns answered ∧ Alike outcome answered reset reset' ∧
      SegmentsPlaced outcome.state ∧ outcome.state.algorithm = current.algorithm ∧
      outcome.state.windowPeriod = current.windowPeriod ∧ outcome.state.lastSeen = request.now ∧
      (reset = reset' ↔ ¬ (request.policy.algorithm = .slidingWindow ∧
        ZeroMissed current.segments request.now request.policy.period)) ∧
      (reset ≠ reset' → request.now.nanos ≤ reset.nanos ∧ 0 ≤ reset.nanos) := by
  have observed : entry.observed = request.now := mirrored.observed.trans seen
  have same : Reference.clampTime request.now entry.observed = request.now := by
    rw [observed, Reference.clampTime, if_neg (lt_irrefl _)]
  have kept : { entry with observed := request.now } = entry := by rw [← observed]
  unfold admitState Reference.admitCurrent
  dsimp only
  rw [same, kept]
  rcases window with fixed | sliding
  · obtain ⟨outcome, answered, reset, here, there, alike, slid⟩ := fixed_alike limits mirrored
      (countedIndex request.now.nanos (segmentSize request.policy.period))
    simp only [fixed]
    exact ⟨outcome, answered, reset, reset, here, there, alike, placed.slid limits range seen samePeriod slid,
      slid.algorithm, slid.period, slid.seen.trans seen, by simp, fun apart => absurd rfl apart⟩
  · obtain ⟨-, large, below, most⟩ := segmentSize_bounds limits
    have small : ∀ slot, (current.segments slot).used ≠ 0 → (current.segments slot).index < maxInt64 := by
      intro slot used
      have below := (placed.bounded slot used).2
      rw [samePeriod] at below
      unfold maxInt64
      by_contra beyond
      nlinarith
    obtain ⟨outcome, answered, here, there, alike, slid⟩ := sliding_alike limits mirrored placed.placed small
    have differ := resets_eq_iff limits range placed seen samePeriod
    simp only [sliding]
    refine ⟨outcome, answered, _, _, here, there, alike, placed.slid limits range seen samePeriod slid,
      slid.algorithm, slid.period, slid.seen.trans seen, by simpa using differ, fun apart => ?_⟩
    have missed := not_not.mp (mt differ.mpr apart)
    rw [leastLive_missed limits range placed seen missed]
    have fits : (segmentSize request.policy.period).bmod 18446744073709551616 = segmentSize request.policy.period :=
      Int.bmod_eq_of_le (by norm_num; omega) (by norm_num; omega)
    simp only [resetAt, Time.add, zero_add, one_mul, fits]
    have early := missed.2.1
    omega

end

/-! ## Steps on one key -/

/-- Answers are the same where the resets are. -/
theorem answers_eq_iff {outcome : Outcome} {answered : Answered} {reset reset' : Time}
    (alike : Alike outcome answered reset reset')
    (apart : reset ≠ reset' → outcome.state.lastSeen.nanos ≤ reset.nanos ∧ 0 ≤ reset.nanos) :
    strictDecisionResult ⟨outcome.decision, outcome.error⟩ outcome.state.lastSeen =
      Reference.strictDecisionResult answered.decision answered.error answered.state.observed ↔ reset = reset' := by
  constructor
  · intro same
    by_contra differ
    obtain ⟨late, started⟩ := apart differ
    have here : strictDecisionResult ⟨outcome.decision, outcome.error⟩ outcome.state.lastSeen =
        ⟨outcome.decision, outcome.error⟩ := by
      unfold strictDecisionResult validateStrictDecisionTime Postgres.validateStrictDecisionTime
      rw [if_neg (fun early => by rw [alike.told] at early; omega)]
    have there :
      (Reference.strictDecisionResult answered.decision answered.error answered.state.observed).decision.reset =
        Time.zero ∨
        (Reference.strictDecisionResult answered.decision answered.error answered.state.observed).decision.reset =
          reset' := by
      unfold Reference.strictDecisionResult Reference.validateStrictDecisionTime
      split
      · exact Or.inl rfl
      · exact Or.inr alike.told'
    rw [← same, here, alike.told] at there
    rcases there with zero | equal
    · rw [zero] at started
      exact absurd started (by decide)
    · exact differ equal
  · intro same
    have decisions := alike.same same
    rw [decisions, alike.error, alike.mirrored.observed]
    rfl

/-- The entries of one window key in the store and in the reference. -/
inductive Paired (algorithm : Algorithm) (period : Nat) : Option State → Option ReferenceState → Prop where
  | fresh : Paired algorithm period none none
  | made {current : State} {entry : ReferenceState} (mirrored : Mirrored current entry)
    (named : current.algorithm = algorithm) (timed : current.windowPeriod = .ofMicros period)
    (range : InRange current.lastSeen period) (placed : SegmentsPlaced current) :
    Paired algorithm period (some current) (some entry)

/-- The segments of a key. -/
def segmentsOf (found : Option State) : Fin 16 → Segment :=
  match found with
  | some current => current.segments
  | none => fun _ => {}

/-- A revision leaves the window of a key as it was. -/
theorem adopted_window (current : State) (request : Request) :
    (adopted (some current) request).algorithm = current.algorithm ∧
      (adopted (some current) request).windowPeriod = current.windowPeriod ∧
      (adopted (some current) request).windowStart = current.windowStart ∧
      (adopted (some current) request).used = current.used ∧
      (adopted (some current) request).segments = current.segments := by
  unfold adopted
  dsimp only
  split <;> exact ⟨rfl, rfl, rfl, rfl, rfl⟩

theorem adopted_segments (found : Option State) (request : Request) : (adopted found request).segments =
    segmentsOf found := by
  cases found with
  | none => rfl
  | some current => exact (adopted_window current request).2.2.2.2

/-- Both get to the algorithm, on states that mirror each other at one time. -/
structure Ready (found : Option State) (entry : Option ReferenceState) (request : Request) (period : Nat) : Prop where
  samePeriod : periodMismatch found request.policy = false
  samePeriod' : Reference.periodMismatch entry request.policy = false
  sameKind : foreignState found request.policy.algorithm = false
  sameTime : Reference.effectiveTime entry request.now = effectiveTime found request.now
  range : InRange (effectiveTime found request.now) period
  mirrored : Mirrored { adopted found request with lastSeen := effectiveTime found request.now }
    { Reference.stateFor entry request with
      revision := request.policy.revision, observed := effectiveTime found request.now }
  placed : SegmentsPlaced { adopted found request with lastSeen := effectiveTime found request.now }
  algorithm : (adopted found request).algorithm = request.policy.algorithm
  period : (adopted found request).windowPeriod = request.policy.period
  observed : Reference.clampTime request.now (Reference.stateFor entry request).observed =
    effectiveTime found request.now

theorem Paired.ready {request : Request} {period : Nat} (bounds : request.Bounds period)
    (paired : Paired request.policy.algorithm period found entry) : Ready found entry request period := by
  cases paired with
  | fresh =>
    have unused : ∀ slot, ¬ ((freshState request).segments slot).used ≠ 0 := fun slot used => used rfl
    exact
      { samePeriod := rfl, samePeriod' := rfl, sameKind := rfl, sameTime := rfl
        range := ⟨bounds.not_before, bounds.room⟩
        mirrored := ⟨rfl, rfl, rfl, rfl, rfl, rfl⟩
        placed := ⟨fun slot used => absurd used (unused slot), fun slot used => absurd used (unused slot),
          fun slot used => absurd used (unused slot)⟩
        algorithm := rfl
        period := rfl
        observed := by
          rw [Reference.clampTime]
          exact if_neg (lt_irrefl _) }
  | made mirrored named timed range placed =>
    rename_i current entry
    have later : current.lastSeen.nanos ≤ (clampLastSeen current request.now).nanos :=
      le_effectiveTime request.now _ rfl
    have same : current.windowPeriod = request.policy.period := timed.trans bounds.period_eq.symm
    obtain ⟨kind, lasts, start, used, segments⟩ := adopted_window current request
    have clamped : Reference.clampTime request.now entry.observed = clampLastSeen current request.now := by
      rw [mirrored.observed]
      rfl
    refine
      { samePeriod := ?_, samePeriod' := ?_, sameKind := ?_, sameTime := clamped, range := ?_, mirrored := ?_,
        placed := ?_
        algorithm := kind.trans named, period := lasts.trans same, observed := clamped }
    · simp [periodMismatch, same]
    · simp [Reference.periodMismatch, mirrored.period, same]
    · simp [foreignState, named]
    · rw [effectiveTime, clampLastSeen]
      split
      · exact range
      · exact ⟨bounds.not_before, bounds.room⟩
    · exact ⟨mirrored.algorithm.trans kind.symm, rfl, mirrored.period.trans lasts.symm,
        mirrored.window.trans start.symm,
        mirrored.used.trans used.symm, mirrored.segments.trans (congrArg mirror segments.symm)⟩
    · refine ⟨?_, ?_, ?_⟩ <;> dsimp only
      · rw [segments]
        exact placed.placed
      · rw [segments, lasts]
        exact placed.bounded
      · rw [segments]
        exact fun slot used index => (placed.started slot used index).trans later

/-- A call decides on a sliding window in which the reference misses the index zero. -/
def Missed (found : Option State) (waits : Waits) (request : Request) : Prop :=
  request.validate = .ok () ∧ strictContext waits.entry = none ∧ waits.interrupted = none ∧
    request.policy.algorithm = .slidingWindow ∧
    ZeroMissed (segmentsOf found) (effectiveTime found (truncate request.now)) request.policy.period

/-- `Reference.admitLocked` of a window decides on the entry that is ready. -/
theorem referenceLocked_eq {request : Request} (ready : Ready found entry request period)
    (window : request.policy.algorithm = .fixedWindow ∨ request.policy.algorithm = .slidingWindow) :
    Reference.admitLocked entry request true =
      Reference.admitCurrent
        { Reference.stateFor entry request with
          revision := request.policy.revision, observed := effectiveTime found request.now }
        { request with now := effectiveTime found request.now } := by
  have kind : (Reference.stateFor entry request).algorithm = request.policy.algorithm :=
    ready.mirrored.algorithm.trans ready.algorithm
  have named : request.policy.algorithm ≠ .tokenBucket := by
    rcases window with fixed | sliding
    · simp [fixed]
    · simp [sliding]
  have still : Reference.clampTime (effectiveTime found request.now) (effectiveTime found request.now) =
      effectiveTime found request.now := if_neg (lt_irrefl _)
  unfold Reference.admitLocked Reference.admitCurrent
  rw [if_neg (by simp [kind]), if_neg (by simp [kind, named]), if_pos rfl, ready.observed, still]

/-- An admission with the lock held. -/
theorem held_alike {request : Request} {period : Nat} {found : Option State} {entry : Option ReferenceState}
    (window : request.policy.algorithm = .fixedWindow ∨ request.policy.algorithm = .slidingWindow)
    (bounds : (truncated request).Bounds period) (paired : Paired request.policy.algorithm period found entry) :
    ∃ state answer entry' answer', (admitAlone found (truncated request)).Returns (some state, answer) ∧
      (Reference.admitStrict entry request).Returns (some entry', answer') ∧
      (¬ (request.policy.algorithm = .slidingWindow ∧
        ZeroMissed (segmentsOf found) (effectiveTime found (truncate request.now)) request.policy.period) ↔
        answer = answer') ∧
      Paired request.policy.algorithm period (some state) (some entry') := by
  have ready := paired.ready bounds
  have timed : Request.Bounds { truncated request with now := effectiveTime found (truncated request).now } period :=
    bounds.retimed rfl rfl ready.range.1 ready.range.2
  obtain ⟨outcome, answered, reset, reset', here, there, alike, placed, kind, lasts, seen, same, apart⟩ :=
    window_alike (limits_of_bounds timed) ready.range ready.placed rfl ready.period ready.mirrored window
  have range := validateStrictEffectiveRange_exact (effectiveTime found (truncated request).now) bounds.period_pos
    (bounds.period_le.trans (by decide))
  rw [if_pos ready.range, ← bounds.period_eq] at range
  have equal := same.symm.trans (answers_eq_iff alike (seen ▸ apart)).symm
  rw [adopted_segments] at equal
  refine ⟨outcome.state, _, answered.state, _, ?_, ?_, equal, ?_⟩
  · unfold admitAlone
    rw [if_neg (by simp [ready.samePeriod])]
    refine (returns_of_eq range).bind ?_
    rw [if_neg (by simp [ready.sameKind])]
    exact here.bind (returns_pure _)
  · change Machine.Returns (if Reference.periodMismatch entry (truncated request).policy then _ else _) _
    rw [if_neg (by simp [ready.samePeriod'])]
    refine Returns.bind (returns_of_eq (ready.sameTime ▸ range)) ?_
    change Machine.Returns (Reference.admitLocked entry (truncated request) true >>= _) _
    rw [referenceLocked_eq ready window]
    exact there.bind (returns_pure _)
  · exact .made alike.mirrored (kind.trans ready.algorithm) (lasts.trans (ready.period.trans bounds.period_eq))
      (seen ▸ ready.range) placed

theorem told_eq_iff (answer answer' : Answer) :
    (⟨answer.decision, answer.error.map .sentinel⟩ : Admitted) = ⟨answer'.decision, answer'.error.map .sentinel⟩ ↔
      answer = answer' := by
  have injective : Function.Injective (Option.map GoError.sentinel) := Option.map_injective fun _ _ =>
    GoError.sentinel.inj
  obtain ⟨decision, error⟩ := answer
  obtain ⟨decision', error'⟩ := answer'
  rw [Admitted.mk.injEq, injective.eq_iff, Answer.mk.injEq]

/-- An admission to one key of the store and of the reference. -/
theorem alone_alike {request : Request} {period : Nat} {found : Option State} {entry : Option ReferenceState}
    (built : request.policy.Built)
    (window : request.policy.algorithm = .fixedWindow ∨ request.policy.algorithm = .slidingWindow)
    (timed : request.policy.period = .ofMicros period) (waits : Waits)
    (paired : Paired request.policy.algorithm period found entry) :
    ∃ written answer entry' answer', (admitStrictAlone found waits request).Returns (written, answer) ∧
      (referenceAdmit entry waits request).Returns (entry', answer') ∧
        (¬ Missed found waits request ↔ answer = answer') ∧
      Paired request.policy.algorithm period (written.or found) entry' := by
  have rate : request.policy.algorithm.IsRate ∧ request.policy.algorithm ≠ .concurrency := by
    rcases window with fixed | sliding
    · simp [fixed, Algorithm.IsRate]
    · simp [sliding, Algorithm.IsRate]
  unfold admitStrictAlone referenceAdmit Missed
  cases valid : request.validate with
  | error problem => exact ⟨_, _, _, _, returns_pure _, returns_pure _, by simp, paired⟩
  | ok =>
    cases strictContext waits.entry with
    | some problem => exact ⟨_, _, _, _, returns_pure _, returns_pure _, by simp, paired⟩
    | none =>
      rw [if_neg rate.2, if_neg rate.2]
      cases waits.interrupted with
      | some problem => exact ⟨_, _, _, _, returns_pure _, returns_pure _, by simp, paired⟩
      | none =>
        obtain ⟨micros, bounds⟩ := (⟨request, built, valid⟩ : ValidRequest).bounds rate.1
        obtain rfl : micros = period := Postgres.ofMicros_injective (bounds.period_eq.symm.trans timed)
        have truncates : (truncated request).Bounds micros :=
          bounds.retimed rfl rfl (by simpa [truncated] using bounds.not_before) (by simpa [truncated] using bounds.room)
        obtain ⟨state, answer, entry', answer', here, there, same, next⟩ := held_alike window truncates paired
        refine ⟨some state, ⟨answer.decision, answer.error.map .sentinel⟩, some entry',
          ⟨answer'.decision, answer'.error.map .sentinel⟩, here.bind (returns_pure _), there.bind
            (returns_pure _), ?_, next⟩
        rw [told_eq_iff]
        simpa using same

/-! ## Runs -/

/-- `AdmitStrict` of the reference as a step. -/
def referenceStep (entry : Option ReferenceState) (call : AdmitCall) : Machine (Option ReferenceState × Admitted) :=
  referenceAdmit entry call.waits call.request

/-- A call on the window of one policy ID and key, whatever its capacity and revision. -/
structure AdmitCall.OnWindow (call : AdmitCall) (id : GoString) (key : Key) (algorithm : Algorithm)
    (period : Duration) :
    Prop where
  id : call.request.policy.id = id
  key : call.request.key = key
  algorithm : call.request.policy.algorithm = algorithm
  period : call.request.policy.period = period

/-- The reference agrees with the memory store on the windows of one key, at every step of
every run, exactly if the reference never misses the segment with the index zero. -/
theorem reference_windows_agree (options : Options) (store : Store) (made : newStore options = .ok store)
    (id : GoString)
    (key : Key) (algorithm : Algorithm) (window : algorithm = .fixedWindow ∨ algorithm = .slidingWindow)
      (period : Duration)
    (calls : List AdmitCall) (alike : ∀ call ∈ calls, call.OnWindow id key algorithm period) :
    ∃ entries others, (Runs.trace admitStep store calls).Returns entries ∧
      (Runs.trace referenceStep none calls).Returns others ∧ entries.map Entry.input = calls ∧
      ((∀ entry ∈ entries,
          ¬ Missed (entry.before.find (Postgres.bucketName id key)) entry.input.waits entry.input.request) ↔
        entries.map Entry.output = others.map Entry.output) := by
  have shape := newStore_made made
  refine Runs.trace_agrees_iff admitStep referenceStep
    (fun store entry => Lone options (Postgres.bucketName id key) store ∧
      Paired algorithm period.microseconds.toNat (store.find (Postgres.bucketName id key)) entry)
    (fun store call => ¬ Missed (store.find (Postgres.bucketName id key)) call.waits call.request) calls ?_
    ⟨⟨Sized.start made, shape.opened, fun other _ => newStore_find made other⟩, newStore_find made _ ▸ .fresh⟩
  rintro store entry ⟨waits, request, built⟩ ⟨lone, paired⟩ member
  obtain ⟨rfl, rfl, rfl, rfl⟩ := alike _ member
  dsimp only at window paired lone ⊢
  have rate : request.policy.algorithm.IsRate := by
    rcases window with fixed | sliding
    · simp [fixed, Algorithm.IsRate]
    · simp [sliding, Algorithm.IsRate]
  have timed : request.policy.period = .ofMicros request.policy.period.microseconds.toNat := by
    obtain ⟨micros, -, whole, -⟩ := built.sound.period rate
    rw [whole, Duration.microseconds_ofMicros]
    rfl
  obtain ⟨written, answer, entry', answer', here, there, same, next⟩ := alone_alike built window timed waits paired
  have admitted : (store.admitStrict waits request).Returns
      (store.write (Postgres.bucketName request.policy.id request.key) written, answer) := by
    rw [admitStrict_alone lone.opened waits (lone.room shape.some_shards shape.spread)]
    exact here.bind (returns_pure _)
  obtain ⟨result, returns, -, sized⟩ := admitStrict_effect lone.sized waits built
  cases returns.unique admitted
  refine ⟨_, _, admitted, there, same, ⟨sized, ?_, fun other apart => ?_⟩, ?_⟩
  · rw [Store.write_closed, lone.opened]
  · rw [Store.find_write, if_neg apart]
    exact lone.others other apart
  · rw [Store.find_write, if_pos rfl]
    exact next

/-- Two requests in a sliding window of sixteen milliseconds. -/
def twoPerWindow : Policy := ratePolicy .slidingWindow 97 2 0 16000 (by decide)

theorem twoPerWindow_built : twoPerWindow.Built := by
  have built : newPolicy twoPerWindow.toPolicySpec = .ok twoPerWindow := rfl
  exact ⟨_, built⟩

def windowCall (micros : Int) : AdmitCall where
  request := ⟨twoPerWindow, ⟨[107], [117]⟩, 1, .ofUnixMicro micros⟩
  built := twoPerWindow_built

theorem windowCalls_alike (calls : List Int) :
    ∀ call ∈ calls.map windowCall, call.OnWindow twoPerWindow.id ⟨[107], [117]⟩ .slidingWindow twoPerWindow.period := by
  simp only [List.forall_mem_map]
  exact fun _ _ => ⟨rfl, rfl, rfl, rfl⟩

theorem reference_windows_agree_later :
    newStore { maxKeys := 3, shards := 2 } = .ok threeKeys ∧
      ∃ entries others, (Runs.trace admitStep threeKeys ([5000, 5500, 5600].map windowCall)).Returns entries ∧
        (Runs.trace referenceStep none ([5000, 5500, 5600].map windowCall)).Returns others ∧
        entries.map Entry.output = others.map Entry.output := by
  have made : newStore { maxKeys := 3, shards := 2 } = .ok threeKeys := rfl
  obtain ⟨entries, others, run, run', -, agree⟩ := reference_windows_agree _ threeKeys made _ _ _ (.inr rfl) _ _
    (windowCalls_alike [5000, 5500, 5600])
  refine ⟨made, entries, others, run, run', agree.mp ?_⟩
  -- No segment of the run has the index zero.
  have all : (match Runs.trace admitStep threeKeys ([5000, 5500, 5600].map windowCall) with
      | .done entries _ => entries.all fun entry => decide (∀ slot,
          ¬ ((segmentsOf (entry.before.find (Postgres.bucketName twoPerWindow.id ⟨[107], [117]⟩)) slot).used ≠ 0 ∧
            (segmentsOf (entry.before.find (Postgres.bucketName twoPerWindow.id ⟨[107], [117]⟩)) slot).index = 0))
      | .panic => false) = true := by decide +kernel
  obtain ⟨_, ends⟩ := run
  rw [ends] at all
  simp only [List.all_eq_true, decide_eq_true_eq] at all
  intro entry member missed
  obtain ⟨slot, zero⟩ := missed.2.2.2.2.1
  exact all entry member slot zero

/-- After a request at the start of 1970 the reference tells another reset than the store: half
a millisecond early, as it does not see the segment that the request is in. -/
theorem reference_misses_zero :
    (∀ call ∈ [0, 500].map windowCall, call.request.validate = .ok ()) ∧
      List.map (fun entry => entry.output.decision.reset) <$> Runs.trace admitStep threeKeys ([0, 500].map windowCall) =
        pure [⟨16000000⟩, ⟨17000000⟩] ∧
      List.map (fun entry => entry.output.decision.reset) <$> Runs.trace referenceStep none ([0, 500].map windowCall) =
        pure [⟨16000000⟩, ⟨16500000⟩] := by
  refine ⟨?_, by decide +kernel, by decide +kernel⟩
  simp only [List.map_cons, List.map_nil, List.forall_mem_cons]
  exact ⟨rfl, rfl, List.forall_mem_nil _⟩

end RateLimit.Memory
