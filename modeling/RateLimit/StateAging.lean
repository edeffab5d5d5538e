import RateLimit.TokenBound
import RateLimit.WindowAccounting

/-! What is left of a state after a while. What an algorithm does with a state at some
time depends on little of it: the refilled balance, what the current window has used,
or the segments that still count. Two states that agree on that cannot be told apart,
and after a long enough time nothing of a state is left: it shows what a fresh one
shows. A store that drops rows relies on this. -/
namespace RateLimit.Postgres

open Machine

/-! ## What a state shows -/

/-- The segments that still count and hold something; the other slots are cleared. -/
def counted (segments : Segments) (oldest : Int) : Segments :=
  fun slot => if (segments slot).index ≤ oldest ∨ (segments slot).used = 0 then {} else segments slot

/-- Two states show the same at time `now`. -/
structure SameAt (algorithm : Algorithm) (rate : TokenRate) (now : Int) (left right : PersistedState) :
    Prop where
  token : algorithm = .tokenBucket → levelOf (refilled rate left now) = levelOf (refilled rate right now) ∧
    max left.lastMicros now = max right.lastMicros now
  fixed : algorithm = .fixedWindow → windowUsed rate.period left now = windowUsed rate.period right now
  sliding : algorithm = .slidingWindow → counted left.segments (oldestAt now rate.period) =
    counted right.segments (oldestAt now rate.period)

/-- Two states hold the same from time `now` on, in the fields their algorithm uses. -/
structure Alike (algorithm : Algorithm) (rate : TokenRate) (now : Int) (left right : PersistedState) :
    Prop where
  token : algorithm = .tokenBucket → levelOf left = levelOf right ∧ left.lastMicros = right.lastMicros
  fixed : algorithm = .fixedWindow → left.window = right.window ∧ left.used = right.used
  sliding : algorithm = .slidingWindow → counted left.segments (oldestAt now rate.period) =
    counted right.segments (oldestAt now rate.period)

theorem SameAt.symm (same : SameAt algorithm rate now left right) : SameAt algorithm rate now right left :=
  ⟨fun kind => ⟨(same.token kind).1.symm, (same.token kind).2.symm⟩, fun kind => (same.fixed kind).symm,
    fun kind => (same.sliding kind).symm⟩

theorem SameAt.trans (first : SameAt algorithm rate now left middle)
    (second : SameAt algorithm rate now middle right) : SameAt algorithm rate now left right :=
  ⟨fun kind => ⟨(first.token kind).1.trans (second.token kind).1,
      (first.token kind).2.trans (second.token kind).2⟩,
    fun kind => (first.fixed kind).trans (second.fixed kind),
    fun kind => (first.sliding kind).trans (second.sliding kind)⟩

theorem Alike.trans (first : Alike algorithm rate now left middle)
    (second : Alike algorithm rate now middle right) : Alike algorithm rate now left right :=
  ⟨fun kind => ⟨(first.token kind).1.trans (second.token kind).1,
      (first.token kind).2.trans (second.token kind).2⟩,
    fun kind => ⟨(first.fixed kind).1.trans (second.fixed kind).1,
      (first.fixed kind).2.trans (second.fixed kind).2⟩,
    fun kind => (first.sliding kind).trans (second.sliding kind)⟩

theorem counted_gone (gone : (segments slot).index ≤ oldest ∨ (segments slot).used = 0) :
    counted segments oldest slot = {} := if_pos gone

theorem counted_live (live : ¬ ((segments slot).index ≤ oldest ∨ (segments slot).used = 0)) :
    counted segments oldest slot = segments slot := if_neg live

/-- What counts later is part of what counts now. -/
theorem counted_counted (segments : Segments) (later : oldest ≤ oldest') :
    counted (counted segments oldest) oldest' = counted segments oldest' := by
  funext slot
  unfold counted
  by_cases gone : (segments slot).index ≤ oldest ∨ (segments slot).used = 0
  · rw [if_pos gone, ite_self, if_pos (gone.imp_left later.trans')]
  · rw [if_neg gone]

theorem counted_dropExpired (segments : Segments) (oldest : Int) :
    counted (dropExpired segments oldest) oldest = counted segments oldest := by
  funext slot
  unfold counted dropExpired
  by_cases stale : (segments slot).index ≤ oldest
  · rw [if_pos stale, ite_self, if_pos (Or.inl stale)]
  · rw [if_neg stale]

theorem Alike.sameAt (alike : Alike algorithm rate now left right) (later : now ≤ now') :
    SameAt algorithm rate now' left right where
  token kind := by
    obtain ⟨level, last⟩ := alike.token kind
    have refill : rate.refill (levelOf left) (now' - left.lastMicros).toNat =
        rate.refill (levelOf right) (now' - right.lastMicros).toNat := by
      rw [level, last]
    exact ⟨refill, by rw [last]⟩
  fixed kind := by
    obtain ⟨window, used⟩ := alike.fixed kind
    unfold windowUsed
    rw [window, used]
  sliding kind := by
    have past := (segment_mono rate.period_pos later).1
    rw [← counted_counted left.segments past, ← counted_counted right.segments past, alike.sliding kind]

theorem spendToken_same (rate : TokenRate) (request : Request) (level : levelOf left = levelOf right) :
    (spendToken rate left request).decision = (spendToken rate right request).decision ∧
      (spendToken rate left request).error = (spendToken rate right request).error ∧
      levelOf (spendToken rate left request).state = levelOf (spendToken rate right request).state ∧
      (spendToken rate left request).state.lastMicros = left.lastMicros := by
  simp only [levelOf, TokenLevel.mk.injEq] at level
  unfold spendToken
  rw [level.1, level.2]
  split
  · exact ⟨rfl, rfl, by simp only [levelOf, level], rfl⟩
  · exact ⟨rfl, rfl, by simp only [levelOf], rfl⟩

theorem spendUsage_same (left right : PersistedState) (request : Request) (reset : Time)
    (used : left.used = right.used) :
    (spendUsage left request reset).decision = (spendUsage right request reset).decision ∧
      (spendUsage left request reset).error = (spendUsage right request reset).error ∧
      (spendUsage left request reset).state.used = (spendUsage right request reset).state.used := by
  unfold spendUsage
  rw [used]
  split
  · exact ⟨rfl, rfl, used⟩
  · exact ⟨rfl, rfl, rfl⟩

theorem spendFixed_same (request : Request)
    (used : windowUsed period left request.now.unixMicro = windowUsed period right request.now.unixMicro) :
    (spendFixed period left request).decision = (spendFixed period right request).decision ∧
      (spendFixed period left request).error = (spendFixed period right request).error ∧
      (spendFixed period left request).state.window = (spendFixed period right request).state.window ∧
      (spendFixed period left request).state.used = (spendFixed period right request).state.used := by
  obtain ⟨decision, error, after⟩ := spendUsage_same
    { left with
      window := windowStart request.now.unixMicro period
      used := windowUsed period left request.now.unixMicro }
    { right with
      window := windowStart request.now.unixMicro period
      used := windowUsed period right request.now.unixMicro }
    request (.ofUnixMicro (windowStart request.now.unixMicro period + period)) used
  exact ⟨decision, error, (spendFixed_cases period left request).1.trans
    (spendFixed_cases period right request).1.symm, after⟩

/-- What does not count is in neither sum nor search. -/
theorem earliestUsed_counted (oldest : Int) (segments : List PersistedSegment) (earliest : Int) :
    earliestUsed oldest
        (segments.map fun segment => if segment.index ≤ oldest ∨ segment.used = 0 then {} else segment)
        earliest =
      earliestUsed oldest segments earliest := by
  induction segments generalizing earliest with
  | nil => rfl
  | cons segment rest ih =>
    simp only [List.map_cons, earliestUsed, ih]
    by_cases gone : segment.index ≤ oldest ∨ segment.used = 0
    · have absent : ¬ (oldest < segment.index ∧ segment.used ≠ 0) := by
        rintro ⟨newer, used⟩
        exact gone.elim (fun stale => absurd stale (not_le.mpr newer)) used
      rw [if_pos gone, if_neg absent, if_neg (by simp)]
    · rw [if_neg gone]

theorem earliestUsed_same (same : counted left oldest = counted right oldest) :
    earliestUsed oldest (List.ofFn left) maxInt64 = earliestUsed oldest (List.ofFn right) maxInt64 := by
  have through (segments : Segments) : earliestUsed oldest (List.ofFn segments) maxInt64 =
      earliestUsed oldest (List.ofFn (counted segments oldest)) maxInt64 := by
    rw [← earliestUsed_counted, List.map_ofFn]
    rfl
  rw [through left, through right, same]

theorem total_counted (segments : Segments) (oldest : Int) :
    (ringOf (counted segments oldest)).total oldest = (ringOf segments).total oldest := by
  unfold Ring.total
  refine Finset.sum_congr rfl fun slot _ => ?_
  show (if oldest < (counted segments oldest slot).index then (counted segments oldest slot).used else 0) =
    if oldest < (segments slot).index then (segments slot).used else 0
  by_cases gone : (segments slot).index ≤ oldest ∨ (segments slot).used = 0
  · rw [counted_gone gone, ite_self]
    rcases gone with stale | empty
    · rw [if_neg (not_lt.mpr stale)]
    · rw [empty, ite_self]
  · rw [counted_live gone]

theorem total_same (same : counted left oldest = counted right oldest) :
    (ringOf left).total oldest = (ringOf right).total oldest := by
  rw [← total_counted, same, total_counted]

theorem claimSlot_self (segments : Segments) (index : Int) :
    claimSlot segments index (Ring.slot 16 index) =
      if (segments (Ring.slot 16 index)).index = index then segments (Ring.slot 16 index)
      else { index := index } := by
  unfold claimSlot
  by_cases named : (segments (Ring.slot 16 index)).index = index
  · rw [if_neg (not_not.mpr named), if_pos named]
  · rw [if_pos named, if_neg named, Function.update_self]

theorem claimSlot_other (segments : Segments) (index : Int) (other : slot ≠ Ring.slot 16 index) :
    claimSlot segments index slot = segments slot := by
  unfold claimSlot
  split
  · exact Function.update_of_ne other _ _
  · rfl

/-- A slot that is taken over has what counts in it, and nothing else. -/
theorem claimSlot_counted (segments : Segments) (oldest index : Int) :
    claimSlot (dropExpired segments oldest) index (Ring.slot 16 index) =
      if (counted segments oldest (Ring.slot 16 index)).index = index then
        counted segments oldest (Ring.slot 16 index)
      else { index := index } := by
  rw [claimSlot_self]
  generalize Ring.slot 16 index = slot
  have blank : (if ({} : PersistedSegment).index = index then {} else { index := index }) =
      ({ index := index } : PersistedSegment) := by
    split
    · rename_i zero
      rw [← zero]
    · rfl
  by_cases stale : (segments slot).index ≤ oldest
  · have dropped : dropExpired segments oldest slot = {} := if_pos stale
    rw [dropped, counted_gone (Or.inl stale)]
  have kept : dropExpired segments oldest slot = segments slot := if_neg stale
  by_cases empty : (segments slot).used = 0
  · rw [kept, counted_gone (Or.inr empty), blank]
    split
    · rename_i named
      rw [← named, ← empty]
    · rfl
  · rw [kept, counted_live (by tauto)]

/-- Slots taken over on two states that count the same hold the same. -/
theorem claimSlot_same (same : counted left oldest = counted right oldest) (index : Int) :
    claimSlot (dropExpired left oldest) index (Ring.slot 16 index) =
        claimSlot (dropExpired right oldest) index (Ring.slot 16 index) ∧
      counted (claimSlot (dropExpired left oldest) index) oldest =
        counted (claimSlot (dropExpired right oldest) index) oldest := by
  have here : claimSlot (dropExpired left oldest) index (Ring.slot 16 index) =
      claimSlot (dropExpired right oldest) index (Ring.slot 16 index) := by
    rw [claimSlot_counted, claimSlot_counted, same]
  refine ⟨here, funext fun slot => ?_⟩
  by_cases claimed : slot = Ring.slot 16 index
  · subst claimed
    unfold counted
    rw [here]
  · have through (segments : Segments) :
        counted (claimSlot (dropExpired segments oldest) index) oldest slot = counted segments oldest slot := by
      rw [← counted_dropExpired segments]
      unfold counted
      rw [claimSlot_other _ _ claimed]
    rw [through, through, same]

theorem creditSlot_same (here : left (Ring.slot 16 index) = right (Ring.slot 16 index))
    (same : counted left oldest = counted right oldest) (cost : Nat) :
    counted (creditSlot left index cost) oldest = counted (creditSlot right index cost) oldest := by
  funext slot
  by_cases credited : slot = Ring.slot 16 index
  · subst credited
    unfold counted creditSlot
    rw [Function.update_self, Function.update_self, here]
  · have through (segments : Segments) :
        counted (creditSlot segments index cost) oldest slot = counted segments oldest slot := by
      unfold counted creditSlot
      rw [Function.update_of_ne credited]
    rw [through, through, same]

/-- A segment is spent from as usage is. -/
theorem spendSegment_usage (state : PersistedState) (request : Request) (index width earliest : Int) :
    (spendSegment state request index width earliest).decision =
        (spendUsage { state with segments := claimSlot state.segments index } request
          (slidingReset width earliest request)).decision ∧
      (spendSegment state request index width earliest).error =
        (spendUsage { state with segments := claimSlot state.segments index } request
          (slidingReset width earliest request)).error := by
  unfold spendSegment
  dsimp only
  split <;> exact ⟨rfl, rfl⟩

theorem spendSegment_same (request : Request) (index width earliest : Int) (used : left.used = right.used) :
    (spendSegment left request index width earliest).decision =
        (spendSegment right request index width earliest).decision ∧
      (spendSegment left request index width earliest).error =
        (spendSegment right request index width earliest).error := by
  obtain ⟨leftDecision, leftError⟩ := spendSegment_usage left request index width earliest
  obtain ⟨rightDecision, rightError⟩ := spendSegment_usage right request index width earliest
  obtain ⟨decision, error, -⟩ := spendUsage_same { left with segments := claimSlot left.segments index }
    { right with segments := claimSlot right.segments index } request
    (slidingReset width earliest request) used
  exact ⟨leftDecision.trans (decision.trans rightDecision.symm),
    leftError.trans (error.trans rightError.symm)⟩

theorem spendSliding_same (request : Request)
    (same : counted left.segments (oldestAt request.now.unixMicro period) =
      counted right.segments (oldestAt request.now.unixMicro period)) :
    (spendSliding period left request).decision = (spendSliding period right request).decision ∧
      (spendSliding period left request).error = (spendSliding period right request).error ∧
      counted (spendSliding period left request).state.segments (oldestAt request.now.unixMicro period) =
        counted (spendSliding period right request).state.segments
          (oldestAt request.now.unixMicro period) := by
  have answers : (spendSliding period left request).decision = (spendSliding period right request).decision ∧
      (spendSliding period left request).error = (spendSliding period right request).error := by
    unfold spendSliding
    rw [earliestUsed_same same]
    exact spendSegment_same request _ _ _ (total_same same)
  obtain ⟨here, claimed⟩ := claimSlot_same same (segmentAt request.now.unixMicro period)
  refine ⟨answers.1, answers.2, ?_⟩
  rcases spendSliding_cases period left request with ⟨rejected, segments⟩ | ⟨allowed, -, segments⟩ <;>
    rcases spendSliding_cases period right request with ⟨rejected', segments'⟩ | ⟨allowed', -, segments'⟩
  · rw [segments, segments', claimed]
  · rw [rejected, allowed'] at answers
    cases answers.2
  · rw [allowed, rejected'] at answers
    cases answers.2
  · rw [segments, segments']
    exact creditSlot_same here claimed request.cost

/-- States that show the same get the same decision, and hold the same afterwards. -/
theorem spend_same (kind : request.policy.algorithm.IsRate)
    (same : SameAt request.policy.algorithm rate request.now.unixMicro left right) :
    (spend rate left request).decision = (spend rate right request).decision ∧
      (spend rate left request).error = (spend rate right request).error ∧
      Alike request.policy.algorithm rate request.now.unixMicro (spend rate left request).state
        (spend rate right request).state := by
  unfold spend
  rcases kind with kind | kind | kind <;> simp only [kind] at same ⊢
  · obtain ⟨level, last⟩ := same.token rfl
    obtain ⟨decision, error, after, first⟩ := spendToken_same rate request level
    obtain ⟨-, -, -, second⟩ := spendToken_same rate request level.symm
    exact ⟨decision, error, fun _ => ⟨after, first.trans (Eq.trans last second.symm)⟩, by simp, by simp⟩
  · obtain ⟨decision, error, window, used⟩ := spendFixed_same request (same.fixed rfl)
    exact ⟨decision, error, by simp, fun _ => ⟨window, used⟩, by simp⟩
  · obtain ⟨decision, error, segments⟩ := spendSliding_same request (same.sliding rfl)
    exact ⟨decision, error, by simp, by simp, fun _ => segments⟩

/-! ## What is left of a state after a while -/

/-- A state as a step leaves it: its clocks stand together, and it has no window or
segment ahead of them. -/
structure Settled (algorithm : Algorithm) (rate : TokenRate) (state : PersistedState) : Prop where
  token : algorithm = .tokenBucket → rate.InRange (levelOf state) ∧ state.lastMicros = state.observedMicros
  fixed : algorithm = .fixedWindow → state.window = windowStart state.observedMicros rate.period
  sliding : algorithm = .slidingWindow → ∀ slot, state.segments slot = {} ∨
    (state.segments slot).index ≤ segmentAt state.observedMicros rate.period

/-- A state that has seen nothing before `now`. -/
structure Blank (rate : TokenRate) (now : Int) (state : PersistedState) : Prop where
  level : levelOf state = ⟨rate.limit, 0⟩
  last : state.lastMicros = now
  used : state.used = 0
  segments : state.segments = fun _ => {}

/-- The time after which an algorithm has forgotten everything: a token bucket has
filled up from nothing, a window has moved on by its period. -/
structure Outlived (algorithm : Algorithm) (rate : TokenRate) (elapsed : Nat) : Prop where
  token : algorithm = .tokenBucket → rate.limit * rate.period ≤ elapsed * rate.capacity
  window : usesWindowMetadata algorithm = true → rate.period ≤ elapsed

theorem Settled.outlived {elapsed : Nat} (settled : Settled algorithm rate state)
    (outlived : Outlived algorithm rate elapsed) (blank : Blank rate now fresh)
    (later : state.observedMicros + elapsed ≤ now) : SameAt algorithm rate now fresh state where
  token kind := by
    obtain ⟨level, clock⟩ := settled.token kind
    have long : rate.limit * rate.period ≤ (now - state.observedMicros).toNat * rate.capacity :=
      (outlived.token kind).trans (Nat.mul_le_mul_right _ (by omega))
    have full : rate.refill (levelOf state) (now - state.lastMicros).toNat = ⟨rate.limit, 0⟩ := by
      rw [clock]
      exact level.refill_full long
    have still : rate.refill (levelOf fresh) (now - fresh.lastMicros).toNat = ⟨rate.limit, 0⟩ := by
      rw [blank.last, blank.level]
      simp
    refine ⟨still.trans full.symm, ?_⟩
    rw [blank.last, clock]
    omega
  fixed kind := by
    have window := settled.fixed kind
    have period := outlived.window (by simp [kind, usesWindowMetadata])
    have positive := rate.period_pos
    have moved : state.window ≠ windowStart now rate.period := by
      have whole : (0 : Int) < rate.period := by omega
      have start := multiple_bounds state.observedMicros whole
      have stop := multiple_bounds now whole
      rw [window]
      unfold windowStart
      omega
    unfold windowUsed
    rw [if_neg moved, blank.used, ite_self]
  sliding kind := by
    have period := outlived.window (by simp [kind, usesWindowMetadata])
    have width : 0 < widthOf rate.period := by
      have positive := rate.period_pos
      unfold widthOf
      omega
    have gone : segmentAt state.observedMicros rate.period ≤ oldestAt now rate.period :=
      Int.ediv_le_ediv width (by omega)
    funext slot
    rw [counted_gone (Or.inr (by rw [blank.segments]))]
    rcases settled.sliding kind slot with empty | old
    · rw [counted_gone (Or.inr (by rw [empty]))]
    · rw [counted_gone (Or.inl (old.trans gone))]

theorem slots_after (segments : Segments) (oldest index : Int)
    (past : ∀ slot, segments slot = {} ∨ (segments slot).index ≤ index) (slot : Fin 16) :
    claimSlot (dropExpired segments oldest) index slot = {} ∨
      (claimSlot (dropExpired segments oldest) index slot).index ≤ index := by
  have dropped : dropExpired segments oldest slot = {} ∨ (dropExpired segments oldest slot).index ≤ index := by
    unfold dropExpired
    split
    · exact Or.inl rfl
    · exact past slot
  unfold claimSlot
  split
  · by_cases here : slot = Ring.slot 16 index
    · subst here
      rw [Function.update_self]
      exact Or.inr le_rfl
    · rw [Function.update_of_ne here]
      exact dropped
  · exact dropped

/-- A state of which nothing lies ahead of `now`. -/
structure Ready (algorithm : Algorithm) (rate : TokenRate) (now : Int) (state : PersistedState) : Prop where
  token : algorithm = .tokenBucket → rate.InRange (levelOf state) ∧ state.lastMicros ≤ now
  sliding : algorithm = .slidingWindow → ∀ slot, state.segments slot = {} ∨
    (state.segments slot).index ≤ segmentAt now rate.period

theorem Settled.ready (settled : Settled algorithm rate state) (later : state.observedMicros ≤ now) :
    Ready algorithm rate now state where
  token kind := by
    obtain ⟨level, clock⟩ := settled.token kind
    exact ⟨level, clock.le.trans later⟩
  sliding kind slot :=
    (settled.sliding kind slot).imp_right fun old => old.trans (segment_mono rate.period_pos later).2

theorem Blank.ready (blank : Blank rate now state) : Ready algorithm rate now state where
  token _ := by
    rw [blank.level, blank.last]
    exact ⟨⟨rate.period_pos, le_rfl, fun _ => rfl⟩, le_rfl⟩
  sliding _ slot := Or.inl (by rw [blank.segments])

theorem Ready.congr (ready : Ready algorithm rate now state) (level : levelOf state' = levelOf state)
    (last : state'.lastMicros = state.lastMicros) (segments : state'.segments = state.segments) :
    Ready algorithm rate now state' := by
  obtain ⟨token, sliding⟩ := ready
  rw [← level, ← last] at token
  rw [← segments] at sliding
  exact ⟨token, sliding⟩

/-- Every step leaves a settled state. -/
theorem spend_settled {request : Request} (bounds : request.Bounds period)
    (ready : Ready request.policy.algorithm (rateOf bounds) request.now.unixMicro state)
    (observed : state.observedMicros = request.now.unixMicro) :
    Settled request.policy.algorithm (rateOf bounds) (spend (rateOf bounds) state request).state := by
  have frame := (spend_frame (rateOf bounds) state request).observed.trans observed
  refine ⟨fun token => ?_, fun fixed => ?_, fun sliding slot => ?_⟩ <;> rw [frame]
  · obtain ⟨held, behind⟩ := ready.token token
    have found := held.refill (request.now.unixMicro - state.lastMicros).toNat
    have last : max state.lastMicros request.now.unixMicro = request.now.unixMicro := max_eq_right behind
    simp only [spend, token]
    by_cases short : (refilled (rateOf bounds) state request.now.unixMicro).tokens < request.cost
    · rw [(spendToken_short (rateOf bounds) short).2]
      exact ⟨found, last⟩
    · rw [(spendToken_room (rateOf bounds) short).2]
      have cost := bounds.cost_pos
      have within := found.tokens_le
      have tokens : (refilled (rateOf bounds) state request.now.unixMicro).tokens ≤ (rateOf bounds).limit := within
      refine ⟨⟨found.remainder_lt, ?_, fun full => ?_⟩, last⟩
      · dsimp only [levelOf]
        omega
      · dsimp only [levelOf] at full
        omega
  · simp only [spend, fixed]
    exact (spendFixed_cases period state request).1
  · have after := slots_after state.segments (oldestAt request.now.unixMicro period)
      (segmentAt request.now.unixMicro period) (ready.sliding sliding) slot
    simp only [spend, sliding]
    show (spendSliding period state request).state.segments slot = {} ∨
      ((spendSliding period state request).state.segments slot).index ≤ segmentAt request.now.unixMicro period
    rcases spendSliding_cases period state request with ⟨-, segments⟩ | ⟨-, -, segments⟩
    · rw [segments]
      exact after
    · rw [segments]
      by_cases here : slot = Ring.slot 16 (segmentAt request.now.unixMicro period)
      · subst here
        right
        have grows := (creditSlot_grows (claimSlot (dropExpired state.segments
          (oldestAt request.now.unixMicro period)) (segmentAt request.now.unixMicro period))
          (segmentAt request.now.unixMicro period) request.cost
          (Ring.slot 16 (segmentAt request.now.unixMicro period))).1
        rw [grows]
        exact (claimSlot_index _ _).le
      · unfold creditSlot
        rw [Function.update_of_ne here]
        exact after

end RateLimit.Postgres
