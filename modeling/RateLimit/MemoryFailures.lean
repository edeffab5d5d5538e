import RateLimit.MemoryRefill
import RateLimit.MemoryOverflow

/-! Failed calls of the memory store. What a call does to a key before it fails is nothing
that can be used: a call that is rejected adds no usage, and one that fails in another way
leaves what every key has to give. The exception is a finished admission that the strict
wrapper takes for a corrupt one, because a sum of nanoseconds wrapped on the way to its
reset. -/
namespace RateLimit.Memory

open Machine

/-! ## What an algorithm accounts for -/

/-- What holds of every state that is stored: its counts are small, a sliding window counts
at least what its segments hold, and a key with leases has no part of a token. -/
structure Stocked (state : State) : Prop where
  tokens : state.tokens ≤ 9007199254740991
  remainder : state.remainder ≤ 9007199254740991
  sliding : state.algorithm = .slidingWindow →
    held state.segments (List.finRange 16) ≤ state.used ∧ state.used ≤ 9007199254740991
  concurrent : state.algorithm = .concurrency → state.remainder = 0

/-- No more is used than before. -/
structure Unspent (before after : State) : Prop where
  used : after.used ≤ before.used
  segments : ∀ slot, (after.segments slot).used ≤ (before.segments slot).used

theorem Unspent.refl (state : State) : Unspent state state := ⟨le_rfl, fun _ => le_rfl⟩

/-- Every used segment ends, as a count of nanoseconds, in range. -/
def SegmentsFit (current : State) (period : Duration) : Prop :=
  ∀ slot, (current.segments slot).used ≠ 0 → ((current.segments slot).index + 1) * segmentSize period ≤ maxInt64

instance (current : State) (period : Duration) : Decidable (SegmentsFit current period) :=
  inferInstanceAs (Decidable (∀ _, _ → _))

/-- What an outcome has to account for. -/
structure Accounts (current : State) (request : Request) (period : Nat) (outcome : Outcome) : Prop where
  charged : Charged current outcome.state
  stocked : Stocked outcome.state
  decided : outcome.error = none ∨ outcome.error = some .rejected
  unspent : outcome.error = some .rejected → Unspent current outcome.state
  balance : outcome.error = some .rejected → (request.policy.algorithm = .tokenBucket → FitsWord current request) →
    min current.tokens request.policy.limit ≤ outcome.state.tokens
  found : outcome.error = some .rejected →
    0 < current.used ∨ current.tokens ≠ request.policy.limit ∨ current.lastRefill.nanos < request.now.nanos
  timely : InRange request.now period →
    (request.policy.algorithm = .slidingWindow → SegmentsFit current request.policy.period) →
    request.now.nanos ≤ outcome.decision.reset.nanos

section
variable {current : State} {request : Request} {period : Nat} (limits : Limits request period)
  (stocked : Stocked current) (matched : current.algorithm = request.policy.algorithm)
include limits

/-! ## Token buckets -/

include stocked in
theorem refill_accounts :
    (refill current request).Yields fun next =>
      Charged current next ∧ next.used = current.used ∧ next.segments = current.segments ∧
        next.tokens ≤ 9007199254740991 ∧ next.remainder ≤ 9007199254740991 ∧
        (current.tokens = request.policy.limit → next.tokens = request.policy.limit) ∧
        (¬ current.lastRefill.nanos < request.now.nanos → next = current) := by
  have limit := limits.limit_le
  have small := limits.period_le
  have tokens := stocked.tokens
  have remainder := stocked.remainder
  unfold refill
  by_cases later : current.lastRefill.nanos < request.now.nanos
  swap
  · rw [if_pos later]
    exact yields_pure ⟨⟨rfl, rfl, rfl, rfl⟩, rfl, rfl, tokens, remainder, id, fun _ => rfl⟩
  rw [if_neg (not_not.mpr later)]
  by_cases full : current.tokens = request.policy.limit
  · rw [if_pos full]
    exact yields_pure ⟨⟨rfl, rfl, rfl, rfl⟩, rfl, rfl, tokens, Nat.zero_le _, id, fun earlier => absurd later earlier⟩
  rw [if_neg full]
  apply (u64_yields _).bind
  intro elapsed _
  rw [period_micros limits.period_eq, u64_exact (by omega) (by omega), pure_bind, Int.toNat_natCast]
  split
  · exact yields_pure ⟨⟨rfl, rfl, rfl, rfl⟩, rfl, rfl, limit, Nat.zero_le _, fun _ => rfl,
      fun earlier => absurd later earlier⟩
  rename_i fits
  rw [div64_exact (not_le.mp fits), pure_bind]
  apply (u64_yields _).bind
  intro sum _
  refine yields_pure ⟨⟨rfl, rfl, rfl, rfl⟩, rfl, rfl, (min_le_right _ _).trans limit, ?_, fun same => absurd same full,
    fun earlier => absurd later earlier⟩
  dsimp only
  split
  · exact Nat.zero_le _
  · have part := Nat.mod_lt ((add64 (mul64 elapsed request.policy.capacity).1
      (add64 (mul64 elapsed request.policy.capacity).2 current.remainder 0).2 0).1 * 18446744073709551616 +
        (add64 (mul64 elapsed request.policy.capacity).2 current.remainder 0).1) limits.period_pos
    omega

include stocked in
/-- A refill that stays in a word takes nothing. -/
theorem refill_balance (fits : FitsWord current request) :
    (refill current request).Yields fun next => min current.tokens request.policy.limit ≤ next.tokens := by
  by_cases later : current.lastRefill.nanos < request.now.nanos
  swap
  · rw [refill, if_pos later]
    exact yields_pure (min_le_left _ _)
  by_cases full : current.tokens = request.policy.limit
  · rw [refill, if_neg (not_not.mpr later), if_pos full]
    exact yields_pure (min_le_left _ _)
  rw [(refill_capped_iff limits.period_pos limits.period_eq stocked.tokens limits.limit_le limits.period_le
    stocked.remainder later full).mpr fits]
  exact yields_pure (le_min (min_le_right _ _) ((min_le_left _ _).trans (Nat.le_add_right _ _)))

include stocked matched in
theorem admitToken_accounts (token : request.policy.algorithm = .tokenBucket) :
    (admitToken current request).Yields (Accounts current request period) := by
  have cost := limits.cost_le
  obtain ⟨filled, refills, charged, used, segments, most, part, full, still⟩ := refill_accounts limits stocked
  have kind : filled.algorithm = .tokenBucket := (charged.algorithm.trans matched).trans token
  have spared : FitsWord current request → min current.tokens request.policy.limit ≤ filled.tokens := by
    intro fits
    obtain ⟨other, returns, least⟩ := refill_balance limits stocked fits
    rwa [refills.unique returns]
  have filling : (refill current request).Yields (· = filled) := ⟨filled, refills, rfl⟩
  apply filling.bind
  rintro _ rfl
  split
  · rename_i short
    apply (u64_yields _).bind
    intro missing _
    apply (refillDuration_yields _ _ _).bind
    intro retry _
    apply (u64_yields _).bind
    intro empty _
    apply (refillDuration_yields _ _ _).bind
    intro reset nonneg
    refine yields_pure
      { charged := charged
        stocked := ⟨most, part, by simp [kind], by simp [kind]⟩
        decided := Or.inr rfl
        unspent := fun _ => ⟨used.le, fun slot => by rw [segments]⟩
        balance := fun _ fits => spared (fits token)
        found := fun _ => ?_
        timely := fun _ _ => by simp only [Time.add]; omega }
    by_cases later : current.lastRefill.nanos < request.now.nanos
    · exact Or.inr (Or.inr later)
    · refine Or.inr (Or.inl fun same => ?_)
      omega
  · rename_i enough
    rw [u64_sub_exact (not_lt.mp enough) (by omega), pure_bind]
    apply (u64_yields _).bind
    intro empty _
    apply (refillDuration_yields _ _ _).bind
    intro reset nonneg
    exact yields_pure
      { charged := ⟨charged.revision, charged.algorithm, charged.lastSeen, charged.leases⟩
        stocked := ⟨(Nat.sub_le _ _).trans most, part, by simp [kind], by simp [kind]⟩
        decided := Or.inl rfl
        unspent := by rintro ⟨⟩
        balance := by rintro ⟨⟩
        found := by rintro ⟨⟩
        timely := fun _ _ => by simp only [Time.add]; omega }

/-! ## Windows -/

/-- A window rejects a request and stays as it is, or adds its cost. -/
theorem consumeWindow_cases (current : State) (reset : Time) :
    (consumeWindow current request reset).Yields fun outcome => outcome.decision.reset = reset ∧
      (outcome.error = some .rejected ∧ outcome.state = current ∧ request.policy.limit < current.used + request.cost ∨
        outcome.error = none ∧ outcome.state = { current with used := current.used + request.cost } ∧
          current.used + request.cost ≤ request.policy.limit) := by
  have positive := limits.cost_pos
  have limit := limits.limit_le
  unfold consumeWindow
  dsimp only
  rw [u64_sub_exact (min_le_right _ _) (by omega), pure_bind]
  split
  · exact yields_pure ⟨rfl, Or.inl ⟨rfl, rfl, by omega⟩⟩
  · have room : current.used + request.cost ≤ request.policy.limit := by omega
    rw [u64_add_exact (by omega), pure_bind, u64_sub_exact room (by omega), pure_bind]
    exact yields_pure ⟨rfl, Or.inr ⟨rfl, rfl, room⟩⟩

include stocked matched in
/-- A fixed window opened at any count accounts for its outcome, up to its end. -/
theorem openedWindow_accounts (fixed : request.policy.algorithm = .fixedWindow) (start : Int) {stop : Int}
    (ends : InRange request.now period → request.now.nanos ≤ stop) :
    (consumeWindow (if current.windowStart ≠ start then { current with windowStart := start, used := 0 } else current)
      request ⟨stop⟩).Yields (Accounts current request period) := by
  have cost := limits.cost_le
  have kind : current.algorithm = .fixedWindow := matched.trans fixed
  generalize opens : (if current.windowStart ≠ start then
    { current with windowStart := start, used := 0 } else current) = opened
  have frame : Charged current opened ∧ opened.used ≤ current.used ∧ opened.segments = current.segments ∧
      opened.tokens = current.tokens ∧ opened.remainder = current.remainder := by
    subst opens
    split
    · exact ⟨⟨rfl, rfl, rfl, rfl⟩, Nat.zero_le _, rfl, rfl, rfl⟩
    · exact ⟨⟨rfl, rfl, rfl, rfl⟩, le_rfl, rfl, rfl, rfl⟩
  obtain ⟨charged, used, segments, tokens, remainder⟩ := frame
  have kept : Stocked opened :=
    ⟨tokens.trans_le stocked.tokens, remainder.trans_le stocked.remainder, by rw [charged.algorithm, kind]; nofun,
      by rw [charged.algorithm, kind]; nofun⟩
  obtain ⟨outcome, returns, reset, ⟨error, state, full⟩ | ⟨error, state, -⟩⟩ :=
    consumeWindow_cases limits opened (⟨stop⟩ : Time)
  · refine ⟨outcome, returns, by rw [state]; exact charged, by rw [state]; exact kept, Or.inr error, fun _ => ?_,
      fun _ _ => ?_, fun _ => Or.inl (by omega), fun range _ => by rw [reset]; exact ends range⟩
    · rw [state]
      exact ⟨used, fun slot => by rw [segments]⟩
    · rw [state, tokens]
      exact min_le_left _ _
  · have allowed : outcome.error ≠ some .rejected := by simp [error]
    refine ⟨outcome, returns, ?_, ?_, Or.inl error, fun refused => absurd refused allowed,
      fun refused => absurd refused allowed, fun refused => absurd refused allowed,
      fun range _ => by rw [reset]; exact ends range⟩
    · rw [state]
      exact ⟨charged.revision, charged.algorithm, charged.lastSeen, charged.leases⟩
    · rw [state]
      exact ⟨kept.tokens, kept.remainder, by rw [charged.algorithm, kind]; nofun,
        by rw [charged.algorithm, kind]; nofun⟩

include stocked matched in
theorem admitFixed_accounts (fixed : request.policy.algorithm = .fixedWindow) :
    (admitFixed current request).Yields (Accounts current request period) := by
  obtain ⟨nanos, positive, small⟩ := period_nanos limits
  unfold admitFixed
  by_cases range : InRange request.now period
  · obtain ⟨low, high⟩ := now_bounds limits range
    have within := Postgres.multiple_bounds request.now.nanos (show 0 < request.policy.period.nanos by omega)
    rw [i64_exact (by omega) (by omega), pure_bind, floorBoundary_eq (by omega) (by omega) (by omega) (by omega)]
    generalize request.now.nanos / request.policy.period.nanos * request.policy.period.nanos = start at within ⊢
    have begins : (i64 start).Yields (· = start.bmod 18446744073709551616) := ⟨_, i64_returns start, rfl⟩
    have ends : (i64 (start.bmod 18446744073709551616 + request.policy.period.nanos)).Yields
        (· = start + request.policy.period.nanos) := ⟨_, stop_returns (by omega) (by omega), rfl⟩
    apply begins.bind
    rintro _ rfl
    apply ends.bind
    rintro _ rfl
    exact openedWindow_accounts limits stocked matched fixed _ fun _ => by omega
  · apply (i64_yields _).bind
    intro now _
    apply (floorBoundary_yields now (by omega)).bind
    intro start _
    apply (i64_yields _).bind
    intro stop _
    exact openedWindow_accounts limits stocked matched fixed _ fun inside => absurd inside range

/-- The reset of a sliding window is not before a time in range, if the earliest used segment
is newer than the last expired one and ends in the range of a count. -/
theorem slidingReset_timely (earliest : Int)
    (newer : earliest ≠ maxInt64 →
      countedIndex (request.now.nanos - request.policy.period.nanos) (segmentSize request.policy.period) < earliest) :
    (slidingReset earliest (segmentSize request.policy.period) request).Yields fun reset =>
      InRange request.now period →
        (earliest ≠ maxInt64 → (earliest + 1) * segmentSize request.policy.period ≤ maxInt64) →
        request.now.nanos ≤ reset.nanos := by
  obtain ⟨nanos, positive, small⟩ := period_nanos limits
  obtain ⟨-, large, narrow, -⟩ := segmentSize_bounds limits
  unfold slidingReset
  split
  swap
  · exact yields_pure fun _ _ => by simp only [Time.add]; omega
  rename_i some
  have ahead := newer some
  refine ⟨_, boundary_returns earliest _ _ (returns_pure _), fun range fits => ?_⟩
  obtain ⟨low, high⟩ := now_bounds limits range
  have ends := fits some
  have counted := le_countedIndex (show 0 < segmentSize request.policy.period by omega) (by omega)
    (show -18446744073709551616 ≤ request.now.nanos - request.policy.period.nanos by omega) (by omega)
  have bounds := countedIndex_bounds (request.now.nanos - request.policy.period.nanos)
    (show 0 < segmentSize request.policy.period by omega)
  have expired := Postgres.multiple_bounds (request.now.nanos - request.policy.period.nanos)
    (show 0 < segmentSize request.policy.period by omega)
  generalize segmentSize request.policy.period = size at *
  generalize countedIndex (request.now.nanos - request.policy.period.nanos) size = oldest at *
  generalize (request.now.nanos - request.policy.period.nanos) / size = last at *
  have above : oldest * size ≤ (earliest + 1) * size := by nlinarith
  have beyond : last * size + size ≤ (earliest + 1) * size := by nlinarith
  simp only [maxInt64] at ends
  rw [bmod_exact (by omega) (by omega)]
  simp only [Time.add]
  omega

include stocked matched in
/-- A sliding window that counts no more than its segments hold accounts for its outcome, up
to its reset. -/
theorem chargedSlot_accounts (sliding : request.policy.algorithm = .slidingWindow) (slot : Fin 16) {used : Nat}
    {segments : Fin 16 → Segment} (fewer : ∀ slot, (segments slot).used ≤ (current.segments slot).used)
    (holds : held segments (List.finRange 16) ≤ used) (counts : used ≤ held current.segments (List.finRange 16))
    {reset : Time} (timely : InRange request.now period → SegmentsFit current request.policy.period →
      request.now.nanos ≤ reset.nanos) :
    (do
      let outcome ← consumeWindow { current with used := used, segments := segments } request reset
      if outcome.error = none then do
        let used ← u64 (((outcome.state.segments slot).used : Int) + request.cost)
        pure { outcome with
          state := { outcome.state with
            segments := Function.update outcome.state.segments slot
              { outcome.state.segments slot with used := used } } }
      else pure outcome : Machine Outcome).Yields (Accounts current request period) := by
  have kind : current.algorithm = .slidingWindow := matched.trans sliding
  obtain ⟨counted, few⟩ := stocked.sliding kind
  have cost := limits.cost_le
  have limit := limits.limit_le
  apply (consumeWindow_cases limits { current with used := used, segments := segments } reset).bind
  rintro ⟨state, decision, error⟩ ⟨told, ⟨rfl, rfl, full⟩ | ⟨rfl, rfl, room⟩⟩
  · dsimp only at told full ⊢
    rw [if_neg (by simp)]
    exact yields_pure
      { charged := ⟨rfl, rfl, rfl, rfl⟩
        stocked := ⟨stocked.tokens, stocked.remainder, fun _ => ⟨holds, by dsimp only; omega⟩, stocked.concurrent⟩
        decided := Or.inr rfl
        unspent := fun _ => ⟨counts.trans counted, fewer⟩
        balance := fun _ _ => min_le_left _ _
        found := fun _ => Or.inl (by omega)
        timely := fun range fits => told ▸ timely range (fits sliding) }
  · dsimp only at told room ⊢
    have small := used_le_held segments slot
    have added := held_update segments (List.nodup_finRange 16) (List.mem_finRange slot)
      { segments slot with used := (segments slot).used + request.cost }
    dsimp only at added
    rw [if_pos rfl, u64_add_exact (by omega), pure_bind]
    exact yields_pure
      { charged := ⟨rfl, rfl, rfl, rfl⟩
        stocked := ⟨stocked.tokens, stocked.remainder, fun _ => ⟨by dsimp only; omega, by dsimp only; omega⟩,
          stocked.concurrent⟩
        decided := Or.inl rfl
        unspent := nofun
        balance := nofun
        found := nofun
        timely := fun range fits => told ▸ timely range (fits sliding) }

include stocked matched in
theorem admitSliding_accounts (sliding : request.policy.algorithm = .slidingWindow) :
    (admitSliding current request).Yields (Accounts current request period) := by
  obtain ⟨nanos, positive, small⟩ := period_nanos limits
  obtain ⟨size_eq, large, narrow, -⟩ := segmentSize_bounds limits
  obtain ⟨counted, few⟩ := stocked.sliding (matched.trans sliding)
  have resets := slidingReset_timely limits
  unfold admitSliding
  rw [i64_exact (by omega) (by omega), pure_bind, quo_exact (by decide) (by omega) (by omega), pure_bind, size_eq]
  refine countedIndex_yields _ large (by omega) ?_
  refine countedIndex_yields (request.now.nanos - request.policy.period.nanos) large (by omega) ?_
  generalize countedIndex request.now.nanos (segmentSize request.policy.period) = index
  generalize countedIndex (request.now.nanos - request.policy.period.nanos) (segmentSize request.policy.period) = oldest
    at resets ⊢
  rw [sweepSegments_exact _ _ _ _ _ (by omega), pure_bind]
  obtain ⟨left, total, first⟩ := Unbounded.sweepSegments_sweeps oldest _
    (List.nodup_finRange 16) current.segments 0 maxInt64
  generalize Unbounded.sweepSegments oldest (List.finRange 16) current.segments 0 maxInt64 = swept at left total first ⊢
  obtain ⟨segments, used, earliest⟩ := swept
  dsimp only at left total first ⊢
  have fewer : ∀ slot, (segments slot).used ≤ (current.segments slot).used := by
    intro slot
    rw [left slot]
    split
    · exact Nat.zero_le _
    · exact le_rfl
  have less : held segments (List.finRange 16) ≤ held current.segments (List.finRange 16) :=
    List.sum_le_sum fun slot _ => fewer slot
  -- The slot of another index is emptied before it is used.
  have emptied : ∀ slot, ((if (segments (Ring.slot 16 index)).index ≠ index then
      Function.update segments (Ring.slot 16 index) { index := index } else segments) slot).used ≤
        (segments slot).used := by
    intro slot
    split
    · by_cases same : slot = Ring.slot 16 index
      · rw [same, Function.update_self]
        exact Nat.zero_le _
      · rw [Function.update_of_ne same]
    · exact le_rfl
  rw [positiveMod_exact, pure_bind, Postgres.slotAt_exact, pure_bind]
  apply (resets earliest fun some => ?newer).bind
  case newer =>
    rcases first with none | ⟨slot, -, live, -, rfl⟩
    · exact absurd none some
    · exact live
  intro reset timely
  refine chargedSlot_accounts limits stocked matched sliding _ (fun slot => (emptied slot).trans (fewer slot))
    (le_trans (List.sum_le_sum fun slot _ => emptied slot) (show held segments (List.finRange 16) ≤ used by omega))
    (by omega) fun range fits => timely range fun some => ?_
  rcases first with none | ⟨slot, -, -, used, rfl⟩
  · exact absurd none some
  · exact fits slot used

include stocked matched in
/-- Every algorithm accounts for its outcome. -/
theorem admitState_accounts (rate : request.policy.algorithm.IsRate) :
    (admitState current request).Yields (Accounts current request period) := by
  unfold admitState
  rcases rate with token | fixed | sliding
  · rw [token]
    exact admitToken_accounts limits stocked matched token
  · rw [fixed]
    exact admitFixed_accounts limits stocked matched fixed
  · rw [sliding]
    exact admitSliding_accounts limits stocked matched sliding

end

/-! ## What an acquisition accounts for -/

/-- What an acquisition leaves of a state. One that fails found active leases, and leaves
these. -/
structure LeaseAccounts (current : State) (request : LeaseRequest) (leased : Leased) : Prop where
  frame : leased.state = { current with lastSeen := request.request.now, leases := leased.state.leases }
  timely : validateStrictLeaseTime leased.lease leased.decision request.request.now = none
  failed : leased.error ≠ none → leased.state.leases = activeLeases request.request.now current.leases ∧
    leased.state.leases.entries ≠ []

theorem sumCosts_none (entries : List (Σ _ : GoString, LeaseState)) :
    (sumCosts entries 0).Yields fun used => entries = [] → used = 0 := by
  cases entries with
  | nil => exact yields_pure fun _ => rfl
  | cons entry rest =>
    obtain ⟨used, returns, -⟩ := sumCosts_yields (entry :: rest) 0
    exact ⟨used, returns, nofun⟩

theorem acquire_accounts {request : LeaseRequest} {term : Nat} (bounds : request.Bounds term) (current : State) :
    (acquire current request).Yields (LeaseAccounts current request) := by
  have limit := bounds.limit_le
  have cost := bounds.cost_le
  have positive := bounds.lease_pos
  unfold acquire
  dsimp only
  apply (sumCosts_none _).bind
  intro used free
  rw [u64_sub_exact (min_le_right _ _) (by omega), pure_bind]
  split
  · rename_i existing found
    have some : (activeLeases request.request.now current.leases).entries ≠ [] :=
      List.ne_nil_of_mem (LeaseTable.lookup_iff_mem.mp found)
    split
    · exact yields_pure ⟨rfl, by simp [validateStrictLeaseTime, Postgres.validateStrictLeaseTime,
        Postgres.validateStrictDecisionTime], fun _ => ⟨rfl, some⟩⟩
    · exact yields_pure ⟨rfl, Postgres.validateStrictLeaseTime_lease rfl (lookup_activeLeases.mp found).2,
        fun failed => absurd rfl failed⟩
  · split
    · rename_i short
      have some : (activeLeases request.request.now current.leases).entries ≠ [] := by
        intro none
        have := free none
        omega
      obtain ⟨entry, member, same⟩ := earliestLease_mem some
      refine yields_pure ⟨rfl, ?_, fun _ => ⟨rfl, some⟩⟩
      apply Postgres.validateStrictLeaseTime_none
      rw [same]
      exact of_decide_eq_true (LeaseTable.mem_keep.mp member).2
    · apply (u64_yields _).bind
      intro left _
      refine yields_pure ⟨rfl, Postgres.validateStrictLeaseTime_lease rfl ?_, fun failed => absurd rfl failed⟩
      rw [bounds.lease_eq]
      simp only [Time.add, Duration.ofMicros]
      omega

/-! ## Stocked stores -/

def Store.Stocked (store : Store) : Prop := ∀ key state, store.find key = some state → Memory.Stocked state

theorem Updated.stocked {store next : Store} (updated : Updated store next key now state) (stocked : store.Stocked)
    (here : Stocked state) : next.Stocked := by
  intro other current found
  by_cases same : other = key
  · subst same
    cases updated.here.symm.trans found
    exact here
  · exact stocked other current (updated.old other current same found)

theorem held_none : held (fun _ => ({} : Segment)) (List.finRange 16) = 0 := by decide

theorem Store.Stocked.adopted {store : Store} (stocked : store.Stocked) {request : Request}
    (limit : request.policy.limit ≤ 9007199254740991) (key : GoString) :
    Memory.Stocked (adopted (store.find key) request) := by
  cases found : store.find key with
  | none => exact ⟨limit, Nat.zero_le _, fun _ => ⟨held_none.le, Nat.zero_le _⟩, fun _ => rfl⟩
  | some current =>
    have ⟨tokens, remainder, sliding, concurrent⟩ := stocked key current found
    unfold Memory.adopted
    dsimp only
    split
    · refine ⟨?_, Nat.zero_le _, sliding, fun _ => rfl⟩
      unfold carryRevision
      split
      · exact (min_le_left _ _).trans tokens
      · exact tokens
    · exact ⟨tokens, remainder, sliding, concurrent⟩

theorem decidedAt_early (store : Store) (request : Request) :
    request.now.unixMicro ≤ (decidedAt store request).now.unixMicro := by
  unfold decidedAt effectiveTime
  split
  · exact clampLastSeen_early _ _
  · exact le_rfl

/-- The algorithm of a valid request, on a stocked store and at any effective time. -/
theorem Store.Stocked.accounts {store : Store} (stocked : store.Stocked) {request : Request} {period : Nat}
    (limits : Limits request period) (rate : request.policy.algorithm.IsRate) (matched : Matched store request) :
    (admitState (decidedOn store request) (decidedAt store request)).Yields
      (Accounts (decidedOn store request) (decidedAt store request) period) := by
  have timed : Limits (decidedAt store request) period :=
    limits.retimed (limits.not_before.trans (decidedAt_early store request))
  have kept := stocked.adopted limits.limit_le (stateKey request)
  exact admitState_accounts timed ⟨kept.tokens, kept.remainder, kept.sliding, kept.concurrent⟩
    (adopted_algorithm matched) rate

/-- A valid acquisition, on the state and at the time that decide it. -/
theorem acquireDecided_accounts (store : Store) {request : LeaseRequest} (bounds : request.Bounds term) :
    (acquire (adopted (store.find (stateKey (truncated request.request))) (truncated request.request))
      (retimed request (decidedAt store (truncated request.request)).now)).Yields
      (LeaseAccounts (adopted (store.find (stateKey (truncated request.request))) (truncated request.request))
        (retimed request (decidedAt store (truncated request.request)).now)) := by
  have early : -9007199254740991 ≤ (decidedAt store (truncated request.request)).now.unixMicro := by
    refine le_trans ?_ (decidedAt_early store (truncated request.request))
    simpa [truncated] using bounds.not_before
  have later : (retimed request (decidedAt store (truncated request.request)).now).Bounds term :=
    bounds.later rfl rfl early
  exact acquire_accounts later _

/-! ## Calls that fail -/

/-- What every key has to give is as it was, for the leases that matter. -/
structure SameStock (live : LeaseState → Prop) (before after : State) : Prop where
  tokens : after.tokens = before.tokens
  remainder : after.remainder = before.remainder
  windowStart : after.windowStart = before.windowStart
  used : after.used = before.used
  segments : after.segments = before.segments
  leases : ∀ id lease, live lease → (after.leases.lookup id = some lease ↔ before.leases.lookup id = some lease)

/-- No usage is added: no more of a window is used and no lease is new, and the balance is
what it was or more, up to the limit. No lease that matters is removed. -/
structure NoUsageAdded (limit : Nat) (live : LeaseState → Prop) (before after : State) : Prop where
  unspent : Unspent before after
  balance : min before.tokens limit ≤ after.tokens
  added : ∀ id lease, after.leases.lookup id = some lease → before.leases.lookup id = some lease
  kept : ∀ id lease, live lease → before.leases.lookup id = some lease → after.leases.lookup id = some lease

theorem SameStock.refl (live : LeaseState → Prop) (state : State) : SameStock live state state :=
  ⟨rfl, rfl, rfl, rfl, rfl, fun _ _ _ => Iff.rfl⟩

theorem NoUsageAdded.refl (limit : Nat) (live : LeaseState → Prop) (state : State) :
    NoUsageAdded limit live state state :=
  ⟨.refl _, min_le_left _ _, fun _ _ found => found, fun _ _ _ found => found⟩

/-- Two stores have the same keys, with states that are related. -/
def SameKeys (rel : State → State → Prop) (store next : Store) : Prop :=
  ∀ key, Option.Rel rel (store.find key) (next.find key)

theorem SameKeys.refl {rel : State → State → Prop} (related : ∀ state, rel state state) (store : Store) :
    SameKeys rel store store := by
  intro key
  cases store.find key with
  | none => exact .none
  | some state => exact .some (related state)

theorem Written.sameKeys {rel : State → State → Prop} {store next : Store} (written : Written store next key now after)
    (found : store.find key = some before) (here : rel before after) (related : ∀ state, rel state state) :
    SameKeys rel store next := by
  intro other
  by_cases same : other = key
  · subst same
    rw [found, written.here]
    exact .some here
  · rw [written.others (by simp [found]) other same]
    exact SameKeys.refl related store other

/-- The limit of a call. -/
def Call.limit : Call → Nat
  | .admitStrict _ request _ => request.policy.limit
  | .acquireStrict _ request _ => request.request.policy.limit
  | .releaseStrict _ _ | .sweep _ _ | .close => 0

/-- The leases that have not expired at the effective time of a call; a release has none. -/
def Call.live (store : Store) : Call → LeaseState → Prop
  | .admitStrict _ request _, lease => (decidedAt store (truncated request)).now.nanos < lease.expiresAt.nanos
  | .acquireStrict _ request _, lease => (decidedAt store (truncated request.request)).now.nanos < lease.expiresAt.nanos
  | _, _ => True

/-- A call that is rejected adds no usage, and one that fails otherwise leaves what every key
has to give; neither makes or evicts a key. -/
structure ConsumesNothing (store : Store) (call : Call) (reply : Reply) (next : Store) : Prop where
  rejected : reply.error = some (.sentinel .rejected) → SameKeys (NoUsageAdded call.limit (call.live store)) store next
  failed : ∀ problem, reply.error = some problem → problem ≠ .sentinel .rejected →
    SameKeys (SameStock (call.live store)) store next

theorem ConsumesNothing.unchanged (store : Store) (call : Call) (reply : Reply) :
    ConsumesNothing store call reply store :=
  ⟨fun _ => .refl (.refl _ _) store, fun _ _ _ => .refl (.refl _) store⟩

theorem ConsumesNothing.success {reply : Reply} (answered : reply.error = none) (store : Store) (call : Call)
    (next : Store) :
    ConsumesNothing store call reply next := by
  constructor
  · intro rejected
    cases answered.symm.trans rejected
  · intro problem failed
    cases answered.symm.trans failed

/-- The sums of an admission stay in a word: the balance of a token bucket with what it has
earned, and the ends of the used segments of a sliding window. -/
def StaysInWord (store : Store) : Call → Prop
  | .admitStrict _ request _ =>
    (request.policy.algorithm = .tokenBucket →
      FitsWord (decidedOn store (truncated request)) (decidedAt store (truncated request))) ∧
    (request.policy.algorithm = .slidingWindow →
      ∀ state, store.find (stateKey request) = some state → SegmentsFit state request.policy.period)
  | _ => True

/-- What a revision carries over of a key. -/
theorem adopted_stock (current : State) (request : Request) :
    (adopted (some current) request).used = current.used ∧ (adopted (some current) request).segments =
      current.segments ∧
      (adopted (some current) request).windowStart = current.windowStart ∧
      min current.tokens request.policy.limit ≤ (adopted (some current) request).tokens ∧
      (current.algorithm ≠ .tokenBucket → (adopted (some current) request).tokens = current.tokens) ∧
      ((adopted (some current) request).remainder = current.remainder ∨
        (adopted (some current) request).remainder = 0) := by
  unfold adopted
  dsimp only
  split
  · unfold carryRevision
    refine ⟨rfl, rfl, rfl, ?_, fun other => if_neg other, Or.inr rfl⟩
    split
    · exact le_rfl
    · exact min_le_left _ _
  · exact ⟨rfl, rfl, rfl, min_le_left _ _, fun _ => rfl, Or.inl rfl⟩

/-- A request that is rejected found its key. -/
theorem Accounts.present {store : Store} {request : Request}
    (accounts : Accounts (decidedOn store request) (decidedAt store request) period outcome)
    (rejected : outcome.error = some .rejected) : ∃ current, store.find (stateKey request) = some current := by
  have found := accounts.found rejected
  cases present : store.find (stateKey request) with
  | some current => exact ⟨current, rfl⟩
  | none =>
    simp [decidedOn, decidedAt, present, adopted, freshState, effectiveTime] at found

/-- What a request that is rejected leaves of its key. -/
theorem Accounts.noUsageAdded {store : Store} {request : Request} {live : LeaseState → Prop}
    (accounts : Accounts (decidedOn store request) (decidedAt store request) period outcome)
    (rejected : outcome.error = some .rejected) (found : store.find (stateKey request) = some current)
    (fits : request.policy.algorithm = .tokenBucket → FitsWord (decidedOn store request) (decidedAt store request)) :
    NoUsageAdded request.policy.limit live current outcome.state := by
  have unspent := accounts.unspent rejected
  have balance := accounts.balance rejected fits
  have leases : outcome.state.leases = current.leases := by
    rw [accounts.charged.leases, decidedOn, adopted_leases, found]
    rfl
  obtain ⟨used, segments, -, tokens, -, -⟩ := adopted_stock current request
  unfold decidedOn at unspent balance
  rw [found] at unspent balance
  refine ⟨⟨used ▸ unspent.used, fun slot => segments ▸ unspent.segments slot⟩, ?_, by rw [leases]; exact fun _ _ => id,
    by rw [leases]; exact fun _ _ _ => id⟩
  exact (le_min tokens (min_le_right _ _)).trans balance

/-- What an admission leaves once it was decided. -/
theorem decided_consumes {store next : Store} {request : Request} (waits : Waits) (built : request.policy.Built)
    (accounts : Accounts (decidedOn store (truncated request)) (decidedAt store (truncated request)) period outcome)
    (range : InRange (decidedAt store (truncated request)).now period)
    (written : Written store next (stateKey request) (truncated request).now outcome.state)
    (stays : StaysInWord store (.admitStrict waits request built)) :
    let answer := strictDecisionResult ⟨outcome.decision, outcome.error⟩ outcome.state.lastSeen
    ConsumesNothing store (.admitStrict waits request built)
      (.admitted ⟨answer.decision, answer.error.map .sentinel⟩) next := by
  obtain ⟨token, sliding⟩ := stays
  have segmentsFit : request.policy.algorithm = .slidingWindow →
      SegmentsFit (decidedOn store (truncated request)) request.policy.period := by
    intro kind slot some
    cases found : store.find (stateKey request) with
    | none =>
      unfold decidedOn at some
      rw [show store.find (stateKey (truncated request)) = none from found] at some
      exact absurd rfl some
    | some current =>
      obtain ⟨-, segments, -⟩ := adopted_stock current (truncated request)
      have same : (decidedOn store (truncated request)).segments = current.segments := by
        unfold decidedOn
        rw [show store.find (stateKey (truncated request)) = _ from found]
        exact segments
      rw [same] at some ⊢
      exact sliding kind current found slot some
  have timely := accounts.timely range segmentsFit
  have seen : outcome.state.lastSeen = (decidedAt store (truncated request)).now := accounts.charged.lastSeen
  have told : strictDecisionResult ⟨outcome.decision, outcome.error⟩ outcome.state.lastSeen =
      ⟨outcome.decision, outcome.error⟩ := by
    unfold strictDecisionResult validateStrictDecisionTime Postgres.validateStrictDecisionTime
    rw [seen, if_neg fun early => absurd early.2 (not_lt.mpr timely)]
  intro answer
  rw [show answer = _ from told]
  rcases accounts.decided with allowed | rejected
  · exact .success (by rw [Reply.error, allowed]; rfl) _ _ _
  · obtain ⟨current, found⟩ := accounts.present rejected
    refine ⟨fun _ => written.sameKeys found (accounts.noUsageAdded rejected found token) (.refl _ _), ?_⟩
    intro problem failed other
    rw [Reply.error, rejected] at failed
    cases failed
    exact absurd rfl other

section
variable {store : Store} (stocked : store.Stocked)
include stocked

theorem admitStrict_consumes (waits : Waits) {request : Request} (built : request.policy.Built) :
    (store.admitStrict waits request).Yields fun result => result.1.Stocked ∧
      (StaysInWord store (.admitStrict waits request built) →
        ConsumesNothing store (.admitStrict waits request built) (.admitted result.2) result.1) := by
  have case := store.admitStrict_case waits request
  generalize store.admitStrict waits request = run at case ⊢
  cases case with
  | invalid | stopped | unsupported => exact yields_pure ⟨stocked, fun _ => .unchanged _ _ _⟩
  | held valid clear other =>
    have rate := built.sound.known.resolve_right other
    obtain ⟨period, bounds⟩ := (⟨request, built, valid⟩ : ValidRequest).bounds rate
    have timed : (truncated request).Bounds period :=
      bounds.retimed rfl rfl (by simpa [truncated] using bounds.not_before) (by simpa [truncated] using bounds.room)
    apply (Store.admitHeld_decides timed fun matched _ => stocked.accounts (limits_of_bounds timed) rate matched).bind
    rintro ⟨next, answer⟩ (⟨rfl, problem, -, rfl⟩ | ⟨outcome, accounts, -, range, written, rfl⟩)
    · exact yields_pure ⟨stocked, fun _ => .unchanged _ _ _⟩
    · exact yields_pure ⟨written.stocked stocked accounts.stocked,
        decided_consumes waits built accounts range written⟩

theorem admitPlain_stocked (context : CallerState) {request : Request} (built : request.policy.Built) :
    (store.admitPlain context request).Yields fun result => result.1.Stocked := by
  unfold Store.admitPlain
  split
  · exact yields_pure stocked
  · exact yields_pure stocked
  · rename_i valid
    split
    · exact yields_pure stocked
    rename_i other
    have rate := built.sound.known.resolve_right other
    obtain ⟨period, bounds⟩ := (⟨request, built, valid⟩ : ValidRequest).bounds rate
    have limits : Limits (truncated request) period :=
      (limits_of_bounds bounds).retimed (by simpa using bounds.not_before)
    apply (Store.admitLocked_yields fun matched => stocked.accounts limits rate matched).bind
    rintro ⟨target, answer⟩ (⟨same, -⟩ | ⟨outcome, accounts, -, written, -⟩)
    · exact yields_pure (show Store.Stocked (store.setShard (store.shardFor (stateKey (truncated request))) target) from
        same.symm ▸ stocked)
    · exact yields_pure (written.stocked stocked accounts.stocked)

/-- What an acquisition leaves of its key is stocked. -/
theorem LeaseAccounts.keepsStock {request : Request} {timed : LeaseRequest}
    (accounts : LeaseAccounts (adopted (store.find (stateKey request)) request) timed leased)
    (limit : request.policy.limit ≤ 9007199254740991) : Memory.Stocked leased.state := by
  have kept := stocked.adopted limit (stateKey request)
  rw [accounts.frame]
  exact ⟨kept.tokens, kept.remainder, kept.sliding, kept.concurrent⟩

/-- What an acquisition that fails leaves of its key. -/
theorem LeaseAccounts.sameStock {request : Request} {timed : LeaseRequest}
    (accounts : LeaseAccounts (adopted (store.find (stateKey request)) request) timed leased)
    (failed : leased.error ≠ none) (concurrent : request.policy.algorithm = .concurrency)
      (matched : Matched store request) :
    ∃ current, store.find (stateKey request) = some current ∧
      leased.state.leases = activeLeases timed.request.now current.leases ∧
      SameStock (fun lease => timed.request.now.nanos < lease.expiresAt.nanos) current leased.state := by
  obtain ⟨active, some⟩ := accounts.failed failed
  rw [adopted_leases] at active
  cases found : store.find (stateKey request) with
  | none =>
    rw [active, found] at some
    exact absurd rfl some
  | some current =>
    rw [found] at active
    have kind : current.algorithm = .concurrency := (matched current found).trans concurrent
    have whole := (stocked _ current found).concurrent kind
    obtain ⟨used, segments, windowStart, -, tokens, remainder⟩ := adopted_stock current request
    have frame := accounts.frame
    rw [found] at frame
    refine ⟨current, rfl, active, ?_, ?_, ?_, ?_, ?_, fun id lease live => ?_⟩
    · rw [frame]
      exact tokens (by simp [kind])
    · rw [frame]
      rcases remainder with same | none
      · exact same
      · exact none.trans whole.symm
    · rw [frame]
      exact windowStart
    · rw [frame]
      exact used
    · rw [frame]
      exact segments
    · rw [active]
      exact lookup_activeLeases.trans (and_iff_left live)

theorem acquireStrict_consumes (waits : Waits) {request : LeaseRequest} (built : request.request.policy.Built) :
    (store.acquireStrict waits request).Yields fun result => result.1.Stocked ∧
      ConsumesNothing store (.acquireStrict waits request built) (.acquired result.2) result.1 := by
  have case := store.acquireStrict_case waits request
  generalize store.acquireStrict waits request = run at case ⊢
  cases case with
  | invalid | stopped => exact yields_pure ⟨stocked, .unchanged _ _ _⟩
  | held valid clear =>
    have checked := (⟨request, built, valid⟩ : ValidLeaseRequest).checked.2.1
    obtain ⟨term, bounds, room⟩ := (⟨request, built, valid⟩ : ValidLeaseRequest).bounds
    have timed : (retimed request (truncate request.request.now)).Bounds term :=
      bounds.later rfl rfl (by simpa [retimed] using bounds.not_before)
    have limit : (truncated request.request).policy.limit ≤ 9007199254740991 := bounds.limit_le.trans (by decide)
    apply (Store.acquireHeld_decides timed fun _ _ => acquireDecided_accounts store bounds).bind
    rintro ⟨next, answer⟩ (⟨rfl, problem, -, rfl⟩ | ⟨leased, accounts, matched, written, rfl⟩)
    · exact yields_pure ⟨stocked, .unchanged _ _ _⟩
    refine yields_pure ⟨written.stocked stocked (accounts.keepsStock stocked limit), ?_⟩
    have seen : leased.state.lastSeen = (decidedAt store (truncated request.request)).now := by
      rw [accounts.frame]
      rfl
    have timely : validateStrictLeaseTime leased.lease leased.decision
      (decidedAt store (truncated request.request)).now = none :=
      accounts.timely
    have told : strictLeaseResult ⟨leased.lease, leased.decision, leased.error⟩ leased.state.lastSeen =
        ⟨leased.lease, leased.decision, leased.error⟩ := by
      unfold strictLeaseResult
      rw [seen, timely]
    rw [told]
    by_cases failed : leased.error = none
    · exact .success (by rw [Reply.error, failed]; rfl) _ _ _
    obtain ⟨current, found, active, same⟩ := accounts.sameStock stocked failed checked matched
    refine ⟨fun _ => written.sameKeys found ?_ (.refl _ _), fun _ _ _ => written.sameKeys found same (.refl _)⟩
    refine ⟨⟨same.used.le, fun slot => by rw [same.segments]⟩, (min_le_left _ _).trans same.tokens.ge, ?_, ?_⟩
    · intro id lease listed
      rw [active] at listed
      exact (lookup_activeLeases.mp listed).1
    · exact fun id lease live listed => (same.leases id lease live).mpr listed

theorem acquirePlain_stocked (context : CallerState) {request : LeaseRequest} (built : request.request.policy.Built) :
    (store.acquirePlain context request).Yields fun result => result.1.Stocked := by
  unfold Store.acquirePlain
  split
  · exact yields_pure stocked
  · exact yields_pure stocked
  · rename_i valid
    obtain ⟨term, bounds, -⟩ := (⟨request, built, valid⟩ : ValidLeaseRequest).bounds
    have limit : (truncated request.request).policy.limit ≤ 9007199254740991 := bounds.limit_le.trans (by decide)
    have locked := @Store.acquireLocked_yields store (retimed request (truncate request.request.now)) _
      fun _ => acquireDecided_accounts store bounds
    apply locked.bind
    rintro ⟨target, answer⟩ (⟨same, -⟩ | ⟨leased, accounts, -, written, -⟩)
    · exact yields_pure (show Store.Stocked (store.setShard (store.shardFor (stateKey request.request)) target) from
        same.symm ▸ stocked)
    · exact yields_pure (written.stocked stocked (accounts.keepsStock stocked limit))

/-- A release takes nothing from a key but the lease. -/
theorem Releases.keepsStock {next : Store} (releases : Releases store lease next problem) : next.Stocked := by
  cases releases with
  | missing | foreign => exact stocked
  | released found held updated =>
    have kept := stocked _ _ found
    exact (updated Time.zero).stocked stocked ⟨kept.tokens, kept.remainder, kept.sliding, kept.concurrent⟩

theorem releasePlain_stocked (context : CallerState) (lease : Lease) :
    (store.releasePlain context lease).1.Stocked := by
  unfold Store.releasePlain
  split
  · exact stocked
  · exact (store.releaseHeld_releases lease).keepsStock stocked

theorem releaseStrict_consumes (waits : Waits) (lease : Lease) :
    (store.releaseStrict waits lease).1.Stocked ∧
      ConsumesNothing store (.releaseStrict waits lease) (.released (store.releaseStrict waits lease).2)
        (store.releaseStrict waits lease).1 := by
  have case := store.releaseStrict_case waits lease
  generalize store.releaseStrict waits lease = result at case ⊢
  cases case with
  | invalid | stopped => exact ⟨stocked, .unchanged _ _ _⟩
  | held clear releases =>
    refine ⟨releases.keepsStock stocked, ?_⟩
    cases releases with
    | missing | foreign => exact .unchanged _ _ _
    | released => exact .success rfl _ _ _

theorem sweep_stocked (now : Time) (idleFor : Duration) : (store.sweep now idleFor).1.Stocked := by
  intro key state found
  obtain ⟨current, present, rfl | rfl⟩ := Store.sweep_old found
  · exact stocked key state present
  · have kept := stocked key current present
    exact ⟨kept.tokens, kept.remainder, kept.sliding, kept.concurrent⟩

/-- A strict call that stays in a word. -/
def StoreCall.Fails (store : Store) (call : StoreCall) (reply : Reply) (next : Store) : Prop :=
  match call with
  | .strict call => StaysInWord store call → ConsumesNothing store call reply next
  | _ => True

/-- Every call keeps a store stocked, and a strict one consumes nothing if it fails. -/
theorem storeStep_consumes (call : StoreCall) :
    (storeStep store call).Yields fun result => call.Fails store result.2 result.1 ∧ result.1.Stocked := by
  cases call with
  | admitPlain context request built =>
    apply (admitPlain_stocked stocked context built).bind
    exact fun result kept => yields_pure ⟨trivial, kept⟩
  | acquirePlain context request built =>
    apply (acquirePlain_stocked stocked context built).bind
    exact fun result kept => yields_pure ⟨trivial, kept⟩
  | releasePlain context lease => exact yields_pure ⟨trivial, releasePlain_stocked stocked context lease⟩
  | strict call =>
    cases call with
    | admitStrict waits request built =>
      apply (admitStrict_consumes stocked waits built).bind
      exact fun result both => yields_pure ⟨both.2, both.1⟩
    | acquireStrict waits request built =>
      apply (acquireStrict_consumes stocked waits built).bind
      exact fun result both => yields_pure ⟨fun _ => both.2, both.1⟩
    | releaseStrict waits lease =>
      have both := releaseStrict_consumes stocked waits lease
      exact yields_pure ⟨fun _ => both.2, both.1⟩
    | sweep now idleFor => exact yields_pure ⟨fun _ => .success rfl _ _ _, sweep_stocked stocked now idleFor⟩
    | close => exact yields_pure ⟨fun _ => .success rfl _ _ _, stocked⟩

end

/-- The time of a request. -/
def StoreCall.time : StoreCall → Option Time
  | .strict (.admitStrict _ request _) | .admitPlain _ request _ => some request.now
  | .strict (.acquireStrict _ request _) | .acquirePlain _ request _ => some request.request.now
  | _ => none

/-- Failed calls of a memory store consume and free nothing. From every state that calls of
any kind reach at times with a count of microseconds, a strict call whose sums stay in a word:
if it is rejected, it adds no usage, removes no lease that has not expired, and makes or evicts
no key; if it fails in another way, every key has the same tokens, window usage, segments and
unexpired leases as before. -/
theorem failures_consume_nothing (options : Options) (store : Store) (made : newStore options = .ok store)
    (calls : List StoreCall) :
    ∃ entries, (Runs.trace storeStep store calls).Returns entries ∧ entries.map Entry.input = calls ∧
      ((∀ call ∈ calls, ∀ time ∈ call.time, time.HasMicros) → ∀ entry ∈ entries, ∀ call, entry.input = .strict call →
        StaysInWord entry.before call → ConsumesNothing entry.before call entry.output entry.after) := by
  have start : store.Stocked := by
    intro key state found
    rw [newStore_find made] at found
    cases found
  obtain ⟨entries, run, inputs, kept⟩ := Runs.trace_returns storeStep (fun _ store => store.Stocked)
    (fun _ entry => entry.input.Fails entry.before entry.output entry.after) calls
    (fun _ store call stocked _ => storeStep_consumes stocked call) start
  refine ⟨entries, run, inputs, fun _ entry member call same stays => ?_⟩
  obtain ⟨earlier, later, split⟩ := List.append_of_mem member
  have fails := (kept earlier entry later split).2.1
  rw [same] at fails
  exact fails stays

/-- The two entries of a run, from what is read off it. -/
theorem two_entries {read : α → β} {run : Machine (List α)} (outcome : List.map read <$> run = .done [a, b] wraps) :
    ∃ first second, run.Returns [first, second] ∧ read first = a ∧ read second = b := by
  cases run with
  | panic => cases outcome
  | done entries wrapped =>
    have entriesRead : entries.map read = [a, b] := by
      injection outcome
    obtain ⟨first, rest, rfl, here, others⟩ := List.map_eq_cons_iff.mp entriesRead
    obtain ⟨second, last, rfl, there, none⟩ := List.map_eq_cons_iff.mp others
    obtain rfl := List.map_eq_nil_iff.mp none
    exact ⟨first, second, ⟨wrapped, rfl⟩, here, there⟩

/-- A request in a sliding window of a minute, which takes one. -/
def inMinute (micros : Int) : Call := .admitStrict {} (minuteCall micros).request oneAMinute_built

def twoLeases : Policy := leasePolicy 97 2 3600000000 hour_fits

theorem twoLeases_built : twoLeases.Built := by
  have built : newPolicy twoLeases.toPolicySpec = .ok twoLeases := rfl
  exact ⟨_, built⟩

/-- A request for the lease `l`. -/
def leaseOf (cost : Nat) (micros : Int) : Call :=
  .acquireStrict {} ⟨⟨twoLeases, ⟨[107], [117]⟩, cost, .ofUnixMicro micros⟩, [108]⟩ twoLeases_built

/-- The second request in a minute is rejected, and the second one for a lease is one for
another cost. -/
theorem failures_consume_nothing_minute :
    newStore { maxKeys := 3, shards := 2 } = .ok threeKeys ∧
      (∃ first second, (Runs.trace storeStep threeKeys [.strict (inMinute 0), .strict (inMinute 1)]).Returns
        [first, second] ∧
        second.output.error = some (.sentinel .rejected) ∧ StaysInWord second.before (inMinute 1) ∧
        ConsumesNothing second.before (inMinute 1) second.output second.after) ∧
      ∃ first second, (Runs.trace storeStep threeKeys [.strict (leaseOf 1 0), .strict (leaseOf 2 1)]).Returns
        [first, second] ∧
        second.output.error = some (.sentinel .leaseNotOwned) ∧
        ConsumesNothing second.before (leaseOf 2 1) second.output second.after := by
  have made : newStore { maxKeys := 3, shards := 2 } = .ok threeKeys := rfl
  refine ⟨made, ?_, ?_⟩
  · have outcome : (List.map (fun entry => (entry.output.error,
        (entry.before.find (stateKey (minuteCall 1).request)).any
          fun state => decide (SegmentsFit state oneAMinute.period))) <$>
          Runs.trace storeStep threeKeys [.strict (inMinute 0), .strict (inMinute 1)]) =
        .done [(none, false), (some (.sentinel .rejected), true)] false := by decide +kernel
    obtain ⟨first, second, run, -, same⟩ := two_entries outcome
    obtain ⟨error, fits⟩ := Prod.mk.inj same
    obtain ⟨entries, runs, inputs, kept⟩ := failures_consume_nothing _ threeKeys made
      [.strict (inMinute 0), .strict (inMinute 1)]
    obtain rfl := run.unique runs
    have stays : StaysInWord second.before (inMinute 1) := by
      refine ⟨nofun, fun _ state found => ?_⟩
      rw [found] at fits
      exact of_decide_eq_true fits
    exact ⟨first, second, run, error, stays,
      kept (by decide) second (by simp) _ (List.cons.inj (List.cons.inj inputs).2).1 stays⟩
  · have outcome : (List.map (fun entry => entry.output.error) <$>
          Runs.trace storeStep threeKeys [.strict (leaseOf 1 0), .strict (leaseOf 2 1)]) =
        .done [none, some (.sentinel .leaseNotOwned)] false := by decide +kernel
    obtain ⟨first, second, run, -, error⟩ := two_entries outcome
    obtain ⟨entries, runs, inputs, kept⟩ := failures_consume_nothing _ threeKeys made
      [.strict (leaseOf 1 0), .strict (leaseOf 2 1)]
    obtain rfl := run.unique runs
    exact ⟨first, second, run, error, kept (by decide) second (by simp) _
      (List.cons.inj (List.cons.inj inputs).2).1 trivial⟩

/-- Two requests in a sliding window of about 111 years. -/
def twoAnAge : Policy := ratePolicy .slidingWindow 97 2 0 3513665537849439 (by decide)

theorem twoAnAge_built : twoAnAge.Built := by
  have built : newPolicy twoAnAge.toPolicySpec = .ok twoAnAge := rfl
  exact ⟨_, built⟩

/-- One request at the first exact microsecond, and one in 1970. -/
def earliestRequest : Request := ⟨twoAnAge, ⟨[107], [117]⟩, 1, .ofUnixMicro (-9007199254740991)⟩
def epochRequest : Request := ⟨twoAnAge, ⟨[107], [117]⟩, 1, .ofUnixMicro 0⟩

/-- The segment of the first request begins before the range of a count, so that its index
wraps to one after the second request, and the end of that segment wraps to a time before it.
The second request is admitted and counted, and then told to be corrupt. -/
theorem corrupt_admission_counts :
    newStore { maxKeys := 3, shards := 2 } = .ok threeKeys ∧ earliestRequest.validate = .ok () ∧
      epochRequest.validate = .ok () ∧
      ∃ first second, (Runs.trace storeStep threeKeys
          [.strict (.admitStrict {} earliestRequest twoAnAge_built),
            .strict (.admitStrict {} epochRequest twoAnAge_built)]).Returns [first, second] ∧
        second.output.error = some (.sentinel .corrupt) ∧
        (second.before.find (stateKey epochRequest)).map State.used = some 1 ∧
        (second.after.find (stateKey epochRequest)).map State.used = some 2 ∧
        ¬ ConsumesNothing second.before (.admitStrict {} epochRequest twoAnAge_built) second.output second.after := by
  have outcome : (List.map (fun entry => (entry.output.error,
      (entry.before.find (stateKey epochRequest)).map State.used,
      (entry.after.find (stateKey epochRequest)).map State.used)) <$> Runs.trace storeStep threeKeys
        [.strict (.admitStrict {} earliestRequest twoAnAge_built),
          .strict (.admitStrict {} epochRequest twoAnAge_built)]) =
      .done [(none, none, some 1), (some (.sentinel .corrupt), some 1, some 2)] true := by decide +kernel
  refine ⟨rfl, rfl, rfl, ?_⟩
  obtain ⟨first, second, run, -, same⟩ := two_entries outcome
  simp only [Prod.mk.injEq] at same
  obtain ⟨error, before, after⟩ := same
  refine ⟨first, second, run, error, before, after, fun consumes => ?_⟩
  have kept := consumes.failed _ error (by decide) (stateKey epochRequest)
  cases found : second.before.find (stateKey epochRequest) with
  | none =>
    rw [found] at before
    cases before
  | some state =>
    rw [found] at before kept
    cases left : second.after.find (stateKey epochRequest) with
    | none =>
      rw [left] at after
      cases after
    | some next =>
      rw [left] at after kept
      cases kept with
      | some stock =>
        have used := stock.used
        simp only [Option.map_some, Option.some.injEq] at before after
        omega

end RateLimit.Memory
