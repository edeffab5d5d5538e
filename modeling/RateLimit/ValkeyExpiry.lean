import RateLimit.ValkeyAgreement

/-! Keys of the strict Valkey store that expire. `AdmitStrict` has the server drop a key
after twice the period, and at least a second; what a window remembers is gone by then, and
so is what a token bucket remembers unless its burst takes longer to fill. Under that
condition a run on keys that expire and a run on keys that do not get the same answers. -/
namespace RateLimit.Valkey

open Machine
open Postgres

/-! ## How long a key lives -/

/-- The life that `PEXPIRE` gives a key, in microseconds. -/
def keyLife (period : Duration) : Int := (min maxInt64 (max (period.nanos * 2) Duration.second)).tdiv 1000000 * 1000

/-- An empty bucket is full again before its key expires. -/
def KeyOutlives (policy : Policy) : Prop :=
  policy.algorithm = .tokenBucket →
    policy.limit * policy.period.microseconds ≤ policy.capacity * keyLife policy.period

instance (policy : Policy) : Decidable (KeyOutlives policy) := inferInstanceAs (Decidable (_ → _))

/-- The key as the server finds it: gone once its life is over. -/
def found (server : Int) (key : Option Cell) : Option Cell :=
  key.filter fun cell => cell.deadline.all fun deadline => decide (server < deadline)

/-- One `AdmitStrict` by the server's clock. -/
def expiringStep (memory : Allocator) (key : Option Cell) (call : ClockedRequest) : Machine (Option Cell × Admitted) :=
  admitStrict memory .serverClock call.serverNow (found call.serverNow key) call.request.toRequest

/-- The same on a key that never expires. -/
def lastingStep (memory : Allocator) (key : Option Cell) (call : ClockedRequest) : Machine (Option Cell × Admitted) :=
  admitStrict memory .serverClock call.serverNow key call.request.toRequest

theorem valkeyStateTTL_exact {period : Nat} (small : period ≤ 9007199254740991) :
    ∃ ttl, valkeyStateTTL (.ofMicros period) = pure ttl ∧ ttl.milliseconds * 1000 = keyLife (.ofMicros period) := by
  refine ⟨⟨min maxInt64 (max ((Duration.ofMicros period).nanos * 2) Duration.second)⟩, ?_, rfl⟩
  unfold valkeyStateTTL postgresStateTTL
  by_cases long : (Duration.ofMicros period).nanos > maxInt64 / 2
  · rw [if_pos long]
    simp only [maxInt64, Duration.second] at long ⊢
    rw [min_eq_left (by omega)]
  · rw [if_neg long]
    simp only [maxInt64, Duration.second, Duration.ofMicros] at long ⊢
    rw [i64_exact (by omega) (by omega), pure_bind, min_eq_right (by omega)]

/-- A key lives for a period at least. -/
theorem period_le_keyLife {period : Nat} (small : period ≤ 9007199254740991) : (period : Int) ≤
    keyLife (.ofMicros period) := by
  unfold keyLife
  rw [Int.tdiv_eq_ediv_of_nonneg (by simp only [maxInt64, Duration.second]; omega)]
  simp only [Duration.ofMicros, maxInt64, Duration.second]
  omega

/-- A key that outlives its bucket outlives what its algorithm remembers. -/
theorem KeyOutlives.outlived {request : Request} (bounds : request.Bounds period)
    (outlives : KeyOutlives request.policy) :
    Outlived request.policy.algorithm (rateOf bounds) (keyLife request.policy.period).toNat where
  token kind := by
    have long := outlives kind
    have life := period_le_keyLife bounds.period_le
    rw [bounds.period_eq, Duration.microseconds_ofMicros] at long
    rw [bounds.period_eq]
    have whole : ((keyLife (.ofMicros period)).toNat : Int) = keyLife (.ofMicros period) :=
      Int.toNat_of_nonneg (by omega)
    zify
    rw [whole]
    exact long.trans_eq (mul_comm _ _)
  window _ := by
    have life := period_le_keyLife bounds.period_le
    rw [bounds.period_eq]
    show period ≤ _
    omega

/-! ## One call -/

/-- What is known of a key that never expires, and of the same key where it does, at a
time: the states they hold show the same, or the second is gone and the first shows nothing
any more. -/
structure Tracked (policy : Policy) (rate : TokenRate) (time : Int) (expiring : Option Cell) (lasting : Cell)
    (state : PersistedState) : Prop where
  mirrors : Mirrors state lasting.hash
  kept : Kept state policy rate.period
  settled : Settled policy.algorithm rate state
  past : state.observedMicros ≤ time
  known : (∃ cell stored, expiring = some cell ∧ Mirrors stored cell.hash ∧
      cell.deadline = some (state.observedMicros + keyLife policy.period) ∧ Kept stored policy rate.period ∧
      Postgres.Alike policy.algorithm rate state.observedMicros stored state ∧ stored.observedMicros =
        state.observedMicros) ∨
    (expiring = none ∧ state.observedMicros + keyLife policy.period ≤ time)

def Tracks (policy : Policy) (rate : TokenRate) (time : Int) (expiring lasting : Option Cell) : Prop :=
  match lasting with
  | none => expiring = none
  | some lasting => ∃ state, Tracked policy rate time expiring lasting state

/-- The server drops a key that has outlived its state. -/
theorem Tracks.found (tracks : Tracks policy rate time expiring lasting) (later : time ≤ server) :
    Tracks policy rate server (found server expiring) lasting := by
  cases lasting with
  | none =>
    cases tracks
    rfl
  | some lasting =>
    obtain ⟨state, tracked⟩ := tracks
    refine ⟨state, tracked.mirrors, tracked.kept, tracked.settled, tracked.past.trans later, ?_⟩
    rcases tracked.known with ⟨cell, stored, rfl, mirrors, deadline, rest⟩ | ⟨rfl, past⟩
    · by_cases live : server < state.observedMicros + keyLife policy.period
      · exact Or.inl ⟨cell, stored, by simp [Valkey.found, Option.filter_some, deadline, live], mirrors, deadline, rest⟩
      · exact Or.inr ⟨by simp [Valkey.found, Option.filter_some, deadline, live], not_lt.mp live⟩
    · exact Or.inr ⟨rfl, past.trans later⟩

/-- A key at a time: the state that it mirrors was left by a request of the policy, no later. -/
structure Side (request : Request) (period : Nat) (key : Option Cell) (current : Option PersistedState) : Prop where
  mirrored : Mirrored current key
  kept : ∀ state, current = some state → Kept state request.policy period
  still : effective current request = request
  revision : (loaded current request).revision = request.policy.revision

section
variable {request : Request} {period : Nat} (bounds : request.Bounds period)
include bounds

omit bounds in
theorem Side.fresh : Side request period none none where
  mirrored := trivial
  kept := by simp
  still := clampRequest_of_le (freshState_observed request).le
  revision := freshState_revision request

omit bounds in
theorem Side.held {cell : Cell} (mirrors : Mirrors state cell.hash) (kept : Kept state request.policy period)
    (past : state.observedMicros ≤ request.now.unixMicro) : Side request period (some cell) (some state) where
  mirrored := mirrors
  kept := by
    rintro _ ⟨⟩
    exact kept
  still := clampRequest_of_le past
  revision := kept.revision

/-- Both keys hold states that show the same. -/
theorem Tracks.sides (outlives : KeyOutlives request.policy)
    (tracks : Tracks request.policy (rateOf bounds) request.now.unixMicro expiring lasting) :
    ∃ current other, Side request period expiring current ∧ Side request period lasting other ∧
      SameAt request.policy.algorithm (rateOf bounds) request.now.unixMicro
        (loaded current request) (loaded other request) ∧
      Ready request.policy.algorithm (rateOf bounds) request.now.unixMicro (loaded other request) := by
  cases lasting with
  | none =>
    cases tracks
    exact ⟨none, none, .fresh, .fresh, ⟨fun _ => ⟨rfl, rfl⟩, fun _ => rfl, fun _ => rfl⟩,
      (freshState_blank bounds).ready⟩
  | some lasting =>
    obtain ⟨state, tracked⟩ := tracks
    have side := Side.held tracked.mirrors tracked.kept tracked.past
    have ready := tracked.settled.ready tracked.past
    rcases tracked.known with ⟨cell, stored, rfl, mirrors, -, kept, alike, observed⟩ | ⟨rfl, long⟩
    · exact ⟨some stored, some state, .held mirrors kept (observed ▸ tracked.past), side, alike.sameAt tracked.past,
        ready⟩
    · refine ⟨none, some state, .fresh, side, ?_, ready⟩
      have life := period_le_keyLife bounds.period_le
      rw [← bounds.period_eq] at life
      exact tracked.settled.outlived (outlives.outlived bounds) (freshState_blank bounds) (by omega)

/-- A call on either key overflows for the start of its fixed window, or is accepted. -/
theorem Side.cases {member : ValidRequest} (policy : request.policy = member.policy)
    (kind : request.policy.algorithm.IsRate)
    (side : Side request period key current) :
    (∀ state, current = some state → StoredOk state request.policy period ∧
      (usesWindowMetadata request.policy.algorithm = true → state.periodMicros = period)) ∧
    ((¬ (request.policy.algorithm = .fixedWindow → ExactMicros (windowStart request.now.unixMicro period)) ∧
        Overflows current request period) ∨
      Nonempty (Accepted current request period)) := by
  have reached : Reached [member] current := fun state same =>
    ⟨member, List.mem_singleton_self _, period, policy ▸ side.kept state same⟩
  have revisions : Revisions [member] := by
    simp only [Revisions, List.mem_singleton, forall_eq]
    exact .refl _
  obtain ⟨stored, ⟨-, overflows⟩ | ⟨accepted, -, -⟩⟩ :=
    reached.mutateState revisions (List.mem_singleton_self _) policy kind bounds
  · refine ⟨stored, Or.inl ⟨?_, overflows⟩⟩
    rcases overflows with ⟨fixed, outside⟩ | ⟨state, rfl, late⟩
    · exact fun inside => outside (inside fixed)
    · have time := congrArg (·.now.unixMicro) side.still
      have room := bounds.room
      simp only [effective, loaded, Option.getD_some, clampRequest_unixMicro] at time
      omega
  · exact ⟨stored, Or.inr ⟨accepted⟩⟩

omit bounds in
/-- Waits that are told apart by neither decision are the same. -/
theorem Answers.same_retry {left right : Applied} (first : Answers request one left)
    (second : Answers request two right)
    (same : left.decision = right.decision) : one.retry = two.retry := by
  rw [first.decision, second.decision] at same
  have reset := congrArg (·.reset.nanos) same
  have wait := congrArg (·.retryAfter.nanos) same
  have low := first.retry.1
  have low' := second.retry.1
  have cases := first.wait
  have cases' := second.wait
  simp only [Time.ofUnixMicro, maxInt64] at reset wait
  omega

end

section
variable (memory : Allocator) {call : ClockedRequest} {period : Nat}
  (limits : call.request.toRequest.Bounds period) (kind : call.request.policy.algorithm.IsRate)
include limits

/-- A call at a server time outside the exact range fails and changes nothing. -/
theorem admitStrict_outside (outside : ¬ (-9007199254740991 ≤ call.serverNow ∧
    call.serverNow + period ≤ 9007199254740991))
    (key : Option Cell) :
    lastingStep memory key call = pure (key, ⟨{}, some (.sentinel .overflow)⟩) := by
  obtain ⟨ttl, lives, -⟩ := valkeyStateTTL_exact limits.period_le
  rw [← limits.period_eq] at lives
  have refused : (callOf (timed .serverClock call.serverNow call.request.toRequest) period
    ttl.milliseconds).outOfRange := by
    simp only [Admission.outOfRange, admissionOf, timed, maxExact, if_true, Time.unixMicro_ofUnixMicro]
    omega
  rw [lastingStep, admitStrict_eq memory .serverClock call.serverNow lives limits.period_eq, admitScript,
    if_pos refused]
  dsimp only
  rw [decode_overflow, pure_bind]

include kind in
/-- One call on two keys that show the same: the same answer, and keys that show the same. -/
theorem Tracks.step (outlives : KeyOutlives call.request.policy)
    (tracks : Tracks call.request.policy (rateOf limits) call.serverNow expiring lasting) :
    ∃ first second, (lastingStep memory expiring call).Returns first ∧
      (lastingStep memory lasting call).Returns second ∧
      first.2 = second.2 ∧
      Tracks call.request.policy (rateOf limits) call.serverNow first.1 second.1 := by
  by_cases inside : -9007199254740991 ≤ call.serverNow ∧ call.serverNow + period ≤ 9007199254740991
  swap
  · exact ⟨_, _, returns_of_eq (admitStrict_outside memory limits inside expiring),
      returns_of_eq (admitStrict_outside memory limits inside lasting), rfl, tracks⟩
  have now : (timed .serverClock call.serverNow call.request.toRequest).now.unixMicro = call.serverNow := by
    simp [timed]
  have bounds : (timed .serverClock call.serverNow call.request.toRequest).Bounds period :=
    limits.retimed rfl rfl (by rw [now]; exact inside.1) (by rw [now]; exact inside.2)
  have rate : rateOf bounds = rateOf limits := rateOf_eq _ _ rfl
  obtain ⟨ttl, lives, life⟩ := valkeyStateTTL_exact limits.period_le
  rw [← limits.period_eq] at lives life
  have here : Tracks (timed .serverClock call.serverNow call.request.toRequest).policy (rateOf bounds)
      (timed .serverClock call.serverNow call.request.toRequest).now.unixMicro expiring lasting := by
    rw [rate, now]
    exact tracks
  obtain ⟨current, other, side, beside, same, ready⟩ := Tracks.sides bounds outlives here
  have policy : (timed .serverClock call.serverNow call.request.toRequest).policy = call.request.policy := rfl
  obtain ⟨stored, ⟨outside, overflows⟩ | ⟨⟨accepted⟩⟩⟩ := side.cases bounds policy kind
  · obtain ⟨stored', ⟨-, overflows'⟩ | ⟨⟨accepted⟩⟩⟩ := beside.cases bounds policy kind
    · exact ⟨_, _, returns_of_eq (admitStrict_overflow memory .serverClock call.serverNow bounds kind lives
        side.mirrored stored overflows),
        returns_of_eq (admitStrict_overflow memory .serverClock call.serverNow bounds kind lives beside.mirrored
          stored' overflows'),
        rfl, tracks⟩
    · exact absurd accepted.window outside
  obtain ⟨stored', ⟨outside, -⟩ | ⟨⟨accepted'⟩⟩⟩ := beside.cases bounds policy kind
  · exact absurd accepted.window outside
  obtain ⟨spent, hash, run, mirrors, answers⟩ := admitStrict_accepted memory .serverClock call.serverNow
    bounds kind lives
    call.request.built.sound side.mirrored (fun state same => (stored state same).2) accepted
  obtain ⟨spent', hash', run', mirrors', answers'⟩ := admitStrict_accepted memory .serverClock call.serverNow
    bounds kind lives
    call.request.built.sound beside.mirrored (fun state same => (stored' state same).2) accepted'
  -- Both spend from states that show the same at the same time.
  have rates : rateOf accepted.bounds = rateOf bounds := rateOf_eq _ _ (clampRequest_policy _ _)
  have rates' : rateOf accepted'.bounds = rateOf bounds := rateOf_eq _ _ (clampRequest_policy _ _)
  obtain ⟨decision, error, alike⟩ := outcome_same accepted accepted' (side.still.trans beside.still.symm)
    side.revision beside.revision (by rw [rates, side.still]; exact same)
  have settled := outcome_settled accepted' beside.revision (by rw [rates', beside.still]; exact ready)
  have observed : (outcome accepted).state.observedMicros = call.serverNow := by
    rw [outcome_observed, side.still, now]
  have observed' : (outcome accepted').state.observedMicros = call.serverNow := by
    rw [outcome_observed, beside.still, now]
  rw [side.still] at answers
  rw [beside.still] at answers'
  rw [rates, side.still, now, rate] at alike
  rw [rates', rate] at settled
  refine ⟨_, _, run, run', ?_, (outcome accepted').state, mirrors', outcome_kept accepted', settled,
    observed'.le, Or.inl ⟨_, (outcome accepted).state, rfl, mirrors, ?_, outcome_kept accepted, ?_,
      observed.trans observed'.symm⟩⟩
  · rw [answers.same_retry answers' decision, decision, error]
  · rw [observed', life]
  · rw [observed']
    exact alike

end

/-! ## Runs -/

/-- Key expiry is unobservable in the strict Valkey store where an empty bucket fills up
within the life of its key: a run by the server's clock, on keys that the server drops when
their life is over, gets the answers of one on keys that never expire. -/
theorem key_expiry_unobservable (memory : Allocator) (policy : Policy) (rate : policy.algorithm ≠ .concurrency)
    (outlives : KeyOutlives policy) (calls : List ClockedRequest) (same : ∀ call ∈ calls, call.request.policy = policy)
    (sorted : calls.Pairwise fun first second => first.serverNow ≤ second.serverNow) :
    ∃ expiring lasting, (Runs.trace (expiringStep memory) none calls).Returns expiring ∧
      (Runs.trace (lastingStep memory) none calls).Returns lasting ∧
      List.Forall₂ (fun first second => first.output = second.output) expiring lasting := by
  cases calls with
  | nil => exact ⟨[], [], returns_pure _, returns_pure _, .nil⟩
  | cons first rest =>
    obtain rfl := same first List.mem_cons_self
    have kind := first.request.built.sound.known.resolve_right rate
    obtain ⟨period, bounds⟩ := first.request.bounds kind
    refine Runs.trace_returns_sorted (expiringStep memory) (lastingStep memory) (·.serverNow)
      (Tracks first.request.policy (rateOf bounds)) (fun _ one two => one = two) first.serverNow sorted ?_ ?_ rfl
    · intro time expiring lasting call tracks later member
      have policy := same call member
      have limits := bounds_of_period call.request (by rw [policy]; exact kind) (by rw [policy, bounds.period_eq])
      have tracks := tracks.found later
      rw [← policy, ← rateOf_eq limits bounds policy] at tracks ⊢
      exact tracks.step memory limits (by rw [policy]; exact kind) (by rw [policy]; exact outlives)
    · intro input member
      rcases List.mem_cons.mp member with rfl | later
      · exact le_rfl
      · exact (List.pairwise_cons.mp sorted).1 input later

/-- A call under a token bucket of one a second with a burst, by the server's clock. -/
def burstCall (burst cost : Nat) (server : Int)
    (built : newPolicy (ratePolicy .tokenBucket 97 1 burst 1000000 second_fits).toPolicySpec =
      .ok (ratePolicy .tokenBucket 97 1 burst 1000000 second_fits))
    (accepted : Request.validate ⟨ratePolicy .tokenBucket 97 1 burst 1000000 second_fits, ⟨[107], [117]⟩, cost,
      .ofUnixMicro 1⟩ =
      .ok ()) : ClockedRequest :=
  ⟨(ratePolicy .tokenBucket 97 1 burst 1000000 second_fits).request built cost 1 accepted, server⟩

theorem key_expiry_unobservable_refilled : KeyOutlives (ratePolicy .tokenBucket 97 1 1 1000000 second_fits) ∧
    ∃ expiring lasting,
      (Runs.trace (expiringStep plainAllocator) none
        [burstCall 1 2 0 rfl rfl, burstCall 1 2 2000000 rfl rfl]).Returns expiring ∧
      (Runs.trace (lastingStep plainAllocator) none
        [burstCall 1 2 0 rfl rfl, burstCall 1 2 2000000 rfl rfl]).Returns lasting ∧
      List.Forall₂ (fun first second => first.output = second.output) expiring lasting := by
  refine ⟨by decide, key_expiry_unobservable plainAllocator (ratePolicy .tokenBucket 97 1 1 1000000 second_fits)
    (by decide)
    (by decide) [burstCall 1 2 0 rfl rfl, burstCall 1 2 2000000 rfl rfl] ?_ ?_⟩
  · simp [burstCall, Policy.request]
  · simp [burstCall]

/-- A bucket of one a second with a burst of nine, drained, and asked for three again two
seconds later: its key is gone, and three are there. The key that stays has earned two. -/
theorem drained_key_expires_full :
    (Runs.trace (expiringStep plainAllocator) none [burstCall 9 10 0 rfl rfl, burstCall 9 3 2000000 rfl rfl] >>=
        fun keys => pure (keys.map fun entry =>
          (entry.output.decision.allowed, entry.output.decision.remaining))).Returns
      [(true, 0), (true, 7)] ∧
    (Runs.trace (lastingStep plainAllocator) none [burstCall 9 10 0 rfl rfl, burstCall 9 3 2000000 rfl rfl] >>=
        fun keys => pure (keys.map fun entry =>
          (entry.output.decision.allowed, entry.output.decision.remaining))).Returns
      [(true, 0), (false, 2)] :=
  ⟨⟨false, by decide +kernel⟩, ⟨false, by decide +kernel⟩⟩

end RateLimit.Valkey
