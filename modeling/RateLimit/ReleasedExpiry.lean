import RateLimit.ReleasedStore

/-! Row expiry in the released store. A window row is written to expire a life after
the time of the request, not after the time the row has recorded, so a request with
its clock set back can leave a row that expires while its usage still counts. The
decisions are those of a state that never expires exactly as long as no call finds
such a row. -/
namespace RateLimit.Postgres

open Machine

/-! ## Runs of the released store and of its state machine -/

/-- One `Store.Admit` under the client's clock, on a database nobody else uses. -/
def releasedStep (sha256 : GoString → Digest) (content : database.Content) (call : ClockedRequest) :
    Machine (database.Content × Except StoreError Answer) :=
  (Store.admitReleased sha256 .clientClock call.request.toRequest).serve call.serverNow content

/-- One `mutateStateLegacy` on a state that never expires. -/
def legacyStep (current : Option PersistedState) (call : ClockedRequest) :
    Machine (Option PersistedState × Answer) := mutateStepLegacy current (wholeMicros call.request.toRequest)

/-- A row that has expired at the time of a request counts no usage at the time that
the request would have been moved up to. -/
def Unspent (algorithm : Algorithm) (period : Nat) (row : Option Row) (now : Time) : Prop :=
  ∀ expired state, row = some expired → expired.expiresAt.nanos ≤ now.nanos →
    decodeStateLegacy expired.state = .ok state →
    usageAt algorithm period state (max now.unixMicro state.observedMicros) = 0

/-! ## Steps -/

/-- What a released row holds. -/
def RowKept (policy : Policy) (rate : TokenRate) (ttl : Duration) (row : Option Row) : Prop :=
  ∀ written, row = some written → ∃ state, decodeStateLegacy written.state = .ok state ∧
    LegacyKept policy rate state ∧
    (policy.algorithm = .tokenBucket → written.expiresAt = expiryFrom state.observedMicros ttl)

/-- A row beside a state that never expires. -/
def RowTracks (policy : Policy) (rate : TokenRate) (row : Option Row) (current : Option PersistedState) :
    Prop :=
  (row = none ∧ current = none) ∨ ∃ written stored state, row = some written ∧ current = some state ∧
    decodeStateLegacy written.state = .ok stored ∧ stored.observedMicros = state.observedMicros ∧
    Alike policy.algorithm rate state.observedMicros stored state

theorem LegacyKept.forgets (kept : LegacyKept policy rate state) (carried : Bool) :
    LegacyKept policy rate { state with carried := carried } := by
  obtain ⟨schema, policyID, algorithm, unrecorded, early, room, ⟨token, fixed, sliding⟩, segments, placed, total,
    spent⟩ := kept
  exact ⟨schema, policyID, algorithm, unrecorded, early, room, ⟨token, fixed, sliding⟩, segments, placed, total,
    spent⟩

/-- The expiry of a released row is exact, and for a token bucket it follows the time
the row has recorded. -/
theorem releasedExpiry_exact {request : Request} (lives : postgresAdmissionTTL request.policy = pure ttl)
    (next : PersistedState) : ∃ expires, releasedExpiry request next = pure expires ∧
      (request.policy.algorithm = .tokenBucket → expires = expiryFrom next.observedMicros ttl) := by
  unfold releasedExpiry
  by_cases token : request.policy.algorithm = .tokenBucket
  · rw [if_pos token, lives, pure_bind]
    exact ⟨_, rfl, fun _ => rfl⟩
  · rw [if_neg token]
    exact ⟨_, rfl, fun kind => absurd kind token⟩

theorem RowKept.load (kept : RowKept policy rate ttl row) (now : Time) :
    ∃ current, loadReleased row now = .ok current ∧ LegacyReached policy rate current := by
  unfold loadReleased
  cases row with
  | none => exact ⟨none, rfl, by simp [LegacyReached]⟩
  | some written =>
    obtain ⟨state, decodes, holds, -⟩ := kept written rfl
    dsimp only
    split
    · rw [decodes]
      refine ⟨some state, rfl, fun other same => ?_⟩
      cases same
      exact holds
    · exact ⟨none, rfl, by simp [LegacyReached]⟩

section
variable {request : Request} (bounds : request.Bounds period) (kind : request.policy.algorithm.IsRate)
include bounds kind

theorem legacyOutcome_error (reached : LegacyReached request.policy (rateOf bounds) current) :
    (legacyOutcome (rateOf bounds) current request).error = none ∨
      (legacyOutcome (rateOf bounds) current request).error = some .rejected := by
  have policy : (legacyEffective current request).policy = request.policy := clampRequest_policy _ _
  have moved := legacyEffective_bounds bounds reached
  have ready := legacyLoaded_ready bounds reached
  have before : Ready request.policy.algorithm (rateOf bounds) (legacyEffective current request).now.unixMicro
      (stamped (legacyLoaded current request) (legacyEffective current request)) :=
    ready.ready.congr rfl rfl rfl
  have complete := (spend_complete moved (by rw [policy]; exact kind) fun token => by
    rw [policy] at token ⊢
    exact (before.token token).1.tokens_le).1
  rw [rateOf_eq moved bounds policy] at complete
  obtain ⟨_, same⟩ := spend_legacy (rateOf bounds)
    (stamped (legacyLoaded current request) (legacyEffective current request))
    (legacyEffective current request)
  rw [same] at complete
  exact complete.imp And.left And.left

/-- One admission against a released row. -/
theorem RowKept.admission {content : database.Content} (serverNow : Int) (sound : request.policy.Sound)
    (lives : postgresAdmissionTTL request.policy = pure ttl)
    (kept : RowKept request.policy (rateOf bounds) ttl (content (.bucket key))) :
    ∃ current expires, loadReleased (content (.bucket key)) request.now = .ok current ∧
      LegacyReached request.policy (rateOf bounds) current ∧
      (nativeAdmit .clientClock key request).serve serverNow content =
        pure (Function.update content (.bucket key)
            (some ⟨encodeState (legacyOutcome (rateOf bounds) current request).state, expires⟩),
          .ok (legacyOutcome (rateOf bounds) current request).answer) ∧
      RowKept request.policy (rateOf bounds) ttl
        (some ⟨encodeState (legacyOutcome (rateOf bounds) current request).state, expires⟩) ∧
      decodeStateLegacy (encodeState (legacyOutcome (rateOf bounds) current request).state) =
        .ok { (legacyOutcome (rateOf bounds) current request).state with carried := false } := by
  obtain ⟨current, load, reached⟩ := kept.load request.now
  have step := mutateStateLegacy_exact bounds reached kind
  have next := legacyOutcome_kept bounds reached kind
  have decodes := decode_released (identified next.schema next.policyID next.algorithm sound kind) next.unrecorded
  obtain ⟨expires, writes, follows⟩ :=
    releasedExpiry_exact lives (legacyOutcome (rateOf bounds) current request).state
  refine ⟨current, expires, load, reached, ?_, ?_, decodes⟩
  · exact admit_answers load step (legacyOutcome_error bounds kind reached) writes
  · intro written same
    cases same
    exact ⟨_, decodes, next.forgets false, follows⟩

end

/-! ## Where a dropped row shows -/

/-- A window admits a request exactly if its cost fits beside the usage, and says how
much is left then. -/
theorem spend_remaining (rate : TokenRate) (state : PersistedState) (request : Request)
    (windowed : usesWindowMetadata request.policy.algorithm = true) :
    (spend rate state request).error =
        (if request.policy.limit - usageAt request.policy.algorithm rate.period state request.now.unixMicro <
          request.cost then some .rejected else none) ∧
      (¬ request.policy.limit - usageAt request.policy.algorithm rate.period state request.now.unixMicro <
          request.cost → (spend rate state request).decision.remaining = request.policy.limit -
            (usageAt request.policy.algorithm rate.period state request.now.unixMicro + request.cost)) := by
  unfold spend usageAt
  cases kind : request.policy.algorithm <;>
    simp only [kind, usesWindowMetadata, Bool.false_eq_true] at windowed
  · by_cases short : request.policy.limit - windowUsed rate.period state request.now.unixMicro < request.cost
    · unfold spendFixed
      dsimp only
      rw [spendUsage_short _ _ short, if_pos short]
      exact ⟨rfl, fun room => absurd short room⟩
    · unfold spendFixed
      dsimp only
      rw [spendUsage_room _ _ short, if_neg short]
      exact ⟨rfl, fun _ => rfl⟩
  · obtain ⟨decision, error⟩ := spendSegment_usage (swept rate.period state request) request
      (segmentAt request.now.unixMicro rate.period) (widthOf rate.period)
      (earliestUsed (oldestAt request.now.unixMicro rate.period) (List.ofFn state.segments) maxInt64)
    unfold spendSliding
    rw [decision, error]
    by_cases short : request.policy.limit -
        (ringOf state.segments).total (oldestAt request.now.unixMicro rate.period) < request.cost
    · rw [spendUsage_short _ _ short, if_pos short]
      exact ⟨rfl, fun room => absurd short room⟩
    · rw [spendUsage_room _ _ short, if_neg short]
      exact ⟨rfl, fun _ => rfl⟩

theorem legacyOutcome_remaining (rate : TokenRate) (current : Option PersistedState) (request : Request)
    (windowed : usesWindowMetadata request.policy.algorithm = true)
    (usage : usageAt request.policy.algorithm rate.period (legacyLoaded current request)
      (legacyEffective current request).now.unixMicro = used) :
    (legacyOutcome rate current request).error =
        (if request.policy.limit - used < request.cost then some .rejected else none) ∧
      (¬ request.policy.limit - used < request.cost →
        (legacyOutcome rate current request).decision.remaining = request.policy.limit - (used + request.cost)) := by
  have policy : (legacyEffective current request).policy = request.policy := clampRequest_policy _ _
  have cost : (legacyEffective current request).cost = request.cost := clampRequest_cost _ _
  have spends := spend_remaining rate
    (stamped (legacyLoaded current request) (legacyEffective current request))
    (legacyEffective current request) (by rw [policy]; exact windowed)
  obtain ⟨_, same⟩ := spend_legacy rate
    (stamped (legacyLoaded current request) (legacyEffective current request))
    (legacyEffective current request)
  have counts : usageAt request.policy.algorithm rate.period
      (stamped (legacyLoaded current request) (legacyEffective current request))
      (legacyEffective current request).now.unixMicro = used := usage
  rw [same, policy, cost, counts] at spends
  exact spends

theorem Blank.usage_zero (blank : Blank rate now fresh) (algorithm : Algorithm) (instant : Int) :
    usageAt algorithm rate.period fresh instant = 0 := by
  unfold usageAt
  split
  · unfold windowUsed
    rw [blank.used, ite_self]
  · simp [blank.segments, ringOf, Ring.total]
  · rfl

/-- A row dropped while it counts usage shows: the answer from a fresh state has more
left than the state that never expires gives. -/
theorem dropped_shows {request : Request} (bounds : request.Bounds period)
    (windowed : usesWindowMetadata request.policy.algorithm = true)
    (spent : 0 < usageAt request.policy.algorithm period state (max request.now.unixMicro state.observedMicros)) :
    (legacyOutcome (rateOf bounds) none request).answer ≠
      (legacyOutcome (rateOf bounds) (some state) request).answer := by
  have cost := bounds.cost_pos
  have most := bounds.cost_le
  have fresh : usageAt request.policy.algorithm (rateOf bounds).period (legacyLoaded none request)
      (legacyEffective none request).now.unixMicro = 0 :=
    (freshState_legacy bounds).2.usage_zero _ _
  obtain ⟨error, remaining⟩ := legacyOutcome_remaining (rateOf bounds) none request windowed fresh
  rw [Nat.sub_zero, if_neg (not_lt.mpr most)] at error
  obtain ⟨otherError, otherRemaining⟩ :=
    legacyOutcome_remaining (rateOf bounds) (some state) request windowed rfl
  rw [legacyEffective, clampRequest_unixMicro] at otherError otherRemaining
  have used : usageAt request.policy.algorithm (rateOf bounds).period (legacyLoaded (some state) request)
      (max request.now.unixMicro (legacyLoaded (some state) request).observedMicros) =
      usageAt request.policy.algorithm period state (max request.now.unixMicro state.observedMicros) := rfl
  rw [used] at otherError otherRemaining
  intro same
  rw [Answer.mk.injEq] at same
  by_cases short : request.policy.limit - usageAt request.policy.algorithm period state
      (max request.now.unixMicro state.observedMicros) < request.cost
  · rw [if_pos short] at otherError
    rw [error, otherError] at same
    cases same.2
  · have other := otherRemaining short
    rw [← same.1] at other
    omega

theorem counted_zero (zero : (ringOf segments).total oldest = 0) : counted segments oldest = fun _ => {} := by
  funext slot
  by_cases stale : (segments slot).index ≤ oldest
  · exact counted_gone (Or.inl stale)
  · have most := (ringOf segments).amount_le_total (s := slot) (not_le.mp stale)
    rw [zero] at most
    exact counted_gone (Or.inr (Nat.le_zero.mp most))

/-- A state that counts nothing shows what a fresh one does. -/
theorem Blank.same (blank : Blank rate now fresh) (windowed : usesWindowMetadata algorithm = true)
    (zero : usageAt algorithm rate.period state now = 0) : SameAt algorithm rate now fresh state where
  token kind := by
    rw [kind] at windowed
    cases windowed
  fixed kind := by
    have none := blank.usage_zero algorithm now
    rw [usageAt.eq_def, kind] at zero none
    exact none.trans zero.symm
  sliding kind := by
    have none := blank.usage_zero algorithm now
    rw [usageAt.eq_def, kind] at zero none
    exact (counted_zero none).trans (counted_zero zero).symm

theorem Alike.usage_same (alike : Alike algorithm rate now left right) (later : now ≤ instant) :
    usageAt algorithm rate.period left instant = usageAt algorithm rate.period right instant := by
  have same := alike.sameAt later
  unfold usageAt
  split
  · exact same.fixed rfl
  · exact total_same (same.sliding rfl)
  · rfl

section
variable {request : Request} (bounds : request.Bounds period) (kind : request.policy.algorithm.IsRate)
include bounds kind

/-- A row that is dropped without usage, or after a token bucket has filled up, does
not show. -/
theorem dropped_same (whole : request.now = .ofUnixMicro request.now.unixMicro) (nonneg : 0 ≤ ttl.nanos)
    (outlived : Outlived request.policy.algorithm (rateOf bounds) (ttl.nanos / 1000).toNat)
    (kept : LegacyKept request.policy (rateOf bounds) state)
    (expired : request.policy.algorithm = .tokenBucket →
      (expiryFrom state.observedMicros ttl).nanos ≤ request.now.nanos)
    (unspent : usageAt request.policy.algorithm period state
      (max request.now.unixMicro state.observedMicros) = 0) :
    state.observedMicros ≤ request.now.unixMicro ∧
      SameAt request.policy.algorithm (rateOf bounds) request.now.unixMicro (freshState request false) state := by
  have blank := (freshState_legacy bounds).2
  by_cases windowed : usesWindowMetadata request.policy.algorithm = true
  · have later : state.observedMicros ≤ request.now.unixMicro := by
      by_contra behind
      rw [max_eq_right (not_le.mp behind).le] at unspent
      exact absurd unspent (kept.spent windowed).ne'
    rw [max_eq_left later] at unspent
    exact ⟨later, blank.same windowed unspent⟩
  · have token : request.policy.algorithm = .tokenBucket := by
      rcases kind with kind | kind | kind
      · exact kind
      all_goals
        rw [kind] at windowed
        exact absurd rfl windowed
    have gone := expired token
    rw [expiryFrom_eq, whole] at gone
    simp only [Time.ofUnixMicro] at gone
    exact ⟨by omega, kept.settled.outlived outlived blank (by omega)⟩

/-- Steps on states that show the same at one effective request. -/
theorem legacyOutcome_agrees (together : legacyEffective current request = legacyEffective other request)
    (same : SameAt request.policy.algorithm (rateOf bounds) (legacyEffective current request).now.unixMicro
      (legacyLoaded current request) (legacyLoaded other request)) :
    (legacyOutcome (rateOf bounds) current request).answer =
      (legacyOutcome (rateOf bounds) other request).answer ∧
      (legacyOutcome (rateOf bounds) current request).state.observedMicros =
        (legacyOutcome (rateOf bounds) other request).state.observedMicros ∧
      Alike request.policy.algorithm (rateOf bounds)
        (legacyOutcome (rateOf bounds) other request).state.observedMicros
        (legacyOutcome (rateOf bounds) current request).state
        (legacyOutcome (rateOf bounds) other request).state := by
  obtain ⟨decision, error, alike⟩ := legacyOutcome_same kind together same
  rw [Applied.answer, decision, error, legacyOutcome_observed bounds, legacyOutcome_observed bounds, ← together]
  exact ⟨rfl, rfl, alike⟩

/-- The released store answers as the state that never expires does, exactly if the
row it loads is not dropped with usage in it. -/
theorem RowTracks.agrees (whole : request.now = .ofUnixMicro request.now.unixMicro) (nonneg : 0 ≤ ttl.nanos)
    (outlived : Outlived request.policy.algorithm (rateOf bounds) (ttl.nanos / 1000).toNat)
    (kept : RowKept request.policy (rateOf bounds) ttl row)
    (reached : LegacyReached request.policy (rateOf bounds) other)
    (tracks : RowTracks request.policy (rateOf bounds) row other)
    (load : loadReleased row request.now = .ok current) :
    (Unspent request.policy.algorithm period row request.now ↔
      (legacyOutcome (rateOf bounds) current request).answer =
        (legacyOutcome (rateOf bounds) other request).answer) ∧
      (Unspent request.policy.algorithm period row request.now →
        (legacyOutcome (rateOf bounds) current request).state.observedMicros =
          (legacyOutcome (rateOf bounds) other request).state.observedMicros ∧
        Alike request.policy.algorithm (rateOf bounds)
          (legacyOutcome (rateOf bounds) other request).state.observedMicros
          (legacyOutcome (rateOf bounds) current request).state
          (legacyOutcome (rateOf bounds) other request).state) := by
  rcases tracks with ⟨rfl, rfl⟩ | ⟨written, stored, state, rfl, rfl, decodes, observed, alike⟩
  · cases load
    obtain ⟨answers, later⟩ := legacyOutcome_agrees bounds kind
      (rfl : legacyEffective none request = legacyEffective none request)
        ⟨fun _ => ⟨rfl, rfl⟩, fun _ => rfl, fun _ => rfl⟩
    refine ⟨⟨fun _ => answers, fun _ expired state impossible => ?_⟩, fun _ => later⟩
    cases impossible
  · obtain ⟨decoded, decodes', holds, expires⟩ := kept written rfl
    have same : decoded = stored := by
      rw [decodes] at decodes'
      cases decodes'
      rfl
    subst same
    unfold loadReleased at load
    dsimp only at load
    by_cases live : written.expiresAt.nanos > request.now.nanos
    · rw [if_pos live, decodes] at load
      cases load
      have together : legacyEffective (some decoded) request = legacyEffective (some state) request := by
        rw [legacyEffective, legacyEffective, clampRequest_whole whole, clampRequest_whole whole]
        simp only [legacyLoaded, Option.getD_some, observed]
      obtain ⟨answers, later⟩ := legacyOutcome_agrees bounds kind together (by
        refine alike.sameAt ?_
        rw [together, legacyEffective, clampRequest_unixMicro]
        exact le_max_right _ _)
      refine ⟨⟨fun _ => answers, fun _ expired state same gone => ?_⟩, fun _ => later⟩
      cases same
      exact absurd gone (not_le.mpr live)
    · rw [if_neg live] at load
      cases load
      have gone := not_lt.mp live
      have never := reached state rfl
      have counts : usageAt request.policy.algorithm period decoded
          (max request.now.unixMicro decoded.observedMicros) =
          usageAt request.policy.algorithm period state (max request.now.unixMicro state.observedMicros) := by
        rw [observed]
        exact alike.usage_same (le_max_right _ _)
      have unspent_iff : Unspent request.policy.algorithm period (some written) request.now ↔
          usageAt request.policy.algorithm period state (max request.now.unixMicro state.observedMicros) = 0 := by
        rw [← counts]
        constructor
        · exact fun unspent => unspent written decoded rfl gone decodes
        · intro zero expired other same _ decodes'
          cases same
          rw [decodes] at decodes'
          cases decodes'
          exact zero
      rw [unspent_iff]
      have agrees (zero : usageAt request.policy.algorithm period state
          (max request.now.unixMicro state.observedMicros) = 0) := by
        obtain ⟨later, shows⟩ := dropped_same bounds kind whole nonneg outlived never (fun token => by
          rw [← observed, ← expires token]
          exact gone) zero
        have fresh : legacyEffective none request = request := clampRequest_of_le le_rfl
        have still : legacyEffective (some state) request = request := clampRequest_of_le later
        exact legacyOutcome_agrees bounds kind (fresh.trans still.symm) (by rw [fresh]; exact shows)
      refine ⟨⟨fun zero => (agrees zero).1, fun answers => ?_⟩, fun zero => (agrees zero).2⟩
      by_contra spent
      have windowed : usesWindowMetadata request.policy.algorithm = true := by
        rcases kind with kind | kind | kind
        · rw [kind] at spent
          exact absurd rfl spent
        · rw [kind]
          rfl
        · rw [kind]
          rfl
      exact dropped_shows bounds windowed (Nat.pos_of_ne_zero spent) answers

end

/-! ## What a fixed window admits -/

/-- A step of a run on a state that never expires. -/
abbrev LegacyEntry := Entry (Option PersistedState) ClockedRequest Answer

/-- The cost such a step adds to the fixed window that starts at `start`. -/
def LegacyEntry.adds (period : Nat) (start : Int) (entry : LegacyEntry) : Nat :=
  match entry.after with
  | none => 0
  | some state =>
    if windowStart state.observedMicros period = start then
      entry.output.admitted entry.input.request.toRequest
    else 0

/-- What a run added to a window. -/
def legacyCost (period : Nat) (start : Int) (history : List LegacyEntry) : Nat :=
  (history.map (LegacyEntry.adds period start)).sum

theorem legacyCost_snoc (period : Nat) (start : Int) (history : List LegacyEntry) (entry : LegacyEntry) :
    legacyCost period start (history ++ [entry]) = legacyCost period start history + entry.adds period start := by
  simp [legacyCost]

/-- The account of a fixed window: its usage is what the run added to it, later windows
are empty, and none exceeds the limit. -/
structure LegacyLedger (policy : Policy) (period : Nat) (history : List LegacyEntry)
    (current : Option PersistedState) : Prop where
  start : current = none → ∀ start, legacyCost period start history = 0
  used : ∀ state, current = some state → legacyCost period state.window history = state.used
  later : ∀ state, current = some state → ∀ start, state.window < start → legacyCost period start history = 0
  within : ∀ start, legacyCost period start history ≤ policy.limit

/-- The exact step of the released machine on a fixed window. -/
theorem legacyOutcome_fixed {request : Request} (bounds : request.Bounds period)
    (fixed : request.policy.algorithm = .fixedWindow) :
    legacyOutcome (rateOf bounds) current request = spendFixed period
      (stamped (legacyLoaded current request) (legacyEffective current request))
      (legacyEffective current request) := by
  have policy : (legacyEffective current request).policy = request.policy := clampRequest_policy _ _
  simp only [legacyOutcome, spendLegacy, policy, fixed]
  rfl

section
variable {request : Request} (bounds : request.Bounds period)
  (fixed : request.policy.algorithm = .fixedWindow)
  (reached : LegacyReached request.policy (rateOf bounds) current)
  (ledger : LegacyLedger request.policy period history current)
include bounds fixed reached ledger

/-- The usage a step finds is what the run added to its window so far. -/
theorem LegacyLedger.found :
    legacyCost period (windowStart (legacyEffective current request).now.unixMicro period) history =
        windowUsed period (legacyLoaded current request) (legacyEffective current request).now.unixMicro ∧
      ∀ start, windowStart (legacyEffective current request).now.unixMicro period < start →
        legacyCost period start history = 0 := by
  cases current with
  | none =>
    refine ⟨?_, fun start _ => ledger.start rfl start⟩
    rw [ledger.start rfl]
    exact (ite_self _).symm
  | some state =>
    have settled := (reached state rfl).settled.fixed fixed
    have later : state.window ≤ windowStart (legacyEffective (some state) request).now.unixMicro period := by
      rw [settled, legacyEffective, clampRequest_unixMicro]
      exact windowStart_mono bounds.period_pos (le_max_right _ _)
    refine ⟨?_, fun start beyond => ledger.later state rfl start (later.trans_lt beyond)⟩
    unfold windowUsed
    split
    · rename_i same
      rw [← same]
      exact ledger.used state rfl
    · rename_i other
      exact ledger.later state rfl _ (lt_of_le_of_ne later other)

theorem LegacyLedger.step {call : ClockedRequest} (stamp : wholeMicros call.request.toRequest = request) :
    LegacyLedger request.policy period (history ++ [⟨current, call,
        (legacyOutcome (rateOf bounds) current request).answer,
        some (legacyOutcome (rateOf bounds) current request).state⟩])
      (some (legacyOutcome (rateOf bounds) current request).state) := by
  have policy : (legacyEffective current request).policy = request.policy := clampRequest_policy _ _
  have cost : (legacyEffective current request).cost = call.request.cost := by
    rw [legacyEffective, clampRequest_cost, ← stamp]
    rfl
  obtain ⟨found, empty⟩ := ledger.found bounds fixed reached
  have within := ledger.within
  have observed : (legacyOutcome (rateOf bounds) current request).state.observedMicros =
      (legacyEffective current request).now.unixMicro := legacyOutcome_observed bounds
  have cases := spendFixed_cases period (stamped (legacyLoaded current request)
    (legacyEffective current request)) (legacyEffective current request)
  rw [← legacyOutcome_fixed bounds fixed, policy, cost] at cases
  generalize legacyOutcome (rateOf bounds) current request = applied at *
  obtain ⟨window, spent⟩ := cases
  have positive : 0 < call.request.cost := by
    rw [← cost]
    exact (legacyEffective_bounds bounds reached).cost_pos
  -- In every case the window of the step grows by what it admits.
  have grows : ∀ start, legacyCost period start (history ++ [⟨current, call,
        ⟨applied.decision, applied.error⟩, some applied.state⟩]) = legacyCost period start history +
      if applied.state.window = start then
        Answer.admitted ⟨applied.decision, applied.error⟩ call.request.toRequest else 0 := by
    intro start
    rw [legacyCost_snoc]
    simp only [LegacyEntry.adds, observed, ← window]
  have used : windowUsed period (legacyLoaded current request) (legacyEffective current request).now.unixMicro +
      Answer.admitted ⟨applied.decision, applied.error⟩ call.request.toRequest = applied.state.used ∧
      (applied.error = none → applied.state.used ≤ request.policy.limit) := by
    rcases spent with ⟨rejected, same⟩ | ⟨allowed, room, same⟩
    · refine ⟨?_, fun none => by rw [rejected] at none; cases none⟩
      rw [same, rejected]
      rfl
    · have found : windowUsed period (stamped (legacyLoaded current request)
          (legacyEffective current request)) (legacyEffective current request).now.unixMicro =
        windowUsed period (legacyLoaded current request) (legacyEffective current request).now.unixMicro := rfl
      rw [found] at room same
      refine ⟨?_, fun _ => by omega⟩
      rw [same, allowed]
      rfl
  rw [← window] at found empty
  refine ⟨by simp, ?_, ?_, ?_⟩
  · rintro state ⟨⟩
    rw [grows, if_pos rfl, found, used.1]
  · rintro state ⟨⟩ start beyond
    rw [grows, if_neg beyond.ne, empty start beyond]
  · intro start
    rw [grows]
    by_cases here : applied.state.window = start
    · rw [if_pos here, ← here]
      by_cases allowed : applied.error = none
      · rw [found, used.1]
        exact used.2 allowed
      · have nothing : Answer.admitted ⟨applied.decision, applied.error⟩ call.request.toRequest = 0 :=
          if_neg allowed
        rw [nothing]
        exact within _
    · rw [if_neg here]
      exact within start

end

/-! ## Runs -/

/-- The cost that a run of the released store admitted at effective times in the
fixed window that starts at `start`. A call's effective time is the one its row has
recorded. -/
def windowCost (digest : Digest) (period : Nat) (start : Int)
    (entries : List (Entry database.Content ClockedRequest (Except StoreError Answer))) : Nat :=
  (entries.map fun entry =>
    match entry.after (.bucket digest), entry.output with
    | some row, .ok answer =>
      if windowStart row.state.observedMicros period = start then answer.admitted entry.input.request.toRequest
      else 0
    | _, _ => 0).sum

theorem timed_bounds {first call : ClockedRequest} (bounds : first.request.toRequest.Bounds period)
    (policy : call.request.policy = first.request.policy) (rate : first.request.policy.algorithm.IsRate) :
    ∃ timed : (wholeMicros call.request.toRequest).Bounds period, rateOf timed = rateOf bounds := by
  obtain ⟨period', limits⟩ := call.request.bounds (by rw [policy]; exact rate)
  obtain rfl : period' = period := ofMicros_injective (by rw [← limits.period_eq, policy, bounds.period_eq])
  exact ⟨wholeMicros_bounds limits, rateOf_eq _ _ policy⟩

section
variable {call : ClockedRequest} (bounds : (wholeMicros call.request.toRequest).Bounds period)
  (kind : call.request.policy.algorithm.IsRate)
include bounds kind

theorem legacyStep_exact (reached : LegacyReached call.request.policy (rateOf bounds) current) :
    legacyStep current call = pure
      (some (legacyOutcome (rateOf bounds) current (wholeMicros call.request.toRequest)).state,
        (legacyOutcome (rateOf bounds) current (wholeMicros call.request.toRequest)).answer) := by
  have step := mutateStateLegacy_exact bounds reached kind
  unfold legacyStep mutateStepLegacy
  rw [step, pure_bind]
  rfl

theorem RowKept.serves (sha256 : GoString → Digest) {content : database.Content}
    (bucket : digest = sha256 (bucketName call.request.policy.id call.request.key))
    (lives : postgresAdmissionTTL call.request.policy = pure ttl)
    (kept : RowKept call.request.policy (rateOf bounds) ttl (content (.bucket digest))) :
    ∃ current expires, loadReleased (content (.bucket digest)) (wholeMicros call.request.toRequest).now =
        .ok current ∧
      releasedStep sha256 content call = pure (Function.update content (.bucket digest)
          (some ⟨encodeState (legacyOutcome (rateOf bounds) current (wholeMicros call.request.toRequest)).state,
            expires⟩),
        .ok (legacyOutcome (rateOf bounds) current (wholeMicros call.request.toRequest)).answer) ∧
      RowKept call.request.policy (rateOf bounds) ttl (some ⟨encodeState (legacyOutcome (rateOf bounds) current
        (wholeMicros call.request.toRequest)).state, expires⟩) ∧
      decodeStateLegacy (encodeState (legacyOutcome (rateOf bounds) current
          (wholeMicros call.request.toRequest)).state) =
        .ok { (legacyOutcome (rateOf bounds) current (wholeMicros call.request.toRequest)).state with
          carried := false } := by
  obtain ⟨current, expires, load, -, executor, next, decodes⟩ :=
    RowKept.admission bounds kind call.serverNow call.request.built.sound lives kept
  refine ⟨current, expires, load, ?_, next, decodes⟩
  subst bucket
  exact store_admit_answers sha256 .clientClock call.request kind executor

end

theorem decode_observed (decodes : decodeStateLegacy wire = .ok state) :
    state.observedMicros = wire.observedMicros := by
  unfold decodeStateLegacy decodeStateMode at decodes
  simp only [Bool.false_eq_true, false_and, if_false] at decodes
  split at decodes
  · cases decodes
  split at decodes
  · cases decodes
  split at decodes
  · cases decodes
  cases decodes
  rfl

/-- The run on a state that never expires keeps every fixed window within the limit. -/
theorem legacy_window_limit {policy : Policy} {period : Nat} (fixed : policy.algorithm = .fixedWindow)
    (calls : List ClockedRequest) (same : ∀ call ∈ calls, call.request.policy = policy)
    (unchanged : policy.period = .ofMicros period) (run : Runs.trace legacyStep none calls = pure never)
    (window : Int) : legacyCost period window never ≤ policy.limit := by
  cases calls with
  | nil =>
    obtain rfl := pure_injective run
    exact Nat.zero_le _
  | cons first rest =>
    obtain rfl := same first (by simp)
    have rate : first.request.policy.algorithm.IsRate := Or.inr (Or.inl fixed)
    obtain ⟨period', bounds⟩ := first.request.bounds rate
    obtain rfl : period' = period := ofMicros_injective (by rw [← bounds.period_eq, unchanged])
    have kept : ∀ history current call, LegacyReached first.request.policy (rateOf bounds) current ∧
        LegacyLedger first.request.policy period' history current → call ∈ first :: rest →
        ∃ result, legacyStep current call = pure result ∧ True ∧
          LegacyReached first.request.policy (rateOf bounds) result.1 ∧
          LegacyLedger first.request.policy period' (history ++ [⟨current, call, result.2, result.1⟩])
            result.1 := by
      rintro history current call ⟨reached, ledger⟩ member
      have policy := same call member
      obtain ⟨timed, sameRate⟩ := timed_bounds bounds policy rate
      rw [← policy, ← sameRate] at reached ⊢
      rw [← policy] at rate fixed ledger
      refine ⟨_, legacyStep_exact timed rate reached, trivial, ?_, ?_⟩
      · rintro state ⟨⟩
        exact legacyOutcome_kept timed reached rate
      · exact LegacyLedger.step timed fixed reached ledger rfl
    have start : LegacyReached first.request.policy (rateOf bounds) none ∧
        LegacyLedger first.request.policy period' [] none :=
      ⟨by simp [LegacyReached], fun _ _ => rfl, by simp, by simp, fun _ => Nat.zero_le _⟩
    obtain ⟨entries, exact, -, held⟩ := Runs.trace_history legacyStep
      (fun history current => LegacyReached first.request.policy (rateOf bounds) current ∧
        LegacyLedger first.request.policy period' history current) (fun _ _ => True) (first :: rest) kept start
    obtain rfl := pure_injective (exact.symm.trans run)
    rcases List.eq_nil_or_concat entries with rfl | ⟨earlier, last, rfl⟩
    · exact Nat.zero_le _
    · rw [List.concat_eq_append] at held ⊢
      exact (held earlier last [] rfl).2.2.2.within window

/-- Where the runs agree, the store admits what the state that never expires admits. -/
theorem windowCost_eq {policy : Policy} {rate : TokenRate} {digest : Digest} {period : Nat}
    {entries : List (Entry database.Content ClockedRequest (Except StoreError Answer))} {never : List LegacyEntry}
    (related : List.Forall₂ (fun stored never => stored.input = never.input ∧ stored.output = .ok never.output ∧
      RowTracks policy rate (stored.after (.bucket digest)) never.after) entries never) (start : Int) :
    windowCost digest period start entries = legacyCost period start never := by
  induction related with
  | nil => rfl
  | @cons stored never _ _ here _ ih =>
    obtain ⟨input, output, tracks⟩ := here
    have adds : (match stored.after (.bucket digest), stored.output with
        | some row, .ok answer =>
          if windowStart row.state.observedMicros period = start then
            answer.admitted stored.input.request.toRequest
          else 0
        | _, _ => 0) = LegacyEntry.adds period start never := by
      rw [output, input]
      unfold LegacyEntry.adds
      rcases tracks with ⟨row, state⟩ | ⟨written, decoded, state, row, after, decodes, observed, -⟩
      · rw [row, state]
      · rw [row, after]
        dsimp only
        rw [← observed, ← decode_observed decodes]
    unfold windowCost legacyCost at ih ⊢
    rw [List.map_cons, List.sum_cons, List.map_cons, List.sum_cons, ih, ← adds]

/-- Row expiry in the released store. Whatever the times of the calls, the decisions
are those of `mutateStateLegacy` on one state that never expires exactly if no call
finds an expired row that still counts usage; then a fixed window admits no more than
its limit. -/
theorem released_expiry_unobservable (sha256 : GoString → Digest) (policy : Policy) (period : Nat) (key : Key)
    (rate : policy.algorithm.IsRate) (unchanged : policy.period = .ofMicros period) (calls : List ClockedRequest)
    (same : ∀ call ∈ calls, call.request.policy = policy ∧ call.request.key = key)
    (content : database.Content) (absent : content (.bucket (sha256 (bucketName policy.id key))) = none) :
    ∃ entries never, Runs.trace (releasedStep sha256) content calls = pure entries ∧
      Runs.trace legacyStep none calls = pure never ∧
      ((∀ entry ∈ entries, Unspent policy.algorithm period
          (entry.before (.bucket (sha256 (bucketName policy.id key))))
          (wholeMicros entry.input.request.toRequest).now) ↔
        List.Forall₂ (fun stored never => stored.output = .ok never.output) entries never) ∧
      ((∀ entry ∈ entries, Unspent policy.algorithm period
          (entry.before (.bucket (sha256 (bucketName policy.id key))))
          (wholeMicros entry.input.request.toRequest).now) →
        policy.algorithm = .fixedWindow → ∀ start,
          windowCost (sha256 (bucketName policy.id key)) period start entries ≤ policy.limit) := by
  cases calls with
  | nil => exact ⟨[], [], rfl, rfl, by simp, fun _ _ _ => Nat.zero_le _⟩
  | cons first rest =>
    obtain ⟨rfl, rfl⟩ := same first (by simp)
    obtain ⟨period', bounds⟩ := first.request.bounds rate
    obtain rfl : period' = period := ofMicros_injective (by rw [← bounds.period_eq, unchanged])
    obtain ⟨ttl, lives, nonneg, outlived⟩ := postgresAdmissionTTL_exact bounds
    generalize bucket : sha256 (bucketName first.request.policy.id first.request.key) = digest at absent ⊢
    have kept : ∀ content current call,
        RowKept first.request.policy (rateOf bounds) ttl (content (.bucket digest)) ∧
          LegacyReached first.request.policy (rateOf bounds) current → call ∈ first :: rest →
        ∃ stored never, releasedStep sha256 content call = pure stored ∧ legacyStep current call = pure never ∧
          (RowKept first.request.policy (rateOf bounds) ttl (stored.1 (.bucket digest)) ∧
            LegacyReached first.request.policy (rateOf bounds) never.1) ∧
          (RowTracks first.request.policy (rateOf bounds) (content (.bucket digest)) current →
            (Unspent first.request.policy.algorithm period' (content (.bucket digest))
              (wholeMicros call.request.toRequest).now ↔ stored.2 = .ok never.2) ∧
            (Unspent first.request.policy.algorithm period' (content (.bucket digest))
              (wholeMicros call.request.toRequest).now →
              RowTracks first.request.policy (rateOf bounds) (stored.1 (.bucket digest)) never.1)) := by
      rintro content current call ⟨kept, reached⟩ member
      obtain ⟨policy, key⟩ := same call member
      obtain ⟨timed, sameRate⟩ := timed_bounds bounds policy rate
      rw [← policy, ← sameRate] at kept reached outlived ⊢
      rw [← policy] at rate lives
      obtain ⟨loaded, expires, load, step, next, decodes⟩ := kept.serves timed rate sha256
        (by rw [policy, key, bucket]) lives
      refine ⟨_, _, step, legacyStep_exact timed rate reached, ?_, fun tracks => ?_⟩
      · dsimp only
        rw [Function.update_self]
        refine ⟨next, ?_⟩
        rintro state ⟨⟩
        exact legacyOutcome_kept timed reached rate
      · obtain ⟨answers, later⟩ := tracks.agrees timed rate (wholeMicros_whole _) nonneg outlived kept reached load
        dsimp only
        rw [Except.ok.injEq, Function.update_self]
        refine ⟨answers, fun unspent => ?_⟩
        obtain ⟨observed, alike⟩ := later unspent
        exact Or.inr ⟨_, _, _, rfl, rfl, decodes, observed, alike.token, alike.fixed, alike.sliding⟩
    have start : RowKept first.request.policy (rateOf bounds) ttl (content (.bucket digest)) ∧
        LegacyReached first.request.policy (rateOf bounds) none := by simp [RowKept, LegacyReached, absent]
    obtain ⟨entries, never, run, runNever, agree⟩ := Runs.trace_agrees (releasedStep sha256) legacyStep
      (fun content current => RowKept first.request.policy (rateOf bounds) ttl (content (.bucket digest)) ∧
        LegacyReached first.request.policy (rateOf bounds) current)
      (fun content => RowTracks first.request.policy (rateOf bounds) (content (.bucket digest)))
      (fun content call => Unspent first.request.policy.algorithm period' (content (.bucket digest))
        (wholeMicros call.request.toRequest).now)
      (fun stored never => stored = .ok never) (first :: rest) kept start
    obtain ⟨iff, related⟩ := agree (Or.inl ⟨absent, rfl⟩)
    refine ⟨entries, never, run, runNever, iff, fun safe fixed start => ?_⟩
    rw [windowCost_eq (related safe)]
    exact legacy_window_limit fixed _ (fun call member => (same call member).1) unchanged runNever start

/-- One request in ten seconds. -/
def hourglass : Policy := ratePolicy .fixedWindow 97 1 0 10000000 (by decide)

/-- The same policy on one key at some second. -/
def hourglassCall (second : Int)
    (accepted : Request.validate ⟨hourglass, ⟨[107], [117]⟩, 1, .ofUnixMicro (second * 1000000)⟩ = .ok ()) :
    ClockedRequest :=
  ⟨hourglass.request rfl 1 (second * 1000000) accepted, 0⟩

theorem released_expiry_unobservable_later :
    hourglass.algorithm.IsRate ∧ hourglass.period = .ofMicros 10000000 ∧
      ∃ entries never, Runs.trace (releasedStep fun _ => bucketDigest) emptyContent
          [hourglassCall 5 rfl, hourglassCall 7 rfl, hourglassCall 40 rfl] = pure entries ∧
        Runs.trace legacyStep none [hourglassCall 5 rfl, hourglassCall 7 rfl, hourglassCall 40 rfl] = pure never ∧
        List.Forall₂ (fun stored never => stored.output = .ok never.output) entries never ∧
        ∀ start, windowCost bucketDigest 10000000 start entries ≤ 1 := by
  refine ⟨by decide, rfl, ?_⟩
  obtain ⟨entries, never, run, runNever, iff, limit⟩ := released_expiry_unobservable (fun _ => bucketDigest)
    hourglass 10000000 ⟨[107], [117]⟩ (by decide) rfl [hourglassCall 5 rfl, hourglassCall 7 rfl, hourglassCall 40 rfl]
    (by decide) emptyContent rfl
  have unspent : ∀ entry ∈ entries, Unspent hourglass.algorithm 10000000 (entry.before (.bucket bucketDigest))
      (wholeMicros entry.input.request.toRequest).now := by
    cases run
    intro entry member
    rcases List.mem_cons.mp member with rfl | member
    · rintro expired state ⟨⟩
    rcases List.mem_cons.mp member with rfl | member
    · rintro expired state ⟨⟩ gone
      exact absurd gone (by decide)
    rcases List.mem_cons.mp member with rfl | member
    · rintro expired state ⟨⟩ _ decodes
      cases decodes
      decide
    · simp at member
  exact ⟨entries, never, run, runNever, iff.mp unspent, limit unspent rfl⟩

/-- A clock set back reopens a window: the second call leaves a row that expires while
the window is still full, and the third finds it gone. -/
theorem rollback_reopens_window : ∃ entries never,
    Runs.trace (releasedStep fun _ => bucketDigest) emptyContent
        [hourglassCall 109 rfl, hourglassCall 80 rfl, hourglassCall 105 rfl] = pure entries ∧
      Runs.trace legacyStep none [hourglassCall 109 rfl, hourglassCall 80 rfl, hourglassCall 105 rfl] =
        pure never ∧
      ¬ List.Forall₂ (fun stored never => stored.output = .ok never.output) entries never ∧
      hourglass.limit < windowCost bucketDigest 10000000 100000000 entries := by
  refine ⟨_, _, rfl, rfl, ?_, ?_⟩
  · intro agree
    cases agree with | cons _ rest =>
    cases rest with | cons _ rest =>
    cases rest with | cons third _ =>
    exact absurd third (by decide)
  · decide

end RateLimit.Postgres
