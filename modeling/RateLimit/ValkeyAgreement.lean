import RateLimit.RowExpiry
import RateLimit.ValkeyAlgorithms

/-! The strict Valkey store and the strict state machine of PostgreSQL are one machine. Fed
the same requests, from a key and a row that are not there, the hash of the one always
mirrors the state of the other, and they answer alike. The one difference is a wait that
does not fit a duration in nanoseconds: `Time.Sub` cuts it, the product with
`time.Microsecond` wraps around. -/
namespace RateLimit.Valkey

open Machine
open Postgres

/-! ## One algorithm -/

section
variable {request : Request} {period : Nat} (bounds : request.Bounds period)
include bounds

theorem spend_answers {state : PersistedState} {hash : Hash} (mirrors : Mirrors state hash)
    (kind : request.policy.algorithm.IsRate)
    (stored : StoredOk state request.policy period) (timely : EffectiveOk state request period)
    (window : request.policy.algorithm = .fixedWindow → ExactMicros (windowStart request.now.unixMicro period))
    (whole : request.now = .ofUnixMicro request.now.unixMicro) (later : state.observedMicros ≤ request.now.unixMicro)
      (ttl : Int) :
    ∃ spent, spend (callOf request period ttl) hash state.carried = .ok spent ∧
      Answers request spent (Postgres.spend (rateOf bounds) (prepared state request) request) := by
  obtain ⟨-, id, algorithm, -, observed⟩ := prepared_header state request
  have same := stored.algorithm
  have token : (algorithmText request.policy.algorithm = algorithmText .tokenBucket) =
      (request.policy.algorithm = .tokenBucket) := propext (algorithmText_inj kind (.inl rfl))
  have fixed : (algorithmText request.policy.algorithm = algorithmText .fixedWindow) =
      (request.policy.algorithm = .fixedWindow) := propext (algorithmText_inj kind (.inr (.inl rfl)))
  have sliding : (algorithmText request.policy.algorithm = algorithmText .slidingWindow) =
      (request.policy.algorithm = .slidingWindow) := propext (algorithmText_inj kind (.inr (.inr rfl)))
  have named : (callOf request period ttl).algorithm = algorithmText request.policy.algorithm := rfl
  simp only [spend, Postgres.spend, named, token, fixed, sliding]
  rcases kind with kind | kind | kind
  · have ok := stored.token kind
    obtain ⟨within, fraction⟩ := prepared_level bounds kind ok
    obtain ⟨-, -, -, recent⟩ := mirrors.token (same.trans kind)
    have last : max (prepared state request).lastMicros request.now.unixMicro = request.now.unixMicro := by
      rw [prepared_token kind, carryToken]
      split_ifs <;> simp [recent, later]
    have flag : (prepared state request).carried = state.carried := by
      rw [prepared_token kind, carryToken]
      split_ifs <;> rfl
    have run := spendToken_eq bounds mirrors same kind ok later ttl
    simp only [kind, if_true]
    rw [run, ← flag]
    refine ⟨_, rfl, takeTokens_answers bounds mirrors same kind
      (show (refilled _ (prepared state request) _).policyID = _ from id) algorithm ?_ ?_ last observed whole ttl⟩
    · exact (rateOf bounds).refill_tokens_le within
    · exact (rateOf bounds).refill_remainder_lt fraction
  · obtain ⟨carried, run, flag⟩ := spendFixed_eq mirrors (same.trans kind) (stored.fixed kind) ttl
    simp only [kind, reduceCtorEq, if_true, if_false]
    refine ⟨_, run, takeUsed_answers bounds mirrors same kind (window kind) (stored.fixed kind).used whole id
      algorithm ?_ flag ttl⟩
    rw [prepared_window (by simp [kind, usesWindowMetadata])]
    exact ⟨rfl, rfl⟩
  · simp only [kind, reduceCtorEq, if_true, if_false]
    exact spendSliding_answers bounds mirrors same kind (stored.sliding kind) timely whole ttl

/-- The end of the script writes what is left of the state. -/
theorem Answers.mirrors {applied : Applied} (answers : Answers request spent applied)
    (revision : applied.state.revision = request.policy.revision) (named : request.policy.revision.length ≤ 64)
    (observed : applied.state.observedMicros = request.now.unixMicro)
    (recorded : usesWindowMetadata applied.state.algorithm = true → applied.state.periodMicros = period) (ttl : Int) :
    Mirrors applied.state (finish (callOf request period ttl) spent).1 := by
  have counts := answers.counts
  have early := bounds.not_before
  have late := bounds.room
  have size := bounds.period_le
  refine
    { schema := ?_, policyID := ?_, algorithm := ?_, token := ?_, fixed := ?_, sliding := ?_, shape := ?_
      revision := ?_, last := ?_, carried := ?_, period := ?_ }
  · simp [finish, AList.lookup_insert_ne, counts.schema]
  · simp [finish, AList.lookup_insert_ne, counts.policyID]
  · simp [finish, AList.lookup_insert_ne, counts.algorithm]
  · intro kind
    simpa [finish, AList.lookup_insert_ne] using counts.token kind
  · intro kind
    simpa [finish, AList.lookup_insert_ne] using counts.fixed kind
  · intro kind slot
    simpa [finish, AList.lookup_insert_ne] using counts.sliding kind slot
  · refine shape_insert (shape_insert (shape_insert (shape_insert counts.shape ⟨rfl, ?_⟩) ⟨rfl, ?_⟩) ⟨rfl, ?_⟩)
      ⟨rfl, ?_⟩
    · exact (length_integer ⟨early, by omega⟩).trans (by decide)
    · exact named.trans (by decide)
    · exact (length_integer
        ⟨by dsimp only [callOf, admissionOf]; omega, by dsimp only [callOf, admissionOf]; omega⟩).trans (by decide)
    · split_ifs <;> exact (length_integer ⟨by decide, by decide⟩).trans (by decide)
  · simp [finish, AList.lookup_insert_ne, admissionOf, revision]
  · simp [finish, AList.lookup_insert_ne, admissionOf, observed]
  · simp [finish, answers.carried]
  · intro windowed
    simp [finish, AList.lookup_insert_ne, admissionOf, recorded windowed]

end

/-! ## Replies -/

theorem parseUint_integer {value : Int} (low : 0 ≤ value) (high : value < 18446744073709551616) :
    parseUint (integer value) = some value.toNat := by
  obtain ⟨natural, rfl⟩ := Int.eq_ofNat_of_zero_le low
  have small : natural < 18446744073709551616 := by omega
  simp [parseUint, integer_natCast, Decimal.ofNat_ne_nil, Decimal.all_isDigit_ofNat, small]

theorem parseInt_integer {value : Int} (low : -9223372036854775808 ≤ value) (high : value ≤ maxInt64) :
    parseInt (integer value) = some value := by
  have head : (integer value).head? ≠ some 43 := fun same =>
    notMem_integer rfl (by decide) value (List.mem_of_mem_head? same)
  have number : Decimal.parse (integer value) = some value := Decimal.parse_ofInt value
  rw [parseInt, if_neg head, number, Option.filter_some]
  simp [head, low, high]

/-- A reply that is read without a problem. -/
theorem decodeDecision_read (flag : Bool) {remaining limit reset retry : Int} (held : 0 ≤ remaining ∧
    remaining < 18446744073709551616)
    (whole : 0 ≤ limit ∧ limit < 18446744073709551616) (timed : -9223372036854775808 ≤ reset ∧ reset ≤ maxInt64)
    (wait : 0 ≤ retry ∧ retry ≤ maxInt64) :
    decodeDecision [integer (if flag then 1 else 0), integer remaining, integer limit, integer reset, integer retry,
        .ofLiteral (if flag then "allowed" else "limited")] =
      (do
        let wait ← i64 (retry * 1000)
        pure (
          { allowed := flag, remaining := remaining.toNat, limit := limit.toNat, reset := .ofUnixMicro reset
            retryAfter := ⟨wait⟩, reason := if flag then .allowed else .limited },
          if flag then none else some (.sentinel .rejected))) := by
  have known : integer (if flag then 1 else 0) ≠ integer (-1) := integer_injective.ne (by cases flag <;> decide)
  have read : parseBool (integer (if flag then 1 else 0)) = some flag := by cases flag <;> decide +kernel
  have reason : ¬ (GoString.ofLiteral (if flag then "allowed" else "limited") ≠ .ofLiteral "allowed" ∧
      GoString.ofLiteral (if flag then "allowed" else "limited") ≠ .ofLiteral "limited") := by
    cases flag <;> simp
  have named : (GoString.ofLiteral (if flag then "allowed" else "limited") = .ofLiteral "allowed") = (flag = true) := by
    cases flag <;> decide +kernel
  simp only [decodeDecision, if_neg known, read, parseUint_integer held.1 held.2, parseUint_integer whole.1 whole.2,
    parseInt_integer timed.1 timed.2, parseInt_integer (show -9223372036854775808 ≤ retry by omega) wait.2,
    if_neg (not_lt.mpr wait.1), if_neg reason, named, Duration.microsecond]

/-- What the store makes of the reply of a call that spent. -/
theorem decode_finish {request : Request} {applied : Applied} (answers : Answers request spent applied)
    (limit : request.policy.limit ≤ 9007199254740991) (early : -9007199254740991 ≤ request.now.unixMicro)
    (after : request.now.unixMicro ≤ spent.reset) (period : Nat) (ttl : Int) :
    decodeStrictDecisionReply (finish (callOf request period ttl) spent).2 =
      (do
        let wait ← i64 (spent.retry * 1000)
        pure ⟨{ applied.decision with retryAfter := ⟨wait⟩ }, applied.error.map .sentinel⟩) := by
  obtain ⟨low, high⟩ := answers.remaining
  obtain ⟨waits, long⟩ := answers.retry
  have ends := answers.reset
  have reply : (finish (callOf request period ttl) spent).2 =
      [integer (if spent.allowed then 1 else 0), integer spent.remaining, integer request.policy.limit,
        integer spent.reset,
        integer spent.retry, .ofLiteral (if spent.allowed then "allowed" else "limited"),
          integer request.now.unixMicro] := by
    cases allowed : spent.allowed with
    | true => simp [finish, allowed, answers.idle allowed]
    | false => simp [finish, allowed]
  have stamp : parseInt (integer request.now.unixMicro) = some request.now.unixMicro :=
    parseInt_integer (by omega) (by unfold maxInt64; omega)
  rw [reply, decodeStrictDecisionReply, if_neg (by simp), if_neg (by simp)]
  simp only [List.drop_succ_cons, List.drop_zero, List.head?_cons, Option.bind_some, stamp, List.take_succ_cons,
    List.take_zero]
  rw [decodeDecision_read spent.allowed ⟨low, by omega⟩ ⟨by omega, by omega⟩ ⟨by omega, by unfold maxInt64; omega⟩
    ⟨waits, by unfold maxInt64; omega⟩, answers.decision, answers.error, bind_assoc]
  refine congrArg (i64 (spent.retry * 1000) >>= ·) (funext fun wait => ?_)
  rw [pure_bind]
  rw [if_neg]
  · cases spent.allowed <;> simp [strictValkeyCategory]
  · rintro (⟨problem, member, other⟩ | ⟨-, earlier⟩)
    · cases allowed : spent.allowed <;> simp [allowed] at member
      exact other member.symm
    · simp only [Time.ofUnixMicro] at earlier
      omega

/-! ## One call of the script -/

/-- Neither is there, or the hash of the key mirrors the state of the row. -/
def Mirrored : Option PersistedState → Option Cell → Prop
  | none, none => True
  | some state, some cell => Mirrors state cell.hash
  | _, _ => False

section
variable {request : Request} {period : Nat} (bounds : request.Bounds period) (kind : request.policy.algorithm.IsRate)
include bounds kind

theorem freshHash_shape (named : request.policy.id.length ≤ 64 ∧ request.policy.revision.length ≤ 64) (ttl : Int) :
    ∀ field value, (freshHash (callOf request period ttl)).lookup field = some value →
      allowedField (algorithmText request.policy.algorithm) field = true ∧ value.length ≤ 128 := by
  have limit := bounds.limit_le
  have early := bounds.not_before
  have late := bounds.room
  have size := bounds.period_le
  have number {value : Int} (low : -9007199254740991 ≤ value) (high : value ≤ 9007199254740991) :
      (integer value).length ≤ 128 := (length_integer ⟨low, high⟩).trans (by decide)
  have short : (algorithmText request.policy.algorithm).length ≤ 128 := by
    rcases kind with rate | rate | rate <;> rw [rate] <;> exact Nat.le_of_ble_eq_true (by decide +kernel)
  refine shape_inserts (by simp) ?_
  simp only [List.forall_mem_cons, allowedField, limit_admissionOf, now_admissionOf, true_and]
  exact ⟨number (show (-9007199254740991 : Int) ≤ 1 by decide) (by decide), named.1.trans (by decide), short,
    named.2.trans (by decide), number (by omega) (by omega), number (by decide) (by decide), number early (by omega),
    number (by decide) (by decide), number (by decide) (by decide),
    number (by dsimp only [callOf, admissionOf]; omega) (by dsimp only [callOf, admissionOf]; omega), number
      (by decide) (by decide), by simp⟩

/-- The hash that the script makes mirrors a fresh state. -/
theorem freshHash_mirrors (named : request.policy.id.length ≤ 64 ∧ request.policy.revision.length ≤ 64) (ttl : Int) :
    Mirrors (freshState request true) (freshHash (callOf request period ttl)) := by
  have window (windowed : usesWindowMetadata request.policy.algorithm = true) :
      (freshState request true).periodMicros = period := by
    rw [freshState_window windowed, bounds.period_eq, Duration.microseconds_ofMicros]
  have shape := freshHash_shape bounds kind named ttl
  obtain ⟨recorded, fresh⟩ := freshState_eq request
  rw [fresh] at window ⊢
  exact
    { schema := by simp [freshHash, AList.lookup_insert_ne, admissionOf, -AList.insert_empty]
      policyID := by simp [freshHash, AList.lookup_insert_ne, admissionOf]
      algorithm := by simp [freshHash, AList.lookup_insert_ne, admissionOf]
      token := fun _ => by simp [freshHash, AList.lookup_insert_ne, bounds.limit_le]
      fixed := fun _ => by simp [freshHash, AList.lookup_insert_ne]
      sliding := fun _ slot => by simp [freshHash, AList.lookup_insert_ne, slotText, -AList.insert_empty]
      shape := shape
      revision := by simp [freshHash, AList.lookup_insert_ne, admissionOf]
      last := by simp [freshHash, AList.lookup_insert_ne]
      carried := by simp [freshHash]
      period := fun windowed => by simp [freshHash, AList.lookup_insert_ne, admissionOf, ← window windowed] }

omit bounds in
theorem windowOverflows_iff (ttl now : Int) : (admissionOf request period ttl now).windowOverflows ↔
    request.policy.algorithm = .fixedWindow ∧ ¬ ExactMicros (windowStart now period) := by
  have start : (admissionOf request period ttl now).fixedWindow = windowStart now period := rfl
  have named : (admissionOf request period ttl now).algorithm = algorithmText request.policy.algorithm := rfl
  rw [Admission.windowOverflows, named, algorithmText_inj kind (.inr (.inl rfl)), start, ExactMicros, maxExact]
  refine and_congr_right fun _ => ?_
  omega

/-- The arguments of a valid request are refused only for the start of a fixed window. -/
theorem outOfRange_iff (ttl : Int) : (callOf request period ttl).outOfRange ↔
    request.policy.algorithm = .fixedWindow ∧ ¬ ExactMicros (windowStart request.now.unixMicro period) := by
  have early := bounds.not_before
  have late := bounds.room
  have size := bounds.period_le
  have positive := bounds.period_pos
  have capacity := bounds.capacity_pos
  have cost := bounds.cost_pos
  have limit := bounds.limit_le
  rw [← windowOverflows_iff kind ttl, Admission.outOfRange, limit_admissionOf]
  constructor
  · rintro (h | h | h | h | h | h | h | h | h)
    rotate_right
    · exact h
    all_goals
      dsimp only [callOf, admissionOf, maxExact] at h
      omega
  · intro outside
    simp [outside]

section
variable {state : PersistedState} {hash : Hash} (mirrors : Mirrors state hash)
  (stored : StoredOk state request.policy period)
  (recorded : usesWindowMetadata request.policy.algorithm = true → state.periodMicros = period)
include mirrors stored recorded

/-- The script from its tests of the hash on. -/
theorem decideAdmission_eq (ttl : Int) :
    decideAdmission (callOf request period ttl) hash =
      if max request.now.unixMicro state.observedMicros > maxExact - period then .error overflowReply
      else if (callOf (clampRequest state request) period ttl).windowOverflows then .error overflowReply
      else (spend (callOf (clampRequest state request) period ttl) hash state.carried).map
        (finish (callOf (clampRequest state request) period ttl)) := by
  have named : (callOf request period ttl).algorithm = algorithmText state.algorithm := by
    rw [stored.algorithm]
    rfl
  have flag : (hash.lookup .carried == some (integer 1)) = state.carried := by
    rw [mirrors.carried]
    cases state.carried <;> simp [integer_injective.eq_iff]
  have clamped : { callOf request period ttl with now := max request.now.unixMicro state.observedMicros } =
      callOf (clampRequest state request) period ttl := by
    simp [admissionOf]
  obtain ⟨low, high⟩ := stored.observed
  rw [decideAdmission, mirrors.wellShaped named, if_neg (by simp),
    mirrors.metadata named (by rw [stored.algorithm]; exact kind) (by rwa [stored.algorithm]) rfl bounds.period_le,
    if_neg (by simp), mirrors.last, readSigned_integer stored.observed]
  simp only [maxExact, now_admissionOf, flag, clamped]
  rw [if_neg (by omega)]
  rfl

end

/-- A call that overflows in the one overflows in the other, and neither keeps anything. -/
theorem admitScript_overflow (memory : Allocator) (server : Int) (mirrored : Mirrored current key)
    (stored : ∀ state, current = some state → StoredOk state request.policy period ∧
      (usesWindowMetadata request.policy.algorithm = true → state.periodMicros = period))
    (overflows : Overflows current request period) (ttl : Int) :
    admitScript memory server (callOf request period ttl) key = (key, overflowReply) := by
  unfold admitScript
  by_cases outside : (callOf request period ttl).outOfRange
  · rw [if_pos outside]
  rw [if_neg outside]
  rcases overflows with raw | ⟨state, rfl, late⟩
  · exact absurd ((outOfRange_iff bounds kind ttl).mpr raw) outside
  cases key with
  | none => exact mirrored.elim
  | some cell =>
    obtain ⟨stored, recorded⟩ := stored state rfl
    have mirrors : Mirrors state cell.hash := mirrored
    rw [mirrors.enters memory rfl stored.policyID.symm (by rw [stored.algorithm]; rfl)]
    dsimp only
    rw [decideAdmission_eq bounds kind mirrors stored recorded, if_pos (by unfold maxExact; omega)]

/-- A call that is accepted in the one is accepted in the other. -/
theorem admitScript_accepted (memory : Allocator) (server : Int) (mirrored : Mirrored current key)
    (named : request.policy.id.length ≤ 64 ∧ request.policy.revision.length ≤ 64)
    (recorded : ∀ state, current = some state → usesWindowMetadata request.policy.algorithm = true →
      state.periodMicros = period)
    (whole : request.now = .ofUnixMicro request.now.unixMicro) (accepted : Accepted current request period)
      (ttl : Int) :
    ∃ spent hash, admitScript memory server (callOf request period ttl) key =
        (some ⟨hash, some (server + ttl * 1000)⟩,
          (finish (callOf (effective current request) period ttl)
            spent).2) ∧
      Mirrors (outcome accepted).state hash ∧
      Answers (effective current request) spent (outcome accepted) := by
  -- The hash that the script works on mirrors the state that `mutateState` does.
  obtain ⟨cell, entered, mirrors, period_eq⟩ : ∃ cell, enter memory (callOf request period ttl) key = .ok cell ∧
      Mirrors (loaded current request) cell.hash ∧
      (usesWindowMetadata request.policy.algorithm = true → (loaded current request).periodMicros = period) := by
    cases current with
    | none =>
      cases key with
      | some cell => exact mirrored.elim
      | none =>
        refine ⟨_, rfl, freshHash_mirrors bounds kind named ttl, fun windowed => ?_⟩
        rw [loaded, Option.getD_none, freshState_window windowed, bounds.period_eq,
          Duration.microseconds_ofMicros]
    | some state =>
      cases key with
      | none => exact mirrored.elim
      | some cell =>
        have mirrors : Mirrors state cell.hash := mirrored
        have stored := accepted.stored
        refine ⟨cell, mirrors.enters memory rfl stored.policyID.symm ?_, mirrors, recorded state rfl⟩
        rw [show state.algorithm = _ from stored.algorithm]
        rfl
  have policy : (effective current request).policy = request.policy := clampRequest_policy _ _
  have timed : (effective current request).now.unixMicro =
      max request.now.unixMicro (loaded current request).observedMicros := clampRequest_unixMicro _ _
  have room := accepted.bounds.room
  have aligned : (effective current request).now = .ofUnixMicro (effective current request).now.unixMicro := by
    rw [timed, effective, clampRequest_whole whole]
  have window : (effective current request).policy.algorithm = .fixedWindow →
      ExactMicros (windowStart (effective current request).now.unixMicro period) := by
    rw [policy]
    intro fixed
    have later := windowStart_mono bounds.period_pos (timed ▸ le_max_left request.now.unixMicro _)
    have start := (windowStart_bounds accepted.bounds).1
    exact ⟨(accepted.window fixed).1.trans later, by omega⟩
  obtain ⟨spent, run, answers⟩ := spend_answers accepted.bounds mirrors (by rw [policy]; exact kind)
    (by rw [policy]; exact accepted.stored) accepted.timely window aligned (timed ▸ le_max_right _ _) ttl
  have kept := outcome_kept accepted
  refine ⟨spent, _, ?_, answers.mirrors accepted.bounds (by rw [policy]; exact kept.revision)
    (by rw [policy]; exact named.2)
    (outcome_observed accepted) (fun windowed => kept.recorded (kept.algorithm ▸ windowed)) ttl, answers⟩
  have inside : ¬ (callOf request period ttl).outOfRange := by
    rw [outOfRange_iff bounds kind]
    exact fun outside => outside.2 (accepted.window outside.1)
  have still : ¬ (callOf (effective current request) period ttl).windowOverflows := by
    rw [windowOverflows_iff (by rw [policy]; exact kind)]
    exact fun outside => outside.2 (window outside.1)
  rw [admitScript, if_neg inside, entered]
  dsimp only
  rw [decideAdmission_eq bounds kind mirrors accepted.stored period_eq, if_neg (by unfold maxExact; omega)]
  simp only [show clampRequest (loaded current request) request = effective current request from rfl]
  rw [if_neg still, run]
  rfl

end

/-! ## One call of the store -/

/-- The request at the time that the script goes by, on whole microseconds. -/
def timed (clock : ClockPolicy) (server : Int) (request : Request) : Request :=
  { request with now := .ofUnixMicro (if clock = .serverClock then server else request.now.unixMicro) }

theorem named_short (sound : Policy.Sound policy) : policy.id.length ≤ 64 ∧ policy.revision.length ≤ 64 := by
  have id := sound.id_valid
  have revision := sound.revision_valid
  simp only [validPolicyIdentifier, Bool.and_eq_true, decide_eq_true_eq] at id revision
  exact ⟨id.1.2, revision.1.2⟩

section
variable (memory : Allocator) (clock : ClockPolicy) (server : Int) {request : Request} {period : Nat}
  (bounds : (timed clock server request).Bounds period) (kind : request.policy.algorithm.IsRate)
  (lives : valkeyStateTTL request.policy.period = pure ttl)
include bounds lives

omit bounds in
/-- The store calls the script with the arguments of the request at that time. -/
theorem admitStrict_eq (lasts : request.policy.period = .ofMicros period) (key : Option Cell) :
    admitStrict memory clock server key request = (do
      let (key, reply) := admitScript memory server (callOf (timed clock server request) period ttl.milliseconds) key
      let result ← decodeStrictDecisionReply reply
      pure (key, result)) := by
  have sent : readAdmission server (args clock request ttl) =
      some (callOf (timed clock server request) period ttl.milliseconds) := by
    rw [readAdmission_args _ _ lasts]
    simp [admissionOf, timed]
  rw [admitStrict, lives, pure_bind, sent]

omit bounds lives in
theorem decode_overflow : decodeStrictDecisionReply overflowReply = pure ⟨{}, some (.sentinel .overflow)⟩ := by
  rw [decodeStrictDecisionReply, if_pos ⟨rfl, rfl⟩]
  simp [overflowReply, decodeDecision, strictValkeyCategory]

include kind in
theorem admitStrict_overflow (mirrored : Mirrored current key)
    (stored : ∀ state, current = some state → StoredOk state request.policy period ∧
      (usesWindowMetadata request.policy.algorithm = true → state.periodMicros = period))
    (overflows : Overflows current (timed clock server request) period) :
    admitStrict memory clock server key request = pure (key, ⟨{}, some (.sentinel .overflow)⟩) := by
  have script := admitScript_overflow bounds kind memory server mirrored stored overflows ttl.milliseconds
  rw [admitStrict_eq memory clock server lives bounds.period_eq, script]
  dsimp only
  rw [decode_overflow, pure_bind]

include kind in
/-- What the store answers to an accepted call: what `mutateState` does, with the wait that
the script has sent. -/
theorem admitStrict_accepted (sound : request.policy.Sound) (mirrored : Mirrored current key)
    (recorded : ∀ state, current = some state → usesWindowMetadata request.policy.algorithm = true →
      state.periodMicros = period)
    (accepted : Accepted current (timed clock server request) period) :
    ∃ spent hash, (admitStrict memory clock server key request).Returns
        (some ⟨hash, some (server + ttl.milliseconds * 1000)⟩,
          ⟨{ (outcome accepted).decision with retryAfter := ⟨(spent.retry * 1000).bmod 18446744073709551616⟩ },
            (outcome accepted).error.map .sentinel⟩) ∧
      Mirrors (outcome accepted).state hash ∧
      Answers (effective current (timed clock server request)) spent (outcome accepted) := by
  have whole : (timed clock server request).now = .ofUnixMicro (timed clock server request).now.unixMicro := by
    simp [timed]
  obtain ⟨spent, hash, script, mirrors, answers⟩ := admitScript_accepted bounds kind memory server mirrored
    (named_short sound) recorded whole accepted ttl.milliseconds
  have after : (effective current (timed clock server request)).now.unixMicro ≤ spent.reset := by
    have complete := (outcome_complete accepted).2
    rw [answers.decision] at complete
    simp only [Time.ofUnixMicro, Time.unixMicro] at complete ⊢
    omega
  have read := decode_finish answers accepted.bounds.limit_le accepted.bounds.not_before after period ttl.milliseconds
  refine ⟨spent, hash, ?_, mirrors, answers⟩
  rw [admitStrict_eq memory clock server lives bounds.period_eq, script]
  dsimp only
  rw [read, bind_assoc]
  refine (i64_returns _).bind ?_
  rw [pure_bind]
  exact returns_pure _

end

/-! ## Runs -/

/-- One `AdmitStrict` of the Valkey store on a key, by the time of its caller. -/
def admitStep (memory : Allocator) (key : Option Cell) (call : ClockedRequest) : Machine (Option Cell × Admitted) :=
  admitStrict memory .clientClock call.serverNow key call.request.toRequest

/-- One `mutateState` of the PostgreSQL store on the state of a row, which it calls on whole
microseconds. -/
def mutateStep (current : Option PersistedState) (call : ClockedRequest) :
    Machine (Option PersistedState × Answer) := do
  let result ← mutateState current (wholeMicros call.request.toRequest)
  pure (result.next.or result.argument, ⟨result.decision, result.error⟩)

/-- The two answers to a call: never one of corruption, always alike but for the wait, and
in all where the wait fits. -/
structure Alike (call : ClockedRequest) (row : Answer) (key : Admitted) : Prop where
  sound : row.error ≠ some .corrupt
  error : key.error = row.error.map .sentinel
  decision : { key.decision with retryAfter := row.decision.retryAfter } = row.decision
  wait : WaitFits call.request.policy → key.decision.retryAfter = row.decision.retryAfter

theorem Alike.equal (alike : Alike call row key) (fits : WaitFits call.request.policy) :
    key = ⟨row.decision, row.error.map .sentinel⟩ := by
  have decision := alike.decision
  rw [← alike.wait fits] at decision
  exact congrArg₂ Admitted.mk decision alike.error

theorem step_alike (memory : Allocator) {requests : List ValidRequest} {call : ClockedRequest}
    (reached : Reached requests current) (revisions : Revisions requests) (member : call.request ∈ requests)
    (rate : call.request.policy.algorithm.IsRate) (mirrored : Mirrored current key) :
    ∃ first second, (mutateStep current call).Returns first ∧ (admitStep memory key call).Returns second ∧
      Alike call first.2 second.2 ∧ Mirrored first.1 second.1 ∧ Reached requests first.1 := by
  obtain ⟨period, limits⟩ := call.request.bounds rate
  have bounds : (wholeMicros call.request.toRequest).Bounds period := wholeMicros_bounds limits
  obtain ⟨ttl, lives, -⟩ := postgresStateTTL_exact period (by
    have := bounds.period_le
    simp only [Duration.ofMicros, maxInt64]
    omega)
  rw [← limits.period_eq] at lives
  obtain ⟨stored, ⟨overflow, late⟩ | ⟨accepted, result, next⟩⟩ := reached.mutateState revisions member
    (show (wholeMicros call.request.toRequest).policy = _ from rfl) rate bounds
  · refine ⟨(current, ⟨{}, some .overflow⟩), (key, ⟨{}, some (.sentinel .overflow)⟩), ?_, ?_,
      ⟨by simp, rfl, rfl, fun _ => rfl⟩, mirrored, reached⟩
    · rw [mutateStep, overflow]
      exact returns_pure _
    · exact returns_of_eq (admitStrict_overflow memory .clientClock call.serverNow bounds rate lives mirrored
        stored late)
  · obtain ⟨spent, hash, run, mirrors, answers⟩ := admitStrict_accepted memory .clientClock call.serverNow
      bounds rate lives
      call.request.built.sound mirrored (fun state same => (stored state same).2) accepted
    refine ⟨(some (outcome accepted).state, (outcome accepted).answer),
      _, ?_, run, ⟨?_, rfl, rfl, fun fits => ?_⟩, mirrors, next⟩
    · rw [mutateStep, result]
      exact returns_pure _
    · rcases outcome_error accepted with error | error <;> simp [error]
    · have short := answers.fits (by rwa [effective, clampRequest_policy])
      have nonneg := answers.retry.1
      have exact := (i64_returns (spent.retry * 1000)).unique (returns_of_eq (i64_exact (by omega) (by omega)))
      refine Eq.trans ?_ (congrArg Decision.retryAfter answers.decision).symm
      simp only [exact, maxInt64, Duration.mk.injEq]
      omega

/-- The strict Valkey store and the strict state machine of PostgreSQL answer every run of
requests by their own times, under revisions of one policy, with the same errors and the
same decisions. A wait differs only where it does not fit a duration. -/
theorem stores_agree (memory : Allocator) (calls : List ClockedRequest)
    (rate : ∀ call ∈ calls, call.request.policy.algorithm ≠ .concurrency)
    (revisions : Revisions (calls.map (·.request))) :
    ∃ rows keys, (Runs.trace mutateStep none calls).Returns rows ∧
      (Runs.trace (admitStep memory) none calls).Returns keys ∧
      rows.map Entry.input = calls ∧
      List.Forall₂ (fun row key => Alike row.input row.output key.output) rows keys ∧
      ((∀ call ∈ calls, WaitFits call.request.policy) →
        List.Forall₂ (fun row key => key.output = ⟨row.output.decision, row.output.error.map .sentinel⟩)
          rows keys) := by
  have kinds : ∀ call ∈ calls, call.request.policy.algorithm.IsRate := fun call member =>
    call.request.built.sound.known.resolve_right (rate call member)
  obtain ⟨rows, keys, runRows, runKeys, alike⟩ := Runs.trace_returns_simulation mutateStep (admitStep memory)
    (fun current key => Mirrored current key ∧ Reached (calls.map (·.request)) current) Alike calls
    (fun current key call related member => by
      obtain ⟨first, second, runFirst, runSecond, same, mirrored, reached⟩ :=
        step_alike memory related.2 revisions (List.mem_map_of_mem member) (kinds call member) related.1
      exact ⟨first, second, runFirst, runSecond, same, mirrored, reached⟩)
    (show Mirrored none none ∧ _ from ⟨trivial, by rintro _ ⟨⟩⟩)
  have inputs := Runs.trace_inputs runRows
  refine ⟨rows, keys, runRows, runKeys, inputs, alike.imp fun _ _ both => both.1, fun fits => ?_⟩
  replace fits : ∀ row ∈ rows, WaitFits row.input.request.policy := fun row member =>
    fits row.input (inputs ▸ List.mem_map_of_mem member)
  clear runRows runKeys inputs
  induction alike with
  | nil => exact .nil
  | cons here _ ih =>
    obtain ⟨first, rest⟩ := List.forall_mem_cons.mp fits
    exact .cons (here.1.equal first) (ih rest)

/-- A single unit in a window of more than 285 years. -/
def longCall : ClockedRequest :=
  ⟨(ratePolicy .slidingWindow 97 1 0 9007199254740991 exact_fits).request rfl 1 0 rfl, 0⟩

/-- An allocator that takes a byte for each byte of the texts. -/
def plainAllocator : Allocator where
  usage hash := (hash.entries.map fun entry => entry.1.name.length + entry.2.length).sum
  small hash length short := by
    refine (List.sum_le_card_nsmul _ (66 + 128) ?_).trans ?_
    · simp only [List.mem_map]
      rintro _ ⟨entry, member, rfl⟩
      exact Nat.add_le_add (short entry member).1 (short entry member).2
    · rw [List.length_map, smul_eq_mul]
      omega

/-- Three units in any sixteen microseconds, then two. -/
def paneCalls : List ClockedRequest :=
  [⟨(ratePolicy .slidingWindow 97 3 0 16 pane_fits).request rfl 2 (-5) rfl, 0⟩,
    ⟨(ratePolicy .slidingWindow 97 3 0 16 pane_fits).request rfl 2 (-9) rfl, 0⟩,
    ⟨(ratePolicy .slidingWindow 98 2 0 16 (by decide)).request rfl 1 11 rfl, 0⟩]

theorem stores_agree_revised : Revisions (paneCalls.map (·.request)) ∧
    (∀ call ∈ paneCalls, WaitFits call.request.policy) ∧
    ∃ rows keys, (Runs.trace mutateStep none paneCalls).Returns rows ∧
      (Runs.trace (admitStep plainAllocator) none paneCalls).Returns keys ∧
      rows.map (fun row => row.output.error) = [none, some .rejected, none] ∧
      List.Forall₂ (fun row key => key.output = ⟨row.output.decision, row.output.error.map .sentinel⟩) rows keys := by
  refine ⟨by decide, by decide, ?_⟩
  obtain ⟨rows, keys, runRows, runKeys, -, -, equal⟩ := stores_agree plainAllocator paneCalls (by decide) (by decide)
  have errors : List.map (fun row => row.output.error) <$> Runs.trace mutateStep none paneCalls =
      pure [none, some .rejected, none] := by decide +kernel
  obtain ⟨wraps, ends⟩ := runRows
  rw [ends] at errors
  injection errors with same
  exact ⟨rows, keys, ⟨wraps, ends⟩, runKeys, same, equal (by decide)⟩

/-- Two units at once in the window of 285 years: PostgreSQL answers the longest duration,
Valkey one that has wrapped around. -/
theorem long_wait_wraps : longCall.request.policy.algorithm ≠ .concurrency ∧
    Revisions ([longCall, longCall].map (·.request)) ∧
    (Runs.trace mutateStep none [longCall, longCall] >>= fun rows =>
      pure (rows.map (·.output.decision.retryAfter.nanos))) =
        pure [0, 9223372036854775807] ∧
      (Runs.trace (admitStep plainAllocator) none [longCall, longCall] >>=
        fun keys => pure (keys.map (·.output.decision.retryAfter.nanos))).Returns [0, -8876594865547248616] := by
  exact ⟨by decide, by decide, rfl, true, by decide +kernel⟩

end RateLimit.Valkey
