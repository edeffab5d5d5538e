import RateLimit.Interleaving
import RateLimit.StrictService
import RateLimit.TokenBound
import RateLimit.TransactionRules

/-! What the strict PostgreSQL store reports is what happened. By the rules for
transactions each operation ends in one of three ways, whatever the database replies.
An atomic batch that ends with an answer has the complete decisions that the service
asks for: all its buckets debited, or none of them and at least one exhausted. -/
namespace RateLimit.Postgres

open Machine Program

/-- An error that is reported after a rollback. -/
def Precommit (problem : StoreError) : Prop :=
  problem ≠ .sentinel .rejected ∧ ∀ context, problem ≠ .unknown context

theorem precommit_sentinel {error : Sentinel} (known : error ≠ .rejected) : Precommit (.sentinel error) :=
  ⟨fun same => known (StoreError.sentinel.inj same), by simp⟩

theorem direct_precommit (problem : StoreError) (direct : Direct problem) : Precommit problem := by
  cases direct <;> exact ⟨by simp, by simp⟩

/-! ## The operations -/

theorem admitStrict_ends {clock : ClockPolicy} {key : Digest} {request : ValidRequest}
    (kind : request.policy.algorithm.IsRate) (talk : Talk (admitStrict clock key request.toRequest) log ending) :
    Ends Precommit log ending fun answer => Answered answer.error := by
  obtain ⟨period, bounds⟩ := request.bounds kind
  refine Settles.ends ?_ talk
  apply Settles.after (beginLockedStrict_meets direct_precommit key)
  intro serverNow _
  apply Settles.after (authoritativeTime_meets direct_precommit bounds clock serverNow)
  rintro timed ⟨policy, inRange⟩
  apply Settles.after (loadStateStrict_meets direct_precommit key timed.now)
  intro current _
  apply Settles.after (compute_meets (mutateState_decided (by rw [policy]; exact kind) inRange current))
  intro mutation decided
  apply Settles.after (strictPostgresDecisionResult_meets direct_precommit decided)
  rintro ⟨next, answer⟩ ⟨-, told, answered⟩
  apply Settles.after (compute_meets (postgresAdmissionTTL_yields timed.policy))
  intro ttl _
  apply Settles.after (writeCell_meets direct_precommit _ _)
  intro _ _
  obtain rfl : answer = ⟨mutation.decision, mutation.error⟩ := told
  exact settles_commit.map (fun _ => _) fun _ _ => answered

/-- What `mutateLease` hands to the checks behind it. -/
def LeaseDecided (mutation : LeaseMutation) : Prop :=
  (∃ problem, mutation.error = some problem ∧ problem ≠ .rejected) ∨
    (∃ next, mutation.next = some next) ∧ Answered mutation.error

theorem validateServerClockRange_yields (now : Time) (duration : Duration) :
    (validateServerClockRange now duration).Yields fun problem => problem ≠ some .rejected := by
  apply (i64_yields _).bind
  intro most _
  split
  · exact yields_pure (by simp)
  · exact yields_pure (by simp)

theorem checkLeases_yields (entries : List (Σ _ : GoString, PersistedLease)) (total : Nat) :
    (checkLeases entries total).Yields fun problem => problem ≠ some .rejected := by
  induction entries generalizing total with
  | nil => exact yields_pure (by simp)
  | cons first rest ih =>
    obtain ⟨digest, lease⟩ := first
    unfold checkLeases
    split
    · exact yields_pure (by simp)
    split
    · exact yields_pure (by simp)
    split
    · exact yields_pure (by simp)
    apply (u64_yields _).bind
    intro room _
    split
    · exact yields_pure (by simp)
    split
    · exact yields_pure (by simp)
    · exact (u64_yields _).bind fun total _ => ih total

theorem validateConcurrencyState_yields (current : PersistedState) (policyID : GoString) :
    (validateConcurrencyState current policyID).Yields fun problem => problem ≠ some .rejected := by
  unfold validateConcurrencyState
  split
  · exact yields_pure (by simp)
  split
  · exact yields_pure (by simp)
  split
  · exact yields_pure (by simp)
  split
  · exact yields_pure (by simp)
  · exact checkLeases_yields _ _

theorem tallyLeases_yields (now : Int) (entries : List (Σ _ : GoString, PersistedLease)) (used : Nat)
    (earliest : Int) : (tallyLeases now entries used earliest).Yields fun _ => True := by
  induction entries generalizing used earliest with
  | nil => exact yields_pure trivial
  | cons first rest ih =>
    obtain ⟨digest, lease⟩ := first
    unfold tallyLeases
    split
    · exact ih used earliest
    split
    · exact yields_pure trivial
    split
    · exact yields_pure trivial
    apply (u64_yields _).bind
    intro room _
    split
    · exact yields_pure trivial
    · exact (u64_yields _).bind fun used _ => ih used _

theorem decideLease_decided (current : PersistedState) (request : LeaseRequest) (digest : GoString) (used : Nat)
    (earliest : Int) : (decideLease current request digest used earliest).Yields LeaseDecided := by
  apply (u64_yields _).bind
  intro remaining _
  split
  · split
    · exact yields_pure (Or.inl ⟨.leaseNotOwned, rfl, by decide⟩)
    · exact yields_pure (Or.inr ⟨⟨_, rfl⟩, Or.inl rfl⟩)
  · split
    · exact yields_pure (Or.inr ⟨⟨_, rfl⟩, Or.inr rfl⟩)
    · exact (u64_yields _).bind fun left _ => yields_pure (Or.inr ⟨⟨_, rfl⟩, Or.inl rfl⟩)

theorem failed_decided {problem : Sentinel} (known : some problem ≠ some Sentinel.rejected) :
    LeaseDecided (.failed problem) :=
  Or.inl ⟨problem, rfl, fun same => known (congrArg some same)⟩

theorem mutateLeases_decided (current : PersistedState) (request : LeaseRequest) (digest : GoString) :
    (mutateLeases current request digest true).Yields LeaseDecided := by
  unfold mutateLeases
  rw [if_pos rfl]
  apply (validateServerClockRange_yields _ _).bind
  intro problem known
  cases problem with
  | some problem => exact yields_pure (failed_decided known)
  | none =>
    apply (tallyLeases_yields _ _ _ _).bind
    intro tally _
    cases tally with
    | none => exact yields_pure (failed_decided (by simp))
    | some tally => exact decideLease_decided _ _ _ _ _

theorem mutateLease_decided (current : Option PersistedState) (request : LeaseRequest) (digest : GoString) :
    (mutateLease current request digest).Yields LeaseDecided := by
  unfold mutateLease mutateLeaseMode
  cases current with
  | none => exact mutateLeases_decided _ _ _
  | some state =>
    dsimp only
    split
    · exact yields_pure (failed_decided (by simp))
    split
    · exact yields_pure (failed_decided (by simp))
    split
    · exact yields_pure (failed_decided (by simp))
    rw [if_pos rfl]
    apply (validateConcurrencyState_yields _ _).bind
    intro problem known
    cases problem with
    | some problem => exact yields_pure (failed_decided known)
    | none => exact mutateLeases_decided _ _ _

theorem strictPostgresLeaseResult_meets {Heard : Exchange database → Prop} (decided : LeaseDecided mutation) :
    Meets Heard Precommit (strictPostgresLeaseResult mutation) fun result => Answered result.2.2.error := by
  unfold strictPostgresLeaseResult
  rcases decided with ⟨problem, failed, fatal⟩ | ⟨⟨next, stored⟩, answered⟩
  · rw [failed]
    cases problem <;> first | exact absurd rfl fatal | exact meets_throw (precommit_sentinel (by decide))
  · rw [stored]
    rcases id answered with error | error
    all_goals
      rw [error] at answered ⊢
      dsimp only
      split
      · rename_i problem late
        obtain rfl : problem = .corrupt := by
          unfold validateStrictLeaseTime validateStrictDecisionTime at late
          split at late <;> simp_all
        exact meets_throw (precommit_sentinel (by decide))
      · exact meets_pure answered

theorem authoritativeTime_stays {Heard : Exchange database → Prop} (clock : ClockPolicy) (request : Request)
    (duration : Duration) (serverNow : Int) :
    Meets Heard Precommit (authoritativeTime clock request duration serverNow) fun _ => True := by
  cases clock with
  | clientClock => exact meets_pure trivial
  | serverClock =>
    apply (compute_meets (validateServerClockRange_yields _ _)).bind
    intro problem known
    cases problem with
    | some problem => exact meets_throw (precommit_sentinel fun same => known (congrArg some same))
    | none => exact meets_pure trivial

theorem acquireStrict_ends {clock : ClockPolicy} {key : Digest} {request : LeaseRequest} {digest : GoString}
    (talk : Talk (acquireStrict clock key request digest) log ending) :
    Ends Precommit log ending fun result => Answered result.2.error := by
  refine Settles.ends ?_ talk
  apply Settles.after (beginLockedStrict_meets direct_precommit key)
  intro serverNow _
  apply Settles.after (authoritativeTime_stays clock _ _ serverNow)
  intro timed _
  apply Settles.after (loadStateStrict_meets direct_precommit key timed.now)
  intro current _
  apply Settles.after (compute_meets (mutateLease_decided current _ digest))
  intro mutation decided
  apply Settles.after (strictPostgresLeaseResult_meets decided)
  rintro ⟨next, lease, answer⟩ answered
  apply Settles.after (compute_meets (postgresStateTTL_yields _))
  intro ttl _
  apply Settles.after (writeCell_meets direct_precommit _ _)
  intro _ _
  exact settles_commit.map (fun _ => (lease, answer)) fun _ _ => answered

theorem releaseStrict_ends {key : Digest} {lease : Lease} {digest : GoString}
    (talk : Talk (releaseStrict key lease digest) log ending) : Ends Precommit log ending fun _ => True := by
  refine Settles.ends ?_ talk
  apply Settles.after (beginLockedStrict_meets direct_precommit key)
  intro serverNow _
  apply Settles.after (loadStateForReleaseStrict_meets direct_precommit key)
  intro current _
  cases current with
  | none => exact settles_throw (precommit_sentinel (by decide))
  | some current =>
    apply Settles.after (compute_meets (validateConcurrencyState_yields current lease.policyID))
    intro problem known
    cases problem with
    | some problem => exact settles_throw (precommit_sentinel fun same => known (congrArg some same))
    | none =>
      dsimp only
      split
      · exact settles_throw (precommit_sentinel (by decide))
      split
      · exact settles_throw (precommit_sentinel (by decide))
      · exact Settles.after (writeCell_meets direct_precommit _ _) fun _ _ => settles_commit

/-! ## Atomic batches -/

section
variable {request timed : Request} (bounds : request.Bounds period) (policy : timed.policy = request.policy)
include bounds policy

/-- At a time outside the exact range a strict mutation overflows. -/
theorem mutateLoaded_outside (seen : state.observedMicros ≤ timed.now.unixMicro)
    (outside : ¬ (-9007199254740991 ≤ timed.now.unixMicro ∧ timed.now.unixMicro + period ≤ 9007199254740991)) :
    mutateLoaded current state timed true = pure (.failed current .overflow) := by
  have range : validateServerClockRange timed.now (.ofMicros period) = pure (some .overflow) := by
    rw [validateServerClockRange_exact _ bounds.period_pos (bounds.period_le.trans (by decide)), if_neg outside]
  rw [mutateLoaded, clampRequest_of_le seen, mutateEffective, if_pos rfl, checkEffective, policy, bounds.period_eq,
    range, pure_bind]
  rfl

variable (token : request.policy.algorithm = .tokenBucket) (cost : timed.cost = request.cost)
include token cost

/-- A token bucket answers at any time that is not behind what it has seen: the one
observation of a batch need not be in the range of a valid request. -/
theorem mutateState_token_cases (seen : ∀ state, current = some state → state.observedMicros ≤ timed.now.unixMicro) :
    (∃ problem, mutateState current timed = pure (.failed current problem) ∧ Direct (.sentinel problem)) ∨
      ∃ accepted : Accepted current timed period,
        mutateState current timed = pure (.finished current (outcome accepted)) := by
  classical
  have rate : timed.policy.algorithm.IsRate := by rw [policy, token]; decide
  by_cases range : -9007199254740991 ≤ timed.now.unixMicro ∧ timed.now.unixMicro + period ≤ 9007199254740991
  · rcases mutateState_cases rate (bounds.retimed policy cost range.1 range.2) current with
      ⟨overflow, -⟩ | ⟨corrupt, -⟩ | accepted
    · exact Or.inl ⟨_, overflow, .overflow⟩
    · exact Or.inl ⟨_, corrupt, .corrupt⟩
    · exact Or.inr accepted
  · have enter : mutateState current timed = mutateStored current timed true := by
      unfold mutateState mutateStateMode windowOverflows
      rw [if_neg (by simp [policy, token]), pure_bind, if_neg (by decide)]
    rw [enter]
    cases current with
    | none => exact Or.inl ⟨_, mutateLoaded_outside bounds policy (freshState_observed timed).le range, .overflow⟩
    | some state =>
      have exact : u64 timed.policy.period.microseconds = pure period := by rw [policy]; exact period_exact bounds
      by_cases stored : StoredOk state timed.policy period
      · rw [mutateStored, checkStored_exact rate exact, if_pos stored, pure_bind]
        exact Or.inl ⟨_, mutateLoaded_outside bounds policy (seen state rfl) range, .overflow⟩
      · rw [mutateStored, checkStored_exact rate exact, if_neg stored, pure_bind]
        exact Or.inl ⟨_, rfl, .corrupt⟩

end

/-- What a speculative debit leaves of a bucket: an answer that is complete for the
request, and after a debit room for what it took. -/
structure Debited (now : Time) (request : Request) (debit : Debit) : Prop where
  request_eq : debit.request = { request with now := now }
  complete : (debit.answer.error = none ∧ completeAllowed debit.answer.decision request) ∨
    (debit.answer.error = some .rejected ∧ completeRejected debit.answer.decision request)
  room : debit.answer.error = none → debit.state.tokens + request.cost ≤ request.policy.limit
  fraction : ∃ period, request.Bounds period ∧ debit.state.remainder < period
  dated : -9007199254740991000 ≤ now.nanos

theorem available_level (accepted : Accepted current request period)
    (kind : request.policy.algorithm = .tokenBucket) :
    (availableLevel accepted).tokens ≤ request.policy.limit ∧ (availableLevel accepted).remainder < period := by
  have same : (effective current request).policy = request.policy := clampRequest_policy _ _
  obtain ⟨tokens, remainder⟩ := prepared_level accepted.bounds (effective_token kind)
    (by rw [same]; exact accepted.stored.token kind)
  have limit : (rateOf accepted.bounds).limit = request.policy.limit := congrArg Policy.limit same
  constructor
  · rw [← limit]
    exact TokenRate.refill_tokens_le _ (by rw [limit, ← same]; exact tokens)
  · exact TokenRate.refill_remainder_lt _ remainder

theorem accepted_debited {request : Request} (bounds : request.Bounds period)
    (token : request.policy.algorithm = .tokenBucket)
    (seen : ∀ state, current = some state → state.observedMicros ≤ now.unixMicro)
    (accepted : Accepted current { request with now := now } period) :
    Debited now request ⟨{ request with now := now }, (outcome accepted).state,
      ⟨{ (outcome accepted).decision with
        backend := .ofLiteral "postgres", policyRevision := request.policy.revision }, (outcome accepted).error⟩⟩ := by
  have level := available_level accepted token
  refine ⟨rfl, (outcome_complete accepted).1, ?_, ⟨period, bounds, ?_⟩, ?_⟩
  · intro admitted
    have enough : ¬ (availableLevel accepted).tokens < request.cost := by
      intro short
      cases (outcome_short accepted token short).1.symm.trans admitted
    have tokens : (outcome accepted).state.tokens = (availableLevel accepted).tokens - request.cost :=
      congrArg TokenLevel.tokens (outcome_room accepted token enough).2
    dsimp only
    have most := level.1
    dsimp only at most
    omega
  · by_cases short : (availableLevel accepted).tokens < request.cost
    · have same := congrArg TokenLevel.remainder (outcome_short accepted token short).2
      exact lt_of_eq_of_lt same level.2
    · have same := congrArg TokenLevel.remainder (outcome_room accepted token short).2
      exact lt_of_eq_of_lt same level.2
  · have still : effective current { request with now := now } = { request with now := now } := by
      apply clampRequest_of_le
      cases current with
      | none => exact (freshState_observed _).le
      | some state => exact seen state rfl
    have early := accepted.bounds.not_before
    rw [still] at early
    simp only [Time.unixMicro] at early
    omega

section
variable {Heard : Exchange database → Prop} {Known : StoreError → Prop}
  (known : ∀ problem, Direct problem → Known problem)
include known

theorem lockBuckets_meets (previous : Option Int) (keys : List Int) :
    Meets Heard Known (lockBuckets previous keys) fun _ => True := by
  induction keys generalizing previous with
  | nil => exact meets_pure trivial
  | cons key rest ih =>
    unfold lockBuckets
    by_cases again : previous = some key
    · rw [if_pos again]
      exact ih (some key)
    · rw [if_neg again]
      apply (acquire_meets known _).bind
      intro _ _
      exact ih (some key)

theorem atomicTime_meets (clock : ClockPolicy) {batch : AtomicBatchRequest} (some : batch.requests = first :: rest) :
    Meets Heard Known (atomicTime clock batch) fun _ => True := by
  unfold atomicTime
  rw [some]
  cases clock with
  | clientClock => exact meets_pure trivial
  | serverClock => exact (observe_meets known).bind fun _ _ => meets_pure trivial

theorem loadStates_meets (now : Time) (keys : List Digest) :
    Meets Heard Known (loadStates now keys) fun states => states.length = keys.length := by
  induction keys with
  | nil => exact meets_pure rfl
  | cons key rest ih =>
    apply (loadStateStrict_meets known key now).bind
    intro state _
    apply ih.bind
    intro states count
    exact meets_pure (congrArg (· + 1) count)

/-- What holds of every accepted debit holds of all the debits of a batch. -/
theorem debitAll_holds (Holds : Request → Debit → Prop) (now : Time) {pairs : List (Request × Option PersistedState)}
    (batched : ∀ pair ∈ pairs, pair.1.policy.algorithm = .tokenBucket ∧ ∃ period, pair.1.Bounds period)
    (seen : ∀ pair ∈ pairs, ∀ state, pair.2 = some state → state.observedMicros ≤ now.unixMicro)
    (holds : ∀ pair ∈ pairs, ∀ period, pair.1.Bounds period →
      ∀ accepted : Accepted pair.2 { pair.1 with now := now } period,
        Holds pair.1 ⟨{ pair.1 with now := now }, (outcome accepted).state,
          ⟨{ (outcome accepted).decision with
            backend := .ofLiteral "postgres", policyRevision := pair.1.policy.revision }, (outcome accepted).error⟩⟩) :
    Meets Heard Known (debitAll now pairs) fun debits => List.Forall₂ Holds (pairs.map Prod.fst) debits := by
  induction pairs with
  | nil => exact meets_pure .nil
  | cons pair rest ih =>
    obtain ⟨request, current⟩ := pair
    obtain ⟨token, period, bounds⟩ := batched _ List.mem_cons_self
    have here := seen _ List.mem_cons_self
    have later := ih (fun pair member => batched pair (List.mem_cons_of_mem _ member))
      (fun pair member => seen pair (List.mem_cons_of_mem _ member))
      fun pair member => holds pair (List.mem_cons_of_mem _ member)
    have policy : ({ request with now := now } : Request).policy = request.policy := rfl
    rcases mutateState_token_cases bounds policy token rfl here with ⟨problem, failed, direct⟩ | ⟨accepted, result⟩
    · apply (compute_meets ⟨_, returns_of_eq failed, show _ = _ from rfl⟩).bind
      rintro _ rfl
      apply (strictPostgresDecisionResult_meets known (Or.inl ⟨problem, rfl, direct⟩)).bind
      rintro result ⟨impossible, -⟩
      cases impossible
    · have decided : Decided (.finished current (outcome accepted)) := Or.inr ⟨⟨_, rfl⟩, outcome_error accepted⟩
      apply (compute_meets ⟨_, returns_of_eq result, show _ = _ from rfl⟩).bind
      rintro _ rfl
      apply (strictPostgresDecisionResult_meets known decided).bind
      rintro ⟨next, answer⟩ ⟨stored, told, -⟩
      cases stored
      cases told
      apply later.bind
      intro debits settled
      exact meets_pure (.cons (holds _ List.mem_cons_self period bounds accepted) settled)

theorem debitAll_meets (now : Time) {pairs : List (Request × Option PersistedState)}
    (batched : ∀ pair ∈ pairs, pair.1.policy.algorithm = .tokenBucket ∧ ∃ period, pair.1.Bounds period)
    (seen : ∀ pair ∈ pairs, ∀ state, pair.2 = some state → state.observedMicros ≤ now.unixMicro) :
    Meets Heard Known (debitAll now pairs) fun debits => List.Forall₂ (Debited now) (pairs.map Prod.fst) debits :=
  debitAll_holds known (Debited now) now batched seen fun pair member _ bounds accepted =>
    accepted_debited bounds (batched pair member).1 (seen pair member) accepted

theorem writeDebits_meets (pairs : List (Digest × Debit)) : Meets Heard Known (writeDebits pairs) fun _ => True := by
  induction pairs with
  | nil => exact meets_pure trivial
  | cons pair rest ih =>
    obtain ⟨key, debit⟩ := pair
    apply (compute_meets (postgresAdmissionTTL_yields _)).bind
    intro ttl _
    exact (writeCell_meets known _ _).bind fun _ _ => ih

end

/-- A decision of a rejected batch. -/
def RejectedEntry (decision : Decision) (request : Request) : Prop :=
  completeRejected decision request ∨ StrictService.completeAtomicRejected decision request

/-- An answer is complete for its batch: every bucket was debited, or none was and one
of them is exhausted. -/
def BatchAnswer.Complete (batch : AtomicBatchRequest) (answer : BatchAnswer) : Prop :=
  answer.decision.commandID = batch.commandID ∧
    ((answer.error = none ∧ answer.decision.allowed = true ∧
        List.Forall₂ completeAllowed answer.decision.decisions batch.requests) ∨
      (answer.error = some .rejected ∧ answer.decision.allowed = false ∧
        List.Forall₂ RejectedEntry answer.decision.decisions batch.requests ∧
        ∃ pair ∈ answer.decision.decisions.zip batch.requests, completeRejected pair.1 pair.2))

theorem BatchAnswer.Complete.answered (complete : BatchAnswer.Complete batch answer) : Answered answer.error :=
  complete.2.imp And.left And.left

theorem restored_yields (debited : Debited now request debit) : (restored now debit).Yields fun decision =>
    RejectedEntry decision request ∧ (debit.answer.error ≠ none → completeRejected decision request) := by
  obtain ⟨timed, complete, room, ⟨period, bounds, fraction⟩, dated⟩ := debited
  unfold restored
  rcases complete with ⟨admitted, allowed⟩ | ⟨rejected, denied⟩
  · have fits := room admitted
    have limit := bounds.limit_le
    rw [if_neg (by rw [allowed.1]; decide), timed]
    dsimp only
    rw [← Nat.cast_add, u64_exact (by omega) (by omega), pure_bind, Int.toNat_natCast, u64_sub_exact fits (by omega),
      pure_bind, tokenDuration_exact bounds (Nat.sub_le _ _) fraction, pure_bind]
    refine yields_pure ⟨Or.inr ⟨rfl, rfl, allowed.2.2.1, Nat.le_add_left _ _, fits, ?_, allowed.2.2.2.2.2⟩,
      fun other => absurd admitted other⟩
    intro zero
    have same := congrArg Time.nanos zero
    simp only [Time.add, Duration.ofMicros, Time.zero] at same
    omega
  · rw [if_pos denied.1]
    exact yields_pure ⟨Or.inl denied, fun _ => denied⟩

section
variable {Settled : Request → Debit → Prop} {Granted Entry Exhausted : Decision → Request → Prop}
  (restores : ∀ request debit, Settled request debit → (restored now debit).Yields fun decision =>
    Entry decision request ∧ (debit.answer.error ≠ none → Exhausted decision request))
  (settled : List.Forall₂ Settled requests debits)
include settled

include restores in
theorem restoreAll_holds : (restoreAll now debits).Yields fun decisions => List.Forall₂ Entry decisions requests ∧
    ((∃ debit ∈ debits, debit.answer.error ≠ none) → ∃ pair ∈ decisions.zip requests, Exhausted pair.1 pair.2) := by
  induction settled with
  | nil => exact yields_pure ⟨.nil, by simp⟩
  | cons first rest ih =>
    apply (restores _ _ first).bind
    rintro decision ⟨entry, exhausted⟩
    apply ih.bind
    rintro decisions ⟨entries, found⟩
    refine yields_pure ⟨.cons entry entries, ?_⟩
    rintro ⟨debit, member, failed⟩
    rcases List.mem_cons.mp member with rfl | member
    · exact ⟨_, List.mem_cons_self, exhausted failed⟩
    · obtain ⟨pair, later, complete⟩ := found ⟨debit, member, failed⟩
      exact ⟨pair, List.mem_cons_of_mem _ later, complete⟩

theorem granted_holds (grants : ∀ request debit, Settled request debit → debit.answer.error = none →
      Granted debit.answer.decision request) (all : ∀ debit ∈ debits, debit.answer.error = none) :
    List.Forall₂ Granted (debits.map fun debit => debit.answer.decision) requests := by
  induction settled with
  | nil => exact .nil
  | cons first rest ih =>
    obtain ⟨admitted, later⟩ := List.forall_mem_cons.mp all
    exact .cons (grants _ _ first admitted) (ih later)

include restores in
/-- What holds of every debit, taken back or not, holds of all that a batch decides. -/
theorem settleDebits_holds {Heard : Exchange database → Prop} {Known : StoreError → Prop}
    (known : ∀ problem, Direct problem → Known problem) (commandID : GoString) (keys : List Digest)
    (grants : ∀ request debit, Settled request debit → debit.answer.error = none →
      Granted debit.answer.decision request) :
    Meets Heard Known (settleDebits commandID keys now debits) fun answer =>
      (∃ decisions, answer = ⟨⟨commandID, true, decisions⟩, none⟩ ∧ List.Forall₂ Granted decisions requests) ∨
        ∃ decisions, answer = ⟨⟨commandID, false, decisions⟩, some .rejected⟩ ∧ List.Forall₂ Entry decisions requests ∧
          ∃ pair ∈ decisions.zip requests, Exhausted pair.1 pair.2 := by
  unfold settleDebits
  split
  · rename_i all
    rw [List.all_eq_true] at all
    apply (writeDebits_meets known _).bind
    intro _ _
    exact meets_pure (Or.inl ⟨_, rfl, granted_holds settled grants fun debit member => of_decide_eq_true
      (all debit member)⟩)
  · rename_i some
    simp only [List.all_eq_true, decide_eq_true_eq, not_forall] at some
    obtain ⟨debit, member, failed⟩ := some
    apply (compute_meets (restoreAll_holds restores settled)).bind
    rintro decisions ⟨entries, found⟩
    exact meets_pure (Or.inr ⟨decisions, rfl, entries, found ⟨debit, member, failed⟩⟩)

end

theorem settleDebits_meets {Heard : Exchange database → Prop} {Known : StoreError → Prop}
    (known : ∀ problem, Direct problem → Known problem) {batch : AtomicBatchRequest} (keys : List Digest)
    (settled : List.Forall₂ (Debited now) batch.requests debits) :
    Meets Heard Known (settleDebits batch.commandID keys now debits) (BatchAnswer.Complete batch) := by
  have grants (request : Request) (debit : Debit) (debited : Debited now request debit)
      (admitted : debit.answer.error = none) : completeAllowed debit.answer.decision request := by
    rcases debited.complete with ⟨-, complete⟩ | ⟨rejected, -⟩
    · exact complete
    · cases rejected.symm.trans admitted
  refine (settleDebits_holds (by exact fun _ _ => restored_yields) settled known _ keys grants).mono ?_
  rintro answer (⟨decisions, rfl, complete⟩ | ⟨decisions, rfl, entries, found⟩)
  · exact ⟨rfl, Or.inl ⟨rfl, rfl, complete⟩⟩
  · exact ⟨rfl, Or.inr ⟨rfl, rfl, entries, found⟩⟩

/-! ## Receipts -/

theorem allowedReceipt_yields (cost : request.cost ≤ request.policy.limit)
    (limit : request.policy.limit ≤ 9007199254740991) (same : decision.limit = request.policy.limit)
    (reset : decision.reset ≠ Time.zero) :
    (allowedReceipt decision request).Yields fun fine => fine = true → completeAllowed decision request := by
  unfold allowedReceipt
  rw [same, u64_sub_exact cost (by omega), pure_bind]
  apply yields_pure
  intro fine
  obtain ⟨allowed, reason, retry, remaining⟩ := of_decide_eq_true fine
  exact ⟨allowed, reason, same, remaining, reset, by rw [retry]⟩

theorem rejectedReceipt_yields (same : decision.limit = request.policy.limit)
    (within : decision.remaining ≤ request.policy.limit) (reset : decision.reset ≠ Time.zero) :
    (rejectedReceipt decision request).Yields fun result => ∀ exhausted, result = some exhausted →
      RejectedEntry decision request ∧ (exhausted = true → completeRejected decision request) := by
  unfold rejectedReceipt
  split
  · exact yields_pure (by simp)
  rename_i denied
  rw [Bool.not_eq_true] at denied
  split
  · rename_i reason
    split
    · exact yields_pure (by simp)
    · rename_i fine
      have complete : completeRejected decision request :=
        ⟨denied, reason, same, by omega, reset, by omega⟩
      apply (tokenDuration_yields _ _ _).bind
      intro longest _
      exact yields_pure fun _ _ => ⟨Or.inl complete, fun _ => complete⟩
  · rename_i reason
    apply yields_pure
    intro exhausted told
    split at told
    · cases told
    · rename_i fine
      cases told
      simp only [not_or, not_lt, ne_eq, not_not] at fine
      exact ⟨Or.inr ⟨denied, reason, same, fine.1, within, reset, by rw [fine.2]⟩, by simp⟩
  · exact yields_pure (by simp)

/-- What a checked receipt says of its decisions. -/
structure Checked (allowed limited : Bool) (pairs : List (Decision × Request)) (exhausted : Bool) : Prop where
  admitted : allowed = true → ∀ pair ∈ pairs, completeAllowed pair.1 pair.2
  rejected : allowed = false → ∀ pair ∈ pairs, RejectedEntry pair.1 pair.2
  found : allowed = false → exhausted = true →
    limited = true ∨ ∃ pair ∈ pairs, completeRejected pair.1 pair.2

theorem checkReceipt_yields (allowed : Bool) (pairs : List (Decision × Request)) (limited : Bool)
    (batched : ∀ pair ∈ pairs, ∃ period, pair.2.Bounds period) :
    (checkReceipt allowed pairs limited).Yields fun result =>
      ∀ exhausted, result = some exhausted → Checked allowed limited pairs exhausted := by
  induction pairs generalizing limited with
  | nil =>
    apply yields_pure
    rintro exhausted ⟨⟩
    exact ⟨by simp, by simp, fun _ found => Or.inl found⟩
  | cons pair rest ih =>
    obtain ⟨decision, request⟩ := pair
    obtain ⟨⟨period, bounds⟩, later⟩ := List.forall_mem_cons.mp batched
    unfold checkReceipt
    split
    · exact yields_pure (by simp)
    rename_i header
    simp only [not_or, ne_eq, not_not, not_lt] at header
    obtain ⟨same, within, -, -, reset⟩ := header
    split
    · rename_i admitted
      apply (allowedReceipt_yields bounds.cost_le bounds.limit_le same reset).bind
      intro fine complete
      split
      · rename_i passed
        obtain ⟨result, returns, told⟩ := ih limited later
        refine ⟨result, returns, fun exhausted same => ?_⟩
        have checked := told exhausted same
        refine ⟨fun _ => List.forall_mem_cons.mpr ⟨complete passed, checked.admitted admitted⟩, ?_, ?_⟩
        all_goals
          intro denied
          cases denied.symm.trans admitted
      · exact yields_pure (by simp)
    · rename_i denied
      rw [Bool.not_eq_true] at denied
      apply (rejectedReceipt_yields same (by omega) reset).bind
      intro result told
      cases result with
      | none => exact yields_pure (by simp)
      | some here =>
        obtain ⟨entry, exhausted⟩ := told here rfl
        obtain ⟨result, returns, told⟩ := ih (limited || here) later
        refine ⟨result, returns, fun last same => ?_⟩
        have checked := told last same
        refine ⟨?_, fun _ => List.forall_mem_cons.mpr ⟨entry, checked.rejected denied⟩, fun _ found => ?_⟩
        · intro admitted
          cases denied.symm.trans admitted
        · rcases checked.found denied found with before | ⟨pair, member, complete⟩
          · rcases Bool.or_eq_true _ _ ▸ before with before | now
            · exact Or.inl before
            · exact Or.inr ⟨_, List.mem_cons_self, exhausted now⟩
          · exact Or.inr ⟨pair, List.mem_cons_of_mem _ member, complete⟩

/-- What a receipt is decoded to. -/
def Decoded (batch : AtomicBatchRequest) : Except Sentinel BatchAnswer → Prop
  | .error problem => problem = .corrupt
  | .ok answer => BatchAnswer.Complete batch answer

theorem decodeAtomicReceipt_yields (receipt : Option AtomicBatchDecision) {batch : AtomicBatchRequest}
    (batched : ∀ request ∈ batch.requests, ∃ period, request.Bounds period) :
    (decodeAtomicReceipt receipt batch).Yields (Decoded batch) := by
  unfold decodeAtomicReceipt
  cases receipt with
  | none => exact yields_pure rfl
  | some saved =>
    dsimp only
    split
    · exact yields_pure rfl
    rename_i header
    simp only [not_or, ne_eq, not_not] at header
    apply (checkReceipt_yields saved.allowed (saved.decisions.zip batch.requests) false fun pair member =>
      batched pair.2 (List.of_mem_zip member).2).bind
    intro limited told
    cases limited with
    | none => exact yields_pure rfl
    | some limited =>
      have checked := told limited rfl
      dsimp only
      split
      · rename_i allowed
        refine yields_pure ⟨rfl, Or.inl ⟨rfl, allowed, List.forall₂_iff_zip.mpr ⟨header.2, ?_⟩⟩⟩
        intro decision request member
        exact checked.admitted allowed _ member
      rename_i denied
      rw [Bool.not_eq_true] at denied
      split
      · rename_i exhausted
        refine yields_pure ⟨rfl, Or.inr ⟨rfl, denied, List.forall₂_iff_zip.mpr ⟨header.2, ?_⟩, ?_⟩⟩
        · intro decision request member
          exact checked.rejected denied _ member
        · exact (checked.found denied exhausted).resolve_left (by simp)
      · exact yields_pure rfl

/-! ## The whole batch -/

theorem batch_bounds (batch : ValidBatch) : ∀ request ∈ batch.requests,
    request.policy.algorithm = .tokenBucket ∧ ∃ period, request.Bounds period := by
  obtain ⟨first, rest, -, each, -⟩ := batch.checked
  intro request member
  obtain ⟨valid, -, token, -⟩ := each request member
  exact ⟨token, ValidRequest.bounds ⟨request, batch.built request member, valid⟩ (by rw [token]; decide)⟩

/-- The observation of a batch is not behind any of its buckets. -/
theorem le_latestObservation (now : Time) (states : List (Option PersistedState)) :
    now.unixMicro ≤ (latestObservation now states).unixMicro ∧
      ∀ state, some state ∈ states → state.observedMicros ≤ (latestObservation now states).unixMicro := by
  induction states generalizing now with
  | nil => exact ⟨le_refl _, by simp⟩
  | cons first rest ih =>
    cases first with
    | none =>
      refine ⟨(ih now).1, fun state member => (ih now).2 state ?_⟩
      rcases List.mem_cons.mp member with impossible | member
      · cases impossible
      · exact member
    | some state =>
      obtain ⟨later, each⟩ := ih
        (if state.observedMicros > now.unixMicro then .ofUnixMicro state.observedMicros else now)
      have ahead : now.unixMicro ≤ (latestObservation now (some state :: rest)).unixMicro ∧
          state.observedMicros ≤ (latestObservation now (some state :: rest)).unixMicro := by
        unfold latestObservation
        split at later
        · rename_i behind
          rw [if_pos behind]
          rw [Time.unixMicro_ofUnixMicro] at later
          omega
        · rename_i fresh
          rw [if_neg fresh]
          omega
      refine ⟨ahead.1, fun other member => ?_⟩
      rcases List.mem_cons.mp member with same | member
      · cases same
        exact ahead.2
      · exact each other member

section
variable {Heard : Exchange database → Prop} {Known : StoreError → Prop}
  (known : ∀ problem, Direct problem → Known problem) (sha256 : GoString → Digest) (clock : ClockPolicy)
  (batch : ValidBatch)
include known

theorem admitFirst_settles : Settles Heard Known (admitFirst sha256 clock batch.toAtomicBatchRequest)
    (BatchAnswer.Complete batch.toAtomicBatchRequest) := by
  obtain ⟨first, rest, some, -⟩ := batch.checked
  apply Settles.after (lockBuckets_meets known _ _)
  intro _ _
  apply Settles.after (atomicTime_meets known clock some)
  intro observed _
  apply Settles.after (loadStates_meets known observed _)
  intro states count
  have fresh := (le_latestObservation observed states).2
  apply Settles.after (debitAll_meets known (latestObservation observed states)
    (fun pair member => batch_bounds batch pair.1 (List.of_mem_zip member).1)
    fun pair member state same => fresh state (by rw [← same]; exact (List.of_mem_zip member).2))
  intro debits settled
  rw [List.map_fst_zip (by rw [count, List.length_map])] at settled
  apply Settles.after (settleDebits_meets known _ settled)
  intro answer complete
  split
  · exact settles_throw (known _ .corrupt)
  · apply Settles.after (writeCell_meets known _ _)
    intro _ _
    exact settles_commit.map (fun _ => answer) fun _ _ => complete

/-- A batch ends with a complete answer, or with a known error: a direct one, or that the
command it heard of is bound to another intent. -/
theorem admitAtomic_ends (conflict : ∀ row, Heard (.read (.command (sha256 batch.commandID)) (.ok (some row))) →
      row.intentDigest ≠ atomicIntent sha256 batch.toAtomicBatchRequest clock → Known (.sentinel .invalidRequest))
    (talk : Talk (admitAtomic sha256 clock batch.toAtomicBatchRequest) log ending)
    (heard : ∀ exchange ∈ log, Heard exchange) :
    Ends Known log ending (BatchAnswer.Complete batch.toAtomicBatchRequest) := by
  refine strictTransaction_ends ?_ talk heard
  apply Settles.after (configure_meets known)
  intro _ _
  apply Settles.after (acquire_meets known _)
  intro _ _
  apply Settles.after (readCell_meets known _)
  intro row read
  cases row with
  | none => exact admitFirst_settles known sha256 clock batch
  | some row =>
    dsimp only
    unfold replayReceipt
    split
    · rename_i other
      exact settles_throw (conflict row read other)
    · apply Settles.after (compute_meets (decodeAtomicReceipt_yields row.receipt fun request member =>
        (batch_bounds batch request member).2))
      intro decoded told
      cases decoded with
      | error problem =>
        cases told
        exact settles_throw (known _ .corrupt)
      | ok answer => exact settles_commit.map (fun _ => answer) fun _ _ => told

end

/-! ## What a caller is told -/

/-- What `admitStrict` returns to its caller. -/
def admissionReturn : Except StoreError Answer → Decision × Option StoreError
  | .ok answer => (answer.decision, answer.error.map .sentinel)
  | .error problem => ({}, some problem)

/-- What `acquireStrict` returns to its caller. -/
def acquisitionReturn : Except StoreError (Lease × Answer) → Lease × Decision × Option StoreError
  | .ok (lease, answer) => (lease, answer.decision, answer.error.map .sentinel)
  | .error problem => ({}, {}, some problem)

/-- What `releaseStrict` returns to its caller. -/
def releaseReturn : Except StoreError Unit → Option StoreError
  | .ok () => none
  | .error problem => some problem

/-- What `admitAtomic` returns to its caller. -/
def batchReturn : Except StoreError BatchAnswer → AtomicBatchDecision × Option StoreError
  | .ok answer => (answer.decision, answer.error.map .sentinel)
  | .error problem => ({}, some problem)

/-- An error told to a caller, against the calls that were made. -/
structure Truthful (log : List (Exchange database)) (error : Option StoreError) (nothing : Prop) : Prop where
  /-- No error and a rejection are told only after an acknowledged commit. -/
  answered : error = none ∨ error = some (.sentinel .rejected) → .commit (.ok ()) true ∈ log
  /-- Any other error that is not an unknown outcome is told only if nothing lasts. -/
  refused : ∀ problem, error = some problem → problem ≠ .sentinel .rejected →
    (∀ context, problem ≠ .unknown context) → RolledBack log
  /-- In every other case the outcome is unknown. -/
  otherwise : .commit (.ok ()) true ∉ log → ¬ RolledBack log → ∃ context, error = some (.unknown context)
  /-- Nothing is granted on an unknown outcome. -/
  unknown : ∀ context, error = some (.unknown context) → nothing

/-- The three ways an operation ends are all told truthfully. -/
theorem Ends.truthful {Post : α → Prop} (ends : Ends Precommit log ending Post)
    (error : Except StoreError α → Option StoreError)
    (nothing : Except StoreError α → Prop)
    (answers : ∀ value, Post value → ∃ answer, error (.ok value) = answer.map .sentinel ∧ Answered answer)
    (fails : ∀ problem, error (.error problem) = some problem ∧ nothing (.error problem)) :
    ∃ result, ending = some result ∧ Truthful log (error result) (nothing result) := by
  rcases ends with ⟨value, rfl, holds, committed⟩ | ⟨problem, rfl, known, undone⟩ | ⟨context, rfl⟩
  · obtain ⟨answer, told, answered⟩ := answers value holds
    have known : ∀ problem, error (.ok value) = some problem → problem = .sentinel .rejected := by
      intro problem same
      rw [told] at same
      rcases answered with rfl | rfl
      · cases same
      · cases same
        rfl
    refine ⟨_, rfl, fun _ => committed, fun problem same other => absurd (known problem same) other,
      fun missing => absurd committed missing, fun context same => ?_⟩
    cases known _ same
  · refine ⟨_, rfl, ?_, fun _ _ _ _ => undone, fun _ lasting => absurd undone lasting, ?_⟩
    all_goals rw [(fails problem).1]
    · rintro (same | same)
      · cases same
      · cases same
        exact absurd rfl known.1
    · intro context same
      cases same
      exact absurd rfl (known.2 context)
  · obtain ⟨told, empty⟩ := fails (.unknown context)
    refine ⟨_, rfl, ?_, ?_, fun _ _ => ⟨context, told⟩, fun _ _ => empty⟩
    all_goals rw [told]
    · rintro (same | same) <;> cases same
    · intro problem same _ known
      cases same
      exact absurd rfl (known context)

/-- What the strict store tells its callers is true, whatever the database replies and
at whatever point it fails: a decision or a rejection only after an acknowledged
commit, any other known error only after a rollback that leaves nothing behind, and
otherwise that the outcome is unknown, with nothing granted. -/
theorem strict_outcomes_truthful (sha256 : GoString → Digest) (clock : ClockPolicy) :
    (∀ (key : Digest) (request : ValidRequest), request.policy.algorithm.IsRate → ∀ log ending,
      Talk (admitStrict clock key request.toRequest) log ending →
        ∃ result, ending = some result ∧ Truthful log (admissionReturn result).2 ((admissionReturn result).1 = {})) ∧
      (∀ (key : Digest) (request : LeaseRequest) (digest : GoString) log ending,
        Talk (acquireStrict clock key request digest) log ending →
          ∃ result, ending = some result ∧ Truthful log (acquisitionReturn result).2.2
            ((acquisitionReturn result).1 = {} ∧ (acquisitionReturn result).2.1 = {})) ∧
      (∀ (key : Digest) (lease : Lease) (digest : GoString) log ending,
        Talk (releaseStrict key lease digest) log ending →
          ∃ result, ending = some result ∧ Truthful log (releaseReturn result) True) ∧
      ∀ (batch : ValidBatch) log ending, Talk (admitAtomic sha256 clock batch.toAtomicBatchRequest) log ending →
        ∃ result, ending = some result ∧ Truthful log (batchReturn result).2 ((batchReturn result).1 = {}) := by
  refine ⟨fun key request kind log ending talk => ?_, fun key request digest log ending talk => ?_,
    fun key lease digest log ending talk => ?_, fun batch log ending talk => ?_⟩
  · exact (admitStrict_ends kind talk).truthful (fun result => (admissionReturn result).2)
      (fun result => (admissionReturn result).1 = {})
      (fun answer answered => ⟨answer.error, rfl, answered⟩) fun problem => ⟨rfl, rfl⟩
  · exact (acquireStrict_ends talk).truthful (fun result => (acquisitionReturn result).2.2)
      (fun result => (acquisitionReturn result).1 = {} ∧ (acquisitionReturn result).2.1 = {})
      (fun value answered => ⟨value.2.error, rfl, answered⟩) fun problem => ⟨rfl, rfl, rfl⟩
  · exact (releaseStrict_ends talk).truthful releaseReturn (fun _ => True)
      (fun _ _ => ⟨none, rfl, Or.inl rfl⟩) fun problem => ⟨rfl, trivial⟩
  · have ends := admitAtomic_ends direct_precommit sha256 clock batch
      (fun _ _ _ => precommit_sentinel (by decide)) talk fun _ _ => show True from trivial
    exact ends.truthful (fun result => (batchReturn result).2)
      (fun result => (batchReturn result).1 = {})
      (fun answer complete => ⟨answer.error, rfl, complete.answered⟩) fun problem => ⟨rfl, rfl⟩

/-- Whether a store answered a request by allowing it. -/
def allows : Option (Except StoreError Answer) → Bool
  | some (.ok answer) => answer.decision.allowed && answer.error.isNone
  | _ => false

/-- An admission that never begins, and one that is committed. -/
theorem strict_outcomes_truthful_admitted : firstRequest.policy.algorithm.IsRate ∧
    Truthful [.start (.error .expired)] (admissionReturn (.error (.unknown .expired))).2
      ((admissionReturn (.error (.unknown .expired))).1 = {}) ∧
    ∃ log answer, Talk (admitStrict .serverClock bucketDigest firstRequest.toRequest) log (some (.ok answer)) ∧
      answer.decision.allowed = true ∧ answer.error = none ∧ .commit (.ok ()) true ∈ log := by
  have truthful := (strict_outcomes_truthful (fun _ => bucketDigest) .serverClock).1 bucketDigest firstRequest
    (by decide)
  refine ⟨by decide, ?_, ?_⟩
  · have talk : Talk (admitStrict .serverClock bucketDigest firstRequest.toRequest)
        [.start (.error .expired)] (some (.error (.unknown .expired))) := by
      apply Talk.start
      exact .done _
    obtain ⟨_, ⟨⟩, told⟩ := truthful _ _ talk
    exact told
  · have talk := recite_talks (5 : Int) (.ok ()) (admitStrict .serverClock bucketDigest firstRequest.toRequest)
      emptyContent []
    have ending : allows ((admitStrict .serverClock bucketDigest firstRequest.toRequest).recite (5 : Int) (.ok ())
      emptyContent []).2 = true := by decide +kernel
    obtain ⟨result, ended, told⟩ := truthful _ _ talk
    rw [ended] at talk ending
    cases result with
    | error => cases ending
    | ok answer =>
      obtain ⟨allowed, fine⟩ := Bool.and_eq_true_iff.mp ending
      have none := Option.isNone_iff_eq_none.mp fine
      exact ⟨_, answer, talk, allowed, none, told.answered (Or.inl (by simp [admissionReturn, none]))⟩

end RateLimit.Postgres
