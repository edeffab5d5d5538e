import RateLimit.Outcomes

/-! What the strict service makes of the atomic batches of the PostgreSQL store. The
service takes every complete answer of the store, and every error that the store reports
before a commit, as what it is, with one exception: a command that is bound to another
intent is refused with an error that is not a category of a backend, and the service
reports the outcome of such a batch as unknown. -/
namespace RateLimit

/-- The state of a caller's context as the store sees it. -/
def Postgres.ContextState.caller : Postgres.ContextState → CallerState
  | .live => .live
  | .canceled => .canceled
  | .expired => .expired

/-- An error of the store as the service gets it. -/
def Postgres.StoreError.goError : Postgres.StoreError → GoError
  | .sentinel error => .sentinel error
  | .wrapped error => .wrapped error
  | .canceled => canceledOutcome.error
  | .deadline => deadlineOutcome.error
  | .unknown context => (unknownOutcome context.caller).error

namespace StrictService

open Postgres Program

/-- `AdmitAtomicBatch` over a store that has returned. -/
def serveBatch (service : StrictService) (before after : CallerState) (batch : AtomicBatchRequest)
    (result : Except StoreError BatchAnswer) : AtomicBatchDecision × Option GoError :=
  service.admitAtomicBatch before after batch
    (.returned (batchReturn result).1 ((batchReturn result).2.map StoreError.goError))

/-! ## Complete answers -/

theorem checkDecisions_all (rejected valid : Bool) {pairs : List (Decision × Request)}
    (complete : ∀ pair ∈ pairs, completeAllowed pair.1 pair.2) :
    checkDecisions true pairs rejected valid = (rejected, valid) := by
  induction pairs with
  | nil => rfl
  | cons pair rest ih =>
    obtain ⟨here, later⟩ := List.forall_mem_cons.mp complete
    rw [checkDecisions, if_pos rfl, decide_eq_true here, Bool.and_true]
    exact ih later

theorem checkDecisions_rejected (rejected valid : Bool) {pairs : List (Decision × Request)}
    (entries : ∀ pair ∈ pairs, RejectedEntry pair.1 pair.2) :
    (checkDecisions false pairs rejected valid).2 = valid ∧
      (rejected = true ∨ (∃ pair ∈ pairs, completeRejected pair.1 pair.2) →
        (checkDecisions false pairs rejected valid).1 = true) := by
  induction pairs generalizing rejected with
  | nil => exact ⟨rfl, fun found => found.resolve_right (by simp)⟩
  | cons pair rest ih =>
    obtain ⟨decision, request⟩ := pair
    obtain ⟨here, later⟩ := List.forall_mem_cons.mp entries
    rw [checkDecisions, if_neg (by decide)]
    by_cases exhausted : completeRejected decision request
    · rw [if_pos exhausted]
      obtain ⟨valid, found⟩ := ih _ later
      exact ⟨valid, fun _ => found (Or.inl rfl)⟩
    · rw [if_neg exhausted, decide_eq_true (here.resolve_left exhausted), Bool.and_true]
      obtain ⟨valid, found⟩ := ih _ later
      refine ⟨valid, fun some => found (some.imp_right ?_)⟩
      rintro ⟨pair, member, complete⟩
      rcases List.mem_cons.mp member with rfl | member
      · exact absurd complete exhausted
      · exact ⟨pair, member, complete⟩

/-- The service takes every complete answer. -/
theorem completeBatch_of_complete (complete : BatchAnswer.Complete batch answer) :
    completeBatch batch answer.decision (answer.error.map GoError.sentinel) = true := by
  obtain ⟨command, ⟨error, allowed, decisions⟩ | ⟨error, denied, decisions, exhausted⟩⟩ := complete
  · obtain ⟨count, each⟩ := List.forall₂_iff_zip.mp decisions
    have checked : ∀ pair ∈ answer.decision.decisions.zip batch.requests, completeAllowed pair.1 pair.2 :=
      fun pair member => each member
    simp [completeBatch, command, count, allowed, error, checkDecisions_all false true checked]
  · obtain ⟨count, each⟩ := List.forall₂_iff_zip.mp decisions
    have checked : ∀ pair ∈ answer.decision.decisions.zip batch.requests, RejectedEntry pair.1 pair.2 :=
      fun pair member => each member
    obtain ⟨valid, found⟩ := checkDecisions_rejected false true checked
    simp [completeBatch, command, count, denied, error, valid, found (Or.inr exhausted), strictDeclaration,
      safeBackendCategory]

/-! ## The class of an outcome -/

theorem serveBatch_dispatched (service : StrictService) (batch : ValidBatch)
    (live : strictCallerContext before = none) :
    service.serveBatch before after batch.toAtomicBatchRequest result =
      service.normalizeBatch after batch.toAtomicBatchRequest (batchReturn result).1
        ((batchReturn result).2.map StoreError.goError) := by
  unfold serveBatch admitAtomicBatch
  rw [batch.accepted, live]

theorem serveBatch_answer (service : StrictService) (batch : ValidBatch)
    (live : strictCallerContext before = none) (complete : BatchAnswer.Complete batch.toAtomicBatchRequest answer) :
    (service.serveBatch before after batch.toAtomicBatchRequest (.ok answer)).2 = answer.error.map .sentinel := by
  have taken := completeBatch_of_complete complete
  have same : (answer.error.map StoreError.sentinel).map StoreError.goError = answer.error.map GoError.sentinel := by
    cases answer.error <;> rfl
  rw [serveBatch_dispatched service batch live, batchReturn]
  rw [same, normalizeBatch]
  dsimp only
  rw [if_pos taken]

theorem incomplete_zero (batch : ValidBatch) (rawErr : Option GoError) :
    completeBatch batch.toAtomicBatchRequest {} rawErr = false := by
  obtain ⟨first, rest, some, -⟩ := batch.checked
  simp [completeBatch, some]

theorem serveBatch_error (service : StrictService) (batch : ValidBatch)
    (live : strictCallerContext before = none) (declared : (∃ outcome, problem.goError = .outcome (some outcome)) ∨
      ∃ category, problem.goError = .sentinel category ∧ category ≠ .rejected ∧
        applicableCategory category .strictMethodAdmit = true) :
    (service.serveBatch before after batch.toAtomicBatchRequest (.error problem)).2 = some problem.goError := by
  rw [serveBatch_dispatched service batch live, batchReturn]
  dsimp only [Option.map_some]
  rw [normalizeBatch]
  dsimp only
  rw [incomplete_zero, if_neg (by decide), if_pos ⟨rfl, rfl, rfl⟩]
  rcases declared with ⟨outcome, same⟩ | ⟨category, same, other, applies⟩
  · rw [same]
    rfl
  · have safe : safeBackendCategory category = true := by
      cases category <;> first | rfl | cases applies
    rw [same, strictDeclaration, if_pos safe]
    dsimp only
    rw [if_pos ⟨other, applies⟩]

theorem serveBatch_direct (service : StrictService) (batch : ValidBatch)
    (live : strictCallerContext before = none) (direct : Direct problem) :
    (service.serveBatch before after batch.toAtomicBatchRequest (.error problem)).2 = some problem.goError := by
  apply serveBatch_error service batch live
  cases direct with
  | canceled => exact Or.inl ⟨_, rfl⟩
  | deadline => exact Or.inl ⟨_, rfl⟩
  | unavailable => exact Or.inr ⟨_, rfl, by decide, by decide⟩
  | overflow => exact Or.inr ⟨_, rfl, by decide, by decide⟩
  | corrupt => exact Or.inr ⟨_, rfl, by decide, by decide⟩

/-- The one refusal that the service does not pass on. -/
theorem serveBatch_invalid (service : StrictService) (batch : ValidBatch)
    (live : strictCallerContext before = none) :
    service.serveBatch before after batch.toAtomicBatchRequest (.error (.sentinel .invalidRequest)) =
      ({ commandID := batch.commandID }, some (unknownOutcome after).error) := by
  rw [serveBatch_dispatched service batch live, batchReturn]
  dsimp only [Option.map_some]
  rw [normalizeBatch]
  dsimp only
  rw [incomplete_zero, if_neg (by decide), if_pos ⟨rfl, rfl, rfl⟩]
  rfl

/-- What a database that holds `row` for a command replies when it is asked for it. -/
def HoldsCommand (command : Digest) (row : Option CommandRow) (exchange : Exchange database) : Prop :=
  ∀ reply : Except ContextState (Option CommandRow), exchange = .read (.command command) reply →
    reply = .ok row ∨ ∃ context, reply = .error context

/-- The class of an outcome is kept: the service reports an unknown outcome only for one
that was unknown to the store, and any other outcome of a batch that it dispatched as
what it was. -/
structure KeepsClass (service : StrictService) (before after : CallerState) (batch : AtomicBatchRequest)
    (result : Except StoreError BatchAnswer) : Prop where
  unknown : ∀ outcome : OutcomeError, (service.serveBatch before after batch result).2 = some outcome.error →
    outcome.kind = .unknown → ∃ context, result = .error (.unknown context)
  same : strictCallerContext before = none →
    (service.serveBatch before after batch result).2 = (batchReturn result).2.map StoreError.goError

theorem keepsClass_stopped (service : StrictService) (batch : ValidBatch) {stop : OutcomeError}
    (stopped : strictCallerContext before = some stop) :
    KeepsClass service before after batch.toAtomicBatchRequest result := by
  refine ⟨fun other told kind => ?_, fun live => ?_⟩
  · have same : (service.serveBatch before after batch.toAtomicBatchRequest result).2 = some stop.error := by
      unfold serveBatch admitAtomicBatch
      rw [batch.accepted, stopped]
    cases same.symm.trans told
    cases before <;> cases stopped <;> cases kind
  · cases live.symm.trans stopped

/-- An error that the service passes on keeps its class. -/
theorem keepsClass_of_same {service : StrictService} {batch : AtomicBatchRequest}
    (same : (service.serveBatch before after batch result).2 = (batchReturn result).2.map StoreError.goError)
    (told : (∃ answer, result = .ok answer) ∨ (∃ problem, result = .error problem ∧ Direct problem) ∨
      ∃ context, result = .error (.unknown context)) : KeepsClass service before after batch result := by
  refine ⟨fun outcome reported kind => ?_, fun _ => same⟩
  rw [same] at reported
  rcases told with ⟨answer, rfl⟩ | ⟨problem, rfl, direct⟩ | unknown
  · cases error : answer.error with
    | none =>
      rw [batchReturn, error] at reported
      cases reported
    | some problem =>
      rw [batchReturn, error] at reported
      cases reported
  · cases direct <;> cases reported <;> cases kind
  · exact unknown

/-- What the store tells of a batch whose command is not bound to another intent. -/
theorem admitAtomicStrict_told {batch : ValidBatch} {row : Option CommandRow}
    (unbound : ∀ stored, row = some stored → stored.intentDigest = atomicIntent sha256 batch.toAtomicBatchRequest clock)
    (talk : Talk (Store.admitAtomicStrict sha256 clock context batch.toAtomicBatchRequest) log ending)
    (holds : ∀ exchange ∈ log, HoldsCommand (sha256 batch.commandID) row exchange) :
    (∃ answer, ending = some (.ok answer) ∧ BatchAnswer.Complete batch.toAtomicBatchRequest answer) ∨
      (∃ problem, ending = some (.error problem) ∧ Direct problem) ∨
      ∃ context, ending = some (.error (.unknown context)) := by
  unfold Store.admitAtomicStrict at talk
  rw [batch.accepted] at talk
  cases context with
  | canceled =>
    cases talk
    exact Or.inr (Or.inl ⟨_, rfl, .canceled⟩)
  | expired =>
    cases talk
    exact Or.inr (Or.inl ⟨_, rfl, .deadline⟩)
  | live =>
    have same (stored : CommandRow) (read : HoldsCommand (sha256 batch.commandID) row
        (.read (.command (sha256 batch.commandID)) (.ok (some stored)))) :
        stored.intentDigest = atomicIntent sha256 batch.toAtomicBatchRequest clock := by
      rcases read _ rfl with found | ⟨_, failed⟩
      · exact unbound stored (Except.ok.inj found).symm
      · cases failed
    rcases admitAtomic_ends (fun _ direct => direct) sha256 clock batch
      (fun stored read other => absurd (same stored read) other) talk holds with
      ⟨answer, told, complete, -⟩ | ⟨problem, told, direct, -⟩ | unknown
    · exact Or.inl ⟨answer, told, complete⟩
    · exact Or.inr (Or.inl ⟨problem, told, direct⟩)
    · exact Or.inr (Or.inr unknown)

/-- A batch whose command is not bound to another intent keeps its class. -/
theorem keepsClass_unbound (service : StrictService) {batch : ValidBatch} {row : Option CommandRow}
    (unbound : ∀ stored, row = some stored → stored.intentDigest = atomicIntent sha256 batch.toAtomicBatchRequest clock)
    (talk : Talk (Store.admitAtomicStrict sha256 clock context batch.toAtomicBatchRequest) log ending)
    (holds : ∀ exchange ∈ log, HoldsCommand (sha256 batch.commandID) row exchange) :
    ∃ result, ending = some result ∧ KeepsClass service before after batch.toAtomicBatchRequest result := by
  have told := admitAtomicStrict_told unbound talk holds
  cases live : strictCallerContext before with
  | some stop => rcases told with ⟨_, rfl, -⟩ | ⟨_, rfl, -⟩ | ⟨_, rfl⟩ <;>
      exact ⟨_, rfl, keepsClass_stopped service batch live⟩
  | none =>
    rcases told with ⟨answer, rfl, complete⟩ | ⟨problem, rfl, direct⟩ | ⟨state, rfl⟩
    · refine ⟨_, rfl, keepsClass_of_same ?_ (Or.inl ⟨answer, rfl⟩)⟩
      rw [serveBatch_answer service batch live complete, batchReturn]
      cases answer.error <;> rfl
    · exact ⟨_, rfl, keepsClass_of_same (serveBatch_direct service batch live direct)
        (Or.inr (Or.inl ⟨problem, rfl, direct⟩))⟩
    · exact ⟨_, rfl, keepsClass_of_same (serveBatch_error service batch live (Or.inl ⟨_, rfl⟩))
        (Or.inr (Or.inr ⟨state, rfl⟩))⟩

/-- The conversation of a batch whose command is bound to another intent. -/
theorem admitAtomicStrict_bound {batch : ValidBatch} {row : CommandRow}
    (bound : row.intentDigest ≠ atomicIntent sha256 batch.toAtomicBatchRequest clock) :
    Talk (Store.admitAtomicStrict sha256 clock .live batch.toAtomicBatchRequest)
      [.start (.ok ()), .configure (.ok ()), .acquire (commandLock (sha256 batch.commandID)) (.ok 0),
        .read (.command (sha256 batch.commandID)) (.ok (some row)), .rollback (.ok ())]
      (some (.error (.sentinel .invalidRequest))) := by
  unfold Store.admitAtomicStrict
  rw [batch.accepted]
  apply Talk.start
  apply Talk.configure
  apply Talk.acquire
  apply Talk.read
  have refused : replayReceipt sha256 clock batch.toAtomicBatchRequest row = throw (.sentinel .invalidRequest) := by
    rw [replayReceipt, if_pos bound]
  change Talk ((replayReceipt sha256 clock batch.toAtomicBatchRequest row).run.andThen _) _ _
  rw [refused]
  exact .rollback _ (.done _)

/-- The class of the outcome of a batch survives the service, whatever the replies and
failures of the database are, exactly if the command that the database holds, if it holds
one, is bound to the intent of the batch. -/
theorem atomic_outcome_stays_known (service : StrictService) (sha256 : GoString → Digest) (clock : ClockPolicy)
    (batch : ValidBatch) (row : Option CommandRow) :
    (∀ before after context log ending,
      Talk (Store.admitAtomicStrict sha256 clock context batch.toAtomicBatchRequest) log ending →
      (∀ exchange ∈ log, HoldsCommand (sha256 batch.commandID) row exchange) →
      ∃ result, ending = some result ∧ KeepsClass service before after batch.toAtomicBatchRequest result) ↔
    ∀ stored, row = some stored → stored.intentDigest = atomicIntent sha256 batch.toAtomicBatchRequest clock := by
  constructor
  · rintro kept stored rfl
    by_contra bound
    obtain ⟨result, told, keeps⟩ := kept .live .live .live _ _ (admitAtomicStrict_bound bound) (by
      simp [HoldsCommand])
    cases told
    obtain ⟨context, impossible⟩ := keeps.unknown (unknownOutcome .live)
      (congrArg Prod.snd (serveBatch_invalid service batch rfl)) rfl
    cases impossible
  · intro unbound before after context log ending talk holds
    exact keepsClass_unbound service unbound talk holds

/-! ## A changed intent -/

/-- A token bucket that an atomic batch may debit: five tokens a second. -/
def strongPolicy : Policy := { ratePolicy .tokenBucket 49 5 0 1000000 (by decide) with consistency := .strong }

def strongRequest (cost : Nat) (accepted : Request.validate ⟨strongPolicy, ⟨[107], [117]⟩, cost, .ofUnixMicro 0⟩
    = .ok ()) :
    ValidRequest := strongPolicy.request (by rfl) cost 0 accepted

/-- The command `c` to take one token. -/
def oneToken : ValidBatch where
  commandID := [99]
  requests := [(strongRequest 1 (by rfl)).toRequest]
  built := by
    intro request member
    rw [List.mem_singleton] at member
    rw [member]
    exact (strongRequest 1 (by rfl)).built
  accepted := by decide

/-- The service over a store whose name is `postgres`. -/
def postgresService : StrictService := ⟨[112, 111, 115, 116, 103, 114, 101, 115], by decide⟩

/-- SHA-256 of the command and of the intent to take one token. -/
def oneTokenHash (input : GoString) : Digest := fun byte =>
  (if input = [99] then
    ([46, 125, 44, 3, 169, 80, 122, 226, 101, 236, 245, 181, 53, 104, 133, 165,
      51, 147, 162, 2, 157, 36, 19, 148, 153, 114, 101, 161, 162, 90, 239, 198] : List UInt8)
  else
    [43, 244, 191, 148, 209, 194, 164, 109, 34, 22, 60, 111, 162, 134, 211, 31,
      200, 226, 241, 10, 135, 250, 55, 100, 143, 62, 243, 47, 163, 59, 28, 31]).getD byte 0

theorem atomic_outcome_stays_known_canceled :
    ∃ result, some (.error .canceled) = some result ∧
      KeepsClass postgresService .live .canceled oneToken.toAtomicBatchRequest result := by
  have talk : Talk (Store.admitAtomicStrict oneTokenHash .clientClock .live oneToken.toAtomicBatchRequest)
      [.start (.ok ()), .configure (.error .canceled), .rollback (.ok ())] (some (.error .canceled)) := by
    unfold Store.admitAtomicStrict
    rw [oneToken.accepted]
    apply Talk.start
    apply Talk.configure
    exact .rollback _ (.done _)
  exact (atomic_outcome_stays_known postgresService oneTokenHash .clientClock oneToken none).mpr (by simp)
    .live .canceled .live _ _ talk (by simp [HoldsCommand])

/-- What the command `c` to take two tokens left behind. -/
def twoTokens : CommandRow where
  intentDigest := fun byte =>
    ([62, 54, 160, 244, 223, 57, 4, 1, 231, 165, 57, 147, 175, 149, 68, 103,
      58, 18, 67, 193, 81, 77, 178, 152, 154, 193, 141, 1, 124, 8, 59, 233] : List UInt8).getD byte 0
  receipt := some
    { allowed := true
      decisions := [
        { allowed := true, remaining := 3, limit := 5, reset := .ofUnixMicro 400000, reason := .allowed
          backend := .ofLiteral "postgres", policyRevision := [49] }] }

/-- The store refuses to take one token under the command that took two, and rolls back;
the service reports this as unknown. -/
theorem changed_intent_reported_unknown : ∃ log,
    Talk (Store.admitAtomicStrict oneTokenHash .clientClock .live oneToken.toAtomicBatchRequest) log
      (some (.error (.sentinel .invalidRequest))) ∧
    (∀ exchange ∈ log, HoldsCommand (oneTokenHash oneToken.commandID) (some twoTokens) exchange) ∧ RolledBack log ∧
    (postgresService.serveBatch .live .live oneToken.toAtomicBatchRequest
      (.error (.sentinel .invalidRequest))).2 = some (unknownOutcome .live).error := by
  have bound : twoTokens.intentDigest ≠ atomicIntent oneTokenHash oneToken.toAtomicBatchRequest .clientClock := by
    intro same
    have first : (62 : UInt8) = 43 := congrFun same 0
    cases first
  refine ⟨_, admitAtomicStrict_bound bound, by simp [HoldsCommand], ?_, congrArg Prod.snd (serveBatch_invalid _ _ rfl)⟩
  exact ⟨rfl, rfl, rfl⟩

end StrictService

end RateLimit
