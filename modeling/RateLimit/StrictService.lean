import RateLimit.AtomicStore
import RateLimit.LeaseState

/-! The strict service: `strict_service.go`, `strict_lease.go`, `strict_errors.go` and
`AdmitAtomicBatch`. A backend may return any value with any error. The service passes
on a complete result, or a declaration that comes directly from this package; whatever
else it gets is an unknown outcome. Observers see what is returned and change nothing,
so they are left out, as are the clock readings for them. -/
namespace RateLimit

open Postgres (AtomicBatchDecision)

/-! ## Errors -/

/-- `strictOutcomeKind`. -/
inductive OutcomeKind where
  | unset | canceled | deadline | unknown
  deriving DecidableEq, Repr

/-- `strictOutcomeError`. -/
structure OutcomeError where
  kind : OutcomeKind
  context : OutcomeKind := .unset
  deriving DecidableEq, Repr

/-- `BackendError`: `NewBackendError` puts a safe category in, the zero value has none. -/
structure BackendError where
  category : Option Sentinel
  deriving DecidableEq, Repr

/-- An error that is not nil. The two pointer types of this package may hold nil;
`foreign` is any other value, however it wraps or imitates those of this package. -/
inductive GoError where
  | sentinel (error : Sentinel)
  | wrapped (error : WrappedError)
  | outcome (pointer : Option OutcomeError)
  | backendError (pointer : Option BackendError)
  | foreign (identity : Nat)
  deriving DecidableEq, Repr

/-- What `ctx.Err()` says; a foreign context may give an error of its own. -/
inductive CallerState where
  | live | canceled | expired | foreign
  deriving DecidableEq, Repr

def canceledOutcome : OutcomeError := ⟨.canceled, .unset⟩

def deadlineOutcome : OutcomeError := ⟨.deadline, .unset⟩

def unknownOutcome : CallerState → OutcomeError
  | .canceled => ⟨.unknown, .canceled⟩
  | .expired => ⟨.unknown, .deadline⟩
  | .live | .foreign => ⟨.unknown, .unset⟩

def OutcomeError.error (outcome : OutcomeError) : GoError := .outcome (some outcome)

def reconstructUnknown (outcome : OutcomeError) : OutcomeError :=
  match outcome.context with
  | .canceled => unknownOutcome .canceled
  | .deadline => unknownOutcome .expired
  | .unset | .unknown => unknownOutcome .live

/-- `safeBackendCategory`, of a variable of `errors.go`; no other error is direct. -/
def safeBackendCategory : Sentinel → Bool
  | .rejected | .unavailable | .overflow | .corrupt | .unsupported | .leaseNotFound | .leaseNotOwned => true
  | .invalidPolicy | .invalidKey | .invalidRequest | .deadline => false

/-- `declarationKind` with what was declared. -/
inductive Declaration where
  | declarationUnsafe
  | declarationSafe (category : Sentinel)
  | declarationOutcome (outcome : OutcomeError)
  deriving DecidableEq, Repr

def strictDeclaration : Option GoError → Declaration
  | some (.outcome (some outcome)) => .declarationOutcome outcome
  | some (.sentinel error) => if safeBackendCategory error then .declarationSafe error else .declarationUnsafe
  | some (.backendError (some ⟨some category⟩)) =>
    if safeBackendCategory category then .declarationSafe category else .declarationUnsafe
  | _ => .declarationUnsafe

inductive StrictMethod where
  | strictMethodAdmit | strictMethodAcquire | strictMethodRelease
  deriving DecidableEq, Repr

def applicableCategory (category : Sentinel) : StrictMethod → Bool
  | .strictMethodAdmit => [.rejected, .unavailable, .overflow, .corrupt, .unsupported].contains category
  | .strictMethodAcquire => [.rejected, .unavailable, .overflow, .corrupt, .leaseNotOwned].contains category
  | .strictMethodRelease => [.unavailable, .corrupt, .leaseNotFound, .leaseNotOwned].contains category

def strictCallerContext : CallerState → Option OutcomeError
  | .canceled => some canceledOutcome
  | .expired => some deadlineOutcome
  | .live | .foreign => none

/-! ## Decisions -/

/-- `ReasonCanceled`. -/
def Reason.canceled : Reason := .other (.ofLiteral "canceled")

/-- `ReasonDeadline`. -/
def Reason.deadline : Reason := .other (.ofLiteral "deadline")

/-- `ReasonOutcomeUnknown`. -/
def Reason.outcomeUnknown : Reason := .other (.ofLiteral "outcome_unknown")

def contextReason (outcome : OutcomeError) : Reason :=
  if outcome.kind = .canceled then .canceled else .deadline

instance (decision : Decision) (request : Request) : Decidable (completeAllowed decision request) :=
  inferInstanceAs (Decidable (_ ∧ _ ∧ _ ∧ _ ∧ _ ∧ _))

instance (decision : Decision) (request : Request) : Decidable (completeRejected decision request) :=
  inferInstanceAs (Decidable (_ ∧ _ ∧ _ ∧ _ ∧ _ ∧ _))

/-- A value with a time in it as a backend hands it over. `==` also compares where the
time is located: the zero instant in a location is not the zero value. -/
structure Raw (α : Type) where
  value : α
  located : Bool := false
  deriving DecidableEq

def zeroDecision (raw : Raw Decision) : Bool := decide (raw.value = {}) && !raw.located

def zeroLease (raw : Raw Lease) : Bool := decide (raw.value = {}) && !raw.located

/-- The policy lets a failure before dispatch, or of the backend, pass. -/
def Request.failsOpen (request : Request) : Bool :=
  decide (request.policy.failureMode = .failOpen) && decide (request.policy.algorithm ≠ .concurrency)

def strictFailOpen (request : Request) : Decision :=
  { allowed := true, limit := request.policy.limit, remaining := request.policy.limit, reason := .failOpen }

def strictDenied (request : Request) (reason : Reason) : Decision :=
  { allowed := false, limit := request.policy.limit, reason := reason }

def strictDeadlineFailOpen (request : Request) (outcome : OutcomeError) : Bool :=
  decide (outcome.kind = .deadline) && request.failsOpen

/-! ## The service -/

def maxBackendNameBytes : Nat := 64

/-- The loop of `validBackendName`. -/
def backendNameBytes : GoString → Bool → Bool
  | [], previousHyphen => !previousHyphen
  | current :: rest, previousHyphen =>
    if current = 45 then !previousHyphen && backendNameBytes rest true
    else if (current < 97 || current > 122) && (current < 48 || current > 57) then false
    else backendNameBytes rest false

def validBackendName : GoString → Bool
  | [] => false
  | first :: rest =>
    if decide ((first :: rest).length > maxBackendNameBytes) || first < 97 || first > 122 then false
    else backendNameBytes (first :: rest) false

/-- `StrictService`, as `NewStrictService` builds it: with the name of its backend. -/
structure StrictService where
  name : GoString
  valid : validBackendName name = true

namespace StrictService

variable (service : StrictService)

def stampDecision (decision : Decision) (request : Request) : Decision :=
  { decision with backend := service.name, policyRevision := request.policy.revision }

def deny (request : Request) (reason : Reason) : Decision :=
  service.stampDecision (strictDenied request reason) request

/-- `unknownDecision`, with what the context says after the call. -/
def unknownDecision (after : CallerState) (request : Request) : Decision × Option GoError :=
  (service.deny request .outcomeUnknown, some (unknownOutcome after).error)

def normalizeAdmit (after : CallerState) (request : Request) (raw : Raw Decision) (rawErr : Option GoError) :
    Decision × Option GoError :=
  if rawErr = none ∧ completeAllowed raw.value request then (service.stampDecision raw.value request, none)
  else match strictDeclaration rawErr with
    | .declarationUnsafe => service.unknownDecision after request
    | .declarationOutcome outcome =>
      if zeroDecision raw then
        match outcome.kind with
        | .canceled => (service.deny request .canceled, some canceledOutcome.error)
        | .deadline =>
          if request.failsOpen then (service.stampDecision (strictFailOpen request) request, none)
          else (service.deny request .deadline, some deadlineOutcome.error)
        | .unknown => (service.deny request .outcomeUnknown, some (reconstructUnknown outcome).error)
        | .unset => service.unknownDecision after request
      else service.unknownDecision after request
    | .declarationSafe category =>
      if category = .rejected then
        if completeRejected raw.value request then (service.stampDecision raw.value request, rawErr)
        else service.unknownDecision after request
      else if applicableCategory category .strictMethodAdmit && zeroDecision raw then
        if category = .unavailable ∧ request.failsOpen = true then
          (service.stampDecision (strictFailOpen request) request, none)
        else (service.deny request .backendUnavailable, rawErr)
      else service.unknownDecision after request

/-- What `admit` returns, with the calls of the backend that it makes. -/
structure Admission where
  decision : Decision
  error : Option GoError
  dispatched : Bool
  calls : List Request

/-- `admit`, for a service and a context that are not nil. -/
def admitRequest (before after : CallerState) (request : Request) (validated : Bool) (raw : Raw Decision)
    (rawErr : Option GoError) : Admission :=
  match validated, request.validate with
  | false, .error problem => ⟨{}, some (.wrapped problem), false, []⟩
  | _, _ =>
    match strictCallerContext before with
    | some outcome =>
      if validated then ⟨{}, some outcome.error, false, []⟩
      else if strictDeadlineFailOpen request outcome then
        ⟨service.stampDecision (strictFailOpen request) request, none, false, []⟩
      else ⟨service.deny request (contextReason outcome), some outcome.error, false, []⟩
    | none =>
      -- Here is `service.backend.AdmitStrict`, which returns `raw` and `rawErr`.
      let (decision, error) := service.normalizeAdmit after request raw rawErr
      ⟨decision, error, true, [request]⟩

/-! ## Leases -/

def completeLease (lease : Lease) (decision : Decision) (request : LeaseRequest) : Prop :=
  lease.id = request.leaseID ∧ lease.key = request.request.key ∧
    lease.policyID = request.request.policy.id ∧ lease.policyRevision = request.request.policy.revision ∧
    lease.cost = request.request.cost ∧ lease.expiresAt ≠ Time.zero ∧ lease.expiresAt = decision.reset

instance (lease : Lease) (decision : Decision) (request : LeaseRequest) :
    Decidable (completeLease lease decision request) :=
  inferInstanceAs (Decidable (_ ∧ _ ∧ _ ∧ _ ∧ _ ∧ _ ∧ _))

/-- What `Acquire` returns. -/
structure Acquisition where
  lease : Lease
  decision : Decision
  error : Option GoError

def unknownAcquisition (after : CallerState) (request : Request) : Acquisition :=
  ⟨{}, (service.unknownDecision after request).1, (service.unknownDecision after request).2⟩

def normalizeAcquire (after : CallerState) (request : LeaseRequest) (rawLease : Raw Lease)
    (rawDecision : Raw Decision) (rawErr : Option GoError) : Acquisition :=
  if rawErr = none ∧ completeAllowed rawDecision.value request.request ∧
      completeLease rawLease.value rawDecision.value request then
    ⟨{ rawLease.value with backend := service.name },
      service.stampDecision rawDecision.value request.request, none⟩
  else match strictDeclaration rawErr with
    | .declarationUnsafe => service.unknownAcquisition after request.request
    | .declarationOutcome outcome =>
      if zeroLease rawLease && zeroDecision rawDecision then
        if outcome.kind = .unknown then
          ⟨{}, service.deny request.request .outcomeUnknown, some (reconstructUnknown outcome).error⟩
        else
          ⟨{}, service.deny request.request (contextReason outcome),
            some (if outcome.kind = .canceled then canceledOutcome else deadlineOutcome).error⟩
      else service.unknownAcquisition after request.request
    | .declarationSafe category =>
      if category = .rejected then
        if zeroLease rawLease = true ∧ completeRejected rawDecision.value request.request then
          ⟨{}, service.stampDecision rawDecision.value request.request, rawErr⟩
        else service.unknownAcquisition after request.request
      else if applicableCategory category .strictMethodAcquire && zeroLease rawLease && zeroDecision rawDecision then
        ⟨{}, service.deny request.request .backendUnavailable, rawErr⟩
      else service.unknownAcquisition after request.request

/-- `Acquire`. There is no reply from a backend without strict leases. -/
def acquire (before after : CallerState) (request : LeaseRequest)
    (reply : Option (Raw Lease × Raw Decision × Option GoError)) : Acquisition :=
  match request.validate, strictCallerContext before, reply with
  | .error problem, _, _ => ⟨{}, {}, some (.wrapped problem)⟩
  | .ok (), some outcome, _ => ⟨{}, service.deny request.request (contextReason outcome), some outcome.error⟩
  | .ok (), none, none =>
    ⟨{}, {}, some (.wrapped ⟨.unsupported, "backend does not guarantee strict leases"⟩)⟩
  | .ok (), none, some (rawLease, rawDecision, rawErr) =>
    service.normalizeAcquire after request rawLease rawDecision rawErr

def validateStrictLease (lease : Lease) : Option WrappedError :=
  if lease.id = [] ∨ lease.key.value = [] ∨ lease.policyID = [] ∨ lease.cost = 0 ∨ lease.expiresAt = Time.zero then
    some ⟨.invalidRequest, "complete lease is required"⟩
  else none

/-- The end of `Release`. -/
def normalizeRelease (after : CallerState) (rawErr : Option GoError) : Option GoError :=
  match rawErr, strictDeclaration rawErr with
  | none, _ => none
  | _, .declarationUnsafe => some (unknownOutcome after).error
  | _, .declarationOutcome outcome =>
    match outcome.kind with
    | .canceled => some canceledOutcome.error
    | .deadline => some deadlineOutcome.error
    | .unknown => some (reconstructUnknown outcome).error
    | .unset => some (unknownOutcome after).error
  | _, .declarationSafe category =>
    if applicableCategory category .strictMethodRelease then rawErr else some (unknownOutcome after).error

/-- `Release`. There is no reply from a backend without strict leases. -/
def release (before after : CallerState) (lease : Lease) (reply : Option (Option GoError)) : Option GoError :=
  match validateStrictLease lease with
  | some problem => some (.wrapped problem)
  | none =>
    if lease.backend ≠ [] ∧ lease.backend ≠ service.name then some (.sentinel .leaseNotOwned)
    else match strictCallerContext before, reply with
      | some outcome, _ => some outcome.error
      | none, none => some (.wrapped ⟨.unsupported, "backend does not guarantee strict leases"⟩)
      | none, some rawErr => normalizeRelease after rawErr

/-! ## Atomic batches -/

/-- What a backend makes of an atomic batch. -/
inductive BatchReply where
  | unsupported
  | panicked
  | returned (raw : AtomicBatchDecision) (rawErr : Option GoError)

/-- A decision on a bucket that another one of the batch kept from being debited. -/
def completeAtomicRejected (decision : Decision) (request : Request) : Prop :=
  decision.allowed = false ∧ decision.reason = .atomicRejected ∧ decision.limit = request.policy.limit ∧
    decision.remaining ≥ request.cost ∧ decision.remaining ≤ request.policy.limit ∧
    decision.reset ≠ Time.zero ∧ decision.retryAfter.nanos = 0

instance (decision : Decision) (request : Request) : Decidable (completeAtomicRejected decision request) :=
  inferInstanceAs (Decidable (_ ∧ _ ∧ _ ∧ _ ∧ _ ∧ _ ∧ _))

/-- The loop of `AdmitAtomicBatch`: whether a bucket was exhausted, and whether every
decision is complete. -/
def checkDecisions (allowed : Bool) : List (Decision × Request) → Bool → Bool → Bool × Bool
  | [], rejected, valid => (rejected, valid)
  | (decision, request) :: rest, rejected, valid =>
    if allowed then checkDecisions allowed rest rejected (valid && decide (completeAllowed decision request))
    else if completeRejected decision request then checkDecisions allowed rest true valid
    else checkDecisions allowed rest rejected (valid && decide (completeAtomicRejected decision request))

/-- The decisions are one complete result, of the batch and of the error. -/
def completeBatch (batch : AtomicBatchRequest) (raw : AtomicBatchDecision) (rawErr : Option GoError) : Bool :=
  let (rejected, valid) := checkDecisions raw.allowed (raw.decisions.zip batch.requests) false true
  decide (raw.commandID = batch.commandID) && decide (raw.decisions.length = batch.requests.length) && valid &&
    (raw.allowed && decide (rawErr = none) ||
      !raw.allowed && rejected && decide (strictDeclaration rawErr = .declarationSafe .rejected))

/-- `AdmitAtomicBatch` after the backend has returned. -/
def normalizeBatch (after : CallerState) (batch : AtomicBatchRequest) (raw : AtomicBatchDecision)
    (rawErr : Option GoError) : AtomicBatchDecision × Option GoError :=
  let command : AtomicBatchDecision := { commandID := batch.commandID }
  if completeBatch batch raw rawErr then
    ({ raw with decisions := raw.decisions.zipWith service.stampDecision batch.requests }, rawErr)
  else if raw.commandID = [] ∧ raw.allowed = false ∧ raw.decisions = [] then
    match strictDeclaration rawErr with
    | .declarationOutcome _ => (command, rawErr)
    | .declarationSafe category =>
      if category ≠ .rejected ∧ applicableCategory category .strictMethodAdmit = true then (command, rawErr)
      else (command, some (unknownOutcome after).error)
    | .declarationUnsafe => (command, some (unknownOutcome after).error)
  else (command, some (unknownOutcome after).error)

def admitAtomicBatch (before after : CallerState) (batch : AtomicBatchRequest) (reply : BatchReply) :
    AtomicBatchDecision × Option GoError :=
  match batch.validate, strictCallerContext before, reply with
  | some problem, _, _ => ({}, some (.sentinel problem))
  | none, some outcome, _ => ({}, some outcome.error)
  | none, none, .unsupported => ({}, some (.sentinel .unsupported))
  | none, none, .panicked => ({ commandID := batch.commandID }, some (unknownOutcome after).error)
  | none, none, .returned raw rawErr => service.normalizeBatch after batch raw rawErr

/-! ## Failing closed -/

theorem strictDeclaration_outcome (declared : strictDeclaration rawErr = .declarationOutcome outcome) :
    rawErr = some outcome.error := by
  unfold strictDeclaration at declared
  split at declared
  · cases declared
    rfl
  · split at declared <;> cases declared
  · split at declared <;> cases declared
  · cases declared

theorem strictDeclaration_safe (declared : strictDeclaration rawErr = .declarationSafe category) :
    rawErr = some (.sentinel category) ∨ rawErr = some (.backendError (some ⟨some category⟩)) := by
  unfold strictDeclaration at declared
  split at declared
  · cases declared
  · split at declared
    · cases declared
      exact Or.inl rfl
    · cases declared
  · split at declared
    · cases declared
      exact Or.inr rfl
    · cases declared
  · cases declared

/-- An error that is a declaration of a category is not an outcome. -/
theorem strictDeclaration_plain (declared : strictDeclaration rawErr = .declarationSafe category) :
    ∃ error, rawErr = some error ∧ ∀ outcome, error ≠ .outcome outcome := by
  rcases strictDeclaration_safe declared with rfl | rfl
  · exact ⟨_, rfl, by simp⟩
  · exact ⟨_, rfl, by simp⟩

/-- How a decision goes with its error: only an allowed decision comes without one, and
a canceled or unknown outcome denies the request under its own reason. -/
structure Closed (request : Request) (decision : Decision) (error : Option GoError) : Prop where
  granted : decision.allowed = true ↔ error = none
  canceled : ∀ outcome : OutcomeError, error = some outcome.error → outcome.kind = .canceled →
    decision = service.deny request .canceled
  unknown : ∀ outcome : OutcomeError, error = some outcome.error → outcome.kind = .unknown →
    decision = service.deny request .outcomeUnknown

variable {service}

theorem closed_granted (allowed : decision.allowed = true) : service.Closed request decision none :=
  ⟨by simp [allowed], by simp, by simp⟩

theorem closed_refused (denied : decision.allowed = false) (plain : ∀ outcome, error ≠ .outcome outcome) :
    service.Closed request decision (some error) := by
  refine ⟨by simp [denied], ?_, ?_⟩
  · intro outcome same
    exact absurd (Option.some.inj same) (plain _)
  · intro outcome same
    exact absurd (Option.some.inj same) (plain _)

theorem closed_denied {outcome : OutcomeError} (canceled : outcome.kind = .canceled → reason = .canceled)
    (unknown : outcome.kind = .unknown → reason = .outcomeUnknown) :
    service.Closed request (service.deny request reason) (some outcome.error) := by
  refine ⟨by simp [deny, strictDenied, stampDecision], ?_, ?_⟩
  · rintro other ⟨⟩ kind
    rw [canceled kind]
  · rintro other ⟨⟩ kind
    rw [unknown kind]

theorem unknownOutcome_kind (state : CallerState) : (unknownOutcome state).kind = .unknown := by
  cases state <;> rfl

theorem reconstructUnknown_kind (outcome : OutcomeError) : (reconstructUnknown outcome).kind = .unknown := by
  unfold reconstructUnknown
  split <;> exact unknownOutcome_kind _

theorem closed_unknown {outcome : OutcomeError} (kind : outcome.kind = .unknown) :
    service.Closed request (service.deny request .outcomeUnknown) (some outcome.error) :=
  closed_denied (fun other => by rw [kind] at other; cases other) fun _ => rfl

theorem closed_before (stopped : strictCallerContext before = some outcome) :
    service.Closed request (service.deny request (contextReason outcome)) (some outcome.error) := by
  apply closed_denied
  · intro kind
    rw [contextReason, if_pos kind]
  · intro kind
    cases before <;> cases stopped <;> cases kind

/-- Why an admission may be allowed, by whether the backend was called. -/
inductive Ground (before : CallerState) (request : Request) (raw : Raw Decision) (rawErr : Option GoError) :
    Bool → Prop where
  | complete (returned : rawErr = none) (complete : completeAllowed raw.value request) :
    Ground before request raw rawErr true
  | expired (opens : request.failsOpen = true) (past : before = .expired) : Ground before request raw rawErr false
  | deadline (opens : request.failsOpen = true) (zero : zeroDecision raw = true) (context : OutcomeKind)
    (direct : rawErr = some (.outcome (some ⟨.deadline, context⟩))) : Ground before request raw rawErr true
  | unavailable (opens : request.failsOpen = true) (zero : zeroDecision raw = true)
    (direct : rawErr = some (.sentinel .unavailable) ∨ rawErr = some (.backendError (some ⟨some .unavailable⟩))) :
    Ground before request raw rawErr true

theorem normalizeAdmit_closed (before after : CallerState) (request : Request) (raw : Raw Decision)
    (rawErr : Option GoError) :
    let result := service.normalizeAdmit after request raw rawErr
    service.Closed request result.1 result.2 ∧
      (result.1.allowed = true → Ground before request raw rawErr true) := by
  have unknown : service.Closed request (service.unknownDecision after request).1
      (service.unknownDecision after request).2 ∧
      ((service.unknownDecision after request).1.allowed = true → Ground before request raw rawErr true) :=
    ⟨closed_unknown (unknownOutcome_kind after), fun allowed => by cases allowed⟩
  unfold normalizeAdmit
  split
  · rename_i granted
    exact ⟨closed_granted granted.2.1, fun _ => .complete granted.1 granted.2⟩
  cases declared : strictDeclaration rawErr with
  | declarationUnsafe => exact unknown
  | declarationOutcome outcome =>
    have direct := strictDeclaration_outcome declared
    obtain ⟨kind, context⟩ := outcome
    dsimp only
    split
    · rename_i zero
      cases kind with
      | canceled => exact ⟨closed_denied (fun _ => rfl) (fun other => by cases other), fun allowed => by cases allowed⟩
      | deadline =>
        dsimp only
        split
        · rename_i opens
          exact ⟨closed_granted rfl, fun _ => .deadline opens zero context direct⟩
        · exact ⟨closed_denied (fun other => by cases other) (fun other => by cases other),
            fun allowed => by cases allowed⟩
      | unknown => exact ⟨closed_unknown (reconstructUnknown_kind _), fun allowed => by cases allowed⟩
      | unset => exact unknown
    · exact unknown
  | declarationSafe category =>
    obtain ⟨error, rfl, plain⟩ := strictDeclaration_plain declared
    dsimp only
    split
    · split
      · rename_i rejected
        exact ⟨closed_refused rejected.1 plain, fun allowed => by cases rejected.1.symm.trans allowed⟩
      · exact unknown
    split
    · rename_i zero
      split
      · rename_i opens
        obtain ⟨rfl, opens⟩ := opens
        exact ⟨closed_granted rfl, fun _ => .unavailable opens (Bool.and_eq_true _ _ ▸ zero).2
          (strictDeclaration_safe declared)⟩
      · exact ⟨closed_refused rfl plain, fun allowed => by cases allowed⟩
    · exact unknown

theorem admit_closed (request : ValidRequest) (before after : CallerState) (raw : Raw Decision)
    (rawErr : Option GoError) :
    let result := service.admitRequest before after request.toRequest false raw rawErr
    service.Closed request.toRequest result.decision result.error ∧
      (result.decision.allowed = true → Ground before request.toRequest raw rawErr result.dispatched) := by
  unfold admitRequest
  rw [request.accepted]
  cases stopped : strictCallerContext before with
  | none => exact normalizeAdmit_closed before after request.toRequest raw rawErr
  | some outcome =>
    dsimp only
    rw [if_neg (by simp)]
    split
    · rename_i opens
      rw [strictDeadlineFailOpen, Bool.and_eq_true, decide_eq_true_eq] at opens
      obtain ⟨late, opens⟩ := opens
      refine ⟨closed_granted rfl, fun _ => .expired opens ?_⟩
      cases before <;> cases stopped
      · cases late
      · rfl
    · exact ⟨closed_before stopped, fun allowed => by cases allowed⟩

/-- A granted lease is the one that was asked for, until the reset of the decision. -/
structure Granted (request : LeaseRequest) (result : Acquisition) : Prop where
  id : result.lease.id = request.leaseID
  key : result.lease.key = request.request.key
  policyID : result.lease.policyID = request.request.policy.id
  policyRevision : result.lease.policyRevision = request.request.policy.revision
  cost : result.lease.cost = request.request.cost
  expiresAt : result.lease.expiresAt = result.decision.reset

/-- An acquisition hands out a lease exactly when it is allowed without an error. -/
structure AcquiredClosed (service : StrictService) (request : LeaseRequest) (result : Acquisition) : Prop where
  closed : service.Closed request.request result.decision result.error
  leased : result.lease ≠ {} ↔ result.error = none ∧ result.decision.allowed = true
  granted : result.lease ≠ {} → Granted request result

theorem acquired_nothing {request : LeaseRequest} (failed : error ≠ none)
    (closed : service.Closed request.request decision error) :
    AcquiredClosed service request ⟨{}, decision, error⟩ :=
  ⟨closed, ⟨fun other => absurd rfl other, fun other => absurd other.1 failed⟩,
    fun other => absurd rfl other⟩

theorem normalizeAcquire_closed (after : CallerState) (request : ValidLeaseRequest) (rawLease : Raw Lease)
    (rawDecision : Raw Decision) (rawErr : Option GoError) :
    AcquiredClosed service request.toLeaseRequest
      (service.normalizeAcquire after request.toLeaseRequest rawLease rawDecision rawErr) := by
  have unknown : AcquiredClosed service request.toLeaseRequest (service.unknownAcquisition after request.request) :=
    acquired_nothing (by simp [unknownDecision]) (closed_unknown (unknownOutcome_kind after))
  unfold normalizeAcquire
  split
  · rename_i complete
    obtain ⟨-, allowed, id, key, policy, revision, cost, -, expires⟩ := complete
    refine ⟨closed_granted allowed.1, ⟨fun _ => ⟨rfl, allowed.1⟩, fun _ zero => ?_⟩,
      fun _ => ⟨id, key, policy, revision, cost, expires⟩⟩
    have named : rawLease.value.id = [] := congrArg Lease.id zero
    exact request.checked.2.2 (id.symm.trans named)
  cases declared : strictDeclaration rawErr with
  | declarationUnsafe => exact unknown
  | declarationOutcome outcome =>
    dsimp only
    split
    · split
      · exact acquired_nothing (by simp) (closed_unknown (reconstructUnknown_kind _))
      · refine acquired_nothing (by simp) (closed_denied (fun kind => ?_) fun kind => ?_)
        · split at kind
          · rename_i canceled
            rw [contextReason, if_pos canceled]
          · cases kind
        · split at kind <;> cases kind
    · exact unknown
  | declarationSafe category =>
    obtain ⟨error, rfl, plain⟩ := strictDeclaration_plain declared
    dsimp only
    split
    · split
      · rename_i rejected
        exact acquired_nothing (by simp) (closed_refused rejected.2.1 plain)
      · exact unknown
    split
    · exact acquired_nothing (by simp) (closed_refused rfl plain)
    · exact unknown

theorem acquire_closed (request : ValidLeaseRequest) (before after : CallerState)
    (reply : Option (Raw Lease × Raw Decision × Option GoError)) :
    AcquiredClosed service request.toLeaseRequest (service.acquire before after request.toLeaseRequest reply) := by
  unfold acquire
  rw [request.accepted]
  cases stopped : strictCallerContext before with
  | some outcome => exact acquired_nothing (by simp) (closed_before stopped)
  | none =>
    cases reply with
    | none => exact acquired_nothing (by simp) (closed_refused rfl (by simp))
    | some reply =>
      obtain ⟨rawLease, rawDecision, rawErr⟩ := reply
      exact normalizeAcquire_closed after request rawLease rawDecision rawErr

/-- A batch is allowed only without an error, under its own command and with one complete
decision for each request; a canceled or unknown outcome says nothing but the command. -/
structure BatchClosed (batch : AtomicBatchRequest) (result : AtomicBatchDecision × Option GoError) : Prop where
  granted : result.1.allowed = true → result.2 = none ∧ result.1.commandID = batch.commandID ∧
    List.Forall₂ completeAllowed result.1.decisions batch.requests
  uncertain : ∀ outcome : OutcomeError, result.2 = some outcome.error →
    outcome.kind = .canceled ∨ outcome.kind = .unknown → result.1.allowed = false ∧ result.1.decisions = []

theorem batch_nothing (denied : decision.allowed = false) (empty : decision.decisions = []) :
    BatchClosed batch (decision, error) := by
  refine ⟨fun allowed => ?_, fun _ _ _ => ⟨denied, empty⟩⟩
  cases denied.symm.trans allowed

theorem checkDecisions_allowed {pairs : List (Decision × Request)}
    (valid : (checkDecisions true pairs rejected fine).2 = true) :
    fine = true ∧ ∀ decision request, (decision, request) ∈ pairs → completeAllowed decision request := by
  induction pairs generalizing fine with
  | nil => exact ⟨valid, by simp⟩
  | cons pair rest ih =>
    rw [checkDecisions, if_pos rfl] at valid
    obtain ⟨here, later⟩ := ih valid
    rw [Bool.and_eq_true, decide_eq_true_eq] at here
    refine ⟨here.1, fun other owner member => ?_⟩
    rcases List.mem_cons.mp member with same | member
    · cases same
      exact here.2
    · exact later other owner member

theorem stamped_complete (complete : List.Forall₂ completeAllowed decisions requests) :
    List.Forall₂ completeAllowed (decisions.zipWith service.stampDecision requests) requests := by
  induction complete with
  | nil => exact .nil
  | cons first rest ih => exact .cons first ih

theorem normalizeBatch_closed (after : CallerState) (batch : AtomicBatchRequest) (raw : AtomicBatchDecision)
    (rawErr : Option GoError) : BatchClosed batch (service.normalizeBatch after batch raw rawErr) := by
  unfold normalizeBatch
  split
  · rename_i complete
    simp only [completeBatch, Bool.and_eq_true, Bool.or_eq_true, decide_eq_true_eq, Bool.not_eq_true'] at complete
    obtain ⟨⟨⟨command, count⟩, valid⟩, answer⟩ := complete
    constructor
    · intro allowed
      rcases answer with ⟨-, returned⟩ | ⟨⟨denied, -⟩, -⟩
      · rw [show raw.allowed = true from allowed] at valid
        refine ⟨returned, command, stamped_complete (List.forall₂_iff_zip.mpr ⟨count, ?_⟩)⟩
        intro decision request member
        exact (checkDecisions_allowed valid).2 decision request member
      · rw [show raw.allowed = true from allowed] at denied
        cases denied
    · intro outcome same
      rcases answer with ⟨-, returned⟩ | ⟨-, declared⟩
      · rw [show rawErr = _ from same] at returned
        cases returned
      · obtain ⟨error, told, plain⟩ := strictDeclaration_plain declared
        exact absurd (Option.some.inj (told.symm.trans same)) (plain _)
  · split
    · split
      · exact batch_nothing rfl rfl
      · split
        · exact batch_nothing rfl rfl
        · exact batch_nothing rfl rfl
      · exact batch_nothing rfl rfl
    · exact batch_nothing rfl rfl

theorem admitAtomicBatch_closed (before after : CallerState) (batch : ValidBatch) (reply : BatchReply) :
    BatchClosed batch.toAtomicBatchRequest
      (service.admitAtomicBatch before after batch.toAtomicBatchRequest reply) := by
  unfold admitAtomicBatch
  rw [batch.accepted]
  cases strictCallerContext before with
  | some outcome => exact batch_nothing rfl rfl
  | none =>
    cases reply with
    | unsupported => exact batch_nothing rfl rfl
    | panicked => exact batch_nothing rfl rfl
    | returned raw rawErr => exact normalizeBatch_closed after _ raw rawErr

/-- The strict service fails closed, whatever a backend returns. An admission is allowed
exactly when it has no error, and only on a ground; a lease is handed out exactly with
an allowed decision, and is the one asked for; a batch is allowed only with one complete
decision for each request. A canceled or unknown outcome grants nothing. -/
theorem strict_service_fails_closed (service : StrictService) (before after : CallerState) :
    (∀ (request : ValidRequest) (raw : Raw Decision) (rawErr : Option GoError),
      let result := service.admitRequest before after request.toRequest false raw rawErr
      service.Closed request.toRequest result.decision result.error ∧
        (result.decision.allowed = true → Ground before request.toRequest raw rawErr result.dispatched)) ∧
      (∀ (request : ValidLeaseRequest) (reply : Option (Raw Lease × Raw Decision × Option GoError)),
        AcquiredClosed service request.toLeaseRequest (service.acquire before after request.toLeaseRequest reply)) ∧
      ∀ (batch : ValidBatch) (reply : BatchReply), BatchClosed batch.toAtomicBatchRequest
        (service.admitAtomicBatch before after batch.toAtomicBatchRequest reply) :=
  ⟨fun request raw rawErr => admit_closed request before after raw rawErr,
    fun request reply => acquire_closed request before after reply,
    fun batch reply => admitAtomicBatch_closed before after batch reply⟩

end StrictService

end RateLimit
