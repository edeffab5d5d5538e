import RateLimit.Decimal
import RateLimit.StrictService

/-! Batches without atomicity: `StrictService.Batch` and the errors it returns. The items
are admitted one after the other. The loop stops where the caller's context is done
before an item, at its own check or at the one of `admit`, or after an item whose outcome
is unknown. Callers reconcile real debits from the indexes it reports, so these must say
exactly what was dispatched. -/
namespace RateLimit

/-! ## Error texts -/

/-- The texts of `errors.go`. -/
def Sentinel.text : Sentinel → String
  | .rejected => "rate limit rejected"
  | .invalidPolicy => "invalid rate limit policy"
  | .invalidKey => "invalid rate limit key"
  | .invalidRequest => "invalid rate limit request"
  | .unavailable => "rate limit backend unavailable"
  | .deadline => "rate limit deadline exceeded"
  | .overflow => "rate limit arithmetic overflow"
  | .corrupt => "rate limit state corrupt"
  | .unsupported => "rate limit operation unsupported"
  | .leaseNotFound => "rate limit lease not found"
  | .leaseNotOwned => "rate limit lease not owned"

/-- `strictOutcomeError.Error`, of a pointer that is not nil. -/
def OutcomeError.text (outcome : OutcomeError) : String :=
  match outcome.kind with
  | .canceled => "rate limit canceled"
  | .deadline => Sentinel.deadline.text
  | .unknown => "rate limit outcome unknown"
  | .unset => "rate limit outcome error"

/-- `BackendError.Error`, of a pointer that is not nil. -/
def BackendError.text (error : BackendError) : String :=
  match error.category with
  | some category => category.text
  | none => "rate limit backend error"

/-- `Error` of an error value; one that is not of this package has a text of its own. -/
def GoError.text (foreignText : Nat → GoString) : GoError → GoString
  | .sentinel error => .ofLiteral error.text
  | .wrapped error => .ofLiteral (error.sentinel.text ++ ": " ++ error.detail)
  | .outcome (some declared) => .ofLiteral declared.text
  | .outcome none => .ofLiteral "rate limit outcome error"
  | .backendError (some error) => .ofLiteral error.text
  | .backendError none => .ofLiteral "rate limit backend error"
  | .foreign identity => foreignText identity

structure BatchItemError where
  index : Nat
  cause : Option GoError
  deriving DecidableEq, Repr

/-- `BatchItemError.Error`. -/
def BatchItemError.text (foreignText : Nat → GoString) (item : BatchItemError) : GoString :=
  match item.cause with
  | none => .ofLiteral "item error"
  | some cause => .ofLiteral "item " ++ Decimal.ofNat item.index ++ .ofLiteral ": " ++ cause.text foreignText

/-- `StrictBatchError.Error`. -/
def batchErrorText (foreignText : Nat → GoString) (items : List BatchItemError) : GoString :=
  if items = [] then .ofLiteral "batch error"
  else List.intercalate [10] (items.map (BatchItemError.text foreignText))

def maxStrictBatchErrorBytes : Nat := 11007

/-! ## Batches -/

inductive Atomicity where
  | perItem | allOrNothing
  | other (name : GoString)
  deriving DecidableEq, Repr

structure BatchRequest where
  requests : List Request
  atomicity : Atomicity

def maxBatchSize : Nat := 256

/-- The loop of `validateBatch`. -/
def validateRequests : List Request → Option WrappedError
  | [] => none
  | request :: rest =>
    match request.validate with
    | .error problem => some problem
    | .ok () => validateRequests rest

def validateBatch (batch : BatchRequest) : Option WrappedError :=
  if batch.requests.length = 0 ∨ batch.requests.length > maxBatchSize then
    some ⟨.invalidRequest, "batch size must be between 1 and 256"⟩
  else if batch.atomicity = .allOrNothing then some ⟨.unsupported, "backend-independent batches are per-item"⟩
  else if batch.atomicity ≠ .perItem then some ⟨.invalidRequest, "unknown batch atomicity"⟩
  else validateRequests batch.requests

/-- A batch that `Batch` goes on to dispatch. -/
structure ItemBatch extends BatchRequest where
  accepted : validateBatch toBatchRequest = none

structure StrictBatchDecision where
  decisions : List Decision := []
  attempted : List Nat := []
  atomicity : Atomicity := .other []

/-- An error of `Batch`. -/
inductive BatchFailure where
  | invalid (problem : WrappedError)
  | failed (items : List BatchItemError)

/-- What goes on around an item: what the context says when the loop and when `admit`
check it, after the call of the backend and at the last check, and what the backend
returns if it is called. -/
structure Turn where
  head : CallerState
  entry : CallerState
  after : CallerState
  last : CallerState
  raw : Raw Decision
  rawErr : Option GoError

/-- One of the two checks of the context before the call of the backend fails. -/
def Turn.stops (turn : Turn) : Bool := (strictCallerContext turn.head).isSome || (strictCallerContext turn.entry).isSome

/-- The variables of the loop, with the calls of the backend so far. -/
structure BatchState where
  decisions : List Decision
  attempted : List Nat
  items : List BatchItemError
  calls : List Request

/-- An item that is not dispatched. -/
def BatchState.refuse (state : BatchState) (index : Nat) (cause : Option GoError) : BatchState :=
  { state with items := state.items ++ [⟨index, cause⟩] }

/-- An item that is. -/
def BatchState.record (state : BatchState) (index : Nat) (decision : Decision) (error : Option GoError) :
    BatchState :=
  { state with
    decisions := state.decisions.set index decision
    attempted := state.attempted ++ [index]
    items := match error with
      | none => state.items
      | some error => state.items ++ [⟨index, some error⟩] }

/-- An error that leaves open whether the item was debited. -/
def GoError.isUnknown : GoError → Bool
  | .outcome (some declared) => decide (declared.kind = .unknown)
  | _ => false

namespace StrictService

variable (service : StrictService)

/-- The loop of `Batch`. -/
def batchItems (turns : Nat → Turn) : Nat → List Request → BatchState → BatchState
  | _, [], state => state
  | index, request :: rest, state =>
    match strictCallerContext (turns index).head with
    | some problem => state.refuse index (some problem.error)
    | none =>
      let admission := service.admitRequest (turns index).entry (turns index).after request true (turns index).raw
        (turns index).rawErr
      let state := { state with calls := state.calls ++ admission.calls }
      if admission.dispatched = false then state.refuse index admission.error
      else
        let state := state.record index admission.decision admission.error
        if admission.error.any GoError.isUnknown && (strictCallerContext (turns index).last).isSome then state
        else batchItems turns (index + 1) rest state

/-- What `Batch` returns, with the calls of the backend that it made. -/
structure BatchResult where
  decision : StrictBatchDecision
  error : Option BatchFailure
  calls : List Request

/-- `Batch`, for a service and a context that are not nil. -/
def dispatchBatch (turns : Nat → Turn) (batch : BatchRequest) : BatchResult :=
  match validateBatch batch with
  | some problem => ⟨{}, some (.invalid problem), []⟩
  | none =>
    let state := service.batchItems turns 0 batch.requests ⟨batch.requests.map fun _ => {}, [], [], []⟩
    ⟨⟨state.decisions, state.attempted, .perItem⟩, if state.items = [] then none else some (.failed state.items),
      state.calls⟩

/-! ## What is reported -/

/-- What becomes of a backend's answer to an item. -/
def normalized (turns : Nat → Turn) (index : Nat) (request : Request) : Decision × Option GoError :=
  service.normalizeAdmit (turns index).after request (turns index).raw (turns index).rawErr

/-- `admit` of an item of a batch, which is validated. -/
theorem admitRequest_item (before after : CallerState) (request : Request) (raw : Raw Decision)
    (rawErr : Option GoError) : service.admitRequest before after request true raw rawErr =
      match strictCallerContext before with
      | some outcome => ⟨{}, some outcome.error, false, []⟩
      | none =>
        ⟨(service.normalizeAdmit after request raw rawErr).1, (service.normalizeAdmit after request raw rawErr).2, true,
          [request]⟩ := by
  unfold admitRequest
  cases strictCallerContext before <;> rfl

end StrictService

/-- An error as the service normalizes it, with a text of at most `MaxBackendErrorBytes`. -/
def GoError.Bounded (error : GoError) : Prop := ∀ foreignText, (error.text foreignText).length ≤ 32

theorem Sentinel.text_bounded (error : Sentinel) : (GoString.ofLiteral error.text).length ≤ 32 := by
  cases error <;> decide +kernel

theorem OutcomeError.bounded (outcome : OutcomeError) : outcome.error.Bounded := by
  intro foreignText
  obtain ⟨kind, context⟩ := outcome
  cases kind
  · exact (by decide +kernel : (GoString.ofLiteral "rate limit outcome error").length ≤ 32)
  · exact (by decide +kernel : (GoString.ofLiteral "rate limit canceled").length ≤ 32)
  · exact Sentinel.deadline.text_bounded
  · exact (by decide +kernel : (GoString.ofLiteral "rate limit outcome unknown").length ≤ 32)

namespace StrictService

variable {service : StrictService} {turns : Nat → Turn} {requests : List Request}

theorem declaredSafe_bounded (declared : strictDeclaration (some error) = .declarationSafe category) :
    error.Bounded := by
  intro foreignText
  rcases strictDeclaration_safe declared with same | same
  · cases same
    exact category.text_bounded
  · cases same
    exact category.text_bounded

theorem normalizeAdmit_bounded (failed : (service.normalizeAdmit after request raw rawErr).2 = some error) :
    error.Bounded := by
  have unknown : (service.unknownDecision after request).2 = some error → error.Bounded := by
    rintro ⟨⟩
    exact (unknownOutcome after).bounded
  unfold normalizeAdmit at failed
  split at failed
  · cases failed
  cases declared : strictDeclaration rawErr with
  | declarationUnsafe =>
    rw [declared] at failed
    exact unknown failed
  | declarationOutcome outcome =>
    obtain ⟨kind, context⟩ := outcome
    simp only [declared] at failed
    split at failed
    · cases kind with
      | canceled =>
        cases failed
        exact OutcomeError.bounded _
      | deadline =>
        dsimp only at failed
        split at failed
        · cases failed
        · cases failed
          exact OutcomeError.bounded _
      | unknown =>
        cases failed
        exact OutcomeError.bounded _
      | unset => exact unknown failed
    · exact unknown failed
  | declarationSafe category =>
    simp only [declared] at failed
    split at failed
    · split at failed
      · rw [show rawErr = some error from failed] at declared
        exact declaredSafe_bounded declared
      · exact unknown failed
    split at failed
    · split at failed
      · cases failed
      · rw [show rawErr = some error from failed] at declared
        exact declaredSafe_bounded declared
    · exact unknown failed

variable (service turns requests)

/-- An unknown outcome of the item before `count`, with the context done. -/
def UnknownBefore (count : Nat) : Prop :=
  ∃ index request error, count = index + 1 ∧ requests[index]? = some request ∧
    (service.normalized turns index request).2 = some error ∧ error.isUnknown = true ∧
    (strictCallerContext (turns index).last).isSome = true

/-- What holds of the loop's variables when the first `count` items were dispatched. -/
structure Reported (count : Nat) (state : BatchState) : Prop where
  size : count ≤ requests.length
  decisions : state.decisions = requests.mapIdx fun index request =>
    if index < count then (service.normalized turns index request).1 else {}
  attempted : state.attempted = List.range count
  calls : state.calls = requests.take count
  ordered : (state.items.map BatchItemError.index).Pairwise (· < ·)
  refused : ∀ index request, requests[index]? = some request → index < count →
    (index ∈ state.items.map BatchItemError.index ↔ (service.normalized turns index request).1.allowed = false)
  causes : ∀ item ∈ state.items, ∃ error, item.cause = some error ∧ error.Bounded
  passed : ∀ index < count, (turns index).stops = false ∧ ¬ UnknownBefore service turns requests index

/-- Nothing has stopped the loop. -/
structure Progress (count : Nat) (state : BatchState) : Prop extends Reported service turns requests count state where
  below : ∀ index ∈ state.items.map BatchItemError.index, index < count

/-- The loop has ended: at the end of the batch, at a check before item `count`, or
because of the outcome of the item before it. -/
structure Ended (count : Nat) (state : BatchState) : Prop extends Reported service turns requests count state where
  within : ∀ index ∈ state.items.map BatchItemError.index, index ≤ count ∧ index < requests.length
  stopped : count ∈ state.items.map BatchItemError.index ↔
    count < requests.length ∧ (turns count).stops = true ∧ ¬ UnknownBefore service turns requests count
  early : count < requests.length → (turns count).stops = true ∨ UnknownBefore service turns requests count

variable {service turns requests} {state : BatchState}

theorem Progress.start : service.Progress turns requests 0 ⟨requests.map fun _ => {}, [], [], []⟩ where
  size := Nat.zero_le _
  decisions := by simp [List.mapIdx_eq_zipIdx_map]
  attempted := rfl
  calls := rfl
  ordered := .nil
  refused := by simp
  causes := by simp
  passed := by simp
  below := by simp

/-- Only an allowed decision comes without an error. -/
theorem normalized_refused (index : Nat) (request : Request) :
    (service.normalized turns index request).1.allowed = false ↔ (service.normalized turns index request).2 ≠ none := by
  have closed : (service.normalized turns index request).1.allowed = true ↔ _ :=
    (normalizeAdmit_closed .live (turns index).after request (turns index).raw (turns index).rawErr).1.granted
  rw [← Bool.not_eq_true]
  exact not_congr closed

/-- The indexes after an item is recorded. -/
theorem record_indexes (state : BatchState) (index : Nat) (decision : Decision) (error : Option GoError) :
    (state.record index decision error).items.map BatchItemError.index = state.items.map BatchItemError.index ++
      if error = none then [] else [index] := by
  cases error with
  | none => simp [BatchState.record]
  | some error => simp [BatchState.record]

theorem record_decisions (bound : count < requests.length) (decisions : List Decision)
    (before : decisions = requests.mapIdx fun index request =>
      if index < count then (service.normalized turns index request).1 else {}) :
    decisions.set count (service.normalized turns count requests[count]).1 = requests.mapIdx fun index request =>
      if index < count + 1 then (service.normalized turns index request).1 else {} := by
  symm
  rw [List.mapIdx_eq_iff]
  intro index
  rw [List.getElem?_set, before, List.length_mapIdx, List.getElem?_mapIdx]
  rcases Nat.lt_trichotomy index count with earlier | rfl | later
  · rw [if_neg (by omega), Option.map_congr]
    intro request _
    rw [if_pos earlier, if_pos (by omega)]
  · rw [if_pos rfl, if_pos bound, List.getElem?_eq_getElem bound, Option.map_some, if_pos (by omega)]
  · rw [if_neg (by omega), Option.map_congr]
    intro request _
    rw [if_neg (by omega), if_neg (by omega)]

/-- An item is dispatched, after both checks have passed and the item before it has not
stopped the loop. -/
theorem Progress.record (progress : service.Progress turns requests count state)
    (here : requests[count]? = some request) (passed : (turns count).stops = false)
    (known : ¬ UnknownBefore service turns requests count) :
    service.Progress turns requests (count + 1)
      (BatchState.record { state with calls := state.calls ++ [request] } count
      (service.normalized turns count request).1 (service.normalized turns count request).2) := by
  obtain ⟨bound, rfl⟩ := List.getElem?_eq_some_iff.mp here
  refine ⟨⟨bound, record_decisions bound _ progress.decisions, ?_, ?_, ?_, ?_, ?_, ?_⟩, ?_⟩
  · simp only [BatchState.record, progress.attempted, List.range_succ]
  · simp only [BatchState.record, progress.calls, List.take_succ_eq_append_getElem bound]
  · rw [record_indexes, List.pairwise_append]
    refine ⟨progress.ordered, by split <;> simp, fun index member other last => ?_⟩
    have := progress.below index member
    split at last
    · cases last
    · cases List.mem_singleton.mp last
      exact this
  · intro index request found lower
    rw [record_indexes, List.mem_append]
    rcases Nat.lt_succ_iff_lt_or_eq.mp lower with earlier | rfl
    · rw [← progress.refused index request found earlier]
      constructor
      · rintro (member | last)
        · exact member
        · split at last
          · cases last
          · cases List.mem_singleton.mp last
            omega
      · exact Or.inl
    · cases here.symm.trans found
      have fresh : index ∉ state.items.map BatchItemError.index := fun member => Nat.lt_irrefl _
        (progress.below _ member)
      rw [normalized_refused, or_iff_right fresh]
      split
      · rename_i granted
        simp [granted]
      · rename_i failed
        simp [failed]
  · intro item member
    cases failed : (service.normalized turns count requests[count]).2 with
    | none =>
      rw [failed] at member
      exact progress.causes item member
    | some error =>
      rw [failed] at member
      rcases List.mem_append.mp member with earlier | last
      · exact progress.causes item earlier
      · cases List.mem_singleton.mp last
        exact ⟨error, rfl, normalizeAdmit_bounded failed⟩
  · intro index lower
    rcases Nat.lt_succ_iff_lt_or_eq.mp lower with earlier | rfl
    · exact progress.passed index earlier
    · exact ⟨passed, known⟩
  · intro index member
    rw [record_indexes] at member
    rcases List.mem_append.mp member with earlier | last
    · exact Nat.lt_succ_of_lt (progress.below index earlier)
    · split at last
      · cases last
      · cases List.mem_singleton.mp last
        exact Nat.lt_succ_self _

/-- A check before an item stops the loop there. -/
theorem Progress.refuse (progress : service.Progress turns requests count state) (bound : count < requests.length)
    (outcome : OutcomeError) (fails : (turns count).stops = true)
      (known : ¬ UnknownBefore service turns requests count) :
    service.Ended turns requests count (state.refuse count (some outcome.error)) := by
  have indexes : (state.refuse count (some outcome.error)).items.map BatchItemError.index =
      state.items.map BatchItemError.index ++ [count] := by simp [BatchState.refuse]
  refine ⟨⟨progress.size, progress.decisions, progress.attempted, progress.calls, ?_, ?_, ?_, progress.passed⟩,
    ?_, ?_, ?_⟩
  · rw [indexes, List.pairwise_append]
    refine ⟨progress.ordered, by simp, fun index member other last => ?_⟩
    cases List.mem_singleton.mp last
    exact progress.below index member
  · intro index request found earlier
    rw [indexes, List.mem_append, List.mem_singleton, ← progress.refused index request found earlier]
    exact or_iff_left (by omega)
  · intro item member
    rcases List.mem_append.mp member with earlier | last
    · exact progress.causes item earlier
    · cases List.mem_singleton.mp last
      exact ⟨_, rfl, outcome.bounded⟩
  · intro index member
    rw [indexes] at member
    rcases List.mem_append.mp member with earlier | last
    · have := progress.below index earlier
      omega
    · cases List.mem_singleton.mp last
      omega
  · rw [indexes]
    exact iff_of_true (List.mem_append_right _ List.mem_cons_self) ⟨bound, fails, known⟩
  · exact fun _ => Or.inl fails

/-- Where no check has failed, the loop has ended at the end of the batch or after an
unknown outcome. -/
theorem Progress.ended (progress : service.Progress turns requests count state)
    (reason : count = requests.length ∨ UnknownBefore service turns requests count) :
    service.Ended turns requests count state := by
  have fresh : count ∉ state.items.map BatchItemError.index := fun member => Nat.lt_irrefl _ (progress.below _ member)
  refine ⟨progress.toReported, ?_, ?_, ?_⟩
  · intro index member
    have := progress.below index member
    have := progress.size
    omega
  · refine iff_of_false fresh ?_
    rintro ⟨short, -, known⟩
    exact known (reason.resolve_left (by omega))
  · intro short
    exact Or.inr (reason.resolve_left (by omega))

/-- The loop, from any point that it has reached. -/
theorem batchItems_ended (progress : service.Progress turns requests count state)
    (known : ¬ UnknownBefore service turns requests count) (remaining : requests.drop count = rest) :
    ∃ reached, service.Ended turns requests reached (service.batchItems turns count rest state) := by
  induction rest generalizing count state with
  | nil =>
    have := progress.size
    have := List.drop_eq_nil_iff.mp remaining
    exact ⟨count, progress.ended (Or.inl (by omega))⟩
  | cons request rest ih =>
    have here : requests[count]? = some request := by
      rw [← List.head?_drop, remaining]
      rfl
    obtain ⟨bound, -⟩ := List.getElem?_eq_some_iff.mp here
    have later : requests.drop (count + 1) = rest := by
      rw [← List.drop_drop, remaining]
      rfl
    unfold batchItems
    cases head : strictCallerContext (turns count).head with
    | some problem => exact ⟨count, progress.refuse bound problem (by simp [Turn.stops, head]) known⟩
    | none =>
      rw [admitRequest_item]
      cases entry : strictCallerContext (turns count).entry with
      | some problem =>
        simp only [List.append_nil, if_true]
        exact ⟨count, progress.refuse bound problem (by simp [Turn.stops, entry]) known⟩
      | none =>
        have next := progress.record here (by simp [Turn.stops, head, entry]) known
        dsimp only
        rw [if_neg (by simp)]
        split
        · rename_i unknown
          rw [Bool.and_eq_true, Option.any_eq_true] at unknown
          obtain ⟨⟨error, failed, kind⟩, done⟩ := unknown
          exact ⟨count + 1, next.ended (Or.inr ⟨count, request, error, rfl, here, failed, kind, done⟩)⟩
        · rename_i ordinary
          refine ih next ?_ later
          rintro ⟨index, request', error, same, found, failed, kind, done⟩
          cases Nat.succ_injective same
          cases here.symm.trans found
          refine ordinary (Bool.and_eq_true_iff.mpr ⟨Option.any_eq_true _ _ |>.mpr ?_, done⟩)
          exact ⟨error, failed, kind⟩

end StrictService

/-! ## The text of the error -/

theorem BatchItemError.text_length {item : BatchItemError} (small : item.index < 256)
    (cause : ∃ error, item.cause = some error ∧ error.Bounded) (foreignText : Nat → GoString) :
    (item.text foreignText).length ≤ 42 := by
  obtain ⟨error, same, bounded⟩ := cause
  have digits : (Decimal.ofNat item.index).length ≤ 2 + 1 := Decimal.length_ofNat_le (by omega)
  have label : (GoString.ofLiteral "item ").length = 5 := by decide +kernel
  have colon : (GoString.ofLiteral ": ").length = 2 := by decide +kernel
  have text := bounded foreignText
  simp only [BatchItemError.text, same, List.length_append, label, colon]
  omega

/-- Lines of bounded length with a line feed between them. -/
theorem intercalate_length {lines : List GoString} (short : ∀ line ∈ lines, line.length ≤ width) (some : lines ≠ []) :
    (List.intercalate [10] lines).length < (width + 1) * lines.length := by
  induction lines with
  | nil => exact absurd rfl some
  | cons line rest ih =>
    have here := short line List.mem_cons_self
    cases rest with
    | nil => simpa using Nat.lt_succ_of_le here
    | cons next others =>
      have later := ih (fun other member => short other (.tail _ member)) (by simp)
      have total : (width + 1) * (line :: next :: others).length = (width + 1) * (next :: others).length +
        (width + 1) :=
        Nat.mul_succ _ _
      rw [total, List.intercalate_cons_cons, List.length_append, List.length_append, List.length_singleton]
      omega

/-- At most 256 items, each with an index of its own. -/
theorem batchErrorText_length {items : List BatchItemError} (size : count ≤ maxBatchSize)
    (ordered : (items.map BatchItemError.index).Pairwise (· < ·))
    (within : ∀ index ∈ items.map BatchItemError.index, index < count)
    (causes : ∀ item ∈ items, ∃ error, item.cause = some error ∧ error.Bounded) (foreignText : Nat → GoString) :
    (batchErrorText foreignText items).length ≤ maxStrictBatchErrorBytes := by
  unfold batchErrorText
  split
  · decide +kernel
  rename_i nonempty
  have few : items.length ≤ count := by
    have distinct : (items.map BatchItemError.index).Nodup := ordered.imp Nat.ne_of_lt
    have inside : items.map BatchItemError.index ⊆ List.range count :=
      fun index member => List.mem_range.mpr (within index member)
    simpa using (List.subperm_of_subset distinct inside).length_le
  have short : ∀ line ∈ items.map (BatchItemError.text foreignText), line.length ≤ 42 := by
    intro line member
    obtain ⟨item, inside, rfl⟩ := List.mem_map.mp member
    have small := within item.index (List.mem_map_of_mem inside)
    exact BatchItemError.text_length (Nat.lt_of_lt_of_le small size) (causes item inside) foreignText
  have length := intercalate_length short (by simpa using nonempty)
  simp only [List.length_map, maxBatchSize, maxStrictBatchErrorBytes] at length size ⊢
  omega

namespace StrictService

theorem validateBatch_size (batch : ItemBatch) : batch.requests.length ≤ maxBatchSize := by
  have accepted := batch.accepted
  unfold validateBatch at accepted
  split at accepted
  · cases accepted
  · omega

/-- There is no item error exactly if every item was dispatched and allowed. -/
theorem Ended.items_nil {service : StrictService} {turns : Nat → Turn} {requests : List Request} {state : BatchState}
    (ended : service.Ended turns requests count state) : state.items = [] ↔
      count = requests.length ∧ ∀ decision ∈ state.decisions, decision.allowed = true := by
  have decision : ∀ index request, requests[index]? = some request → index < count →
      (service.normalized turns index request).1 ∈ state.decisions := by
    intro index request found dispatched
    rw [ended.decisions, List.mem_iff_getElem?]
    exact ⟨index, by rw [List.getElem?_mapIdx, found, Option.map_some, if_pos dispatched]⟩
  constructor
  · intro empty
    have none : ∀ index, index ∉ state.items.map BatchItemError.index := by simp [empty]
    have whole : count = requests.length := by
      by_contra short
      have short := Nat.lt_of_le_of_ne ended.size short
      by_cases unknown : UnknownBefore service turns requests count
      · obtain ⟨index, request, error, rfl, found, failed, -, -⟩ := unknown
        refine none index ((ended.refused index request found (Nat.lt_succ_self _)).mpr ?_)
        rw [normalized_refused, failed]
        exact Option.some_ne_none error
      · exact none count (ended.stopped.mpr ⟨short, (ended.early short).resolve_right unknown, unknown⟩)
    refine ⟨whole, fun reported member => ?_⟩
    rw [ended.decisions] at member
    obtain ⟨index, found⟩ := List.mem_iff_getElem?.mp member
    rw [List.getElem?_mapIdx, Option.map_eq_some_iff] at found
    obtain ⟨request, here, rfl⟩ := found
    obtain ⟨bound, -⟩ := List.getElem?_eq_some_iff.mp here
    rw [if_pos (by omega)]
    by_contra denied
    exact none index ((ended.refused index request here (by omega)).mpr (Bool.not_eq_true _ ▸ denied))
  · rintro ⟨whole, allowed⟩
    rw [List.eq_nil_iff_forall_not_mem]
    intro item member
    have inside : item.index ∈ state.items.map BatchItemError.index := List.mem_map.mpr ⟨item, member, rfl⟩
    have bound := (ended.within item.index inside).2
    have here : requests[item.index]? = some requests[item.index] := List.getElem?_eq_getElem bound
    have denied := (ended.refused item.index _ here (by omega)).mp inside
    rw [allowed _ (decision item.index _ here (by omega))] at denied
    cases denied

/-- `Batch` reports exactly what it dispatched. The calls of the backend are those for a
prefix of the items, each once and in order; the prefix ends where a check of the context
fails for the first time, or after an unknown outcome with the context done. There is an item
error for each decision that does not allow, and one for the next item exactly if a check that
was made before its call failed. -/
theorem batch_reports_dispatch (service : StrictService) (batch : ItemBatch) (turns : Nat → Turn) :
    let result := service.dispatchBatch turns batch.toBatchRequest
    ∃ count ≤ batch.requests.length,
      result.calls = batch.requests.take count ∧
      result.decision.attempted = List.range count ∧
      (result.decision.decisions = batch.requests.mapIdx fun index request =>
        if index < count then (service.normalized turns index request).1 else {}) ∧
      (result.error = none ↔
        count = batch.requests.length ∧ ∀ decision ∈ result.decision.decisions, decision.allowed = true) ∧
      (∀ failure, result.error = some failure → ∃ items, failure = .failed items ∧
        (items.map BatchItemError.index).Pairwise (· < ·) ∧
        (∀ index ∈ items.map BatchItemError.index, index ≤ count) ∧
        (∀ index request, batch.requests[index]? = some request → index < count →
          (index ∈ items.map BatchItemError.index ↔ (service.normalized turns index request).1.allowed = false)) ∧
        (count ∈ items.map BatchItemError.index ↔ count < batch.requests.length ∧ (turns count).stops = true ∧
          ¬ UnknownBefore service turns batch.requests count) ∧
        ∀ foreignText, (batchErrorText foreignText items).length ≤ maxStrictBatchErrorBytes) ∧
      (∀ index < count, (turns index).stops = false ∧ ¬ UnknownBefore service turns batch.requests index) ∧
      (count < batch.requests.length →
        (turns count).stops = true ∨ UnknownBefore service turns batch.requests count) := by
  have start : service.Progress turns batch.requests 0 ⟨batch.requests.map fun _ => {}, [], [], []⟩ := .start
  obtain ⟨count, ended⟩ := batchItems_ended start (by rintro ⟨_, _, _, ⟨⟩, -⟩) List.drop_zero
  simp only [dispatchBatch, batch.accepted]
  refine ⟨count, ended.size, ended.calls, ended.attempted, ended.decisions, ?_, ?_, ended.passed, ended.early⟩
  · rw [← ended.items_nil]
    split
    · rename_i empty
      exact iff_of_true rfl empty
    · rename_i failed
      exact iff_of_false (Option.some_ne_none _) failed
  · intro failure failed
    split at failed
    · cases failed
    · cases failed
      exact ⟨_, rfl, ended.ordered, fun index member => (ended.within index member).1, ended.refused, ended.stopped,
        batchErrorText_length (validateBatch_size batch) ended.ordered
          (fun index member => (ended.within index member).2) ended.causes⟩

end StrictService

end RateLimit
