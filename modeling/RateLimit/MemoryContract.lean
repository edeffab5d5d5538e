import RateLimit.MemoryKeys

/-! The strict service over the memory store. What the store decides is complete for its
request, and its errors are those that the service passes on, so that the service never
reports an unknown outcome. For a token bucket this needs that no balance that is stored
is above the limit of a policy that may still find it. -/
namespace RateLimit.Memory

open Machine

/-! ## What the service accepts -/

/-- The errors that the service passes on from a method, a rejection apart. -/
inductive Direct (method : StrictMethod) : GoError → Prop where
  | canceled : Direct method canceledOutcome.error
  | deadline : Direct method deadlineOutcome.error
  | category (applies : applicableCategory category method = true) (safe : safeBackendCategory category = true)
    (other : category ≠ .rejected) : Direct method (.sentinel category)

/-- An admission that is complete for its request, or nothing and a direct error. -/
inductive AdmitContract (request : Request) : Admitted → Prop where
  | allowed (complete : completeAllowed decision request) : AdmitContract request ⟨decision, none⟩
  | rejected (complete : completeRejected decision request) :
    AdmitContract request ⟨decision, some (.sentinel .rejected)⟩
  | failed (direct : Direct .strictMethodAdmit problem) : AdmitContract request ⟨{}, some problem⟩

/-- The same for an acquisition. -/
inductive AcquireContract (request : LeaseRequest) : Acquired → Prop where
  | granted (complete : completeAllowed decision request.request)
    (leased : StrictService.completeLease lease decision request) : AcquireContract request ⟨lease, decision, none⟩
  | rejected (complete : completeRejected decision request.request) :
    AcquireContract request ⟨{}, decision, some (.sentinel .rejected)⟩
  | failed (direct : Direct .strictMethodAcquire problem) : AcquireContract request ⟨{}, {}, some problem⟩

/-- The same for a release. -/
inductive ReleaseContract : Option GoError → Prop where
  | released : ReleaseContract none
  | failed (direct : Direct .strictMethodRelease problem) : ReleaseContract (some problem)

/-- `errors.Is(err, ErrOutcomeUnknown)`, of an error the service returns. -/
def Unknown (error : Option GoError) : Prop :=
  ∃ outcome : OutcomeError, error = some outcome.error ∧ outcome.kind = .unknown

theorem not_unknown_none : ¬ Unknown none := by
  rintro ⟨outcome, ⟨⟩, -⟩

theorem not_unknown_plain (plain : ∀ outcome, error ≠ .outcome outcome) : ¬ Unknown (some error) := by
  rintro ⟨outcome, same, -⟩
  exact plain _ (Option.some.inj same)

theorem not_unknown_canceled : ¬ Unknown (some canceledOutcome.error) := by
  rintro ⟨outcome, ⟨⟩, ⟨⟩⟩

theorem not_unknown_deadline : ¬ Unknown (some deadlineOutcome.error) := by
  rintro ⟨outcome, ⟨⟩, ⟨⟩⟩

theorem not_unknown_before (stopped : strictCallerContext before = some outcome) : ¬ Unknown (some outcome.error) := by
  cases before with
  | live | foreign => cases stopped
  | canceled =>
    cases stopped
    exact not_unknown_canceled
  | expired =>
    cases stopped
    exact not_unknown_deadline

section
variable (service : StrictService) (after : CallerState)

theorem AdmitContract.known (contract : AdmitContract request result) :
    ¬ Unknown (service.normalizeAdmit after request ⟨result.decision, false⟩ result.error).2 := by
  unfold StrictService.normalizeAdmit
  cases contract with
  | allowed complete =>
    rw [if_pos ⟨rfl, complete⟩]
    exact not_unknown_none
  | rejected complete =>
    simp only [reduceCtorEq, false_and, if_false, strictDeclaration, safeBackendCategory, if_true, complete]
    exact not_unknown_plain (by simp)
  | failed direct =>
    cases direct with
    | canceled =>
      simp only [reduceCtorEq, false_and, if_false, strictDeclaration, OutcomeError.error, zeroDecision,
        canceledOutcome]
      exact not_unknown_canceled
    | deadline =>
      simp only [reduceCtorEq, false_and, if_false, strictDeclaration, OutcomeError.error, zeroDecision,
        deadlineOutcome]
      simp only [decide_true, Bool.not_false, Bool.and_true, if_true]
      split
      · exact not_unknown_none
      · exact not_unknown_deadline
    | category applies safe other =>
      simp only [reduceCtorEq, false_and, if_false, strictDeclaration, safe, if_true, other, applies, zeroDecision]
      simp only [decide_true, Bool.not_false, Bool.and_true, if_true]
      split
      · exact not_unknown_none
      · exact not_unknown_plain (by simp)

theorem AcquireContract.known (contract : AcquireContract request result) :
    ¬ Unknown (service.normalizeAcquire after request ⟨result.lease, false⟩
      ⟨result.decision, false⟩ result.error).error := by
  unfold StrictService.normalizeAcquire
  cases contract with
  | granted complete leased =>
    rw [if_pos ⟨rfl, complete, leased⟩]
    exact not_unknown_none
  | rejected complete =>
    simp only [reduceCtorEq, false_and, if_false, strictDeclaration, safeBackendCategory, if_true, complete, zeroLease]
    exact not_unknown_plain (by simp)
  | failed direct =>
    cases direct with
    | canceled =>
      simp only [reduceCtorEq, false_and, if_false, strictDeclaration, OutcomeError.error, zeroDecision, zeroLease,
        canceledOutcome]
      exact not_unknown_canceled
    | deadline =>
      simp only [reduceCtorEq, false_and, if_false, strictDeclaration, OutcomeError.error, zeroDecision, zeroLease,
        deadlineOutcome]
      exact not_unknown_deadline
    | category applies safe other =>
      simp only [reduceCtorEq, false_and, if_false, strictDeclaration, safe, if_true, other, applies,
        zeroDecision, zeroLease]
      exact not_unknown_plain (by simp)

theorem ReleaseContract.known (contract : ReleaseContract error) :
    ¬ Unknown (StrictService.normalizeRelease after error) := by
  unfold StrictService.normalizeRelease
  cases contract with
  | released => exact not_unknown_none
  | failed direct =>
    cases direct with
    | canceled => exact not_unknown_canceled
    | deadline => exact not_unknown_deadline
    | category applies safe other =>
      simp only [strictDeclaration, safe, if_true, applies]
      exact not_unknown_plain (by simp)

end

/-! ## Balances -/

/-- A balance that is stored is within the limit of every policy that would go on from it. -/
def Priced (policies : List Policy) (store : Store) : Prop :=
  ∀ policy ∈ policies, ∀ key state, store.find (Postgres.bucketName policy.id key) = some state →
    state.algorithm = .tokenBucket → state.revision = policy.revision → state.tokens ≤ policy.limit

/-- One policy for each revision of a policy ID. -/
def OneEach (policies : List Policy) : Prop :=
  ∀ first ∈ policies, ∀ second ∈ policies, first.id = second.id → first.revision = second.revision → first = second

instance (policies : List Policy) : Decidable (OneEach policies) :=
  inferInstanceAs (Decidable (∀ first ∈ policies, ∀ second ∈ policies, _ → _ → _))

/-- The ID of a policy has no zero byte, so it is what comes before the first one of a bucket's name. -/
theorem bucketName_id {first second : GoString} (valid : validPolicyIdentifier first 64 = true)
    (valid' : validPolicyIdentifier second 64 = true)
    (same : Postgres.bucketName first key = Postgres.bucketName second other) : first = second := by
  have cut : ∀ id : GoString, ∀ key : Key, validPolicyIdentifier id 64 = true →
      (Postgres.bucketName id key).takeWhile identifierByte = id := by
    intro id key valid
    unfold validPolicyIdentifier at valid
    rw [Bool.and_eq_true, List.all_eq_true] at valid
    rw [Postgres.bucketName, List.takeWhile_append_of_pos valid.2]
    simp [identifierByte]
  rw [← cut first key valid, same, cut second other valid']

/-- A balance that is carried, fresh or found under its own revision is within the limit. -/
theorem Priced.adopted {store : Store} (priced : Priced policies store) (request : Request)
    (listed : request.policy ∈ policies)
    (matched : ∀ current, store.find (stateKey request) = some current → current.algorithm = request.policy.algorithm) :
    Within (adopted (store.find (stateKey request)) request) request := by
  intro token
  cases found : store.find (stateKey request) with
  | none => exact le_rfl
  | some current =>
    have kind := (matched current found).trans token
    unfold Memory.adopted
    dsimp only
    split
    · simp only [carryRevision, kind, if_true]
      exact min_le_right _ _
    · rename_i same
      exact priced _ listed request.key current found kind (not_not.mp same)

/-- One state is replaced by one that is priced; the others were there. -/
theorem Updated.priced {store next : Store} (updated : Updated store next key now state)
    (priced : Priced policies store)
    (here : ∀ policy ∈ policies, ∀ other, Postgres.bucketName policy.id other = key → state.algorithm = .tokenBucket →
      state.revision = policy.revision → state.tokens ≤ policy.limit) : Priced policies next := by
  intro policy member other current found token revision
  by_cases same : Postgres.bucketName policy.id other = key
  · rw [same, updated.here] at found
    cases found
    exact here policy member other same token revision
  · exact priced policy member other current (updated.old _ _ same found) token revision

theorem Priced.sweep {store : Store} (priced : Priced policies store) (now : Time) (idleFor : Duration) :
    Priced policies (store.sweep now idleFor).1 := by
  intro policy member key state found token revision
  obtain ⟨current, present, rfl | rfl⟩ := Store.sweep_old found
  · exact priced policy member key state present token revision
  · exact priced policy member key current present token revision

/-! ## What the store returns -/

/-- A context of the standard library. -/
def Waits.Ordinary (waits : Waits) : Prop := waits.lock ≠ .foreign ∧ waits.locked ≠ .foreign

instance (waits : Waits) : Decidable waits.Ordinary := inferInstanceAs (Decidable (_ ∧ _))

theorem strictError_direct (ordinary : state ≠ .foreign) (stops : strictError state = some problem) :
    Direct method problem := by
  cases state with
  | live => cases stops
  | canceled =>
    cases stops
    exact .canceled
  | expired =>
    cases stops
    exact .deadline
  | foreign => exact absurd rfl ordinary

theorem Stopped.direct {store : Store} {waits : Waits} (ordinary : waits.Ordinary)
    (applies : applicableCategory .unavailable method = true) (stopped : Stopped store waits problem) :
    Direct method problem := by
  cases stopped with
  | entry stops =>
    cases state : waits.entry with
    | live | foreign =>
      rw [state] at stops
      cases stops
    | canceled =>
      rw [state] at stops
      cases stops
      exact .canceled
    | expired =>
      rw [state] at stops
      cases stops
      exact .deadline
  | closed => exact .category applies rfl (by simp)
  | waited stops =>
    unfold Waits.interrupted at stops
    split at stops
    · cases stops
      exact strictError_direct ordinary.1 ‹_›
    · exact strictError_direct ordinary.2 stops

/-- A verdict is complete for its request, or says that the lease is not the caller's. -/
theorem Verdict.complete {request : LeaseRequest} {term : Nat} (bounds : request.Bounds term)
    (bounded : LeasesBounded leases) (verdict : Verdict leases request after answer) :
    (answer.error = none ∧ completeAllowed answer.decision request.request ∧
        StrictService.completeLease answer.lease answer.decision request) ∨
      (answer.error = some .rejected ∧ answer.lease = {} ∧ completeRejected answer.decision request.request) ∨
      answer = { error := some .leaseNotOwned } := by
  have early := bounds.not_before
  have positive := bounds.cost_pos
  cases verdict with
  | foreign => exact Or.inr (Or.inr rfl)
  | @retried existing found same =>
    have entry := LeaseTable.lookup_iff_mem.mp found
    have dated := (bounded.active request.request.now).dated _ entry
    have counted := LeaseTable.weight_le_total LeaseState.cost found
    have nonzero : existing.expiresAt ≠ Time.zero := nonzero_of_le dated
    refine Or.inl ⟨rfl, ⟨rfl, rfl, rfl, ?_, nonzero, rfl⟩, rfl, rfl, rfl, rfl, rfl, nonzero, rfl⟩
    change existing.cost ≤ activeCost _ _ at counted
    dsimp only
    omega
  | short new full =>
    obtain ⟨entry, member, same, live⟩ := short_reset bounds full
    refine Or.inr (Or.inl ⟨rfl, rfl, rfl, rfl, rfl, ?_, ?_, le_max_right _ _⟩)
    · dsimp only
      omega
    · rw [same]
      exact nonzero_of_le ((bounded.active request.request.now).dated _ member)
  | granted new room =>
    have nonzero : request.request.now.add request.request.policy.lease ≠ Time.zero := by
      apply nonzero_of_le
      rw [bounds.lease_eq]
      simp only [Time.unixMicro, Time.add, Duration.ofMicros] at early ⊢
      omega
    refine Or.inl ⟨rfl, ⟨rfl, rfl, rfl, ?_, nonzero, rfl⟩, rfl, rfl, rfl, rfl, rfl, nonzero, rfl⟩
    dsimp only
    omega

/-- The invariant of a store under calls with these policies. -/
structure Held (policies : List Policy) (store : Store) : Prop where
  sound : store.Sound
  priced : Priced policies store

section
variable {policies : List Policy} {store : Store} (held : Held policies store)
  {waits : Waits} (ordinary : waits.Ordinary)
include held ordinary

theorem admitStrict_contract (valid : ∀ policy ∈ policies, policy.Built) (single : OneEach policies)
    {request : Request} (listed : request.policy ∈ policies) (accepted : request.validate = .ok ()) :
    (store.admitStrict waits request).Yields fun result =>
      AdmitContract request result.2 ∧ Held policies result.1 := by
  have built := valid _ listed
  obtain ⟨⟨next, decision, error⟩, returns, ⟨same, problem, failed, reason⟩ | ⟨state, served, sound, -, decided⟩⟩ :=
    Store.admitStrict_served held.sound waits built accepted
  · cases failed
    refine ⟨_, returns, .failed ?_, same ▸ held⟩
    rcases reason with stopped | ⟨category, listed, rfl⟩
    · exact stopped.direct ordinary rfl
    · simp only [List.mem_cons, List.not_mem_nil, or_false] at listed
      rcases listed with rfl | rfl | rfl | rfl <;> exact .category rfl rfl (by simp)
  · obtain ⟨within, complete⟩ := decided (held.priced.adopted (truncated request) listed served.matched)
    refine ⟨_, returns, ?_, sound, served.updated.priced held.priced ?_⟩
    · rcases complete with ⟨_, ⟨rfl, complete⟩ | ⟨rfl, complete⟩, told⟩ | corrupt
      · cases told
        exact .allowed complete
      · cases told
        exact .rejected complete
      · cases corrupt
        exact .failed (.category rfl rfl (by simp))
    · intro policy member other named token revision
      have id := bucketName_id (valid policy member).sound.id_valid built.sound.id_valid named
      have same : policy = request.policy :=
        single _ member _ listed id (revision.symm.trans served.revision)
      subst same
      exact within (served.algorithm.symm.trans token)

theorem acquireStrict_contract {request : LeaseRequest} (built : request.request.policy.Built)
    (accepted : request.validate = .ok ()) :
    (store.acquireStrict waits request).Yields fun result =>
      AcquireContract request result.2 ∧ Held policies result.1 := by
  have case := store.acquireStrict_case waits request
  generalize store.acquireStrict waits request = run at case ⊢
  cases case with
  | invalid refused => cases refused.symm.trans accepted
  | stopped _ stopped => exact yields_pure ⟨.failed (stopped.direct ordinary rfl), held⟩
  | held _ clear =>
    obtain ⟨term, bounds, -⟩ := (⟨request, built, accepted⟩ : ValidLeaseRequest).bounds
    have concurrent := (⟨request, built, accepted⟩ : ValidLeaseRequest).checked.2.1
    have timed : (retimed request (truncate request.request.now)).Bounds term :=
      bounds.later rfl rfl (by simpa [retimed] using bounds.not_before)
    obtain ⟨next, answer, exact, acquires⟩ := Store.acquireHeld_acquires timed (held.sound.leases _)
    have sound := acquires.sound timed concurrent (truncate_whole _) held.sound
    rw [exact, pure_bind]
    cases acquires with
    | overflow => exact yields_pure ⟨.failed (.category rfl rfl (by simp)), held⟩
    | corrupt => exact yields_pure ⟨.failed (.category rfl rfl (by simp)), held⟩
    | unavailable => exact yields_pure ⟨.failed (.category rfl rfl (by simp)), held⟩
    | decided range served verdict =>
      refine yields_pure ⟨?_, sound, served.updated.priced held.priced ?_⟩
      · have decidedAt : (retimed (retimed request (truncate request.request.now))
            (effectiveTime (store.find (stateKey request.request)) (truncate request.request.now))).Bounds term :=
          timed.later rfl rfl range.1
        obtain ⟨lease, decision, error⟩ := answer
        rcases verdict.complete decidedAt (held.sound.leases _) with
          ⟨rfl, complete, leased⟩ | ⟨rfl, rfl, complete⟩ | foreign
        · exact .granted complete leased
        · exact .rejected complete
        · cases foreign
          exact .failed (.category rfl rfl (by simp))
      · intro policy _ _ _ token
        cases (served.algorithm.trans concurrent).symm.trans token

theorem releaseStrict_contract {lease : Lease} (complete : StrictService.validateStrictLease lease = none) :
    ReleaseContract (store.releaseStrict waits lease).2 ∧ Held policies (store.releaseStrict waits lease).1 := by
  have case := store.releaseStrict_case waits lease
  generalize store.releaseStrict waits lease = run at case ⊢
  cases case with
  | invalid incomplete =>
    unfold StrictService.validateStrictLease at complete
    rw [if_pos (by tauto)] at complete
    cases complete
  | stopped stopped => exact ⟨.failed (stopped.direct ordinary rfl), held⟩
  | held clear releases =>
    refine ⟨?_, releases.sound held.sound, ?_⟩
    · cases releases with
      | missing | foreign => exact .failed (.category rfl rfl (by simp))
      | released => exact .released
    · cases releases with
      | missing | foreign => exact held.priced
      | @released current _ found _ updated =>
        refine (updated Time.zero).priced held.priced ?_
        intro policy member other named token revision
        exact held.priced policy member other current (named ▸ found) token revision

end

/-! ## Runs of the service -/

/-- What the context of a call says to the service before and after it asks the store,
and to the store. -/
structure Contexts where
  before : CallerState := .live
  waits : Waits := {}
  after : CallerState := .live
  deriving DecidableEq, Repr

def Contexts.Ordinary (contexts : Contexts) : Prop :=
  contexts.before ≠ .foreign ∧ contexts.waits.entry ≠ .foreign ∧ contexts.waits.Ordinary ∧ contexts.after ≠ .foreign

instance (contexts : Contexts) : Decidable contexts.Ordinary := inferInstanceAs (Decidable (_ ∧ _ ∧ _ ∧ _))

/-- A call of the service, or one on the store behind it. The policies of requests were built. -/
inductive ServiceCall where
  | admission (contexts : Contexts) (request : Request) (built : request.policy.Built)
  | acquisition (contexts : Contexts) (request : LeaseRequest) (built : request.request.policy.Built)
  | release (contexts : Contexts) (lease : Lease)
  | sweep (now : Time) (idleFor : Duration)
  | close

/-- What the store returned, if it was asked, and what the service returns. -/
inductive ServiceReply where
  | admission (stored : Option Admitted) (told : StrictService.Admission)
  | acquisition (stored : Option Acquired) (told : StrictService.Acquisition)
  | release (stored : Option (Option GoError)) (told : Option GoError)
  | swept (removed : Nat) (error : Option Sentinel)
  | closed

def ServiceCall.Ordinary : ServiceCall → Prop
  | .admission contexts _ _ | .acquisition contexts _ _ | .release contexts _ => contexts.Ordinary
  | .sweep _ _ | .close => True

instance (call : ServiceCall) : Decidable call.Ordinary := by
  cases call <;> unfold ServiceCall.Ordinary <;> infer_instance

def ServiceCall.policy : ServiceCall → Option Policy
  | .admission _ request _ => some request.policy
  | .acquisition _ request _ => some request.request.policy
  | .release _ _ | .sweep _ _ | .close => none

section
variable (service : StrictService) (store : Store)

/-- `StrictService.Admit`: the store is asked for a valid request in a live context. -/
def Store.serveAdmission (contexts : Contexts) (request : Request) : Machine (Store × ServiceReply) :=
  match request.validate, strictCallerContext contexts.before with
  | .ok (), none => do
    let (store, result) ← store.admitStrict contexts.waits request
    pure (store, .admission (some result)
      (service.admitRequest contexts.before contexts.after request false ⟨result.decision, false⟩ result.error))
  | _, _ => pure (store, .admission none
      (service.admitRequest contexts.before contexts.after request false ⟨{}, false⟩ none))

/-- `StrictService.Acquire`. -/
def Store.serveAcquisition (contexts : Contexts) (request : LeaseRequest) : Machine (Store × ServiceReply) :=
  match request.validate, strictCallerContext contexts.before with
  | .ok (), none => do
    let (store, result) ← store.acquireStrict contexts.waits request
    pure (store, .acquisition (some result) (service.acquire contexts.before contexts.after request
      (some (⟨result.lease, false⟩, ⟨result.decision, false⟩, result.error))))
  | _, _ => pure (store, .acquisition none
      (service.acquire contexts.before contexts.after request (some (⟨{}, false⟩, ⟨{}, false⟩, none))))

/-- `StrictService.Release`: the store is asked for a complete lease of this backend. -/
def Store.serveRelease (contexts : Contexts) (lease : Lease) : Store × ServiceReply :=
  if StrictService.validateStrictLease lease = none ∧ ¬ (lease.backend ≠ [] ∧ lease.backend ≠ service.name) ∧
      strictCallerContext contexts.before = none then
    let (store, error) := store.releaseStrict contexts.waits lease
    (store, .release (some error) (service.release contexts.before contexts.after lease (some error)))
  else (store, .release none (service.release contexts.before contexts.after lease (some none)))

end

def serviceStep (service : StrictService) (store : Store) : ServiceCall → Machine (Store × ServiceReply)
  | .admission contexts request _ => store.serveAdmission service contexts request
  | .acquisition contexts request _ => store.serveAcquisition service contexts request
  | .release contexts lease => pure (store.serveRelease service contexts lease)
  | .sweep now idleFor =>
    let (store, removed, error) := store.sweep now idleFor
    pure (store, .swept removed error)
  | .close => pure (store.close, .closed)

/-- What the store returned meets its contract, and the service reports no unknown outcome. -/
inductive Contract : ServiceCall → ServiceReply → Prop where
  | admission (stored : ∀ result ∈ asked, AdmitContract request result) (known : ¬ Unknown told.error) :
    Contract (.admission contexts request built) (.admission asked told)
  | acquisition (stored : ∀ result ∈ asked, AcquireContract request result) (known : ¬ Unknown told.error) :
    Contract (.acquisition contexts request built) (.acquisition asked told)
  | release (stored : ∀ error ∈ asked, ReleaseContract error) (known : ¬ Unknown told) :
    Contract (.release contexts lease) (.release asked told)
  | swept : Contract (.sweep now idleFor) (.swept removed error)
  | closed : Contract .close .closed

section
variable {policies : List Policy} {store : Store} (held : Held policies store) (service : StrictService)
  {contexts : Contexts} (ordinary : contexts.Ordinary)
include held ordinary

theorem serveAdmission_contract (valid : ∀ policy ∈ policies, policy.Built) (single : OneEach policies)
    {request : Request} (built : request.policy.Built) (listed : request.policy ∈ policies) :
    (store.serveAdmission service contexts request).Yields fun result =>
      Contract (.admission contexts request built) result.2 ∧ Held policies result.1 := by
  unfold Store.serveAdmission
  cases accepted : request.validate with
  | error problem =>
    refine yields_pure ⟨.admission (by simp) ?_, held⟩
    simp only [StrictService.admitRequest, accepted]
    exact not_unknown_plain (by simp)
  | ok =>
    cases stopped : strictCallerContext contexts.before with
    | some outcome =>
      refine yields_pure ⟨.admission (by simp) ?_, held⟩
      simp only [StrictService.admitRequest, accepted, stopped, Bool.false_eq_true, if_false]
      split
      · exact not_unknown_none
      · exact not_unknown_before stopped
    | none =>
      apply (admitStrict_contract held ordinary.2.2.1 valid single listed accepted).bind
      rintro ⟨next, result⟩ ⟨contract, keeps⟩
      refine yields_pure ⟨.admission (by simpa using contract) ?_, keeps⟩
      simp only [StrictService.admitRequest, accepted, stopped]
      exact contract.known service contexts.after

theorem serveAcquisition_contract {request : LeaseRequest} (built : request.request.policy.Built) :
    (store.serveAcquisition service contexts request).Yields fun result =>
      Contract (.acquisition contexts request built) result.2 ∧ Held policies result.1 := by
  unfold Store.serveAcquisition
  cases accepted : request.validate with
  | error problem =>
    refine yields_pure ⟨.acquisition (by simp) ?_, held⟩
    simp only [StrictService.acquire, accepted]
    exact not_unknown_plain (by simp)
  | ok =>
    cases stopped : strictCallerContext contexts.before with
    | some outcome =>
      refine yields_pure ⟨.acquisition (by simp) ?_, held⟩
      simp only [StrictService.acquire, accepted, stopped]
      exact not_unknown_before stopped
    | none =>
      apply (acquireStrict_contract held ordinary.2.2.1 built accepted).bind
      rintro ⟨next, result⟩ ⟨contract, keeps⟩
      refine yields_pure ⟨.acquisition (by simpa using contract) ?_, keeps⟩
      simp only [StrictService.acquire, accepted, stopped]
      exact contract.known service contexts.after

theorem serveRelease_contract (lease : Lease) :
    Contract (.release contexts lease) (store.serveRelease service contexts lease).2 ∧
      Held policies (store.serveRelease service contexts lease).1 := by
  unfold Store.serveRelease
  by_cases asked : StrictService.validateStrictLease lease = none ∧
    ¬ (lease.backend ≠ [] ∧ lease.backend ≠ service.name) ∧
      strictCallerContext contexts.before = none
  · rw [if_pos asked]
    obtain ⟨complete, own, live⟩ := asked
    obtain ⟨contract, keeps⟩ := releaseStrict_contract held ordinary.2.2.1 complete
    refine ⟨.release (by simpa using contract) ?_, keeps⟩
    simp only [StrictService.release, complete, if_neg own, live]
    exact contract.known contexts.after
  · rw [if_neg asked]
    refine ⟨.release (by simp) ?_, held⟩
    unfold StrictService.release
    cases complete : StrictService.validateStrictLease lease with
    | some problem => exact not_unknown_plain (by simp)
    | none =>
      dsimp only
      split
      · exact not_unknown_plain (by simp)
      · rename_i own
        cases stopped : strictCallerContext contexts.before with
        | some outcome => exact not_unknown_before stopped
        | none => exact absurd ⟨complete, own, stopped⟩ asked

end

/-- The memory store always satisfies the contract of strict results. In every run of the
service over a store, on any keys, under any algorithms, times and revisions and any pressure
on the keys, with sweeps and a closing anywhere: what the store decides is complete for its
request, its errors apply to the method, and the service never reports an unknown outcome. -/
theorem memory_meets_strict_contract (service : StrictService) (options : Options) (store : Store)
    (made : newStore options = .ok store) (calls : List ServiceCall) (ordinary : ∀ call ∈ calls, call.Ordinary)
    (revisions : OneEach (calls.filterMap ServiceCall.policy)) :
    ∃ entries, (Runs.trace (serviceStep service) store calls).Returns entries ∧ entries.map Entry.input = calls ∧
      ∀ entry ∈ entries, Contract entry.input entry.output := by
  have valid : ∀ policy ∈ calls.filterMap ServiceCall.policy, policy.Built := by
    intro policy member
    obtain ⟨call, -, asked⟩ := List.mem_filterMap.mp member
    cases call with
    | admission _ _ built | acquisition _ _ built =>
      cases asked
      exact built
    | release | sweep | close => cases asked
  obtain ⟨entries, run, inputs, kept⟩ := Runs.trace_returns (serviceStep service)
    (fun _ store => Held (calls.filterMap ServiceCall.policy) store) (fun _ entry => Contract entry.input entry.output)
    calls (fun _ store call held member => by
      have listed := fun policy (asked : call.policy = some policy) => List.mem_filterMap.mpr ⟨call, member, asked⟩
      have usual := ordinary call member
      cases call with
      | admission contexts request built =>
        exact serveAdmission_contract held service usual valid revisions built (listed _ rfl)
      | acquisition contexts request built => exact serveAcquisition_contract held service usual built
      | release contexts lease => exact ⟨_, returns_pure _, serveRelease_contract held service usual lease⟩
      | sweep now idleFor =>
        exact ⟨_, returns_pure _, .swept, held.sound.sweep now idleFor, held.priced.sweep now idleFor⟩
      | close => exact ⟨_, returns_pure _, .closed, held.sound, held.priced⟩)
    ⟨fun key state found => (by cases (newStore_find made key).symm.trans found),
      fun policy _ key state found => (by cases (newStore_find made _).symm.trans found)⟩
  refine ⟨entries, run, inputs, fun entry member => ?_⟩
  obtain ⟨earlier, later, shape⟩ := List.append_of_mem member
  exact (kept earlier entry later shape).2.1

/-- A store of two keys that makes no room. -/
def twoKeys : Store where
  count := 2
  positive := by decide
  shards := fun _ => { maxKeys := 1, rejectOnCapacity := true }

/-- The service over a store whose name is `memory`. -/
def memoryService : StrictService := ⟨[109, 101, 109, 111, 114, 121], by decide⟩

/-- An admission under a policy of the concrete requests, by the key of a single byte. -/
def admitKey (policy : Policy) (built : newPolicy policy.toPolicySpec = .ok policy)
    (key : UInt8) (cost : Nat) (micros : Int) :
    ServiceCall :=
  .admission {} ⟨policy, ⟨[key], [117]⟩, cost, .ofUnixMicro micros⟩ ⟨_, built⟩

/-- A bucket of five tokens is drained, revised to two and found empty; a window of another
key takes the last place, and a third key finds none; the store is swept and closed. -/
def crowdedCalls : List ServiceCall :=
  [admitKey (ratePolicy .tokenBucket 97 5 0 1000000 second_fits) rfl 107 5 0,
    admitKey (ratePolicy .tokenBucket 98 2 0 1000000 second_fits) rfl 107 1 1,
    admitKey (ratePolicy .fixedWindow 99 2 0 1000000 second_fits) rfl 106 2 2,
    admitKey (ratePolicy .slidingWindow 100 2 0 1000000 second_fits) rfl 105 1 3,
    .sweep ⟨4000000000⟩ ⟨1⟩,
    .close,
    admitKey (ratePolicy .slidingWindow 100 2 0 1000000 second_fits) rfl 105 1 5000000]

theorem memory_meets_strict_contract_crowded :
    newStore { maxKeys := 2, shards := 2, rejectOnCapacity := true } = .ok twoKeys ∧
      (∀ call ∈ crowdedCalls, call.Ordinary) ∧ OneEach (crowdedCalls.filterMap ServiceCall.policy) ∧
      ∃ entries, (Runs.trace (serviceStep memoryService) twoKeys crowdedCalls).Returns entries ∧
        entries.map Entry.input = crowdedCalls ∧ ∀ entry ∈ entries, Contract entry.input entry.output := by
  have made : newStore { maxKeys := 2, shards := 2, rejectOnCapacity := true } = .ok twoKeys := rfl
  have ordinary : ∀ call ∈ crowdedCalls, call.Ordinary := by decide
  have revisions : OneEach (crowdedCalls.filterMap ServiceCall.policy) := by decide
  exact ⟨made, ordinary, revisions,
    memory_meets_strict_contract memoryService _ twoKeys made crowdedCalls ordinary revisions⟩

end RateLimit.Memory
