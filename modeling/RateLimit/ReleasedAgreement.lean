import RateLimit.RowExpiry
import RateLimit.LegacyState

/-! The strict and the released state machine side by side under one policy. What the
strict machine adds is a range test, checks that its own states pass, and two fields of
metadata that no algorithm reads; as long as it does not overflow, the released machine
walks with it. -/
namespace RateLimit.Postgres

open Machine

/-! ## The fields the released machine has no use for -/

/-- A state without the metadata of the strict machine. -/
def bare (state : PersistedState) : PersistedState := { state with periodMicros := 0, carried := false }

/-- Two states that agree in every field except `PeriodMicros` and `Carried`. -/
def SameButMetadata (strict released : PersistedState) : Prop := bare strict = bare released

instance (strict released : PersistedState) : Decidable (SameButMetadata strict released) :=
  inferInstanceAs (Decidable (bare strict = bare released))

theorem SameButMetadata.observed {strict released : PersistedState} (same : SameButMetadata strict released) :
    strict.observedMicros = released.observedMicros := by
  have bare : (bare strict).observedMicros = (bare released).observedMicros := by
    rw [show Postgres.bare strict = Postgres.bare released from same]
  exact bare

/-- An outcome whose state is without the metadata. -/
def Applied.bare (applied : Applied) : Applied := { applied with state := Postgres.bare applied.state }

theorem spendToken_bare (rate : TokenRate) (state : PersistedState) (request : Request) :
    (spendToken rate (bare state) request).bare = (spendToken rate state request).bare := by
  unfold spendToken
  by_cases short : state.tokens < request.cost
  · rw [if_pos short, if_pos (show (bare state).tokens < request.cost from short)]
    rfl
  · rw [if_neg short, if_neg (show ¬ (bare state).tokens < request.cost from short)]
    rfl

theorem spendFixed_bare (period : Nat) (state : PersistedState) (request : Request) :
    (spendFixed period (bare state) request).bare = (spendFixed period state request).bare := by
  unfold spendFixed
  dsimp only
  by_cases short : request.policy.limit - windowUsed period state request.now.unixMicro < request.cost
  · rw [spendUsage_short _ _ short, spendUsage_short _ _ short]
    rfl
  · rw [spendUsage_room _ _ short, spendUsage_room _ _ short]
    rfl

theorem spendSegment_bare (state : PersistedState) (request : Request) (index width earliest : Int) :
    (spendSegment (bare state) request index width earliest).bare =
      (spendSegment state request index width earliest).bare := by
  unfold spendSegment spendUsage bare
  dsimp only
  by_cases short : request.policy.limit - state.used < request.cost
  · simp only [if_pos short, reduceCtorEq, if_false]
    rfl
  · simp only [if_neg short, if_true]
    rfl

/-- No algorithm of the released machine reads the metadata. -/
theorem spendLegacy_bare (rate : TokenRate) (state : PersistedState) (request : Request) :
    (spendLegacy rate (bare state) request).bare = (spendLegacy rate state request).bare := by
  unfold spendLegacy
  cases request.policy.algorithm with
  | tokenBucket => exact spendToken_bare rate (refilled rate state request.now.unixMicro) request
  | fixedWindow => exact spendFixed_bare rate.period state request
  | _ => exact spendSegment_bare (sweptLegacy rate.period state request) request _ _ _

/-- The strict algorithms leave what the released ones leave, up to the metadata. -/
theorem spend_bare (rate : TokenRate) (state : PersistedState) (request : Request) :
    (spend rate state request).bare = (spendLegacy rate state request).bare := by
  obtain ⟨carried, same⟩ := spend_legacy rate state request
  rw [same]
  rfl

theorem SameButMetadata.spend {strict released : PersistedState} (same : SameButMetadata strict released)
    (rate : TokenRate) (request : Request) :
    (spend rate strict request).bare = (spendLegacy rate released request).bare :=
  calc (Postgres.spend rate strict request).bare
    _ = (spendLegacy rate strict request).bare := spend_bare rate strict request
    _ = (spendLegacy rate (bare strict) request).bare := (spendLegacy_bare rate strict request).symm
    _ = (spendLegacy rate (bare released) request).bare := by rw [show bare strict = bare released from same]
    _ = (spendLegacy rate released request).bare := spendLegacy_bare rate released request

/-! ## One step -/

/-- What the strict machine records before it spends is the time and the revision, as
long as the revision stays. -/
theorem prepared_bare {strict released : PersistedState} (request : Request)
    (revision : strict.revision = request.policy.revision)
    (same : SameButMetadata strict released) : SameButMetadata (prepared strict request)
      (stamped released request) := by
  have still : carryToken strict request = strict := by
    unfold carryToken
    rw [if_neg (fun moved => moved.2 revision)]
  have recorded : bare (prepared strict request) = stamped (bare strict) request := by
    unfold prepared
    rw [still]
    unfold recordWindowPeriod
    split <;> rfl
  exact recorded.trans (congrArg (stamped · request) same)

theorem freshState_bare (request : Request) :
    SameButMetadata (freshState request true) (freshState request false) := by
  obtain ⟨period, fresh⟩ := freshState_eq request
  unfold SameButMetadata
  rw [fresh]
  rfl

/-- Both machines after the same requests under a policy: nothing is stored yet, or what
each left last, and that differs in the metadata alone. -/
def Abreast (policy : Policy) (rate : TokenRate) : Option PersistedState → Option PersistedState → Prop
  | none, none => True
  | some strict, some released =>
    Kept strict policy rate.period ∧ LegacyKept policy rate released ∧ SameButMetadata strict released
  | _, _ => False

section
variable {request : ValidRequest} (bounds : request.toRequest.Bounds period)
  (abreast : Abreast request.policy (rateOf bounds) current other)
include bounds abreast

theorem Abreast.released : LegacyReached request.policy (rateOf bounds) other := by
  rintro state rfl
  cases current with
  | none => exact abreast.elim
  | some strict => exact abreast.2.1

theorem Abreast.loaded : (loaded current request.toRequest).revision = request.policy.revision ∧
    SameButMetadata (loaded current request.toRequest) (legacyLoaded other request.toRequest) := by
  cases current with
  | none =>
    cases other with
    | none => exact ⟨freshState_revision _, freshState_bare _⟩
    | some released => exact abreast.elim
  | some strict =>
    cases other with
    | none => exact abreast.elim
    | some released => exact ⟨abreast.1.revision, abreast.2.2⟩

theorem Abreast.effective : effective current request.toRequest = legacyEffective other request.toRequest := by
  have observed : (Postgres.loaded current request.toRequest).observedMicros =
      (legacyLoaded other request.toRequest).observedMicros := (abreast.loaded bounds).2.observed
  unfold Postgres.effective legacyEffective clampRequest
  rw [observed]

theorem Abreast.strict (rate : request.policy.algorithm.IsRate) :
    mutateStep current request = pure (current, ⟨{}, some .overflow⟩) ∨
      ∃ accepted : Accepted current request.toRequest period,
        mutateStep current request = pure (some (outcome accepted).state,
          (outcome accepted).answer) := by
  have reached : Reached [request] current := by
    rintro state rfl
    cases other with
    | none => exact abreast.elim
    | some released => exact ⟨request, by simp, _, abreast.1⟩
  have revisions : Revisions [request] := by
    intro first member second member'
    rw [List.mem_singleton.mp member, List.mem_singleton.mp member']
    exact ⟨rfl, rfl, fun _ => rfl, fun _ => rfl⟩
  rcases reached.step revisions (by simp) rate bounds with ⟨overflow, -⟩ | ⟨accepted, result, -⟩
  · exact Or.inl overflow
  · exact Or.inr ⟨accepted, result⟩

/-- One request to both machines: the strict one overflows and keeps its state, or both
give one answer and stay abreast. -/
theorem Abreast.step (rate : request.policy.algorithm.IsRate) :
    ∃ first, mutateStep current request = pure first ∧
      ((first.2.error = some .overflow ∧ Abreast request.policy (rateOf bounds) first.1 other) ∨
        ∃ second, mutateStepLegacy other request.toRequest = pure second ∧ first.2 = second.2 ∧
          Abreast request.policy (rateOf bounds) first.1 second.1) := by
  rcases abreast.strict bounds rate with overflow | ⟨accepted, result⟩
  · exact ⟨_, overflow, Or.inl ⟨rfl, abreast⟩⟩
  have reached := abreast.released bounds
  have policy : (Postgres.effective current request.toRequest).policy = request.policy := clampRequest_policy _ _
  have same : (outcome accepted).bare = (legacyOutcome (rateOf bounds) other request.toRequest).bare := by
    obtain ⟨revision, bare⟩ := abreast.loaded bounds
    have prepares := prepared_bare (Postgres.effective current request.toRequest)
      (by rw [policy]; exact revision) bare
    unfold outcome legacyOutcome
    rw [← abreast.effective bounds, rateOf_eq accepted.bounds bounds policy]
    exact prepares.spend _ _
  have released : mutateStepLegacy other request.toRequest =
      pure (some (legacyOutcome (rateOf bounds) other request.toRequest).state,
        (legacyOutcome (rateOf bounds) other request.toRequest).answer) := by
    unfold mutateStepLegacy
    rw [mutateStateLegacy_exact bounds reached rate]
    rfl
  refine ⟨_, result, Or.inr ⟨_, released, ?_, outcome_kept accepted, legacyOutcome_kept bounds reached rate, ?_⟩⟩
  · show ((outcome accepted).bare.answer : Answer) = _
    rw [same]
    rfl
  · show (outcome accepted).bare.state = _
    rw [same]
    rfl

end

/-! ## Whole runs -/

/-- What the two machines hold after a step: nothing, or states that agree in every
field except `PeriodMicros` and `Carried`. -/
def SameStored : Option PersistedState → Option PersistedState → Prop :=
  Option.Rel SameButMetadata

theorem Abreast.sameStored (abreast : Abreast policy rate current other) : SameStored current other := by
  cases current with
  | none =>
    cases other with
    | none => exact .none
    | some released => exact abreast.elim
  | some strict =>
    cases other with
    | none => exact abreast.elim
    | some released => exact .some abreast.2.2

/-- The strict and the released machine agree when no revision changes. From nothing,
under one rate policy and at any times: unless a strict step overflows, both give the
same decision and the same error at every step, and what they store differs in the
metadata of the strict machine alone. -/
theorem released_agrees (policy : Policy) (rate : policy.algorithm.IsRate) (requests : List ValidRequest)
    (same : ∀ request ∈ requests, request.policy = policy) :
    ∃ strict, Runs.trace mutateStep none requests = pure strict ∧
      ((∀ entry ∈ strict, entry.output.error ≠ some .overflow) →
        ∃ released, Runs.trace (fun current request => mutateStepLegacy current request.toRequest) none requests =
          pure released ∧
          List.Forall₂ (fun first second => first.output = second.output ∧
            SameStored first.after second.after) strict released) := by
  cases requests with
  | nil => exact ⟨[], rfl, fun _ => ⟨[], rfl, .nil⟩⟩
  | cons first rest =>
    obtain rfl := same first (by simp)
    obtain ⟨period, bounds⟩ := first.bounds rate
    obtain ⟨strict, run, follows⟩ := Runs.trace_follows mutateStep
      (fun current request => mutateStepLegacy current request.toRequest)
      (Abreast first.policy (rateOf bounds)) (·.error = some .overflow) (fun _ left right => left = right)
      (first :: rest)
      (fun current other request abreast member => by
        have policy := same request member
        have bounds' := bounds_of_period request (by rw [policy]; exact rate) (by rw [policy, bounds.period_eq])
        rw [← policy, ← rateOf_eq bounds' bounds policy] at abreast ⊢
        exact abreast.step bounds' (by rw [policy]; exact rate))
      (show Abreast first.policy (rateOf bounds) none none from trivial)
    refine ⟨strict, run, fun clear => ?_⟩
    obtain ⟨released, runs, alike⟩ := follows clear
    exact ⟨released, runs, alike.imp fun _ _ both => ⟨both.1, both.2.sameStored⟩⟩

/-- Three requests in any sixteen microseconds. -/
def pane : Policy := ratePolicy .slidingWindow 97 3 0 16 pane_fits

/-- Before the epoch, further back than that, and one turn of the ring later. -/
def paneRequests : List ValidRequest :=
  [pane.request rfl 2 (-5) rfl, pane.request rfl 2 (-9) rfl, pane.request rfl 1 11 rfl]

theorem released_agrees_sliding :
    pane.algorithm.IsRate ∧ (∀ request ∈ paneRequests, request.policy = pane) ∧
      ∃ strict released, Runs.trace mutateStep none paneRequests = pure strict ∧
        Runs.trace (fun current request => mutateStepLegacy current request.toRequest) none paneRequests =
          pure released ∧
        strict.map (fun entry => entry.output.error) = [none, some .rejected, none] ∧
        List.Forall₂ (fun first second => first.output = second.output ∧
          SameStored first.after second.after) strict released := by
  refine ⟨by decide, by decide, ?_⟩
  obtain ⟨strict, run, follows⟩ := released_agrees pane (by decide) paneRequests (by decide)
  have errors : strict.map (fun entry => entry.output.error) = [none, some .rejected, none] := by
    cases run
    decide
  obtain ⟨released, runs, alike⟩ := follows fun entry member overflow => by
    have listed : entry.output.error ∈ strict.map (fun entry => entry.output.error) :=
      List.mem_map_of_mem member
    rw [errors, overflow] at listed
    simp at listed
  exact ⟨strict, released, run, runs, errors, alike⟩

end RateLimit.Postgres
