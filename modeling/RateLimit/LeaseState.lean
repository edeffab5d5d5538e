import RateLimit.LeaseTable
import RateLimit.StateChecks

/-! Concurrency leases: the request and the lease of `lease.go`, and the lease part
of `postgres/state.go`. A stored state of this algorithm is a table of leases by the
digest of their IDs. `mutateLease` sweeps what has expired, then returns a lease that
is there already, refuses, or adds a new one; `leaseOutcome` says the same in plain
integers, and is all that later modules use. -/
namespace RateLimit

def maxLeaseIDBytes : Nat := 128

structure LeaseRequest where
  request : Request
  leaseID : GoString
  deriving DecidableEq, Repr

def LeaseRequest.validate (r : LeaseRequest) : Except WrappedError Unit :=
  match r.request.validate with
  | .error problem => .error problem
  | .ok () =>
    if r.request.policy.algorithm ≠ .concurrency ∨ r.leaseID = [] ∨ r.leaseID.length > maxLeaseIDBytes then
      .error ⟨.invalidRequest, "concurrency policy and bounded lease ID are required"⟩
    else .ok ()

structure Lease where
  id : GoString := []
  key : Key := ⟨[], []⟩
  policyID : GoString := []
  policyRevision : GoString := []
  cost : Nat := 0
  expiresAt : Time := Time.zero
  backend : GoString := []
  deriving DecidableEq, Repr

/-- A lease request as a backend receives it. -/
structure ValidLeaseRequest extends LeaseRequest where
  built : request.policy.Built
  accepted : toLeaseRequest.validate = .ok ()

/-- The integers behind a valid lease request whose lease is `lease` microseconds. -/
structure LeaseRequest.Bounds (r : LeaseRequest) (lease : Nat) : Prop where
  sound : r.request.policy.Sound
  lease_pos : 0 < lease
  lease_eq : r.request.policy.lease = .ofMicros lease
  lease_le : lease ≤ 9223372036854775
  limit_le : r.request.policy.limit ≤ 1024
  cost_pos : 0 < r.request.cost
  cost_le : r.request.cost ≤ r.request.policy.limit
  not_before : -9007199254740991 ≤ r.request.now.unixMicro

/-- Only the time of a request may change on its way. -/
theorem LeaseRequest.Bounds.later {r s : LeaseRequest} (bounds : r.Bounds lease)
    (policy : s.request.policy = r.request.policy) (cost : s.request.cost = r.request.cost)
    (time : -9007199254740991 ≤ s.request.now.unixMicro) : s.Bounds lease where
  sound := by rw [policy]; exact bounds.sound
  lease_pos := bounds.lease_pos
  lease_eq := by rw [policy]; exact bounds.lease_eq
  lease_le := bounds.lease_le
  limit_le := by rw [policy]; exact bounds.limit_le
  cost_pos := by rw [cost]; exact bounds.cost_pos
  cost_le := by rw [cost, policy]; exact bounds.cost_le
  not_before := time

/-- What the two checks of a lease request say. -/
theorem ValidLeaseRequest.checked (r : ValidLeaseRequest) :
    r.request.validate = .ok () ∧ r.request.policy.algorithm = .concurrency ∧ r.leaseID ≠ [] := by
  have accepted := r.accepted
  unfold LeaseRequest.validate at accepted
  cases valid : r.request.validate with
  | error problem =>
    rw [valid] at accepted
    cases accepted
  | ok value =>
    rw [valid] at accepted
    dsimp only at accepted
    split at accepted
    · cases accepted
    · rename_i clear
      simp only [not_or, ne_eq, not_not] at clear
      exact ⟨rfl, clear.1, clear.2.1⟩

theorem ValidLeaseRequest.bounds (r : ValidLeaseRequest) :
    ∃ lease, r.toLeaseRequest.Bounds lease ∧ r.request.now.unixMicro + lease ≤ 9007199254740991 := by
  obtain ⟨valid, concurrent, -⟩ := r.checked
  have sound := r.built.sound
  obtain ⟨limit, lease, positive, same⟩ := sound.lease concurrent
  obtain ⟨-, -, -, costed, bounded, early, late⟩ := (validate_iff _).mp valid
  have small := r.request.policy.lease_int64
  rw [same] at small
  rw [Policy.duration, if_pos concurrent, same, Duration.microseconds_ofMicros] at late
  simp only [Duration.ofMicros, Machine.maxInt64] at small
  exact ⟨lease, ⟨sound, positive, same, by omega, limit, costed, bounded.trans sound.maxCost_le, early⟩,
    by omega⟩

namespace Postgres

open Machine

/-! ## The source -/

/-- The leases of a state by digest. -/
abbrev Leases := AList (fun _ : GoString => PersistedLease)

def validLeaseDigest (digest : GoString) : Bool :=
  decide (digest.length = 64) &&
    digest.all fun byte => (48 ≤ byte && byte ≤ 57) || (97 ≤ byte && byte ≤ 102)

/-- The loop of `validateConcurrencyState`. -/
def checkLeases : List (Σ _ : GoString, PersistedLease) → Nat → Machine (Option Sentinel)
  | [], _ => pure none
  | ⟨digest, lease⟩ :: rest, total =>
    if validLeaseDigest digest = false then pure (some .corrupt)
    else if lease.cost = 0 then pure (some .corrupt)
    else if lease.cost > maxConcurrencyLeases then pure (some .corrupt)
    else do
      let room ← u64 ((maxConcurrencyLeases : Int) - total)
      if lease.cost > room then pure (some .corrupt)
      else if validPersistedMicros lease.expiresMicros = false then pure (some .corrupt)
      else do
        let total ← u64 ((total : Int) + lease.cost)
        checkLeases rest total

def validateConcurrencyState (current : PersistedState) (policyID : GoString) : Machine (Option Sentinel) :=
  if current.schema ≠ stateSchema then pure (some .corrupt)
  else if current.policyID ≠ policyID then pure (some .corrupt)
  else if current.algorithm ≠ .concurrency then pure (some .corrupt)
  else if validPersistedMicros current.observedMicros = false then pure (some .corrupt)
  else checkLeases current.leases.entries 0

def postgresLease (request : LeaseRequest) (expiresAt : Time) : Lease where
  id := request.leaseID
  key := request.request.key
  policyID := request.request.policy.id
  policyRevision := request.request.policy.revision
  cost := request.request.cost
  expiresAt := expiresAt
  backend := .ofLiteral "postgres"

/-- What `mutateLeaseMode` returns. -/
structure LeaseMutation where
  next : Option PersistedState
  lease : Lease := {}
  decision : Decision := {}
  error : Option Sentinel
  deriving DecidableEq

def LeaseMutation.failed (problem : Sentinel) : LeaseMutation := { next := none, error := some problem }

/-- The leases that the loop of `mutateLeaseMode` does not delete. -/
def liveLeases (now : Int) (leases : Leases) : Leases :=
  LeaseTable.keep (fun lease => decide (now < lease.expiresMicros)) leases

/-- The same loop: what the live leases hold and when the first of them expires, or
nothing when one of them is corrupt. -/
def tallyLeases (now : Int) : List (Σ _ : GoString, PersistedLease) → Nat → Int → Machine (Option (Nat × Int))
  | [], used, earliest => pure (some (used, earliest))
  | ⟨_, lease⟩ :: rest, used, earliest =>
    if lease.expiresMicros ≤ now then tallyLeases now rest used earliest
    else if lease.cost = 0 then pure none
    else if lease.cost > maxConcurrencyLeases then pure none
    else do
      let room ← u64 ((maxConcurrencyLeases : Int) - lease.cost)
      if used > room then pure none
      else do
        let used ← u64 ((used : Int) + lease.cost)
        tallyLeases now rest used (min earliest lease.expiresMicros)

/-- The end of `mutateLeaseMode`, at the effective time and with the expired leases
gone. -/
def decideLease (current : PersistedState) (request : LeaseRequest) (digest : GoString) (used : Nat)
    (earliest : Int) : Machine LeaseMutation := do
  let policy := request.request.policy
  let remaining ← u64 ((policy.limit : Int) - min used policy.limit)
  match current.leases.lookup digest with
  | some existing =>
    if existing.cost ≠ request.request.cost then
      pure { next := some current, error := some .leaseNotOwned }
    else
      let lease := postgresLease request (.ofUnixMicro existing.expiresMicros)
      pure
        { next := some current
          lease := lease
          decision :=
            { allowed := true, limit := policy.limit, remaining := remaining, reset := lease.expiresAt,
              reason := .allowed }
          error := none }
  | none =>
    if request.request.cost > remaining then
      let reset := Time.ofUnixMicro earliest
      pure
        { next := some current
          decision :=
            { allowed := false, limit := policy.limit, remaining := remaining, reset := reset,
              retryAfter := ⟨max (reset.sub request.request.now).nanos 0⟩, reason := .limited }
          error := some .rejected }
    else do
      let expiresAt := request.request.now.add policy.lease
      let left ← u64 ((remaining : Int) - request.request.cost)
      pure
        { next := some { current with
            leases := current.leases.insert digest ⟨request.request.cost, expiresAt.unixMicro⟩ }
          lease := postgresLease request expiresAt
          decision :=
            { allowed := true, limit := policy.limit, remaining := left, reset := expiresAt,
              reason := .allowed }
          error := none }

/-- `mutateLeaseMode` from the clamped time on. -/
def mutateLeases (current : PersistedState) (request : LeaseRequest) (digest : GoString) (strict : Bool) :
    Machine LeaseMutation := do
  let request := { request with request := clampRequest current request.request }
  let problem ←
    if strict then validateServerClockRange request.request.now request.request.policy.lease else pure none
  match problem with
  | some problem => pure (.failed problem)
  | none => do
    let now := request.request.now.unixMicro
    match ← tallyLeases now current.leases.entries 0 maxInt64 with
    | none => pure (.failed .corrupt)
    | some (used, earliest) =>
      decideLease
        { current with
          revision := request.request.policy.revision
          observedMicros := now
          leases := liveLeases now current.leases }
        request digest used earliest

/-- The state `mutateLeaseMode` allocates for a `nil` argument. Its observed time is
the zero of the type, so a request before 1970 counts as one at its start. -/
def freshLeases (request : LeaseRequest) : PersistedState where
  policyID := request.request.policy.id
  revision := request.request.policy.revision
  algorithm := .concurrency

def mutateLeaseMode (current : Option PersistedState) (request : LeaseRequest) (digest : GoString)
    (strict : Bool) : Machine LeaseMutation :=
  match current with
  | none => mutateLeases (freshLeases request) request digest strict
  | some state =>
    if state.schema ≠ stateSchema then pure (.failed .corrupt)
    else if state.policyID ≠ request.request.policy.id then pure (.failed .corrupt)
    else if state.algorithm ≠ .concurrency then pure (.failed .corrupt)
    else do
      let problem ←
        if strict then validateConcurrencyState state request.request.policy.id else pure none
      match problem with
      | some problem => pure (.failed problem)
      | none => mutateLeases state request digest strict

def mutateLease (current : Option PersistedState) (request : LeaseRequest) (digest : GoString) :
    Machine LeaseMutation := mutateLeaseMode current request digest true

/-! ## What it computes -/

/-- A stored table of leases as the strict store leaves it behind. -/
structure LeasesKept (policyID : GoString) (state : PersistedState) : Prop where
  /-- Only these fields of the document are used. -/
  shape : state = { policyID := policyID, revision := state.revision, algorithm := .concurrency,
                    observedMicros := state.observedMicros, leases := state.leases }
  revision : validPolicyIdentifier state.revision 64 = true
  observed : 0 ≤ state.observedMicros ∧ state.observedMicros ≤ 9007199254740991
  lease : ∀ entry ∈ state.leases.entries, validLeaseDigest entry.1 = true ∧ 0 < entry.2.cost ∧
    0 < entry.2.expiresMicros ∧ entry.2.expiresMicros ≤ 9007199254740991
  total : LeaseTable.total PersistedLease.cost state.leases ≤ 1024

theorem freshLeases_kept {request : LeaseRequest} (sound : request.request.policy.Sound) :
    LeasesKept request.request.policy.id (freshLeases request) where
  shape := rfl
  revision := sound.revision_valid
  observed := ⟨le_rfl, by simp [freshLeases]⟩
  lease := by
    intro entry member
    exact absurd member List.not_mem_nil
  total := Nat.zero_le _

/-- A table whose costs are positive and sum up to at most the budget passes. -/
theorem checkLeases_exact {entries : List (Σ _ : GoString, PersistedLease)}
    (lease : ∀ entry ∈ entries, validLeaseDigest entry.1 = true ∧ 0 < entry.2.cost ∧
      0 < entry.2.expiresMicros ∧ entry.2.expiresMicros ≤ 9007199254740991)
    (fits : total + (entries.map fun entry => entry.2.cost).sum ≤ 1024) :
    checkLeases entries total = pure none := by
  induction entries generalizing total with
  | nil => rfl
  | cons first rest ih =>
    obtain ⟨digest, stored⟩ := first
    obtain ⟨valid, positive, early, late⟩ := lease ⟨digest, stored⟩ List.mem_cons_self
    simp only [List.map_cons, List.sum_cons] at fits
    have budget : maxConcurrencyLeases = 1024 := rfl
    have exact : validPersistedMicros stored.expiresMicros = true := by
      rw [validPersistedMicros_iff]
      unfold ExactMicros
      dsimp only at early late
      omega
    dsimp only at positive
    unfold checkLeases
    rw [if_neg (by simp [valid]), if_neg (by omega), if_neg (by omega), budget,
      u64_sub_exact (by omega) (by omega), pure_bind, if_neg (by omega), if_neg (by simp [exact]),
      u64_add_exact (by omega), pure_bind]
    exact ih (fun entry member => lease entry (List.mem_cons_of_mem _ member)) (by omega)

theorem LeasesKept.validates (kept : LeasesKept policyID state) :
    validateConcurrencyState state policyID = pure none := by
  have shape := kept.shape
  have exact : validPersistedMicros state.observedMicros = true := by
    rw [validPersistedMicros_iff]
    have observed := kept.observed
    unfold ExactMicros
    omega
  have schema : state.schema = stateSchema := by rw [shape]
  have named : state.policyID = policyID := by rw [shape]
  have algorithm : state.algorithm = .concurrency := by rw [shape]
  unfold validateConcurrencyState
  rw [if_neg (not_not.mpr schema), if_neg (not_not.mpr named), if_neg (not_not.mpr algorithm),
    if_neg (by simp [exact])]
  exact checkLeases_exact kept.lease (by rw [Nat.zero_add]; exact kept.total)

/-- The first expiry of a list of leases. -/
def earliestExpiry (entries : List (Σ _ : GoString, PersistedLease)) (start : Int) : Int :=
  entries.foldl (fun earliest entry => min earliest entry.2.expiresMicros) start

theorem lt_earliestExpiry {entries : List (Σ _ : GoString, PersistedLease)}
    (live : ∀ entry ∈ entries, now < entry.2.expiresMicros) (start : now < first) :
    now < earliestExpiry entries first := by
  induction entries generalizing first with
  | nil => exact start
  | cons entry rest ih =>
    have here := live entry List.mem_cons_self
    exact ih (fun entry member => live entry (List.mem_cons_of_mem _ member)) (lt_min start here)

/-- The loop adds up the leases it does not delete. -/
theorem tallyLeases_exact {entries : List (Σ _ : GoString, PersistedLease)}
    (positive : ∀ entry ∈ entries, 0 < entry.2.cost)
    (fits : used + ((entries.filter fun entry => decide (now < entry.2.expiresMicros)).map
      fun entry => entry.2.cost).sum ≤ 1024) :
    tallyLeases now entries used earliest = pure (some
      (used + ((entries.filter fun entry => decide (now < entry.2.expiresMicros)).map
        fun entry => entry.2.cost).sum,
      earliestExpiry (entries.filter fun entry => decide (now < entry.2.expiresMicros)) earliest)) := by
  induction entries generalizing used earliest with
  | nil => rfl
  | cons first rest ih =>
    obtain ⟨digest, stored⟩ := first
    have later : ∀ entry ∈ rest, 0 < entry.2.cost :=
      fun entry member => positive entry (List.mem_cons_of_mem _ member)
    have budget : maxConcurrencyLeases = 1024 := rfl
    unfold tallyLeases
    by_cases gone : stored.expiresMicros ≤ now
    · rw [List.filter_cons_of_neg (by simpa using gone)] at fits ⊢
      rw [if_pos gone]
      exact ih later fits
    · rw [List.filter_cons_of_pos (by simpa using gone)] at fits ⊢
      have costed : 0 < stored.cost := positive ⟨digest, stored⟩ List.mem_cons_self
      simp only [List.map_cons, List.sum_cons] at fits ⊢
      rw [if_neg gone, if_neg (by omega), if_neg (by omega), budget, u64_sub_exact (by omega) (by omega),
        pure_bind, if_neg (by omega), u64_add_exact (by omega), pure_bind, ih later (by omega), ← Nat.add_assoc]
      rfl

/-- The time a lease request is decided at. -/
def leaseNow (state : PersistedState) (request : LeaseRequest) : Int :=
  max request.request.now.unixMicro state.observedMicros

/-- What is left under the limit, with the expired leases gone. -/
def leaseRoom (state : PersistedState) (request : LeaseRequest) : Nat :=
  request.request.policy.limit - LeaseTable.total PersistedLease.cost (liveLeases (leaseNow state request) state.leases)

/-- A state swept at the time of a request. -/
def sweptLeases (state : PersistedState) (request : LeaseRequest) : PersistedState :=
  { state with
    revision := request.request.policy.revision
    observedMicros := leaseNow state request
    leases := liveLeases (leaseNow state request) state.leases }

/-- A request at the time it is decided at. -/
def clampLease (state : PersistedState) (request : LeaseRequest) : LeaseRequest :=
  { request with request := clampRequest state request.request }

/-- What `mutateLease` answers at a time in the exact range. -/
def leaseOutcome (state : PersistedState) (request : LeaseRequest) (digest : GoString) : LeaseMutation :=
  let policy := request.request.policy
  let swept := sweptLeases state request
  let room := leaseRoom state request
  match swept.leases.lookup digest with
  | some existing =>
    if existing.cost ≠ request.request.cost then { next := some swept, error := some .leaseNotOwned }
    else
      { next := some swept
        lease := postgresLease (clampLease state request) (.ofUnixMicro existing.expiresMicros)
        decision :=
          { allowed := true, limit := policy.limit, remaining := room,
            reset := .ofUnixMicro existing.expiresMicros, reason := .allowed }
        error := none }
  | none =>
    if request.request.cost > room then
      let reset := Time.ofUnixMicro (earliestExpiry swept.leases.entries maxInt64)
      { next := some swept
        decision :=
          { allowed := false, limit := policy.limit, remaining := room, reset := reset,
            retryAfter := ⟨max (reset.sub (clampLease state request).request.now).nanos 0⟩
            reason := .limited }
        error := some .rejected }
    else
      let expiresAt := (clampLease state request).request.now.add policy.lease
      { next := some { swept with
          leases := swept.leases.insert digest ⟨request.request.cost, expiresAt.unixMicro⟩ }
        lease := postgresLease (clampLease state request) expiresAt
        decision :=
          { allowed := true, limit := policy.limit, remaining := room - request.request.cost,
            reset := expiresAt, reason := .allowed }
        error := none }

section
variable {state : PersistedState} {request : LeaseRequest} {digest : GoString}

theorem decideLease_exact (bounds : request.Bounds lease) :
    decideLease (sweptLeases state request) (clampLease state request) digest
        (LeaseTable.total PersistedLease.cost (liveLeases (leaseNow state request) state.leases))
        (earliestExpiry (liveLeases (leaseNow state request) state.leases).entries maxInt64) =
      pure (leaseOutcome state request digest) := by
  have policy : (clampLease state request).request.policy = request.request.policy :=
    clampRequest_policy _ _
  have cost : (clampLease state request).request.cost = request.request.cost := clampRequest_cost _ _
  have limit := bounds.limit_le
  unfold decideLease leaseOutcome
  dsimp only
  rw [policy, cost]
  have room : u64 ((request.request.policy.limit : Int) -
      (min (LeaseTable.total PersistedLease.cost (liveLeases (leaseNow state request) state.leases))
        request.request.policy.limit : Nat)) = pure (leaseRoom state request) := by
    rw [u64_sub_exact (by omega) (by omega)]
    unfold leaseRoom
    congr 1
    omega
  rw [room, pure_bind]
  cases (sweptLeases state request).leases.lookup digest with
  | some existing =>
    dsimp only
    by_cases other : existing.cost ≠ request.request.cost
    · rw [if_pos other, if_pos other]
    · rw [if_neg other, if_neg other]
      rfl
  | none =>
    by_cases short : request.request.cost > leaseRoom state request
    · rw [if_pos short, if_pos short]
      rfl
    · have small : leaseRoom state request ≤ 1024 := by
        unfold leaseRoom
        omega
      rw [if_neg short, if_neg short, u64_sub_exact (by omega) (by omega), pure_bind]

/-- One equation for `mutateLease` on what the store keeps. -/
theorem mutateLeases_exact (bounds : request.Bounds lease) (kept : LeasesKept policyID state) :
    mutateLeases state request digest true = pure
      (if leaseNow state request + lease ≤ 9007199254740991 then leaseOutcome state request digest
        else .failed .overflow) := by
  have now : (clampLease state request).request.now.unixMicro = leaseNow state request :=
    clampRequest_unixMicro _ _
  have policy : (clampLease state request).request.policy = request.request.policy :=
    clampRequest_policy _ _
  have early := bounds.not_before
  have least : -9007199254740991 ≤ leaseNow state request := le_max_of_le_left early
  have fits : 0 + ((state.leases.entries.filter fun entry =>
      decide (leaseNow state request < entry.2.expiresMicros)).map fun entry => entry.2.cost).sum ≤ 1024 := by
    rw [Nat.zero_add]
    show LeaseTable.total PersistedLease.cost (liveLeases (leaseNow state request) state.leases) ≤ 1024
    exact LeaseTable.total_keep_le.trans kept.total
  show (do
    let problem ← validateServerClockRange (clampLease state request).request.now
      (clampLease state request).request.policy.lease
    _) = _
  rw [policy, bounds.lease_eq, validateServerClockRange_exact _ bounds.lease_pos bounds.lease_le, now, pure_bind]
  by_cases room : leaseNow state request + lease ≤ 9007199254740991
  · rw [if_pos ⟨least, room⟩, if_pos room]
    dsimp only
    rw [show (clampRequest state request.request).now.unixMicro = leaseNow state request from now,
      tallyLeases_exact (fun entry member => (kept.lease entry member).2.1) fits, pure_bind, Nat.zero_add,
      clampRequest_policy]
    exact decideLease_exact bounds
  · rw [if_neg (fun both => room both.2), if_neg room]

/-- The state `mutateLease` works on. -/
def loadedLeases (current : Option PersistedState) (request : LeaseRequest) : PersistedState :=
  current.getD (freshLeases request)

theorem mutateLease_exact {current : Option PersistedState} (bounds : request.Bounds lease) (digest : GoString)
    (kept : ∀ state, current = some state → LeasesKept request.request.policy.id state) :
    LeasesKept request.request.policy.id (loadedLeases current request) ∧
      mutateLease current request digest = pure
        (if leaseNow (loadedLeases current request) request + lease ≤ 9007199254740991 then
          leaseOutcome (loadedLeases current request) request digest else .failed .overflow) := by
  cases current with
  | none => exact ⟨freshLeases_kept bounds.sound, mutateLeases_exact bounds (freshLeases_kept bounds.sound)⟩
  | some state =>
    have stored := kept state rfl
    have schema : state.schema = stateSchema := by rw [stored.shape]
    have named : state.policyID = request.request.policy.id := by rw [stored.shape]
    have algorithm : state.algorithm = .concurrency := by rw [stored.shape]
    refine ⟨stored, ?_⟩
    unfold mutateLease mutateLeaseMode
    dsimp only
    rw [if_neg (not_not.mpr schema), if_neg (not_not.mpr named), if_neg (not_not.mpr algorithm), if_pos rfl,
      stored.validates, pure_bind]
    exact mutateLeases_exact bounds stored

end

end Postgres

/-! ## Concrete lease requests -/

/-- A concurrency policy under the ID of the concrete requests. -/
def leasePolicy (revision : UInt8) (capacity lease : Nat)
    (fits : (Duration.ofMicros lease).nanos ≤ Machine.maxInt64) : Policy where
  id := [112]
  revision := [revision]
  algorithm := .concurrency
  capacity := capacity
  period := ⟨0⟩
  lease := .ofMicros lease
  maxCost := capacity
  consistency := .processLocal
  period_int64 := zero_fits
  lease_int64 := fits

/-- A lease request under a policy that `NewPolicy` returns unchanged. -/
def Policy.leaseRequest (policy : Policy) (built : newPolicy policy.toPolicySpec = .ok policy) (id : UInt8)
    (cost : Nat) (micros : Int)
    (accepted : LeaseRequest.validate ⟨⟨policy, ⟨[107], [117]⟩, cost, .ofUnixMicro micros⟩, [id]⟩ = .ok ()) :
    ValidLeaseRequest where
  request := ⟨policy, ⟨[107], [117]⟩, cost, .ofUnixMicro micros⟩
  leaseID := [id]
  built := ⟨_, built⟩
  accepted := accepted

end RateLimit
