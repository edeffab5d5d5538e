import RateLimit.LeaseState
import RateLimit.StoreSpec

/-! Leases in the strict PostgreSQL store: `AcquireStrict` and `ReleaseStrict` of
`strict.go` and their helpers in `lease.go`, and what each does in an undisturbed
database. An acquisition writes the row with a life of its own policy's making; a
release writes it with the last expiry of the leases that are left, or deletes it. -/
namespace RateLimit.Postgres

open Machine

/-! ## The source -/

/-- A lower-case hexadecimal digit. -/
def hexDigit (nibble : UInt8) : UInt8 := if nibble < 10 then 48 + nibble else 87 + nibble

/-- `hex.EncodeToString`. -/
def hexString (digest : Digest) : GoString :=
  (List.ofFn digest).flatMap fun byte => [hexDigit (byte / 16), hexDigit (byte % 16)]

def validateStrictLeaseTime (lease : Lease) (decision : Decision) (effective : Time) : Option Sentinel :=
  match validateStrictDecisionTime decision effective with
  | some problem => some problem
  | none =>
    if lease.expiresAt ≠ Time.zero ∧
        (lease.expiresAt.nanos ≤ effective.nanos ∨ lease.expiresAt ≠ decision.reset) then some .corrupt
    else none

def strictPostgresLeaseResult (mutation : LeaseMutation) : Call (PersistedState × Lease × Answer) :=
  match mutation.error, mutation.next with
  | some .rejected, some next | none, some next =>
    match validateStrictLeaseTime mutation.lease mutation.decision (.ofUnixMicro next.observedMicros) with
    | some problem => throw (.sentinel problem)
    | none => pure (next, mutation.lease, ⟨mutation.decision, mutation.error⟩)
  | some .rejected, none | none, none => ExceptT.lift .panic
  | some error, _ => throw (postgresPrecommitCategory (.direct error))

/-- `nativeExecutor.acquireStrict`. -/
def acquireStrict (clock : ClockPolicy) (key : Digest) (request : LeaseRequest) (digest : GoString) :
    Program database (Except StoreError (Lease × Answer)) :=
  strictTransaction do
    let serverNow ← beginLockedStrict key
    let timed ← authoritativeTime clock request.request request.request.policy.lease serverNow
    let current ← loadStateStrict key timed.now
    let mutation ← compute (mutateLease current { request with request := timed } digest)
    let (next, lease, answer) ← strictPostgresLeaseResult mutation
    let ttl ← compute (postgresStateTTL request.request.policy.lease)
    writeCell (.bucket key) (some ⟨encodeState next, expiryFrom next.observedMicros ttl⟩)
    commitStrict
    pure (lease, answer)

def latestLeaseExpiry (leases : Leases) : Time :=
  .ofUnixMicro (leases.entries.foldl (fun latest entry => max latest entry.2.expiresMicros) 0)

/-- `loadStateForReleaseStrict`, which does not look at the row's expiry. -/
def loadStateForReleaseStrict (key : Digest) : Call (Option PersistedState) := do
  match ← readCell (.bucket key) with
  | none => pure none
  | some row =>
    if row.state.textLength > maxEncodedStateBytes then
      throw (postgresPrecommitCategory (.direct .corrupt))
    else
      match decodeState row.state with
      | .ok state => pure (some state)
      | .error cause => throw (postgresPrecommitCategory (.persisted cause))

/-- `nativeExecutor.releaseStrict`. -/
def releaseStrict (key : Digest) (lease : Lease) (digest : GoString) :
    Program database (Except StoreError Unit) :=
  strictTransaction do
    let _ ← beginLockedStrict key
    match ← loadStateForReleaseStrict key with
    | none => throw (.sentinel .leaseNotFound)
    | some current =>
      match ← compute (validateConcurrencyState current lease.policyID) with
      | some problem => throw (.sentinel problem)
      | none =>
        match current.leases.lookup digest with
        | none => throw (.sentinel .leaseNotFound)
        | some existing =>
          if existing.cost ≠ lease.cost ∨ existing.expiresMicros ≠ lease.expiresAt.unixMicro then
            throw (.sentinel .leaseNotOwned)
          else do
            let leases := current.leases.erase digest
            writeCell (.bucket key)
              (if leases.entries = [] then none
                else some ⟨encodeState { current with leases := leases }, latestLeaseExpiry leases⟩)
            commitStrict

/-- The body of `nativeExecutor.releaseStrict` on the state it loads: what is left of
the state, if anything is, and the error. -/
def releaseState (current : Option PersistedState) (lease : Lease) (digest : GoString) :
    Machine (Option PersistedState × Option Sentinel) :=
  match current with
  | none => pure (none, some .leaseNotFound)
  | some state => do
    match ← validateConcurrencyState state lease.policyID with
    | some problem => pure (some state, some problem)
    | none =>
      match state.leases.lookup digest with
      | none => pure (some state, some .leaseNotFound)
      | some existing =>
        if existing.cost ≠ lease.cost ∨ existing.expiresMicros ≠ lease.expiresAt.unixMicro then
          pure (some state, some .leaseNotOwned)
        else
          let leases := state.leases.erase digest
          pure (if leases.entries = [] then none else some { state with leases := leases }, none)

/-- `time.UnixMicro(request.Request.Now.UnixMicro())`. -/
def wholeLease (request : LeaseRequest) : LeaseRequest :=
  { request with request := wholeMicros request.request }

def Store.acquireStrict (sha256 : GoString → Digest) (clock : ClockPolicy) (context : ContextState)
    (request : LeaseRequest) : Program database (Except StoreError (Lease × Answer)) :=
  match request.validate, postgresStrictContext context with
  | .error problem, _ => pure (.error (.wrapped problem))
  | .ok (), some problem => pure (.error problem)
  | .ok (), none =>
    Postgres.acquireStrict clock (sha256 (bucketName request.request.policy.id request.request.key))
      (wholeLease request) (hexString (sha256 request.leaseID))

def Store.releaseStrict (sha256 : GoString → Digest) (context : ContextState) (lease : Lease) :
    Program database (Except StoreError Unit) :=
  if lease.id = [] ∨ lease.policyID = [] ∨ lease.key.value = [] ∨ lease.cost = 0 ∨
      lease.expiresAt = Time.zero then
    pure (.error (.sentinel .invalidRequest))
  else
    match postgresStrictContext context with
    | some problem => pure (.error problem)
    | none =>
      Postgres.releaseStrict (sha256 (bucketName lease.policyID lease.key)) lease
        (hexString (sha256 lease.id))

/-! ## Digests -/

private theorem hexDigit_toNat {nibble : UInt8} (small : nibble < 16) :
    (hexDigit nibble).toNat = if nibble.toNat < 10 then 48 + nibble.toNat else 87 + nibble.toNat := by
  simp only [UInt8.lt_iff_toNat_lt, UInt8.reduceToNat] at small
  simp only [hexDigit, UInt8.lt_iff_toNat_lt, UInt8.reduceToNat]
  split <;> simp only [UInt8.toNat_add, UInt8.reduceToNat, Nat.reducePow] <;> omega

private theorem hexDigit_valid (nibble : UInt8) (small : nibble < 16) :
    (48 ≤ hexDigit nibble ∧ hexDigit nibble ≤ 57) ∨ (97 ≤ hexDigit nibble ∧ hexDigit nibble ≤ 102) := by
  have digit := hexDigit_toNat small
  simp only [UInt8.lt_iff_toNat_lt, UInt8.le_iff_toNat_le, UInt8.reduceToNat] at small ⊢
  split at digit <;> omega

private theorem hexDigit_injective {a b : UInt8} (left : a < 16) (right : b < 16)
    (same : hexDigit a = hexDigit b) : a = b := by
  have first := hexDigit_toNat left
  have second := hexDigit_toNat right
  simp only [UInt8.lt_iff_toNat_lt, UInt8.reduceToNat] at left right
  rw [same, second] at first
  rw [← UInt8.toNat_inj]
  split at first <;> split at first <;> omega

private theorem nibbles_bounds (byte : UInt8) : byte / 16 < 16 ∧ byte % 16 < 16 := by
  have small := byte.toNat_lt
  simp only [UInt8.lt_iff_toNat_lt, UInt8.toNat_div, UInt8.toNat_mod, UInt8.reduceToNat] at small ⊢
  omega

private theorem nibbles_injective {a b : UInt8} (high : a / 16 = b / 16) (low : a % 16 = b % 16) : a = b := by
  simp only [← UInt8.toNat_inj, UInt8.toNat_div, UInt8.toNat_mod, UInt8.reduceToNat] at high low ⊢
  omega

theorem hexString_valid (digest : Digest) : validLeaseDigest (hexString digest) = true := by
  have length : (hexString digest).length = 64 := by
    simp [hexString]
  have digits : ∀ byte ∈ hexString digest,
      ((48 ≤ byte && byte ≤ 57) || (97 ≤ byte && byte ≤ 102)) = true := by
    intro byte member
    obtain ⟨source, -, here⟩ := List.mem_flatMap.mp member
    obtain ⟨high, low⟩ := nibbles_bounds source
    simp only [List.mem_cons, List.not_mem_nil, or_false] at here
    rcases here with rfl | rfl
    · simpa using hexDigit_valid _ high
    · simpa using hexDigit_valid _ low
  unfold validLeaseDigest
  rw [Bool.and_eq_true, List.all_eq_true]
  exact ⟨decide_eq_true length, digits⟩

private theorem hexBytes_injective {a b : List UInt8}
    (same : (a.flatMap fun byte => [hexDigit (byte / 16), hexDigit (byte % 16)]) =
      b.flatMap fun byte => [hexDigit (byte / 16), hexDigit (byte % 16)]) : a = b := by
  induction a generalizing b with
  | nil =>
    cases b with
    | nil => rfl
    | cons first rest => simp at same
  | cons first rest ih =>
    cases b with
    | nil => simp at same
    | cons other others =>
      simp only [List.flatMap_cons, List.cons_append, List.nil_append, List.cons.injEq] at same
      obtain ⟨high, low, later⟩ := same
      have upper := hexDigit_injective (nibbles_bounds first).1 (nibbles_bounds other).1 high
      have lower := hexDigit_injective (nibbles_bounds first).2 (nibbles_bounds other).2 low
      rw [nibbles_injective upper lower, ih later]

theorem hexString_injective {a b : Digest} (same : hexString a = hexString b) : a = b :=
  List.ofFn_injective (hexBytes_injective same)

/-- A stored digest is short and plain enough for the reader's limit. -/
theorem validLeaseDigest_plain {digest : GoString} (valid : validLeaseDigest digest = true) :
    digest.length = 64 ∧ digest.all identifierByte = true := by
  unfold validLeaseDigest at valid
  rw [Bool.and_eq_true, List.all_eq_true] at valid
  obtain ⟨length, digits⟩ := valid
  refine ⟨of_decide_eq_true length, List.all_eq_true.mpr fun byte member => ?_⟩
  have digit := digits byte member
  simp only [Bool.or_eq_true, Bool.and_eq_true, decide_eq_true_eq, UInt8.le_iff_toNat_le,
    UInt8.reduceToNat] at digit
  simp only [identifierByte, Bool.or_eq_true, Bool.and_eq_true, decide_eq_true_eq, UInt8.le_iff_toNat_le,
    UInt8.reduceToNat, beq_iff_eq]
  omega

/-! ## What is written can be read -/

theorem LeasesKept.fits (kept : LeasesKept policyID state) (valid : validPolicyIdentifier policyID 64 = true) :
    (encodeState state).Fits := by
  have encoded : encodeState state = state.wire := by
    unfold encodeState
    rw [if_neg (by rw [kept.shape]; simp [usesWindowMetadata])]
  have zero : Word 0 := by
    unfold Word
    decide
  have count : state.leases.entries.length ≤ 1024 :=
    (LeaseTable.length_le_total fun entry member => (kept.lease entry member).2.1).trans kept.total
  have observed := kept.observed
  rw [encoded]
  have shape := kept.shape
  refine ⟨?_, ?_, kept.revision, ?_, ?_, ?_, ?_, ?_, ?_, ?_, List.length_ofFn, ?_, count, ?_⟩ <;>
    dsimp only [PersistedState.wire]
  · rw [shape]
    show Word stateSchema
    unfold Word stateSchema
    decide
  · rw [shape]
    exact valid
  · rw [shape]
    exact Nat.le_of_ble_eq_true rfl
  · rw [shape]
    exact zero
  · rw [shape]
    exact zero
  · rw [shape]
    exact zero
  · unfold Word
    omega
  · rw [shape]
    exact zero
  · rw [shape]
    exact zero
  · rw [shape]
    intro segment member
    obtain ⟨slot, rfl⟩ := List.mem_ofFn.mp member
    exact ⟨zero, zero⟩
  · intro entry member
    obtain ⟨digest, positive, early, late⟩ := kept.lease entry member
    obtain ⟨length, plain⟩ := validLeaseDigest_plain digest
    have cost := LeaseTable.weight_le_total PersistedLease.cost (LeaseTable.lookup_iff_mem.mpr member)
    exact ⟨length, plain, cost.trans kept.total, by omega⟩

theorem LeasesKept.decodes (kept : LeasesKept policyID state)
    (valid : validPolicyIdentifier policyID 64 = true) :
    decodeState (encodeState state) = .ok state := by
  have shape := kept.shape
  have named : Identified state := by
    refine ⟨by rw [shape], ?_, by rw [shape]; simp⟩
    rw [shape]
    rintro empty
    rw [show policyID = [] from empty] at valid
    cases valid
  have plain : usesWindowMetadata state.algorithm = false := by
    rw [shape]
    rfl
  refine (decode_plain true named plain).trans ?_
  rw [shape]

/-- What both readers make of a row of leases. -/
theorem LeasesKept.loads (kept : LeasesKept policyID state)
    (valid : validPolicyIdentifier policyID 64 = true) (expiresAt now : Time) :
    loadRow (some ⟨encodeState state, expiresAt⟩) now =
      .ok (if expiresAt.nanos > now.nanos then some state else none) := by
  have small := (kept.fits valid).textLength_le
  unfold loadRow
  dsimp only
  rw [if_neg (by unfold maxEncodedStateBytes; omega)]
  by_cases live : expiresAt.nanos > now.nanos
  · rw [if_pos live, if_pos live, kept.decodes valid]
  · rw [if_neg live, if_neg live]

/-! ## Acquisitions -/

section
variable {state : PersistedState} {request : LeaseRequest} {digest : GoString} {term : Nat}

/-- A lease expires a whole lease after the time it is granted at. -/
theorem granted_expires (bounds : request.Bounds term) :
    ((clampLease state request).request.now.add request.request.policy.lease).unixMicro =
      leaseNow state request + term := by
  have now : (clampLease state request).request.now.unixMicro = leaseNow state request :=
    clampRequest_unixMicro _ _
  rw [bounds.lease_eq]
  simp only [Time.unixMicro, Time.add, Duration.ofMicros] at now ⊢
  omega

theorem LeasesKept.swept (kept : LeasesKept policyID state) (bounds : request.Bounds term)
    (room : leaseNow state request + term ≤ 9007199254740991) :
    LeasesKept policyID (sweptLeases state request) where
  shape := by
    unfold sweptLeases
    rw [kept.shape]
  revision := bounds.sound.revision_valid
  observed := by
    have early : state.observedMicros ≤ leaseNow state request := le_max_right _ _
    have observed := kept.observed
    show 0 ≤ leaseNow state request ∧ leaseNow state request ≤ 9007199254740991
    omega
  lease := fun entry member => kept.lease entry (LeaseTable.mem_keep.mp member).1
  total := LeaseTable.total_keep_le.trans kept.total

theorem LeasesKept.granted (kept : LeasesKept policyID state) (bounds : request.Bounds term)
    (room : leaseNow state request + term ≤ 9007199254740991) (valid : validLeaseDigest digest = true)
    (new : (liveLeases (leaseNow state request) state.leases).lookup digest = none)
    (enough : request.request.cost ≤ leaseRoom state request)
    (expires : expiresMicros = leaseNow state request + term) :
    LeasesKept policyID { sweptLeases state request with
      leases := (liveLeases (leaseNow state request) state.leases).insert digest
        ⟨request.request.cost, expiresMicros⟩ } where
  shape := by
    have swept := (kept.swept bounds room).shape
    rw [swept]
  revision := bounds.sound.revision_valid
  observed := (kept.swept bounds room).observed
  lease := by
    intro entry member
    rcases (LeaseTable.mem_insert new).mp member with rfl | member
    · have observed := (kept.swept bounds room).observed
      have positive := bounds.lease_pos
      have costed := bounds.cost_pos
      have now : (sweptLeases state request).observedMicros = leaseNow state request := rfl
      refine ⟨valid, costed, ?_, ?_⟩ <;> dsimp only <;> omega
    · exact (kept.swept bounds room).lease entry member
  total := by
    have limit := bounds.limit_le
    have costed := bounds.cost_pos
    unfold leaseRoom at enough
    rw [LeaseTable.total_insert new]
    dsimp only
    omega

/-- What `mutateLease` can answer in the exact range, by what it finds: the lease is
held at another cost, it is held, there is no room, or it is granted. -/
inductive Verdict (state : PersistedState) (request : LeaseRequest) (digest : GoString) (term : Nat) :
    LeaseMutation → Prop
  | foreign (found : (liveLeases (leaseNow state request) state.leases).lookup digest = some existing)
      (other : existing.cost ≠ request.request.cost) :
    Verdict state request digest term { next := some (sweptLeases state request), error := some .leaseNotOwned }
  | held (found : (liveLeases (leaseNow state request) state.leases).lookup digest = some existing)
      (same : existing.cost = request.request.cost)
      (reset : decision.reset = .ofUnixMicro existing.expiresMicros) :
    Verdict state request digest term
      { next := some (sweptLeases state request)
        lease := postgresLease (clampLease state request) (.ofUnixMicro existing.expiresMicros)
        decision := decision
        error := none }
  | short (new : (liveLeases (leaseNow state request) state.leases).lookup digest = none)
      (full : leaseRoom state request < request.request.cost)
      (reset : decision.reset = .ofUnixMicro
        (earliestExpiry (liveLeases (leaseNow state request) state.leases).entries maxInt64)) :
    Verdict state request digest term
      { next := some (sweptLeases state request), decision := decision, error := some .rejected }
  | granted (new : (liveLeases (leaseNow state request) state.leases).lookup digest = none)
      (enough : request.request.cost ≤ leaseRoom state request)
      (expires : expiresAt.unixMicro = leaseNow state request + term)
      (reset : decision.reset = expiresAt) :
    Verdict state request digest term
      { next := some { sweptLeases state request with
          leases := (liveLeases (leaseNow state request) state.leases).insert digest
            ⟨request.request.cost, leaseNow state request + term⟩ }
        lease := postgresLease (clampLease state request) expiresAt
        decision := decision
        error := none }

theorem leaseOutcome_verdict (bounds : request.Bounds term) :
    Verdict state request digest term (leaseOutcome state request digest) := by
  have swept : (sweptLeases state request).leases = liveLeases (leaseNow state request) state.leases := rfl
  unfold leaseOutcome
  dsimp only
  rw [swept]
  cases found : (liveLeases (leaseNow state request) state.leases).lookup digest with
  | some existing =>
    dsimp only
    by_cases other : existing.cost ≠ request.request.cost
    · rw [if_pos other]
      exact .foreign found other
    · rw [if_neg other]
      exact .held found (not_not.mp other) rfl
  | none =>
    by_cases full : request.request.cost > leaseRoom state request
    · rw [if_pos full]
      exact .short found full rfl
    · rw [if_neg full, granted_expires bounds]
      exact .granted found (not_lt.mp full) (granted_expires bounds) rfl

/-- What `strictPostgresLeaseResult` passes on. -/
theorem strictPostgresLeaseResult_finished (now : Int) (session : Program.Session database)
    {mutation : LeaseMutation} (known : mutation.error = none ∨ mutation.error = some .rejected)
    (finished : mutation.next = some next)
    (timely : validateStrictLeaseTime mutation.lease mutation.decision (.ofUnixMicro next.observedMicros) = none) :
    (strictPostgresLeaseResult mutation).run.alone now session =
      pure (.ok (next, mutation.lease, ⟨mutation.decision, mutation.error⟩), session) := by
  unfold strictPostgresLeaseResult
  rcases known with known | known <;>
  · rw [known, finished]
    dsimp only
    rw [timely]
    rfl

theorem strictPostgresLeaseResult_failed (now : Int) (session : Program.Session database)
    {mutation : LeaseMutation} (failed : mutation.error = some problem) (fatal : problem ≠ .rejected) :
    (strictPostgresLeaseResult mutation).run.alone now session = pure (.error (.sentinel problem), session) := by
  unfold strictPostgresLeaseResult
  rw [failed]
  cases problem <;> first | rfl | exact absurd rfl fatal

/-- A lease that expires when its decision says, after the effective time. -/
theorem validateStrictLeaseTime_lease {lease : Lease} {decision : Decision} {effective : Time}
    (same : lease.expiresAt = decision.reset) (later : effective.nanos < decision.reset.nanos) :
    validateStrictLeaseTime lease decision effective = none := by
  unfold validateStrictLeaseTime validateStrictDecisionTime
  rw [if_neg (fun early => absurd early.2 (not_lt.mpr later.le))]
  rw [same]
  exact if_neg (fun both => both.2.elim (fun early => absurd later (not_lt.mpr early)) (fun other => other rfl))

/-- No lease is returned, and the decision is not in the past. -/
theorem validateStrictLeaseTime_none {decision : Decision} {effective : Time}
    (later : effective.nanos < decision.reset.nanos) :
    validateStrictLeaseTime {} decision effective = none := by
  unfold validateStrictLeaseTime validateStrictDecisionTime
  rw [if_neg (fun early => absurd early.2 (not_lt.mpr later.le))]
  exact if_neg (fun both => both.1 rfl)

/-- A verdict is never in the past: its decision resets after the effective time, and
a lease expires when its decision resets. -/
theorem Verdict.timely (bounds : request.Bounds term)
    (room : leaseNow state request + term ≤ 9007199254740991) {mutation : LeaseMutation}
    (verdict : Verdict state request digest term mutation)
    (known : mutation.error = none ∨ mutation.error = some .rejected) (finished : mutation.next = some next) :
    next.observedMicros = leaseNow state request ∧
      validateStrictLeaseTime mutation.lease mutation.decision (.ofUnixMicro next.observedMicros) = none := by
  cases verdict with
  | foreign found other => rcases known with known | known <;> cases known
  | held found same reset =>
    cases finished
    refine ⟨rfl, validateStrictLeaseTime_lease reset.symm ?_⟩
    have live := (LeaseTable.lookup_keep.mp found).2
    rw [reset]
    simp only [decide_eq_true_eq] at live
    simp only [Time.ofUnixMicro, sweptLeases]
    omega
  | short new full reset =>
    cases finished
    refine ⟨rfl, validateStrictLeaseTime_none ?_⟩
    have later : leaseNow state request < earliestExpiry
        (liveLeases (leaseNow state request) state.leases).entries maxInt64 := by
      refine lt_earliestExpiry (fun entry member => ?_) (by unfold maxInt64; omega)
      exact of_decide_eq_true (LeaseTable.mem_keep.mp member).2
    rw [reset]
    simp only [Time.ofUnixMicro, sweptLeases]
    omega
  | granted new enough expires reset =>
    cases finished
    refine ⟨rfl, validateStrictLeaseTime_lease reset.symm ?_⟩
    have positive := bounds.lease_pos
    rw [reset]
    simp only [Time.unixMicro] at expires
    simp only [Time.ofUnixMicro, sweptLeases]
    omega

/-- What is written is kept. -/
theorem Verdict.kept (kept : LeasesKept policyID state) (bounds : request.Bounds term)
    (room : leaseNow state request + term ≤ 9007199254740991) (valid : validLeaseDigest digest = true)
    {mutation : LeaseMutation} (verdict : Verdict state request digest term mutation)
    (finished : mutation.next = some next) : LeasesKept policyID next := by
  cases verdict with
  | foreign found other =>
    cases finished
    exact kept.swept bounds room
  | held found same reset =>
    cases finished
    exact kept.swept bounds room
  | short new full reset =>
    cases finished
    exact kept.swept bounds room
  | granted new enough expires reset =>
    cases finished
    exact kept.granted bounds room valid new enough rfl

end

/-- What an acquisition makes of the answer of `mutateLease`: a fatal error changes
nothing, any other answer is written with its expiry. -/
def acquisition (content : database.Content) (key : Digest) (ttl : Duration) (mutation : LeaseMutation) :
    database.Content × Except StoreError (Lease × Answer) :=
  match mutation.error, mutation.next with
  | none, some next | some .rejected, some next =>
    (Function.update content (.bucket key) (some ⟨encodeState next, expiryFrom next.observedMicros ttl⟩),
      .ok (mutation.lease, ⟨mutation.decision, mutation.error⟩))
  | none, none | some .rejected, none => (content, .error (.sentinel .corrupt))
  | some problem, _ => (content, .error (.sentinel problem))

/-- A lease request at the time its store goes by. -/
def leaseAt (clock : ClockPolicy) (request : LeaseRequest) (serverNow : Int) : LeaseRequest :=
  { request with request := requestAt clock request.request serverNow }

section
variable {content : database.Content} {key : Digest} {clock : ClockPolicy} {request : LeaseRequest}
  {digest : GoString} {serverNow : Int} {current : Option PersistedState} {mutation : LeaseMutation}

theorem acquireStrict_answers (inRange : ClockInRange clock request.request.policy.lease serverNow)
    (load : loadRow (content (.bucket key)) (leaseAt clock request serverNow).request.now = .ok current)
    (step : mutateLease current (leaseAt clock request serverNow) digest = pure mutation)
    (known : mutation.error = none ∨ mutation.error = some .rejected) (finished : mutation.next = some next)
    (timely : validateStrictLeaseTime mutation.lease mutation.decision (.ofUnixMicro next.observedMicros) = none)
    (lives : postgresStateTTL request.request.policy.lease = pure ttl) :
    (acquireStrict clock key request digest).serve serverNow content =
      pure (acquisition content key ttl mutation) := by
  obtain ⟨session, loaded, -, cleared⟩ := loadStateStrict_alone serverNow key
    (leaseAt clock request serverNow).request.now ⟨content, content⟩
  rw [load] at loaded
  have written : acquisition content key ttl mutation =
      (Function.update content (.bucket key) (some ⟨encodeState next, expiryFrom next.observedMicros ttl⟩),
        .ok (mutation.lease, ⟨mutation.decision, mutation.error⟩)) := by
    unfold acquisition
    rcases known with known | known <;> rw [known, finished]
  rw [written]
  refine strictTransaction_commits ?_
  rw [call_ok beginLockedStrict_alone, call_ok (authoritativeTime_alone inRange),
    show requestAt clock request.request serverNow = (leaseAt clock request serverNow).request from rfl,
    call_ok loaded,
    show { request with request := (leaseAt clock request serverNow).request } =
      leaseAt clock request serverNow from rfl,
    step, call_ok compute_alone, call_ok (strictPostgresLeaseResult_finished _ _ known finished timely), lives,
    call_ok compute_alone, call_ok writeCell_alone, call_ok commitStrict_alone, cleared]
  rfl

theorem acquireStrict_refuses (inRange : ClockInRange clock request.request.policy.lease serverNow)
    (load : loadRow (content (.bucket key)) (leaseAt clock request serverNow).request.now = .ok current)
    (step : mutateLease current (leaseAt clock request serverNow) digest = pure mutation)
    (failed : mutation.error = some problem) (fatal : problem ≠ .rejected) :
    (acquireStrict clock key request digest).serve serverNow content =
      pure (content, .error (.sentinel problem)) := by
  obtain ⟨session, loaded, stored, -⟩ := loadStateStrict_alone serverNow key
    (leaseAt clock request serverNow).request.now ⟨content, content⟩
  rw [load] at loaded
  refine strictTransaction_fails session ?_ stored
  rw [call_ok beginLockedStrict_alone, call_ok (authoritativeTime_alone inRange),
    show requestAt clock request.request serverNow = (leaseAt clock request serverNow).request from rfl,
    call_ok loaded,
    show { request with request := (leaseAt clock request serverNow).request } =
      leaseAt clock request serverNow from rfl,
    step, call_ok compute_alone, call_fails (strictPostgresLeaseResult_failed _ _ failed fatal)]

/-- An acquisition that `mutateLease` decides. -/
theorem acquireStrict_decides (inRange : ClockInRange clock request.request.policy.lease serverNow)
    (load : loadRow (content (.bucket key)) (leaseAt clock request serverNow).request.now = .ok current)
    (bounds : (leaseAt clock request serverNow).Bounds term)
    (room : leaseNow state (leaseAt clock request serverNow) + term ≤ 9007199254740991)
    (step : mutateLease current (leaseAt clock request serverNow) digest =
      pure (leaseOutcome state (leaseAt clock request serverNow) digest))
    (lives : postgresStateTTL request.request.policy.lease = pure ttl) :
    (acquireStrict clock key request digest).serve serverNow content =
      pure (acquisition content key ttl (leaseOutcome state (leaseAt clock request serverNow) digest)) := by
  have verdict : Verdict state (leaseAt clock request serverNow) digest term
      (leaseOutcome state (leaseAt clock request serverNow) digest) := leaseOutcome_verdict bounds
  have timely := fun next => @Verdict.timely _ _ _ _ next bounds room _ verdict
  generalize leaseOutcome state (leaseAt clock request serverNow) digest = outcome at step verdict timely ⊢
  cases verdict with
  | foreign found other => exact acquireStrict_refuses inRange load step rfl (by simp)
  | held found same reset =>
    exact acquireStrict_answers inRange load step (.inl rfl) rfl (timely _ (.inl rfl) rfl).2 lives
  | short new full reset =>
    exact acquireStrict_answers inRange load step (.inr rfl) rfl (timely _ (.inr rfl) rfl).2 lives
  | granted new enough expires reset =>
    exact acquireStrict_answers inRange load step (.inl rfl) rfl (timely _ (.inl rfl) rfl).2 lives

theorem acquireStrict_outside (server : clock = .serverClock)
    (outside : validateServerClockRange (.ofUnixMicro serverNow) request.request.policy.lease =
      pure (some problem)) :
    (acquireStrict clock key request digest).serve serverNow content =
      pure (content, .error (.sentinel problem)) := by
  refine strictTransaction_fails ⟨content, content⟩ ?_ rfl
  rw [call_ok beginLockedStrict_alone, call_fails (authoritativeTime_outside server outside)]

end

/-! ## Releases -/

/-- What a release makes of a row. -/
def released (state : PersistedState) (digest : GoString) : Option Row :=
  let leases := state.leases.erase digest
  if leases.entries = [] then none
  else some ⟨encodeState { state with leases := leases }, latestLeaseExpiry leases⟩

theorem le_latestLeaseExpiry {leases : Leases} {entry : Σ _ : GoString, PersistedLease}
    (member : entry ∈ leases.entries) : entry.2.expiresMicros ≤ (latestLeaseExpiry leases).unixMicro := by
  have folded : ∀ (entries : List (Σ _ : GoString, PersistedLease)) (start : Int),
      start ≤ entries.foldl (fun latest entry => max latest entry.2.expiresMicros) start ∧
        ∀ entry ∈ entries, entry.2.expiresMicros ≤
          entries.foldl (fun latest entry => max latest entry.2.expiresMicros) start := by
    intro entries
    induction entries with
    | nil => exact fun start => ⟨le_rfl, by simp⟩
    | cons first rest ih =>
      intro start
      obtain ⟨above, each⟩ := ih (max start first.2.expiresMicros)
      refine ⟨(le_max_left _ _).trans above, fun entry member => ?_⟩
      rcases List.mem_cons.mp member with rfl | member
      · exact (le_max_right _ _).trans above
      · exact each entry member
  unfold latestLeaseExpiry
  rw [Time.unixMicro_ofUnixMicro]
  exact (folded leases.entries 0).2 entry member

theorem LeasesKept.erased (kept : LeasesKept policyID state) (digest : GoString) :
    LeasesKept policyID { state with leases := state.leases.erase digest } where
  shape := by
    rw [kept.shape]
  revision := kept.revision
  observed := kept.observed
  lease := fun entry member => kept.lease entry (LeaseTable.mem_of_erase member)
  total := LeaseTable.total_erase_le.trans kept.total

section
variable {content : database.Content} {key : Digest} {lease : Lease} {digest : GoString} {serverNow : Int}

theorem loadStateForReleaseStrict_alone (kept : LeasesKept policyID state)
    (valid : validPolicyIdentifier policyID 64 = true) (session : Program.Session database)
    (row : session.working (.bucket key) = some ⟨encodeState state, expiresAt⟩) :
    (loadStateForReleaseStrict key).run.alone serverNow session = pure (.ok (some state), session) := by
  have small := (kept.fits valid).textLength_le
  unfold loadStateForReleaseStrict
  rw [call_ok readCell_alone, row]
  dsimp only
  rw [if_neg (by unfold maxEncodedStateBytes; omega), kept.decodes valid]
  rfl

theorem releaseStrict_missing (row : content (.bucket key) = none) :
    (releaseStrict key lease digest).serve serverNow content =
      pure (content, .error (.sentinel .leaseNotFound)) := by
  refine strictTransaction_fails ⟨content, content⟩ ?_ rfl
  have loaded : (loadStateForReleaseStrict key).run.alone serverNow ⟨content, content⟩ =
      pure (.ok none, ⟨content, content⟩) := by
    unfold loadStateForReleaseStrict
    rw [call_ok readCell_alone, show (⟨content,
      content⟩ : Program.Session database).working (.bucket key) = none from row]
    rfl
  rw [call_ok beginLockedStrict_alone, call_ok loaded]
  rfl

/-- One equation for a release on a row of leases. -/
theorem releaseStrict_exact (kept : LeasesKept lease.policyID state)
    (valid : validPolicyIdentifier lease.policyID 64 = true)
    (row : content (.bucket key) = some ⟨encodeState state, expiresAt⟩) :
    (releaseStrict key lease digest).serve serverNow content =
      pure (match state.leases.lookup digest with
        | none => (content, .error (.sentinel .leaseNotFound))
        | some existing =>
          if existing.cost ≠ lease.cost ∨ existing.expiresMicros ≠ lease.expiresAt.unixMicro then
            (content, .error (.sentinel .leaseNotOwned))
          else (Function.update content (.bucket key) (released state digest), .ok ())) := by
  have loaded : (loadStateForReleaseStrict key).run.alone serverNow ⟨content, content⟩ =
      pure (.ok (some state), ⟨content, content⟩) := loadStateForReleaseStrict_alone kept valid _ row
  cases found : state.leases.lookup digest with
  | none =>
    refine strictTransaction_fails ⟨content, content⟩ ?_ rfl
    rw [call_ok beginLockedStrict_alone, call_ok loaded]
    dsimp only
    rw [kept.validates, call_ok compute_alone]
    rw [found]
    rfl
  | some existing =>
    dsimp only
    by_cases other : existing.cost ≠ lease.cost ∨ existing.expiresMicros ≠ lease.expiresAt.unixMicro
    · rw [if_pos other]
      refine strictTransaction_fails ⟨content, content⟩ ?_ rfl
      rw [call_ok beginLockedStrict_alone, call_ok loaded]
      dsimp only
      rw [kept.validates, call_ok compute_alone]
      rw [found]
      dsimp only
      rw [if_pos other]
      rfl
    · rw [if_neg other]
      refine strictTransaction_commits ?_
      rw [call_ok beginLockedStrict_alone, call_ok loaded]
      dsimp only
      rw [kept.validates, call_ok compute_alone]
      rw [found]
      dsimp only
      rw [if_neg other, call_ok writeCell_alone, commitStrict_alone]
      rfl

theorem releaseState_exact (kept : LeasesKept lease.policyID state) (digest : GoString) :
    releaseState (some state) lease digest = pure (match state.leases.lookup digest with
      | none => (some state, some .leaseNotFound)
      | some existing =>
        if existing.cost ≠ lease.cost ∨ existing.expiresMicros ≠ lease.expiresAt.unixMicro then
          (some state, some .leaseNotOwned)
        else (if (state.leases.erase digest).entries = [] then none
          else some { state with leases := state.leases.erase digest }, none)) := by
  unfold releaseState
  simp only [kept.validates, pure_bind]
  cases state.leases.lookup digest with
  | none => rfl
  | some existing =>
    dsimp only
    split <;> rfl

/-- The transaction writes what the body leaves of the state it loaded, and fails
where the body does. -/
theorem releaseStrict_state (kept : LeasesKept lease.policyID state)
    (valid : validPolicyIdentifier lease.policyID 64 = true)
    (row : content (.bucket key) = some ⟨encodeState state, expiresAt⟩) :
    ∃ next problem, releaseState (some state) lease digest = pure (next, problem) ∧
      (releaseStrict key lease digest).serve serverNow content = pure (match problem with
        | some error => (content, .error (.sentinel error))
        | none => (Function.update content (.bucket key)
            (next.map fun left => ⟨encodeState left, latestLeaseExpiry left.leases⟩), .ok ())) := by
  rw [releaseState_exact kept, releaseStrict_exact kept valid row]
  cases state.leases.lookup digest with
  | none => exact ⟨_, _, rfl, rfl⟩
  | some existing =>
    dsimp only
    split
    · exact ⟨_, _, rfl, rfl⟩
    · refine ⟨_, _, rfl, ?_⟩
      unfold released
      dsimp only
      split <;> rfl

end

end RateLimit.Postgres
