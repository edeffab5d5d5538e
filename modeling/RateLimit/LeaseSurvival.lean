import RateLimit.LeaseStore
import RateLimit.Runs

/-! Whether leases survive in the strict store. Two clocks run on a row: each lease
has its expiry, and the row has one that the last writer chose. An acquisition that
finds the row expired drops it with everything in it. So the leases a run still owes
its callers are in the table as long as no row ends before one of them does, and that
is so exactly when every acquisition that writes finds no live lease that outlasts the
life it gives the row. -/
namespace RateLimit.Postgres

open Machine

/-! ## Runs of lease calls -/

inductive LeaseCall where
  | acquire (request : ValidLeaseRequest) (serverNow : Int)
  | release (lease : Lease) (serverNow : Int)

inductive LeaseReply where
  | acquired (result : Except StoreError (Lease × Answer))
  | released (result : Except StoreError Unit)

/-- A valid lease request at the time its store goes by. -/
def timedLease (clock : ClockPolicy) (request : ValidLeaseRequest) (serverNow : Int) : LeaseRequest :=
  leaseAt clock (wholeLease request.toLeaseRequest) serverNow

/-- One call on an undisturbed database. -/
def leaseStep (sha256 : GoString → Digest) (clock : ClockPolicy) (content : database.Content) :
    LeaseCall → Machine (database.Content × LeaseReply)
  | .acquire request serverNow => do
    let result ← (Store.acquireStrict sha256 clock .live request.toLeaseRequest).serve serverNow content
    pure (result.1, .acquired result.2)
  | .release lease serverNow => do
    let result ← (Store.releaseStrict sha256 .live lease).serve serverNow content
    pure (result.1, .released result.2)

namespace LeaseCall

/-- The time a call goes by. A release goes by none. -/
def time (clock : ClockPolicy) : LeaseCall → Option Int
  | .acquire request serverNow =>
    some (timedLease clock request serverNow).request.now.unixMicro
  | .release _ _ => none

def policyID : LeaseCall → GoString
  | .acquire request _ => request.request.policy.id
  | .release lease _ => lease.policyID

def key : LeaseCall → Key
  | .acquire request _ => request.request.key
  | .release lease _ => lease.key

def leaseID : LeaseCall → GoString
  | .acquire request _ => request.leaseID
  | .release lease _ => lease.id

end LeaseCall

abbrev LeaseEntry := Entry database.Content LeaseCall LeaseReply

/-- The leases a caller owns, one an ID: those granted and not released since. -/
def recordLease (held : List Lease) (entry : LeaseEntry) : List Lease :=
  match entry.input, entry.output with
  | .acquire _ _, .acquired (.ok (lease, ⟨_, none⟩)) =>
    lease :: held.filter fun other => decide (other.id ≠ lease.id)
  | .release lease _, .released (.ok ()) => held.filter fun other => decide (other.id ≠ lease.id)
  | _, _ => held

def heldLeases (history : List LeaseEntry) : List Lease := history.foldl recordLease []

/-- Those of them that expire after an instant. -/
def liveAt (now : Int) (held : List Lease) : List Lease :=
  held.filter fun lease => decide (now < lease.expiresAt.unixMicro)

/-- An instant not before any time a run has gone by. -/
def Current (clock : ClockPolicy) (history : List LeaseEntry) (now : Int) : Prop :=
  ∀ entry ∈ history, ∀ time ∈ entry.input.time clock, time ≤ now

/-- The times of a list of calls never decrease. -/
def Ordered (clock : ClockPolicy) (calls : List LeaseCall) : Prop :=
  (calls.filterMap (LeaseCall.time clock)).Pairwise (· ≤ ·)

/-! ## Rows of leases -/

def storedLeases : Option Row → Leases
  | none => ∅
  | some row => row.state.leases

def storedObserved : Option Row → Int
  | none => 0
  | some row => row.state.observedMicros

/-- A row does not end before a live lease it holds. -/
def Outlives (row : Option Row) (now : Int) : Prop :=
  ∀ stored, row = some stored → ∀ entry ∈ stored.state.leases.entries,
    now < entry.2.expiresMicros → entry.2.expiresMicros ≤ stored.expiresAt.unixMicro

/-- An acquisition that is going to write, in the exact range and not refused for the
cost of the lease that is there, finds no live lease that outlasts the life it gives
the row. -/
def Covered (sha256 : GoString → Digest) (clock : ClockPolicy) (row : Option Row) : LeaseCall → Prop
  | .release _ _ => True
  | .acquire request serverNow =>
    let timed := timedLease clock request serverNow
    let now := timed.request.now.unixMicro
    let effective := max now (storedObserved row)
    (-9007199254740991 : Int) ≤ now →
    effective + request.request.policy.lease.microseconds ≤ 9007199254740991 →
    (∀ existing ∈ (liveLeases effective (storedLeases row)).lookup (hexString (sha256 request.leaseID)),
      existing.cost = request.request.cost) →
    ∀ ttl, postgresStateTTL request.request.policy.lease = pure ttl →
      ∀ entry ∈ (storedLeases row).entries, now < entry.2.expiresMicros →
        entry.2.expiresMicros ≤ (expiryFrom effective ttl).unixMicro

/-- A row as the store leaves it behind. -/
def LeaseRow (policyID : GoString) (row : Option Row) : Prop :=
  ∀ stored, row = some stored → validPolicyIdentifier policyID 64 = true ∧
    ∃ state, stored.state = encodeState state ∧ LeasesKept policyID state

theorem LeasesKept.encoded (kept : LeasesKept policyID state) : encodeState state = state.wire := by
  unfold encodeState
  rw [if_neg (by rw [kept.shape]; simp [usesWindowMetadata])]

theorem Outlives.later {row : Option Row} (outlives : Outlives row now) (later : now ≤ after) :
    Outlives row after :=
  fun stored same entry member live => outlives stored same entry member (by omega)

/-- What is stored under a lease's name. -/
def leaseName (sha256 : GoString → Digest) (lease : Lease) : GoString := hexString (sha256 lease.id)

def leaseValue (lease : Lease) : PersistedLease := ⟨lease.cost, lease.expiresAt.unixMicro⟩

/-- The live leases of a row are the live leases of a ledger, and its clocks are not
ahead of them. -/
structure TracksLeases (sha256 : GoString → Digest) (row : Option Row) (held : List Lease) (now : Int) : Prop where
  lists : LeaseTable.Lists (leaseName sha256) leaseValue (liveLeases now (storedLeases row)) (liveAt now held)
  observed : storedObserved row ≤ max now 0
  outlives : Outlives row now

/-! ## What an acquisition does -/

section
variable {sha256 : GoString → Digest} {clock : ClockPolicy} {content : database.Content} {serverNow : Int}

/-- What `loadStateStrict` finds in a row of leases. -/
theorem LeaseRow.loads {row : Option Row} (kept : LeaseRow policyID row) (now : Time) :
    ∃ current, loadRow row now = .ok current ∧ (∀ state, current = some state → LeasesKept policyID state) ∧
      ((current = none ∧ ∀ stored, row = some stored → stored.expiresAt.nanos ≤ now.nanos) ∨
        ∃ state, current = some state ∧ state.leases = storedLeases row ∧
          state.observedMicros = storedObserved row) := by
  cases row with
  | none => exact ⟨none, rfl, by simp, .inl ⟨rfl, by simp⟩⟩
  | some stored =>
    obtain ⟨valid, state, encoded, leases⟩ := kept stored rfl
    have loaded := leases.loads valid stored.expiresAt now
    rw [← encoded] at loaded
    by_cases live : stored.expiresAt.nanos > now.nanos
    · rw [if_pos live] at loaded
      refine ⟨some state, loaded, ?_, .inr ⟨state, rfl, ?_, ?_⟩⟩
      · rintro state ⟨⟩
        exact leases
      · show _ = stored.state.leases
        rw [encoded, leases.encoded]
        rfl
      · show _ = stored.state.observedMicros
        rw [encoded, leases.encoded]
        rfl
    · rw [if_neg live] at loaded
      refine ⟨none, loaded, by simp, .inl ⟨rfl, ?_⟩⟩
      rintro stored ⟨⟩
      exact not_lt.mp live

@[simp] theorem timedLease_policy (request : ValidLeaseRequest) :
    (timedLease clock request serverNow).request.policy = request.request.policy := requestAt_policy _ _ _

@[simp] theorem timedLease_cost (request : ValidLeaseRequest) :
    (timedLease clock request serverNow).request.cost = request.request.cost := requestAt_cost _ _ _

theorem timedLease_client (request : ValidLeaseRequest) :
    (timedLease .clientClock request serverNow).request.now = .ofUnixMicro request.request.now.unixMicro := rfl

theorem timedLease_server (request : ValidLeaseRequest) :
    (timedLease .serverClock request serverNow).request.now = .ofUnixMicro serverNow := rfl

/-- One equation for an acquisition on a row of leases. -/
theorem LeaseRow.acquires {request : ValidLeaseRequest} (clock : ClockPolicy) (serverNow : Int)
    (bucket : sha256 (bucketName request.request.policy.id request.request.key) = key)
    (kept : LeaseRow request.request.policy.id (content (.bucket key))) :
    ∃ state term ttl, LeasesKept request.request.policy.id state ∧
      ((state.leases = ∅ ∧ state.observedMicros = 0 ∧ ∀ stored, content (.bucket key) = some stored →
          stored.expiresAt.nanos ≤ (timedLease clock request serverNow).request.now.nanos) ∨
        (state.leases = storedLeases (content (.bucket key)) ∧
          state.observedMicros = storedObserved (content (.bucket key)))) ∧
      request.request.policy.lease = .ofMicros (term : Nat) ∧
      postgresStateTTL request.request.policy.lease = pure ttl ∧ (term : Int) ≤ ttl.nanos / 1000 ∧
      (-9007199254740991 ≤ (timedLease clock request serverNow).request.now.unixMicro →
        (timedLease clock request serverNow).Bounds term) ∧
      (Store.acquireStrict sha256 clock .live request.toLeaseRequest).serve serverNow content =
        pure (if -9007199254740991 ≤ (timedLease clock request serverNow).request.now.unixMicro ∧
            leaseNow state (timedLease clock request serverNow) + term ≤ 9007199254740991 then
          acquisition content key ttl
            (leaseOutcome state (timedLease clock request serverNow) (hexString (sha256 request.leaseID)))
          else (content, .error (.sentinel .overflow))) := by
  obtain ⟨term, bounds, -⟩ := request.bounds
  have sound := bounds.sound
  have later : -9007199254740991 ≤ (timedLease clock request serverNow).request.now.unixMicro →
      (timedLease clock request serverNow).Bounds term :=
    fun early => bounds.later (timedLease_policy request) (timedLease_cost request) early
  obtain ⟨current, load, leases, origin⟩ := kept.loads
    (timedLease clock request serverNow).request.now
  obtain ⟨ttl, lives, long⟩ := postgresStateTTL_exact term (by
    have small := bounds.lease_le
    simp only [Duration.ofMicros, maxInt64]
    omega)
  rw [← bounds.lease_eq] at lives
  have reaches : Store.acquireStrict sha256 clock .live request.toLeaseRequest =
      acquireStrict clock key (wholeLease request.toLeaseRequest) (hexString (sha256 request.leaseID)) := by
    simp only [Store.acquireStrict, request.accepted, postgresStrictContext, bucket]
  refine ⟨loadedLeases current (timedLease clock request serverNow), term, ttl, ?_, ?_, bounds.lease_eq, lives,
    long, later, ?_⟩
  · cases current with
    | none =>
      have fresh := freshLeases_kept (show (timedLease clock request serverNow).request.policy.Sound by
        rw [timedLease_policy]; exact sound)
      rw [timedLease_policy] at fresh
      exact fresh
    | some state => exact leases state rfl
  · rcases origin with ⟨rfl, expired⟩ | ⟨state, rfl, same, observed⟩
    · exact .inl ⟨rfl, rfl, expired⟩
    · exact .inr ⟨same, observed⟩
  · rw [reaches]
    have range := validateServerClockRange_exact (.ofUnixMicro serverNow) bounds.lease_pos bounds.lease_le
    rw [← bounds.lease_eq, Time.unixMicro_ofUnixMicro] at range
    by_cases outside : clock = .serverClock ∧ ¬ (-9007199254740991 ≤ serverNow ∧ serverNow + term ≤ 9007199254740991)
    · obtain ⟨rfl, outside⟩ := outside
      rw [if_neg outside] at range
      have least : serverNow ≤ leaseNow (loadedLeases current (timedLease .serverClock request serverNow))
          (timedLease .serverClock request serverNow) := by
        refine le_trans (le_of_eq ?_) (le_max_left _ _)
        rw [timedLease_server, Time.unixMicro_ofUnixMicro]
      rw [if_neg (by rw [timedLease_server, Time.unixMicro_ofUnixMicro]; omega)]
      exact acquireStrict_outside rfl range
    · have inRange : ClockInRange clock request.request.policy.lease serverNow := by
        rintro rfl
        rw [range, if_pos (by simpa using outside)]
      have early : -9007199254740991 ≤ (timedLease clock request serverNow).request.now.unixMicro := by
        cases clock with
        | clientClock =>
          rw [timedLease_client, Time.unixMicro_ofUnixMicro]
          exact bounds.not_before
        | serverClock =>
          rw [timedLease_server, Time.unixMicro_ofUnixMicro]
          have inside : -9007199254740991 ≤ serverNow ∧ serverNow + term ≤ 9007199254740991 := by
            simpa using outside
          exact inside.1
      have timed := later early
      obtain ⟨-, step⟩ := mutateLease_exact timed (hexString (sha256 request.leaseID))
        (by rw [timedLease_policy]; exact leases)
      by_cases room : leaseNow (loadedLeases current (timedLease clock request serverNow))
          (timedLease clock request serverNow) + term ≤ 9007199254740991
      · rw [if_pos room] at step
        rw [if_pos ⟨early, room⟩]
        exact acquireStrict_decides inRange load timed room step lives
      · rw [if_neg room] at step
        rw [if_neg (fun both => room both.2)]
        exact acquireStrict_refuses inRange load step rfl (by simp)

/-- The observed time of a row is the zero of its type or a time its store went by. -/
theorem LeaseRow.observed {row : Option Row} (kept : LeaseRow policyID row) : 0 ≤ storedObserved row := by
  cases row with
  | none => exact le_rfl
  | some stored =>
    obtain ⟨-, state, encoded, leases⟩ := kept stored rfl
    show 0 ≤ stored.state.observedMicros
    rw [encoded, leases.encoded]
    exact leases.observed.1

theorem LeaseRow.positive {row : Option Row} (kept : LeaseRow policyID row)
    {entry : Σ _ : GoString, PersistedLease} (member : entry ∈ (storedLeases row).entries) :
    0 < entry.2.cost ∧ 0 < entry.2.expiresMicros := by
  cases row with
  | none => exact absurd member List.not_mem_nil
  | some stored =>
    obtain ⟨-, state, encoded, leases⟩ := kept stored rfl
    have inside : entry ∈ state.leases.entries := by
      change entry ∈ stored.state.leases.entries at member
      rw [encoded, leases.encoded] at member
      exact member
    obtain ⟨-, cost, expires, -⟩ := leases.lease entry inside
    exact ⟨cost, expires⟩

/-- Every stored lease expires after the start of 1970, so the start of 1970 and any
earlier time see the same leases. -/
theorem LeaseRow.live_zero {row : Option Row} (kept : LeaseRow policyID row) (now : Int) :
    liveLeases (max now 0) (storedLeases row) = liveLeases now (storedLeases row) := by
  refine AList.ext (List.filter_congr fun entry member => ?_)
  have positive := (kept.positive member).2
  rw [decide_eq_decide]
  omega

/-- What an acquisition works on shows the live leases of the row, whether the row was
loaded or dropped. -/
theorem TracksLeases.found {row : Option Row} {request : LeaseRequest}
    (tracks : TracksLeases sha256 row held request.request.now.unixMicro) (kept : LeaseRow policyID row)
    (origin : (state.leases = ∅ ∧ state.observedMicros = 0 ∧
        ∀ stored, row = some stored → stored.expiresAt.nanos ≤ request.request.now.nanos) ∨
      (state.leases = storedLeases row ∧ state.observedMicros = storedObserved row)) :
    leaseNow state request = max request.request.now.unixMicro 0 ∧
      liveLeases (leaseNow state request) state.leases =
        liveLeases request.request.now.unixMicro (storedLeases row) := by
  have least := kept.observed
  have most := tracks.observed
  rcases origin with ⟨leases, observed, expired⟩ | ⟨leases, observed⟩
  · have now : leaseNow state request = max request.request.now.unixMicro 0 := by
      unfold leaseNow
      rw [observed]
    refine ⟨now, ?_⟩
    -- The row has ended, and none of its leases outlasts it.
    have gone : ∀ entry ∈ (storedLeases row).entries,
        ¬ decide (request.request.now.unixMicro < entry.2.expiresMicros) = true := by
      intro entry member live
      cases row with
      | none => exact absurd member List.not_mem_nil
      | some stored =>
        have bound := tracks.outlives stored rfl entry member (of_decide_eq_true live)
        have ended := expired stored rfl
        have later := of_decide_eq_true live
        simp only [Time.unixMicro] at bound later
        omega
    rw [leases]
    exact AList.ext (List.filter_eq_nil_iff.mpr gone).symm
  · have now : leaseNow state request = max request.request.now.unixMicro 0 := by
      unfold leaseNow
      rw [observed]
      omega
    refine ⟨now, ?_⟩
    rw [now, leases, kept.live_zero]

/-- A ledger at a later instant, from the ledger at an earlier one. -/
theorem liveAt_liveAt (held : List Lease) (later : now ≤ after) :
    (liveAt now held).filter (fun lease => decide (after < lease.expiresAt.unixMicro)) = liveAt after held := by
  unfold liveAt
  rw [List.filter_filter]
  refine List.filter_congr fun lease _ => ?_
  rw [← Bool.decide_and, decide_eq_decide]
  omega

/-- A written row tracks a ledger from the time it was written on. -/
theorem TracksLeases.written {stored : Row} {holds : List Lease}
    (lists : LeaseTable.Lists (leaseName sha256) leaseValue stored.state.leases holds)
    (live : ∀ after, now ≤ after →
      holds.filter (fun lease => decide (after < lease.expiresAt.unixMicro)) = liveAt after held)
    (observed : stored.state.observedMicros ≤ max now 0) (outlives : Outlives (some stored) now)
    (later : now ≤ after) : TracksLeases sha256 (some stored) held after where
  lists := by
    have kept := lists.keep fun lease => decide (after < lease.expiresMicros)
    rw [← live after later]
    exact kept
  observed := by
    show stored.state.observedMicros ≤ max after 0
    omega
  outlives := outlives.later later

/-- A row that was left alone tracks its ledger at later instants too. -/
theorem TracksLeases.later {row : Option Row} (tracks : TracksLeases sha256 row held now) (later : now ≤ after) :
    TracksLeases sha256 row held after where
  lists := by
    have kept := tracks.lists.keep fun lease => decide (after < lease.expiresMicros)
    unfold liveLeases at kept
    rw [LeaseTable.keep_keep (fun lease live => by
      simp only [decide_eq_true_eq] at live ⊢
      omega)] at kept
    rw [← liveAt_liveAt held later]
    exact kept
  observed := by
    have observed := tracks.observed
    omega
  outlives := tracks.outlives.later later

/-- The condition on an acquisition, in the terms of a tracked row. -/
theorem covered_iff {row : Option Row} {request : ValidLeaseRequest}
    (clocked : (timedLease clock request serverNow).request.now.unixMicro = now)
      (tracks : TracksLeases sha256 row held now)
    (kept : LeaseRow policyID row) (lease : request.request.policy.lease = .ofMicros (term : Nat))
    (lives : postgresStateTTL request.request.policy.lease = pure ttl) :
    Covered sha256 clock row (.acquire request serverNow) ↔
      (-9007199254740991 ≤ now → max now 0 + term ≤ 9007199254740991 →
        (∀ existing ∈ (liveLeases now (storedLeases row)).lookup (hexString (sha256 request.leaseID)),
          existing.cost = request.request.cost) →
        ∀ entry ∈ (liveLeases now (storedLeases row)).entries, entry.2.expiresMicros ≤
          max now 0 + ttl.nanos / 1000) := by
  have least := kept.observed
  have most := tracks.observed
  have effective : max now (storedObserved row) = max now 0 := by omega
  unfold Covered
  dsimp only
  rw [clocked, effective, kept.live_zero, lease, Duration.microseconds_ofMicros]
  rw [lease] at lives
  constructor
  · intro covered early room same entry member
    obtain ⟨inside, live⟩ := LeaseTable.mem_keep.mp member
    have bound := covered early room same ttl lives entry inside (of_decide_eq_true live)
    rwa [expiryFrom_eq, Time.unixMicro_ofUnixMicro] at bound
  · intro covered early room same other lives' entry inside live
    obtain rfl := pure_injective (lives.symm.trans lives')
    rw [expiryFrom_eq, Time.unixMicro_ofUnixMicro]
    exact covered early room same entry (LeaseTable.mem_keep.mpr ⟨inside, decide_eq_true live⟩)

/-- It is enough that no lease of the row outlasts the life it is given. -/
theorem covered_of_le {row : Option Row} {request : ValidLeaseRequest} (ttl : Duration)
    (lives : postgresStateTTL request.request.policy.lease = pure ttl)
    (bound : ∀ entry ∈ (storedLeases row).entries, entry.2.expiresMicros ≤ (expiryFrom
      (max (timedLease clock request serverNow).request.now.unixMicro (storedObserved row)) ttl).unixMicro) :
    Covered sha256 clock row (.acquire request serverNow) := by
  intro _ _ _ other lives' entry member _
  obtain rfl := pure_injective (lives.symm.trans lives')
  exact bound entry member

/-- The lease of an answer is the caller's, under the ID they asked for. -/
def OwnLease (request : ValidLeaseRequest) (reply : Except StoreError (Lease × Answer)) : Prop :=
  ∀ lease decision, reply = .ok (lease, ⟨decision, none⟩) →
    lease.id = request.leaseID ∧ lease.policyID = request.request.policy.id ∧ lease.key = request.request.key

theorem postgresLease_own (request : ValidLeaseRequest) (state : PersistedState) (expiresAt : Time) :
    let lease := postgresLease (clampLease state (timedLease clock request serverNow)) expiresAt
    lease.policyID = request.request.policy.id ∧ lease.key = request.request.key ∧ lease.cost =
      request.request.cost := by
  intro lease
  have policy : (clampLease state (timedLease clock request serverNow)).request.policy =
      request.request.policy := (clampRequest_policy _ _).trans (timedLease_policy request)
  have cost : lease.cost = request.request.cost := (clampRequest_cost _ _).trans (timedLease_cost request)
  have key : lease.key = request.request.key := by
    show (clampRequest state (timedLease clock request serverNow).request).key = _
    unfold clampRequest
    dsimp only
    split <;> cases clock <;> rfl
  exact ⟨congrArg (fun p : Policy => p.id) policy, key, cost⟩

/-- A ledger without the lease of one ID is without the holds of that name. -/
theorem filter_leaseName {lease : Lease} {held : List Lease}
    (distinct : ∀ other ∈ held, sha256 other.id = sha256 lease.id → other.id = lease.id) :
    held.filter (fun other => decide (leaseName sha256 other ≠ leaseName sha256 lease)) =
      held.filter fun other => decide (other.id ≠ lease.id) := by
  refine List.filter_congr fun other member => ?_
  rw [decide_eq_decide, not_iff_not]
  exact ⟨fun same => distinct other member (hexString_injective same), fun same => by
    unfold leaseName
    rw [same]⟩

/-- The ledger after a lease was returned: the row lists it under its name. -/
theorem recordLease_returned {lease : Lease} {held : List Lease}
    (distinct : ∀ other ∈ held, sha256 other.id = sha256 lease.id → other.id = lease.id)
    (later : now ≤ after) :
    (lease :: (liveAt now held).filter fun other =>
        decide (leaseName sha256 other ≠ leaseName sha256 lease)).filter
      (fun lease => decide (after < lease.expiresAt.unixMicro)) =
      liveAt after (lease :: held.filter fun other => decide (other.id ≠ lease.id)) := by
  rw [← filter_leaseName distinct]
  unfold liveAt
  rw [List.filter_cons, List.filter_cons]
  have rest : ((held.filter fun lease => decide (now < lease.expiresAt.unixMicro)).filter fun other =>
        decide (leaseName sha256 other ≠ leaseName sha256 lease)).filter
        (fun lease => decide (after < lease.expiresAt.unixMicro)) =
      (held.filter fun other => decide (leaseName sha256 other ≠ leaseName sha256 lease)).filter
        fun lease => decide (after < lease.expiresAt.unixMicro) := by
    simp only [List.filter_filter]
    refine List.filter_congr fun other _ => ?_
    rw [← Bool.decide_and, ← Bool.decide_and, ← Bool.decide_and, decide_eq_decide]
    constructor
    · rintro ⟨expires, other, -⟩
      exact ⟨expires, other⟩
    · rintro ⟨expires, other⟩
      exact ⟨expires, other, by omega⟩
  rw [rest]

/-- What one acquisition does to a tracked row. -/
structure AcquireStep (sha256 : GoString → Digest) (clock : ClockPolicy) (request : ValidLeaseRequest)
    (serverNow now : Int) (row after : Option Row) (reply : Except StoreError (Lease × Answer))
    (held : List Lease) : Prop where
  /-- The condition says whether the row outlives its leases afterwards. -/
  covered : Covered sha256 clock row (.acquire request serverNow) ↔ Outlives after now
  tracks : Outlives after now → ∀ content content' later, now ≤ later → TracksLeases sha256 after
    (recordLease held ⟨content, .acquire request serverNow, .acquired reply, content'⟩) later
  /-- A lease that was not held before fits under the limit. -/
  limit : ∀ lease decision, reply = .ok (lease, ⟨decision, none⟩) →
    (∀ other ∈ liveAt now held, other.id ≠ request.leaseID) → ∀ content content',
      ((liveAt now (recordLease held ⟨content, .acquire request serverNow, .acquired reply, content'⟩)).map
        Lease.cost).sum ≤ request.request.policy.limit

/-- An acquisition that changes nothing. -/
theorem AcquireStep.refused {row : Option Row} {request : ValidLeaseRequest}
    (tracks : TracksLeases sha256 row held now)
    (covered : Covered sha256 clock row (.acquire request serverNow)) :
    AcquireStep sha256 clock request serverNow now row row (.error problem) held where
  covered := ⟨fun _ => tracks.outlives, fun _ => covered⟩
  tracks := fun _ _ _ _ later => tracks.later later
  limit := by
    rintro lease decision ⟨⟩

/-- The row an acquisition writes outlives its leases if those it found live do not
outlast the life it is given. -/
theorem outlives_written {row : Option Row} {stored : Row} {leases : Leases}
    (table : stored.state.leases = leases) (expires : stored.expiresAt.unixMicro = bound)
    (kept : ∀ entry ∈ (liveLeases now (storedLeases row)).entries, entry ∈ leases.entries)
    (added : ∀ entry ∈ leases.entries, entry ∈ (liveLeases now (storedLeases row)).entries ∨
      entry.2.expiresMicros ≤ bound) :
    Outlives (some stored) now ↔
      ∀ entry ∈ (liveLeases now (storedLeases row)).entries, entry.2.expiresMicros ≤ bound := by
  constructor
  · intro outlives entry member
    have live := of_decide_eq_true (LeaseTable.mem_keep.mp member).2
    rw [← expires]
    exact outlives stored rfl entry (by rw [table]; exact kept entry member) live
  · rintro old stored ⟨⟩ entry member live
    rw [table] at member
    rw [expires]
    rcases added entry member with found | new
    · exact old entry found
    · exact new

theorem LeaseRow.written (valid : validPolicyIdentifier policyID 64 = true) (kept : LeasesKept policyID next)
    (expiresAt : Time) : LeaseRow policyID (some ⟨encodeState next, expiresAt⟩) := by
  rintro stored ⟨⟩
  exact ⟨valid, next, rfl, kept⟩

/-- An acquisition that returns a lease the row then lists. -/
theorem AcquireStep.returned {row : Option Row} {stored : Row} {request : ValidLeaseRequest} {lease : Lease}
    (own : lease.id = request.leaseID)
    (distinct : ∀ other ∈ held, sha256 other.id = sha256 request.leaseID → other.id = request.leaseID)
    (covered : Covered sha256 clock row (.acquire request serverNow) ↔ Outlives (some stored) now)
    (lists : LeaseTable.Lists (leaseName sha256) leaseValue stored.state.leases
      (lease :: (liveAt now held).filter fun other => decide (leaseName sha256 other ≠ leaseName sha256 lease)))
    (observed : stored.state.observedMicros ≤ max now 0)
    (limit : (∀ other ∈ liveAt now held, other.id ≠ request.leaseID) →
      LeaseTable.total PersistedLease.cost stored.state.leases ≤ request.request.policy.limit) :
    AcquireStep sha256 clock request serverNow now row (some stored) (.ok (lease, ⟨decision, none⟩)) held where
  covered := covered
  tracks := by
    intro outlives content content' later order
    rw [← own] at distinct
    exact .written lists (fun after order => recordLease_returned distinct order) observed outlives order
  limit := by
    rintro lease decision ⟨⟩ new content content'
    rw [← own] at distinct
    have kept := lists.keep fun value => decide (now < value.expiresMicros)
    have total := kept.total_eq PersistedLease.cost
    have same := recordLease_returned distinct (le_refl now)
    have bounded : LeaseTable.total PersistedLease.cost
        (LeaseTable.keep (fun value => decide (now < value.expiresMicros)) stored.state.leases) ≤
        request.request.policy.limit := LeaseTable.total_keep_le.trans (limit new)
    rw [← total] at bounded
    unfold recordLease
    rw [← same]
    exact bounded

/-- What an acquisition in the exact range works on, for a ledger the row tracks. -/
structure Finding (sha256 : GoString → Digest) (clock : ClockPolicy) (request : ValidLeaseRequest) (serverNow : Int)
    (timed : LeaseRequest) (now : Int) (row : Option Row) (held : List Lease) (state : PersistedState) (term : Nat)
    (ttl : Duration) : Prop where
  timing : timedLease clock request serverNow = timed
  clocked : timed.request.now.unixMicro = now
  kept : LeaseRow request.request.policy.id row
  tracks : TracksLeases sha256 row held now
  distinct : ∀ other ∈ held, sha256 other.id = sha256 request.leaseID → other.id = request.leaseID
  lease : request.request.policy.lease = .ofMicros (term : Nat)
  lives : postgresStateTTL request.request.policy.lease = pure ttl
  long : (term : Int) ≤ ttl.nanos / 1000
  early : -9007199254740991 ≤ now
  room : max now 0 + term ≤ 9007199254740991
  effective : leaseNow state timed = max now 0
  live : liveLeases (leaseNow state timed) state.leases = liveLeases now (storedLeases row)

namespace Finding

variable {request : ValidLeaseRequest} {timed : LeaseRequest} {row : Option Row}
    {state : PersistedState} {ttl : Duration}
  (found : Finding sha256 clock request serverNow timed now row held state term ttl)
include found

theorem cost : timed.request.cost = request.request.cost := by
  rw [← found.timing, timedLease_cost]

theorem own (expiresAt : Time) : (postgresLease (clampLease state timed) expiresAt).cost = request.request.cost := by
  rw [← found.timing]
  exact (postgresLease_own request state _).2.2

theorem covered_iff : Covered sha256 clock row (.acquire request serverNow) ↔ (-9007199254740991 ≤ now →
    max now 0 + term ≤ 9007199254740991 →
    (∀ existing ∈ (liveLeases now (storedLeases row)).lookup (hexString (sha256 request.leaseID)),
      existing.cost = request.request.cost) →
    ∀ entry ∈ (liveLeases now (storedLeases row)).entries, entry.2.expiresMicros ≤ max now 0 + ttl.nanos / 1000) :=
  Postgres.covered_iff (by rw [found.timing, found.clocked]) found.tracks found.kept found.lease found.lives

/-- For an acquisition that writes, its condition is what the row needs. -/
theorem covered {stored : Row} {leases : Leases}
    (same : ∀ existing ∈ (liveLeases now (storedLeases row)).lookup (hexString (sha256 request.leaseID)),
      existing.cost = request.request.cost)
    (table : stored.state.leases = leases) (expires : stored.expiresAt = expiryFrom (leaseNow state timed) ttl)
    (old : ∀ entry ∈ (liveLeases now (storedLeases row)).entries, entry ∈ leases.entries)
    (added : ∀ entry ∈ leases.entries, entry ∈ (liveLeases now (storedLeases row)).entries ∨
      entry.2.expiresMicros ≤ max now 0 + ttl.nanos / 1000) :
    Covered sha256 clock row (.acquire request serverNow) ↔ Outlives (some stored) now := by
  have bound : stored.expiresAt.unixMicro = max now 0 + ttl.nanos / 1000 := by
    rw [expires, expiryFrom_eq, Time.unixMicro_ofUnixMicro, found.effective]
  rw [found.covered_iff, outlives_written table bound old added]
  exact ⟨fun covered => covered found.early found.room same, fun bound _ _ _ => bound⟩

/-- A swept row, written back. -/
theorem swept (next : LeasesKept request.request.policy.id (sweptLeases state timed)) :
    (encodeState (sweptLeases state timed)).leases = liveLeases now (storedLeases row) ∧
      (encodeState (sweptLeases state timed)).observedMicros ≤ max now 0 := by
  rw [next.encoded]
  exact ⟨found.live, found.effective.le⟩

theorem foreign (there : (liveLeases (leaseNow state timed) state.leases).lookup (hexString (sha256 request.leaseID)) =
      some existing) (other : existing.cost ≠ timed.request.cost) :
    AcquireStep sha256 clock request serverNow now row row (.error problem) held := by
  refine .refused found.tracks (found.covered_iff.mpr fun _ _ same => ?_)
  rw [found.live] at there
  rw [found.cost] at other
  exact absurd (same _ there) other

theorem retried {existing : PersistedLease} (next : LeasesKept request.request.policy.id (sweptLeases state timed))
    (there : (liveLeases (leaseNow state timed) state.leases).lookup (hexString (sha256 request.leaseID)) =
      some existing)
    (same : existing.cost = timed.request.cost) :
    AcquireStep sha256 clock request serverNow now row
      (some ⟨encodeState (sweptLeases state timed), expiryFrom (leaseNow state timed) ttl⟩)
      (.ok (postgresLease (clampLease state timed) (.ofUnixMicro existing.expiresMicros), ⟨decision, none⟩)) held := by
  rw [found.cost] at same
  rw [found.live] at there
  obtain ⟨table, observed⟩ := found.swept next
  have value : leaseValue (postgresLease (clampLease state timed) (.ofUnixMicro existing.expiresMicros)) =
    existing := by
    unfold leaseValue
    rw [found.own, ← same]
    exact congrArg (PersistedLease.mk existing.cost) (Time.unixMicro_ofUnixMicro _)
  have named : (postgresLease (clampLease state timed) (.ofUnixMicro existing.expiresMicros)).id = request.leaseID := by
    rw [← found.timing]
    rfl
  refine .returned named found.distinct (found.covered ?_ table rfl (fun entry member => member)
    (fun entry member => .inl member)) ?_ observed ?_
  · intro other member
    rw [there] at member
    cases member
    exact same
  · have put := found.tracks.lists.put (postgresLease (clampLease state timed) (.ofUnixMicro existing.expiresMicros))
    rw [value] at put
    refine put.trans ?_
    rw [table, leaseName, named]
    exact LeaseTable.insert_perm_self there
  · intro new
    obtain ⟨hold, member, name, -⟩ := found.tracks.lists.listed there
    exact absurd (found.distinct hold (List.mem_of_mem_filter member) (hexString_injective name)) (new hold member)

theorem short (next : LeasesKept request.request.policy.id (sweptLeases state timed))
    (new : (liveLeases (leaseNow state timed) state.leases).lookup (hexString (sha256 request.leaseID)) = none) :
    AcquireStep sha256 clock request serverNow now row
      (some ⟨encodeState (sweptLeases state timed), expiryFrom (leaseNow state timed) ttl⟩)
      (.ok ({}, ⟨decision, some .rejected⟩)) held := by
  rw [found.live] at new
  obtain ⟨table, observed⟩ := found.swept next
  refine ⟨found.covered ?_ table rfl (fun entry member => member) (fun entry member => .inl member), ?_, ?_⟩
  · intro other member
    rw [new] at member
    cases member
  · intro outlives _ _ later order
    exact .written (by rw [table]; exact found.tracks.lists) (fun after order => liveAt_liveAt _ order) observed
      outlives order
  · rintro lease decision ⟨⟩

theorem granted {next : PersistedState} {expiresAt : Time} (kept : LeasesKept request.request.policy.id next)
    (observed : next.observedMicros = leaseNow state timed)
    (inserted : next.leases = (liveLeases (leaseNow state timed) state.leases).insert
      (hexString (sha256 request.leaseID)) ⟨timed.request.cost, leaseNow state timed + term⟩)
    (new : (liveLeases (leaseNow state timed) state.leases).lookup (hexString (sha256 request.leaseID)) = none)
    (enough : timed.request.cost ≤ leaseRoom state timed) (positive : 0 < timed.request.cost)
    (ends : expiresAt.unixMicro = leaseNow state timed + term) :
    AcquireStep sha256 clock request serverNow now row
      (some ⟨encodeState next, expiryFrom (leaseNow state timed) ttl⟩)
      (.ok (postgresLease (clampLease state timed) expiresAt, ⟨decision, none⟩)) held := by
  have policy : timed.request.policy = request.request.policy := by
    rw [← found.timing, timedLease_policy]
  unfold leaseRoom at enough
  rw [found.live, found.cost, policy] at enough
  rw [found.cost] at positive
  rw [found.live] at new
  rw [found.effective] at ends observed
  rw [found.live, found.effective, found.cost] at inserted
  have long := found.long
  rw [kept.encoded]
  have table : next.wire.leases = _ := inserted
  have value : leaseValue (postgresLease (clampLease state timed) expiresAt) =
    ⟨request.request.cost, max now 0 + term⟩ := by
    unfold leaseValue
    rw [found.own, ← ends]
    rfl
  have named : (postgresLease (clampLease state timed) expiresAt).id = request.leaseID := by
    rw [← found.timing]
    rfl
  refine .returned named found.distinct (found.covered ?_ table rfl
    (fun entry member => (LeaseTable.mem_insert new).mpr (.inr member)) ?_) ?_ observed.le ?_
  · intro other member
    rw [new] at member
    cases member
  · intro entry member
    rcases (LeaseTable.mem_insert new).mp member with rfl | old
    · exact .inr (by dsimp only; omega)
    · exact .inl old
  · have put := found.tracks.lists.put (postgresLease (clampLease state timed) expiresAt)
    rw [value, leaseName, named] at put
    rw [leaseName, named]
    exact table ▸ put
  · intro _
    rw [table, LeaseTable.total_insert new]
    dsimp only
    omega

end Finding

/-- One acquisition on a row of leases. -/
theorem LeaseRow.acquire_step {request : ValidLeaseRequest} (clock : ClockPolicy) (serverNow : Int)
    (bucket : sha256 (bucketName request.request.policy.id request.request.key) = key)
    (kept : LeaseRow request.request.policy.id (content (.bucket key))) :
    ∃ after reply, leaseStep sha256 clock content (.acquire request serverNow) = pure (after, .acquired reply) ∧
      LeaseRow request.request.policy.id (after (.bucket key)) ∧ OwnLease request reply ∧
      ∀ held, (∀ other ∈ held, sha256 other.id = sha256 request.leaseID → other.id = request.leaseID) →
        TracksLeases sha256 (content (.bucket key)) held
          (timedLease clock request serverNow).request.now.unixMicro →
        AcquireStep sha256 clock request serverNow (timedLease clock request serverNow).request.now.unixMicro
          (content (.bucket key)) (after (.bucket key)) reply held := by
  obtain ⟨state, term, ttl, leases, origin, lease, lives, long, bounded, serves⟩ :=
    kept.acquires clock serverNow bucket
  generalize timing : timedLease clock request serverNow = timed at *
  generalize clocked : timed.request.now.unixMicro = now at *
  have valid := request.built.sound.id_valid
  have steps : ∀ after reply, (Store.acquireStrict sha256 clock .live request.toLeaseRequest).serve serverNow
      content = pure (after, reply) →
      leaseStep sha256 clock content (.acquire request serverNow) = pure (after, .acquired reply) := by
    intro after reply served
    unfold leaseStep
    dsimp only
    rw [served, pure_bind]
  by_cases range : -9007199254740991 ≤ now ∧
      leaseNow state timed + term ≤ 9007199254740991
  · rw [if_pos range] at serves
    have bounds := bounded range.1
    have verdict : Verdict state timed (hexString (sha256 request.leaseID)) term
        (leaseOutcome state timed (hexString (sha256 request.leaseID))) :=
      leaseOutcome_verdict bounds
    have written := fun next => @Verdict.kept _ _ _ _ _ next leases bounds range.2 (hexString_valid _) _ verdict
    generalize leaseOutcome state timed (hexString (sha256 request.leaseID)) =
      outcome at serves verdict written
    have finds (held : List Lease)
        (distinct : ∀ other ∈ held, sha256 other.id = sha256 request.leaseID → other.id = request.leaseID)
        (tracks : TracksLeases sha256 (content (.bucket key)) held now) :
        Finding sha256 clock request serverNow timed now (content (.bucket key)) held state term ttl := by
      subst clocked
      obtain ⟨effective, live⟩ := tracks.found kept origin
      exact ⟨timing, rfl, kept, tracks, distinct, lease, lives, long, range.1, effective ▸ range.2, effective, live⟩
    have own (expiresAt : Time) : (postgresLease (clampLease state timed) expiresAt).id = request.leaseID ∧
        (postgresLease (clampLease state timed) expiresAt).policyID = request.request.policy.id ∧
        (postgresLease (clampLease state timed) expiresAt).key = request.request.key := by
      rw [← timing]
      exact ⟨rfl, (postgresLease_own request state _).1, (postgresLease_own request state _).2.1⟩
    cases verdict with
    | foreign there other =>
      exact ⟨content, _, steps _ _ serves, kept, by rintro lease decision ⟨⟩,
        fun held distinct tracks => (finds held distinct tracks).foreign there other⟩
    | held there same reset =>
      have next := written _ rfl
      refine ⟨_, _, steps _ _ serves, ?_, ?_, fun held distinct tracks => ?_⟩
      · rw [Function.update_self]
        exact .written valid next _
      · rintro lease decision ⟨⟩
        exact own _
      · rw [Function.update_self]
        exact (finds held distinct tracks).retried next there same
    | short new full reset =>
      have next := written _ rfl
      refine ⟨_, _, steps _ _ serves, ?_, ?_, fun held distinct tracks => ?_⟩
      · rw [Function.update_self]
        exact .written valid next _
      · rintro lease decision ⟨⟩
      · rw [Function.update_self]
        exact (finds held distinct tracks).short next new
    | granted new enough ends reset =>
      have next := written _ rfl
      refine ⟨_, _, steps _ _ serves, ?_, ?_, fun held distinct tracks => ?_⟩
      · rw [Function.update_self]
        exact .written valid next _
      · rintro lease decision ⟨⟩
        exact own _
      · rw [Function.update_self]
        exact (finds held distinct tracks).granted next rfl rfl new enough bounds.cost_pos ends
  · rw [if_neg range] at serves
    refine ⟨content, _, steps _ _ serves, kept, by rintro lease decision ⟨⟩, fun held distinct tracks => ?_⟩
    subst timing clocked
    have effective := (tracks.found kept origin).1
    refine .refused tracks ((covered_iff rfl tracks kept lease lives).mpr fun early room => ?_)
    exact absurd ⟨early, effective ▸ room⟩ range

/-! ## What a release does -/

/-- The leases of a row after one was erased, whether the row is still there or not. -/
theorem storedLeases_released (kept : LeasesKept policyID state) (digest : GoString) :
    storedLeases (released state digest) = state.leases.erase digest := by
  unfold released
  by_cases empty : (state.leases.erase digest).entries = []
  · rw [if_pos empty]
    exact AList.ext empty.symm
  · rw [if_neg empty]
    rw [(kept.erased digest).encoded]
    rfl

theorem storedObserved_released_le (kept : LeasesKept policyID state) (digest : GoString) :
    storedObserved (released state digest) ≤ state.observedMicros := by
  unfold released
  dsimp only
  split
  · exact kept.observed.1
  · rw [(kept.erased digest).encoded]
    exact le_rfl

/-- A release gives the row the expiry of the last lease that is left. -/
theorem outlives_released (kept : LeasesKept policyID state) (digest : GoString) (now : Int) :
    Outlives (released state digest) now := by
  intro stored same entry member _
  unfold released at same
  dsimp only at same
  split at same
  · cases same
  · cases same
    rw [(kept.erased digest).encoded] at member
    exact le_latestLeaseExpiry member

theorem LeaseRow.released (valid : validPolicyIdentifier policyID 64 = true) (kept : LeasesKept policyID state)
    (digest : GoString) : LeaseRow policyID (released state digest) := by
  unfold Postgres.released
  dsimp only
  split
  · rintro stored ⟨⟩
  · exact .written valid (kept.erased digest) _

/-- The live leases without one of them. -/
theorem liveLeases_erase (leases : Leases) (digest : GoString) (now : Int) :
    liveLeases now (leases.erase digest) = (liveLeases now leases).erase digest := by
  refine AList.ext ?_
  show (leases.erase digest).entries.filter _ = _
  rw [LeaseTable.entries_erase, LeaseTable.entries_erase]
  exact List.filter_comm _ _ _

theorem TracksLeases.released {lease : Lease}
    (tracks : TracksLeases sha256 (some ⟨encodeState state, expiresAt⟩) held now) (kept : LeasesKept policyID state)
    (distinct : ∀ other ∈ held, sha256 other.id = sha256 lease.id → other.id = lease.id) :
    TracksLeases sha256 (released state (leaseName sha256 lease))
      (held.filter fun other => decide (other.id ≠ lease.id)) now where
  lists := by
    have lists := tracks.lists.erase (leaseName sha256 lease)
    have stored : storedLeases (some ⟨encodeState state, expiresAt⟩) = state.leases := by
      rw [kept.encoded]
      rfl
    rw [stored, ← liveLeases_erase, ← storedLeases_released kept] at lists
    rw [← filter_leaseName distinct]
    unfold liveAt at lists ⊢
    rw [List.filter_comm] at lists
    exact lists
  observed := by
    have observed := tracks.observed
    have less := storedObserved_released_le kept (leaseName sha256 lease)
    rw [kept.encoded] at observed
    exact less.trans observed
  outlives := outlives_released kept _ now

/-- A release changes nothing, or takes one lease out of a row of leases. -/
theorem LeaseRow.releases {lease : Lease} (serverNow : Int)
    (bucket : sha256 (bucketName lease.policyID lease.key) = key)
    (kept : LeaseRow lease.policyID (content (.bucket key))) :
    (∃ problem, (Store.releaseStrict sha256 .live lease).serve serverNow content =
        pure (content, .error problem)) ∨
      ∃ state expiresAt, content (.bucket key) = some ⟨encodeState state, expiresAt⟩ ∧
        validPolicyIdentifier lease.policyID 64 = true ∧ LeasesKept lease.policyID state ∧
        (Store.releaseStrict sha256 .live lease).serve serverNow content =
          pure (Function.update content (.bucket key) (Postgres.released state (leaseName sha256 lease)), .ok ()) := by
  unfold Store.releaseStrict
  split
  · exact .inl ⟨_, rfl⟩
  · rw [bucket]
    cases row : content (.bucket key) with
    | none => exact .inl ⟨_, releaseStrict_missing row⟩
    | some stored =>
      obtain ⟨valid, state, encoded, leases⟩ := kept stored row
      obtain ⟨document, expiresAt⟩ := stored
      obtain rfl := encoded
      have served : (releaseStrict key lease (leaseName sha256 lease)).serve serverNow content = _ :=
        releaseStrict_exact leases valid row
      cases found : state.leases.lookup (leaseName sha256 lease) with
      | none =>
        rw [found] at served
        exact .inl ⟨_, served⟩
      | some existing =>
        rw [found] at served
        dsimp only at served
        split at served
        · exact .inl ⟨_, served⟩
        · exact .inr ⟨state, expiresAt, rfl, valid, leases, served⟩

/-- One release on a row of leases. -/
theorem LeaseRow.release_step {lease : Lease} (clock : ClockPolicy) (serverNow : Int)
    (bucket : sha256 (bucketName lease.policyID lease.key) = key)
    (kept : LeaseRow lease.policyID (content (.bucket key))) :
    ∃ after reply, leaseStep sha256 clock content (.release lease serverNow) = pure (after, .released reply) ∧
      LeaseRow lease.policyID (after (.bucket key)) ∧
      ∀ held now, (∀ other ∈ held, sha256 other.id = sha256 lease.id → other.id = lease.id) →
        TracksLeases sha256 (content (.bucket key)) held now →
        TracksLeases sha256 (after (.bucket key))
          (recordLease held ⟨content, .release lease serverNow, .released reply, after⟩) now := by
  have steps : ∀ after reply, (Store.releaseStrict sha256 .live lease).serve serverNow content =
      pure (after, reply) →
      leaseStep sha256 clock content (.release lease serverNow) = pure (after, .released reply) := by
    intro after reply served
    unfold leaseStep
    dsimp only
    rw [served, pure_bind]
  rcases kept.releases serverNow bucket with ⟨problem, served⟩ | ⟨state, expiresAt, row, valid, leases, served⟩
  · exact ⟨content, _, steps _ _ served, kept, fun held now _ tracks => tracks⟩
  · refine ⟨_, _, steps _ _ served, ?_, fun held now distinct tracks => ?_⟩
    · rw [Function.update_self]
      exact .released valid leases _
    · rw [row] at tracks
      rw [Function.update_self]
      exact tracks.released leases distinct

/-- A live lease of the ledger can be released. -/
theorem TracksLeases.releasable {lease : Lease} (serverNow : Int)
    (bucket : sha256 (bucketName lease.policyID lease.key) = key)
    (kept : LeaseRow lease.policyID (content (.bucket key)))
    (tracks : TracksLeases sha256 (content (.bucket key)) held now) (live : lease ∈ liveAt now held)
    (named : lease.id ≠ []) (keyed : lease.key.value ≠ []) :
    ∃ after, (Store.releaseStrict sha256 .live lease).serve serverNow content = pure (after, .ok ()) := by
  have listed := tracks.lists.lookup live
  obtain ⟨stored, -⟩ := LeaseTable.lookup_keep.mp listed
  cases row : content (.bucket key) with
  | none =>
    rw [row] at stored
    cases stored
  | some document =>
    have positive := kept.positive (LeaseTable.lookup_iff_mem.mp stored)
    obtain ⟨valid, state, encoded, leases⟩ := kept document row
    obtain ⟨document, expiresAt⟩ := document
    obtain rfl := encoded
    have found : state.leases.lookup (leaseName sha256 lease) = some (leaseValue lease) := by
      rw [row] at stored
      rw [leases.encoded] at stored
      exact stored
    have served : (releaseStrict key lease (leaseName sha256 lease)).serve serverNow content = _ :=
      releaseStrict_exact leases valid row
    rw [found] at served
    dsimp only at served
    rw [if_neg (by simp [leaseValue])] at served
    have complete : ¬ (lease.id = [] ∨ lease.policyID = [] ∨ lease.key.value = [] ∨ lease.cost = 0 ∨
        lease.expiresAt = Time.zero) := by
      rintro (empty | empty | empty | free | unset)
      · exact named empty
      · rw [empty] at valid
        exact absurd valid (by decide)
      · exact keyed empty
      · exact absurd positive.1 (by simp [leaseValue, free])
      · exact absurd positive.2 (by simp only [leaseValue, unset]; decide)
    refine ⟨Function.update content (.bucket key) (Postgres.released state (leaseName sha256 lease)), ?_⟩
    unfold Store.releaseStrict
    rw [if_neg complete, bucket]
    exact served

/-! ## Whole runs -/

/-- A lease under the name of an acquisition of the run. -/
def Granted (calls : List LeaseCall) (lease : Lease) : Prop :=
  ∃ request serverNow, LeaseCall.acquire request serverNow ∈ calls ∧ lease.id = request.leaseID ∧
    lease.policyID = request.request.policy.id ∧ lease.key = request.request.key

/-- A lease of the ledger was there before, or has just been returned. -/
theorem mem_recordLease {entry : LeaseEntry} (member : lease ∈ recordLease held entry) :
    lease ∈ held ∨ ∃ request serverNow decision, entry.input = .acquire request serverNow ∧
      entry.output = .acquired (.ok (lease, ⟨decision, none⟩)) := by
  unfold recordLease at member
  split at member
  · rename_i returned decision input output
    rcases List.mem_cons.mp member with rfl | old
    · exact .inr ⟨_, _, _, input, output⟩
    · exact .inl (List.mem_of_mem_filter old)
  · exact .inl (List.mem_of_mem_filter member)
  · exact .inl member

theorem heldLeases_snoc (history : List LeaseEntry) (entry : LeaseEntry) :
    heldLeases (history ++ [entry]) = recordLease (heldLeases history) entry := by
  simp [heldLeases]

theorem current_snoc {history : List LeaseEntry} {entry : LeaseEntry} :
    Current clock (history ++ [entry]) now ↔
      Current clock history now ∧ ∀ time ∈ entry.input.time clock, time ≤ now := by
  simp [Current, or_imp, forall_and]

/-- In order, every call's time is current when it comes. -/
theorem ordered_snoc {history : List LeaseEntry} {call : LeaseCall}
    (ordered : Ordered clock (history.map Entry.input ++ [call])) :
    Ordered clock (history.map Entry.input) ∧ ∀ time ∈ call.time clock, Current clock history time := by
  unfold Ordered at ordered
  rw [List.filterMap_append, List.pairwise_append] at ordered
  obtain ⟨before, -, across⟩ := ordered
  refine ⟨before, fun time member entry inside earlier past => ?_⟩
  refine across earlier ?_ time ?_
  · exact List.mem_filterMap.mpr ⟨entry.input, List.mem_map.mpr ⟨entry, inside, rfl⟩, past⟩
  · exact List.mem_filterMap.mpr ⟨call, List.mem_singleton.mpr rfl, member⟩

/-- All the acquisitions so far met the condition. -/
def AllCovered (sha256 : GoString → Digest) (clock : ClockPolicy) (key : Digest) (history : List LeaseEntry) : Prop :=
  ∀ entry ∈ history, Covered sha256 clock (entry.before (.bucket key)) entry.input

/-- What holds after a stretch of a run. -/
structure LeaseRun (sha256 : GoString → Digest) (clock : ClockPolicy) (policyID : GoString) (key : Digest)
    (calls : List LeaseCall) (history : List LeaseEntry) (content : database.Content) : Prop where
  row : LeaseRow policyID (content (.bucket key))
  granted : ∀ lease ∈ heldLeases history, Granted calls lease
  tracks : Ordered clock (history.map Entry.input) → AllCovered sha256 clock key history →
    ∀ now, Current clock history now → TracksLeases sha256 (content (.bucket key)) (heldLeases history) now

/-- What a call of a run does, after acquisitions that all met the condition. -/
structure LeaseGood (sha256 : GoString → Digest) (clock : ClockPolicy) (key : Digest)
    (history : List LeaseEntry) (entry : LeaseEntry) : Prop where
  covered : Covered sha256 clock (entry.before (.bucket key)) entry.input ↔
    ∀ now, Current clock (history ++ [entry]) now → Outlives (entry.after (.bucket key)) now
  limit : ∀ request serverNow lease decision, entry.input = .acquire request serverNow →
    entry.output = .acquired (.ok (lease, ⟨decision, none⟩)) →
    let now := (timedLease clock request serverNow).request.now.unixMicro
    (∀ other ∈ liveAt now (heldLeases history), other.id ≠ request.leaseID) →
      ((liveAt now (heldLeases (history ++ [entry]))).map Lease.cost).sum ≤ request.request.policy.limit

/-- The calls of a run: all on one policy ID and key, and no two lease IDs with one
digest. -/
structure OneBucket (sha256 : GoString → Digest) (policyID : GoString) (subject : Key) (calls : List LeaseCall) :
    Prop where
  policyID : ∀ call ∈ calls, call.policyID = policyID
  key : ∀ call ∈ calls, call.key = subject
  distinct : ∀ call ∈ calls, ∀ other ∈ calls, sha256 call.leaseID = sha256 other.leaseID →
    call.leaseID = other.leaseID

variable {policyID : GoString} {subject : Key} {calls : List LeaseCall} {history : List LeaseEntry}

theorem LeaseRun.distinct (run : LeaseRun sha256 clock policyID key calls history content)
    (one : OneBucket sha256 policyID subject calls) {call : LeaseCall} (member : call ∈ calls) :
    ∀ other ∈ heldLeases history, sha256 other.id = sha256 call.leaseID → other.id = call.leaseID := by
  intro other held same
  obtain ⟨request, serverNow, inside, id, -⟩ := run.granted other held
  rw [id] at same ⊢
  exact one.distinct _ inside _ member same

theorem LeaseRun.start (fresh : content (.bucket key) = none) :
    LeaseRun sha256 clock policyID key calls [] content where
  row := by
    intro stored row
    rw [fresh] at row
    cases row
  granted := by
    intro lease member
    cases member
  tracks := by
    intro _ _ now _
    rw [fresh]
    exact ⟨.nil, le_max_right _ _, by rintro stored ⟨⟩⟩

/-- The step lemma: what holds of a run after one more call. -/
theorem LeaseRun.step
    (run : LeaseRun sha256 clock policyID (sha256 (bucketName policyID subject)) calls history content)
    (one : OneBucket sha256 policyID subject calls) {call : LeaseCall} (member : call ∈ calls) :
    ∃ result, leaseStep sha256 clock content call = pure result ∧
      (Ordered clock (history.map Entry.input ++ [call]) →
        AllCovered sha256 clock (sha256 (bucketName policyID subject)) history →
        LeaseGood sha256 clock (sha256 (bucketName policyID subject)) history ⟨content, call, result.2, result.1⟩) ∧
      LeaseRun sha256 clock policyID (sha256 (bucketName policyID subject)) calls
        (history ++ [⟨content, call, result.2, result.1⟩]) result.1 := by
  have distinct := run.distinct one member
  have here := one.policyID call member
  have there := one.key call member
  have row := run.row
  cases call with
  | acquire request serverNow =>
    obtain rfl : request.request.policy.id = policyID := here
    obtain rfl : request.request.key = subject := there
    obtain ⟨after, reply, steps, kept, own, does⟩ := row.acquire_step clock serverNow rfl
    refine ⟨_, steps, fun ordered covered => ?_, kept, ?_, ?_⟩
    · have current := (ordered_snoc ordered).2 _ rfl
      have step := does _ distinct (run.tracks (ordered_snoc ordered).1 covered _ current)
      constructor
      · rw [step.covered]
        constructor
        · intro outlives now now_current
          exact outlives.later ((current_snoc.mp now_current).2 _ rfl)
        · intro outlives
          refine outlives _ (current_snoc.mpr ⟨current, ?_⟩)
          rintro time ⟨⟩
          exact le_rfl
      · rintro request serverNow lease decision ⟨⟩ ⟨⟩ now new
        rw [heldLeases_snoc]
        exact step.limit lease decision rfl new content after
    · intro lease held
      rw [heldLeases_snoc] at held
      rcases mem_recordLease held with old | ⟨_, _, decision, ⟨⟩, returned⟩
      · exact run.granted lease old
      · cases returned
        exact ⟨request, serverNow, member, own lease decision rfl⟩
    · intro ordered covered now now_current
      rw [List.map_append] at ordered
      have current := (ordered_snoc ordered).2 _ rfl
      have step := does _ distinct
        (run.tracks (ordered_snoc ordered).1 (fun entry inside => covered entry (by simp [inside])) _ current)
      have last := covered ⟨content, .acquire request serverNow, .acquired reply, after⟩ (by simp)
      rw [heldLeases_snoc]
      exact step.tracks (step.covered.mp last) content after now ((current_snoc.mp now_current).2 _ rfl)
  | release lease serverNow =>
    obtain rfl : lease.policyID = policyID := here
    obtain rfl : lease.key = subject := there
    obtain ⟨after, reply, steps, kept, does⟩ := row.release_step clock serverNow rfl
    have tracks : Ordered clock (history.map Entry.input) → AllCovered sha256 clock _ history → ∀ now,
        Current clock (history ++ [⟨content, .release lease serverNow, .released reply, after⟩]) now → _ :=
      fun ordered covered now current =>
        does _ now distinct (run.tracks ordered covered now (current_snoc.mp current).1)
    refine ⟨_, steps, fun ordered covered => ⟨?_, ?_⟩, kept, ?_, ?_⟩
    · refine ⟨fun _ now current => ?_, fun _ => trivial⟩
      exact (tracks (ordered_snoc ordered).1 covered now current).outlives
    · rintro request serverNow lease decision ⟨⟩
    · intro other held
      rw [heldLeases_snoc] at held
      rcases mem_recordLease held with old | ⟨_, _, decision, ⟨⟩, -⟩
      exact run.granted other old
    · intro ordered covered now current
      rw [List.map_append] at ordered
      rw [heldLeases_snoc]
      exact tracks (ordered_snoc ordered).1 (fun entry inside => covered entry (by simp [inside])) now current

/-- Leases survive policy revisions exactly where no acquisition shortens the life of
the row below that of a lease it holds. Then the row never ends before a live lease it
holds, every live lease can be released, and every grant is within the limit of the
policy that granted it. -/
theorem leases_survive_revisions (sha256 : GoString → Digest) (clock : ClockPolicy) (policyID : GoString)
    (subject : Key) (calls : List LeaseCall) (content : database.Content)
    (one : OneBucket sha256 policyID subject calls) (ordered : Ordered clock calls)
    (fresh : content (.bucket (sha256 (bucketName policyID subject))) = none) :
    ∃ entries, Runs.trace (leaseStep sha256 clock) content calls = pure entries ∧
      entries.map Entry.input = calls ∧
      ((∀ entry ∈ entries,
          Covered sha256 clock (entry.before (.bucket (sha256 (bucketName policyID subject)))) entry.input) ↔
        ∀ earlier entry later, entries = earlier ++ entry :: later →
          ∀ now, Current clock (earlier ++ [entry]) now →
            Outlives (entry.after (.bucket (sha256 (bucketName policyID subject)))) now) ∧
      ((∀ entry ∈ entries,
          Covered sha256 clock (entry.before (.bucket (sha256 (bucketName policyID subject)))) entry.input) →
        ∀ earlier entry later, entries = earlier ++ entry :: later →
          (∀ now, Current clock (earlier ++ [entry]) now →
            ∀ lease ∈ liveAt now (heldLeases (earlier ++ [entry])), ∀ serverNow,
              ∃ next, (Store.releaseStrict sha256 .live lease).serve serverNow entry.after = pure (next, .ok ())) ∧
          ∀ request serverNow lease decision, entry.input = .acquire request serverNow →
            entry.output = .acquired (.ok (lease, ⟨decision, none⟩)) →
            let now := (timedLease clock request serverNow).request.now.unixMicro
            (∀ other ∈ liveAt now (heldLeases earlier), other.id ≠ request.leaseID) →
              ((liveAt now (heldLeases (earlier ++ [entry]))).map Lease.cost).sum ≤ request.request.policy.limit) := by
  obtain ⟨entries, run, inputs, held⟩ := Runs.trace_history (leaseStep sha256 clock)
    (LeaseRun sha256 clock policyID (sha256 (bucketName policyID subject)) calls)
    (fun history entry => Ordered clock (history.map Entry.input ++ [entry.input]) →
      AllCovered sha256 clock (sha256 (bucketName policyID subject)) history →
      LeaseGood sha256 clock (sha256 (bucketName policyID subject)) history entry)
    calls (fun history content call run member => run.step one member) (.start fresh)
  have inOrder : ∀ earlier entry later, entries = earlier ++ entry :: later →
      Ordered clock (earlier.map Entry.input ++ [entry.input]) := by
    intro earlier entry later shape
    rw [← inputs, shape, List.map_append, List.map_cons, List.append_cons] at ordered
    unfold Ordered at ordered
    rw [List.filterMap_append] at ordered
    exact (List.pairwise_append.mp ordered).1
  refine ⟨entries, run, inputs, Runs.all_iff_prefix fun earlier entry later shape safe =>
    ((held earlier entry later shape).2.1 (inOrder _ _ _ shape) safe).covered, fun covered => ?_⟩
  intro earlier entry later shape
  obtain ⟨-, good, next⟩ := held earlier entry later shape
  have safe : AllCovered sha256 clock (sha256 (bucketName policyID subject)) (earlier ++ [entry]) := by
    intro before inside
    refine covered before ?_
    rw [shape, List.append_cons]
    exact List.mem_append_left _ inside
  refine ⟨fun now current lease live serverNow => ?_,
    (good (inOrder _ _ _ shape) fun before inside => safe before (by simp [inside])).limit⟩
  have tracks := next.tracks (by rw [List.map_append]; exact inOrder _ _ _ shape) safe now current
  obtain ⟨request, time, member, id, policy, key⟩ := next.granted lease (List.mem_of_mem_filter live)
  have here := one.policyID _ member
  have there := one.key _ member
  obtain rfl := policy.trans here
  obtain rfl := key.trans there
  obtain ⟨valid, -, named⟩ := request.checked
  refine tracks.releasable serverNow rfl next.row live ?_ ?_
  · rw [id]
    exact named
  · rw [key]
    exact validate_keyed valid

end

/-- The SHA-256 digests of the names the concrete runs use. -/
def runDigest (name : GoString) : Digest := fun byte =>
  if name = [97] then
    ([202, 151, 129, 18, 202, 27, 189, 202, 250, 194, 49, 179, 154, 35, 220, 77,
      167, 134, 239, 248, 20, 124, 78, 114, 185, 128, 119, 133, 175, 238, 72, 187] : List UInt8).getD byte 0
  else if name = [98] then
    ([62, 35, 232, 22, 0, 57, 89, 74, 51, 137, 79, 101, 100, 225, 177, 52,
      139, 189, 122, 0, 136, 212, 44, 74, 203, 115, 238, 174, 213, 156, 0, 157] : List UInt8).getD byte 0
  else if name = [99] then
    ([46, 125, 44, 3, 169, 80, 122, 226, 101, 236, 245, 181, 53, 104, 133, 165,
      51, 147, 162, 2, 157, 36, 19, 148, 153, 114, 101, 161, 162, 90, 239, 198] : List UInt8).getD byte 0
  else bucketDigest byte

/-- Two leases of an hour. -/
def hourLeases : Policy := leasePolicy 97 2 3600000000 hour_fits

theorem hourLeases_built : newPolicy hourLeases.toPolicySpec = .ok hourLeases := rfl

theorem hourLeases_accept :
    LeaseRequest.validate ⟨⟨hourLeases, ⟨[107], [117]⟩, 1, .ofUnixMicro 1000000⟩, [97]⟩ = .ok () := rfl

/-- The policy revised to leases of a microsecond. -/
def briefLeases : Policy := leasePolicy 98 2 1 micro_fits

/-- A lease of an hour is taken at the first second, one of a microsecond at the
next, and both slots at once two seconds later. -/
def revisedCalls : List LeaseCall :=
  [.acquire (hourLeases.leaseRequest rfl 97 1 1000000 rfl) 0,
    .acquire (briefLeases.leaseRequest rfl 98 1 2000000 rfl) 0,
    .acquire (hourLeases.leaseRequest rfl 99 2 4000000 rfl) 0]

/-- The policy revised to leases of a day. -/
def dayLeases : Policy := leasePolicy 99 2 86400000000 (by decide)

/-- A lease of an hour is taken at the first second, one of a day at the next, and
the first is released. -/
def extendedCalls : List LeaseCall :=
  [.acquire (hourLeases.leaseRequest rfl 97 1 1000000 rfl) 0,
    .acquire (dayLeases.leaseRequest rfl 98 1 2000000 rfl) 0,
    .release ⟨[97], ⟨[107], [117]⟩, [112], [97], 1, ⟨3601000000000⟩, .ofLiteral "postgres"⟩ 0]

theorem leases_survive_revisions_extended :
    OneBucket runDigest [112] ⟨[107], [117]⟩ extendedCalls ∧ Ordered .clientClock extendedCalls ∧
      ∃ entries, Runs.trace (leaseStep runDigest .clientClock) emptyContent extendedCalls = pure entries ∧
        ∀ earlier entry later, entries = earlier ++ entry :: later →
          ∀ now, Current .clientClock (earlier ++ [entry]) now →
            Outlives (entry.after (.bucket bucketDigest)) now := by
  have one : OneBucket runDigest [112] ⟨[107], [117]⟩ extendedCalls := ⟨by decide, by decide, by decide⟩
  have ordered : Ordered .clientClock extendedCalls := by
    unfold Ordered
    decide
  obtain ⟨entries, run, -, iff, -⟩ := leases_survive_revisions runDigest .clientClock [112] ⟨[107], [117]⟩
    extendedCalls emptyContent one ordered rfl
  refine ⟨one, ordered, entries, run, iff.mp ?_⟩
  cases run
  intro entry member
  rcases List.mem_cons.mp member with rfl | member
  · intro _ _ _ ttl _ stored inside
    cases inside
  rcases List.mem_cons.mp member with rfl | member
  · exact covered_of_le ⟨172800000000000⟩ rfl (by decide +kernel)
  rcases List.mem_cons.mp member with rfl | member
  · trivial
  · simp at member

/-- The revision gives the row a second to live. The third acquisition finds it gone,
is granted beyond the limit, and the lease of the hour cannot be released. -/
theorem revision_loses_lease :
    OneBucket runDigest [112] ⟨[107], [117]⟩ revisedCalls ∧ Ordered .clientClock revisedCalls ∧
      ∃ first second third,
        Runs.trace (leaseStep runDigest .clientClock) emptyContent revisedCalls = pure [first, second, third] ∧
        ∃ lease ∈ liveAt 4000000 (heldLeases [first, second, third]),
          (∀ serverNow, (Store.releaseStrict runDigest .live lease).serve serverNow third.after =
            pure (third.after, .error (.sentinel .leaseNotFound))) ∧
          hourLeases.limit < ((liveAt 4000000 (heldLeases [first, second, third])).map Lease.cost).sum := by
  refine ⟨⟨by decide, by decide, by decide⟩, by unfold Ordered; decide, _, _, _, rfl, ?_⟩
  exact ⟨_, .tail _ (.head _), fun serverNow => rfl, by decide⟩

end RateLimit.Postgres
