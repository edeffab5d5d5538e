import RateLimit.LeaseSurvival
import RateLimit.MemoryLeases
import RateLimit.WireRoundTrip

/-! Whose lease a release frees. The stores keep of a lease its cost and its expiry, so
the caller that releases one proves with the same two that it is the holder. A grant that
follows another of the same ID is told apart from it as long as the two do not expire at
the same time; then the lease of one never frees the other. -/
namespace RateLimit

/-- An acquisition that stored a new lease: its request, the time it was decided at, and
the lease its caller got. -/
structure Grant where
  request : LeaseRequest
  time : Time
  lease : Lease
  deriving DecidableEq

/-- When the lease of a grant runs out. -/
def Grant.due (grant : Grant) : Time := grant.time.add grant.request.request.policy.lease

end RateLimit

namespace RateLimit.Memory

open Machine

/-! ## The memory store -/

/-- The grant of a call on a bucket, if it is one: the bucket holds no active lease of
the ID when the call comes. -/
def grantOf (bucket : GoString) (entry : CallEntry) : Option Grant :=
  match entry.input, entry.output with
  | .acquireStrict _ request _, .acquired ⟨lease, _, none⟩ =>
    if stateKey request.request = bucket ∧ (activeLeases (effectiveOf entry.before request)
        (leasesOf (entry.before.find bucket))).lookup request.leaseID = none
    then some ⟨request, effectiveOf entry.before request, lease⟩ else none
  | _, _ => none

/-- The grants of a bucket, in order. -/
def grantsOf (bucket : GoString) (history : List CallEntry) : List Grant := history.filterMap (grantOf bucket)

/-- What is stored of a grant, and under which ID. -/
def slotOf (grant : Grant) : GoString := grant.request.leaseID

def storedAs (grant : Grant) : LeaseState := ⟨grant.request.request.cost, grant.due⟩

/-- No two grants of a bucket have the ID, the cost and the end in common. -/
def GrantsDiffer (bucket : GoString) (history : List CallEntry) : Prop :=
  ((grantsOf bucket history).map fun grant => (slotOf grant, storedAs grant)).Nodup

instance (bucket : GoString) (history : List CallEntry) : Decidable (GrantsDiffer bucket history) :=
  inferInstanceAs (Decidable (List.Nodup _))

/-- A release with the lease of a grant leaves what is stored under its ID. -/
def Keeps (bucket : GoString) (store : Store) (grant : Grant) : Prop :=
  ∀ waits, (leasesOf ((store.releaseStrict waits grant.lease).1.find bucket)).lookup (slotOf grant) =
    (leasesOf (store.find bucket)).lookup (slotOf grant)

/-- What is stored under an ID is the entry of its last grant. A release with the lease of
another grant of the ID leaves it there. -/
def FreesOwn (bucket : GoString) (history : List CallEntry) (store : Store) : Prop :=
  ∀ earlier second later, grantsOf bucket history = earlier ++ second :: later →
    (∀ other ∈ later, slotOf other ≠ slotOf second) →
    ∀ first ∈ earlier, slotOf first = slotOf second → Keeps bucket store first

/-- The lease of a grant says what is stored of it, and where. -/
structure Issued (bucket : GoString) (grant : Grant) : Prop where
  place : bucketOf grant.lease = bucket
  id : grant.lease.id = slotOf grant
  value : (⟨grant.lease.cost, grant.lease.expiresAt⟩ : LeaseState) = storedAs grant
  complete : ¬ (grant.lease.id = [] ∨ grant.lease.policyID = [] ∨ grant.lease.key.value = [] ∨ grant.lease.cost = 0 ∨
    grant.lease.expiresAt = Time.zero)

/-- The leases of a bucket that are left after a step were there before. -/
def Loses (bucket : GoString) (store next : Store) : Prop :=
  ∀ id value, (leasesOf (next.find bucket)).lookup id = some value → (leasesOf (store.find bucket)).lookup id =
    some value

/-- A step stores nothing new, or a grant in an open store. -/
abbrev Grants (bucket : GoString) (entry : CallEntry) : Prop :=
  LeaseTable.Stores slotOf storedAs (Issued bucket) (entry.after.closed = false) (grantOf bucket entry)
    (leasesOf (entry.before.find bucket)) (leasesOf (entry.after.find bucket))

/-- A write to one key brings no lease into another, and none there that the key has not. -/
theorem Updated.loses {store next : Store} (updated : Updated store next key now state)
    (less : ∀ id value, state.leases.lookup id = some value → (leasesOf (store.find key)).lookup id = some value)
    (bucket : GoString) : Loses bucket store next := by
  intro id value found
  by_cases same : bucket = key
  · subst same
    rw [updated.here] at found
    exact less id value found
  · cases there : next.find bucket with
    | none => simp [there, leasesOf] at found
    | some current =>
      rw [there] at found
      rw [updated.old bucket current same there]
      exact found

/-- A call that acquires has a valid request and finds the store open. -/
theorem acquired_open {store next : Store} {result : Acquired}
    (exact : store.acquireStrict waits request = pure (next, result)) (done : result.error = none) :
    request.validate = .ok () ∧ store.closed = false := by
  have case := store.acquireStrict_case waits request
  generalize store.acquireStrict waits request = run at case exact
  cases case with
  | invalid =>
    cases pure_injective exact
    cases done
  | stopped =>
    cases pure_injective exact
    cases done
  | held valid clear => exact ⟨valid, clear.opened⟩

/-- An acquisition that finds no active lease of its ID and is answered is a grant. -/
theorem issued_grant {store : Store} (built : request.request.policy.Built) (valid : request.validate = .ok ())
    (bounds : request.Bounds term) (early : -9007199254740991 ≤ (effectiveOf store request).unixMicro) :
    Issued (stateKey request.request) ⟨request, effectiveOf store request,
      makeLease request ((effectiveOf store request).add request.request.policy.lease)⟩ where
  place := rfl
  id := rfl
  value := rfl
  complete := by
    obtain ⟨checked, -, named⟩ := (⟨request, built, valid⟩ : ValidLeaseRequest).checked
    obtain ⟨policy, keyed, -⟩ := (validate_iff _).mp checked
    have cost : request.request.cost ≠ 0 := Nat.ne_of_gt bounds.cost_pos
    have dated : (effectiveOf store request).add request.request.policy.lease ≠ Time.zero := by
      apply nonzero_of_le
      rw [bounds.lease_eq]
      simp only [Time.add, Duration.ofMicros, Time.unixMicro] at early ⊢
      omega
    simp only [makeLease, not_or]
    exact ⟨named, policy, keyed, cost, dated⟩

/-- An acquisition of a sound store. -/
theorem acquire_grants {store next : Store} {result : Acquired} (bucket : GoString) (sound : store.Sound)
    {waits : Waits}
    {request : LeaseRequest} (built : request.request.policy.Built)
    (exact : store.acquireStrict waits request = pure (next, result)) :
    Grants bucket ⟨store, .acquireStrict waits request built, .acquired result, next⟩ := by
  have opens := acquired_open exact
  rcases store.acquireStrict_acquires sound waits built with
    ⟨-, problem, same⟩ | ⟨term, after, answer, bounds, -, -, acquires, same⟩
  · cases pure_injective (exact.symm.trans same)
    exact .nothing rfl fun _ _ => id
  cases pure_injective (exact.symm.trans same)
  cases acquires with
  | overflow => exact .nothing rfl fun _ _ => id
  | corrupt => exact .nothing rfl fun _ _ => id
  | unavailable => exact .nothing rfl fun _ _ => id
  | @decided _ state _ range served verdict =>
    have updated : Updated store next (stateKey request.request) _ state := served.updated
    have swept (id : GoString) (value : LeaseState) (found : (activeLeases (effectiveOf store request)
        (leasesOf (store.find (stateKey request.request)))).lookup id = some value) :
        (leasesOf (store.find (stateKey request.request))).lookup id = some value := (lookup_activeLeases.mp found).1
    generalize written : state.leases = leases at verdict
    cases verdict with
    | foreign => exact .nothing rfl (updated.loses (written ▸ swept) bucket)
    | short => exact .nothing rfl (updated.loses (written ▸ swept) bucket)
    | retried found =>
      refine .nothing (if_neg ?_) (updated.loses (written ▸ swept) bucket)
      rintro ⟨rfl, new⟩
      cases found.symm.trans new
    | granted new room =>
      obtain ⟨valid, opened⟩ := opens rfl
      by_cases here : stateKey request.request = bucket
      swap
      · refine .nothing (if_neg fun both => here both.1) fun id value found => ?_
        cases there : next.find bucket with
        | none => simp [there, leasesOf] at found
        | some current =>
          rw [there] at found
          rw [updated.old bucket current (Ne.symm here) there]
          exact found
      subst here
      have stored : state.leases = (activeLeases (effectiveOf store request)
          (leasesOf (store.find (stateKey request.request)))).insert request.leaseID
            ⟨request.request.cost, (effectiveOf store request).add request.request.policy.lease⟩ := written
      refine .grant _ (if_pos ⟨rfl, new⟩) (issued_grant built valid bounds range.1) (updated.closed.trans opened) ?_
        fun id value other found => ?_
      · rw [updated.here]
        show state.leases.lookup _ = _
        rw [stored]
        exact AList.lookup_insert _
      · rw [updated.here] at found
        change state.leases.lookup id = some value at found
        rw [stored, AList.lookup_insert_ne (show id ≠ request.leaseID from other)] at found
        exact swept id value found

/-- What holds of a run: the store is sound, every lease of the bucket is the entry of the
last grant of its ID, and the grants got the leases that are stored. -/
structure OwnedRun (bucket : GoString) (history : List CallEntry) (store : Store) : Prop where
  sound : store.Sound
  owned : LeaseTable.Owned slotOf storedAs (Issued bucket) (grantsOf bucket history) (leasesOf (store.find bucket))

theorem OwnedRun.next {entry : CallEntry} (run : OwnedRun bucket history entry.before) (sound : entry.after.Sound)
    (grants : Grants bucket entry) : OwnedRun bucket (history ++ [entry]) entry.after :=
  ⟨sound, run.owned.step grants⟩

/-- A release that fails changes nothing. -/
def FailsClean (entry : CallEntry) : Prop :=
  ∀ waits lease problem, entry.input = .releaseStrict waits lease → entry.output = .released (some problem) →
    entry.after = entry.before

theorem release_grants {store : Store} (bucket : GoString) (sound : store.Sound) (waits : Waits) (lease : Lease) :
    let result := store.releaseStrict waits lease
    let entry : CallEntry := ⟨store, .releaseStrict waits lease, .released result.2, result.1⟩
    result.1.Sound ∧ Grants bucket entry ∧ FailsClean entry := by
  have case := store.releaseStrict_case waits lease
  generalize store.releaseStrict waits lease = result at case ⊢
  cases case with
  | invalid => exact ⟨sound, .nothing rfl fun _ _ => id, fun _ _ _ _ _ => rfl⟩
  | stopped => exact ⟨sound, .nothing rfl fun _ _ => id, fun _ _ _ _ _ => rfl⟩
  | held clear releases =>
    refine ⟨releases.sound sound, ?_⟩
    cases releases with
    | missing => exact ⟨.nothing rfl fun _ _ => id, fun _ _ _ _ _ => rfl⟩
    | foreign => exact ⟨.nothing rfl fun _ _ => id, fun _ _ _ _ _ => rfl⟩
    | @released current next found held updated =>
      refine ⟨.nothing rfl ((updated Time.zero).loses (fun id value there => ?_) bucket),
        fun _ _ _ _ failed => by cases failed⟩
      rw [found]
      exact LeaseTable.lookup_iff_mem.mpr (LeaseTable.mem_of_erase (LeaseTable.lookup_iff_mem.mp there))

/-- A rate request brings no lease. -/
theorem admit_loses {store : Store} (bucket : GoString) (sound : store.Sound) (waits : Waits) {request : Request}
    (built : request.policy.Built) :
    (store.admitStrict waits request).Yields fun result => result.1.Sound ∧ Loses bucket store result.1 := by
  cases valid : request.validate with
  | error problem =>
    unfold Store.admitStrict Store.admitStrictBy
    rw [valid]
    exact yields_pure ⟨sound, fun _ _ => id⟩
  | ok =>
    obtain ⟨result, returns, ⟨same, -⟩ | ⟨state, served, next, leases, -⟩⟩ :=
      Store.admitStrict_served sound waits built valid
    · refine ⟨result, returns, ?_⟩
      show result.1.Sound ∧ Loses bucket store result.1
      rw [same]
      exact ⟨sound, fun _ _ => id⟩
    · refine ⟨result, returns, next, served.updated.loses (fun id value found => ?_) bucket⟩
      rw [leases] at found
      exact found

theorem sweep_loses (bucket : GoString) (store : Store) (now : Time) (idleFor : Duration) :
    Loses bucket store (store.sweep now idleFor).1 := by
  intro id value found
  cases there : (store.sweep now idleFor).1.find bucket with
  | none => simp [there, leasesOf] at found
  | some state =>
    rw [there] at found
    obtain ⟨current, before, rfl | rfl⟩ := Store.sweep_old there
    · rw [before]
      exact found
    · rw [before]
      exact (lookup_activeLeases.mp found).1

/-- The step lemma. -/
theorem OwnedRun.step (run : OwnedRun bucket history store) (call : Call) :
    ∃ result, (Memory.step store call).Returns result ∧
      (Grants bucket ⟨store, call, result.2, result.1⟩ ∧ FailsClean ⟨store, call, result.2, result.1⟩) ∧
      OwnedRun bucket (history ++ [⟨store, call, result.2, result.1⟩]) result.1 := by
  have other (reply : Reply) (next : Store) (returns : (Memory.step store call).Returns (next, reply))
      (sound : next.Sound) (grants : Grants bucket ⟨store, call, reply, next⟩)
      (clean : FailsClean ⟨store, call, reply, next⟩) :
      ∃ result, (Memory.step store call).Returns result ∧
        (Grants bucket ⟨store, call, result.2, result.1⟩ ∧ FailsClean ⟨store, call, result.2, result.1⟩) ∧
        OwnedRun bucket (history ++ [⟨store, call, result.2, result.1⟩]) result.1 := by
    have entry : OwnedRun bucket history (Entry.mk store call reply next).before := run
    exact ⟨_, returns, ⟨grants, clean⟩, entry.next sound grants⟩
  cases call with
  | admitStrict waits request built =>
    obtain ⟨⟨next, result⟩, returns, sound, loses⟩ := admit_loses bucket run.sound waits built
    exact other _ _ (returns.bind (returns_pure _)) sound (.nothing rfl loses) (by rintro _ _ _ ⟨⟩)
  | acquireStrict waits request built =>
    obtain ⟨next, result, exact, after⟩ := acquire_step run.sound waits built
    refine other _ _ (returns_of_eq ?_) after.sound (acquire_grants bucket run.sound built exact) (by rintro _ _ _ ⟨⟩)
    change store.acquireStrict waits request >>= _ = _
    rw [exact, pure_bind]
  | releaseStrict waits lease =>
    obtain ⟨sound, grants, clean⟩ := release_grants bucket run.sound waits lease
    exact other _ _ (returns_pure _) sound grants clean
  | sweep now idleFor =>
    exact other _ _ (returns_pure _) (run.sound.sweep now idleFor) (.nothing rfl (sweep_loses bucket store now idleFor))
      (by rintro _ _ _ ⟨⟩)
  | close => exact other _ _ (returns_pure _) run.sound (.nothing rfl fun _ _ => id) (by rintro _ _ _ ⟨⟩)

/-- The lease of a grant that is not what is stored frees nothing. -/
theorem Issued.keeps {store : Store} (issued : Issued bucket grant)
    (other : (leasesOf (store.find bucket)).lookup (slotOf grant) ≠ some (storedAs grant)) :
    Keeps bucket store grant := by
  intro waits
  have case := store.releaseStrict_case waits grant.lease
  generalize store.releaseStrict waits grant.lease = result at case ⊢
  cases case with
  | invalid => rfl
  | stopped => rfl
  | held clear releases =>
    cases releases with
    | missing => rfl
    | foreign => rfl
    | released found held =>
      rw [issued.id, issued.value] at held
      refine absurd ?_ other
      rw [← issued.place, show store.find (bucketOf grant.lease) = _ from found]
      exact held

/-- The lease of a grant that is stored frees it. -/
theorem Issued.frees {store : Store} (issued : Issued bucket grant) (opened : store.closed = false)
    (stored : (leasesOf (store.find bucket)).lookup (slotOf grant) = some (storedAs grant)) :
    ¬ Keeps bucket store grant := by
  intro keeps
  have kept := keeps {}
  rw [stored] at kept
  have case := store.releaseStrict_case {} grant.lease
  generalize store.releaseStrict {} grant.lease = result at case kept
  rw [← issued.place, ← issued.id, ← issued.value] at stored kept
  cases case with
  | invalid incomplete => exact issued.complete incomplete
  | stopped stopped => exact stopped.not_clear ⟨rfl, opened, rfl⟩
  | held clear releases =>
    cases releases with
    | missing absent => cases stored.symm.trans absent
    | foreign found other => exact other (Option.some.inj (found.symm.trans stored))
    | released found held updated =>
      rw [show Store.find _ (bucketOf grant.lease) = _ from (updated Time.zero).here] at kept
      cases (AList.lookup_erase _ _).symm.trans kept

/-- The run lemma: in every run from an empty store the grants differ exactly if at no
point the lease of one grant frees another of its ID. -/
theorem frees_own_iff (bucket : GoString) (made : newStore options = .ok store) (calls : List Call) :
    ∃ entries, (Runs.trace step store calls).Returns entries ∧
      (GrantsDiffer bucket entries ↔ ∀ earlier entry later, entries = earlier ++ entry :: later →
        FreesOwn bucket (earlier ++ [entry]) entry.after) ∧
      ∀ entry ∈ entries, FailsClean entry := by
  have start : OwnedRun bucket [] store := by
    have empty := newStore_find made
    refine ⟨fun key state found => ?_, fun key entry found => ?_, by simp [grantsOf]⟩
    · cases (empty key).symm.trans found
    · simp [empty, leasesOf] at found
  obtain ⟨entries, run, -, held⟩ := Runs.trace_returns step (OwnedRun bucket)
    (fun _ entry => Grants bucket entry ∧ FailsClean entry) calls
    (fun history state call inv _ => inv.step call) start
  refine ⟨entries, run, LeaseTable.distinct_iff (fun _ _ => id)
    (fun earlier entry later split => ⟨(held earlier entry later split).1.owned,
      (held earlier entry later split).2.1.1⟩)
    (fun _ _ _ => Issued.keeps) fun _ _ opened issued => issued.frees opened, fun entry member => ?_⟩
  obtain ⟨earlier, later, split⟩ := List.append_of_mem member
  exact (held earlier entry later split).2.1.2

end RateLimit.Memory

namespace RateLimit.Postgres

open Machine

/-! ## The lease state of a row -/

abbrev HistoryEntry := Entry (Option PersistedState) StateCall StateAnswer

/-- The leases of a state. One of a rate policy has none. -/
def leasesIn : Option PersistedState → Leases
  | none => ∅
  | some state => if state.algorithm = .concurrency then state.leases else ∅

/-- The grant of a call, if it is one: the state holds no live lease of the digest when
the call comes. -/
def grantOf (sha256 : GoString → Digest) (entry : HistoryEntry) : Option Grant :=
  match entry.input, entry.output with
  | .acquisition request, ⟨lease, _, none⟩ =>
    let state := loadedLeases entry.before request.toLeaseRequest
    if (liveLeases (leaseNow state request.toLeaseRequest) state.leases).lookup (hexString (sha256 request.leaseID)) =
      none
    then some ⟨request.toLeaseRequest, (clampLease state request.toLeaseRequest).request.now, lease⟩ else none
  | _, _ => none

/-- The grants of a row, in order. -/
def grantsOf (sha256 : GoString → Digest) (history : List HistoryEntry) : List Grant :=
  history.filterMap (grantOf sha256)

/-- What is stored of a grant, and under which digest. -/
def slotOf (sha256 : GoString → Digest) (grant : Grant) : GoString := hexString (sha256 grant.request.leaseID)

def storedAs (grant : Grant) : PersistedLease := ⟨grant.request.request.cost, grant.due.unixMicro⟩

/-- No two grants have the ID, the cost and the end in common. -/
def GrantsDiffer (sha256 : GoString → Digest) (history : List HistoryEntry) : Prop :=
  ((grantsOf sha256 history).map fun grant => (grant.request.leaseID, storedAs grant)).Nodup

instance (sha256 : GoString → Digest) (history : List HistoryEntry) : Decidable (GrantsDiffer sha256 history) :=
  inferInstanceAs (Decidable (List.Nodup _))

/-- A release with the lease of a grant leaves what is stored under its digest. -/
def Keeps (sha256 : GoString → Digest) (current : Option PersistedState) (grant : Grant) : Prop :=
  ∃ next answer, stateStep sha256 current (.release grant.lease) = pure (next, answer) ∧
    (leasesIn next).lookup (slotOf sha256 grant) = (leasesIn current).lookup (slotOf sha256 grant)

/-- What is stored under a digest is the entry of its last grant. A release with the
lease of another grant of the same ID leaves it there. -/
def FreesOwn (sha256 : GoString → Digest) (history : List HistoryEntry) (current : Option PersistedState) : Prop :=
  ∀ earlier second later, grantsOf sha256 history = earlier ++ second :: later →
    (∀ other ∈ later, slotOf sha256 other ≠ slotOf sha256 second) →
    ∀ first ∈ earlier, first.request.leaseID = second.request.leaseID → Keeps sha256 current first

/-- A release that fails changes nothing. -/
def FailsClean (entry : HistoryEntry) : Prop :=
  ∀ lease, entry.input = .release lease → entry.output.error ≠ none → entry.after = entry.before

/-- The lease of a grant under a policy says what is stored of it. -/
structure Issued (policyID : GoString) (grant : Grant) : Prop where
  id : grant.lease.id = grant.request.leaseID
  policy : grant.lease.policyID = policyID
  value : (⟨grant.lease.cost, grant.lease.expiresAt.unixMicro⟩ : PersistedLease) = storedAs grant

/-- A step stores nothing new, or a grant in a state of the policy. -/
abbrev Grants (sha256 : GoString → Digest) (policyID : GoString) (entry : HistoryEntry) : Prop :=
  LeaseTable.Stores (slotOf sha256) storedAs (Issued policyID)
    (∃ state, entry.after = some state ∧ LeasesKept policyID state) (grantOf sha256 entry)
    (leasesIn entry.before) (leasesIn entry.after)

theorem LeasesKept.leasesIn (kept : LeasesKept policyID state) : leasesIn (some state) = state.leases := by
  rw [Postgres.leasesIn, if_pos (by rw [kept.shape])]

/-- What is left of a table whose last lease is gone is no table. -/
theorem LeasesKept.erasedIn (kept : LeasesKept policyID state) (digest : GoString) :
    Postgres.leasesIn (if (state.leases.erase digest).entries = [] then none
      else some { state with leases := state.leases.erase digest }) = state.leases.erase digest := by
  split
  · rename_i empty
    exact AList.ext empty.symm
  · exact (kept.erased digest).leasesIn

/-- The table an acquisition works on. -/
theorem leasesIn_loaded {current : Option PersistedState} {request : LeaseRequest}
    (kept : ∀ state, current = some state → LeasesKept policyID state) :
    leasesIn current = (loadedLeases current request).leases := by
  cases current with
  | none => rfl
  | some state => exact (kept state rfl).leasesIn

theorem lookup_liveLeases {now : Int} {leases : Leases} {digest : GoString} {value : PersistedLease}
    (found : (liveLeases now leases).lookup digest = some value) : leases.lookup digest = some value :=
  (LeaseTable.lookup_keep.mp found).1

/-- An acquisition on a table of its policy. -/
theorem acquisition_grants {current : Option PersistedState} (sha256 : GoString → Digest) (request : ValidLeaseRequest)
    (own : ∀ state, current = some state → LeasesKept request.request.policy.id state)
    (exact : mutateLease current request.toLeaseRequest (hexString (sha256 request.leaseID)) = pure mutation) :
    Grants sha256 request.request.policy.id
      ⟨current, .acquisition request, ⟨mutation.lease, mutation.decision, mutation.error⟩,
        mutation.next.or current⟩ := by
  obtain ⟨term, bounds, -⟩ := request.bounds
  obtain ⟨loaded, outcome⟩ := mutateLease_exact bounds (hexString (sha256 request.leaseID)) own
  obtain rfl := pure_injective (exact.symm.trans outcome)
  by_cases room : leaseNow (loadedLeases current request.toLeaseRequest) request.toLeaseRequest + term ≤
    9007199254740991
  swap
  · rw [if_neg room]
    exact .nothing rfl fun _ _ => id
  rw [if_pos room]
  have verdict : Verdict (loadedLeases current request.toLeaseRequest) request.toLeaseRequest
    (hexString (sha256 request.leaseID)) term _ := leaseOutcome_verdict bounds
  have swept := (loaded.swept bounds room).leasesIn
  have loses (digest : GoString) (value : PersistedLease)
      (found : (leasesIn (some
        (sweptLeases (loadedLeases current request.toLeaseRequest) request.toLeaseRequest))).lookup
        digest = some value) : (leasesIn current).lookup digest = some value := by
    rw [swept] at found
    rw [leasesIn_loaded own]
    exact lookup_liveLeases found
  have keeps : ∀ next, (leaseOutcome (loadedLeases current request.toLeaseRequest) request.toLeaseRequest
      (hexString (sha256 request.leaseID))).next = some next → LeasesKept request.request.policy.id next :=
    fun next => verdict.kept loaded bounds room (hexString_valid (sha256 request.leaseID))
  generalize leaseOutcome (loadedLeases current request.toLeaseRequest) request.toLeaseRequest
    (hexString (sha256 request.leaseID)) = mutation at verdict keeps
  cases verdict with
  | foreign => exact .nothing rfl loses
  | short => exact .nothing rfl loses
  | held found => exact .nothing (if_neg (by simp [found])) loses
  | @granted expiresAt decision new enough expires reset =>
    have after := keeps _ rfl
    have policy := clampRequest_policy (loadedLeases current request.toLeaseRequest) request.request
    have cost := clampRequest_cost (loadedLeases current request.toLeaseRequest) request.request
    have due : ((clampLease (loadedLeases current request.toLeaseRequest) request.toLeaseRequest).request.now.add
        request.request.policy.lease).unixMicro = _ := granted_expires bounds
    refine .grant ⟨request.toLeaseRequest, _, postgresLease (clampLease _ request.toLeaseRequest) expiresAt⟩
      (if_pos new)
      ⟨rfl, congrArg (fun policy : Policy => policy.id) policy, ?_⟩ ⟨_, rfl, after⟩ ?_ fun digest value other found =>
        ?_
    · show (⟨(clampRequest _ _).cost, expiresAt.unixMicro⟩ : PersistedLease) = ⟨request.request.cost, _⟩
      rw [cost, expires, ← due]
      rfl
    · refine (congrArg (AList.lookup _) after.leasesIn).trans ((AList.lookup_insert _).trans ?_)
      rw [← due]
      rfl
    · have inserted := (congrArg (AList.lookup digest) after.leasesIn).symm.trans found
      rw [leasesIn_loaded own]
      exact lookup_liveLeases ((AList.lookup_insert_ne other).symm.trans inserted)

/-- A call on a row of one policy. -/
theorem step_grants (sha256 : GoString → Digest) (kept : HistoryKept current) (call : StateCall)
    (one : ∀ request, call = .acquisition request → request.request.policy.id = policyID) :
    ∃ result, stateStep sha256 current call = pure result ∧ HistoryKept result.1 ∧
      Grants sha256 policyID ⟨current, call, result.2, result.1⟩ ∧ FailsClean ⟨current, call, result.2, result.1⟩ := by
  obtain ⟨⟨next, answer⟩, exact, after⟩ := kept.step sha256 call
  refine ⟨_, exact, after, ?_⟩
  cases call with
  | admission request rate =>
    refine ⟨.nothing rfl ?_, by rintro _ ⟨⟩⟩
    obtain ⟨period, bounds⟩ := request.bounds rate
    rcases mutateState_cases rate bounds current with ⟨overflow, -⟩ | ⟨corrupt, -⟩ | ⟨accepted, result⟩
    · simp only [stateStep, mutateStep, overflow, pure_bind] at exact
      cases pure_injective exact
      exact fun _ _ => id
    · simp only [stateStep, mutateStep, corrupt, pure_bind] at exact
      cases pure_injective exact
      exact fun _ _ => id
    · simp only [stateStep, mutateStep, result, pure_bind] at exact
      cases pure_injective exact
      have other : (outcome accepted).state.algorithm ≠ .concurrency := by
        rw [(outcome_kept accepted).algorithm]
        rintro concurrent
        simp [concurrent, Algorithm.IsRate] at rate
      have none : leasesIn (some (outcome accepted).state) = ∅ := if_neg other
      intro digest value found
      change (leasesIn (some (outcome accepted).state)).lookup digest = some value at found
      simp [none] at found
  | acquisition request =>
    obtain rfl := one request rfl
    refine ⟨?_, by rintro _ ⟨⟩⟩
    obtain ⟨mutation, mutates, -⟩ := acquisition_row kept request _ (hexString_valid (sha256 request.leaseID))
    simp only [stateStep, mutates, pure_bind] at exact
    cases pure_injective exact
    by_cases own : ∀ state, current = some state → LeasesKept request.request.policy.id state
    · exact acquisition_grants sha256 request own mutates
    · cases pure_injective (mutates.symm.trans (acquisition_foreign kept _ _ own))
      exact .nothing rfl fun _ _ => id
  | release lease =>
    rcases releaseState_cases kept lease (hexString (sha256 lease.id)) with
      ⟨problem, fails⟩ | ⟨state, rfl, leases, -, -, releases⟩
    · simp only [stateStep, fails, pure_bind] at exact
      cases pure_injective exact
      exact ⟨.nothing rfl fun _ _ => id, fun _ _ _ => rfl⟩
    · simp only [stateStep, releases, pure_bind] at exact
      cases pure_injective exact
      refine ⟨.nothing rfl fun digest value found => ?_, fun _ _ failed => absurd rfl failed⟩
      rw [show leasesIn _ = _ from leases.erasedIn (hexString (sha256 lease.id))] at found
      rw [leases.leasesIn]
      exact LeaseTable.lookup_iff_mem.mpr (LeaseTable.mem_of_erase (LeaseTable.lookup_iff_mem.mp found))
  | reload =>
    refine ⟨.nothing rfl ?_, by rintro _ ⟨⟩⟩
    cases current with
    | none =>
      cases pure_injective exact
      exact fun _ _ => id
    | some state =>
      obtain ⟨remainder, last, reads, -⟩ := (kept state rfl).decodes
      simp only [stateStep, Option.mapM_some, reads] at exact
      cases pure_injective exact
      exact fun _ _ => id
  | lapse =>
    cases pure_injective exact
    exact ⟨.nothing rfl fun digest value found => by simp [leasesIn] at found, by rintro _ ⟨⟩⟩

/-- What holds of a run: every lease of the row is the entry of the last grant of its
digest, and the grants got the leases that are stored. -/
structure OwnedRun (sha256 : GoString → Digest) (policyID : GoString) (history : List HistoryEntry)
    (current : Option PersistedState) : Prop where
  kept : HistoryKept current
  owned : LeaseTable.Owned (slotOf sha256) storedAs (Issued policyID) (grantsOf sha256 history) (leasesIn current)

/-- The lease of a grant that is not what is stored frees nothing. -/
theorem Issued.keeps {sha256 : GoString → Digest} (issued : Issued policyID grant) (kept : HistoryKept current)
    (other : (leasesIn current).lookup (slotOf sha256 grant) ≠ some (storedAs grant)) : Keeps sha256 current grant := by
  rcases releaseState_cases kept grant.lease (hexString (sha256 grant.lease.id)) with
    ⟨problem, fails⟩ | ⟨state, rfl, leases, -, held, -⟩
  · refine ⟨current, { error := some problem }, ?_, rfl⟩
    simp only [stateStep, fails, pure_bind]
  · rw [issued.id, issued.value] at held
    rw [leases.leasesIn] at other
    exact absurd held other

/-- The lease of a grant that is stored frees it. -/
theorem Issued.frees {sha256 : GoString → Digest} (issued : Issued policyID grant) (kept : LeasesKept policyID state)
    (stored : (leasesIn (some state)).lookup (slotOf sha256 grant) = some (storedAs grant)) :
    ¬ Keeps sha256 (some state) grant := by
  rintro ⟨next, answer, exact, same⟩
  rw [stored] at same
  rw [kept.leasesIn] at stored
  have found : state.leases.lookup (hexString (sha256 grant.lease.id)) = some (storedAs grant) := by
    rw [issued.id]
    exact stored
  have releases := releaseState_exact (issued.policy.symm ▸ kept) (hexString (sha256 grant.lease.id))
  rw [found, ← issued.value] at releases
  simp only [ne_eq, not_true_eq_false, or_self, if_false] at releases
  simp only [stateStep, releases, pure_bind] at exact
  cases pure_injective exact
  rw [kept.erasedIn, issued.id] at same
  cases (AList.lookup_erase _ _).symm.trans same

/-- The run lemma: in every history of a row of one policy the grants differ exactly if
at no point the lease of one grant frees another of its ID. -/
theorem frees_own_iff (sha256 : GoString → Digest) (policyID : GoString) (calls : List StateCall)
    (one : ∀ request, .acquisition request ∈ calls → request.request.policy.id = policyID) :
    ∃ entries, Runs.trace (stateStep sha256) none calls = pure entries ∧
      (GrantsDiffer sha256 entries ↔ ∀ earlier entry later, entries = earlier ++ entry :: later →
        FreesOwn sha256 (earlier ++ [entry]) entry.after) ∧
      ∀ entry ∈ entries, FailsClean entry := by
  have start : OwnedRun sha256 policyID [] none :=
    ⟨historyKept_none, fun key entry found => by simp [leasesIn] at found, by simp [grantsOf]⟩
  obtain ⟨entries, run, -, held⟩ := Runs.trace_history (stateStep sha256) (OwnedRun sha256 policyID)
    (fun _ entry => Grants sha256 policyID entry ∧ FailsClean entry) calls
    (fun history state call inv member => by
      obtain ⟨result, exact, kept, grants, clean⟩ := step_grants sha256 inv.kept call
        (fun request same => one request (same ▸ member))
      exact ⟨result, exact, ⟨grants, clean⟩, kept, inv.owned.step grants⟩) start
  have each (entry : HistoryEntry) (member : entry ∈ entries) : FailsClean entry ∧ HistoryKept entry.after := by
    obtain ⟨earlier, later, split⟩ := List.append_of_mem member
    obtain ⟨-, ⟨-, clean⟩, after⟩ := held earlier entry later split
    exact ⟨clean, after.kept⟩
  refine ⟨entries, run, LeaseTable.distinct_iff (fun first second same => by rw [slotOf, slotOf, same])
    (fun earlier entry later split => ⟨(held earlier entry later split).1.owned,
      (held earlier entry later split).2.1.1⟩)
    (fun entry member grant issued => issued.keeps (each entry member).2) ?_, fun entry member => (each entry member).1⟩
  rintro entry grant ⟨state, there, kept⟩ issued
  rw [there]
  exact issued.frees kept

end RateLimit.Postgres

namespace RateLimit

/-! ## Both -/

/-- A release frees only the grant it was issued for, if the grants can be told apart. In
every run of a memory store, and in every history of a row of one policy: no two grants of
an ID have the cost and the end in common exactly if at no point a release with the lease
of one removes what another stored; and a release that fails removes nothing. -/
theorem release_frees_own_grant (options : Memory.Options) (store : Memory.Store)
    (made : Memory.newStore options = .ok store)
    (bucket : GoString) (memoryCalls : List Memory.Call) (sha256 : GoString → Postgres.Digest) (policyID : GoString)
    (stateCalls : List Postgres.StateCall)
    (one : ∀ request, .acquisition request ∈ stateCalls → request.request.policy.id = policyID) :
    (∃ entries, (Runs.trace Memory.step store memoryCalls).Returns entries ∧
      (Memory.GrantsDiffer bucket entries ↔ ∀ earlier entry later, entries = earlier ++ entry :: later →
        Memory.FreesOwn bucket (earlier ++ [entry]) entry.after) ∧
      ∀ entry ∈ entries, Memory.FailsClean entry) ∧
    ∃ entries, Runs.trace (Postgres.stateStep sha256) none stateCalls = pure entries ∧
      (Postgres.GrantsDiffer sha256 entries ↔ ∀ earlier entry later, entries = earlier ++ entry :: later →
        Postgres.FreesOwn sha256 (earlier ++ [entry]) entry.after) ∧
      ∀ entry ∈ entries, Postgres.FailsClean entry :=
  ⟨Memory.frees_own_iff bucket made memoryCalls, Postgres.frees_own_iff sha256 policyID stateCalls one⟩

/-- The lease of an hour that an acquisition at the first second gets. -/
def firstLease (backend : GoString) : Lease :=
  ⟨[97], ⟨[107], [117]⟩, [112], [97], 1, ⟨3601000000000⟩, backend⟩

/-- A lease is taken, released, taken again at a later time, and the first one is released
once more. -/
def memoryRelease (micros : Int) : List Memory.Call :=
  [Memory.acquireOne Postgres.hourLeases Postgres.hourLeases_built 107 97 1000000, .releaseStrict {}
    (firstLease (.ofLiteral "memory")),
    Memory.acquireOne Postgres.hourLeases Postgres.hourLeases_built 107 97 micros, .releaseStrict {}
      (firstLease (.ofLiteral "memory"))]

/-- The same on a row. -/
def stateRelease (again : ValidLeaseRequest) : List Postgres.StateCall :=
  [.acquisition (Postgres.hourLeases.leaseRequest Postgres.hourLeases_built 97 1 1000000 Postgres.hourLeases_accept),
    .release (firstLease (.ofLiteral "postgres")),
    .acquisition again, .release (firstLease (.ofLiteral "postgres"))]

theorem release_frees_own_grant_later :
    Memory.newStore { maxKeys := 1, shards := 1 } = .ok Memory.oneKey ∧
      (∃ entries, (Runs.trace Memory.step Memory.oneKey (memoryRelease 2000000)).Returns entries ∧
        ∀ earlier entry later, entries = earlier ++ entry :: later →
          Memory.FreesOwn (Postgres.bucketName [112] ⟨[107], [117]⟩) (earlier ++ [entry]) entry.after) ∧
      ∃ entries, Runs.trace (Postgres.stateStep Postgres.runDigest) none
          (stateRelease (Postgres.hourLeases.leaseRequest rfl 97 1 2000000 rfl)) = pure entries ∧
        ∀ earlier entry later, entries = earlier ++ entry :: later →
          Postgres.FreesOwn Postgres.runDigest (earlier ++ [entry]) entry.after := by
  have made : Memory.newStore { maxKeys := 1, shards := 1 } = .ok Memory.oneKey := rfl
  have one : ∀ request, .acquisition request ∈ stateRelease (Postgres.hourLeases.leaseRequest rfl 97 1 2000000 rfl) →
      request.request.policy.id = [112] := by
    intro request member
    simp only [stateRelease, List.mem_cons, Postgres.StateCall.acquisition.injEq, reduceCtorEq, List.not_mem_nil,
      or_false, false_or] at member
    rcases member with rfl | rfl <;> rfl
  obtain ⟨⟨entries, run, differ, -⟩, rows, trace, tells, -⟩ := release_frees_own_grant _ Memory.oneKey made
    (Postgres.bucketName [112] ⟨[107], [117]⟩) (memoryRelease 2000000) Postgres.runDigest [112] _ one
  have exact : Runs.trace Memory.step Memory.oneKey (memoryRelease 2000000) = pure _ := rfl
  obtain rfl := run.unique (Machine.returns_of_eq exact)
  refine ⟨made, ⟨_, run, differ.mp (by decide +kernel)⟩, rows, trace, tells.mp ?_⟩
  cases trace
  decide +kernel

/-- The clock stands still between the two grants, so they end at the same time, and the
lease of the first frees the second. -/
theorem stale_lease_frees_regrant :
    (∃ first second third fourth,
      Runs.trace Memory.step Memory.oneKey (memoryRelease 1000000) = pure [first, second, third, fourth] ∧
      ∃ old new, Memory.grantOf (Postgres.bucketName [112] ⟨[107], [117]⟩) first = some old ∧
        Memory.grantOf (Postgres.bucketName [112] ⟨[107], [117]⟩) third = some new ∧
        old.lease = firstLease (.ofLiteral "memory") ∧
        (Memory.leasesOf (fourth.before.find (Postgres.bucketName [112] ⟨[107], [117]⟩))).lookup [97] =
          some (Memory.storedAs new) ∧
        (Memory.leasesOf (fourth.after.find (Postgres.bucketName [112] ⟨[107], [117]⟩))).lookup [97] = none) ∧
    ∃ first second third fourth,
      Runs.trace (Postgres.stateStep Postgres.runDigest) none
        (stateRelease (Postgres.hourLeases.leaseRequest rfl 97 1 1000000 rfl)) = pure [first, second, third, fourth] ∧
      ∃ old new, Postgres.grantOf Postgres.runDigest first = some old ∧
        Postgres.grantOf Postgres.runDigest third = some new ∧ old.lease = firstLease (.ofLiteral "postgres") ∧
        (Postgres.leasesIn fourth.before).lookup (Postgres.slotOf Postgres.runDigest new) =
          some (Postgres.storedAs new) ∧
        (Postgres.leasesIn fourth.after).lookup (Postgres.slotOf Postgres.runDigest new) = none :=
  ⟨⟨_, _, _, _, rfl, _, _, rfl, rfl, rfl, rfl, rfl⟩, _, _, _, _, rfl, _, _, rfl, rfl, rfl, rfl, rfl⟩

end RateLimit
