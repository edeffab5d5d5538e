import RateLimit.MemoryKeys

/-! Lease safety of the memory store. A book is kept of the leases that a run has granted
and not released, from the replies alone, and of the policy that granted the last new
lease of each bucket. As long as the times of the calls never decrease, the leases in the
book that have not expired are exactly those that the store has, under any pressure on its
keys, and their cost is within the limit of the policy that granted the last of them. -/
namespace RateLimit.Memory

open Machine

/-! ## The book of a run -/

abbrev CallEntry := Entry Store Call Reply

/-- The time that a call supplies. -/
def Call.time : Call → Option Time
  | .admitStrict _ request _ => some request.now
  | .acquireStrict _ request _ => some request.request.now
  | .sweep now _ => some now
  | .releaseStrict _ _ | .close => none

/-- The times that calls supply never decrease. -/
def Ordered (calls : List Call) : Prop :=
  (calls.filterMap Call.time).Pairwise fun earlier later => earlier.nanos ≤ later.nanos

/-- A time that is not before any that was supplied. -/
def Current (history : List CallEntry) (now : Time) : Prop :=
  ∀ entry ∈ history, ∀ time ∈ entry.input.time, time.nanos ≤ now.nanos

/-- The policy ID and key of a lease. No key has a zero byte, so their name says both. -/
def bucketOf (lease : Lease) : GoString := Postgres.bucketName lease.policyID lease.key

/-- The leases that were granted and not released, and the policy that granted the last
new lease of a bucket. -/
structure Book where
  held : List Lease := []
  granting : GoString → Option Policy := fun _ => none

namespace Book

/-- The leases of a bucket that expire after a time. -/
def live (book : Book) (bucket : GoString) (now : Time) : List Lease :=
  book.held.filter fun lease => decide (bucketOf lease = bucket ∧ now.nanos < lease.expiresAt.nanos)

/-- The leases but for one ID of one bucket. -/
def without (book : Book) (bucket id : GoString) : List Lease :=
  book.held.filter fun lease => decide ¬ (bucketOf lease = bucket ∧ lease.id = id)

end Book

/-- The effective time of an acquisition. -/
def effectiveOf (store : Store) (request : LeaseRequest) : Time :=
  effectiveTime (store.find (stateKey request.request)) (truncate request.request.now)

/-- What a call changes in the book. A lease that is returned again was granted before. -/
def Book.record (book : Book) (entry : CallEntry) : Book :=
  match entry.input, entry.output with
  | .acquireStrict _ request _, .acquired ⟨lease, _, none⟩ =>
    { held := lease :: book.without (stateKey request.request) request.leaseID
      granting :=
        if ∃ other ∈ book.live (stateKey request.request) (effectiveOf entry.before request), other.id = request.leaseID
        then book.granting
        else Function.update book.granting (stateKey request.request) (some request.request.policy) }
  | .releaseStrict _ lease, .released none => { book with held := book.without (bucketOf lease) lease.id }
  | _, _ => book

def bookOf (history : List CallEntry) : Book := history.foldl Book.record {}

theorem bookOf_snoc (history : List CallEntry) (entry : CallEntry) :
    bookOf (history ++ [entry]) = (bookOf history).record entry := by
  simp [bookOf]

theorem current_snoc {history : List CallEntry} {entry : CallEntry} {now : Time} :
    Current (history ++ [entry]) now ↔
      Current history now ∧ ∀ time ∈ entry.input.time, time.nanos ≤ now.nanos := by
  simp [Current, or_imp, forall_and]

/-- In order, the time of every call is current when it comes. -/
theorem ordered_snoc {history : List CallEntry} {call : Call} (ordered : Ordered (history.map Entry.input ++ [call])) :
    Ordered (history.map Entry.input) ∧ ∀ time ∈ call.time, Current history time := by
  unfold Ordered at ordered
  rw [List.filterMap_append, List.pairwise_append] at ordered
  obtain ⟨before, -, across⟩ := ordered
  refine ⟨before, fun time member entry inside earlier past => ?_⟩
  refine across earlier ?_ time ?_
  · exact List.mem_filterMap.mpr ⟨entry.input, List.mem_map.mpr ⟨entry, inside, rfl⟩, past⟩
  · exact List.mem_filterMap.mpr ⟨call, List.mem_singleton.mpr rfl, member⟩

/-! ## Leases that are live -/

/-- The same leases are live in two stores. -/
def SameLive (store next : Store) (now : Time) : Prop :=
  ∀ bucket id value, now.nanos < value.expiresAt.nanos →
    ((leasesOf (next.find bucket)).lookup id = some value ↔ (leasesOf (store.find bucket)).lookup id = some value)

/-- A live lease of another key is neither lost nor made. -/
theorem Updated.others {store next : Store} {now : Time} (updated : Updated store next key time state)
    (past : time.nanos ≤ now.nanos) {bucket id : GoString} (different : bucket ≠ key) {value : LeaseState}
      (live : now.nanos < value.expiresAt.nanos) :
    (leasesOf (next.find bucket)).lookup id = some value ↔ (leasesOf (store.find bucket)).lookup id = some value := by
  constructor
  · intro found
    cases there : next.find bucket with
    | none =>
      rw [there] at found
      simp [leasesOf] at found
    | some current =>
      rw [there] at found
      rw [updated.old bucket current different there]
      exact found
  · intro found
    cases there : store.find bucket with
    | none =>
      rw [there] at found
      simp [leasesOf] at found
    | some current =>
      rw [there] at found
      have active : hasActiveLease current.leases time = true :=
        hasActiveLease_iff.mpr ⟨id, value, found, past.trans_lt live⟩
      rw [updated.kept bucket current different there active]
      exact found

/-- What is written to one key decides whether the same leases are live. -/
theorem Updated.sameLive {store next : Store} (updated : Updated store next key time state)
    (past : time.nanos ≤ now.nanos)
    (here : ∀ id value, now.nanos < value.expiresAt.nanos →
      (state.leases.lookup id = some value ↔ (leasesOf (store.find key)).lookup id = some value)) :
    SameLive store next now := by
  intro bucket id value live
  by_cases same : bucket = key
  · subst same
    rw [updated.here]
    exact here id value live
  · exact updated.others past same live

theorem sweep_sameLive (store : Store) {time now : Time} (idleFor : Duration) (past : time.nanos ≤ now.nanos) :
    SameLive store (store.sweep time idleFor).1 now := by
  intro bucket id value live
  rcases store.find_sweep time idleFor bucket with same | swept
  · rw [same]
  rw [swept]
  cases found : store.find bucket with
  | none => rfl
  | some current =>
    have later := past.trans_lt live
    by_cases removed : idle time idleFor current = true
    · -- A key that is removed has no lease that is active.
      rw [Option.filter_some, removed]
      constructor
      · intro impossible
        simp [leasesOf] at impossible
      · intro held
        have active : hasActiveLease current.leases time = true := hasActiveLease_iff.mpr ⟨id, value, held, later⟩
        simp [idle, active] at removed
    · rw [Option.filter_some, Bool.eq_false_iff.mpr removed]
      change (activeLeases time current.leases).lookup id = some value ↔ current.leases.lookup id = some value
      rw [lookup_activeLeases]
      exact and_iff_left later

/-- Between a whole microsecond and the time it was cut from, no lease expires. -/
theorem live_iff {effective now : Time} {expiry : Int} (whole : expiry % 1000 = 0)
    (lower : (truncate now).nanos ≤ effective.nanos) (upper : effective.nanos ≤ now.nanos) :
    effective.nanos < expiry ↔ now.nanos < expiry := by
  simp only [truncate, Time.ofUnixMicro, Time.unixMicro] at lower
  omega

theorem activeLeases_eq {leases : Leases} {effective now : Time} (bounded : LeasesBounded leases)
    (lower : (truncate now).nanos ≤ effective.nanos) (upper : effective.nanos ≤ now.nanos) :
    activeLeases effective leases = activeLeases now leases := by
  refine AList.ext (List.filter_congr fun entry member => ?_)
  exact decide_eq_decide.mpr (live_iff (bounded.whole entry member) lower upper)

theorem Book.live_eq {book : Book} {effective now : Time} (whole : ∀ lease ∈ book.held,
    lease.expiresAt.nanos % 1000 = 0)
    (lower : (truncate now).nanos ≤ effective.nanos) (upper : effective.nanos ≤ now.nanos) (bucket : GoString) :
    book.live bucket effective = book.live bucket now := by
  refine List.filter_congr fun lease member => ?_
  exact decide_eq_decide.mpr (and_congr_right fun _ => live_iff (whole lease member) lower upper)

/-- The effective time lies between the time of the call and the microsecond it is in. -/
theorem effectiveTime_between {found : Option State} {now : Time}
    (seen : ∀ state, found = some state → state.lastSeen.nanos ≤ now.nanos) :
    (truncate now).nanos ≤ (effectiveTime found (truncate now)).nanos ∧
      (effectiveTime found (truncate now)).nanos ≤ now.nanos := by
  have cut := truncate_le now
  cases found with
  | none => exact ⟨le_rfl, cut⟩
  | some state =>
    have past := seen state rfl
    unfold effectiveTime clampLastSeen
    dsimp only
    split
    · exact ⟨by omega, past⟩
    · exact ⟨le_rfl, cut⟩

/-! ## The book and the store -/

/-- The limit of the policy that granted last; without one, nothing was granted. -/
def grantingLimit : Option Policy → Nat
  | some policy => policy.limit
  | none => 0

/-- How a book agrees with a store at a time. -/
structure Tracks (store : Store) (book : Book) (now : Time) : Prop where
  seen : ∀ key state, store.find key = some state → state.lastSeen.nanos ≤ now.nanos
  stored : ∀ bucket id value, now.nanos < value.expiresAt.nanos →
    ((leasesOf (store.find bucket)).lookup id = some value ↔
      ∃ lease ∈ book.held, bucketOf lease = bucket ∧ lease.id = id ∧ (⟨lease.cost, lease.expiresAt⟩ : LeaseState) =
        value)
  limit : ∀ bucket, activeCost now (leasesOf (store.find bucket)) ≤ grantingLimit (book.granting bucket)

/-- What a book has of itself. -/
structure Book.Sound (book : Book) : Prop where
  whole : ∀ lease ∈ book.held, lease.expiresAt.nanos % 1000 = 0
  distinct : book.held.Pairwise fun a b => ¬ (bucketOf a = bucketOf b ∧ a.id = b.id)

/-- Where no other leases are live, they cost no more. -/
theorem activeCost_le {leases after : Leases}
    (old : ∀ id value, now.nanos < value.expiresAt.nanos → after.lookup id = some value →
      leases.lookup id = some value) :
    activeCost now after ≤ activeCost now leases := by
  have distinct := (activeLeases now after).nodupKeys
  refine LeaseTable.sum_le_total Sigma.fst Sigma.snd LeaseState.cost (List.pairwise_map.mp distinct)
    fun entry member => ?_
  obtain ⟨inside, live⟩ := LeaseTable.mem_keep.mp member
  have later := of_decide_eq_true live
  exact lookup_activeLeases.mpr ⟨old entry.1 entry.2 later (LeaseTable.lookup_iff_mem.mpr inside), later⟩

/-- A call that is not recorded leaves the same leases live. -/
theorem Tracks.same {store next : Store} (tracks : Tracks store book now) (same : SameLive store next now)
    (seen : ∀ key state, next.find key = some state → state.lastSeen.nanos ≤ now.nanos) : Tracks next book now where
  seen := seen
  stored := fun bucket id value live => (same bucket id value live).trans (tracks.stored bucket id value live)
  limit := fun bucket =>
    (activeCost_le fun id value live => (same bucket id value live).mp).trans (tracks.limit bucket)

/-- The leases of the book that are live are all in the store. -/
theorem Tracks.sum_le (tracks : Tracks store book now) (sound : book.Sound) (bucket : GoString) :
    ((book.live bucket now).map Lease.cost).sum ≤ activeCost now (leasesOf (store.find bucket)) := by
  have distinct : (book.live bucket now).Pairwise fun a b => a.id ≠ b.id := by
    refine (sound.distinct.filter _).imp_of_mem fun {a b} left right other same => other ⟨?_, same⟩
    have here := (of_decide_eq_true (List.mem_filter.mp left).2).1
    have there := (of_decide_eq_true (List.mem_filter.mp right).2).1
    exact here.trans there.symm
  refine LeaseTable.sum_le_total Lease.id (fun lease => ⟨lease.cost, lease.expiresAt⟩) LeaseState.cost distinct
    fun lease member => ?_
  obtain ⟨held, test⟩ := List.mem_filter.mp member
  obtain ⟨here, live⟩ := of_decide_eq_true test
  exact lookup_activeLeases.mpr ⟨(tracks.stored bucket lease.id _ live).mpr ⟨lease, held, here, rfl, rfl⟩, live⟩

/-! ## Steps -/

theorem Served.seen {store next : Store} {request : Request} {now : Time} (served : Served store next request state)
    (seen : ∀ key state, store.find key = some state → state.lastSeen.nanos ≤ now.nanos)
    (past : request.now.nanos ≤ now.nanos) :
    ∀ key state, next.find key = some state → state.lastSeen.nanos ≤ now.nanos := by
  intro key current found
  by_cases same : key = stateKey request
  · subst same
    cases served.updated.here.symm.trans found
    rw [served.lastSeen]
    cases there : store.find (stateKey request) with
    | none => exact past
    | some old =>
      have before := seen _ old there
      unfold effectiveTime clampLastSeen
      dsimp only
      split
      · exact before
      · exact past
  · exact seen key current (served.updated.old key current same found)

/-- What a rate request does to a store that is sound. -/
theorem admit_yields {store : Store} (sound : store.Sound) (waits : Waits) {request : Request}
    (built : request.policy.Built) :
    (store.admitStrict waits request).Yields fun result => result.1.Sound ∧
      ∀ book now, Tracks store book now → request.now.nanos ≤ now.nanos → Tracks result.1 book now := by
  cases valid : request.validate with
  | error problem =>
    unfold Store.admitStrict Store.admitStrictBy
    rw [valid]
    exact yields_pure ⟨sound, fun _ _ tracks _ => tracks⟩
  | ok =>
    obtain ⟨result, returns, ⟨same, -⟩ | ⟨state, served, next, leases, -⟩⟩ :=
      Store.admitStrict_served sound waits built valid
    · rw [← same] at sound
      exact ⟨result, returns, sound, fun _ _ tracks _ => same.symm ▸ tracks⟩
    · refine ⟨result, returns, next, fun book now tracks past => ?_⟩
      have cut : (truncated request).now.nanos ≤ now.nanos := (truncate_le _).trans past
      refine tracks.same (served.updated.sameLive cut fun id value live => ?_) (served.seen tracks.seen cut)
      rw [leases]
      rfl

theorem sweep_tracks {store : Store} (tracks : Tracks store book now) (past : time.nanos ≤ now.nanos) :
    Tracks (store.sweep time idleFor).1 book now := by
  refine tracks.same (sweep_sameLive store idleFor past) fun key state found => ?_
  obtain ⟨current, present, rfl | rfl⟩ := Store.sweep_old found
  · exact tracks.seen key state present
  · exact tracks.seen key current present

theorem Book.mem_without {book : Book} {bucket id : GoString} :
    lease ∈ book.without bucket id ↔ lease ∈ book.held ∧ ¬ (bucketOf lease = bucket ∧ lease.id = id) := by
  rw [Book.without, List.mem_filter, decide_eq_true_iff]

theorem Book.Sound.without {book : Book} (sound : book.Sound) (bucket id : GoString) :
    ({ book with held := book.without bucket id } : Book).Sound where
  whole := fun lease member => sound.whole lease (Book.mem_without.mp member).1
  distinct := sound.distinct.filter _

/-- To find a lease in the book without one ID of one bucket, it must be another one. -/
theorem Book.found_without {book : Book} {bucket id gone released : GoString} {Value : Lease → Prop} :
    (∃ lease ∈ book.without gone released, bucketOf lease = bucket ∧ lease.id = id ∧ Value lease) ↔
      ¬ (bucket = gone ∧ id = released) ∧ ∃ lease ∈ book.held, bucketOf lease = bucket ∧ lease.id = id ∧
        Value lease := by
  constructor
  · rintro ⟨lease, member, rfl, rfl, value⟩
    obtain ⟨held, other⟩ := Book.mem_without.mp member
    exact ⟨other, lease, held, rfl, rfl, value⟩
  · rintro ⟨other, lease, held, rfl, rfl, value⟩
    exact ⟨lease, Book.mem_without.mpr ⟨held, other⟩, rfl, rfl, value⟩

/-- What a release leaves of the leases. -/
theorem Releases.lookup {store next : Store} {lease : Lease} {now : Time} (releases : Releases store lease next none)
    {bucket id : GoString} {value : LeaseState} (live : now.nanos < value.expiresAt.nanos) :
    (leasesOf (next.find bucket)).lookup id = some value ↔
      ¬ (bucket = bucketOf lease ∧ id = lease.id) ∧ (leasesOf (store.find bucket)).lookup id = some value := by
  cases releases with
  | @released current _ found held updated =>
    by_cases same : bucket = bucketOf lease
    · subst same
      rw [show next.find (bucketOf lease) = _ from (updated now).here, show store.find (bucketOf lease) = _ from found]
      change (current.leases.erase lease.id).lookup id = some value ↔ _ ∧ current.leases.lookup id = some value
      by_cases gone : id = lease.id
      · subst gone
        simp
      · rw [AList.lookup_erase_ne gone]
        exact (and_iff_right fun both => gone both.2).symm
    · rw [(updated now).others le_rfl same live]
      exact (and_iff_right fun both => same both.1).symm

/-- What a release does to the book and the store. -/
theorem Releases.tracks {store next : Store} {lease : Lease} (releases : Releases store lease next none)
    (tracks : Tracks store book now) :
    Tracks next { book with held := book.without (bucketOf lease) lease.id } now where
  seen := by
    cases releases with
    | @released current _ found held updated =>
      intro key state there
      by_cases same : key = bucketOf lease
      · subst same
        cases (updated now).here.symm.trans there
        exact tracks.seen _ current found
      · exact tracks.seen key state ((updated now).old key state same there)
  stored := fun bucket id value live => by
    rw [releases.lookup live, tracks.stored bucket id value live]
    exact Book.found_without.symm
  limit := fun bucket =>
    (activeCost_le fun id value live found => ((releases.lookup live).mp found).2).trans (tracks.limit bucket)

/-- The leases of a store with one written. -/
def Puts (store next : Store) (bucket id : GoString) (value : LeaseState) (now : Time) : Prop :=
  ∀ other name found, now.nanos < found.expiresAt.nanos →
    ((leasesOf (next.find other)).lookup name = some found ↔
      other = bucket ∧ name = id ∧ found = value ∨
        ¬ (other = bucket ∧ name = id) ∧ (leasesOf (store.find other)).lookup name = some found)

/-- A lease that is returned is written to the book. -/
theorem Tracks.put {store next : Store} {lease : Lease} (tracks : Tracks store book now)
    (puts : Puts store next (bucketOf lease) lease.id ⟨lease.cost, lease.expiresAt⟩ now)
    (seen : ∀ key state, next.find key = some state → state.lastSeen.nanos ≤ now.nanos)
    (limit : ∀ bucket, activeCost now (leasesOf (next.find bucket)) ≤ grantingLimit (granting bucket)) :
    Tracks next ⟨lease :: book.without (bucketOf lease) lease.id, granting⟩ now where
  seen := seen
  stored := fun bucket id value live => by
    rw [puts bucket id value live, tracks.stored bucket id value live]
    simp only [List.mem_cons, or_and_right, exists_or, exists_eq_left]
    refine or_congr ?_ Book.found_without.symm
    constructor
    · rintro ⟨rfl, rfl, rfl⟩
      exact ⟨rfl, rfl, rfl⟩
    · rintro ⟨rfl, rfl, rfl⟩
      exact ⟨rfl, rfl, rfl⟩
  limit := limit

theorem Book.Sound.put {book : Book} (sound : book.Sound) (whole : lease.expiresAt.nanos % 1000 = 0)
    (granting : GoString → Option Policy) :
    (⟨lease :: book.without (bucketOf lease) lease.id, granting⟩ : Book).Sound where
  whole := by
    intro other member
    rcases List.mem_cons.mp member with rfl | old
    · exact whole
    · exact sound.whole other (Book.mem_without.mp old).1
  distinct := by
    refine List.pairwise_cons.mpr ⟨fun other member same => ?_, sound.distinct.filter _⟩
    exact (Book.mem_without.mp member).2 ⟨same.1.symm, same.2.symm⟩

section
variable {store next : Store} {request : LeaseRequest} {term : Nat} {state : State} {now : Time}

/-- The effective time of an acquisition is in the microsecond of its own time. -/
theorem Tracks.effective (tracks : Tracks store book request.request.now) :
    (truncate request.request.now).nanos ≤ (effectiveOf store request).nanos ∧
      (effectiveOf store request).nanos ≤ request.request.now.nanos :=
  effectiveTime_between fun state found => tracks.seen (stateKey request.request) state found

/-- A verdict that grants nothing leaves the live leases as they are. -/
theorem swept_sameLive (served : Served store next (retimed request (truncate request.request.now)).request state)
    (swept : state.leases = activeLeases (effectiveOf store request) (leasesOf (store.find (stateKey request.request))))
    (past : request.request.now.nanos ≤ now.nanos)
      (upper : (effectiveOf store request).nanos ≤ request.request.now.nanos) :
    SameLive store next now := by
  refine served.updated.sameLive ((truncate_le _).trans past) fun id value live => ?_
  rw [swept, lookup_activeLeases]
  exact and_iff_left ((upper.trans past).trans_lt live)

/-- A retry writes what is there. -/
theorem retried_puts {bucket id : GoString} (same : SameLive store next now)
    (found : (leasesOf (store.find bucket)).lookup id = some value) : Puts store next bucket id value now := by
  intro other name there live
  rw [same other name there live]
  by_cases here : other = bucket ∧ name = id
  · obtain ⟨rfl, rfl⟩ := here
    rw [found]
    simp [eq_comm]
  · rw [and_iff_right here]
    exact ⟨Or.inr, fun either => either.resolve_left fun own => here ⟨own.1, own.2.1⟩⟩

/-- A grant writes one lease. -/
theorem granted_puts (served : Served store next (retimed request (truncate request.request.now)).request state)
    (written : state.leases = (activeLeases (effectiveOf store request)
      (leasesOf (store.find (stateKey request.request)))).insert request.leaseID value)
    (past : request.request.now.nanos ≤ now.nanos)
      (upper : (effectiveOf store request).nanos ≤ request.request.now.nanos) :
    Puts store next (stateKey request.request) request.leaseID value now := by
  intro other name found live
  by_cases same : other = stateKey request.request
  · subst same
    rw [show next.find (stateKey request.request) = some state from served.updated.here]
    change state.leases.lookup name = some found ↔ _
    rw [written]
    by_cases own : name = request.leaseID
    · subst own
      simp [eq_comm]
    · rw [AList.lookup_insert_ne own, lookup_activeLeases]
      simp [own, (upper.trans past).trans_lt live]
  · rw [served.updated.others ((truncate_le _).trans past) same live]
    simp [same]

/-- What an acquisition does to a sound store. -/
structure AcquireStep (store next : Store) (request : LeaseRequest) (result : Acquired) : Prop where
  sound : next.Sound
  follows : ∀ book : Book, book.Sound → Tracks store book request.request.now → ∀ waits built,
    let recorded := book.record ⟨store, .acquireStrict waits request built, .acquired result, next⟩
    recorded.Sound ∧ ∀ now, request.request.now.nanos ≤ now.nanos → Tracks store book now → Tracks next recorded now
  cost : ∀ lease decision, result = ⟨lease, decision, none⟩ →
    bucketOf lease = stateKey request.request ∧ 0 < lease.cost ∧
      (effectiveOf store request).nanos < lease.expiresAt.nanos

theorem AcquireStep.refused {problem : GoError} (sound : store.Sound) :
    AcquireStep store store request { error := some problem } where
  sound := sound
  follows := fun _ books _ _ _ => ⟨books, fun _ _ tracks => tracks⟩
  cost := by rintro lease decision ⟨⟩

/-- A verdict that returns no lease is not recorded. -/
theorem AcquireStep.swept {decision : Decision} {problem : Sentinel} (sound : next.Sound)
    (served : Served store next (retimed request (truncate request.request.now)).request state)
    (swept : state.leases = activeLeases (effectiveOf store request)
      (leasesOf (store.find (stateKey request.request)))) :
    AcquireStep store next request ⟨{}, decision, some (.sentinel problem)⟩ where
  sound := sound
  follows := fun book books start _ _ => by
    refine ⟨books, fun now past tracks => ?_⟩
    exact tracks.same (swept_sameLive served swept past start.effective.2)
      (served.seen tracks.seen ((truncate_le _).trans past))
  cost := by rintro lease decision ⟨⟩

/-- Which leases of the book a store has active at the effective time of a call. -/
theorem Tracks.active_iff (tracks : Tracks store book request.request.now) (books : book.Sound) (sound : store.Sound)
    {id : GoString} {value : LeaseState} :
    (activeLeases (effectiveOf store request) (leasesOf (store.find (stateKey request.request)))).lookup id =
      some value ↔
      ∃ lease ∈ book.live (stateKey request.request) (effectiveOf store request),
        lease.id = id ∧ (⟨lease.cost, lease.expiresAt⟩ : LeaseState) = value := by
  obtain ⟨lower, upper⟩ := tracks.effective
  rw [activeLeases_eq (sound.leases _) lower upper, Book.live_eq books.whole lower upper, lookup_activeLeases]
  constructor
  · rintro ⟨found, live⟩
    obtain ⟨lease, held, bucket, id, rfl⟩ := (tracks.stored _ _ _ live).mp found
    exact ⟨lease, List.mem_filter.mpr ⟨held, decide_eq_true ⟨bucket, live⟩⟩, id, rfl⟩
  · rintro ⟨lease, member, id, rfl⟩
    obtain ⟨held, test⟩ := List.mem_filter.mp member
    obtain ⟨bucket, live⟩ := of_decide_eq_true test
    exact ⟨(tracks.stored _ _ _ live).mpr ⟨lease, held, bucket, id, rfl⟩, live⟩

/-- A retry is recorded with the lease that is there. -/
theorem AcquireStep.retried {decision : Decision} {existing : LeaseState} (before : store.Sound) (sound : next.Sound)
    (served : Served store next (retimed request (truncate request.request.now)).request state)
    (swept : state.leases = activeLeases (effectiveOf store request) (leasesOf (store.find (stateKey request.request))))
    (found : (activeLeases (effectiveOf store request) (leasesOf (store.find (stateKey request.request)))).lookup
      request.leaseID = some existing) (same : existing.cost = request.request.cost) (positive :
        0 < request.request.cost) :
    AcquireStep store next request ⟨makeLease request existing.expiresAt, decision, none⟩ where
  sound := sound
  follows := fun book books start waits built => by
    obtain ⟨lease, live, id, value⟩ := (start.active_iff books before).mp found
    have stays : (∃ other ∈ book.live (stateKey request.request) (effectiveOf store request),
      other.id = request.leaseID) :=
      ⟨lease, live, id⟩
    simp only [Book.record, if_pos stays]
    have there := (lookup_activeLeases.mp found).1
    have whole := (before.leases (stateKey request.request)).whole _ (LeaseTable.lookup_iff_mem.mp there)
    refine ⟨books.put whole book.granting, fun now past tracks => ?_⟩
    have unchanged := swept_sameLive served swept past start.effective.2
    have cost : existing = ⟨request.request.cost, existing.expiresAt⟩ := by rw [← same]
    refine tracks.put (retried_puts unchanged (there.trans (congrArg some cost)))
      (served.seen tracks.seen ((truncate_le _).trans past)) fun bucket => ?_
    exact (activeCost_le fun id value live => (unchanged bucket id value live).mp).trans (tracks.limit bucket)
  cost := by
    rintro lease decision ⟨⟩
    exact ⟨rfl, positive, (lookup_activeLeases.mp found).2⟩

/-- A grant is recorded with its policy, whose limit the live leases keep to. -/
theorem AcquireStep.granted {decision : Decision} {expiresAt : Time} (before : store.Sound) (sound : next.Sound)
    (served : Served store next (retimed request (truncate request.request.now)).request state)
    (new : (activeLeases (effectiveOf store request) (leasesOf (store.find (stateKey request.request)))).lookup
      request.leaseID = none)
    (written : state.leases = (activeLeases (effectiveOf store request)
      (leasesOf (store.find (stateKey request.request)))).insert request.leaseID ⟨request.request.cost, expiresAt⟩)
    (room : activeCost (effectiveOf store request) (leasesOf (store.find (stateKey request.request))) +
      request.request.cost ≤ request.request.policy.limit) (positive : 0 < request.request.cost)
    (live : (effectiveOf store request).nanos < expiresAt.nanos) :
    AcquireStep store next request ⟨makeLease request expiresAt, decision, none⟩ where
  sound := sound
  follows := fun book books start waits built => by
    have fresh : ¬ (∃ other ∈ book.live (stateKey request.request) (effectiveOf store request),
        other.id = request.leaseID) := by
      rintro ⟨other, member, id⟩
      cases new.symm.trans ((start.active_iff books before).mpr ⟨other, member, id, rfl⟩)
    simp only [Book.record, if_neg fresh]
    have here : leasesOf (next.find (stateKey request.request)) = state.leases := by
      rw [show next.find (stateKey request.request) = some state from served.updated.here]
      rfl
    have whole := (sound.leases (stateKey request.request)).whole ⟨request.leaseID, ⟨request.request.cost, expiresAt⟩⟩
      (by
      rw [here, written]
      exact (LeaseTable.mem_insert new).mpr (Or.inl rfl))
    refine ⟨books.put whole _, fun now past tracks => ?_⟩
    have puts := granted_puts served written past start.effective.2
    refine tracks.put puts (served.seen tracks.seen ((truncate_le _).trans past)) fun bucket => ?_
    by_cases same : bucket = stateKey request.request
    · subst same
      rw [Function.update_self, here, written]
      refine LeaseTable.total_keep_le.trans ?_
      rw [LeaseTable.total_insert new]
      exact (Nat.add_comm _ _).trans_le room
    · rw [Function.update_of_ne same]
      refine (activeCost_le fun id value live found => ?_).trans (tracks.limit bucket)
      rcases (puts bucket id value live).mp found with ⟨own, -⟩ | ⟨-, old⟩
      · exact absurd own same
      · exact old
  cost := by
    rintro lease decision ⟨⟩
    exact ⟨rfl, positive, live⟩

/-- Every acquisition of a sound store is such a step. -/
theorem acquire_step (sound : store.Sound) (waits : Waits) (built : request.request.policy.Built) :
    ∃ next result, store.acquireStrict waits request = pure (next, result) ∧ AcquireStep store next request result := by
  rcases store.acquireStrict_acquires sound waits built with
    ⟨-, problem, exact⟩ | ⟨term, next, answer, bounds, -, concurrent, acquires, exact⟩
  · exact ⟨_, _, exact, .refused sound⟩
  refine ⟨_, _, exact, ?_⟩
  have timed : (retimed request (truncate request.request.now)).Bounds term :=
    bounds.later rfl rfl (by simpa [retimed] using bounds.not_before)
  have after := acquires.sound timed concurrent (truncate_whole _) sound
  cases acquires with
  | overflow => exact .refused sound
  | corrupt => exact .refused sound
  | unavailable => exact .refused sound
  | @decided _ state _ range served verdict =>
    generalize written : state.leases = leases at verdict
    cases verdict with
    | foreign => exact .swept after served written
    | retried found same => exact .retried sound after served written found same bounds.cost_pos
    | short => exact .swept after served written
    | granted new room =>
      refine .granted sound after served new written room bounds.cost_pos ?_
      have positive := bounds.lease_pos
      change _ < ((effectiveOf store request).add request.request.policy.lease).nanos
      rw [bounds.lease_eq]
      simp only [Time.add, Duration.ofMicros]
      omega

/-- A retry of a live lease gets that lease, and leaves the active leases as they are. -/
theorem acquire_retries (sound : store.Sound) (books : book.Sound) (tracks : Tracks store book request.request.now)
    {waits : Waits} (built : request.request.policy.Built) (valid : request.validate = .ok ())
      (clear : Clear store waits)
    (live : lease ∈ book.live (stateKey request.request) (effectiveOf store request)) (id : lease.id = request.leaseID)
    (cost : lease.cost = request.request.cost) :
    ∃ next decision, store.acquireStrict waits request =
      pure (next, ⟨makeLease request lease.expiresAt, decision, none⟩) ∧
      activeLeases (effectiveOf store request) (leasesOf (next.find (stateKey request.request))) =
        activeLeases (effectiveOf store request) (leasesOf (store.find (stateKey request.request))) := by
  have active := (tracks.active_iff books sound).mpr ⟨lease, live, id, rfl⟩
  have there := (lookup_activeLeases.mp active).1
  obtain ⟨lower, upper⟩ := tracks.effective
  rcases store.acquireStrict_acquires sound waits built with
    ⟨stopped, -⟩ | ⟨term, next, answer, bounds, room, concurrent, acquires, exact⟩
  · exact absurd ⟨valid, clear⟩ stopped
  rw [exact]
  cases acquires with
  | overflow outside =>
    refine absurd (show InRange (effectiveOf store request) term from ⟨?_, ?_⟩) outside
    · have early := bounds.not_before
      simp only [truncate, Time.ofUnixMicro, Time.unixMicro] at lower early ⊢
      omega
    · simp only [Time.unixMicro] at room ⊢
      omega
  | @corrupt current found other =>
    change store.find (stateKey request.request) = some current at found
    rw [found] at there
    have some : current.leases.entries ≠ [] := by
      intro none
      have inside := LeaseTable.lookup_iff_mem.mp there
      change _ ∈ current.leases.entries at inside
      rw [none] at inside
      cases inside
    exact absurd (((sound _ _ found).concurrent some).trans concurrent.symm) other
  | unavailable missing =>
    change store.find (stateKey request.request) = none at missing
    rw [missing] at there
    simp [leasesOf] at there
  | @decided _ state _ range served verdict =>
    generalize written : state.leases = leases at verdict
    cases verdict with
    | foreign found other =>
      cases active.symm.trans found
      exact absurd cost other
    | retried found same =>
      cases active.symm.trans found
      refine ⟨_, _, rfl, ?_⟩
      rw [show next.find (stateKey request.request) = some state from served.updated.here]
      change activeLeases _ state.leases = _
      rw [written]
      exact LeaseTable.keep_keep fun _ test => test
    | short new => cases active.symm.trans new
    | granted new => cases active.symm.trans new

end

/-! ## Runs -/

/-- What holds of a call after those before it. -/
structure LeaseSafe (book : Book) (entry : CallEntry) : Prop where
  limit : ∀ waits request built lease decision, entry.input = .acquireStrict waits request built →
    entry.output = .acquired ⟨lease, decision, none⟩ →
    ∃ policy, (book.record entry).granting (stateKey request.request) = some policy ∧
      (((book.record entry).live (stateKey request.request) (effectiveOf entry.before request)).map Lease.cost).sum ≤
        policy.limit
  retry : ∀ waits request built, entry.input = .acquireStrict waits request built → request.validate = .ok () →
    Clear entry.before waits → ∀ lease ∈ book.live (stateKey request.request) (effectiveOf entry.before request),
    lease.id = request.leaseID → lease.cost = request.request.cost →
      (∃ decision, entry.output = .acquired ⟨makeLease request lease.expiresAt, decision, none⟩) ∧
        activeLeases (effectiveOf entry.before request) (leasesOf (entry.after.find (stateKey request.request))) =
          activeLeases (effectiveOf entry.before request) (leasesOf (entry.before.find (stateKey request.request)))

/-- Only an acquisition can be unsafe. -/
theorem LeaseSafe.other {entry : CallEntry} (other : ∀ waits request built,
    entry.input ≠ .acquireStrict waits request built) :
    LeaseSafe book entry where
  limit := fun waits request built _ _ same => absurd same (other waits request built)
  retry := fun waits request built same => absurd same (other waits request built)

/-- What holds after a stretch of a run. -/
structure LeaseRun (history : List CallEntry) (store : Store) : Prop where
  sound : store.Sound
  follows : Ordered (history.map Entry.input) →
    (bookOf history).Sound ∧ ∀ now, Current history now → Tracks store (bookOf history) now

theorem LeaseRun.start (made : newStore options = .ok store) : LeaseRun [] store := by
  have empty := newStore_find made
  constructor
  · intro key state found
    cases (empty key).symm.trans found
  · refine fun _ => ⟨⟨?_, .nil⟩, fun now _ => ⟨?_, ?_, ?_⟩⟩
    · rintro lease ⟨⟩
    · intro key state found
      cases (empty key).symm.trans found
    · intro bucket id value _
      rw [empty]
      simp [leasesOf, bookOf]
    · intro bucket
      rw [empty]
      exact Nat.zero_le _

/-- A call that is not recorded, and that every book survives, goes on with a run. -/
theorem LeaseRun.unrecorded {call : Call} {reply : Reply} (run : LeaseRun history store) (sound : next.Sound)
    (unrecorded : ∀ book : Book, book.record ⟨store, call, reply, next⟩ = book)
    (tracks : ∀ book now, Tracks store book now → (∀ time ∈ call.time, time.nanos ≤ now.nanos) → Tracks next book now) :
    LeaseRun (history ++ [⟨store, call, reply, next⟩]) next := by
  refine ⟨sound, fun ordered => ?_⟩
  rw [List.map_append] at ordered
  obtain ⟨books, before⟩ := run.follows (ordered_snoc ordered).1
  rw [bookOf_snoc, unrecorded]
  refine ⟨books, fun now current => ?_⟩
  obtain ⟨earlier, here⟩ := current_snoc.mp current
  exact tracks _ now (before now earlier) here

theorem LeaseRun.acquire (run : LeaseRun history store) (waits : Waits) {request : LeaseRequest}
    (built : request.request.policy.Built) :
    ∃ result, (step store (.acquireStrict waits request built)).Returns result ∧
      (Ordered (history.map Entry.input ++ [.acquireStrict waits request built]) →
        LeaseSafe (bookOf history) ⟨store, .acquireStrict waits request built, result.2, result.1⟩) ∧
      LeaseRun (history ++ [⟨store, .acquireStrict waits request built, result.2, result.1⟩]) result.1 := by
  obtain ⟨next, result, exact, does⟩ := acquire_step run.sound waits built
  have returns : step store (.acquireStrict waits request built) = pure (next, .acquired result) := by
    change store.acquireStrict waits request >>= _ = _
    rw [exact, pure_bind]
  have follows : Ordered (history.map Entry.input ++ [.acquireStrict waits request built]) →
      (bookOf history).Sound ∧ Tracks store (bookOf history) request.request.now ∧
        ∀ now, Current history now → Tracks store (bookOf history) now := by
    intro ordered
    obtain ⟨before, current⟩ := ordered_snoc ordered
    obtain ⟨books, tracks⟩ := run.follows before
    exact ⟨books, tracks _ (current _ rfl), tracks⟩
  refine ⟨_, returns_of_eq returns, fun ordered => ⟨?_, ?_⟩, does.sound, fun ordered => ?_⟩
  · rintro waits request built lease decision ⟨⟩ ⟨⟩
    obtain ⟨books, start, -⟩ := follows ordered
    obtain ⟨recorded, tracks⟩ := does.follows _ books start waits built
    obtain ⟨bucket, positive, live⟩ := does.cost lease decision rfl
    have after := tracks _ le_rfl start
    obtain ⟨lower, upper⟩ := start.effective
    have own : lease ∈ ((bookOf history).record ⟨store, .acquireStrict waits request built, .acquired
      ⟨lease, decision, none⟩, next⟩).live
        (stateKey request.request) (effectiveOf store request) :=
      List.mem_filter.mpr ⟨List.mem_cons_self, decide_eq_true ⟨bucket, live⟩⟩
    have least : lease.cost ≤ _ := List.single_le_sum (fun _ _ => Nat.zero_le _) _ (List.mem_map_of_mem own)
    rw [Book.live_eq recorded.whole lower upper] at least ⊢
    have most := (after.sum_le recorded (stateKey request.request)).trans (after.limit (stateKey request.request))
    cases granting : ((bookOf history).record
        ⟨store, .acquireStrict waits request built, .acquired ⟨lease, decision, none⟩, next⟩).granting
          (stateKey request.request) with
    | none =>
      rw [granting] at most
      exact absurd (positive.trans_le (least.trans most)) (Nat.lt_irrefl 0)
    | some policy =>
      rw [granting] at most
      exact ⟨policy, rfl, most⟩
  · rintro waits request built ⟨⟩ valid clear lease live id cost
    obtain ⟨books, start, -⟩ := follows ordered
    obtain ⟨after, decision, retried, same⟩ := acquire_retries run.sound books start built valid clear live id cost
    cases pure_injective (exact.symm.trans retried)
    exact ⟨⟨decision, rfl⟩, same⟩
  · rw [List.map_append] at ordered
    obtain ⟨books, start, tracks⟩ := follows ordered
    obtain ⟨recorded, after⟩ := does.follows _ books start waits built
    rw [bookOf_snoc]
    refine ⟨recorded, fun now current => ?_⟩
    obtain ⟨earlier, here⟩ := current_snoc.mp current
    exact after now (here _ rfl) (tracks now earlier)

theorem LeaseRun.release (run : LeaseRun history store) (waits : Waits) (lease : Lease) :
    ∃ result, (step store (.releaseStrict waits lease)).Returns result ∧
      LeaseRun (history ++ [⟨store, .releaseStrict waits lease, result.2, result.1⟩]) result.1 := by
  refine ⟨((store.releaseStrict waits lease).1, .released (store.releaseStrict waits lease).2), returns_pure _, ?_⟩
  have case := store.releaseStrict_case waits lease
  generalize store.releaseStrict waits lease = result at case ⊢
  cases case with
  | invalid => exact run.unrecorded run.sound (fun _ => rfl) fun _ _ tracks _ => tracks
  | stopped => exact run.unrecorded run.sound (fun _ => rfl) fun _ _ tracks _ => tracks
  | @held next problem clear releases =>
    cases problem with
    | some problem =>
      refine run.unrecorded (releases.sound run.sound) (fun _ => rfl) fun _ _ tracks _ => ?_
      cases releases with
      | missing => exact tracks
      | foreign => exact tracks
    | none =>
      refine ⟨releases.sound run.sound, fun ordered => ?_⟩
      rw [List.map_append] at ordered
      obtain ⟨books, tracks⟩ := run.follows (ordered_snoc ordered).1
      rw [bookOf_snoc]
      exact ⟨books.without _ _, fun now current => releases.tracks (tracks now (current_snoc.mp current).1)⟩

/-- The step lemma: what holds of a run after one more call. -/
theorem LeaseRun.step (run : LeaseRun history store) (call : Call) :
    ∃ result, (Memory.step store call).Returns result ∧
      (Ordered (history.map Entry.input ++ [call]) → LeaseSafe (bookOf history) ⟨store, call, result.2, result.1⟩) ∧
      LeaseRun (history ++ [⟨store, call, result.2, result.1⟩]) result.1 := by
  cases call with
  | admitStrict waits request built =>
    obtain ⟨⟨next, result⟩, returns, sound, tracks⟩ := admit_yields run.sound waits built
    refine ⟨_, returns.bind (returns_pure _), fun _ => .other (by rintro _ _ _ ⟨⟩), ?_⟩
    exact run.unrecorded sound (fun _ => rfl) fun book now before past => tracks book now before (past _ rfl)
  | acquireStrict waits request built => exact run.acquire waits built
  | releaseStrict waits lease =>
    obtain ⟨result, returns, next⟩ := run.release waits lease
    exact ⟨result, returns, fun _ => .other (by rintro _ _ _ ⟨⟩), next⟩
  | sweep now idleFor =>
    refine ⟨_, returns_pure _, fun _ => .other (by rintro _ _ _ ⟨⟩), ?_⟩
    exact run.unrecorded (run.sound.sweep now idleFor) (fun _ => rfl) fun _ _ tracks past => sweep_tracks tracks
      (past _ rfl)
  | close =>
    refine ⟨_, returns_pure _, fun _ => .other (by rintro _ _ _ ⟨⟩), ?_⟩
    exact run.unrecorded run.sound (fun _ => rfl) fun _ _ tracks _ => ⟨tracks.seen, tracks.stored, tracks.limit⟩

/-- The leases of a memory store are safe. In every run of calls whose times never decrease,
on any keys, under any policies and any pressure on the keys: at every acquisition that
succeeds, the leases of its bucket that were granted, are not released and are live cost no
more than the limit of the policy that granted last; every lease stays stored until it
expires or is released; and a retry gets the lease it got before, and takes nothing. -/
theorem memory_leases_safe (options : Options) (store : Store) (made : newStore options = .ok store) (calls : List Call)
    (ordered : Ordered calls) :
    ∃ entries, (Runs.trace step store calls).Returns entries ∧ entries.map Entry.input = calls ∧
      ∀ earlier entry later, entries = earlier ++ entry :: later →
        LeaseSafe (bookOf earlier) entry ∧
          ∀ now, Current (earlier ++ [entry]) now → ∀ lease ∈ (bookOf (earlier ++ [entry])).held,
            now.nanos < lease.expiresAt.nanos →
              (leasesOf (entry.after.find (bucketOf lease))).lookup lease.id = some ⟨lease.cost, lease.expiresAt⟩ := by
  obtain ⟨entries, run, inputs, held⟩ := Runs.trace_returns step LeaseRun
    (fun history entry => Ordered (history.map Entry.input ++ [entry.input]) → LeaseSafe (bookOf history) entry)
    calls (fun history store call run _ => run.step call) (.start made)
  refine ⟨entries, run, inputs, fun earlier entry later shape => ?_⟩
  have inOrder : Ordered (earlier.map Entry.input ++ [entry.input]) := by
    rw [← inputs, shape, List.map_append, List.map_cons, List.append_cons] at ordered
    unfold Ordered at ordered
    rw [List.filterMap_append] at ordered
    exact (List.pairwise_append.mp ordered).1
  obtain ⟨-, safe, next⟩ := held earlier entry later shape
  refine ⟨safe inOrder, fun now current lease member live => ?_⟩
  have tracks := (next.follows (by rw [List.map_append]; exact inOrder)).2 now current
  exact (tracks.stored _ _ _ live).mpr ⟨lease, member, rfl, rfl, rfl⟩

/-- A store of one key. -/
def oneKey : Store where
  count := 1
  positive := Nat.one_pos
  shards := fun _ => { maxKeys := 1, rejectOnCapacity := false }

/-- An acquisition of one slot under a policy of the concrete lease requests. -/
def acquireOne (policy : Policy) (built : newPolicy policy.toPolicySpec = .ok policy) (key id : UInt8) (micros : Int) :
    Call :=
  .acquireStrict {} ⟨⟨policy, ⟨[key], [117]⟩, 1, .ofUnixMicro micros⟩, [id]⟩ ⟨_, built⟩

/-- Two slots are taken; the policy is revised to one, and the first lease is asked for
again; another key finds no room; the store is swept, and the first lease released. -/
def pressedCalls : List Call :=
  [acquireOne (leasePolicy 97 2 3600000000 hour_fits) rfl 107 97 1000000,
    acquireOne (leasePolicy 97 2 3600000000 hour_fits) rfl 107 98 1000000,
    acquireOne (leasePolicy 98 1 60000000 minute_fits) rfl 107 97 2000000,
    acquireOne (leasePolicy 98 1 60000000 minute_fits) rfl 106 97 3000000,
    .sweep ⟨4000000000⟩ ⟨1⟩,
    .releaseStrict {} ⟨[97], ⟨[107], [117]⟩, [112], [97], 1, ⟨3601000000000⟩, .ofLiteral "memory"⟩]

theorem memory_leases_safe_pressed :
    newStore { maxKeys := 1, shards := 1 } = .ok oneKey ∧ Ordered pressedCalls ∧
      ∃ entries, (Runs.trace step oneKey pressedCalls).Returns entries ∧ entries.map Entry.input = pressedCalls ∧
        ∀ earlier entry later, entries = earlier ++ entry :: later → LeaseSafe (bookOf earlier) entry := by
  have made : newStore { maxKeys := 1, shards := 1 } = .ok oneKey := rfl
  have ordered : Ordered pressedCalls := by
    unfold Ordered
    decide
  obtain ⟨entries, run, inputs, safe⟩ := memory_leases_safe _ oneKey made pressedCalls ordered
  exact ⟨made, ordered, entries, run, inputs, fun earlier entry later shape => (safe earlier entry later shape).1⟩

end RateLimit.Memory
