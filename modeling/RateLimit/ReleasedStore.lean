import RateLimit.LegacyState
import RateLimit.RowExpiry

/-! The released PostgreSQL path: `Store.Admit`, `nativeExecutor.admit` and
`loadState`. It runs the released state machine, and the expiry it writes follows two
clocks: for a token bucket the time the row has recorded, for a window the time of
the request, however far that lies behind. -/
namespace RateLimit.Postgres

open Machine

/-- A part of a released transaction. Its errors are sorted by the caller. -/
abbrev ReleasedCall := ExceptT CallError (Program database)

/-- The frame of a released operation. The deferred rollback runs after a commit
too, and what it returns is ignored. -/
def releasedTransaction (body : ReleasedCall α) : Program database (Except CallError α) :=
  .start fun
  | .error context => pure (.error (.driver context))
  | .ok () => do
    let result ← body.run
    .rollback fun _ => pure result

/-- `beginLocked` after the transaction has begun. -/
def beginLocked (key : Digest) : ReleasedCall Int := do
  attempt .driver (.configure .done)
  attempt .driver (.acquire (Lock.bucket (advisoryKey key)) .done)

def loadState (key : Digest) (now : Time) : ReleasedCall (Option PersistedState) := do
  match ← attempt .driver (.read (D := database) (Cell.bucket key) .done) with
  | none => pure none
  | some row =>
    if row.expiresAt.nanos > now.nanos then
      match decodeStateLegacy row.state with
      | .ok state => pure (some state)
      | .error cause => throw (.persisted cause)
    else do
      attempt .driver (.write (D := database) (Cell.bucket key) none .done)
      pure none

/-- The errors of the state machine; the source would panic on a missing state. -/
def releasedResult (mutation : Mutation) : ReleasedCall (PersistedState × Answer) :=
  match mutation.error, mutation.next with
  | some .rejected, some next | none, some next => pure (next, ⟨mutation.decision, mutation.error⟩)
  | some .rejected, none | none, none => ExceptT.lift .panic
  | some error, _ => throw (.direct error)

/-- The expiry `nativeExecutor.admit` writes. Doubling a period of more than 146 years
wraps around, and what remains is the least life of a second. -/
def releasedExpiry (request : Request) (next : PersistedState) : Machine Time :=
  if request.policy.algorithm = .tokenBucket then do
    let ttl ← postgresAdmissionTTL request.policy
    pure (expiryFrom next.observedMicros ttl)
  else
    let doubled := (request.policy.period.nanos * 2).bmod 18446744073709551616
    pure (timestamptz (request.now.add ⟨max doubled Duration.second⟩))

/-- `nativeExecutor.admit`. -/
def nativeAdmit (clock : ClockPolicy) (key : Digest) (request : Request) :
    Program database (Except CallError Answer) :=
  releasedTransaction do
    let serverNow ← beginLocked key
    let request := requestAt clock request serverNow
    let current ← loadState key request.now
    let mutation ← compute (mutateStateLegacy current request)
    let (next, answer) ← releasedResult mutation
    let expires ← compute (releasedExpiry request next)
    attempt .driver (.write (D := database) (Cell.bucket key) (some ⟨encodeState next, expires⟩) .done)
    attempt .driver (.commit .done)
    pure answer

/-- The sentinel `Store.Admit` reports an error as. -/
def admitSentinel : CallError → Sentinel
  | .persisted ⟨.corrupt, _⟩ | .direct .corrupt => .corrupt
  | .persisted ⟨.overflow, _⟩ | .direct .overflow => .overflow
  | .driver .expired => .deadline
  | _ => .unavailable

/-- `Store.Admit`, with the hash it identifies rows by. -/
def Store.admitReleased (sha256 : GoString → Digest) (clock : ClockPolicy) (request : Request) :
    Program database (Except StoreError Answer) :=
  match request.validate with
  | .error problem => pure (.error (.wrapped problem))
  | .ok () =>
    if request.policy.algorithm = .concurrency then pure (.error (.sentinel .unsupported))
    else do
      let result ← nativeAdmit clock (sha256 (bucketName request.policy.id request.key))
        (wholeMicros request)
      pure (result.mapError fun problem => .sentinel (admitSentinel problem))

/-! ## What it does in an undisturbed database -/

/-- What `loadState` makes of a row. -/
def loadReleased (row : Option Row) (now : Time) : Except CallError (Option PersistedState) :=
  match row with
  | none => .ok none
  | some row =>
    if row.expiresAt.nanos > now.nanos then
      match decodeStateLegacy row.state with
      | .ok state => .ok (some state)
      | .error cause => .error (.persisted cause)
    else .ok none

theorem loadState_alone (clock : Int) (key : Digest) (now : Time) (session : Program.Session database) :
    ∃ session', (loadState key now).run.alone clock session =
        pure (loadReleased (session.working (.bucket key)) now, session') ∧
      ∀ value, Function.update session'.working (.bucket key) value =
        Function.update session.working (.bucket key) value := by
  have read : (attempt CallError.driver (.read (D := database) (Cell.bucket key) .done)).run.alone clock session =
      pure (.ok (session.working (.bucket key)), session) := rfl
  unfold loadState loadReleased
  rw [call_ok read]
  cases session.working (.bucket key) with
  | none => exact ⟨session, rfl, fun _ => rfl⟩
  | some row =>
    dsimp only
    split
    · cases decodeStateLegacy row.state with
      | ok state => exact ⟨session, rfl, fun _ => rfl⟩
      | error cause => exact ⟨session, rfl, fun _ => rfl⟩
    · exact ⟨⟨session.stored, Function.update session.working (.bucket key) none⟩, rfl,
        fun value => Function.update_idem _ _ _⟩

theorem releasedResult_alone (now : Int) (session : Program.Session database)
    (known : applied.error = none ∨ applied.error = some .rejected) :
    (releasedResult (.finished current applied)).run.alone now session =
      pure (.ok (applied.state, ⟨applied.decision, applied.error⟩), session) := by
  unfold releasedResult Mutation.finished
  rcases known with known | known <;> rw [known] <;> rfl

theorem releasedTransaction_commits {body : ReleasedCall α} {content : database.Content}
    (run : body.run.alone now ⟨content, content⟩ = pure (.ok value, ⟨stored, stored⟩)) :
    (releasedTransaction body).serve now content = pure (stored, .ok value) := by
  have inside : Program.alone now (releasedTransaction body) ⟨content, content⟩ =
      pure (.ok value, ⟨stored, stored⟩) := by
    refine (Program.alone_bind now body.run _ ⟨content, content⟩).trans ?_
    rw [run, pure_bind]
    rfl
  unfold Program.serve
  rw [inside, pure_bind]

/-- An admission that the released machine answers is written with its expiry. -/
theorem admit_answers {content : database.Content} {request : Request}
    (load : loadReleased (content (.bucket key)) (requestAt clock request serverNow).now = .ok current)
    (step : mutateStateLegacy current (requestAt clock request serverNow) = pure (.finished current applied))
    (known : applied.error = none ∨ applied.error = some .rejected)
    (lives : releasedExpiry (requestAt clock request serverNow) applied.state = pure expires) :
    (nativeAdmit clock key request).serve serverNow content =
      pure (Function.update content (.bucket key) (some ⟨encodeState applied.state, expires⟩),
        .ok ⟨applied.decision, applied.error⟩) := by
  obtain ⟨session, loaded, cleared⟩ := loadState_alone serverNow key
    (requestAt clock request serverNow).now ⟨content, content⟩
  rw [load] at loaded
  have begins : (beginLocked key).run.alone serverNow ⟨content, content⟩ =
      pure (.ok serverNow, ⟨content, content⟩) := rfl
  have writes (session : Program.Session database) (value : Option Row) :
      (attempt CallError.driver (.write (D := database) (Cell.bucket key) value .done)).run.alone serverNow
        session = pure (.ok (), ⟨session.stored, Function.update session.working (.bucket key) value⟩) := rfl
  have commits (session : Program.Session database) :
      (attempt CallError.driver (.commit (D := database) .done)).run.alone serverNow session =
        pure (.ok (), ⟨session.working, session.working⟩) := rfl
  refine releasedTransaction_commits ?_
  rw [call_ok begins, call_ok loaded, step, call_ok compute_alone, call_ok (releasedResult_alone _ _ known)]
  dsimp only
  rw [lives, call_ok compute_alone, call_ok (writes _ _), call_ok (commits _), cleared]
  rfl

/-- A valid request is answered as the executor answers it on whole microseconds. -/
theorem store_admit_answers {content : database.Content} (sha256 : GoString → Digest) (clock : ClockPolicy)
    (request : ValidRequest) (rate : request.policy.algorithm.IsRate)
    (executor : (nativeAdmit clock (sha256 (bucketName request.policy.id request.key))
      (wholeMicros request.toRequest)).serve serverNow content = pure (next, .ok answer)) :
    (Store.admitReleased sha256 clock request.toRequest).serve serverNow content = pure (next, .ok answer) := by
  have limited : request.policy.algorithm ≠ .concurrency := by
    rintro same
    rw [same] at rate
    simp [Algorithm.IsRate] at rate
  unfold Store.admitReleased
  rw [request.accepted]
  dsimp only
  rw [if_neg limited]
  exact (Program.serve_map serverNow _ _ content).trans (by rw [executor, pure_bind]; rfl)

/-! ## What is written can be read -/

/-- A state that keeps no period of its own comes back as it is. -/
theorem decode_released (named : Identified state) (unrecorded : state.periodMicros = 0) :
    decodeStateLegacy (encodeState state) = .ok { state with carried := false } := by
  have encoded : encodeState state = state.wire := by
    unfold encodeState
    rw [if_neg (fun recorded => recorded.2 unrecorded)]
  unfold decodeStateLegacy
  rw [encoded, decodeStateMode_wire false named _ rfl rfl rfl (by simp [PersistedState.wire])]
  unfold decodeMetadata
  rw [wire_state, if_neg (by simp), ← unrecorded]

end RateLimit.Postgres
