import RateLimit.PostgresStore
import RateLimit.StateClosure

/-! What the strict store does in an undisturbed database, one equation a function:
a row is loaded or dropped, the state machine runs, and the row is written with its
new expiry. A refused call leaves the database as it was. -/
namespace RateLimit.Postgres

open Machine

section
variable {now : Int} {session : Program.Session database}

@[simp] theorem compute_alone {value : α} :
    (compute (pure value) : ExceptT ε (Program database) α).run.alone now session =
      pure (.ok value, session) := rfl

theorem readCell_alone {cell : Cell} :
    (readCell cell).run.alone now session = pure (.ok (session.working cell), session) := rfl

theorem writeCell_alone {cell : Cell} {value : database.Value cell} :
    (writeCell cell value).run.alone now session =
      pure (.ok (), { session with working := Function.update session.working cell value }) := rfl

theorem commitStrict_alone :
    commitStrict.run.alone now session = pure (.ok (), ⟨session.working, session.working⟩) := rfl

theorem beginLockedStrict_alone {key : Digest} :
    (beginLockedStrict key).run.alone now session = pure (.ok now, session) := rfl

/-- Step by step through a part of a transaction. -/
theorem call_ok {program : ExceptT ε (Program database) α} {value : α} {session' : Program.Session database}
    (step : program.run.alone now session = pure (.ok value, session')) (rest : α → ExceptT ε (Program database) β) :
    (program >>= rest).run.alone now session = (rest value).run.alone now session' := by
  rw [Program.alone_run_bind now program rest session, step, pure_bind]
  rfl

theorem call_fails {program : ExceptT ε (Program database) α} {problem : ε} {session' : Program.Session database}
    (step : program.run.alone now session = pure (.error problem, session'))
      (rest : α → ExceptT ε (Program database) β) :
    (program >>= rest).run.alone now session = pure (.error problem, session') := by
  rw [Program.alone_run_bind now program rest session, step, pure_bind]
  rfl

end

/-- A transaction that commits leaves what its body stored. -/
theorem strictTransaction_commits {body : Call α} {content : database.Content}
    (run : body.run.alone now ⟨content, content⟩ = pure (.ok value, ⟨stored, stored⟩)) :
    (strictTransaction body).serve now content = pure (stored, .ok value) := by
  have inside : Program.alone now (strictTransaction body) ⟨content, content⟩ =
      pure (.ok value, ⟨stored, stored⟩) := by
    refine (Program.alone_bind now body.run _ ⟨content, content⟩).trans ?_
    rw [run, pure_bind]
    rfl
  unfold Program.serve
  rw [inside, pure_bind]

/-- A transaction that fails before anything is stored is rolled back. -/
theorem strictTransaction_fails {body : Call α} {content : database.Content}
    (session : Program.Session database)
    (run : body.run.alone now ⟨content, content⟩ = pure (.error problem, session))
    (kept : session.stored = content) :
    (strictTransaction body).serve now content = pure (content, .error problem) := by
  have inside : Program.alone now (strictTransaction body) ⟨content, content⟩ =
      pure (.error problem, ⟨session.stored, session.stored⟩) := by
    refine (Program.alone_bind now body.run _ ⟨content, content⟩).trans ?_
    rw [run, pure_bind]
    rfl
  unfold Program.serve
  rw [inside, pure_bind, kept]

/-- A row outlives its duration, also where doubling it saturates. -/
theorem postgresStateTTL_exact (micros : Nat) (small : (Duration.ofMicros micros).nanos ≤ maxInt64) :
    ∃ ttl, postgresStateTTL (.ofMicros micros) = pure ttl ∧ (micros : Int) ≤ ttl.nanos / 1000 := by
  simp only [Duration.ofMicros, maxInt64] at small
  unfold postgresStateTTL
  by_cases long : (Duration.ofMicros micros).nanos > maxInt64 / 2
  · rw [if_pos long]
    refine ⟨_, rfl, ?_⟩
    simp only [maxInt64]
    omega
  · rw [if_neg long]
    simp only [Duration.ofMicros, maxInt64, Int.reduceDiv] at long ⊢
    rw [i64_exact (by omega) (by omega), pure_bind]
    refine ⟨_, rfl, ?_⟩
    dsimp only
    omega

theorem expiryFrom_eq (observedMicros : Int) (ttl : Duration) :
    expiryFrom observedMicros ttl = .ofUnixMicro (observedMicros + ttl.nanos / 1000) := by
  simp only [expiryFrom, timestamptz, Time.add, Time.ofUnixMicro, Time.unixMicro, Time.mk.injEq]
  omega

/-- What `loadStateStrict` makes of a row. -/
def loadRow (row : Option Row) (now : Time) : Except StoreError (Option PersistedState) :=
  match row with
  | none => .ok none
  | some row =>
    if row.state.textLength > maxEncodedStateBytes then .error (.sentinel .corrupt)
    else if row.expiresAt.nanos > now.nanos then
      match decodeState row.state with
      | .ok state => .ok (some state)
      | .error _ => .error (.sentinel .corrupt)
    else .ok none

/-- Loading leaves the stored rows alone, and in the transaction at most clears the
row it loads. -/
theorem loadStateStrict_alone (clock : Int) (key : Digest) (now : Time) (session : Program.Session database) :
    ∃ session', (loadStateStrict key now).run.alone clock session =
        pure (loadRow (session.working (.bucket key)) now, session') ∧
      session'.stored = session.stored ∧
      ∀ value, Function.update session'.working (.bucket key) value =
        Function.update session.working (.bucket key) value := by
  unfold loadStateStrict loadRow
  rw [call_ok readCell_alone]
  cases session.working (.bucket key) with
  | none => exact ⟨session, rfl, rfl, fun _ => rfl⟩
  | some row =>
    dsimp only
    split
    · exact ⟨session, rfl, rfl, fun _ => rfl⟩
    split
    · cases decodeState row.state with
      | ok state => exact ⟨session, rfl, rfl, fun _ => rfl⟩
      | error cause => exact ⟨session, rfl, rfl, fun _ => rfl⟩
    · rw [call_ok writeCell_alone]
      exact ⟨_, rfl, rfl, fun value => Function.update_idem _ _ _⟩

/-- A request at the time its store goes by. -/
def requestAt (clock : ClockPolicy) (request : Request) (serverNow : Int) : Request :=
  match clock with
  | .clientClock => request
  | .serverClock => { request with now := .ofUnixMicro serverNow }

@[simp] theorem requestAt_policy (clock : ClockPolicy) (request : Request) (serverNow : Int) :
    (requestAt clock request serverNow).policy = request.policy := by
  cases clock <;> rfl

@[simp] theorem requestAt_cost (clock : ClockPolicy) (request : Request) (serverNow : Int) :
    (requestAt clock request serverNow).cost = request.cost := by
  cases clock <;> rfl

/-- The server's clock is in the range a request may have, or it is not used. -/
def ClockInRange (clock : ClockPolicy) (duration : Duration) (serverNow : Int) : Prop :=
  clock = .serverClock → validateServerClockRange (.ofUnixMicro serverNow) duration = pure none

theorem authoritativeTime_alone (inRange : ClockInRange clock duration serverNow) {now : Int}
    {session : Program.Session database} :
    (authoritativeTime clock request duration serverNow).run.alone now session =
      pure (.ok (requestAt clock request serverNow), session) := by
  cases clock with
  | clientClock => rfl
  | serverClock =>
    unfold authoritativeTime
    dsimp only
    rw [inRange rfl, call_ok compute_alone]
    rfl

theorem authoritativeTime_outside (server : clock = .serverClock)
    (outside : validateServerClockRange (.ofUnixMicro serverNow) duration = pure (some problem)) {now : Int}
    {session : Program.Session database} :
    (authoritativeTime clock request duration serverNow).run.alone now session =
      pure (.error (.sentinel problem), session) := by
  subst server
  unfold authoritativeTime
  dsimp only
  rw [outside, call_ok compute_alone]
  rfl

/-- A finished mutation whose reset is not in its past passes the strict test. -/
theorem strictPostgresDecisionResult_finished (now : Int) (session : Program.Session database)
    (known : applied.error = none ∨ applied.error = some .rejected)
    (timely : (Time.ofUnixMicro applied.state.observedMicros).nanos ≤ applied.decision.reset.nanos) :
    (strictPostgresDecisionResult (.finished current applied)).run.alone now session =
      pure (.ok (applied.state, ⟨applied.decision, applied.error⟩), session) := by
  have passes : validateStrictDecisionTime applied.decision
      (.ofUnixMicro applied.state.observedMicros) = none := by
    unfold validateStrictDecisionTime
    rw [if_neg (fun early => absurd early.2 (not_lt.mpr timely))]
  unfold strictPostgresDecisionResult Mutation.finished
  rcases known with known | known <;>
  · rw [known]
    dsimp only
    rw [passes]
    rfl

theorem strictPostgresDecisionResult_failed (now : Int) (session : Program.Session database)
    (fatal : problem ≠ .rejected) :
    (strictPostgresDecisionResult (.failed current problem)).run.alone now session =
      pure (.error (.sentinel problem), session) := by
  cases problem <;> first | rfl | exact absurd rfl fatal

section
variable {content : database.Content} {key : Digest} {clock : ClockPolicy} {request : Request} {serverNow : Int}
  {current : Option PersistedState}

/-- An admission that the state machine answers is written with its new expiry. -/
theorem admitStrict_answers (inRange : ClockInRange clock request.policy.period serverNow)
    (load : loadRow (content (.bucket key)) (requestAt clock request serverNow).now = .ok current)
    (step : mutateState current (requestAt clock request serverNow) = pure (.finished current applied))
    (known : applied.error = none ∨ applied.error = some .rejected)
    (timely : (Time.ofUnixMicro applied.state.observedMicros).nanos ≤ applied.decision.reset.nanos)
    (lives : postgresAdmissionTTL request.policy = pure ttl) :
    (admitStrict clock key request).serve serverNow content =
      pure (Function.update content (.bucket key)
          (some ⟨encodeState applied.state, expiryFrom applied.state.observedMicros ttl⟩),
        .ok ⟨applied.decision, applied.error⟩) := by
  obtain ⟨session, loaded, -, cleared⟩ := loadStateStrict_alone serverNow key
    (requestAt clock request serverNow).now ⟨content, content⟩
  rw [load] at loaded
  refine strictTransaction_commits ?_
  rw [call_ok beginLockedStrict_alone, call_ok (authoritativeTime_alone inRange), call_ok loaded, step,
    call_ok compute_alone, call_ok (strictPostgresDecisionResult_finished _ _ known timely), requestAt_policy, lives,
    call_ok compute_alone, call_ok writeCell_alone, call_ok commitStrict_alone, cleared]
  rfl

/-- An admission that the state machine refuses leaves the database as it was. -/
theorem admitStrict_refuses (inRange : ClockInRange clock request.policy.period serverNow)
    (load : loadRow (content (.bucket key)) (requestAt clock request serverNow).now = .ok current)
    (step : mutateState current (requestAt clock request serverNow) = pure (.failed current problem))
    (fatal : problem ≠ .rejected) :
    (admitStrict clock key request).serve serverNow content = pure (content, .error (.sentinel problem)) := by
  obtain ⟨session, loaded, stored, -⟩ := loadStateStrict_alone serverNow key
    (requestAt clock request serverNow).now ⟨content, content⟩
  rw [load] at loaded
  refine strictTransaction_fails session ?_ stored
  rw [call_ok beginLockedStrict_alone, call_ok (authoritativeTime_alone inRange), call_ok loaded, step,
    call_ok compute_alone, call_fails (strictPostgresDecisionResult_failed _ _ fatal)]

/-- So does one at a server time outside the exact range. -/
theorem admitStrict_outside (server : clock = .serverClock)
    (outside : validateServerClockRange (.ofUnixMicro serverNow) request.policy.period = pure (some problem)) :
    (admitStrict clock key request).serve serverNow content = pure (content, .error (.sentinel problem)) := by
  refine strictTransaction_fails ⟨content, content⟩ ?_ rfl
  rw [call_ok beginLockedStrict_alone, call_fails (authoritativeTime_outside server outside)]

end

theorem wholeMicros_bounds {request : Request} (bounds : request.Bounds period) :
    (wholeMicros request).Bounds period := by
  obtain ⟨positive, same, product, capacity, below, limit, cost, most, early, room⟩ := bounds
  refine ⟨positive, same, product, capacity, below, limit, cost, most, ?_, ?_⟩
  · simpa [wholeMicros] using early
  · simpa [wholeMicros] using room

theorem wholeMicros_whole (request : Request) :
    (wholeMicros request).now = .ofUnixMicro (wholeMicros request).now.unixMicro := by
  simp [wholeMicros]

/-- A valid request reaches the executor on whole microseconds. -/
theorem store_admitStrict_valid (request : ValidRequest) (rate : request.policy.algorithm.IsRate)
    (sha256 : GoString → Digest) (clock : ClockPolicy) :
    Store.admitStrict sha256 clock .live request.toRequest =
      admitStrict clock (sha256 (bucketName request.policy.id request.key)) (wholeMicros request.toRequest) := by
  have limited : request.policy.algorithm ≠ .concurrency := by
    rintro same
    rw [same] at rate
    simp [Algorithm.IsRate] at rate
  simp only [Store.admitStrict, request.accepted, postgresStrictContext]
  exact if_neg limited

end RateLimit.Postgres
