import RateLimit.StateWire
import RateLimit.Transaction

/-! The strict PostgreSQL store: `strict.go` and the parts of `native.go` and
`store.go` it shares with the other paths. Every operation is one transaction under
the advisory lock of its bucket. The database behind it has one cell for each bucket
row and one for each atomic command, and timestamps of microsecond precision. -/
namespace RateLimit.Postgres

open Machine

/-! ## The database -/

/-- `sha256.Sum256`. -/
abbrev Digest := Fin 32 → UInt8

/-- `ctx.Err()`. -/
inductive ContextState where
  | live | canceled | expired
  deriving DecidableEq, Repr

/-- The two spaces of advisory locks: two 32-bit words for commands, one 64-bit
word for buckets. -/
inductive Lock where
  | command (high low : Int)
  | bucket (key : Int)
  deriving DecidableEq, Repr

inductive Cell where
  | bucket (key : Digest)
  | command (digest : Digest)
  deriving DecidableEq

/-- A row of `rate_limit_states`. -/
structure Row where
  state : WireState
  expiresAt : Time
  deriving DecidableEq

structure AtomicBatchDecision where
  commandID : GoString := []
  allowed : Bool := false
  decisions : List Decision := []
  deriving DecidableEq, Repr

/-- A row of `rate_limit_atomic_commands`. The receipt is known by what the JSON
decoder makes of its bytes: `none` where they are empty, too long, or not one document
of this type. -/
structure CommandRow where
  intentDigest : Digest
  receipt : Option AtomicBatchDecision
  deriving DecidableEq

/-- The tables by cell; its clock counts microseconds. -/
abbrev database : Database where
  Lock := Lock
  Cell := Cell
  Value
    | .bucket _ => Option Row
    | .command _ => Option CommandRow
  Clock := Int
  Failure := ContextState

instance : DecidableEq database.Cell := inferInstanceAs (DecidableEq Cell)

/-- A time as a `timestamptz` column keeps it. -/
def timestamptz (time : Time) : Time := .ofUnixMicro time.unixMicro

/-- A big-endian word. -/
def bigEndian (bytes : List UInt8) : Nat := bytes.foldl (fun word byte => word * 256 + byte.toNat) 0

/-- `advisoryKey`: the first eight bytes of a digest as an `int64`. -/
def advisoryKey (key : Digest) : Int := (bigEndian ((List.ofFn key).take 8) : Int).bmod 18446744073709551616

/-! ## Errors -/

/-- The errors a strict operation returns. -/
inductive StoreError where
  | sentinel (error : Sentinel)
  | wrapped (error : WrappedError)
  | canceled
  | deadline
  | unknown (context : ContextState)
  deriving DecidableEq, Repr

/-- An error on the way: from the driver, with the state of the context then, from
the decoder, or one of the direct outcomes of this package. -/
inductive CallError where
  | driver (context : ContextState)
  | persisted (cause : WrappedError)
  | direct (error : Sentinel)
  deriving DecidableEq, Repr

/-- `postgresPrecommitCategory`. The sentinels that reach it are the ones it names. -/
def postgresPrecommitCategory : CallError → StoreError
  | .persisted _ => .sentinel .corrupt
  | .direct error => .sentinel error
  | .driver .live => .sentinel .unavailable
  | .driver .canceled => .canceled
  | .driver .expired => .deadline

def postgresStrictContext : ContextState → Option StoreError
  | .live => none
  | .canceled => some .canceled
  | .expired => some .deadline

/-! ## Transactions -/

/-- A part of a transaction, which may return early with an error. -/
abbrev Call := ExceptT StoreError (Program database)

def compute (machine : Machine α) : ExceptT ε (Program database) α := ExceptT.lift (Program.lift machine)

/-- A statement, with what its failure is reported as. -/
def attempt (fails : ContextState → ε) (program : Program database (Except ContextState α)) :
    ExceptT ε (Program database) α := ExceptT.mk do
  match ← program with
  | .ok value => pure (.ok value)
  | .error context => pure (.error (fails context))

/-- A statement before the commit. -/
def statement (program : Program database (Except ContextState α)) : Call α :=
  attempt (fun context => postgresPrecommitCategory (.driver context)) program

def readCell (cell : Cell) : Call (database.Value cell) := statement (.read cell .done)

def writeCell (cell : Cell) (value : database.Value cell) : Call Unit :=
  statement (.write cell value .done)

/-- The commit; if it is not acknowledged, its outcome is unknown. -/
def commitStrict : Call Unit := ExceptT.mk <| .commit fun
  | .ok () => pure (.ok ())
  | .error context => pure (.error (.unknown context))

/-- The frame of every strict operation. A transaction that could not begin may
still have begun; one that ends without a commit is rolled back, and if that fails
the outcome is unknown. -/
def strictTransaction (body : Call α) : Program database (Except StoreError α) :=
  .start fun
  | .error context => pure (.error (.unknown context))
  | .ok () => do
    match ← body.run with
    | .ok result => pure (.ok result)
    | .error problem => .rollback fun
      | .ok () => pure (.error problem)
      | .error context => pure (.error (.unknown context))

/-- `beginLockedStrict` after the transaction has begun. -/
def beginLockedStrict (key : Digest) : Call Int := do
  statement (.configure .done)
  statement (.acquire (Lock.bucket (advisoryKey key)) .done)

/-- The text limit of `selectStateStrictSQL`. -/
def maxEncodedStateBytes : Nat := 128 * 1024

def loadStateStrict (key : Digest) (now : Time) : Call (Option PersistedState) := do
  match ← readCell (.bucket key) with
  | none => pure none
  | some row =>
    if row.state.textLength > maxEncodedStateBytes then
      throw (postgresPrecommitCategory (.direct .corrupt))
    else if row.expiresAt.nanos > now.nanos then
      match decodeState row.state with
      | .ok state => pure (some state)
      | .error cause => throw (postgresPrecommitCategory (.persisted cause))
    else do
      writeCell (.bucket key) none
      pure none

/-! ## Expiry -/

def postgresStateTTL (duration : Duration) : Machine Duration :=
  if duration.nanos > maxInt64 / 2 then pure ⟨maxInt64⟩
  else do
    let doubled ← i64 (duration.nanos * 2)
    pure ⟨max doubled Duration.second⟩

def postgresAdmissionTTL (policy : Policy) : Machine Duration := do
  let ttl ← postgresStateTTL policy.period
  if policy.algorithm = .tokenBucket then do
    let refill ← tokenDuration policy.limit 0 policy
    pure ⟨max ttl.nanos refill.nanos⟩
  else pure ttl

/-- `effective.Add(ttl)`, as the column keeps it. -/
def expiryFrom (observedMicros : Int) (ttl : Duration) : Time :=
  timestamptz ((Time.ofUnixMicro observedMicros).add ttl)

/-! ## Admission -/

inductive ClockPolicy where
  | clientClock | serverClock
  deriving DecidableEq, Repr

def validateStrictDecisionTime (decision : Decision) (effective : Time) : Option Sentinel :=
  if decision.reset ≠ Time.zero ∧ decision.reset.nanos < effective.nanos then some .corrupt else none

/-- `strictPostgresDecisionResult`. A call without a fatal error has a state; the
source would panic without one. -/
def strictPostgresDecisionResult (mutation : Mutation) : Call (PersistedState × Answer) :=
  match mutation.error, mutation.next with
  | some .rejected, some next | none, some next =>
    match validateStrictDecisionTime mutation.decision (.ofUnixMicro next.observedMicros) with
    | some problem => throw (.sentinel problem)
    | none => pure (next, ⟨mutation.decision, mutation.error⟩)
  | some .rejected, none | none, none => ExceptT.lift .panic
  | some error, _ => throw (postgresPrecommitCategory (.direct error))

/-- The time a strict operation goes by. -/
def authoritativeTime (clock : ClockPolicy) (request : Request) (duration : Duration) (serverNow : Int) :
    Call Request :=
  match clock with
  | .clientClock => pure request
  | .serverClock => do
    match ← compute (validateServerClockRange (.ofUnixMicro serverNow) duration) with
    | some problem => throw (.sentinel problem)
    | none => pure { request with now := .ofUnixMicro serverNow }

/-- `nativeExecutor.admitStrict`. -/
def admitStrict (clock : ClockPolicy) (key : Digest) (request : Request) :
    Program database (Except StoreError Answer) :=
  strictTransaction do
    let serverNow ← beginLockedStrict key
    let request ← authoritativeTime clock request request.policy.period serverNow
    let current ← loadStateStrict key request.now
    let mutation ← compute (mutateState current request)
    let (next, answer) ← strictPostgresDecisionResult mutation
    let ttl ← compute (postgresAdmissionTTL request.policy)
    writeCell (.bucket key) (some ⟨encodeState next, expiryFrom next.observedMicros ttl⟩)
    commitStrict
    pure answer

/-- What identifies a bucket: `policy.ID() + "\x00" + key.String()`. -/
def bucketName (policyID : GoString) (key : Key) : GoString := policyID ++ 0 :: key.value

/-- `time.UnixMicro(request.Now.UnixMicro())`. -/
def wholeMicros (request : Request) : Request :=
  { request with now := .ofUnixMicro request.now.unixMicro }

/-- `Store.AdmitStrict`, with the hash it identifies rows by. -/
def Store.admitStrict (sha256 : GoString → Digest) (clock : ClockPolicy) (context : ContextState)
    (request : Request) : Program database (Except StoreError Answer) :=
  match request.validate, postgresStrictContext context with
  | .error problem, _ => pure (.error (.wrapped problem))
  | .ok (), some problem => pure (.error problem)
  | .ok (), none =>
    if request.policy.algorithm = .concurrency then pure (.error (.sentinel .unsupported))
    else Postgres.admitStrict clock (sha256 (bucketName request.policy.id request.key))
      (wholeMicros request)

/-! ## Concrete databases -/

/-- An empty database. -/
def emptyContent : database.Content
  | .bucket _ => none
  | .command _ => none

/-- The SHA-256 digest of the bucket name of the concrete requests. -/
def bucketDigest : Digest := fun byte =>
  ([119, 110, 156, 100, 58, 20, 181, 233, 29, 3, 154, 119, 190, 182, 221, 81,
    46, 112, 63, 118, 101, 226, 150, 1, 202, 199, 72, 53, 255, 56, 178, 90] : List UInt8).getD byte 0

end RateLimit.Postgres
