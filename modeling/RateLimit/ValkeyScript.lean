import RateLimit.AtomicStore
import RateLimit.Decimal
import RateLimit.StrictService

/-! The strict Valkey store: `AdmitStrict` of `valkey/strict.go`, the arguments and the
reply it exchanges with the server, and the strict admit script of `valkey/scripts.go`.
A key of the server holds a hash, whose fields are texts that the script writes and reads
again. Lua's numbers are doubles; the script keeps to integers that these hold exactly, and
here they are integers. -/
namespace RateLimit.Valkey

open Machine
open Postgres (algorithmText)

/-! ## Keys of the server -/

/-- The fields of a hash: those of the scripts, and any other. -/
inductive Field where
  | schema | policyID | algorithm | revision | tokens | remainder | last | window | used | period | carried
  | slot (position : Fin 16)
  | lease (digest : GoString)
  | other (name : GoString)
  deriving DecidableEq, Repr

def Field.name : Field → GoString
  | .schema => .ofLiteral "schema"
  | .policyID => .ofLiteral "policy_id"
  | .algorithm => .ofLiteral "algorithm"
  | .revision => .ofLiteral "revision"
  | .tokens => .ofLiteral "tokens"
  | .remainder => .ofLiteral "remainder"
  | .last => .ofLiteral "last"
  | .window => .ofLiteral "window"
  | .used => .ofLiteral "used"
  | .period => .ofLiteral "period"
  | .carried => .ofLiteral "carried"
  | .slot position => .ofLiteral "b" ++ Decimal.ofNat position
  | .lease digest => .ofLiteral "l:" ++ digest
  | .other name => name

abbrev Hash := AList fun _ : Field => GoString

/-- A key that exists: its hash, and when `PEXPIRE` has it end, in microseconds of the
server's clock. -/
structure Cell where
  hash : Hash
  deadline : Option Int := none
  deriving DecidableEq

/-- `MEMORY USAGE`, in bytes. What the allocator of a server takes beyond the texts is its
own affair; a megabyte is enough for a hash of this many short ones. -/
structure Allocator where
  usage : Hash → Nat
  small : ∀ hash : Hash, hash.entries.length ≤ 1029 →
    (∀ entry ∈ hash.entries, entry.1.name.length ≤ 66 ∧ entry.2.length ≤ 128) → usage hash ≤ 1048576

/-! ## Numbers in Lua -/

def maxExact : Int := 9007199254740991

/-- The local function `integer`. -/
def integer (value : Int) : GoString := Decimal.ofInt value

/-- `tonumber` of a decimal integer; the scripts use the value of no other text. -/
def tonumber (text : GoString) : Option Int := Decimal.parse text

/-- The local function `canonical_unsigned`. -/
def canonicalUnsigned (text : GoString) : Bool :=
  decide (text.length ≤ 16) && (text == Decimal.ofNat 0 || Decimal.isNumeral text)

/-- The local function `canonical_signed`. -/
def canonicalSigned (text : GoString) : Bool :=
  canonicalUnsigned text ||
    (decide (text.length ≤ 17) && text.head? == some 45 && Decimal.isNumeral text.tail)

/-- The number of a field that has to be there and canonical. -/
def readUnsigned (raw : Option GoString) : Option Int := (raw.filter canonicalUnsigned).bind tonumber

def readSigned (raw : Option GoString) : Option Int := (raw.filter canonicalSigned).bind tonumber

/-- `math.floor((value - 1) / divisor) + 1`, the local function `ceiling`. -/
def ceiling (value divisor : Int) : Int := (value - 1) / divisor + 1

/-- A text cut at its first colon. -/
def cut (text : GoString) : Option (GoString × GoString) :=
  match text.dropWhile (· ≠ 58) with
  | [] => none
  | _ :: rest => some (text.takeWhile (· ≠ 58), rest)

/-! ## The strict admit script -/

/-- What the scripts answer, as texts. -/
abbrev Reply := List GoString

def overflowReply : Reply := [integer (-1), integer 0, integer 0, integer 0, integer 0, .ofLiteral "overflow"]

def corruptReply : Reply := [integer (-1), integer 0, integer 0, integer 0, integer 0, .ofLiteral "corrupt"]

/-- The arguments of the script as it reads them. -/
structure Admission where
  schema : GoString
  algorithm : GoString
  policyID : GoString
  revision : GoString
  capacity : Int
  burst : Int
  period : Int
  cost : Int
  now : Int
  ttl : Int

def Admission.limit (call : Admission) : Int := call.capacity + call.burst

/-- The head of the script. Under the server's clock the time is that of the server. -/
def readAdmission (server : Int) : List GoString → Option Admission
  | schema :: algorithm :: policyID :: revision :: capacity :: burst :: period :: cost :: now :: serverClock ::
      ttl :: _ => do
    let capacity ← tonumber capacity
    let burst ← tonumber burst
    let period ← tonumber period
    let cost ← tonumber cost
    let now ← tonumber now
    let ttl ← tonumber ttl
    let now := if serverClock = integer 1 then server else now
    pure ⟨schema, algorithm, policyID, revision, capacity, burst, period, cost, now, ttl⟩
  | _ => none

/-- `math.floor(now / period) * period`. -/
def Admission.fixedWindow (call : Admission) : Int := call.now / call.period * call.period

/-- The window of a fixed-window call is outside the exact range. -/
def Admission.windowOverflows (call : Admission) : Prop :=
  call.algorithm = algorithmText .fixedWindow ∧ (call.fixedWindow < -maxExact ∨ call.fixedWindow > maxExact)

instance (call : Admission) : Decidable call.windowOverflows := inferInstanceAs (Decidable (_ ∧ _))

/-- The tests of the arguments. -/
def Admission.outOfRange (call : Admission) : Prop :=
  call.period ≤ 0 ∨ call.capacity ≤ 0 ∨ call.cost ≤ 0 ∨ call.limit > maxExact ∨
    call.now < -maxExact ∨ call.now > maxExact ∨ call.period > maxExact ∨ call.now > maxExact - call.period ∨
    call.windowOverflows

instance (call : Admission) : Decidable call.outOfRange := inferInstanceAs (Decidable (_ ∨ _))

/-- The hash that the script makes for a key that does not exist. -/
def freshHash (call : Admission) : Hash :=
  [(Field.schema, call.schema), (.policyID, call.policyID), (.algorithm, call.algorithm), (.revision, call.revision),
    (.tokens, integer call.limit), (.remainder, integer 0), (.last, integer call.now), (.window, integer 0),
    (.used, integer 0), (.period, integer call.period), (.carried, integer 0)].foldl
    (fun hash entry => hash.insert entry.1 entry.2) ∅

/-- The key the script works on: one that exists has to be of the policy. -/
def enter (memory : Allocator) (call : Admission) : Option Cell → Except Reply Cell
  | some cell =>
    if memory.usage cell.hash > 1048576 then .error corruptReply
    else if cell.hash.lookup .schema ≠ some call.schema ∨ cell.hash.lookup .policyID ≠ some call.policyID ∨
        cell.hash.lookup .algorithm ≠ some call.algorithm then .error corruptReply
    else .ok cell
  | none => .ok { hash := freshHash call }

/-- `allowed_fields`. -/
def allowedField (algorithm : GoString) : Field → Bool
  | .schema | .policyID | .algorithm | .revision | .tokens | .remainder | .last | .window | .used | .period
  | .carried => true
  | .slot _ => algorithm == algorithmText .slidingWindow
  | .lease _ | .other _ => false

/-- The loop over the fields, with the bytes counted so far. -/
def checkFields (algorithm : GoString) : List (Σ _ : Field, GoString) → Nat → Bool
  | [], _ => true
  | ⟨field, value⟩ :: rest, bytes =>
    let bytes := bytes + field.name.length + value.length
    decide (field.name.length ≤ 66) && decide (value.length ≤ 128) && decide (bytes ≤ 131072) &&
      allowedField algorithm field && checkFields algorithm rest bytes

/-- The tests of the hash's shape. -/
def wellShaped (call : Admission) (hash : Hash) : Bool :=
  decide (hash.entries.length ≤ if call.algorithm = algorithmText .slidingWindow then 27 else 11) &&
    checkFields call.algorithm hash.entries 0

/-- The tests of `period` and `carried`, which may both be missing. -/
def metadataOk (call : Admission) (hash : Hash) : Bool :=
  let windowed := call.algorithm == algorithmText .fixedWindow || call.algorithm == algorithmText .slidingWindow
  (!windowed || (hash.lookup .period).all fun raw => readUnsigned (some raw) == some call.period) &&
    (hash.lookup .carried).all fun raw => raw == integer 0 || raw == integer 1

/-- What an algorithm of the script leaves: the hash, and its local variables. -/
structure Spent where
  hash : Hash
  allowed : Bool
  remaining : Int
  reset : Int
  retry : Int := 0
  carried : Bool

/-- The refill of the token bucket. -/
def refill (call : Admission) (tokens remainder elapsed : Int) : Int × Int :=
  if elapsed > 0 ∧ tokens < call.limit then
    if elapsed > (maxExact - remainder) / call.capacity then (call.limit, 0)
    else
      let numerator := elapsed * call.capacity + remainder
      let tokens := min call.limit (tokens + numerator / call.period)
      (tokens, if tokens = call.limit then 0 else numerator % call.period)
  else (tokens, remainder)

/-- The cost of a call taken from a refilled balance. -/
def takeTokens (call : Admission) (hash : Hash) (carried : Bool) (tokens remainder : Int) : Spent :=
  let left := if tokens ≥ call.cost then tokens - call.cost else tokens
  { hash := ((hash.insert .tokens (integer left)).insert .remainder (integer remainder)).insert .last (integer call.now)
    allowed := decide (tokens ≥ call.cost)
    remaining := left
    reset := call.now + max 0 (ceiling ((call.limit - left) * call.period - remainder) call.capacity)
    retry := if tokens ≥ call.cost then 0 else ceiling ((call.cost - tokens) * call.period - remainder) call.capacity
    carried := carried }

/-- The branch of `token_bucket`, at the effective time. -/
def spendToken (call : Admission) (hash : Hash) (carried : Bool) : Except Reply Spent :=
  let kept := hash.lookup .revision = some call.revision
  match readUnsigned (hash.lookup .tokens), readUnsigned (hash.lookup .remainder), readSigned (hash.lookup .last) with
  | some tokens, some remainder, some last =>
    if tokens < 0 ∨ tokens > maxExact ∨ remainder < 0 ∨ remainder > maxExact ∨ (kept ∧ remainder ≥ call.period) ∨
        last < -maxExact ∨ last > maxExact ∨ (kept ∧ tokens > call.limit) then .error corruptReply
    else
      -- A new revision starts with the old tokens, up to its own limit.
      let level := if kept then (tokens, remainder) else (min tokens call.limit, 0)
      let last := if kept then last else call.now
      let level := refill call level.1 level.2 (max 0 (call.now - last))
      .ok (takeTokens call hash carried level.1 level.2)
  | _, _, _ => .error corruptReply

/-- The cost of a call added to the usage of its window. -/
def takeUsed (call : Admission) (hash : Hash) (carried : Bool) (used : Int) : Spent :=
  let room := max 0 (call.limit - used)
  let reset := call.fixedWindow + call.period
  let taken := if call.cost ≤ room then used + call.cost else used
  { hash := (hash.insert .window (integer call.fixedWindow)).insert .used (integer taken)
    allowed := decide (call.cost ≤ room)
    remaining := if call.cost ≤ room then call.limit - taken else room
    reset := reset
    retry := if call.cost ≤ room then 0 else max 0 (reset - call.now)
    carried := if taken ≤ call.limit then false else carried }

/-- The branch of `fixed_window`. -/
def spendFixed (call : Admission) (hash : Hash) (carried : Bool) : Except Reply Spent :=
  let kept := hash.lookup .revision = some call.revision
  match readSigned (hash.lookup .window), readUnsigned (hash.lookup .used) with
  | some stored, some used =>
    if stored < -maxExact ∨ stored > maxExact ∨ used < 0 ∨ used > maxExact ∨
        (kept ∧ used > call.limit ∧ carried = false) then .error corruptReply
    else
      let carried := if kept then carried else decide (used > call.limit)
      let same := stored = call.fixedWindow
      let used := if same then used else 0
      let carried := if same then carried else false
      .ok (takeUsed call hash carried used)
  | _, _ => .error corruptReply

/-- The accumulators of the loop over the slots. -/
structure Tally where
  used : Int := 0
  earliest : Option Int := none
  expired : List (Fin 16) := []
  seen : List Int := []

/-- The loop over the slots. -/
def tallySlots (hash : Hash) (oldest current : Int) : List (Fin 16) → Tally → Except Reply Tally
  | [], tally => .ok tally
  | slot :: rest, tally =>
    match hash.lookup (.slot slot) with
    | none => tallySlots hash oldest current rest tally
    | some encoded =>
      match cut encoded with
      | none => .error corruptReply
      | some (before, after) =>
        match readSigned (some before), readUnsigned (some after) with
        | some index, some value =>
          if index < -maxExact ∨ index > maxExact ∨ value < 0 ∨ value > maxExact then .error corruptReply
          else if value > 0 ∧ index > oldest ∧ (index > current ∨ index % 16 ≠ slot ∨ index ∈ tally.seen) then
            .error corruptReply
          else
            let seen := if value > 0 ∧ index > oldest then index :: tally.seen else tally.seen
            if index ≤ oldest then
              tallySlots hash oldest current rest { tally with expired := tally.expired ++ [slot], seen := seen }
            else if value > maxExact - tally.used then .error corruptReply
            else
              tallySlots hash oldest current rest
                { tally with
                  used := tally.used + value
                  earliest :=
                    if value > 0 ∧ tally.earliest.all (fun earliest => index < earliest) = true then some index
                    else tally.earliest
                  seen := seen }
        | _, _ => .error corruptReply

/-- What the current slot holds for the current index. The loop has checked the text, so
the number is there. -/
def slotValue (hash : Hash) (slot : Fin 16) (current : Int) : Int :=
  match hash.lookup (.slot slot) with
  | none => 0
  | some encoded =>
    if tonumber (encoded.takeWhile (· ≠ 58)) = some current then
      (tonumber (encoded.reverse.takeWhile (· ≠ 58)).reverse).getD 0
    else 0

/-- The slot of an index. -/
def slotOf (index : Int) : Fin 16 := Ring.slot 16 index

/-- The cost of a call added to its segment, once what expired is deleted. -/
def takeSegment (call : Admission) (hash : Hash) (carried : Bool) (current used reset : Int) : Spent :=
  let carried := if used ≤ call.limit then false else carried
  let room := max 0 (call.limit - used)
  if call.cost ≤ room then
    let value := slotValue hash (slotOf current) current
    { hash := hash.insert (.slot (slotOf current)) (integer current ++ 58 :: integer (value + call.cost))
      allowed := true
      remaining := room - call.cost
      reset := reset
      carried := carried }
  else
    { hash := hash
      allowed := false
      remaining := room
      reset := reset
      retry := max 0 (reset - call.now)
      carried := carried }

/-- The reset of a sliding window, given its earliest index with usage. -/
def slidingReset (call : Admission) (width : Int) : Option Int → Int
  | some earliest => (earliest + 1) * width + call.period
  | none => call.now + call.period

/-- The branch of `sliding_window`. -/
def spendSliding (call : Admission) (hash : Hash) (carried : Bool) : Except Reply Spent :=
  let kept := hash.lookup .revision = some call.revision
  let width := (call.period + 15) / 16
  let current := call.now / width
  let oldest := (call.now - call.period) / width
  match tallySlots hash oldest current (List.finRange 16) {} with
  | .error reply => .error reply
  | .ok tally =>
    if kept ∧ tally.used > call.limit ∧ carried = false then .error corruptReply
    else
      let carried := if kept then carried else decide (tally.used > call.limit)
      let hash := tally.expired.foldl (fun hash slot => hash.erase (.slot slot)) hash
      .ok (takeSegment call hash carried current tally.used (slidingReset call width tally.earliest))

/-- The algorithms. The last branch is that of an unknown name. -/
def spend (call : Admission) (hash : Hash) (carried : Bool) : Except Reply Spent :=
  if call.algorithm = algorithmText .tokenBucket then spendToken call hash carried
  else if call.algorithm = algorithmText .fixedWindow then spendFixed call hash carried
  else if call.algorithm = algorithmText .slidingWindow then spendSliding call hash carried
  else .error corruptReply

/-- The end of the script. -/
def finish (call : Admission) (spent : Spent) : Hash × Reply :=
  ((((spent.hash.insert .last (integer call.now)).insert .revision call.revision).insert
      .period (integer call.period)).insert .carried (integer (if spent.carried then 1 else 0)),
    if spent.allowed then
      [integer 1, integer spent.remaining, integer call.limit, integer spent.reset, integer 0, .ofLiteral "allowed",
        integer call.now]
    else
      [integer 0, integer spent.remaining, integer call.limit, integer spent.reset, integer spent.retry,
        .ofLiteral "limited", integer call.now])

/-- The script from the shape of the hash on. -/
def decideAdmission (call : Admission) (hash : Hash) : Except Reply (Hash × Reply) :=
  if wellShaped call hash = false then .error corruptReply
  else if metadataOk call hash = false then .error corruptReply
  else
    match readSigned (hash.lookup .last) with
    | none => .error corruptReply
    | some observed =>
      if observed < -maxExact ∨ observed > maxExact then .error corruptReply
      else
        let call := { call with now := max call.now observed }
        if call.now > maxExact - call.period then .error overflowReply
        else if call.windowOverflows then .error overflowReply
        else (spend call hash (hash.lookup .carried == some (integer 1))).map (finish call)

/-- The strict admit script. A call that fails changes nothing, but for a new key that it
had to make. -/
def admitScript (memory : Allocator) (server : Int) (call : Admission) (key : Option Cell) : Option Cell × Reply :=
  if call.outOfRange then (key, overflowReply)
  else
    match enter memory call key with
    | .error reply => (key, reply)
    | .ok cell =>
      match decideAdmission call cell.hash with
      | .error reply => (some cell, reply)
      | .ok (hash, reply) => (some { hash := hash, deadline := some (server + call.ttl * 1000) }, reply)

/-! ## The store -/

inductive ClockPolicy where
  | clientClock | serverClock
  deriving DecidableEq, Repr

/-- `valkeyStateTTL`, the same as that of PostgreSQL. -/
def valkeyStateTTL (duration : Duration) : Machine Duration := Postgres.postgresStateTTL duration

/-- `Store.args`, with the lifetime that `AdmitStrict` puts in place of its own, and the
word that selects the strict script. -/
def args (clock : ClockPolicy) (request : Request) (ttl : Duration) : List GoString :=
  [integer 1, algorithmText request.policy.algorithm, request.policy.id, request.policy.revision,
    Decimal.ofNat request.policy.capacity, Decimal.ofNat request.policy.burst,
    integer request.policy.period.microseconds, Decimal.ofNat request.cost, integer request.now.unixMicro,
    integer (if clock = .serverClock then 1 else 0), integer ttl.milliseconds, .ofLiteral "strict"]

/-- `strconv.ParseBool`. -/
def parseBool (text : GoString) : Option Bool :=
  if text ∈ ["1", "t", "T", "TRUE", "true", "True"].map GoString.ofLiteral then some true
  else if text ∈ ["0", "f", "F", "FALSE", "false", "False"].map GoString.ofLiteral then some false
  else none

/-- `strconv.ParseUint` of a decimal number of 64 bits. -/
def parseUint (text : GoString) : Option Nat :=
  if text ≠ [] ∧ text.all Decimal.isDigit = true ∧ Decimal.value text < 18446744073709551616 then
    some (Decimal.value text)
  else none

/-- `strconv.ParseInt` of a decimal number of 64 bits. -/
def parseInt (text : GoString) : Option Int :=
  (Decimal.parse (if text.head? = some 43 then text.tail else text)).filter fun value =>
    (text.head? ≠ some 43 || text.tail.head? ≠ some 45) && -9223372036854775808 ≤ value && value ≤ maxInt64

def decodeDecision : Reply → Machine (Decision × Option GoError)
  | [allowed, remaining, limit, reset, retry, reason] =>
    let problem (detail : String) : Machine (Decision × Option GoError) := pure ({}, some (.wrapped ⟨.corrupt, detail⟩))
    if allowed = integer (-1) then
      pure ({}, some (.sentinel (if reason = .ofLiteral "overflow" then .overflow else .corrupt)))
    else
      match parseBool allowed with
      | none => problem "allowed"
      | some allowed =>
        match parseUint remaining with
        | none => problem "remaining"
        | some remaining =>
          match parseUint limit with
          | none => problem "limit"
          | some limit =>
            match parseInt reset with
            | none => problem "reset"
            | some reset =>
              match parseInt retry with
              | none => problem "retry-after"
              | some retry =>
                if retry < 0 then problem "retry-after"
                else if reason ≠ .ofLiteral "allowed" ∧ reason ≠ .ofLiteral "limited" then problem "reason"
                else do
                  let wait ← i64 (retry * Duration.microsecond)
                  pure (
                    { allowed := allowed, remaining := remaining, limit := limit, reset := .ofUnixMicro reset
                      retryAfter := ⟨wait⟩
                      reason := if reason = .ofLiteral "allowed" then .allowed else .limited },
                    if allowed then none else some (.sentinel .rejected))
  | _ => pure ({}, some (.wrapped ⟨.corrupt, "decision field count"⟩))

/-- `errors.Is(err, ratelimit.ErrRejected)`, of the errors that `decodeDecision` makes. -/
def isRejected (error : GoError) : Prop := error = .sentinel .rejected

instance (error : GoError) : Decidable (isRejected error) := inferInstanceAs (Decidable (_ = _))

/-- `strictValkeyCategory`, of the errors that `decodeDecision` makes. -/
def strictValkeyCategory : GoError → GoError
  | .sentinel category =>
    match category with
    | .rejected | .overflow | .corrupt | .leaseNotFound | .leaseNotOwned => .sentinel category
    | _ => .sentinel .corrupt
  | _ => .sentinel .corrupt

/-- What `AdmitStrict` returns. -/
structure Admitted where
  decision : Decision
  error : Option GoError
  deriving DecidableEq

/-- The answer to a reply that the store cannot read. -/
def unreadable : Admitted := ⟨{}, some (unknownOutcome .live).error⟩

def decodeStrictDecisionReply (reply : Reply) : Machine Admitted :=
  if reply.length = 6 ∧ reply.head? = some (integer (-1)) then do
    let (decision, error) ← decodeDecision reply
    pure ⟨decision, error.map strictValkeyCategory⟩
  else if reply.length ≠ 7 then pure unreadable
  else
    match (reply.drop 6).head?.bind parseInt with
    | none => pure unreadable
    | some effective => do
      let (decision, error) ← decodeDecision (reply.take 6)
      if (∃ problem ∈ error, ¬ isRejected problem) ∨
          (decision.reset ≠ Time.zero ∧ decision.reset.nanos < (Time.ofUnixMicro effective).nanos) then
        pure unreadable
      else pure ⟨decision, error.map strictValkeyCategory⟩

/-- `Store.AdmitStrict` of a request that passed its validation, on its key, when the server
is reached and answers. A script that cannot read its arguments fails. -/
def admitStrict (memory : Allocator) (clock : ClockPolicy) (server : Int) (key : Option Cell) (request : Request) :
    Machine (Option Cell × Admitted) := do
  let ttl ← valkeyStateTTL request.policy.period
  match readAdmission server (args clock request ttl) with
  | none => pure (key, unreadable)
  | some call =>
    let (key, reply) := admitScript memory server call key
    let result ← decodeStrictDecisionReply reply
    pure (key, result)

end RateLimit.Valkey
