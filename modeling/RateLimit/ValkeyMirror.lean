import RateLimit.StateClosure
import RateLimit.ValkeyScript

/-! The hash of a key beside the state of a row. Both stores run the same algorithms, one
on texts in a hash, the other on a document; `Mirrors` says that a hash holds the texts of
a state. A hash that does passes every test of the script, and the script then does to the
hash what `mutateState` does to the state. -/
namespace RateLimit.Valkey

open Machine
open Postgres (algorithmText PersistedState PersistedSegment ExactMicros usesWindowMetadata)

/-! ## Texts -/

@[simp] theorem tonumber_integer (value : Int) : tonumber (integer value) = some value := Decimal.parse_ofInt value

theorem integer_injective : Function.Injective integer := fun _ _ => Decimal.ofInt_injective

theorem canonicalUnsigned_ofNat {value : Nat} (small : value ≤ 9007199254740991) :
    canonicalUnsigned (Decimal.ofNat value) = true := by
  have length : (Decimal.ofNat value).length ≤ 15 + 1 := Decimal.length_ofNat_le (by omega)
  rw [canonicalUnsigned, decide_eq_true length, Bool.true_and]
  by_cases zero : value = 0
  · simp [zero]
  · simp [Decimal.isNumeral_ofNat zero]

theorem integer_natCast (value : Nat) : integer value = Decimal.ofNat value := Decimal.ofInt_natCast value

@[simp] theorem readUnsigned_integer {value : Nat} (small : value ≤ 9007199254740991) :
    readUnsigned (some (integer value)) = some (value : Int) := by
  simp [readUnsigned, Option.filter_some, integer_natCast, canonicalUnsigned_ofNat small, tonumber]

theorem canonicalSigned_integer {value : Int} (exact : ExactMicros value) : canonicalSigned (integer value) = true := by
  obtain ⟨low, high⟩ := exact
  rw [canonicalSigned]
  by_cases negative : value < 0
  · have text : integer value = 45 :: Decimal.ofNat value.natAbs := by simp [integer, Decimal.ofInt, negative]
    have length : (Decimal.ofNat value.natAbs).length ≤ 15 + 1 := Decimal.length_ofNat_le (by omega)
    simp [text, Nat.lt_succ_of_le length, Decimal.isNumeral_ofNat (show value.natAbs ≠ 0 by omega)]
  · obtain ⟨natural, rfl⟩ := Int.eq_ofNat_of_zero_le (not_lt.mp negative)
    simp [integer_natCast, canonicalUnsigned_ofNat (show natural ≤ 9007199254740991 by omega)]

@[simp] theorem readSigned_integer {value : Int} (exact : ExactMicros value) :
    readSigned (some (integer value)) = some value := by
  simp [readSigned, Option.filter_some, canonicalSigned_integer exact]

theorem length_integer {value : Int} (exact : ExactMicros value) : (integer value).length ≤ 17 := by
  obtain ⟨low, high⟩ := exact
  have length : (Decimal.ofNat value.natAbs).length ≤ 15 + 1 := Decimal.length_ofNat_le (by omega)
  unfold integer Decimal.ofInt
  split
  · exact Nat.succ_le_succ length
  · exact length.trans (by decide)

/-- A number has no byte but digits and the sign. -/
theorem notMem_integer {byte : UInt8} (plain : Decimal.isDigit byte = false) (sign : byte ≠ 45) (value : Int) :
    byte ∉ integer value := by
  have digits : byte ∉ Decimal.ofNat value.natAbs := Decimal.notMem_ofNat plain
  unfold integer Decimal.ofInt
  split <;> simp [digits, sign]

theorem colon_notMem (value : Int) : (58 : UInt8) ∉ integer value := notMem_integer rfl (by decide) value

theorem takeWhile_colon {text : GoString} (none : (58 : UInt8) ∉ text) (rest : GoString) :
    (text ++ 58 :: rest).takeWhile (· ≠ 58) = text ∧ (text ++ 58 :: rest).dropWhile (· ≠ 58) = 58 :: rest := by
  have all : ∀ byte ∈ text, decide (byte ≠ 58) = true := by
    intro byte member
    exact decide_eq_true fun same => none (same ▸ member)
  rw [List.takeWhile_append_of_pos all, List.dropWhile_append_of_pos all]
  simp

/-- The text of a slot, cut at its colon. -/
theorem cut_slot (index used : Int) : cut (integer index ++ 58 :: integer used) =
    some (integer index, integer used) := by
  obtain ⟨before, after⟩ := takeWhile_colon (colon_notMem index) (integer used)
  simp only [cut, before, after]

/-- Its last part, read from the end. -/
theorem takeWhile_reverse (index used : Int) :
    ((integer index ++ 58 :: integer used).reverse.takeWhile (· ≠ 58)).reverse = integer used := by
  have shape : (integer index ++ 58 :: integer used).reverse = (integer used).reverse ++ 58 ::
    (integer index).reverse := by
    simp
  rw [shape, (takeWhile_colon (by simpa using colon_notMem used) _).1, List.reverse_reverse]

/-- The names of the rate algorithms tell them apart. -/
theorem algorithmText_inj {first second : Algorithm} (left : first.IsRate) (right : second.IsRate) :
    algorithmText first = algorithmText second ↔ first = second := by
  constructor
  · intro same
    rcases left with rfl | rfl | rfl <;> rcases right with rfl | rfl | rfl <;> first
      | rfl
      | exact absurd same (by decide +kernel)
  · rintro rfl
    rfl

/-! ## A hash that mirrors a state -/

/-- The text of a slot; an empty one is not there. -/
def slotText (segment : PersistedSegment) : Option GoString :=
  if segment.used = 0 then none else some (integer segment.index ++ 58 :: integer segment.used)

/-- A hash holds the texts of what a state counts, and no field beyond those of its
algorithm. -/
structure Counts (state : PersistedState) (hash : Hash) : Prop where
  schema : hash.lookup .schema = some (integer 1)
  policyID : hash.lookup .policyID = some state.policyID
  algorithm : hash.lookup .algorithm = some (algorithmText state.algorithm)
  token : state.algorithm = .tokenBucket → hash.lookup .tokens = some (integer state.tokens) ∧
    hash.lookup .remainder = some (integer state.remainder) ∧ state.tokens ≤ 9007199254740991 ∧
    state.lastMicros = state.observedMicros
  fixed : state.algorithm = .fixedWindow → hash.lookup .window = some (integer state.window) ∧
    hash.lookup .used = some (integer state.used)
  sliding : state.algorithm = .slidingWindow → ∀ slot, hash.lookup (.slot slot) = slotText (state.segments slot)
  shape : ∀ field value, hash.lookup field = some value →
    allowedField (algorithmText state.algorithm) field = true ∧ value.length ≤ 128

/-- A hash holds the texts of a state. -/
structure Mirrors (state : PersistedState) (hash : Hash) : Prop extends Counts state hash where
  revision : hash.lookup .revision = some state.revision
  last : hash.lookup .last = some (integer state.observedMicros)
  carried : hash.lookup .carried = some (integer (if state.carried then 1 else 0))
  period : usesWindowMetadata state.algorithm = true → hash.lookup .period = some (integer state.periodMicros)

/-- The fields of an algorithm. -/
def fieldsOf (algorithm : GoString) : List Field :=
  [.schema, .policyID, .algorithm, .revision, .tokens, .remainder, .last, .window, .used, .period, .carried] ++
    if algorithm = algorithmText .slidingWindow then (List.finRange 16).map .slot else []

theorem mem_fieldsOf (allowed : allowedField algorithm field = true) : field ∈ fieldsOf algorithm := by
  cases field with
  | slot position =>
    have sliding : algorithm = algorithmText .slidingWindow := by simpa [allowedField] using allowed
    simp [fieldsOf, sliding]
  | lease digest => simp [allowedField] at allowed
  | other name => simp [allowedField] at allowed
  | _ => simp [fieldsOf]

theorem length_fieldsOf (algorithm : GoString) :
    (fieldsOf algorithm).length = if algorithm = algorithmText .slidingWindow then 27 else 11 := by
  unfold fieldsOf
  split <;> simp

theorem name_length (allowed : allowedField algorithm field = true) : field.name.length ≤ 9 := by
  cases field with
  | slot position =>
    have short : (Decimal.ofNat position).length ≤ 1 + 1 := Decimal.length_ofNat_le (by omega)
    have first : (GoString.ofLiteral "b").length = 1 := by decide +kernel
    simp only [Field.name, List.length_append, first]
    omega
  | lease digest => simp [allowedField] at allowed
  | other name => simp [allowedField] at allowed
  | _ => exact Nat.le_of_ble_eq_true (by decide +kernel)

theorem checkFields_allowed {entries : List (Σ _ : Field, GoString)}
    (each : ∀ entry ∈ entries, allowedField algorithm entry.1 = true ∧ entry.2.length ≤ 128)
    (fits : bytes + 137 * entries.length ≤ 131072) : checkFields algorithm entries bytes = true := by
  induction entries generalizing bytes with
  | nil => rfl
  | cons first rest ih =>
    obtain ⟨allowed, short⟩ := each first List.mem_cons_self
    have name := name_length allowed
    rw [List.length_cons] at fits
    simp only [checkFields, Bool.and_eq_true, decide_eq_true_eq]
    exact ⟨⟨⟨⟨by omega, short⟩, by omega⟩, allowed⟩,
      ih (fun entry member => each entry (List.mem_cons_of_mem _ member)) (by omega)⟩

section
variable {state : PersistedState} {hash : Hash} (mirrors : Mirrors state hash)
include mirrors

theorem Mirrors.entry {entry : Σ _ : Field, GoString} (member : entry ∈ hash.entries) :
    allowedField (algorithmText state.algorithm) entry.1 = true ∧ entry.2.length ≤ 128 :=
  mirrors.shape _ _ (LeaseTable.lookup_iff_mem.mpr member)

theorem Mirrors.length : hash.entries.length ≤ (fieldsOf (algorithmText state.algorithm)).length := by
  rw [← LeaseTable.length_keys]
  refine (List.subperm_of_subset hash.nodupKeys fun field member => ?_).length_le
  obtain ⟨entry, inside, rfl⟩ := List.mem_map.mp member
  exact mem_fieldsOf (mirrors.entry inside).1

theorem Mirrors.wellShaped {call : Admission} (same : call.algorithm = algorithmText state.algorithm) :
    Valkey.wellShaped call hash = true := by
  have length := mirrors.length
  rw [length_fieldsOf] at length
  have small : hash.entries.length ≤ 27 := by
    split at length <;> omega
  rw [Valkey.wellShaped, same, Bool.and_eq_true, decide_eq_true_eq]
  exact ⟨length, checkFields_allowed (fun entry => mirrors.entry) (by omega)⟩

theorem Mirrors.enters (memory : Allocator) {call : Admission} {deadline : Option Int}
    (schema : call.schema = integer 1)
    (policyID : call.policyID = state.policyID) (same : call.algorithm = algorithmText state.algorithm) :
    enter memory call (some ⟨hash, deadline⟩) = .ok ⟨hash, deadline⟩ := by
  have length := mirrors.length
  rw [length_fieldsOf] at length
  have usage : memory.usage hash ≤ 1048576 := by
    refine memory.small hash (by split at length <;> omega) fun entry member => ?_
    obtain ⟨allowed, short⟩ := mirrors.entry member
    exact ⟨(name_length allowed).trans (by decide), short⟩
  simp [enter, Nat.not_lt.mpr usage, mirrors.schema, mirrors.policyID, mirrors.algorithm, schema, policyID, same]

/-- The period of a window is recorded in microseconds that fit. -/
theorem Mirrors.metadata {call : Admission} {period : Nat} (same : call.algorithm = algorithmText state.algorithm)
    (rate : state.algorithm.IsRate) (recorded : usesWindowMetadata state.algorithm = true → state.periodMicros = period)
    (lasts : call.period = period) (small : period ≤ 9007199254740991) : metadataOk call hash = true := by
  have flag : (hash.lookup .carried).all (fun raw => raw == integer 0 || raw == integer 1) = true := by
    rw [mirrors.carried]
    cases state.carried <;> simp
  rw [metadataOk, flag, Bool.and_true, same]
  cases windowed : usesWindowMetadata state.algorithm with
  | true =>
    rw [mirrors.period windowed, recorded windowed, Option.all_some, readUnsigned_integer small, lasts]
    simp
  | false =>
    have token : state.algorithm = .tokenBucket := by
      rcases rate with token | fixed | sliding
      · exact token
      · simp [fixed, usesWindowMetadata] at windowed
      · simp [sliding, usesWindowMetadata] at windowed
    have fixed : algorithmText .tokenBucket ≠ algorithmText .fixedWindow := by decide +kernel
    have sliding : algorithmText .tokenBucket ≠ algorithmText .slidingWindow := by decide +kernel
    simp [token, fixed, sliding]

end

theorem shape_insert {hash : Hash} {Fits : Field → GoString → Prop}
    (shape : ∀ field value, hash.lookup field = some value →
    Fits field value) (fits : Fits field value) :
    ∀ field' value', (hash.insert field value).lookup field' = some value' → Fits field' value' := by
  intro field' value' found
  by_cases here : field' = field
  · subst here
    rw [AList.lookup_insert] at found
    cases found
    exact fits
  · rw [AList.lookup_insert_ne here] at found
    exact shape field' value' found

theorem shape_inserts {hash : Hash} {Fits : Field → GoString → Prop}
    (shape : ∀ field value, hash.lookup field = some value →
    Fits field value) {entries : List (Field × GoString)} (each : ∀ entry ∈ entries, Fits entry.1 entry.2) :
    ∀ field value, (entries.foldl (fun hash entry => hash.insert entry.1 entry.2) hash).lookup field = some value →
      Fits field value := by
  induction entries generalizing hash with
  | nil => exact shape
  | cons first rest ih =>
    obtain ⟨here, later⟩ := List.forall_mem_cons.mp each
    exact ih (shape_insert shape here) later

theorem shape_erase {hash : Hash} {Fits : Field → GoString → Prop}
    (shape : ∀ field value, hash.lookup field = some value →
    Fits field value) (field : Field) :
    ∀ field' value', (hash.erase field).lookup field' = some value' → Fits field' value' := by
  intro field' value' found
  by_cases here : field' = field
  · subst here
    rw [AList.lookup_erase] at found
    cases found
  · rw [AList.lookup_erase_ne here] at found
    exact shape field' value' found

/-! ## Calls -/

/-- The arguments of a request's call, read at a time. -/
def admissionOf (request : Request) (period : Nat) (ttl now : Int) : Admission where
  schema := integer 1
  algorithm := algorithmText request.policy.algorithm
  policyID := request.policy.id
  revision := request.policy.revision
  capacity := request.policy.capacity
  burst := request.policy.burst
  period := period
  cost := request.cost
  now := now
  ttl := ttl

/-- The call of a request at its own time. -/
abbrev callOf (request : Request) (period : Nat) (ttl : Int) : Admission :=
  admissionOf request period ttl request.now.unixMicro

@[simp] theorem limit_admissionOf (request : Request) (period : Nat) (ttl now : Int) :
    (admissionOf request period ttl now).limit = request.policy.limit := by
  simp [Admission.limit, admissionOf, Policy.limit]

@[simp] theorem now_admissionOf (request : Request) (period : Nat) (ttl now : Int) :
    (admissionOf request period ttl now).now = now := rfl

theorem readAdmission_args (clock : ClockPolicy) (server : Int) {request : Request} {period : Nat}
    (lasts : request.policy.period = .ofMicros period) (ttl : Duration) :
    readAdmission server (args clock request ttl) =
      some (admissionOf request period ttl.milliseconds
        (if clock = .serverClock then server else request.now.unixMicro)) := by
  have number (natural : Nat) : tonumber (Decimal.ofNat natural) = some (natural : Int) := Decimal.parse_ofNat natural
  have flag : (integer (if clock = .serverClock then 1 else 0) = integer 1) = (clock = .serverClock) := by
    cases clock <;> simp [integer_injective.eq_iff]
  simp [args, readAdmission, number, flag, lasts, admissionOf]

/-- No wait under the policy is too long for a duration in nanoseconds. -/
def WaitFits (policy : Policy) : Prop :=
  policy.algorithm = .slidingWindow →
    policy.period.microseconds + (policy.period.microseconds + 15) / 16 ≤ 9223372036854775

instance (policy : Policy) : Decidable (WaitFits policy) := inferInstanceAs (Decidable (_ → _))

/-- What the script answers beside what `mutateState` does. Where a wait is too long for a
duration the latter answers the longest one. -/
structure Answers (request : Request) (spent : Spent) (applied : Postgres.Applied) : Prop where
  counts : Counts applied.state spent.hash
  carried : spent.carried = applied.state.carried
  decision : applied.decision =
    { allowed := spent.allowed, remaining := spent.remaining.toNat, limit := request.policy.limit
      reset := .ofUnixMicro spent.reset, retryAfter := ⟨min maxInt64 (spent.retry * 1000)⟩
      reason := if spent.allowed then .allowed else .limited }
  error : applied.error = if spent.allowed then none else some .rejected
  remaining : 0 ≤ spent.remaining ∧ spent.remaining ≤ request.policy.limit
  reset : spent.reset ≤ 18014398509481982
  retry : 0 ≤ spent.retry ∧ spent.retry ≤ 18014398509481982
  fits : WaitFits request.policy → spent.retry ≤ 9223372036854775
  wait : spent.retry ≤ 9223372036854775 ∨ spent.retry = max 0 (spent.reset - request.now.unixMicro)
  idle : spent.allowed = true → spent.retry = 0

end RateLimit.Valkey
