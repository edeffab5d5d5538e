import RateLimit.PersistedState
import Mathlib.Data.Nat.Log
import Mathlib.Algebra.Order.BigOperators.Group.List
import Mathlib.Algebra.Group.Action.Defs

/-! The version-1 document of a stored state: `encodeState` and `decodeState`. The
document is the record of the JSON fields of `persistedState`; the two fields that
stay out of it, the recorded period and the mark for carried usage, travel in fields
the window algorithms do not use. The text PostgreSQL renders of a document is known
by its length, which is all the strict reader asks of it. -/
namespace RateLimit.Postgres

/-- The JSON fields of `persistedState`. -/
structure WireState where
  schema : Int
  policyID : GoString
  revision : GoString
  algorithm : Algorithm
  tokens : Nat
  remainder : Nat
  lastMicros : Int
  observedMicros : Int
  window : Int
  used : Nat
  segments : List PersistedSegment
  leases : AList (fun _ : GoString => PersistedLease)
  deriving DecidableEq

/-- The fields of a state under their JSON names. -/
def PersistedState.wire (state : PersistedState) : WireState where
  schema := state.schema
  policyID := state.policyID
  revision := state.revision
  algorithm := state.algorithm
  tokens := state.tokens
  remainder := state.remainder
  lastMicros := state.lastMicros
  observedMicros := state.observedMicros
  window := state.window
  used := state.used
  segments := List.ofFn state.segments
  leases := state.leases

/-- `encodeState`. The conversion of the period to `uint64` takes its residue. -/
def encodeState (state : PersistedState) : WireState :=
  if usesWindowMetadata state.algorithm = true ∧ state.periodMicros ≠ 0 then
    { state.wire with
      remainder := (state.periodMicros % 18446744073709551616).toNat
      lastMicros := if state.carried then 1 else 0 }
  else state.wire

/-- The fields of a document as a state. Decoding into an array of sixteen fills up
or cuts off. -/
def WireState.state (wire : WireState) : PersistedState where
  schema := wire.schema
  policyID := wire.policyID
  revision := wire.revision
  algorithm := wire.algorithm
  tokens := wire.tokens
  remainder := wire.remainder
  lastMicros := wire.lastMicros
  observedMicros := wire.observedMicros
  window := wire.window
  used := wire.used
  segments := fun slot => wire.segments.getD slot {}
  leases := wire.leases

/-- The end of `decodeStateMode`: window metadata is moved back to its own fields. -/
def decodeMetadata (state : PersistedState) (strict : Bool) : Except WrappedError PersistedState :=
  if strict = true ∧ usesWindowMetadata state.algorithm = true ∧ state.remainder ≠ 0 then
    if (state.remainder : Int) > maxExactMicros ∨ (state.lastMicros ≠ 0 ∧ state.lastMicros ≠ 1) then
      .error ⟨.corrupt, "invalid window metadata"⟩
    else .ok { state with periodMicros := state.remainder, carried := decide (state.lastMicros = 1) }
  else .ok state

/-- `decodeStateMode`, from the parsed document on. -/
def decodeStateMode (wire : WireState) (strict : Bool) : Except WrappedError PersistedState :=
  if strict = true ∧ wire.segments.length ≠ 16 then .error ⟨.corrupt, "invalid segment shape"⟩
  else if wire.schema ≠ stateSchema then .error ⟨.corrupt, "invalid state identity"⟩
  else if wire.policyID = [] then .error ⟨.corrupt, "invalid state identity"⟩
  else if wire.algorithm = .other [] then .error ⟨.corrupt, "invalid state identity"⟩
  else decodeMetadata wire.state strict

def decodeState (wire : WireState) : Except WrappedError PersistedState := decodeStateMode wire true

def decodeStateLegacy (wire : WireState) : Except WrappedError PersistedState := decodeStateMode wire false

/-! ## What a reader gets back -/

@[simp] theorem wire_state (state : PersistedState) :
    state.wire.state = { state with periodMicros := 0, carried := false } := by
  have slots : (fun slot : Fin 16 => (List.ofFn state.segments).getD slot {}) = state.segments := by
    funext slot
    rw [List.getD_eq_getElem?_getD, List.getElem?_ofFn, dif_pos slot.isLt]
    rfl
  simp only [PersistedState.wire, WireState.state, slots]

/-- A state every reader accepts by its identity. -/
structure Identified (state : PersistedState) : Prop where
  schema : state.schema = stateSchema
  policyID : state.policyID ≠ []
  algorithm : state.algorithm ≠ .other []

theorem decodeStateMode_wire (strict : Bool) (named : Identified state) (wire : WireState)
    (schema : wire.schema = state.schema) (policyID : wire.policyID = state.policyID)
    (algorithm : wire.algorithm = state.algorithm) (segments : wire.segments.length = 16) :
    decodeStateMode wire strict = decodeMetadata wire.state strict := by
  unfold decodeStateMode
  rw [if_neg (fun both => both.2 segments), if_neg (fun other => other (schema.trans named.schema)),
    if_neg (fun empty => named.policyID (policyID.symm.trans empty)),
    if_neg (fun empty => named.algorithm (algorithm.symm.trans empty))]

/-- A state without window metadata comes back as it is. -/
theorem decode_plain (strict : Bool) (named : Identified state)
    (plain : usesWindowMetadata state.algorithm = false) :
    decodeStateMode (encodeState state) strict = .ok { state with periodMicros := 0, carried := false } := by
  have encoded : encodeState state = state.wire := by
    unfold encodeState
    rw [if_neg (by simp [plain])]
  rw [encoded, decodeStateMode_wire strict named _ rfl rfl rfl (by simp [PersistedState.wire])]
  unfold decodeMetadata
  rw [wire_state, if_neg (by simp [plain])]

/-- A window state comes back with the metadata in both places. -/
theorem decode_window (named : Identified state) (windowed : usesWindowMetadata state.algorithm = true)
    (positive : 0 < state.periodMicros) (small : state.periodMicros ≤ maxExactMicros) :
    decodeState (encodeState state) = .ok { state with
      remainder := state.periodMicros.toNat, lastMicros := if state.carried then 1 else 0 } := by
  have residue : (state.periodMicros % 18446744073709551616).toNat = state.periodMicros.toNat := by
    unfold maxExactMicros at small
    omega
  have encoded : encodeState state = { state.wire with
      remainder := state.periodMicros.toNat, lastMicros := if state.carried then 1 else 0 } := by
    unfold encodeState
    rw [if_pos ⟨windowed, by omega⟩, residue]
  have content : WireState.state { state.wire with
      remainder := state.periodMicros.toNat, lastMicros := if state.carried then 1 else 0 } =
      { state with
        remainder := state.periodMicros.toNat, lastMicros := if state.carried then 1 else 0
        periodMicros := 0, carried := false } := by
    have plain := wire_state state
    simp only [WireState.state, PersistedState.wire, PersistedState.mk.injEq] at plain ⊢
    simp only [plain, and_self]
  have bounded : ¬ (((state.periodMicros.toNat : Nat) : Int) > maxExactMicros ∨
      ((if state.carried then (1 : Int) else 0) ≠ 0 ∧ (if state.carried then (1 : Int) else 0) ≠ 1)) := by
    cases state.carried <;> simp <;> omega
  unfold decodeState
  rw [encoded, decodeStateMode_wire true named _ rfl rfl rfl (by simp [PersistedState.wire]), content]
  unfold decodeMetadata
  dsimp only
  rw [if_pos ⟨rfl, windowed, by omega⟩, if_neg bounded]
  have whole : ((state.periodMicros.toNat : Nat) : Int) = state.periodMicros := by omega
  rw [whole]
  cases same : state.carried <;> simp

/-! ## The length of the text -/

/-- How many digits a number has. -/
def decimalLength (value : Nat) : Nat := Nat.log 10 value + 1

def integerLength (value : Int) : Nat := decimalLength value.natAbs + if value < 0 then 1 else 0

/-- What one byte of a string takes between the quotes. -/
def escapedLength (byte : UInt8) : Nat :=
  if byte = 34 ∨ byte = 92 then 2
  else if byte = 8 ∨ byte = 9 ∨ byte = 10 ∨ byte = 12 ∨ byte = 13 then 2
  else if byte < 32 then 6
  else 1

def stringLength (value : GoString) : Nat := 2 + (value.map escapedLength).sum

/-- An object or an array from the lengths of its members: brackets around, a comma
and a space between. -/
def bracketedLength (members : List Nat) : Nat := 2 + members.sum + 2 * (members.length - 1)

/-- A member of an object: a quoted name, a colon and a space, and the value. -/
def memberLength (name : String) (value : Nat) : Nat := name.length + 4 + value

def algorithmLength : Algorithm → Nat
  | .tokenBucket => 14
  | .fixedWindow => 14
  | .slidingWindow => 16
  | .concurrency => 13
  | .other name => stringLength name

def PersistedSegment.textLength (segment : PersistedSegment) : Nat :=
  bracketedLength [memberLength "index" (integerLength segment.index),
    memberLength "used" (decimalLength segment.used)]

def PersistedLease.textLength (lease : PersistedLease) : Nat :=
  bracketedLength [memberLength "cost" (decimalLength lease.cost),
    memberLength "expires_micros" (integerLength lease.expiresMicros)]

/-- The member for the leases, which an empty map leaves out. -/
def leasesLength (leases : AList (fun _ : GoString => PersistedLease)) : List Nat :=
  if leases.entries = [] then []
  else [memberLength "leases" (bracketedLength (leases.entries.map fun entry =>
    stringLength entry.1 + 2 + entry.2.textLength))]

/-- `octet_length(state::text)`. -/
def WireState.textLength (wire : WireState) : Nat :=
  bracketedLength ([memberLength "schema" (integerLength wire.schema),
    memberLength "policy_id" (stringLength wire.policyID),
    memberLength "revision" (stringLength wire.revision),
    memberLength "algorithm" (algorithmLength wire.algorithm),
    memberLength "tokens" (decimalLength wire.tokens),
    memberLength "remainder" (decimalLength wire.remainder),
    memberLength "last_micros" (integerLength wire.lastMicros),
    memberLength "observed_micros" (integerLength wire.observedMicros),
    memberLength "window" (integerLength wire.window),
    memberLength "used" (decimalLength wire.used),
    memberLength "segments" (bracketedLength (wire.segments.map PersistedSegment.textLength))] ++
    leasesLength wire.leases)

theorem decimalLength_le (digits : 0 < count) (small : value < 10 ^ count) : decimalLength value ≤ count := by
  unfold decimalLength
  by_cases zero : value = 0
  · subst zero
    simp only [Nat.log_zero_right]
    omega
  · have less := Nat.log_lt_of_lt_pow zero small
    omega

theorem integerLength_le (digits : 0 < count) (small : value.natAbs < 10 ^ count) :
    integerLength value ≤ count + 1 := by
  have length := decimalLength_le digits small
  unfold integerLength
  split <;> omega

private theorem escapedLength_identifier (byte : UInt8) (letter : identifierByte byte = true) :
    escapedLength byte = 1 := by
  simp only [identifierByte, Bool.or_eq_true, Bool.and_eq_true, decide_eq_true_eq, beq_iff_eq] at letter
  have quotes : byte ≠ 34 ∧ byte ≠ 92 := by
    constructor <;> rintro rfl <;> revert letter <;> decide
  have space : byte ≠ 8 ∧ byte ≠ 9 ∧ byte ≠ 10 ∧ byte ≠ 12 ∧ byte ≠ 13 := by
    refine ⟨?_, ?_, ?_, ?_, ?_⟩ <;> rintro rfl <;> revert letter <;> decide
  have printable : ¬ byte < 32 := by
    simp only [UInt8.le_iff_toNat_le, UInt8.lt_iff_toNat_lt, ← UInt8.toNat_inj, UInt8.reduceToNat] at letter ⊢
    omega
  simp [escapedLength, quotes, space, printable]

theorem stringLength_identifier (valid : value.all identifierByte = true) :
    stringLength value = value.length + 2 := by
  have plain : ∀ byte ∈ value, escapedLength byte = 1 := by
    intro byte member
    exact escapedLength_identifier byte (List.all_eq_true.mp valid byte member)
  have ones : (value.map escapedLength).sum = value.length := by
    rw [List.map_congr_left plain]
    simp
  unfold stringLength
  omega

theorem bracketedLength_le {members : List Nat} (each : ∀ member ∈ members, member ≤ most) :
    bracketedLength members ≤ 2 + members.length * (most + 2) := by
  have sum := List.sum_le_card_nsmul members most each
  simp only [smul_eq_mul] at sum
  unfold bracketedLength
  nlinarith [Nat.sub_le members.length 1]

/-- A number that fits a word. -/
def Word (value : Int) : Prop := value.natAbs < 18446744073709551616

/-- A document small enough for the strict reader. -/
structure WireState.Fits (wire : WireState) : Prop where
  schema : Word wire.schema
  policyID : validPolicyIdentifier wire.policyID 64 = true
  revision : validPolicyIdentifier wire.revision 64 = true
  algorithm : algorithmLength wire.algorithm ≤ 16
  tokens : Word wire.tokens
  remainder : Word wire.remainder
  last : Word wire.lastMicros
  observed : Word wire.observedMicros
  window : Word wire.window
  used : Word wire.used
  slots : wire.segments.length = 16
  segments : ∀ segment ∈ wire.segments, Word segment.index ∧ Word segment.used
  leases : wire.leases.entries.length ≤ 1024
  lease : ∀ entry ∈ wire.leases.entries, entry.1.length = 64 ∧ entry.1.all identifierByte = true ∧
    entry.2.cost ≤ 1024 ∧ entry.2.expiresMicros.natAbs ≤ 9007199254740991

theorem Word.decimal {value : Nat} (word : Word value) : decimalLength value ≤ 20 := by
  unfold Word at word
  exact decimalLength_le (by decide) (by norm_num; omega)

theorem Word.integer (word : Word value) : integerLength value ≤ 21 := by
  unfold Word at word
  exact integerLength_le (by decide) (by norm_num; omega)

theorem identifier_length (valid : validPolicyIdentifier value 64 = true) : stringLength value ≤ 66 := by
  unfold validPolicyIdentifier at valid
  simp only [Bool.and_eq_true, decide_eq_true_eq] at valid
  rw [stringLength_identifier valid.2]
  omega

theorem segment_length {segment : PersistedSegment} (index : Word segment.index) (used : Word segment.used) :
    segment.textLength ≤ 62 := by
  have first := index.integer
  have second := used.decimal
  simp only [PersistedSegment.textLength, bracketedLength, memberLength, List.sum_cons, List.sum_nil,
    List.length_cons, List.length_nil]
  have names : "index".length = 5 ∧ "used".length = 4 := by decide
  omega

theorem lease_length {lease : PersistedLease} (cost : lease.cost ≤ 1024)
    (expires : lease.expiresMicros.natAbs ≤ 9007199254740991) : lease.textLength ≤ 51 := by
  have first : decimalLength lease.cost ≤ 4 := decimalLength_le (by decide) (by norm_num; omega)
  have second : integerLength lease.expiresMicros ≤ 17 := integerLength_le (by decide) (by norm_num; omega)
  simp only [PersistedLease.textLength, bracketedLength, memberLength, List.sum_cons, List.sum_nil,
    List.length_cons, List.length_nil]
  have names : "cost".length = 4 ∧ "expires_micros".length = 14 := by decide
  omega

theorem leases_length (count : leases.entries.length ≤ 1024)
    (lease : ∀ entry ∈ leases.entries, entry.1.length = 64 ∧ entry.1.all identifierByte = true ∧
      entry.2.cost ≤ 1024 ∧ entry.2.expiresMicros.natAbs ≤ 9007199254740991) :
    (leasesLength leases).sum ≤ 123916 ∧ (leasesLength leases).length ≤ 1 := by
  unfold leasesLength
  split
  · exact ⟨by simp, by simp⟩
  · refine ⟨?_, by simp⟩
    have each : ∀ member ∈ leases.entries.map (fun entry =>
        stringLength entry.1 + 2 + entry.2.textLength), member ≤ 119 := by
      intro member inside
      obtain ⟨entry, present, rfl⟩ := List.mem_map.mp inside
      obtain ⟨length, hex, cost, expires⟩ := lease entry present
      rw [stringLength_identifier hex, length]
      have text := lease_length cost expires
      omega
    have total := bracketedLength_le each
    rw [List.length_map] at total
    have name : "leases".length = 6 := by decide
    simp only [memberLength, List.sum_cons, List.sum_nil, name]
    omega

/-- The strict reader's limit of 128 KiB is never reached. -/
theorem WireState.Fits.textLength_le {wire : WireState} (fits : wire.Fits) : wire.textLength ≤ 131072 := by
  have schema := fits.schema.integer
  have policyID := identifier_length fits.policyID
  have revision := identifier_length fits.revision
  have algorithm := fits.algorithm
  have tokens := fits.tokens.decimal
  have remainder := fits.remainder.decimal
  have last := fits.last.integer
  have observed := fits.observed.integer
  have window := fits.window.integer
  have used := fits.used.decimal
  have segments : bracketedLength (wire.segments.map PersistedSegment.textLength) ≤ 1026 := by
    have each : ∀ member ∈ wire.segments.map PersistedSegment.textLength, member ≤ 62 := by
      intro member inside
      obtain ⟨segment, present, rfl⟩ := List.mem_map.mp inside
      exact segment_length (fits.segments segment present).1 (fits.segments segment present).2
    have total := bracketedLength_le each
    rw [List.length_map, fits.slots] at total
    omega
  obtain ⟨leases, one⟩ := leases_length fits.leases fits.lease
  have names : "schema".length = 6 ∧ "policy_id".length = 9 ∧ "revision".length = 8 ∧
      "algorithm".length = 9 ∧ "tokens".length = 6 ∧ "remainder".length = 9 ∧
      "last_micros".length = 11 ∧ "observed_micros".length = 15 ∧ "window".length = 6 ∧
      "used".length = 4 ∧ "segments".length = 8 := by decide
  unfold WireState.textLength bracketedLength
  simp only [memberLength, List.sum_append, List.length_append, List.sum_cons, List.sum_nil,
    List.length_cons, List.length_nil]
  unfold bracketedLength at segments
  omega

end RateLimit.Postgres
