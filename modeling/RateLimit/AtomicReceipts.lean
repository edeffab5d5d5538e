import RateLimit.Outcomes
import RateLimit.RowExpiry
import RateLimit.TokenTimes

/-! The receipts of atomic batches. What a batch decides about its buckets is stored with
the command, and a retry gets it back through `decodeAtomicReceipt`, which tests every
field again. Whatever the buckets held, what the batch decided passes these tests, and it
is short enough to be stored. -/
namespace RateLimit.Postgres

open Machine Program

/-! ## The two halves of a first attempt -/

/-- The middle of `admitAtomic`: the speculative debits, and what becomes of them. -/
def evaluateBatch (batch : AtomicBatchRequest) (keys : List Digest) (now : Time)
    (states : List (Option PersistedState)) : Call BatchAnswer := do
  let debits ← debitAll now (batch.requests.zip states)
  settleDebits batch.commandID keys now debits

/-- Its end: the receipt is stored with the command. -/
def storeReceipt (sha256 : GoString → Digest) (clock : ClockPolicy) (batch : AtomicBatchRequest)
    (answer : BatchAnswer) : Call BatchAnswer :=
  match encodeAtomicReceipt answer.decision with
  | none => throw (.sentinel .corrupt)
  | some saved => do
    writeCell (.command (sha256 batch.commandID)) (some ⟨atomicIntent sha256 batch clock, some saved⟩)
    commitStrict
    pure answer

theorem admitFirst_eq (sha256 : GoString → Digest) (clock : ClockPolicy) (batch : AtomicBatchRequest) :
    admitFirst sha256 clock batch = (
      let keys := batch.requests.map fun request => sha256 request.bucketName
      lockBuckets none ((keys.map advisoryKey).mergeSort fun a b => decide (a ≤ b)) >>= fun _ =>
      atomicTime clock batch >>= fun observed =>
      loadStates observed keys >>= fun states =>
      evaluateBatch batch keys (latestObservation observed states) states >>= storeReceipt sha256 clock batch) := by
  simp only [admitFirst, evaluateBatch, bind_assoc]
  rfl

/-- The same requests at another time. -/
def retimedBatch (batch : AtomicBatchRequest) (now : Time) : AtomicBatchRequest :=
  { batch with requests := batch.requests.map fun request => { request with now := now } }

/-! ## What a receipt says of one bucket -/

/-- What the reader asks of every decision, and what keeps it short. -/
structure ReceiptEntry (decision : Decision) (request : Request) : Prop where
  limit : decision.limit = request.policy.limit
  remaining : decision.remaining ≤ request.policy.limit
  backend : decision.backend = .ofLiteral "postgres"
  revision : decision.policyRevision = request.policy.revision
  reset : -9007199254740991000 ≤ decision.reset.nanos ∧ decision.reset.nanos ≤ 18014398509481983000
  retry : 0 ≤ decision.retryAfter.nanos ∧ decision.retryAfter.nanos ≤ 9007199254740991000
  reason : decision.reason = .allowed ∨ decision.reason = .limited ∨ decision.reason = .atomicRejected

/-- A bucket that was debited. -/
structure EntryAllowed (decision : Decision) (request : Request) : Prop extends ReceiptEntry decision request where
  allowed : decision.allowed = true
  granted : decision.reason = .allowed
  left : decision.remaining ≤ request.policy.limit - request.cost
  prompt : decision.retryAfter = ⟨0⟩

/-- A bucket that could not be. -/
structure EntryLimited (decision : Decision) (request : Request) : Prop extends ReceiptEntry decision request where
  denied : decision.allowed = false
  limited : decision.reason = .limited
  short : decision.remaining < request.cost
  delayed : 0 < decision.retryAfter.nanos
  longest : ∃ duration, tokenDuration request.cost 0 request.policy = pure duration ∧
    decision.retryAfter.nanos ≤ duration.nanos

/-- A bucket that was not, for the sake of another one. -/
structure EntrySpared (decision : Decision) (request : Request) : Prop extends ReceiptEntry decision request where
  denied : decision.allowed = false
  spared : decision.reason = .atomicRejected
  enough : request.cost ≤ decision.remaining
  prompt : decision.retryAfter = ⟨0⟩

/-- A speculative debit whose decision a receipt can hold as it is. -/
structure Receipted (now : Time) (request : Request) (debit : Debit) : Prop extends Debited now request debit where
  verdict : (debit.answer.error = none ∧ EntryAllowed debit.answer.decision request) ∨
    (debit.answer.error = some .rejected ∧ EntryLimited debit.answer.decision request)
  soon : now.nanos ≤ 9007199254740991999

theorem accepted_receipted {request : Request} (bounds : request.Bounds period)
    (token : request.policy.algorithm = .tokenBucket)
    (seen : ∀ state, current = some state → state.observedMicros ≤ now.unixMicro)
    (accepted : Accepted current { request with now := now } period) :
    Receipted now request ⟨{ request with now := now }, (outcome accepted).state,
      ⟨{ (outcome accepted).decision with
        backend := .ofLiteral "postgres", policyRevision := request.policy.revision }, (outcome accepted).error⟩⟩ := by
  have debited := accepted_debited bounds token seen accepted
  have still : effective current { request with now := now } = { request with now := now } := by
    apply clampRequest_of_le
    cases current with
    | none => exact (freshState_observed _).le
    | some state => exact seen state rfl
  have rate : rateOf accepted.bounds = rateOf bounds := rateOf_eq _ _ (clampRequest_policy _ _)
  obtain ⟨reset, retry⟩ := outcome_times accepted token
  rw [rate, still] at reset
  rw [rate] at retry
  have early := debited.dated
  have late := accepted.bounds.room
  rw [still] at late
  have soon : now.nanos ≤ 9007199254740991999 := by
    simp only [Time.unixMicro] at late
    omega
  have far : (outcome accepted).decision.reset.nanos = now.nanos + 1000 * ((rateOf bounds).wait
      (request.policy.limit - (outcome accepted).state.tokens) (outcome accepted).state.remainder : Nat) := by
    rw [reset]
    simp only [Time.add, Duration.ofMicros]
    omega
  have waits := wait_small bounds (Nat.sub_le request.policy.limit (outcome accepted).state.tokens)
    (outcome accepted).state.remainder
  have cost := bounds.cost_le
  refine ⟨debited, ?_, soon⟩
  rcases debited.complete with ⟨admitted, allowed, reason, limit, left, -, prompt⟩ |
    ⟨rejected, denied, reason, limit, short, -, -⟩
  · refine Or.inl ⟨admitted, ⟨limit, by omega, rfl, rfl, ?_, ?_, .inl reason⟩, allowed, reason, left, ?_⟩
    · dsimp only
      omega
    · rw [prompt]
      omega
    · exact congrArg Duration.mk prompt
  · have level := available_level accepted token
    have lacking : (availableLevel accepted).tokens < request.cost := by
      by_contra enough
      cases rejected.symm.trans (outcome_room accepted token enough).1
    have held := (outcome_short accepted token lacking).2
    have delay : (outcome accepted).decision.retryAfter = .ofMicros ((rateOf bounds).wait
        (request.cost - (availableLevel accepted).tokens) (availableLevel accepted).remainder) := by
      rw [← held]
      exact retry rejected
    have positive := (rateOf bounds).wait_pos level.2
      (show 0 < request.cost - (availableLevel accepted).tokens by omega)
    have scratch := (rateOf bounds).wait_le_scratch
      (show request.cost - (availableLevel accepted).tokens ≤ request.cost by omega) (availableLevel accepted).remainder
    have most := wait_small bounds cost 0
    refine Or.inr ⟨rejected, ⟨limit, by omega, rfl, rfl, ?_, ?_, .inr (.inl reason)⟩, denied, reason, short, ?_,
      _, tokenDuration_exact bounds cost bounds.period_pos, ?_⟩
    · dsimp only
      omega
    all_goals
      rw [delay]
      simp only [Duration.ofMicros]
      omega

/-- A debit that is taken back leaves the bucket as it was found. -/
theorem restored_entry (receipted : Receipted now request debit) : (restored now debit).Yields fun decision =>
    (EntryLimited decision request ∨ EntrySpared decision request) ∧
      (debit.answer.error ≠ none → decision.reason = .limited) := by
  obtain ⟨⟨timed, -, room, ⟨period, bounds, fraction⟩, early⟩, verdict, soon⟩ := receipted
  unfold restored
  rcases verdict with ⟨admitted, entry⟩ | ⟨rejected, entry⟩
  · have fits := room admitted
    have limit := bounds.limit_le
    have waits := wait_small bounds (Nat.sub_le request.policy.limit (debit.state.tokens + request.cost))
      debit.state.remainder
    rw [if_neg (by rw [entry.allowed]; decide), timed]
    dsimp only
    rw [← Nat.cast_add, u64_exact (by omega) (by omega), pure_bind, Int.toNat_natCast, u64_sub_exact fits (by omega),
      pure_bind, tokenDuration_exact bounds (Nat.sub_le _ _) fraction, pure_bind]
    refine yields_pure ⟨Or.inr ⟨⟨entry.limit, fits, entry.backend, entry.revision, ?_, entry.retry, .inr (.inr rfl)⟩,
      rfl, rfl, Nat.le_add_left _ _, entry.prompt⟩, fun other => absurd admitted other⟩
    simp only [Time.add, Duration.ofMicros]
    omega
  · rw [if_pos entry.denied]
    exact yields_pure ⟨Or.inl entry, fun _ => entry.limited⟩

/-- What a batch can answer: every bucket debited, or none and one of them exhausted. -/
inductive Receiptable (batch : AtomicBatchRequest) : BatchAnswer → Prop
  | granted (decisions : List Decision) (each : List.Forall₂ EntryAllowed decisions batch.requests) :
    Receiptable batch ⟨⟨batch.commandID, true, decisions⟩, none⟩
  | denied (decisions : List Decision)
      (each : List.Forall₂ (fun decision request => EntryLimited decision request ∨ EntrySpared decision request)
        decisions batch.requests) (limited : ∃ decision ∈ decisions, decision.reason = .limited) :
    Receiptable batch ⟨⟨batch.commandID, false, decisions⟩, some .rejected⟩

section
variable {Heard : Exchange database → Prop} {Known : StoreError → Prop}
  (known : ∀ problem, Direct problem → Known problem)
include known

theorem settleDebits_receiptable {batch : AtomicBatchRequest} (keys : List Digest)
    (settled : List.Forall₂ (Receipted now) batch.requests debits) :
    Meets Heard Known (settleDebits batch.commandID keys now debits) (Receiptable batch) := by
  have grants (request : Request) (debit : Debit) (receipted : Receipted now request debit)
      (admitted : debit.answer.error = none) : EntryAllowed debit.answer.decision request := by
    rcases receipted.verdict with ⟨-, entry⟩ | ⟨rejected, -⟩
    · exact entry
    · cases rejected.symm.trans admitted
  refine (settleDebits_holds (by exact fun _ _ => restored_entry) settled known _ keys grants).mono ?_
  rintro answer (⟨decisions, rfl, entries⟩ | ⟨decisions, rfl, entries, pair, member, limited⟩)
  · exact .granted _ entries
  · exact .denied _ entries ⟨pair.1, (List.of_mem_zip member).1, limited⟩

/-- Whatever the buckets held and whatever the database replies. -/
theorem evaluateBatch_receiptable (batch : ValidBatch) (keys : List Digest) (observed : Time)
    {states : List (Option PersistedState)} (count : states.length = batch.requests.length) :
    Meets Heard Known (evaluateBatch batch.toAtomicBatchRequest keys (latestObservation observed states) states)
      (Receiptable batch.toAtomicBatchRequest) := by
  have seen := (le_latestObservation observed states).2
  have batched := batch_bounds batch
  apply (debitAll_holds known (Receipted (latestObservation observed states)) (latestObservation observed states)
    (fun pair member => batched pair.1 (List.of_mem_zip member).1)
    (fun pair member state same => seen state (by rw [← same]; exact (List.of_mem_zip member).2))
    fun pair member _ bounds accepted => accepted_receipted bounds (batched pair.1 (List.of_mem_zip member).1).1
      (fun state same => seen state (by rw [← same]; exact (List.of_mem_zip member).2)) accepted).bind
  intro debits settled
  rw [List.map_fst_zip (by rw [count])] at settled
  exact settleDebits_receiptable known keys settled

end

/-! ## Storing a receipt -/

theorem timestampLength_le (time : Time) : timestampLength time ≤ 32 := by
  unfold timestampLength
  dsimp only
  split <;> omega

theorem ReceiptEntry.length (entry : ReceiptEntry decision request) (small : request.policy.limit ≤ 9007199254740991)
    (valid : validPolicyIdentifier request.policy.revision 64 = true) : decisionLength decision ≤ 320 := by
  have allowed : booleanLength decision.allowed ≤ 5 := by
    unfold booleanLength
    split <;> omega
  have remaining : decimalLength decision.remaining ≤ 20 := Word.decimal (by
    have most := entry.remaining
    unfold Word
    omega)
  have limit : decimalLength decision.limit ≤ 20 := Word.decimal (by
    have same := entry.limit
    unfold Word
    omega)
  have reset := timestampLength_le decision.reset
  have retry : integerLength decision.retryAfter.nanos ≤ 21 := Word.integer (by
    have range := entry.retry
    unfold Word
    omega)
  have reason : reasonLength decision.reason ≤ 17 := by
    rcases entry.reason with same | same | same <;> rw [same] <;> decide
  have backend : stringLength decision.backend = 10 := by
    rw [entry.backend]
    decide +kernel
  have revision : stringLength decision.policyRevision ≤ 66 := by
    rw [entry.revision]
    exact identifier_length valid
  have names : "Allowed".length = 7 ∧ "Remaining".length = 9 ∧ "Limit".length = 5 ∧ "Reset".length = 5 ∧
      "RetryAfter".length = 10 ∧ "Reason".length = 6 ∧ "Backend".length = 7 ∧ "PolicyRevision".length = 14 := by decide
  simp only [decisionLength, compactLength, compactMember, List.sum_cons, List.sum_nil, List.length_cons,
    List.length_nil]
  omega

theorem compactLength_le {members : List Nat} (each : ∀ member ∈ members, member ≤ most) :
    compactLength members ≤ 2 + members.length * (most + 1) := by
  have sum := List.sum_le_card_nsmul members most each
  simp only [smul_eq_mul] at sum
  unfold compactLength
  nlinarith [Nat.sub_le members.length 1]

/-- A receipt of sixteen buckets is far from its limit. -/
theorem receiptLength_le (each : ∀ decision ∈ decisions, decisionLength decision ≤ 320)
    (count : decisions.length ≤ 16) (allowed : Bool) : receiptLength ⟨[], allowed, decisions⟩ ≤ 16384 := by
  have entries : compactLength (decisions.map decisionLength) ≤ 2 + 16 * 321 := by
    have total : compactLength (decisions.map decisionLength) ≤ 2 + (decisions.map decisionLength).length * (320 + 1) :=
      compactLength_le (by simpa using each)
    rw [List.length_map] at total
    exact total.trans (Nat.add_le_add_left (Nat.mul_le_mul_right _ count) 2)
  have flag : booleanLength allowed ≤ 5 := by
    unfold booleanLength
    split <;> omega
  have names : "CommandID".length = 9 ∧ "Allowed".length = 7 ∧ "Decisions".length = 9 ∧
      stringLength [] = 2 := by decide
  simp only [receiptLength, compactMember] at entries ⊢
  unfold compactLength at entries ⊢
  simp only [List.sum_cons, List.sum_nil, List.length_cons, List.length_nil]
  omega

theorem ValidBatch.size (batch : ValidBatch) : batch.requests.length ≤ 16 := by
  have accepted := batch.accepted
  unfold AtomicBatchRequest.validate at accepted
  split at accepted
  · cases accepted
  · rename_i first rest requests
    split at accepted
    · cases accepted
    · rename_i fine
      simp only [not_or, not_lt, maxAtomicBatchSize] at fine
      rw [requests]
      exact fine.2

/-- The decisions of an answer, whatever it is. -/
theorem Receiptable.entries (receiptable : Receiptable batch answer) :
    List.Forall₂ ReceiptEntry answer.decision.decisions batch.requests := by
  cases receiptable with
  | granted _ each => exact each.imp fun _ _ entry => entry.toReceiptEntry
  | denied _ each _ =>
    exact each.imp fun _ _ entry => entry.elim EntryLimited.toReceiptEntry EntrySpared.toReceiptEntry

/-- A receipt is always written. -/
theorem Receiptable.encodes {batch : ValidBatch} (receiptable : Receiptable batch.toAtomicBatchRequest answer) :
    encodeAtomicReceipt answer.decision = some { answer.decision with commandID := [] } ∧
      receiptLength { answer.decision with commandID := [] } ≤ 16384 := by
  have entries := receiptable.entries
  have each : ∀ decision ∈ answer.decision.decisions, ∃ request ∈ batch.requests, ReceiptEntry decision request := by
    intro decision member
    obtain ⟨index, inside, rfl⟩ := List.getElem_of_mem member
    have other : index < batch.requests.length := by
      rw [← entries.length_eq]
      exact inside
    exact ⟨batch.requests[index], List.getElem_mem other, entries.get inside other⟩
  have short : receiptLength { answer.decision with commandID := [] } ≤ 16384 := by
    refine receiptLength_le (fun decision member => ?_) ?_ _
    · obtain ⟨request, among, entry⟩ := each decision member
      obtain ⟨-, period, bounds⟩ := batch_bounds batch request among
      exact entry.length bounds.limit_le (batch.built request among).sound.revision_valid
    · rw [entries.length_eq]
      exact ValidBatch.size batch
  have timely : (answer.decision.decisions.all fun decision => jsonTime decision.reset) = true := by
    rw [List.all_eq_true]
    intro decision member
    obtain ⟨request, -, entry⟩ := each decision member
    have range := entry.reset
    unfold jsonTime
    rw [decide_eq_true_eq]
    omega
  refine ⟨?_, short⟩
  unfold encodeAtomicReceipt
  rw [if_neg (by rw [timely]; decide)]
  exact if_neg (not_lt.mpr short)

/-! ## Reading it again -/

section
variable (now : Time)

/-- The tests that every decision of a receipt has to pass. -/
theorem ReceiptEntry.passes (entry : ReceiptEntry decision request) : ¬ (
    decision.limit ≠ ({ request with now := now } : Request).policy.limit ∨ decision.remaining > decision.limit ∨
      decision.backend ≠ .ofLiteral "postgres" ∨
      decision.policyRevision ≠ ({ request with now := now } : Request).policy.revision ∨
      decision.reset = Time.zero) := by
  rintro (limit | most | backend | revision | zero)
  · exact limit entry.limit
  · rw [entry.limit] at most
    exact absurd entry.remaining (not_le.mpr most)
  · exact backend entry.backend
  · exact revision entry.revision
  · have range := entry.reset
    rw [zero] at range
    simp only [Time.zero] at range
    omega

theorem EntryAllowed.reads (entry : EntryAllowed decision request) (cost : request.cost ≤ request.policy.limit)
    (small : request.policy.limit ≤ 9007199254740991) :
    allowedReceipt decision { request with now := now } = pure true := by
  unfold allowedReceipt
  rw [entry.limit, u64_sub_exact cost (by omega), pure_bind,
    decide_eq_true ⟨entry.allowed, entry.granted, entry.prompt, entry.left⟩]

theorem EntryLimited.reads (entry : EntryLimited decision request) :
    rejectedReceipt decision { request with now := now } = pure (some true) := by
  obtain ⟨duration, exact, within⟩ := entry.longest
  have short := entry.short
  have delayed := entry.delayed
  unfold rejectedReceipt
  rw [if_neg (by rw [entry.denied]; decide), entry.limited]
  dsimp only
  rw [if_neg (by omega), exact, pure_bind, if_neg (by omega)]

theorem EntrySpared.reads (entry : EntrySpared decision request) :
    rejectedReceipt decision { request with now := now } = pure (some false) := by
  have enough := entry.enough
  unfold rejectedReceipt
  rw [if_neg (by rw [entry.denied]; decide), entry.spared]
  dsimp only
  rw [if_neg]
  rintro (short | late)
  · omega
  · exact late entry.prompt

theorem checkReceipt_allowed (each : List.Forall₂ EntryAllowed decisions requests)
    (bounds : ∀ request ∈ requests, ∃ period, request.Bounds period) (limited : Bool) :
    checkReceipt true (decisions.zip (requests.map fun request => { request with now := now })) limited =
      pure (some limited) := by
  induction each with
  | nil => rfl
  | cons entry rest ih =>
    obtain ⟨⟨period, here⟩, later⟩ := List.forall_mem_cons.mp bounds
    simp only [List.map_cons, List.zip_cons_cons, checkReceipt]
    rw [if_neg (entry.toReceiptEntry.passes now), if_pos trivial, entry.reads now here.cost_le here.limit_le, pure_bind,
      if_pos rfl]
    exact ih later

theorem checkReceipt_rejected (each : List.Forall₂
      (fun decision request => EntryLimited decision request ∨ EntrySpared decision request) decisions requests)
    (limited : Bool) :
    checkReceipt false (decisions.zip (requests.map fun request => { request with now := now })) limited =
      pure (some (limited || decisions.any fun decision => decide (decision.reason = .limited))) := by
  induction each generalizing limited with
  | nil => simp [checkReceipt]
  | cons entry rest ih =>
    simp only [List.map_cons, List.zip_cons_cons, checkReceipt, List.any_cons]
    rcases entry with entry | entry
    · rw [if_neg (entry.toReceiptEntry.passes now), if_neg (by decide), entry.reads now, pure_bind]
      dsimp only
      rw [ih, entry.limited]
      simp
    · rw [if_neg (entry.toReceiptEntry.passes now), if_neg (by decide), entry.reads now, pure_bind]
      dsimp only
      rw [ih, entry.spared]
      simp

/-- A retry at any time reads back what was answered. -/
theorem Receiptable.decodes {batch : AtomicBatchRequest} (receiptable : Receiptable batch answer)
    (bounds : ∀ request ∈ batch.requests, ∃ period, request.Bounds period) :
    decodeAtomicReceipt (some { answer.decision with commandID := [] }) (retimedBatch batch now) =
      pure (.ok answer) := by
  have count := receiptable.entries.length_eq
  unfold decodeAtomicReceipt
  dsimp only
  rw [if_neg (by simp [retimedBatch, count])]
  cases receiptable with
  | granted decisions each =>
    simp only [retimedBatch, checkReceipt_allowed now each bounds, pure_bind]
    rfl
  | denied decisions each limited =>
    have found : (decisions.any fun decision => decide (decision.reason = .limited)) = true := by
      simpa using limited
    simp only [retimedBatch, checkReceipt_rejected now each, found, pure_bind]
    rfl

end

/-- Receipts replay exactly. Whatever its buckets held and whatever the database replies,
a valid batch is evaluated to an answer or to a direct error. Without its command ID the
answer is short enough to be stored, and it is stored. A retry with the same requests at
any time is bound to the same intent, decodes the receipt to that very answer, and returns
it after its commit. -/
theorem receipts_replay (sha256 : GoString → Digest) (clock : ClockPolicy) (batch : ValidBatch) (keys : List Digest)
    (observed : Time) (stored : Request → Option PersistedState) :
    Meets (fun _ => True) Direct (evaluateBatch batch.toAtomicBatchRequest keys
        (latestObservation observed (batch.requests.map stored)) (batch.requests.map stored)) fun answer =>
      Answered answer.error ∧ ∃ saved : AtomicBatchDecision, saved = { answer.decision with commandID := [] } ∧
        receiptLength saved ≤ 16384 ∧
        storeReceipt sha256 clock batch.toAtomicBatchRequest answer = (do
          writeCell (.command (sha256 batch.commandID))
            (some ⟨atomicIntent sha256 batch.toAtomicBatchRequest clock, some saved⟩)
          commitStrict
          pure answer) ∧
        ∀ now, decodeAtomicReceipt (some saved) (retimedBatch batch.toAtomicBatchRequest now) = pure (.ok answer) ∧
          replayReceipt sha256 clock (retimedBatch batch.toAtomicBatchRequest now)
            ⟨atomicIntent sha256 batch.toAtomicBatchRequest clock, some saved⟩ = (do
              commitStrict
              pure answer) := by
  intro log ending talk heard
  obtain ⟨inside, ends⟩ := evaluateBatch_receiptable (fun _ direct => direct) batch keys observed
    (List.length_map _) log ending talk heard
  refine ⟨inside, ends.imp_left ?_⟩
  rintro ⟨answer, rfl, receiptable⟩
  obtain ⟨encodes, short⟩ := receiptable.encodes
  have decodes (now : Time) := receiptable.decodes now fun request member => (batch_bounds batch request member).2
  refine ⟨answer, rfl, ?_, _, rfl, short, ?_, fun now => ⟨decodes now, ?_⟩⟩
  · cases receiptable with
    | granted _ _ => exact Or.inl rfl
    | denied _ _ _ => exact Or.inr rfl
  · unfold storeReceipt
    rw [encodes]
  · have bound : atomicIntent sha256 (retimedBatch batch.toAtomicBatchRequest now) clock =
        atomicIntent sha256 batch.toAtomicBatchRequest clock := by
      simp only [atomicIntent, AtomicBatchRequest.intent, retimedBatch, List.map_map]
      rfl
    unfold replayReceipt
    rw [bound, if_neg (not_not.mpr rfl), decodes now]
    rfl

end RateLimit.Postgres
