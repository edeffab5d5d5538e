import RateLimit.AtomicIntents
import RateLimit.LockOrder
import RateLimit.Outcomes
import RateLimit.TokenBound

/-! Atomic batches that run at the same time. The transaction of a batch holds the lock of
its command and the locks of its buckets from before it reads them until it ends, so what it
commits is what it would have committed alone. The first commit of a command debits all the
buckets of the command or none, and leaves a receipt; later ones find the receipt and change
nothing, however many of them there are and whatever became of their acknowledgements. -/
namespace RateLimit.Postgres

open Machine Program

instance : Coe ValidBatch AtomicBatchRequest := ⟨ValidBatch.toAtomicBatchRequest⟩

instance {sha256 : GoString → Digest} : CoeOut (KeyedBatch sha256) ValidBatch := ⟨KeyedBatch.toValidBatch⟩

/-! ## What a commit does -/

/-- A speculative debit: the cost is taken from what a bucket holds at a time, or the bucket
holds less than the cost. -/
def Spends (now : Time) (request : Request) (state : Option PersistedState) (debit : Debit) : Prop :=
  debit.request = { request with now := now } ∧
    ∃ period, ∃ accepted : Accepted state { request with now := now } period, debit.state = (outcome accepted).state ∧
      ((debit.answer.error = none ∧ (availableLevel accepted).tokens = debit.state.tokens + request.cost) ∨
        (debit.answer.error = some .rejected ∧ (availableLevel accepted).tokens < request.cost))

/-- What a transaction has heard from the clock of the database. -/
def observations (calls : Log database) : List (Except ContextState Int) := calls.filterMap fun
  | .observe reply => some reply
  | _ => none

theorem observations_append (calls more : Log database) :
    observations (calls ++ more) = observations calls ++ observations more := List.filterMap_append

/-- The one observation of a batch, in whole microseconds: the time of its requests, or what
the database has answered to its only question. -/
def Observes (clock : ClockPolicy) (batch : AtomicBatchRequest) (asked : List (Except ContextState Int))
    (observed : Time) : Prop :=
  match clock with
  | .clientClock => asked = [] ∧ ∃ first rest, batch.requests = first :: rest ∧
      observed = .ofUnixMicro first.now.unixMicro
  | .serverClock => ∃ now, asked = [.ok now] ∧ observed = .ofUnixMicro now

/-- The state that the row of a request's bucket stands for at a time. -/
def Found (sha256 : GoString → Digest) (observed : Time) (before : database.Content) (request : Request)
    (state : Option PersistedState) : Prop :=
  loadRow (before (.bucket (sha256 request.bucketName))) observed = .ok state

/-- The time that all the buckets of a batch are debited at: the observation, unless a state
has seen a later one. -/
structure Latest (sha256 : GoString → Digest) (batch : AtomicBatchRequest) (before : database.Content)
    (observed now : Time) : Prop where
  observed_le : observed.unixMicro ≤ now.unixMicro
  seen_le : ∀ request ∈ batch.requests, ∀ state, Found sha256 observed before request (some state) →
    state.observedMicros ≤ now.unixMicro
  least : now = observed ∨ ∃ request ∈ batch.requests, ∃ state, Found sha256 observed before request (some state) ∧
    now = .ofUnixMicro state.observedMicros

/-- A speculative debit of every bucket of a batch, from the state that its row stands for. -/
structure Tried (sha256 : GoString → Digest) (clock : ClockPolicy) (batch : AtomicBatchRequest) (calls : Log database)
    (before : database.Content) (observed : Time) (debits : List Debit) : Prop where
  observes : Observes clock batch (observations calls) observed
  spent : ∃ now, Latest sha256 batch before observed now ∧ List.Forall₂
    (fun request debit => ∃ state, Found sha256 observed before request state ∧ Spends now request state debit)
    batch.requests debits

/-- The row of a bucket after a debit. -/
def Stored (after : database.Content) (key : Digest) (debit : Debit) : Prop :=
  ∃ ttl, (postgresAdmissionTTL debit.request.policy).Returns ttl ∧ after (.bucket key) =
    some ⟨encodeState debit.state, expiryFrom debit.state.observedMicros ttl⟩

/-- The row was left alone, or had expired and was deleted. -/
def Spared (observed : Time) (before after : database.Content) (key : Digest) : Prop :=
  after (.bucket key) = before (.bucket key) ∨ Expired observed (before (.bucket key)) ∧ after (.bucket key) = none

/-- The first answer to a command, and its receipt. -/
structure FirstAnswer (sha256 : GoString → Digest) (clock : ClockPolicy) (batch : AtomicBatchRequest)
    (before after : database.Content) (answer : BatchAnswer) : Prop where
  new : before (.command (sha256 batch.commandID)) = none
  receipt : after (.command (sha256 batch.commandID)) =
    some ⟨atomicIntent sha256 batch clock, some { answer.decision with commandID := [] }⟩
  named : answer.decision.commandID = batch.commandID
  told : answer.error = if answer.decision.allowed then none else some .rejected
  others : ∀ cell, cell ≠ .command (sha256 batch.commandID) →
    (∀ request ∈ batch.requests, cell ≠ .bucket (sha256 request.bucketName)) → after cell = before cell

/-- What a commit of a batch does after some calls, and the answer that goes with it. -/
inductive AtomicEffect (sha256 : GoString → Digest) (clock : ClockPolicy) (batch : AtomicBatchRequest)
    (calls : Log database) (before after : database.Content) (answer : BatchAnswer) : Prop where
  | debited (observed : Time) (debits : List Debit) (first : FirstAnswer sha256 clock batch before after answer)
    (allowed : answer.decision.allowed = true) (tried : Tried sha256 clock batch calls before observed debits)
    (told : answer.decision.decisions = debits.map fun debit => debit.answer.decision)
    (all : ∀ debit ∈ debits, debit.answer.error = none)
    (stored : List.Forall₂ (fun request => Stored after (sha256 request.bucketName)) batch.requests debits)
  | rejected (observed : Time) (debits : List Debit) (first : FirstAnswer sha256 clock batch before after answer)
    (denied : answer.decision.allowed = false) (tried : Tried sha256 clock batch calls before observed debits)
    (short : ∃ debit ∈ debits, debit.answer.error = some .rejected)
    (spared : ∀ request ∈ batch.requests, Spared observed before after (sha256 request.bucketName))
  | replayed (row : CommandRow) (known : before (.command (sha256 batch.commandID)) = some row)
    (bound : row.intentDigest = atomicIntent sha256 batch clock)
    (decoded : (decodeAtomicReceipt row.receipt batch).Returns (.ok answer)) (unchanged : after = before)

/-! ## Parts of a transaction -/

/-- A part of a transaction that goes on, writes no rows but those of some buckets, and asks
the clock for nothing but `asked`. -/
structure Within (keys : List Digest) (part : Log database) (asked : List (Except ContextState Int) := []) : Prop where
  going : part.Open
  others : ∀ cell, (∀ key ∈ keys, cell ≠ .bucket key) → part.Unwritten cell
  asks : observations part = asked

theorem within_nil : Within keys [] := ⟨by simp [Log.Open], fun _ _ _ _ => by simp, rfl⟩

theorem Within.append {part part' : Log database} (first : Within keys part asked)
    (second : Within keys' part' asked') :
    Within (keys ++ keys') (part ++ part') (asked ++ asked') where
  going := Log.open_append.mpr ⟨first.going, second.going⟩
  others cell outside := Log.unwritten_append.mpr
    ⟨first.others cell fun key member => outside key (List.mem_append_left _ member),
      second.others cell fun key member => outside key (List.mem_append_right _ member)⟩
  asks := by rw [observations_append, first.asks, second.asks]

theorem Within.view_of_ne {part : Log database} (within : Within keys part asked) {cell : Cell}
    (outside : ∀ key ∈ keys, cell ≠ .bucket key) (content : database.Content) : part.view content cell = content cell :=
  Log.view_unwritten (within.others cell outside)

theorem Within.view_nil {part : Log database} (within : Within [] part asked) (content : database.Content) :
    part.view content = content := funext fun _ => within.view_of_ne (by simp) content

section
variable {Effect : Log database → database.Content → database.Content → Prop} {log : Log database}

/-- The locks are taken upwards, each once. -/
theorem lockBuckets_obeys {previous : Option Int} {keys : List Int} (sorted : keys.Pairwise (· ≤ ·)) (going : log.Open)
    (held : ∀ key, previous = some key → log.Holds (.bucket key))
    (above : ∀ lock, log.Holds lock → ∀ key ∈ keys, lock.Below (.bucket key) ∨ lock = .bucket key ∧
      previous = some key) :
    Obeys (manners.Kept Effect) log (lockBuckets previous keys) fun after _ =>
      ∃ part, after = log ++ part ∧ Within [] part ∧ ∀ key ∈ keys, after.Holds (.bucket key) := by
  induction keys generalizing previous log with
  | nil => exact obeys_pure ⟨[], by simp, within_nil, by simp⟩
  | cons key rest ih =>
    obtain ⟨least, sorted⟩ := List.pairwise_cons.mp sorted
    unfold lockBuckets
    by_cases again : previous = some key
    · rw [if_pos again]
      refine (ih sorted going (by rintro _ ⟨⟩; exact held key again) ?_).mono ?_
      · rintro lock taken other member
        rw [← again]
        exact above lock taken other (List.mem_cons_of_mem _ member)
      · rintro after _ ⟨part, rfl, within, all⟩
        exact ⟨part, rfl, within, List.forall_mem_cons.mpr ⟨(held key again).append within.going, all⟩⟩
    · rw [if_neg again]
      have higher : ∀ lock, log.Holds lock → lock.Below (.bucket key) := fun lock taken =>
        (above lock taken key List.mem_cons_self).resolve_right fun same => again same.2
      refine (acquire_obeys higher).bind fun after now same => ?_
      have single : Within [] [(.acquire (.bucket key) (.ok now) : Exchange database)] :=
        ⟨by simp [Log.Open, Exchange.ends], fun _ _ _ _ => by simp, rfl⟩
      have mine : after.Holds (.bucket key) := by
        rw [same]
        exact ⟨Log.open_append.mpr ⟨going, single.going⟩, now, by simp⟩
      refine (ih sorted mine.1 (by rintro _ ⟨⟩; exact mine) ?_).mono ?_
      · intro lock taken other member
        rw [same] at taken
        rcases taken.of_snoc with old | ⟨_, new⟩
        · have below := higher lock old
          have reach := least other member
          refine .inl ?_
          cases lock with
          | command => trivial
          | bucket low => exact lt_of_lt_of_le below reach
        · cases new
          rcases (least other member).lt_or_eq with less | rfl
          · exact .inl less
          · exact .inr ⟨rfl, rfl⟩
      · rintro after _ ⟨part, rfl, within, all⟩
        refine ⟨_ :: part, by rw [same, List.append_assoc]; rfl, single.append within, ?_⟩
        exact List.forall_mem_cons.mpr ⟨mine.append within.going, all⟩

theorem atomicTime_obeys (clock : ClockPolicy) (batch : AtomicBatchRequest) :
    Obeys (manners.Kept Effect) log (atomicTime clock batch) fun after observed =>
      ∃ part asked, after = log ++ part ∧ Within [] part asked ∧ Observes clock batch asked observed := by
  unfold atomicTime
  split
  · exact panic_silent
  · rename_i first rest requests
    cases clock with
    | clientClock => exact obeys_pure ⟨[], [], by simp, within_nil, rfl, first, rest, requests, rfl⟩
    | serverClock =>
      refine observe_obeys.bind fun after now same =>
        obeys_pure ⟨_, _, same, ⟨?_, fun _ _ _ _ => ?_, rfl⟩, now, rfl, rfl⟩
      · simp [Log.Open, Exchange.ends]
      · simp

/-- The rows of a batch are read in its own order, and those that have expired are deleted. -/
theorem loadStates_obeys (now : Time) {keys : List Digest} (holds : ∀ key ∈ keys, log.Holds (guardOf (.bucket key))) :
    Obeys (manners.Kept Effect) log (loadStates now keys) fun after states => ∃ part, after = log ++ part ∧
      Within keys part ∧ states.length = keys.length ∧ (keys.Nodup → ∀ content, part.Heard content →
        List.Forall₂ (fun key state => loadRow (content (.bucket key)) now = .ok state) keys states ∧
          ∀ key ∈ keys, Spared now content (part.view content) key) := by
  induction keys generalizing log with
  | nil => exact obeys_pure ⟨[], by simp, within_nil, rfl, fun _ _ _ => ⟨.nil, by simp⟩⟩
  | cons key rest ih =>
    refine (loadStateStrict_obeys (holds key List.mem_cons_self) now).bind fun after state loaded => ?_
    obtain ⟨row, writes, same, found, gone⟩ := loaded
    have first : Within [key] (.read (.bucket key) (.ok row) :: writes) := by
      refine ⟨?_, fun cell outside value reply => ?_, ?_⟩
      · rcases gone with rfl | ⟨-, rfl⟩ <;> simp [Log.Open, Exchange.ends]
      · have differ := outside key (List.mem_singleton_self key)
        rcases gone with rfl | ⟨-, rfl⟩
        · simp
        · intro written
          rcases List.mem_cons.mp written with impossible | last
          · cases impossible
          · cases List.mem_singleton.mp last
            exact differ rfl
      · rcases gone with rfl | ⟨-, rfl⟩ <;> rfl
    have kept : ∀ key ∈ rest, after.Holds (guardOf (.bucket key)) := fun key member => by
      rw [same]
      exact (holds key (List.mem_cons_of_mem _ member)).append first.going
    refine (ih kept).bind fun after states later => ?_
    obtain ⟨part, same', within, count, loads⟩ := later
    refine obeys_pure ⟨_ ++ part, by rw [same', same, List.append_assoc], first.append within, congrArg (· + 1) count,
      ?_⟩
    intro nodup content heard
    obtain ⟨fresh, nodup⟩ := List.nodup_cons.mp nodup
    obtain ⟨⟨read, -⟩, heard⟩ := (Log.heard_append (D := database)).mp heard
    obtain ⟨states, spared⟩ := loads nodup _ heard
    have apart {other : Digest} (member : other ∈ rest) :
        Log.view (D := database) (.read (.bucket key) (.ok row) :: writes) content (.bucket other) =
          content (.bucket other) := by
      refine first.view_of_ne ?_ content
      simp only [List.mem_singleton, forall_eq]
      rintro ⟨⟩
      exact fresh member
    rw [Log.view_append (D := database)]
    refine ⟨.cons (by rw [show content (.bucket key) = row from read, found]) ?_, List.forall_mem_cons.mpr ⟨?_, ?_⟩⟩
    · refine List.forall₂_iff_get.mpr ⟨count.symm, fun position inside inside' => ?_⟩
      rw [← apart (List.get_mem _ _)]
      exact (List.forall₂_iff_get.mp states).2 position inside inside'
    · rw [Spared, within.view_of_ne (by rintro other member ⟨⟩; exact fresh member)]
      rcases gone with rfl | ⟨expired, rfl⟩
      · exact .inl rfl
      · exact .inr ⟨(show content (.bucket key) = row from read) ▸ expired, by simp [Log.view, Exchange.effect]⟩
    · intro other member
      have later := spared other member
      rwa [Spared, apart member] at later

theorem debitAll_silent {rule : Log database → Exchange database → Prop} (now : Time)
    {pairs : List (Request × Option PersistedState)}
    (batched : ∀ pair ∈ pairs, pair.1.policy.algorithm = .tokenBucket ∧ ∃ period, pair.1.Bounds period)
    (seen : ∀ pair ∈ pairs, ∀ state, pair.2 = some state → state.observedMicros ≤ now.unixMicro) :
    Obeys rule log (debitAll now pairs) fun after debits =>
      after = log ∧ List.Forall₂ (fun pair => Spends now pair.1 pair.2) pairs debits := by
  induction pairs with
  | nil => exact obeys_pure ⟨rfl, .nil⟩
  | cons pair rest ih =>
    obtain ⟨request, current⟩ := pair
    obtain ⟨⟨token, period, bounds⟩, batched⟩ := List.forall_mem_cons.mp batched
    obtain ⟨here, seen⟩ := List.forall_mem_cons.mp seen
    have policy : ({ request with now := now } : Request).policy = request.policy := rfl
    refine (compute_silent _).bind fun after mutation ⟨same, returns⟩ => ?_
    subst same
    refine (strictPostgresDecisionResult_silent _).bind fun after ⟨next, answer⟩ ⟨same, stored, told⟩ => ?_
    subst same
    refine (ih batched seen).bind fun after debits ⟨same, spent⟩ => obeys_pure ⟨same, .cons ?_ spent⟩
    obtain ⟨wrapped, returns⟩ := returns
    rcases mutateState_token_cases bounds policy token rfl here with ⟨problem, failed, -⟩ | ⟨accepted, result⟩
    · cases failed.symm.trans returns
      cases stored
    · cases result.symm.trans returns
      cases stored
      cases told
      refine ⟨rfl, period, accepted, rfl, ?_⟩
      by_cases short : (availableLevel accepted).tokens < request.cost
      · exact .inr ⟨(outcome_short accepted token short).1, short⟩
      · obtain ⟨error, level⟩ := outcome_room accepted token short
        refine .inl ⟨error, ?_⟩
        have tokens : (outcome accepted).state.tokens = (availableLevel accepted).tokens - request.cost :=
          congrArg TokenLevel.tokens level
        rw [tokens, Nat.sub_add_cancel (not_lt.mp short)]

theorem writeDebits_obeys {keys : List Digest} {debits : List Debit} (count : keys.length = debits.length)
    (holds : ∀ key ∈ keys, log.Holds (guardOf (.bucket key))) :
    Obeys (manners.Kept Effect) log (writeDebits (keys.zip debits)) fun after _ => ∃ part, after = log ++ part ∧
      Within keys part ∧ (keys.Nodup → ∀ content, List.Forall₂ (Stored (part.view content)) keys debits) := by
  induction keys generalizing debits log with
  | nil =>
    cases debits with
    | nil => exact obeys_pure ⟨[], by simp, within_nil, fun _ _ => .nil⟩
    | cons => cases count
  | cons key rest ih =>
    cases debits with
    | nil => cases count
    | cons debit debits =>
      refine (compute_silent _).bind ?_
      rintro _ ttl ⟨rfl, lasts⟩
      refine (writeCell_obeys (holds key List.mem_cons_self) _).bind fun after _ same => ?_
      have first : Within [key] [(.write (.bucket key)
          (some ⟨encodeState debit.state, expiryFrom debit.state.observedMicros ttl⟩) (.ok ()) :
            Exchange database)] := by
        refine ⟨by simp [Log.Open, Exchange.ends], fun cell outside value reply written => ?_, rfl⟩
        cases List.mem_singleton.mp written
        exact outside key List.mem_cons_self rfl
      have kept : ∀ key ∈ rest, after.Holds (guardOf (.bucket key)) := fun key member => by
        rw [same]
        exact (holds key (List.mem_cons_of_mem _ member)).append first.going
      refine (ih (Nat.succ_injective count) kept).mono ?_
      rintro after _ ⟨part, rfl, within, stored⟩
      refine ⟨_ :: part, by rw [same, List.append_assoc]; rfl, first.append within, fun nodup content => ?_⟩
      obtain ⟨fresh, nodup⟩ := List.nodup_cons.mp nodup
      refine .cons ⟨ttl, lasts, ?_⟩ (stored nodup _)
      refine (within.view_of_ne (by rintro other member ⟨⟩; exact fresh member) _).trans ?_
      simp [Exchange.effect]

/-- All the rows are written, or none. -/
def DebitsSettled (keys : List Digest) (debits : List Debit)
    (answer : BatchAnswer) (loaded written : database.Content) : Prop :=
  (answer.decision.allowed = true ∧ (answer.decision.decisions = debits.map fun debit => debit.answer.decision) ∧
      (∀ debit ∈ debits, debit.answer.error = none) ∧ List.Forall₂ (Stored written) keys debits) ∨
    (answer.decision.allowed = false ∧ (∃ debit ∈ debits, debit.answer.error ≠ none) ∧ written = loaded)

theorem settleDebits_obeys (commandID : GoString) {keys : List Digest} (now : Time) {debits : List Debit}
    (count : keys.length = debits.length) (holds : ∀ key ∈ keys, log.Holds (guardOf (.bucket key))) :
    Obeys (manners.Kept Effect) log (settleDebits commandID keys now debits) fun after answer =>
      ∃ part, after = log ++ part ∧ Within keys part ∧ answer.decision.commandID = commandID ∧
        answer.error = (if answer.decision.allowed then none else some .rejected) ∧
        (keys.Nodup → ∀ content, DebitsSettled keys debits answer content (part.view content)) := by
  unfold settleDebits
  split
  · rename_i all
    simp only [List.all_eq_true, decide_eq_true_eq] at all
    refine (writeDebits_obeys count holds).bind fun after _ written => ?_
    obtain ⟨part, same, within, stored⟩ := written
    exact obeys_pure ⟨part, same, within, rfl, rfl, fun nodup content => .inl ⟨rfl, rfl, all, stored nodup content⟩⟩
  · rename_i some
    simp only [List.all_eq_true, decide_eq_true_eq, not_forall] at some
    obtain ⟨debit, member, failed⟩ := some
    refine (compute_silent _).bind fun after decisions silent => ?_
    exact obeys_pure ⟨[], by rw [silent.1, List.append_nil], within_nil, rfl, rfl,
      fun _ _ => .inr ⟨rfl, ⟨debit, member, failed⟩, rfl⟩⟩

end

/-! ## The transaction -/

/-- The time after the loop over the states is one of those it has seen. -/
theorem latestObservation_mem (now : Time) (states : List (Option PersistedState)) :
    latestObservation now states = now ∨
      ∃ state, some state ∈ states ∧ latestObservation now states = .ofUnixMicro state.observedMicros := by
  induction states generalizing now with
  | nil => exact .inl rfl
  | cons first rest ih =>
    cases first with
    | none => exact (ih now).imp_right fun ⟨state, member, same⟩ => ⟨state, .tail _ member, same⟩
    | some state =>
      rw [latestObservation]
      split
      · rcases ih (.ofUnixMicro state.observedMicros) with same | ⟨other, member, same⟩
        · exact .inr ⟨state, .head _, same⟩
        · exact .inr ⟨other, .tail _ member, same⟩
      · exact (ih now).imp_right fun ⟨other, member, same⟩ => ⟨other, .tail _ member, same⟩

section
variable {sha256 : GoString → Digest} {requests : List Request} {before : database.Content}
  {states : List (Option PersistedState)} (found : List.Forall₂ (Found sha256 observed before) requests states)
include found

theorem latest_of_found (commandID : GoString) :
    Latest sha256 ⟨commandID, requests⟩ before observed (latestObservation observed states) where
  observed_le := (le_latestObservation observed states).1
  seen_le request member state here := by
    obtain ⟨⟨position, inside⟩, rfl⟩ := List.get_of_mem member
    have same := Except.ok.inj ((found.get inside (found.length_eq ▸ inside)).symm.trans here)
    exact (le_latestObservation observed states).2 state (same ▸ List.get_mem _ _)
  least := by
    refine (latestObservation_mem observed states).imp_right fun ⟨state, member, same⟩ => ?_
    obtain ⟨⟨position, inside⟩, here⟩ := List.get_of_mem member
    have there := found.get (found.length_eq ▸ inside) inside
    rw [here] at there
    exact ⟨_, List.get_mem _ _, state, there, same⟩

theorem spent_of_found (spent : List.Forall₂ (fun pair => Spends now pair.1 pair.2) (requests.zip states) debits) :
    List.Forall₂ (fun request debit => ∃ state, Found sha256 observed before request state ∧
      Spends now request state debit)
      requests debits := by
  induction found generalizing debits with
  | nil =>
    cases spent
    exact .nil
  | cons here _ ih =>
    cases spent with
    | cons first rest => exact .cons ⟨_, here, first⟩ (ih rest)

end

section
variable (sha256 : GoString → Digest) (clock : ClockPolicy) (batch : AtomicBatchRequest)

def batchKeys : List Digest := batch.requests.map fun request => sha256 request.bucketName

/-- What a commit of a batch does, if the digests of its buckets are distinct. -/
def Commits (calls : Log database) (before after : database.Content) : Prop :=
  (batchKeys sha256 batch).Nodup → ∃ answer, AtomicEffect sha256 clock batch calls before after answer

/-- A transaction that has come to an answer, with the commit that goes with it. -/
def Answers (log : Log database) (answer : BatchAnswer) : Prop :=
  ∃ before : Log database, log = before ++ [.commit (.ok ()) true] ∧ ((batchKeys sha256 batch).Nodup →
    ∀ content, before.Heard content → AtomicEffect sha256 clock batch before content (before.view content) answer)

/-- A transaction that has found no receipt. -/
structure Unanswered (log : Log database) : Prop where
  holds : log.Holds (commandLock (sha256 batch.commandID))
  only : ∀ lock, log.Holds lock → lock = commandLock (sha256 batch.commandID)
  quiet : Within [] log
  new : ∀ content, log.Heard content → content (.command (sha256 batch.commandID)) = none

variable {sha256 clock batch} {log : Log database}

/-- The end of a transaction. -/
theorem answers_obeys (going : log.Open) (effect : (batchKeys sha256 batch).Nodup → ∀ content, log.Heard content →
      AtomicEffect sha256 clock batch log content (log.view content) answer) :
    Obeys (manners.Kept (Commits sha256 clock batch)) log (do commitStrict; pure answer)
      (Answers sha256 clock batch) := by
  refine (commitStrict_obeys going fun content heard nodup => ⟨answer, effect nodup content heard⟩).bind ?_
  intro after _ same
  exact obeys_pure ⟨log, same, effect⟩

theorem replayReceipt_obeys {row : CommandRow} (quiet : Within [] log)
    (known : ∀ content, log.Heard content → content (.command (sha256 batch.commandID)) = some row) :
    Obeys (manners.Kept (Commits sha256 clock batch)) log (replayReceipt sha256 clock batch row)
      (Answers sha256 clock batch) := by
  unfold replayReceipt
  split
  · exact obeys_throw
  · rename_i bound
    refine (compute_silent _).bind ?_
    rintro after answer ⟨rfl, decoded⟩
    cases answer with
    | error problem => exact obeys_throw
    | ok answer =>
      refine answers_obeys quiet.going fun _ content heard => ?_
      exact .replayed row (known content heard) (not_not.mp bound) decoded (quiet.view_nil content)

/-- What the parts of a first attempt come to: the rows loaded, the rows written, and the receipt. -/
theorem AtomicEffect.of_parts {calls : Log database} {before loaded written : database.Content}
    {states : List (Option PersistedState)} {debits : List Debit} {saved : AtomicBatchDecision}
    (new : before (.command (sha256 batch.commandID)) = none)
    (encoded : encodeAtomicReceipt answer.decision = some saved)
    (observes : Observes clock batch (observations calls) observed)
    (found : List.Forall₂ (Found sha256 observed before) batch.requests states)
    (spared : ∀ key ∈ batchKeys sha256 batch, Spared observed before loaded key)
    (spent : List.Forall₂ (fun pair => Spends (latestObservation observed states) pair.1 pair.2)
      (batch.requests.zip states) debits)
    (named : answer.decision.commandID = batch.commandID)
    (told : answer.error = if answer.decision.allowed then none else some .rejected)
    (others : ∀ cell, (∀ key ∈ batchKeys sha256 batch, cell ≠ .bucket key) → written cell = before cell)
    (settled : DebitsSettled (batchKeys sha256 batch) debits answer loaded written) :
    AtomicEffect sha256 clock batch calls before
      (Function.update written (.command (sha256 batch.commandID)) (some ⟨atomicIntent sha256 batch clock, some saved⟩))
      answer := by
  have each := spent_of_found found spent
  have tried : Tried sha256 clock batch calls before observed debits :=
    ⟨observes, _, latest_of_found found batch.commandID, each⟩
  have first : FirstAnswer sha256 clock batch before (Function.update written (.command (sha256 batch.commandID))
      (some ⟨atomicIntent sha256 batch clock, some saved⟩)) answer := by
    refine ⟨new, ?_, named, told, fun cell differ outside => ?_⟩
    · unfold encodeAtomicReceipt at encoded
      dsimp only at encoded
      split at encoded
      · cases encoded
      split at encoded
      · cases encoded
      · cases encoded
        exact Function.update_self ..
    · rw [Function.update_of_ne differ]
      exact others cell (List.forall_mem_map.mpr outside)
  have rows (key : Digest) : Function.update written (.command (sha256 batch.commandID))
      (some ⟨atomicIntent sha256 batch clock, some saved⟩) (.bucket key) = written (.bucket key) :=
    Function.update_of_ne (by rintro ⟨⟩) ..
  rcases settled with ⟨allowed, decisions, all, stored⟩ | ⟨denied, ⟨debit, member, failed⟩, rfl⟩
  · refine .debited observed debits first allowed tried decisions all ?_
    refine (List.forall₂_map_left_iff.mp stored).imp fun request debit here => ?_
    rwa [Stored, rows]
  · refine .rejected observed debits first denied tried ⟨debit, member, ?_⟩ fun request inside => ?_
    · obtain ⟨⟨position, inside⟩, rfl⟩ := List.get_of_mem member
      obtain ⟨_, _, _, _, _, _, ⟨none, -⟩ | ⟨rejected, -⟩⟩ := each.get (each.length_eq ▸ inside) inside
      · exact absurd none failed
      · exact rejected
    · rw [Spared, rows]
      exact spared _ (List.mem_map_of_mem inside)

end

theorem admitFirst_obeys {sha256 : GoString → Digest} {clock : ClockPolicy} (batch : ValidBatch) {log : Log database}
    (unanswered : Unanswered sha256 batch log) :
    Obeys (manners.Kept (Commits sha256 clock batch)) log
      (admitFirst sha256 clock batch) (Answers sha256 clock batch) := by
  obtain ⟨holds, only, quiet, new⟩ := unanswered
  have sorted : (((batchKeys sha256 batch).map advisoryKey).mergeSort fun a b => decide (a ≤ b)).Pairwise (· ≤ ·) := by
    refine (List.pairwise_mergeSort (fun a b c low high => ?_) (fun a b => ?_) _).imp of_decide_eq_true
    · exact decide_eq_true (le_trans (of_decide_eq_true low) (of_decide_eq_true high))
    · simpa using le_total a b
  refine (lockBuckets_obeys sorted quiet.going (by rintro _ ⟨⟩) fun lock held key _ =>
    .inl (only lock held ▸ trivial)).bind ?_
  rintro _ _ ⟨locks, rfl, locking, locked⟩
  refine (atomicTime_obeys clock batch).bind ?_
  rintro _ observed ⟨timing, asked, rfl, timed, observes⟩
  have guarded : ∀ key ∈ batchKeys sha256 batch, (log ++ locks ++ timing).Holds (guardOf (.bucket key)) :=
    fun key member =>
    (locked _ (List.mem_mergeSort.mpr (List.mem_map_of_mem member))).append timed.going
  refine (loadStates_obeys observed guarded).bind ?_
  rintro _ states ⟨loads, rfl, loading, count, loaded⟩
  rw [batchKeys, List.length_map] at count
  have seen := (le_latestObservation observed states).2
  refine (debitAll_silent (latestObservation observed states)
    (fun pair member => batch_bounds batch pair.1 (List.of_mem_zip member).1)
    fun pair member state same => seen state (same ▸ (List.of_mem_zip member).2)).bind ?_
  rintro _ debits ⟨rfl, spent⟩
  have count' : (batchKeys sha256 batch).length = debits.length := by
    rw [batchKeys, List.length_map, ← spent.length_eq, List.length_zip, count, min_self]
  refine (settleDebits_obeys batch.commandID _ count' fun key member =>
    (guarded key member).append loading.going).bind ?_
  rintro _ answer ⟨writes, rfl, writing, named, told, settled⟩
  cases encoded : encodeAtomicReceipt answer.decision with
  | none => exact obeys_throw
  | some saved =>
    have mine : (log ++ locks ++ timing ++ loads ++ writes).Holds (guardOf (.command (sha256 batch.commandID))) :=
      (((holds.append locking.going).append timed.going).append loading.going).append writing.going
    refine (writeCell_obeys mine _).bind ?_
    rintro _ _ rfl
    refine answers_obeys (Log.open_snoc.mpr ⟨mine.1, rfl⟩) fun nodup content heard => ?_
    have asks : observations (log ++ locks ++ timing ++ loads ++ writes ++ [.write (.command (sha256 batch.commandID))
        (some ⟨atomicIntent sha256 batch clock, some saved⟩) (.ok ())]) = asked := by
      have all := ((((quiet.append locking).append timed).append loading).append writing).asks
      rw [observations_append, all]
      simp [observations]
    simp only [Log.heard_append (D := database), Log.view_append (D := database), quiet.view_nil, locking.view_nil,
      timed.view_nil] at heard ⊢
    obtain ⟨⟨⟨⟨⟨first, -⟩, -⟩, heard⟩, -⟩, -⟩ := heard
    obtain ⟨loaded, spared⟩ := loaded nodup content heard
    have found : List.Forall₂ (Found sha256 observed content) batch.requests states := by
      rwa [batchKeys, List.forall₂_map_left_iff] at loaded
    refine AtomicEffect.of_parts (new content first) encoded (asks ▸ observes) found spared spent named told
      (fun cell outside => ?_) ?_
    · exact (writing.view_of_ne outside _).trans (loading.view_of_ne outside _)
    · exact settled nodup _

/-- The transaction of a batch keeps the order of locks, and commits what it would alone. -/
theorem admitAtomic_talks (sha256 : GoString → Digest) (clock : ClockPolicy) (batch : ValidBatch) :
    ∀ said ending, Talk (admitAtomic sha256 clock batch) said ending →
      Log.Allowed (manners.Kept (Commits sha256 clock batch)) [] said ∧
        ∀ answer, ending = some (.ok answer) → Answers sha256 clock batch said answer := by
  refine strictTransaction_talks (configure_obeys.bind ?_)
  rintro _ _ rfl
  refine (acquire_obeys ?_).bind ?_
  · rintro held ⟨-, now, got⟩
    simp at got
  rintro _ now rfl
  have holds : Log.Holds (D := database) ([.start (.ok ())] ++ [.configure (.ok ())] ++
      [.acquire (commandLock (sha256 batch.commandID)) (.ok now)]) (guardOf (.command (sha256 batch.commandID))) :=
    ⟨by simp [Log.Open, Exchange.ends], now, by simp [guardOf]⟩
  refine (readCell_obeys holds).bind ?_
  rintro _ row rfl
  have quiet (row : Option CommandRow) : Within [] ([.start (.ok ())] ++ [.configure (.ok ())] ++
      [.acquire (commandLock (sha256 batch.commandID)) (.ok now)] ++
        [.read (.command (sha256 batch.commandID)) (.ok row)]) :=
    ⟨by simp [Log.Open, Exchange.ends], fun _ _ _ _ => by simp, rfl⟩
  cases row with
  | some row =>
    refine replayReceipt_obeys (quiet (some row)) fun content heard => ?_
    simpa [Log.Heard, Exchange.Agrees, Exchange.effect] using heard
  | none =>
    refine admitFirst_obeys batch ⟨holds.append (by simp [Log.Open, Exchange.ends]), ?_, quiet none,
      fun content heard => ?_⟩
    · rintro lock ⟨-, _, got⟩
      simp at got
      exact got.1
    · simpa [Log.Heard, Exchange.Agrees, Exchange.effect] using heard

/-! ## Whole runs -/

/-- What the row of a command answers. -/
def CommandRow.Tells (row : CommandRow) (batch : AtomicBatchRequest) (answer : BatchAnswer) : Prop :=
  ∃ saved, row.receipt = some saved ∧
    answer = ⟨{ saved with commandID := batch.commandID }, if saved.allowed then none else some .rejected⟩

theorem tells_of_decoded {row : CommandRow} {batch : AtomicBatchRequest}
    (decoded : (decodeAtomicReceipt row.receipt batch).Returns (.ok answer)) : row.Tells batch answer := by
  unfold decodeAtomicReceipt at decoded
  cases receipt : row.receipt with
  | none =>
    rw [receipt] at decoded
    cases decoded.unique (returns_pure _)
  | some saved =>
    rw [receipt] at decoded
    refine ⟨saved, receipt, ?_⟩
    dsimp only at decoded
    split at decoded
    · cases decoded.unique (returns_pure _)
    · obtain ⟨limited, -, decoded⟩ := decoded.of_bind
      cases limited with
      | none => cases decoded.unique (returns_pure _)
      | some limited =>
        dsimp only at decoded
        split at decoded
        · rename_i allowed
          cases decoded.unique (returns_pure _)
          rw [if_pos allowed]
        · rename_i denied
          split at decoded
          · cases decoded.unique (returns_pure _)
            rw [if_neg denied]
          · cases decoded.unique (returns_pure _)

section
variable {sha256 : GoString → Digest} {clock : ClockPolicy} {batch : AtomicBatchRequest} {calls : Log database}
  {before after : database.Content} (effect : AtomicEffect sha256 clock batch calls before after answer)
include effect

theorem AtomicEffect.first_or_replayed :
    FirstAnswer sha256 clock batch before after answer ∨
      ∃ row, before (.command (sha256 batch.commandID)) = some row ∧ after = before ∧
        row.intentDigest = atomicIntent sha256 batch clock ∧ row.Tells batch answer := by
  cases effect with
  | debited _ _ first => exact .inl first
  | rejected _ _ first => exact .inl first
  | replayed row known bound decoded unchanged => exact .inr ⟨row, known, unchanged, bound, tells_of_decoded decoded⟩

/-- After a commit, the row of the command tells its answer. -/
theorem AtomicEffect.tells :
    ∃ row, after (.command (sha256 batch.commandID)) = some row ∧ row.intentDigest = atomicIntent sha256 batch clock ∧
      row.Tells batch answer := by
  rcases effect.first_or_replayed with first | ⟨row, known, rfl, bound, tells⟩
  · refine ⟨_, first.receipt, rfl, _, rfl, ?_⟩
    rw [← first.named]
    exact congrArg (BatchAnswer.mk answer.decision) first.told
  · exact ⟨row, known, bound, tells⟩

/-- Receipts stay. -/
theorem AtomicEffect.keeps (known : before (.command digest) = some row) : after (.command digest) = some row := by
  rcases effect.first_or_replayed with first | ⟨_, -, rfl, -⟩
  · rw [first.others _ (fun same => ?_) fun _ _ => by rintro ⟨⟩, known]
    cases same
    cases first.new.symm.trans known
  · exact known

end

section
variable {ι : Type} {sha256 : GoString → Digest} {clock : ClockPolicy} (batches : ι → KeyedBatch sha256)

/-- What a commit did, with an answer of the batch it was for. -/
def Effected (clock : ClockPolicy) (commit : Commit database ι) (answer : BatchAnswer) : Prop :=
  AtomicEffect sha256 clock (batches commit.agent) commit.calls commit.before commit.after answer

/-- A later commit of the same command: for the same debits, with the same answer, and
without any effect. -/
def Repeats (clock : ClockPolicy) (earlier later : Commit database ι) : Prop :=
  (batches earlier.agent).commandID = (batches later.agent).commandID →
    later.after = later.before ∧
      List.Forall₂ SameDebit (batches earlier.agent).requests (batches later.agent).requests ∧
      ∀ answer answer', Effected batches clock earlier answer → Effected batches clock later answer' → answer' = answer

/-- There are no collisions among the digests that some batches use. -/
structure Collisionless (clock : ClockPolicy) : Prop where
  commands : ∀ agent other, sha256 (batches agent).commandID = sha256 (batches other).commandID →
    (batches agent).commandID = (batches other).commandID
  buckets : ∀ agent, ∀ request ∈ (batches agent).requests, ∀ other ∈ (batches agent).requests,
    sha256 request.bucketName = sha256 other.bucketName → request.bucketName = other.bucketName
  intents : ∀ agent other, atomicIntent sha256 (batches agent) clock =
      atomicIntent sha256 (batches other) clock →
    (AtomicBatchRequest.intent (batches agent) clock).text =
      (AtomicBatchRequest.intent (batches other) clock).text

variable {batches} {first last : database.Content} {history : List (Commit database ι)}
  (effects : ∀ commit ∈ history, ∃ answer, Effected batches clock commit answer)

theorem Collisionless.nodup (apart : Collisionless batches clock) (agent : ι) :
    (batchKeys sha256 (batches agent)).Nodup := by
  obtain ⟨_, _, -, -, names⟩ := (batches agent).checked
  have keys : batchKeys sha256 (batches agent) =
      ((batches agent).requests.map Request.bucketName).map sha256 := by
    rw [List.map_map]
    rfl
  rw [keys]
  refine List.Nodup.map_on ?_ names
  simp only [List.forall_mem_map]
  exact apart.buckets agent

include effects

theorem known_throughout (linked : Linked first history last) (known : first (.command digest) = some row) :
    ∀ commit ∈ history, commit.before (.command digest) = some row := by
  induction history generalizing first with
  | nil => simp
  | cons commit rest ih =>
    obtain ⟨rfl, linked⟩ := linked
    obtain ⟨⟨_, effect⟩, effects⟩ := List.forall_mem_cons.mp effects
    exact List.forall_mem_cons.mpr ⟨known, ih effects linked (effect.keeps known)⟩

/-- Only the first commit of a command does anything. -/
theorem repeats_of_linked (apart : Collisionless batches clock) (linked : Linked first history last) :
    history.Pairwise (Repeats batches clock) := by
  induction history generalizing first with
  | nil => exact .nil
  | cons earlier rest ih =>
    obtain ⟨rfl, linked⟩ := linked
    obtain ⟨⟨answer, effect⟩, effects⟩ := List.forall_mem_cons.mp effects
    refine .cons (fun later member same => ?_) (ih effects linked)
    obtain ⟨row, known, bound, -⟩ := effect.tells
    have found := known_throughout effects linked known later member
    rw [same] at found
    have replayed {answer' : BatchAnswer} (effect' : Effected batches clock later answer') :
        later.after = later.before ∧ row.intentDigest = atomicIntent sha256 (batches later.agent) clock ∧
          row.Tells (batches later.agent) answer' := by
      rcases effect'.first_or_replayed with fresh | ⟨row', known', unchanged, bound', tells⟩
      · cases fresh.new.symm.trans found
      · cases known'.symm.trans found
        exact ⟨unchanged, bound', tells⟩
    obtain ⟨answer', effect'⟩ := effects later member
    obtain ⟨unchanged, bound', -⟩ := replayed effect'
    refine ⟨unchanged, ?_, fun one two effect effect' => ?_⟩
    · have intents := intentText_injective (List.forall_mem_map.mpr (batches earlier.agent).readable)
        (List.forall_mem_map.mpr (batches later.agent).readable) (apart.intents _ _ (bound.symm.trans bound'))
      have entries : (batches earlier.agent).requests.map Request.intent =
          (batches later.agent).requests.map Request.intent := congrArg AtomicIntent.entries intents
      rw [← List.forall₂_eq_eq_eq, List.forall₂_map_left_iff, List.forall₂_map_right_iff] at entries
      exact entries.imp fun _ _ => sameDebit_iff.mpr
    · obtain ⟨row', known', -, saved, receipt, rfl⟩ := effect.tells
      cases known'.symm.trans known
      obtain ⟨-, -, saved', receipt', rfl⟩ := replayed effect'
      cases receipt'.symm.trans receipt
      rw [same]

/-- A receipt that was not there at the start was left by the first commit of its command. -/
theorem first_of_linked (linked : Linked first history last) (new : first (.command digest) = none) :
    ∀ commit ∈ history, commit.before (.command digest) ≠ none → ∃ maker ∈ history,
      maker.before (.command digest) = none ∧ sha256 (batches maker.agent).commandID = digest := by
  induction history generalizing first with
  | nil => simp
  | cons head rest ih =>
    obtain ⟨rfl, linked⟩ := linked
    obtain ⟨⟨answer, effect⟩, effects⟩ := List.forall_mem_cons.mp effects
    refine List.forall_mem_cons.mpr ⟨fun known => absurd new known, fun commit member known => ?_⟩
    by_cases made : head.after (.command digest) = none
    · obtain ⟨maker, inside, found⟩ := ih effects linked made commit member known
      exact ⟨maker, List.mem_cons_of_mem _ inside, found⟩
    · refine ⟨head, List.mem_cons_self, new, by_contra fun other => made ?_⟩
      rcases effect.first_or_replayed with fresh | ⟨_, -, unchanged, -⟩
      · rw [fresh.others _ (by rintro ⟨⟩; exact other rfl) fun _ _ => by rintro ⟨⟩, new]
      · rw [unchanged, new]

end

theorem admitAtomicStrict_talks (sha256 : GoString → Digest) (clock : ClockPolicy) (context : ContextState)
    (batch : ValidBatch) : ∀ said ending,
    Talk (Store.admitAtomicStrict sha256 clock context batch) said ending →
      Log.Allowed (manners.Kept (Commits sha256 clock batch)) [] said ∧
        ∀ answer, ending = some (.ok answer) → Answers sha256 clock batch said answer := by
  intro said ending talk
  unfold Store.admitAtomicStrict at talk
  rw [batch.accepted] at talk
  cases live : postgresStrictContext context with
  | none =>
    rw [live] at talk
    exact admitAtomic_talks sha256 clock batch said ending talk
  | some problem =>
    rw [live] at talk
    cases talk
    exact ⟨trivial, nofun⟩

/-- Calls of `Store.AdmitAtomicStrict` in any interleaving, with any failures and any lost
acknowledgements. Their commits come one after the other, each with the effect that its batch
has alone: it debits every bucket by its cost, or none, or it repeats a receipt. Of one
command only the first commit does anything. What a call returns is the answer of its commit. -/
theorem atomic_commands_once {ι : Type} [DecidableEq ι] (sha256 : GoString → Digest) (clock : ClockPolicy)
    (contexts : ι → ContextState) (batches : ι → KeyedBatch sha256) (apart : Collisionless batches clock)
    (content : database.Content) (system : System database ι)
    (reaches : System.Reaches (fun agent =>
      Store.admitAtomicStrict sha256 clock (contexts agent) (batches agent))
        { content := content } system) :
    Linked content system.history system.content ∧
      (∀ commit ∈ system.history, ∃ answer, Effected batches clock commit answer) ∧
      system.history.Pairwise (Repeats batches clock) ∧
      (∀ commit ∈ system.history, content (.command (sha256 (batches commit.agent).commandID)) = none →
        ∃ first ∈ system.history, (batches first.agent).commandID = (batches commit.agent).commandID ∧
          first.before (.command (sha256 (batches commit.agent).commandID)) = none) ∧
      ∀ agent answer, Talk (Store.admitAtomicStrict sha256 clock (contexts agent) (batches agent))
          (system.logs agent) (some (.ok answer)) →
        ∃ commit ∈ system.history, commit.agent = agent ∧ Effected batches clock commit answer := by
  have talks := fun agent => admitAtomicStrict_talks sha256 clock (contexts agent) (batches agent)
  have sound := reaches.sound fun agent log said => said.allowed fun said ending talk =>
    (talks agent said ending talk).1
  have effects : ∀ commit ∈ system.history, ∃ answer, Effected batches clock commit answer :=
    fun commit member => sound.effects commit member (apart.nodup commit.agent)
  refine ⟨sound.linked, effects, repeats_of_linked effects apart sound.linked, fun commit member new => ?_,
    fun agent answer talk => ?_⟩
  · by_cases fresh : commit.before (.command (sha256 (batches commit.agent).commandID)) = none
    · exact ⟨commit, member, rfl, fresh⟩
    · obtain ⟨maker, inside, none, same⟩ := first_of_linked effects sound.linked new commit member fresh
      exact ⟨maker, inside, apart.commands _ _ same, none⟩
  · obtain ⟨before, log, effect⟩ := (talks agent _ _ talk).2 answer rfl
    obtain ⟨commit, member, rfl, rfl⟩ := sound.recorded agent before _ [] log
    obtain ⟨_, _, -, heard, after⟩ := sound.traced commit member
    refine ⟨commit, member, rfl, ?_⟩
    rw [Effected, after]
    exact effect (apart.nodup _) _ heard

/-! A command that is asked for twice: the first call loses its acknowledgement, and the second
comes an hour later. -/

/-- The SHA-256 digests of the command `c`, of the bucket of its request, and of its intent under
the clock of the database. -/
def commandDigest (text : GoString) : Digest := fun byte =>
  (if text = [99] then
    ([46, 125, 44, 3, 169, 80, 122, 226, 101, 236, 245, 181, 53, 104, 133, 165,
      51, 147, 162, 2, 157, 36, 19, 148, 153, 114, 101, 161, 162, 90, 239, 198] : List UInt8)
  else if text = (rawRequest 255).bucketName then
    [71, 87, 227, 187, 247, 41, 110, 11, 13, 74, 197, 161, 108, 239, 175, 48,
      90, 174, 43, 133, 37, 153, 60, 218, 177, 5, 27, 133, 229, 197, 185, 42]
  else
    [28, 144, 98, 148, 19, 196, 20, 154, 81, 200, 62, 42, 147, 46, 96, 232,
      182, 46, 203, 37, 163, 125, 175, 211, 30, 214, 96, 231, 50, 162, 228, 247]).getD byte 0

def tokenBatch : KeyedBatch commandDigest := rawBatch commandDigest 255 (by decide) rfl

abbrev oneToken : Program database (Except StoreError BatchAnswer) :=
  Store.admitAtomicStrict commandDigest .serverClock .live tokenBatch.toAtomicBatchRequest

def unacknowledged : System database Bool :=
  System.afterAll { content := emptyContent } false
    (oneToken.recite (1000000 : Int) (.error ContextState.canceled) emptyContent []).1

def retried : System database Bool :=
  unacknowledged.afterAll true (oneToken.recite (3600000000 : Int) (.ok ()) unacknowledged.content []).1

theorem reaches_retried : System.Reaches (fun _ : Bool => oneToken) { content := emptyContent } retried :=
  System.reaches_recite_next _ _ _ _ (by decide) rfl (by decide +kernel) (List.append_nil _).symm

/-- The tokens in the bucket of the request. -/
def tokensIn (content : database.Content) : Option Nat :=
  (content (.bucket (commandDigest (rawRequest 255).bucketName))).map fun row => row.state.tokens

/-- A commit that its caller takes for one that may have failed. -/
def lostCommit : Exchange database → Bool
  | .commit (.error _) applied => applied
  | _ => false

/-- Whether a caller was told that it is allowed. -/
def toldAllowed : Option (Except StoreError BatchAnswer) → Bool
  | some (.ok answer) => answer.decision.allowed
  | _ => false

theorem toldAllowed_answer {result : Option (Except StoreError BatchAnswer)}
    (told : toldAllowed result = true) : ∃ answer, result = some (.ok answer) ∧ answer.decision.allowed = true := by
  rcases result with _ | (_ | answer)
  · cases told
  · cases told
  · exact ⟨answer, rfl, told⟩

/-- One of five tokens is taken, once, though the first caller never hears of it and the second
one is told so. -/
theorem atomic_commands_once_retried :
    (retried.history.map fun commit => (commit.agent, tokensIn commit.before, tokensIn commit.after)) =
        [(false, none, some 4), (true, some 4, some 4)] ∧
      (retried.logs false).any lostCommit = true ∧
      retried.history.Pairwise (Repeats (fun _ => tokenBatch) .serverClock) ∧
      ∃ answer, Talk oneToken (retried.logs true) (some (.ok answer)) ∧ answer.decision.allowed = true ∧
        ∃ commit ∈ retried.history, commit.agent = true ∧
          Effected (fun _ => tokenBatch) .serverClock commit answer := by
  have apart : Collisionless (fun _ : Bool => tokenBatch) .serverClock := by
    refine ⟨fun _ _ _ => rfl, fun _ request inside other inside' _ => ?_, fun _ _ _ => rfl⟩
    rw [List.mem_singleton.mp inside, List.mem_singleton.mp inside']
  obtain ⟨-, -, repeats, -, answered⟩ := atomic_commands_once commandDigest .serverClock (fun _ => .live) _ apart
    emptyContent retried reaches_retried
  have talk := recite_talks (3600000000 : Int) (.ok ()) oneToken unacknowledged.content []
  obtain ⟨answer, ended, allowed⟩ : ∃ answer,
      (oneToken.recite (3600000000 : Int) (.ok ()) unacknowledged.content []).2 = some (.ok answer) ∧
        answer.decision.allowed = true := toldAllowed_answer (by decide +kernel)
  have said : retried.logs true = (oneToken.recite (3600000000 : Int) (.ok ()) unacknowledged.content []).1 := by
    simp [retried, unacknowledged, System.logs_afterAll]
  rw [ended, ← said] at talk
  exact ⟨by decide +kernel, by decide +kernel, repeats, answer, talk, allowed, answered true answer talk⟩

end RateLimit.Postgres
