import RateLimit.Conversation
import RateLimit.LeaseStore

/-! Rules for the strict transactions. Every strict operation is a transaction whose body
ends in a commit. The rules for conversations say of each part of a body that it stays
inside the transaction and fails with an error that is known before the commit; the frame
turns this into the three classes of outcomes: answered after an acknowledged commit,
refused after a rollback, unknown otherwise. -/
namespace RateLimit.Postgres

open Machine Program

/-! ## The parts of a body -/

/-- The errors that every strict operation can report before its commit. -/
inductive Direct : StoreError → Prop where
  | canceled : Direct .canceled
  | deadline : Direct .deadline
  | unavailable : Direct (.sentinel .unavailable)
  | overflow : Direct (.sentinel .overflow)
  | corrupt : Direct (.sentinel .corrupt)

theorem direct_driver (context : ContextState) : Direct (postgresPrecommitCategory (.driver context)) := by
  cases context with
  | live => exact .unavailable
  | canceled => exact .canceled
  | expired => exact .deadline

section
variable {Heard : Exchange database → Prop} {Known : StoreError → Prop}
  (known : ∀ problem, Direct problem → Known problem)
include known

/-- A statement returns what the database replies, or fails before the commit. -/
theorem statement_meets {program : Program database (Except ContextState α)} {Post : α → Prop}
    (single : ∀ log ending, Talk program log ending → (∀ exchange ∈ log, Heard exchange) →
      (∀ exchange ∈ log, exchange.Inside) ∧ ∃ reply, ending = some reply ∧ ∀ value, reply = .ok value → Post value) :
    Meets Heard Known (statement program) Post := by
  intro log ending talk heard
  change Talk (program >>= _) log ending at talk
  rcases talk.split with ⟨-, panics⟩ | ⟨reply, before, after, rfl, left, right⟩
  · obtain ⟨-, _, impossible, -⟩ := single _ _ panics heard
    cases impossible
  · obtain ⟨inside, _, same, holds⟩ := single _ _ left (List.forall_mem_append.mp heard).1
    cases same
    cases reply with
    | ok value =>
      cases right
      rw [List.append_nil]
      exact ⟨inside, Or.inl ⟨value, rfl, holds value rfl⟩⟩
    | error context =>
      cases right
      rw [List.append_nil]
      exact ⟨inside, Or.inr ⟨_, rfl, known _ (direct_driver context)⟩⟩

theorem configure_meets : Meets Heard Known (statement (.configure .done)) fun _ => True := by
  apply statement_meets known
  intro log ending talk _
  cases talk with
  | configure reply talk =>
    cases talk
    exact ⟨by simp [Exchange.Inside], _, rfl, fun _ _ => trivial⟩

theorem acquire_meets (lock : Lock) : Meets Heard Known (statement (.acquire lock .done)) fun _ => True := by
  apply statement_meets known
  intro log ending talk _
  cases talk with
  | acquire _ reply talk =>
    cases talk
    exact ⟨by simp [Exchange.Inside], _, rfl, fun _ _ => trivial⟩

theorem observe_meets : Meets Heard Known (statement (.observe .done)) fun _ => True := by
  apply statement_meets known
  intro log ending talk _
  cases talk with
  | observe reply talk =>
    cases talk
    exact ⟨by simp [Exchange.Inside], _, rfl, fun _ _ => trivial⟩

/-- What is read is what was heard. -/
theorem readCell_meets (cell : Cell) :
    Meets Heard Known (readCell cell) fun value => Heard (.read cell (.ok value)) := by
  apply statement_meets known
  intro log ending talk heard
  cases talk with
  | read _ reply talk =>
    cases talk
    refine ⟨by simp [Exchange.Inside], _, rfl, ?_⟩
    rintro value rfl
    exact heard _ List.mem_cons_self

theorem writeCell_meets (cell : Cell) (value : database.Value cell) :
    Meets Heard Known (writeCell cell value) fun _ => True := by
  apply statement_meets known
  intro log ending talk _
  cases talk with
  | write _ _ reply talk =>
    cases talk
    exact ⟨by simp [Exchange.Inside], _, rfl, fun _ _ => trivial⟩

theorem beginLockedStrict_meets (key : Digest) : Meets Heard Known (beginLockedStrict key) fun _ => True :=
  (configure_meets known).bind fun _ _ => acquire_meets known _

theorem loadStateStrict_meets (key : Digest) (now : Time) :
    Meets Heard Known (loadStateStrict key now) fun _ => True := by
  apply (readCell_meets known _).bind
  intro row _
  cases row with
  | none => exact meets_pure trivial
  | some row =>
    dsimp only
    split
    · exact meets_throw (known _ .corrupt)
    split
    · cases decodeState row.state with
      | ok state => exact meets_pure trivial
      | error cause => exact meets_throw (known _ .corrupt)
    · exact (writeCell_meets known _ _).bind fun _ _ => meets_pure trivial

theorem loadStateForReleaseStrict_meets (key : Digest) :
    Meets Heard Known (loadStateForReleaseStrict key) fun _ => True := by
  apply (readCell_meets known _).bind
  intro row _
  cases row with
  | none => exact meets_pure trivial
  | some row =>
    dsimp only
    split
    · exact meets_throw (known _ .corrupt)
    · cases decodeState row.state with
      | ok state => exact meets_pure trivial
      | error cause => exact meets_throw (known _ .corrupt)

end

theorem compute_meets {Heard : Exchange database → Prop} {Known : StoreError → Prop} {machine : Machine α}
    {Post : α → Prop} (yields : machine.Yields Post) : Meets Heard Known (compute machine) Post := meets_lift yields

/-! ## Mutations -/

/-- An error that a caller can be told after the commit. -/
def Answered (error : Option Sentinel) : Prop := error = none ∨ error = some .rejected

/-- What a mutation hands to the checks behind it: nothing with an error, or a state
with an answer. -/
def Decided (mutation : Mutation) : Prop :=
  (∃ problem, mutation.error = some problem ∧ Direct (.sentinel problem)) ∨
    (∃ next, mutation.next = some next) ∧ Answered mutation.error

section
variable {Heard : Exchange database → Prop} {Known : StoreError → Prop}
  (known : ∀ problem, Direct problem → Known problem)
include known

/-- The checks behind a mutation pass its state and its answer on. -/
theorem strictPostgresDecisionResult_meets (decided : Decided mutation) :
    Meets Heard Known (strictPostgresDecisionResult mutation) fun result =>
      mutation.next = some result.1 ∧ result.2 = ⟨mutation.decision, mutation.error⟩ ∧ Answered mutation.error := by
  unfold strictPostgresDecisionResult
  rcases decided with ⟨problem, failed, fatal⟩ | ⟨⟨next, stored⟩, answered⟩
  · rw [failed]
    cases fatal with
    | unavailable => exact meets_throw (known _ .unavailable)
    | overflow => exact meets_throw (known _ .overflow)
    | corrupt => exact meets_throw (known _ .corrupt)
  · rw [stored]
    rcases id answered with error | error
    all_goals
      rw [error] at answered ⊢
      dsimp only
      split
      · rename_i problem late
        unfold validateStrictDecisionTime at late
        split at late
        · cases late
          exact meets_throw (known _ .corrupt)
        · cases late
      · exact meets_pure ⟨rfl, rfl, answered⟩

/-- The authoritative time is in range. -/
theorem authoritativeTime_meets {request : Request} (bounds : request.Bounds period) (clock : ClockPolicy)
    (serverNow : Int) :
    Meets Heard Known (authoritativeTime clock request request.policy.period serverNow)
      fun timed => timed.policy = request.policy ∧ timed.Bounds period := by
  cases clock with
  | clientClock => exact meets_pure ⟨rfl, bounds⟩
  | serverClock =>
    have small : period ≤ 9223372036854775 := bounds.period_le.trans (by decide)
    unfold authoritativeTime
    dsimp only
    rw [bounds.period_eq, validateServerClockRange_exact _ bounds.period_pos small]
    apply (compute_meets (yields_pure (show _ = _ from rfl))).bind
    rintro _ rfl
    split
    · rename_i problem outside
      split at outside
      · cases outside
      · cases outside
        exact meets_throw (known _ .overflow)
    · rename_i inside
      split at inside
      · rename_i range
        exact meets_pure ⟨rfl, { bounds with not_before := range.1, room := range.2 }⟩
      · cases inside

end

theorem mutateState_decided {request : Request} (kind : request.policy.algorithm.IsRate)
    (bounds : request.Bounds period) (current : Option PersistedState) :
    (mutateState current request).Yields Decided := by
  rcases mutateState_cases kind bounds current with ⟨overflow, -⟩ | ⟨corrupt, -⟩ | ⟨accepted, result⟩
  · exact ⟨_, returns_of_eq overflow, Or.inl ⟨.overflow, rfl, .overflow⟩⟩
  · exact ⟨_, returns_of_eq corrupt, Or.inl ⟨.corrupt, rfl, .corrupt⟩⟩
  · exact ⟨_, returns_of_eq result, Or.inr ⟨⟨_, rfl⟩, outcome_error accepted⟩⟩

theorem postgresStateTTL_yields (duration : Duration) : (postgresStateTTL duration).Yields fun _ => True := by
  unfold postgresStateTTL
  split
  · exact yields_pure trivial
  · exact (i64_yields _).bind fun _ _ => yields_pure trivial

theorem tokenDuration_yields (tokens remainder : Nat) (policy : Policy) :
    (tokenDuration tokens remainder policy).Yields fun _ => True := by
  obtain ⟨duration, returns⟩ := tokenDuration_returns tokens remainder policy
  exact ⟨duration, returns, trivial⟩

theorem postgresAdmissionTTL_yields (policy : Policy) : (postgresAdmissionTTL policy).Yields fun _ => True := by
  apply (postgresStateTTL_yields _).bind
  intro ttl _
  split
  · exact (tokenDuration_yields _ _ _).bind fun _ _ => yields_pure trivial
  · exact yields_pure trivial

/-! ## Transactions -/

/-- As long as the replies are as in `Heard`, a body ends in its commit, or with an error
that is known before it. -/
def Settles (Heard : Exchange database → Prop) (Known : StoreError → Prop) (body : Call α) (Post : α → Prop) : Prop :=
  ∀ log ending, Talk body.run log ending → (∀ exchange ∈ log, Heard exchange) →
    ∃ inside : List (Exchange database), (∀ exchange ∈ inside, exchange.Inside) ∧
      ((∃ value, ending = some (.ok value) ∧ Post value ∧ log = inside ++ [.commit (.ok ()) true]) ∨
        (∃ problem, ending = some (.error problem) ∧ Known problem ∧ log = inside) ∨
        ∃ context failure applied, ending = some (.error (.unknown context)) ∧
          log = inside ++ [.commit (.error failure) applied])

section
variable {Heard : Exchange database → Prop} {Known : StoreError → Prop}

theorem settles_commit : Settles Heard Known commitStrict fun _ => True := by
  intro log ending talk _
  cases talk with
  | commit reply applied told talk =>
    refine ⟨[], by simp, ?_⟩
    cases reply with
    | ok value =>
      cases talk
      obtain rfl := told rfl
      exact Or.inl ⟨(), rfl, trivial, rfl⟩
    | error context =>
      cases talk
      exact Or.inr (Or.inr ⟨context, context, applied, rfl, rfl⟩)

theorem settles_throw {Post : α → Prop} (known : Known problem) :
    Settles Heard Known (throw problem : Call α) Post := by
  intro log ending talk _
  cases talk
  exact ⟨[], by simp, Or.inr (Or.inl ⟨problem, rfl, known, rfl⟩)⟩

/-- The value of a body is handed on after the commit. -/
theorem Settles.map {body : Call α} {Less : α → Prop} {More : β → Prop} (settles : Settles Heard Known body Less)
    (f : α → β) (implies : ∀ value, Less value → More (f value)) :
    Settles Heard Known (body >>= fun value => pure (f value)) More := by
  intro log ending talk heard
  rw [ExceptT.run_bind] at talk
  rcases talk.split with ⟨-, panics⟩ | ⟨result, before, after, rfl, left, right⟩
  · obtain ⟨_, -, ⟨_, impossible, -⟩ | ⟨_, impossible, -⟩ | ⟨_, _, _, impossible, -⟩⟩ := settles _ _ panics heard
    all_goals cases impossible
  · obtain ⟨inside, stays, ⟨value, same, holds, shape⟩ | ⟨problem, same, known, shape⟩ |
      ⟨context, failure, applied, same, shape⟩⟩ := settles _ _ left (List.forall_mem_append.mp heard).1
    all_goals
      cases same
      cases right
      rw [List.append_nil]
    · exact ⟨inside, stays, Or.inl ⟨f value, rfl, implies value holds, shape⟩⟩
    · exact ⟨inside, stays, Or.inr (Or.inl ⟨problem, rfl, known, shape⟩)⟩
    · exact ⟨inside, stays, Or.inr (Or.inr ⟨context, failure, applied, rfl, shape⟩)⟩

/-- The parts before the commit. -/
theorem Settles.after {call : Call α} {rest : α → Call β} {Mid : α → Prop} {Post : β → Prop}
    (first : Meets Heard Known call Mid) (second : ∀ value, Mid value → Settles Heard Known (rest value) Post) :
    Settles Heard Known (call >>= rest) Post := by
  intro log ending talk heard
  rw [ExceptT.run_bind] at talk
  rcases talk.split with ⟨-, panics⟩ | ⟨result, before, after, rfl, left, right⟩
  · obtain ⟨-, ⟨_, impossible, -⟩ | ⟨_, impossible, -⟩⟩ := first _ _ panics heard
    all_goals cases impossible
  · rw [List.forall_mem_append] at heard
    obtain ⟨stays, ⟨value, same, holds⟩ | ⟨problem, same, known⟩⟩ := first _ _ left heard.1
    · cases same
      obtain ⟨inside, later, ends⟩ := second value holds _ _ right heard.2
      refine ⟨before ++ inside, List.forall_mem_append.mpr ⟨stays, later⟩, ?_⟩
      simp only [List.append_assoc, List.append_cancel_left_eq]
      exact ends
    · cases same
      cases right
      exact ⟨before, stays, Or.inr (Or.inl ⟨problem, rfl, known, List.append_nil _⟩)⟩

end

/-- Nothing of the transaction lasts: it was not committed, and was rolled back once. -/
def RolledBack (log : List (Exchange database)) : Prop :=
  log.filter Exchange.isCommit = [] ∧ log.filter Exchange.isRollback = [.rollback (.ok ())] ∧
    log.any Exchange.persists = false

theorem rolledBack_inside {inside : List (Exchange database)} (stays : ∀ exchange ∈ inside, exchange.Inside) :
    RolledBack (.start (.ok ()) :: inside ++ [.rollback (.ok ())]) := by
  have commits : inside.filter Exchange.isCommit = [] :=
    List.filter_eq_nil_iff.mpr fun exchange member => by simp [(stays exchange member).not_commit]
  have rollbacks : inside.filter Exchange.isRollback = [] :=
    List.filter_eq_nil_iff.mpr fun exchange member => by simp [(stays exchange member).not_rollback]
  have persists : ∀ exchange ∈ inside, exchange.persists = false := by
    intro exchange member
    have here := stays exchange member
    cases exchange <;> first | rfl | cases here
  refine ⟨?_, ?_, ?_⟩
  · simp [commits, Exchange.isCommit]
  · simp [rollbacks, Exchange.isRollback]
  · simp only [List.cons_append, List.any_cons, List.any_append, List.any_nil, Exchange.persists, Bool.or_false,
      Bool.false_or, List.any_eq_false, Bool.not_eq_true]
    exact persists

/-- The three ways a strict operation ends: with an answer and an acknowledged commit,
with an error and a rollback, or unknown. -/
def Ends (Known : StoreError → Prop) (log : List (Exchange database)) (ending : Option (Except StoreError α))
    (Post : α → Prop) : Prop :=
  (∃ value, ending = some (.ok value) ∧ Post value ∧ .commit (.ok ()) true ∈ log) ∨
    (∃ problem, ending = some (.error problem) ∧ Known problem ∧ RolledBack log) ∨
    ∃ context, ending = some (.error (.unknown context))

/-- The frame of every strict operation sorts its outcomes. -/
theorem strictTransaction_ends {Heard : Exchange database → Prop} {Known : StoreError → Prop} {body : Call α}
    {Post : α → Prop} (settles : Settles Heard Known body Post) (talk : Talk (strictTransaction body) log ending)
    (heard : ∀ exchange ∈ log, Heard exchange) : Ends Known log ending Post := by
  cases talk with
  | start reply talk =>
    cases reply with
    | error context =>
      cases talk
      exact Or.inr (Or.inr ⟨context, rfl⟩)
    | ok value =>
      rcases talk.split with ⟨-, panics⟩ | ⟨result, before, after, rfl, left, right⟩
      · obtain ⟨_, -, ⟨_, impossible, -⟩ | ⟨_, impossible, -⟩ | ⟨_, _, _, impossible, -⟩⟩ := settles _ _ panics
          (List.forall_mem_cons.mp heard).2
        all_goals cases impossible
      · obtain ⟨inside, stays, ⟨value, same, holds, rfl⟩ | ⟨problem, same, known, rfl⟩ |
          ⟨context, failure, applied, same, rfl⟩⟩ :=
          settles _ _ left (List.forall_mem_append.mp (List.forall_mem_cons.mp heard).2).1
        all_goals cases same
        · cases right
          exact Or.inl ⟨value, rfl, holds, by simp⟩
        · cases right with
          | rollback reply right =>
            cases reply with
            | ok value =>
              cases right
              exact Or.inr (Or.inl ⟨problem, rfl, known, rolledBack_inside stays⟩)
            | error context =>
              cases right
              exact Or.inr (Or.inr ⟨context, rfl⟩)
        · cases right with
          | rollback reply right =>
            cases reply with
            | ok value =>
              cases right
              exact Or.inr (Or.inr ⟨context, rfl⟩)
            | error context =>
              cases right
              exact Or.inr (Or.inr ⟨context, rfl⟩)

theorem Settles.ends {Known : StoreError → Prop} {body : Call α} {Post : α → Prop}
    (settles : Settles (fun _ => True) Known body Post) (talk : Talk (strictTransaction body) log ending) :
    Ends Known log ending Post :=
  strictTransaction_ends settles talk fun _ _ => trivial

end RateLimit.Postgres
