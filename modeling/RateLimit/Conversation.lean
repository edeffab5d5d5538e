import RateLimit.Transaction

/-! Everything a program and its database may say to each other. A conversation takes
one reply after the other, each of them any reply of its kind, and records the calls;
the rules below carry a postcondition through the parts of a program, whatever the
replies are. -/
namespace RateLimit

variable {D : Database} {α β ε : Type}

/-- A call and its reply. A commit that is not acknowledged may still be `applied`. -/
inductive Exchange (D : Database) where
  | start (reply : Except D.Failure Unit)
  | configure (reply : Except D.Failure Unit)
  | acquire (lock : D.Lock) (reply : Except D.Failure D.Clock)
  | observe (reply : Except D.Failure D.Clock)
  | read (cell : D.Cell) (reply : Except D.Failure (D.Value cell))
  | write (cell : D.Cell) (value : D.Value cell) (reply : Except D.Failure Unit)
  | commit (reply : Except D.Failure Unit) (applied : Bool)
  | rollback (reply : Except D.Failure Unit)

namespace Exchange

/-- A call between the start and the end of a transaction. -/
def Inside : Exchange D → Prop
  | .start _ | .commit _ _ | .rollback _ => False
  | _ => True

def isCommit : Exchange D → Bool
  | .commit _ _ => true
  | _ => false

def isRollback : Exchange D → Bool
  | .rollback _ => true
  | _ => false

/-- The call that makes the changes of a transaction last. -/
def persists : Exchange D → Bool
  | .commit _ applied => applied
  | _ => false

theorem Inside.not_commit {exchange : Exchange D} (inside : exchange.Inside) : exchange.isCommit = false := by
  cases exchange <;> first | rfl | cases inside

theorem Inside.not_rollback {exchange : Exchange D} (inside : exchange.Inside) : exchange.isRollback = false := by
  cases exchange <;> first | rfl | cases inside

end Exchange

namespace Program

/-- A conversation of a program that ends with a result, or with `none` in a panic. -/
inductive Talk : Program D α → List (Exchange D) → Option α → Prop where
  | done (result : α) : Talk (.done result) [] (some result)
  | panic : Talk .panic [] none
  | wrapped : Talk rest log ending → Talk (.wrapped rest) log ending
  | start {next} (reply) : Talk (next reply) log ending → Talk (.start next) (.start reply :: log) ending
  | configure {next} (reply) :
    Talk (next reply) log ending → Talk (.configure next) (.configure reply :: log) ending
  | acquire {next} (lock) (reply) :
    Talk (next reply) log ending → Talk (.acquire lock next) (.acquire lock reply :: log) ending
  | observe {next} (reply) : Talk (next reply) log ending → Talk (.observe next) (.observe reply :: log) ending
  | read (cell : D.Cell) {next : Except D.Failure (D.Value cell) → Program D α} (reply) :
    Talk (next reply) log ending → Talk (.read cell next) (.read cell reply :: log) ending
  | write {next} (cell) (value) (reply) :
    Talk (next reply) log ending → Talk (.write cell value next) (.write cell value reply :: log) ending
  | commit {next} (reply) (applied : Bool) (told : reply = .ok () → applied = true) :
    Talk (next reply) log ending → Talk (.commit next) (.commit reply applied :: log) ending
  | rollback {next} (reply) : Talk (next reply) log ending → Talk (.rollback next) (.rollback reply :: log) ending

/-- A conversation of two programs in a row is one of the first and then one of the
second, unless the first panics. -/
def SplitTalk (program : Program D α) (rest : α → Program D β) (log : List (Exchange D)) (ending : Option β) : Prop :=
  (ending = none ∧ Talk program log none) ∨
    ∃ value first second, log = first ++ second ∧ Talk program first (some value) ∧ Talk (rest value) second ending

theorem SplitTalk.cons {next program : Program D α} {rest : α → Program D β} {exchange : Exchange D}
    (split : SplitTalk next rest log ending)
    (talks : ∀ log ending, Talk next log ending → Talk program (exchange :: log) ending) :
    SplitTalk program rest (exchange :: log) ending := by
  rcases split with ⟨none, panics⟩ | ⟨value, first, second, rfl, left, right⟩
  · exact Or.inl ⟨none, talks _ _ panics⟩
  · exact Or.inr ⟨value, _ :: first, second, rfl, talks _ _ left, right⟩

theorem Talk.split {program : Program D α} {rest : α → Program D β}
    (talk : Talk (program >>= rest) log ending) : SplitTalk program rest log ending := by
  change Talk (program.andThen rest) log ending at talk
  induction program generalizing log with
  | done result => exact Or.inr ⟨result, [], log, rfl, .done result, talk⟩
  | panic =>
    cases talk
    exact Or.inl ⟨rfl, .panic⟩
  | wrapped program ih =>
    cases talk with
    | wrapped talk =>
      rcases ih talk with ⟨none, panics⟩ | ⟨value, first, second, same, left, right⟩
      · exact Or.inl ⟨none, .wrapped panics⟩
      · exact Or.inr ⟨value, first, second, same, .wrapped left, right⟩
  | start next ih =>
    cases talk with
    | start reply talk => exact (ih reply talk).cons fun _ _ => .start reply
  | configure next ih =>
    cases talk with
    | configure reply talk => exact (ih reply talk).cons fun _ _ => .configure reply
  | acquire lock next ih =>
    cases talk with
    | acquire _ reply talk => exact (ih reply talk).cons fun _ _ => .acquire lock reply
  | observe next ih =>
    cases talk with
    | observe reply talk => exact (ih reply talk).cons fun _ _ => .observe reply
  | read cell next ih =>
    cases talk with
    | read _ reply talk => exact (ih reply talk).cons fun _ _ => .read cell reply
  | write cell stored next ih =>
    cases talk with
    | write _ _ reply talk => exact (ih reply talk).cons fun _ _ => .write cell stored reply
  | commit next ih =>
    cases talk with
    | commit reply applied told talk => exact (ih reply talk).cons fun _ _ => .commit reply applied told
  | rollback next ih =>
    cases talk with
    | rollback reply talk => exact (ih reply talk).cons fun _ _ => .rollback reply

/-! ## Parts of a transaction -/

/-- As long as the replies are as in `Heard`, a part of a transaction stays inside it,
does not panic, and returns a value in `Post` or an error in `Known`. -/
def Meets (Heard : Exchange D → Prop) (Known : ε → Prop) (call : ExceptT ε (Program D) α) (Post : α → Prop) : Prop :=
  ∀ log ending, Talk call.run log ending → (∀ exchange ∈ log, Heard exchange) →
    (∀ exchange ∈ log, exchange.Inside) ∧
      ((∃ value, ending = some (.ok value) ∧ Post value) ∨
        ∃ problem, ending = some (.error problem) ∧ Known problem)

variable {Heard : Exchange D → Prop} {Known : ε → Prop}

theorem meets_pure {Post : α → Prop} (holds : Post value) :
    Meets Heard Known (pure value : ExceptT ε (Program D) α) Post := by
  intro log ending talk _
  cases talk
  exact ⟨by simp, Or.inl ⟨value, rfl, holds⟩⟩

theorem meets_throw {Post : α → Prop} (known : Known problem) :
    Meets Heard Known (throw problem : ExceptT ε (Program D) α) Post := by
  intro log ending talk _
  cases talk
  exact ⟨by simp, Or.inr ⟨problem, rfl, known⟩⟩

theorem Meets.mono {call : ExceptT ε (Program D) α} {Mid Post : α → Prop} (meets : Meets Heard Known call Mid)
    (implies : ∀ value, Mid value → Post value) : Meets Heard Known call Post := fun log ending talk heard =>
  (meets log ending talk heard).imp_right (Or.imp_left fun ⟨value, same, holds⟩ => ⟨value, same, implies value holds⟩)

theorem Meets.bind {call : ExceptT ε (Program D) α} {rest : α → ExceptT ε (Program D) β} {Mid : α → Prop}
    {Post : β → Prop} (first : Meets Heard Known call Mid)
    (second : ∀ value, Mid value → Meets Heard Known (rest value) Post) :
    Meets Heard Known (call >>= rest) Post := by
  intro log ending talk heard
  rw [ExceptT.run_bind] at talk
  rcases talk.split with ⟨-, panics⟩ | ⟨result, before, after, rfl, left, right⟩
  · obtain ⟨-, ⟨_, impossible, -⟩ | ⟨_, impossible, -⟩⟩ := first _ _ panics heard
    all_goals cases impossible
  · rw [List.forall_mem_append] at heard
    obtain ⟨inside, ⟨value, same, holds⟩ | ⟨problem, same, known⟩⟩ := first _ _ left heard.1
    · cases same
      obtain ⟨later, ends⟩ := second value holds _ _ right heard.2
      exact ⟨List.forall_mem_append.mpr ⟨inside, later⟩, ends⟩
    · cases same
      cases right
      rw [List.append_nil]
      exact ⟨inside, Or.inr ⟨problem, rfl, known⟩⟩

theorem meets_lift {machine : Machine α} {Post : α → Prop} (yields : machine.Yields Post) :
    Meets Heard Known (ExceptT.lift (Program.lift machine) : ExceptT ε (Program D) α) Post := by
  obtain ⟨value, ⟨wrapped, rfl⟩, holds⟩ := yields
  intro log ending talk _
  cases wrapped with
  | false =>
    cases talk
    exact ⟨by simp, Or.inl ⟨value, rfl, holds⟩⟩
  | true =>
    cases talk with
    | wrapped talk =>
      cases talk
      exact ⟨by simp, Or.inl ⟨value, rfl, holds⟩⟩

end Program

end RateLimit
