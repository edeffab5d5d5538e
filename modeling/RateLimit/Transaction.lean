import RateLimit.GoRuntime
import Mathlib.Logic.Function.Basic

/-! Programs that talk to a transactional database. A program is the tree of its
calls: after each call it goes on with the reply, which may be a failure at any
point. The database itself is abstract: named locks, cells with typed values, and a
clock. `alone` runs a program with nobody else around and every call successful; it
is what a sequence of calls on an undisturbed database observes. -/
namespace RateLimit

/-- What a program and its database exchange. -/
structure Database where
  Lock : Type
  Cell : Type
  Value : Cell → Type
  Clock : Type
  Failure : Type

/-- The value of every cell. -/
abbrev Database.Content (D : Database) : Type := ∀ cell, D.Value cell

/-- A program by the call it makes next. `configure` stands for statements that
touch neither locks nor cells. -/
inductive Program (D : Database) (α : Type) : Type where
  | done (result : α)
  | wrapped (rest : Program D α)
  | panic
  | start (next : Except D.Failure Unit → Program D α)
  | configure (next : Except D.Failure Unit → Program D α)
  | acquire (lock : D.Lock) (next : Except D.Failure D.Clock → Program D α)
  | observe (next : Except D.Failure D.Clock → Program D α)
  | read (cell : D.Cell) (next : Except D.Failure (D.Value cell) → Program D α)
  | write (cell : D.Cell) (value : D.Value cell) (next : Except D.Failure Unit → Program D α)
  | commit (next : Except D.Failure Unit → Program D α)
  | rollback (next : Except D.Failure Unit → Program D α)

namespace Program

variable {D : Database} {α β γ ε : Type}

/-- Run one program and go on with its result. -/
def andThen : Program D α → (α → Program D β) → Program D β
  | .done result, rest => rest result
  | .wrapped program, rest => .wrapped (program.andThen rest)
  | .panic, _ => .panic
  | .start next, rest => .start fun reply => (next reply).andThen rest
  | .configure next, rest => .configure fun reply => (next reply).andThen rest
  | .acquire lock next, rest => .acquire lock fun reply => (next reply).andThen rest
  | .observe next, rest => .observe fun reply => (next reply).andThen rest
  | .read cell next, rest => .read cell fun reply => (next reply).andThen rest
  | .write cell value next, rest => .write cell value fun reply => (next reply).andThen rest
  | .commit next, rest => .commit fun reply => (next reply).andThen rest
  | .rollback next, rest => .rollback fun reply => (next reply).andThen rest

instance : Monad (Program D) where
  pure := .done
  bind := andThen

theorem andThen_done (program : Program D α) : program.andThen .done = program := by
  induction program with
  | done | panic => rfl
  | wrapped rest ih => exact congrArg Program.wrapped ih
  | start _ ih | configure _ ih | observe _ ih | commit _ ih | rollback _ ih => simp only [andThen, ih]
  | acquire _ _ ih | read _ _ ih | write _ _ _ ih => simp only [andThen, ih]

theorem andThen_assoc (program : Program D α) (middle : α → Program D β) (last : β → Program D γ) :
    (program.andThen middle).andThen last = program.andThen fun result => (middle result).andThen last := by
  induction program with
  | done | panic => rfl
  | wrapped rest ih => exact congrArg Program.wrapped ih
  | start _ ih | configure _ ih | observe _ ih | commit _ ih | rollback _ ih => simp only [andThen, ih]
  | acquire _ _ ih | read _ _ ih | write _ _ _ ih => simp only [andThen, ih]

instance : LawfulMonad (Program D) := LawfulMonad.mk' (Program D)
  (by intro α program; exact andThen_done program)
  (by intro α β value rest; rfl)
  (by intro α β γ program middle last; exact andThen_assoc program middle last)

/-- Machine arithmetic inside a program. -/
def lift : Machine α → Program D α
  | .done value false => .done value
  | .done value true => .wrapped (.done value)
  | .panic => .panic

@[simp] theorem lift_pure (value : α) : (lift (pure value) : Program D α) = pure value := rfl

/-! ## Undisturbed runs -/

/-- The content that is committed, and what the open transaction sees. -/
@[ext] structure Session (D : Database) where
  stored : D.Content
  working : D.Content

variable [DecidableEq D.Cell]

/-- Run a program with every call successful and the clock standing at `now`. -/
def alone (now : D.Clock) : Program D α → Session D → Machine (α × Session D)
  | .done result, session => pure (result, session)
  | .wrapped rest, session => do
    let result ← rest.alone now session
    .done result true
  | .panic, _ => .panic
  | .start next, session => (next (.ok ())).alone now ⟨session.stored, session.stored⟩
  | .configure next, session => (next (.ok ())).alone now session
  | .acquire _ next, session => (next (.ok now)).alone now session
  | .observe next, session => (next (.ok now)).alone now session
  | .read cell next, session => (next (.ok (session.working cell))).alone now session
  | .write cell value next, session =>
    (next (.ok ())).alone now { session with working := Function.update session.working cell value }
  | .commit next, session => (next (.ok ())).alone now ⟨session.working, session.working⟩
  | .rollback next, session => (next (.ok ())).alone now ⟨session.stored, session.stored⟩

@[simp] theorem alone_pure (now : D.Clock) (result : α) (session : Session D) :
    (pure result : Program D α).alone now session = pure (result, session) := rfl

theorem alone_bind (now : D.Clock) (program : Program D α) (rest : α → Program D β) (session : Session D) :
    (program >>= rest).alone now session =
      program.alone now session >>= fun result => (rest result.1).alone now result.2 := by
  show (program.andThen rest).alone now session = _
  induction program generalizing session with
  | done result => exact (pure_bind _ _).symm
  | panic => rfl
  | wrapped program ih =>
    simp only [andThen, alone, ih, bind_assoc]
    congr 1
    funext result
    show _ = (Machine.done result true >>= fun result => (rest result.1).alone now result.2)
    cases same : (rest result.1).alone now result.2 <;> simp [bind, same]
  | start _ ih | configure _ ih | observe _ ih | commit _ ih | rollback _ ih => exact ih _ _
  | acquire _ _ ih | read _ _ ih | write _ _ _ ih => exact ih _ _

/-- Go on with a program that can return early, unless it did. -/
def resume (now : D.Clock) (rest : α → ExceptT ε (Program D) β) :
    Except ε α × Session D → Machine (Except ε β × Session D)
  | (.ok value, session) => (rest value).run.alone now session
  | (.error problem, session) => pure (.error problem, session)

theorem alone_run_bind (now : D.Clock) (program : ExceptT ε (Program D) α)
    (rest : α → ExceptT ε (Program D) β) (session : Session D) :
    (program >>= rest).run.alone now session = program.run.alone now session >>= resume now rest := by
  rw [ExceptT.run_bind, alone_bind]
  congr 1
  funext result
  obtain ⟨result, session'⟩ := result
  cases result with
  | ok value => rfl
  | error problem => rfl

/-- What a program leaves behind in an undisturbed database. -/
def serve (now : D.Clock) (program : Program D α) (content : D.Content) : Machine (D.Content × α) := do
  let result ← program.alone now ⟨content, content⟩
  pure (result.2.stored, result.1)

/-- What a caller makes of the result changes nothing behind it. -/
theorem serve_map (now : D.Clock) (program : Program D α) (f : α → β) (content : D.Content) :
    (program >>= fun result => pure (f result)).serve now content =
      program.serve now content >>= fun served => pure (served.1, f served.2) := by
  unfold serve
  rw [alone_bind]
  simp only [alone_pure, bind_assoc, pure_bind]

end Program

end RateLimit
