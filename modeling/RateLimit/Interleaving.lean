import RateLimit.Conversation
import Mathlib.Logic.Relation

/-! Programs that run at the same time against one database, each in a transaction of its
own. A transaction sees what is committed, under what it has written itself; its locks are
its own until it ends, and a commit makes all its writes last at once. Nothing else is
promised: others may commit between any two calls.

If each cell is read and written only under the lock that guards it, then what a transaction
has read is still there when it commits. So a commit does to the database what it would do
with nobody else around. -/
namespace RateLimit

variable {D : Database} {ι α β ε : Type}

/-- The calls of a transaction so far, with their replies. -/
abbrev Log (D : Database) := List (Exchange D)

namespace Exchange

/-- The call that ends a transaction. -/
def ends : Exchange D → Bool
  | .commit _ _ | .rollback _ => true
  | _ => false

/-- What is read is what the transaction sees. -/
def Agrees (content : D.Content) : Exchange D → Prop
  | .read cell (.ok value) => content cell = value
  | _ => True

/-- What a call of a transaction does to what it sees. -/
def effect [DecidableEq D.Cell] (content : D.Content) : Exchange D → D.Content
  | .write cell value (.ok ()) => Function.update content cell value
  | _ => content

end Exchange

/-! ## Logs -/

namespace Log

def Open (log : Log D) : Prop := ∀ exchange ∈ log, exchange.ends = false

/-- The transaction has got the lock, and is not over. -/
def Holds (log : Log D) (lock : D.Lock) : Prop := log.Open ∧ ∃ now, Exchange.acquire lock (.ok now) ∈ log

def Unwritten (log : Log D) (cell : D.Cell) : Prop := ∀ value reply, Exchange.write cell value reply ∉ log

/-- A content under the writes of the transaction. -/
def view [DecidableEq D.Cell] (log : Log D) (content : D.Content) : D.Content := log.foldl Exchange.effect content

/-- The transaction could have read what it has read from a content. -/
def Heard [DecidableEq D.Cell] : Log D → D.Content → Prop
  | [], _ => True
  | exchange :: rest, content => exchange.Agrees content ∧ Heard rest (exchange.effect content)

/-- Every call of `said` keeps a rule, after the calls of `log` and those of `said` before it. -/
def Allowed (rule : Log D → Exchange D → Prop) : Log D → Log D → Prop
  | _, [] => True
  | log, exchange :: said => rule log exchange ∧ Allowed rule (log ++ [exchange]) said

variable {log said rest : Log D} {exchange : Exchange D} {content : D.Content} {cell : D.Cell} {lock : D.Lock}
  {rule : Log D → Exchange D → Prop}

theorem open_append : (log ++ rest).Open ↔ log.Open ∧ rest.Open := List.forall_mem_append

theorem open_snoc : (log ++ [exchange]).Open ↔ log.Open ∧ exchange.ends = false := by
  rw [open_append, Open, Open, List.forall_mem_singleton]

theorem Holds.append (holds : log.Holds lock) (going : rest.Open) : (log ++ rest).Holds lock := by
  obtain ⟨open', now, got⟩ := holds
  exact ⟨open_append.mpr ⟨open', going⟩, now, List.mem_append_left _ got⟩

theorem Holds.of_snoc (holds : (log ++ [exchange]).Holds lock) :
    log.Holds lock ∨ ∃ now, exchange = .acquire lock (.ok now) := by
  obtain ⟨going, now, got⟩ := holds
  rcases List.mem_append.mp got with old | new
  · exact .inl ⟨(open_append.mp going).1, now, old⟩
  · exact .inr ⟨now, (List.mem_singleton.mp new).symm⟩

theorem not_holds (ended : log.any Exchange.ends = true) : ¬ log.Holds lock := by
  rintro ⟨going, -⟩
  obtain ⟨exchange, member, ends⟩ := List.any_eq_true.mp ended
  exact Bool.false_ne_true ((going exchange member).symm.trans ends)

/-- Nobody holds a lock that another holds. -/
def Exclusive (logs : ι → Log D) : Prop := ∀ agent other lock, (logs agent).Holds lock → (logs other).Holds lock →
    agent = other

theorem unwritten_append : (log ++ rest).Unwritten cell ↔ log.Unwritten cell ∧ rest.Unwritten cell := by
  simp only [Unwritten, List.mem_append, not_or, forall_and]

theorem allowed_append : Allowed rule log (said ++ rest) ↔ Allowed rule log said ∧ Allowed rule (log ++ said) rest := by
  induction said generalizing log with
  | nil => simp [Allowed]
  | cons exchange said ih => simp [Allowed, ih, and_assoc]

theorem Allowed.mono {weak : Log D → Exchange D → Prop} (allowed : Allowed rule log said)
    (weaker : ∀ log exchange, rule log exchange → weak log exchange) : Allowed weak log said := by
  induction said generalizing log with
  | nil => trivial
  | cons exchange said ih => exact ⟨weaker _ _ allowed.1, ih allowed.2⟩

theorem Allowed.of_mem (allowed : Allowed rule log said) (member : exchange ∈ said) :
    ∃ before after, said = before ++ exchange :: after ∧ rule (log ++ before) exchange := by
  obtain ⟨before, after, rfl⟩ := List.append_of_mem member
  exact ⟨before, after, rfl, (allowed_append.mp allowed).2.1⟩

/-- A lock that nobody else holds can be taken. -/
theorem Exclusive.snoc [DecidableEq ι] {logs : ι → Log D} (exclusive : Exclusive logs) {agent : ι}
    (free : ∀ lock now, exchange = .acquire lock (.ok now) → ∀ other, other ≠ agent → ¬ (logs other).Holds lock) :
    Exclusive (Function.update logs agent (logs agent ++ [exchange])) := by
  have before {one : ι} {lock : D.Lock}
      (holds : (Function.update logs agent (logs agent ++ [exchange]) one).Holds lock) :
      (logs one).Holds lock ∨ one = agent ∧ ∃ now, exchange = .acquire lock (.ok now) := by
    by_cases here : one = agent
    · subst here
      rw [Function.update_self] at holds
      exact holds.of_snoc.imp_right fun new => ⟨rfl, new⟩
    · exact .inl (by rwa [Function.update_of_ne here] at holds)
  intro one other lock mine theirs
  rcases before mine with held | ⟨rfl, now, new⟩ <;> rcases before theirs with taken | ⟨rfl, now', new'⟩
  · exact exclusive one other lock held taken
  · exact by_contra fun differ => free lock now' new' one differ held
  · exact by_contra fun differ => free lock now new other (Ne.symm differ) taken
  · rfl

variable [DecidableEq D.Cell]

theorem view_append : (log ++ rest).view content = rest.view (log.view content) := List.foldl_append

theorem heard_append : (log ++ rest).Heard content ↔ log.Heard content ∧ rest.Heard (log.view content) := by
  induction log generalizing content with
  | nil => simp [Heard, view]
  | cons exchange log ih => simp [Heard, view, ih, and_assoc]

/-- Only the cells that are read matter. -/
theorem Heard.congr {content' : D.Content} (heard : log.Heard content)
    (same : ∀ cell reply, Exchange.read cell reply ∈ log → content' cell = content cell) : log.Heard content' := by
  induction log generalizing content content' with
  | nil => trivial
  | cons exchange rest ih =>
    obtain ⟨agrees, later⟩ := heard
    have early {cell : D.Cell} (equal : content' cell = content cell) :
        exchange.effect content' cell = exchange.effect content cell := by
      cases exchange with
      | write other value reply =>
        cases reply with
        | ok _ => by_cases here : cell = other <;> simp [Exchange.effect, Function.update, here, equal]
        | error _ => exact equal
      | _ => exact equal
    refine ⟨?_, ih later fun cell reply read => early (same cell reply (List.mem_cons_of_mem _ read))⟩
    cases exchange with
    | read cell reply =>
      cases reply with
      | ok value => exact (same cell _ List.mem_cons_self).trans agrees
      | error _ => trivial
    | _ => trivial

theorem view_unwritten (unwritten : log.Unwritten cell) : log.view content cell = content cell := by
  induction log generalizing content with
  | nil => rfl
  | cons exchange rest ih =>
    have later : Unwritten rest cell := fun value reply member => unwritten value reply (List.mem_cons_of_mem _ member)
    rw [view, List.foldl_cons]
    refine (ih later).trans ?_
    cases exchange with
    | write other value reply =>
      cases reply with
      | ok _ =>
        refine Function.update_of_ne ?_ _ _
        rintro rfl
        exact unwritten value _ List.mem_cons_self
      | error _ => rfl
    | _ => rfl

end Log

/-! ## Rules for programs -/

namespace Program

open Log (Allowed)

/-- Whatever the replies, a part of a transaction that comes after the calls of `log` keeps
a rule, and what it returns is in `Post`. -/
def Obeys (rule : Log D → Exchange D → Prop) (log : Log D) (call : ExceptT ε (Program D) α) (Post : Log D → α → Prop) :
    Prop :=
  ∀ said ending, Talk call.run said ending →
    Allowed rule log said ∧ ∀ value, ending = some (.ok value) → Post (log ++ said) value

variable {rule : Log D → Exchange D → Prop} {log : Log D} {Post : Log D → α → Prop}

theorem obeys_pure (holds : Post log value) : Obeys rule log (pure value : ExceptT ε (Program D) α) Post := by
  intro said ending talk
  cases talk
  refine ⟨trivial, ?_⟩
  rintro _ ⟨⟩
  simpa using holds

theorem obeys_throw : Obeys rule log (throw problem : ExceptT ε (Program D) α) Post := by
  intro said ending talk
  cases talk
  exact ⟨trivial, nofun⟩

theorem Obeys.bind {call : ExceptT ε (Program D) α} {rest : α → ExceptT ε (Program D) β} {Mid : Log D → α → Prop}
    {Post : Log D → β → Prop} (first : Obeys rule log call Mid)
    (second : ∀ log value, Mid log value → Obeys rule log (rest value) Post) : Obeys rule log (call >>= rest) Post := by
  intro said ending talk
  rw [ExceptT.run_bind] at talk
  rcases talk.split with ⟨rfl, panics⟩ | ⟨result, before, after, rfl, left, right⟩
  · exact ⟨(first _ _ panics).1, nofun⟩
  · obtain ⟨early, returned⟩ := first _ _ left
    cases result with
    | ok value =>
      obtain ⟨later, ends⟩ := second _ value (returned value rfl) _ _ right
      rw [List.append_assoc] at ends
      exact ⟨Log.allowed_append.mpr ⟨early, later⟩, ends⟩
    | error problem =>
      cases right
      rw [List.append_nil]
      exact ⟨early, nofun⟩

theorem Obeys.mono {call : ExceptT ε (Program D) α} {Weak : Log D → α → Prop} (obeys : Obeys rule log call Post)
    (weaker : ∀ log value, Post log value → Weak log value) : Obeys rule log call Weak := fun said ending talk =>
  ⟨(obeys said ending talk).1, fun value same => weaker _ value ((obeys said ending talk).2 value same)⟩

/-- Arithmetic makes no calls. -/
theorem obeys_lift {machine : Machine α} (returns : ∀ value, machine.Returns value → Post log value) :
    Obeys rule log (ExceptT.lift (Program.lift machine) : ExceptT ε (Program D) α) Post := by
  intro said ending talk
  cases machine with
  | panic =>
    cases talk
    exact ⟨trivial, nofun⟩
  | done value wrapped =>
    have holds := returns value ⟨wrapped, rfl⟩
    cases wrapped with
    | false =>
      cases talk
      exact ⟨trivial, by rintro _ ⟨⟩; simpa using holds⟩
    | true =>
      cases talk with
      | wrapped talk =>
        cases talk
        exact ⟨trivial, by rintro _ ⟨⟩; simpa using holds⟩

/-- A log that the program can come to. -/
def Says (program : Program D α) (log : Log D) : Prop := ∃ rest ending, Talk program (log ++ rest) ending

theorem Says.of_append {program : Program D α} (spoken : program.Says (log ++ more)) : program.Says log := by
  obtain ⟨rest, ending, talk⟩ := spoken
  exact ⟨more ++ rest, ending, by rwa [← List.append_assoc]⟩

theorem Says.allowed {program : Program D α} (spoken : program.Says log)
    (allowed : ∀ said ending, Talk program said ending → Allowed rule [] said) : Allowed rule [] log := by
  obtain ⟨rest, ending, talk⟩ := spoken
  exact (Log.allowed_append.mp (allowed _ _ talk)).1

/-- A call after those of `log`, and what comes after it. -/
def say (exchange : Exchange D) (rest : Log D → Log D × Option α) (log : Log D) : Log D × Option α :=
  (exchange :: (rest (log ++ [exchange])).1, (rest (log ++ [exchange])).2)

/-- What a program says, and how it ends, that goes on from the calls of `log` with nobody
else around. The clock stands at `now`, and commits are applied and answered with `answer`. -/
def recite [DecidableEq D.Cell] (now : D.Clock) (answer : Except D.Failure Unit) :
    Program D α → D.Content → Log D → Log D × Option α
  | .done result, _, _ => ([], some result)
  | .panic, _, _ => ([], none)
  | .wrapped rest, content, log => rest.recite now answer content log
  | .start next, content, log => say (.start (.ok ())) ((next (.ok ())).recite now answer content) log
  | .configure next, content, log => say (.configure (.ok ())) ((next (.ok ())).recite now answer content) log
  | .acquire lock next, content, log => say (.acquire lock (.ok now)) ((next (.ok now)).recite now answer content) log
  | .observe next, content, log => say (.observe (.ok now)) ((next (.ok now)).recite now answer content) log
  | .read cell next, content, log =>
    let value := log.view content cell
    say (.read cell (.ok value)) ((next (.ok value)).recite now answer content) log
  | .write cell value next, content, log =>
    say (.write cell value (.ok ())) ((next (.ok ())).recite now answer content) log
  | .commit next, content, log => say (.commit answer true) ((next answer).recite now answer (log.view content)) log
  | .rollback next, content, log => say (.rollback (.ok ())) ((next (.ok ())).recite now answer content) log

theorem recite_talks [DecidableEq D.Cell] (now : D.Clock) (answer : Except D.Failure Unit) (program : Program D α)
    (content : D.Content) (log : Log D) :
    Talk program (program.recite now answer content log).1 (program.recite now answer content log).2 := by
  induction program generalizing content log with
  | done result => exact .done result
  | panic => exact .panic
  | wrapped rest ih => exact .wrapped (ih content log)
  | start next ih => exact .start _ (ih _ _ _)
  | configure next ih => exact .configure _ (ih _ _ _)
  | acquire lock next ih => exact .acquire lock _ (ih _ _ _)
  | observe next ih => exact .observe _ (ih _ _ _)
  | read cell next ih => exact .read cell _ (ih _ _ _)
  | write cell value next ih => exact .write cell value _ (ih _ _ _)
  | commit next ih => exact .commit _ true (fun _ => rfl) (ih _ _ _)
  | rollback next ih => exact .rollback _ (ih _ _ _)

end Program

/-! ## Systems -/

/-- What one commit did: the calls of its transaction, and what they led from and to. -/
structure Commit (D : Database) (ι : Type) where
  agent : ι
  calls : Log D
  before : D.Content
  after : D.Content

/-- What is committed, what each program has said, and the commits so far, in order. -/
structure System (D : Database) (ι : Type) where
  content : D.Content
  logs : ι → Log D := fun _ => []
  history : List (Commit D ι) := []

namespace System

variable [DecidableEq D.Cell]

/-- What the database may reply. Calls can fail at any time. -/
def Grants (system : System D ι) (agent : ι) : Exchange D → Prop
  | .acquire lock (.ok _) => ∀ other, other ≠ agent → ¬ (system.logs other).Holds lock
  | .read cell (.ok value) => value = (system.logs agent).view system.content cell
  | _ => True

variable [DecidableEq ι]

def after (system : System D ι) (agent : ι) (exchange : Exchange D) : System D ι where
  content := if exchange.persists then (system.logs agent).view system.content else system.content
  logs := Function.update system.logs agent (system.logs agent ++ [exchange])
  history := if exchange.persists then
      system.history ++ [⟨agent, system.logs agent, system.content, (system.logs agent).view system.content⟩]
    else system.history

@[simp] theorem logs_after (system : System D ι) (agent : ι) (exchange : Exchange D) :
    (system.after agent exchange).logs agent = system.logs agent ++ [exchange] := Function.update_self ..

theorem logs_after_of_ne (system : System D ι) {agent other : ι} (differ : other ≠ agent) (exchange : Exchange D) :
    (system.after agent exchange).logs other = system.logs other := Function.update_of_ne differ ..

/-- One program makes one call. -/
inductive Step (programs : ι → Program D α) (system : System D ι) : System D ι → Prop where
  | call (agent : ι) (exchange : Exchange D) (talks : (programs agent).Says (system.logs agent ++ [exchange]))
    (granted : system.Grants agent exchange) : Step programs system (system.after agent exchange)

/-- What a system can come to, in any interleaving. -/
def Reaches (programs : ι → Program D α) : System D ι → System D ι → Prop := Relation.ReflTransGen (Step programs)

/-- Calls of one program in a row. -/
def afterAll (system : System D ι) (agent : ι) (said : Log D) : System D ι :=
  said.foldl (fun system exchange => system.after agent exchange) system

theorem logs_afterAll (system : System D ι) (agent : ι) (said : Log D) :
    (system.afterAll agent said).logs = Function.update system.logs agent (system.logs agent ++ said) := by
  induction said generalizing system with
  | nil => simp [afterAll]
  | cons exchange rest ih =>
    refine (ih (system.after agent exchange)).trans ?_
    simp [after]

def GrantsAll (system : System D ι) (agent : ι) : Log D → Prop
  | [] => True
  | exchange :: rest => system.Grants agent exchange ∧ (system.after agent exchange).GrantsAll agent rest

theorem GrantsAll.of_append {system : System D ι} {agent : ι} {said rest : Log D}
    (granted : system.GrantsAll agent (said ++ rest)) : system.GrantsAll agent said := by
  induction said generalizing system with
  | nil => trivial
  | cons exchange said ih => exact ⟨granted.1, ih granted.2⟩

theorem reaches_afterAll {programs : ι → Program D α} {system : System D ι} {agent : ι} {said : Log D}
    (talks : (programs agent).Says (system.logs agent ++ said)) (granted : system.GrantsAll agent said) :
    Reaches programs system (system.afterAll agent said) := by
  induction said generalizing system with
  | nil => exact .refl
  | cons exchange rest ih =>
    rw [← List.singleton_append, ← List.append_assoc] at talks
    exact .head (.call agent exchange talks.of_append granted.1) (ih (by rwa [logs_after]) granted.2)

/-- Nobody else holds a lock. -/
def Alone (system : System D ι) (agent : ι) : Prop := ∀ other, other ≠ agent → ∀ lock, ¬ (system.logs other).Holds lock

theorem Alone.after {system : System D ι} {agent : ι} (alone : system.Alone agent) (exchange : Exchange D) :
    (system.after agent exchange).Alone agent := by
  intro other differ lock
  rw [logs_after_of_ne system differ]
  exact alone other differ lock

/-- With nobody else around, the database may reply as to a program alone. -/
theorem grantsAll_recite (now : D.Clock) (answer : Except D.Failure Unit) (program : Program D α) {system : System D ι}
    {agent : ι} {stored : D.Content} {log : Log D} (alone : system.Alone agent) (same : system.content = stored)
    (said : system.logs agent = log) : system.GrantsAll agent (program.recite now answer stored log).1 := by
  induction program generalizing system stored log with
  | done | panic => trivial
  | wrapped rest ih => exact ih alone same said
  | acquire lock next ih =>
    exact ⟨fun other differ => alone other differ lock, ih _ (alone.after _) same (by rw [logs_after, said])⟩
  | read cell next ih => exact ⟨by simp [Grants, said, same], ih _ (alone.after _) same (by rw [logs_after, said])⟩
  | commit next ih => exact ⟨trivial, ih _ (alone.after _) (by rw [← said, ← same]; rfl) (by rw [logs_after, said])⟩
  | start next ih | configure next ih | observe next ih | write _ _ next ih | rollback next ih =>
    exact ⟨trivial, ih _ (alone.after _) same (by rw [logs_after, said])⟩

/-- So it can run at one go, to its end or to any call before that. -/
theorem reaches_recite {programs : ι → Program D α} {system : System D ι} {agent : ι} (alone : system.Alone agent)
    (fresh : system.logs agent = []) (now : D.Clock) (answer : Except D.Failure Unit) {said rest : Log D}
    (recited : ((programs agent).recite now answer system.content []).1 = said ++ rest) :
    Reaches programs system (system.afterAll agent said) := by
  have talk := Program.recite_talks now answer (programs agent) system.content []
  have granted := grantsAll_recite now answer (programs agent) alone rfl fresh
  rw [recited] at talk granted
  exact reaches_afterAll ⟨rest, _, by rwa [fresh, List.nil_append]⟩ granted.of_append

/-- Nobody holds a lock. -/
def Idle (system : System D ι) : Prop := ∀ agent lock, ¬ (system.logs agent).Holds lock

omit [DecidableEq D.Cell] [DecidableEq ι] in
theorem Idle.start (content : D.Content) : ({ content := content } : System D ι).Idle := by
  rintro agent lock ⟨-, now, ⟨⟩⟩

omit [DecidableEq D.Cell] [DecidableEq ι] in
theorem Idle.alone {system : System D ι} (idle : system.Idle) (agent : ι) : system.Alone agent :=
  fun other _ => idle other

theorem Idle.afterAll {system : System D ι} (idle : system.Idle) (agent : ι) {said : Log D}
    (ended : said.any Exchange.ends = true) : (system.afterAll agent said).Idle := by
  intro other lock
  rw [logs_afterAll]
  by_cases here : other = agent
  · rw [here, Function.update_self]
    exact Log.not_holds (by rw [List.any_append, ended, Bool.or_true])
  · rw [Function.update_of_ne here]
    exact idle other lock

/-- One runs to its end at one go, and then another one, to its end or to any call before that. -/
theorem reaches_recite_next {programs : ι → Program D α} {content : D.Content} {agent next : ι}
    {first said rest : Log D} (now later : D.Clock) (answer answer' : Except D.Failure Unit) (other : next ≠ agent)
    (recited : ((programs agent).recite now answer content []).1 = first) (ended : first.any Exchange.ends = true)
    (recited' : ((programs next).recite later answer' (afterAll { content := content } agent first).content []).1 =
      said ++ rest) :
    Reaches programs { content := content } ((afterAll { content := content } agent first).afterAll next said) := by
  have start : ({ content := content } : System D ι).Idle := .start content
  have before : Reaches programs { content := content } (afterAll { content := content } agent first) :=
    reaches_recite (start.alone agent) rfl now answer (recited.trans (List.append_nil _).symm)
  refine before.trans (reaches_recite ((start.afterAll agent ended).alone next) ?_ later answer' recited')
  rw [logs_afterAll, Function.update_of_ne other]

end System

/-! ## Guarded cells -/

/-- How a database is to be used: the lock that guards each cell, and the order of locks. -/
structure Manners (D : Database) where
  guard : D.Cell → D.Lock
  below : D.Lock → D.Lock → Prop

/-- Locks are taken upwards, and a cell is used under its lock. What a transaction commits is
in `Effect` of its calls, for any content that it could have read. -/
def Manners.Kept [DecidableEq D.Cell] (manners : Manners D) (Effect : Log D → D.Content → D.Content → Prop)
    (log : Log D) : Exchange D → Prop
  | .acquire lock _ => ∀ held, log.Holds held → manners.below held lock
  | .read cell _ | .write cell _ _ => log.Holds (manners.guard cell)
  | .commit _ _ => log.Open ∧ ∀ content, log.Heard content → Effect log content (log.view content)
  | _ => True

/-- Commits that lead from one content to another. -/
def Linked : D.Content → List (Commit D ι) → D.Content → Prop
  | first, [], last => first = last
  | first, commit :: rest, last => commit.before = first ∧ Linked commit.after rest last

theorem Linked.snoc {first last : D.Content} {history : List (Commit D ι)} (linked : Linked first history last)
    (agent : ι) (calls : Log D) (next : D.Content) : Linked first (history ++ [⟨agent, calls, last, next⟩]) next := by
  induction history generalizing first with
  | nil => exact ⟨linked.symm, rfl⟩
  | cons commit rest ih => exact ⟨linked.1, ih linked.2⟩

namespace System

variable [DecidableEq D.Cell] {manners : Manners D} {Effect : ι → Log D → D.Content → D.Content → Prop}
  {first : D.Content}

/-- A commit is that of a program that could have read what was committed before it, and
applies its writes to that. -/
def Traced (system : System D ι) (commit : Commit D ι) : Prop :=
  ∃ (reply : Except D.Failure Unit) (rest : Log D),
    system.logs commit.agent = commit.calls ++ .commit reply true :: rest ∧ commit.calls.Heard commit.before ∧
      commit.after = commit.calls.view commit.before

/-- What holds of a system whose programs keep to their manners. -/
structure Sound (manners : Manners D) (Effect : ι → Log D → D.Content → D.Content → Prop) (first : D.Content)
    (system : System D ι) : Prop where
  kept : ∀ agent, Log.Allowed (manners.Kept (Effect agent)) [] (system.logs agent)
  exclusive : Log.Exclusive system.logs
  heard : ∀ agent, (system.logs agent).Open → (system.logs agent).Heard system.content
  linked : Linked first system.history system.content
  effects : ∀ commit ∈ system.history, Effect commit.agent commit.calls commit.before commit.after
  traced : ∀ commit ∈ system.history, system.Traced commit
  recorded : ∀ agent (before : Log D) reply rest, system.logs agent = before ++ .commit reply true :: rest →
    ∃ commit ∈ system.history, commit.agent = agent ∧ commit.calls = before

theorem Sound.start (content : D.Content) : Sound manners Effect content { content := content } where
  kept _ := trivial
  exclusive agent other lock := by rintro ⟨-, _, ⟨⟩⟩
  heard _ _ := trivial
  linked := rfl
  effects := by rintro commit ⟨⟩
  traced := by rintro commit ⟨⟩
  recorded agent before reply rest none := by simp at none

section
variable {system : System D ι} (sound : Sound manners Effect first system)
include sound

/-- The cells of an open transaction are under its locks. -/
theorem Sound.guarded (agent : ι) {exchange : Exchange D} (member : exchange ∈ system.logs agent)
    (going : (system.logs agent).Open) (uses : ∀ log, manners.Kept (Effect agent) log exchange → log.Holds lock) :
    (system.logs agent).Holds lock := by
  obtain ⟨before, after, same, kept⟩ := (sound.kept agent).of_mem member
  obtain ⟨-, now, got⟩ := uses _ kept
  refine ⟨going, now, ?_⟩
  rw [same]
  exact List.mem_append_left _ got

/-- No commit of another touches what an open transaction has read. -/
theorem Sound.undisturbed {agent other : ι} (differ : agent ≠ other) (going : (system.logs agent).Open)
    (ends : (system.logs other).Open) : (system.logs agent).Heard ((system.logs other).view system.content) := by
  refine (sound.heard agent going).congr fun cell reply read => Log.view_unwritten fun stored reply' written => ?_
  have mine := sound.guarded agent read going fun _ kept => kept
  have theirs := sound.guarded other written ends fun _ kept => kept
  exact differ (sound.exclusive agent other _ mine theirs)

/-- A commit comes from an open transaction. -/
theorem Sound.commits {agent : ι} {exchange : Exchange D}
    (keeps : manners.Kept (Effect agent) (system.logs agent) exchange)
    (persists : exchange.persists = true) : (system.logs agent).Open ∧ exchange.ends = true ∧
      Effect agent (system.logs agent) system.content ((system.logs agent).view system.content) := by
  cases exchange with
  | commit reply applied => exact ⟨keeps.1, rfl, keeps.2 _ (sound.heard agent keeps.1)⟩
  | _ => cases persists

variable [DecidableEq ι] {agent : ι} {exchange : Exchange D}
  (keeps : manners.Kept (Effect agent) (system.logs agent) exchange) (granted : system.Grants agent exchange)
include keeps

include granted in
theorem Sound.heard_after (other : ι) (going : ((system.after agent exchange).logs other).Open) :
    ((system.after agent exchange).logs other).Heard (system.after agent exchange).content := by
  by_cases here : other = agent
  · subst here
    rw [logs_after] at going ⊢
    obtain ⟨going, last⟩ := Log.open_snoc.mp going
    have unapplied : exchange.persists = false := by
      rw [← Bool.not_eq_true]
      intro persists
      simp [(sound.commits keeps persists).2.1] at last
    simp only [after, unapplied, Bool.false_eq_true, if_false]
    refine Log.heard_append.mpr ⟨sound.heard other going, ?_, trivial⟩
    cases exchange with
    | read cell reply =>
      cases reply with
      | ok value => exact granted.symm
      | error _ => trivial
    | _ => trivial
  · rw [logs_after_of_ne system here] at going ⊢
    cases persists : exchange.persists with
    | true => simpa [after, persists] using sound.undisturbed here going (sound.commits keeps persists).1
    | false => simpa [after, persists] using sound.heard other going

theorem Sound.traced_after {commit : Commit D ι} (member : commit ∈ (system.after agent exchange).history) :
    (system.after agent exchange).Traced commit := by
  have older (old : commit ∈ system.history) : (system.after agent exchange).Traced commit := by
    obtain ⟨reply, rest, log, found⟩ := sound.traced commit old
    by_cases here : commit.agent = agent
    · exact ⟨reply, rest ++ [exchange], by rw [here, logs_after, ← here, log, List.append_assoc]; rfl, found⟩
    · exact ⟨reply, rest, by rw [logs_after_of_ne system here, log], found⟩
  cases exchange with
  | commit reply applied =>
    cases applied with
    | true =>
      rcases List.mem_append.mp member with old | new
      · exact older old
      · cases List.mem_singleton.mp new
        exact ⟨reply, [], logs_after .., sound.heard agent keeps.1, rfl⟩
    | false => exact older member
  | _ => exact older member

omit keeps in
theorem Sound.recorded_after (other : ι) (before : Log D) (reply : Except D.Failure Unit) (rest : Log D)
    (log : (system.after agent exchange).logs other = before ++ .commit reply true :: rest) :
    ∃ commit ∈ (system.after agent exchange).history, commit.agent = other ∧ commit.calls = before := by
  have older {commit : Commit D ι} (old : commit ∈ system.history) :
    commit ∈ (system.after agent exchange).history := by
    simp only [after]
    split
    · exact List.mem_append_left _ old
    · exact old
  by_cases here : other = agent
  · subst here
    rw [logs_after] at log
    rcases List.eq_nil_or_concat rest with rfl | ⟨rest, last, rfl⟩
    · obtain ⟨rfl, last⟩ := List.append_inj' log rfl
      obtain rfl := List.singleton_inj.mp last
      exact ⟨_, List.mem_append_right _ List.mem_cons_self, rfl, rfl⟩
    · rw [List.concat_eq_append, ← List.cons_append, ← List.append_assoc] at log
      obtain ⟨commit, old, found⟩ := sound.recorded other before reply rest (List.append_inj' log rfl).1
      exact ⟨commit, older old, found⟩
  · obtain ⟨commit, old, found⟩ := sound.recorded other before reply rest (logs_after_of_ne system here exchange ▸ log)
    exact ⟨commit, older old, found⟩

omit keeps in
/-- One call keeps all of this. -/
theorem Sound.step {programs : ι → Program D α}
    (mannered : ∀ agent log, (programs agent).Says log → Log.Allowed (manners.Kept (Effect agent)) [] log)
    (step : Step programs system next) : Sound manners Effect first next := by
  obtain ⟨agent, exchange, talks, granted⟩ := step
  have allowed := mannered agent _ talks
  have keeps : manners.Kept (Effect agent) (system.logs agent) exchange := (Log.allowed_append.mp allowed).2.1
  refine ⟨fun other => ?_, sound.exclusive.snoc fun lock now same => ?_, sound.heard_after keeps granted, ?_, ?_,
    fun _ => sound.traced_after keeps, sound.recorded_after⟩
  · by_cases here : other = agent
    · subst here
      rwa [logs_after]
    · rw [logs_after_of_ne system here]
      exact sound.kept other
  · subst same
    exact granted
  · cases persists : exchange.persists with
    | true => simpa [after, persists] using sound.linked.snoc agent _ _
    | false => simpa [after, persists] using sound.linked
  · intro commit member
    cases persists : exchange.persists with
    | true =>
      simp only [after, persists, if_true, List.mem_append, List.mem_singleton] at member
      rcases member with old | rfl
      · exact sound.effects commit old
      · exact (sound.commits keeps persists).2.2
    | false =>
      simp only [after, persists, Bool.false_eq_true, if_false] at member
      exact sound.effects commit member

end

/-- So a system with such programs is sound at any time. -/
theorem Reaches.sound [DecidableEq ι] {programs : ι → Program D α} {content : D.Content} {system : System D ι}
    (reaches : Reaches programs { content := content } system)
    (mannered : ∀ agent log, (programs agent).Says log → Log.Allowed (manners.Kept (Effect agent)) [] log) :
    Sound manners Effect content system := by
  unfold Reaches at reaches
  induction reaches with
  | refl => exact .start content
  | tail _ step ih => exact ih.step mannered step

end System

end RateLimit
