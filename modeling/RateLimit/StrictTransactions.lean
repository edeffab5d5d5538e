import RateLimit.AtomicOnce

/-! Strict transactions at the same time. Each commits what it would commit alone. They wait
for advisory locks, which they take upwards, and for rows, which they use under an advisory
lock of their own. So the locks that a chain of transactions waits for ascend, and no row is
held by another transaction. `Cleanup` may hold rows, but it passes over those that are locked
and never waits. -/
namespace RateLimit.Postgres

open Program

/-- The operations that run in a strict transaction. -/
inductive Operation where
  | admitStrict (clock : ClockPolicy) (context : ContextState) (request : Request)
  | acquireStrict (clock : ClockPolicy) (context : ContextState) (request : LeaseRequest)
  | releaseStrict (context : ContextState) (lease : Lease)
  | admitAtomicStrict (clock : ClockPolicy) (context : ContextState) (batch : ValidBatch)

def Operation.program (sha256 : GoString → Digest) : Operation → Program database Unit
  | .admitStrict clock context request => discard (Store.admitStrict sha256 clock context request)
  | .acquireStrict clock context request => discard (Store.acquireStrict sha256 clock context request)
  | .releaseStrict context lease => discard (Store.releaseStrict sha256 context lease)
  | .admitAtomicStrict clock context batch =>
      discard (Store.admitAtomicStrict sha256 clock context batch.toAtomicBatchRequest)

def programs (sha256 : GoString → Digest) (operations : ι → Operation) (agent : ι) : Program database Unit :=
  (operations agent).program sha256

/-- The row that a call has to lock. The row of a command is read without a lock. -/
def wantedRow : Exchange database → Option Cell
  | .read (.bucket key) _ => some (.bucket key)
  | .write cell _ _ => some cell
  | _ => none

/-- The row that a call has locked. -/
def lockedRow : Exchange database → Option Cell
  | .read (.bucket key) (.ok (some _)) => some (.bucket key)
  | .write cell _ (.ok ()) => some cell
  | _ => none

/-- An open transaction that has locked a row, written it, or found that it is not there. -/
def Touches (log : Log database) (cell : Cell) : Prop := log.Open ∧ ∃ exchange ∈ log, wantedRow exchange = some cell

def HoldsRow (log : Log database) (cell : Cell) : Prop := log.Open ∧ ∃ exchange ∈ log, lockedRow exchange = some cell

/-- The calls of some transactions, and the rows that some `Cleanup` statements have locked. -/
structure Traffic (ι κ : Type) where
  logs : ι → Log database := fun _ => []
  doomed : κ → List Cell := fun _ => []

namespace Traffic

variable {ι κ : Type}

inductive Step [DecidableEq ι] [DecidableEq κ] (programs : ι → Program database Unit) (traffic : Traffic ι κ) :
    Traffic ι κ → Prop where
  | call (agent : ι) (exchange : Exchange database) (talks : (programs agent).Says (traffic.logs agent ++ [exchange]))
    (free : ∀ lock now, exchange = .acquire lock (.ok now) → ∀ other, other ≠ agent → ¬ (traffic.logs other).Holds lock)
    (row : ∀ cell, lockedRow exchange = some cell →
      (∀ other, other ≠ agent → ¬ HoldsRow (traffic.logs other) cell) ∧ ∀ cleanup, cell ∉ traffic.doomed cleanup) :
    Step programs traffic
      { traffic with logs := Function.update traffic.logs agent (traffic.logs agent ++ [exchange]) }
  | doom (cleanup : κ) (cell : Cell) (unlocked : ∀ agent, ¬ HoldsRow (traffic.logs agent) cell)
    (other : ∀ cleanup, cell ∉ traffic.doomed cleanup) :
    Step programs traffic
      { traffic with doomed := Function.update traffic.doomed cleanup (cell :: traffic.doomed cleanup) }
  | finish (cleanup : κ) : Step programs traffic { traffic with doomed := Function.update traffic.doomed cleanup [] }

/-- A transaction or a `Cleanup` statement that cannot go on before another one has ended. -/
inductive WaitsFor (programs : ι → Program database Unit) (traffic : Traffic ι κ) : ι ⊕ κ → ι ⊕ κ → Prop where
  | lock {agent other : ι} (lock : Lock) (reply : Except ContextState Int)
    (next : (programs agent).Says (traffic.logs agent ++ [.acquire lock reply])) (differ : other ≠ agent)
    (held : (traffic.logs other).Holds lock) : WaitsFor programs traffic (.inl agent) (.inl other)
  | row {agent other : ι} (cell : Cell) (exchange : Exchange database)
    (next : (programs agent).Says (traffic.logs agent ++ [exchange])) (wanted : wantedRow exchange = some cell)
    (differ : other ≠ agent) (held : HoldsRow (traffic.logs other) cell) :
    WaitsFor programs traffic (.inl agent) (.inl other)
  | doomed {agent : ι} {cleanup : κ} (cell : Cell) (exchange : Exchange database)
    (next : (programs agent).Says (traffic.logs agent ++ [exchange])) (wanted : wantedRow exchange = some cell)
    (held : cell ∈ traffic.doomed cleanup) : WaitsFor programs traffic (.inl agent) (.inr cleanup)

end Traffic

/-! ## Manners -/

theorem Mannered.discard {program : Program database α} (mannered : Mannered program) : Mannered (discard program) := by
  intro said ending talk
  change Talk (program >>= fun _ => pure ()) said ending at talk
  rcases talk.split with ⟨-, panics⟩ | ⟨_, before, after, rfl, left, right⟩
  · exact mannered _ _ panics
  · cases right
    rw [List.append_nil]
    exact mannered _ _ left

theorem operation_mannered (sha256 : GoString → Digest) (operation : Operation) :
    Mannered (operation.program sha256) := by
  cases operation with
  | admitStrict clock context request =>
    refine Mannered.discard ?_
    unfold Store.admitStrict
    split
    · exact mannered_pure _
    · exact mannered_pure _
    · split
      · exact mannered_pure _
      · exact admitStrict_mannered _ _ _
  | acquireStrict clock context request =>
    refine Mannered.discard ?_
    unfold Store.acquireStrict
    split
    · exact mannered_pure _
    · exact mannered_pure _
    · exact acquireStrict_mannered _ _ _ _
  | releaseStrict context lease =>
    refine Mannered.discard ?_
    unfold Store.releaseStrict
    split
    · exact mannered_pure _
    · split
      · exact mannered_pure _
      · exact releaseStrict_mannered _ _ _
  | admitAtomicStrict clock context batch =>
    refine Mannered.discard fun said ending talk => ?_
    refine (admitAtomicStrict_talks sha256 clock context batch said ending talk).1.mono fun log exchange keeps => ?_
    cases exchange with
    | commit => exact ⟨keeps.1, fun _ _ => trivial⟩
    | _ => exact keeps

theorem Lock.Below.trans {first second third : Lock} (low : first.Below second) (high : second.Below third) :
    first.Below third := by
  cases third with
  | command => cases second <;> exact high.elim
  | bucket top =>
    cases first with
    | command => trivial
    | bucket bottom =>
      cases second with
      | command => exact low.elim
      | bucket middle => exact lt_trans low high

theorem Lock.not_below_self (lock : Lock) : ¬ lock.Below lock := by
  cases lock with
  | command => exact id
  | bucket key => exact lt_irrefl key

/-- Whoever uses a row holds the lock that guards it. -/
theorem holds_guard_of_kept {log : Log database} {exchange : Exchange database}
    (keeps : manners.Kept (fun _ _ _ => True) log exchange) (wanted : wantedRow exchange = some cell) :
    log.Holds (guardOf cell) := by
  cases exchange with
  | read other reply =>
    cases other with
    | bucket key =>
      cases wanted
      exact keeps
    | command => cases wanted
  | write other value reply =>
    cases wanted
    exact keeps
  | _ => cases wanted

theorem wantedRow_of_lockedRow {exchange : Exchange database} (locked : lockedRow exchange = some cell) :
    wantedRow exchange = some cell := by
  unfold lockedRow at locked
  split at locked <;> cases locked <;> rfl

namespace Traffic

variable {ι κ : Type} {programs : ι → Program database Unit} {traffic : Traffic ι κ}

/-- Every call is one that its program makes, and no lock is held twice. -/
structure Orderly (programs : ι → Program database Unit) (traffic : Traffic ι κ) : Prop where
  said : ∀ agent, (programs agent).Says (traffic.logs agent) ∨ traffic.logs agent = []
  exclusive : Log.Exclusive traffic.logs

theorem Orderly.step [DecidableEq ι] [DecidableEq κ] (orderly : Orderly programs traffic)
    (step : Step programs traffic next) : Orderly programs next := by
  cases step with
  | call agent exchange talks free row =>
    refine ⟨fun other => ?_, orderly.exclusive.snoc free⟩
    by_cases here : other = agent
    · subst here
      exact .inl (by simpa using talks)
    · simpa [Function.update_of_ne here] using orderly.said other
  | doom => exact ⟨orderly.said, orderly.exclusive⟩
  | finish => exact ⟨orderly.said, orderly.exclusive⟩

variable (mannered : ∀ agent, Mannered (programs agent)) (orderly : Orderly programs traffic)
include mannered

theorem kept_of_said {agent : ι} {exchange : Exchange database}
    (talks : (programs agent).Says (traffic.logs agent ++ [exchange])) :
    manners.Kept (fun _ _ _ => True) (traffic.logs agent) exchange :=
  (Log.allowed_append.mp (talks.allowed (mannered agent))).2.1

include orderly

/-- A transaction that holds a row holds its guard. -/
theorem holds_guard {agent : ι} (held : HoldsRow (traffic.logs agent) cell) : (traffic.logs agent).Holds
    (guardOf cell) := by
  obtain ⟨going, exchange, member, locked⟩ := held
  rcases orderly.said agent with said | none
  · obtain ⟨before, after, same, keeps⟩ := (said.allowed (mannered agent)).of_mem member
    obtain ⟨-, now, got⟩ := holds_guard_of_kept keeps (wantedRow_of_lockedRow locked)
    refine ⟨going, now, ?_⟩
    rw [same]
    exact List.mem_append_left _ got
  · rw [none] at member
    cases member

/-- The locks that are wanted along a chain ascend. -/
theorem WaitsFor.ascends {node next : ι ⊕ κ} (waits : WaitsFor programs traffic node next) {low : Lock}
    (above : ∀ agent, node = .inl agent → ∀ lock reply,
      (programs agent).Says (traffic.logs agent ++ [.acquire lock reply]) → low.Below lock) :
    ∀ agent, next = .inl agent → ∀ lock reply,
      (programs agent).Says (traffic.logs agent ++ [.acquire lock reply]) → low.Below lock := by
  intro agent same high reply talks
  cases waits with
  | lock lock reply' next differ held =>
    cases same
    exact (above _ rfl lock reply' next).trans (kept_of_said mannered talks lock held)
  | row cell exchange next wanted differ held =>
    cases same
    have mine := holds_guard_of_kept (kept_of_said mannered next) wanted
    exact absurd (orderly.exclusive _ _ _ (holds_guard mannered orderly held) mine) differ
  | doomed => cases same

theorem no_cycle (node : ι ⊕ κ) : ¬ Relation.TransGen (WaitsFor programs traffic) node node := by
  intro cycle
  obtain ⟨next, waits, rest⟩ := Relation.TransGen.head'_iff.mp cycle
  cases waits with
  | @lock _ other lock reply talks differ held =>
    -- everything that is wanted further down the chain is above this lock, and the chain comes back to it
    have climbs : ∀ node, Relation.ReflTransGen (WaitsFor programs traffic) (.inl other) node → ∀ agent, node =
      .inl agent →
        ∀ high reply, (programs agent).Says (traffic.logs agent ++ [.acquire high reply]) → lock.Below high := by
      intro node chain
      induction chain with
      | refl =>
        intro agent same high reply talks
        cases same
        exact kept_of_said mannered talks lock held
      | tail _ waits ih => exact waits.ascends mannered orderly ih
    exact lock.not_below_self (climbs _ rest _ rfl lock reply talks)
  | row cell exchange talks wanted differ held =>
    have mine := holds_guard_of_kept (kept_of_said mannered talks) wanted
    exact differ (orderly.exclusive _ _ _ (holds_guard mannered orderly held) mine)
  | doomed cell exchange talks wanted held =>
    -- a cleanup waits for nobody
    rcases Relation.ReflTransGen.cases_head rest with same | ⟨_, waits, -⟩
    · cases same
    · cases waits

end Traffic

section
variable {ι κ : Type} [DecidableEq ι] (sha256 : GoString → Digest) (operations : ι → Operation)

variable {sha256 operations} in
theorem sound_of_reaches {content : database.Content} {system : System database ι}
    (reaches : System.Reaches (programs sha256 operations) { content := content } system) :
    System.Sound manners (fun _ _ _ _ => True) content system :=
  reaches.sound fun agent _ said => said.allowed (operation_mannered sha256 (operations agent))

/-- Strict operations in any interleaving: what is committed is what the commits leave one
after the other, each of an operation that read what the ones before it had left, and an
operation whose commit was applied is among them even if it was told otherwise. -/
theorem strict_operations_serial (content : database.Content) (system : System database ι)
    (reaches : System.Reaches (programs sha256 operations) { content := content } system) :
    Linked content system.history system.content ∧ (∀ commit ∈ system.history, system.Traced commit) ∧
      ∀ agent (before : Log database) reply rest, system.logs agent = before ++ .commit reply true :: rest →
        ∃ commit ∈ system.history, commit.agent = agent := by
  have sound := sound_of_reaches reaches
  refine ⟨sound.linked, sound.traced, fun agent before reply rest log => ?_⟩
  obtain ⟨commit, member, same, -⟩ := sound.recorded agent before reply rest log
  exact ⟨commit, member, same⟩

/-- A row that an open strict transaction has locked or written is under an advisory lock of its
own, and no other open one has touched it, whichever digests have an advisory lock in common. -/
theorem rows_guarded (content : database.Content) (system : System database ι)
    (reaches : System.Reaches (programs sha256 operations) { content := content } system) (agent : ι) (cell : Cell)
    (touched : Touches (system.logs agent) cell) :
    (system.logs agent).Holds (guardOf cell) ∧ ∀ other, Touches (system.logs other) cell → other = agent := by
  have sound := sound_of_reaches reaches
  have guarded (agent : ι) (touched : Touches (system.logs agent) cell) : (system.logs agent).Holds (guardOf cell) := by
    obtain ⟨going, exchange, member, wanted⟩ := touched
    exact sound.guarded agent member going fun _ keeps => holds_guard_of_kept keeps wanted
  exact ⟨guarded agent touched, fun other others => sound.exclusive _ _ _ (guarded other others)
    (guarded agent touched)⟩

variable [DecidableEq κ] (traffic : Traffic ι κ)
  (reaches : Relation.ReflTransGen (Traffic.Step (programs sha256 operations)) {} traffic)
include reaches

theorem orderly_of_reaches : Traffic.Orderly (programs sha256 operations) traffic := by
  induction reaches with
  | refl => exact ⟨fun _ => .inr rfl, by rintro _ _ _ ⟨-, _, ⟨⟩⟩⟩
  | tail _ step ih => exact ih.step step

/-- Strict operations and `Cleanup` statements in any interleaving, with any keys, any orders
of requests and any collisions of digests: there is never a cycle of those that wait for a
lock of the next. -/
theorem strict_transactions_never_deadlock (node : ι ⊕ κ) :
    ¬ Relation.TransGen (Traffic.WaitsFor (programs sha256 operations) traffic) node node :=
  Traffic.no_cycle (fun agent => operation_mannered sha256 (operations agent))
    (orderly_of_reaches sha256 operations traffic reaches)
    node

end

/-! Two releases of one lease. -/

def freedLease : Lease := { id := [1], policyID := [1], key := ⟨[1], [1]⟩, cost := 1, expiresAt := .ofUnixMicro 1 }

abbrev releases (_ : Bool) : Operation := .releaseStrict .live freedLease

theorem release_said (agent : Bool) : (programs (fun _ _ => 0) releases agent).Says
    ([.start (.ok ())] ++ [.configure (.ok ())] ++ [.acquire (.bucket (advisoryKey fun _ => 0)) (.ok 0)]) := by
  refine ⟨[.read (.bucket fun _ => 0) (.error .canceled), .rollback (.ok ())], some (), ?_⟩
  apply Talk.start
  apply Talk.configure
  change Talk (.acquire _ _) _ _
  apply Talk.acquire
  change Talk (.read _ _) _ _
  apply Talk.read
  change Talk (.rollback _) _ _
  apply Talk.rollback
  exact .done _

/-- One of them can wait for the other. -/
theorem releases_wait : ∃ traffic : Traffic Bool Unit,
    Relation.ReflTransGen (Traffic.Step (programs (fun _ _ => 0) releases)) {} traffic ∧
      Traffic.WaitsFor (programs (fun _ _ => 0) releases) traffic (.inl true) (.inl false) := by
  have begun (agent : Bool) := (release_said agent).of_append.of_append
  have reaches : Relation.ReflTransGen (Traffic.Step (programs (fun _ _ => 0) releases)) ({} : Traffic Bool Unit) _ :=
    ((((Relation.ReflTransGen.refl.tail (.call false _ (begun false) (by rintro _ _ ⟨⟩) (by rintro _ ⟨⟩))).tail
      (.call false _ (release_said false).of_append (by rintro _ _ ⟨⟩) (by rintro _ ⟨⟩))).tail
      (.call false _ (release_said false) (by simp [Log.Holds]) (by rintro _ ⟨⟩))).tail
      (.call true _ (begun true) (by rintro _ _ ⟨⟩) (by rintro _ ⟨⟩))).tail
      (.call true _ (release_said true).of_append (by rintro _ _ ⟨⟩) (by rintro _ ⟨⟩))
  refine ⟨_, reaches, .lock (.bucket (advisoryKey fun _ => 0)) (.ok 0) (release_said true) (by decide) ?_⟩
  exact ⟨by simp [Log.Open, Exchange.ends], 0, by simp⟩

theorem strict_transactions_never_deadlock_released : ∃ traffic : Traffic Bool Unit,
    Traffic.WaitsFor (programs (fun _ _ => 0) releases) traffic (.inl true) (.inl false) ∧
      ∀ node, ¬ Relation.TransGen (Traffic.WaitsFor (programs (fun _ _ => 0) releases) traffic) node node := by
  obtain ⟨traffic, reaches, waits⟩ := releases_wait
  exact ⟨traffic, waits, strict_transactions_never_deadlock _ _ traffic reaches⟩

/-! A command for a bucket whose acknowledgement is lost, and a request for the same bucket. -/

def sharing : Bool → Operation
  | false => .admitAtomicStrict .serverClock .live tokenBatch.toValidBatch
  | true => .admitStrict .serverClock .live (rawRequest 255)

def ofCommand : Log database :=
  ((programs commandDigest sharing false).recite (1000000 : Int) (.error ContextState.canceled) emptyContent []).1

def commanded : System database Bool := System.afterAll { content := emptyContent } false ofCommand

def ofRequest : Log database := ((programs commandDigest sharing true).recite
    (1000000 : Int) (.ok ()) commanded.content []).1

theorem reaches_ofRequest {said rest : Log database} (whole : ofRequest = said ++ rest) :
    System.Reaches (programs commandDigest sharing) { content := emptyContent } (commanded.afterAll true said) :=
  System.reaches_recite_next _ _ _ _ (by decide) rfl (by decide +kernel) whole

/-- Both take a token, though the command is never heard of. -/
theorem strict_operations_serial_shared :
    ((commanded.afterAll true ofRequest).history.map fun commit => (commit.agent, tokensIn commit.before,
      tokensIn commit.after)) =
        [(false, none, some 4), (true, some 4, some 3)] ∧
      ((commanded.afterAll true ofRequest).logs false).any lostCommit = true ∧
      Linked emptyContent (commanded.afterAll true ofRequest).history (commanded.afterAll true ofRequest).content ∧
      ∀ commit ∈ (commanded.afterAll true ofRequest).history, (commanded.afterAll true ofRequest).Traced commit := by
  have serial := strict_operations_serial _ _ emptyContent _ (reaches_ofRequest (List.append_nil _).symm)
  exact ⟨by decide +kernel, by decide +kernel, serial.1, serial.2.1⟩

/-- The request has locked the row of the bucket. -/
theorem rows_guarded_shared : let key := commandDigest (rawRequest 255).bucketName
    HoldsRow ((commanded.afterAll true (ofRequest.take 4)).logs true) (.bucket key) ∧
      ((commanded.afterAll true (ofRequest.take 4)).logs true).Holds (.bucket (advisoryKey key)) ∧
      ∀ other, Touches ((commanded.afterAll true (ofRequest.take 4)).logs other) (.bucket key) → other = true := by
  intro key
  have said : (commanded.afterAll true (ofRequest.take 4)).logs true = ofRequest.take 4 := by
    simp [commanded, System.logs_afterAll]
  have locked : HoldsRow ((commanded.afterAll true (ofRequest.take 4)).logs true) (.bucket key) := by
    rw [said]
    exact ⟨by unfold Log.Open; decide +kernel, by decide +kernel⟩
  obtain ⟨going, exchange, member, row⟩ := locked
  have touched : Touches ((commanded.afterAll true (ofRequest.take 4)).logs true) (.bucket key) :=
    ⟨going, exchange, member, wantedRow_of_lockedRow row⟩
  have guarded := rows_guarded _ _ emptyContent _ (reaches_ofRequest (List.take_append_drop 4 _).symm) true _ touched
  exact ⟨⟨going, exchange, member, row⟩, guarded⟩

end RateLimit.Postgres
