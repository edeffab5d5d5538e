import RateLimit.AtomicStore
import RateLimit.Interleaving
import RateLimit.LeaseStore

/-! The manners of the strict transactions. Each takes its locks upwards: the lock of its
command first, if it has one, then those of its buckets in ascending order. It uses the row
of a bucket under the advisory lock of the bucket, and the row of a command under the lock of
the command. -/
namespace RateLimit.Postgres

open Machine Program

/-- The lock that a row is used under. -/
def guardOf : Cell → Lock
  | .bucket key => .bucket (advisoryKey key)
  | .command digest => commandLock digest

/-- The order in which locks are taken. -/
def Lock.Below : Lock → Lock → Prop
  | .command _ _, .bucket _ => True
  | .bucket first, .bucket second => first < second
  | _, .command _ _ => False

def manners : Manners database := ⟨guardOf, Lock.Below⟩

/-! ## Statements -/

section
variable {rule : Log database → Exchange database → Prop} {log : Log database}

/-- A statement is one call. -/
theorem statement_obeys {program : Program database (Except ContextState α)}
    (exchange : Except ContextState α → Exchange database)
    (single : ∀ said ending, Talk program said ending → ∃ reply, said = [exchange reply] ∧ ending = some reply)
    (keeps : ∀ reply, rule log (exchange reply)) :
    Obeys rule log (statement program) fun after value => after = log ++ [exchange (.ok value)] := by
  intro said ending talk
  change Talk (program >>= _) said ending at talk
  rcases talk.split with ⟨rfl, panics⟩ | ⟨reply, before, after, rfl, left, right⟩
  · obtain ⟨_, -, impossible⟩ := single _ _ panics
    cases impossible
  · obtain ⟨_, rfl, same⟩ := single _ _ left
    cases same
    cases reply with
    | ok value =>
      cases right
      refine ⟨⟨keeps _, trivial⟩, ?_⟩
      rintro _ ⟨⟩
      rfl
    | error context =>
      cases right
      exact ⟨⟨keeps _, trivial⟩, nofun⟩

variable {Effect : Log database → database.Content → database.Content → Prop}

theorem configure_obeys : Obeys (manners.Kept Effect) log (statement (.configure .done)) fun after _ =>
    after = log ++ [.configure (.ok ())] := by
  refine statement_obeys (fun reply => .configure reply) (fun said ending talk => ?_) ?_
  · cases talk with
    | configure reply talk => cases talk; exact ⟨reply, rfl, rfl⟩
  · exact fun _ => trivial

theorem observe_obeys : Obeys (manners.Kept Effect) log (statement (.observe .done)) fun after now =>
    after = log ++ [.observe (.ok now)] := by
  refine statement_obeys (fun reply => .observe reply) (fun said ending talk => ?_) ?_
  · cases talk with
    | observe reply talk => cases talk; exact ⟨reply, rfl, rfl⟩
  · exact fun _ => trivial

theorem acquire_obeys {lock : Lock} (above : ∀ held, log.Holds held → held.Below lock) :
    Obeys (manners.Kept Effect) log (statement (.acquire lock .done)) fun after now =>
      after = log ++ [.acquire lock (.ok now)] := by
  refine statement_obeys (fun reply => .acquire lock reply) (fun said ending talk => ?_) ?_
  · cases talk with
    | acquire _ reply talk => cases talk; exact ⟨reply, rfl, rfl⟩
  · exact fun _ => above

theorem readCell_obeys {cell : Cell} (holds : log.Holds (guardOf cell)) :
    Obeys (manners.Kept Effect) log (readCell cell) fun after value => after = log ++ [.read cell (.ok value)] := by
  refine statement_obeys (fun reply => .read cell reply) (fun said ending talk => ?_) ?_
  · cases talk with
    | read _ reply talk => cases talk; exact ⟨reply, rfl, rfl⟩
  · exact fun _ => holds

theorem writeCell_obeys {cell : Cell} (holds : log.Holds (guardOf cell)) (value : database.Value cell) :
    Obeys (manners.Kept Effect) log (writeCell cell value) fun after _ => after = log ++
      [.write cell value (.ok ())] := by
  refine statement_obeys (fun reply => .write cell value reply) (fun said ending talk => ?_) ?_
  · cases talk with
    | write _ _ reply talk => cases talk; exact ⟨reply, rfl, rfl⟩
  · exact fun _ => holds

theorem commitStrict_obeys (going : log.Open)
    (effect : ∀ content, log.Heard content → Effect log content (log.view content)) :
    Obeys (manners.Kept Effect) log commitStrict fun after _ => after = log ++ [.commit (.ok ()) true] := by
  intro said ending talk
  cases talk with
  | commit reply applied told talk =>
    cases reply with
    | ok _ =>
      cases talk
      cases told rfl
      refine ⟨⟨⟨going, effect⟩, trivial⟩, ?_⟩
      rintro _ ⟨⟩
      rfl
    | error context =>
      cases talk
      exact ⟨⟨⟨going, effect⟩, trivial⟩, nofun⟩

/-! ## The frame -/

/-- A transaction keeps its manners if its body does. -/
theorem strictTransaction_talks {body : Call α} {Post : Log database → α → Prop}
    (obeys : Obeys (manners.Kept Effect) [.start (.ok ())] body Post) :
    ∀ said ending, Talk (strictTransaction body) said ending →
      Log.Allowed (manners.Kept Effect) [] said ∧ ∀ value, ending = some (.ok value) → Post said value := by
  intro said ending talk
  cases talk with
  | start reply talk =>
    cases reply with
    | error context =>
      cases talk
      exact ⟨⟨trivial, trivial⟩, nofun⟩
    | ok _ =>
      rcases talk.split with ⟨rfl, panics⟩ | ⟨result, before, after, rfl, left, right⟩
      · exact ⟨⟨trivial, (obeys _ _ panics).1⟩, nofun⟩
      · obtain ⟨allowed, returned⟩ := obeys _ _ left
        cases result with
        | ok value =>
          cases right
          rw [List.append_nil]
          refine ⟨⟨trivial, allowed⟩, ?_⟩
          rintro _ ⟨⟩
          exact returned value rfl
        | error problem =>
          cases right with
          | rollback reply talk =>
            refine ⟨⟨trivial, Log.allowed_append.mpr ⟨allowed, ?_⟩⟩, fun value same => ?_⟩
            · cases reply <;> cases talk <;> exact ⟨trivial, trivial⟩
            · cases reply <;> cases talk <;> cases same

/-! ## One bucket -/

/-- A row that a reader at a time takes for gone. -/
def Expired (now : Time) (row : Option Row) : Prop := ∃ stored, row = some stored ∧ stored.expiresAt.nanos ≤ now.nanos

theorem beginLockedStrict_obeys (key : Digest) :
    Obeys (manners.Kept Effect) [.start (.ok ())] (beginLockedStrict key) fun after _ =>
      after.Holds (guardOf (.bucket key)) := by
  refine configure_obeys.bind fun log _ same => ?_
  subst same
  refine (acquire_obeys ?_).mono fun after now same => ?_
  · rintro held ⟨-, now, got⟩
    simp at got
  · rw [same]
    exact ⟨by simp [Log.Open, Exchange.ends], now, by simp [guardOf]⟩

/-- A load reads the row, and deletes it if it has expired. -/
theorem loadStateStrict_obeys {key : Digest} (holds : log.Holds (guardOf (.bucket key))) (now : Time) :
    Obeys (manners.Kept Effect) log (loadStateStrict key now) fun after state => ∃ row rest,
      after = log ++ .read (.bucket key) (.ok row) :: rest ∧ loadRow row now = .ok state ∧
        (rest = [] ∨ Expired now row ∧ rest = [.write (.bucket key) none (.ok ())]) := by
  refine (readCell_obeys holds).bind fun after row same => ?_
  subst same
  cases row with
  | none => exact obeys_pure ⟨none, [], rfl, rfl, .inl rfl⟩
  | some row =>
    dsimp only
    split
    · exact obeys_throw
    rename_i short
    split
    · rename_i live
      cases decoded : decodeState row.state with
      | ok state => exact obeys_pure ⟨some row, [], rfl, by simp [loadRow, short, live, decoded], .inl rfl⟩
      | error cause => exact obeys_throw
    · rename_i gone
      have going : Log.Open [(.read (.bucket key) (.ok (some row)) : Exchange database)] := by
        simp [Log.Open, Exchange.ends]
      refine (writeCell_obeys (holds.append going) none).bind fun after _ same =>
        obeys_pure ⟨some row, _, ?_, ?_, .inr ⟨⟨row, rfl, not_lt.mp gone⟩, rfl⟩⟩
      · rw [same, List.append_assoc]
        rfl
      · simp [loadRow, short, gone]

/-! Parts that make no calls. -/

theorem compute_silent (machine : Machine α) :
    Obeys rule log (compute machine : Call α) fun after value => after = log ∧ machine.Returns value :=
  obeys_lift fun _ returns => ⟨rfl, returns⟩

theorem panic_silent {Post : Log database → α → Prop} : Obeys rule log (ExceptT.lift .panic : Call α) Post :=
  obeys_lift (show ∀ value, Machine.panic.Returns value → _ from by rintro _ ⟨_, ⟨⟩⟩)

theorem authoritativeTime_silent (clock : ClockPolicy) (request : Request) (duration : Duration) (serverNow : Int) :
    Obeys rule log (authoritativeTime clock request duration serverNow) fun after _ => after = log := by
  cases clock with
  | clientClock => exact obeys_pure rfl
  | serverClock =>
    refine (compute_silent _).bind fun after problem same => ?_
    cases problem with
    | some problem => exact obeys_throw
    | none => exact obeys_pure same.1

theorem strictPostgresDecisionResult_silent (mutation : Mutation) :
    Obeys rule log (strictPostgresDecisionResult mutation) fun after result =>
      after = log ∧ mutation.next = some result.1 ∧ result.2 = ⟨mutation.decision, mutation.error⟩ := by
  unfold strictPostgresDecisionResult
  split
  · rename_i error next
    split
    · exact obeys_throw
    · exact obeys_pure ⟨rfl, next, rfl⟩
  · rename_i error next
    split
    · exact obeys_throw
    · exact obeys_pure ⟨rfl, next, rfl⟩
  · exact panic_silent
  · exact panic_silent
  · exact obeys_throw

theorem strictPostgresLeaseResult_silent (mutation : LeaseMutation) :
    Obeys rule log (strictPostgresLeaseResult mutation) fun after _ => after = log := by
  unfold strictPostgresLeaseResult
  split
  · split
    · exact obeys_throw
    · exact obeys_pure rfl
  · split
    · exact obeys_throw
    · exact obeys_pure rfl
  · exact panic_silent
  · exact panic_silent
  · exact obeys_throw

/-- What is left of an operation on one bucket: the row is written, and the transaction is
over. -/
theorem writes_obeys {key : Digest} (holds : log.Holds (guardOf (.bucket key))) (row : Option Row) (value : α) :
    Obeys (manners.Kept fun _ _ _ => True) log
      (do writeCell (.bucket key) row; commitStrict; pure value) fun _ _ => True := by
  refine (writeCell_obeys holds row).bind fun after _ same => ?_
  have going : after.Open := by
    rw [same, Log.open_snoc]
    exact ⟨holds.1, rfl⟩
  exact (commitStrict_obeys going fun _ _ => trivial).bind fun _ _ _ => obeys_pure trivial

end

/-- A bucket is still locked after its row is loaded. -/
theorem holds_loaded {log after : Log database} {key : Digest} {row : Option Row} {rest : Log database}
    (holds : log.Holds (guardOf (.bucket key)))
    (same : after = log ++ .read (.bucket key) (.ok row) :: rest)
    (writes : rest = [] ∨ Expired now row ∧ rest = [.write (.bucket key) none (.ok ())]) :
      after.Holds (guardOf (.bucket key)) := by
  rw [same]
  refine holds.append ?_
  rcases writes with rfl | ⟨-, rfl⟩ <;> simp [Log.Open, Exchange.ends]

/-- A program with the manners of this package, whatever it commits. -/
def Mannered (program : Program database α) : Prop :=
  ∀ said ending, Talk program said ending → Log.Allowed (manners.Kept fun _ _ _ => True) [] said

theorem mannered_pure (value : α) : Mannered (pure value) := by
  intro said ending talk
  cases talk
  trivial

theorem strictTransaction_mannered {body : Call α}
    (obeys : Obeys (manners.Kept fun _ _ _ => True) [.start (.ok ())] body fun _ _ => True) :
    Mannered (strictTransaction body) := fun said ending talk => (strictTransaction_talks obeys said ending talk).1

/-- The start that admissions and acquisitions share: the lock, the time and the row. -/
theorem loads_mannered {clock : ClockPolicy} {key : Digest} {request : Request} {duration : Duration}
    {rest : Request → Option PersistedState → Call α}
    (obeys : ∀ (log : Log database) timed current, log.Holds (guardOf (.bucket key)) →
      Obeys (manners.Kept fun _ _ _ => True) log (rest timed current) fun _ _ => True) :
    Mannered (strictTransaction do
      let serverNow ← beginLockedStrict key
      let timed ← authoritativeTime clock request duration serverNow
      let current ← loadStateStrict key timed.now
      rest timed current) := by
  refine strictTransaction_mannered ((beginLockedStrict_obeys key).bind fun log serverNow holds => ?_)
  refine (authoritativeTime_silent _ _ _ _).bind fun log timed same => ?_
  subst same
  refine (loadStateStrict_obeys holds _).bind fun log current loaded => ?_
  obtain ⟨row, writes, same, -, gone⟩ := loaded
  exact obeys log timed current (holds_loaded holds same gone)

theorem admitStrict_mannered (clock : ClockPolicy) (key : Digest) (request : Request) :
    Mannered (admitStrict clock key request) := by
  refine loads_mannered fun log timed current holds => ?_
  refine (compute_silent _).bind fun log mutation same => ?_
  obtain ⟨rfl, -⟩ := same
  refine (strictPostgresDecisionResult_silent _).bind fun log ⟨next, answer⟩ same => ?_
  obtain ⟨rfl, -⟩ := same
  refine (compute_silent _).bind fun log ttl same => ?_
  obtain ⟨rfl, -⟩ := same
  exact writes_obeys holds _ _

theorem acquireStrict_mannered (clock : ClockPolicy) (key : Digest) (request : LeaseRequest) (digest : GoString) :
    Mannered (acquireStrict clock key request digest) := by
  refine loads_mannered fun log timed current holds => ?_
  refine (compute_silent _).bind fun log mutation same => ?_
  obtain ⟨rfl, -⟩ := same
  refine (strictPostgresLeaseResult_silent _).bind fun log ⟨next, lease, answer⟩ same => ?_
  subst same
  refine (compute_silent _).bind fun log ttl same => ?_
  obtain ⟨rfl, -⟩ := same
  exact writes_obeys holds _ _

theorem releaseStrict_mannered (key : Digest) (lease : Lease) (digest : GoString) :
    Mannered (releaseStrict key lease digest) := by
  refine strictTransaction_mannered ((beginLockedStrict_obeys key).bind fun log serverNow holds => ?_)
  have loads : Obeys (manners.Kept fun _ _ _ => True) log (loadStateForReleaseStrict key) fun after _ =>
      after.Holds (guardOf (.bucket key)) := by
    refine (readCell_obeys holds).bind fun after row same => ?_
    have kept : after.Holds (guardOf (.bucket key)) := by
      rw [same]
      exact holds.append (by simp [Log.Open, Exchange.ends])
    cases row with
    | none => exact obeys_pure kept
    | some row =>
      dsimp only
      split
      · exact obeys_throw
      · cases decodeState row.state with
        | ok state => exact obeys_pure kept
        | error cause => exact obeys_throw
  refine loads.bind fun log current holds => ?_
  cases current with
  | none => exact obeys_throw
  | some current =>
    refine (compute_silent _).bind fun log problem same => ?_
    obtain ⟨rfl, -⟩ := same
    cases problem with
    | some problem => exact obeys_throw
    | none =>
      dsimp only
      split
      · exact obeys_throw
      split
      · exact obeys_throw
      · simpa only [bind_pure_unit] using writes_obeys holds _ ()

end RateLimit.Postgres
