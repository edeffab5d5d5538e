import RateLimit.GoRuntime
import Mathlib.Data.List.Forall2
import Mathlib.Data.List.Induction

/-! Runs of a state machine on a list of inputs, step by step. The steps are
`Machine` computations, so a run can wrap or panic; the rules here say when it does
neither, and carry a property of single steps to the whole run: an invariant of
the history so far, and a relation between two machines fed the same inputs. -/
namespace RateLimit

/-- One step of a run, with the state on both sides of it. -/
structure Entry (σ ι ο : Type) where
  before : σ
  input : ι
  output : ο
  after : σ
  deriving DecidableEq

namespace Runs

variable {σ τ ι ο ο' : Type}

/-- The steps a machine takes on a list of inputs. -/
def trace (step : σ → ι → Machine (σ × ο)) : σ → List ι → Machine (List (Entry σ ι ο))
  | _, [] => pure []
  | state, input :: rest => do
    let result ← step state input
    let entries ← trace step result.1 rest
    pure (⟨state, input, result.2, result.1⟩ :: entries)

/-- The induction behind the two rules for histories. `Gives` is how a step and a run
give their values: exactly, or at least without a panic. -/
private theorem history_from (Gives : ∀ {α : Type}, Machine α → α → Prop)
    (returned : ∀ {α : Type} (value : α), Gives (pure value) value)
    (bound : ∀ {α β : Type} {first : Machine α} {rest : α → Machine β} {a : α} {b : β},
      Gives first a → Gives (rest a) b → Gives (first >>= rest) b)
    {step : σ → ι → Machine (σ × ο)}
    (Inv : List (Entry σ ι ο) → σ → Prop) (Good : List (Entry σ ι ο) → Entry σ ι ο → Prop)
    {inputs : List ι} (kept : ∀ history state input, Inv history state → input ∈ inputs →
      ∃ result, Gives (step state input) result ∧
        Good history ⟨state, input, result.2, result.1⟩ ∧
        Inv (history ++ [⟨state, input, result.2, result.1⟩]) result.1)
    (history : List (Entry σ ι ο)) (start : Inv history state) :
    ∃ entries, Gives (trace step state inputs) entries ∧ entries.map Entry.input = inputs ∧
      ∀ earlier entry later, entries = earlier ++ entry :: later →
        Inv (history ++ earlier) entry.before ∧ Good (history ++ earlier) entry ∧
          Inv (history ++ earlier ++ [entry]) entry.after := by
  induction inputs generalizing state history with
  | nil => exact ⟨[], returned _, rfl, by simp⟩
  | cons input rest ih =>
    obtain ⟨result, exact, good, next⟩ := kept history state input start (by simp)
    obtain ⟨entries, run, inputs, held⟩ := ih (fun history state input held member =>
      kept history state input held (List.mem_cons_of_mem _ member)) _ next
    refine ⟨⟨state, input, result.2, result.1⟩ :: entries, ?_, by simp [inputs], ?_⟩
    · exact bound exact (bound run (returned _))
    · intro earlier entry later shape
      cases earlier with
      | nil =>
        simp only [List.nil_append, List.cons.injEq] at shape
        obtain ⟨rfl, -⟩ := shape
        exact ⟨by simpa using start, by simpa using good, by simpa using next⟩
      | cons first earlier =>
        simp only [List.cons_append, List.cons.injEq] at shape
        obtain ⟨rfl, shape⟩ := shape
        simpa using held earlier entry later shape

/-- An invariant of the history: where the steps taken so far and the state they
lead to satisfy `Inv`, the next step is exact, is `Good` after that history, and
satisfies `Inv` again. Then the whole run is exact, `Inv` holds before and after each
of its entries, and every entry is `Good` after those before it. -/
theorem trace_history (step : σ → ι → Machine (σ × ο)) (Inv : List (Entry σ ι ο) → σ → Prop)
    (Good : List (Entry σ ι ο) → Entry σ ι ο → Prop) (inputs : List ι)
    (kept : ∀ history state input, Inv history state → input ∈ inputs →
      ∃ result, step state input = pure result ∧
        Good history ⟨state, input, result.2, result.1⟩ ∧
        Inv (history ++ [⟨state, input, result.2, result.1⟩]) result.1)
    (start : Inv [] state) :
    ∃ entries, trace step state inputs = pure entries ∧ entries.map Entry.input = inputs ∧
      ∀ earlier entry later, entries = earlier ++ entry :: later →
        Inv earlier entry.before ∧ Good earlier entry ∧ Inv (earlier ++ [entry]) entry.after := by
  have run := history_from (fun computation value => computation = pure value)
    (fun _ => rfl) (fun first next => by rw [first, pure_bind, next]) Inv Good kept [] start
  simpa using run

/-- The same for steps that may wrap: the run returns. -/
theorem trace_returns (step : σ → ι → Machine (σ × ο)) (Inv : List (Entry σ ι ο) → σ → Prop)
    (Good : List (Entry σ ι ο) → Entry σ ι ο → Prop) (inputs : List ι)
    (kept : ∀ history state input, Inv history state → input ∈ inputs →
      ∃ result, (step state input).Returns result ∧
        Good history ⟨state, input, result.2, result.1⟩ ∧
        Inv (history ++ [⟨state, input, result.2, result.1⟩]) result.1)
    (start : Inv [] state) :
    ∃ entries, (trace step state inputs).Returns entries ∧ entries.map Entry.input = inputs ∧
      ∀ earlier entry later, entries = earlier ++ entry :: later →
        Inv earlier entry.before ∧ Good earlier entry ∧ Inv (earlier ++ [entry]) entry.after := by
  have run := history_from Machine.Returns Machine.returns_pure Machine.Returns.bind
    Inv Good kept [] start
  simpa using run

/-- A stretch of a history with one more entry starts with that entry, or ends with
it and goes on from a stretch of the old history. -/
theorem stretch_snoc {history earlier middle : List α} {first last : α}
    (shape : history ++ [last] = earlier ++ first :: middle) :
    (middle = [] ∧ first = last ∧ earlier = history) ∨
      ∃ between, middle = between ++ [last] ∧ history = earlier ++ first :: between := by
  rcases List.eq_nil_or_concat middle with rfl | ⟨between, final, rfl⟩
  · obtain ⟨rfl, same⟩ := List.append_inj' shape rfl
    simp only [List.cons.injEq, and_true] at same
    exact Or.inl ⟨rfl, same.symm, rfl⟩
  · rw [List.concat_eq_append, ← List.cons_append, ← List.append_assoc] at shape
    obtain ⟨rfl, same⟩ := List.append_inj' shape rfl
    simp only [List.cons.injEq, and_true] at same
    exact Or.inr ⟨between, by rw [List.concat_eq_append, same], rfl⟩

/-- Where a condition on an entry says, after entries that met it, whether something
holds there, all entries meet it exactly where that holds at every one. -/
theorem all_iff_prefix {entries : List α} {Safe : α → Prop} {Holds : List α → α → Prop}
    (decides : ∀ earlier entry later, entries = earlier ++ entry :: later → (∀ before ∈ earlier, Safe before) →
      (Safe entry ↔ Holds earlier entry)) :
    (∀ entry ∈ entries, Safe entry) ↔
      ∀ earlier entry later, entries = earlier ++ entry :: later → Holds earlier entry := by
  constructor
  · intro safe earlier entry later shape
    have inside : ∀ before ∈ earlier, Safe before := fun before member =>
      safe before (by rw [shape]; exact List.mem_append_left _ member)
    exact (decides earlier entry later shape inside).mp (safe entry (by simp [shape]))
  · intro holds
    have reached : ∀ earlier later, entries = earlier ++ later → ∀ entry ∈ earlier, Safe entry := by
      intro earlier
      induction earlier using List.reverseRecOn with
      | nil => simp
      | append_singleton earlier last ih =>
        intro later shape entry member
        rw [List.append_assoc, List.singleton_append] at shape
        have before := ih _ shape
        rcases List.mem_append.mp member with old | new
        · exact before entry old
        · obtain rfl := List.mem_singleton.mp new
          exact (decides earlier entry later shape before).mpr (holds earlier entry later shape)
    exact reached entries [] (by simp)

/-- An invariant of the state alone, and what every step from it satisfies. -/
theorem trace_invariant (step : σ → ι → Machine (σ × ο)) (Inv : σ → Prop)
    (Good : Entry σ ι ο → Prop) (inputs : List ι)
    (kept : ∀ state input, Inv state → input ∈ inputs →
      ∃ result, step state input = pure result ∧ Inv result.1 ∧
        Good ⟨state, input, result.2, result.1⟩)
    (start : Inv state) :
    ∃ entries, trace step state inputs = pure entries ∧ entries.map Entry.input = inputs ∧
      ∀ entry ∈ entries, Inv entry.before ∧ Good entry := by
  obtain ⟨entries, run, same, held⟩ := trace_history step (fun _ => Inv) (fun _ => Good) inputs
    (fun _ state input inv member => by
      obtain ⟨result, exact, next, good⟩ := kept state input inv member
      exact ⟨result, exact, good, next⟩) start
  refine ⟨entries, run, same, fun entry member => ?_⟩
  obtain ⟨earlier, later, shape⟩ := List.append_of_mem member
  obtain ⟨before, good, -⟩ := held earlier entry later shape
  exact ⟨before, good⟩

/-- One step of a run that returned, and the rest of it. -/
theorem trace_cons {step : σ → ι → Machine (σ × ο)} (run : (trace step state (input :: rest)).Returns entries) :
    ∃ result later, (step state input).Returns result ∧ (trace step result.1 rest).Returns later ∧
      entries = ⟨state, input, result.2, result.1⟩ :: later := by
  obtain ⟨result, here, run⟩ := Machine.Returns.of_bind run
  obtain ⟨later, run, last⟩ := Machine.Returns.of_bind run
  exact ⟨result, later, here, run, last.unique (Machine.returns_pure _)⟩

theorem trace_inputs {step : σ → ι → Machine (σ × ο)} (run : (trace step state inputs).Returns entries) :
    entries.map Entry.input = inputs := by
  induction inputs generalizing state entries with
  | nil =>
    cases run.unique (Machine.returns_pure _)
    rfl
  | cons input rest ih =>
    obtain ⟨result, later, -, onward, rfl⟩ := trace_cons run
    simp [ih onward]

/-- The induction behind the rules for two machines. -/
private theorem simulation_from (Gives : ∀ {α : Type}, Machine α → α → Prop)
    (returned : ∀ {α : Type} (value : α), Gives (pure value) value)
    (bound : ∀ {α β : Type} {first : Machine α} {rest : α → Machine β} {a : α} {b : β},
      Gives first a → Gives (rest a) b → Gives (first >>= rest) b)
    {left : σ → ι → Machine (σ × ο)} {right : τ → ι → Machine (τ × ο')}
    {Rel : σ → τ → Prop} (Good : Entry σ ι ο → Entry τ ι ο' → Prop) {inputs : List ι}
    (kept : ∀ state other input, Rel state other → input ∈ inputs →
      ∃ first second, Gives (left state input) first ∧ Gives (right other input) second ∧
        Good ⟨state, input, first.2, first.1⟩ ⟨other, input, second.2, second.1⟩ ∧ Rel first.1 second.1)
    (start : Rel state other) :
    ∃ firsts seconds, Gives (trace left state inputs) firsts ∧ Gives (trace right other inputs) seconds ∧
      List.Forall₂ (fun first second => Good first second ∧ Rel first.after second.after) firsts seconds := by
  induction inputs generalizing state other with
  | nil => exact ⟨[], [], returned _, returned _, .nil⟩
  | cons input rest ih =>
    obtain ⟨first, second, givesFirst, givesSecond, same, next⟩ := kept state other input start (by simp)
    obtain ⟨firsts, seconds, runFirst, runSecond, later⟩ := ih (fun state other input held member =>
      kept state other input held (List.mem_cons_of_mem _ member)) next
    exact ⟨⟨state, input, first.2, first.1⟩ :: firsts, ⟨other, input, second.2, second.1⟩ :: seconds,
      bound givesFirst (bound runFirst (returned _)), bound givesSecond (bound runSecond (returned _)),
      .cons ⟨same, next⟩ later⟩

variable (left : σ → ι → Machine (σ × ο)) (right : τ → ι → Machine (τ × ο'))

/-- Two machines fed the same inputs: where a relation on states makes both steps
exact with matching outputs and is kept by them, both runs are exact and all their
outputs match. -/
theorem trace_simulation (Rel : σ → τ → Prop) (Match : ι → ο → ο' → Prop) (inputs : List ι)
    (kept : ∀ state other input, Rel state other → input ∈ inputs →
      ∃ first second, left state input = pure first ∧ right other input = pure second ∧
        Match input first.2 second.2 ∧ Rel first.1 second.1)
    (start : Rel state other) :
    ∃ firsts seconds, trace left state inputs = pure firsts ∧
      trace right other inputs = pure seconds ∧
      List.Forall₂ (fun first second => Match first.input first.output second.output ∧
        Rel first.after second.after) firsts seconds :=
  simulation_from (fun computation value => computation = pure value)
    (fun _ => rfl) (fun first next => by rw [first, pure_bind, next])
    (fun first second => Match first.input first.output second.output) kept start

/-- Two machines that answer every input alike. -/
theorem trace_same_outputs (left : σ → ι → Machine (σ × ο)) (right : τ → ι → Machine (τ × ο))
    (Rel : σ → τ → Prop) (inputs : List ι)
    (kept : ∀ state other input, Rel state other → input ∈ inputs →
      ∃ first second, left state input = pure first ∧ right other input = pure second ∧
        first.2 = second.2 ∧ Rel first.1 second.1)
    (start : Rel state other) :
    ∃ firsts seconds, trace left state inputs = pure firsts ∧ trace right other inputs = pure seconds ∧
      firsts.map Entry.output = seconds.map Entry.output := by
  obtain ⟨firsts, seconds, runFirst, runSecond, same⟩ :=
    trace_simulation left right Rel (fun _ first second => first = second) inputs kept start
  have outputs : List.Forall₂ (· = ·) (firsts.map Entry.output) (seconds.map Entry.output) :=
    List.forall₂_map_left_iff.mpr (List.forall₂_map_right_iff.mpr (same.imp fun _ _ both => both.1))
  rw [List.forall₂_eq_eq_eq] at outputs
  exact ⟨firsts, seconds, runFirst, runSecond, outputs⟩

/-- The rule for matching outputs where steps may wrap. -/
theorem trace_returns_simulation (Rel : σ → τ → Prop) (Match : ι → ο → ο' → Prop) (inputs : List ι)
    (kept : ∀ state other input, Rel state other → input ∈ inputs →
      ∃ first second, (left state input).Returns first ∧ (right other input).Returns second ∧
        Match input first.2 second.2 ∧ Rel first.1 second.1)
    (start : Rel state other) :
    ∃ firsts seconds, (trace left state inputs).Returns firsts ∧ (trace right other inputs).Returns seconds ∧
      List.Forall₂ (fun first second => Match first.input first.output second.output ∧
        Rel first.after second.after) firsts seconds :=
  simulation_from Machine.Returns Machine.returns_pure Machine.Returns.bind
    (fun first second => Match first.input first.output second.output) kept start

/-- Two machines fed inputs in order; the relation may depend on how far they have come. -/
theorem trace_returns_sorted {κ : Type} [Preorder κ] (stamp : ι → κ) (Rel : κ → σ → τ → Prop)
    (Match : ι → ο → ο' → Prop) {inputs : List ι}
    (time : κ) (sorted : inputs.Pairwise fun first second => stamp first ≤ stamp second)
    (kept : ∀ time state other input, Rel time state other → time ≤ stamp input → input ∈ inputs →
      ∃ first second, (left state input).Returns first ∧ (right other input).Returns second ∧
        Match input first.2 second.2 ∧ Rel (stamp input) first.1 second.1)
    (later : ∀ input ∈ inputs, time ≤ stamp input) (start : Rel time state other) :
    ∃ firsts seconds, (trace left state inputs).Returns firsts ∧ (trace right other inputs).Returns seconds ∧
      List.Forall₂ (fun first second => Match first.input first.output second.output) firsts seconds := by
  induction inputs generalizing time state other with
  | nil => exact ⟨[], [], Machine.returns_pure _, Machine.returns_pure _, .nil⟩
  | cons input rest ih =>
    obtain ⟨next, sorted⟩ := List.pairwise_cons.mp sorted
    obtain ⟨first, second, runFirst, runSecond, same, related⟩ :=
      kept time state other input start (later input List.mem_cons_self) List.mem_cons_self
    obtain ⟨firsts, seconds, onFirst, onSecond, rest⟩ := ih (stamp input) sorted
      (fun time state other input related after member =>
        kept time state other input related after (List.mem_cons_of_mem _ member)) next related
    exact ⟨⟨state, input, first.2, first.1⟩ :: firsts, ⟨other, input, second.2, second.1⟩ :: seconds,
      runFirst.bind (onFirst.bind (Machine.returns_pure _)), runSecond.bind (onSecond.bind (Machine.returns_pure _)),
      .cons same rest⟩

/-- Outputs that are equal exactly where a step is `Safe` are all equal exactly where all
steps are. -/
private theorem outputs_iff {Safe : σ → ι → Prop} {firsts : List (Entry σ ι ο)} {seconds : List (Entry τ ι ο)}
    (same : List.Forall₂ (fun first second => Safe first.before first.input ↔ first.output = second.output)
      firsts seconds) :
    (∀ entry ∈ firsts, Safe entry.before entry.input) ↔ firsts.map Entry.output = seconds.map Entry.output := by
  induction same with
  | nil => simp
  | cons here _ ih =>
    rw [List.forall_mem_cons, List.map_cons, List.map_cons, List.cons.injEq]
    exact and_congr here ih

/-- Two machines whose states always stay related, and whose outputs are equal at a step
exactly where the step is `Safe`: all outputs are equal exactly where all steps are safe. -/
theorem trace_agrees_iff (left : σ → ι → Machine (σ × ο)) (right : τ → ι → Machine (τ × ο)) (Rel : σ → τ → Prop)
    (Safe : σ → ι → Prop) (inputs : List ι)
    (kept : ∀ state other input, Rel state other → input ∈ inputs →
      ∃ first second, (left state input).Returns first ∧ (right other input).Returns second ∧
        (Safe state input ↔ first.2 = second.2) ∧ Rel first.1 second.1)
    (start : Rel state other) :
    ∃ firsts seconds, (trace left state inputs).Returns firsts ∧ (trace right other inputs).Returns seconds ∧
      firsts.map Entry.input = inputs ∧
      ((∀ entry ∈ firsts, Safe entry.before entry.input) ↔ firsts.map Entry.output = seconds.map Entry.output) := by
  obtain ⟨firsts, seconds, runFirst, runSecond, same⟩ := simulation_from Machine.Returns Machine.returns_pure
    Machine.Returns.bind (fun first second => Safe first.before first.input ↔ first.output = second.output) kept start
  exact ⟨firsts, seconds, runFirst, runSecond, trace_inputs runFirst, outputs_iff (same.imp fun _ _ both => both.1)⟩

/-- Two machines of which the second stands still where the first `Stops`. The run of
the first is exact; where it never stops, that of the second is exact too, all their
outputs match and their states stay related. -/
theorem trace_follows (Rel : σ → τ → Prop) (Stops : ο → Prop) (Match : ι → ο → ο' → Prop) (inputs : List ι)
    (kept : ∀ state other input, Rel state other → input ∈ inputs →
      ∃ first, left state input = pure first ∧
        ((Stops first.2 ∧ Rel first.1 other) ∨
          ∃ second, right other input = pure second ∧ Match input first.2 second.2 ∧
            Rel first.1 second.1))
    (start : Rel state other) :
    ∃ firsts, trace left state inputs = pure firsts ∧
      ((∀ entry ∈ firsts, ¬ Stops entry.output) →
        ∃ seconds, trace right other inputs = pure seconds ∧
          List.Forall₂ (fun first second => Match first.input first.output second.output ∧
            Rel first.after second.after) firsts seconds) := by
  induction inputs generalizing state other with
  | nil => exact ⟨[], rfl, fun _ => ⟨[], rfl, .nil⟩⟩
  | cons input rest ih =>
    obtain ⟨first, exactFirst, cases⟩ := kept state other input start (by simp)
    have keptRest : ∀ state other input, Rel state other → input ∈ rest → _ :=
      fun state other input held member => kept state other input held (List.mem_cons_of_mem _ member)
    rcases cases with ⟨stops, next⟩ | ⟨second, exactSecond, same, next⟩
    · obtain ⟨firsts, run, -⟩ := ih keptRest next
      refine ⟨⟨state, input, first.2, first.1⟩ :: firsts, ?_, fun clear => ?_⟩
      · simp only [trace, exactFirst, pure_bind, run]
      · exact absurd stops (clear _ List.mem_cons_self)
    · obtain ⟨firsts, run, follows⟩ := ih keptRest next
      refine ⟨⟨state, input, first.2, first.1⟩ :: firsts, ?_, fun clear => ?_⟩
      · simp only [trace, exactFirst, pure_bind, run]
      · obtain ⟨seconds, runSecond, later⟩ := follows fun entry member =>
          clear entry (List.mem_cons_of_mem _ member)
        refine ⟨⟨other, input, second.2, second.1⟩ :: seconds, ?_, .cons ⟨same, next⟩ later⟩
        simp only [trace, exactSecond, pure_bind, runSecond]

/-- Two machines whose outputs match exactly while every step of the first is `Safe`.
Both runs are exact by an invariant of the pair; a relation on their states makes
the outputs match if and only if the step is safe, and survives a safe step. -/
theorem trace_agrees (Inv Rel : σ → τ → Prop) (Safe : σ → ι → Prop) (Match : ο → ο' → Prop) (inputs : List ι)
    (kept : ∀ state other input, Inv state other → input ∈ inputs →
      ∃ first second, left state input = pure first ∧ right other input = pure second ∧ Inv first.1 second.1 ∧
        (Rel state other → (Safe state input ↔ Match first.2 second.2) ∧ (Safe state input → Rel first.1 second.1)))
    (start : Inv state other) :
    ∃ firsts seconds, trace left state inputs = pure firsts ∧ trace right other inputs = pure seconds ∧
      (Rel state other →
        ((∀ entry ∈ firsts, Safe entry.before entry.input) ↔
          List.Forall₂ (fun first second => Match first.output second.output) firsts seconds) ∧
        ((∀ entry ∈ firsts, Safe entry.before entry.input) →
          List.Forall₂ (fun first second => first.input = second.input ∧ Match first.output second.output ∧
            Rel first.after second.after) firsts seconds)) := by
  induction inputs generalizing state other with
  | nil => exact ⟨[], [], rfl, rfl, fun _ => ⟨by simp, fun _ => .nil⟩⟩
  | cons input rest ih =>
    obtain ⟨first, second, exactFirst, exactSecond, next, agrees⟩ := kept state other input start List.mem_cons_self
    obtain ⟨firsts, seconds, runFirst, runSecond, later⟩ := ih (fun state other input held member =>
      kept state other input held (List.mem_cons_of_mem _ member)) next
    refine ⟨⟨state, input, first.2, first.1⟩ :: firsts, ⟨other, input, second.2, second.1⟩ :: seconds,
      ?_, ?_, fun related => ?_⟩
    · simp only [trace, exactFirst, pure_bind, runFirst]
    · simp only [trace, exactSecond, pure_bind, runSecond]
    -- From an unsafe step on the two runs are exact, and that is all.
    obtain ⟨iff, keeps⟩ := agrees related
    rw [List.forall_mem_cons, List.forall₂_cons, List.forall₂_cons]
    refine ⟨⟨fun ⟨safe, clear⟩ => ⟨iff.mp safe, (later (keeps safe)).1.mp clear⟩, fun ⟨same, matching⟩ => ?_⟩,
      fun ⟨safe, clear⟩ => ⟨⟨rfl, iff.mp safe, keeps safe⟩, (later (keeps safe)).2 clear⟩⟩
    exact ⟨iff.mpr same, (later (keeps (iff.mpr same))).1.mpr matching⟩

/-- A machine and another one that is fed only some of its inputs, `mine`. Where a relation
on states survives the other inputs and makes the outputs of these the same, the second run
gives what the first gives at these inputs. Both runs may have conditions on their states. -/
theorem trace_projects (left : σ → ι → Machine (σ × ο)) (right : τ → ι → Machine (τ × ο)) (Rel : σ → τ → Prop)
    (Fits : σ → Prop) (Fits' : τ → Prop) (mine : ι → Bool) (inputs : List ι)
    (theirs : ∀ state other input result, Rel state other → Fits state → input ∈ inputs → mine input = false →
      (left state input).Returns result → Rel result.1 other)
    (same : ∀ state other input first second, Rel state other → Fits state → Fits' other → input ∈ inputs →
      mine input = true → (left state input).Returns first → (right other input).Returns second →
      second.2 = first.2 ∧ Rel first.1 second.1)
    (start : Rel state other) (run : (trace left state inputs).Returns entries)
    (run' : (trace right other (inputs.filter mine)).Returns others)
    (fits : ∀ entry ∈ entries, Fits entry.before) (fits' : ∀ entry ∈ others, Fits' entry.before) :
    others.map Entry.output = (entries.filter fun entry => mine entry.input).map Entry.output := by
  induction inputs generalizing state other entries others with
  | nil =>
    cases run.unique (Machine.returns_pure _)
    cases run'.unique (Machine.returns_pure _)
    rfl
  | cons input rest ih =>
    obtain ⟨result, later, here, onward, rfl⟩ := trace_cons run
    have smaller : ∀ {next : σ} {next' : τ} {others : List (Entry τ ι ο)}, Rel next next' →
        (trace left next rest).Returns later → (trace right next' (rest.filter mine)).Returns others →
        (∀ entry ∈ others, Fits' entry.before) →
        others.map Entry.output = (later.filter fun entry => mine entry.input).map Entry.output := by
      intro next next' others related run run' fits'
      exact ih (fun state other input result held fit member => theirs state other input result held fit
          (List.mem_cons_of_mem _ member))
        (fun state other input first second held fit fit' member => same state other input first second held fit fit'
          (List.mem_cons_of_mem _ member))
        related run run' (fun entry member => fits entry (List.mem_cons_of_mem _ member)) fits'
    have fit := fits _ List.mem_cons_self
    cases kind : mine input with
    | false =>
      rw [List.filter_cons_of_neg (by simp [kind])] at run'
      rw [List.filter_cons_of_neg (by simp [kind])]
      exact smaller (theirs _ _ _ _ start fit List.mem_cons_self kind here) onward run' fits'
    | true =>
      rw [List.filter_cons_of_pos kind] at run'
      obtain ⟨second, more, there, onward', rfl⟩ := trace_cons run'
      obtain ⟨equal, next⟩ := same _ _ _ _ _ start fit (fits' _ List.mem_cons_self) List.mem_cons_self kind here there
      have later := smaller next onward onward' fun entry member => fits' entry (List.mem_cons_of_mem _ member)
      simp only [List.filter_cons, kind, if_true, List.map_cons, equal, later]

/-- A machine whose run returned and another one that follows it while every step `Fits`. -/
theorem trace_shadows (Rel : σ → τ → Prop)
    (Fits : σ → ι → Prop) (Match : ο → ο' → Prop) (inputs : List ι)
    (kept : ∀ state other input first, Rel state other → Fits state input → input ∈ inputs →
      (left state input).Returns first →
      ∃ second, (right other input).Returns second ∧ Match first.2 second.2 ∧ Rel first.1 second.1)
    (start : Rel state other) (run : (trace left state inputs).Returns entries)
    (fits : ∀ entry ∈ entries, Fits entry.before entry.input) :
    ∃ others, (trace right other inputs).Returns others ∧
      List.Forall₂ (fun entry other => Match entry.output other.output ∧ Rel entry.after other.after)
        entries others := by
  induction inputs generalizing state other entries with
  | nil =>
    cases run.unique (Machine.returns_pure _)
    exact ⟨[], Machine.returns_pure _, .nil⟩
  | cons input rest ih =>
    obtain ⟨first, later, here, onward, rfl⟩ := trace_cons run
    obtain ⟨second, there, same, next⟩ := kept _ _ _ _ start (fits _ List.mem_cons_self) List.mem_cons_self here
    obtain ⟨others, run', matches'⟩ := ih (fun state other input first held fit member =>
        kept state other input first held fit (List.mem_cons_of_mem _ member))
      next onward fun entry member => fits entry (List.mem_cons_of_mem _ member)
    exact ⟨⟨other, input, second.2, second.1⟩ :: others, there.bind (run'.bind (Machine.returns_pure _)),
      .cons ⟨same, next⟩ matches'⟩

end Runs

end RateLimit
