import Mathlib.Algebra.BigOperators.Group.Finset.Basic
import Mathlib.Algebra.Order.BigOperators.Group.Finset
import Mathlib.Data.Int.ConditionallyCompleteOrder
import Mathlib.Data.Int.Interval
import Mathlib.Data.Fintype.BigOperators
import Mathlib.Tactic.Linarith

/-! A ring of `n` slots that stands for amounts kept under integer indices. Slot
`i mod n` serves index `i`; a slot names the index it currently holds, so a stale
slot is recognised and never counted. `Holds ring content oldest newest` says that
in the range `(oldest, newest]` the ring is exactly the function `content`. The
ring is then as good as an unbounded table as long as no more than `n` indices are
live, which is what `Holds.claim` needs when a slot is taken over. -/
namespace RateLimit

/-- Slot `s` holds `amount s` under index `index s`. -/
structure Ring (n : Nat) where
  index : Fin n → Int
  amount : Fin n → Nat

namespace Ring

variable {n : Nat} [NeZero n]

/-- The slot that serves an index. -/
def slot (n : Nat) [NeZero n] (i : Int) : Fin n :=
  ⟨(i % n).toNat, by
    have positive : (0 : Int) < n := by exact_mod_cast Nat.pos_of_ne_zero (NeZero.ne n)
    have low := Int.emod_nonneg i (Int.ne_of_gt positive)
    have high := Int.emod_lt_of_pos i positive
    omega⟩

/-- Indices less than `n` apart with the same slot are the same. -/
theorem eq_of_slot_eq {i j : Int} (same : slot n i = slot n j) (near : |i - j| < n) : i = j := by
  have positive : (0 : Int) < n := by exact_mod_cast Nat.pos_of_ne_zero (NeZero.ne n)
  have lowI := Int.emod_nonneg i (Int.ne_of_gt positive)
  have lowJ := Int.emod_nonneg j (Int.ne_of_gt positive)
  have residue : i % n = j % n := by
    have := congrArg Fin.val same
    simp only [slot] at this
    omega
  have divides : (n : Int) ∣ i - j := Int.dvd_of_emod_eq_zero (by rw [Int.sub_emod, residue]; simp)
  have zero := Int.eq_zero_of_abs_lt_dvd divides near
  omega

/-- What the slots newer than `oldest` add up to. -/
def total (ring : Ring n) (oldest : Int) : Nat :=
  ∑ s, if oldest < ring.index s then ring.amount s else 0

omit [NeZero n] in
/-- A later start counts no more. -/
theorem total_anti (ring : Ring n) (later : oldest ≤ oldest') : ring.total oldest' ≤ ring.total oldest := by
  refine Finset.sum_le_sum fun s _ => ?_
  by_cases live : oldest' < ring.index s
  · rw [if_pos live, if_pos (lt_of_le_of_lt later live)]
  · rw [if_neg live]
    exact Nat.zero_le _

omit [NeZero n] in
theorem amount_le_total (ring : Ring n) (live : oldest < ring.index s) :
    ring.amount s ≤ ring.total oldest := by
  have single := Finset.single_le_sum
    (fun s _ => Nat.zero_le (if oldest < ring.index s then ring.amount s else 0)) (Finset.mem_univ s)
  rwa [if_pos live] at single

omit [NeZero n] in
/-- A later start counts the same unless a slot with something in it lies before it. -/
theorem total_eq_iff (ring : Ring n) (later : oldest ≤ oldest') :
    ring.total oldest' = ring.total oldest ↔ ∀ s, oldest < ring.index s → ring.amount s ≠ 0 →
      oldest' < ring.index s := by
  have each : ∀ s ∈ Finset.univ, (if oldest' < ring.index s then ring.amount s else 0) ≤
      if oldest < ring.index s then ring.amount s else 0 := by
    intro s _
    split
    · rw [if_pos (by omega)]
    · exact Nat.zero_le _
  unfold total
  rw [Finset.sum_eq_sum_iff_of_le each]
  refine ⟨fun same s newer used => ?_, fun live s _ => ?_⟩
  · by_contra expired
    have here := same s (Finset.mem_univ s)
    rw [if_neg expired, if_pos newer] at here
    exact used here.symm
  · by_cases newer : oldest < ring.index s
    · by_cases used : ring.amount s = 0
      · simp [used]
      · rw [if_pos newer, if_pos (live s newer used)]
    · rw [if_neg newer, if_neg (by omega)]

omit [NeZero n] in
theorem exists_of_total_ne_zero (ring : Ring n) (some : ring.total oldest ≠ 0) :
    ∃ s, oldest < ring.index s ∧ ring.amount s ≠ 0 := by
  unfold total at some
  obtain ⟨s, -, nonzero⟩ := Finset.exists_ne_zero_of_sum_ne_zero some
  split at nonzero
  · exact ⟨s, ‹_›, nonzero⟩
  · exact absurd rfl nonzero

/-- Every amount newer than `oldest` is in its own slot and not in the future. -/
def Placed (ring : Ring n) (oldest newest : Int) : Prop :=
  ∀ s, oldest < ring.index s → ring.amount s ≠ 0 →
    ring.index s ≤ newest ∧ slot n (ring.index s) = s

/-- In `(oldest, newest]` the ring is the table `content`. -/
structure Holds (ring : Ring n) (content : Int → Nat) (oldest newest : Int) : Prop where
  sound : ∀ s, oldest < ring.index s → ring.amount s ≠ 0 →
    ring.index s ≤ newest ∧ slot n (ring.index s) = s ∧ ring.amount s = content (ring.index s)
  complete : ∀ i, oldest < i → i ≤ newest → content i ≠ 0 →
    ring.index (slot n i) = i ∧ ring.amount (slot n i) = content i

variable {ring : Ring n} {content : Int → Nat} {oldest newest : Int}

theorem Holds.placed (holds : ring.Holds content oldest newest) : ring.Placed oldest newest :=
  fun s live used => ⟨(holds.sound s live used).1, (holds.sound s live used).2.1⟩

theorem Placed.slide (placed : ring.Placed oldest newest) (start : oldest ≤ oldest')
    (stop : newest ≤ newest') : ring.Placed oldest' newest' := by
  intro s live used
  obtain ⟨past, here⟩ := placed s (lt_of_le_of_lt start live) used
  exact ⟨past.trans stop, here⟩

/-- The table a ring stands for by itself. -/
def table (ring : Ring n) (i : Int) : Nat :=
  if ring.index (slot n i) = i then ring.amount (slot n i) else 0

/-- A ring whose live amounts are placed holds its own table. -/
theorem Placed.holds (placed : ring.Placed oldest newest) :
    ring.Holds ring.table oldest newest where
  sound s live used := by
    obtain ⟨past, here⟩ := placed s live used
    exact ⟨past, here, by simp [table, here]⟩
  complete i _ _ nonzero := by
    unfold table at nonzero ⊢
    split at nonzero
    · rename_i named
      simp [named]
    · exact absurd rfl nonzero

/-- The live slots add up to the content of the range. -/
theorem Holds.total_eq (holds : ring.Holds content oldest newest) :
    ring.total oldest = ∑ i ∈ Finset.Ioc oldest newest, content i := by
  unfold total
  have live : ∀ s, (if oldest < ring.index s then ring.amount s else 0) ≠ 0 →
      oldest < ring.index s ∧ ring.amount s ≠ 0 := by
    intro s nonzero
    split at nonzero
    · exact ⟨‹_›, nonzero⟩
    · exact absurd rfl nonzero
  refine Finset.sum_bij_ne_zero (fun s _ _ => ring.index s) ?_ ?_ ?_ ?_
  · intro s _ nonzero
    obtain ⟨newer, used⟩ := live s nonzero
    exact Finset.mem_Ioc.mpr ⟨newer, (holds.sound s newer used).1⟩
  · intro s _ nonzero s' _ nonzero' same
    obtain ⟨newer, used⟩ := live s nonzero
    obtain ⟨newer', used'⟩ := live s' nonzero'
    rw [← (holds.sound s newer used).2.1, ← (holds.sound s' newer' used').2.1, same]
  · intro i inside nonzero
    obtain ⟨newer, past⟩ := Finset.mem_Ioc.mp inside
    obtain ⟨named, amount⟩ := holds.complete i newer past nonzero
    refine ⟨slot n i, Finset.mem_univ _, ?_, named⟩
    rw [named, if_pos newer, amount]
    exact nonzero
  · intro s _ nonzero
    obtain ⟨newer, used⟩ := live s nonzero
    rw [if_pos newer]
    exact (holds.sound s newer used).2.2

/-- Time moves on: the range slides forward over indices without content. -/
theorem Holds.slide (holds : ring.Holds content oldest newest) (start : oldest ≤ oldest')
    (stop : newest ≤ newest') (empty : ∀ i, newest < i → i ≤ newest' → content i = 0) :
    ring.Holds content oldest' newest' where
  sound s live used := by
    obtain ⟨past, here, amount⟩ := holds.sound s (lt_of_le_of_lt start live) used
    exact ⟨past.trans stop, here, amount⟩
  complete i newer past nonzero := by
    refine holds.complete i (lt_of_le_of_lt start newer) ?_ nonzero
    by_contra late
    exact nonzero (empty i (not_le.mp late) past)

/-- Clear every slot that is not newer than `oldest`. -/
def drop (ring : Ring n) (oldest : Int) : Ring n where
  index s := if ring.index s ≤ oldest then 0 else ring.index s
  amount s := if ring.index s ≤ oldest then 0 else ring.amount s

theorem Holds.drop (holds : ring.Holds content oldest newest) :
    (ring.drop oldest).Holds content oldest newest where
  sound s live used := by
    by_cases stale : ring.index s ≤ oldest
    · simp [Ring.drop, stale] at used
    · simp only [Ring.drop, stale, if_false] at live used ⊢
      exact holds.sound s live used
  complete i newer past nonzero := by
    obtain ⟨named, amount⟩ := holds.complete i newer past nonzero
    have fresh : ¬ ring.index (slot n i) ≤ oldest := by omega
    simp only [Ring.drop, fresh, if_false]
    exact ⟨named, amount⟩

/-- Take over the slot of index `i`, unless it is already held by `i`. -/
def claim (ring : Ring n) (i : Int) : Ring n :=
  if ring.index (slot n i) = i then ring
  else
    { index := Function.update ring.index (slot n i) i
      amount := Function.update ring.amount (slot n i) 0 }

theorem claim_index_self (ring : Ring n) (i : Int) : (ring.claim i).index (slot n i) = i := by
  unfold claim
  split
  · assumption
  · simp

/-- With at most `n` indices in the range, taking over the slot of the newest one
leaves every live amount where it is. -/
theorem Placed.claim_keeps (placed : ring.Placed oldest newest) (span : newest - oldest ≤ n)
    (live : oldest < ring.index s) (used : ring.amount s ≠ 0) :
    (ring.claim newest).index s = ring.index s ∧ (ring.claim newest).amount s = ring.amount s := by
  unfold claim
  split
  · exact ⟨rfl, rfl⟩
  · rename_i other
    obtain ⟨past, here⟩ := placed s live used
    have apart : s ≠ slot n newest := by
      intro same
      refine other ?_
      rw [← same]
      refine eq_of_slot_eq (n := n) (here.trans same) ?_
      rw [abs_lt]
      omega
    simp [Function.update_of_ne apart]

theorem Holds.claim (holds : ring.Holds content oldest newest) (span : newest - oldest ≤ n) :
    (ring.claim newest).Holds content oldest newest where
  sound s live used := by
    by_cases kept : ring.index (slot n newest) = newest
    · simp only [Ring.claim, kept, if_true] at live used ⊢
      exact holds.sound s live used
    · by_cases taken : s = slot n newest
      · subst taken
        simp [Ring.claim, kept] at used
      · simp only [Ring.claim, kept, if_false, Function.update_of_ne taken] at live used ⊢
        exact holds.sound s live used
  complete i newer past nonzero := by
    obtain ⟨named, amount⟩ := holds.complete i newer past nonzero
    have used : ring.amount (slot n i) ≠ 0 := by rw [amount]; exact nonzero
    obtain ⟨index, same⟩ := holds.placed.claim_keeps span (by rw [named]; exact newer) used
    exact ⟨index.trans named, same.trans amount⟩

/-- Add to the amount held in slot `s`. -/
def credit (ring : Ring n) (s : Fin n) (amount : Nat) : Ring n :=
  { ring with amount := Function.update ring.amount s (ring.amount s + amount) }

omit [NeZero n] in
theorem total_credit (live : oldest < ring.index s) (amount : Nat) :
    (ring.credit s amount).total oldest = ring.total oldest + amount := by
  unfold total
  rw [← Finset.add_sum_erase _ _ (Finset.mem_univ s), ← Finset.add_sum_erase _ _ (Finset.mem_univ s)]
  have others : ∀ other ∈ Finset.univ.erase s,
      (if oldest < (ring.credit s amount).index other then (ring.credit s amount).amount other else 0) =
        if oldest < ring.index other then ring.amount other else 0 := by
    intro other member
    simp [credit, Function.update_of_ne (Finset.ne_of_mem_erase member)]
  rw [Finset.sum_congr rfl others]
  simp only [credit, live, if_true, Function.update_self]
  omega

/-- In the slot an index owns stands exactly its content. -/
theorem Holds.amount_eq (holds : ring.Holds content oldest newest) (newer : oldest < i)
    (past : i ≤ newest) (named : ring.index (slot n i) = i) : ring.amount (slot n i) = content i := by
  by_cases used : ring.amount (slot n i) = 0
  · by_contra differs
    have nonzero : content i ≠ 0 := fun zero => differs (used.trans zero.symm)
    exact differs (holds.complete i newer past nonzero).2
  · have := (holds.sound (slot n i) (by rw [named]; exact newer) used).2.2
    rwa [named] at this

/-- Crediting the slot an index owns adds to the content under that index. -/
theorem Holds.credit (holds : ring.Holds content oldest newest) (newer : oldest < i)
    (past : i ≤ newest) (named : ring.index (slot n i) = i) (amount : Nat) :
    (ring.credit (slot n i) amount).Holds (Function.update content i (content i + amount))
      oldest newest where
  sound s live used := by
    by_cases here : s = slot n i
    · subst here
      simp only [Ring.credit, Function.update_self, named] at used ⊢
      exact ⟨past, trivial, by rw [holds.amount_eq newer past named]⟩
    · simp only [Ring.credit, Function.update_of_ne here] at live used ⊢
      obtain ⟨before, placed, same⟩ := holds.sound s live used
      refine ⟨before, placed, ?_⟩
      have apart : ring.index s ≠ i := by
        intro equal
        exact here (by rw [← placed, equal])
      rw [Function.update_of_ne apart, same]
  complete j newer' past' nonzero := by
    by_cases same : j = i
    · subst same
      simp only [Ring.credit, Function.update_self]
      exact ⟨named, by rw [holds.amount_eq newer past named]⟩
    · rw [Function.update_of_ne same] at nonzero ⊢
      obtain ⟨index, held⟩ := holds.complete j newer' past' nonzero
      have apart : slot n j ≠ slot n i := by
        intro equal
        rw [equal, named] at index
        exact same index.symm
      simp only [Ring.credit, Function.update_of_ne apart]
      exact ⟨index, held⟩

-- A sum over all slots has no useful weak head normal form; keep it folded.
attribute [irreducible] total

end Ring

end RateLimit
