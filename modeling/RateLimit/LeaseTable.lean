import Mathlib.Data.List.AList
import Mathlib.Data.List.Induction
import Mathlib.Algebra.Order.BigOperators.Group.List
import Mathlib.Algebra.Order.Ring.Nat

/-! Tables of weighted holds that run out. A table has one value a key; what matters
of a value is a weight and a test whether it still counts. The order of a table
carries no meaning: two tables with the same entries in another order have the same
total. A ledger that lists the holds by other names stands for a table when the
entries of the two agree up to order. -/
namespace RateLimit.LeaseTable

variable {κ ν : Type}

/-- The entries whose value passes a test. -/
def keep (test : ν → Bool) (table : AList fun _ : κ => ν) : AList fun _ : κ => ν where
  entries := table.entries.filter fun entry => test entry.2
  nodupKeys := table.nodupKeys.sublist List.filter_sublist

/-- The same keys with other values. -/
def adjust (change : ν → ν) (table : AList fun _ : κ => ν) : AList fun _ : κ => ν where
  entries := table.entries.map fun entry => ⟨entry.1, change entry.2⟩
  nodupKeys := by
    rw [List.NodupKeys, List.keys, List.map_map]
    exact table.nodupKeys

/-- The weight of all entries. -/
def total (weight : ν → Nat) (table : AList fun _ : κ => ν) : Nat :=
  (table.entries.map fun entry => weight entry.2).sum

section
variable {test : ν → Bool} {weight : ν → Nat} {table : AList fun _ : κ => ν} {key : κ} {value : ν}

theorem mem_keep {entry : Σ _ : κ, ν} :
    entry ∈ (keep test table).entries ↔ entry ∈ table.entries ∧ test entry.2 = true :=
  List.mem_filter

/-- To sweep twice is to sweep by the stricter test. -/
theorem keep_keep {stricter : ν → Bool} (implies : ∀ value, stricter value = true → test value = true) :
    keep stricter (keep test table) = keep stricter table := by
  refine AList.ext ?_
  show (table.entries.filter _).filter _ = _
  rw [List.filter_filter]
  refine List.filter_congr fun entry _ => ?_
  cases strict : stricter entry.2 with
  | false => rfl
  | true => rw [implies _ strict, Bool.true_and]

theorem total_keep_le : total weight (keep test table) ≤ total weight table :=
  List.Sublist.sum_le_sum (List.Sublist.map _ List.filter_sublist) (fun _ _ => Nat.zero_le _)

/-- If every hold weighs something, there are no more of them than their total. -/
theorem length_le_total (positive : ∀ entry ∈ table.entries, 0 < weight entry.2) :
    table.entries.length ≤ total weight table := by
  have each := List.length_le_sum_of_one_le (table.entries.map fun entry => weight entry.2)
    (fun amount member => by
      obtain ⟨entry, present, rfl⟩ := List.mem_map.mp member
      exact positive entry present)
  rwa [List.length_map] at each

variable [DecidableEq κ]

theorem lookup_iff_mem : table.lookup key = some value ↔ (⟨key, value⟩ : Σ _ : κ, ν) ∈ table.entries :=
  AList.mem_lookup_iff

/-- An entry is found after the others are swept away if it was there and counts. -/
theorem lookup_keep :
    (keep test table).lookup key = some value ↔ table.lookup key = some value ∧ test value = true := by
  rw [lookup_iff_mem, lookup_iff_mem, mem_keep]

theorem lookup_keep_eq_filter : (keep test table).lookup key = (table.lookup key).filter test := by
  ext value
  rw [lookup_keep, Option.filter_eq_some_iff]

theorem lookup_adjust (change : ν → ν) : (adjust change table).lookup key = (table.lookup key).map change := by
  ext value
  rw [lookup_iff_mem, Option.map_eq_some_iff]
  constructor
  · intro member
    obtain ⟨⟨name, old⟩, present, same⟩ := List.mem_map.mp member
    cases same
    exact ⟨old, lookup_iff_mem.mpr present, rfl⟩
  · rintro ⟨old, present, rfl⟩
    exact List.mem_map.mpr ⟨_, lookup_iff_mem.mp present, rfl⟩

theorem total_erase_le : total weight (table.erase key) ≤ total weight table :=
  List.Sublist.sum_le_sum (List.Sublist.map _ (List.kerase_sublist key table.entries))
    (fun _ _ => Nat.zero_le _)

/-- A new hold adds its weight. -/
theorem total_insert (new : table.lookup key = none) :
    total weight (table.insert key value) = weight value + total weight table := by
  unfold total
  rw [AList.entries_insert_of_notMem (AList.lookup_eq_none.mp new)]
  rfl

theorem weight_le_total (weight : ν → Nat) (present : table.lookup key = some value) : weight value ≤
    total weight table := by
  have member := lookup_iff_mem.mp present
  exact List.single_le_sum (fun _ _ => Nat.zero_le _) _ (List.mem_map.mpr ⟨_, member, rfl⟩)

theorem mem_insert {entry : Σ _ : κ, ν} (new : table.lookup key = none) :
    entry ∈ (table.insert key value).entries ↔ entry = ⟨key, value⟩ ∨ entry ∈ table.entries := by
  rw [AList.entries_insert_of_notMem (AList.lookup_eq_none.mp new), List.mem_cons]

theorem mem_of_erase {entry : Σ _ : κ, ν} (member : entry ∈ (table.erase key).entries) :
    entry ∈ table.entries :=
  (List.kerase_sublist key table.entries).subset member

omit [DecidableEq κ] in
theorem length_keys (table : AList fun _ : κ => ν) : table.keys.length = table.entries.length := List.length_map _

theorem mem_keys_of_lookup (present : table.lookup key = some value) : key ∈ table.keys :=
  List.mem_keys_of_mem (lookup_iff_mem.mp present)

/-- A new key makes a table longer by one. -/
theorem length_insert_new (new : table.lookup key = none) (value : ν) :
    (table.insert key value).entries.length = table.entries.length + 1 := by
  rw [AList.entries_insert_of_notMem (AList.lookup_eq_none.mp new), List.length_cons]

/-- A key that is there keeps the length of a table. -/
theorem length_insert_old (present : table.lookup key = some value) (other : ν) :
    (table.insert key other).entries.length = table.entries.length := by
  have member := mem_keys_of_lookup present
  have positive := List.length_pos_of_mem member
  rw [← length_keys, AList.keys_insert, List.length_cons, List.length_erase_of_mem member, ← length_keys]
  omega

theorem length_erase (present : table.lookup key = some value) :
    (table.erase key).entries.length + 1 = table.entries.length := by
  have member := mem_keys_of_lookup present
  have positive := List.length_pos_of_mem member
  rw [← length_keys, AList.keys_erase, List.length_erase_of_mem member, ← length_keys]
  omega

private theorem kerase_eq_filter {entries : List (Σ _ : κ, ν)} (distinct : entries.NodupKeys) :
    entries.kerase key = entries.filter fun entry => decide (entry.1 ≠ key) := by
  induction entries with
  | nil => rfl
  | cons first rest ih =>
    have fresh := List.notMem_keys_of_nodupKeys_cons distinct
    have later := ih (List.nodupKeys_of_nodupKeys_cons distinct)
    by_cases here : key = first.1
    · subst here
      have others : ∀ entry ∈ rest, decide (entry.1 ≠ first.1) = true := by
        intro entry member
        refine decide_eq_true fun same => fresh ?_
        rw [← same]
        exact List.mem_keys_of_mem member
      rw [List.kerase_cons_eq rfl, List.filter_cons_of_neg (by simp), List.filter_eq_self.mpr others]
    · rw [List.kerase_cons_ne here, List.filter_cons_of_pos (by simpa using Ne.symm here), later]

theorem entries_erase :
    (table.erase key).entries = table.entries.filter fun entry => decide (entry.1 ≠ key) :=
  kerase_eq_filter table.nodupKeys

/-- Other values make no difference to what is erased. -/
theorem adjust_erase (change : ν → ν) (table : AList fun _ : κ => ν) (key : κ) :
    adjust change (table.erase key) = (adjust change table).erase key := by
  refine AList.ext ?_
  rw [entries_erase]
  change (table.erase key).entries.map _ = (table.entries.map _).filter _
  rw [entries_erase, List.filter_map]
  rfl

theorem adjust_insert (change : ν → ν) (table : AList fun _ : κ => ν) (key : κ) (value : ν) :
    adjust change (table.insert key value) = (adjust change table).insert key (change value) := by
  refine AList.ext ?_
  have erased := congrArg AList.entries (adjust_erase change table key)
  rw [AList.entries_insert]
  exact congrArg (⟨key, change value⟩ :: ·) erased

end

/-! ## Ledgers -/

section
variable {η : Type} {name : η → κ} {value : η → ν}

/-- A list of holds stands for the entries of a table. -/
def Lists (name : η → κ) (value : η → ν) (table : AList fun _ : κ => ν) (holds : List η) : Prop :=
  (holds.map fun hold => (⟨name hold, value hold⟩ : Σ _ : κ, ν)).Perm table.entries

variable {table : AList fun _ : κ => ν} {holds : List η} {hold : η}

theorem Lists.nil : Lists name value (∅ : AList fun _ : κ => ν) [] := .refl _

theorem Lists.total_eq (lists : Lists name value table holds) (weight : ν → Nat) :
    (holds.map fun hold => weight (value hold)).sum = total weight table := by
  have same := (lists.map fun entry => weight entry.2).sum_eq
  rwa [List.map_map] at same

theorem Lists.keep (lists : Lists name value table holds) (test : ν → Bool) :
    Lists name value (LeaseTable.keep test table) (holds.filter fun hold => test (value hold)) := by
  have same := lists.filter fun entry => test entry.2
  rwa [List.filter_map] at same

variable [DecidableEq κ]

theorem Lists.lookup (lists : Lists name value table holds) (member : hold ∈ holds) :
    table.lookup (name hold) = some (value hold) :=
  lookup_iff_mem.mpr (lists.subset (List.mem_map.mpr ⟨hold, member, rfl⟩))

/-- What is in the table is listed. -/
theorem Lists.listed (lists : Lists name value table holds) {key : κ} {found : ν}
    (present : table.lookup key = some found) : ∃ hold ∈ holds, name hold = key ∧ value hold = found := by
  obtain ⟨hold, member, same⟩ := List.mem_map.mp (lists.symm.subset (lookup_iff_mem.mp present))
  cases same
  exact ⟨hold, member, rfl, rfl⟩

theorem Lists.erase (lists : Lists name value table holds) (key : κ) :
    Lists name value (table.erase key) (holds.filter fun hold => decide (name hold ≠ key)) := by
  have same := lists.filter fun entry => decide (entry.1 ≠ key)
  unfold Lists
  rw [entries_erase]
  rwa [List.filter_map] at same

/-- A hold written under its name replaces the one listed before. -/
theorem Lists.put (lists : Lists name value table holds) (hold : η) :
    Lists name value (table.insert (name hold) (value hold))
      (hold :: holds.filter fun other => decide (name other ≠ name hold)) :=
  (lists.erase (name hold)).cons _

variable (name value) in
/-- Holds under different names that are all in the table weigh no more than it. -/
theorem sum_le_total (weight : ν → Nat) (distinct : holds.Pairwise fun a b => name a ≠ name b)
    (found : ∀ hold ∈ holds, table.lookup (name hold) = some (value hold)) :
    (holds.map fun hold => weight (value hold)).sum ≤ total weight table := by
  let entry := fun hold => (⟨name hold, value hold⟩ : Σ _ : κ, ν)
  have nodup : (holds.map entry).Nodup := by
    refine List.Pairwise.map entry ?_ distinct
    intro a b other same
    exact other (congrArg Sigma.fst same)
  have inside : holds.map entry ⊆ table.entries := by
    intro listed member
    obtain ⟨hold, held, rfl⟩ := List.mem_map.mp member
    exact lookup_iff_mem.mp (found hold held)
  obtain ⟨part, same, sub⟩ := List.subperm_of_subset nodup inside
  have weighs := List.Sublist.sum_le_sum (sub.map fun entry => weight entry.2) (fun _ _ => Nat.zero_le _)
  rwa [(same.map fun entry => weight entry.2).sum_eq, List.map_map] at weighs

/-- To write again what is there changes nothing but the order. -/
theorem insert_perm_self {key : κ} {found : ν} (present : table.lookup key = some found) :
    (table.insert key found).entries.Perm table.entries := by
  obtain ⟨before, after, split⟩ := List.append_of_mem (lookup_iff_mem.mp present)
  have distinct := table.nodupKeys
  rw [split] at distinct
  have erased : (table.erase key).entries = before ++ after := by
    have others : ∀ entry ∈ before ++ after, decide (entry.1 ≠ key) = true := by
      intro entry member
      have shuffled := (List.perm_nodupKeys List.perm_middle).mp distinct
      have inside : entry.1 ∈ (before ++ after).keys := List.mem_keys_of_mem member
      refine decide_eq_true fun same => List.notMem_keys_of_nodupKeys_cons shuffled ?_
      rwa [same] at inside
    rw [entries_erase, split, List.filter_append, List.filter_cons_of_neg (by simp), ← List.filter_append,
      List.filter_eq_self.mpr others]
  show (⟨key, found⟩ :: (table.erase key).entries).Perm table.entries
  rw [erased, split]
  exact List.perm_middle.symm

end

/-! ## Who put an entry there -/

section
variable [DecidableEq κ] {γ : Type} {slot : γ → κ} {value : γ → ν} {log : List γ} {table next : AList fun _ : κ => ν}

variable (slot value) in
/-- Every entry of a table is what the last grant of its slot put there. -/
def Granted (log : List γ) (table : AList fun _ : κ => ν) : Prop :=
  ∀ key entry, table.lookup key = some entry → ∃ earlier grant later, log = earlier ++ grant :: later ∧
    (∀ other ∈ later, slot other ≠ key) ∧ slot grant = key ∧ value grant = entry

theorem Granted.lose (granted : Granted slot value log table)
    (less : ∀ key entry, next.lookup key = some entry → table.lookup key = some entry) :
    Granted slot value log next := fun key entry found => granted key entry (less key entry found)

theorem Granted.put (granted : Granted slot value log table) (grant : γ)
    (here : next.lookup (slot grant) = some (value grant))
    (less : ∀ key entry, key ≠ slot grant → next.lookup key = some entry → table.lookup key = some entry) :
    Granted slot value (log ++ [grant]) next := by
  intro key entry found
  by_cases same : key = slot grant
  · subst same
    exact ⟨log, grant, [], rfl, by simp, rfl, Option.some.inj (here.symm.trans found)⟩
  · obtain ⟨earlier, first, later, rfl, last, there, stored⟩ := granted key entry (less key entry same found)
    refine ⟨earlier, first, later ++ [grant], by simp, fun other member => ?_, there, stored⟩
    rcases List.mem_append.mp member with member | member
    · exact last other member
    · rw [List.mem_singleton.mp member]
      exact Ne.symm same

omit [DecidableEq κ] in
/-- A log has one last grant of a slot. -/
theorem last_unique {first second : γ} {earlier before later after : List γ}
    (split : earlier ++ first :: later = before ++ second :: after) (same : slot first = slot second)
    (last : ∀ other ∈ later, slot other ≠ slot first) (newest : ∀ other ∈ after, slot other ≠ slot second) :
    first = second := by
  rcases List.append_eq_append_iff.mp split with ⟨between, -, rest⟩ | ⟨between, -, rest⟩
  · cases between with
    | nil => exact (List.cons.inj rest).1
    | cons head tail =>
      obtain ⟨-, rfl⟩ := List.cons.inj rest
      exact absurd same.symm (last second (by simp))
  · cases between with
    | nil => exact (List.cons.inj rest).1.symm
    | cons head tail =>
      obtain ⟨-, rfl⟩ := List.cons.inj rest
      exact absurd same (newest first (by simp))

/-- If no two grants of one owner have the same value, then the value of a grant is not
what a later grant of its owner stored. -/
theorem Granted.exclusive {Own : γ → γ → Prop} (granted : Granted slot value log table)
    (distinct : log.Pairwise fun first second => Own first second → value first ≠ value second)
    (split : log = earlier ++ second :: later) (last : ∀ other ∈ later, slot other ≠ slot second)
    (member : first ∈ earlier) (own : Own first second) (together : slot first = slot second) :
    table.lookup (slot first) ≠ some (value first) := by
  intro found
  obtain ⟨before, grant, after, whole, newest, there, stored⟩ := granted _ _ found
  obtain rfl := last_unique (split.symm.trans whole) (together.symm.trans there.symm) last
    fun other inside => there ▸ newest other inside
  rw [split] at distinct
  exact (List.pairwise_append.mp distinct).2.2 first member _ List.mem_cons_self own stored.symm

/-- Pairs of a filtered list come from pairs of the list. -/
theorem pairwise_filterMap_of_splits {α β : Type} {entries : List α} {pick : α → Option β} {R : β → β → Prop}
    (each : ∀ earlier entry later second, entries = earlier ++ entry :: later → pick entry = some second →
      ∀ first ∈ earlier.filterMap pick, R first second) : (entries.filterMap pick).Pairwise R := by
  induction entries using List.reverseRecOn with
  | nil => exact .nil
  | append_singleton front entry ih =>
    rw [List.filterMap_append, List.pairwise_append]
    refine ⟨ih fun earlier middle later second split => ?_, ?_, fun first member second picked => ?_⟩
    · exact each earlier middle (later ++ [entry]) second (by simp [split])
    · cases here : pick entry <;> simp [here]
    · simp only [List.filterMap_cons, List.filterMap_nil] at picked
      refine each front entry [] second rfl ?_ first member
      cases here : pick entry with
      | none => simp [here] at picked
      | some value => simp_all

variable (slot value) in
/-- A log and a table that belong together: every entry of the table is what the last
grant of its slot put there, and of every grant something is known. -/
structure Owned (Issued : γ → Prop) (log : List γ) (table : AList fun _ : κ => ν) : Prop where
  granted : Granted slot value log table
  issued : ∀ grant ∈ log, Issued grant

variable (slot value) in
/-- A step stores nothing new, or a grant. -/
inductive Stores (Issued : γ → Prop) (Ready : Prop) (picked : Option γ) (table next : AList fun _ : κ => ν) : Prop where
  | nothing (none : picked = none) (loses : ∀ key entry, next.lookup key = some entry → table.lookup key = some entry)
  | grant (grant : γ) (some : picked = some grant) (issued : Issued grant) (ready : Ready)
    (here : next.lookup (slot grant) = .some (value grant))
    (less : ∀ key entry, key ≠ slot grant → next.lookup key = .some entry → table.lookup key = .some entry)

theorem Owned.step {Issued : γ → Prop} {ε : Type} {pick : ε → Option γ} {history : List ε} {entry : ε}
    (owned : Owned slot value Issued (history.filterMap pick) table)
    (stores : Stores slot value Issued Ready (pick entry) table next) :
    Owned slot value Issued ((history ++ [entry]).filterMap pick) next := by
  rw [List.filterMap_append, List.filterMap_cons, List.filterMap_nil]
  cases stores with
  | nothing none loses =>
    rw [none]
    exact (List.append_nil _).symm ▸ ⟨owned.granted.lose loses, owned.issued⟩
  | grant grant some issued _ here less =>
    rw [some]
    refine ⟨owned.granted.put grant here less, fun other member => ?_⟩
    rcases List.mem_append.mp member with member | member
    · exact owned.issued other member
    · rw [List.mem_singleton.mp member]
      exact issued

/-- A run whose steps are grants or only lose entries. The grants of one name differ in
value exactly if at no point the value of one is kept in place of the last one of its
slot: `Keeps` says that a claim with the value of a grant leaves the table as it is. -/
theorem distinct_iff {ε ι : Type} {entries : List ε} {pick : ε → Option γ} {before after : ε → AList fun _ : κ => ν}
    {name : γ → ι} {Issued : γ → Prop} {Ready : ε → Prop} {Keeps : ε → γ → Prop}
    (named : ∀ first second, name first = name second → slot first = slot second)
    (held : ∀ earlier entry later, entries = earlier ++ entry :: later →
      Owned slot value Issued (earlier.filterMap pick) (before entry) ∧
        Stores slot value Issued (Ready entry) (pick entry) (before entry) (after entry))
    (keeps : ∀ entry ∈ entries, ∀ grant, Issued grant →
      (after entry).lookup (slot grant) ≠ some (value grant) → Keeps entry grant)
    (frees : ∀ entry grant, Ready entry → Issued grant →
      (after entry).lookup (slot grant) = some (value grant) → ¬ Keeps entry grant) :
    ((entries.filterMap pick).map fun grant => (name grant, value grant)).Nodup ↔
      ∀ earlier entry later, entries = earlier ++ entry :: later →
        ∀ before second behind, (earlier ++ [entry]).filterMap pick = before ++ second :: behind →
          (∀ other ∈ behind, slot other ≠ slot second) →
          ∀ first ∈ before, name first = name second → Keeps entry first := by
  have pairs : ((entries.filterMap pick).map fun grant => (name grant, value grant)).Nodup ↔
      (entries.filterMap pick).Pairwise fun first second => name first = name second → value first ≠ value second := by
    rw [List.Nodup, List.pairwise_map]
    simp
  rw [pairs]
  constructor
  · intro distinct earlier entry later split before second behind log last first member own
    have part : ((earlier ++ [entry]).filterMap pick).Pairwise fun first second =>
        name first = name second → value first ≠ value second := by
      refine distinct.sublist (List.Sublist.filterMap _ ?_)
      simp [split]
    obtain ⟨owned, stores⟩ := held earlier entry later split
    have owned := owned.step stores
    refine keeps entry (by simp [split]) first (owned.issued first ?_) ?_
    · rw [log]
      exact List.mem_append_left _ member
    · exact owned.granted.exclusive part log last member own (named _ _ own)
  · -- The later one of two grants with one value is stored when it comes.
    intro own
    refine pairwise_filterMap_of_splits fun earlier entry later second split picked first member together same => ?_
    obtain ⟨owned, stores⟩ := held earlier entry later split
    cases stores with
    | nothing none => cases picked.symm.trans none
    | grant grant some _ ready here =>
      cases picked.symm.trans some
      refine frees entry first ready (owned.issued first member) ?_
        (own earlier entry later split (earlier.filterMap pick) second [] (by simp [picked])
          (by simp) first member together)
      rw [named _ _ together, same]
      exact here

end

end RateLimit.LeaseTable
