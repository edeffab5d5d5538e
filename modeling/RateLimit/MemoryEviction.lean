import RateLimit.MemoryKeys

/-! How many keys a memory store holds, and which one makes room for a new one. No shard
grows beyond its quota, and the quotas sum to the limit of the store. A new key in a full
shard takes the place of one other: the one seen longest ago among those without an active
lease, and of several the least. Where there is none the operation fails and changes nothing.
The calls without the strict checks follow the same discipline. -/
namespace RateLimit.Memory

open Machine

/-! ## The victim -/

/-- No lease of a state expires after a time. -/
def Free (state : State) (now : Time) : Prop :=
  ∀ id lease, state.leases.lookup id = some lease → lease.expiresAt.nanos ≤ now.nanos

theorem free_iff : Free state now ↔ hasActiveLease state.leases now = false := by
  rw [← Bool.not_eq_true, hasActiveLease_iff]
  push Not
  rfl

theorem older_iff {left right : Σ _ : GoString, State} :
    older left right = true ↔ left.2.lastSeen.nanos < right.2.lastSeen.nanos ∨
      left.2.lastSeen = right.2.lastSeen ∧ left.1 < right.1 := by
  unfold older
  split
  · rename_i same
    rw [same, decide_eq_true_iff]
    simp
  · rename_i different
    simp [different]

private theorem lastSeen_eq {left right : State} (same : left.lastSeen.nanos = right.lastSeen.nanos) :
    left.lastSeen = right.lastSeen := congrArg Time.mk same

/-- What is not behind what is not behind a third is not behind the third. -/
theorem older_trans (first second third : Σ _ : GoString, State) (left : (!older second first) = true)
    (right : (!older third second) = true) : (!older third first) = true := by
  simp only [Bool.not_eq_true', ← Bool.not_eq_true, older_iff, not_or, not_and, not_lt] at left right ⊢
  refine ⟨left.1.trans right.1, fun same => ?_⟩
  have middle : first.2.lastSeen.nanos = second.2.lastSeen.nanos :=
    le_antisymm left.1 (right.1.trans (by rw [same]))
  have one : second.2.lastSeen = first.2.lastSeen := lastSeen_eq middle.symm
  exact List.not_lt.mpr (List.le_trans (List.not_lt.mp (left.2 one)) (List.not_lt.mp (right.2 (same.trans one.symm))))

theorem older_total (first second : Σ _ : GoString, State) : (!older second first || !older first second) = true := by
  rw [Bool.or_eq_true]
  by_contra both
  simp only [not_or, Bool.not_eq_true', Bool.not_eq_false, older_iff] at both
  obtain ⟨backward, forward⟩ := both
  rcases forward with less | ⟨same, less⟩
  · rcases backward with more | ⟨same, -⟩
    · omega
    · rw [same] at less
      omega
  · rcases backward with more | ⟨-, more⟩
    · rw [same] at more
      omega
    · exact List.lt_asymm less more

/-- The key that makes room: no lease of it is active, and it comes before every other such
key by the time it was seen last and by its name. -/
structure Victim (states : States) (now : Time) (victim : GoString) : Prop where
  free : ∃ state, states.lookup victim = some state ∧ Free state now
  least : ∀ state, states.lookup victim = some state → ∀ other rival, other ≠ victim →
    states.lookup other = some rival → Free rival now →
    state.lastSeen.nanos < rival.lastSeen.nanos ∨ state.lastSeen = rival.lastSeen ∧ victim < other

theorem Victim.unique {states : States} (one : Victim states now first) (other : Victim states now second) : first =
    second := by
  by_contra different
  obtain ⟨state, found, free⟩ := one.free
  obtain ⟨rival, present, idle⟩ := other.free
  have forward := one.least state found second rival (Ne.symm different) present idle
  have backward := other.least rival present first state different found free
  have asymmetric := older_total ⟨first, state⟩ ⟨second, rival⟩
  rw [Bool.or_eq_true, Bool.not_eq_true', Bool.not_eq_true', ← Bool.not_eq_true, ← Bool.not_eq_true,
    older_iff, older_iff]
    at asymmetric
  exact asymmetric.elim (fun no => no backward) (fun no => no forward)

theorem mem_candidates {states : States} {now : Time} {entry : Σ _ : GoString, State} :
    (entry ∈ states.entries.filter fun entry => !hasActiveLease entry.2.leases now) ↔
      states.lookup entry.1 = some entry.2 ∧ Free entry.2 now := by
  rw [List.mem_filter, LeaseTable.lookup_iff_mem, free_iff, Bool.not_eq_true']

/-- Eviction removes the victim, in whatever order the table lists its entries. -/
theorem evictOldest_victim (evicted : evictOldest states now = some rest) :
    ∃ victim, Victim states now victim ∧ rest = states.erase victim := by
  unfold evictOldest at evicted
  dsimp only at evicted
  have sorted := List.pairwise_mergeSort older_trans older_total
    (states.entries.filter fun entry => !hasActiveLease entry.2.leases now)
  split at evicted
  · cases evicted
  rename_i oldest others shape
  rw [shape] at sorted
  cases evicted
  have members : ∀ entry, entry ∈ oldest :: others ↔ states.lookup entry.1 = some entry.2 ∧ Free entry.2 now := by
    intro entry
    rw [← shape, List.mem_mergeSort, mem_candidates]
  have here := (members oldest).mp List.mem_cons_self
  refine ⟨oldest.1, ⟨⟨_, here⟩, ?_⟩, rfl⟩
  intro state found other rival different present free
  cases here.1.symm.trans found
  have listed := (members ⟨other, rival⟩).mpr ⟨present, free⟩
  rcases List.mem_cons.mp listed with same | later
  · exact absurd (congrArg Sigma.fst same) different
  · have behind := (List.pairwise_cons.mp sorted).1 _ later
    simp only [Bool.not_eq_true', ← Bool.not_eq_true, older_iff, not_or, not_and, not_lt] at behind
    rcases Int.lt_or_eq_of_le behind.1 with less | same
    · exact Or.inl less
    · refine Or.inr ⟨lastSeen_eq same, ?_⟩
      by_contra more
      exact different (List.le_antisymm (List.not_lt.mp more) (List.not_lt.mp (behind.2 (lastSeen_eq same).symm)))

/-- Eviction fails if every key has an active lease. -/
theorem evictOldest_none {states : States} :
    evictOldest states now = none ↔ ∀ key state, states.lookup key = some state → ¬ Free state now := by
  unfold evictOldest
  dsimp only
  constructor
  · intro none key state found free
    split at none
    · rename_i shape
      have listed : (⟨key, state⟩ : Σ _ : GoString, State) ∈
          (states.entries.filter fun entry => !hasActiveLease entry.2.leases now).mergeSort
            (fun left right => !older right left) := List.mem_mergeSort.mpr (mem_candidates.mpr ⟨found, free⟩)
      rw [shape] at listed
      cases listed
    · cases none
  · intro blocked
    have empty : (states.entries.filter fun entry => !hasActiveLease entry.2.leases now) = [] := by
      rw [List.eq_nil_iff_forall_not_mem]
      intro entry member
      obtain ⟨found, free⟩ := mem_candidates.mp member
      exact blocked _ _ found free
    rw [empty, List.mergeSort_nil]

theorem Victim.of_perm {states reordered : States} (victim : Victim states now key)
    (same : reordered.entries.Perm states.entries) : Victim reordered now key := by
  have lookups : ∀ key, reordered.lookup key = states.lookup key := fun key => AList.perm_lookup same
  refine ⟨?_, ?_⟩
  · obtain ⟨state, found, free⟩ := victim.free
    exact ⟨state, (lookups key).trans found, free⟩
  · intro state found other rival different present free
    exact victim.least state ((lookups key).symm.trans found) other rival different
      ((lookups other).symm.trans present) free

theorem Victim.evicted {states : States} (victim : Victim states now key) : evictOldest states now =
    some (states.erase key) := by
  cases evicted : evictOldest states now with
  | none =>
    obtain ⟨state, found, free⟩ := victim.free
    exact absurd free (evictOldest_none.mp evicted key state found)
  | some rest =>
    obtain ⟨other, first, rfl⟩ := evictOldest_victim evicted
    rw [first.unique victim]

/-! ## One shard -/

/-- The times of a state are whole microseconds. -/
structure WholeState (state : State) : Prop where
  lastSeen : state.lastSeen.nanos % 1000 = 0
  leases : ∀ entry ∈ state.leases.entries, entry.2.expiresAt.nanos % 1000 = 0

/-- No key is given up for a new one: the store is told not to, or all have active leases. -/
def Shard.Blocked (target : Shard) (now : Time) : Prop :=
  target.rejectOnCapacity = true ∨ ∀ key state, target.states.lookup key = some state → ¬ Free state now

/-- What an operation on one key does to its shard; `told` is that it says it is unavailable. -/
inductive ShardEffect (target : Shard) (key : GoString) (now : Time) (told : Prop) : Shard → Prop where
  | kept (found : target.states.lookup key = some current) : ShardEffect target key now told target
  | wrote (found : target.states.lookup key = some current) (whole : WholeState state) :
    ShardEffect target key now told { target with states := target.states.insert key state }
  | created (new : target.states.lookup key = none) (room : target.states.entries.length ≠ target.maxKeys)
    (whole : WholeState state) : ShardEffect target key now told
      { target with states := target.states.insert key state }
  | evicted (new : target.states.lookup key = none) (full : target.states.entries.length = target.maxKeys)
    (gives : target.rejectOnCapacity = false) (victim : Victim target.states now other) (whole : WholeState state) :
    ShardEffect target key now told { target with states := (target.states.erase other).insert key state }
  | refused (new : target.states.lookup key = none) (full : target.states.entries.length = target.maxKeys)
    (blocked : target.Blocked now) (reported : told) : ShardEffect target key now told target

theorem ShardEffect.mono (effect : ShardEffect target key now told next) (implies : told → told') :
    ShardEffect target key now told' next := by
  cases effect with
  | kept found => exact .kept found
  | wrote found whole => exact .wrote found whole
  | created new room whole => exact .created new room whole
  | evicted new full gives victim whole => exact .evicted new full gives victim whole
  | refused new full blocked reported => exact .refused new full blocked (implies reported)

/-- What is found or made, and what writing it back does. -/
theorem Shard.getOrCreate_effect (target : Shard) (key : GoString) (request : Request) :
    (target.getOrCreate key request = .error .unavailable ∧ target.states.lookup key = none ∧
        target.states.entries.length = target.maxKeys ∧ target.Blocked request.now) ∨
      ∃ states, target.getOrCreate key request = .ok (states, adopted (target.states.lookup key) request) ∧
        ∀ told state, WholeState state →
          ShardEffect target key request.now told { target with states := states.insert key state } := by
  unfold Shard.getOrCreate
  cases found : target.states.lookup key with
  | some current => exact Or.inr ⟨_, rfl, fun _ _ whole => .wrote found whole⟩
  | none =>
    unfold Shard.makeRoom
    by_cases full : target.states.entries.length = target.maxKeys
    · rw [if_pos full]
      by_cases rejects : target.rejectOnCapacity = true
      · rw [if_pos rejects]
        exact Or.inl ⟨rfl, rfl, full, Or.inl rejects⟩
      · rw [if_neg rejects]
        cases evicted : evictOldest target.states request.now with
        | none => exact Or.inl ⟨rfl, rfl, full, Or.inr (evictOldest_none.mp evicted)⟩
        | some states =>
          obtain ⟨victim, first, rfl⟩ := evictOldest_victim evicted
          exact Or.inr ⟨_, rfl, fun _ _ whole => .evicted found full (Bool.eq_false_iff.mpr rejects) first whole⟩
    · rw [if_neg full]
      exact Or.inr ⟨_, rfl, fun _ _ whole => .created found full whole⟩

theorem clampLastSeen_early (current : State) (now : Time) : now.unixMicro ≤ (clampLastSeen current now).unixMicro := by
  unfold clampLastSeen
  split
  · simp only [Time.unixMicro]
    omega
  · exact le_rfl

theorem clampLastSeen_whole {current : State} {now : Time} (seen : current.lastSeen.nanos % 1000 = 0)
    (whole : now.nanos % 1000 = 0) : (clampLastSeen current now).nanos % 1000 = 0 := by
  unfold clampLastSeen
  split
  · exact seen
  · exact whole

theorem WholeState.adopted {found : Option State} (old : ∀ state, found = some state → WholeState state)
    {request : Request} (whole : request.now.nanos % 1000 = 0) : WholeState (adopted found request) := by
  cases found with
  | none => exact ⟨whole, by rintro entry ⟨⟩⟩
  | some current =>
    unfold Memory.adopted
    dsimp only
    split
    · exact ⟨(old current rfl).lastSeen, (old current rfl).leases⟩
    · exact old current rfl

section
variable {target : Shard} {key : GoString} (wholes : ∀ key state, target.states.lookup key = some state →
    WholeState state)
include wholes

/-- What an admission does to its shard, whatever the other checks are. -/
theorem Shard.admitLocked_effect {request : Request} (limits : Limits request period)
    (whole : request.now.nanos % 1000 = 0) :
    (target.admitLocked key request).Yields fun result =>
      ShardEffect target key request.now (result.2 = ⟨{}, some .unavailable⟩) result.1 := by
  unfold Shard.admitLocked Shard.admitLockedBy
  split
  · rename_i mismatched
    obtain ⟨current, found, -⟩ := Shard.mismatched_iff.mp mismatched
    exact yields_pure (.kept found)
  rcases target.getOrCreate_effect key request with ⟨full, new, length, blocked⟩ | ⟨states, created, effect⟩
  · rw [full]
    exact yields_pure (.refused new length blocked rfl)
  rw [created]
  have base := WholeState.adopted (wholes key) whole
  generalize adopted (target.states.lookup key) request = current at base ⊢
  have early := limits.not_before.trans (clampLastSeen_early current request.now)
  apply (admitState_yields (limits.retimed early) { current with lastSeen := clampLastSeen current request.now }).bind
  intro outcome admits
  refine yields_pure (effect _ outcome.state ⟨?_, ?_⟩)
  · rw [admits.charged.lastSeen]
    exact clampLastSeen_whole base.lastSeen whole
  · rw [admits.charged.leases]
    exact base.leases

omit wholes in
theorem sumCosts_yields (entries : List (Σ _ : GoString, LeaseState)) (used : Nat) :
    (sumCosts entries used).Yields fun _ => True := by
  induction entries generalizing used with
  | nil => exact yields_pure trivial
  | cons entry rest ih =>
    apply (u64_yields _).bind
    intro total _
    exact ih total

omit wholes in
/-- An acquisition returns, and the only lease it may add expires in whole microseconds. -/
theorem acquire_whole {current : State} (request : LeaseRequest) (base : WholeState current)
    (whole : request.request.now.nanos % 1000 = 0) (term : request.request.policy.lease.nanos % 1000 = 0) :
    (acquire current request).Yields fun leased => WholeState leased.state := by
  have swept : ∀ entry ∈ (activeLeases request.request.now current.leases).entries, entry.2.expiresAt.nanos % 1000 =
    0 :=
    fun entry member => base.leases entry (LeaseTable.mem_keep.mp member).1
  apply (sumCosts_yields _ _).bind
  intro used _
  apply (u64_yields _).bind
  intro remaining _
  split
  · split
    · exact yields_pure ⟨whole, swept⟩
    · exact yields_pure ⟨whole, swept⟩
  · rename_i new
    split
    · exact yields_pure ⟨whole, swept⟩
    · apply (u64_yields _).bind
      intro left _
      refine yields_pure ⟨whole, ?_⟩
      intro entry member
      rcases (LeaseTable.mem_insert new).mp member with rfl | old
      · simp only [Time.add]
        omega
      · exact swept entry old

/-- What an acquisition does to its shard. -/
theorem Shard.acquireLocked_effect {request : LeaseRequest} (whole : request.request.now.nanos % 1000 = 0)
    (term : request.request.policy.lease.nanos % 1000 = 0) :
    (target.acquireLocked key request).Yields fun result =>
      ShardEffect target key request.request.now (result.2 = { error := some .unavailable }) result.1 := by
  unfold Shard.acquireLocked
  split
  · rename_i mismatched
    obtain ⟨current, found, -⟩ := Shard.mismatched_iff.mp mismatched
    exact yields_pure (.kept found)
  rcases target.getOrCreate_effect key request.request with ⟨full, new, length, blocked⟩ | ⟨states, created, effect⟩
  · rw [full]
    exact yields_pure (.refused new length blocked rfl)
  rw [created]
  have base := WholeState.adopted (wholes key) whole
  generalize adopted (target.states.lookup key) request.request = current at base ⊢
  apply (acquire_whole (retimed request (clampLastSeen current request.request.now)) base
    (clampLastSeen_whole base.lastSeen whole) term).bind
  intro leased next
  exact yields_pure (effect _ leased.state next)

end

/-- A release removes a lease of its key, or nothing. -/
theorem Shard.releaseLocked_effect {target : Shard}
    (wholes : ∀ key state, target.states.lookup key = some state → WholeState state) (lease : Lease) (now : Time) :
    (target.releaseLocked lease).1 = target ∨
      ∃ current, target.states.lookup (Postgres.bucketName lease.policyID lease.key) = some current ∧
        ShardEffect target (Postgres.bucketName lease.policyID lease.key) now False (target.releaseLocked lease).1 := by
  unfold Shard.releaseLocked
  dsimp only
  cases found : target.states.lookup (Postgres.bucketName lease.policyID lease.key) with
  | none => exact Or.inl rfl
  | some current =>
    dsimp only
    split
    · exact Or.inl rfl
    · split
      · exact Or.inl rfl
      · have whole := wholes _ current found
        exact Or.inr ⟨current, rfl, .wrote found ⟨whole.lastSeen, fun entry member =>
          whole.leases entry (LeaseTable.mem_of_erase member)⟩⟩

/-- What an operation leaves of the size of its shard, and where its states come from. -/
theorem ShardEffect.sized (effect : ShardEffect target key now told next)
    (within : target.states.entries.length ≤ target.maxKeys)
    (wholes : ∀ key state, target.states.lookup key = some state → WholeState state) :
    next.maxKeys = target.maxKeys ∧ next.rejectOnCapacity = target.rejectOnCapacity ∧
      next.states.entries.length ≤ next.maxKeys ∧
      ∀ other state, next.states.lookup other = some state →
        (other = key ∨ target.states.lookup other = some state) ∧ WholeState state := by
  have inserted : ∀ (states : States) (state : State), WholeState state →
    (∀ other found, states.lookup other = some found →
      target.states.lookup other = some found) → ∀ other found, (states.insert key state).lookup other = some found →
        (other = key ∨ target.states.lookup other = some found) ∧ WholeState found := by
    intro states state whole old other found present
    by_cases same : other = key
    · subst same
      rw [AList.lookup_insert] at present
      cases present
      exact ⟨Or.inl rfl, whole⟩
    · rw [AList.lookup_insert_ne same] at present
      exact ⟨Or.inr (old _ _ present), wholes _ _ (old _ _ present)⟩
  cases effect with
  | kept | refused => exact ⟨rfl, rfl, within, fun other state present => ⟨Or.inr present, wholes _ _ present⟩⟩
  | wrote found whole =>
    refine ⟨rfl, rfl, ?_, inserted _ _ whole fun _ _ => id⟩
    exact (LeaseTable.length_insert_old found _).trans_le within
  | created new room whole =>
    refine ⟨rfl, rfl, ?_, inserted _ _ whole fun _ _ => id⟩
    dsimp only
    rw [LeaseTable.length_insert_new new]
    omega
  | @evicted other state new full gives victim whole =>
    obtain ⟨gone, stored, -⟩ := victim.free
    have shorter := LeaseTable.length_erase stored
    have fresh : (target.states.erase other).lookup key = none := by
      rw [AList.lookup_erase_ne (by rintro rfl; cases new.symm.trans stored)]
      exact new
    refine ⟨rfl, rfl, ?_, inserted _ _ whole fun name found present => ?_⟩
    · dsimp only
      rw [LeaseTable.length_insert_new fresh]
      omega
    · by_cases same : name = other
      · subst same
        rw [AList.lookup_erase] at present
        cases present
      · rwa [AList.lookup_erase_ne same] at present

/-! ## The store -/

/-- The quota of a shard: the keys are dealt out evenly, the first shards get one more. -/
def quota (options : Options) (index : Nat) : Nat :=
  if index < options.maxKeys.toNat % options.shards.toNat then options.maxKeys.toNat / options.shards.toNat + 1
  else options.maxKeys.toNat / options.shards.toNat

/-- What holds of the size of a shard at all times; `place` says where a key belongs. -/
structure ShardSized (options : Options) (place : GoString → Fin count) (index : Fin count) (shard : Shard) : Prop where
  quota : shard.maxKeys = quota options index.val
  rejects : shard.rejectOnCapacity = options.rejectOnCapacity
  within : shard.states.entries.length ≤ shard.maxKeys
  placed : ∀ key state, shard.states.lookup key = some state → place key = index
  whole : ∀ key state, shard.states.lookup key = some state → WholeState state

structure Sized (options : Options) (store : Store) : Prop where
  count : store.count = options.shards.toNat
  each : ∀ index, ShardSized options store.shardFor index (store.shards index)

theorem Sized.start (made : newStore options = .ok store) : Sized options store := by
  have shape := newStore_made made
  refine ⟨shape.count, fun index => ?_⟩
  rw [shape.shards]
  exact ⟨rfl, rfl, Nat.zero_le _, by rintro key state ⟨⟩, by rintro key state ⟨⟩⟩

/-- The sum of the first quotas. -/
theorem sum_quota (base extra : Nat) (fits : extra ≤ count) :
    ((List.finRange count).map fun index => if index.val < extra then base + 1 else base).sum =
      count * base + extra := by
  rw [← Fin.sum_univ_def]
  have split : ∀ index : Fin count, (if index.val < extra then base + 1 else base) =
      base + if index.val < extra then 1 else 0 := by
    intro index
    split <;> rfl
  simp only [split, Finset.sum_add_distrib, Finset.sum_const, Finset.card_univ, Fintype.card_fin, smul_eq_mul,
    Finset.sum_boole, Nat.cast_id, Fin.card_filter_val_lt, Nat.min_eq_right fits]

/-- The quotas of a store sum to its limit. -/
theorem Sized.sum (sized : Sized options store) (positive : 0 < options.shards) :
    ((List.finRange store.count).map fun index => (store.shards index).maxKeys).sum = options.maxKeys.toNat := by
  have small : options.maxKeys.toNat % options.shards.toNat ≤ store.count := by
    rw [sized.count]
    exact (Nat.mod_lt _ (by omega)).le
  simp only [fun index => (sized.each index).quota]
  unfold Memory.quota
  rw [sum_quota _ _ small, sized.count]
  exact Nat.div_add_mod _ _

theorem Sized.len_le (sized : Sized options store) (positive : 0 < options.shards) :
    store.len ≤ options.maxKeys.toNat := by
  rw [← sized.sum positive]
  exact List.sum_le_sum fun index _ => (sized.each index).within

/-- An operation changes its own key only, and neither adds nor removes it. -/
def Confined (store next : Store) (key : GoString) : Prop :=
  (next.find key = none ↔ store.find key = none) ∧ ∀ other, other ≠ key → next.find other = store.find other

theorem Confined.refl (store : Store) (key : GoString) : Confined store store key := ⟨.rfl, fun _ _ => rfl⟩

/-- What an operation on one key does to a store. `reaches` is that it gets as far as
looking for the key, `told` that it says it is unavailable. -/
inductive KeyEffect (store : Store) (key : GoString) (now : Time) (reaches told : Prop) : Store → Prop where
  | stopped (short : ¬ reaches) : KeyEffect store key now reaches told store
  | kept (found : store.find key = some current) (confined : Confined store next key) :
    KeyEffect store key now reaches told next
  | created (new : store.find key = none)
    (room : (store.shards (store.shardFor key)).states.entries.length < (store.shards (store.shardFor key)).maxKeys)
    (here : next.find key ≠ none) (others : ∀ other, other ≠ key → next.find other = store.find other) :
    KeyEffect store key now reaches told next
  | evicted (new : store.find key = none)
    (full : (store.shards (store.shardFor key)).states.entries.length = (store.shards (store.shardFor key)).maxKeys)
    (gives : (store.shards (store.shardFor key)).rejectOnCapacity = false)
    (victim : Victim (store.shards (store.shardFor key)).states now gone)
    (any_order : ∀ reordered : States, reordered.entries.Perm (store.shards (store.shardFor key)).states.entries →
      evictOldest reordered (truncate now) = some (reordered.erase gone))
    (here : next.find key ≠ none) (removed : store.find gone ≠ none ∧ next.find gone = none)
    (others : ∀ other, other ≠ key → other ≠ gone → next.find other = store.find other) :
    KeyEffect store key now reaches told next
  | refused (new : store.find key = none)
    (full : (store.shards (store.shardFor key)).states.entries.length = (store.shards (store.shardFor key)).maxKeys)
    (blocked : (store.shards (store.shardFor key)).Blocked now) (reported : told) :
    KeyEffect store key now reaches told store

/-- Leases expire in whole microseconds, so it does not show that a time is cut to them. -/
theorem WholeState.free_truncate (whole : WholeState state) (now : Time) : Free state (truncate now) ↔
    Free state now := by
  refine forall₃_congr fun id lease found => ?_
  have exact := whole.leases _ (LeaseTable.lookup_iff_mem.mp found)
  simp only [truncate, Time.ofUnixMicro, Time.unixMicro] at exact ⊢
  omega

section
variable {states : States} (wholes : ∀ key state, states.lookup key = some state → WholeState state)
include wholes

theorem Victim.of_truncate (victim : Victim states (truncate now) gone) : Victim states now gone := by
  refine ⟨?_, ?_⟩
  · obtain ⟨state, found, free⟩ := victim.free
    exact ⟨state, found, ((wholes _ _ found).free_truncate now).mp free⟩
  · intro state found other rival different present free
    exact victim.least state found other rival different present (((wholes _ _ present).free_truncate now).mpr free)

end

theorem Shard.Blocked.of_truncate {target : Shard}
    (wholes : ∀ key state, target.states.lookup key = some state → WholeState state)
    (blocked : target.Blocked (truncate now)) : target.Blocked now := by
  rcases blocked with rejects | leased
  · exact Or.inl rejects
  · exact Or.inr fun key state found free => leased key state found
      (((wholes key state found).free_truncate now).mpr free)

/-- What holds of one shard that is set and of the others holds of all. -/
theorem Store.forall_setShard (store : Store) {index : Fin store.count} {shard : Shard}
    (Holds : Fin store.count → Shard → Prop) (here : Holds index shard)
    (others : ∀ other, Holds other (store.shards other)) (other : Fin store.count) :
    Holds other ((store.setShard index shard).shards other) := by
  change Holds other (Function.update store.shards index shard other)
  by_cases same : other = index
  · subst same
    rwa [Function.update_self]
  · rw [Function.update_of_ne same]
    exact others other

section
variable {options : Options} {store : Store} (sized : Sized options store) {key : GoString} {target : Shard}
    {told : Prop}
include sized

theorem Sized.setShard (effect : ShardEffect (store.shards (store.shardFor key)) key now told target) :
    Sized options (store.setShard (store.shardFor key) target) := by
  have here := sized.each (store.shardFor key)
  obtain ⟨quota, rejects, within, old⟩ := effect.sized here.within here.whole
  refine ⟨sized.count, store.forall_setShard (ShardSized options store.shardFor) ?_ sized.each⟩
  refine ⟨quota.trans here.quota, rejects.trans here.rejects, within, fun name state found => ?_,
    fun name state found => (old name state found).2⟩
  rcases (old name state found).1 with rfl | present
  · rfl
  · exact here.placed _ _ present

/-- What an operation does to its shard is what it does to the store. -/
theorem Sized.keyEffect (reaches : Prop)
    (effect : ShardEffect (store.shards (store.shardFor key)) key (truncate now) told target) :
    KeyEffect store key now reaches told (store.setShard (store.shardFor key) target) := by
  have written : ∀ (states : States) (state : State) (other : GoString),
      (store.setShard (store.shardFor key)
        { store.shards (store.shardFor key) with states := states.insert key state }).find other =
        if other = key then some state
        else if store.shardFor other = store.shardFor key then states.lookup other else store.find other := by
    intro states state other
    rw [Store.find_setShard]
    by_cases same : other = key
    · subst same
      rw [if_pos rfl, if_pos rfl, AList.lookup_insert]
    · simp only [if_neg same, AList.lookup_insert_ne same]
  have alone : ∀ state other, other ≠ key →
      (store.setShard (store.shardFor key)
        { store.shards (store.shardFor key) with
          states := (store.shards (store.shardFor key)).states.insert key state }).find other =
        store.find other := by
    intro state other different
    rw [written, if_neg different]
    split
    · rename_i together
      rw [Store.find, together]
    · rfl
  have own : ∀ (states : States) (state : State), (store.setShard (store.shardFor key)
      { store.shards (store.shardFor key) with states := states.insert key state }).find key ≠ none := by
    intro states state
    rw [written, if_pos rfl]
    simp
  cases effect with
  | kept found =>
    rw [Store.setShard_self]
    exact .kept found (.refl _ _)
  | wrote found whole =>
    refine .kept found ⟨iff_of_false (own _ _) ?_, alone _⟩
    rw [show store.find key = _ from found]
    simp
  | created new room whole => exact .created new (lt_of_le_of_ne (sized.each _).within room) (own _ _) (alone _)
  | @evicted gone state new full gives victim whole =>
    obtain ⟨last, stored, -⟩ := victim.free
    have together := (sized.each _).placed _ _ stored
    have present : store.find gone = some last := by
      rw [Store.find, together]
      exact stored
    have different : gone ≠ key := by
      rintro rfl
      cases new.symm.trans stored
    refine .evicted new full gives (victim.of_truncate (sized.each _).whole)
      (fun _ same => (victim.of_perm same).evicted)
      (own _ _) ⟨by rw [present]; simp, ?_⟩ fun other differs stays => ?_
    · rw [written, if_neg different, if_pos together, AList.lookup_erase]
    · rw [written, if_neg differs]
      split
      · rename_i joined
        rw [AList.lookup_erase_ne stays, Store.find, joined]
      · rfl
  | refused new full blocked reported =>
    rw [Store.setShard_self]
    exact .refused new full (blocked.of_truncate (sized.each _).whole) reported

end

theorem Sized.sweep (sized : Sized options store) (now : Time) (idleFor : Duration) :
    Sized options (store.sweep now idleFor).1 := by
  unfold Store.sweep
  split
  · exact sized
  split
  · exact sized
  split
  · exact sized
  refine ⟨sized.count, fun index => ?_⟩
  have here := sized.each index
  have old : ∀ key state, ((store.shards index).sweep now idleFor).states.lookup key = some state →
      ∃ current, (store.shards index).states.lookup key = some current ∧ state = dropExpired now current := by
    intro key state found
    change (LeaseTable.adjust _ (LeaseTable.keep _ _)).lookup key = _ at found
    rw [LeaseTable.lookup_adjust, LeaseTable.lookup_keep_eq_filter, Option.map_eq_some_iff] at found
    obtain ⟨current, left, rfl⟩ := found
    exact ⟨current, (Option.filter_eq_some_iff.mp left).1, rfl⟩
  refine ⟨here.quota, here.rejects, ?_, fun key state found => ?_, fun key state found => ?_⟩
  · refine le_trans ?_ here.within
    change (List.map _ (List.filter _ _)).length ≤ _
    rw [List.length_map]
    exact List.length_filter_le _ _
  · obtain ⟨current, present, -⟩ := old key state found
    exact here.placed key current present
  · obtain ⟨current, present, rfl⟩ := old key state found
    have whole := here.whole key current present
    exact ⟨whole.lastSeen, fun entry member => whole.leases entry (LeaseTable.mem_keep.mp member).1⟩

/-! ## Calls -/

/-- A call on a store, with or without the strict checks. The policies of requests were built. -/
inductive StoreCall where
  | strict (call : Call)
  | admitPlain (context : CallerState) (request : Request) (built : request.policy.Built)
  | acquirePlain (context : CallerState) (request : LeaseRequest) (built : request.request.policy.Built)
  | releasePlain (context : CallerState) (lease : Lease)

def storeStep (store : Store) : StoreCall → Machine (Store × Reply)
  | .strict call => step store call
  | .admitPlain context request _ => do
    let (store, result) ← store.admitPlain context request
    pure (store, .admitted result)
  | .acquirePlain context request _ => do
    let (store, result) ← store.acquirePlain context request
    pure (store, .acquired result)
  | .releasePlain context lease =>
    let (store, error) := store.releasePlain context lease
    pure (store, .released error)

/-- The error of a call on one key. -/
def Reply.error : Reply → Option GoError
  | .admitted result => result.error
  | .acquired result => result.error
  | .released error => error
  | .swept _ _ | .closed => none

/-- What a call may do to the keys of a store. -/
def Disciplined (store : Store) (call : StoreCall) (reply : Reply) (next : Store) : Prop :=
  let told := reply.error = some (.sentinel .unavailable)
  match call with
  | .strict (.admitStrict waits request _) => KeyEffect store (stateKey request) request.now
      (request.validate = .ok () ∧ Clear store waits ∧ request.policy.algorithm ≠ .concurrency) told next
  | .admitPlain context request _ => KeyEffect store (stateKey request) request.now
      (store.refuses context = none ∧ request.validate = .ok () ∧ request.policy.algorithm ≠ .concurrency) told next
  | .strict (.acquireStrict waits request _) => KeyEffect store (stateKey request.request) request.request.now
      (request.validate = .ok () ∧ Clear store waits) told next
  | .acquirePlain context request _ => KeyEffect store (stateKey request.request) request.request.now
      (store.refuses context = none ∧ request.validate = .ok ()) told next
  | .strict (.releaseStrict _ lease) | .releasePlain _ lease =>
    Confined store next (Postgres.bucketName lease.policyID lease.key)
  | .strict (.sweep _ _) | .strict .close => True

section
variable {options : Options} {store : Store} (sized : Sized options store)
include sized

/-- The shard of a key is written back by a call that got so far. -/
theorem Sized.written (effect : ShardEffect (store.shards (store.shardFor key)) key (truncate now) told target)
    (reaches : Prop) :
    KeyEffect store key now reaches told (store.setShard (store.shardFor key) target) ∧
      Sized options (store.setShard (store.shardFor key) target) :=
  ⟨sized.keyEffect reaches effect, sized.setShard effect⟩

omit sized in
theorem KeyEffect.mono (effect : KeyEffect store key now reaches told next) (implies : told → told') :
    KeyEffect store key now reaches told' next := by
  cases effect with
  | stopped short => exact .stopped short
  | kept found confined => exact .kept found confined
  | created new room here others => exact .created new room here others
  | evicted new full gives victim any_order here removed others =>
    exact .evicted new full gives victim any_order here removed others
  | refused new full blocked reported => exact .refused new full blocked (implies reported)

theorem admitHeld_effect {request : Request} (bounds : request.Bounds period) :
    (store.admitHeld (truncated request)).Yields fun result => ∀ reaches,
      KeyEffect store (stateKey request) request.now reaches (result.2.error = some .unavailable) result.1 ∧
        Sized options result.1 := by
  have timed : (truncated request).Bounds period :=
    bounds.retimed rfl rfl (by simpa [truncated] using bounds.not_before) (by simpa [truncated] using bounds.room)
  have unchanged : ∀ told, store.find (stateKey request) ≠ none → ∀ reaches,
      KeyEffect store (stateKey request) request.now reaches told store ∧ Sized options store := by
    intro told present reaches
    obtain ⟨current, found⟩ := Option.ne_none_iff_exists'.mp present
    exact ⟨.kept found (.refl _ _), sized⟩
  unfold Store.admitHeld Store.admitHeldBy
  dsimp only
  split
  · rename_i mismatch
    refine yields_pure (unchanged _ fun missing => ?_)
    rw [show store.find (stateKey (truncated request)) = none from missing] at mismatch
    cases mismatch
  rw [timed.period_eq, validateStrictEffectiveRange_exact _ timed.period_pos (timed.period_le.trans (by decide)),
    pure_bind]
  by_cases range : InRange (effectiveTime (store.find (stateKey (truncated request))) (truncated request).now) period
  swap
  · rw [if_neg range]
    refine yields_pure (unchanged _ fun missing => range ?_)
    rw [show store.find (stateKey (truncated request)) = none from missing]
    exact ⟨timed.not_before, timed.room⟩
  rw [if_pos range]
  apply (Shard.admitLocked_effect (sized.each _).whole (limits_of_bounds timed) (truncate_whole _)).bind
  rintro ⟨target, answer⟩ effect
  refine yields_pure fun reaches => sized.written (effect.mono ?_) reaches
  rintro rfl
  simp [strictDecisionResult, validateStrictDecisionTime, Postgres.validateStrictDecisionTime]

theorem admitStrict_effect (waits : Waits) {request : Request} (built : request.policy.Built) :
    (store.admitStrict waits request).Yields fun result =>
      KeyEffect store (stateKey request) request.now
        (request.validate = .ok () ∧ Clear store waits ∧ request.policy.algorithm ≠ .concurrency)
        (result.2.error = some (.sentinel .unavailable)) result.1 ∧ Sized options result.1 := by
  have case := store.admitStrict_case waits request
  generalize store.admitStrict waits request = run at case ⊢
  cases case with
  | invalid refused =>
    refine yields_pure ⟨.stopped fun reaches => ?_, sized⟩
    cases refused.symm.trans reaches.1
  | stopped _ stopped => exact yields_pure ⟨.stopped fun reaches => stopped.not_clear reaches.2.1, sized⟩
  | unsupported _ concurrent => exact yields_pure ⟨.stopped fun reaches => reaches.2.2 concurrent, sized⟩
  | held valid clear rate =>
    obtain ⟨period, bounds⟩ := (⟨request, built, valid⟩ : ValidRequest).bounds (built.sound.known.resolve_right rate)
    apply (admitHeld_effect sized bounds).bind
    rintro ⟨next, answer⟩ effect
    refine yields_pure ⟨(effect _).1.mono ?_, (effect True).2⟩
    intro told
    rw [told]
    rfl

theorem admitPlain_effect (context : CallerState) {request : Request} (built : request.policy.Built) :
    (store.admitPlain context request).Yields fun result =>
      KeyEffect store (stateKey request) request.now
        (store.refuses context = none ∧ request.validate = .ok () ∧ request.policy.algorithm ≠ .concurrency)
        (result.2.error = some (.sentinel .unavailable)) result.1 ∧ Sized options result.1 := by
  unfold Store.admitPlain
  split
  · rename_i stops
    refine yields_pure ⟨.stopped fun reaches => ?_, sized⟩
    cases stops.symm.trans reaches.1
  · rename_i refused
    refine yields_pure ⟨.stopped fun reaches => ?_, sized⟩
    cases refused.symm.trans reaches.2.1
  · rename_i begins valid
    by_cases concurrent : request.policy.algorithm = .concurrency
    · rw [if_pos concurrent]
      exact yields_pure ⟨.stopped fun reaches => reaches.2.2 concurrent, sized⟩
    rw [if_neg concurrent]
    obtain ⟨period, bounds⟩ := (⟨request, built, valid⟩ : ValidRequest).bounds
      (built.sound.known.resolve_right concurrent)
    have limits : Limits (truncated request) period :=
      (limits_of_bounds bounds).retimed (by simpa using bounds.not_before)
    apply (Shard.admitLocked_effect (sized.each _).whole limits (truncate_whole _)).bind
    rintro ⟨target, answer⟩ effect
    refine yields_pure (sized.written (effect.mono ?_) _)
    rintro rfl
    rfl

omit sized in
/-- The lease of a valid request is whole microseconds long. -/
theorem lease_whole (request : LeaseRequest) (built : request.request.policy.Built)
    (valid : request.validate = .ok ()) :
    request.request.policy.lease.nanos % 1000 = 0 := by
  obtain ⟨term, bounds, -⟩ := (⟨request, built, valid⟩ : ValidLeaseRequest).bounds
  rw [bounds.lease_eq]
  simp [Duration.ofMicros]

theorem acquireHeld_effect {request : LeaseRequest} (built : request.request.policy.Built)
    (valid : request.validate = .ok ()) :
    (store.acquireHeld (retimed request (truncate request.request.now))).Yields fun result => ∀ reaches,
      KeyEffect store (stateKey request.request) request.request.now reaches
        (result.2.error = some .unavailable) result.1 ∧
        Sized options result.1 := by
  obtain ⟨term, bounds, room⟩ := (⟨request, built, valid⟩ : ValidLeaseRequest).bounds
  unfold Store.acquireHeld
  dsimp only
  rw [show (retimed request (truncate request.request.now)).request.policy.lease = _ from bounds.lease_eq,
    validateStrictEffectiveRange_exact _ bounds.lease_pos bounds.lease_le, pure_bind]
  split
  · rename_i problem outside
    refine yields_pure fun reaches => ?_
    cases found : store.find (stateKey request.request) with
    | some current => exact ⟨.kept found (.refl _ _), sized⟩
    | none =>
      rw [show store.find (stateKey (retimed request (truncate request.request.now)).request) = none
        from found, if_pos] at outside
      · cases outside
      · exact ⟨by simpa [retimed, effectiveTime] using bounds.not_before, by simpa [retimed, effectiveTime] using room⟩
  · have term : (retimed request (truncate request.request.now)).request.policy.lease.nanos % 1000 = 0 :=
      lease_whole request built valid
    apply (Shard.acquireLocked_effect (sized.each _).whole (truncate_whole _) term).bind
    rintro ⟨target, answer⟩ effect
    refine yields_pure fun reaches => sized.written (effect.mono ?_) reaches
    rintro rfl
    simp [strictLeaseResult, validateStrictLeaseTime, Postgres.validateStrictLeaseTime,
      Postgres.validateStrictDecisionTime]

theorem acquireStrict_effect (waits : Waits) {request : LeaseRequest} (built : request.request.policy.Built) :
    (store.acquireStrict waits request).Yields fun result =>
      KeyEffect store (stateKey request.request) request.request.now (request.validate = .ok () ∧ Clear store waits)
        (result.2.error = some (.sentinel .unavailable)) result.1 ∧ Sized options result.1 := by
  have case := store.acquireStrict_case waits request
  generalize store.acquireStrict waits request = run at case ⊢
  cases case with
  | invalid refused =>
    refine yields_pure ⟨.stopped fun reaches => ?_, sized⟩
    cases refused.symm.trans reaches.1
  | stopped _ stopped => exact yields_pure ⟨.stopped fun reaches => stopped.not_clear reaches.2, sized⟩
  | held valid clear =>
    apply (acquireHeld_effect sized built valid).bind
    rintro ⟨next, answer⟩ effect
    refine yields_pure ⟨(effect _).1.mono ?_, (effect True).2⟩
    intro told
    rw [told]
    rfl

theorem acquirePlain_effect (context : CallerState) {request : LeaseRequest} (built : request.request.policy.Built) :
    (store.acquirePlain context request).Yields fun result =>
      KeyEffect store (stateKey request.request) request.request.now
        (store.refuses context = none ∧ request.validate = .ok ())
        (result.2.error = some (.sentinel .unavailable)) result.1 ∧ Sized options result.1 := by
  unfold Store.acquirePlain
  split
  · rename_i stops
    refine yields_pure ⟨.stopped fun reaches => ?_, sized⟩
    cases stops.symm.trans reaches.1
  · rename_i refused
    refine yields_pure ⟨.stopped fun reaches => ?_, sized⟩
    cases refused.symm.trans reaches.2
  · rename_i begins valid
    have term : (retimed request (truncate request.request.now)).request.policy.lease.nanos % 1000 = 0 :=
      lease_whole request built valid
    apply (Shard.acquireLocked_effect (sized.each _).whole (truncate_whole _) term).bind
    rintro ⟨target, answer⟩ effect
    refine yields_pure (sized.written (effect.mono ?_) _)
    rintro rfl
    rfl

/-- A release is confined to its key. -/
theorem release_effect (lease : Lease) :
    let index := store.shardFor (Postgres.bucketName lease.policyID lease.key)
    Confined store (store.setShard index ((store.shards index).releaseLocked lease).1)
        (Postgres.bucketName lease.policyID lease.key) ∧
      Sized options (store.setShard index ((store.shards index).releaseLocked lease).1) := by
  intro index
  rcases Shard.releaseLocked_effect (sized.each index).whole lease
    (truncate Time.zero) with same | ⟨current, found, effect⟩
  · rw [same, Store.setShard_self]
    exact ⟨.refl _ _, sized⟩
  · refine ⟨?_, sized.setShard effect⟩
    have missing : store.find (Postgres.bucketName lease.policyID lease.key) ≠ none := by
      rw [show store.find _ = _ from found]
      simp
    -- A key that is there is neither created nor given up.
    have spread := sized.keyEffect True effect
    generalize store.setShard _ _ = next at spread ⊢
    cases spread with
    | stopped => exact .refl _ _
    | kept _ confined => exact confined
    | created new => exact absurd new missing
    | evicted new => exact absurd new missing
    | refused => exact .refl _ _

theorem releasePlain_effect (context : CallerState) (lease : Lease) :
    Confined store (store.releasePlain context lease).1 (Postgres.bucketName lease.policyID lease.key) ∧
      Sized options (store.releasePlain context lease).1 := by
  unfold Store.releasePlain
  split
  · exact ⟨.refl _ _, sized⟩
  · exact release_effect sized lease

theorem releaseStrict_effect (waits : Waits) (lease : Lease) :
    Confined store (store.releaseStrict waits lease).1 (Postgres.bucketName lease.policyID lease.key) ∧
      Sized options (store.releaseStrict waits lease).1 := by
  unfold Store.releaseStrict
  split
  · exact ⟨.refl _ _, sized⟩
  split
  · exact ⟨.refl _ _, sized⟩
  split
  · exact ⟨.refl _ _, sized⟩
  split
  · exact ⟨.refl _ _, sized⟩
  · exact release_effect sized lease

theorem storeStep_disciplined (call : StoreCall) :
    (storeStep store call).Yields fun result => Disciplined store call result.2 result.1 ∧ Sized options result.1 := by
  cases call with
  | admitPlain context request built =>
    apply (admitPlain_effect sized context built).bind
    rintro ⟨next, result⟩ effect
    exact yields_pure effect
  | acquirePlain context request built =>
    apply (acquirePlain_effect sized context built).bind
    rintro ⟨next, result⟩ effect
    exact yields_pure effect
  | releasePlain context lease => exact yields_pure (releasePlain_effect sized context lease)
  | strict call =>
    cases call with
    | admitStrict waits request built =>
      apply (admitStrict_effect sized waits built).bind
      rintro ⟨next, result⟩ effect
      exact yields_pure effect
    | acquireStrict waits request built =>
      apply (acquireStrict_effect sized waits built).bind
      rintro ⟨next, result⟩ effect
      exact yields_pure effect
    | releaseStrict waits lease => exact yields_pure (releaseStrict_effect sized waits lease)
    | sweep now idleFor => exact yields_pure ⟨trivial, sized.sweep now idleFor⟩
    | close => exact yields_pure ⟨trivial, sized.count, sized.each⟩

end

/-- The cardinality of a memory store and the discipline of its eviction. For all options that
`New` accepts and all runs, strict or not, with sweeps: the quotas of the shards sum to the
limit, no shard ever holds more, and an operation on one key changes another one only to make
room for a new key in a full shard. Then it removes the one victim; if there is none, or the
store is told to reject, it says that it is unavailable and changes nothing. -/
theorem memory_cardinality (options : Options) (store : Store) (made : newStore options = .ok store)
    (calls : List StoreCall) :
    ((List.finRange store.count).map fun index => (store.shards index).maxKeys).sum = options.maxKeys.toNat ∧
      ∃ entries, (Runs.trace storeStep store calls).Returns entries ∧ entries.map Entry.input = calls ∧
        ∀ entry ∈ entries, Sized options entry.before ∧ Sized options entry.after ∧
          (entry.after.len : Int) ≤ options.maxKeys ∧
          Disciplined entry.before entry.input entry.output entry.after := by
  have shape := newStore_made made
  have start := Sized.start made
  refine ⟨start.sum shape.some_shards, ?_⟩
  obtain ⟨entries, run, inputs, kept⟩ := Runs.trace_returns storeStep (fun _ store => Sized options store)
    (fun _ entry => Disciplined entry.before entry.input entry.output entry.after) calls
    (fun _ store call sized _ => storeStep_disciplined sized call) start
  refine ⟨entries, run, inputs, fun entry member => ?_⟩
  obtain ⟨earlier, later, split⟩ := List.append_of_mem member
  obtain ⟨before, disciplined, after⟩ := kept earlier entry later split
  have most := after.len_le shape.some_shards
  have keys := shape.some_keys
  exact ⟨before, after, by omega, disciplined⟩

/-- Two shards for three keys. -/
def threeKeys : Store where
  count := 2
  positive := Nat.two_pos
  shards := fun index => { maxKeys := if index.val < 1 then 2 else 1, rejectOnCapacity := false }

def fivePerSecond : Policy := ratePolicy .tokenBucket 97 5 0 1000000 second_fits

/-- A request for one token by the key of a single byte. -/
def oneOf (key : UInt8) (micros : Int) : Request := ⟨fivePerSecond, ⟨[key], [117]⟩, 1, .ofUnixMicro micros⟩

theorem fivePerSecond_built : fivePerSecond.Built := by
  have built : newPolicy fivePerSecond.toPolicySpec = .ok fivePerSecond := rfl
  exact ⟨_, built⟩

/-- Five keys for three places, with and without the strict checks, and a sweep. -/
def crowd : List StoreCall :=
  [.admitPlain .live (oneOf 97 0) fivePerSecond_built, .strict (.admitStrict {} (oneOf 98 1) fivePerSecond_built),
    .admitPlain .live (oneOf 99 2) fivePerSecond_built, .strict (.admitStrict {} (oneOf 100 3) fivePerSecond_built),
    .strict (.sweep ⟨4000000000⟩ ⟨1⟩), .admitPlain .live (oneOf 101 5) fivePerSecond_built]

theorem memory_cardinality_crowd :
    newStore { maxKeys := 3, shards := 2 } = .ok threeKeys ∧
      ∃ entries, (Runs.trace storeStep threeKeys crowd).Returns entries ∧ entries.map Entry.input = crowd ∧
        ∀ entry ∈ entries, (entry.after.len : Int) ≤ 3 ∧
          Disciplined entry.before entry.input entry.output entry.after := by
  have made : newStore { maxKeys := 3, shards := 2 } = .ok threeKeys := rfl
  obtain ⟨-, entries, run, inputs, kept⟩ := memory_cardinality _ threeKeys made crowd
  exact ⟨made, entries, run, inputs, fun entry member => (kept entry member).2.2⟩

end RateLimit.Memory
