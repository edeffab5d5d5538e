import RateLimit.RowExpiry

/-! What a rejected request leaves behind. It is written: a balance is refilled, a
window moves on, segments are cleared and a slot is taken over. None of that shows at a
later time, because refilling is additive and the rest only drops what no longer
counts. So a run gives the same answers from the state before a rejection as from the
state after it. -/
namespace RateLimit.Postgres

open Machine

/-! ## One rejection -/

theorem refilled_refilled (rate : TokenRate) (held : rate.InRange (levelOf state)) (behind : state.lastMicros ≤ now)
    (later : now ≤ now') :
    refilled rate (refilled rate state now) now' = refilled rate state now' := by
  have elapsed : (now - state.lastMicros).toNat + (now' - now).toNat = (now' - state.lastMicros).toNat := by omega
  have last : max state.lastMicros now = now := max_eq_right behind
  have level : rate.refill (rate.refill (levelOf state) (now - state.lastMicros).toNat) (now' - now).toNat =
      rate.refill (levelOf state) (now' - state.lastMicros).toNat := by
    rw [held.refill_refill, elapsed]
  unfold levelOf at level
  unfold refilled
  dsimp only
  rw [last, level]
  congr 1
  omega

/-- The window a fixed window moves to shows what the state showed. -/
theorem windowUsed_moved (positive : 0 < period) (past : state.window ≤ windowStart now period) (later : now ≤ now')
    (window : after.window = windowStart now period) (used : after.used = windowUsed period state now) :
    windowUsed period state now' = windowUsed period after now' := by
  have starts := windowStart_mono positive later
  unfold windowUsed at used ⊢
  rw [window, used]
  by_cases same : windowStart now period = windowStart now' period
  · rw [if_pos same, same]
  · rw [if_neg same, if_neg (by omega)]

/-- Taking over a slot takes nothing that counts. -/
theorem counted_claimed {segments : Segments} (placed : (ringOf segments).Placed oldest index)
    (span : index - oldest ≤ 16) (later : oldest ≤ oldest') :
    counted (claimSlot (dropExpired segments oldest) index) oldest' = counted segments oldest' := by
  have now : counted (claimSlot (dropExpired segments oldest) index) oldest = counted segments oldest := by
    funext slot
    by_cases here : slot = Ring.slot 16 index
    · subst here
      have taken := claimSlot_counted segments oldest index
      by_cases gone : (segments (Ring.slot 16 index)).index ≤ oldest ∨ (segments (Ring.slot 16 index)).used = 0
      · rw [counted_gone gone] at taken
        refine (counted_gone (Or.inr ?_)).trans (counted_gone gone).symm
        rw [taken]
        split <;> rfl
      · rw [counted_live gone] at taken
        obtain ⟨newer, used⟩ := not_or.mp gone
        obtain ⟨past, named⟩ := placed _ (not_le.mp newer) used
        have same : (segments (Ring.slot 16 index)).index = index := by
          refine Ring.eq_of_slot_eq named ?_
          rw [abs_lt]
          change (segments (Ring.slot 16 index)).index ≤ index at past
          omega
        rw [if_pos same] at taken
        unfold counted
        rw [taken]
    · rw [← counted_dropExpired segments]
      unfold counted
      rw [claimSlot_other _ _ here]
  rw [← counted_counted _ later, now, counted_counted _ later]

/-- A state of which nothing lies ahead shows the same before and after a rejection. -/
theorem spend_rejected {request : Request} (bounds : request.Bounds period)
    (ready : Ready request.policy.algorithm (rateOf bounds) request.now.unixMicro state)
    (window : request.policy.algorithm = .fixedWindow → state.window ≤ windowStart request.now.unixMicro period)
    (placed : request.policy.algorithm = .slidingWindow → (ringOf state.segments).Placed
      (oldestAt request.now.unixMicro period) (segmentAt request.now.unixMicro period))
    (kind : request.policy.algorithm.IsRate)
    (rejected : (spend (rateOf bounds) state request).error = some .rejected)
    (later : request.now.unixMicro ≤ now) :
    SameAt request.policy.algorithm (rateOf bounds) now state (spend (rateOf bounds) state request).state := by
  unfold spend at rejected ⊢
  rcases kind with kind | kind | kind <;> simp only [kind] at ready window placed rejected ⊢
  · obtain ⟨held, behind⟩ := ready.token rfl
    have short : (refilled (rateOf bounds) state request.now.unixMicro).tokens < request.cost := by
      by_contra room
      rw [(spendToken_room _ room).1] at rejected
      cases rejected
    rw [(spendToken_short _ short).2]
    refine ⟨fun _ => ⟨?_, ?_⟩, by simp, by simp⟩
    · rw [refilled_refilled _ held behind later]
    · show _ = max (max state.lastMicros request.now.unixMicro) now
      omega
  · obtain ⟨moved, ⟨-, used⟩ | ⟨allowed, -⟩⟩ := spendFixed_cases period state request
    · exact ⟨by simp, fun _ => windowUsed_moved bounds.period_pos (window trivial) later moved used, by simp⟩
    · exact absurd (rejected.symm.trans allowed) (by simp)
  · rcases spendSliding_cases period state request with ⟨-, segments⟩ | ⟨allowed, -⟩
    · refine ⟨by simp, by simp, fun _ => ?_⟩
      have past := (segment_mono bounds.period_pos later).1
      have span := (segment_span bounds request.now.unixMicro).2
      show counted state.segments (oldestAt now period) =
        counted (spendSliding period state request).state.segments (oldestAt now period)
      rw [segments, counted_claimed (placed trivial) span past]
    · exact absurd (rejected.symm.trans allowed) (by simp)

/-- Nothing is rejected on a blank state. -/
theorem Blank.allowed {request : Request} (bounds : request.Bounds period)
    (blank : Blank (rateOf bounds) request.now.unixMicro state) (kind : request.policy.algorithm.IsRate) :
    (spend (rateOf bounds) state request).error = none := by
  have cost := bounds.cost_le
  unfold spend
  rcases kind with kind | kind | kind <;> simp only [kind]
  · refine (spendToken_room _ ?_).1
    have level : levelOf (refilled (rateOf bounds) state request.now.unixMicro) = ⟨request.policy.limit, 0⟩ := by
      show (rateOf bounds).refill (levelOf state) (request.now.unixMicro - state.lastMicros).toNat = _
      rw [blank.last, blank.level]
      simp [rateOf]
    have tokens : (refilled (rateOf bounds) state request.now.unixMicro).tokens = request.policy.limit :=
      congrArg TokenLevel.tokens level
    omega
  · have unused : ¬ request.policy.limit - windowUsed period state request.now.unixMicro < request.cost := by
      unfold windowUsed
      rw [blank.used, ite_self]
      omega
    obtain ⟨-, ⟨rejected, -⟩ | ⟨allowed, -⟩⟩ := spendFixed_cases period state request
    · unfold spendFixed at rejected
      dsimp only at rejected
      rw [spendUsage_room _ _ unused] at rejected
      cases rejected
    · exact allowed
  · have unused : ¬ request.policy.limit - (swept period state request).used < request.cost := by
      have total : (ringOf state.segments).total (oldestAt request.now.unixMicro period) = 0 := by
        rw [blank.segments]
        unfold Ring.total
        exact Finset.sum_eq_zero fun slot _ => ite_self 0
      show ¬ request.policy.limit - (ringOf state.segments).total (oldestAt request.now.unixMicro period) < request.cost
      rw [total]
      omega
    exact (spendSegment_room _ _ _ unused).1

theorem Blank.prepared (blank : Blank rate now state) (request : Request)
    (same : state.revision = request.policy.revision) : Blank rate now (prepared state request) := by
  obtain ⟨level, last, -, used, segments⟩ := prepared_same request same
  exact ⟨level.trans blank.level, last.trans blank.last, used.trans blank.used, segments.trans blank.segments⟩

/-! ## Runs under one policy -/

/-- Nothing is stored yet, or what a step under the policy left behind. -/
def ReachedUnder (policy : Policy) (rate : TokenRate) (current : Option PersistedState) : Prop :=
  ∀ state, current = some state → Kept state policy rate.period ∧ Settled policy.algorithm rate state

/-- One call under the policy: it overflows and changes nothing, or it is accepted and
leaves what a step leaves. -/
theorem ReachedUnder.step {request : ValidRequest} (bounds : request.toRequest.Bounds period)
    (reached : ReachedUnder request.policy (rateOf bounds) current) (kind : request.policy.algorithm.IsRate) :
    mutateStep current request = pure (current, ⟨{}, some .overflow⟩) ∨
      ∃ accepted : Accepted current request.toRequest period,
        mutateStep current request = pure (some (outcome accepted).state,
          (outcome accepted).answer) ∧
        ReachedUnder request.policy (rateOf bounds) (some (outcome accepted).state) := by
  have past : Reached [request] current := fun state same =>
    ⟨request, by simp, _, (reached state same).1⟩
  have revisions : Revisions [request] := by
    intro first one second two
    rw [List.mem_singleton.mp one, List.mem_singleton.mp two]
    exact .refl _
  rcases past.step revisions (by simp) kind bounds with ⟨overflow, -⟩ | ⟨accepted, result, -⟩
  · exact Or.inl overflow
  · refine Or.inr ⟨accepted, result, ?_⟩
    have rate : rateOf accepted.bounds = rateOf bounds := rateOf_eq _ _ (clampRequest_policy _ _)
    rintro state ⟨⟩
    refine ⟨outcome_kept accepted, ?_⟩
    rw [← rate]
    cases current with
    | none =>
      have still : effective none request.toRequest = request.toRequest :=
        clampRequest_of_le (freshState_observed request.toRequest).le
      refine outcome_settled accepted (freshState_revision _) ?_
      rw [rate, still]
      exact (freshState_blank bounds).ready
    | some state =>
      obtain ⟨kept, settled⟩ := reached state rfl
      refine outcome_settled accepted kept.revision ?_
      rw [rate]
      refine settled.ready ?_
      show state.observedMicros ≤ (clampRequest state request.toRequest).now.unixMicro
      rw [clampRequest_unixMicro]
      exact le_max_right _ _

/-- An accepted request does not leave the exact range. -/
theorem Accepted.not_overflows (accepted : Accepted (some state) request period) :
    ¬ Overflows (some state) request period := by
  rintro (⟨fixed, outside⟩ | ⟨_, ⟨⟩, late⟩)
  · exact outside (accepted.window fixed)
  · have room := accepted.bounds.room
    change (clampRequest state request).now.unixMicro + _ ≤ _ at room
    rw [clampRequest_unixMicro] at room
    omega

/-- Two states that no request from `since` on tells apart. -/
structure Untold (policy : Policy) (rate : TokenRate) (since : Int) (left right : PersistedState) : Prop where
  left_kept : Kept left policy rate.period
  right_kept : Kept right policy rate.period
  clock : max left.observedMicros since = max right.observedMicros since
  same : ∀ now, max left.observedMicros since ≤ now → SameAt policy.algorithm rate now left right

/-- From `since` on both clamp a request to the same time. -/
theorem Untold.effective (untold : Untold policy rate since left right) {request : Request}
    (later : since ≤ request.now.unixMicro) : clampRequest left request = clampRequest right request := by
  have clock := untold.clock
  unfold clampRequest
  have time : max request.now.unixMicro left.observedMicros = max request.now.unixMicro right.observedMicros := by
    omega
  rw [time]

/-- The step lemma: one request gets one answer from both, and does not tell them
apart afterwards. -/
theorem Untold.step {request : ValidRequest} (bounds : request.toRequest.Bounds period)
    (untold : Untold request.policy (rateOf bounds) since left right) (kind : request.policy.algorithm.IsRate)
    (later : since ≤ request.now.unixMicro) :
    ∃ answer left' right', mutateStep (some left) request = pure (some left', answer) ∧
      mutateStep (some right) request = pure (some right', answer) ∧
      Untold request.policy (rateOf bounds) since left' right' := by
  have clock := untold.clock
  have together := untold.effective later
  have overflows : Overflows (some left) request.toRequest period ↔ Overflows
    (some right) request.toRequest period := by
    refine or_congr_right ⟨?_, ?_⟩
    · rintro ⟨_, ⟨⟩, late⟩
      exact ⟨right, rfl, by omega⟩
    · rintro ⟨_, ⟨⟩, late⟩
      exact ⟨left, rfl, by omega⟩
  unfold mutateStep
  rcases untold.left_kept.step (.refl _) bounds kind with ⟨first, late⟩ | ⟨accepted, first⟩ <;>
    rcases untold.right_kept.step (.refl _) bounds kind with ⟨second, late'⟩ | ⟨accepted', second⟩
  · refine ⟨⟨{}, some .overflow⟩, left, right, ?_, ?_, untold⟩
    · rw [first]
      rfl
    · rw [second]
      rfl
  · exact absurd (overflows.mp late) accepted'.not_overflows
  · exact absurd (overflows.mpr late') accepted.not_overflows
  · have rate : rateOf accepted.bounds = rateOf bounds := rateOf_eq _ _ (clampRequest_policy _ _)
    have reach : max left.observedMicros since ≤ (clampRequest left request.toRequest).now.unixMicro := by
      rw [clampRequest_unixMicro]
      omega
    obtain ⟨decision, error, alike⟩ := outcome_same accepted accepted' together untold.left_kept.revision
      untold.right_kept.revision (by rw [rate]; exact untold.same _ reach)
    refine ⟨(outcome accepted).answer, _, _, ?_, ?_,
      outcome_kept accepted, outcome_kept accepted', ?_, ?_⟩
    · rw [first]
      rfl
    · rw [second, Applied.answer, decision, error]
      rfl
    · rw [outcome_observed, outcome_observed]
      show max (clampRequest left request.toRequest).now.unixMicro since = _
      rw [together]
      rfl
    · intro now after
      rw [outcome_observed] at after
      rw [rate] at alike
      exact alike.sameAt ((le_max_left _ _).trans after)

/-- The states before and after a rejection. -/
theorem Accepted.untold {request : ValidRequest} (bounds : request.toRequest.Bounds period)
    (reached : ReachedUnder request.policy (rateOf bounds) current)
    (accepted : Accepted current request.toRequest period) (rejected : (outcome accepted).error = some .rejected) :
    ∃ state, current = some state ∧ Untold request.policy (rateOf bounds)
      (Postgres.effective current request.toRequest).now.unixMicro state (outcome accepted).state := by
  have rate : rateOf accepted.bounds = rateOf bounds := rateOf_eq _ _ (clampRequest_policy _ _)
  have policy : (Postgres.effective current request.toRequest).policy = request.policy := clampRequest_policy _ _
  cases current with
  | none =>
    have now : (Postgres.effective none request.toRequest).now.unixMicro = request.now.unixMicro :=
      congrArg (fun r : Request => r.now.unixMicro)
        (clampRequest_of_le (freshState_observed request.toRequest).le)
    have blank := freshState_blank bounds
    rw [← rate, ← now] at blank
    have allowed := Blank.allowed accepted.bounds (blank.prepared (Postgres.effective none request.toRequest)
      (by rw [policy, freshState_revision])) (by rw [policy]; exact accepted.kind)
    exact absurd (rejected.symm.trans allowed) (by simp)
  | some state =>
    obtain ⟨kept, settled⟩ := reached state rfl
    have named : state.revision = (Postgres.effective (some state) request.toRequest).policy.revision := by
      rw [policy, kept.revision]
    have ahead : state.observedMicros ≤ (Postgres.effective (some state) request.toRequest).now.unixMicro := by
      show _ ≤ (clampRequest state request.toRequest).now.unixMicro
      rw [clampRequest_unixMicro]
      exact le_max_right _ _
    obtain ⟨level, last, window, -, segments⟩ := prepared_same _ named
    refine ⟨state, rfl, kept, outcome_kept accepted, ?_, fun now after => ?_⟩
    · rw [outcome_observed, max_eq_right ahead, max_self]
    · have ready := (settled.ready ahead).congr level last segments
      have alike := prepared_alike _ named request.policy.algorithm (rateOf bounds) now
      refine (alike.sameAt le_rfl).symm.trans ?_
      rw [← rate] at ready ⊢
      rw [← policy] at ready ⊢
      refine spend_rejected accepted.bounds ready (fun fixed => ?_) (fun sliding => ?_)
        (by rw [policy]; exact accepted.kind) rejected ((le_max_right _ _).trans after)
      · rw [window, settled.fixed (by rw [← policy]; exact fixed)]
        exact windowStart_mono bounds.period_pos ahead
      · rw [segments]
        exact accepted.timely.placed sliding

/-- A request under the policy of another has its bounds and its rate. -/
theorem bounds_under {first request : ValidRequest} (bounds : first.toRequest.Bounds period)
    (same : request.policy = first.policy) (kind : first.policy.algorithm.IsRate) :
    ∃ other : request.toRequest.Bounds period, rateOf other = rateOf bounds := by
  obtain ⟨period', other⟩ := request.bounds (by rw [same]; exact kind)
  obtain rfl : period' = period :=
    ofMicros_injective (by rw [← other.period_eq, ← bounds.period_eq, same])
  exact ⟨other, rateOf_eq _ _ same⟩

/-- The run lemma: two states that are not told apart get the same answers. -/
theorem Untold.run {first : ValidRequest} (bounds : first.toRequest.Bounds period)
    (kind : first.policy.algorithm.IsRate) {requests : List ValidRequest}
    (under : ∀ request ∈ requests, request.policy = first.policy ∧ since ≤ request.now.unixMicro)
    (untold : Untold first.policy (rateOf bounds) since left right) :
    ∃ lefts rights, Runs.trace mutateStep (some left) requests = pure lefts ∧
      Runs.trace mutateStep (some right) requests = pure rights ∧
      lefts.map Entry.output = rights.map Entry.output := by
  refine Runs.trace_same_outputs mutateStep mutateStep
    (fun one two => ∃ left right, one = some left ∧ two = some right ∧
      Untold first.policy (rateOf bounds) since left right) requests ?_ ⟨left, right, rfl, rfl, untold⟩
  rintro _ _ request ⟨left, right, rfl, rfl, untold⟩ member
  obtain ⟨same, later⟩ := under request member
  obtain ⟨own, rate⟩ := bounds_under bounds same kind
  rw [← same] at kind untold
  rw [← rate] at untold
  obtain ⟨answer, left', right', one, two, next⟩ := untold.step own kind later
  rw [same, rate] at next
  exact ⟨_, _, one, two, rfl, left', right', rfl, rfl, next⟩

/-- The refill of `mutateToken` on a settled state is additive. -/
theorem Settled.refillToken_add {first second : Request} {bounds : first.Bounds period}
    (settled : Settled .tokenBucket (rateOf bounds) state) (other : second.Bounds period)
      (rate : rateOf other = rateOf bounds)
    (behind : state.lastMicros ≤ first.now.unixMicro) (later : first.now.unixMicro ≤ second.now.unixMicro) :
    (refillToken state first >>= fun between => refillToken between second) = refillToken state second := by
  obtain ⟨held, -⟩ := settled.token rfl
  have part : (refilled (rateOf bounds) state first.now.unixMicro).remainder < period :=
    (held.refill (first.now.unixMicro - state.lastMicros).toNat).remainder_lt
  rw [refillToken_exact bounds held.remainder_lt, pure_bind, refillToken_exact other part,
    refillToken_exact other held.remainder_lt, rate, refilled_refilled _ held behind later]

/-- A rejected request leaves no trace: from the states before and after it, every
later run of requests under the policy, at times not before the rejection's, gets the
same answers. For token buckets this rests on refilling being additive. -/
theorem rejection_leaves_no_trace (policy : Policy) (kind : policy.algorithm.IsRate) (requests : List ValidRequest)
    (under : ∀ request ∈ requests, request.policy = policy) :
    ∃ entries : List StateEntry, Runs.trace mutateStep none requests = pure entries ∧
      entries.map Entry.input = requests ∧
      (∀ entry ∈ entries, entry.output.error = some .rejected → ∀ later : List ValidRequest,
        (∀ request ∈ later, request.policy = policy ∧ entry.effectiveMicros ≤ request.now.unixMicro) →
        ∃ without following, Runs.trace mutateStep entry.before later = pure without ∧
          Runs.trace mutateStep entry.after later = pure following ∧
          without.map Entry.output = following.map Entry.output) ∧
      ∀ entry ∈ entries, ∀ state, entry.before = some state → policy.algorithm = .tokenBucket →
        ∀ first second : ValidRequest, first.policy = policy → second.policy = policy →
          state.lastMicros ≤ first.now.unixMicro → first.now.unixMicro ≤ second.now.unixMicro →
          (refillToken state first.toRequest >>= fun between => refillToken between second.toRequest) =
            refillToken state second.toRequest := by
  cases requests with
  | nil => exact ⟨[], rfl, rfl, by simp, by simp⟩
  | cons head tail =>
    obtain rfl := under head (by simp)
    obtain ⟨period, bounds⟩ := head.bounds kind
    obtain ⟨entries, run, inputs, held⟩ := Runs.trace_invariant mutateStep
      (ReachedUnder head.policy (rateOf bounds))
      (fun entry : StateEntry => entry.output.error = some .rejected → ∃ state after, entry.before = some state ∧
        entry.after = some after ∧ Untold head.policy (rateOf bounds) entry.effectiveMicros state after)
      (head :: tail)
      (by
        intro current request reached member
        have same := under request member
        obtain ⟨own, rate⟩ := bounds_under bounds same kind
        rw [← same, ← rate] at reached
        rcases reached.step own (by rw [same]; exact kind) with overflow | ⟨accepted, result, next⟩
        · refine ⟨_, overflow, ?_, by simp⟩
          rwa [same, rate] at reached
        · refine ⟨_, result, ?_, fun rejected => ?_⟩
          · rwa [same, rate] at next
          · obtain ⟨state, here, untold⟩ := accepted.untold own reached rejected
            rw [same, rate] at untold
            exact ⟨state, _, here, rfl, untold⟩)
      (show ReachedUnder _ _ none by rintro state ⟨⟩)
    refine ⟨entries, run, inputs, fun entry member rejected later timely => ?_, ?_⟩
    · obtain ⟨state, after, before, behind, untold⟩ := (held entry member).2 rejected
      rw [before, behind]
      exact untold.run bounds kind timely
    · intro entry member state before token first second one two behind later
      obtain ⟨-, settled⟩ := (held entry member).1 state before
      rw [token] at settled
      obtain ⟨left, leftRate⟩ := bounds_under bounds one kind
      obtain ⟨right, rightRate⟩ := bounds_under bounds two kind
      rw [← leftRate] at settled
      exact settled.refillToken_add right (rightRate.trans leftRate.symm) behind later

/-- A request to the bucket of `firstRequest`. -/
def bucketRequest (cost : Nat) (micros : Int)
    (accepted : Request.validate ⟨firstRequest.policy, ⟨[107], [117]⟩, cost, .ofUnixMicro micros⟩ = .ok ()) :
    ValidRequest :=
  firstRequest.policy.request rfl cost micros accepted

theorem rejection_leaves_no_trace_drained :
    (∀ request ∈ [bucketRequest 15 1000000 rfl, bucketRequest 3 1150000 rfl],
        request.policy = firstRequest.policy) ∧
      ∃ drained rejected, Runs.trace mutateStep none
          [bucketRequest 15 1000000 rfl, bucketRequest 3 1150000 rfl] = pure [drained, rejected] ∧
        rejected.output.error = some .rejected ∧
        ∃ without following, Runs.trace mutateStep rejected.before [bucketRequest 2 1200000 rfl] = pure without ∧
          Runs.trace mutateStep rejected.after [bucketRequest 2 1200000 rfl] = pure following ∧
          without.map Entry.output = following.map Entry.output := by
  have under : ∀ request ∈ [bucketRequest 15 1000000 rfl, bucketRequest 3 1150000 rfl],
      request.policy = firstRequest.policy := by decide
  obtain ⟨entries, run, -, traceless, -⟩ := rejection_leaves_no_trace firstRequest.policy (by decide)
    [bucketRequest 15 1000000 rfl, bucketRequest 3 1150000 rfl] under
  cases run
  exact ⟨under, _, _, rfl, rfl, traceless _ (.tail _ (.head _)) rfl [bucketRequest 2 1200000 rfl] (by decide)⟩

end RateLimit.Postgres
