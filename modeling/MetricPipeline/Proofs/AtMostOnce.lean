import MetricPipeline.Proofs.Holders

/-!
# At most once

Whatever happens in a run, nothing of a teardown begins twice: neither the teardown itself nor a hook, nor the
release of a reference inside the graph. A call that is dropped takes its tasks with it for good (`Run.absent`)
and leaves everything else as it is, so a release that it had not begun is never begun (`Run.never_released`).
-/

namespace MetricPipeline
namespace Machine

variable {env : Environment} {moves more : List Move} {m m' m'' : Machine} {id : CallId} {a : Activity}

theorem next_le {move : Move} (step : m.step? env move = some m') : m.next ≤ m'.next := by
  cases move with
  | build c =>
    obtain ⟨w, -, rfl⟩ := Option.map_eq_some_iff.mp step
    exact Nat.le_refl _
  | openGate gate =>
    cases step
    exact Nat.le_refl _
  | call r =>
    simp only [step?, Option.ite_none_right_eq_some, Option.some.injEq] at step
    obtain ⟨-, rfl⟩ := step
    exact Nat.le_succ _
  | run | finish =>
    simp only [step?, Option.bind_eq_bind, Option.bind_eq_some_iff, Option.pure_def, Option.some.injEq] at step
    obtain ⟨-, -, -, -, rfl⟩ := step
    exact Nat.le_refl _
  | cancel =>
    simp only [step?, Option.bind_eq_bind, Option.bind_eq_some_iff, Option.pure_def,
      Option.ite_none_right_eq_some, Option.some.injEq] at step
    obtain ⟨-, -, -, rfl⟩ := step
    exact Nat.le_refl _

/-- A call that has left does not come back, and no other call is given its number. -/
theorem Run.absent (run : Run env m moves m') (valid : m.Valid) (made : id < m.next)
    (gone : m.activity? id = none) : m'.activity? id = none ∧ id < m'.next := by
  induction run with
  | start => exact ⟨gone, made⟩
  | @next moves m₁ move m₂ run step ih =>
    obtain ⟨gone, made⟩ := ih
    refine ⟨?_, Nat.lt_of_lt_of_le made (next_le step)⟩
    cases (run.valid valid).callChange step id with
    | stays _ same => rw [same, gone]
    | begins fresh => exact absurd fresh (Nat.ne_of_lt made)
    | steps old | returns old | dropped old =>
      rw [gone] at old
      cases old

theorem Valid.made (valid : m.Valid) (found : m.activity? id = some a) : id < m.next :=
  valid.fresh (id, a) (mem_calls found)

theorem cancelled_eq (step : m.step? env (.cancel id) = some m') :
    m' = { m with world := m.world.note (.cancelled id), calls := m.without id } := by
  simp only [step?, Option.bind_eq_bind, Option.bind_eq_some_iff, Option.pure_def,
    Option.ite_none_right_eq_some, Option.some.injEq] at step
  obtain ⟨-, -, -, rfl⟩ := step
  rfl

/-- What is dropped is one call. -/
theorem Valid.cancelled (valid : m.Valid) (step : m.step? env (.cancel id) = some m') :
    m'.activity? id = none ∧ ∀ other, other ≠ id → m'.activity? other = m.activity? other := by
  refine ⟨?_, fun other ne => ?_⟩
  · cases valid.callChange step id with
    | dropped _ _ new => exact new
    | stays apart => exact absurd rfl apart
  · cases valid.callChange step other with
    | stays _ same => exact same
    | dropped => exact absurd rfl ne

/-- The tasks of a call that is dropped are owed no longer, by anyone. -/
theorem Valid.owed_cancelled (valid : m.Valid) (found : m.activity? id = some a)
    (step : m.step? env (.cancel id) = some m') (p : Reference → Bool) :
    m'.owed.countP p + (a.tasks.flatMap (Activity.owed m.world)).countP p = m.owed.countP p := by
  obtain ⟨before, after, split, without⟩ := valid.without found
  rw [cancelled_eq step]
  change (((m.without id).flatMap (·.2.tasks)).flatMap (Activity.owed m.world)).countP p + _ =
    ((m.calls.flatMap (·.2.tasks)).flatMap (Activity.owed m.world)).countP p
  rw [without, split]
  simp only [List.flatMap_append, List.flatMap_cons, List.countP_append]
  omega

/-- Inside the graph no reference is relinquished twice. -/
theorem relinquished_le_one (w : World) (r : Reference) : w.relinquished.count r ≤ 1 :=
  Nat.le_trans (w.relinquished_sublist.count_le r) (List.nodup_iff_count_le_one.mp w.held_nodup r)

/-- A release inside the graph that a dropped call had still to begin is begun by no one. -/
theorem Run.never_released (run : Run env {} moves m) (found : m.activity? id = some a)
    (step : m.step? env (.cancel id) = some m') (further : Run env m' more m'') {r : Reference}
    (within : r.1 ≠ .outside) (waiting : .release r.1 r.2 ∈ a.tasks) :
    .released r.1 r.2 ∉ m''.world.journal := by
  have valid := run.valid valid_empty
  have inside : ∀ y, ((.outside, y) == r) = false := fun y => beq_eq_false_iff_ne.mpr fun e => within (by rw [← e])
  obtain ⟨lost, before, -⟩ := run.given (· == r)
  obtain ⟨lost', after, -⟩ := further.given_since (valid.step step) (· == r)
  have unasked := (asked_outside moves (p := (· == r)) inside).1
  have unasked' := (asked_outside more (p := (· == r)) inside).1
  have once : m.world.relinquished.countP (· == r) ≤ 1 := relinquished_le_one m.world r
  have once' : m''.world.relinquished.countP (· == r) ≤ 1 := relinquished_le_one m''.world r
  have owed := valid.owed_cancelled found step (· == r)
  have pending : 0 < (a.tasks.flatMap (Activity.owed m.world)).countP (· == r) :=
    List.countP_pos_iff.mpr ⟨r, List.mem_flatMap.mpr ⟨_, waiting, List.mem_singleton_self r⟩, beq_self_eq_true r⟩
  have same : m'.world.given = m.world.given ∧ m'.world.relinquished = m.world.relinquished := by
    rw [cancelled_eq step]
    exact ⟨rfl, rfl⟩
  rw [same.1, same.2] at after
  have none_given : m''.world.given.count r = 0 := by
    change m''.world.given.countP (· == r) = 0
    omega
  rw [← World.mem_given_iff]
  exact List.count_eq_zero.mp none_given

theorem Run.count_released_le (run : Run env {} moves m) {x : NodeId} {r : Reference}
    (holds : r ∈ m.world.holds x) : m.world.count (.released r.1 r.2) ≤ 1 := by
  rw [World.count_released]
  exact Nat.le_trans (run.given_le_relinquished (World.held_inside (World.mem_held holds)))
    (relinquished_le_one m.world r)

theorem Run.count_opening_le (run : Run env {} moves m) {x : NodeId} {c : Component}
    (kind : m.world.component? x = some c) (counted : c.isCounted = true) :
    m.world.count (.tornDown x) ≤ 1 ∧ m.world.count (c.opening x) ≤ 1 := by
  obtain ⟨account, opened⟩ := run.account kind counted
  rw [opened, account.fired]
  exact ⟨Bool.toNat_le _, Bool.toNat_le _⟩

/-- However a teardown ends, if it does, it has begun once and does not begin again. -/
theorem Run.opened_once (run : Run env {} moves m) {x : NodeId} {c : Component}
    (kind : m.world.component? x = some c) (counted : c.isCounted = true)
    (opened : c.opening x ∈ m.world.journal) (further : Run env m more m') :
    m'.world.count (c.opening x) = 1 := by
  have valid := run.valid valid_empty
  have le := ((run.append further).count_opening_le (further.component? valid kind) counted).2
  have stays : c.opening x ∈ m'.world.journal := (further.journal valid).subset opened
  have some_opening : 0 < m'.world.count (c.opening x) := List.count_pos_iff.mpr stays
  omega

/-- Over a whole run every guard is set and every teardown begun at most once, whether it then goes on, panics or
is dropped; so is every hook, and every release of a reference inside the graph. To drop a call does nothing but
that: no node and no other call is changed, no task of the call is there any more, and the releases inside the
graph that were to come do not come. -/
theorem Run.begins_at_most_once (run : Run env {} moves m) :
    (∀ x c, m.world.component? x = some c → c.isCounted = true →
      m.world.count (.tornDown x) ≤ 1 ∧ m.world.count (c.opening x) ≤ 1 ∧
      (c.opening x ∈ m.world.journal → ∀ more m', Run env m more m' → m'.world.count (c.opening x) = 1)) ∧
    (∀ x below, m.world.component? x = some (.hooked below) → m.world.count (.began ⟨x, .hook⟩) ≤ 1) ∧
    (∀ x, ∀ r ∈ m.world.holds x, m.world.count (.released r.1 r.2) ≤ 1) ∧
    ∀ id a m', m.activity? id = some a → m.step? env (.cancel id) = some m' →
      m'.world = m.world.note (.cancelled id) ∧
      (∀ other, other ≠ id → m'.activity? other = m.activity? other) ∧
      ∀ more m'', Run env m' more m'' → m''.activity? id = none ∧
        ∀ holder y, holder ≠ .outside → .release holder y ∈ a.tasks →
          .released holder y ∉ m''.world.journal := by
  have valid := run.valid valid_empty
  refine ⟨?_, ?_, fun x r holds => run.count_released_le holds, ?_⟩
  · intro x c kind counted
    obtain ⟨torn, opened⟩ := run.count_opening_le kind counted
    exact ⟨torn, opened, fun once more m' further => run.opened_once kind counted once further⟩
  · intro x below kind
    exact (run.count_opening_le kind rfl).2
  · intro id a m' found step
    obtain ⟨gone, others⟩ := valid.cancelled step
    have world : m'.world = m.world.note (.cancelled id) := by rw [cancelled_eq step]
    refine ⟨world, others, fun more m'' further => ⟨?_, fun holder y within waiting => ?_⟩⟩
    · exact (further.absent (valid.step step) (Nat.lt_of_lt_of_le (valid.made found) (next_le step)) gone).1
    · exact run.never_released found step further (r := (holder, y)) within waiting

/-- All code waits for a gate. -/
def gated : Environment := .uniform fun _ => { gate := some "go" }

/-- A router over two leaves is torn down, one release at a time; the first of them waits. -/
def halfway : List Move :=
  [.build .leaf, .build .leaf, .build (.router (.ofList [("a", 0), ("b", 1)]) ⟨1⟩), .call (.acquire 2), .run 0 [],
    .run 0 [], .call (.release 2), .run 1 [], .run 1 [], .run 1 [0], .run 1 [0], .run 1 [0]]

/-- The gate opens, and the router is acquired and released once more. -/
def onceMore : List Move :=
  [.openGate "go", .call (.acquire 2), .run 2 [], .run 2 [], .call (.release 2), .run 3 [], .run 3 []]

theorem begins_at_most_once_halfway :
    ∃ m m' m'', Run gated {} halfway m ∧ m.step? gated (.cancel 1) = some m' ∧ Run gated m' onceMore m'' ∧
      m''.world.count (.scattered 2 2) = 1 ∧ m''.world.count (.began ⟨0, .teardown⟩) = 1 ∧
      m''.activity? 1 = none ∧ .released (.route 2 "b") 1 ∉ m''.world.journal := by
  obtain ⟨m, a, m', m'', run, found, tasks, step, further, kind, kind', opened, opened'⟩ :
      ∃ m a m' m'', Run gated {} halfway m ∧ m.activity? 1 = some a ∧
        a.tasks = [.work ⟨0, .teardown⟩ (some "go") .ok, .release (.route 2 "b") 1] ∧
        m.step? gated (.cancel 1) = some m' ∧ Run gated m' onceMore m'' ∧
        m.world.component? 0 = some .leaf ∧
        m.world.component? 2 = some (.router (.ofList [("a", 0), ("b", 1)]) ⟨1⟩) ∧
        .began ⟨0, .teardown⟩ ∈ m.world.journal ∧ .scattered 2 2 ∈ m.world.journal :=
    ⟨_, _, _, _, .of_foldlM rfl, rfl, rfl, rfl, .of_foldlM rfl, rfl, rfl, by decide, by decide⟩
  obtain ⟨once, -, -, drops⟩ := Run.begins_at_most_once run
  obtain ⟨-, -, gone⟩ := drops 1 a m' found step
  obtain ⟨absent, never⟩ := gone _ _ further
  refine ⟨m, m', m'', run, step, further, ?_, ?_, absent, never (.route 2 "b") 1 (by simp) (by simp [tasks])⟩
  · exact (once 2 _ kind' rfl).2.2 opened' _ _ ((Run.start.next step).append further)
  · exact (once 0 _ kind rfl).2.2 opened _ _ ((Run.start.next step).append further)

end Machine
end MetricPipeline
