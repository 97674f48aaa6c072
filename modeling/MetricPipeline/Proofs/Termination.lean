import MetricPipeline.Proofs.Permits
import Mathlib.Algebra.GroupWithZero.Nat

/-!
# Termination

Steps cannot go on for ever: a step of a call, whatever it does, lowers the weight of the call and the potential of
the nodes taken together (`Step.weight_lt`). And they do not stop too early: in a fan-out a permit is free or a job
is running (`Activity.Funded`), and the job that runs waits for none of those that wait for its permit, so the first
task that can step is found as long as the call has not ended and waits for no gate (`ready?_eq_none`).

So all calls end if no code waits (`Machine.Run.terminates`), and settling a machine takes it as far as it goes
(`Machine.Valid.settle`).
-/

namespace MetricPipeline

theorem foldl_measure {α : Type} (f : α → Nat) (xs : List α) (n : Nat) :
    xs.foldl (fun n x => n + f x) n = n + (xs.map f).sum := by
  induction xs generalizing n with
  | nil => rfl
  | cons x rest ih =>
    rw [List.foldl_cons, ih, List.map_cons, List.sum_cons]
    omega

/-! ## Weights -/

namespace World

theorem potential_eq (w : World) : w.potential = (w.nodes.map Node.potential).sum :=
  (foldl_measure ..).trans (Nat.zero_add _)

@[simp] theorem potential_note (w : World) (e : Entry) : (w.note e).potential = w.potential := rfl

/-- One node trades its old potential for its new one. -/
theorem potential_setUsage {w : World} {x : NodeId} {c : Component} {u : Usage} (v : Usage)
    (node : w.nodes[x]? = some ⟨c, u⟩) :
    (w.setUsage x v).potential + Node.potential ⟨c, u⟩ = w.potential + Node.potential ⟨c, v⟩ := by
  obtain ⟨bound, at_x⟩ := List.getElem?_eq_some_iff.mp node
  obtain ⟨before, n, after, split, length, changed⟩ :=
    List.exists_of_modify (fun n : Node => { n with usage := v }) bound
  have here : n = ⟨c, u⟩ := by
    rw [← at_x]
    simp [split, ← length]
  subst here
  rw [potential_eq, potential_eq, setUsage, changed, split]
  simp only [List.map_append, List.map_cons, List.sum_append, List.sum_cons]
  omega

/-- Counting leaves the potential of every node as it is. -/
theorem potential_recount {w : World} {x : NodeId} {u v : Usage} (counted : w.usage? x = some u)
    (same : v.tornDown = u.tornDown) : (w.setUsage x v).potential = w.potential := by
  obtain ⟨c, node, -⟩ := (w.usage?_eq_some_iff x u).mp counted
  have trade := potential_setUsage v node
  have equal : Node.potential ⟨c, v⟩ = Node.potential ⟨c, u⟩ := by
    unfold Node.potential
    rw [same]
  omega

theorem potential_inspect (w : World) (x : NodeId) (refs : Nat) : (w.inspect x refs).potential = w.potential := by
  unfold inspect
  split
  · split <;> rfl
  · rfl

end World

namespace Activity

theorem slotsWeight_append (xs ys : List (Slot Activity)) :
    slotsWeight (xs ++ ys) = slotsWeight xs + slotsWeight ys := by
  induction xs with
  | nil => simp [slotsWeight]
  | cons slot rest ih =>
    cases slot with
    | waiting | started =>
      simp only [List.cons_append, slotsWeight, ih]
      omega
    | joined => exact ih

theorem weight_spread_le (config : Config) (rs : List Reference) :
    (spread config rs).weight ≤ 5 * rs.length + 1 := by
  have jobs : slotsWeight ((rs.map fun r => release r.1 r.2).map .waiting) = 5 * rs.length := by
    induction rs with
    | nil => rfl
    | cons r rest ih =>
      simp only [List.map_cons, slotsWeight, weight, ih, List.length_cons]
      omega
  unfold spread
  rw [FanOut.spawn?_eq]
  cases config.isAdmissible with
  | true => simp only [if_true, weight, jobs, Nat.le_refl]
  | false => simp [weight]

section

variable {env : Work → Behaviour} {w w' : World}

theorem weight_work_le (k : Work) (wait : Option Gate) (o : Outcome) :
    (work k wait o).weight ≤ if k.duty = .hook then 6 else 2 := by
  simp only [weight]
  split <;> split <;> omega

/-- A teardown weighs no more than the potential of a node that is still to be torn down. -/
theorem weight_undertaking_le (env : Work → Behaviour) (c : Component) (x : NodeId) {u : Usage}
    (unfired : u.tornDown = false) : (c.undertaking env x).weight ≤ Node.potential ⟨c, u⟩ := by
  unfold Node.potential
  rw [unfired]
  cases c with
  | leaf | uncounted | hooked => exact weight_work_le ..
  | sink => simp [Component.undertaking, weight]
  | router routes config =>
    refine Nat.le_trans (weight_spread_le ..) ?_
    simp [Component.holds, Table.size]

theorem Act.weight_lt {t t' : Activity} (h : Act env w t w' t') (acyclic : w.Acyclic) :
    t'.weight + w'.potential < t.weight + w.potential := by
  cases h with
  | @acquire holder x u counted =>
    have same := World.potential_recount (v := u.acquire) counted rfl
    simp only [weight, World.potential_note]
    omega
  | @drop holder x u left counted =>
    have same := World.potential_recount (w := w.note (.released holder x)) (v := { u with refs := left + 1 })
      counted rfl
    simp only [weight, World.potential_note] at same ⊢
    omega
  | @dropLast holder x u counted =>
    have same := World.potential_recount (w := w.note (.released holder x)) (v := { u with refs := 0 }) counted rfl
    simp only [weight, World.potential_note] at same ⊢
    omega
  | inspect => simp [weight, World.potential_inspect]
  | @releaseUncounted holder x kind =>
    have light := weight_undertaking_le env .uncounted x (u := {}) rfl
    have potential : Node.potential ⟨.uncounted, {}⟩ = 2 := rfl
    simp only [weight, World.potential_note]
    omega
  | @fire x u c counted unfired kind =>
    obtain ⟨d, node, -⟩ := (w.usage?_eq_some_iff x u).mp counted
    obtain rfl : d = c := by simpa [World.component?, node] using kind
    have trade := World.potential_setUsage { u with tornDown := true } node
    have spent : Node.potential ⟨d, { u with tornDown := true }⟩ = 0 := rfl
    have light := weight_undertaking_le env d x unfired
    simp only [weight, World.potential_note]
    omega
  | @receive x r c kind =>
    have light : _ ≤ 2 := weight_work_le ⟨x, .report⟩ (env ⟨x, .report⟩).wait (env ⟨x, .report⟩).outcome
    have heavy : (report x r).weight = x + 3 := by simp only [weight]
    simp only [World.potential_note]
    omega
  | @forward x r below kind =>
    have less : below < x := acyclic x _ kind _ (List.mem_singleton_self _)
    simpa [weight] using less
  | @route x r routes config y kind found =>
    have less : y < x := acyclic x _ kind _ (Component.mem_holds_router.mpr found)
    simpa [weight] using less
  | workEnd =>
    simp only [weight, World.potential_note]
    split <;> simp
  | _ => simp [weight]

/-- Every step comes nearer to the end, whichever task takes it. -/
theorem Step.weight_lt {env : Surroundings} {a a' : Activity} {path : Path} (h : Step w env a path w' a')
    (acyclic : w.Acyclic) (sound : ∀ t ∈ a.tasks, t.Sound w) : a'.weight + w'.potential < a.weight + w.potential := by
  induction h with
  | @act env a w' a' acts => exact (act_act (sound a (by simp [act_tasks acts])).known acts).weight_lt acyclic
  | merge => simp [weight]
  | delegated _ ih =>
    have less := ih sound
    simp only [weight]
    omega
  | close => simp [weight]
  | @start env all all' i started =>
    obtain ⟨job, waiting, slots, -⟩ := start?_slot started
    obtain ⟨before, after, old, new⟩ := split_at waiting
    simp only [weight, slots, new]
    rw [old]
    simp only [slotsWeight_append, slotsWeight]
    omega
  | @join env all i o _ slot =>
    obtain ⟨before, after, old, new⟩ := split_at slot
    have same : (Activity.join (env.panicText [i]) w all i o).1.potential = w.potential := by cases o <;> rfl
    rw [same]
    simp only [Activity.join, FanOut.join, weight, new]
    rw [old]
    simp only [slotsWeight_append, slotsWeight]
    omega
  | @child env all i a path w' a' slot _ ih =>
    obtain ⟨before, after, old, new⟩ := split_at slot
    have less := ih fun t mem => sound t (tasks_child slot t mem)
    simp only [FanOut.advance, weight, new]
    rw [old]
    simp only [slotsWeight_append, slotsWeight]
    omega

end

/-! ## The task that is next -/

/-- The task waits for a gate that is closed. -/
def isHeld (w : World) : Activity → Bool
  | work _ (some gate) _ => !w.isOpen gate
  | _ => false

section

variable {w : World}

/-- Where the next job is found: it waits and there is a permit for it, or it has a task that can step. -/
theorem readySlot?_eq_some {permit : Bool} {slots : List (Slot Activity)} {n : Nat} {path : Path}
    (h : readySlot? w permit slots n = some path) :
    ∃ i rest, path = (n + i) :: rest ∧
      ((∃ job, slots[i]? = some (.waiting job) ∧ permit = true ∧ rest = []) ∨
        ∃ a, slots[i]? = some (.started a) ∧ ready? w a = some rest) := by
  induction slots generalizing n with
  | nil => simp [readySlot?] at h
  | cons slot others ih =>
    -- What is found among the others is found one place further on.
    have later : readySlot? w permit others (n + 1) = some path → ∃ i rest, path = (n + i) :: rest ∧
        ((∃ job, (slot :: others)[i]? = some (.waiting job) ∧ permit = true ∧ rest = []) ∨
          ∃ a, (slot :: others)[i]? = some (.started a) ∧ ready? w a = some rest) := by
      intro h
      obtain ⟨i, rest, rfl, found⟩ := ih h
      exact ⟨i + 1, rest, by rw [Nat.add_assoc, Nat.add_comm 1 i], found⟩
    cases slot with
    | joined =>
      simp only [readySlot?] at h
      exact later h
    | waiting job =>
      simp only [readySlot?] at h
      split at h
      · cases h
        exact ⟨0, [], rfl, .inl ⟨job, rfl, ‹_›, rfl⟩⟩
      · exact later h
    | started a =>
      simp only [readySlot?] at h
      split at h
      · rename_i rest found
        cases h
        exact ⟨0, rest, rfl, .inr ⟨a, rfl, found⟩⟩
      · exact later h

theorem readySlot?_eq_none {permit : Bool} {slots : List (Slot Activity)} {n : Nat}
    (h : readySlot? w permit slots n = none) :
    (∀ job, .waiting job ∈ slots → permit = false) ∧ ∀ a, .started a ∈ slots → ready? w a = none := by
  induction slots generalizing n with
  | nil => simp
  | cons slot others ih =>
    cases slot with
    | joined =>
      simp only [readySlot?] at h
      simpa using ih h
    | waiting job =>
      simp only [readySlot?] at h
      split at h
      · cases h
      · obtain ⟨waiting, running⟩ := ih h
        refine ⟨fun _ _ => Bool.eq_false_iff.mpr ‹_›, fun a mem => running a ?_⟩
        simpa using mem
    | started a =>
      simp only [readySlot?] at h
      split at h
      · cases h
      · rename_i none_found
        obtain ⟨waiting, running⟩ := ih h
        refine ⟨fun job mem => waiting job (by simpa using mem), fun b mem => ?_⟩
        obtain e | mem := List.mem_cons.mp mem
        · cases e
          exact none_found
        · exact running b mem

/-- The task that is found can step. -/
theorem step?_of_ready? (env : Surroundings) {a : Activity} {path : Path} (staged : a.Staged)
    (h : ready? w a = some path) : ∃ s, step? env w a path = some s := by
  induction a using tree_induction generalizing env path with
  | task a notDelegate notFanOut =>
    cases a with
    | ended => simp [ready?] at h
    | delegate => exact absurd rfl (notDelegate _ _)
    | fanOut => exact absurd rfl (notFanOut _)
    | work k wait o =>
      cases wait with
      | none =>
        cases h
        exact ⟨_, rfl⟩
      | some gate =>
        simp only [ready?, Option.ite_none_right_eq_some, Option.some.injEq] at h
        obtain ⟨opened, rfl⟩ := h
        exact ⟨(w.note (.resumed k), work k none o), by simp only [step?, act, opened, if_true]⟩
    | _ =>
      cases h
      exact ⟨_, rfl⟩
  | delegated f below ih =>
    by_cases closed : ∃ o, below = ended o
    · obtain ⟨o, rfl⟩ := closed
      cases h
      exact ⟨_, rfl⟩
    · rw [ready?] at h
      · obtain ⟨s, steps⟩ := ih env staged h
        refine ⟨(s.1, delegate f s.2), ?_⟩
        rw [step?, steps]
        · rfl
        · exact fun o _ e => closed ⟨o, e⟩
      · exact fun o e => closed ⟨o, e⟩
  | spread free slots queue errors ih =>
    simp only [ready?] at h
    split at h
    · rename_i i next
      cases h
      obtain ⟨o, ended⟩ := (staged_queued staged).next next
      exact ⟨_, (Step.join next ended).step?_eq⟩
    split at h
    · rename_i closed
      cases h
      exact ⟨_, (Step.close closed).step?_eq⟩
    · obtain ⟨i, rest, rfl, ⟨job, waiting, permit, rfl⟩ | ⟨a, running, found⟩⟩ := readySlot?_eq_some h
      · rw [Nat.zero_add]
        exact ⟨_, (Step.start (FanOut.start?_eq_some.mpr ⟨job, waiting, permit, rfl⟩)).step?_eq⟩
      · obtain ⟨s, steps⟩ := ih a (.inr (List.mem_of_getElem? running)) (env.under [i])
          (staged_running staged running) found
        rw [Nat.zero_add]
        exact ⟨_, (Step.child running (step?_step steps)).step?_eq⟩

/-- A call that has not ended has a task that can step, or one that waits for a gate: among jobs that wait for a
permit there is one that runs. -/
theorem ready?_eq_none {a : Activity} (staged : a.Staged) (funded : a.Funded) (h : ready? w a = none) :
    (∃ o, a = ended o) ∨ ∃ t ∈ a.tasks, t.isHeld w = true := by
  induction a using tree_induction with
  | task a notDelegate notFanOut =>
    cases a with
    | ended o => exact .inl ⟨o, rfl⟩
    | delegate => exact absurd rfl (notDelegate _ _)
    | fanOut => exact absurd rfl (notFanOut _)
    | work k wait o =>
      cases wait with
      | none => cases h
      | some gate =>
        have closed : w.isOpen gate = false := by simpa [ready?] using h
        exact .inr ⟨_, List.mem_singleton_self _, by simp [isHeld, closed]⟩
    | _ => cases h
  | delegated f below ih =>
    by_cases closed : ∃ o, below = ended o
    · obtain ⟨o, rfl⟩ := closed
      cases h
    · rw [ready?] at h
      · exact .inr ((ih staged funded h).resolve_left closed)
      · exact fun o e => closed ⟨o, e⟩
  | spread free slots queue errors ih =>
    obtain ⟨permits, slotsFunded⟩ := funded
    simp only [ready?] at h
    split at h
    · cases h
    rename_i none_next
    split at h
    · cases h
    rename_i unended
    obtain ⟨waiting, stuck⟩ := readySlot?_eq_none h
    -- No job has ended and is still to be joined: those that have started are running.
    have going : ∀ a, .started a ∈ slots → a.isEnded = false := by
      intro a mem
      obtain ⟨i, slot⟩ := List.mem_iff_getElem?.mp mem
      refine isEnded_eq_false.mpr fun o closed => ?_
      have queued := ((staged_queued staged).ended i).mpr ⟨o, closed ▸ slot⟩
      rw [List.head?_eq_none_iff.mp none_next] at queued
      cases queued
    have some_running : ∃ a, .started a ∈ slots := by
      by_cases some_running : ∃ a, .started a ∈ slots
      · exact some_running
      have idle : slots.countP Slot.isRunning = 0 := by
        apply List.countP_eq_zero.mpr
        intro slot mem running
        cases slot with
        | started a => exact some_running ⟨a, mem⟩
        | waiting | joined => cases running
      obtain ⟨slot, mem, left⟩ : ∃ slot ∈ slots, slot.isJoined = false := by
        simpa [FanOut.isEnded] using unended
      cases slot with
      | joined => cases left
      | started a => exact absurd ⟨a, mem⟩ some_running
      | waiting job =>
        have spent : free = some 0 := by simpa [FanOut.hasPermit] using waiting job mem
        exact absurd (by simp [FanOut.permits, spent, idle]) permits
    obtain ⟨a, mem⟩ := some_running
    obtain ⟨i, slot⟩ := List.mem_iff_getElem?.mp mem
    obtain ⟨o, closed⟩ | ⟨t, task, held⟩ :=
      ih a (.inr mem) (staged_running staged slot) (funded_running slotsFunded mem) (stuck a mem)
    · exact absurd closed (isEnded_eq_false.mp (going a mem) o)
    · exact .inr ⟨t, @tasks_child ⟨free, slots, queue, errors⟩ i a slot t task, held⟩

end

def isReporting : Activity → Bool
  | report _ _ => true
  | work k _ _ => k.duty == .report
  | _ => false

/-- User code that has not to do with a report waits for nothing. -/
def isPrompt : Activity → Bool
  | work k wait _ => k.duty == .report || wait.isNone
  | _ => true

theorem undertaking_prompt {env : Work → Behaviour} (quick : ∀ k, k.duty ≠ .report → (env k).wait = none)
    (c : Component) (x : NodeId) :
    ∀ t ∈ (c.undertaking env x).tasks, t.isPrompt = true := by
  intro t mem
  cases c with
  | leaf | uncounted | hooked =>
    cases List.mem_singleton.mp mem
    simp [Component.undertaking, isPrompt, quick]
  | sink => cases mem
  | router routes config =>
    obtain ⟨r, -, rfl⟩ := mem_tasks_spread mem
    rfl

theorem undertaking_reporting (env : Work → Behaviour) (c : Component) (x : NodeId) :
    ∀ t ∈ (c.undertaking env x).tasks, t.isReporting = false := by
  intro t mem
  cases c with
  | leaf | uncounted | hooked =>
    cases List.mem_singleton.mp mem
    rfl
  | sink => cases mem
  | router routes config =>
    obtain ⟨r, -, rfl⟩ := mem_tasks_spread mem
    rfl

theorem Act.prompt {env : Work → Behaviour} {w w' : World} {t t' : Activity} (h : Act env w t w' t')
    (quick : ∀ k, k.duty ≠ .report → (env k).wait = none) (prompt : t.isPrompt = true) :
    ∀ s ∈ t'.tasks, s.isPrompt = true := by
  cases h with
  | releaseUncounted | fire => exact undertaking_prompt quick _ _
  | _ => simp [tasks, isPrompt]

/-- Releases lead to releases. -/
theorem Act.reporting {env : Work → Behaviour} {w w' : World} {t t' : Activity} (h : Act env w t w' t')
    (aside : t.isReporting = false) : ∀ s ∈ t'.tasks, s.isReporting = false := by
  cases h with
  | releaseUncounted | fire => exact undertaking_reporting env _ _
  | receive | forward | route | unrouted => cases aside
  | resume => simpa [tasks, isReporting] using aside
  | _ => simp [tasks, isReporting]

end Activity

/-- A call takes a step of its own, or returns. -/
def Move.isOnward : Move → Bool
  | run _ _ | finish _ => true
  | build _ | call _ | openGate _ | cancel _ => false

namespace Machine

/-- A bound on the steps and returns that are left. -/
def remaining (m : Machine) : Nat := m.weight + m.calls.length

variable {env : Environment} {moves : List Move} {m m' : Machine} {id : CallId} {a : Activity}

theorem weight_eq (m : Machine) : m.weight = m.world.potential + (m.calls.map (·.2.weight)).sum := foldl_measure ..

theorem Valid.weight_lt {path : Path} (valid : m.Valid) (step : m.step? env (.run id path) = some m') :
    m'.weight < m.weight ∧ m'.calls.length = m.calls.length := by
  obtain ⟨a, a', before, after, found, moved, split, split', -, -⟩ := valid.run step
  have less := (Activity.step?_step moved).weight_lt valid.acyclic (valid.sound_call (mem_calls found))
  rw [weight_eq, weight_eq, split, split']
  constructor
  · simp only [List.map_append, List.map_cons, List.sum_append, List.sum_cons]
    omega
  · simp

/-- Each step brings the end nearer, and so does each call that returns. -/
theorem Valid.remaining_lt {move : Move} (valid : m.Valid) (step : m.step? env move = some m')
    (onward : move.isOnward = true) : m'.remaining < m.remaining := by
  unfold remaining
  cases move with
  | build | call | openGate | cancel => cases onward
  | run id path =>
    obtain ⟨less, same⟩ := valid.weight_lt step
    omega
  | finish id =>
    simp only [step?, outcome?, Option.bind_eq_bind, Option.bind_eq_some_iff, Option.pure_def,
      Option.some.injEq] at step
    obtain ⟨o, ⟨a, found, -⟩, rfl⟩ := step
    obtain ⟨before, after, split, without⟩ := valid.without found
    simp only [weight_eq, World.potential_note, split, without, List.map_append, List.map_cons, List.sum_append,
      List.sum_cons, List.length_append, List.length_cons]
    omega

theorem Run.length_le (run : Run env m moves m') (valid : m.Valid) (onward : ∀ a ∈ moves, a.isOnward = true) :
    moves.length + m'.remaining ≤ m.remaining := by
  induction run with
  | start => simp
  | next run step ih =>
    have le := ih fun a mem => onward a (List.mem_append_left _ mem)
    have less := (run.valid valid).remaining_lt step (onward _ (by simp))
    rw [List.length_append, List.length_singleton]
    omega

/-- A call that is not dropped is under way until it returns. -/
theorem Run.stays_or_returns (run : Run env m moves m') (valid : m.Valid) (uncancelled : .cancel id ∉ moves)
    (found : m.activity? id = some a) :
    (∃ a', m'.activity? id = some a') ∨ ∃ o, .returned id o ∈ m'.world.journal := by
  induction run with
  | start => exact .inl ⟨a, found⟩
  | @next moves m₁ move m₂ run step ih =>
    have valid := run.valid valid
    obtain ⟨a', found'⟩ | ⟨o, returned⟩ := ih fun mem => uncancelled (List.mem_append_left _ mem)
    · cases valid.callChange step id with
      | stays _ same => exact .inl ⟨a', same.trans found'⟩
      | begins _ old =>
        rw [found'] at old
        cases old
      | steps _ new => exact .inl ⟨_, new⟩
      | returns =>
        cases valid.change step with
        | finish world => exact .inr ⟨_, by rw [world]; exact List.mem_cons_self⟩
      | dropped => exact absurd (by simp) uncancelled
    · exact .inr ⟨o, (valid.change step).journal.subset returned⟩

theorem Valid.step?_of_found (valid : m.Valid) (env : Environment) {path : Path} (found : m.activity? id = some a)
    (next : a.ready? m.world = some path) : ∃ m', m.step? env (.run id path) = some m' := by
  obtain ⟨s, steps⟩ := Activity.step?_of_ready? (env id) (valid.staged (id, a) (mem_calls found)) next
  apply Option.isSome_iff_exists.mp
  simp [step?, found, steps]

theorem Valid.step?_of_ready? (valid : m.Valid) (env : Environment) {path : Path}
    (next : m.ready? = some (id, path)) : ∃ m', m.step? env (.run id path) = some m' := by
  obtain ⟨c, mem, found⟩ := List.exists_of_findSome?_eq_some next
  obtain ⟨path, ready, e⟩ := Option.map_eq_some_iff.mp found
  cases e
  exact valid.step?_of_found env (valid.activity?_of_mem mem) ready

/-- Settling is a run that goes on until no task can step. -/
theorem Valid.settleWithin (valid : m.Valid) (env : Environment) (fuel : Nat) (enough : m.weight ≤ fuel) :
    ∃ moves, Run env m moves (m.settleWithin env fuel) ∧ (∀ a ∈ moves, a.isOnward = true) ∧
      (m.settleWithin env fuel).ready? = none := by
  induction fuel generalizing m with
  | zero =>
    refine ⟨[], .start, by simp, ?_⟩
    cases next : m.ready? with
    | none => exact next
    | some place =>
      obtain ⟨m', step⟩ := valid.step?_of_ready? env next
      have less := (valid.weight_lt step).1
      omega
  | succ fuel ih =>
    rw [Machine.settleWithin]
    cases next : m.ready? with
    | none => exact ⟨[], .start, by simp, next⟩
    | some place =>
      obtain ⟨m', step⟩ := valid.step?_of_ready? env next
      have less := (valid.weight_lt step).1
      obtain ⟨moves, run, onward, settled⟩ := ih (valid.step step) (by omega)
      simp only [step]
      exact ⟨_, (Run.start.next step).append run, by simpa [Move.isOnward] using onward, settled⟩

theorem Valid.settle (valid : m.Valid) (env : Environment) :
    ∃ moves, Run env m moves (m.settle env) ∧ (∀ a ∈ moves, a.isOnward = true) ∧ (m.settle env).ready? = none :=
  valid.settleWithin env m.weight (Nat.le_refl _)

theorem Run.held_or_ended (run : Run env {} moves m) (found : m.activity? id = some a)
    (idle : a.ready? m.world = none) : (∃ o, a = .ended o) ∨ ∃ t ∈ a.tasks, t.isHeld m.world = true :=
  Activity.ready?_eq_none ((run.valid valid_empty).staged (id, a) (mem_calls found)) (run.funded found) idle

/-- Only reports have code that waits. -/
theorem Run.none_held (run : Run env {} moves m)
    (quick : ∀ id path k, k.duty ≠ .report → ((env id).behaviour path k).wait = none) :
    ∀ t ∈ m.tasks, t.isReporting = false → t.isHeld m.world ≠ true := by
  have prompt : ∀ t ∈ m.tasks, t.isPrompt = true := by
    refine run.each_task valid_empty (by simp [Machine.tasks]) ?_
      fun {id path _ _ _ _} act => act.prompt (quick id path)
    intro r _ t task
    cases r with
    | releaseAll xs config =>
      obtain ⟨r, -, rfl⟩ := Activity.mem_tasks_spread task
      rfl
    | acquire | release | report =>
      cases List.mem_singleton.mp task
      rfl
  intro t task aside held
  have prompt := prompt t task
  cases t with
  | work k wait o =>
    cases wait with
    | none => cases held
    | some gate =>
      rw [Activity.isPrompt, show (k.duty == .report) = false from aside] at prompt
      cases prompt
  | _ => cases held

/-- If hooks and teardowns do not wait and no report is under way, all calls come to an end. Every call that has not
ended can take a step; every step, and every return, lowers what remains; so there are no more of them than that,
however they interleave, and where none is possible any more every call has returned. Settling gets there. -/
theorem Run.terminates (run : Run env {} moves m) (unreported : ∀ t ∈ m.tasks, t.isReporting = false)
    (quick : ∀ id path k, k.duty ≠ .report → ((env id).behaviour path k).wait = none) :
    (∀ id a, m.activity? id = some a →
      (∃ o, a = .ended o) ∨ ∃ path m', m.step? env (.run id path) = some m') ∧
    (∀ move m', m.step? env move = some m' → move.isOnward = true → m'.remaining < m.remaining) ∧
    (∀ more m', Run env m more m' → (∀ a ∈ more, a.isOnward = true) →
      more.length + m'.remaining ≤ m.remaining ∧
      ((∀ a, a.isOnward = true → m'.step? env a = none) →
        m'.calls = [] ∧ ∀ id a, m.activity? id = some a → ∃ o, .returned id o ∈ m'.world.journal)) ∧
    ∃ more, Run env m more (m.settle env) ∧ (∀ a ∈ more, a.isOnward = true) ∧
      ∀ id a, (m.settle env).activity? id = some a → ∃ o, a = .ended o := by
  have valid := run.valid valid_empty
  have progress : ∀ {more m'}, Run env m more m' → (∀ a ∈ more, a.isOnward = true) → ∀ id a,
      m'.activity? id = some a → a.ready? m'.world = none → ∃ o, a = .ended o := by
    intro more m' further onward id a found idle
    have unreported' : ∀ t ∈ m'.tasks, t.isReporting = false :=
      further.each_task valid unreported (fun r mem => by cases onward _ mem) fun act => act.reporting
    obtain ended | ⟨t, task, held⟩ := (run.append further).held_or_ended found idle
    · exact ended
    · have mem : t ∈ m'.tasks := List.mem_flatMap.mpr ⟨(id, a), mem_calls found, task⟩
      exact absurd held ((run.append further).none_held quick t mem (unreported' t mem))
  refine ⟨?_, fun move m' step => valid.remaining_lt step, ?_, ?_⟩
  · intro id a found
    cases next : a.ready? m.world with
    | none => exact .inl (progress .start (by simp) id a found next)
    | some path => exact .inr ⟨path, valid.step?_of_found env found next⟩
  · intro more m' further onward
    refine ⟨further.length_le valid onward, fun stuck => ?_⟩
    have valid' := further.valid valid
    have none_left : ∀ id a, m'.activity? id ≠ some a := by
      intro id a found
      cases next : a.ready? m'.world with
      | none =>
        obtain ⟨o, rfl⟩ := progress further onward id a found next
        have returns := stuck (.finish id) rfl
        simp [step?, outcome?, found, Activity.outcome?] at returns
      | some path =>
        obtain ⟨m'', step⟩ := valid'.step?_of_found env found next
        rw [stuck (.run id path) rfl] at step
        cases step
    refine ⟨?_, fun id a found => ?_⟩
    · apply List.eq_nil_iff_forall_not_mem.mpr
      rintro ⟨id, a⟩ mem
      exact none_left id a (valid'.activity?_of_mem mem)
    · have uncancelled : .cancel id ∉ more := fun mem => by cases onward _ mem
      exact (further.stays_or_returns valid uncancelled found).resolve_left (not_exists.mpr (none_left id))
  · obtain ⟨more, settles, onward, settled⟩ := valid.settle env
    refine ⟨more, settles, onward, fun id a found => progress settles onward id a found ?_⟩
    simpa using List.findSome?_eq_none_iff.mp settled (id, a) (mem_calls found)

/-- Every teardown fails. -/
def failing : Environment := .uniform fun _ => { failure := some (.failed "out of order") }

/-- A router over a router over a leaf that all of them share, with one permit at every level; two calls release the
upper one, which was acquired once. -/
def nested : List Move :=
  [.build .leaf, .build (.router (.ofList [("a", 0), ("b", 0)]) ⟨1⟩),
    .build (.router (.ofList [("c", 1), ("d", 0)]) ⟨1⟩), .call (.acquire 2), .run 0 [], .run 0 [], .finish 0,
    .call (.releaseAll [2, 2] ⟨1⟩), .call (.release 2), .run 1 [0], .run 1 [0], .run 1 [0], .run 1 [0, 0]]

theorem terminates_nested :
    ∃ m, Run failing {} nested m ∧ (∃ path m', m.step? failing (.run 1 path) = some m') ∧
      (∃ path m', m.step? failing (.run 2 path) = some m') ∧
      ∃ more, Run failing m more (m.settle failing) ∧ more.length ≤ 35 := by
  obtain ⟨m, a, b, run, first, second, unreported, going, going', remaining⟩ : ∃ m a b, Run failing {} nested m ∧
      m.activity? 1 = some a ∧ m.activity? 2 = some b ∧ (∀ t ∈ m.tasks, t.isReporting = false) ∧
      (∀ o, a ≠ .ended o) ∧ (∀ o, b ≠ .ended o) ∧ m.remaining = 35 :=
    ⟨_, _, _, .of_foldlM rfl, rfl, rfl, by decide, by simp, by simp [Request.activity], rfl⟩
  obtain ⟨progress, -, bounded, more, settles, onward, -⟩ := Run.terminates run unreported fun _ _ _ _ => rfl
  have bound := (bounded more _ settles onward).1
  refine ⟨m, run, ?_, ?_, more, settles, by omega⟩
  · exact (progress 1 a first).resolve_left (not_exists.mpr going)
  · exact (progress 2 b second).resolve_left (not_exists.mpr going')

end Machine
end MetricPipeline
