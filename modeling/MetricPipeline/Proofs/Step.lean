import MetricPipeline.Machine

/-!
# Steps of one call

A call is a tree of tasks, and `Activity.step?` walks down a path to the one that acts. `Activity.Step` lists
what can happen at the end of the path, and `step?_step` says that nothing else does. Either some task acts on
the world, and its place in the tree is taken by what it turns into, or the tree alone is rearranged: a
permit is taken, or an ended task is merged into the one that waited for it (`step_cases`).

`Step.step?_eq` and `step?_of_task?` are the other way round: what can happen is a step, and a task that can act is
never kept from it by where it stands.
-/

namespace MetricPipeline

theorem getElem?_set_found {α : Type} {slots : List α} {i : Nat} {old new : α} (found : slots[i]? = some old) :
    (slots.set i new)[i]? = some new :=
  List.getElem?_set_self (List.getElem?_eq_some_iff.mp found).1

namespace Activity

theorem isEnded_eq_true {a : Activity} : a.isEnded = true ↔ ∃ o, a = ended o := by
  cases a <;> simp [isEnded, outcome?]

theorem isEnded_eq_false {a : Activity} : a.isEnded = false ↔ ∀ o, a ≠ ended o := by
  cases a <;> simp [isEnded, outcome?]

mutual

/-- The tasks of a call that are still to act on the world, those that wait for a permit included. -/
def tasks : Activity → List Activity
  | ended _ => []
  | delegate _ below => tasks below
  | fanOut ⟨_, slots, _, _⟩ => slotsTasks slots
  | a => [a]

def slotsTasks : List (Slot Activity) → List Activity
  | [] => []
  | .waiting a :: rest => tasks a ++ slotsTasks rest
  | .started a :: rest => tasks a ++ slotsTasks rest
  | .joined :: rest => slotsTasks rest

end

mutual

/-- The task at the end of a path. -/
def task? : Activity → Path → Option Activity
  | delegate _ below, path => task? below path
  | fanOut ⟨_, slots, _, _⟩, i :: path => slotTask? slots i path
  | a, [] => some a
  | _, _ :: _ => none

def slotTask? : List (Slot Activity) → Nat → Path → Option Activity
  | [], _, _ => none
  | .started a :: _, 0, path => task? a path
  | _ :: _, 0, _ => none
  | _ :: rest, i + 1, path => slotTask? rest i path

end

inductive Step (w : World) : Surroundings → Activity → Path → World → Activity → Prop
  | act {env a w' a'} (acts : act (env.behaviour []) w a = some (w', a')) : Step w env a [] w' a'
  | merge {env f o} : Step w env (delegate f (ended o)) [] w (ended (o.afterHook f))
  | delegated {env f a path w' a'} (step : Step w env a path w' a') :
      Step w env (delegate f a) path w' (delegate f a')
  | close {env all} (all_ended : all.isEnded = true) :
      Step w env (fanOut all) [] w (ended (.ofResult all.result))
  | start {env all all' i} (started : all.start? i = some all') : Step w env (fanOut all) [i] w (fanOut all')
  | join {env} {all : FanOut Activity} {i o} (next : all.next? = some i)
      (slot : all.slots[i]? = some (.started (ended o))) :
      Step w env (fanOut all) [i] (join (env.panicText [i]) w all i o).1 (join (env.panicText [i]) w all i o).2
  | child {env} {all : FanOut Activity} {i a path w' a'} (slot : all.slots[i]? = some (.started a))
      (step : Step w (env.under [i]) a path w' a') :
      Step w env (fanOut all) (i :: path) w' (fanOut (all.advance i a' a'.isEnded))

theorem stepSlot?_eq_some {env : Surroundings} {w : World} {slots : List (Slot Activity)} {i : Nat}
    {path : Path} {s : World × Activity} :
    stepSlot? env w slots i path = some s ↔
      ∃ a, slots[i]? = some (.started a) ∧ step? env w a path = some s := by
  induction slots generalizing i with
  | nil => simp [stepSlot?]
  | cons slot rest ih =>
    cases i with
    | zero => cases slot <;> simp [stepSlot?]
    | succ i => simp [stepSlot?, ih]

/-- Induction on the tree of a call, down to the tasks that wait for no other. -/
theorem tree_induction {motive : Activity → Prop}
    (task : ∀ a, (∀ f below, a ≠ delegate f below) → (∀ all, a ≠ fanOut all) → motive a)
    (delegated : ∀ f below, motive below → motive (delegate f below))
    (spread : ∀ free slots queue errors, (∀ a, .waiting a ∈ slots ∨ .started a ∈ slots → motive a) →
      motive (fanOut ⟨free, slots, queue, errors⟩)) : ∀ a, motive a
  | delegate f below => delegated f below (tree_induction task delegated spread below)
  | fanOut ⟨free, slots, queue, errors⟩ =>
    spread free slots queue errors fun a _ => tree_induction task delegated spread a
  | ended _ | acquire _ _ | inspect _ _ | release _ _ | fire _ | report _ _ | work _ _ _ =>
    task _ (by simp) (by simp)
  termination_by a => sizeOf a
  decreasing_by
    · rw [delegate.sizeOf_spec]
      omega
    · rename_i mem
      rcases mem with mem | mem <;>
        · have := List.sizeOf_lt_of_mem mem
          simp_all
          omega

theorem step?_step {env : Surroundings} {w w' : World} {a a' : Activity} {path : Path}
    (h : step? env w a path = some (w', a')) : Step w env a path w' a' := by
  induction a using tree_induction generalizing env path w' a' with
  | task a notDelegate notFanOut =>
    cases path with
    | nil =>
      rw [step?] at h
      · exact .act h
      · exact fun f o => notDelegate f (ended o)
      · exact notDelegate
      · exact fun free slots queue errors => notFanOut ⟨free, slots, queue, errors⟩
    | cons i path =>
      rw [step?] at h
      · cases h
      · exact notDelegate
      · exact fun free slots queue errors => notFanOut ⟨free, slots, queue, errors⟩
  | delegated f below ih =>
    by_cases merging : ∃ o, path = [] ∧ below = ended o
    · obtain ⟨o, rfl, rfl⟩ := merging
      cases h
      exact .merge
    · rw [step?] at h
      · obtain ⟨s, hs, e⟩ := Option.map_eq_some_iff.mp h
        cases e
        exact .delegated (ih hs)
      · exact fun o here there => merging ⟨o, here, there⟩
  | spread free slots queue errors ih =>
    cases path with
    | nil =>
      simp only [step?, Option.ite_none_right_eq_some, Option.some.injEq, Prod.mk.injEq] at h
      obtain ⟨done, rfl, rfl⟩ := h
      exact .close done
    | cons i path =>
      by_cases waiting : ∃ job, slots[i]? = some (.waiting job) ∧ path = []
      · obtain ⟨job, waiting, rfl⟩ := waiting
        simp only [step?, waiting] at h
        obtain ⟨all', started, e⟩ := Option.map_eq_some_iff.mp h
        cases e
        exact .start started
      by_cases ended : ∃ o, slots[i]? = some (.started (ended o)) ∧ path = []
      · obtain ⟨o, ended, rfl⟩ := ended
        simp only [step?, ended, Option.ite_none_right_eq_some, Option.some.injEq] at h
        obtain ⟨next, now⟩ := h
        obtain ⟨rfl, rfl⟩ := Prod.mk.inj now
        exact .join next ended
      rw [step?] at h
      · obtain ⟨s, hs, e⟩ := Option.map_eq_some_iff.mp h
        cases e
        obtain ⟨a, slot, hs⟩ := stepSlot?_eq_some.mp hs
        exact .child slot (ih a (.inr (List.mem_of_getElem? slot)) hs)
      · exact fun job slot here => waiting ⟨job, slot, here⟩
      · exact fun o slot here => ended ⟨o, slot, here⟩

/-! ## What a step does to the tasks -/

theorem split_at {α : Type} {xs : List α} {i : Nat} {x : α} (h : xs[i]? = some x) :
    ∃ before after, xs = before ++ x :: after ∧ ∀ y, xs.set i y = before ++ y :: after := by
  obtain ⟨bound, rfl⟩ := List.getElem?_eq_some_iff.mp h
  refine ⟨xs.take i, xs.drop (i + 1), ?_, fun y => ?_⟩
  · rw [List.getElem_cons_drop, List.take_append_drop]
  · exact List.set_eq_take_append_cons_drop .. |>.trans (if_pos bound)

theorem slotsTasks_append (xs ys : List (Slot Activity)) :
    slotsTasks (xs ++ ys) = slotsTasks xs ++ slotsTasks ys := by
  induction xs with
  | nil => rfl
  | cons slot rest ih => cases slot <;> simp [slotsTasks, ih]

theorem slotsTasks_joined {slots : List (Slot Activity)} (h : slots.all Slot.isJoined = true) :
    slotsTasks slots = [] := by
  induction slots with
  | nil => rfl
  | cons slot rest ih =>
    obtain ⟨first, others⟩ := Bool.and_eq_true_iff.mp (List.all_cons.symm.trans h)
    cases slot with
    | joined => exact ih others
    | waiting | started => simp [Slot.isJoined] at first

theorem start?_slot {all all' : FanOut Activity} {i : Nat} (h : all.start? i = some all') :
    ∃ job, all.slots[i]? = some (.waiting job) ∧ all'.slots = all.slots.set i (.started job) ∧
      all'.queue = all.queue ∧ all'.errors = all.errors := by
  unfold FanOut.start? at h
  split at h
  · rename_i job waiting
    split at h
    · cases h
      exact ⟨job, waiting, rfl, rfl, rfl⟩
    · cases h
  · cases h

/-- Whatever can happen at the end of a path is done by stepping there. -/
theorem Step.step?_eq {env : Surroundings} {w w' : World} {a a' : Activity} {path : Path}
    (h : Step w env a path w' a') : step? env w a path = some (w', a') := by
  induction h with
  | @act env a w' a' acts =>
    rw [step?]
    · exact acts
    all_goals
      intros
      subst_vars
      cases acts
  | merge => rfl
  | @delegated env f a path w' a' step ih =>
    rw [step?, ih]
    · rfl
    · rintro o - rfl
      cases step with
      | act acts => cases acts
  | @close env all all_ended =>
    obtain ⟨free, slots, queue, errors⟩ := all
    simp only [step?, all_ended, if_true]
  | @start env all all' i started =>
    obtain ⟨free, slots, queue, errors⟩ := all
    obtain ⟨job, waiting, -⟩ := start?_slot started
    dsimp only at waiting
    simp only [step?, waiting, started, Option.map_some]
  | @join env all i o next slot =>
    obtain ⟨free, slots, queue, errors⟩ := all
    dsimp only at slot
    simp only [step?, slot, next, if_true]
  | @child env all i a path w' a' slot step ih =>
    obtain ⟨free, slots, queue, errors⟩ := all
    rw [step?, stepSlot?_eq_some.mpr ⟨a, slot, ih⟩]
    · rfl
    · intro job waiting
      simp [waiting] at slot
    · rintro o ended rfl
      rw [ended] at slot
      cases slot
      cases step with
      | act acts => cases acts

theorem act_tasks {env : Work → Behaviour} {w : World} {t : Activity} {s : World × Activity}
    (h : act env w t = some s) : t.tasks = [t] := by
  cases t with
  | ended | delegate | fanOut => simp [act] at h
  | _ => rfl

theorem slotTask?_eq_some {slots : List (Slot Activity)} {i : Nat} {path : Path} {t : Activity} :
    slotTask? slots i path = some t ↔ ∃ a, slots[i]? = some (.started a) ∧ a.task? path = some t := by
  induction slots generalizing i with
  | nil => simp [slotTask?]
  | cons slot rest ih =>
    cases i with
    | zero => cases slot <;> simp [slotTask?]
    | succ i => simp [slotTask?, ih]

theorem task?_child {all : FanOut Activity} {i : Nat} {a : Activity} {path : Path}
    (slot : all.slots[i]? = some (.started a)) : (fanOut all).task? (i :: path) = a.task? path := by
  apply Option.ext
  intro t
  simp only [task?, slotTask?_eq_some, slot, Option.some.injEq, Slot.started.injEq]
  exact ⟨fun ⟨_, e, h⟩ => e ▸ h, fun h => ⟨a, rfl, h⟩⟩

/-- A slot that changes is seen on the way through it, and on no other way. -/
theorem slotTask?_set {slots : List (Slot Activity)} {i j : Nat} {old slot : Slot Activity} {path : Path}
    {t : Activity} (found : slots[i]? = some old) (here : slotTask? (slots.set i slot) j path = some t) :
    (i = j ∧ ∃ a, slot = .started a ∧ a.task? path = some t) ∨ (i ≠ j ∧ slotTask? slots j path = some t) := by
  obtain ⟨a, now, there⟩ := slotTask?_eq_some.mp here
  by_cases same : i = j
  · subst same
    rw [getElem?_set_found found] at now
    exact .inl ⟨rfl, a, Option.some.inj now, there⟩
  · rw [List.getElem?_set_ne same] at now
    exact .inr ⟨same, slotTask?_eq_some.mpr ⟨a, now, there⟩⟩

theorem tasks_child {all : FanOut Activity} {i : Nat} {a : Activity}
    (slot : all.slots[i]? = some (.started a)) : ∀ t ∈ a.tasks, t ∈ (fanOut all).tasks := by
  obtain ⟨before, after, old, -⟩ := split_at slot
  intro t mem
  simp only [tasks, old, slotsTasks_append, slotsTasks]
  simp [mem]

/-- The tasks of one running job stand together among those of the fan-out. -/
theorem tasks_running {all : FanOut Activity} {i : Nat} {a : Activity} (slot : all.slots[i]? = some (.started a)) :
    ∃ before after, (fanOut all).tasks = before ++ (a.tasks ++ after) ∧
      ∀ a', (fanOut (all.advance i a' a'.isEnded)).tasks = before ++ (a'.tasks ++ after) := by
  obtain ⟨before, after, old, new⟩ := split_at slot
  refine ⟨slotsTasks before, slotsTasks after, ?_, fun a' => ?_⟩
  · simp only [tasks]
    rw [old]
    simp [slotsTasks_append, slotsTasks]
  · simp only [FanOut.advance, tasks, new]
    simp [slotsTasks_append, slotsTasks]

/-- Either one task acts, and what it turns into takes its place, or no task does. -/
theorem step_cases {env : Surroundings} {w w' : World} {a a' : Activity} {path : Path}
    (h : Step w env a path w' a') :
    ((w' = w ∨ ∃ text, w' = w.note (.releasePanicked text)) ∧ a'.tasks = a.tasks) ∨
    ∃ t t' before after, act (env.behaviour path) w t = some (w', t') ∧
      a.task? path = some t ∧ a'.task? path = t'.task? [] ∧
      a.tasks = before ++ t :: after ∧ a'.tasks = before ++ (t'.tasks ++ after) := by
  induction h with
  | @act env a w' a' acts =>
    refine .inr ⟨a, a', [], [], acts, ?_, rfl, act_tasks acts, by simp⟩
    cases a with
    | ended | delegate | fanOut => simp [Activity.act] at acts
    | _ => rfl
  | merge => exact .inl ⟨.inl rfl, rfl⟩
  | delegated _ ih => exact ih
  | @close env all done =>
    refine .inl ⟨.inl rfl, ?_⟩
    simp only [tasks, slotsTasks_joined done]
  | @start env all all' i started =>
    obtain ⟨job, waiting, slots, -⟩ := start?_slot started
    obtain ⟨before, after, old, new⟩ := split_at waiting
    refine .inl ⟨.inl rfl, ?_⟩
    simp only [tasks, slots, new]
    rw [old]
    simp [slotsTasks_append, slotsTasks]
  | @join env all i o _ slot =>
    obtain ⟨before, after, old, new⟩ := split_at slot
    refine .inl ⟨?_, ?_⟩
    · cases o with
      | panicked p => exact .inr ⟨env.panicText [i] p, rfl⟩
      | ok | failed => exact .inl rfl
    · simp only [Activity.join, FanOut.join, tasks, new]
      rw [old]
      simp [slotsTasks_append, slotsTasks, tasks]
  | @child env all i a path w' a' slot _ ih =>
    obtain ⟨before, after, hold, hnew⟩ := tasks_running slot
    have slot' : (all.advance i a' a'.isEnded).slots[i]? = some (.started a') := by
      simp [FanOut.advance, getElem?_set_found slot]
    rcases ih with ⟨world, same⟩ | ⟨t, t', l, r, acts, at_path, at_path', had, has⟩
    · exact .inl ⟨world, by rw [hold, hnew, same]⟩
    · refine .inr ⟨t, t', before ++ l, r ++ after, acts, ?_, ?_, ?_, ?_⟩
      · rw [task?_child slot, at_path]
      · rw [task?_child slot', at_path']
      · simp [hold, had]
      · simp [hnew, has]

/-- A task that can act at all can act now, wherever it stands. -/
theorem step?_of_task? {env : Surroundings} {w w' : World} {a t t' : Activity} {path : Path}
    (here : a.task? path = some t) (acts : act (env.behaviour path) w t = some (w', t')) :
    ∃ a', step? env w a path = some (w', a') ∧ a'.task? path = t'.task? [] := by
  induction a using tree_induction generalizing env path with
  | task a notDelegate notFanOut =>
    cases path with
    | nil =>
      rw [task?] at here
      · cases here
        refine ⟨t', ?_, rfl⟩
        rw [step?]
        · exact acts
        · exact fun f o => notDelegate f (ended o)
        · exact notDelegate
        · exact fun free slots queue errors => notFanOut ⟨free, slots, queue, errors⟩
      · exact notDelegate
    | cons i path =>
      rw [task?] at here
      · cases here
      · exact notDelegate
      · exact fun free slots queue errors => notFanOut ⟨free, slots, queue, errors⟩
  | delegated f below ih =>
    obtain ⟨a', step, there⟩ := ih here acts
    refine ⟨delegate f a', ?_, there⟩
    rw [step?]
    · rw [step]
      rfl
    · rintro o rfl rfl
      cases here
      cases acts
  | spread free slots queue errors ih =>
    cases path with
    | nil =>
      cases here
      cases acts
    | cons i path =>
      obtain ⟨a, slot, found⟩ := slotTask?_eq_some.mp here
      obtain ⟨a', step, there⟩ := ih a (.inr (List.mem_of_getElem? slot)) found
        (show act ((env.under [i]).behaviour path) w t = some (w', t') from acts)
      refine ⟨fanOut ((FanOut.mk free slots queue errors).advance i a' a'.isEnded), ?_, ?_⟩
      · rw [step?]
        · rw [stepSlot?_eq_some.mpr ⟨a, slot, step⟩]
          rfl
        · intro job waiting
          simp [waiting] at slot
        · rintro o ended rfl
          rw [ended] at slot
          cases slot
          cases found
          cases acts
      · rw [task?_child, there]
        simp [FanOut.advance, getElem?_set_found slot]

section

variable {env : Surroundings} {w w' : World} {a a' : Activity} {path : Path} {o : Outcome}

theorem Step.not_ended (h : Step w env (ended o) path w' a') : False := by
  cases h with
  | act acts => cases acts

theorem Step.going (h : Step w env a path w' a') (o : Outcome) : a ≠ ended o := by
  rintro rfl
  exact h.not_ended

end

end Activity

/-! ## Jobs that wait -/

/-- The jobs that queue up are those that have ended and are still to be joined. -/
structure FanOut.Queued (all : FanOut Activity) : Prop where
  nodup : all.queue.Nodup
  ended : ∀ i, i ∈ all.queue ↔ ∃ o, all.slots[i]? = some (.started (.ended o))

namespace FanOut.Queued

variable {all all' : FanOut Activity} {i : Nat} {a a' : Activity}

theorem waiting (free : Option Nat) (jobs : List Activity) : Queued { free, slots := jobs.map .waiting } where
  nodup := .nil
  ended i := by simp

/-- One job goes on, and the others stay where they are. -/
theorem turn {old new : Slot Activity} (queued : all.Queued) (found : all.slots[i]? = some old)
    (slots : all'.slots = all.slots.set i new) (nodup : all'.queue.Nodup)
    (own : i ∈ all'.queue ↔ ∃ o, new = .started (.ended o))
    (others : ∀ j, j ≠ i → (j ∈ all'.queue ↔ j ∈ all.queue)) : all'.Queued where
  nodup := nodup
  ended j := by
    rw [slots]
    by_cases same : j = i
    · subst same
      rw [getElem?_set_found found, own]
      simp
    · rw [List.getElem?_set_ne (Ne.symm same), others j same, queued.ended j]

theorem start (queued : all.Queued) (waiting : all.slots[i]? = some (.waiting a)) (idle : ∀ o, a ≠ .ended o)
    (slots : all'.slots = all.slots.set i (.started a)) (queue : all'.queue = all.queue) : all'.Queued := by
  refine queued.turn waiting slots (queue ▸ queued.nodup) ?_ fun j _ => by rw [queue]
  rw [queue, queued.ended i, waiting]
  simpa using idle

theorem advance (queued : all.Queued) (started : all.slots[i]? = some (.started a)) (going : ∀ o, a ≠ .ended o) :
    (all.advance i a' a'.isEnded).Queued := by
  have outside : i ∉ all.queue := by
    rw [queued.ended i, started]
    simpa using going
  cases last : a'.isEnded with
  | true =>
    have queue : (all.advance i a' true).queue = all.queue ++ [i] := rfl
    refine queued.turn started rfl ?_ ?_ fun j other => ?_
    · rw [queue]
      refine List.nodup_append.mpr ⟨queued.nodup, by simp, fun j mem k last => ?_⟩
      cases List.mem_singleton.mp last
      exact fun same => outside (same ▸ mem)
    · obtain ⟨o, rfl⟩ := Activity.isEnded_eq_true.mp last
      simp [queue]
    · simp [queue, other]
  | false =>
    have still : ∀ o, a' ≠ .ended o := Activity.isEnded_eq_false.mp last
    exact queued.turn started rfl queued.nodup (iff_of_false outside (by simpa using still)) fun _ _ => .rfl

theorem join (queued : all.Queued) (next : all.next? = some i) (failure : Option Failure) :
    (all.join i failure).Queued := by
  obtain ⟨rest, queue⟩ : ∃ rest, all.queue = i :: rest := List.head?_eq_some_iff.mp next
  have nodup := queued.nodup
  rw [queue, List.nodup_cons] at nodup
  obtain ⟨o, found⟩ := (queued.ended i).mp (by simp [queue])
  have left : (all.join i failure).queue = rest := by simp [FanOut.join, queue]
  refine queued.turn found rfl (left ▸ nodup.2) ?_ fun j other => ?_
  · simpa [left] using nodup.1
  · simp [left, queue, other]

/-- The job whose turn it is has ended. -/
theorem next (queued : all.Queued) (next : all.next? = some i) : ∃ o, all.slots[i]? = some (.started (.ended o)) :=
  (queued.ended i).mp (List.mem_of_mem_head? next)

end FanOut.Queued

namespace Activity

mutual

/-- Of each fan-out, a job that waits for a permit is a release that has not begun, and the jobs that queue up are
those that have ended. -/
def Staged : Activity → Prop
  | delegate _ below => Staged below
  | fanOut ⟨free, slots, queue, errors⟩ => SlotsStaged slots ∧ FanOut.Queued ⟨free, slots, queue, errors⟩
  | _ => True

def SlotsStaged : List (Slot Activity) → Prop
  | [] => True
  | .waiting a :: rest => (∃ h x, a = release h x) ∧ SlotsStaged rest
  | .started a :: rest => Staged a ∧ SlotsStaged rest
  | .joined :: rest => SlotsStaged rest

end

theorem slotsStaged_append {xs ys : List (Slot Activity)} :
    SlotsStaged (xs ++ ys) ↔ SlotsStaged xs ∧ SlotsStaged ys := by
  induction xs with
  | nil => simp [SlotsStaged]
  | cons slot rest ih => cases slot <;> simp [SlotsStaged, ih, and_assoc]

theorem staged_running {all : FanOut Activity} {i : Nat} {a : Activity} (staged : (fanOut all).Staged)
    (slot : all.slots[i]? = some (.started a)) : a.Staged := by
  obtain ⟨before, after, old, -⟩ := split_at slot
  have both : SlotsStaged all.slots := staged.1
  rw [old, slotsStaged_append] at both
  exact both.2.1

theorem staged_waiting {all : FanOut Activity} {i : Nat} {a : Activity} (staged : (fanOut all).Staged)
    (slot : all.slots[i]? = some (.waiting a)) : ∃ holder x, a = .release holder x := by
  obtain ⟨before, after, old, -⟩ := split_at slot
  have both : SlotsStaged all.slots := staged.1
  rw [old, slotsStaged_append] at both
  exact both.2.1

theorem staged_queued {all : FanOut Activity} (staged : (fanOut all).Staged) : all.Queued := staged.2

theorem staged_spread (config : Config) (rs : List (Holder × NodeId)) : (spread config rs).Staged := by
  unfold spread FanOut.spawn?
  have jobs : SlotsStaged ((rs.map fun r => release r.1 r.2).map .waiting) := by
    induction rs with
    | nil => simp [SlotsStaged]
    | cons r rest ih => simpa [SlotsStaged] using ih
  dsimp only
  cases config.releaseLimit with
  | none => exact ⟨jobs, .waiting ..⟩
  | some limit =>
    dsimp only
    by_cases fits : limit ≤ FanOut.maxPermits
    · simp only [fits, if_true]
      exact ⟨jobs, .waiting ..⟩
    · simp only [fits, if_false, Staged]

theorem slots_interruptible {slots : List (Slot Activity)} (staged : SlotsStaged slots)
    (idle : slotsInterruptible slots = true)
    (ih : ∀ a, .waiting a ∈ slots ∨ .started a ∈ slots → a.Staged → a.isInterruptible = true →
      ∀ t ∈ a.tasks, t.isInterruptible = true) :
    ∀ t ∈ slotsTasks slots, t.isInterruptible = true := by
  intro t mem
  induction slots with
  | nil => cases mem
  | cons slot rest rest_ih =>
    have later : ∀ a, .waiting a ∈ rest ∨ .started a ∈ rest → a.Staged → a.isInterruptible = true →
        ∀ t ∈ a.tasks, t.isInterruptible = true :=
      fun a mem => ih a (mem.imp (List.mem_cons_of_mem _) (List.mem_cons_of_mem _))
    cases slot with
    | joined => exact rest_ih staged (by simpa [slotsInterruptible] using idle) later mem
    | waiting job =>
      obtain ⟨⟨h, x, rfl⟩, staged⟩ := staged
      rcases List.mem_append.mp mem with mem | mem
      · cases List.mem_singleton.mp mem
        rfl
      · exact rest_ih staged (by simpa [slotsInterruptible] using idle) later mem
    | started job =>
      obtain ⟨now, others⟩ := Bool.and_eq_true_iff.mp (by simpa only [slotsInterruptible] using idle)
      rcases List.mem_append.mp mem with mem | mem
      · exact ih job (.inr List.mem_cons_self) staged.1 now t mem
      · exact rest_ih staged.2 others later mem

/-- A call that may be dropped has no task between two halves of an operation. -/
theorem interruptible_tasks {a : Activity} (staged : a.Staged) (idle : a.isInterruptible = true) :
    ∀ t ∈ a.tasks, t.isInterruptible = true := by
  induction a using tree_induction with
  | task a notDelegate notFanOut =>
    intro t mem
    cases a with
    | ended => cases mem
    | delegate => exact absurd rfl (notDelegate _ _)
    | fanOut => exact absurd rfl (notFanOut _)
    | _ =>
      cases List.mem_singleton.mp mem
      exact idle
  | delegated f below ih => exact ih staged (by simpa [isInterruptible] using idle)
  | spread free slots queue errors ih =>
    exact slots_interruptible staged.1 (by simpa [isInterruptible] using idle) ih

end Activity
end MetricPipeline
