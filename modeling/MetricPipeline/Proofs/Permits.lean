import MetricPipeline.Proofs.Run

/-!
# Permits

A permit of a fan-out is free or held by a job that has started and not ended, and there are as many as the fan-out
was made with (`FanOut.permits`): none is lost however a job ends. So in every fan-out of every call a permit is free
or a job is running (`Machine.Run.funded`).
-/

namespace MetricPipeline

/-- The job has a permit: it has started, and has not ended. -/
def Slot.isRunning : Slot Activity → Bool
  | .started a => !a.isEnded
  | _ => false

namespace FanOut

variable {f f' : FanOut Activity} {i : Nat} {a : Activity}

/-- The permits that are free and those that running jobs hold, if their number is limited. -/
def permits (f : FanOut Activity) : Option Nat := f.free.map (· + f.slots.countP Slot.isRunning)

theorem start?_eq_some {α : Type} {f f' : FanOut α} {i : Nat} : f.start? i = some f' ↔
    ∃ job, f.slots[i]? = some (.waiting job) ∧ f.hasPermit = true ∧
      f' = { f with free := f.free.map (· - 1), slots := f.slots.set i (.started job) } := by
  unfold start?
  constructor
  · intro started
    split at started
    · rename_i job waiting
      obtain ⟨permit, made⟩ := Option.ite_none_right_eq_some.mp started
      cases made
      exact ⟨job, waiting, permit, rfl⟩
    · cases started
  · rintro ⟨job, waiting, permit, rfl⟩
    simp only [waiting, permit, if_true]

theorem countP_running_set {slots : List (Slot Activity)} {old : Slot Activity} (here : slots[i]? = some old)
    (new : Slot Activity) : (slots.set i new).countP Slot.isRunning + old.isRunning.toNat =
      slots.countP Slot.isRunning + new.isRunning.toNat := by
  obtain ⟨before, after, split, changed⟩ := Activity.split_at here
  have one : ∀ slot : Slot Activity, (if slot.isRunning then 1 else 0) = slot.isRunning.toNat := by
    intro slot
    cases slot.isRunning <;> rfl
  rw [changed, split]
  simp only [List.countP_append, List.countP_cons, one]
  omega

theorem permits_spawn {config : Config} {jobs : List Activity} (spawned : spawn? config jobs = some f) :
    f.permits = config.releaseLimit := by
  rw [spawn?_eq] at spawned
  split at spawned
  · cases spawned
    have none_running : (jobs.map Slot.waiting).countP Slot.isRunning = 0 := by
      apply List.countP_eq_zero.mpr
      intro slot mem
      obtain ⟨job, -, rfl⟩ := List.mem_map.mp mem
      simp [Slot.isRunning]
    simp [permits, none_running]
  · cases spawned

/-- A job that starts takes a permit that was free. -/
theorem permits_start (started : f.start? i = some f')
    (going : ∀ job, f.slots[i]? = some (.waiting job) → job.isEnded = false) : f'.permits = f.permits := by
  obtain ⟨job, waiting, permit, rfl⟩ := start?_eq_some.mp started
  have count := countP_running_set waiting (.started job)
  simp only [Slot.isRunning, going job waiting, Bool.not_false, Bool.toNat_false, Bool.toNat_true] at count
  cases free : f.free with
  | none => simp [permits, free]
  | some n =>
    have some_free : n ≠ 0 := by simpa [hasPermit, free] using permit
    simp only [permits, free, Option.map_some]
    congr 1
    omega

/-- A job gives its permit back when it ends, whatever it has come to. -/
theorem permits_advance (started : f.slots[i]? = some (.started a)) (going : a.isEnded = false) (b : Activity) :
    (f.advance i b b.isEnded).permits = f.permits := by
  have count := countP_running_set started (.started b)
  simp only [Slot.isRunning, going, Bool.not_false, Bool.toNat_true] at count
  cases last : b.isEnded with
  | false =>
    simp only [last, Bool.not_false, Bool.toNat_true] at count
    change f.free.map (· + (f.slots.set i (.started b)).countP Slot.isRunning) = f.permits
    rw [permits, Nat.add_right_cancel count]
  | true =>
    simp only [last, Bool.not_true, Bool.toNat_false] at count
    change (f.free.map (· + 1)).map (· + (f.slots.set i (.started b)).countP Slot.isRunning) = f.permits
    rw [permits, Option.map_map]
    congr 1
    funext n
    simp only [Function.comp_apply]
    omega

/-- A job that is joined has no permit. -/
theorem permits_join (ended : f.slots[i]? = some (.started a)) (closed : a.isEnded = true)
    (failure : Option Failure) : (f.join i failure).permits = f.permits := by
  have count := countP_running_set ended .joined
  simp only [Slot.isRunning, closed, Bool.not_true, Bool.toNat_false] at count
  change f.free.map (· + (f.slots.set i .joined).countP Slot.isRunning) = f.permits
  rw [permits, Nat.add_right_cancel count]

end FanOut

namespace Activity

mutual

/-- Each fan-out of the call has a permit free or a job running, if its jobs need permits. -/
def Funded : Activity → Prop
  | delegate _ below => Funded below
  | fanOut ⟨free, slots, queue, errors⟩ => (FanOut.mk free slots queue errors).permits ≠ some 0 ∧ SlotsFunded slots
  | _ => True

def SlotsFunded : List (Slot Activity) → Prop
  | [] => True
  | .waiting a :: rest => Funded a ∧ SlotsFunded rest
  | .started a :: rest => Funded a ∧ SlotsFunded rest
  | .joined :: rest => SlotsFunded rest

end

theorem slotsFunded_append {xs ys : List (Slot Activity)} :
    SlotsFunded (xs ++ ys) ↔ SlotsFunded xs ∧ SlotsFunded ys := by
  induction xs with
  | nil => simp [SlotsFunded]
  | cons slot rest ih => cases slot <;> simp [SlotsFunded, ih, and_assoc]

theorem funded_running {slots : List (Slot Activity)} {a : Activity} (funded : SlotsFunded slots)
    (mem : .started a ∈ slots) : a.Funded := by
  obtain ⟨before, after, rfl⟩ := List.append_of_mem mem
  exact (slotsFunded_append.mp funded).2.1

theorem funded_spread (config : Config) (rs : List Reference) : (spread config rs).Funded := by
  have jobs : SlotsFunded ((rs.map fun r => release r.1 r.2).map .waiting) := by
    induction rs with
    | nil => trivial
    | cons r rest ih => exact ⟨trivial, ih⟩
  unfold spread
  cases spawned : FanOut.spawn? config (rs.map fun r => release r.1 r.2) with
  | none => trivial
  | some all =>
    refine ⟨?_, ?_⟩
    · rw [FanOut.permits_spawn spawned, Config.releaseLimit]
      split <;> simp [*]
    · rw [FanOut.spawn?_eq] at spawned
      split at spawned
      · cases spawned
        exact jobs
      · cases spawned

theorem funded_undertaking (env : Work → Behaviour) (c : Component) (x : NodeId) : (c.undertaking env x).Funded := by
  cases c with
  | leaf | uncounted | sink | hooked => trivial
  | router routes config => exact funded_spread ..

theorem Act.funded {env : Work → Behaviour} {w w' : World} {t t' : Activity} (h : Act env w t w' t') :
    t'.Funded := by
  cases h with
  | releaseUncounted | fire => exact funded_undertaking ..
  | _ => trivial

theorem Step.permits {env : Surroundings} {w w' : World} {all : FanOut Activity} {a' : Activity} {path : Path}
    (h : Step w env (fanOut all) path w' a') (staged : (fanOut all).Staged) :
    (∃ all', a' = fanOut all' ∧ all'.permits = all.permits) ∨ ∃ o, a' = ended o := by
  cases h with
  | act acts => cases acts
  | close => exact .inr ⟨_, rfl⟩
  | start started =>
    refine .inl ⟨_, rfl, FanOut.permits_start started fun job waiting => ?_⟩
    obtain ⟨holder, x, rfl⟩ := staged_waiting staged waiting
    rfl
  | join _ ended => exact .inl ⟨_, rfl, FanOut.permits_join ended rfl _⟩
  | child started step => exact .inl ⟨_, rfl, FanOut.permits_advance started (isEnded_eq_false.mpr step.going) _⟩

theorem Step.funded {env : Surroundings} {w w' : World} {a a' : Activity} {path : Path}
    (h : Step w env a path w' a') (sound : ∀ t ∈ a.tasks, t.Sound w) (staged : a.Staged) (funded : a.Funded) :
    a'.Funded := by
  have whole := h
  induction h with
  | @act env a w' a' acts => exact (act_act (sound a (by simp [act_tasks acts])).known acts).funded
  | merge | close => trivial
  | delegated step ih => exact ih sound staged funded step
  | @start env all all' i started =>
    obtain ⟨permits, slots⟩ : all.permits ≠ some 0 ∧ SlotsFunded all.slots := funded
    obtain ⟨_, ⟨⟩, same⟩ | ⟨_, ⟨⟩⟩ := whole.permits staged
    obtain ⟨job, waiting, slots', -⟩ := start?_slot started
    obtain ⟨before, after, old, new⟩ := split_at waiting
    refine ⟨same ▸ permits, ?_⟩
    rw [old, slotsFunded_append] at slots
    rw [slots', new, slotsFunded_append]
    exact slots
  | @join env all i o _ ended =>
    obtain ⟨permits, slots⟩ : all.permits ≠ some 0 ∧ SlotsFunded all.slots := funded
    obtain ⟨_, ⟨⟩, same⟩ | ⟨_, ⟨⟩⟩ := whole.permits staged
    obtain ⟨before, after, old, new⟩ := split_at ended
    refine ⟨same ▸ permits, ?_⟩
    rw [old, slotsFunded_append] at slots
    rw [new, slotsFunded_append]
    exact ⟨slots.1, slots.2.2⟩
  | @child env all i a path w' a' running step ih =>
    obtain ⟨permits, slots⟩ : all.permits ≠ some 0 ∧ SlotsFunded all.slots := funded
    obtain ⟨_, ⟨⟩, same⟩ | ⟨_, ⟨⟩⟩ := whole.permits staged
    obtain ⟨before, after, old, new⟩ := split_at running
    refine ⟨same ▸ permits, ?_⟩
    rw [old, slotsFunded_append] at slots
    rw [new, slotsFunded_append]
    have sound : ∀ t ∈ a.tasks, t.Sound w := fun t mem => sound t (tasks_child running t mem)
    exact ⟨slots.1, ih sound (staged_running staged running) slots.2.1 step, slots.2.2⟩

end Activity

theorem Request.activity_funded (r : Request) : r.activity.Funded := by
  cases r with
  | releaseAll => exact Activity.funded_spread ..
  | acquire | release | report => trivial

namespace Machine

theorem Run.funded {env : Environment} {moves : List Move} {m : Machine} (run : Run env {} moves m) {id : CallId}
    {a : Activity} (found : m.activity? id = some a) : a.Funded := by
  have begins : ∀ r : Request, r.activity.Staged ∧ r.activity.Funded :=
    fun r => ⟨r.activity_staged, r.activity_funded⟩
  refine (run.each_call (P := fun a => a.Staged ∧ a.Funded) valid_empty (fun _ _ found => by cases found) begins
    (fun step sound both => ?_) id a found).2
  exact ⟨step.staged (fun t mem => (sound t mem).known) both.1, step.funded sound both.1 both.2⟩

end Machine
end MetricPipeline
