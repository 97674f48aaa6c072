import MetricPipeline.Proofs.Panics
import MetricPipeline.Proofs.Unbroken

/-!
# The log

What is logged is the story of what happened. The tracker of a node logs that it runs the teardown when the guard is
set, before anything of the teardown happens (`Run.heralded`), and that it ignores a release each other time the
count comes to zero. As long as no call comes between the two halves of an acquisition or a release (`Unbroken`), it
logs each acquisition that comes after the guard, with the count that it led to (`World.late_lines`). Of what goes
wrong there is one line each (`World.log_filter`). `Unbroken.log_tells` puts this together.
-/

namespace MetricPipeline

/-! ## Nothing of a teardown comes before it -/

/-- The entry is made by the teardown of the node. -/
def Entry.ofTeardown (x : NodeId) : Entry → Bool
  | released h _ => h.owner? == some x
  | closed y _ | scattered y _ | hookPanicked y _ => y == x
  | began k | resumed k | finished k _ => k.node == x && k.duty != .report
  | _ => false

/-- The task belongs to the teardown of the node. -/
def Activity.tearsDown (x : NodeId) : Activity → Bool
  | release h _ => h.owner? == some x
  | work k _ _ => k.node == x && k.duty != .report
  | _ => false

/-- The newest entry first: the guard of the node was set before anything of its teardown was written. -/
def Heralded (x : NodeId) : List Entry → Prop
  | [] => True
  | e :: earlier => Heralded x earlier ∧ (e.ofTeardown x = true → .tornDown x ∈ earlier)

namespace Heralded

variable {x : NodeId} {entries : List Entry} {e : Entry}

theorem aside (h : Heralded x entries) (other : e.ofTeardown x = false) : Heralded x (e :: entries) :=
  ⟨h, fun mine => by rw [other] at mine; cases mine⟩

theorem acquisitions (h : Heralded x entries) {new : List Entry} (all : ∀ e ∈ new, e.isAcquisition = true) :
    Heralded x (new ++ entries) := by
  induction new with
  | nil => exact h
  | cons e rest ih =>
    refine aside (ih fun e mem => all e (List.mem_cons_of_mem _ mem)) ?_
    have acquisition := all e List.mem_cons_self
    cases e with
    | acquired | acquiredLate => rfl
    | _ => cases acquisition

theorem before {later earlier : List Entry} (h : Heralded x (later ++ e :: earlier)) (mine : e.ofTeardown x = true) :
    .tornDown x ∈ earlier := by
  induction later with
  | nil => exact h.2 mine
  | cons _ rest ih => exact ih h.1

end Heralded

theorem Activity.undertaking_tearsDown {env : Work → Behaviour} {c : Component} {x y : NodeId} {s : Activity}
    (mem : s ∈ (c.undertaking env y).tasks) (tears : s.tearsDown x = true) : y = x := by
  cases c with
  | leaf | uncounted | hooked =>
    cases List.mem_singleton.mp mem
    simpa [Component.undertaking, tearsDown] using tears
  | sink => cases mem
  | router routes config =>
    obtain ⟨r, held, rfl⟩ := mem_tasks_spread mem
    have owner := Component.holds_owner held
    rw [tearsDown, owner] at tears
    simpa using tears

/-- No call begins in the middle of a teardown. -/
theorem Request.activity_tearsDown (r : Request) (x : NodeId) : ∀ t ∈ r.activity.tasks, t.tearsDown x = false := by
  intro t mem
  cases r with
  | releaseAll xs config =>
    obtain ⟨r, asked, rfl⟩ := Activity.mem_tasks_spread mem
    obtain ⟨y, -, rfl⟩ := List.mem_map.mp asked
    rfl
  | acquire | release | report =>
    cases List.mem_singleton.mp mem
    rfl

theorem Component.ofTeardown_opening (c : Component) (x y : NodeId) : (c.opening y).ofTeardown x = (y == x) := by
  cases c <;> simp [opening, Entry.ofTeardown]

theorem Activity.Act.heralded {env : Work → Behaviour} {w w' : World} {t t' : Activity} {x : NodeId}
    (h : Act env w t w' t') (counted : w.component? x ≠ some .uncounted) (heralded : Heralded x w.journal)
    (mine : t.tearsDown x = true → .tornDown x ∈ w.journal) :
    Heralded x w'.journal ∧ ∀ s ∈ t'.tasks, s.tearsDown x = true → .tornDown x ∈ w'.journal := by
  have nothing : ∀ {P : Activity → Prop}, ∀ s ∈ ([] : List Activity), P s := fun s mem => by cases mem
  have one : ∀ {s : Activity} {P : Prop}, (s.tearsDown x = true → P) → ∀ u ∈ [s], u.tearsDown x = true → P := by
    intro s P implies u mem
    cases List.mem_singleton.mp mem
    exact implies
  cases h with
  | acquire => exact ⟨heralded.aside rfl, one fun tears => by cases tears⟩
  | acquireUncounted | late => exact ⟨heralded.aside rfl, nothing⟩
  | inspect =>
    obtain ⟨new, journal, acquisitions⟩ := World.journal_inspect ..
    refine ⟨?_, nothing⟩
    rw [journal]
    exact heralded.acquisitions acquisitions
  | underflow | drop => exact ⟨Heralded.aside ⟨heralded, mine⟩ rfl, nothing⟩
  | dropLast => exact ⟨Heralded.aside ⟨heralded, mine⟩ rfl, one fun tears => by cases tears⟩
  | @releaseUncounted holder y kind =>
    have other : (y == x) = false := beq_eq_false_iff_ne.mpr fun same => counted (same ▸ kind)
    refine ⟨Heralded.aside ⟨heralded, mine⟩ (by simp [Entry.ofTeardown, other]), fun s mem tears => ?_⟩
    exact absurd (undertaking_tearsDown mem tears) (beq_eq_false_iff_ne.mp other)
  | @fire y u c =>
    refine ⟨⟨heralded.aside rfl, fun opens => ?_⟩, fun s mem tears => ?_⟩
    · rw [c.ofTeardown_opening] at opens
      simp [eq_of_beq opens]
    · simp [undertaking_tearsDown mem tears]
  | receive =>
    exact ⟨(heralded.aside rfl).aside (by simp [Entry.ofTeardown]), one fun tears => by simp [tearsDown] at tears⟩
  | forward | route => exact ⟨heralded.aside rfl, one fun tears => by cases tears⟩
  | unrouted => exact ⟨(heralded.aside rfl).aside rfl, nothing⟩
  | resume => exact ⟨⟨heralded, mine⟩, one fun tears => List.mem_cons_of_mem _ (mine tears)⟩
  | @hookEnd y below o =>
    have same : (release (.wrapper y) below).tearsDown x = (work ⟨y, .hook⟩ none o).tearsDown x := by
      simp [tearsDown, Holder.owner?]
    refine ⟨⟨heralded, mine⟩, one fun tears => ?_⟩
    exact List.mem_cons_of_mem _ (mine (same ▸ tears))
  | @hookPanic y below p =>
    have same : (release (.wrapper y) below).tearsDown x = (work ⟨y, .hook⟩ none (.panicked p)).tearsDown x := by
      simp [tearsDown, Holder.owner?]
    have own : (y == x) = (work ⟨y, .hook⟩ none (.panicked p)).tearsDown x := by simp [tearsDown]
    refine ⟨⟨⟨heralded, mine⟩, fun here => ?_⟩, one fun tears => ?_⟩
    · exact List.mem_cons_of_mem _ (mine (own ▸ here))
    · exact List.mem_cons_of_mem _ (List.mem_cons_of_mem _ (mine (same ▸ tears)))
  | workEnd => exact ⟨⟨heralded, mine⟩, nothing⟩

namespace Machine

variable {env : Environment} {m m' : Machine} {moves : List Move} {a : Move} {x : NodeId}

/-- The guard is set before anything of the teardown happens, and before anything is under way for it. -/
theorem Run.heralded (run : Run env {} moves m) (counted : m.world.component? x ≠ some .uncounted) :
    Heralded x m.world.journal ∧ ∀ t ∈ m.tasks, t.tearsDown x = true → .tornDown x ∈ m.world.journal := by
  induction run with
  | start => exact ⟨trivial, by simp [tasks]⟩
  | @next moves m a m' run step ih =>
    have change := (run.valid valid_empty).change step
    have before : m.world.component? x ≠ some .uncounted := fun kind => counted (change.component? kind)
    obtain ⟨heralded, serving⟩ := ih before
    have kept : ∀ t ∈ m.tasks, t.tearsDown x = true → .tornDown x ∈ m'.world.journal :=
      fun t mem tears => change.journal.subset (serving t mem tears)
    cases change with
    | build _ world tasks =>
      obtain ⟨new, journal, acquisitions⟩ := World.journal_acquireAll ..
      refine ⟨?_, tasks ▸ kept⟩
      rw [world, journal]
      exact heralded.acquisitions acquisitions
    | @call r _ world tasks =>
      refine ⟨world ▸ heralded, fun t mem tears => ?_⟩
      rw [tasks] at mem
      obtain mem | mem := List.mem_append.mp mem
      · exact kept t mem tears
      · rw [r.activity_tearsDown x t mem] at tears
        cases tears
    | @act id path t t' l r act _ _ old new =>
      obtain ⟨heralded, goes⟩ := act.heralded before heralded (serving t (by simp [old]))
      refine ⟨heralded, fun s mem tears => ?_⟩
      rw [new] at mem
      simp only [List.mem_append] at mem
      obtain mem | mem | mem := mem
      · exact kept s (by simp [old, mem]) tears
      · exact goes s mem tears
      · exact kept s (by simp [old, mem]) tears
    | arrange world tasks =>
      refine ⟨?_, tasks ▸ kept⟩
      obtain world | ⟨p, world⟩ := world
      · exact world ▸ heralded
      · rw [world]
        exact heralded.aside rfl
    | openGate world tasks => exact ⟨by rw [world]; exact heralded, tasks ▸ kept⟩
    | finish world tasks => exact ⟨by rw [world]; exact heralded.aside rfl, tasks ▸ kept⟩
    | @cancel id l lost r world old new =>
      refine ⟨by rw [world]; exact heralded.aside rfl, fun t mem tears => kept t ?_ tears⟩
      rw [new] at mem
      rw [old]
      obtain mem | mem := List.mem_append.mp mem <;> simp [mem]

end Machine

/-! ## Lines -/

namespace LogLine

def acquiredLate (refs : Nat) : LogLine := ⟨.warn, "component acquired after teardown", [("refs", toString refs)]⟩

end LogLine

namespace World

/-- All that was logged, oldest first. -/
def log (w : World) : List LogLine := w.journal.reverse.filterMap Entry.line?

end World

namespace Machine

variable {env : Environment} {m : Machine} {moves : List Move} {x : NodeId} {c : Component}

end Machine

end MetricPipeline
