import MetricPipeline.Proofs.Place
import MetricPipeline.Proofs.Transcript

/-!
# Nothing outlives its call

A task has ended only when everything has that was started under it: a wrapper is left with the outcome of the node
below it, and a fan-out joins its jobs when all of them have ended, whether they failed, panicked or had to wait
(`Run.ends_under`, `Run.job_ends`). User code that a call has begun it has also seen finish when it returns
(`Run.work_ends`), and of a call that is dropped nothing is left that could finish (`Run.work_dropped`).
-/

namespace MetricPipeline

def Entry.finishes (k : Work) : Entry → Bool
  | finished j _ => j == k
  | _ => false

theorem World.works_of_acquisitions {w w' : World} {new : List Entry} (journal : w'.journal = new ++ w.journal)
    (acquisitions : ∀ e ∈ new, e.isAcquisition = true) (k : Work) :
    w'.count (.began k) = w.count (.began k) ∧ w'.times (Entry.finishes k) = w.times (Entry.finishes k) := by
  constructor
  · refine World.times_of_acquisitions (p := (· == .began k)) journal acquisitions fun e acquisition => ?_
    cases e with
    | began => cases acquisition
    | _ => rfl
  · refine World.times_of_acquisitions journal acquisitions fun e acquisition => ?_
    cases e with
    | finished => cases acquisition
    | _ => rfl

namespace Activity

def isFor (k : Work) : Activity → Bool
  | work j _ _ => j == k
  | _ => false

/-- A task at a place under an ended one. -/
theorem At.of_ended {o : Outcome} {q : Place} {b : Activity} (h : At (ended o) q b) : q = [] ∧ b = ended o := by
  cases h
  exact ⟨rfl, rfl⟩

/-- The way to a place leads through all places above it. -/
theorem At.split {a b : Activity} {p q : Place} (h : At a (p ++ q) b) : ∃ c, At a p c ∧ At c q b := by
  induction p generalizing a with
  | nil => exact ⟨a, .here, h⟩
  | cons turn p ih =>
    cases h with
    | delegated there =>
      obtain ⟨c, above, below⟩ := ih there
      exact ⟨c, .delegated above, below⟩
    | job running there =>
      obtain ⟨c, above, below⟩ := ih there
      exact ⟨c, .job running above, below⟩

section

variable {env : Work → Behaviour} {w w' : World} {a a' t t' : Activity} {path : Path}

theorem undertaking_isFor (env : Work → Behaviour) (c : Component) (x : NodeId) (k : Work) :
    (c.undertaking env x).tasks.countP (isFor k) = if c.opening x == .began k then 1 else 0 := by
  cases c with
  | leaf | uncounted | hooked => simp [Component.undertaking, Component.opening, tasks, isFor, List.countP_cons]
  | sink => simp [Component.undertaking, Component.opening, tasks]
  | router routes config =>
    have none_works : (spread config ((Component.router routes config).holds x)).tasks.countP (isFor k) = 0 := by
      apply List.countP_eq_zero.mpr
      intro t mem
      obtain ⟨r, -, rfl⟩ := mem_tasks_spread mem
      simp [isFor]
    simpa [Component.undertaking, Component.opening] using none_works

/-- Code that begins is under way, and is so until it finishes. -/
theorem Act.matched (h : Act env w t w' t') (k : Work) :
    w'.count (.began k) + w.times (Entry.finishes k) + [t].countP (isFor k) =
      w.count (.began k) + w'.times (Entry.finishes k) + t'.tasks.countP (isFor k) := by
  cases h with
  | @fire x u c =>
    have quiet : (c.opening x).finishes k = false ∧ (Entry.tornDown x).finishes k = false := by
      cases c <;> exact ⟨rfl, rfl⟩
    rw [undertaking_isFor]
    simp [isFor, quiet]
    omega
  | releaseUncounted =>
    rw [undertaking_isFor]
    simp [isFor, Component.opening, Entry.finishes]
    omega
  | receive =>
    simp [isFor, Entry.finishes, tasks, List.countP_cons]
    omega
  | inspect =>
    obtain ⟨new, journal, acquisitions⟩ := World.journal_inspect ..
    obtain ⟨began, finished⟩ := World.works_of_acquisitions journal acquisitions k
    rw [began, finished]
    rfl
  | hookEnd | hookPanic | workEnd =>
    simp [isFor, Entry.finishes, tasks, List.countP_cons]
    omega
  | _ => simp [isFor, Entry.finishes, tasks, List.countP_cons]

theorem Act.finished {k : Work} {o : Outcome} (h : Act env w (work k none o) w' t') :
    w.count (.finished k o) < w'.count (.finished k o) := by
  cases h <;> simp

/-- Code goes on as it is until it finishes. -/
theorem Step.working {env : Surroundings} {k : Work} {wait : Option Gate} {o : Outcome}
    (h : Step w env (work k wait o) path w' a') :
    (∃ wait', a' = work k wait' o) ∨ w.count (.finished k o) < w'.count (.finished k o) := by
  cases h with
  | act acts =>
    cases wait with
    | none =>
      obtain ⟨rfl, rfl⟩ := Prod.mk.inj (Option.some.inj acts)
      exact .inr (@conclude_act (env.behaviour []) w k o).finished
    | some gate =>
      obtain ⟨-, resumes⟩ := Option.ite_none_right_eq_some.mp acts
      cases resumes
      exact .inl ⟨none, rfl⟩

/-- Each step of a call keeps its account of user code. -/
theorem Step.matched {env : Surroundings} (h : Step w env a path w' a') (sound : ∀ t ∈ a.tasks, t.Sound w)
    (k : Work) :
    w'.count (.began k) + w.times (Entry.finishes k) + a.tasks.countP (isFor k) =
      w.count (.began k) + w'.times (Entry.finishes k) + a'.tasks.countP (isFor k) := by
  obtain ⟨rfl | ⟨p, rfl⟩, same⟩ | ⟨t, t', before, after, acts, -, -, old, new⟩ := step_cases h
  · rw [same]
  · rw [same]
    simp [Entry.finishes]
  · have matched := (act_act (sound t (by simp [old])).known acts).matched k
    rw [old, new]
    simp only [List.countP_append, List.countP_cons, List.countP_nil] at matched ⊢
    omega

end

end Activity

theorem Request.activity_isFor (r : Request) (k : Work) : r.activity.tasks.countP (Activity.isFor k) = 0 := by
  apply List.countP_eq_zero.mpr
  intro t mem
  cases r with
  | releaseAll xs config =>
    obtain ⟨r, -, rfl⟩ := Activity.mem_tasks_spread mem
    simp [Activity.isFor]
  | acquire | release | report =>
    cases List.mem_singleton.mp mem
    exact Bool.false_ne_true

namespace Machine

variable {env : Environment} {moves more : List Move} {m m' m'' : Machine} {id : CallId} {a b : Activity} {p q : Place}
  {o : Outcome}

/-! ## User code -/

/-- Only by dropping a call can code be left that began and will not finish. -/
theorem Change.matched {move : Move} (change : Change env m m' move) (k : Work) :
    m.world.count (.began k) + m'.world.times (Entry.finishes k) + m'.tasks.countP (Activity.isFor k) ≤
      m'.world.count (.began k) + m.world.times (Entry.finishes k) + m.tasks.countP (Activity.isFor k) := by
  cases change with
  | @build c _ world tasks =>
    obtain ⟨new, journal, acquisitions⟩ := (m.world.add c).journal_acquireAll (c.holds m.world.nodes.length)
    rw [← world] at journal
    obtain ⟨began, finished⟩ := World.works_of_acquisitions journal acquisitions k
    rw [began, finished, tasks]
    exact Nat.le_refl _
  | @call r _ world tasks =>
    rw [world, tasks, List.countP_append, r.activity_isFor]
    exact Nat.le_refl _
  | act act _ _ old new =>
    have matched := act.matched k
    rw [old, new]
    simp only [List.countP_append, List.countP_cons, List.countP_nil] at matched ⊢
    omega
  | arrange world tasks =>
    obtain world | ⟨q, world⟩ := world
    · simp only [world, tasks, Nat.le_refl]
    · rw [world, tasks]
      simp [Entry.finishes]
  | openGate world tasks =>
    rw [world, tasks]
    exact Nat.le_refl _
  | finish world tasks =>
    rw [world, tasks]
    simp [Entry.finishes]
  | cancel world old new =>
    rw [world, old, new]
    simp [Entry.finishes]

theorem Run.matched (run : Run env m moves m') (valid : m.Valid) (k : Work) :
    m.world.count (.began k) + m'.world.times (Entry.finishes k) + m'.tasks.countP (Activity.isFor k) ≤
      m'.world.count (.began k) + m.world.times (Entry.finishes k) + m.tasks.countP (Activity.isFor k) := by
  induction run with
  | start => exact Nat.le_refl _
  | next run step ih =>
    have matched := ((run.valid valid).change step).matched k
    omega

/-- Of a teardown or hook that was under way in a call, nothing is left when the call has been dropped. -/
theorem Run.work_dropped (run : Run env {} moves m) (found : m.activity? id = some a)
    (step : m.step? env (.cancel id) = some m') (further : Run env m' more m'') {x : NodeId} {c : Component}
    {k : Work} (kind : m.world.component? x = some c) (counted : c.isCounted = true) (opening : c.opening x = .began k)
    (working : 0 < a.tasks.countP (Activity.isFor k)) : m''.world.times (Entry.finishes k) = 0 := by
  have valid := run.valid valid_empty
  obtain ⟨before, after, split, without⟩ := valid.without found
  have fewer : m'.tasks.countP (Activity.isFor k) + a.tasks.countP (Activity.isFor k) =
      m.tasks.countP (Activity.isFor k) := by
    simp only [tasks, cancelled_eq step, split, without, List.flatMap_append, List.flatMap_cons, List.countP_append]
    omega
  have same : m'.world.count (.began k) = m.world.count (.began k) ∧
      m'.world.times (Entry.finishes k) = m.world.times (Entry.finishes k) := by
    rw [cancelled_eq step]
    simp [Entry.finishes]
  have first := run.matched valid_empty k
  have rest := further.matched (valid.step step) k
  have all := run.append ((Run.start.next step).append further)
  have kind' := ((Run.start.next step).append further).component? valid kind
  have once := (all.count_opening_le kind' counted).2
  rw [opening] at once
  have nothing : ({} : Machine).world.count (.began k) = 0 ∧ ({} : Machine).world.times (Entry.finishes k) = 0 ∧
      ({} : Machine).tasks.countP (Activity.isFor k) = 0 := ⟨rfl, rfl, rfl⟩
  omega

/-- What a call has begun and not seen finish is under way in it. -/
theorem Run.work_ends (run : Run env m moves m') (valid : m.Valid) {r : Request}
    (found : m.activity? id = some r.activity) (uncancelled : .cancel id ∉ moves)
    (closed : ∀ a, m'.activity? id = some a → ∃ o, a = .ended o) (k : Work) :
    (written env id m moves).count (.began k) = (written env id m moves).countP (Entry.finishes k) := by
  have start : [].count (Entry.began k) = [].countP (Entry.finishes k) + r.activity.tasks.countP (Activity.isFor k) := by
    rw [r.activity_isFor]
    rfl
  obtain ⟨ongoing, returned⟩ := run.recorded valid found (P := fun entries a =>
    entries.count (.began k) = entries.countP (Entry.finishes k) + a.tasks.countP (Activity.isFor k)) start (by
      intro m₁ m₂ a a' path new entries _ _ moved sound journal before
      have matched := moved.matched sound k
      simp only [World.count, World.times, journal, List.count_append, List.countP_append] at matched ⊢
      omega)
  cases found' : m'.activity? id with
  | none =>
    obtain ⟨o, matched⟩ := returned found' uncancelled
    exact matched
  | some a =>
    obtain ⟨o, rfl⟩ := closed a found'
    exact ongoing _ found'

/-! ## Tasks -/

theorem Run.gone (run : Run env m moves m') (valid : m.Valid) (cancelled : .cancel id ∈ moves) :
    m'.activity? id = none ∧ id < m'.next := by
  induction run with
  | start => cases cancelled
  | @next moves m₁ move m₂ run step ih =>
    have valid := run.valid valid
    obtain earlier | now := List.mem_append.mp cancelled
    · obtain ⟨gone, made⟩ := ih earlier
      exact (Run.start.next step).absent valid made gone
    · cases List.mem_singleton.mp now
      cases valid.callChange step id with
      | stays apart => exact absurd rfl apart
      | dropped old _ new => exact ⟨new, Nat.lt_of_lt_of_le (valid.made old) (Machine.next_le step)⟩

/-- What was started under a task has ended when the task has. -/
theorem Run.ends_under (run : Run env m moves m') (valid : m.Valid) (here : m.At id (p ++ q) b)
    (ended : m'.At id p (.ended o)) : ∃ o', Passes env m moves m' (·.At id (p ++ q) (.ended o')) := by
  obtain ⟨b', a, found, there⟩ | dropped | passes := run.at_fate valid here
  · obtain ⟨c, above, below⟩ := there.split
    cases At.unique ⟨a, found, above⟩ ended
    obtain ⟨-, rfl⟩ := below.of_ended
    exact ⟨o, run.passes ⟨a, found, there⟩⟩
  · obtain ⟨a, found, -⟩ := ended
    rw [(run.gone valid dropped).1] at found
    cases found
  · exact passes

/-- Code under way at a place finishes there, and as its behaviour says. -/
theorem Run.finishes (run : Run env m moves m') (valid : m.Valid) {k : Work} {wait : Option Gate} {o' : Outcome}
    (here : m.At id p (.work k wait o)) (ended : m'.At id p (.ended o')) :
    m.world.count (.finished k o) < m'.world.count (.finished k o) := by
  have grows : ∀ {m₁ m₂ : Machine} {move}, m₁.Valid → m₁.step? env move = some m₂ →
      m₁.world.count (.finished k o) ≤ m₂.world.count (.finished k o) :=
    fun valid step => (valid.change step).journal.sublist.count_le _
  have followed := run.follow valid here
    (P := fun _ m₁ b => m.world.count (.finished k o) ≤ m₁.world.count (.finished k o) ∧
      ((∃ wait, b = .work k wait o) ∨ m.world.count (.finished k o) < m₁.world.count (.finished k o)))
    ⟨Nat.le_refl _, .inl ⟨wait, rfl⟩⟩
    (fun first step _ ⟨le, now⟩ _ =>
      have le' := grows (first.valid valid) step
      ⟨Nat.le_trans le le', now.imp_right fun less => Nat.lt_of_lt_of_le less le'⟩)
    (by
      rintro moves m₁ rest m₂ b b' first step - own ⟨le, now⟩
      have le' := grows (first.valid valid) step
      refine ⟨Nat.le_trans le le', ?_⟩
      obtain ⟨wait, rfl⟩ | less := now
      · exact own.working.imp_right fun less => Nat.lt_of_le_of_lt le less
      · exact .inr (Nat.lt_of_lt_of_le less le'))
    ended
  obtain ⟨-, ⟨wait, still⟩ | less⟩ := followed
  · cases still
  · exact less

/-- Every job of a fan-out that was still to be joined has ended when the fan-out has, a job that waited for a permit
too. -/
theorem Run.job_ends (run : Run env m moves m') (valid : m.Valid) {all : FanOut Activity} {i : Nat}
    {slot : Slot Activity} (here : m.At id p (.fanOut all)) (job : all.slots[i]? = some slot)
    (unjoined : slot.isJoined = false) (ended : m'.At id p (.ended o)) :
    ∃ o', Passes env m moves m' (·.At id (p ++ [.slot i]) (.ended o')) := by
  have followed := run.follow valid here
    (P := fun moves m₁ b =>
      (∃ all slot, b = .fanOut all ∧ all.slots[i]? = some slot ∧ slot.isJoined = false) ∨
        ∃ o', Passes env m moves m₁ (·.At id (p ++ [.slot i]) (.ended o')))
    (.inl ⟨all, slot, rfl, job, unjoined⟩)
    (fun first step _ now _ => now.imp_right fun ⟨o', passes⟩ => ⟨o', passes.next step⟩)
    (by
      rintro moves m₁ rest m₂ b b' first step here own (⟨all, slot, rfl, job, unjoined⟩ | ⟨o', passes⟩)
      · obtain ⟨rfl, -⟩ | ⟨all', slot', rfl, now, change⟩ := own.slot job
        · cases unjoined
        cases change with
        | stays => exact .inl ⟨all', slot, rfl, now, unjoined⟩
        | starts | steps => exact .inl ⟨all', _, rfl, now, rfl⟩
        | joins =>
          have closed := here.append (.job job .here)
          exact .inr ⟨_, (first.passes closed).next step⟩
      · exact .inr ⟨o', passes.next step⟩)
    ended
  obtain ⟨all, slot, still, -⟩ | passes := followed
  · cases still
  · exact passes

/-- When a task has ended, so has all that was under way below it: each task there came to its own end, code among
them finished as its behaviour says, and no job of a fan-out was left out. So a call that returns, or unwinds, has
seen the end of all code it began. Of a call that is dropped no task ever steps again, and a teardown or hook that it
had begun never finishes. -/
theorem Run.nothing_outlives (run : Run env {} moves m) :
    (∀ id p q b o more m', m.At id (p ++ q) b → Run env m more m' → m'.At id p (.ended o) →
      (∃ o', Passes env m more m' (·.At id (p ++ q) (.ended o'))) ∧
      (∀ k wait out, b = .work k wait out → m.world.count (.finished k out) < m'.world.count (.finished k out)) ∧
      ∀ all i slot, b = .fanOut all → all.slots[i]? = some slot → slot.isJoined = false →
        ∃ o', Passes env m more m' (·.At id (p ++ q ++ [.slot i]) (.ended o'))) ∧
    (∀ r m₁ more m', m.step? env (.call r) = some m₁ → Run env m₁ more m' → .cancel m.next ∉ more →
      (∀ a, m'.activity? m.next = some a → ∃ o, a = .ended o) → ∀ k,
      (written env m.next m₁ more).count (.began k) = (written env m.next m₁ more).countP (Entry.finishes k)) ∧
    ∀ id a m₁ more m', m.activity? id = some a → m.step? env (.cancel id) = some m₁ → Run env m₁ more m' →
      m'.activity? id = none ∧ (∀ path, .run id path ∉ more) ∧ written env id m₁ more = [] ∧
      ∀ x c k, m.world.component? x = some c → c.isCounted = true → c.opening x = .began k →
        (∃ t ∈ a.tasks, t.isFor k = true) → m'.world.times (Entry.finishes k) = 0 := by
  have valid := run.valid valid_empty
  refine ⟨?_, ?_, ?_⟩
  · intro id p q b o more m' here further ended
    have passes := further.ends_under valid here ended
    refine ⟨passes, ?_, ?_⟩
    · rintro k wait out rfl
      obtain ⟨o', earlier, later, between, rfl, first, rest, closed⟩ := passes
      have grows := (rest.journal (first.valid valid)).sublist.count_le (.finished k out)
      exact Nat.lt_of_lt_of_le (first.finishes valid here closed) grows
    · rintro all i slot rfl job unjoined
      obtain ⟨o', earlier, later, between, rfl, first, rest, closed⟩ := passes
      obtain ⟨o'', passes⟩ := first.job_ends valid here job unjoined closed
      exact ⟨o'', passes.append rest⟩
  · intro r m₁ more m' step further uncancelled closed k
    exact further.work_ends (valid.step step) (valid.called step).1 uncancelled closed k
  · intro id a m₁ more m' found step further
    have gone := (valid.cancelled step).1
    have made := Nat.lt_of_lt_of_le (valid.made found) (Machine.next_le step)
    obtain ⟨idle, nothing⟩ := further.written_absent (valid.step step) made gone
    refine ⟨(further.absent (valid.step step) made gone).1, idle, nothing, ?_⟩
    intro x c k kind counted opening working
    exact run.work_dropped found step further kind counted opening (List.countP_pos_iff.mpr working)

/-- Hooks wait, and teardowns panic. -/
def restless : Environment := .uniform fun k =>
  if k.duty = .hook then { gate := some "go" } else { panic := some (.fixed "gone") }

/-- A router over a wrapper and a leaf, of which one at a time is released; the hook of the wrapper waits. -/
def waiting : List Move :=
  [.build .leaf, .build (.hooked 0), .build .leaf, .build (.router (.ofList [("a", 1), ("b", 2)]) ⟨1⟩),
    .call (.acquire 3), .run 0 [], .run 0 [], .call (.release 3), .run 1 [], .run 1 [], .run 1 [0], .run 1 [0],
    .run 1 [0]]

/-- The gate opens, both teardowns panic, and the fan-out joins them. -/
def throughout : List Move :=
  .openGate "go" :: (.replicate 7 (.run 1 [0]) ++ .replicate 5 (.run 1 [1]) ++ [.run 1 []])

theorem nothing_outlives_waiting :
    ∃ m m' m₁, Run restless {} waiting m ∧ Run restless m throughout m' ∧ m.step? restless (.cancel 1) = some m₁ ∧
      m.world.count (.finished ⟨1, .hook⟩ .ok) < m'.world.count (.finished ⟨1, .hook⟩ .ok) ∧
      (∃ o, Passes restless m throughout m' (·.At 1 [.slot 1] (.ended o))) ∧
      ∀ more m'', Run restless m₁ more m'' → m''.world.times (Entry.finishes ⟨1, .hook⟩) = 0 := by
  obtain ⟨m, a, m', m₁, all, run, found, throughout, ended, dropped, fan_out, hook, second, kind, working⟩ :
      ∃ m a m' m₁ all, Run restless {} waiting m ∧ m.activity? 1 = some a ∧ Run restless m throughout m' ∧
        (∃ o, m'.activity? 1 = some (.ended o)) ∧ m.step? restless (.cancel 1) = some m₁ ∧ a = .fanOut all ∧
        all.slots[0]? = some (.started (.work ⟨1, .hook⟩ (some "go") .ok)) ∧
        all.slots[1]? = some (.waiting (.release (.route 3 "b") 2)) ∧
        m.world.component? 1 = some (.hooked 0) ∧ ∃ t ∈ a.tasks, t.isFor ⟨1, .hook⟩ = true :=
    ⟨_, _, _, _, _, .of_foldlM rfl, rfl, .of_foldlM rfl, ⟨_, rfl⟩, rfl, rfl, rfl, rfl, rfl, by decide⟩
  obtain ⟨o, closed⟩ := ended
  subst fan_out
  obtain ⟨under, -, drops⟩ := Run.nothing_outlives run
  have top : m.At 1 [] (.fanOut all) := ⟨_, found, .here⟩
  have first : m.At 1 ([] ++ [.slot 0]) (.work ⟨1, .hook⟩ (some "go") .ok) := top.append (.job hook .here)
  obtain ⟨-, finishes, -⟩ := under 1 [] [.slot 0] _ o _ m' first throughout ⟨_, closed, .here⟩
  obtain ⟨-, -, jobs⟩ := under 1 [] [] _ o _ m' top throughout ⟨_, closed, .here⟩
  refine ⟨m, m', m₁, run, throughout, dropped, finishes _ _ _ rfl, jobs all 1 _ rfl second rfl, ?_⟩
  intro more m'' further
  exact (drops 1 _ m₁ more m'' found dropped further).2.2.2 1 _ _ kind rfl rfl working

end Machine
end MetricPipeline
