import MetricPipeline.Proofs.Account
import Mathlib.Data.List.Basic
import Mathlib.Data.List.Flatten

/-!
# References

Where every reference is. `World.held` is what wrappers and routers took when they were made, and
`World.relinquished` what those that are torn down have to give back. `Run.given` and `Run.taken` balance the
journal with them, with the tasks that have not acted yet, and with what the calls asked for: nothing is
released that was not asked for or relinquished, and nothing of that is forgotten unless a call is cancelled.

Both are stated of any set of references, as counts under a predicate.
-/

namespace MetricPipeline

/-- What a torn down component gives back: nothing if its fan-out is refused. -/
def Component.returns (x : NodeId) : Component → List Reference
  | .router routes config => if config.isAdmissible then (Component.router routes config).holds x else []
  | c => c.holds x

theorem Component.returns_sublist (x : NodeId) (c : Component) : (c.returns x).Sublist (c.holds x) := by
  cases c with
  | router routes config =>
    simp only [returns]
    split
    · exact List.Sublist.refl _
    · exact List.nil_sublist _
  | leaf | uncounted | sink | hooked => exact List.Sublist.refl _

def Entry.taken : Entry → List Reference
  | acquired h x => [(h, x)]
  | _ => []

def Entry.given : Entry → List Reference
  | released h x => [(h, x)]
  | _ => []

namespace World

/-- Every acquisition that was made. -/
def taken (w : World) : List Reference := w.journal.flatMap Entry.taken

/-- Every release that was made, those included that had no reference to drop. -/
def given (w : World) : List Reference := w.journal.flatMap Entry.given

@[simp] theorem taken_note (w : World) (e : Entry) : (w.note e).taken = e.taken ++ w.taken := List.flatMap_cons

@[simp] theorem given_note (w : World) (e : Entry) : (w.note e).given = e.given ++ w.given := List.flatMap_cons

@[simp] theorem taken_setUsage (w : World) (x : NodeId) (u : Usage) : (w.setUsage x u).taken = w.taken := rfl

@[simp] theorem given_setUsage (w : World) (x : NodeId) (u : Usage) : (w.setUsage x u).given = w.given := rfl

theorem times_acquires (w : World) (x : NodeId) : w.times (Entry.acquires x) = w.taken.countP (·.2 == x) := by
  apply w.countP_journal
  intro e
  cases e <;> simp [Entry.acquires, Entry.taken, List.countP_singleton]

theorem times_releases (w : World) (x : NodeId) : w.times (Entry.releases x) = w.given.countP (·.2 == x) := by
  apply w.countP_journal
  intro e
  cases e <;> simp [Entry.releases, Entry.given, List.countP_singleton]

def holds (w : World) (x : NodeId) : List Reference := (w.component? x).elim [] (·.holds x)

/-- The references of all nodes. -/
def held (w : World) : List Reference := (List.range w.nodes.length).flatMap w.holds

/-- What a node adds, if it is torn down. -/
def ifTornDown {α : Type} (w : World) (f : NodeId → Component → List α) (x : NodeId) : List α :=
  if (w.usage x).tornDown then (w.component? x).elim [] (f x) else []

/-- What all nodes add that are torn down. -/
def ofTornDown {α : Type} (w : World) (f : NodeId → Component → List α) : List α :=
  (List.range w.nodes.length).flatMap (w.ifTornDown f)

/-- What has been or is to be given back by the nodes that are torn down. -/
def relinquished (w : World) : List Reference := w.ofTornDown Component.returns

theorem ifTornDown_sublist (w : World) (x : NodeId) :
    (w.ifTornDown Component.returns x).Sublist (w.holds x) := by
  unfold ifTornDown holds
  split
  · cases w.component? x with
    | none => exact List.Sublist.refl _
    | some c => exact c.returns_sublist x
  · exact List.nil_sublist _

theorem relinquished_sublist (w : World) : w.relinquished.Sublist w.held :=
  List.Sublist.flatMap_right _ fun x _ => w.ifTornDown_sublist x

theorem length_of_component? {w w' : World} (same : w'.component? = w.component?) :
    w'.nodes.length = w.nodes.length := by
  have made : ∀ x, x < w'.nodes.length ↔ x < w.nodes.length := by
    intro x
    rw [← component?_isSome, ← component?_isSome, same]
  apply Nat.le_antisymm
  · exact Nat.le_of_not_lt fun h => Nat.lt_irrefl _ ((made _).mp h)
  · exact Nat.le_of_not_lt fun h => Nat.lt_irrefl _ ((made _).mpr h)

theorem held_congr {w w' : World} (same : w'.component? = w.component?) : w'.held = w.held := by
  have holds : w'.holds = w.holds := by
    funext x
    rw [World.holds, World.holds, same]
  rw [held, held, length_of_component? same, holds]

section

variable {α : Type} {f : NodeId → Component → List α}

theorem ofTornDown_congr {w w' : World} (same : w'.component? = w.component?)
    (guards : ∀ x, (w'.usage x).tornDown = (w.usage x).tornDown) : w'.ofTornDown f = w.ofTornDown f := by
  have each : w'.ifTornDown f = w.ifTornDown f := by
    funext x
    rw [ifTornDown, ifTornDown, same, guards]
  rw [ofTornDown, ofTornDown, length_of_component? same, each]

/-- One node changes, from nothing to what it has now. -/
theorem countP_flatMap_of_update {f g : NodeId → List α} {n x : Nat} (p : α → Bool)
    (bound : x < n) (nothing : f x = []) (others : ∀ y, y ≠ x → g y = f y) :
    ((List.range n).flatMap g).countP p = ((List.range n).flatMap f).countP p + (g x).countP p := by
  induction n with
  | zero => cases bound
  | succ n ih =>
    rw [List.range_succ, List.flatMap_append, List.flatMap_append, List.countP_append, List.countP_append]
    simp only [List.flatMap_singleton]
    by_cases last : x = n
    · subst last
      have before : (List.range x).flatMap g = (List.range x).flatMap f := by
        apply List.flatMap_congr
        intro y mem
        exact others y (Nat.ne_of_lt (List.mem_range.mp mem))
      rw [before, nothing]
      simp
    · rw [ih (by omega), others n (Ne.symm last)]
      omega

theorem countP_ofTornDown_fire {w : World} {x : NodeId} {u : Usage} {c : Component} (p : α → Bool)
    (counted : w.usage? x = some u) (unfired : u.tornDown = false) (kind : w.component? x = some c) :
    ((((w.setUsage x { u with tornDown := true }).note (.tornDown x)).note (c.opening x)).ofTornDown f).countP p =
      (w.ofTornDown f).countP p + (f x c).countP p := by
  have made : x < w.nodes.length := (w.component?_isSome x).mp (by simp [kind])
  have length : (w.setUsage x { u with tornDown := true }).nodes.length = w.nodes.length :=
    w.length_nodes_setUsage ..
  have before : w.ifTornDown f x = [] := by
    rw [ifTornDown, usage_of_usage? counted, unfired]
    rfl
  have after : (w.setUsage x { u with tornDown := true }).ifTornDown f x = f x c := by
    rw [ifTornDown, usage_setUsage_self counted, component?_setUsage, kind]
    rfl
  have others : ∀ y, y ≠ x → (w.setUsage x { u with tornDown := true }).ifTornDown f y = w.ifTornDown f y := by
    intro y other
    rw [ifTornDown, usage_setUsage_ne _ (Ne.symm other), component?_setUsage]
    rfl
  rw [← after, ofTornDown, ofTornDown, ← countP_flatMap_of_update p made before others, ← length]
  rfl

theorem ofTornDown_add (w : World) (c : Component) : (w.add c).ofTornDown f = w.ofTornDown f := by
  have length : (w.add c).nodes.length = w.nodes.length + 1 := by simp [add]
  have before : (List.range w.nodes.length).flatMap ((w.add c).ifTornDown f) = w.ofTornDown f := by
    apply List.flatMap_congr
    intro x mem
    rw [ifTornDown, ifTornDown, usage_add, component?_add, if_neg (Nat.ne_of_lt (List.mem_range.mp mem))]
  have new : (w.add c).ifTornDown f w.nodes.length = [] := by
    have unmade : w.usage w.nodes.length = {} := by simp [usage, usage?]
    rw [ifTornDown, usage_add, unmade]
    rfl
  rw [ofTornDown, length, List.range_succ, List.flatMap_append, before, List.flatMap_singleton, new,
    List.append_nil]

end

theorem holds_add (w : World) (c : Component) (x : NodeId) :
    (w.add c).holds x = if x = w.nodes.length then c.holds x else w.holds x := by
  unfold holds
  rw [component?_add]
  split <;> rfl

theorem held_add (w : World) (c : Component) : (w.add c).held = w.held ++ c.holds w.nodes.length := by
  have length : (w.add c).nodes.length = w.nodes.length + 1 := by simp [add]
  have before : (List.range w.nodes.length).flatMap (w.add c).holds = w.held := by
    apply List.flatMap_congr
    intro x mem
    rw [holds_add, if_neg (Nat.ne_of_lt (List.mem_range.mp mem))]
  rw [held, length, List.range_succ, List.flatMap_append, before, List.flatMap_singleton, holds_add, if_pos rfl]

theorem flatMap_inspect {α : Type} (w : World) (x : NodeId) (refs : Nat) {f : Entry → List α}
    (late : ∀ x refs, f (.acquiredLate x refs) = []) :
    (w.inspect x refs).journal.flatMap f = w.journal.flatMap f := by
  unfold inspect
  split
  · split
    · simp [late]
    · rfl
  · rfl

/-- What making a component writes down: that it took its references. -/
theorem flatMap_acquireAll {α : Type} (w : World) (rs : List Reference) {f : Entry → List α}
    (late : ∀ x refs, f (.acquiredLate x refs) = []) :
    (w.acquireAll rs).journal.flatMap f =
      rs.reverse.flatMap (fun r => f (.acquired r.1 r.2)) ++ w.journal.flatMap f := by
  induction rs generalizing w with
  | nil => rfl
  | cons r rest ih =>
    have first : (w.acquire r.1 r.2).journal.flatMap f = f (.acquired r.1 r.2) ++ w.journal.flatMap f := by
      have added : (w.increment r.1 r.2).journal.flatMap f =
          f (.acquired r.1 r.2) ++ w.journal.flatMap f := by
        unfold increment
        split <;> simp
      unfold acquire
      dsimp only
      split
      · rw [flatMap_inspect _ _ _ late, added]
      · exact added
    have others := ih (w.acquire r.1 r.2)
    rw [first] at others
    simpa [acquireAll] using others

theorem given_inspect (w : World) (x : NodeId) (refs : Nat) : (w.inspect x refs).given = w.given :=
  flatMap_inspect _ _ _ fun _ _ => rfl

theorem taken_inspect (w : World) (x : NodeId) (refs : Nat) : (w.inspect x refs).taken = w.taken :=
  flatMap_inspect _ _ _ fun _ _ => rfl

theorem taken_acquireAll (w : World) (rs : List Reference) :
    (w.acquireAll rs).taken = rs.reverse ++ w.taken := by
  rw [taken, flatMap_acquireAll w rs fun _ _ => rfl]
  simp [Entry.taken, taken, List.flatMap_singleton']

end World

namespace Activity

/-- The references a task is to release: its own, or the one a wrapper gives back when its hook has ended. -/
def owed (w : World) : Activity → List Reference
  | release h x => [(h, x)]
  | work ⟨x, .hook⟩ _ _ => w.holds x
  | _ => []

/-- The reference a task is to acquire. -/
def sought : Activity → List Reference
  | acquire h x => [(h, x)]
  | _ => []

theorem undertaking_owed {env : Work → Behaviour} {w : World} {c : Component} {x : NodeId}
    (kind : w.component? x = some c) : (c.undertaking env x).tasks.flatMap (owed w) = c.returns x := by
  cases c with
  | leaf | uncounted | sink => rfl
  | hooked below => simp [Component.undertaking, tasks, owed, World.holds, kind, Component.returns]
  | router routes config =>
    simp only [Component.undertaking, flatMap_tasks_spread, owed, List.flatMap_singleton', Component.returns]

theorem undertaking_sought (env : Work → Behaviour) (c : Component) (x : NodeId) :
    (c.undertaking env x).tasks.flatMap sought = [] := by
  cases c with
  | leaf | uncounted | sink | hooked => rfl
  | router routes config => exact flatMap_tasks_spread_nil (fun _ _ => rfl) _ _

theorem owed_congr {w w' : World} (same : w'.component? = w.component?) : owed w' = owed w := by
  have holds : w'.holds = w.holds := by
    funext x
    rw [World.holds, World.holds, same]
  funext t
  unfold owed
  split
  · rfl
  · rw [holds]
  · rfl

theorem owed_work (w : World) (k : Work) (wait : Option Gate) (o : Outcome) :
    owed w (work k wait o) = if k.duty = .hook then w.holds k.node else [] := by
  obtain ⟨x, duty⟩ := k
  cases duty <;> rfl

/-- What a task releases it owed, and what a teardown owes was relinquished. -/
theorem Act.given {env : Work → Behaviour} {w w' : World} {t t' : Activity} (h : Act env w t w' t')
    (sound : t.Sound w) (p : Reference → Bool) :
    (t'.tasks.flatMap (owed w)).countP p + w'.given.countP p + w.relinquished.countP p =
      (t.owed w).countP p + w.given.countP p + w'.relinquished.countP p := by
  have same := h.component?
  simp only [World.relinquished]
  cases h with
  | acquire counted =>
    rw [World.ofTornDown_congr same fun y => World.tornDown_setUsage counted rfl]
    simp [tasks, owed, Entry.given]
  | inspect =>
    rw [World.ofTornDown_congr same fun y => World.tornDown_inspect .., World.given_inspect]
    rfl
  | drop counted | dropLast counted =>
    rw [World.ofTornDown_congr same fun y => World.tornDown_setUsage counted rfl]
    simp [tasks, owed, Entry.given, List.countP_cons, Nat.add_comm]
  | underflow =>
    rw [World.ofTornDown_congr same fun _ => rfl]
    simp [tasks, owed, Entry.given, List.countP_cons, Nat.add_comm]
  | releaseUncounted kind =>
    rw [World.ofTornDown_congr same fun _ => rfl, undertaking_owed kind]
    simp [owed, Component.returns, Component.holds, Entry.given, List.countP_cons, Nat.add_comm]
  | @fire x u c counted unfired kind =>
    rw [undertaking_owed kind, World.countP_ofTornDown_fire p counted unfired kind]
    have quiet : (c.opening x).given = [] := by cases c <;> rfl
    simp only [World.given_note, quiet, World.given_setUsage]
    simp [owed, Entry.given]
    omega
  | hookEnd kind | hookPanic kind =>
    rw [World.ofTornDown_congr same fun _ => rfl]
    simp [owed, tasks, World.holds, kind, Component.holds, Entry.given]
  | @resume k =>
    rw [World.ofTornDown_congr same fun _ => rfl]
    simp [tasks, owed_work, Entry.given]
  | @workEnd k o other =>
    have nothing : owed w (work k none o) = [] := by
      rw [owed_work, if_neg]
      intro hook
      obtain ⟨below, kind⟩ := sound.2 hook
      exact other hook below kind
    rw [World.ofTornDown_congr same fun _ => rfl, nothing]
    simp [tasks, Entry.given]
  | _ =>
    rw [World.ofTornDown_congr same fun _ => rfl]
    simp [owed, tasks, Entry.given]

theorem Act.taken {env : Work → Behaviour} {w w' : World} {t t' : Activity} (h : Act env w t w' t')
    (p : Reference → Bool) :
    (t'.tasks.flatMap sought).countP p + w'.taken.countP p = t.sought.countP p + w.taken.countP p := by
  cases h with
  | inspect =>
    rw [World.taken_inspect]
    rfl
  | @fire x u c =>
    rw [undertaking_sought]
    cases c <;> simp [sought, Entry.taken, Component.opening]
  | releaseUncounted =>
    rw [undertaking_sought]
    simp [sought, Entry.taken]
  | _ => simp [sought, tasks, Entry.taken, List.countP_cons, Nat.add_comm]

/-- Nodes made later change nothing. -/
theorem owed_mono {w w' : World} {t : Activity}
    (extends_ : ∀ x c, w.component? x = some c → w'.component? x = some c) (sound : t.Sound w) :
    owed w' t = owed w t := by
  cases t with
  | work k wait o =>
    obtain ⟨c, kind⟩ := Option.isSome_iff_exists.mp sound.1
    rw [owed_work, owed_work, World.holds, World.holds, kind, extends_ _ _ kind]
  | _ => rfl

end Activity

/-! ## Along a run -/

/-- The entry is not made by a release or by user code. -/
def Entry.isSilent : Entry → Bool
  | acquired _ _ | acquiredLate _ _ | releasePanicked _ | returned _ _ | cancelled _ => true
  | _ => false

namespace Request

def acquires : Request → List Reference
  | acquire x => [(.outside, x)]
  | _ => []

def releases : Request → List Reference
  | release x => [(.outside, x)]
  | releaseAll xs config => if config.isAdmissible then xs.map fun x => (.outside, x) else []
  | _ => []

theorem activity_sought (r : Request) : r.activity.tasks.flatMap Activity.sought = r.acquires := by
  cases r with
  | acquire | release | report => rfl
  | releaseAll xs config => exact Activity.flatMap_tasks_spread_nil (fun _ _ => rfl) _ _

theorem activity_owed (w : World) (r : Request) : r.activity.tasks.flatMap (Activity.owed w) = r.releases := by
  cases r with
  | acquire | release | report => rfl
  | releaseAll xs config =>
    simp only [activity, Activity.flatMap_tasks_spread, Activity.owed, List.flatMap_singleton', releases]

end Request

namespace Move

def acquires : Move → List Reference
  | call r => r.acquires
  | _ => []

def releases : Move → List Reference
  | call r => r.releases
  | _ => []

/-- The tasks with which a call begins. -/
def starts : Move → List Activity
  | call r => r.activity.tasks
  | _ => []

theorem starts_owed (a : Move) (w : World) : a.starts.flatMap (Activity.owed w) = a.releases := by
  cases a with
  | call r => exact r.activity_owed w
  | _ => rfl

end Move

namespace Machine

def sought (m : Machine) : List Reference := m.tasks.flatMap Activity.sought

def owed (m : Machine) : List Reference := m.tasks.flatMap (Activity.owed m.world)

/-- The tasks at work, the journal and the nodes that are torn down stay in balance, if they do when a single
task acts. -/
theorem Change.balance {α : Type} {f : World → Activity → List α} {g : Entry → List α}
    {h : NodeId → Component → List α} {env : Environment} {m m' : Machine} {a : Move} (valid : m.Valid)
    (change : Change env m m' a) (p : α → Bool)
    (congr : ∀ {w w' : World}, w'.component? = w.component? → f w' = f w)
    (mono : ∀ {w w' : World} {t : Activity}, (∀ x c, w.component? x = some c → w'.component? x = some c) →
      t.Sound w → f w' t = f w t)
    (silent : ∀ e, Entry.isSilent e = true → g e = [])
    (acts : ∀ {id path t t'}, Activity.Act ((env id).behaviour path) m.world t m'.world t' → t.Sound m.world →
      (t'.tasks.flatMap (f m.world)).countP p + (m'.world.journal.flatMap g).countP p +
          (m.world.ofTornDown h).countP p =
        (f m.world t).countP p + (m.world.journal.flatMap g).countP p + (m'.world.ofTornDown h).countP p) :
    ∃ lost, (m'.tasks.flatMap (f m'.world)).countP p + lost + (m'.world.journal.flatMap g).countP p +
          (m.world.ofTornDown h).countP p =
        (m.tasks.flatMap (f m.world)).countP p + (a.starts.flatMap (f m.world)).countP p +
          (m.world.journal.flatMap g).countP p + (m'.world.ofTornDown h).countP p ∧
      ((∀ id, a ≠ .cancel id) → lost = 0) := by
  have still : ∀ {w : World}, m'.world = w → w.component? = m.world.component? → w.usage = m.world.usage →
      w.journal.flatMap g = m.world.journal.flatMap g →
      f m'.world = f m.world ∧ m'.world.ofTornDown h = m.world.ofTornDown h ∧
        m'.world.journal.flatMap g = m.world.journal.flatMap g := by
    rintro w rfl same usage journal
    exact ⟨congr same, World.ofTornDown_congr same fun x => by rw [usage], journal⟩
  have note : ∀ e, Entry.isSilent e = true →
      (m.world.note e).journal.flatMap g = m.world.journal.flatMap g := by
    intro e silence
    simp [silent e silence]
  cases change with
  | @build c known world tasks =>
    have torn : m'.world.ofTornDown h = m.world.ofTornDown h := by
      rw [world, ← World.ofTornDown_add m.world c]
      exact World.ofTornDown_congr (World.component?_acquireAll ..) (World.tornDown_acquireAll _ _)
    have journal : m'.world.journal.flatMap g = m.world.journal.flatMap g := by
      have taken : ∀ r : Reference, g (.acquired r.1 r.2) = [] := fun r => silent _ rfl
      rw [world, World.flatMap_acquireAll _ _ fun _ _ => silent _ rfl]
      simp [taken, World.add]
    have stays : m.tasks.flatMap (f m'.world) = m.tasks.flatMap (f m.world) := by
      apply List.flatMap_congr
      intro t mem
      refine mono (fun x d kind => ?_) (valid.sound t mem)
      rw [world, World.component?_acquireAll]
      exact World.component?_add_of_some kind
    refine ⟨0, ?_, fun _ => rfl⟩
    rw [torn, journal, tasks, stays]
    rfl
  | @call r known world tasks =>
    refine ⟨0, ?_, fun _ => rfl⟩
    rw [tasks, world, List.flatMap_append, List.countP_append]
    simp only [Move.starts]
    omega
  | @act id path t t' before after act _ _ old new =>
    have balance := acts act (valid.sound t (by simp [old]))
    refine ⟨0, ?_, fun _ => rfl⟩
    rw [new, old, congr act.component?]
    simp only [List.flatMap_append, List.flatMap_cons, List.countP_append, Move.starts, List.flatMap_nil,
      List.countP_nil]
    omega
  | arrange world tasks =>
    have same : f m'.world = f m.world ∧ m'.world.ofTornDown h = m.world.ofTornDown h ∧
        m'.world.journal.flatMap g = m.world.journal.flatMap g := by
      rcases world with world | ⟨q, world⟩
      · exact still world rfl rfl rfl
      · exact still world rfl rfl (note _ rfl)
    refine ⟨0, ?_, fun _ => rfl⟩
    rw [tasks, same.1, same.2.1, same.2.2]
    rfl
  | openGate world tasks =>
    obtain ⟨same, torn, journal⟩ := still world rfl rfl rfl
    refine ⟨0, ?_, fun _ => rfl⟩
    rw [tasks, same, torn, journal]
    rfl
  | finish world tasks =>
    obtain ⟨same, torn, journal⟩ := still world rfl rfl (note _ rfl)
    refine ⟨0, ?_, fun _ => rfl⟩
    rw [tasks, same, torn, journal]
    rfl
  | @cancel id before lost after world old new =>
    obtain ⟨same, torn, journal⟩ := still world rfl rfl (note _ rfl)
    refine ⟨(lost.flatMap (f m.world)).countP p, ?_, fun none => absurd rfl (none id)⟩
    rw [new, old, same, torn, journal]
    simp only [List.flatMap_append, List.countP_append, Move.starts, List.flatMap_nil, List.countP_nil]
    omega

theorem Change.given {env : Environment} {m m' : Machine} {a : Move} (valid : m.Valid)
    (change : Change env m m' a) (p : Reference → Bool) :
    ∃ lost, m'.owed.countP p + lost + m'.world.given.countP p + m.world.relinquished.countP p =
        m.owed.countP p + a.releases.countP p + m.world.given.countP p + m'.world.relinquished.countP p ∧
      ((∀ id, a ≠ .cancel id) → lost = 0) := by
  have silent : ∀ e, Entry.isSilent e = true → Entry.given e = [] := by
    intro e silence
    cases e with
    | acquired | acquiredLate | releasePanicked | returned | cancelled => rfl
    | _ => cases silence
  rw [← a.starts_owed m.world]
  exact change.balance valid p Activity.owed_congr Activity.owed_mono silent fun act sound => act.given sound p

/-- What was released, is to be released or was lost with a call that was cancelled is what the calls asked
for and what torn down nodes relinquished, counted from any moment on. -/
theorem Run.given_since {env : Environment} {moves : List Move} {m m' : Machine} (run : Run env m moves m')
    (valid : m.Valid) (p : Reference → Bool) :
    ∃ lost, m'.owed.countP p + lost + m'.world.given.countP p + m.world.relinquished.countP p =
        m.owed.countP p + (moves.flatMap Move.releases).countP p + m.world.given.countP p +
          m'.world.relinquished.countP p ∧
      ((∀ id, .cancel id ∉ moves) → lost = 0) := by
  induction run with
  | start => exact ⟨0, rfl, fun _ => rfl⟩
  | @next moves m₁ a m₂ run step ih =>
    obtain ⟨lost, balance, kept⟩ := ih
    have valid := run.valid valid
    obtain ⟨more, change, kept'⟩ := (valid.change step).given valid p
    refine ⟨lost + more, ?_, fun uncancelled => ?_⟩
    · simp only [List.flatMap_append, List.countP_append, List.flatMap_singleton]
      omega
    · have before : lost = 0 := kept fun id mem => uncancelled id (List.mem_append_left _ mem)
      have now : more = 0 := kept' fun id e => uncancelled id (by simp [e])
      omega

theorem Run.given {env : Environment} {moves : List Move} {m : Machine} (run : Run env {} moves m)
    (p : Reference → Bool) :
    ∃ lost, m.owed.countP p + lost + m.world.given.countP p =
        (moves.flatMap Move.releases).countP p + m.world.relinquished.countP p ∧
      ((∀ id, .cancel id ∉ moves) → lost = 0) := by
  obtain ⟨lost, balance, kept⟩ := run.given_since valid_empty p
  have nothing : (owed {}).countP p = 0 ∧ (({} : Machine).world.given).countP p = 0 ∧
      (({} : Machine).world.relinquished).countP p = 0 := ⟨rfl, rfl, rfl⟩
  exact ⟨lost, by omega, kept⟩

theorem Change.taken {env : Environment} {m m' : Machine} {a : Move} (change : Change env m m' a)
    (p : Reference → Bool) :
    ∃ lost, m'.sought.countP p + lost + m'.world.taken.countP p + m.world.held.countP p =
        m.sought.countP p + m.world.taken.countP p + a.acquires.countP p + m'.world.held.countP p ∧
      lost ≤ m.sought.countP p ∧ ((∀ id, a ≠ .cancel id) → lost = 0) := by
  have sought : m'.sought = m'.tasks.flatMap Activity.sought := rfl
  have sought_now : m.sought = m.tasks.flatMap Activity.sought := rfl
  cases change with
  | @build c known world tasks =>
    have held : m'.world.held = m.world.held ++ c.holds m.world.nodes.length := by
      rw [world, World.held_congr (World.component?_acquireAll ..), World.held_add]
    refine ⟨0, ?_, Nat.zero_le _, fun _ => rfl⟩
    rw [sought, tasks, held, world, World.taken_acquireAll]
    simp only [List.countP_append, List.countP_reverse, Move.acquires, List.countP_nil]
    change _ + 0 + (_ + List.countP p m.world.taken) + _ = List.countP p m.sought + _ + _ + _
    rw [sought_now]
    omega
  | @call r known world tasks =>
    refine ⟨0, ?_, Nat.zero_le _, fun _ => rfl⟩
    rw [sought, tasks, world, List.flatMap_append, Request.activity_sought, List.countP_append, sought_now]
    simp only [Move.acquires]
    omega
  | @act id path t t' before after act _ _ old new =>
    have balance := act.taken p
    refine ⟨0, ?_, Nat.zero_le _, fun _ => rfl⟩
    rw [sought, sought_now, new, old, World.held_congr act.component?]
    simp only [List.flatMap_append, List.flatMap_cons, List.countP_append, Move.acquires, List.countP_nil]
    omega
  | arrange world tasks =>
    refine ⟨0, ?_, Nat.zero_le _, fun _ => rfl⟩
    rw [sought, tasks]
    rcases world with world | ⟨q, world⟩ <;> rw [world] <;> rfl
  | openGate world tasks | finish world tasks =>
    refine ⟨0, ?_, Nat.zero_le _, fun _ => rfl⟩
    rw [sought, tasks, world]
    rfl
  | @cancel id before lost after world old new =>
    have same : m'.world.held = m.world.held := by rw [world]; rfl
    have none_taken : m'.world.taken = m.world.taken := by rw [world]; rfl
    refine ⟨(lost.flatMap Activity.sought).countP p, ?_, ?_, fun h => absurd rfl (h id)⟩
    · rw [same, none_taken, sought, sought_now, new, old]
      simp only [List.flatMap_append, List.countP_append, Move.acquires, List.countP_nil]
      omega
    · rw [sought_now, old]
      simp only [List.flatMap_append, List.countP_append]
      omega

/-- Only outsiders acquire by a call. -/
theorem Valid.sought_outside {m : Machine} (valid : m.Valid) {p : Reference → Bool}
    (inside : ∀ x, p (.outside, x) = false) : m.sought.countP p = 0 := by
  apply List.countP_eq_zero.mpr
  intro r mem
  obtain ⟨t, task, mine⟩ := List.mem_flatMap.mp mem
  have sound := valid.sound t task
  cases t with
  | acquire h x =>
    cases List.mem_singleton.mp mine
    rw [sound.1, inside]
    simp
  | _ => cases mine

/-- What was acquired, is to be acquired or was lost with a call that was cancelled is what the calls asked
for and what the nodes hold. -/
theorem Run.taken {env : Environment} {moves : List Move} {m : Machine} (run : Run env {} moves m)
    (p : Reference → Bool) :
    ∃ lost, m.sought.countP p + lost + m.world.taken.countP p =
        (moves.flatMap Move.acquires).countP p + m.world.held.countP p ∧
      ((∀ id, .cancel id ∉ moves) ∨ (∀ x, p (.outside, x) = false) → lost = 0) := by
  induction run with
  | start => exact ⟨0, rfl, fun _ => rfl⟩
  | @next moves m a m' run step ih =>
    obtain ⟨lost, balance, kept⟩ := ih
    have valid := run.valid valid_empty
    obtain ⟨more, change, bound, kept'⟩ := (valid.change step).taken p
    refine ⟨lost + more, ?_, ?_⟩
    · simp only [List.flatMap_append, List.countP_append, List.flatMap_singleton]
      omega
    · rintro (uncancelled | inside)
      · have before : lost = 0 := kept (.inl fun id mem => uncancelled id (List.mem_append_left _ mem))
        have now : more = 0 := kept' fun id e => uncancelled id (by simp [e])
        omega
      · have before : lost = 0 := kept (.inr inside)
        have nothing := valid.sought_outside inside
        omega

end Machine

end MetricPipeline
