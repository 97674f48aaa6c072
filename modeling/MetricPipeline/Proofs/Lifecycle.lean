import MetricPipeline.Proofs.Holders

/-!
# The lifecycle of a graph

A graph is set up and its nodes are acquired; then nodes are released, and nothing else is asked for. A
`Lifecycle` is any interleaving of that, with releases that may be too many, run until all calls have returned.

`Lifecycle.balance` says how it ends: whether a node is torn down, what is left of its count and how many of its
releases underflowed follow from how often it was acquired and released. The releases of a node that come from
the graph depend on which of its holders are torn down, and these are newer than the node, so by going down from
the newest node all lifecycles of one graph with the same requests end alike (`Alike.usage_eq`).
-/

namespace MetricPipeline

/-- No fan-out of the component is refused. -/
def Component.isAdmissible : Component → Bool
  | router _ config => config.isAdmissible
  | _ => true

def Move.isSetup : Move → Bool
  | build c => c.isCounted && c.isAdmissible
  | call (.acquire _) | run _ _ | openGate _ | finish _ => true
  | _ => false

def Move.isRelease : Move → Bool
  | call (.releaseAll _ config) => config.isAdmissible
  | call (.release _) | run _ _ | openGate _ | finish _ => true
  | _ => false

theorem Move.releases_of_isSetup {a : Move} (setup : a.isSetup = true) : a.releases = [] := by
  cases a with
  | call r =>
    cases r with
    | acquire => rfl
    | release | report | releaseAll => cases setup
  | _ => rfl

theorem Move.acquires_of_isRelease {a : Move} (release : a.isRelease = true) : a.acquires = [] := by
  cases a with
  | call r =>
    cases r with
    | acquire | report => cases release
    | release | releaseAll => rfl
  | _ => rfl

open Machine (Run)

structure Lifecycle (env : Environment) where
  setup : List Move
  ready : Machine
  releases : List Move
  final : Machine
  sets_up : Run env {} setup ready
  setting_up : ∀ a ∈ setup, a.isSetup = true
  none_acquiring : ready.calls = []
  tears_down : Run env ready releases final
  releasing : ∀ a ∈ releases, a.isRelease = true
  none_releasing : final.calls = []

namespace Machine

theorem Change.built {env : Environment} {m m' : Machine} {a : Move} (change : Change env m m' a) {x : NodeId}
    {c : Component} (kind : m'.world.component? x = some c) :
    m.world.component? x = some c ∨ a = .build c := by
  obtain ⟨d, rfl, -, world⟩ | ⟨id, path, t, t', -, act, -⟩ | ⟨nodes, -⟩ := change.world_cases
  · rw [world, World.component?_acquireAll, World.component?_add] at kind
    split at kind
    · exact .inr (by rw [Option.some.inj kind])
    · exact .inl kind
  · rw [act.component?] at kind
    exact .inl kind
  · rw [World.component?, nodes] at kind
    exact .inl kind

/-- Every node was made by a move. -/
theorem Run.built {env : Environment} {moves : List Move} {m m' : Machine} (run : Run env m moves m')
    (valid : m.Valid) {x : NodeId} {c : Component} (kind : m'.world.component? x = some c) :
    m.world.component? x = some c ∨ .build c ∈ moves := by
  induction run with
  | start => exact .inl kind
  | @next moves m₁ a m₂ run step ih =>
    rcases ((run.valid valid).change step).built kind with old | rfl
    · exact (ih old).imp_right (List.mem_append_left _)
    · exact .inr (by simp)

theorem mem_tasks_fires {m : Machine} {x : NodeId} (firing : .fire x ∈ m.tasks) :
    0 < m.tasks.countP (Activity.fires x) :=
  List.countP_pos_iff.mpr ⟨.fire x, firing, by simp [Activity.fires]⟩

/-- As long as no call asks for a release, no node is released and none torn down. -/
theorem Run.untouched {env : Environment} {moves : List Move} {m : Machine} (run : Run env {} moves m)
    (none_asked : moves.flatMap Move.releases = []) :
    (∀ x, (m.world.usage x).tornDown = false) ∧ m.world.given = [] := by
  induction run with
  | start => exact ⟨fun x => rfl, rfl⟩
  | @next moves m a m' run step ih =>
    rw [List.flatMap_append, List.append_eq_nil_iff] at none_asked
    obtain ⟨standing, none_given⟩ := ih none_asked.1
    have standing' : ∀ x, (m'.world.usage x).tornDown = false := by
      intro x
      apply Bool.eq_false_iff.mpr
      intro set
      obtain ⟨id, path, c, rfl, firing, -⟩ := run.guard_set step (standing x) set
      have change := (run.valid valid_empty).change step
      have account := run.accounted fun kind => World.counted_of_tornDown set (change.component? kind)
      have released := account.released
      have emptied := account.emptied
      have some_fire := mem_tasks_fires firing
      have drops := m.world.count_dropped_le x 0
      rw [World.times_releases, none_given, List.countP_nil] at released
      omega
    have none_relinquished : m'.world.relinquished = [] := by
      apply List.flatMap_eq_nil_iff.mpr
      intro x _
      rw [World.ifTornDown, standing']
      rfl
    refine ⟨standing', ?_⟩
    obtain ⟨lost, given, -⟩ := (run.next step).given fun _ => true
    rw [none_relinquished, List.flatMap_append, none_asked.1, none_asked.2] at given
    have nothing : m'.world.given.countP (fun _ => true) = 0 := by
      simp only [List.append_nil, List.countP_nil] at given
      omega
    apply List.eq_nil_iff_forall_not_mem.mpr
    intro r mem
    exact absurd rfl (List.countP_eq_zero.mp nothing r mem)

/-- Where nothing is built and no call acquires, acquisitions come to an end. -/
theorem Run.closing {env : Environment} {moves : List Move} {m m' : Machine} (run : Run env m moves m')
    (valid : m.Valid) (releasing : ∀ a ∈ moves, a.isRelease = true) (p : Reference → Bool) :
    m'.world.component? = m.world.component? ∧
      m'.sought.countP p + m'.world.taken.countP p ≤ m.sought.countP p + m.world.taken.countP p := by
  induction run with
  | start => exact ⟨rfl, Nat.le_refl _⟩
  | @next moves m₁ a m₂ run step ih =>
    obtain ⟨same, le⟩ := ih fun b mem => releasing b (List.mem_append_left _ mem)
    have release : a.isRelease = true := releasing a (by simp)
    have change := (run.valid valid).change step
    have same' : m₂.world.component? = m₁.world.component? := by
      obtain ⟨c, rfl, -⟩ | ⟨id, path, t, t', -, act, -⟩ | ⟨nodes, -⟩ := change.world_cases
      · cases release
      · exact act.component?
      · funext x
        rw [World.component?, World.component?, nodes]
    obtain ⟨lost, taken, -⟩ := change.taken p
    rw [Move.acquires_of_isRelease release, World.held_congr same', List.countP_nil] at taken
    exact ⟨same'.trans same, by omega⟩

end Machine

namespace Lifecycle

variable {env : Environment} (l : Lifecycle env)

theorem run : Run env {} (l.setup ++ l.releases) l.final := l.sets_up.append l.tears_down

theorem uncancelled (id : CallId) : .cancel id ∉ l.setup ++ l.releases := by
  intro mem
  rcases List.mem_append.mp mem with mem | mem
  · cases l.setting_up _ mem
  · cases l.releasing _ mem

theorem components {x : NodeId} {c : Component} (kind : l.final.world.component? x = some c) :
    c.isCounted = true ∧ c.isAdmissible = true := by
  have made := (l.run.built Machine.valid_empty kind).resolve_left (by simp [World.component?])
  rcases List.mem_append.mp made with mem | mem
  · exact Bool.and_eq_true_iff.mp (l.setting_up _ mem)
  · cases l.releasing _ mem

theorem counted (x : NodeId) : l.final.world.component? x ≠ some .uncounted :=
  fun kind => by cases (l.components kind).1

theorem setup_releases : l.setup.flatMap Move.releases = [] :=
  List.flatMap_eq_nil_iff.mpr fun a mem => Move.releases_of_isSetup (l.setting_up a mem)

theorem releases_acquires : l.releases.flatMap Move.acquires = [] :=
  List.flatMap_eq_nil_iff.mpr fun a mem => Move.acquires_of_isRelease (l.releasing a mem)

/-- How often a node was acquired: by calls, and by the components that hold it. -/
def acquired (x : NodeId) : Nat :=
  (l.setup.flatMap Move.acquires).countP (·.2 == x) + l.final.world.held.countP (·.2 == x)

/-- How often a node was released: by calls, and by the components that held it and were torn down. -/
def released (x : NodeId) : Nat :=
  (l.releases.flatMap Move.releases).countP (·.2 == x) +
    l.final.world.held.countP fun r => r.2 == x && r.1.owner?.any fun y => (l.final.world.usage y).tornDown

theorem relinquished (p : Reference → Bool) :
    l.final.world.relinquished.countP p =
      l.final.world.held.countP fun r => p r && r.1.owner?.any fun y => (l.final.world.usage y).tornDown := by
  have each : l.final.world.relinquished =
      l.final.world.held.filter fun r => r.1.owner?.any fun y => (l.final.world.usage y).tornDown := by
    rw [World.relinquished, World.ofTornDown, World.held, List.filter_flatMap]
    apply List.flatMap_congr
    intro x _
    rw [World.ifTornDown, World.holds]
    cases kind : l.final.world.component? x with
    | none => simp
    | some c =>
      have whole : c.returns x = c.holds x := by
        have admissible := (l.components kind).2
        cases c with
        | router routes config => exact if_pos admissible
        | _ => rfl
      have owned : ∀ r ∈ c.holds x, r.1.owner? = some x := fun r held => Component.holds_owner held
      simp only [Option.elim_some, whole]
      cases torn : (l.final.world.usage x).tornDown with
      | true =>
        symm
        apply List.filter_eq_self.mpr
        intro r held
        simp [owned r held, torn]
      | false =>
        symm
        apply List.filter_eq_nil_iff.mpr
        intro r held
        simp [owned r held, torn]
  rw [each, List.countP_filter]

theorem no_tasks {m : Machine} (none : m.calls = []) : m.tasks = [] := by
  rw [Machine.tasks, none]
  rfl

theorem times_acquires (x : NodeId) : l.final.world.times (Entry.acquires x) = l.acquired x := by
  obtain ⟨lost, taken, kept⟩ := l.run.taken (·.2 == x)
  have none_lost := kept (.inl l.uncancelled)
  have none_sought : l.final.sought = [] := by
    rw [Machine.sought, no_tasks l.none_releasing]
    rfl
  rw [none_sought, List.flatMap_append, l.releases_acquires, List.append_nil, List.countP_nil] at taken
  rw [World.times_acquires, acquired]
  omega

theorem times_releases (x : NodeId) : l.final.world.times (Entry.releases x) = l.released x := by
  obtain ⟨lost, given, kept⟩ := l.run.given (·.2 == x)
  have none_lost := kept l.uncancelled
  have none_owed : l.final.owed = [] := by
    rw [Machine.owed, no_tasks l.none_releasing]
    rfl
  rw [none_owed, List.flatMap_append, l.setup_releases, List.nil_append, l.relinquished, List.countP_nil] at given
  rw [World.times_releases, released]
  omega

/-- All acquisitions come before the first release. -/
theorem acquires_le {moves : List Move} {m : Machine} (first : Run env l.ready moves m) (x : NodeId) :
    l.final.world.times (Entry.acquires x) ≤ m.world.times (Entry.acquires x) := by
  have valid := l.sets_up.valid Machine.valid_empty
  have none_sought : l.ready.sought = [] := by
    rw [Machine.sought, no_tasks l.none_acquiring]
    rfl
  obtain ⟨-, le⟩ := l.tears_down.closing valid l.releasing (·.2 == x)
  have grows : l.ready.world.times (Entry.acquires x) ≤ m.world.times (Entry.acquires x) :=
    (first.journal valid).sublist.countP_le
  rw [none_sought, List.countP_nil] at le
  rw [World.times_acquires] at grows ⊢
  omega

/-- The count of a node that came to zero is zero in the end. -/
theorem refs_zero {x : NodeId} {e : Entry} (empties : Entry.empties x e) (noted : e ∈ l.final.world.journal) :
    (l.final.world.usage x).refs = 0 := by
  have account := l.sets_up.accounted fun kind =>
    l.counted x (l.tears_down.component? (l.sets_up.valid Machine.valid_empty) kind)
  obtain ⟨-, none_given⟩ := l.sets_up.untouched l.setup_releases
  have absent : e ∉ l.ready.world.journal := by
    have released := account.released
    have drops := l.ready.world.count_dropped_le x 0
    rw [World.times_releases, none_given, List.countP_nil] at released
    apply List.count_eq_zero.mp
    change l.ready.world.count e = 0
    rcases empties with rfl | rfl <;> omega
  obtain ⟨earlier, later, m, first, rest, -, zero, -⟩ :=
    Run.emptied l.sets_up l.tears_down (l.counted x) empties absent noted
  exact (l.sets_up.append first).stays_zero rest (l.counted x) zero (l.acquires_le first x)

/-- What the counter and the journal say in the end. -/
theorem balance (x : NodeId) :
    (l.final.world.usage x).refs = l.acquired x - min (l.acquired x) (l.released x) ∧
      l.final.world.count (.underflowed x) = l.released x - min (l.acquired x) (l.released x) ∧
      ((l.final.world.usage x).tornDown = true ↔ 1 ≤ l.acquired x ∧ l.acquired x ≤ l.released x) := by
  obtain ⟨refs, released, fired, emptied, reached, late, -⟩ := l.run.accounted (l.counted x)
  rw [l.times_acquires] at refs
  rw [l.times_releases] at released
  rw [no_tasks l.none_releasing, List.countP_nil] at emptied
  have under : 0 < l.final.world.count (.underflowed x) → (l.final.world.usage x).refs = 0 :=
    fun some_underflow => l.refs_zero (.inl rfl) (List.count_pos_iff.mp some_underflow)
  have dropped : 0 < l.final.world.count (.dropped x 0) → (l.final.world.usage x).refs = 0 :=
    fun some_drop => l.refs_zero (.inr rfl) (List.count_pos_iff.mp some_drop)
  have drops := l.final.world.count_dropped_le x 0
  refine ⟨by omega, by omega, ?_⟩
  constructor
  · intro torn
    rw [torn, Bool.toNat_true] at fired
    omega
  · rintro ⟨some_acquired, enough⟩
    have some_drop := reached (by omega) (by omega)
    by_cases again : 0 < l.final.world.count (.releasedLate x)
    · exact late again
    · cases torn : (l.final.world.usage x).tornDown with
      | true => rfl
      | false =>
        rw [torn, Bool.toNat_false] at fired
        omega

/-- Another lifecycle of the same graph, whose calls ask for the same in some order and grouping of their own. -/
structure Alike {env' : Environment} (l' : Lifecycle env') : Prop where
  graph : l'.final.world.component? = l.final.world.component?
  acquires : ∀ x, (l'.setup.flatMap Move.acquires).countP (·.2 == x) =
    (l.setup.flatMap Move.acquires).countP (·.2 == x)
  releases : ∀ x, (l'.releases.flatMap Move.releases).countP (·.2 == x) =
    (l.releases.flatMap Move.releases).countP (·.2 == x)

section

variable {l} {env' : Environment} {l' : Lifecycle env'}

theorem Alike.acquired_eq (alike : l.Alike l') (x : NodeId) : l'.acquired x = l.acquired x := by
  rw [acquired, acquired, alike.acquires, World.held_congr alike.graph]

/-- The releases of a node are the same if the guards of all newer nodes are. -/
theorem Alike.released_eq (alike : l.Alike l') {x : NodeId}
    (newer : ∀ y, x < y → (l'.final.world.usage y).tornDown = (l.final.world.usage y).tornDown) :
    l'.released x = l.released x := by
  rw [released, released, alike.releases, World.held_congr alike.graph]
  congr 1
  apply List.countP_congr
  intro r held
  by_cases here : r.2 = x
  · obtain ⟨y, -, mine⟩ := List.mem_flatMap.mp held
    have older : r.2 < y := by
      unfold World.holds at mine
      cases kind : l.final.world.component? y with
      | none =>
        rw [kind] at mine
        cases mine
      | some c =>
        rw [kind] at mine
        exact (l.run.valid Machine.valid_empty).acyclic y c kind r mine
    rw [World.holds_owner mine, Option.any_some, Option.any_some, newer y (here ▸ older)]
  · simp [here]

theorem Alike.tornDown_eq (alike : l.Alike l') (x : NodeId) :
    (l'.final.world.usage x).tornDown = (l.final.world.usage x).tornDown := by
  -- Down from the newest node: the distance to the end of the graph grows.
  generalize distance : l.final.world.nodes.length - x = n
  induction n using Nat.strongRecOn generalizing x with
  | ind n ih =>
    have newer : ∀ y, x < y → (l'.final.world.usage y).tornDown = (l.final.world.usage y).tornDown := by
      intro y less
      by_cases made : x < l.final.world.nodes.length
      · have nearer := Nat.sub_lt_sub_left made less
        exact ih (l.final.world.nodes.length - y) (distance ▸ nearer) y rfl
      · have unmade : ∀ w : World, w.component? = l.final.world.component? → w.usage y = {} := by
          intro w same
          have beyond : w.nodes.length ≤ y := by
            rw [World.length_of_component? same]
            exact Nat.le_trans (Nat.le_of_not_lt made) (Nat.le_of_lt less)
          simp [World.usage, World.usage?, List.getElem?_eq_none beyond]
        rw [unmade _ alike.graph, unmade _ rfl]
    apply Bool.eq_iff_iff.mpr
    rw [(l'.balance x).2.2, (l.balance x).2.2, alike.acquired_eq, alike.released_eq newer]

theorem Alike.usage_eq (alike : l.Alike l') (x : NodeId) :
    l'.final.world.usage x = l.final.world.usage x ∧
      l'.final.world.count (.underflowed x) = l.final.world.count (.underflowed x) := by
  have released := alike.released_eq (x := x) fun y _ => alike.tornDown_eq y
  have torn := alike.tornDown_eq x
  obtain ⟨refs, under, -⟩ := l.balance x
  obtain ⟨refs', under', -⟩ := l'.balance x
  rw [alike.acquired_eq, released] at refs' under'
  refine ⟨?_, under'.trans under.symm⟩
  cases usage : l.final.world.usage x with
  | mk r t =>
    cases usage' : l'.final.world.usage x with
    | mk r' t' =>
      rw [usage] at refs torn
      rw [usage'] at refs' torn
      cases refs'.trans refs.symm
      cases torn
      rfl

end

/-- How a lifecycle ends, whatever user code does and however the calls interleave: a node is torn down if it was
acquired and was released at least as often, its teardown was begun once then and not otherwise, and what was
released too often underflowed. Any other lifecycle of the graph with the same requests ends in the same way. -/
theorem outcome_of_requests {x : NodeId} {c : Component} (kind : l.final.world.component? x = some c) :
    ((l.final.world.usage x).tornDown = true ↔ 1 ≤ l.acquired x ∧ l.acquired x ≤ l.released x) ∧
    (l.final.world.usage x).refs = l.acquired x - min (l.acquired x) (l.released x) ∧
    l.final.world.count (.tornDown x) = (if (l.final.world.usage x).tornDown then 1 else 0) ∧
    l.final.world.count (c.opening x) = (if (l.final.world.usage x).tornDown then 1 else 0) ∧
    l.final.world.count (.underflowed x) = l.released x - min (l.acquired x) (l.released x) ∧
    ∀ env' (l' : Lifecycle env'), l.Alike l' → l'.final.world.usage x = l.final.world.usage x := by
  obtain ⟨refs, under, torn⟩ := l.balance x
  obtain ⟨account, opened⟩ := l.run.account kind (l.components kind).1
  have started : l.final.world.count (.tornDown x) = (if (l.final.world.usage x).tornDown then 1 else 0) := by
    rw [account.fired]
    cases (l.final.world.usage x).tornDown <;> rfl
  exact ⟨torn, refs, started, opened.trans started, under, fun env' l' alike => (alike.usage_eq x).1⟩

/-- Every teardown fails, and every hook panics. -/
def unlucky : Environment := .uniform fun k =>
  match k.duty with
  | .teardown => { failure := some (.failed "out of order") }
  | .hook => { panic := some (.fixed "gone") }
  | .report => {}

/-- A leaf that only its wrapper holds is released by an outsider as well. -/
noncomputable def overreleased : Lifecycle unlucky where
  setup := [.build .leaf, .build (.hooked 0), .call (.acquire 1), .run 0 [], .run 0 [], .finish 0]
  ready := _
  releases := [.call (.releaseAll [1, 0] {}), .run 1 [0], .run 1 [1], .run 1 [0], .run 1 [0], .run 1 [0],
    .run 1 [0], .run 1 [0], .run 1 [0], .run 1 [0], .run 1 [1], .run 1 [0], .run 1 [1], .run 1 [], .finish 1]
  final := _
  sets_up := .of_foldlM rfl
  setting_up := by decide
  none_acquiring := rfl
  tears_down := .of_foldlM rfl
  releasing := by decide
  none_releasing := rfl

theorem outcome_of_requests_overreleased :
    (overreleased.final.world.usage 0).tornDown = true ∧
      overreleased.final.world.count (.underflowed 0) = 1 := by
  obtain ⟨torn, -, -, -, underflows, -⟩ := outcome_of_requests overreleased (x := 0) (c := .leaf) rfl
  exact ⟨torn.mpr ⟨by decide, by decide⟩, underflows.trans (by decide)⟩

end Lifecycle

end MetricPipeline
