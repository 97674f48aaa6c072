import MetricPipeline.Proofs.Transcript

/-!
# Routing

The way of a report through the graph depends on its name alone (`World.Chain`): through wrappers as it is, and at
each router on to the node kept under the name, until a node receives it or a router has no route. It is the same
whatever becomes of the nodes, and a call that reports does what the way prescribes and nothing else
(`Machine.Run.routed`): `script` is what it writes, in order, and no node is changed by it.
-/

namespace MetricPipeline

/-- The node that receives a report, or the router that has no route for it. -/
inductive Destination where
  | receiver (node : NodeId)
  | unrouted (router : NodeId)
  deriving DecidableEq, Repr

/-- The nodes that a report with the name is handed to, one after another, and where that ends. -/
inductive World.Chain (w : World) (name : String) : NodeId → List NodeId → Destination → Prop
  | receive {x c} (kind : w.component? x = some c) (receiver : c.isReceiver = true) : Chain w name x [x] (.receiver x)
  | forward {x below nodes goal} (kind : w.component? x = some (.hooked below))
      (rest : Chain w name below nodes goal) : Chain w name x (x :: nodes) goal
  | route {x routes config y nodes goal} (kind : w.component? x = some (.router routes config))
      (found : routes.get? name = some y) (rest : Chain w name y nodes goal) : Chain w name x (x :: nodes) goal
  | miss {x routes config} (kind : w.component? x = some (.router routes config))
      (missing : routes.get? name = none) : Chain w name x [x] (.unrouted x)

namespace Destination

def outcome (env : Work → Behaviour) (name : String) : Destination → Outcome
  | receiver y => (env ⟨y, .report⟩).outcome
  | unrouted _ => .failed (.single (.unknownMetric name))

/-- What the receiver waits for. -/
def gate? (env : Work → Behaviour) : Destination → Option Gate
  | receiver y => (env ⟨y, .report⟩).wait
  | unrouted _ => none

/-- What is written at the end of the way. -/
def script (env : Work → Behaviour) (name : String) : Destination → List Entry
  | receiver y =>
    .began ⟨y, .report⟩ :: ((if (env ⟨y, .report⟩).wait.isSome then [.resumed ⟨y, .report⟩] else []) ++
      [.finished ⟨y, .report⟩ (env ⟨y, .report⟩).outcome])
  | unrouted x => [.unrouted x name]

end Destination

/-- All that a report writes on its way, in order. -/
def Report.script (env : Work → Behaviour) (r : Report) (nodes : List NodeId) (goal : Destination) : List Entry :=
  nodes.map (.handed · r) ++ goal.script env r.name

namespace World.Chain

variable {w w' : World} {name : String} {x y : NodeId} {nodes nodes' : List NodeId} {goal goal' : Destination}
  {c : Component}

/-- What a node is decides how the way goes on from it. -/
theorem onward (h : w.Chain name x nodes goal) (kind : w.component? x = some c) :
    match c with
    | .leaf | .uncounted | .sink _ => nodes = [x] ∧ goal = .receiver x
    | .hooked below => ∃ rest, nodes = x :: rest ∧ w.Chain name below rest goal
    | .router routes _ => match routes.get? name with
      | some y => ∃ rest, nodes = x :: rest ∧ w.Chain name y rest goal
      | none => nodes = [x] ∧ goal = .unrouted x := by
  cases h with
  | receive kind' receiver =>
    rw [kind] at kind'
    cases kind'
    cases c with
    | leaf | uncounted | sink => exact ⟨rfl, rfl⟩
    | hooked | router => cases receiver
  | forward kind' rest =>
    rw [kind] at kind'
    cases kind'
    exact ⟨_, rfl, rest⟩
  | route kind' found rest =>
    rw [kind] at kind'
    cases kind'
    simp only [found]
    exact ⟨_, rfl, rest⟩
  | miss kind' missing =>
    rw [kind] at kind'
    cases kind'
    simp only [missing, and_self]

theorem unique (h : w.Chain name x nodes goal) (h' : w.Chain name x nodes' goal') : nodes' = nodes ∧ goal' = goal := by
  induction h generalizing nodes' with
  | @receive x c kind receiver =>
    have onward := h'.onward kind
    cases c with
    | leaf | uncounted | sink => exact onward
    | hooked | router => cases receiver
  | forward kind _ ih =>
    obtain ⟨rest, rfl, further⟩ := h'.onward kind
    obtain ⟨rfl, rfl⟩ := ih further
    exact ⟨rfl, rfl⟩
  | route kind found _ ih =>
    have onward := h'.onward kind
    simp only [found] at onward
    obtain ⟨rest, rfl, further⟩ := onward
    obtain ⟨rfl, rfl⟩ := ih further
    exact ⟨rfl, rfl⟩
  | miss kind missing =>
    have onward := h'.onward kind
    simpa only [missing] using onward

theorem made (h : w.Chain name x nodes goal) : ∃ c, w.component? x = some c := by
  cases h with
  | receive kind | forward kind | route kind | miss kind => exact ⟨_, kind⟩

theorem mono (extends_ : ∀ x c, w.component? x = some c → w'.component? x = some c)
    (h : w.Chain name x nodes goal) : w'.Chain name x nodes goal := by
  induction h with
  | receive kind receiver => exact .receive (extends_ _ _ kind) receiver
  | forward kind _ ih => exact .forward (extends_ _ _ kind) ih
  | route kind found _ ih => exact .route (extends_ _ _ kind) found ih
  | miss kind missing => exact .miss (extends_ _ _ kind) missing

/-- No node receives a report but the one at the end of its way. -/
theorem count_receiver (h : w.Chain name x nodes goal) (kind : w.component? y = some c)
    (receiver : c.isReceiver = true) : nodes.count y = if goal = .receiver y then 1 else 0 := by
  have apart : ∀ {x d}, w.component? x = some d → d.isReceiver = false → (x == y) = false := by
    intro x d kind' other
    refine beq_eq_false_iff_ne.mpr fun same => ?_
    rw [same, kind] at kind'
    cases kind'
    rw [receiver] at other
    cases other
  induction h with
  | @receive x => by_cases same : x = y <;> simp [same]
  | forward kind' _ ih | route kind' _ _ ih => simp [List.count_cons, apart kind' rfl, ih]
  | miss kind' => simp [List.count_cons, apart kind' rfl]

end World.Chain

theorem World.Acyclic.chain {w : World} (acyclic : w.Acyclic) (name : String) (x : NodeId)
    (made : (w.component? x).isSome = true) : ∃ nodes goal, w.Chain name x nodes goal := by
  induction x using Nat.strongRecOn with
  | ind x ih =>
    obtain ⟨c, kind⟩ := Option.isSome_iff_exists.mp made
    have known := acyclic.known kind
    have earlier := acyclic x c kind
    cases c with
    | leaf | uncounted | sink => exact ⟨_, _, .receive kind rfl⟩
    | hooked below =>
      have held : ((.wrapper x, below) : Reference) ∈ (Component.hooked below).holds x := List.mem_singleton_self _
      obtain ⟨nodes, goal, rest⟩ := ih below (earlier _ held) (known _ held)
      exact ⟨_, _, .forward kind rest⟩
    | router routes config =>
      cases found : routes.get? name with
      | none => exact ⟨_, _, .miss kind found⟩
      | some y =>
        have held : (.route x name, y) ∈ (Component.router routes config).holds x := Component.mem_holds_router.mpr found
        obtain ⟨nodes, goal, rest⟩ := ih y (earlier _ held) (known _ held)
        exact ⟨_, _, .route kind found rest⟩

namespace Report

variable {env : Work → Behaviour} {r : Report} {nodes : List NodeId} {goal : Destination}

/-- Of all nodes that receive reports only the one at the end is handed a report, once, and it is the report that was
sent. -/
theorem count_script {w : World} {x y : NodeId} {c : Component} (chain : w.Chain r.name x nodes goal)
    (kind : w.component? y = some c) (receiver : c.isReceiver = true) (s : Report) :
    (r.script env nodes goal).count (.handed y s) = if goal = .receiver y ∧ s = r then 1 else 0 := by
  have handed : (nodes.map (Entry.handed · r)).count (.handed y s) = if s = r then nodes.count y else 0 := by
    clear chain
    induction nodes with
    | nil => simp
    | cons z rest ih =>
      rw [List.map_cons, List.count_cons, List.count_cons, ih]
      by_cases same : s = r <;> by_cases here : z = y <;> simp [same, here, Ne.symm]
  have ending : (goal.script env r.name).count (.handed y s) = 0 := by
    cases goal with
    | receiver z => cases gate : (env ⟨z, .report⟩).wait <;> simp [Destination.script, gate]
    | unrouted z => simp [Destination.script]
  rw [script, List.count_append, handed, ending, chain.count_receiver kind receiver]
  by_cases same : s = r <;> simp [same]

end Report

namespace Activity

/-- The task is all that is left of a call that reports, and this is what it has still to write. -/
inductive Reports (w : World) (env : Work → Behaviour) (r : Report) (goal : Destination) : Activity → List Entry → Prop
  | handing {y nodes} (chain : w.Chain r.name y nodes goal) :
      Reports w env r goal (report y r) (r.script env nodes goal)
  | waiting {y gate} (here : goal = .receiver y) (gated : (env ⟨y, .report⟩).wait = some gate) :
      Reports w env r goal (work ⟨y, .report⟩ (some gate) (env ⟨y, .report⟩).outcome)
        [.resumed ⟨y, .report⟩, .finished ⟨y, .report⟩ (env ⟨y, .report⟩).outcome]
  | working {y} (here : goal = .receiver y) :
      Reports w env r goal (work ⟨y, .report⟩ none (env ⟨y, .report⟩).outcome)
        [.finished ⟨y, .report⟩ (env ⟨y, .report⟩).outcome]
  | done : Reports w env r goal (ended (goal.outcome env r.name)) []

section

variable {env : Work → Behaviour} {w w' w₀ : World} {a a' : Activity} {path : Path} {r : Report} {goal : Destination}
  {todo : List Entry}

theorem begin_reports {y : NodeId} (here : goal = .receiver y) (name : String) :
    ∃ todo, goal.script env name = .began ⟨y, .report⟩ :: todo ∧
      Reports w₀ env r goal (work ⟨y, .report⟩ (env ⟨y, .report⟩).wait (env ⟨y, .report⟩).outcome) todo := by
  subst here
  cases gated : (env ⟨y, .report⟩).wait with
  | none => exact ⟨_, by simp [Destination.script, gated], .working rfl⟩
  | some gate => exact ⟨_, by simp [Destination.script, gated], .waiting rfl gated⟩

/-- Each step writes what comes next, and touches no node. -/
theorem Reports.step {env : Surroundings} (due : Reports w₀ (env.behaviour []) r goal a todo)
    (h : Step w env a path w' a') (extends_ : ∀ x c, w₀.component? x = some c → w.component? x = some c) :
    w'.nodes = w.nodes ∧ w'.opened = w.opened ∧ path = [] ∧
      ∃ new todo', w'.journal = new ++ w.journal ∧ todo = new.reverse ++ todo' ∧ new ≠ [] ∧
        Reports w₀ (env.behaviour []) r goal a' todo' := by
  cases due with
  | @handing y nodes chain =>
    obtain ⟨c, kind₀⟩ := chain.made
    have kind := extends_ y c kind₀
    have onward := chain.onward kind₀
    have known : ∀ x, (report y r).node? = some x → (w.component? x).isSome = true := by
      intro x here
      cases here
      simp [kind]
    cases h with
    | act acts =>
      cases act_act known acts with
      | receive kind' receiver =>
        rw [kind] at kind'
        cases kind'
        have here : nodes = [y] ∧ goal = .receiver y := by
          cases c with
          | leaf | uncounted | sink => exact onward
          | hooked | router => cases receiver
        obtain ⟨todo, script, due⟩ := @begin_reports (env.behaviour []) w₀ r goal y here.2 r.name
        refine ⟨rfl, rfl, rfl, [.began ⟨y, .report⟩, .handed y r], todo, rfl, ?_, by simp, due⟩
        simp [Report.script, here.1, script]
      | forward kind' =>
        rw [kind] at kind'
        cases kind'
        obtain ⟨rest, rfl, further⟩ := onward
        exact ⟨rfl, rfl, rfl, [.handed y r], _, rfl, by simp [Report.script], by simp, .handing further⟩
      | route kind' found =>
        rw [kind] at kind'
        cases kind'
        simp only [found] at onward
        obtain ⟨rest, rfl, further⟩ := onward
        exact ⟨rfl, rfl, rfl, [.handed y r], _, rfl, by simp [Report.script], by simp, .handing further⟩
      | unrouted kind' missing =>
        rw [kind] at kind'
        cases kind'
        simp only [missing] at onward
        obtain ⟨rfl, rfl⟩ := onward
        refine ⟨rfl, rfl, rfl, [.unrouted y r.name, .handed y r], [], rfl, ?_, by simp, .done⟩
        simp [Report.script, Destination.script]
  | @waiting y gate here gated =>
    cases h with
    | act acts =>
      obtain ⟨-, resumes⟩ := Option.ite_none_right_eq_some.mp acts
      cases resumes
      exact ⟨rfl, rfl, rfl, [.resumed ⟨y, .report⟩], _, rfl, rfl, by simp, .working here⟩
  | @working y here =>
    cases h with
    | act acts =>
      cases acts
      subst here
      exact ⟨rfl, rfl, rfl, [.finished ⟨y, .report⟩ (env.behaviour [] ⟨y, .report⟩).outcome], [], rfl, rfl,
        by simp, .done⟩
  | done =>
    cases h with
    | act acts => cases acts

/-- Until it has ended it can go on, unless its receiver waits. -/
theorem Reports.acts (due : Reports w₀ env r goal a todo) (unended : ∀ o, a ≠ ended o)
    (opened : ∀ gate, goal.gate? env = some gate → w.isOpen gate = true) :
    a.task? [] = some a ∧ ∃ w' a', act env w a = some (w', a') := by
  cases due with
  | handing | working => exact ⟨rfl, _, _, rfl⟩
  | @waiting y gate here gated =>
    subst here
    exact ⟨rfl, _, _, if_pos (opened gate gated)⟩
  | done => exact absurd rfl (unended _)

theorem Reports.ended {o : Outcome} (due : Reports w₀ env r goal (ended o) todo) :
    o = goal.outcome env r.name ∧ todo = [] := by
  cases due
  exact ⟨rfl, rfl⟩

end

end Activity

namespace Machine

variable {env : Environment} {moves more : List Move} {m m' m₁ : Machine} {id : CallId} {a : Activity} {x : NodeId}
  {r : Report} {nodes : List NodeId} {goal : Destination} {todo : List Entry} {w₀ : World}

/-- What a call that reports has written and what it has still to write is what the way prescribes. -/
theorem Run.reporting (run : Run env m moves m') (valid : m.Valid) (found : m.activity? id = some (.report x r))
    (chain : m.world.Chain r.name x nodes goal) :
    (∀ a, m'.activity? id = some a → ∃ todo, a.Reports m.world ((env id).behaviour []) r goal todo ∧
      (written env id m moves).reverse ++ todo = r.script ((env id).behaviour []) nodes goal) ∧
    (m'.activity? id = none → .cancel id ∉ moves →
      (written env id m moves).reverse = r.script ((env id).behaviour []) nodes goal) := by
  obtain ⟨ongoing, returned⟩ := run.recorded valid found (P := fun entries a => ∃ todo,
    a.Reports m.world ((env id).behaviour []) r goal todo ∧
      entries.reverse ++ todo = r.script ((env id).behaviour []) nodes goal)
    ⟨_, .handing chain, rfl⟩ (by
      rintro m₁ m₂ a a' path new entries - extends_ moved - journal ⟨todo, due, script⟩
      obtain ⟨-, -, -, new', todo', journal', rfl, -, due'⟩ := due.step moved extends_
      cases List.append_cancel_right (journal.symm.trans journal')
      exact ⟨todo', due', by simpa using script⟩)
  refine ⟨ongoing, fun gone uncancelled => ?_⟩
  obtain ⟨o, todo, due, script⟩ := returned gone uncancelled
  obtain ⟨-, rfl⟩ := due.ended
  simpa using script

/-- A call that reports gets to its end by itself, once its receiver waits no more. -/
theorem Valid.delivers (valid : m.Valid) (found : m.activity? id = some a)
    (due : a.Reports w₀ ((env id).behaviour []) r goal todo)
    (extends_ : ∀ x c, w₀.component? x = some c → m.world.component? x = some c)
    (opened : ∀ gate, goal.gate? ((env id).behaviour []) = some gate → m.world.isOpen gate = true) :
    ∃ n m', Run env m (.replicate n (.run id [])) m' ∧
      m'.activity? id = some (.ended (goal.outcome ((env id).behaviour []) r.name)) := by
  induction length : todo.length using Nat.strongRecOn generalizing m a todo with
  | ind n ih =>
    by_cases ended : ∃ o, a = .ended o
    · obtain ⟨o, rfl⟩ := ended
      obtain ⟨rfl, -⟩ := due.ended
      exact ⟨0, m, .start, found⟩
    obtain ⟨task, w', t, acts⟩ := due.acts (fun o e => ended ⟨o, e⟩) opened
    have here : m.task? id [] = some a := by rw [task?, found, Option.bind_some, task]
    obtain ⟨m₁, step, -⟩ := valid.step?_of_task? here acts
    cases valid.callChange step id with
    | stays apart => exact absurd rfl apart
    | @steps path a₁ a₂ old new moved =>
      rw [found] at old
      cases old
      obtain ⟨-, gates, -, entries, todo', -, rfl, some_entry, due'⟩ := due.step moved extends_
      have shorter : todo'.length < n := by
        have := List.length_pos_iff.mpr some_entry
        rw [← length, List.length_append, List.length_reverse]
        omega
      obtain ⟨k, m', further, closed⟩ := ih todo'.length shorter (valid.step step) new due'
        (fun x c kind => (valid.change step).component? (extends_ x c kind))
        (fun gate wait => by rw [World.isOpen, gates]; exact opened gate wait) rfl
      exact ⟨k + 1, m', (Run.start.next step).append further, closed⟩

/-- A report goes the one way that its name prescribes from the node it is sent to, whatever state the nodes are in.
It is handed to no receiver but the one at the end of the way, to that once and as it was sent, and the call ends as
that receiver does; or there is no receiver at the end, and the call fails with the name. No step of it changes a
node, and once the receiver waits no more the call gets to its end by steps of its own. -/
theorem Run.routed (run : Run env {} moves m) (made : (m.world.component? x).isSome = true) (name : String) :
    ∃ nodes goal, m.world.Chain name x nodes goal ∧
      (∀ nodes' goal', m.world.Chain name x nodes' goal' → nodes' = nodes ∧ goal' = goal) ∧
      ∀ r : Report, r.name = name →
        (∀ y c s, m.world.component? y = some c → c.isReceiver = true →
          (r.script ((env m.next).behaviour []) nodes goal).count (.handed y s) =
            if goal = .receiver y ∧ s = r then 1 else 0) ∧
        ∃ m₁, m.step? env (.call (.report x r)) = some m₁ ∧ ∀ more m', Run env m₁ more m' →
          (∀ a, m'.activity? m.next = some a →
            (written env m.next m₁ more).reverse <+: r.script ((env m.next).behaviour []) nodes goal ∧
            (∀ path m'', m'.step? env (.run m.next path) = some m'' → m''.world.nodes = m'.world.nodes) ∧
            ((∀ gate, goal.gate? ((env m.next).behaviour []) = some gate → m'.world.isOpen gate = true) →
              ∃ n m'', Run env m' (.replicate n (.run m.next [])) m'' ∧
                m''.activity? m.next = some (.ended (goal.outcome ((env m.next).behaviour []) name)))) ∧
          ((∀ a, m'.activity? m.next = some a → ∃ o, a = .ended o) → .cancel m.next ∉ more →
            (written env m.next m₁ more).reverse = r.script ((env m.next).behaviour []) nodes goal ∧
            ∀ o, m'.activity? m.next = some (.ended o) → o = goal.outcome ((env m.next).behaviour []) name) := by
  have valid := run.valid valid_empty
  obtain ⟨nodes, goal, chain⟩ := valid.acyclic.chain name x made
  refine ⟨nodes, goal, chain, fun nodes' goal' chain' => chain.unique chain', ?_⟩
  rintro r rfl
  refine ⟨fun y c s kind receiver => r.count_script chain kind receiver s, ?_⟩
  have accepted : ∃ m₁, m.step? env (.call (.report x r)) = some m₁ := by
    have known : x < m.world.nodes.length := (m.world.component?_isSome x).mp made
    exact ⟨_, if_pos (by simpa [Request.nodes] using known)⟩
  obtain ⟨m₁, step⟩ := accepted
  obtain ⟨found, world⟩ := valid.called step
  have valid₁ := valid.step step
  refine ⟨m₁, step, fun more m' further => ?_⟩
  obtain ⟨ongoing, returned⟩ := further.reporting valid₁ found (world ▸ chain)
  have extends_ : ∀ x c, m₁.world.component? x = some c → m'.world.component? x = some c :=
    fun x c kind => further.component? valid₁ kind
  refine ⟨fun a under_way => ?_, fun closed uncancelled => ?_⟩
  · obtain ⟨todo, due, script⟩ := ongoing a under_way
    refine ⟨⟨todo, script⟩, fun path m'' own => ?_, (further.valid valid₁).delivers under_way due extends_⟩
    cases (further.valid valid₁).callChange own m.next with
    | stays apart => exact absurd rfl apart
    | steps old _ moved =>
      rw [under_way] at old
      cases old
      exact (due.step moved extends_).1
  · cases now : m'.activity? m.next with
    | none => exact ⟨returned now uncancelled, fun o found => by cases found⟩
    | some a =>
      obtain ⟨o, rfl⟩ := closed a now
      obtain ⟨todo, due, script⟩ := ongoing _ now
      obtain ⟨rfl, rfl⟩ := due.ended
      refine ⟨by simpa using script, fun o found => ?_⟩
      cases found
      rfl

/-- Leaves take no reports. -/
def refusing : Environment := .uniform fun k => if k.duty = .report then { failure := some (.failed "full") } else {}

/-- A router over a wrapper over a router over two leaves, acquired once and released, so that all of them are torn
down. -/
def spent : List Move :=
  [.build .leaf, .build .leaf, .build (.router (.ofList [("a", 0), ("b", 1)]) ⟨0⟩), .build (.hooked 2),
    .build (.router (.ofList [("b", 3), ("c", 3)]) ⟨1⟩), .call (.acquire 4), .run 0 [], .run 0 [],
    .call (.release 4)] ++ .replicate 2 (.run 1 []) ++ .replicate 3 (.run 1 [0]) ++ .replicate 6 (.run 1 [1]) ++
    .replicate 5 (.run 1 [1, 0]) ++ .replicate 5 (.run 1 [1, 1]) ++ .replicate 3 (.run 1 [1]) ++ [.run 1 []]

def sample (name : String) : Report := .new .epoch name (.int 1)

theorem routed_after_teardown :
    ∃ m, Run refusing {} spent m ∧ (m.world.usage 1).tornDown = true ∧
      (∃ m₁ n m', m.step? refusing (.call (.report 4 (sample "b"))) = some m₁ ∧
        Run refusing m₁ (.replicate n (.run 2 [])) m' ∧ m'.activity? 2 = some (.ended (.failed (.failed "full"))) ∧
        (written refusing 2 m₁ (.replicate n (.run 2 []))).reverse =
          [.handed 4 (sample "b"), .handed 3 (sample "b"), .handed 2 (sample "b"), .handed 1 (sample "b"),
            .began ⟨1, .report⟩, .finished ⟨1, .report⟩ (.failed (.failed "full"))]) ∧
      ∃ m₁ n m', m.step? refusing (.call (.report 4 (sample "c"))) = some m₁ ∧
        Run refusing m₁ (.replicate n (.run 2 [])) m' ∧
        m'.activity? 2 = some (.ended (.failed (.single (.unknownMetric "c")))) := by
  obtain ⟨m, run, torn, made, next, top, wrapper, inner, leaf⟩ : ∃ m, Run refusing {} spent m ∧
      (m.world.usage 1).tornDown = true ∧ (m.world.component? 4).isSome = true ∧ m.next = 2 ∧
      m.world.component? 4 = some (.router (.ofList [("b", 3), ("c", 3)]) ⟨1⟩) ∧
      m.world.component? 3 = some (.hooked 2) ∧
      m.world.component? 2 = some (.router (.ofList [("a", 0), ("b", 1)]) ⟨0⟩) ∧ m.world.component? 1 = some .leaf :=
    ⟨_, .of_foldlM rfl, rfl, rfl, rfl, rfl, rfl, rfl, rfl⟩
  have reached : m.world.Chain "b" 4 [4, 3, 2, 1] (.receiver 1) :=
    .route top rfl (.forward wrapper (.route inner rfl (.receive leaf rfl)))
  have missed : m.world.Chain "c" 4 [4, 3, 2] (.unrouted 2) :=
    .route top rfl (.forward wrapper (.miss inner rfl))
  have valid := run.valid valid_empty
  have uncancelled : ∀ n, .cancel 2 ∉ List.replicate n (Move.run 2 []) := fun n => by simp [List.mem_replicate]
  refine ⟨m, run, torn, ?_, ?_⟩
  · obtain ⟨nodes, goal, -, unique, reports⟩ := Run.routed run made "b"
    obtain ⟨rfl, rfl⟩ := unique _ _ reached
    obtain ⟨-, m₁, step, goes⟩ := reports (sample "b") rfl
    have found := (valid.called step).1
    rw [next] at goes found
    obtain ⟨-, -, delivers⟩ := (goes [] m₁ .start).1 _ found
    obtain ⟨n, m', further, closed⟩ := delivers fun gate wait => by cases wait
    refine ⟨m₁, n, m', step, further, closed, ?_⟩
    exact ((goes _ m' further).2 (fun a now => ⟨_, (Option.some.inj (closed.symm.trans now)).symm⟩) (uncancelled n)).1
  · obtain ⟨nodes, goal, -, unique, reports⟩ := Run.routed run made "c"
    obtain ⟨rfl, rfl⟩ := unique _ _ missed
    obtain ⟨-, m₁, step, goes⟩ := reports (sample "c") rfl
    have found := (valid.called step).1
    rw [next] at goes found
    obtain ⟨-, -, delivers⟩ := (goes [] m₁ .start).1 _ found
    obtain ⟨n, m', further, closed⟩ := delivers fun gate wait => by cases wait
    exact ⟨m₁, n, m', step, further, closed⟩

end Machine

end MetricPipeline
