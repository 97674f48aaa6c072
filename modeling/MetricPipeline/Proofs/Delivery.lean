import MetricPipeline.Census
import MetricPipeline.Proofs.Routing
import MetricPipeline.Proofs.Termination

/-!
# Deliveries

A report that was sent has been handed to the receiver at the end of its way or is still on it: none is lost on the
way and none is made there (`Machine.Valid.delivered`). `World.destination?` finds that receiver.
-/

namespace MetricPipeline

namespace World

/-- Where a report with the name gets to from a node, if it takes no more steps than that. -/
def follow (w : World) (name : String) : Nat → NodeId → Option Destination
  | 0, _ => none
  | steps + 1, x =>
    match w.component? x with
    | some .leaf | some .uncounted | some (.sink _) => some (.receiver x)
    | some (.hooked below) => follow w name steps below
    | some (.router routes _) =>
      match routes.get? name with
      | some y => follow w name steps y
      | none => some (.unrouted x)
    | none => none

/-- Where a report with the name ends up that is sent to the node: no way is longer than the number of nodes made
before its first. -/
def destination? (w : World) (name : String) (x : NodeId) : Option Destination := w.follow name (x + 1) x

/-- The report is for this receiver. -/
def leadsTo (w : World) (y x : NodeId) (r : Report) : Bool := w.destination? r.name x == some (.receiver y)

variable {w w' : World} {name : String} {x y : NodeId} {r : Report}

theorem Chain.destination? {nodes : List NodeId} {goal : Destination} (chain : w.Chain name x nodes goal)
    (acyclic : w.Acyclic) : w.destination? name x = some goal := by
  have enough : ∀ steps, x < steps → w.follow name steps x = some goal := by
    induction chain with
    | @receive x c kind receiver =>
      intro steps more
      obtain ⟨n, rfl⟩ := Nat.exists_eq_add_one_of_ne_zero (Nat.ne_zero_of_lt more)
      simp only [follow, kind]
      cases c with
      | leaf | uncounted | sink => rfl
      | hooked | router => cases receiver
    | @forward x below nodes goal kind _ ih =>
      intro steps more
      obtain ⟨n, rfl⟩ := Nat.exists_eq_add_one_of_ne_zero (Nat.ne_zero_of_lt more)
      have earlier : below < x := acyclic x _ kind _ (List.mem_singleton_self _)
      simp only [follow, kind]
      exact ih n (Nat.lt_of_lt_of_le earlier (Nat.le_of_lt_succ more))
    | @route x routes config y nodes goal kind found _ ih =>
      intro steps more
      obtain ⟨n, rfl⟩ := Nat.exists_eq_add_one_of_ne_zero (Nat.ne_zero_of_lt more)
      have earlier : y < x := acyclic x _ kind _ (Component.mem_holds_router.mpr found)
      simp only [follow, kind, found]
      exact ih n (Nat.lt_of_lt_of_le earlier (Nat.le_of_lt_succ more))
    | @miss x routes config kind missing =>
      intro steps more
      obtain ⟨n, rfl⟩ := Nat.exists_eq_add_one_of_ne_zero (Nat.ne_zero_of_lt more)
      simp only [follow, kind, missing]
  exact enough (x + 1) (Nat.lt_succ_self x)

theorem follow_congr (same : w'.component? = w.component?) (name : String) (steps : Nat) (x : NodeId) :
    w'.follow name steps x = w.follow name steps x := by
  induction steps generalizing x with
  | zero => rfl
  | succ n ih => simp only [follow, same, ih]

theorem leadsTo_congr (same : w'.component? = w.component?) : w'.leadsTo = w.leadsTo := by
  funext y x r
  rw [leadsTo, leadsTo, destination?, destination?, follow_congr same]

theorem leadsTo_of_chain {nodes : List NodeId} {goal : Destination} (chain : w.Chain r.name x nodes goal)
    (acyclic : w.Acyclic) : w.leadsTo y x r = (goal == .receiver y) := by
  rw [leadsTo, chain.destination? acyclic]
  rfl

theorem leadsTo_iff (acyclic : w.Acyclic) (made : (w.component? x).isSome = true) :
    w.leadsTo y x r = true ↔ ∃ nodes, w.Chain r.name x nodes (.receiver y) := by
  obtain ⟨nodes, goal, chain⟩ := acyclic.chain r.name x made
  rw [leadsTo_of_chain chain acyclic, beq_iff_eq]
  constructor
  · rintro rfl
    exact ⟨nodes, chain⟩
  · rintro ⟨nodes', chain'⟩
    exact (chain'.unique chain).2

/-- Nodes made later do not turn a report away. -/
theorem leadsTo_mono (extends_ : ∀ x c, w.component? x = some c → w'.component? x = some c) (acyclic : w.Acyclic)
    (acyclic' : w'.Acyclic) (made : (w.component? x).isSome = true) : w'.leadsTo y x r = w.leadsTo y x r := by
  obtain ⟨nodes, goal, chain⟩ := acyclic.chain r.name x made
  rw [leadsTo_of_chain chain acyclic, leadsTo_of_chain (chain.mono extends_) acyclic']

theorem leadsTo_receiver {c : Component} (acyclic : w.Acyclic) (kind : w.component? x = some c)
    (receiver : c.isReceiver = true) : w.leadsTo y x r = (x == y) := by
  rw [leadsTo_of_chain (.receive kind receiver) acyclic]
  by_cases same : x = y <;> simp [same]

theorem leadsTo_hooked {below : NodeId} (acyclic : w.Acyclic) (kind : w.component? x = some (.hooked below)) :
    w.leadsTo y x r = w.leadsTo y below r := by
  have made := acyclic.known kind _ (List.mem_singleton_self _)
  obtain ⟨nodes, goal, chain⟩ := acyclic.chain r.name below made
  rw [leadsTo_of_chain chain acyclic, leadsTo_of_chain (.forward kind chain) acyclic]

theorem leadsTo_router {routes : Table NodeId} {config : Config} (acyclic : w.Acyclic)
    (kind : w.component? x = some (.router routes config)) :
    w.leadsTo y x r = (routes.get? r.name).any fun z => w.leadsTo y z r := by
  cases found : routes.get? r.name with
  | none =>
    rw [leadsTo_of_chain (.miss kind found) acyclic]
    rfl
  | some z =>
    have made := acyclic.known kind _ (Component.mem_holds_router.mpr found)
    obtain ⟨nodes, goal, chain⟩ := acyclic.chain r.name z made
    rw [leadsTo_of_chain (.route kind found chain) acyclic, Option.any_some, leadsTo_of_chain chain acyclic]

end World

/-- A report of this kind is handed to the node. -/
def Entry.hands (y : NodeId) (p : Report → Bool) : Entry → Bool
  | handed x r => p r && x == y
  | _ => false

theorem Entry.hands_of_acquisition {y : NodeId} {p : Report → Bool} (e : Entry) (acquisition : e.isAcquisition = true) :
    e.hands y p = false := by
  cases e with
  | handed => cases acquisition
  | _ => rfl

theorem World.count_received (w : World) (y : NodeId) (s : Report) :
    (w.received y).count s = w.times (Entry.hands y (· == s)) := by
  unfold received times
  rw [List.filterMap_reverse, List.count_reverse]
  induction w.journal with
  | nil => rfl
  | cons e rest ih =>
    rw [List.filterMap_cons, List.countP_cons, ← ih]
    cases e with
    | handed x r => by_cases here : x = y <;> by_cases same : r = s <;> simp [Entry.hands, here, same]
    | _ => rfl

/-- A report of this kind is on its way to the node. -/
def Activity.carries (w : World) (y : NodeId) (p : Report → Bool) : Activity → Bool
  | report x r => p r && w.leadsTo y x r
  | _ => false

/-- The report that the move sends, and the node it is sent to. -/
def Move.sends : Move → List (NodeId × Report)
  | call (.report x r) => [(x, r)]
  | _ => []

namespace Activity

variable {env : Work → Behaviour} {w w' : World} {t t' : Activity} {y : NodeId} {p : Report → Bool}

theorem carries_of_not_reporting (aside : t.isReporting = false) : t.carries w y p = false := by
  cases t with
  | report => cases aside
  | _ => rfl

theorem countP_carries {ts : List Activity} (aside : ∀ t ∈ ts, t.isReporting = false) :
    ts.countP (carries w y p) = 0 :=
  List.countP_eq_zero.mpr fun t mem => by simp [carries_of_not_reporting (aside t mem)]

/-- A report that is handed on stays on its way, and reaches its receiver once. -/
theorem Act.delivered (h : Act env w t w' t') (acyclic : w.Acyclic)
    (only : ∀ d, w.component? y = some d → d.isReceiver = true) (p : Report → Bool) :
    w'.times (Entry.hands y p) + t'.tasks.countP (carries w y p) =
      w.times (Entry.hands y p) + [t].countP (carries w y p) := by
  have passing : ∀ {x c}, w.component? x = some c → c.isReceiver = false → (x == y) = false := by
    intro x c kind other
    refine beq_eq_false_iff_ne.mpr fun same => ?_
    rw [only c (same ▸ kind)] at other
    cases other
  cases h with
  | receive kind receiver => simp [Entry.hands, carries, tasks, World.leadsTo_receiver acyclic kind receiver]
  | forward kind => simp [Entry.hands, carries, tasks, World.leadsTo_hooked acyclic kind, passing kind rfl]
  | route kind found => simp [Entry.hands, carries, tasks, World.leadsTo_router acyclic kind, found, passing kind rfl]
  | unrouted kind missing =>
    simp [Entry.hands, carries, tasks, World.leadsTo_router acyclic kind, missing, passing kind rfl]
  | inspect =>
    obtain ⟨new, journal, acquisitions⟩ := World.journal_inspect ..
    rw [World.times_of_acquisitions journal acquisitions Entry.hands_of_acquisition]
    simp [carries, tasks]
  | @fire x u c =>
    have quiet : (c.opening x).hands y p = false ∧ (Entry.tornDown x).hands y p = false := by
      cases c <;> exact ⟨rfl, rfl⟩
    rw [countP_carries (undertaking_reporting env c x)]
    simp [quiet, carries]
  | releaseUncounted =>
    rw [countP_carries (undertaking_reporting env .uncounted _)]
    simp [Entry.hands, carries]
  | _ => simp [Entry.hands, carries, tasks]

theorem carries_congr (same : w'.component? = w.component?) : carries w' y p = carries w y p := by
  funext t
  cases t with
  | report => rw [carries, carries, World.leadsTo_congr same]
  | _ => rfl

theorem carries_mono (extends_ : ∀ x c, w.component? x = some c → w'.component? x = some c) (acyclic : w.Acyclic)
    (acyclic' : w'.Acyclic) (sound : t.Sound w) : t.carries w' y p = t.carries w y p := by
  cases t with
  | report x r => rw [carries, carries, World.leadsTo_mono extends_ acyclic acyclic' sound]
  | _ => rfl

end Activity

theorem Request.activity_carries (r : Request) (w : World) (y : NodeId) (p : Report → Bool) :
    r.activity.tasks.countP (Activity.carries w y p) =
      (Move.call r).sends.countP fun e => p e.2 && w.leadsTo y e.1 e.2 := by
  cases r with
  | releaseAll xs config =>
    apply Activity.countP_carries
    intro t mem
    obtain ⟨r, -, rfl⟩ := Activity.mem_tasks_spread mem
    rfl
  | acquire | release => rfl
  | report x r => simp [activity, Activity.tasks, Activity.carries, Move.sends, List.countP_cons]

namespace Machine

variable {env : Environment} {moves : List Move} {m m' : Machine} {y : NodeId}

/-- The reports of this kind that are on their way to the node. -/
def carried (m : Machine) (y : NodeId) (p : Report → Bool) : Nat := m.tasks.countP (Activity.carries m.world y p)

/-- A move hands on what is on its way or sends something new, and loses nothing, unless it drops a call that reports. -/
theorem Valid.delivered {move : Move} (valid : m.Valid) (step : m.step? env move = some m')
    (only : ∀ d, m'.world.component? y = some d → d.isReceiver = true)
    (kept : ∀ id a, move = .cancel id → m.activity? id = some a → ∀ t ∈ a.tasks, t.isReporting = false)
    (p : Report → Bool) :
    m'.world.times (Entry.hands y p) + m'.carried y p = m.world.times (Entry.hands y p) + m.carried y p +
      move.sends.countP fun e => p e.2 && m.world.leadsTo y e.1 e.2 := by
  have extends_ : ∀ x c, m.world.component? x = some c → m'.world.component? x = some c :=
    fun x c kind => (valid.change step).component? kind
  unfold carried
  cases valid.change step with
  | @build c known world tasks =>
    obtain ⟨new, journal, acquisitions⟩ := (m.world.add c).journal_acquireAll (c.holds m.world.nodes.length)
    rw [← world] at journal
    have stays : m.tasks.countP (Activity.carries m'.world y p) = m.tasks.countP (Activity.carries m.world y p) := by
      apply List.countP_congr
      intro t mem
      rw [Activity.carries_mono extends_ valid.acyclic (valid.step step).acyclic (valid.sound t mem)]
    rw [World.times_of_acquisitions journal acquisitions Entry.hands_of_acquisition, tasks, stays]
    rfl
  | @call r known world tasks =>
    rw [world, tasks, List.countP_append, Request.activity_carries]
    omega
  | @act id path t t' before after act _ _ old new =>
    have delivered := act.delivered valid.acyclic (fun d kind => only d (extends_ y d kind)) p
    rw [Activity.carries_congr act.component?, old, new]
    simp only [List.countP_append, List.countP_cons, List.countP_nil, Move.sends] at delivered ⊢
    omega
  | arrange world tasks =>
    obtain world | ⟨q, world⟩ := world
    · rw [world, tasks]
      rfl
    · rw [world, tasks, Activity.carries_congr (World.component?_note ..), World.times_note]
      rfl
  | @openGate gate world tasks =>
    have same : (m.world.openGate gate).component? = m.world.component? := rfl
    rw [world, tasks, Activity.carries_congr same]
    rfl
  | finish world tasks =>
    rw [world, tasks, Activity.carries_congr (World.component?_note ..), World.times_note]
    rfl
  | @cancel id =>
    cases valid.callChange step id with
    | stays apart => exact absurd rfl apart
    | @dropped a found =>
      obtain ⟨before, after, split, without⟩ := valid.without found
      have old : m.tasks = before.flatMap (·.2.tasks) ++ (a.tasks ++ after.flatMap (·.2.tasks)) := by
        simp [tasks, split]
      have new : m'.tasks = before.flatMap (·.2.tasks) ++ after.flatMap (·.2.tasks) := by
        simp [tasks, cancelled_eq step, without]
      have world : m'.world = m.world.note (.cancelled id) := by rw [cancelled_eq step]
      rw [new, old, world, Activity.carries_congr (World.component?_note ..), World.times_note]
      simp only [List.countP_append, Activity.countP_carries (kept id a rfl found)]
      rw [Nat.zero_add]
      rfl

end Machine

end MetricPipeline
