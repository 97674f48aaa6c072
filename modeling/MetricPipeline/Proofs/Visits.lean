import MetricPipeline.Proofs.Delivery

/-!
# Visits

Someone outside the graph comes to a node, sends it reports, one after another, and leaves: a visit is an acquisition,
any number of reports and one release, each begun when the one before has ended. `Visits` are the runs in which all
calls are made by visitors, side by side and in any order; other nodes are built meanwhile, gates open, and releases
may be dropped.

`Attended` is the invariant: each call is waited for by one visitor and does nothing but what that visitor asked for,
and a node was acquired at least as often as it was released or is still held by a visitor.
-/

namespace MetricPipeline

/-- How far a visit has got, and the call that it waits for. -/
inductive Stage where
  | absent
  | arriving (call : CallId)
  | present
  | reporting (call : CallId)
  | leaving (call : CallId)
  | gone
  deriving DecidableEq, Repr

def Stage.call? : Stage → Option CallId
  | arriving id | reporting id | leaving id => some id
  | absent | present | gone => none

/-- Someone who visits a node, with the number of reports sent so far. -/
structure Visitor where
  node : NodeId
  stage : Stage := .absent
  sent : Nat := 0
  deriving DecidableEq, Repr

/-- What visitors do. A report is waited for; a release may be dropped. -/
inductive Visitor.Turn (next : CallId) : Visitor → Move → Visitor → Prop
  | arrive {x n} : Turn next ⟨x, .absent, n⟩ (.call (.acquire x)) ⟨x, .arriving next, n⟩
  | arrived {x id n} : Turn next ⟨x, .arriving id, n⟩ (.finish id) ⟨x, .present, n⟩
  | report {x r n} : Turn next ⟨x, .present, n⟩ (.call (.report x r)) ⟨x, .reporting next, n + 1⟩
  | answered {x id n} : Turn next ⟨x, .reporting id, n⟩ (.finish id) ⟨x, .present, n⟩
  | leave {x n} : Turn next ⟨x, .present, n⟩ (.call (.release x)) ⟨x, .leaving next, n⟩
  | left {x id n} : Turn next ⟨x, .leaving id, n⟩ (.finish id) ⟨x, .gone, n⟩
  | dropped {x id n} : Turn next ⟨x, .leaving id, n⟩ (.cancel id) ⟨x, .gone, n⟩

/-- The move is none of a visitor's: a node is built, a gate opens, or a call takes a step. -/
def Move.isAside : Move → Bool
  | build _ | openGate _ | run _ _ => true
  | call _ | finish _ | cancel _ => false

/-- The runs in which each of the nodes has its visitor, and no one else makes calls. -/
inductive Visits (env : Environment) (nodes : List NodeId) : List Move → Machine → List Visitor → Prop
  | start : Visits env nodes [] {} (nodes.map fun x => { node := x })
  | aside {moves m vs move m'} (visits : Visits env nodes moves m vs) (step : m.step? env move = some m')
      (aside : move.isAside = true) : Visits env nodes (moves ++ [move]) m' vs
  | turn {moves m vs move m' i v v'} (visits : Visits env nodes moves m vs) (step : m.step? env move = some m')
      (here : vs[i]? = some v) (turn : v.Turn m.next move v') : Visits env nodes (moves ++ [move]) m' (vs.set i v')

theorem Visits.run {env : Environment} {nodes : List NodeId} {moves : List Move} {m : Machine} {vs : List Visitor}
    (visits : Visits env nodes moves m vs) : Machine.Run env {} moves m := by
  induction visits with
  | start => exact .start
  | aside _ step _ ih => exact ih.next step
  | turn _ step _ _ ih => exact ih.next step

/-- The visitor after the move, if it is one that the visitor can make. -/
def Visitor.turn? (next : CallId) (v : Visitor) : Move → Option Visitor
  | .call (.acquire x) => if v.stage = .absent ∧ v.node = x then some { v with stage := .arriving next } else none
  | .call (.report x _) =>
    if v.stage = .present ∧ v.node = x then some { v with stage := .reporting next, sent := v.sent + 1 } else none
  | .call (.release x) => if v.stage = .present ∧ v.node = x then some { v with stage := .leaving next } else none
  | .finish id =>
    if v.stage = .arriving id ∨ v.stage = .reporting id then some { v with stage := .present }
    else if v.stage = .leaving id then some { v with stage := .gone } else none
  | .cancel id => if v.stage = .leaving id then some { v with stage := .gone } else none
  | _ => none

theorem Visitor.turn?_turn {next : CallId} {v v' : Visitor} {move : Move} (h : v.turn? next move = some v') :
    v.Turn next move v' := by
  obtain ⟨x, stage, n⟩ := v
  cases move with
  | call request =>
    cases request with
    | acquire | report | release =>
      obtain ⟨⟨rfl, rfl⟩, same⟩ := Option.ite_none_right_eq_some.mp h
      cases same
      constructor
    | releaseAll => cases h
  | finish id =>
    simp only [turn?] at h
    split at h
    · rename_i waits
      cases h
      obtain rfl | rfl := waits <;> constructor
    · obtain ⟨rfl, same⟩ := Option.ite_none_right_eq_some.mp h
      cases same
      constructor
  | cancel id =>
    obtain ⟨rfl, same⟩ := Option.ite_none_right_eq_some.mp h
    cases same
    constructor
  | build | run | openGate => cases h

/-- Makes a move, for the first visitor who can if it is a visitor's. -/
def Visits.step? (env : Environment) (s : Machine × List Visitor) (move : Move) : Option (Machine × List Visitor) :=
  (s.1.step? env move).bind fun m =>
    if move.isAside then some (m, s.2)
    else
      (s.2.findIdx? fun v => (v.turn? s.1.next move).isSome).bind fun i =>
        (s.2[i]?.bind (·.turn? s.1.next move)).map fun v => (m, s.2.set i v)

theorem Visits.of_foldlM {env : Environment} {nodes : List NodeId} {earlier moves : List Move} {m m' : Machine}
    {vs vs' : List Visitor} (visits : Visits env nodes earlier m vs)
    (h : moves.foldlM (Visits.step? env) (m, vs) = some (m', vs')) : Visits env nodes (earlier ++ moves) m' vs' := by
  induction moves generalizing earlier m vs with
  | nil =>
    cases h
    exact (List.append_nil earlier).symm ▸ visits
  | cons move rest ih =>
    obtain ⟨⟨m₁, vs₁⟩, first, more⟩ := Option.bind_eq_some_iff.mp h
    obtain ⟨m₂, step, visitors⟩ := Option.bind_eq_some_iff.mp first
    have next : Visits env nodes (earlier ++ [move]) m₁ vs₁ := by
      split at visitors
      · rename_i aside
        cases visitors
        exact visits.aside step aside
      · obtain ⟨i, -, visitors⟩ := Option.bind_eq_some_iff.mp visitors
        obtain ⟨v, taken, same⟩ := Option.map_eq_some_iff.mp visitors
        obtain ⟨u, here, turn⟩ := Option.bind_eq_some_iff.mp taken
        cases same
        exact visits.turn step here (Visitor.turn?_turn turn)
    have all := ih next more
    rwa [List.append_assoc] at all

/-! ## What the calls of visitors do -/

/-- The node is reached from another by references that are held, as a report may be handed down. -/
inductive World.Under (w : World) (x : NodeId) : NodeId → Prop
  | here : Under w x x
  | held {y r} (above : Under w x y) (holds : r ∈ w.holds y) : Under w x r.2

theorem World.component?_of_holds {w : World} {x : NodeId} {r : Reference} (holds : r ∈ w.holds x) :
    ∃ c, w.component? x = some c ∧ r ∈ c.holds x := by
  unfold World.holds at holds
  cases kind : w.component? x with
  | none =>
    rw [kind] at holds
    cases holds
  | some c => exact ⟨c, rfl, by rwa [kind] at holds⟩

theorem World.Under.mono {w w' : World} {x y : NodeId}
    (extends_ : ∀ x c, w.component? x = some c → w'.component? x = some c) (h : w.Under x y) : w'.Under x y := by
  induction h with
  | here => exact .here
  | held _ holds ih =>
    obtain ⟨c, kind, mine⟩ := World.component?_of_holds holds
    refine ih.held ?_
    rw [World.holds, extends_ _ c kind]
    exact mine

/-- What is reached was made if and only if the node was that it is reached from. -/
theorem World.Under.made_iff {w : World} {x y : NodeId} (acyclic : w.Acyclic) (under : w.Under x y) :
    (w.component? x).isSome = true ↔ (w.component? y).isSome = true := by
  induction under with
  | here => exact Iff.rfl
  | held above holds ih =>
    obtain ⟨c, kind, mine⟩ := World.component?_of_holds holds
    rw [ih, kind, acyclic.known kind _ mine]
    rfl

namespace Activity

section

variable {env : Surroundings} {w w' : World} {a a' : Activity} {path : Path}

theorem Step.component? (h : Step w env a path w' a') (sound : ∀ t ∈ a.tasks, t.Sound w) :
    w'.component? = w.component? := by
  obtain ⟨rfl | ⟨p, rfl⟩, -⟩ | ⟨t, t', before, after, acts, -, -, old, -⟩ := step_cases h
  · rfl
  · exact World.component?_note ..
  · exact (act_act (sound t (by simp [old])).known acts).component?

/-- What holds of the tasks of a call, and of what they turn into, holds after a step. -/
theorem Step.each_task {P : Activity → Prop} (h : Step w env a path w' a') (sound : ∀ t ∈ a.tasks, t.Sound w)
    (holds : ∀ t ∈ a.tasks, P t)
    (acts : ∀ {t t'}, Act (env.behaviour path) w t w' t' → P t → ∀ s ∈ t'.tasks, P s) :
    ∀ t ∈ a'.tasks, P t := by
  intro s mem
  obtain ⟨-, tasks⟩ | ⟨t, t', before, after, acting, -, -, old, new⟩ := step_cases h
  · exact holds s (tasks ▸ mem)
  · have act := act_act (sound t (by simp [old])).known acting
    rw [new] at mem
    simp only [List.mem_append] at mem
    obtain mem | mem | mem := mem
    · exact holds s (by simp [old, mem])
    · exact acts act (holds t (by simp [old])) s mem
    · exact holds s (by simp [old, mem])

end

/-- The task is on its way with a report that was sent to the node. -/
def OnWay (w : World) (x : NodeId) : Activity → Prop
  | report y _ => w.Under x y
  | work k _ _ => k.duty = .report
  | _ => False

/-- The task belongs to a release that has begun. -/
def isInner : Activity → Bool
  | release h _ => h != .outside
  | fire _ => true
  | work k _ _ => k.duty != .report
  | _ => false

def isArrival : Activity → Bool
  | acquire _ _ => true
  | _ => false

def isDeparture : Activity → Bool
  | release .outside _ => true
  | _ => false

section

variable {env : Work → Behaviour} {w w' : World} {a a' t t' : Activity} {path : Path} {x : NodeId}

theorem OnWay.mono (extends_ : ∀ x c, w.component? x = some c → w'.component? x = some c) (h : t.OnWay w x) :
    t.OnWay w' x := by
  cases t with
  | report => exact World.Under.mono extends_ h
  | work => exact h
  | _ => cases h

theorem OnWay.act (h : t.OnWay w x) (acts : Act env w t w' t') : ∀ s ∈ t'.tasks, s.OnWay w x := by
  intro s mem
  cases acts with
  | receive =>
    cases List.mem_singleton.mp mem
    rfl
  | @forward x r below kind =>
    cases List.mem_singleton.mp mem
    have holds : (.wrapper x, below) ∈ w.holds x := by simp [World.holds, kind, Component.holds]
    exact h.held holds
  | @route x r routes config y kind found =>
    cases List.mem_singleton.mp mem
    have mine : (.route x r.name, y) ∈ (Component.router routes config).holds x := Component.mem_holds_router.mpr found
    have holds : (.route x r.name, y) ∈ w.holds x := by rwa [World.holds, kind]
    exact h.held holds
  | resume =>
    cases List.mem_singleton.mp mem
    exact h
  | unrouted | workEnd => cases mem
  | _ => cases h

/-- A release turns into releases inside the graph and the code of hooks and teardowns. -/
theorem Act.inner (acts : Act env w t w' t') (h : t.isInner = true ∨ ∃ x, t = release .outside x) :
    ∀ s ∈ t'.tasks, s.isInner = true := by
  intro s mem
  cases acts with
  | underflow | drop | late | workEnd => cases mem
  | dropLast | releaseUncounted | hookEnd | hookPanic =>
    cases List.mem_singleton.mp mem
    rfl
  | @fire x u c =>
    cases c with
    | leaf | uncounted | hooked =>
      cases List.mem_singleton.mp mem
      rfl
    | sink => cases mem
    | router routes config =>
      obtain ⟨r, held, rfl⟩ := mem_tasks_spread mem
      obtain ⟨e, -, rfl⟩ := List.mem_map.mp held
      rfl
  | resume =>
    cases List.mem_singleton.mp mem
    obtain inner | ⟨_, same⟩ := h
    · exact inner
    · cases same
  | _ =>
    obtain inner | ⟨_, same⟩ := h
    · cases inner
    · cases same

theorem Step.onWay {env : Surroundings} (h : Step w env a path w' a') (sound : ∀ t ∈ a.tasks, t.Sound w)
    (onWay : ∀ t ∈ a.tasks, t.OnWay w x) : ∀ t ∈ a'.tasks, t.OnWay w' x := by
  have same := h.component? sound
  intro s mem
  refine OnWay.mono (fun y c kind => by rw [same, kind]) ?_
  exact h.each_task sound onWay (fun act onWay => onWay.act act) s mem

theorem Step.inner {env : Surroundings} (h : Step w env a path w' a') (sound : ∀ t ∈ a.tasks, t.Sound w)
    (inner : (∀ t ∈ a.tasks, t.isInner = true) ∨ a = release .outside x) : ∀ t ∈ a'.tasks, t.isInner = true := by
  obtain inner | rfl := inner
  · exact h.each_task sound inner fun act inner => act.inner (.inl inner)
  · cases h with
    | act acts =>
      have act := act_act (sound _ (List.mem_singleton_self _)).known acts
      exact act.inner (.inr ⟨x, rfl⟩)

end

end Activity

/-- What a call is doing for the visitor that waits for it. -/
def Visitor.Fits (w : World) (v : Visitor) (a : Activity) : Prop :=
  match v.stage with
  | .arriving _ => a = .acquire .outside v.node ∨ (∃ refs, a = .inspect v.node refs) ∨ a = .ended .ok
  | .reporting _ => ∀ t ∈ a.tasks, t.OnWay w v.node
  | .leaving _ => (∀ t ∈ a.tasks, t.isInner = true) ∨ a = .release .outside v.node
  | .absent | .present | .gone => False

/-- The visitor holds a reference to the node, as far as can be told by what the call is doing that it waits for. -/
def Visitor.isHolding (v : Visitor) (a : Option Activity) : Bool :=
  match v.stage with
  | .absent | .gone => false
  | .present | .reporting _ => true
  | .arriving _ => !a.any Activity.isArrival
  | .leaving _ => a.any Activity.isDeparture

namespace Visitor.Fits

variable {env : Surroundings} {w w' : World} {a a' : Activity} {path : Path} {v : Visitor} {x : NodeId}

theorem step (fits : v.Fits w a) (h : Activity.Step w env a path w' a') (sound : ∀ t ∈ a.tasks, t.Sound w) :
    v.Fits w' a' := by
  obtain ⟨x, stage, n⟩ := v
  cases stage with
  | absent | present | gone => cases fits
  | arriving id =>
    obtain rfl | ⟨refs, rfl⟩ | rfl := fits
    · cases h with
      | act acts =>
        cases Activity.act_act (sound _ (List.mem_singleton_self _)).known acts with
        | acquire => exact .inr (.inl ⟨_, rfl⟩)
        | acquireUncounted => exact .inr (.inr rfl)
    · cases h with
      | act acts =>
        cases acts
        exact .inr (.inr rfl)
    · cases h with
      | act acts => cases acts
  | reporting id => exact h.onWay sound fits
  | leaving id => exact .inl (h.inner sound fits)

theorem mono (extends_ : ∀ x c, w.component? x = some c → w'.component? x = some c) (fits : v.Fits w a) :
    v.Fits w' a := by
  obtain ⟨x, stage, n⟩ := v
  cases stage with
  | reporting id => exact fun t mem => (fits t mem).mono extends_
  | absent | present | gone | arriving | leaving => exact fits

end Visitor.Fits

theorem World.count_relinquished_outside (w : World) (x : NodeId) : w.relinquished.count (.outside, x) = 0 := by
  apply List.count_eq_zero.mpr
  intro mem
  exact World.held_inside (w.relinquished_sublist.subset mem) rfl

namespace Activity

variable {env : Surroundings} {w w' : World} {a a' : Activity} {path : Path}

/-- What a call was to acquire is acquired or still to be. -/
theorem Step.acquired (h : Step w env a path w' a') (sound : ∀ t ∈ a.tasks, t.Sound w) (x : NodeId) :
    w'.count (.acquired .outside x) + (a'.tasks.flatMap sought).count (.outside, x) =
      w.count (.acquired .outside x) + (a.tasks.flatMap sought).count (.outside, x) := by
  rw [World.count_acquired, World.count_acquired]
  obtain ⟨rfl | ⟨p, rfl⟩, tasks⟩ | ⟨t, t', before, after, acts, -, -, old, new⟩ := step_cases h
  · rw [tasks]
  · rw [tasks]
    rfl
  · have act := act_act (sound t (by simp [old])).known acts
    have taken : (t'.tasks.flatMap sought).count (.outside, x) + w'.taken.count (.outside, x) =
        t.sought.count (.outside, x) + w.taken.count (.outside, x) := act.taken _
    rw [old, new]
    simp only [List.flatMap_append, List.flatMap_cons, List.count_append]
    omega

/-- What a call was to release is released or still to be. -/
theorem Step.released (h : Step w env a path w' a') (sound : ∀ t ∈ a.tasks, t.Sound w) (x : NodeId) :
    w'.count (.released .outside x) + (a'.tasks.flatMap (owed w)).count (.outside, x) =
      w.count (.released .outside x) + (a.tasks.flatMap (owed w)).count (.outside, x) := by
  rw [World.count_released, World.count_released]
  obtain ⟨rfl | ⟨p, rfl⟩, tasks⟩ | ⟨t, t', before, after, acts, -, -, old, new⟩ := step_cases h
  · rw [tasks]
  · rw [tasks]
    rfl
  · have sound := sound t (by simp [old])
    have given : (t'.tasks.flatMap (owed w)).count (.outside, x) + w'.given.count (.outside, x) +
        w.relinquished.count (.outside, x) = (t.owed w).count (.outside, x) + w.given.count (.outside, x) +
          w'.relinquished.count (.outside, x) := (act_act sound.known acts).given sound _
    rw [World.count_relinquished_outside, World.count_relinquished_outside] at given
    rw [old, new]
    simp only [List.flatMap_append, List.flatMap_cons, List.count_append]
    omega

theorem flatMap_onWay {x : NodeId} (onWay : ∀ t ∈ a.tasks, t.OnWay w x) :
    a.tasks.flatMap sought = [] ∧ a.tasks.flatMap (owed w) = [] := by
  constructor
  · apply List.flatMap_eq_nil_iff.mpr
    intro t mem
    have onWay := onWay t mem
    cases t with
    | report | work => rfl
    | _ => cases onWay
  · apply List.flatMap_eq_nil_iff.mpr
    intro t mem
    have onWay := onWay t mem
    cases t with
    | report => rfl
    | work k =>
      have aside : k.duty ≠ .hook := by rw [show k.duty = .report from onWay]; decide
      rw [owed_work, if_neg aside]
    | _ => cases onWay

theorem flatMap_inner (inner : ∀ t ∈ a.tasks, t.isInner = true) (x : NodeId) :
    a.tasks.flatMap sought = [] ∧ (a.tasks.flatMap (owed w)).count (.outside, x) = 0 := by
  constructor
  · apply List.flatMap_eq_nil_iff.mpr
    intro t mem
    have inner := inner t mem
    cases t with
    | acquire => cases inner
    | _ => rfl
  · apply List.count_eq_zero.mpr
    intro owes
    obtain ⟨t, mem, mine⟩ := List.mem_flatMap.mp owes
    have inner := inner t mem
    cases t with
    | release h y =>
      cases List.mem_singleton.mp mine
      cases inner
    | work k =>
      rw [owed_work] at mine
      split at mine
      · cases World.holds_owner mine
      · cases mine
    | _ => cases mine

end Activity

/-- What a visitor's call is still to acquire and to release, and whether the visitor holds the node, go together. -/
theorem Visitor.Fits.balance (v : Visitor) (x : NodeId) : ∃ base, ∀ {w a}, v.Fits w a →
    (v.node == x && v.isHolding (some a)).toNat + (a.tasks.flatMap Activity.sought).count (.outside, x) =
      (a.tasks.flatMap (Activity.owed w)).count (.outside, x) + base ∧
    (a.tasks.flatMap (Activity.owed w)).count (.outside, x) ≤ (v.node == x && v.isHolding (some a)).toNat := by
  obtain ⟨y, stage, n⟩ := v
  have single : [((.outside, y) : Reference)].count (.outside, x) = (y == x).toNat := by
    by_cases here : y = x
    · simp [here]
    · rw [beq_eq_false_iff_ne.mpr here]
      simp [here]
  cases stage with
  | absent | present | gone => exact ⟨0, fun fits => by cases fits⟩
  | arriving id =>
    refine ⟨(y == x).toNat, ?_⟩
    rintro w a (rfl | ⟨refs, rfl⟩ | rfl)
    · simp [isHolding, Activity.isArrival, Activity.tasks, Activity.sought, Activity.owed, single]
    · simp [isHolding, Activity.isArrival, Activity.tasks, Activity.sought, Activity.owed]
    · simp [isHolding, Activity.isArrival, Activity.tasks]
  | reporting id =>
    refine ⟨(y == x).toNat, fun fits => ?_⟩
    obtain ⟨sought, owed⟩ := Activity.flatMap_onWay fits
    simp [isHolding, sought, owed]
  | leaving id =>
    refine ⟨0, ?_⟩
    rintro w a (inner | rfl)
    · obtain ⟨sought, owed⟩ := Activity.flatMap_inner (w := w) inner x
      have released : a.isDeparture = false := by
        cases a with
        | release h z =>
          have inner := inner _ (List.mem_singleton_self _)
          cases h with
          | outside => cases inner
          | route | wrapper => rfl
        | _ => rfl
      simp [isHolding, released, sought, owed]
    · simp [isHolding, Activity.isDeparture, Activity.tasks, Activity.sought, Activity.owed, single]

/-- The visitor holds a reference to the node. -/
def Visitor.holds (m : Machine) (x : NodeId) (v : Visitor) : Bool :=
  v.node == x && v.isHolding (v.stage.call?.bind m.activity?)

/-- Every call is waited for by one visitor, and each node was acquired at least as often as it was released or is
still held. -/
structure Attended (m : Machine) (vs : List Visitor) : Prop where
  owned : ∀ id a, m.activity? id = some a → ∃ (i : Nat) (v : Visitor), vs[i]? = some v ∧ v.stage.call? = some id ∧
    v.Fits m.world a
  alone : ∀ (i j : Nat) (u v : Visitor) (id : CallId), vs[i]? = some u → vs[j]? = some v → u.stage.call? = some id →
    v.stage.call? = some id → i = j
  made : ∀ v ∈ vs, ∀ id, v.stage.call? = some id → id < m.next
  balance : ∀ x, m.world.count (.released .outside x) + vs.countP (Visitor.holds m x) ≤
    m.world.count (.acquired .outside x)

theorem countP_eq_sum {α : Type} (p : α → Bool) (xs : List α) : xs.countP p = (xs.map fun x => (p x).toNat).sum := by
  induction xs with
  | nil => rfl
  | cons x rest ih =>
    rw [List.countP_cons, ih, List.map_cons, List.sum_cons]
    cases p x <;> simp [Nat.add_comm]

/-- One summand is replaced, and the others stay as they are. -/
theorem sum_update {α : Type} {xs : List α} {f g : α → Nat} {i : Nat} {old : α} (here : xs[i]? = some old) (new : α)
    (others : ∀ j x, j ≠ i → xs[j]? = some x → g x = f x) :
    ((xs.set i new).map g).sum + f old = (xs.map f).sum + g new := by
  induction xs generalizing i with
  | nil => simp at here
  | cons first rest ih =>
    cases i with
    | zero =>
      cases here
      have same : rest.map g = rest.map f := by
        apply List.map_congr_left
        intro y mem
        obtain ⟨j, there⟩ := List.mem_iff_getElem?.mp mem
        exact others (j + 1) y (by simp) there
      rw [List.set_cons_zero, List.map_cons, List.map_cons, same, List.sum_cons, List.sum_cons]
      omega
    | succ i =>
      have same := others 0 first (by simp) rfl
      have later := ih here fun j y apart there => others (j + 1) y (by simpa using apart) there
      rw [List.set_cons_succ, List.map_cons, List.map_cons, List.sum_cons, List.sum_cons, same]
      omega

section

variable {env : Environment} {nodes : List NodeId} {moves : List Move} {move : Move} {m m' : Machine}
  {vs : List Visitor} {i : Nat} {v v' : Visitor} {id : CallId} {x : NodeId}

theorem Machine.Valid.unmade (valid : m.Valid) : m.activity? m.next = none := by
  cases found : m.activity? m.next with
  | none => rfl
  | some a => exact absurd (valid.made found) (Nat.lt_irrefl _)

/-- A move concerns no call but its target and the one that it begins. -/
theorem Machine.Valid.apart (valid : m.Valid) (step : m.step? env move = some m') (other : move.target? ≠ some id)
    (old : id ≠ m.next) : m'.activity? id = m.activity? id := by
  cases valid.callChange step id with
  | stays _ same => exact same
  | begins fresh => exact absurd fresh old
  | steps | returns | dropped => exact absurd rfl other

theorem Machine.Valid.unbegun (valid : m.Valid) (step : m.step? env move = some m') (other : ∀ r, move ≠ .call r) :
    m'.activity? m.next = none := by
  have none_yet := valid.unmade
  cases valid.callChange step m.next with
  | stays _ same => exact same.trans none_yet
  | begins => exact absurd rfl (other _)
  | steps old | returns old | dropped old =>
    rw [none_yet] at old
    cases old

/-- Only a step of a call is an acquisition or a release by someone outside. -/
theorem Machine.Valid.outside (valid : m.Valid) (step : m.step? env move = some m')
    (still : ∀ id path, move ≠ .run id path) (x : NodeId) :
    m'.world.count (.released .outside x) = m.world.count (.released .outside x) ∧
      m'.world.count (.acquired .outside x) = m.world.count (.acquired .outside x) := by
  cases valid.change step with
  | @build c known world =>
    have none_outside : (c.holds m.world.nodes.length).count (.outside, x) = 0 := by
      apply List.count_eq_zero.mpr
      intro held
      cases Component.holds_owner held
    obtain ⟨new, journal, acquisitions⟩ := (m.world.add c).journal_acquireAll (c.holds m.world.nodes.length)
    rw [← world] at journal
    constructor
    · refine World.times_of_acquisitions (p := (· == .released .outside x)) journal acquisitions fun e entry => ?_
      cases e with
      | released => cases entry
      | _ => rfl
    · rw [World.count_acquired, World.count_acquired, world, World.taken_acquireAll, List.count_append,
        List.count_reverse, none_outside, Nat.zero_add]
      rfl
  | act | arrange => exact absurd rfl (still _ _)
  | call _ world | openGate world | finish world | cancel world =>
    rw [world]
    exact ⟨rfl, rfl⟩

/-- A move that concerns one visitor leaves the others as they are. -/
theorem Attended.next (attended : Attended m vs) (valid : m.Valid) (step : m.step? env move = some m')
    (here : vs[i]? = some v) (mine : ∀ id, move.target? = some id → v.stage.call? = some id)
    (waits : ∀ id, v'.stage.call? = some id → v.stage.call? = some id ∨ id = m.next ∧ m.next < m'.next)
    (owned : ∀ id a, m'.activity? id = some a → v.stage.call? = some id ∨ id = m.next →
      v'.stage.call? = some id ∧ v'.Fits m'.world a)
    (balance : ∀ x, m'.world.count (.released .outside x) + (v'.holds m' x).toNat +
      m.world.count (.acquired .outside x) ≤ m'.world.count (.acquired .outside x) +
        m.world.count (.released .outside x) + (v.holds m x).toNat) : Attended m' (vs.set i v') := by
  have bound : i < vs.length := (List.getElem?_eq_some_iff.mp here).1
  have new : (vs.set i v')[i]? = some v' := List.getElem?_set_self bound
  have kept : ∀ j, j ≠ i → (vs.set i v')[j]? = vs[j]? := fun j ne => List.getElem?_set_ne (Ne.symm ne)
  have same : ∀ j u id, j ≠ i → vs[j]? = some u → u.stage.call? = some id → m'.activity? id = m.activity? id := by
    intro j u id ne there waits
    have old : id ≠ m.next := Nat.ne_of_lt (attended.made u (List.mem_of_getElem? there) id waits)
    exact valid.apart step (fun target => ne (attended.alone j i u v id there here waits (mine id target))) old
  constructor
  · intro id a found
    by_cases own : v.stage.call? = some id ∨ id = m.next
    · obtain ⟨call, fits⟩ := owned id a found own
      exact ⟨i, v', new, call, fits⟩
    · have other : m'.activity? id = m.activity? id :=
        valid.apart step (fun target => own (.inl (mine id target))) fun fresh => own (.inr fresh)
      obtain ⟨j, u, there, call, fits⟩ := attended.owned id a (other ▸ found)
      have ne : j ≠ i := by
        rintro rfl
        rw [here] at there
        cases there
        exact own (.inl call)
      exact ⟨j, u, (kept j ne).trans there, call, fits.mono fun x c kind => (valid.change step).component? kind⟩
  · have apart : ∀ k u id, k ≠ i → vs[k]? = some u → u.stage.call? = some id → v'.stage.call? ≠ some id := by
      intro k u id ne there waiting call
      obtain old | ⟨fresh, -⟩ := waits id call
      · exact ne (attended.alone k i u v id there here waiting old)
      · exact absurd fresh (Nat.ne_of_lt (attended.made u (List.mem_of_getElem? there) id waiting))
    intro j k u u' id first second call call'
    by_cases left : j = i
    · by_cases right : k = i
      · rw [left, right]
      · rw [left, new] at first
        cases first
        exact absurd call (apart k u' id right ((kept k right).symm.trans second) call')
    · by_cases right : k = i
      · rw [right, new] at second
        cases second
        exact absurd call' (apart j u id left ((kept j left).symm.trans first) call)
      · exact attended.alone j k u u' id ((kept j left).symm.trans first) ((kept k right).symm.trans second) call call'
  · intro u mem id call
    have le := Machine.next_le step
    obtain old | rfl := List.mem_or_eq_of_mem_set mem
    · exact Nat.lt_of_lt_of_le (attended.made u old id call) le
    · obtain old | ⟨rfl, less⟩ := waits id call
      · exact Nat.lt_of_lt_of_le (attended.made v (List.mem_of_getElem? here) id old) le
      · exact less
  · intro x
    have others : ∀ j u, j ≠ i → vs[j]? = some u → (u.holds m' x).toNat = (u.holds m x).toNat := by
      intro j u ne there
      unfold Visitor.holds
      cases call : u.stage.call? with
      | none => rfl
      | some id => rw [Option.bind_some, Option.bind_some, same j u id ne there call]
    have update := sum_update here v' others
    have before := attended.balance x
    have now := balance x
    rw [countP_eq_sum] at before ⊢
    omega

/-- A call that begins is the visitor's who waits for it. -/
theorem Attended.begins {r : Request} (attended : Attended m vs) (valid : m.Valid)
    (step : m.step? env (.call r) = some m') (here : vs[i]? = some v) (idle : v.stage.call? = none)
    (node : v'.node = v.node) (waits : v'.stage.call? = some m.next) (fits : v'.Fits m.world r.activity)
    (holding : v'.isHolding (some r.activity) = v.isHolding none) : Attended m' (vs.set i v') := by
  obtain ⟨begun, world⟩ := valid.called step
  have next : m.next < m'.next := (valid.step step).made begun
  refine attended.next valid step here (by simp [Move.target?]) ?_ ?_ ?_
  · intro id call
    rw [waits] at call
    cases call
    exact .inr ⟨rfl, next⟩
  · rintro id a found (old | rfl)
    · rw [idle] at old
      cases old
    · rw [begun] at found
      cases found
      exact ⟨waits, world.symm ▸ fits⟩
  · intro x
    have holds : v'.holds m' x = v.holds m x := by
      simp only [Visitor.holds, node, waits, idle, Option.bind_some, Option.bind_none, begun, holding]
    rw [holds, world]
    omega

/-- A visitor whose call has left waits no more. -/
theorem Attended.ends (attended : Attended m vs) (valid : m.Valid) (step : m.step? env move = some m')
    (closed : move = .finish id ∨ move = .cancel id) (here : vs[i]? = some v) (waits : v.stage.call? = some id)
    (node : v'.node = v.node) (idle : v'.stage.call? = none)
    (holding : v'.isHolding none = true → v.isHolding (m.activity? id) = true) : Attended m' (vs.set i v') := by
  have target : move.target? = some id := by obtain rfl | rfl := closed <;> rfl
  have gone : m'.activity? id = none := by
    obtain rfl | rfl := closed
    · cases valid.callChange step id with
      | stays apart => exact absurd rfl apart
      | returns _ new => exact new
    · cases valid.callChange step id with
      | stays apart => exact absurd rfl apart
      | dropped _ _ new => exact new
  have still : ∀ id path, move ≠ .run id path := by
    rintro other path rfl
    obtain closed | closed := closed <;> cases closed
  refine attended.next valid step here ?_ ?_ ?_ ?_
  · intro other same
    rw [target] at same
    cases same
    exact waits
  · intro other call
    rw [idle] at call
    cases call
  · rintro other a found (old | rfl)
    · rw [waits] at old
      cases old
      rw [gone] at found
      cases found
    · rw [valid.unbegun step (by rintro r rfl; obtain closed | closed := closed <;> cases closed)] at found
      cases found
  · intro x
    obtain ⟨released, acquired⟩ := valid.outside step still x
    have le : (v'.holds m' x).toNat ≤ (v.holds m x).toNat := by
      simp only [Visitor.holds, node, idle, waits, Option.bind_none, Option.bind_some]
      cases held : v'.isHolding none with
      | false => simp
      | true => simp [holding held]
    omega

/-- A step of a call is taken for the visitor who waits for it. -/
theorem Attended.steps {path : Path} (attended : Attended m vs) (valid : m.Valid)
    (step : m.step? env (.run id path) = some m') : Attended m' vs := by
  cases valid.callChange step id with
  | stays apart => exact absurd rfl apart
  | @steps path a a' found found' moved =>
    have sound := valid.sound_call (Machine.mem_calls found)
    obtain ⟨i, v, here, call, fits⟩ := attended.owned id a found
    have fits' := fits.step moved sound
    have same : vs.set i v = vs := by
      obtain ⟨bound, rfl⟩ := List.getElem?_eq_some_iff.mp here
      exact List.set_getElem_self bound
    rw [← same]
    refine attended.next valid step here ?_ (fun id call => .inl call) ?_ ?_
    · intro other target
      cases target
      exact call
    · rintro other b now (waits | rfl)
      · rw [call] at waits
        cases waits
        rw [found'] at now
        cases now
        exact ⟨call, fits'⟩
      · rw [valid.unbegun step (by simp)] at now
        cases now
    · intro x
      obtain ⟨base, balance⟩ := Visitor.Fits.balance v x
      have before := (balance fits).1
      have after := (balance fits').1
      have acquired := moved.acquired sound x
      have released := moved.released sound x
      rw [Activity.owed_congr (moved.component? sound)] at after
      simp only [Visitor.holds, call, Option.bind_some, found, found']
      omega

/-- What has to do with no call concerns no visitor. -/
theorem Attended.aside (attended : Attended m vs) (valid : m.Valid) (step : m.step? env move = some m')
    (aside : (∃ c, move = .build c) ∨ ∃ gate, move = .openGate gate) : Attended m' vs := by
  have same : ∀ id, m'.activity? id = m.activity? id := by
    intro id
    have stays : move.target? = none ∧ ∀ r, move ≠ .call r := by
      obtain ⟨c, rfl⟩ | ⟨gate, rfl⟩ := aside <;> exact ⟨rfl, by simp⟩
    by_cases fresh : id = m.next
    · rw [fresh, valid.unbegun step stays.2, valid.unmade]
    · exact valid.apart step (by simp [stays.1]) fresh
  constructor
  · intro id a found
    obtain ⟨i, v, here, call, fits⟩ := attended.owned id a (same id ▸ found)
    exact ⟨i, v, here, call, fits.mono fun x c kind => (valid.change step).component? kind⟩
  · exact attended.alone
  · exact fun v mem id call => Nat.lt_of_lt_of_le (attended.made v mem id call) (Machine.next_le step)
  · intro x
    have holds : Visitor.holds m' x = Visitor.holds m x := by
      funext v
      unfold Visitor.holds
      cases v.stage.call? with
      | none => rfl
      | some id => rw [Option.bind_some, Option.bind_some, same]
    obtain ⟨released, acquired⟩ := valid.outside step (by obtain ⟨c, rfl⟩ | ⟨gate, rfl⟩ := aside <;> simp) x
    rw [released, acquired, holds]
    exact attended.balance x

theorem Visits.attended (visits : Visits env nodes moves m vs) : Attended m vs := by
  induction visits with
  | start =>
    have idle : ∀ v ∈ nodes.map fun x => ({ node := x } : Visitor), ∃ x, v = { node := x } := by
      intro v mem
      obtain ⟨x, -, rfl⟩ := List.mem_map.mp mem
      exact ⟨x, rfl⟩
    constructor
    · intro id a found
      cases found
    · intro i j u v id first _ call
      obtain ⟨x, rfl⟩ := idle u (List.mem_of_getElem? first)
      cases call
    · intro v mem id call
      obtain ⟨x, rfl⟩ := idle v mem
      cases call
    · intro x
      have none_held : (nodes.map fun x => ({ node := x } : Visitor)).countP (Visitor.holds {} x) = 0 := by
        apply List.countP_eq_zero.mpr
        intro v mem
        obtain ⟨y, rfl⟩ := idle v mem
        simp [Visitor.holds, Visitor.isHolding]
      rw [none_held]
      exact Nat.le_refl _
  | @aside moves m vs move m' visits step aside ih =>
    have valid := visits.run.valid Machine.valid_empty
    cases move with
    | run id path => exact ih.steps valid step
    | build c => exact ih.aside valid step (.inl ⟨c, rfl⟩)
    | openGate gate => exact ih.aside valid step (.inr ⟨gate, rfl⟩)
    | call | finish | cancel => cases aside
  | @turn moves m vs move m' i v v' visits step here turn ih =>
    have valid := visits.run.valid Machine.valid_empty
    cases turn with
    | arrive => exact ih.begins valid step here rfl rfl rfl (.inl rfl) rfl
    | report =>
      refine ih.begins valid step here rfl rfl rfl (fun t mem => ?_) rfl
      cases List.mem_singleton.mp mem
      exact .here
    | leave => exact ih.begins valid step here rfl rfl rfl (.inr rfl) rfl
    | @arrived x id n =>
      refine ih.ends valid step (.inl rfl) here rfl rfl rfl fun _ => ?_
      cases valid.callChange step id with
      | stays apart => exact absurd rfl apart
      | returns found => rw [found]; rfl
    | answered => exact ih.ends valid step (.inl rfl) here rfl rfl rfl fun _ => rfl
    | left => exact ih.ends valid step (.inl rfl) here rfl rfl rfl fun holding => by cases holding
    | dropped => exact ih.ends valid step (.inr rfl) here rfl rfl rfl fun holding => by cases holding

/-- A visitor who leaves has no report under way. -/
theorem Attended.leaving {a : Activity} (attended : Attended m vs) (here : vs[i]? = some v)
    (leaving : v.stage = .leaving id) (found : m.activity? id = some a) : ∀ t ∈ a.tasks, t.isReporting = false := by
  obtain ⟨j, u, there, call, fits⟩ := attended.owned id a found
  cases attended.alone i j v u id here there (by rw [leaving]; rfl) call
  rw [here] at there
  cases there
  unfold Visitor.Fits at fits
  rw [leaving] at fits
  obtain inner | rfl := fits
  · intro t mem
    have inner := inner t mem
    cases t with
    | report => cases inner
    | work k => simpa [Activity.isReporting, Activity.isInner] using inner
    | _ => rfl
  · intro t mem
    cases List.mem_singleton.mp mem
    rfl

/-- What holds at the start and still does after every move holds throughout; a call that is dropped has no report
under way. -/
theorem Visits.along {P : List Move → Machine → Prop} (visits : Visits env nodes moves m vs) (start : P [] {})
    (next : ∀ {moves m vs move m'}, Visits env nodes moves m vs → m.step? env move = some m' →
      (∀ id a, move = .cancel id → m.activity? id = some a → ∀ t ∈ a.tasks, t.isReporting = false) →
      P moves m → P (moves ++ [move]) m') : P moves m := by
  induction visits with
  | start => exact start
  | aside visits step aside ih =>
    refine next visits step (fun id a cancels => ?_) ih
    subst cancels
    cases aside
  | turn visits step here turn ih =>
    refine next visits step (fun id a cancels found => ?_) ih
    subst cancels
    cases turn with
    | dropped => exact visits.attended.leaving here rfl found

theorem Visitor.Turn.node_eq {next : CallId} {v' : Visitor} (turn : v.Turn next move v') : v'.node = v.node := by
  cases turn <;> rfl

theorem Visits.nodes_eq (visits : Visits env nodes moves m vs) : vs.map Visitor.node = nodes := by
  induction visits with
  | start => exact List.map_map.trans (List.map_id nodes)
  | aside _ _ _ ih => exact ih
  | turn _ _ here turn ih =>
    obtain ⟨bound, rfl⟩ := List.getElem?_eq_some_iff.mp here
    rw [List.map_set, turn.node_eq, ← List.map_set, List.set_getElem_self, ih]

end

end MetricPipeline
