import MetricPipeline.Proofs.Presence

/-!
# What becomes of the reports of visitors

A report that a visitor sends is handed, once, to the receiver at the end of its way (`Visits.received_perm`), and
what visitors have done is what their calls add up to (`Visits.tally`).
-/

namespace MetricPipeline

/-! ## Conservation -/

namespace Machine

variable {env : Environment} {moves : List Move} {move : Move} {m m' : Machine}

/-- The reports that are on their way to the node. -/
def pending (m : Machine) (y : NodeId) : List Report :=
  m.tasks.filterMap fun
    | .report x r => if m.world.leadsTo y x r then some r else none
    | _ => none

theorem count_pending (m : Machine) (y : NodeId) (s : Report) : (m.pending y).count s = m.carried y (· == s) := by
  unfold pending carried
  induction m.tasks with
  | nil => rfl
  | cons t rest ih =>
    rw [List.filterMap_cons, List.countP_cons, ← ih]
    cases t with
    | report x r =>
      by_cases same : r = s
      · subst same
        cases leads : m.world.leadsTo y x r <;> simp [Activity.carries, leads]
      · cases leads : m.world.leadsTo y x r <;> simp [Activity.carries, leads, same]
    | _ => rfl

theorem Valid.sends_made (valid : m.Valid) (step : m.step? env move = some m') :
    ∀ e ∈ move.sends, (m.world.component? e.1).isSome = true := by
  intro e mem
  cases valid.change step with
  | @call r known =>
    cases r with
    | report x r =>
      cases List.mem_singleton.mp mem
      exact (World.component?_isSome ..).mpr (known x (List.mem_singleton_self _))
    | acquire | release | releaseAll => cases mem
  | _ => cases mem

theorem Run.sends_made (run : Run env m moves m') (valid : m.Valid) :
    ∀ e ∈ moves.flatMap Move.sends, (m'.world.component? e.1).isSome = true := by
  induction run with
  | start => simp
  | next run step ih =>
    have valid := run.valid valid
    intro e mem
    rw [List.flatMap_append, List.flatMap_singleton] at mem
    have made := (List.mem_append.mp mem).elim (ih e) (valid.sends_made step e)
    obtain ⟨c, kind⟩ := Option.isSome_iff_exists.mp made
    rw [(valid.change step).component? kind]
    rfl

end Machine

section

variable {env : Environment} {nodes : List NodeId} {moves : List Move} {move : Move} {m m' : Machine}
  {vs : List Visitor} {i : Nat} {v v' : Visitor} {id : CallId} {x y : NodeId} {c : Component}

/-- What was sent to the node, as far as it is of this kind, has reached it or is under way. -/
theorem Visits.count_delivered (visits : Visits env nodes moves m vs)
    (only : ∀ d, m.world.component? y = some d → d.isReceiver = true) (p : Report → Bool) :
    m.world.times (Entry.hands y p) + m.carried y p =
      (moves.flatMap Move.sends).countP fun e => p e.2 && m.world.leadsTo y e.1 e.2 := by
  revert only
  refine visits.along (P := fun moves m => (∀ d, m.world.component? y = some d → d.isReceiver = true) →
    m.world.times (Entry.hands y p) + m.carried y p =
      (moves.flatMap Move.sends).countP fun e => p e.2 && m.world.leadsTo y e.1 e.2) (fun _ => rfl) ?_
  intro moves m vs move m' visits step kept ih only
  have valid := visits.run.valid Machine.valid_empty
  have extends_ : ∀ x c, m.world.component? x = some c → m'.world.component? x = some c :=
    fun x c kind => (valid.change step).component? kind
  have made : ∀ e ∈ (moves ++ [move]).flatMap Move.sends, (m.world.component? e.1).isSome = true := by
    intro e mem
    rw [List.flatMap_append, List.flatMap_singleton] at mem
    exact (List.mem_append.mp mem).elim (visits.run.sends_made Machine.valid_empty e) (valid.sends_made step e)
  have same : ((moves ++ [move]).flatMap Move.sends).countP (fun e => p e.2 && m'.world.leadsTo y e.1 e.2) =
      ((moves ++ [move]).flatMap Move.sends).countP fun e => p e.2 && m.world.leadsTo y e.1 e.2 := by
    apply List.countP_congr
    intro e mem
    rw [World.leadsTo_mono extends_ valid.acyclic (valid.step step).acyclic (made e mem)]
  have before := ih fun d kind => only d (extends_ y d kind)
  rw [valid.delivered step only kept p, before, same, List.flatMap_append, List.countP_append, List.flatMap_singleton]

/-- The reports that were sent to a receiver, directly or through others, are the reports that it received and those
that are under way to it. -/
theorem Visits.received_perm (visits : Visits env nodes moves m vs)
    (only : ∀ d, m.world.component? y = some d → d.isReceiver = true) :
    (m.world.received y ++ m.pending y).Perm
      (((moves.flatMap Move.sends).filter fun e => m.world.leadsTo y e.1 e.2).map (·.2)) := by
  apply List.perm_iff_count.mpr
  intro s
  have delivered := visits.count_delivered only (· == s)
  rw [List.count_append, World.count_received, Machine.count_pending, delivered, List.count, List.countP_map,
    List.countP_filter]
  rfl

/-- Only what a visitor waits for is under way. -/
theorem Attended.pending_eq_nil (attended : Attended m vs) (valid : m.Valid)
    (answered : ∀ v ∈ vs, ∀ id, v.stage ≠ .reporting id) (y : NodeId) : m.pending y = [] := by
  apply List.filterMap_eq_nil_iff.mpr
  intro t mem
  cases t with
  | report x r =>
    obtain ⟨v, visitor, ⟨id, stage⟩, -⟩ := attended.reporting valid mem
    exact absurd stage (answered v visitor id)
  | _ => rfl

/-! ## Sums over the visitors -/

theorem sum_map_const {α : Type} {xs : List α} {f : α → Nat} {n : Nat} (each : ∀ x ∈ xs, f x = n) :
    (xs.map f).sum = xs.length * n := by
  rw [List.map_congr_left each, List.map_const', List.sum_replicate_nat]

theorem Move.silent_of_aside (aside : move.isAside = true) :
    move.acquires = [] ∧ move.releases = [] ∧ move.sends = [] := by
  cases move with
  | call => cases aside
  | _ => exact ⟨rfl, rfl, rfl⟩

/-- What each move adds to what its visitor has done adds up to what all visitors have done. -/
theorem Visits.tally (visits : Visits env nodes moves m vs) (f : Move → Nat) (g : Visitor → Nat)
    (start : ∀ x, g { node := x } = 0) (aside : ∀ move, move.isAside = true → f move = 0)
    (turn : ∀ {next v move v'}, Visitor.Turn next v move v' → g v' = g v + f move) :
    (moves.map f).sum = (vs.map g).sum := by
  induction visits with
  | start =>
    have none := sum_map_const (f := g ∘ fun x => { node := x }) fun x (_ : x ∈ nodes) => start x
    rw [List.map_map, none, Nat.mul_zero]
    rfl
  | aside _ _ still ih =>
    rw [List.map_append, List.sum_append, ih, List.map_singleton, List.sum_singleton, aside _ still, Nat.add_zero]
  | @turn moves m vs move m' i v v' _ _ here taken ih =>
    have update := sum_update here v' (f := g) fun _ _ _ _ => rfl
    have turn := turn taken
    rw [List.map_append, List.sum_append, ih, List.map_singleton, List.sum_singleton]
    omega

theorem Visits.sends_eq (visits : Visits env nodes moves m vs) :
    (moves.flatMap Move.sends).length = (vs.map Visitor.sent).sum := by
  rw [List.length_flatMap]
  refine visits.tally _ _ (fun _ => rfl)
    (fun move aside => by rw [(Move.silent_of_aside aside).2.2]; rfl) fun turn => ?_
  cases turn <;> rfl

/-- The visitor has asked for the acquisition. -/
def Stage.hasCome : Stage → Bool
  | absent => false
  | arriving _ | present | reporting _ | leaving _ | gone => true

/-- The visitor has asked for the release. -/
def Stage.hasLeft : Stage → Bool
  | leaving _ | gone => true
  | absent | arriving _ | present | reporting _ => false

theorem Visits.acquires_eq (visits : Visits env nodes moves m vs) (x : NodeId) :
    (moves.flatMap Move.acquires).count (.outside, x) =
      (vs.map fun v => (v.node == x && v.stage.hasCome).toNat).sum := by
  rw [List.count_flatMap]
  refine visits.tally _ _ (fun y => by simp [Stage.hasCome])
    (fun move aside => by rw [Function.comp, (Move.silent_of_aside aside).1]; rfl) fun turn => ?_
  cases turn with
  | @arrive y n => by_cases here : y = x <;> simp [Move.acquires, Request.acquires, Stage.hasCome, here]
  | _ => rfl

theorem Visits.releases_eq (visits : Visits env nodes moves m vs) (x : NodeId) :
    (moves.flatMap Move.releases).count (.outside, x) =
      (vs.map fun v => (v.node == x && v.stage.hasLeft).toNat).sum := by
  rw [List.count_flatMap]
  refine visits.tally _ _ (fun y => by simp [Stage.hasLeft])
    (fun move aside => by rw [Function.comp, (Move.silent_of_aside aside).2.1]; rfl) fun turn => ?_
  cases turn with
  | @leave y n => by_cases here : y = x <;> simp [Move.releases, Request.releases, Stage.hasLeft, here]
  | _ => rfl

theorem Visits.sends_node (visits : Visits env nodes moves m vs) : ∀ e ∈ moves.flatMap Move.sends, e.1 ∈ nodes := by
  induction visits with
  | start => simp
  | aside _ _ still ih =>
    rw [List.flatMap_append, List.flatMap_singleton, (Move.silent_of_aside still).2.2, List.append_nil]
    exact ih
  | turn visits _ here turn ih =>
    intro e mem
    rw [List.flatMap_append, List.flatMap_singleton] at mem
    refine (List.mem_append.mp mem).elim (ih e) fun sent => ?_
    cases turn with
    | report =>
      cases List.mem_singleton.mp sent
      exact visits.nodes_eq ▸ List.mem_map_of_mem (List.mem_of_getElem? here)
    | _ => cases sent

end

end MetricPipeline
