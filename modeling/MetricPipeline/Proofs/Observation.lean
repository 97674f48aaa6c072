import MetricPipeline.Proofs.Place
import MetricPipeline.Proofs.Transcript

/-!
# What is seen of one place

The steps that are taken at a place, or below, have an account of their own: the signs that a fan-out standing there
gives of its jobs, and the entries that are written. It can be followed through a run together with the task
(`Run.observe`).

A release that is counted and does no more ends in the step in which it begins, so that one step can give two signs.
-/

namespace MetricPipeline

/-- What a fan-out shows of its jobs. -/
inductive Sign where
  /-- The job has its permit. -/
  | started (i : Nat)
  /-- The component is released. -/
  | invoked (i : Nat) (holder : Holder) (node : NodeId)
  /-- The release has ended so, and the permit is given back. -/
  | ended (i : Nat) (outcome : Outcome)
  /-- The fan-out has taken what the release has come to. -/
  | joined (i : Nat)
  /-- All were joined, and the fan-out ends so. -/
  | closed (outcome : Outcome)
  deriving DecidableEq, Repr

namespace Activity

def at? : Activity → Place → Option Activity
  | a, [] => some a
  | delegate _ below, .below :: p => at? below p
  | fanOut all, .slot i :: p =>
    match all.slots[i]? with
    | some (.started a) => at? a p
    | _ => none
  | _, _ :: _ => none

theorem at?_eq_some {a b : Activity} {p : Place} : a.at? p = some b ↔ At a p b := by
  constructor
  · intro found
    induction p generalizing a with
    | nil =>
      have same : some a = some b := by cases a <;> exact found
      cases same
      exact .here
    | cons turn p ih =>
      cases a with
      | delegate f below =>
        cases turn with
        | below => exact .delegated (ih found)
        | slot => cases found
      | fanOut all =>
        cases turn with
        | below => cases found
        | slot i =>
          simp only [at?] at found
          split at found
          · exact .job ‹_› (ih found)
          · cases found
      | _ => cases turn <;> cases found
  · intro h
    induction h with
    | @here a => cases a <;> rfl
    | delegated _ ih => exact ih
    | job running _ ih => simpa only [at?, running] using ih

end Activity

/-- What is seen of a job when its slot changes. -/
def Slot.signs (i : Nat) : Slot Activity → Slot Activity → List Sign
  | waiting _, started _ => [.started i]
  | started a, started b =>
    (match a with
      | .release h x => [.invoked i h x]
      | _ => []) ++ (b.outcome?.map (Sign.ended i)).toList
  | started _, joined => [.joined i]
  | _, _ => []

/-- What is seen of a fan-out when it takes the step at the end of the path. -/
def Activity.signs : Activity → Path → Activity → List Sign
  | fanOut _, [], after => (after.outcome?.map Sign.closed).toList
  | fanOut all, i :: _, fanOut all' =>
    match all.slots[i]?, all'.slots[i]? with
    | some before, some after => before.signs i after
    | _, _ => []
  | _, _, _ => []

namespace Machine

def at? (m : Machine) (id : CallId) (p : Place) : Option Activity := (m.activity? id).bind (·.at? p)

/-- What is seen of a fan-out at a place when a move is made. -/
def shown (env : Environment) (id : CallId) (p : Place) (m : Machine) (move : Move) : List Sign :=
  match move.under? id p, m.at? id p, (m.move env move).at? id p with
  | some rest, some before, some after => before.signs rest after
  | _, _, _ => []

/-- What is seen of a fan-out at a place in the moves taken from the machine, oldest first. -/
def signs (env : Environment) (id : CallId) (p : Place) : Machine → List Move → List Sign
  | _, [] => []
  | m, a :: rest => shown env id p m a ++ signs env id p (m.move env a) rest

/-- What is written at a place, and below, in the moves taken from the machine, with the newest entry first. -/
def told (env : Environment) (id : CallId) (p : Place) : Machine → List Move → List Entry
  | _, [] => []
  | m, a :: rest =>
    told env id p (m.move env a) rest ++ if (a.under? id p).isSome then writes env id m a else []

section

variable {env : Environment} {m m' : Machine} {moves : List Move} {move : Move} {id : CallId} {p : Place}
  {b b' : Activity}

theorem at?_eq_some : m.at? id p = some b ↔ m.At id p b := by
  simp only [at?, Option.bind_eq_some_iff, Activity.at?_eq_some]
  rfl

theorem signs_append (m : Machine) (moves more : List Move) : signs env id p m (moves ++ more) =
    signs env id p m moves ++ signs env id p (moves.foldl (Machine.move env) m) more := by
  induction moves generalizing m with
  | nil => rfl
  | cons a rest ih => simp [signs, ih]

theorem told_append (m : Machine) (moves more : List Move) : told env id p m (moves ++ more) =
    told env id p (moves.foldl (Machine.move env) m) more ++ told env id p m moves := by
  induction moves generalizing m with
  | nil => simp [told]
  | cons a rest ih => simp [told, ih]

theorem Run.signs_next (run : Run env m moves m') (move : Move) :
    signs env id p m (moves ++ [move]) = signs env id p m moves ++ shown env id p m' move := by
  rw [signs_append, run.foldl_move]
  simp [signs]

theorem Run.told_next (run : Run env m moves m') (move : Move) : told env id p m (moves ++ [move]) =
    (if (move.under? id p).isSome then writes env id m' move else []) ++ told env id p m moves := by
  rw [told_append, run.foldl_move]
  simp [told]

theorem Run.told_subset (run : Run env m moves m') (valid : m.Valid) :
    ∀ e ∈ told env id p m moves, e ∈ m'.world.journal := by
  induction run with
  | start => simp [told]
  | @next moves m₁ move m₂ run step ih =>
    intro e mem
    rw [run.told_next] at mem
    obtain now | before := List.mem_append.mp mem
    · split at now
      · rename_i under
        obtain ⟨rest, own⟩ := Option.isSome_iff_exists.mp under
        rw [Move.under?_eq_some.mp own] at now step
        rw [(run.valid valid).writes_run step]
        exact List.mem_append_left _ now
      · cases now
    · exact ((run.valid valid).change step).journal.subset (ih e before)

/-- What is seen of the task at a place is what would be seen of it alone. -/
theorem shown_own {rest : Path} (step : m.step? env (.run id (p.path ++ rest)) = some m') (here : m.At id p b)
    (there : m'.At id p b') : shown env id p m (.run id (p.path ++ rest)) = b.signs rest b' := by
  have under : (Move.run id (p.path ++ rest)).under? id p = some rest := Move.under?_eq_some.mpr rfl
  rw [shown, under, move_eq step, at?_eq_some.mpr here, at?_eq_some.mpr there]

theorem shown_aside (aside : move.under? id p = none) : shown env id p m move = [] := by rw [shown, aside]

/-- What holds of the task at a place with its account at first, and still does after each of its own steps and each
move that is none of these, holds as long as it stands there. -/
theorem Run.observe {P : List Move → List Sign → List Entry → Machine → Activity → Prop} (run : Run env m moves m')
    (valid : m.Valid) (here : m.At id p b) (start : P [] [] [] m b)
    (stays : ∀ {moves m₁ move m₂ b signs entries}, m₁.step? env move = some m₂ → P moves signs entries m₁ b →
      P (moves ++ [move]) signs entries m₂ b)
    (steps : ∀ {moves m₁ rest m₂ b b' signs entries new}, Run env m moves m₁ →
      m₁.step? env (.run id (p.path ++ rest)) = some m₂ → m₁.At id p b →
      Activity.Step m₁.world ((env id).under p.path) b rest m₂.world b' → m₂.world.journal = new ++ m₁.world.journal →
      P moves signs entries m₁ b →
      P (moves ++ [.run id (p.path ++ rest)]) (signs ++ b.signs rest b') (new ++ entries) m₂ b')
    (there : m'.At id p b') : P moves (signs env id p m moves) (told env id p m moves) m' b' := by
  refine run.follow (P := fun moves m₁ b => P moves (signs env id p m moves) (told env id p m moves) m₁ b) valid here
    start (fun run step _ holds aside => ?_) (fun {moves m₁ rest m₂ b b'} run step here own holds => ?_) there
  · rw [run.signs_next, run.told_next, shown_aside aside, aside]
    simpa using stays step holds
  · have under : (Move.run id (p.path ++ rest)).under? id p = some rest := Move.under?_eq_some.mpr rfl
    rw [run.signs_next, run.told_next, shown_own step here ((run.valid valid).at_next step here own), under]
    exact steps run step here own ((run.valid valid).writes_run step) holds

end

end Machine
end MetricPipeline
