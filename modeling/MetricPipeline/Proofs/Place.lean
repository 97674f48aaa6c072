import MetricPipeline.Proofs.AtMostOnce

/-!
# Places in a call

Where a task stands in the tree of its call. It stays there until it has ended and its outcome is taken, by the
wrapper or the fan-out it belongs to or when the call returns, or until the call is dropped; then the place is left
for good. Until then a move leaves the task as it is or takes a step of it (`Valid.at_own`), so what stands at a
place can be followed through a run as if it were alone (`Run.follow`).
-/

namespace MetricPipeline

/-- One turn on the way down to a task: to what a wrapper waits for, or to a job of a fan-out. -/
inductive Turn where
  | below
  | slot (i : Nat)
  deriving DecidableEq, Repr

/-- A path leads to the next task to act, and a place to a task with all that is under way for it. -/
abbrev Place := List Turn

def Place.path : Place → Path
  | [] => []
  | .below :: p => path p
  | .slot i :: p => i :: path p

/-- What is left of a path behind the place it leads through. -/
def Place.rest? : Place → Path → Option Path
  | [], path => some path
  | .below :: p, path => rest? p path
  | .slot i :: p, j :: path => if j = i then rest? p path else none
  | .slot _ :: _, [] => none

theorem Place.rest?_eq_some {p : Place} {path rest : Path} : p.rest? path = some rest ↔ path = p.path ++ rest := by
  induction p generalizing path with
  | nil => simp [rest?, Place.path]
  | cons turn p ih =>
    cases turn with
    | below => exact ih
    | slot i =>
      cases path with
      | nil => simp [rest?, Place.path]
      | cons j path =>
        simp only [rest?, Option.ite_none_right_eq_some, ih, Place.path, List.cons_append, List.cons.injEq]

/-- The way on from the place to the task that the move steps, if it does so there. -/
def Move.under? (id : CallId) (p : Place) : Move → Option Path
  | run other path => if other = id then p.rest? path else none
  | _ => none

theorem Move.under?_eq_some {id : CallId} {p : Place} {rest : Path} {a : Move} :
    a.under? id p = some rest ↔ a = .run id (p.path ++ rest) := by
  cases a with
  | run other path => simp [under?, Place.rest?_eq_some]
  | build | call | openGate | finish | cancel => simp [under?]

namespace Activity

inductive At : Activity → Place → Activity → Prop
  | here {a} : At a [] a
  | delegated {f a p b} (there : At a p b) : At (delegate f a) (.below :: p) b
  | job {all : FanOut Activity} {i a p b} (running : all.slots[i]? = some (.started a)) (there : At a p b) :
      At (fanOut all) (.slot i :: p) b

/-- The task that stood at the place is there no more: its outcome was taken. -/
inductive Left : Activity → Place → Prop
  | ended {o t p} : Left (ended o) (t :: p)
  | delegated {f a p} (there : Left a p) : Left (delegate f a) (.below :: p)
  | job {all : FanOut Activity} {i a p} (running : all.slots[i]? = some (.started a)) (there : Left a p) :
      Left (fanOut all) (.slot i :: p)
  | joined {all : FanOut Activity} {i p} (taken : all.slots[i]? = some .joined) :
      Left (fanOut all) (.slot i :: p)

theorem At.unique {a b b' : Activity} {p : Place} (h : At a p b) (h' : At a p b') : b = b' := by
  induction h with
  | here =>
    cases h'
    rfl
  | delegated _ ih =>
    cases h' with
    | delegated there => exact ih there
  | job running _ ih =>
    cases h' with
    | job running' there =>
      rw [running] at running'
      cases running'
      exact ih there

theorem At.not_left {a b : Activity} {p : Place} (h : At a p b) : ¬Left a p := by
  intro left
  induction h with
  | here => cases left
  | delegated _ ih =>
    cases left with
    | delegated there => exact ih there
  | job running _ ih =>
    cases left with
    | job running' there =>
      rw [running] at running'
      cases running'
      exact ih there
    | joined taken =>
      rw [running] at taken
      cases taken

theorem At.append {a b c : Activity} {p q : Place} (h : At a p b) (h' : At b q c) : At a (p ++ q) c := by
  induction h with
  | here => exact h'
  | delegated _ ih => exact .delegated (ih h')
  | job running _ ih => exact .job running (ih h')

theorem At.staged {a b : Activity} {p : Place} (h : At a p b) (staged : a.Staged) : b.Staged := by
  induction h with
  | here => exact staged
  | delegated _ ih => exact ih staged
  | job running _ ih => exact ih (staged_running staged running)

/-- What a step of a fan-out does to one of its slots. -/
inductive SlotChange (env : Surroundings) (w w' : World) : Slot Activity → Slot Activity → Prop
  | stays {slot} : SlotChange env w w' slot slot
  | starts {a} : SlotChange env w w' (.waiting a) (.started a)
  | steps {a path a'} (step : Step w env a path w' a') : SlotChange env w w' (.started a) (.started a')
  | joins {o} : SlotChange env w w' (.started (ended o)) .joined

section

variable {env : Surroundings} {w w' : World} {a a' : Activity} {path : Path} {p : Place}

theorem SlotChange.set {slots : List (Slot Activity)} {i j : Nat} {slot old new : Slot Activity}
    (change : SlotChange (env.under [j]) w w' old new) (here : slots[i]? = some slot) (found : slots[j]? = some old) :
    ∃ slot', (slots.set j new)[i]? = some slot' ∧ SlotChange (env.under [i]) w w' slot slot' := by
  by_cases same : j = i
  · subst same
    rw [here] at found
    cases found
    exact ⟨new, getElem?_set_found here, change⟩
  · exact ⟨slot, (List.getElem?_set_ne same).trans here, .stays⟩

theorem Step.slot {all : FanOut Activity} {i : Nat} {slot : Slot Activity}
    (h : Step w env (fanOut all) path w' a') (here : all.slots[i]? = some slot) :
    (slot = .joined ∧ ∃ o, a' = ended o) ∨
      ∃ all' slot', a' = fanOut all' ∧ all'.slots[i]? = some slot' ∧ SlotChange (env.under [i]) w w' slot slot' := by
  cases h with
  | act acts => cases acts
  | close all_ended =>
    refine .inl ⟨?_, _, rfl⟩
    have ended := List.all_eq_true.mp all_ended _ (List.mem_of_getElem? here)
    cases slot with
    | joined => rfl
    | waiting | started => cases ended
  | @start env _ all' j started =>
    obtain ⟨job, waiting, slots, -⟩ := start?_slot started
    have starts : SlotChange (env.under [j]) w w (.waiting job) (.started job) := .starts
    obtain ⟨slot', now, change⟩ := starts.set here waiting
    exact .inr ⟨_, slot', rfl, slots ▸ now, change⟩
  | @join env _ j o _ found =>
    have joins : SlotChange (env.under [j]) w (Activity.join (env.panicText [j]) w all j o).1
        (.started (.ended o)) .joined := .joins
    obtain ⟨slot', now, change⟩ := joins.set here found
    exact .inr ⟨_, slot', rfl, now, change⟩
  | child running step =>
    obtain ⟨slot', now, change⟩ := (SlotChange.steps step).set here running
    exact .inr ⟨_, slot', rfl, now, change⟩

/-- A step is one of the task at the place, or is taken elsewhere and leaves it as it is, or takes its outcome. -/
theorem Step.at_own {b : Activity} (h : Step w env a path w' a') (here : At a p b) :
    (At a' p b ∧ p.rest? path = none) ∨
      (∃ rest b', p.rest? path = some rest ∧ Step w (env.under p.path) b rest w' b' ∧ At a' p b') ∨
      (∃ o, b = ended o) ∧ Left a' p := by
  induction here generalizing env path a' with
  | here => exact .inr (.inl ⟨path, a', rfl, h, .here⟩)
  | delegated there ih =>
    cases h with
    | act acts => cases acts
    | merge =>
      cases there with
      | here => exact .inr (.inr ⟨⟨_, rfl⟩, .ended⟩)
    | delegated step =>
      obtain ⟨stays, aside⟩ | ⟨rest, b', own, steps, now⟩ | ⟨ended, left⟩ := ih step
      · exact .inl ⟨.delegated stays, aside⟩
      · exact .inr (.inl ⟨rest, b', own, steps, .delegated now⟩)
      · exact .inr (.inr ⟨ended, .delegated left⟩)
  | @job all i a p b running there ih =>
    have elsewhere : ∀ {all' : FanOut Activity} {j slot} (_ : all'.slots = all.slots.set j slot) (path : Path),
        j ≠ i → At (fanOut all') (.slot i :: p) b ∧ Place.rest? (.slot i :: p) (j :: path) = none := by
      intro all' j slot slots path other
      refine ⟨.job ?_ there, if_neg other⟩
      rw [slots, List.getElem?_set_ne other, running]
    cases h with
    | act acts => cases acts
    | close all_ended => cases List.all_eq_true.mp all_ended _ (List.mem_of_getElem? running)
    | @start env _ all' j started =>
      obtain ⟨job, waiting, slots, -⟩ := start?_slot started
      refine .inl (elsewhere slots [] ?_)
      rintro rfl
      rw [running] at waiting
      cases waiting
    | @join env _ j o _ taken =>
      by_cases same : j = i
      · subst same
        rw [running] at taken
        cases taken
        cases there with
        | here =>
          exact .inr (.inr ⟨⟨o, rfl⟩, .joined (getElem?_set_found running)⟩)
      · exact .inl (elsewhere rfl [] same)
    | @child env _ j c path w' c' found step =>
      by_cases same : j = i
      · subst same
        rw [running] at found
        cases found
        have now : (all.advance j c' c'.isEnded).slots[j]? = some (.started c') := getElem?_set_found running
        have on : Place.rest? (.slot j :: p) (j :: path) = p.rest? path := if_pos rfl
        obtain ⟨stays, aside⟩ | ⟨rest, b', own, steps, there'⟩ | ⟨ended, left⟩ := ih step
        · exact .inl ⟨.job now stays, on.trans aside⟩
        · exact .inr (.inl ⟨rest, b', on.trans own, steps, .job now there'⟩)
        · exact .inr (.inr ⟨ended, .job now left⟩)
      · exact .inl (elsewhere rfl path same)

theorem Step.left (h : Step w env a path w' a') (left : Left a p) : Left a' p := by
  induction left generalizing env path a' with
  | ended => exact h.not_ended.elim
  | delegated there ih =>
    cases h with
    | act acts => cases acts
    | merge => exact .ended
    | delegated step => exact .delegated (ih step)
  | job running there ih =>
    obtain ⟨ended, -⟩ | ⟨all', slot', rfl, now, change⟩ := h.slot running
    · cases ended
    cases change with
    | stays => exact .job now there
    | steps step => exact .job now (ih step)
    | joins => exact .joined now
  | joined taken =>
    obtain ⟨-, o, rfl⟩ | ⟨all', slot', rfl, now, change⟩ := h.slot taken
    · exact .ended
    cases change with
    | stays => exact .joined now

/-- A step that does not rearrange the tree alone is that of a task at some place. -/
theorem Step.place (h : Step w env a path w' a') :
    (w' = w ∨ ∃ text, w' = w.note (.releasePanicked text)) ∨
      ∃ p t t', Place.path p = path ∧ At a p t ∧ Activity.act (env.behaviour path) w t = some (w', t') ∧
        At a' p t' := by
  induction h with
  | act acts => exact .inr ⟨[], _, _, rfl, .here, acts, .here⟩
  | merge | close | start => exact .inl (.inl rfl)
  | delegated _ ih =>
    obtain still | ⟨p, t, t', rfl, here, acts, there⟩ := ih
    · exact .inl still
    · exact .inr ⟨.below :: p, t, t', rfl, .delegated here, acts, .delegated there⟩
  | @join env all i o =>
    cases o with
    | panicked q => exact .inl (.inr ⟨env.panicText [i] q, rfl⟩)
    | ok | failed => exact .inl (.inl rfl)
  | @child env all i a path w' a' running _ ih =>
    obtain still | ⟨p, t, t', rfl, here, acts, there⟩ := ih
    · exact .inl still
    · have now : (all.advance i a' a'.isEnded).slots[i]? = some (.started a') := getElem?_set_found running
      exact .inr ⟨.slot i :: p, t, t', rfl, .job running here, acts, .job now there⟩

/-- What can happen to the task at a place can happen in the call, at the end of the path that leads on from there. -/
theorem At.step {b b' : Activity} {rest : Path} (here : At a p b) (h : Step w (env.under p.path) b rest w' b') :
    ∃ a', Step w env a (p.path ++ rest) w' a' ∧ At a' p b' := by
  induction here generalizing env with
  | here => exact ⟨b', h, .here⟩
  | @delegated f a p b _ ih =>
    obtain ⟨a', step, there⟩ := ih h
    exact ⟨delegate f a', .delegated step, .delegated there⟩
  | @job all i a p b running _ ih =>
    obtain ⟨a', step, there⟩ : ∃ a', Step w (env.under [i]) a (p.path ++ rest) w' a' ∧ At a' p b' := ih h
    have now : (all.advance i a' a'.isEnded).slots[i]? = some (.started a') := getElem?_set_found running
    exact ⟨fanOut (all.advance i a' a'.isEnded), .child running step, .job now there⟩

end

end Activity

namespace Machine

/-- What stands at a place of a call, with all that is under way for it. -/
def At (m : Machine) (id : CallId) (p : Place) (b : Activity) : Prop := ∃ a, m.activity? id = some a ∧ a.At p b

/-- The task that stood at the place is there no more: its outcome was taken, or its call was dropped. -/
def Left (m : Machine) (id : CallId) (p : Place) : Prop :=
  id < m.next ∧ ∀ a, m.activity? id = some a → a.Left p

/-- On the way from one machine to another there is one like this. -/
def Passes (env : Environment) (m : Machine) (moves : List Move) (m' : Machine) (P : Machine → Prop) : Prop :=
  ∃ earlier later between, moves = earlier ++ later ∧ Run env m earlier between ∧ Run env between later m' ∧
    P between

section

variable {env : Environment} {m m' m'' : Machine} {moves more : List Move} {move : Move} {id : CallId} {p : Place}
  {b b' : Activity} {o : Outcome} {P : Machine → Prop}

theorem Run.passes (run : Run env m moves m') (now : P m') : Passes env m moves m' P :=
  ⟨moves, [], m', by simp, run, .start, now⟩

theorem Passes.append (passes : Passes env m moves m' P) (run : Run env m' more m'') :
    Passes env m (moves ++ more) m'' P := by
  obtain ⟨earlier, later, between, rfl, first, rest, holds⟩ := passes
  exact ⟨earlier, later ++ more, between, by simp, first, rest.append run, holds⟩

theorem Passes.next (passes : Passes env m moves m' P) (step : m'.step? env move = some m'') :
    Passes env m (moves ++ [move]) m'' P := passes.append (Run.start.next step)

theorem At.unique (h : m.At id p b) (h' : m.At id p b') : b = b' := by
  obtain ⟨a, found, here⟩ := h
  obtain ⟨a', found', here'⟩ := h'
  rw [found] at found'
  cases found'
  exact here.unique here'

theorem At.not_left (h : m.At id p b) : ¬m.Left id p := by
  obtain ⟨a, found, here⟩ := h
  exact fun left => here.not_left (left.2 a found)

theorem At.staged (h : m.At id p b) (valid : m.Valid) : b.Staged := by
  obtain ⟨a, found, here⟩ := h
  exact here.staged (valid.staged (id, a) (mem_calls found))

theorem At.append {q : Place} (h : m.At id p b) (h' : b.At q b') : m.At id (p ++ q) b' := by
  obtain ⟨a, found, here⟩ := h
  exact ⟨a, found, here.append h'⟩

/-- A move is a step of the task at the place, or leaves it as it is, or the task leaves with it. -/
theorem Valid.at_own (valid : m.Valid) (step : m.step? env move = some m') (here : m.At id p b) :
    (m'.At id p b ∧ move.under? id p = none) ∨
      (∃ rest b', move = .run id (p.path ++ rest) ∧ Activity.Step m.world ((env id).under p.path) b rest m'.world b' ∧
        m'.At id p b') ∨
      ((∃ o, b = .ended o) ∨ move = .cancel id) ∧ m'.Left id p := by
  obtain ⟨a, found, here⟩ := here
  have made := Nat.lt_of_lt_of_le (valid.made found) (next_le step)
  cases valid.callChange step id with
  | stays apart same =>
    refine .inl ⟨⟨a, same.trans found, here⟩, ?_⟩
    cases move with
    | run other path => exact if_neg fun e => apart (congrArg some e)
    | build | call | openGate | finish | cancel => rfl
  | begins _ old =>
    rw [found] at old
    cases old
  | steps old new moved =>
    rw [found] at old
    cases old
    obtain ⟨stays, aside⟩ | ⟨rest, b', own, steps, there⟩ | ⟨ended, left⟩ := moved.at_own here
    · exact .inl ⟨⟨_, new, stays⟩, (if_pos rfl).trans aside⟩
    · rw [Place.rest?_eq_some] at own
      exact .inr (.inl ⟨rest, b', by rw [own], steps, _, new, there⟩)
    · refine .inr (.inr ⟨.inl ended, made, fun a' found' => ?_⟩)
      rw [new] at found'
      cases found'
      exact left
  | @returns o old new =>
    rw [found] at old
    cases old
    cases here
    exact .inr (.inr ⟨.inl ⟨o, rfl⟩, made, fun a' found' => by simp [new] at found'⟩)
  | dropped _ _ new => exact .inr (.inr ⟨.inr rfl, made, fun a' found' => by simp [new] at found'⟩)

theorem Valid.left (valid : m.Valid) (step : m.step? env move = some m') (left : m.Left id p) : m'.Left id p := by
  obtain ⟨made, left⟩ := left
  refine ⟨Nat.lt_of_lt_of_le made (next_le step), fun a' found' => ?_⟩
  cases valid.callChange step id with
  | stays _ same => exact left a' (same.symm.trans found')
  | begins fresh => exact absurd fresh (Nat.ne_of_lt made)
  | @steps path a₀ a₁ old new moved =>
    rw [new] at found'
    cases found'
    exact moved.left (left a₀ old)
  | returns _ new | dropped _ _ new =>
    rw [new] at found'
    cases found'

/-- What can happen to the task at a place can happen now, whatever else is under way. -/
theorem Valid.step_at {w : World} {rest : Path} (valid : m.Valid) (env : Environment) (here : m.At id p b)
    (h : Activity.Step m.world ((env id).under p.path) b rest w b') :
    ∃ m', m.step? env (.run id (p.path ++ rest)) = some m' ∧ m'.world = w ∧ m'.At id p b' := by
  obtain ⟨a, found, here⟩ := here
  obtain ⟨a', moved, there⟩ := here.step h
  have steps := moved.step?_eq
  have step : m.step? env (.run id (p.path ++ rest)) =
      some { m with world := w, calls := m.calls.map fun c => if c.1 = id then (id, a') else c } := by
    simp [step?, found, steps]
  obtain ⟨c, c', -, -, found', moved', -, -, now, -⟩ := valid.run step
  rw [found] at found'
  cases found'
  rw [steps] at moved'
  cases moved'
  exact ⟨_, step, rfl, a', now, there⟩

theorem Valid.at_next {w : World} {rest : Path} (valid : m.Valid)
    (step : m.step? env (.run id (p.path ++ rest)) = some m') (here : m.At id p b)
    (h : Activity.Step m.world ((env id).under p.path) b rest w b') : m'.At id p b' := by
  obtain ⟨_, step', -, there⟩ := valid.step_at env here h
  rw [step] at step'
  cases step'
  exact there

/-- Whatever holds of the task at a place at first, and still does after each of its own steps and each move that
is none of these, holds of it as long as it stands there. -/
theorem Run.follow {P : List Move → Machine → Activity → Prop} (run : Run env m moves m') (valid : m.Valid)
    (here : m.At id p b) (start : P [] m b)
    (stays : ∀ {moves m₁ move m₂ b}, Run env m moves m₁ → m₁.step? env move = some m₂ → m₁.At id p b →
      P moves m₁ b → move.under? id p = none → P (moves ++ [move]) m₂ b)
    (steps : ∀ {moves m₁ rest m₂ b b'}, Run env m moves m₁ → m₁.step? env (.run id (p.path ++ rest)) = some m₂ →
      m₁.At id p b → Activity.Step m₁.world ((env id).under p.path) b rest m₂.world b' → P moves m₁ b →
      P (moves ++ [.run id (p.path ++ rest)]) m₂ b')
    (there : m'.At id p b') : P moves m' b' := by
  have all : (∃ b', m'.At id p b' ∧ P moves m' b') ∨ m'.Left id p := by
    clear there
    induction run with
    | start => exact .inl ⟨b, here, start⟩
    | @next moves m₁ move m₂ run step ih =>
      have valid := run.valid valid
      obtain ⟨b₁, here, holds⟩ | left := ih
      · obtain ⟨same, aside⟩ | ⟨rest, b₂, rfl, own, there⟩ | ⟨-, left⟩ := valid.at_own step here
        · exact .inl ⟨b₁, same, stays run step here holds aside⟩
        · exact .inl ⟨b₂, there, steps run step here own holds⟩
        · exact .inr left
      · exact .inr (valid.left step left)
  obtain ⟨b₁, here, holds⟩ | left := all
  · rw [there.unique here]
    exact holds
  · exact absurd left there.not_left

/-- A task stays under way until it ends or its call is dropped. -/
theorem Run.at_fate (run : Run env m moves m') (valid : m.Valid) (here : m.At id p b) :
    (∃ b', m'.At id p b') ∨ .cancel id ∈ moves ∨ ∃ o, Passes env m moves m' (·.At id p (.ended o)) := by
  induction run with
  | start => exact .inl ⟨b, here⟩
  | @next moves m₁ move m₂ run step ih =>
    have valid := run.valid valid
    obtain ⟨b₁, here⟩ | dropped | ⟨o, ended⟩ := ih
    · obtain ⟨same, -⟩ | ⟨-, b₂, -, -, there⟩ | ⟨⟨o, rfl⟩ | rfl, -⟩ := valid.at_own step here
      · exact .inl ⟨b₁, same⟩
      · exact .inl ⟨b₂, there⟩
      · exact .inr (.inr ⟨o, (run.passes here).next step⟩)
      · exact .inr (.inl (by simp))
    · exact .inr (.inl (List.mem_append_left _ dropped))
    · exact .inr (.inr ⟨o, ended.next step⟩)

end

end Machine
end MetricPipeline
