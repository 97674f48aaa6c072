import MetricPipeline.Proofs.AtMostOnce

/-!
# What one call writes

Calls write into one journal, in whatever order they take their steps. `written` is what a single call has written
of it: an account of that call alone, which every step of its own continues and no move of another call changes
(`Run.recorded`).
-/

namespace MetricPipeline
namespace Machine

/-- What the call writes in a move, with the newest entry first. -/
def writes (env : Environment) (id : CallId) (m : Machine) : Move → List Entry
  | .run other path =>
    if other = id then
      let journal := (m.move env (.run other path)).world.journal
      journal.take (journal.length - m.world.journal.length)
    else []
  | _ => []

/-- What the call writes in the moves taken from the machine, with the newest entry first. -/
def written (env : Environment) (id : CallId) : Machine → List Move → List Entry
  | _, [] => []
  | m, a :: rest => written env id (m.move env a) rest ++ writes env id m a

variable {env : Environment} {moves more : List Move} {m m' m'' : Machine} {id : CallId} {a : Activity}

/-- A call begins with all of it still to be done. -/
theorem Valid.called {r : Request} (valid : m.Valid) (step : m.step? env (.call r) = some m') :
    m'.activity? m.next = some r.activity ∧ m'.world = m.world := by
  have new : m.activity? m.next = none := by
    cases found : m.activity? m.next with
    | none => rfl
    | some a => exact absurd (valid.made found) (Nat.lt_irrefl _)
  simp only [step?, Option.ite_none_right_eq_some, Option.some.injEq] at step
  obtain ⟨-, rfl⟩ := step
  refine ⟨?_, rfl⟩
  rw [activity?, List.lookup_append, ← activity?, new, Option.none_or]
  exact List.lookup_cons_self

theorem move_eq {move : Move} (step : m.step? env move = some m') : m.move env move = m' := by
  rw [Machine.move, step, Option.getD_some]

theorem Run.foldl_move (run : Run env m moves m') : moves.foldl (move env) m = m' := by
  induction run with
  | start => rfl
  | next _ step ih => rw [List.foldl_append, ih, List.foldl_cons, move_eq step, List.foldl_nil]

theorem writes_aside {move : Move} (aside : ∀ path, move ≠ .run id path) : writes env id m move = [] := by
  cases move with
  | run other path => exact if_neg fun same => aside path (by rw [same])
  | build | call | openGate | finish | cancel => rfl

theorem Valid.writes_run {path : Path} (valid : m.Valid) (step : m.step? env (.run id path) = some m') :
    m'.world.journal = writes env id m (.run id path) ++ m.world.journal := by
  obtain ⟨new, journal⟩ := (valid.change step).journal
  simp only [writes, if_true, move_eq step]
  rw [← journal, List.length_append, Nat.add_sub_cancel, List.take_left]

theorem written_append (m : Machine) (moves more : List Move) : written env id m (moves ++ more) =
    written env id (moves.foldl (move env) m) more ++ written env id m moves := by
  induction moves generalizing m with
  | nil => simp [written]
  | cons a rest ih => simp [written, ih]

/-- The account is kept from move to move. -/
theorem Run.written_append (run : Run env m moves m') (more : List Move) :
    written env id m (moves ++ more) = written env id m' more ++ written env id m moves := by
  rw [Machine.written_append, run.foldl_move]

theorem Run.written_next (run : Run env m moves m') (move : Move) :
    written env id m (moves ++ [move]) = writes env id m' move ++ written env id m moves := by
  rw [run.written_append]
  simp [written]

theorem Run.next_le (run : Run env m moves m') : m.next ≤ m'.next := by
  induction run with
  | start => exact Nat.le_refl _
  | next _ step ih => exact Nat.le_trans ih (Machine.next_le step)

/-- A call that is not there writes nothing. -/
theorem Run.written_absent (run : Run env m moves m') (valid : m.Valid) (made : id < m.next)
    (gone : m.activity? id = none) : (∀ path, .run id path ∉ moves) ∧ written env id m moves = [] := by
  induction run with
  | start => exact ⟨by simp, rfl⟩
  | @next moves m₁ move m₂ run step ih =>
    obtain ⟨idle, nothing⟩ := ih
    have aside : ∀ path, move ≠ .run id path := by
      rintro path rfl
      cases (run.valid valid).callChange step id with
      | stays apart => exact apart rfl
      | steps old =>
        rw [(run.absent valid made gone).1] at old
        cases old
    refine ⟨fun path mem => ?_, ?_⟩
    · rw [List.mem_append, List.mem_singleton] at mem
      exact mem.elim (idle path) fun e => aside path e.symm
    · rw [run.written_next, writes_aside aside, nothing, List.append_nil]

/-- What holds of a call and the entries it has written, at first and after each of its steps, holds while it is
under way, and of its last entry still when it has returned. -/
theorem Run.recorded {P : List Entry → Activity → Prop} (run : Run env m moves m') (valid : m.Valid)
    (found : m.activity? id = some a) (start : P [] a)
    (steps : ∀ {m₁ m₂ : Machine} {a a' path new entries}, m₁.Valid → (∀ x c, m.world.component? x = some c →
      m₁.world.component? x = some c) → Activity.Step m₁.world (env id) a path m₂.world a' →
      (∀ t ∈ a.tasks, t.Sound m₁.world) → m₂.world.journal = new ++ m₁.world.journal → P entries a →
      P (new ++ entries) a') :
    (∀ a', m'.activity? id = some a' → P (written env id m moves) a') ∧
      (m'.activity? id = none → .cancel id ∉ moves → ∃ o, P (written env id m moves) (.ended o)) := by
  induction run with
  | start =>
    refine ⟨fun a' found' => ?_, fun gone => ?_⟩
    · rw [found] at found'
      cases found'
      exact start
    · rw [found] at gone
      cases gone
  | @next moves m₁ move m₂ run step ih =>
    obtain ⟨ongoing, closed⟩ := ih
    have valid' := run.valid valid
    have kept : .cancel id ∉ moves ++ [move] → .cancel id ∉ moves :=
      fun uncancelled mem => uncancelled (List.mem_append_left _ mem)
    rw [run.written_next]
    cases valid'.callChange step id with
    | stays apart same =>
      have aside : ∀ path, move ≠ .run id path := by
        rintro path rfl
        exact apart rfl
      rw [writes_aside aside, List.nil_append, same]
      exact ⟨ongoing, fun gone uncancelled => closed gone (kept uncancelled)⟩
    | begins fresh =>
      have made := Nat.lt_of_lt_of_le (valid.made found) (run.next_le)
      exact absurd fresh (Nat.ne_of_lt made)
    | @steps path a₁ a₂ old new moved =>
      have sound := valid'.sound_call (mem_calls old)
      have holds := steps valid' (fun x c kind => run.component? valid kind) moved sound (valid'.writes_run step)
        (ongoing _ old)
      refine ⟨fun a' found' => ?_, fun gone => ?_⟩
      · rw [new] at found'
        cases found'
        exact holds
      · rw [new] at gone
        cases gone
    | @returns o old new =>
      rw [writes_aside (by simp), List.nil_append]
      refine ⟨fun a' found' => ?_, fun _ _ => ⟨o, ongoing _ old⟩⟩
      rw [new] at found'
      cases found'
    | dropped _ _ new =>
      refine ⟨fun a' found' => ?_, fun _ uncancelled => absurd (by simp) uncancelled⟩
      rw [new] at found'
      cases found'

end Machine
end MetricPipeline
