import MetricPipeline.Proofs.Collection

/-!
# How much a fan-out does at once

A job of a fan-out that has its permit holds it until its release has ended, and no other job holds it (`Story`). It
does not hold it for longer: whether the fan-out has taken the outcome or not, the permit is back
(`Step.returns_permit`). So the free permits and the jobs that hold one are as many as the fan-out was given
(`Run.conserved`), and a job that waits can go on as soon as there are fewer (`Run.cap_kept`).
-/

namespace MetricPipeline

namespace Slot

/-- The job has its permit, and the component is still to be released. -/
def isStarting : Slot Activity → Bool
  | started (.release _ _) => true
  | _ => false

/-- The release of the component has begun, and has not ended. -/
def isReleasing (slot : Slot Activity) : Bool := slot.isRunning && !slot.isStarting

theorem countP_isRunning (slots : List (Slot Activity)) :
    slots.countP isRunning = slots.countP isStarting + slots.countP isReleasing := by
  induction slots with
  | nil => rfl
  | cons slot rest ih =>
    have here : slot.isRunning.toNat = slot.isStarting.toNat + slot.isReleasing.toNat := by
      cases slot with
      | started a => cases a <;> rfl
      | waiting | joined => rfl
    have one : ∀ b : Bool, (if b = true then 1 else 0) = b.toNat := by decide
    simp only [List.countP_cons, one]
    omega

end Slot

def Sign.isStart : Sign → Bool
  | started _ => true
  | _ => false

theorem Slot.starts_signs (i : Nat) (a b : Activity) :
    ((started a).signs i (.started b)).countP Sign.isStart = 0 := by
  by_cases released : ∃ h x, a = .release h x
  · obtain ⟨h, x, rfl⟩ := released
    cases last : b.outcome? <;> simp [signs, Sign.isStart, last]
  · rw [signs_started fun h x e => released ⟨h, x, e⟩]
    cases b.outcome? <;> rfl

namespace Story

variable {r : Reference} {i : Nat} {slot : Slot Activity} {given : List Sign}

theorem of_unreleased (story : Story r i slot given) (idle : .invoked i r.1 r.2 ∉ given) :
    slot = .waiting (.release r.1 r.2) ∨ slot = .started (.release r.1 r.2) := by
  cases story with
  | waiting => exact .inl rfl
  | started => exact .inr rfl
  | releasing | ended | joined => simp at idle

theorem of_starting (story : Story r i slot given) (starting : slot.isStarting = true) :
    slot = .started (.release r.1 r.2) ∧ .invoked i r.1 r.2 ∉ given := by
  cases story with
  | started => simp
  | @releasing a begun =>
    cases a with
    | release h x => exact absurd rfl (begun h x)
    | _ => cases starting
  | waiting | ended | joined => cases starting

end Story

namespace FanOut.Recorded

variable {text : Nat → Payload → String} {all : FanOut Activity} {rs : List Reference} {signs : List Sign} {i : Nat}
  {r : Reference}

theorem unreleased (recorded : all.Recorded text rs signs) (listed : rs[i]? = some r)
    (idle : .invoked i r.1 r.2 ∉ signs) :
    all.slots[i]? = some (.waiting (.release r.1 r.2)) ∨ all.slots[i]? = some (.started (.release r.1 r.2)) := by
  obtain ⟨slot, found, story⟩ := recorded.slot listed
  obtain rfl | rfl := story.of_unreleased fun mem => idle (List.mem_filter.mp mem).1
  · exact .inl found
  · exact .inr found

theorem starting (recorded : all.Recorded text rs signs) (some_starting : 0 < all.slots.countP Slot.isStarting) :
    ∃ i r, rs[i]? = some r ∧ .invoked i r.1 r.2 ∉ signs ∧
      all.slots[i]? = some (.started (.release r.1 r.2)) := by
  obtain ⟨slot, mem, starting⟩ := List.countP_pos_iff.mp some_starting
  obtain ⟨i, found⟩ := List.mem_iff_getElem?.mp mem
  have inside : i < rs.length := recorded.size ▸ (List.getElem?_eq_some_iff.mp found).1
  have story := recorded.story i rs[i] slot (List.getElem?_eq_getElem inside) found
  obtain ⟨rfl, idle⟩ := story.of_starting starting
  refine ⟨i, rs[i], List.getElem?_eq_getElem inside, fun mem => idle ?_, found⟩
  exact List.mem_filter.mpr ⟨mem, by simp [Sign.isOf, Sign.position?]⟩

end FanOut.Recorded

namespace Activity

variable {env : Surroundings} {w w' : World} {all all' : FanOut Activity} {a' : Activity} {path : Path} {i : Nat}
  {o : Outcome}

/-- A job takes a permit when it starts and gives it back when its release ends, and no permit goes any other way. -/
theorem Step.free (h : Step w env (fanOut all) path w' a') (fanned : a' = fanOut all') :
    all'.free.map (· + ((fanOut all).signs path a').countP Sign.isStart) =
      all.free.map (· + (Sign.endings ((fanOut all).signs path a')).length) := by
  cases h with
  | act acts => cases acts
  | close => cases fanned
  | @start env _ _ i started =>
    cases fanned
    obtain ⟨job, waits, permit, rfl⟩ := FanOut.start?_eq_some.mp started
    rw [signs_start started]
    cases free : all.free with
    | none => rfl
    | some n =>
      have some_free : n ≠ 0 := by simpa [FanOut.hasPermit, free] using permit
      exact congrArg some (Nat.sub_add_cancel (Nat.pos_of_ne_zero some_free))
  | @join env _ i o _ found =>
    cases fanned
    have shown : (fanOut all).signs [i] (Activity.join (env.panicText [i]) w all i o).2 = [.joined i] :=
      signs_join found _
    rw [shown]
    rfl
  | @child env _ i a path w' c found step =>
    cases fanned
    rw [signs_child found, Slot.starts_signs, Slot.endings_signs]
    cases last : c.isEnded with
    | true =>
      obtain ⟨o, rfl⟩ := isEnded_eq_true.mp last
      cases free : all.free <;> simp [FanOut.advance, outcome?, free]
    | false =>
      have silent : c.outcome? = none := by simpa [isEnded] using last
      simp [FanOut.advance, silent]

/-- The permit of a job is back as soon as its release has ended, whatever it has come to. -/
theorem Step.returns_permit (h : Step w env (fanOut all) path w' a') (given : .ended i o ∈ (fanOut all).signs path a') :
    ∃ all', a' = fanOut all' ∧ all'.slots[i]? = some (.started (ended o)) ∧ all'.free = all.free.map (· + 1) := by
  have last := at_of_ended given
  cases h with
  | act acts => cases acts
  | close => cases last
  | @start env _ all' j started =>
    rw [signs_start started] at given
    cases List.mem_singleton.mp given
  | @join env _ j o' _ found =>
    have shown : (fanOut all).signs [j] (Activity.join (env.panicText [j]) w all j o').2 = [.joined j] :=
      signs_join found _
    rw [shown] at given
    cases List.mem_singleton.mp given
  | @child env _ j a path w' c found step =>
    have now : (all.advance j c c.isEnded).slots[j]? = some (.started c) := getElem?_set_found found
    rw [signs_child found] at given
    cases Slot.position?_signs _ given
    cases last with
    | job running there =>
      rw [now] at running
      cases running
      cases there
      exact ⟨_, rfl, now, rfl⟩

end Activity

namespace Machine

variable {env : Environment} {m m' : Machine} {moves : List Move} {id : CallId} {p : Place} {config : Config}
  {rs : List Reference} {all : FanOut Activity} {i : Nat} {r : Reference}

/-- What holds of a fan-out at first, with the signs it has given, and still does after each of its steps, holds as
long as it stands. -/
theorem Run.fanned {Q : FanOut Activity → List Sign → Prop} (run : Run env m moves m') (valid : m.Valid)
    (admissible : config.isAdmissible = true) (here : m.At id p (.spread config rs))
    (start : Q { free := config.releaseLimit, slots := (rs.map fun r => .release r.1 r.2).map .waiting } [])
    (steps : ∀ {w w' all a' path given}, Activity.Step w ((env id).under p.path) (.fanOut all) path w' a' →
      (Activity.fanOut all).Staged → Q all given →
      ∀ all', a' = .fanOut all' → Q all' (given ++ (Activity.fanOut all).signs path a'))
    (there : m'.At id p (.fanOut all)) : Q all (signs env id p m moves) := by
  have kept : (∃ all', Activity.fanOut all = .fanOut all' ∧ Q all' (signs env id p m moves)) ∨
      ∃ o, Activity.fanOut all = .ended o := by
    refine run.observe (P := fun _ given _ _ b => (∃ all, b = .fanOut all ∧ Q all given) ∨ ∃ o, b = .ended o) valid here
      ?_ (fun _ holds => holds) (fun first _ here own _ holds => ?_) there
    · rw [Activity.spread, FanOut.spawn?_eq, admissible]
      exact .inl ⟨_, rfl, start⟩
    · obtain ⟨all, rfl, holds⟩ | ⟨o, rfl⟩ := holds
      · have staged := here.staged (first.valid valid)
        obtain ⟨all', fanned, -⟩ | ended := own.permits staged
        · exact .inl ⟨all', fanned, steps own staged holds all' fanned⟩
        · exact .inr ended
      · exact own.not_ended.elim
  obtain ⟨all', same, holds⟩ | ⟨o, closed⟩ := kept
  · cases same
    exact holds
  · cases closed

theorem Run.permits (run : Run env m moves m') (valid : m.Valid) (admissible : config.isAdmissible = true)
    (here : m.At id p (.spread config rs)) (there : m'.At id p (.fanOut all)) : all.permits = config.releaseLimit := by
  refine run.fanned (Q := fun all _ => all.permits = config.releaseLimit) valid admissible here
    (FanOut.permits_spawn (by rw [FanOut.spawn?_eq, admissible]; rfl)) (fun own staged holds all' fanned => ?_) there
  obtain ⟨_, rfl, same⟩ | ⟨o, rfl⟩ := own.permits staged
  · cases fanned
    exact same.trans holds
  · cases fanned

/-- The free permits and the jobs that hold one are as many as the fan-out was given. -/
theorem Run.conserved {n free : Nat} (run : Run env m moves m') (valid : m.Valid)
    (admissible : config.isAdmissible = true) (limit : config.releaseLimit = some n)
    (here : m.At id p (.spread config rs)) (there : m'.At id p (.fanOut all)) (some_free : all.free = some free) :
    free + all.slots.countP Slot.isStarting + all.slots.countP Slot.isReleasing = n := by
  have permits := (run.permits valid admissible here there).trans limit
  rw [FanOut.permits, some_free, Option.map_some, Slot.countP_isRunning, Option.some.injEq] at permits
  omega

/-- As many permits were taken as releases have begun to, and as many given back as have ended. -/
theorem Run.free {n : Nat} (run : Run env m moves m') (valid : m.Valid) (admissible : config.isAdmissible = true)
    (limit : config.releaseLimit = some n) (here : m.At id p (.spread config rs)) (there : m'.At id p (.fanOut all)) :
    ∃ free, all.free = some free ∧ free + (signs env id p m moves).countP Sign.isStart =
      n + (Sign.endings (signs env id p m moves)).length := by
  refine run.fanned (Q := fun all given => ∃ free, all.free = some free ∧
    free + given.countP Sign.isStart = n + (Sign.endings given).length) valid admissible here ⟨n, limit, rfl⟩
    (fun {w w' all a' path given} own _ holds all' fanned => ?_) there
  obtain ⟨free, before, total⟩ := holds
  have change := own.free fanned
  rw [before, Option.map_some] at change
  obtain ⟨free', after, now⟩ := Option.map_eq_some_iff.mp change
  refine ⟨free', after, ?_⟩
  rw [List.countP_append, Sign.endings_append, List.length_append]
  omega

/-- The permit of a job is back in the machine in which its release has ended. -/
theorem Valid.returns_permit {rest : Path} {o : Outcome} (valid : m.Valid)
    (step : m.step? env (.run id (p.path ++ rest)) = some m') (here : m.At id p (.fanOut all))
    (given : .ended i o ∈ shown env id p m (.run id (p.path ++ rest))) :
    ∃ all', m'.At id p (.fanOut all') ∧ all'.slots[i]? = some (.started (.ended o)) ∧
      all'.free = all.free.map (· + 1) := by
  obtain ⟨-, aside⟩ | ⟨rest', b', same, own, now⟩ | ⟨⟨o', ended⟩ | dropped, -⟩ := valid.at_own step here
  · rw [shown_aside aside] at given
    cases given
  · rw [same, shown_own (same ▸ step) here now] at given
    obtain ⟨all', rfl, closed, back⟩ := own.returns_permit given
    exact ⟨all', now, closed, back⟩
  · cases ended
  · cases dropped

/-- The component of a job can be released by steps of the job alone. -/
def CanRelease (env : Environment) (m : Machine) (id : CallId) (p : Place) (i : Nat) (r : Reference) : Prop :=
  ∃ moves m', Run env m moves m' ∧ (∀ a ∈ moves, a = .run id (p.path ++ [i])) ∧
    .invoked i r.1 r.2 ∈ signs env id p m moves

/-- A job that has its permit does not wait for anything more. -/
theorem Valid.released_at_once (valid : m.Valid) (env : Environment) (here : m.At id p (.fanOut all))
    (starting : all.slots[i]? = some (.started (.release r.1 r.2))) : CanRelease env m id p i r := by
  obtain ⟨⟨w, a⟩, acts⟩ : ∃ s, Activity.act ((((env id).under p.path).under [i]).behaviour []) m.world
      (.release r.1 r.2) = some s := ⟨_, rfl⟩
  obtain ⟨m', step, -, there⟩ := valid.step_at env here (.child starting (.act acts))
  refine ⟨[.run id (p.path ++ [i])], m', Run.start.next step, by simp, ?_⟩
  rw [signs, shown_own step here there, Activity.signs_child starting]
  simp [Slot.signs]

/-- A job takes a permit that is free, and is released then. -/
theorem Valid.released_with_permit (valid : m.Valid) (env : Environment) (here : m.At id p (.fanOut all))
    (waiting : all.slots[i]? = some (.waiting (.release r.1 r.2))) (permit : all.hasPermit = true) :
    CanRelease env m id p i r := by
  have started := FanOut.start?_eq_some.mpr ⟨_, waiting, permit, rfl⟩
  obtain ⟨m₁, step, -, there⟩ := valid.step_at env here (.start started)
  have starting : (all.slots.set i (.started (.release r.1 r.2)))[i]? = some (.started (.release r.1 r.2)) :=
    getElem?_set_found waiting
  obtain ⟨more, m', run, own, invoked⟩ := (valid.step step).released_at_once env there starting
  refine ⟨_, m', (Run.start.next step).append run, by simpa using own, ?_⟩
  rw [signs_append]
  exact List.mem_append_right _ (by simpa [move_eq step] using invoked)

/-- Of the permits a fan-out was given, those that are free, those of the jobs about to be released and those of the
jobs being released are all there is, as long as it stands. A job takes one permit, before its release, and gives it
back in the step in which that ends, whether in success, with a failure or in a panic. As long as fewer than all
permits are taken, each job that waits can be released; and as long as fewer jobs are being released, one that has not
been can. -/
theorem Run.cap_kept {earlier : List Move} {n : Nat} (first : Run env {} earlier m) (run : Run env m moves m')
    (positive : 1 ≤ n) (bounded : n ≤ FanOut.maxPermits) (here : m.At id p (.spread ⟨n⟩ rs))
    (there : m'.At id p (.fanOut all)) :
    (∃ free, all.free = some free ∧
      free + all.slots.countP Slot.isStarting + all.slots.countP Slot.isReleasing = n ∧
      free + (signs env id p m moves).countP Sign.isStart = n + (Sign.endings (signs env id p m moves)).length) ∧
    (∀ i r, rs[i]? = some r → ∃ slot, all.slots[i]? = some slot ∧
      Story r i slot ((signs env id p m moves).filter (Sign.isOf i))) ∧
    (∀ rest m'' i o, m'.step? env (.run id (p.path ++ rest)) = some m'' →
      .ended i o ∈ shown env id p m' (.run id (p.path ++ rest)) →
      ∃ all', m''.At id p (.fanOut all') ∧ all'.slots[i]? = some (.started (.ended o)) ∧
        all'.free = all.free.map (· + 1)) ∧
    (all.slots.countP Slot.isStarting + all.slots.countP Slot.isReleasing < n → ∀ i r, rs[i]? = some r →
      all.slots[i]? = some (.waiting (.release r.1 r.2)) → CanRelease env m' id p i r) ∧
    (all.slots.countP Slot.isReleasing < n →
      (∃ i r, rs[i]? = some r ∧ .invoked i r.1 r.2 ∉ signs env id p m moves) →
      ∃ i r, rs[i]? = some r ∧ .invoked i r.1 r.2 ∉ signs env id p m moves ∧ CanRelease env m' id p i r) := by
  have admissible : Config.isAdmissible ⟨n⟩ = true := decide_eq_true bounded
  have limit : Config.releaseLimit ⟨n⟩ = some n := if_neg (Nat.ne_of_gt positive)
  have valid := first.valid valid_empty
  have valid' := run.valid valid
  have recorded : all.Recorded (fun i => (env id).panicText (p.path ++ [i])) rs (signs env id p m moves) := by
    cases run.collects valid admissible here there with
    | running recorded => exact recorded
  obtain ⟨free, some_free, account⟩ := run.free valid admissible limit here there
  have total := run.conserved valid admissible limit here there some_free
  have permitted : all.slots.countP Slot.isStarting + all.slots.countP Slot.isReleasing < n →
      all.hasPermit = true := by
    intro fewer
    have left : free ≠ 0 := by omega
    simpa [FanOut.hasPermit, some_free] using left
  refine ⟨⟨free, some_free, total, account⟩, fun i r listed => recorded.slot listed,
    fun rest m'' i o step given => valid'.returns_permit step there given,
    fun fewer i r listed waiting => valid'.released_with_permit env there waiting (permitted fewer), ?_⟩
  rintro fewer ⟨i, r, listed, idle⟩
  obtain waiting | starting := recorded.unreleased listed idle
  · by_cases none_starting : all.slots.countP Slot.isStarting = 0
    · exact ⟨i, r, listed, idle, valid'.released_with_permit env there waiting (permitted (by omega))⟩
    -- The permits that are left may all be taken by jobs about to be released, and one of these goes first.
    · obtain ⟨j, r', listed, idle, starting⟩ := recorded.starting (Nat.pos_of_ne_zero none_starting)
      exact ⟨j, r', listed, idle, valid'.released_at_once env there starting⟩
  · exact ⟨i, r, listed, idle, valid'.released_at_once env there starting⟩

/-- The second of three releases panics, and its permit goes to the third before the panic is taken. -/
theorem cap_kept_out_of_order :
    ∃ m m₁ m₂ all₁ all₂, Run mixed {} (threeReleases ⟨2⟩) m ∧ Run mixed m (outOfOrder.take 4) m₁ ∧ 1 ≤ 2 ∧
      2 ≤ FanOut.maxPermits ∧ m.At 3 [] (.spread ⟨2⟩ [(.outside, 0), (.outside, 1), (.outside, 0)]) ∧
      m₁.At 3 [] (.fanOut all₁) ∧ (∃ free, all₁.free = some free ∧
        free + all₁.slots.countP Slot.isStarting + all₁.slots.countP Slot.isReleasing = 2) ∧
      all₁.slots.countP Slot.isReleasing = 1 ∧ m₁.step? mixed (.run 3 [1]) = some m₂ ∧ m₂.At 3 [] (.fanOut all₂) ∧
      all₂.slots[1]? = some (.started (.ended (.panicked (.fixed "gone")))) ∧
      all₂.free = all₁.free.map (· + 1) ∧ CanRelease mixed m₂ 3 [] 2 (.outside, 0) := by
  obtain ⟨m, m₁, m₂, all₁, all₂, first, run, here, there, one, step, ended, there', waiting, fewer⟩ :
      ∃ m m₁ m₂ all₁ all₂, Run mixed {} (threeReleases ⟨2⟩) m ∧ Run mixed m (outOfOrder.take 4) m₁ ∧
        m.At 3 [] (.spread ⟨2⟩ [(.outside, 0), (.outside, 1), (.outside, 0)]) ∧ m₁.At 3 [] (.fanOut all₁) ∧
        all₁.slots.countP Slot.isReleasing = 1 ∧ m₁.step? mixed (.run 3 [1]) = some m₂ ∧
        .ended 1 (.panicked (.fixed "gone")) ∈ shown mixed 3 [] m₁ (.run 3 [1]) ∧ m₂.At 3 [] (.fanOut all₂) ∧
        all₂.slots[2]? = some (.waiting (.release .outside 0)) ∧
        all₂.slots.countP Slot.isStarting + all₂.slots.countP Slot.isReleasing < 2 :=
    ⟨_, _, _, _, _, .of_foldlM rfl, .of_foldlM rfl, ⟨_, rfl, .here⟩, ⟨_, rfl, .here⟩, rfl, rfl,
      List.mem_singleton_self _, ⟨_, rfl, .here⟩, rfl, Nat.le_refl 2⟩
  obtain ⟨⟨free, some_free, conserved, -⟩, -, gives_back, -⟩ :=
    Run.cap_kept first run (by decide) (by decide) here there
  obtain ⟨all', now, closed, back⟩ := gives_back [1] m₂ 1 _ step ended
  cases now.unique there'
  obtain ⟨-, -, -, next, -⟩ := Run.cap_kept first (run.next step) (by decide) (by decide) here there'
  exact ⟨m, m₁, m₂, all₁, all₂, first, run, by decide, by decide, here, there, ⟨free, some_free, conserved⟩, one, step,
    there', closed, back, next fewer 2 (.outside, 0) rfl waiting⟩

end Machine
end MetricPipeline
