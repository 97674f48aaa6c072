import MetricPipeline.Proofs.Observation
import MetricPipeline.Proofs.Outcomes
import MetricPipeline.Proofs.Permits

/-!
# What a fan-out collects

The signs of one job tell its whole story: it takes a permit, its component is released, the release ends, and its
outcome is taken, each once and in this order (`Story`). When all releases have ended the fan-out does too, and its
outcome is made of theirs in the order in which they ended (`Run.fan_out_collects`).
-/

namespace MetricPipeline

namespace Sign

/-- The job that the sign is about. -/
def position? : Sign → Option Nat
  | started i | invoked i _ _ | ended i _ | joined i => some i
  | closed _ => none

def isOf (i : Nat) (s : Sign) : Bool := s.position? == some i

def ending? : Sign → Option (Nat × Outcome)
  | ended i o => some (i, o)
  | _ => none

/-- The releases that have ended and their outcomes, in the order in which they ended. -/
def endings (signs : List Sign) : List (Nat × Outcome) := signs.filterMap ending?

theorem endings_append (signs more : List Sign) : endings (signs ++ more) = endings signs ++ endings more :=
  List.filterMap_append

theorem endings_aside (signs : List Sign) {sign : Sign} (aside : sign.ending? = none) :
    endings (signs ++ [sign]) = endings signs := by
  simp [endings, aside]

end Sign

namespace Slot

variable {i : Nat} {a b : Activity}

/-- Once the component has been released, nothing is seen of the job until the release ends. -/
theorem signs_started (begun : ∀ h x, a ≠ .release h x) :
    (started a).signs i (.started b) = (b.outcome?.map (Sign.ended i)).toList := by
  cases a with
  | release h x => exact absurd rfl (begun h x)
  | _ => rfl

theorem endings_signs (a b : Activity) :
    Sign.endings ((started a).signs i (.started b)) = (b.outcome?.map (i, ·)).toList := by
  by_cases released : ∃ h x, a = .release h x
  · obtain ⟨h, x, rfl⟩ := released
    cases last : b.outcome? <;> simp [signs, Sign.endings, Sign.ending?, List.filterMap_cons, last]
  · rw [signs_started fun h x e => released ⟨h, x, e⟩]
    cases b.outcome? <;> rfl

theorem position?_signs {old new : Slot Activity} : ∀ s ∈ old.signs i new, s.position? = some i := by
  intro s mem
  unfold signs at mem
  split at mem
  · cases List.mem_singleton.mp mem
    rfl
  · obtain mem | mem := List.mem_append.mp mem
    · split at mem
      · cases List.mem_singleton.mp mem
        rfl
      · cases mem
    · obtain ⟨o, -, rfl⟩ := Option.map_eq_some_iff.mp (Option.mem_toList.mp mem)
      rfl
  · cases List.mem_singleton.mp mem
    rfl
  · cases mem

end Slot

/-- The faults that a fan-out takes from a release that ended so: those it failed with, or one for a panic, which has
the text with which the runtime reports it. -/
def Outcome.releaseFaults (text : Payload → String) : Outcome → List Fault
  | ok => []
  | failed failure => failure.faults
  | panicked p => [.releasePanicked (text p)]

theorem Outcome.flatMap_releaseFaults (text : Nat → Payload → String) (done : List (Nat × Outcome)) :
    (done.filterMap fun d => d.2.releaseFailure? (text d.1)).flatMap Failure.faults =
      done.flatMap fun d => d.2.releaseFaults (text d.1) := by
  induction done with
  | nil => rfl
  | cons d rest ih =>
    have first : d.2.releaseFaults (text d.1) = (d.2.releaseFailure? (text d.1)).elim [] Failure.faults := by
      cases d.2 <;> rfl
    rw [List.flatMap_cons, ← ih, first, List.filterMap_cons]
    cases d.2.releaseFailure? (text d.1) <;> rfl

/-- The job of a slot that releases a reference, and the signs it has given. -/
inductive Story (r : Reference) (i : Nat) : Slot Activity → List Sign → Prop
  | waiting : Story r i (.waiting (.release r.1 r.2)) []
  | started : Story r i (.started (.release r.1 r.2)) [.started i]
  | releasing {a} (begun : ∀ h x, a ≠ .release h x) (going : ∀ o, a ≠ .ended o) :
      Story r i (.started a) [.started i, .invoked i r.1 r.2]
  | ended {o} : Story r i (.started (.ended o)) [.started i, .invoked i r.1 r.2, .ended i o]
  | joined {o} : Story r i .joined [.started i, .invoked i r.1 r.2, .ended i o, .joined i]

theorem Story.goes_on {r : Reference} {i : Nat} {a b : Activity} {given : List Sign}
    (story : Story r i (.started a) given) (going : ∀ o, a ≠ .ended o) (begun : ∀ h x, b ≠ .release h x) :
    Story r i (.started b) (given ++ (Slot.started a).signs i (.started b)) := by
  by_cases last : ∃ o, b = .ended o
  · obtain ⟨o, rfl⟩ := last
    cases story with
    | started => exact .ended
    | releasing begun =>
      rw [Slot.signs_started begun]
      exact .ended
    | ended => exact absurd rfl (going _)
  · have still : ∀ o, b ≠ .ended o := fun o e => last ⟨o, e⟩
    have unended : b.outcome? = none := by simpa [Activity.isEnded] using Activity.isEnded_eq_false.mpr still
    cases story with
    | started =>
      rw [Slot.signs, unended]
      exact .releasing begun still
    | releasing begun' =>
      rw [Slot.signs_started begun', unended]
      exact .releasing begun still
    | ended => exact absurd rfl (going _)

/-- A fan-out that releases the references, and the signs it has given. -/
structure FanOut.Recorded (text : Nat → Payload → String) (all : FanOut Activity) (rs : List Reference)
    (signs : List Sign) : Prop where
  size : all.slots.length = rs.length
  gathered : ∃ joined waiting, Sign.endings signs = joined ++ waiting ∧ all.Gathered text joined waiting
  story : ∀ i r slot, rs[i]? = some r → all.slots[i]? = some slot → Story r i slot (signs.filter (Sign.isOf i))

namespace FanOut.Recorded

variable {text : Nat → Payload → String} {all all' : FanOut Activity} {rs : List Reference} {signs given : List Sign}
  {i : Nat} {old new : Slot Activity}

theorem spawned (free : Option Nat) (rs : List Reference) :
    Recorded text { free, slots := (rs.map fun r => .release r.1 r.2).map .waiting } rs [] where
  size := by simp
  gathered := ⟨[], [], rfl, .spawned⟩
  story := by
    intro i r slot here found
    simp only [List.map_map, List.getElem?_map, here, Option.map_some, Option.some.injEq] at found
    subst found
    exact .waiting

theorem slot {r : Reference} (recorded : all.Recorded text rs signs) (listed : rs[i]? = some r) :
    ∃ slot, all.slots[i]? = some slot ∧ Story r i slot (signs.filter (Sign.isOf i)) := by
  have inside : i < all.slots.length := recorded.size ▸ (List.getElem?_eq_some_iff.mp listed).1
  exact ⟨_, List.getElem?_eq_getElem inside, recorded.story i r _ listed (List.getElem?_eq_getElem inside)⟩

/-- A job goes on and gives signs, and the others do not. -/
theorem turn (recorded : all.Recorded text rs signs) (found : all.slots[i]? = some old)
    (slots : all'.slots = all.slots.set i new) (own : ∀ s ∈ given, s.position? = some i)
    (gathered : ∃ joined waiting, Sign.endings (signs ++ given) = joined ++ waiting ∧
      all'.Gathered text joined waiting)
    (story : ∀ r, Story r i old (signs.filter (Sign.isOf i)) → Story r i new (signs.filter (Sign.isOf i) ++ given)) :
    all'.Recorded text rs (signs ++ given) where
  size := by rw [slots, List.length_set, recorded.size]
  gathered := gathered
  story := by
    intro j r slot here now
    rw [slots] at now
    by_cases same : i = j
    · subst same
      rw [getElem?_set_found found] at now
      cases now
      have mine : given.filter (Sign.isOf i) = given :=
        List.filter_eq_self.mpr fun s mem => by simp [Sign.isOf, own s mem]
      rw [List.filter_append, mine]
      exact story r (recorded.story i r old here found)
    · rw [List.getElem?_set_ne same] at now
      have other : given.filter (Sign.isOf j) = [] :=
        List.filter_eq_nil_iff.mpr fun s mem => by simp [Sign.isOf, own s mem, same]
      rw [List.filter_append, other, List.append_nil]
      exact recorded.story j r slot here now

end FanOut.Recorded

/-! ## Steps of a fan-out -/

namespace Activity

section

variable {env : Surroundings} {w w' : World} {a a' : Activity} {path : Path}

/-- A release is the first step of a job and never a later one. -/
theorem Step.begun (h : Step w env a path w' a') (sound : ∀ t ∈ a.tasks, t.Sound w) (holder : Holder) (x : NodeId) :
    a' ≠ release holder x := by
  cases h with
  | act acts =>
    have undertaking : ∀ (c : Component) (y : NodeId), c.undertaking (env.behaviour []) y ≠ release holder x := by
      intro c y
      cases c with
      | leaf | uncounted | sink | hooked => simp [Component.undertaking]
      | router routes config =>
        simp only [Component.undertaking, spread]
        split <;> simp
    cases act_act (sound a (by simp [act_tasks acts])).known acts with
    | releaseUncounted | fire => exact undertaking _ _
    | _ => simp
  | merge | delegated | close | start | join | child => simp [Activity.join]

/-- A release that is seen to end has ended so. -/
theorem at_of_ended {i : Nat} {o : Outcome} (given : .ended i o ∈ a.signs path a') : At a' [.slot i] (ended o) := by
  unfold signs at given
  split at given
  · simp at given
  · rename_i all i' rest all'
    split at given
    · rename_i before after found now
      have own : some i = some i' := Slot.position?_signs _ given
      cases own
      unfold Slot.signs at given
      split at given
      · simp at given
      · rename_i b
        have last : .ended i o ∈ (b.outcome?.map (Sign.ended i)).toList := by
          obtain first | last := List.mem_append.mp given
          · split at first <;> simp at first
          · exact last
        obtain ⟨o', outcome, same⟩ := Option.map_eq_some_iff.mp (Option.mem_toList.mp last)
        cases same
        obtain ⟨o', rfl⟩ := isEnded_eq_true.mp (show b.isEnded = true by simp [isEnded, outcome])
        cases outcome
        exact .job now .here
      · simp at given
      · cases given
    · cases given
  · cases given

theorem signs_fanOut {all all' : FanOut Activity} {i : Nat} {old new : Slot Activity}
    (before : all.slots[i]? = some old) (after : all'.slots[i]? = some new) (path : Path) :
    (fanOut all).signs (i :: path) (fanOut all') = old.signs i new := by
  simp only [signs, before, after]

theorem signs_start {all all' : FanOut Activity} {i : Nat} (started : all.start? i = some all') :
    (fanOut all).signs [i] (fanOut all') = [.started i] := by
  obtain ⟨job, waits, slots, -⟩ := start?_slot started
  have now : all'.slots[i]? = some (.started job) := slots ▸ getElem?_set_found waits
  exact signs_fanOut waits now []

theorem signs_join {all : FanOut Activity} {i : Nat} {a : Activity} (found : all.slots[i]? = some (.started a))
    (failure : Option Failure) : (fanOut all).signs [i] (fanOut (all.join i failure)) = [.joined i] := by
  have now : (all.join i failure).slots[i]? = some .joined := getElem?_set_found found
  exact signs_fanOut found now []

theorem signs_child {all : FanOut Activity} {i : Nat} {a : Activity} (found : all.slots[i]? = some (.started a))
    (path : Path) (b : Activity) :
    (fanOut all).signs (i :: path) (fanOut (all.advance i b b.isEnded)) = (Slot.started a).signs i (.started b) := by
  have now : (all.advance i b b.isEnded).slots[i]? = some (.started b) := getElem?_set_found found
  exact signs_fanOut found now path

/-- A step of a fan-out is recorded, or is its last. -/
theorem Step.recorded {all : FanOut Activity} {rs : List Reference} {given : List Sign}
    (h : Step w env (fanOut all) path w' a') (sound : ∀ t ∈ (fanOut all).tasks, t.Sound w)
    (staged : (fanOut all).Staged) (recorded : all.Recorded (fun i => env.panicText [i]) rs given) :
    (∃ all', a' = fanOut all' ∧
      all'.Recorded (fun i => env.panicText [i]) rs (given ++ (fanOut all).signs path (fanOut all'))) ∨
    all.isEnded = true ∧ path = [] ∧ a' = ended (.ofResult all.result) := by
  obtain ⟨joined, waiting, endings, gathered⟩ := recorded.gathered
  cases h with
  | act acts => cases acts
  | close all_ended => exact .inr ⟨all_ended, rfl, rfl⟩
  | @start env _ all' i started =>
    obtain ⟨job, waits, slots, queue, errors⟩ := start?_slot started
    obtain ⟨h, x, rfl⟩ := staged_waiting staged waits
    refine .inl ⟨all', rfl, ?_⟩
    rw [signs_start started]
    refine recorded.turn waits slots (by simp [Sign.position?]) ⟨joined, waiting, ?_, ?_⟩ fun r story => ?_
    · exact (Sign.endings_aside given rfl).trans endings
    · exact gathered.set waits slots queue errors (by simp) (by simp) (by simp) (by simp)
    · generalize given.filter (Sign.isOf i) = told at story ⊢
      cases story with
      | waiting => exact .started
  | @join env _ i o next found =>
    obtain ⟨rest, rfl, more⟩ := gathered.join next found
    refine .inl ⟨_, rfl, ?_⟩
    rw [signs_join found]
    refine recorded.turn found rfl (by simp [Sign.position?]) ⟨joined ++ [(i, o)], rest, ?_, more⟩ fun r story => ?_
    · rw [← List.append_cons]
      exact (Sign.endings_aside given rfl).trans endings
    · generalize given.filter (Sign.isOf i) = told at story ⊢
      cases story with
      | releasing _ going => exact absurd rfl (going o)
      | ended => exact .joined
  | @child env _ i a path w' c found step =>
    have begun := step.begun fun t mem => sound t (tasks_child found t mem)
    refine .inl ⟨_, rfl, ?_⟩
    rw [signs_child found]
    refine recorded.turn found rfl Slot.position?_signs ?_ fun r story => story.goes_on step.going begun
    rw [Sign.endings_append, endings, Slot.endings_signs]
    by_cases last : ∃ o, c = ended o
    · obtain ⟨o, rfl⟩ := last
      exact ⟨joined, waiting ++ [(i, o)], List.append_assoc .., gathered.last found step.going o⟩
    · have still : ∀ o, c ≠ ended o := fun o e => last ⟨o, e⟩
      have unended : c.isEnded = false := isEnded_eq_false.mpr still
      have silent : c.outcome? = none := by simpa [isEnded] using unended
      refine ⟨joined, waiting, by simp [silent], ?_⟩
      rw [unended]
      exact gathered.set found rfl rfl rfl (by simpa using step.going) (by simpa using still) (by simp) (by simp)

end

end Activity

/-! ## Runs of a fan-out -/

/-- What a fan-out that releases the references has come to, with the signs it has given. -/
inductive Collects (text : Nat → Payload → String) (rs : List Reference) (signs : List Sign) : Activity → Prop
  | running {all : FanOut Activity} (recorded : all.Recorded text rs signs) : Collects text rs signs (.fanOut all)
  | ended {o : Outcome} (stories : ∀ i r, rs[i]? = some r →
        ∃ o, signs.filter (Sign.isOf i) = [.started i, .invoked i r.1 r.2, .ended i o, .joined i])
      (perm : ((Sign.endings signs).map (·.1)).Perm (List.range rs.length))
      (merged : o = .ofResult (Failure.merge ((Sign.endings signs).filterMap fun d =>
        d.2.releaseFailure? (text d.1)))) :
      Collects text rs signs (.ended o)

theorem Collects.start {text : Nat → Payload → String} {config : Config} (admissible : config.isAdmissible = true)
    (rs : List Reference) : Collects text rs [] (.spread config rs) := by
  unfold Activity.spread
  rw [FanOut.spawn?_eq, admissible]
  exact .running (.spawned ..)

theorem FanOut.Recorded.ended {text : Nat → Payload → String} {all : FanOut Activity} {rs : List Reference}
    {signs : List Sign} (recorded : all.Recorded text rs signs) (all_ended : all.isEnded = true) :
    Collects text rs (signs ++ [.closed (.ofResult all.result)]) (.ended (.ofResult all.result)) := by
  have quiet : Sign.endings (signs ++ [.closed (.ofResult all.result)]) = Sign.endings signs :=
    Sign.endings_aside signs rfl
  obtain ⟨joined, waiting, endings, gathered⟩ := recorded.gathered
  obtain ⟨rfl, perm⟩ := gathered.all_joined all_ended
  rw [List.append_nil] at endings
  refine .ended (fun i r here => ?_) ?_ ?_
  · obtain ⟨slot, found, story⟩ := recorded.slot here
    have other : [Sign.closed (.ofResult all.result)].filter (Sign.isOf i) = [] := rfl
    rw [List.filter_append, other, List.append_nil]
    have closed := List.all_eq_true.mp all_ended _ (List.mem_of_getElem? found)
    generalize signs.filter (Sign.isOf i) = told at story ⊢
    cases story with
    | joined => exact ⟨_, rfl⟩
    | waiting | started | releasing | ended => cases closed
  · rw [quiet, endings, ← recorded.size]
    exact perm
  · rw [quiet, endings, gathered.result]

theorem Collects.steps {env : Surroundings} {w w' : World} {b b' : Activity} {path : Path} {rs : List Reference}
    {signs : List Sign} (collects : Collects (fun i => env.panicText [i]) rs signs b)
    (sound : ∀ t ∈ b.tasks, t.Sound w) (staged : b.Staged) (own : Activity.Step w env b path w' b') :
    Collects (fun i => env.panicText [i]) rs (signs ++ b.signs path b') b' := by
  cases collects with
  | ended => exact own.not_ended.elim
  | running recorded =>
    obtain ⟨all', rfl, more⟩ | ⟨all_ended, rfl, rfl⟩ := own.recorded sound staged recorded
    · exact .running more
    · exact recorded.ended all_ended

namespace Machine

section

variable {env : Environment} {m m' : Machine} {moves : List Move} {id : CallId} {p : Place} {config : Config}
  {rs : List Reference} {b : Activity}

theorem Run.collects (run : Run env m moves m') (valid : m.Valid) (admissible : config.isAdmissible = true)
    (here : m.At id p (.spread config rs)) (there : m'.At id p b) :
    Collects (fun i => (env id).panicText (p.path ++ [i])) rs (signs env id p m moves) b :=
  run.observe (P := fun _ signs _ _ b => Collects (fun i => (env id).panicText (p.path ++ [i])) rs signs b) valid here
    (.start admissible rs) (fun _ collects => collects)
    (fun run _ here own _ collects =>
      collects.steps (here.sound (run.valid valid)) (here.staged (run.valid valid)) own) there

/-- A release that is seen to end has ended so, where its job stands. -/
theorem Run.sign_ended (run : Run env m moves m') {i : Nat} {o : Outcome}
    (given : .ended i o ∈ signs env id p m moves) : Passes env m moves m' (·.At id (p ++ [.slot i]) (.ended o)) := by
  induction run with
  | start => cases given
  | @next moves m₁ move m₂ run step ih =>
    rw [run.signs_next, List.mem_append] at given
    obtain before | now := given
    · exact (ih before).next step
    · unfold shown at now
      split at now
      · rename_i there
        rw [move_eq step] at there
        exact (run.next step).passes ((at?_eq_some.mp there).append (Activity.at_of_ended now))
      · cases now

/-- When all releases have ended, the fan-out takes their outcomes and ends. -/
theorem Valid.joins {all : FanOut Activity} (valid : m.Valid) (env : Environment) (here : m.At id p (.fanOut all))
    (closed : ∀ slot ∈ all.slots, slot = .joined ∨ ∃ o, slot = .started (.ended o)) :
    ∃ more m' o, Run env m more m' ∧ (∀ a ∈ more, ∃ rest, a = .run id (p.path ++ rest)) ∧ m'.At id p (.ended o) := by
  generalize left : all.queue.length = n
  induction n generalizing m all with
  | zero =>
    have queued := Activity.staged_queued (here.staged valid)
    have all_ended : all.isEnded = true := by
      refine List.all_eq_true.mpr fun slot mem => ?_
      obtain rfl | ⟨o, rfl⟩ := closed slot mem
      · rfl
      · obtain ⟨i, found⟩ := List.mem_iff_getElem?.mp mem
        have next := (queued.ended i).mpr ⟨o, found⟩
        rw [List.length_eq_zero_iff.mp left] at next
        cases next
    obtain ⟨m', step, -, there⟩ := valid.step_at env here (.close all_ended)
    exact ⟨_, m', _, Run.start.next step, by simp, there⟩
  | succ n ih =>
    obtain ⟨i, rest, queue⟩ := List.exists_cons_of_length_eq_add_one left
    have next : all.next? = some i := by simp [FanOut.next?, queue]
    obtain ⟨o, ended⟩ := (Activity.staged_queued (here.staged valid)).next next
    obtain ⟨m₁, step, -, there⟩ := valid.step_at env here (.join next ended)
    have fewer : (all.join i (o.releaseFailure? (((env id).under p.path).panicText [i]))).queue.length = n := by
      simpa [FanOut.join, queue] using left
    obtain ⟨more, m', o', rest, own, ended⟩ := ih (valid.step step) there
      (fun slot mem => (List.mem_or_eq_of_mem_set mem).elim (closed slot) .inl) fewer
    exact ⟨_, m', o', (Run.start.next step).append rest, by simpa using own, ended⟩

/-- A fan-out that is not dropped goes on until it has ended, and when every release has ended it does. By then each
component was released once for each place it has in the list, after its job was given a permit, and that release has
ended. The fan-out does not panic: it ends with the faults of the releases, those of each together, in the order in
which the releases ended, and in success if there are none. A release that panicked has one fault, with the text with
which the runtime reports the panic, whatever that is. -/
theorem Run.fan_out_collects {earlier : List Move} (first : Run env {} earlier m) (run : Run env m moves m')
    (admissible : config.isAdmissible = true) (here : m.At id p (.spread config rs)) :
    ((∃ all, m'.At id p (.fanOut all) ∧
        ((∀ slot ∈ all.slots, slot = .joined ∨ ∃ o, slot = .started (.ended o)) →
          ∃ more m'' o, Run env m' more m'' ∧ (∀ a ∈ more, ∃ rest, a = .run id (p.path ++ rest)) ∧
            m''.At id p (.ended o))) ∨
      .cancel id ∈ moves ∨ ∃ o, Passes env m moves m' (·.At id p (.ended o))) ∧
    ∀ o, m'.At id p (.ended o) →
      (∀ i r, rs[i]? = some r → ∃ o',
        (signs env id p m moves).filter (Sign.isOf i) = [.started i, .invoked i r.1 r.2, .ended i o', .joined i] ∧
        Passes env m moves m' (·.At id (p ++ [.slot i]) (.ended o'))) ∧
      ∃ ended faults, ended = Sign.endings (signs env id p m moves) ∧
        (ended.map (·.1)).Perm (List.range rs.length) ∧
        faults = ended.flatMap (fun d => d.2.releaseFaults ((env id).panicText (p.path ++ [d.1]))) ∧
        o = if faults = [] then .ok else .failed (.aggregate ⟨faults⟩) := by
  have valid := first.valid valid_empty
  refine ⟨?_, fun o there => ?_⟩
  · obtain ⟨b, there⟩ | fate := run.at_fate valid here
    · cases run.collects valid admissible here there with
      | running => exact .inl ⟨_, there, (run.valid valid).joins env there⟩
      | ended => exact .inr (.inr ⟨_, run.passes there⟩)
    · exact .inr fate
  · generalize given : signs env id p m moves = s
    have collects := run.collects valid admissible here there
    rw [given] at collects
    cases collects with
    | ended stories perm merged =>
      refine ⟨fun i r listed => ?_, _, _, rfl, perm, rfl, ?_⟩
      · obtain ⟨o', story⟩ := stories i r listed
        have last : .ended i o' ∈ s.filter (Sign.isOf i) := by simp [story]
        exact ⟨o', story, run.sign_ended (given ▸ (List.mem_filter.mp last).1)⟩
      · rw [merged, Failure.merge_eq, Outcome.flatMap_releaseFaults fun i => (env id).panicText (p.path ++ [i])]
        split <;> rfl

/-- The teardown of the first leaf fails in two ways at once, and that of the second panics. The runtime has a number
for each release. -/
def mixed : Environment := fun _ => {
  behaviour := fun _ k =>
    if k.node = 0 then { failure := some (.aggregate ⟨[.failed "disk", .failed "socket"]⟩) }
    else { panic := some (.fixed "gone") }
  panicText := fun path p =>
    "task " ++ toString (20 + path.headD 0) ++ " panicked with message " ++ Payload.quoted (p.text?.getD "") }

/-- Two leaves, the first of them acquired twice, are about to be released side by side. -/
def threeReleases (config : Config) : List Move :=
  [.build .leaf, .build .leaf, .call (.acquire 0), .run 0 [], .run 0 [], .call (.acquire 0), .run 1 [], .run 1 [],
    .call (.acquire 1), .run 2 [], .run 2 [], .call (.releaseAll [0, 1, 0] config)]

/-- The second release ends first, and the first last. -/
def outOfOrder : List Move :=
  [.run 3 [1], .run 3 [0], .run 3 [1], .run 3 [1], .run 3 [1], .run 3 [2], .run 3 [2], .run 3 [1], .run 3 [0],
    .run 3 [0], .run 3 [0], .run 3 [2], .run 3 [0], .run 3 []]

theorem fan_out_collects_out_of_order :
    ∃ m m' o, Run mixed {} (threeReleases ⟨2⟩) m ∧ Run mixed m outOfOrder m' ∧
      m.At 3 [] (.spread ⟨2⟩ [(.outside, 0), (.outside, 1), (.outside, 0)]) ∧ m'.At 3 [] (.ended o) ∧
      (Sign.endings (signs mixed 3 [] m outOfOrder)).map (·.1) = [1, 2, 0] ∧
      o = .failed (.aggregate ⟨[.releasePanicked ((mixed 3).panicText [1] (.fixed "gone")), .failed "disk",
        .failed "socket"]⟩) ∧
      ∃ o', (signs mixed 3 [] m outOfOrder).filter (Sign.isOf 0) =
          [.started 0, .invoked 0 .outside 0, .ended 0 o', .joined 0] ∧
        Passes mixed m outOfOrder m' (·.At 3 [.slot 0] (.ended o')) := by
  obtain ⟨m, m', o, first, run, here, there, endings⟩ :
      ∃ m m' o, Run mixed {} (threeReleases ⟨2⟩) m ∧ Run mixed m outOfOrder m' ∧
        m.At 3 [] (.spread ⟨2⟩ [(.outside, 0), (.outside, 1), (.outside, 0)]) ∧ m'.At 3 [] (.ended o) ∧
        Sign.endings (signs mixed 3 [] m outOfOrder) = [(1, .panicked (.fixed "gone")), (2, .ok),
          (0, .failed (.aggregate ⟨[.failed "disk", .failed "socket"]⟩))] :=
    ⟨_, _, _, .of_foldlM rfl, .of_foldlM rfl, ⟨_, rfl, .here⟩, ⟨_, rfl, .here⟩, rfl⟩
  obtain ⟨stories, _, _, rfl, order, rfl, result⟩ := (Run.fan_out_collects first run (by decide) here).2 o there
  obtain ⟨o', story, ended⟩ := stories 0 (.outside, 0) rfl
  rw [endings] at result
  exact ⟨m, m', o, first, run, here, there, by rw [endings]; rfl, result, o', story, ended⟩

end

end Machine
end MetricPipeline
