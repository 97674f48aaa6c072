import MetricPipeline.Proofs.Conservation
import MetricPipeline.Proofs.History
import Mathlib.Data.List.Basic

/-!
# Panics that become faults

A fan-out holds the faults that its jobs have brought it, and others only if it has made them itself. What it has made
is told by the call before and after a step (`Activity.newFaults`), wherever in the call the fan-out stands. It makes
one when it takes the outcome of a release that has panicked, and none otherwise (`Step.newFaults`); when it does, it
writes so, and what is written are the faults that were made, one by one (`Run.panics`).
-/

namespace MetricPipeline

theorem append_diff_left {α : Type} [BEq α] [LawfulBEq α] (xs ys : List α) : (xs ++ ys).diff xs = ys := by
  induction xs with
  | nil => rfl
  | cons x rest ih => simpa [List.diff_cons] using ih

theorem diff_itself {α : Type} [BEq α] [LawfulBEq α] (xs : List α) : xs.diff xs = [] := by
  simpa using append_diff_left xs []

/-- The faults of a job that is joined. -/
def Slot.brings : Slot Activity → Slot Activity → List Fault
  | started (.ended o), joined => o.faults
  | _, _ => []

def Slot.allBring (before after : List (Slot Activity)) : List Fault :=
  (List.zipWith Slot.brings before after).flatten

/-- The fault that is made of an outcome when it is taken. -/
def Outcome.panicFaults (text : Payload → String) : Outcome → List Fault
  | panicked p => [.releasePanicked (text p)]
  | _ => []

namespace Activity

mutual

/-- The faults that the fan-outs of a call hold, or end with, after a step of it, and that neither they held before nor
a job has brought. -/
def newFaults : Activity → Activity → List Fault
  | delegate _ a, delegate _ b => newFaults a b
  | fanOut ⟨_, slots, _, errors⟩, fanOut all =>
    all.errors.faults.diff (errors.faults ++ Slot.allBring slots all.slots) ++ slotsNewFaults slots all.slots
  | fanOut ⟨_, _, _, errors⟩, ended o => o.faults.diff errors.faults
  | _, fanOut all => all.errors.faults
  | _, _ => []

def slotsNewFaults : List (Slot Activity) → List (Slot Activity) → List Fault
  | .waiting a :: rest, .started b :: rest' | .started a :: rest, .started b :: rest' =>
    newFaults a b ++ slotsNewFaults rest rest'
  | _ :: rest, _ :: rest' => slotsNewFaults rest rest'
  | _, _ => []

end

end Activity

namespace Slot

theorem brings_self (slot : Slot Activity) : slot.brings slot = [] := by
  cases slot <;> simp [brings]

theorem allBring_self (slots : List (Slot Activity)) : allBring slots slots = [] := by
  simp [allBring, brings_self]

theorem allBring_set {slots : List (Slot Activity)} {i : Nat} {old : Slot Activity} (found : slots[i]? = some old)
    (new : Slot Activity) : allBring slots (slots.set i new) = old.brings new := by
  induction slots generalizing i with
  | nil => simp at found
  | cons slot rest ih =>
    cases i with
    | zero =>
      cases found
      simp [allBring, brings_self]
    | succ i => simpa [allBring, brings_self] using ih found

end Slot

namespace Activity

theorem slotsNewFaults_self {slots : List (Slot Activity)} (jobs : ∀ a, .started a ∈ slots → a.newFaults a = []) :
    slotsNewFaults slots slots = [] := by
  induction slots with
  | nil => rfl
  | cons slot rest ih =>
    have later := ih fun a mem => jobs a (List.mem_cons_of_mem _ mem)
    cases slot with
    | started a => simp [slotsNewFaults, jobs a List.mem_cons_self, later]
    | waiting | joined => exact later

/-- What stays as it is has made nothing. -/
theorem newFaults_self (a : Activity) : a.newFaults a = [] := by
  induction a using tree_induction with
  | task a notDelegate notFanOut =>
    cases a with
    | delegate => exact absurd rfl (notDelegate _ _)
    | fanOut => exact absurd rfl (notFanOut _)
    | _ => rfl
  | delegated f below ih => exact ih
  | spread free slots queue errors ih =>
    have jobs : slotsNewFaults slots slots = [] := slotsNewFaults_self fun a mem => ih a (.inr mem)
    simp [newFaults, jobs, Slot.allBring_self, diff_itself]

theorem slotsNewFaults_set {slots : List (Slot Activity)} {i : Nat} {old : Slot Activity}
    (found : slots[i]? = some old) (new : Slot Activity) :
    slotsNewFaults slots (slots.set i new) = slotsNewFaults [old] [new] := by
  induction slots generalizing i with
  | nil => simp at found
  | cons slot rest ih =>
    cases i with
    | zero =>
      cases found
      have others : slotsNewFaults rest rest = [] := slotsNewFaults_self fun a _ => newFaults_self a
      cases old <;> cases new <;> simp [slotsNewFaults, others]
    | succ i =>
      have later := ih found
      cases slot <;> simp [slotsNewFaults, newFaults_self, later]

/-- A fan-out one of whose slots changes. -/
theorem newFaults_fanOut {all all' : FanOut Activity} {i : Nat} {old new : Slot Activity}
    (found : all.slots[i]? = some old) (slots : all'.slots = all.slots.set i new) :
    (fanOut all).newFaults (fanOut all') =
      all'.errors.faults.diff (all.errors.faults ++ old.brings new) ++ slotsNewFaults [old] [new] := by
  rw [← Slot.allBring_set found new, ← slotsNewFaults_set found new, ← slots]
  rfl

section

variable {env : Work → Behaviour} {w w' : World} {t t' : Activity}

/-- A fan-out begins with nothing. -/
theorem newFaults_spread (before : ∀ b, t.newFaults b = (fire 0).newFaults b) (config : Config)
    (rs : List Reference) : t.newFaults (spread config rs) = [] := by
  rw [before, spread, FanOut.spawn?_eq]
  cases config.isAdmissible <;> rfl

theorem newFaults_undertaking (before : ∀ b, t.newFaults b = (fire 0).newFaults b) (env : Work → Behaviour)
    (c : Component) (x : NodeId) : t.newFaults (c.undertaking env x) = [] := by
  cases c with
  | leaf | uncounted | sink | hooked => exact before _
  | router routes config => exact newFaults_spread before config _

theorem Act.newFaults (h : Act env w t w' t') : t.newFaults t' = [] := by
  cases h with
  | releaseUncounted | fire => exact newFaults_undertaking (fun b => by cases b <;> rfl) ..
  | _ => rfl

end

/-- A fan-out makes a fault of the panic of a release when it takes its outcome, and makes no other. -/
theorem Step.newFaults {env : Surroundings} {w w' : World} {a a' : Activity} {path : Path}
    (h : Step w env a path w' a') (sound : ∀ t ∈ a.tasks, t.Sound w) :
    a.newFaults a' = (a.collected? path).elim [] (Outcome.panicFaults (env.panicText path)) := by
  induction h with
  | @act env a w' a' acts =>
    rw [collected?_nil]
    exact (act_act (sound a (by simp [act_tasks acts])).known acts).newFaults
  | merge => rfl
  | delegated _ ih => exact ih sound
  | @close env all =>
    change (Outcome.ofResult all.errors.result).faults.diff all.errors.faults = []
    rw [Outcome.faults_ofResult, diff_itself]
  | @start env all all' i started =>
    obtain ⟨job, waiting, slots, -, errors⟩ := start?_slot started
    rw [collected?_start started, newFaults_fanOut waiting slots, errors]
    simp [Slot.brings, slotsNewFaults, newFaults_self, diff_itself]
  | @join env all i o _ found =>
    have taken : (fanOut all).collected? [i] = some o := slotCollected?_nil.mpr found
    have joined : (all.join i (o.releaseFailure? (env.panicText [i]))).slots = all.slots.set i .joined := rfl
    have split : (all.join i (o.releaseFailure? (env.panicText [i]))).errors.faults =
        all.errors.faults ++ o.faults ++ o.panicFaults (env.panicText [i]) := by
      cases o <;> simp [FanOut.join, Outcome.releaseFailure?, Outcome.faults, Outcome.panicFaults, Failure.faults]
    change (fanOut all).newFaults (fanOut (all.join i (o.releaseFailure? (env.panicText [i])))) = _
    rw [taken, newFaults_fanOut found joined, split, Slot.brings, append_diff_left]
    simp [slotsNewFaults]
  | @child env all i b path w' b' found step ih =>
    have mine : b.newFaults b' = (b.collected? path).elim [] (Outcome.panicFaults (env.panicText (i :: path))) :=
      ih fun t mem => sound t (tasks_child found t mem)
    have set : (all.advance i b' b'.isEnded).slots = all.slots.set i (.started b') := rfl
    rw [collected?_child found step.going, ← mine, newFaults_fanOut found set]
    simp [Slot.brings, slotsNewFaults, FanOut.advance, diff_itself]

end Activity

theorem Request.newFaults_activity (r : Request) : (Activity.ended .ok).newFaults r.activity = [] := by
  cases r with
  | releaseAll xs config => exact Activity.newFaults_spread (fun b => by cases b <;> rfl) config _
  | acquire | release | report => rfl

/-! ## Moves -/

/-- The faults that fan-outs have made in the move, as the calls before and after it show. -/
def Transition.newFaults (t : Transition) : List Fault :=
  t.after.calls.flatMap fun c => ((t.before.activity? c.1).getD (.ended .ok)).newFaults c.2

/-- The panic of a release whose outcome a fan-out takes in the move, and where it stood. -/
def Transition.panic? (t : Transition) : Option (CallId × Path × Payload) :=
  match t.move with
  | .run id path =>
    match (t.before.activity? id).bind (·.collected? path) with
    | some (.panicked p) => some (id, path, p)
    | _ => none
  | _ => none

namespace Machine

variable {env : Environment} {m m' : Machine} {moves : List Move} {a : Move}

/-- Calls that take no step make no faults. -/
theorem Valid.newFaults_apart {c : CallId × Activity} (valid : m.Valid) (step : m.step? env a = some m')
    (mem : c ∈ m'.calls) (apart : ∀ path, a ≠ .run c.1 path) :
    ((m.activity? c.1).getD (.ended .ok)).newFaults c.2 = [] := by
  have found := (valid.step step).activity?_of_mem mem
  cases valid.callChange step c.1 with
  | stays _ same => rw [← same, found, Option.getD_some, Activity.newFaults_self]
  | @begins r _ old new =>
    rw [found] at new
    obtain same : c.2 = r.activity := Option.some.inj new
    rw [same, old]
    exact r.newFaults_activity
  | steps => exact absurd rfl (apart _)
  | returns _ new | dropped _ _ new =>
    rw [found] at new
    cases new

/-- The faults that fan-outs make in a move are those of the panics they take, one for each. -/
theorem Valid.newFaults (valid : m.Valid) (step : m.step? env a = some m') :
    (Transition.mk m a m').newFaults =
      ((Transition.mk m a m').panic?.map fun s => Fault.releasePanicked ((env s.1).panicText s.2.1 s.2.2)).toList := by
  unfold Transition.newFaults
  cases a with
  | run id path =>
    obtain ⟨b, b', before, after, found, moved, split, split', -, -⟩ := valid.run step
    have own := (Activity.step?_step moved).newFaults (valid.sound_call (mem_calls found))
    have still : ∀ c ∈ m.calls, ((m.activity? c.1).getD (.ended .ok)).newFaults c.2 = [] := by
      intro c mem
      rw [valid.activity?_of_mem mem, Option.getD_some, Activity.newFaults_self]
    have before_still := List.flatMap_eq_nil_iff.mpr fun c (mem : c ∈ before) => still c (by simp [split, mem])
    have after_still := List.flatMap_eq_nil_iff.mpr fun c (mem : c ∈ after) => still c (by simp [split, mem])
    simp only [split', List.flatMap_append, List.flatMap_cons, before_still, after_still, found, Option.getD_some, own,
      Transition.panic?, Option.bind_some, List.nil_append, List.append_nil]
    cases b.collected? path with
    | none => rfl
    | some o => cases o <;> rfl
  | build | call | openGate | finish | cancel =>
    exact List.flatMap_eq_nil_iff.mpr fun c mem => valid.newFaults_apart step mem (by simp)

end Machine
end MetricPipeline
