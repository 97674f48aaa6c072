import MetricPipeline.Proofs.Collection
import Mathlib.Data.List.Forall2

/-!
# Limits that are raised

A limit on the releases that run at once keeps a job waiting, and does nothing else. So what happens under some limits
can happen under larger ones, move by move: each task takes the same steps, writes the same and ends the same
(`Run.limit_only_delays`).
-/

namespace MetricPipeline

/-- At least as many releases may run at once as before, or all is as it was. -/
def Config.Eases (c c' : Config) : Prop :=
  c' = c ∨ c.isAdmissible = true ∧ c'.isAdmissible = true ∧
    (c'.maxConcurrentReleases = 0 ∨
      0 < c.maxConcurrentReleases ∧ c.maxConcurrentReleases ≤ c'.maxConcurrentReleases)

/-- A component that differs in the limit of its fan-out alone. -/
inductive Component.Eases : Component → Component → Prop
  | leaf : Eases .leaf .leaf
  | uncounted : Eases .uncounted .uncounted
  | sink {name} : Eases (.sink name) (.sink name)
  | hooked {x} : Eases (.hooked x) (.hooked x)
  | router {routes config config'} (limit : config.Eases config') :
      Eases (.router routes config) (.router routes config')

namespace Component.Eases

variable {c c' : Component}

theorem refl (c : Component) : c.Eases c := by
  cases c with
  | router => exact .router (.inl rfl)
  | leaf | uncounted | sink | hooked => constructor

theorem holds (h : c.Eases c') (x : NodeId) : c'.holds x = c.holds x := by
  cases h <;> rfl

theorem isCounted (h : c.Eases c') : c'.isCounted = c.isCounted := by
  cases h <;> rfl

end Component.Eases

/-! ## What is under way -/

inductive Slot.Eases {α : Type} (R : α → α → Prop) : Slot α → Slot α → Prop
  | waiting {job job'} (related : R job job') : Eases R (.waiting job) (.waiting job')
  | started {job job'} (related : R job job') : Eases R (.started job) (.started job')
  | joined : Eases R .joined .joined

/-- No fewer permits, where their number is limited. -/
def FanOut.NoFewer (free free' : Option Nat) : Prop := ∀ n', free' = some n' → ∃ n, free = some n ∧ n ≤ n'

/-- A fan-out that has come as far and has no fewer permits free. -/
inductive FanOut.Eases {α : Type} (R : α → α → Prop) : FanOut α → FanOut α → Prop
  | intro {free free' jobs jobs' queue errors} (permits : NoFewer free free')
      (slots : List.Forall₂ (Slot.Eases R) jobs jobs') :
      Eases R ⟨free, jobs, queue, errors⟩ ⟨free', jobs', queue, errors⟩

/-- What is under way when the same steps have been taken. -/
inductive Activity.Eases : Activity → Activity → Prop
  | ended {o} : Eases (.ended o) (.ended o)
  | acquire {h x} : Eases (.acquire h x) (.acquire h x)
  | inspect {x refs} : Eases (.inspect x refs) (.inspect x refs)
  | release {h x} : Eases (.release h x) (.release h x)
  | fire {x} : Eases (.fire x) (.fire x)
  | report {x r} : Eases (.report x r) (.report x r)
  | work {k wait o} : Eases (.work k wait o) (.work k wait o)
  | delegate {f a a'} (below : Eases a a') : Eases (.delegate f a) (.delegate f a')
  | fanOut {all all'} (eased : FanOut.Eases Eases all all') : Eases (.fanOut all) (.fanOut all')

section

variable {α β : Type} {R : α → β → Prop} {xs : List α} {ys : List β} {x : α} {y : β}

theorem forall₂_getElem? (related : List.Forall₂ R xs ys) (i : Nat) : Option.Rel R xs[i]? ys[i]? := by
  induction related generalizing i with
  | nil => exact .none
  | cons first _ ih =>
    cases i with
    | zero => exact .some first
    | succ i => exact ih i

theorem forall₂_set (related : List.Forall₂ R xs ys) (changed : R x y) (i : Nat) :
    List.Forall₂ R (xs.set i x) (ys.set i y) := by
  induction related generalizing i with
  | nil => exact .nil
  | cons first rest ih =>
    cases i with
    | zero => exact .cons changed rest
    | succ i => exact .cons first (ih i)

theorem forall₂_found (related : List.Forall₂ R xs ys) {i : Nat} (found : xs[i]? = some x) :
    ∃ y, ys[i]? = some y ∧ R x y := by
  have both := forall₂_getElem? related i
  rw [found] at both
  generalize ys[i]? = other at both
  cases both with
  | some here => exact ⟨_, rfl, here⟩

theorem forall₂_snoc {zs : List β} (related : List.Forall₂ R (xs ++ [x]) zs) :
    ∃ ys y, zs = ys ++ [y] ∧ List.Forall₂ R xs ys ∧ R x y := by
  induction xs generalizing zs with
  | nil =>
    obtain ⟨y, _, first, rest, rfl⟩ := List.forall₂_cons_left_iff.mp related
    cases rest
    exact ⟨[], y, rfl, .nil, first⟩
  | cons _ xs ih =>
    obtain ⟨z, _, first, rest, rfl⟩ := List.forall₂_cons_left_iff.mp related
    obtain ⟨ys, y, rfl, related, last⟩ := ih rest
    exact ⟨z :: ys, y, rfl, .cons first related, last⟩

end

namespace FanOut

variable {α : Type} {R : α → α → Prop} {all all' f : FanOut α} {i : Nat} {job job' : α}

theorem NoFewer.map {free free' : Option Nat} (h : NoFewer free free') {change : Nat → Nat}
    (mono : ∀ n n', n ≤ n' → change n ≤ change n') : NoFewer (free.map change) (free'.map change) := by
  intro n' some_free
  obtain ⟨k', here, rfl⟩ := Option.map_eq_some_iff.mp some_free
  obtain ⟨k, there, le⟩ := h k' here
  exact ⟨change k, by rw [there, Option.map_some], mono k k' le⟩

namespace Eases

theorem queue (h : Eases R all all') : all'.queue = all.queue := by
  cases h
  rfl

theorem errors (h : Eases R all all') : all'.errors = all.errors := by
  cases h
  rfl

theorem slots (h : Eases R all all') : List.Forall₂ (Slot.Eases R) all.slots all'.slots := by
  cases h
  assumption

theorem permits (h : Eases R all all') : NoFewer all.free all'.free := by
  cases h
  assumption

/-- A limit may go or grow, so a permit that was free still is. -/
theorem hasPermit (h : Eases R all all') (permit : all.hasPermit = true) : all'.hasPermit = true := by
  simp only [FanOut.hasPermit, bne_iff_ne, ne_eq] at permit ⊢
  intro none_free
  obtain ⟨n, free, le⟩ := h.permits 0 none_free
  exact permit (by rw [free, Nat.le_zero.mp le])

theorem next? (h : Eases R all all') : all'.next? = all.next? := by
  rw [FanOut.next?, FanOut.next?, h.queue]

theorem result (h : Eases R all all') : all'.result = all.result := by
  rw [FanOut.result, FanOut.result, h.errors]

/-- A job that is given a permit is given one as well where there are no fewer. -/
theorem start (h : Eases R all all') (started : all.start? i = some f) :
    ∃ f', all'.start? i = some f' ∧ Eases R f f' := by
  obtain ⟨job, waiting, permit, rfl⟩ := FanOut.start?_eq_some.mp started
  obtain ⟨slot, waiting', same⟩ := forall₂_found h.slots waiting
  cases same with
  | waiting related =>
    refine ⟨_, FanOut.start?_eq_some.mpr ⟨_, waiting', h.hasPermit permit, rfl⟩, ?_⟩
    rw [← h.errors, ← h.queue]
    exact .intro (h.permits.map fun n n' le => Nat.sub_le_sub_right le 1) (forall₂_set h.slots (.started related) i)

theorem advance (h : Eases R all all') (related : R job job') (i : Nat) (last : Bool) :
    Eases R (all.advance i job last) (all'.advance i job' last) := by
  unfold FanOut.advance
  rw [h.errors, h.queue]
  cases last with
  | true => exact .intro (h.permits.map fun n n' le => Nat.succ_le_succ le) (forall₂_set h.slots (.started related) i)
  | false => exact .intro h.permits (forall₂_set h.slots (.started related) i)

theorem join (h : Eases R all all') (i : Nat) (failure : Option Failure) :
    Eases R (all.join i failure) (all'.join i failure) := by
  unfold FanOut.join
  rw [h.errors, h.queue]
  exact .intro h.permits (forall₂_set h.slots .joined i)

theorem isEnded (h : Eases R all all') (all_ended : all.isEnded = true) : all'.isEnded = true := by
  refine List.all_eq_true.mpr fun slot mem => ?_
  obtain ⟨i, found⟩ := List.mem_iff_getElem?.mp mem
  have both := forall₂_getElem? h.slots i
  rw [found] at both
  generalize was : all.slots[i]? = other at both
  cases both with
  | some same =>
    have closed := List.all_eq_true.mp all_ended _ (List.mem_of_getElem? was)
    cases same with
    | joined => rfl
    | waiting | started => cases closed

end Eases
end FanOut

theorem Config.Eases.releaseLimit {c c' : Config} (h : c.Eases c') :
    FanOut.NoFewer c.releaseLimit c'.releaseLimit := by
  obtain rfl | ⟨-, -, unlimited | ⟨some_limit, le⟩⟩ := h
  · exact fun n limit => ⟨n, limit, Nat.le_refl n⟩
  · simp [FanOut.NoFewer, Config.releaseLimit, unlimited]
  · intro n' limit
    have some_limit' : c'.maxConcurrentReleases ≠ 0 := by omega
    simp only [Config.releaseLimit, some_limit', if_false, Option.some.injEq] at limit
    subst limit
    exact ⟨_, if_neg (Nat.ne_of_gt some_limit), le⟩

theorem Config.Eases.isAdmissible {c c' : Config} (h : c.Eases c') : c'.isAdmissible = c.isAdmissible := by
  obtain rfl | ⟨admissible, admissible', -⟩ := h
  · rfl
  · rw [admissible, admissible']

/-! ## What a task does -/

/-- A world that differs in limits alone. -/
structure World.Eases (w w' : World) : Prop where
  kind : ∀ x, Option.Rel Component.Eases (w.component? x) (w'.component? x)
  usage : ∀ x, w'.usage? x = w.usage? x
  opened : w'.opened = w.opened
  journal : w'.journal = w.journal

namespace World.Eases

variable {w w' : World} {c c' : Component}

theorem empty : World.Eases {} {} where
  kind _ := .none
  usage _ := rfl
  opened := rfl
  journal := rfl

theorem note (h : w.Eases w') (e : Entry) : (w.note e).Eases (w'.note e) where
  kind := h.kind
  usage := h.usage
  opened := h.opened
  journal := congrArg (e :: ·) h.journal

theorem setUsage (h : w.Eases w') (x : NodeId) (u : Usage) : (w.setUsage x u).Eases (w'.setUsage x u) where
  kind y := by simpa using h.kind y
  usage y := by simp only [World.usage?_setUsage, h.usage]
  opened := h.opened
  journal := h.journal

theorem openGate (h : w.Eases w') (gate : Gate) : (w.openGate gate).Eases (w'.openGate gate) where
  kind := h.kind
  usage := h.usage
  opened := congrArg (gate :: ·) h.opened
  journal := h.journal

theorem made (h : w.Eases w') (x : NodeId) : x < w'.nodes.length ↔ x < w.nodes.length := by
  rw [← World.component?_isSome, ← World.component?_isSome]
  have both := h.kind x
  generalize w.component? x = k at both
  generalize w'.component? x = k' at both
  cases both <;> simp

theorem size (h : w.Eases w') : w'.nodes.length = w.nodes.length := by
  apply Nat.le_antisymm
  · exact Nat.le_of_not_lt fun lt => Nat.lt_irrefl _ ((h.made _).mp lt)
  · exact Nat.le_of_not_lt fun lt => Nat.lt_irrefl _ ((h.made _).mpr lt)

theorem add (h : w.Eases w') (eased : c.Eases c') : (w.add c).Eases (w'.add c') where
  kind x := by
    rw [World.component?_add, World.component?_add, h.size]
    split
    · exact .some eased
    · exact h.kind x
  usage x := by rw [World.usage?_add, World.usage?_add, h.size, h.usage, eased.isCounted]
  opened := h.opened
  journal := h.journal

theorem increment (h : w.Eases w') (holder : Holder) (x : NodeId) :
    (w.increment holder x).Eases (w'.increment holder x) := by
  unfold World.increment
  rw [h.usage]
  split
  · exact (h.setUsage ..).note _
  · exact h.note _

theorem inspect (h : w.Eases w') (x : NodeId) (refs : Nat) : (w.inspect x refs).Eases (w'.inspect x refs) := by
  unfold World.inspect
  rw [h.usage]
  split
  · split
    · exact h.note _
    · exact h
  · exact h

theorem acquireAll (h : w.Eases w') (rs : List Reference) : (w.acquireAll rs).Eases (w'.acquireAll rs) := by
  induction rs generalizing w w' with
  | nil => exact h
  | cons r rest ih =>
    refine ih ?_
    have more := h.increment r.1 r.2
    unfold World.acquire
    dsimp only
    rw [more.usage]
    split
    · exact more.inspect ..
    · exact more

theorem build (h : w.Eases w') (eased : c.Eases c') {w₁ : World} (built : w.build? c = some w₁) :
    ∃ w₁', w'.build? c' = some w₁' ∧ w₁.Eases w₁' := by
  obtain ⟨made, rfl⟩ := World.build?_eq_some.mp built
  refine ⟨_, World.build?_eq_some.mpr ⟨?_, rfl⟩, ?_⟩
  · rwa [h.size, eased.holds]
  · rw [h.size, eased.holds]
    exact (h.add eased).acquireAll _

end World.Eases

namespace Activity

variable {env : Work → Behaviour} {w w' : World} {a a' : Activity}

/-- What a step leaves and turns into. -/
def Eased (s s' : World × Activity) : Prop := s.1.Eases s'.1 ∧ s.2.Eases s'.2

theorem spread_eases {config config' : Config} (limit : config.Eases config') (rs : List Reference) :
    (spread config rs).Eases (spread config' rs) := by
  unfold spread
  rw [FanOut.spawn?_eq, FanOut.spawn?_eq, limit.isAdmissible]
  cases config.isAdmissible with
  | true =>
    refine .fanOut (.intro limit.releaseLimit (List.forall₂_same.mpr fun slot mem => ?_))
    obtain ⟨job, listed, rfl⟩ := List.mem_map.mp mem
    obtain ⟨r, -, rfl⟩ := List.mem_map.mp listed
    exact .waiting .release
  | false => exact .ended

theorem teardown_eases (h : w.Eases w') (x : NodeId) : Eased (teardown env w x) (teardown env w' x) := by
  unfold teardown
  have kind := h.kind x
  generalize w.component? x = k at kind
  generalize w'.component? x = k' at kind
  cases kind with
  | none => exact ⟨h, .ended⟩
  | some kind =>
    cases kind with
    | leaf | uncounted | hooked => exact ⟨h.note _, .work⟩
    | sink => exact ⟨h.note _, .ended⟩
    | router limit => exact ⟨h.note _, spread_eases limit _⟩

theorem drop_eases (h : w.Eases w') (holder : Holder) (x : NodeId) :
    Eased (drop env w holder x) (drop env w' holder x) := by
  have noted := h.note (.released holder x)
  unfold drop
  dsimp only
  rw [noted.usage]
  split
  · exact teardown_eases noted x
  · split
    · exact ⟨noted.note _, .ended⟩
    · refine ⟨(noted.setUsage ..).note _, ?_⟩
      split
      · exact .fire
      · exact .ended

theorem trigger_eases (h : w.Eases w') (x : NodeId) : Eased (trigger env w x) (trigger env w' x) := by
  unfold trigger
  rw [h.usage]
  split
  · exact ⟨h.note _, .ended⟩
  · exact teardown_eases ((h.setUsage ..).note _) x

theorem hand_eases (h : w.Eases w') (x : NodeId) (r : Report) : Eased (hand env w x r) (hand env w' x r) := by
  have noted := h.note (.handed x r)
  unfold hand
  dsimp only
  have kind := noted.kind x
  generalize (w.note (.handed x r)).component? x = k at kind
  generalize (w'.note (.handed x r)).component? x = k' at kind
  cases kind with
  | none => exact ⟨noted, .ended⟩
  | some kind =>
    cases kind with
    | leaf | uncounted | sink => exact ⟨noted.note _, .work⟩
    | hooked => exact ⟨noted, .report⟩
    | router =>
      dsimp only
      split
      · exact ⟨noted, .report⟩
      · exact ⟨noted.note _, .ended⟩

theorem conclude_eases (h : w.Eases w') (k : Work) (o : Outcome) : Eased (conclude w k o) (conclude w' k o) := by
  obtain ⟨x, duty⟩ := k
  have noted := h.note (.finished ⟨x, duty⟩ o)
  unfold conclude
  dsimp only
  have kind := noted.kind x
  generalize (w.note (.finished ⟨x, duty⟩ o)).component? x = k at kind
  generalize (w'.note (.finished ⟨x, duty⟩ o)).component? x = k' at kind
  cases duty with
  | teardown | report => exact ⟨noted, .ended⟩
  | hook =>
    cases kind with
    | none => exact ⟨noted, .ended⟩
    | some kind =>
      cases kind with
      | leaf | uncounted | sink | router => exact ⟨noted, .ended⟩
      | hooked =>
        refine ⟨?_, .delegate .release⟩
        cases o with
        | panicked p => exact noted.note _
        | ok | failed => exact noted

theorem act_eases (h : w.Eases w') {s : World × Activity} (acts : act env w a = some s) :
    ∃ s', act env w' a = some s' ∧ Eased s s' := by
  cases a with
  | ended | delegate | fanOut => cases acts
  | acquire holder x =>
    cases acts
    have more := h.increment holder x
    refine ⟨_, rfl, more, ?_⟩
    rw [more.usage]
    split
    · exact .inspect
    · exact .ended
  | inspect x refs =>
    cases acts
    exact ⟨_, rfl, h.inspect x refs, .ended⟩
  | release holder x =>
    cases acts
    exact ⟨_, rfl, drop_eases h holder x⟩
  | fire x =>
    cases acts
    exact ⟨_, rfl, trigger_eases h x⟩
  | report x r =>
    cases acts
    exact ⟨_, rfl, hand_eases h x r⟩
  | work k wait o =>
    cases wait with
    | none =>
      cases acts
      exact ⟨_, rfl, conclude_eases h k o⟩
    | some gate =>
      have gates : w'.isOpen gate = w.isOpen gate := by rw [World.isOpen, World.isOpen, h.opened]
      obtain ⟨opened, made⟩ := Option.ite_none_right_eq_some.mp acts
      cases made
      exact ⟨_, if_pos (gates.trans opened), h.note _, .work⟩

/-! ## What a call does -/

theorem Eases.outcome? (eased : a.Eases a') : a'.outcome? = a.outcome? := by
  cases eased <;> rfl

/-- What can happen in a call can happen as well, and comes to the same, when limits have been raised. -/
theorem Step.eases {env : Surroundings} {w₁ : World} {a₁ : Activity} {path : Path} (step : Step w env a path w₁ a₁)
    (h : w.Eases w') (eased : a.Eases a') : ∃ w₁' a₁', Step w' env a' path w₁' a₁' ∧ w₁.Eases w₁' ∧ a₁.Eases a₁' := by
  induction step generalizing a' with
  | @act env a _ _ acts =>
    -- A task that acts holds no fan-out, so it is the same task on both sides.
    have same : a' = a := by
      cases eased with
      | delegate | fanOut => cases acts
      | _ => rfl
    subst same
    obtain ⟨s', acts', worlds, tasks⟩ := act_eases h acts
    exact ⟨_, _, .act acts', worlds, tasks⟩
  | merge =>
    cases eased with
    | delegate below =>
      cases below
      exact ⟨_, _, .merge, h, .ended⟩
  | delegated _ ih =>
    cases eased with
    | delegate below =>
      obtain ⟨_, _, step, worlds, tasks⟩ := ih below
      exact ⟨_, _, .delegated step, worlds, .delegate tasks⟩
  | close all_ended =>
    cases eased with
    | fanOut eased =>
      refine ⟨_, _, .close (eased.isEnded all_ended), h, ?_⟩
      rw [eased.result]
      exact .ended
  | start started =>
    cases eased with
    | fanOut eased =>
      obtain ⟨_, started', eased'⟩ := eased.start started
      exact ⟨_, _, .start started', h, .fanOut eased'⟩
  | join next slot =>
    rename_i o
    cases eased with
    | fanOut eased =>
      obtain ⟨_, slot', same⟩ := forall₂_found eased.slots slot
      cases same with
      | started related =>
        cases related
        refine ⟨_, _, .join (eased.next?.trans next) slot', ?_, .fanOut (eased.join ..)⟩
        cases o with
        | panicked p => exact h.note _
        | ok | failed => exact h
  | child slot _ ih =>
    cases eased with
    | fanOut eased =>
      obtain ⟨_, slot', same⟩ := forall₂_found eased.slots slot
      cases same with
      | started related =>
        obtain ⟨_, _, step, worlds, tasks⟩ := ih related
        refine ⟨_, _, .child slot' step, worlds, .fanOut ?_⟩
        rw [isEnded, isEnded, tasks.outcome?]
        exact eased.advance tasks _ _

namespace Eases

theorem slotsInterruptible {slots slots' : List (Slot Activity)}
    (eased : List.Forall₂ (Slot.Eases Activity.Eases) slots slots')
    (ih : ∀ a, .waiting a ∈ slots ∨ .started a ∈ slots → ∀ a', a.Eases a' → a'.isInterruptible = a.isInterruptible) :
    Activity.slotsInterruptible slots' = Activity.slotsInterruptible slots := by
  induction eased with
  | nil => rfl
  | cons first _ rest =>
    have rest := rest fun a mem => ih a (mem.imp (List.mem_cons_of_mem _) (List.mem_cons_of_mem _))
    cases first with
    | started related =>
      have first := ih _ (.inr List.mem_cons_self) _ related
      simp only [Activity.slotsInterruptible, first, rest]
    | waiting | joined => exact rest

theorem isInterruptible (eased : a.Eases a') : a'.isInterruptible = a.isInterruptible := by
  induction a using tree_induction generalizing a' with
  | task a notDelegate notFanOut =>
    cases eased with
    | delegate => exact absurd rfl (notDelegate _ _)
    | fanOut => exact absurd rfl (notFanOut _)
    | _ => rfl
  | delegated f below ih =>
    cases eased with
    | delegate eased => simpa only [Activity.isInterruptible] using ih eased
  | spread free slots queue errors ih =>
    cases eased with
    | fanOut eased =>
      cases eased with
      | intro _ eased => exact slotsInterruptible eased fun a mem a' => ih a mem

theorem at? (eased : a.Eases a') (p : Place) : Option.Rel Activity.Eases (a.at? p) (a'.at? p) := by
  induction p generalizing a a' with
  | nil =>
    rw [at?_eq_some.mpr .here, at?_eq_some.mpr .here]
    exact .some eased
  | cons turn p ih =>
    cases eased with
    | delegate below =>
      cases turn with
      | below => exact ih below
      | slot => exact .none
    | @fanOut all all' eased =>
      cases turn with
      | below => exact .none
      | slot i =>
        simp only [Activity.at?]
        have both := forall₂_getElem? eased.slots i
        generalize all.slots[i]? = slot at both
        generalize all'.slots[i]? = slot' at both
        cases both with
        | none => exact .none
        | some same =>
          cases same with
          | started related => exact ih related
          | waiting | joined => exact .none
    | _ => cases turn <;> exact .none

/-- The same is seen of a fan-out and its jobs. -/
theorem signs {b b' : Activity} (eased : a.Eases a') (next : b.Eases b') (path : Path) :
    a'.signs path b' = a.signs path b := by
  have slots : ∀ {i old old' new new'}, Slot.Eases Activity.Eases old old' → Slot.Eases Activity.Eases new new' →
      Slot.signs i old' new' = old.signs i new := by
    intro i old old' new new' before after
    cases before with
    | waiting | joined => cases after <;> rfl
    | started before =>
      cases after with
      | waiting | joined => rfl
      | started after =>
        simp only [Slot.signs, after.outcome?]
        cases before <;> rfl
  cases eased with
  | @fanOut all all' eased =>
    cases path with
    | nil => simp only [Activity.signs, next.outcome?]
    | cons i path =>
      cases next with
      | @fanOut f f' next =>
        simp only [Activity.signs]
        have before := forall₂_getElem? eased.slots i
        have after := forall₂_getElem? next.slots i
        generalize all.slots[i]? = old at before
        generalize all'.slots[i]? = old' at before
        generalize f.slots[i]? = new at after
        generalize f'.slots[i]? = new' at after
        cases before with
        | none => rfl
        | some before =>
          cases after with
          | none => rfl
          | some after => exact slots before after
      | _ => rfl
  | _ => rfl

end Eases
end Activity

/-! ## What a machine does -/

inductive Request.Eases : Request → Request → Prop
  | acquire {x} : Eases (.acquire x) (.acquire x)
  | release {x} : Eases (.release x) (.release x)
  | report {x r} : Eases (.report x r) (.report x r)
  | releaseAll {nodes config config'} (limit : config.Eases config') :
      Eases (.releaseAll nodes config) (.releaseAll nodes config')

/-- The same move, but for the limits that it sets. -/
inductive Move.Eases : Move → Move → Prop
  | build {c c'} (eased : Component.Eases c c') : Eases (.build c) (.build c')
  | call {r r'} (eased : Request.Eases r r') : Eases (.call r) (.call r')
  | run {id path} : Eases (.run id path) (.run id path)
  | openGate {gate} : Eases (.openGate gate) (.openGate gate)
  | finish {id} : Eases (.finish id) (.finish id)
  | cancel {id} : Eases (.cancel id) (.cancel id)

theorem Request.Eases.refl (r : Request) : r.Eases r := by
  cases r with
  | releaseAll => exact .releaseAll (.inl rfl)
  | acquire | release | report => constructor

theorem Request.Eases.nodes {r r' : Request} (h : r.Eases r') : r'.nodes = r.nodes := by
  cases h <;> rfl

theorem Request.Eases.activity {r r' : Request} (h : r.Eases r') : r.activity.Eases r'.activity := by
  cases h with
  | acquire => exact .acquire
  | release => exact .release
  | report => exact .report
  | releaseAll limit => exact Activity.spread_eases limit _

theorem Move.Eases.refl (a : Move) : a.Eases a := by
  cases a with
  | build c => exact .build (.refl c)
  | call r => exact .call (.refl r)
  | run | openGate | finish | cancel => constructor

theorem Move.Eases.under? {a a' : Move} (h : a.Eases a') (id : CallId) (p : Place) :
    a'.under? id p = a.under? id p := by
  cases h <;> rfl

namespace Machine

/-- A machine that differs in limits, and in the permits that are free, alone. -/
structure Eases (m m' : Machine) : Prop where
  world : m.world.Eases m'.world
  next : m'.next = m.next
  calls : List.Forall₂ (fun c c' => c'.1 = c.1 ∧ c.2.Eases c'.2) m.calls m'.calls

namespace Eases

variable {env : Environment} {m m' m₁ : Machine} {move move' : Move}

theorem empty : Machine.Eases {} {} := ⟨.empty, rfl, .nil⟩

theorem activity? (h : m.Eases m') (id : CallId) :
    Option.Rel Activity.Eases (m.activity? id) (m'.activity? id) := by
  obtain ⟨world, calls, next⟩ := m
  obtain ⟨world', calls', next'⟩ := m'
  obtain ⟨-, -, related⟩ := h
  simp only [Machine.activity?] at *
  induction related with
  | nil => exact .none
  | @cons c c' _ _ first _ ih =>
    obtain ⟨other, a⟩ := c
    obtain ⟨other', a'⟩ := c'
    obtain ⟨rfl, eased⟩ := first
    simp only [List.lookup_cons]
    split
    · exact .some eased
    · exact ih

theorem found (h : m.Eases m') {id : CallId} {a : Activity} (found : m.activity? id = some a) :
    ∃ a', m'.activity? id = some a' ∧ a.Eases a' := by
  have both := h.activity? id
  rw [found] at both
  generalize m'.activity? id = other at both
  cases both with
  | some eased => exact ⟨_, rfl, eased⟩

theorem outcome? (h : m.Eases m') (id : CallId) : m'.outcome? id = m.outcome? id := by
  have both := h.activity? id
  unfold Machine.outcome?
  generalize m.activity? id = a at both
  generalize m'.activity? id = a' at both
  cases both with
  | none => rfl
  | some eased => exact eased.outcome?

theorem without (h : m.Eases m') (id : CallId) :
    List.Forall₂ (fun c c' => c'.1 = c.1 ∧ c.2.Eases c'.2) (m.without id) (m'.without id) := by
  refine List.rel_filter (fun c c' same => ?_) h.calls
  simp only [same.1]

/-- A move that can be made can be made as well when limits have been raised. -/
theorem step (h : m.Eases m') (eased : move.Eases move') (step : m.step? env move = some m₁) :
    ∃ m₁', m'.step? env move' = some m₁' ∧ m₁.Eases m₁' := by
  cases eased with
  | build eased =>
    obtain ⟨w, built, rfl⟩ := Option.map_eq_some_iff.mp step
    obtain ⟨w', built', worlds⟩ := h.world.build eased built
    exact ⟨{ m' with world := w' }, by simp [Machine.step?, built'], worlds, h.next, h.calls⟩
  | @call r r' eased =>
    obtain ⟨made, now⟩ := Option.ite_none_right_eq_some.mp step
    cases now
    refine ⟨{ m' with calls := m'.calls ++ [(m'.next, r'.activity)], next := m'.next + 1 },
      Option.ite_none_right_eq_some.mpr ⟨?_, rfl⟩, h.world, congrArg (· + 1) h.next, ?_⟩
    · rwa [eased.nodes, h.world.size]
    · exact List.rel_append h.calls (.cons ⟨h.next, eased.activity⟩ .nil)
  | @run id path =>
    obtain ⟨a, found, now⟩ := Option.bind_eq_some_iff.mp step
    obtain ⟨⟨w, b⟩, moved, now⟩ := Option.bind_eq_some_iff.mp now
    cases now
    obtain ⟨a', found', eased⟩ := h.found found
    obtain ⟨w', b', moved', worlds, eased'⟩ := (Activity.step?_step moved).eases h.world eased
    refine ⟨{ m' with world := w', calls := m'.calls.map fun c => if c.1 = id then (id, b') else c },
      by simp [Machine.step?, found', moved'.step?_eq], worlds, h.next, ?_⟩
    refine List.rel_map (fun c c' same => ?_) h.calls
    rw [same.1]
    split
    · exact ⟨rfl, eased'⟩
    · exact same
  | openGate =>
    cases step
    exact ⟨_, rfl, h.world.openGate _, h.next, h.calls⟩
  | @finish id =>
    obtain ⟨o, ended, now⟩ := Option.bind_eq_some_iff.mp step
    cases now
    exact ⟨{ m' with world := m'.world.note (.returned id o), calls := m'.without id },
      by simp [Machine.step?, h.outcome?, ended], h.world.note _, h.next, h.without id⟩
  | @cancel id =>
    obtain ⟨a, found, now⟩ := Option.bind_eq_some_iff.mp step
    obtain ⟨idle, now⟩ := Option.ite_none_right_eq_some.mp now
    cases now
    obtain ⟨a', found', eased⟩ := h.found found
    exact ⟨{ m' with world := m'.world.note (.cancelled id), calls := m'.without id },
      by simp [Machine.step?, found', eased.isInterruptible, idle], h.world.note _, h.next, h.without id⟩

theorem at? (h : m.Eases m') (id : CallId) (p : Place) : Option.Rel Activity.Eases (m.at? id p) (m'.at? id p) := by
  unfold Machine.at?
  have both := h.activity? id
  generalize m.activity? id = a at both
  generalize m'.activity? id = a' at both
  cases both with
  | none => exact .none
  | some eased => exact eased.at? p

/-- What is seen of a fan-out when a move is made is the same. -/
theorem shown {m₁' : Machine} (h : m.Eases m') (eased : move.Eases move') (step : m.step? env move = some m₁)
    (step' : m'.step? env move' = some m₁') (h₁ : m₁.Eases m₁') (id : CallId) (p : Place) :
    shown env id p m' move' = shown env id p m move := by
  unfold Machine.shown
  rw [eased.under?, move_eq step, move_eq step']
  have before := h.at? id p
  have after := h₁.at? id p
  generalize m.at? id p = a at before
  generalize m'.at? id p = a' at before
  generalize m₁.at? id p = b at after
  generalize m₁'.at? id p = b' at after
  cases move.under? id p with
  | none => rfl
  | some path =>
    cases before with
    | none => rfl
    | some before =>
      cases after with
      | none => rfl
      | some after => exact before.signs after path

end Eases

theorem Run.eases {env : Environment} {m m' m₁ : Machine} {moves moves' : List Move} (run : Run env m moves m₁)
    (h : m.Eases m') (eased : List.Forall₂ Move.Eases moves moves') :
    ∃ m₁', Run env m' moves' m₁' ∧ m₁.Eases m₁' ∧
      ∀ id p, signs env id p m' moves' = signs env id p m moves := by
  induction run generalizing moves' with
  | start =>
    cases eased
    exact ⟨m', .start, h, fun _ _ => rfl⟩
  | @next moves m₁ move m₂ run step ih =>
    obtain ⟨earlier, move', rfl, eased, same⟩ := forall₂_snoc eased
    obtain ⟨m₁', run', h₁, seen⟩ := ih eased
    obtain ⟨m₂', step', h₂⟩ := h₁.step same step
    refine ⟨m₂', run'.next step', h₂, fun id p => ?_⟩
    rw [run'.signs_next, run.signs_next, seen, h₁.shown same step step' h₂]

/-- A limit only delays. Whatever calls are under way and whatever the components do: the moves that can be made, in
some order, can be made in this order as well when the limits of fan-outs are raised or lifted. Each fan-out then
starts its jobs, releases their components, sees the releases end and takes their outcomes in the same order, and ends
the same; each call ends the same; and the same is written. -/
theorem Run.limit_only_delays {env : Environment} {m : Machine} {moves moves' : List Move} (run : Run env {} moves m)
    (eased : List.Forall₂ Move.Eases moves moves') :
    ∃ m', Run env {} moves' m' ∧ (∀ id p, signs env id p {} moves' = signs env id p {} moves) ∧
      (∀ id, m'.outcome? id = m.outcome? id) ∧ m'.world.journal = m.world.journal := by
  obtain ⟨m', run', h, seen⟩ := run.eases .empty eased
  exact ⟨m', run', seen, h.outcome?, h.world.journal⟩

/-- Three releases that take turns at two permits can go on in the same way when there is no limit. -/
theorem limit_only_delays_out_of_order :
    ∃ m m', Run mixed {} (threeReleases ⟨2⟩ ++ outOfOrder) m ∧
      List.Forall₂ Move.Eases (threeReleases ⟨2⟩ ++ outOfOrder) (threeReleases {} ++ outOfOrder) ∧
      Run mixed {} (threeReleases {} ++ outOfOrder) m' ∧
      (Sign.endings (signs mixed 3 [] {} (threeReleases {} ++ outOfOrder))).map (·.1) = [1, 2, 0] ∧
      m'.outcome? 3 = some (.failed (.aggregate
        ⟨[.releasePanicked ((mixed 3).panicText [1] (.fixed "gone")), .failed "disk", .failed "socket"]⟩)) := by
  obtain ⟨m, run, order, ended⟩ : ∃ m, Run mixed {} (threeReleases ⟨2⟩ ++ outOfOrder) m ∧
      (Sign.endings (signs mixed 3 [] {} (threeReleases ⟨2⟩ ++ outOfOrder))).map (·.1) = [1, 2, 0] ∧
      m.outcome? 3 = some (.failed (.aggregate
        ⟨[.releasePanicked ((mixed 3).panicText [1] (.fixed "gone")), .failed "disk", .failed "socket"]⟩)) :=
    ⟨_, .of_foldlM rfl, rfl, rfl⟩
  have unlimited : Config.Eases ⟨2⟩ {} := .inr ⟨by decide, by decide, .inl rfl⟩
  have same : ∀ moves : List Move, List.Forall₂ Move.Eases moves moves :=
    fun moves => List.forall₂_same.mpr fun a _ => .refl a
  have eased : List.Forall₂ Move.Eases (threeReleases ⟨2⟩ ++ outOfOrder) (threeReleases {} ++ outOfOrder) :=
    List.rel_append (List.rel_append (same (threeReleases {}).dropLast)
      (.cons (.call (.releaseAll unlimited)) .nil)) (same outOfOrder)
  obtain ⟨m', run', seen, outcomes, -⟩ := Run.limit_only_delays run eased
  exact ⟨m, m', run, eased, run', by rw [seen, order], by rw [outcomes, ended]⟩

/-- Without a limit all three jobs can start at once, and with two permits they cannot. -/
example :
    ((threeReleases {} ++ [Move.run 3 [0], .run 3 [1], .run 3 [2]]).foldlM (step? mixed) {}).isSome = true ∧
      ((threeReleases ⟨2⟩ ++ [Move.run 3 [0], .run 3 [1], .run 3 [2]]).foldlM (step? mixed) {}).isSome = false := by
  decide

end Machine
end MetricPipeline
