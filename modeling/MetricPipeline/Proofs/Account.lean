import MetricPipeline.Proofs.Run

/-!
# The account of a node

What the journal says of a node against what its counter and its guard say. `World.Accounted` is the
invariant, with the number of releases that have dropped the last reference and are still to try the guard;
there is one lemma for each operation on the node, and `Machine.Run.accounted` puts them together: the account
is in order after every run.
-/

namespace MetricPipeline

namespace Entry

def acquires (x : NodeId) : Entry → Bool
  | acquired _ y => y == x
  | _ => false

def releases (x : NodeId) : Entry → Bool
  | released _ y => y == x
  | _ => false

/-- A reference was there to be dropped. -/
def drops (x : NodeId) : Entry → Bool
  | dropped y _ => y == x
  | _ => false

/-- The entry belongs to the account of the node. -/
def concerns (x : NodeId) : Entry → Bool
  | acquired _ y | released _ y | underflowed y | dropped y _ | tornDown y | releasedLate y | closed y _
  | scattered y _ => y == x
  | began k => k.node == x && k.duty != .report
  | _ => false

end Entry

theorem Component.concerns_opening (c : Component) (x y : NodeId) : (c.opening x).concerns y = (x == y) := by
  cases c <;> simp [opening, Entry.concerns]

/-- The task has dropped the last reference to the node, and is to try its guard. -/
def Activity.fires (x : NodeId) : Activity → Bool
  | fire y => y == x
  | _ => false

namespace World

def times (w : World) (p : Entry → Bool) : Nat := w.journal.countP p

def count (w : World) (e : Entry) : Nat := w.journal.count e

/-- What the entries tell, counted entry by entry. -/
theorem countP_journal {α : Type} {f : Entry → List α} {q : α → Bool} {p : Entry → Bool} (w : World)
    (each : ∀ e, (f e).countP q = if p e then 1 else 0) : w.times p = (w.journal.flatMap f).countP q := by
  unfold times
  induction w.journal with
  | nil => rfl
  | cons e rest ih => rw [List.countP_cons, List.flatMap_cons, List.countP_append, each, ih, Nat.add_comm]

theorem times_of_acquisitions {w w' : World} {new : List Entry} {p : Entry → Bool}
    (journal : w'.journal = new ++ w.journal) (acquisitions : ∀ e ∈ new, e.isAcquisition = true)
    (aside : ∀ e : Entry, e.isAcquisition = true → p e = false) : w'.times p = w.times p := by
  have nothing : new.countP p = 0 := List.countP_eq_zero.mpr fun e mem => by simp [aside e (acquisitions e mem)]
  rw [times, times, journal, List.countP_append, nothing, Nat.zero_add]

@[simp] theorem times_note (w : World) (e : Entry) (p : Entry → Bool) :
    (w.note e).times p = w.times p + if p e then 1 else 0 := List.countP_cons ..

@[simp] theorem count_note (w : World) (e f : Entry) :
    (w.note e).count f = w.count f + if e == f then 1 else 0 := List.count_cons

@[simp] theorem times_setUsage (w : World) (x : NodeId) (u : Usage) : (w.setUsage x u).times = w.times := rfl

@[simp] theorem count_setUsage (w : World) (x : NodeId) (u : Usage) : (w.setUsage x u).count = w.count := rfl

@[simp] theorem usage_note (w : World) (e : Entry) : (w.note e).usage = w.usage := rfl

theorem usage_setUsage_self {w : World} {x : NodeId} {u v : Usage} (counted : w.usage? x = some v) :
    (w.setUsage x u).usage x = u := by
  simp [usage, usage?_setUsage, counted]

theorem usage_setUsage_ne {w : World} {x y : NodeId} (u : Usage) (other : x ≠ y) :
    (w.setUsage x u).usage y = w.usage y := by
  simp [usage, usage?_setUsage, other]

theorem usage_of_usage? {w : World} {x : NodeId} {u : Usage} (counted : w.usage? x = some u) :
    w.usage x = u := by
  simp [usage, counted]

/-- Counting leaves the guard of every node as it is. -/
theorem tornDown_setUsage {w : World} {x y : NodeId} {u v : Usage} (counted : w.usage? y = some v)
    (same : u.tornDown = v.tornDown) : ((w.setUsage y u).usage x).tornDown = (w.usage x).tornDown := by
  by_cases here : y = x
  · subst here
    rw [usage_setUsage_self counted, usage_of_usage? counted, same]
  · rw [usage_setUsage_ne u here]

theorem tornDown_inspect (w : World) (x y : NodeId) (refs : Nat) :
    ((w.inspect y refs).usage x).tornDown = (w.usage x).tornDown := by
  unfold inspect
  split
  · split <;> rfl
  · rfl

theorem tornDown_acquireAll (w : World) (rs : List Reference) (x : NodeId) :
    ((w.acquireAll rs).usage x).tornDown = (w.usage x).tornDown := by
  induction rs generalizing w with
  | nil => rfl
  | cons r rest ih =>
    have added : ((w.increment r.1 r.2).usage x).tornDown = (w.usage x).tornDown := by
      unfold increment
      split
      · rename_i u counted
        exact tornDown_setUsage counted rfl
      · rfl
    refine (ih (w.acquire r.1 r.2)).trans ?_
    unfold acquire
    dsimp only
    split
    · rw [tornDown_inspect, added]
    · exact added

theorem not_uncounted {w : World} {x : NodeId} {c : Component} (kind : w.component? x = some c)
    (counted : c.isCounted = true) : w.component? x ≠ some .uncounted := by
  intro other
  rw [kind] at other
  cases other
  cases counted

theorem usage?_of_made {w : World} {x : NodeId} (made : (w.component? x).isSome = true)
    (counted : w.component? x ≠ some .uncounted) : ∃ u, w.usage? x = some u := by
  obtain ⟨c, kind⟩ := Option.isSome_iff_exists.mp made
  cases c with
  | uncounted => exact absurd kind counted
  | leaf | sink | hooked | router => exact usage?_isSome kind rfl

structure Accounted (w : World) (x : NodeId) (firing : Nat) : Prop where
  refs : (w.usage x).refs + w.times (Entry.drops x) = w.times (Entry.acquires x)
  released : w.times (Entry.drops x) + w.count (.underflowed x) = w.times (Entry.releases x)
  fired : w.count (.tornDown x) = (w.usage x).tornDown.toNat
  /-- Each time the count came to zero, someone went on to the guard. -/
  emptied : w.count (.dropped x 0) = w.count (.tornDown x) + w.count (.releasedLate x) + firing
  reached : (w.usage x).refs = 0 → 0 < w.times (Entry.drops x) → 0 < w.count (.dropped x 0)
  late : 0 < w.count (.releasedLate x) → (w.usage x).tornDown = true
  opened : ∀ c : Component, c.isCounted = true → (∀ d, w.component? x = some d → d = c) →
    w.count (c.opening x) = w.count (.tornDown x)

theorem count_dropped_le (w : World) (x : NodeId) (left : Nat) :
    w.count (.dropped x left) ≤ w.times (Entry.drops x) := by
  apply List.countP_mono_left
  intro e _ same
  rw [eq_of_beq same]
  simp [Entry.drops]

theorem counted_of_tornDown {w : World} {x : NodeId} (torn : (w.usage x).tornDown = true) :
    w.component? x ≠ some .uncounted := by
  intro kind
  rw [usage, usage?_uncounted kind] at torn
  cases torn

theorem accounted_empty (x : NodeId) : Accounted {} x 0 := by
  constructor <;> simp [times, count, usage, usage?]

namespace Accounted

variable {w : World} {x : NodeId} {n : Nat}

/-- An entry of another account. -/
theorem aside (h : w.Accounted x n) {e : Entry} (other : e.concerns x = false) : (w.note e).Accounted x n := by
  have same : ∀ f : Entry, f.concerns x = true → (w.note e).count f = w.count f := by
    intro f concerned
    have differ : e ≠ f := by
      rintro rfl
      simp [concerned] at other
    simp [differ]
  have acquires : e.acquires x = false := by
    cases e with
    | acquired => exact other
    | _ => rfl
  have releases : e.releases x = false := by
    cases e with
    | released => exact other
    | _ => rfl
  have drops : e.drops x = false := by
    cases e with
    | dropped => exact other
    | _ => rfl
  have torn := same (.tornDown x) (by simp [Entry.concerns])
  have late := same (.releasedLate x) (by simp [Entry.concerns])
  have zero := same (.dropped x 0) (by simp [Entry.concerns])
  constructor
  · simpa [acquires, drops] using h.refs
  · rw [same (.underflowed x) (by simp [Entry.concerns])]
    simpa [releases, drops] using h.released
  · rw [torn]
    exact h.fired
  · rw [torn, late, zero]
    exact h.emptied
  · rw [zero]
    simpa [drops] using h.reached
  · rw [late]
    exact h.late
  · intro c counted kind
    rw [same _ (by simp [Component.concerns_opening]), torn]
    exact h.opened c counted kind

/-- Another node is acquired or released. -/
theorem elsewhere (h : w.Accounted x n) {y : NodeId} (u : Usage) (other : y ≠ x) :
    (w.setUsage y u).Accounted x n := by
  have same := usage_setUsage_ne (w := w) u other
  constructor
  · simpa [same] using h.refs
  · exact h.released
  · simpa [same] using h.fired
  · exact h.emptied
  · simpa [same] using h.reached
  · simpa [same] using h.late
  · simpa using h.opened

theorem acquire (h : w.Accounted x n) {u : Usage} (counted : w.usage? x = some u) (holder : Holder) :
    ((w.setUsage x u.acquire).note (.acquired holder x)).Accounted x n := by
  have now : w.usage x = u := usage_of_usage? counted
  have next : ((w.setUsage x u.acquire).note (.acquired holder x)).usage x = u.acquire :=
    usage_setUsage_self counted
  obtain ⟨refs, released, fired, emptied, reached, late, opened⟩ := h
  rw [now] at refs fired reached late
  constructor
  · rw [next]
    simp [Entry.drops, Entry.acquires, Usage.acquire]
    omega
  · simpa [Entry.drops, Entry.releases] using released
  · rw [next]
    simpa [Usage.acquire] using fired
  · simpa using emptied
  · rw [next]
    simp [Usage.acquire]
  · rw [next]
    simpa [Usage.acquire] using late
  · intro c c_counted kind
    have := opened c c_counted (by simpa using kind)
    cases c <;> simpa [Component.opening] using this

theorem underflow (h : w.Accounted x n) (holder : Holder) :
    ((w.note (.released holder x)).note (.underflowed x)).Accounted x n := by
  obtain ⟨refs, released, fired, emptied, reached, late, opened⟩ := h
  constructor
  · simpa [Entry.drops, Entry.acquires] using refs
  · simp [Entry.drops, Entry.releases]
    omega
  · simpa using fired
  · simpa using emptied
  · simpa [Entry.drops] using reached
  · simpa using late
  · intro c c_counted kind
    have := opened c c_counted (by simpa using kind)
    cases c <;> simpa [Component.opening] using this

theorem drop (h : w.Accounted x n) {u : Usage} {left : Nat} (counted : w.usage? x = some u)
    (some_left : u.refs = left + 1) (holder : Holder) :
    (((w.note (.released holder x)).setUsage x { u with refs := left }).note (.dropped x left)).Accounted x
      (n + if left = 0 then 1 else 0) := by
  have now : w.usage x = u := usage_of_usage? counted
  have next : (((w.note (.released holder x)).setUsage x { u with refs := left }).note
      (.dropped x left)).usage x = { u with refs := left } :=
    usage_setUsage_self (w := w.note (.released holder x)) counted
  obtain ⟨refs, released, fired, emptied, reached, late, opened⟩ := h
  rw [now] at refs fired reached late
  constructor
  · rw [next]
    simp [Entry.drops, Entry.acquires]
    omega
  · simp [Entry.drops, Entry.releases]
    omega
  · rw [next]
    simpa using fired
  · simp
    omega
  · rw [next]
    intro zero
    have zero : left = 0 := zero
    simp [zero]
  · rw [next]
    simpa using late
  · intro c c_counted kind
    have := opened c c_counted (by simpa using kind)
    cases c <;> simpa [Component.opening] using this

/-- The guard was set by another release. -/
theorem late_release (h : w.Accounted x (n + 1)) (spent : (w.usage x).tornDown = true) :
    (w.note (.releasedLate x)).Accounted x n := by
  obtain ⟨refs, released, fired, emptied, reached, late, opened⟩ := h
  constructor
  · simpa [Entry.drops, Entry.acquires] using refs
  · simpa [Entry.drops, Entry.releases] using released
  · simpa using fired
  · simp
    omega
  · simpa [Entry.drops] using reached
  · exact fun _ => spent
  · intro c c_counted kind
    have := opened c c_counted (by simpa using kind)
    cases c <;> simpa [Component.opening] using this

theorem fire (h : w.Accounted x (n + 1)) {u : Usage} {c : Component} (counted : w.usage? x = some u)
    (unfired : u.tornDown = false) (kind : w.component? x = some c) :
    (((w.setUsage x { u with tornDown := true }).note (.tornDown x)).note (c.opening x)).Accounted x n := by
  have now : w.usage x = u := usage_of_usage? counted
  have next : (((w.setUsage x { u with tornDown := true }).note (.tornDown x)).note (c.opening x)).usage x =
      { u with tornDown := true } := usage_setUsage_self counted
  obtain ⟨refs, released, fired, emptied, reached, late, opened⟩ := h
  rw [now] at refs fired reached late
  have apart : ∀ e ∈ [Entry.underflowed x, .tornDown x, .dropped x 0, .releasedLate x],
      (c.opening x == e) = false := by
    cases c <;> simp [Component.opening]
  have counts : (c.opening x).drops x = false ∧ (c.opening x).acquires x = false ∧
      (c.opening x).releases x = false := by
    cases c <;> exact ⟨rfl, rfl, rfl⟩
  have guard : (Entry.tornDown x).drops x = false ∧ (Entry.tornDown x).acquires x = false ∧
      (Entry.tornDown x).releases x = false := ⟨rfl, rfl, rfl⟩
  simp only [List.forall_mem_cons, List.not_mem_nil, false_imp_iff, implies_true, and_true] at apart
  obtain ⟨under, torn, zero, again⟩ := apart
  rw [unfired, Bool.toNat_false] at fired
  constructor
  · rw [next]
    simpa [counts, guard] using refs
  · simpa [counts, guard, under] using released
  · rw [next]
    simpa [torn] using fired
  · simp [torn, zero, again]
    omega
  · rw [next]
    simpa [counts, guard, zero] using reached
  · exact fun _ => by rw [next]
  · intro d d_counted d_kind
    cases d_kind c (by simpa using kind)
    have := opened c d_counted fun d other => by simpa [kind] using other.symm
    have self : (Entry.tornDown x == c.opening x) = false := by
      cases c <;> simp [Component.opening]
    simpa [torn, self] using this

theorem inspect (h : w.Accounted x n) (y : NodeId) (refs : Nat) : (w.inspect y refs).Accounted x n := by
  unfold World.inspect
  split
  · split
    · exact h.aside rfl
    · exact h
  · exact h

end Accounted

end World

theorem Activity.undertaking_fires (env : Work → Behaviour) (c : Component) (x y : NodeId) :
    (c.undertaking env x).tasks.countP (fires y) = 0 := by
  apply List.countP_eq_zero.mpr
  intro t mem
  cases c with
  | leaf | uncounted | hooked =>
    cases List.mem_singleton.mp mem
    simp [Component.undertaking, fires]
  | sink => cases mem
  | router routes config =>
    obtain ⟨r, -, rfl⟩ := mem_tasks_spread mem
    simp [fires]

open World in
/-- What a task does keeps every account in order. -/
theorem Activity.Act.accounted {env : Work → Behaviour} {w w' : World} {t t' : Activity} {x : NodeId} {n : Nat}
    (act : Act env w t w' t') (sound : t.Sound w) (counted : w.component? x ≠ some .uncounted)
    (h : w.Accounted x (n + if t.fires x then 1 else 0)) :
    w'.Accounted x (n + t'.tasks.countP (fires x)) := by
  -- Everything but operations on the node itself is written to other accounts.
  have other : ∀ {y}, y ≠ x → ∀ {w₁ : World} {n}, w₁.Accounted x n → ∀ e : Entry, e.concerns x = (y == x) →
      (w₁.note e).Accounted x n := by
    intro y ne w₁ n h e concerns
    exact h.aside (concerns.trans (beq_eq_false_iff_ne.mpr ne))
  cases act with
  | @acquire holder y u found =>
    by_cases here : y = x
    · subst here
      simpa [fires, tasks] using h.acquire found holder
    · simpa [fires, tasks] using other here (h.elsewhere u.acquire here) (.acquired holder y) rfl
  | @acquireUncounted holder y kind =>
    have here : y ≠ x := fun e => counted (e ▸ kind)
    simpa [fires, tasks] using other here h (.acquired holder y) rfl
  | inspect => simpa [fires, tasks] using h.inspect ..
  | @underflow holder y u found empty =>
    by_cases here : y = x
    · subst here
      simpa [fires, tasks] using h.underflow holder
    · simpa [fires, tasks] using
        other here (other here h (.released holder y) rfl) (.underflowed y) rfl
  | @drop holder y u left found more =>
    by_cases here : y = x
    · subst here
      simpa [fires, tasks] using h.drop found more holder
    · have released := (other here h (.released holder y) rfl).elsewhere { u with refs := left + 1 } here
      simpa [fires, tasks] using other here released (.dropped y (left + 1)) rfl
  | @dropLast holder y u found last =>
    by_cases here : y = x
    · subst here
      simpa [fires, tasks] using h.drop found last holder
    · have released := (other here h (.released holder y) rfl).elsewhere { u with refs := 0 } here
      simpa [fires, tasks, here] using other here released (.dropped y 0) rfl
  | @releaseUncounted holder y kind =>
    have here : y ≠ x := fun e => counted (e ▸ kind)
    rw [undertaking_fires]
    exact other here (other here h (.released holder y) rfl) (.began ⟨y, .teardown⟩) (by simp [Entry.concerns])
  | @late y spent =>
    by_cases here : y = x
    · subst here
      obtain ⟨u, found⟩ := usage?_of_made sound counted
      have set : (w.usage y).tornDown = true := by
        rw [usage_of_usage? found]
        exact spent u found
      have h : w.Accounted y (n + 1) := by simpa [fires] using h
      simpa [tasks] using h.late_release set
    · have h : w.Accounted x n := by simpa [fires, here] using h
      simpa [tasks] using other here h (.releasedLate y) rfl
  | @fire y u c found unfired kind =>
    rw [undertaking_fires]
    by_cases here : y = x
    · subst here
      have h : w.Accounted y (n + 1) := by simpa [fires] using h
      exact h.fire found unfired kind
    · have h : w.Accounted x n := by simpa [fires, here] using h
      have set := other here (h.elsewhere { u with tornDown := true } here) (.tornDown y) rfl
      exact other here set (c.opening y) (c.concerns_opening y x)
  | @receive y r c kind receiver =>
    simpa [fires, tasks] using (h.aside (e := .handed y r) rfl).aside (e := .began ⟨y, .report⟩)
      (by simp [Entry.concerns])
  | @forward y r below kind | @route y r => simpa [fires, tasks] using h.aside (e := .handed y r) rfl
  | @unrouted y r =>
    simpa [fires, tasks] using (h.aside (e := .handed y r) rfl).aside (e := .unrouted y r.name) rfl
  | @resume k => simpa [fires, tasks] using h.aside (e := .resumed k) rfl
  | @hookEnd y below o => simpa [fires, tasks] using h.aside (e := .finished ⟨y, .hook⟩ o) rfl
  | @hookPanic y below p =>
    simpa [fires, tasks] using (h.aside (e := .finished ⟨y, .hook⟩ (.panicked p)) rfl).aside
      (e := .hookPanicked y p) rfl
  | @workEnd k o => simpa [fires, tasks] using h.aside (e := .finished k o) rfl

namespace World

theorem usage?_add (w : World) (c : Component) (x : NodeId) :
    (w.add c).usage? x =
      if x = w.nodes.length then (if c.isCounted then some {} else none) else w.usage? x := by
  unfold add usage?
  by_cases new : x = w.nodes.length
  · simp [new]
  · rw [if_neg new]
    rcases Nat.lt_or_gt_of_ne new with old | beyond
    · rw [List.getElem?_append_left old]
    · rw [List.getElem?_eq_none (Nat.le_of_lt beyond), List.getElem?_eq_none]
      rw [List.length_append]
      exact beyond

/-- A node has no usage before it is made, and none when it is. -/
theorem usage_add (w : World) (c : Component) (x : NodeId) : (w.add c).usage x = w.usage x := by
  unfold usage
  rw [usage?_add]
  split
  · rename_i new
    have unmade : w.usage? x = none := by simp [usage?, new]
    rw [unmade]
    split <;> rfl
  · rfl

namespace Accounted

variable {w : World} {x : NodeId} {n : Nat}

theorem add (h : w.Accounted x n) (c : Component) : (w.add c).Accounted x n := by
  obtain ⟨refs, released, fired, emptied, reached, late, opened⟩ := h
  refine ⟨?_, released, ?_, emptied, ?_, ?_, ?_⟩
  · rw [usage_add]
    exact refs
  · rw [usage_add]
    exact fired
  · rw [usage_add]
    exact reached
  · rw [usage_add]
    exact late
  · intro d counted kind
    exact opened d counted fun e old => kind e (component?_add_of_some old)

theorem increment (h : w.Accounted x n) (counted : w.component? x ≠ some .uncounted) {y : NodeId}
    (made : (w.component? y).isSome = true) (holder : Holder) : (w.increment holder y).Accounted x n := by
  unfold World.increment
  by_cases here : y = x
  · subst here
    obtain ⟨u, found⟩ := usage?_of_made made counted
    rw [found]
    exact h.acquire found holder
  · have other : (Entry.acquired holder y).concerns x = false := beq_eq_false_iff_ne.mpr here
    split
    · exact (h.elsewhere _ here).aside other
    · exact h.aside other

theorem acquireAll {rs : List Reference} (h : w.Accounted x n) (counted : w.component? x ≠ some .uncounted)
    (made : ∀ r ∈ rs, (w.component? r.2).isSome = true) : (w.acquireAll rs).Accounted x n := by
  induction rs generalizing w with
  | nil => exact h
  | cons r rest ih =>
    have first : (w.acquire r.1 r.2).Accounted x n := by
      unfold World.acquire
      have added := h.increment counted (made r List.mem_cons_self) r.1
      dsimp only
      split
      · exact added.inspect ..
      · exact added
    refine ih first (by simpa using counted) fun r mem => ?_
    simpa using made r (List.mem_cons_of_mem _ mem)

end Accounted

end World

/-- The entries that are made of a node when no reference to it is left. -/
def Entry.empties (x : NodeId) (e : Entry) : Prop := e = .underflowed x ∨ e = .dropped x 0

theorem Activity.Act.emptied {env : Work → Behaviour} {w w' : World} {t t' : Activity} {x : NodeId} {e : Entry}
    (act : Act env w t w' t') (empties : Entry.empties x e) (absent : e ∉ w.journal)
    (present : e ∈ w'.journal) : (w'.usage x).refs = 0 := by
  cases act with
  | @underflow holder y u counted empty =>
    rcases empties with rfl | rfl <;> simp [absent] at present
    subst present
    rw [World.usage_note, World.usage_note, World.usage_of_usage? counted]
    exact empty
  | @dropLast holder y u counted last =>
    rcases empties with rfl | rfl <;> simp [absent] at present
    subst present
    have counted' : (w.note (.released holder x)).usage? x = some u := counted
    rw [World.usage_note, World.usage_setUsage_self counted']
  | inspect =>
    obtain ⟨new, journal, acquisitions⟩ := World.journal_inspect ..
    rw [journal] at present
    have entered := acquisitions e ((List.mem_append.mp present).resolve_right absent)
    rcases empties with rfl | rfl <;> cases entered
  | @fire y u c =>
    rcases empties with rfl | rfl <;> cases c <;> simp [absent, Component.opening] at present
  | _ => rcases empties with rfl | rfl <;> simp [absent] at present

namespace Machine

theorem Change.accounted {env : Environment} {m m' : Machine} {a : Move} {x : NodeId} (valid : m.Valid)
    (change : Change env m m' a) (counted : m.world.component? x ≠ some .uncounted)
    (counted' : m'.world.component? x ≠ some .uncounted)
    (h : m.world.Accounted x (m.tasks.countP (Activity.fires x))) :
    m'.world.Accounted x (m'.tasks.countP (Activity.fires x)) := by
  cases change with
  | @build c known world tasks =>
    rw [tasks, world]
    rw [world, World.component?_acquireAll] at counted'
    refine (h.add c).acquireAll counted' fun r mem => ?_
    apply (World.component?_isSome ..).mpr
    simpa [World.add] using Nat.lt_succ_of_lt (known r mem)
  | @call r known world tasks =>
    have quiet : r.activity.tasks.countP (Activity.fires x) = 0 := by
      apply List.countP_eq_zero.mpr
      intro t mem
      cases r with
      | releaseAll ys config =>
        obtain ⟨r, -, rfl⟩ := Activity.mem_tasks_spread mem
        simp [Activity.fires]
      | acquire | release | report =>
        cases List.mem_singleton.mp mem
        simp [Request.activity, Activity.fires]
    rw [tasks, world, List.countP_append, quiet]
    exact h
  | @act id path t t' before after act _ _ old new =>
    have sound : t.Sound m.world := valid.sound t (by simp [old])
    have now : m.tasks.countP (Activity.fires x) =
        (before ++ after).countP (Activity.fires x) + if t.fires x then 1 else 0 := by
      rw [old]
      simp only [List.countP_append, List.countP_cons]
      omega
    have next : m'.tasks.countP (Activity.fires x) =
        (before ++ after).countP (Activity.fires x) + t'.tasks.countP (Activity.fires x) := by
      rw [new]
      simp only [List.countP_append]
      omega
    rw [next]
    exact act.accounted sound counted (now ▸ h)
  | arrange world tasks =>
    rw [tasks]
    rcases world with world | ⟨p, world⟩ <;> rw [world]
    · exact h
    · exact h.aside rfl
  | openGate world tasks =>
    rw [tasks, world]
    exact ⟨h.refs, h.released, h.fired, h.emptied, h.reached, h.late, h.opened⟩
  | finish world tasks =>
    rw [tasks, world]
    exact h.aside rfl
  | @cancel id before lost after world old new idle =>
    have quiet : lost.countP (Activity.fires x) = 0 := by
      apply List.countP_eq_zero.mpr
      intro t mem
      have := idle t mem
      cases t <;> simp_all [Activity.fires, Activity.isInterruptible]
    have same : m'.tasks.countP (Activity.fires x) = m.tasks.countP (Activity.fires x) := by
      rw [old, new]
      simp only [List.countP_append, quiet]
      omega
    rw [same, world]
    exact h.aside rfl

theorem Run.accounted {env : Environment} {m : Machine} {moves : List Move} (run : Run env {} moves m)
    {x : NodeId} (counted : m.world.component? x ≠ some .uncounted) :
    m.world.Accounted x (m.tasks.countP (Activity.fires x)) := by
  induction run with
  | start => exact World.accounted_empty x
  | next run step ih =>
    have valid := run.valid valid_empty
    have change := valid.change step
    have before := fun kind => counted (change.component? kind)
    exact change.accounted valid before counted (ih before)

theorem Change.emptied {env : Environment} {m m' : Machine} {a : Move} {x : NodeId} {e : Entry}
    (change : Change env m m' a) (empties : Entry.empties x e) (absent : e ∉ m.world.journal)
    (present : e ∈ m'.world.journal) : (m'.world.usage x).refs = 0 := by
  obtain ⟨c, -, -, world⟩ | ⟨id, path, t, t', -, act, -⟩ | ⟨-, new, journal, clerical⟩ := change.world_cases
  · obtain ⟨new, journal, acquisitions⟩ := (m.world.add c).journal_acquireAll (c.holds m.world.nodes.length)
    rw [world, journal] at present
    have entered := acquisitions e ((List.mem_append.mp present).resolve_right absent)
    obtain rfl | rfl := empties <;> cases entered
  · exact act.emptied empties absent present
  · rw [journal] at present
    have entered := clerical e ((List.mem_append.mp present).resolve_right absent)
    obtain rfl | rfl := empties <;> cases entered

section

variable {env : Environment} {moves more : List Move} {m m' : Machine} {x : NodeId} {c : Component}

theorem Run.account (run : Run env {} moves m) (kind : m.world.component? x = some c)
    (counted : c.isCounted = true) :
    m.world.Accounted x (m.tasks.countP (Activity.fires x)) ∧
      m.world.count (c.opening x) = m.world.count (.tornDown x) := by
  have account := run.accounted (World.not_uncounted kind counted)
  refine ⟨account, account.opened c counted fun d other => ?_⟩
  rw [kind] at other
  exact (Option.some.inj other).symm

/-- An entry says that the count was at zero, and at some moment since it was. -/
theorem Run.emptied {e : Entry} (first : Run env {} moves m) (run : Run env m more m')
    (counted : m'.world.component? x ≠ some .uncounted) (empties : Entry.empties x e)
    (absent : e ∉ m.world.journal) (present : e ∈ m'.world.journal) :
    ∃ earlier later before, Run env m earlier before ∧ Run env before later m' ∧ e ∈ before.world.journal ∧
      (before.world.usage x).refs = 0 ∧ before.world.Accounted x (before.tasks.countP (Activity.fires x)) := by
  obtain ⟨earlier, a, later, before, after, rfl, further, step, rest, absent, present⟩ :=
    run.turn (P := fun m => e ∈ m.world.journal) absent present
  have change := ((first.append further).valid valid_empty).change step
  have now := first.append (further.next step)
  have counted' : after.world.component? x ≠ some .uncounted :=
    fun uncounted => counted (rest.component? (now.valid valid_empty) uncounted)
  exact ⟨earlier ++ [a], later, after, further.next step, rest, present,
    change.emptied empties absent present, now.accounted counted'⟩

/-- What is acquired no more stays at zero. -/
theorem Run.stays_zero (first : Run env {} moves m) (run : Run env m more m')
    (counted : m'.world.component? x ≠ some .uncounted) (zero : (m.world.usage x).refs = 0)
    (no_more : m'.world.times (Entry.acquires x) ≤ m.world.times (Entry.acquires x)) :
    (m'.world.usage x).refs = 0 := by
  have valid := first.valid valid_empty
  have counted' : m.world.component? x ≠ some .uncounted := fun uncounted => counted (run.component? valid uncounted)
  have drops : m.world.times (Entry.drops x) ≤ m'.world.times (Entry.drops x) :=
    (run.journal valid).sublist.countP_le
  have refs := (first.accounted counted').refs
  have refs' := ((first.append run).accounted counted).refs
  omega

end

end Machine

end MetricPipeline
