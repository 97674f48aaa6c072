import MetricPipeline.Proofs.Act

/-!
# Runs

A run is a sequence of moves, each taken from where the one before it led, so the runs from the empty machine
are all interleavings of all calls over all graphs. `Machine.Valid` holds along every run, and with it every
move is one of the `Machine.Change`s: what becomes of the world and of the tasks at work, whatever trees the
tasks are part of.
-/

namespace MetricPipeline

/-- Who holds a node, and the node that is held. -/
abbrev Reference := Holder × NodeId

namespace World

def add (w : World) (c : Component) : World := { w with nodes := w.nodes ++ [⟨c, {}⟩] }

def acquireAll (w : World) (references : List Reference) : World :=
  references.foldl (fun w r => w.acquire r.1 r.2) w

@[simp] theorem component?_inspect (w : World) (x : NodeId) (refs : Nat) :
    (w.inspect x refs).component? = w.component? := by
  unfold inspect
  split
  · split <;> rfl
  · rfl

@[simp] theorem component?_increment (w : World) (h : Holder) (x : NodeId) :
    (w.increment h x).component? = w.component? := by
  unfold increment
  split <;> simp

@[simp] theorem component?_acquire (w : World) (h : Holder) (x : NodeId) :
    (w.acquire h x).component? = w.component? := by
  unfold acquire
  dsimp only
  split <;> simp

@[simp] theorem component?_acquireAll (w : World) (rs : List Reference) :
    (w.acquireAll rs).component? = w.component? := by
  induction rs generalizing w with
  | nil => rfl
  | cons r rest ih =>
    have := ih (w.acquire r.1 r.2)
    simpa [acquireAll] using this

theorem component?_isSome (w : World) (x : NodeId) :
    (w.component? x).isSome = true ↔ x < w.nodes.length := by
  simp [component?]

theorem component?_add (w : World) (c : Component) (x : NodeId) :
    (w.add c).component? x = if x = w.nodes.length then some c else w.component? x := by
  unfold add component?
  by_cases new : x = w.nodes.length
  · simp [new]
  · rw [if_neg new]
    rcases Nat.lt_or_gt_of_ne new with old | beyond
    · rw [List.getElem?_append_left old]
    · rw [List.getElem?_eq_none (Nat.le_of_lt beyond), List.getElem?_eq_none]
      rw [List.length_append]
      exact beyond

theorem component?_add_of_some {w : World} {c d : Component} {x : NodeId}
    (kind : w.component? x = some d) : (w.add c).component? x = some d := by
  have old : x < w.nodes.length := (w.component?_isSome x).mp (by simp [kind])
  rw [component?_add, if_neg (Nat.ne_of_lt old), kind]

theorem build?_eq_some {w w' : World} {c : Component} :
    w.build? c = some w' ↔ (∀ r ∈ c.holds w.nodes.length, r.2 < w.nodes.length) ∧
      w' = (w.add c).acquireAll (c.holds w.nodes.length) := by
  unfold build? acquireAll add
  simp only [Option.ite_none_right_eq_some, List.all_eq_true, decide_eq_true_eq, Option.some.injEq]
  exact ⟨fun h => ⟨h.1, h.2.symm⟩, fun h => ⟨h.1, h.2.symm⟩⟩

end World

/-! ## The journal only grows -/

/-- The entry is about calls and fan-outs, and not about a node. -/
def Entry.isClerical : Entry → Bool
  | releasePanicked _ | returned _ _ | cancelled _ => true
  | _ => false

/-- A reference was added, or the guard read after that. -/
def Entry.isAcquisition : Entry → Bool
  | acquired _ _ | acquiredLate _ _ => true
  | _ => false

theorem World.journal_inspect (w : World) (x : NodeId) (refs : Nat) :
    ∃ new, (w.inspect x refs).journal = new ++ w.journal ∧ ∀ e ∈ new, e.isAcquisition = true := by
  unfold inspect
  split
  · split
    · exact ⟨[.acquiredLate x refs], rfl, by simp [Entry.isAcquisition]⟩
    · exact ⟨[], rfl, by simp⟩
  · exact ⟨[], rfl, by simp⟩

theorem World.journal_acquireAll (w : World) (rs : List Reference) :
    ∃ new, (w.acquireAll rs).journal = new ++ w.journal ∧ ∀ e ∈ new, e.isAcquisition = true := by
  induction rs generalizing w with
  | nil => exact ⟨[], rfl, by simp⟩
  | cons r rest ih =>
    have added : (w.increment r.1 r.2).journal = .acquired r.1 r.2 :: w.journal := by
      unfold increment
      split <;> rfl
    obtain ⟨more, others, acquisitions⟩ := ih (w.acquire r.1 r.2)
    have first : ∃ new, (w.acquire r.1 r.2).journal = new ++ w.journal ∧
        ∀ e ∈ new, e.isAcquisition = true := by
      unfold acquire
      dsimp only
      split
      · rename_i u _
        obtain ⟨new, inspected, acquisitions⟩ := (w.increment r.1 r.2).journal_inspect r.2 u.refs
        refine ⟨new ++ [.acquired r.1 r.2], by simp [inspected, added], fun e mem => ?_⟩
        rcases List.mem_append.mp mem with mem | mem
        · exact acquisitions e mem
        · cases List.mem_singleton.mp mem
          rfl
      · exact ⟨[.acquired r.1 r.2], added, by simp [Entry.isAcquisition]⟩
    obtain ⟨new, now, acquired⟩ := first
    refine ⟨more ++ new, ?_, fun e mem => ?_⟩
    · change ((w.acquire r.1 r.2).acquireAll rest).journal = _
      rw [others, now, List.append_assoc]
    · exact (List.mem_append.mp mem).elim (acquisitions e) (acquired e)

theorem Activity.Act.journal {env : Work → Behaviour} {w w' : World} {t t' : Activity}
    (h : Activity.Act env w t w' t') : w.journal <:+ w'.journal := by
  have two : ∀ e f : Entry, w.journal <:+ f :: e :: w.journal :=
    fun e f => (List.suffix_cons e _).trans (List.suffix_cons f _)
  cases h with
  | inspect =>
    obtain ⟨new, journal, -⟩ := World.journal_inspect ..
    exact ⟨new, journal.symm⟩
  | acquire | acquireUncounted | late | forward | route | resume | hookEnd | workEnd =>
    exact List.suffix_cons ..
  | underflow | drop | dropLast | releaseUncounted | fire | receive | unrouted | hookPanic => exact two _ _

theorem Activity.Act.component? {env : Work → Behaviour} {w w' : World} {t t' : Activity}
    (h : Activity.Act env w t w' t') : w'.component? = w.component? := by
  cases h <;> simp

/-- The call under way that the move is about. -/
def Move.target? : Move → Option CallId
  | run id _ | finish id | cancel id => some id
  | build _ | call _ | openGate _ => none

namespace Machine

/-- The tasks of all calls that are still to act on the world. -/
def tasks (m : Machine) : List Activity := m.calls.flatMap (·.2.tasks)

/-- The task of a call at the end of a path. -/
def task? (m : Machine) (id : CallId) (path : Path) : Option Activity :=
  (m.activity? id).bind (·.task? path)

inductive Run (env : Environment) (m : Machine) : List Move → Machine → Prop
  | start : Run env m [] m
  | next {moves m' a m''} : Run env m moves m' → m'.step? env a = some m'' → Run env m (moves ++ [a]) m''

theorem Run.append {env : Environment} {m m' m'' : Machine} {earlier later : List Move}
    (first : Run env m earlier m') (second : Run env m' later m'') : Run env m (earlier ++ later) m'' := by
  induction second with
  | start => simpa using first
  | next _ step ih => simpa using ih.next step

theorem Run.of_foldlM {env : Environment} {m m' : Machine} {moves : List Move}
    (h : moves.foldlM (fun m a => m.step? env a) m = some m') : Run env m moves m' := by
  induction moves generalizing m with
  | nil =>
    cases h
    exact .start
  | cons a rest ih =>
    obtain ⟨between, step, more⟩ := Option.bind_eq_some_iff.mp h
    exact (Run.start.next step).append (ih more)

/-- What comes to hold comes to hold in one of the moves. -/
theorem Run.turn {env : Environment} {m m' : Machine} {moves : List Move} (run : Run env m moves m')
    {P : Machine → Prop} (start : ¬P m) (stop : P m') :
    ∃ earlier a later before after, moves = earlier ++ a :: later ∧ Run env m earlier before ∧
      before.step? env a = some after ∧ Run env after later m' ∧ ¬P before ∧ P after := by
  induction run with
  | start => exact absurd stop start
  | @next moves m₁ b m₂ run step ih =>
    by_cases already : P m₁
    · obtain ⟨earlier, a, later, before, after, rfl, first, now, rest, notYet, then_⟩ := ih already
      exact ⟨earlier, a, later ++ [b], before, after, by simp, first, now, rest.next step, notYet, then_⟩
    · exact ⟨moves, b, [], m₁, m₂, rfl, run, step, .start, already, stop⟩

end Machine

/-! ## What holds along every run -/

namespace Activity

/-- A task is about a node that was made, only outsiders acquire a node by a call of their own, and only a
wrapper has a hook. -/
def Sound (w : World) : Activity → Prop
  | acquire h x => h = .outside ∧ (w.component? x).isSome = true
  | inspect x _ | release _ x | fire x | report x _ => (w.component? x).isSome = true
  | work k _ _ => (w.component? k.node).isSome = true ∧
      (k.duty = .hook → ∃ below, w.component? k.node = some (.hooked below))
  | ended _ | delegate _ _ | fanOut _ => True

theorem Sound.known {w : World} {t : Activity} (sound : t.Sound w) :
    ∀ x, t.node? = some x → (w.component? x).isSome = true := by
  intro x here
  cases t with
  | ended | delegate | fanOut => cases here
  | acquire =>
    cases here
    exact sound.2
  | work =>
    cases here
    exact sound.1
  | inspect | release | fire | report =>
    cases here
    exact sound

theorem Sound.mono {w w' : World} {t : Activity}
    (extends_ : ∀ x c, w.component? x = some c → w'.component? x = some c) (sound : t.Sound w) :
    t.Sound w' := by
  have known : ∀ x, (w.component? x).isSome = true → (w'.component? x).isSome = true := by
    intro x h
    obtain ⟨c, kind⟩ := Option.isSome_iff_exists.mp h
    simp [extends_ x c kind]
  cases t with
  | ended | delegate | fanOut => trivial
  | acquire => exact ⟨sound.1, known _ sound.2⟩
  | inspect | release | fire | report => exact known _ sound
  | work k =>
    refine ⟨known _ sound.1, fun hook => ?_⟩
    obtain ⟨below, kind⟩ := sound.2 hook
    exact ⟨below, extends_ _ _ kind⟩

end Activity

/-- A node refers to nodes made before it. -/
def World.Acyclic (w : World) : Prop :=
  ∀ x c, w.component? x = some c → ∀ r ∈ c.holds x, r.2 < x

theorem World.Acyclic.known {w : World} (acyclic : w.Acyclic) {x : NodeId} {c : Component}
    (kind : w.component? x = some c) : ∀ r ∈ c.holds x, (w.component? r.2).isSome = true := by
  intro r held
  have made : x < w.nodes.length := (w.component?_isSome x).mp (by simp [kind])
  exact (w.component?_isSome r.2).mpr (Nat.lt_trans (acyclic x c kind r held) made)

theorem Component.mem_holds_router {x y : NodeId} {routes : Table NodeId} {config : Config} {key : String} :
    (.route x key, y) ∈ (Component.router routes config).holds x ↔ routes.get? key = some y := by
  refine ⟨fun held => ?_, fun found => List.mem_map.mpr ⟨_, (routes.mem_entries_iff key y).mpr found, rfl⟩⟩
  obtain ⟨e, kept, same⟩ := List.mem_map.mp held
  cases same
  exact (routes.mem_entries_iff _ _).mp kept

namespace Activity

theorem undertaking_sound {env : Work → Behaviour} {w : World} {x : NodeId} {c : Component}
    (acyclic : w.Acyclic) (kind : w.component? x = some c) :
    ∀ t ∈ (c.undertaking env x).tasks, t.Sound w := by
  have known := acyclic.known kind
  cases c with
  | leaf | uncounted => simp [Component.undertaking, tasks, Sound, kind]
  | sink => simp [Component.undertaking, tasks]
  | hooked below => simp [Component.undertaking, tasks, Sound, kind]
  | router routes config =>
    intro t mem
    obtain ⟨r, held, rfl⟩ := mem_tasks_spread mem
    exact known r held

theorem Act.sound {env : Work → Behaviour} {w w' : World} {t t' : Activity} (acyclic : w.Acyclic)
    (h : Act env w t w' t') (sound : t.Sound w) : ∀ s ∈ t'.tasks, s.Sound w' := by
  have same : ∀ x c, w.component? x = some c → w'.component? x = some c := by
    rw [h.component?]
    exact fun _ _ kind => kind
  refine fun s mem => Sound.mono same ?_
  revert s
  cases h with
  | acquire => simpa [tasks, Sound] using sound.2
  | acquireUncounted | inspect | underflow | drop | late | unrouted | workEnd => simp [tasks]
  | dropLast => simpa [tasks, Sound] using sound
  | releaseUncounted kind => exact undertaking_sound acyclic kind
  | fire _ _ kind => exact undertaking_sound acyclic kind
  | receive kind => simp [tasks, Sound, kind]
  | forward kind =>
    have := acyclic.known kind _ (List.mem_singleton_self _)
    simpa [tasks, Sound] using this
  | route kind found =>
    have := acyclic.known kind _ (Component.mem_holds_router.mpr found)
    simpa [tasks, Sound] using this
  | resume => simpa [tasks, Sound] using sound
  | hookEnd kind | hookPanic kind =>
    have := acyclic.known kind _ (List.mem_singleton_self _)
    simpa [tasks, Sound] using this

end Activity

theorem Request.activity_sound {w : World} {r : Request} (known : ∀ x ∈ r.nodes, x < w.nodes.length) :
    ∀ t ∈ r.activity.tasks, t.Sound w := by
  have known : ∀ x ∈ r.nodes, (w.component? x).isSome = true :=
    fun x mem => (w.component?_isSome x).mpr (known x mem)
  cases r with
  | acquire x => simpa [activity, Activity.tasks, Activity.Sound] using known x (by simp [nodes])
  | release x => simpa [activity, Activity.tasks, Activity.Sound] using known x (by simp [nodes])
  | report x => simpa [activity, Activity.tasks, Activity.Sound] using known x (by simp [nodes])
  | releaseAll xs config =>
    intro t mem
    obtain ⟨r, asked, rfl⟩ := Activity.mem_tasks_spread mem
    obtain ⟨x, made, rfl⟩ := List.mem_map.mp asked
    exact known x made

theorem Request.activity_staged (r : Request) : r.activity.Staged := by
  cases r with
  | releaseAll => exact Activity.staged_spread ..
  | acquire | release | report => trivial

namespace Machine

structure Valid (m : Machine) : Prop where
  distinct : (m.calls.map (·.1)).Nodup
  fresh : ∀ c ∈ m.calls, c.1 < m.next
  acyclic : m.world.Acyclic
  sound : ∀ t ∈ m.tasks, t.Sound m.world
  staged : ∀ c ∈ m.calls, c.2.Staged

theorem mem_calls {m : Machine} {id : CallId} {a : Activity} (found : m.activity? id = some a) :
    (id, a) ∈ m.calls := by
  obtain ⟨before, after, split, -⟩ := List.lookup_eq_some_iff.mp found
  simp [split]

theorem Valid.split {m : Machine} (valid : m.Valid) {id : CallId} {a : Activity}
    (found : m.activity? id = some a) :
    ∃ before after, m.calls = before ++ (id, a) :: after ∧ ∀ c ∈ before ++ after, c.1 ≠ id := by
  obtain ⟨before, after, split, others⟩ := List.lookup_eq_some_iff.mp found
  refine ⟨before, after, split, fun c mem => ?_⟩
  rcases List.mem_append.mp mem with mem | mem
  · exact fun e => by simpa [e] using others c mem
  · have distinct := valid.distinct
    rw [split, List.map_append, List.map_cons] at distinct
    have later := (List.nodup_cons.mp (List.nodup_append.mp distinct).2.1).1
    exact fun e => later (List.mem_map.mpr ⟨c, mem, e⟩)

theorem Valid.without {m : Machine} (valid : m.Valid) {id : CallId} {a : Activity}
    (found : m.activity? id = some a) :
    ∃ before after, m.calls = before ++ (id, a) :: after ∧ m.without id = before ++ after := by
  obtain ⟨before, after, split, others⟩ := valid.split found
  refine ⟨before, after, split, ?_⟩
  have keep : (before ++ after).filter (fun c => c.1 != id) = before ++ after :=
    List.filter_eq_self.mpr fun c mem => by simpa using others c mem
  rw [Machine.without, split]
  simpa using keep

theorem Valid.sound_call {m : Machine} (valid : m.Valid) {id : CallId} {a : Activity} (mem : (id, a) ∈ m.calls) :
    ∀ t ∈ a.tasks, t.Sound m.world :=
  fun t mine => valid.sound t (List.mem_flatMap.mpr ⟨(id, a), mem, mine⟩)

theorem Valid.activity?_of_mem {m : Machine} {id : CallId} {a : Activity} (valid : m.Valid)
    (mem : (id, a) ∈ m.calls) : m.activity? id = some a := by
  obtain ⟨before, after, split⟩ := List.append_of_mem mem
  refine List.lookup_eq_some_iff.mpr ⟨before, after, split, fun c earlier => ?_⟩
  have distinct := valid.distinct
  rw [split, List.map_append, List.map_cons] at distinct
  have apart := (List.nodup_append.mp distinct).2.2 c.1 (List.mem_map_of_mem earlier) id List.mem_cons_self
  exact bne_iff_ne.mpr (Ne.symm apart)

/-- A call takes a step of its own, and the other calls stay as they are. -/
theorem Valid.run {env : Environment} {m m' : Machine} {id : CallId} {path : Path} (valid : m.Valid)
    (h : m.step? env (.run id path) = some m') :
    ∃ a a' before after, m.activity? id = some a ∧
      a.step? (env id) m.world path = some (m'.world, a') ∧
      m.calls = before ++ (id, a) :: after ∧ m'.calls = before ++ (id, a') :: after ∧
      m'.activity? id = some a' ∧ m'.next = m.next := by
  simp only [step?, Option.bind_eq_bind, Option.bind_eq_some_iff, Option.pure_def, Option.some.injEq] at h
  obtain ⟨a, found, ⟨w, a'⟩, step, rfl⟩ := h
  obtain ⟨before, after, split, others⟩ := valid.split found
  have keep : ∀ cs : List (CallId × Activity), (∀ c ∈ cs, c.1 ≠ id) →
      cs.map (fun c => if c.1 = id then (id, a') else c) = cs :=
    fun cs other => (List.map_congr_left fun c mem => if_neg (other c mem)).trans (List.map_id' cs)
  have split' : m.calls.map (fun c => if c.1 = id then (id, a') else c) = before ++ (id, a') :: after := by
    rw [split, List.map_append, List.map_cons, if_pos rfl,
      keep before fun c mem => others c (List.mem_append_left _ mem),
      keep after fun c mem => others c (List.mem_append_right _ mem)]
  refine ⟨a, a', before, after, found, step, split, split', ?_, rfl⟩
  refine List.lookup_eq_some_iff.mpr ⟨before, after, split', fun c mem => ?_⟩
  exact bne_iff_ne.mpr (others c (List.mem_append_left _ mem)).symm

theorem lookup_without (m : Machine) (id other : CallId) :
    (m.without other).lookup id = if id = other then none else m.activity? id := by
  unfold without activity?
  induction m.calls with
  | nil => simp
  | cons c rest ih =>
    rw [List.filter_cons]
    by_cases gone : c.1 = other
    · have skip : (c.1 != other) = false := by simp [gone]
      rw [skip, if_neg (by simp), ih]
      split
      · rfl
      · rename_i differ
        have : (id == c.1) = false := beq_eq_false_iff_ne.mpr (gone ▸ differ)
        rw [List.lookup_cons, this]
    · have stays : (c.1 != other) = true := by simp [gone]
      rw [stays, if_pos rfl, List.lookup_cons, List.lookup_cons, ih]
      by_cases here : id = c.1
      · subst here
        simp [gone]
      · have : (id == c.1) = false := beq_eq_false_iff_ne.mpr here
        rw [this]

/-- What a move does to one call. -/
inductive CallChange (env : Environment) (m m' : Machine) (id : CallId) : Move → Prop
  | stays {a} (apart : a.target? ≠ some id) (same : m'.activity? id = m.activity? id) :
      CallChange env m m' id a
  | begins {r} (fresh : id = m.next) (old : m.activity? id = none) (new : m'.activity? id = some r.activity) :
      CallChange env m m' id (.call r)
  | steps {path a a'} (old : m.activity? id = some a) (new : m'.activity? id = some a')
      (step : Activity.Step m.world (env id) a path m'.world a') : CallChange env m m' id (.run id path)
  | returns {o} (old : m.activity? id = some (.ended o)) (new : m'.activity? id = none) :
      CallChange env m m' id (.finish id)
  | dropped {a} (old : m.activity? id = some a) (idle : a.isInterruptible = true)
      (new : m'.activity? id = none) : CallChange env m m' id (.cancel id)

theorem Valid.callChange {env : Environment} {m m' : Machine} {a : Move} (valid : m.Valid)
    (step : m.step? env a = some m') (id : CallId) : CallChange env m m' id a := by
  cases a with
  | build c =>
    obtain ⟨w, -, rfl⟩ := Option.map_eq_some_iff.mp step
    exact .stays (by simp [Move.target?]) rfl
  | openGate gate =>
    cases step
    exact .stays (by simp [Move.target?]) rfl
  | call r =>
    simp only [step?, Option.ite_none_right_eq_some, Option.some.injEq] at step
    obtain ⟨-, rfl⟩ := step
    have lookup : (m.calls ++ [(m.next, r.activity)]).lookup id =
        (m.activity? id).or (if id = m.next then some r.activity else none) := by
      rw [List.lookup_append, List.lookup_cons, List.lookup_nil]
      by_cases new : id = m.next
      · rw [beq_iff_eq.mpr new, if_pos new]
        rfl
      · rw [beq_eq_false_iff_ne.mpr new, if_neg new]
        rfl
    cases found : m.activity? id with
    | some b => exact .stays (by simp [Move.target?]) (by rw [found, activity?, lookup, found, Option.some_or])
    | none =>
      rw [found, Option.none_or] at lookup
      by_cases new : id = m.next
      · exact .begins new found (lookup.trans (if_pos new))
      · exact .stays (by simp [Move.target?]) (by rw [found, activity?, lookup, if_neg new])
  | run other path =>
    obtain ⟨b, b', before, after, found, moved, split, split', found', -⟩ := valid.run step
    by_cases same : id = other
    · subst same
      exact .steps found found' (Activity.step?_step moved)
    · refine .stays (by simpa [Move.target?] using Ne.symm same) ?_
      simp only [activity?, split, split', List.lookup_append, List.lookup_cons]
      rw [beq_eq_false_iff_ne.mpr same]
  | finish other =>
    simp only [step?, outcome?, Option.bind_eq_bind, Option.bind_eq_some_iff, Option.pure_def,
      Option.some.injEq] at step
    obtain ⟨o, ⟨b, found, ended⟩, rfl⟩ := step
    have lookup := lookup_without m id other
    by_cases gone : id = other
    · subst gone
      rw [if_pos rfl] at lookup
      cases b with
      | ended => exact .returns found lookup
      | _ => cases ended
    · exact .stays (by simpa [Move.target?] using Ne.symm gone) (lookup.trans (if_neg gone))
  | cancel other =>
    simp only [step?, Option.bind_eq_bind, Option.bind_eq_some_iff, Option.pure_def,
      Option.ite_none_right_eq_some, Option.some.injEq] at step
    obtain ⟨b, found, idle, rfl⟩ := step
    have lookup := lookup_without m id other
    by_cases gone : id = other
    · subst gone
      exact .dropped found idle (lookup.trans (if_pos rfl))
    · exact .stays (by simpa [Move.target?] using Ne.symm gone) (lookup.trans (if_neg gone))

/-- What a move does to the world and to the tasks at work. -/
inductive Change (env : Environment) (m m' : Machine) : Move → Prop
  | build {c} (known : ∀ r ∈ c.holds m.world.nodes.length, r.2 < m.world.nodes.length)
      (world : m'.world = (m.world.add c).acquireAll (c.holds m.world.nodes.length))
      (tasks : m'.tasks = m.tasks) : Change env m m' (.build c)
  | call {r} (known : ∀ x ∈ r.nodes, x < m.world.nodes.length) (world : m'.world = m.world)
      (tasks : m'.tasks = m.tasks ++ r.activity.tasks) : Change env m m' (.call r)
  | act {id path t t' before after} (act : Activity.Act ((env id).behaviour path) m.world t m'.world t')
      (here : m.task? id path = some t) (there : m'.task? id path = t'.task? [])
      (old : m.tasks = before ++ t :: after) (new : m'.tasks = before ++ (t'.tasks ++ after)) :
      Change env m m' (.run id path)
  | arrange {id path} (world : m'.world = m.world ∨ ∃ text, m'.world = m.world.note (.releasePanicked text))
      (tasks : m'.tasks = m.tasks) : Change env m m' (.run id path)
  | openGate {gate} (world : m'.world = m.world.openGate gate) (tasks : m'.tasks = m.tasks) :
      Change env m m' (.openGate gate)
  | finish {id o} (world : m'.world = m.world.note (.returned id o)) (tasks : m'.tasks = m.tasks) :
      Change env m m' (.finish id)
  | cancel {id before lost after} (world : m'.world = m.world.note (.cancelled id))
      (old : m.tasks = before ++ (lost ++ after)) (new : m'.tasks = before ++ after)
      (idle : ∀ t ∈ lost, t.isInterruptible = true) : Change env m m' (.cancel id)

theorem Valid.change {env : Environment} {m m' : Machine} {a : Move} (valid : m.Valid)
    (h : m.step? env a = some m') : Change env m m' a := by
  cases a with
  | build c =>
    obtain ⟨w, made, rfl⟩ := Option.map_eq_some_iff.mp h
    obtain ⟨known, rfl⟩ := World.build?_eq_some.mp made
    exact .build known rfl rfl
  | call r =>
    simp only [step?, Option.ite_none_right_eq_some, List.all_eq_true, decide_eq_true_eq,
      Option.some.injEq] at h
    obtain ⟨known, rfl⟩ := h
    exact .call known rfl (by simp [tasks])
  | run id path =>
    obtain ⟨a, a', before, after, found, step, split, split', found', -⟩ := valid.run h
    have old : m.tasks = before.flatMap (·.2.tasks) ++ (a.tasks ++ after.flatMap (·.2.tasks)) := by
      simp [tasks, split]
    have new : m'.tasks = before.flatMap (·.2.tasks) ++ (a'.tasks ++ after.flatMap (·.2.tasks)) := by
      simp [tasks, split']
    rcases Activity.step_cases (Activity.step?_step step) with
      ⟨world, same⟩ | ⟨t, t', l, r, acts, here, there, had, has⟩
    · exact .arrange world (by rw [old, new, same])
    · have mem : t ∈ m.tasks := by simp [old, had]
      have old' : m.tasks = (before.flatMap (·.2.tasks) ++ l) ++ t :: (r ++ after.flatMap (·.2.tasks)) := by
        simp [old, had]
      exact .act (Activity.act_act (valid.sound t mem).known acts) (by simpa [task?, found] using here)
        (by simpa [task?, found'] using there) old' (by simp [new, has])
  | openGate gate =>
    cases h
    exact .openGate rfl rfl
  | finish id =>
    simp only [step?, outcome?, Option.bind_eq_bind, Option.bind_eq_some_iff, Option.pure_def,
      Option.some.injEq] at h
    obtain ⟨o, ⟨a, found, ended⟩, rfl⟩ := h
    obtain ⟨before, after, split, without⟩ := valid.without found
    have none_left : a.tasks = [] := by
      cases a with
      | ended => rfl
      | _ => cases ended
    exact .finish rfl (by simp [tasks, split, without, none_left])
  | cancel id =>
    simp only [step?, Option.bind_eq_bind, Option.bind_eq_some_iff] at h
    obtain ⟨a, found, h⟩ := h
    split at h
    · rename_i idle
      cases h
      obtain ⟨before, after, split, without⟩ := valid.without found
      have staged : a.Staged := valid.staged (id, a) (by simp [split])
      exact .cancel rfl (by simp [tasks, split]; rfl) (by simp [tasks, without])
        (Activity.interruptible_tasks staged idle)
    · cases h

/-- A node is made, or a task acts, or nothing is done to the nodes. -/
theorem Change.world_cases {env : Environment} {m m' : Machine} {a : Move} (change : Change env m m' a) :
    (∃ c, a = .build c ∧ (∀ r ∈ c.holds m.world.nodes.length, r.2 < m.world.nodes.length) ∧
      m'.world = (m.world.add c).acquireAll (c.holds m.world.nodes.length)) ∨
    (∃ id path t t', a = .run id path ∧ Activity.Act ((env id).behaviour path) m.world t m'.world t' ∧ t ∈ m.tasks ∧
      m.task? id path = some t ∧ m'.task? id path = t'.task? []) ∨
    m'.world.nodes = m.world.nodes ∧ ∃ new, m'.world.journal = new ++ m.world.journal ∧
      ∀ e ∈ new, e.isClerical = true := by
  have still : ∀ {w : World} new, m'.world = w → w.nodes = m.world.nodes → w.journal = new ++ m.world.journal →
      (∀ e ∈ new, e.isClerical = true) → m'.world.nodes = m.world.nodes ∧
        ∃ new, m'.world.journal = new ++ m.world.journal ∧ ∀ e ∈ new, e.isClerical = true := by
    rintro w new rfl nodes journal clerical
    exact ⟨nodes, new, journal, clerical⟩
  cases change with
  | build known world => exact .inl ⟨_, rfl, known, world⟩
  | act act here there old => exact .inr (.inl ⟨_, _, _, _, rfl, act, by simp [old], here, there⟩)
  | arrange world =>
    obtain world | ⟨text, world⟩ := world
    · exact .inr (.inr (still [] world rfl rfl (by simp)))
    · exact .inr (.inr (still [.releasePanicked text] world rfl rfl (by simp [Entry.isClerical])))
  | call _ world | openGate world => exact .inr (.inr (still [] world rfl rfl (by simp)))
  | @finish id o world => exact .inr (.inr (still [.returned id o] world rfl rfl (by simp [Entry.isClerical])))
  | @cancel id _ _ _ world => exact .inr (.inr (still [.cancelled id] world rfl rfl (by simp [Entry.isClerical])))

/-- A node is made once and stays what it is. -/
theorem Change.component? {env : Environment} {m m' : Machine} {a : Move} (change : Change env m m' a)
    {x : NodeId} {c : Component} (kind : m.world.component? x = some c) :
    m'.world.component? x = some c := by
  obtain ⟨d, -, -, world⟩ | ⟨id, path, t, t', -, act, -⟩ | ⟨nodes, -⟩ := change.world_cases
  · rw [world, World.component?_acquireAll]
    exact World.component?_add_of_some kind
  · rw [act.component?, kind]
  · rw [World.component?, nodes]
    exact kind

theorem Change.journal {env : Environment} {m m' : Machine} {a : Move} (change : Change env m m' a) :
    m.world.journal <:+ m'.world.journal := by
  obtain ⟨c, -, -, world⟩ | ⟨id, path, t, t', -, act, -⟩ | ⟨-, new, journal, -⟩ := change.world_cases
  · obtain ⟨new, journal, -⟩ := (m.world.add c).journal_acquireAll (c.holds m.world.nodes.length)
    exact ⟨new, by rw [world, journal]; rfl⟩
  · exact act.journal
  · exact ⟨new, journal.symm⟩

theorem acyclic_add {w : World} {c : Component} (acyclic : w.Acyclic)
    (known : ∀ r ∈ c.holds w.nodes.length, r.2 < w.nodes.length) : (w.add c).Acyclic := by
  intro x d kind r held
  rw [World.component?_add] at kind
  split at kind
  · rename_i new
    cases kind
    subst new
    exact known r held
  · exact acyclic x d kind r held

theorem Change.acyclic {env : Environment} {m m' : Machine} {a : Move} (change : Change env m m' a)
    (acyclic : m.world.Acyclic) : m'.world.Acyclic := by
  intro x c kind
  obtain ⟨d, -, known, world⟩ | ⟨id, path, t, t', -, act, -⟩ | ⟨nodes, -⟩ := change.world_cases
  · rw [world, World.component?_acquireAll] at kind
    exact acyclic_add acyclic known x c kind
  · rw [act.component?] at kind
    exact acyclic x c kind
  · rw [World.component?, nodes] at kind
    exact acyclic x c kind

theorem Change.sound {env : Environment} {m m' : Machine} {a : Move} (valid : m.Valid)
    (change : Change env m m' a) : ∀ t ∈ m'.tasks, t.Sound m'.world := by
  have mono : ∀ t : Activity, t.Sound m.world → t.Sound m'.world :=
    fun t => Activity.Sound.mono fun x c kind => change.component? kind
  intro t mem
  cases change with
  | build _ _ tasks | arrange _ tasks | openGate _ tasks | finish _ tasks =>
    exact mono t (valid.sound t (tasks ▸ mem))
  | call known _ tasks =>
    rw [tasks] at mem
    obtain mem | mem := List.mem_append.mp mem
    · exact mono t (valid.sound t mem)
    · exact mono t (Request.activity_sound known t mem)
  | act act _ _ old new =>
    rw [new] at mem
    simp only [List.mem_append] at mem
    obtain mem | mem | mem := mem
    · exact mono t (valid.sound t (by simp [old, mem]))
    · exact act.sound valid.acyclic (valid.sound _ (by simp [old])) t mem
    · exact mono t (valid.sound t (by simp [old, mem]))
  | cancel _ old new =>
    rw [new] at mem
    refine mono t (valid.sound t ?_)
    rw [old]
    obtain mem | mem := List.mem_append.mp mem <;> simp [mem]

theorem Valid.step {env : Environment} {m m' : Machine} {a : Move} (valid : m.Valid)
    (h : m.step? env a = some m') : m'.Valid := by
  have acyclic := (valid.change h).acyclic valid.acyclic
  have sound := (valid.change h).sound valid
  -- Moves that drop calls keep what holds of each.
  have fewer : ∀ id, m'.calls = m.without id → m'.next = m.next → m'.Valid := by
    intro id calls next
    have sub : m'.calls.Sublist m.calls := calls ▸ List.filter_sublist
    exact ⟨valid.distinct.sublist (sub.map _), fun c mem => next ▸ valid.fresh c (sub.subset mem),
      acyclic, sound, fun c mem => valid.staged c (sub.subset mem)⟩
  cases a with
  | build c =>
    obtain ⟨w, -, rfl⟩ := Option.map_eq_some_iff.mp h
    exact ⟨valid.distinct, valid.fresh, acyclic, sound, valid.staged⟩
  | call r =>
    simp only [step?, Option.ite_none_right_eq_some, Option.some.injEq] at h
    obtain ⟨-, rfl⟩ := h
    refine ⟨?_, ?_, acyclic, sound, ?_⟩
    · rw [List.map_append]
      refine List.nodup_append.mpr ⟨valid.distinct, List.nodup_cons.mpr ⟨by simp, List.nodup_nil⟩, ?_⟩
      intro id old id' new same
      obtain ⟨c, mem, rfl⟩ := List.mem_map.mp old
      cases List.mem_singleton.mp new
      exact Nat.lt_irrefl _ (same ▸ valid.fresh c mem)
    · intro c mem
      rcases List.mem_append.mp mem with mem | mem
      · exact Nat.lt_succ_of_lt (valid.fresh c mem)
      · cases List.mem_singleton.mp mem
        exact Nat.lt_succ_self _
    · intro c mem
      rcases List.mem_append.mp mem with mem | mem
      · exact valid.staged c mem
      · cases List.mem_singleton.mp mem
        exact r.activity_staged
  | run id path =>
    obtain ⟨a, a', before, after, -, step, split, split', -, next⟩ := valid.run h
    have ids : m'.calls.map (·.1) = m.calls.map (·.1) := by simp [split, split']
    refine ⟨ids ▸ valid.distinct, ?_, acyclic, sound, ?_⟩
    · intro c mem
      obtain ⟨c', mem', same⟩ := List.mem_map.mp (ids ▸ List.mem_map_of_mem mem : c.1 ∈ m.calls.map (·.1))
      rw [next, ← same]
      exact valid.fresh c' mem'
    · intro c mem
      rw [split'] at mem
      have staged : ∀ c ∈ before ++ (id, a) :: after, c.2.Staged := split ▸ valid.staged
      simp only [List.mem_append, List.mem_cons] at mem
      rcases mem with mem | rfl | mem
      · exact staged c (by simp [mem])
      · have mine : (id, a) ∈ m.calls := by simp [split]
        have sound := valid.sound_call mine
        exact (Activity.step?_step step).staged (fun t mem => (sound t mem).known) (staged (id, a) (by simp))
      · exact staged c (by simp [mem])
  | openGate gate =>
    cases h
    exact ⟨valid.distinct, valid.fresh, acyclic, sound, valid.staged⟩
  | finish id =>
    simp only [step?, Option.bind_eq_bind, Option.bind_eq_some_iff, Option.pure_def, Option.some.injEq] at h
    obtain ⟨o, -, rfl⟩ := h
    exact fewer id rfl rfl
  | cancel id =>
    simp only [step?, Option.bind_eq_bind, Option.bind_eq_some_iff, Option.pure_def,
      Option.ite_none_right_eq_some, Option.some.injEq] at h
    obtain ⟨a, -, -, rfl⟩ := h
    exact fewer id rfl rfl

theorem valid_empty : Valid {} where
  distinct := List.nodup_nil
  fresh := by simp
  acyclic := by
    intro x c kind
    cases kind
  sound := by simp [tasks]
  staged := by simp

theorem Run.valid {env : Environment} {m m' : Machine} {moves : List Move} (run : Run env m moves m')
    (valid : m.Valid) : m'.Valid := by
  induction run with
  | start => exact valid
  | next _ step ih => exact ih.step step

theorem Run.component? {env : Environment} {m m' : Machine} {moves : List Move} (run : Run env m moves m')
    (valid : m.Valid) {x : NodeId} {c : Component} (kind : m.world.component? x = some c) :
    m'.world.component? x = some c := by
  induction run with
  | start => exact kind
  | next run step ih => exact ((run.valid valid).change step).component? ih

theorem Run.journal {env : Environment} {m m' : Machine} {moves : List Move} (run : Run env m moves m')
    (valid : m.Valid) : m.world.journal <:+ m'.world.journal := by
  induction run with
  | start => exact List.suffix_rfl
  | next run step ih => exact ih.trans ((run.valid valid).change step).journal

/-- What holds of every call when it begins, and still does after each of its steps, holds of every call. -/
theorem Run.each_call {env : Environment} {moves : List Move} {m m' : Machine} {P : Activity → Prop}
    (run : Run env m moves m') (valid : m.Valid)
    (start : ∀ id a, m.activity? id = some a → P a) (begins : ∀ r : Request, P r.activity)
    (steps : ∀ {id w w' a a' path}, Activity.Step w (env id) a path w' a' → (∀ t ∈ a.tasks, t.Sound w) → P a → P a') :
    ∀ id a, m'.activity? id = some a → P a := by
  induction run with
  | start => exact start
  | next run step ih =>
    intro id a found
    have valid := run.valid valid
    cases valid.callChange step id with
    | stays _ same => exact ih id a (same ▸ found)
    | begins _ _ new =>
      rw [new] at found
      cases found
      exact begins _
    | steps old new moved =>
      rw [new] at found
      cases found
      exact steps moved (valid.sound_call (mem_calls old)) (ih id _ old)
    | returns _ new | dropped _ _ new =>
      rw [new] at found
      cases found

/-- What holds of every task that a call begins with, and of every task that such a task turns into, holds of every
task at work. -/
theorem Run.each_task {env : Environment} {moves : List Move} {m m' : Machine} {P : Activity → Prop}
    (run : Run env m moves m') (valid : m.Valid) (start : ∀ t ∈ m.tasks, P t)
    (asked : ∀ r, .call r ∈ moves → ∀ t ∈ r.activity.tasks, P t)
    (acts : ∀ {id path w w' t t'}, Activity.Act ((env id).behaviour path) w t w' t' → P t → ∀ s ∈ t'.tasks, P s) :
    ∀ t ∈ m'.tasks, P t := by
  induction run with
  | start => exact start
  | next run step ih =>
    have before := ih fun r mem => asked r (List.mem_append_left _ mem)
    intro t mem
    cases (run.valid valid).change step with
    | build _ _ tasks | arrange _ tasks | openGate _ tasks | finish _ tasks => exact before t (tasks ▸ mem)
    | @call r _ _ tasks =>
      rw [tasks] at mem
      exact (List.mem_append.mp mem).elim (before t) (asked r (by simp) t)
    | @act id path u u' l r act _ _ old new =>
      rw [new] at mem
      simp only [List.mem_append] at mem
      obtain mem | mem | mem := mem
      · exact before t (by simp [old, mem])
      · exact acts act (before u (by simp [old])) t mem
      · exact before t (by simp [old, mem])
    | cancel _ old new =>
      rw [new] at mem
      refine before t ?_
      rw [old]
      obtain mem | mem := List.mem_append.mp mem <;> simp [mem]

end Machine
end MetricPipeline
