import MetricPipeline.Proofs.Introspection
import MetricPipeline.Proofs.Teardown

/-!
# What a node takes and gives back

A node takes its references when it is made and at no other time (`Run.taken_by`), has given back none before it is
torn down (`Run.given_by_intact`), and has given back each once when the release that tore it down has ended
(`Teardown.given_by`). For a router these are the last pairs under each key: `Run.gives_back` puts this together for
any pairs that it is made of.
-/

namespace MetricPipeline

/-- The reference is of one node to another. -/
def ofTo (x y : NodeId) (r : Reference) : Bool := r.1.owner? == some x && r.2 == y

theorem ofTo_owner {x y : NodeId} {r : Reference} (mine : ofTo x y r = true) : r.1.owner? = some x :=
  eq_of_beq (Bool.and_eq_true_iff.mp mine).1

theorem ofTo_outside (x y z : NodeId) : ofTo x y (.outside, z) = false := rfl

/-- What is there equally often is counted equally often. -/
theorem countP_eq_of_count {rs rs' : List Reference} {p : Reference → Bool}
    (same : ∀ r, p r = true → rs.count r = rs'.count r) : rs.countP p = rs'.countP p := by
  rw [List.countP_eq_length_filter, List.countP_eq_length_filter]
  apply List.Perm.length_eq
  apply List.perm_iff_count.mpr
  intro r
  by_cases mine : p r = true
  · rw [List.count_filter mine, List.count_filter mine, same r mine]
  · have absent : ∀ rs : List Reference, (rs.filter p).count r = 0 :=
      fun rs => List.count_eq_zero.mpr fun mem => mine (List.mem_filter.mp mem).2
    rw [absent, absent]

namespace Component

theorem countP_holds (c : Component) (x y : NodeId) :
    (c.holds x).countP (ofTo x y) = (c.holds x).countP (·.2 == y) := by
  apply List.countP_congr
  intro r held
  simp [ofTo, holds_owner held]

theorem countP_holds_router (routes : Table NodeId) (config : Config) (x y : NodeId) :
    ((router routes config).holds x).countP (·.2 == y) = routes.entries.countP (·.2 == y) := by
  rw [holds, List.countP_map]
  rfl

end Component

/-- The keys under which the last pair leads to the node. -/
def keysTo (y : NodeId) (pairs : List (String × NodeId)) : List String :=
  (pairs.map (·.1)).dedup.filter fun key => lastUnder key pairs = some y

theorem Table.countP_ofList (pairs : List (String × NodeId)) (y : NodeId) :
    (ofList pairs).entries.countP (·.2 == y) = (keysTo y pairs).length := by
  rw [countP_entries, (keys_ofList pairs).countP_eq, keysTo, ← List.countP_eq_length_filter]
  apply List.countP_congr
  intro key _
  simp [get?_ofList]

namespace World

theorem count_held {w : World} {x : NodeId} {c : Component} {r : Reference} (kind : w.component? x = some c)
    (owner : r.1.owner? = some x) : w.held.count r = (c.holds x).count r := by
  have mine : w.holds x = c.holds x := by rw [holds, kind]; rfl
  have same : r ∈ w.held ↔ r ∈ c.holds x := by
    rw [← mine]
    refine ⟨fun held => ?_, mem_held⟩
    obtain ⟨z, -, there⟩ := List.mem_flatMap.mp held
    have owner' := holds_owner there
    rw [owner] at owner'
    cases owner'
    exact there
  by_cases held : r ∈ w.held
  · rw [List.count_eq_one_of_mem w.held_nodup held, List.count_eq_one_of_mem (c.holds_nodup x) (same.mp held)]
  · rw [List.count_eq_zero.mpr held, List.count_eq_zero.mpr fun mem => held (same.mpr mem)]

end World

namespace Machine

variable {env : Environment} {moves : List Move} {m : Machine} {x y : NodeId} {c : Component}

theorem Run.count_acquired (run : Run env {} moves m) (kind : m.world.component? x = some c) {r : Reference}
    (owner : r.1.owner? = some x) : m.world.count (.acquired r.1 r.2) = (c.holds x).count r := by
  have within : ∀ z, ((.outside, z) == r) = false := by
    intro z
    refine beq_eq_false_iff_ne.mpr fun same => ?_
    rw [← same] at owner
    cases owner
  rw [World.count_acquired, ← World.count_held kind owner]
  exact (run.inside within).1

/-- A node takes its references when it is made, and no others. -/
theorem Run.taken_by (run : Run env {} moves m) (kind : m.world.component? x = some c) (y : NodeId) :
    m.world.taken.countP (ofTo x y) = (c.holds x).countP (·.2 == y) := by
  rw [(run.inside (ofTo_outside x y)).1, ← c.countP_holds]
  exact countP_eq_of_count fun r mine => World.count_held kind (ofTo_owner mine)

theorem Run.given_by_le (run : Run env {} moves m) (x y : NodeId) :
    m.world.given.countP (ofTo x y) ≤ m.world.taken.countP (ofTo x y) := by
  obtain ⟨taken, given⟩ := run.inside (ofTo_outside x y)
  rw [taken]
  exact Nat.le_trans given m.world.relinquished_sublist.countP_le

/-- A node that is not torn down has given nothing back. -/
theorem Run.given_by_intact (run : Run env {} moves m) (intact : (m.world.usage x).tornDown = false) (y : NodeId) :
    m.world.given.countP (ofTo x y) = 0 := by
  have given := (run.inside (ofTo_outside x y)).2
  have nothing : m.world.relinquished.countP (ofTo x y) = 0 := by
    refine List.countP_eq_zero.mpr fun r relinquished mine => ?_
    obtain ⟨z, -, held⟩ := List.mem_flatMap.mp (m.world.relinquished_sublist.subset relinquished)
    have owner := World.holds_owner held
    rw [ofTo_owner mine] at owner
    cases owner
    have torn := World.mem_relinquished held relinquished
    rw [intact] at torn
    cases torn
  omega

end Machine

/-- When the release that tore a node down has ended, the node has given back all that it took. -/
theorem Teardown.given_by {env : Environment} {x : NodeId} (t : Teardown env x) {c : Component} {o : Outcome}
    (kind : t.final.world.component? x = some c) (all : c.returns x = c.holds x) (ended : t.EndedWith o) (y : NodeId) :
    t.final.world.given.countP (ofTo x y) = t.final.world.taken.countP (ofTo x y) := by
  apply countP_eq_of_count
  intro r mine
  have owner := ofTo_owner mine
  rw [← World.count_released, ← World.count_acquired, t.count_returned kind ended owner, all,
    t.run.count_acquired kind owner]
  split
  · exact (List.count_eq_one_of_mem (c.holds_nodup x) ‹_›).symm
  · exact (List.count_eq_zero.mpr ‹_›).symm

namespace Machine

section

variable {env : Environment} {moves : List Move} {m m' : Machine} {x y : NodeId}

/-- Making a node adds to the count of another as many references as it takes. -/
theorem Run.refs_built (run : Run env {} moves m) {c d : Component}
    (step : m.step? env (.build c) = some m') (kind : m.world.component? y = some d) (counted : d.isCounted = true) :
    (m'.world.usage y).refs = (m.world.usage y).refs + (c.holds m.world.nodes.length).countP (·.2 == y) := by
  have change := (run.valid valid_empty).change step
  have before := (run.account kind counted).1.refs
  have after := ((run.next step).account (change.component? kind) counted).1.refs
  cases change with
  | build _ world =>
    obtain ⟨entries, journal, acquisitions⟩ := (m.world.add c).journal_acquireAll (c.holds m.world.nodes.length)
    have drops : m'.world.times (Entry.drops y) = m.world.times (Entry.drops y) := by
      rw [world]
      refine World.times_of_acquisitions (w := m.world) journal acquisitions fun e acquisition => ?_
      cases e with
      | dropped => cases acquisition
      | _ => rfl
    have taken : m'.world.times (Entry.acquires y) =
        (c.holds m.world.nodes.length).countP (·.2 == y) + m.world.times (Entry.acquires y) := by
      rw [World.times_acquires, World.times_acquires, world, World.taken_acquireAll, List.countP_append,
        List.countP_reverse]
      rfl
    omega

variable {pairs : List (String × NodeId)} {config : Config}

theorem Run.taken_by_router (run : Run env {} moves m)
    (kind : m.world.component? x = some (.router (.ofList pairs) config)) (y : NodeId) :
    m.world.taken.countP (ofTo x y) = (keysTo y pairs).length := by
  rw [run.taken_by kind, Component.countP_holds_router, Table.countP_ofList]

theorem Run.taken_under (run : Run env {} moves m)
    (kind : m.world.component? x = some (.router (.ofList pairs) config)) (key : String) (y : NodeId) :
    m.world.count (.acquired (.route x key) y) = if lastUnder key pairs = some y then 1 else 0 := by
  have held : (.route x key, y) ∈ (Component.router (.ofList pairs) config).holds x ↔ lastUnder key pairs = some y := by
    rw [Component.mem_holds_router, Table.get?_ofList]
  rw [run.count_acquired kind (r := (.route x key, y)) rfl]
  split
  · exact List.count_eq_one_of_mem (Component.holds_nodup ..) (held.mpr ‹_›)
  · exact List.count_eq_zero.mpr fun mem => ‹¬_› (held.mp mem)

theorem keysTo_eq_nil (never : ∀ key, lastUnder key pairs ≠ some y) : keysTo y pairs = [] := by
  refine List.filter_eq_nil_iff.mpr fun key _ => ?_
  simpa using never key

/-- Of whatever pairs a router is made, it acquires a node once under each key whose last pair leads there. Ever
after it acquires nothing more, and releases no node more often than it acquired it: not at all as long as it is not
torn down, and just as often once the release that tore it down has ended, however that and the releases below it
ended. A node to which no last pair leads it neither acquires nor releases, nor does it send a report there. -/
theorem Run.gives_back (run : Run env {} moves m) (known : ∀ p ∈ pairs, p.2 < m.world.nodes.length)
    (admissible : config.isAdmissible = true) (new : x = m.world.nodes.length) :
    ∃ m', m.step? env (.build (.router (.ofList pairs) config)) = some m' ∧
      (∀ key y, m'.world.count (.acquired (.route x key) y) = if lastUnder key pairs = some y then 1 else 0) ∧
      (∀ y, m'.world.taken.countP (ofTo x y) = (keysTo y pairs).length) ∧
      (∀ y d, m.world.component? y = some d → d.isCounted = true →
        (m'.world.usage y).refs = (m.world.usage y).refs + (keysTo y pairs).length) ∧
      ∀ more m'', Run env m' more m'' →
        (∀ y, m''.world.taken.countP (ofTo x y) = (keysTo y pairs).length ∧
          m''.world.given.countP (ofTo x y) ≤ (keysTo y pairs).length) ∧
        ((m''.world.usage x).tornDown = false → ∀ y, m''.world.given.countP (ofTo x y) = 0) ∧
        ((m''.world.usage x).tornDown = true → ∃ t : Teardown env x,
          t.moves = moves ++ .build (.router (.ofList pairs) config) :: more ∧ t.final = m'' ∧
          ((∃ b, m''.At t.call t.place b) ∨ .cancel t.call ∈ t.later ∨ ∃ o, t.EndedWith o) ∧
          ∀ o, t.EndedWith o → ∀ y, m''.world.given.countP (ofTo x y) = (keysTo y pairs).length) ∧
        ∀ y, (∀ key, lastUnder key pairs ≠ some y) →
          m''.world.taken.countP (ofTo x y) = 0 ∧ m''.world.given.countP (ofTo x y) = 0 ∧
          ∀ id path r next, m''.task? id path = some (.report x r) → m''.step? env (.run id path) = some next →
            ∀ r', next.task? id path ≠ some (.report y r') := by
  subst new
  obtain ⟨m', step, -, kind⟩ := step?_build_router env config known
  have now := run.next step
  refine ⟨m', step, now.taken_under kind, now.taken_by_router kind, ?_, ?_⟩
  · intro y d there counted
    rw [run.refs_built step there counted, Component.countP_holds_router, Table.countP_ofList]
  intro more m'' further
  have upTo := now.append further
  have kind := further.component? (now.valid valid_empty) kind
  have taken := upTo.taken_by_router kind
  have given : ∀ y, m''.world.given.countP (ofTo m.world.nodes.length y) ≤ (keysTo y pairs).length := by
    intro y
    rw [← taken]
    exact upTo.given_by_le ..
  refine ⟨fun y => ⟨taken y, given y⟩, fun intact => upTo.given_by_intact intact, fun torn => ?_, fun y never => ?_⟩
  · obtain ⟨t, same, rfl⟩ := upTo.teardown torn
    refine ⟨t, by simpa using same, rfl, t.fate kind, fun o ended y => ?_⟩
    rw [t.given_by kind (if_pos admissible) ended, taken]
  · have none := given y
    have nothing := taken y
    rw [keysTo_eq_nil never] at none nothing
    refine ⟨nothing, Nat.le_zero.mp none, fun id path r next here step r' sent => ?_⟩
    obtain ⟨next', step', there⟩ := (upTo.valid valid_empty).hands env kind here
    rw [step] at step'
    cases step'
    rw [sent] at there
    cases last : lastUnder r.name pairs with
    | none =>
      rw [last] at there
      cases there
    | some z =>
      rw [last] at there
      cases there
      exact never r.name last

end

/-- One node has both keys, and the other has lost its own. -/
def overridden : List (String × NodeId) := [("a", 1), ("b", 0), ("a", 0)]

/-- The router is torn down, one release at a time, and the second of them panics. -/
def givenBack : List Move :=
  [.call (.acquire 2), .run 0 [], .run 0 [], .finish 0, .call (.release 2), .run 1 [], .run 1 []] ++
    .replicate 3 (.run 1 [0]) ++ .replicate 5 (.run 1 [1]) ++ [.run 1 [], .finish 1]

theorem gives_back_overridden :
    ∃ m m' m'', Run faulty {} [.build .leaf, .build .leaf] m ∧
      m.step? faulty (.build (.router (.ofList overridden) ⟨1⟩)) = some m' ∧ Run faulty m' givenBack m'' ∧
      m'.world.taken.countP (ofTo 2 0) = 2 ∧ m'.world.taken.countP (ofTo 2 1) = 0 ∧
      m''.world.given.countP (ofTo 2 0) = 2 ∧ m''.world.given.countP (ofTo 2 1) = 0 := by
  obtain ⟨m, m', m'', run, step, further, nodes, kind, torn, idle⟩ : ∃ m m' m'',
      Run faulty {} [.build .leaf, .build .leaf] m ∧
      m.step? faulty (.build (.router (.ofList overridden) ⟨1⟩)) = some m' ∧ Run faulty m' givenBack m'' ∧
      m.world.nodes.length = 2 ∧ m''.world.component? 2 = some (.router (.ofList overridden) ⟨1⟩) ∧
      (m''.world.usage 2).tornDown = true ∧ m''.calls = [] :=
    ⟨_, _, _, .of_foldlM rfl, rfl, .of_foldlM rfl, rfl, rfl, rfl, rfl⟩
  have known : ∀ p ∈ overridden, p.2 < m.world.nodes.length := by
    rw [nodes]
    decide
  have admissible : Config.isAdmissible ⟨1⟩ = true := by decide
  obtain ⟨after, built, -, taken, -, ever⟩ := Run.gives_back run known admissible nodes.symm
  rw [step] at built
  cases built
  obtain ⟨-, -, gives, -⟩ := ever _ _ further
  obtain ⟨t, same, rfl, -, given⟩ := gives torn
  obtain ⟨o, ended⟩ := t.ends kind idle (by simp [same, givenBack])
  have given := given o ended
  exact ⟨m, m', _, run, step, further, (taken 0).trans (by decide), (taken 1).trans (by decide),
    (given 0).trans (by decide), (given 1).trans (by decide)⟩

end Machine

end MetricPipeline
