import MetricPipeline.Proofs.Bindings
import MetricPipeline.Proofs.Guard

/-!
# What a router tells of its routes

A router may be made of any list of pairs, with keys that are repeated and in any order. The names it lists are those
it has a route for, and the route is that of the last pair under the name (`Valid.hands`). Lists that differ only in
how pairs with different keys stand to each other make the same router (`Run.introspected`).
-/

namespace MetricPipeline

namespace Table

variable {α : Type} (t : Table α)

theorem size_eq : t.size = t.keys.length := (List.length_map _).symm

theorem isEmpty_iff : t.isEmpty = true ↔ t.keys = [] := List.isEmpty_iff.trans List.map_eq_nil_iff.symm

end Table

namespace Machine

variable {env : Environment} {m : Machine} {pairs : List (String × NodeId)}

/-- A router can be made of any pairs that lead to nodes. -/
theorem step?_build_router (env : Environment) (config : Config) (known : ∀ p ∈ pairs, p.2 < m.world.nodes.length) :
    ∃ m', m.step? env (.build (.router (.ofList pairs) config)) = some m' ∧
      m'.world = (m.world.add (.router (.ofList pairs) config)).acquireAll
        ((Component.router (.ofList pairs) config).holds m.world.nodes.length) ∧
      m'.world.component? m.world.nodes.length = some (.router (.ofList pairs) config) := by
  have made : ∀ r ∈ (Component.router (.ofList pairs) config).holds m.world.nodes.length,
      r.2 < m.world.nodes.length := by
    intro r held
    obtain ⟨⟨key, y⟩, kept, rfl⟩ := List.mem_map.mp held
    have last := (Table.mem_entries_iff _ key y).mp kept
    rw [Table.get?_ofList] at last
    exact known _ (mem_of_lastUnder last)
  have step := congrArg (Option.map fun w => { m with world := w }) (World.build?_eq_some.mpr ⟨made, rfl⟩)
  refine ⟨_, step, rfl, ?_⟩
  dsimp only
  rw [World.component?_acquireAll, World.component?_add, if_pos rfl]

/-- A report that has come to a router goes on to the node of the last pair under its name, or fails there. -/
theorem Valid.hands (valid : m.Valid) (env : Environment) {x : NodeId} {config : Config} {id : CallId} {path : Path}
    {r : Report} (kind : m.world.component? x = some (.router (.ofList pairs) config))
    (here : m.task? id path = some (.report x r)) :
    ∃ m', m.step? env (.run id path) = some m' ∧
      m'.task? id path = match lastUnder r.name pairs with
        | some y => some (.report y r)
        | none => some (.ended (.failed (.single (.unknownMetric r.name)))) := by
  obtain ⟨m', step, -, there⟩ : ∃ m', m.step? env (.run id path) = some m' ∧ _ := valid.step?_of_task? here rfl
  refine ⟨m', step, there.trans ?_⟩
  simp only [World.component?_note, kind, Table.get?_ofList]
  cases lastUnder r.name pairs <;> rfl

/-- Of whatever pairs a router is made, the names it lists increase in the order of their bytes and are the keys of
the pairs, and it counts them. Ever after, a report that comes to it fails there if and only if its name is not
listed, and goes on to the node of the last pair under its name if it is. Pairs with different keys may stand in any
order: the machine is the same. -/
theorem Run.introspected {moves : List Move} (run : Run env {} moves m) (config : Config)
    (known : ∀ p ∈ pairs, p.2 < m.world.nodes.length) :
    ∃ m', m.step? env (.build (.router (.ofList pairs) config)) = some m' ∧
      (Table.ofList pairs).keys.Pairwise (fun a b => utf8 a < utf8 b) ∧
      (∀ name, name ∈ (Table.ofList pairs).keys ↔ name ∈ pairs.map (·.1)) ∧
      (Table.ofList pairs).size = (Table.ofList pairs).keys.length ∧
      ((Table.ofList pairs).isEmpty = true ↔ (Table.ofList pairs).keys = []) ∧
      (∀ more m'', Run env m' more m'' → ∀ id path r, m''.task? id path = some (.report m.world.nodes.length r) →
        ∃ next, m''.step? env (.run id path) = some next ∧
          (next.task? id path = some (.ended (.failed (.single (.unknownMetric r.name)))) ↔
            r.name ∉ (Table.ofList pairs).keys) ∧
          (r.name ∈ (Table.ofList pairs).keys →
            ∃ y, lastUnder r.name pairs = some y ∧ next.task? id path = some (.report y r))) ∧
      ∀ pairs', SameUnderEachKey pairs pairs' →
        Table.ofList pairs' = Table.ofList pairs ∧ (∀ name, lastUnder name pairs' = lastUnder name pairs) ∧
          m.step? env (.build (.router (.ofList pairs') config)) = some m' := by
  obtain ⟨m', step, -, kind⟩ := step?_build_router env config known
  have valid := (run.valid valid_empty).step step
  refine ⟨m', step, Table.keys_increasing _, Table.mem_keys_ofList pairs, Table.size_eq _, Table.isEmpty_iff _, ?_, ?_⟩
  · intro more m'' further id path r here
    obtain ⟨next, step, there⟩ := (further.valid valid).hands env (further.component? valid kind) here
    have listed : r.name ∈ (Table.ofList pairs).keys ↔ (lastUnder r.name pairs).isSome := by
      rw [Table.mem_keys_iff, Table.get?_ofList]
    refine ⟨next, step, ?_, ?_⟩
    all_goals
      rw [there, listed]
      cases lastUnder r.name pairs <;> simp
  · intro pairs' same
    have tables := Table.ofList_congr same
    refine ⟨tables.symm, fun name => ?_, tables ▸ step⟩
    rw [← Table.get?_ofList, ← Table.get?_ofList, tables]

/-- The first key comes last: its bytes are the greatest, though not in every encoding. -/
def repeatedKey : List (String × NodeId) := [("𝄞", 0), ("ｚ", 1), ("𝄞", 1)]

theorem introspected_repeated_key :
    ∃ m m', Run (.uniform fun _ => {}) {} [.build .leaf, .build .leaf] m ∧
      m.step? (.uniform fun _ => {}) (.build (.router (.ofList repeatedKey) {})) = some m' ∧
      (Table.ofList repeatedKey).keys = ["ｚ", "𝄞"] ∧ utf8 "ｚ" < utf8 "𝄞" ∧ (Table.ofList repeatedKey).size = 2 ∧
      m.step? (.uniform fun _ => {}) (.build (.router (.ofList [("𝄞", 0), ("𝄞", 1), ("ｚ", 1)]) {})) = some m' := by
  obtain ⟨m, run, nodes⟩ : ∃ m, Run (.uniform fun _ => {}) {} [.build .leaf, .build .leaf] m ∧ m.world.nodes.length = 2 :=
    ⟨_, .of_foldlM rfl, rfl⟩
  have known : ∀ p ∈ repeatedKey, p.2 < m.world.nodes.length := by
    rw [nodes]
    decide
  obtain ⟨m', step, increasing, -, size, -, -, reordered⟩ := Run.introspected run {} known
  have keys : (Table.ofList repeatedKey).keys = ["ｚ", "𝄞"] := by decide
  rw [keys] at increasing size
  have swapped := SameUnderEachKey.swap (p := ("ｚ", 1)) (q := ("𝄞", 1)) (by decide) [("𝄞", 0)] []
  exact ⟨m, m', run, step, keys, by simpa using increasing, size, (reordered _ swapped).2.2⟩

end Machine

end MetricPipeline
