import MetricPipeline.Proofs.Guard
import MetricPipeline.Proofs.References
import Mathlib.Data.List.Nodup

/-!
# Holders

Who holds a node, as long as outsiders are careful with it (`Careful`). Routers and wrappers are careful by
themselves: they take each of their references once, when they are made, and give it back at most once, when
they are torn down (`Run.inside`). So no release of the node comes too often (`Run.no_underflow`), its count is
the number of its holders (`Run.count_holders`), and it is torn down under none of them.
-/

namespace MetricPipeline

/-- The node that holds the reference. -/
def Holder.owner? : Holder → Option NodeId
  | outside => none
  | route x _ | wrapper x => some x

theorem Component.holds_owner {x : NodeId} {c : Component} {r : Reference} (held : r ∈ c.holds x) :
    r.1.owner? = some x := by
  cases c with
  | leaf | uncounted | sink => cases held
  | hooked below =>
    cases List.mem_singleton.mp held
    rfl
  | router routes config =>
    obtain ⟨e, -, rfl⟩ := List.mem_map.mp held
    rfl

theorem Component.holds_nodup (x : NodeId) (c : Component) : (c.holds x).Nodup := by
  cases c with
  | leaf | uncounted | sink => exact List.nodup_nil
  | hooked below => exact List.nodup_singleton _
  | router routes config =>
    -- Keys increase, so no two entries have the same.
    apply List.Pairwise.map _ _ routes.increasing
    intro a b less same
    have keys : a.1 = b.1 := (Holder.route.inj (Prod.mk.inj same).1).2
    exact String.lt_irrefl _ (keys ▸ less)

namespace World

theorem holds_owner {w : World} {x : NodeId} {r : Reference} (held : r ∈ w.holds x) : r.1.owner? = some x := by
  unfold holds at held
  cases kind : w.component? x with
  | none =>
    rw [kind] at held
    cases held
  | some c =>
    rw [kind] at held
    exact Component.holds_owner held

theorem held_nodup (w : World) : w.held.Nodup := by
  apply List.nodup_flatMap.mpr
  constructor
  · intro x _
    unfold holds
    cases w.component? x with
    | none => exact List.nodup_nil
    | some c => exact c.holds_nodup x
  · apply List.Pairwise.imp _ List.nodup_range
    intro x y other r first second
    have same := (holds_owner first).symm.trans (holds_owner second)
    exact other (Option.some.inj same)

theorem mem_held {w : World} {x : NodeId} {r : Reference} (held : r ∈ w.holds x) : r ∈ w.held := by
  refine List.mem_flatMap.mpr ⟨x, List.mem_range.mpr ?_, held⟩
  apply (w.component?_isSome x).mp
  unfold holds at held
  cases kind : w.component? x with
  | none =>
    rw [kind] at held
    cases held
  | some c => rfl

theorem held_inside {w : World} {r : Reference} (held : r ∈ w.held) : r.1 ≠ .outside := by
  obtain ⟨x, -, mine⟩ := List.mem_flatMap.mp held
  intro outside
  have owner := holds_owner mine
  rw [outside] at owner
  cases owner

/-- What has been relinquished was relinquished by the node that held it. -/
theorem mem_relinquished {w : World} {x : NodeId} {r : Reference} (held : r ∈ w.holds x)
    (relinquished : r ∈ w.relinquished) : (w.usage x).tornDown = true := by
  obtain ⟨y, -, returned⟩ := List.mem_flatMap.mp relinquished
  have owner := holds_owner ((w.ifTornDown_sublist y).subset returned)
  rw [holds_owner held] at owner
  cases owner
  unfold ifTornDown at returned
  split at returned
  · assumption
  · cases returned

theorem count_released (w : World) (h : Holder) (x : NodeId) : w.count (.released h x) = w.given.count (h, x) := by
  apply w.countP_journal
  intro e
  cases e <;> simp [Entry.given, List.countP_singleton]

theorem mem_given_iff (w : World) (r : Reference) : r ∈ w.given ↔ .released r.1 r.2 ∈ w.journal := by
  rw [← List.count_pos_iff, ← List.count_pos_iff, ← count_released]
  rfl

theorem count_acquired (w : World) (h : Holder) (x : NodeId) : w.count (.acquired h x) = w.taken.count (h, x) := by
  apply w.countP_journal
  intro e
  cases e <;> simp [Entry.taken, List.countP_singleton]

end World

/-- The newest entry first: outsiders release a node only as often as they acquired it before, and nobody
acquires it once one of its releases has brought the count to zero. -/
def Careful (x : NodeId) : List Entry → Prop
  | [] => True
  | e :: earlier => Careful x earlier ∧
      (e = .released .outside x → earlier.count (.released .outside x) < earlier.count (.acquired .outside x)) ∧
      (e.acquires x = true → .dropped x 0 ∉ earlier)

instance (x : NodeId) (entries : List Entry) : Decidable (Careful x entries) := by
  induction entries with
  | nil => exact isTrue trivial
  | cons e earlier ih => exact instDecidableAnd

namespace Careful

variable {x : NodeId}

theorem suffix {entries later : List Entry} (careful : Careful x (later ++ entries)) : Careful x entries := by
  induction later with
  | nil => exact careful
  | cons e rest ih => exact ih careful.1

theorem outside {entries : List Entry} (careful : Careful x entries) :
    entries.count (.released .outside x) ≤ entries.count (.acquired .outside x) := by
  induction entries with
  | nil => exact Nat.le_refl _
  | cons e earlier ih =>
    obtain ⟨before, releases, -⟩ := careful
    have le := ih before
    rw [List.count_cons, List.count_cons]
    by_cases released : e = .released .outside x
    · have less := releases released
      subst released
      simp
      omega
    · have not_released : (e == .released .outside x) = false := beq_eq_false_iff_ne.mpr released
      simp [not_released]
      omega

/-- Once its last reference was dropped, the node is not acquired any more. -/
theorem no_acquisition {earlier later : List Entry} (careful : Careful x (later ++ earlier))
    (emptied : .dropped x 0 ∈ earlier) : later.countP (Entry.acquires x) = 0 := by
  induction later with
  | nil => rfl
  | cons e rest ih =>
    obtain ⟨before, -, acquires⟩ := careful
    have none : e.acquires x ≠ true := fun acquired => acquires acquired (List.mem_append_right _ emptied)
    rw [List.countP_cons, ih before, if_neg none]

end Careful

/-- The references to a node that are held inside the graph. -/
def inner (x : NodeId) (r : Reference) : Bool := r.2 == x && r.1 != .outside

theorem countP_inner (x : NodeId) (rs : List Reference) :
    rs.countP (·.2 == x) = rs.count (.outside, x) + rs.countP (inner x) := by
  induction rs with
  | nil => rfl
  | cons r rest ih =>
    obtain ⟨h, y⟩ := r
    rw [List.countP_cons, List.count_cons, List.countP_cons, ih]
    by_cases here : y = x
    · by_cases outer : h = .outside
      · simp [inner, here, outer]
        omega
      · simp [inner, here, outer]
        omega
    · simp [inner, here]

namespace Machine

variable {env : Environment} {moves : List Move} {m : Machine} {x : NodeId} {c : Component}

theorem asked_outside (moves : List Move) {p : Reference → Bool} (none : ∀ x, p (.outside, x) = false) :
    (moves.flatMap Move.releases).countP p = 0 ∧ (moves.flatMap Move.acquires).countP p = 0 := by
  constructor
  · apply List.countP_eq_zero.mpr
    intro r mem
    obtain ⟨a, -, asked⟩ := List.mem_flatMap.mp mem
    cases a with
    | call request =>
      cases request with
      | release y =>
        cases List.mem_singleton.mp asked
        simp [none]
      | releaseAll ys config =>
        simp only [Move.releases, Request.releases] at asked
        split at asked
        · obtain ⟨y, -, rfl⟩ := List.mem_map.mp asked
          simp [none]
        · cases asked
      | acquire | report => cases asked
    | _ => cases asked
  · apply List.countP_eq_zero.mpr
    intro r mem
    obtain ⟨a, -, asked⟩ := List.mem_flatMap.mp mem
    cases a with
    | call request =>
      cases request with
      | acquire y =>
        cases List.mem_singleton.mp asked
        simp [none]
      | release | releaseAll | report => cases asked
    | _ => cases asked

/-- Inside the graph every reference is taken when its holder is made, and given back only when that is torn
down. -/
theorem Run.inside (run : Run env {} moves m) {p : Reference → Bool} (none : ∀ x, p (.outside, x) = false) :
    m.world.taken.countP p = m.world.held.countP p ∧
      m.world.given.countP p ≤ m.world.relinquished.countP p := by
  obtain ⟨releases, acquires⟩ := asked_outside moves none
  obtain ⟨lost, taken, kept⟩ := run.taken p
  obtain ⟨lost', given, -⟩ := run.given p
  have nothing_lost := kept (.inr none)
  have nothing_sought := (run.valid valid_empty).sought_outside none
  constructor <;> omega

/-- A reference inside the graph is given back no more often than its holder was torn down. -/
theorem Run.given_le_relinquished (run : Run env {} moves m) {r : Reference} (within : r.1 ≠ .outside) :
    m.world.given.count r ≤ m.world.relinquished.count r := by
  have none : ∀ y, ((.outside, y) == r) = false := fun y => beq_eq_false_iff_ne.mpr fun e => within (by rw [← e])
  exact (run.inside none).2

theorem Run.given_le_taken (run : Run env {} moves m) (careful : Careful x m.world.journal) :
    m.world.given.countP (·.2 == x) ≤ m.world.taken.countP (·.2 == x) := by
  obtain ⟨taken, given⟩ := run.inside (p := inner x) fun y => by simp [inner]
  have returned := m.world.relinquished_sublist.countP_le (p := inner x)
  have outside : m.world.count (.released .outside x) ≤ m.world.count (.acquired .outside x) := careful.outside
  rw [World.count_released, World.count_acquired] at outside
  rw [countP_inner, countP_inner]
  omega

theorem Run.no_underflow (run : Run env {} moves m) (kind : m.world.component? x = some c)
    (counted : c.isCounted = true) (careful : Careful x m.world.journal) :
    .underflowed x ∉ m.world.journal := by
  intro underflowed
  obtain ⟨earlier, later, before, first, rest, noted, empty, account⟩ :=
    Run.emptied .start run (World.not_uncounted kind counted) (.inl rfl) List.not_mem_nil underflowed
  obtain ⟨new, journal⟩ := rest.journal (first.valid valid_empty)
  have le := first.given_le_taken (Careful.suffix (journal ▸ careful))
  have some_underflow : 0 < before.world.count (.underflowed x) := List.count_pos_iff.mpr noted
  have refs := account.refs
  have released := account.released
  rw [World.times_acquires] at refs
  rw [World.times_releases] at released
  omega

/-- Once its last reference was dropped, the count of a node stays at zero. -/
theorem Run.stays_empty (run : Run env {} moves m) (kind : m.world.component? x = some c)
    (counted : c.isCounted = true) (careful : Careful x m.world.journal)
    (emptied : .dropped x 0 ∈ m.world.journal) : (m.world.usage x).refs = 0 := by
  have counted' := World.not_uncounted kind counted
  obtain ⟨earlier, later, before, first, rest, noted, empty, -⟩ :=
    Run.emptied .start run counted' (.inr rfl) List.not_mem_nil emptied
  obtain ⟨new, journal⟩ := rest.journal (first.valid valid_empty)
  have careful' : Careful x (new ++ before.world.journal) := journal ▸ careful
  have no_more : m.world.times (Entry.acquires x) = before.world.times (Entry.acquires x) := by
    unfold World.times
    rw [← journal, List.countP_append, careful'.no_acquisition noted, Nat.zero_add]
  exact first.stays_zero rest counted' empty (Nat.le_of_eq no_more)

/-- What was given back inside the graph, counted by what is held there. -/
theorem Run.countP_given (run : Run env {} moves m) (x : NodeId) :
    m.world.given.countP (inner x) =
      m.world.held.countP (fun r => inner x r && m.world.given.contains r) := by
  have le : ∀ r : Reference, r.1 ≠ .outside → m.world.given.count r ≤ m.world.held.count r :=
    fun r within => Nat.le_trans (run.given_le_relinquished within) (m.world.relinquished_sublist.count_le r)
  rw [List.countP_eq_length_filter, List.countP_eq_length_filter]
  apply List.Perm.length_eq
  apply (List.perm_ext_iff_of_nodup _ _).mpr
  · intro r
    simp only [List.mem_filter, Bool.and_eq_true, List.contains_iff_mem]
    constructor
    · rintro ⟨given, mine⟩
      have outer : r.1 ≠ .outside := by simpa using (Bool.and_eq_true_iff.mp mine).2
      have some_given : 0 < m.world.given.count r := List.count_pos_iff.mpr given
      have held : 0 < m.world.held.count r := Nat.lt_of_lt_of_le some_given (le r outer)
      exact ⟨List.count_pos_iff.mp held, mine, given⟩
    · rintro ⟨-, mine, given⟩
      exact ⟨given, mine⟩
  · apply List.nodup_iff_count_le_one.mpr
    intro r
    by_cases mine : inner x r = true
    · have outer : r.1 ≠ .outside := by simpa using (Bool.and_eq_true_iff.mp mine).2
      have once := List.nodup_iff_count_le_one.mp m.world.held_nodup r
      rw [List.count_filter mine]
      exact Nat.le_trans (le r outer) once
    · have absent : r ∉ m.world.given.filter (inner x) :=
        fun mem => mine (List.mem_filter.mp mem).2
      rw [List.count_eq_zero.mpr absent]
      exact Nat.zero_le _
  · exact m.world.held_nodup.filter _

/-- The references to a node that are held inside the graph are given back, or are not. -/
theorem Run.countP_held (run : Run env {} moves m) (x : NodeId) :
    m.world.held.countP (inner x) = m.world.given.countP (inner x) +
      m.world.held.countP (fun r => r.2 == x && !m.world.journal.contains (.released r.1 r.2)) := by
  have split := List.length_eq_countP_add_countP (fun r => m.world.given.contains r)
    (l := m.world.held.filter (inner x))
  rw [← List.countP_eq_length_filter, List.countP_filter, List.countP_filter] at split
  rw [split, run.countP_given]
  congr 1
  · apply List.countP_congr
    intro r _
    rw [Bool.and_comm]
  · apply List.countP_congr
    intro r held
    have noted := m.world.mem_given_iff r
    simp [inner, World.held_inside held, noted, and_comm]

theorem Run.count_holders (run : Run env {} moves m) (kind : m.world.component? x = some c)
    (counted : c.isCounted = true) (careful : Careful x m.world.journal) :
    (m.world.usage x).refs + m.world.count (.released .outside x) = m.world.count (.acquired .outside x) +
      m.world.held.countP (fun r => r.2 == x && !m.world.journal.contains (.released r.1 r.2)) := by
  have account := (run.account kind counted).1
  have refs := account.refs
  have released := account.released
  have no_underflow : m.world.count (.underflowed x) = 0 :=
    List.count_eq_zero.mpr (run.no_underflow kind counted careful)
  obtain ⟨taken, -⟩ := run.inside (p := inner x) fun y => by simp [inner]
  have held := run.countP_held x
  rw [World.times_acquires, countP_inner] at refs
  rw [World.times_releases, countP_inner] at released
  rw [World.count_released, World.count_acquired]
  omega

/-- A reference inside the graph is given back by a holder that is torn down. -/
theorem Run.tornDown_of_released (run : Run env {} moves m) {y : NodeId} {r : Reference}
    (holds : r ∈ m.world.holds y) (returned : .released r.1 r.2 ∈ m.world.journal) :
    (m.world.usage y).tornDown = true := by
  have given := run.given_le_relinquished (World.held_inside (World.mem_held holds))
  have some_given : 0 < m.world.given.count r := List.count_pos_iff.mpr ((m.world.mem_given_iff r).mpr returned)
  exact World.mem_relinquished holds (List.count_pos_iff.mp (Nat.lt_of_lt_of_le some_given given))

end Machine

end MetricPipeline
