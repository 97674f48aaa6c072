import MetricPipeline.Proofs.Reception
import MetricPipeline.Proofs.Teardown

/-!
# Gatherings

In a `Gathering` all visitors come to one router before anyone leaves it, and the receiver that it leads to has no
other holder. The receiver gets every report, none of them after its teardown began (`Gathering.received`), and when
the last visitor has left, it has been torn down (`Gathering.torn_down`). `Visits.reports_delivered` says what becomes
of reports in this and in every other case.
-/

namespace MetricPipeline

/-! ## What comes before a reference is dropped -/

/-- The newest entry first: whenever a reference to the node is dropped, the node was acquired before and released. -/
def Paired (x : NodeId) : List Entry → Prop
  | [] => True
  | e :: earlier => Paired x earlier ∧
      (e.drops x = true → (∃ f ∈ earlier, f.releases x = true) ∧ ∃ f ∈ earlier, f.acquires x = true)

section

variable {new old entries : List Entry} {x : NodeId}

theorem Paired.append (paired : Paired x old) (others : ∀ e ∈ new, e.drops x = false) : Paired x (new ++ old) := by
  induction new with
  | nil => exact paired
  | cons e rest ih =>
    refine ⟨ih fun f mem => others f (List.mem_cons_of_mem _ mem), fun drops => ?_⟩
    rw [others e List.mem_cons_self] at drops
    cases drops

theorem Paired.before {left : Nat} (paired : Paired x entries) (dropped : .dropped x left ∈ entries) :
    (∃ f ∈ entries, f.releases x = true) ∧ ∃ f ∈ entries, f.acquires x = true := by
  induction entries with
  | nil => cases dropped
  | cons e earlier ih =>
    have more : (∃ f ∈ earlier, f.releases x = true) ∧ ∃ f ∈ earlier, f.acquires x = true := by
      obtain rfl | mem := List.mem_cons.mp dropped
      · exact paired.2 (beq_self_eq_true x)
      · exact ih paired.1 mem
    exact more.imp (fun ⟨f, mem, h⟩ => ⟨f, List.mem_cons_of_mem _ mem, h⟩)
      fun ⟨f, mem, h⟩ => ⟨f, List.mem_cons_of_mem _ mem, h⟩

/-- A node that is not acquired after it was released is not revived. -/
theorem Unrevived.of_early (paired : Paired x entries)
    (early : NoneAfter (Entry.acquires x) (Entry.releases x) entries) : Unrevived x entries := by
  induction entries with
  | nil => exact List.Pairwise.nil
  | cons e earlier ih =>
    obtain ⟨first, others⟩ := List.pairwise_cons.mp early
    refine List.pairwise_cons.mpr ⟨fun f mem acquires => beq_eq_false_iff_ne.mpr fun emptied => ?_, ih paired.1 others⟩
    obtain ⟨⟨g, before, releases⟩, -⟩ := paired.1.before (emptied ▸ mem)
    rw [first g before acquires] at releases
    cases releases

/-- A node that is acquired only once is not revived. -/
theorem Unrevived.of_once (paired : Paired x entries) (once : entries.countP (Entry.acquires x) ≤ 1) :
    Unrevived x entries := by
  induction entries with
  | nil => exact List.Pairwise.nil
  | cons e earlier ih =>
    rw [List.countP_cons] at once
    refine List.pairwise_cons.mpr ⟨fun f mem acquires => beq_eq_false_iff_ne.mpr fun emptied => ?_,
      ih paired.1 (by omega)⟩
    obtain ⟨-, before⟩ := paired.1.before (emptied ▸ mem)
    have earlier_one : 0 < earlier.countP (Entry.acquires x) := List.countP_pos_iff.mpr before
    rw [if_pos acquires] at once
    omega

end

theorem Activity.Act.paired {env : Work → Behaviour} {w w' : World} {t t' : Activity} {x : NodeId}
    (h : Act env w t w' t') (paired : Paired x w.journal)
    (held : 0 < (w.usage x).refs → 0 < w.times (Entry.acquires x)) : Paired x w'.journal := by
  have other : ∀ new, w'.journal = new ++ w.journal → (∀ e ∈ new, e.drops x = false) → Paired x w'.journal :=
    fun new journal others => journal ▸ paired.append others
  have drops : ∀ {holder y u left}, w.usage? y = some u → u.refs = left + 1 →
      w'.journal = .dropped y left :: .released holder y :: w.journal → Paired x w'.journal := by
    intro holder y u left counted refs journal
    by_cases here : y = x
    · subst here
      have acquired := held (by rw [World.usage_of_usage? counted]; omega)
      obtain ⟨f, mem, acquires⟩ := List.countP_pos_iff.mp acquired
      rw [journal]
      refine ⟨⟨paired, fun drops => by cases drops⟩, fun _ => ⟨⟨_, List.mem_cons_self, ?_⟩, f, ?_, acquires⟩⟩
      · simp [Entry.releases]
      · exact List.mem_cons_of_mem _ mem
    · exact other [_, _] journal (by simp [Entry.drops, here])
  cases h with
  | inspect =>
    obtain ⟨new, journal, acquisitions⟩ := World.journal_inspect ..
    refine other new journal fun e mem => ?_
    cases e with
    | dropped => cases acquisitions _ mem
    | _ => rfl
  | drop counted more => exact drops counted more rfl
  | dropLast counted last => exact drops counted last rfl
  | @fire y u c => exact other [c.opening y, .tornDown y] rfl (by cases c <;> simp [Entry.drops, Component.opening])
  | acquire | acquireUncounted | late | forward | route | resume | hookEnd | workEnd =>
    exact other [_] rfl (by simp [Entry.drops])
  | underflow | releaseUncounted | receive | unrouted | hookPanic => exact other [_, _] rfl (by simp [Entry.drops])

namespace Machine

variable {env : Environment} {moves : List Move} {m : Machine} {x : NodeId} {c : Component}

theorem Run.paired (run : Run env {} moves m) (x : NodeId) : Paired x m.world.journal := by
  induction run with
  | start => trivial
  | @next moves m a m' run step ih =>
    obtain ⟨id, path, t, t', act, -⟩ | ⟨new, journal, others⟩ := ((run.valid valid_empty).change step).act_or_aside
    · refine act.paired ih fun held => ?_
      have counted : m.world.component? x ≠ some .uncounted := by
        intro kind
        rw [World.usage, World.usage?_uncounted kind] at held
        exact Nat.lt_irrefl _ held
      have refs := (run.accounted counted).refs
      omega
    · rw [journal]
      refine ih.append fun e mem => ?_
      cases e with
      | dropped => obtain other | other := others _ mem <;> cases other
      | _ => rfl

/-- A node that was acquired and is held no more has been torn down, once no call is left. -/
theorem Run.tornDown_at_rest (run : Run env {} moves m) (kind : m.world.component? x = some c)
    (counted : c.isCounted = true) (idle : m.calls = []) (acquired : 0 < m.world.times (Entry.acquires x))
    (empty : (m.world.usage x).refs = 0) :
    (m.world.usage x).tornDown = true ∧ m.world.count (c.opening x) = 1 := by
  obtain ⟨account, opened⟩ := run.account kind counted
  have refs := account.refs
  have fired := account.fired
  have emptied := account.emptied
  have some_emptied := account.reached empty (by omega)
  have none_firing : m.tasks.countP (Activity.fires x) = 0 := by simp [tasks, idle]
  have torn : (m.world.usage x).tornDown = true := by
    cases guard : (m.world.usage x).tornDown with
    | true => rfl
    | false =>
      rw [guard, Bool.toNat_false] at fired
      have late := account.late (by omega)
      rw [guard] at late
      cases late
  rw [torn, Bool.toNat_true] at fired
  exact ⟨torn, opened.trans fired⟩

end Machine

/-! ## One router over one receiver -/

section

variable {env : Environment} {nodes : List NodeId} {moves : List Move} {m : Machine} {vs : List Visitor} {x : NodeId}

/-- When no visitor waits, no call is left. -/
theorem Attended.idle (attended : Attended m vs) (idle : ∀ v ∈ vs, v.stage.call? = none) : m.calls = [] := by
  cases calls : m.calls with
  | nil => rfl
  | cons c rest =>
    obtain ⟨id, a⟩ := c
    have found : m.activity? id = some a := by simp [Machine.activity?, calls]
    obtain ⟨i, v, here, call, -⟩ := attended.owned id a found
    rw [idle v (List.mem_of_getElem? here)] at call
    cases call

/-- Outsiders have acquired and released a node as often as its visitors did. -/
theorem Visits.outside_at_rest (visits : Visits env nodes moves m vs) (idle : m.calls = [])
    (uncancelled : ∀ id, .cancel id ∉ moves) (x : NodeId) :
    m.world.count (.acquired .outside x) = (vs.map fun v => (v.node == x && v.stage.hasCome).toNat).sum ∧
      m.world.count (.released .outside x) = (vs.map fun v => (v.node == x && v.stage.hasLeft).toNat).sum := by
  have none_at_work : m.tasks = [] := by simp [Machine.tasks, idle]
  have none_sought : m.sought = [] := by simp [Machine.sought, none_at_work]
  have none_owed : m.owed = [] := by simp [Machine.owed, none_at_work]
  have none_held : m.world.held.count (.outside, x) = 0 :=
    List.count_eq_zero.mpr fun held => World.held_inside held rfl
  obtain ⟨lost, taken, kept⟩ := visits.run.taken (· == (.outside, x))
  obtain ⟨lost', given, kept'⟩ := visits.run.given (· == (.outside, x))
  have taken : m.sought.count (.outside, x) + lost + m.world.taken.count (.outside, x) =
      (moves.flatMap Move.acquires).count (.outside, x) + m.world.held.count (.outside, x) := taken
  have given : m.owed.count (.outside, x) + lost' + m.world.given.count (.outside, x) =
      (moves.flatMap Move.releases).count (.outside, x) + m.world.relinquished.count (.outside, x) := given
  rw [none_sought, kept (.inl uncancelled), none_held, visits.acquires_eq] at taken
  rw [none_owed, kept' uncancelled, World.count_relinquished_outside, visits.releases_eq] at given
  rw [World.count_acquired, World.count_released]
  exact ⟨by simpa using taken, by simpa using given⟩

end

/-- Nobody else holds the router, which has one route, or the receiver that it leads to; the router is not acquired
after it was released, and all reports are named by its key. -/
structure Gathering (m : Machine) (moves : List Move) (s y : NodeId) (key : String) (config : Config)
    (c : Component) : Prop where
  router : m.world.component? s = some (.router (.ofList [(key, y)]) config)
  admissible : config.isAdmissible = true
  leaf : m.world.component? y = some c
  receiver : c.isReceiver = true
  counted : c.isCounted = true
  unheld : ∀ r ∈ m.world.held, r.2 ≠ s ∧ (r.2 = y → r = (.route s key, y))
  early : NoneAfter (Entry.acquires s) (Entry.releases s) m.world.journal
  named : ∀ e ∈ moves.flatMap Move.sends, e.2.name = key

namespace Gathering

variable {env : Environment} {moves : List Move} {m : Machine} {vs : List Visitor} {s y z : NodeId} {key : String}
  {config : Config} {c : Component} {visitors reports : Nat}

theorem apart (g : Gathering m moves s y key config c) : s ≠ y := by
  rintro rfl
  have same := g.router.symm.trans g.leaf
  cases same
  cases g.receiver

theorem found (_ : Gathering m moves s y key config c) : (Table.ofList [(key, y)]).get? key = some y := by
  rw [Table.ofList, List.foldl_cons, List.foldl_nil, Table.get?_insert, if_pos rfl]

theorem holds_eq (g : Gathering m moves s y key config c) : m.world.holds s = [(.route s key, y)] := by
  rw [World.holds, g.router]
  rfl

theorem under (g : Gathering m moves s y key config c) (under : m.world.Under s z) : z = s ∨ z = y := by
  induction under with
  | here => exact .inl rfl
  | held above holds ih =>
    obtain rfl | rfl := ih
    · rw [g.holds_eq] at holds
      cases List.mem_singleton.mp holds
      exact .inr rfl
    · rw [World.holds, g.leaf] at holds
      have receiver := g.receiver
      cases c with
      | leaf | uncounted | sink => cases holds
      | hooked | router => cases receiver

theorem nodes (visits : Visits env (List.replicate visitors s) moves m vs) : ∀ v ∈ vs, v.node = s :=
  fun _ mem => List.eq_of_mem_replicate (visits.nodes_eq ▸ List.mem_map_of_mem mem)

theorem length_eq (visits : Visits env (List.replicate visitors s) moves m vs) : vs.length = visitors := by
  rw [← List.length_map, visits.nodes_eq, List.length_replicate]

/-- Nobody comes to the receiver itself. -/
theorem none_come (g : Gathering m moves s y key config c)
    (visits : Visits env (List.replicate visitors s) moves m vs) :
    (vs.map fun v => (v.node == y && v.stage.hasCome).toNat).sum = 0 := by
  have elsewhere : ∀ v ∈ vs, (v.node == y && v.stage.hasCome).toNat = 0 := by
    intro v mem
    simp [nodes visits v mem, g.apart]
  rw [sum_map_const elsewhere, Nat.mul_zero]

/-- The receiver is acquired once, when the router is made. -/
theorem acquired_once (g : Gathering m moves s y key config c)
    (visits : Visits env (List.replicate visitors s) moves m vs) : m.world.times (Entry.acquires y) = 1 := by
  have none_outside : m.world.taken.count (.outside, y) = 0 := by
    obtain ⟨lost, taken, -⟩ := visits.run.taken (· == (.outside, y))
    have taken : m.sought.count (.outside, y) + lost + m.world.taken.count (.outside, y) =
        (moves.flatMap Move.acquires).count (.outside, y) + m.world.held.count (.outside, y) := taken
    have none_held : m.world.held.count (.outside, y) = 0 :=
      List.count_eq_zero.mpr fun held => World.held_inside held rfl
    rw [visits.acquires_eq, g.none_come visits, none_held] at taken
    omega
  have inside := (visits.run.inside (p := inner y) fun x => by simp [inner]).1
  have only : m.world.held.countP (inner y) = m.world.held.count (.route s key, y) := by
    apply List.countP_congr
    intro r held
    constructor
    · intro mine
      have here : r.2 = y := by simpa using (Bool.and_eq_true_iff.mp mine).1
      exact beq_iff_eq.mpr ((g.unheld r held).2 here)
    · intro same
      rw [beq_iff_eq.mp same]
      simp [inner]
  have held : (.route s key, y) ∈ m.world.held := World.mem_held (by rw [g.holds_eq]; exact List.mem_singleton_self _)
  rw [World.times_acquires, countP_inner, none_outside, inside, only,
    List.count_eq_one_of_mem m.world.held_nodup held]

theorem unrevived (g : Gathering m moves s y key config c)
    (visits : Visits env (List.replicate visitors s) moves m vs) (under : m.world.Under s z) :
    Unrevived z m.world.journal := by
  obtain rfl | rfl := g.under under
  · exact .of_early (visits.run.paired z) g.early
  · exact .of_once (visits.run.paired z) (Nat.le_of_eq (g.acquired_once visits))

theorem handed_alive (g : Gathering m moves s y key config c)
    (visits : Visits env (List.replicate visitors s) moves m vs) :
    NoneAfter (Entry.hands y fun _ => true) (Entry.tears y c) m.world.journal := by
  refine visits.handed_alive (fun x visited _ z under => ?_) (fun d kind => ?_) g.counted
  · rw [List.eq_of_mem_replicate visited] at under
    exact g.unrevived visits under
  · rw [g.leaf] at kind
    exact (Option.some.inj kind).symm

/-- When everyone has sent so many reports, the receiver has received them all. -/
theorem received (g : Gathering m moves s y key config c)
    (visits : Visits env (List.replicate visitors s) moves m vs)
    (gone : ∀ v ∈ vs, v.stage = .gone ∧ v.sent = reports) : (m.world.received y).length = visitors * reports := by
  have valid := visits.run.valid Machine.valid_empty
  have only : ∀ d, m.world.component? y = some d → d.isReceiver = true := by
    intro d kind
    rw [g.leaf] at kind
    cases kind
    exact g.receiver
  have answered : m.pending y = [] := by
    refine visits.attended.pending_eq_nil valid (fun v mem id reporting => ?_) y
    rw [(gone v mem).1] at reporting
    cases reporting
  have led : ∀ e ∈ moves.flatMap Move.sends, m.world.leadsTo y e.1 e.2 = true := by
    intro e sent
    have route : (Table.ofList [(key, y)]).get? e.2.name = some y := g.named e sent ▸ g.found
    rw [List.eq_of_mem_replicate (visits.sends_node e sent),
      World.leadsTo_of_chain (.route g.router route (.receive g.leaf g.receiver)) valid.acyclic]
    exact beq_self_eq_true _
  have all := (visits.received_perm only).length_eq
  rw [answered, List.append_nil, List.length_map, List.filter_eq_self.mpr led, visits.sends_eq,
    sum_map_const fun v mem => (gone v mem).2, length_eq visits] at all
  exact all

theorem idle (visits : Visits env (List.replicate visitors s) moves m vs) (gone : ∀ v ∈ vs, v.stage = .gone) :
    m.calls = [] :=
  visits.attended.idle fun v mem => by rw [gone v mem]; rfl

/-- When everyone has left, the router has been torn down, and has released the receiver. -/
theorem router_torn_down (g : Gathering m moves s y key config c)
    (visits : Visits env (List.replicate visitors s) moves m vs) (some_visitor : 0 < visitors)
    (gone : ∀ v ∈ vs, v.stage = .gone) (uncancelled : ∀ id, .cancel id ∉ moves) :
    .released (.route s key) y ∈ m.world.journal := by
  have idle := idle visits gone
  obtain ⟨acquired, released⟩ := visits.outside_at_rest idle uncancelled s
  have each : ∀ v ∈ vs, (v.node == s && v.stage.hasCome).toNat = 1 ∧ (v.node == s && v.stage.hasLeft).toNat = 1 := by
    intro v mem
    simp [nodes visits v mem, gone v mem, Stage.hasCome, Stage.hasLeft]
  rw [sum_map_const fun v mem => (each v mem).1, length_eq visits] at acquired
  rw [sum_map_const fun v mem => (each v mem).2, length_eq visits] at released
  have empty : (m.world.usage s).refs = 0 := by
    have holders := visits.run.count_holders g.router rfl (visits.careful (g.unrevived visits .here))
    have none_inside : m.world.held.countP
        (fun r => r.2 == s && !m.world.journal.contains (.released r.1 r.2)) = 0 :=
      List.countP_eq_zero.mpr fun r held => by simp [(g.unheld r held).1]
    omega
  have some_acquired : 0 < m.world.times (Entry.acquires s) := by
    rw [World.times_acquires, countP_inner, ← World.count_acquired]
    omega
  have torn := (visits.run.tornDown_at_rest g.router rfl idle some_acquired empty).1
  obtain ⟨t, rfl, rfl⟩ := visits.run.teardown torn
  obtain ⟨o, ended⟩ := t.ends g.router idle uncancelled
  have mine : (.route s key, y) ∈ (Component.router (.ofList [(key, y)]) config).returns s :=
    Component.mem_returns_router.mpr ⟨g.admissible, g.found⟩
  exact t.returned g.router ended mine

/-- When everyone has left, and no release was dropped, the receiver has been torn down, once and to the end. -/
theorem torn_down (g : Gathering m moves s y key config c)
    (visits : Visits env (List.replicate visitors s) moves m vs) (some_visitor : 0 < visitors)
    (gone : ∀ v ∈ vs, v.stage = .gone) (uncancelled : ∀ id, .cancel id ∉ moves) :
    m.world.count (c.opening y) = 1 ∧ ∃ t : Teardown env y, t.moves = moves ∧ t.final = m ∧ ∃ o, t.EndedWith o := by
  have idle := idle visits gone
  have returned := g.router_torn_down visits some_visitor gone uncancelled
  have empty : (m.world.usage y).refs = 0 := by
    have reached : m.world.Under s y := World.Under.here.held (by rw [g.holds_eq]; exact List.mem_singleton_self _)
    have holders := visits.run.count_holders g.leaf g.counted (visits.careful (g.unrevived visits reached))
    have acquired := (visits.outside_at_rest idle uncancelled y).1
    rw [g.none_come visits] at acquired
    have none_inside : m.world.held.countP
        (fun r => r.2 == y && !m.world.journal.contains (.released r.1 r.2)) = 0 := by
      apply List.countP_eq_zero.mpr
      intro r held counts
      obtain ⟨here, kept⟩ := Bool.and_eq_true_iff.mp counts
      rw [(g.unheld r held).2 (beq_iff_eq.mp here)] at kept
      simp [returned] at kept
    omega
  have once := g.acquired_once visits
  obtain ⟨torn, opened⟩ := visits.run.tornDown_at_rest g.leaf g.counted idle (by omega) empty
  obtain ⟨t, rfl, rfl⟩ := visits.run.teardown torn
  exact ⟨opened, t, rfl, rfl, t.ends g.leaf idle uncancelled⟩

end Gathering

/-- However what visitors do is interleaved: as long as no node is acquired after its count came back to zero, no node
that counts its references is handed a report after its teardown began. Of the reports that were sent, a receiver gets
those whose way leads to it, each of them once, and nothing else; only what a visitor still waits for may be under way.
If all visitors come to one router before anyone leaves it, and each sends so many reports by the name of its only
route, the receiver gets them all, before its teardown, and that is begun once and ends, unless a release is
dropped. -/
theorem Visits.reports_delivered {env : Environment} {nodes : List NodeId} {moves : List Move} {m : Machine}
    {vs : List Visitor} (visits : Visits env nodes moves m vs) :
    ((∀ x < m.world.nodes.length, Unrevived x m.world.journal) → ∀ y c, m.world.component? y = some c →
      c.isCounted = true → NoneAfter (Entry.hands y fun _ => true) (Entry.tears y c) m.world.journal) ∧
    (∀ e ∈ moves.flatMap Move.sends, ∀ y, m.world.leadsTo y e.1 e.2 = true ↔
      ∃ way, m.world.Chain e.2.name e.1 way (.receiver y)) ∧
    (∀ y c, m.world.component? y = some c → c.isReceiver = true →
      (m.world.received y ++ m.pending y).Perm
        (((moves.flatMap Move.sends).filter fun e => m.world.leadsTo y e.1 e.2).map (·.2)) ∧
      ((∀ v ∈ vs, ∀ id, v.stage ≠ .reporting id) → m.pending y = [])) ∧
    ∀ visitors reports s y key config c, nodes = List.replicate visitors s → 0 < visitors →
      Gathering m moves s y key config c → (∀ v ∈ vs, v.stage = .gone ∧ v.sent = reports) →
      (m.world.received y).length = visitors * reports ∧
      NoneAfter (Entry.hands y fun _ => true) (Entry.tears y c) m.world.journal ∧
      ((∀ id, .cancel id ∉ moves) → m.world.count (c.opening y) = 1 ∧
        ∃ t : Teardown env y, t.moves = moves ∧ t.final = m ∧ ∃ o, t.EndedWith o) := by
  have valid := visits.run.valid Machine.valid_empty
  refine ⟨fun unrevived y c kind counted => ?_, fun e sent y => ?_,
    fun y c kind receiver => ⟨?_, fun answered => ?_⟩, ?_⟩
  · refine visits.handed_alive (fun x _ made z under => unrevived z ?_) (fun d here => ?_) counted
    · exact (World.component?_isSome ..).mp ((under.made_iff valid.acyclic).mp made)
    · exact Option.some.inj (here.symm.trans kind)
  · exact World.leadsTo_iff valid.acyclic (visits.run.sends_made Machine.valid_empty e sent)
  · refine visits.received_perm fun d here => ?_
    cases here.symm.trans kind
    exact receiver
  · exact visits.attended.pending_eq_nil valid answered y
  · rintro visitors reports s y key config c rfl some_visitor g gone
    exact ⟨g.received visits gone, g.handed_alive visits,
      g.torn_down visits some_visitor fun v mem => (gone v mem).1⟩

/-- Two visitors come to a router over a leaf. The second leaves before the report of the first has arrived. -/
def together : List Move :=
  [.build .leaf, .build (.router (.ofList [("cpu", 0)]) {}), .call (.acquire 1), .run 0 [], .call (.acquire 1),
    .run 1 [], .run 0 [], .run 1 [], .finish 0, .finish 1, .call (.report 1 (Machine.sample "cpu")), .run 2 [],
    .call (.report 1 (Machine.sample "cpu")), .run 3 [], .run 3 [], .run 3 [], .finish 3, .call (.release 1),
    .run 4 [], .finish 4, .run 2 [], .run 2 [], .finish 2, .call (.release 1), .run 5 [], .run 5 [], .run 5 [0],
    .run 5 [0], .run 5 [0], .run 5 [0], .run 5 [0], .run 5 [], .finish 5]

theorem delivered_together :
    ∃ m vs, Visits (.uniform fun _ => {}) [1, 1] together m vs ∧ (∀ x < m.world.nodes.length, Unrevived x m.world.journal) ∧
      NoneAfter (Entry.hands 0 fun _ => true) (Entry.tears 0 .leaf) m.world.journal ∧
      (m.world.received 0).Perm [Machine.sample "cpu", Machine.sample "cpu"] ∧
      Gathering m together 1 0 "cpu" {} .leaf ∧ (∀ v ∈ vs, v.stage = .gone ∧ v.sent = 1) ∧
      (m.world.received 0).length = 2 * 1 ∧ m.world.count (.began ⟨0, .teardown⟩) = 1 := by
  obtain ⟨m, vs, visits, leaf, router, unrevived, gone, held, early, sent⟩ :
      ∃ m vs, Visits (.uniform fun _ => {}) [1, 1] together m vs ∧ m.world.component? 0 = some .leaf ∧
        m.world.component? 1 = some (.router (.ofList [("cpu", 0)]) {}) ∧
        (∀ x < m.world.nodes.length, Unrevived x m.world.journal) ∧ (∀ v ∈ vs, v.stage = .gone ∧ v.sent = 1) ∧
        m.world.held = [(.route 1 "cpu", 0)] ∧ NoneAfter (Entry.acquires 1) (Entry.releases 1) m.world.journal ∧
        ((together.flatMap Move.sends).filter fun e => m.world.leadsTo 0 e.1 e.2).map (·.2) =
          [Machine.sample "cpu", Machine.sample "cpu"] :=
    ⟨_, _, .of_foldlM .start rfl, rfl, rfl, by decide, by decide, rfl, by decide, by decide⟩
  have gathering : Gathering m together 1 0 "cpu" {} .leaf :=
    { router, leaf, early
      admissible := rfl
      receiver := rfl
      counted := rfl
      unheld := by simp [held]
      named := by decide }
  obtain ⟨alive, -, arrived, all⟩ := Visits.reports_delivered visits
  obtain ⟨perm, answered⟩ := arrived 0 .leaf leaf rfl
  have none_waits : ∀ v ∈ vs, ∀ id, v.stage ≠ .reporting id := by
    intro v mem id waits
    rw [(gone v mem).1] at waits
    cases waits
  rw [answered none_waits, List.append_nil, sent] at perm
  obtain ⟨count, -, down⟩ := all 2 1 1 0 "cpu" {} .leaf rfl (by decide) gathering gone
  have uncancelled : ∀ id, .cancel id ∉ together := by
    intro id
    simp [together]
  exact ⟨m, vs, visits, unrevived, alive unrevived 0 .leaf leaf rfl, perm, gathering, gone, count, (down uncancelled).1⟩

end MetricPipeline
