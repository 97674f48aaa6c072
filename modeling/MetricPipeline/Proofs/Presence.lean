import MetricPipeline.Proofs.Visits

/-!
# While a visitor is there

As long as no node is acquired after its count came back to zero (`Unrevived`), visitors are careful with all nodes
(`Visits.careful`). So a node that is visited keeps its count above zero, and with it every node below that a report
can get to (`Run.alive_under`): whatever is handed a report has not begun its teardown (`Visits.handed_alive`).
-/

namespace MetricPipeline

/-! ## Order in the journal -/

/-- The newest entry first: no entry of the first kind comes after one of the second. -/
def NoneAfter (p q : Entry → Bool) (entries : List Entry) : Prop :=
  entries.Pairwise fun later earlier => p later = true → q earlier = false

instance (p q : Entry → Bool) (entries : List Entry) : Decidable (NoneAfter p q entries) :=
  inferInstanceAs (Decidable (List.Pairwise _ entries))

/-- The node is not acquired once one of its releases has brought the count to zero. -/
def Unrevived (x : NodeId) (entries : List Entry) : Prop := NoneAfter (Entry.acquires x) (· == .dropped x 0) entries

instance (x : NodeId) (entries : List Entry) : Decidable (Unrevived x entries) :=
  inferInstanceAs (Decidable (NoneAfter _ _ entries))

/-- The entry is of the beginning of the node's teardown. -/
def Entry.tears (x : NodeId) (c : Component) (e : Entry) : Bool := e == .tornDown x || e == c.opening x

section

variable {p q : Entry → Bool} {new old : List Entry} {x : NodeId}

theorem NoneAfter.suffix (none : NoneAfter p q (new ++ old)) : NoneAfter p q old :=
  (List.pairwise_append.mp none).2.1

theorem NoneAfter.append (none : NoneAfter p q old)
    (apart : (∀ e ∈ new, p e = false) ∨ ∀ e ∈ new ++ old, q e = false) : NoneAfter p q (new ++ old) := by
  induction new with
  | nil => exact none
  | cons e rest ih =>
    refine List.pairwise_cons.mpr ⟨fun f mem later => ?_, ih ?_⟩
    · obtain never | never := apart
      · rw [never e List.mem_cons_self] at later
        cases later
      · exact never f (List.mem_cons_of_mem _ mem)
    · exact apart.imp (fun never f mem => never f (List.mem_cons_of_mem _ mem))
        fun never f mem => never f (List.mem_cons_of_mem _ mem)

/-- With a release for each acquisition that is there already, what is new in the journal is careful too. -/
theorem Unrevived.careful (unrevived : Unrevived x (new ++ old)) (careful : Careful x old)
    (covered : (new ++ old).count (.released .outside x) ≤ old.count (.acquired .outside x)) :
    Careful x (new ++ old) := by
  induction new with
  | nil => exact careful
  | cons e rest ih =>
    obtain ⟨first, others⟩ := List.pairwise_cons.mp unrevived
    have fewer : old.count (.acquired .outside x) ≤ (rest ++ old).count (.acquired .outside x) :=
      (List.sublist_append_right rest old).count_le _
    rw [List.cons_append, List.count_cons] at covered
    refine ⟨ih others (by omega), ?_, fun acquires emptied => ?_⟩
    · rintro rfl
      rw [beq_self_eq_true, if_pos rfl] at covered
      exact Nat.lt_of_lt_of_le covered fewer
    · have other := first _ emptied acquires
      simp at other

end

/-! ## Care -/

section

variable {env : Environment} {nodes : List NodeId} {moves : List Move} {move : Move} {m m' : Machine}
  {vs : List Visitor} {v : Visitor} {x y : NodeId} {c : Component}

theorem Attended.holds_le (attended : Attended m vs) (mem : v ∈ vs) :
    m.world.count (.released .outside x) + (v.holds m x).toNat ≤ m.world.count (.acquired .outside x) := by
  have balance := attended.balance x
  have mine : (v.holds m x).toNat ≤ vs.countP (Visitor.holds m x) := by
    cases holds : v.holds m x with
    | false => exact Nat.zero_le _
    | true => exact List.countP_pos_iff.mpr ⟨v, mem, holds⟩
  omega

/-- Whoever releases a node acquired it before. -/
theorem Attended.released_le (attended : Attended m vs) (valid : m.Valid) (step : m.step? env move = some m')
    (x : NodeId) : m'.world.count (.released .outside x) ≤ m.world.count (.acquired .outside x) := by
  by_cases still : ∀ id path, move ≠ .run id path
  · have released := (valid.outside step still x).1
    have balance := attended.balance x
    omega
  · simp only [not_forall, not_not] at still
    obtain ⟨id, path, rfl⟩ := still
    cases valid.callChange step id with
    | stays apart => exact absurd rfl apart
    | @steps path a a' found _ moved =>
      obtain ⟨i, v, here, call, fits⟩ := attended.owned id a found
      obtain ⟨base, balance⟩ := Visitor.Fits.balance v x
      have owed := (balance fits).2
      have released := moved.released (valid.sound_call (Machine.mem_calls found)) x
      have holds := attended.holds_le (x := x) (List.mem_of_getElem? here)
      simp only [Visitor.holds, call, Option.bind_some, found] at holds
      omega

theorem Attended.careful (attended : Attended m vs) (valid : m.Valid) (step : m.step? env move = some m')
    (before : Unrevived x m.world.journal → Careful x m.world.journal) (unrevived : Unrevived x m'.world.journal) :
    Careful x m'.world.journal := by
  obtain ⟨new, journal⟩ := (valid.change step).journal
  have released := attended.released_le valid step x
  rw [World.count, ← journal] at released
  rw [← journal] at unrevived ⊢
  exact unrevived.careful (before unrevived.suffix) released

theorem Visits.careful (visits : Visits env nodes moves m vs) :
    Unrevived x m.world.journal → Careful x m.world.journal := by
  refine visits.along (P := fun _ m => Unrevived x m.world.journal → Careful x m.world.journal) (fun _ => trivial) ?_
  intro moves m vs move m' visits step _ before
  exact visits.attended.careful (visits.run.valid Machine.valid_empty) step before

namespace Machine

/-- A node that is held has not begun its teardown. -/
theorem Run.unspent (run : Run env {} moves m) (kind : m.world.component? x = some c) (counted : c.isCounted = true)
    (careful : Careful x m.world.journal) (held : 0 < (m.world.usage x).refs) :
    (m.world.usage x).tornDown = false ∧ ∀ e ∈ m.world.journal, e.tears x c = false := by
  obtain ⟨account, opened⟩ := run.account kind counted
  have unfired : m.world.count (.tornDown x) = 0 := by
    apply Nat.eq_zero_of_not_pos
    intro fired
    have emptied := account.emptied
    have some_emptied : 0 < m.world.count (.dropped x 0) := by omega
    have empty := run.stays_empty kind counted careful (List.count_pos_iff.mp some_emptied)
    omega
  constructor
  · have fired := account.fired
    rw [unfired] at fired
    exact Bool.toNat_eq_zero.mp fired.symm
  · intro e mem
    rw [unfired] at opened
    have quiet : e ≠ .tornDown x ∧ e ≠ c.opening x := by
      constructor
      · rintro rfl
        exact List.count_eq_zero.mp unfired mem
      · rintro rfl
        exact List.count_eq_zero.mp opened mem
    simp [Entry.tears, quiet]

/-- A node with more acquisitions than releases by outsiders is held, and so is all that is under it. -/
theorem Run.alive_under (run : Run env {} moves m)
    (careful : ∀ z, m.world.Under x z → Careful z m.world.journal)
    (held : m.world.count (.released .outside x) < m.world.count (.acquired .outside x))
    (under : m.world.Under x y) (kind : m.world.component? y = some c) (counted : c.isCounted = true) :
    0 < (m.world.usage y).refs := by
  induction under generalizing c with
  | here =>
    have holders := run.count_holders kind counted (careful _ .here)
    omega
  | @held z r above holds ih =>
    obtain ⟨d, above_kind, mine⟩ := World.component?_of_holds holds
    have above_counted : d.isCounted = true := by
      cases d with
      | uncounted => cases mine
      | _ => rfl
    have unspent := (run.unspent above_kind above_counted (careful z above) (ih above_kind above_counted)).1
    have kept : .released r.1 r.2 ∉ m.world.journal := by
      intro returned
      rw [run.tornDown_of_released holds returned] at unspent
      cases unspent
    have some_holder : 0 < m.world.held.countP
        (fun s => s.2 == r.2 && !m.world.journal.contains (.released s.1 s.2)) :=
      List.countP_pos_iff.mpr ⟨r, World.mem_held holds, by simpa using kept⟩
    have here := careful r.2 (above.held holds)
    have holders := run.count_holders kind counted here
    have outside : m.world.count (.released .outside r.2) ≤ m.world.count (.acquired .outside r.2) := here.outside
    omega

end Machine

/-! ## Reports on their way -/

/-- A task acts, or what is new in the journal tells of acquisitions or of calls. -/
theorem Machine.Change.act_or_aside (change : Machine.Change env m m' move) :
    (∃ id path t t', Activity.Act ((env id).behaviour path) m.world t m'.world t' ∧ t ∈ m.tasks) ∨
      ∃ new, m'.world.journal = new ++ m.world.journal ∧
        ∀ e ∈ new, e.isAcquisition = true ∨ e.isClerical = true := by
  obtain ⟨c, -, -, world⟩ | ⟨id, path, t, t', -, act, mem, -⟩ | ⟨-, new, journal, clerical⟩ := change.world_cases
  · obtain ⟨new, journal, acquisitions⟩ := (m.world.add c).journal_acquireAll (c.holds m.world.nodes.length)
    exact .inr ⟨new, by rw [world, journal]; rfl, fun e mem => .inl (acquisitions e mem)⟩
  · exact .inl ⟨id, path, t, t', act, mem⟩
  · exact .inr ⟨new, journal, fun e mem => .inr (clerical e mem)⟩

/-- Only a report hands the node anything, and it begins no teardown. -/
theorem Activity.Act.handing {env : Work → Behaviour} {w w' : World} {t t' : Activity} (h : Act env w t w' t')
    (y : NodeId) (c : Component) : ∃ new, w'.journal = new ++ w.journal ∧
      ((∀ e ∈ new, e.hands y (fun _ => true) = false) ∨
        (∃ r, t = report y r) ∧ ∀ e ∈ new, e.tears y c = false) := by
  have handed : ∀ {x r} (new : List Entry), t = report x r → (∀ e ∈ new, e.tears y c = false) →
      (∀ e ∈ new, e.hands y (fun _ => true) = true → x = y) →
      (∀ e ∈ new, e.hands y (fun _ => true) = false) ∨ (∃ r, t = report y r) ∧ ∀ e ∈ new, e.tears y c = false := by
    rintro x r new rfl quiet only
    by_cases here : x = y
    · exact .inr ⟨⟨r, by rw [here]⟩, quiet⟩
    · exact .inl fun e mem => Bool.eq_false_iff.mpr fun hands => here (only e mem hands)
  have quiet : (∀ x r, (Entry.handed x r).tears y c = false) ∧
      (∀ x, (Entry.began ⟨x, .report⟩).tears y c = false) ∧
      ∀ x name, (Entry.unrouted x name).tears y c = false := by
    cases c <;> simp [Entry.tears, Component.opening]
  cases h with
  | inspect =>
    obtain ⟨new, journal, acquisitions⟩ := World.journal_inspect ..
    exact ⟨new, journal, .inl fun e mem => Entry.hands_of_acquisition e (acquisitions e mem)⟩
  | @fire x u d =>
    exact ⟨[d.opening x, .tornDown x], rfl, .inl (by cases d <;> simp [Entry.hands, Component.opening])⟩
  | @receive x r =>
    exact ⟨[.began ⟨x, .report⟩, .handed x r], rfl, handed _ rfl (by simp [quiet]) (by simp [Entry.hands])⟩
  | @forward x r | @route x r => exact ⟨[.handed x r], rfl, handed _ rfl (by simp [quiet]) (by simp [Entry.hands])⟩
  | @unrouted x r =>
    exact ⟨[.unrouted x r.name, .handed x r], rfl, handed _ rfl (by simp [quiet]) (by simp [Entry.hands])⟩
  | acquire | acquireUncounted | late | resume | hookEnd | workEnd => exact ⟨[_], rfl, .inl (by simp [Entry.hands])⟩
  | underflow | drop | dropLast | releaseUncounted | hookPanic => exact ⟨[_, _], rfl, .inl (by simp [Entry.hands])⟩

/-- A report that is on its way is at a node under that of the visitor who waits for it. -/
theorem Attended.reporting {r : Report} (attended : Attended m vs) (valid : m.Valid)
    (mem : .report y r ∈ m.tasks) : ∃ v ∈ vs, (∃ id, v.stage = .reporting id) ∧ m.world.Under v.node y := by
  obtain ⟨⟨id, a⟩, call, mine⟩ := List.mem_flatMap.mp mem
  obtain ⟨i, v, here, waits, fits⟩ := attended.owned id a (valid.activity?_of_mem call)
  refine ⟨v, List.mem_of_getElem? here, ?_⟩
  obtain ⟨x, stage, n⟩ := v
  cases stage with
  | absent | present | gone => cases fits
  | arriving =>
    obtain rfl | ⟨refs, rfl⟩ | rfl := fits
    · cases List.mem_singleton.mp mine
    · cases List.mem_singleton.mp mine
    · cases mine
  | reporting waiting => exact ⟨⟨waiting, rfl⟩, fits _ mine⟩
  | leaving =>
    obtain inner | rfl := fits
    · cases inner _ mine
    · cases List.mem_singleton.mp mine

theorem Attended.handed_alive (attended : Attended m vs) (run : Machine.Run env {} moves m)
    (step : m.step? env move = some m')
    (careful : ∀ v ∈ vs, (m.world.component? v.node).isSome = true → ∀ z, m.world.Under v.node z →
      Careful z m.world.journal)
    (kind : ∀ d, m.world.component? y = some d → d = c) (counted : c.isCounted = true)
    (before : NoneAfter (Entry.hands y fun _ => true) (Entry.tears y c) m.world.journal) :
    NoneAfter (Entry.hands y fun _ => true) (Entry.tears y c) m'.world.journal := by
  have valid := run.valid Machine.valid_empty
  obtain ⟨id, path, t, t', act, mem⟩ | ⟨new, journal, others⟩ := (valid.change step).act_or_aside
  · obtain ⟨new, journal, nothing | ⟨⟨r, rfl⟩, quiet⟩⟩ := act.handing y c
    · rw [journal]
      exact before.append (.inl nothing)
    · obtain ⟨v, visitor, ⟨waiting, stage⟩, under⟩ := attended.reporting valid mem
      obtain ⟨d, here⟩ := Option.isSome_iff_exists.mp (valid.sound _ mem)
      cases kind d here
      have held := attended.holds_le (x := v.node) visitor
      rw [show v.holds m v.node = true by simp [Visitor.holds, Visitor.isHolding, stage]] at held
      have made := (under.made_iff valid.acyclic).mpr (valid.sound _ mem)
      have alive := run.alive_under (careful v visitor made) (Nat.lt_of_succ_le held) under here counted
      have unspent := (run.unspent here counted (careful v visitor made y under) alive).2
      rw [journal]
      refine before.append (.inr fun e mem => ?_)
      exact (List.mem_append.mp mem).elim (quiet e) (unspent e)
  · rw [journal]
    refine before.append (.inl fun e mem => ?_)
    cases e with
    | handed => obtain other | other := others _ mem <;> cases other
    | _ => rfl

/-- As long as the nodes under those that are visited are not revived, none of them is handed a report after its
teardown began. -/
theorem Visits.handed_alive (visits : Visits env nodes moves m vs)
    (unrevived : ∀ x ∈ nodes, (m.world.component? x).isSome = true → ∀ z, m.world.Under x z →
      Unrevived z m.world.journal)
    (kind : ∀ d, m.world.component? y = some d → d = c) (counted : c.isCounted = true) :
    NoneAfter (Entry.hands y fun _ => true) (Entry.tears y c) m.world.journal := by
  revert unrevived kind
  refine visits.along (P := fun _ m =>
    (∀ x ∈ nodes, (m.world.component? x).isSome = true → ∀ z, m.world.Under x z → Unrevived z m.world.journal) →
      (∀ d, m.world.component? y = some d → d = c) →
        NoneAfter (Entry.hands y fun _ => true) (Entry.tears y c) m.world.journal) (fun _ _ => List.Pairwise.nil) ?_
  intro moves m vs move m' visits step _ ih unrevived kind
  have change := (visits.run.valid Machine.valid_empty).change step
  have extends_ : ∀ x c, m.world.component? x = some c → m'.world.component? x = some c :=
    fun x c kind => change.component? kind
  have unrevived_before : ∀ x ∈ nodes, (m.world.component? x).isSome = true → ∀ z, m.world.Under x z →
      Unrevived z m.world.journal := by
    intro x visited made z under
    obtain ⟨d, here⟩ := Option.isSome_iff_exists.mp made
    obtain ⟨new, journal⟩ := change.journal
    have later := unrevived x visited (by rw [extends_ x d here]; rfl) z (under.mono extends_)
    rw [← journal] at later
    exact later.suffix
  have kind_before : ∀ d, m.world.component? y = some d → d = c := fun d here => kind d (extends_ y d here)
  refine visits.attended.handed_alive visits.run step (fun v mem made z under => ?_) kind_before counted
    (ih unrevived_before kind_before)
  have visited : v.node ∈ nodes := visits.nodes_eq ▸ List.mem_map_of_mem mem
  exact visits.careful (unrevived_before v.node visited made z under)

end

end MetricPipeline
