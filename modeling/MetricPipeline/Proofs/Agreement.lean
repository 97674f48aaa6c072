import MetricPipeline.Proofs.Completion
import Mathlib.Algebra.Group.Nat.Defs

/-!
# When reports agree

Doubles are compared by what their patterns stand for. Different patterns stand for different quantities, up to the
sign of zero and to those that are not a number (`Double.quantity_eq_iff`), so which samples agree can be told from
their patterns (`Sample.agrees_iff`). Agreement of reports is symmetric and transitive, and only a report of
not-a-number does not agree with itself. Edits keep it, and what two sequences of edits leave decides whether the
reports that they complete agree (`Report.agrees_partial_equivalence`).
-/

namespace MetricPipeline

namespace Double

variable {d e : Double}

/-- The pattern without its sign. -/
def unsigned (d : Double) : Nat := d.bits.toNat % 2 ^ 63

/-- Up to its sign the pattern lies above that of infinity: the exponent is all ones and the fraction is not zero. -/
def NotANumber (d : Double) : Prop := 0x7FF0000000000000 < d.unsigned

/-- Zero of either sign. -/
def IsZero (d : Double) : Prop := d.bits = 0 ∨ d.bits = 0x8000000000000000

theorem exponent_lt (d : Double) : d.exponent < 2048 := Nat.mod_lt _ (by decide)

theorem fraction_lt (d : Double) : d.fraction < 2 ^ 52 := Nat.mod_lt _ (by decide)

theorem unsigned_eq (d : Double) : d.unsigned = d.exponent * 2 ^ 52 + d.fraction := by
  simp only [unsigned, exponent, fraction, Nat.shiftRight_eq_div_pow, Nat.shiftLeft_eq, Nat.one_mul]
  omega

theorem bits_eq (same : d.unsigned = e.unsigned) (sign : d.isNegative = e.isNegative) : d.bits = e.bits := by
  have first := d.bits.toNat_lt
  have second := e.bits.toNat_lt
  simp only [unsigned] at same
  simp only [isNegative, Nat.shiftLeft_eq, Nat.one_mul, decide_eq_decide] at sign
  apply UInt64.toNat_inj.mp
  omega

theorem isZero_iff : d.IsZero ↔ d.unsigned = 0 := by
  have bound := d.bits.toNat_lt
  rw [IsZero, ← UInt64.toNat_inj, ← UInt64.toNat_inj]
  change d.bits.toNat = 0 ∨ d.bits.toNat = 2 ^ 63 ↔ d.bits.toNat % 2 ^ 63 = 0
  omega

/-! ## Sizes -/

theorem magnitude_of_subnormal (lowest : d.exponent = 0) : d.magnitude = d.fraction := by
  rw [magnitude, if_pos lowest]

theorem magnitude_of_normal {k : Nat} (normal : d.exponent = k + 1) :
    d.magnitude = (2 ^ 52 + d.fraction) * 2 ^ k := by
  rw [magnitude, if_neg (by omega), normal, Nat.shiftLeft_eq, Nat.shiftLeft_eq, Nat.one_mul, Nat.add_sub_cancel]

theorem magnitude_lt (d : Double) : d.magnitude < 2 ^ (52 + d.exponent) := by
  have bound := d.fraction_lt
  cases exponent : d.exponent with
  | zero => rwa [magnitude_of_subnormal exponent]
  | succ k =>
    rw [magnitude_of_normal exponent]
    calc (2 ^ 52 + d.fraction) * 2 ^ k < 2 ^ 53 * 2 ^ k :=
          Nat.mul_lt_mul_of_pos_right (by omega) (Nat.two_pow_pos k)
      _ = 2 ^ (52 + (k + 1)) := by rw [← Nat.pow_add]; congr 1; omega

theorem le_magnitude {k : Nat} (normal : d.exponent = k + 1) : 2 ^ (52 + k) ≤ d.magnitude := by
  rw [magnitude_of_normal normal, Nat.pow_add]
  exact Nat.mul_le_mul_right _ (Nat.le_add_right ..)

theorem magnitude_lt_of_exponent_lt (less : d.exponent < e.exponent) : d.magnitude < e.magnitude := by
  obtain ⟨k, normal⟩ := Nat.exists_eq_add_one_of_ne_zero (Nat.ne_zero_of_lt less)
  calc d.magnitude < 2 ^ (52 + d.exponent) := d.magnitude_lt
    _ ≤ 2 ^ (52 + k) := Nat.pow_le_pow_right (by decide) (by omega)
    _ ≤ e.magnitude := le_magnitude normal

/-- The size tells the pattern but for its sign. -/
theorem unsigned_eq_of_magnitude (same : d.magnitude = e.magnitude) : d.unsigned = e.unsigned := by
  have exponents : d.exponent = e.exponent := by
    rcases Nat.lt_trichotomy d.exponent e.exponent with less | equal | more
    · exact absurd same (Nat.ne_of_lt (magnitude_lt_of_exponent_lt less))
    · exact equal
    · exact absurd same.symm (Nat.ne_of_lt (magnitude_lt_of_exponent_lt more))
  have fractions : d.fraction = e.fraction := by
    cases exponent : e.exponent with
    | zero =>
      rw [exponent] at exponents
      rwa [magnitude_of_subnormal exponents, magnitude_of_subnormal exponent] at same
    | succ k =>
      rw [exponent] at exponents
      rw [magnitude_of_normal exponents, magnitude_of_normal exponent] at same
      exact Nat.add_left_cancel (Nat.eq_of_mul_eq_mul_right (Nat.two_pow_pos k) same)
  rw [unsigned_eq, unsigned_eq, exponents, fractions]

theorem unsigned_eq_zero_of_magnitude (nothing : d.magnitude = 0) : d.unsigned = 0 :=
  unsigned_eq_of_magnitude (e := ⟨0⟩) nothing

/-! ## Quantities -/

theorem isNaN_iff : d.isNaN = true ↔ d.NotANumber := by
  have exponent := d.exponent_lt
  have fraction := d.fraction_lt
  rw [isNaN, decide_eq_true_eq, quantity, NotANumber, unsigned_eq, Nat.shiftLeft_eq]
  split
  · split
    · simp only [reduceCtorEq, false_iff]
      omega
    · simp only [true_iff]
      omega
  · simp only [reduceCtorEq, false_iff]
    omega

theorem IsZero.quantity (zero : d.IsZero) : d.quantity = .finite 0 := by
  obtain ⟨bits⟩ := d
  rcases zero with rfl | rfl <;> decide

theorem of_quantity_infinite {negative : Bool} (infinite : d.quantity = .infinite negative) :
    d.unsigned = 2047 * 2 ^ 52 ∧ d.isNegative = negative := by
  rw [Double.quantity, Nat.shiftLeft_eq] at infinite
  split at infinite
  · rename_i exponent
    split at infinite
    · rename_i fraction
      constructor
      · rw [unsigned_eq]
        omega
      · exact Quantity.infinite.inj infinite
    · cases infinite
  · cases infinite

theorem of_quantity_finite {units : Int} (finite : d.quantity = .finite units) :
    units = if d.isNegative then -(d.magnitude : Int) else d.magnitude := by
  rw [Double.quantity] at finite
  split at finite
  · split at finite <;> cases finite
  · exact (Quantity.finite.inj finite).symm

/-- Patterns that stand for one quantity are the same, or they are zeros. -/
theorem quantity_eq_iff (number : ¬d.NotANumber) :
    d.quantity = e.quantity ↔ d.bits = e.bits ∨ d.IsZero ∧ e.IsZero := by
  constructor
  · intro same
    cases left : d.quantity with
    | notANumber => exact absurd (isNaN_iff.mp (decide_eq_true left)) number
    | infinite negative =>
      obtain ⟨first, sign⟩ := of_quantity_infinite left
      obtain ⟨second, sign'⟩ := of_quantity_infinite (same.symm.trans left)
      exact .inl (bits_eq (first.trans second.symm) (sign.trans sign'.symm))
    | finite units =>
      have first := of_quantity_finite left
      have second := of_quantity_finite (same.symm.trans left)
      by_cases sign : d.isNegative = e.isNegative
      · have magnitudes : d.magnitude = e.magnitude := by
          rw [first, sign] at second
          split at second <;> omega
        exact .inl (bits_eq (unsigned_eq_of_magnitude magnitudes) sign)
      · -- Only nothing is its own opposite.
        have magnitudes : d.magnitude = 0 ∧ e.magnitude = 0 := by
          rw [first, Bool.eq_not_of_ne sign] at second
          cases negative : e.isNegative <;> simp [negative] at second <;> omega
        right
        constructor
        · exact isZero_iff.mpr (unsigned_eq_zero_of_magnitude magnitudes.1)
        · exact isZero_iff.mpr (unsigned_eq_zero_of_magnitude magnitudes.2)
  · rintro (same | ⟨first, second⟩)
    · obtain ⟨bits⟩ := d
      cases same
      rfl
    · rw [first.quantity, second.quantity]

theorem agrees_eq_true : d.agrees e = true ↔ d.isNaN = false ∧ d.quantity = e.quantity := by
  simp [agrees]

theorem isNaN_congr (same : d.quantity = e.quantity) : d.isNaN = e.isNaN := by
  rw [isNaN, isNaN, same]

theorem agrees_symm (same : d.agrees e = true) : e.agrees d = true := by
  rw [agrees_eq_true] at *
  exact ⟨isNaN_congr same.2 ▸ same.1, same.2.symm⟩

theorem agrees_comm (d e : Double) : d.agrees e = e.agrees d := Bool.eq_iff_iff.mpr ⟨agrees_symm, agrees_symm⟩

theorem agrees_trans {f : Double} (first : d.agrees e = true) (second : e.agrees f = true) : d.agrees f = true := by
  rw [agrees_eq_true] at *
  exact ⟨first.1, first.2.trans second.2⟩

theorem agrees_iff :
    d.agrees e = true ↔ ¬d.NotANumber ∧ ¬e.NotANumber ∧ (d.bits = e.bits ∨ d.IsZero ∧ e.IsZero) := by
  rw [agrees_eq_true, ← Bool.not_eq_true, isNaN_iff]
  constructor
  · rintro ⟨number, same⟩
    refine ⟨number, ?_, (quantity_eq_iff number).mp same⟩
    rwa [← isNaN_iff, ← isNaN_congr same, isNaN_iff]
  · rintro ⟨number, -, patterns⟩
    exact ⟨number, (quantity_eq_iff number).mpr patterns⟩

end Double

namespace Sample

variable {a b c : Sample}

def NotANumber : Sample → Prop
  | .int _ => False
  | .double d => d.NotANumber

/-- Both are integers and the same, or both are doubles, neither is not-a-number, and their patterns are the same or
those of zeros. -/
def SameNumber : Sample → Sample → Prop
  | .int m, .int n => m = n
  | .double d, .double e => ¬d.NotANumber ∧ ¬e.NotANumber ∧ (d.bits = e.bits ∨ d.IsZero ∧ e.IsZero)
  | _, _ => False

theorem agrees_iff : a.agrees b = true ↔ a.SameNumber b := by
  cases a <;> cases b <;> simp [agrees, SameNumber, Double.agrees_iff]

theorem agrees_comm (a b : Sample) : a.agrees b = b.agrees a := by
  cases a <;> cases b <;> simp [agrees, Double.agrees_comm, eq_comm]

theorem agrees_trans (first : a.agrees b = true) (second : b.agrees c = true) : a.agrees c = true := by
  cases a <;> cases b <;> cases c <;> simp only [agrees, Bool.false_eq_true, decide_eq_true_eq] at first second ⊢
  · exact first.trans second
  · exact Double.agrees_trans first second

theorem agrees_self_iff (a : Sample) : a.agrees a = true ↔ ¬a.NotANumber := by
  rw [agrees_iff]
  cases a <;> simp [SameNumber, NotANumber]

end Sample

namespace Report

variable {a b c : Report}

theorem agrees_eq_true :
    a.agrees b = true ↔ a.name = b.name ∧ a.start = b.start ∧ a.stop = b.stop ∧
      (∀ key, a.labels.get? key = b.labels.get? key) ∧ a.value.agrees b.value = true := by
  have labels : a.labels = b.labels ↔ ∀ key, a.labels.get? key = b.labels.get? key :=
    ⟨fun same key => by rw [same], Table.ext_get?⟩
  rw [← labels]
  simp only [agrees, Bool.and_eq_true, decide_eq_true_eq]
  constructor
  · rintro ⟨⟨⟨⟨name, start⟩, stop⟩, value⟩, labels⟩
    exact ⟨name, start, stop, labels, value⟩
  · rintro ⟨name, start, stop, labels, value⟩
    exact ⟨⟨⟨⟨name, start⟩, stop⟩, value⟩, labels⟩

theorem agrees_comm (a b : Report) : a.agrees b = b.agrees a := by
  simp only [agrees, Sample.agrees_comm, eq_comm]

theorem agrees_trans (first : a.agrees b = true) (second : b.agrees c = true) : a.agrees c = true := by
  rw [agrees_eq_true] at *
  obtain ⟨name, start, stop, labels, value⟩ := first
  obtain ⟨name', start', stop', labels', value'⟩ := second
  exact ⟨name.trans name', start.trans start', stop.trans stop', fun key => (labels key).trans (labels' key),
    Sample.agrees_trans value value'⟩

theorem agrees_self_iff (a : Report) : a.agrees a = true ↔ ¬a.value.NotANumber := by
  rw [agrees_eq_true, Sample.agrees_self_iff]
  simp

theorem edit_agrees (same : a.agrees b = true) (e : Edit) : (a.edit e).agrees (b.edit e) = true := by
  simp only [agrees, Bool.and_eq_true, decide_eq_true_eq] at same ⊢
  obtain ⟨⟨⟨⟨name, start⟩, stop⟩, value⟩, labels⟩ := same
  cases e with
  | interval start' stop' => exact ⟨⟨⟨⟨name, rfl⟩, rfl⟩, value⟩, labels⟩
  | label key value' => exact ⟨⟨⟨⟨name, start⟩, stop⟩, value⟩, congrArg (·.insert key value') labels⟩
  | labels all => exact ⟨⟨⟨⟨name, start⟩, stop⟩, value⟩, rfl⟩

theorem foldl_agrees (same : a.agrees b = true) (edits : List Edit) :
    (edits.foldl edit a).agrees (edits.foldl edit b) = true := by
  induction edits generalizing a b with
  | nil => exact same
  | cons e rest ih => exact ih (edit_agrees same e)

/-- Which edits complete a report, and in which order, shows in what they leave only. -/
theorem build_agrees_iff (now now' : Timestamp) (name : String) (value : Sample) (edits edits' : List Edit) :
    (build now name value edits).agrees (build now' name value edits') = true ↔
      ¬value.NotANumber ∧ (lastInterval edits).getD (now, now) = (lastInterval edits').getD (now', now') ∧
      ∀ key, binding? edits key = binding? edits' key := by
  simp only [agrees_eq_true, name_build, value_build, get?_build, Sample.agrees_self_iff, ← interval_build now name value,
    ← interval_build now' name value, Prod.mk.injEq]
  tauto

/-- Agreement is symmetric and transitive, and fails between a report and itself only if it reports not-a-number.
Reports agree if and only if they have the same name and times, bind the same labels, and have values that are the same
number. It is kept by any sequence of edits; and of two sequences of edits, whatever their orders, it matters only which
interval they set last and what they bind each label to in the end. -/
theorem agrees_partial_equivalence :
    (∀ a b : Report, a.agrees b = b.agrees a) ∧
    (∀ a b c : Report, a.agrees b = true → b.agrees c = true → a.agrees c = true) ∧
    (∀ a : Report, a.agrees a = true ↔ ¬a.value.NotANumber) ∧
    (∀ a b : Report, a.agrees b = true ↔ a.name = b.name ∧ a.start = b.start ∧ a.stop = b.stop ∧
      (∀ key, a.labels.get? key = b.labels.get? key) ∧ a.value.SameNumber b.value) ∧
    (∀ (a b : Report) (edits : List Edit), a.agrees b = true →
      (edits.foldl edit a).agrees (edits.foldl edit b) = true) ∧
    ∀ now now' name value edits edits',
      (build now name value edits).agrees (build now' name value edits') = true ↔
        ¬value.NotANumber ∧ (lastInterval edits).getD (now, now) = (lastInterval edits').getD (now', now') ∧
        ∀ key, binding? edits key = binding? edits' key := by
  refine ⟨agrees_comm, fun _ _ _ => agrees_trans, agrees_self_iff, ?_, fun _ _ edits same => foldl_agrees same edits,
    build_agrees_iff⟩
  intro a b
  rw [agrees_eq_true, Sample.agrees_iff]

/-- The reports differ in the sign of zero, and their labels were written in different orders. -/
def idle : Report := build .epoch "load" (.double ⟨0⟩) [.label "zone" "b", .label "host" "a"]

def idleBelow : Report :=
  build .epoch "load" (.double ⟨0x8000000000000000⟩) [.label "host" "c", .label "zone" "b", .label "host" "a"]

theorem agrees_partial_equivalence_zeros :
    idle ≠ idleBelow ∧ idle.agrees idleBelow = true ∧ idleBelow.agrees idle = true ∧ idle.agrees idle = true ∧
    (idle.withLabel "zone" "d").agrees (idleBelow.withLabel "zone" "d") = true ∧
    (build .epoch "load" (.double ⟨0x7FF8000000000000⟩) []).agrees
      (build .epoch "load" (.double ⟨0x7FF8000000000000⟩) []) = false := by
  obtain ⟨symmetric, transitive, reflexive, -, kept, -⟩ := agrees_partial_equivalence
  have same : idle.agrees idleBelow = true := by decide
  have back : idleBelow.agrees idle = true := symmetric idle idleBelow ▸ same
  refine ⟨by decide, same, back, transitive _ _ _ same back, kept _ _ [.label "zone" "d"] same, ?_⟩
  rw [← Bool.not_eq_true, reflexive, not_not]
  change 0x7FF0000000000000 < 0x7FF8000000000000 % 2 ^ 63
  decide

end Report

end MetricPipeline
