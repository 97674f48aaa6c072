import MetricPipeline.Table
import Mathlib.Data.List.Dedup
import Mathlib.Data.List.Induction
import Mathlib.Tactic.SplitIfs

/-!
# Tables and the pairs they are made of

A table made of a list of pairs binds each key of the list to the value of the last pair under it (`get?_ofList`), so
it is the same for all lists that agree under every key (`ofList_congr`), in whatever order they name different keys.
Its keys are those of the list, each once (`keys_ofList`), in the order of the bytes that spell them in UTF-8
(`keys_increasing`): code points are compared as the bytes are (`utf8_lt_iff`).
-/

namespace MetricPipeline

/-! ## The order of bytes -/

/-- The bytes that spell a name. -/
def utf8 (name : String) : List UInt8 := name.toUTF8.data.toList

theorem utf8_eq (name : String) : utf8 name = name.toList.flatMap String.utf8EncodeChar := by
  have spelled : name.toUTF8 = name.toList.utf8Encode := by
    conv => lhs; rw [← String.ofList_toList (s := name)]
    simp
  rw [utf8, spelled, List.utf8Encode, List.data_toByteArray]

/-- Of two sequences of bytes, what follows counts only if the first bytes are the same. -/
theorem byte_lt {i j : Nat} {xs ys : List UInt8} (bound : j < 256) (le : i ≤ j) (rest : i = j → xs < ys) :
    UInt8.ofNat i :: xs < UInt8.ofNat j :: ys := by
  rw [List.cons_lt_cons_iff]
  obtain less | same := Nat.lt_or_eq_of_le le
  · refine .inl ?_
    rw [UInt8.lt_iff_toNat_lt, UInt8.toNat_ofNat_of_lt' (Nat.lt_trans less bound), UInt8.toNat_ofNat_of_lt' bound]
    exact less
  · exact .inr ⟨by rw [same], rest same⟩

/-- The bytes of two characters first differ as the characters do, whatever follows them. -/
theorem utf8EncodeChar_lt {c d : Char} (less : c < d) (xs ys : List UInt8) :
    String.utf8EncodeChar c ++ xs < String.utf8EncodeChar d ++ ys := by
  have less : c.val.toNat < d.val.toNat := less
  have bound : d.val.toNat < 1114112 := by
    obtain low | ⟨-, high⟩ := d.valid
    · exact Nat.lt_trans low (by decide)
    · exact high
  unfold String.utf8EncodeChar
  generalize c.val.toNat = m at less ⊢
  generalize d.val.toNat = n at less bound ⊢
  dsimp only
  split_ifs
  -- A longer spelling begins with a greater byte, and spellings of one length are digits to the base 64.
  all_goals first
    | omega
    | simp only [List.cons_append, List.nil_append]
      repeat refine byte_lt (by omega) (by omega) fun same => ?_
      omega

theorem flatMap_utf8EncodeChar_lt {cs ds : List Char} (less : cs < ds) :
    cs.flatMap String.utf8EncodeChar < ds.flatMap String.utf8EncodeChar := by
  induction cs generalizing ds with
  | nil =>
    cases ds with
    | nil => exact absurd less (List.not_lt_nil _)
    | cons d ds =>
      cases bytes : (d :: ds).flatMap String.utf8EncodeChar with
      | nil =>
        have absent := List.flatMap_eq_nil_iff.mp bytes d List.mem_cons_self
        exact absurd absent (String.utf8EncodeChar_ne_nil)
      | cons b bs => exact List.nil_lt_cons b bs
  | cons c cs ih =>
    cases ds with
    | nil => exact absurd less (List.not_lt_nil _)
    | cons d ds =>
      rw [List.flatMap_cons, List.flatMap_cons]
      obtain first | ⟨rfl, later⟩ := List.cons_lt_cons_iff.mp less
      · exact utf8EncodeChar_lt first ..
      · exact List.append_left_lt (ih later)

/-- Names are in the order of the bytes that spell them. -/
theorem utf8_lt_iff {s t : String} : utf8 s < utf8 t ↔ s < t := by
  have monotone : ∀ {s t : String}, s < t → utf8 s < utf8 t := by
    intro s t less
    rw [utf8_eq, utf8_eq]
    exact flatMap_utf8EncodeChar_lt (String.lt_iff.mp less)
  refine ⟨fun less => ?_, monotone⟩
  by_contra other
  obtain more | same := Std.le_iff_lt_or_eq.mp (String.not_lt.mp other)
  · exact List.lt_asymm less (monotone more)
  · exact List.lt_irrefl _ (same ▸ less)

/-! ## The last pair under a key -/

section

variable {α : Type}

/-- The value of the last pair under a key. -/
def lastUnder (key : String) (pairs : List (String × α)) : Option α :=
  (pairs.filter (·.1 = key)).getLast?.map (·.2)

theorem lastUnder_append (key : String) (pairs : List (String × α)) (p : String × α) :
    lastUnder key (pairs ++ [p]) = if p.1 = key then some p.2 else lastUnder key pairs := by
  unfold lastUnder
  by_cases here : p.1 = key <;> simp [List.filter_append, here]

theorem mem_of_lastUnder {key : String} {pairs : List (String × α)} {value : α}
    (last : lastUnder key pairs = some value) : (key, value) ∈ pairs := by
  obtain ⟨⟨k, v⟩, under, rfl⟩ := Option.map_eq_some_iff.mp last
  obtain ⟨mem, same⟩ := List.mem_filter.mp (List.mem_of_getLast? under)
  rwa [← of_decide_eq_true same]

/-- The lists have the same pairs under each key in the same order, so they differ only in how the pairs with
different keys stand to each other. -/
def SameUnderEachKey (pairs pairs' : List (String × α)) : Prop :=
  ∀ key, pairs.filter (·.1 = key) = pairs'.filter (·.1 = key)

namespace SameUnderEachKey

variable {pairs pairs' : List (String × α)}

theorem swap {p q : String × α} (differ : p.1 ≠ q.1) (before after : List (String × α)) :
    SameUnderEachKey (before ++ p :: q :: after) (before ++ q :: p :: after) := by
  intro key
  by_cases first : p.1 = key
  · have second : q.1 ≠ key := fun same => differ (first.trans same.symm)
    simp [List.filter_append, first, second]
  · simp [List.filter_append, List.filter_cons, first]

end SameUnderEachKey

namespace Table

theorem ofList_append (pairs : List (String × α)) (p : String × α) :
    ofList (pairs ++ [p]) = (ofList pairs).insert p.1 p.2 := by
  simp [ofList]

theorem get?_ofList (pairs : List (String × α)) (key : String) : (ofList pairs).get? key = lastUnder key pairs := by
  induction pairs using List.reverseRecOn with
  | nil => rfl
  | append_singleton pairs p ih => rw [ofList_append, get?_insert, lastUnder_append, ih]

theorem ofList_congr {pairs pairs' : List (String × α)} (same : SameUnderEachKey pairs pairs') :
    ofList pairs = ofList pairs' := by
  apply ext_get?
  intro key
  rw [get?_ofList, get?_ofList, lastUnder, lastUnder, same key]

theorem keys_increasing (t : Table α) : t.keys.Pairwise (fun a b => utf8 a < utf8 b) := by
  refine List.pairwise_map.mpr (t.increasing.imp fun less => ?_)
  exact utf8_lt_iff.mpr less

theorem keys_nodup (t : Table α) : t.keys.Nodup := by
  refine t.keys_increasing.imp fun less same => ?_
  rw [same] at less
  exact List.lt_irrefl _ less

theorem mem_keys_ofList (pairs : List (String × α)) (key : String) :
    key ∈ (ofList pairs).keys ↔ key ∈ pairs.map (·.1) := by
  rw [mem_keys_iff, get?_ofList, lastUnder, Option.isSome_map, List.getLast?_isSome, ne_eq, List.filter_eq_nil_iff]
  simp [eq_comm]

theorem keys_ofList (pairs : List (String × α)) : (ofList pairs).keys.Perm (pairs.map (·.1)).dedup := by
  apply (List.perm_ext_iff_of_nodup (keys_nodup _) (List.nodup_dedup _)).mpr
  intro key
  rw [mem_keys_ofList, List.mem_dedup]

/-- A value is bound as often as there are keys that are bound to it. -/
theorem countP_entries [DecidableEq α] (t : Table α) (value : α) :
    t.entries.countP (·.2 == value) = t.keys.countP (fun key => t.get? key == some value) := by
  rw [keys, List.countP_map]
  apply List.countP_congr
  intro e mem
  simp [(t.mem_entries_iff e.1 e.2).mp mem]

end Table

end

end MetricPipeline
