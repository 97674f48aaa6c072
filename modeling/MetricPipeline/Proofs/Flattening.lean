import MetricPipeline.Proofs.Outcomes
import Mathlib.Data.List.Induction

/-!
# Flattening

Nothing in the form of a `Nested` failure keeps an aggregate from holding others, and `Nested.push` takes apart what is
pushed but not what that holds. It is enough: whatever can be made of failures in this form holds single faults only,
namely those that were pushed, in order (`Nested.Made.flat`). So it is an `Aggregate`, on which the same operations do
the same (`Nested.push_nested`, `Nested.merge_nested`), and merging is associative (`Failure.merge_flat`).
-/

namespace MetricPipeline

/-- A failure in a form that lets an aggregate hold any failures. -/
inductive Nested where
  | single (fault : Fault)
  | aggregate (entries : List Nested)

namespace Nested

mutual

/-- The single faults that it holds at any depth, from left to right. -/
def leaves : Nested → List Fault
  | single fault => [fault]
  | aggregate entries => allLeaves entries

def allLeaves : List Nested → List Fault
  | [] => []
  | e :: rest => leaves e ++ allLeaves rest

end

/-- An aggregate that is pushed is taken apart, and what it holds is not. -/
def push (entries : List Nested) : Nested → List Nested
  | single fault => entries ++ [.single fault]
  | aggregate inner => entries ++ inner

def result (entries : List Nested) : Except Nested Unit :=
  if entries.isEmpty then .ok () else .error (.aggregate entries)

def merge (failures : List Nested) : Except Nested Unit := result (failures.foldl push [])

/-- The failures that can be made, with the faults that were pushed for each, in order. An aggregate is itself a
failure, a result gives it back as one, and what it holds can be taken out. -/
inductive Made : Nested → List Fault → Prop
  | single (fault : Fault) : Made (.single fault) [fault]
  | empty : Made (.aggregate []) []
  | push {entries e pushed more} (all : Made (.aggregate entries) pushed) (failure : Made e more) :
      Made (.aggregate (push entries e)) (pushed ++ more)
  | result {entries e pushed} (all : Made (.aggregate entries) pushed) (failed : result entries = .error e) :
      Made e pushed
  | entry {entries e pushed} (all : Made (.aggregate entries) pushed) (held : e ∈ entries) : Made e e.leaves

end Nested

/-- The form in which an aggregate could hold others; it does not. -/
def Failure.nested : Failure → Nested
  | .single fault => .single fault
  | .aggregate all => .aggregate (all.faults.map .single)

namespace Nested

variable {e : Nested} {entries : List Nested} {pushed : List Fault}

theorem push_nested (all : Aggregate) (failure : Failure) :
    push (all.faults.map .single) failure.nested = (all.push failure).faults.map .single := by
  cases failure <;> simp [Failure.nested, push, Failure.faults]

theorem foldl_push_nested (all : Aggregate) (failures : List Failure) :
    (failures.map Failure.nested).foldl push (all.faults.map .single) =
      (failures.foldl Aggregate.push all).faults.map .single := by
  induction failures generalizing all with
  | nil => rfl
  | cons failure rest ih => rw [List.map_cons, List.foldl_cons, push_nested, ih, List.foldl_cons]

theorem result_nested (all : Aggregate) :
    result (all.faults.map .single) = all.result.mapError Failure.nested := by
  obtain ⟨faults⟩ := all
  cases faults with
  | nil => rfl
  | cons fault rest => rfl

theorem merge_nested (failures : List Failure) :
    merge (failures.map Failure.nested) = (Failure.merge failures).mapError Failure.nested := by
  rw [merge, Failure.merge, ← result_nested, Aggregate.ofList, ← foldl_push_nested]
  rfl

theorem eq_of_result (failed : result entries = .error e) : e = .aggregate entries := by
  unfold result at failed
  split at failed
  · cases failed
  · cases failed
    rfl

/-- What is made is no deeper than what a failure can be, and holds what was pushed. -/
theorem Made.flat (made : Made e pushed) : ∃ failure : Failure, e = failure.nested ∧ failure.faults = pushed := by
  -- An aggregate of entries comes from an aggregate of faults.
  have aggregates : ∀ {entries : List Nested} {pushed : List Fault},
      (∃ failure : Failure, Nested.aggregate entries = failure.nested ∧ failure.faults = pushed) →
      entries = pushed.map .single := by
    rintro entries pushed ⟨failure, same, rfl⟩
    cases failure with
    | single fault => cases same
    | aggregate all => exact aggregate.inj same
  induction made with
  | single fault => exact ⟨.single fault, rfl, rfl⟩
  | empty => exact ⟨.aggregate {}, rfl, rfl⟩
  | @push entries e pushed more _ _ all failure =>
    obtain ⟨failure, rfl, rfl⟩ := failure
    obtain rfl := aggregates all
    exact ⟨.aggregate (Aggregate.push ⟨pushed⟩ failure), congrArg aggregate (push_nested ⟨pushed⟩ failure), rfl⟩
  | @result entries e pushed _ failed all =>
    obtain rfl := eq_of_result failed
    exact all
  | @entry entries e pushed _ held all =>
    obtain rfl := aggregates all
    obtain ⟨fault, -, rfl⟩ := List.mem_map.mp held
    exact ⟨.single fault, rfl, rfl⟩

/-- Every failure can be made by pushing its faults one by one. -/
theorem made (failure : Failure) : Made failure.nested failure.faults := by
  cases failure with
  | single fault => exact .single fault
  | aggregate all =>
    obtain ⟨faults⟩ := all
    induction faults using List.reverseRecOn with
    | nil => exact .empty
    | append_singleton faults fault ih =>
      have pushed : Made (.aggregate (push (faults.map .single) (Failure.single fault).nested)) (faults ++ [fault]) :=
        ih.push (.single fault)
      rw [push_nested ⟨faults⟩] at pushed
      exact pushed

end Nested

namespace Aggregate

theorem heading_eq (count : Nat) :
    heading count = toString count ++ (if count = 1 then " error" else " errors") ++ " occurred:" := by
  unfold heading
  split
  · rename_i one
    subst one
    rfl
  · rw [String.append_assoc]
    rfl

/-- The heading is followed by a line for each fault. -/
theorem display_eq (all : Aggregate) :
    all.display = heading all.size ++ String.join (all.faults.map fun fault => "\n\t* " ++ fault.display) := by
  have lines : ∀ (faults : List Fault) (text : String),
      faults.foldl (fun text fault => text ++ "\n\t* " ++ fault.display) text =
        text ++ String.join (faults.map fun fault => "\n\t* " ++ fault.display) := by
    intro faults
    induction faults with
    | nil => simp
    | cons fault rest ih =>
      intro text
      rw [List.foldl_cons, ih, List.map_cons, String.join_cons]
      simp only [String.append_assoc]
  exact lines all.faults (heading all.size)

end Aggregate

namespace Failure

/-- The failure that a result is, if it is one. -/
def ofResult? : Except Failure Unit → Option Failure
  | .ok _ => none
  | .error failure => some failure

/-- Merging keeps all faults, in order. -/
theorem flatMap_ofResult?_merge (failures : List Failure) :
    (ofResult? (merge failures)).toList.flatMap faults = failures.flatMap faults := by
  rw [merge_eq]
  split
  · rename_i none_left
    exact none_left.symm
  · simp [ofResult?, faults]

theorem merge_congr {xs ys : List Failure} (same : xs.flatMap faults = ys.flatMap faults) : merge xs = merge ys := by
  rw [merge_eq, merge_eq, same]

/-- Whatever failures can be made, by pushing, merging and taking apart to any depth, are single faults and aggregates
of single faults, which are those that were pushed, in order. They are what an aggregate counts and shows, one line
each. So it makes no difference whether some of them were merged before the others, or twice. -/
theorem merge_flat :
    (∀ e pushed, Nested.Made e pushed → ∃ failure : Failure, e = failure.nested ∧ failure.faults = pushed) ∧
    (∀ entries pushed, Nested.Made (.aggregate entries) pushed →
      entries = pushed.map .single ∧
      ∃ all : Aggregate, (aggregate all).nested = .aggregate entries ∧ all.faults = pushed ∧
        all.size = pushed.length ∧ (all.isEmpty = true ↔ pushed = []) ∧
        (aggregate all).message = toString pushed.length ++ " errors" ∧
        (aggregate all).display = toString pushed.length ++ (if pushed.length = 1 then " error" else " errors") ++
          " occurred:" ++ String.join (pushed.map fun fault => "\n\t* " ++ fault.display)) ∧
    (∀ failures : List Failure,
      Nested.merge (failures.map nested) = (merge failures).mapError nested ∧
        (ofResult? (merge failures)).toList.flatMap faults = failures.flatMap faults) ∧
    (∀ xs ys zs, merge (xs ++ (ofResult? (merge ys)).toList ++ zs) = merge (xs ++ ys ++ zs)) ∧
    ∀ xs, merge (ofResult? (merge xs)).toList = merge xs := by
  refine ⟨fun e pushed made => made.flat, ?_, ?_, ?_, ?_⟩
  · intro entries pushed made
    obtain ⟨failure, same, rfl⟩ := made.flat
    cases failure with
    | single fault => cases same
    | aggregate all =>
      refine ⟨Nested.aggregate.inj same, all, same.symm, rfl, rfl, List.isEmpty_iff, rfl, ?_⟩
      rw [display, Aggregate.display_eq, Aggregate.heading_eq]
      rfl
  · exact fun failures => ⟨Nested.merge_nested failures, flatMap_ofResult?_merge failures⟩
  · intro xs ys zs
    apply merge_congr
    simp only [List.flatMap_append, flatMap_ofResult?_merge]
  · exact fun xs => merge_congr (flatMap_ofResult?_merge xs)

/-- An aggregate that was pushed into one that was pushed into another. -/
theorem merge_flat_pushed_twice :
    ∃ all : Aggregate, all.size = 4 ∧ (aggregate all).display =
      "4 errors occurred:\n\t* disk\n\t* socket\n\t* component released more times than it was acquired\n\t* cache" := by
  have inner := (Nested.Made.empty.push (.single (.failed "socket"))).push (.single .releaseUnderflow)
  have middle := (Nested.Made.empty.push (.single (.failed "disk"))).push inner
  have outer := (Nested.Made.empty.push middle).push (.single (.failed "cache"))
  obtain ⟨-, all, -, -, size, -, -, display⟩ := merge_flat.2.1 _ _ outer
  exact ⟨all, size, display⟩

end Failure
end MetricPipeline
