import MetricPipeline.Report
import MetricPipeline.Proofs.Bindings
import Mathlib.Data.List.DropRight

/-!
# Completing a report

However a report is completed, of the edits that write to one part of it the last counts: the interval is the one that
was set last, and a label has the value that was last written to it since all labels were replaced
(`Report.interval_build`, `Report.get?_build`). Edits that write to different parts may change places
(`Report.Edit.Apart.comm`), and what was written before all labels are replaced leaves no trace in them
(`Report.labels_foldl`).
-/

namespace MetricPipeline

theorem Table.insert_comm {α : Type} (t : Table α) {key key' : String} (value value' : α) (differ : key ≠ key') :
    (t.insert key value).insert key' value' = (t.insert key' value').insert key value := by
  apply ext_get?
  intro k
  simp only [get?_insert]
  by_cases first : key = k
  · have second : key' ≠ k := fun same => differ (first.trans same.symm)
    simp [first, second]
  · simp [first]

theorem getLast?_filterMap_append {α β : Type} (f : α → Option β) (xs : List α) (x : α) :
    ((xs ++ [x]).filterMap f).getLast? = (f x).or (xs.filterMap f).getLast? := by
  rw [List.filterMap_append, List.getLast?_append]
  cases value : f x <;> simp [value]

namespace Report

namespace Edit

def interval? : Edit → Option (Timestamp × Timestamp)
  | .interval start stop => some (start, stop)
  | _ => none

/-- What all labels are replaced with. -/
def labels? : Edit → Option (Table String)
  | .labels all => some all
  | _ => none

def label? : Edit → Option (String × String)
  | .label key value => some (key, value)
  | _ => none

/-- The edits write to different parts of a report. -/
inductive Apart : Edit → Edit → Prop
  | label (start stop : Timestamp) (key value : String) : Apart (.interval start stop) (.label key value)
  | labels (start stop : Timestamp) (all : Table String) : Apart (.interval start stop) (.labels all)
  | keys {key key' : String} (value value' : String) (differ : key ≠ key') :
      Apart (.label key value) (.label key' value')

theorem Apart.comm {e e' : Edit} (apart : e.Apart e') (r : Report) : (r.edit e).edit e' = (r.edit e').edit e := by
  cases apart with
  | label => rfl
  | labels => rfl
  | keys value value' differ =>
    have labels := r.labels.insert_comm value value' differ
    simp only [edit, withLabel, labels]

end Edit

/-! ## What the edits leave -/

def lastInterval (edits : List Edit) : Option (Timestamp × Timestamp) := (edits.filterMap Edit.interval?).getLast?

def lastLabels (edits : List Edit) : Option (Table String) := (edits.filterMap Edit.labels?).getLast?

/-- The labels that were written one by one since all were last replaced, in order. -/
def written (edits : List Edit) : List (String × String) :=
  (edits.rtakeWhile (·.labels?.isNone)).filterMap Edit.label?

/-- The value that was last written to a label since all were last replaced, or that it was given then. -/
def binding? (edits : List Edit) (key : String) : Option String :=
  (lastUnder key (written edits)).or (((lastLabels edits).getD .empty).get? key)

section

variable (edits : List Edit) (e : Edit)

theorem lastInterval_append : lastInterval (edits ++ [e]) = e.interval?.or (lastInterval edits) :=
  getLast?_filterMap_append ..

theorem lastLabels_append : lastLabels (edits ++ [e]) = e.labels?.or (lastLabels edits) :=
  getLast?_filterMap_append ..

theorem written_append :
    written (edits ++ [e]) = if e.labels?.isNone then written edits ++ e.label?.toList else [] := by
  unfold written
  rw [List.rtakeWhile_concat]
  split
  · rw [List.filterMap_append]
    cases e <;> rfl
  · rfl

theorem binding?_append (key : String) :
    binding? (edits ++ [e]) key = match e with
      | .interval _ _ => binding? edits key
      | .label key' value => if key' = key then some value else binding? edits key
      | .labels all => all.get? key := by
  unfold binding?
  rw [lastLabels_append, written_append]
  cases e with
  | interval start stop => simp [Edit.labels?, Edit.label?]
  | label key' value =>
    simp only [Edit.labels?, Edit.label?, Option.isNone_none, if_true, Option.toList_some, Option.none_or,
      lastUnder_append]
    split <;> simp
  | labels all => simp [Edit.labels?, lastUnder]

end

/-! ## What a report is completed to -/

section

variable (now : Timestamp) (name : String) (value : Sample) (edits : List Edit)

theorem build_append (e : Edit) : build now name value (edits ++ [e]) = (build now name value edits).edit e := by
  simp [build]

/-- What no edit writes to stays as the report was made. -/
theorem build_keeps {α : Type} {part : Report → α} (kept : ∀ r e, part (edit r e) = part r) :
    part (build now name value edits) = part (new now name value) := by
  induction edits using List.reverseRecOn with
  | nil => rfl
  | append_singleton edits e ih => rw [build_append, kept, ih]

theorem name_build : (build now name value edits).name = name :=
  build_keeps now name value edits fun _ e => by cases e <;> rfl

theorem value_build : (build now name value edits).value = value :=
  build_keeps now name value edits fun _ e => by cases e <;> rfl

theorem interval_build :
    ((build now name value edits).start, (build now name value edits).stop) =
      (lastInterval edits).getD (now, now) := by
  induction edits using List.reverseRecOn with
  | nil => rfl
  | append_singleton edits e ih =>
    rw [build_append, lastInterval_append]
    cases e with
    | interval start stop => rfl
    | label key value => exact ih
    | labels all => exact ih

theorem get?_build (key : String) : (build now name value edits).labels.get? key = binding? edits key := by
  induction edits using List.reverseRecOn with
  | nil => rfl
  | append_singleton edits e ih =>
    rw [build_append, binding?_append]
    cases e with
    | interval start stop => exact ih
    | label key' value => exact (Table.get?_insert ..).trans (by rw [ih])
    | labels all => rfl

/-- The labels come from labels only. -/
theorem labels_foldl {r r' : Report} (same : r.labels = r'.labels) :
    (edits.foldl edit r).labels = (edits.foldl edit r').labels := by
  induction edits generalizing r r' with
  | nil => exact same
  | cons e rest ih =>
    apply ih
    cases e with
    | interval start stop => exact same
    | label key value => exact congrArg (·.insert key value) same
    | labels all => rfl

end

/-- A completed report has the name and the value it was made with, the interval that was set last, even one that ends
before it starts, and of each key the value that was written last since all labels were replaced, or that it was given
then; the keys increase in the order of their bytes. Edits to different parts may change places anywhere, and neither
the edits before all labels are replaced nor what the report was made with show in its labels. -/
theorem last_edit_counts (now : Timestamp) (name : String) (value : Sample) :
    (∀ edits,
      (build now name value edits).name = name ∧ (build now name value edits).value = value ∧
      ((build now name value edits).start, (build now name value edits).stop) =
        (lastInterval edits).getD (now, now) ∧
      (∀ key label, (key, label) ∈ (build now name value edits).labels.entries ↔
        (lastUnder key (written edits)).or (((lastLabels edits).getD .empty).get? key) = some label) ∧
      (build now name value edits).labels.keys.Pairwise (fun a b => utf8 a < utf8 b)) ∧
    (∀ before e e' after, Edit.Apart e e' →
      build now name value (before ++ e :: e' :: after) = build now name value (before ++ e' :: e :: after)) ∧
    ∀ before all after now' name' value' before',
      (build now name value (before ++ .labels all :: after)).labels =
        (build now' name' value' (before' ++ .labels all :: after)).labels := by
  refine ⟨fun edits => ⟨name_build .., value_build .., interval_build .., ?_, Table.keys_increasing _⟩, ?_, ?_⟩
  · intro key label
    rw [Table.mem_entries_iff, get?_build, binding?]
  · intro before e e' after apart
    simp only [build, List.foldl_append, List.foldl_cons]
    rw [apart.comm]
  · intro before all after now' name' value' before'
    simp only [build, List.foldl_append, List.foldl_cons]
    exact labels_foldl after rfl

/-- All labels are replaced on the way, and the interval ends before it starts. -/
def relabelled : List Edit :=
  [.label "ｚ" "before", .labels (.ofList [("𝄞", "given"), ("a", "given")]), .label "𝄞" "first", .label "ｚ" "only",
    .label "𝄞" "last", .interval { Timestamp.epoch with seconds := 60 } .epoch]

theorem last_edit_counts_relabelled :
    ((build .epoch "requests" (.int 10) relabelled).start, (build .epoch "requests" (.int 10) relabelled).stop) =
      ({ Timestamp.epoch with seconds := 60 }, .epoch) ∧
    (build .epoch "requests" (.int 10) relabelled).labels.get? "𝄞" = some "last" ∧
    (build .epoch "requests" (.int 10) relabelled).labels.get? "a" = some "given" ∧
    Edit.Apart (.label "ｚ" "only") (.label "𝄞" "last") ∧
    build .epoch "requests" (.int 10) relabelled =
      build .epoch "requests" (.int 10) (relabelled.take 3 ++ .label "𝄞" "last" :: .label "ｚ" "only" ::
        relabelled.drop 5) := by
  obtain ⟨left, swap, -⟩ := last_edit_counts .epoch "requests" (.int 10)
  obtain ⟨-, -, interval, labels, -⟩ := left relabelled
  have apart : Edit.Apart (.label "ｚ" "only") (.label "𝄞" "last") := .keys _ _ (by decide)
  refine ⟨interval.trans (by decide), ?_, ?_, apart, swap (relabelled.take 3) _ _ (relabelled.drop 5) apart⟩
  · exact (Table.mem_entries_iff ..).mp ((labels "𝄞" "last").mpr (by decide))
  · exact (Table.mem_entries_iff ..).mp ((labels "a" "given").mpr (by decide))

end Report
end MetricPipeline
