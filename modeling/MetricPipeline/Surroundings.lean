import MetricPipeline.Behaviour
import MetricPipeline.Journal

/-!
# Surroundings

What a call meets with that the graph does not settle: what the user's code does each time it is run, and the text
with which the runtime reports a task that has panicked. Both may be different wherever the call has come to.
-/

namespace MetricPipeline

/-- The way down to a task: its place in each fan-out on the way. -/
abbrev Path := List Nat

structure Surroundings where
  behaviour : Path → Work → Behaviour
  /-- Nothing is assumed of this text. Fan-outs log it and return it as it is. -/
  panicText : Path → Payload → String

namespace Surroundings

/-- What is met with at the end of a path, and further on. -/
def under (s : Surroundings) (path : Path) : Surroundings where
  behaviour rest := s.behaviour (path ++ rest)
  panicText rest := s.panicText (path ++ rest)

@[simp] theorem behaviour_under (s : Surroundings) (path rest : Path) :
    (s.under path).behaviour rest = s.behaviour (path ++ rest) := rfl

end Surroundings

/-- The surroundings of each call. -/
abbrev Environment := CallId → Surroundings

namespace Payload

/-- A text between double quotes, as it is shown for inspection. Of the characters that are not shown as they are,
these are the ASCII ones and the C1 controls. -/
def quoted (text : String) : String :=
  let escape (c : Char) : String :=
    match c with
    | '"' => "\\\""
    | '\\' => "\\\\"
    | '\n' => "\\n"
    | '\r' => "\\r"
    | '\t' => "\\t"
    | '\x00' => "\\0"
    | c =>
      if c.toNat < 32 || (127 ≤ c.toNat && c.toNat < 160) then
        "\\u\x7b" ++ String.ofList (Nat.toDigits 16 c.toNat) ++ "\x7d"
      else c.toString
  "\"" ++ text.toList.foldl (fun acc c => acc ++ escape c) "" ++ "\""

/-- The report of a task that panicked, but for the number of the task. -/
def taskText (p : Payload) : String :=
  match p.text? with
  | some text => "task # panicked with message " ++ quoted text
  | none => "task # panicked"

end Payload

/-- Surroundings that are the same for each call and everywhere. -/
def Environment.uniform (behaviour : Work → Behaviour) : Environment :=
  fun _ => ⟨fun _ => behaviour, fun _ => Payload.taskText⟩

end MetricPipeline
