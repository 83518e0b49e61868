import AnchorScript.Compiler
import AnchorScript.Report
import AnchorScript.Text.Trim

/-!
# Interactive sessions

Programs are typed line by line. A program ends with a blank line, unless it is cut short: then
reading goes on until the text could be complete. Every program is compiled as soon as it ends.
-/

namespace AnchorScript.Session

def sourceName : Text := "<repl>"

/-- What has been typed of the present program; nothing between programs. -/
abbrev Pending := Option Text

def prompt : Pending → Text
  | none => "> "
  | some _ => ">> "

def isBlank (line : Text) : Bool := (Text.trimSpace line).isEmpty

/-- What a line does: more is pending, or a program has ended. -/
def feed : Pending → Text → Pending × Option Text
  | none, line => if isBlank line then (none, none) else (some line, none)
  | some typed, line =>
    if isBlank line && !Syntax.isIncomplete typed then (none, some typed)
    else (some (typed ++ "\n" ++ line), none)

inductive Ending where
  | finished
  | interrupted
  | broken (message : Text)

def atEnd : Pending → Ending → Option Text
  | some typed, .finished => if Syntax.isIncomplete typed then none else some typed
  | _, _ => none

def respond (p : Report.Palette) (src : Text) : Text :=
  if isBlank src then []
  else match compile {} sourceName src with
    | .ok out => out.rust
    | .error d => (Failure.diagnostics [d]).report p

structure Transcript where
  output : Text
  prompts : List Text
  error : Option Text

def Ending.error : Ending → Option Text
  | broken m => some m
  | _ => none

def run (p : Report.Palette) (ending : Ending) : Pending → List Text → Transcript
  | pending, [] =>
    match atEnd pending ending with
    | some src => ⟨respond p src, [prompt pending, prompt none], ending.error⟩
    | none => ⟨[], [prompt pending], ending.error⟩
  | pending, line :: lines =>
    let (next, ended) := feed pending line
    let rest := run p ending next lines
    ⟨(ended.map (respond p)).getD [] ++ rest.output, prompt pending :: rest.prompts, rest.error⟩

end AnchorScript.Session
