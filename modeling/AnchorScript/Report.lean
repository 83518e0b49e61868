import AnchorScript.Diagnostic

/-!
# Reports for people

A diagnostic is shown as a block of lines: code, kind and message, then the place, then what it
concerns. On a terminal the label, the place and the context are set in colours of their own.
-/

namespace AnchorScript

namespace Report

/-- What stands before and after a highlighted text. -/
structure Style where
  start : Text
  stop : Text

def Style.apply (s : Style) (t : Text) : Text := s.start ++ t ++ s.stop

structure Palette where
  label : Style
  location : Style
  note : Style

namespace Palette

def rendition (codes : Text) : Text := "\x1b[" ++ codes ++ "m"

def colourless : Palette := ⟨⟨[], []⟩, ⟨[], []⟩, ⟨[], []⟩⟩

/-- Bold red labels, cyan places and faint notes. -/
def ansi : Palette where
  label := ⟨rendition "31;1", rendition "0;22"⟩
  location := ⟨rendition "36", rendition "0"⟩
  note := ⟨rendition "2", rendition "22"⟩

end Palette

/-- The file, with line and column where there is a line. -/
def place (s : Diagnostic.Span) : Text :=
  if 0 < s.start.line then s.file ++ ":" ++ s.start.text else s.file

def block (p : Palette) (d : Diagnostic) : Text :=
  let head : Text := p.label.apply ("error[" ++ d.code ++ "]")
  let title : Text := " " ++ d.kind.name ++ ": " ++ d.message ++ "\n"
  let source : Text :=
    if d.span.file.isEmpty then [] else "  --> " ++ p.location.apply (place d.span) ++ "\n"
  let about : Text := if d.context.isEmpty then [] else "  = " ++ p.note.apply d.context ++ "\n"
  head ++ title ++ source ++ about

end Report

/-- Every diagnostic that the failure carries, or its message when it carries none. -/
def Failure.report (p : Report.Palette) (f : Failure) : Text :=
  match f.carried with
  | [] => p.label.apply "error" ++ ": " ++ f.text ++ "\n"
  | ds => ds.flatMap (Report.block p)

end AnchorScript
