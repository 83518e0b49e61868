import AnchorScript.Program.OfFile
import AnchorScript.Syntax.Parser
import AnchorScript.Rust.Printer
import AnchorScript.Interface.OfProgram

/-!
# Compilation

A source becomes Rust source for the Anchor framework, and on request an interface description. The
result depends on the source text and the options only, and the first diagnostic ends the work.
-/

namespace AnchorScript

structure CompileOptions where
  /-- Bytes reserved for a string without a length of its own; the default unless positive. -/
  stringMaxLen : Int := 0
  emitInterface : Bool := false

namespace CompileOptions

def settings (o : CompileOptions) : Program.Settings := .ofMaxLen o.stringMaxLen

/-- The options that shape the output. -/
def fingerprint (o : CompileOptions) : Text :=
  "string_max_len=" ++ Text.ofNat o.settings.stringMaxLen ++ ",emit_idl=" ++
    (if o.emitInterface then Text.ofString "true" else "false")

end CompileOptions

structure CompileOutput where
  program : Program
  module : Text
  rust : Text
  interface : Option Text

def extractProgram (o : CompileOptions) (name src : Text) : Except Diagnostic Program := do
  Program.ofFile name o.settings (← Syntax.parse name src)

def resolveSource (o : CompileOptions) (name src : Text) : Except Diagnostic ResolvedProgram := do
  (← extractProgram o name src).resolve

def compile (o : CompileOptions) (name src : Text) : Except Diagnostic CompileOutput := do
  let resolved ← resolveSource o name src
  let handlers ← resolved.handlers
  return {
    program := resolved.source
    module := resolved.moduleName
    rust := (Rust.Crate.ofProgram resolved handlers).text
    interface := if o.emitInterface then some (Interface.Description.ofProgram resolved).text
      else none }

end AnchorScript
