import AnchorScript.Compiler
import AnchorScript.Text.Quoted

/-!
# Configuration

The settings of a workspace: how to log, where sources and outputs are, and how to compile. Paths
are relative to the workspace's root.
-/

namespace AnchorScript

structure LogSettings where
  format : Text := "console"
  directory : Text := []
  level : Text := "info"
  compress : Bool := false

structure WorkspaceSettings where
  root : Text := "."
  programsDir : Text := "ts-programs/src"
  outputDir : Text := "programs"
  interfaceDir : Text := "target/idl"
  programTable : Text := "Anchor.toml"
  deployDir : Text := "target/deploy"
  cluster : Text := "localnet"
  parallelism : Int := 4

structure CompilerSettings where
  stringMaxLen : Int := 32
  emitInterface : Bool := false

structure Config where
  log : LogSettings := {}
  workspace : WorkspaceSettings := {}
  compiler : CompilerSettings := {}

namespace Config

inductive Invalid where
  | logFormat (format : Text)
  | parallelism (n : Int)
  | stringMaxLen (n : Int)
  | missingDirectory

def Invalid.message : Invalid → Text
  | logFormat f => "logger.format must be console or json, got " ++ Text.quoted f
  | parallelism n => "workspace.parallelism must be at least 1, got " ++ Text.ofInt n
  | stringMaxLen n => "compiler.string_max_len must be positive, got " ++ Text.ofInt n
  | missingDirectory => "workspace.programs_dir and workspace.output_dir are required"

/-- The first setting that is out of range. -/
def validate (c : Config) : Except Invalid Unit := do
  let formats : List Text := [[], "console", "json"]
  if !formats.contains c.log.format then throw (.logFormat c.log.format)
  if c.workspace.parallelism < 1 then throw (.parallelism c.workspace.parallelism)
  if c.compiler.stringMaxLen < 1 then throw (.stringMaxLen c.compiler.stringMaxLen)
  if c.workspace.programsDir.isEmpty || c.workspace.outputDir.isEmpty then throw .missingDirectory

def options (c : Config) : CompileOptions :=
  ⟨c.compiler.stringMaxLen, c.compiler.emitInterface⟩

end Config

end AnchorScript
