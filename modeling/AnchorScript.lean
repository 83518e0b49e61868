import AnchorScript.AccountData.Basic
import AnchorScript.AccountData.Decode
import AnchorScript.AccountData.Encode
import AnchorScript.Base58
import AnchorScript.Base64
import AnchorScript.CommandLine.Command
import AnchorScript.CommandLine.Flags
import AnchorScript.Compiler
import AnchorScript.Config.Basic
import AnchorScript.Config.Document
import AnchorScript.DataType
import AnchorScript.Diagnostic
import AnchorScript.FileTree.Basic
import AnchorScript.Handler.Basic
import AnchorScript.Handler.OfInstruction
import AnchorScript.Hash.Keccak256
import AnchorScript.Hash.Sha256
import AnchorScript.IntLiteral
import AnchorScript.Interface.Basic
import AnchorScript.Interface.Discriminator
import AnchorScript.Interface.OfProgram
import AnchorScript.Interface.ProgramAddress
import AnchorScript.Json
import AnchorScript.Keypair
import AnchorScript.Main
import AnchorScript.Manifest.Basic
import AnchorScript.Manifest.Document
import AnchorScript.Program.Basic
import AnchorScript.Program.Body
import AnchorScript.Program.IdLiteral
import AnchorScript.Program.OfFile
import AnchorScript.Program.ProgramId
import AnchorScript.ProgramTable
import AnchorScript.Proofs.AccountData.RoundTrip
import AnchorScript.Proofs.Compiler.AddressSeeds
import AnchorScript.Proofs.Compiler.BodyFidelity
import AnchorScript.Proofs.Compiler.ConstraintScope
import AnchorScript.Proofs.Compiler.ContextFields
import AnchorScript.Proofs.Compiler.Description
import AnchorScript.Proofs.Compiler.Diagnostics
import AnchorScript.Proofs.Compiler.DistinctNames
import AnchorScript.Proofs.Compiler.Exchange
import AnchorScript.Proofs.Compiler.FieldPlaces
import AnchorScript.Proofs.Compiler.Formatting
import AnchorScript.Proofs.Compiler.FunctionTypes
import AnchorScript.Proofs.Compiler.GeneratedNames
import AnchorScript.Proofs.Compiler.HandlerTypes
import AnchorScript.Proofs.Compiler.IdReplacement
import AnchorScript.Proofs.Compiler.Identifiers
import AnchorScript.Proofs.Compiler.Linkage
import AnchorScript.Proofs.Compiler.OwnNames
import AnchorScript.Proofs.Compiler.PrintedCrate
import AnchorScript.Proofs.Compiler.PrintedDescription
import AnchorScript.Proofs.Compiler.SeedFidelity
import AnchorScript.Proofs.Compiler.SignedCalls
import AnchorScript.Proofs.FileTree.Entries
import AnchorScript.Proofs.FileTree.Paths
import AnchorScript.Proofs.FileTree.Writes
import AnchorScript.Proofs.Handler.BodyScope
import AnchorScript.Proofs.Handler.Expressions
import AnchorScript.Proofs.Handler.FreshName
import AnchorScript.Proofs.Handler.Naming
import AnchorScript.Proofs.Handler.Placement
import AnchorScript.Proofs.Handler.SignerSeeds
import AnchorScript.Proofs.Handler.Statements
import AnchorScript.Proofs.Handler.Totality
import AnchorScript.Proofs.Handler.Typing
import AnchorScript.Proofs.Hash.Keccak256
import AnchorScript.Proofs.Interface.Reading
import AnchorScript.Proofs.Json.RoundTrip
import AnchorScript.Proofs.Manifest.Descriptions
import AnchorScript.Proofs.Manifest.Document
import AnchorScript.Proofs.Manifest.RoundTrip
import AnchorScript.Proofs.Manifest.UpToDate
import AnchorScript.Proofs.Outcome
import AnchorScript.Proofs.Program.Allocation
import AnchorScript.Proofs.Program.Declarations
import AnchorScript.Proofs.Program.Exchange
import AnchorScript.Proofs.Program.Extraction
import AnchorScript.Proofs.Program.Placement
import AnchorScript.Proofs.Program.Positions
import AnchorScript.Proofs.Program.ProgramId
import AnchorScript.Proofs.Program.StateNames
import AnchorScript.Proofs.Program.ValueTypes
import AnchorScript.Proofs.ProgramTable.Editing
import AnchorScript.Proofs.ProgramTable.Lines
import AnchorScript.Proofs.ProgramTable.Overwriting
import AnchorScript.Proofs.ProgramTable.Recording
import AnchorScript.Proofs.Quicksort
import AnchorScript.Proofs.Resolution.AccountRecord
import AnchorScript.Proofs.Resolution.AccountSoundness
import AnchorScript.Proofs.Resolution.AssignedConstants
import AnchorScript.Proofs.Resolution.Closing
import AnchorScript.Proofs.Resolution.ConstantArithmetic
import AnchorScript.Proofs.Resolution.ConstantDivision
import AnchorScript.Proofs.Resolution.ConstantFolding
import AnchorScript.Proofs.Resolution.DefinitionBeforeUse
import AnchorScript.Proofs.Resolution.DerivationCheck
import AnchorScript.Proofs.Resolution.Exchange
import AnchorScript.Proofs.Resolution.Mutability
import AnchorScript.Proofs.Resolution.NamedAccounts
import AnchorScript.Proofs.Resolution.Placement
import AnchorScript.Proofs.Resolution.Positions
import AnchorScript.Proofs.Resolution.Reads
import AnchorScript.Proofs.Resolution.Replacement
import AnchorScript.Proofs.Resolution.Run
import AnchorScript.Proofs.Resolution.SeedList
import AnchorScript.Proofs.Resolution.Step
import AnchorScript.Proofs.Resolution.Typing
import AnchorScript.Proofs.Rust.BodyTypes
import AnchorScript.Proofs.Rust.Literals
import AnchorScript.Proofs.Rust.NameCase
import AnchorScript.Proofs.Rust.Names
import AnchorScript.Proofs.Rust.Numbers
import AnchorScript.Proofs.Rust.PrintedSource
import AnchorScript.Proofs.Rust.PrintedStructs
import AnchorScript.Proofs.Rust.Reading
import AnchorScript.Proofs.Rust.Running
import AnchorScript.Proofs.Rust.Scoping
import AnchorScript.Proofs.Rust.SourceReader
import AnchorScript.Proofs.Rust.SourceReading
import AnchorScript.Proofs.Rust.Spelling
import AnchorScript.Proofs.Rust.Tokens
import AnchorScript.Proofs.Syntax.Completion
import AnchorScript.Proofs.Syntax.Cursor
import AnchorScript.Proofs.Syntax.CursorReading
import AnchorScript.Proofs.Syntax.DeclaredNames
import AnchorScript.Proofs.Syntax.FileCompletion
import AnchorScript.Proofs.Syntax.Files
import AnchorScript.Proofs.Syntax.Grammar
import AnchorScript.Proofs.Syntax.Incomplete
import AnchorScript.Proofs.Syntax.Items
import AnchorScript.Proofs.Syntax.OneLine
import AnchorScript.Proofs.Syntax.Passing
import AnchorScript.Proofs.Syntax.PlacedReading
import AnchorScript.Proofs.Syntax.Placement
import AnchorScript.Proofs.Syntax.Positions
import AnchorScript.Proofs.Syntax.Precedence
import AnchorScript.Proofs.Syntax.Readers
import AnchorScript.Proofs.Syntax.Reading
import AnchorScript.Proofs.Syntax.Rewriting
import AnchorScript.Proofs.Syntax.RoundTrip
import AnchorScript.Proofs.Syntax.Semicolons
import AnchorScript.Proofs.Syntax.SpacedText
import AnchorScript.Proofs.Syntax.StringReplacement
import AnchorScript.Proofs.Syntax.Termination
import AnchorScript.Proofs.Syntax.Tracking
import AnchorScript.Proofs.Text.Characters
import AnchorScript.Proofs.Text.Cuts
import AnchorScript.Proofs.Token.Ending
import AnchorScript.Proofs.Token.Scanning
import AnchorScript.Proofs.Token.StringReplacement
import AnchorScript.Proofs.Token.StringValues
import AnchorScript.Proofs.Token.Tiling
import AnchorScript.Proofs.Token.Words
import AnchorScript.Proofs.Token.Writing
import AnchorScript.Proofs.Toml.Lines
import AnchorScript.Proofs.Toml.Numbers
import AnchorScript.Proofs.Toml.Quoted
import AnchorScript.Proofs.Toml.Reading
import AnchorScript.Proofs.Toml.Tables
import AnchorScript.Proofs.Toml.Values
import AnchorScript.Proofs.Workspace.Discovery
import AnchorScript.Proofs.Workspace.History
import AnchorScript.Proofs.Workspace.Incremental
import AnchorScript.Proofs.Workspace.OneWorker
import AnchorScript.Proofs.Workspace.Outputs
import AnchorScript.Proofs.Workspace.Pool
import AnchorScript.Proofs.Workspace.Runs
import AnchorScript.Quicksort
import AnchorScript.Report
import AnchorScript.Resolution.Account
import AnchorScript.Resolution.Derivation
import AnchorScript.Resolution.Program
import AnchorScript.Resolution.Scope
import AnchorScript.Resolution.Statement
import AnchorScript.Rust.Crate
import AnchorScript.Rust.Expr
import AnchorScript.Rust.Name
import AnchorScript.Rust.Printer
import AnchorScript.Session
import AnchorScript.Syntax.Basic
import AnchorScript.Syntax.Parser
import AnchorScript.Syntax.Printer
import AnchorScript.Text.Basic
import AnchorScript.Text.Integer
import AnchorScript.Text.LetterCase
import AnchorScript.Text.Quoted
import AnchorScript.Text.Trim
import AnchorScript.Text.Utf8
import AnchorScript.Token
import AnchorScript.Token.Lexer
import AnchorScript.Toml
import AnchorScript.Workspace.Basic
import AnchorScript.Workspace.Build
import AnchorScript.Workspace.KeySync
import AnchorScript.Workspace.Pool
import AnchorScript.Yaml
