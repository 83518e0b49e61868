import AnchorScript.Program.ProgramId

/-!
# The program id in a source

The id of a program stands in its source as `PROGRAM_ID = new Pubkey("...")`. Replacing it looks
for that text anywhere in the source, comments included, and leaves all else as it is.
-/

namespace AnchorScript.ProgramId

/-- The blanks that may stand inside the literal. -/
def isGap (b : UInt8) : Bool := b = 32 || b = 9 || b = 10 || b = 12 || b = 13

def isQuote (b : UInt8) : Bool := b = Text.byte '"' || b = Text.byte '\''

def skipGap? : Text → Option Text
  | [] => none
  | b :: r => if isGap b then some (r.dropWhile isGap) else none

/-- What follows the opening quote of a literal that begins here and is closed later. -/
def literalBody? (s : Text) : Option Text := do
  let r ← Text.dropStart? "PROGRAM_ID" s
  let r ← Text.dropStart? "=" (r.dropWhile isGap)
  let r ← Text.dropStart? "new" (r.dropWhile isGap)
  let r ← Text.dropStart? "Pubkey(" (← skipGap? r)
  match r.dropWhile isGap with
  | q :: body => if isQuote q && body.any isQuote then some body else none
  | [] => none

/-- The literals of a source, each as the text from the id on. After a literal the search goes on
behind its closing quote; `skip` bytes are passed over first. -/
def literalBodies (skip : Nat) : Text → List Text
  | [] => []
  | b :: r =>
    match skip with
    | k + 1 => literalBodies k r
    | 0 =>
      match literalBody? (b :: r) with
      | some body =>
        let closed := (body.dropWhile (!isQuote ·)).drop 1
        body :: literalBodies (r.length - closed.length) r
      | none => literalBodies 0 r

inductive ReplaceError where
  | invalid (e : Error)
  | noLiteral
  | severalLiterals

def ReplaceError.message : ReplaceError → Text
  | invalid e => e.message
  | noLiteral => "no PROGRAM_ID = new Pubkey(\"...\") literal found"
  | severalLiterals => "more than one PROGRAM_ID literal found"

def replace (src id : Text) : Except ReplaceError Text := do
  let _ ← (decode id).mapError .invalid
  match literalBodies 0 src with
  | [] => throw .noLiteral
  | [body] => return src.take (src.length - body.length) ++ id ++ body.dropWhile (!isQuote ·)
  | _ => throw .severalLiterals

end AnchorScript.ProgramId
