import AnchorScript.Text.Integer
import AnchorScript.Text.Quoted

/-!
# Flags

Flags come before the other arguments, with one hyphen or two. A value follows behind an equals
sign or as the next argument; a switch needs none. The first argument that is no flag ends them,
and so does a double hyphen.
-/

namespace AnchorScript.CommandLine

inductive FlagKind where
  | switch
  | text
  | integer
  deriving DecidableEq

structure Flag where
  name : Text
  short : Option Text := none
  kind : FlagKind

inductive FlagError where
  | malformed (arg : Text)
  | unknown (name : Text)
  | noValue (name : Text)
  | badSwitch (value name : Text)
  | badInteger (value name : Text)
  | hugeInteger (value name : Text)

def FlagError.message : FlagError → Text
  | malformed a => "bad flag syntax: " ++ a
  | unknown n => "flag provided but not defined: -" ++ n
  | noValue n => "flag needs an argument: -" ++ n
  | badSwitch v n => "invalid boolean value " ++ Text.quoted v ++ " for -" ++ n ++ ": parse error"
  | badInteger v n => "invalid value " ++ Text.quoted v ++ " for flag -" ++ n ++ ": parse error"
  | hugeInteger v n =>
    "invalid value " ++ Text.quoted v ++ " for flag -" ++ n ++ ": value out of range"

/-- Flags as given, by their full names; of a repeated one the last counts. -/
structure Given where
  flags : List (Text × Text) := []
  arguments : List Text := []

namespace Given

def value? (g : Given) (name : Text) : Option Text := g.flags.reverse.lookup name

def isSet (g : Given) (name : Text) : Bool := (g.value? name).isSome

/-- The text of a flag, or its default. -/
def text (g : Given) (name default : Text) : Text := (g.value? name).getD default

def switch (g : Given) (name : Text) : Bool := g.value? name = some (Text.ofString "true")

end Given

def trueWords : List Text := ["1", "t", "T", "TRUE", "true", "True"].map Text.ofString

def falseWords : List Text := ["0", "f", "F", "FALSE", "false", "False"].map Text.ofString

/-- The name of a flag and the value behind an equals sign, when the argument is a flag. -/
def flagOf? (arg : Text) : Option (Text × Option Text) :=
  match arg with
  | 45 :: 45 :: r => some (split r)
  | 45 :: b :: r => some (split (b :: r))
  | _ => none
where
  split (s : Text) : Text × Option Text :=
    let name := s.takeWhile (· ≠ 61)
    (name, if name.length < s.length then some (s.drop (name.length + 1)) else none)

def checkValue (kind : FlagKind) (name value : Text) : Except FlagError Text :=
  match kind with
  | .text => .ok value
  | .integer =>
    match Text.signedValue? value with
    | some n => if fitsWord n then .ok (Text.ofInt n) else .error (.hugeInteger value name)
    | none => .error (.badInteger value name)
  | .switch =>
    if trueWords.contains value then .ok "true"
    else if falseWords.contains value then .ok "false"
    else .error (.badSwitch value name)

def readFlags (known : List Flag) :
    (given : List (Text × Text)) → List Text → Except FlagError Given
  | given, [] => .ok ⟨given, []⟩
  | given, arg :: rest =>
    if arg = "--" then .ok ⟨given, rest⟩
    else match flagOf? arg with
      | none => .ok ⟨given, arg :: rest⟩
      | some (name, value) =>
        if name.isEmpty || name.head? = some 45 then .error (.malformed arg)
        else match known.find? fun f => f.name = name || f.short = some name with
          | none => .error (.unknown name)
          | some f =>
            match f.kind, value, rest with
            | .switch, v, rest => do
              let v ← checkValue .switch name (v.getD "true")
              readFlags known (given ++ [(f.name, v)]) rest
            | k, some v, rest => do
              readFlags known (given ++ [(f.name, ← checkValue k name v)]) rest
            | k, none, v :: rest => do
              readFlags known (given ++ [(f.name, ← checkValue k name v)]) rest
            | _, none, [] => .error (.noValue name)

end AnchorScript.CommandLine
