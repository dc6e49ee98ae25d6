import ShaderExpr.Binary32.Shortest
import ShaderExpr.Table
import ShaderExpr.Text.Integer

/-!
# Flags

A flag is an argument that starts with one or two hyphens. Its value follows an equals sign or is the
next argument; a switch needs none. Flags end at the first argument that is none, or behind two hyphens
alone.
-/

namespace ShaderExpr

/-- The value of a flag. -/
inductive FlagValue where
  | switch (on : Bool)
  | int (n : Int)
  | number (x : Binary32)
  | text (s : String)
deriving DecidableEq, Repr

/-- A flag that a command knows. -/
structure Flag where
  name : String
  /-- What it is for. -/
  purpose : String
  /-- Its value if it is not given. -/
  value : FlagValue
deriving Repr

namespace FlagValue

/-- What a value is called in an explanation. -/
def kindName : FlagValue → String
  | .switch _ => ""
  | .int _ => "int"
  | .number _ => "float"
  | .text _ => "string"

/-- The text of a value that is worth to be mentioned. -/
def mention? : FlagValue → Option String
  | .switch on => if on then some "true" else none
  | .int n => if n = 0 then none else some (toString n)
  | .number x => if x = 0 then none else some x.display
  | .text s => if s.isEmpty then none else some (Text.quote s)

/-- The switch position that a text names. -/
def switch? (s : String) : Option Bool :=
  if ["1", "t", "T", "TRUE", "true", "True"].contains s then some true
  else if ["0", "f", "F", "FALSE", "false", "False"].contains s then some false
  else none

/-- A value of the same kind, read from a text. -/
def readLike (v : FlagValue) (s : String) : Option FlagValue :=
  match v with
  | .switch _ => (switch? s).map .switch
  | .int _ => (Text.integer? s.toList).map .int
  | .number _ => (Binary32.readTwice s).toOption.map .number
  | .text _ => some (.text s)

end FlagValue

namespace Flag

/-- A flag in an explanation of flags. -/
def explanation (f : Flag) : String :=
  let kind := f.value.kindName
  let head := "  -" ++ f.name ++ (if kind.isEmpty then "" else " " ++ kind)
  let gap := if head.length ≤ 4 then "\t" else "\n    \t"
  let value := match f.value.mention? with
    | some s => " (default " ++ s ++ ")"
    | none => ""
  head ++ gap ++ f.purpose ++ value ++ "\n"

/-- The explanation of the flags of a command, which are kept in the order of their names. -/
def usage (command : String) (flags : List Flag) : String :=
  "Usage of " ++ command ++ ":\n" ++ String.join (flags.map explanation)

end Flag

/-- Why arguments can not be used. -/
inductive FlagProblem where
  /-- An explanation of the flags is asked for. -/
  | help
  | malformed (argument : String)
  | unknown (name : String)
  | missingValue (name : String)
  | badValue (name value : String)
deriving DecidableEq, Repr

def FlagProblem.message : FlagProblem → String
  | .help => ""
  | .malformed arg => "bad flag syntax: " ++ arg ++ "\n"
  | .unknown name => "flag provided but not defined: -" ++ name ++ "\n"
  | .missingValue name => "flag needs an argument: -" ++ name ++ "\n"
  | .badValue name value =>
    "invalid value " ++ Text.quote value ++ " for flag -" ++ name ++ ": parse error\n"

/-- Arguments of a command: the values of its flags, and what follows them. -/
structure Arguments where
  values : Table FlagValue
  rest : List String
deriving Repr

namespace Arguments

/-- The name in a flag, and the value behind an equals sign. -/
def splitFlag (cs : List Char) : String × Option String :=
  let name := cs.take 1 ++ cs.tail.takeWhile (· != '=')
  match cs.tail.dropWhile (· != '=') with
  | [] => (String.ofList name, none)
  | _ :: value => (String.ofList name, some (String.ofList value))

/-- What an argument is. -/
inductive Kind where
  | plain
  /-- Two hyphens alone. -/
  | terminator
  | malformed
  | flag (name : String) (value : Option String)

def kindOf (arg : String) : Kind :=
  match arg.toList with
  | ['-', '-'] => .terminator
  | '-' :: c :: cs =>
    match if c == '-' then cs else c :: cs with
    | [] => .malformed
    | d :: ds =>
      if d == '-' || d == '=' then .malformed
      else
        let (name, value) := splitFlag (d :: ds)
        .flag name value
  | _ => .plain

/-- Gives a flag the value that a text spells. -/
def put (values : Table FlagValue) (f : Flag) (text : String) : Except FlagProblem (Table FlagValue) :=
  match f.value.readLike text with
  | some v => .ok (values.insert f.name v)
  | none => .error (.badValue f.name text)

/-- Reads arguments from the left. -/
def readFrom (flags : List Flag) (values : Table FlagValue) :
    List String → Except FlagProblem Arguments
  | [] => .ok ⟨values, []⟩
  | arg :: rest =>
    match kindOf arg with
    | .plain => .ok ⟨values, arg :: rest⟩
    | .terminator => .ok ⟨values, rest⟩
    | .malformed => .error (.malformed arg)
    | .flag name value =>
      match flags.find? (·.name == name) with
      | none => .error (if name == "help" || name == "h" then .help else .unknown name)
      | some f =>
        match f.value, value with
        | _, some text => do readFrom flags (← put values f text) rest
        | .switch _, none => readFrom flags (values.insert name (.switch true)) rest
        | _, none =>
          match rest with
          | text :: rest => do readFrom flags (← put values f text) rest
          | [] => .error (.missingValue name)

/-- Reads the arguments of a command with flags; flags that are not given have their own values. -/
def read (flags : List Flag) (args : List String) : Except FlagProblem Arguments :=
  readFrom flags (.ofList (flags.map fun f => (f.name, f.value))) args

def text (a : Arguments) (name : String) : String :=
  match a.values.get? name with
  | some (.text s) => s
  | _ => ""

def int (a : Arguments) (name : String) : Int :=
  match a.values.get? name with
  | some (.int n) => n
  | _ => 0

def number (a : Arguments) (name : String) : Binary32 :=
  match a.values.get? name with
  | some (.number x) => x
  | _ => 0

def isOn (a : Arguments) (name : String) : Bool :=
  match a.values.get? name with
  | some (.switch on) => on
  | _ => false

end Arguments

end ShaderExpr
