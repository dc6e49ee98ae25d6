import ShaderExpr.Operation
import ShaderExpr.Binary32.Numeral
import ShaderExpr.Binary32.Shortest

/-!
# Errors

An error is a cause, possibly inside contexts that say where it arose, or several errors joined. Some
causes belong to one of five kinds that callers tell apart. The wording of causes and contexts is here
and nowhere else.

A `Fault` is something else: a defect of the caller, such as a tree with a missing part that is
written out, for which there is no error to report.
-/

namespace ShaderExpr

open Text (quote)

/-- The kinds of errors that callers tell apart. -/
inductive ErrorKind where
  | invalidOperation
  | shapeMismatch
  | duplicateBinding
  | missingReturn
  | unknownBinding
deriving DecidableEq, Repr

namespace ErrorKind

def all : List ErrorKind :=
  [.invalidOperation, .shapeMismatch, .duplicateBinding, .missingReturn, .unknownBinding]

def message : ErrorKind → String
  | .invalidOperation => "invalid operation"
  | .shapeMismatch => "shape mismatch"
  | .duplicateBinding => "duplicate binding"
  | .missingReturn => "missing returns binding"
  | .unknownBinding => "unknown binding"

end ErrorKind

/-- What went wrong. -/
inductive Cause where
  -- shapes and operations
  | unknownShape (name : String)
  | invalidShape (number : Nat)
  | unknownOperation (name : String)
  | missingReceiver (op : OpCode)
  | unsupported (op : OpCode) (recv : Shape)
  | operandCount (op : OpCode) (recv : Shape) (want got : Nat)
  | missingOperand (index : Nat) (op : OpCode)
  | operandShape (op : OpCode) (recv : Shape) (index : Nat) (want got : Shape)
  -- literals and combinations
  | invalidLiteralShape (number : Nat)
  | literalSize (shape : Shape) (got : Nat)
  | invalidTargetShape (number : Nat)
  | combinedSize (got : Nat) (shape : Shape)
  | numeral (text : String) (flaw : Numeral.Flaw)
  -- functions
  | argumentShapes (function : String) (want got : Nat)
  | argumentCount (function : String) (want got : Nat)
  | missingArgument (index : Nat)
  | parameterShape (function parameter type : String) (got : Shape)
  | emptyFunctionName
  | emptyReturnType
  | missingReturnValue
  -- blocks
  | emptyInputName
  | invalidInputShape (name : String) (number : Nat)
  | duplicateInput (name : String)
  | missingDefinition
  | emptyBindingName (index : Nat)
  | missingExpression
  | uninitializedOperand (shape : Shape)
  | duplicateName (name : String)
  | unknownName (name : String)
  | otherShape (name : String) (shape want : Shape)
  | unknownOutput (target binding : String)
  -- programs
  | missingFragmentOutput
  | missingVertexOutputs
  | missingFragmentOutputs
  -- values and evaluation
  | valueSize (shape : Shape) (got : Nat)
  | missingInput (name : String)
  | inputShape (name : String) (want got : Shape)
  | statementShape (name : String) (want got : Shape)
  | unknownUnary (op : String)
  | unknownBinary (op : String)
  | missingNode
  | unterminatedLiteral (text : String)
  | tooManyComponents (shape : Shape)
  | componentCount (shape : Shape) (got : Nat)
  | unknownFunction (name : String)
  | builtinArgumentCount (function : String) (want got : Nat)
  | incompatible (left right : Shape)
  | incompatibleArguments (function : String) (shapes : List Shape)
  | vectorsRequired (function : String) (got : Shape)
  | crossRequiresVec3
  -- descriptions
  | yaml
  | unnamedFunction
  | lonelyStage
  | blockBesideStages
  | fragmentOutCount
  | stepNotMapping
  | manyKeys
  | missingOperands (key : String)
  | unexpectedNode (kind : String)
  | inputsNotMapping
  | outputsNotMapping
  -- pictures
  | emptyImage
  | matrixResult (shape : Shape)
  | previewInput (shape : Shape) (name : String)
  | previewResult (got : Shape)
  | windowUnavailable
  | gpuUnavailable
  | bandWidth (width : Binary32)
  | unknownColormap (name : String)
  -- worked examples
  | strayFence (language : String)
  | unknownFence (language test : String)
  | repeatedFence (language test : String)
  | missingInputFence (test : String)
  | missingResultFence (test : String)
  | twoResults (test : String)
  | badPattern
  | isDirectory
  | notDirectory
  | fileMissing
  -- sessions and command line
  | inputUsage
  | unknownCommand (name : String)
  | singleMapping
  | fileArgument (command : String)
  | sessionArguments (args : List String)
  | unknownProgramCommand (name : String)
  -- the caller's own text
  | custom (text : String)
deriving DecidableEq, Repr

namespace Cause

/-- The kind of a cause, if callers tell it apart. -/
def kind? : Cause → Option ErrorKind
  | .unknownOperation _ | .missingReceiver _ | .unsupported _ _ | .operandCount _ _ _ _
  | .missingOperand _ _ | .operandShape _ _ _ _ _ | .uninitializedOperand _ => some .invalidOperation
  | .invalidLiteralShape _ | .literalSize _ _ | .invalidTargetShape _ | .combinedSize _ _
  | .argumentShapes _ _ _ | .parameterShape _ _ _ _ | .invalidInputShape _ _ | .otherShape _ _ _
  | .valueSize _ _ | .inputShape _ _ _ | .statementShape _ _ _ | .tooManyComponents _
  | .componentCount _ _ | .matrixResult _ | .previewResult _ => some .shapeMismatch
  | .duplicateInput _ | .duplicateName _ => some .duplicateBinding
  | .unknownName _ | .unknownOutput _ _ | .missingInput _ | .previewInput _ _ => some .unknownBinding
  | _ => none

/-- Names of shapes, separated by commas. -/
def shapeList (shapes : List Shape) : String := ", ".intercalate (shapes.map Shape.name)

/-- The wording of a cause after that of its kind. -/
def detail : Cause → String
  | .unknownShape name => "unknown shape " ++ quote name
  | .invalidShape n => "invalid shape " ++ toString n
  | .unknownOperation name => "unknown operation " ++ quote name
  | .missingReceiver op => "nil receiver for " ++ op.name
  | .unsupported op recv => op.name ++ " not defined for " ++ recv.name
  | .operandCount op recv want got =>
    op.name ++ " on " ++ recv.name ++ " takes " ++ toString want ++ " operands, got " ++ toString got
  | .missingOperand i op => "nil operand " ++ toString i ++ " for " ++ op.name
  | .operandShape op recv i want got =>
    op.name ++ " on " ++ recv.name ++ " operand " ++ toString i ++ " must be " ++ want.name ++
      ", got " ++ got.name
  | .invalidLiteralShape n => "invalid shape " ++ toString n
  | .literalSize s got =>
    s.name ++ " literal needs " ++ toString s.arity ++ " components, got " ++ toString got
  | .invalidTargetShape n => "invalid target shape " ++ toString n
  | .combinedSize got s =>
    toString got ++ " components can not be combined as " ++ s.name ++ " which has " ++
      toString s.arity
  | .numeral text flaw => flaw.message text
  | .argumentShapes f want got | .argumentCount f want got =>
    "function " ++ quote f ++ " takes " ++ toString want ++ " arguments, got " ++ toString got
  | .missingArgument i => "nil argument " ++ toString i
  | .parameterShape f p type got =>
    "function " ++ quote f ++ " parameter " ++ quote p ++ " is " ++ type ++ ", got " ++ got.name
  | .emptyFunctionName => "empty function name"
  | .emptyReturnType => "empty return type"
  | .missingReturnValue => "missing return value"
  | .emptyInputName => "empty input name"
  | .invalidInputShape name n => "input " ++ quote name ++ " has invalid shape " ++ toString n
  | .duplicateInput name => "input " ++ quote name
  | .missingDefinition => "nil define function"
  | .emptyBindingName i => "binding " ++ toString i ++ ": empty name"
  | .missingExpression => "nil expression"
  | .uninitializedOperand s => "uninitialized operand in " ++ s.name ++ " expression"
  | .duplicateName name | .unknownName name => quote name
  | .otherShape name s want => quote name ++ " is " ++ s.name ++ ", not " ++ want.name
  | .unknownOutput target binding => "output " ++ quote target ++ " binding " ++ quote binding
  | .missingFragmentOutput => "missing fragment output declaration"
  | .missingVertexOutputs => "vertex stage has no outputs, need gl_Position assignment"
  | .missingFragmentOutputs => "fragment stage has no outputs"
  | .valueSize s got =>
    s.name ++ " needs " ++ toString s.arity ++ " components, got " ++ toString got
  | .missingInput name => "missing value for input " ++ quote name
  | .inputShape name want got =>
    "input " ++ quote name ++ " is " ++ want.name ++ ", got " ++ got.name ++ " value"
  | .statementShape name want got =>
    quote name ++ " declared " ++ want.name ++ ", evaluated to " ++ got.name
  | .unknownUnary op => "unknown unary operator " ++ quote op
  | .unknownBinary op => "unknown binary operator " ++ quote op
  | .missingNode => "nil node"
  | .unterminatedLiteral text => "unterminated literal " ++ quote text
  | .tooManyComponents s => "too many components for " ++ s.name ++ " constructor"
  | .componentCount s got =>
    s.name ++ " constructor got " ++ toString got ++ " components, want " ++ toString s.arity
  | .unknownFunction name => "unknown function " ++ quote name
  | .builtinArgumentCount f want got =>
    f ++ " takes " ++ toString want ++ " arguments, got " ++ toString got
  | .incompatible l r => "incompatible operand shapes: " ++ l.name ++ " and " ++ r.name
  | .incompatibleArguments f shapes =>
    "incompatible operand shapes: " ++ f ++ "(" ++ shapeList shapes ++ ")"
  | .vectorsRequired f got =>
    "incompatible operand shapes: " ++ f ++ " requires vectors of same shape, got " ++ got.name
  | .crossRequiresVec3 => "incompatible operand shapes: cross requires vec3"
  | .yaml => "yaml: document can not be read"
  | .unnamedFunction => "function with no name"
  | .lonelyStage => "program needs both vertex and fragment stages"
  | .blockBesideStages => "top level inputs and define not allowed in program with stages"
  | .fragmentOutCount => "fragment out must declare a single variable"
  | .stepNotMapping => "define step must be a mapping of names to expressions"
  | .manyKeys => "expression mapping must have a single key"
  | .missingOperands key => quote key ++ " has no operands"
  | .unexpectedNode kind => "unexpected " ++ kind ++ " in expression"
  | .inputsNotMapping => "expected mapping of names to shapes"
  | .outputsNotMapping => "expected mapping of outputs to bindings"
  | .emptyImage => "image dimensions must be positive"
  | .matrixResult s => "can not render " ++ s.name ++ " result"
  | .previewInput s name => "preview can not supply input " ++ s.name ++ " " ++ name
  | .previewResult got => "preview fragment must return vec4, got " ++ got.name
  | .windowUnavailable => "require cgo for preview window"
  | .gpuUnavailable => "GPU compilation requires CGo and is not supported on TinyGo"
  | .bandWidth w => "band width must be positive, got " ++ w.display
  | .unknownColormap name => "unknown colormap " ++ quote name ++ ", want gray, gradient or bands"
  | .strayFence lang => lang ++ " fence outside of test case"
  | .unknownFence lang test =>
    "unknown fence language " ++ quote lang ++ " in test " ++ quote test
  | .repeatedFence lang test => "multiple " ++ lang ++ " fences in test " ++ quote test
  | .missingInputFence test => "test " ++ quote test ++ " has no yaml fence"
  | .missingResultFence test => "test " ++ quote test ++ " has no glsl or error fence"
  | .twoResults test => "test " ++ quote test ++ " expects both source and error"
  | .badPattern => "syntax error in pattern"
  | .isDirectory => "is a directory"
  | .notDirectory => "not a directory"
  | .fileMissing => "no such file or directory"
  | .inputUsage => "usage: :input <name> <shape>"
  | .unknownCommand name => "unknown command " ++ quote name ++ ", type :help for commands"
  | .singleMapping => "expected a single mapping"
  | .fileArgument command => command ++ " requires a single description file argument"
  | .sessionArguments args =>
    "repl takes no arguments, got [" ++ " ".intercalate (args.map quote) ++ "]"
  | .unknownProgramCommand name => "unknown command " ++ quote name
  | .custom text => text

def message (c : Cause) : String :=
  match c.kind? with
  | some k => k.message ++ ": " ++ c.detail
  | none => c.detail

end Cause

/-- Where an error arose. -/
inductive Context where
  | function (name : String)
  | functionInputs (name : String)
  | binding (name : String)
  | evaluating (name : String)
  | literal (text : String)
  | line (number : Nat)
  | reference (line : Nat) (name : String)
  | unresolvedKey (line : Nat) (name : String)
  | part (name : String)
  | pixel (x y : Nat)
deriving DecidableEq, Repr

/-- The wording of a context. -/
def Context.message : Context → String
  | .function name => "function " ++ quote name
  | .functionInputs name => "function " ++ quote name ++ " inputs"
  | .binding name => "binding " ++ quote name
  | .evaluating name => "evaluating " ++ quote name
  | .literal text => "literal " ++ quote text
  | .line n => "line " ++ toString n
  | .reference n name => "line " ++ toString n ++ ": " ++ quote name
  | .unresolvedKey n name => "line " ++ toString n ++ ": unknown operation, shape or function " ++ quote name
  | .part name => name
  | .pixel x y => "pixel (" ++ toString x ++ "," ++ toString y ++ ")"

/-- An error: a cause or a kind alone, inside contexts, or several errors. -/
inductive Error where
  | cause (c : Cause)
  | bare (k : ErrorKind)
  | within (context : Context) (error : Error)
  | joined (errors : List Error)
deriving Repr

namespace Error

instance : Coe Cause Error := ⟨.cause⟩

mutual

/-- The text of an error: contexts first, joined errors on lines of their own. -/
def message : Error → String
  | .cause c => c.message
  | .bare k => k.message
  | .within context e => context.message ++ ": " ++ message e
  | .joined es => "\n".intercalate (messages es)

/-- The texts of a list of errors. -/
def messages : List Error → List String
  | [] => []
  | e :: es => message e :: messages es

end

mutual

/-- Does an error belong to a kind? -/
def isKind (k : ErrorKind) : Error → Bool
  | .cause c => c.kind? == some k
  | .bare k' => k' == k
  | .within _ e => isKind k e
  | .joined es => anyKind k es

/-- Does some error of a list belong to a kind? -/
def anyKind (k : ErrorKind) : List Error → Bool
  | [] => false
  | e :: es => isKind k e || anyKind k es

end

/-- The kinds of an error, each once, in a fixed order. -/
def kinds (e : Error) : List ErrorKind := ErrorKind.all.filter (isKind · e)

/-- Joins errors: none if there are none. One error alone stays a joined error of one. -/
def join? (es : List Error) : Option Error := if es.isEmpty then none else some (.joined es)

end Error

/-- A defect of the caller. -/
inductive Fault where
  /-- A missing tree is to be written. -/
  | missingNode
  /-- A matrix literal whose components do not fill a square. -/
  | matrixSize
  /-- A missing expression is to be combined. -/
  | missingPart
  /-- A number that names no shape stands for one. -/
  | invalidShape (number : Nat)
  /-- The first operand is asked for where there are none. -/
  | noOperands
  /-- A part of a tree or of a node graph is missing where its presence is presumed. -/
  | brokenPart
  /-- Functions that call each other, or aliases that contain themselves, without end. -/
  | endless
deriving DecidableEq, Repr

/-- The text that goes with a fault, if any. -/
def Fault.message? : Fault → Option String
  | .missingNode => some "glbuild: nil node"
  | .matrixSize => some "glbuild: matrix literal size mismatch"
  | .missingPart => some "glexpr: nil expression in Combine"
  | .invalidShape n => some ("glexpr: invalid shape " ++ (ShapeCode.mk n).name)
  | .noOperands | .brokenPart | .endless => none

/-- Why there is no result. -/
inductive Failure where
  | error (e : Error)
  | fault (f : Fault)
deriving Repr

namespace Failure

instance : Coe Error Failure := ⟨.error⟩
instance : Coe Fault Failure := ⟨.fault⟩

/-- Puts an error into a context; a fault stays what it is. -/
def within (context : Context) : Failure → Failure
  | .error e => .error (.within context e)
  | .fault f => .fault f

end Failure

/-- A result or the reason why there is none. -/
abbrev Outcome (α : Type) := Except Failure α

namespace Outcome

def ofError {α : Type} (r : Except Error α) : Outcome α := r.mapError Failure.error

def ofFault {α : Type} (r : Except Fault α) : Outcome α := r.mapError Failure.fault

/-- Fails with a cause. -/
def fail {α : Type} (c : Cause) : Outcome α := .error (.error (.cause c))

/-- Puts the errors of a computation into a context. -/
def inside {α : Type} (context : Context) (r : Outcome α) : Outcome α :=
  r.mapError (Failure.within context)

end Outcome

end ShaderExpr
