import ShaderExpr.Node

/-!
# Declarations, functions, stages and programs

The parts of shader source above expressions and their text. A program is a vertex and a fragment
stage with the variables that connect them; its source holds both stages, each after a line that names
it.
-/

namespace ShaderExpr

/-- A typed name: a parameter, a uniform, an attribute or a varying. -/
structure Param where
  type : String
  name : String
deriving DecidableEq, Repr, Inhabited

def Param.text (p : Param) : String := p.type ++ " " ++ p.name

/-- A declaration with its value. -/
structure Statement where
  type : String
  name : String
  value : Node
deriving Repr, Inhabited

namespace Statement

def text (st : Statement) : Except Fault String := do
  let value ← st.value.text
  return st.type ++ " " ++ st.name ++ " = " ++ value ++ ";"

/-- Declarations on lines of their own, each after an indent; no line end after the last. -/
def texts (indent : String) (sts : List Statement) : Except Fault String := do
  let lines ← sts.mapM text
  return "\n".intercalate (lines.map (indent ++ ·))

/-- Declarations inside a body: indented, and with a line end if there are any. -/
def bodyText (sts : List Statement) : Except Fault String :=
  if sts.isEmpty then .ok "" else (texts "\t" sts).map (· ++ "\n")

end Statement

/-- A function: declarations, then the value that is returned. -/
structure Function where
  name : String
  returnType : String
  params : List Param
  body : List Statement
  result : Node
deriving Repr, Inhabited

namespace Function

/-- The first thing that a function lacks. -/
def check (fn : Function) : Except Error Unit :=
  if fn.name.isEmpty then .error (.cause .emptyFunctionName)
  else if fn.returnType.isEmpty then .error (.cause .emptyReturnType)
  else match fn.result with
    | .missing => .error (.cause .missingReturnValue)
    | _ => .ok ()

def text (fn : Function) : Except Fault String := do
  let body ← Statement.bodyText fn.body
  let result ← fn.result.text
  return fn.returnType ++ " " ++ fn.name ++ "(" ++ ", ".intercalate (fn.params.map Param.text) ++
    ") \x7b\n" ++ body ++ "\treturn " ++ result ++ ";\n\x7d\n"

/-- The check of a function, its errors naming it. -/
def checkNamed (fn : Function) : Except Error Unit :=
  fn.check.mapError (.within (.function fn.name))

end Function

/-- An assignment to an output variable. -/
structure Assign where
  target : String
  value : Node
deriving Repr, Inhabited

def Assign.text (a : Assign) : Except Fault String := do
  let value ← a.value.text
  return "\t" ++ a.target ++ " = " ++ value ++ ";\n"

/-- The main function of a shader: declarations, then assignments to outputs. -/
structure Stage where
  body : List Statement
  outputs : List Assign
deriving Repr, Inhabited

def Stage.text (st : Stage) : Except Fault String := do
  let body ← Statement.bodyText st.body
  let outputs ← st.outputs.mapM Assign.text
  return "void main() \x7b\n" ++ body ++ String.join outputs ++ "\x7d\n"

/-- A vertex and a fragment stage. -/
structure Program where
  /-- The version after the directive's name; the default version if empty. -/
  version : String
  uniforms : List Param
  attributes : List Param
  varyings : List Param
  /-- The color output of the fragment stage. -/
  fragmentOut : Param
  vertex : Stage
  fragment : Stage
  /-- Functions of both stages. -/
  functions : List Function
deriving Repr, Inhabited

namespace Program

/-- The variable to which the result of a vertex stage goes. -/
def vertexTarget : String := "gl_Position"

/-- The color output of programs that declare none. -/
def defaultOut : Param := ⟨"vec4", "fragColor"⟩

/-- The version directive of programs that name none. -/
def defaultVersion : String := "#version 330 core\n"

def versionText (version : String) : String :=
  if version.isEmpty then defaultVersion else "#version " ++ version ++ "\n"

/-- Declarations of global variables, one a line, after a qualifier. -/
def globalsText (qualifier : String) (params : List Param) : String :=
  String.join (params.map fun p => qualifier ++ " " ++ p.text ++ ";\n")

/-- Functions, each after an empty line. -/
def functionsText (fns : List Function) : Except Fault String := do
  let parts ← fns.mapM Function.text
  return String.join (parts.map ("\n" ++ ·))

/-- The source of the vertex stage. -/
def vertexText (p : Program) : Except Fault String := do
  let functions ← functionsText p.functions
  let main ← p.vertex.text
  return versionText p.version ++ globalsText "uniform" p.uniforms ++
    globalsText "in" p.attributes ++ globalsText "out" p.varyings ++ functions ++ "\n" ++ main

/-- The source of the fragment stage. -/
def fragmentText (p : Program) : Except Fault String := do
  let functions ← functionsText p.functions
  let main ← p.fragment.text
  return versionText p.version ++ globalsText "uniform" p.uniforms ++
    globalsText "in" p.varyings ++ globalsText "out" [p.fragmentOut] ++ functions ++ "\n" ++ main

/-- The first thing that makes a program unusable. -/
def check (p : Program) : Except Error Unit :=
  if p.fragmentOut.name.isEmpty || p.fragmentOut.type.isEmpty then
    .error (.cause .missingFragmentOutput)
  else if p.vertex.outputs.isEmpty then .error (.cause .missingVertexOutputs)
  else if p.fragment.outputs.isEmpty then .error (.cause .missingFragmentOutputs)
  else p.functions.forM Function.checkNamed

end Program

end ShaderExpr
