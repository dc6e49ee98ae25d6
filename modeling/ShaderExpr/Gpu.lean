import ShaderExpr.Program

/-!
# The graphics processor

Programs would be compiled by the driver of a graphics processor. There is none here: every request
fails, and what a request returns beside its error says that nothing was found.
-/

namespace ShaderExpr.Gpu

/-- Why every request fails. -/
def unavailable : Error := .cause .gpuUnavailable

/-- Opens a context of one pixel for compilation. -/
def start : Except Error Unit := .error unavailable

/-- Compiles the source of a program. -/
def compile (_source : String) : Except Error Unit := .error unavailable

/-- Compiles a program only to see whether it compiles. -/
def check (_p : Program) : Except Error Unit := .error unavailable

/-- The error state of a program. -/
def status : Error := unavailable

/-- The location of a uniform, which is not found. -/
def uniformLocation (_name : String) : Int × Error := (-1, unavailable)

/-- The location of an attribute, which is not found. -/
def attributeLocation (_name : String) : Nat × Error := (0, unavailable)

end ShaderExpr.Gpu
