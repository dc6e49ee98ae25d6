import ShaderExpr.Session

/-!
# The console of a session

What a session prints when its lines are typed in: a banner, a prompt before each line, then the answer.
-/

namespace ShaderExpr.Console

def banner : String := "glexpr REPL. Type :help for commands, Ctrl+D exits.\n"

def prompt : String := "glexpr> "

/-- What a line leads to. -/
structure Turn where
  session : Session
  stdout : String
  stderr : String
  /-- Is the session at its end? -/
  isLast : Bool

/-- The text of a failure. -/
def failureText : Failure → String
  | .error e => e.message
  | .fault f => f.message?.getD "no answer"

/-- Does a line. Blank lines lead to nothing. -/
def turn (read : Session.Reader) (s : Session) (line : String) : Turn :=
  if (Text.trim line).isEmpty then ⟨s, "", "", false⟩
  else
    match (Session.exec read line).run s with
    | .ok .quit s => ⟨s, "", "", true⟩
    | .ok (.text t) s => ⟨s, if t.isEmpty then "" else t ++ "\n", "", false⟩
    | .error e s => ⟨s, "", "error: " ++ failureText e ++ "\n", false⟩

/-- What is printed for lines, to both channels. Behind the last line there is one more prompt. -/
def transcript (read : Session.Reader) (s : Session) : List String → String × String
  | [] => (prompt ++ "\n", "")
  | line :: rest =>
    let t := turn read s line
    if t.isLast then (prompt ++ t.stdout, t.stderr)
    else
      let (out, err) := transcript read t.session rest
      (prompt ++ t.stdout ++ out, t.stderr ++ err)

end ShaderExpr.Console
