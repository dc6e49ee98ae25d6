import ShaderExpr.Proofs.Division
import ShaderExpr.Proofs.Program.Writing
import ShaderExpr.Text.Lines

/-!
# Taking the source of a program apart

An emitter writes both stages of a program as one text, each behind a line that names it. Who reads the text
takes it apart again at lines that start with `#shader`. That gives the stages back if no other line starts so.
The number sign decides it: a stage has one at its start, in the version directive, and any other comes from
a string of the program.

* **`Program.strings`** — the strings of a program, down to those in trees.
* **`Section`** — a text in which no line is taken for the start of a stage.
* **`Emitter.writeProgram_divided`** — the text that is written has two parts, and these are the stages.
-/

namespace ShaderExpr

/-! ## Texts without a number sign -/

def Clean (s : String) : Prop := '#' ∉ s.toList

instance (s : String) : Decidable (Clean s) := inferInstanceAs (Decidable (¬ _))

@[simp] theorem clean_append {s t : String} : Clean (s ++ t) ↔ Clean s ∧ Clean t := by
  simp [Clean]

@[simp] theorem clean_join {texts : List String} : Clean (String.join texts) ↔ ∀ t ∈ texts, Clean t := by
  simp [Clean, String.toList_join]

/-- Texts with something between them are clean if all of it is. Induction on the texts; the first
two are taken together, as there is nothing between one text and itself. -/
theorem clean_intercalate {sep : String} (hsep : Clean sep) {texts : List String} (h : ∀ t ∈ texts, Clean t) :
    Clean (sep.intercalate texts) := by
  simp only [Clean, String.toList_intercalate] at *
  induction texts with
  | nil => simp
  | cons s texts ih =>
      rw [List.forall_mem_cons] at h
      cases texts with
      | nil => simpa using h.1
      | cons t texts =>
          have hrest := ih h.2
          simp_all [List.intercalate_cons_cons]

/-- What is written part by part is clean if every part is. -/
theorem clean_of_mapM {α ε : Type} {f : α → Except ε String} {l : List α} {texts : List String}
    (h : l.mapM f = .ok texts) (hf : ∀ a ∈ l, ∀ t, f a = .ok t → Clean t) : ∀ t ∈ texts, Clean t := by
  intro t ht
  obtain ⟨a, ha, ht⟩ := exists_of_mapM_eq_ok h ht
  exact hf a ha t ht

/-! ## The strings of a program -/

namespace Node

mutual

/-- The strings in a tree. -/
def strings : Node → List String
  | .literal s => [s]
  | .var s => [s]
  | .call f args => f :: stringsAll args
  | .unary op x => op :: strings x
  | .binary op x y => op :: (strings x ++ strings y)
  | .missing => []

def stringsAll : List Node → List String
  | [] => []
  | n :: ns => strings n ++ stringsAll ns

end

theorem stringsAll_eq_flatMap (ns : List Node) : stringsAll ns = ns.flatMap strings := by
  induction ns with
  | nil => rfl
  | cons n ns ih => rw [stringsAll, ih, List.flatMap_cons]

@[simp] theorem clean_parenthesized {s : String} : Clean (parenthesized s) ↔ Clean s := by
  simp [parenthesized, Clean]

/-- Writing a tree adds no number sign: all that stands around its strings is parentheses, commas
and blanks. Induction over the tree. -/
theorem clean_inner {n : Node} (hn : ∀ s ∈ n.strings, Clean s) {t : String} (ht : n.inner = .ok t) : Clean t := by
  induction n using Node.induction generalizing t with
  | literal s =>
      cases ht
      exact hn s (by simp [strings])
  | var s =>
      cases ht
      exact hn s (by simp [strings])
  | call f args ih =>
      -- the name and the arguments, in parentheses and with commas between them
      rw [strings, stringsAll_eq_flatMap, List.forall_mem_cons, List.forall_mem_flatMap] at hn
      rw [inner, inners_eq_mapM] at ht
      obtain ⟨texts, htexts, h⟩ := bind_eq_ok_iff.mp ht
      cases h
      have hclean := clean_of_mapM htexts fun a ha t => ih a ha (hn.2 a ha)
      exact clean_append.mpr ⟨hn.1, clean_parenthesized.mpr (clean_intercalate (by decide) hclean)⟩
  | unary op x ih =>
      rw [strings, List.forall_mem_cons] at hn
      obtain ⟨s, hs, h⟩ := bind_eq_ok_iff.mp ht
      cases h
      have hclean := ih hn.2 hs
      split <;> simp [hn.1, hclean]
  | binary op x y ihx ihy =>
      rw [strings, List.forall_mem_cons, List.forall_mem_append] at hn
      obtain ⟨s, hs, h⟩ := bind_eq_ok_iff.mp ht
      obtain ⟨s', hs', h⟩ := bind_eq_ok_iff.mp h
      cases h
      have hleft := ihx hn.2.1 hs
      have hright := ihy hn.2.2 hs'
      have hspace : Clean " " := by decide
      split <;> simp [hn.1, hleft, hright, hspace]
  | missing => cases ht

theorem clean_text {n : Node} (hn : ∀ s ∈ n.strings, Clean s) {t : String} (ht : n.text = .ok t) : Clean t := by
  cases n with
  | missing => cases ht
  | _ => exact clean_inner hn ht

end Node

def Param.strings (p : Param) : List String := [p.type, p.name]

theorem Param.clean_text {p : Param} (hp : ∀ s ∈ p.strings, Clean s) : Clean p.text := by
  have hlayout : Clean " " := by decide
  simp_all [text, strings]

namespace Statement

def strings (st : Statement) : List String := st.type :: st.name :: st.value.strings

/-- A declaration adds to the text of its value a type, a name and some signs. -/
theorem clean_text {st : Statement} (hst : ∀ s ∈ st.strings, Clean s) {t : String} (ht : st.text = .ok t) :
    Clean t := by
  obtain ⟨value, hvalue, h⟩ := bind_eq_ok_iff.mp ht
  cases h
  rw [strings, List.forall_mem_cons, List.forall_mem_cons] at hst
  have hclean := Node.clean_text hst.2.2 hvalue
  have hlayout : Clean " " ∧ Clean " = " ∧ Clean ";" := by decide
  simp_all

/-- Declarations are written line by line, or not at all where there are none. -/
theorem clean_bodyText {sts : List Statement} (hsts : ∀ st ∈ sts, ∀ s ∈ st.strings, Clean s) {t : String}
    (ht : bodyText sts = .ok t) : Clean t := by
  unfold bodyText at ht
  split at ht
  · cases ht
    decide
  · cases htexts : texts "\t" sts with
    | error f =>
        rw [htexts] at ht
        cases ht
    | ok body =>
        rw [htexts] at ht
        cases ht
        obtain ⟨lines, hlines, h⟩ := bind_eq_ok_iff.mp htexts
        cases h
        have hclean := clean_of_mapM hlines fun st hst t => clean_text (hsts st hst)
        -- each line has a tab before it, and lines are ended and not only divided
        refine clean_append.mpr ⟨clean_intercalate (by decide) ?_, by decide⟩
        rw [List.forall_mem_map]
        exact fun t ht => clean_append.mpr ⟨by decide, hclean t ht⟩

end Statement

namespace Function

def strings (fn : Function) : List String :=
  fn.name :: fn.returnType :: (fn.params.flatMap Param.strings ++ fn.body.flatMap Statement.strings ++
    fn.result.strings)

/-- A function is a head, a body and a result, each of which is clean. -/
theorem clean_text {fn : Function} (hfn : ∀ s ∈ fn.strings, Clean s) {t : String} (ht : fn.text = .ok t) :
    Clean t := by
  obtain ⟨body, hbody, h⟩ := bind_eq_ok_iff.mp ht
  obtain ⟨result, hresult, h⟩ := bind_eq_ok_iff.mp h
  cases h
  simp only [strings, List.forall_mem_cons, List.forall_mem_append, List.forall_mem_flatMap] at hfn
  obtain ⟨hname, hreturn, ⟨hparams, hbodies⟩, hresults⟩ := hfn
  have hbodyClean := Statement.clean_bodyText hbodies hbody
  have hresultClean := Node.clean_text hresults hresult
  have hparamsClean : Clean (", ".intercalate (fn.params.map Param.text)) :=
    clean_intercalate (by decide) (List.forall_mem_map.mpr fun p hp => Param.clean_text (hparams p hp))
  have hlayout : Clean " " ∧ Clean "(" ∧ Clean ") \x7b\n" ∧ Clean "\treturn " ∧ Clean ";\n\x7d\n" := by decide
  simp_all

end Function

def Assign.strings (a : Assign) : List String := a.target :: a.value.strings

/-- An assignment adds to the text of its value the name that it assigns to. -/
theorem Assign.clean_text {a : Assign} (ha : ∀ s ∈ a.strings, Clean s) {t : String} (ht : a.text = .ok t) :
    Clean t := by
  obtain ⟨value, hvalue, h⟩ := bind_eq_ok_iff.mp ht
  cases h
  rw [strings, List.forall_mem_cons] at ha
  have hclean := Node.clean_text ha.2 hvalue
  have hlayout : Clean "\t" ∧ Clean " = " ∧ Clean ";\n" := by decide
  simp_all

namespace Stage

def strings (st : Stage) : List String :=
  st.body.flatMap Statement.strings ++ st.outputs.flatMap Assign.strings

/-- The main function of a stage holds its declarations and then its assignments. -/
theorem clean_text {st : Stage} (hst : ∀ s ∈ st.strings, Clean s) {t : String} (ht : st.text = .ok t) :
    Clean t := by
  obtain ⟨body, hbody, h⟩ := bind_eq_ok_iff.mp ht
  obtain ⟨outputs, houtputs, h⟩ := bind_eq_ok_iff.mp h
  cases h
  simp only [strings, List.forall_mem_append, List.forall_mem_flatMap] at hst
  have hbodyClean := Statement.clean_bodyText hst.1 hbody
  have houtputsClean := clean_of_mapM houtputs fun a ha t => Assign.clean_text (hst.2 a ha)
  have hlayout : Clean "void main() \x7b\n" ∧ Clean "\x7d\n" := by decide
  simp_all

/-- The text of a stage ends with the line of its closing brace. -/
theorem exists_text_eq_append {st : Stage} {t : String} (ht : st.text = .ok t) : ∃ s, t = s ++ "\n" := by
  obtain ⟨body, hbody, h⟩ := bind_eq_ok_iff.mp ht
  obtain ⟨outputs, houtputs, h⟩ := bind_eq_ok_iff.mp h
  cases h
  exact ⟨"void main() \x7b\n" ++ body ++ String.join outputs ++ "\x7d", by simp [String.append_assoc]⟩

end Stage

/-! ## Sections -/

/-- A text of whole lines, none of which is taken for the start of a stage. -/
structure Section (text : String) : Prop where
  ended : ∃ s, text = s ++ "\n"
  plain : ∀ x ∈ Text.lines text, ∀ rest, x ≠ "#shader" ++ rest

/-- Behind its version directive a source has no number sign. The only line that can begin with one
is the first, and that is the directive. -/
theorem section_of_clean {s : String} (hs : Clean s) (hended : ∃ s', s = s' ++ "\n") :
    Section ("#version " ++ s) where
  ended := by
    obtain ⟨s, rfl⟩ := hended
    exact ⟨"#version " ++ s, by rw [String.append_assoc]⟩
  plain := by
    intro x hx rest hrest
    obtain ⟨cs, hcs, rfl⟩ := List.mem_map.mp hx
    have hcs' : cs = '#' :: 's' :: ("hader".toList ++ rest.toList) := by
      have hchars := congrArg String.toList hrest
      rwa [String.toList_ofList, String.toList_append] at hchars
    have hlines : Text.linesFrom [] ("#version " ++ s).toList =
        Text.linesFrom "#version ".toList.reverse s.toList := by
      rw [String.toList_append]
      rfl
    rw [hlines] at hcs
    -- a line is made of the text behind the directive, or it is the first
    rcases Text.subset_of_mem_linesFrom hcs with hsub | ⟨y, hy, _⟩
    · exact hs (hsub (by simp [hcs']))
    · -- the first line goes on after the number sign, but in another way
      rw [hy] at hcs'
      injection hcs' with _ h
      injection h with h _
      exact absurd h (by decide)

namespace Program

def strings (p : Program) : List String :=
  p.version :: ((p.uniforms ++ p.attributes ++ p.varyings ++ [p.fragmentOut]).flatMap Param.strings ++
    p.vertex.strings ++ p.fragment.strings ++ p.functions.flatMap Function.strings)

theorem clean_globalsText {qualifier : String} (hqualifier : Clean qualifier) {params : List Param}
    (hparams : ∀ p ∈ params, ∀ s ∈ p.strings, Clean s) : Clean (globalsText qualifier params) := by
  unfold globalsText
  rw [clean_join, List.forall_mem_map]
  intro p hp
  have hclean := Param.clean_text (hparams p hp)
  have hlayout : Clean " " ∧ Clean ";\n" := by decide
  simp_all

theorem clean_functionsText {fns : List Function} (hfns : ∀ fn ∈ fns, ∀ s ∈ fn.strings, Clean s) {t : String}
    (ht : functionsText fns = .ok t) : Clean t := by
  obtain ⟨texts, htexts, h⟩ := bind_eq_ok_iff.mp ht
  cases h
  have hclean := clean_of_mapM htexts fun fn hfn t => Function.clean_text (hfns fn hfn)
  rw [clean_join, List.forall_mem_map]
  exact fun t ht => clean_append.mpr ⟨by decide, hclean t ht⟩

/-- The version directive has one number sign, at its start, whether the version is given or left
out. -/
theorem exists_versionText_eq {version : String} (h : Clean version) :
    ∃ s, Clean s ∧ versionText version = "#version " ++ s := by
  unfold versionText
  split
  · exact ⟨"330 core\n", by decide, by decide⟩
  · exact ⟨version ++ "\n", clean_append.mpr ⟨h, by decide⟩, by rw [String.append_assoc]⟩

/-- What both stages of a program have in common: a version, globals, functions and a main
function. -/
theorem section_of_parts {version globals functions main : String} (hversion : Clean version)
    (hglobals : Clean globals) (hfunctions : Clean functions) (hmain : Clean main)
    (hended : ∃ s, main = s ++ "\n") :
    Section (versionText version ++ globals ++ functions ++ "\n" ++ main) := by
  obtain ⟨directive, hdirective, heq⟩ := exists_versionText_eq hversion
  obtain ⟨body, rfl⟩ := hended
  have hsection : Section ("#version " ++ (directive ++ globals ++ functions ++ "\n" ++ (body ++ "\n"))) :=
    section_of_clean (by simp_all) ⟨_, (String.append_assoc).symm⟩
  rw [heq]
  simpa only [String.append_assoc] using hsection

variable {p : Program} (hp : ∀ s ∈ p.strings, Clean s)
include hp

theorem section_vertexText {t : String} (ht : p.vertexText = .ok t) : Section t := by
  obtain ⟨functions, hfunctions, h⟩ := bind_eq_ok_iff.mp ht
  obtain ⟨main, hmain, h⟩ := bind_eq_ok_iff.mp h
  cases h
  simp only [strings, List.forall_mem_cons, List.forall_mem_append, List.forall_mem_flatMap] at hp
  -- of the strings of the program those of the fragment stage and its output do not occur here
  obtain ⟨hversion, ⟨⟨⟨⟨⟨huniforms, hattributes⟩, hvaryings⟩, _⟩, hvertex⟩, _⟩, hfns⟩ := hp
  have hglobals : Clean (globalsText "uniform" p.uniforms ++ globalsText "in" p.attributes ++
      globalsText "out" p.varyings) := by
    simp only [clean_append]
    exact ⟨⟨clean_globalsText (by decide) huniforms, clean_globalsText (by decide) hattributes⟩,
      clean_globalsText (by decide) hvaryings⟩
  have hsection := section_of_parts hversion hglobals (clean_functionsText hfns hfunctions)
    (Stage.clean_text hvertex hmain) (Stage.exists_text_eq_append hmain)
  simpa only [String.append_assoc] using hsection

/-- The source of the fragment stage is a section like that of the vertex stage, with other
globals. -/
theorem section_fragmentText {t : String} (ht : p.fragmentText = .ok t) : Section t := by
  obtain ⟨functions, hfunctions, h⟩ := bind_eq_ok_iff.mp ht
  obtain ⟨main, hmain, h⟩ := bind_eq_ok_iff.mp h
  cases h
  simp only [strings, List.forall_mem_cons, List.forall_mem_append, List.forall_mem_flatMap] at hp
  obtain ⟨hversion, ⟨⟨⟨⟨⟨huniforms, _⟩, hvaryings⟩, hout⟩, _⟩, hfragment⟩, hfns⟩ := hp
  have hglobals : Clean (globalsText "uniform" p.uniforms ++ globalsText "in" p.varyings ++
      globalsText "out" [p.fragmentOut]) := by
    simp only [clean_append]
    exact ⟨⟨clean_globalsText (by decide) huniforms, clean_globalsText (by decide) hvaryings⟩,
      clean_globalsText (by decide) (by simpa using hout)⟩
  have hsection := section_of_parts hversion hglobals (clean_functionsText hfns hfunctions)
    (Stage.clean_text hfragment hmain) (Stage.exists_text_eq_append hmain)
  simpa only [String.append_assoc] using hsection

end Program

/-- Two sections, each behind its line, are divided at these two lines and at no other. -/
theorem divided_of_sections {vertex fragment : String} (hvertex : Section vertex) (hfragment : Section fragment) :
    Divided ("#shader" ++ ·) (Text.lines ("#shader vertex\n" ++ vertex ++ "\n#shader fragment\n" ++ fragment)) []
      [(" vertex", Text.lines vertex ++ [""]), (" fragment", Text.lines fragment)] where
  eq_append := by
    have hfirst : Text.lines "#shader vertex\n" = ["#shader vertex"] := by decide
    have hsecond : Text.lines "\n#shader fragment\n" = ["", "#shader fragment"] := by decide
    -- texts of whole lines one after the other have their lines one after the other
    rw [String.append_assoc, String.append_assoc, @Text.lines_append "#shader vertex\n" ⟨"#shader vertex", rfl⟩,
      Text.lines_append hvertex.ended, @Text.lines_append "\n#shader fragment\n" ⟨"\n#shader fragment", rfl⟩,
      hfirst, hsecond]
    simp
  before_plain := List.forall_mem_nil _
  parts_plain := by
    have hempty : ∀ rest, "" ≠ "#shader" ++ rest := by
      intro rest h
      exact absurd (congrArg String.toList h) (by simp)
    rw [List.forall_mem_cons, List.forall_mem_append, List.forall_mem_singleton, List.forall_mem_singleton]
    exact ⟨⟨hvertex.plain, hempty⟩, hfragment.plain⟩

namespace Emitter

/-- **The source of a program falls apart into its stages.** Whatever earlier writing left in the buffer:
nothing is written of a program that lacks something, and the error is given back. Any other program whose
trees are complete is written at once. And if no string of it has a number sign, two lines of the text start
with `#shader`: one names the vertex stage, and the source of that stage and an empty line are behind it; the
other names the fragment stage, and what is behind it is the source of that stage. Line ends in strings do
no harm. -/
theorem writeProgram_divided (em : Emitter) (w : Writer) (p : Program) :
    (∀ e, p.check = .error e → (em.writeProgram w p).2 = ⟨[], 0, some (.error e)⟩) ∧
      (p.check = .ok () → p.Complete → ∃ text vertex fragment,
        p.vertexText = .ok vertex ∧ p.fragmentText = .ok fragment ∧
          (em.writeProgram w p).2 = .written w text ∧
          (em.writeProgram .whole p).2 = ⟨[text], text.utf8ByteSize, none⟩ ∧
          ((∀ s ∈ p.strings, '#' ∉ s.toList) →
            Divided ("#shader" ++ ·) (Text.lines text) []
              [(" vertex", Text.lines vertex ++ [""]), (" fragment", Text.lines fragment)])) := by
  constructor
  · intro e he
    simp only [writeProgram, he]
    rfl
  · intro hcheck hp
    -- complete stages have texts, and the text that is written consists of these
    obtain ⟨vertex, hvertex⟩ := Program.exists_vertexText_iff.mpr ⟨hp.functions, hp.vertex⟩
    obtain ⟨fragment, hfragment⟩ := Program.exists_fragmentText_iff.mpr ⟨hp.functions, hp.fragment⟩
    refine ⟨_, vertex, fragment, hvertex, hfragment, em.writeProgram_of_texts w hcheck hvertex hfragment,
      em.writeProgram_of_texts .whole hcheck hvertex hfragment, fun hclean => ?_⟩
    exact divided_of_sections (Program.section_vertexText hclean hvertex)
      (Program.section_fragmentText hclean hfragment)

/-- A program that calls a function in its fragment stage. -/
def shadeProgram : Program where
  version := ""
  uniforms := [⟨"float", "time"⟩]
  attributes := [⟨"vec2", "at"⟩]
  varyings := [⟨"vec2", "uv"⟩]
  fragmentOut := Program.defaultOut
  vertex :=
    ⟨[], [⟨"gl_Position", .call "vec4" [.var "at", .literal "0.0", .literal "1.0"]⟩, ⟨"uv", .var "at"⟩]⟩
  fragment := ⟨[⟨"float", "d", .call "shade" [.var "uv"]⟩], [⟨"fragColor", .call "vec4" [.var "d"]⟩]⟩
  functions := [⟨"shade", "float", [⟨"vec2", "p"⟩], [],
    .binary "-" (.literal "1.0") (.call "length" [.var "p"])⟩]

/-- An emitter that has written a line with `#shader` at its start. -/
def usedEmitter : Emitter := (new.writeFunctions .whole [⟨"f", "#shader", [], [], .literal "1.0"⟩]).1

/-- A program with a function, written by an emitter whose buffer still holds a line that looks like
the start of a stage. -/
theorem writeProgram_divided_shadeProgram :
    shadeProgram.check = .ok () ∧ shadeProgram.Complete ∧ (∀ s ∈ shadeProgram.strings, '#' ∉ s.toList) ∧
      ∃ text vertex fragment, shadeProgram.vertexText = .ok vertex ∧ shadeProgram.fragmentText = .ok fragment ∧
        (usedEmitter.writeProgram .whole shadeProgram).2 = ⟨[text], text.utf8ByteSize, none⟩ ∧
        Divided ("#shader" ++ ·) (Text.lines text) []
          [(" vertex", Text.lines vertex ++ [""]), (" fragment", Text.lines fragment)] := by
  have hcheck : shadeProgram.check = .ok () := rfl
  have hcomplete : shadeProgram.Complete := by
    constructor
    · simp only [shadeProgram, List.forall_mem_singleton]
      exact ⟨List.forall_mem_nil _, by decide⟩
    · exact ⟨List.forall_mem_nil _, by decide⟩
    · exact ⟨by decide, by decide⟩
  have hclean : ∀ s ∈ shadeProgram.strings, '#' ∉ s.toList := by decide
  obtain ⟨text, vertex, fragment, hvertex, hfragment, _, hwritten, hdivided⟩ :=
    (writeProgram_divided usedEmitter .whole shadeProgram).2 hcheck hcomplete
  exact ⟨hcheck, hcomplete, hclean, text, vertex, fragment, hvertex, hfragment, hwritten, hdivided hclean⟩

end Emitter

end ShaderExpr
