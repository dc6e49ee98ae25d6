import Mathlib.Data.List.Induction
import ShaderExpr.Proofs.Session.LateInput

/-!
# What a session has printed

A define line prints the declarations that it adds. The command `:emit` prints all declarations of the
block, which is by then another block if inputs were declared in between. This module shows that it
prints again what the define lines printed, in their order, since the session last started over.

* **`joinLines_append`** — texts can be put on lines of their own part by part.
* **`Replayable.after_statements`** — what a line does to the declarations and what it prints of them.
* **`printed`** — what the define lines printed since the session last started over.
* **`source_run`** — the declarations of a session are what was printed.
* **`run_input_conservative`** — declaring an input late changes neither the declarations nor what was
  printed of them.
-/

namespace ShaderExpr

/-! ## Lines -/

/-- The texts that are not empty, on lines of their own. -/
def joinLines (texts : List String) : String := "\n".intercalate (texts.filter (· ≠ ""))

theorem joinLines_of_ne_empty {texts : List String} (h : ∀ t ∈ texts, t ≠ "") :
    joinLines texts = "\n".intercalate texts := by
  unfold joinLines
  rw [List.filter_eq_self.mpr fun t ht => by simpa using h t ht]

@[simp] theorem joinLines_nil : joinLines [] = "" := by
  rw [joinLines, List.filter_nil, String.intercalate_nil]

@[simp] theorem joinLines_singleton (t : String) : joinLines [t] = t := by
  unfold joinLines
  by_cases h : t = "" <;> simp [h]

theorem joinLines_pair_empty (t : String) : joinLines [t, ""] = t := by
  unfold joinLines
  by_cases h : t = "" <;> simp [h]

/-- Texts on lines of their own are not empty, unless there are none. -/
theorem intercalate_ne_empty {texts : List String} (h : ∀ t ∈ texts, t ≠ "") (hnil : texts ≠ []) :
    "\n".intercalate texts ≠ "" := by
  cases texts with
  | nil => exact absurd rfl hnil
  | cons t texts =>
      have ht : t ≠ "" := h t List.mem_cons_self
      cases texts with
      | nil => simpa using ht
      | cons u texts => simp [String.append_eq_empty_iff]

/-- Texts can be put on lines part by part: a part without text leaves no line behind. So three
cases, since either part may be without text. -/
theorem joinLines_append (xs ys : List String) :
    joinLines (xs ++ ys) = joinLines [joinLines xs, joinLines ys] := by
  have hne (l : List String) : ∀ t ∈ l.filter (· ≠ ""), t ≠ "" := by
    intro t ht
    simpa using (List.mem_filter.mp ht).2
  -- the first part is without text
  by_cases hx : xs.filter (· ≠ "") = []
  · have hxs : joinLines xs = "" := by rw [joinLines, hx, String.intercalate_nil]
    rw [hxs, joinLines, List.filter_append, hx, List.nil_append]
    exact (joinLines_singleton _).symm
  -- the second part is
  by_cases hy : ys.filter (· ≠ "") = []
  · have hys : joinLines ys = "" := by rw [joinLines, hy, String.intercalate_nil]
    rw [hys, joinLines, List.filter_append, hy, List.append_nil]
    exact (joinLines_pair_empty _).symm
  -- both parts have lines, which go one after the other
  have hxs : joinLines xs ≠ "" := intercalate_ne_empty (hne xs) hx
  have hys : joinLines ys ≠ "" := intercalate_ne_empty (hne ys) hy
  have hboth : ∀ t ∈ [joinLines xs, joinLines ys], t ≠ "" := by simp [hxs, hys]
  rw [joinLines_of_ne_empty hboth, String.intercalate_cons_cons, String.intercalate_singleton]
  unfold joinLines
  rw [List.filter_append, String.intercalate_append_of_ne_nil hx hy]

namespace Statement

/-- A declaration is never written as nothing. -/
theorem text_ne_empty {st : Statement} {text : String} (h : st.text = .ok text) : text ≠ "" := by
  obtain ⟨value, _, htext⟩ := bind_eq_ok_iff.mp h
  cases htext
  simp [String.append_eq_empty_iff]

/-- Declarations are written on lines of their own, none of which is empty. -/
theorem texts_eq_ok_iff {sts : List Statement} {text : String} :
    texts "" sts = .ok text ↔
      ∃ lines, sts.mapM Statement.text = .ok lines ∧ text = joinLines lines := by
  unfold texts
  rw [bind_eq_ok_iff]
  refine exists_congr fun lines => and_congr_right fun hlines => ?_
  have hne : ∀ t ∈ lines, t ≠ "" := by
    intro t ht
    obtain ⟨st, _, hst⟩ := exists_of_mapM_eq_ok hlines ht
    exact text_ne_empty hst
  rw [joinLines_of_ne_empty hne]
  simp [pure, Except.pure, eq_comm]

theorem texts_nil : texts "" [] = .ok "" :=
  texts_eq_ok_iff.mpr ⟨[], rfl, joinLines_nil.symm⟩

theorem texts_append {xs ys : List Statement} {s t : String} (hxs : texts "" xs = .ok s)
    (hys : texts "" ys = .ok t) : texts "" (xs ++ ys) = .ok (joinLines [s, t]) := by
  obtain ⟨ls, hls, rfl⟩ := texts_eq_ok_iff.mp hxs
  obtain ⟨ms, hms, rfl⟩ := texts_eq_ok_iff.mp hys
  refine texts_eq_ok_iff.mpr ⟨ls ++ ms, ?_, (joinLines_append ls ms).symm⟩
  rw [List.mapM_append, hls, hms]
  rfl

end Statement

namespace Session

variable {read : Reader} {s s' : Session} {line : String} {reply : Reply}

/-! ## What a line does to the declarations -/

/-- A define line that succeeds adds declarations, and prints them. -/
theorem define_prints (h : (define read line).run s = .ok reply s') :
    ∃ added text, s'.block.statements = s.block.statements ++ added ∧
      Statement.texts "" added = .ok text ∧ reply = .text text := by
  obtain ⟨step, b, text, _, hstep, htext, rfl, rfl⟩ := define_eq_ok h
  obtain ⟨_, _, _, _, _, hadd⟩ := Block.defineStep_eq_ok_iff.mp hstep
  obtain ⟨_, ds, _, hds⟩ := Block.addBindings_eq_ok hadd
  have hstatements : b.statements = s.block.statements ++ ds.map Declaration.statement := by
    rw [Block.statements, Block.statements, hds, List.map_append]
    rfl
  -- what is printed is what stands behind the declarations that were there
  have hdrop : b.statements.drop s.block.size = ds.map Declaration.statement := by
    rw [hstatements]
    exact List.drop_left' (List.length_map _)
  exact ⟨_, text, hstatements, hdrop ▸ htext, rfl⟩

/-- A command other than the one that starts over keeps the declarations. All but one do not touch
the block, and an input that is declared late is inserted before them. -/
theorem Replayable.command_statements (hs : s.Replayable) {words : List String}
    (hempty : "" ∉ words) (hreset : words.head? ≠ some ":reset")
    (h : (command words).run s = .ok reply s') : s'.block.statements = s.block.statements := by
  unfold command at h
  split at h
  -- quitting, in both spellings, and help
  · cases h; rfl
  · cases h; rfl
  · cases h; rfl
  · next name shapeName =>
      cases hshape : Shape.ofName? shapeName with
      | none =>
          rw [Session.addInput, hshape] at h
          cases h
      | some shape =>
          have hname : name ≠ "" := by
            rintro rfl
            exact hempty (List.mem_cons_of_mem _ List.mem_cons_self)
          have hadd := hs.addInput hname hshape
          split at hadd
          · obtain ⟨e, hfail, _⟩ := hadd
            rw [hfail] at h
            cases h
          · rw [hadd] at h
            cases h
            rfl
  · cases h
  -- the commands that only show something
  · rw [(present_eq_ok h).1]
  · rw [(present_eq_ok h).1]
  · rw [(present_eq_ok h).1]
  · exact absurd rfl hreset
  · cases h

/-- Is a line a command? Every other line is a define line. -/
def isCommand (line : String) : Bool := (Text.trim line).startsWith ":"

/-- Is a line the command that starts over? -/
def isReset (line : String) : Bool := (Text.words line).head? == some ":reset"

/-- Starting over leaves nothing, whatever else stands on the line. -/
theorem exec_of_isReset (hreset : isReset line = true) (read : Reader) (s : Session) :
    (exec read line).run s = .ok (.text "") empty := by
  obtain ⟨ws, hwords⟩ := List.head?_eq_some_iff.mp (eq_of_beq hreset)
  rw [exec_of_words hwords rfl]
  rfl

/-- What a line is answered with. -/
def answer (read : Reader) (s : Session) (line : String) : Outcome Reply :=
  match (exec read line).run s with
  | .ok reply _ => .ok reply
  | .error f _ => .error f

/-- What a line printed, if it is a define line that succeeded. -/
def printedBy? : String × Outcome Reply → Option String
  | (line, .ok (.text text)) => if isCommand line then none else some text
  | _ => none

/-- **A line that does not start over** adds to the declarations what it printed of them, if it is a
define line that succeeded; else it adds nothing. -/
theorem Replayable.after_statements (hs : s.Replayable) (read : Reader) (hreset : isReset line = false) :
    ∃ added, (Session.after read s line).block.statements = s.block.statements ++ added ∧
      Statement.texts "" added = .ok ((printedBy? (line, answer read s line)).getD "") := by
  have hsame : ∃ added, s.block.statements = s.block.statements ++ added ∧
      Statement.texts "" added = .ok "" := ⟨[], (List.append_nil _).symm, Statement.texts_nil⟩
  unfold answer
  cases hexec : (exec read line).run s with
  | error f s' =>
      rw [after_of_error hexec, hs.exec_error hexec]
      exact hsame
  | ok reply s' =>
      rw [after_of_ok hexec]
      unfold exec at hexec
      simp only at hexec ⊢
      split at hexec
      · next hcommand =>
          rw [Text.words_trim] at hexec
          have hempty : "" ∉ Text.words line := fun hmem => Text.ne_empty_of_mem_words hmem rfl
          have hhead : (Text.words line).head? ≠ some ":reset" := ne_of_beq_false hreset
          have hnone : printedBy? (line, .ok reply) = none := by
            cases reply with
            | quit => rfl
            | text t => rw [printedBy?, isCommand, if_pos hcommand]
          rw [hs.command_statements hempty hhead hexec, hnone]
          exact hsame
      · next hdefine =>
          obtain ⟨added, text, hadded, htext, rfl⟩ := define_prints hexec
          have hsome : printedBy? (line, .ok (.text text)) = some text := by
            rw [printedBy?, isCommand, if_neg hdefine]
          rw [hsome]
          exact ⟨added, hadded, htext⟩

/-! ## What was printed -/

/-- The lines with the answers that the session gives to them. -/
def answers (read : Reader) : Session → List String → List (String × Outcome Reply)
  | _, [] => []
  | s, line :: lines => (line, answer read s line) :: answers read (after read s line) lines

/-- What comes after the last line that starts over. -/
def sinceReset (as : List (String × Outcome Reply)) : List (String × Outcome Reply) :=
  (as.reverse.takeWhile fun a => !isReset a.1).reverse

/-- What the define lines that succeeded printed since the session last started over, in order. -/
def printed (read : Reader) (lines : List String) : List String :=
  (sinceReset (answers read empty lines)).filterMap printedBy?

/-- The answers to the lines before do not depend on the last line. -/
theorem answers_append_singleton (read : Reader) (s : Session) (lines : List String) (line : String) :
    answers read s (lines ++ [line]) =
      answers read s lines ++ [(line, answer read (lines.foldl (after read) s) line)] := by
  induction lines generalizing s with
  | nil => rfl
  | cons l lines ih => rw [List.cons_append, answers, answers, ih, List.foldl_cons, List.cons_append]

/-- What was printed grows at its end with each define line, and is forgotten when the session
starts over. -/
theorem printed_append_singleton (read : Reader) (lines : List String) (line : String) :
    printed read (lines ++ [line]) =
      if isReset line then []
      else printed read lines ++ (printedBy? (line, answer read (run read lines) line)).toList := by
  unfold printed sinceReset
  rw [answers_append_singleton, List.reverse_append, List.reverse_singleton, List.singleton_append,
    List.takeWhile_cons]
  cases isReset line with
  | true => rfl
  | false =>
      rw [Bool.not_false, if_pos rfl, List.reverse_cons, List.filterMap_append, if_neg nofun,
        List.filterMap_cons, List.filterMap_nil, run]
      cases printedBy? _ with
      | none => rfl
      | some text => rfl

theorem joinLines_toList (o : Option String) : joinLines o.toList = o.getD "" := by
  cases o with
  | none => exact joinLines_nil
  | some t => exact joinLines_singleton t

/-- **The declarations of a session are what was printed.** Induction on the lines, with the last of
them as the step: the invariant of sessions is needed where it stands, and so is what was printed up
to there. -/
theorem source_run (read : Reader) (lines : List String) :
    (run read lines).block.source = .ok (joinLines (printed read lines)) := by
  have hempty : empty.block.source = .ok (joinLines []) := by
    rw [joinLines_nil]
    exact Statement.texts_nil
  induction lines using List.reverseRecOn with
  | nil => exact hempty
  | append_singleton lines line ih =>
      rw [run_append_singleton, printed_append_singleton]
      cases hreset : isReset line with
      | true =>
          -- nothing is declared, and what was printed does not count any more
          rw [after_of_ok (exec_of_isReset hreset read _)]
          exact hempty
      | false =>
          obtain ⟨added, hadded, htext⟩ := (replayable_run read lines).after_statements read hreset
          rw [if_neg Bool.false_ne_true, joinLines_append, joinLines_toList, Block.source,
            Block.text, hadded]
          exact Statement.texts_append ih htext

/-- **Declaring an input late is conservative**, after whatever lines, however they are read. The line that
declares it is answered without an error iff its name is not in scope, and else refused as a repeated name.
If it is not refused, the declarations are what they were, and the names in scope are those of the inputs,
the new one, and those of the declarations. So at any time the command that prints the declarations gives
what the define lines printed since the session last started over, each on lines of its own. -/
theorem run_input_conservative (read : Reader) (lines : List String) :
    (∀ line name shapeName shape, Text.words line = [":input", name, shapeName] →
      Shape.ofName? shapeName = some shape →
        ((∃ reply s', (exec read line).run (run read lines) = .ok reply s') ↔
          name ∉ (run read lines).block.scope.names) ∧
        (name ∈ (run read lines).block.scope.names →
          ∃ e, (exec read line).run (run read lines) = .error (.error e) (run read lines) ∧
            e.isKind .duplicateBinding = true) ∧
        ∀ reply s', (exec read line).run (run read lines) = .ok reply s' →
          s'.block.statements = (run read lines).block.statements ∧
          s'.block.scope.names =
            (run read lines).block.inputs.map Input.name ++
              name :: (run read lines).block.statements.map Statement.name) ∧
      ∀ line, (Text.words line).head? = some ":emit" →
        (exec read line).run (run read lines) =
          .ok (.text ("\n".intercalate ((printed read lines).filter (· ≠ "")))) (run read lines) := by
  have hs : (run read lines).Replayable := replayable_run read lines
  constructor
  · intro line name shapeName shape hwords hshape
    have hexec := hs.exec_input read hwords hshape
    -- refused or taken, and everything else follows from which of the two it is
    by_cases hmem : name ∈ (run read lines).block.scope.names
    · rw [if_pos hmem] at hexec
      obtain ⟨e, hfail, hkind⟩ := hexec
      rw [hfail]
      exact ⟨⟨nofun, fun hfresh => absurd hmem hfresh⟩, fun _ => ⟨e, rfl, hkind⟩, nofun⟩
    · rw [if_neg hmem] at hexec
      rw [hexec]
      refine ⟨⟨fun _ => hmem, fun _ => ⟨_, _, rfl⟩⟩, fun hmem' => absurd hmem' hmem, ?_⟩
      intro reply s' hs'
      cases hs'
      refine ⟨rfl, ?_⟩
      rw [Block.names_insertInput, Block.statements, List.map_map]
      rfl
  · intro line hemit
    obtain ⟨ws, hwords⟩ := List.head?_eq_some_iff.mp hemit
    have hcommand : command (":emit" :: ws) = present fun b => Outcome.ofFault b.source := rfl
    rw [exec_of_words hwords rfl, hcommand]
    refine run_bind_eq_ok_iff.mpr ⟨_, _, rfl, run_bind_eq_ok_iff.mpr ⟨_, _, ?_, rfl⟩⟩
    exact run_lift_eq_ok_iff.mpr ⟨mapError_eq_ok_iff.mpr (source_run read lines), rfl⟩

/-- A reader that knows a few lines. -/
def fewLines : Reader
  | "n" => .ok (some ⟨Description.assignment "n" "normalize" (.word "v"), #[]⟩)
  | "p" => .ok (some ⟨.mapping 1 [.word "p", .mapping 1 [.word "scale", .sequence 1 [.word "n", .word "k"]],
      .word "q", .scalar 1 .int "2"], #[]⟩)
  | "r" => .ok (some ⟨.mapping 1 [.word "r", .word "w"], #[]⟩)
  | "nothing" => .ok (some ⟨.mapping 1 [], #[]⟩)
  | _ => .error (.cause .yaml)

/-- Two inputs, the second of them after a define step that does not use it, and a define step that
does; then a step that fails and one that adds nothing. -/
def lateLines : List String := [":input v vec3", "n", " :input k  float", "p", "r", "nothing"]

/-- An input is taken after define steps, another is refused for the name of a declaration, and all
that was printed is printed again. -/
theorem run_input_conservative_lateLines :
    (∃ reply s', (exec fewLines ":input w vec2").run (run fewLines lateLines) = .ok reply s' ∧
        s'.block.scope.names = ["v", "k", "w", "n", "p", "q"]) ∧
      (∃ e, (exec fewLines ":input q vec2").run (run fewLines lateLines) =
        .error (.error e) (run fewLines lateLines)) ∧
      (exec fewLines ":emit").run (run fewLines lateLines) =
        .ok (.text "vec3 n = normalize(v);\nvec3 p = n * k;\nfloat q = 2.0;") (run fewLines lateLines) := by
  obtain ⟨hinput, hemit⟩ := run_input_conservative fewLines lateLines
  obtain ⟨hscope, hnames, hprinted⟩ :
      (run fewLines lateLines).block.scope.names = ["v", "k", "n", "p", "q"] ∧
        (run fewLines lateLines).block.inputs.map Input.name ++
          "w" :: (run fewLines lateLines).block.statements.map Statement.name =
            ["v", "k", "w", "n", "p", "q"] ∧
        "\n".intercalate ((printed fewLines lateLines).filter (· ≠ "")) =
          "vec3 n = normalize(v);\nvec3 p = n * k;\nfloat q = 2.0;" := by decide +kernel
  refine ⟨?_, ?_, ?_⟩
  · obtain ⟨haccepted, _, hkept⟩ :=
      hinput ":input w vec2" "w" "vec2" .vec2 (by decide +kernel) (by decide)
    rw [hscope] at haccepted
    obtain ⟨reply, s', hexec⟩ := haccepted.mpr (by decide)
    exact ⟨reply, s', hexec, (hkept reply s' hexec).2.trans hnames⟩
  · obtain ⟨_, hused, _⟩ := hinput ":input q vec2" "q" "vec2" .vec2 (by decide +kernel) (by decide)
    rw [hscope] at hused
    obtain ⟨e, hfail, _⟩ := hused (by decide)
    exact ⟨e, hfail⟩
  · rw [hemit ":emit" (by decide +kernel), hprinted]

end Session

end ShaderExpr
