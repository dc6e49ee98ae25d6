import ShaderExpr.Golden
import ShaderExpr.Proofs.Division
import ShaderExpr.Proofs.Outcome

/-!
# Which worked examples a document holds

Extraction goes through headings and fences once. It keeps the worked example that is open, fills its texts
as fences come by, and looks whether it is complete when the next one starts. A text that is empty counts as
one that has not been seen, so a fence may come again after an empty one.

Here is what that amounts to. Test headings divide the events, and each part becomes one worked example, from its
own fences and from nothing else.

* **`Field`** — the three texts of a worked example, and the languages of their fences.
* **`addFence_eq_ok_iff`** — what a fence does.
* **`Settles`** — a text that fences of one language have been put into, one after the other.
* **`gather_eq_ok_iff`** — what all events of a part do.
* **`extract_eq_ok_iff`** — the worked examples of a sequence of events.
-/

namespace ShaderExpr.Golden

open Markdown (Event)

/-! ## Headings -/

/-- The heading of a worked example. -/
structure Title where
  line : Nat
  name : String

def Title.event (t : Title) : Event := .heading t.line (headingStart ++ t.name)

/-- Headings of worked examples are those that begin in one way, and the rest of the heading is the
name. -/
theorem nameOf?_eq_some_iff {heading name : String} :
    nameOf? heading = some name ↔ heading = headingStart ++ name := by
  unfold nameOf?
  constructor
  · intro h
    split at h
    · next hstart =>
        obtain ⟨rest, hrest⟩ := String.startsWith_string_iff.mp hstart
        rw [← hrest, Option.some.injEq, ← String.length_toList, List.drop_left] at h
        rw [← String.toList_inj, ← hrest, ← h, String.toList_append, String.toList_ofList]
    · cases h
  · -- conversely the name is what is left when the beginning is dropped
    rintro rfl
    have hstart : (headingStart ++ name).startsWith headingStart = true := by
      rw [String.startsWith_string_iff, String.toList_append]
      exact List.prefix_append _ _
    rw [if_pos hstart, String.toList_append, ← String.length_toList, List.drop_left,
      String.ofList_toList]

/-- A heading that begins otherwise starts no worked example. -/
theorem heading_ne_event {heading : String} (h : ¬ headingStart.toList <+: heading.toList) (line : Nat)
    (t : Title) : Event.heading line heading ≠ t.event := by
  intro heq
  rw [(Event.heading.inj heq).2, String.toList_append] at h
  exact h (List.prefix_append _ _)

/-- Nor has it a name. This is what extraction looks at. -/
theorem nameOf?_eq_none {line : Nat} {heading : String} (h : ∀ t : Title, Event.heading line heading ≠ t.event) :
    nameOf? heading = none := by
  cases hname : nameOf? heading with
  | none => rfl
  | some name => exact absurd (congrArg _ (nameOf?_eq_some_iff.mp hname)) (h ⟨line, name⟩)

/-! ## Fences -/

/-- The texts of a worked example. -/
inductive Field where
  | input
  | want
  | wantError
deriving DecidableEq

namespace Field

def language : Field → String
  | .input => "yaml"
  | .want => "glsl"
  | .wantError => "error"

def get : Field → Golden → String
  | .input, g => g.input
  | .want, g => g.want
  | .wantError, g => g.wantError

def put (text : String) : Field → Golden → Golden
  | .input, g => { g with input := text }
  | .want, g => { g with want := text }
  | .wantError, g => { g with wantError := text }

/-- The language of a fence says which of the texts it is. -/
theorem language_injective {f f' : Field} (h : f.language = f'.language) : f = f' := by
  revert h
  cases f <;> cases f' <;> decide

theorem exists_iff {p : Field → Prop} : (∃ f, p f) ↔ p .input ∨ p .want ∨ p .wantError := by
  constructor
  · rintro ⟨f, h⟩
    cases f <;> simp [h]
  · rintro (h | h | h) <;> exact ⟨_, h⟩

theorem get_put_self (text : String) (f : Field) (g : Golden) : f.get (f.put text g) = text := by
  cases f <;> rfl

theorem get_put_of_ne {f f' : Field} (h : f' ≠ f) (text : String) (g : Golden) :
    f'.get (f.put text g) = f'.get g := by
  cases f <;> cases f' <;> first
    | rfl
    | exact absurd rfl h

theorem name_put (text : String) (f : Field) (g : Golden) : (f.put text g).name = g.name := by
  cases f <;> rfl

theorem line_put (text : String) (f : Field) (g : Golden) : (f.put text g).line = g.line := by
  cases f <;> rfl

end Field

/-- A worked example is its name, its line and its three texts, so two of them can be compared text
by text. -/
theorem ext_fields {g g' : Golden} (hname : g.name = g'.name) (hline : g.line = g'.line)
    (h : ∀ f : Field, f.get g = f.get g') : g = g' := by
  obtain ⟨name, input, want, wantError, line⟩ := g
  obtain ⟨name', input', want', wantError', line'⟩ := g'
  obtain rfl : name = name' := hname
  obtain rfl : line = line' := hline
  obtain rfl : input = input' := h .input
  obtain rfl : want = want' := h .want
  obtain rfl : wantError = wantError' := h .wantError
  rfl

/-- A fence of one of the three languages fills its text, if that is empty. The three branches of
`addFence` are one rule. -/
theorem addFence_language (g : Golden) (line : Nat) (f : Field) (content : String) :
    g.addFence line f.language content =
      if f.get g = "" then .ok (f.put (trimLineEnds content) g)
      else .error (.within (.line line) (.cause (.repeatedFence f.language g.name))) := by
  by_cases hempty : f.get g = ""
  · rw [if_pos hempty]
    cases f <;> simp_all [addFence, Field.language, Field.get, Field.put]
  · rw [if_neg hempty]
    cases f <;> simp_all [addFence, Field.language, Field.get]

theorem addFence_unknown {g : Golden} {line : Nat} {language content : String}
    (h : ∀ f : Field, f.language ≠ language) :
    g.addFence line language content =
      .error (.within (.line line) (.cause (.unknownFence language g.name))) := by
  unfold addFence
  split
  · exact absurd rfl (h .input)
  · exact absurd rfl (h .want)
  · exact absurd rfl (h .wantError)
  · rfl

/-- **What a fence does.** It has one of the three languages, finds the text of that language empty,
and puts its content there. -/
theorem addFence_eq_ok_iff {g g' : Golden} {line : Nat} {language content : String} :
    g.addFence line language content = .ok g' ↔
      ∃ f : Field, f.language = language ∧ f.get g = "" ∧ g' = f.put (trimLineEnds content) g := by
  by_cases hknown : ∃ f : Field, f.language = language
  · obtain ⟨f, rfl⟩ := hknown
    rw [addFence_language]
    constructor
    · intro h
      split at h
      · next hempty => exact ⟨f, rfl, hempty, (Except.ok.inj h).symm⟩
      · cases h
    · rintro ⟨f', hlanguage, hempty, rfl⟩
      obtain rfl := Field.language_injective hlanguage
      rw [if_pos hempty]
  · rw [addFence_unknown fun f hf => hknown ⟨f, hf⟩]
    constructor
    · intro h
      cases h
    · rintro ⟨f, hf, _⟩
      exact absurd ⟨f, hf⟩ hknown

/-! ## The fences of one worked example

Between two test headings stand fences and other headings. A text starts out empty. -/

/-- The contents of the fences of a language, without the line ends behind them. -/
def contents (language : String) (events : List Event) : List String :=
  events.filterMap fun
    | .heading _ _ => none
    | .fence _ l content => if l = language then some (trimLineEnds content) else none

/-- If the event is a fence, it has the language of one of the texts. -/
def Known : Event → Prop
  | .heading _ _ => True
  | .fence _ language _ => ∃ f : Field, f.language = language

/-- A text becomes a new one, by way of others that take each other's place: all but the last are empty. -/
def Settles (old : String) (texts : List String) (new : String) : Prop :=
  (∀ t ∈ (old :: texts).dropLast, t = "") ∧ new = texts.getLastD old

theorem settles_nil {old new : String} : Settles old [] new ↔ new = old := by
  simp [Settles]

/-- A fence finds an empty text, and what it leaves settles with the fences after it. -/
theorem settles_cons {old t new : String} {ts : List String} :
    Settles old (t :: ts) new ↔ old = "" ∧ Settles t ts new := by
  simp only [Settles, List.dropLast_cons_cons, List.forall_mem_cons, List.getLastD_cons, and_assoc]

/-- A text that starts out empty settles iff all its fences but the last are empty. -/
theorem settles_empty {texts : List String} {new : String} :
    Settles "" texts new ↔ (∀ t ∈ texts.dropLast, t = "") ∧ new = texts.getLastD "" := by
  -- the text that is there at first is empty itself, so it does not count
  cases texts with
  | nil => simp [Settles]
  | cons t ts => simp [Settles]

/-- The worked example after an event that starts no other. -/
def take (g : Golden) : Event → Except Error Golden
  | .heading _ _ => .ok g
  | .fence line language content => g.addFence line language content

/-- A fence counts for the text of its own language only. -/
theorem contents_fence (f : Field) (line : Nat) (language content : String) (events : List Event) :
    contents f.language (.fence line language content :: events) =
      if language = f.language then trimLineEnds content :: contents f.language events
      else contents f.language events := by
  unfold contents
  rw [List.filterMap_cons]
  split <;> simp_all

/-- **What the events of one worked example do.** They are taken iff all fences are known and each
text settles on the last of its fences. Induction on the events, with the texts in whatever state
they have come to. -/
theorem gather_eq_ok_iff {events : List Event} {g g' : Golden} :
    events.foldlM take g = .ok g' ↔
      (∀ e ∈ events, Known e) ∧ g'.name = g.name ∧ g'.line = g.line ∧
        ∀ f : Field, Settles (f.get g) (contents f.language events) (f.get g') := by
  induction events generalizing g with
  | nil =>
      have hcontents : ∀ f : Field, contents f.language [] = [] := fun _ => rfl
      simp only [List.foldlM_nil, hcontents, settles_nil]
      constructor
      · intro h
        cases h
        exact ⟨List.forall_mem_nil _, rfl, rfl, fun _ => rfl⟩
      · rintro ⟨_, hname, hline, htexts⟩
        exact congrArg _ (ext_fields hname hline htexts).symm
  | cons e events ih =>
      rw [List.foldlM_cons, bind_eq_ok_iff, List.forall_mem_cons]
      cases e with
      | heading line text =>
          -- a heading of another kind adds to no text
          have hcontents : ∀ f : Field, contents f.language (.heading line text :: events) =
              contents f.language events := fun _ => rfl
          simp only [hcontents, take, Except.ok.injEq, exists_eq_left', Known, true_and]
          exact ih
      | fence line language content =>
          simp only [take, addFence_eq_ok_iff, Known]
          constructor
          · rintro ⟨g₁, ⟨f, rfl, hempty, rfl⟩, h⟩
            obtain ⟨hknown, hname, hline, htexts⟩ := ih.mp h
            refine ⟨⟨⟨f, rfl⟩, hknown⟩, hname.trans (f.name_put _ g), hline.trans (f.line_put _ g), ?_⟩
            -- the fence changes its own text, and the others stay as they are
            intro f'
            have htext := htexts f'
            rw [contents_fence]
            by_cases hf : f' = f
            · subst hf
              rw [if_pos rfl, settles_cons]
              rw [Field.get_put_self] at htext
              exact ⟨hempty, htext⟩
            · rw [if_neg fun h => hf (Field.language_injective h).symm]
              rwa [Field.get_put_of_ne hf] at htext
          · rintro ⟨⟨⟨f, rfl⟩, hknown⟩, hname, hline, htexts⟩
            -- the text of this fence settles, so it was empty before
            have htext := htexts f
            rw [contents_fence, if_pos rfl, settles_cons] at htext
            refine ⟨_, ⟨f, rfl, htext.1, rfl⟩, ih.mpr ⟨hknown, ?_, ?_, fun f' => ?_⟩⟩
            · rw [hname, Field.name_put]
            · rw [hline, Field.line_put]
            · by_cases hf : f' = f
              · subst hf
                rw [Field.get_put_self]
                exact htext.2
              · have hother := htexts f'
                rw [contents_fence, if_neg fun h => hf (Field.language_injective h).symm] at hother
                rwa [Field.get_put_of_ne hf]

/-- The check asks for an input and for exactly one of the two results. -/
theorem check_eq_ok_iff {g : Golden} :
    g.check = .ok () ↔ g.input ≠ "" ∧ (g.want ≠ "" ↔ g.wantError = "") := by
  unfold check
  by_cases hinput : g.input = "" <;> by_cases hwant : g.want = "" <;>
    by_cases herror : g.wantError = "" <;> simp [hinput, hwant, herror]

/-- The text of a worked example: the last of its fences. -/
def Field.shown (f : Field) (events : List Event) : String := (contents f.language events).getLastD ""

/-- The worked example of a heading and the events up to the next one. -/
def Title.golden (t : Title) (events : List Event) : Golden :=
  ⟨t.name, Field.input.shown events, Field.want.shown events, Field.wantError.shown events, t.line⟩

/-- The events between two headings of worked examples make one. -/
structure Acceptable (events : List Event) : Prop where
  known : ∀ e ∈ events, Known e
  superseded : ∀ f : Field, ∀ text ∈ (contents f.language events).dropLast, text = ""
  input : Field.input.shown events ≠ ""
  /-- There is one of the two results and not the other. -/
  result : Field.want.shown events ≠ "" ↔ Field.wantError.shown events = ""

theorem get_start (f : Field) (name : String) (line : Nat) : f.get (start name line) = "" := by
  cases f <;> rfl

theorem get_golden (f : Field) (t : Title) (events : List Event) : f.get (t.golden events) = f.shown events := by
  cases f <;> rfl

/-- From its heading on a worked example is gathered and passes its check iff its events are
acceptable, and then it is what they say. -/
theorem gather_start_iff {t : Title} {events : List Event} {g : Golden} :
    (events.foldlM take (start t.name t.line) = .ok g ∧ g.check = .ok ()) ↔
      Acceptable events ∧ g = t.golden events := by
  simp only [gather_eq_ok_iff, check_eq_ok_iff, get_start, settles_empty]
  constructor
  · rintro ⟨⟨hknown, hname, hline, htexts⟩, hinput, hresult⟩
    obtain rfl : g = t.golden events :=
      ext_fields hname hline fun f => (htexts f).2.trans (get_golden f t events).symm
    exact ⟨⟨hknown, fun f => (htexts f).1, hinput, hresult⟩, rfl⟩
  · rintro ⟨h, rfl⟩
    exact ⟨⟨h.known, rfl, rfl, fun f => ⟨h.superseded f, get_golden f t events⟩⟩, h.input, h.result⟩

/-! ## All events -/

/-- If the event is a fence, it has no language. -/
def Unlabelled : Event → Prop
  | .heading _ _ => True
  | .fence _ language _ => language = ""

/-- Where none is open, a heading opens a worked example. -/
theorem extractFrom_none_title (t : Title) (rest : List Event) :
    extractFrom none (t.event :: rest) = extractFrom (some (start t.name t.line)) rest := by
  have hname : nameOf? (headingStart ++ t.name) = some t.name := nameOf?_eq_some_iff.mpr rfl
  simp only [Title.event, extractFrom, hname]

/-- Where one is open, a heading closes it first, and then opens the next as if none had been
open. -/
theorem extractFrom_some_title (g : Golden) (t : Title) (rest : List Event) :
    extractFrom (some g) (t.event :: rest) = (do
      g.check
      return g :: (← extractFrom none (t.event :: rest))) := by
  have hname : nameOf? (headingStart ++ t.name) = some t.name := nameOf?_eq_some_iff.mpr rfl
  rw [extractFrom_none_title]
  simp only [Title.event, extractFrom, hname]

/-- Before the first heading of a worked example fences are passed over, if they have no language.
Induction on what stands there. -/
theorem extractFrom_none_append {before rest : List Event} (h : ∀ e ∈ before, ∀ t : Title, e ≠ t.event)
    {cases : List Golden} :
    extractFrom none (before ++ rest) = .ok cases ↔
      (∀ e ∈ before, Unlabelled e) ∧ extractFrom none rest = .ok cases := by
  induction before with
  | nil => simp
  | cons e before ih =>
      rw [List.forall_mem_cons] at h
      rw [List.cons_append, List.forall_mem_cons, and_assoc, ← ih h.2]
      cases e with
      | heading line text =>
          simp [extractFrom, nameOf?_eq_none h.1, Unlabelled]
      | fence line language content =>
          rw [extractFrom]
          by_cases hlanguage : language = "" <;> simp [Unlabelled, hlanguage]

/-- Up to the next heading of a worked example all events go into the one that is open. Induction on
them: `extractFrom` does with each what `take` does. -/
theorem extractFrom_some_append {events rest : List Event} (h : ∀ e ∈ events, ∀ t : Title, e ≠ t.event)
    (g : Golden) :
    extractFrom (some g) (events ++ rest) =
      events.foldlM take g >>= fun g => extractFrom (some g) rest := by
  induction events generalizing g with
  | nil => rfl
  | cons e events ih =>
      rw [List.forall_mem_cons] at h
      rw [List.cons_append, List.foldlM_cons, bind_assoc]
      cases e with
      | heading line text =>
          simp only [extractFrom, nameOf?_eq_none h.1]
          exact ih h.2 g
      | fence line language content =>
          rw [extractFrom]
          exact bind_congr fun g => ih h.2 g

def flatten (parts : List (Title × List Event)) : List Event := parts.flatMap fun p => p.1.event :: p.2

/-- The worked example that is open is closed by the next heading or by the end, whichever comes. -/
theorem extractFrom_some_flatten {g : Golden} {parts : List (Title × List Event)} {cases : List Golden} :
    extractFrom (some g) (flatten parts) = .ok cases ↔
      g.check = .ok () ∧ ∃ more, cases = g :: more ∧ extractFrom none (flatten parts) = .ok more := by
  cases parts with
  | nil =>
      rw [show flatten [] = [] from rfl, extractFrom, extractFrom, bind_eq_ok_iff]
      constructor
      · rintro ⟨_, hcheck, h⟩
        cases h
        exact ⟨hcheck, [], rfl, rfl⟩
      · rintro ⟨hcheck, more, rfl, h⟩
        cases h
        exact ⟨(), hcheck, rfl⟩
  | cons p parts =>
      rw [show flatten (p :: parts) = p.1.event :: (p.2 ++ flatten parts) from rfl,
        extractFrom_some_title, bind_eq_ok_iff]
      constructor
      · rintro ⟨_, hcheck, h⟩
        obtain ⟨more, hmore, h⟩ := bind_eq_ok_iff.mp h
        cases h
        exact ⟨hcheck, more, rfl, hmore⟩
      · rintro ⟨hcheck, more, rfl, hmore⟩
        exact ⟨(), hcheck, bind_eq_ok_iff.mpr ⟨more, hmore, rfl⟩⟩

/-- Every part becomes one worked example. -/
theorem extractFrom_none_flatten {parts : List (Title × List Event)}
    (h : ∀ p ∈ parts, ∀ e ∈ p.2, ∀ t : Title, e ≠ t.event) {cases : List Golden} :
    extractFrom none (flatten parts) = .ok cases ↔
      (∀ p ∈ parts, Acceptable p.2) ∧ cases = parts.map fun p => p.1.golden p.2 := by
  induction parts generalizing cases with
  | nil =>
      simp only [flatten, List.flatMap_nil, extractFrom, List.map_nil, Except.ok.injEq]
      exact ⟨fun h => ⟨List.forall_mem_nil _, h.symm⟩, fun h => h.2.symm⟩
  | cons p parts ih =>
      obtain ⟨t, events⟩ := p
      rw [List.forall_mem_cons] at h ⊢
      have hflatten : flatten ((t, events) :: parts) = t.event :: (events ++ flatten parts) := rfl
      rw [hflatten, extractFrom_none_title, extractFrom_some_append h.1, bind_eq_ok_iff, List.map_cons]
      -- the part goes into the worked example that its heading opens, and the rest of the parts closes it
      simp only [extractFrom_some_flatten, ih h.2]
      constructor
      · rintro ⟨g, hg, hcheck, more, rfl, haccepted, rfl⟩
        obtain ⟨hevents, rfl⟩ := gather_start_iff.mp ⟨hg, hcheck⟩
        exact ⟨⟨hevents, haccepted⟩, rfl⟩
      · rintro ⟨⟨hevents, haccepted⟩, rfl⟩
        obtain ⟨hg, hcheck⟩ := gather_start_iff.mpr ⟨hevents, rfl⟩
        exact ⟨_, hg, hcheck, _, rfl, haccepted, rfl⟩

/-- **Extraction loses and mixes nothing.** Headings of worked examples divide every sequence of events. And
however they divide it, extraction succeeds iff no fence before the first of them has a language and each part
is acceptable: its fences have the three languages, of those with one language all but the last are empty, and
the last ones give an input and one of the two results. Then the worked examples are those of the parts,
one for each, in order. -/
theorem extract_eq_ok_iff (events : List Event) :
    (∃ before parts, Divided Title.event events before parts) ∧
      ∀ before parts, Divided Title.event events before parts → ∀ cases,
        extract events = .ok cases ↔
          (∀ e ∈ before, Unlabelled e) ∧ (∀ p ∈ parts, Acceptable p.2) ∧
            cases = parts.map fun p => p.1.golden p.2 := by
  refine ⟨exists_divided _ _, fun before parts h cases => ?_⟩
  -- first what stands before the parts, then the parts one by one
  rw [extract, h.eq_append, extractFrom_none_append h.before_plain]
  exact and_congr_right fun _ => extractFrom_none_flatten h.parts_plain

/-- An empty description, another heading, and then the description and its source. -/
def halfEvents : List Event :=
  [.fence 8 "yaml" "\n", .heading 10 "Notes", .fence 12 "yaml" "a: b\n\n", .fence 15 "glsl" "x\n"]

def badEvents : List Event := [.fence 19 "yaml" "a: c\n", .fence 21 "error" "no\n", .fence 23 "glsl" ""]

/-- Two worked examples behind a fence without a language. -/
def twoExamples : List Event :=
  .heading 1 "Examples" :: .fence 3 "" "plain\n" ::
    .heading 6 "Test: half" :: (halfEvents ++ .heading 17 "Test: bad" :: badEvents)

/-- The first description is empty, so the second is no repetition. -/
theorem acceptable_halfEvents : Acceptable halfEvents where
  known := by simp [halfEvents, Known, Field.exists_iff, Field.language]
  superseded := fun f => by cases f <;> decide
  input := by decide
  result := by decide

/-- The source is empty, so there is one result, the error. -/
theorem acceptable_badEvents : Acceptable badEvents where
  known := by simp [badEvents, Known, Field.exists_iff, Field.language]
  superseded := fun f => by cases f <;> decide
  input := by decide
  result := by decide

/-- A document with a fence that is no example, a fence that comes again, and an example of each of
the two results. -/
theorem extract_eq_ok_iff_twoExamples :
    Divided Title.event twoExamples [.heading 1 "Examples", .fence 3 "" "plain\n"]
        [(⟨6, "half"⟩, halfEvents), (⟨17, "bad"⟩, badEvents)] ∧
      extract twoExamples = .ok [⟨"half", "a: b", "x", "", 6⟩, ⟨"bad", "a: c", "", "no", 17⟩] := by
  have hheading : ∀ line, ∀ text ∈ ["Examples", "Notes"], ∀ t : Title, Event.heading line text ≠ t.event :=
    fun line text htext => heading_ne_event (by revert text; decide) line
  have hfence : ∀ line language content, ∀ t : Title, Event.fence line language content ≠ t.event :=
    fun _ _ _ _ => Event.noConfusion
  have hhalf : ∀ e ∈ halfEvents, ∀ t : Title, e ≠ t.event := by
    simp only [halfEvents, List.forall_mem_cons]
    exact ⟨hfence _ _ _, hheading _ _ (by decide), hfence _ _ _, hfence _ _ _, List.forall_mem_nil _⟩
  have hbad : ∀ e ∈ badEvents, ∀ t : Title, e ≠ t.event := by
    simp only [badEvents, List.forall_mem_cons]
    exact ⟨hfence _ _ _, hfence _ _ _, hfence _ _ _, List.forall_mem_nil _⟩
  have hdivided : Divided Title.event twoExamples [.heading 1 "Examples", .fence 3 "" "plain\n"]
      [(⟨6, "half"⟩, halfEvents), (⟨17, "bad"⟩, badEvents)] :=
    ⟨by decide, by simpa using ⟨hheading 1 "Examples" (by decide), hfence _ _ _⟩,
      by simpa using ⟨hhalf, hbad⟩⟩
  refine ⟨hdivided, ((extract_eq_ok_iff twoExamples).2 _ _ hdivided _).mpr ⟨?_, ?_, ?_⟩⟩
  · simp [Unlabelled]
  · simp [acceptable_halfEvents, acceptable_badEvents]
  · decide

end ShaderExpr.Golden
