import ShaderExpr.Proofs.Evaluator.Environment
import ShaderExpr.Render

/-!
# Rendering is a map

Rendering goes over the pixels row by row, with one evaluator and one table of values for all of them. A run
forgets the values of the run before, and the place of a pixel takes the place of the one before, so none of this
shows: each pixel is what a fresh evaluator gives for it. And since evaluation sees shapes only, it succeeds
at all pixels or at none.

* **`mapM_agree`**, **`Image.buildM_agree`** — a state that does not show may be left out.
* **`Image.buildM_eq_ok_iff`** — the pixels of an image are those that were asked for.
* **`Unspoiled`** — what goes from one pixel to the next, as far as it matters.
* **`Rendering.paint_agree`** — a pixel is painted as if it were the first.
* **`Rendering.image_pointwise`** — the image as a map.
-/

namespace ShaderExpr

/-! ## Images from pixels -/

section

variable {ε σ α β : Type} {I : σ → Prop}

/-- If every step gives what a step without state gives, and keeps an invariant, then all steps
together do. Induction on the list, from any state that has the invariant. -/
theorem mapM_agree {f : α → StateT σ (Except ε) β} {g : α → Except ε β}
    (hstep : ∀ x s, I s → Agree (fun p y => p.1 = y ∧ I p.2) ((f x).run s) (g x)) (l : List α) {s : σ}
    (hs : I s) : Agree (fun p ys => p.1 = ys ∧ I p.2) ((l.mapM f).run s) (l.mapM g) := by
  induction l generalizing s with
  | nil => exact .ok ⟨rfl, hs⟩
  | cons x l ih =>
      rw [List.mapM_cons, List.mapM_cons, StateT.run_bind]
      refine (hstep x s hs).bind ?_
      rintro ⟨y, s₁⟩ _ ⟨rfl, hs₁⟩
      rw [StateT.run_bind]
      refine (ih hs₁).bind ?_
      rintro ⟨ys, s₂⟩ _ ⟨rfl, hs₂⟩
      exact .ok ⟨rfl, hs₂⟩

/-- So it is with the pixels of an image, row by row and in each row one by one. -/
theorem Image.buildM_agree {f : Nat → Nat → StateT σ (Except ε) Pixel} {g : Nat → Nat → Except ε Pixel}
    (hstep : ∀ x y s, I s → Agree (fun p q => p.1 = q ∧ I p.2) ((f x y).run s) (g x y)) (width height : Nat)
    {s : σ} (hs : I s) :
    Agree (fun p i => p.1 = i ∧ I p.2) ((buildM width height f).run s) (buildM width height g) := by
  unfold buildM
  rw [StateT.run_bind]
  refine (mapM_agree (fun y s hs => mapM_agree (fun x s hs => hstep x y s hs) _ hs) _ hs).bind ?_
  rintro ⟨rows, s₁⟩ _ ⟨rfl, hs₁⟩
  exact .ok ⟨rfl, hs₁⟩

end

/-- Counting up to a number gives a list of that length, with what each number gives at its
place. -/
theorem mapM_range_eq_ok_iff {ε β : Type} {f : Nat → Except ε β} {n : Nat} {ys : List β} :
    (List.range n).mapM f = .ok ys ↔ ys.length = n ∧ ∀ i < n, ∃ y, f i = .ok y ∧ ys[i]? = some y := by
  rw [mapM_eq_ok_iff]
  constructor
  · intro h
    have hlength : ys.length = n := by simpa using (congrArg List.length h).symm
    refine ⟨hlength, fun i hi => ?_⟩
    have hi' : i < ys.length := by omega
    have hget := congrArg (fun l => l[i]?) h
    simp only [List.getElem?_map, List.getElem?_range hi, List.getElem?_eq_getElem hi', Option.map_some,
      Option.some.injEq] at hget
    exact ⟨ys[i], hget, List.getElem?_eq_getElem hi'⟩
  · rintro ⟨hlength, h⟩
    -- place by place: within the list, and behind it
    refine List.ext_getElem? fun i => ?_
    by_cases hi : i < n
    · obtain ⟨y, hy, hget⟩ := h i hi
      simp only [List.getElem?_map, List.getElem?_range hi, hget, Option.map_some, hy]
    · rw [List.getElem?_eq_none (by simpa using hi), List.getElem?_eq_none (by simpa [hlength] using hi)]

namespace Image

/-- The image has rows of one length. -/
structure HasSize (i : Image) (width height : Nat) : Prop where
  rows : i.rows.length = height
  columns : ∀ row ∈ i.rows, row.length = width

variable {ε : Type} {width height : Nat} {f : Nat → Nat → Except ε Pixel}

/-- **An image is there iff all pixels are,** and it has them at their columns and rows. -/
theorem buildM_eq_ok_iff {i : Image} :
    buildM width height f = .ok i ↔
      i.HasSize width height ∧ ∀ x < width, ∀ y < height, ∃ p, f x y = .ok p ∧ i.get? x y = some p := by
  obtain ⟨rows⟩ := i
  -- an image is its rows, so it is enough to look at them
  have hrows : buildM width height f = .ok ⟨rows⟩ ↔
      (List.range height).mapM (fun y => (List.range width).mapM fun x => f x y) = .ok rows := by
    unfold buildM
    rw [bind_eq_ok_iff]
    constructor
    · rintro ⟨_, h, hpure⟩
      cases hpure
      exact h
    · exact fun h => ⟨rows, h, rfl⟩
  rw [hrows]
  simp only [mapM_range_eq_ok_iff]
  constructor
  · rintro ⟨hlength, h⟩
    refine ⟨⟨hlength, fun row hrow => ?_⟩, fun x hx y hy => ?_⟩
    · obtain ⟨y, hy, rfl⟩ := List.getElem_of_mem hrow
      obtain ⟨row, ⟨hwidth, _⟩, hget⟩ := h y (hlength ▸ hy)
      rw [List.getElem?_eq_getElem hy, Option.some.injEq] at hget
      rwa [hget]
    · obtain ⟨row, ⟨_, hpixels⟩, hrow⟩ := h y hy
      obtain ⟨p, hp, hget⟩ := hpixels x hx
      exact ⟨p, hp, by rw [get?, hrow, Option.bind_some, hget]⟩
  · rintro ⟨hsize, h⟩
    refine ⟨hsize.rows, fun y hy => ?_⟩
    have hy' : y < rows.length := hsize.rows ▸ hy
    refine ⟨rows[y], ⟨hsize.columns _ (List.getElem_mem hy'), fun x hx => ?_⟩, List.getElem?_eq_getElem hy'⟩
    obtain ⟨p, hp, hget⟩ := h x hx y hy
    rw [get?, List.getElem?_eq_getElem hy', Option.bind_some] at hget
    exact ⟨p, hp, hget⟩

theorem exists_buildM_eq_ok (h : ∀ x y, ∃ p, f x y = .ok p) : ∃ i, buildM width height f = .ok i := by
  unfold buildM
  rw [exists_bind_pure_eq_ok_iff]
  exact exists_mapM_eq_ok fun y _ => exists_mapM_eq_ok fun x _ => h x y

/-- The first pixel decides, if there is one. -/
theorem buildM_eq_error (hwidth : 0 < width) (hheight : 0 < height) {e : ε} (h : f 0 0 = .error e) :
    buildM width height f = .error e := by
  obtain ⟨width, rfl⟩ := Nat.exists_eq_add_one.mpr hwidth
  obtain ⟨height, rfl⟩ := Nat.exists_eq_add_one.mpr hheight
  -- the first row begins with the first pixel, and it is asked for before any other
  rw [buildM, List.range_succ_eq_map, List.range_succ_eq_map, List.mapM_cons, List.mapM_cons, h]
  rfl

end Image

namespace Evaluator

/-- A run begins with no values, so only the functions of the evaluator matter to it. -/
theorem run_congr {ev ev' : Evaluator} (h : ev.functions = ev'.functions) (a : Arith) (b : Block)
    (values : Table Value) : ev.run a b values = ev'.run a b values := by
  simp only [run, h]

/-- Functions that lack nothing are all taken, in order. One of the same name takes the place of an
earlier one. -/
theorem defineAll_eq_ok {fns : List Function} (h : ∀ fn ∈ fns, fn.check = .ok ()) (ev : Evaluator) :
    ev.defineAll fns = .ok { ev with functions := fns.foldl (fun t fn => t.insert fn.name fn) ev.functions } := by
  induction fns generalizing ev with
  | nil => rfl
  | cons fn fns ih =>
      rw [List.forall_mem_cons] at h
      have hdefine : ev.define fn = .ok { ev with functions := ev.functions.insert fn.name fn } := by
        rw [define, h.1]
        rfl
      unfold defineAll at ih ⊢
      rw [List.foldlM_cons, hdefine]
      exact ih h.2 _

end Evaluator

/-! ## Pixels -/

namespace Rendering

/-- An evaluator that knows the functions and no values. -/
def evaluator (r : Rendering) : Evaluator :=
  ⟨.empty, .ofList (r.functions.map fun fn => (fn.name, fn))⟩

/-- A run on a fresh evaluator, with the place of a pixel under its name: columns are counted from the left and
rows from above, and the place is that of the middle of the pixel, from the lower left corner. -/
def runAt (a : Arith) (r : Rendering) (b : Block) (x y : Nat) : Evaluator × Outcome Unit :=
  r.evaluator.run a b (r.inputs.insert (if r.place = "" then "uv" else r.place)
    (.ofList .vec2 [a.div (a.add (.ofInt x) 0.5) (.ofInt r.width),
      a.sub 1 (a.div (a.add (.ofInt y) 0.5) (.ofInt r.height))]))

/-- The pixel that comes of a run on a fresh evaluator. -/
def pixelAt (a : Arith) (r : Rendering) (b : Block) (x y : Nat) : Outcome Pixel := do
  Outcome.inside (.pixel x y) (r.runAt a b x y).2
  let v ← Outcome.ofError ((r.runAt a b x y).1.lookup returnName)
  return Pixel.ofColor (v.color a r.colormap)

/-- Nothing has come of earlier pixels but a place that the next pixel replaces. -/
structure Unspoiled (r : Rendering) (s : Scan) : Prop where
  functions : s.evaluator.functions = r.evaluator.functions
  values : ∀ v, s.values.insert r.placeName v = r.inputs.insert r.placeName v

variable {a : Arith} {r : Rendering} {b : Block}

theorem placeName_eq (r : Rendering) : r.placeName = if r.place = "" then "uv" else r.place := by
  unfold placeName defaultPlace
  simp only [String.isEmpty_iff]

/-- The run at a pixel, with the name and the place as rendering computes them. -/
theorem runAt_eq (a : Arith) (r : Rendering) (b : Block) (x y : Nat) :
    r.runAt a b x y = r.evaluator.run a b (r.inputs.insert r.placeName (r.placeOf a x y)) := by
  rw [placeName_eq]
  rfl

/-- **A pixel is painted as if it were the first,** and spoils nothing for the next. The run does
not see the values of the evaluator, and the place of the pixel before is replaced. -/
theorem paint_agree (x y : Nat) (s : Scan) (hs : r.Unspoiled s) :
    Agree (fun p q => p.1 = q ∧ r.Unspoiled p.2) ((r.paint a b x y).run s) (r.pixelAt a b x y) := by
  have hrun : s.evaluator.run a b (s.values.insert r.placeName (r.placeOf a x y)) = r.runAt a b x y := by
    rw [hs.values, Evaluator.run_congr hs.functions, runAt_eq]
  show Agree _ (r.paint a b x y s) _
  simp only [paint, pixelAt, hrun]
  refine (Agree.refl (R := fun _ _ => True) (fun _ => trivial) _).bind fun _ _ _ => ?_
  refine (Agree.refl (R := Eq) (fun _ => rfl) _).bind ?_
  rintro v _ rfl
  -- the place that was put in is replaced by the next one
  exact .ok ⟨rfl, rfl, fun w => by rw [hs.values, Table.insert_insert]⟩

/-- Rendering begins with an evaluator that knows the functions. -/
theorem defineAll_functions (hfns : ∀ fn ∈ r.functions, fn.check = .ok ()) :
    Evaluator.empty.defineAll r.functions = .ok r.evaluator := by
  rw [Evaluator.defineAll_eq_ok hfns, evaluator, Table.ofList, List.foldl_map]
  rfl

/-- Without a caption an image is made of the pixels of fresh evaluators. -/
theorem image_eq (hfns : ∀ fn ∈ r.functions, fn.check = .ok ()) (hcaption : r.caption = "") :
    r.image a b =
      Outcome.ofError (r.check b) >>= fun _ =>
        Image.buildM r.width.toNat r.height.toNat (r.pixelAt a b) := by
  have hagree := Image.buildM_agree (r.paint_agree (a := a) (b := b)) r.width.toNat r.height.toNat
    (s := ⟨r.evaluator, r.inputs⟩) ⟨rfl, fun _ => rfl⟩
  unfold image
  rw [defineAll_functions hfns, hcaption]
  refine bind_congr fun _ => ?_
  show ((Image.buildM r.width.toNat r.height.toNat (r.paint a b)).run ⟨r.evaluator, r.inputs⟩ >>=
    fun p => pure (p.1.addCaption "")) = _
  generalize (Image.buildM r.width.toNat r.height.toNat (r.paint a b)).run ⟨r.evaluator, r.inputs⟩ = x at hagree ⊢
  generalize Image.buildM r.width.toNat r.height.toNat (r.pixelAt a b) = i at hagree ⊢
  cases hagree with
  | ok h => exact congrArg Except.ok h.1
  | error e => rfl

/-- A pixel is there iff the run at its place succeeds and leaves a result, whose color it has. -/
theorem pixelAt_eq_ok_iff {x y : Nat} {p : Pixel} :
    r.pixelAt a b x y = .ok p ↔
      ∃ v, (r.runAt a b x y).2 = .ok () ∧ (r.runAt a b x y).1.lookup returnName = .ok v ∧
        p = Pixel.ofColor (v.color a r.colormap) := by
  unfold pixelAt
  simp only [bind_eq_ok_iff, Outcome.inside_eq_ok_iff, Outcome.ofError, mapError_eq_ok_iff]
  constructor
  · rintro ⟨_, hrun, v, hv, h⟩
    cases h
    exact ⟨v, hrun, hv, rfl⟩
  · rintro ⟨v, hrun, hv, rfl⟩
    exact ⟨(), hrun, v, hv, rfl⟩

/-! ## All pixels or none -/

theorem shape_placeOf (x y : Nat) : (r.placeOf a x y).shape = .vec2 := Value.shape_ofList _ _

/-- Values that suffice at one pixel suffice at every other. -/
theorem holds_at_pixel {names : List Input} {x y : Nat}
    (h : Holds (r.inputs.insert r.placeName (r.placeOf a x y)) names) (x' y' : Nat) :
    Holds (r.inputs.insert r.placeName (r.placeOf a x' y')) names := by
  intro i hi
  obtain ⟨v, hv, hshape⟩ := h i hi
  rw [Table.get?_insert] at hv ⊢
  split at hv
  · -- the input is the place of a pixel, of which there is one shape
    next hname =>
      cases hv
      rw [if_pos hname]
      rw [shape_placeOf] at hshape
      exact ⟨_, rfl, (shape_placeOf x' y').trans hshape⟩
  · next hname =>
      rw [if_neg hname]
      exact ⟨v, hv, hshape⟩

/-- The check of a rendering asks for a result. -/
theorem exists_returns_of_check (h : r.check b = .ok ()) : ∃ e, b.returns = .ok e := by
  unfold check at h
  split at h
  · cases h
  · obtain ⟨e, he, _⟩ := bind_eq_ok_iff.mp h
    exact ⟨e, he⟩

section

variable (hb : b.Reachable) (hcheck : r.check b = .ok ())
include hb hcheck

/-- After a run that succeeds the result has a value. The check has seen to it that the block
declares the result, and a run leaves a value for every declaration; so the look-up that follows the
run cannot be what makes a pixel fail. -/
theorem exists_lookup {x y : Nat} (hrun : (r.runAt a b x y).2 = .ok ()) :
    ∃ v, (r.runAt a b x y).1.lookup returnName = .ok v := by
  obtain ⟨e, he⟩ := exists_returns_of_check hcheck
  -- the result is a declaration, not an input
  obtain ⟨d, hd, hname, _⟩ := hb.consistent.returns_eq_ok_iff.mp he
  obtain ⟨v, hv, _⟩ := (Evaluator.lookup_run_iff hb.consistent hrun).mpr (.inr ⟨d, hd, hname, rfl⟩)
  exact ⟨v, hv⟩

/-- **A pixel that is there stands for all.** Whether a run succeeds depends on shapes, and those
are the same at every pixel. -/
theorem exists_pixelAt {x y : Nat} {p : Pixel} (h : r.pixelAt a b x y = .ok p) (x' y' : Nat) :
    ∃ q, r.pixelAt a b x' y' = .ok q := by
  obtain ⟨v, hrun, _⟩ := pixelAt_eq_ok_iff.mp h
  rw [runAt_eq] at hrun
  have hvalues := Evaluator.holds_of_run hrun
  have hrun' : (r.runAt a b x' y').2 = .ok () := by
    rw [runAt_eq]
    -- the values at the other pixel have the same shapes, so the run goes the same way
    exact (Evaluator.run_transfer hb.consistent hvalues hrun (holds_at_pixel hvalues x' y')).1
  obtain ⟨v', hv'⟩ := exists_lookup hb hcheck hrun'
  exact ⟨_, pixelAt_eq_ok_iff.mpr ⟨v', hrun', hv', rfl⟩⟩

/-- Where there is no recursion, a pixel can only be missing because of an error of the run. A run
is not at fault then, and the look-up after it succeeds. -/
theorem pixelAt_eq_error (hrecursive : ¬ r.evaluator.functions.Recursive) {x y : Nat} {f : Failure}
    (h : r.pixelAt a b x y = .error f) :
    ∃ e, f = .error (.within (.pixel x y) e) ∧ (r.runAt a b x y).2 = .error (.error e) := by
  have hfaultless : (r.runAt a b x y).2.Faultless := Evaluator.run_faultless hrecursive a b _
  cases hrun : (r.runAt a b x y).2 with
  | error failure =>
      rw [pixelAt, hrun] at h
      cases failure with
      | error e =>
          cases h
          exact ⟨e, rfl, rfl⟩
      -- only recursion leads to a fault
      | fault f => exact absurd hrun (hfaultless f)
  | ok _ =>
      obtain ⟨v, hv⟩ := exists_lookup hb hcheck hrun
      rw [pixelAt, hrun, hv] at h
      cases h

end

/-- **An image is a map over its pixels.** Let the functions lack nothing and none call itself. An evaluator
takes all of them, and then there is an image iff the check passes and the block can be run on a fresh evaluator
with the place of each pixel; the image has the color of the result of that run at the column and the row of
the pixel. The place is that of the middle of the pixel, each direction from zero to one and the second one
upward, and it goes by the name that was asked for, or by `uv`. If the check passes and there is no image, the
run at the first pixel fails with an error, and that pixel is named. The lane operations may be any
functions. -/
theorem image_pointwise (a : Arith) (r : Rendering) {b : Block} (hb : b.Reachable)
    (hfns : ∀ fn ∈ r.functions, fn.check = .ok ()) (hrecursive : ¬ r.evaluator.functions.Recursive)
    (hwidth : 0 < r.width) (hheight : 0 < r.height) (hcaption : r.caption = "") :
    Evaluator.empty.defineAll r.functions = .ok r.evaluator ∧
      (∀ i, r.image a b = .ok i ↔
        r.check b = .ok () ∧ i.HasSize r.width.toNat r.height.toNat ∧
          ∀ x < r.width.toNat, ∀ y < r.height.toNat, ∃ ev v,
            r.evaluator.run a b (r.inputs.insert (if r.place = "" then "uv" else r.place)
              (.ofList .vec2 [a.div (a.add (.ofInt x) 0.5) (.ofInt r.width),
                a.sub 1 (a.div (a.add (.ofInt y) 0.5) (.ofInt r.height))])) = (ev, .ok ()) ∧
              ev.lookup returnName = .ok v ∧ i.get? x y = some (Pixel.ofColor (v.color a r.colormap))) ∧
      (r.check b = .ok () → ∀ f, r.image a b = .error f →
        ∃ ev e, f = .error (.within (.pixel 0 0) e) ∧
          r.evaluator.run a b (r.inputs.insert (if r.place = "" then "uv" else r.place)
            (.ofList .vec2 [a.div (a.add (.ofInt 0) 0.5) (.ofInt r.width),
              a.sub 1 (a.div (a.add (.ofInt 0) 0.5) (.ofInt r.height))])) = (ev, .error (.error e))) := by
  refine ⟨defineAll_functions hfns, fun i => ?_, fun hcheck f hf => ?_⟩
  · rw [image_eq hfns hcaption, bind_eq_ok_iff]
    simp only [Outcome.ofError, mapError_eq_ok_iff, Image.buildM_eq_ok_iff, pixelAt_eq_ok_iff]
    constructor
    · rintro ⟨_, hcheck, hsize, hpixels⟩
      refine ⟨hcheck, hsize, fun x hx y hy => ?_⟩
      obtain ⟨_, ⟨v, hrun, hv, rfl⟩, hget⟩ := hpixels x hx y hy
      exact ⟨(r.runAt a b x y).1, v, Prod.ext rfl hrun, hv, hget⟩
    · rintro ⟨hcheck, hsize, hpixels⟩
      refine ⟨(), hcheck, hsize, fun x hx y hy => ?_⟩
      obtain ⟨ev, v, hrun, hv, hget⟩ := hpixels x hx y hy
      have hrunAt : r.runAt a b x y = (ev, .ok ()) := hrun
      exact ⟨_, ⟨v, by rw [hrunAt], by rw [hrunAt, hv], rfl⟩, hget⟩
  · rw [image_eq hfns hcaption, hcheck] at hf
    change Image.buildM r.width.toNat r.height.toNat (r.pixelAt a b) = .error f at hf
    -- the first pixel stands for all: either it is there and so are the others, or it ends the image
    cases hpixel : r.pixelAt a b 0 0 with
    | ok p =>
        obtain ⟨i, hi⟩ := Image.exists_buildM_eq_ok (exists_pixelAt hb hcheck hpixel)
        rw [hi] at hf
        cases hf
    | error f' =>
        rw [Image.buildM_eq_error (by omega) (by omega) hpixel] at hf
        cases hf
        obtain ⟨e, rfl, hrun⟩ := pixelAt_eq_error hb hcheck hrecursive hpixel
        exact ⟨(r.runAt a b 0 0).1, e, rfl, Prod.ext rfl hrun⟩

/-- A function that calls `square`. -/
def brightness : Function :=
  ⟨"brightness", "float", [⟨"vec2", "p"⟩], [⟨"float", "d", .call "dot" [.var "p", .var "p"]⟩],
    .call "square" [.var "d"]⟩

def brightnessBlock : Block :=
  (Block.empty.withInput "uv" .vec2).withDeclaration "returns" ⟨.float, .call "brightness" [.var "uv"]⟩

def twoPixels : Rendering where
  width := 2
  height := 1
  place := ""
  inputs := .empty
  functions := [brightness, Evaluator.square]
  colormap := none
  caption := ""

/-- The first function calls the second, and that calls none. -/
theorem not_recursive_twoPixels : ¬ twoPixels.evaluator.functions.Recursive :=
  Table.not_recursive_of_rank (fun g => if g = "brightness" then 2 else if g = "square" then 1 else 0)
    (by decide)

/-- An image of two pixels, by way of a function that calls another. -/
theorem image_pointwise_twoPixels :
    brightnessBlock.Reachable ∧ ¬ twoPixels.evaluator.functions.Recursive ∧
      ∀ a : Arith, ∃ i ev v, twoPixels.image a brightnessBlock = .ok i ∧ i.HasSize 2 1 ∧
        twoPixels.evaluator.run a brightnessBlock (Table.empty.insert "uv"
          (.ofList .vec2 [a.div (a.add (.ofInt 1) 0.5) (.ofInt 2),
            a.sub 1 (a.div (a.add (.ofInt 0) 0.5) (.ofInt 1))])) = (ev, .ok ()) ∧
        ev.lookup returnName = .ok v ∧ i.get? 1 0 = some (Pixel.ofColor (v.color a none)) := by
  have hinput : (Block.empty.withInput "uv" .vec2).Reachable :=
    @Block.Reachable.ofRequests [⟨"uv", Shape.vec2.code⟩] _ rfl
  have hreachable : brightnessBlock.Reachable :=
    .define hinput (some fun _ => ⟨[], [⟨"returns", some ⟨.float, .call "brightness" [.var "uv"]⟩⟩], none⟩)
  refine ⟨hreachable, not_recursive_twoPixels, fun a => ?_⟩
  have hfns : ∀ fn ∈ twoPixels.functions, fn.check = .ok () := by
    simp only [twoPixels, List.forall_mem_cons]
    exact ⟨rfl, rfl, List.forall_mem_nil _⟩
  obtain ⟨_, himage, hfailure⟩ := image_pointwise a twoPixels hreachable hfns not_recursive_twoPixels
    (by decide) (by decide) rfl
  have hrun : (twoPixels.runAt a brightnessBlock 0 0).2 = .ok () := rfl
  cases h : twoPixels.image a brightnessBlock with
  | ok i =>
      obtain ⟨_, hsize, hpixels⟩ := (himage i).mp h
      obtain ⟨ev, v, hev, hv, hget⟩ := hpixels 1 (by decide) 0 (by decide)
      exact ⟨i, ev, v, rfl, hsize, hev, hv, hget⟩
  | error f =>
      obtain ⟨ev, e, _, he⟩ := hfailure rfl f h
      have hfailed : (twoPixels.runAt a brightnessBlock 0 0).2 = .error (.error e) := congrArg Prod.snd he
      rw [hrun] at hfailed
      cases hfailed

end Rendering

end ShaderExpr
