import Formulae.Evaluation.Basic

/-!
Trees of one shape.

Places say where a tree comes from and nothing of what it means. Trees that differ in places only
have the same text and do the same in every world.
-/

namespace Formulae.Tree

variable (f : Span → Span)

mutual

/-- The text of a tree does not depend on places. -/
theorem chars_mapSpan (t : Tree) : (t.mapSpan f).chars = t.chars := by
  match t with
  | literal .. | constant .. | provided .. | name .. => rfl
  | group _ inner | unary _ _ inner | step _ _ inner =>
    simp only [mapSpan, chars, chars_mapSpan inner]
  | binary _ _ left right | assign _ _ left right =>
    simp only [mapSpan, chars, chars_mapSpan left, chars_mapSpan right]
  | member _ container selector =>
    simp only [mapSpan, chars, chars_mapSpan container, selectorChars_mapSelectorSpan selector]
  | call _ callee args =>
    simp only [mapSpan, chars, chars_mapSpan callee, argumentChars_mapSpans args]
  | choice _ condition yes no =>
    simp only [mapSpan, chars, chars_mapSpan condition, chars_mapSpan yes, chars_mapSpan no]
  | template _ parts => simp only [mapSpan, chars, partChars_mapPartSpans parts]

theorem selectorChars_mapSelectorSpan (s : Selector) :
    selectorChars (mapSelectorSpan f s) = selectorChars s := by
  match s with
  | .named _ => rfl
  | .keyed key => simp only [mapSelectorSpan, selectorChars, chars_mapSpan key]

theorem argumentChars_mapSpans (ts : List Tree) :
    argumentChars (mapSpans f ts) = argumentChars ts := by
  match ts with
  | [] => rfl
  | [t] => simp only [mapSpans, argumentChars, chars_mapSpan t]
  | t :: u :: us =>
    have others := argumentChars_mapSpans (u :: us)
    simp only [mapSpans] at others
    simp only [mapSpans, argumentChars, chars_mapSpan t, others]

theorem partChars_mapPartSpans (ps : List Part) :
    partChars (mapPartSpans f ps) = partChars ps := by
  match ps with
  | [] => rfl
  | .text _ :: ps => simp only [mapPartSpans, partChars, partChars_mapPartSpans ps]
  | .embed t :: ps =>
    simp only [mapPartSpans, partChars, chars_mapSpan t, partChars_mapPartSpans ps]

end

theorem text_mapSpan (t : Tree) : (t.mapSpan f).text = t.text := by
  rw [text, text, chars_mapSpan]

variable (host : Host)

mutual

/-- What a tree does, does not depend on places. -/
theorem eval_mapSpan (t : Tree) : (t.mapSpan f).eval host = t.eval host := by
  match t with
  | literal .. | constant .. | provided .. | name .. => simp only [mapSpan, eval]
  | group _ inner => simp only [mapSpan, eval, eval_mapSpan inner]
  | unary _ op operand =>
    match op with
    | .negate | .invert => simp only [mapSpan, eval, eval_mapSpan operand]
    | .step _ =>
      simp only [mapSpan, eval, text_mapSpan, eval_mapSpan operand, write_mapSpan operand]
  | binary _ _ left right => simp only [mapSpan, eval, eval_mapSpan left, eval_mapSpan right]
  | assign _ op target value =>
    simp only [mapSpan, eval, text_mapSpan, eval_mapSpan target, eval_mapSpan value,
      write_mapSpan target]
  | step _ _ operand =>
    simp only [mapSpan, eval, text_mapSpan, eval_mapSpan operand, write_mapSpan operand]
  | member _ container selector =>
    simp only [mapSpan, eval, eval_mapSpan container, selectorKey_mapSelectorSpan selector]
  | call _ callee args =>
    simp only [mapSpan, eval, text_mapSpan, eval_mapSpan callee, evalAll_mapSpans args]
  | choice _ condition yes no =>
    simp only [mapSpan, eval, eval_mapSpan condition, eval_mapSpan yes, eval_mapSpan no]
  | template _ parts => simp only [mapSpan, eval, evalParts_mapPartSpans parts]

theorem evalAll_mapSpans (ts : List Tree) : evalAll host (mapSpans f ts) = evalAll host ts := by
  match ts with
  | [] => rfl
  | t :: ts => simp only [mapSpans, evalAll, eval_mapSpan t, evalAll_mapSpans ts]

theorem evalParts_mapPartSpans (ps : List Part) :
    evalParts host (mapPartSpans f ps) = evalParts host ps := by
  match ps with
  | [] => rfl
  | .text _ :: ps => simp only [mapPartSpans, evalParts, evalParts_mapPartSpans ps]
  | .embed t :: ps =>
    simp only [mapPartSpans, evalParts, eval_mapSpan t, evalParts_mapPartSpans ps]

theorem selectorKey_mapSelectorSpan (s : Selector) :
    selectorKey host (mapSelectorSpan f s) = selectorKey host s := by
  match s with
  | .named _ => rfl
  | .keyed key => simp only [mapSelectorSpan, selectorKey, eval_mapSpan key]

/-- Nor does what is written through it. -/
theorem write_mapSpan (t : Tree) : (t.mapSpan f).write host = t.write host := by
  funext v
  match t with
  | name .. => simp only [mapSpan, write]
  | member _ container selector =>
    simp only [mapSpan, write, text_mapSpan, eval_mapSpan container, write_mapSpan container,
      selectorKey_mapSelectorSpan selector]
  | literal .. | constant .. | provided .. | group .. | unary .. | binary .. | assign .. | step ..
  | call .. | choice .. | template .. => simp only [mapSpan, write]

end

theorem SameShape.exists_template {m : Mark} {ps : List Part} {u : Tree}
    (same : (template m ps).SameShape u) : ∃ m' ps', u = template m' ps' := by
  cases u with
  | template m' ps' => exact ⟨m', ps', rfl⟩
  | _ => simp [SameShape, mapSpan] at same

/-- Trees of one shape have one text. -/
theorem SameShape.text_eq {t u : Tree} (same : t.SameShape u) : t.text = u.text := by
  rw [← text_mapSpan _ t, same, text_mapSpan]

/-- Trees of one shape do the same in every world. -/
theorem SameShape.eval_eq {t u : Tree} (same : t.SameShape u) : t.eval host = u.eval host := by
  rw [← eval_mapSpan _ host t, same, eval_mapSpan]

end Formulae.Tree
