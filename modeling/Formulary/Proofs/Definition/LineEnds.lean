import Formulary.Proofs.Definition.Layout

/-!
Ends of lines. Blanks at the end of a line have no bearing on what a definition says, so it makes no
difference whether its lines are ended by line feeds or by carriage returns and line feeds, even
where there are carriage returns already.
-/

namespace Formulary

open Text

namespace Text

/-- A text with a carriage return put in front of each line feed. -/
def withReturns (cs : List Char) : List Char :=
  cs.flatMap fun c => if c = '\n' then ['\r', '\n'] else [c]

theorem withReturns_lineFeed (cs : List Char) :
    withReturns ('\n' :: cs) = '\r' :: '\n' :: withReturns cs := by
  simp [withReturns]

theorem withReturns_cons {c : Char} (hc : c ≠ '\n') (cs : List Char) :
    withReturns (c :: cs) = c :: withReturns cs := by
  simp [withReturns, hc]

theorem head?_withReturns_ne (cs : List Char) : (withReturns cs).head? ≠ some '\n' := by
  cases cs with
  | nil => simp [withReturns]
  | cons c cs =>
    by_cases hc : c = '\n'
    · subst hc
      simp [withReturns_lineFeed]
    · simpa [withReturns_cons hc] using hc

/-- Whether a line is another one with blanks behind it. -/
def Trails (line line' : List Char) : Prop :=
  ∃ gap, (∀ c ∈ gap, isBlank c = true) ∧ line' = line ++ gap

theorem Trails.refl (line : List Char) : Trails line line :=
  ⟨[], by simp, (List.append_nil line).symm⟩

theorem Trails.carriageReturn : Trails [] ['\r'] :=
  ⟨['\r'], List.forall_mem_singleton.2 (by decide), rfl⟩

theorem forall₂_trails_consFirst {ls ls' : List (List Char)} (h : List.Forall₂ Trails ls ls')
    (c : Char) : List.Forall₂ Trails (consFirst c ls) (consFirst c ls') := by
  cases h with
  | nil => exact .cons (.refl [c]) .nil
  | cons hline hlines =>
    obtain ⟨gap, hgap, rfl⟩ := hline
    exact .cons ⟨gap, hgap, rfl⟩ hlines

theorem lines_withReturns_lineFeed (cs : List Char) :
    lines (withReturns ('\n' :: cs)) = [] :: lines (withReturns cs) := by
  rw [withReturns_lineFeed, lines]

/-- A character other than a line feed stays on the line that it begins. -/
theorem lines_withReturns_cons {c : Char} (hc : c ≠ '\n') (cs : List Char) :
    lines (withReturns (c :: cs)) = consFirst c (lines (withReturns cs)) := by
  rw [withReturns_cons hc, lines_cons hc fun _ => head?_withReturns_ne cs]

/-- The lines are the same but for carriage returns at their ends: of two of these, only the new one
goes with the line feed. -/
theorem lines_withReturns (cs : List Char) :
    List.Forall₂ Trails (lines cs) (lines (withReturns cs)) := by
  fun_induction lines cs with
  | case1 => exact .nil
  | case2 cs ih =>
    rw [lines_withReturns_lineFeed]
    exact .cons (.refl []) ih
  | case3 cs ih =>
    rw [lines_withReturns_cons (by decide), lines_withReturns_lineFeed]
    exact .cons .carriageReturn ih
  | case4 c cs hc _ ih =>
    rw [lines_withReturns_cons hc]
    exact forall₂_trails_consFirst ih c

/-- A text with carriage returns and line feeds where there were line feeds. -/
def returned (text : String) : String := String.ofList (withReturns text.toList)

end Text

namespace Definition

variable {α : Type} {read : List Char → List α}

theorem Parts.gather_place_trails (hread : Parts read) (s : Section) (current : Option Section)
    {ls ls' : List (List Char)} (h : List.Forall₂ Trails ls ls') :
    gather read s (place current ls') = gather read s (place current ls) := by
  induction h generalizing current with
  | nil => rfl
  | cons hline _ ih =>
    obtain ⟨gap, hgap, rfl⟩ := hline
    rw [place, place, Line.classify_append_blanks hgap]
    simp only [gather_cons, Line.owner_extend, Line.content_extend, hread.append_blanks hgap, ih]

/-- A definition is the same with carriage returns before its line feeds, wherever there are others
already. -/
theorem ofText_returned (text : String) : ofText (returned text) = ofText text := by
  have hlines (text : String) : (linesOf text).map String.toList = lines text.toList := by
    simp [linesOf]
  refine ofPlaced_congr fun hread s => ?_
  rw [placed, placed, hlines, hlines, returned, String.toList_ofList]
  exact hread.gather_place_trails s none (lines_withReturns text.toList)

end Definition

end Formulary
