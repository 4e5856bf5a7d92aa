import Formulary.Proofs.Parser.Accepts
import Formulary.Proofs.Parser.Script

/-!
The nesting limit. A larger limit changes a parse only where the smaller one cut it off, and there
the parse gets further; no limit above the number of tokens is ever reached.
-/

namespace Formulary

namespace Parser

variable {a : Alphabet} {limit budget : Nat} {p p' : Parser Unit}

/-- Whether a run fails because formulas nest too deep. -/
def Exceeds : EStateM.Result ParseError Scan Unit → Prop
  | .error (.tooDeep _ _) _ => True
  | _ => False

/-- Whether a run gets beyond a position, unless it fails for another reason than nesting. -/
def Passes (position : Nat) : EStateM.Result ParseError Scan Unit → Prop
  | .ok _ t => position < t.position
  | .error (.tooDeep _ _) t => position < t.position
  | .error _ _ => True

/-- Whether two parsers agree unless formulas nest too deep for the first, which has read a token
for each of those it had room for then, and the second gets beyond the place where it gave up. -/
def Prolongs (limit budget : Nat) (p p' : Parser Unit) : Prop :=
  ∀ s, (¬ Exceeds (p s) ∧ p' s = p s) ∨
    ∃ t, p s = .error (.tooDeep limit t.position) t ∧ s.position + budget ≤ t.position ∧
      Passes t.position (p' s)

theorem passes_of_lt {position : Nat} {r : EStateM.Result ParseError Scan Unit}
    (h : position < (scanOf r).position) : Passes position r := by
  cases r with
  | ok _ t => exact h
  | error e t => cases e <;> first | exact h | exact trivial

theorem passes_error {position : Nat} {e : ParseError} {t : Scan}
    (h : ¬ Exceeds (.error e t)) : Passes position (.error e t) := by
  cases e <;> first | exact trivial | exact absurd trivial h

theorem not_exceeds_fail (nt : NonTerminal) (wanted : String) (s : Scan) :
    ¬ Exceeds (fail nt wanted s) := by
  obtain ⟨rest, position, moves⟩ := s
  cases rest <;> exact id

theorem Passes.seq {q : Parser Unit} {position : Nat} {s : Scan} (h : Passes position (p s))
    (hq : Advances q) : Passes position ((do p; q) s) := by
  rw [bind_apply]
  cases hs : p s with
  | ok _ t =>
    rw [hs] at h
    exact passes_of_lt (Nat.lt_of_lt_of_le h (hq t).position_le)
  | error e t => rwa [hs] at h

theorem Prolongs.seq {q q' : Parser Unit} (hp : Prolongs limit budget p p')
    (hq : Prolongs limit budget q q') (hadvances : Advances p) (hadvances' : Advances q') :
    Prolongs limit budget (do p; q) (do p'; q') := by
  intro s
  rcases hp s with ⟨hexceeds, heq⟩ | ⟨t, ht, hbudget, hpasses⟩
  · rw [bind_apply, bind_apply, heq]
    cases hs : p s with
    | error e t =>
      rw [hs] at hexceeds
      exact .inl ⟨hexceeds, rfl⟩
    | ok _ t =>
      rcases hq t with hsame | ⟨u, hu, hbudget, hpasses⟩
      · exact .inl hsame
      · have hle := (hadvances.of_ok hs).position_le
        exact .inr ⟨u, hu, by omega, hpasses⟩
  · exact .inr ⟨t, by rw [bind_apply, ht], hbudget, hpasses.seq hadvances'⟩

theorem Prolongs.within (h : Prolongs limit budget p p') (nt : NonTerminal) :
    Prolongs limit budget (within nt p) (within nt p') := by
  intro s
  rw [within_apply, within_apply]
  rcases h { s with moves := .enter nt :: s.moves } with ⟨hexceeds, heq⟩ | ⟨t, ht, hbudget, hpasses⟩
  · rw [heq]
    cases hs : p { s with moves := .enter nt :: s.moves } with
    | ok _ t => exact .inl ⟨id, rfl⟩
    | error e t =>
      rw [hs] at hexceeds
      exact .inl ⟨hexceeds, rfl⟩
  · refine .inr ⟨t, by rw [ht], hbudget, ?_⟩
    cases hs : p' { s with moves := .enter nt :: s.moves } with
    | ok _ u => rwa [hs] at hpasses
    | error e u => rwa [hs] at hpasses

end Parser

open Formulary.Parser

variable {a : Alphabet} {limit budget : Nat} {p p' : Parser Unit}

/-- A script prolongs itself if the formulas inside are prolonged. -/
theorem Script.prolongs (h : Prolongs limit budget p p') (hp : Advances p) (hp' : Advances p')
    (script : Script) : Prolongs limit budget (script.run p) (script.run p') := by
  induction script with
  | done => exact fun s => .inl ⟨id, rfl⟩
  | shift => exact fun s => .inl ⟨id, rfl⟩
  | fail nt wanted => exact fun s => .inl ⟨not_exceeds_fail nt wanted s, rfl⟩
  | look test yes no ihyes ihno =>
    intro s
    rw [look_apply, look_apply]
    split
    · exact ihyes s
    · exact ihno s
  | seq first after ihfirst ihafter =>
    exact ihfirst.seq ihafter (first.advances hp) (after.advances hp')
  | within nt body ih => exact ih.within nt
  | inner => exact h

/-- Without formulas inside, nothing nests too deep: a limit that was exceeded would be any number.
-/
theorem Script.not_exceeds (script : Script) (s : Scan) : ¬ Exceeds (script.run (pure ()) s) := by
  have hpure (limit : Nat) : Prolongs limit 0 (pure ()) (pure ()) := fun s => .inl ⟨id, rfl⟩
  have hadvances : Advances (pure ()) := Scan.Reaches.refl
  rcases script.prolongs (hpure 0) hadvances hadvances s with ⟨h, -⟩ | ⟨t, ht, -⟩
  · exact h
  · rcases script.prolongs (hpure 1) hadvances hadvances s with ⟨h, -⟩ | ⟨u, hu, -⟩
    · exact h
    · rw [ht] at hu
      cases hu

namespace Parser

/-- Tokens that were read count. -/
theorem position_lt_of_rest {s t : Scan} {tokens : List Symbol} (h : s.Reaches t)
    (hrest : s.rest = tokens ++ t.rest) (hne : tokens ≠ []) : s.position < t.position := by
  have hsum := h.position_add
  have hpos := List.length_pos_of_ne_nil hne
  rw [hrest, List.length_append] at hsum
  omega

/-- By a rule that applies, something that is no formula is read first. -/
theorem byRule_split {r : FormulaRule} {s : Scan} (hr : r.applies a.toSignature s.rest = true) :
    ∃ (first : Parser Unit) (after : Script),
      (∀ p, byRule a p r s = (do first; after.run p) s) ∧ ¬ Exceeds (first s) ∧
        ∀ t, first s = .ok () t → s.position < t.position := by
  obtain ⟨u, hu, rest, hrest⟩ := FormulaRule.exists_of_applies hr
  have hshift : ¬ Exceeds (shift s) ∧ ∀ t, shift s = .ok () t → s.position < t.position := by
    rw [shift_apply hrest]
    refine ⟨id, ?_⟩
    intro t ht
    cases ht
    exact Nat.lt_succ_self _
  have hadvances : Advances (pure ()) := Scan.Reaches.refl
  cases r with
  | binary =>
    exact ⟨shift, .seq (.within .formula .inner) <| .seq (.connective a) <|
      .seq (.within .formula .inner) (.literal .formula .closeParen), fun _ => rfl, hshift⟩
  | equation =>
    exact ⟨shift, .seq (.term a) <| .seq (.literal .formula a.equality) <|
      .seq (.term a) (.literal .formula .closeParen), fun _ => rfl, hshift⟩
  | quantified =>
    refine ⟨quantifier a, .seq (.var a) (.within .formula .inner), fun _ => rfl,
      (Script.quantifier a).not_exceeds s, ?_⟩
    intro t ht
    have hreaches := ((Script.quantifier a).advances hadvances).of_ok ht
    obtain ⟨_, ⟨q, rfl⟩, hq⟩ := consumes_quantifier s t ht
    exact position_lt_of_rest hreaches hq (by simp)
  | negation => exact ⟨shift, .within .formula .inner, fun _ => rfl, hshift⟩
  | atom =>
    have happly := predicate_apply (a := a) (p := pure ()) (Nat.le_refl s.rest.length)
    refine ⟨predicate a, .done, ?_, ?_, ?_⟩
    · intro p
      rw [byRule, bind_apply]
      cases predicate a s <;> rfl
    · rw [happly]
      exact (Script.predicate a s.rest.length).not_exceeds s
    · intro t ht
      have hreaches := (advances_byRule hadvances .atom).of_ok ht
      obtain ⟨_, ⟨z, args, rfl⟩, hz⟩ := consumes_predicate s t ht
      exact position_lt_of_rest hreaches hz (by simp)

/-- A formula that has room starts with something that is no formula, and more than nothing. -/
theorem formula_split (a : Alphabet) (depth : Nat) (s : Scan) :
    ∃ (m : Move) (first : Parser Unit) (after : Script),
      (∀ budget, formula a (budget + 1) depth s =
        (do first; after.run (formula a budget (depth + 1))) (s.noted m)) ∧
        ¬ Exceeds (first (s.noted m)) ∧
          ∀ t, first (s.noted m) = .ok () t → s.position < t.position := by
  cases hr : FormulaRule.select? a.toSignature s.rest with
  | none =>
    refine ⟨.select none s.position (depth + 1), noRule a, .done, ?_, not_exceeds_fail _ _ _, ?_⟩
    · intro budget
      rw [formula_of_none hr, bind_apply]
      cases noRule a (s.noted (.select none s.position (depth + 1))) <;> rfl
    · exact fun t ht => absurd ht (fail_ne_ok _ _ _ _)
  | some r =>
    have happlies := (FormulaRule.select?_eq_some_iff a s.rest r).1 hr
    obtain ⟨first, after, heq, hexceeds, hfirst⟩ :=
      byRule_split (s := s.noted (.select (some r) s.position (depth + 1))) happlies
    refine ⟨.select (some r) s.position (depth + 1), first, after, ?_, hexceeds, hfirst⟩
    intro budget
    rw [formula_of_some hr, heq]

/-- A formula that has room is not given up at its first token. -/
theorem passes_formula (budget depth : Nat) (s : Scan) :
    Passes s.position (formula a (budget + 1) depth s) := by
  obtain ⟨m, first, after, heq, hexceeds, hfirst⟩ := formula_split a depth s
  rw [heq, bind_apply]
  cases hs : first (s.noted m) with
  | error e t =>
    rw [hs] at hexceeds
    exact passes_error hexceeds
  | ok _ t =>
    have hlt : s.position < t.position := hfirst t hs
    have hadvances := after.advances (advances_formula (a := a) budget (depth + 1))
    exact passes_of_lt (Nat.lt_of_lt_of_le hlt (hadvances t).position_le)

/-- More room prolongs the reading of a formula. -/
theorem prolongs_formula (budget depth more : Nat) :
    Prolongs (depth + budget) budget (formula a budget depth)
      (formula a (budget + (more + 1)) depth) := by
  induction budget generalizing depth with
  | zero =>
    intro s
    rw [Nat.zero_add]
    exact .inr ⟨s, formula_zero a depth s, Nat.le_refl _, passes_formula more depth s⟩
  | succ budget ih =>
    intro s
    obtain ⟨m, first, after, heq, hexceeds, hfirst⟩ := formula_split a depth s
    rw [Nat.add_right_comm, heq, heq, bind_apply, bind_apply]
    cases hs : first (s.noted m) with
    | error e t =>
      rw [hs] at hexceeds
      exact .inl ⟨hexceeds, rfl⟩
    | ok _ t =>
      have hlt : s.position < t.position := hfirst t hs
      have hinner := ih (depth + 1)
      rw [Nat.add_right_comm] at hinner
      rcases after.prolongs hinner (advances_formula _ _) (advances_formula _ _) t with
        hsame | ⟨u, hu, hbudget, hpasses⟩
      · exact .inl hsame
      · exact .inr ⟨u, hu, by omega, hpasses⟩

end Parser

variable {tokens : List Symbol} {limit' : Nat}

/-- An error of reading a formula is one of the whole parse. -/
theorem parse_eq_error_iff (h : tokens ≠ []) {e : ParseError} (he : ∃ s, e.At s) :
    parse a limit tokens = .error e ↔
      ∃ t, Parser.formula a limit 0 { rest := tokens } = .error e t := by
  rw [parse, attempt_eq h]
  cases Parser.formula a limit 0 { rest := tokens } with
  | error d t => simp
  | ok _ t =>
    obtain ⟨s, hs⟩ := he
    simp only [reduceCtorEq, exists_false, iff_false]
    split
    · split
      · rintro ⟨⟩
        exact hs
      · rintro ⟨⟩
    · rintro ⟨⟩
      exact hs

theorem parse_eq_tooDeep_iff (h : tokens ≠ []) (l position : Nat) :
    parse a limit tokens = .error (.tooDeep l position) ↔
      ∃ t, Parser.formula a limit 0 { rest := tokens } = .error (.tooDeep l position) t :=
  parse_eq_error_iff h ⟨{ rest := [], position }, rfl⟩

/-- Parses with two limits agree, or the smaller limit is exceeded within the tokens, and before
the larger one is. -/
theorem parse_eq_or_tooDeep (a : Alphabet) (h : limit < limit') (tokens : List Symbol) :
    ((∀ l position, parse a limit tokens ≠ .error (.tooDeep l position)) ∧
        parse a limit' tokens = parse a limit tokens) ∨
      ∃ position, parse a limit tokens = .error (.tooDeep limit position) ∧ limit ≤ position ∧
        position ≤ tokens.length ∧ ∀ l position',
          parse a limit' tokens = .error (.tooDeep l position') → position < position' := by
  by_cases hne : tokens = []
  · subst hne
    refine .inl ⟨?_, rfl⟩
    intro l position hparse
    cases hparse
  obtain ⟨more, rfl⟩ := Nat.exists_eq_add_of_lt h
  rcases Parser.prolongs_formula (a := a) limit 0 more { rest := tokens } with
    ⟨hexceeds, heq⟩ | ⟨t, ht, hbudget, hpasses⟩
  · refine .inl ⟨?_, ?_⟩
    · intro l position hparse
      obtain ⟨t, ht⟩ := (parse_eq_tooDeep_iff hne l position).1 hparse
      rw [ht] at hexceeds
      exact hexceeds trivial
    · rw [parse, parse, attempt_eq hne, attempt_eq hne, Nat.add_assoc, heq]
  · have hlength := ((Parser.advances_formula limit 0).of_error ht).position_add
    rw [Nat.zero_add] at ht hbudget
    refine .inr ⟨t.position, (parse_eq_tooDeep_iff hne _ _).2 ⟨t, ht⟩, hbudget, ?_, ?_⟩
    · simp only [Nat.zero_add] at hlength
      omega
    · intro l position' hparse
      obtain ⟨u, hu⟩ := (parse_eq_tooDeep_iff hne l position').1 hparse
      have hat : position' = u.position := Parser.locates_formula _ _ _ _ _ hu
      rw [Nat.add_assoc] at hu
      rw [hu] at hpasses
      rw [hat]
      exact hpasses

/-- A limit that is exceeded is the one given, and is so no earlier than that many tokens on. -/
theorem tooDeep_bounds {l position : Nat}
    (h : parse a limit tokens = .error (.tooDeep l position)) :
    l = limit ∧ limit ≤ position ∧ position ≤ tokens.length := by
  rcases parse_eq_or_tooDeep a (Nat.lt_succ_self limit) tokens with
    ⟨hnot, -⟩ | ⟨position', heq, hle, hlength, -⟩
  · exact absurd h (hnot l position)
  · cases h.symm.trans heq
    exact ⟨rfl, hle, hlength⟩

/-- The limit only cuts a parse. Parses with two limits agree where the smaller one is not
exceeded; where both are, the smaller one is exceeded earlier, and never later than at as many
tokens as the limit. -/
theorem parse_of_limit_le (a : Alphabet) (tokens : List Symbol) (h : limit ≤ limit') :
    ((∀ l position, parse a limit tokens ≠ .error (.tooDeep l position)) →
        parse a limit' tokens = parse a limit tokens) ∧
      (∀ l' position', parse a limit' tokens = .error (.tooDeep l' position') →
        ∃ l position, parse a limit tokens = .error (.tooDeep l position) ∧
          (limit < limit' → position < position')) ∧
      (∀ l position, parse a limit tokens = .error (.tooDeep l position) →
        l = limit ∧ limit ≤ position ∧ position ≤ tokens.length) ∧
      (tokens.length < limit →
        ∀ l position, parse a limit tokens ≠ .error (.tooDeep l position)) := by
  refine ⟨?_, ?_, fun l position => tooDeep_bounds, ?_⟩
  · intro hnot
    rcases Nat.eq_or_lt_of_le h with rfl | hlt
    · rfl
    · rcases parse_eq_or_tooDeep a hlt tokens with ⟨-, heq⟩ | ⟨position, hcut, -⟩
      · exact heq
      · exact absurd hcut (hnot limit position)
  · intro l' position' hparse
    rcases Nat.eq_or_lt_of_le h with rfl | hlt
    · exact ⟨l', position', hparse, fun hlt => absurd hlt (Nat.lt_irrefl limit)⟩
    · rcases parse_eq_or_tooDeep a hlt tokens with ⟨hnot, heq⟩ | ⟨position, hcut, -, -, hlater⟩
      · exact absurd (heq.symm.trans hparse) (hnot l' position')
      · exact ⟨limit, position, hcut, fun _ => hlater l' position' hparse⟩
  · intro hlength l position hparse
    obtain ⟨-, hle, hle'⟩ := tooDeep_bounds hparse
    omega

theorem parse_of_limit_le_sample :
    2 ≤ 3 ∧ parse .sample 3 Formula.sample.yield = .error (.tooDeep 3 11) ∧
      ∃ l position, parse .sample 2 Formula.sample.yield = .error (.tooDeep l position) ∧
        position < 11 := by
  have hle : 2 ≤ 3 := by decide
  have hparse : parse .sample 3 Formula.sample.yield = .error (.tooDeep 3 11) := rfl
  have hcut := (parse_of_limit_le .sample Formula.sample.yield hle).2.1
  obtain ⟨l, position, hearlier, hlt⟩ := hcut 3 11 hparse
  exact ⟨hle, hparse, l, position, hearlier, hlt (by decide)⟩

end Formulary
