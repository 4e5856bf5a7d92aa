import Formulary.Proofs.Parser.Completes
import Formulary.Proofs.Parser.Limits
import Formulary.Proofs.Parser.Peeks
import Mathlib.Data.List.Chain

/-!
Which token is blamed. What is read before an error is always the beginning of a formula. The token
that is blamed cannot come next, but for one right behind an opening parenthesis: there the parser
may have chosen a rule by the token after it, or by there being none.
-/

namespace Formulary

namespace Signature

variable {s : Signature} {tokens : List Symbol}

/-- Whether the tokens of a formula begin with these. -/
def Viable (s : Signature) (tokens : List Symbol) : Prop :=
  ∃ t, s.DerivesFormula t ∧ tokens <+: t.yield

/-- Whether no formula has the token at a position where it stands, or, if that is right behind an
opening parenthesis, whether none has the one after it. At the end of the tokens variables and
constants are blamed behind an opening parenthesis too. -/
def Blames (s : Signature) (tokens : List Symbol) (position : Nat) : Prop :=
  ¬ s.Viable (tokens.take (position + 1)) ∨
    0 < position ∧ tokens[position - 1]? = some .openParen ∧
      (position + 1 < tokens.length ∧ ¬ s.Viable (tokens.take (position + 2)) ∨
        position + 1 = tokens.length ∧ ∃ t ∈ s.vars ++ s.constants, tokens[position]? = some t)

theorem viable_iff :
    s.Viable tokens ↔ ∃ (φ : Formula s) (more : List Symbol), φ.yield = tokens ++ more := by
  rw [Viable, exists_derivesFormula_iff]
  simp only [Formula.yield_tree, List.IsPrefix, eq_comm]

theorem Viable.of_append {more : List Symbol} (h : s.Viable (tokens ++ more)) :
    s.Viable tokens := by
  obtain ⟨φ, after, heq⟩ := viable_iff.1 h
  exact viable_iff.2 ⟨φ, more ++ after, by rw [heq, List.append_assoc]⟩

theorem Viable.take (h : s.Viable tokens) (n : Nat) : s.Viable (tokens.take n) := by
  rw [← List.take_append_drop n tokens] at h
  exact h.of_append

end Signature

variable {a : Alphabet} {limit : Nat} {tokens : List Symbol}

/-! The equality symbol. -/

/-- Whether the equality symbol stands nowhere but right behind a variable or a constant. -/
structure Alphabet.Guards (a : Alphabet) (tokens : List Symbol) : Prop where
  first : tokens.head? ≠ some a.equality
  later : tokens.IsChain fun t u => u = a.equality → t ∈ a.vars ++ a.constants

namespace Alphabet.Guards

theorem nil : a.Guards [] := ⟨by simp, .nil⟩

theorem append {tokens' : List Symbol} (h : a.Guards tokens) (h' : a.Guards tokens') :
    a.Guards (tokens ++ tokens') where
  first := by
    cases tokens with
    | nil => exact h'.first
    | cons t tokens => exact h.first
  later := by
    refine List.isChain_append.2 ⟨h.later, h'.later, ?_⟩
    rintro t - u hu rfl
    exact absurd hu h'.first

theorem cons {t : Symbol} (ht : t ≠ a.equality) (h : a.Guards tokens) : a.Guards (t :: tokens) :=
  append ⟨by simpa using ht, .singleton t⟩ h

theorem member {k : TokenClass} (m : a.Member k) (hk : k ≠ .equality) (h : a.Guards tokens) :
    a.Guards (m.1 :: tokens) :=
  h.cons (a.ne_equality m.2 hk)

theorem punctuation {t : Symbol} (ht : t ∈ Symbol.punctuation) (h : a.Guards tokens) :
    a.Guards (t :: tokens) := by
  refine h.cons ?_
  rintro rfl
  exact a.unreserved _ (by simp [Signature.symbols]) ht

end Alphabet.Guards

theorem Term.token_mem (τ : Term a.toSignature) : τ.token ∈ a.vars ++ a.constants := by
  cases τ with
  | var v => exact List.mem_append_left _ v.2
  | constant k => exact List.mem_append_right _ k.2

theorem VarList.guards (args : VarList a.toSignature) : a.Guards args.yield := by
  induction args with
  | last v => exact .member v (by decide) .nil
  | more v more ih => exact .member v (by decide) (ih.punctuation (by decide))

/-- In a formula only terms stand before the equality symbol. -/
theorem Formula.guards (φ : Formula a.toSignature) : a.Guards φ.yield := by
  have hclose : a.Guards [.closeParen] := .punctuation (by decide) .nil
  induction φ with
  | binary left c right ihl ihr =>
    have hright := (ihr.append hclose).member c (by decide)
    exact (ihl.append hright).punctuation (by decide)
  | equation left right =>
    have hright := hclose.cons right.token_ne_equality
    refine .punctuation (by decide) ⟨by simpa using left.token_ne_equality, ?_⟩
    have hequality : List.IsChain (fun t u => u = a.equality → t ∈ a.vars ++ a.constants)
        [a.equality, right.token, .closeParen] := by
      refine List.isChain_cons_cons.2 ⟨fun h => absurd h right.token_ne_equality, hright.later⟩
    exact List.isChain_cons_cons.2 ⟨fun _ => left.token_mem, hequality⟩
  | quantified q v body ih => exact (ih.member v (by decide)).member q (by decide)
  | negation body ih =>
    refine ih.cons (a.ne_equality (k := .negation) ?_ (by decide))
    simp [TokenClass.members]
  | atom z args =>
    exact ((args.guards.append hclose).punctuation (by decide)).member z (by decide)

/-! Errors. -/

namespace Parser

/-- If reading a formula fails, then so it would with room for more formulas, and on all tokens that
look like those left; these are not a formula's. -/
theorem not_looksAlike {e : ParseError} {t : Scan} {read more : List Symbol}
    (h : formula a limit 0 { rest := tokens } = .error e t) (hexceeds : ¬ Exceeds (.error e t))
    (htokens : tokens = read ++ t.rest) (φ : Formula a.toSignature)
    (hφ : φ.yield = read ++ more) : ¬ LooksAlike a read t.rest more := by
  intro halike
  rcases prolongs_formula (a := a) limit 0 φ.nesting { rest := tokens } with
    ⟨-, heq⟩ | ⟨u, hu, -⟩
  · rw [h] at heq
    have hsame := peeks_formula (a := a) (limit + (φ.nesting + 1)) 0 { rest := tokens } read more
      (by rw [heq]; exact htokens) (by rw [heq]; exact halike)
    have hroom : φ.nesting ≤ limit + (φ.nesting + 1) := by omega
    have hread := φ.read hroom []
    rw [List.append_nil, hφ, hsame, heq] at hread
    cases hread
  · rw [h] at hu
    cases hu
    exact hexceeds trivial

end Parser

/-- Tokens that are refused, but not for nesting too deep, are no formula. -/
theorem not_derivable_of_parse {e : ParseError} (h : parse a limit tokens = .error e)
    (hdeep : ∀ l position, e ≠ .tooDeep l position) : ¬ a.Derivable tokens := by
  intro hderivable
  obtain ⟨φ, rfl⟩ := (Signature.derivable_iff _).1 hderivable
  have hlt : limit < limit + (φ.nesting + 1) := by omega
  have hroom : φ.nesting ≤ limit + (φ.nesting + 1) := by omega
  rcases parse_eq_or_tooDeep a hlt φ.yield with ⟨-, heq⟩ | ⟨position, hcut, -⟩
  · have hparse := φ.parse_yield hroom
    rw [heq, h] at hparse
    cases hparse
  · exact hdeep limit position (Except.error.inj (h.symm.trans hcut))

/-- Where reading a formula fails, it has read the beginning of one. -/
theorem exists_of_formula_eq_error (v : a.Member .var) {e : ParseError} {t : Scan}
    (h : Parser.formula a limit 0 { rest := tokens } = .error e t) :
    e.At t ∧ ∃ read, tokens = read ++ t.rest ∧ t.position = read.length ∧ a.Viable read := by
  refine ⟨Parser.locates_formula _ _ _ _ _ h, ?_⟩
  obtain ⟨read, more, ⟨φ, hφ⟩, hrest⟩ := Parser.completes_formula v _ _ _ _ _ h
  have hsum := ((Parser.advances_formula limit 0).of_error h).position_add
  have hlength := congrArg List.length hrest
  rw [List.length_append] at hlength
  simp only [Nat.zero_add] at hsum hlength
  exact ⟨read, hrest, by omega, Signature.viable_iff.2 ⟨φ, more, hφ.symm⟩⟩

section

variable {e : ParseError} {t : Scan} {found : Symbol} {read rest : List Symbol}

/-- If the token at which reading a formula fails can stand there, then right behind an opening
parenthesis, and with the equality symbol next just if it is not so in the tokens. -/
theorem next_of_formula_eq_error
    (h : Parser.formula a limit 0 { rest := tokens } = .error e t)
    (hexceeds : ¬ Parser.Exceeds (.error e t)) (htokens : tokens = read ++ t.rest)
    (hrest : t.rest = found :: rest) (φ : Formula a.toSignature) (more : List Symbol)
    (hφ : φ.yield = read ++ found :: more) :
    read.getLast? = some .openParen ∧
      ¬ (more.head? = some a.equality ↔ rest.head? = some a.equality) := by
  have hnot := Parser.not_looksAlike h hexceeds htokens φ hφ
  by_contra hor
  refine hnot ⟨by rw [hrest]; rfl, fun hlast => ?_⟩
  rw [hrest]
  simpa [List.head?_eq_getElem?, hlast] using hor

/-- The token at which reading a formula fails is blamed rightly: it cannot stand there, or the
parser was misled by what comes behind it. -/
theorem blames_of_formula_eq_error
    (h : Parser.formula a limit 0 { rest := tokens } = .error e t)
    (hexceeds : ¬ Parser.Exceeds (.error e t)) (htokens : tokens = read ++ t.rest)
    (hrest : t.rest = found :: rest) : a.Blames tokens read.length := by
  have hnext := next_of_formula_eq_error h hexceeds htokens hrest
  rw [hrest] at htokens
  by_cases hviable : a.Viable (tokens.take (read.length + 1))
  · rw [htokens, List.take_length_add_append] at hviable
    obtain ⟨φ, more, hφ⟩ := Signature.viable_iff.1 hviable
    rw [List.append_assoc] at hφ
    obtain ⟨hlast, hdiffers⟩ := hnext φ more hφ
    have hpos : 0 < read.length := by
      cases read with
      | nil => simp at hlast
      | cons t read => simp
    rw [List.getLast?_eq_getElem?] at hlast
    have hopen : tokens[read.length - 1]? = some .openParen := by
      rw [htokens, List.getElem?_append_left (by omega), hlast]
    refine .inr ⟨hpos, hopen, ?_⟩
    cases rest with
    | nil =>
      refine .inr ⟨by simp [htokens], found, ?_, by simp [htokens]⟩
      have hequality : more.head? = some a.equality := by simpa using hdiffers
      obtain ⟨after, rfl⟩ := List.head?_eq_some_iff.1 hequality
      have hchain := φ.guards.later
      rw [hφ] at hchain
      exact (List.isChain_append_cons_cons.1 hchain).2.1 rfl
    | cons t rest =>
      refine .inl ⟨by simp [htokens], fun hviable' => ?_⟩
      rw [htokens, List.take_length_add_append] at hviable'
      obtain ⟨ψ, after, hψ⟩ := Signature.viable_iff.1 hviable'
      rw [List.append_assoc] at hψ
      exact (hnext ψ (t :: after) hψ).2 Iff.rfl
  · exact .inl hviable

end

/-- Input that ends too early is the beginning of a formula. -/
theorem viable_of_unexpectedEnd (v : a.Member .var) {nt : NonTerminal} {wanted : String}
    (h : parse a limit tokens = .error (.unexpectedEnd nt wanted)) : a.Viable tokens := by
  have hne : tokens ≠ [] := by
    rintro rfl
    cases h
  have he : ∃ s, (ParseError.unexpectedEnd nt wanted).At s := ⟨{ rest := [] }, rfl⟩
  obtain ⟨t, ht⟩ := (parse_eq_error_iff hne he).1 h
  obtain ⟨hat, read, htokens, -, hviable⟩ := exists_of_formula_eq_error v ht
  have hend : t.rest = [] := hat
  rw [hend, List.append_nil] at htokens
  rwa [htokens]

/-- Input is left over right behind a formula. -/
theorem derivable_of_trailingInput {found : Symbol} {position : Nat}
    (h : parse a limit tokens = .error (.trailingInput found position)) :
    0 < position ∧ position < tokens.length ∧ tokens[position]? = some found ∧
      a.Derivable (tokens.take position) := by
  have hne : tokens ≠ [] := by
    rintro rfl
    cases h
  rcases parse_cases a limit hne with ⟨e, t, hat, herror⟩ | ⟨φ, rest, -, rfl, hparse⟩
  · cases herror.symm.trans h
    exact absurd hat id
  · cases rest with
    | nil => cases hparse.symm.trans h
    | cons u rest =>
      cases hparse.symm.trans h
      have hpos := List.length_pos_of_ne_nil φ.yield_ne_nil
      refine ⟨hpos, by simp, by simp, (Signature.derivable_iff _).2 ⟨φ, ?_⟩⟩
      rw [List.take_left]

/-- A token that is not the one expected is blamed where it stands, behind the beginning of a
formula. -/
theorem blames_of_expected (v : a.Member .var) {nt : NonTerminal} {wanted : String}
    {found : Symbol} {position : Nat}
    (h : parse a limit tokens = .error (.expected nt wanted found position)) :
    position < tokens.length ∧ tokens[position]? = some found ∧
      a.Viable (tokens.take position) ∧ a.Blames tokens position := by
  have hne : tokens ≠ [] := by
    rintro rfl
    cases h
  have he : ∃ s, (ParseError.expected nt wanted found position).At s :=
    ⟨{ rest := [found], position }, rfl, rfl⟩
  obtain ⟨t, ht⟩ := (parse_eq_error_iff hne he).1 h
  obtain ⟨⟨hfound, rfl⟩, read, htokens, hlength, hviable⟩ := exists_of_formula_eq_error v ht
  obtain ⟨rest, hrest⟩ := List.head?_eq_some_iff.1 hfound
  have hblames := blames_of_formula_eq_error ht id htokens hrest
  rw [hlength]
  rw [hrest] at htokens
  subst htokens
  exact ⟨by simp, by simp, by rwa [List.take_left], hblames⟩

/-- Where the beginning of a formula is refused, it ends too early, or its last token is blamed. -/
theorem parse_viable (v : a.Member .var) (hne : tokens ≠ []) (hlimit : tokens.length < limit)
    (hviable : a.Viable tokens) (hderivable : ¬ a.Derivable tokens) :
    (∃ nt wanted, parse a limit tokens = .error (.unexpectedEnd nt wanted)) ∨
      ∃ nt wanted, ∃ found ∈ a.vars ++ a.constants, [.openParen, found] <:+ tokens ∧
        parse a limit tokens = .error (.expected nt wanted found (tokens.length - 1)) := by
  rcases parse_cases a limit hne with ⟨e, t, hat, herror⟩ | ⟨φ, rest, -, rfl, -⟩
  · cases e with
    | expected nt wanted found position =>
      obtain ⟨-, hfound, -, hblames⟩ := blames_of_expected v herror
      rcases hblames with hnot | ⟨hpos, hopen, ⟨-, hnot⟩ | ⟨hlength, u, hu, hlast⟩⟩
      · exact absurd (hviable.take _) hnot
      · exact absurd (hviable.take _) hnot
      · obtain rfl : found = u := Option.some.inj (hfound.symm.trans hlast)
        have hdrop : tokens.drop (position - 1) = [.openParen, found] := by
          obtain ⟨hlt, hopen⟩ := List.getElem?_eq_some_iff.1 hopen
          obtain ⟨hlt', hfound⟩ := List.getElem?_eq_some_iff.1 hfound
          rw [List.drop_eq_getElem_cons hlt, hopen, Nat.sub_add_cancel hpos,
            List.drop_eq_getElem_cons hlt', hfound, List.drop_of_length_le (by omega)]
        have hposition : position = tokens.length - 1 := by omega
        refine .inr ⟨nt, wanted, found, hu, ?_, hposition ▸ herror⟩
        exact hdrop ▸ List.drop_suffix (position - 1) tokens
    | unexpectedEnd nt wanted => exact .inl ⟨nt, wanted, herror⟩
    | tooDeep l position =>
      obtain ⟨-, hle, hle'⟩ := tooDeep_bounds herror
      omega
    | trailingInput found position => exact absurd hat id
    | empty => exact absurd hat id
  · obtain ⟨ψ, more, hψ⟩ := Signature.viable_iff.1 hviable
    rw [List.append_assoc, ← List.append_nil ψ.yield] at hψ
    obtain ⟨-, hrest⟩ := Formula.yield_cancel hψ
    obtain ⟨rfl, -⟩ := List.append_eq_nil_iff.1 hrest.symm
    exact absurd ((Signature.derivable_iff _).2 ⟨φ, (List.append_nil _).symm⟩) hderivable

/-- Where a parse fails. If no variable is missing and no formula can nest too deep, then input ends
too early only if it is the beginning of a formula, is left over only behind a formula, and is
blamed for a token behind the beginning of one; and nothing else comes of such a beginning. -/
theorem parse_error_located (hvars : a.vars ≠ []) (hne : tokens ≠ [])
    (hlimit : tokens.length < limit) :
    (∀ nt wanted, parse a limit tokens = .error (.unexpectedEnd nt wanted) →
        a.Viable tokens ∧ ¬ a.Derivable tokens) ∧
      (∀ found position, parse a limit tokens = .error (.trailingInput found position) →
        0 < position ∧ position < tokens.length ∧ tokens[position]? = some found ∧
          a.Derivable (tokens.take position)) ∧
      (∀ nt wanted found position,
        parse a limit tokens = .error (.expected nt wanted found position) →
          position < tokens.length ∧ tokens[position]? = some found ∧
            a.Viable (tokens.take position) ∧ a.Blames tokens position) ∧
      (a.Viable tokens → ¬ a.Derivable tokens →
        (∃ nt wanted, parse a limit tokens = .error (.unexpectedEnd nt wanted)) ∨
          ∃ nt wanted, ∃ found ∈ a.vars ++ a.constants, [.openParen, found] <:+ tokens ∧
            parse a limit tokens = .error (.expected nt wanted found (tokens.length - 1))) := by
  obtain ⟨t, ht⟩ := List.exists_mem_of_ne_nil a.vars hvars
  let v : a.Member .var := ⟨t, ht⟩
  refine ⟨?_, ?_, ?_, parse_viable v hne hlimit⟩
  · intro nt wanted h
    refine ⟨viable_of_unexpectedEnd v h, not_derivable_of_parse h ?_⟩
    intro l position hdeep
    cases hdeep
  · exact fun found position => derivable_of_trailingInput
  · exact fun nt wanted found position => blames_of_expected v

/-- In `( P = x )` the predicate symbol is blamed, though one can stand there: by the equality
symbol behind it the parser takes the tokens for an equation. -/
theorem parse_error_located_sample :
    Alphabet.sample.vars ≠ [] ∧
      parse .sample 6 [⟨"("⟩, ⟨"P"⟩, ⟨"="⟩, ⟨"x"⟩, ⟨")"⟩] =
        .error (.expected .term "a variable or constant" ⟨"P"⟩ 1) ∧
      Alphabet.sample.Viable [⟨"("⟩] ∧
      Alphabet.sample.Blames [⟨"("⟩, ⟨"P"⟩, ⟨"="⟩, ⟨"x"⟩, ⟨")"⟩] 1 := by
  have hvars : Alphabet.sample.vars ≠ [] := by decide
  have hparse : parse .sample 6 [⟨"("⟩, ⟨"P"⟩, ⟨"="⟩, ⟨"x"⟩, ⟨")"⟩] =
      .error (.expected .term "a variable or constant" ⟨"P"⟩ 1) := rfl
  have hlocated := (parse_error_located hvars (by simp) (by decide)).2.2.1 _ _ _ _ hparse
  exact ⟨hvars, hparse, hlocated.2.2⟩

end Formulary
