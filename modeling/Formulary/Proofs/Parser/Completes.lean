import Formulary.Proofs.Parser.Consumes

/-!
Failure leaves hope. Over an alphabet with a variable, the tokens that the parser has read when it
fails are the beginning of a formula, wherever in the formula it fails.
-/

namespace Formulary.Parser

variable {a : Alphabet}

/-- Whether what a parser has read when it fails always has a continuation to what it is to read. -/
def Completes (p : Parser Unit) (described : List Symbol → Prop) : Prop :=
  ∀ s e s', p s = .error e s' → ∃ read more, described (read ++ more) ∧ s.rest = read ++ s'.rest

theorem Completes.imp {p : Parser Unit} {described described' : List Symbol → Prop}
    (h : Completes p described) (himp : ∀ tokens, described tokens → described' tokens) :
    Completes p described' := by
  intro s e s' hs
  obtain ⟨read, more, hd, hrest⟩ := h s e s' hs
  exact ⟨read, more, himp _ hd, hrest⟩

/-- Whether tokens are of one kind up to some place and of another from there on. -/
def Joined (described described' : List Symbol → Prop) (tokens : List Symbol) : Prop :=
  ∃ first after, described first ∧ described' after ∧ tokens = first ++ after

theorem exists_joined {described described' : List Symbol → Prop}
    (h : ∃ tokens, described tokens) (h' : ∃ tokens, described' tokens) :
    ∃ tokens, Joined described described' tokens := by
  obtain ⟨first, hfirst⟩ := h
  obtain ⟨after, hafter⟩ := h'
  exact ⟨_, first, after, hfirst, hafter, rfl⟩

/-- What was read by the first of two parsers stays read, and what the second would have read can
follow where the first fails. -/
theorem Completes.seq {p q : Parser Unit} {described described' : List Symbol → Prop}
    (hp : Completes p described) (hconsumes : Consumes p described) (hq : Completes q described')
    (hne : ∃ tokens, described' tokens) : Completes (do p; q) (Joined described described') := by
  intro s e s' hs
  rw [bind_apply] at hs
  cases hp' : p s with
  | error d t =>
    rw [hp'] at hs
    cases hs
    obtain ⟨read, more, hd, hrest⟩ := hp s e s' hp'
    obtain ⟨after, hafter⟩ := hne
    exact ⟨read, more ++ after, ⟨_, _, hd, hafter, (List.append_assoc ..).symm⟩, hrest⟩
  | ok _ t =>
    rw [hp'] at hs
    obtain ⟨tokens, hd, hrest⟩ := hconsumes s t hp'
    obtain ⟨read, more, hd', hrest'⟩ := hq t e s' hs
    refine ⟨tokens ++ read, more, ⟨_, _, hd, hd', List.append_assoc ..⟩, ?_⟩
    rw [hrest, hrest', List.append_assoc]

theorem Completes.within {p : Parser Unit} {described : List Symbol → Prop}
    (h : Completes p described) (nt : NonTerminal) : Completes (within nt p) described := by
  intro s e s' hs
  rw [within_apply] at hs
  split at hs
  · cases hs
  · next hp =>
    cases hs
    exact h { s with moves := .enter nt :: s.moves } e s' hp

/-- One token that was read before stays read. -/
theorem Completes.shift_step {p : Parser Unit} {described : List Symbol → Prop}
    (h : Completes p described) {s s' : Scan} {e : ParseError} {t : Symbol} {rest : List Symbol}
    (hrest : s.rest = t :: rest) (hs : (do shift; p) s = .error e s') :
    ∃ read more, described (read ++ more) ∧ s.rest = t :: read ++ s'.rest := by
  rw [bind_apply, shift_apply hrest] at hs
  obtain ⟨read, more, hd, hread⟩ := h _ e s' hs
  exact ⟨read, more, hd, by rw [hrest, List.cons_append, ← hread]⟩

/-- Where nothing was read everything can follow. -/
theorem completes_of_exists {p : Parser Unit} {described : List Symbol → Prop}
    (h : ∃ tokens, described tokens) (hp : ∀ s e s', p s = .error e s' → s'.rest = s.rest) :
    Completes p described := by
  intro s e s' hs
  obtain ⟨tokens, hd⟩ := h
  exact ⟨[], tokens, hd, (hp s e s' hs).symm⟩

theorem rest_of_fail {nt : NonTerminal} {wanted : String} {s s' : Scan} {e : ParseError}
    (h : fail nt wanted s = .error e s') : s'.rest = s.rest := by
  obtain ⟨rest, position, moves⟩ := s
  cases rest with
  | nil =>
    cases h
    rfl
  | cons t rest =>
    cases h
    rfl

theorem completes_expect {described : List Symbol → Prop} (h : ∃ tokens, described tokens)
    (nt : NonTerminal) (wanted : String) (test : Symbol → Bool) :
    Completes (expect nt wanted test) described := by
  refine completes_of_exists h fun s e s' hs => ?_
  rw [expect_apply] at hs
  split at hs
  · cases hs
    rfl
  · split at hs
    · cases hs
    · cases hs
      rfl

theorem exists_connective (a : Alphabet) :
    ∃ tokens, ∃ c : a.Member .binaryConnective, tokens = [c.1] := by
  have hconj : a.connectives.conj ∈ a.connectives.binary := by
    simp [Connectives.binary, ConnectiveRole.binary, Connectives.get]
  exact ⟨_, ⟨_, hconj⟩, rfl⟩

theorem exists_formula (v : a.Member .var) :
    ∃ tokens, ∃ φ : Formula a.toSignature, tokens = φ.yield :=
  ⟨_, .equation (.var v) (.var v), rfl⟩

theorem completes_literal (nt : NonTerminal) (t : Symbol) :
    Completes (literal nt t) fun tokens => tokens = [t] := by
  have hne : ∃ tokens, tokens = [t] := ⟨[t], rfl⟩
  exact completes_expect hne nt _ _

theorem completes_connective : Completes (connective a)
    fun tokens => ∃ c : a.Member .binaryConnective, tokens = [c.1] :=
  (completes_expect (exists_connective a) _ _ _).within .connective

theorem completes_quantifier : Completes (quantifier a)
    fun tokens => ∃ q : a.Member .quantifier, tokens = [q.1] := by
  have huniversal : a.quantifiers.universal ∈ a.quantifiers.toList := by
    simp [Quantifiers.toList, QuantifierRole.all, Quantifiers.get]
  exact (completes_expect ⟨_, ⟨_, huniversal⟩, rfl⟩ _ _ _).within .quantifier

theorem completes_var (v : a.Member .var) : Completes (var a)
    fun tokens => ∃ v : a.Member .var, tokens = [v.1] :=
  (completes_expect ⟨_, v, rfl⟩ _ _ _).within .var

theorem completes_predicateSymbol (z : a.Member .predicateSymbol) : Completes (predicateSymbol a)
    fun tokens => ∃ z : a.Member .predicateSymbol, tokens = [z.1] :=
  (completes_expect ⟨_, z, rfl⟩ _ _ _).within .predicateSymbol

theorem completes_term (v : a.Member .var) : Completes (term a)
    fun tokens => ∃ τ : Term a.toSignature, tokens = [τ.token] := by
  have hne : ∃ tokens, ∃ τ : Term a.toSignature, tokens = [τ.token] := ⟨_, .var v, rfl⟩
  have hmember (nt : NonTerminal) (wanted : String) (test : Symbol → Bool) :=
    (completes_expect hne nt wanted test).within nt
  refine Completes.within ?_ .term
  intro s e s' hs
  rw [bind_sees] at hs
  split at hs
  · exact hmember _ _ _ s e s' hs
  · rw [bind_sees] at hs
    split at hs
    · exact hmember _ _ _ s e s' hs
    · exact completes_of_exists hne (fun _ _ _ => rest_of_fail) s e s' hs

theorem completes_varList (v : a.Member .var) (commas : Nat) : Completes (varList a commas)
    fun tokens => ∃ args : VarList a.toSignature, tokens = args.yield := by
  induction commas with
  | zero => exact ((completes_var v).imp fun _ ⟨w, hw⟩ => ⟨.last w, hw⟩).within .varList
  | succ commas ih =>
    have hmore : Completes (do
        if ← sees (· = .comma) then
          shift
          varList a commas) fun tokens =>
        tokens = [] ∨ ∃ args : VarList a.toSignature, tokens = .comma :: args.yield := by
      intro s e s' hs
      rw [bind_sees] at hs
      split at hs
      · next hcomma =>
        obtain ⟨t, hhead, ht⟩ := (Option.any_eq_true _ _).1 hcomma
        obtain rfl : t = .comma := by simpa using ht
        obtain ⟨rest, hrest⟩ := List.head?_eq_some_iff.1 hhead
        obtain ⟨read, more, ⟨args, hargs⟩, hread⟩ := ih.shift_step hrest hs
        exact ⟨_, more, .inr ⟨args, by rw [List.cons_append, hargs]⟩, hread⟩
      · cases hs
    have hseq := (completes_var v).seq consumes_var hmore ⟨[], .inl rfl⟩
    refine (hseq.imp ?_).within .varList
    rintro _ ⟨_, _, ⟨w, rfl⟩, rfl | ⟨args, rfl⟩, rfl⟩
    · exact ⟨.last w, rfl⟩
    · exact ⟨.more w args, rfl⟩

theorem completes_predicate (v : a.Member .var) (z : a.Member .predicateSymbol) :
    Completes (predicate a) fun tokens =>
      ∃ (z : a.Member .predicateSymbol) (args : VarList a.toSignature),
        tokens = z.1 :: .openParen :: (args.yield ++ [.closeParen]) := by
  have hargs : Completes (do
      varList a (← get).rest.length
      literal .predicate .closeParen) fun tokens =>
      ∃ args : VarList a.toSignature, tokens = args.yield ++ [.closeParen] := by
    intro s e s' hs
    have hseq := (completes_varList v s.rest.length).seq (consumes_varList _)
      (completes_literal .predicate .closeParen) ⟨_, rfl⟩
    obtain ⟨read, more, ⟨_, _, ⟨args, rfl⟩, rfl, hread⟩, hrest⟩ := hseq s e s' hs
    exact ⟨read, more, ⟨args, hread⟩, hrest⟩
  have hopen := (completes_literal .predicate .openParen).seq (consumes_literal _ _) hargs
    ⟨_, .last v, rfl⟩
  have hseq := (completes_predicateSymbol z).seq consumes_predicateSymbol hopen
    (exists_joined ⟨_, rfl⟩ ⟨_, .last v, rfl⟩)
  refine (hseq.imp ?_).within .predicate
  rintro _ ⟨_, _, ⟨z, rfl⟩, ⟨_, _, rfl, ⟨args, rfl⟩, rfl⟩, rfl⟩
  exact ⟨z, args, rfl⟩

section

variable {inner : Parser Unit} (v : a.Member .var)
  (hinner : Completes inner fun tokens => ∃ φ : Formula a.toSignature, tokens = φ.yield)
  (hconsumes : Consumes inner fun tokens => ∃ φ : Formula a.toSignature, tokens = φ.yield)

include v hinner hconsumes in
/-- Behind its opening parenthesis a binary formula is begun if only formulas are read inside. -/
theorem completes_binary : Completes (do
      within .formula inner
      connective a
      within .formula inner
      literal .formula .closeParen) fun tokens =>
    ∃ φ : Formula a.toSignature, .openParen :: tokens = φ.yield := by
  have hbody := hinner.within .formula
  have hbody' := hconsumes.within .formula
  have hφ := exists_formula v
  have hright := hbody.seq hbody' (completes_literal .formula .closeParen) ⟨_, rfl⟩
  have hafter := (completes_connective (a := a)).seq consumes_connective hright
    (exists_joined hφ ⟨_, rfl⟩)
  have hleft := hbody.seq hbody' hafter
    (exists_joined (exists_connective a) (exists_joined hφ ⟨_, rfl⟩))
  refine hleft.imp ?_
  rintro _ ⟨_, _, ⟨left, rfl⟩, ⟨_, _, ⟨c, rfl⟩, ⟨_, _, ⟨right, rfl⟩, rfl, rfl⟩, rfl⟩, rfl⟩
  exact ⟨.binary left c right, rfl⟩

include v in
/-- Behind its opening parenthesis an equation is begun. -/
theorem completes_equation : Completes (do
      term a
      literal .formula a.equality
      term a
      literal .formula .closeParen) fun tokens =>
    ∃ φ : Formula a.toSignature, .openParen :: tokens = φ.yield := by
  have hτ : ∃ tokens, ∃ τ : Term a.toSignature, tokens = [τ.token] := ⟨_, .var v, rfl⟩
  have hright := (completes_term v).seq consumes_term (completes_literal .formula .closeParen)
    ⟨_, rfl⟩
  have hafter := (completes_literal .formula a.equality).seq (consumes_literal _ _) hright
    (exists_joined hτ ⟨_, rfl⟩)
  have hleft := (completes_term v).seq consumes_term hafter
    (exists_joined ⟨_, rfl⟩ (exists_joined hτ ⟨_, rfl⟩))
  refine hleft.imp ?_
  rintro _ ⟨_, _, ⟨left, rfl⟩, ⟨_, _, rfl, ⟨_, _, ⟨right, rfl⟩, rfl, rfl⟩, rfl⟩, rfl⟩
  exact ⟨.equation left right, rfl⟩

include v hinner in
theorem completes_quantified : Completes (do
      quantifier a
      var a
      within .formula inner) fun tokens =>
    ∃ φ : Formula a.toSignature, tokens = φ.yield := by
  have hφ := exists_formula v
  have hafter := (completes_var v).seq consumes_var (hinner.within .formula) hφ
  have hseq := (completes_quantifier (a := a)).seq consumes_quantifier hafter
    (exists_joined ⟨_, v, rfl⟩ hφ)
  refine hseq.imp ?_
  rintro _ ⟨_, _, ⟨q, rfl⟩, ⟨_, _, ⟨w, rfl⟩, ⟨body, rfl⟩, rfl⟩, rfl⟩
  exact ⟨.quantified q w body, rfl⟩

include v hinner hconsumes in
/-- By a rule that applies, a formula is begun if only formulas are read inside. -/
theorem completes_byRule {r : FormulaRule} {s s' : Scan} {e : ParseError}
    (hr : r.applies a.toSignature s.rest = true) (hs : byRule a inner r s = .error e s') :
    ∃ read more, (∃ φ : Formula a.toSignature, read ++ more = φ.yield) ∧
      s.rest = read ++ s'.rest := by
  obtain ⟨t, ht, rest, hrest⟩ := FormulaRule.exists_of_applies hr
  cases r with
  | binary =>
    obtain rfl : t = .openParen := by simpa [FormulaRule.opener, TokenClass.members] using ht
    obtain ⟨read, more, hφ, hread⟩ :=
      (completes_binary v hinner hconsumes).shift_step hrest hs
    exact ⟨_, more, hφ, hread⟩
  | equation =>
    obtain rfl : t = .openParen := by simpa [FormulaRule.opener, TokenClass.members] using ht
    obtain ⟨read, more, hφ, hread⟩ := (completes_equation v).shift_step hrest hs
    exact ⟨_, more, hφ, hread⟩
  | quantified => exact completes_quantified v hinner s e s' hs
  | negation =>
    obtain rfl : t = a.connectives.neg := by
      simpa [FormulaRule.opener, TokenClass.members] using ht
    obtain ⟨read, more, ⟨body, heq⟩, hread⟩ := (hinner.within .formula).shift_step hrest hs
    exact ⟨_, more, ⟨.negation body, by rw [List.cons_append, heq]; rfl⟩, hread⟩
  | atom =>
    obtain ⟨read, more, ⟨z, args, heq⟩, hread⟩ := completes_predicate v ⟨t, ht⟩ s e s' hs
    exact ⟨read, more, ⟨.atom z args, heq⟩, hread⟩

end

/-- What was read of a formula before a failure is the beginning of one. -/
theorem completes_formula (v : a.Member .var) (budget depth : Nat) :
    Completes (formula a budget depth) fun tokens =>
      ∃ φ : Formula a.toSignature, tokens = φ.yield := by
  induction budget generalizing depth with
  | zero =>
    refine completes_of_exists (exists_formula v) fun s e s' hs => ?_
    rw [formula_zero] at hs
    cases hs
    rfl
  | succ budget ih =>
    intro s e s' hs
    cases hr : FormulaRule.select? a.toSignature s.rest with
    | none =>
      rw [formula_of_none hr] at hs
      exact completes_of_exists (exists_formula v) (fun _ _ _ => rest_of_fail) (s.noted _) e s' hs
    | some r =>
      rw [formula_of_some hr] at hs
      have happlies := (FormulaRule.select?_eq_some_iff a s.rest r).1 hr
      have hconsumes : Consumes (formula a budget (depth + 1)) fun tokens =>
          ∃ φ : Formula a.toSignature, tokens = φ.yield :=
        (consumes_formula budget (depth + 1)).imp fun _ ⟨φ, _, hφ⟩ => ⟨φ, hφ⟩
      exact completes_byRule (s := s.noted _) v (ih (depth + 1)) hconsumes happlies hs

end Formulary.Parser
