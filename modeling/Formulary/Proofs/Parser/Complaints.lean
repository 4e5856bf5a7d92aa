import Formulary.Proofs.Parser.Accepts
import Formulary.Proofs.Parser.Openings
import Formulary.Proofs.Structure.Arity

/-!
What the parser complains of. A category is only entered where the tokens ahead call for it, so
some of its errors never arise; and if the arities were checked before, only arguments are missing
in an argument list.
-/

namespace Formulary

/-- The category for which something is missing, and what that is. -/
def ParseError.missing? : ParseError → Option (NonTerminal × String)
  | .expected nt wanted _ _ => some (nt, wanted)
  | .unexpectedEnd nt wanted => some (nt, wanted)
  | .trailingInput .. | .tooDeep .. | .empty => none

theorem Scan.missing?_missing (s : Scan) (nt : NonTerminal) (wanted : String) :
    (s.missing nt wanted).missing? = some (nt, wanted) := by
  obtain ⟨rest, position, moves⟩ := s
  cases rest <;> rfl

/-- Whether a scan stands in some tokens, outside of argument lists. -/
structure Scan.On (tokens : List Symbol) (s : Scan) : Prop where
  rest : s.rest = tokens.drop s.position
  counted : s.cursor.position = s.position
  free : ∀ o ∈ s.cursor.opened, o.nt ≠ .varList

namespace Scan.On

variable {tokens : List Symbol} {s t : Scan}

theorem passes {read : List Symbol} (h : s.On tokens) (ht : s.Passes read t) : t.On tokens where
  rest := by
    rw [ht.position, ← List.drop_drop, ← h.rest, ht.rest, List.drop_left]
  counted := by rw [ht.cursor, ht.position, h.counted]
  free := by
    rw [ht.cursor]
    exact h.free

theorem enter {nt : NonTerminal} (h : s.On tokens) (hnt : nt ≠ .varList) :
    (s.noted (.enter nt)).On tokens where
  rest := h.rest
  counted := by rw [cursor_enter, position_noted, h.counted]
  free := by
    rw [cursor_enter]
    exact List.forall_mem_cons.2 ⟨hnt, h.free⟩

theorem select {rule : Option FormulaRule} {position depth : Nat} (h : s.On tokens) :
    (s.noted (.select rule position depth)).On tokens where
  rest := h.rest
  counted := by rw [cursor_select, position_noted, h.counted]
  free := by
    rw [cursor_select]
    exact h.free

end Scan.On

/-- Arguments that are each followed by a comma. -/
def listed (args : List Symbol) : List Symbol := args.flatMap fun v => [v, .comma]

/-- What may be missing outside of predicates. -/
def Alphabet.complaints (a : Alphabet) : List (NonTerminal × String) :=
  [(.formula, "'(', a quantifier, " ++ a.connectives.neg.quoted ++ " or a predicate symbol"),
   (.formula, Symbol.closeParen.quoted),
   (.connective, "a connective"),
   (.var, "a variable"),
   (.term, "a variable or constant")]

/-- What is missing where reading a formula stops, and which tokens were read before. -/
inductive Stuck (a : Alphabet) (tokens : List Symbol) (t : Scan) : NonTerminal → String → Prop
  | outside {nt : NonTerminal} {wanted : String} (complaint : (nt, wanted) ∈ a.complaints)
      (on : t.On tokens) : Stuck a tokens t nt wanted
  | unopened {start : Nat} {z : Symbol} (symbol : z ∈ a.predicateSymbols)
      (read : tokens.drop start = z :: t.rest) (next : t.rest.head? ≠ some .openParen) :
      Stuck a tokens t .predicate Symbol.openParen.quoted
  | argument {start : Nat} {z : Symbol} {args : List Symbol} {lists outer : List Opening}
      (symbol : z ∈ a.predicateSymbols)
      (read : tokens.drop start = z :: .openParen :: (listed args ++ t.rest))
      (position : t.position = start + 2 * (args.length + 1))
      (opened : t.cursor.opened = ⟨.var, t.position⟩ :: (lists ++ ⟨.predicate, start⟩ :: outer))
      (within : ∀ o ∈ lists, o.nt = .varList) : Stuck a tokens t .var "a variable"
  | unclosed {start : Nat} {z v : Symbol} {args : List Symbol} (symbol : z ∈ a.predicateSymbols)
      (read : tokens.drop start = z :: .openParen :: (listed args ++ v :: t.rest))
      (comma : t.rest.head? ≠ some .comma) (next : t.rest.head? ≠ some .closeParen) :
      Stuck a tokens t .predicate Symbol.closeParen.quoted

/-- Whether an error is that formulas nest too deep, or tells what is missing where reading stops.
-/
def Fault (a : Alphabet) (tokens : List Symbol) (e : ParseError) (t : Scan) : Prop :=
  e.missing? = none ∨ ∃ nt wanted, e = t.missing nt wanted ∧ Stuck a tokens t nt wanted

namespace Parser

variable {a : Alphabet} {s : Scan}

/-! One token. -/

theorem ends_one (nt : NonTerminal) (wanted : String) (test : Symbol → Bool) (s : Scan) :
    Ends (within nt (expect nt wanted test)) s (fun t => ∃ u, test u = true ∧ s.Passes [u] t)
      fun e t => t = s.noted (.enter nt) ∧ e = t.missing nt wanted ∧
        s.rest.head?.any test = false := by
  refine Ends.within ((ends_expect nt wanted test _).imp ?_ ?_)
  · rintro t ⟨u, hu, ht⟩
    exact ⟨u, hu, ht.within⟩
  · rintro e t ⟨rfl, he, htest⟩
    exact ⟨rfl, he, htest⟩

/-- A category is read without fail where one of its tokens stands. -/
theorem ends_one_of_head {nt : NonTerminal} {wanted : String} {test : Symbol → Bool}
    {fault : ParseError → Scan → Prop} (h : s.rest.head?.any test = true) :
    Ends (within nt (expect nt wanted test)) s (fun t => ∃ u, s.Passes [u] t) fault := by
  refine (ends_one nt wanted test s).imp ?_ ?_
  · rintro t ⟨u, -, ht⟩
    exact ⟨u, ht⟩
  · rintro e t ⟨-, -, htest⟩
    rw [h] at htest
    cases htest

theorem ends_literal (nt : NonTerminal) (u : Symbol) (s : Scan) :
    Ends (literal nt u) s (s.Passes [u])
      fun e t => t = s ∧ e = t.missing nt u.quoted ∧ t.rest.head? ≠ some u := by
  refine (ends_expect nt u.quoted _ s).imp ?_ ?_
  · rintro t ⟨v, hv, ht⟩
    obtain rfl : v = u := of_decide_eq_true hv
    exact ht
  · rintro e t ⟨rfl, he, htest⟩
    refine ⟨rfl, he, fun hhead => ?_⟩
    rw [hhead] at htest
    simp at htest

theorem ends_term (s : Scan) :
    Ends (term a) s (fun t => ∃ u, s.Passes [u] t)
      fun e t => t = s.noted (.enter .term) ∧ e = t.missing .term "a variable or constant" := by
  have hdone : ∀ t, (∃ u, (s.noted (.enter .term)).Passes [u] t) →
      ∃ u, s.Passes [u] (t.noted .leave) := fun t ⟨u, ht⟩ => ⟨u, ht.within⟩
  refine Ends.within (ends_sees (fun hvar => ?_) fun _ =>
    ends_sees (fun hconstant => ?_) fun _ => ?_)
  · exact (ends_one_of_head hvar).imp hdone fun _ _ h => h
  · exact (ends_one_of_head hconstant).imp hdone fun _ _ h => h
  · exact (ends_fail _ _ _).imp (fun _ h => h) fun e t ⟨ht, he⟩ => ⟨ht, ht ▸ he⟩

/-! Argument lists. -/

/-- Whether a scan stands at a missing variable of the argument list at which another stands, behind
arguments that are each followed by a comma. -/
structure StopsIn (s : Scan) (args : List Symbol) (lists : List Opening) (t : Scan) : Prop where
  rest : s.rest = listed args ++ t.rest
  position : t.position = s.position + 2 * args.length
  opened : t.cursor.opened =
    ⟨.var, s.cursor.position + 2 * args.length⟩ :: (lists ++ s.cursor.opened)
  within : ∀ o ∈ lists, o.nt = .varList

theorem StopsIn.first (s : Scan) :
    StopsIn s [] [⟨.varList, s.cursor.position⟩]
      ((s.noted (.enter .varList)).noted (.enter .var)) where
  rest := rfl
  position := rfl
  opened := by simp [Scan.cursor_enter]
  within := by simp

theorem StopsIn.later {t u : Scan} {v : Symbol} {args : List Symbol} {lists : List Opening}
    (h : (s.noted (.enter .varList)).Passes [v, .comma] t) (ht : StopsIn t args lists u) :
    StopsIn s (v :: args) (lists ++ [⟨.varList, s.cursor.position⟩]) u where
  rest := by
    have hrest := h.rest
    rw [ht.rest] at hrest
    exact hrest
  position := by
    rw [ht.position, h.position, Scan.position_noted, List.length_cons]
    simp only [List.length_cons, List.length_nil]
    omega
  opened := by
    rw [ht.opened, h.cursor, Scan.cursor_enter]
    simp only [List.length_cons, List.length_nil, List.append_assoc, List.singleton_append,
      List.cons.injEq, Opening.mk.injEq, true_and, and_true]
    omega
  within o ho := by
    rcases List.mem_append.1 ho with ho | ho
    · exact ht.within o ho
    · rw [List.mem_singleton.1 ho]

/-- An argument list ends where no comma follows, or a variable of it is missing. -/
theorem ends_varList {commas : Nat} (h : s.rest.length ≤ commas) :
    Ends (varList a commas) s
      (fun t => ∃ args v, s.Passes (listed args ++ [v]) t ∧ t.rest.head? ≠ some .comma)
      fun e t => e = t.missing .var "a variable" ∧ ∃ args lists, StopsIn s args lists t := by
  induction commas generalizing s with
  | zero =>
    have hrest : s.rest = [] := List.length_eq_zero_iff.1 (Nat.le_zero.1 h)
    refine Ends.within ((ends_one _ _ _ _).imp ?_ ?_)
    · rintro t ⟨u, -, ht⟩
      have hcons := ht.rest
      simp [hrest] at hcons
    · rintro e t ⟨rfl, rfl, -⟩
      exact ⟨rfl, _, _, .first s⟩
  | succ commas ih =>
    refine Ends.within (Ends.seq ((ends_one _ _ _ _).imp (fun _ h => h) ?_) ?_)
    · rintro e t ⟨rfl, rfl, -⟩
      exact ⟨rfl, _, _, .first s⟩
    · rintro t ⟨v, -, hv⟩
      refine ends_sees (fun hcomma => ?_) fun hcomma => ?_
      · obtain ⟨c, hc, hcc⟩ := (Option.any_eq_true _ _).1 hcomma
        obtain rfl : c = .comma := of_decide_eq_true hcc
        obtain ⟨rest, hrest⟩ := List.head?_eq_some_iff.1 hc
        refine (ends_shift hrest).seq fun u hu => ?_
        have hread := hv.trans hu
        have hle : u.rest.length ≤ commas := by
          have hlength := congrArg List.length hread.rest
          simp only [Scan.rest_noted, List.length_append, List.length_cons, List.length_nil]
            at hlength
          omega
        refine (ih hle).imp ?_ ?_
        · rintro w ⟨args, v', hw, hnext⟩
          exact ⟨v :: args, v', (hread.trans hw).within, hnext⟩
        · rintro e w ⟨he, args, lists, hw⟩
          exact ⟨he, _, _, hw.later hread⟩
      · refine ⟨[], v, hv.within, fun hhead => ?_⟩
        change t.rest.head? = some .comma at hhead
        rw [hhead] at hcomma
        simp at hcomma

/-! Formulas. -/

variable {tokens : List Symbol}

/-- Whether a parser stops only with one of the errors that may arise. -/
def Safe (a : Alphabet) (tokens : List Symbol) (p : Parser Unit) : Prop :=
  ∀ s : Scan, s.On tokens → Ends p s (fun t => ∃ read, s.Passes read t) (Fault a tokens)

theorem Safe.after {p : Parser Unit} {t : Scan} {read : List Symbol} (h : Safe a tokens p)
    (on : s.On tokens) (ht : s.Passes read t) :
    Ends p t (fun u => ∃ read, s.Passes read u) (Fault a tokens) :=
  (h t (on.passes ht)).imp (fun _ ⟨_, hu⟩ => ⟨_, ht.trans hu⟩) fun _ _ h => h

theorem Safe.seq {p q : Parser Unit} (hp : Safe a tokens p) (hq : Safe a tokens q) :
    Safe a tokens (do p; q) :=
  fun s on => (hp s on).seq fun _ ⟨_, ht⟩ => hq.after on ht

theorem Safe.within {p : Parser Unit} {nt : NonTerminal} (h : Safe a tokens p)
    (hnt : nt ≠ .varList) : Safe a tokens (within nt p) := by
  intro s on
  refine Ends.within ((h _ (on.enter hnt)).imp ?_ fun _ _ h => h)
  rintro t ⟨read, ht⟩
  exact ⟨read, ht.within⟩

/-- An error is one of those that may arise if it is among the complaints. -/
theorem fault_of_complaint {nt : NonTerminal} {wanted : String} (on : s.On tokens)
    (h : (nt, wanted) ∈ a.complaints) : Fault a tokens (s.missing nt wanted) s :=
  .inr ⟨nt, wanted, rfl, .outside h on⟩

theorem safe_one {nt : NonTerminal} {wanted : String} (test : Symbol → Bool) (hnt : nt ≠ .varList)
    (h : (nt, wanted) ∈ a.complaints) :
    Safe a tokens (Parser.within nt (expect nt wanted test)) := by
  intro s on
  refine (ends_one nt wanted test s).imp (fun t ⟨u, _, ht⟩ => ⟨_, ht⟩) ?_
  rintro e t ⟨rfl, rfl, -⟩
  exact fault_of_complaint (on.enter hnt) h

theorem safe_connective : Safe a tokens (connective a) :=
  safe_one _ (by decide) (by simp [Alphabet.complaints])

theorem safe_var : Safe a tokens (var a) :=
  safe_one _ (by decide) (by simp [Alphabet.complaints])

theorem safe_close : Safe a tokens (literal .formula .closeParen) := by
  intro s on
  refine (ends_literal _ _ s).imp (fun t ht => ⟨_, ht⟩) ?_
  rintro e t ⟨rfl, rfl, -⟩
  exact fault_of_complaint on (by simp [Alphabet.complaints])

theorem safe_term : Safe a tokens (term a) := by
  intro s on
  refine (ends_term s).imp (fun t ⟨_, ht⟩ => ⟨_, ht⟩) ?_
  rintro e t ⟨rfl, rfl⟩
  exact fault_of_complaint (on.enter (by decide)) (by simp [Alphabet.complaints])

/-- Behind a first term the equality symbol stands, by which the rule was chosen. -/
theorem ends_equality {z u : Symbol} {rest : List Symbol} {t : Scan} {nt : NonTerminal}
    {fault : ParseError → Scan → Prop} (hr : FormulaRule.equation.applies a.toSignature (z :: rest))
    (ht : rest = u :: t.rest) :
    Ends (literal nt a.equality) t (t.Passes [a.equality]) fault := by
  refine (ends_literal nt a.equality t).imp (fun _ h => h) ?_
  rintro e t' ⟨rfl, -, hnext⟩
  have hequality := ((FormulaRule.applies_equation_iff _ _).1 hr).2
  rw [ht] at hequality
  rw [List.head?_eq_getElem?] at hnext
  exact absurd hequality hnext

/-- What may go wrong in a predicate whose symbol is there. -/
theorem ends_predicate {z : Symbol} {more : List Symbol} (on : s.On tokens)
    (hz : z ∈ a.predicateSymbols) (hrest : s.rest = z :: more) :
    Ends (predicate a) s (fun t => ∃ read, s.Passes read t) (Fault a tokens) := by
  have hdrop : tokens.drop s.position = z :: more := on.rest.symm.trans hrest
  have hhead : (s.noted (.enter .predicate)).rest.head?.any (· ∈ a.predicateSymbols) = true := by
    simp [hrest, hz]
  refine Ends.within ((ends_one_of_head hhead).seq ?_)
  rintro t₁ ⟨u, h₁⟩
  obtain ⟨rfl, rfl⟩ : z = u ∧ more = t₁.rest := List.cons.inj (hrest.symm.trans h₁.rest)
  refine ((ends_literal .predicate .openParen t₁).imp (fun _ h => h) ?_).seq fun t₂ h₂ => ?_
  · rintro e t ⟨rfl, rfl, hnext⟩
    exact .inr ⟨_, _, rfl, .unopened hz hdrop hnext⟩
  change Ends (do varList a t₂.rest.length; literal .predicate .closeParen) t₂ _ _
  have hopened := h₁.trans h₂
  have on₂ := (on.enter (by decide)).passes hopened
  rw [h₂.rest] at hdrop
  refine ((ends_varList (Nat.le_refl _)).imp (fun _ h => h) ?_).seq ?_
  · rintro e t ⟨rfl, args, lists, ht⟩
    have hposition : t.position = s.position + 2 * (args.length + 1) := by
      rw [ht.position, hopened.position, Scan.position_noted]
      simp only [List.length_append, List.length_cons, List.length_nil]
      omega
    have hread : tokens.drop s.position = z :: .openParen :: (listed args ++ t.rest) := by
      rw [hdrop, ht.rest]
      rfl
    have hstack : t.cursor.opened =
        ⟨.var, t.position⟩ :: (lists ++ ⟨.predicate, s.position⟩ :: s.cursor.opened) := by
      rw [ht.opened, on₂.counted, ← ht.position, hopened.cursor, Scan.cursor_enter, on.counted]
    exact .inr ⟨_, _, rfl, .argument hz hread hposition hstack ht.within⟩
  · rintro t₃ ⟨args, v, h₃, hcomma⟩
    refine (ends_literal _ _ _).imp ?_ ?_
    · intro t₄ h₄
      exact ⟨_, (hopened.trans (h₃.trans h₄)).within⟩
    · rintro e t ⟨rfl, rfl, hnext⟩
      have hread : tokens.drop s.position = z :: .openParen :: (listed args ++ v :: t.rest) := by
        rw [hdrop, h₃.rest]
        simp
      exact .inr ⟨_, _, rfl, .unclosed hz hread hcomma hnext⟩

/-- By a rule that applies, reading stops only as it may if it does so in the formulas inside. -/
theorem ends_byRule {inner : Parser Unit} {r : FormulaRule} (hinner : Safe a tokens inner)
    (on : s.On tokens) (hr : r.applies a.toSignature s.rest = true) :
    Ends (byRule a inner r) s (fun t => ∃ read, s.Passes read t) (Fault a tokens) := by
  have hbelow : Safe a tokens (Parser.within .formula inner) := hinner.within (by decide)
  obtain ⟨z, hz, more, hrest⟩ := FormulaRule.exists_of_applies hr
  cases r with
  | binary =>
    have hright := hbelow.seq safe_close
    have hleft := hbelow.seq (safe_connective.seq hright)
    exact (ends_shift hrest).seq fun t ht => hleft.after on ht
  | equation =>
    refine (ends_shift hrest).seq fun t₁ h₁ => ?_
    refine ((ends_term t₁).imp (fun _ h => h) ?_).seq fun t₂ ⟨u, h₂⟩ => ?_
    · rintro e t ⟨rfl, rfl⟩
      exact fault_of_complaint ((on.passes h₁).enter (by decide)) (by simp [Alphabet.complaints])
    · have hread := h₁.rest.trans (congrArg ([z] ++ ·) h₂.rest)
      rw [hread] at hr
      refine (ends_equality hr rfl).seq fun t₃ h₃ => ?_
      exact (safe_term.seq safe_close).after on ((h₁.trans h₂).trans h₃)
  | quantified =>
    have hhead : s.rest.head?.any (· ∈ a.quantifiers.toList) = true := by
      rw [hrest]
      exact decide_eq_true hz
    exact (ends_one_of_head hhead).seq fun t ⟨_, ht⟩ => (safe_var.seq hbelow).after on ht
  | negation => exact (ends_shift hrest).seq fun t ht => hbelow.after on ht
  | atom => exact ends_predicate on hz hrest

/-- Reading a formula stops only with one of the errors that may arise. -/
theorem safe_formula (budget depth : Nat) : Safe a tokens (formula a budget depth) := by
  induction budget generalizing depth with
  | zero => exact fun s _ => .inl rfl
  | succ budget ih =>
    intro s on
    unfold Ends
    cases hr : FormulaRule.select? a.toSignature s.rest with
    | none =>
      rw [formula_of_none hr]
      refine (ends_fail _ _ _).imp (fun _ h => h) ?_
      rintro e t ⟨rfl, rfl⟩
      exact fault_of_complaint on.select List.mem_cons_self
    | some r =>
      rw [formula_of_some hr]
      have happlies := (FormulaRule.select?_eq_some_iff a s.rest r).1 hr
      refine (ends_byRule (s := s.noted _) (ih (depth + 1)) on.select happlies).imp ?_
        fun _ _ h => h
      rintro t ⟨read, ht⟩
      exact ⟨read, ht.of_select⟩

end Parser

end Formulary
