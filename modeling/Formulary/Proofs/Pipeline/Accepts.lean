import Formulary.Pipeline
import Formulary.Proofs.Parser.Accepts
import Formulary.Proofs.Structure.Sentence

/-!
What a run accepts. The stages together succeed on the derivable formulas in which every predicate
symbol has as many variables as places, over alphabets that validate, and on nothing else.
-/

namespace Formulary

namespace Traced

variable {α β ε : Type}

/-- A sequence succeeds exactly if both parts do. -/
theorem bind_eq_ok_iff {x : Traced α} {f : α → Traced β} {b : β} :
    (x >>= f).result = .ok b ↔ ∃ a, x.result = .ok a ∧ (f a).result = .ok b := by
  change (x.andThen f).result = .ok b ↔ _
  unfold andThen
  cases hx : x.result <;> simp

theorem ofExcept_eq_ok_iff {wrap : ε → Failure} {r : Except ε α} {b : α} :
    (ofExcept wrap r).result = .ok b ↔ r = .ok b := by
  cases r <;> simp [ofExcept, Except.mapError]

theorem tell_eq_ok (events : List Event) : (tell events).result = .ok () := rfl

/-- A sequence fails in its first part, or behind it. -/
theorem bind_eq_error_iff {x : Traced α} {f : α → Traced β} {e : Failure} :
    (x >>= f).result = .error e ↔
      x.result = .error e ∨ ∃ a, x.result = .ok a ∧ (f a).result = .error e := by
  change (x.andThen f).result = .error e ↔ _
  unfold andThen
  cases hx : x.result <;> simp

theorem ofExcept_eq_error_iff {wrap : ε → Failure} {r : Except ε α} {f : Failure} :
    (ofExcept wrap r).result = .error f ↔ ∃ e, r = .error e ∧ wrap e = f := by
  cases r <;> simp [ofExcept, Except.mapError]

theorem pure_eq_ok_iff {a b : α} : (pure a : Traced α).result = .ok b ↔ a = b := by
  change Except.ok a = Except.ok b ↔ _
  simp

/-- What a sequence tells is what its first part tells, and then its second. -/
theorem events_bind {x : Traced α} {f : α → Traced β} {a : α} (h : x.result = .ok a) :
    (x >>= f).events = x.events ++ (f a).events := by
  change (x.andThen f).events = _
  rw [andThen, h]

theorem pure_ne_error (a : α) (f : Failure) : (pure a : Traced α).result ≠ .error f := nofun

end Traced

section

variable {a : Alphabet} {limit : Nat} {tokens : List Symbol}

theorem tracedParse_eq_ok_iff {tree : ParseTree} :
    (tracedParse a limit tokens).result = .ok tree ↔ parse a limit tokens = .ok tree := by
  simp only [tracedParse, Traced.bind_eq_ok_iff, Traced.ofExcept_eq_ok_iff, Traced.tell_eq_ok,
    Traced.pure_eq_ok_iff, true_and, exists_const, exists_eq_right, parse]

theorem events_tracedParse {tree : ParseTree} (h : parse a limit tokens = .ok tree) :
    (tracedParse a limit tokens).events =
      (attempt a limit tokens).moves.filterMap Move.event? ++
        [.formulaParsed tokens.length tree.size] := by
  rw [parse] at h
  rw [tracedParse, Traced.events_bind (Traced.tell_eq_ok _),
    Traced.events_bind (Traced.ofExcept_eq_ok_iff.2 h), Traced.events_bind (Traced.tell_eq_ok _)]
  rfl

theorem tracedParse_eq_error_iff {f : Failure} :
    (tracedParse a limit tokens).result = .error f ↔
      ∃ e, parse a limit tokens = .error e ∧ .parse e = f := by
  simp only [tracedParse, Traced.bind_eq_error_iff, Traced.ofExcept_eq_error_iff,
    Traced.tell_eq_ok, Traced.pure_ne_error, reduceCtorEq, true_and, false_or, and_false, or_false,
    exists_const, exists_false, parse]

end

/-- An analysis succeeds exactly if every stage does, and holds what the stages gave. -/
theorem Definition.analyze_eq_ok_iff {d : Definition} {limit : Nat} {x : Analysis} :
    (d.analyze limit).result = .ok x ↔
      ∃ a tree, d.declaration.validate = .ok a ∧
        checkStructure a.toSignature d.formula = .ok () ∧ parse a limit d.formula = .ok tree ∧
        { alphabet := a, tokens := d.formula, tree, grammar := a.grammar } = x := by
  simp only [analyze, Traced.bind_eq_ok_iff, Traced.ofExcept_eq_ok_iff, Traced.tell_eq_ok,
    tracedParse_eq_ok_iff, Traced.pure_eq_ok_iff, true_and, exists_const]
  constructor
  · rintro ⟨a, hvalidate, _, hstructure, tree, hparse, rfl⟩
    exact ⟨a, tree, hvalidate, hstructure, hparse, rfl⟩
  · rintro ⟨a, tree, hvalidate, hstructure, hparse, rfl⟩
    exact ⟨a, hvalidate, (), hstructure, tree, hparse, rfl⟩

/-- An analysis fails where the first of its stages does. -/
theorem Definition.analyze_eq_error_iff {d : Definition} {limit : Nat} {f : Failure} :
    (d.analyze limit).result = .error f ↔
      (∃ e, d.declaration.validate = .error e ∧ .alphabet e = f) ∨
      ∃ a, d.declaration.validate = .ok a ∧
        ((∃ e, checkStructure a.toSignature d.formula = .error e ∧ .formula e = f) ∨
          checkStructure a.toSignature d.formula = .ok () ∧
            ∃ e, parse a limit d.formula = .error e ∧ .parse e = f) := by
  simp only [analyze, Traced.bind_eq_error_iff, Traced.ofExcept_eq_error_iff,
    Traced.ofExcept_eq_ok_iff, Traced.tell_eq_ok, tracedParse_eq_error_iff, Traced.pure_ne_error,
    reduceCtorEq, Unique.exists_iff, true_and, false_or, and_false, or_false, exists_false]

/-- What an analysis tells if all its stages succeed. -/
theorem Definition.events_analyze {d : Definition} {limit : Nat} {a : Alphabet} {tree : ParseTree}
    (hvalidate : d.declaration.validate = .ok a)
    (hstructure : checkStructure a.toSignature d.formula = .ok ())
    (hparse : parse a limit d.formula = .ok tree) :
    (d.analyze limit).events =
      .alphabetValidated a.vars.length a.constants.length a.predicates.length ::
        .structureChecked d.formula.length :: (tracedParse a limit d.formula).events ++
          [.grammarGenerated a.grammar.rules.length a.grammar.terminals.length] := by
  rw [analyze, Traced.events_bind (Traced.ofExcept_eq_ok_iff.2 hvalidate),
    Traced.events_bind (Traced.tell_eq_ok _),
    Traced.events_bind (Traced.ofExcept_eq_ok_iff.2 hstructure),
    Traced.events_bind (Traced.tell_eq_ok _), Traced.events_bind (tracedParse_eq_ok_iff.2 hparse),
    Traced.events_bind (Traced.tell_eq_ok _)]
  rfl

/-- The stages of an analysis, one after the other. -/
def Definition.stages (d : Definition) (limit : Nat) : Except Failure Analysis := do
  let alphabet ← d.declaration.validate.mapError .alphabet
  (checkStructure alphabet.toSignature d.formula).mapError .formula
  let tree ← (parse alphabet limit d.formula).mapError .parse
  return { alphabet, tokens := d.formula, tree, grammar := alphabet.grammar }

/-- What an analysis tells on its way has no bearing on its result. -/
theorem Definition.result_analyze (d : Definition) (limit : Nat) :
    (d.analyze limit).result = d.stages limit := by
  rw [stages]
  cases hvalidate : d.declaration.validate with
  | error e => exact analyze_eq_error_iff.2 (.inl ⟨e, hvalidate, rfl⟩)
  | ok alphabet =>
    cases hstructure : checkStructure alphabet.toSignature d.formula with
    | error e =>
      simp only [Except.mapError, bind, Except.bind, hstructure]
      exact analyze_eq_error_iff.2 (.inr ⟨alphabet, hvalidate, .inl ⟨e, hstructure, rfl⟩⟩)
    | ok _ =>
      cases hparse : parse alphabet limit d.formula with
      | error e =>
        simp only [Except.mapError, bind, Except.bind, hstructure, hparse]
        exact analyze_eq_error_iff.2
          (.inr ⟨alphabet, hvalidate, .inr ⟨hstructure, e, hparse, rfl⟩⟩)
      | ok tree =>
        simp only [Except.mapError, bind, Except.bind, hstructure, hparse]
        exact analyze_eq_ok_iff.2 ⟨alphabet, tree, hvalidate, hstructure, hparse, rfl⟩

/-- What a run leaves in its sink has no bearing on its result. -/
theorem Pipeline.result_runDefinition {σ : Type} (p : Pipeline (StateM σ)) (d : Definition)
    (w : σ) : ((p.runDefinition d).run w).1.result = (d.analyze p.options.limit).result := rfl

theorem Pipeline.result_conclude {σ α : Type} (p : Pipeline (StateM σ)) (work : Traced α) (w : σ) :
    ((p.conclude work).run w).1.result = work.result := rfl

/-- A run on a text succeeds exactly if the analysis of what the text defines does. -/
theorem Pipeline.runText_eq_ok_iff {σ : Type} (p : Pipeline (StateM σ)) (text : String) (w : σ)
    {x : Analysis} :
    ((p.runText text).run w).1.result = .ok x ↔
      ((Definition.ofText text).analyze p.options.limit).result = .ok x := by
  have hload : (Definition.load (Text.linesOf text)).result = .ok (Definition.ofText text) := rfl
  rw [runText, runLines, result_conclude, Traced.bind_eq_ok_iff, hload]
  simp only [Except.ok.injEq, exists_eq_left']

/-- A run succeeds exactly on the derivable formulas over a legal alphabet that have no sentinel
and the right arities; so no predicate symbol without places occurs in them. -/
theorem Pipeline.runDefinition_succeeds_iff {σ : Type} (p : Pipeline (StateM σ)) (d : Definition)
    (w : σ) :
    ((∃ x, ((p.runDefinition d).run w).1.result = .ok x) ↔
      ∃ a, d.declaration.validate = .ok a ∧ Symbol.sentinel ∉ d.formula ∧
        ∃ t, a.DerivesFormula t ∧ t.yield = d.formula ∧ t.nesting ≤ p.options.limit ∧
          t.ArityCorrect a.toSignature) ∧
    ∀ x, ((p.runDefinition d).run w).1.result = .ok x →
      ∀ t ∈ d.formula, x.alphabet.arity? t ≠ some 0 := by
  rw [p.result_runDefinition]
  refine ⟨⟨?_, ?_⟩, ?_⟩
  · rintro ⟨x, hx⟩
    obtain ⟨a, tree, hvalidate, hstructure, hparse, _⟩ := Definition.analyze_eq_ok_iff.1 hx
    obtain ⟨φ, hyield, hnesting, _⟩ := parse_eq_ok_iff.1 hparse
    rw [← hyield, φ.checkStructure_yield] at hstructure
    rw [← hyield]
    refine ⟨a, hvalidate, hstructure.1, (Signature.exists_derivesFormula_iff _).2 ⟨φ, ?_⟩⟩
    exact ⟨φ.yield_tree, by rwa [φ.nesting_tree], hstructure.2⟩
  · rintro ⟨a, hvalidate, hsentinel, htree⟩
    obtain ⟨φ, hyield, hnesting, harity⟩ := (Signature.exists_derivesFormula_iff _).1 htree
    rw [φ.yield_tree] at hyield
    rw [φ.nesting_tree] at hnesting
    have hstructure : checkStructure a.toSignature d.formula = .ok () := by
      rw [← hyield] at hsentinel ⊢
      exact φ.checkStructure_yield.2 ⟨hsentinel, harity⟩
    have hparse := parse_eq_ok_iff.2 ⟨φ, hyield, hnesting, rfl⟩
    exact ⟨_, Definition.analyze_eq_ok_iff.2 ⟨a, _, hvalidate, hstructure, hparse, rfl⟩⟩
  · intro x hx
    obtain ⟨a, _, _, hstructure, _, rfl⟩ := Definition.analyze_eq_ok_iff.1 hx
    have hcheck := (checkStructure_eq_ok_iff.1 hstructure).2.2
    exact arity?_ne_zero_of_checkArityFrom hcheck

end Formulary
