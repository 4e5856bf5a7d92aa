import Formulary.Proofs.Json.Readable
import Formulary.Report
import Mathlib.Data.List.Basic

/-!
What a report keeps. The input, the tokens, the tree and the grammar of a run can be told from its
report, and so from the report's text.
-/

namespace Formulary

theorem Symbol.stored_injective : Function.Injective Symbol.stored := by
  rintro ⟨s⟩ ⟨t⟩ rfl
  rfl

theorem NonTerminal.key_injective : Function.Injective NonTerminal.key := by
  intro nt nt' h
  cases nt <;> cases nt' <;> first | rfl | exact absurd h (by decide)

namespace Report

open Function (Injective)

theorem text_injective : Injective Json.text := fun _ _ => Json.text.inj

theorem number_injective : Injective Json.number := fun _ _ => Json.number.inj

/-- A list tells its items if each of them can be told from its value. -/
theorem list_injective {α : Type} {of : α → Json} (h : Injective of) :
    Injective fun xs : List α => Json.list (xs.map of) :=
  fun _ _ heq => List.map_injective_iff.2 h (Json.list.inj heq)

theorem record_single {name name' : String} {j k : Json} :
    Json.record [(name, j)] = .record [(name', k)] ↔ name = name' ∧ j = k := by simp

theorem ofNonTerminal_injective : Injective ofNonTerminal :=
  text_injective.comp NonTerminal.key_injective

/-- The name of the only field tells a terminal from a non-terminal. -/
theorem ofLabel_injective : Injective ofLabel := by
  intro l l' h
  cases l with
  | nonTerminal nt =>
    cases l' with
    | nonTerminal nt' => rw [ofNonTerminal_injective (record_single.1 h).2]
    | terminal z => exact absurd (record_single.1 h).1 (by decide)
  | terminal z =>
    cases l' with
    | nonTerminal nt => exact absurd (record_single.1 h).1 (by decide)
    | terminal z' => rw [Symbol.stored_injective (text_injective (record_single.1 h).2)]

theorem ofGrammarSymbol_injective : Injective ofGrammarSymbol := by
  intro s s' h
  cases s with
  | terminal text =>
    cases s' with
    | terminal text' => rw [text_injective (record_single.1 h).2]
    | nonTerminal nt => exact absurd (record_single.1 h).1 (by decide)
  | nonTerminal nt =>
    cases s' with
    | terminal text => exact absurd (record_single.1 h).1 (by decide)
    | nonTerminal nt' => rw [ofNonTerminal_injective (record_single.1 h).2]

/-- No parent is told from any number, since it is null. -/
theorem ofNode_injective : Injective ofNode := by
  rintro ⟨label, parent, children⟩ ⟨label', parent', children'⟩ h
  simp only [ofNode, Json.record.injEq, List.cons.injEq, Prod.mk.injEq, and_true, true_and] at h
  obtain ⟨hlabel, hparent, hchildren⟩ := h
  obtain rfl := ofLabel_injective hlabel
  obtain rfl := list_injective number_injective hchildren
  have hparents : parent = parent' := by
    cases parent <;> cases parent' <;> simp_all
  rw [hparents]

theorem ofTree_injective : Injective ofTree := by
  rintro ⟨nodes⟩ ⟨nodes'⟩ h
  have hnodes := list_injective ofNode_injective (record_single.1 h).2
  obtain rfl : nodes = nodes' := Array.toList_inj.1 hnodes
  rfl

theorem ofRule_injective : Injective ofRule := by
  rintro ⟨lhs, alternatives⟩ ⟨lhs', alternatives'⟩ h
  simp only [ofRule, Json.record.injEq, List.cons.injEq, Prod.mk.injEq, and_true, true_and] at h
  obtain ⟨hlhs, halternatives⟩ := h
  rw [ofNonTerminal_injective hlhs,
    list_injective (list_injective ofGrammarSymbol_injective) halternatives]

theorem ofGrammar_injective : Injective ofGrammar := by
  rintro ⟨terminals, nonTerminals, rules, start⟩ ⟨terminals', nonTerminals', rules', start'⟩ h
  simp only [ofGrammar, Json.record.injEq, List.cons.injEq, Prod.mk.injEq, and_true, true_and] at h
  obtain ⟨hterminals, hnonTerminals, hrules, hstart⟩ := h
  rw [list_injective text_injective hterminals,
    list_injective ofNonTerminal_injective hnonTerminals, list_injective ofRule_injective hrules,
    ofNonTerminal_injective hstart]

end Report

/-- Two reports have the same text only if they are about the same input and the same tokens, trees
and grammars, for all runs and inputs. -/
theorem Analysis.pretty_report_eq_iff (a b : Analysis) (input input' : String) :
    (a.report input).pretty = (b.report input').pretty ↔
      input = input' ∧ a.tokens = b.tokens ∧ a.tree = b.tree ∧ a.grammar = b.grammar := by
  constructor
  · intro h
    have hreport := Json.pretty_injective h
    simp only [report, Json.record.injEq, List.cons.injEq, Prod.mk.injEq, and_true, true_and,
      Json.text.injEq] at hreport
    obtain ⟨hinput, htokens, htree, hgrammar⟩ := hreport
    exact ⟨hinput,
      Report.list_injective (Report.text_injective.comp Symbol.stored_injective) htokens,
      Report.ofTree_injective htree, Report.ofGrammar_injective hgrammar⟩
  · rintro ⟨rfl, htokens, htree, hgrammar⟩
    simp only [report, htokens, htree, hgrammar]

end Formulary
