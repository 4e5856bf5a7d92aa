import Formulary.Pipeline
import Formulary.Proofs.Alphabet.Precedence
import Formulary.Proofs.Definition.Spelling
import Formulary.Proofs.Parser.Unreachable
import Formulary.Proofs.Pipeline.Accepts
import Formulary.Proofs.Text.Plain

/-!
Plain messages. What a failure says is plain, because nothing is quoted in it but words and tokens
of the definition.
-/

namespace Formulary

open Text (decimal)

/-! Messages. -/

/-- Whether an error quotes nothing that is not plain. -/
def AlphabetError.Plain : AlphabetError → Prop
  | .cardinality .. => True
  | .arityFormat predicate arity => predicate.Plain ∧ Text.Plain arity
  | .duplicate _ z | .overlap _ _ z | .forbidden _ z => z.Plain

def ArityViolation.Plain : ArityViolation → Prop
  | .expectedComma _ found | .expectedClose found => found.Plain
  | _ => True

def StructureError.Plain : StructureError → Prop
  | .arity predicate _ _ reason => predicate.Plain ∧ reason.Plain
  | .balance .. | .sentinel _ => True

def ParseError.Plain : ParseError → Prop
  | .expected _ wanted found _ => Text.Plain wanted ∧ found.Plain
  | .unexpectedEnd _ wanted => Text.Plain wanted
  | .trailingInput found _ => found.Plain
  | .tooDeep .. | .empty => True

theorem SymbolClass.plain_singular (k : SymbolClass) : Text.Plain k.singular := by
  cases k <;> decide

theorem SymbolClass.plain_plural (k : SymbolClass) : Text.Plain k.plural := by
  cases k <;> decide

theorem SymbolClass.plain_describe (k : SymbolClass) (count : Nat) :
    Text.Plain (k.describe count) := by
  unfold describe
  split_ifs
  · exact k.plain_singular
  · exact k.plain_plural

/-! Once its quotations are known to be plain, the words around them are left of a message. -/

theorem AlphabetError.plain_message {e : AlphabetError} (h : e.Plain) : Text.Plain e.message := by
  cases e with
  | cardinality kind expected found =>
    unfold message
    simp only [Text.plain_append, Text.plain_decimal, kind.plain_describe, and_true]
    decide
  | arityFormat predicate arity =>
    unfold message
    simp only [Text.plain_append, h.1.quoted, h.2, and_true]
    decide
  | duplicate kind z =>
    have hz : Text.Plain z.quoted := Symbol.Plain.quoted h
    unfold message
    simp only [Text.plain_append, kind.plain_singular, hz, and_true]
    decide
  | overlap first second z =>
    have hz : Text.Plain z.quoted := Symbol.Plain.quoted h
    unfold message
    simp only [Text.plain_append, first.plain_plural, second.plain_plural, hz, and_true]
    decide
  | forbidden kind z =>
    have hz : Text.Plain z.quoted := Symbol.Plain.quoted h
    unfold message
    simp only [Text.plain_append, kind.plain_singular, hz, true_and]
    decide

theorem ArityViolation.plain_message {v : ArityViolation} (h : v.Plain) :
    Text.Plain v.message := by
  cases v with
  | missingOpenParen | zeroArity | truncated => decide
  | earlyClose argument | missingArgument argument =>
    unfold message
    simp only [Text.plain_append, Text.plain_decimal, and_true]
    decide
  | expectedComma argument found =>
    have hfound : Text.Plain found.quoted := Symbol.Plain.quoted h
    unfold message
    simp only [Text.plain_append, Text.plain_decimal, hfound, and_true]
    decide
  | expectedClose found =>
    have hfound : Text.Plain found.quoted := Symbol.Plain.quoted h
    unfold message
    simp only [Text.plain_append, hfound, and_true]
    decide

theorem StructureError.plain_message {e : StructureError} (h : e.Plain) :
    Text.Plain e.message := by
  cases e with
  | balance opened closed =>
    unfold message
    simp only [Text.plain_append, Text.plain_decimal, and_true]
    decide
  | arity predicate places position reason =>
    unfold message
    simp only [Text.plain_append, Text.plain_decimal, h.1.quoted,
      ArityViolation.plain_message h.2, and_true]
    decide
  | sentinel position =>
    unfold message
    simp only [Text.plain_append, Text.plain_decimal, and_true]
    decide

theorem NonTerminal.plain_letter (nt : NonTerminal) : Text.Plain nt.letter := by
  cases nt <;> decide

theorem ParseError.plain_message {e : ParseError} (h : e.Plain) : Text.Plain e.message := by
  cases e with
  | expected nt wanted found position =>
    unfold message
    simp only [Text.plain_append, Text.plain_decimal, nt.plain_letter, h.1, h.2.quoted,
      and_true, true_and]
    decide
  | unexpectedEnd nt wanted =>
    have hwanted : Text.Plain wanted := h
    unfold message
    simp only [Text.plain_append, nt.plain_letter, hwanted, and_true, true_and]
    decide
  | trailingInput found position =>
    have hfound : Text.Plain found.quoted := Symbol.Plain.quoted h
    unfold message
    simp only [Text.plain_append, Text.plain_decimal, hfound, and_true]
    decide
  | tooDeep limit position =>
    unfold message
    simp only [Text.plain_append, Text.plain_decimal, and_true]
    decide
  | empty => decide

/-! Validation. -/

structure Declaration.Plain (d : Declaration) : Prop where
  symbols : ∀ k, ∀ z ∈ d.members k, z.Plain
  arities : ∀ p ∈ d.predicates, Text.Plain p.arity

/-- Whichever rule a declaration breaks, the error quotes something of it. -/
theorem Declaration.plain_of_validate {d : Declaration} {e : AlphabetError} (hd : d.Plain)
    (h : d.validate = .error e) : e.Plain := by
  obtain ⟨r, -, hr⟩ := List.exists_of_findSome?_eq_some (validate_eq_error_iff_findSome?.1 h)
  cases Rule.verdict?_eq_some_iff.1 hr with
  | size _ => trivial
  | arities first =>
    exact ⟨hd.symbols .predicate _ (List.mem_map_of_mem first.mem), hd.arities _ first.mem⟩
  | @once k t _ _ hmembers _ _ =>
    have hmem : t ∈ d.members k := hmembers ▸ List.mem_append_right _ List.mem_cons_self
    exact hd.symbols k t hmem
  | apart first => exact hd.symbols _ _ first.mem
  | unreserved first => exact hd.symbols _ _ first.mem

/-! Checks of the formula. -/

section

variable {s : Signature} {tokens : List Symbol}

theorem plain_of_checkArguments {arity k : Nat} {v : ArityViolation} (ht : ∀ z ∈ tokens, z.Plain)
    (h : checkArguments arity k tokens = .error v) : v.Plain := by
  fun_induction checkArguments arity k tokens with
  | case1 | case2 | case3 | case4 | case6 =>
    cases h
    trivial
  | case5 _ _ _ _ _ _ ih =>
    exact ih (fun z hz => ht z (List.mem_cons_of_mem _ (List.mem_cons_of_mem _ hz))) h
  | case7 | case9 =>
    cases h
    exact ht _ (List.mem_cons_of_mem _ List.mem_cons_self)
  | case8 => cases h

theorem plain_of_checkOccurrence {arity : Nat} {v : ArityViolation} (ht : ∀ z ∈ tokens, z.Plain)
    (h : checkOccurrence arity tokens = .error v) : v.Plain := by
  cases tokens with
  | nil =>
    cases h
    trivial
  | cons t rest =>
    rw [checkOccurrence] at h
    split_ifs at h
    · cases h
      trivial
    · cases h
      trivial
    · exact plain_of_checkArguments (fun z hz => ht z (List.mem_cons_of_mem _ hz)) h

theorem plain_of_checkArityFrom {position : Nat} {e : StructureError} (ht : ∀ z ∈ tokens, z.Plain)
    (h : checkArityFrom s position tokens = .error e) : e.Plain := by
  induction tokens generalizing position with
  | nil => cases h
  | cons t rest ih =>
    obtain ⟨hz, hrest⟩ := List.forall_mem_cons.1 ht
    rw [checkArityFrom] at h
    split at h
    · exact ih hrest h
    · split at h
      · next reason hreason =>
        cases h
        exact ⟨hz, plain_of_checkOccurrence hrest hreason⟩
      · exact ih hrest h

theorem plain_of_checkStructure {e : StructureError} (ht : ∀ z ∈ tokens, z.Plain)
    (h : checkStructure s tokens = .error e) : e.Plain := by
  cases hsentinel : checkSentinel tokens with
  | error e' =>
    rw [checkStructure, hsentinel] at h
    cases h
    unfold checkSentinel at hsentinel
    split at hsentinel <;> cases hsentinel
    trivial
  | ok _ =>
    cases hbalance : checkBalance tokens with
    | error e' =>
      rw [checkStructure, hsentinel, hbalance] at h
      cases h
      rw [checkBalance] at hbalance
      split_ifs at hbalance
      cases hbalance
      trivial
    | ok _ =>
      rw [checkStructure, hsentinel, hbalance] at h
      exact plain_of_checkArityFrom ht h

/-! Parsing. -/

variable {a : Alphabet} {limit : Nat}

/-- What is missing is described without a quotation, or by the negation or a parenthesis. -/
theorem Stuck.plain_wanted {t : Scan} {nt : NonTerminal} {wanted : String}
    (h : Stuck a tokens t nt wanted) (hneg : a.connectives.neg.Plain) : Text.Plain wanted := by
  cases h with
  | outside complaint _ =>
    simp only [Alphabet.complaints, List.mem_cons, Prod.mk.injEq, List.not_mem_nil,
      or_false] at complaint
    rcases complaint with ⟨-, rfl⟩ | ⟨-, rfl⟩ | ⟨-, rfl⟩ | ⟨-, rfl⟩ | ⟨-, rfl⟩
    · simp only [Text.plain_append, hneg.quoted, and_true]
      decide
    · decide
    · decide
    · decide
    · decide
  | unopened | argument | unclosed => decide

theorem Scan.mem_rest_of_missing (t : Scan) {nt nt' : NonTerminal} {wanted wanted' : String}
    {found : Symbol} {position : Nat}
    (h : t.missing nt wanted = .expected nt' wanted' found position) : found ∈ t.rest := by
  rw [missing] at h
  split at h
  · cases h
  · next heq =>
    cases h
    rw [heq]
    exact List.mem_cons_self

theorem plain_of_parse {e : ParseError} (hneg : a.connectives.neg.Plain)
    (ht : ∀ z ∈ tokens, z.Plain) (h : parse a limit tokens = .error e) : e.Plain := by
  cases e with
  | expected nt wanted found position =>
    obtain ⟨t, heq, hsuffix, -, hstuck⟩ := exists_stuck h rfl
    exact ⟨hstuck.plain_wanted hneg, ht found (hsuffix.subset (t.mem_rest_of_missing heq.symm))⟩
  | unexpectedEnd nt wanted =>
    obtain ⟨t, -, -, -, hstuck⟩ := exists_stuck h rfl
    exact hstuck.plain_wanted hneg
  | trailingInput found position =>
    have hne : tokens ≠ [] := by
      rintro rfl
      cases h
    rcases parse_cases a limit hne with ⟨e, s, hat, herror⟩ | ⟨φ, rest, -, htokens, hparse⟩
    · cases herror.symm.trans h
      exact hat.elim
    · cases rest with
      | nil => cases hparse.symm.trans h
      | cons u rest =>
        cases hparse.symm.trans h
        exact ht _ (htokens ▸ List.mem_append_right _ List.mem_cons_self)
  | tooDeep | empty => trivial

end

/-! Definitions. -/

/-- The parts of a plain word are plain. -/
theorem PredicateDecl.plain_ofWord {w : List Char} (hw : Text.Plain (String.ofList w)) :
    (ofWord w).symbol.Plain ∧ Text.Plain (ofWord w).arity := by
  have hpart {part : List Char} (h : part ⊆ w) : Text.Plain (String.ofList part) := by
    refine hw.of_subset ?_
    rwa [String.toList_ofList, String.toList_ofList]
  obtain ⟨name, arity, hname, harity, heq⟩ := ofWord_eq w
  rw [heq]
  exact ⟨Symbol.plain_ofText (hpart hname), hpart harity⟩

namespace Definition

structure Plain (d : Definition) : Prop where
  declaration : d.declaration.Plain
  formula : ∀ z ∈ d.formula, z.Plain

theorem plain_of_mem_words {content w : List Char} (h : w ∈ Text.words content) :
    Text.Plain (String.ofList w) := by
  refine Text.plain_of_not_blank fun c hc => Text.not_blank_of_mem_words h c ?_
  rwa [String.toList_ofList] at hc

/-- Whatever a definition is read from, nothing in it has a tab or the end of a line. -/
theorem plain_ofLines (lines : List String) : (ofLines lines).Plain := by
  have hsymbols {s : Section} {z : Symbol} (h : z ∈ gather symbolsOf s (placed lines)) :
      z.Plain := by
    obtain ⟨content, hz⟩ := exists_of_mem_gather h
    obtain ⟨w, hw, rfl⟩ := List.mem_map.1 hz
    exact Symbol.plain_ofText (plain_of_mem_words hw)
  have hpredicates {p : PredicateDecl} (h : p ∈ (ofLines lines).declaration.predicates) :
      p.symbol.Plain ∧ Text.Plain p.arity := by
    obtain ⟨content, hp⟩ := exists_of_mem_gather h
    obtain ⟨w, hw, rfl⟩ := List.mem_map.1 hp
    exact PredicateDecl.plain_ofWord (plain_of_mem_words hw)
  refine ⟨⟨fun k z hz => ?_, fun p hp => (hpredicates hp).2⟩, fun z hz => ?_⟩
  · cases k with
    | predicate =>
      obtain ⟨p, hp, rfl⟩ := List.mem_map.1 hz
      exact (hpredicates hp).1
    | var | constant | equality | connective | quantifier => exact hsymbols hz
  · obtain ⟨content, hz⟩ := exists_of_mem_gather hz
    obtain ⟨w, hw, rfl⟩ := List.mem_map.1 hz
    exact Symbol.plain_ofText (plain_of_mem_tokenize hw)

theorem Plain.neg {d : Definition} {a : Alphabet} (hd : d.Plain)
    (h : d.declaration.validate = .ok a) : a.connectives.neg.Plain := by
  refine hd.declaration.symbols .connective _ ?_
  rw [← Declaration.members_eq (Declaration.validate_eq_ok_iff.1 h).1]
  simp [Signature.members, Connectives.toList, ConnectiveRole.all, Connectives.get]

/-- What the failure of an analysis says is plain, in whichever stage it arose. -/
theorem plain_of_analyze {d : Definition} {limit : Nat} {f : Failure} (hd : d.Plain)
    (h : (d.analyze limit).result = .error f) : Text.Plain f.message := by
  rcases analyze_eq_error_iff.1 h with ⟨e, he, rfl⟩ | ⟨a, ha, ⟨e, he, rfl⟩ | ⟨-, e, he, rfl⟩⟩
  · exact AlphabetError.plain_message (Declaration.plain_of_validate hd.declaration he)
  · exact StructureError.plain_message (plain_of_checkStructure hd.formula he)
  · exact ParseError.plain_message (plain_of_parse (hd.neg ha) hd.formula he)

end Definition

end Formulary
