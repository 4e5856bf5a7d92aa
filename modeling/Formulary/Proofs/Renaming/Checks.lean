import Formulary.Formula.Structure
import Formulary.Proofs.Alphabet.Legal
import Formulary.Proofs.Renaming.Basic
import Mathlib.Data.List.Count
import Mathlib.Tactic.SplitIfs

/-!
The checks before parsing do not depend on how symbols are spelled. They pass for renamed symbols
where they passed before, and otherwise find the same fault.
-/

namespace Formulary

variable (r : Renaming)

theorem firstRepeat?_map (seen ts : List Symbol) :
    firstRepeat? (seen.map r) (ts.map r) = (firstRepeat? seen ts).map r := by
  induction ts generalizing seen with
  | nil => rfl
  | cons t ts ih =>
    simp only [List.map_cons, firstRepeat?, Renaming.mem_map_symbol]
    split
    · rfl
    · exact ih (t :: seen)

theorem find?_mem_map {ts us : List Symbol} :
    (ts.map r).find? (· ∈ us.map r) = (ts.find? (· ∈ us)).map r := by
  simp only [List.find?_map, Function.comp_def, Renaming.mem_map_symbol]

namespace Signature

variable (s : Signature)

theorem duplicate?_rename : (s.rename r).duplicate? = s.duplicate?.map (·.rename r) := by
  simp only [duplicate?, members_rename, List.map_findSome?, Function.comp_def, Option.map_map]
  congr! 2 with k
  rw [← List.map_nil (f := r), firstRepeat?_map, Option.map_map]
  rfl

theorem overlap?_rename : (s.rename r).overlap? = s.overlap?.map (·.rename r) := by
  simp only [overlap?, members_rename, find?_mem_map, List.map_findSome?, Function.comp_def,
    Option.map_map]
  rfl

theorem forbidden?_rename : (s.rename r).forbidden? = s.forbidden?.map (·.rename r) := by
  simp only [forbidden?, members_rename, List.find?_map, Function.comp_def,
    Renaming.mem_punctuation, List.map_findSome?, Option.map_map]
  rfl

theorem clash?_rename : (s.rename r).clash? = s.clash?.map (·.rename r) := by
  rw [clash?, clash?, duplicate?_rename, overlap?_rename, forbidden?_rename]
  cases s.duplicate? <;> cases s.overlap? <;> rfl

end Signature

theorem PredicateDecl.resolve_rename (p : PredicateDecl) :
    (p.rename r).resolve = (p.resolve.map (·.rename r)).mapError (·.rename r) := by
  unfold resolve
  cases h : Text.count? (Text.trim p.arity.toList) <;> simp [rename, h] <;> rfl

theorem mapM_resolve_rename (ps : List PredicateDecl) :
    (ps.map (·.rename r)).mapM PredicateDecl.resolve =
      ((ps.mapM PredicateDecl.resolve).map (List.map (·.rename r))).mapError (·.rename r) := by
  induction ps with
  | nil => rfl
  | cons p ps ih =>
    rw [List.map_cons, List.mapM_cons, List.mapM_cons, p.resolve_rename, ih]
    cases p.resolve with
    | error e => rfl
    | ok q => cases ps.mapM PredicateDecl.resolve <;> rfl

namespace Declaration

variable (d : Declaration)

theorem signature_rename :
    (d.rename r).signature = (d.signature.map (·.rename r)).mapError (·.rename r) := by
  fun_cases Declaration.signature d with
  | case1 equality hequality conj disj implies iff neg hconnectives universal existential
      hquantifiers =>
    simp only [signature, rename, hequality, hconnectives, hquantifiers, List.map_cons,
      List.map_nil, mapM_resolve_rename]
    cases d.predicates.mapM PredicateDecl.resolve <;> rfl
  | case2 equality hequality conj disj implies iff neg hconnectives hne =>
    simp only [signature, rename, hequality, hconnectives, List.map_cons, List.map_nil]
    split
    · next h =>
      simp only [List.map_eq_cons_iff, List.map_eq_nil_iff] at h
      obtain ⟨_, _, hquantifiers, -, _, _, rfl, -, rfl⟩ := h
      exact (hne _ _ hquantifiers).elim
    · rw [List.length_map]
      rfl
  | case3 equality hequality hne =>
    simp only [signature, rename, hequality, List.map_cons, List.map_nil]
    split
    · next h =>
      simp only [List.map_eq_cons_iff, List.map_eq_nil_iff] at h
      obtain ⟨_, _, hconnectives, -, _, _, rfl, -, _, _, rfl, -, _, _, rfl, -, _, _, rfl, -, rfl⟩ :=
        h
      exact (hne _ _ _ _ _ hconnectives).elim
    · rw [List.length_map]
      rfl
  | case4 hne =>
    simp only [signature, rename]
    split
    · next h =>
      obtain ⟨_, hequality, -⟩ := List.map_eq_singleton_iff.1 h
      exact (hne _ hequality).elim
    · rw [List.length_map]
      rfl

/-- Validation commutes with renaming. -/
theorem validate_rename :
    (d.rename r).validate = (d.validate.map (·.rename r)).mapError (·.rename r) := by
  have hrename := d.signature_rename r
  cases hs : d.signature with
  | error e =>
    rw [hs] at hrename
    rw [validate, validate, hs, hrename]
    rfl
  | ok s =>
    rw [hs] at hrename
    have hclash := s.clash?_rename r
    cases hc : s.clash? with
    | some e =>
      rw [hc] at hclash
      rw [validate_of_clash? hs hc, validate_of_clash? hrename hclash]
      rfl
    | none =>
      rw [hc] at hclash
      let a : Alphabet := ⟨s, Signature.nodup_symbols hc, Signature.unreserved_symbols hc⟩
      have ha : d.validate = .ok a := validate_eq_ok_iff.2 ⟨hs, hc⟩
      have ha' : (d.rename r).validate = .ok (a.rename r) :=
        validate_eq_ok_iff.2 ⟨hrename, hclash⟩
      rw [ha, ha']
      rfl

end Declaration

section Structure

theorem checkSentinel_map (tokens : List Symbol) :
    checkSentinel (tokens.map r) = (checkSentinel tokens).mapError (·.rename r) := by
  simp only [checkSentinel, List.findIdx?_map, Function.comp_def, r.symbol_eq_sentinel_iff]
  split <;> rfl

theorem checkBalance_map (tokens : List Symbol) :
    checkBalance (tokens.map r) = (checkBalance tokens).mapError (·.rename r) := by
  have hcount {t : Symbol} (ht : r t = t) : (tokens.map r).count t = tokens.count t := by
    conv_lhs => rw [← ht]
    exact List.count_map_of_injective tokens r r.symbol_injective t
  simp only [checkBalance, hcount r.symbol_openParen, hcount r.symbol_closeParen]
  split <;> rfl

theorem checkArguments_map (arity : Nat) : (k : Nat) → (tokens : List Symbol) →
    checkArguments arity k (tokens.map r) = (checkArguments arity k tokens).mapError (·.rename r)
  | _, [] => rfl
  | k, [argument] => by
    simp only [List.map, checkArguments, r.symbol_eq_closeParen_iff, r.symbol_eq_comma_iff]
    split_ifs <;> rfl
  | k, argument :: separator :: rest => by
    simp only [List.map, checkArguments, r.symbol_eq_closeParen_iff, r.symbol_eq_comma_iff]
    split_ifs
    · rfl
    · rfl
    · exact checkArguments_map arity (k + 1) rest
    · rfl
    · rfl
    · rfl
    · rfl

theorem checkOccurrence_map (arity : Nat) (tokens : List Symbol) :
    checkOccurrence arity (tokens.map r) =
      (checkOccurrence arity tokens).mapError (·.rename r) := by
  cases tokens with
  | nil => rfl
  | cons t rest =>
    simp only [List.map_cons, checkOccurrence, ne_eq, r.symbol_eq_openParen_iff]
    split_ifs
    · rfl
    · exact checkArguments_map r arity 1 rest
    · rfl

variable (s : Signature)

theorem checkArityFrom_rename (position : Nat) (tokens : List Symbol) :
    checkArityFrom (s.rename r) position (tokens.map r) =
      (checkArityFrom s position tokens).mapError (·.rename r) := by
  induction tokens generalizing position with
  | nil => rfl
  | cons t rest ih =>
    rw [List.map_cons, checkArityFrom, checkArityFrom, s.arity?_rename]
    cases s.arity? t with
    | none => exact ih (position + 1)
    | some arity =>
      simp only [checkOccurrence_map]
      cases checkOccurrence arity rest with
      | error reason => rfl
      | ok _ => exact ih (position + 1)

/-- The structural checks commute with renaming. -/
theorem checkStructure_rename (tokens : List Symbol) :
    checkStructure (s.rename r) (tokens.map r) =
      (checkStructure s tokens).mapError (·.rename r) := by
  rw [checkStructure, checkStructure, checkSentinel_map, checkBalance_map, checkArity,
    checkArityFrom_rename]
  cases checkSentinel tokens with
  | error e => rfl
  | ok _ => cases checkBalance tokens <;> rfl

end Structure

end Formulary
