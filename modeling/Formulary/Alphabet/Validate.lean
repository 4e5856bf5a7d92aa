import Formulary.Alphabet.Basic

/-!
From declarations to alphabets. The rules are tried in a fixed order and the first one broken is
reported: the sizes of the fixed classes, the arities, repetitions within a class, symbols shared
by two classes, and punctuation.
-/

namespace Formulary

open Text (decimal)

inductive AlphabetError
  | cardinality (kind : SymbolClass) (expected found : Nat)
  | arityFormat (predicate : Symbol) (arity : String)
  | duplicate (kind : SymbolClass) (symbol : Symbol)
  | overlap (first second : SymbolClass) (symbol : Symbol)
  | forbidden (kind : SymbolClass) (symbol : Symbol)
deriving DecidableEq, Repr

def AlphabetError.message : AlphabetError → String
  | .cardinality kind expected found =>
    "incorrect cardinality; exactly " ++ decimal expected ++ " " ++ kind.describe expected ++
      " must be supplied, found " ++ decimal found
  | .arityFormat predicate arity =>
    "arity of predicate " ++ predicate.quoted ++ " is not a non-negative integer: '" ++ arity ++ "'"
  | .duplicate kind symbol => "duplicate " ++ kind.singular ++ ": " ++ symbol.quoted
  | .overlap first second symbol =>
    "found a duplicate in " ++ first.plural ++ " and " ++ second.plural ++ ": " ++ symbol.quoted
  | .forbidden kind symbol =>
    kind.singular ++ " " ++ symbol.quoted ++ " cannot be one of '(', ')' or ','"

/-- The first member of a list that is equal to an earlier one or already in `seen`. -/
def firstRepeat? (seen : List Symbol) : List Symbol → Option Symbol
  | [] => none
  | s :: rest => if s ∈ seen then some s else firstRepeat? (s :: seen) rest

/-- Each element with each later one, in lexicographic order of position. -/
def pairs {α : Type} : List α → List (α × α)
  | [] => []
  | a :: rest => rest.map (a, ·) ++ pairs rest

/-- The classes that may hold a symbol twice, in the order in which they are searched. -/
def SymbolClass.repeatable : List SymbolClass :=
  [.var, .constant, .predicate, .connective, .quantifier]

/-- The order in which classes are compared with each other and with punctuation. -/
def SymbolClass.compared : List SymbolClass :=
  [.var, .constant, .predicate, .quantifier, .connective, .equality]

def PredicateDecl.resolve (p : PredicateDecl) : Except AlphabetError Predicate :=
  match Text.count? (Text.trim p.arity.toList) with
  | some arity => .ok ⟨p.symbol, arity⟩
  | none => .error (.arityFormat p.symbol p.arity)

/-- The declared symbols, if the fixed classes have the right sizes and all arities are counts. -/
def Declaration.signature (d : Declaration) : Except AlphabetError Signature :=
  match d.equality with
  | [equality] =>
    match d.connectives with
    | [conj, disj, implies, iff, neg] =>
      match d.quantifiers with
      | [universal, existential] => do
        let predicates ← d.predicates.mapM PredicateDecl.resolve
        return {
          vars := d.vars
          constants := d.constants
          predicates
          equality
          connectives := { conj, disj, implies, iff, neg }
          quantifiers := { universal, existential }
        }
      | qs => .error (.cardinality .quantifier 2 qs.length)
    | cs => .error (.cardinality .connective 5 cs.length)
  | es => .error (.cardinality .equality 1 es.length)

namespace Signature

def duplicate? (s : Signature) : Option AlphabetError :=
  SymbolClass.repeatable.findSome? fun k => (firstRepeat? [] (s.members k)).map (.duplicate k)

def overlap? (s : Signature) : Option AlphabetError :=
  (pairs SymbolClass.compared).findSome? fun (k, l) =>
    ((s.members k).find? (· ∈ s.members l)).map (.overlap k l)

def forbidden? (s : Signature) : Option AlphabetError :=
  SymbolClass.compared.findSome? fun k =>
    ((s.members k).find? (· ∈ Symbol.punctuation)).map (.forbidden k)

/-- What keeps a signature from being an alphabet. -/
def clash? (s : Signature) : Option AlphabetError :=
  s.duplicate? <|> s.overlap? <|> s.forbidden?

end Signature

theorem firstRepeat?_eq_none_iff (seen xs : List Symbol) :
    firstRepeat? seen xs = none ↔ xs.Nodup ∧ ∀ s ∈ xs, s ∉ seen := by
  induction xs generalizing seen with
  | nil => simp [firstRepeat?]
  | cons x xs ih =>
    by_cases h : x ∈ seen
    · simp [firstRepeat?, h]
    · simp only [firstRepeat?, h, ↓reduceIte, ih, List.nodup_cons, List.mem_cons]
      grind

namespace Signature

theorem duplicate?_eq_none_iff (s : Signature) :
    s.duplicate? = none ↔ ∀ k ∈ SymbolClass.repeatable, (s.members k).Nodup := by
  simp [duplicate?, List.findSome?_eq_none_iff, firstRepeat?_eq_none_iff]

theorem overlap?_eq_none_iff (s : Signature) :
    s.overlap? = none ↔
      ∀ p ∈ pairs SymbolClass.compared, ∀ t ∈ s.members p.1, t ∉ s.members p.2 := by
  simp [overlap?, List.findSome?_eq_none_iff]

theorem forbidden?_eq_none_iff (s : Signature) :
    s.forbidden? = none ↔
      ∀ k ∈ SymbolClass.compared, ∀ t ∈ s.members k, t ∉ Symbol.punctuation := by
  simp [forbidden?, List.findSome?_eq_none_iff]

theorem clash?_eq_none_iff (s : Signature) :
    s.clash? = none ↔ s.duplicate? = none ∧ s.overlap? = none ∧ s.forbidden? = none := by
  cases hd : s.duplicate? <;> cases ho : s.overlap? <;> simp [clash?, hd, ho]

theorem mem_symbols_iff (s : Signature) (t : Symbol) :
    t ∈ s.symbols ↔ ∃ k, t ∈ s.members k := by
  constructor
  · intro h
    simp only [symbols, List.mem_append, List.mem_singleton] at h
    rcases h with ((((h | h) | h) | h) | h) | h
    · exact ⟨.var, h⟩
    · exact ⟨.constant, h⟩
    · exact ⟨.predicate, h⟩
    · exact ⟨.connective, h⟩
    · exact ⟨.quantifier, h⟩
    · exact ⟨.equality, by simp [members, h]⟩
  · rintro ⟨k, h⟩
    cases k <;> simp_all [symbols, members]

theorem nodup_symbols {s : Signature} (h : s.clash? = none) : s.symbols.Nodup := by
  obtain ⟨hd, ho, -⟩ := s.clash?_eq_none_iff.1 h
  rw [duplicate?_eq_none_iff] at hd
  rw [overlap?_eq_none_iff] at ho
  simp only [SymbolClass.repeatable, List.forall_mem_cons, members] at hd
  simp only [SymbolClass.compared, pairs, List.map_cons, List.map_nil, List.cons_append,
    List.nil_append, List.forall_mem_cons, members] at ho
  simp only [symbols, List.nodup_append, List.mem_append]
  grind

theorem unreserved_symbols {s : Signature} (h : s.clash? = none) :
    ∀ t ∈ s.symbols, t ∉ Symbol.punctuation := by
  obtain ⟨-, -, hf⟩ := s.clash?_eq_none_iff.1 h
  rw [forbidden?_eq_none_iff] at hf
  intro t ht
  obtain ⟨k, hk⟩ := (s.mem_symbols_iff t).1 ht
  exact hf k (by cases k <;> decide) t hk

end Signature

/-- The alphabet that a declaration describes. -/
def Declaration.validate (d : Declaration) : Except AlphabetError Alphabet := do
  let s ← d.signature
  match h : s.clash? with
  | none => .ok ⟨s, Signature.nodup_symbols h, Signature.unreserved_symbols h⟩
  | some e => .error e

end Formulary
