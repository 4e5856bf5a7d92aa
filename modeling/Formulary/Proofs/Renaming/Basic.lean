import Formulary.Alphabet.Validate
import Formulary.Formula.Lookahead
import Formulary.Formula.Parser
import Mathlib.Data.List.Nodup
import Mathlib.Tactic.Simps.Basic

/-!
Renaming of symbols. A renaming spells symbols in another way, no two of them alike, and leaves
punctuation and the sentinel as they are. Whatever is made of symbols is renamed symbol by symbol.
-/

namespace Formulary

structure Renaming where
  toFun : String → String
  injective : Function.Injective toFun
  openParen : toFun "(" = "("
  closeParen : toFun ")" = ")"
  comma : toFun "," = ","
  sentinel : toFun "$" = "$"

namespace Renaming

def symbol (r : Renaming) (t : Symbol) : Symbol := ⟨r.toFun t.stored⟩

instance : CoeFun Renaming fun _ => Symbol → Symbol := ⟨symbol⟩

/-- The renaming that doubles every backslash. -/
def doubling : Renaming where
  toFun text := (Symbol.ofText text).stored
  injective text text' h :=
    calc
      text = (Symbol.ofText text).shown := (Symbol.shown_ofText text).symm
      _ = (Symbol.ofText text').shown := congrArg Symbol.shown (congrArg Symbol.mk h)
      _ = text' := Symbol.shown_ofText text'
  openParen := rfl
  closeParen := rfl
  comma := rfl
  sentinel := rfl

theorem doubling_apply (text : String) : doubling ⟨text⟩ = Symbol.ofText text := rfl

example : doubling ⟨"\\in"⟩ = ⟨"\\\\in"⟩ := by decide

variable (r : Renaming)

theorem symbol_injective : Function.Injective r.symbol := by
  intro s t h
  cases s
  cases t
  exact congrArg Symbol.mk (r.injective (congrArg Symbol.stored h))

@[simp] theorem symbol_inj {s t : Symbol} : r s = r t ↔ s = t := r.symbol_injective.eq_iff

@[simp] theorem symbol_openParen : r .openParen = .openParen := congrArg Symbol.mk r.openParen
@[simp] theorem symbol_closeParen : r .closeParen = .closeParen := congrArg Symbol.mk r.closeParen
@[simp] theorem symbol_comma : r .comma = .comma := congrArg Symbol.mk r.comma
@[simp] theorem symbol_sentinel : r .sentinel = .sentinel := congrArg Symbol.mk r.sentinel

theorem symbol_eq_iff {t u : Symbol} (h : r u = u) : r t = u ↔ t = u := by
  conv_lhs => rw [← h]
  exact r.symbol_inj

@[simp] theorem symbol_eq_openParen_iff {t : Symbol} : r t = .openParen ↔ t = .openParen :=
  r.symbol_eq_iff r.symbol_openParen

@[simp] theorem symbol_eq_closeParen_iff {t : Symbol} : r t = .closeParen ↔ t = .closeParen :=
  r.symbol_eq_iff r.symbol_closeParen

@[simp] theorem symbol_eq_comma_iff {t : Symbol} : r t = .comma ↔ t = .comma :=
  r.symbol_eq_iff r.symbol_comma

@[simp] theorem symbol_eq_sentinel_iff {t : Symbol} : r t = .sentinel ↔ t = .sentinel :=
  r.symbol_eq_iff r.symbol_sentinel

@[simp] theorem mem_map_symbol {t : Symbol} {ts : List Symbol} : r t ∈ ts.map r ↔ t ∈ ts :=
  List.mem_map_of_injective r.symbol_injective

theorem map_punctuation : Symbol.punctuation.map r = Symbol.punctuation := by
  simp [Symbol.punctuation]

@[simp] theorem mem_punctuation {t : Symbol} :
    r t ∈ Symbol.punctuation ↔ t ∈ Symbol.punctuation := by
  conv_lhs => rw [← r.map_punctuation]
  exact r.mem_map_symbol

end Renaming

def PredicateDecl.rename (r : Renaming) (p : PredicateDecl) : PredicateDecl :=
  { p with symbol := r p.symbol }

def Declaration.rename (r : Renaming) (d : Declaration) : Declaration where
  vars := d.vars.map r
  constants := d.constants.map r
  predicates := d.predicates.map (·.rename r)
  equality := d.equality.map r
  connectives := d.connectives.map r
  quantifiers := d.quantifiers.map r

@[simps]
def Predicate.rename (r : Renaming) (p : Predicate) : Predicate := { p with symbol := r p.symbol }

@[simps]
def Connectives.rename (r : Renaming) (c : Connectives) : Connectives where
  conj := r c.conj
  disj := r c.disj
  implies := r c.implies
  iff := r c.iff
  neg := r c.neg

@[simps]
def Quantifiers.rename (r : Renaming) (q : Quantifiers) : Quantifiers where
  universal := r q.universal
  existential := r q.existential

@[simps]
def Signature.rename (r : Renaming) (s : Signature) : Signature where
  vars := s.vars.map r
  constants := s.constants.map r
  predicates := s.predicates.map (·.rename r)
  equality := r s.equality
  connectives := s.connectives.rename r
  quantifiers := s.quantifiers.rename r

section Signatures

variable (r : Renaming)

@[simp] theorem Connectives.get_rename (c : Connectives) (role : ConnectiveRole) :
    (c.rename r).get role = r (c.get role) := by
  cases role <;> rfl

@[simp] theorem Connectives.toList_rename (c : Connectives) :
    (c.rename r).toList = c.toList.map r := by
  simp [toList]

@[simp] theorem Connectives.binary_rename (c : Connectives) :
    (c.rename r).binary = c.binary.map r := by
  simp [binary]

@[simp] theorem Quantifiers.get_rename (q : Quantifiers) (role : QuantifierRole) :
    (q.rename r).get role = r (q.get role) := by
  cases role <;> rfl

@[simp] theorem Quantifiers.toList_rename (q : Quantifiers) :
    (q.rename r).toList = q.toList.map r := by
  simp [toList]

variable (s : Signature)

@[simp] theorem Signature.predicateSymbols_rename :
    (s.rename r).predicateSymbols = s.predicateSymbols.map r := by
  simp [predicateSymbols]

@[simp] theorem Signature.members_rename (k : SymbolClass) :
    (s.rename r).members k = (s.members k).map r := by
  cases k <;> simp [members]

@[simp] theorem Signature.symbols_rename : (s.rename r).symbols = s.symbols.map r := by
  simp [symbols]

@[simp] theorem Signature.arity?_rename (t : Symbol) : (s.rename r).arity? (r t) = s.arity? t := by
  simp [arity?, List.find?_map, Function.comp_def]

@[simp] theorem TokenClass.members_rename (k : TokenClass) :
    k.members (s.rename r) = (k.members s).map r := by
  cases k <;> simp [members]

end Signatures

def Alphabet.rename (r : Renaming) (a : Alphabet) : Alphabet where
  toSignature := a.toSignature.rename r
  distinct := by
    rw [Signature.symbols_rename]
    exact a.distinct.map r.symbol_injective
  unreserved := by
    rw [Signature.symbols_rename, List.forall_mem_map]
    intro t ht
    rw [r.mem_punctuation]
    exact a.unreserved t ht

/-! Only the labels of a tree are renamed. -/

def NodeLabel.rename (r : Renaming) : NodeLabel → NodeLabel
  | .nonTerminal nt => .nonTerminal nt
  | .terminal t => .terminal (r t)

def Node.rename (r : Renaming) (n : Node) : Node := { n with label := n.label.rename r }

def ParseTree.rename (r : Renaming) (t : ParseTree) : ParseTree := ⟨t.nodes.map (·.rename r)⟩

/-! Errors keep all but their symbols. -/

def AlphabetError.rename (r : Renaming) : AlphabetError → AlphabetError
  | .cardinality kind expected found => .cardinality kind expected found
  | .arityFormat predicate arity => .arityFormat (r predicate) arity
  | .duplicate kind t => .duplicate kind (r t)
  | .overlap first second t => .overlap first second (r t)
  | .forbidden kind t => .forbidden kind (r t)

def ArityViolation.rename (r : Renaming) : ArityViolation → ArityViolation
  | .missingOpenParen => .missingOpenParen
  | .zeroArity => .zeroArity
  | .truncated => .truncated
  | .earlyClose argument => .earlyClose argument
  | .missingArgument argument => .missingArgument argument
  | .expectedComma argument found => .expectedComma argument (r found)
  | .expectedClose found => .expectedClose (r found)

def StructureError.rename (r : Renaming) : StructureError → StructureError
  | .balance opened closed => .balance opened closed
  | .arity predicate places position reason =>
    .arity (r predicate) places position (reason.rename r)
  | .sentinel position => .sentinel position

def ParseError.rename (r : Renaming) : ParseError → ParseError
  | .expected nt wanted found position => .expected nt wanted (r found) position
  | .unexpectedEnd nt wanted => .unexpectedEnd nt wanted
  | .trailingInput found position => .trailingInput (r found) position
  | .tooDeep limit position => .tooDeep limit position
  | .empty => .empty

end Formulary
