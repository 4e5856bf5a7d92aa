import Formulary.Alphabet.Validate
import Formulary.Formula.Lookahead
import Mathlib.Data.List.Nodup
import Mathlib.Data.List.Pairwise

/-!
Token classes of an alphabet are disjoint, so a token belongs to one class at most and the tokens
ahead call for one rule at most. The order in which rules are tried therefore does not matter.
-/

namespace Formulary

/-- If no two elements pass a test, the one that does is found in a list of all elements, wherever
it stands. -/
theorem find?_eq_some_iff_of_unique {α : Type} {p : α → Bool} {l : List α} (hl : ∀ x, x ∈ l)
    (hp : ∀ x y, p x = true → p y = true → x = y) (x : α) : l.find? p = some x ↔ p x = true := by
  constructor
  · exact List.find?_some
  · intro h
    obtain ⟨y, hy⟩ := Option.isSome_iff_exists.1 (List.find?_isSome.2 ⟨x, hl x, h⟩)
    rw [hy, hp y x (List.find?_some hy) h]

namespace Alphabet

/-- Punctuation and declared symbols, class by class. -/
theorem tokenClasses_perm (a : Alphabet) :
    (TokenClass.all.flatMap (·.members a.toSignature)).Perm
      (Symbol.punctuation ++ a.toSignature.symbols) := by
  rw [List.perm_iff_count]
  intro t
  simp [TokenClass.all, TokenClass.members, Symbol.punctuation, Signature.symbols,
    Connectives.toList, Connectives.binary, ConnectiveRole.all, ConnectiveRole.binary,
    Connectives.get, List.count_cons]
  omega

theorem tokenClasses_nodup (a : Alphabet) :
    (TokenClass.all.flatMap (·.members a.toSignature)).Nodup := by
  rw [a.tokenClasses_perm.nodup_iff, List.nodup_append]
  refine ⟨by decide, a.distinct, ?_⟩
  intro t ht u hu h
  subst h
  exact a.unreserved t hu ht

/-- No token is in two classes. -/
theorem tokenClass_unique (a : Alphabet) {k l : TokenClass} {t : Symbol}
    (hk : t ∈ k.members a.toSignature) (hl : t ∈ l.members a.toSignature) : k = l := by
  have hd := (List.nodup_flatMap.1 a.tokenClasses_nodup).2
  by_contra h
  have mem (j : TokenClass) : j ∈ TokenClass.all := by cases j <;> decide
  have : Std.Symm (Function.onFun List.Disjoint (TokenClass.members a.toSignature)) :=
    ⟨fun _ _ disjoint => List.disjoint_symm disjoint⟩
  exact hd.forall (mem k) (mem l) h hk hl

/-- A token is not the only token of another class. -/
theorem ne_of_members_eq (a : Alphabet) {k l : TokenClass} {t u : Symbol}
    (ht : t ∈ k.members a.toSignature) (hl : l.members a.toSignature = [u]) (h : k ≠ l) :
    t ≠ u := by
  rintro rfl
  have hu : t ∈ l.members a.toSignature := by simp [hl]
  exact h (a.tokenClass_unique ht hu)

/-- An alphabet with few symbols in each class. -/
def sample : Alphabet where
  vars := [⟨"x"⟩, ⟨"y"⟩]
  constants := [⟨"a"⟩]
  predicates := [⟨⟨"P"⟩, 1⟩, ⟨⟨"R"⟩, 2⟩]
  equality := ⟨"="⟩
  connectives := ⟨⟨"and"⟩, ⟨"or"⟩, ⟨"implies"⟩, ⟨"iff"⟩, ⟨"not"⟩⟩
  quantifiers := ⟨⟨"forall"⟩, ⟨"exists"⟩⟩
  distinct := by decide
  unreserved := by decide

end Alphabet

namespace TokenClass

theorem admits_some_iff (s : Signature) (k : TokenClass) (t : Symbol) :
    k.admits s (some t) = true ↔ t ∈ k.members s := by
  simp [admits]

/-- Only the end of the input is no token. -/
theorem exists_of_admits {s : Signature} {k : TokenClass} {o : Option Symbol}
    (h : k.admits s o = true) (hk : k ≠ .finish) : ∃ t ∈ k.members s, o = some t := by
  cases o with
  | none => simp [admits, hk] at h
  | some t => exact ⟨t, (admits_some_iff s k t).1 h, rfl⟩

/-- No two classes admit the same token, and only one the end of the input. -/
theorem admits_unique (a : Alphabet) {token : Option Symbol} {k l : TokenClass}
    (hk : k.admits a.toSignature token = true) (hl : l.admits a.toSignature token = true) :
    k = l := by
  cases token with
  | none =>
    rw [admits, decide_eq_true_eq] at hk hl
    rw [hk, hl]
  | some t =>
    rw [admits_some_iff] at hk hl
    exact a.tokenClass_unique hk hl

end TokenClass

namespace SymbolClass

/-- The token classes that make up a class of declared symbols. -/
def tokenClasses : SymbolClass → List TokenClass
  | .var => [.var]
  | .constant => [.constant]
  | .predicate => [.predicateSymbol]
  | .equality => [.equality]
  | .connective => [.binaryConnective, .negation]
  | .quantifier => [.quantifier]

theorem eq_of_mem_tokenClasses {k l : SymbolClass} {c : TokenClass} (hk : c ∈ k.tokenClasses)
    (hl : c ∈ l.tokenClasses) : k = l := by
  cases k <;> cases l <;> cases c <;> first | rfl | simp [tokenClasses] at hk hl

theorem mem_members_iff (s : Signature) (k : SymbolClass) (t : Symbol) :
    t ∈ s.members k ↔ ∃ c ∈ k.tokenClasses, c.admits s (some t) = true := by
  simp only [TokenClass.admits_some_iff]
  cases k with
  | connective =>
    simp [tokenClasses, Signature.members, TokenClass.members, Connectives.toList,
      Connectives.binary, ConnectiveRole.all, ConnectiveRole.binary, Connectives.get, or_assoc]
  | var | constant | predicate | equality | quantifier =>
    simp [tokenClasses, Signature.members, TokenClass.members]

end SymbolClass

/-- A token is classified by the token class that admits it. -/
theorem Alphabet.classOf?_eq_some_iff (a : Alphabet) (t : Symbol) (k : SymbolClass) :
    a.classOf? t = some k ↔ ∃ c ∈ k.tokenClasses, c.admits a.toSignature (some t) = true := by
  have hall (k : SymbolClass) : k ∈ SymbolClass.all := by cases k <;> decide
  rw [Signature.classOf?, find?_eq_some_iff_of_unique hall, decide_eq_true_eq,
    SymbolClass.mem_members_iff]
  intro k l hk hl
  rw [decide_eq_true_eq, SymbolClass.mem_members_iff] at hk hl
  obtain ⟨c, hc, hk⟩ := hk
  obtain ⟨d, hd, hl⟩ := hl
  obtain rfl := TokenClass.admits_unique a hk hl
  exact SymbolClass.eq_of_mem_tokenClasses hc hd

namespace FormulaRule

/-- The class of the first token that a rule calls for. -/
def opener : FormulaRule → TokenClass
  | .binary => .openParen
  | .equation => .openParen
  | .quantified => .quantifier
  | .negation => .negation
  | .atom => .predicateSymbol

theorem opener_ne_finish (r : FormulaRule) : r.opener ≠ .finish := by
  cases r <;> decide

theorem opener_admits {s : Signature} {ahead : List Symbol} {r : FormulaRule}
    (h : r.applies s ahead = true) : r.opener.admits s ahead[0]? = true := by
  cases r <;> simp_all [applies, lookahead, Peek.test, opener]

/-- A rule applies only where a token of its first class stands. -/
theorem exists_of_applies {s : Signature} {ahead : List Symbol} {r : FormulaRule}
    (h : r.applies s ahead = true) : ∃ t ∈ r.opener.members s, ∃ rest, ahead = t :: rest := by
  obtain ⟨t, ht, hahead⟩ := TokenClass.exists_of_admits (opener_admits h) r.opener_ne_finish
  cases ahead with
  | nil => simp at hahead
  | cons u rest =>
    simp only [List.getElem?_cons_zero, Option.some.injEq] at hahead
    exact ⟨t, ht, rest, by rw [hahead]⟩

theorem applies_binary_iff (s : Signature) (ahead : List Symbol) :
    applies s ahead .binary = true ↔
      ahead[0]? = some .openParen ∧ ahead[2]? ≠ some s.equality := by
  cases h : ahead[0]? <;> cases h2 : ahead[2]? <;>
    simp [applies, lookahead, Peek.test, TokenClass.admits, TokenClass.members, h, h2]

theorem applies_equation_iff (s : Signature) (ahead : List Symbol) :
    applies s ahead .equation = true ↔
      ahead[0]? = some .openParen ∧ ahead[2]? = some s.equality := by
  cases h : ahead[0]? <;> cases h2 : ahead[2]? <;>
    simp [applies, lookahead, Peek.test, TokenClass.admits, TokenClass.members, h, h2]

/-- The rules that look at one token only apply wherever a token of their class stands. -/
theorem applies_of_opener {s : Signature} {r : FormulaRule} {t : Symbol} {rest : List Symbol}
    (h : t ∈ r.opener.members s) (hr : r.opener ≠ .openParen) :
    applies s (t :: rest) r = true := by
  cases r <;> simp_all [opener, applies, lookahead, Peek.test, TokenClass.admits]

/-- No two rules apply to the same tokens: only the two with parentheses begin alike, and these
disagree about the token two ahead. -/
theorem applies_unique (a : Alphabet) {ahead : List Symbol} {r q : FormulaRule}
    (hr : r.applies a.toSignature ahead = true) (hq : q.applies a.toSignature ahead = true) :
    r = q := by
  obtain ⟨t, ht, rest, rfl⟩ := exists_of_applies hr
  obtain ⟨u, hu, rest', heq⟩ := exists_of_applies hq
  obtain ⟨rfl, rfl⟩ := List.cons.inj heq
  have hopener := a.tokenClass_unique ht hu
  cases r <;> cases q <;> try rfl
  case binary.equation =>
    exact absurd ((applies_equation_iff _ _).1 hq).2 ((applies_binary_iff _ _).1 hr).2
  case equation.binary =>
    exact absurd ((applies_equation_iff _ _).1 hr).2 ((applies_binary_iff _ _).1 hq).2
  all_goals simp [opener] at hopener

theorem mem_all (r : FormulaRule) : r ∈ all := by cases r <;> decide

/-- Rules can be tried in any order. -/
theorem find?_applies_of_perm (a : Alphabet) {table : List FormulaRule} (h : table.Perm all)
    (ahead : List Symbol) :
    table.find? (applies a.toSignature ahead) = select? a.toSignature ahead := by
  have hunique : ∀ r q : FormulaRule, r.applies a.toSignature ahead = true →
      q.applies a.toSignature ahead = true → r = q := fun _ _ => applies_unique a
  have htable (r : FormulaRule) : r ∈ table := h.mem_iff.2 r.mem_all
  refine Option.ext fun r => ?_
  rw [select?, find?_eq_some_iff_of_unique htable hunique,
    find?_eq_some_iff_of_unique mem_all hunique]

theorem select?_eq_some_iff (a : Alphabet) (ahead : List Symbol) (r : FormulaRule) :
    select? a.toSignature ahead = some r ↔ r.applies a.toSignature ahead = true :=
  find?_eq_some_iff_of_unique mem_all (fun _ _ => applies_unique a) r

/-- A rule applies wherever a token stands with which some rule begins. -/
theorem exists_select_of_opener {a : Alphabet} {ahead : List Symbol} {r : FormulaRule}
    (h : r.opener.admits a.toSignature ahead[0]? = true) :
    ∃ q, select? a.toSignature ahead = some q := by
  simp only [select?_eq_some_iff]
  obtain ⟨t, ht, hahead⟩ := TokenClass.exists_of_admits h r.opener_ne_finish
  by_cases hopen : r.opener = .openParen
  · obtain rfl : t = .openParen := by simpa [hopen, TokenClass.members] using ht
    by_cases hequality : ahead[2]? = some a.equality
    · exact ⟨.equation, (applies_equation_iff _ _).2 ⟨hahead, hequality⟩⟩
    · exact ⟨.binary, (applies_binary_iff _ _).2 ⟨hahead, hequality⟩⟩
  · obtain ⟨rest, rfl⟩ := List.head?_eq_some_iff.1 (List.head?_eq_getElem? ▸ hahead)
    exact ⟨r, applies_of_opener ht hopen⟩

/-- No rule applies just where no rule begins with the token ahead. -/
theorem select?_eq_none_iff (a : Alphabet) (ahead : List Symbol) :
    select? a.toSignature ahead = none ↔
      ∀ r : FormulaRule, r.opener.admits a.toSignature ahead[0]? = false := by
  constructor
  · intro h r
    by_contra hopener
    obtain ⟨q, hq⟩ := exists_select_of_opener (r := r) (by simpa using hopener)
    rw [h] at hq
    cases hq
  · intro h
    cases hr : select? a.toSignature ahead with
    | none => rfl
    | some r =>
      have hopener := opener_admits ((select?_eq_some_iff a ahead r).1 hr)
      rw [h r] at hopener
      cases hopener

theorem forall_opener_iff (a : Alphabet) (token : Option Symbol) :
    (∀ r : FormulaRule, r.opener.admits a.toSignature token = false) ↔
      token = none ∨ ∃ t, token = some t ∧ t ≠ .openParen ∧ t ∉ a.quantifiers.toList ∧
        t ≠ a.connectives.neg ∧ t ∉ a.predicateSymbols := by
  cases token with
  | none => simp [TokenClass.admits, opener_ne_finish]
  | some t =>
    simp only [← Bool.not_eq_true, TokenClass.admits_some_iff, reduceCtorEq, Option.some.injEq,
      exists_eq_left', false_or]
    constructor
    · intro h
      refine ⟨?_, h .quantified, ?_, h .atom⟩
      · simpa [opener, TokenClass.members] using h .binary
      · simpa [opener, TokenClass.members] using h .negation
    · rintro ⟨hopen, hquantifier, hneg, hpredicate⟩ r
      cases r with
      | binary | equation => simpa [opener, TokenClass.members] using hopen
      | quantified => exact hquantifier
      | negation => simpa [opener, TokenClass.members] using hneg
      | atom => exact hpredicate

end FormulaRule

/-- At most one class admits a token or the end of the input, and it settles how a token is
classified. So at most one rule applies at any place, rules can be tried in any order, and none
applies just where the token, if there is one, is none that a formula begins with. -/
theorem Alphabet.lookahead_exclusive (a : Alphabet) :
    (∀ (token : Option Symbol) (k l : TokenClass), k.admits a.toSignature token = true →
      l.admits a.toSignature token = true → k = l) ∧
    (∀ t k, a.classOf? t = some k ↔
      ∃ c ∈ k.tokenClasses, c.admits a.toSignature (some t) = true) ∧
    (∀ t, a.classOf? t = none ↔
      ∀ k : SymbolClass, ∀ c ∈ k.tokenClasses, c.admits a.toSignature (some t) = false) ∧
    ∀ (tokens : List Symbol) (position : Nat),
      (∀ r q : FormulaRule, r.applies a.toSignature (tokens.drop position) = true →
        q.applies a.toSignature (tokens.drop position) = true → r = q) ∧
      (∀ table : List FormulaRule, table.Perm FormulaRule.all →
        table.find? (FormulaRule.applies a.toSignature (tokens.drop position)) =
          FormulaRule.select? a.toSignature (tokens.drop position)) ∧
      (FormulaRule.select? a.toSignature (tokens.drop position) = none ↔
        tokens[position]? = none ∨ ∃ t, tokens[position]? = some t ∧ t ≠ .openParen ∧
          t ∉ a.quantifiers.toList ∧ t ≠ a.connectives.neg ∧ t ∉ a.predicateSymbols) := by
  refine ⟨fun token k l => TokenClass.admits_unique a, a.classOf?_eq_some_iff, ?_, ?_⟩
  · intro t
    simp only [Option.eq_none_iff_forall_ne_some, ne_eq, a.classOf?_eq_some_iff, not_exists,
      not_and, Bool.not_eq_true]
  · intro tokens position
    refine ⟨fun r q => FormulaRule.applies_unique a,
      fun table h => FormulaRule.find?_applies_of_perm a h _, ?_⟩
    have hfirst : (tokens.drop position)[0]? = tokens[position]? := by simp
    rw [FormulaRule.select?_eq_none_iff, hfirst, FormulaRule.forall_opener_iff]

/-- Behind the negation in `not (x = a)` the same rule is found when the rules are tried backwards.
-/
theorem Alphabet.lookahead_exclusive_sample :
    FormulaRule.all.reverse.Perm FormulaRule.all ∧
      FormulaRule.all.reverse.find? (FormulaRule.applies Alphabet.sample.toSignature
        (List.drop 1 [⟨"not"⟩, ⟨"("⟩, ⟨"x"⟩, ⟨"="⟩, ⟨"a"⟩, ⟨")"⟩])) = some .equation ∧
      Alphabet.sample.classOf? ⟨"not"⟩ = some .connective := by
  have hperm : FormulaRule.all.reverse.Perm FormulaRule.all := List.reverse_perm _
  obtain ⟨-, hclass, -, hrules⟩ := Alphabet.sample.lookahead_exclusive
  refine ⟨hperm, ?_, (hclass ⟨"not"⟩ .connective).2 ⟨.negation, by decide, by decide⟩⟩
  exact ((hrules _ 1).2.1 _ hperm).trans (by decide)

end Formulary
