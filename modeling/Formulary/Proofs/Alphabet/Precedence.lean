import Formulary.Proofs.Alphabet.Legal

/-!
Rules in order. A declaration that breaks several rules is refused for the first of them, and the
error names the first symbol that breaks it.
-/

namespace Formulary

/-- Whether an element is the first in a list with a property. -/
def IsFirst {α : Type} (p : α → Prop) (xs : List α) (x : α) : Prop :=
  ∃ before after, xs = before ++ x :: after ∧ p x ∧ ∀ y ∈ before, ¬ p y

theorem IsFirst.mem {α : Type} {p : α → Prop} {xs : List α} {x : α} (h : IsFirst p xs x) :
    x ∈ xs := by
  obtain ⟨before, after, rfl, -⟩ := h
  exact List.mem_append_right before List.mem_cons_self

namespace Declaration

inductive Rule
  /-- A class has so many members. -/
  | size (kind : SymbolClass) (count : Nat)
  | arities
  /-- No member of a class is declared twice in it. -/
  | once (kind : SymbolClass)
  | apart (first second : SymbolClass)
  | unreserved (kind : SymbolClass)

/-- How a declaration breaks a rule: the error names what is wrong first. -/
inductive Rule.Broken (d : Declaration) : Rule → AlphabetError → Prop
  | size {k : SymbolClass} {count : Nat} (wrong : (d.members k).length ≠ count) :
      Broken d (.size k count) (.cardinality k count (d.members k).length)
  | arities {p : PredicateDecl}
      (first : IsFirst (fun p => ¬ ∃ n, Text.Holds p.arity.toList n) d.predicates p) :
      Broken d .arities (.arityFormat p.symbol p.arity)
  | once {k : SymbolClass} {t : Symbol} {before after : List Symbol}
      (members : d.members k = before ++ t :: after) (again : t ∈ before) (new : before.Nodup) :
      Broken d (.once k) (.duplicate k t)
  | apart {k l : SymbolClass} {t : Symbol} (first : IsFirst (· ∈ d.members l) (d.members k) t) :
      Broken d (.apart k l) (.overlap k l t)
  | unreserved {k : SymbolClass} {t : Symbol}
      (first : IsFirst (· ∈ Symbol.punctuation) (d.members k) t) :
      Broken d (.unreserved k) (.forbidden k t)

namespace Rule

def shape : List Rule :=
  [.size .equality 1, .size .connective 5, .size .quantifier 2, .arities]

/-- The order in which classes are compared. -/
def order : List SymbolClass :=
  [.var, .constant, .predicate, .quantifier, .connective, .equality]

def clashes : List Rule :=
  [.once .var, .once .constant, .once .predicate, .once .connective, .once .quantifier] ++
    (order.flatMap fun k => (order.filter fun l => order.idxOf k < order.idxOf l).map (.apart k)) ++
    order.map .unreserved

/-- All rules, in the order of precedence. -/
def all : List Rule := shape ++ clashes

end Rule

end Declaration

/-! Finding what breaks a rule. -/

theorem find?_eq_some_iff_isFirst {α : Type} {p : α → Prop} [DecidablePred p] {xs : List α}
    {x : α} : xs.find? (fun x => p x) = some x ↔ IsFirst p xs x := by
  rw [List.find?_eq_some_iff_append]
  simp only [decide_eq_true_eq, Bool.not_eq_true', decide_eq_false_iff_not, IsFirst]
  constructor
  · rintro ⟨hx, before, after, hxs, hbefore⟩
    exact ⟨before, after, hxs, hx, hbefore⟩
  · rintro ⟨before, after, hxs, hx, hbefore⟩
    exact ⟨hx, before, after, hxs, hbefore⟩

/-- Repetitions are found where they first occur. -/
theorem firstRepeat?_eq_some_iff {seen xs : List Symbol} {t : Symbol} :
    firstRepeat? seen xs = some t ↔
      ∃ before after, xs = before ++ t :: after ∧ (t ∈ seen ∨ t ∈ before) ∧ before.Nodup ∧
        ∀ s ∈ before, s ∉ seen := by
  induction xs generalizing seen with
  | nil => simp [firstRepeat?]
  | cons x xs ih =>
    by_cases hx : x ∈ seen
    · rw [firstRepeat?, if_pos hx]
      constructor
      · rintro ⟨⟩
        exact ⟨[], xs, rfl, .inl hx, .nil, by simp⟩
      · rintro ⟨before, after, hxs, -, -, hnew⟩
        cases before with
        | nil => rw [(List.cons.inj hxs).1]
        | cons y before =>
          obtain ⟨rfl, -⟩ := List.cons.inj hxs
          exact absurd hx (hnew x List.mem_cons_self)
    · rw [firstRepeat?, if_neg hx, ih]
      constructor
      · rintro ⟨before, after, rfl, hagain, hnodup, hnew⟩
        refine ⟨x :: before, after, rfl, ?_, ?_, ?_⟩
        · rw [List.mem_cons] at hagain
          rw [List.mem_cons]
          tauto
        · exact List.nodup_cons.2 ⟨fun hmem => hnew x hmem List.mem_cons_self, hnodup⟩
        · refine List.forall_mem_cons.2 ⟨hx, fun s hs hseen => ?_⟩
          exact hnew s hs (List.mem_cons_of_mem x hseen)
      · rintro ⟨before, after, hxs, hagain, hnodup, hnew⟩
        cases before with
        | nil =>
          obtain ⟨rfl, -⟩ := List.cons.inj hxs
          exact absurd hagain (by simpa using hx)
        | cons y before =>
          obtain ⟨rfl, rfl⟩ := List.cons.inj hxs
          obtain ⟨hnot, hnodup⟩ := List.nodup_cons.1 hnodup
          refine ⟨before, after, rfl, ?_, hnodup, fun s hs hseen => ?_⟩
          · rw [List.mem_cons] at hagain ⊢
            tauto
          · rcases List.mem_cons.1 hseen with rfl | hseen
            · exact hnot hs
            · exact hnew s (List.mem_cons_of_mem _ hs) hseen

/-- A list is gone through up to the first element that fails. -/
theorem mapM_eq_error_iff {α β ε : Type} {f : α → Except ε β} {xs : List α} {e : ε} :
    xs.mapM f = .error e ↔
      ∃ before x after, xs = before ++ x :: after ∧ f x = .error e ∧
        ∀ y ∈ before, ∃ b, f y = .ok b := by
  induction xs with
  | nil => simp [pure, Except.pure]
  | cons x xs ih =>
    rw [List.mapM_cons]
    constructor
    · intro h
      cases hx : f x with
      | error e' =>
        rw [hx] at h
        cases h
        exact ⟨[], x, xs, rfl, hx, by simp⟩
      | ok b =>
        have hxs : xs.mapM f = .error e := by
          rw [hx] at h
          cases hmap : xs.mapM f with
          | error e' =>
            rw [hmap] at h
            cases h
            rfl
          | ok ys =>
            rw [hmap] at h
            cases h
        obtain ⟨before, y, after, rfl, hy, hbefore⟩ := ih.1 hxs
        exact ⟨x :: before, y, after, rfl, hy, List.forall_mem_cons.2 ⟨⟨b, hx⟩, hbefore⟩⟩
    · rintro ⟨before, y, after, hxs, hy, hbefore⟩
      cases before with
      | nil =>
        obtain ⟨rfl, -⟩ := List.cons.inj hxs
        rw [hy]
        rfl
      | cons z before =>
        obtain ⟨rfl, rfl⟩ := List.cons.inj hxs
        obtain ⟨⟨b, hb⟩, hbefore⟩ := List.forall_mem_cons.1 hbefore
        rw [hb, ih.2 ⟨before, y, after, rfl, hy, hbefore⟩]
        rfl

theorem PredicateDecl.exists_resolve_iff (p : PredicateDecl) :
    (∃ q, p.resolve = .ok q) ↔ ∃ n, Text.Holds p.arity.toList n := by
  simp only [resolve_eq_ok_iff]
  constructor
  · rintro ⟨q, hq⟩
    exact ⟨q.arity, hq.2⟩
  · rintro ⟨n, hn⟩
    exact ⟨⟨p.symbol, n⟩, rfl, hn⟩

theorem PredicateDecl.resolve_eq_error_iff (p : PredicateDecl) (e : AlphabetError) :
    p.resolve = .error e ↔
      (¬ ∃ n, Text.Holds p.arity.toList n) ∧ .arityFormat p.symbol p.arity = e := by
  rw [← p.exists_resolve_iff, resolve]
  cases Text.count? (Text.trim p.arity.toList) <;> simp

namespace Declaration

variable {d : Declaration} {e : AlphabetError}

theorem resolve_predicates_eq_error_iff :
    d.predicates.mapM PredicateDecl.resolve = .error e ↔ Rule.arities.Broken d e := by
  simp only [mapM_eq_error_iff, PredicateDecl.resolve_eq_error_iff,
    PredicateDecl.exists_resolve_iff]
  constructor
  · rintro ⟨before, p, after, hps, ⟨hp, rfl⟩, hbefore⟩
    exact .arities ⟨before, after, hps, hp, fun q hq => not_not.2 (hbefore q hq)⟩
  · intro h
    cases h with
    | arities first =>
      obtain ⟨before, after, hps, hp, hbefore⟩ := first
      exact ⟨before, _, after, hps, ⟨hp, rfl⟩, fun q hq => not_not.1 (hbefore q hq)⟩

/-- The error for a rule, if it is broken. -/
def Rule.verdict? (d : Declaration) : Rule → Option AlphabetError
  | .size k count =>
    if (d.members k).length = count then none
    else some (.cardinality k count (d.members k).length)
  | .arities =>
    match d.predicates.mapM PredicateDecl.resolve with
    | .ok _ => none
    | .error e => some e
  | .once k => (firstRepeat? [] (d.members k)).map (.duplicate k)
  | .apart k l => ((d.members k).find? (· ∈ d.members l)).map (.overlap k l)
  | .unreserved k => ((d.members k).find? (· ∈ Symbol.punctuation)).map (.forbidden k)

theorem Rule.verdict?_eq_some_iff {r : Rule} : r.verdict? d = some e ↔ r.Broken d e := by
  cases r with
  | size k count =>
    rw [verdict?]
    constructor
    · intro h
      split_ifs at h with hlength
      cases h
      exact .size hlength
    · rintro ⟨hwrong⟩
      rw [if_neg hwrong]
  | arities =>
    rw [← resolve_predicates_eq_error_iff, verdict?]
    cases d.predicates.mapM PredicateDecl.resolve <;> simp
  | once k =>
    rw [verdict?, Option.map_eq_some_iff]
    simp only [firstRepeat?_eq_some_iff, List.not_mem_nil, false_or]
    constructor
    · rintro ⟨t, ⟨before, after, hmembers, hagain, hnew, -⟩, rfl⟩
      exact .once hmembers hagain hnew
    · intro h
      cases h with
      | once hmembers hagain hnew => exact ⟨_, ⟨_, _, hmembers, hagain, hnew, by simp⟩, rfl⟩
  | apart k l =>
    rw [verdict?, Option.map_eq_some_iff]
    simp only [find?_eq_some_iff_isFirst]
    constructor
    · rintro ⟨t, hfirst, rfl⟩
      exact .apart hfirst
    · intro h
      cases h with
      | apart hfirst => exact ⟨_, hfirst, rfl⟩
  | unreserved k =>
    rw [verdict?, Option.map_eq_some_iff]
    simp only [find?_eq_some_iff_isFirst]
    constructor
    · rintro ⟨t, hfirst, rfl⟩
      exact .unreserved hfirst
    · intro h
      cases h with
      | unreserved hfirst => exact ⟨_, hfirst, rfl⟩

/-! The order in which rules are tried. -/

theorem exists_of_length_eq_five {α : Type} {xs : List α} (h : xs.length = 5) :
    ∃ a b c d e, xs = [a, b, c, d, e] :=
  match xs, h with
  | [a, b, c, d, e], _ => ⟨a, b, c, d, e, rfl⟩

/-- No signature is read off a declaration that breaks a rule about its shape. -/
theorem signature_eq_error_iff :
    d.signature = .error e ↔ Rule.shape.findSome? (Rule.verdict? d) = some e := by
  simp only [Rule.shape, List.findSome?_cons, List.findSome?_nil]
  by_cases hequality : (d.members .equality).length = 1
  · obtain ⟨equality, heq⟩ := List.length_eq_one_iff.1 hequality
    have heq : d.equality = [equality] := heq
    by_cases hconnectives : (d.members .connective).length = 5
    · obtain ⟨conj, disj, implies, iff, neg, hcs⟩ := exists_of_length_eq_five hconnectives
      have hcs : d.connectives = [conj, disj, implies, iff, neg] := hcs
      by_cases hquantifiers : (d.members .quantifier).length = 2
      · obtain ⟨universal, existential, hqs⟩ := List.length_eq_two.1 hquantifiers
        have hqs : d.quantifiers = [universal, existential] := hqs
        simp only [Rule.verdict?, hequality, hconnectives, hquantifiers, ↓reduceIte, signature,
          heq, hcs, hqs]
        cases d.predicates.mapM PredicateDecl.resolve <;>
          simp [bind, Except.bind, pure, Except.pure]
      · simp only [Rule.verdict?, hequality, hconnectives, hquantifiers, ↓reduceIte, signature,
          heq, hcs]
        split
        · next hqs => exact absurd (congrArg List.length hqs) hquantifiers
        · simp [members]
    · simp only [Rule.verdict?, hequality, hconnectives, ↓reduceIte, signature, heq]
      split
      · next hcs => exact absurd (congrArg List.length hcs) hconnectives
      · simp [members]
  · simp only [Rule.verdict?, hequality, ↓reduceIte, signature]
    split
    · next heq => exact absurd (congrArg List.length heq) hequality
    · simp [members]

/-- Where a signature can be read off, the other rules are tried on its members. -/
theorem clash?_eq_findSome? {s : Signature} (h : d.signature = .ok s) :
    s.clash? = Rule.clashes.findSome? (Rule.verdict? d) := by
  have hclashes : Rule.clashes = SymbolClass.repeatable.map .once ++
      ((pairs SymbolClass.compared).map fun p => .apart p.1 p.2) ++
      SymbolClass.compared.map .unreserved := rfl
  simp only [hclashes, List.findSome?_append, List.findSome?_map, Function.comp_def,
    Rule.verdict?, Signature.clash?, Signature.duplicate?, Signature.overlap?,
    Signature.forbidden?, members_eq h, Option.orElse_eq_orElse, Option.orElse_eq_or,
    Option.or_assoc]

/-- The error of a declaration is that of the first rule for which there is one. -/
theorem validate_eq_error_iff_findSome? :
    d.validate = .error e ↔ Rule.all.findSome? (Rule.verdict? d) = some e := by
  rw [Rule.all, List.findSome?_append]
  cases hs : d.signature with
  | error e' =>
    rw [signature_eq_error_iff.1 hs]
    simp [validate, hs, bind, Except.bind]
  | ok s =>
    have hshape : Rule.shape.findSome? (Rule.verdict? d) = none := by
      by_contra hsome
      obtain ⟨e', he'⟩ := Option.ne_none_iff_exists'.1 hsome
      cases hs.symm.trans (signature_eq_error_iff.2 he')
    rw [hshape, Option.none_or, ← clash?_eq_findSome? hs]
    constructor
    · intro h
      cases hc : s.clash? with
      | none =>
        let a : Alphabet := ⟨s, Signature.nodup_symbols hc, Signature.unreserved_symbols hc⟩
        have hok : d.validate = .ok a := validate_eq_ok_iff.2 ⟨hs, hc⟩
        cases h.symm.trans hok
      | some e' => rw [Except.error.inj (h.symm.trans (validate_of_clash? hs hc))]
    · exact validate_of_clash? hs

/-- Tries all rules first, and takes the classes of fixed size apart only then. There a fallback
stands for the error about a class of another size. -/
def assemble (fallback : SymbolClass → List Symbol → AlphabetError) (d : Declaration) :
    Except AlphabetError Signature :=
  match Rule.all.findSome? (Rule.verdict? d) with
  | some e => .error e
  | none => do
    let predicates ← d.predicates.mapM PredicateDecl.resolve
    let equality ← match d.equality with
      | [equality] => .ok equality
      | es => .error (fallback .equality es)
    let connectives ← match d.connectives with
      | [conj, disj, implies, iff, neg] => .ok { conj, disj, implies, iff, neg }
      | cs => .error (fallback .connective cs)
    let quantifiers ← match d.quantifiers with
      | [universal, existential] => .ok { universal, existential }
      | qs => .error (fallback .quantifier qs)
    return {
      vars := d.vars
      constants := d.constants
      predicates, equality, connectives, quantifiers
    }

theorem assemble_eq (fallback : SymbolClass → List Symbol → AlphabetError) (d : Declaration) :
    d.assemble fallback = d.validate.map Alphabet.toSignature := by
  unfold assemble
  cases h : d.validate with
  | error e =>
    rw [validate_eq_error_iff_findSome?.1 h]
    rfl
  | ok a =>
    have hnone : Rule.all.findSome? (Rule.verdict? d) = none := by
      by_contra hsome
      obtain ⟨e, he⟩ := Option.ne_none_iff_exists'.1 hsome
      cases h.symm.trans (validate_eq_error_iff_findSome?.2 he)
    rw [hnone]
    obtain ⟨hs, -⟩ := validate_eq_ok_iff.1 h
    obtain ⟨hvars, hconstants, hpredicates, hequality, hconnectives, hquantifiers⟩ :=
      signature_eq_ok_iff.1 hs
    have hresolve : d.predicates.mapM PredicateDecl.resolve = .ok a.predicates := by
      rw [mapM_eq_ok_iff]
      exact hpredicates.imp fun p q => (p.resolve_eq_ok_iff q).2
    simp only [Connectives.toList, ConnectiveRole.all, Quantifiers.toList, QuantifierRole.all,
      List.map_cons, List.map_nil] at hconnectives hquantifiers
    simp only [hresolve, hequality, hconnectives, hquantifiers, ← hvars, ← hconstants]
    rfl

/-- The error of a refused declaration is that of the first rule it breaks, about the first symbol
that breaks this rule; and after the rules nothing is left to go wrong. -/
theorem validate_first_broken (d : Declaration) :
    (∀ e, d.validate = .error e ↔
      ∃ r, IsFirst (fun r => ∃ e', r.Broken d e') Rule.all r ∧ r.Broken d e) ∧
    ∀ fallback, d.assemble fallback = d.validate.map Alphabet.toSignature := by
  refine ⟨fun e => ?_, fun fallback => d.assemble_eq fallback⟩
  have hnone (r : Rule) : r.verdict? d = none ↔ ¬ ∃ e', r.Broken d e' := by
    simp only [← Rule.verdict?_eq_some_iff, ← Option.ne_none_iff_exists', not_not]
  rw [validate_eq_error_iff_findSome?, List.findSome?_eq_some_iff]
  constructor
  · rintro ⟨before, r, after, hall, hr, hbefore⟩
    have hbroken := Rule.verdict?_eq_some_iff.1 hr
    exact ⟨r, ⟨before, after, hall, ⟨e, hbroken⟩, fun r' hr' => (hnone r').1 (hbefore r' hr')⟩,
      hbroken⟩
  · rintro ⟨r, ⟨before, after, hall, -, hbefore⟩, hbroken⟩
    exact ⟨before, r, after, hall, Rule.verdict?_eq_some_iff.2 hbroken,
      fun r' hr' => (hnone r').2 (hbefore r' hr')⟩

end Declaration

end Formulary
