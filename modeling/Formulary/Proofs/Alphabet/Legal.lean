import Formulary.Alphabet.Validate
import Formulary.Proofs.Structure.Arity
import Formulary.Proofs.Text.Count

/-!
Legal declarations. Validation accepts a declaration exactly if it breaks no rule, and the alphabet
it gives then is the one declared: nothing is added, lost or put elsewhere.
-/

namespace Formulary

/-- Declarations that break no rule. -/
structure Declaration.Legal (d : Declaration) : Prop where
  equality : d.equality.length = 1
  connectives : d.connectives.length = 5
  quantifiers : d.quantifiers.length = 2
  arities : ∀ p ∈ d.predicates, ∃ n, Text.Holds p.arity.toList n
  once : ∀ k, (d.members k).Nodup
  apart : ∀ k l, k ≠ l → ∀ t ∈ d.members k, t ∉ d.members l
  unreserved : ∀ k, ∀ t ∈ d.members k, t ∉ Symbol.punctuation

/-- Whether an alphabet has what a declaration declares, in the order of the declaration. -/
structure Declaration.Describes (d : Declaration) (a : Alphabet) : Prop where
  vars : a.vars = d.vars
  constants : a.constants = d.constants
  predicates : a.predicateSymbols = d.predicates.map PredicateDecl.symbol
  equality : d.equality = [a.equality]
  connectives : d.connectives = ConnectiveRole.all.map a.connectives.get
  quantifiers : d.quantifiers = QuantifierRole.all.map a.quantifiers.get
  arity : ∀ p ∈ d.predicates, ∃ n, Text.Holds p.arity.toList n ∧ a.arity? p.symbol = some n
  undeclared : ∀ t, t ∉ d.members .predicate → a.arity? t = none

/-! Arities. -/

/-- Whether a predicate symbol has the arity that its declaration has in writing. -/
def PredicateDecl.Denotes (p : PredicateDecl) (q : Predicate) : Prop :=
  q.symbol = p.symbol ∧ Text.Holds p.arity.toList q.arity

theorem PredicateDecl.resolve_eq_ok_iff (p : PredicateDecl) (q : Predicate) :
    p.resolve = .ok q ↔ p.Denotes q := by
  obtain ⟨symbol, arity⟩ := q
  rw [Denotes, ← Text.count?_trim_eq_some_iff, resolve]
  cases h : Text.count? (Text.trim p.arity.toList) with
  | none => simp
  | some n => simp [eq_comm]

theorem mapM_eq_ok_iff {α β ε : Type} (f : α → Except ε β) (xs : List α) (ys : List β) :
    xs.mapM f = .ok ys ↔ List.Forall₂ (fun x y => f x = .ok y) xs ys := by
  induction xs generalizing ys with
  | nil => cases ys <;> simp [pure, Except.pure]
  | cons x xs ih =>
    rw [List.mapM_cons, List.forall₂_cons_left_iff]
    simp only [← ih]
    cases f x with
    | error e => simp [bind, Except.bind]
    | ok y =>
      cases xs.mapM f with
      | error e => simp [bind, Except.bind]
      | ok zs => simp [bind, Except.bind, pure, Except.pure, eq_comm]

theorem exists_of_forall₂_of_mem {α β : Type} {r : α → β → Prop} {xs : List α} {ys : List β}
    (h : List.Forall₂ r xs ys) {x : α} (hx : x ∈ xs) : ∃ y ∈ ys, r x y := by
  induction h with
  | nil => simp at hx
  | cons hxy _ ih =>
    rcases List.mem_cons.1 hx with rfl | hx
    · exact ⟨_, List.mem_cons_self, hxy⟩
    · obtain ⟨y, hy, hr⟩ := ih hx
      exact ⟨y, List.mem_cons_of_mem _ hy, hr⟩

/-- A predicate symbol that is declared once has the arity of this declaration. -/
theorem Signature.arity?_eq_of_mem {s : Signature} (hs : s.predicateSymbols.Nodup) {q : Predicate}
    (h : q ∈ s.predicates) : s.arity? q.symbol = some q.arity := by
  unfold arity?
  cases hfind : s.predicates.find? (·.symbol = q.symbol) with
  | none => exact absurd (List.find?_eq_none.1 hfind q h) (by simp)
  | some r =>
    have hsymbol : r.symbol = q.symbol := by simpa using List.find?_some hfind
    have hr : r ∈ s.predicates := List.mem_of_find?_eq_some hfind
    rw [List.inj_on_of_nodup_map hs hr h hsymbol]
    rfl

/-! The stages of validation. -/

namespace Declaration

variable {d : Declaration} {s : Signature} {a : Alphabet}

/-- A signature is read off a declaration whose fixed classes have the right sizes and whose
arities are counts. -/
theorem signature_eq_ok_iff :
    d.signature = .ok s ↔
      s.vars = d.vars ∧ s.constants = d.constants ∧
        List.Forall₂ PredicateDecl.Denotes d.predicates s.predicates ∧ d.equality = [s.equality] ∧
        d.connectives = s.connectives.toList ∧ d.quantifiers = s.quantifiers.toList := by
  have hmap : ∀ ps, d.predicates.mapM PredicateDecl.resolve = .ok ps ↔
      List.Forall₂ PredicateDecl.Denotes d.predicates ps := by
    intro ps
    simp only [mapM_eq_ok_iff, PredicateDecl.resolve_eq_ok_iff]
  constructor
  · unfold signature
    split
    · next heq =>
      split
      · next hcs =>
        split
        · next hqs =>
          intro h
          cases hps : d.predicates.mapM PredicateDecl.resolve with
          | error e =>
            rw [hps] at h
            cases h
          | ok ps =>
            rw [hps] at h
            cases h
            exact ⟨rfl, rfl, (hmap ps).1 hps, heq, hcs, hqs⟩
        · exact fun h => by cases h
      · exact fun h => by cases h
    · exact fun h => by cases h
  · rintro ⟨hvars, hconstants, hpredicates, hequality, hconnectives, hquantifiers⟩
    rw [← hmap] at hpredicates
    simp only [Connectives.toList, ConnectiveRole.all, Quantifiers.toList, QuantifierRole.all,
      List.map_cons, List.map_nil] at hconnectives hquantifiers
    simp only [signature, hequality, hconnectives, hquantifiers, hpredicates, ← hvars,
      ← hconstants]
    rfl

theorem members_eq (h : d.signature = .ok s) (k : SymbolClass) : s.members k = d.members k := by
  obtain ⟨hvars, hconstants, hpredicates, hequality, hconnectives, hquantifiers⟩ :=
    signature_eq_ok_iff.1 h
  cases k with
  | var => exact hvars
  | constant => exact hconstants
  | predicate =>
    have hsymbols : List.Forall₂ (fun p q => q = PredicateDecl.symbol p) d.predicates
        (s.predicates.map Predicate.symbol) :=
      List.forall₂_map_right_iff.2 (hpredicates.imp fun _ _ hpq => hpq.1)
    have heq : List.Forall₂ Eq (d.predicates.map PredicateDecl.symbol)
        (s.predicates.map Predicate.symbol) :=
      List.forall₂_map_left_iff.2 (hsymbols.imp fun _ _ hpq => hpq.symm)
    exact (List.forall₂_eq_eq_eq ▸ heq : _ = _).symm
  | equality => exact hequality.symm
  | connective => exact hconnectives.symm
  | quantifier => exact hquantifiers.symm

theorem validate_eq_ok_iff :
    d.validate = .ok a ↔ d.signature = .ok a.toSignature ∧ a.clash? = none := by
  unfold validate
  cases hs : d.signature with
  | error e => simp [bind, Except.bind]
  | ok s =>
    simp only [bind, Except.bind, Except.ok.injEq]
    split
    · next hclash =>
      constructor
      · intro h
        cases h
        exact ⟨rfl, hclash⟩
      · rintro ⟨rfl, -⟩
        rfl
    · next e hclash =>
      constructor
      · intro h
        cases h
      · rintro ⟨rfl, hnone⟩
        cases hclash.symm.trans hnone

theorem validate_of_clash? {e : AlphabetError} (hs : d.signature = .ok s)
    (hc : s.clash? = some e) : d.validate = .error e := by
  simp only [validate, hs, bind, Except.bind]
  split
  · next h => cases hc.symm.trans h
  · next h =>
    cases hc.symm.trans h
    rfl

end Declaration

/-- Nothing clashes in a signature that has each symbol once and no punctuation. -/
theorem Signature.clash?_eq_none_iff_members (s : Signature) :
    s.clash? = none ↔
      (∀ k, (s.members k).Nodup) ∧ (∀ k l, k ≠ l → ∀ t ∈ s.members k, t ∉ s.members l) ∧
        ∀ k, ∀ t ∈ s.members k, t ∉ Symbol.punctuation := by
  rw [clash?_eq_none_iff, duplicate?_eq_none_iff, overlap?_eq_none_iff, forbidden?_eq_none_iff]
  have hcompared : ∀ k, k ∈ SymbolClass.compared := by
    intro k
    cases k <;> decide
  have hpairs : ∀ k l, k ≠ l →
      (k, l) ∈ pairs SymbolClass.compared ∨ (l, k) ∈ pairs SymbolClass.compared := by
    intro k l
    cases k <;> cases l <;> decide
  have hne : ∀ p ∈ pairs SymbolClass.compared, p.1 ≠ p.2 := by decide
  constructor
  · rintro ⟨honce, hapart, hfree⟩
    refine ⟨?_, ?_, fun k => hfree k (hcompared k)⟩
    · intro k
      by_cases hk : k = .equality
      · subst hk
        exact List.nodup_singleton _
      · exact honce k (by cases k <;> first | decide | exact absurd rfl hk)
    · intro k l hkl t hk hl
      rcases hpairs k l hkl with hp | hp
      · exact hapart _ hp t hk hl
      · exact hapart _ hp t hl hk
  · rintro ⟨honce, hapart, hfree⟩
    exact ⟨fun k _ => honce k, fun p hp => hapart _ _ (hne p hp), fun k _ => hfree k⟩

namespace Declaration

variable {d : Declaration}

/-- A signature can be read off every legal declaration. -/
theorem Legal.exists_signature (h : d.Legal) : ∃ s, d.signature = .ok s := by
  obtain ⟨equality, hequality⟩ := List.length_eq_one_iff.1 h.equality
  obtain ⟨conj, disj, implies, iff, neg, hconnectives⟩ :
      ∃ c₁ c₂ c₃ c₄ c₅, d.connectives = [c₁, c₂, c₃, c₄, c₅] := by
    have hlength := h.connectives
    match hcs : d.connectives, hlength with
    | [c₁, c₂, c₃, c₄, c₅], _ => exact ⟨c₁, c₂, c₃, c₄, c₅, rfl⟩
  obtain ⟨universal, existential, hquantifiers⟩ := List.length_eq_two.1 h.quantifiers
  choose! arity harity using h.arities
  let s : Signature := {
    vars := d.vars
    constants := d.constants
    predicates := d.predicates.map fun p => ⟨p.symbol, arity p⟩
    equality
    connectives := { conj, disj, implies, iff, neg }
    quantifiers := { universal, existential } }
  have hpredicates : List.Forall₂ PredicateDecl.Denotes d.predicates s.predicates := by
    rw [List.forall₂_map_right_iff, List.forall₂_same]
    exact fun p hp => ⟨rfl, harity p hp⟩
  exact ⟨s, signature_eq_ok_iff.2
    ⟨rfl, rfl, hpredicates, hequality, hconnectives, hquantifiers⟩⟩

theorem exists_alphabet_iff : (∃ a, d.validate = .ok a) ↔ d.Legal := by
  constructor
  · rintro ⟨a, h⟩
    obtain ⟨hs, hclash⟩ := validate_eq_ok_iff.1 h
    obtain ⟨honce, hapart, hfree⟩ := (a.clash?_eq_none_iff_members).1 hclash
    simp only [members_eq hs] at honce hapart hfree
    obtain ⟨-, -, hpredicates, hequality, hconnectives, hquantifiers⟩ := signature_eq_ok_iff.1 hs
    refine ⟨by rw [hequality]; rfl, by rw [hconnectives]; rfl, by rw [hquantifiers]; rfl, ?_,
      honce, hapart, hfree⟩
    intro p hp
    obtain ⟨q, -, hpq⟩ := exists_of_forall₂_of_mem hpredicates hp
    exact ⟨q.arity, hpq.2⟩
  · intro h
    obtain ⟨s, hs⟩ := h.exists_signature
    have hclash : s.clash? = none := by
      rw [s.clash?_eq_none_iff_members]
      simp only [members_eq hs]
      exact ⟨h.once, h.apart, h.unreserved⟩
    let a : Alphabet := ⟨s, Signature.nodup_symbols hclash, Signature.unreserved_symbols hclash⟩
    exact ⟨a, validate_eq_ok_iff.2 ⟨hs, hclash⟩⟩

theorem describes_of_validate {a : Alphabet} (h : d.validate = .ok a) : d.Describes a := by
  obtain ⟨hs, hclash⟩ := validate_eq_ok_iff.1 h
  obtain ⟨hvars, hconstants, hpredicates, hequality, hconnectives, hquantifiers⟩ :=
    signature_eq_ok_iff.1 hs
  have hsymbols : a.predicateSymbols = d.members .predicate := members_eq hs .predicate
  have hnodup := ((a.clash?_eq_none_iff_members).1 hclash).1 .predicate
  refine ⟨hvars, hconstants, hsymbols, hequality, hconnectives, hquantifiers, ?_, ?_⟩
  · intro p hp
    obtain ⟨q, hq, hsymbol, hholds⟩ := exists_of_forall₂_of_mem hpredicates hp
    exact ⟨q.arity, hholds, by rw [← hsymbol, Signature.arity?_eq_of_mem hnodup hq]⟩
  · intro t ht
    rw [Signature.arity?_eq_none_iff, hsymbols]
    exact ht

/-- Validation accepts the legal declarations and no others, and gives what they declare. -/
theorem validate_succeeds_iff (d : Declaration) :
    ((∃ a, d.validate = .ok a) ↔ d.Legal) ∧ ∀ a, d.validate = .ok a → d.Describes a :=
  ⟨exists_alphabet_iff, fun _ => describes_of_validate⟩

end Declaration

end Formulary
