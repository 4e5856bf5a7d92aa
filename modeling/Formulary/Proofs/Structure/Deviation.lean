import Formulary.Formula.Structure
import Mathlib.Data.List.Basic

/-!
Argument lists, token by token. Behind a predicate symbol stand a parenthesis, then arguments and
commas by turns, and a parenthesis behind the last argument. The check of arities finds the first
predicate symbol whose tokens deviate from this, and tells where they first do.
-/

namespace Formulary

open Formulary.Symbol

/-- Whether the tokens behind a predicate symbol are as many arguments as it has places, in
parentheses and with commas between them. -/
structure Applies (tokens : List Symbol) (start arity : Nat) : Prop where
  places : 1 ≤ arity
  opened : tokens[start + 1]? = some openParen
  argument : ∀ k, 1 ≤ k → k ≤ arity →
    ∃ t, tokens[start + 2 * k]? = some t ∧ t ≠ closeParen ∧ t ≠ comma
  between : ∀ k, 1 ≤ k → k < arity → tokens[start + (2 * k + 1)]? = some comma
  closed : tokens[start + (2 * arity + 1)]? = some closeParen

/-- What is wrong with the tokens behind a predicate symbol at an offset from it. Argument `k` has
the offset `2 * k`, and what parts it from the next one stands right behind it. -/
inductive Deviates (tokens : List Symbol) (start arity offset : Nat) : ArityViolation → Prop
  | ends (least : 1 ≤ offset) (most : offset ≤ 2 * arity + 1)
      (found : tokens[start + offset]? = none) : Deviates tokens start arity offset .truncated
  | unopened {t : Symbol} (place : offset = 1) (found : tokens[start + offset]? = some t)
      (wrong : t ≠ openParen) : Deviates tokens start arity offset .missingOpenParen
  | placeless (place : offset = 1) (found : tokens[start + offset]? = some openParen)
      (none : arity = 0) : Deviates tokens start arity offset .zeroArity
  | noArgument {k : Nat} (place : offset = 2 * k) (least : 1 ≤ k) (most : k ≤ arity)
      (found : tokens[start + offset]? = some closeParen) :
      Deviates tokens start arity offset (.earlyClose k)
  | skipped {k : Nat} (place : offset = 2 * k) (least : 1 ≤ k) (most : k ≤ arity)
      (found : tokens[start + offset]? = some comma) :
      Deviates tokens start arity offset (.missingArgument k)
  | noMore {k : Nat} (place : offset = 2 * k + 1) (least : 1 ≤ k) (more : k < arity)
      (found : tokens[start + offset]? = some closeParen) :
      Deviates tokens start arity offset (.earlyClose (k + 1))
  | unparted {k : Nat} {t : Symbol} (place : offset = 2 * k + 1) (least : 1 ≤ k)
      (more : k < arity) (found : tokens[start + offset]? = some t)
      (wrong : t ≠ comma ∧ t ≠ closeParen) :
      Deviates tokens start arity offset (.expectedComma k t)
  | unclosed {t : Symbol} (place : offset = 2 * arity + 1) (places : 1 ≤ arity)
      (found : tokens[start + offset]? = some t) (wrong : t ≠ closeParen) :
      Deviates tokens start arity offset (.expectedClose t)

variable {tokens rest : List Symbol} {start arity offset k : Nat} {reason : ArityViolation}

namespace Deviates

theorem unique {reason' : ArityViolation} (h : Deviates tokens start arity offset reason)
    (h' : Deviates tokens start arity offset reason') : reason = reason' := by
  have hcomma : comma ≠ closeParen := by decide
  cases h <;> cases h' <;> grind

theorem bounds (h : Deviates tokens start arity offset reason) :
    1 ≤ offset ∧ offset ≤ 2 * arity + 1 := by
  cases h <;> omega

end Deviates

/-- As many tokens follow as an argument list needs. -/
theorem Applies.exists_token (h : Applies tokens start arity) (hleast : 1 ≤ offset)
    (hmost : offset ≤ 2 * arity + 1) : ∃ t, tokens[start + offset]? = some t := by
  obtain ⟨k, rfl | rfl⟩ : ∃ k, offset = 2 * k ∨ offset = 2 * k + 1 := ⟨offset / 2, by omega⟩
  · obtain ⟨t, ht, -⟩ := h.argument k (by omega) (by omega)
    exact ⟨t, ht⟩
  · rcases Nat.eq_zero_or_pos k with rfl | hk
    · exact ⟨openParen, h.opened⟩
    · rcases Nat.lt_or_ge k arity with hlt | hge
      · exact ⟨comma, h.between k hk hlt⟩
      · obtain rfl : k = arity := by omega
        exact ⟨closeParen, h.closed⟩

theorem Applies.not_deviates (h : Applies tokens start arity) (offset : Nat)
    (reason : ArityViolation) : ¬ Deviates tokens start arity offset reason := by
  intro hdeviates
  have hcomma : comma ≠ closeParen := by decide
  cases hdeviates with
  | ends least most found =>
    obtain ⟨t, ht⟩ := h.exists_token least most
    cases ht.symm.trans found
  | unopened place found wrong =>
    subst place
    exact wrong (Option.some.inj (found.symm.trans h.opened))
  | placeless place found none =>
    have := h.places
    omega
  | noArgument place least most found =>
    subst place
    obtain ⟨t, ht, hne, -⟩ := h.argument _ least most
    exact hne (Option.some.inj (ht.symm.trans found))
  | skipped place least most found =>
    subst place
    obtain ⟨t, ht, -, hne⟩ := h.argument _ least most
    exact hne (Option.some.inj (ht.symm.trans found))
  | noMore place least more found =>
    subst place
    exact hcomma (Option.some.inj ((h.between _ least more).symm.trans found))
  | unparted place least more found wrong =>
    subst place
    exact wrong.1 (Option.some.inj (found.symm.trans (h.between _ least more)))
  | unclosed place places found wrong =>
    subst place
    exact wrong (Option.some.inj (found.symm.trans h.closed))

/-- An argument list is one in which no token deviates. -/
theorem applies_iff :
    Applies tokens start arity ↔
      ∀ offset reason, ¬ Deviates tokens start arity offset reason := by
  refine ⟨Applies.not_deviates, fun h => ?_⟩
  have htoken (offset : Nat) (hleast : 1 ≤ offset) (hmost : offset ≤ 2 * arity + 1) :
      ∃ t, tokens[start + offset]? = some t :=
    Option.ne_none_iff_exists'.1 fun hnone => h _ _ (.ends hleast hmost hnone)
  have hopened : tokens[start + 1]? = some openParen := by
    obtain ⟨t, ht⟩ := htoken 1 (Nat.le_refl 1) (by omega)
    by_cases hne : t = openParen
    · rw [ht, hne]
    · exact absurd (.unopened rfl ht hne) (h _ _)
  have hplaces : 1 ≤ arity := by
    by_contra hzero
    exact h _ _ (.placeless rfl hopened (by omega))
  refine ⟨hplaces, hopened, fun k hleast hmost => ?_, fun k hleast hmore => ?_, ?_⟩
  · obtain ⟨t, ht⟩ := htoken (2 * k) (by omega) (by omega)
    refine ⟨t, ht, ?_, ?_⟩
    · rintro rfl
      exact h _ _ (.noArgument rfl hleast hmost ht)
    · rintro rfl
      exact h _ _ (.skipped rfl hleast hmost ht)
  · obtain ⟨t, ht⟩ := htoken (2 * k + 1) (by omega) (by omega)
    by_cases hclose : t = closeParen
    · exact absurd (.noMore rfl hleast hmore (hclose ▸ ht)) (h _ _)
    · by_cases hne : t = comma
      · rw [ht, hne]
      · exact absurd (.unparted rfl hleast hmore ht ⟨hne, hclose⟩) (h _ _)
  · obtain ⟨t, ht⟩ := htoken (2 * arity + 1) (by omega) (by omega)
    by_cases hne : t = closeParen
    · rw [ht, hne]
    · exact absurd (.unclosed rfl hplaces ht hne) (h _ _)

/-! The first fault of all. -/

section

variable {ε : Type} {fault : Nat → ε → Prop} {outcome : Except ε Unit} {e : ε} {n : Nat}

/-- Whether an outcome is the first fault from a place on, or tells that there is none. -/
def First (fault : Nat → ε → Prop) (n : Nat) : Except ε Unit → Prop
  | .ok () => ∀ i, n ≤ i → ∀ e, ¬ fault i e
  | .error e => ∃ i, n ≤ i ∧ fault i e ∧ ∀ j, n ≤ j → j < i → ∀ e', ¬ fault j e'

theorem First.here (h : fault n e) : First fault n (.error e) :=
  ⟨n, Nat.le_refl n, h, fun _ hle hlt => absurd hle (Nat.not_le_of_lt hlt)⟩

theorem First.later (h : First fault (n + 1) outcome) (hclear : ∀ e, ¬ fault n e) :
    First fault n outcome := by
  have hstep {i : Nat} (hle : n ≤ i) (hlater : n + 1 ≤ i → ∀ e, ¬ fault i e) :
      ∀ e, ¬ fault i e := by
    rcases Nat.eq_or_lt_of_le hle with rfl | hlt
    · exact hclear
    · exact hlater hlt
  cases outcome with
  | ok _ => exact fun i hle => hstep hle (h i)
  | error e =>
    obtain ⟨i, hle, hfault, hfirst⟩ := h
    refine ⟨i, Nat.le_of_succ_le hle, hfault, fun j hlej hlt => hstep hlej fun hlater => ?_⟩
    exact hfirst j hlater hlt

theorem First.eq_ok_iff (h : First fault 0 outcome) :
    outcome = .ok () ↔ ∀ i e, ¬ fault i e := by
  constructor
  · rintro rfl
    exact fun i => h i (Nat.zero_le i)
  · intro hclear
    cases outcome with
    | ok _ => rfl
    | error e =>
      obtain ⟨i, -, hfault, -⟩ := h
      exact absurd hfault (hclear i e)

/-- Where a place has one fault at most, so has everything at first. -/
theorem First.eq_error_iff (h : First fault 0 outcome)
    (hunique : ∀ i e e', fault i e → fault i e' → e = e') :
    outcome = .error e ↔ ∃ i, fault i e ∧ ∀ j < i, ∀ e', ¬ fault j e' := by
  constructor
  · rintro rfl
    obtain ⟨i, -, hfault, hfirst⟩ := h
    exact ⟨i, hfault, fun j => hfirst j (Nat.zero_le j)⟩
  · rintro ⟨i, hfault, hfirst⟩
    cases outcome with
    | ok _ => exact absurd hfault (h i (Nat.zero_le i) e)
    | error e' =>
      obtain ⟨i', -, hfault', hfirst'⟩ := h
      rcases Nat.lt_trichotomy i i' with hlt | rfl | hlt
      · exact absurd hfault (hfirst' i (Nat.zero_le i) hlt e)
      · rw [hunique i e e' hfault hfault']
      · exact absurd hfault' (hfirst i' hlt e')

end

/-! Argument lists. -/

theorem getElem?_of_drop {i : Nat} (h : tokens.drop i = rest) : tokens[i]? = rest.head? := by
  rw [← h, List.head?_drop]

theorem drop_succ_of_drop {i : Nat} (h : tokens.drop i = rest) :
    tokens.drop (i + 1) = rest.tail := by
  rw [← h, List.tail_drop]

section

variable {t : Symbol}

theorem not_deviates_argument (ht : tokens[start + 2 * k]? = some t)
    (hclose : t ≠ closeParen) (hcomma : t ≠ comma) :
    ∀ reason, ¬ Deviates tokens start arity (2 * k) reason := by
  intro reason h
  cases h <;> grind

theorem not_deviates_between (hk : 1 ≤ k) (hmore : k < arity)
    (ht : tokens[start + (2 * k + 1)]? = some comma) :
    ∀ reason, ¬ Deviates tokens start arity (2 * k + 1) reason := by
  have hne : comma ≠ closeParen := by decide
  intro reason h
  cases h <;> grind

theorem not_deviates_closed (hplaces : 1 ≤ arity)
    (ht : tokens[start + (2 * arity + 1)]? = some closeParen) :
    ∀ reason, ¬ Deviates tokens start arity (2 * arity + 1) reason := by
  intro reason h
  cases h <;> grind

theorem not_deviates_opened (hplaces : arity ≠ 0) (ht : tokens[start + 1]? = some openParen) :
    ∀ reason, ¬ Deviates tokens start arity 1 reason := by
  intro reason h
  cases h <;> grind

end

/-- Reading arguments from one on stops at the first deviation. -/
theorem first_checkArguments (hleast : 1 ≤ k) (hmost : k ≤ arity)
    (h : tokens.drop (start + 2 * k) = rest) :
    First (Deviates tokens start arity) (2 * k) (checkArguments arity k rest) := by
  have hhead : tokens[start + 2 * k]? = rest.head? := getElem?_of_drop h
  have hnext : tokens[start + (2 * k + 1)]? = rest.tail.head? :=
    getElem?_of_drop (drop_succ_of_drop h)
  fun_induction checkArguments arity k rest with
  | case1 => exact First.here (.ends (by omega) (by omega) hhead)
  | case2 => exact First.here (.noArgument rfl hleast hmost hhead)
  | case3 => exact First.here (.skipped rfl hleast hmost hhead)
  | case4 k t hclose hcomma =>
    refine .later (First.here ?_) (not_deviates_argument hhead hclose hcomma)
    exact .ends (by omega) (by omega) hnext
  | case5 k t hclose hcomma rest hmore ih =>
    have hrest : tokens.drop (start + 2 * (k + 1)) = rest :=
      drop_succ_of_drop (drop_succ_of_drop h)
    refine .later (.later ?_ (not_deviates_between hleast hmore hnext))
      (not_deviates_argument hhead hclose hcomma)
    exact ih (by omega) hmore hrest (getElem?_of_drop hrest)
      (getElem?_of_drop (drop_succ_of_drop hrest))
  | case6 k t hclose hcomma rest hmore hne =>
    refine .later (First.here ?_) (not_deviates_argument hhead hclose hcomma)
    exact .noMore rfl hleast hmore hnext
  | case7 k t hclose hcomma separator rest hmore hne hne' =>
    refine .later (First.here ?_) (not_deviates_argument hhead hclose hcomma)
    exact .unparted rfl hleast hmore hnext ⟨hne, hne'⟩
  | case8 k t hclose hcomma rest hlast =>
    obtain rfl : k = arity := by omega
    refine .later (.later ?_ (not_deviates_closed hleast hnext))
      (not_deviates_argument hhead hclose hcomma)
    intro offset hle reason hdeviates
    have := hdeviates.bounds
    omega
  | case9 k t hclose hcomma separator rest hlast hne =>
    obtain rfl : k = arity := by omega
    refine .later (First.here ?_) (not_deviates_argument hhead hclose hcomma)
    exact .unclosed rfl hleast hnext hne

theorem first_checkOccurrence (h : tokens.drop (start + 1) = rest) :
    First (Deviates tokens start arity) 0 (checkOccurrence arity rest) := by
  have hhead : tokens[start + 1]? = rest.head? := getElem?_of_drop h
  refine .later ?_ fun _ hzero => absurd hzero.bounds.1 (by omega)
  cases rest with
  | nil => exact First.here (.ends (Nat.le_refl 1) (by omega) hhead)
  | cons t rest =>
    rw [checkOccurrence]
    split_ifs with hne hzero
    · exact First.here (.unopened rfl hhead hne)
    · exact First.here (.placeless rfl (not_not.1 hne ▸ hhead) hzero)
    · have hrest : tokens.drop (start + 2 * 1) = rest := drop_succ_of_drop h
      refine .later ?_ (not_deviates_opened hzero (not_not.1 hne ▸ hhead))
      exact first_checkArguments (Nat.le_refl 1) (Nat.one_le_iff_ne_zero.2 hzero) hrest

theorem checkOccurrence_eq_ok_iff (h : tokens.drop (start + 1) = rest) :
    checkOccurrence arity rest = .ok () ↔ Applies tokens start arity := by
  rw [(first_checkOccurrence h).eq_ok_iff, applies_iff]

theorem checkOccurrence_eq_error_iff (h : tokens.drop (start + 1) = rest) :
    checkOccurrence arity rest = .error reason ↔
      ∃ offset, Deviates tokens start arity offset reason ∧
        ∀ o < offset, ∀ reason', ¬ Deviates tokens start arity o reason' :=
  (first_checkOccurrence h).eq_error_iff fun _ _ _ => Deviates.unique

/-! Predicate symbols. -/

/-- Whether a predicate symbol stands at a position, and with how many places. -/
def Signature.Occurs (s : Signature) (tokens : List Symbol) (i : Nat) (z : Symbol)
    (arity : Nat) : Prop :=
  tokens[i]? = some z ∧ s.arity? z = some arity

/-- What the check of arities says about the predicate symbol at a position. -/
def Signature.Faulty (s : Signature) (tokens : List Symbol) (i : Nat) (e : StructureError) : Prop :=
  ∃ z arity reason, e = .arity z arity i reason ∧ s.Occurs tokens i z arity ∧
    checkOccurrence arity (tokens.drop (i + 1)) = .error reason

section

variable {s : Signature} {i arity' : Nat} {z z' : Symbol} {e e' : StructureError}

theorem Signature.Occurs.unique (h : s.Occurs tokens i z arity) (h' : s.Occurs tokens i z' arity') :
    z = z' ∧ arity = arity' := by
  obtain rfl : z = z' := Option.some.inj (h.1.symm.trans h'.1)
  exact ⟨rfl, Option.some.inj (h.2.symm.trans h'.2)⟩

theorem Signature.Faulty.unique (h : s.Faulty tokens i e) (h' : s.Faulty tokens i e') : e = e' := by
  obtain ⟨z, arity, reason, rfl, hoccurs, hreason⟩ := h
  obtain ⟨z', arity', reason', rfl, hoccurs', hreason'⟩ := h'
  obtain ⟨rfl, rfl⟩ := hoccurs.unique hoccurs'
  obtain rfl : reason = reason' := Except.error.inj (hreason.symm.trans hreason')
  rfl

theorem Signature.not_faulty_iff :
    (∀ e, ¬ s.Faulty tokens i e) ↔
      ∀ z arity, s.Occurs tokens i z arity → Applies tokens i arity := by
  constructor
  · intro h z arity hoccurs
    rw [← checkOccurrence_eq_ok_iff rfl]
    cases hcheck : checkOccurrence arity (tokens.drop (i + 1)) with
    | ok _ => rfl
    | error reason => exact absurd ⟨z, arity, reason, rfl, hoccurs, hcheck⟩ (h _)
  · rintro h _ ⟨z, arity, reason, rfl, hoccurs, hcheck⟩
    cases hcheck.symm.trans ((checkOccurrence_eq_ok_iff rfl).2 (h z arity hoccurs))

/-- Checking predicate symbols one by one stops at the first that is at fault. -/
theorem first_checkArityFrom (h : tokens.drop i = rest) :
    First (s.Faulty tokens) i (checkArityFrom s i rest) := by
  fun_induction checkArityFrom s i rest with
  | case1 i =>
    rintro j hle _ ⟨z, arity, reason, -, ⟨hz, -⟩, -⟩
    have hlength := List.drop_eq_nil_iff.1 h
    rw [List.getElem?_eq_none (by omega)] at hz
    cases hz
  | case2 i t rest harity ih =>
    refine .later (ih (drop_succ_of_drop h)) ?_
    rintro _ ⟨z, arity, reason, -, ⟨hz, hplaces⟩, -⟩
    obtain rfl : t = z := Option.some.inj ((getElem?_of_drop h).symm.trans hz)
    cases harity.symm.trans hplaces
  | case3 i t rest arity harity reason hcheck =>
    refine .here ⟨t, arity, reason, rfl, ⟨getElem?_of_drop h, harity⟩, ?_⟩
    rw [drop_succ_of_drop h]
    exact hcheck
  | case4 i t rest arity harity hcheck ih =>
    refine .later (ih (drop_succ_of_drop h)) ?_
    rintro _ ⟨z, arity', reason, -, hoccurs, hreason⟩
    obtain ⟨rfl, rfl⟩ := hoccurs.unique ⟨getElem?_of_drop h, harity⟩
    rw [drop_succ_of_drop h] at hreason
    cases hreason.symm.trans hcheck

end

/-- The check of arities passes if a right argument list follows every predicate symbol, and else
names the first predicate symbol where this is not so, for the first token there that deviates. -/
theorem checkArity_exact (s : Signature) (tokens : List Symbol) :
    (checkArity s tokens = .ok () ↔
      ∀ i z arity, s.Occurs tokens i z arity → Applies tokens i arity) ∧
    ∀ e, checkArity s tokens = .error e ↔
      ∃ i z arity reason offset, e = .arity z arity i reason ∧ s.Occurs tokens i z arity ∧
        ¬ Applies tokens i arity ∧
        (∀ j < i, ∀ y places, s.Occurs tokens j y places → Applies tokens j places) ∧
        Deviates tokens i arity offset reason ∧
        ∀ o < offset, ∀ reason', ¬ Deviates tokens i arity o reason' := by
  have hfirst : First (s.Faulty tokens) 0 (checkArity s tokens) := first_checkArityFrom rfl
  constructor
  · rw [hfirst.eq_ok_iff]
    exact forall_congr' fun i => Signature.not_faulty_iff
  · intro e
    rw [hfirst.eq_error_iff fun _ _ _ => Signature.Faulty.unique]
    constructor
    · rintro ⟨i, ⟨z, arity, reason, rfl, hoccurs, hreason⟩, hbefore⟩
      obtain ⟨offset, hdeviates, hleast⟩ := (checkOccurrence_eq_error_iff rfl).1 hreason
      exact ⟨i, z, arity, reason, offset, rfl, hoccurs,
        fun happlies => happlies.not_deviates _ _ hdeviates,
        fun j hlt => Signature.not_faulty_iff.1 (hbefore j hlt), hdeviates, hleast⟩
    · rintro ⟨i, z, arity, reason, offset, rfl, hoccurs, -, hbefore, hdeviates, hleast⟩
      have hreason := (checkOccurrence_eq_error_iff rfl).2 ⟨offset, hdeviates, hleast⟩
      exact ⟨i, ⟨z, arity, reason, rfl, hoccurs, hreason⟩,
        fun j hlt => Signature.not_faulty_iff.2 (hbefore j hlt)⟩

end Formulary
