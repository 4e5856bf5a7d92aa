import Formulary.Proofs.Parser.Complaints

/-!
Errors that never arise. The parser finds every token that the choice of a rule has seen already,
and behind the check of arities an argument list only fails at one of its arguments.
-/

namespace Formulary

/-! Argument lists that pass the check. -/

section

variable {s : Signature} {tokens rest args : List Symbol} {arity k start : Nat} {z v : Symbol}

theorem Signature.exists_arity (h : z ∈ s.predicateSymbols) : ∃ arity, s.arity? z = some arity := by
  apply Option.ne_none_iff_exists'.1
  rwa [ne_eq, s.arity?_eq_none_iff, not_not]

theorem checkArityFrom_tail {position : Nat} (h : checkArityFrom s position (z :: rest) = .ok ()) :
    checkArityFrom s (position + 1) rest = .ok () := by
  cases harity : s.arity? z with
  | none => rwa [checkArityFrom, harity] at h
  | some arity => exact ((checkArityFrom_cons_iff harity position rest).1 h).2

/-- Tokens that pass the check pass it from every place on. -/
theorem checkArityFrom_drop {position : Nat} (h : checkArityFrom s position tokens = .ok ())
    (n : Nat) : checkArityFrom s (position + n) (tokens.drop n) = .ok () := by
  induction n generalizing position tokens with
  | zero => exact h
  | succ n ih =>
    cases tokens with
    | nil => rfl
    | cons t tokens =>
      rw [List.drop_succ_cons, Nat.add_comm n, ← Nat.add_assoc]
      exact ih (checkArityFrom_tail h)

theorem checkOccurrence_of_checkArity (h : checkArity s tokens = .ok ())
    (hdrop : tokens.drop start = z :: rest) (harity : s.arity? z = some arity) :
    checkOccurrence arity rest = .ok () := by
  have hfrom := checkArityFrom_drop h start
  rw [hdrop] at hfrom
  exact ((checkArityFrom_cons_iff harity _ rest).1 hfrom).1

theorem head?_of_checkOccurrence (h : checkOccurrence arity rest = .ok ()) :
    rest.head? = some .openParen := by
  cases rest with
  | nil => cases h
  | cons t rest =>
    rw [checkOccurrence] at h
    split_ifs at h with ht
    rw [not_not.1 ht]
    rfl

theorem checkArguments_cons_comma
    (h : checkArguments arity k (v :: .comma :: rest) = .ok ()) :
    k < arity ∧ checkArguments arity (k + 1) rest = .ok () := by
  have hne : Symbol.comma ≠ .closeParen := by decide
  simp only [checkArguments, hne, ↓reduceIte] at h
  split_ifs at h with hclose hcomma hk
  exact ⟨hk, h⟩

/-- Behind an argument a comma or a closing parenthesis stands. -/
theorem head?_of_checkArguments (h : checkArguments arity k (v :: rest) = .ok ()) :
    rest.head? = some .comma ∨ rest.head? = some .closeParen := by
  cases rest with
  | nil =>
    simp only [checkArguments] at h
    split_ifs at h
  | cons t rest =>
    simp only [checkArguments] at h
    split_ifs at h with _ _ _ hcomma _ hclose
    · exact .inl (congrArg some hcomma)
    · exact .inr (congrArg some hclose)

/-- There are fewer arguments followed by a comma than there are places. -/
theorem checkArguments_listed (hk : k ≤ arity)
    (h : checkArguments arity k (listed args ++ rest) = .ok ()) :
    k + args.length ≤ arity ∧ checkArguments arity (k + args.length) rest = .ok () := by
  induction args generalizing k with
  | nil => exact ⟨hk, h⟩
  | cons v args ih =>
    obtain ⟨hlt, hrest⟩ := checkArguments_cons_comma h
    have hsum : k + 1 + args.length = k + (v :: args).length := by
      rw [List.length_cons]
      omega
    rw [← hsum]
    exact ih hlt hrest

theorem checkOccurrence_listed
    (h : checkOccurrence arity (.openParen :: (listed args ++ rest)) = .ok ()) :
    args.length + 1 ≤ arity ∧ checkArguments arity (args.length + 1) rest = .ok () := by
  rw [checkOccurrence] at h
  split_ifs at h with _ hzero
  rw [Nat.add_comm]
  exact checkArguments_listed (Nat.one_le_iff_ne_zero.2 hzero) h

end

/-! The wording of errors. -/

theorem Text.eq_nil_of_unescape {cs : List Char} (h : unescape cs = []) : cs = [] := by
  cases cs with
  | nil => rfl
  | cons c cs =>
    unfold unescape at h
    split at h
    · next heq => cases heq
    · cases h
    · cases h

/-- Only the backslash is shown in place of two characters. -/
theorem Text.eq_singleton_of_unescape {cs : List Char} {c : Char} (hc : c ≠ '\\')
    (h : unescape cs = [c]) : cs = [c] := by
  unfold unescape at h
  split at h
  · cases h
  · exact absurd (List.cons.inj h).1.symm hc
  · obtain ⟨rfl, hcs⟩ := List.cons.inj h
    rw [eq_nil_of_unescape hcs]

theorem Symbol.shown_eq_of_quoted {z u : Symbol} (h : z.quoted = u.quoted) : z.shown = u.shown := by
  have hchars := congrArg String.toList h
  simp only [quoted, String.toList_append, List.append_assoc] at hchars
  exact String.toList_inj.1 (List.append_cancel_right (List.append_cancel_left hchars))

theorem Symbol.eq_closeParen_of_quoted {z : Symbol} (h : z.quoted = closeParen.quoted) :
    z = closeParen := by
  have hshown : z.shown = ")" := shown_eq_of_quoted h
  have hchars : Text.unescape z.stored.toList = [')'] := String.ofList_injective hshown
  obtain ⟨stored⟩ := z
  have hstored := Text.eq_singleton_of_unescape (by decide) hchars
  rw [closeParen, Symbol.mk.injEq, ← String.toList_inj]
  exact hstored

/-- No complaint is worded like one about the equality symbol. -/
theorem Alphabet.equality_not_mem_complaints (a : Alphabet) :
    (.formula, a.equality.quoted) ∉ a.complaints := by
  intro h
  simp only [complaints, List.mem_cons, Prod.mk.injEq, reduceCtorEq, false_and, true_and,
    List.not_mem_nil, or_false] at h
  rcases h with h | h
  · have hlast := congrArg (fun t : String => t.toList.reverse.head?) h
    simp only [Symbol.quoted, String.toList_append, List.reverse_append] at hlast
    have hquote : some '\'' = some 'l' := hlast
    exact absurd hquote (by decide)
  · have hmem : a.equality ∈ a.symbols := by simp [Signature.symbols]
    refine a.unreserved _ hmem ?_
    rw [Symbol.eq_closeParen_of_quoted h]
    decide

variable {a : Alphabet} {limit : Nat} {tokens : List Symbol} {e : ParseError} {nt : NonTerminal}
  {wanted : String}

/-- Where something is missing, the parser has stopped with one of the errors that may arise. -/
theorem exists_stuck (h : parse a limit tokens = .error e) (he : e.missing? = some (nt, wanted)) :
    ∃ t : Scan, e = t.missing nt wanted ∧ t.rest <:+ tokens ∧
      (attempt a limit tokens).opened = t.cursor.opened ∧ Stuck a tokens t nt wanted := by
  have hne : tokens ≠ [] := by
    rintro rfl
    cases h
    cases he
  rw [parse, attempt_eq hne] at h
  rw [attempt_eq hne]
  have on : ({ rest := tokens } : Scan).On tokens := ⟨rfl, rfl, by simp [Scan.cursor]⟩
  have hsafe : Parser.Ends (Parser.formula a limit 0) { rest := tokens } _ _ :=
    Parser.safe_formula limit 0 _ on
  cases hrun : Parser.formula a limit 0 { rest := tokens } with
  | ok _ t =>
    rw [hrun] at h
    cases hrest : t.rest with
    | nil =>
      simp only [hrest] at h
      split_ifs at h
      cases h
      cases he
    | cons found rest =>
      simp only [hrest] at h
      cases h
      cases he
  | error e' t =>
    rw [hrun] at h
    obtain rfl : e' = e := Except.error.inj h
    rcases hsafe.of_error hrun with hnone | ⟨nt', wanted', rfl, hstuck⟩
    · rw [hnone] at he
      cases he
    · rw [t.missing?_missing, Option.some.injEq, Prod.mk.injEq] at he
      obtain ⟨rfl, rfl⟩ := he
      obtain ⟨read, hread, -⟩ := (Parser.advances_formula limit 0).of_error hrun
      exact ⟨t, rfl, ⟨read, hread.symm⟩, rfl, hstuck⟩

/-- Nothing but the absence of tokens is found empty. -/
theorem parse_eq_empty_iff : parse a limit tokens = .error .empty ↔ tokens = [] := by
  constructor
  · intro h
    by_contra hne
    rcases parse_cases a limit hne with ⟨e, s, hat, herror⟩ | ⟨φ, rest, -, -, hparse⟩
    · cases herror.symm.trans h
      exact hat
    · cases rest <;> cases hparse.symm.trans h
  · rintro rfl
    rfl

namespace Stuck

variable {t : Scan}

/-- Where a rule was chosen by a token, this token is not missing. -/
theorem reachable (h : Stuck a tokens t nt wanted) :
    nt ∉ [.quantifier, .constant, .predicateSymbol, .varList] ∧
      (nt, wanted) ≠ (.formula, a.equality.quoted) := by
  cases h with
  | outside complaint _ =>
    constructor
    · simp only [Alphabet.complaints, List.mem_cons, Prod.mk.injEq, List.not_mem_nil,
        or_false] at complaint
      rcases complaint with ⟨rfl, -⟩ | ⟨rfl, -⟩ | ⟨rfl, -⟩ | ⟨rfl, -⟩ | ⟨rfl, -⟩ <;> decide
    · intro heq
      exact a.equality_not_mem_complaints (heq ▸ complaint)
  | unopened => exact ⟨by decide, fun heq => by cases heq⟩
  | argument => exact ⟨by decide, fun heq => by cases heq⟩
  | unclosed => exact ⟨by decide, fun heq => by cases heq⟩

/-- The parentheses of an argument list are there if the check of arities has passed. -/
theorem ne_predicate (h : Stuck a tokens t nt wanted)
    (hc : checkArity a.toSignature tokens = .ok ()) :
    nt ≠ .predicate := by
  cases h with
  | outside complaint _ =>
    rintro rfl
    simp [Alphabet.complaints] at complaint
  | unopened symbol read next =>
    obtain ⟨arity, harity⟩ := Signature.exists_arity symbol
    exact absurd (head?_of_checkOccurrence (checkOccurrence_of_checkArity hc read harity)) next
  | argument => decide
  | unclosed symbol read comma next =>
    obtain ⟨arity, harity⟩ := Signature.exists_arity symbol
    have hlisted := checkOccurrence_listed (checkOccurrence_of_checkArity hc read harity)
    rcases head?_of_checkArguments hlisted.2 with hcomma | hclose
    · exact absurd hcomma comma
    · exact absurd hclose next

/-- A variable that is missing in an argument list is one of those that the predicate symbol has
places for, and another token stands in its place. -/
theorem at_slot (h : Stuck a tokens t .var wanted) (hc : checkArity a.toSignature tokens = .ok ())
    (hlist : ∃ o ∈ t.cursor.opened, o.nt = .varList) :
    ∃ start z arity k found,
      t.cursor.opened.find? (·.nt = .predicate) = some ⟨.predicate, start⟩ ∧
        tokens[start]? = some z ∧ a.arity? z = some arity ∧ 1 ≤ k ∧ k ≤ arity ∧
        t.missing .var wanted = .expected .var wanted found (start + 2 * k) := by
  cases h with
  | outside _ on =>
    obtain ⟨o, ho, hnt⟩ := hlist
    exact absurd hnt (on.free o ho)
  | @argument start z args lists outer symbol read position opened within =>
    obtain ⟨arity, harity⟩ := Signature.exists_arity symbol
    obtain ⟨hle, hrest⟩ := checkOccurrence_listed (checkOccurrence_of_checkArity hc read harity)
    obtain ⟨found, rest, hfound⟩ : ∃ found rest, t.rest = found :: rest := by
      refine List.exists_cons_of_ne_nil fun hnil => ?_
      rw [hnil] at hrest
      cases hrest
    have hpredicate : t.cursor.opened.find? (·.nt = .predicate) = some ⟨.predicate, start⟩ := by
      have hnone : lists.find? (·.nt = .predicate) = none := by
        refine List.find?_eq_none.2 fun o ho => ?_
        simp [within o ho]
      simp [opened, List.find?_append, hnone]
    have hsymbol : tokens[start]? = some z := by
      rw [← List.head?_drop, read]
      rfl
    refine ⟨start, z, arity, args.length + 1, found, hpredicate, hsymbol, harity,
      Nat.le_add_left 1 _, hle, ?_⟩
    rw [Scan.missing, hfound, ← position]

end Stuck

/-- Errors that do not arise, for all tokens and limits: nothing but the absence of tokens is found
empty; what a rule was chosen by is never missing, be it a quantifier, a constant, a predicate
symbol or the equality symbol of an equation, nor is an argument list as a whole; and if the check
of arities has passed, then no parenthesis of an argument list is missing, and a variable only
where another token stands in one of the places of the predicate symbol. -/
theorem parse_error_unreachable (a : Alphabet) (limit : Nat) (tokens : List Symbol) :
    (parse a limit tokens = .error .empty ↔ tokens = []) ∧
      ∀ e nt wanted, parse a limit tokens = .error e → e.missing? = some (nt, wanted) →
        (nt ∉ [.quantifier, .constant, .predicateSymbol, .varList] ∧
          (nt, wanted) ≠ (.formula, a.equality.quoted)) ∧
        (checkArity a.toSignature tokens = .ok () →
          nt ≠ .predicate ∧
          (nt = .var → (∃ o ∈ (attempt a limit tokens).opened, o.nt = .varList) →
            ∃ start z arity k found,
              (attempt a limit tokens).opened.find? (·.nt = .predicate) =
                some ⟨.predicate, start⟩ ∧
              tokens[start]? = some z ∧ a.arity? z = some arity ∧ 1 ≤ k ∧ k ≤ arity ∧
              e = .expected .var wanted found (start + 2 * k))) := by
  refine ⟨parse_eq_empty_iff, fun e nt wanted h he => ?_⟩
  obtain ⟨t, rfl, -, hopened, hstuck⟩ := exists_stuck h he
  refine ⟨hstuck.reachable, fun hc => ⟨hstuck.ne_predicate hc, ?_⟩⟩
  rintro rfl hlist
  rw [hopened] at hlist ⊢
  exact hstuck.at_slot hc hlist

/-- In `R(x,a)` the arities are right, and the second argument is refused in its place. -/
theorem parse_error_unreachable_sample :
    checkArity Alphabet.sample.toSignature [⟨"R"⟩, ⟨"("⟩, ⟨"x"⟩, ⟨","⟩, ⟨"a"⟩, ⟨")"⟩] = .ok () ∧
      parse .sample 1 [⟨"R"⟩, ⟨"("⟩, ⟨"x"⟩, ⟨","⟩, ⟨"a"⟩, ⟨")"⟩] =
        .error (.expected .var "a variable" ⟨"a"⟩ 4) ∧
      ∃ start z arity k found,
        [⟨"R"⟩, ⟨"("⟩, ⟨"x"⟩, ⟨","⟩, ⟨"a"⟩, ⟨")"⟩][start]? = some z ∧
          Alphabet.sample.arity? z = some arity ∧ 1 ≤ k ∧ k ≤ arity ∧
          ParseError.expected .var "a variable" ⟨"a"⟩ 4 =
            .expected .var "a variable" found (start + 2 * k) := by
  have hc : checkArity Alphabet.sample.toSignature
      [⟨"R"⟩, ⟨"("⟩, ⟨"x"⟩, ⟨","⟩, ⟨"a"⟩, ⟨")"⟩] = .ok () := rfl
  have hparse : parse .sample 1 [⟨"R"⟩, ⟨"("⟩, ⟨"x"⟩, ⟨","⟩, ⟨"a"⟩, ⟨")"⟩] =
      .error (.expected .var "a variable" ⟨"a"⟩ 4) := rfl
  have hlist : ∃ o ∈ (attempt .sample 1 [⟨"R"⟩, ⟨"("⟩, ⟨"x"⟩, ⟨","⟩, ⟨"a"⟩, ⟨")"⟩]).opened,
      o.nt = .varList := ⟨⟨.varList, 4⟩, by decide, rfl⟩
  have h := ((parse_error_unreachable .sample 1 _).2 _ _ _ hparse rfl).2 hc
  obtain ⟨start, z, arity, k, found, -, hslot⟩ := h.2 rfl hlist
  exact ⟨hc, hparse, start, z, arity, k, found, hslot⟩

end Formulary
