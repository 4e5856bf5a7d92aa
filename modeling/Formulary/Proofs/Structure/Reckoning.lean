import Formulary.Proofs.Structure.Deviation
import Mathlib.Algebra.Group.Nat.Defs

/-!
The check of an argument list by offsets. Tokens are looked up by their distance from the predicate
symbol, so that numbers are computed for each of them, and a machine keeps 64 bits of a number. The
tokens run out before a number gets large, whatever the arity: the check finds what it finds with
unbounded numbers, and what reading token by token finds.
-/

namespace Formulary

open Formulary.Symbol

/-- A number as 64 bits keep it. -/
def wordOf (n : Nat) : Nat := (UInt64.ofNat n).toNat

theorem wordOf_eq {n : Nat} (h : n < UInt64.size) : wordOf n = n := UInt64.toNat_ofNat_of_lt h

/-- How often a loop was entered, and the numbers that were computed, with the latest first. -/
structure Tally where
  rounds : Nat := 0
  numbers : List Nat := []
deriving DecidableEq, Repr

/-- A check that computes with what is kept of numbers, such as `wordOf` or all of them, and tallies
what it does until it ends or fails. -/
abbrev Reckoner := ReaderT (Nat → Nat) (EStateM ArityViolation Tally)

namespace Reckoner

/-- Computes a number and goes on with what is kept of it. -/
def number (n : Nat) : Reckoner Nat := do
  modify fun t => { t with numbers := n :: t.numbers }
  return (← read) n

def enter : Reckoner Unit := modify fun t => { t with rounds := t.rounds + 1 }

def tokenAt (tokens : List Symbol) (start offset : Nat) : Reckoner (Option Symbol) := do
  return tokens[← number (start + offset)]?

/-- Looks at what stands in the place of argument `k`. -/
def argument (k : Nat) : Option Symbol → Reckoner Unit
  | none => throw .truncated
  | some t =>
    if t = closeParen then throw (.earlyClose k)
    else if t = comma then throw (.missingArgument k)
    else return

/-- Looks at what stands behind argument `k`. -/
def separator (arity k : Nat) : Option Symbol → Reckoner Unit
  | none => throw .truncated
  | some t =>
    if k < arity then
      if t = comma then return
      else if t = closeParen then do throw (.earlyClose (← number (k + 1)))
      else throw (.expectedComma k t)
    else if t = closeParen then return
    else throw (.expectedClose t)

/-- Checks argument `k` and what stands behind it. -/
def round (tokens : List Symbol) (start arity k : Nat) : Reckoner Unit := do
  enter
  let offset ← number (2 * k)
  argument k (← tokenAt tokens start offset)
  let next ← number (offset + 1)
  separator arity k (← tokenAt tokens start next)

/-- Runs a check for each argument from number `k` to the last one. -/
def each (arity k : Nat) (q : Nat → Reckoner Unit) : Reckoner Unit :=
  (List.range' k (arity + 1 - k)).forM q

/-- Checks the tokens that follow the predicate symbol at a position. -/
def occurrence (tokens : List Symbol) (start arity : Nat) : Reckoner Unit := do
  match ← tokenAt tokens start 1 with
  | none => throw .truncated
  | some t =>
    if t ≠ openParen then throw .missingOpenParen
    else if arity = 0 then throw .zeroArity
    else each arity 1 (round tokens start arity)

end Reckoner

namespace Tally

/-- The end of a check with an outcome. -/
def ended {α : Type} (t : Tally) : Except ArityViolation α → EStateM.Result ArityViolation Tally α
  | .ok a => .ok a t
  | .error e => .error e t

/-- Whether no number above a bound was computed. -/
def Within (t : Tally) (bound : Nat) : Prop := ∀ n ∈ t.numbers, n ≤ bound

end Tally

/-- Whether numbers up to a bound are kept as they are. -/
def Keeps (bound : Nat) (keep : Nat → Nat) : Prop := ∀ n ≤ bound, keep n = n

theorem keeps_id (bound : Nat) : Keeps bound id := fun _ _ => rfl

theorem keeps_wordOf {bound : Nat} (h : bound < UInt64.size) : Keeps bound wordOf :=
  fun _ hn => wordOf_eq (Nat.lt_of_le_of_lt hn h)

namespace Reckoner

variable {α β : Type} {bound rounds rounds' : Nat} {p : Reckoner α} {f : α → Reckoner β} {a : α}
  {e : ArityViolation}

/-- Whether a check comes to an outcome wherever numbers up to a bound are kept, computes no number
above it, and enters its loop so many times at most. -/
def Reckons (bound rounds : Nat) (p : Reckoner α) (outcome : Except ArityViolation α) : Prop :=
  ∀ t : Tally, t.Within bound → ∃ t' : Tally, t'.Within bound ∧ t'.rounds ≤ t.rounds + rounds ∧
    ∀ keep, Keeps bound keep → p keep t = t'.ended outcome

theorem bind_apply (p : Reckoner α) (f : α → Reckoner β) (keep : Nat → Nat) (t : Tally) :
    (p >>= f) keep t =
      match p keep t with
      | .ok a u => f a keep u
      | .error e u => .error e u := by
  change EStateM.bind (p keep) (fun a => f a keep) t = _
  cases h : p keep t <;> simp only [EStateM.bind, h]

namespace Reckons

theorem mono {outcome : Except ArityViolation α} (h : Reckons bound rounds p outcome)
    (hle : rounds ≤ rounds') : Reckons bound rounds' p outcome := by
  intro t ht
  obtain ⟨t', hwithin, hrounds, hrun⟩ := h t ht
  exact ⟨t', hwithin, by omega, hrun⟩

theorem pure (bound : Nat) (a : α) : Reckons bound 0 (pure a) (.ok a) :=
  fun t ht => ⟨t, ht, Nat.le_refl _, fun _ _ => rfl⟩

theorem throw (bound : Nat) (e : ArityViolation) :
    Reckons bound 0 (throw e : Reckoner α) (.error e) :=
  fun t ht => ⟨t, ht, Nat.le_refl _, fun _ _ => rfl⟩

/-- What comes after a check is run only if the check does not fail. -/
theorem bind {outcome : Except ArityViolation α} {g : α → Except ArityViolation β}
    (h : Reckons bound rounds p outcome)
    (h' : ∀ a, outcome = .ok a → Reckons bound rounds' (f a) (g a)) :
    Reckons bound (rounds' + rounds) (p >>= f) (outcome >>= g) := by
  intro t ht
  obtain ⟨u, hu, hrounds, hrun⟩ := h t ht
  cases outcome with
  | error e =>
    refine ⟨u, hu, by omega, fun keep hkeep => ?_⟩
    rw [bind_apply, hrun keep hkeep]
    rfl
  | ok a =>
    obtain ⟨v, hv, hrounds', hrun'⟩ := h' a rfl u hu
    refine ⟨v, hv, by omega, fun keep hkeep => ?_⟩
    rw [bind_apply, hrun keep hkeep]
    exact hrun' keep hkeep

theorem bind_ok {outcome : Except ArityViolation β} (h : Reckons bound rounds p (.ok a))
    (h' : Reckons bound rounds' (f a) outcome) :
    Reckons bound (rounds' + rounds) (p >>= f) outcome := by
  refine h.bind (g := fun _ => outcome) fun b hb => ?_
  cases hb
  exact h'

theorem number {n : Nat} (h : n ≤ bound) : Reckons bound 0 (number n) (.ok n) := by
  intro t ht
  refine ⟨{ t with numbers := n :: t.numbers }, List.forall_mem_cons.2 ⟨h, ht⟩, Nat.le_refl _,
    fun keep hkeep => ?_⟩
  change EStateM.Result.ok (keep n) _ = _
  rw [hkeep n h]
  rfl

theorem enter (bound : Nat) : Reckons bound 1 enter (.ok ()) :=
  fun t ht => ⟨{ t with rounds := t.rounds + 1 }, ht, Nat.le_refl _, fun _ _ => rfl⟩

theorem tokenAt {start offset : Nat} (tokens : List Symbol) (h : start + offset ≤ bound) :
    Reckons bound 0 (tokenAt tokens start offset) (.ok tokens[start + offset]?) :=
  (number h).bind_ok (f := fun i => return tokens[i]?) (pure bound _)

end Reckons

/-- What is found out from the token in the place of argument `k`. -/
def argumentOutcome (k : Nat) : Option Symbol → Except ArityViolation Unit
  | none => .error .truncated
  | some t =>
    if t = closeParen then .error (.earlyClose k)
    else if t = comma then .error (.missingArgument k)
    else .ok ()

/-- What is found out from the token behind argument `k`. -/
def separatorOutcome (arity k : Nat) : Option Symbol → Except ArityViolation Unit
  | none => .error .truncated
  | some t =>
    if k < arity then
      if t = comma then .ok ()
      else if t = closeParen then .error (.earlyClose (k + 1))
      else .error (.expectedComma k t)
    else if t = closeParen then .ok ()
    else .error (.expectedClose t)

/-- What is found out from the first two of the tokens that are left. -/
def roundOutcome (arity k : Nat) (rest : List Symbol) : Except ArityViolation Unit := do
  argumentOutcome k rest.head?
  separatorOutcome arity k rest.tail.head?

variable {tokens rest : List Symbol} {start arity k : Nat} {found : Option Symbol}

theorem isSome_of_argumentOutcome (h : argumentOutcome k found = .ok ()) : found.isSome := by
  cases found with
  | none => cases h
  | some _ => rfl

theorem two_le_of_roundOutcome (h : roundOutcome arity k rest = .ok ()) : 2 ≤ rest.length := by
  match rest, h with
  | _ :: _ :: rest, _ => exact Nat.le_add_left 2 rest.length
  | [t], h =>
    cases hargument : argumentOutcome k (some t) with
    | error e => simp [roundOutcome, hargument, bind, Except.bind] at h
    | ok _ => simp [roundOutcome, hargument, separatorOutcome, bind, Except.bind] at h

/-- Arguments are read in rounds as well. -/
theorem checkArguments_eq (arity k : Nat) (rest : List Symbol) :
    checkArguments arity k rest = (do
      roundOutcome arity k rest
      if k < arity then checkArguments arity (k + 1) (rest.drop 2) else .ok ()) := by
  fun_cases checkArguments arity k rest <;>
    simp [roundOutcome, argumentOutcome, separatorOutcome, bind, Except.bind, *]

theorem reckons_argument (bound k : Nat) (found : Option Symbol) :
    Reckons bound 0 (argument k found) (argumentOutcome k found) := by
  cases found with
  | none => exact .throw bound _
  | some t =>
    simp only [argument, argumentOutcome]
    split_ifs
    · exact .throw bound _
    · exact .throw bound _
    · exact .pure bound ()

theorem reckons_separator (arity : Nat) (found : Option Symbol) (h : k + 1 ≤ bound) :
    Reckons bound 0 (separator arity k found) (separatorOutcome arity k found) := by
  cases found with
  | none => exact .throw bound _
  | some t =>
    simp only [separator, separatorOutcome]
    split_ifs
    · exact .pure bound ()
    · exact (Reckons.number h).bind_ok (.throw bound _)
    · exact .throw bound _
    · exact .pure bound ()
    · exact .throw bound _

/-- A round computes no number above the number of tokens, since it does not look behind a token
that is missing. -/
theorem reckons_round (hlength : start + 2 * k ≤ tokens.length)
    (h : tokens.drop (start + 2 * k) = rest) :
    Reckons tokens.length 1 (round tokens start arity k) (roundOutcome arity k rest) := by
  have hhead : tokens[start + 2 * k]? = rest.head? := getElem?_of_drop h
  have hnext : tokens[start + (2 * k + 1)]? = rest.tail.head? :=
    getElem?_of_drop (drop_succ_of_drop h)
  refine (Reckons.enter _).bind_ok ?_
  refine (Reckons.number (by omega)).bind_ok ?_
  refine (Reckons.tokenAt tokens hlength).bind_ok ?_
  rw [hhead]
  refine (reckons_argument _ k _).bind fun _ hargument => ?_
  have hlt : start + 2 * k < tokens.length := by
    rw [← hhead] at hargument
    simpa using isSome_of_argumentOutcome hargument
  refine (Reckons.number (by omega)).bind_ok ?_
  refine (Reckons.tokenAt tokens (by omega)).bind_ok ?_
  rw [hnext]
  exact reckons_separator arity _ (by omega)

variable {q : Nat → Reckoner Unit}

theorem each_of_le (h : k ≤ arity) :
    each arity k q = (do q k; each arity (k + 1) q) := by
  have hsucc : arity + 1 - k = arity + 1 - (k + 1) + 1 := by omega
  rw [each, hsucc, List.range'_succ]
  rfl

theorem each_of_lt (h : arity < k) : each arity k q = pure () := by
  have hzero : arity + 1 - k = 0 := by omega
  rw [each, hzero]
  rfl

/-- The rounds from an argument on find what reading from this argument on finds, and each of them
but the last one takes two tokens. -/
theorem reckons_rounds {k : Nat} {rest : List Symbol} (hmost : k ≤ arity)
    (hlength : start + 2 * k ≤ tokens.length) (h : tokens.drop (start + 2 * k) = rest) :
    Reckons tokens.length (rest.length / 2 + 1) (each arity k (round tokens start arity))
      (checkArguments arity k rest) := by
  have hround : Reckons tokens.length 1 (round tokens start arity k) (roundOutcome arity k rest) :=
    reckons_round hlength h
  rw [checkArguments_eq, each_of_le hmost]
  refine hround.bind fun _ hok => ?_
  have htwo := two_le_of_roundOutcome hok
  have hdrop : tokens.drop (start + 2 * (k + 1)) = rest.drop 2 := by
    rw [← h, List.drop_drop]
    rfl
  have hrest : rest.length = tokens.length - (start + 2 * k) := by rw [← h, List.length_drop]
  split_ifs with hmore
  · refine (reckons_rounds hmore (by omega) hdrop).mono ?_
    rw [List.length_drop]
    omega
  · rw [each_of_lt (by omega)]
    exact (Reckons.pure _ ()).mono (Nat.zero_le _)
termination_by arity - k

/-- The check by offsets finds what reading token by token finds, computes no number that is above
the number of tokens, and enters its loop for every second token at most. -/
theorem reckons_occurrence (arity : Nat) (hstart : start < tokens.length) :
    Reckons tokens.length (tokens.length / 2) (occurrence tokens start arity)
      (checkOccurrence arity (tokens.drop (start + 1))) := by
  have hfound : tokens[start + 1]? = (tokens.drop (start + 1)).head? := getElem?_of_drop rfl
  refine (Reckons.tokenAt tokens hstart).bind_ok ?_
  rw [hfound]
  cases hdrop : tokens.drop (start + 1) with
  | nil => exact (Reckons.throw _ _).mono (Nat.zero_le _)
  | cons t rest =>
    simp only [List.head?_cons, checkOccurrence]
    split_ifs with hne hzero
    · exact (Reckons.throw _ _).mono (Nat.zero_le _)
    · exact (Reckons.throw _ _).mono (Nat.zero_le _)
    · have hlength := congrArg List.length hdrop
      rw [List.length_drop, List.length_cons] at hlength
      have hrest : tokens.drop (start + 2 * 1) = rest := drop_succ_of_drop hdrop
      refine (reckons_rounds (by omega) (by omega) hrest).mono ?_
      change rest.length / 2 + 1 ≤ tokens.length / 2
      omega

end Reckoner

/-- On fewer than `2 ^ 62` tokens the check by offsets enters its loop at most once for every two
tokens and once more, and no number that it computes exceeds 64 bits, whatever the arity. So it does
with 64 bits what it does with unbounded numbers, and finds what reading token by token finds. -/
theorem Reckoner.occurrence_exact {tokens : List Symbol} {start : Nat} (arity : Nat)
    (hlength : tokens.length < 2 ^ 62) (hstart : start < tokens.length) :
    ∃ t : Tally, t.rounds ≤ tokens.length / 2 + 1 ∧ (∀ n ∈ t.numbers, n ≤ Text.maxCount) ∧
      occurrence tokens start arity wordOf {} = occurrence tokens start arity id {} ∧
      occurrence tokens start arity wordOf {} =
        t.ended (checkOccurrence arity (tokens.drop (start + 1))) := by
  have hwithin : Tally.Within {} tokens.length := List.forall_mem_nil _
  have hsize : tokens.length < UInt64.size := Nat.lt_trans hlength (by decide)
  obtain ⟨t, hnumbers, hrounds, hrun⟩ := reckons_occurrence arity hstart {} hwithin
  have hword := hrun wordOf (keeps_wordOf hsize)
  refine ⟨t, ?_, fun n hn => ?_, hword.trans (hrun id (keeps_id _)).symm, hword⟩
  · change t.rounds ≤ 0 + tokens.length / 2 at hrounds
    omega
  · have hle := hnumbers n hn
    have hmost : 2 ^ 62 ≤ Text.maxCount := by decide
    omega

/-- The tokens of a predicate symbol with two arguments, and the largest arity of all. -/
theorem Reckoner.occurrence_exact_most :
    let tokens : List Symbol := [⟨"P"⟩, openParen, ⟨"x"⟩, comma, ⟨"y"⟩, closeParen]
    tokens.length < 2 ^ 62 ∧ 0 < tokens.length ∧
      ∃ t : Tally, t.rounds ≤ tokens.length / 2 + 1 ∧ (∀ n ∈ t.numbers, n ≤ Text.maxCount) ∧
        occurrence tokens 0 Text.maxCount wordOf {} =
          occurrence tokens 0 Text.maxCount id {} ∧
        occurrence tokens 0 Text.maxCount wordOf {} = .error (.earlyClose 3) t := by
  intro tokens
  have hlength : tokens.length < 2 ^ 62 := by decide
  have hstart : 0 < tokens.length := by decide
  have hfound : checkOccurrence Text.maxCount (tokens.drop 1) = .error (.earlyClose 3) := rfl
  obtain ⟨t, hrounds, hnumbers, hsame, hrun⟩ := occurrence_exact Text.maxCount hlength hstart
  rw [hfound] at hrun
  exact ⟨hlength, hstart, t, hrounds, hnumbers, hsame, hrun⟩

/-- Far behind its tokens the check would start over at the first one. -/
example : Reckoner.occurrence [openParen] Text.maxCount 0 wordOf {} =
    .error .zeroArity ⟨0, [Text.maxCount + 1]⟩ := rfl

end Formulary
