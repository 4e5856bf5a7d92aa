import Formulary.Proofs.Parser.Script

/-!
Where the parser stands when it stops. The moves of a run tell which categories are open and how
many tokens were read before each, and a run is described by what it comes to: one condition on the
scan after a success, another on an error and the scan where it arose.
-/

namespace Formulary

/-- A category that is being read, and the number of tokens read before it. -/
structure Opening where
  nt : NonTerminal
  start : Nat
deriving DecidableEq, Repr

/-- The number of tokens read, and the open categories with the innermost first. -/
structure Cursor where
  position : Nat := 0
  opened : List Opening := []
deriving DecidableEq, Repr

def Cursor.follow : Cursor → Move → Cursor
  | c, .select .. => c
  | ⟨position, opened⟩, .enter nt => ⟨position, ⟨nt, position⟩ :: opened⟩
  | ⟨position, opened⟩, .shift _ => ⟨position + 1, opened⟩
  | ⟨position, opened⟩, .leave => ⟨position, opened.tail⟩

/-- The categories that were open when an attempt ended. -/
def Attempt.opened (x : Attempt) : List Opening := (x.moves.foldl Cursor.follow {}).opened

namespace Scan

def cursor (s : Scan) : Cursor := s.moves.reverse.foldl Cursor.follow {}

theorem cursor_noted (s : Scan) (m : Move) : (s.noted m).cursor = s.cursor.follow m := by
  simp [cursor, noted, List.foldl_append]

@[simp] theorem rest_noted (s : Scan) (m : Move) : (s.noted m).rest = s.rest := rfl

@[simp] theorem position_noted (s : Scan) (m : Move) : (s.noted m).position = s.position := rfl

theorem cursor_enter (s : Scan) (nt : NonTerminal) :
    (s.noted (.enter nt)).cursor =
      ⟨s.cursor.position, ⟨nt, s.cursor.position⟩ :: s.cursor.opened⟩ :=
  s.cursor_noted (.enter nt)

theorem cursor_select (s : Scan) (rule : Option FormulaRule) (position depth : Nat) :
    (s.noted (.select rule position depth)).cursor = s.cursor :=
  s.cursor_noted (.select rule position depth)

/-- Whether a scan goes on from another behind some tokens, with the same categories open. -/
structure Passes (s : Scan) (read : List Symbol) (t : Scan) : Prop where
  rest : s.rest = read ++ t.rest
  position : t.position = s.position + read.length
  cursor : t.cursor = ⟨s.cursor.position + read.length, s.cursor.opened⟩

theorem Passes.trans {s t u : Scan} {read read' : List Symbol} (h : s.Passes read t)
    (h' : t.Passes read' u) : s.Passes (read ++ read') u where
  rest := by rw [h.rest, h'.rest, List.append_assoc]
  position := by rw [h'.position, h.position, List.length_append, Nat.add_assoc]
  cursor := by simp [h'.cursor, h.cursor, Nat.add_assoc]

theorem Passes.shift {s : Scan} {u : Symbol} {rest : List Symbol} (h : s.rest = u :: rest) :
    s.Passes [u] ⟨rest, s.position + 1, .shift u :: s.moves⟩ where
  rest := h
  position := rfl
  cursor := s.cursor_noted (.shift u)

/-- What is read below a new node is read as well when the node is left. -/
theorem Passes.within {s t : Scan} {nt : NonTerminal} {read : List Symbol}
    (h : (s.noted (.enter nt)).Passes read t) : s.Passes read (t.noted .leave) where
  rest := h.rest
  position := h.position
  cursor := by
    rw [cursor_noted, h.cursor, cursor_enter]
    rfl

/-- What is read after a choice of rule is read from there. -/
theorem Passes.of_select {s t : Scan} {rule : Option FormulaRule} {position depth : Nat}
    {read : List Symbol} (h : (s.noted (.select rule position depth)).Passes read t) :
    s.Passes read t where
  rest := h.rest
  position := h.position
  cursor := by rw [h.cursor, cursor_select]

/-- The error of a category that finds something else than it wants, or nothing. -/
def missing (s : Scan) (nt : NonTerminal) (wanted : String) : ParseError :=
  match s.rest with
  | [] => .unexpectedEnd nt wanted
  | found :: _ => .expected nt wanted found s.position

end Scan

namespace Parser

variable {p q : Parser Unit} {s : Scan} {done done' : Scan → Prop}
  {fault fault' : ParseError → Scan → Prop}

/-- What a run comes to. -/
def Ends (p : Parser Unit) (s : Scan) (done : Scan → Prop) (fault : ParseError → Scan → Prop) :
    Prop :=
  match p s with
  | .ok _ t => done t
  | .error e t => fault e t

theorem Ends.of_error {e : ParseError} {t : Scan} (h : Ends p s done fault)
    (hs : p s = .error e t) : fault e t := by
  rwa [Ends, hs] at h

theorem Ends.imp (h : Ends p s done fault) (hdone : ∀ t, done t → done' t)
    (hfault : ∀ e t, fault e t → fault' e t) : Ends p s done' fault' := by
  unfold Ends at h ⊢
  cases hs : p s with
  | ok _ t =>
    rw [hs] at h
    exact hdone t h
  | error e t =>
    rw [hs] at h
    exact hfault e t h

theorem Ends.seq (h : Ends p s done fault) (h' : ∀ t, done t → Ends q t done' fault) :
    Ends (do p; q) s done' fault := by
  unfold Ends at h ⊢
  rw [bind_apply]
  cases hs : p s with
  | ok _ t =>
    rw [hs] at h
    exact h' t h
  | error e t =>
    rw [hs] at h
    exact h

theorem Ends.within {nt : NonTerminal}
    (h : Ends p (s.noted (.enter nt)) (fun t => done (t.noted .leave)) fault) :
    Ends (within nt p) s done fault := by
  unfold Ends at h ⊢
  rw [within_apply]
  change match p (s.noted (.enter nt)) with
    | .ok _ t => done (t.noted .leave)
    | .error e t => fault e t at h
  unfold Scan.noted at h
  cases hs : p { s with moves := .enter nt :: s.moves } with
  | ok _ t =>
    rw [hs] at h
    exact h
  | error e t =>
    rw [hs] at h
    exact h

theorem ends_sees {test : Symbol → Bool} (h : s.rest.head?.any test = true → Ends p s done fault)
    (h' : s.rest.head?.any test = false → Ends q s done fault) :
    Ends (do if ← sees test then p else q) s done fault := by
  unfold Ends
  rw [bind_sees]
  cases htest : s.rest.head?.any test with
  | true => exact h htest
  | false => exact h' htest

theorem ends_shift {u : Symbol} {rest : List Symbol} (h : s.rest = u :: rest) :
    Ends shift s (fun t => s.Passes [u] t) fault := by
  unfold Ends
  rw [shift_apply h]
  exact Scan.Passes.shift h

theorem ends_fail (nt : NonTerminal) (wanted : String) (s : Scan) :
    Ends (fail nt wanted) s done fun e t => t = s ∧ e = s.missing nt wanted := by
  obtain ⟨rest, position, moves⟩ := s
  cases rest <;> exact ⟨rfl, rfl⟩

theorem ends_expect (nt : NonTerminal) (wanted : String) (test : Symbol → Bool) (s : Scan) :
    Ends (expect nt wanted test) s (fun t => ∃ u, test u = true ∧ s.Passes [u] t)
      fun e t => t = s ∧ e = s.missing nt wanted ∧ s.rest.head?.any test = false := by
  refine ends_sees (fun htest => ?_) fun htest => ?_
  · obtain ⟨u, hu, hut⟩ := (Option.any_eq_true _ _).1 htest
    obtain ⟨rest, hrest⟩ := List.head?_eq_some_iff.1 hu
    exact (ends_shift hrest).imp (fun t ht => ⟨u, hut, ht⟩) fun _ _ h => h
  · exact (ends_fail nt wanted s).imp (fun _ h => h) fun e t h => ⟨h.1, h.2, htest⟩

end Parser

end Formulary
