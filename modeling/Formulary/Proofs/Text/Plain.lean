import Formulary.Diagnostics.Record
import Formulary.Formula.Token
import Formulary.Proofs.Text.Code
import Formulary.Proofs.Text.Words
import Formulary.Symbol

/-!
Plain texts, in which neither a tab nor the end of a line stands. Words and tokens are plain, and
so is what is written with plain symbols and numerals.
-/

namespace Formulary

namespace Text

/-- Whether a text has no tab, line feed or carriage return. -/
def Plain (s : String) : Prop := ∀ c ∈ s.toList, c ∉ ['\t', '\n', '\r']

instance : DecidablePred Plain := fun s => List.decidableBAll (· ∉ ['\t', '\n', '\r']) s.toList

@[simp] theorem plain_append {s t : String} : Plain (s ++ t) ↔ Plain s ∧ Plain t := by
  simp only [Plain, String.toList_append, List.forall_mem_append]

theorem Plain.of_subset {s t : String} (h : Plain t) (hst : s.toList ⊆ t.toList) : Plain s :=
  fun c hc => h c (hst hc)

theorem plain_of_not_blank {s : String} (h : ∀ c ∈ s.toList, isBlank c = false) : Plain s := by
  intro c hc hmem
  have hblank : ['\t', '\n', '\r'].all isBlank = true := by decide
  exact absurd (List.all_eq_true.1 hblank c hmem) (Bool.eq_false_iff.1 (h c hc))

@[simp] theorem plain_decimal (n : Nat) : Plain (decimal n) := by
  intro c hc hmem
  have hdigit : ['\t', '\n', '\r'].any Char.isDigit = false := by decide
  exact List.any_eq_false.1 hdigit c hmem (isDigit_of_mem_decimal hc)

end Text

open Text

/-! Words and tokens. -/

theorem Token.mem_spelling_prepend {c d : Char} {offset : Nat} {tokens : List Token} {t : Token}
    (h : t ∈ prepend c offset tokens) (hd : d ∈ t.spelling) :
    d = c ∨ ∃ u ∈ tokens, d ∈ u.spelling := by
  cases tokens with
  | nil =>
    rw [List.mem_singleton.1 h] at hd
    exact .inl (List.mem_singleton.1 hd)
  | cons u rest =>
    rw [prepend] at h
    split at h
    · rcases List.mem_cons.1 h with rfl | h
      · rcases List.mem_cons.1 hd with rfl | hd
        · exact .inl rfl
        · exact .inr ⟨u, List.mem_cons_self, hd⟩
      · exact .inr ⟨t, List.mem_cons_of_mem _ h, hd⟩
    · rcases List.mem_cons.1 h with rfl | h
      · exact .inl (List.mem_singleton.1 hd)
      · exact .inr ⟨t, h, hd⟩

theorem Token.not_blank_of_mem_scan {offset : Nat} {cs : List Char} {t : Token}
    (h : t ∈ scan offset cs) : ∀ d ∈ t.spelling, isBlank d = false := by
  induction cs generalizing offset t with
  | nil => cases h
  | cons c cs ih =>
    rw [scan] at h
    split at h
    · exact ih h
    · next hc =>
      intro d hd
      rcases mem_spelling_prepend h hd with rfl | ⟨u, hu, hd⟩
      · exact Bool.eq_false_iff.2 hc
      · exact ih hu d hd

theorem plain_of_mem_tokenize {text w : String} (h : w ∈ tokenize text) : Plain w := by
  obtain ⟨t, ht, rfl⟩ := List.mem_map.1 h
  refine plain_of_not_blank fun c hc => Token.not_blank_of_mem_scan ht c ?_
  rwa [Token.text, String.toList_ofList] at hc

/-! Symbols. -/

theorem Text.mem_of_mem_escape {c : Char} {cs : List Char} (h : c ∈ escape cs) : c ∈ cs := by
  induction cs with
  | nil => cases h
  | cons d cs ih =>
    rw [escape] at h
    split at h
    · next hd =>
      subst hd
      simp only [List.mem_cons] at h ⊢
      exact h.elim .inl (·.elim .inl fun h => .inr (ih h))
    · exact (List.mem_cons.1 h).elim (fun h => h ▸ List.mem_cons_self) fun h =>
        List.mem_cons_of_mem _ (ih h)

theorem Text.mem_of_mem_unescape {c : Char} {cs : List Char} (h : c ∈ unescape cs) : c ∈ cs := by
  fun_induction unescape cs with
  | case1 => exact h
  | case2 cs ih =>
    rcases List.mem_cons.1 h with rfl | h
    · exact List.mem_cons_self
    · exact List.mem_cons_of_mem _ (List.mem_cons_of_mem _ (ih h))
  | case3 d cs _ ih =>
    rcases List.mem_cons.1 h with rfl | h
    · exact List.mem_cons_self
    · exact List.mem_cons_of_mem _ (ih h)

namespace Symbol

def Plain (z : Symbol) : Prop := Text.Plain z.stored

theorem plain_ofText {text : String} (h : Text.Plain text) : (ofText text).Plain := by
  refine h.of_subset fun c hc => mem_of_mem_escape ?_
  rwa [ofText, String.toList_ofList] at hc

theorem Plain.shown {z : Symbol} (h : z.Plain) : Text.Plain z.shown := by
  refine h.of_subset fun c hc => mem_of_mem_unescape ?_
  rwa [Symbol.shown, String.toList_ofList] at hc

theorem Plain.quoted {z : Symbol} (h : z.Plain) : Text.Plain z.quoted := by
  have hquote : Text.Plain "'" := by decide
  simp [Symbol.quoted, h.shown, hquote]

end Symbol

/-! Points in time. -/

namespace Timestamp

theorem plain_padded (width n : Nat) : Plain (padded width n) := by
  refine plain_append.2 ⟨fun c hc => ?_, plain_decimal n⟩
  rw [String.toList_ofList] at hc
  rw [List.eq_of_mem_replicate hc]
  decide

theorem plain_monthName (month : Nat) : Plain (monthName month) := by
  unfold monthName
  split <;> decide

theorem plain_yearText (year : Int) : Plain (yearText year) := by
  have hminus : Plain "-" := by decide
  have hplus : Plain "+" := by decide
  unfold yearText
  split_ifs <;> simp [plain_padded, hminus, hplus]

theorem plain_text (t : Timestamp) : Plain t.text := by
  have hdash : Plain "-" := by decide
  have hcolon : Plain ":" := by decide
  simp [text, plain_padded, plain_monthName, plain_yearText, hdash, hcolon]

end Timestamp

end Formulary
