import Formulary.Proofs.Diagnostics.Timestamp
import Formulary.Proofs.Path.Components
import Formulary.Storage.Files
import Mathlib.Data.List.Nodup

/-!
Names of output files are different from each other and from the name of the input, and they tell
the time of the run and the stem of the input, as far as it is shown. Stems that are not UTF-8 may
be shown alike, and then the outputs have the same names.
-/

namespace Formulary.OutputPaths

open Formulary.Path

/-- What an output is called: the time and the shown stem of the input, then what the file holds. -/
def called (time : Timestamp) (shown kind extension : String) : OsText :=
  dotted (.ofString (time.text ++ shown ++ kind)) (.ofString extension)

variable {time time' : Timestamp} {input outDir stem : OsText}
  {shown shown' kind kind' extension extension' : String}

theorem called_eq (time : Timestamp) (shown kind extension : String) :
    called time shown kind extension =
      .ofString (time.text ++ shown ++ (kind ++ "." ++ extension)) := by
  have hdot : (OsText.ofString ".").bytes = [dot] := rfl
  rw [called, dotted, OsText.mk.injEq]
  simp only [OsText.bytes_ofString_append, hdot, List.append_assoc, List.singleton_append]

theorem slash_not_mem_start (time : Timestamp) (hshown : '/' ∉ shown.toList)
    (hkind : '/' ∉ kind.toList) :
    slash ∉ (OsText.ofString (time.text ++ shown ++ kind)).bytes :=
  OsText.slash_not_mem_ofString (by simp [time.slash_not_mem_text, hshown, hkind])

theorem start_ne_nil (time : Timestamp) (shown : String) (hkind : kind ≠ "") :
    (OsText.ofString (time.text ++ shown ++ kind)).bytes ≠ [] :=
  OsText.bytes_ofString_ne_nil (by simp [hkind])

theorem inside_called (outDir : OsText) (time : Timestamp) (hshown : '/' ∉ shown.toList)
    (hkind : '/' ∉ kind.toList ∧ kind ≠ "") (hext : '/' ∉ extension.toList ∧ extension ≠ "") :
    Inside outDir (called time shown kind extension)
      (join outDir (called time shown kind extension)) := by
  have hstart := start_ne_nil time shown hkind.2
  have hextension := OsText.bytes_ofString_ne_nil hext.2
  obtain ⟨hidle, hparent⟩ := name_counts hstart hextension
  refine inside_join ?_ hidle hparent
  have hslash := slash_not_mem_start time hshown hkind.1
  refine List.not_mem_append hslash (List.not_mem_cons_of_ne_of_not_mem (by decide) ?_)
  exact OsText.slash_not_mem_ofString hext.1

theorem grammar_forInput (hstem : stem? input = some stem) :
    (forInput input outDir time).grammar =
      join outDir (called time stem.shown "-outputgrammar" "txt") := by
  have hname : "-outputgrammar" ++ "." ++ "txt" = "-outputgrammar.txt" := by decide
  rw [called_eq, hname, forInput, hstem, Option.map_some, Option.getD_some]

theorem parseTree_forInput (hstem : stem? input = some stem) :
    (forInput input outDir time).parseTree =
      join outDir (called time stem.shown "-outputparsetree" "dot") := by
  have hname : "-outputparsetree" ++ "." ++ "dot" = "-outputparsetree.dot" := by decide
  rw [called_eq, hname, forInput, hstem, Option.map_some, Option.getD_some]

theorem json_forInput (hstem : stem? input = some stem) (hshown : '/' ∉ stem.shown.toList) :
    (forInput input outDir time).json =
      join outDir (called time stem.shown "-outputgrammar" "json") := by
  rw [json, grammar_forInput hstem]
  exact withExtension_join (slash_not_mem_start time hshown (by decide))
    (start_ne_nil time _ (by decide)) (by decide) (by decide)

/-- The names of two outputs of one run end in different ways. -/
theorem called_ne (time : Timestamp) (shown : String)
    (h : kind ++ "." ++ extension ≠ kind' ++ "." ++ extension') :
    called time shown kind extension ≠ called time shown kind' extension' := by
  rw [called_eq, called_eq]
  intro hsame
  exact h ((String.append_right_inj _).1 (OsText.ofString_injective hsame))

/-- The name of an output is longer than that of the input, also where showing changes the stem. -/
theorem dotted_ne_called (time : Timestamp) (stem : OsText)
    (h : 3 < (OsText.ofString kind).bytes.length + (OsText.ofString extension).bytes.length) :
    dotted stem (.ofString "txt") ≠ called time stem.shown kind extension := by
  intro hsame
  have hlength := congrArg (·.bytes.length) hsame
  have hshown := stem.length_le_shown
  have htxt : (OsText.ofString "txt").bytes.length = 3 := rfl
  simp only [called, dotted, OsText.bytes_ofString_append, List.length_append, List.length_cons,
    htxt] at hlength
  omega

theorem names_nodup (time : Timestamp) (stem : OsText) :
    [dotted stem (.ofString "txt"), called time stem.shown "-outputgrammar" "txt",
      called time stem.shown "-outputparsetree" "dot",
      called time stem.shown "-outputgrammar" "json"].Nodup := by
  simp only [List.nodup_cons, List.mem_cons, List.not_mem_nil, or_false, not_or]
  exact ⟨⟨dotted_ne_called _ _ (by decide), dotted_ne_called _ _ (by decide),
      dotted_ne_called _ _ (by decide)⟩,
    ⟨called_ne _ _ (by decide), called_ne _ _ (by decide)⟩, called_ne _ _ (by decide),
    not_false, List.nodup_nil⟩

/-- The name of an output tells the time and the shown stem. -/
theorem called_cancel (ht : time.second ≤ 60) (ht' : time'.second ≤ 60)
    (h : called time shown kind extension = called time' shown' kind extension) :
    time.text = time'.text ∧ shown = shown' := by
  have hchars : time.text.toList ++ shown.toList = time'.text.toList ++ shown'.toList := by
    rw [called_eq, called_eq] at h
    have hstart := (String.append_left_inj _).1 (OsText.ofString_injective h)
    rw [← String.toList_append, hstart, String.toList_append]
  obtain ⟨htext, hshown⟩ := Timestamp.text_cancel (by omega) (by omega) hchars
  exact ⟨htext, String.toList_inj.1 hshown⟩

theorem exists_of_checkExtension (h : checkExtension input = .ok ()) :
    ∃ stem, stem? input = some stem ∧ fileName? input = some (dotted stem (.ofString "txt")) ∧
      slash ∉ stem.bytes := by
  rw [checkExtension] at h
  split at h
  · next hext => exact exists_of_extension? hext
  · cases h

theorem inside_grammar (outDir : OsText) (time : Timestamp) (hstem : stem? input = some stem)
    (hshown : '/' ∉ stem.shown.toList) :
    Inside outDir (called time stem.shown "-outputgrammar" "txt")
      (forInput input outDir time).grammar := by
  rw [grammar_forInput hstem]
  exact inside_called outDir time hshown (by decide) (by decide)

/-- In one directory, the grammars of two runs have the same path exactly if the times read the same
and the stems of the inputs are shown alike. On a clock a minute has at most 61 seconds. -/
theorem grammar_eq_iff (outDir : OsText) {input' stem' : OsText} (ht : time.second ≤ 60)
    (ht' : time'.second ≤ 60) (hstem : stem? input = some stem) (hstem' : stem? input' = some stem')
    (hshown : '/' ∉ stem.shown.toList) (hshown' : '/' ∉ stem'.shown.toList) :
    components (forInput input outDir time).grammar =
        components (forInput input' outDir time').grammar ↔
      time.text = time'.text ∧ stem.shown = stem'.shown := by
  constructor
  · intro hsame
    rw [(inside_grammar outDir time hstem hshown).components,
      (inside_grammar outDir time' hstem' hshown').components] at hsame
    have hcalled : called time stem.shown "-outputgrammar" "txt" =
        called time' stem'.shown "-outputgrammar" "txt" := by
      rw [OsText.mk.injEq]
      exact (List.cons.inj (List.append_cancel_left hsame)).1
    exact called_cancel ht ht' hcalled
  · rintro ⟨htext, hstems⟩
    rw [grammar_forInput hstem, grammar_forInput hstem', hstems, called, called, htext]

/-- The outputs of a run are in the directory of the outputs, with names that differ from each other
and from that of the input, so that none of the four files is another one. In one directory, the
grammars of two runs have the same path exactly if the times read the same and the stems of the
inputs are shown alike, so that stems which are UTF-8 are the same. On a clock a minute has at most
61 seconds. -/
theorem never_clash (outDir : OsText) (time : Timestamp) {input : OsText}
    (h : checkExtension input = .ok ()) :
    (∃ own grammar parseTree json,
      fileName? input = some own ∧
      Inside outDir grammar (forInput input outDir time).grammar ∧
      Inside outDir parseTree (forInput input outDir time).parseTree ∧
      Inside outDir json (forInput input outDir time).json ∧
      [own, grammar, parseTree, json].Nodup) ∧
    ([input, (forInput input outDir time).grammar, (forInput input outDir time).parseTree,
      (forInput input outDir time).json].map components).Nodup ∧
    ∀ (time' : Timestamp) (input' : OsText), checkExtension input' = .ok () →
      time.second ≤ 60 → time'.second ≤ 60 →
      (components (forInput input outDir time).grammar =
          components (forInput input' outDir time').grammar ↔
        time.text = time'.text ∧
          (stem? input).map OsText.shown = (stem? input').map OsText.shown) ∧
      ∀ text text' : String, stem? input = some (.ofString text) →
        stem? input' = some (.ofString text') →
        components (forInput input outDir time).grammar =
          components (forInput input' outDir time').grammar →
        time.text = time'.text ∧ stem? input = stem? input' := by
  obtain ⟨stem, hstem, hown, hslash⟩ := exists_of_checkExtension h
  have hshown := OsText.slash_not_mem_shown hslash
  have hgrammar := inside_grammar outDir time hstem hshown
  have hparseTree : Inside outDir (called time stem.shown "-outputparsetree" "dot")
      (forInput input outDir time).parseTree := by
    rw [parseTree_forInput hstem]
    exact inside_called outDir time hshown (by decide) (by decide)
  have hjson : Inside outDir (called time stem.shown "-outputgrammar" "json")
      (forInput input outDir time).json := by
    rw [json_forInput hstem hshown]
    exact inside_called outDir time hshown (by decide) (by decide)
  have hnames := names_nodup time stem
  refine ⟨⟨_, _, _, _, hown, hgrammar, hparseTree, hjson, hnames⟩, ?_, ?_⟩
  · refine List.Nodup.of_map (fun parts => named? (parts.getLastD [])) ?_
    have hfiles := List.Nodup.map (fun _ _ => Option.some.inj) hnames
    simpa only [List.map_cons, List.map_nil, ← fileName?_eq, hown, hgrammar.fileName,
      hparseTree.fileName, hjson.fileName] using hfiles
  · intro time' input' h' ht ht'
    obtain ⟨stem', hstem', -, hslash'⟩ := exists_of_checkExtension h'
    have hshown' := OsText.slash_not_mem_shown hslash'
    have hiff := grammar_eq_iff outDir ht ht' hstem hstem' hshown hshown'
    refine ⟨by simpa [hstem, hstem'] using hiff, fun text text' htext htext' hsame => ?_⟩
    obtain ⟨htimes, hstems⟩ := hiff.1 hsame
    rw [hstem, Option.some.injEq] at htext
    rw [hstem', Option.some.injEq] at htext'
    rw [htext, htext', OsText.shown_ofString, OsText.shown_ofString] at hstems
    exact ⟨htimes, by rw [hstem, hstem', htext, htext', hstems]⟩

/-- A stem that reads like a time and has a dot, after a year of five digits. -/
theorem never_clash_dated :
    let input : OsText := "defs/02-Nov-2023-14:30:00a.b.txt"
    let copy : OsText := "./02-Nov-2023-14:30:00a.b.txt"
    let time : Timestamp := ⟨12023, 11, 2, 14, 30, 60⟩
    checkExtension input = .ok () ∧ checkExtension copy = .ok () ∧ time.second ≤ 60 ∧
      (forInput input "out/" time).grammar =
        "out/02-Nov-+12023-14:30:6002-Nov-2023-14:30:00a.b-outputgrammar.txt" ∧
      ([input, (forInput input "out/" time).grammar, (forInput input "out/" time).parseTree,
        (forInput input "out/" time).json].map components).Nodup ∧
      components (forInput input "out/" time).grammar =
        components (forInput copy "out/" time).grammar ∧ stem? input = stem? copy := by
  intro input copy time
  have h : checkExtension input = .ok () := by decide
  have hcopy : checkExtension copy = .ok () := by decide
  have ht : time.second ≤ 60 := by decide
  have hstem : stem? input = some (.ofString "02-Nov-2023-14:30:00a.b") := by decide
  have hstem' : stem? copy = some (.ofString "02-Nov-2023-14:30:00a.b") := by decide
  have hsame : components (forInput input "out/" time).grammar =
      components (forInput copy "out/" time).grammar := by decide
  obtain ⟨-, hpaths, htold⟩ := never_clash "out/" time h
  have hstems := ((htold time copy hcopy ht ht).2 _ _ hstem hstem' hsame).2
  exact ⟨h, hcopy, ht, by decide, hpaths, hsame, hstems⟩

/-- Two stems that are not UTF-8, and the character by which they are shown. -/
theorem clash_replaced :
    let first : OsText := ⟨0xFF :: (OsText.ofString ".txt").bytes⟩
    let second : OsText := ⟨0xFE :: (OsText.ofString ".txt").bytes⟩
    let third : OsText := "\uFFFD.txt"
    let time : Timestamp := ⟨2024, 3, 7, 9, 5, 1⟩
    (∀ input ∈ [first, second, third], checkExtension input = .ok () ∧
      (forInput input "out" time).grammar =
        "out/07-Mar-2024-09:05:01\uFFFD-outputgrammar.txt") ∧
    ([first, second, third].map stem?).Nodup := by decide

end Formulary.OutputPaths
