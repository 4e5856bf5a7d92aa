import Formulary.Storage.Files

/-!
Journals. A storage that notes every deed and its answer does the same as one that does not, and
what is noted tells what a computation has done to its files.
-/

namespace Formulary

/-- Something done to a storage, with the answer to it. -/
inductive Deed
  | read (path : OsText) (answer : Except Cause ByteArray)
  | write (path : OsText) (contents : String) (answer : Except Cause Unit)
  | append (path : OsText) (contents : String) (answer : Except Cause Unit)
  | makeDir (path : OsText) (answer : Except Cause Unit)
  | isDir (path : OsText) (answer : Bool)

namespace Deed

/-- The file that is written, and whether it could be. -/
def written? : Deed → Option ((OsText × String) × Except Cause Unit)
  | .write path contents answer => some ((path, contents), answer)
  | _ => none

/-- What is added to the end of a file. -/
def appended? : Deed → Option (OsText × String)
  | .append path contents _ => some (path, contents)
  | _ => none

def aboutDir : Deed → Bool
  | .makeDir .. => true
  | .isDir .. => true
  | _ => false

end Deed

variable {σ α β : Type}

/-- Notes the deed that a computation is. -/
def noting (x : StateM σ α) (deed : α → Deed) : StateM (σ × List Deed) α := fun (w, deeds) =>
  let (a, w') := x.run w
  (a, (w', deeds ++ [deed a]))

/-- Runs a computation that has nothing to note. -/
def unnoted (x : StateM σ α) : StateM (σ × List Deed) α := fun (w, deeds) =>
  let (a, w') := x.run w
  (a, (w', deeds))

def Storage.journaled (s : Storage (StateM σ)) : Storage (StateM (σ × List Deed)) where
  read path := noting (s.read path) (.read path)
  write path contents := noting (s.write path contents) (.write path contents)
  append path contents := noting (s.append path contents) (.append path contents)
  makeDir path := noting (s.makeDir path) (.makeDir path)
  isDir path := noting (s.isDir path) (.isDir path)

/-- Whether a computation does from a state on what another one does, and notes deeds that fit the
result. -/
def Notes (w : σ) (x : StateM (σ × List Deed) α) (y : StateM σ α)
    (fits : α → List Deed → Prop) : Prop :=
  ∀ before, ∃ deeds, x.run (w, before) = ((y.run w).1, ((y.run w).2, before ++ deeds)) ∧
    fits (y.run w).1 deeds

namespace Notes

variable {w : σ} {x : StateM (σ × List Deed) α} {y : StateM σ α}
  {f : α → StateM (σ × List Deed) β} {g : α → StateM σ β} {fits fits' : α → List Deed → Prop}

theorem imp (h : Notes w x y fits) (himp : ∀ a deeds, fits a deeds → fits' a deeds) :
    Notes w x y fits' := fun before =>
  let ⟨deeds, hrun, hfits⟩ := h before
  ⟨deeds, hrun, himp _ deeds hfits⟩

theorem pure {a : α} (h : fits a []) : Notes w (pure a) (pure a) fits := fun before =>
  ⟨[], by rw [List.append_nil]; rfl, h⟩

theorem noting (w : σ) (y : StateM σ α) (deed : α → Deed) :
    Notes w (noting y deed) y fun a deeds => deeds = [deed a] := fun _ => ⟨_, rfl, rfl⟩

theorem unnoted (w : σ) (y : StateM σ α) : Notes w (unnoted y) y fun _ deeds => deeds = [] :=
  fun before => ⟨[], by rw [List.append_nil]; rfl, rfl⟩

/-- What a sequence notes is what its first part does, and then its second one. -/
theorem bind {fits' : β → List Deed → Prop} (hx : Notes w x y fits)
    (hf : ∀ a w' deeds, y.run w = (a, w') → fits a deeds →
      Notes w' (f a) (g a) fun b more => fits' b (deeds ++ more)) :
    Notes w (x >>= f) (y >>= g) fits' := by
  intro before
  obtain ⟨deeds, hrun, hfits⟩ := hx before
  rcases hy : y.run w with ⟨a, w'⟩
  rw [hy] at hrun hfits
  obtain ⟨more, hmore, hfits'⟩ := hf a w' deeds hy hfits (before ++ deeds)
  refine ⟨deeds ++ more, ?_, ?_⟩
  · rw [StateT.run_bind, StateT.run_bind, hrun, hy, ← List.append_assoc]
    exact hmore
  · rw [StateT.run_bind, hy]
    exact hfits'

end Notes

namespace Storage

variable (s : Storage (StateM σ)) (w : σ) (path : OsText) (contents : String)

theorem notes_read : Notes w (s.journaled.read path) (s.read path)
    fun answer deeds => deeds = [.read path answer] := .noting w _ _

theorem notes_write : Notes w (s.journaled.write path contents) (s.write path contents)
    fun answer deeds => deeds = [.write path contents answer] := .noting w _ _

theorem notes_append : Notes w (s.journaled.append path contents) (s.append path contents)
    fun answer deeds => deeds = [.append path contents answer] := .noting w _ _

theorem notes_makeDir : Notes w (s.journaled.makeDir path) (s.makeDir path)
    fun answer deeds => deeds = [.makeDir path answer] := .noting w _ _

theorem notes_isDir : Notes w (s.journaled.isDir path) (s.isDir path)
    fun answer deeds => deeds = [.isDir path answer] := .noting w _ _

end Storage

/-! Making directories. -/

/-- What is noted where directories are made: if they cannot be, then the last one that was tried
has failed and is not there. -/
inductive Making : Except Cause Unit → List Deed → Prop
  | made (dirs : List Deed) (about : ∀ d ∈ dirs, d.aboutDir) : Making (.ok ()) dirs
  | failed (dirs : List Deed) (dir : OsText) (cause : Cause) (about : ∀ d ∈ dirs, d.aboutDir) :
      Making (.error cause) (dirs ++ [.makeDir dir (.error cause), .isDir dir false])

namespace Making

variable {result : Except Cause Unit} {dirs deeds : List Deed}

theorem about (h : Making result deeds) : ∀ d ∈ deeds, d.aboutDir := by
  cases h with
  | made _ about => exact about
  | failed dirs dir cause about =>
    exact List.forall_mem_append.2 ⟨about, by simp [Deed.aboutDir]⟩

theorem append (h : Making result deeds) (about : ∀ d ∈ dirs, d.aboutDir) :
    Making result (dirs ++ deeds) := by
  cases h with
  | made _ about' => exact .made _ (List.forall_mem_append.2 ⟨about, about'⟩)
  | failed dirs' dir cause about' =>
    rw [← List.append_assoc]
    exact .failed _ dir cause (List.forall_mem_append.2 ⟨about, about'⟩)

end Making

namespace Storage

variable (s : Storage (StateM σ))

/-- A directory that cannot be made is fine if it is there. -/
theorem notes_settle (dir : OsText) (cause : Cause) (w : σ) :
    Notes w (do if ← s.journaled.isDir dir then return .ok () else return .error cause)
      (do if ← s.isDir dir then return .ok () else return .error cause)
      fun result deeds => Making result (.makeDir dir (.error cause) :: deeds) := by
  refine .bind (s.notes_isDir w dir) ?_
  rintro there w' _ - rfl
  cases there with
  | false => exact .pure (.failed [] dir cause (by simp))
  | true => exact .pure (.made _ (by simp [Deed.aboutDir]))

theorem notes_ensureDirs (dirs : List OsText) (w : σ) :
    Notes w (s.journaled.ensureDirs dirs) (s.ensureDirs dirs) Making := by
  induction dirs generalizing w with
  | nil => exact .pure (.made [] (by simp))
  | cons dir above ih =>
    have habout (answer : Except Cause Unit) : ∀ d ∈ [Deed.makeDir dir answer], d.aboutDir := by
      simp [Deed.aboutDir]
    rw [ensureDirs, ensureDirs]
    refine .bind (s.notes_makeDir w dir) ?_
    rintro made w₁ _ - rfl
    cases made with
    | ok _ => exact .pure (.made _ (habout _))
    | error cause =>
      dsimp only
      split
      · refine .bind (ih w₁) ?_
        rintro result w₂ deeds - habove
        have habove := habove.append (habout (.error cause))
        cases result with
        | error _ => exact .pure (by simpa using habove)
        | ok _ =>
          refine .bind (s.notes_makeDir w₂ dir) ?_
          rintro again w₃ _ - rfl
          cases again with
          | ok _ =>
            have hdir := (Making.made _ (habout (.ok ()))).append habove.about
            exact .pure (by simpa using hdir)
          | error cause' =>
            refine (s.notes_settle dir cause' w₃).imp fun result more h => ?_
            simpa using h.append habove.about
      · exact s.notes_settle dir cause w₁

end Storage

/-! Writing. -/

/-- What is noted where a file is written in a directory that is made if need be. -/
inductive Writing (path : OsText) (contents : String) : Except Cause Unit → List Deed → Prop
  | tried {dirs : List Deed} (place : Making (.ok ()) dirs) (answer : Except Cause Unit) :
      Writing path contents answer (dirs ++ [.write path contents answer])
  | placeless {dirs : List Deed} {cause : Cause} (place : Making (.error cause) dirs) :
      Writing path contents (.error cause) dirs

/-- What is noted where files are written in order, up to the first failure. -/
inductive Writings : List (OsText × String) → Except FileError Unit → List Deed → Prop
  | finish : Writings [] (.ok ()) []
  | next {path : OsText} {contents : String} {rest : List (OsText × String)}
      {result : Except FileError Unit} {deeds more : List Deed}
      (writing : Writing path contents (.ok ()) deeds) (after : Writings rest result more) :
      Writings ((path, contents) :: rest) result (deeds ++ more)
  | stop {path : OsText} {contents : String} {rest : List (OsText × String)} {cause : Cause}
      {deeds : List Deed} (writing : Writing path contents (.error cause) deeds) :
      Writings ((path, contents) :: rest) (.error (.write path cause)) deeds

namespace Writings

variable {outputs more : List (OsText × String)} {result : Except FileError Unit}
  {deeds deeds' : List Deed} {e : FileError}

theorem append (h : Writings outputs (.ok ()) deeds) (h' : Writings more result deeds') :
    Writings (outputs ++ more) result (deeds ++ deeds') := by
  generalize hok : Except.ok () = ok at h
  induction h with
  | finish => exact h'
  | next writing _ ih =>
    rw [List.append_assoc]
    exact .next writing (ih hok)
  | stop _ => cases hok

theorem append_of_error (h : Writings outputs (.error e) deeds) :
    Writings (outputs ++ more) (.error e) deeds := by
  generalize herror : Except.error e = error at h
  induction h with
  | finish => cases herror
  | next writing _ ih => exact .next writing (ih herror)
  | stop writing => exact .stop writing

end Writings

namespace Storage

variable (s : Storage (StateM σ))

theorem notes_writeOutput (path : OsText) (contents : String) (w : σ) :
    Notes w (s.journaled.writeOutput path contents) (s.writeOutput path contents)
      fun result deeds => ∃ answer,
        result = answer.mapError (.write path) ∧ Writing path contents answer deeds := by
  refine .bind (s.notes_ensureDirs (Path.ancestors path) w) ?_
  rintro made w' dirs - hdirs
  cases made with
  | error cause => exact .pure ⟨.error cause, rfl, by simpa using Writing.placeless hdirs⟩
  | ok _ =>
    refine .bind (s.notes_write w' path contents) ?_
    rintro answer w'' _ - rfl
    exact .pure ⟨answer, rfl, .tried hdirs answer⟩

theorem notes_writeOutputs (outputs : List (OsText × String)) (w : σ) :
    Notes w (s.journaled.writeOutputs outputs) (s.writeOutputs outputs) (Writings outputs) := by
  induction outputs generalizing w with
  | nil => exact .pure .finish
  | cons output rest ih =>
    obtain ⟨path, contents⟩ := output
    refine .bind (s.notes_writeOutput path contents w) ?_
    rintro _ w' deeds - ⟨answer, rfl, hwriting⟩
    cases answer with
    | error cause => exact .pure (by simpa using Writings.stop hwriting)
    | ok _ => exact (ih w').imp fun _ _ hrest => .next hwriting hrest

end Storage

/-! What was written. -/

section

variable {path : OsText} {contents : String} {outputs : List (OsText × String)} {cause : Cause}
  {result : Except FileError Unit} {answer : Except Cause Unit} {e : FileError} {deeds : List Deed}

theorem Deed.written?_of_aboutDir {d : Deed} (h : d.aboutDir) : d.written? = none := by
  cases d <;> first | rfl | cases h

theorem Deed.appended?_of_aboutDir {d : Deed} (h : d.aboutDir) : d.appended? = none := by
  cases d <;> first | rfl | cases h

theorem Making.filterMap_written (h : Making answer deeds) :
    deeds.filterMap Deed.written? = [] :=
  List.filterMap_eq_nil_iff.2 fun d hd => Deed.written?_of_aboutDir (h.about d hd)

theorem Making.filterMap_appended (h : Making answer deeds) :
    deeds.filterMap Deed.appended? = [] :=
  List.filterMap_eq_nil_iff.2 fun d hd => Deed.appended?_of_aboutDir (h.about d hd)

theorem Making.exists_of_error (h : Making (.error cause) deeds) :
    ∃ dir, .makeDir dir (.error cause) ∈ deeds ∧ .isDir dir false ∈ deeds := by
  cases h with
  | failed _ dir => exact ⟨dir, by simp⟩

theorem Writing.filterMap_appended (h : Writing path contents answer deeds) :
    deeds.filterMap Deed.appended? = [] := by
  cases h with
  | tried place => rw [List.filterMap_append, place.filterMap_appended]; rfl
  | placeless place => exact place.filterMap_appended

theorem Writing.filterMap_written (h : Writing path contents (.ok ()) deeds) :
    deeds.filterMap Deed.written? = [((path, contents), .ok ())] := by
  cases h with
  | tried place => rw [List.filterMap_append, place.filterMap_written]; rfl

/-- What is not written could not be written, or its directory could not be made. -/
theorem Writing.of_error (h : Writing path contents (.error cause) deeds) :
    deeds.filterMap Deed.written? = [((path, contents), .error cause)] ∨
      deeds.filterMap Deed.written? = [] ∧
        ∃ dir, .makeDir dir (.error cause) ∈ deeds ∧ .isDir dir false ∈ deeds := by
  cases h with
  | tried place => rw [List.filterMap_append, place.filterMap_written]; exact .inl rfl
  | placeless place => exact .inr ⟨place.filterMap_written, place.exists_of_error⟩

theorem Writings.filterMap_appended (h : Writings outputs result deeds) :
    deeds.filterMap Deed.appended? = [] := by
  induction h with
  | finish => rfl
  | next writing _ ih => rw [List.filterMap_append, writing.filterMap_appended, ih]; rfl
  | stop writing => exact writing.filterMap_appended

/-- Where nothing fails, everything is written in order. -/
theorem Writings.of_ok (h : Writings outputs (.ok ()) deeds) :
    deeds.filterMap Deed.written? = outputs.map (·, .ok ()) := by
  generalize hok : Except.ok () = ok at h
  induction h with
  | finish => rfl
  | next writing _ ih =>
    rw [List.filterMap_append, writing.filterMap_written, ih hok]
    rfl
  | stop _ => cases hok

/-- Where something fails, what comes before it is written, and nothing that comes after it. -/
theorem Writings.of_error (h : Writings outputs (.error e) deeds) :
    ∃ done path contents later cause, outputs = done ++ (path, contents) :: later ∧
      e = .write path cause ∧
      (deeds.filterMap Deed.written? = done.map (·, .ok ()) ++ [((path, contents), .error cause)] ∨
        deeds.filterMap Deed.written? = done.map (·, .ok ()) ∧
          ∃ dir, .makeDir dir (.error cause) ∈ deeds ∧ .isDir dir false ∈ deeds) := by
  generalize herror : Except.error e = error at h
  induction h with
  | finish => cases herror
  | @next path' contents' rest result deeds more writing _ ih =>
    obtain ⟨done, path, contents, later, cause, rfl, he, hfailed⟩ := ih herror
    refine ⟨(path', contents') :: done, path, contents, later, cause, rfl, he, ?_⟩
    rw [List.filterMap_append, writing.filterMap_written]
    refine hfailed.imp (fun hwritten => ?_) fun ⟨hwritten, dir, hmade, hthere⟩ => ⟨?_, dir, ?_, ?_⟩
    · rw [hwritten]
      rfl
    · rw [hwritten]
      rfl
    · exact List.mem_append_right deeds hmade
    · exact List.mem_append_right deeds hthere
  | @stop path contents rest cause deeds writing =>
    cases herror
    exact ⟨[], path, contents, rest, cause, rfl, rfl, writing.of_error⟩

end

/-! Reading. -/

/-- The lines that a path and what is found there give. -/
def readLines (path : OsText) (answer : Except Cause ByteArray) :
    Except FileError (List String) := do
  checkExtension path
  match answer with
  | .error cause => .error (.read path cause)
  | .ok bytes =>
    match String.fromUTF8? bytes with
    | none => .error (.read path .invalidUtf8)
    | some text => .ok (Text.linesOf text)

namespace Storage

variable (s : Storage (StateM σ))

theorem notes_readDefinition (path : OsText) (w : σ) :
    Notes w (s.journaled.readDefinition path) (s.readDefinition path) fun reading deeds =>
      reading.result = (readLines path ((s.read path).run w).1).mapError .file ∧
        (deeds = [] ∨ ∃ answer, deeds = [.read path answer]) := by
  rw [readDefinition, readDefinition]
  unfold readLines
  cases checkExtension path with
  | error e => exact .pure ⟨rfl, .inl rfl⟩
  | ok _ =>
    refine .bind (s.notes_read w path) ?_
    rintro answer w' _ hanswer rfl
    rw [hanswer]
    have hdeeds : [Deed.read path answer] ++ [] = [] ∨
        ∃ answer', [Deed.read path answer] ++ [] = [.read path answer'] := .inr ⟨answer, rfl⟩
    cases answer with
    | error cause => exact .pure ⟨rfl, hdeeds⟩
    | ok bytes =>
      dsimp only
      cases String.fromUTF8? bytes with
      | none => exact .pure ⟨rfl, hdeeds⟩
      | some text => exact .pure ⟨rfl, hdeeds⟩

theorem notes_logFile (path : OsText) (r : Record) (w : σ) :
    Notes w ((s.journaled.logFile path).record r) ((s.logFile path).record r)
      fun _ deeds => ∃ answer, deeds = [.append path (r.line ++ "\n") answer] := by
  refine .bind (s.notes_append w path (r.line ++ "\n")) ?_
  rintro answer w' _ - rfl
  cases answer with
  | ok _ => exact .pure ⟨_, rfl⟩
  | error cause => exact .pure ⟨_, rfl⟩

end Storage

end Formulary
