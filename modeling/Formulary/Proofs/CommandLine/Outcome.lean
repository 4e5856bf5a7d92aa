import Formulary.CommandLine.Command
import Formulary.Proofs.Diagnostics.Log
import Formulary.Proofs.Storage.Journal
import Formulary.Storage.Disk

/-!
How a command ends. If it begins at all then, whatever its files answer, it leaves one record if a
stage fails, and writes nothing; else it leaves a record of its success, writes its outputs in
order, and leaves a second record if one of them cannot be written.
-/

namespace Formulary

variable {σ : Type}

def Host.journaled (host : Host (StateM σ)) : Host (StateM (σ × List Deed)) where
  storage := host.storage.journaled
  now := unnoted host.now
  writesJson := host.writesJson

namespace Arguments

variable (a : Arguments) (host : Host (StateM σ))

/-- What reading, validating, checking and parsing give, by what is found where the input is. -/
def stages (answer : Except Cause ByteArray) : Except Failure Analysis := do
  let lines ← (readLines a.input answer).mapError .file
  (Definition.ofLines lines).stages a.limit

/-- The files that are asked for, and what they are to hold. -/
def outputs (x : Analysis) (time : Timestamp) : List (OsText × String) :=
  let paths := OutputPaths.forInput a.input a.outDir time
  [(paths.grammar, x.grammar.report a.inputName), (paths.parseTree, x.tree.toDot)] ++
    if a.json then [(paths.json, (x.report a.inputName).pretty)] else []

/-- What is noted where a record is left: a line is added to the log, if there is one. -/
def Logs (r : Record) (deeds : List Deed) : Prop :=
  if a.noLog then deeds = [] else ∃ answer, deeds = [.append a.log (r.line ++ "\n") answer]

/-! Part by part. -/

theorem notes_record (r : Record) (w : σ) :
    Notes w ((a.pipeline host.journaled).sink.record r) ((a.pipeline host).sink.record r)
      fun _ deeds => a.Logs r deeds := by
  unfold pipeline Logs
  split
  · exact .pure rfl
  · exact host.storage.notes_logFile a.log r w

theorem notes_conclude (work : Traced Analysis) (w : σ) :
    Notes w ((a.pipeline host.journaled).conclude work) ((a.pipeline host).conclude work)
      fun ran deeds => ran.result = work.result ∧ ran.record.Reports a.inputName work.result ∧
        a.Logs ran.record deeds := by
  refine .bind (.unnoted w host.now) ?_
  rintro time w' _ - rfl
  refine .bind (a.notes_record host (a.runOptions.recordOf time work.result) w') ?_
  rintro events w'' deeds - hlogs
  refine .pure ⟨rfl, a.runOptions.reports_recordOf time work.result, ?_⟩
  rw [List.nil_append, List.append_nil]
  exact hlogs

theorem notes_runLines (lines : List String) (w : σ) :
    Notes w ((a.pipeline host.journaled).runLines lines) ((a.pipeline host).runLines lines)
      fun ran deeds => ran.result = ((Definition.ofLines lines).analyze a.limit).result ∧
        ran.record.Reports a.inputName ((Definition.ofLines lines).analyze a.limit).result ∧
        a.Logs ran.record deeds :=
  a.notes_conclude host (do (← Definition.load lines).analyze a.limit) w

theorem notes_recordFailure (f : Failure) (w : σ) :
    Notes w ((a.pipeline host.journaled).recordFailure f) ((a.pipeline host).recordFailure f)
      fun left deeds => left.1.Reports a.inputName (.error f) ∧ a.Logs left.1 deeds := by
  refine .bind (.unnoted w host.now) ?_
  rintro time w' _ - rfl
  refine .bind (a.notes_record host (a.runOptions.failureRecord time f) w') ?_
  rintro events w'' deeds - hlogs
  refine .pure ⟨⟨rfl, rfl, rfl⟩, ?_⟩
  rw [List.nil_append, List.append_nil]
  exact hlogs

theorem notes_abort (t : Transcript) (f : Failure) (w : σ) :
    Notes w (a.abort host.journaled t f) (a.abort host t f) fun t' deeds =>
      ∃ r, r.Reports a.inputName (.error f) ∧ a.Logs r deeds ∧
        t'.records = t.records ++ [r] ∧ t'.stdout = t.stdout ∧ t'.error = some (.failure f) := by
  refine .bind (a.notes_recordFailure host f w) ?_
  rintro ⟨r, events⟩ w' deeds - ⟨hreports, hlogs⟩
  rw [← List.append_nil deeds] at hlogs
  exact .pure ⟨r, hreports, hlogs, rfl, rfl, rfl⟩

theorem notes_writeAnalysis (x : Analysis) (w : σ) :
    Notes w (a.writeAnalysis host.journaled x) (a.writeAnalysis host x) fun writing deeds =>
      ∃ time result, writing.result = result.mapError .file ∧
        Writings (a.outputs x time) result deeds := by
  refine .bind (.unnoted w host.now) ?_
  rintro time w₁ _ - rfl
  refine .bind (host.storage.notes_writeOutputs _ w₁) ?_
  rintro result w₂ deeds - hwritings
  cases result with
  | error e =>
    rw [← List.append_nil deeds] at hwritings
    exact .pure ⟨time, .error e, rfl, hwritings.append_of_error⟩
  | ok _ =>
    refine .bind (host.storage.notes_writeOutputs _ w₂) ?_
    rintro result w₃ more - hmore
    rw [← List.append_nil more] at hmore
    exact .pure ⟨time, result, rfl, hwritings.append hmore⟩

/-! A whole command. -/

/-- What is noted where the input is read. -/
def Reads (deeds : List Deed) : Prop := deeds = [] ∨ ∃ answer, deeds = [.read a.input answer]

/-- How a command goes on, by what its stages give: what it tells in the end, and what is noted. -/
inductive Course : Except Failure Analysis → Transcript → List Deed → Prop
  | refused {f : Failure} {t : Transcript} {r : Record} {reading log : List Deed}
      (reads : a.Reads reading) (reports : r.Reports a.inputName (.error f)) (logs : a.Logs r log)
      (records : t.records = [r]) (stdout : t.stdout = "") (error : t.error = some (.failure f)) :
      Course (.error f) t (reading ++ log)
  | written {x : Analysis} {time : Timestamp} {t : Transcript} {r : Record}
      {reading log writing : List Deed}
      (reads : a.Reads reading) (reports : r.Reports a.inputName (.ok x)) (logs : a.Logs r log)
      (writes : Writings (a.outputs x time) (.ok ()) writing)
      (records : t.records = [r]) (stdout : t.stdout = a.printed x) (error : t.error = none) :
      Course (.ok x) t (reading ++ (log ++ writing))
  | unwritten {x : Analysis} {time : Timestamp} {e : FileError} {t : Transcript} {r r' : Record}
      {reading log writing log' : List Deed}
      (reads : a.Reads reading) (reports : r.Reports a.inputName (.ok x)) (logs : a.Logs r log)
      (writes : Writings (a.outputs x time) (.error e) writing)
      (reports' : r'.Reports a.inputName (.error (.file e))) (logs' : a.Logs r' log')
      (records : t.records = [r, r']) (stdout : t.stdout = "")
      (error : t.error = some (.failure (.file e))) :
      Course (.ok x) t (reading ++ (log ++ (writing ++ log')))

theorem notes_process (w : σ) :
    Notes w (a.process host.journaled) (a.process host)
      (a.Course (a.stages ((host.storage.read a.input).run w).1)) := by
  refine .bind (host.storage.notes_readDefinition a.input w) ?_
  rintro reading w₁ deeds - ⟨hresult, hreads⟩
  cases hlines : readLines a.input ((host.storage.read a.input).run w).1 with
  | error e =>
    rw [hlines] at hresult
    rw [stages, hlines]
    simp only [hresult, Except.mapError]
    refine (a.notes_abort host _ (.file e) w₁).imp ?_
    rintro t more ⟨r, hreports, hlogs, hrecords, hstdout, herror⟩
    exact .refused hreads hreports hlogs hrecords hstdout herror
  | ok lines =>
    rw [hlines] at hresult
    have hstages : a.stages ((host.storage.read a.input).run w).1 =
        ((Definition.ofLines lines).analyze a.limit).result := by
      rw [stages, hlines, Definition.result_analyze]
      rfl
    rw [hstages]
    simp only [hresult, Except.mapError]
    refine .bind (a.notes_runLines host lines w₁) ?_
    rintro ran w₂ log - ⟨hran, hreports, hlogs⟩
    rw [← hran] at hreports ⊢
    cases hanalysis : ran.result with
    | error f =>
      rw [hanalysis] at hreports
      rw [← List.append_nil log] at hlogs
      exact .pure (.refused hreads hreports hlogs rfl rfl rfl)
    | ok x =>
      rw [hanalysis] at hreports
      refine .bind (a.notes_writeAnalysis host x w₂) ?_
      rintro writing w₃ more - ⟨time, result, hwriting, hwritings⟩
      cases result with
      | error e =>
        simp only [hwriting, Except.mapError]
        refine (a.notes_abort host _ (.file e) w₃).imp ?_
        rintro t log' ⟨r', hreports', hlogs', hrecords, hstdout, herror⟩
        exact .unwritten hreads hreports hlogs hwritings hreports' hlogs' hrecords hstdout herror
      | ok _ =>
        simp only [hwriting, Except.mapError]
        rw [← List.append_nil more] at hwritings
        exact .pure (.written hreads hreports hlogs hwritings rfl rfl rfl)

/-! What is told in the end. -/

/-- Whether a command ends as one that asks for JSON of a program that does not write it: before it
begins. -/
structure Declines (t : Transcript) (deeds : List Deed) : Prop where
  unrecorded : t.records = []
  untouched : deeds = []
  silent : t.stdout = ""
  exitCode : t.exitCode = 1

/-- Whether a command ends as it does when a stage fails: with one record of the failure, and
without an output or a directory for one. -/
structure Refuses (f : Failure) (t : Transcript) (deeds : List Deed) : Prop where
  record : ∃ r, t.records = [r] ∧ r.Reports a.inputName (.error f)
  unwritten : ∀ d ∈ deeds, d.written? = none ∧ ¬ d.aboutDir
  silent : t.stdout = ""
  exitCode : t.exitCode = 1

/-- Whether a command ends as it does when all goes well: with one record, all outputs written,
and the message printed, behind the grammar and the tree if they are asked for. -/
structure Succeeds (x : Analysis) (t : Transcript) (deeds : List Deed) : Prop where
  record : ∃ r, t.records = [r] ∧ r.Reports a.inputName (.ok x)
  written : ∃ time, deeds.filterMap Deed.written? = (a.outputs x time).map (·, .ok ())
  printed : t.stdout =
    (if a.print then x.grammar.report a.inputName ++ "\n" ++ x.tree.render ++ "\n" else "") ++
      "FO formula parsed successfully\n"
  exitCode : t.exitCode = 0

/-- Whether a command ends as it does when an output cannot be written: with a record of success
and one of this failure, the outputs before it written, and none tried after it. -/
structure Breaks (x : Analysis) (path : OsText) (cause : Cause) (t : Transcript)
    (deeds : List Deed) : Prop where
  records : ∃ r r', t.records = [r, r'] ∧ r.Reports a.inputName (.ok x) ∧
    r'.Reports a.inputName (.error (.file (.write path cause)))
  written : ∃ time done contents later, a.outputs x time = done ++ (path, contents) :: later ∧
    (deeds.filterMap Deed.written? = done.map (·, .ok ()) ++ [((path, contents), .error cause)] ∨
      deeds.filterMap Deed.written? = done.map (·, .ok ()) ∧
        ∃ dir, .makeDir dir (.error cause) ∈ deeds ∧ .isDir dir false ∈ deeds)
  silent : t.stdout = ""
  exitCode : t.exitCode = 1

section

variable {a} {r : Record} {t : Transcript} {deeds : List Deed} {f : Failure} {x : Analysis}
  {stages : Except Failure Analysis}

theorem Reads.eq_none (h : a.Reads deeds) :
    ∀ d ∈ deeds, d.written? = none ∧ d.appended? = none ∧ ¬ d.aboutDir := by
  rcases h with rfl | ⟨answer, rfl⟩ <;> simp [Deed.written?, Deed.appended?, Deed.aboutDir]

theorem Logs.eq_none (h : a.Logs r deeds) : ∀ d ∈ deeds, d.written? = none ∧ ¬ d.aboutDir := by
  unfold Logs at h
  split at h
  · simp [h]
  · obtain ⟨answer, rfl⟩ := h
    simp [Deed.written?, Deed.aboutDir]

theorem Logs.filterMap_appended (h : a.Logs r deeds) :
    deeds.filterMap Deed.appended? = if a.noLog then [] else [(a.log, r.line ++ "\n")] := by
  unfold Logs at h
  split at h
  · next hlog =>
    rw [h, if_pos hlog]
    rfl
  · next hlog =>
    obtain ⟨answer, rfl⟩ := h
    rw [if_neg hlog]
    rfl

theorem Reads.filterMap_appended (h : a.Reads deeds) : deeds.filterMap Deed.appended? = [] :=
  List.filterMap_eq_nil_iff.2 fun d hd => (h.eq_none d hd).2.1

theorem Reads.filterMap_written (h : a.Reads deeds) : deeds.filterMap Deed.written? = [] :=
  List.filterMap_eq_nil_iff.2 fun d hd => (h.eq_none d hd).1

theorem Logs.filterMap_written (h : a.Logs r deeds) : deeds.filterMap Deed.written? = [] :=
  List.filterMap_eq_nil_iff.2 fun d hd => (h.eq_none d hd).1

theorem printed_eq (a : Arguments) (x : Analysis) : a.printed x =
    (if a.print then x.grammar.report a.inputName ++ "\n" ++ x.tree.render ++ "\n" else "") ++
      "FO formula parsed successfully\n" := by
  rw [printed, successMessage, String.append_assoc]
  rfl

namespace Course

theorem refuses (h : a.Course (.error f) t deeds) : a.Refuses f t deeds := by
  cases h with
  | @refused _ _ r _ _ reads reports logs records stdout error =>
    refine ⟨⟨r, records, reports⟩, fun d hd => ?_, stdout, by simp [Transcript.exitCode, error]⟩
    rcases List.mem_append.1 hd with hd | hd
    · exact ⟨(reads.eq_none d hd).1, (reads.eq_none d hd).2.2⟩
    · exact logs.eq_none d hd

theorem succeeds_or_breaks (h : a.Course (.ok x) t deeds) :
    a.Succeeds x t deeds ∨ ∃ path cause, a.Breaks x path cause t deeds := by
  cases h with
  | @written _ time _ r _ _ _ reads reports logs writes records stdout error =>
    rw [printed_eq] at stdout
    refine .inl ⟨⟨r, records, reports⟩, ⟨time, ?_⟩, stdout, by simp [Transcript.exitCode, error]⟩
    rw [List.filterMap_append, List.filterMap_append, reads.filterMap_written,
      logs.filterMap_written, writes.of_ok]
    rfl
  | @unwritten _ time _ _ r r' _ _ _ _ reads reports logs writes reports' logs' records stdout
      error =>
    obtain ⟨done, path, contents, later, cause, houtputs, rfl, hfailed⟩ := writes.of_error
    refine .inr ⟨path, cause, ⟨r, r', records, reports, reports'⟩,
      ⟨time, done, contents, later, houtputs, ?_⟩, stdout, by simp [Transcript.exitCode, error]⟩
    simp only [List.filterMap_append, reads.filterMap_written, logs.filterMap_written,
      logs'.filterMap_written, List.nil_append, List.append_nil]
    refine hfailed.imp_right fun ⟨hwritten, dir, hmade, hthere⟩ => ⟨hwritten, dir, ?_, ?_⟩
    · simp [hmade]
    · simp [hthere]

theorem exitCode_eq_zero_iff (h : a.Course stages t deeds) :
    t.exitCode = 0 ↔ ∃ r, t.records.getLast? = some r ∧ r.status = .ok := by
  cases h with
  | refused _ reports _ records _ error =>
    simp [Transcript.exitCode, error, records, reports.2.1]
  | written _ reports _ _ records _ error =>
    simp [Transcript.exitCode, error, records, reports.2.1]
  | unwritten _ _ _ _ reports' _ records _ error =>
    simp [Transcript.exitCode, error, records, reports'.2.1]

/-- The log gets a line for each record. -/
theorem filterMap_appended (h : a.Course stages t deeds) :
    deeds.filterMap Deed.appended? =
      if a.noLog then [] else t.records.map fun r => (a.log, r.line ++ "\n") := by
  cases h with
  | refused reads _ logs records =>
    rw [List.filterMap_append, reads.filterMap_appended, logs.filterMap_appended, records]
    rfl
  | written reads _ logs writes records =>
    rw [List.filterMap_append, List.filterMap_append, reads.filterMap_appended,
      logs.filterMap_appended, writes.filterMap_appended, records, List.append_nil]
    rfl
  | unwritten reads _ logs writes _ logs' records =>
    simp only [List.filterMap_append, reads.filterMap_appended, logs.filterMap_appended,
      writes.filterMap_appended, logs'.filterMap_appended, records]
    split_ifs <;> rfl

end Course

end

/-- A command that asks for JSON of a program that does not write it ends before it begins. Any
other command ends in one of three ways, whatever its files answer: as one that a stage refuses, as
one that succeeds, or as one of which an output cannot be written. The exit code is zero exactly if
the last record tells of a success. -/
theorem run_outcome (a : Arguments) (host : Host (StateM σ)) (w : σ) :
    ∃ t w' deeds, (a.run host).run w = (t, w') ∧
      (a.run host.journaled).run (w, []) = (t, (w', deeds)) ∧
      (a.json = true → host.writesJson = false → Declines t deeds) ∧
      ((a.json = true → host.writesJson = true) →
        (∀ f, a.stages ((host.storage.read a.input).run w).1 = .error f → a.Refuses f t deeds) ∧
        ∀ x, a.stages ((host.storage.read a.input).run w).1 = .ok x →
          a.Succeeds x t deeds ∨ ∃ path cause, a.Breaks x path cause t deeds) ∧
      (t.exitCode = 0 ↔ ∃ r, t.records.getLast? = some r ∧ r.status = .ok) ∧
      deeds.filterMap Deed.appended? =
        if a.noLog then [] else t.records.map fun r => (a.log, r.line ++ "\n") := by
  have hjournaled : host.journaled.writesJson = host.writesJson := rfl
  rw [run, run, hjournaled]
  split
  · next hdeclined =>
    obtain ⟨hjson, hwritesJson⟩ : a.json = true ∧ host.writesJson = false := by
      simpa using hdeclined
    refine ⟨_, _, [], rfl, rfl, fun _ _ => ⟨rfl, rfl, rfl, rfl⟩, fun h => ?_, ?_, ?_⟩
    · exact absurd (h hjson) (by simp [hwritesJson])
    · simp [Transcript.exitCode]
    · simp
  · next hbegun =>
    obtain ⟨deeds, hrun, hcourse⟩ := a.notes_process host w []
    refine ⟨_, _, deeds, rfl, hrun, fun hjson hwritesJson => ?_, fun _ => ⟨fun f hf => ?_,
      fun x hx => ?_⟩, hcourse.exitCode_eq_zero_iff, hcourse.filterMap_appended⟩
    · exact absurd (by simp [hjson, hwritesJson]) hbegun
    · rw [hf] at hcourse
      exact hcourse.refuses
    · rw [hx] at hcourse
      exact hcourse.succeeds_or_breaks

section

variable {a : Arguments} {outcome : Except Failure Analysis} {t : Transcript} {deeds : List Deed}

/-- Of the ways to end, only a success has exit code zero. -/
theorem exists_succeeds
    (h : (∀ f, outcome = .error f → a.Refuses f t deeds) ∧ ∀ x, outcome = .ok x →
      a.Succeeds x t deeds ∨ ∃ path cause, a.Breaks x path cause t deeds)
    (hexit : t.exitCode = 0) : ∃ x, a.Succeeds x t deeds := by
  cases outcome with
  | error f => exact absurd ((h.1 f rfl).exitCode.symm.trans hexit) (by decide)
  | ok x =>
    rcases h.2 x rfl with hsucceeds | ⟨path, cause, hbreaks⟩
    · exact ⟨x, hsucceeds⟩
    · exact absurd (hbreaks.exitCode.symm.trans hexit) (by decide)

/-- Of the ways to end, only that of an output which cannot be written leaves two records. -/
theorem exists_breaks
    (h : (∀ f, outcome = .error f → a.Refuses f t deeds) ∧ ∀ x, outcome = .ok x →
      a.Succeeds x t deeds ∨ ∃ path cause, a.Breaks x path cause t deeds)
    (hrecords : t.records.length = 2) : ∃ x path cause, a.Breaks x path cause t deeds := by
  cases outcome with
  | error f =>
    obtain ⟨r, hr, -⟩ := (h.1 f rfl).record
    rw [hr] at hrecords
    cases hrecords
  | ok x =>
    rcases h.2 x rfl with hsucceeds | ⟨path, cause, hbreaks⟩
    · obtain ⟨r, hr, -⟩ := hsucceeds.record
      rw [hr] at hrecords
      cases hrecords
    · exact ⟨x, path, cause, hbreaks⟩

end

def sampleHost : Host (StateM Disk) :=
  { storage := Disk.storage, now := pure ⟨2024, 3, 7, 9, 5, 1⟩ }

/-- A disk with a definition, and with a file where its outputs are to go. -/
def sampleDisk : Disk where
  entries :=
    [(["a.txt"], .file ("constants: c\nequality: =\nconnectives: and or if iff not\n" ++
        "quantifiers: all some\nformula: (c = c)").toUTF8),
      (["out"], .file .empty)]

/-- Where there is no definition it cannot be read, in the working directory all goes well, below a
file no output can be written, and a program without JSON does not begin if that is asked for. -/
theorem run_outcome_sample :
    (∃ t d deeds, (run { input := "b.txt" } sampleHost).run sampleDisk = (t, d) ∧
      Refuses { input := "b.txt" } (.file (.read "b.txt" .notFound)) t deeds) ∧
    (∃ x t d deeds, (run { input := "a.txt" } sampleHost).run sampleDisk = (t, d) ∧
      Succeeds { input := "a.txt" } x t deeds ∧ t.stdout = "FO formula parsed successfully\n") ∧
    (∃ x t d deeds path cause,
      (run { input := "a.txt", outDir := "out" } sampleHost).run sampleDisk = (t, d) ∧
        Breaks { input := "a.txt", outDir := "out" } x path cause t deeds) ∧
    ∃ t d deeds, (run { input := "a.txt", json := true }
        { sampleHost with writesJson := false }).run sampleDisk = (t, d) ∧ Declines t deeds := by
  refine ⟨?_, ?_, ?_, ?_⟩
  · obtain ⟨t, d, deeds, hrun, -, -, hends, -⟩ :=
      run_outcome { input := "b.txt" } sampleHost sampleDisk
    exact ⟨t, d, deeds, hrun, (hends fun _ => rfl).1 _ rfl⟩
  · obtain ⟨t, d, deeds, hrun, -, -, hends, -⟩ :=
      run_outcome { input := "a.txt" } sampleHost sampleDisk
    have hexit : t.exitCode = 0 := by
      have heq := congrArg (·.1.exitCode) hrun
      exact heq.symm.trans (by decide +kernel)
    obtain ⟨x, hsucceeds⟩ := exists_succeeds (hends fun _ => rfl) hexit
    exact ⟨x, t, d, deeds, hrun, hsucceeds, hsucceeds.printed⟩
  · obtain ⟨t, d, deeds, hrun, -, -, hends, -⟩ :=
      run_outcome { input := "a.txt", outDir := "out" } sampleHost sampleDisk
    have hrecords : t.records.length = 2 := by
      have heq := congrArg (·.1.records.length) hrun
      exact heq.symm.trans (by decide +kernel)
    obtain ⟨x, path, cause, hbreaks⟩ := exists_breaks (hends fun _ => rfl) hrecords
    exact ⟨x, t, d, deeds, path, cause, hrun, hbreaks⟩
  · obtain ⟨t, d, deeds, hrun, -, hdeclines, -⟩ :=
      run_outcome { input := "a.txt", json := true } { sampleHost with writesJson := false }
        sampleDisk
    exact ⟨t, d, deeds, hrun, hdeclines rfl rfl⟩

end Arguments

end Formulary
