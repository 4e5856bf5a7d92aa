import Formulary.Proofs.Diagnostics.Plain
import Formulary.Proofs.Grammar.Language
import Formulary.Storage.Files

/-!
Logs. Every run leaves one record, in whichever stage it ends, and a log with a line for each
record is read back run by run.
-/

namespace Formulary

theorem Definition.analyze_sampleText :
    ∃ x, ((ofText sampleText).analyze defaultLimit).result = .ok x := by
  refine ⟨_, analyze_eq_ok_iff.2
    ⟨.sample, Formula.sample.tree.arena, validate_sampleText, ?_, ?_, rfl⟩⟩
  · rw [read_sampleText.2]
    rfl
  · rw [read_sampleText.2]
    rfl

/-! Stage by stage. -/

namespace Pipeline

variable {m : Type → Type} [Monad m]

/-- Hands on what a stage gives; a failure leaves a record on its way. -/
def report {α ε : Type} (p : Pipeline m) (wrap : ε → Failure) : Except ε α → ExceptT Failure m α
  | .ok a => pure a
  | .error e => do
    let _ ← p.recordFailure (wrap e)
    throw (wrap e)

/-- A run in which every stage reports its own failure, and a success is recorded at the end. -/
def runStages (p : Pipeline m) (d : Definition) : ExceptT Failure m Analysis := do
  let a ← p.report .alphabet d.declaration.validate
  p.report .formula (checkStructure a.toSignature d.formula)
  let tree ← p.report .parse (parse a p.options.limit d.formula)
  let _ ← p.sink.record ⟨← p.now, p.options.input, .ok, successMessage⟩
  return { alphabet := a, tokens := d.formula, tree, grammar := a.grammar }

variable {α β ε : Type}

theorem report_ok (p : Pipeline m) (wrap : ε → Failure) (a : α) :
    p.report wrap (.ok a) = pure a := rfl

variable [LawfulMonad m]

/-- A reported failure is recorded and ends what was to follow. -/
theorem run_report_error (p : Pipeline m) (wrap : ε → Failure) (e : ε)
    (f : α → ExceptT Failure m β) :
    (p.report wrap (.error e) >>= f).run = (do
      let time ← p.now
      let _ ← p.sink.record (p.options.recordOf time (.error (wrap e) : Except Failure β))
      return .error (wrap e)) := by
  simp [report, recordFailure, RunOptions.recordOf, ExceptT.run_bind]

theorem result_conclude_eq (p : Pipeline m) {work : Traced α} {result : Except Failure α}
    (h : work.result = result) :
    (·.result) <$> p.conclude work = (do
      let time ← p.now
      let _ ← p.sink.record (p.options.recordOf time result)
      return result) := by
  simp [conclude, h]

/-- It makes no difference whether every stage reports its own failure or one record is left at the
end: either way a run leaves one record, whatever ends it. -/
theorem run_runStages (p : Pipeline m) (d : Definition) :
    (p.runStages d).run = (·.result) <$> p.runDefinition d := by
  rw [runStages, runDefinition]
  cases hvalidate : d.declaration.validate with
  | error e =>
    have hresult : (d.analyze p.options.limit).result = .error (.alphabet e) :=
      Definition.analyze_eq_error_iff.2 (.inl ⟨e, hvalidate, rfl⟩)
    rw [run_report_error, p.result_conclude_eq hresult]
  | ok a =>
    rw [report_ok, pure_bind]
    cases hstructure : checkStructure a.toSignature d.formula with
    | error e =>
      have hresult : (d.analyze p.options.limit).result = .error (.formula e) :=
        Definition.analyze_eq_error_iff.2 (.inr ⟨a, hvalidate, .inl ⟨e, hstructure, rfl⟩⟩)
      rw [run_report_error, p.result_conclude_eq hresult]
    | ok _ =>
      rw [report_ok, pure_bind]
      cases hparse : parse a p.options.limit d.formula with
      | error e =>
        have hresult : (d.analyze p.options.limit).result = .error (.parse e) :=
          Definition.analyze_eq_error_iff.2 (.inr ⟨a, hvalidate, .inr ⟨hstructure, e, hparse, rfl⟩⟩)
        rw [run_report_error, p.result_conclude_eq hresult]
      | ok tree =>
        have hresult := Definition.analyze_eq_ok_iff.2 ⟨a, tree, hvalidate, hstructure, hparse, rfl⟩
        rw [report_ok, pure_bind, p.result_conclude_eq hresult]
        simp [ExceptT.run_bind, RunOptions.recordOf, Except.map]

theorem run_runStages_ofText (p : Pipeline m) (text : String) :
    (p.runStages (Definition.ofText text)).run = (·.result) <$> p.runText text := by
  rw [run_runStages, runDefinition, runText, runLines, p.result_conclude_eq rfl,
    p.result_conclude_eq rfl]
  rfl

end Pipeline

/-! Records of runs that share a sink. -/

variable {σ : Type}

/-- What a sink makes of records that arrive one after the other. -/
def Sink.receive (sink : Sink (StateM σ)) (records : List Record) (w : σ) : σ :=
  records.foldl (fun w r => ((sink.record r).run w).2) w

/-- Whether a record tells how a run on an input ended. -/
def Record.Reports (r : Record) (input : String) : Except Failure Analysis → Prop
  | .ok _ => r.input = input ∧ r.status = .ok ∧ r.message = "FO formula parsed successfully"
  | .error f => r.input = input ∧ r.status = .err ∧ r.message = f.message

theorem RunOptions.reports_recordOf (o : RunOptions) (time : Timestamp)
    (result : Except Failure Analysis) : (o.recordOf time result).Reports o.input result := by
  cases result with
  | ok _ => exact ⟨rfl, rfl, rfl⟩
  | error f => exact ⟨rfl, rfl, rfl⟩

theorem RunOptions.time_recordOf {α : Type} (o : RunOptions) (time : Timestamp)
    (result : Except Failure α) : (o.recordOf time result).time = time := by
  cases result <;> rfl

/-- A run to be made on a text. -/
structure Request where
  time : Timestamp
  options : RunOptions
  text : String

namespace Request

variable {m : Type → Type} [Monad m]

def run (sink : Sink m) (r : Request) : m (Run Analysis) :=
  Pipeline.runText ⟨r.options, pure r.time, sink⟩ r.text

/-- The run in which every stage reports its own failure. -/
def runStages (sink : Sink m) (r : Request) : m (Except Failure Analysis) :=
  (Pipeline.runStages ⟨r.options, pure r.time, sink⟩ (Definition.ofText r.text)).run

def result (r : Request) : Except Failure Analysis :=
  ((Definition.ofText r.text).analyze r.options.limit).result

def record (r : Request) : Record := r.options.recordOf r.time r.result

/-- A run gives its sink one record. -/
theorem run_run (sink : Sink (StateM σ)) (r : Request) (w : σ) :
    ∃ events, (r.run sink).run w =
      (⟨⟨events, r.result⟩, r.record⟩, ((sink.record r.record).run w).2) :=
  ⟨_, rfl⟩

/-- Runs one after the other each give their sink one record, in this order. -/
theorem run_mapM (sink : Sink (StateM σ)) (requests : List Request) (w : σ) :
    ∃ runs, (requests.mapM (run sink)).run w = (runs, sink.receive (requests.map record) w) ∧
      runs.map (·.result) = requests.map result ∧ runs.map (·.record) = requests.map record := by
  induction requests generalizing w with
  | nil => exact ⟨[], rfl, rfl, rfl⟩
  | cons r requests ih =>
    obtain ⟨events, hrun⟩ := run_run sink r w
    obtain ⟨runs, hruns, hresults, hrecords⟩ := ih ((sink.record r.record).run w).2
    refine ⟨⟨⟨events, r.result⟩, r.record⟩ :: runs, ?_, ?_, ?_⟩
    · rw [List.mapM_cons, StateT.run_bind, hrun]
      change (requests.mapM (run sink) >>= fun more => pure (_ :: more)).run _ = _
      rw [StateT.run_bind, hruns]
      rfl
    · rw [List.map_cons, hresults, List.map_cons]
    · rw [List.map_cons, hrecords, List.map_cons]

theorem mapM_runStages [LawfulMonad m] (sink : Sink m) (requests : List Request) :
    requests.mapM (runStages sink) = List.map (·.result) <$> requests.mapM (run sink) := by
  induction requests with
  | nil => simp
  | cons r requests ih =>
    have hr : r.runStages sink = (·.result) <$> r.run sink := Pipeline.run_runStages_ofText _ _
    simp [ih, hr]

/-- Runs in which every stage reports its own failure give their sink the same records. -/
theorem run_mapM_runStages (sink : Sink (StateM σ)) (requests : List Request) (w : σ) :
    (requests.mapM (runStages sink)).run w =
      (requests.map result, sink.receive (requests.map record) w) := by
  obtain ⟨runs, hruns, hresults, -⟩ := run_mapM sink requests w
  rw [mapM_runStages, StateT.run_map, hruns, ← hresults]
  rfl

end Request

theorem Sink.receive_memory (records kept : List Record) :
    memory.receive records kept = kept ++ records := by
  induction records generalizing kept with
  | nil => exact (List.append_nil kept).symm
  | cons r records ih =>
    calc
      memory.receive (r :: records) kept = memory.receive records (kept ++ [r]) := rfl
      _ = kept ++ [r] ++ records := ih _
      _ = kept ++ r :: records := (List.append_cons kept r records).symm

/-! Lines of a log. -/

/-- A log in which every record is a line. -/
def logText (records : List Record) : String := String.join (records.map (·.line ++ "\n"))

/-- Whether what is added to a file of a storage is added to the end of a text. -/
def Storage.Appends (s : Storage (StateM σ)) (path : OsText) (text : σ → String) : Prop :=
  ∀ contents w, text ((s.append path contents).run w).2 = text w ++ contents

/-- A log file grows by the lines of the records that it is given. -/
theorem Storage.Appends.receive_logFile {s : Storage (StateM σ)} {path : OsText}
    {text : σ → String} (h : s.Appends path text) (records : List Record) (w : σ) :
    text ((s.logFile path).receive records w) = text w ++ logText records := by
  induction records generalizing w with
  | nil => exact String.append_empty.symm
  | cons r records ih =>
    have hrecord : (((s.logFile path).record r).run w).2 =
        ((s.append path (r.line ++ "\n")).run w).2 := by
      rcases happend : (s.append path (r.line ++ "\n")).run w with ⟨result, w'⟩
      simp only [logFile, StateT.run_bind, happend]
      cases result <;> rfl
    calc
      text ((s.logFile path).receive (r :: records) w)
      _ = text (((s.logFile path).record r).run w).2 ++ logText records := ih _
      _ = text w ++ (r.line ++ "\n") ++ logText records := by rw [hrecord, h]
      _ = text w ++ logText (r :: records) := by
        rw [logText, logText, List.map_cons, String.join_cons, String.append_assoc]

namespace Record

def parts (r : Record) : List String := [r.time.text, r.input, r.status.text, r.message]

structure Plain (r : Record) : Prop where
  input : Text.Plain r.input
  message : Text.Plain r.message

variable {r : Record}

theorem toList_line (r : Record) :
    r.line.toList = ['\t'].intercalate (r.parts.map String.toList) := by
  simp [line, parts, List.intercalate]

theorem plain_status (s : Status) : Text.Plain s.text := by
  cases s <;> decide

theorem Plain.parts (h : r.Plain) : ∀ part ∈ r.parts, Text.Plain part := by
  simp [Record.parts, h.input, h.message, r.time.plain_text, plain_status]

theorem Plain.splitOn_line (h : r.Plain) :
    r.line.toList.splitOn '\t' = r.parts.map String.toList := by
  rw [toList_line]
  refine List.splitOn_intercalate '\t' (fun cs hcs htab => ?_) (by simp [Record.parts])
  obtain ⟨part, hpart, rfl⟩ := List.mem_map.1 hcs
  exact h.parts part hpart '\t' htab (by decide)

/-- Of tabs and ends of lines, a plain record's line has the three tabs between its parts. -/
theorem Plain.count_line (h : r.Plain) {c : Char} (hc : c ∈ ['\t', '\n', '\r']) :
    r.line.toList.count c = 3 * ['\t'].count c := by
  have hzero {part : String} (hpart : Text.Plain part) : part.toList.count c = 0 :=
    List.count_eq_zero.2 fun hmem => hpart c hmem hc
  have htab : "\t".toList = ['\t'] := rfl
  simp only [line, String.toList_append, List.count_append, htab, hzero r.time.plain_text,
    hzero h.input, hzero (plain_status r.status), hzero h.message]
  omega

theorem Plain.not_mem_line (h : r.Plain) {c : Char} (hc : c ∈ ['\n', '\r']) :
    c ∉ r.line.toList := by
  have hcount := h.count_line (List.mem_cons_of_mem '\t' hc)
  have htab : ['\t'].count c = 0 := List.count_eq_zero.2 fun hmem => by
    rw [List.mem_singleton.1 hmem] at hc
    exact absurd hc (by decide)
  rw [htab] at hcount
  exact List.count_eq_zero.1 hcount

theorem Plain.oneLine (h : r.Plain) : Text.OneLine r.line where
  unbroken := h.not_mem_line (by decide)
  unreturned hlast := h.not_mem_line (by decide) (List.mem_of_getLast? hlast)

end Record

/-- A log of plain records has a line for each of them. -/
theorem linesOf_logText {records : List Record} (h : ∀ r ∈ records, r.Plain) :
    Text.linesOf (logText records) = records.map Record.line := by
  have hlines : ∀ l ∈ records.map Record.line, Text.OneLine l :=
    List.forall_mem_map.2 fun r hr => (h r hr).oneLine
  have htext : logText records = String.join ((records.map Record.line).map (· ++ "\n")) := by
    rw [logText, List.map_map]
    rfl
  rw [htext, Text.linesOf_join hlines]

namespace Request

theorem plain_record (r : Request) (h : Text.Plain r.options.input) : r.record.Plain := by
  have hsuccess : Text.Plain successMessage := by decide
  rw [record]
  cases hresult : r.result with
  | ok _ => exact ⟨h, hsuccess⟩
  | error f => exact ⟨h, Definition.plain_of_analyze (Definition.plain_ofLines _) hresult⟩

/-- What the line of a run is to say, part by part. -/
def words (r : Request) : List String :=
  match r.result with
  | .ok _ => [r.time.text, r.options.input, "OK", "FO formula parsed successfully"]
  | .error f => [r.time.text, r.options.input, "ERR", f.message]

theorem parts_record (r : Request) : r.record.parts = r.words := by
  rw [record, words]
  cases r.result <;> rfl

/-- Whether a record is written as a line of four parts, between which are its only tabs. -/
structure Fits (r : Request) (record : Record) : Prop where
  tabs : record.line.toList.count '\t' = 3
  unbroken : '\n' ∉ record.line.toList ∧ '\r' ∉ record.line.toList
  words : record.line.toList.splitOn '\t' = r.words.map String.toList

theorem fits_record (r : Request) (h : Text.Plain r.options.input) : r.Fits r.record where
  tabs := (r.plain_record h).count_line (by decide)
  unbroken :=
    ⟨(r.plain_record h).not_mem_line (by decide), (r.plain_record h).not_mem_line (by decide)⟩
  words := by rw [(r.plain_record h).splitOn_line, parts_record]

/-- Of a sequence of runs that share a sink, each adds one record to it, in order, which tells how
the run ended, and it makes no difference whether every stage reports its own failure. A log file
grows by the lines of these records. If the names of the inputs have neither tabs nor ends of lines,
then every record is a line of four parts between three tabs, which are the time, the input, the
status and the message, and the log is read back run by run. -/
theorem one_record_per_run (requests : List Request) :
    ∃ records : List Record,
      List.Forall₂ (fun request record => record.time = request.time ∧
        record.Reports request.options.input request.result) requests records ∧
      (∀ kept, ∃ runs, (requests.mapM (run .memory)).run kept = (runs, kept ++ records) ∧
        runs.map (·.result) = requests.map result ∧ runs.map (·.record) = records) ∧
      (∀ kept, (requests.mapM (runStages .memory)).run kept =
        (requests.map result, kept ++ records)) ∧
      (∀ {σ : Type} {s : Storage (StateM σ)} {path : OsText} {text : σ → String},
        s.Appends path text → ∀ w,
          text ((requests.mapM (run (s.logFile path))).run w).2 = text w ++ logText records) ∧
      ((∀ request ∈ requests, Text.Plain request.options.input) →
        List.Forall₂ Fits requests records ∧
        Text.linesOf (logText records) = records.map Record.line ∧
        records.length = requests.length) := by
  refine ⟨requests.map record, ?_, ?_, ?_, ?_, ?_⟩
  · rw [List.forall₂_map_right_iff, List.forall₂_same]
    exact fun r _ => ⟨r.options.time_recordOf r.time r.result, r.options.reports_recordOf _ _⟩
  · intro kept
    obtain ⟨runs, hruns, hresults, hrecords⟩ := run_mapM .memory requests kept
    exact ⟨runs, by rw [hruns, Sink.receive_memory], hresults, hrecords⟩
  · intro kept
    rw [run_mapM_runStages, Sink.receive_memory]
  · intro σ s path text happends w
    obtain ⟨runs, hruns, -, -⟩ := run_mapM (s.logFile path) requests w
    rw [hruns, happends.receive_logFile]
  · intro hinputs
    refine ⟨?_, ?_, List.length_map _⟩
    · rw [List.forall₂_map_right_iff, List.forall₂_same]
      exact fun r hr => r.fits_record (hinputs r hr)
    · exact linesOf_logText (List.forall_mem_map.2 fun r hr => r.plain_record (hinputs r hr))

theorem words_of_sampleText (r : Request) (htext : r.text = Definition.sampleText)
    (hlimit : r.options.limit = defaultLimit) :
    r.words = [r.time.text, r.options.input, "OK", "FO formula parsed successfully"] := by
  obtain ⟨x, hx⟩ := Definition.analyze_sampleText
  have hresult : r.result = .ok x := by rw [result, htext, hlimit, hx]
  rw [words, hresult]

/-- A definition that is accepted and an empty one leave these two lines. -/
theorem one_record_per_run_sample :
    let accepted : Request := ⟨⟨2024, 3, 7, 9, 5, 1⟩, { input := "a.txt" }, Definition.sampleText⟩
    let refused : Request := ⟨⟨2024, 3, 7, 9, 5, 2⟩, {}, ""⟩
    (∀ request ∈ [accepted, refused], Text.Plain request.options.input) ∧
    ∃ first second : Record,
      ([accepted, refused].mapM (runStages .memory)).run [] =
        ([accepted, refused].map result, [first, second]) ∧
      first.line.toList.splitOn '\t' =
        ["07-Mar-2024-09:05:01", "a.txt", "OK", "FO formula parsed successfully"].map
          String.toList ∧
      second.line.toList.splitOn '\t' =
        ["07-Mar-2024-09:05:02", "<input>", "ERR",
          "incorrect cardinality; exactly 1 equality symbol must be supplied, found 0"].map
            String.toList := by
  intro accepted refused
  have hinputs : ∀ request ∈ [accepted, refused], Text.Plain request.options.input := by decide
  have haccepted := accepted.words_of_sampleText rfl rfl
  have htime : accepted.time.text = "07-Mar-2024-09:05:01" := by decide
  have hrefused : refused.words = ["07-Mar-2024-09:05:02", "<input>", "ERR",
      "incorrect cardinality; exactly 1 equality symbol must be supplied, found 0"] := by
    decide +kernel
  obtain ⟨records, -, -, hruns, -, hlog⟩ := one_record_per_run [accepted, refused]
  obtain ⟨hfits, -, -⟩ := hlog hinputs
  obtain ⟨first, _, hfirst, hrest, rfl⟩ := List.forall₂_cons_left_iff.1 hfits
  obtain ⟨second, _, hsecond, hnil, rfl⟩ := List.forall₂_cons_left_iff.1 hrest
  obtain rfl := List.forall₂_nil_left_iff.1 hnil
  have hfirst := hfirst.words
  have hsecond := hsecond.words
  rw [haccepted, htime] at hfirst
  rw [hrefused] at hsecond
  exact ⟨hinputs, first, second, hruns [], hfirst, hsecond⟩

end Request

end Formulary
