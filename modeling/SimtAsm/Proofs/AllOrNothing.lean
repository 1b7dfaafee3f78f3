import SimtAsm.Command.Assemble
import SimtAsm.Proofs.Effects
import SimtAsm.Proofs.Messages
import SimtAsm.Proofs.Writing

namespace SimtAsm

open Source

namespace AssembleCommand

/-- The file of the source is there, and its bytes are those of the text. -/
def Options.Reads (options : Options) (files : Files) (source : Text) : Prop :=
  ∃ bytes, files.read options.source = .ok bytes ∧ Text.ofUtf8? bytes = some source

/-- What the options ask of a program: no faulty instruction if they are strict or for a binary image, and a file to
put a binary image in. -/
structure Options.Accepts (options : Options) (program : Program) : Prop where
  clean : options.strict = true ∨ options.format = .binary → program.diagnostics = []
  named : options.format = .binary → options.output? ≠ none

/-- The bytes of a program in a format: those of a rendered text, or those of all its words. -/
inductive Emits (program : Program) : Format → List UInt8 → Prop
  | text (format : ListingFormat) : Emits program (.text format) (program.render format).toUtf8
  | binary {words : List Word} : program.words = .ok words → Emits program .binary (Word.toBytes words)

theorem quiet_readSource (path : Text) : Quiet (readSource path) := by
  refine .bind (.readFile path) fun contents => ?_
  split
  · exact .throw _
  · split
    · exact .throw _
    · exact .pure _

theorem quiet_ensureAllowed (options : Options) (program : Program) : Quiet (ensureAllowed options program) := by
  unfold ensureAllowed
  split
  · exact .throw _
  · exact .pure _

theorem atomic_deliver (options : Options) (program : Program) : Atomic (deliver options program) := by
  unfold deliver
  split
  · split
    · exact (Quiet.throw _).atomic
    · split
      · exact (Quiet.throw _).atomic
      · exact .save _ _ _
  · exact .emit _ _ _

/-- Every step of a run before its output only reads and reports. -/
theorem atomic_main (options : Options) : Atomic (main options) := by
  refine .bind (quiet_readSource options.source) fun source => ?_
  cases assemble source with
  | error error => exact (Quiet.throw _).atomic
  | ok program =>
    refine .bind (.forM _ fun diagnostic => .printError (note diagnostic)) fun _ => ?_
    exact .bind (quiet_ensureAllowed options program) fun _ => atomic_deliver options program

section Stages

variable {options : Options} {program : Program} {source : Text} {host after : Host}

theorem exec_readSource_eq_ok_iff : exec (readSource options.source) host = (.ok source, after) ↔
    options.Reads host.files source ∧ after = host := by
  rw [readSource, exec_bind, exec_readFile, Options.Reads]
  cases host.files.read options.source with
  | error error => simp
  | ok bytes => cases isText : Text.ofUtf8? bytes <;> simp [isText, eq_comm]

theorem exec_ensureAllowed_eq_ok_iff : exec (ensureAllowed options program) host = (.ok (), after) ↔
    (options.strict = true → program.diagnostics = []) ∧ after = host := by
  unfold ensureAllowed
  split
  · rename_i refused
    simp [refused]
  · rename_i allowed
    have strictly : options.strict = true → program.diagnostics = [] := by simpa using allowed
    rw [exec_pure, Prod.mk.injEq]
    exact ⟨fun same => ⟨strictly, same.2.symm⟩, fun kept => ⟨rfl, kept.2.symm⟩⟩

/-- A program comes out under options: in the file if one is named, else as a text on standard output. Nothing else
changes on the machine. -/
inductive Delivers (options : Options) (program : Program) (host : Host) : Host → Prop
  | printed {format : ListingFormat} : options.output? = none → options.format = .text format →
      Delivers options program host { host with stdout := host.stdout ++ program.render format }
  | wrote {path : Text} {bytes : List UInt8} {files : Files} : options.output? = some path →
      Emits program options.format bytes → host.files.write path bytes = .ok files →
      Delivers options program host { host with files }

theorem exec_deliver_eq_ok_iff :
    exec (deliver options program) host = (.ok (), after) ↔ Delivers options program host after := by
  constructor
  · intro delivered
    unfold deliver at delivered
    cases kind : options.format with
    | text format =>
      cases target : options.output? with
      | none =>
        simp only [kind, target, emit, exec_print, Prod.mk.injEq, true_and] at delivered
        exact delivered ▸ .printed target kind
      | some path =>
        simp only [kind, target, emit] at delivered
        obtain ⟨files, written, rfl⟩ := exec_save_eq_ok_iff.mp delivered
        exact .wrote target (kind ▸ .text format) written
    | binary =>
      cases target : options.output? with
      | none => simp [kind, target] at delivered
      | some path =>
        cases found : program.words with
        | error diagnostics => simp [kind, target, found] at delivered
        | ok words =>
          simp only [kind, target, found] at delivered
          obtain ⟨files, written, rfl⟩ := exec_save_eq_ok_iff.mp delivered
          exact .wrote target (kind ▸ .binary found) written
  · intro delivers
    obtain ⟨source, output?, format, strict⟩ := options
    cases delivers with
    | printed target kind =>
      cases target
      cases kind
      rfl
    | wrote target emits written =>
      cases target
      cases emits with
      | text format => exact exec_save_eq_ok_iff.mpr ⟨_, written, rfl⟩
      | binary found =>
        simp only [deliver, found]
        exact exec_save_eq_ok_iff.mpr ⟨_, written, rfl⟩

theorem exec_main_eq_ok_iff : exec (main options) host = (.ok (), after) ↔
    ∃ source program, options.Reads host.files source ∧ assemble source = .ok program ∧
      (options.strict = true → program.diagnostics = []) ∧
      Delivers options program { host with stderr := host.stderr ++ program.diagnostics.flatMap note } after := by
  constructor
  · intro succeeded
    obtain ⟨source, _, found, rest⟩ := exec_bind_eq_ok_iff.mp succeeded
    obtain ⟨reads, rfl⟩ := exec_readSource_eq_ok_iff.mp found
    cases assembled : assemble source with
    | error error => simp [assembled] at rest
    | ok program =>
      simp only [assembled] at rest
      obtain ⟨_, _, noted, rest⟩ := exec_bind_eq_ok_iff.mp rest
      cases (exec_forM_printError note program.diagnostics _).symm.trans noted
      obtain ⟨_, _, allowed, delivered⟩ := exec_bind_eq_ok_iff.mp rest
      obtain ⟨strictly, rfl⟩ := exec_ensureAllowed_eq_ok_iff.mp allowed
      exact ⟨source, program, reads, assembled, strictly, exec_deliver_eq_ok_iff.mp delivered⟩
  · rintro ⟨source, program, reads, assembled, strictly, delivers⟩
    refine exec_bind_eq_ok_iff.mpr ⟨source, host, exec_readSource_eq_ok_iff.mpr ⟨reads, rfl⟩, ?_⟩
    simp only [assembled]
    refine exec_bind_eq_ok_iff.mpr ⟨_, _, exec_forM_printError note program.diagnostics host, ?_⟩
    refine exec_bind_eq_ok_iff.mpr ⟨_, _, exec_ensureAllowed_eq_ok_iff.mpr ⟨strictly, rfl⟩, ?_⟩
    exact exec_deliver_eq_ok_iff.mpr delivers

theorem Delivers.accepts (delivers : Delivers options program host after)
    (strictly : options.strict = true → program.diagnostics = []) : options.Accepts program := by
  cases delivers with
  | printed target kind => exact ⟨fun asked => asked.elim strictly (by simp [kind]), by simp [kind]⟩
  | wrote target emits written =>
    refine ⟨fun asked => asked.elim strictly fun binary => ?_, by simp [target]⟩
    rw [binary] at emits
    cases emits with
    | binary found => exact Program.diagnostics_eq_nil_iff.mpr ⟨_, found⟩

theorem Options.Accepts.exists_emits (accepts : options.Accepts program) :
    ∃ bytes, Emits program options.format bytes := by
  cases kind : options.format with
  | text format => exact ⟨_, .text format⟩
  | binary =>
    obtain ⟨words, found⟩ := Program.diagnostics_eq_nil_iff.mp (accepts.clean (Or.inr kind))
    exact ⟨_, .binary found⟩

theorem Options.Accepts.exists_delivers (accepts : options.Accepts program)
    (writable : ∀ path bytes, options.output? = some path → ∃ files, host.files.write path bytes = .ok files) :
    ∃ after, Delivers options program host after := by
  cases target : options.output? with
  | some path =>
    obtain ⟨bytes, emits⟩ := accepts.exists_emits
    obtain ⟨files, written⟩ := writable path bytes target
    exact ⟨_, .wrote target emits written⟩
  | none =>
    cases kind : options.format with
    | text format => exact ⟨_, .printed target kind⟩
    | binary => exact absurd target (accepts.named kind)

end Stages

/-- The notes on a program are one line for each diagnostic. -/
theorem lines_notes {source : Text} {program : Program} (assembled : assemble source = .ok program) :
    Text.lines (program.diagnostics.flatMap note) =
      (program.diagnostics.map fun d => ("error: " : Text) ++ d.message) ++ [[]] := by
  have lines : program.diagnostics.flatMap note =
      Text.ofLines (program.diagnostics.map fun d => ("error: " : Text) ++ d.message) := by
    rw [Text.ofLines, List.flatMap_map]
    rfl
  rw [lines]
  apply Text.lines_ofLines
  intro line member
  obtain ⟨diagnostic, inside, rfl⟩ := List.mem_map.mp member
  exact newline_notMem_append (by decide) (newline_notMem_of_mem_diagnostics assembled inside)

section Run

variable {options : Options} {files : Files}

theorem run_of_exec {ended : Except Failure Unit} {after : Host}
    (ran : exec (main options) ⟨files, [], []⟩ = (ended, after)) : run options files = .ofEnd after ended := by
  simp only [run, ran]

theorem nothing_of_failed (failed : (run options files).exitCode ≠ 0) :
    (run options files).exitCode = 1 ∧ (run options files).stdout = [] ∧ (run options files).files = files := by
  rcases ran : exec (main options) ⟨files, [], []⟩ with ⟨ended, after⟩
  rw [run_of_exec ran] at failed ⊢
  cases ended with
  | ok _ => exact absurd rfl failed
  | error failure =>
    have untouched := atomic_main options _ failure after ran
    exact ⟨rfl, untouched.stdout, untouched.files⟩

theorem exists_exec_of_succeeded (succeeded : (run options files).exitCode = 0) :
    ∃ after, exec (main options) ⟨files, [], []⟩ = (.ok (), after) := by
  rcases ran : exec (main options) ⟨files, [], []⟩ with ⟨ended, after⟩
  rw [run_of_exec ran] at succeeded
  cases ended with
  | ok _ => exact ⟨after, rfl⟩
  | error failure => cases succeeded

/-- As far as its file can be written, a run succeeds just when its source assembles as the options ask for. -/
theorem run_exitCode_eq_zero_iff
    (writable : ∀ path bytes, options.output? = some path → ∃ after, files.write path bytes = .ok after) :
    (run options files).exitCode = 0 ↔
      ∃ source program, options.Reads files source ∧ assemble source = .ok program ∧ options.Accepts program := by
  constructor
  · intro succeeded
    obtain ⟨after, ran⟩ := exists_exec_of_succeeded succeeded
    obtain ⟨source, program, reads, assembled, strictly, delivers⟩ := exec_main_eq_ok_iff.mp ran
    exact ⟨source, program, reads, assembled, delivers.accepts strictly⟩
  · rintro ⟨source, program, reads, assembled, accepts⟩
    have delivered : ∃ after, Delivers options program ⟨files, [], program.diagnostics.flatMap note⟩ after :=
      accepts.exists_delivers writable
    obtain ⟨after, delivers⟩ := delivered
    have ran : exec (main options) ⟨files, [], []⟩ = (.ok (), after) :=
      exec_main_eq_ok_iff.mpr ⟨source, program, reads, assembled, accepts.clean ∘ Or.inl, delivers⟩
    rw [run_of_exec ran]
    rfl

theorem Options.Reads.unique {source source' : Text} (reads : options.Reads files source)
    (reads' : options.Reads files source') : source = source' := by
  obtain ⟨bytes, found, isText⟩ := reads
  obtain ⟨bytes', found', isText'⟩ := reads'
  cases found.symm.trans found'
  exact Option.some.inj (isText.symm.trans isText')

theorem delivers_of_succeeded {source : Text} {program : Program} (reads : options.Reads files source)
    (assembled : assemble source = .ok program) (succeeded : (run options files).exitCode = 0) :
    options.Accepts program ∧ ∃ after, run options files = .ofEnd after (.ok ()) ∧
      Delivers options program ⟨files, [], program.diagnostics.flatMap note⟩ after := by
  obtain ⟨after, ran⟩ := exists_exec_of_succeeded succeeded
  obtain ⟨source', program', reads', assembled', strictly, delivers⟩ := exec_main_eq_ok_iff.mp ran
  cases reads.unique reads'
  cases assembled.symm.trans assembled'
  exact ⟨delivers.accepts strictly, after, run_of_exec ran, delivers⟩

end Run

/-- A run does all or nothing, as far as its file can be written. If it fails, it prints nothing and leaves every file
as it was. It succeeds just when its source can be read and assembles, without a faulty instruction if the options are
strict or ask for a binary image, and with a file named for such an image. Then it puts out just the program, on
standard output or in the named file, with one line of notes for each diagnostic in the order of their addresses. -/
theorem run_all_or_nothing (options : Options) (files : Files)
    (writable : ∀ path bytes, options.output? = some path → ∃ after, files.write path bytes = .ok after) :
    ((run options files).exitCode ≠ 0 →
        (run options files).exitCode = 1 ∧ (run options files).stdout = [] ∧ (run options files).files = files) ∧
      ((run options files).exitCode = 0 ↔
        ∃ source program, options.Reads files source ∧ assemble source = .ok program ∧ options.Accepts program) ∧
      (∀ source program, options.Reads files source → assemble source = .ok program →
        (run options files).exitCode = 0 →
        (options.strict = true ∨ options.format = .binary → program.diagnostics = []) ∧
        (run options files).stderr.lines = (program.diagnostics.map fun d => ("error: " : Text) ++ d.message) ++ [[]] ∧
        (program.diagnostics.Pairwise fun a b => a.address < b.address) ∧
        (options.output? = none → ∃ format, options.format = .text format ∧
          (run options files).stdout = program.render format ∧ (run options files).files = files) ∧
        ∀ path, options.output? = some path → (run options files).stdout = [] ∧
          ∃ bytes, Emits program options.format bytes ∧ files.Wrote path bytes (run options files).files) ∧
      (options.strict = false → options.format ≠ .binary → ∀ source, options.Reads files source →
        (labelKeys (statements source)).Nodup → (run options files).exitCode = 0) := by
  have succeeds := run_exitCode_eq_zero_iff writable
  refine ⟨nothing_of_failed, succeeds, ?_, ?_⟩
  · intro source program reads assembled succeeded
    obtain ⟨accepts, after, ran, delivers⟩ := delivers_of_succeeded reads assembled succeeded
    obtain ⟨placement, _, rfl⟩ := assemble_eq_ok_iff.mp assembled
    have oneLine := lines_notes assembled
    have sorted := Program.pairwise_diagnostics placement
    rw [ran]
    cases delivers with
    | printed target kind =>
      refine ⟨accepts.clean, oneLine, sorted, fun _ => ⟨_, kind, rfl, rfl⟩, ?_⟩
      intro path named
      cases target.symm.trans named
    | wrote target emits written =>
      refine ⟨accepts.clean, oneLine, sorted, ?_, ?_⟩
      · intro unnamed
        cases target.symm.trans unnamed
      · intro path named
        cases target.symm.trans named
        exact ⟨rfl, _, emits, Files.wrote_of_write written⟩
  · intro lenient textual source reads distinct
    obtain ⟨program, assembled⟩ := exists_assemble_of_nodup distinct
    refine succeeds.mpr ⟨source, program, reads, assembled, ?_, fun binary => absurd binary textual⟩
    rintro (strict | binary)
    · simp [lenient] at strict
    · exact absurd binary textual

/-- A faulty instruction, and what becomes of it in a lenient and in a strict run into an empty directory at the
root. -/
theorem run_all_or_nothing_faulty :
    ∃ files : Files, ∃ lenient strict : RunResult,
      run ⟨"a.s", some "/out/b", .text .hex, false⟩ files = lenient ∧
      run ⟨"a.s", some "/out/b", .text .hex, true⟩ files = strict ∧
      lenient.exitCode = 0 ∧ lenient.stdout = [] ∧
      lenient.stderr.lines = [("error: address 0 ('FOO'): unknown mnemonic: FOO" : Text), []] ∧
      lenient.files.read "/out/b" = .ok (Text.toUtf8 "????\nF000\n") ∧
      strict.exitCode = 1 ∧ strict.stdout = [] ∧ strict.files = files := by
  let nodes : List (List Text × Node) :=
    [(["work"], .directory), (["work", "a.s"], .file (Text.toUtf8 "FOO\nRET")), (["out"], .directory)]
  let files : Files := ⟨.ofList nodes, ["work"]⟩
  have writable : ∀ path bytes, some ("/out/b" : Text) = some path → ∃ after, files.write path bytes = .ok after := by
    intro path bytes same
    cases same
    exact ⟨_, rfl⟩
  obtain ⟨_, succeeds, left, _⟩ := run_all_or_nothing ⟨"a.s", some "/out/b", .text .hex, false⟩ files writable
  obtain ⟨failed, strictly, _⟩ := run_all_or_nothing ⟨"a.s", some "/out/b", .text .hex, true⟩ files writable
  have assembled : assemble "FOO\nRET" = .ok (.ofPlacement ⟨SymbolTable.empty, ["FOO", "RET"]⟩) := rfl
  have reads : Options.Reads ⟨"a.s", some "/out/b", .text .hex, false⟩ files "FOO\nRET" := ⟨_, rfl, rfl⟩
  have succeeded := succeeds.mpr ⟨_, _, reads, assembled, by simp, by simp⟩
  obtain ⟨_, notes, _, _, wrote⟩ := left _ _ reads assembled succeeded
  obtain ⟨printed, bytes, emits, written⟩ := wrote "/out/b" rfl
  cases emits
  have refused : (run ⟨"a.s", some "/out/b", .text .hex, true⟩ files).exitCode ≠ 0 := by
    intro succeeded
    obtain ⟨_, _, reads', assembled', accepts⟩ := strictly.mp succeeded
    cases reads.unique reads'
    cases assembled.symm.trans assembled'
    exact absurd (accepts.clean (Or.inl rfl)) (by decide)
  obtain ⟨code, nothing, unchanged⟩ := failed refused
  exact ⟨files, _, _, rfl, rfl, succeeded, printed, notes, written.read, code, nothing, unchanged⟩

end AssembleCommand

end SimtAsm
