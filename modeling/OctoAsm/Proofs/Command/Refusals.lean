/-
  A command that fails before its first write leaves no trace.

  `Refuses` lists what may go wrong until then: the source cannot be read, it is not text, it does not
  assemble, or the image would go where the source is.  The plan of a command is an error in exactly
  these cases (`plan_eq_error`).  The argument is the order of things: reading, assembling and the
  choice of a path all come before the first write, so an error among them finds the standard output
  empty and every file as it was, also one that a former run has left where the output would go.
-/
import Mathlib.Control.Monad.Basic
import OctoAsm.Proofs.Command.Delivery

namespace OctoAsm.Command

namespace Arguments

/-- The content of the source. -/
def content (a : Arguments) (files : Files) (stdin : ByteArray) : Except FileFault ByteArray :=
  match a.input with
  | some path => files.read path
  | none => .ok stdin

/-- Why a command ends before its first write. -/
inductive Refuses (a : Arguments) (files : Files) (stdin : ByteArray) : CommandError → Prop where
  | unreadable {path : String} {fault : FileFault} (hinput : a.input = some path)
      (hread : files.read path = .error fault) : Refuses a files stdin (.cannotRead path fault)
  | notText {content : ByteArray} (hcontent : a.content files stdin = .ok content)
      (htext : ¬ content.IsValidUTF8) :
      Refuses a files stdin (.cannotRead (a.input.getD "stdin") .invalidText)
  | notAssembled {source : String} {e : AssembleError} (hsource : a.source files stdin = .ok source)
      (he : assemble source a.options = .error e) : Refuses a files stdin (.assemble e)
  /-- the guard compares paths, not places -/
  | overwriting {source input path : String} {image : Image}
      (hsource : a.source files stdin = .ok source) (himage : assemble source a.options = .ok image)
      (hinput : a.input = some input) (houtput : a.outputPath = some path)
      (hsame : Path.ofString input = Path.ofString path) :
      Refuses a files stdin (.wouldOverwrite path)

variable {a : Arguments} {files : Files} {stdin : ByteArray}

theorem decode_eq_error {content : ByteArray} {fault : FileFault} :
    decode content = .error fault ↔ ¬ content.IsValidUTF8 ∧ fault = .invalidText := by
  unfold decode String.fromUTF8?
  by_cases h : content.IsValidUTF8
  · simp [h]
  · simp [h, eq_comm]

/-- A source without text was not read, or it was read and is not text. -/
theorem source_eq_error {fault : FileFault} : a.source files stdin = .error fault ↔
    (∃ path, a.input = some path ∧ files.read path = .error fault) ∨
      ∃ content, a.content files stdin = .ok content ∧ ¬ content.IsValidUTF8 ∧
        fault = .invalidText := by
  have hread : a.content files stdin = .error fault ↔
      ∃ path, a.input = some path ∧ files.read path = .error fault := by
    unfold content
    cases a.input <;> simp
  show (a.content files stdin >>= decode) = .error fault ↔ _
  simp only [bind_eq_error, hread, decode_eq_error]

/-- The guard of the source fails when it compares two equal paths. -/
theorem imageSink_eq_error {e : CommandError} : a.imageSink = .error e ↔
    ∃ input path, a.input = some input ∧ a.outputPath = some path ∧
      Path.ofString input = Path.ofString path ∧ .wouldOverwrite path = e := by
  unfold imageSink overwrites
  cases a.outputPath with
  | none => simp
  | some path =>
    cases a.input with
    | none => simp
    | some input => by_cases h : Path.ofString input = Path.ofString path <;> simp [h]

/-- **When there is no plan**: only for one of the reasons listed. -/
theorem plan_eq_error {e : CommandError} :
    a.plan (a.content files stdin) = .error e ↔ a.Refuses files stdin e := by
  show ((a.source files stdin).mapError (.cannotRead a.sourceName) >>= _) = .error e ↔ _
  simp only [bind_eq_error, mapError_eq_error, mapError_eq_ok, pure_ne_error, and_false,
    exists_false, or_false, source_eq_error, imageSink_eq_error, sourceName]
  constructor
  · rintro (⟨fault, ⟨path, hinput, hread⟩ | ⟨content, hcontent, htext, rfl⟩, rfl⟩ |
      ⟨source, hsource, ⟨e, he, rfl⟩ | ⟨image, himage, input, path, hinput, houtput, hsame, rfl⟩⟩)
    · rw [hinput]
      exact .unreadable hinput hread
    · exact .notText hcontent htext
    · exact .notAssembled hsource he
    · exact .overwriting hsource himage hinput houtput hsame
  · rintro (⟨hinput, hread⟩ | ⟨hcontent, htext⟩ | ⟨hsource, he⟩ |
      ⟨hsource, himage, hinput, houtput, hsame⟩)
    · exact .inl ⟨_, .inl ⟨_, hinput, hread⟩, by rw [hinput]; rfl⟩
    · exact .inl ⟨_, .inr ⟨_, hcontent, htext, rfl⟩, rfl⟩
    · exact .inr ⟨_, hsource, .inl ⟨_, he, rfl⟩⟩
    · exact .inr ⟨_, hsource, .inr ⟨_, himage, _, _, hinput, houtput, hsame, rfl⟩⟩

end Arguments

/-- **A command that fails leaves no trace.**  Accepted arguments lead either to an error before the
    first write, with nothing printed and every file as it was, or to the writes of an image. -/
theorem run_of_refuses (a : Arguments) (files : Files) (stdin : ByteArray) :
    (∀ e, a.Refuses files stdin e →
      a.run files stdin = ⟨1, .empty, some e.message, files⟩) ∧
    ((∀ e, ¬ a.Refuses files stdin e) → ∃ source image sink, a.source files stdin = .ok source ∧
      assemble source a.options = .ok image ∧ a.imageSink = .ok sink ∧
      a.run files stdin = perform files .empty (a.writes sink image)) := by
  rw [Arguments.run]
  constructor
  · intro e he
    have hplan := Arguments.plan_eq_error.mpr he
    split
    · rename_i writes hwrites
      cases hplan.symm.trans hwrites
    · rename_i e' herror
      obtain rfl := Except.error.inj (hplan.symm.trans herror)
      rfl
  · intro hnone
    split
    · rename_i writes hwrites
      obtain ⟨source, image, sink, hsource, himage, hsink, rfl⟩ := plan_eq_ok hwrites
      exact ⟨source, image, sink, hsource, himage, hsink, rfl⟩
    · rename_i e herror
      exact absurd (Arguments.plan_eq_error.mp herror) (hnone e)

/-- A directory where a former run has left its image and its listing, with a source that does not
    assemble and one that is not text. -/
def formerRun : Files :=
  [(["a.8o"], ": main\nclear\n".toUTF8), (["a.ch8"], "image".toUTF8),
    (["a.sym"], "listing".toUTF8), (["b.8o"], ": main\njump away\n".toUTF8), (["c.8o"], ⟨#[0xFF]⟩)]

/-- Arguments that write to the files of the former run. -/
def overFormerRun (input output : String) : Arguments :=
  { input := some input, output := some output, symbols := some "a.sym" }

/-- A failure of each kind: the files of the former run stay, and so does the source. -/
theorem run_of_refuses_formerRun :
    (overFormerRun "d.8o" "a.ch8").run formerRun .empty =
      ⟨1, .empty, some "error: cannot read d.8o: No such file or directory (os error 2)",
        formerRun⟩ ∧
    (overFormerRun "c.8o" "a.ch8").run formerRun .empty =
      ⟨1, .empty, some "error: cannot read c.8o: stream did not contain valid UTF-8", formerRun⟩ ∧
    (overFormerRun "b.8o" "a.ch8").run formerRun .empty =
      ⟨1, .empty, some "error: line 2: `away`: undeclared name", formerRun⟩ ∧
    (overFormerRun "a.8o" "a.8o").run formerRun .empty =
      ⟨1, .empty, some "error: output would overwrite the input a.8o", formerRun⟩ := by
  refine ⟨(run_of_refuses _ formerRun .empty).1 (.cannotRead "d.8o" .notFound) ?_,
    (run_of_refuses _ formerRun .empty).1 (.cannotRead "c.8o" .invalidText) ?_,
    (run_of_refuses _ formerRun .empty).1 (.assemble (.resolve ⟨2, "away", .undeclared⟩)) ?_,
    (run_of_refuses _ formerRun .empty).1 (.wouldOverwrite "a.8o") ?_⟩
  · have hread : formerRun.read "d.8o" = .error .notFound := by decide +kernel
    exact .unreadable rfl hread
  · have hread : (overFormerRun "c.8o" "a.ch8").content formerRun .empty = .ok ⟨#[0xFF]⟩ := by
      decide +kernel
    exact .notText hread (by decide +kernel)
  · have hsource : (overFormerRun "b.8o" "a.ch8").source formerRun .empty =
        .ok ": main\njump away\n" := by decide +kernel
    exact .notAssembled hsource (by decide +kernel)
  · have hsource : (overFormerRun "a.8o" "a.8o").source formerRun .empty =
        .ok ": main\nclear\n" := by decide +kernel
    have himage : assemble ": main\nclear\n" (overFormerRun "a.8o" "a.8o").options =
        .ok ⟨0x200, #[0, 0xE0], [("main", 0x200)], [], []⟩ := by decide +kernel
    exact .overwriting hsource himage rfl rfl rfl

end OctoAsm.Command
