/-
  What a successful command leaves behind.

  The writes of a plan are made one after the other.  A write leaves every path leading where it led
  (`Files.place?_write`), so the places of all writes can be told before the first one is made, and a
  place ends up with what the last write to it puts there (`perform_files`).

  The command makes sure that the image does not go where the source is, but it compares the paths as
  they are written, and it does not look at the path of the listing.  So the source, and even the
  image, may be overwritten in a run that succeeds: `Delivers` says what holds in every such run, and
  under which conditions the image and the source are safe.
-/
import OctoAsm.Command.Run
import OctoAsm.Proofs.Command.Places

namespace OctoAsm.Command

/-! ## Writes in order -/

/-- The place that a write goes to; none for standard output. -/
def Write.place? (files : Files) (w : Write) : Option (List String) :=
  match w.sink with
  | .stdout => none
  | .file path => files.place? path

/-- The content of a place after writes that go where `files` says: that of the last write to it,
    else the one before. -/
def contentAfter (files : Files) (writes : List Write) (before : Option ByteArray)
    (parts : List String) : Option ByteArray :=
  writes.foldl (fun old w => if w.place? files = some parts then some w.content else old) before

section Perform

variable {files files' : Files} {out : ByteArray} {w : Write} {writes rest : List Write}

/-- The first of writes that all succeed: it is printed, or it changes a file. -/
theorem perform_cons (h : (perform files out (w :: rest)).exit = 0) :
    (w.sink = .stdout ∧ perform files out (w :: rest) = perform files (out ++ w.content) rest) ∨
      ∃ path files', w.sink = .file path ∧ files.write path w.content = .ok files' ∧
        perform files out (w :: rest) = perform files' out rest := by
  cases hsink : w.sink with
  | stdout => exact .inl ⟨rfl, by simp only [perform, hsink]⟩
  | file path =>
    cases hwrite : files.write path w.content with
    | ok files' => exact .inr ⟨path, files', rfl, hwrite, by simp only [perform, hsink, hwrite]⟩
    | error fault => simp [perform, hsink, hwrite] at h

theorem Write.place?_write {path : String} {content : ByteArray}
    (h : files.write path content = .ok files') (w : Write) : w.place? files' = w.place? files := by
  unfold Write.place?
  split
  · rfl
  · exact Files.place?_write h _

/-- Every file that is written has a place. -/
theorem perform_places (h : (perform files out writes).exit = 0) :
    ∀ w ∈ writes, ∀ path, w.sink = .file path → (files.place? path).isSome = true := by
  induction writes generalizing files out with
  | nil => simp
  | cons w rest ih =>
    intro w' hw' path hsink
    rcases perform_cons h with ⟨hw, hrest⟩ | ⟨target, files', hw, hwrite, hrest⟩
    · rw [hrest] at h
      rcases List.mem_cons.mp hw' with rfl | hw'
      · cases hw.symm.trans hsink
      · exact ih h w' hw' path hsink
    · rw [hrest] at h
      rcases List.mem_cons.mp hw' with rfl | hw'
      · obtain rfl := Sink.file.inj (hw.symm.trans hsink)
        obtain ⟨place, hplace, -⟩ := Files.write_eq_ok hwrite
        rw [hplace]
        rfl
      · rw [← Files.place?_write hwrite]
        exact ih h w' hw' path hsink

/-- **Files after writes that all succeed**: each place has what the last write to it put there. -/
theorem perform_files (h : (perform files out writes).exit = 0) (parts : List String) :
    (perform files out writes).files.get? parts =
      contentAfter files writes (files.get? parts) parts := by
  induction writes generalizing files out with
  | nil => rfl
  | cons w rest ih =>
    rw [contentAfter, List.foldl_cons, ← contentAfter]
    rcases perform_cons h with ⟨hw, hrest⟩ | ⟨path, files', hw, hwrite, hrest⟩
    · rw [hrest] at h ⊢
      simp only [ih h, Write.place?, hw, reduceCtorEq, if_false]
    · rw [hrest] at h ⊢
      -- the places of the writes that follow are the same as before this one
      rw [ih h, Files.get?_write hwrite]
      simp only [contentAfter, Write.place?_write hwrite]
      simp only [Write.place?, hw]

/-- Standard output after writes that all succeed. -/
theorem perform_stdout (h : (perform files out writes).exit = 0) :
    (perform files out writes).message = none ∧ (perform files out writes).stdout =
      (writes.filter (·.sink = .stdout)).foldl (fun out w => out ++ w.content) out := by
  induction writes generalizing files out with
  | nil => exact ⟨rfl, rfl⟩
  | cons w rest ih =>
    rcases perform_cons h with ⟨hw, hrest⟩ | ⟨path, files', hw, -, hrest⟩
    · rw [hrest] at h ⊢
      simpa [hw] using ih h
    · rw [hrest] at h ⊢
      simpa [hw] using ih h

end Perform

/-! ## Runs -/

namespace Arguments

variable (a : Arguments) (files : Files)

/-- The text of the source. -/
def source (stdin : ByteArray) : Except FileFault String :=
  (match a.input with
    | some path => files.read path
    | none => .ok stdin) >>= decode

/-- The place of the image, if it goes to a file. -/
def outputPlace : Option (List String) := a.outputPath.bind files.place?

/-- The place of the listing, if it is asked for. -/
def symbolsPlace : Option (List String) := a.symbols.bind files.place?

end Arguments

/-- What a successful run leaves behind. -/
structure Delivers (a : Arguments) (files : Files) (image : Image) (outcome : Outcome) : Prop where
  message : outcome.message = none
  /-- the image is printed if there is neither an output option nor an input path -/
  stdout : outcome.stdout = if a.outputPath = none then ⟨image.bytes⟩ else .empty
  /-- the files that are asked for have places -/
  places : ∀ path, a.outputPath = some path ∨ a.symbols = some path →
    (files.place? path).isSome = true
  symbols : ∀ place, a.symbolsPlace files = some place →
    outcome.files.get? place = some image.symbols.toUTF8
  /-- the listing is written last: in the same place it replaces the image -/
  output : ∀ place, a.outputPlace files = some place → a.symbolsPlace files ≠ some place →
    outcome.files.get? place = some ⟨image.bytes⟩
  /-- no other file changes -/
  others : ∀ place, a.outputPlace files ≠ some place → a.symbolsPlace files ≠ some place →
    outcome.files.get? place = files.get? place
  /-- the paths of the source and of the image differ, which keeps the source from the image if both
      are written plainly -/
  input : ∀ path, a.input = some path → ∀ path', a.outputPath = some path' →
    Path.ofString path ≠ Path.ofString path' ∧
      ((Path.ofString path).Plain → (Path.ofString path').Plain →
        (Path.ofString path).here = (Path.ofString path').here →
        ∀ place, files.place? path = some place → a.outputPlace files ≠ some place)

/-- What a plan is made of. -/
theorem plan_eq_ok {a : Arguments} {content : Except FileFault ByteArray} {writes : List Write}
    (h : a.plan content = .ok writes) : ∃ source image sink,
      (content >>= Arguments.decode) = .ok source ∧ assemble source a.options = .ok image ∧
      a.imageSink = .ok sink ∧ writes = a.writes sink image := by
  obtain ⟨source, hsource, h⟩ := bind_eq_ok.mp h
  obtain ⟨image, himage, h⟩ := bind_eq_ok.mp h
  obtain ⟨sink, hsink, h⟩ := bind_eq_ok.mp h
  exact ⟨source, image, sink, mapError_eq_ok.mp hsource, mapError_eq_ok.mp himage, hsink,
    (pure_eq_ok.mp h).symm⟩

/-- A successful run has made the writes of its plan. -/
theorem run_exit_zero {a : Arguments} {files : Files} {stdin : ByteArray}
    (h : (a.run files stdin).exit = 0) : ∃ source image sink,
      a.source files stdin = .ok source ∧ assemble source a.options = .ok image ∧
      a.imageSink = .ok sink ∧ a.run files stdin = perform files .empty (a.writes sink image) := by
  rw [Arguments.run] at h
  split at h
  · rename_i writes hplan
    rw [Arguments.run, hplan]
    obtain ⟨source, image, sink, hsource, himage, hsink, rfl⟩ := plan_eq_ok hplan
    exact ⟨source, image, sink, hsource, himage, hsink, rfl⟩
  · cases h

/-- The sink of the image, with the guard that it has passed. -/
theorem imageSink_eq_ok {a : Arguments} {sink : Sink} (h : a.imageSink = .ok sink) :
    (a.outputPath = none ∧ sink = .stdout) ∨ ∃ path, a.outputPath = some path ∧ sink = .file path ∧
      a.overwrites path = false := by
  unfold Arguments.imageSink at h
  split at h
  · rename_i hpath
    exact .inl ⟨hpath, (Except.ok.inj h).symm⟩
  · rename_i path hpath
    split at h
    · cases h
    · rename_i hguard
      exact .inr ⟨path, hpath, (Except.ok.inj h).symm, by simpa using hguard⟩

/-- The place of the image is that of its write. -/
theorem place?_image {a : Arguments} {files : Files} {sink : Sink} (h : a.imageSink = .ok sink)
    (content : ByteArray) : Write.place? files ⟨sink, content⟩ = a.outputPlace files := by
  unfold Arguments.outputPlace
  rcases imageSink_eq_ok h with ⟨hpath, rfl⟩ | ⟨path, hpath, rfl, -⟩
  · rw [hpath]
    rfl
  · rw [hpath]
    rfl

/-- A place after the writes of a plan: the listing comes last. -/
theorem contentAfter_writes {a : Arguments} {files : Files} {sink : Sink} {image : Image}
    (h : a.imageSink = .ok sink) (before : Option ByteArray) (place : List String) :
    contentAfter files (a.writes sink image) before place =
      if a.symbolsPlace files = some place then some image.symbols.toUTF8
      else if a.outputPlace files = some place then some ⟨image.bytes⟩ else before := by
  unfold contentAfter Arguments.writes
  rw [List.foldl_cons, place?_image h]
  unfold Arguments.symbolsPlace
  cases a.symbols with
  | none => simp
  | some path => rfl

section Plan

variable {a : Arguments} {files : Files} {sink : Sink} {image : Image}

/-- Of a plan only the image may be printed. -/
theorem printed_writes (h : a.imageSink = .ok sink) :
    ((a.writes sink image).filter (·.sink = .stdout)).foldl (fun out w => out ++ w.content) .empty =
      if a.outputPath = none then ⟨image.bytes⟩ else .empty := by
  have hlisting : (a.symbols.map fun path =>
      Write.mk (.file path) image.symbols.toUTF8).toList.filter (·.sink = .stdout) = [] := by
    cases a.symbols <;> simp
  rw [Arguments.writes, List.filter_cons, hlisting]
  rcases imageSink_eq_ok h with ⟨hpath, rfl⟩ | ⟨path, hpath, rfl, -⟩
  · simp [hpath]
  · simp [hpath]

/-- The files that are asked for are written. -/
theorem written_of_asked (h : a.imageSink = .ok sink) {path : String}
    (hpath : a.outputPath = some path ∨ a.symbols = some path) :
    ∃ w ∈ a.writes sink image, w.sink = .file path := by
  rcases hpath with hpath | hpath
  · rcases imageSink_eq_ok h with ⟨hnone, -⟩ | ⟨path', hpath', rfl, -⟩
    · cases hnone.symm.trans hpath
    · obtain rfl := Option.some.inj (hpath'.symm.trans hpath)
      exact ⟨_, List.mem_cons_self, rfl⟩
  · exact ⟨⟨.file path, image.symbols.toUTF8⟩, by simp [Arguments.writes, hpath], rfl⟩

/-- The guard compares paths, and that is enough for those that are written plainly. -/
theorem guard_keeps_input (h : a.imageSink = .ok sink) {path path' : String}
    (hpath : a.input = some path) (hpath' : a.outputPath = some path') :
    Path.ofString path ≠ Path.ofString path' ∧
      ((Path.ofString path).Plain → (Path.ofString path').Plain →
        (Path.ofString path).here = (Path.ofString path').here →
        ∀ place, files.place? path = some place → a.outputPlace files ≠ some place) := by
  have hne : Path.ofString path ≠ Path.ofString path' := by
    rcases imageSink_eq_ok h with ⟨hnone, -⟩ | ⟨path'', hpath'', -, hguard⟩
    · cases hnone.symm.trans hpath'
    · obtain rfl := Option.some.inj (hpath''.symm.trans hpath')
      simpa [Arguments.overwrites, hpath] using hguard
  refine ⟨hne, fun hplain hplain' hhere place hplace hsame => hne ?_⟩
  have hsame : files.place? path' = some place := by
    simpa [Arguments.outputPlace, hpath'] using hsame
  exact Files.path_eq_of_locate hplain hplain' hhere (Files.place?_eq_some.mp hplace)
    (Files.place?_eq_some.mp hsame)

end Plan

/-- **What a successful command leaves behind**: the image and the listing where they were asked for,
    and every other file as it was.  The places of all writes are known before the first of them, so
    each place is settled by the last write that goes there; the guard adds that the image does not go
    to the path of the source, which is less than its place. -/
theorem run_delivers {a : Arguments} {files : Files} {stdin : ByteArray}
    (h : (a.run files stdin).exit = 0) : ∃ source image,
      a.source files stdin = .ok source ∧ assemble source a.options = .ok image ∧
      Delivers a files image (a.run files stdin) := by
  obtain ⟨source, image, sink, hsource, himage, hsink, hrun⟩ := run_exit_zero h
  refine ⟨source, image, hsource, himage, ?_⟩
  rw [hrun] at h ⊢
  obtain ⟨hmessage, hstdout⟩ := perform_stdout h
  have hfiles : ∀ place, (perform files .empty (a.writes sink image)).files.get? place =
      if a.symbolsPlace files = some place then some image.symbols.toUTF8
      else if a.outputPlace files = some place then some ⟨image.bytes⟩ else files.get? place := by
    intro place
    rw [perform_files h, contentAfter_writes hsink]
  constructor
  case message => exact hmessage
  case stdout => exact hstdout.trans (printed_writes hsink)
  case places =>
    intro path hpath
    obtain ⟨w, hw, hfile⟩ := written_of_asked hsink hpath
    exact perform_places h w hw path hfile
  case symbols =>
    intro place hplace
    rw [hfiles, if_pos hplace]
  case output =>
    intro place hplace hother
    rw [hfiles, if_neg hother, if_pos hplace]
  case others =>
    intro place hplace hother
    rw [hfiles, if_neg hother, if_neg hplace]
  case input => exact fun path hpath path' hpath' => guard_keeps_input hsink hpath hpath'

/-- A directory with one source. -/
def oneSource : Files := [(["a.8o"], ": main\nclear\n".toUTF8)]

/-- Arguments that ask for the image and the listing of this source at given paths. -/
def ofOneSource (output symbols : Option String) : Arguments :=
  { input := some "a.8o", output, symbols }

/-- A run that keeps all files apart.  Beside it two that succeed as well: `./a.8o` is not written
    like `a.8o`, so the image takes the place of the source, and the listing takes that of the
    image. -/
theorem run_delivers_oneSource :
    (((ofOneSource (some "./a.8o") none).run oneSource .empty).exit = 0 ∧
      ((ofOneSource (some "./a.8o") none).run oneSource .empty).files =
        [(["a.8o"], ⟨#[0, 0xE0]⟩)]) ∧
    (((ofOneSource none (some "a.ch8")).run oneSource .empty).exit = 0 ∧
      ((ofOneSource none (some "a.ch8")).run oneSource .empty).files.get? ["a.ch8"] =
        some "0x200 main\n".toUTF8) ∧
    ((ofOneSource none (some "a.sym")).run oneSource .empty).exit = 0 ∧ ∃ source image,
      (ofOneSource none (some "a.sym")).source oneSource .empty = .ok source ∧
      assemble source (ofOneSource none (some "a.sym")).options = .ok image ∧
      Delivers (ofOneSource none (some "a.sym")) oneSource image
        ((ofOneSource none (some "a.sym")).run oneSource .empty) := by
  have hreplaced : ((ofOneSource (some "./a.8o") none).run oneSource .empty).exit = 0 ∧
      ((ofOneSource (some "./a.8o") none).run oneSource .empty).files =
        [(["a.8o"], ⟨#[0, 0xE0]⟩)] := by decide +kernel
  have hlisted : ((ofOneSource none (some "a.ch8")).run oneSource .empty).exit = 0 ∧
      ((ofOneSource none (some "a.ch8")).run oneSource .empty).files.get? ["a.ch8"] =
        some "0x200 main\n".toUTF8 := by decide +kernel
  have hapart : ((ofOneSource none (some "a.sym")).run oneSource .empty).exit = 0 := by
    decide +kernel
  exact ⟨hreplaced, hlisted, hapart, run_delivers hapart⟩

end OctoAsm.Command
