/-
  Every diagnostic points into the source.

  The invariant is a range of lines, from the first to the last of the text, and it is handed from
  stage to stage: the lexer puts tokens on lines of the text (`lines_of_tokenize`), the parser stops at
  a token and makes its statements of tokens, the resolver blames tokens and gives items their lines
  (`resolveWith_ends`), and the emission blames items.  Between parser and resolver "made of tokens of
  the text" is said by `Token.clamp`, which would change any other token.

  Constants from outside have no line; a clash among them is blamed on line 0.
-/
import OctoAsm.Assemble
import OctoAsm.Proofs.Image.Encodable
import OctoAsm.Proofs.Resolve.Positions
import OctoAsm.Proofs.Statement.Positions

namespace OctoAsm

/-! ## Emission -/

/-- Every move has the site of an item, at any depth. -/
theorem line_of_mem_planOf {L : Nat → Prop} {is js : List Item}
    (h : Alike (fun x _ => L x.line) is js) : ∀ m ∈ planOf is, L m.site.line := by
  induction h
  all_goals simp only [planOf, Item.plan, List.forall_mem_append, List.forall_mem_cons,
    List.not_mem_nil, false_implies, implies_true, and_true]
  case leaf hsite _ ih => exact ⟨⟨hsite, hsite⟩, ih⟩
  case ifThen hsite _ _ ihbody ih => exact ⟨⟨hsite, hsite, hsite, ihbody, hsite⟩, ih⟩
  case ifBegin hsite _ _ ihbody ih => exact ⟨⟨hsite, hsite, hsite, ihbody, hsite⟩, ih⟩
  case ifElse hsite _ _ _ ihbody ihother ih =>
    exact ⟨⟨hsite, hsite, hsite, ihbody, hsite, hsite, hsite, ihother, hsite⟩, ih⟩
  case loop hsite _ _ ihbody ih => exact ⟨⟨hsite, hsite, ihbody, hsite⟩, ih⟩
  case loopUntil hsite _ _ ihbody ih =>
    exact ⟨⟨hsite, hsite, ihbody, hsite, hsite, hsite, hsite, hsite⟩, ih⟩
  case whileDo hsite _ _ ihbody ih =>
    exact ⟨⟨hsite, hsite, hsite, hsite, ihbody, hsite, hsite, hsite⟩, ih⟩

/-- A failure of the emission lies on the line of an item. -/
theorem line_of_ofItems_eq_error {L : Nat → Prop} {settings : Options} {items : List Item}
    {e : EmitError} (hitems : Placed L items) (h : Image.ofItems settings items = .error e) :
    L e.line := by
  obtain ⟨run, stage, hfails⟩ := ofItems_eq_error.mp h
  have hline : e.line = stage.move.site.line := congrArg Diagnostic.line hfails.2.2
  rw [hline]
  exact line_of_mem_planOf hitems _ hfails.move_mem

/-! ## All stages -/

/-- The diagnostic comes from a constant from outside that could not be declared. -/
def RaisedByDefine (source : String) (options : Options) (e : AssembleError) : Prop :=
  ∃ program r, readSource source = .ok program ∧ defineAll [] options.defines = .error r ∧
    e = .resolve r

/-- A line from the first to the `n`th. -/
def InFirst (n line : Nat) : Prop := 1 ≤ line ∧ line ≤ n

section Stages

variable {source : String} {options : Options} {n : Nat}

/-- What is read from a text, or the line of a failure. -/
theorem readSource_ends (hn : max 1 (Text.lines source).length = n) :
    Ends (fun e => InFirst n e.line)
      (fun program => mapTokensAll (Token.clamp n) program = program) (readSource source) := by
  have hpos : 1 ≤ n := by omega
  obtain ⟨htokens, herror⟩ := lines_of_tokenize source
  unfold readSource
  cases htokenize : tokenize source with
  | error e =>
    have hline := herror e htokenize
    exact .error ⟨hline.1, show e.line ≤ n by omega⟩
  | ok ts =>
    have hlines : ∀ t ∈ ts, InFirst n t.line := by
      intro t ht
      have hline := htokens ts htokenize t ht
      exact ⟨hline.1, by omega⟩
    show Ends _ _ ((parse ts).mapError AssembleError.parse)
    cases hparse : parse ts with
    | error e => exact .error (line_of_parse_eq_error hlines ⟨le_refl 1, hpos⟩ hparse)
    | ok program =>
      have hsettled : ∀ t ∈ ts, t.clamp n = t := fun t ht =>
        (Token.clamp_eq_self hpos).mpr (hlines t ht)
      exact .ok (mapTokens_of_parse (relines_clamp n) hsettled hparse)

/-- How the resolution of the statements ends, once the constants from outside are declared. -/
theorem resolved_ends (hn : max 1 (Text.lines source).length = n) {program : List Statement}
    (hprogram : readSource source = .ok program) {names : NameTable}
    (hnames : defineAll [] options.defines = .ok names) :
    Ends (fun e => InFirst n e.line) (Placed (InFirst n))
      (resolveWith names options.maxExpansionDepth program) := by
  have hpos : 1 ≤ n := by omega
  have hL : ∀ t : Token, t.clamp n = t → InFirst n t.line := fun t =>
    (Token.clamp_eq_self hpos).mp
  have hnone : NameTable.Settled (Token.clamp n) [] := fun _ => rfl
  exact resolveWith_ends (relines_clamp n) hL ⟨le_refl 1, hpos⟩
    ((defineAll_ends hnone options.defines).of_ok hnames) options.maxExpansionDepth
    ((readSource_ends hn).of_ok hprogram)

/-- **Every diagnostic points into the source.**  Whatever stage it comes from, its line is one of the
    text's, or the first if the text has none; only a clash among constants from outside is on
    line 0. -/
theorem line_of_assemble_eq_error {e : AssembleError} (h : assemble source options = .error e) :
    (RaisedByDefine source options e → e.line = 0) ∧
      (¬ RaisedByDefine source options e →
        1 ≤ e.line ∧ e.line ≤ max 1 (Text.lines source).length) := by
  obtain ⟨n, hn⟩ : ∃ n, max 1 (Text.lines source).length = n := ⟨_, rfl⟩
  rw [hn]
  constructor
  · rintro ⟨program, r, -, hdefine, rfl⟩
    have hnone : NameTable.Settled id [] := fun _ => rfl
    exact (defineAll_ends hnone options.defines).of_error hdefine
  · intro hraised
    rcases bind_eq_error.mp h with h | ⟨items, hitems, h⟩
    · rcases bind_eq_error.mp h with h | ⟨program, hprogram, h⟩
      · exact (readSource_ends hn).of_error h
      · obtain ⟨r, hr, rfl⟩ := mapError_eq_error.mp h
        rcases bind_eq_error.mp hr with hr | ⟨names, hnames, hr⟩
        · exact absurd ⟨program, r, hprogram, hr, rfl⟩ hraised
        · exact (resolved_ends hn hprogram hnames).of_error hr
    · obtain ⟨r, hr, rfl⟩ := mapError_eq_error.mp h
      obtain ⟨program, hprogram, hitems⟩ := bind_eq_ok.mp hitems
      obtain ⟨names, hnames, hitems⟩ := bind_eq_ok.mp (mapError_eq_ok.mp hitems)
      exact line_of_ofItems_eq_error ((resolved_ends hn hprogram hnames).of_ok hitems) hr

end Stages

/-- A macro that jumps to its argument: the call on the last line is blamed, not the body. -/
def jumpingSource : String := ":macro go TO \x7b jump TO \x7d\n: main\n\n  go away"

/-- Constants from outside may clash, a text may be empty, and a token of the last line may turn up
    in an expansion. -/
theorem line_of_assemble_eq_error_jumping :
    assemble "" { defines := [("a", 1), ("a", 2)] } =
      .error (.resolve ⟨0, "a", .declare (.nameInUse .const)⟩) ∧
    RaisedByDefine "" { defines := [("a", 1), ("a", 2)] }
      (.resolve ⟨0, "a", .declare (.nameInUse .const)⟩) ∧
    assemble "" {} = .error (.resolve ⟨1, "main", .missingMain⟩) ∧
    assemble jumpingSource {} = .error (.resolve ⟨4, "away", .undeclared⟩) ∧
    1 ≤ 4 ∧ 4 ≤ max 1 (Text.lines jumpingSource).length := by
  have hclash : assemble "" { defines := [("a", 1), ("a", 2)] } =
      .error (.resolve ⟨0, "a", .declare (.nameInUse .const)⟩) := by decide +kernel
  have hjump : assemble jumpingSource {} = .error (.resolve ⟨4, "away", .undeclared⟩) := by
    decide +kernel
  have hplain : ¬ RaisedByDefine jumpingSource {} (.resolve ⟨4, "away", .undeclared⟩) := by
    rintro ⟨program, r, -, hdefine, -⟩
    cases hdefine
  have hraised : RaisedByDefine "" { defines := [("a", 1), ("a", 2)] }
      (.resolve ⟨0, "a", .declare (.nameInUse .const)⟩) := ⟨[], _, rfl, rfl, rfl⟩
  exact ⟨hclash, hraised, by decide +kernel, hjump, (line_of_assemble_eq_error hjump).2 hplain⟩

end OctoAsm
