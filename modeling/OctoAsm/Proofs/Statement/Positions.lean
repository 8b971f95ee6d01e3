/-
  Where the statements of a text stand.

  For the statements nothing has to be read again: which statements a text stands for does not depend
  on its lines, so a change of lines that leaves the tokens alone leaves the statements alone
  (`mapTokens_of_parse`).  The change is `clamp`, which forces lines into a range.  A failure of the
  parser is blamed on one of the tokens, as `readProgram_ends` says.
-/
import OctoAsm.Proofs.Statement.Progress
import OctoAsm.Proofs.Statement.Relocation
import OctoAsm.Proofs.Token.Lines

namespace OctoAsm

/-- A token with its line forced into the range from 1 to `n`. -/
def Token.clamp (n : Nat) (t : Token) : Token := { t with line := max 1 (min t.line n) }

theorem Token.clamp_eq_self {n : Nat} (hn : 1 ≤ n) {t : Token} :
    t.clamp n = t ↔ 1 ≤ t.line ∧ t.line ≤ n := by
  obtain ⟨line, kind, text⟩ := t
  simp only [clamp, mk.injEq, and_true]
  omega

theorem relines_clamp (n : Nat) : Relines (Token.clamp n) :=
  ⟨fun _ => rfl, fun _ => rfl, fun _ _ => rfl⟩

/-- A program has tokens of its text only: what changes none of these does not change the program. -/
theorem mapTokens_of_parse {f : Token → Token} (hf : Relines f) {ts : List Token}
    {program : List Statement} (hts : ∀ t ∈ ts, f t = t) (h : parse ts = .ok program) :
    mapTokensAll f program = program := by
  have hsame : ts.map f = ts := (List.map_congr_left hts).trans ts.map_id
  have hmapped : Reads (.body false) (ts.map f) (program.map (Statement.mapTokens f)) none :=
    (parse_eq_ok.mp h).mapTokens hf
  rw [hsame] at hmapped
  rw [mapTokensAll_eq_map]
  exact Except.ok.inj ((parse_eq_ok.mpr hmapped).symm.trans h)

/-- A failure of the parser lies on the line of a token; without any tokens, on the first line. -/
theorem line_of_parse_eq_error {L : Nat → Prop} {ts : List Token} {e : ParseError}
    (hts : ∀ t ∈ ts, L t.line) (hfirst : L 1) (h : parse ts = .error e) : L e.line := by
  have hend : L ((ts.getLast?.map (·.line)).getD 1) := by
    cases hlast : ts.getLast? with
    | none => exact hfirst
    | some t => exact hts t (List.mem_of_getLast? hlast)
  unfold parse at h
  cases hread : readProgram ts with
  | ok result =>
    rw [hread] at h
    cases h
  | error stop =>
    rw [hread] at h
    obtain rfl := Except.error.inj h
    have hstop : stop.At (fun t => L t.line) False := (readProgram_ends hts).of_error hread
    cases stop with
    | exhausted => exact hstop.elim
    | refused found cause =>
      cases found with
      | none => exact hend
      | some t => exact hstop

end OctoAsm
