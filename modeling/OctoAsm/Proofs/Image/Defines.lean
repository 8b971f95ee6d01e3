/-
  Constants from outside, and the line that declares them.

  A constant from outside can be written into the source: as a line in front of all others.  The line
  is three words, so its tokens are known, and what comes after it is read as if it stood alone, one
  line further down (`readSource_constLine`).  Each stage then keeps the two assemblies together: the
  resolutions go through the same statements on other lines, and the images depend on no line.
-/
import OctoAsm.Assemble
import OctoAsm.Proofs.Image.Sites
import OctoAsm.Proofs.Resolve.Defines
import OctoAsm.Proofs.Statement.Concatenation
import OctoAsm.Proofs.Statement.Unique
import OctoAsm.Proofs.Token.Words

namespace OctoAsm

/-- The line that declares a constant. -/
def constLine (name : String) (value : Int) : String := ":const " ++ name ++ " " ++ toString value

/-- The tokens of that line, where it is the first. -/
def constTokens (name : String) (value : Int) : List Token :=
  [⟨1, .directive .const, ":const"⟩, ⟨1, .name, name⟩, ⟨1, .number value, toString value⟩,
    ⟨1, .newline, "\n"⟩]

/-- The statement of that line. -/
def constStatement (name : String) (value : Int) : Statement :=
  .declaration (.const ⟨1, .directive .const, ":const"⟩ ⟨1, .name, name⟩
    (.number ⟨1, .number value, toString value⟩ value))

theorem toList_constLine (name : String) (value : Int) : (constLine name value).toList =
    unwords [":const".toList, name.toList, (toString value).toList] := by
  simp [constLine, unwords, List.intercalate]

/-- A token, one line further up. -/
def Token.up (t : Token) : Token := { t with line := t.line - 1 }

theorem relines_up : Relines Token.up := ⟨fun _ => rfl, fun _ => rfl, fun _ _ => rfl⟩

section Define

variable {name : String} {value : Int} (hname : classify name.toList = .ok .name)
  (hlo : -(Text.maxInt + 1) ≤ value) (hhi : value ≤ Text.maxInt)

include hname hlo hhi

/-- The words of the line. -/
theorem plainWord_constLine : ∀ w ∈ [(":const".toList, TokenKind.directive .const),
    (name.toList, .name), ((toString value).toList, .number value)], PlainWord w.1 w.2 := by
  have hplain : ":const".toList.all isPlain = true := by decide
  have hdirective : PlainWord ":const".toList (.directive .const) :=
    ⟨by decide, List.all_eq_true.mp hplain, by simp, rfl⟩
  intro w hw
  simp only [List.mem_cons, List.not_mem_nil, or_false] at hw
  rcases hw with rfl | rfl | rfl
  · exact hdirective
  · exact plainWord_name hname
  · exact plainWord_number hlo hhi

theorem tokenize_constLine : tokenize (constLine name value) = .ok (constTokens name value) := by
  have htokens := tokenize_words (plainWord_constLine hname hlo hhi) (toList_constLine name value)
  simpa [constTokens] using htokens

theorem count_constLine : (constLine name value).toList.count '\n' = 0 := by
  rw [toList_constLine, List.count_eq_zero]
  exact not_mem_unwords (by decide) (by decide) (plainWord_constLine hname hlo hhi)

/-- The tokens of a source behind the line. -/
theorem tokenize_behind_constLine {source : String} {ts : List Token} :
    tokenize (constLine name value ++ "\n" ++ source) = .ok ts ↔
      ∃ us, tokenize source = .ok us ∧ ts = constTokens name value ++ us.map (Token.down 1) := by
  rw [tokenize_append (tokenize_constLine hname hlo hhi), count_constLine hname hlo hhi,
    mapError_eq_ok, map_eq_ok]
  simp only [eq_comm]

/-- **A source behind the line** reads as the statement of the line and the statements of the source,
    one line further down. -/
theorem readSource_constLine (source : String) :
    Agree (fun p p' => p' = constStatement name value :: mapTokensAll (Token.down 1) p)
      (readSource source) (readSource (constLine name value ++ "\n" ++ source)) := by
  refine agree_of_eq_ok_iff fun program => ?_
  have hline : ∀ us, Reads (.statement false) (constTokens name value)
      [constStatement name value] (lead us none) :=
    fun us => .line (.const rfl rfl rfl) (.feed rfl)
  have hback : ∀ t : Token, Token.up (Token.down 1 t) = t := fun t => rfl
  rw [readSource_eq_ok]
  simp only [tokenize_behind_constLine hname hlo hhi, readSource_eq_ok]
  constructor
  · rintro ⟨_, ⟨us, hus, rfl⟩, hreads⟩
    obtain ⟨rest, rfl, hrest⟩ := (hline _).body_cons_iff.mp hreads
    obtain ⟨p, rfl, hp⟩ := (Reads.mapTokens_iff (relines_down 1) relines_up hback).mp hrest
    exact ⟨p, ⟨us, hus, hp⟩, rfl⟩
  · rintro ⟨p, ⟨us, hus, hp⟩, rfl⟩
    have hrest := (Reads.mapTokens_iff (relines_down 1) relines_up hback).mpr ⟨p, rfl, hp⟩
    exact ⟨_, ⟨us, hus, rfl⟩, (hline _).body_cons_iff.mpr ⟨_, rfl, hrest⟩⟩

/-- The items of a source with the constant from outside, and of the source behind the line. -/
theorem resolveSource_constLine {options : Options} (hnone : options.defines = []) (source : String) :
    Agree (Alike SameText) (resolveSource source { options with defines := [(name, value)] })
      (resolveSource (constLine name value ++ "\n" ++ source) options) := by
  refine (readSource_constLine hname hlo hhi source).bind fun p p' hp => ?_
  subst hp
  have hkind : (⟨1, .name, name⟩ : Token).kind = .name := rfl
  have hitems : Agree (Alike SameText) (resolve { options with defines := [(name, value)] } p)
      (resolve options (constStatement name value :: mapTokensAll (Token.down 1) p)) :=
    resolve_define (relines_down 1) hnone hkind rfl p
  exact hitems.mapError

end Define

/-- **A constant from outside is a constant of the first line.**  For a name and a signed 64-bit
    value, assembling a source with the constant from outside and assembling the source behind the line
    `:const name value` succeed together, and then with the same image. -/
theorem assemble_define {name : String} (hname : classify name.toList = .ok .name) {value : Int}
    (hlo : -2 ^ 63 ≤ value) (hhi : value < 2 ^ 63) {options : Options}
    (hnone : options.defines = []) (source : String) (image : Image) :
    assemble source { options with defines := [(name, value)] } = .ok image ↔
      assemble (":const " ++ name ++ " " ++ toString value ++ "\n" ++ source) options =
        .ok image := by
  have hmin : -(Text.maxInt + 1) ≤ value := hlo
  have hmax : value ≤ Text.maxInt := Int.lt_add_one_iff.mp hhi
  have hitems := resolveSource_constLine hname hmin hmax hnone source
  have himages : Agree Eq (assemble source { options with defines := [(name, value)] })
      (assemble (constLine name value ++ "\n" ++ source) options) :=
    hitems.bind fun items items' halike => (ofItems_alike options _ halike).mapError
  exact himages.eq_ok_iff

/-- A program that counts by a step from outside. -/
def steppingSource : String := ": main\n  v0 += step\n  jump main"

/-- The image of `steppingSource` with steps of `-3`. -/
def steppingImage : Image where
  origin := 0x200
  bytes := #[0x70, 0xFD, 0x12, 0]
  labels := [("main", 0x200)]
  breakpoints := []
  monitors := []

theorem assemble_define_stepping : classify "step".toList = .ok .name ∧
    assemble steppingSource { defines := [("step", -3)] } = .ok steppingImage ∧
    assemble (":const " ++ "step" ++ " " ++ toString (-3 : Int) ++ "\n" ++ steppingSource) {} =
      .ok steppingImage := by
  have hname : classify "step".toList = .ok .name := rfl
  have himage : assemble steppingSource { defines := [("step", -3)] } = .ok steppingImage := by
    decide +kernel
  exact ⟨hname, himage, (assemble_define hname (by decide) (by decide) rfl _ _).mp himage⟩

end OctoAsm
