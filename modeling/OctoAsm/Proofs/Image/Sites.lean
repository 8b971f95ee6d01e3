/-
  What an image does not depend on.

  Items carry the places they came from, and options carry the constants that are declared before the
  first line.  The first only show in diagnostics, and the second are gone once names are resolved:
  items that are alike either all fail to make an image, or make the same one (`ofItems_alike`).  The
  induction is on the likeness of the items, which gives a body and the items after it at once.
-/
import OctoAsm.Image.Emit
import OctoAsm.Proofs.Outcome
import OctoAsm.Proofs.Program

namespace OctoAsm

/-- The same pass, with other constants declared beforehand. -/
def Run.defining (run : Run) (defines : List (String × Int)) : Run :=
  { run with options := { run.options with defines } }

section Defines

variable (run : Run) (defines : List (String × Int)) (d : Draft)

open Machine (Mnemonic Word)

theorem ops_defining (code : List (Mnemonic × List Word)) :
    (run.defining defines).ops d code = run.ops d code := by
  induction code generalizing d with
  | nil => rfl
  | cons entry rest ih =>
    show ((run.op d entry.1 entry.2) >>= fun d => (run.defining defines).ops d rest) = _
    simp only [ih]
    rfl

theorem zeros_defining (n : Nat) : (run.defining defines).zeros d n = run.zeros d n := by
  induction n generalizing d with
  | zero => rfl
  | succ n ih =>
    show ((run.byte d 0) >>= fun d => (run.defining defines).zeros d n) = _
    simp only [ih]
    rfl

theorem skip_defining (cond : Cond) (skipWhen : Bool) :
    (run.defining defines).skip d cond skipWhen = run.skip d cond skipWhen := by
  show (run.skipCode d cond skipWhen >>= fun code => (run.defining defines).ops d code) = _
  simp only [ops_defining]
  rfl

theorem leaf_defining (l : Leaf) : (run.defining defines).leaf d l = run.leaf d l := by
  cases l with
  | org target =>
    show (run.defining defines).org d target = run.org d target
    unfold Run.org
    simp only [zeros_defining]
    rfl
  | unpack hi lo tag value =>
    show (run.defining defines).unpack d hi lo tag value = run.unpack d hi lo tag value
    unfold Run.unpack
    simp only [ops_defining]
    rfl
  | _ => rfl

end Defines

/-! ## Places -/

/-- Whom a failure is blamed on does not change what succeeds. -/
theorem blame_agree {α : Type} (x y : Site) (outcome : Except EmitCause α) :
    Agree Eq (x.blame outcome) (y.blame outcome) := by
  cases outcome with
  | ok a => exact .ok rfl
  | error cause => exact .error

/-- Items that are alike append the same bytes and records, or none of them can be appended. -/
theorem block_alike (run : Run) (defines : List (String × Int)) {same : Site → Site → Prop}
    {items items' : List Item} (h : Alike same items items') (d : Draft) :
    Agree Eq ((run.defining defines).block d items) (run.block d items') := by
  -- the steps of either run, with the constants gone
  have hskip : ∀ (x y : Site) d cond skipWhen, Agree Eq
      (x.blame ((run.defining defines).skip d cond skipWhen)) (y.blame (run.skip d cond skipWhen)) := by
    intro x y d cond skipWhen
    rw [skip_defining]
    exact blame_agree x y _
  induction h generalizing d with
  | nil => exact .ok rfl
  | @leaf x y l _ _ _ _ ih =>
    refine Agree.bind_eq ?_ ih
    show Agree Eq (x.blame ((run.defining defines).leaf d l)) (y.blame (run.leaf d l))
    rw [leaf_defining]
    exact blame_agree x y _
  | @ifThen x y cond _ _ _ _ _ _ _ ihbody ih =>
    refine Agree.bind_eq ?_ ih
    refine (hskip x y d cond false).bind_eq fun start => (ihbody start).bind_eq fun d' => ?_
    dsimp only
    split
    · exact .ok rfl
    · exact blame_agree x y _
  | @ifBegin x y cond _ _ _ _ _ _ _ ihbody ih =>
    refine Agree.bind_eq ?_ ih
    refine (hskip x y d cond true).bind_eq fun d' => (blame_agree x y _).bind_eq fun d'' => ?_
    exact (ihbody d'').bind_eq fun _ => blame_agree x y _
  | @ifElse x y cond _ _ _ _ _ _ _ _ _ _ ihbody ihother ih =>
    refine Agree.bind_eq ?_ ih
    refine (hskip x y d cond true).bind_eq fun d' => (blame_agree x y _).bind_eq fun d'' => ?_
    refine (ihbody d'').bind_eq fun _ => (blame_agree x y _).bind_eq fun _ => ?_
    refine (blame_agree x y _).bind_eq fun d₃ => ?_
    exact (ihother d₃).bind_eq fun _ => blame_agree x y _
  | @loop x y _ _ _ _ _ _ _ ihbody ih =>
    refine Agree.bind_eq ?_ ih
    exact (ihbody d).bind_eq fun _ => blame_agree x y _
  | @loopUntil x y cond _ _ _ _ _ _ _ ihbody ih =>
    refine Agree.bind_eq ?_ ih
    refine (ihbody d).bind_eq fun d' => (hskip x y d' cond false).bind_eq fun _ => ?_
    refine (blame_agree x y _).bind_eq fun _ => (blame_agree x y _).bind_eq fun _ => ?_
    exact blame_agree x y _
  | @whileDo x y cond _ _ _ _ _ _ _ ihbody ih =>
    refine Agree.bind_eq ?_ ih
    refine (hskip x y d cond true).bind_eq fun d' => (blame_agree x y _).bind_eq fun d'' => ?_
    refine (ihbody d'').bind_eq fun _ => (blame_agree x y _).bind_eq fun _ => ?_
    exact blame_agree x y _

/-- **The image of a program depends neither on where its items were written nor on the constants that
    were declared beforehand.** -/
theorem ofItems_alike (options : Options) (defines : List (String × Int))
    {same : Site → Site → Prop} {items items' : List Item} (h : Alike same items items') :
    Agree Eq (Image.ofItems { options with defines } items) (Image.ofItems options items') := by
  refine (block_alike ⟨options, .layout⟩ defines h .empty).bind_eq fun laid => ?_
  refine (block_alike ⟨options, .emit⟩ defines h { laid with bytes := #[] }).bind_eq fun emitted => ?_
  exact .ok rfl

end OctoAsm
