/-
  A label stands for its nearest declaration.

  `:next` may declare one label again and again, and a use of the label takes the last address in
  the list that is not beyond the address of the next byte.  That this is the greatest such address
  rests on the order of the list: a first pass records addresses in increasing order
  (`pairwise_marks`).
  The invariant is `Ready`, which bounds what a label with an address can get later from below; the
  induction is on the moves of the first pass.
-/
import Mathlib.Order.Bounds.Basic
import OctoAsm.Proofs.Image.References

namespace OctoAsm

namespace Run

/-! ## Searching a list in order -/

/-- The address among some that is nearest to `pc`: the greatest that is not beyond `pc` or, if all
    are, the least of all. -/
structure Nearest (pc : Nat) (addresses : List Nat) (a : Nat) : Prop where
  below : (∃ b ∈ addresses, b ≤ pc) → IsGreatest {b | b ∈ addresses ∧ b ≤ pc} a
  beyond : (∀ b ∈ addresses, pc < b) → IsLeast {b | b ∈ addresses} a

/-- The last element of a list in order that is not beyond a bound is the greatest such. -/
theorem isGreatest_of_find?_reverse {pc a : Nat} {addresses : List Nat}
    (hsorted : addresses.Pairwise (· ≤ ·))
    (hfind : addresses.reverse.find? (· ≤ pc) = some a) :
    IsGreatest {b | b ∈ addresses ∧ b ≤ pc} a := by
  obtain ⟨hle, later, earlier, hsplit, hlater⟩ := List.find?_eq_some_iff_append.mp hfind
  have haddresses : addresses = earlier.reverse ++ a :: later.reverse := by
    have := congrArg List.reverse hsplit
    simpa using this
  subst haddresses
  refine ⟨⟨by simp, by simpa using hle⟩, ?_⟩
  rintro b ⟨hb, hbelow⟩
  -- what comes behind `a` is beyond the bound, what comes before is not above `a`
  rcases List.mem_append.mp hb with hb | hb
  · exact (List.pairwise_append.mp hsorted).2.2 b hb a List.mem_cons_self
  · rcases List.mem_cons.mp hb with rfl | hb
    · exact Nat.le_refl b
    · have hnot := hlater b (List.mem_reverse.mp hb)
      simp only [Bool.not_eq_true', decide_eq_false_iff_not] at hnot
      exact absurd hbelow hnot

/-- The search among addresses in order finds the nearest. -/
theorem nearest?_of_sorted {pc : Nat} {addresses : List Nat} (hne : addresses ≠ [])
    (hsorted : addresses.Pairwise (· ≤ ·)) :
    ∃ a, nearest? pc addresses = some a ∧ Nearest pc addresses a := by
  unfold nearest?
  cases hfind : addresses.reverse.find? (· ≤ pc) with
  | some a =>
    have hgreatest := isGreatest_of_find?_reverse hsorted hfind
    refine ⟨a, rfl, fun _ => hgreatest, fun hall => ?_⟩
    obtain ⟨ha, hle⟩ := hgreatest.1
    exact absurd (hall a ha) (Nat.not_lt.mpr hle)
  | none =>
    obtain ⟨first, rest, rfl⟩ := List.exists_cons_of_ne_nil hne
    refine ⟨first, rfl, fun ⟨b, hb, hle⟩ => ?_, fun _ => ⟨List.mem_cons_self, fun b hb => ?_⟩⟩
    · have hnot := List.find?_eq_none.mp hfind b (List.mem_reverse.mpr hb)
      exact absurd (decide_eq_true hle) hnot
    · rcases List.mem_cons.mp hb with rfl | hb
      · exact Nat.le_refl b
      · exact (List.pairwise_cons.mp hsorted).1 b hb

/-! ## A first pass records in order -/

section Marks

variable {run : Run} {p q : Progress} {moves : List Move} {name : String}

/-- A mark is at the next byte or at the one after it. -/
theorem mark?_le {m : Move} {a : Nat} (h : run.mark? name ⟨m, p⟩ = some a) :
    a ≤ run.pc p.draft + 1 := by
  obtain ⟨next, -, rfl⟩ := mark?_eq_some h
  have hnext := Bool.toNat_le next
  exact (Nat.mod_le _ _).trans (Nat.add_le_add_left hnext _)

/-- **The addresses that a first pass records for a label are in order.** -/
theorem pairwise_marks (hready : Ready run p moves) (hpass : run.pass = .layout)
    (hmemory : run.options.memoryEnd < 0xFFFF) :
    ((run.trail p moves).filterMap (run.mark? name)).Pairwise (· ≤ ·) := by
  induction moves generalizing p with
  | nil => exact .nil
  | cons m rest ih =>
    cases hact : run.act p m.act with
    | error cause =>
      cases hmark : run.mark? name ⟨m, p⟩ <;> simp [trail, hact, hmark]
    | ok q =>
      have hrest := hready.step hpass hmemory hact
      rw [trail_cons_of_ok run hact]
      cases hmark : run.mark? name ⟨m, p⟩ with
      | none => simpa [hmark] using ih hrest
      | some a =>
        rw [List.filterMap_cons_some hmark]
        refine List.pairwise_cons.mpr ⟨fun b hb => ?_, ih hrest⟩
        -- from here on the label has an address, so what it gets later is beyond the next byte
        have hrecorded : q.draft.labels.recorded name ≠ [] := by
          rw [recorded_act hpass hact name, hmark]
          simp
        have hlater := hrest.lt_of_later hmemory hrecorded b hb
        have hgrows := (act_effect hact).grows
        have hle := mark?_le hmark
        unfold pc at hlater hle
        omega

end Marks

end Run

/-! ## Programs -/

/-- What a use of a label goes by, at a point of the second pass. -/
structure UsesNearest (settings : Options) (items : List Item) (d : Draft) (label : String) :
    Prop where
  /-- the addresses of the label are those that the first pass came past, in their order -/
  marks : d.labels.recorded label =
    (Run.trail ⟨settings, .layout⟩ layoutStart (planOf items)).filterMap
      (Run.mark? ⟨settings, .layout⟩ label)
  nonempty : d.labels.recorded label ≠ []
  sorted : (d.labels.recorded label).Pairwise (· ≤ ·)
  nearest : ∃ a, Run.address? ⟨settings, .emit⟩ d label = some a ∧
    Run.Nearest (Run.pc ⟨settings, .emit⟩ d) (d.labels.recorded label) a

/-- **Repeated labels resolve to the nearest declaration.** Wherever the second pass comes to look
    at a value, every label of it has addresses, in order, and stands for the greatest that is not
    beyond the next byte or, if there is none, for the least. They are in order because the first
    pass records them while the place of emission only grows. -/
theorem labels_nearest {options settings : Options} {program : List Statement} {items : List Item}
    {laid : Draft} (hresolved : resolve options program = .ok items)
    (horigin : settings.origin < 0xFFFF) (hmemory : settings.memoryEnd < 0xFFFF)
    (hlaid : layOut settings items = .ok laid) :
    ∀ stage ∈ Run.trail ⟨settings, .emit⟩ (emitStart laid) (planOf items),
      ∀ v ∈ stage.move.act.values, ∀ label ∈ v.1.labels,
        UsesNearest settings items stage.before.draft label := by
  obtain ⟨names, hends, -⟩ := resolve_endsWith hresolved
  obtain ⟨-, -, haccounts⟩ := hends.sound
  have hready := ready_layoutStart haccounts.distinct horigin
  have hfollow := layOut_eq_ok.mp hlaid
  intro stage hstage v hv label hlabel
  -- the second pass reads the table that the first one leaves
  have hlabels : stage.before.draft.labels = laid.labels :=
    (Run.labels_follow_emit rfl).1 stage hstage
  have hmarks : stage.before.draft.labels.recorded label =
      (Run.trail ⟨settings, .layout⟩ layoutStart (planOf items)).filterMap
        (Run.mark? ⟨settings, .layout⟩ label) := by
    rw [hlabels]
    exact Run.recorded_follow rfl hfollow label
  have hne : stage.before.draft.labels.recorded label ≠ [] := by
    have hmentioned :=
      mem_mentionedIn_of_mem_planOf (Run.move_mem_of_mem_trail _ hstage) hv hlabel
    obtain ⟨next, hdeclared⟩ := hends.mentioned_declared hmentioned
    rw [hlabels]
    exact recorded_layOut hlaid hdeclared
  have hsorted : (stage.before.draft.labels.recorded label).Pairwise (· ≤ ·) := by
    rw [hmarks]
    exact Run.pairwise_marks hready rfl hmemory
  refine ⟨hmarks, hne, hsorted, ?_⟩
  rw [Run.address?_eq]
  exact Run.nearest?_of_sorted hne hsorted

/-- The label `step` is used before its first declaration, between its two and after the last. -/
def repeatedItems : List Item :=
  [.leaf ⟨1, "main"⟩ (.label "main"),
    .leaf ⟨2, "i"⟩ (.instr (.addr .sto (.label "step"))),
    .leaf ⟨3, "step"⟩ (.nextLabel "step"),
    .leaf ⟨3, "clear"⟩ (.instr (.bare .clr)),
    .leaf ⟨4, "i"⟩ (.instr (.addr .sto (.label "step"))),
    .leaf ⟨5, "step"⟩ (.nextLabel "step"),
    .leaf ⟨5, "clear"⟩ (.instr (.bare .clr)),
    .leaf ⟨6, "i"⟩ (.instr (.addr .sto (.label "step")))]

/-- The statements of `repeatedItems`. -/
def repeatedProgram : List Statement :=
  [.label ⟨1, .name, "main"⟩, use 2, step 3, use 4, step 5, use 6]
where
  /-- `i := step` -/
  use (line : Nat) : Statement :=
    .simple (.assign (.indexSet ⟨line, .name, "i"⟩ (.named ⟨line, .name, "step"⟩)))
  /-- `:next step clear` -/
  step (line : Nat) : Statement :=
    .next ⟨line, .name, ":next"⟩ ⟨line, .name, "step"⟩ (.simple (.clear ⟨line, .name, "clear"⟩))

/-- What the first pass leaves of `repeatedItems`. -/
def repeatedLaid : Draft where
  bytes := #[0xA0, 0, 0, 0xE0, 0xA2, 3, 0, 0xE0, 0xA2, 7]
  labels := [("main", [0x200]), ("step", [0x203, 0x207])]
  breakpoints := []
  monitors := []

/-- The image of `repeatedItems`: the first use goes by the first declaration, each later one by the
    last declaration before it. -/
def repeatedImage : Image where
  origin := 0x200
  bytes := #[0xA2, 3, 0, 0xE0, 0xA2, 3, 0, 0xE0, 0xA2, 7]
  labels := [("main", 0x200), ("step", 0x203)]
  breakpoints := []
  monitors := []

theorem labels_nearest_repeated :
    resolve {} repeatedProgram = .ok repeatedItems ∧
      layOut {} repeatedItems = .ok repeatedLaid ∧
      Image.ofItems {} repeatedItems = .ok repeatedImage ∧
      ∀ stage ∈ Run.trail ⟨{}, .emit⟩ (emitStart repeatedLaid) (planOf repeatedItems),
        ∀ v ∈ stage.move.act.values, ∀ label ∈ v.1.labels,
          UsesNearest {} repeatedItems stage.before.draft label := by
  have hresolved : resolve {} repeatedProgram = .ok repeatedItems := rfl
  have hlaid : layOut {} repeatedItems = .ok repeatedLaid := by decide +kernel
  have himage : Image.ofItems {} repeatedItems = .ok repeatedImage := by decide +kernel
  exact ⟨hresolved, hlaid, himage, labels_nearest hresolved (by decide) (by decide) hlaid⟩

end OctoAsm
