/-
  Code does what its block does, and nothing else.

  Forwards (`Exec.reaches`), an execution of the block is followed step by step: every rule of the
  structured semantics is a few steps of the machine, put together by transitivity.  Backwards
  (`stops_block`), a machine that stops is followed through the code of the block: it cannot stop
  inside, so it comes past the end, in a state in which the block ends too.  Loops go round by
  induction on the number of steps that are left, which every round makes smaller.
-/
import OctoAsm.Proofs.Flow.Machine

namespace OctoAsm

section Simulation

variable {σ : Type} {cpu : Processor σ} {mem : CodeMemory} {sem : Meaning σ} {a : Nat} {cond : Cond}
  {w : Bool}

/-- A test that ends as it is asked to skips the next instruction. -/
theorem Processor.Tests.skipped (h : cpu.Tests mem sem a cond w) {s : σ}
    (hw : sem.holds a cond s = w) : cpu.steps mem cond.words (a, s) =
      some (a + 2 * cond.words + 2, sem.tested a cond s) := by
  rw [h s, if_pos hw]

/-- A test in the sense that does not hold falls through to the code behind it. -/
theorem Processor.Tests.fallsThrough (h : cpu.Tests mem sem a cond w) {s : σ}
    (hw : sem.holds a cond s ≠ w) : cpu.steps mem cond.words (a, s) =
      some (a + 2 * cond.words, sem.tested a cond s) := by
  rw [h s, if_neg hw, Nat.add_zero]

/-! ## Where code ends -/

section Ends

variable (a : Nat) (site : Site) (cond : Cond) (i : Item) (rest body otherwise : List Item)

/-- A block ends where its last item ends. -/
theorem end_cons : a + totalSize (i :: rest) = a + i.size + totalSize rest := by
  rw [totalSize]; omega

theorem end_ifThen : a + totalSize [.ifThen site cond body] =
    a + 2 * cond.words + totalSize body := by
  simp only [totalSize, Item.size]; omega

theorem end_ifBegin : a + totalSize [.ifBegin site cond body] =
    a + 2 * cond.words + 2 + totalSize body := by
  simp only [totalSize, Item.size]; omega

theorem end_ifElse : a + totalSize [.ifElse site cond body otherwise] =
    a + 2 * cond.words + 2 + totalSize body + 2 + totalSize otherwise := by
  simp only [totalSize, Item.size]; omega

theorem end_loopUntil : a + totalSize [.loopUntil site body cond] =
    a + totalSize body + 2 * cond.words + 4 := by
  simp only [totalSize, Item.size]; omega

theorem end_whileDo : a + totalSize [.whileDo site cond body] =
    a + 2 * cond.words + 2 + totalSize body + 2 := by
  simp only [totalSize, Item.size]; omega

end Ends

/-! ## Forwards -/

/-- **What a block does, its code does**: it leads to the end of the code, in the same state. -/
theorem Exec.reaches {items : List Item} {s t : σ} (h : Exec sem a items s t) :
    Lowered cpu mem sem id a items → cpu.Reaches mem (a, s) (a + totalSize items, t) := by
  induction h with
  | nil => exact fun _ => .refl
  | cons hi hrest ihi ihrest =>
    intro hl
    obtain ⟨hlow, hlows⟩ := lowered_cons.mp hl
    rw [end_cons]
    exact (ihi hlow).trans (ihrest hlows)
  | instr =>
    intro hl
    exact .of_step (lowered_instr.mp hl _)
  | thenTrue h hb ih =>
    intro hl
    obtain ⟨htest, -, hbody⟩ := lowered_ifThen.mp hl
    rw [end_ifThen]
    exact (Processor.Reaches.of_steps (htest.fallsThrough (by simp [h]))).trans (ih hbody)
  | thenFalse h =>
    intro hl
    -- the body is one instruction, so skipping it leads to the end
    obtain ⟨htest, hsize, -⟩ := lowered_ifThen.mp hl
    rw [end_ifThen, hsize]
    exact .of_steps (htest.skipped h)
  | beginTrue h hb ih =>
    intro hl
    obtain ⟨htest, -, hbody⟩ := lowered_ifBegin.mp hl
    rw [end_ifBegin]
    exact (Processor.Reaches.of_steps (htest.skipped h)).trans (ih hbody)
  | beginFalse h =>
    intro hl
    obtain ⟨htest, hjump, -⟩ := lowered_ifBegin.mp hl
    rw [end_ifBegin]
    exact (Processor.Reaches.of_steps (htest.fallsThrough (by simp [h]))).trans
      (.of_step (hjump _))
  | elseTrue h hb ih =>
    intro hl
    obtain ⟨htest, -, hbody, hjump, -⟩ := lowered_ifElse.mp hl
    rw [end_ifElse]
    exact ((Processor.Reaches.of_steps (htest.skipped h)).trans (ih hbody)).trans
      (.of_step (hjump _))
  | elseFalse h ho ih =>
    intro hl
    obtain ⟨htest, hjump, -, -, hother⟩ := lowered_ifElse.mp hl
    rw [end_ifElse]
    exact ((Processor.Reaches.of_steps (htest.fallsThrough (by simp [h]))).trans
      (.of_step (hjump _))).trans (ih hother)
  | loop hb hagain ihb ihagain =>
    intro hl
    obtain ⟨hbody, hjump⟩ := lowered_loop.mp hl
    exact ((ihb hbody).trans (.of_step (hjump _))).trans (ihagain hl)
  | untilTrue hb h ih =>
    intro hl
    obtain ⟨hbody, htest, hjump, -⟩ := lowered_loopUntil.mp hl
    rw [end_loopUntil]
    exact ((ih hbody).trans (.of_steps (htest.fallsThrough (by simp [h])))).trans
      (.of_step (hjump _))
  | untilFalse hb h hagain ihb ihagain =>
    intro hl
    obtain ⟨hbody, htest, -, hback⟩ := lowered_loopUntil.mp hl
    exact (((ihb hbody).trans (.of_steps (htest.skipped h))).trans (.of_step (hback _))).trans
      (ihagain hl)
  | whileTrue h hb hagain ihb ihagain =>
    intro hl
    obtain ⟨htest, -, hbody, hback⟩ := lowered_whileDo.mp hl
    exact (((Processor.Reaches.of_steps (htest.skipped h)).trans (ihb hbody)).trans
      (.of_step (hback _))).trans (ihagain hl)
  | whileFalse h =>
    intro hl
    obtain ⟨htest, hjump, -, -⟩ := lowered_whileDo.mp hl
    rw [end_whileDo]
    exact (Processor.Reaches.of_steps (htest.fallsThrough (by simp [h]))).trans
      (.of_step (hjump _))

/-! ## Backwards -/

/-- A machine that stops first makes the jump it stands at. -/
theorem Processor.Stops.jump {n target : Nat} {s : σ} {c : Nat × σ}
    (h : cpu.Stops mem n (a, s) c) (hjump : cpu.Jumps mem a target) :
    ∃ m, n = 1 + m ∧ cpu.Stops mem m (target, s) c :=
  h.after (by rw [steps_one]; exact hjump s)

/-- The machine comes past the end of some code, in a state in which the block ends too. -/
def PassesEnd (cpu : Processor σ) (mem : CodeMemory) (sem : Meaning σ) (a : Nat) (items : List Item)
    (n : Nat) (s : σ) (c : Nat × σ) : Prop :=
  ∃ m t, m ≤ n ∧ Exec sem a items s t ∧ cpu.Stops mem m (a + totalSize items, t) c

mutual

/-- By recursion on the item: the machine cannot stop inside, as every address in its code has a
    next step, so it comes past the end. -/
theorem stops_item : ∀ (i : Item) {a n : Nat} {s : σ} {c : Nat × σ},
    Lowered cpu mem sem id a [i] → cpu.Stops mem n (a, s) c → PassesEnd cpu mem sem a [i] n s c
  | .leaf site l, a, n, s, c, hl, hstops => by
    cases l with
    | instr i =>
      have hstep : cpu.steps mem 1 (a, s) = some (a + 2, sem.instr a i s) := by
        rw [Processor.steps_one]
        exact lowered_instr.mp hl s
      obtain ⟨m, rfl, hm⟩ := hstops.after hstep
      exact ⟨m, _, by omega, .instr, hm⟩
    -- other leaves are no code
    | _ => exact hl.placed.1.elim
  | .ifThen site cond body, a, n, s, c, hl, hstops => by
    obtain ⟨htest, hsize, hbody⟩ := lowered_ifThen.mp hl
    cases h : sem.holds a cond s with
    | true =>
      obtain ⟨m, rfl, hm⟩ := hstops.after (htest.fallsThrough (by simp [h]))
      obtain ⟨k, t, hk, hexec, hend⟩ := stops_block body hbody hm
      refine ⟨k, t, by omega, .thenTrue h hexec, ?_⟩
      rw [end_ifThen]
      exact hend
    | false =>
      obtain ⟨m, rfl, hm⟩ := hstops.after (htest.skipped h)
      refine ⟨m, _, by omega, .thenFalse h, ?_⟩
      rw [end_ifThen, hsize]
      exact hm
  | .ifBegin site cond body, a, n, s, c, hl, hstops => by
    obtain ⟨htest, hjump, hbody⟩ := lowered_ifBegin.mp hl
    cases h : sem.holds a cond s with
    | true =>
      obtain ⟨m, rfl, hm⟩ := hstops.after (htest.skipped h)
      obtain ⟨k, t, hk, hexec, hend⟩ := stops_block body hbody hm
      refine ⟨k, t, by omega, .beginTrue h hexec, ?_⟩
      rw [end_ifBegin]
      exact hend
    | false =>
      obtain ⟨m, rfl, hm⟩ := hstops.after (htest.fallsThrough (by simp [h]))
      obtain ⟨k, rfl, hk⟩ := hm.jump hjump
      refine ⟨k, _, by omega, .beginFalse h, ?_⟩
      rw [end_ifBegin]
      exact hk
  | .ifElse site cond body otherwise, a, n, s, c, hl, hstops => by
    obtain ⟨htest, htoElse, hbody, htoEnd, hother⟩ := lowered_ifElse.mp hl
    cases h : sem.holds a cond s with
    | true =>
      obtain ⟨m, rfl, hm⟩ := hstops.after (htest.skipped h)
      obtain ⟨k, t, hk, hexec, hmiddle⟩ := stops_block body hbody hm
      obtain ⟨k', rfl, hend⟩ := hmiddle.jump htoEnd
      refine ⟨k', t, by omega, .elseTrue h hexec, ?_⟩
      rw [end_ifElse]
      exact hend
    | false =>
      obtain ⟨m, rfl, hm⟩ := hstops.after (htest.fallsThrough (by simp [h]))
      obtain ⟨m', rfl, hm'⟩ := hm.jump htoElse
      obtain ⟨k, t, hk, hexec, hend⟩ := stops_block otherwise hother hm'
      refine ⟨k, t, by omega, .elseFalse h hexec, ?_⟩
      rw [end_ifElse]
      exact hend
  | .loop site body, a, n, s, c, hl, hstops => by
    obtain ⟨hbody, hback⟩ := lowered_loop.mp hl
    -- every round makes a step at least: the jump back
    induction n using Nat.strongRecOn generalizing s with
    | ind n ih =>
      obtain ⟨m, t, hm, hexec, hmiddle⟩ := stops_block body hbody hstops
      obtain ⟨m', rfl, hagain⟩ := hmiddle.jump hback
      obtain ⟨k, u, hk, hrest, hend⟩ := ih m' (by omega) t hagain
      exact ⟨k, u, by omega, .loop hexec hrest, hend⟩
  | .loopUntil site body cond, a, n, s, c, hl, hstops => by
    obtain ⟨hbody, htest, htoEnd, hback⟩ := lowered_loopUntil.mp hl
    induction n using Nat.strongRecOn generalizing s with
    | ind n ih =>
      obtain ⟨m, t, hm, hexec, hmiddle⟩ := stops_block body hbody hstops
      cases h : sem.holds (a + totalSize body) cond t with
      | true =>
        obtain ⟨m', rfl, hm'⟩ := hmiddle.after (htest.fallsThrough (by simp [h]))
        obtain ⟨k, rfl, hend⟩ := hm'.jump htoEnd
        refine ⟨k, _, by omega, .untilTrue hexec h, ?_⟩
        rw [end_loopUntil]
        exact hend
      | false =>
        obtain ⟨m', rfl, hm'⟩ := hmiddle.after (htest.skipped h)
        obtain ⟨m'', rfl, hagain⟩ := hm'.jump hback
        obtain ⟨k, u, hk, hrest, hend⟩ := ih m'' (by omega) _ hagain
        exact ⟨k, u, by omega, .untilFalse hexec h hrest, hend⟩
  | .whileDo site cond body, a, n, s, c, hl, hstops => by
    obtain ⟨htest, htoEnd, hbody, hback⟩ := lowered_whileDo.mp hl
    induction n using Nat.strongRecOn generalizing s with
    | ind n ih =>
      cases h : sem.holds a cond s with
      | true =>
        obtain ⟨m, rfl, hm⟩ := hstops.after (htest.skipped h)
        obtain ⟨m', t, hm', hexec, hmiddle⟩ := stops_block body hbody hm
        obtain ⟨m'', rfl, hagain⟩ := hmiddle.jump hback
        obtain ⟨k, u, hk, hrest, hend⟩ := ih m'' (by omega) _ hagain
        exact ⟨k, u, by omega, .whileTrue h hexec hrest, hend⟩
      | false =>
        obtain ⟨m, rfl, hm⟩ := hstops.after (htest.fallsThrough (by simp [h]))
        obtain ⟨k, rfl, hend⟩ := hm.jump htoEnd
        refine ⟨k, _, by omega, .whileFalse h, ?_⟩
        rw [end_whileDo]
        exact hend

/-- **A machine that stops comes past the end of a block**, in a state in which the block ends. -/
theorem stops_block : ∀ (items : List Item) {a n : Nat} {s : σ} {c : Nat × σ},
    Lowered cpu mem sem id a items → cpu.Stops mem n (a, s) c →
      PassesEnd cpu mem sem a items n s c
  | [], a, n, s, c, _, hstops => ⟨n, s, Nat.le_refl n, .nil, hstops⟩
  | i :: rest, a, n, s, c, hl, hstops => by
    obtain ⟨hlow, hlows⟩ := lowered_cons.mp hl
    obtain ⟨m, t, hm, hexec, hmiddle⟩ := stops_item i hlow hstops
    obtain ⟨k, u, hk, hrest, hend⟩ := stops_block rest hlows hmiddle
    refine ⟨k, u, by omega, .cons hexec hrest, ?_⟩
    rw [end_cons]
    exact hend

end

/-- **Code implements its block.**  If the machine has no code behind that of a block, then it gets
    from the beginning to the end exactly as the block does. -/
theorem reaches_end_iff {items : List Item} (hl : Lowered cpu mem sem id a items)
    (hend : mem (a + totalSize items) = none) {s t : σ} :
    cpu.Reaches mem (a, s) (a + totalSize items, t) ↔ Exec sem a items s t := by
  have hstopped : ∀ u : σ, cpu.step mem (a + totalSize items, u) = none := by
    intro u
    simp [Processor.step, hend]
  constructor
  · rintro ⟨n, hn⟩
    obtain ⟨m, u, -, hexec, hrun, -⟩ := stops_block items hl ⟨hn, hstopped t⟩
    -- at the end no step is left
    cases m with
    | zero =>
      obtain ⟨-, rfl⟩ := Prod.mk.inj (Option.some.inj hrun)
      exact hexec
    | succ m =>
      rw [Processor.steps, hstopped u] at hrun
      cases hrun
  · exact fun h => h.reaches hl

end Simulation

end OctoAsm
