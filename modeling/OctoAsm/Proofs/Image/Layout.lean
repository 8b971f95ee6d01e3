/-
  The two passes agree on every address.

  Both passes make the same moves, and the size of what a move appends is fixed by the move, with one
  exception: `org` fills up to an address that may depend on labels.  The second pass knows all
  addresses of a label, the first only those it has come past.  The crux is that the addresses still
  unknown do not matter (`address?_agree`): `org` insists that its labels have an address, such a
  label is declared again only as the label of a second byte, and so every later address lies beyond
  the address of the next byte, where the nearest one is not looked for.

  This needs addresses to be kept in full: below `0xFFFF` not even the address of a second byte is
  cut to sixteen bits.
-/
import OctoAsm.Proofs.Image.Labels
import OctoAsm.Proofs.Resolve.Sound

namespace OctoAsm

namespace Run

/-- The address of the next byte at every move that is reached. -/
def addresses (run : Run) (p : Progress) (moves : List Move) : List (Move × Nat) :=
  (run.trail p moves).map fun stage => (stage.move, run.pc stage.before.draft)

/-! ## The invariant of the first pass -/

/-- What a first pass has recorded fits the moves ahead of it. -/
structure Ready (run : Run) (p : Progress) (moves : List Move) : Prop where
  distinct : DistinctLabels (declaredBy moves)
  /-- a label that has an address is declared again as that of a second byte only -/
  again : ∀ name, p.draft.labels.recorded name ≠ [] →
    ∀ next, (name, next) ∈ declaredBy moves → next = true
  filled : p.draft.labels.Filled
  below : run.pc p.draft < 0xFFFF

namespace Ready

variable {run : Run} {p q : Progress} {m : Move} {rest moves : List Move}

theorem step (h : Ready run p (m :: rest)) (hpass : run.pass = .layout)
    (hmemory : run.options.memoryEnd < 0xFFFF) (hact : run.act p m.act = .ok q) :
    Ready run q rest := by
  have hdistinct := h.distinct
  rw [declaredBy_cons] at hdistinct
  obtain ⟨-, htail, hcross⟩ := List.pairwise_append.mp hdistinct
  refine ⟨htail, ?_, ?_, ?_⟩
  · intro name hname next hnext
    rw [recorded_act hpass hact name] at hname
    by_cases hbefore : p.draft.labels.recorded name = []
    · -- the move itself declares the label, so a second declaration is that of a second byte
      rw [hbefore, List.nil_append] at hname
      cases hmark : run.mark? name ⟨m, p⟩ with
      | none => rw [hmark] at hname; exact absurd rfl hname
      | some a =>
        obtain ⟨first, hdecl, -⟩ := mark?_eq_some hmark
        exact (hcross (name, first) (by rw [hdecl]; simp) (name, next) hnext rfl).2
    · refine h.again name hbefore next ?_
      rw [declaredBy_cons]
      exact List.mem_append_right _ hnext
  · rw [(act_effect hact).labels]
    unfold labelsAfter
    split
    · exact h.filled.add _ _
    · exact h.filled
  · have hroom := (act_effect hact).room
    have hbelow := h.below
    omega

/-- The addresses that a label with an address gets later lie beyond the next byte. -/
theorem lt_of_later (h : Ready run p moves) (hmemory : run.options.memoryEnd < 0xFFFF)
    {name : String} (hname : p.draft.labels.recorded name ≠ []) :
    ∀ a ∈ (run.trail p moves).filterMap (run.mark? name), run.pc p.draft < a := by
  intro a ha
  obtain ⟨stage, hstage, hmark⟩ := List.mem_filterMap.mp ha
  obtain ⟨next, hdecl, rfl⟩ := mark?_eq_some hmark
  have hmem : (name, next) ∈ declaredBy moves :=
    List.mem_filterMap.mpr ⟨stage.move, run.move_mem_of_mem_trail hstage, hdecl⟩
  -- declared again, it is a label of a second byte, so its address is one past the next byte there
  obtain rfl := h.again name hname next hmem
  have hge := run.pc_le_of_mem_trail hstage
  have hbelow := h.below
  have hle : run.pc stage.before.draft ≤ 0xFFFE :=
    run.pc_le_memory (by omega) (by omega) stage hstage
  simp only [Bool.toNat_true]
  omega

end Ready

/-! ## Values in the two passes -/

section Passes

variable {settings : Options} {p q r : Progress} {moves : List Move}

/-- A label that has an address in the first pass has the same one in the second. -/
theorem address?_agree (hready : Ready ⟨settings, .layout⟩ p moves)
    (hmemory : settings.memoryEnd < 0xFFFF) (hlaid : Run.follow ⟨settings, .layout⟩ p moves = .ok r)
    (hlabels : q.draft.labels = r.draft.labels)
    (hsize : q.draft.bytes.size = p.draft.bytes.size) {name : String}
    (hname : p.draft.labels.recorded name ≠ []) :
    Run.address? ⟨settings, .emit⟩ q.draft name =
      Run.address? ⟨settings, .layout⟩ p.draft name := by
  have hpc : Run.pc ⟨settings, .emit⟩ q.draft = Run.pc ⟨settings, .layout⟩ p.draft := by
    simp only [pc, hsize]
  rw [address?_eq, address?_eq, hlabels, recorded_follow rfl hlaid, hpc]
  exact nearest?_append hname (hready.lt_of_later hmemory hname)

/-- Two passes that give the labels of a value the same addresses give it the same value. -/
theorem eval_agree {d d' : Draft} {v : Imm} {a b : Int}
    (haddr : ∀ label ∈ v.labels,
      Run.address? ⟨settings, .emit⟩ d' label = Run.address? ⟨settings, .layout⟩ d label)
    (ha : Run.eval ⟨settings, .layout⟩ d v = .ok a) (hb : Run.eval ⟨settings, .emit⟩ d' v = .ok b) :
    b = a := by
  cases v with
  | number n =>
    obtain rfl := Except.ok.inj ha
    exact (Except.ok.inj hb).symm
  | label name =>
    obtain rfl := Except.ok.inj ha
    obtain rfl := Except.ok.inj hb
    rw [haddr name (by simp [Imm.labels])]
  | expr e =>
    have heval : (e.eval fun l => Float.ofNat ((Run.address? ⟨settings, .emit⟩ d' l).getD 0)) =
        e.eval fun l => Float.ofNat ((Run.address? ⟨settings, .layout⟩ d l).getD 0) :=
      e.eval_congr fun label hlabel => by rw [haddr label hlabel]
    -- where the expression has no value, the second pass does not succeed
    simp only [eval, heval] at ha hb
    split at hb
    · rename_i n _ hn
      rw [hn] at ha
      obtain rfl := Except.ok.inj hb
      exact Except.ok.inj ha
    · rename_i hpass; cases hpass
    · cases hb

theorem recorded_of_laidOut {d : Draft} (hfilled : d.labels.Filled) {v : Imm}
    (h : laidOut d v = true) : ∀ label ∈ v.labels, d.labels.recorded label ≠ [] := by
  unfold laidOut at h
  rw [Imm.allLabels_eq, List.all_eq_true] at h
  exact fun label hlabel => hfilled.recorded_ne_nil (h label hlabel)

/-! ## The passes in lockstep -/

/-- One move appends as many bytes in the second pass as in the first. -/
theorem size_agree {m : Move} {p' q' : Progress} (hready : Ready ⟨settings, .layout⟩ p (m :: moves))
    (hmemory : settings.memoryEnd < 0xFFFF)
    (hlaid : Run.follow ⟨settings, .layout⟩ p (m :: moves) = .ok r)
    (hlabels : q.draft.labels = r.draft.labels)
    (hsize : q.draft.bytes.size = p.draft.bytes.size)
    (hp : Run.act ⟨settings, .layout⟩ p m.act = .ok p')
    (hq : Run.act ⟨settings, .emit⟩ q m.act = .ok q') :
    q'.draft.bytes.size = p'.draft.bytes.size := by
  cases hn : m.act.size? with
  | some n =>
    have hsizep := (act_effect hp).size n hn
    have hsizeq := (act_effect hq).size n hn
    omega
  | none =>
    obtain ⟨target, horg⟩ := Act.size?_eq_none hn
    rw [horg] at hp hq
    obtain ⟨dp, hdp, hp⟩ := bind_eq_ok.mp hp
    obtain rfl := pure_eq_ok.mp hp
    obtain ⟨dq, hdq, hq⟩ := bind_eq_ok.mp hq
    obtain rfl := pure_eq_ok.mp hq
    obtain ⟨hlaidOut, goalp, hgoalp, hlep, happp⟩ := org_eq_ok hdp
    obtain ⟨-, goalq, hgoalq, hleq, happq⟩ := org_eq_ok hdq
    -- all labels of the target have been passed already, so both passes agree on them
    have hrecorded := recorded_of_laidOut hready.filled hlaidOut
    have hgoal : goalq = goalp := eval_agree (fun label hlabel =>
      address?_agree hready hmemory hlaid hlabels hsize (hrecorded label hlabel)) hgoalp hgoalq
    have hsizep := happp.size
    have hsizeq := happq.size
    simp only [List.length_replicate, pc] at hsizep hsizeq hlep hleq
    show dq.bytes.size = dp.bytes.size
    omega

/-- **Both passes are at the same address at every move**, and end with as many bytes. -/
theorem follow_agree {p q rp rq : Progress} (hready : Ready ⟨settings, .layout⟩ p moves)
    (hmemory : settings.memoryEnd < 0xFFFF)
    (hp : Run.follow ⟨settings, .layout⟩ p moves = .ok rp)
    (hq : Run.follow ⟨settings, .emit⟩ q moves = .ok rq)
    (hlabels : q.draft.labels = rp.draft.labels)
    (hsize : q.draft.bytes.size = p.draft.bytes.size) :
    Run.addresses ⟨settings, .emit⟩ q moves = Run.addresses ⟨settings, .layout⟩ p moves ∧
      rq.draft.bytes.size = rp.draft.bytes.size := by
  induction moves generalizing p q with
  | nil =>
    obtain rfl := Except.ok.inj hp
    obtain rfl := Except.ok.inj hq
    exact ⟨rfl, hsize⟩
  | cons m rest ih =>
    obtain ⟨p', hactp, hrestp⟩ := (follow_cons_eq_ok _).mp hp
    obtain ⟨q', hactq, hrestq⟩ := (follow_cons_eq_ok _).mp hq
    have hsize' := size_agree hready hmemory hp hlabels hsize hactp hactq
    -- the second pass reads the table that the first one ends with, from its first move on
    have hlabels' : q'.draft.labels = rp.draft.labels :=
      (labels_of_act_emit rfl hactq).trans hlabels
    obtain ⟨haddr, hend⟩ := ih (hready.step rfl hmemory hactp) hrestp hrestq hlabels' hsize'
    refine ⟨?_, hend⟩
    unfold addresses at haddr ⊢
    rw [trail_cons_of_ok _ hactp, trail_cons_of_ok _ hactq, List.map_cons, List.map_cons, haddr]
    simp only [pc, hsize]

end Passes

/-- A run that ends well reaches every move. -/
theorem map_move_trail {run : Run} {p r : Progress} {moves : List Move}
    (h : run.follow p moves = .ok r) : (run.trail p moves).map (·.move) = moves := by
  induction moves generalizing p with
  | nil => rfl
  | cons m rest ih =>
    obtain ⟨q, hact, hrest⟩ := run.follow_cons_eq_ok.mp h
    rw [trail_cons_of_ok _ hact, List.map_cons, ih hrest]

end Run

/-! ## Programs -/

/-- The start of a first pass. -/
def layoutStart : Progress := ⟨.empty, []⟩

/-- The start of the second pass that follows a first one. -/
def emitStart (laid : Draft) : Progress := ⟨{ laid with bytes := #[] }, []⟩

theorem layOut_eq_ok {settings : Options} {items : List Item} {laid : Draft} :
    layOut settings items = .ok laid ↔
      Run.follow ⟨settings, .layout⟩ layoutStart (planOf items) = .ok ⟨laid, []⟩ :=
  Run.block_eq_ok _

theorem emit_eq_ok {settings : Options} {items : List Item} {laid emitted : Draft} :
    emit settings laid items = .ok emitted ↔
      Run.follow ⟨settings, .emit⟩ (emitStart laid) (planOf items) = .ok ⟨emitted, []⟩ :=
  Run.block_eq_ok _

theorem ofItems_eq_ok {settings : Options} {items : List Item} {image : Image} :
    Image.ofItems settings items = .ok image ↔ ∃ laid emitted, layOut settings items = .ok laid ∧
      emit settings laid items = .ok emitted ∧ emitted.finish settings.origin = image := by
  unfold Image.ofItems
  simp [bind_eq_ok, -bind_pure_comp]

/-- A first pass over a program in which no label is declared twice, but those of second bytes. -/
theorem ready_layoutStart {settings : Options} {items : List Item}
    (hdistinct : DistinctLabels (declaredIn items)) (horigin : settings.origin < 0xFFFF) :
    Run.Ready ⟨settings, .layout⟩ layoutStart (planOf items) where
  distinct := by rw [declaredBy_planOf]; exact hdistinct
  again := by intro name hname; exact absurd rfl hname
  filled := by intro name; exact nofun
  below := horigin

/-- **The passes agree.** Where a resolved program makes an image, both passes reach all moves of
    the plan, in particular the beginning of every item and what follows every `org`, at the same
    addresses, and they end with as many bytes. Sizes are fixed by the moves, but for `org`, which
    insists that its labels have an address: any further address of theirs lies beyond the next
    byte (`Ready`), where the nearest one is not looked for. -/
theorem passes_agree {options settings : Options} {program : List Statement} {items : List Item}
    {image : Image} (hresolved : resolve options program = .ok items)
    (horigin : settings.origin < 0xFFFF) (hmemory : settings.memoryEnd < 0xFFFF)
    (himage : Image.ofItems settings items = .ok image) :
    ∃ laid emitted, layOut settings items = .ok laid ∧ emit settings laid items = .ok emitted ∧
      emitted.finish settings.origin = image ∧
      (Run.addresses ⟨settings, .layout⟩ layoutStart (planOf items)).map Prod.fst = planOf items ∧
      Run.addresses ⟨settings, .emit⟩ (emitStart laid) (planOf items) =
        Run.addresses ⟨settings, .layout⟩ layoutStart (planOf items) ∧
      emitted.bytes.size = laid.bytes.size := by
  obtain ⟨laid, emitted, hlaid, hemitted, hfinish⟩ := ofItems_eq_ok.mp himage
  obtain ⟨names, hends, -⟩ := resolve_endsWith hresolved
  obtain ⟨-, -, haccounts⟩ := hends.sound
  have hfirst := layOut_eq_ok.mp hlaid
  have hready := ready_layoutStart haccounts.distinct horigin
  obtain ⟨haddr, hsize⟩ := Run.follow_agree hready hmemory hfirst (emit_eq_ok.mp hemitted) rfl rfl
  refine ⟨laid, emitted, hlaid, hemitted, hfinish, ?_, haddr, hsize⟩
  rw [Run.addresses, List.map_map]
  exact Run.map_move_trail hfirst

/-- The label `step` stands for a second byte twice, with an `org` in between that depends on it. -/
def steppedItems : List Item :=
  [.leaf ⟨1, "main"⟩ (.label "main"),
    .leaf ⟨2, "step"⟩ (.nextLabel "step"),
    .leaf ⟨2, "v0"⟩ (.instr (.regImm .seti (vReg 0) (.number 1))),
    .leaf ⟨3, ":org"⟩ (.org (.expr (.binary .add (.address "step") (.number 15)))),
    .leaf ⟨4, "step"⟩ (.nextLabel "step"),
    .leaf ⟨4, "v0"⟩ (.instr (.regImm .seti (vReg 0) (.number 2)))]

/-- The statements of `steppedItems`. -/
def steppedProgram : List Statement :=
  [.label ⟨1, .name, "main"⟩, set 2 1,
    .simple (.org ⟨3, .name, ":org"⟩ (.braced (.binary ⟨3, .name, "+"⟩ .add
      (.unary ⟨3, .name, "@"⟩ .addressOf (.name ⟨3, .name, "step"⟩)) (.number ⟨3, .name, "15"⟩ 15)))),
    set 4 2]
where
  /-- `:next step v0 := value` -/
  set (line : Nat) (value : Int) : Statement :=
    .next ⟨line, .name, ":next"⟩ ⟨line, .name, "step"⟩ (.simple (.assign (.immediate
      ⟨line, .name, "v0"⟩ (.literal ⟨line, .name, "v0"⟩ (vReg 0)) .set (.number ⟨line, .name, "1"⟩ value))))

/-- The image of `steppedItems`: the `org` goes by the first address of its label. -/
def steppedImage : Image where
  origin := 0x200
  bytes := #[0x60, 1, 0, 0, 0, 0, 0, 0, 0, 0, 0, 0, 0, 0, 0, 0, 0x60, 2]
  labels := [("main", 0x200), ("step", 0x201)]
  breakpoints := []
  monitors := []

theorem passes_agree_stepped :
    resolve {} steppedProgram = .ok steppedItems ∧
      Image.ofItems {} steppedItems = .ok steppedImage ∧
      ∃ laid emitted, layOut {} steppedItems = .ok laid ∧
        emit {} laid steppedItems = .ok emitted ∧ emitted.finish 0x200 = steppedImage ∧
        (Run.addresses ⟨{}, .layout⟩ layoutStart (planOf steppedItems)).map Prod.fst =
          planOf steppedItems ∧
        Run.addresses ⟨{}, .emit⟩ (emitStart laid) (planOf steppedItems) =
          Run.addresses ⟨{}, .layout⟩ layoutStart (planOf steppedItems) ∧
        emitted.bytes.size = laid.bytes.size := by
  have hresolved : resolve {} steppedProgram = .ok steppedItems := rfl
  have himage : Image.ofItems {} steppedItems = .ok steppedImage := by decide +kernel
  exact ⟨hresolved, himage, passes_agree hresolved (by decide) (by decide) himage⟩

end OctoAsm
