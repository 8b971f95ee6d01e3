/-
  What an image says about its bytes: labels, breakpoints and monitors.

  Labels are recorded by the first pass only, breakpoints and monitors by the second only, and yet all
  three have to describe the bytes of the second.  `Run.placed` lists the leaves in the order in which
  a pass comes past them, each with the draft as it stood there; the tables of an image are read off
  that list for the second pass (`MetadataExact`).  For breakpoints and monitors this is what a step
  adds, summed up over the run.  For labels it takes two facts more: the table of the first pass keeps
  the first declaration of each name, in order (`heads_add`), and the passes agree on all addresses.
-/
import OctoAsm.Proofs.Image.References

namespace OctoAsm

/-! ## The first entry of each name -/

/-- The entries whose name none before them has. -/
def firstOfEach : List (String × Nat) → List (String × Nat)
  | [] => []
  | e :: rest => e :: (firstOfEach rest).filter fun e' => e'.1 ≠ e.1

theorem mem_keys_firstOfEach {name : String} (es : List (String × Nat)) :
    name ∈ (firstOfEach es).map Prod.fst ↔ name ∈ es.map Prod.fst := by
  induction es with
  | nil => rfl
  | cons e rest ih =>
    simp only [List.mem_map] at ih
    by_cases h : name = e.1
    · simp [firstOfEach, h]
    · simp only [firstOfEach, List.map_cons, List.mem_cons, h, false_or, List.mem_map,
        List.mem_filter, decide_eq_true_eq]
      rw [← ih]
      constructor
      · rintro ⟨e', ⟨he', -⟩, rfl⟩; exact ⟨e', he', rfl⟩
      · rintro ⟨e', he', rfl⟩; exact ⟨e', ⟨he', h⟩, rfl⟩

theorem nodup_keys_firstOfEach (es : List (String × Nat)) :
    ((firstOfEach es).map Prod.fst).Nodup := by
  induction es with
  | nil => exact List.nodup_nil
  | cons e rest ih =>
    rw [firstOfEach, List.map_cons, List.nodup_cons]
    refine ⟨?_, ih.sublist (List.filter_sublist.map Prod.fst)⟩
    simp

/-- An entry behind all others counts if its name is new. -/
theorem firstOfEach_snoc (es : List (String × Nat)) (e : String × Nat) :
    firstOfEach (es ++ [e]) =
      if e.1 ∈ es.map Prod.fst then firstOfEach es else firstOfEach es ++ [e] := by
  induction es with
  | nil => rfl
  | cons e₀ rest ih =>
    rw [List.cons_append, firstOfEach, ih, firstOfEach, List.map_cons]
    by_cases hrest : e.1 ∈ rest.map Prod.fst
    · rw [if_pos hrest, if_pos (List.mem_cons_of_mem _ hrest)]
    · rw [if_neg hrest, List.filter_append]
      by_cases h₀ : e.1 = e₀.1
      · simp [h₀]
      · simp [h₀, hrest]

/-- An entry as the tables of an image keep it: sixteen bits of its address. -/
def cutEntry (e : String × Nat) : String × Nat := (e.1, e.2 % 0x10000)

theorem firstOfEach_map_cut (es : List (String × Nat)) :
    firstOfEach (es.map cutEntry) = (firstOfEach es).map cutEntry := by
  induction es with
  | nil => rfl
  | cons e rest ih =>
    rw [List.map_cons, firstOfEach, ih, firstOfEach, List.map_cons, List.filter_map]
    rfl

/-- Addresses of sixteen bits are kept in full. -/
theorem map_cut_of_small {es : List (String × Nat)} (h : ∀ e ∈ es, e.2 < 0x10000) :
    es.map cutEntry = es := by
  have hcut : ∀ e ∈ es, cutEntry e = id e := fun e he => by
    simp only [cutEntry, Nat.mod_eq_of_lt (h e he), id]
  rw [List.map_congr_left hcut, List.map_id]

/-! ## Labels of the first pass -/

/-- The first address of every label, in the order of the table. -/
def LabelTable.heads (t : LabelTable) : List (String × Nat) :=
  t.filterMap fun entry => entry.2.head?.map fun a => (entry.1, a)

/-- A label that is there keeps its first address, a new one comes last. -/
theorem LabelTable.heads_add {t : LabelTable} (hfilled : ∀ entry ∈ t, entry.2 ≠ [])
    (name : String) (address : Nat) : heads (t.add name address) =
      if name ∈ t.heads.map Prod.fst then t.heads else t.heads ++ [(name, address)] := by
  induction t with
  | nil => rfl
  | cons entry rest ih =>
    obtain ⟨n, addresses⟩ := entry
    obtain ⟨a, as, rfl⟩ := List.exists_cons_of_ne_nil (hfilled (n, addresses) List.mem_cons_self)
    have ih := ih fun entry hentry => hfilled entry (List.mem_cons_of_mem _ hentry)
    have hhead : heads ((n, a :: as) :: rest) = (n, a) :: heads rest := rfl
    rw [hhead, List.map_cons]
    by_cases hn : n = name
    · subst hn
      simp [add, heads]
    · have hadd : heads (add name address ((n, a :: as) :: rest)) =
          (n, a) :: heads (add name address rest) := by
        simp [add, hn, heads]
      rw [hadd, ih]
      by_cases hmem : name ∈ (heads rest).map Prod.fst
      · rw [if_pos hmem, if_pos (List.mem_cons_of_mem _ hmem)]
      · rw [if_neg hmem, if_neg (by simpa [Ne.symm hn] using hmem)]
        rfl

theorem LabelTable.ne_nil_of_mem_add {t : LabelTable} (hfilled : ∀ entry ∈ t, entry.2 ≠ [])
    (name : String) (address : Nat) : ∀ entry ∈ t.add name address, entry.2 ≠ [] := by
  induction t with
  | nil => simp [add]
  | cons entry rest ih =>
    obtain ⟨n, addresses⟩ := entry
    have ih := ih fun entry hentry => hfilled entry (List.mem_cons_of_mem _ hentry)
    have hhead := hfilled (n, addresses) List.mem_cons_self
    have hrest : ∀ entry ∈ rest, entry.2 ≠ [] :=
      fun entry hentry => hfilled entry (List.mem_cons_of_mem _ hentry)
    intro e he
    rw [add] at he
    split at he
    · rcases List.mem_cons.mp he with rfl | he
      · simp
      · exact hrest e he
    · rcases List.mem_cons.mp he with rfl | he
      · exact hhead
      · exact ih e he

/-- The declaration that a move makes at an address. -/
def declarationAt (place : Move × Nat) : Option (String × Nat) :=
  place.1.act.declares.map fun d => (d.1, place.2 + d.2.toNat)

namespace Run

variable {run : Run} {d d' : Draft}

/-- What a move of the first pass does to the labels: the declaration it makes, if any, is added. -/
theorem labels_act_layout {p q : Progress} {m : Move} (hpass : run.pass = .layout)
    (h : run.act p m.act = .ok q) : q.draft.labels =
      match declarationAt (m, run.pc p.draft) with
      | some (name, address) => p.draft.labels.add name (address % 0x10000)
      | none => p.draft.labels := by
  rw [(act_effect h).labels]
  unfold labelsAfter declarationAt
  rw [hpass]
  cases m.act.declares with
  | none => rfl
  | some d => rfl

/-- **The labels of a first pass**: the first declaration of every name, in order. -/
theorem heads_follow {moves : List Move} {p r : Progress} (hpass : run.pass = .layout)
    (h : run.follow p moves = .ok r) (hfilled : ∀ entry ∈ p.draft.labels, entry.2 ≠ [])
    (before : List (String × Nat)) (hbefore : p.draft.labels.heads = firstOfEach before) :
    r.draft.labels.heads = firstOfEach
      (before ++ ((run.addresses p moves).filterMap declarationAt).map cutEntry) := by
  induction moves generalizing p before with
  | nil =>
    obtain rfl := Except.ok.inj h
    simpa [addresses, trail] using hbefore
  | cons m rest ih =>
    obtain ⟨q, hact, hrest⟩ := run.follow_cons_eq_ok.mp h
    have hplaces : run.addresses p (m :: rest) = (m, run.pc p.draft) :: run.addresses q rest := by
      simp [addresses, trail_cons_of_ok run hact]
    have hlabels := labels_act_layout hpass hact
    rw [hplaces, List.filterMap_cons]
    cases hdecl : declarationAt (m, run.pc p.draft) with
    -- nothing is declared: the table stays, and so do the heads
    | none =>
      rw [hdecl] at hlabels
      replace hlabels : q.draft.labels = p.draft.labels := hlabels
      rw [← hlabels] at hfilled hbefore
      exact ih hrest hfilled before hbefore
    | some e =>
      -- a known name gets one more address behind its head, a new one goes to the end
      obtain ⟨name, address⟩ := e
      rw [hdecl] at hlabels
      replace hlabels : q.draft.labels = p.draft.labels.add name (address % 0x10000) := hlabels
      have hnew : q.draft.labels.heads = firstOfEach (before ++ [(name, address % 0x10000)]) := by
        rw [hlabels, LabelTable.heads_add hfilled, firstOfEach_snoc, hbefore]
        simp only [mem_keys_firstOfEach]
      have hfilled' : ∀ entry ∈ q.draft.labels, entry.2 ≠ [] := by
        rw [hlabels]
        exact LabelTable.ne_nil_of_mem_add hfilled _ _
      have hall := ih hrest hfilled' _ hnew
      simpa [cutEntry] using hall

/-! ## Leaves in the order of a pass -/

/-- The leaves that a run comes past, each with the draft as it stands there. -/
def placed (run : Run) (p : Progress) (moves : List Move) : List (Leaf × Draft) :=
  (run.trail p moves).filterMap fun stage => stage.move.act.leaf?.map (·, stage.before.draft)

theorem placed_cons_of_ok {p q : Progress} {m : Move} (h : run.act p m.act = .ok q)
    (rest : List Move) :
    run.placed p (m :: rest) = (m.act.leaf?.map (·, p.draft)).toList ++ run.placed q rest := by
  unfold placed
  rw [trail_cons_of_ok run h, List.filterMap_cons]
  cases m.act.leaf? <;> rfl

/-- A run that ends well comes past every leaf. -/
theorem map_fst_placed {p r : Progress} {moves : List Move} (h : run.follow p moves = .ok r) :
    (run.placed p moves).map Prod.fst = leavesBy moves := by
  induction moves generalizing p with
  | nil => rfl
  | cons m rest ih =>
    obtain ⟨q, hact, hrest⟩ := run.follow_cons_eq_ok.mp h
    rw [placed_cons_of_ok hact, List.map_append, ih hrest, leavesBy_cons]
    cases m.act.leaf? <;> rfl

end Run

/-- The label that a placed leaf declares, with the address it stands for. -/
def declaredAt (origin : Nat) (place : Leaf × Draft) : Option (String × Nat) :=
  place.1.declares.map fun d => (d.1, origin + place.2.bytes.size + d.2.toNat)

/-- The breakpoint that a placed leaf is, with its address. -/
def breakpointAt (origin : Nat) (place : Leaf × Draft) : Option (String × Nat) :=
  match place.1 with
  | .breakpoint name => some (name, origin + place.2.bytes.size)
  | _ => none

/-- What a draft has noted beside its bytes and labels. -/
def Draft.notes (d : Draft) : List (String × Nat) × List Monitor := (d.breakpoints, d.monitors)

/-- A leaf that is a monitor. -/
def Leaf.isMonitor : Leaf → Bool
  | .monitor _ _ => true
  | _ => false

/-- A placed leaf is the monitor whose target, looked at there, and format are the given ones. -/
def Run.Watches (run : Run) (place : Leaf × Draft) (m : Monitor) : Prop :=
  ∃ target, place.1 = .monitor target m.format ∧ run.monitorBase place.2 target = .ok m.base

namespace Run

variable {run : Run} {d d' : Draft}

theorem filterMap_declaredAt (p : Progress) (moves : List Move) :
    (run.placed p moves).filterMap (declaredAt run.options.origin) =
      (run.addresses p moves).filterMap declarationAt := by
  unfold placed addresses
  rw [List.filterMap_filterMap, List.filterMap_map]
  congr 1
  funext stage
  simp only [Function.comp, declarationAt, Act.declares_eq, pc]
  cases stage.move.act.leaf? with
  | none => rfl
  | some l => rfl

/-! ## Breakpoints and monitors of the second pass -/

theorem Appends.notes {bs : List UInt8} (h : run.Appends d bs d') : d'.notes = d.notes := by
  rw [h.eq]
  rfl

theorem notes_mark (name : String) (address : Nat) :
    (run.mark d name address).notes = d.notes := by
  unfold mark
  split <;> rfl

/-- Only breakpoints and monitors are noted. -/
theorem notes_leaf {l : Leaf} (h : run.leaf d l = .ok d') (hb : ∀ name, l ≠ .breakpoint name)
    (hm : l.isMonitor = false) : d'.notes = d.notes := by
  cases l with
  | instr i =>
    obtain ⟨c, -, h⟩ := bind_eq_ok.mp h
    obtain ⟨w, -, happ⟩ := op_eq_ok h
    exact happ.notes
  | label name =>
    obtain rfl := Except.ok.inj h
    exact notes_mark _ _
  | nextLabel name =>
    obtain rfl := Except.ok.inj h
    exact notes_mark _ _
  | org target =>
    obtain ⟨-, goal, -, -, happ⟩ := org_eq_ok h
    exact happ.notes
  | unpack hi lo tag value =>
    obtain ⟨v, -, h⟩ := bind_eq_ok.mp h
    obtain ⟨high, -, h⟩ := bind_eq_ok.mp h
    obtain ⟨ws, -, happ⟩ := ops_eq_ok h
    exact happ.notes
  | byte value =>
    obtain ⟨v, -, h⟩ := bind_eq_ok.mp h
    exact (byte_eq_ok h).notes
  | pointer value =>
    obtain ⟨v, -, h⟩ := bind_eq_ok.mp h
    exact (word_eq_ok h).notes
  | assertion message expr =>
    simp only [leaf, check] at h
    split at h
    · obtain rfl := Except.ok.inj h
      rfl
    · obtain ⟨v, -, h⟩ := bind_eq_ok.mp h
      split at h
      · cases h
      · obtain rfl := pure_eq_ok.mp h
        rfl
  | breakpoint name => exact absurd rfl (hb name)
  | monitor target format => cases hm

/-- The first pass notes nothing at all. -/
theorem notes_leaf_layout {l : Leaf} (hpass : run.pass = .layout) (h : run.leaf d l = .ok d') :
    d'.notes = d.notes := by
  cases l with
  | breakpoint name =>
    simp only [leaf, hpass] at h
    obtain rfl := Except.ok.inj h
    rfl
  | monitor target format =>
    simp only [leaf, hpass] at h
    obtain rfl := Except.ok.inj h
    rfl
  | _ => exact notes_leaf h (by simp) rfl

/-- Control flow notes nothing. -/
theorem notes_act {p q : Progress} {a : Act} (h : run.act p a = .ok q) (ha : a.leaf? = none) :
    q.draft.notes = p.draft.notes := by
  cases a with
  | enter item =>
    obtain rfl := Except.ok.inj h
    rfl
  | leaf l => cases ha
  | skip cond w =>
    obtain ⟨d', hd', h⟩ := bind_eq_ok.mp h
    obtain rfl := pure_eq_ok.mp h
    obtain ⟨bs, happ, -⟩ := skip_appends hd'
    exact happ.notes
  | here =>
    obtain rfl := Except.ok.inj h
    rfl
  | hole =>
    obtain ⟨d', hd', h⟩ := bind_eq_ok.mp h
    obtain rfl := pure_eq_ok.mp h
    exact (word_eq_ok hd').notes
  | swap =>
    obtain rfl := Except.ok.inj h
    rfl
  | jump =>
    obtain ⟨d', hd', h⟩ := bind_eq_ok.mp h
    obtain rfl := pure_eq_ok.mp h
    obtain ⟨w, -, happ⟩ := op_eq_ok hd'
    exact happ.notes
  | patch =>
    obtain ⟨d', hd', h⟩ := bind_eq_ok.mp h
    obtain rfl := pure_eq_ok.mp h
    obtain ⟨w, -, rfl⟩ := patch_eq_ok hd'
    rfl
  | single =>
    simp only [act] at h
    split at h
    · obtain rfl := Except.ok.inj h
      rfl
    · cases h

theorem notes_follow_layout {moves : List Move} {p r : Progress} (hpass : run.pass = .layout)
    (h : run.follow p moves = .ok r) : r.draft.notes = p.draft.notes := by
  refine (run.follow_induct (I := fun r => r.draft.notes = p.draft.notes) rfl ?_).2 r h
  intro m _ p' q hp' hact
  rw [← hp']
  cases hleaf : m.act.leaf? with
  | none => exact notes_act hact hleaf
  | some l =>
    obtain hl : m.act = .leaf l := by
      cases ha : m.act <;> simp_all [Act.leaf?]
    rw [hl] at hact
    obtain ⟨d', hd', hact⟩ := bind_eq_ok.mp hact
    obtain rfl := pure_eq_ok.mp hact
    exact notes_leaf_layout hpass hd'

/-- What the second pass notes at one leaf, newest first. -/
theorem notes_leaf_emit {l : Leaf} (hpass : run.pass = .emit) (h : run.leaf d l = .ok d') :
    d'.breakpoints =
        ((breakpointAt run.options.origin (l, d)).map cutEntry).toList ++ d.breakpoints ∧
      ∃ m : Option Monitor, d'.monitors = m.toList ++ d.monitors ∧
        List.Forall₂ run.Watches (if l.isMonitor then [(l, d)] else []) m.toList := by
  cases l with
  | breakpoint name =>
    simp only [leaf, hpass] at h
    obtain rfl := Except.ok.inj h
    exact ⟨rfl, none, rfl, .nil⟩
  | monitor target format =>
    simp only [leaf, hpass] at h
    obtain ⟨base, hbase, h⟩ := bind_eq_ok.mp h
    obtain rfl := pure_eq_ok.mp h
    exact ⟨rfl, some ⟨base, format⟩, rfl, .cons ⟨target, rfl, hbase⟩ .nil⟩
  | _ =>
    have hnotes := notes_leaf h (by simp) rfl
    exact ⟨congrArg Prod.fst hnotes, none, congrArg Prod.snd hnotes, .nil⟩

/-- **What the second pass notes**: its breakpoints and its monitors, in order. -/
theorem notes_follow_emit {moves : List Move} {p r : Progress} (hpass : run.pass = .emit)
    (h : run.follow p moves = .ok r) :
    r.draft.breakpoints = (((run.placed p moves).filterMap
        (breakpointAt run.options.origin)).map cutEntry).reverse ++ p.draft.breakpoints ∧
      ∃ ms, r.draft.monitors = ms.reverse ++ p.draft.monitors ∧
        List.Forall₂ run.Watches ((run.placed p moves).filter (·.1.isMonitor)) ms := by
  induction moves generalizing p with
  | nil =>
    obtain rfl := Except.ok.inj h
    exact ⟨rfl, [], rfl, .nil⟩
  | cons m rest ih =>
    obtain ⟨q, hact, hrest⟩ := run.follow_cons_eq_ok.mp h
    obtain ⟨hbreak, ms, hms, hwatch⟩ := ih hrest
    rw [placed_cons_of_ok hact]
    cases hleaf : m.act.leaf? with
    | none =>
      have hnotes := notes_act hact hleaf
      have hb : q.draft.breakpoints = p.draft.breakpoints := congrArg Prod.fst hnotes
      have hm : q.draft.monitors = p.draft.monitors := congrArg Prod.snd hnotes
      rw [hb] at hbreak
      rw [hm] at hms
      exact ⟨hbreak, ms, hms, hwatch⟩
    | some l =>
      obtain hl : m.act = .leaf l := by
        cases ha : m.act <;> simp_all [Act.leaf?]
      rw [hl] at hact
      obtain ⟨d', hd', hact⟩ := bind_eq_ok.mp hact
      obtain rfl := pure_eq_ok.mp hact
      obtain ⟨hb, m₀, hm, hwatch₀⟩ := notes_leaf_emit hpass hd'
      simp only [Option.map_some, Option.toList_some, List.singleton_append, List.filterMap_cons,
        List.filter_cons]
      refine ⟨?_, m₀.toList ++ ms, ?_, ?_⟩
      · rw [hbreak, hb]
        cases breakpointAt run.options.origin (l, p.draft) <;> simp
      · rw [hms, hm]
        cases m₀ <;> simp
      · have hboth := List.rel_append hwatch₀ hwatch
        split at hboth <;> simpa [*] using hboth

end Run

/-! ## Images -/

/-- The tables of an image, read off the leaves in the order of its second pass: each leaf comes with
    the draft as it stood there, so the size of the draft is the number of bytes before the leaf. -/
structure MetadataExact (settings : Options) (items : List Item) (places : List (Leaf × Draft))
    (image : Image) : Prop where
  /-- the places are those of all leaves, in order -/
  leaves : places.map Prod.fst = leavesOf items
  /-- the bytes before a leaf are bytes of the image -/
  within : ∀ place ∈ places, place.2.bytes.size ≤ image.bytes.size
  /-- the labels are the first declarations, in order, with their addresses -/
  labels : image.labels = firstOfEach (places.filterMap (declaredAt settings.origin))
  /-- no label is missing and none is made up -/
  complete : ∀ name, name ∈ image.labels.map Prod.fst ↔ ∃ next, (name, next) ∈ declaredIn items
  once : (image.labels.map Prod.fst).Nodup
  breakpoints : image.breakpoints = places.filterMap (breakpointAt settings.origin)
  /-- one monitor for each monitor of the program, in order -/
  monitors : List.Forall₂ (Run.Watches ⟨settings, .emit⟩) (places.filter (·.1.isMonitor))
    image.monitors

section Images

variable {settings : Options} {items : List Item} {laid emitted : Draft}

/-- The drafts that a run passes through are no longer than the one it ends with. -/
theorem Run.size_le_of_mem_trail {run : Run} {moves : List Move} {p r : Progress}
    (h : run.follow p moves = .ok r) :
    ∀ stage ∈ run.trail p moves, stage.before.draft.bytes.size ≤ r.draft.bytes.size := by
  induction moves generalizing p with
  | nil => simp [trail]
  | cons m rest ih =>
    obtain ⟨q, hact, hrest⟩ := run.follow_cons_eq_ok.mp h
    rw [trail_cons_of_ok run hact]
    intro stage hstage
    rcases List.mem_cons.mp hstage with rfl | hstage
    · have hstep := (act_effect hact).grows
      have hlater : q.draft.bytes.size ≤ r.draft.bytes.size := by
        cases rest with
        | nil =>
          obtain rfl := Except.ok.inj hrest
          exact Nat.le_refl _
        | cons m' rest' => exact ih hrest ⟨m', q⟩ List.mem_cons_self
      exact Nat.le_trans hstep hlater
    · exact ih hrest stage hstage

/-- A declared label is the label of a placed leaf. -/
theorem mem_keys_declaredAt {origin : Nat} {places : List (Leaf × Draft)} {name : String} :
    name ∈ (places.filterMap (declaredAt origin)).map Prod.fst ↔
      ∃ next, (name, next) ∈ (places.map Prod.fst).filterMap Leaf.declares := by
  simp only [List.mem_map, List.mem_filterMap, declaredAt, Option.map_eq_some_iff]
  constructor
  · rintro ⟨e, ⟨place, hplace, d, hd, rfl⟩, rfl⟩
    exact ⟨d.2, place.1, ⟨place, hplace, rfl⟩, hd⟩
  · rintro ⟨next, l, ⟨place, hplace, rfl⟩, hd⟩
    exact ⟨_, ⟨place, hplace, (name, next), hd, rfl⟩, rfl⟩

/-- The labels of an image are the first declarations that its first pass comes past. -/
theorem heads_laid (hlaid : layOut settings items = .ok laid)
    (hemitted : emit settings laid items = .ok emitted) :
    emitted.labels.heads = (firstOfEach ((Run.placed ⟨settings, .layout⟩ layoutStart
      (planOf items)).filterMap (declaredAt settings.origin))).map cutEntry := by
  have hlabels : emitted.labels = laid.labels :=
    (Run.labels_follow_emit rfl).2 _ (emit_eq_ok.mp hemitted)
  have hheads := Run.heads_follow rfl (layOut_eq_ok.mp hlaid) (by simp [layoutStart, Draft.empty])
    [] rfl
  rw [List.nil_append, firstOfEach_map_cut, ← Run.filterMap_declaredAt] at hheads
  rw [hlabels]
  exact hheads

/-- Below `0xFFFF` a pass declares every label at an address of sixteen bits. -/
theorem Run.declared_small {run : Run} {p : Progress} {moves : List Move}
    (hp : run.pc p.draft < 0xFFFF) (hmemory : run.options.memoryEnd < 0xFFFF) :
    ∀ e ∈ (run.placed p moves).filterMap (declaredAt run.options.origin), e.2 < 0x10000 := by
  intro e he
  obtain ⟨place, hplace, he⟩ := List.mem_filterMap.mp he
  obtain ⟨stage, hstage, hplace⟩ := List.mem_filterMap.mp hplace
  obtain ⟨l, -, rfl⟩ := Option.map_eq_some_iff.mp hplace
  obtain ⟨d, -, rfl⟩ := Option.map_eq_some_iff.mp he
  have hpc : run.pc stage.before.draft ≤ 0xFFFE :=
    Run.pc_le_memory (by omega) (by omega) stage hstage
  have hle : d.2.toNat ≤ 1 := Bool.toNat_le d.2
  unfold Run.pc at hpc
  dsimp only
  omega

/-- The labels of an image are the first declarations that its second pass comes past. -/
theorem heads_emitted (hdistinct : DistinctLabels (declaredIn items))
    (horigin : settings.origin < 0xFFFF) (hmemory : settings.memoryEnd < 0xFFFF)
    (hlaid : layOut settings items = .ok laid) (hemitted : emit settings laid items = .ok emitted) :
    emitted.labels.heads = firstOfEach ((Run.placed ⟨settings, .emit⟩ (emitStart laid)
      (planOf items)).filterMap (declaredAt settings.origin)) := by
  have hready := ready_layoutStart hdistinct horigin
  obtain ⟨haddr, -⟩ := Run.follow_agree hready hmemory (layOut_eq_ok.mp hlaid)
    (emit_eq_ok.mp hemitted) rfl rfl
  have hstart : Run.pc ⟨settings, .layout⟩ layoutStart.draft < 0xFFFF := horigin
  have hsmall : ∀ e ∈ (Run.placed ⟨settings, .layout⟩ layoutStart (planOf items)).filterMap
      (declaredAt settings.origin), e.2 < 0x10000 := Run.declared_small hstart hmemory
  -- the passes agree on all addresses, and so on all declarations
  have hdeclared : (Run.placed ⟨settings, .layout⟩ layoutStart (planOf items)).filterMap
      (declaredAt settings.origin) = (Run.placed ⟨settings, .emit⟩ (emitStart laid)
        (planOf items)).filterMap (declaredAt settings.origin) :=
    (Run.filterMap_declaredAt _ _).trans
      ((congrArg (List.filterMap declarationAt) haddr.symm).trans (Run.filterMap_declaredAt _ _).symm)
  rw [heads_laid hlaid hemitted, ← firstOfEach_map_cut, map_cut_of_small hsmall, hdeclared]

/-- What the second pass notes is all that an image has of breakpoints and monitors. -/
theorem notes_cut (hlaid : layOut settings items = .ok laid)
    (hemitted : emit settings laid items = .ok emitted) :
    let places := Run.placed ⟨settings, .emit⟩ (emitStart laid) (planOf items)
    emitted.breakpoints.reverse =
        (places.filterMap (breakpointAt settings.origin)).map cutEntry ∧
      List.Forall₂ (Run.Watches ⟨settings, .emit⟩) (places.filter (·.1.isMonitor))
        emitted.monitors.reverse := by
  have hnotes : laid.notes = ([], []) := Run.notes_follow_layout rfl (layOut_eq_ok.mp hlaid)
  obtain ⟨hbreak, ms, hms, hwatch⟩ := Run.notes_follow_emit rfl (emit_eq_ok.mp hemitted)
  have hb : laid.breakpoints = [] := congrArg Prod.fst hnotes
  have hm : laid.monitors = [] := congrArg Prod.snd hnotes
  refine ⟨?_, ?_⟩
  · rw [hbreak]
    show (_ ++ laid.breakpoints).reverse = _
    rw [hb, List.append_nil, List.reverse_reverse]
  · rw [hms]
    show List.Forall₂ _ _ (ms.reverse ++ laid.monitors).reverse
    rw [hm, List.append_nil, List.reverse_reverse]
    exact hwatch

theorem notes_emitted (horigin : settings.origin < 0xFFFF) (hmemory : settings.memoryEnd < 0xFFFF)
    (hlaid : layOut settings items = .ok laid) (hemitted : emit settings laid items = .ok emitted) :
    let places := Run.placed ⟨settings, .emit⟩ (emitStart laid) (planOf items)
    emitted.breakpoints.reverse = places.filterMap (breakpointAt settings.origin) ∧
      List.Forall₂ (Run.Watches ⟨settings, .emit⟩) (places.filter (·.1.isMonitor))
        emitted.monitors.reverse := by
  obtain ⟨hbreak, hwatch⟩ := notes_cut hlaid hemitted
  refine ⟨?_, hwatch⟩
  rw [hbreak, map_cut_of_small]
  intro e he
  obtain ⟨place, hplace, he⟩ := List.mem_filterMap.mp he
  obtain ⟨stage, hstage, hplace⟩ := List.mem_filterMap.mp hplace
  obtain ⟨l, -, rfl⟩ := Option.map_eq_some_iff.mp hplace
  have hstart : Run.pc ⟨settings, .emit⟩ (emitStart laid).draft ≤ 0xFFFF := by
    show settings.origin ≤ 0xFFFF
    omega
  have hpc := Run.pc_le_memory hstart (Nat.le_of_lt hmemory) stage hstage
  simp only [breakpointAt] at he
  split at he
  · obtain rfl := Option.some.inj he
    exact Nat.lt_succ_of_le hpc
  · cases he

end Images

/-- **The tables of an image are exact and complete.** Each table is read off the leaves that a
    pass comes past, once and in order, and the place of a leaf is the number of bytes in front of
    it. Labels are recorded by the first pass, which agrees with the second on all addresses. -/
theorem metadata_exact {options settings : Options} {program : List Statement} {items : List Item}
    {image : Image} (hresolved : resolve options program = .ok items)
    (horigin : settings.origin < 0xFFFF) (hmemory : settings.memoryEnd < 0xFFFF)
    (himage : Image.ofItems settings items = .ok image) :
    ∃ laid emitted, layOut settings items = .ok laid ∧ emit settings laid items = .ok emitted ∧
      emitted.finish settings.origin = image ∧
      MetadataExact settings items
        (Run.placed ⟨settings, .emit⟩ (emitStart laid) (planOf items)) image := by
  obtain ⟨laid, emitted, hlaid, hemitted, rfl⟩ := ofItems_eq_ok.mp himage
  obtain ⟨names, hends, -⟩ := resolve_endsWith hresolved
  obtain ⟨-, -, haccounts⟩ := hends.sound
  have hrun := emit_eq_ok.mp hemitted
  have hleaves := (Run.map_fst_placed hrun).trans (leavesBy_planOf items)
  have hlabels := heads_emitted haccounts.distinct horigin hmemory hlaid hemitted
  obtain ⟨hbreak, hwatch⟩ := notes_emitted horigin hmemory hlaid hemitted
  refine ⟨laid, emitted, hlaid, hemitted, rfl, hleaves, ?_, hlabels, ?_, ?_, hbreak, hwatch⟩
  · intro place hplace
    obtain ⟨stage, hstage, heq⟩ := List.mem_filterMap.mp hplace
    obtain ⟨l, -, rfl⟩ := Option.map_eq_some_iff.mp heq
    exact Run.size_le_of_mem_trail hrun stage hstage
  · intro name
    show name ∈ emitted.labels.heads.map Prod.fst ↔ _
    rw [hlabels, mem_keys_firstOfEach, mem_keys_declaredAt, hleaves]
    rfl
  · show (emitted.labels.heads.map Prod.fst).Nodup
    rw [hlabels]
    exact nodup_keys_firstOfEach _

/-- A second byte is labelled twice, the second time inside a block that also holds a breakpoint and
    a monitor of that label. -/
def watchedItems : List Item :=
  [.leaf ⟨1, "main"⟩ (.label "main"),
    .leaf ⟨2, "step"⟩ (.nextLabel "step"),
    .leaf ⟨2, "v0"⟩ (.instr (.regImm .seti (vReg 0) (.number 1))),
    .ifBegin ⟨3, "if"⟩ (.key (vReg 0) true)
      [.leaf ⟨4, ":breakpoint"⟩ (.breakpoint "stop"),
        .leaf ⟨5, "step"⟩ (.nextLabel "step"),
        .leaf ⟨5, "v0"⟩ (.instr (.regImm .seti (vReg 0) (.number 2))),
        .leaf ⟨6, ":monitor"⟩ (.monitor (.address (.label "step")) (.length 4))],
    .leaf ⟨7, ":monitor"⟩ (.monitor (.register (vReg 0)) (.format "%i"))]

/-- The statements of `watchedItems`. -/
def watchedProgram : List Statement :=
  [.label (word 1 "main"), set 2 1,
    .ifBegin (word 3 "if") (.key (.literal (word 3 "v0") (vReg 0)) true)
      [.simple (.breakpoint (word 4 ":breakpoint") (word 4 "stop")), set 5 2,
        .simple (.monitor (word 6 ":monitor") (.named (word 6 "step")) (.length (word 6 "4") 4))],
    .simple (.monitor (word 7 ":monitor") (.register (.literal (word 7 "v0") (vReg 0)))
      (.format (word 7 "%i")))]
where
  /-- A word of a line. -/
  word (line : Nat) (text : String) : Token := ⟨line, .name, text⟩
  /-- `:next step v0 := value` -/
  set (line : Nat) (value : Int) : Statement :=
    .next (word line ":next") (word line "step") (.simple (.assign (.immediate (word line "v0")
      (.literal (word line "v0") (vReg 0)) .set (.number (word line "1") value))))

/-- The image of `watchedItems`: the monitor in the block watches the label that is nearest there. -/
def watchedImage : Image where
  origin := 0x200
  bytes := #[0x60, 1, 0xE0, 0x9E, 0x12, 8, 0x60, 2]
  labels := [("main", 0x200), ("step", 0x201)]
  breakpoints := [("stop", 0x206)]
  monitors := [⟨.address 0x207, .length 4⟩, ⟨.register (vReg 0), .format "%i"⟩]

theorem metadata_exact_watched :
    resolve {} watchedProgram = .ok watchedItems ∧
      Image.ofItems {} watchedItems = .ok watchedImage ∧
      ∃ laid emitted, layOut {} watchedItems = .ok laid ∧ emit {} laid watchedItems = .ok emitted ∧
        emitted.finish 0x200 = watchedImage ∧
        MetadataExact {} watchedItems
          (Run.placed ⟨{}, .emit⟩ (emitStart laid) (planOf watchedItems)) watchedImage := by
  have hresolved : resolve {} watchedProgram = .ok watchedItems := rfl
  have himage : Image.ofItems {} watchedItems = .ok watchedImage := by decide +kernel
  exact ⟨hresolved, himage, metadata_exact hresolved (by decide) (by decide) himage⟩

end OctoAsm
