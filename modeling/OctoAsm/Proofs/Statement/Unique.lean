/-
  A text is cut into statements in one way.

  The grammar has no choice to make, because the reader follows it and makes none: two statements that
  the same tokens begin with are the same statement, with the same tokens left over
  (`Reads.statement_unique`).  A text that begins with a statement is therefore that statement and a
  reading of the rest (`Reads.body_cons_iff`), and a text moved to other lines has no readings but those
  of the text moved along (`Reads.mapTokens_iff`).
-/
import OctoAsm.Proofs.Statement.Reading
import OctoAsm.Proofs.Statement.Relocation

namespace OctoAsm

variable {b : Bool} {ts us vs ws : List Token} {st st' : Statement} {program program' : List Statement}

/-- What tokens begin with a statement, and what is left of them. -/
theorem Reads.statement_unique (h : Reads (.statement b) ts [st] (lead us none))
    (h' : Reads (.statement b) vs [st'] (lead ws none)) (heq : ts ++ us = vs ++ ws) :
    st = st' ∧ us = ws := by
  have hread := h.read (max ts.length vs.length) us st rfl rfl (Nat.le_max_left _ _)
  have hread' := h'.read (max ts.length vs.length) ws st' rfl rfl (Nat.le_max_right _ _)
  rw [heq, hread'] at hread
  have hpair := Except.ok.inj hread
  exact ⟨(congrArg Prod.fst hpair).symm, (congrArg Prod.snd hpair).symm⟩

/-- The statements of a whole text are determined. -/
theorem Reads.unique (h : Reads (.body false) ts program none)
    (h' : Reads (.body false) ts program' none) : program = program' := by
  have hparse := parse_eq_ok.mpr h
  rw [parse_eq_ok.mpr h'] at hparse
  exact (Except.ok.inj hparse).symm

/-- **A text that begins with a statement** is that statement and a reading of the rest. -/
theorem Reads.body_cons_iff (h : Reads (.statement b) ts [st] (lead us none)) :
    Reads (.body b) (ts ++ us) program none ↔
      ∃ rest, program = st :: rest ∧ Reads (.body b) us rest none := by
  constructor
  · intro hbody
    -- no line feed stands before the first token of a statement
    have hfeeds : ∀ {nls ws}, Feeds nls → nls ++ ws = ts ++ us → nls = [] := by
      intro nls ws hnls heq
      obtain ⟨t, front, rfl, hbegins⟩ := h.begins
      cases nls with
      | nil => rfl
      | cons n nls =>
        obtain rfl : n = t := (List.cons.inj heq).1
        rw [hnls n List.mem_cons_self] at hbegins
        cases hbegins
    generalize htokens : ts ++ us = tokens at hbody
    cases hbody with
    | done hnls =>
      obtain ⟨t, front, rfl, -⟩ := h.begins
      have hnil := hfeeds hnls ((List.append_nil tokens).trans htokens.symm)
      rw [hnil] at htokens
      cases htokens
    | @more _ nls vs st' ws rest _ hnls hst hrest =>
      obtain rfl := hfeeds hnls htokens.symm
      obtain ⟨rfl, rfl⟩ := h.statement_unique hst htokens
      exact ⟨rest, rfl, hrest⟩
  · rintro ⟨rest, rfl, hrest⟩
    exact .more .nil h hrest

/-- **The readings of a text on other lines**, where the lines can be changed back. -/
theorem Reads.mapTokens_iff {f g : Token → Token} (hf : Relines f) (hg : Relines g)
    (hback : ∀ t, g (f t) = t) :
    Reads (.body false) (ts.map f) program none ↔
      ∃ source, program = mapTokensAll f source ∧ Reads (.body false) ts source none := by
  constructor
  · intro h
    have hsource := h.mapTokens hg
    have htokens : (ts.map f).map g = ts := by
      rw [List.map_map]
      exact (List.map_congr_left fun t _ => hback t).trans (List.map_id ts)
    rw [htokens] at hsource
    refine ⟨_, ?_, hsource⟩
    rw [mapTokensAll_eq_map]
    exact h.unique (hsource.mapTokens hf)
  · rintro ⟨source, rfl, hsource⟩
    rw [mapTokensAll_eq_map]
    exact hsource.mapTokens hf

end OctoAsm
