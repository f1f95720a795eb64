import SpokenKeys.Grammar.Derivation
import SpokenKeys.Proofs.Outline

/-!
Derivation trees against derivability: a tree of a symbol over a span shows
that the symbol derives the labels there, and by a table that fits an outline
there is no second tree.
-/

namespace SpokenKeys.Derivation

variable {grammar : Grammar} {labels : List String} {start stop : Nat} {symbol : Symbol}
  {symbols : List Symbol}

mutual

theorem le_of_covers : ∀ {tree : Derivation} {symbol : Symbol} {start stop : Nat},
    Covers grammar labels tree symbol start stop → start ≤ stop
  | .leaf _, .terminal _, _, _, h => by
      obtain ⟨-, rfl, -⟩ := h
      exact Nat.le_succ _
  | .node _ _ _ _, .rule _, _, _, h => by
      obtain ⟨-, -, _, -, -, hchildren⟩ := h
      exact le_of_coverAll hchildren
  | .leaf _, .rule _, _, _, h => h.elim
  | .node _ _ _ _, .terminal _, _, _, h => h.elim

theorem le_of_coverAll : ∀ {trees : List Derivation} {symbols : List Symbol} {start stop : Nat},
    CoverAll grammar labels trees symbols start stop → start ≤ stop
  | [], [], _, _, h => Nat.le_of_eq h
  | _ :: _, _ :: _, _, _, h => by
      obtain ⟨_, hfirst, hrest⟩ := h
      exact Nat.le_trans (le_of_covers hfirst) (le_of_coverAll hrest)
  | [], _ :: _, _, _, h => h.elim
  | _ :: _, [], _, _, h => h.elim

end

mutual

theorem derives_of_covers : ∀ {tree : Derivation} {symbol : Symbol} {start stop : Nat},
    Covers grammar labels tree symbol start stop →
      Derives grammar.table [symbol] (span labels start stop)
  | .leaf _, .terminal _, _, _, h => by
      obtain ⟨rfl, rfl, hlabel⟩ := h
      rw [span_succ hlabel]
      exact .terminal .nil
  | .node _ _ _ _, .rule _, _, _, h => by
      obtain ⟨-, -, production, hproduction, rfl, hchildren⟩ := h
      exact Derives.single_iff.mpr
        ⟨production, Grammar.mem_table_of_production? hproduction, rfl,
          derives_of_coverAll hchildren⟩
  | .leaf _, .rule _, _, _, h => h.elim
  | .node _ _ _ _, .terminal _, _, _, h => h.elim

theorem derives_of_coverAll :
    ∀ {trees : List Derivation} {symbols : List Symbol} {start stop : Nat},
      CoverAll grammar labels trees symbols start stop →
        Derives grammar.table symbols (span labels start stop)
  | [], [], _, _, h => by
      obtain rfl := h
      rw [span_self]
      exact .nil
  | _ :: _, _ :: _, _, _, h => by
      obtain ⟨_, hfirst, hrest⟩ := h
      exact Derives.append_span (le_of_covers hfirst) (le_of_coverAll hrest)
        (derives_of_covers hfirst) (derives_of_coverAll hrest)
  | [], _ :: _, _, _, h => h.elim
  | _ :: _, [], _, _, h => h.elim

end

/-- What a derivation of all the labels derives are the labels. -/
theorem generates_of_covers {rule : Rule} {tree : Derivation}
    (h : Covers grammar labels tree (.rule rule) 0 labels.length) :
    grammar.Generates rule labels := by
  have hderives := derives_of_covers h
  rwa [span_zero, List.take_length] at hderives

/-- A tree among several stands for one of the symbols, whose neighbours derive
what is left of the span. -/
theorem split_of_mem {trees : List Derivation} {tree : Derivation}
    (h : CoverAll grammar labels trees symbols start stop) (hmem : tree ∈ trees) :
    ∃ before symbol after left right, symbols = before ++ symbol :: after ∧
      start ≤ left ∧ right ≤ stop ∧ Derives grammar.table before (span labels start left) ∧
      Covers grammar labels tree symbol left right ∧
      Derives grammar.table after (span labels right stop) := by
  induction trees generalizing symbols start with
  | nil => cases hmem
  | cons first rest ih =>
      match symbols, h with
      | symbol :: symbols, ⟨middle, hfirst, hrest⟩ =>
        rcases List.mem_cons.mp hmem with rfl | hmem
        · refine ⟨[], symbol, symbols, start, middle, rfl, Nat.le_refl _, le_of_coverAll hrest,
            ?_, hfirst, derives_of_coverAll hrest⟩
          rw [span_self]
          exact .nil
        · obtain ⟨before, inner, after, left, right, rfl, hleft, hright, hbefore, hinner, hafter⟩ :=
            ih hrest hmem
          have hle := le_of_covers hfirst
          exact ⟨symbol :: before, inner, after, left, right, rfl, Nat.le_trans hle hleft, hright,
            Derives.append_span hle hleft (derives_of_covers hfirst) hbefore, hinner, hafter⟩

/-- Two ways of dividing a span among symbols whose phrases cannot go on into
what follows have the same border. -/
theorem border_unique {outline : Outline} (hfits : outline.Fits grammar.table)
    {first second : List Symbol} (hdivides : outline.divides (first ++ second) = true)
    {middle middle' : Nat} (hstop : stop ≤ labels.length) (hstart : start ≤ middle)
    (hmiddle : middle ≤ stop) (hstart' : start ≤ middle') (hmiddle' : middle' ≤ stop)
    (hfront : Derives grammar.table first (span labels start middle))
    (hback : Derives grammar.table second (span labels middle stop))
    (hfront' : Derives grammar.table first (span labels start middle'))
    (hback' : Derives grammar.table second (span labels middle' stop)) : middle = middle' := by
  have hequal : span labels start middle ++ span labels middle stop =
      span labels start middle' ++ span labels middle' stop := by
    rw [span_append labels hstart hmiddle, span_append labels hstart' hmiddle']
  have hspan := hfits.split_unique hdivides hequal hfront hback hfront' hback'
  have hlength := congrArg List.length hspan
  rw [span_length, span_length] at hlength
  omega

mutual

/-- By a table that fits an outline, labels have at most one tree. -/
theorem covers_unique {outline : Outline} (hfits : outline.Fits grammar.table) :
    ∀ {tree tree' : Derivation} {symbol : Symbol} {start stop : Nat}, stop ≤ labels.length →
      Covers grammar labels tree symbol start stop →
      Covers grammar labels tree' symbol start stop → tree = tree'
  | .leaf _, .leaf _, .terminal _, _, _, _, h, h' => by
      obtain ⟨rfl, -, -⟩ := h
      obtain ⟨rfl, -, -⟩ := h'
      rfl
  | .node id _ _ children, .node id' _ _ children', .rule _, _, _, hstop, h, h' => by
      obtain ⟨rfl, rfl, production, hproduction, rfl, hchildren⟩ := h
      obtain ⟨rfl, rfl, other, hother, hlhs, hchildren'⟩ := h'
      rw [Grammar.production?_eq] at hproduction hother
      obtain rfl : id = id' := hfits.alternative_unique hproduction hother hlhs.symm
        (derives_of_coverAll hchildren) (derives_of_coverAll hchildren')
      obtain rfl : other = production := Option.some.inj (hother.symm.trans hproduction)
      rw [coverAll_unique hfits (hfits.divides other (List.mem_of_getElem? hother)) hstop
        hchildren hchildren']
  | .leaf _, .node _ _ _ _, .rule _, _, _, _, h, _ => h.elim
  | .leaf _, .node _ _ _ _, .terminal _, _, _, _, _, h' => h'.elim
  | .node _ _ _ _, .leaf _, .rule _, _, _, _, _, h' => h'.elim
  | .node _ _ _ _, .leaf _, .terminal _, _, _, _, h, _ => h.elim
  | .leaf _, .leaf _, .rule _, _, _, _, h, _ => h.elim
  | .node _ _ _ _, .node _ _ _ _, .terminal _, _, _, _, h, _ => h.elim

theorem coverAll_unique {outline : Outline} (hfits : outline.Fits grammar.table) :
    ∀ {trees trees' : List Derivation} {symbols : List Symbol} {start stop : Nat},
      outline.divides symbols = true → stop ≤ labels.length →
      CoverAll grammar labels trees symbols start stop →
      CoverAll grammar labels trees' symbols start stop → trees = trees'
  | [], [], [], _, _, _, _, _, _ => rfl
  | tree :: trees, tree' :: trees', symbol :: symbols, _, stop, hdivides, hstop, h, h' => by
      obtain ⟨middle, hfirst, hrest⟩ := h
      obtain ⟨middle', hfirst', hrest'⟩ := h'
      -- Both first trees end where the first symbol's phrase does.
      obtain rfl : middle = middle' :=
        border_unique hfits (show outline.divides ([symbol] ++ _) = true from hdivides) hstop
          (le_of_covers hfirst) (le_of_coverAll hrest) (le_of_covers hfirst') (le_of_coverAll hrest')
          (derives_of_covers hfirst) (derives_of_coverAll hrest) (derives_of_covers hfirst')
          (derives_of_coverAll hrest')
      have hmiddle : middle ≤ labels.length := Nat.le_trans (le_of_coverAll hrest) hstop
      simp only [Outline.divides, Bool.and_eq_true] at hdivides
      rw [covers_unique hfits hmiddle hfirst hfirst',
        coverAll_unique hfits hdivides.2 hstop hrest hrest']
  | [], _ :: _, [], _, _, _, _, _, h' => h'.elim
  | [], _ :: _, _ :: _, _, _, _, _, h, _ => h.elim
  | _ :: _, [], [], _, _, _, _, h, _ => h.elim
  | _ :: _, [], _ :: _, _, _, _, _, _, h' => h'.elim
  | [], [], _ :: _, _, _, _, _, h, _ => h.elim
  | _ :: _, _ :: _, [], _, _, _, _, h, _ => h.elim

end

end SpokenKeys.Derivation
