import SpokenKeys.Proofs.ChartSize
import SpokenKeys.Proofs.CommandOutline

/-!
Charts of the command grammar stay within the limit on chart items, as long as
the utterance stays within the limit on tokens.
-/

namespace SpokenKeys.Commands

/-- Inputs are whole utterances. Chains, free text and filler words are as long as
one likes; the longest number has four groups of four words and the three scale
words between them. -/
def frame : Frame where
  rooted
    | .input | .tolerantInput => true
    | _ => false
  longest
    | .ones | .small | .tens | .letter | .rawWord => some 1
    | .hundreds | .skyLetter | .character | .spelledWord => some 2
    | .sleepPhrase => some 3
    | .count | .group => some 4
    | .movement | .editing => some 5
    | .thousands => some 9
    | .millions => some 14
    | .billions => some 19
    | .number => some 20
    | _ => none

theorem frame_admits : ∀ production ∈ grammar.table,
    frame.admits outline production = true :=
  forall_table (by decide)

/-- Labels that some phrase of the grammar begins with. -/
def names : List String :=
  inputFirst ++ rawFirst ++ groupFirst ++ Lexicon.junkWords

set_option maxRecDepth 20000 in
theorem firstOf_subset_names :
    ((extents productions).all fun extent => frame.rooted extent.lhs ||
      (outline.firstOf extent.symbols).all fun label => names.contains label) = true := by
  decide +kernel

/-- Whether phrases of few extents are unlimited, so that not many positions are
left for them to end at. -/
def isNarrow (found : List Extent) : Bool :=
  decide (frame.unlimited found ≤ 4 ∧ (found.map (frame.ends 0)).sum ≤ 2) ||
    decide (frame.unlimited found ≤ 3 ∧ (found.map (frame.ends 0)).sum ≤ 140)

-- Words of numbers begin many extents, all of them limited; modifiers and free
-- text begin the most that are not.
set_option maxRecDepth 20000 in
theorem isNarrow_of_names :
    (names.all fun label =>
      isNarrow (frame.extentsFrom outline productions (some label))) = true := by
  decide +kernel

def column (rest : Nat) : Nat := max (4 * rest + 2) (3 * rest + 140)

theorem ends_le_column {found : List Extent} (h : isNarrow found = true) (rest : Nat) :
    (found.map (frame.ends rest)).sum ≤ column rest := by
  rw [frame.sum_ends, column]
  simp only [isNarrow, Bool.or_eq_true, decide_eq_true_eq] at h
  rcases h with ⟨hwide, hnarrow⟩ | ⟨hwide, hnarrow⟩
  · have := Nat.mul_le_mul_right rest hwide
    omega
  · have := Nat.mul_le_mul_right rest hwide
    omega

/-- Nothing begins with a label that is no name. -/
theorem extentsFrom_isNarrow (label? : Option String) :
    isNarrow (frame.extentsFrom outline productions label?) = true := by
  cases label? with
  | none =>
      have hempty : frame.extentsFrom outline productions none = [] := by
        simp [Frame.extentsFrom]
      rw [hempty]
      decide
  | some label =>
      by_cases hname : label ∈ names
      · exact List.all_eq_true.mp isNarrow_of_names label hname
      · have hempty : frame.extentsFrom outline productions (some label) = [] := by
          refine List.filter_eq_nil_iff.mpr fun extent hextent h => hname ?_
          have hnames := List.all_eq_true.mp firstOf_subset_names extent hextent
          simp only [Bool.and_eq_true, Bool.not_eq_true', Option.any_some,
            List.contains_iff_mem] at h
          rw [h.1, Bool.false_or, List.all_eq_true] at hnames
          exact List.contains_iff_mem.mp (hnames label h.2)
        rw [hempty]
        decide

theorem columns_le :
    ((List.range (Limits.tokens + 1)).map fun place =>
      productions.length + (frame.rootedExtents productions).length +
        column (Limits.tokens - place)).sum ≤ Limits.chartItems := by
  decide +kernel

/-- The items of a chart are within their limit if the tokens are. -/
theorem totalSize_le {start : Rule} {labels : List String} {sets : Array ItemSet}
    (hlength : labels.length ≤ Limits.tokens)
    (hexact : Chart.AllExact grammar start labels sets) :
    Chart.totalSize sets ≤ Limits.chartItems := by
  calc Chart.totalSize sets
      ≤ (frame.cells outline grammar.table labels Limits.tokens).length :=
        Chart.totalSize_le fits frame_admits hlength hexact
    _ ≤ _ := by
        rw [table_eq]
        exact Frame.length_cells_le
          (fun label? => ends_le_column (extentsFrom_isNarrow label?)) labels Limits.tokens
    _ ≤ Limits.chartItems := columns_le

end SpokenKeys.Commands
