import Mathlib.Data.List.Perm.Subperm
import SpokenKeys.Proofs.Language

/-!
Saturation reaches a fixed point, and the fixed point of the sweeps for empty
phrases is exactly the set of nonterminals that derive the empty list. A sweep
only adds to the front of a list without repetitions, and there are finitely
many nonterminals, so the number of rounds is enough.
-/

namespace SpokenKeys

namespace Saturation

variable {sweep : List Rule → List Rule} {found : List Rule} {table : List Production}

theorem length_le_of_nodup (h : found.Nodup) : found.length ≤ Rule.all.length :=
  (List.subperm_of_subset h fun rule _ => Rule.mem_all rule).length_le

/-- A sweep that keeps lists free of repetitions and only adds to their front. -/
def Grows (sweep : List Rule → List Rule) : Prop :=
  ∀ found, found.Nodup → (sweep found).Nodup ∧ found <:+ sweep found

/-- A sweep that is repeated until it adds nothing comes to an end, and what it ends
with. The number of sweeps is not bounded beforehand. -/
inductive Settles (sweep : List Rule → List Rule) : List Rule → List Rule → Prop where
  | stop {found : List Rule} :
      (sweep found).length = found.length → Settles sweep found (sweep found)
  | again {found last : List Rule} :
      (sweep found).length ≠ found.length → Settles sweep (sweep found) last →
      Settles sweep found last

theorem Settles.unique {last other : List Rule} (h : Settles sweep found last)
    (hother : Settles sweep found other) : last = other := by
  induction h with
  | stop hequal =>
      cases hother with
      | stop => rfl
      | again hmore => exact absurd hequal hmore
  | again hmore _ ih =>
      cases hother with
      | stop hequal => exact absurd hequal hmore
      | again _ hrest => exact ih hrest

/-- Where it ends, one more sweep adds nothing. -/
theorem Settles.fixed {last : List Rule} (hgrows : Grows sweep) (hnodup : found.Nodup)
    (h : Settles sweep found last) : sweep last = last := by
  induction h with
  | stop hequal =>
      have hsame := (hgrows _ hnodup).2.eq_of_length hequal.symm
      rw [← hsame]
      exact hsame.symm
  | again _ _ ih => exact ih (hgrows _ hnodup).1

/-- With rounds enough for every nonterminal to be added, the bound on them is not what
ends the sweeps. -/
theorem repeatSweep_settles (hgrows : Grows sweep) (rounds : Nat) (hnodup : found.Nodup)
    (hrounds : Rule.all.length < found.length + rounds) :
    Settles sweep found (repeatSweep sweep rounds found) := by
  induction rounds generalizing found with
  | zero =>
      -- The list would have more nonterminals than there are.
      have hlength := length_le_of_nodup hnodup
      omega
  | succ rounds ih =>
      obtain ⟨hnext, hsuffix⟩ := hgrows found hnodup
      simp only [repeatSweep]
      split
      next hequal =>
        have hstop := Settles.stop hequal
        rwa [← hsuffix.eq_of_length hequal.symm] at hstop
      next hmore =>
        have hlonger := hsuffix.length_le
        exact .again hmore (ih hnext (by omega))

theorem saturate_settles (hgrows : Grows sweep) (hnodup : found.Nodup) :
    Settles sweep found (saturate sweep found) :=
  repeatSweep_settles hgrows _ hnodup (by omega)

theorem repeatSweep_keeps {P : List Rule → Prop} (hkeeps : ∀ found, P found → P (sweep found))
    (rounds : Nat) (h : P found) : P (repeatSweep sweep rounds found) := by
  induction rounds generalizing found with
  | zero => exact h
  | succ rounds ih =>
      simp only [repeatSweep]
      split
      · exact h
      · exact ih (hkeeps found h)

theorem saturate_fixed (hgrows : Grows sweep) (hnodup : found.Nodup) :
    sweep (saturate sweep found) = saturate sweep found :=
  (saturate_settles hgrows hnodup).fixed hgrows hnodup

theorem mem_add {rule other : Rule} : other ∈ add found rule ↔ other = rule ∨ other ∈ found := by
  unfold add
  split
  next h => exact ⟨.inr, fun | .inl e => e ▸ h | .inr h' => h'⟩
  next => exact List.mem_cons

theorem add_grows (rule : Rule) : Grows (fun found => add found rule) := by
  intro found hnodup
  dsimp only [add]
  split
  next => exact ⟨hnodup, List.suffix_refl found⟩
  next h => exact ⟨List.nodup_cons.mpr ⟨h, hnodup⟩, List.suffix_cons rule found⟩

theorem foldl_grows {α : Type} (step : List Rule → α → List Rule)
    (hstep : ∀ entry, Grows fun found => step found entry) (entries : List α) :
    Grows fun found => entries.foldl step found := by
  induction entries with
  | nil => exact fun found hnodup => ⟨hnodup, List.suffix_refl found⟩
  | cons entry rest ih =>
      intro found hnodup
      obtain ⟨hnext, hsuffix⟩ := hstep entry found hnodup
      obtain ⟨hlast, hsuffix'⟩ := ih (step found entry) hnext
      exact ⟨hlast, hsuffix.trans hsuffix'⟩

theorem Grows.guarded (hgrows : Grows sweep) (condition : List Rule → Prop)
    [DecidablePred condition] :
    Grows fun found => if condition found then sweep found else found := by
  intro found hnodup
  dsimp only
  split
  · exact hgrows found hnodup
  · exact ⟨hnodup, List.suffix_refl found⟩

/-- What an entry adds to a list, whatever else is in it, is there after all entries. -/
theorem mem_foldl {α : Type} {step : List Rule → α → List Rule} {rule : Rule}
    (hstep : ∀ entry, Grows fun found => step found entry) {entries : List α} {entry : α}
    (hmem : entry ∈ entries) (hnodup : found.Nodup)
    (hadds : ∀ more, found ⊆ more → rule ∈ step more entry) :
    rule ∈ entries.foldl step found := by
  induction entries generalizing found with
  | nil => cases hmem
  | cons first rest ih =>
      obtain ⟨hnext, hsuffix⟩ := hstep first found hnodup
      rcases List.mem_cons.mp hmem with rfl | hrest
      · have hadded := hadds found (List.Subset.refl found)
        exact (foldl_grows step hstep rest _ hnext).2.subset hadded
      · exact ih hrest hnext fun more hmore => hadds more (List.Subset.trans hsuffix.subset hmore)

theorem nullableStep_grows (production : Production) :
    Grows fun found =>
      if production.rhs.all (isFound found) then add found production.lhs else found :=
  (add_grows production.lhs).guarded _

theorem sweepNullable_grows (table : List Production) : Grows (sweepNullable table) :=
  foldl_grows _ nullableStep_grows table

theorem all_isFound_iff {symbols : List Symbol} :
    symbols.all (isFound found) = true ↔
      ∀ symbol ∈ symbols, ∃ rule ∈ found, symbol = .rule rule := by
  rw [List.all_eq_true]
  refine forall₂_congr fun symbol _ => ?_
  cases symbol <;> simp [isFound]

/-- Nonterminals that derive nothing are those of a list that derives nothing. -/
theorem derives_nil_of_all_isFound (hfound : ∀ rule ∈ found, Derives table [.rule rule] [])
    {symbols : List Symbol} (hall : symbols.all (isFound found) = true) :
    Derives table symbols [] := by
  induction symbols with
  | nil => exact .nil
  | cons symbol rest ih =>
      rw [all_isFound_iff] at hall
      obtain ⟨rule, hrule, rfl⟩ := hall symbol List.mem_cons_self
      have hrest : rest.all (isFound found) = true :=
        all_isFound_iff.mpr fun other hother => hall other (List.mem_cons_of_mem _ hother)
      exact (hfound rule hrule).append (ih hrest)

/-- A sweep adds only nonterminals that derive the empty list. -/
theorem sweepNullable_sound (hfound : ∀ rule ∈ found, Derives table [.rule rule] []) :
    ∀ rule ∈ sweepNullable table found, Derives table [.rule rule] [] := by
  unfold sweepNullable
  refine List.foldlRecOn (motive := fun found => ∀ rule ∈ found, Derives table [.rule rule] [])
    table _ hfound fun found hfound production hmem => ?_
  split
  next hall =>
    intro rule hrule
    rcases mem_add.mp hrule with rfl | hold
    · exact Derives.single_iff.mpr
        ⟨production, hmem, rfl, derives_nil_of_all_isFound hfound hall⟩
    · exact hfound rule hold
  next => exact hfound

/-- A sweep adds the left-hand side of every production whose symbols are all
found already. -/
theorem mem_sweepNullable {production : Production} (hnodup : found.Nodup)
    (hmem : production ∈ table) (hall : production.rhs.all (isFound found) = true) :
    production.lhs ∈ sweepNullable table found := by
  refine mem_foldl nullableStep_grows hmem hnodup fun more hsubset => ?_
  -- What is added before leaves its symbols found.
  have hmore : production.rhs.all (isFound more) = true :=
    all_isFound_iff.mpr fun symbol hsymbol => by
      obtain ⟨rule, hrule, rfl⟩ := all_isFound_iff.mp hall symbol hsymbol
      exact ⟨rule, hsubset hrule, rfl⟩
  rw [if_pos hmore]
  exact mem_add.mpr (.inl rfl)

theorem nullable_nodup (table : List Production) : (nullable table).Nodup :=
  repeatSweep_keeps (P := List.Nodup)
    (fun found hnodup => (sweepNullable_grows table found hnodup).1) _ List.nodup_nil

/-- The nonterminals found by saturation are exactly those that derive the
empty list. -/
theorem mem_nullable_iff {rule : Rule} :
    rule ∈ nullable table ↔ Derives table [.rule rule] [] := by
  constructor
  · exact repeatSweep_keeps (P := fun found => ∀ rule ∈ found, Derives table [.rule rule] [])
      (fun _ => sweepNullable_sound) _ (by simp) rule
  · intro h
    have hfixed : sweepNullable table (nullable table) = nullable table :=
      saturate_fixed (sweepNullable_grows table) List.nodup_nil
    -- The statement for lists of symbols, by induction on the derivation.
    have hall : ∀ {symbols labels}, Derives table symbols labels → labels = [] →
        symbols.all (isFound (nullable table)) = true := by
      intro symbols labels hderives
      induction hderives with
      | nil => exact fun _ => rfl
      | terminal => exact fun hnil => absurd hnil (List.cons_ne_nil _ _)
      | @rule production symbols inner labels hmem _ _ ihinner ihrest =>
          intro hnil
          obtain ⟨hinner, hrest⟩ := List.append_eq_nil_iff.mp hnil
          have hlhs := mem_sweepNullable (nullable_nodup table) hmem (ihinner hinner)
          rw [hfixed] at hlhs
          rw [List.all_cons, ihrest hrest]
          simp [isFound, hlhs]
    simpa [isFound] using hall h rfl

end Saturation

namespace Grammar

theorem isNullable_iff {grammar : Grammar} {rule : Rule} :
    grammar.isNullable rule = true ↔ Derives grammar.table [.rule rule] [] := by
  rw [isNullable, decide_eq_true_iff, grammar.nullableRules_eq]
  exact Saturation.mem_nullable_iff

/-- Nullability is exact, whatever the table. Sweeps for empty phrases that go on until
one adds nothing come to an end, and what they end with is each nonterminal that
derives the empty list, once, and no other; so the lookup of a grammar says of a
nonterminal whether it derives the empty list. -/
theorem nullability_exact (table : List Production) :
    Saturation.Settles (Saturation.sweepNullable table) [] (Saturation.nullable table) ∧
      (Saturation.nullable table).Nodup ∧
      ∀ rule, (rule ∈ Saturation.nullable table ↔ Derives table [.rule rule] []) ∧
        ((ofProductions table).isNullable rule = true ↔ Derives table [.rule rule] []) := by
  refine ⟨Saturation.saturate_settles (Saturation.sweepNullable_grows table) List.nodup_nil,
    Saturation.nullable_nodup table, fun rule => ⟨Saturation.mem_nullable_iff, ?_⟩⟩
  rw [isNullable_iff, table_ofProductions]

end Grammar

end SpokenKeys
