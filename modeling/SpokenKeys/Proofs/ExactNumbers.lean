import SpokenKeys.Proofs.SpokenNumbers

/-!
The arithmetic of spoken numbers never wraps. Products and sums are checked one by one, and
a check fails if and only if 64 bits do not hold the whole result, so that the outcome is
either the number over the naturals or an overflow.
-/

namespace SpokenKeys

/-- The result is the integer of a size if 64 bits hold it, and an overflow if they do not. -/
def IsExact (session : Session) (size : Nat) (overflow : Fault → Prop)
    (result : Except Fault Meaning.Outcome) : Prop :=
  if h : size < 2 ^ 64 then
    result = .ok { value := .integer (.ofNatLT size h), session }
  else ∃ fault, overflow fault ∧ result = .error fault

/-- The overflow of a sum that starts with a total: it names the first number that no longer
fits, and the sum up to it. -/
def SumOverflow (total : UInt64) (numbers : List UInt64) (fault : Fault) : Prop :=
  ∃ (front back : List UInt64) (next sum : UInt64),
    numbers = front ++ next :: back ∧ sum.toNat = total.toNat + (front.map UInt64.toNat).sum ∧
      2 ^ 64 ≤ sum.toNat + next.toNat ∧ fault = .overflow sum 1 next

theorem SumOverflow.cons {total part next : UInt64} {numbers : List UInt64} {fault : Fault}
    (hnext : next.toNat = total.toNat + part.toNat) (h : SumOverflow next numbers fault) :
    SumOverflow total (part :: numbers) fault := by
  obtain ⟨front, back, last, sum, rfl, hsum, hover, rfl⟩ := h
  refine ⟨part :: front, back, last, sum, rfl, ?_, hover, rfl⟩
  rw [hsum, hnext, List.map_cons, List.sum_cons, Nat.add_assoc]

/-- The sum fails at the first number that no longer fits. -/
theorem sumArguments_overflow (total : UInt64) (numbers : List UInt64)
    (h : 2 ^ 64 ≤ total.toNat + (numbers.map UInt64.toNat).sum) :
    ∃ fault, SumOverflow total numbers fault ∧
      sumArguments total (integers numbers) = .error fault := by
  induction numbers generalizing total with
  | nil =>
      have := total.toNat_lt
      rw [List.map_nil, List.sum_nil, Nat.add_zero] at h
      omega
  | cons part numbers ih =>
      have hone : total.toNat * (1 : UInt64).toNat = total.toNat := Nat.mul_one _
      rw [integers, List.map_cons, ← integers, sumArguments, scaleAndAdd_eq, hone]
      by_cases hfits : total.toNat + part.toNat < UInt64.size
      · have hnext : (UInt64.ofNat (total.toNat + part.toNat)).toNat = total.toNat + part.toNat :=
          UInt64.toNat_ofNat_of_lt' hfits
        rw [List.map_cons, List.sum_cons, ← Nat.add_assoc, ← hnext] at h
        obtain ⟨fault, hover, hfails⟩ := ih _ h
        refine ⟨fault, hover.cons hnext, ?_⟩
        rw [if_pos hfits]
        exact hfails
      · refine ⟨.overflow total 1 part, ⟨[], numbers, part, total, rfl, rfl, ?_, rfl⟩, ?_⟩
        · exact Nat.not_lt.mp hfits
        · rw [if_neg hfits]
          rfl

/-- The outcome of a production whose value is a number. -/
def numberOutcome (session : Session) (number : UInt64) : Meaning.Outcome :=
  { value := .integer number, session }

theorem liftExcept_outcome (session : Session) (result : Except Fault UInt64)
    (rest : List Value) :
    (do
      let reader : ArgumentReader Value := .integer <$> Meaning.reader.liftExcept result
      let value ← reader.on rest
      .ok { value, session }) = result.map (numberOutcome session) := by
  cases result <;> rfl

theorem apply_group (session : Session) (values : List Value) :
    Meaning.group.apply session values = (sumArguments 0 values).map (numberOutcome session) :=
  liftExcept_outcome session (sumArguments 0 values) values

theorem apply_hundreds (session : Session) (head : UInt64) (keyword : Value)
    (more : List Value) :
    Meaning.hundreds.apply session (.integer head :: keyword :: more) =
      (scaleAndAdd head 100 0).map (numberOutcome session) :=
  liftExcept_outcome session (scaleAndAdd head 100 0) more

/-- What follows a scale word: no value, the value for nothing spoken, or a number. -/
inductive Remainder where
  | missing
  | absent
  | integer (number : UInt64)

namespace Remainder

def values : Remainder → List Value
  | .missing => []
  | .absent => [.absent]
  | .integer number => [.integer number]

def number : Remainder → UInt64
  | .missing | .absent => 0
  | .integer number => number

end Remainder

theorem apply_scaled (session : Session) (scale : Scale) (head : UInt64) (keyword : Value)
    (remainder : Remainder) :
    (Meaning.scaled scale).apply session (.integer head :: keyword :: remainder.values) =
      (scaleAndAdd head scale.factor remainder.number).map (numberOutcome session) := by
  cases remainder with
  | missing => exact liftExcept_outcome session (scaleAndAdd head scale.factor 0) []
  | absent => exact liftExcept_outcome session (scaleAndAdd head scale.factor 0) []
  | integer number => exact liftExcept_outcome session (scaleAndAdd head scale.factor number) []

theorem isExact_scaleAndAdd (session : Session) (head multiplier tail : UInt64) :
    IsExact session (head.toNat * multiplier.toNat + tail.toNat)
      (· = .overflow head multiplier tail)
      ((scaleAndAdd head multiplier tail).map (numberOutcome session)) := by
  rw [IsExact]
  split
  next hfits =>
    rw [scaleAndAdd_ofNat head multiplier tail hfits, UInt64.ofNatLT_eq_ofNat]
    rfl
  next hover =>
    rw [(scaleAndAdd_eq head multiplier tail).trans (if_neg hover)]
    exact ⟨_, rfl, rfl⟩

theorem isExact_sumArguments (session : Session) (numbers : List UInt64) :
    IsExact session (numbers.map UInt64.toNat).sum (SumOverflow 0 numbers)
      ((sumArguments 0 (integers numbers)).map (numberOutcome session)) := by
  have hzero : (0 : UInt64).toNat + (numbers.map UInt64.toNat).sum =
      (numbers.map UInt64.toNat).sum := Nat.zero_add _
  rw [IsExact]
  split
  next hfits =>
    rw [sumArguments_integers 0 numbers (hzero.trans_lt hfits), hzero, UInt64.ofNatLT_eq_ofNat]
    rfl
  next hover =>
    obtain ⟨fault, hfault, hfails⟩ :=
      sumArguments_overflow 0 numbers (hzero.symm ▸ Nat.not_lt.mp hover)
    exact ⟨fault, hfault, by rw [hfails]; rfl⟩

/-- The numbers of a group are summed, a number of hundreds is its digit times one hundred,
and a scaled number is its head times the scale with what follows added. Each of these is
the number over the naturals if 64 bits hold that, and an overflow if they do not. What
follows the word hundred is not looked at. -/
theorem number_arithmetic_never_wraps (session : Session) :
    (∀ numbers : List UInt64,
      IsExact session (numbers.map UInt64.toNat).sum (SumOverflow 0 numbers)
        (Meaning.group.apply session (integers numbers))) ∧
    (∀ (head : UInt64) (keyword : Value) (more : List Value),
      IsExact session (head.toNat * 100) (· = .overflow head 100 0)
        (Meaning.hundreds.apply session (.integer head :: keyword :: more))) ∧
    ∀ (scale : Scale) (head : UInt64) (keyword : Value) (remainder : Remainder),
      IsExact session (head.toNat * scale.factor.toNat + remainder.number.toNat)
        (· = .overflow head scale.factor remainder.number)
        ((Meaning.scaled scale).apply session
          (.integer head :: keyword :: remainder.values)) := by
  refine ⟨fun numbers => ?_, fun head keyword more => ?_, fun scale head keyword remainder => ?_⟩
  · rw [apply_group]
    exact isExact_sumArguments session numbers
  · rw [apply_hundreds]
    exact isExact_scaleAndAdd session head 100 0
  · rw [apply_scaled]
    exact isExact_scaleAndAdd session head scale.factor remainder.number

/-- A number after the word hundred is not added to the hundreds. -/
theorem hundreds_leave_out_what_follows :
    let keyword : Value := .token (.ofWord Lexicon.hundred 0)
    let remainder : Remainder := .integer 1
    let result := Meaning.hundreds.apply .awake (.integer 1 :: keyword :: remainder.values)
    result = .ok { value := .integer 100, session := .awake } ∧
      ¬ IsExact .awake (1 * 100 + remainder.number.toNat)
        (· = .overflow 1 100 remainder.number) result := by
  intro keyword remainder result
  refine ⟨rfl, fun hexact => ?_⟩
  have hfits : 1 * 100 + remainder.number.toNat < 2 ^ 64 := by decide
  rw [IsExact, dif_pos hfits] at hexact
  have hvalue := congrArg Meaning.Outcome.value (Except.ok.inj hexact)
  have hdiffers : (100 : UInt64) ≠ .ofNatLT 101 (by decide) := by decide
  exact hdiffers (Value.integer.inj hvalue)

end SpokenKeys
