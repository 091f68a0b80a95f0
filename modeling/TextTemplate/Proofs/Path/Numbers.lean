import TextTemplate.Proofs.Binary64.Value
import TextTemplate.Proofs.Path.Walking

/-!
# The numbers that paths lead to

A path leads into the arguments, or to a count of what is in them.  A count is a number, and zero
only if nothing is counted (`Binary64.isZero_ofNat_iff`).  Any other number a path leads to occurs
in the arguments (`Path.holds_of_resolve`), and so does `nan` (`Path.resolve_ne_nan`).
-/

namespace TextTemplate

/-! ### Counts -/

namespace Binary64

theorem ofScaled_ne_nan (negative : Bool) (significand scale : Nat) :
    ofScaled negative significand scale ≠ .nan := by
  unfold ofScaled
  split <;> simp

theorem ofNat_ne_nan (n : Nat) : ofNat n ≠ .nan := by
  simp only [ofNat, ofRatio]
  split
  · exact ofScaled_ne_nan _ _ _
  · exact ofScaled_ne_nan _ _ _

theorem isZero_ofScaled {negative : Bool} {significand scale : Nat} (h : significand ≠ 0) :
    (ofScaled negative significand scale).isZero = false := by
  unfold ofScaled
  split
  · simpa [isZero] using h
  · rfl

theorem divRoundEven_ne_zero {num den : Nat} (hden : 0 < den) (h : den ≤ num) :
    divRoundEven num den ≠ 0 := by
  have hquotient : 0 < num / den := Nat.div_pos h hden
  simp only [divRoundEven]
  split <;> omega

/-- A count is zero only if nothing is counted. -/
theorem isZero_ofNat_iff (n : Nat) : (ofNat n).isZero ↔ n = 0 := by
  constructor
  · intro hzero
    by_contra hn
    have hquanta : n * quantaPerUnit ≠ 0 :=
      Nat.mul_ne_zero hn Finite.quantaPerUnit_pos.ne'
    simp only [ofNat, ofRatio, Nat.div_one, Nat.one_mul] at hzero
    generalize n * quantaPerUnit = quanta at hquanta hzero
    -- the divisor is a power of two up to the leading bit of the quanta
    have hle : 2 ^ (quanta.log2 - 52) ≤ quanta :=
      (Nat.pow_le_pow_right (by decide) (Nat.sub_le _ _)).trans (Nat.log2_self_le hquanta)
    have hpos : 0 < 2 ^ (quanta.log2 - 52) := Nat.two_pow_pos _
    have hsignificand := divRoundEven_ne_zero hpos hle
    split at hzero
    · rw [isZero_ofScaled (by decide)] at hzero
      cases hzero
    · rw [isZero_ofScaled hsignificand] at hzero
      cases hzero
  · rintro rfl
    simp only [ofNat, ofRatio, Nat.zero_mul]
    decide

end Binary64

/-! ### What a value holds -/

namespace Value

/-- The number occurs in the value, at any depth. -/
inductive Holds (x : Binary64) : Value → Prop
  | number : Holds x (.number x)
  | item {items : List Value} {v : Value} : v ∈ items → Holds x v → Holds x (.array items)
  | field {fields : List (String × Value)} {key : String} {v : Value} :
    (key, v) ∈ fields → Holds x v → Holds x (.object fields)

variable {x : Binary64} {v w : Value}

/-- What a part of a value holds, the value holds. -/
theorem Holds.of_isIn (hv : v.Holds x) (h : v.IsIn w) : w.Holds x := by
  induction h with
  | refl => exact hv
  | item hmem _ ih => exact .item hmem ih
  | field hmem _ ih => exact .field hmem ih

end Value

/-- A number in what a path leads to is one of the arguments' or a count. -/
theorem Path.holds_of_resolve {p : Path} {args : List Value} {v : Value} {x : Binary64}
    (hresolve : p.resolve args = some v) (h : v.Holds x) :
    (∃ arg ∈ args, arg.Holds x) ∨ ∃ n, x = Binary64.ofNat n := by
  rcases resolve_cases hresolve with ⟨arg, harg, hin⟩ | ⟨c, rfl⟩ | ⟨n, rfl⟩
  · exact .inl ⟨arg, harg, h.of_isIn hin⟩
  · cases h
  · cases h
    exact .inr ⟨n, rfl⟩

/-- No path leads to `nan` where no argument holds it. -/
theorem Path.resolve_ne_nan {args : List Value} (hargs : ∀ arg ∈ args, ¬ arg.Holds .nan)
    (p : Path) : p.resolve args ≠ some (.number .nan) := by
  intro hresolve
  rcases holds_of_resolve hresolve .number with ⟨arg, harg, hholds⟩ | ⟨n, hn⟩
  · exact hargs arg harg hholds
  · exact Binary64.ofNat_ne_nan n hn.symm

end TextTemplate
