import Mathlib.Algebra.Ring.Nat
import Mathlib.Data.List.Lex
import Mathlib.Order.Interval.Set.Defs
import Mathlib.Order.Lattice
import Mathlib.Order.Monotone.Basic

/-!
# Numerals of a fixed width

Numbers written with leading zeros are words of one length, and the lexicographic order of words of one length is decided by the first digit at which they differ. So it is the order of the numbers.
-/

namespace CosUserspace

namespace Numerals

variable {α β : Type*}

/-- The lowest `width` digits of `n` in base `b`, the highest first; `digit d` is how the digit `d` is written. -/
def fixedWidth (digit : ℕ → α) (b : ℕ) : ℕ → ℕ → List α
  | 0, _ => []
  | width + 1, n => fixedWidth digit b width (n / b) ++ [digit (n % b)]

@[simp] theorem length_fixedWidth (digit : ℕ → α) (b width n : ℕ) : (fixedWidth digit b width n).length = width := by
  induction width generalizing n with
  | zero => rfl
  | succ width ih => simp [fixedWidth, ih]

theorem fixedWidth_zero (digit : ℕ → α) (b width : ℕ) : fixedWidth digit b width 0 = List.replicate width (digit 0) := by
  induction width with
  | zero => rfl
  | succ width ih => rw [fixedWidth, Nat.zero_div, Nat.zero_mod, ih, List.replicate_succ']

theorem map_fixedWidth (f : α → β) (digit : ℕ → α) (b width n : ℕ) :
    (fixedWidth digit b width n).map f = fixedWidth (f ∘ digit) b width n := by
  induction width generalizing n with
  | zero => rfl
  | succ width ih => simp [fixedWidth, ih]

/-- Of two words of one length the order is decided where they differ, whatever follows. -/
theorem append_lt_append [LT α] {xs ys : List α} (hlt : xs < ys) (hlength : xs.length = ys.length) (s t : List α) :
    xs ++ s < ys ++ t := by
  induction xs generalizing ys with
  | nil =>
    obtain rfl := List.length_eq_zero_iff.mp hlength.symm
    exact absurd hlt (List.not_lt_nil _)
  | cons x xs ih =>
    cases ys with
    | nil => exact absurd hlt (List.not_lt_nil _)
    | cons y ys =>
      rw [List.cons_append, List.cons_append, List.cons_lt_cons_iff]
      rcases List.cons_lt_cons_iff.mp hlt with hhead | ⟨hhead, htail⟩
      · exact .inl hhead
      · exact .inr ⟨hhead, ih htail (Nat.succ.inj hlength)⟩

/-- **The lexicographic order of numerals of one width is that of the numbers.** -/
theorem fixedWidth_strictMonoOn [LinearOrder α] {digit : ℕ → α} {b : ℕ} (hdigit : StrictMonoOn digit (Set.Iio b))
    (hb : 0 < b) (width : ℕ) : StrictMonoOn (fixedWidth digit b width) (Set.Iio (b ^ width)) := by
  induction width with
  | zero =>
    intro m hm n hn hlt
    simp only [Nat.pow_zero, Set.mem_Iio] at hm hn
    omega
  | succ width ih =>
    intro m hm n hn hlt
    rw [Set.mem_Iio, Nat.pow_succ, ← Nat.div_lt_iff_lt_mul hb] at hm hn
    rw [fixedWidth, fixedWidth]
    rcases Nat.lt_or_eq_of_le (Nat.div_le_div_right (c := b) hlt.le) with hhigh | hhigh
    · apply append_lt_append (ih hm hn hhigh)
      rw [length_fixedWidth, length_fixedWidth]
    · -- the higher digits agree, so the last one decides
      have hlast : m % b < n % b := by
        have hm' := Nat.div_add_mod m b
        have hn' := Nat.div_add_mod n b
        rw [hhigh] at hm'
        omega
      rw [hhigh]
      apply List.append_left_lt
      rw [List.cons_lt_cons_iff]
      exact .inl (hdigit (Nat.mod_lt _ hb) (Nat.mod_lt _ hb) hlast)

/-- A numeral without leading zeros, filled up with them. -/
theorem fill_toDigits {b : ℕ} (hb : 1 < b) {width n : ℕ} (hwidth : 0 < width) (hn : n < b ^ width) :
    List.replicate (width - (Nat.toDigits b n).length) '0' ++ Nat.toDigits b n =
      fixedWidth Nat.digitChar b width n := by
  induction width generalizing n with
  | zero => omega
  | succ width ih =>
    rw [fixedWidth]
    by_cases hsmall : n < b
    · rw [Nat.toDigits_of_lt_base hsmall, Nat.div_eq_of_lt hsmall, Nat.mod_eq_of_lt hsmall, fixedWidth_zero]
      rfl
    · have hle : b ≤ n := by omega
      have hdiv : n / b < b ^ width := by
        rwa [Nat.div_lt_iff_lt_mul (by omega), ← Nat.pow_succ]
      have hpos : 0 < width := by
        have hquot : 0 < n / b := Nat.div_pos hle (by omega)
        rcases Nat.eq_zero_or_pos width with rfl | hpos
        · rw [Nat.pow_zero] at hdiv
          omega
        · exact hpos
      rw [Nat.toDigits_of_base_le hb hle, List.length_append, List.length_singleton, Nat.add_sub_add_right,
        ← List.append_assoc, ih hpos hdiv]

end Numerals

end CosUserspace
