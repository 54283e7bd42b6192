import Mathlib.Algebra.Order.Ring.Nat
import Mathlib.Data.List.Sort

/-!
# Nearest ranks

The nearest rank of the share `num / den` in a list is the least of its values that at least this share of the list is less than or equal to. The values of a sorted list up to a given one are a prefix, so in a sorted list the nearest rank stands at a known index, and it is the only value there is.
-/

namespace CosUserspace

variable {α : Type*} [LinearOrder α] {num den i : Nat} {l l' : List α} {x y : α}

structure IsNearestRank (num den : Nat) (l : List α) (x : α) : Prop where
  mem : x ∈ l
  share : num * l.length ≤ den * l.countP (· ≤ x)
  least : ∀ y ∈ l, num * l.length ≤ den * l.countP (· ≤ y) → x ≤ y

/-- In a sorted list the values up to `y` come first. -/
theorem lt_countP_iff (hsorted : l.Pairwise (· ≤ ·)) (hi : i < l.length) : i < l.countP (· ≤ y) ↔ l[i] ≤ y := by
  induction l generalizing i with
  | nil => exact absurd hi (Nat.not_lt_zero i)
  | cons a l ih =>
    obtain ⟨hfirst, hrest⟩ := List.pairwise_cons.mp hsorted
    by_cases ha : a ≤ y
    · rw [List.countP_cons_of_pos (by simpa using ha)]
      cases i with
      | zero => simpa using ha
      | succ i =>
        rw [Nat.succ_lt_succ_iff, List.getElem_cons_succ]
        exact ih hrest (Nat.lt_of_succ_lt_succ hi)
    · -- every later value is above `y` as well
      have hnone : l.countP (· ≤ y) = 0 := by
        rw [List.countP_eq_zero]
        intro b hb
        have hgt : y < b := (not_le.mp ha).trans_le (hfirst b hb)
        simpa using hgt
      rw [List.countP_cons_of_neg (by simpa using ha), hnone]
      have hle : a ≤ (a :: l)[i] := by
        cases i with
        | zero => exact le_refl a
        | succ i => exact hfirst _ (List.getElem_mem (Nat.lt_of_succ_lt_succ hi))
      exact ⟨fun hlt => absurd hlt (Nat.not_lt_zero i), fun hy => absurd (hle.trans hy) ha⟩

instance : Decidable (IsNearestRank num den l x) :=
  decidable_of_iff (x ∈ l ∧ num * l.length ≤ den * l.countP (· ≤ x) ∧
      ∀ y ∈ l, num * l.length ≤ den * l.countP (· ≤ y) → x ≤ y)
    ⟨fun h => ⟨h.1, h.2.1, h.2.2⟩, fun h => ⟨h.mem, h.share, h.least⟩⟩

theorem isNearestRank_getElem (hsorted : l.Pairwise (· ≤ ·)) (hi : i < l.length)
    (hbelow : den * i < num * l.length) (hreach : num * l.length ≤ den * (i + 1)) : IsNearestRank num den l l[i] where
  mem := List.getElem_mem hi
  share := by
    have hcount : i + 1 ≤ l.countP (· ≤ l[i]) := (lt_countP_iff hsorted hi).mpr (le_refl _)
    exact hreach.trans (Nat.mul_le_mul_left den hcount)
  least y _ hy := by
    apply (lt_countP_iff hsorted hi).mp
    exact lt_of_mul_lt_mul_left (hbelow.trans_le hy) (Nat.zero_le den)

/-- The nearest rank of all but one part in `d`. -/
theorem isNearestRank_allButOne {d : Nat} (hd : 0 < d) (hsorted : l.Pairwise (· ≤ ·)) (hlt : i < l.length)
    (hi : i + 1 + l.length / d = l.length) : IsNearestRank (d - 1) d l l[i] := by
  have hdiv := Nat.div_add_mod l.length d
  have hmod : l.length % d < d := Nat.mod_lt _ hd
  have hsplit : d * i + d + d * (l.length / d) = d * l.length := by
    rw [← Nat.mul_succ, ← Nat.mul_add, hi]
  have hparts : (d - 1) * l.length + l.length = d * l.length := by
    rw [← Nat.succ_mul, Nat.succ_eq_add_one, Nat.sub_add_cancel hd]
  apply isNearestRank_getElem hsorted hlt
  · omega
  · rw [Nat.mul_succ]
    omega

namespace IsNearestRank

theorem unique (hx : IsNearestRank num den l x) (hy : IsNearestRank num den l y) : x = y :=
  le_antisymm (hx.least y hy.mem hy.share) (hy.least x hx.mem hx.share)

theorem perm (hx : IsNearestRank num den l x) (hperm : l.Perm l') : IsNearestRank num den l' x where
  mem := hperm.mem_iff.mp hx.mem
  share := by
    rw [← hperm.length_eq, ← hperm.countP_eq]
    exact hx.share
  least y hy hshare := by
    rw [← hperm.length_eq, ← hperm.countP_eq] at hshare
    exact hx.least y (hperm.mem_iff.mpr hy) hshare

/-- A share in other words. -/
theorem scale {c : Nat} (hc : 0 < c) : IsNearestRank (c * num) (c * den) l x ↔ IsNearestRank num den l x := by
  have hsame : ∀ y, c * num * l.length ≤ c * den * l.countP (· ≤ y) ↔ num * l.length ≤ den * l.countP (· ≤ y) := by
    intro y
    rw [Nat.mul_assoc, Nat.mul_assoc]
    exact Nat.mul_le_mul_left_iff hc
  constructor
  · intro hx
    exact ⟨hx.mem, (hsame x).mp hx.share, fun y hy h => hx.least y hy ((hsame y).mpr h)⟩
  · intro hx
    exact ⟨hx.mem, (hsame x).mpr hx.share, fun y hy h => hx.least y hy ((hsame y).mp h)⟩

end IsNearestRank

end CosUserspace
