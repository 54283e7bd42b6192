import Mathlib.Algebra.Ring.Nat
import Mathlib.Data.List.Basic
import Mathlib.Logic.Function.Basic

/-!
# Rings addressed by free-running counters

A ring is a table of slots and a function from counters to slots. The writer has published the messages `0, …, length - 1`, the reader has taken the first `taken` of them, and the ring is sound when the slot of every message in between still holds it. Nothing is assumed about the slot function: a write is harmless exactly when its slot is the slot of no message that waits.
-/

namespace CosUserspace

variable {ι μ : Type*}

/-- The slot of every published message that the reader has not taken holds that message. -/
structure RingHolds (slot : Nat → ι) (data : ι → μ) (published : List μ) (taken : Nat) : Prop where
  taken_le : taken ≤ published.length
  waiting : ∀ n (hn : n < published.length), taken ≤ n → data (slot n) = published[n]

/-- No waiting message lies in the slot of the next counter. -/
def SlotFree (slot : Nat → ι) (published taken : Nat) : Prop :=
  ∀ n, taken ≤ n → n < published → slot n ≠ slot published

namespace RingHolds

variable {slot : Nat → ι} {data : ι → μ} {published : List μ} {taken : Nat}

theorem empty : RingHolds slot data ([] : List μ) 0 :=
  ⟨Nat.le_refl 0, fun n hn => absurd hn (Nat.not_lt_zero n)⟩

theorem write [DecidableEq ι] (hring : RingHolds slot data published taken)
    (hfree : SlotFree slot published.length taken) (m : μ) :
    RingHolds slot (Function.update data (slot published.length) m) published taken := by
  refine ⟨hring.taken_le, fun n hn htaken => ?_⟩
  rw [Function.update_of_ne (hfree n htaken hn)]
  exact hring.waiting n hn htaken

theorem publish {m : μ} (hring : RingHolds slot data published taken)
    (hslot : data (slot published.length) = m) : RingHolds slot data (published ++ [m]) taken := by
  refine ⟨?_, fun n hn htaken => ?_⟩
  · rw [List.length_append]
    exact Nat.le_add_right_of_le hring.taken_le
  · by_cases hold : n < published.length
    · rw [List.getElem_append_left hold]
      exact hring.waiting n hold htaken
    · have hlast : n = published.length := by
        rw [List.length_append, List.length_singleton] at hn
        omega
      subst hlast
      simpa using hslot

theorem take (hring : RingHolds slot data published taken) (hmore : taken < published.length) :
    RingHolds slot data published (taken + 1) :=
  ⟨hmore, fun n hn htaken => hring.waiting n hn (Nat.le_of_succ_le htaken)⟩

theorem next (hring : RingHolds slot data published taken) (hmore : taken < published.length) :
    data (slot taken) = published[taken] :=
  hring.waiting taken hmore (Nat.le_refl taken)

end RingHolds

/-- The reader that has taken a prefix and takes the next message has taken a prefix. -/
theorem take_concat_prefix {published : List μ} {consumed : List μ} {m : μ}
    (hpre : consumed <+: published) (hmore : consumed.length < published.length)
    (hnext : published[consumed.length] = m) : consumed ++ [m] <+: published := by
  obtain ⟨rest, rfl⟩ := hpre
  cases rest with
  | nil => simp at hmore
  | cons head rest =>
    have hhead : head = m := by simpa using hnext
    exact ⟨rest, by simp [hhead]⟩

end CosUserspace
