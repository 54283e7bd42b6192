import Mathlib.Logic.Function.Basic

/-!
# Buffers with checked access

A C++ array or vector as its allocated cells. `size` is what `size()` reports and `capacity` how many cells are allocated: `reserve` allocates cells and leaves the size at zero, an array has as many elements as cells. An index outside the allocated cells has no cell to read or write.
-/

namespace CosUserspace

structure Buffer (α : Type) where
  size : Nat
  capacity : Nat
  cell : Nat → α

namespace Buffer

variable {α : Type}

def array (n : Nat) (a : α) : Buffer α := ⟨n, n, fun _ => a⟩

/-- `reserve(n)` on an empty vector: `n` cells with whatever content, no element. -/
def reserve (n : Nat) (junk : α) : Buffer α := ⟨0, n, fun _ => junk⟩

def InBounds (b : Buffer α) (i : Int) : Prop := 0 ≤ i ∧ i < b.capacity

instance (b : Buffer α) (i : Int) : Decidable (b.InBounds i) :=
  inferInstanceAs (Decidable (_ ∧ _))

def read (b : Buffer α) (i : Int) : Option α :=
  if b.InBounds i then some (b.cell i.toNat) else none

def set (b : Buffer α) (i : Nat) (a : α) : Buffer α :=
  { b with cell := Function.update b.cell i a }

def modify (b : Buffer α) (i : Int) (f : α → α) : Option (Buffer α) :=
  if b.InBounds i then some (b.set i.toNat (f (b.cell i.toNat))) else none

@[simp] theorem set_capacity (b : Buffer α) (i : Nat) (a : α) : (b.set i a).capacity = b.capacity := rfl

@[simp] theorem set_size (b : Buffer α) (i : Nat) (a : α) : (b.set i a).size = b.size := rfl

theorem set_cell (b : Buffer α) (i : Nat) (a : α) (j : Nat) :
    (b.set i a).cell j = if j = i then a else b.cell j :=
  Function.update_apply ..

@[simp] theorem set_cell_self (b : Buffer α) (i : Nat) (a : α) : (b.set i a).cell i = a :=
  Function.update_self ..

theorem set_cell_of_ne {b : Buffer α} {i j : Nat} (a : α) (hne : j ≠ i) :
    (b.set i a).cell j = b.cell j :=
  Function.update_of_ne hne ..

@[ext] theorem ext {b c : Buffer α} (hsize : b.size = c.size) (hcapacity : b.capacity = c.capacity)
    (hcell : ∀ i, b.cell i = c.cell i) : b = c := by
  cases b
  cases c
  simp only [mk.injEq]
  exact ⟨hsize, hcapacity, funext hcell⟩

@[simp] theorem inBounds_natCast (b : Buffer α) (i : Nat) : b.InBounds i ↔ i < b.capacity := by
  simp [InBounds]

theorem read_natCast {b : Buffer α} {i : Nat} (hi : i < b.capacity) : b.read i = some (b.cell i) := by
  simp [read, hi]

theorem modify_natCast {b : Buffer α} {i : Nat} (f : α → α) (hi : i < b.capacity) :
    b.modify i f = some (b.set i (f (b.cell i))) := by
  simp [modify, hi]

theorem lt_of_modify {b c : Buffer α} {i : Nat} {f : α → α} (hsome : b.modify i f = some c) :
    i < b.capacity := by
  by_contra hi
  simp [modify, hi] at hsome

theorem read_eq_some {b : Buffer α} {i : Int} {a : α} :
    b.read i = some a ↔ b.InBounds i ∧ b.cell i.toNat = a := by
  simp [read]

/-- Assigning `a` to the cells `0, …, n - 1` one after the other. -/
def fill (b : Buffer α) (a : α) : Nat → Buffer α
  | 0 => b
  | n + 1 => (b.fill a n).set n a

@[simp] theorem fill_capacity (b : Buffer α) (a : α) (n : Nat) : (b.fill a n).capacity = b.capacity := by
  induction n with
  | zero => rfl
  | succ n ih => simpa [fill] using ih

/-- Writing the cells does not make them elements. -/
@[simp] theorem fill_size (b : Buffer α) (a : α) (n : Nat) : (b.fill a n).size = b.size := by
  induction n with
  | zero => rfl
  | succ n ih => simpa [fill] using ih

theorem fill_cell (b : Buffer α) (a : α) {n i : Nat} (hi : i < n) : (b.fill a n).cell i = a := by
  induction n with
  | zero => exact absurd hi (Nat.not_lt_zero i)
  | succ n ih =>
    rw [fill, set_cell]
    split
    · rfl
    · exact ih (by omega)

end Buffer

end CosUserspace
