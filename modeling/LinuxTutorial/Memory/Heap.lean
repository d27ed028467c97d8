import Mathlib.Data.List.Basic

/-!
# A heap of initialised and uninitialised cells

`malloc` gives out a new cell without a value, `load` succeeds on a cell that has been stored to.
-/

namespace Memory

universe u

/-- The cells in the order of their allocation. A cell holds no value until the first store. -/
structure Heap (Value : Type u) where
  cells : List (Option Value)
  deriving DecidableEq, Repr

namespace Heap

variable {Value : Type u} {heap : Heap Value} {p q : ℕ} {v : Value}

def empty : Heap Value := ⟨[]⟩

/-- A pointer to a new cell, and the heap with it. -/
def malloc (heap : Heap Value) : ℕ × Heap Value :=
  (heap.cells.length, ⟨heap.cells ++ [none]⟩)

def store (heap : Heap Value) (p : ℕ) (v : Value) : Heap Value :=
  ⟨heap.cells.set p (some v)⟩

def load (heap : Heap Value) (p : ℕ) : Option Value := heap.cells[p]?.join

/-- The pointer has been given out by `malloc`. -/
def Allocated (heap : Heap Value) (p : ℕ) : Prop := p < heap.cells.length

theorem allocated_malloc : heap.malloc.2.Allocated heap.malloc.1 := by
  simp [Allocated, malloc]

theorem Allocated.malloc (h : heap.Allocated p) : heap.malloc.2.Allocated p := by
  simp only [Allocated, Heap.malloc, List.length_append] at h ⊢
  omega

theorem Allocated.ne_malloc (h : heap.Allocated p) : p ≠ heap.malloc.1 := Nat.ne_of_lt h

@[simp] theorem allocated_store : (heap.store p v).Allocated q ↔ heap.Allocated q := by
  simp [Allocated, store]

theorem load_malloc (h : heap.Allocated p) : heap.malloc.2.load p = heap.load p := by
  rw [load, load, malloc, List.getElem?_append_left h]

theorem load_store_self (h : heap.Allocated p) : (heap.store p v).load p = some v := by
  rw [load, store, List.getElem?_set_self h]
  rfl

theorem load_store_of_ne (h : q ≠ p) : (heap.store p v).load q = heap.load q := by
  rw [load, load, store, List.getElem?_set_ne h.symm]

end Heap

end Memory
