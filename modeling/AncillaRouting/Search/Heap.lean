/-!
# Binary heaps

A heap is an array whose item at `i` has its children at `2 * i + 1` and `2 * i + 2`. The order is
a parameter of the operations; where it leaves two items unordered, the layout decides which of
them leaves first, so the layout is part of what a caller sees. Taking the first item out moves the
last one to the root, lets it sink to a leaf, and only then rise to its place.
-/

namespace AncillaRouting

structure Heap (α : Type) where
  items : Array α

namespace Heap

variable {α : Type}

def empty : Heap α := ⟨#[]⟩

def size (h : Heap α) : Nat := h.items.size

/-- The item at `i` changes places with its parent as long as it goes before it. -/
def rise (before : α → α → Bool) (a : Array α) (i : Nat) (hi : i < a.size) : Array α :=
  if h0 : i = 0 then a
  else
    have hp : (i - 1) / 2 < a.size := by omega
    if before a[i] a[(i - 1) / 2] then
      rise before (a.swap i ((i - 1) / 2) hi hp) ((i - 1) / 2) (by simpa using hp)
    else a
termination_by i

/-- The item at `i` changes places with the child that goes first (the right one unless the left
one goes before it) until it is a leaf. There it turns round and rises. -/
def sink (before : α → α → Bool) (a : Array α) (i : Nat) (hi : i < a.size) : Array α :=
  if hr : 2 * i + 2 < a.size then
    if before a[2 * i + 1] a[2 * i + 2] then
      sink before (a.swap i (2 * i + 1) hi (by omega)) (2 * i + 1) (by simp; omega)
    else sink before (a.swap i (2 * i + 2) hi hr) (2 * i + 2) (by simp; omega)
  else if hl : 2 * i + 1 < a.size then
    rise before (a.swap i (2 * i + 1) hi hl) (2 * i + 1) (by simp; omega)
  else rise before a i hi
termination_by a.size - i
decreasing_by all_goals (simp; omega)

def push (before : α → α → Bool) (h : Heap α) (x : α) : Heap α :=
  let last := h.items.size
  ⟨rise before (h.items.push x) last (by simp [last])⟩

/-- The item at the root, and the heap of the others. -/
def pop? (before : α → α → Bool) (h : Heap α) : Option (α × Heap α) :=
  match h.items.back? with
  | none => none
  | some last =>
    let rest := h.items.pop
    if hr : 0 < rest.size then
      some (rest[0], ⟨sink before (rest.set 0 last hr) 0 (by simpa using hr)⟩)
    else some (last, ⟨rest⟩)

/-! ## Sizes -/

@[simp] theorem size_rise (before : α → α → Bool) (a : Array α) (i : Nat) (hi : i < a.size) :
    (rise before a i hi).size = a.size := by
  fun_induction rise with
  | case1 => rfl
  | case2 a i hi h0 hp hb ih => simpa using ih
  | case3 => rfl

@[simp] theorem size_sink (before : α → α → Bool) (a : Array α) (i : Nat) (hi : i < a.size) :
    (sink before a i hi).size = a.size := by
  fun_induction sink with
  | case1 a i hi hr hb ih => simpa using ih
  | case2 a i hi hr hb ih => simpa using ih
  | case3 a i hi hr hl => simp
  | case4 a i hi hr hl => simp

@[simp] theorem size_empty : (empty : Heap α).size = 0 := rfl

@[simp] theorem size_push (before : α → α → Bool) (h : Heap α) (x : α) :
    (h.push before x).size = h.size + 1 := by
  simp [push, size]

theorem size_of_pop?_eq_some {before : α → α → Bool} {h rest : Heap α} {x : α}
    (hp : h.pop? before = some (x, rest)) : rest.size + 1 = h.size := by
  unfold pop? at hp
  split at hp
  · cases hp
  · next last hl =>
    have hpos : 0 < h.items.size := by
      cases hs : h.items.size with
      | zero => simp [Array.back?, hs] at hl
      | succ n => omega
    simp only at hp
    split at hp <;> simp only [Option.some.injEq, Prod.mk.injEq] at hp <;> obtain ⟨-, rfl⟩ := hp <;>
      simp [size] <;> omega

end Heap

end AncillaRouting
