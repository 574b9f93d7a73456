import Mathlib.Data.Nat.Notation
import Mathlib.Data.List.Basic
import Mathlib.Order.Nat

/-!
# Stores of objects

The objects of one class that a program has allocated, with the faults of a program that follows
a pointer it must not follow.

* `Addr`, `Ptr`: the identity of an object and a pointer to one.
* `Store ν`: the objects of class `ν`, with `alloc`, `read`, `modify` and `free`.
* `load`, `store`: the slots of an array.

An identity is given out once: a pointer to a freed object is never mistaken for a pointer to an
object allocated later.
-/

namespace LinuxServer

namespace Memory

/-- The identity of an allocated object. -/
abbrev Addr := ℕ

/-- A pointer; `none` is the null pointer. -/
abbrev Ptr := Option Addr

/-- The access that stops a program. -/
inductive Fault where
  /-- The null pointer is followed. -/
  | nullPointer
  /-- A pointer to an object that is freed, or was never allocated, is followed or freed. -/
  | dangling (p : Addr)
  /-- A slot outside the array is read or written. -/
  | outOfBounds (i : ℕ)
  deriving DecidableEq, Repr

universe u v

variable {ε : Type u} {α β : Type v}

@[simp] theorem ok_bind (a : α) (f : α → Except ε β) : (Except.ok a >>= f) = f a := rfl

@[simp] theorem error_bind (e : ε) (f : α → Except ε β) :
    ((Except.error e : Except ε α) >>= f) = .error e := rfl

@[simp] theorem pure_eq_ok (a : α) : (pure a : Except ε α) = .ok a := rfl

/-- A sequence of computations succeeds when each of them does. -/
theorem bind_eq_ok {x : Except ε α} {f : α → Except ε β} {b : β} :
    x >>= f = .ok b ↔ ∃ a, x = .ok a ∧ f a = .ok b := by
  cases x with
  | error e => simp
  | ok a => simp

/-! ### Stores -/

/-- The objects of class `ν`: the cell of an address holds nothing once the object is freed. -/
structure Store (ν : Type*) where
  cells : List (Option ν)
  /-- The addresses freed so far, in order. -/
  freed : List Addr
  deriving DecidableEq, Repr

namespace Store

variable {ν : Type*} {m m' : Store ν} {p q : Addr} {v w : ν}

/-- No object. -/
def empty : Store ν := ⟨[], []⟩

/-- The address the next object gets. -/
def fresh (m : Store ν) : Addr := m.cells.length

/-- The object at an address. -/
def get? (m : Store ν) (p : Addr) : Option ν := m.cells[p]?.join

/-- There is an object at the address. -/
def Live (m : Store ν) (p : Addr) : Prop := (m.get? p).isSome

instance (m : Store ν) (p : Addr) : Decidable (m.Live p) :=
  inferInstanceAs (Decidable ((m.get? p).isSome = true))

/-- `new`, of an object `v` -/
def alloc (m : Store ν) (v : ν) : Store ν := { m with cells := m.cells ++ [some v] }

/-- The object at `p` becomes `v`. -/
def set (m : Store ν) (p : Addr) (v : ν) : Store ν := { m with cells := m.cells.set p (some v) }

/-- The object at `p` is gone. -/
def erase (m : Store ν) (p : Addr) : Store ν := ⟨m.cells.set p none, m.freed ++ [p]⟩

/-- The object a pointer points to. -/
def read (m : Store ν) : Ptr → Except Fault ν
  | none => .error .nullPointer
  | some p => match m.get? p with
    | none => .error (.dangling p)
    | some v => .ok v

/-- An assignment through a pointer. -/
def modify (m : Store ν) (p : Ptr) (f : ν → ν) : Except Fault (Store ν) :=
  match p with
  | none => .error .nullPointer
  | some p => match m.get? p with
    | none => .error (.dangling p)
    | some v => .ok (m.set p (f v))

/-- `delete`; deleting the null pointer does nothing. -/
def free (m : Store ν) : Ptr → Except Fault (Store ν)
  | none => .ok m
  | some p => match m.get? p with
    | none => .error (.dangling p)
    | some _ => .ok (m.erase p)

theorem lt_fresh (h : m.get? p = some v) : p < m.fresh := by
  by_contra hp
  rw [get?, List.getElem?_eq_none (Nat.le_of_not_lt hp)] at h
  cases h

theorem Live.exists_get? (h : m.Live p) : ∃ v, m.get? p = some v := Option.isSome_iff_exists.1 h

theorem live_of_get? (h : m.get? p = some v) : m.Live p := Option.isSome_iff_exists.2 ⟨v, h⟩

theorem Live.lt_fresh (h : m.Live p) : p < m.fresh := by
  obtain ⟨v, hv⟩ := h.exists_get?
  exact Store.lt_fresh hv

@[simp] theorem get?_empty : (empty : Store ν).get? p = none := rfl

@[simp] theorem fresh_alloc : (m.alloc v).fresh = m.fresh + 1 := List.length_append

@[simp] theorem fresh_set : (m.set p v).fresh = m.fresh := List.length_set

@[simp] theorem fresh_erase : (m.erase p).fresh = m.fresh := List.length_set

@[simp] theorem freed_alloc : (m.alloc v).freed = m.freed := rfl

@[simp] theorem freed_set : (m.set p v).freed = m.freed := rfl

@[simp] theorem freed_erase : (m.erase p).freed = m.freed ++ [p] := rfl

@[simp] theorem get?_alloc_fresh : (m.alloc v).get? m.fresh = some v := by
  simp [get?, alloc, fresh]

theorem get?_alloc_of_ne (h : q ≠ m.fresh) : (m.alloc v).get? q = m.get? q := by
  rcases Nat.lt_or_gt_of_ne h with hq | hq
  · rw [get?, alloc, List.getElem?_append_left hq, get?]
  · rw [get?, get?, List.getElem?_eq_none (Nat.le_of_lt hq), List.getElem?_eq_none]
    rw [alloc, List.length_append]
    exact hq

theorem get?_set_self (h : m.Live p) : (m.set p v).get? p = some v := by
  rw [get?, set, List.getElem?_set_self h.lt_fresh]
  rfl

theorem get?_set_of_ne (h : q ≠ p) : (m.set p v).get? q = m.get? q := by
  rw [get?, set, List.getElem?_set_ne h.symm, get?]

@[simp] theorem get?_erase_self : (m.erase p).get? p = none := by
  rw [get?, erase, List.getElem?_set]
  split
  · split <;> rfl
  · contradiction

theorem get?_erase_of_ne (h : q ≠ p) : (m.erase p).get? q = m.get? q := by
  rw [get?, erase, List.getElem?_set_ne h.symm, get?]

theorem live_erase_of_ne (h : q ≠ p) : (m.erase p).Live q ↔ m.Live q := by
  rw [Live, Live, get?_erase_of_ne h]

theorem read_eq_ok {p : Ptr} : m.read p = .ok v ↔ ∃ a, p = some a ∧ m.get? a = some v := by
  cases p with
  | none => simp [read]
  | some a => cases h : m.get? a <;> simp [read, h]

theorem modify_eq_ok {p : Ptr} {f : ν → ν} : m.modify p f = .ok m' ↔
    ∃ a v, p = some a ∧ m.get? a = some v ∧ m' = m.set a (f v) := by
  cases p with
  | none => simp [modify]
  | some a => cases h : m.get? a <;> simp [modify, h, eq_comm]

/-- No object is allocated or freed on the way from `m` to `m'`. -/
structure Keeps (m m' : Store ν) : Prop where
  fresh : m'.fresh = m.fresh
  freed : m'.freed = m.freed

theorem Keeps.refl (m : Store ν) : m.Keeps m := ⟨rfl, rfl⟩

theorem Keeps.trans {m'' : Store ν} (h : m.Keeps m') (h' : m'.Keeps m'') : m.Keeps m'' :=
  ⟨h'.fresh.trans h.fresh, h'.freed.trans h.freed⟩

theorem keeps_set : m.Keeps (m.set p v) := ⟨fresh_set, freed_set⟩

theorem free_eq_ok {p : Ptr} : m.free p = .ok m' ↔
    (p = none ∧ m' = m) ∨ ∃ a, p = some a ∧ m.Live a ∧ m' = m.erase a := by
  cases p with
  | none => simp [free, eq_comm]
  | some a => cases h : m.get? a <;> simp [free, Live, h, eq_comm (a := m')]

theorem Live.free_eq (h : m.Live p) : m.free (some p) = .ok (m.erase p) :=
  free_eq_ok.2 (.inr ⟨p, rfl, h, rfl⟩)

end Store

/-! ### Arrays -/

/-- The slot `i` of an array. -/
def load (a : List α) (i : ℕ) : Except Fault α :=
  match a[i]? with
  | none => .error (.outOfBounds i)
  | some x => .ok x

/-- An assignment to the slot `i` of an array. -/
def store (a : List α) (i : ℕ) (x : α) : Except Fault (List α) :=
  if i < a.length then .ok (a.set i x) else .error (.outOfBounds i)

theorem load_eq_ok {a : List α} {i : ℕ} {x : α} : load a i = .ok x ↔ a[i]? = some x := by
  cases h : a[i]? <;> simp [load, h]

theorem store_eq_ok {a b : List α} {i : ℕ} {x : α} :
    store a i x = .ok b ↔ i < a.length ∧ b = a.set i x := by
  by_cases h : i < a.length <;> simp [store, h, eq_comm]

end Memory

end LinuxServer
