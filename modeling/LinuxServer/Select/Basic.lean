import LinuxServer.Memory.Store
import Mathlib.Data.Finset.Card
import Mathlib.Data.Int.Order.Basic

/-!
# Sets of descriptors, and `select`

`select` waits until one of the descriptors of a set is ready, or the time is over.

* `readyAt`, `wakeTime`, `firstReady`: what is ready of a set at a time, the first time at which
  something is, and what it is.
* `fdZero`, `fdSet`, `fdIsSet`: the operations on an `fd_set`.
* `select`: the call, with the set that is watched for writing.

`mem_firstReady`: a descriptor is returned when none of the set is ready before it.
-/

namespace LinuxServer

namespace Select

open Memory

/-! ### Waiting -/

section Waiting

variable {α : Type*} (ready : α → ℕ → Bool) (watched : Finset α)

/-- What is ready at a time. -/
def readyAt (t : ℕ) : Finset α := {fd ∈ watched | ready fd t}

/-- The first time, up to the timeout, at which something is ready. -/
def wakeTime (timeout : ℕ) : Option ℕ :=
  (List.range (timeout + 1)).find? fun t => (readyAt ready watched t).Nonempty

/-- What is ready then; nothing when the time is over. -/
def firstReady (timeout : ℕ) : Finset α :=
  (wakeTime ready watched timeout).elim ∅ (readyAt ready watched)

variable {ready watched} {timeout t₀ t : ℕ} {fd : α}

theorem mem_readyAt : fd ∈ readyAt ready watched t ↔ fd ∈ watched ∧ ready fd t := Finset.mem_filter

theorem not_nonempty_readyAt :
    ¬ (readyAt ready watched t).Nonempty ↔ ∀ fd ∈ watched, ready fd t = false := by
  rw [Finset.not_nonempty_iff_eq_empty, readyAt, Finset.filter_eq_empty_iff]
  exact forall₂_congr fun _ _ => Bool.eq_false_iff.symm

theorem wakeTime_eq_some : wakeTime ready watched timeout = some t ↔
    t ≤ timeout ∧ (readyAt ready watched t).Nonempty ∧
      ∀ t' < t, ∀ fd ∈ watched, ready fd t' = false := by
  simp only [wakeTime, List.find?_range_eq_some, List.mem_range, decide_eq_true_eq, Nat.lt_succ_iff,
    Bool.not_eq_true', decide_eq_false_iff_not, not_nonempty_readyAt]
  exact and_left_comm

/-- A descriptor is returned when none of the set is ready before it. -/
theorem mem_firstReady : fd ∈ firstReady ready watched timeout ↔
    fd ∈ watched ∧ ∃ t ≤ timeout, ready fd t ∧ ∀ t' < t, ∀ fd' ∈ watched, ready fd' t' = false := by
  constructor
  · intro hfd
    cases ht : wakeTime ready watched timeout with
    | none =>
      rw [firstReady, ht] at hfd
      exact absurd hfd (Finset.notMem_empty fd)
    | some t =>
      rw [firstReady, ht] at hfd
      obtain ⟨hle, -, hbefore⟩ := wakeTime_eq_some.1 ht
      obtain ⟨hwatched, hready⟩ := mem_readyAt.1 hfd
      exact ⟨hwatched, t, hle, hready, hbefore⟩
  · rintro ⟨hwatched, t, hle, hready, hbefore⟩
    have hmem : fd ∈ readyAt ready watched t := mem_readyAt.2 ⟨hwatched, hready⟩
    rw [firstReady, wakeTime_eq_some.2 ⟨hle, ⟨fd, hmem⟩, hbefore⟩]
    exact hmem

theorem mem_firstReady_of_from (hwatched : fd ∈ watched) (hfrom : ∀ t, ready fd t ↔ t₀ ≤ t) :
    fd ∈ firstReady ready watched timeout ↔
      t₀ ≤ timeout ∧ ∀ t < t₀, ∀ fd' ∈ watched, ready fd' t = false := by
  rw [mem_firstReady, and_iff_right hwatched]
  constructor
  · rintro ⟨t, hle, hready, hbefore⟩
    have ht := (hfrom t).1 hready
    exact ⟨ht.trans hle, fun t' ht' => hbefore t' (ht'.trans_le ht)⟩
  · rintro ⟨hle, hbefore⟩
    exact ⟨t₀, hle, (hfrom t₀).2 le_rfl, hbefore⟩

theorem notMem_firstReady (hnever : ∀ t, ready fd t = false) :
    fd ∉ firstReady ready watched timeout := by
  rw [mem_firstReady]
  rintro ⟨-, t, -, hready, -⟩
  rw [hnever t] at hready
  cases hready

end Waiting

/-! ### `fd_set` -/

/-- `FD_SETSIZE` -/
def fdSetSize : ℕ := 1024

/-- `fd_set` -/
abbrev FdSet := Finset (Fin fdSetSize)

/-- `FD_ZERO` -/
def fdZero : FdSet := ∅

/-- `FD_SET` -/
def fdSet (fd : ℕ) (fds : FdSet) : Except Fault FdSet :=
  if h : fd < fdSetSize then .ok (insert ⟨fd, h⟩ fds) else .error (.outOfBounds fd)

/-- `FD_ISSET` -/
def fdIsSet (fd : ℕ) (fds : FdSet) : Except Fault Bool :=
  if h : fd < fdSetSize then .ok (⟨fd, h⟩ ∈ fds) else .error (.outOfBounds fd)

/-- `select`, with the descriptors below `nfds` of one set, and the microseconds to wait.  What is
returned is the number of the descriptors that are ready, and the set of them. -/
def select (ready : Fin fdSetSize → ℕ → Bool) (nfds : ℕ) (fds : FdSet) (timeout : ℤ) : ℤ × FdSet :=
  if timeout < 0 then (-1, fds)
  else
    let found := firstReady ready {fd ∈ fds | fd.val < nfds} timeout.toNat
    (found.card, found)

variable {ready : Fin fdSetSize → ℕ → Bool} {nfds : ℕ} {fds : FdSet} {timeout : ℤ}

theorem select_of_neg (h : timeout < 0) : select ready nfds fds timeout = (-1, fds) := if_pos h

theorem select_of_nonneg (h : 0 ≤ timeout) : select ready nfds fds timeout =
    (((firstReady ready {fd ∈ fds | fd.val < nfds} timeout.toNat).card : ℤ),
      firstReady ready {fd ∈ fds | fd.val < nfds} timeout.toNat) :=
  if_neg (not_lt.2 h)

end Select

end LinuxServer
