import Mathlib.Data.List.Sort
import Mathlib.Order.Lattice

/-!
# Sorted queues

A queue of things `α` in the order of their keys, as a list: the least key first and, among equal
keys, the one that came first.

* `Sorted key L`: the keys do not decrease.
* `enqueue key a L`: `a` enters behind all things with a key that is not greater; `enqueueAll`: the
  things of a list do so one after the other.

* `Splits key k L due rest`: `due` are the things of `L` with a key of `k` at most.

`Sorted.takeWhile_eq`, `Sorted.dropWhile_eq`: what is due is in front.
-/

namespace LinuxServer

namespace SortedQueue

variable {α κ : Type*} [LinearOrder κ] {key : α → κ} {a b : α} {D L S : List α}

/-- The keys do not decrease. -/
def Sorted (key : α → κ) (L : List α) : Prop := L.Pairwise fun a b => key a ≤ key b

/-- `a` enters behind all things with a key that is not greater. -/
def enqueue (key : α → κ) (a : α) (L : List α) : List α :=
  L.orderedInsert (fun a b => key a < key b) a

theorem enqueue_cons_of_lt (h : key a < key b) : enqueue key a (b :: L) = a :: b :: L := if_pos h

theorem enqueue_cons_of_le (h : key b ≤ key a) : enqueue key a (b :: L) = b :: enqueue key a L :=
  if_neg (not_lt.2 h)

theorem enqueue_append (h : ∀ b ∈ D, key b ≤ key a) :
    enqueue key a (D ++ S) = D ++ enqueue key a S := by
  induction D with
  | nil => rfl
  | cons b D ih =>
    rw [List.cons_append, enqueue_cons_of_le (h b List.mem_cons_self),
      ih fun c hc => h c (List.mem_cons_of_mem _ hc)]
    rfl

theorem enqueue_perm : (enqueue key a L).Perm (a :: L) := List.perm_orderedInsert _ a L

theorem mem_enqueue : b ∈ enqueue key a L ↔ b = a ∨ b ∈ L := List.mem_orderedInsert _

theorem Sorted.enqueue (h : Sorted key L) : Sorted key (enqueue key a L) := by
  induction L with
  | nil => exact List.pairwise_singleton _ _
  | cons b L ih =>
    obtain ⟨hb, hL⟩ := List.pairwise_cons.1 h
    rcases lt_or_ge (key a) (key b) with hab | hba
    · rw [enqueue_cons_of_lt hab]
      refine List.pairwise_cons.2 ⟨fun c hc => ?_, h⟩
      rcases List.mem_cons.1 hc with rfl | hc
      · exact hab.le
      · exact hab.le.trans (hb c hc)
    · rw [enqueue_cons_of_le hba]
      refine List.pairwise_cons.2 ⟨fun c hc => ?_, ih hL⟩
      rcases mem_enqueue.1 hc with rfl | hc
      · exact hba
      · exact hb c hc

/-- The things `as` enter one after the other. -/
def enqueueAll (key : α → κ) (as L : List α) : List α :=
  as.foldl (fun L a => SortedQueue.enqueue key a L) L

theorem enqueueAll_cons {as : List α} :
    enqueueAll key (a :: as) L = enqueueAll key as (SortedQueue.enqueue key a L) := rfl

theorem enqueueAll_perm {as : List α} : (enqueueAll key as L).Perm (as ++ L) := by
  induction as generalizing L with
  | nil => exact .refl _
  | cons a as ih => exact ih.trans ((enqueue_perm.append_left as).trans List.perm_middle)

theorem Sorted.enqueueAll {as : List α} (h : Sorted key L) :
    Sorted key (SortedQueue.enqueueAll key as L) := by
  induction as generalizing L with
  | nil => exact h
  | cons a as ih => exact ih h.enqueue

/-- What is in front of all that enters stays there. -/
theorem enqueueAll_behind {as : List α} (h : ∀ a ∈ as, key b ≤ key a) :
    enqueueAll key as (b :: L) = b :: enqueueAll key as L := by
  induction as generalizing L with
  | nil => rfl
  | cons a as ih =>
    rw [enqueueAll_cons, enqueueAll_cons, enqueue_cons_of_le (h a List.mem_cons_self),
      ih fun c hc => h c (List.mem_cons_of_mem _ hc)]

/-- A thing moved behind its place in the order of its new key is at its place iff nothing before
it has a greater key. -/
theorem Sorted.move_iff (h : Sorted key (D ++ b :: S)) :
    Sorted key (D ++ SortedQueue.enqueue key a S) ↔ ∀ c ∈ D, key c ≤ key a := by
  obtain ⟨hD, hbS, hcross⟩ := List.pairwise_append.1 h
  constructor
  · intro hmoved c hc
    exact (List.pairwise_append.1 hmoved).2.2 c hc a (mem_enqueue.2 (.inl rfl))
  · intro hle
    refine List.pairwise_append.2 ⟨hD, Sorted.enqueue (List.pairwise_cons.1 hbS).2, ?_⟩
    intro c hc e he
    rcases mem_enqueue.1 he with rfl | he
    · exact hle c hc
    · exact hcross c hc e (List.mem_cons_of_mem _ he)

/-- A thing whose key grows moves back. -/
theorem Sorted.move (h : Sorted key (D ++ b :: S)) (hab : key b ≤ key a) :
    Sorted key (D ++ SortedQueue.enqueue key a S) := by
  refine h.move_iff.2 fun c hc => ?_
  exact ((List.pairwise_append.1 h).2.2 c hc b List.mem_cons_self).trans hab

theorem Sorted.forall_le_iff (h : Sorted key (D ++ [b])) {k : κ} :
    (∀ c ∈ D ++ [b], key c ≤ k) ↔ key b ≤ k := by
  constructor
  · intro hall
    exact hall b (by simp)
  · intro hb c hc
    rcases List.mem_append.1 hc with hc | hc
    · exact ((List.pairwise_append.1 h).2.2 c hc b List.mem_cons_self).trans hb
    · rwa [List.mem_singleton.1 hc]

theorem Sorted.takeWhile_eq (h : Sorted key L) (k : κ) :
    (L.takeWhile fun a => key a ≤ k) = L.filter fun a => key a ≤ k := by
  induction L with
  | nil => rfl
  | cons b L ih =>
    obtain ⟨hb, hL⟩ := List.pairwise_cons.1 h
    by_cases hk : key b ≤ k
    · rw [List.takeWhile_cons_of_pos (by simpa using hk),
        List.filter_cons_of_pos (by simpa using hk), ih hL]
    · have hall : ∀ c ∈ b :: L, ¬ key c ≤ k := by
        rintro c (_ | ⟨_, hc⟩)
        · exact hk
        · exact fun hck => hk ((hb c hc).trans hck)
      rw [List.takeWhile_cons_of_neg (by simpa using hk), eq_comm, List.filter_eq_nil_iff]
      exact fun c hc => by simpa using hall c hc

theorem Sorted.dropWhile_eq (h : Sorted key L) (k : κ) :
    (L.dropWhile fun a => key a ≤ k) = L.filter fun a => k < key a := by
  induction L with
  | nil => rfl
  | cons b L ih =>
    obtain ⟨hb, hL⟩ := List.pairwise_cons.1 h
    by_cases hk : key b ≤ k
    · rw [List.dropWhile_cons_of_pos (by simpa using hk),
        List.filter_cons_of_neg (by simpa using hk), ih hL]
    · have hall : ∀ c ∈ b :: L, k < key c := by
        rintro c (_ | ⟨_, hc⟩)
        · exact not_le.1 hk
        · exact (not_le.1 hk).trans_le (hb c hc)
      rw [List.dropWhile_cons_of_neg (by simpa using hk), eq_comm, List.filter_eq_self]
      exact fun c hc => by simpa using hall c hc

/-- What is due of `L` is `due`, and the rest is `rest`. -/
structure Splits (key : α → κ) (k : κ) (L due rest : List α) : Prop where
  perm : (due ++ rest).Perm L
  due : ∀ a ∈ due, key a ≤ k
  later : ∀ a ∈ rest, k < key a

theorem Splits.due_perm {k : κ} {due rest : List α} (h : Splits key k L due rest) :
    due.Perm (L.filter fun a => key a ≤ k) := by
  have hperm := h.perm.filter fun a => decide (key a ≤ k)
  rwa [List.filter_append, List.filter_eq_self.2 fun a ha => decide_eq_true (h.due a ha),
    List.filter_eq_nil_iff.2 fun a ha hle => (h.later a ha).not_ge (of_decide_eq_true hle),
    List.append_nil] at hperm

theorem Splits.rest_perm {k : κ} {due rest : List α} (h : Splits key k L due rest) :
    rest.Perm (L.filter fun a => k < key a) := by
  have hperm := h.perm.filter fun a => decide (k < key a)
  rwa [List.filter_append, List.filter_eq_self.2 fun a ha => decide_eq_true (h.later a ha),
    List.filter_eq_nil_iff.2 fun a ha hlt => (of_decide_eq_true hlt).not_ge (h.due a ha),
    List.nil_append] at hperm

theorem Splits.nil {k : κ} : Splits key k [] [] [] where
  perm := .nil
  due _ ha := absurd ha List.not_mem_nil
  later _ ha := absurd ha List.not_mem_nil

theorem Sorted.splits_nil {k : κ} (h : Sorted key (b :: L)) (hb : k < key b) :
    Splits key k (b :: L) [] (b :: L) where
  perm := .refl _
  due _ ha := absurd ha List.not_mem_nil
  later a ha := by
    rcases List.mem_cons.1 ha with rfl | ha
    · exact hb
    · exact hb.trans_le ((List.pairwise_cons.1 h).1 a ha)

/-- When the first thing is due, and the things `as` enter behind it. -/
theorem Splits.cons {k : κ} {as bs due rest : List α}
    (h : Splits key k (enqueueAll key as L ++ bs) due rest) (hb : key b ≤ k) :
    Splits key k (b :: L ++ (as ++ bs)) (b :: due) rest where
  perm := by
    have hmove : (as ++ L ++ bs).Perm (L ++ (as ++ bs)) := by
      rw [← List.append_assoc]
      exact List.perm_append_comm.append_right bs
    exact (h.perm.trans ((enqueueAll_perm.append_right bs).trans hmove)).cons b
  due a ha := by
    rcases List.mem_cons.1 ha with rfl | ha
    · exact hb
    · exact h.due a ha
  later := h.later

end SortedQueue

end LinuxServer
