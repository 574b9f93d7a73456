import LinuxServer.SortedList.Delete

/-!
# Adjusting a timer

The method `adjust_timer` of `sort_timer_list.cc`, when the deadline of a timer in a list has been
set to whatever value.  It looks only at the timer behind: a timer moves back as far as it should,
and never forward.

* `Relinks m l L a expire`, `Resorts m l L a expire`: the list is linked, and sorted, again.
* `NotBeforePrev m a expire`: the timer in front of `a` does not expire after the new deadline.

`resorts_iff`: the list is always linked again, and sorted exactly when the timer in front allows it.
-/

namespace LinuxServer

namespace SortedList

open Memory SortedQueue Node

variable {m m' : Store UtilTimer} {l l' : TimerList} {L L' D S : List (Addr × TimerData)} {a : Addr}
  {c : TimerData} {expire : ℤ}

/-- The timers of a list when the deadline of `a` is set. -/
def withDeadline (a : Addr) (expire : ℤ) (L : List (Addr × TimerData)) :
    List (Addr × TimerData) :=
  L.map fun e => if e.1 = a then (a, { e.2 with expire }) else e

/-- `adjust_timer` leaves the timers, each once, linked both ways between `head` and `tail`. -/
def Relinks (m : Store UtilTimer) (l : TimerList) (L : List (Addr × TimerData)) (a : Addr)
    (expire : ℤ) : Prop :=
  ∃ m' l' L', l.setDeadline m a expire = .ok (m', l') ∧ L'.Perm (withDeadline a expire L) ∧
    L' ≠ [] ∧ Rep m' l' L'

/-- `adjust_timer` leaves the timers, each once, in a well-formed list, the earliest first. -/
def Resorts (m : Store UtilTimer) (l : TimerList) (L : List (Addr × TimerData)) (a : Addr)
    (expire : ℤ) : Prop :=
  ∃ m' l' L', l.setDeadline m a expire = .ok (m', l') ∧ L'.Perm (withDeadline a expire L) ∧
    WellFormed m' l' L'

/-- The timer in front of `a`, if there is one, does not expire after the new deadline of `a`. -/
def NotBeforePrev (m : Store UtilTimer) (a : Addr) (expire : ℤ) : Prop :=
  ∀ t u, m.read (some a) = .ok t → m.read t.prev = .ok u → u.expire ≤ expire

theorem Rep.unique (hr : Rep m l L) (hr' : Rep m l L') : L = L' := by
  refine hr.chain.unique (fun c c' p n n' h => ?_) hr'.chain (hr.head.symm.trans hr'.head)
  injection h with hc _ hn
  exact ⟨hc, hn⟩

theorem withDeadline_of_notMem (ha : a ∉ addrs L) : withDeadline a expire L = L := by
  refine (List.map_congr_left fun e he => if_neg ?_).trans (List.map_id L)
  exact ne_of_mem_of_not_mem (mem_addrs_of_mem he) ha

theorem withDeadline_mid (hD : a ∉ addrs D) (hS : a ∉ addrs S) :
    withDeadline a expire (D ++ (a, c) :: S) = D ++ (a, { c with expire }) :: S := by
  have hmid : withDeadline a expire ((a, c) :: S) =
      (a, { c with expire }) :: withDeadline a expire S := by
    rw [withDeadline, List.map_cons, if_pos rfl]
    rfl
  calc withDeadline a expire (D ++ (a, c) :: S)
      = withDeadline a expire D ++ withDeadline a expire ((a, c) :: S) := List.map_append
    _ = D ++ (a, { c with expire }) :: S := by
      rw [hmid, withDeadline_of_notMem hD, withDeadline_of_notMem hS]

theorem notBeforePrev_iff (hr : Rep m l (D ++ (a, c) :: S)) (hsorted : Sorted deadline D) :
    NotBeforePrev m a expire ↔ ∀ e ∈ D, deadline e ≤ expire := by
  have hreada : m.read (some a) = .ok (node c (last none D) (first S none)) := hr.chain.read
  rcases List.eq_nil_or_concat D with rfl | ⟨D, ⟨b, d⟩, rfl⟩
  · refine iff_of_true ?_ (fun e he => absurd he List.not_mem_nil)
    intro t u ht hu
    obtain rfl := Except.ok.inj (hreada.symm.trans ht)
    cases hu
  · rw [List.concat_eq_append] at hr hsorted hreada ⊢
    have hreadb : m.read (last none (D ++ [(b, d)])) = .ok (node d (last none D) (some a)) := by
      rw [last_append]
      have hchain := hr.chain
      rw [List.append_assoc, List.singleton_append] at hchain
      exact hchain.read
    rw [hsorted.forall_le_iff]
    constructor
    · intro hprev
      exact hprev _ _ hreada hreadb
    · intro hle t u ht hu
      obtain rfl := Except.ok.inj (hreada.symm.trans ht)
      obtain rfl := Except.ok.inj (hreadb.symm.trans hu)
      exact hle

/-- **What `adjust_timer` does** after any change of the deadline of a timer in a well-formed list:
all timers are linked as they should be, and they are sorted again exactly when the timer in front
does not expire later. -/
theorem resorts_iff (hw : WellFormed m l L) (ha : a ∈ addrs L) :
    Relinks m l L a expire ∧ (Resorts m l L a expire ↔ NotBeforePrev m a expire) := by
  obtain ⟨c, hc⟩ := mem_addrs.1 ha
  obtain ⟨D, S, rfl⟩ := List.append_of_mem hc
  obtain ⟨haD, haS, -⟩ := hw.chain.notMem
  obtain ⟨m', l', hset, -, hrep⟩ := setDeadline_spec hw.rep expire
  have hmove := hw.sorted.move_iff (a := (a, { c with expire }))
  have hperm : (D ++ enqueue deadline (a, { c with expire }) S).Perm
      (withDeadline a expire (D ++ (a, c) :: S)) := by
    rw [withDeadline_mid haD haS]
    exact enqueue_perm.append_left D
  have hne : D ++ enqueue deadline (a, { c with expire }) S ≠ [] :=
    List.ne_nil_of_mem (List.mem_append_right D (mem_enqueue.2 (.inl rfl)))
  refine ⟨⟨m', l', _, hset, hperm, hne, hrep⟩, ?_⟩
  rw [notBeforePrev_iff hw.rep (List.pairwise_append.1 hw.sorted).1]
  constructor
  · rintro ⟨m₁, l₁, L', hset', -, hw'⟩
    obtain ⟨rfl, rfl⟩ := Prod.mk.inj (Except.ok.inj (hset.symm.trans hset'))
    obtain rfl := hrep.unique hw'.rep
    exact hmove.1 hw'.sorted
  · intro hle
    exact ⟨m', l', _, hset, hperm, hrep.chain, hrep.head, hrep.tail hne, hmove.2 hle⟩

/-- The second of two timers with the deadlines 3 and 5 is brought forward to 4, which sorts, and
to 1, which does not. -/
theorem resorts_iff_twoTimers :
    Resorts twoTimers ⟨some 0, some 1⟩ [(0, ⟨3, some 7, none⟩), (1, ⟨5, some 7, none⟩)] 1 4 ∧
      ¬ Resorts twoTimers ⟨some 0, some 1⟩ [(0, ⟨3, some 7, none⟩), (1, ⟨5, some 7, none⟩)] 1 1 := by
  have hiff : ∀ expire, Resorts twoTimers ⟨some 0, some 1⟩
      [(0, ⟨3, some 7, none⟩), (1, ⟨5, some 7, none⟩)] 1 expire ↔ NotBeforePrev twoTimers 1 expire :=
    fun expire => (resorts_iff wellFormed_twoTimers (by decide)).2
  constructor
  · refine (hiff 4).2 fun t u ht hu => ?_
    obtain rfl := Except.ok.inj ht
    obtain rfl := Except.ok.inj hu
    decide
  · intro h
    exact absurd ((hiff 1).1 h _ _ rfl rfl) (by decide)

theorem not_resorts_forward : ¬ ∀ m l L a expire, WellFormed m l L → a ∈ addrs L →
    Resorts m l L a expire := by
  intro h
  obtain ⟨m', l', L', hset, -, hw⟩ := h _ _ _ 1 1 wellFormed_twoTimers (by decide)
  obtain ⟨rfl, rfl⟩ := Prod.mk.inj (Except.ok.inj hset)
  have hrep : Rep (twoTimers.set 1 ⟨⟨1, some 7, none⟩, some 0, none⟩) ⟨some 0, some 1⟩
      [(0, ⟨3, some 7, none⟩), (1, ⟨1, some 7, none⟩)] :=
    ⟨rfl, fun _ => rfl, rfl, rfl, trivial⟩
  obtain rfl := hrep.unique hw.rep
  exact absurd ((List.pairwise_cons.1 hw.sorted).1 _ List.mem_cons_self) (by decide)

end SortedList

end LinuxServer
