import LinuxServer.SortedList.Links

/-!
# Deleting a timer

The method `delete_timer` of `sort_timer_list.cc`.  It tells four places of the timer apart.  The
case of the tail frees the timer, does not return, and goes on to relink the neighbours of a timer
that is gone (`deleteTimer_tail`).  At the other places the timer leaves the list
(`deleteTimer_sole`, `deleteTimer_head`, `deleteTimer_between`).

* `WellFormed m l L`: the list `l` has the timers `L`, and is sorted and linked as it should be.
* `Deletes m l L a`: the call for `a` takes `a`, and nothing else, out of the list.
* `deletes_iff`: exactly when it does.
-/

namespace LinuxServer

namespace SortedList

open Memory SortedQueue Node

/-- `delete_timer` -/
def TimerList.deleteTimer (m : Store UtilTimer) (l : TimerList) (timer : Ptr) :
    Except Fault (Store UtilTimer × TimerList) :=
  if timer = none then pure (m, l)
  else if timer = l.head ∧ timer = l.tail then do
    let m ← m.free timer
    pure (m, ⟨none, none⟩)
  else if timer = l.head then do
    let u ← m.read l.head
    let l := { l with head := u.next }
    let m ← m.modify l.head fun t => { t with prev := none }
    let m ← m.free timer
    pure (m, l)
  else do
    let (m, l) ←
      if timer = l.tail then do
        let u ← m.read l.tail
        let l := { l with tail := u.prev }
        let m ← m.modify l.tail fun t => { t with next := none }
        let m ← m.free timer
        -- there is no `return` here
        pure (m, l)
      else pure (m, l)
    let t ← m.read timer
    let m ← m.modify t.prev fun before => { before with next := t.next }
    let t ← m.read timer
    let m ← m.modify t.next fun after => { after with prev := t.prev }
    let m ← m.free timer
    pure (m, l)

variable {m m' : Store UtilTimer} {l l' : TimerList} {L D S : List (Addr × TimerData)} {a : Addr}
  {c : TimerData}

/-- The list has the timers `L`, the earliest first, linked both ways between `head` and `tail`,
which are null when there is no timer. -/
structure WellFormed (m : Store UtilTimer) (l : TimerList) (L : List (Addr × TimerData)) : Prop
    where
  chain : Chain m none L none
  head : l.head = first L none
  tail : l.tail = last none L
  sorted : Sorted deadline L

/-- The timers of a list but for `a`. -/
def without (a : Addr) (L : List (Addr × TimerData)) : List (Addr × TimerData) :=
  L.filter fun e => e.1 ≠ a

/-- `delete_timer` frees `a` once, accesses no timer it must not, and leaves the other timers, as
they were, in a well-formed list. -/
def Deletes (m : Store UtilTimer) (l : TimerList) (L : List (Addr × TimerData)) (a : Addr) :
    Prop :=
  ∃ m' l', l.deleteTimer m (some a) = .ok (m', l') ∧ m'.fresh = m.fresh ∧
    m'.freed = m.freed ++ [a] ∧ WellFormed m' l' (without a L)

theorem WellFormed.rep (h : WellFormed m l L) : Rep m l L := ⟨h.head, fun _ => h.tail, h.chain⟩

theorem without_of_notMem (ha : a ∉ addrs L) : without a L = L := by
  refine List.filter_eq_self.2 fun e he => decide_eq_true ?_
  exact ne_of_mem_of_not_mem (mem_addrs_of_mem he) ha

theorem without_mid (hD : a ∉ addrs D) (hS : a ∉ addrs S) :
    without a (D ++ (a, c) :: S) = D ++ S := by
  rw [without, List.filter_append, List.filter_cons_of_neg (by simp)]
  exact congrArg₂ (· ++ ·) (without_of_notMem hD) (without_of_notMem hS)

theorem Rep.head_eq_iff (hr : Rep m l (D ++ (a, c) :: S)) : l.head = some a ↔ D = [] := by
  have hnotMem := hr.chain.notMem.1
  rw [hr.head, first_append, first_cons]
  cases D with
  | nil => exact ⟨fun _ => rfl, fun _ => rfl⟩
  | cons e D =>
    refine ⟨fun h => absurd ?_ hnotMem, fun h => absurd h (List.cons_ne_nil _ _)⟩
    rw [← Option.some.inj h]
    exact List.mem_cons_self

theorem Rep.tail_eq_iff (hr : Rep m l (D ++ (a, c) :: S)) : l.tail = some a ↔ S = [] := by
  have hnotMem := hr.chain.notMem.2.1
  rw [hr.tail (by simp), last_append, last_cons]
  cases S with
  | nil => exact ⟨fun _ => rfl, fun _ => rfl⟩
  | cons e S =>
    refine ⟨fun h => absurd ?_ hnotMem, fun h => absurd h (List.cons_ne_nil _ _)⟩
    obtain ⟨b, hb, hlast⟩ := exists_last e.1 S
    obtain rfl : b = a := Option.some.inj (hlast.symm.trans h)
    exact hb

theorem deleteTimer_sole (hr : Rep m l [(a, c)]) :
    l.deleteTimer m (some a) = .ok (m.erase a, ⟨none, none⟩) := by
  have hhead : l.head = some a := hr.head
  have htail : l.tail = some a := hr.tail (List.cons_ne_nil _ _)
  rw [TimerList.deleteTimer, if_neg (Option.some_ne_none a), hhead, htail, if_pos ⟨rfl, rfl⟩,
    (Store.live_of_get? hr.chain.1).free_eq]
  rfl

theorem deleteTimer_head (hr : Rep m l ((a, c) :: S)) (hS : S ≠ []) :
    ∃ m', l.deleteTimer m (some a) = .ok (m', { l with head := first S none }) ∧
      m'.fresh = m.fresh ∧ m'.freed = m.freed ++ [a] ∧ Chain m' none S none := by
  have hhead : l.head = some a := hr.head
  have htail : ¬ some a = l.tail := fun h => hS ((hr.tail_eq_iff (D := [])).1 h.symm)
  have hcut := hr.chain.cut (D := [])
  obtain ⟨m₁, h₁, hk₁, hcut⟩ := hcut.set_right hS (q := none)
    (f := fun t => { t with prev := none }) fun _ _ _ => rfl
  refine ⟨m₁.erase a, ?_, Store.fresh_erase.trans hk₁.fresh, ?_,
    hcut.right.erase hcut.right_notMem⟩
  · rw [TimerList.deleteTimer, if_neg (Option.some_ne_none a), if_neg fun h => htail h.2, hhead,
      if_pos rfl, hr.chain.read (D := []), ok_bind]
    show (m.modify (first S none) (fun t => { t with prev := none }) >>= _) = _
    rw [h₁, ok_bind, (Store.live_of_get? hcut.beside).free_eq]
    rfl
  · rw [Store.freed_erase, hk₁.freed]

theorem deleteTimer_between (hr : Rep m l (D ++ (a, c) :: S)) (hD : D ≠ []) (hS : S ≠ []) :
    ∃ m', l.deleteTimer m (some a) = .ok (m', l) ∧ m'.fresh = m.fresh ∧
      m'.freed = m.freed ++ [a] ∧ Chain m' none (D ++ S) none := by
  have hhead : ¬ some a = l.head := fun h => hD (hr.head_eq_iff.1 h.symm)
  have htail : ¬ some a = l.tail := fun h => hS (hr.tail_eq_iff.1 h.symm)
  obtain ⟨m₁, h₁, hk₁, hcut₁⟩ := hr.chain.cut.set_left hD (q := first S none)
    (f := fun t => { t with next := first S none }) fun _ _ _ => rfl
  obtain ⟨m₂, h₂, hk₂, hcut₂⟩ := hcut₁.set_right hS (q := last none D)
    (f := fun t => { t with prev := last none D }) fun _ _ _ => rfl
  have hread₁ : m₁.read (some a) = _ := Store.read_eq_ok.2 ⟨a, rfl, hcut₁.beside⟩
  have hnew : a ∉ addrs (D ++ S) := by
    rw [addrs_append, List.mem_append]
    exact fun h => h.elim hcut₂.left_notMem hcut₂.right_notMem
  refine ⟨m₂.erase a, ?_, Store.fresh_erase.trans (hk₁.trans hk₂).fresh, ?_,
    hcut₂.chain_without.erase hnew⟩
  · rw [TimerList.deleteTimer, if_neg (Option.some_ne_none a), if_neg fun h => hhead h.1,
      if_neg hhead, if_neg htail, pure_eq_ok, ok_bind]
    show (m.read (some a) >>= _) = _
    rw [hr.chain.read, ok_bind]
    show (m.modify (last none D) (fun t => { t with next := first S none }) >>= _) = _
    rw [h₁, ok_bind, hread₁, ok_bind]
    show (m₁.modify (first S none) (fun t => { t with prev := last none D }) >>= _) = _
    rw [h₂, ok_bind, (Store.live_of_get? hcut₂.beside).free_eq]
    rfl
  · rw [Store.freed_erase, (hk₁.trans hk₂).freed]

/-- The last of several timers is freed, and then its links are read. -/
theorem deleteTimer_tail (hr : Rep m l (D ++ [(a, c)])) (hD : D ≠ []) :
    l.deleteTimer m (some a) = .error (.dangling a) := by
  have hhead : ¬ some a = l.head := fun h => hD (hr.head_eq_iff.1 h.symm)
  have htail : l.tail = some a := hr.tail_eq_iff.2 rfl
  obtain ⟨m₁, h₁, -, hcut⟩ := hr.chain.cut.set_left hD (q := none)
    (f := fun t => { t with next := none }) fun _ _ _ => rfl
  have hgone : (m₁.erase a).read (some a) = .error (.dangling a) := by
    rw [Store.read, Store.get?_erase_self]
  rw [TimerList.deleteTimer, if_neg (Option.some_ne_none a), if_neg fun h => hhead h.1,
    if_neg hhead, if_pos htail.symm, htail, hr.chain.read, ok_bind]
  show (m.modify (last none D) (fun t => { t with next := none }) >>= _) = _
  rw [h₁, ok_bind, (Store.live_of_get? hcut.beside).free_eq, ok_bind, pure_eq_ok, ok_bind]
  show ((m₁.erase a).read (some a) >>= _) = _
  rw [hgone]
  rfl

/-- **Deleting a timer.**  The call takes the timer out of the list, unless the timer is the last
of several. -/
theorem deletes_iff (h : WellFormed m l L) (ha : a ∈ addrs L) :
    Deletes m l L a ↔ l.tail ≠ some a ∨ l.head = some a := by
  obtain ⟨c, hc⟩ := mem_addrs.1 ha
  obtain ⟨D, S, rfl⟩ := List.append_of_mem hc
  have hr := h.rep
  have hsorted : Sorted deadline (D ++ S) :=
    h.sorted.sublist (List.Sublist.append_left (List.sublist_cons_self _ _) D)
  have hwithout : without a (D ++ (a, c) :: S) = D ++ S :=
    without_mid hr.chain.notMem.1 hr.chain.notMem.2.1
  rw [ne_eq, hr.tail_eq_iff, hr.head_eq_iff, Deletes, hwithout]
  by_cases hD : D = []
  · subst hD
    refine iff_of_true ?_ (.inr rfl)
    by_cases hS : S = []
    · subst hS
      exact ⟨_, _, deleteTimer_sole hr, Store.fresh_erase, Store.freed_erase, trivial, rfl, rfl,
        hsorted⟩
    · obtain ⟨m', hdelete, hfresh, hfreed, hchain⟩ := deleteTimer_head hr hS
      refine ⟨m', _, hdelete, hfresh, hfreed, hchain, rfl, h.tail.trans ?_, hsorted⟩
      obtain ⟨e, S, rfl⟩ := List.exists_cons_of_ne_nil hS
      rfl
  · by_cases hS : S = []
    · subst hS
      refine iff_of_false ?_ (by simp [hD])
      rintro ⟨m', l', hdelete, -⟩
      cases (deleteTimer_tail hr hD).symm.trans hdelete
    · refine iff_of_true ?_ (.inl hS)
      obtain ⟨m', hdelete, hfresh, hfreed, hchain⟩ := deleteTimer_between hr hD hS
      refine ⟨m', l, hdelete, hfresh, hfreed, hchain, h.head.trans ?_, h.tail.trans ?_, hsorted⟩
      · obtain ⟨e, D, rfl⟩ := List.exists_cons_of_ne_nil hD
        rfl
      · obtain ⟨e, S, rfl⟩ := List.exists_cons_of_ne_nil hS
        rw [last_append, last_append, last_cons, last_cons, last_cons]

/-- Two timers with the deadlines 3 and 5. -/
def twoTimers : Store UtilTimer :=
  ⟨[some ⟨⟨3, some 7, none⟩, none, some 1⟩, some ⟨⟨5, some 7, none⟩, some 0, none⟩], []⟩

theorem wellFormed_twoTimers :
    WellFormed twoTimers ⟨some 0, some 1⟩ [(0, ⟨3, some 7, none⟩), (1, ⟨5, some 7, none⟩)] :=
  ⟨⟨rfl, rfl, trivial⟩, rfl, rfl, by simp [Sorted, deadline]⟩

theorem not_deletes_last : ¬ ∀ m l L a, WellFormed m l L → a ∈ addrs L → Deletes m l L a := by
  intro h
  obtain ⟨m', l', hdelete, -⟩ := h _ _ _ 1 wellFormed_twoTimers (by decide)
  cases hdelete

theorem deletes_iff_twoTimers :
    WellFormed twoTimers ⟨some 0, some 1⟩ [(0, ⟨3, some 7, none⟩), (1, ⟨5, some 7, none⟩)] ∧
      (∀ a ∈ [0, 1], Deletes twoTimers ⟨some 0, some 1⟩
        [(0, ⟨3, some 7, none⟩), (1, ⟨5, some 7, none⟩)] a ↔ a = 0) := by
  refine ⟨wellFormed_twoTimers, fun a ha => ?_⟩
  refine (deletes_iff wellFormed_twoTimers (by simpa [addrs] using ha)).trans ?_
  simp only [List.mem_cons, List.not_mem_nil, or_false] at ha
  obtain rfl | rfl := ha
  · exact iff_of_true (.inr rfl) rfl
  · exact iff_of_false (by decide) (by decide)

end SortedList

end LinuxServer
