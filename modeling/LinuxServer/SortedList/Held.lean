import LinuxServer.SortedList.Links

/-!
# The timers a list holds

* `Linked w L`: the list of the program has the timers `L`, in whatever order, and these are the
  ones held.

`Linked.add`, `Linked.delay`, `Linked.tick`: what the calls make of `L`.  Only timers in front of
the first one that is not due leave the list in a tick.
-/

namespace LinuxServer

namespace SortedList

open Memory SortedQueue Node

variable {w w' : World} {L D S : List (Addr × TimerData)} {p : Addr} {c : TimerData} {cur : ℤ}

/-- The list of the program has the timers `L`, and these were added and have not fired. -/
structure Linked (w : World) (L : List (Addr × TimerData)) : Prop where
  rep : Rep w.timers w.list L
  held : ∀ p, w.Held p ↔ p ∈ addrs L
  called : ∀ p ∈ w.calls.map Call.timer, p ∈ w.added
  fresh : ∀ p ∈ w.added, p < w.timers.fresh

theorem linked_init : Linked .init [] where
  rep := ⟨rfl, fun h => absurd rfl h, trivial⟩
  held p := by simp [World.Held, World.init]
  called p hp := absurd hp List.not_mem_nil
  fresh p hp := absurd hp List.not_mem_nil

theorem addrs_enqueue_perm {e : Addr × TimerData} :
    (addrs (enqueue deadline e L)).Perm (e.1 :: addrs L) := enqueue_perm.map Prod.fst

theorem map_timer_calls (hset : ∀ e ∈ L, e.2.cbFunc ≠ none) :
    (L.filterMap callOf?).map Call.timer = addrs L := by
  -- `filterMap` drops nothing
  have hcall : ∀ e ∈ L, (callOf? e).map Call.timer = some e.1 := by
    intro e he
    obtain ⟨cb, hcb⟩ := Option.ne_none_iff_exists'.1 (hset e he)
    rw [callOf?, hcb]
    rfl
  rw [List.map_filterMap, List.filterMap_congr hcall, List.filterMap_eq_map']
  rfl

/-- Each timer is called with its own callback and data. -/
theorem map_some_calls (hset : ∀ e ∈ L, e.2.cbFunc ≠ none) :
    (L.filterMap callOf?).map some = L.map callOf? := by
  induction L with
  | nil => rfl
  | cons e L ih =>
    obtain ⟨call, hcall⟩ := exists_callOf? (hset e List.mem_cons_self)
    rw [List.filterMap_cons_some hcall, List.map_cons, List.map_cons, hcall,
      ih fun e he => hset e (List.mem_cons_of_mem _ he)]

theorem Linked.add (h : Linked w L) (data : TimerData) :
    ∃ w', exec w (.add data) = .ok w' ∧ w'.calls = w.calls ∧
      Linked w' (enqueue deadline (w.timers.fresh, data) L) := by
  obtain ⟨m, l, hadd, hfresh, -, hrep⟩ := addNew_spec h.rep data
  have hexec : exec w (.add data) =
      .ok { w with timers := m, list := l, added := w.added ++ [w.timers.fresh] } := by
    rw [exec, hadd]
    rfl
  refine ⟨_, hexec, rfl, ?_⟩
  refine
    { rep := hrep
      held := fun p => ?_
      called := fun p hp => List.mem_append_left _ (h.called p hp)
      fresh := fun p hp => ?_ }
  · have hcalled : w.timers.fresh ∉ w.calls.map Call.timer := fun hp =>
      lt_irrefl _ (h.fresh _ (h.called _ hp))
    rw [addrs_enqueue_perm.mem_iff, List.mem_cons, ← h.held]
    show p ∈ w.added ++ [w.timers.fresh] ∧ p ∉ w.calls.map Call.timer ↔ _
    rw [List.mem_append, List.mem_singleton, or_and_right, or_comm]
    refine or_congr_left ⟨And.left, ?_⟩
    rintro rfl
    exact ⟨rfl, hcalled⟩
  · show p < m.fresh
    rw [hfresh]
    rcases List.mem_append.1 hp with hp | hp
    · exact (h.fresh p hp).trans (Nat.lt_succ_self _)
    · rw [List.mem_singleton.1 hp]
      exact Nat.lt_succ_self _

/-- The deadline of a timer in the list is set, and the timer moves behind the timers that expire
before or with it, as far as they come after it. -/
theorem Linked.delay (h : Linked w (D ++ (p, c) :: S)) (expire : ℤ) :
    ∃ w', exec w (.delay p expire) = .ok w' ∧ w'.calls = w.calls ∧
      Linked w' (D ++ enqueue deadline (p, { c with expire }) S) := by
  obtain ⟨m, l, hset, hk, hrep⟩ := setDeadline_spec h.rep expire
  have hexec : exec w (.delay p expire) = .ok { w with timers := m, list := l } := by
    obtain ⟨timers, hmodify, hadjust⟩ := bind_eq_ok.1 hset
    rw [exec, hmodify, ok_bind, hadjust, ok_bind]
    rfl
  have hperm : (addrs (D ++ enqueue deadline (p, { c with expire }) S)).Perm
      (addrs (D ++ (p, c) :: S)) := by
    rw [addrs_append, addrs_append]
    exact addrs_enqueue_perm.append_left _
  refine ⟨_, hexec, rfl, ?_⟩
  exact
    { rep := hrep
      held := fun q => (h.held q).trans hperm.mem_iff.symm
      called := h.called
      fresh := fun q hq => (h.fresh q hq).trans_eq hk.fresh.symm }

/-- The timers in front that are due are called and leave the list. -/
theorem Linked.tick (h : Linked w L)
    (hset : ∀ e ∈ L.takeWhile fun e => deadline e ≤ cur, e.2.cbFunc ≠ none) :
    ∃ w', exec w (.tick cur) = .ok w' ∧
      w'.calls = w.calls ++ (L.takeWhile fun e => deadline e ≤ cur).filterMap callOf? ∧
      w'.list.tail = w.list.tail ∧ Linked w' (L.dropWhile fun e => deadline e ≤ cur) := by
  obtain ⟨m, l, htick, hfresh, -, htail, hrep⟩ := tick_takes cur h.rep hset
  have hexec : exec w (.tick cur) = .ok
      { w with
        timers := m
        list := l
        calls := w.calls ++ (L.takeWhile fun e => deadline e ≤ cur).filterMap callOf? } := by
    rw [exec, htick]
    rfl
  -- no timer is both taken out and left
  have hsplit : addrs (L.takeWhile fun e => deadline e ≤ cur) ++
      addrs (L.dropWhile fun e => deadline e ≤ cur) = addrs L := by
    rw [← addrs_append, List.takeWhile_append_dropWhile]
  have hdisj : (addrs (L.takeWhile fun e => deadline e ≤ cur)).Disjoint
      (addrs (L.dropWhile fun e => deadline e ≤ cur)) :=
    List.disjoint_of_nodup_append (hsplit ▸ h.rep.chain.nodup)
  refine ⟨_, hexec, rfl, htail, ?_⟩
  refine
    { rep := hrep
      held := fun p => ?_
      called := fun p hp => ?_
      fresh := fun p hp => (h.fresh p hp).trans_eq hfresh.symm }
  · show p ∈ w.added ∧ p ∉ (w.calls ++ _).map Call.timer ↔ _
    rw [List.map_append, map_timer_calls hset, List.mem_append, not_or, ← and_assoc]
    show w.Held p ∧ _ ↔ _
    rw [h.held, ← hsplit, List.mem_append]
    refine ⟨fun hp => hp.1.resolve_left hp.2, fun hp => ⟨.inr hp, fun hp' => hdisj hp' hp⟩⟩
  · change p ∈ (w.calls ++ _).map Call.timer at hp
    rw [List.map_append, map_timer_calls hset, List.mem_append] at hp
    rcases hp with hp | hp
    · exact h.called p hp
    · exact ((h.held p).2 (hsplit ▸ List.mem_append_left _ hp)).1

/-- In a tick that does not fail the timers that are taken out have callbacks. -/
theorem Linked.set_of_tick (h : Linked w L) (hexec : exec w (.tick cur) = .ok w') :
    ∀ e ∈ L.takeWhile fun e => deadline e ≤ cur, e.2.cbFunc ≠ none := by
  obtain ⟨⟨m, l, calls⟩, htick, -⟩ := bind_eq_ok.1 hexec
  rw [TimerList.tick, TimerList.tickFor] at htick
  split_ifs at htick with hhead
  · obtain rfl : L = [] := by
      cases L with
      | nil => rfl
      | cons => cases hhead.symm.trans h.rep.head
    exact fun e he => absurd he List.not_mem_nil
  · exact tickLoop_set h.rep h.rep.chain.length_le htick

end SortedList

end LinuxServer
