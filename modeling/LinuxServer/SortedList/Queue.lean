import LinuxServer.SortedList.Held

/-!
# The list of timers is a sorted queue

* `queueNext`, `queueFired`: what each call is for, on the timers in the order of their deadlines.
* `Good w L`: the list of the program has the timers `L`, sorted, and these are the ones held.
* `Correct w L`: the same, without what only the proofs need.

`exec_refines`: every call does to the list what it is for.
`correct_of_run`: so it is after every run, and every tick fires exactly what is due.
-/

namespace LinuxServer

namespace SortedList

open Memory SortedQueue Node

variable {w w' : World} {L D S : List (Addr × TimerData)} {p : Addr} {c : TimerData} {op : Op}

/-- The queue after a call, when `fresh` is the address of the next timer. -/
def queueNext (fresh : Addr) (L : List (Addr × TimerData)) : Op → List (Addr × TimerData)
  | .add data => enqueue deadline (fresh, data) L
  | .delay p expire => match L.find? fun e => e.1 = p with
    | none => L
    | some e => enqueue deadline (p, { e.2 with expire }) (L.filter fun e => e.1 ≠ p)
  | .tick cur => L.filter fun e => cur < deadline e

/-- The timers that a call fires. -/
def queueFired (L : List (Addr × TimerData)) : Op → List (Addr × TimerData)
  | .tick cur => L.filter fun e => deadline e ≤ cur
  | .add _ | .delay _ _ => []

/-- The program keeps its timers in the order of their deadlines. -/
structure Good (w : World) (L : List (Addr × TimerData)) : Prop where
  rep : Rep w.timers w.list L
  sorted : Sorted deadline L
  held : ∀ p, w.Held p ↔ p ∈ addrs L
  set : ∀ e ∈ L, e.2.cbFunc ≠ none
  called : ∀ p ∈ w.calls.map Call.timer, p ∈ w.added
  fresh : ∀ p ∈ w.added, p < w.timers.fresh

theorem good_init : Good .init [] where
  rep := ⟨rfl, fun h => absurd rfl h, trivial⟩
  sorted := .nil
  held p := by simp [World.Held, World.init]
  set e he := absurd he List.not_mem_nil
  called p hp := absurd hp List.not_mem_nil
  fresh p hp := absurd hp List.not_mem_nil

theorem Good.linked (h : Good w L) : Linked w L := ⟨h.rep, h.held, h.called, h.fresh⟩

theorem Linked.good (h : Linked w L) (hsorted : Sorted deadline L)
    (hset : ∀ e ∈ L, e.2.cbFunc ≠ none) : Good w L :=
  ⟨h.rep, hsorted, h.held, hset, h.called, h.fresh⟩

theorem Good.add {data : TimerData} (h : Good w L) (hdata : data.cbFunc ≠ none) :
    ∃ w', exec w (.add data) = .ok w' ∧ w'.calls = w.calls ∧
      Good w' (enqueue deadline (w.timers.fresh, data) L) := by
  obtain ⟨w', hexec, hcalls, hlinked⟩ := h.linked.add data
  refine ⟨w', hexec, hcalls, hlinked.good h.sorted.enqueue ?_⟩
  intro e he
  rcases mem_enqueue.1 he with rfl | he
  · exact hdata
  · exact h.set e he

theorem Good.delay {expire : ℤ} (h : Good w (D ++ (p, c) :: S)) (hle : c.expire ≤ expire) :
    ∃ w', exec w (.delay p expire) = .ok w' ∧ w'.calls = w.calls ∧
      Good w' (D ++ enqueue deadline (p, { c with expire }) S) := by
  obtain ⟨w', hexec, hcalls, hlinked⟩ := h.linked.delay expire
  refine ⟨w', hexec, hcalls, hlinked.good (h.sorted.move hle) ?_⟩
  intro e he
  rcases List.mem_append.1 he with he | he
  · exact h.set e (List.mem_append_left _ he)
  · rcases mem_enqueue.1 he with rfl | he
    · exact h.set (p, c) (by simp)
    · exact h.set e (by simp [he])

theorem Good.tick {cur : ℤ} (h : Good w L) :
    ∃ w', exec w (.tick cur) = .ok w' ∧
      w'.calls = w.calls ++ (L.filter fun e => deadline e ≤ cur).filterMap callOf? ∧
      Good w' (L.filter fun e => cur < deadline e) := by
  rw [← h.sorted.takeWhile_eq, ← h.sorted.dropWhile_eq]
  have hset : ∀ e ∈ L.takeWhile fun e => deadline e ≤ cur, e.2.cbFunc ≠ none :=
    fun e he => h.set e ((List.takeWhile_sublist _).subset he)
  obtain ⟨w', hexec, hcalls, -, hlinked⟩ := h.linked.tick hset
  have hsub := List.dropWhile_sublist (fun e => decide (deadline e ≤ cur)) (l := L)
  exact ⟨w', hexec, hcalls,
    hlinked.good (h.sorted.sublist hsub) fun e he => h.set e (hsub.subset he)⟩

/-- In the queue a timer whose deadline is put off moves back. -/
theorem Good.queueNext_delay {expire : ℤ} {fresh : Addr} (h : Good w (D ++ (p, c) :: S))
    (hle : c.expire ≤ expire) : queueNext fresh (D ++ (p, c) :: S) (.delay p expire) =
      D ++ enqueue deadline (p, { c with expire }) S := by
  obtain ⟨hpD, hpS, -⟩ := h.rep.chain.notMem
  have hD : ∀ e ∈ D, e.1 ≠ p := fun e he hp => hpD (hp ▸ mem_addrs_of_mem he)
  have hS : ∀ e ∈ S, e.1 ≠ p := fun e he hp => hpS (hp ▸ mem_addrs_of_mem he)
  have hfind : (D ++ (p, c) :: S).find? (fun e => e.1 = p) = some (p, c) := by
    rw [List.find?_append, List.find?_eq_none.2 fun e he => by simpa using hD e he,
      Option.none_or, List.find?_cons_of_pos (by simp)]
  have hfilter : (D ++ (p, c) :: S).filter (fun e => e.1 ≠ p) = D ++ S := by
    rw [List.filter_append, List.filter_cons_of_neg (by simp),
      List.filter_eq_self.2 fun e he => by simpa using hD e he,
      List.filter_eq_self.2 fun e he => by simpa using hS e he]
  have hbefore : ∀ e ∈ D, deadline e ≤ deadline (p, { c with expire }) := fun e he =>
    ((List.pairwise_append.1 h.sorted).2.2 e he (p, c) List.mem_cons_self).trans hle
  rw [queueNext, hfind, hfilter]
  exact enqueue_append hbefore

/-- Every call a program may make returns, and does to the queue what it is for. -/
theorem exec_refines (h : Good w L) (hlegal : Legal w op) :
    ∃ w', exec w op = .ok w' ∧ w'.calls = w.calls ++ (queueFired L op).filterMap callOf? ∧
      Good w' (queueNext w.timers.fresh L op) := by
  cases op with
  | add data =>
    obtain ⟨w', hexec, hcalls, hgood⟩ := h.add hlegal
    exact ⟨w', hexec, hcalls.trans (List.append_nil _).symm, hgood⟩
  | delay p expire =>
    obtain ⟨c, hc⟩ := mem_addrs.1 ((h.held p).1 hlegal.1)
    obtain ⟨D, S, rfl⟩ := List.append_of_mem hc
    have hle : c.expire ≤ expire := hlegal.2 _ (chain_mid.1 h.rep.chain).2.1
    obtain ⟨w', hexec, hcalls, hgood⟩ := h.delay hle
    rw [h.queueNext_delay hle]
    exact ⟨w', hexec, hcalls.trans (List.append_nil _).symm, hgood⟩
  | tick cur => exact h.tick

/-- The list of the program has the timers `L`: `next` leads from `head` through them, each once,
in the order of their deadlines, `prev` leads back, `head` has none before it and `tail` is the
last one; and they are the timers that were added and have not fired. -/
structure Correct (w : World) (L : List (Addr × TimerData)) : Prop where
  head : w.list.head = first L none
  links : Chain w.timers none L none
  tail : L ≠ [] → w.list.tail = last none L
  sorted : L.Pairwise fun e e' => e.2.expire ≤ e'.2.expire
  nodup : (addrs L).Nodup
  held : ∀ p, p ∈ addrs L ↔ w.Held p

theorem Good.correct (h : Good w L) : Correct w L :=
  ⟨h.rep.head, h.rep.chain, h.rep.tail, h.sorted, h.rep.chain.nodup, fun p => (h.held p).symm⟩

theorem exists_good {ops : List Op} (hrun : timerListLTS.Run .init ops w) : ∃ L, Good w L := by
  refine LTS.Run.invariant (I := fun w => ∃ L, Good w L) hrun ⟨[], good_init⟩ ?_
  intro u op v hu hstep
  obtain ⟨L, hL⟩ := hu
  obtain ⟨v', hexec, -, hgood⟩ := exec_refines hL hstep.2
  obtain rfl : v' = v := Except.ok.inj (hexec.symm.trans hstep.1)
  exact ⟨_, hgood⟩

/-- **The list is a sorted queue.**  After every run its links are in order, every call that the
program may make returns and does to the queue what it is for, and a tick calls, each once and in
the order of their deadlines, the callbacks of the timers that are due, with their data. -/
theorem correct_of_run {ops : List Op} (hrun : timerListLTS.Run .init ops w) :
    ∃ L, Correct w L ∧
      (∀ op, Legal w op → ∃ w', timerListLTS.step w op w') ∧
      (∀ op w', timerListLTS.step w op w' → Correct w' (queueNext w.timers.fresh L op)) ∧
      ∀ cur w', timerListLTS.step w (.tick cur) w' →
        ∃ calls, w'.calls = w.calls ++ calls ∧
          calls.map Call.timer = addrs (L.filter fun e => e.2.expire ≤ cur) ∧
          calls.map some = (L.filter fun e => e.2.expire ≤ cur).map callOf? := by
  obtain ⟨L, hL⟩ := exists_good hrun
  refine ⟨L, hL.correct, fun op hlegal => ?_, fun op w' hstep => ?_, fun cur w' hstep => ?_⟩
  · obtain ⟨w', hexec, -⟩ := exec_refines hL hlegal
    exact ⟨w', hexec, hlegal⟩
  · obtain ⟨v, hexec, -, hgood⟩ := exec_refines hL hstep.2
    obtain rfl : v = w' := Except.ok.inj (hexec.symm.trans hstep.1)
    exact hgood.correct
  · obtain ⟨v, hexec, hcalls, -⟩ := exec_refines hL hstep.2
    obtain rfl : v = w' := Except.ok.inj (hexec.symm.trans hstep.1)
    have hset : ∀ e ∈ L.filter fun e => e.2.expire ≤ cur, e.2.cbFunc ≠ none :=
      fun e he => hL.set e (List.mem_of_mem_filter he)
    exact ⟨_, hcalls, map_timer_calls hset, map_some_calls hset⟩

theorem correct_of_run_delay : ∃ w L, timerListLTS.Run .init
    [.add ⟨5, some 7, none⟩, .add ⟨3, some 7, none⟩, .add ⟨5, some 8, none⟩, .delay 1 5, .tick 4] w ∧
      Correct w L ∧ first L none = some 0 ∧ last none L = some 1 := by
  have hplay : (LTS.play exec Legal .init
      [.add ⟨5, some 7, none⟩, .add ⟨3, some 7, none⟩, .add ⟨5, some 8, none⟩, .delay 1 5,
        .tick 4]).map World.list = some ⟨some 0, some 1⟩ := rfl
  obtain ⟨w, hw, hlist⟩ := Option.map_eq_some_iff.1 hplay
  obtain ⟨L, hL, -⟩ := correct_of_run (LTS.run_of_play hw)
  have hfirst : first L none = some 0 := by rw [← hL.head, hlist]
  have hne : L ≠ [] := by
    rintro rfl
    cases hfirst
  exact ⟨w, L, LTS.run_of_play hw, hL, hfirst, by rw [← hL.tail hne, hlist]⟩

end SortedList

end LinuxServer
