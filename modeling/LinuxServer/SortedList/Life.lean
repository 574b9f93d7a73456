import LinuxServer.Alarms.Basic
import LinuxServer.SortedList.Delete
import LinuxServer.SortedList.Held

/-!
# The life of a list of timers

Programs that add timers, put off their deadlines, delete them and tick, and the destructor at the
end.

* `destroy`: the destructor `~sort_timer_list`.
* `Life`, `Life.exec`, `lifeLTS`: the calls of such a program.
* `Kept w L`: the list has the timers `L`, which are those added and not freed.
* `RefinesWith w s L`: the list keeps the alarms `s`.

`owned_of_life`: every timer is freed once, by a deletion, a tick or the destructor.
`fires_iff_ticked`: a timer is called at the first tick that is not before its deadline.
`calls_sorted`: the callbacks of a whole run are called in the order of the deadlines.
-/

namespace LinuxServer

namespace SortedList

open Memory SortedQueue Node

/-- The loop of `~sort_timer_list`. -/
def destroyLoop : ℕ → Ptr → Store UtilTimer → TimerList → Except Fault (Store UtilTimer × TimerList)
  | 0, _, m, l => pure (m, l)
  | _, none, m, l => pure (m, l)
  | fuel + 1, some tmp, m, l => do
    let t ← m.read (some tmp)
    let l := { l with head := t.next }
    let m ← m.free (some tmp)
    destroyLoop fuel l.head m l

/-- `~sort_timer_list()`.  Each round frees a timer, so that there are at most as many rounds as
timers. -/
def TimerList.destroy (m : Store UtilTimer) (l : TimerList) :
    Except Fault (Store UtilTimer × TimerList) := destroyLoop m.fresh l.head m l

/-- The timers of a program and its list.  Recorded are what the timers held when they were added,
the timers added and deleted and, with the deadline that the timer had, each call of a callback. -/
structure Life where
  timers : Store UtilTimer
  list : TimerList
  created : List TimerData
  added : List Addr
  deleted : List Addr
  calls : List (ℤ × Call)
  deriving DecidableEq, Repr

/-- What a program does. -/
inductive LifeOp where
  /-- A timer is allocated, its members but for the links are set, and it is added. -/
  | add (data : TimerData)
  /-- The deadline of a timer is put off, and the timer is adjusted. -/
  | delay (timer : Addr) (expire : ℤ)
  | delete (timer : Ptr)
  | tick (cur : ℤ)
  deriving DecidableEq, Repr

namespace Life

/-- An empty list. -/
def init : Life := ⟨.empty, sortTimerList, [], [], [], []⟩

/-- The deadline of a timer. -/
def expireOf (m : Store UtilTimer) (p : Addr) : ℤ := ((m.get? p).map fun t => t.expire).getD 0

/-- One call. -/
def exec (w : Life) : LifeOp → Except Fault Life
  | .add data => do
    let timer := w.timers.fresh
    let (timers, list) ← w.list.addTimer (w.timers.alloc (utilTimer data)) (some timer)
    pure { w with timers, list, created := w.created ++ [data], added := w.added ++ [timer] }
  | .delay timer expire => do
    let (timers, list) ← w.list.setDeadline w.timers timer expire
    pure { w with timers, list }
  | .delete timer => do
    let (timers, list) ← w.list.deleteTimer w.timers timer
    pure { w with timers, list, deleted := w.deleted ++ timer.toList }
  | .tick cur => do
    let (timers, list, calls) ← w.list.tick w.timers cur
    pure { w with
      timers
      list
      calls := w.calls ++ calls.map fun call => (expireOf w.timers call.timer, call) }

/-- The timers called so far. -/
def called (w : Life) : List Addr := w.calls.map fun e => e.2.timer

/-- The timer was added and neither deleted nor called. -/
def Held (w : Life) (p : Addr) : Prop := p ∈ w.added ∧ p ∉ w.deleted ∧ p ∉ w.called

instance (w : Life) (p : Addr) : Decidable (w.Held p) := inferInstanceAs (Decidable (_ ∧ _ ∧ _))

/-- The timer is not the last one of several. -/
def Deletable (w : Life) (p : Addr) : Prop := w.list.tail ≠ some p ∨ w.list.head = some p

instance (w : Life) (p : Addr) : Decidable (w.Deletable p) :=
  inferInstanceAs (Decidable (_ ∨ _))

/-- What a program may do: add timers with a callback, put off the deadline of timers in the list,
and delete timers in the list, but for the last one of several. -/
def Legal (w : Life) : LifeOp → Prop
  | .add data => data.cbFunc ≠ none
  | .delay p e => w.Held p ∧ ∀ t, w.timers.get? p = some t → t.expire ≤ e
  | .delete (some p) => w.Held p ∧ w.Deletable p
  | .delete none | .tick _ => True

instance (w : Life) (op : LifeOp) : Decidable (w.Legal op) :=
  match op with
  | .add data => inferInstanceAs (Decidable (data.cbFunc ≠ none))
  | .delay p e => decidable_of_iff (w.Held p ∧ ∀ t ∈ w.timers.get? p, t.expire ≤ e) Iff.rfl
  | .delete (some p) => inferInstanceAs (Decidable (w.Held p ∧ w.Deletable p))
  | .delete none | .tick _ => .isTrue trivial

end Life

/-- The calls of a program on a list. -/
def lifeLTS : LTS Life LifeOp := (LTS.ofExec Life.exec).guard Life.Legal

variable {m m' : Store UtilTimer} {l l' : TimerList} {L D S : List (Addr × TimerData)} {a p : Addr}
  {c : TimerData} {q : Ptr} {fuel : ℕ} {w w' : Life} {s s' : Alarms Addr ℤ} {op : LifeOp}
  {ops : List LifeOp}

/-! ### The destructor -/

theorem destroyLoop_spec (hchain : Chain m q S none) (hnodup : (addrs S).Nodup)
    (hfuel : S.length ≤ fuel) (hhead : l.head = first S none) :
    ∃ m', destroyLoop fuel (first S none) m l = .ok (m', { l with head := none }) ∧
      m'.fresh = m.fresh ∧ m'.freed = m.freed ++ addrs S := by
  induction S generalizing m q fuel l with
  | nil =>
    have hloop : destroyLoop fuel none m l = .ok (m, l) := by cases fuel <;> rfl
    have hl : { l with head := none } = l := by
      cases l
      exact congrArg (TimerList.mk · _) hhead.symm
    rw [hl]
    exact ⟨m, hloop, rfl, (List.append_nil _).symm⟩
  | cons e S ih =>
    obtain ⟨a, c⟩ := e
    obtain ⟨fuel, rfl⟩ : ∃ k, fuel = k + 1 := Nat.exists_eq_add_one.2 (by simp at hfuel; omega)
    have hfuel : S.length ≤ fuel := by simpa using hfuel
    rw [addrs_cons, List.nodup_cons] at hnodup
    have hread : m.read (some a) = .ok (node c q (first S none)) :=
      Store.read_eq_ok.2 ⟨a, rfl, hchain.1⟩
    have hfree := (Store.live_of_get? hchain.1).free_eq
    obtain ⟨m', hloop, hfresh, hfreed⟩ :=
      ih (l := { l with head := first S none }) (hchain.2.erase hnodup.1) hnodup.2 hfuel rfl
    refine ⟨m', ?_, hfresh.trans Store.fresh_erase, ?_⟩
    · rw [first_cons, destroyLoop, hread, ok_bind]
      show (m.free (some a) >>= fun m =>
        destroyLoop fuel (first S none) m { l with head := first S none }) = _
      rw [hfree, ok_bind, hloop]
    · rw [hfreed, Store.freed_erase, addrs_cons, List.append_assoc]
      rfl

theorem destroy_spec (hr : Rep m l L) :
    ∃ m' l', l.destroy m = .ok (m', l') ∧ m'.freed = m.freed ++ addrs L := by
  obtain ⟨m', hloop, -, hfreed⟩ :=
    destroyLoop_spec hr.chain hr.chain.nodup hr.chain.length_le hr.head
  exact ⟨m', _, by rw [TimerList.destroy, hr.head, hloop], hfreed⟩

/-! ### What the calls do -/

/-- The timer was added with this callback and this data for it. -/
def Life.Registered (w : Life) (p : Addr) (cbFunc : Option ℕ) (userData : Ptr) : Prop :=
  ∃ data, w.created[p]? = some data ∧ data.cbFunc = cbFunc ∧ data.userData = userData

/-- The list has the timers `L`, in the order of their deadlines, which are those added and not
freed; freed are those deleted and those called. -/
structure Kept (w : Life) (L : List (Addr × TimerData)) : Prop where
  rep : Rep w.timers w.list L
  sorted : Sorted deadline L
  set : ∀ e ∈ L, e.2.cbFunc ≠ none
  created : w.created.length = w.timers.fresh
  registered : ∀ e ∈ L, w.Registered e.1 e.2.cbFunc e.2.userData
  calls : ∀ e ∈ w.calls, w.Registered e.2.timer (some e.2.cbFunc) e.2.userData
  added : w.added = List.range w.timers.fresh
  freed : w.timers.freed.Perm (w.deleted ++ w.called)
  owned : (w.timers.freed ++ addrs L).Perm w.added

theorem kept_init : Kept .init [] where
  rep := ⟨rfl, fun h => absurd rfl h, trivial⟩
  sorted := .nil
  set _ he := absurd he List.not_mem_nil
  created := rfl
  registered _ he := absurd he List.not_mem_nil
  calls _ he := absurd he List.not_mem_nil
  added := rfl
  freed := .refl _
  owned := .refl _

theorem Kept.nodup (h : Kept w L) : (w.timers.freed ++ addrs L).Nodup :=
  h.owned.nodup_iff.2 (h.added ▸ List.nodup_range)

theorem Kept.held_iff (h : Kept w L) : w.Held p ↔ p ∈ addrs L := by
  have hnodup := List.nodup_append'.1 h.nodup
  have hgone : p ∈ w.timers.freed ↔ p ∈ w.deleted ∨ p ∈ w.called := by
    rw [h.freed.mem_iff, List.mem_append]
  rw [Life.Held, ← not_or, ← hgone, ← h.owned.mem_iff, List.mem_append]
  refine ⟨fun hp => hp.1.resolve_left hp.2, fun hp => ⟨.inr hp, fun hf => hnodup.2.2 hf hp⟩⟩

theorem Kept.fresh_notMem (h : Kept w L) : w.timers.fresh ∉ w.added := by
  rw [h.added]
  exact List.not_mem_range_self

theorem Kept.add {data : TimerData} (h : Kept w L) (hdata : data.cbFunc ≠ none) :
    ∃ w', w.exec (.add data) = .ok w' ∧ w'.added = w.added ++ [w.timers.fresh] ∧
      w'.calls = w.calls ∧ Kept w' (enqueue deadline (w.timers.fresh, data) L) := by
  obtain ⟨m, l, hadd, hfresh, hfreed, hrep⟩ := addNew_spec h.rep data
  have hexec : w.exec (.add data) = .ok
      { w with
        timers := m
        list := l
        created := w.created ++ [data]
        added := w.added ++ [w.timers.fresh] } := by
    rw [Life.exec, hadd]
    rfl
  have hregistered : ∀ {p cb u}, w.Registered p cb u →
      ∃ c, (w.created ++ [data])[p]? = some c ∧ c.cbFunc = cb ∧ c.userData = u := by
    rintro p cb u ⟨c, hc, hcb⟩
    exact ⟨c, (List.getElem?_append_left (List.getElem?_eq_some_iff.1 hc).1).trans hc, hcb⟩
  refine ⟨_, hexec, rfl, rfl,
    { rep := hrep
      sorted := h.sorted.enqueue
      set := fun e he => ?_
      created := ?_
      registered := fun e he => ?_
      calls := fun e he => hregistered (h.calls e he)
      added := ?_
      freed := ?_
      owned := ?_ }⟩
  · rcases mem_enqueue.1 he with rfl | he
    · exact hdata
    · exact h.set e he
  · rw [List.length_append, h.created, hfresh]
    rfl
  · rcases mem_enqueue.1 he with rfl | he
    · exact ⟨data, by simp [← h.created], rfl, rfl⟩
    · exact hregistered (h.registered e he)
  · rw [hfresh, List.range_succ, h.added]
  · rw [hfreed]
    exact h.freed
  · have hperm : (addrs (enqueue deadline (w.timers.fresh, data) L)).Perm
        (addrs L ++ [w.timers.fresh]) :=
      addrs_enqueue_perm.trans (List.perm_append_singleton _ _).symm
    rw [hfreed]
    refine (hperm.append_left _).trans ?_
    rw [← List.append_assoc]
    exact h.owned.append_right _

theorem Kept.delay {expire : ℤ} (h : Kept w (D ++ (p, c) :: S)) (hle : c.expire ≤ expire) :
    ∃ w', w.exec (.delay p expire) = .ok w' ∧ w'.added = w.added ∧ w'.calls = w.calls ∧
      Kept w' (D ++ enqueue deadline (p, { c with expire }) S) := by
  obtain ⟨m, l, hset, hk, hrep⟩ := setDeadline_spec h.rep expire
  have hexec : w.exec (.delay p expire) = .ok { w with timers := m, list := l } := by
    rw [Life.exec, hset]
    rfl
  have hperm : (addrs (D ++ enqueue deadline (p, { c with expire }) S)).Perm
      (addrs (D ++ (p, c) :: S)) := by
    rw [addrs_append, addrs_append]
    exact addrs_enqueue_perm.append_left _
  refine ⟨_, hexec, rfl, rfl,
    { rep := hrep
      sorted := h.sorted.move hle
      set := fun e he => ?_
      created := h.created.trans hk.fresh.symm
      registered := fun e he => ?_
      calls := h.calls
      added := h.added.trans (congrArg List.range hk.fresh.symm)
      freed := hk.freed ▸ h.freed
      owned := ?_ }⟩
  · rcases List.mem_append.1 he with he | he
    · exact h.set e (List.mem_append_left _ he)
    · rcases mem_enqueue.1 he with rfl | he
      · exact h.set (p, c) (by simp)
      · exact h.set e (by simp [he])
  · rcases List.mem_append.1 he with he | he
    · exact h.registered e (List.mem_append_left _ he)
    · rcases mem_enqueue.1 he with rfl | he
      · exact h.registered (p, c) (by simp)
      · exact h.registered e (by simp [he])
  · rw [hk.freed]
    exact (hperm.append_left _).trans h.owned

/-- A timer that is not the last one of several is taken out of the list and freed. -/
theorem deleteTimer_spec (hr : Rep m l (D ++ (a, c) :: S)) (hlast : D = [] ∨ S ≠ []) :
    ∃ m' l', l.deleteTimer m (some a) = .ok (m', l') ∧ m'.fresh = m.fresh ∧
      m'.freed = m.freed ++ [a] ∧ Rep m' l' (D ++ S) := by
  rcases List.eq_nil_or_concat S with rfl | ⟨S, e, rfl⟩
  · obtain rfl := hlast.resolve_right fun h => h rfl
    exact ⟨_, _, deleteTimer_sole hr, Store.fresh_erase, Store.freed_erase, rfl,
      fun h => absurd rfl h, trivial⟩
  · rw [List.concat_eq_append] at hr ⊢
    have hne : S ++ [e] ≠ [] := by simp
    have htail := hr.tail (by simp)
    cases D with
    | nil =>
      obtain ⟨m', hdelete, hfresh, hfreed, hchain⟩ := deleteTimer_head hr hne
      refine ⟨m', _, hdelete, hfresh, hfreed, rfl, fun _ => htail.trans ?_, hchain⟩
      rw [List.nil_append, List.nil_append, last_cons, last_append, last_append]
      rfl
    | cons d D =>
      obtain ⟨m', hdelete, hfresh, hfreed, hchain⟩ :=
        deleteTimer_between hr (List.cons_ne_nil _ _) hne
      refine ⟨m', l, hdelete, hfresh, hfreed, hr.head, fun _ => htail.trans ?_, hchain⟩
      rw [last_append, last_append, last_cons, last_append, last_append]
      rfl

/-- `delete_timer` returns, for a timer in the list, unless it is the last one of several. -/
theorem Kept.delete_iff (h : Kept w (D ++ (p, c) :: S)) :
    w.Deletable p ↔ D = [] ∨ S ≠ [] := by
  rw [Life.Deletable, ne_eq, h.rep.tail_eq_iff, h.rep.head_eq_iff, or_comm]

theorem Kept.delete (h : Kept w (D ++ (p, c) :: S)) (hp : w.Deletable p) :
    ∃ w', w.exec (.delete (some p)) = .ok w' ∧ w'.added = w.added ∧ w'.calls = w.calls ∧
      Kept w' (D ++ S) := by
  obtain ⟨m, l, hdelete, hfresh, hfreed, hrep⟩ := deleteTimer_spec h.rep (h.delete_iff.1 hp)
  have hexec : w.exec (.delete (some p)) =
      .ok { w with timers := m, list := l, deleted := w.deleted ++ [p] } := by
    rw [Life.exec, hdelete]
    rfl
  have hsub : (D ++ S).Sublist (D ++ (p, c) :: S) :=
    List.Sublist.append_left (List.sublist_cons_self _ _) D
  refine ⟨_, hexec, rfl, rfl,
    { rep := hrep
      sorted := h.sorted.sublist hsub
      set := fun e he => h.set e (hsub.subset he)
      created := h.created.trans hfresh.symm
      registered := fun e he => h.registered e (hsub.subset he)
      calls := h.calls
      added := h.added.trans (congrArg List.range hfresh.symm)
      freed := ?_
      owned := ?_ }⟩
  · rw [hfreed]
    refine (h.freed.append_right [p]).trans ?_
    dsimp only [Life.called]
    rw [List.append_assoc, List.append_assoc]
    exact List.perm_append_comm.append_left _
  · rw [hfreed, List.append_assoc]
    refine List.Perm.trans ?_ h.owned
    refine List.Perm.append_left _ ?_
    rw [addrs_append, addrs_append, addrs_cons, List.singleton_append]
    exact List.perm_middle.symm

/-- The last one of several timers cannot be deleted. -/
theorem Kept.delete_last (h : Kept w (D ++ (p, c) :: S)) (hp : ¬ w.Deletable p) :
    w.exec (.delete (some p)) = .error (.dangling p) := by
  rw [h.delete_iff, not_or, not_not] at hp
  obtain ⟨hD, rfl⟩ := hp
  rw [Life.exec, deleteTimer_tail h.rep hD]
  rfl

/-- The calls that a tick makes for the timers that are due, with their deadlines. -/
def callsOf (L : List (Addr × TimerData)) (cur : ℤ) : List (ℤ × Call) :=
  (L.filter fun e => deadline e ≤ cur).filterMap fun e =>
    (callOf? e).map fun call => (deadline e, call)

theorem Kept.expireOf (h : Kept w L) {e : Addr × TimerData} (he : e ∈ L) :
    Life.expireOf w.timers e.1 = deadline e := by
  obtain ⟨D, S, rfl⟩ := List.append_of_mem he
  rw [Life.expireOf, (chain_mid.1 h.rep.chain).2.1]
  rfl

theorem Kept.map_callsOf (h : Kept w L) (cur : ℤ) :
    (callsOf L cur).map (fun e => (e.2.timer, e.1)) =
      (L.filter fun e => deadline e ≤ cur).map fun e => (e.1, deadline e) := by
  have hcall : ∀ e ∈ L.filter fun e => deadline e ≤ cur,
      ((callOf? e).map fun call => (deadline e, call)).map (fun e => (e.2.timer, e.1)) =
        some (e.1, deadline e) := by
    intro e he
    obtain ⟨cb, hcb⟩ := Option.ne_none_iff_exists'.1 (h.set e (List.mem_of_mem_filter he))
    rw [callOf?, hcb]
    rfl
  rw [callsOf, List.map_filterMap, List.filterMap_congr hcall, List.filterMap_eq_map']

theorem Kept.registered_callsOf (h : Kept w L) {cur : ℤ} {e : ℤ × Call} (he : e ∈ callsOf L cur) :
    w.Registered e.2.timer (some e.2.cbFunc) e.2.userData := by
  obtain ⟨⟨p, c⟩, hc, hcall⟩ := List.mem_filterMap.1 he
  obtain ⟨call, hcallOf, rfl⟩ := Option.map_eq_some_iff.1 hcall
  obtain ⟨cb, hcb, rfl⟩ := Option.map_eq_some_iff.1 hcallOf
  have hregistered := h.registered _ (List.mem_of_mem_filter hc)
  rwa [show (p, c).2.cbFunc = some cb from hcb] at hregistered

theorem Kept.tick (h : Kept w L) (cur : ℤ) :
    ∃ w', w.exec (.tick cur) = .ok w' ∧ w'.added = w.added ∧
      w'.calls = w.calls ++ callsOf L cur ∧ Kept w' (L.filter fun e => cur < deadline e) := by
  obtain ⟨m, l, htick, hfresh, hfreed, -, hrep⟩ := tick_spec cur h.rep h.sorted h.set
  have hcalls : ((L.filter fun e => deadline e ≤ cur).filterMap callOf?).map
      (fun call => (Life.expireOf w.timers call.timer, call)) = callsOf L cur := by
    rw [callsOf, List.map_filterMap]
    refine List.filterMap_congr fun e he => ?_
    rw [callOf?, Option.map_map, Option.map_map, ← h.expireOf (List.mem_of_mem_filter he)]
    rfl
  have hexec : w.exec (.tick cur) =
      .ok { w with timers := m, list := l, calls := w.calls ++ callsOf L cur } := by
    rw [Life.exec, htick, ← hcalls]
    rfl
  have hcalled : (callsOf L cur).map (fun e => e.2.timer) =
      addrs (L.filter fun e => deadline e ≤ cur) := by
    have hmap := congrArg (List.map Prod.fst) (h.map_callsOf cur)
    rwa [List.map_map, List.map_map] at hmap
  have hsub : (L.filter fun e => cur < deadline e).Sublist L := List.filter_sublist
  refine ⟨_, hexec, rfl, rfl,
    { rep := hrep
      sorted := h.sorted.sublist hsub
      set := fun e he => h.set e (hsub.subset he)
      created := h.created.trans hfresh.symm
      registered := fun e he => h.registered e (hsub.subset he)
      calls := fun e he => (List.mem_append.1 he).elim (h.calls e) h.registered_callsOf
      added := h.added.trans (congrArg List.range hfresh.symm)
      freed := ?_
      owned := ?_ }⟩
  · rw [hfreed, Life.called, List.map_append, hcalled, ← List.append_assoc]
    exact h.freed.append_right _
  · have hsplit : (L.filter (fun e => deadline e ≤ cur) ++
        L.filter fun e => cur < deadline e).Perm L := by
      rw [← h.sorted.takeWhile_eq, ← h.sorted.dropWhile_eq, List.takeWhile_append_dropWhile]
    rw [hfreed, List.append_assoc, ← addrs_append]
    exact ((hsplit.map Prod.fst).append_left _).trans h.owned

/-! ### The alarms that a list keeps -/

/-- The list with the timers `L` keeps the alarms `s`. -/
structure RefinesWith (w : Life) (s : Alarms Addr ℤ) (L : List (Addr × TimerData)) : Prop where
  kept : Kept w L
  wf : s.WF
  due : ∀ p k, s.due p = some k ↔ ∃ c, (p, c) ∈ L ∧ c.expire = k
  armed : s.armed = w.added
  fired : s.fired = w.calls.map fun e => (e.2.timer, e.1)

/-- The list keeps the alarms `s`. -/
def Refines (w : Life) (s : Alarms Addr ℤ) : Prop := ∃ L, RefinesWith w s L

/-- What a call is for the alarms. -/
def Matches : LifeOp → Alarms.Event Addr ℤ → Prop
  | .add data, ev => ∃ p, ev = .arm p data.expire
  | .delay p expire, ev => ev = .rearm p expire
  | .delete (some p), ev => ev = .cancel p
  | .delete none, ev => ev = .skip
  | .tick cur, ev => ev = .tick cur

section Matches

variable {ev : Alarms.Event Addr ℤ} {cur e : ℤ} {p : Addr}

theorem Matches.tick_iff (h : Matches op ev) : op = .tick cur ↔ ev = .tick cur := by
  cases op with
  | tick cur' =>
    obtain rfl : ev = .tick cur' := h
    exact ⟨fun heq => by cases heq; rfl, fun heq => by cases heq; rfl⟩
  | add data =>
    obtain ⟨p, rfl⟩ := h
    exact iff_of_false nofun nofun
  | delay p e =>
    obtain rfl : ev = .rearm p e := h
    exact iff_of_false nofun nofun
  | delete p =>
    refine iff_of_false nofun fun heq => ?_
    subst heq
    cases p <;> cases h

theorem Matches.of_arm (h : Matches op (.arm p e)) : ∃ data, op = .add data ∧ data.expire = e := by
  match op, h with
  | .add data, ⟨_, h⟩ =>
    cases h
    exact ⟨data, rfl, rfl⟩
  | .delete (some _), h => cases h

theorem Matches.of_rearm (h : Matches op (.rearm p e)) : op = .delay p e := by
  match op, h with
  | .add _, ⟨_, h⟩ => cases h
  | .delay _ _, h =>
    cases h
    rfl
  | .delete (some _), h => cases h

theorem Matches.of_cancel (h : Matches op (.cancel p)) : op = .delete (some p) := by
  match op, h with
  | .add _, ⟨_, h⟩ => cases h
  | .delete (some _), h =>
    cases h
    rfl

end Matches

theorem refines_init : Refines .init (.empty Addr ℤ) :=
  ⟨[],
    { kept := kept_init
      wf := Alarms.wf_empty
      due := fun p k => by simp [Alarms.empty]
      armed := rfl
      fired := rfl }⟩

theorem RefinesWith.due_ne_none (h : RefinesWith w s L) : s.due p ≠ none ↔ p ∈ addrs L := by
  rw [Option.ne_none_iff_exists', mem_addrs]
  simp only [h.due]
  exact ⟨fun ⟨_, c, hc, _⟩ => ⟨c, hc⟩, fun ⟨c, hc⟩ => ⟨_, c, hc, rfl⟩⟩

theorem RefinesWith.add {data : TimerData} (h : RefinesWith w s L) (hdata : data.cbFunc ≠ none) :
    ∃ w' s', w.exec (.add data) = .ok w' ∧
      Alarms.Step s (.arm w.timers.fresh data.expire) s' ∧ Refines w' s' := by
  obtain ⟨w', hexec, hadded, hcalls, hkept⟩ := h.kept.add hdata
  have hnew : w.timers.fresh ∉ s.armed := h.armed ▸ h.kept.fresh_notMem
  have hfresh : w.timers.fresh ∉ addrs L := fun hp =>
    hnew (h.wf.held _ (h.due_ne_none.2 hp)).1
  have hstep := Alarms.Step.arm hnew (k := data.expire)
  refine ⟨w', _, hexec, hstep, _,
    { kept := hkept
      wf := h.wf.step hstep
      due := fun p k => ?_
      armed := by rw [hadded, h.armed]
      fired := by rw [hcalls, h.fired] }⟩
  simp only [mem_enqueue, Prod.mk.injEq]
  rcases eq_or_ne p w.timers.fresh with rfl | hne
  · rw [Function.update_self, Option.some.injEq]
    constructor
    · exact fun hk => ⟨data, .inl ⟨rfl, rfl⟩, hk⟩
    · rintro ⟨c, ⟨-, rfl⟩ | hc, hk⟩
      · exact hk
      · exact absurd (mem_addrs_of_mem hc) hfresh
  · rw [Function.update_of_ne hne, h.due]
    simp [hne]

theorem RefinesWith.delay {expire : ℤ} (h : RefinesWith w s (D ++ (p, c) :: S))
    (hle : c.expire ≤ expire) :
    ∃ w' s', w.exec (.delay p expire) = .ok w' ∧ Alarms.Step s (.rearm p expire) s' ∧
      Refines w' s' := by
  obtain ⟨w', hexec, hadded, hcalls, hkept⟩ := h.kept.delay hle
  obtain ⟨hpD, hpS, -⟩ := h.kept.rep.chain.notMem
  have hstep := Alarms.Step.rearm (s := s) (k := expire) (h.due_ne_none (p := p).2 (by simp))
  refine ⟨w', _, hexec, hstep, _,
    { kept := hkept
      wf := h.wf.step hstep
      due := fun q k => ?_
      armed := h.armed.trans hadded.symm
      fired := by rw [hcalls, h.fired] }⟩
  simp only [List.mem_append, mem_enqueue, Prod.mk.injEq]
  rcases eq_or_ne q p with rfl | hne
  · rw [Function.update_self, Option.some.injEq]
    constructor
    · exact fun hk => ⟨_, .inr (.inl ⟨rfl, rfl⟩), hk⟩
    · rintro ⟨c', hc' | ⟨-, rfl⟩ | hc', hk⟩
      · exact absurd (mem_addrs_of_mem hc') hpD
      · exact hk
      · exact absurd (mem_addrs_of_mem hc') hpS
  · rw [Function.update_of_ne hne, h.due]
    simp [hne]

theorem RefinesWith.delete (h : RefinesWith w s (D ++ (p, c) :: S)) (hp : w.Deletable p) :
    ∃ w' s', w.exec (.delete (some p)) = .ok w' ∧ Alarms.Step s (.cancel p) s' ∧
      Refines w' s' := by
  obtain ⟨w', hexec, hadded, hcalls, hkept⟩ := h.kept.delete hp
  obtain ⟨hpD, hpS, -⟩ := h.kept.rep.chain.notMem
  have hstep := Alarms.Step.cancel (h.due_ne_none (p := p).2 (by simp))
  refine ⟨w', _, hexec, hstep, _,
    { kept := hkept
      wf := h.wf.step hstep
      due := fun q k => ?_
      armed := h.armed.trans hadded.symm
      fired := by rw [hcalls, h.fired] }⟩
  simp only [List.mem_append]
  rcases eq_or_ne q p with rfl | hne
  · refine iff_of_false (by simp) ?_
    rintro ⟨c', hc' | hc', -⟩
    · exact hpD (mem_addrs_of_mem hc')
    · exact hpS (mem_addrs_of_mem hc')
  · rw [Function.update_of_ne hne, h.due]
    simp [hne]

theorem RefinesWith.tick (h : RefinesWith w s L) (cur : ℤ) :
    ∃ w' s', w.exec (.tick cur) = .ok w' ∧ Alarms.Step s (.tick cur) s' ∧ Refines w' s' := by
  obtain ⟨w', hexec, hadded, hcalls, hkept⟩ := h.kept.tick cur
  have hsub : (L.filter fun e => deadline e ≤ cur).Sublist L := List.filter_sublist
  have hstep : Alarms.Step s (.tick cur)
      { s with
        due := Alarms.after s.due cur
        fired := s.fired ++
          (L.filter fun e => deadline e ≤ cur).map fun e => (e.1, deadline e) } := by
    refine .tick ?_ ?_ fun p k => ?_
    · rw [List.map_map]
      exact h.kept.rep.chain.nodup.sublist (hsub.map _)
    · rw [List.map_map]
      exact List.pairwise_map.2 (h.kept.sorted.sublist hsub)
    · rw [h.due]
      simp only [List.mem_map, List.mem_filter, decide_eq_true_eq, Prod.exists, Prod.mk.injEq]
      constructor
      · rintro ⟨q, c, ⟨hc, hle⟩, rfl, rfl⟩
        exact ⟨⟨c, hc, rfl⟩, hle⟩
      · rintro ⟨⟨c, hc, rfl⟩, hle⟩
        exact ⟨p, c, ⟨hc, hle⟩, rfl, rfl⟩
  refine ⟨w', _, hexec, hstep, _,
    { kept := hkept
      wf := h.wf.step hstep
      due := fun p k => ?_
      armed := h.armed.trans hadded.symm
      fired := ?_ }⟩
  · dsimp only
    rw [Alarms.after_eq_some, h.due]
    simp only [List.mem_filter, decide_eq_true_eq]
    constructor
    · rintro ⟨⟨c, hc, rfl⟩, hlt⟩
      exact ⟨c, ⟨hc, hlt⟩, rfl⟩
    · rintro ⟨c, ⟨hc, hlt⟩, rfl⟩
      exact ⟨⟨c, hc, rfl⟩, hlt⟩
  · rw [hcalls, List.map_append, h.kept.map_callsOf, h.fired]

/-- Every call that the program may make returns, and is for the alarms what it is there for. -/
theorem exec_keeps (h : Refines w s) (hlegal : w.Legal op) :
    ∃ w' ev s', w.exec op = .ok w' ∧ Alarms.Step s ev s' ∧ Matches op ev ∧ Refines w' s' := by
  obtain ⟨L, hL⟩ := h
  cases op with
  | add data =>
    obtain ⟨w', s', hexec, hstep, href⟩ := hL.add hlegal
    exact ⟨w', _, s', hexec, hstep, ⟨_, rfl⟩, href⟩
  | delay p expire =>
    obtain ⟨c, hc⟩ := mem_addrs.1 (hL.kept.held_iff.1 hlegal.1)
    obtain ⟨D, S, rfl⟩ := List.append_of_mem hc
    have hle : c.expire ≤ expire := hlegal.2 _ (chain_mid.1 hL.kept.rep.chain).2.1
    obtain ⟨w', s', hexec, hstep, href⟩ := hL.delay hle
    exact ⟨w', _, s', hexec, hstep, rfl, href⟩
  | delete timer =>
    cases timer with
    | none =>
      have hexec : w.exec (.delete none) = .ok { w with deleted := w.deleted ++ [] } := rfl
      rw [List.append_nil] at hexec
      exact ⟨w, _, s, hexec, .skip, rfl, L, hL⟩
    | some p =>
      obtain ⟨c, hc⟩ := mem_addrs.1 (hL.kept.held_iff.1 hlegal.1)
      obtain ⟨D, S, rfl⟩ := List.append_of_mem hc
      obtain ⟨w', s', hexec, hstep, href⟩ := hL.delete hlegal.2
      exact ⟨w', _, s', hexec, hstep, rfl, href⟩
  | tick cur =>
    obtain ⟨w', s', hexec, hstep, href⟩ := hL.tick cur
    exact ⟨w', _, s', hexec, hstep, rfl, href⟩

/-- Every run of a list is one of its alarms, call by call. -/
theorem run_keeps (hrun : lifeLTS.Run w ops w') (h : Refines w s) :
    ∃ evs s', (Alarms.alarmsLTS Addr ℤ).Run s evs s' ∧ List.Forall₂ Matches ops evs ∧
      Refines w' s' := by
  refine hrun.simulate_each h ?_
  intro u op v s hu hstep
  obtain ⟨v', ev, s', hexec, hs, hmatch, href⟩ := exec_keeps hu hstep.2
  obtain rfl : v' = v := Except.ok.inj (hexec.symm.trans hstep.1)
  exact ⟨ev, s', hs, hmatch, href⟩

/-! ### Whole runs -/

/-- **Every timer is freed once.**  Whatever the program has done, every call that it may make
returns, and of the timers in the list it may delete exactly those that are not the last one of
several; and when the destructor ends the run it returns, and all timers that were added are then
freed, each of them once. -/
theorem owned_of_life (hrun : lifeLTS.Run .init ops w) :
    (∀ op, w.Legal op → ∃ w', lifeLTS.step w op w') ∧
      (∀ p, w.Held p → ((∃ w', w.exec (.delete (some p)) = .ok w') ↔ w.Deletable p)) ∧
      (w.deleted ++ w.called).Nodup ∧
      ∃ m l, w.list.destroy w.timers = .ok (m, l) ∧ m.freed.Nodup ∧
        ∀ p, p ∈ m.freed ↔ p ∈ w.added := by
  obtain ⟨_, s, -, -, hs⟩ := run_keeps hrun refines_init
  obtain ⟨L, hL⟩ := id hs
  have hkept := hL.kept
  refine ⟨fun op hlegal => ?_, fun p hp => ?_, ?_, ?_⟩
  · obtain ⟨w', -, -, hexec, -⟩ := exec_keeps hs hlegal
    exact ⟨w', hexec, hlegal⟩
  · obtain ⟨c, hc⟩ := mem_addrs.1 (hkept.held_iff.1 hp)
    obtain ⟨D, S, rfl⟩ := List.append_of_mem hc
    constructor
    · rintro ⟨w', hexec⟩
      by_contra hlast
      cases (hkept.delete_last hlast).symm.trans hexec
    · intro hdeletable
      obtain ⟨w', hexec, -⟩ := hkept.delete hdeletable
      exact ⟨w', hexec⟩
  · exact hkept.freed.nodup_iff.1 (List.nodup_append'.1 hkept.nodup).1
  · obtain ⟨m, l, hdestroy, hfreed⟩ := destroy_spec hkept.rep
    refine ⟨m, l, hdestroy, hfreed ▸ hkept.nodup, fun p => ?_⟩
    rw [hfreed, hkept.owned.mem_iff]

theorem owned_of_life_two : ∃ w m l, lifeLTS.Run .init
    [.add ⟨5, some 7, none⟩, .add ⟨3, some 7, none⟩, .add ⟨4, some 8, none⟩, .delete (some 2),
      .delay 1 9, .tick 6] w ∧ w.list.destroy w.timers = .ok (m, l) ∧ m.freed.Nodup := by
  have hplay : LTS.play Life.exec Life.Legal .init
      [.add ⟨5, some 7, none⟩, .add ⟨3, some 7, none⟩, .add ⟨4, some 8, none⟩, .delete (some 2),
        .delay 1 9, .tick 6] = some _ := rfl
  have hrun := LTS.run_of_play hplay
  obtain ⟨-, -, -, m, l, hdestroy, hnodup, -⟩ := owned_of_life hrun
  exact ⟨_, m, l, hrun, hdestroy, hnodup⟩

theorem RefinesWith.called (h : RefinesWith w s L) : s.fired.map Prod.fst = w.called := by
  rw [h.fired, List.map_map]
  rfl

/-- What a call records of the timers added. -/
def LifeOp.datas : LifeOp → List TimerData
  | .add data => [data]
  | .delay _ _ | .delete _ | .tick _ => []

theorem records_of_exec (hexec : w.exec op = .ok w') : w'.created = w.created ++ op.datas ∧
    w'.added = w.added ++ op.datas.map fun _ => w.timers.fresh := by
  cases op with
  | add data =>
    obtain ⟨⟨m, l⟩, -, hw⟩ := bind_eq_ok.1 hexec
    obtain rfl := Except.ok.inj hw
    exact ⟨rfl, rfl⟩
  | delay p expire =>
    obtain ⟨⟨m, l⟩, -, hw⟩ := bind_eq_ok.1 hexec
    obtain rfl := Except.ok.inj hw
    exact ⟨(List.append_nil _).symm, (List.append_nil _).symm⟩
  | delete p =>
    obtain ⟨⟨m, l⟩, -, hw⟩ := bind_eq_ok.1 hexec
    obtain rfl := Except.ok.inj hw
    exact ⟨(List.append_nil _).symm, (List.append_nil _).symm⟩
  | tick cur =>
    obtain ⟨⟨m, l, calls⟩, -, hw⟩ := bind_eq_ok.1 hexec
    obtain rfl := Except.ok.inj hw
    exact ⟨(List.append_nil _).symm, (List.append_nil _).symm⟩

theorem Life.Registered.step {cb : Option ℕ} {u : Ptr} (h : w.Registered p cb u)
    (hexec : w.exec op = .ok w') : w'.Registered p cb u := by
  obtain ⟨data, hdata, hcb⟩ := h
  refine ⟨data, ?_, hcb⟩
  rw [(records_of_exec hexec).1]
  exact (List.getElem?_append_left (List.getElem?_eq_some_iff.1 hdata).1).trans hdata

/-- **A timer is called in time, and once.**  A timer that `add_timer` puts into the list, and that
is neither put off nor deleted later, is called iff a tick is not before its deadline, with the
callback and the data that it was given; a timer that is deleted is not called.  No timer is called
twice. -/
theorem fires_iff_ticked {ops₁ ops₂ : List LifeOp} {w₁ w₂ : Life} {data : TimerData}
    (h₁ : lifeLTS.Run .init ops₁ w₁) (hadd : lifeLTS.step w₁ (.add data) w₂)
    (h₂ : lifeLTS.Run w₂ ops₂ w) (hdelay : ∀ e, .delay w₁.timers.fresh e ∉ ops₂) :
    (.delete (some w₁.timers.fresh) ∉ ops₂ → (w₁.timers.fresh ∈ w.called ↔
      ∃ cur, .tick cur ∈ ops₂ ∧ data.expire ≤ cur)) ∧
      (.delete (some w₁.timers.fresh) ∈ ops₂ → w₁.timers.fresh ∉ w.called) ∧
      (∀ e ∈ w.calls, e.2.timer = w₁.timers.fresh →
        some e.2.cbFunc = data.cbFunc ∧ e.2.userData = data.userData) ∧ w.called.Nodup := by
  obtain ⟨_, s₁, -, -, L, hs₁⟩ := run_keeps h₁ refines_init
  obtain ⟨v, s₂, hexec, harm, hs₂⟩ := hs₁.add hadd.2
  obtain rfl : v = w₂ := Except.ok.inj (hexec.symm.trans hadd.1)
  have hwf₂ : s₂.WF := hs₁.wf.step harm
  have hdue : s₂.due w₁.timers.fresh = some data.expire := by
    cases harm
    exact Function.update_self ..
  obtain ⟨evs, s, hrun, hmatch, L', hs⟩ := run_keeps h₂ hs₂
  refine ⟨fun hdelete => ?_, fun hdelete => ?_, fun e he hp => ?_, hs.called ▸ hs.wf.nodup⟩
  · have hcancel : .cancel w₁.timers.fresh ∉ evs := by
      intro hmem
      obtain ⟨op, hop, hm⟩ := LTS.exists_match_of_mem hmatch hmem
      exact hdelete (hm.of_cancel ▸ hop)
    have hrearm : ∀ k, .rearm w₁.timers.fresh k ∉ evs := by
      intro k hmem
      obtain ⟨op, hop, hm⟩ := LTS.exists_match_of_mem hmatch hmem
      exact hdelay k (hm.of_rearm ▸ hop)
    rw [← hs.called, (Alarms.fired_iff hwf₂ hdue hrun hcancel hrearm).1]
    refine exists_congr fun cur => and_congr_left fun _ => ?_
    exact (LTS.mem_iff_of_match hmatch fun op ev hm => hm.tick_iff).symm
  · -- the deletion is made in a state `u` and leads to the state `v`
    obtain ⟨ops, ops', rfl⟩ := List.append_of_mem hdelete
    rw [List.append_cons] at h₂
    obtain ⟨v, hv, hrest⟩ := LTS.run_append_iff.1 h₂
    obtain ⟨u, hu, hstep⟩ := LTS.run_snoc_iff.1 hv
    obtain ⟨_, su, -, -, Lu, hsu⟩ := run_keeps hu hs₂
    obtain ⟨c, hc⟩ := mem_addrs.1 (hsu.kept.held_iff.1 hstep.2.1)
    obtain ⟨D, S, rfl⟩ := List.append_of_mem hc
    obtain ⟨v', sv, hexec', hcancel, hsv⟩ := hsu.delete hstep.2.2
    obtain rfl : v' = v := Except.ok.inj (hexec'.symm.trans hstep.1)
    obtain ⟨_, s', hrun', -, L'', hs'⟩ := run_keeps hrest hsv
    rw [← hs'.called]
    exact Alarms.not_fired_of_cancelled hsu.wf hcancel hrun'
  · have hcreated : w.created[w₁.timers.fresh]? = some data := by
      have hfirst : v.created[w₁.timers.fresh]? = some data := by
        rw [(records_of_exec hadd.1).1]
        simp [LifeOp.datas, ← hs₁.kept.created]
      refine h₂.invariant (I := fun u => u.created[w₁.timers.fresh]? = some data) hfirst ?_
      intro u op v hu hstep
      rw [(records_of_exec hstep.1).1]
      exact (List.getElem?_append_left (List.getElem?_eq_some_iff.1 hu).1).trans hu
    obtain ⟨c, hc, hcb, hdata⟩ := hs.kept.calls e he
    rw [hp, hcreated] at hc
    obtain rfl := Option.some.inj hc
    exact ⟨hcb.symm, hdata.symm⟩

theorem fires_iff_ticked_two : ∃ w, lifeLTS.Run .init
    [.add ⟨5, some 7, none⟩, .add ⟨3, some 7, none⟩, .tick 4] w ∧ 1 ∈ w.called := by
  let w₁ : Life :=
    ⟨⟨[some ⟨⟨5, some 7, none⟩, none, none⟩], []⟩, ⟨some 0, some 0⟩, [⟨5, some 7, none⟩], [0], [],
      []⟩
  let w₂ : Life :=
    ⟨⟨[some ⟨⟨5, some 7, none⟩, some 1, none⟩, some ⟨⟨3, some 7, none⟩, none, some 0⟩], []⟩,
      ⟨some 1, some 0⟩, [⟨5, some 7, none⟩, ⟨3, some 7, none⟩], [0, 1], [], []⟩
  have hfirst : lifeLTS.Run .init [.add ⟨5, some 7, none⟩] w₁ := LTS.run_of_play rfl
  have hadd : lifeLTS.step w₁ (.add ⟨3, some 7, none⟩) w₂ := ⟨rfl, fun h => by cases h⟩
  have hplay : LTS.play Life.exec Life.Legal w₂ [.tick 4] = some _ := rfl
  have hfires := (fires_iff_ticked hfirst hadd (LTS.run_of_play hplay) (by simp)).1 (by simp)
  exact ⟨_, (hfirst.snoc hadd).append (LTS.run_of_play hplay), hfires.2 ⟨4, by simp, by decide⟩⟩

/-- No deadline is set to a time that a tick has had before. -/
def Timely (ops : List LifeOp) : Prop :=
  ∀ pre op, pre ++ [op] <+: ops → ∀ e, (∃ data, op = .add data ∧ data.expire = e) ∨
    (∃ p, op = .delay p e) → ∀ cur, .tick cur ∈ pre → cur < e

/-- **The callbacks of a whole run are called in the order of the deadlines**, when none of these
is set to a time that is past. -/
theorem calls_sorted (hrun : lifeLTS.Run .init ops w) (htimely : Timely ops) :
    (w.calls.map Prod.fst).Pairwise (· ≤ ·) := by
  obtain ⟨evs, s, hevs, hmatch, L, hs⟩ := run_keeps hrun refines_init
  have htimely' : Alarms.Timely evs := by
    intro pre ev hpre p k hev t ht
    obtain ⟨pre', op, hpre', hpast, hm⟩ := LTS.exists_match hmatch hpre
    refine htimely pre' op hpre' k ?_ t ?_
    · rcases hev with rfl | rfl
      · exact .inl hm.of_arm
      · exact .inr ⟨p, hm.of_rearm⟩
    · exact (LTS.mem_iff_of_match hpast fun op ev hm => hm.tick_iff).2 ht
  have hsorted := Alarms.fired_sorted hevs htimely'
  rw [hs.fired, List.map_map] at hsorted
  exact hsorted

theorem calls_sorted_two : ∃ w, lifeLTS.Run .init
    [.add ⟨5, some 7, none⟩, .tick 3, .add ⟨4, some 7, none⟩, .tick 6] w ∧
      (w.calls.map Prod.fst).Pairwise (· ≤ ·) := by
  have hplay : LTS.play Life.exec Life.Legal .init
      [.add ⟨5, some 7, none⟩, .tick 3, .add ⟨4, some 7, none⟩, .tick 6] = some _ := rfl
  refine ⟨_, LTS.run_of_play hplay, calls_sorted (LTS.run_of_play hplay) ?_⟩
  rintro pre op ⟨post, hpre⟩ e he cur hcur
  rcases pre with _ | ⟨op₁, _ | ⟨op₂, _ | ⟨op₃, _ | ⟨op₄, pre⟩⟩⟩⟩ <;> simp_all
  omega

end SortedList

end LinuxServer
