import LinuxServer.SortedList.Basic
import LinuxServer.SortedQueue.Basic

/-!
# What the methods do to the links

* `Rep m l L`: the list `l` has the timers `L`, linked both ways between `head` and `tail`.

`insert_spec`, `addTimer_spec`, `adjustTimer_spec`, `tickLoop_spec`: what the methods make of `L`,
in the terms of a sorted queue.
-/

namespace LinuxServer

namespace SortedList

open Memory SortedQueue

instance : Node UtilTimer TimerData where
  node c p n := { c with prev := p, next := n }
  prev t := t.prev
  prev_node _ _ _ := rfl

open Node

/-- The deadline of a timer in a list. -/
def deadline (e : Addr × TimerData) : ℤ := e.2.expire

variable {m m' : Store UtilTimer} {l l' : TimerList} {L D S : List (Addr × TimerData)} {a : Addr}
  {c : TimerData} {p n q : Ptr} {fuel : ℕ}

/-- The list has the timers `L`. -/
structure Rep (m : Store UtilTimer) (l : TimerList) (L : List (Addr × TimerData)) : Prop where
  head : l.head = first L none
  tail : L ≠ [] → l.tail = last none L
  chain : Chain m none L none

theorem linkBetween_spec (h : Cut m D (first S none) a c p n S (last none D)) (hD : D ≠ [])
    (hS : S ≠ []) :
    ∃ m', linkBetween m (last none D) (some a) (first S none) = .ok m' ∧ m.Keeps m' ∧
      Chain m' none (D ++ (a, c) :: S) none := by
  obtain ⟨m₁, h₁, hk₁, h⟩ := h.set_left hD (q := some a)
    (f := fun t => { t with next := some a }) fun _ _ _ => rfl
  obtain ⟨m₂, h₂, hk₂, h⟩ := h.set_beside (f := fun t => { t with next := first S none }) rfl
  obtain ⟨m₃, h₃, hk₃, h⟩ := h.set_right hS (q := some a)
    (f := fun t => { t with prev := some a }) fun _ _ _ => rfl
  obtain ⟨m₄, h₄, hk₄, h⟩ := h.set_beside (f := fun t => { t with prev := last none D }) rfl
  refine ⟨m₄, ?_, ((hk₁.trans hk₂).trans hk₃).trans hk₄, h.chain⟩
  rw [linkBetween, h₁, ok_bind, h₂, ok_bind, h₃, ok_bind, h₄]

/-- The loop finds the place of a timer behind `D` and, when there is one before the end, puts the
timer there. -/
theorem insertLoop_spec (h : Chain m none (D ++ S) none) (hD : D ≠ [])
    (ha : m.get? a = some (node c p n)) (hnew : a ∉ addrs (D ++ S)) (hfuel : S.length ≤ fuel) :
    (∃ m' prev e, insertLoop (some a) fuel m (last none D) (first S none) =
        .ok (m', prev, some e) ∧ m.Keeps m' ∧
      Chain m' none (D ++ enqueue deadline (a, c) S) none ∧
      last none (D ++ enqueue deadline (a, c) S) = last none (D ++ S)) ∨
    insertLoop (some a) fuel m (last none D) (first S none) =
        .ok (m, last none (D ++ S), none) ∧ enqueue deadline (a, c) S = S ++ [(a, c)] := by
  induction S generalizing D fuel with
  | nil =>
    refine .inr ⟨?_, rfl⟩
    rw [List.append_nil]
    cases fuel <;> rfl
  | cons e S ih =>
    obtain ⟨e, x⟩ := e
    obtain ⟨fuel, rfl⟩ : ∃ k, fuel = k + 1 := Nat.exists_eq_add_one.2 (by simp at hfuel; omega)
    have hfuel : S.length ≤ fuel := by simpa using hfuel
    have hreada : m.read (some a) = .ok (node c p n) := Store.read_eq_ok.2 ⟨a, rfl, ha⟩
    rw [first_cons]
    by_cases hlt : c.expire < x.expire
    · -- the timer is put before `e`
      have henqueue : enqueue deadline (a, c) ((e, x) :: S) = (a, c) :: (e, x) :: S :=
        enqueue_cons_of_lt hlt
      obtain ⟨m', hlink, hk, hchain⟩ :=
        linkBetween_spec (h.beside ha hnew) hD (List.cons_ne_nil _ _)
      refine .inl ⟨m', last none D, e, ?_, hk, henqueue ▸ hchain, ?_⟩
      · rw [insertLoop, if_neg (Option.some_ne_none e), hreada, ok_bind, h.read, ok_bind]
        show (if c.expire < x.expire then _ else _) = _
        rw [first_cons] at hlink
        rw [if_pos hlt, hlink]
        rfl
      · rw [henqueue, last_append, last_append, last_cons, last_cons, last_cons]
    · -- the loop goes on behind `e`
      have henqueue : enqueue deadline (a, c) ((e, x) :: S) =
          (e, x) :: enqueue deadline (a, c) S := enqueue_cons_of_le (not_lt.1 hlt)
      have hstep : insertLoop (some a) (fuel + 1) m (last none D) (some e) =
          insertLoop (some a) fuel m (last none (D ++ [(e, x)])) (first S none) := by
        rw [insertLoop, if_neg (Option.some_ne_none e), hreada, ok_bind, h.read, ok_bind,
          last_append]
        exact if_neg hlt
      rw [List.append_cons] at h hnew
      rw [hstep, henqueue, List.append_cons D (e, x) S,
        List.append_cons D (e, x) (enqueue deadline (a, c) S)]
      rcases ih h (by simp) hnew hfuel with hplace | ⟨hend, hplace⟩
      · exact .inl hplace
      · exact .inr ⟨hend, congrArg ((e, x) :: ·) hplace⟩

/-- `add_timer(timer, list_head)` puts a timer behind `D`, which ends with `list_head`. -/
theorem insert_spec (h : Chain m none (D ++ S) none) (hD : D ≠ [])
    (ha : m.get? a = some (node c p n)) (hnew : a ∉ addrs (D ++ S))
    (htail : l.tail = last none (D ++ S)) :
    ∃ m' l', l.insert m (some a) (last none D) = .ok (m', l') ∧ m.Keeps m' ∧ l'.head = l.head ∧
      Chain m' none (D ++ enqueue deadline (a, c) S) none ∧
      l'.tail = last none (D ++ enqueue deadline (a, c) S) := by
  have hread : ∃ u, m.read (last none D) = .ok u ∧ u.next = first S none := by
    obtain ⟨D, ⟨b, d⟩, rfl⟩ := (List.eq_nil_or_concat D).resolve_left hD
    rw [List.concat_eq_append] at h ⊢
    have hb := (chain_mid.1 (chain_append.1 h).1).2.1
    rw [last_append, last_cons, last_nil]
    exact ⟨_, Store.read_eq_ok.2 ⟨b, rfl, hb⟩, rfl⟩
  have hfuel : S.length ≤ m.fresh := by
    have hle := h.length_le
    rw [List.length_append] at hle
    omega
  obtain ⟨u, hread, hnext⟩ := hread
  rw [TimerList.insert, hread, ok_bind, hnext]
  rcases insertLoop_spec h hD ha hnew hfuel with
    ⟨m', prev, e, hloop, hk, hchain, hlast⟩ | ⟨hloop, hplace⟩
  · rw [hloop]
    exact ⟨m', l, rfl, hk, rfl, hchain, htail.trans hlast.symm⟩
  · -- the timer is put at the end
    have hne : D ++ S ≠ [] := List.append_ne_nil_of_left_ne_nil hD S
    rw [← List.append_nil (D ++ S)] at h hnew
    have hcut := h.beside ha hnew
    obtain ⟨m₁, h₁, hk₁, hcut⟩ := hcut.set_left hne (q := some a)
      (f := fun t => { t with next := some a }) fun _ _ _ => rfl
    obtain ⟨m₂, h₂, hk₂, hcut⟩ := hcut.set_beside
      (f := fun t => { t with prev := last none (D ++ S) }) rfl
    obtain ⟨m₃, h₃, hk₃, hcut⟩ := hcut.set_beside (f := fun t => { t with next := none }) rfl
    have hchain : Chain m₃ none (D ++ enqueue deadline (a, c) S) none := by
      rw [hplace, ← List.append_assoc]
      exact chain_append.2 ⟨hcut.left, hcut.beside, trivial⟩
    refine ⟨m₃, { l with tail := some a }, ?_, (hk₁.trans hk₂).trans hk₃, rfl, hchain, ?_⟩
    · rw [hloop, ok_bind]
      show (m.modify (last none (D ++ S)) (fun t => { t with next := some a }) >>= _) = _
      rw [h₁, ok_bind, h₂, ok_bind, h₃]
      rfl
    · rw [hplace, last_append, last_append, last_cons, last_nil]

theorem addTimer_spec (hr : Rep m l L) (ha : m.get? a = some (node c none none))
    (hnew : a ∉ addrs L) :
    ∃ m' l', l.addTimer m (some a) = .ok (m', l') ∧ m.Keeps m' ∧
      Rep m' l' (enqueue deadline (a, c) L) := by
  rw [TimerList.addTimer, if_neg (Option.some_ne_none a), hr.head]
  rcases L with _ | ⟨⟨e, x⟩, S⟩
  · exact ⟨m, _, rfl, .refl m, rfl, fun _ => rfl, ha, trivial⟩
  · have hreada : m.read (some a) = .ok (node c none none) := Store.read_eq_ok.2 ⟨a, rfl, ha⟩
    have hreade := hr.chain.read (D := [])
    have htail := hr.tail (List.cons_ne_nil _ _)
    rw [first_cons, if_neg (Option.some_ne_none e), hreada, ok_bind, hreade, ok_bind]
    show ∃ m' l', (if c.expire < x.expire then _ else _) = _ ∧ _
    by_cases hlt : c.expire < x.expire
    · have henqueue : enqueue deadline (a, c) ((e, x) :: S) = (a, c) :: (e, x) :: S :=
        enqueue_cons_of_lt hlt
      have hcut := hr.chain.beside (D := []) ha hnew
      obtain ⟨m₁, h₁, hk₁, hcut⟩ := hcut.set_beside
        (f := fun t => { t with next := some e }) rfl
      obtain ⟨m₂, h₂, hk₂, hcut⟩ := hcut.set_right (List.cons_ne_nil _ _) (q := some a)
        (f := fun t => { t with prev := some a }) fun _ _ _ => rfl
      rw [first_cons] at h₂
      rw [if_pos hlt, h₁, ok_bind, h₂, henqueue]
      exact ⟨m₂, _, rfl, hk₁.trans hk₂, rfl, fun _ => htail, hcut.beside, hcut.right⟩
    · have henqueue : enqueue deadline (a, c) ((e, x) :: S) =
          [(e, x)] ++ enqueue deadline (a, c) S := enqueue_cons_of_le (not_lt.1 hlt)
      obtain ⟨m', l', hinsert, hk, hhead, hchain, htail'⟩ :=
        insert_spec (l := l) (D := [(e, x)]) hr.chain (List.cons_ne_nil _ _) ha hnew htail
      rw [if_neg hlt, henqueue]
      refine ⟨m', l', hinsert, hk, ?_, fun _ => htail', hchain⟩
      rw [hhead, hr.head]
      rfl

theorem addNew_spec (hr : Rep m l L) (data : TimerData) :
    ∃ m' l', l.addTimer (m.alloc (utilTimer data)) (some m.fresh) = .ok (m', l') ∧
      m'.fresh = m.fresh + 1 ∧ m'.freed = m.freed ∧
      Rep m' l' (enqueue deadline (m.fresh, data) L) := by
  have hget : (m.alloc (utilTimer data)).get? m.fresh = some (node data none none) :=
    Store.get?_alloc_fresh
  have hnew : m.fresh ∉ addrs L := fun hmem => lt_irrefl _ (hr.chain.live hmem).lt_fresh
  obtain ⟨m', l', hadd, hk, hrep⟩ :=
    addTimer_spec ⟨hr.head, hr.tail, hr.chain.alloc⟩ hget hnew
  exact ⟨m', l', hadd, hk.fresh.trans Store.fresh_alloc, hk.freed, hrep⟩

/-- The timer at the head is put behind the next one or later. -/
theorem reinsert_head_spec {e : Addr} {x : TimerData} (hr : Rep m l ((a, c) :: (e, x) :: S)) :
    ∃ m' l', l.reinsert m (some a) = .ok (m', l') ∧ m.Keeps m' ∧
      Rep m' l' ([(e, x)] ++ enqueue deadline (a, c) S) := by
  have hcut := Chain.cut (D := []) hr.chain
  have htail := hr.tail (List.cons_ne_nil _ _)
  rw [last_cons, last_cons] at htail
  obtain ⟨m₁, h₁, hk₁, hcut⟩ := hcut.set_right (List.cons_ne_nil _ _) (q := none)
    (f := fun t => { t with prev := none }) fun _ _ _ => rfl
  obtain ⟨m₂, h₂, hk₂, hcut⟩ := hcut.set_beside (f := fun t => { t with next := none }) rfl
  obtain ⟨m', l', hinsert, hk, hhead, hchain, htail'⟩ :=
    insert_spec (l := { l with head := some e }) (D := [(e, x)]) hcut.right
      (List.cons_ne_nil _ _) hcut.beside hcut.right_notMem htail
  refine ⟨m', l', ?_, (hk₁.trans hk₂).trans hk, hhead, fun _ => htail', hchain⟩
  rw [TimerList.reinsert, hr.head, first_cons, if_pos rfl, hr.chain.read (D := []), ok_bind]
  show (m.modify (first ((e, x) :: S) none) (fun t => { t with prev := none }) >>= _) = _
  rw [h₁, ok_bind, h₂, ok_bind]
  exact hinsert

/-- A timer linked on both sides is put behind the next one or later. -/
theorem reinsert_mid_spec {b e : Addr} {d x : TimerData}
    (hr : Rep m l ((b, d) :: D ++ (a, c) :: (e, x) :: S)) :
    ∃ m' l', l.reinsert m (some a) = .ok (m', l') ∧ m.Keeps m' ∧
      Rep m' l' ((b, d) :: D ++ ([(e, x)] ++ enqueue deadline (a, c) S)) := by
  have hcut := hr.chain.cut
  have htail := hr.tail (List.cons_ne_nil _ _)
  rw [last_append, last_cons, last_cons] at htail
  have hab : a ≠ b := fun hab => hcut.left_notMem (by simp [hab])
  obtain ⟨m₁, h₁, hk₁, hcut₁⟩ := hcut.set_left (List.cons_ne_nil _ _)
    (q := first ((e, x) :: S) none)
    (f := fun t => { t with next := first ((e, x) :: S) none }) fun _ _ _ => rfl
  obtain ⟨m₂, h₂, hk₂, hcut₂⟩ := hcut₁.set_right (List.cons_ne_nil _ _)
    (q := last none ((b, d) :: D))
    (f := fun t => { t with prev := last none ((b, d) :: D) }) fun _ _ _ => rfl
  have hread₁ : m₁.read (some a) = _ := Store.read_eq_ok.2 ⟨a, rfl, hcut₁.beside⟩
  have hread₂ : m₂.read (some a) = _ := Store.read_eq_ok.2 ⟨a, rfl, hcut₂.beside⟩
  have hwithout := hcut₂.chain_without
  have hnew : a ∉ addrs ((b, d) :: D ++ (e, x) :: S) := by
    rw [addrs_append, List.mem_append]
    exact fun h => h.elim hcut.left_notMem hcut.right_notMem
  rw [List.append_cons] at hwithout hnew
  obtain ⟨m', l', hinsert, hk, hhead, hchain, htail'⟩ :=
    insert_spec (l := l) hwithout (by simp) hcut₂.beside hnew (by simpa using htail)
  refine ⟨m', l', ?_, (hk₁.trans hk₂).trans hk, ?_, ?_, ?_⟩
  · rw [TimerList.reinsert, hr.head, List.cons_append, first_cons,
      if_neg fun h => hab (Option.some.inj h), hr.chain.read, ok_bind]
    show (m.modify (last none ((b, d) :: D))
      (fun t => { t with next := first ((e, x) :: S) none }) >>= _) = _
    rw [h₁, ok_bind, hread₁, ok_bind]
    show (m₁.modify (first ((e, x) :: S) none)
      (fun t => { t with prev := last none ((b, d) :: D) }) >>= _) = _
    rw [h₂, ok_bind, hread₂, ok_bind]
    rw [last_append] at hinsert
    exact hinsert
  · rw [hhead, hr.head]
    rfl
  · rw [← List.append_assoc]
    exact fun _ => htail'
  · rwa [← List.append_assoc]

/-- A timer leaves its place and is put behind the next one or later. -/
theorem reinsert_spec {e : Addr} {x : TimerData} (hr : Rep m l (D ++ (a, c) :: (e, x) :: S))
    (hle : x.expire ≤ c.expire) :
    ∃ m' l', l.reinsert m (some a) = .ok (m', l') ∧ m.Keeps m' ∧
      Rep m' l' (D ++ enqueue deadline (a, c) ((e, x) :: S)) := by
  have henqueue : enqueue deadline (a, c) ((e, x) :: S) = [(e, x)] ++ enqueue deadline (a, c) S :=
    enqueue_cons_of_le hle
  rw [henqueue]
  rcases D with _ | ⟨⟨b, d⟩, D⟩
  · exact reinsert_head_spec hr
  · exact reinsert_mid_spec hr

/-- `adjust_timer` puts a timer whose deadline was put off at its new place. -/
theorem adjustTimer_spec (hr : Rep m l (D ++ (a, c) :: S)) :
    ∃ m' l', l.adjustTimer m (some a) = .ok (m', l') ∧ m.Keeps m' ∧
      Rep m' l' (D ++ enqueue deadline (a, c) S) := by
  rw [TimerList.adjustTimer, if_neg (Option.some_ne_none a), hr.chain.read, ok_bind]
  show ∃ m' l', (if first S none = none then _ else _) = _ ∧ _
  rcases S with _ | ⟨⟨e, x⟩, S⟩
  · exact ⟨m, l, rfl, .refl m, hr⟩
  · have hread : m.read (some e) = .ok (node x (some a) (first S none)) :=
      Store.read_eq_ok.2 ⟨e, rfl, (chain_mid.1 hr.chain).2.2.1⟩
    rw [first_cons, if_neg (Option.some_ne_none e)]
    show ∃ m' l', (m.read (some e) >>= fun u => if c.expire < u.expire then _ else _) = _ ∧ _
    rw [hread, ok_bind]
    show ∃ m' l', (if c.expire < x.expire then _ else _) = _ ∧ _
    by_cases hlt : c.expire < x.expire
    · have henqueue : enqueue deadline (a, c) ((e, x) :: S) = (a, c) :: (e, x) :: S :=
        enqueue_cons_of_lt hlt
      rw [if_pos hlt, henqueue]
      exact ⟨m, l, rfl, .refl m, hr⟩
    · rw [if_neg hlt]
      exact reinsert_spec hr (not_lt.1 hlt)

/-- The deadline of a timer is set and the timer is adjusted. -/
def TimerList.setDeadline (m : Store UtilTimer) (l : TimerList) (timer : Addr) (expire : ℤ) :
    Except Fault (Store UtilTimer × TimerList) := do
  let m ← m.modify (some timer) fun t => { t with expire }
  l.adjustTimer m (some timer)

theorem setDeadline_spec (hr : Rep m l (D ++ (a, c) :: S)) (expire : ℤ) :
    ∃ m' l', l.setDeadline m a expire = .ok (m', l') ∧ m.Keeps m' ∧
      Rep m' l' (D ++ enqueue deadline (a, { c with expire }) S) := by
  have hchain := hr.chain
  have hmodify : m.modify (some a) (fun t => { t with expire }) =
      .ok (m.set a (node { c with expire } (last none D) (first S none))) :=
    Store.modify_eq_ok.2 ⟨a, _, rfl, (chain_mid.1 hchain).2.1, rfl⟩
  have hrep : Rep (m.set a (node { c with expire } (last none D) (first S none))) l
      (D ++ (a, { c with expire }) :: S) := by
    refine ⟨?_, fun _ => ?_, hchain.set_content hchain.nodup⟩
    · rw [hr.head, first_append, first_append, first_cons, first_cons]
    · rw [hr.tail (by simp), last_append, last_append, last_cons, last_cons]
  obtain ⟨m', l', hadjust, hk, hrep'⟩ := adjustTimer_spec hrep
  refine ⟨m', l', ?_, Store.keeps_set.trans hk, hrep'⟩
  rw [TimerList.setDeadline, hmodify, ok_bind, hadjust]

/-- The end of a round of `tick` takes the timer at the head out of the list, whatever `tail` is. -/
theorem expire_spec (hr : Rep m l ((a, c) :: S)) :
    ∃ m' l', l.expire m (some a) = .ok (m', l') ∧ m'.fresh = m.fresh ∧
      m'.freed = m.freed ++ [a] ∧ l'.tail = l.tail ∧ Rep m' l' S := by
  have hcut := hr.chain.cut (D := [])
  rw [TimerList.expire, hr.chain.read (D := []), ok_bind]
  rcases S with _ | ⟨⟨e, x⟩, S⟩
  · have hfree := (Store.live_of_get? hcut.beside).free_eq
    refine ⟨_, { l with head := none }, ?_, Store.fresh_erase, Store.freed_erase, rfl, rfl, ?_,
      trivial⟩
    · show (m.free (some a) >>= _) = _
      rw [hfree]
      rfl
    · exact fun h => absurd rfl h
  · have htail := hr.tail (List.cons_ne_nil _ _)
    obtain ⟨m₁, h₁, hk₁, hcut⟩ := hcut.set_right (List.cons_ne_nil _ _) (q := none)
      (f := fun t => { t with prev := none }) fun _ _ _ => rfl
    have hfree := (Store.live_of_get? hcut.beside).free_eq
    refine ⟨_, { l with head := some e }, ?_, Store.fresh_erase.trans hk₁.fresh, ?_, rfl, rfl,
      fun _ => htail, hcut.right.erase hcut.right_notMem⟩
    · show (m.modify (first ((e, x) :: S) none) (fun t => { t with prev := none }) >>= _) = _
      rw [h₁, ok_bind]
      show (m₁.free (some a) >>= _) = _
      rw [hfree]
      rfl
    · rw [Store.freed_erase, hk₁.freed]

/-- The callback of a timer, if it is set. -/
def callOf? (e : Addr × TimerData) : Option Call :=
  e.2.cbFunc.map fun cb => ⟨e.1, cb, e.2.userData⟩

theorem callOf_node : callOf a (node c p n) =
    match callOf? (a, c) with
    | none => .error .nullPointer
    | some call => .ok call := by
  show callOf a { c with prev := p, next := n } = _
  rw [callOf, callOf?]
  cases c.cbFunc <;> rfl

theorem exists_callOf? {e : Addr × TimerData} (hset : e.2.cbFunc ≠ none) :
    ∃ call, callOf? e = some call := by
  obtain ⟨cb, hcb⟩ := Option.ne_none_iff_exists'.1 hset
  exact ⟨⟨e.1, cb, e.2.userData⟩, by rw [callOf?, hcb]; rfl⟩

theorem tickLoop_none {callback : Callback} {cur : ℤ} :
    tickLoop callback cur fuel none m l = .ok (m, l, []) := by
  cases fuel <;> rfl

section Round

variable {callback : Callback} {cur : ℤ}

theorem tickLoop_stop (hr : Rep m l ((a, c) :: S)) (hlater : cur < c.expire) :
    tickLoop callback cur fuel l.head m l = .ok (m, l, []) := by
  have hhead : l.head = some a := hr.head
  rcases fuel with _ | fuel
  · rfl
  · rw [hhead, tickLoop, hr.chain.read (D := []), ok_bind]
    exact if_pos hlater

/-- The loop of `tick` calls a timer that is due, which then leaves the list `S'` that its callback
has made of the list. -/
theorem tickLoop_fire (fuel : ℕ) {S' : List (Addr × TimerData)} {m₁ : Store UtilTimer}
    {l₁ : TimerList} {call : Call} (hr : Rep m l ((a, c) :: S)) (hdue : c.expire ≤ cur)
    (hcall : callOf? (a, c) = some call) (hback : callback call m l = .ok (m₁, l₁))
    (hr₁ : Rep m₁ l₁ ((a, c) :: S')) :
    ∃ m₂ l₂, m₂.fresh = m₁.fresh ∧ m₂.freed = m₁.freed ++ [a] ∧ l₂.tail = l₁.tail ∧
      Rep m₂ l₂ S' ∧ tickLoop callback cur (fuel + 1) l.head m l = (do
        let (m, l, later) ← tickLoop callback cur fuel l₂.head m₂ l₂
        pure (m, l, call :: later)) := by
  have hhead : l.head = some a := hr.head
  obtain ⟨m₂, l₂, hexpire, hfresh, hfreed, htail, hr₂⟩ := expire_spec hr₁
  refine ⟨m₂, l₂, hfresh, hfreed, htail, hr₂, ?_⟩
  rw [hhead, tickLoop, hr.chain.read (D := []), ok_bind]
  show (if cur < c.expire then _ else _) = _
  rw [if_neg (Int.not_lt.2 hdue), callOf_node, hcall]
  show (callback call m l >>= _) = _
  rw [hback, ok_bind]
  show (l₁.expire m₁ (some a) >>= _) = _
  rw [hexpire, ok_bind]

/-- The callback of a timer that is due is called whether it is set or not. -/
theorem tickLoop_null (hr : Rep m l ((a, c) :: S)) (hdue : c.expire ≤ cur)
    (hnull : c.cbFunc = none) :
    tickLoop callback cur (fuel + 1) l.head m l = .error .nullPointer := by
  have hhead : l.head = some a := hr.head
  have hcall : callOf? (a, c) = none := by rw [callOf?, hnull]; rfl
  rw [hhead, tickLoop, hr.chain.read (D := []), ok_bind]
  show (if cur < c.expire then _ else _) = _
  rw [if_neg (Int.not_lt.2 hdue), callOf_node, hcall]
  rfl

end Round

theorem split_of_due {cur : ℤ} (hdue : c.expire ≤ cur) :
    (((a, c) :: L).takeWhile fun e => deadline e ≤ cur) =
        (a, c) :: L.takeWhile (fun e => deadline e ≤ cur) ∧
      (((a, c) :: L).dropWhile fun e => deadline e ≤ cur) =
        L.dropWhile fun e => deadline e ≤ cur :=
  ⟨List.takeWhile_cons_of_pos (decide_eq_true hdue),
    List.dropWhile_cons_of_pos (decide_eq_true hdue)⟩

theorem split_of_later {cur : ℤ} (hlater : cur < c.expire) :
    (((a, c) :: L).takeWhile fun e => deadline e ≤ cur) = [] ∧
      (((a, c) :: L).dropWhile fun e => deadline e ≤ cur) = (a, c) :: L := by
  have hneg : ¬ decide (deadline (a, c) ≤ cur) = true :=
    fun h => Int.not_le.2 hlater (of_decide_eq_true h)
  exact ⟨List.takeWhile_cons_of_neg hneg, List.dropWhile_cons_of_neg hneg⟩

/-- The rounds of a tick take out, and call, the timers in front that are due. -/
theorem tickLoop_spec (cur : ℤ) (hr : Rep m l L)
    (hset : ∀ e ∈ L.takeWhile fun e => deadline e ≤ cur, e.2.cbFunc ≠ none)
    (hfuel : L.length ≤ fuel) :
    ∃ m' l', tickLoop quiet cur fuel l.head m l =
        .ok (m', l', (L.takeWhile fun e => deadline e ≤ cur).filterMap callOf?) ∧
      m'.fresh = m.fresh ∧
      m'.freed = m.freed ++ addrs (L.takeWhile fun e => deadline e ≤ cur) ∧ l'.tail = l.tail ∧
      Rep m' l' (L.dropWhile fun e => deadline e ≤ cur) := by
  induction L generalizing m l fuel with
  | nil =>
    rw [hr.head]
    exact ⟨m, l, tickLoop_none, rfl, (List.append_nil _).symm, rfl, hr⟩
  | cons e L ih =>
    obtain ⟨a, c⟩ := e
    obtain ⟨fuel, rfl⟩ : ∃ k, fuel = k + 1 := Nat.exists_eq_add_one.2 (by simp at hfuel; omega)
    have hfuel : L.length ≤ fuel := by simpa using hfuel
    by_cases hdue : c.expire ≤ cur
    · -- the timer fires
      obtain ⟨htake, hdrop⟩ := split_of_due (a := a) (L := L) hdue
      rw [htake] at hset ⊢
      obtain ⟨call, hcall⟩ := exists_callOf? (hset (a, c) List.mem_cons_self)
      obtain ⟨m₁, l₁, hfresh₁, hfreed₁, htail₁, hr₁, hround⟩ :=
        tickLoop_fire fuel hr hdue hcall (rfl : quiet call m l = _) hr
      obtain ⟨m', l', hloop, hfresh, hfreed, htail, hrep⟩ :=
        ih hr₁ (fun e he => hset e (List.mem_cons_of_mem _ he)) hfuel
      rw [hdrop, List.filterMap_cons_some hcall]
      refine ⟨m', l', ?_, hfresh.trans hfresh₁, ?_, htail.trans htail₁, hrep⟩
      · rw [hround, hloop]
        rfl
      · rw [hfreed, hfreed₁, List.append_assoc]
        rfl
    · -- nothing is due any more
      obtain ⟨htake, hdrop⟩ := split_of_later (a := a) (L := L) (Int.not_le.1 hdue)
      rw [htake, hdrop, tickLoop_stop hr (Int.not_le.1 hdue)]
      exact ⟨m, l, rfl, rfl, (List.append_nil _).symm, rfl, hr⟩

/-- When the loop does not fail, the timers in front that are due have callbacks. -/
theorem tickLoop_set {cur : ℤ} {r : Store UtilTimer × TimerList × List Call} (hr : Rep m l L)
    (hfuel : L.length ≤ fuel) (h : tickLoop quiet cur fuel l.head m l = .ok r) :
    ∀ e ∈ L.takeWhile fun e => deadline e ≤ cur, e.2.cbFunc ≠ none := by
  induction L generalizing m l fuel r with
  | nil => exact fun e he => absurd he List.not_mem_nil
  | cons e L ih =>
    obtain ⟨a, c⟩ := e
    obtain ⟨fuel, rfl⟩ : ∃ k, fuel = k + 1 := Nat.exists_eq_add_one.2 (by simp at hfuel; omega)
    have hfuel : L.length ≤ fuel := by simpa using hfuel
    by_cases hdue : c.expire ≤ cur
    · have hset : c.cbFunc ≠ none := by
        intro hnull
        cases (tickLoop_null hr hdue hnull).symm.trans h
      obtain ⟨call, hcall⟩ := exists_callOf? (e := (a, c)) hset
      obtain ⟨m₁, l₁, -, -, -, hr₁, hround⟩ :=
        tickLoop_fire fuel hr hdue hcall (rfl : quiet call m l = _) hr
      rw [hround] at h
      obtain ⟨r', hloop, -⟩ := bind_eq_ok.1 h
      rw [(split_of_due hdue).1]
      intro e he
      rcases List.mem_cons.1 he with rfl | he
      · exact hset
      · exact ih hr₁ hfuel hloop e he
    · rw [(split_of_later (Int.not_le.1 hdue)).1]
      exact fun e he => absurd he List.not_mem_nil

/-- A tick of any list takes out, and calls, the timers in front that are due. -/
theorem tick_takes (cur : ℤ) (hr : Rep m l L)
    (hset : ∀ e ∈ L.takeWhile fun e => deadline e ≤ cur, e.2.cbFunc ≠ none) :
    ∃ m' l', l.tick m cur =
        .ok (m', l', (L.takeWhile fun e => deadline e ≤ cur).filterMap callOf?) ∧
      m'.fresh = m.fresh ∧ m'.freed = m.freed ++ addrs (L.takeWhile fun e => deadline e ≤ cur) ∧
      l'.tail = l.tail ∧ Rep m' l' (L.dropWhile fun e => deadline e ≤ cur) := by
  obtain ⟨m', l', hloop, hrest⟩ := tickLoop_spec cur hr hset hr.chain.length_le
  refine ⟨m', l', ?_, hrest⟩
  rw [TimerList.tick, TimerList.tickFor]
  split_ifs with hhead
  · rw [hhead, tickLoop_none] at hloop
    exact hloop
  · exact hloop

/-- **A tick.**  In a sorted list the timers that are due are called and freed, in the order of
their deadlines, and the others stay. -/
theorem tick_spec (cur : ℤ) (hr : Rep m l L) (hsorted : Sorted deadline L)
    (hset : ∀ e ∈ L, e.2.cbFunc ≠ none) :
    ∃ m' l', l.tick m cur =
        .ok (m', l', (L.filter fun e => deadline e ≤ cur).filterMap callOf?) ∧
      m'.fresh = m.fresh ∧ m'.freed = m.freed ++ addrs (L.filter fun e => deadline e ≤ cur) ∧
      l'.tail = l.tail ∧ Rep m' l' (L.filter fun e => cur < deadline e) := by
  rw [← hsorted.takeWhile_eq, ← hsorted.dropWhile_eq]
  exact tick_takes cur hr fun e he => hset e ((List.takeWhile_sublist _).subset he)

end SortedList

end LinuxServer
