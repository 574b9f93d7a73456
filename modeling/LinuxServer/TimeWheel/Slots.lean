import LinuxServer.TimeWheel.Basic
import Mathlib.Logic.Function.Basic

/-!
# The lists of the slots

* `Rep m h L`: in the wheel `h` slot `i` has the timers `L i`, linked both ways.

`addTimer_spec`, `deleteTimer_spec`, `expire_spec`: a timer enters its slot at the head, or leaves
it from any place.  `exec_add`, `exec_set`, `exec_delete` say this of the calls of a program.
-/

namespace LinuxServer

namespace TimeWheel

open Memory

instance : Node TwTimer TimerData where
  node c p n := { c with next := n, prev := p }
  prev t := t.prev
  prev_node _ _ _ := rfl

open Node

variable {m m' : Store TwTimer} {h h' : Wheel} {L : ℕ → List (Addr × TimerData)} {i j : ℕ}
  {a : Addr} {c : TimerData} {D S X : List (Addr × TimerData)} {p q : Ptr}

/-- Slot `i` of the wheel has the timers `L i`. -/
structure Rep (m : Store TwTimer) (h : Wheel) (L : ℕ → List (Addr × TimerData)) : Prop where
  length : h.slots.length = N
  cur : h.curSlot < N
  head : ∀ i < N, h.slots[i]? = some (first (L i) none)
  chain : ∀ i < N, Chain m none (L i) none
  slot : ∀ i < N, ∀ e ∈ L i, e.2.timeSlot = i ∧ 0 ≤ e.2.rotation

theorem Rep.get? (hr : Rep m h L) (hi : i < N) (ha : (a, c) ∈ L i) :
    ∃ p n, m.get? a = some (node c p n) := by
  obtain ⟨D, S, hL⟩ := List.append_of_mem ha
  exact ⟨_, _, (chain_mid.1 (hL ▸ hr.chain i hi)).2.1⟩

theorem Rep.slot_inj (hr : Rep m h L) (hi : i < N) (hj : j < N) (hai : a ∈ addrs (L i))
    (haj : a ∈ addrs (L j)) : i = j := by
  obtain ⟨c, hc⟩ := mem_addrs.1 hai
  obtain ⟨c', hc'⟩ := mem_addrs.1 haj
  obtain ⟨_, _, hget⟩ := hr.get? hi hc
  obtain ⟨_, _, hget'⟩ := hr.get? hj hc'
  have hslot : c.timeSlot = c'.timeSlot :=
    congrArg (fun t => t.timeSlot) (Option.some.inj (hget.symm.trans hget'))
  rw [← (hr.slot i hi _ hc).1, ← (hr.slot j hj _ hc').1]
  exact hslot

/-- The wheel determines the lists. -/
theorem Rep.unique {L' : ℕ → List (Addr × TimerData)} (hr : Rep m h L) (hr' : Rep m h L')
    (hi : i < N) : L i = L' i := by
  refine (hr.chain i hi).unique (fun c c' p n n' h => ?_) (hr'.chain i hi)
    (Option.some.inj ((hr.head i hi).symm.trans (hr'.head i hi)))
  injection h with hc hn _
  exact ⟨hc, hn⟩

theorem rep_init : Rep .empty timeWheel fun _ => [] where
  length := List.length_replicate
  cur := Nat.succ_pos _
  head i hi := by
    rw [timeWheel, List.getElem?_replicate, if_pos hi]
    rfl
  chain _ _ := trivial
  slot _ _ _ he := absurd he List.not_mem_nil

theorem Rep.update (hr : Rep m h L) (hi : i < N) (hslots : h'.slots = h.slots.set i (first X none))
    (hcur : h'.curSlot = h.curSlot) (hX : Chain m' none X none)
    (hslot : ∀ e ∈ X, e.2.timeSlot = i ∧ 0 ≤ e.2.rotation)
    (hframe : ∀ a, a ∉ addrs (L i) → m.Live a → m'.get? a = m.get? a) :
    Rep m' h' (Function.update L i X) where
  length := by rw [hslots, List.length_set, hr.length]
  cur := hcur ▸ hr.cur
  head j hj := by
    rw [hslots]
    rcases eq_or_ne j i with rfl | hne
    · rw [List.getElem?_set_self (hr.length ▸ hj), Function.update_self]
    · rw [List.getElem?_set_ne hne.symm, Function.update_of_ne hne, hr.head j hj]
  chain j hj := by
    rcases eq_or_ne j i with rfl | hne
    · rwa [Function.update_self]
    · rw [Function.update_of_ne hne]
      refine (hr.chain j hj).congr fun a ha => hframe a (fun hai => ?_) ((hr.chain j hj).live ha)
      exact hne (hr.slot_inj hj hi ha hai)
  slot j hj := by
    rcases eq_or_ne j i with rfl | hne
    · rwa [Function.update_self]
    · rw [Function.update_of_ne hne]
      exact hr.slot j hj

theorem Rep.set_head (hr : Rep m h L) (hi : i < N) (hX : first X none = first (L i) none) :
    h.slots = h.slots.set i (first X none) := by
  obtain ⟨hlt, hget⟩ := List.getElem?_eq_some_iff.1 (hr.head i hi)
  rw [hX, ← hget, List.set_getElem_self]

/-- An assignment to a timer that leaves the slot and the links as they are. -/
theorem Rep.modify (hr : Rep m h L) (hi : i < N) (c' : TimerData) (f : TwTimer → TwTimer)
    (hL : L i = D ++ (a, c) :: S) (hc : c'.timeSlot = c.timeSlot)
    (hrot : 0 ≤ c.rotation → 0 ≤ c'.rotation)
    (hf : ∀ p n, f (node c p n) = node c' p n) :
    ∃ m', m.modify (some a) f = .ok m' ∧ m'.fresh = m.fresh ∧ m'.freed = m.freed ∧
      Rep m' h (Function.update L i (D ++ (a, c') :: S)) := by
  have hchain := hL ▸ hr.chain i hi
  have hslots := hr.set_head (X := D ++ (a, c') :: S) hi (by rw [hL]; simp)
  have hmodify : m.modify (some a) f = .ok (m.set a (node c' (last none D) (first S none))) :=
    Store.modify_eq_ok.2 ⟨a, _, rfl, (chain_mid.1 hchain).2.1, by rw [hf]⟩
  refine ⟨_, hmodify, Store.fresh_set, Store.freed_set, ?_⟩
  refine hr.update hi hslots rfl (hchain.set_content hchain.nodup) (fun e he => ?_) fun b hb _ => ?_
  · have hslot := hr.slot i hi
    rw [hL] at hslot
    simp only [List.mem_append, List.mem_cons] at he hslot
    rcases he with he | rfl | he
    · exact hslot e (.inl he)
    · obtain ⟨hts, hpos⟩ := hslot _ (.inr (.inl rfl))
      exact ⟨hc.trans hts, hrot hpos⟩
    · exact hslot e (.inr (.inr he))
  · rw [hL] at hb
    exact Store.get?_set_of_ne fun h => hb (by simp [h])

/-! ### The methods -/

theorem setPrev_eq (hS : Chain m p S none) :
    setPrev m (first S none) q = .ok (relinkFirst m S none q) := by
  rcases S with _ | ⟨e, S⟩
  · rfl
  · exact hS.modify_first (List.cons_ne_nil _ _) fun _ _ _ => rfl

/-- The slot in which `add_timer` puts a timer. -/
def Wheel.slotFor (h : Wheel) (timeout : ℤ) : ℕ := (h.curSlot + ticksOf timeout % N) % N

/-- What `add_timer` writes into a timer. -/
def Wheel.dataFor (h : Wheel) (timeout : ℤ) : TimerData :=
  ⟨(ticksOf timeout / N : ℕ), h.slotFor timeout, none, none⟩

theorem slotFor_lt (h : Wheel) (timeout : ℤ) : h.slotFor timeout < N :=
  Nat.mod_lt _ (Nat.succ_pos _)

theorem addTimer_spec {timeout : ℤ} (hr : Rep m h L) (ht : 0 ≤ timeout) :
    ∃ m' h', h.addTimer m timeout = .ok (some m.fresh, m', h') ∧ h'.curSlot = h.curSlot ∧
      m'.fresh = m.fresh + 1 ∧ m'.freed = m.freed ∧
      Rep m' h' (Function.update L (h.slotFor timeout)
        ((m.fresh, h.dataFor timeout) :: L (h.slotFor timeout))) := by
  set i := h.slotFor timeout
  set c := h.dataFor timeout
  have hi : i < N := slotFor_lt h timeout
  have hts : (h.curSlot + ticksOf timeout % N) % N = i := rfl
  have hneg : ¬ timeout < 0 := Int.not_lt.2 ht
  have hload : load h.slots i = .ok (first (L i) none) := load_eq_ok.2 (hr.head i hi)
  have hstore : store h.slots i (some m.fresh) = .ok (h.slots.set i (some m.fresh)) :=
    store_eq_ok.2 ⟨hr.length ▸ hi, rfl⟩
  have hnew : m.fresh ∉ addrs (L i) := fun hmem => lt_irrefl _ ((hr.chain i hi).live hmem).lt_fresh
  have hslot : ∀ e ∈ (m.fresh, c) :: L i, e.2.timeSlot = i ∧ 0 ≤ e.2.rotation := by
    rintro e (_ | ⟨_, he⟩)
    · exact ⟨rfl, Int.natCast_nonneg _⟩
    · exact hr.slot i hi e he
  obtain ⟨m₁, hm₁⟩ : ∃ m₁, m₁ = m.alloc (twTimer (ticksOf timeout / N : ℕ) i) := ⟨_, rfl⟩
  have hchain : Chain m₁ none (L i) none := hm₁ ▸ (hr.chain i hi).alloc
  have hget : m₁.get? m.fresh = some (node c none none) := hm₁ ▸ Store.get?_alloc_fresh
  have hold : ∀ a, m.Live a → m₁.get? a = m.get? a :=
    fun a ha => hm₁ ▸ Store.get?_alloc_of_ne ha.lt_fresh.ne
  have hfresh : m₁.fresh = m.fresh + 1 := hm₁ ▸ Store.fresh_alloc
  have hfreed : m₁.freed = m.freed := hm₁ ▸ Store.freed_alloc
  simp only [Wheel.addTimer, hneg, ↓reduceIte, hts, hload, ok_bind, hstore, pure_eq_ok, ← hm₁]
  rcases hLi : L i with _ | ⟨⟨b, d⟩, S⟩
  · refine ⟨m₁, _, rfl, rfl, hfresh, hfreed, ?_⟩
    exact hr.update hi rfl rfl ⟨hget, trivial⟩ (hLi ▸ hslot) fun a _ ha => hold a ha
  · rw [hLi] at hchain hnew
    have hsingle : Chain m₁ none [(m.fresh, c)] none := ⟨hget, trivial⟩
    have hnext : m₁.modify (some m.fresh) (fun t => { t with next := some b }) =
        .ok (m₁.set m.fresh (node c none (some b))) :=
      hsingle.modify_last (List.cons_ne_nil _ _) fun _ _ _ => rfl
    have hprev : (m₁.set m.fresh (node c none (some b))).modify (some b)
        (fun t => { t with prev := some m.fresh }) =
          .ok ((m₁.set m.fresh (node c none (some b))).set b
            (node d (some m.fresh) (first S none))) :=
      (hchain.set hnew).modify_first (List.cons_ne_nil _ _) fun _ _ _ => rfl
    have hjoin := hsingle.join hchain (List.nodup_cons.2 ⟨hnew, hchain.nodup⟩)
    simp only [first_cons, reduceCtorEq, ↓reduceIte, hnext, hprev, ok_bind]
    refine ⟨_, _, rfl, rfl, ?_, ?_, hr.update hi rfl rfl hjoin (hLi ▸ hslot) fun a ha hlive => ?_⟩
    · rw [Store.fresh_set, Store.fresh_set, hfresh]
    · rw [Store.freed_set, Store.freed_set, hfreed]
    · have hab : a ≠ b := fun hab => ha (by simp [hLi, hab])
      rw [Store.get?_set_of_ne hab, Store.get?_set_of_ne hlive.lt_fresh.ne, hold a hlive]

theorem unlink_spec (hc : Chain m none (D ++ (a, c) :: S) none) (hD : D ≠ []) :
    ∃ m', unlink m (some a) = .ok m' ∧ Chain m' none (D ++ S) none ∧
      (∀ b, b ∉ addrs D → b ∉ addrs S → m'.get? b = m.get? b) ∧
      m'.fresh = m.fresh ∧ m'.freed = m.freed := by
  obtain ⟨haD, -, hnodup⟩ := hc.notMem
  obtain ⟨hD', ha, hS⟩ := chain_mid.1 hc
  have hread : (relinkLast m none D (first S none)).read (some a) =
      .ok (node c (last none D) (first S none)) :=
    Store.read_eq_ok.2 ⟨a, rfl, (get?_relinkLast haD).trans ha⟩
  have hS' : Chain (relinkLast m none D (first S none)) (some a) S none := by
    rw [addrs_append, List.nodup_append'] at hnodup
    exact hS.congr fun b hb => get?_relinkLast fun hbD => hnodup.2.2 hbD hb
  refine ⟨_, ?_, hD'.join hS hnodup, fun b hbD hbS => ?_, by simp, by simp⟩
  · rw [unlink, hc.read, ok_bind]
    show (m.modify (last none D) (fun t => { t with next := first S none }) >>= fun m => do
      let t ← m.read (some a)
      setPrev m t.next t.prev) = _
    rw [hD'.modify_last hD fun _ _ _ => rfl, ok_bind, hread, ok_bind]
    exact setPrev_eq hS'
  · rw [get?_relinkFirst hbS, get?_relinkLast hbD]

theorem Rep.remove (hr : Rep m h L) (hi : i < N) (hL : L i = D ++ (a, c) :: S)
    (hslots : h'.slots = h.slots.set i (first (D ++ S) none)) (hcur : h'.curSlot = h.curSlot)
    (hchain : Chain m' none (D ++ S) none)
    (hframe : ∀ b ≠ a, b ∉ addrs D → b ∉ addrs S → m'.get? b = m.get? b) :
    Rep m' h' (Function.update L i (D ++ S)) := by
  refine hr.update hi hslots hcur hchain (fun e he => hr.slot i hi e ?_) fun b hb _ => ?_
  · rw [hL]
    rcases List.mem_append.1 he with he | he
    · exact List.mem_append_left _ he
    · exact List.mem_append_right _ (List.mem_cons_of_mem _ he)
  · rw [hL, addrs_append, addrs_cons, List.mem_append, List.mem_cons, not_or, not_or] at hb
    exact hframe b hb.2.1 hb.1 hb.2.2

theorem deleteTimer_spec (hr : Rep m h L) (hi : i < N) (hL : L i = D ++ (a, c) :: S) :
    ∃ m' h', h.deleteTimer m (some a) = .ok (m', h') ∧ h'.curSlot = h.curSlot ∧
      m'.fresh = m.fresh ∧ m'.freed = m.freed ++ [a] ∧ Rep m' h' (Function.update L i (D ++ S)) := by
  have hchain := hL ▸ hr.chain i hi
  obtain ⟨haD, haS, hnodup⟩ := hchain.notMem
  have hlive : m.Live a := hchain.live (by simp)
  obtain rfl : c.timeSlot = i :=
    (hr.slot i hi (a, c) (hL ▸ List.mem_append_right _ List.mem_cons_self)).1
  have hload : load h.slots c.timeSlot = .ok (first (L c.timeSlot) none) :=
    load_eq_ok.2 (hr.head _ hi)
  rw [Wheel.deleteTimer, hchain.read, ok_bind]
  show ∃ m' h', (load h.slots c.timeSlot >>= fun head => _) = _ ∧ _
  rw [hload, ok_bind, hL, first_append, first_cons]
  rcases D with _ | ⟨⟨b, d⟩, D⟩
  · have hstore : store h.slots c.timeSlot (first S none) =
        .ok (h.slots.set c.timeSlot (first S none)) :=
      store_eq_ok.2 ⟨hr.length ▸ hi, rfl⟩
    have hS := (hchain.2.relinkFirst (q := none) hnodup).erase haS
    have hfree : (relinkFirst m S none none).free (some a) = _ :=
      Store.Live.free_eq (by rwa [Store.Live, get?_relinkFirst haS])
    rw [first_nil, if_pos rfl, hchain.read (D := []), ok_bind]
    show ∃ m' h', (store h.slots c.timeSlot (first S none) >>= fun slots =>
      setPrev m (first S none) none >>= fun m => m.free (some a) >>= fun m =>
        .ok (m, { h with slots })) = _ ∧ _
    rw [hstore, ok_bind, setPrev_eq hchain.2, ok_bind, hfree, ok_bind]
    refine ⟨_, _, rfl, rfl, by simp, by simp, hr.remove hi hL rfl rfl hS fun b hb _ hbS => ?_⟩
    rw [Store.get?_erase_of_ne hb, get?_relinkFirst hbS]
  · have hab : a ≠ b := fun hab => haD (hab ▸ List.mem_cons_self)
    obtain ⟨m', hunlink, hX, hframe, hfresh, hfreed⟩ := unlink_spec hchain (List.cons_ne_nil _ _)
    have hfree : m'.free (some a) = _ :=
      Store.Live.free_eq (by rwa [Store.Live, hframe a haD haS])
    have hhead : first ((b, d) :: D ++ S) none = first (L c.timeSlot) none := by rw [hL]; rfl
    rw [first_cons, if_neg fun h => hab (Option.some.inj h), hunlink, ok_bind, hfree, ok_bind]
    refine ⟨_, _, rfl, rfl, by simp [hfresh], by simp [hfreed],
      hr.remove hi hL (hr.set_head hi hhead) rfl (hX.erase ?_) fun b hb hbD hbS => ?_⟩
    · rw [addrs_append]
      exact fun h => (List.mem_append.1 h).elim haD haS
    · rw [Store.get?_erase_of_ne hb, hframe b hbD hbS]

/-- The end of a round of `tick` takes the timer out of its slot and goes on with the next. -/
theorem expire_spec (hr : Rep m h L) (hL : L h.curSlot = D ++ (a, c) :: S) :
    ∃ m' h', h.expire m (some a) = .ok (first S none, m', h') ∧ h'.curSlot = h.curSlot ∧
      m'.fresh = m.fresh ∧ m'.freed = m.freed ++ [a] ∧
      Rep m' h' (Function.update L h.curSlot (D ++ S)) := by
  have hchain := hL ▸ hr.chain _ hr.cur
  obtain ⟨haD, haS, hnodup⟩ := hchain.notMem
  have hlive : m.Live a := hchain.live (by simp)
  have hload : load h.slots h.curSlot = .ok (first (L h.curSlot) none) :=
    load_eq_ok.2 (hr.head _ hr.cur)
  rw [Wheel.expire, hload, ok_bind, hL, first_append, first_cons]
  rcases D with _ | ⟨⟨b, d⟩, D⟩
  · have hstore : store h.slots h.curSlot (first S none) =
        .ok (h.slots.set h.curSlot (first S none)) :=
      store_eq_ok.2 ⟨hr.length ▸ hr.cur, rfl⟩
    have hS : Chain (m.erase a) (some a) S none := hchain.2.erase haS
    rw [first_nil, if_pos rfl, hchain.read (D := []), ok_bind]
    show ∃ m' h', (store h.slots h.curSlot (first S none) >>= fun slots =>
      m.free (some a) >>= fun m => setPrev m (first S none) none >>= fun m =>
        .ok (first S none, m, { h with slots })) = _ ∧ _
    rw [hstore, ok_bind, hlive.free_eq, ok_bind, setPrev_eq hS, ok_bind]
    refine ⟨_, _, rfl, rfl, by simp, by simp,
      hr.remove hr.cur hL rfl rfl (hS.relinkFirst hnodup) fun b hb _ hbS => ?_⟩
    rw [get?_relinkFirst hbS, Store.get?_erase_of_ne hb]
  · have hab : a ≠ b := fun hab => haD (hab ▸ List.mem_cons_self)
    obtain ⟨m', hunlink, hX, hframe, hfresh, hfreed⟩ := unlink_spec hchain (List.cons_ne_nil _ _)
    have hget : m'.get? a = some (node c _ _) := (hframe a haD haS).trans (chain_mid.1 hchain).2.1
    have hread : m'.read (some a) = _ := Store.read_eq_ok.2 ⟨a, rfl, hget⟩
    have hhead : first ((b, d) :: D ++ S) none = first (L h.curSlot) none := by rw [hL]; rfl
    rw [first_cons, if_neg fun h => hab (Option.some.inj h), hunlink, ok_bind, hread, ok_bind,
      (Store.live_of_get? hget).free_eq, ok_bind]
    refine ⟨_, _, rfl, rfl, by simp [hfresh], by simp [hfreed],
      hr.remove hr.cur hL (hr.set_head hr.cur hhead) rfl (hX.erase ?_) fun b hb hbD hbS => ?_⟩
    · rw [addrs_append]
      exact fun h => (List.mem_append.1 h).elim haD haS
    · rw [Store.get?_erase_of_ne hb, hframe b hbD hbS]

/-! ### The calls of a program -/

variable {w : World}

theorem exec_add {timeout : ℤ} (hr : Rep w.timers w.wheel L) (ht : 0 ≤ timeout) :
    ∃ m wheel, exec w (.add timeout) =
        .ok { w with timers := m, wheel, added := w.added ++ [w.timers.fresh] } ∧
      wheel.curSlot = w.wheel.curSlot ∧ m.fresh = w.timers.fresh + 1 ∧ m.freed = w.timers.freed ∧
      Rep m wheel (Function.update L (w.wheel.slotFor timeout)
        ((w.timers.fresh, w.wheel.dataFor timeout) :: L (w.wheel.slotFor timeout))) := by
  obtain ⟨m, wheel, hadd, hrest⟩ := addTimer_spec hr ht
  refine ⟨m, wheel, ?_, hrest⟩
  rw [exec, hadd]
  rfl

theorem exec_set {cb : ℕ} {data : Ptr} (hr : Rep w.timers w.wheel L) (hi : i < N)
    (hL : L i = D ++ (a, c) :: S) :
    ∃ m, exec w (.set a cb data) = .ok { w with timers := m } ∧ m.fresh = w.timers.fresh ∧
      m.freed = w.timers.freed ∧ Rep m w.wheel
        (Function.update L i (D ++ (a, { c with cbFunc := some cb, userData := data }) :: S)) := by
  obtain ⟨m, hmodify, hrest⟩ := hr.modify hi { c with cbFunc := some cb, userData := data }
    (fun t => { t with cbFunc := some cb, userData := data }) hL rfl id
    fun _ _ => rfl
  refine ⟨m, ?_, hrest⟩
  rw [exec, hmodify]
  rfl

theorem exec_delete (hr : Rep w.timers w.wheel L) (hi : i < N) (hL : L i = D ++ (a, c) :: S) :
    ∃ m wheel, exec w (.delete (some a)) =
        .ok { w with timers := m, wheel, deleted := w.deleted ++ [a] } ∧
      wheel.curSlot = w.wheel.curSlot ∧ m.fresh = w.timers.fresh ∧
      m.freed = w.timers.freed ++ [a] ∧ Rep m wheel (Function.update L i (D ++ S)) := by
  obtain ⟨m, wheel, hdelete, hrest⟩ := deleteTimer_spec hr hi hL
  refine ⟨m, wheel, ?_, hrest⟩
  rw [exec, hdelete]
  rfl

end TimeWheel

end LinuxServer
