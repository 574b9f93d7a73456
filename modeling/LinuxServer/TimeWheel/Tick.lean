import LinuxServer.TimeWheel.Slots

/-!
# What a tick does to the lists

* `survivors S`, `expired S`: the timers of the current slot that stay, with one rotation less, and
  those that leave.
* `callsOf S`: the callbacks of the timers that leave.
* `entered h timers i`: the timers that callbacks add to slot `i`.

`tick_adding_spec`: what a tick does to a wheel with the lists `L`.
-/

namespace LinuxServer

namespace TimeWheel

open Memory Node

variable {m m' : Store TwTimer} {h h' : Wheel} {L : ℕ → List (Addr × TimerData)}
  {D S : List (Addr × TimerData)} {e : Addr × TimerData} {fuel : ℕ}

/-- The timers that stay in the slot, with one rotation less. -/
def survivors (S : List (Addr × TimerData)) : List (Addr × TimerData) :=
  S.filterMap fun e =>
    if e.2.rotation > 0 then some (e.1, { e.2 with rotation := e.2.rotation - 1 }) else none

/-- The timers that leave the slot. -/
def expired (S : List (Addr × TimerData)) : List (Addr × TimerData) :=
  S.filter fun e => ¬ e.2.rotation > 0

/-- The callback of a timer, if it is set. -/
def callOf? (e : Addr × TimerData) : Option Call :=
  e.2.cbFunc.map fun cb => ⟨e.1, cb, e.2.userData⟩

/-- The callbacks of the timers that leave the slot. -/
def callsOf (S : List (Addr × TimerData)) : List Call := (expired S).filterMap callOf?

/-- The callbacks of the timers that leave the slot are set. -/
def Ready (S : List (Addr × TimerData)) : Prop := ∀ e ∈ expired S, e.2.cbFunc ≠ none

theorem survivors_cons_of_pos (he : e.2.rotation > 0) :
    survivors (e :: S) = (e.1, { e.2 with rotation := e.2.rotation - 1 }) :: survivors S :=
  List.filterMap_cons_some (if_pos he)

theorem survivors_cons_of_not (he : ¬ e.2.rotation > 0) : survivors (e :: S) = survivors S :=
  List.filterMap_cons_none (if_neg he)

theorem expired_cons_of_pos (he : e.2.rotation > 0) : expired (e :: S) = expired S :=
  List.filter_cons_of_neg (by simpa using he)

theorem expired_cons_of_not (he : ¬ e.2.rotation > 0) : expired (e :: S) = e :: expired S :=
  List.filter_cons_of_pos (by simpa using he)

theorem Ready.tail (h : Ready (e :: S)) : Ready S := fun e' he' => h e' <| by
  by_cases he : e.2.rotation > 0
  · rwa [expired_cons_of_pos he]
  · rw [expired_cons_of_not he]
    exact List.mem_cons_of_mem _ he'

theorem callsOf_cons_of_not {a : Addr} {c : TimerData} {cb : ℕ} (hrot : ¬ c.rotation > 0)
    (hcb : c.cbFunc = some cb) : callsOf ((a, c) :: S) = ⟨a, cb, c.userData⟩ :: callsOf S := by
  rw [callsOf, expired_cons_of_not hrot]
  exact List.filterMap_cons_some (by simp [callOf?, hcb])

theorem callOf_eq {a : Addr} {t : TwTimer} {cb : ℕ} (h : t.cbFunc = some cb) :
    callOf a t = .ok ⟨a, cb, t.userData⟩ := by
  rw [callOf, h]
  rfl

/-! ### Callbacks that add timers -/

/-- What a request leaves in a timer. -/
def Wheel.dataOf (h : Wheel) (r : Request) : TimerData :=
  { h.dataFor r.timeout with
    cbFunc := some r.cbFunc
    userData := r.userData }

/-- The timers that enter slot `i`: a later one stands before an earlier one. -/
def entered (h : Wheel) (timers : List (Addr × Request)) (i : ℕ) : List (Addr × TimerData) :=
  ((timers.filter fun e => h.slotFor e.2.timeout = i).map fun e => (e.1, h.dataOf e.2)).reverse

theorem timersFor_append (fresh : Addr) (rs rs' : List Request) : timersFor fresh (rs ++ rs') =
    timersFor fresh rs ++ timersFor (fresh + (timersFor fresh rs).length) rs' := by
  induction rs generalizing fresh with
  | nil => rfl
  | cons r rs ih =>
    rw [List.cons_append, timersFor, timersFor]
    split_ifs
    · exact ih fresh
    · rw [ih, List.cons_append, List.length_cons, Nat.add_assoc, Nat.add_comm 1]

theorem entered_append (h : Wheel) (ts ts' : List (Addr × Request)) (i : ℕ) :
    entered h (ts ++ ts') i = entered h ts' i ++ entered h ts i := by
  simp [entered]

theorem entered_congr (hcur : h'.curSlot = h.curSlot) (ts : List (Addr × Request)) (i : ℕ) :
    entered h' ts i = entered h ts i := by
  have hslot : h'.slotFor = h.slotFor := by
    funext timeout
    rw [Wheel.slotFor, Wheel.slotFor, hcur]
  have hdata : h'.dataOf = h.dataOf := by
    funext r
    rw [Wheel.dataOf, Wheel.dataOf, Wheel.dataFor, Wheel.dataFor, hslot]
  rw [entered, entered, hslot, hdata]

theorem mem_entered {ts : List (Addr × Request)} {i : ℕ} {p : Addr} {c : TimerData} :
    (p, c) ∈ entered h ts i ↔ ∃ r, (p, r) ∈ ts ∧ h.slotFor r.timeout = i ∧ h.dataOf r = c := by
  simp only [entered, List.mem_reverse, List.mem_map, List.mem_filter, decide_eq_true_eq,
    Prod.exists, Prod.mk.injEq]
  constructor
  · rintro ⟨_, r, ⟨hr, hslot⟩, rfl, hc⟩
    exact ⟨r, hr, hslot, hc⟩
  · rintro ⟨r, hr, hslot, hc⟩
    exact ⟨p, r, ⟨hr, hslot⟩, rfl, hc⟩

theorem entered_update (h : Wheel) (p : Addr) (r : Request) (ts : List (Addr × Request)) :
    (fun i => entered h ts i ++ Function.update L (h.slotFor r.timeout)
      ((p, h.dataOf r) :: L (h.slotFor r.timeout)) i) =
        fun i => entered h ((p, r) :: ts) i ++ L i := by
  funext i
  rcases eq_or_ne i (h.slotFor r.timeout) with rfl | hne
  · simp [entered]
  · simp [entered, Function.update_of_ne hne, hne.symm]

theorem request_spec {r : Request} (hr : Rep m h L) (ht : 0 ≤ r.timeout) :
    ∃ m' h', h.request m r = .ok (some m.fresh, m', h') ∧ h'.curSlot = h.curSlot ∧
      m'.fresh = m.fresh + 1 ∧ m'.freed = m.freed ∧
      Rep m' h' (Function.update L (h.slotFor r.timeout)
        ((m.fresh, h.dataOf r) :: L (h.slotFor r.timeout))) := by
  obtain ⟨m₁, h₁, hadd, hcur, hfresh, hfreed, hr₁⟩ := addTimer_spec hr ht
  obtain ⟨m', hmodify, hfresh', hfreed', hr'⟩ := hr₁.modify (D := []) (slotFor_lt h r.timeout)
    (h.dataOf r) (fun t =>
      { t with
        cbFunc := some r.cbFunc
        userData := r.userData }) (Function.update_self ..) rfl id fun _ _ => rfl
  rw [Function.update_idem] at hr'
  refine ⟨m', h₁, ?_, hcur, hfresh'.trans hfresh, hfreed'.trans hfreed, hr'⟩
  rw [Wheel.request, hadd]
  show (m₁.modify (some m.fresh) _ >>= fun m => _) = _
  rw [hmodify]
  rfl

theorem requestAll_spec (rs : List Request) (hr : Rep m h L) :
    ∃ m' h', h.requestAll m rs = .ok (timersFor m.fresh rs, m', h') ∧ h'.curSlot = h.curSlot ∧
      m'.fresh = m.fresh + (timersFor m.fresh rs).length ∧ m'.freed = m.freed ∧
      Rep m' h' fun i => entered h (timersFor m.fresh rs) i ++ L i := by
  induction rs generalizing m h L with
  | nil => exact ⟨m, h, rfl, rfl, rfl, rfl, hr⟩
  | cons r rs ih =>
    by_cases ht : r.timeout < 0
    · obtain ⟨m', h', hall, hrest⟩ := ih hr
      have hrequest : h.request m r = .ok (none, m, h) := by
        rw [Wheel.request, Wheel.addTimer, if_pos ht]
        rfl
      rw [timersFor, if_pos ht]
      refine ⟨m', h', ?_, hrest⟩
      rw [Wheel.requestAll, hrequest, ok_bind]
      show (h.requestAll m rs >>= fun t => _) = _
      rw [hall]
      rfl
    · obtain ⟨m₁, h₁, hrequest, hcur₁, hfresh₁, hfreed₁, hr₁⟩ := request_spec hr (Int.not_lt.1 ht)
      obtain ⟨m', h', hall, hcur, hfresh, hfreed, hrep⟩ := ih hr₁
      rw [hfresh₁] at hall hfresh hrep
      rw [timersFor, if_neg ht]
      refine ⟨m', h', ?_, hcur.trans hcur₁, ?_, hfreed.trans hfreed₁, ?_⟩
      · rw [Wheel.requestAll, hrequest, ok_bind]
        show (h₁.requestAll m₁ rs >>= fun t => _) = _
        rw [hall]
        rfl
      · rw [hfresh, List.length_cons, Nat.add_assoc, Nat.add_comm 1]
      · simp only [entered_congr hcur₁] at hrep
        rwa [entered_update] at hrep

/-- A callback that only adds timers. -/
theorem adding_spec (plan : Call → List Request) (call : Call) (hr : Rep m h L) :
    ∃ m' h', adding plan call m h = .ok (m', h') ∧ h'.curSlot = h.curSlot ∧
      m'.fresh = m.fresh + (timersFor m.fresh (plan call)).length ∧ m'.freed = m.freed ∧
      Rep m' h' fun i => entered h (timersFor m.fresh (plan call)) i ++ L i := by
  obtain ⟨m', h', hall, hrest⟩ := requestAll_spec (plan call) hr
  refine ⟨m', h', ?_, hrest⟩
  rw [adding, hall]
  rfl

/-- The timers added by the callbacks of `S`. -/
abbrev addedBy (m : Store TwTimer) (plan : Call → List Request) (S : List (Addr × TimerData)) :
    List (Addr × Request) := timersFor m.fresh ((callsOf S).flatMap plan)

section Round

variable {callback : Callback} {a : Addr} {c : TimerData}

theorem tickLoop_stay (fuel : ℕ) (hr : Rep m h L) (hL : L h.curSlot = D ++ (a, c) :: S)
    (hrot : c.rotation > 0) :
    ∃ m₁, m₁.fresh = m.fresh ∧ m₁.freed = m.freed ∧
      Rep m₁ h (Function.update L h.curSlot
        (D ++ (a, { c with rotation := c.rotation - 1 }) :: S)) ∧
      tickLoop callback (fuel + 1) (some a) m h = tickLoop callback fuel (first S none) m₁ h := by
  have hchain := hL ▸ hr.chain _ hr.cur
  obtain ⟨m₁, hmodify, hfresh₁, hfreed₁, hr₁⟩ := hr.modify hr.cur
    { c with rotation := c.rotation - 1 } (fun t => { t with rotation := t.rotation - 1 }) hL
    rfl (fun _ => Int.sub_nonneg.2 hrot) fun _ _ => rfl
  refine ⟨m₁, hfresh₁, hfreed₁, hr₁, ?_⟩
  rw [tickLoop, hchain.read, ok_bind]
  show (if c.rotation > 0 then _ else _) = _
  rw [if_pos hrot, hmodify, ok_bind]
  rfl

/-- A round at a timer that fires, when its callback has left the lists `L₁`. -/
theorem tickLoop_fire (fuel : ℕ) {D₁ S₁ : List (Addr × TimerData)} {m₁ : Store TwTimer} {h₁ : Wheel}
    {L₁ : ℕ → List (Addr × TimerData)} {cb : ℕ} (hr : Rep m h L)
    (hL : L h.curSlot = D ++ (a, c) :: S) (hrot : ¬ c.rotation > 0) (hcb : c.cbFunc = some cb)
    (hback : callback ⟨a, cb, c.userData⟩ m h = .ok (m₁, h₁)) (hr₁ : Rep m₁ h₁ L₁)
    (hL₁ : L₁ h₁.curSlot = D₁ ++ (a, c) :: S₁) :
    ∃ m₂ h₂, h₂.curSlot = h₁.curSlot ∧ m₂.fresh = m₁.fresh ∧ m₂.freed = m₁.freed ++ [a] ∧
      Rep m₂ h₂ (Function.update L₁ h₁.curSlot (D₁ ++ S₁)) ∧
      tickLoop callback (fuel + 1) (some a) m h =
        tickLoop callback fuel (first S₁ none) m₂ h₂ >>= fun r =>
          pure (r.1, r.2.1, ⟨a, cb, c.userData⟩ :: r.2.2) := by
  have hchain := hL ▸ hr.chain _ hr.cur
  have hcall : callOf a (node c (last none D) (first S none)) = .ok ⟨a, cb, c.userData⟩ :=
    callOf_eq hcb
  obtain ⟨m₂, h₂, hexpire, hcur₂, hfresh₂, hfreed₂, hr₂⟩ := expire_spec hr₁ hL₁
  refine ⟨m₂, h₂, hcur₂, hfresh₂, hfreed₂, hr₂, ?_⟩
  rw [tickLoop, hchain.read, ok_bind]
  show (if c.rotation > 0 then _ else _) = _
  rw [if_neg hrot, hcall, ok_bind, hback, ok_bind]
  show (h₁.expire m₁ (some a) >>= fun r => tickLoop _ fuel r.1 r.2.1 r.2.2 >>= _) = _
  rw [hexpire, ok_bind]

end Round

/-- What the callback of a timer adds stands before `D`, and what later ones add before that. -/
theorem entered_later {ts ts' : List (Addr × Request)} {X : List (Addr × TimerData)}
    (hcur : h'.curSlot = h.curSlot) :
    (fun i => entered h' ts' i ++ Function.update (fun i => entered h ts i ++ L i) h.curSlot
        (entered h ts h.curSlot ++ X) i) =
      fun i => entered h (ts ++ ts') i ++ Function.update L h.curSlot X i := by
  funext i
  rw [entered_congr hcur, entered_append]
  rcases eq_or_ne i h.curSlot with rfl | hne
  · rw [Function.update_self, Function.update_self, List.append_assoc]
  · rw [Function.update_of_ne hne, Function.update_of_ne hne, List.append_assoc]

/-- The rounds of a tick that are still to come, with `D` behind and `S` ahead.  What the callbacks
add stands before `D`, where the tick has been, or in another slot. -/
theorem tickLoop_spec (plan : Call → List Request) (hr : Rep m h L) (hL : L h.curSlot = D ++ S)
    (hready : Ready S) (hfuel : S.length ≤ fuel) :
    ∃ m' h', tickLoop (adding plan) fuel (first S none) m h = .ok (m', h', callsOf S) ∧
      h'.curSlot = h.curSlot ∧ m'.fresh = m.fresh + (addedBy m plan S).length ∧
      m'.freed = m.freed ++ addrs (expired S) ∧
      Rep m' h' fun i => entered h (addedBy m plan S) i ++
        Function.update L h.curSlot (D ++ survivors S) i := by
  induction S generalizing m h L D fuel with
  | nil =>
    have hsame : Function.update L h.curSlot (D ++ survivors []) = L := by
      rw [show D ++ survivors [] = L h.curSlot from hL.symm, Function.update_eq_self]
    have hloop : tickLoop (adding plan) fuel none m h = .ok (m, h, []) := by cases fuel <;> rfl
    exact ⟨m, h, hloop, rfl, rfl, (List.append_nil _).symm, hsame.symm ▸ hr⟩
  | cons e S ih =>
    obtain ⟨a, c⟩ := e
    obtain ⟨fuel, rfl⟩ : ∃ k, fuel = k + 1 := Nat.exists_eq_add_one.2 (by simp at hfuel; omega)
    have hfuel : S.length ≤ fuel := by simpa using hfuel
    rw [first_cons]
    by_cases hrot : c.rotation > 0
    · -- the timer stays
      obtain ⟨m₁, hfresh₁, hfreed₁, hr₁, hround⟩ := tickLoop_stay fuel hr hL hrot
      obtain ⟨m', h', hloop, hcur, hfresh, hfreed, hrep⟩ := ih hr₁
        (D := D ++ [(a, { c with rotation := c.rotation - 1 })]) (by simp) hready.tail hfuel
      have hcalls : callsOf ((a, c) :: S) = callsOf S := by
        rw [callsOf, expired_cons_of_pos hrot]
        rfl
      simp only [addedBy, hcalls, hfresh₁] at hfresh hrep ⊢
      refine ⟨m', h', hround.trans hloop, hcur, hfresh, ?_, ?_⟩
      · rw [hfreed, expired_cons_of_pos hrot, hfreed₁]
      · rw [Function.update_idem] at hrep
        rwa [survivors_cons_of_pos hrot, List.append_cons]
    · -- the timer fires
      obtain ⟨cb, hcb⟩ : ∃ cb, c.cbFunc = some cb := Option.ne_none_iff_exists'.1 <|
        hready (a, c) (by rw [expired_cons_of_not hrot]; exact List.mem_cons_self)
      obtain ⟨m₁, h₁, hadding, hcur₁, hfresh₁, hfreed₁, hr₁⟩ :=
        adding_spec plan ⟨a, cb, c.userData⟩ hr
      obtain ⟨ts, hts⟩ : ∃ ts, ts = timersFor m.fresh (plan ⟨a, cb, c.userData⟩) := ⟨_, rfl⟩
      rw [← hts] at hr₁ hfresh₁
      have hL₁ : entered h ts h₁.curSlot ++ L h₁.curSlot =
          (entered h ts h.curSlot ++ D) ++ (a, c) :: S := by
        rw [hcur₁, hL, List.append_assoc]
      obtain ⟨m₂, h₂, hcur₂, hfresh₂, hfreed₂, hr₂, hround⟩ :=
        tickLoop_fire fuel hr hL hrot hcb hadding hr₁ hL₁
      rw [hcur₁] at hcur₂ hr₂
      obtain ⟨m', h', hloop, hcur, hfresh, hfreed, hrep⟩ := ih hr₂ (D := entered h ts h.curSlot ++ D)
        (by rw [hcur₂, Function.update_self]) hready.tail hfuel
      have hadded : addedBy m plan ((a, c) :: S) = ts ++ addedBy m₂ plan S := by
        rw [addedBy, addedBy, callsOf_cons_of_not hrot hcb, List.flatMap_cons, timersFor_append,
          hfresh₂, hfresh₁, hts]
      refine ⟨m', h', ?_, hcur.trans hcur₂, ?_, ?_, ?_⟩
      · rw [hround, hloop, callsOf_cons_of_not hrot hcb]
        rfl
      · rw [hadded, hfresh, hfresh₂, hfresh₁, List.length_append, Nat.add_assoc]
      · rw [hfreed, hfreed₂, hfreed₁, expired_cons_of_not hrot, List.append_assoc]
        rfl
      · rw [hcur₂, Function.update_idem, List.append_assoc, entered_later hcur₂] at hrep
        rwa [hadded, survivors_cons_of_not hrot]

/-- **A tick.**  The timers of the current slot with no rotation left are called and freed, in the
order of the list; the others stay with one rotation less; what the callbacks add enters its slot;
the hand moves on. -/
theorem tick_adding_spec (plan : Call → List Request) (hr : Rep m h L)
    (hready : Ready (L h.curSlot)) :
    ∃ m' h', h.tick (adding plan) m = .ok (m', h', callsOf (L h.curSlot)) ∧
      h'.curSlot = (h.curSlot + 1) % N ∧
      m'.fresh = m.fresh + (addedBy m plan (L h.curSlot)).length ∧
      m'.freed = m.freed ++ addrs (expired (L h.curSlot)) ∧
      Rep m' h' fun i => entered h (addedBy m plan (L h.curSlot)) i ++
        Function.update L h.curSlot (survivors (L h.curSlot)) i := by
  have hload : load h.slots h.curSlot = .ok (first (L h.curSlot) none) :=
    load_eq_ok.2 (hr.head _ hr.cur)
  obtain ⟨m', h', hloop, hcur, hfresh, hfreed, hrep⟩ :=
    tickLoop_spec (D := []) plan hr rfl hready (hr.chain _ hr.cur).length_le
  refine ⟨m', { h' with curSlot := (h'.curSlot + 1) % N }, ?_, ?_, hfresh, hfreed, ?_⟩
  · rw [Wheel.tick, hload, ok_bind, hloop]
    rfl
  · show (h'.curSlot + 1) % N = _
    rw [hcur]
  · exact ⟨hrep.length, Nat.mod_lt _ (Nat.succ_pos _), hrep.head, hrep.chain, hrep.slot⟩

/-- A tick whose callbacks do not touch the wheel. -/
theorem tick_spec (hr : Rep m h L) (hready : Ready (L h.curSlot)) :
    ∃ m' h', h.tick quiet m = .ok (m', h', callsOf (L h.curSlot)) ∧
      h'.curSlot = (h.curSlot + 1) % N ∧ m'.fresh = m.fresh ∧
      m'.freed = m.freed ++ addrs (expired (L h.curSlot)) ∧
      Rep m' h' (Function.update L h.curSlot (survivors (L h.curSlot))) := by
  have hspec := tick_adding_spec (fun _ => []) hr hready
  have hnone : addedBy m (fun _ => []) (L h.curSlot) = [] := by
    rw [addedBy, List.flatMap_eq_nil_iff.2 fun _ _ => rfl]
    rfl
  rwa [hnone] at hspec

end TimeWheel

end LinuxServer
