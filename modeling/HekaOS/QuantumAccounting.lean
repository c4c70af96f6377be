import HekaOS.RoundRobin
import HekaOS.TaskFields

/-!
# Quanta

Every task has a quantum of at least one tick and at most its quantum left of it. Ticks alone
spend it, from the task on the CPU, and a new task starts with a whole one. A task that runs
undisturbed is switched out by the tick that uses up its quantum, if another task is ready then.
-/

namespace HekaOS.Tasks
open MachineWord KernelMemory PointerChain CyclicOrder TransitionSystem

variable {s t u v : KState} {kids : ℕ → List ℕ} {order : List ℕ} {a b c p q fuel n code signum : ℕ} {f : Task → Task}
  {env : SpawnEnv} {op : KOp}

/-- The quantum of a task, and what is left of it. -/
def Task.clock (x : Task) : ℕ × ℕ := (x.quantum, x.timeLeft)

def SameClocks (s t : KState) : Prop := ∀ a, (t.task a).clock = (s.task a).clock

theorem clock_lasting : Lasting Task.clock := ⟨fun _ _ _ _ _ => rfl, fun _ _ _ _ => rfl, fun _ _ => rfl⟩

/-- The tasks in use keep their clocks, and a new one starts with a whole quantum. -/
def Starts (q : ℕ) (s t : KState) : Prop :=
  ∀ a ∈ t.live, a ∈ s.live ∧ (t.task a).clock = (s.task a).clock ∨ a ∉ s.live ∧ (t.task a).clock = (q, q)

theorem Enters.starts (h : Enters Task.clock (Task.Furnished q) s t) : Starts q s t := by
  have hclock : ∀ x : Task, x.Furnished q → x.clock = (q, q) := fun x hx => by rw [Task.clock, hx.quantum, hx.timeLeft]
  exact h.mono hclock

/-- An operation other than a tick leaves the clocks alone, and a task it creates starts with a whole
quantum. -/
theorem starts_step (hcur : s.currentTask ∈ s.live) (h : KStep op s t) (hop : ∀ fuel, op ≠ .tick fuel) :
    Starts procQuantum s t ∨ Starts s.current.quantum s t :=
  (clock_lasting.enters_step hcur h hop).imp Enters.starts Enters.starts

/-- The clocks behind a call of `schedule`: that of the current task has lost a tick, or was refilled. -/
theorem schedule_clock (h : schedule fuel s = .ok t) :
    (∀ a ≠ s.currentTask, (t.task a).clock = (s.task a).clock) ∧
      (t.task s.currentTask).quantum = s.current.quantum ∧
      ((t.task s.currentTask).timeLeft = s.current.quantum ∨
        0 < sub32 s.current.timeLeft 1 ∧ (t.task s.currentTask).timeLeft = sub32 s.current.timeLeft 1) := by
  obtain ⟨u, hu, h⟩ := bind_eq_ok.mp h
  have hdrain : SameClocks s u := clock_lasting.sameDrain hu
  have hcur : u.currentTask = s.currentTask := by
    rcases drainCurrent_cases hu with hcalm | ⟨-, hexits⟩
    · exact hcalm.rest.currentTask
    · exact hexits.globals.currentTask
  have hcurrent : u.current.clock = s.current.clock := by
    rw [KState.current, hcur]
    exact hdrain _
  obtain ⟨hquantum, htime⟩ := Prod.mk.inj hcurrent
  have hspent : ∀ a ≠ s.currentTask, ((spendTick u).task a) = u.task a :=
    fun a ha => u.modify_task_of_ne _ (hcur ▸ ha)
  have hspent' : ((spendTick u).task s.currentTask) = { u.current with timeLeft := sub32 s.current.timeLeft 1 } := by
    rw [← htime, ← hcur]
    exact u.modify_task_self _ _
  -- `v` is the state in which `reschedule` is called
  have hrefilled : ∀ v : KState, v.currentTask = s.currentTask → (∀ a ≠ s.currentTask, v.task a = u.task a) →
      (v.task s.currentTask).quantum = s.current.quantum → reschedule fuel v = .ok t →
      (∀ a ≠ s.currentTask, (t.task a).clock = (s.task a).clock) ∧
        (t.task s.currentTask).quantum = s.current.quantum ∧ (t.task s.currentTask).timeLeft = s.current.quantum := by
    intro v hv hother hself hrun
    have hclocks : SameClocks (refillQuantum v) t := clock_lasting.sameReschedule hrun
    have hrefill : (refillQuantum v).task s.currentTask =
        { v.task s.currentTask with timeLeft := (v.task s.currentTask).quantum } := by
      rw [← hv]
      exact v.modify_task_self _ _
    have hend := hclocks s.currentTask
    rw [hrefill] at hend
    obtain ⟨hq, ht⟩ := Prod.mk.inj hend
    refine ⟨fun a ha => ?_, hq.trans hself, ht.trans hself⟩
    have hkeep : (refillQuantum v).task a = v.task a := v.modify_task_of_ne _ (hv ▸ ha)
    rw [hclocks a, hkeep, hother a ha, hdrain a]
  split at h
  · obtain ⟨hother, hq, ht⟩ := hrefilled u hcur (fun _ _ => rfl) (hcur ▸ hquantum) h
    exact ⟨hother, hq, .inl ht⟩
  split at h
  · rename_i hleft
    obtain rfl := Except.ok.inj h
    rw [spendTick_timeLeft, htime] at hleft
    refine ⟨fun a ha => ?_, ?_, .inr ⟨hleft, ?_⟩⟩
    · rw [hspent a ha, hdrain a]
    · rw [hspent']
      exact hquantum
    · rw [hspent']
  · obtain ⟨hother, hq, ht⟩ := hrefilled (spendTick u) hcur hspent (by rw [hspent']; exact hquantum) h
    exact ⟨hother, hq, .inl ht⟩

/-- Every task in use has a quantum, and something left of it. -/
def Accounted (s : KState) : Prop :=
  ∀ a ∈ s.live, (s.task a).quantum = procQuantum ∧ 1 ≤ (s.task a).timeLeft ∧ (s.task a).timeLeft ≤ procQuantum

theorem sub32_one (hone : 1 ≤ n) (hle : n ≤ procQuantum) : sub32 n 1 = n - 1 :=
  sub32_of_le hone (hle.trans_lt (by decide))

theorem Accounted.starts (h : Accounted s) (hq : q = procQuantum) (hs : Starts q s t) : Accounted t := by
  intro a ha
  rcases hs a ha with ⟨hmem, hclock⟩ | ⟨-, hclock⟩
  · obtain ⟨hquantum, htime⟩ := Prod.mk.inj hclock
    rw [hquantum, htime]
    exact h a hmem
  · obtain ⟨hquantum, htime⟩ := Prod.mk.inj hclock
    rw [hquantum, htime, hq]
    exact ⟨rfl, by decide, Nat.le_refl _⟩

theorem Accounted.schedule (h : Accounted s) (hcur : s.currentTask ∈ s.live) (hlive : t.live = s.live)
    (hrun : Tasks.schedule fuel s = .ok t) : Accounted t := by
  obtain ⟨hother, hquantum, htime⟩ := schedule_clock hrun
  intro a ha
  rw [hlive] at ha
  by_cases hac : a = s.currentTask
  · obtain ⟨hq, hone, hle⟩ := h _ hcur
    rw [hac]
    refine ⟨hquantum.trans hq, ?_⟩
    rcases htime with htime | ⟨hleft, htime⟩
    · rw [htime]
      exact hq.symm ▸ ⟨by decide, Nat.le_refl _⟩
    · change 1 ≤ s.current.timeLeft at hone
      change s.current.timeLeft ≤ procQuantum at hle
      rw [sub32_one hone hle] at hleft htime
      omega
  · obtain ⟨hq, ht⟩ := Prod.mk.inj (hother a hac)
    rw [hq, ht]
    exact h a ha

theorem contextSwitch_settled (h : s.needResched = false) : contextSwitch s = s := by
  rw [contextSwitch, h, if_neg Bool.false_ne_true]

theorem contextSwitch_live (s : KState) : (contextSwitch s).live = s.live := by
  unfold contextSwitch
  split <;> rfl

theorem tick_live (hs : s.needResched = false) (h : tick fuel s = .ok t) : t.live = s.live := by
  obtain ⟨u, hu, hswitched⟩ := tick_cases hs h
  refine Eq.trans hswitched.calm.rest.live ?_
  rcases hu with hcalm | ⟨-, hexits⟩
  · exact hcalm.rest.live
  · exact hexits.globals.live

theorem Accounted.step (h : Accounted s) (ht : Tended s kids order) (hstep : KStep op s t) : Accounted t := by
  by_cases hop : ∃ fuel, op = .tick fuel
  · obtain ⟨fuel, rfl⟩ := hop
    have hlive := tick_live ht.settled (toOption_eq_some.mp hstep.run)
    obtain ⟨u, hu, hrun⟩ := bind_eq_ok.mp (toOption_eq_some.mp hstep.run)
    obtain rfl := Except.ok.inj hrun
    have hlive : u.live = s.live := (contextSwitch_live u).symm.trans hlive
    have hend : Accounted u := Accounted.schedule (s := { s with interruptFlag := false }) h ht.current_mem hlive hu
    intro a ha
    change a ∈ (contextSwitch u).live at ha
    change ((contextSwitch u).task a).quantum = _ ∧ _ ≤ ((contextSwitch u).task a).timeLeft ∧
      ((contextSwitch u).task a).timeLeft ≤ _
    rw [contextSwitch_live] at ha
    rw [contextSwitch_task]
    exact hend a ha
  · rcases starts_step ht.current_mem hstep (fun fuel he => hop ⟨fuel, he⟩) with hstarts | hstarts
    · exact h.starts rfl hstarts
    · exact h.starts (h _ ht.current_mem).1 hstarts

theorem Accounted.boot (hb : Boot s) : Accounted s := by
  obtain ⟨junk, user, rfl⟩ := hb
  intro a ha
  simp only [taskInit, Finset.mem_insert, Finset.mem_singleton] at ha
  have hwhole : 1 ≤ procQuantum := by decide
  rcases ha with rfl | rfl
  · exact ⟨rfl, hwhole, Nat.le_refl procQuantum⟩
  · exact ⟨rfl, hwhole, Nat.le_refl procQuantum⟩

theorem KRun.accounted (hs : KRun (fun op s => op.OnCpu s) s) : Accounted s := by
  have hboth : Accounted s ∧ ∃ kids order, Tended s kids order := by
    refine Reachable.invariant (I := fun s => Accounted s ∧ ∃ kids order, Tended s kids order)
      (fun s hb => ⟨Accounted.boot hb, _, _, Tended.boot hb⟩) ?_ hs
    rintro s t ⟨hacc, kids, order, h⟩ ⟨op, hcond, hstep⟩
    exact ⟨hacc.step h hstep, h.step hcond hstep⟩
  exact hboth.1

/-- The task is running and has no signals. -/
def KState.Unbothered (s : KState) (c : ℕ) : Prop := (s.task c).state = .running ∧ (s.task c).pendingSignals = 0

/-- A run with a number of ticks, before each step of which the task `c` is running and has no
signals. -/
inductive UnbotheredRun (c : ℕ) : KState → ℕ → KState → Prop where
  | start (s : KState) : UnbotheredRun c s 0 s
  | other {s t u : KState} {n : ℕ} {op : KOp} (h : UnbotheredRun c s n t) (hc : t.Unbothered c) (hcond : op.OnCpu t)
      (hop : ∀ fuel, op ≠ .tick fuel) (hstep : KStep op t u) : UnbotheredRun c s n u
  | tick {s t u : KState} {n fuel : ℕ} (h : UnbotheredRun c s n t) (hc : t.Unbothered c)
      (hstep : KStep (.tick fuel) t u) : UnbotheredRun c s (n + 1) u

theorem currentTask_step (hs : s.needResched = false) (h : KStep op s t) (hop : ∀ fuel, op ≠ .tick fuel) :
    t.currentTask = s.currentTask := by
  cases step_cases hs h with
  | calm h => exact h.rest.currentTask
  | blocks hscan h =>
    rw [h]
    rfl
  | exits a hends hlisted h => exact h.globals.currentTask
  | switched u htick hu h => exact absurd htick.choose_spec (hop _)
  | born p c hp h hinit hnum => rw [h.rest]
  | reaped z fuel u hz hu h => rw [taskReap_rest h, hu]

/-- A tick of an undisturbed task only spends its quantum, until the last tick. -/
theorem schedule_unbothered (hs : Accounted s) (hcur : s.currentTask ∈ s.live) (hquiet : s.Unbothered s.currentTask) :
    schedule fuel s = if 1 < s.current.timeLeft then .ok (spendTick s) else reschedule fuel (spendTick s) := by
  obtain ⟨-, hone, hle⟩ := hs _ hcur
  have hspend : sub32 s.current.timeLeft 1 = s.current.timeLeft - 1 := sub32_one hone hle
  rw [schedule_running hquiet.2 hquiet.1, hspend]
  by_cases hlast : 1 < s.current.timeLeft
  · rw [if_pos (by omega), if_pos hlast]
  · rw [if_neg (by omega), if_neg hlast]

/-- A run in which the task on the CPU is undisturbed keeps it there while ticks are left. -/
theorem UnbotheredRun.keeps (h : UnbotheredRun c s n t) (hs : KRun (fun op s => op.OnCpu s) s)
    (hc : s.currentTask = c) (hn : n < s.current.timeLeft) : KRun (fun op s => op.OnCpu s) t ∧ t.currentTask = c ∧
      t.current.timeLeft + n = s.current.timeLeft := by
  induction h with
  | start => exact ⟨hs, hc, rfl⟩
  | @other t u n op h hquiet hcond hop hstep ih =>
    obtain ⟨hrun, hcur, htime⟩ := ih hn
    have hrun' : KRun (fun op s => op.OnCpu s) u := .next hrun ⟨op, hcond, hstep⟩
    obtain ⟨kids, order, ht⟩ := hrun.tended
    obtain ⟨kids', order', hu⟩ := hrun'.tended
    have hcur' : u.currentTask = t.currentTask := currentTask_step ht.settled hstep hop
    have hkeep : ∀ q, Starts q t u → u.current.clock = t.current.clock := by
      intro q hstarts
      rw [KState.current, hcur']
      rcases hstarts _ (hcur' ▸ hu.current_mem) with ⟨-, hclock⟩ | ⟨hnew, -⟩
      · exact hclock
      · exact absurd ht.current_mem hnew
    have hclock : u.current.clock = t.current.clock := by
      rcases starts_step ht.current_mem hstep hop with hstarts | hstarts
      · exact hkeep _ hstarts
      · exact hkeep _ hstarts
    refine ⟨hrun', hcur'.trans hcur, ?_⟩
    rw [(Prod.mk.inj hclock).2]
    exact htime
  | @tick t u n fuel h hquiet hstep ih =>
    obtain ⟨hrun, hcur, htime⟩ := ih (by omega)
    have hrun' : KRun (fun op s => op.OnCpu s) u := .next hrun ⟨.tick fuel, trivial, hstep⟩
    obtain ⟨kids, order, ht⟩ := hrun.tended
    obtain ⟨v, hv, hu⟩ := bind_eq_ok.mp (toOption_eq_some.mp hstep.run)
    obtain rfl := Except.ok.inj hu
    have hacc : Accounted { t with interruptFlag := false } := hrun.accounted
    have hquiet' : ({ t with interruptFlag := false } : KState).Unbothered t.currentTask := hcur ▸ hquiet
    have hsched : schedule fuel { t with interruptFlag := false } = _ := schedule_unbothered hacc ht.current_mem hquiet'
    have hleft : 1 < ({ t with interruptFlag := false } : KState).current.timeLeft := by
      change 1 < t.current.timeLeft
      omega
    rw [hv, if_pos hleft] at hsched
    obtain rfl := Except.ok.inj hsched
    have hkeep := contextSwitch_settled (s := spendTick { t with interruptFlag := false }) ht.settled
    have hspend : (spendTick { t with interruptFlag := false }).current.timeLeft = t.current.timeLeft - 1 := by
      rw [spendTick_timeLeft]
      exact sub32_one hleft.le (hrun.accounted _ ht.current_mem).2.2
    refine ⟨hrun', ?_, ?_⟩
    · change (contextSwitch (spendTick { t with interruptFlag := false })).currentTask = c
      rw [hkeep]
      exact hcur
    · change (contextSwitch (spendTick { t with interruptFlag := false })).current.timeLeft + (n + 1) = _
      rw [hkeep, hspend]
      omega

/-- The slice of its quantum that the current task has used, as `schedule` logs it. -/
def consumed (s : KState) : ℕ := sub32 s.current.quantum s.current.timeLeft

/-- The switch away from `c` is requested. -/
def KState.Leaves (s : KState) (c : ℕ) : Prop := s.needResched = true ∧ s.nextTask ≠ some c

/-- Behind its decision to switch, `schedule` requests the switch exactly if another task is ready. -/
theorem reschedule_leaves (hl : Chain s.next s.taskListHead order) (hcur : s.currentTask ∈ order)
    (hs : s.needResched = false) (hfuel : order.length < fuel) : ∃ t, reschedule fuel s = .ok t ∧
      (t.Leaves s.currentTask ↔ ∃ b ∈ order, b ≠ s.currentTask ∧ (s.task b).state = .runnable) := by
  obtain ⟨t, ht, hturn⟩ := reschedule_turn hl hcur hfuel
  refine ⟨t, ht, ?_⟩
  have hidle := turn_current hl hcur
  split at hturn
  · rename_i hstay
    have hsettled : (refillQuantum s).needResched = false := hs
    rw [hturn]
    refine iff_of_false (fun h => ?_) ?_
    · exact Bool.false_ne_true (hsettled.symm.trans h.1)
    · rintro ⟨b, hb, hne, hready⟩
      exact hidle.mp hstay b hb hne hready
  · rename_i haway
    have hlap := calm_countLap hturn
    have hresched : t.needResched = true := hlap.rest.needResched
    have hnext : t.nextTask = some (turn s.eligible order s.currentTask) := hlap.rest.nextTask
    refine iff_of_true ⟨hresched, fun he => haway (Option.some.inj (hnext.symm.trans he))⟩ ?_
    have hsome := mt hidle.mpr haway
    push Not at hsome
    exact hsome

/-- The bookkeeping of the quanta in a state. -/
structure QuantumAccounts (s : KState) : Prop where
  bounds : ∀ a, Listed s a → 1 ≤ (s.task a).timeLeft ∧ (s.task a).timeLeft ≤ (s.task a).quantum
  /-- `--time_left` does not wrap. -/
  spends : sub32 s.current.timeLeft 1 + 1 = s.current.timeLeft
  /-- The slice does not underflow on either way to the log. -/
  slice : ∀ fuel u, drainCurrent fuel s = .ok u → ∀ v, v = u ∨ v = spendTick u →
    consumed v + v.current.timeLeft = v.current.quantum
  /-- The tick that uses up the quantum of an undisturbed task takes the CPU away from it, if another
  task is ready, and no earlier one does. -/
  deadline : ∀ n t, UnbotheredRun s.currentTask s n t → n < s.current.timeLeft → t.Unbothered s.currentTask →
    ∃ N, ∀ fuel, N ≤ fuel → ∃ u, schedule fuel { t with interruptFlag := false } = .ok u ∧
      (u.Leaves s.currentTask ↔ n + 1 = s.current.timeLeft ∧
        ∃ b, Listed t b ∧ b ≠ s.currentTask ∧ (t.task b).state = .runnable)

theorem quantum_accounting (s : KState) (hs : KRun (fun op s => op.OnCpu s) s) : QuantumAccounts s := by
  obtain ⟨kids, order, h⟩ := hs.tended
  have hacc := hs.accounted
  obtain ⟨hquantum, hone, hle⟩ := hacc _ h.current_mem
  refine ⟨fun a ha => ?_, ?_, fun fuel u hu v hv => ?_, fun n t hrun hn hquiet => ?_⟩
  · obtain ⟨l, hl, hmem⟩ := ha
    obtain rfl := hl.unique h.list
    obtain ⟨hq, hbounds⟩ := hacc a (h.live hmem)
    rw [hq]
    exact hbounds
  · have hspend : sub32 s.current.timeLeft 1 = s.current.timeLeft - 1 := sub32_one hone hle
    change 1 ≤ s.current.timeLeft at hone
    omega
  · have hslice : ∀ w : KState, w.current.quantum = procQuantum → w.current.timeLeft ≤ procQuantum →
        consumed w + w.current.timeLeft = w.current.quantum := by
      intro w hq ht
      have hsub : sub32 procQuantum w.current.timeLeft = procQuantum - w.current.timeLeft :=
        sub32_of_le ht (by decide)
      rw [consumed, hq, hsub]
      omega
    have hcur : u.currentTask = s.currentTask := by
      rcases drainCurrent_cases hu with hcalm | ⟨-, hexits⟩
      · exact hcalm.rest.currentTask
      · exact hexits.globals.currentTask
    have hclock : u.current.clock = s.current.clock := by
      rw [KState.current, hcur]
      exact clock_lasting.sameDrain hu _
    obtain ⟨hq, htime⟩ := Prod.mk.inj hclock
    rcases hv with rfl | rfl
    · exact hslice _ (hq.trans hquantum) (htime.le.trans hle)
    · have hquantum' : (spendTick u).current.quantum = procQuantum :=
        (u.modify_field _ _ _ Task.quantum rfl).trans (hq.trans hquantum)
      refine hslice _ hquantum' ?_
      rw [spendTick_timeLeft, htime]
      have hspend : sub32 s.current.timeLeft 1 = s.current.timeLeft - 1 := sub32_one hone hle
      have hle' : s.current.timeLeft ≤ procQuantum := hle
      omega
  · obtain ⟨hrun', hcur, htime⟩ := hrun.keeps hs rfl hn
    obtain ⟨kids', order', ht⟩ := hrun'.tended
    refine ⟨order'.length + 1, fun fuel hfuel => ?_⟩
    have hacc' : Accounted { t with interruptFlag := false } := hrun'.accounted
    have hquiet' : ({ t with interruptFlag := false } : KState).Unbothered t.currentTask := hcur ▸ hquiet
    have hsched : schedule fuel { t with interruptFlag := false } = _ := schedule_unbothered hacc' ht.current_mem hquiet'
    have hflag : ({ t with interruptFlag := false } : KState).current = t.current := rfl
    generalize hw : ({ t with interruptFlag := false } : KState) = w at hsched hflag
    have hlw : Chain w.next w.taskListHead order' := hw ▸ ht.list
    have hcw : w.currentTask = s.currentTask := hw ▸ hcur
    have hmem : w.currentTask ∈ order' := hw ▸ ht.current
    have hsettled : (spendTick w).needResched = false := hw ▸ ht.settled
    have hstate : ∀ b, ((spendTick w).task b).state = (t.task b).state := by
      intro b
      rw [← hw]
      exact KState.modify_field _ _ b _ Task.state rfl
    rw [hflag] at hsched
    by_cases hlast : n + 1 = s.current.timeLeft
    · rw [if_neg (by omega)] at hsched
      have hls : Chain (spendTick w).next (spendTick w).taskListHead order' :=
        hlw.congr fun b _ => w.modify_field _ b _ Task.next rfl
      obtain ⟨u, hu, hleaves⟩ := reschedule_leaves hls hmem hsettled hfuel
      refine ⟨u, hsched.trans hu, ?_⟩
      change u.Leaves w.currentTask ↔ ∃ b ∈ order', b ≠ w.currentTask ∧ _ at hleaves
      rw [← hcw, hleaves]
      constructor
      · rintro ⟨b, hb, hne, hready⟩
        exact ⟨hlast, b, ⟨order', ht.list, hb⟩, hne, (hstate b).symm.trans hready⟩
      · rintro ⟨-, b, ⟨l, hl, hb⟩, hne, hready⟩
        obtain rfl := hl.unique ht.list
        exact ⟨b, hb, hne, (hstate b).trans hready⟩
    · rw [if_pos (by omega)] at hsched
      refine ⟨_, hsched, iff_of_false (fun h => ?_) fun h => hlast h.1⟩
      exact Bool.false_ne_true (hsettled.symm.trans h.1)

/-- A user task that got the CPU has its whole quantum, and loses the CPU to init behind it. -/
theorem quantum_accounting_user : userOnCpu.current.timeLeft = procQuantum ∧ userOnCpu.Unbothered 11 ∧
    Listed userOnCpu 10 ∧ (userOnCpu.task 10).state = .runnable ∧ QuantumAccounts userOnCpu := by
  refine ⟨by decide +kernel, ⟨by decide +kernel, by decide +kernel⟩, ⟨[11, 10, 0], ?_, by decide⟩, by decide +kernel,
    quantum_accounting userOnCpu (KRun.userOnCpu trivial trivial trivial trivial)⟩
  simp only [chain_cons, chain_nil]
  decide +kernel

end HekaOS.Tasks
