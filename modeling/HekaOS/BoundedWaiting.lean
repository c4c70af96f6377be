import HekaOS.PidLedger
import HekaOS.QuantumAccounting
import HekaOS.RoundRobin

/-!
# No task waits for ever

A task that stays ready gets the CPU after a bounded number of timer ticks, whatever the other tasks
do: they may fork, exit, send signals and reap each other. New tasks are linked in at the head of the
scheduler list, so they can come in front of a waiting task only until the search has passed the end
of the list, and only a limited number of tasks exists at a time.
-/

namespace HekaOS.Tasks
open MachineWord KernelMemory PointerChain CyclicOrder TransitionSystem

variable {s t u v : KState} {kids : ℕ → List ℕ} {order : List ℕ} {a b c fuel n : ℕ} {op : KOp}

/-- The task is ready, and waits for the CPU. -/
structure Waits (s : KState) (a : ℕ) : Prop where
  listed : Listed s a
  ready : (s.task a).state = .runnable
  away : a ≠ s.currentTask

/-- A run with a number of ticks, behind each step of which the task `a` still waits. -/
inductive WaitingRun (a : ℕ) : KState → ℕ → KState → Prop where
  | start (s : KState) : WaitingRun a s 0 s
  | other {s t u : KState} {n : ℕ} {op : KOp} (h : WaitingRun a s n t) (hcond : op.OnCpu t)
      (hop : ∀ fuel, op ≠ .tick fuel) (hstep : KStep op t u) (hu : Waits u a) : WaitingRun a s n u
  | tick {s t u : KState} {n fuel : ℕ} (h : WaitingRun a s n t) (hstep : KStep (.tick fuel) t u) (hu : Waits u a) :
      WaitingRun a s (n + 1) u

/-- The ticks that the task `a` still has to wait, at most. -/
def KState.patience (s : KState) (order : List ℕ) (a : ℕ) : ℕ :=
  distance maxProc order s.currentTask a * procQuantum + s.current.timeLeft

/-! ### How an operation changes the list -/

/-- An operation other than a tick links one task in at the head, or takes one away. -/
inductive OrderStep (s : KState) (order : List ℕ) : List ℕ → Prop where
  | same : OrderStep s order order
  | linked {c : ℕ} (hc : c ∉ order) : OrderStep s order (c :: order)
  | unlinked {z : ℕ} (hz : z ≠ s.currentTask) : OrderStep s order (order.erase z)

theorem Tended.order_step (h : Tended s kids order) (hcond : op.OnCpu s) (hop : ∀ fuel, op ≠ .tick fuel)
    (hstep : KStep op s t) : ∃ kids' order', Tended t kids' order' ∧ OrderStep s order order' := by
  cases step_cases h.settled hstep with
  | calm hc => exact ⟨_, _, h.calm hc, .same⟩
  | blocks hscan ht =>
    rw [ht]
    exact ⟨_, _, h.blocks, .same⟩
  | exits a hends hlisted he =>
    obtain rfl := hcond.ends hends
    exact ⟨_, _, h.exits he, .same⟩
  | switched u htick hu hs => exact absurd htick.choose_spec (hop _)
  | born p c hp hb hinit hnum =>
    refine ⟨_, _, h.born hp hb hinit, .linked fun hmem => ?_⟩
    exact hb.fresh (h.live hmem)
  | reaped z fuel u hz hu hrun =>
    have hcalm : CalmLive False s u := hu.calm.calmLive
    obtain ⟨hzi, hzombie, hcur⟩ := h.reaps hstep.allowed hz
    have hstate : (u.task z).state = .zombie := by
      rw [hu]
      exact hzombie
    exact ⟨_, _, (h.calm hcalm).reaped hzi hstate (hcalm.rest.currentTask ▸ hcur) hrun, .unlinked hcur⟩

/-- The list cannot be longer than there are pids. -/
theorem Tended.length_le (h : Tended s kids order) {L : Ledger} (hL : PidRun s L) : order.length ≤ maxProc := by
  have hnodup : (order.map fun b => (s.task b).pid).Nodup := by
    refine (List.nodup_map_iff_inj_on h.list.nodup).mpr fun b hb c hc hpid => ?_
    exact hL.roster.pid_inj (h.live hb) (h.live hc) hpid
  have hsub : (order.map fun b => (s.task b).pid) ⊆ List.range maxProc := by
    intro pid hpid
    obtain ⟨b, hb, rfl⟩ := List.mem_map.mp hpid
    exact List.mem_range.mpr (hL.roster.pid_lt (h.live hb))
  have hle := (hnodup.subperm hsub).length_le
  rwa [List.length_map, List.length_range] at hle

theorem Waits.mem (hw : Waits s a) (h : Tended s kids order) : a ∈ order := by
  obtain ⟨l, hl, hmem⟩ := hw.listed
  exact hl.unique h.list ▸ hmem

/-! ### The patience of a waiting task -/

theorem current_timeLeft (h : Tended s kids order) (hacc : Accounted s) :
    1 ≤ s.current.timeLeft ∧ s.current.timeLeft ≤ procQuantum :=
  (hacc _ h.current_mem).2

/-- Nothing but a tick takes time from the task on the CPU. -/
theorem timeLeft_other (h : Tended s kids order) (hop : ∀ fuel, op ≠ .tick fuel) (hstep : KStep op s t)
    (hmem : s.currentTask ∈ t.live) : t.currentTask = s.currentTask ∧ t.current.timeLeft = s.current.timeLeft := by
  have hcur := currentTask_step h.settled hstep hop
  have hkeep : ∀ {q}, Starts q s t → t.current.clock = s.current.clock := by
    intro q hstarts
    rw [KState.current, hcur]
    rcases hstarts _ hmem with ⟨-, hclock⟩ | ⟨hnew, -⟩
    · exact hclock
    · exact absurd h.current_mem hnew
  have hclock : t.current.clock = s.current.clock := by
    rcases starts_step h.current_mem hstep hop with hstarts | hstarts
    · exact hkeep hstarts
    · exact hkeep hstarts
  exact ⟨hcur, (Prod.mk.inj hclock).2⟩

/-- The other operations bring nobody in front of a waiting task. -/
theorem patience_other (h : Tended s kids order) (hcond : op.OnCpu s) (hop : ∀ fuel, op ≠ .tick fuel)
    (hstep : KStep op s t) (hw : Waits s a) (hw' : Waits t a) :
    ∃ kids' order', Tended t kids' order' ∧ t.patience order' a ≤ s.patience order a := by
  obtain ⟨kids', order', h', horder⟩ := h.order_step hcond hop hstep
  have hcur := currentTask_step h.settled hstep hop
  obtain ⟨-, htime⟩ := timeLeft_other h hop hstep (hcur ▸ h'.current_mem)
  refine ⟨kids', order', h', ?_⟩
  have hmem := hw.mem h
  have hmem' := hw'.mem h'
  have hdist : distance maxProc order' s.currentTask a ≤ distance maxProc order s.currentTask a := by
    cases horder with
    | same => exact Nat.le_refl _
    | linked hc => exact (distance_cons h'.list.nodup h.current hmem hw.away).le
    | unlinked hz =>
      refine distance_erase h.list.nodup h.current hmem hw.away hz fun hza => ?_
      rw [hza] at hmem'
      exact h.list.nodup.not_mem_erase hmem'
  rw [KState.patience, KState.patience, hcur, htime]
  exact Nat.add_le_add_right (Nat.mul_le_mul_right _ hdist) _

/-- A switch that does not reach a waiting task comes nearer to it. -/
theorem patience_reschedule (hl : Chain s.next s.taskListHead order) (hcur : s.currentTask ∈ order) (hs : s.needResched = false)
    (hn : order.length ≤ maxProc) (hmem : a ∈ order) (hready : (s.task a).state = .runnable) (hne : a ≠ s.currentTask)
    (h : reschedule fuel s = .ok t) (haway : a ≠ (contextSwitch t).currentTask) :
    distance maxProc order (contextSwitch t).currentTask a < distance maxProc order s.currentTask a := by
  have hl' : Chain (refillQuantum s).next (refillQuantum s).taskListHead order :=
    hl.congr fun b _ => s.modify_field _ b _ Task.next rfl
  have hturn := pickNextTask_of_ok hl' hcur (reschedule_current hs h)
  have helig : (refillQuantum s).eligible a = true := by
    refine eligible_iff.mpr (.inr ?_)
    exact (s.modify_field _ a _ Task.state rfl).trans hready
  rw [hturn] at haway ⊢
  exact distance_turn hl.nodup hcur hmem hne helig hn haway.symm

/-- A tick costs a waiting task some of its patience. -/
theorem patience_tick (h : Tended s kids order) (hacc : Accounted s) (hn : order.length ≤ maxProc)
    (hstep : KStep (.tick fuel) s t) (hw : Waits s a) (hw' : Waits t a) :
    ∃ kids', Tended t kids' order ∧ t.patience order a + 1 ≤ s.patience order a := by
  have htick := toOption_eq_some.mp hstep.run
  have hmem := hw.mem h
  have hacc' := hacc.step h hstep
  obtain ⟨hone, hle⟩ := current_timeLeft h hacc
  obtain ⟨kids', ht⟩ : ∃ kids', Tended t kids' order := by
    obtain ⟨u, hu, hs⟩ := tick_cases h.settled htick
    rcases hu with hcalm | ⟨-, hexits⟩
    · exact ⟨_, (h.calm hcalm.calmLive).switched hs⟩
    · exact ⟨_, (h.exits hexits).switched hs⟩
  obtain ⟨-, hle'⟩ := current_timeLeft ht hacc'
  refine ⟨kids', ht, ?_⟩
  -- a switch makes up for the new quantum
  have hswitch : distance maxProc order t.currentTask a < distance maxProc order s.currentTask a →
      t.patience order a + 1 ≤ s.patience order a := by
    intro hnear
    simp only [KState.patience, procQuantum] at hle' ⊢
    omega
  obtain ⟨v, hv, hsame⟩ := bind_eq_ok.mp htick
  obtain rfl := Except.ok.inj hsame
  obtain ⟨u, hu, hv⟩ := bind_eq_ok.mp hv
  have h₀ : Tended { s with interruptFlag := false } kids order := h.calm (calm_interruptFlag s false).calmLive
  obtain ⟨-, hready⟩ := h₀.drained hu
  obtain ⟨kids'', hut, hucur⟩ : ∃ kids'', Tended u kids'' order ∧ u.currentTask = s.currentTask := by
    rcases drainCurrent_cases hu with hcalm | ⟨-, hexits⟩
    · exact ⟨kids, h₀.calm hcalm.calmLive, hcalm.rest.currentTask⟩
    · exact ⟨_, h₀.exits hexits, hexits.globals.currentTask⟩
  have hstill : (u.task a).state = .runnable := (hready a hw.away).mpr (.inl hw.ready)
  have hspent : ∀ b, ((spendTick u).task b).state = (u.task b).state := fun b => u.modify_field _ b _ Task.state rfl
  have hspend : Tended (spendTick u) kids'' order := hut.calm calm_spendTick.calmLive
  have hne : a ≠ u.currentTask := hucur ▸ hw.away
  have haway : a ≠ (contextSwitch v).currentTask := hw'.away
  split at hv
  · refine hswitch ?_
    have hnear := patience_reschedule hut.list hut.current hut.settled hn hmem hstill hne hv haway
    rwa [hucur] at hnear
  split at hv
  · obtain rfl := Except.ok.inj hv
    have hkeep : contextSwitch (spendTick u) = spendTick u := contextSwitch_settled hspend.settled
    have htime : u.current.timeLeft = s.current.timeLeft := by
      have hclock := clock_lasting.sameDrain hu s.currentTask
      rw [KState.current, hucur]
      exact (Prod.mk.inj hclock).2
    have hnow : (spendTick u).current.timeLeft = s.current.timeLeft - 1 := by
      rw [spendTick_timeLeft, htime, sub32_one hone hle]
    have hafter : KState.patience { contextSwitch (spendTick u) with interruptFlag := true } order a =
        distance maxProc order s.currentTask a * procQuantum + (s.current.timeLeft - 1) := by
      rw [hkeep, ← hnow, ← hucur]
      rfl
    rw [hafter, KState.patience]
    omega
  · refine hswitch ?_
    have hnear := patience_reschedule hspend.list hspend.current hspend.settled hn hmem ((hspent a).trans hstill) hne hv haway
    have hcur' : (spendTick u).currentTask = s.currentTask := hucur
    rwa [hcur'] at hnear

/-! ### The bound -/

theorem KRun.pidRun {cond : KOp → KState → Prop} (hs : KRun cond s) : ∃ L, PidRun s L := by
  refine Reachable.invariant (I := fun s => ∃ L, PidRun s L) (fun s hb => ⟨_, .boot hb⟩) ?_ hs
  rintro s t ⟨L, hL⟩ ⟨op, -, hstep⟩
  exact ⟨_, .step hL hstep⟩

/-- Every tick of a run costs patience, and nothing in it gives some back. -/
theorem WaitingRun.patience (h : WaitingRun a s n t) (hs : KRun (fun op s => op.OnCpu s) s) (hw : Waits s a)
    (ht : Tended s kids order) : KRun (fun op s => op.OnCpu s) t ∧ Waits t a ∧
      ∃ kids' order', Tended t kids' order' ∧ t.patience order' a + n ≤ s.patience order a := by
  induction h with
  | start => exact ⟨hs, hw, kids, order, ht, Nat.le_refl _⟩
  | other h hcond hop hstep hu ih =>
    obtain ⟨hrun, hwaits, kids', order', h', hle⟩ := ih
    obtain ⟨kids'', order'', h'', hle'⟩ := patience_other h' hcond hop hstep hwaits hu
    exact ⟨.next hrun ⟨_, hcond, hstep⟩, hu, kids'', order'', h'', (Nat.add_le_add_right hle' _).trans hle⟩
  | tick h hstep hu ih =>
    obtain ⟨hrun, hwaits, kids', order', h', hle⟩ := ih
    obtain ⟨L, hL⟩ := hrun.pidRun
    obtain ⟨kids'', h'', hle'⟩ := patience_tick h' hrun.accounted (h'.length_le hL) hstep hwaits hu
    exact ⟨.next hrun ⟨_, by trivial, hstep⟩, hu, kids'', order', h'', by omega⟩

end HekaOS.Tasks
