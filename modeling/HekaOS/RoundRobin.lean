import HekaOS.CyclicOrder
import HekaOS.RunningTask

/-!
# Round robin

`pick_next_task` walks once around the scheduler list from the current task on, so it finds the
first other task that is runnable. While nothing but the swap of `schedule` changes a state, the
eligible tasks stay the same, and the CPU makes a turn among them with every switch.
-/

namespace HekaOS.Tasks
open MachineWord KernelMemory PointerChain CyclicOrder

variable {s t u v : KState} {order l l₁ l₂ : List ℕ} {a b fuel n start : ℕ}

/-- The scheduler list in a circle. -/
theorem circle_of_chain (hl : Chain s.next s.taskListHead order) : Circle (nextOrHead s) order := by
  intro i hi
  obtain ⟨l₁, a, l₂, rfl, rfl⟩ : ∃ l₁ a l₂, order = l₁ ++ a :: l₂ ∧ l₁.length = i :=
    ⟨order.take i, order[i], order.drop (i + 1), by simp, by simp; omega⟩
  have hnext : s.next a = l₂.head? := hl.suffix.2.head?_eq
  have hhead : s.taskListHead = (l₁ ++ a :: l₂).head? := hl.head?_eq
  have hget : (l₁ ++ a :: l₂)[l₁.length]?.bind (nextOrHead s) = l₂.head?.or (l₁ ++ a :: l₂).head? := by
    rw [List.getElem?_append_right (Nat.le_refl _), Nat.sub_self, List.getElem?_cons_zero, Option.bind_some,
      nextOrHead, hnext, hhead]
  rw [hget]
  cases l₂ with
  | nil =>
    have hwrap : (l₁.length + 1) % (l₁ ++ [a]).length = 0 := by simp
    rw [hwrap, ← List.head?_eq_getElem?]
    rfl
  | cons b l₂ =>
    have hlt : l₁.length + 1 < (l₁ ++ a :: b :: l₂).length := by simp
    rw [Nat.mod_eq_of_lt hlt]
    simp

/-- The test of `pick_next_task`. -/
def KState.ready (s : KState) (a : ℕ) : Bool := decide (a ≠ s.currentTask ∧ (s.task a).state = .runnable)

theorem ready_iff : s.ready a = true ↔ a ≠ s.currentTask ∧ (s.task a).state = .runnable := decide_eq_true_iff

/-- The loop finds the first other task that is ready among those that are left of the circle. -/
theorem pickLoop_eq (hc : Circle (nextOrHead s) l) (hnodup : l.Nodup) (hstart : l.head? = some start)
    (hl : l = l₁ ++ a :: l₂) (hn : l₂.length < n) : pickLoop s start n a =
      .ok (((a :: l₂).find? s.ready).getD s.currentTask) := by
  induction n generalizing a l₁ l₂ with
  | zero => exact absurd hn (Nat.not_lt_zero _)
  | succ n ih =>
    subst hl
    rw [pickLoop]
    by_cases ha : a ≠ s.currentTask ∧ (s.task a).state = .runnable
    · rw [if_pos ha, List.find?_cons_of_pos (ready_iff.mpr ha)]
      rfl
    · rw [if_neg ha, List.find?_cons_of_neg (mt ready_iff.mp ha)]
      cases l₂ with
      | nil =>
        have hnext : nextOrHead s a = some start := hc.last.trans hstart
        simp only [hnext, ↓reduceIte]
        rfl
      | cons b l₂ =>
        have hnext : nextOrHead s a = some b := hc.next
        have hne : b ≠ start := by
          rintro rfl
          cases l₁ with
          | nil =>
            obtain rfl := Option.some.inj hstart
            simp at hnodup
          | cons c l₁ =>
            obtain rfl := Option.some.inj hstart
            simp at hnodup
        simp only [hnext, if_neg hne]
        have hl : l₁ ++ a :: b :: l₂ = (l₁ ++ [a]) ++ b :: l₂ := by simp
        exact ih hl (by simpa using hn)

/-- `pick_next_task` returns the first runnable task behind the current one. -/
theorem pickNextTask_eq (hl : Chain s.next s.taskListHead order) (hcur : s.currentTask ∈ order)
    (hfuel : order.length ≤ fuel) : pickNextTask fuel s =
      .ok (((others order s.currentTask).find? s.ready).getD s.currentTask) := by
  have hrotate := rotate_idxOf hcur
  have hc : Circle (nextOrHead s) (others order s.currentTask ++ [s.currentTask]) :=
    hrotate ▸ (circle_of_chain hl).rotate _
  have hnodup : (others order s.currentTask ++ [s.currentTask]).Nodup :=
    hrotate ▸ List.nodup_rotate.mpr hl.nodup
  have hlength : (others order s.currentTask).length + 1 = order.length := by
    have := congrArg List.length hrotate
    simpa using this.symm
  have hself : ¬s.ready s.currentTask = true := fun h => (ready_iff.mp h).1 rfl
  have hfind : (others order s.currentTask ++ [s.currentTask]).find? s.ready = (others order s.currentTask).find? s.ready := by
    rw [List.find?_append, List.find?_cons_of_neg hself, List.find?_nil, Option.or_none]
  obtain ⟨start, rest, hstart⟩ : ∃ start rest, others order s.currentTask ++ [s.currentTask] = start :: rest := by
    cases others order s.currentTask with
    | nil => exact ⟨_, _, rfl⟩
    | cons b l => exact ⟨_, _, rfl⟩
  have hnext : nextOrHead s s.currentTask = some start := by
    rw [hc.last, hstart]
    rfl
  simp only [pickNextTask, hnext]
  rw [hstart] at hc hnodup hfind
  have hrest : rest.length < fuel := by
    have := congrArg List.length hstart
    simp at this
    omega
  have hl : start :: rest = [] ++ start :: rest := rfl
  rw [pickLoop_eq hc hnodup rfl hl hrest, hfind]

/-- The tasks that take turns on the CPU. -/
def KState.eligible (s : KState) (a : ℕ) : Bool := decide (a = s.currentTask ∨ (s.task a).state = .runnable)

theorem eligible_iff : s.eligible a = true ↔ a = s.currentTask ∨ (s.task a).state = .runnable := decide_eq_true_iff

/-- What is picked is the next turn among the eligible tasks. -/
theorem pickNextTask_turn (hl : Chain s.next s.taskListHead order) (hcur : s.currentTask ∈ order)
    (hfuel : order.length ≤ fuel) : pickNextTask fuel s = .ok (turn s.eligible order s.currentTask) := by
  have hfind : (others order s.currentTask).find? s.ready = (others order s.currentTask).find? s.eligible := by
    rw [← List.head?_filter, ← List.head?_filter]
    refine congrArg _ (List.filter_congr fun b hb => ?_)
    obtain ⟨-, hne⟩ := (mem_others hl.nodup hcur).mp hb
    simp [KState.ready, KState.eligible, hne]
  rw [pickNextTask_eq hl hcur hfuel, hfind, turn]

/-- The current task is picked when no other one is ready. -/
theorem pickNextTask_current (hl : Chain s.next s.taskListHead order) (hcur : s.currentTask ∈ order)
    (hfuel : order.length ≤ fuel) : pickNextTask fuel s = .ok s.currentTask ↔
      ∀ b ∈ order, b ≠ s.currentTask → (s.task b).state ≠ .runnable := by
  have hmem : ∀ b, b ∈ others order s.currentTask ↔ b ∈ order ∧ b ≠ s.currentTask :=
    fun b => mem_others hl.nodup hcur
  rw [pickNextTask_eq hl hcur hfuel]
  constructor
  · intro h b hb hne hready
    cases hfind : (others order s.currentTask).find? s.ready with
    | none => exact List.find?_eq_none.mp hfind b ((hmem b).mpr ⟨hb, hne⟩) (ready_iff.mpr ⟨hne, hready⟩)
    | some c =>
      rw [hfind] at h
      have hc : s.ready c = true := List.find?_some hfind
      exact (ready_iff.mp hc).1 (Except.ok.inj h)
  · intro h
    have hnone : (others order s.currentTask).find? s.ready = none := by
      refine List.find?_eq_none.mpr fun b hb hready => ?_
      exact h b ((hmem b).mp hb).1 (ready_iff.mp hready).1 (ready_iff.mp hready).2
    rw [hnone]
    rfl

theorem turn_current (hl : Chain s.next s.taskListHead order) (hcur : s.currentTask ∈ order) :
    turn s.eligible order s.currentTask = s.currentTask ↔
      ∀ b ∈ order, b ≠ s.currentTask → (s.task b).state ≠ .runnable := by
  rw [← pickNextTask_current hl hcur (Nat.le_refl _), pickNextTask_turn hl hcur (Nat.le_refl _)]
  exact ⟨congrArg Except.ok, Except.ok.inj⟩

theorem maybeBlock_returns {next : ℕ} (hl : Chain s.next s.taskListHead order) (hfuel : order.length < fuel) :
    ∃ t, maybeBlockFaultyTarget fuel next s = .ok t := by
  unfold maybeBlockFaultyTarget
  split
  · exact ⟨_, rfl⟩
  · rw [hl.collect_eq hfuel]
    simp only [ended, bind, Except.bind]
    split
    · exact ⟨_, rfl⟩
    · exact ⟨_, rfl⟩

theorem maybeUnblock_returns (hl : Chain s.next s.taskListHead order) (hfuel : order.length < fuel) :
    ∃ t, maybeUnblockFaultyTarget fuel s = .ok t := by
  unfold maybeUnblockFaultyTarget
  split
  · exact ⟨_, rfl⟩
  · rw [hl.collect_eq hfuel]
    exact ⟨_, rfl⟩

theorem countLap_returns {next : ℕ} (hl : Chain s.next s.taskListHead order) (hfuel : order.length < fuel) :
    ∃ t, countLap fuel next s = .ok t := by
  unfold countLap
  split
  · exact ⟨_, rfl⟩
  split
  · obtain ⟨v, hv⟩ : ∃ v, ({ s with lapNum := s.lapNum + 1 } : KState) = v := ⟨_, rfl⟩
    have hlv : Chain v.next v.taskListHead order := hv ▸ hl
    rw [hv]
    obtain ⟨u, hu⟩ : ∃ u, maybeBlockFaultyTarget fuel next v = .ok u := maybeBlock_returns hlv hfuel
    have hcalm := calm_maybeBlock hu
    have hhead : u.taskListHead = v.taskListHead := hcalm.rest.head
    have hlu : Chain u.next u.taskListHead order := hhead ▸ hlv.congr fun a _ => (hcalm.task a).next
    obtain ⟨t, ht⟩ := maybeUnblock_returns hlu hfuel
    exact ⟨t, bind_eq_ok.mpr ⟨u, hu, ht⟩⟩
  · exact ⟨_, rfl⟩

/-- Behind its decision to switch, `schedule` starts the task whose turn it is. -/
theorem reschedule_turn (hl : Chain s.next s.taskListHead order) (hcur : s.currentTask ∈ order)
    (hfuel : order.length < fuel) : ∃ t, reschedule fuel s = .ok t ∧
      if turn s.eligible order s.currentTask = s.currentTask then t = refillQuantum s
      else countLap fuel (turn s.eligible order s.currentTask)
        (startTask (turn s.eligible order s.currentTask) (yieldCurrent (refillQuantum s))) = .ok t := by
  have hl' : Chain (refillQuantum s).next (refillQuantum s).taskListHead order :=
    hl.congr fun b _ => s.modify_field _ b _ Task.next rfl
  have heligible : (refillQuantum s).eligible = s.eligible := by
    funext b
    have hstate : ((refillQuantum s).task b).state = (s.task b).state := s.modify_field _ b _ Task.state rfl
    simp only [KState.eligible, hstate]
    rfl
  have hpick := pickNextTask_turn hl' hcur hfuel.le
  rw [heligible] at hpick
  change _ = Except.ok (turn s.eligible order s.currentTask) at hpick
  by_cases hstay : turn s.eligible order s.currentTask = s.currentTask
  · refine ⟨refillQuantum s, bind_eq_ok.mpr ⟨_, hpick, if_pos hstay⟩, ?_⟩
    rw [if_pos hstay]
  · generalize turn s.eligible order s.currentTask = next at hpick hstay ⊢
    have hyield : Calm False s (yieldCurrent (refillQuantum s)) := calm_refillQuantum.trans calm_yieldCurrent
    have hly : Chain (yieldCurrent (refillQuantum s)).next (yieldCurrent (refillQuantum s)).taskListHead order :=
      hyield.rest.head ▸ hl.congr fun b _ => (hyield.task b).next
    have hstart : Chain (startTask next (yieldCurrent (refillQuantum s))).next
        (startTask next (yieldCurrent (refillQuantum s))).taskListHead order :=
      hly.congr fun b _ => KState.modify_field (yieldCurrent (refillQuantum s)) next b
        (fun x => { x with state := .running }) Task.next rfl
    obtain ⟨t, ht⟩ : ∃ t, countLap fuel next (startTask next (yieldCurrent (refillQuantum s))) = .ok t :=
      countLap_returns hstart hfuel
    have hne : next ≠ (refillQuantum s).currentTask := hstay
    refine ⟨t, bind_eq_ok.mpr ⟨next, hpick, ?_⟩, ?_⟩
    · rw [if_neg hne]
      exact ht
    · rw [if_neg hstay]
      exact ht

/-- Selection reads nothing else. -/
structure SameRoster (s t : KState) : Prop where
  state : ∀ a, (t.task a).state = (s.task a).state
  next : t.next = s.next
  head : t.taskListHead = s.taskListHead
  current : t.currentTask = s.currentTask

/-- The CPU changes hands, and with it the states of the two tasks. No other state changes. -/
structure SwapsOnly (s t : KState) : Prop where
  away : t.currentTask ≠ s.currentTask
  state : ∀ a, (t.task a).state = if a = t.currentTask then .running
    else if a = s.currentTask then .runnable else (s.task a).state

/-- A run with its successive switches, listed by the tasks that got the CPU. Between two switches
the roster stays the same, and no switch is pending when `schedule` is called. -/
inductive Rotation : KState → List ℕ → KState → Prop where
  | stay {s t : KState} (h : SameRoster s t) : Rotation s [] t
  | switch {s t u v : KState} {fuel : ℕ} {l : List ℕ} (h : SameRoster s t) (hsettled : t.needResched = false)
      (hrun : schedule fuel t = .ok u) (hswap : SwapsOnly t (contextSwitch u))
      (hrest : Rotation (contextSwitch u) l v) : Rotation s ((contextSwitch u).currentTask :: l) v

theorem SameRoster.eligible (h : SameRoster s t) : t.eligible = s.eligible := by
  funext a
  simp only [KState.eligible, h.state, h.current]

theorem SwapsOnly.eligible (h : SwapsOnly s t) (hnext : s.eligible t.currentTask = true) :
    t.eligible = s.eligible := by
  funext a
  rw [Bool.eq_iff_iff, eligible_iff, eligible_iff, h.state]
  have hrunnable := (eligible_iff.mp hnext).resolve_left h.away
  split
  · rename_i ha
    rw [ha]
    exact iff_of_true (.inl rfl) (.inr hrunnable)
  · rename_i ha
    split
    · rename_i hac
      exact iff_of_true (.inr rfl) (.inl hac)
    · rename_i hac
      simp [ha, hac]

theorem pickLoop_mono (h : pickLoop s start n a = .ok b) {m : ℕ} (hm : n ≤ m) : pickLoop s start m a = .ok b := by
  induction n generalizing a m with
  | zero => cases h
  | succ n ih =>
    obtain ⟨m, rfl⟩ : ∃ k, m = k + 1 := ⟨m - 1, by omega⟩
    rw [pickLoop] at h ⊢
    split at h
    · rename_i hready
      rw [if_pos hready]
      exact h
    · rename_i hidle
      rw [if_neg hidle]
      split at h
      · cases h
      · rename_i c hc
        split at h
        · rename_i hstart
          rw [if_pos hstart]
          exact h
        · rename_i hstart
          rw [if_neg hstart]
          exact ih h (by omega)

/-- However much fuel it took, what was picked is the next turn. -/
theorem pickNextTask_of_ok (hl : Chain s.next s.taskListHead order) (hcur : s.currentTask ∈ order)
    (h : pickNextTask fuel s = .ok a) : a = turn s.eligible order s.currentTask := by
  have hmore : pickNextTask (max fuel order.length) s = .ok a := by
    unfold pickNextTask at h ⊢
    split at h
    · exact nomatch h
    · exact pickLoop_mono h (le_max_left _ _)
  rw [pickNextTask_turn hl hcur (le_max_right _ _)] at hmore
  exact (Except.ok.inj hmore).symm

/-- The task on the CPU behind the switch is the one that was picked. -/
theorem reschedule_current (hs : s.needResched = false) (h : reschedule fuel s = .ok t) :
    pickNextTask fuel (refillQuantum s) = .ok (contextSwitch t).currentTask := by
  obtain ⟨next, hpick, h⟩ := bind_eq_ok.mp h
  rw [hpick]
  split at h
  · rename_i hstay
    obtain rfl := Except.ok.inj h
    have hsettled : (refillQuantum s).needResched = false := hs
    rw [contextSwitch, hsettled, if_neg Bool.false_ne_true, hstay]
  · have hlap := calm_countLap h
    have hresched : t.needResched = true := hlap.rest.needResched
    have hnext : t.nextTask = some next := hlap.rest.nextTask
    rw [contextSwitch, if_pos hresched, hnext]
    rfl

theorem eligible_congr (hcur : t.currentTask = s.currentTask)
    (hstate : ∀ b ≠ s.currentTask, (t.task b).state = (s.task b).state) : t.eligible = s.eligible := by
  funext b
  by_cases hb : b = s.currentTask
  · simp [KState.eligible, hcur, hb]
  · simp only [KState.eligible, hcur, hstate b hb]

/-- A call of `schedule` that only swaps two states makes one turn. -/
theorem switch_turn (hl : Chain s.next s.taskListHead order) (hcur : s.currentTask ∈ order)
    (hs : s.needResched = false) (hrun : schedule fuel s = .ok t) (hswap : SwapsOnly s (contextSwitch t)) :
    (contextSwitch t).currentTask = turn s.eligible order s.currentTask ∧
      Chain (contextSwitch t).next (contextSwitch t).taskListHead order := by
  obtain ⟨u, hu, hrun⟩ := bind_eq_ok.mp hrun
  have hglobals : SameGlobals s u := by
    rcases drainCurrent_cases hu with hcalm | ⟨-, hexits⟩
    · exact hcalm.rest
    · exact hexits.globals
  have hsu : u.needResched = false := hglobals.needResched.trans hs
  have hcu : u.currentTask = s.currentTask := hglobals.currentTask
  -- the CPU changes hands, so the call went behind the decision
  obtain ⟨v, hcalm, hspent, hv⟩ : ∃ v, Calm False u v ∧ (∀ b, (v.task b).state = (u.task b).state) ∧
      reschedule fuel v = .ok t := by
    split at hrun
    · exact ⟨u, .refl _ u, fun b => rfl, hrun⟩
    split at hrun
    · obtain rfl := Except.ok.inj hrun
      have hsettled : (spendTick u).needResched = false := hsu
      have hkeep : contextSwitch (spendTick u) = spendTick u := by
        rw [contextSwitch, hsettled, if_neg Bool.false_ne_true]
      exact absurd ((congrArg KState.currentTask hkeep).trans hcu) hswap.away
    · exact ⟨spendTick u, calm_spendTick, fun b => u.modify_field _ b _ Task.state rfl, hrun⟩
  have hsv : v.needResched = false := hcalm.rest.needResched.trans hsu
  have hcv : v.currentTask = s.currentTask := hcalm.rest.currentTask.trans hcu
  have hswitched := switched_reschedule (.refl False v) hsv hv
  -- a task that died of its signals does not become runnable
  have hlives : (u.task s.currentTask).state ≠ .zombie := by
    intro hz
    have hend := hswap.state s.currentTask
    rw [if_neg (Ne.symm hswap.away), if_pos rfl] at hend
    have hzombie := (hswitched.calm.task s.currentTask).zombie.mpr ((hspent _).trans hz)
    cases hend.symm.trans hzombie
  have hdrained : u = s.set s.currentTask s.current.drained.1 := by
    rw [drainCurrent_eq, dispatched] at hu
    split at hu
    · exact (Except.ok.inj hu).symm
    · exact absurd (doExit_state hu) hlives
  have hnext : v.next = s.next := by
    have hplaced : Calm False s u := by
      rw [hdrained]
      exact calm_set_drained
    exact funext fun a => ((hplaced.trans hcalm).task a).next
  have hlv : Chain v.next v.taskListHead order := by
    rw [hnext, hcalm.rest.head, hglobals.head]
    exact hl
  have hother : ∀ b ≠ s.currentTask, (v.task b).state = (s.task b).state := by
    intro b hb
    rw [hspent, hdrained]
    exact congrArg Task.state (s.modify_task_of_ne _ hb)
  have hrefill : ∀ b, ((refillQuantum v).task b).state = (v.task b).state :=
    fun b => v.modify_field _ b _ Task.state rfl
  have hready : v.eligible = s.eligible := eligible_congr hcv hother
  have heligible : (refillQuantum v).eligible = s.eligible :=
    (eligible_congr (s := v) (t := refillQuantum v) rfl fun b _ => hrefill b).trans hready
  have hlr : Chain (refillQuantum v).next (refillQuantum v).taskListHead order :=
    hlv.congr fun b _ => v.modify_field _ b _ Task.next rfl
  have hcr : (refillQuantum v).currentTask = s.currentTask := hcv
  constructor
  · have hturn := pickNextTask_of_ok hlr (hcr ▸ hcur) (reschedule_current hsv hv)
    rw [hturn, heligible, hcr]
  · have hhead : (contextSwitch t).taskListHead = v.taskListHead := hswitched.calm.rest.head
    exact hhead ▸ hlv.congr fun b _ => (hswitched.calm.task b).next

theorem current_mem_eligible (hcur : s.currentTask ∈ order) : s.currentTask ∈ order.filter s.eligible :=
  List.mem_filter.mpr ⟨hcur, eligible_iff.mpr (.inl rfl)⟩

/-- Every switch of a run makes one turn, and the eligible tasks stay the same. -/
theorem Rotation.turns (h : Rotation s l t) (hl : Chain s.next s.taskListHead order) (hcur : s.currentTask ∈ order) :
    l = List.iterate (turn s.eligible order) (turn s.eligible order s.currentTask) l.length ∧
      t.currentTask = (turn s.eligible order)^[l.length] s.currentTask := by
  induction h with
  | stay h => exact ⟨rfl, h.current⟩
  | @switch s t u v fuel l h hsettled hrun hswap hrest ih =>
    have hlt : Chain t.next t.taskListHead order := by
      rw [h.next, h.head]
      exact hl
    have hct : t.currentTask ∈ order := h.current ▸ hcur
    obtain ⟨hturn, hlu⟩ := switch_turn hlt hct hsettled hrun hswap
    have hmem := turn_mem hlt.nodup (current_mem_eligible hct)
    rw [← hturn] at hmem
    have heligible : (contextSwitch u).eligible = s.eligible :=
      (hswap.eligible (List.of_mem_filter hmem)).trans h.eligible
    obtain ⟨hvisits, hend⟩ := ih hlu (List.mem_of_mem_filter hmem)
    rw [h.eligible, h.current] at hturn
    rw [heligible, hturn] at hvisits hend
    constructor
    · rw [List.length_cons, List.iterate, ← hvisits, hturn]
    · rw [List.length_cons, Function.iterate_succ_apply]
      exact hend

theorem countLap_marked {next : ℕ} (hblock : s.blockedMarker = true) (hunblock : s.unblockedMarker = true)
    (h : countLap fuel next s = .ok t) : t.task = s.task := by
  unfold countLap at h
  split at h
  · obtain rfl := Except.ok.inj h
    rfl
  split at h
  · obtain ⟨u, hu, h⟩ := bind_eq_ok.mp h
    rw [maybeBlockFaultyTarget, if_pos (.inl hblock)] at hu
    obtain rfl := Except.ok.inj hu
    rw [maybeUnblockFaultyTarget, if_pos (.inl hunblock)] at h
    obtain rfl := Except.ok.inj h
    rfl
  · obtain rfl := Except.ok.inj h
    rfl

theorem spendTick_timeLeft (s : KState) : (spendTick s).current.timeLeft = sub32 s.current.timeLeft 1 := by
  simp only [spendTick, KState.current, KState.modify_currentTask, KState.modify_task_self]

/-- A tick of a running task without signals uses up a part of its quantum. -/
theorem schedule_running (hp : s.current.pendingSignals = 0) (hrun : s.current.state = .running) :
    schedule fuel s = if 0 < sub32 s.current.timeLeft 1 then .ok (spendTick s) else reschedule fuel (spendTick s) := by
  have hdrain : drainCurrent fuel s = .ok s := by
    rw [drainCurrent, hp, if_neg (by simp)]
  rw [schedule, hdrain, ← spendTick_timeLeft]
  simp only [bind, Except.bind, hrun, ne_eq, not_true_eq_false, if_false]

/-- The last tick of a quantum without signals, when the test of the laps is over. -/
def lastTick (s : KState) : KState :=
  { s.modify s.currentTask fun x => { x with pendingSignals := 0, timeLeft := 1 } with
    needResched := false
    blockedMarker := true
    unblockedMarker := true }

theorem lastTick_field {α : Type} (s : KState) (a : ℕ) (g : Task → α)
    (hg : ∀ x p n, g { x with pendingSignals := p, timeLeft := n } = g x) : g ((lastTick s).task a) = g (s.task a) :=
  s.modify_field s.currentTask a (fun x => { x with pendingSignals := 0, timeLeft := 1 }) g (hg _ _ _)

theorem sameRoster_lastTick (s : KState) : SameRoster s (lastTick s) :=
  ⟨fun a => lastTick_field s a Task.state fun _ _ _ => rfl, funext fun a => lastTick_field s a Task.next fun _ _ _ => rfl,
    rfl, rfl⟩

theorem startTask_task (next : ℕ) (s : KState) :
    (startTask next s).task = (s.modify next fun x => { x with state := .running }).task := rfl

/-- The states behind a switch that leaves the test of the laps alone. -/
theorem reschedule_swaps (hl : Chain s.next s.taskListHead order) (hcur : s.currentTask ∈ order)
    (hrun : s.current.state = .running) (hblock : s.blockedMarker = true) (hunblock : s.unblockedMarker = true)
    (haway : turn s.eligible order s.currentTask ≠ s.currentTask) :
    ∃ t, reschedule (order.length + 1) s = .ok t ∧ SwapsOnly s (contextSwitch t) := by
  obtain ⟨t, ht, hturn⟩ := reschedule_turn hl hcur (Nat.lt_succ_self _)
  rw [if_neg haway] at hturn
  generalize turn s.eligible order s.currentTask = next at haway hturn
  have hrefill : ∀ b, ((refillQuantum s).task b).state = (s.task b).state :=
    fun b => s.modify_field _ b _ Task.state rfl
  have hyield : yieldCurrent (refillQuantum s) =
      (refillQuantum s).modify s.currentTask fun x => { x with state := .runnable } :=
    if_pos ((hrefill _).trans hrun)
  rw [hyield] at hturn
  have htask := countLap_marked (by exact hblock) (by exact hunblock) hturn
  have hlap := calm_countLap hturn
  have hresched : t.needResched = true := hlap.rest.needResched
  have hnext : t.nextTask = some next := hlap.rest.nextTask
  have hcurrent : (contextSwitch t).currentTask = next := by
    rw [contextSwitch, if_pos hresched, hnext]
    rfl
  have htasks : (contextSwitch t).task = t.task := by
    rw [contextSwitch, if_pos hresched]
  refine ⟨t, ht, hcurrent ▸ haway, fun a => ?_⟩
  rw [hcurrent, htasks, htask]
  by_cases ha : a = next
  · rw [if_pos ha, ha, startTask_task, KState.modify_task_self]
  rw [if_neg ha, startTask_task, KState.modify_task_of_ne _ _ ha]
  by_cases hac : a = s.currentTask
  · rw [if_pos hac, hac, KState.modify_task_self]
  · rw [if_neg hac, KState.modify_task_of_ne _ _ hac]
    exact hrefill a

/-- If another task is eligible, there are runs with any number of switches. -/
theorem exists_rotation (n : ℕ) (hl : Chain s.next s.taskListHead order) (hcur : s.currentTask ∈ order)
    (hrun : s.current.state = .running) (hmany : 2 ≤ (order.filter s.eligible).length) :
    ∃ l t, Rotation s l t ∧ l.length = n := by
  induction n generalizing s with
  | zero => exact ⟨[], s, .stay ⟨fun _ => rfl, rfl, rfl, rfl⟩, rfl⟩
  | succ n ih =>
    have hroster := sameRoster_lastTick s
    have hsettled : (lastTick s).needResched = false := rfl
    have hblock : (lastTick s).blockedMarker = true := rfl
    have hunblock : (lastTick s).unblockedMarker = true := rfl
    have hself : (lastTick s).current = { s.current with pendingSignals := 0, timeLeft := 1 } :=
      s.modify_task_self s.currentTask fun x => { x with pendingSignals := 0, timeLeft := 1 }
    have hpending : (lastTick s).current.pendingSignals = 0 := by rw [hself]
    have htime : (lastTick s).current.timeLeft = 1 := by rw [hself]
    generalize lastTick s = w at hroster hsettled hblock hunblock hpending htime
    have hstate : ∀ b, ((spendTick w).task b).state = (w.task b).state :=
      fun b => w.modify_field _ b _ Task.state rfl
    have hlw : Chain w.next w.taskListHead order := by
      rw [hroster.next, hroster.head]
      exact hl
    have hcw : w.currentTask ∈ order := hroster.current ▸ hcur
    have hrunw : w.current.state = .running := by
      rw [KState.current, hroster.state, hroster.current]
      exact hrun
    have heligible : (spendTick w).eligible = s.eligible :=
      (eligible_congr (s := w) (t := spendTick w) rfl fun b _ => hstate b).trans hroster.eligible
    have haway : turn (spendTick w).eligible order (spendTick w).currentTask ≠ (spendTick w).currentTask := by
      rw [heligible]
      exact hroster.current ▸ turn_ne hl.nodup (current_mem_eligible hcur) hmany
    obtain ⟨t, ht, hswaps⟩ := reschedule_swaps (s := spendTick w)
      (hlw.congr fun b _ => w.modify_field _ b _ Task.next rfl) hcw ((hstate _).trans hrunw) hblock hunblock haway
    have hrun' : schedule (order.length + 1) w = .ok t := by
      have hlast : ¬0 < sub32 w.current.timeLeft 1 := by
        rw [htime]
        decide
      rw [schedule_running hpending hrunw, if_neg hlast]
      exact ht
    have hswap : SwapsOnly w (contextSwitch t) := ⟨hswaps.away, fun a => by rw [hswaps.state, hstate]; rfl⟩
    obtain ⟨hturn, hlt⟩ := switch_turn hlw hcw hsettled hrun' hswap
    have hmem := turn_mem hlw.nodup (current_mem_eligible hcw)
    rw [← hturn] at hmem
    have hsame : (contextSwitch t).eligible = s.eligible :=
      (hswap.eligible (List.of_mem_filter hmem)).trans hroster.eligible
    have hrunning : (contextSwitch t).current.state = .running := by
      rw [KState.current, hswap.state, if_pos rfl]
    obtain ⟨l, v, hv, hlength⟩ := ih hlt (List.mem_of_mem_filter hmem) hrunning (hsame ▸ hmany)
    exact ⟨_, v, .switch hroster hsettled hrun' hswap hv, by rw [List.length_cons, hlength]⟩

/-- How `schedule` chooses, and what comes of it. -/
structure RoundRobin (s : KState) (order : List ℕ) : Prop where
  picks : ∀ fuel, order.length ≤ fuel →
    pickNextTask fuel s = .ok (((others order s.currentTask).find? s.ready).getD s.currentTask)
  stays : ∀ fuel, order.length ≤ fuel → (pickNextTask fuel s = .ok s.currentTask ↔
    ∀ b ∈ order, b ≠ s.currentTask → (s.task b).state ≠ .runnable)
  lap : ∀ l t, Rotation s l t → l.length = (order.filter s.eligible).length →
    l.Perm (order.filter s.eligible) ∧ t.currentTask = s.currentTask
  /-- With two eligible tasks the CPU can go round for ever. -/
  runs : s.current.state = .running → 2 ≤ (order.filter s.eligible).length →
    ∀ n, ∃ l t, Rotation s l t ∧ l.length = n

/-- The choice of the next task is complete and fair, on every scheduler list that holds the task on
the CPU, whatever the states are. -/
theorem round_robin (s : KState) (order : List ℕ) (hl : Chain s.next s.taskListHead order)
    (hcur : s.currentTask ∈ order) : RoundRobin s order := by
  refine ⟨fun fuel hfuel => pickNextTask_eq hl hcur hfuel, fun fuel hfuel => pickNextTask_current hl hcur hfuel,
    fun l t h hlength => ?_, fun hrun hmany n => exists_rotation n hl hcur hrun hmany⟩
  have heligible := current_mem_eligible hcur
  obtain ⟨hvisits, hend⟩ := h.turns hl hcur
  rw [hlength] at hvisits hend
  rw [hvisits, hend]
  exact ⟨lap_perm hl.nodup heligible, lap_returns hl.nodup heligible⟩

/-- A user task on the CPU takes turns with init, while `init_task` is stopped. -/
theorem round_robin_user : [11, 10, 0].filter userOnCpu.eligible = [11, 10] ∧
    userOnCpu.current.state = .running ∧ RoundRobin userOnCpu [11, 10, 0] := by
  refine ⟨by decide +kernel, by decide +kernel, round_robin userOnCpu [11, 10, 0] ?_ (by decide +kernel)⟩
  simp only [chain_cons, chain_nil]
  decide +kernel

end HekaOS.Tasks
