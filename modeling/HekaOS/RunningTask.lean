import HekaOS.HaltedReturn

/-!
# The task on the CPU is the one that runs

At most one task is marked as running, and it is the one on the CPU. Behind a tick the task on the
CPU is running unless it stopped, ended or went to sleep while nobody else is ready:
`pick_next_task` walks once around the scheduler list and then leaves things as they are.
-/

namespace HekaOS.Tasks
open KernelMemory PointerChain

variable {s t u v : KState} {kids : ℕ → List ℕ} {order : List ℕ} {a b c fuel n start : ℕ}

/-- Every listed task that is marked as running is the one on the CPU, and `tss.esp0` is the top
of the kernel stack of a Ring 3 task on the CPU. -/
theorem one_running_task (s : KState) (hs : KRun (fun op s => op.OnCpu s) s) :
    (∀ a, Listed s a → (s.task a).state = .running → a = s.currentTask) ∧
      (s.current.isUserspace = true → s.esp0 = s.current.kstack + kstackPages * pageSize) := by
  obtain ⟨kids, order, h⟩ := hs.tended
  refine ⟨fun a ha hrun => ?_, h.stack⟩
  obtain ⟨l, hl, hmem⟩ := ha
  obtain rfl := hl.unique h.list
  exact h.running a (h.live hmem) hrun

/-- A user task is on the CPU. -/
theorem one_running_task_user : (userOnCpu.task 11).state = .running ∧ userOnCpu.currentTask = 11 ∧
    userOnCpu.esp0 = kstackVa 3 + kstackPages * pageSize := by
  have hrun : KRun (fun op s => op.OnCpu s) userOnCpu := KRun.userOnCpu trivial trivial trivial trivial
  have hlisted : Chain userOnCpu.next userOnCpu.taskListHead [11, 10, 0] := by
    simp only [chain_cons, chain_nil]
    decide +kernel
  have hrunning : (userOnCpu.task 11).state = .running := by decide +kernel
  obtain ⟨hone, hstack⟩ := one_running_task userOnCpu hrun
  refine ⟨hrunning, (hone 11 ⟨_, hlisted, by decide⟩ hrunning).symm, ?_⟩
  rw [hstack (by decide +kernel)]
  decide +kernel

/-- Draining its signals leaves the current task running. -/
def KState.GoesOn (s : KState) : Prop :=
  s.current.drained.1.state = .running ∧ s.current.drained.2 = none

/-- The same, read off the pending signals: none of those that are taken ends or stops the task. -/
theorem goesOn_iff (hw : WithinNsig s.current.pendingSignals) :
    s.GoesOn ↔ s.current.state = .running ∧ ∀ e ∈ s.current.takes, endsWith e = false := by
  obtain ⟨p, st, hfst, hst⟩ := drain_fst 32 s.current.pendingSignals s.current
  change s.current.drained.1 = _ at hfst
  have hstate : s.current.drained.1.state = st := by rw [hfst]
  by_cases hrun : s.current.state = .running
  · have htakes := drained_takes hw (by rw [hrun]; decide) (by rw [hrun]; decide)
    have hstays : s.current.drained.1.state = .running ↔ s.current.drained.1.state ≠ .stopped := by
      rw [hstate]
      rcases hst with rfl | ⟨rfl, -⟩
      · rw [hrun]
        decide
      · decide
    rw [KState.GoesOn, hstays, ne_eq, htakes.stopped, ← not_ne_iff, htakes.dies, and_iff_right hrun]
    simp only [endsWith, not_exists, not_and, Bool.and_eq_false_iff, Bool.or_eq_false_iff, decide_eq_false_iff_not,
      Bool.not_eq_true]
    constructor
    · rintro ⟨hstops, hdies⟩ e he
      by_cases hdflt : e.2 = .dflt
      · exact .inr ⟨hdies e he hdflt, hstops e he hdflt⟩
      · exact .inl hdflt
    · intro hnone
      refine ⟨fun e he hdflt => ?_, fun e he hdflt => ?_⟩
      · exact ((hnone e he).resolve_left (not_not.mpr hdflt)).2
      · exact ((hnone e he).resolve_left (not_not.mpr hdflt)).1
  · refine iff_of_false (fun hgoes => ?_) fun h => hrun h.1
    have hends := hgoes.1
    rw [hstate] at hends
    rcases hst with rfl | ⟨rfl, -⟩
    · exact hrun hends
    · cases hends

theorem drainCurrent_eq (fuel : ℕ) (s : KState) :
    drainCurrent fuel s = dispatched fuel s.currentTask s.current.drained s := by
  unfold drainCurrent
  split
  · exact kernelSignalDispatch_eq fuel s.currentTask s
  · rename_i hnone
    rw [not_not] at hnone
    have hdrained : s.current.drained = (s.current, none) := by
      rw [Task.drained, hnone, drain, if_pos rfl]
    rw [hdrained]
    exact congrArg Except.ok (s.set_self s.currentTask).symm

/-- The states behind the draining of signals at the start of `schedule`. -/
theorem Tended.drained (h : Tended s kids order) (hu : drainCurrent fuel s = .ok u) :
    (u.current.state = .running ↔ s.GoesOn) ∧ ∀ b ≠ s.currentTask,
      ((u.task b).state = .runnable ↔ (s.task b).state = .runnable ∨
        s.current.Dies ∧ (s.task b).state = .blocked ∧ s.Notified s.currentTask b) := by
  rw [drainCurrent_eq, dispatched] at hu
  have hother : ∀ b ≠ s.currentTask, (s.set s.currentTask s.current.drained.1).task b = s.task b :=
    fun b hb => s.modify_task_of_ne _ hb
  split at hu
  · rename_i hlives
    obtain rfl := Except.ok.inj hu
    have hself : (s.set s.currentTask s.current.drained.1).current = s.current.drained.1 := s.modify_task_self _ _
    refine ⟨?_, fun b hb => ?_⟩
    · rw [hself]
      exact ⟨fun hrun => ⟨hrun, hlives⟩, fun hrun => hrun.1⟩
    · rw [hother b hb]
      exact ⟨.inl, fun hready => hready.resolve_right fun hd => hd.1 hlives⟩
  · rename_i signum hdies
    have hcalm : Calm False s (s.set s.currentTask s.current.drained.1) := calm_set_drained
    have hkin := h.kin.sameLinks hcalm.calmLive.sameLinks
    have hself : s.currentTask ∉ kids s.currentTask := (h.calm hcalm.calmLive).not_own hu
    obtain ⟨-, -, -, -, htask, hrest⟩ := doExit_spec hkin (hcalm.rest.live ▸ h.current_mem) hself hu
    have hcur : u.currentTask = s.currentTask := by
      rw [hrest]
      rfl
    refine ⟨iff_of_false (fun hrun => ?_) fun hgo => ?_, fun b hb => ?_⟩
    · obtain ⟨p, sb, ch, hd⟩ := htask s.currentTask
      rw [KState.current, hcur, hd, if_pos rfl] at hrun
      cases hrun
    · cases hdies.symm.trans hgo.2
    · have hnotified : (s.set s.currentTask s.current.drained.1).Notified s.currentTask b ↔
          s.Notified s.currentTask b := by
        have hplaced := hcalm.task s.currentTask
        unfold KState.Notified
        rw [hplaced.parent, hplaced.children, hcalm.rest.reaper]
      have hdead : s.current.Dies := by
        rw [Task.Dies, hdies]
        exact Option.some_ne_none signum
      obtain ⟨p, sb, ch, hd⟩ := htask b
      rw [hd, if_neg hb]
      simp only [Task.notifiedIf, hother b hb, hnotified]
      split
      · rename_i hwoken
        exact iff_of_true rfl (.inr ⟨hdead, hwoken.2, hwoken.1⟩)
      · rename_i hsame
        refine ⟨.inl, fun hready => hready.resolve_right fun hwoken => hsame ⟨hwoken.2.2, hwoken.2.1⟩⟩

end HekaOS.Tasks
