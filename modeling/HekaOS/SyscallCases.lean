import HekaOS.KernelSteps
import HekaOS.TaskLinks

/-!
# What a system call can do

Most calls only move bytes: `Quiet` says that a call changed no more of the tasks than their
buffers, handlers and pending sets. The others end the current task, fork it or send a signal.
-/

namespace HekaOS.Tasks
open MachineWord KernelMemory PointerChain

variable {s t u : KState} {a c n : ℕ} {f : Task → Task}

/-- A task with the buffers, the handlers and the pending set of another. -/
def Task.quietly (x y : Task) : Task :=
  { x with
    pendingSignals := y.pendingSignals
    signalHandlers := y.signalHandlers
    logBuf := y.logBuf
    logHead := y.logHead
    logLen := y.logLen
    inBuf := y.inBuf
    inHead := y.inHead
    inTail := y.inTail }

/-- No field of a task changed that decides about its life or its place. -/
structure Quiet (s t : KState) : Prop where
  rest : t = { s with task := t.task, interruptFlag := t.interruptFlag, user := t.user, trace := t.trace }
  task : ∀ a, ∃ y, t.task a = (s.task a).quietly y

theorem Quiet.refl (s : KState) : Quiet s s := ⟨rfl, fun a => ⟨s.task a, rfl⟩⟩

theorem Quiet.trans (h₁ : Quiet s t) (h₂ : Quiet t u) : Quiet s u := by
  refine ⟨?_, fun a => ?_⟩
  · rw [h₂.rest, h₁.rest]
  · obtain ⟨y, e₁⟩ := h₁.task a
    obtain ⟨y', e₂⟩ := h₂.task a
    exact ⟨y', by rw [e₂, e₁]; rfl⟩

theorem Quiet.field {α : Type} (h : Quiet s t) (g : Task → α) (hg : ∀ x y, g (x.quietly y) = g x) :
    g (t.task a) = g (s.task a) := by
  obtain ⟨y, e⟩ := h.task a
  rw [e, hg]

theorem quiet_same (h : t = { s with interruptFlag := t.interruptFlag, user := t.user, trace := t.trace }) :
    Quiet s t := by
  refine ⟨?_, fun a => ⟨s.task a, ?_⟩⟩
  · rw [h]
  · rw [h]
    rfl

theorem quiet_modify (s : KState) (a : ℕ) (f : Task → Task)
    (hf : f (s.task a) = (s.task a).quietly (f (s.task a))) : Quiet s (s.modify a f) := by
  refine ⟨rfl, fun b => ?_⟩
  by_cases hb : b = a
  · subst hb
    rw [s.modify_task_self]
    exact ⟨_, hf⟩
  · rw [s.modify_task_of_ne f hb]
    exact ⟨s.task b, rfl⟩

theorem quiet_writeUser (s : KState) (addr : ℕ) (bytes : List ℕ) : Quiet s (s.writeUser addr bytes) :=
  quiet_same rfl

theorem quiet_inputRead {dst left : ℕ} : Quiet s (taskInputRead a dst left n s).2 := by
  induction left generalizing n s with
  | zero => exact .refl s
  | succ left ih =>
    rw [taskInputRead]
    split
    · exact .refl s
    · dsimp only
      split
      · exact .refl s
      · exact ((quiet_writeUser s _ _).trans (quiet_modify _ a _ rfl)).trans ih

theorem quiet_sysRead {fd buf count : ℕ} : Quiet s (sysRead fd buf count s).2 := by
  unfold sysRead
  split
  · exact .refl s
  split
  · exact .refl s
  · exact quiet_inputRead

theorem quiet_logPutchar {env : SysEnv} : Quiet s (taskLogPutchar env a c s) := by
  unfold taskLogPutchar
  split
  · exact .refl s
  · exact quiet_modify s a _ rfl

theorem quiet_sysWrite {env : SysEnv} {fd buf count : ℕ} : Quiet s (sysWrite env fd buf count s).2 := by
  unfold sysWrite
  split
  · exact .refl s
  split
  · exact .refl s
  · suffices h : ∀ (l : List ℕ) (v : KState), Quiet v (l.foldl (fun s i =>
        let a := add32 buf i
        taskLogPutchar env s.currentTask (s.user a % 256) (s.access a 1)) v) from h _ s
    intro l
    induction l with
    | nil => exact fun v => .refl v
    | cons i l ih =>
      intro v
      have haccess : Quiet v (v.access (add32 buf i) 1) := quiet_same rfl
      exact (haccess.trans quiet_logPutchar).trans (ih _)

theorem quiet_register {signum handler : ℕ} : Quiet s (kernelSignalRegister a signum handler s) := by
  unfold kernelSignalRegister
  split
  · exact .refl s
  split
  · exact .refl s
  · exact quiet_modify s a _ rfl

theorem quiet_sysSignal {signum handler : ℕ} : Quiet s (sysSignal signum handler s).2 := by
  unfold sysSignal
  split
  · exact .refl s
  · exact quiet_register

theorem quiet_deliver {frame : TrapFrame} : Quiet s (signalCheckAndDeliver frame s).2 := by
  unfold signalCheckAndDeliver
  split
  · exact .refl s
  split
  · exact .refl s
  · rename_i bit _
    refine (quiet_modify s s.currentTask (clearPending bit) rfl).trans ?_
    dsimp only [setupUserSigframe]
    exact (((quiet_writeUser _ _ _).trans (quiet_writeUser _ _ _)).trans (quiet_writeUser _ _ _)).trans
      (quiet_writeUser _ _ _)

/-- `sys_kill` does nothing, sends a signal to another task, or sends one to the current task
and acts on it at once. -/
theorem sysKill_cases {env : SysEnv} {pid signum : ℕ}
    (h : afterCall (sysKill env pid signum s) = some t) :
    t = s ∨ (∃ target, t = kernelSignalSend target signum s) ∨
      (killTarget env.fuel pid s = some (some s.currentTask) ∧
        kernelSignalDispatch env.fuel s.currentTask (kernelSignalSend s.currentTask signum s) = .ok t) := by
  unfold sysKill at h
  split at h
  · exact .inl (Option.some.inj h).symm
  split at h
  · exact nomatch h
  · exact .inl (Option.some.inj h).symm
  · rename_i target htarget
    dsimp only at h
    split at h
    · exact .inl (Option.some.inj h).symm
    split at h
    · exact .inl (Option.some.inj h).symm
    split at h
    · rename_i hself
      obtain rfl : target = s.currentTask := hself
      exact .inr (.inr ⟨htarget, afterCall_finish h⟩)
    · exact .inr (.inl ⟨target, (Option.some.inj h).symm⟩)

/-- A state that differs in the memory of the user, the trace and the interrupt flag. -/
def SameKernel (s t : KState) : Prop :=
  t = { s with interruptFlag := t.interruptFlag, user := t.user, trace := t.trace }

/-- A zombie that was found is reaped. -/
theorem collectZombie_cases {fuel wstatus zombie : ℕ}
    (h : afterCall (collectZombie fuel wstatus zombie s) = some t) :
    ∃ u, SameKernel s u ∧ taskReap fuel zombie u = .ok t := by
  refine ⟨_, ?_, afterCall_finish h⟩
  split <;> rfl

/-- A round of `sys_wait` returns an error, blocks the current task or reaps a child. -/
theorem waitRound_cases {first : Bool} {fuel wstatus : ℕ} (h : waitRound first fuel wstatus s = some t) :
    (first = true ∧ s.current.children = none ∧ some s.currentTask ≠ s.initProc ∧ t = s) ∨
      (¬(first ∧ s.current.children = none ∧ some s.currentTask ≠ s.initProc) ∧
        findZombie fuel s = some none ∧ t = blockCurrent s) ∨
      ∃ zombie u, findZombie fuel s = some (some zombie) ∧ SameKernel s u ∧ taskReap fuel zombie u = .ok t := by
  unfold waitRound at h
  split at h
  · rename_i hnone
    exact .inl ⟨hnone.1, hnone.2.1, hnone.2.2, (Option.some.inj h).symm⟩
  rename_i henters
  split at h
  · exact nomatch h
  · rename_i hscan
    exact .inr (.inl ⟨henters, hscan, (Option.some.inj h).symm⟩)
  · rename_i zombie hscan
    obtain ⟨u, hu, hreap⟩ := collectZombie_cases h
    exact .inr (.inr ⟨zombie, u, hscan, hu, hreap⟩)

/-- The state behind a system call other than `sys_wait`. -/
inductive SyscallCase (env : SysEnv) (frame : TrapFrame) (s t : KState) : Prop where
  | exit (h : syscallTable frame.eax = some .exit) {u : KState}
      (hu : doExit env.fuel s.currentTask frame.ebx { s with interruptFlag := false } = .ok u)
      (ht : t = { u with interruptFlag := true })
  | fork (h : syscallTable frame.eax = some .fork)
      (ht : t = { (taskFork env.spawn { s with interruptFlag := false }).2 with interruptFlag := true })
  | kill (h : syscallTable frame.eax = some .kill) {u : KState}
      (hu : afterCall (sysKill env frame.ebx frame.ecx { s with interruptFlag := false }) = some u)
      (ht : t = { u with interruptFlag := true })
  | quiet (h : Quiet s t)

@[simp] theorem setEax_fst (r : Outcome × TrapFrame × KState) : (setEax r).1 = r.1 := by
  unfold setEax
  split <;> rfl

@[simp] theorem setEax_state (r : Outcome × TrapFrame × KState) : (setEax r).2.2 = r.2.2 := by
  unfold setEax
  split <;> rfl

/-- A call that came to an end has left the state it computed. -/
theorem afterCall_eq_some {o : Outcome} (h : afterCall (o, t) = some u) :
    u = t ∧ ∀ v, afterCall (o, v) = some v := by
  unfold afterCall at h
  split at h
  · rename_i hr
    exact ⟨(Option.some.inj h).symm, fun v => by simp_all [afterCall]⟩
  · rename_i hr
    exact ⟨(Option.some.inj h).symm, fun v => by simp_all [afterCall]⟩
  · exact nomatch h

theorem syscall_cases {env : SysEnv} {frame : TrapFrame} (hwait : syscallTable frame.eax ≠ some .waitpid)
    (h : (KOp.syscall env frame).run s = some t) : SyscallCase env frame s t := by
  have hflag : Quiet s { s with interruptFlag := false } := quiet_same rfl
  have hback : ∀ v : KState, Quiet v { v with interruptFlag := true } := fun v => quiet_same rfl
  obtain ⟨rfl, hdone⟩ := afterCall_eq_some h
  clear h
  have hquiet : ∀ v : KState, Quiet { s with interruptFlag := false } v →
      SyscallCase env frame s { v with interruptFlag := true } := fun v hv =>
    .quiet ((hflag.trans hv).trans (hback v))
  unfold syscallDispatch at hdone ⊢
  cases hn : syscallTable frame.eax with
  | none => exact hquiet _ (.refl _)
  | some n =>
    simp only [hn, setEax_fst, setEax_state] at hdone ⊢
    cases n with
    | exit =>
      simp only [syscallHandler, sysExit] at hdone ⊢
      split at hdone
      · rename_i u hu
        exact .exit hn hu rfl
      · exact absurd (hdone s) (by simp [afterCall])
    | fork =>
      refine .fork hn ?_
      simp only [syscallHandler, sysFork]
      split <;> simp_all
    | waitpid => exact absurd hn hwait
    | kill => exact .kill hn (hdone _) rfl
    | read => exact hquiet _ quiet_sysRead
    | write => exact hquiet _ quiet_sysWrite
    | signal => exact hquiet _ quiet_sysSignal
    | sigreturn => exact hquiet _ (quiet_same rfl)
    | getuid => exact hquiet _ (.refl _)
    | geteuid => exact hquiet _ (.refl _)

end HekaOS.Tasks
