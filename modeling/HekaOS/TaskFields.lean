import HekaOS.CpuRuns

/-!
# Fields that outlast the creation of a task

Most fields of a task are written when it is created and never again: its quantum, its kernel stack, its
page directory. What an operation does to such a field is the same for all of them, and so is what a
creator leaves in the struct of a new task.
-/

namespace HekaOS.Tasks
open KernelMemory PointerChain

variable {α : Type} {g : Task → α} {P Q : Task → Prop} {s t u : KState} {a c n p q fuel code signum : ℕ} {f : Task → Task}
  {env : SpawnEnv} {op : KOp}

/-- The value does not depend on the links, the fate, the signals and the buffers of a task. -/
structure Lasting (g : Task → α) : Prop where
  links : ∀ x p sb ch n, g { x with parent := p, sibling := sb, children := ch, next := n } = g x
  fate : ∀ x st sig code, g { x with state := st, pendingSignals := sig, exitCode := code } = g x
  quiet : ∀ x y, g (x.quietly y) = g x

def SameField (g : Task → α) (s t : KState) : Prop := ∀ a, g (t.task a) = g (s.task a)

theorem SameField.trans (h₁ : SameField g s t) (h₂ : SameField g t u) : SameField g s u :=
  fun a => (h₂ a).trans (h₁ a)

theorem contextSwitch_task (s : KState) : (contextSwitch s).task = s.task := by
  unfold contextSwitch
  split <;> rfl

theorem sameField_modify (hf : g (f (s.task a)) = g (s.task a)) : SameField g s (s.modify a f) :=
  fun b => s.modify_field a b f g hf

namespace Lasting

variable (hg : Lasting g)
include hg

theorem state (x : Task) (st : TaskState) : g { x with state := st } = g x := hg.fate x st x.pendingSignals x.exitCode

theorem sameQuiet (h : Quiet s t) : SameField g s t := fun _ => h.field g hg.quiet

theorem sameLinks (h : LinksOnly s t) : SameField g s t := fun _ => h.field g fun x p sb ch => hg.links x p sb ch x.next

theorem sameSend : SameField g s (kernelSignalSend a signum s) :=
  fun _ => kernelSignalSend_field g fun x sig st => hg.fate x st sig x.exitCode

theorem sameDoExit (h : doExit fuel a code s = .ok t) : SameField g s t := by
  refine doExit_field h g fun x st sig code p ch sb => ?_
  exact (hg.links { x with state := st, pendingSignals := sig, exitCode := code } p sb ch x.next).trans (hg.fate x st sig code)

theorem sameDispatch (h : kernelSignalDispatch fuel a s = .ok t) : SameField g s t := by
  rw [kernelSignalDispatch_eq, dispatched] at h
  have hset : SameField g s (s.set a (s.task a).drained.1) := by
    obtain ⟨pending, st, hd, -⟩ := drain_fst 32 (s.task a).pendingSignals (s.task a)
    refine sameField_modify (a := a) (f := fun _ => (s.task a).drained.1) ?_
    rw [Task.drained, hd]
    exact hg.fate _ st pending (s.task a).exitCode
  split at h
  · obtain rfl := Except.ok.inj h
    exact hset
  · exact hset.trans (hg.sameDoExit h)

theorem sameDrain (h : drainCurrent fuel s = .ok t) : SameField g s t := by
  unfold drainCurrent at h
  split at h
  · exact hg.sameDispatch h
  · obtain rfl := Except.ok.inj h
    exact fun _ => rfl

theorem sameReap (h : taskReap fuel a s = .ok t) : SameField g s t := taskReap_field h g hg.links

theorem sameUnblock (l : List ℕ) : SameField g s (l.foldl unblock s) := by
  induction l generalizing s with
  | nil => exact fun _ => rfl
  | cons a l ih =>
    have hstep : SameField g s (unblock s a) := by
      unfold unblock
      split
      · exact fun _ => rfl
      · exact sameField_modify (hg.state _ _)
    exact hstep.trans ih

theorem sameCountLap {next : ℕ} (h : countLap fuel next s = .ok t) : SameField g s t := by
  unfold countLap at h
  split at h
  · obtain rfl := Except.ok.inj h
    exact fun _ => rfl
  split at h
  · obtain ⟨u, hu, h⟩ := bind_eq_ok.mp h
    have hblock : SameField g s u := by
      unfold maybeBlockFaultyTarget at hu
      split at hu
      · obtain rfl := Except.ok.inj hu
        exact fun _ => rfl
      · obtain ⟨l, -, hu⟩ := bind_eq_ok.mp hu
        split at hu
        · obtain rfl := Except.ok.inj hu
          exact fun _ => rfl
        · rename_i c hc
          obtain rfl := Except.ok.inj hu
          exact sameField_modify (s := s) (a := c) (f := fun x => { x with state := .blocked }) (hg.state _ _)
    refine hblock.trans ?_
    unfold maybeUnblockFaultyTarget at h
    split at h
    · obtain rfl := Except.ok.inj h
      exact fun _ => rfl
    · obtain ⟨l, -, h⟩ := bind_eq_ok.mp h
      obtain rfl := Except.ok.inj h
      exact hg.sameUnblock (s := u) l
  · obtain rfl := Except.ok.inj h
    exact fun _ => rfl

/-- Behind the refill of its quantum, `schedule` writes no other field of the current task either. -/
theorem sameReschedule (h : reschedule fuel s = .ok t) : SameField g (refillQuantum s) t := by
  obtain ⟨next, -, h⟩ := bind_eq_ok.mp h
  split at h
  · obtain rfl := Except.ok.inj h
    exact fun _ => rfl
  · have hyield : SameField g (refillQuantum s) (yieldCurrent (refillQuantum s)) := by
      unfold yieldCurrent
      split
      · exact sameField_modify (hg.state _ _)
      · exact fun _ => rfl
    have hstart : SameField g (yieldCurrent (refillQuantum s)) (startTask next (yieldCurrent (refillQuantum s))) :=
      sameField_modify (f := fun x => { x with state := .running }) (hg.state _ _)
    exact (hyield.trans hstart).trans (hg.sameCountLap h)

/-- A field that the clock of a task is not part of. -/
theorem sameTick (hclock : ∀ x n, g { x with timeLeft := n } = g x) (h : tick fuel s = .ok t) : SameField g s t := by
  obtain ⟨v, hv, h⟩ := bind_eq_ok.mp h
  obtain rfl := Except.ok.inj h
  obtain ⟨u, hu, hv⟩ := bind_eq_ok.mp hv
  have hdrain : SameField g s u := hg.sameDrain (s := { s with interruptFlag := false }) hu
  have hrefill : ∀ w, SameField g w (refillQuantum w) := fun w => sameField_modify (hclock _ _)
  have hspend : SameField g u (spendTick u) := sameField_modify (hclock _ _)
  suffices hend : SameField g u v by
    intro a
    change g ((contextSwitch v).task a) = _
    rw [contextSwitch_task]
    exact (hend a).trans (hdrain a)
  split at hv
  · exact (hrefill u).trans (hg.sameReschedule hv)
  split at hv
  · obtain rfl := Except.ok.inj hv
    exact hspend
  · exact hspend.trans ((hrefill _).trans (hg.sameReschedule hv))

end Lasting

/-! ### New tasks -/

/-- The tasks in use keep the field, and what a new one has satisfies `P`. -/
def Enters (g : Task → α) (P : Task → Prop) (s t : KState) : Prop :=
  ∀ a ∈ t.live, a ∈ s.live ∧ g (t.task a) = g (s.task a) ∨ a ∉ s.live ∧ P (t.task a)

theorem SameField.enters (h : SameField g s t) (hlive : t.live = s.live) : Enters g P s t :=
  fun a ha => .inl ⟨hlive ▸ ha, h a⟩

theorem Enters.mono (h : Enters g P s t) (hP : ∀ x, P x → Q x) : Enters g Q s t :=
  fun a ha => (h a ha).imp_right fun hnew => ⟨hnew.1, hP _ hnew.2⟩

theorem Enters.after (h : Enters g P t u) (hst : SameField g s t) (hlive : t.live = s.live) : Enters g P s u := by
  intro a ha
  rcases h a ha with ⟨hmem, hfield⟩ | hnew
  · exact .inl ⟨hlive ▸ hmem, hfield.trans (hst a)⟩
  · exact .inr ⟨hlive ▸ hnew.1, hnew.2⟩

theorem Beside.enters (h : Beside env.kmalloc s t) (hfresh : env.Fresh s) : Enters g P s t := by
  intro a ha
  rw [h.rest] at ha
  exact .inl ⟨ha, congrArg g (h.task a fun he => hfresh a he ha)⟩

/-- A struct as the creators fill it in: it owns the kernel stack and the directory of its pid. -/
structure Task.Furnished (q : ℕ) (x : Task) : Prop where
  kstack : x.kstack = kstackVa x.pid
  pgdir : x.mm.pgdir = x.pid
  quantum : x.quantum = q
  timeLeft : x.timeLeft = q

theorem furnished_lasting : Lasting fun x : Task => (x.pid, x.kstack, x.mm.pgdir, x.quantum, x.timeLeft) :=
  ⟨fun _ _ _ _ _ => rfl, fun _ _ _ _ => rfl, fun _ _ => rfl⟩

theorem Task.Furnished.congr {x y : Task} (h : x.Furnished q)
    (he : (y.pid, y.kstack, y.mm.pgdir, y.quantum, y.timeLeft) = (x.pid, x.kstack, x.mm.pgdir, x.quantum, x.timeLeft)) :
    y.Furnished q := by
  simp only [Prod.mk.injEq] at he
  obtain ⟨hpid, hkstack, hpgdir, hquantum, htime⟩ := he
  exact ⟨by rw [hkstack, hpid, h.kstack], by rw [hpgdir, hpid, h.pgdir], hquantum.trans h.quantum, htime.trans h.timeLeft⟩

namespace Lasting

variable (hg : Lasting g)
include hg

/-- A struct that was filled in and linked. -/
theorem enters_born (h : Blank c n s u) (hc : c ∉ s.live) (hnew : (u.task c).Furnished q) :
    Enters g (Task.Furnished q) s (linkTask c (taskAddChild p c u)) := by
  have hadd : LinksOnly u (taskAddChild p c u) := linksOnly_addChild
  have hlinked : ∀ {β : Type} {g' : Task → β}, Lasting g' → SameField g' u (linkTask c (taskAddChild p c u)) :=
    fun hg' b => (linkTask_field _ fun x n => hg'.links x x.parent x.sibling x.children n).trans (hg'.sameLinks hadd b)
  intro a ha
  have hlive : (linkTask c (taskAddChild p c u)).live = insert c s.live := by
    rw [linkTask, hadd.rest, h.rest]
    rfl
  rw [hlive] at ha
  by_cases hac : a = c
  · rw [hac]
    exact .inr ⟨hc, hnew.congr (hlinked furnished_lasting c)⟩
  · rw [hlinked hg, h.task a hac]
    exact .inl ⟨(Finset.mem_insert.mp ha).resolve_left hac, rfl⟩

/-- The last store to a new task finds it in place. -/
theorem enters_started (h : Blank c n s u) (hc : c ∉ s.live) (hnew : (u.task c).Furnished q) :
    Enters g (Task.Furnished q) s ((linkTask c (taskAddChild p c u)).modify c fun x => { x with state := .runnable }) := by
  rw [h.born]
  exact hg.enters_born h hc hnew

theorem enters_execFn {addr size : ℕ} (hfresh : env.Fresh s) :
    Enters g (Task.Furnished procQuantum) s (execFn env addr size s) := by
  unfold execFn
  split
  · exact (Beside.refl _ s).enters hfresh
  split
  · rename_i heq
    obtain ⟨-, rfl⟩ := pidAlloc_eq_none heq
    exact (Beside.refl _ _).enters hfresh
  · rename_i pid u heq
    obtain ⟨-, rfl, rfl⟩ := pidAlloc_eq_some heq
    split
    · exact (Beside.refl _ _).pidRelease.enters hfresh
    · rename_i c hc
      split
      · rename_i v heq'
        have hblank : Blank c _ s.claimPid v := allocKstack_eq heq'
        have hbeside : Beside env.kmalloc s.claimPid (freeTask c v) := hblank.beside hfresh hc ⟨v.trace, rfl⟩
        exact hbeside.pidRelease.enters hfresh
      · rename_i v heq'
        have hblank : Blank c _ s.claimPid v := allocKstack_eq heq'
        refine hg.enters_started (s := s.claimPid) (hblank.modify rfl rfl rfl) (hfresh c hc) ?_
        rw [v.modify_task_self]
        exact ⟨congrArg kstackVa hblank.pid.symm, hblank.pid.symm, rfl, rfl⟩

theorem enters_spawnUser (pid size : ℕ) (parent : Option ℕ) (hfresh : env.Fresh s) :
    Enters g (Task.Furnished procQuantum) s (spawnUser env pid size parent s).2 := by
  unfold spawnUser
  split
  · exact (Beside.refl _ s).enters hfresh
  split
  · exact (Beside.refl _ s).enters hfresh
  split
  · exact (Beside.refl _ s).enters hfresh
  · rename_i c hc
    split
    · rename_i v heq
      have hblank : Blank c pid s v := allocKstack_eq heq
      exact (hblank.beside hfresh hc ⟨v.trace, rfl⟩).enters hfresh
    · rename_i v heq
      have hblank : Blank c pid s v := allocKstack_eq heq
      split
      · refine Beside.enters (hblank.beside hfresh hc ?_) hfresh
        exact (traceOnly_freeKstack _ _ v).trans (traceOnly_call _ _)
      · refine hg.enters_started (hblank.modify rfl rfl rfl) (hfresh c hc) ?_
        rw [v.modify_task_self]
        exact ⟨congrArg kstackVa hblank.pid.symm, hblank.pid.symm, rfl, rfl⟩

theorem enters_taskFork (hfresh : env.Fresh s) (hcur : s.currentTask ∈ s.live) :
    Enters g (Task.Furnished s.current.quantum) s (taskFork env s).2 := by
  unfold taskFork
  split
  · exact (Beside.refl _ s).enters hfresh
  split
  · rename_i heq
    obtain ⟨-, rfl⟩ := pidAlloc_eq_none heq
    exact (Beside.refl _ _).enters hfresh
  · rename_i pid u heq
    obtain ⟨-, rfl, rfl⟩ := pidAlloc_eq_some heq
    split
    · exact (Beside.refl _ _).pidRelease.enters hfresh
    · rename_i c hc
      split
      · rename_i v heq'
        have hblank : Blank c _ s.claimPid v := allocKstack_eq heq'
        have hbeside : Beside env.kmalloc s.claimPid (freeTask c v) := hblank.beside hfresh hc ⟨v.trace, rfl⟩
        exact hbeside.pidRelease.enters hfresh
      · rename_i v heq'
        have hblank : Blank c _ s.claimPid v := allocKstack_eq heq'
        split
        · refine Beside.enters (Beside.pidRelease ?_) hfresh
          exact hblank.beside hfresh hc (traceOnly_freeKstack _ _ v)
        · have hvcur : v.currentTask = s.currentTask := by
            rw [hblank.rest]
            rfl
          have hcurrent : v.current = s.current := by
            rw [KState.current, hvcur]
            exact hblank.task _ fun he => hfresh c hc (he ▸ hcur)
          rw [← hcurrent]
          refine hg.enters_born (s := s.claimPid) (hblank.modify ?_ rfl rfl) (hfresh c hc) ?_
          · exact hblank.state.symm
          · rw [v.modify_task_self]
            exact ⟨congrArg kstackVa hblank.pid.symm, hblank.pid.symm, rfl, rfl⟩

theorem enters_execUserFn {size : ℕ} {parent : Option ℕ} (hfresh : env.Fresh s) :
    Enters g (Task.Furnished procQuantum) s (execUserFn env size parent s) := by
  unfold execUserFn
  split
  · rename_i heq
    obtain ⟨-, rfl⟩ := pidAlloc_eq_none heq
    exact (Beside.refl _ _).enters hfresh
  · rename_i pid u heq
    obtain ⟨-, rfl, rfl⟩ := pidAlloc_eq_some heq
    have hspawn : Enters g (Task.Furnished procQuantum) s (spawnUser env (s.taskCounter + 1) size parent s.claimPid).2 :=
      hg.enters_spawnUser (s := s.claimPid) _ size parent hfresh
    generalize spawnUser env (s.taskCounter + 1) size parent s.claimPid = r at hspawn ⊢
    obtain ⟨o, w⟩ := r
    cases o <;> exact hspawn

theorem enters_doExit (h : doExit fuel a code s = .ok t) : Enters g P s t :=
  (hg.sameDoExit h).enters (exits_doExit h).globals.live

theorem enters_dispatch (h : kernelSignalDispatch fuel a s = .ok t) : Enters g P s t := by
  refine (hg.sameDispatch h).enters ?_
  rcases dispatch_cases h with hcalm | ⟨-, hexits⟩
  · exact hcalm.rest.live
  · exact hexits.globals.live

theorem enters_quiet (h : Quiet s t) : Enters g P s t := (hg.sameQuiet h).enters (by rw [h.rest])

theorem enters_reap (h : taskReap fuel a s = .ok t) : Enters g P s t := by
  intro b hb
  rw [taskReap_rest h] at hb
  exact .inl ⟨Finset.mem_of_mem_erase hb, hg.sameReap h b⟩

theorem enters_syscall {frame : TrapFrame} {env : SysEnv} (hcur : s.currentTask ∈ s.live)
    (hallowed : (KOp.syscall env frame).Allowed s) (h : (KOp.syscall env frame).run s = some t) :
    Enters g (Task.Furnished procQuantum) s t ∨ Enters g (Task.Furnished s.current.quantum) s t := by
  have hfresh : env.spawn.Fresh { s with interruptFlag := false } := hallowed.1
  cases syscall_cases hallowed.2 h with
  | exit hn hu ht =>
    have hends := hg.enters_doExit (P := Task.Furnished procQuantum) hu
    rw [ht]
    exact .inl hends
  | fork hn ht =>
    rw [ht]
    exact .inr (hg.enters_taskFork (s := { s with interruptFlag := false }) hfresh hcur)
  | kill hn hu ht =>
    rw [ht]
    left
    rcases sysKill_cases hu with rfl | ⟨target, rfl⟩ | ⟨-, hd⟩
    · exact fun a ha => .inl ⟨ha, rfl⟩
    · exact (hg.sameSend (s := { s with interruptFlag := false })).enters rfl
    · have hsend : SameField g s (kernelSignalSend s.currentTask frame.ecx { s with interruptFlag := false }) :=
        hg.sameSend (s := { s with interruptFlag := false })
      have hends := (hg.enters_dispatch (P := Task.Furnished procQuantum) hd).after hsend rfl
      exact hends
  | quiet h => exact .inl (hg.enters_quiet h)

/-- An operation other than a tick leaves the field alone, and a task it creates is filled in. -/
theorem enters_step (hcur : s.currentTask ∈ s.live) (h : KStep op s t) (hop : ∀ fuel, op ≠ .tick fuel) :
    Enters g (Task.Furnished procQuantum) s t ∨ Enters g (Task.Furnished s.current.quantum) s t := by
  obtain ⟨hallowed, hrun⟩ := h
  cases op with
  | execInitFn env size =>
    obtain rfl := Option.some.inj hrun
    exact .inl (hg.enters_spawnUser initPid size (some initTask) hallowed.1)
  | execFn env addr size =>
    obtain rfl := Option.some.inj hrun
    exact .inl (hg.enters_execFn hallowed)
  | execUserFn env size =>
    obtain rfl := Option.some.inj hrun
    exact .inl (hg.enters_execUserFn hallowed)
  | syscall env frame => exact hg.enters_syscall hcur hallowed hrun
  | waitRound first fuel wstatus =>
    left
    rcases waitRound_cases hrun with ⟨-, -, -, rfl⟩ | ⟨-, -, rfl⟩ | ⟨zombie, u, -, hu, hreap⟩
    · exact fun a ha => .inl ⟨ha, rfl⟩
    · exact (sameField_modify (f := fun x => { x with state := .blocked }) (hg.state _ _)).enters rfl
    · rw [hu] at hreap
      exact hg.enters_reap (s := { s with interruptFlag := u.interruptFlag, user := u.user, trace := u.trace }) hreap
  | fault signum =>
    obtain rfl := Option.some.inj hrun
    exact .inl (hg.sameSend.enters rfl)
  | send b signum =>
    obtain rfl := Option.some.inj hrun
    exact .inl (hg.sameSend.enters rfl)
  | register b signum handler =>
    obtain rfl := Option.some.inj hrun
    exact .inl (hg.enters_quiet quiet_register)
  | dispatch fuel b => exact .inl (hg.enters_dispatch (toOption_eq_some.mp hrun))
  | doExit fuel b code => exact .inl (hg.enters_doExit (toOption_eq_some.mp hrun))
  | reap fuel zombie => exact .inl (hg.enters_reap (toOption_eq_some.mp hrun))
  | tick fuel => exact absurd rfl (hop fuel)
  | deliver frame =>
    obtain rfl := Option.some.inj hrun
    exact .inl (hg.enters_quiet quiet_deliver)
  | scribble b junk =>
    obtain rfl := Option.some.inj hrun
    refine .inl fun a ha => .inl ⟨ha, ?_⟩
    have hne : a ≠ b := fun he => hallowed (he ▸ ha)
    rw [KState.set, KState.modify_task_of_ne s _ hne]

end Lasting

end HekaOS.Tasks
