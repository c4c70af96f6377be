import HekaOS.Preemption

/-!
# A task gets back what it had when it lost the CPU

However many other tasks run in the meantime, the frame stays as the interrupt left it, and the stub
loads the registers from it: to the task, the time without the CPU did not pass. A new task begins
with the frame that its creator made.
-/

namespace HekaOS.Traps
open MachineWord ByteMemory StackCpu KernelMemory Tasks TaskMemory TransitionSystem PointerChain

variable {boot t fuel : ℕ} {m n : Machine} {s s' v : KState} {f g : TrapFrame} {c d : Cpu} {op : KOp}

/-! ### How a task goes on -/

/-- The processor goes on with the frame `g`, which ends at `k + 56` if it belongs to Ring 0, or enters
the handler for a signal with it. -/
structure GoesOn (g : TrapFrame) (k : Word) (u : KState) (c : Cpu) : Prop where
  general : c.eax = BitVec.ofNat 32 g.eax ∧ c.ecx = BitVec.ofNat 32 g.ecx ∧ c.edx = BitVec.ofNat 32 g.edx ∧
    c.ebx = BitVec.ofNat 32 g.ebx ∧ c.ebp = BitVec.ofNat 32 g.ebp ∧ c.esi = BitVec.ofNat 32 g.esi ∧
    c.edi = BitVec.ofNat 32 g.edi
  data : c.ds = toSelector g.ds ∧ c.es = toSelector g.ds ∧ c.fs = toSelector g.ds ∧ c.gs = toSelector g.ds
  segments : c.cs = toSelector g.cs ∧ c.ss = if g.cs % 4 = 0 then kernelDs else toSelector g.userSs
  code : (c.eip = BitVec.ofNat 32 g.eip ∧ c.eflags = BitVec.ofNat 32 g.eflags ∧
      c.esp = if g.cs % 4 = 0 then k + 56 else BitVec.ofNat 32 g.userEsp) ∨
    g.cs % 4 = 3 ∧ ∃ bit, caughtSignal u.current = some bit ∧
      c.eip = BitVec.ofNat 32 (u.current.signalHandlers (signumOf bit)) ∧
      c.eflags = BitVec.ofNat 32 g.eflags &&& ~~~0x400 ∧ c.esp = BitVec.ofNat 32 (sigframeAddr g.userEsp)

/-- The stub goes back to the interrupted ring. -/
theorem outwards_iff (hring : d.cpl = 0) (g : TrapFrame) : d.cpl < rpl (toSelector g.cs) ↔ g.cs % 4 ≠ 0 := by
  rw [hring, rpl_toSelector]
  exact Nat.pos_iff_ne_zero

theorem clear_direction (x : ℕ) : BitVec.ofNat 32 (x &&& (wordSize - 1 - 2 ^ 10)) = BitVec.ofNat 32 x &&& ~~~0x400 := by
  rw [BitVec.ofNat_and]
  rfl

theorem TimerSpec.goesOn {u : KState} (h : TimerSpec boot m n u f d) (hframe : pushedWords f = pushedWords g)
    (huser : g.userEsp < wordSize) : GoesOn g d.esp u n.cpu := by
  have hresumed : resumed f d = resumed g d := resumed_congr h.ring hframe
  have hcs := pushedWords_ring hframe
  have hout := outwards_iff h.ring g
  have hcpu := h.cpu
  have hss : (resumed g d).ss = if g.cs % 4 = 0 then kernelDs else toSelector g.userSs := by
    by_cases hring : g.cs % 4 = 0
    · rw [if_pos hring, ← h.ss]
      exact if_neg (mt hout.mp (not_not.mpr hring))
    · rw [if_neg hring]
      exact if_pos (hout.mpr hring)
  rcases delivered_cases f u with hsame | ⟨hring, bit, hbit, hframe'⟩
  · rw [hsame, hresumed] at hcpu
    have hesp : (resumed g d).esp = if g.cs % 4 = 0 then d.esp + 56 else BitVec.ofNat 32 g.userEsp := by
      by_cases hring : g.cs % 4 = 0
      · rw [if_pos hring]
        exact if_neg (mt hout.mp (not_not.mpr hring))
      · rw [if_neg hring]
        exact if_pos (hout.mpr hring)
    rw [hcpu]
    exact ⟨⟨rfl, rfl, rfl, rfl, rfl, rfl, rfl⟩, ⟨rfl, rfl, rfl, rfl⟩, ⟨rfl, hss⟩, .inl ⟨rfl, rfl, hesp⟩⟩
  · rw [hcs] at hring
    have houtwards := hout.mpr (by omega)
    have hwords : frameWords f = frameWords g := by
      have hf : ¬f.cs % 4 = 0 := by omega
      have hg : ¬g.cs % 4 = 0 := by omega
      rwa [pushedWords, if_neg hf, pushedWords, if_neg hg] at hframe
    have hesp : f.userEsp = g.userEsp := by
      obtain ⟨mem, a, hloaded⟩ := h.loaded
      have hfits : f.userEsp < wordSize := by
        rw [hloaded]
        exact load32_lt
      simp only [frameWords, TrapFrame.words, List.map_cons, List.map_nil, List.cons.injEq, and_true] at hwords
      obtain ⟨-, -, -, -, -, -, -, -, -, -, -, -, -, -, hesp, -⟩ := hwords
      have hesp' : f.userEsp % wordSize = g.userEsp % wordSize := congrArg BitVec.toNat hesp
      rwa [Nat.mod_eq_of_lt hfits, Nat.mod_eq_of_lt huser] at hesp'
    have hflags : BitVec.ofNat 32 f.eflags = BitVec.ofNat 32 g.eflags := congrArg Cpu.eflags hresumed
    have hentered : ∀ eip esp flags : ℕ, resumed { f with eip := eip, userEsp := esp, eflags := flags } d =
        { resumed g d with
          eip := BitVec.ofNat 32 eip, esp := BitVec.ofNat 32 esp, eflags := BitVec.ofNat 32 flags } := by
      intro eip esp flags
      rw [← hresumed]
      have houtwards' : d.cpl < rpl (toSelector f.cs) := (outwards_iff h.ring f).mpr (by omega)
      simp only [resumed, if_pos houtwards']
    rw [hframe', hentered, clear_direction, hflags, hesp] at hcpu
    rw [hcpu]
    exact ⟨⟨rfl, rfl, rfl, rfl, rfl, rfl, rfl⟩, ⟨rfl, rfl, rfl, rfl⟩, ⟨rfl, hss⟩, .inr ⟨hring, bit, hbit, rfl, rfl, rfl⟩⟩

/-! ### Steps that can be made -/

/-- With interrupts enabled, the timer interrupt can be taken. -/
theorem exists_timerStep (h : Parked boot m) (henabled : m.cpu.eflags &&& flagIf ≠ 0) (htick : tick fuel m.tasks = .ok s')
    (hcalm : caughtSignal s'.current = none) : ∃ n, TimerStep boot m n ∧ n.tasks = s' := by
  obtain ⟨v, hschedule, hv⟩ := bind_eq_ok.mp htick
  obtain rfl := Except.ok.inj hv
  obtain ⟨hlow, hhigh⟩ := kernelEsp_bounds h.image h.settled h.ready
  have hdeliver : ∀ f, signalCheckAndDeliver f (switched v) = (f, switched v) := by
    intro f
    have hcalm' : caughtSignal (switched v).current = none := hcalm
    rw [signalCheckAndDeliver, hcalm']
    split <;> rfl
  obtain ⟨-, hesp⟩ := irq0_trap 0 h.image h.settled h.ready
  obtain ⟨c, hc, -⟩ := exists_called (c := trapped (irq 32) (irq0Gate 0) kernelDs (BitVec.ofNat 32 m.tasks.esp0) none m.cpu)
    (by omega) (stackBase boot m.tasks m.tasks.currentTask)
  have hswitch := switchesStack v { m with cpu := c }
  obtain ⟨n, hn⟩ : ∃ n, n = switchStack v { m with cpu := c } := ⟨_, rfl⟩
  rw [← hn] at hswitch
  have htick' := tick_eq hschedule
  obtain ⟨hu, hlive, -⟩ := tick_current boot h.settled htick'
  have hvcur := schedule_currentTask hschedule
  have hland := h.landed (interrupted h.image h.settled h.ready hc) (hlive ▸ hu.current_live) hu.current_ne hvcur rfl hswitch
  obtain ⟨d, hd, hdesp, hdmem⟩ := exists_called (c := n.cpu) (Nat.le_trans (by omega) hland.low)
    (stackBase boot (switched v) (switched v).currentTask)
  have hframe : pushedWords (frameAt d.mem d.esp.toNat) =
      pushedWords (signalCheckAndDeliver (frameAt n.cpu.mem n.cpu.esp.toNat) (switched v)).1 := by
    rw [hdeliver, hdesp]
    exact pushedWords_frameAt fun x hx _ => hdmem x hx
  exact ⟨_, .mk henabled hc hschedule hn hd.mono hframe, congrArg Prod.snd (hdeliver _)⟩

/-- What the task on the CPU needs, it still has behind an operation. -/
theorem OnOwnStack.operation (h : Parked boot m) (hcpu : op.OnCpu m.tasks) (hntick : ∀ fuel, op ≠ .tick fuel)
    (hop : KStep op m.tasks s') (htasks : n.tasks = s') (hcs : n.cpu.cs = m.cpu.cs) (hss : n.cpu.ss = m.cpu.ss)
    (hesp : n.cpu.esp = m.cpu.esp) : OnOwnStack boot n := by
  have hs := h.settled
  obtain ⟨kids, order, hk⟩ := hs.run.tended
  have hcurrent : s'.currentTask = m.tasks.currentTask := by
    cases rollStep hk.settled hop with
    | same hlive hcounter hinit hcurrent => exact hcurrent.resolve_left fun ⟨fuel, htick⟩ => hntick fuel htick
    | joined p c hp hfresh hlive hcurrent => exact hcurrent
    | left z hz hlive hcounter hinit hcurrent => exact hcurrent
  have hmem : m.tasks.currentTask ∈ s'.live := hcurrent ▸ (hs.step hcpu hop).current_live
  obtain ⟨hbase, htop⟩ := stack_step boot hs hop hmem hs.current_live
  have huser := userspace_step hk hop hmem hs.current_live
  have hcpl : n.cpu.cpl = m.cpu.cpl := congrArg rpl hcs
  refine ⟨?_, fun hring => ?_⟩
  · rw [hcpl, htasks, KState.current, hcurrent, huser]
    exact h.ready.ring
  · rw [htasks, hcurrent, hbase, htop, hss, hesp]
    exact h.ready.kernel (hcpl ▸ hring)

/-- So can an operation that creates no task. -/
theorem exists_runStep (h : Parked boot m) (hop : KStep op m.tasks s') (hcpu : op.OnCpu m.tasks)
    (hntick : ∀ fuel, op ≠ .tick fuel) (hlive : s'.live = m.tasks.live) :
    ∃ n, RunStep boot m n ∧ n.tasks = s' ∧ n.cpu.eflags = flagIf := by
  let n : Machine := { m with tasks := s', cpu := { m.cpu with eflags := flagIf } }
  have hready : OnOwnStack boot n := .operation h hcpu hntick hop rfl rfl rfl rfl
  exact ⟨n, ⟨.inr ⟨op, hntick, hcpu, hop, fun t ht hnew => absurd (hlive ▸ ht) hnew⟩, fun _ _ _ _ _ => ⟨rfl, fun _ _ _ => rfl⟩,
    rfl, hready⟩, rfl, rfl⟩

/-- And one that creates a task and fills in its stack. -/
theorem exists_birth (h : Parked boot m) (hop : KStep op m.tasks s') (hcpu : op.OnCpu m.tasks)
    (hntick : ∀ fuel, op ≠ .tick fuel) (hlive : s'.live = insert t m.tasks.live) (hnew : t ∉ m.tasks.live)
    (hprepared : ∀ n, Furnished boot f n t → Prepared boot m n t op) :
    ∃ n, RunStep boot m n ∧ n.tasks = s' ∧ n.cpu.eflags = flagIf := by
  have hs := h.settled.step hcpu hop
  obtain ⟨kids, order, hk⟩ := h.settled.run.tended
  have ht : t ∈ s'.live := hlive ▸ Finset.mem_insert_self _ _
  have hkthreadd : t ≠ kthreaddTask := fun he => hnew (he ▸ hk.kthreadd)
  have hfits := hs.stack_fits h.image ht hkthreadd
  have hsize := stack_size boot s' t
  have htop : (BitVec.ofNat 32 (stackTop boot s' t)).toNat = stackTop boot s' t :=
    Nat.mod_eq_of_lt (by simp only [wordSize] at hfits; omega)
  have hroom : 4 * (frameWords f).length ≤ stackTop boot s' t := Nat.le_trans (by decide : 64 ≤ 8192) (by omega)
  obtain ⟨d, hd⟩ := exists_grown (frameWords f) { m.cpu with esp := BitVec.ofNat 32 (stackTop boot s' t) }
    (by rw [htop]; exact hroom)
  have hesp : d.esp.toNat + 64 = stackTop boot s' t := hd.esp.trans htop
  have hrest : ∀ x, x < d.esp.toNat ∨ stackTop boot s' t ≤ x → d.mem x = m.cpu.mem x := by
    have hrest := hd.rest
    rwa [htop] at hrest
  let n : Machine := { m with
    tasks := s', cpu := { m.cpu with eflags := flagIf, mem := d.mem }, esp := Function.update m.esp t d.esp }
  have hready : OnOwnStack boot n := .operation h hcpu hntick hop rfl rfl rfl rfl
  have hnesp : n.esp t = d.esp := Function.update_self t d.esp m.esp
  have hfurnished : Furnished boot f n t := by
    refine ⟨?_, ?_⟩
    · rw [hnesp]
      exact hesp
    · rw [Machine.context, hnesp]
      exact words_unique (words_frameAt d.mem d.esp.toNat) hd.words rfl
  refine ⟨n, ⟨.inr ⟨op, hntick, hcpu, hop, fun t' ht' hnew' => ?_⟩, fun t' hold ht' _ hkthreadd' => ⟨?_, fun x hx hx' => ?_⟩, rfl,
    hready⟩, rfl, rfl⟩
  · have htask : t' = t := by
      have hmem : t' ∈ insert t m.tasks.live := hlive ▸ ht'
      exact (Finset.mem_insert.mp hmem).resolve_right hnew'
    exact htask ▸ hprepared n hfurnished
  · exact Function.update_of_ne (fun he : t' = t => hnew (he ▸ hold)) d.esp m.esp
  · have hne : t' ≠ t := fun he => hnew (he ▸ hold)
    have hdisjoint := hs.stack_disjoint h.image ht' hkthreadd' ht hkthreadd hne
    obtain ⟨hbase', htop'⟩ := stack_step boot h.settled hop ht' hold
    rw [hbase', htop'] at hdisjoint
    exact hrest x (by omega)

/-! ### A run with two switches -/

def initMade : KState := bootState.after (.execInitFn (spawnAt 10) 100)

/-- The shell has stopped `init_task`. -/
def initTaskStopped : KState := initMade.after (.send initTask sigstop)

def initRuns : KState := initTaskStopped.after (.tick 16)

/-- Init has let `init_task` go on. -/
def initTaskContinued : KState := initRuns.after (.send initTask sigcont)

def initStopped : KState := initTaskContinued.after (.send 10 sigstop)

def initTaskBack : KState := initStopped.after (.tick 16)

theorem exists_send (signum : ℕ) (h : Parked boot m) (htasks : m.tasks = s) (hlisted : Listed s t) :
    ∃ n, RunStep boot m n ∧ Parked boot n ∧ n.tasks = s.after (.send t signum) ∧ n.cpu.eflags = flagIf := by
  subst htasks
  have hop : KStep (.send t signum) m.tasks (m.tasks.after (.send t signum)) := kstep_after hlisted rfl
  obtain ⟨n, hrun, htasks, hflags⟩ := exists_runStep h hop trivial nofun rfl
  exact ⟨n, hrun, h.run_step hrun, htasks, hflags⟩

theorem exists_tick (fuel : ℕ) (h : Parked boot m) (htasks : m.tasks = s) (hflags : m.cpu.eflags = flagIf)
    (hends : ((KOp.tick fuel).run s).isSome = true) (hcalm : caughtSignal (s.after (.tick fuel)).current = none) :
    ∃ n, TimerStep boot m n ∧ Parked boot n ∧ n.tasks = s.after (.tick fuel) := by
  subst htasks
  have hop : KStep (.tick fuel) m.tasks (m.tasks.after (.tick fuel)) := kstep_after trivial hends
  have henabled : m.cpu.eflags &&& flagIf ≠ 0 := by
    rw [hflags]
    decide
  obtain ⟨n, htimer, htasks⟩ := exists_timerStep h henabled (toOption_eq_some.mp hop.run) hcalm
  obtain ⟨u, f, d, hspec⟩ := h.timer htimer
  exact ⟨n, htimer, h.timer_step hspec, htasks⟩

theorem both_listed (h : Chain s.next s.taskListHead [10, 0]) : Listed s initTask ∧ Listed s 10 :=
  ⟨⟨_, h, by decide⟩, ⟨_, h, by decide⟩⟩

theorem initMade_listed : Listed initMade initTask ∧ Listed initRuns initTask ∧ Listed initTaskContinued 10 := by
  have hlist₁ : Chain initMade.next initMade.taskListHead [10, 0] := by
    simp only [chain_cons, chain_nil]
    decide +kernel
  have hlist₃ : Chain initRuns.next initRuns.taskListHead [10, 0] := by
    simp only [chain_cons, chain_nil]
    decide +kernel
  have hlist₄ : Chain initTaskContinued.next initTaskContinued.taskListHead [10, 0] := by
    simp only [chain_cons, chain_nil]
    decide +kernel
  exact ⟨(both_listed hlist₁).1, (both_listed hlist₃).1, (both_listed hlist₄).2⟩

theorem exists_initMade : ∃ m n : Machine, MachineRun 0x200000 m ∧ m.tasks = bootState ∧ RunStep 0x200000 m n ∧
    Parked 0x200000 n ∧ n.tasks = initMade := by
  let m : Machine := ⟨⟨0, 0, 0, 0, 0x204000, 0, 0, 0, 0x100000, 0x200, 0x08, 0x10, 0x10, 0x10, 0x10, 0x10, fun _ => 0⟩,
    0, fun _ => 0, bootState⟩
  have hbooted : MachineBooted 0x200000 m :=
    ⟨⟨_, _, rfl⟩, by decide, rfl, ⟨.inl (by decide), fun _ => ⟨rfl, by decide, by decide⟩⟩⟩
  have hparked : Parked 0x200000 m := parked_run (.start hbooted)
  have hborn : KStep (.execInitFn (spawnAt 10) 100) m.tasks initMade :=
    kstep_after ⟨spawnAt_fresh (by decide +kernel), rfl⟩ (by decide +kernel)
  obtain ⟨n, hrun, htasks, -⟩ := exists_birth (f := startupFrame) (t := 10) hparked hborn trivial nofun (by decide +kernel)
    (by decide +kernel) (fun _ h => h)
  exact ⟨m, n, .start hbooted, rfl, hrun, hparked.run_step hrun, htasks⟩

/-- The machine makes that run. -/
theorem exists_handover : ∃ (boot : ℕ) (m₀ m₁ m₂ m₃ m₄ m₅ m₆ : Machine), MachineRun boot m₀ ∧
    (RunStep boot m₀ m₁ ∧ RunStep boot m₁ m₂ ∧ TimerStep boot m₂ m₃) ∧
    (RunStep boot m₃ m₄ ∧ RunStep boot m₄ m₅ ∧ TimerStep boot m₅ m₆) ∧
    (m₀.tasks = bootState ∧ m₁.tasks = initMade ∧ m₂.tasks = initTaskStopped ∧ m₃.tasks = initRuns) ∧
    m₄.tasks = initTaskContinued ∧ m₅.tasks = initStopped ∧ m₆.tasks = initTaskBack := by
  obtain ⟨hlist₁, hlist₃, hlist₄⟩ := initMade_listed
  obtain ⟨m₀, m₁, hrun, ht₀, hr₁, hp₁, ht₁⟩ := exists_initMade
  obtain ⟨m₂, hr₂, hp₂, ht₂, hf₂⟩ := exists_send sigstop hp₁ ht₁ hlist₁
  obtain ⟨m₃, hr₃, hp₃, ht₃⟩ := exists_tick 16 hp₂ ht₂ hf₂ (by decide +kernel) (by decide +kernel)
  obtain ⟨m₄, hr₄, hp₄, ht₄, hf₄⟩ := exists_send sigcont hp₃ ht₃ hlist₃
  obtain ⟨m₅, hr₅, hp₅, ht₅, hf₅⟩ := exists_send sigstop hp₄ ht₄ hlist₄
  obtain ⟨m₆, hr₆, -, ht₆⟩ := exists_tick 16 hp₅ ht₅ hf₅ (by decide +kernel) (by decide +kernel)
  exact ⟨_, m₀, m₁, m₂, m₃, m₄, m₅, m₆, hrun, ⟨hr₁, hr₂, hr₃⟩, ⟨hr₄, hr₅, hr₆⟩, ⟨ht₀, ht₁, ht₂, ht₃⟩, ht₄, ht₅, ht₆⟩

/-! ### From one time on the CPU to the next -/

/-- A step of the machine at the end of which the task `t` is in use and not on the CPU. -/
structure AwayStep (boot t : ℕ) (m n : Machine) : Prop where
  step : RunStep boot m n ∨ TimerStep boot m n
  live : t ∈ n.tasks.live
  away : n.tasks.currentTask ≠ t

/-- What the steps of others leave of a task -/
structure Untouched (boot t : ℕ) (m n : Machine) : Prop where
  live : t ∈ n.tasks.live
  away : n.tasks.currentTask ≠ t
  bounds : stackBase boot n.tasks t = stackBase boot m.tasks t ∧ stackTop boot n.tasks t = stackTop boot m.tasks t
  pgdir : (n.tasks.task t).mm.pgdir = (m.tasks.task t).mm.pgdir
  esp : n.esp t = m.esp t
  mem : ∀ x, stackBase boot m.tasks t ≤ x → x < stackTop boot m.tasks t → n.cpu.mem x = m.cpu.mem x

section Away
variable {m₀ m₁ m₂ m₃ : Machine}

theorem Untouched.trans (h₁ : Untouched boot t m₀ m₁) (h₂ : Untouched boot t m₁ m₂) : Untouched boot t m₀ m₂ := by
  obtain ⟨hbase, htop⟩ := h₁.bounds
  refine ⟨h₂.live, h₂.away, ⟨h₂.bounds.1.trans hbase, h₂.bounds.2.trans htop⟩, h₂.pgdir.trans h₁.pgdir,
    h₂.esp.trans h₁.esp, fun x hx hx' => ?_⟩
  rw [h₂.mem x (by rwa [hbase]) (by rwa [htop]), h₁.mem x hx hx']

/-- One step of others -/
theorem AwayStep.untouched (h : Parked boot m) (hlive : t ∈ m.tasks.live) (haway : m.tasks.currentTask ≠ t)
    (hkthreadd : t ≠ kthreaddTask) (hstep : AwayStep boot t m n) : Parked boot n ∧ Untouched boot t m n := by
  obtain ⟨hstep, hlive', haway'⟩ := hstep
  rcases hstep with hrun | htimer
  · obtain ⟨hesp, hmem⟩ := hrun.others t hlive hlive' (Ne.symm haway) hkthreadd
    obtain ⟨hbounds, hpgdir, -⟩ := (hrun.kernel h).2.2.1 t hlive hlive'
    exact ⟨h.run_step hrun, hlive', haway', hbounds, hpgdir, hesp, hmem⟩
  · obtain ⟨u, f, d, hspec⟩ := h.timer htimer
    have hkernel := hspec.kernel h
    obtain ⟨hmem, hne, -⟩ := hspec.frame_ring h
    rw [hkernel.current] at haway'
    have hmine := h.settled.stack_disjoint h.image hlive hkthreadd h.settled.current_live h.settled.current_ne (Ne.symm haway)
    have hnext := h.settled.stack_disjoint h.image hlive hkthreadd hmem hne (Ne.symm haway')
    have htop := (kernelEsp_bounds h.image h.settled h.ready).2
    have hhigh := hspec.high
    exact ⟨h.timer_step hspec, hlive', by rwa [hkernel.current], hkernel.bounds t hlive, (hkernel.pgdir t hlive).1,
      hspec.others t (Ne.symm haway), fun x hx hx' => hspec.mem x (by omega) (by omega)⟩

theorem untouched_run (h : Parked boot m₁) (hlive : t ∈ m₁.tasks.live) (haway : m₁.tasks.currentTask ≠ t)
    (hkthreadd : t ≠ kthreaddTask) (hrun : Relation.ReflTransGen (AwayStep boot t) m₁ m₂) :
    Parked boot m₂ ∧ Untouched boot t m₁ m₂ := by
  induction hrun with
  | refl => exact ⟨h, hlive, haway, ⟨rfl, rfl⟩, rfl, rfl, fun _ _ _ => rfl⟩
  | tail _ hstep ih =>
    obtain ⟨hparked, huntouched⟩ := ih
    obtain ⟨hparked', hstep'⟩ := hstep.untouched hparked huntouched.live huntouched.away hkthreadd
    exact ⟨hparked', huntouched.trans hstep'⟩

/-- The task that ran in `m` is back on the CPU: `k` is the machine before the interrupt that put it there. -/
structure GivenBack (boot : ℕ) (m k n : Machine) : Prop where
  general : n.cpu.eax = m.cpu.eax ∧ n.cpu.ecx = m.cpu.ecx ∧ n.cpu.edx = m.cpu.edx ∧ n.cpu.ebx = m.cpu.ebx ∧
    n.cpu.ebp = m.cpu.ebp ∧ n.cpu.esi = m.cpu.esi ∧ n.cpu.edi = m.cpu.edi
  data : n.cpu.ds = m.cpu.ds ∧ n.cpu.es = m.cpu.ds ∧ n.cpu.fs = m.cpu.ds ∧ n.cpu.gs = m.cpu.ds
  segments : n.cpu.cs = m.cpu.cs ∧ n.cpu.ss = m.cpu.ss
  cr3 : n.cr3 = m.cr3
  stack : ∀ x, (kernelEsp m.cpu (BitVec.ofNat 32 m.tasks.esp0)).toNat ≤ x →
    x < stackTop boot m.tasks m.tasks.currentTask → n.cpu.mem x = m.cpu.mem x
  code : (n.cpu.eip = m.cpu.eip ∧ n.cpu.eflags = m.cpu.eflags ∧ n.cpu.esp = m.cpu.esp) ∨
    m.cpu.cpl = 3 ∧ ∃ fuel u bit, tick fuel k.tasks = .ok u ∧ caughtSignal u.current = some bit ∧
      n.cpu.eip = BitVec.ofNat 32 (u.current.signalHandlers (signumOf bit)) ∧
      n.cpu.eflags = m.cpu.eflags &&& ~~~0x400 ∧ n.cpu.esp = BitVec.ofNat 32 (sigframeAddr m.cpu.esp.toNat)

theorem GoesOn.givenBack {u : KState} {w : Word} {saved : ℕ} (hparked : Parked boot m₀)
    (h : GoesOn (savedFrame 32 0 m₀.cpu saved) w u m₃.cpu) (htick : ∃ fuel, tick fuel m₂.tasks = .ok u)
    (hesp : w.toNat + 4 * (pushedWords (savedFrame 32 0 m₀.cpu saved)).length =
      (kernelEsp m₀.cpu (BitVec.ofNat 32 m₀.tasks.esp0)).toNat) (hcr3 : m₃.cr3 = m₀.cr3)
    (hstack : ∀ x, (kernelEsp m₀.cpu (BitVec.ofNat 32 m₀.tasks.esp0)).toNat ≤ x →
      x < stackTop boot m₀.tasks m₀.tasks.currentTask → m₃.cpu.mem x = m₀.cpu.mem x) : GivenBack boot m₀ m₂ m₃ := by
  have hring : (savedFrame 32 0 m₀.cpu saved).cs % 4 = m₀.cpu.cpl := rfl
  obtain ⟨hgeneral, hdata, ⟨hcs, hss⟩, hcode⟩ := h
  rw [length_pushedWords, hring] at hesp
  rw [hring] at hss hcode
  simp only [savedFrame, ofNat_toNat, toSelector_toNat] at hgeneral hcs hcode
  refine ⟨hgeneral, ?_, ⟨hcs, ?_⟩, hcr3, hstack, ?_⟩
  · have hds : toSelector (savedFrame 32 0 m₀.cpu saved).ds = m₀.cpu.ds := toSelector_dsWord m₀.cpu
    rwa [hds] at hdata
  · rw [hss]
    split
    · rename_i hring
      exact ((hparked.ready.kernel hring).1).symm
    · rename_i hring
      have huss : (savedFrame 32 0 m₀.cpu saved).userSs = m₀.cpu.ss.toNat := if_neg hring
      rw [huss, toSelector_toNat]
  · rcases hcode with ⟨heip, hflags, husp⟩ | ⟨hring', bit, hbit, heip, hflags, husp⟩
    · refine .inl ⟨heip, hflags, ?_⟩
      rw [husp]
      split
      · rename_i hring
        rw [if_pos hring, kernelEsp, if_pos hring] at hesp
        apply BitVec.eq_of_toNat_eq
        have hfits := m₀.cpu.esp.isLt
        rw [BitVec.toNat_add, ← hesp]
        exact Nat.mod_eq_of_lt (by simp; omega)
      · rw [ofNat_toNat]
    · obtain ⟨fuel, htick⟩ := htick
      have hring : ¬m₀.cpu.cpl = 0 := by omega
      rw [if_neg hring] at husp
      exact .inr ⟨hring', fuel, u, bit, htick, hbit, heip, hflags, husp⟩

/-- A frame that waits is the one with which the task goes on. -/
theorem woken (h : Parked boot m₁) (hlive : t ∈ m₁.tasks.live) (haway : m₁.tasks.currentTask ≠ t) (hkthreadd : t ≠ kthreaddTask)
    (hrun : Relation.ReflTransGen (AwayStep boot t) m₁ m₂) (htimer : TimerStep boot m₂ m₃) (hback : m₃.tasks.currentTask = t)
    (hframe : pushedWords (m₁.context t) = pushedWords g) (huser : g.userEsp < wordSize) :
    (∃ fuel u, tick fuel m₂.tasks = .ok u ∧ GoesOn g (m₁.esp t) u m₃.cpu) ∧ m₃.cr3 = (m₁.tasks.task t).mm.pgdir ∧
      ∀ x, (m₁.esp t).toNat + 4 * (pushedWords g).length ≤ x → x < stackTop boot m₁.tasks t → m₃.cpu.mem x = m₁.cpu.mem x := by
  have hwaits := h.waiting t hlive (Ne.symm haway) hkthreadd
  obtain ⟨hparked, huntouched⟩ := untouched_run h hlive haway hkthreadd hrun
  obtain ⟨u, f, d, hspec⟩ := hparked.timer htimer
  have hkernel := hspec.kernel hparked
  have hu : u.currentTask = t := hkernel.current.symm.trans hback
  have hturns := hspec.turns (fun he => huntouched.away (he.symm.trans hu))
  rw [hu] at hturns
  have hlow := hwaits.low
  have hhigh := hwaits.high
  have hkept : pushedWords (m₂.context t) = pushedWords (m₁.context t) := by
    rw [Machine.context, huntouched.esp]
    refine pushedWords_frameAt fun x hx hx' => huntouched.mem x (by omega) ?_
    exact Nat.lt_of_lt_of_le hx' hhigh
  have hpushed : pushedWords f = pushedWords g := by rw [hturns.1, hkept, hframe]
  have hesp : d.esp = m₁.esp t := hturns.2.trans huntouched.esp
  obtain ⟨fuel, htick⟩ := hspec.tick
  have hdisjoint := hparked.settled.stack_disjoint hparked.image huntouched.live hkthreadd hparked.settled.current_live
    hparked.settled.current_ne (Ne.symm huntouched.away)
  have htop := (kernelEsp_bounds hparked.image hparked.settled hparked.ready).2
  rw [huntouched.bounds.1, huntouched.bounds.2] at hdisjoint
  refine ⟨⟨fuel, u, htick, hesp ▸ hspec.goesOn hpushed huser⟩, ?_, fun x hx hx' => ?_⟩
  · rw [hspec.cr3, KState.current, hu, (hkernel.pgdir t huntouched.live).2, huntouched.pgdir]
  · rw [hspec.mem x (by omega) (by rw [hesp, hpushed]; omega), huntouched.mem x (by omega) hx']

theorem userEsp_savedFrame (c : Cpu) (saved : ℕ) : (savedFrame 32 0 c saved).userEsp < wordSize := by
  simp only [savedFrame]
  split
  · exact load32_lt
  · exact c.esp.isLt

/-- The timer takes the CPU from no task: when it runs again, and however long that takes, everything
is as it was, but for a signal that a handler is waiting for. -/
theorem preemption_transparent (hrun : MachineRun boot m₀) (hout : TimerStep boot m₀ m₁) :
    (m₁.tasks.currentTask = m₀.tasks.currentTask → GivenBack boot m₀ m₀ m₁) ∧
      (m₁.tasks.currentTask ≠ m₀.tasks.currentTask → ∀ m₂ m₃,
        Relation.ReflTransGen (AwayStep boot m₀.tasks.currentTask) m₁ m₂ → TimerStep boot m₂ m₃ →
        m₃.tasks.currentTask = m₀.tasks.currentTask → GivenBack boot m₀ m₂ m₃) := by
  have h := parked_run hrun
  obtain ⟨u, f, d, hspec⟩ := h.timer hout
  have hkernel := hspec.kernel h
  have hcurrent := hkernel.current
  have hlive := h.settled.current_live
  have htop := (kernelEsp_bounds h.image h.settled h.ready).2
  refine ⟨fun hstays => ?_, fun hlost m₂ m₃ haway hback hours => ?_⟩
  · have hu : u.currentTask = m₀.tasks.currentTask := hcurrent.symm.trans hstays
    obtain ⟨hf, hesp⟩ := hspec.stays hu
    have hon := hspec.goesOn (congrArg pushedWords hf) (userEsp_savedFrame _ _)
    rw [hf] at hesp
    have hlow := hspec.low
    rw [hu] at hlow
    refine hon.givenBack h hspec.tick hesp ?_ fun x hx hx' => hspec.mem x (.inr hx) (.inr ?_)
    · rw [hspec.cr3, KState.current, hu, (hkernel.pgdir _ hlive).2]
      exact h.cr3.symm
    · rw [hf]
      omega
  · have hu : u.currentTask ≠ m₀.tasks.currentTask := fun he => hlost (hcurrent.trans he)
    obtain ⟨hframe, hlow, hesp⟩ := hspec.saved hu
    have hbounds := hkernel.bounds _ hlive
    have hne := h.settled.current_ne
    obtain ⟨⟨fuel, v, htick, hon⟩, hcr3, hmem⟩ := woken (h.timer_step hspec) (hkernel.live ▸ hlive) hlost hne haway hback hours
      hframe (userEsp_savedFrame _ _)
    obtain ⟨hmem', hne', -⟩ := hspec.frame_ring h
    have hdisjoint := h.settled.stack_disjoint h.image hlive hne hmem' hne' (Ne.symm hu)
    have hhigh := hspec.high
    rw [hframe] at hesp
    rw [hbounds.2] at hmem
    refine hon.givenBack h ⟨fuel, htick⟩ hesp ?_ fun x hx hx' => ?_
    · rw [hcr3, (hkernel.pgdir _ hlive).1]
      exact h.cr3.symm
    · rw [hmem x (by omega) hx', hspec.mem x (.inr hx) (by omega)]

/-- Init has the CPU until it lets `init_task` go on. -/
theorem preemption_transparent_init : ∃ (boot : ℕ) (m k n : Machine), m.tasks = initTaskStopped ∧
    k.tasks.currentTask = 10 ∧ n.tasks.currentTask = initTask ∧ GivenBack boot m k n := by
  obtain ⟨boot, m₀, m₁, m₂, m₃, m₄, m₅, m₆, hrun, ⟨hr₁, hr₂, hr₃⟩, ⟨hr₄, hr₅, hr₆⟩, ⟨-, -, ht₂, ht₃⟩, ht₄, ht₅, ht₆⟩ :=
    exists_handover
  have hrun₂ : MachineRun boot m₂ := .next (.next hrun (.inl hr₁)) (.inl hr₂)
  have hcurrent : initTaskStopped.currentTask = initTask ∧ initRuns.currentTask = 10 ∧ initTaskContinued.currentTask = 10 ∧
      initStopped.currentTask = 10 ∧ initTaskBack.currentTask = initTask := by decide +kernel
  have hlive : initTask ∈ initTaskContinued.live ∧ initTask ∈ initStopped.live := by decide +kernel
  rw [← ht₂, ← ht₃, ← ht₄, ← ht₅, ← ht₆] at hcurrent
  rw [← ht₄, ← ht₅] at hlive
  obtain ⟨hcur₂, hcur₃, hcur₄, hcur₅, hcur₆⟩ := hcurrent
  have haway : Relation.ReflTransGen (AwayStep boot m₂.tasks.currentTask) m₃ m₅ := by
    rw [hcur₂]
    have hstep₄ : AwayStep boot initTask m₃ m₄ := ⟨.inl hr₄, hlive.1, hcur₄ ▸ by decide⟩
    have hstep₅ : AwayStep boot initTask m₄ m₅ := ⟨.inl hr₅, hlive.2, hcur₅ ▸ by decide⟩
    exact .tail (.single hstep₄) hstep₅
  have hback := (preemption_transparent hrun₂ hr₃).2 (by rw [hcur₂, hcur₃]; decide) m₅ m₆ haway hr₆ (hcur₆.trans hcur₂.symm)
  exact ⟨boot, m₂, m₅, m₆, ht₂, hcur₅, hcur₆, hback⟩

end Away

end HekaOS.Traps
