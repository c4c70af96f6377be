import HekaOS.StackBounds

/-!
# The registers of the tasks that wait

The frame of a task that is not on the CPU lies on the stack of that task. A timer interrupt puts the
frame of the interrupted task there, and goes on with the one of the next task; nothing else in the
machine touches the frames of tasks that wait.
-/

namespace HekaOS.Traps
open MachineWord ByteMemory StackCpu KernelMemory Tasks TaskMemory TransitionSystem

variable {boot t fuel : ℕ} {m n : Machine} {s s' v : KState} {f g : TrapFrame} {c d : Cpu} {op : KOp}

/-! ### What `schedule` decides -/

/-- `schedule` leaves the task on the CPU to the stub. -/
theorem schedule_currentTask (h : schedule fuel s = .ok v) : v.currentTask = s.currentTask := by
  obtain ⟨u, hu, h⟩ := bind_eq_ok.mp h
  have hdrain : u.currentTask = s.currentTask := by
    rcases drainCurrent_cases hu with hcalm | ⟨-, hexits⟩
    · exact hcalm.rest.currentTask
    · exact hexits.globals.currentTask
  have hkeeps : ∀ {w x : KState}, reschedule fuel w = .ok x → x.currentTask = w.currentTask := by
    intro w x hx
    obtain ⟨next, -, hx⟩ := bind_eq_ok.mp hx
    split at hx
    · obtain rfl := Except.ok.inj hx
      rfl
    · have hyield : (yieldCurrent (refillQuantum w)).currentTask = w.currentTask := by
        unfold yieldCurrent
        split <;> rfl
      exact (calm_countLap hx).rest.currentTask.trans hyield
  split at h
  · exact (hkeeps h).trans hdrain
  · split at h
    · obtain rfl := Except.ok.inj h
      exact hdrain
    · exact (hkeeps h).trans hdrain

theorem tick_eq (h : schedule fuel { s with interruptFlag := false } = .ok v) : tick fuel s = .ok (switched v) := by
  rw [tick, h]
  rfl

theorem switched_current (h : v.needResched = false) : (switched v).currentTask = v.currentTask := by
  rw [switched, contextSwitch, h, if_neg Bool.false_ne_true]

/-- What the stub does to the machine, with the task `v.currentTask` on its way out -/
structure SwitchesStack (v : KState) (m n : Machine) : Prop where
  mem : n.cpu.mem = m.cpu.mem
  cs : n.cpu.cs = m.cpu.cs
  ss : n.cpu.ss = m.cpu.ss
  esp : n.cpu.esp = if (switched v).currentTask = v.currentTask then m.cpu.esp else m.esp (switched v).currentTask
  saved : (switched v).currentTask ≠ v.currentTask → n.esp v.currentTask = m.cpu.esp
  others : ∀ t, t ≠ v.currentTask → n.esp t = m.esp t
  cr3 : m.cr3 = (v.task v.currentTask).mm.pgdir → n.cr3 = (v.task (switched v).currentTask).mm.pgdir

theorem switchesStack (v : KState) (m : Machine) : SwitchesStack v m (switchStack v m) := by
  by_cases hresched : v.needResched = true
  · have hcur : (switched v).currentTask = v.nextTask.getD v.currentTask := by
      rw [switched, contextSwitch, if_pos hresched]
    have hn : switchStack v m = _ := if_pos hresched
    rw [hn]
    refine ⟨rfl, rfl, rfl, ?_, fun _ => Function.update_self _ _ _, fun t ht => Function.update_of_ne ht _ _, fun _ => ?_⟩
    · rw [hcur]
      by_cases hne : v.nextTask.getD v.currentTask = v.currentTask
      · rw [if_pos hne]
        dsimp only
        rw [hne, Function.update_self]
      · rw [if_neg hne]
        exact Function.update_of_ne hne _ _
    · rw [hcur]
      dsimp only
      split
      · rename_i heq
        exact heq.symm
      · rfl
  · have hcur := switched_current (v := v) (Bool.eq_false_of_not_eq_true hresched)
    have hn : switchStack v m = m := if_neg hresched
    rw [hn]
    refine ⟨rfl, rfl, rfl, ?_, fun hne => absurd hcur hne, fun _ _ => rfl, fun h => ?_⟩
    · rw [if_pos hcur]
    · rw [hcur]
      exact h

/-! ### A timer interrupt on one stack -/

/-- The way from the interrupt to the call of `schedule` leaves a frame below the stack pointer and
nothing else outside the stack that it uses. -/
structure Interrupted (boot : ℕ) (m : Machine) (c : Cpu) : Prop where
  frame : frameAt c.mem c.esp.toNat = savedFrame 32 0 m.cpu (c.esp.toNat + 36)
  low : stackBase boot m.tasks m.tasks.currentTask + 12 ≤ c.esp.toNat
  high : c.esp.toNat + 4 * (pushedWords (frameAt c.mem c.esp.toNat)).length =
    (kernelEsp m.cpu (BitVec.ofNat 32 m.tasks.esp0)).toNat
  top : (kernelEsp m.cpu (BitVec.ofNat 32 m.tasks.esp0)).toNat ≤ stackTop boot m.tasks m.tasks.currentTask
  mem : ∀ x, x < stackBase boot m.tasks m.tasks.currentTask ∨
    (kernelEsp m.cpu (BitVec.ofNat 32 m.tasks.esp0)).toNat ≤ x → c.mem x = m.cpu.mem x
  ring : c.cpl = 0
  ss : c.ss = kernelDs

/-- There is room for the frame. -/
theorem kernelEsp_bounds (himage : boot + bootStackSize ≤ kstackVaBase) (hs : Settled m.tasks) (hready : OnOwnStack boot m) :
    stackBase boot m.tasks m.tasks.currentTask + 68 + 4 * (outerWords m.cpu).length ≤
        (kernelEsp m.cpu (BitVec.ofNat 32 m.tasks.esp0)).toNat ∧
      (kernelEsp m.cpu (BitVec.ofNat 32 m.tasks.esp0)).toNat ≤ stackTop boot m.tasks m.tasks.currentTask := by
  have hfits := hs.stack_fits himage hs.current_live hs.current_ne
  have hsize := stack_size boot m.tasks m.tasks.currentTask
  rcases hready.ring with hring | ⟨hring, huser⟩
  · rw [kernelEsp, if_pos hring, outerWords, if_pos hring]
    exact (hready.kernel hring).2
  · have hlen := length_outerWords m.cpu
    have hesp : (BitVec.ofNat 32 m.tasks.esp0).toNat = stackTop boot m.tasks m.tasks.currentTask := by
      rw [hs.esp0_eq boot huser, BitVec.toNat_ofNat]
      exact Nat.mod_eq_of_lt (by simp only [wordSize] at hfits; omega)
    rw [kernelEsp, if_neg (by omega), hesp]
    omega

/-- The timer interrupt reaches its stub. -/
theorem irq0_trap (offset : Word) (himage : boot + bootStackSize ≤ kstackVaBase) (hs : Settled m.tasks)
    (hready : OnOwnStack boot m) :
    Trap 32 (irq 32) (irq0Gate offset) (BitVec.ofNat 32 m.tasks.esp0) none m.cpu ∧
      (trapped (irq 32) (irq0Gate offset) kernelDs (BitVec.ofNat 32 m.tasks.esp0) none m.cpu).esp.toNat +
        4 * (14 + (outerWords m.cpu).length) = (kernelEsp m.cpu (BitVec.ofNat 32 m.tasks.esp0)).toNat := by
  obtain ⟨hlow, -⟩ := kernelEsp_bounds himage hs hready
  have hgate : rpl (irq0Gate offset).selector = 0 := by
    have hselector : rpl 0x08 = 0 := by decide
    exact hselector
  have htrap : Trap 32 (irq 32) (irq0Gate offset) (BitVec.ofNat 32 m.tasks.esp0) none m.cpu :=
    ⟨rfl, hgate, rfl, by omega⟩
  have hgrown := (htrap.grown kernelDs).esp
  refine ⟨htrap, ?_⟩
  rw [← hgrown]
  simp only [trapWords, List.length_append, List.length_cons, List.length_nil]
  omega

theorem interrupted {offset : Word} (himage : boot + bootStackSize ≤ kstackVaBase) (hs : Settled m.tasks)
    (hready : OnOwnStack boot m)
    (hcalled : CalledWithEsp (stackBase boot m.tasks m.tasks.currentTask) ∅
      (trapped (irq 32) (irq0Gate offset) kernelDs (BitVec.ofNat 32 m.tasks.esp0) none m.cpu) c) :
    Interrupted boot m c := by
  obtain ⟨hlow, hhigh⟩ := kernelEsp_bounds himage hs hready
  obtain ⟨htrap, hesp⟩ := irq0_trap offset himage hs hready
  have hgate := htrap.ring0
  have hgrown := htrap.grown kernelDs
  have hframe : frameAt _ _ = savedFrame 32 0 m.cpu _ := htrap.frameAt_eq kernelDs
  obtain ⟨hcs, hss⟩ := trapped_segments htrap kernelDs
  generalize trapped (irq 32) (irq0Gate offset) kernelDs (BitVec.ofNat 32 m.tasks.esp0) none m.cpu = t at *
  have hrest : ∀ x, x < t.esp.toNat ∨ (kernelEsp m.cpu (BitVec.ofNat 32 m.tasks.esp0)).toNat ≤ x → t.mem x = m.cpu.mem x :=
    hgrown.rest
  have hlen := length_outerWords m.cpu
  obtain ⟨⟨hcesp, hccs, hcss⟩, hcmem⟩ := hcalled.spec (by omega)
  have hkept : frameAt c.mem c.esp.toNat = savedFrame 32 0 m.cpu (c.esp.toNat + 36) := by
    rw [hcesp, ← hframe]
    exact frameAt_congr fun x hx _ => hcmem x (.inr hx) (Set.notMem_empty x)
  have hpushed : (pushedWords (frameAt c.mem c.esp.toNat)).length = 14 + (outerWords m.cpu).length := by
    have hcpl : (savedFrame 32 0 m.cpu (c.esp.toNat + 36)).cs % 4 = 0 ↔ m.cpu.cpl = 0 := Iff.rfl
    rw [hkept, length_pushedWords, outerWords]
    by_cases hring : m.cpu.cpl = 0
    · rw [if_pos (hcpl.mpr hring), if_pos hring]
      rfl
    · rw [if_neg (mt hcpl.mp hring), if_neg hring]
      rfl
  refine ⟨hkept, ?_, ?_, hhigh, fun x hx => ?_, ?_, ?_⟩
  · rw [hcesp]
    omega
  · rw [hpushed, hcesp]
    exact hesp
  · rw [hcmem x (by omega) (Set.notMem_empty x), hrest x (by omega)]
  · rw [Cpu.cpl, hccs, hcs, hgate]
  · rw [hcss, hss]
    split
    · rename_i hring
      exact (hready.kernel hring).1
    · rfl

/-! ### The invariant -/

/-- The registers of a task that is not on the CPU wait on its stack. -/
structure Waiting (boot : ℕ) (m : Machine) (t : ℕ) : Prop where
  low : stackBase boot m.tasks t + 12 ≤ (m.esp t).toNat
  high : (m.esp t).toNat + 4 * (pushedWords (m.context t)).length ≤ stackTop boot m.tasks t
  ring : (m.context t).cs % 4 = 0 ∨ (m.context t).cs % 4 = 3 ∧ (m.tasks.task t).isUserspace = true

structure Parked (boot : ℕ) (m : Machine) : Prop where
  image : boot + bootStackSize ≤ kstackVaBase
  settled : Settled m.tasks
  cr3 : m.cr3 = m.tasks.current.mm.pgdir
  ready : OnOwnStack boot m
  waiting : ∀ t ∈ m.tasks.live, t ≠ m.tasks.currentTask → t ≠ kthreaddTask → Waiting boot m t

/-- A tick leaves the tasks where they are. -/
theorem tick_current (boot : ℕ) {u : KState} (hs : Settled s) (h : tick fuel s = .ok u) :
    Settled u ∧ u.live = s.live ∧ (∀ t ∈ s.live, stackBase boot u t = stackBase boot s t ∧ stackTop boot u t = stackTop boot s t) ∧
      ∀ t ∈ s.live, (u.task t).mm.pgdir = (s.task t).mm.pgdir ∧ (u.task t).isUserspace = (s.task t).isUserspace := by
  have hop : KStep (.tick fuel) s u := ⟨trivial, toOption_eq_some.mpr h⟩
  have hcpu : (KOp.tick fuel).OnCpu s := trivial
  obtain ⟨kids, order, hk⟩ := hs.run.tended
  have hlive : u.live = s.live := by
    cases rollStep hk.settled hop with
    | same hlive => exact hlive
    | joined p c hp => exact hp.elim
    | left z hz => exact hz.elim
  refine ⟨hs.step hcpu hop, hlive, fun t ht => stack_step boot hs hop (hlive ▸ ht) ht, fun t ht => ?_⟩
  exact ⟨(place_eq (place_step hk hop (hlive ▸ ht) ht)).2.2, userspace_step hk hop (hlive ▸ ht) ht⟩

/-- Where the stub stands when it has changed the stack -/
structure Landed (boot : ℕ) (m : Machine) (c : Cpu) (u : KState) (n : Machine) : Prop where
  ring : n.cpu.cpl = 0
  ss : n.cpu.ss = kernelDs
  low : stackBase boot m.tasks u.currentTask + 12 ≤ n.cpu.esp.toNat
  high : n.cpu.esp.toNat + 4 * (pushedWords (frameAt n.cpu.mem n.cpu.esp.toNat)).length ≤
    stackTop boot m.tasks u.currentTask
  mem : n.cpu.mem = c.mem
  stays : u.currentTask = m.tasks.currentTask → n.cpu.esp = c.esp
  turns : u.currentTask ≠ m.tasks.currentTask →
    pushedWords (frameAt n.cpu.mem n.cpu.esp.toNat) = pushedWords (m.context u.currentTask) ∧
      n.cpu.esp = m.esp u.currentTask ∧ n.esp m.tasks.currentTask = c.esp
  others : ∀ t, t ≠ m.tasks.currentTask → n.esp t = m.esp t

theorem Parked.landed {u : KState} (h : Parked boot m) (hc : Interrupted boot m c) (hmem : u.currentTask ∈ m.tasks.live)
    (hne : u.currentTask ≠ kthreaddTask) (hvcur : v.currentTask = m.tasks.currentTask)
    (hucur : (switched v).currentTask = u.currentTask) (hswitch : SwitchesStack v { m with cpu := c } n) :
    Landed boot m c u n := by
  have hesp := hswitch.esp
  rw [hucur, hvcur] at hesp
  have hring : n.cpu.cpl = 0 := by
    rw [Cpu.cpl, hswitch.cs]
    exact hc.ring
  have hothers : ∀ t, t ≠ m.tasks.currentTask → n.esp t = m.esp t := fun t ht => hswitch.others t (hvcur ▸ ht)
  by_cases hstays : u.currentTask = m.tasks.currentTask
  · rw [if_pos hstays] at hesp
    have hmem' : n.cpu.mem = c.mem := hswitch.mem
    have hesp' : n.cpu.esp = c.esp := hesp
    refine ⟨hring, hswitch.ss.trans hc.ss, ?_, ?_, hmem', fun _ => hesp', fun hturns => absurd hstays hturns, hothers⟩
    · rw [hstays, hesp']
      exact hc.low
    · rw [hstays, hmem', hesp', hc.high]
      exact hc.top
  · rw [if_neg hstays] at hesp
    have hmem' : n.cpu.mem = c.mem := hswitch.mem
    have hesp' : n.cpu.esp = m.esp u.currentTask := hesp
    have hwaits := h.waiting _ hmem hstays hne
    have hdisjoint := h.settled.stack_disjoint h.image hmem hne h.settled.current_live h.settled.current_ne hstays
    have hlow := hwaits.low
    have hhigh := hwaits.high
    have htop := hc.top
    -- the interrupted task has written to its own stack only
    have hframe : pushedWords (frameAt n.cpu.mem n.cpu.esp.toNat) = pushedWords (m.context u.currentTask) := by
      rw [hmem', hesp']
      refine pushedWords_frameAt fun x hx hx' => hc.mem x ?_
      have hx'' : x < stackTop boot m.tasks u.currentTask := Nat.lt_of_lt_of_le hx' hhigh
      omega
    refine ⟨hring, hswitch.ss.trans hc.ss, ?_, ?_, hmem', fun hs => absurd hs hstays, fun _ => ⟨hframe, hesp', ?_⟩, hothers⟩
    · rw [hesp']
      exact hlow
    · rw [hframe, hesp']
      exact hhigh
    · rw [← hvcur]
      exact hswitch.saved (by rwa [hucur, hvcur])

/-- What a timer interrupt does: `u` is the state of the kernel behind the switch, `f` the frame on the
stack of the task that goes on, and `d` the processor when the stub begins to restore it. -/
structure TimerSpec (boot : ℕ) (m n : Machine) (u : KState) (f : TrapFrame) (d : Cpu) : Prop where
  tick : ∃ fuel, tick fuel m.tasks = .ok u
  loaded : ∃ mem a, f = frameAt mem a
  tasks : n.tasks = (signalCheckAndDeliver f u).2
  cpu : n.cpu = resumed (signalCheckAndDeliver f u).1 d
  ring : d.cpl = 0
  ss : d.ss = kernelDs
  low : stackBase boot m.tasks u.currentTask + 12 ≤ d.esp.toNat
  high : d.esp.toNat + 4 * (pushedWords f).length ≤ stackTop boot m.tasks u.currentTask
  stays : u.currentTask = m.tasks.currentTask → f = savedFrame 32 0 m.cpu (d.esp.toNat + 36) ∧
    d.esp.toNat + 4 * (pushedWords f).length = (kernelEsp m.cpu (BitVec.ofNat 32 m.tasks.esp0)).toNat
  turns : u.currentTask ≠ m.tasks.currentTask → pushedWords f = pushedWords (m.context u.currentTask) ∧
    d.esp = m.esp u.currentTask
  saved : u.currentTask ≠ m.tasks.currentTask →
    pushedWords (n.context m.tasks.currentTask) =
        pushedWords (savedFrame 32 0 m.cpu ((n.esp m.tasks.currentTask).toNat + 36)) ∧
      stackBase boot m.tasks m.tasks.currentTask + 12 ≤ (n.esp m.tasks.currentTask).toNat ∧
      (n.esp m.tasks.currentTask).toNat + 4 * (pushedWords (n.context m.tasks.currentTask)).length =
        (kernelEsp m.cpu (BitVec.ofNat 32 m.tasks.esp0)).toNat
  others : ∀ t, t ≠ m.tasks.currentTask → n.esp t = m.esp t
  mem : ∀ x, x < stackBase boot m.tasks m.tasks.currentTask ∨
      (kernelEsp m.cpu (BitVec.ofNat 32 m.tasks.esp0)).toNat ≤ x →
    x < stackBase boot m.tasks u.currentTask ∨ d.esp.toNat + 4 * (pushedWords f).length ≤ x → n.cpu.mem x = m.cpu.mem x
  cr3 : n.cr3 = u.current.mm.pgdir

theorem Parked.timerStep {offset : Word} {n' : Machine} (h : Parked boot m)
    (hcalled : CalledWithEsp (stackBase boot m.tasks m.tasks.currentTask) ∅
      (trapped (irq 32) (irq0Gate offset) kernelDs (BitVec.ofNat 32 m.tasks.esp0) none m.cpu) c)
    (hschedule : schedule fuel { m.tasks with interruptFlag := false } = .ok v)
    (hswitch : SwitchesStack v { m with cpu := c } n')
    (hdelivered : CalledWithEsp (stackBase boot (switched v) (switched v).currentTask)
      (Set.Ico n'.cpu.esp.toNat (n'.cpu.esp.toNat + 4 * (pushedWords (frameAt n'.cpu.mem n'.cpu.esp.toNat)).length)) n'.cpu d)
    (hframe : pushedWords (frameAt d.mem d.esp.toNat) =
      pushedWords (signalCheckAndDeliver (frameAt n'.cpu.mem n'.cpu.esp.toNat) (switched v)).1)
    (hcpu : n.cpu = restoreContext d) (hcr3 : n.cr3 = n'.cr3) (hesp : n.esp = n'.esp)
    (htasks : n.tasks = (signalCheckAndDeliver (frameAt n'.cpu.mem n'.cpu.esp.toNat) (switched v)).2) :
    TimerSpec boot m n (switched v) (frameAt n'.cpu.mem n'.cpu.esp.toNat) d := by
  have hc := interrupted h.image h.settled h.ready hcalled
  have htick := tick_eq hschedule
  have hvcur : v.currentTask = m.tasks.currentTask := by
    have hkept := schedule_currentTask hschedule
    exact hkept
  have hpgdir : (v.task v.currentTask).mm.pgdir = ((switched v).task v.currentTask).mm.pgdir ∧
      (v.task (switched v).currentTask).mm.pgdir = (switched v).current.mm.pgdir := by
    unfold switched contextSwitch
    split <;> exact ⟨rfl, rfl⟩
  have hvcr3 := hswitch.cr3
  rw [hpgdir.1, hpgdir.2] at hvcr3
  obtain ⟨hu, hlive, hstacks, hplaces⟩ := tick_current boot h.settled htick
  generalize hu' : switched v = u at *
  have hmem : u.currentTask ∈ m.tasks.live := hlive ▸ hu.current_live
  have hland := h.landed hc hmem hu.current_ne hvcur (by rw [hu']) hswitch
  obtain ⟨hring, hss, hlow, hhigh, hcmem, hstays, hturns, hothers⟩ := hland
  rw [(hstacks _ hmem).1] at hdelivered
  have hloaded : ∃ mem a, frameAt n'.cpu.mem n'.cpu.esp.toNat = frameAt mem a := ⟨_, _, rfl⟩
  generalize hf : frameAt n'.cpu.mem n'.cpu.esp.toNat = f at *
  obtain ⟨⟨hdesp, hdcs, hdss⟩, hdmem⟩ := hdelivered.spec (by omega)
  have hdring : d.cpl = 0 := by
    rw [Cpu.cpl, hdcs]
    exact hring
  have hrest : ∀ x, x < stackBase boot m.tasks u.currentTask ∨ n'.cpu.esp.toNat + 4 * (pushedWords f).length ≤ x →
      d.mem x = c.mem x := by
    intro x hx
    rw [hdmem x (by omega) (fun hmem => by rw [Set.mem_Ico] at hmem; omega), hcmem]
  have hfits := h.settled.stack_fits h.image hmem hu.current_ne
  have hlen : 14 ≤ (pushedWords f).length := by
    rw [length_pushedWords]
    split <;> omega
  have hrestore : n.cpu = resumed (signalCheckAndDeliver f u).1 d := by
    rw [hcpu, restoreContext_eq (by rw [hdesp]; omega)]
    exact resumed_congr hdring hframe
  have hnmem : n.cpu.mem = d.mem := by
    rw [hrestore]
    rfl
  refine ⟨⟨_, htick⟩, hloaded, htasks, hrestore, hdring, hdss.trans hss, by rwa [hdesp], by rwa [hdesp], fun hs => ?_, fun hs => ?_,
    fun hs => ?_, fun t ht => ?_, fun x hx hx' => ?_, ?_⟩
  · have hesp' := hstays hs
    rw [hdesp, hesp', ← hc.high]
    rw [hcmem, hesp'] at hf
    rw [hf]
    exact ⟨hf ▸ hc.frame, rfl⟩
  · rw [hdesp]
    exact ⟨(hturns hs).1, (hturns hs).2.1⟩
  · have hesp' : n.esp m.tasks.currentTask = c.esp := by
      rw [hesp]
      exact (hturns hs).2.2
    have hdisjoint := h.settled.stack_disjoint h.image hmem hu.current_ne h.settled.current_live h.settled.current_ne hs
    have htop := hc.top
    have hclow := hc.low
    have hchigh := hc.high
    -- the task that goes on writes to its own stack
    have hcontext : pushedWords (n.context m.tasks.currentTask) = pushedWords (frameAt c.mem c.esp.toNat) := by
      rw [Machine.context, hesp', hnmem]
      exact pushedWords_frameAt fun x hx hx' => hrest x (by omega)
    rw [hcontext, hesp', hc.frame]
    rw [hc.frame] at hchigh
    exact ⟨rfl, hclow, hchigh⟩
  · rw [hesp]
    exact hothers t ht
  · rw [hnmem, hrest x (by rwa [← hdesp])]
    exact hc.mem x hx
  · rw [hcr3, hvcr3]
    rw [hvcur, (hplaces _ h.settled.current_live).1]
    exact h.cr3

theorem Parked.timer (h : Parked boot m) (hstep : TimerStep boot m n) : ∃ u f d, TimerSpec boot m n u f d := by
  cases hstep with
  | @mk offset fuel v c d n' henabled hcalled hschedule hn hdelivered hframe =>
    have hswitch := switchesStack v { m with cpu := c }
    rw [← hn] at hswitch
    exact ⟨_, _, _, h.timerStep hcalled hschedule hswitch hdelivered hframe rfl rfl rfl rfl⟩

/-! ### The invariant holds behind a timer interrupt -/

theorem land_three (w : ℕ) : w &&& 3 = w % 4 := Nat.and_two_pow_sub_one_eq_mod w 2

/-- Delivery leaves a frame, or enters the handler with it. -/
theorem delivered_cases (f : TrapFrame) (s : KState) :
    (signalCheckAndDeliver f s).1 = f ∨
      f.cs % 4 = 3 ∧ ∃ bit, caughtSignal s.current = some bit ∧
        (signalCheckAndDeliver f s).1 = { f with
          eip := s.current.signalHandlers (signumOf bit), userEsp := sigframeAddr f.userEsp,
          eflags := f.eflags &&& (wordSize - 1 - 2 ^ 10) } := by
  unfold signalCheckAndDeliver
  split
  · exact .inl rfl
  · rename_i hring
    split
    · exact .inl rfl
    · rename_i bit hbit
      rw [not_not, land_three] at hring
      exact .inr ⟨hring, bit, hbit, rfl⟩

theorem delivered_cs (f : TrapFrame) (s : KState) : (signalCheckAndDeliver f s).1.cs = f.cs := by
  rcases delivered_cases f s with h | ⟨-, bit, -, h⟩ <;> rw [h]

/-- What the kernel is behind a timer interrupt -/
structure Ticked (boot : ℕ) (s u k : KState) : Prop where
  settled : Settled k
  live : k.live = s.live
  current : k.currentTask = u.currentTask
  bounds : ∀ t ∈ s.live, stackBase boot k t = stackBase boot s t ∧ stackTop boot k t = stackTop boot s t
  pgdir : ∀ t ∈ s.live, (k.task t).mm.pgdir = (s.task t).mm.pgdir ∧ (u.task t).mm.pgdir = (s.task t).mm.pgdir
  userspace : ∀ t ∈ s.live, (k.task t).isUserspace = (s.task t).isUserspace

theorem ticked (boot : ℕ) {u : KState} (hs : Settled s) (h : tick fuel s = .ok u) :
    Ticked boot s u (signalCheckAndDeliver f u).2 := by
  obtain ⟨hu, hlive, hstacks, hplaces⟩ := tick_current boot hs h
  have hop : KStep (.deliver f) u (signalCheckAndDeliver f u).2 := ⟨trivial, rfl⟩
  have hcpu : (KOp.deliver f).OnCpu u := trivial
  have hquiet : Quiet u (signalCheckAndDeliver f u).2 := quiet_deliver
  obtain ⟨kids, order, hk⟩ := hu.run.tended
  have hlive' : (signalCheckAndDeliver f u).2.live = u.live := by rw [hquiet.rest]
  have hcurrent : (signalCheckAndDeliver f u).2.currentTask = u.currentTask := by rw [hquiet.rest]
  have hsettled := hu.step hcpu hop
  generalize (signalCheckAndDeliver f u).2 = k at *
  have hmem : ∀ t ∈ s.live, t ∈ k.live ∧ t ∈ u.live := fun t ht => ⟨by rwa [hlive', hlive], by rwa [hlive]⟩
  refine ⟨hsettled, hlive'.trans hlive, hcurrent, fun t ht => ?_, fun t ht => ?_, fun t ht => ?_⟩
  · obtain ⟨hbase, htop⟩ := stack_step boot hu hop (hmem t ht).1 (hmem t ht).2
    exact ⟨hbase.trans (hstacks t ht).1, htop.trans (hstacks t ht).2⟩
  · exact ⟨(place_eq (place_step hk hop (hmem t ht).1 (hmem t ht).2)).2.2.trans (hplaces t ht).1, (hplaces t ht).1⟩
  · exact (userspace_step hk hop (hmem t ht).1 (hmem t ht).2).trans (hplaces t ht).2

section Timer
variable {u : KState} (h : Parked boot m) (hstep : TimerSpec boot m n u f d)
include h hstep

theorem TimerSpec.kernel : Ticked boot m.tasks u n.tasks := by
  obtain ⟨fuel, htick⟩ := hstep.tick
  rw [hstep.tasks]
  exact ticked boot h.settled htick

/-- The ring of the frame that is restored -/
theorem TimerSpec.frame_ring : u.currentTask ∈ m.tasks.live ∧ u.currentTask ≠ kthreaddTask ∧
    (f.cs % 4 = 0 ∨ f.cs % 4 = 3 ∧ (m.tasks.task u.currentTask).isUserspace = true) := by
  have hkernel := hstep.kernel h
  have hmem : u.currentTask ∈ m.tasks.live := by
    rw [← hkernel.current, ← hkernel.live]
    exact hkernel.settled.current_live
  have hne : u.currentTask ≠ kthreaddTask := by
    rw [← hkernel.current]
    exact hkernel.settled.current_ne
  refine ⟨hmem, hne, ?_⟩
  by_cases hstays : u.currentTask = m.tasks.currentTask
  · rw [(hstep.stays hstays).1, hstays]
    exact h.ready.ring
  · have hring := (h.waiting _ hmem hstays hne).ring
    rwa [← pushedWords_ring (hstep.turns hstays).1] at hring

theorem Parked.timer_step : Parked boot n := by
  have hkernel := hstep.kernel h
  obtain ⟨hmem, hne, hring⟩ := hstep.frame_ring h
  have hcurrent := hkernel.current
  have hlive := hkernel.live
  have hlow := hstep.low
  have hhigh := hstep.high
  have hfits := h.settled.stack_fits h.image hmem hne
  rw [length_pushedWords] at hhigh
  have hcpl : n.cpu.cpl = f.cs % 4 := by
    rw [hstep.cpu, Cpu.cpl, resumed, rpl_toSelector, delivered_cs]
  refine ⟨h.image, hkernel.settled, ?_, ⟨?_, fun hcpl' => ?_⟩, fun t ht hne' hkthreadd => ?_⟩
  · rw [hstep.cr3, KState.current, KState.current, hcurrent, (hkernel.pgdir _ hmem).1, (hkernel.pgdir _ hmem).2]
  · rw [hcpl, KState.current, hcurrent, hkernel.userspace _ hmem]
    exact hring
  · rw [hcpl] at hcpl'
    have hsame := delivered_cases f u
    rw [hcpl'] at hsame
    have hf : (signalCheckAndDeliver f u).1 = f := hsame.elim id fun h => absurd h.1 (by decide)
    have hinwards : ¬d.cpl < rpl (toSelector f.cs) := by
      rw [rpl_toSelector, hcpl']
      exact Nat.not_lt_zero _
    have hesp : n.cpu.esp.toNat = d.esp.toNat + 56 := by
      rw [hstep.cpu, hf, resumed, if_neg hinwards, BitVec.toNat_add]
      rw [if_pos hcpl'] at hhigh
      exact Nat.mod_eq_of_lt (by simp only [wordSize] at hfits; simp; omega)
    rw [hcurrent, (hkernel.bounds _ hmem).1, (hkernel.bounds _ hmem).2, hesp]
    rw [if_pos hcpl'] at hhigh
    refine ⟨?_, by omega, by omega⟩
    rw [hstep.cpu, hf]
    exact (if_neg hinwards).trans hstep.ss
  · rw [hlive] at ht
    rw [hcurrent] at hne'
    have hbounds := hkernel.bounds t ht
    have huser := hkernel.userspace t ht
    by_cases htask : t = m.tasks.currentTask
    · obtain rfl := htask
      obtain ⟨hframe, hlow', hhigh'⟩ := hstep.saved (Ne.symm hne')
      have htop := (kernelEsp_bounds h.image h.settled h.ready).2
      refine ⟨?_, ?_, ?_⟩
      · rw [hbounds.1]
        exact hlow'
      · rw [hbounds.2, hhigh']
        exact htop
      · rw [pushedWords_ring hframe, huser]
        exact h.ready.ring
    · have hwaits := h.waiting t ht htask hkthreadd
      have hmine := h.settled.stack_disjoint h.image ht hkthreadd h.settled.current_live h.settled.current_ne htask
      have hnext := h.settled.stack_disjoint h.image ht hkthreadd hmem hne hne'
      have htop := (kernelEsp_bounds h.image h.settled h.ready).2
      have hesp := hstep.others t htask
      have hlow' := hwaits.low
      have hhigh' := hwaits.high
      have hdhigh := hstep.high
      have hframe : pushedWords (n.context t) = pushedWords (m.context t) := by
        rw [Machine.context, hesp]
        refine pushedWords_frameAt fun x hx hx' => ?_
        have hx'' : x < stackTop boot m.tasks t := Nat.lt_of_lt_of_le hx' hhigh'
        exact hstep.mem x (by omega) (by omega)
      refine ⟨?_, ?_, ?_⟩
      · rw [hbounds.1, hesp]
        exact hlow'
      · rw [hbounds.2, hframe, hesp]
        exact hhigh'
      · rw [pushedWords_ring hframe, huser]
        exact hwaits.ring

end Timer

/-! ### The invariant holds behind what the task on the CPU does -/

/-- What waits on the stack of a new task -/
theorem Furnished.waiting (h : Furnished boot f n t) (hring : f.cs % 4 = 0 ∨ f.cs % 4 = 3 ∧ (n.tasks.task t).isUserspace = true) :
    Waiting boot n t := by
  have hesp := h.esp
  have hsize := stack_size boot n.tasks t
  have hpushed := pushedWords_of_frameWords h.frame
  refine ⟨?_, ?_, ?_⟩
  · simp only [TrapFrame.size] at hesp
    omega
  · rw [length_pushedWords, ← hesp]
    simp only [TrapFrame.size]
    split <;> omega
  · rw [pushedWords_ring hpushed]
    exact hring

theorem Copied.waiting (h : Copied boot f m n t) (hcur : m.tasks.currentTask ≠ initTask) (ht : t ≠ initTask)
    (huser : (n.tasks.task t).isUserspace = m.tasks.current.isUserspace) : Waiting boot n t := by
  obtain ⟨p, hlow, hhigh, hesp, -⟩ := h.esp
  have hlen := congrArg List.length h.frame
  rw [length_pushedWords (forkFrame f)] at hlen
  rw [length_pushedWords] at hhigh
  have hcs : (forkFrame f).cs = f.cs := rfl
  rw [hcs] at hlen
  rw [stackTop_eq boot _ hcur] at hhigh
  refine ⟨?_, ?_, ?_⟩
  · omega
  · rw [hlen, stackTop_eq boot _ ht]
    omega
  · rw [pushedWords_ring h.frame, huser]
    exact h.ring

/-- A new task can go onto the CPU. -/
theorem Prepared.waiting (hs : Settled m.tasks) (hop : KStep op m.tasks n.tasks) (hbears : ∃ p, op.Bears m.tasks p)
    (ht : t ∈ n.tasks.live) (hnew : t ∉ m.tasks.live) (h : Prepared boot m n t op) : Waiting boot n t := by
  have huser : ∀ {P : Bool → Prop}, Enters Task.isUserspace (fun x => P x.isUserspace) m.tasks n.tasks → P (n.tasks.task t).isUserspace :=
    fun hent => (hent t ht).elim (fun hold => absurd hold.1 hnew) fun hborn => hborn.2
  obtain ⟨hallowed, hrun⟩ := hop
  obtain ⟨p, hbears⟩ := hbears
  cases op with
  | execInitFn env size =>
    have hborn : n.tasks = Tasks.execInitFn env size m.tasks := (Option.some.inj hrun).symm
    have hent := userspace_spawnUser (s := m.tasks) initPid size (some initTask) hallowed.1
    refine Furnished.waiting h (.inr ⟨rfl, huser (P := fun x => x = true) ?_⟩)
    rw [hborn]
    exact hent
  | execFn env addr size =>
    have hfurnished : Furnished boot (kthreadFrame addr) n t := h
    have hcs : (kthreadFrame addr).cs = 0x08 := rfl
    have hring : (kthreadFrame addr).cs % 4 = 0 := by rw [hcs]
    exact hfurnished.waiting (.inl hring)
  | execUserFn env size =>
    have hborn : n.tasks = Tasks.execUserFn env size m.tasks.initProc m.tasks := (Option.some.inj hrun).symm
    refine Furnished.waiting h (.inr ⟨rfl, huser (P := fun x => x = true) ?_⟩)
    rw [hborn]
    exact userspace_execUserFn hallowed
  | syscall env frame =>
    cases syscall_cases hallowed.2 hrun with
    | exit hn hu hborn => rw [hbears.1] at hn; cases hn
    | kill hn hu hborn => rw [hbears.1] at hn; cases hn
    | quiet hquiet => rw [hquiet.rest] at ht; exact absurd ht hnew
    | fork hn hborn =>
      obtain ⟨kids, order, hk⟩ := hs.run.tended
      have hent := userspace_taskFork (s := { m.tasks with interruptFlag := false }) hallowed.1 hs.current_live
      have hstack : m.tasks.currentTask ≠ initTask := by
        refine hs.fork_stack env.spawn fun hsame => hnew ?_
        rw [hborn] at ht
        rwa [← hsame]
      refine Copied.waiting h hstack (fun he => hnew (he ▸ hk.init)) (huser (P := fun x => x = _) ?_)
      rw [hborn]
      exact hent
  | _ => exact hbears.elim

section Run
variable (h : Parked boot m) (hstep : RunStep boot m n)
include h hstep

theorem RunStep.kernel : Settled n.tasks ∧ n.tasks.currentTask = m.tasks.currentTask ∧
    (∀ t ∈ m.tasks.live, t ∈ n.tasks.live → (stackBase boot n.tasks t = stackBase boot m.tasks t ∧
      stackTop boot n.tasks t = stackTop boot m.tasks t) ∧ (n.tasks.task t).mm.pgdir = (m.tasks.task t).mm.pgdir ∧
      (n.tasks.task t).isUserspace = (m.tasks.task t).isUserspace) ∧
    ∀ t ∈ n.tasks.live, t ∉ m.tasks.live → Waiting boot n t := by
  have hs := h.settled
  rcases hstep.tasks with htasks | ⟨op, hntick, hcpu, hop, hprepared⟩
  · rw [htasks]
    exact ⟨hs, rfl, fun t _ _ => ⟨⟨rfl, rfl⟩, rfl, rfl⟩, fun t ht hnew => absurd ht hnew⟩
  · obtain ⟨kids, order, hk⟩ := hs.run.tended
    refine ⟨hs.step hcpu hop, ?_, fun t ht ht' => ⟨stack_step boot hs hop ht' ht, ?_, ?_⟩, fun t ht hnew => ?_⟩
    · cases rollStep hk.settled hop with
      | same hlive hcounter hinit hcurrent => exact hcurrent.resolve_left fun ⟨fuel, htick⟩ => hntick fuel htick
      | joined p c hp hfresh hlive hcurrent => exact hcurrent
      | left z hz hlive hcounter hinit hcurrent => exact hcurrent
    · exact (place_eq (place_step hk hop ht' ht)).2.2
    · exact userspace_step hk hop ht' ht
    · refine (hprepared t ht hnew).waiting hs hop ?_ ht hnew
      cases rollStep hk.settled hop with
      | same hlive => rw [hlive] at ht; exact absurd ht hnew
      | joined p c hp => exact ⟨p, hp⟩
      | left z hz hlive => rw [hlive] at ht; exact absurd (Finset.mem_of_mem_erase ht) hnew

theorem Parked.run_step : Parked boot n := by
  obtain ⟨hs, hcurrent, hkept, hborn⟩ := hstep.kernel h
  have hmem : m.tasks.currentTask ∈ n.tasks.live := hcurrent ▸ hs.current_live
  refine ⟨h.image, hs, ?_, hstep.ready, fun t ht hne hkthreadd => ?_⟩
  · rw [hstep.cr3, KState.current, hcurrent, (hkept _ h.settled.current_live hmem).2.1]
    exact h.cr3
  · by_cases hold : t ∈ m.tasks.live
    · rw [hcurrent] at hne
      have hwaits := h.waiting t hold hne hkthreadd
      obtain ⟨hesp, hmem'⟩ := hstep.others t hold ht hne hkthreadd
      obtain ⟨hbounds, -, huser⟩ := hkept t hold ht
      have hlow := hwaits.low
      have hhigh := hwaits.high
      have hframe : pushedWords (n.context t) = pushedWords (m.context t) := by
        rw [Machine.context, hesp]
        refine pushedWords_frameAt fun x hx hx' => hmem' x (by omega) ?_
        exact Nat.lt_of_lt_of_le hx' hhigh
      refine ⟨?_, ?_, ?_⟩
      · rw [hbounds.1, hesp]
        exact hlow
      · rw [hbounds.2, hframe, hesp]
        exact hhigh
      · rw [pushedWords_ring hframe, huser]
        exact hwaits.ring
    · exact hborn t ht hold

end Run

theorem parked_run (h : MachineRun boot m) : Parked boot m := by
  refine Reachable.invariant (I := Parked boot) (fun m hb => ?_) (fun m n hm hstep => ?_) h
  · have hs := Settled.of_boot hb.tasks
    obtain ⟨junk, user, htasks⟩ := hb.tasks
    have hcurrent : m.tasks.currentTask = initTask := by rw [htasks, taskInit]
    refine ⟨hb.image, hs, ?_, hb.ready, fun t ht hne hkthreadd => ?_⟩
    · rw [hb.cr3, KState.current, hcurrent, (place_eq (placed_run hs.run).init).2.2]
    · rw [hcurrent] at hne
      rw [htasks, taskInit, Finset.mem_insert, Finset.mem_singleton] at ht
      exact absurd ht (by simp [hne, hkthreadd])
  · rcases hstep with hrun | htimer
    · exact hm.run_step hrun
    · obtain ⟨u, f, d, hspec⟩ := hm.timer htimer
      exact hm.timer_step hspec

end HekaOS.Traps
