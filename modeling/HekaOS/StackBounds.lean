import HekaOS.KernelStacks

/-!
# Frames on kernel stacks

A frame is as long as the ring of the interrupted code makes it, and what the stub restores depends
on that part alone. Kernel stacks do not overlap and do not move, and whether a task runs in Ring 3 is
settled when it is created.
-/

namespace HekaOS.Traps
open MachineWord ByteMemory StackCpu KernelMemory Tasks TaskMemory TransitionSystem

variable {boot a b t fuel : ℕ} {m n : Machine} {s s' v : KState} {f g : TrapFrame} {c d : Cpu} {mem mem' : Memory} {op : KOp}
  {kids : ℕ → List ℕ} {order : List ℕ}

/-! ### The pushed part of a frame -/

theorem length_pushedWords (f : TrapFrame) : (pushedWords f).length = if f.cs % 4 = 0 then 14 else 16 := by
  unfold pushedWords
  split <;> rfl

/-- The number of the interrupted ring is in the part that is always pushed. -/
theorem pushedWords_cs (h : pushedWords f = pushedWords g) : f.cs % 4 = 0 ↔ g.cs % 4 = 0 := by
  have hlen := congrArg List.length h
  rw [length_pushedWords, length_pushedWords] at hlen
  by_cases hf : f.cs % 4 = 0 <;> by_cases hg : g.cs % 4 = 0 <;> simp [hf, hg] at hlen ⊢

theorem frameWords_take (h : pushedWords f = pushedWords g) : (frameWords f).take 14 = (frameWords g).take 14 := by
  have hiff := pushedWords_cs h
  unfold pushedWords at h
  by_cases hf : f.cs % 4 = 0
  · rwa [if_pos hf, if_pos (hiff.mp hf)] at h
  · rw [if_neg hf, if_neg (mt hiff.mpr hf)] at h
    rw [h]

theorem toSelector_congr {x y : ℕ} (h : BitVec.ofNat 32 x = BitVec.ofNat 32 y) : toSelector x = toSelector y := by
  rw [← toSelector_ofNat, h, toSelector_ofNat]

theorem rpl_toSelector (w : ℕ) : rpl (toSelector w) = w % 4 := by
  rw [rpl, toSelector, BitVec.toNat_ofNat]
  exact Nat.mod_mod_of_dvd w (by decide)

/-- The way back depends on nothing else. -/
theorem resumed_congr (hring : c.cpl = 0) (h : pushedWords f = pushedWords g) : resumed f c = resumed g c := by
  have htake := frameWords_take h
  simp only [frameWords, TrapFrame.words, List.map_cons, List.map_nil, List.take_succ_cons, List.take_zero, List.cons.injEq,
    and_true] at htake
  obtain ⟨hds, hedi, hesi, hebp, hskip, hebx, hedx, hecx, heax, hnum, herr, heip, hcs, hflags⟩ := htake
  have hsel := toSelector_congr hcs
  have hiff := pushedWords_cs h
  simp only [resumed, heax, hecx, hedx, hebx, hebp, hesi, hedi, heip, hflags, hsel, toSelector_congr hds, hring,
    rpl_toSelector]
  by_cases hg : g.cs % 4 = 0
  · simp only [hg, lt_irrefl, ↓reduceIte]
  · have hf : f.cs % 4 ≠ 0 := mt hiff.mp hg
    have hwords : frameWords f = frameWords g := by rwa [pushedWords, if_neg hf, pushedWords, if_neg hg] at h
    simp only [frameWords, TrapFrame.words, List.map_cons, List.map_nil, List.cons.injEq, and_true] at hwords
    obtain ⟨-, -, -, -, -, -, -, -, -, -, -, -, -, -, hesp, hss⟩ := hwords
    simp only [hesp, toSelector_congr hss]

theorem pushedWords_ring (h : pushedWords f = pushedWords g) : f.cs % 4 = g.cs % 4 := by
  have htake := frameWords_take h
  simp only [frameWords, TrapFrame.words, List.map_cons, List.map_nil, List.take_succ_cons, List.take_zero, List.cons.injEq,
    and_true] at htake
  obtain ⟨-, -, -, -, -, -, -, -, -, -, -, -, hcs, -⟩ := htake
  rw [← rpl_toSelector, toSelector_congr hcs, rpl_toSelector]

theorem pushedWords_of_frameWords (h : frameWords f = frameWords g) : pushedWords f = pushedWords g := by
  have hcs : f.cs % 4 = g.cs % 4 := by
    simp only [frameWords, TrapFrame.words, List.map_cons, List.cons.injEq] at h
    obtain ⟨-, -, -, -, -, -, -, -, -, -, -, -, hcs, -⟩ := h
    rw [← rpl_toSelector, toSelector_congr hcs, rpl_toSelector]
  rw [pushedWords, pushedWords, h, hcs]

theorem words_take {m : Memory} {ws : List Word} (n : ℕ) (h : Words m a ws) : Words m a (ws.take n) := by
  rw [← List.take_append_drop n ws, words_append] at h
  exact h.1

theorem words_pushed (m : Memory) (a : ℕ) : Words m a (pushedWords (frameAt m a)) := by
  unfold pushedWords
  split
  · exact words_take 14 (words_frameAt m a)
  · exact words_frameAt m a

/-- What words stand in memory is determined by the memory. -/
theorem words_unique {m : Memory} {ws ws' : List Word} (h : Words m a ws) (h' : Words m a ws') (hlen : ws.length = ws'.length) :
    ws = ws' := by
  induction ws generalizing a ws' with
  | nil => exact (List.eq_nil_of_length_eq_zero hlen.symm).symm
  | cons w ws ih =>
    cases ws' with
    | nil => cases hlen
    | cons w' ws' =>
      have hw : w = w' := BitVec.eq_of_toNat_eq (h.1.symm.trans h'.1)
      rw [hw, ih h.2 h'.2 (Nat.succ.inj hlen)]

/-- A frame stays while its pushed part is left alone. -/
theorem pushedWords_frameAt
    (h : ∀ x, a ≤ x → x < a + 4 * (pushedWords (frameAt mem a)).length → mem' x = mem x) :
    pushedWords (frameAt mem' a) = pushedWords (frameAt mem a) := by
  have hcs : (frameAt mem' a).cs = (frameAt mem a).cs := by
    refine load32_congr fun x hx hx' => h x (by omega) ?_
    rw [length_pushedWords]
    split <;> omega
  refine words_unique (words_pushed mem' a) ((words_pushed mem a).congr h) ?_
  rw [length_pushedWords, length_pushedWords, hcs]

/-! ### Where the stacks are -/

theorem userspace_lasting : Lasting Task.isUserspace := ⟨fun _ _ _ _ _ => rfl, fun _ _ _ _ => rfl, fun _ _ => rfl⟩

/-- An operation leaves the ring of the tasks that stay. -/
theorem userspace_step (hk : Tended s kids order) (hop : KStep op s s') (ha : a ∈ s'.live) (ha' : a ∈ s.live) :
    (s'.task a).isUserspace = (s.task a).isUserspace := by
  by_cases htick : ∃ fuel, op = .tick fuel
  · obtain ⟨fuel, rfl⟩ := htick
    exact userspace_lasting.sameTick (fun _ _ => rfl) (toOption_eq_some.mp hop.run) a
  · have hkept : ∀ {q}, Enters Task.isUserspace (Task.Furnished q) s s' → (s'.task a).isUserspace = (s.task a).isUserspace :=
      fun ht => (ht a ha).elim (fun h => h.2) fun h => absurd ha' h.1
    exact (userspace_lasting.enters_step hk.current_mem hop fun fuel he => htick ⟨fuel, he⟩).elim hkept hkept

theorem stack_size (boot : ℕ) (s : KState) (a : ℕ) : stackBase boot s a + 8192 ≤ stackTop boot s a := by
  unfold stackBase stackTop
  split
  · simp only [bootStackSize]
    omega
  · simp only [kstackPages, pageSize]
    omega

/-- What is known of the tasks of a run -/
structure Settled (s : KState) : Prop where
  run : KRun (fun op s => op.OnCpu s) s
  pids : ∃ L, PidRun s L
  idle : (s.task initTask).isUserspace = false

theorem stackTop_eq (boot : ℕ) (s : KState) (ha : a ≠ initTask) : stackTop boot s a = stackBase boot s a + 8192 := by
  rw [stackTop, stackBase, if_neg ha, if_neg ha]
  rfl

namespace Settled

theorem of_boot (h : Boot s) : Settled s := by
  refine ⟨.start h, ⟨_, .boot h⟩, ?_⟩
  obtain ⟨junk, user, rfl⟩ := h
  rfl

theorem step (h : Settled s) (hcpu : op.OnCpu s) (hop : KStep op s s') : Settled s' := by
  obtain ⟨L, hL⟩ := h.pids
  obtain ⟨kids, order, hk⟩ := h.run.tended
  obtain ⟨kids', order', hk'⟩ := hk.step hcpu hop
  exact ⟨.next h.run ⟨op, hcpu, hop⟩, ⟨_, .step hL hop⟩, (userspace_step hk hop hk'.init hk.init).trans h.idle⟩

variable (h : Settled s)
include h

theorem current_live : s.currentTask ∈ s.live := by
  obtain ⟨kids, order, hk⟩ := h.run.tended
  exact hk.current_mem

theorem current_ne : s.currentTask ≠ kthreaddTask := by
  obtain ⟨kids, order, hk⟩ := h.run.tended
  exact ((hk.mem _).mp hk.current).2

theorem kstack_eq (ha : a ∈ s.live) (hinit : a ≠ initTask) (hkthreadd : a ≠ kthreaddTask) :
    (s.task a).kstack = kstackVa (s.task a).pid ∧ (s.task a).pid < maxProc := by
  obtain ⟨L, hL⟩ := h.pids
  exact ⟨(place_eq ((placed_run h.run).other a ha hinit hkthreadd)).2.1, hL.roster.pid_lt ha⟩

/-- The task that `task_fork` copies has a stack to copy. -/
theorem fork_stack (env : SpawnEnv) (hfork : (taskFork env { s with interruptFlag := false }).2.live ≠ s.live) :
    s.currentTask ≠ initTask := by
  intro hinit
  have hkstack : KState.current { s with interruptFlag := false } = s.task initTask := congrArg s.task hinit
  refine hfork ?_
  rw [Tasks.taskFork, hkstack, (place_eq (placed_run h.run).init).2.1, if_pos rfl]

/-- The stacks end well below the last address. -/
theorem stack_fits (himage : boot + bootStackSize ≤ kstackVaBase) (ha : a ∈ s.live) (hkthreadd : a ≠ kthreaddTask) :
    stackTop boot s a + 16 < wordSize := by
  simp only [kstackVaBase] at himage
  unfold stackTop
  split
  · simp only [wordSize]
    omega
  · rename_i hinit
    obtain ⟨hkstack, hpid⟩ := h.kstack_eq ha hinit hkthreadd
    simp only [maxProc] at hpid
    rw [hkstack]
    simp only [kstackVa, kstackVaBase, kstackPages, pageSize, wordSize]
    omega

/-- Different tasks have different stacks. -/
theorem stack_disjoint (himage : boot + bootStackSize ≤ kstackVaBase) (ha : a ∈ s.live) (hkthreadd : a ≠ kthreaddTask)
    (hb : b ∈ s.live) (hkthreadd' : b ≠ kthreaddTask) (hab : a ≠ b) :
    stackTop boot s a ≤ stackBase boot s b ∨ stackTop boot s b ≤ stackBase boot s a := by
  have hva : ∀ pid, kstackVaBase ≤ kstackVa pid := fun pid => Nat.le_add_right _ _
  unfold stackTop stackBase
  by_cases hinit : a = initTask
  · have hinit' : b ≠ initTask := fun he => hab (hinit.trans he.symm)
    rw [if_pos hinit, if_pos hinit, if_neg hinit', if_neg hinit', (h.kstack_eq hb hinit' hkthreadd').1]
    exact .inl (himage.trans (hva _))
  · rw [if_neg hinit, if_neg hinit, (h.kstack_eq ha hinit hkthreadd).1]
    by_cases hinit' : b = initTask
    · rw [if_pos hinit', if_pos hinit']
      exact .inr (himage.trans (hva _))
    · rw [if_neg hinit', if_neg hinit', (h.kstack_eq hb hinit' hkthreadd').1]
      obtain ⟨L, hL⟩ := h.pids
      have hpid : (s.task a).pid ≠ (s.task b).pid := fun he => hab (hL.roster.pid_inj ha hb he)
      simp only [kstackVa, kstackPages, pageSize]
      omega

/-- `tss.esp0` is the top of the stack of a user task on the CPU. -/
theorem esp0_eq (boot : ℕ) (huser : s.current.isUserspace = true) : s.esp0 = stackTop boot s s.currentTask := by
  have hinit : s.currentTask ≠ initTask := fun he => by
    rw [KState.current, he, h.idle] at huser
    cases huser
  obtain ⟨kids, order, hk⟩ := h.run.tended
  rw [hk.stack huser, stackTop, if_neg hinit]
  rfl

end Settled

/-- The stacks of the tasks that stay do not move. -/
theorem stack_step (boot : ℕ) (h : Settled s) (hop : KStep op s s') (ha : a ∈ s'.live) (ha' : a ∈ s.live) :
    stackBase boot s' a = stackBase boot s a ∧ stackTop boot s' a = stackTop boot s a := by
  obtain ⟨kids, order, hk⟩ := h.run.tended
  have hkstack : (s'.task a).kstack = (s.task a).kstack := (place_eq (place_step hk hop ha ha')).2.1
  unfold stackBase stackTop
  rw [hkstack]
  exact ⟨rfl, rfl⟩

/-! ### The ring of a new task -/

section Rings
variable {p r : ℕ} {u : KState} {env : SpawnEnv} {parent : Option ℕ} {size : ℕ}

theorem enters_userspace {P : Bool → Prop} (h : Blank b r s u) (hb : b ∉ s.live) (hnew : P (u.task b).isUserspace) :
    Enters Task.isUserspace (fun x => P x.isUserspace) s (linkTask b (taskAddChild p b u)) := by
  have hadd : LinksOnly u (taskAddChild p b u) := linksOnly_addChild
  have hlinked : SameField Task.isUserspace u (linkTask b (taskAddChild p b u)) :=
    fun x => (linkTask_field _ fun _ _ => rfl).trans (userspace_lasting.sameLinks hadd x)
  have hlive : (linkTask b (taskAddChild p b u)).live = insert b s.live := by
    rw [linkTask, hadd.rest, h.rest]
    rfl
  intro x hx
  rw [hlive] at hx
  by_cases hxb : x = b
  · rw [hxb]
    exact .inr ⟨hb, (congrArg P (hlinked b)).mpr hnew⟩
  · rw [hlinked, h.task x hxb]
    exact .inl ⟨(Finset.mem_insert.mp hx).resolve_left hxb, rfl⟩

theorem started_userspace (h : Blank b r s u) (hb : b ∉ s.live) (hnew : (u.task b).isUserspace = true) :
    Enters Task.isUserspace (fun x => x.isUserspace = true) s
      ((linkTask b (taskAddChild p b u)).modify b fun x => { x with state := .runnable }) := by
  rw [h.born]
  exact enters_userspace (P := fun x => x = true) h hb hnew

/-- The programs for Ring 3 run there. -/
theorem userspace_spawnUser (pid size : ℕ) (parent : Option ℕ) (hfresh : env.Fresh s) :
    Enters Task.isUserspace (fun x => x.isUserspace = true) s (spawnUser env pid size parent s).2 := by
  unfold spawnUser
  split
  · exact (Beside.refl _ s).enters hfresh
  split
  · exact (Beside.refl _ s).enters hfresh
  split
  · exact (Beside.refl _ s).enters hfresh
  · rename_i c hc
    split
    · rename_i v heq
      have hblank : Blank c pid s v := allocKstack_eq heq
      exact (hblank.beside hfresh hc ⟨v.trace, rfl⟩).enters hfresh
    · rename_i v heq
      have hblank : Blank c pid s v := allocKstack_eq heq
      split
      · refine Beside.enters (hblank.beside hfresh hc ?_) hfresh
        exact (traceOnly_freeKstack _ _ v).trans (traceOnly_call _ _)
      · refine started_userspace (hblank.modify rfl rfl rfl) (hfresh c hc) ?_
        rw [v.modify_task_self]

theorem userspace_execUserFn (hfresh : env.Fresh s) :
    Enters Task.isUserspace (fun x => x.isUserspace = true) s (execUserFn env size parent s) := by
  unfold Tasks.execUserFn
  split
  · rename_i heq
    obtain ⟨-, rfl⟩ := pidAlloc_eq_none heq
    exact (Beside.refl _ _).enters hfresh
  · rename_i pid u heq
    obtain ⟨-, rfl, rfl⟩ := pidAlloc_eq_some heq
    have hspawn : Enters Task.isUserspace (fun x => x.isUserspace = true) s
        (spawnUser env (s.taskCounter + 1) size parent s.claimPid).2 :=
      userspace_spawnUser (s := s.claimPid) _ size parent hfresh
    generalize spawnUser env (s.taskCounter + 1) size parent s.claimPid = r at hspawn ⊢
    obtain ⟨o, w⟩ := r
    cases o <;> exact hspawn

/-- A child runs in the ring of its parent. -/
theorem userspace_taskFork (hfresh : env.Fresh s) (hcur : s.currentTask ∈ s.live) :
    Enters Task.isUserspace (fun x => x.isUserspace = s.current.isUserspace) s (taskFork env s).2 := by
  unfold Tasks.taskFork
  split
  · exact (Beside.refl _ s).enters hfresh
  split
  · rename_i heq
    obtain ⟨-, rfl⟩ := pidAlloc_eq_none heq
    exact (Beside.refl _ _).enters hfresh
  · rename_i pid u heq
    obtain ⟨-, rfl, rfl⟩ := pidAlloc_eq_some heq
    split
    · exact (Beside.refl _ _).pidRelease.enters hfresh
    · rename_i c hc
      split
      · rename_i v heq'
        have hblank : Blank c _ s.claimPid v := allocKstack_eq heq'
        have hbeside : Beside env.kmalloc s.claimPid (freeTask c v) := hblank.beside hfresh hc ⟨v.trace, rfl⟩
        exact hbeside.pidRelease.enters hfresh
      · rename_i v heq'
        have hblank : Blank c _ s.claimPid v := allocKstack_eq heq'
        split
        · refine Beside.enters (Beside.pidRelease ?_) hfresh
          exact hblank.beside hfresh hc (traceOnly_freeKstack _ _ v)
        · have hvcur : v.currentTask = s.currentTask := by
            rw [hblank.rest]
            rfl
          have hcurrent : v.current = s.current := by
            rw [KState.current, hvcur]
            exact hblank.task _ fun he => hfresh c hc (he ▸ hcur)
          rw [← hcurrent]
          refine enters_userspace (P := fun x => x = v.current.isUserspace) (s := s.claimPid)
            (hblank.modify hblank.state.symm rfl rfl) (hfresh c hc) ?_
          rw [v.modify_task_self]

end Rings

end HekaOS.Traps
