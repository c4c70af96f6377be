import HekaOS.KernelFrames

/-!
# What a system call records

The events of a run in terms of its input: the calls that change shared data are made under
the interrupt flag of their caller, `sys_read` and `sys_write` access what they have checked,
and a call of `sys_wait` records nothing before it finds a zombie (`Found`).
-/

namespace HekaOS.Tasks
open MachineWord KernelMemory PointerChain

variable {P Q : Event → Prop} {s t u : KState} {a c p z fuel n k code : ℕ} {f : Task → Task}

/-- The run to `t` has recorded events that satisfy `P`, and has kept the interrupt flag. -/
structure Logs (P : Event → Prop) (s t : KState) : Prop where
  flag : t.interruptFlag = s.interruptFlag
  events : ∃ l, t.trace = s.trace ++ l ∧ ∀ e ∈ l, P e

/-- A call with the given interrupt flag. -/
def Event.CallUnder (flag : Bool) : Event → Prop
  | .call _ g => g = flag
  | .access _ _ => False

theorem Logs.of_eq (h₁ : t.interruptFlag = s.interruptFlag) (h₂ : t.trace = s.trace) : Logs P s t :=
  ⟨h₁, [], by simp [h₂], nofun⟩

theorem Logs.refl (s : KState) : Logs P s s := .of_eq rfl rfl

theorem Logs.trans (h₁ : Logs P s t) (h₂ : Logs P t u) : Logs P s u := by
  obtain ⟨l, hl, hPl⟩ := h₁.events
  obtain ⟨m, hm, hPm⟩ := h₂.events
  refine ⟨h₂.flag.trans h₁.flag, l ++ m, by rw [hm, hl, List.append_assoc], fun e he => ?_⟩
  rcases List.mem_append.mp he with he | he
  · exact hPl e he
  · exact hPm e he

theorem logs_call (s : KState) (c : KCall) : Logs (Event.CallUnder s.interruptFlag) s (s.call c) := by
  refine ⟨rfl, [.call c s.interruptFlag], rfl, fun e he => ?_⟩
  obtain rfl := List.mem_singleton.mp he
  rfl

/-- A further call under the same flag. -/
theorem Logs.call (h : Logs (Event.CallUnder s.interruptFlag) s t) (c : KCall) :
    Logs (Event.CallUnder s.interruptFlag) s (t.call c) := by
  have hc := logs_call t c
  rw [h.flag] at hc
  exact h.trans hc

theorem LinksOnly.logs (h : LinksOnly s t) : Logs P s t := .of_eq (by rw [h.rest]) (by rw [h.rest])

theorem logs_notifyParent : Logs P s (notifyParent a s) := by
  unfold notifyParent
  split
  · exact .of_eq rfl rfl
  · exact .refl s

theorem logs_beginExit : Logs P s (beginExit a code s) := by
  dsimp only [beginExit]
  split <;> exact .of_eq rfl rfl

theorem logs_doExit (h : doExit fuel a code s = .ok t) : Logs P s t := by
  obtain ⟨u, hu, h⟩ := bind_eq_ok.mp h
  obtain rfl := Except.ok.inj h
  have hmark : Logs P u (u.modify a fun x => { x with state := .zombie }) := .of_eq rfl rfl
  exact (logs_beginExit.trans (linksOnly_orphan hu).logs).trans (hmark.trans logs_notifyParent)

theorem logs_dispatch (h : kernelSignalDispatch fuel a s = .ok t) : Logs P s t := by
  rw [kernelSignalDispatch_eq, dispatched] at h
  have hset : Logs P s (s.set a (s.task a).drained.1) := .of_eq rfl rfl
  split at h
  · obtain rfl := Except.ok.inj h
    exact hset
  · exact hset.trans (logs_doExit h)

theorem logs_freeKstack (base n : ℕ) (s : KState) :
    Logs (Event.CallUnder s.interruptFlag) s (freeKstack base n s) := by
  unfold freeKstack
  induction n with
  | zero => exact .refl s
  | succ n ih =>
    rw [List.range_succ, List.foldl_append]
    exact ih.call _

/-- The calls made when the allocation of a kernel stack fails. -/
theorem logs_allocKstack (env : SpawnEnv) (pid : ℕ) (s : KState) :
    Logs (Event.CallUnder s.interruptFlag) s (allocKstack env pid s).2 := by
  unfold allocKstack
  split
  · exact .refl s
  · exact logs_freeKstack _ _ s

theorem logs_taskReap (h : taskReap fuel z s = .ok t) : Logs (Event.CallUnder s.interruptFlag) s t := by
  obtain ⟨u, hu, h⟩ := bind_eq_ok.mp h
  obtain ⟨v, hv, h⟩ := bind_eq_ok.mp h
  obtain rfl := Except.ok.inj h
  have hdetach : Logs (Event.CallUnder s.interruptFlag) s u := (linksOnly_detach hu).logs
  have hunlink : Logs (Event.CallUnder s.interruptFlag) s v := by
    refine hdetach.trans (.of_eq ?_ ?_) <;> rw [unlinkTask_rest hv]
  have hflag := hunlink.flag
  refine hunlink.trans ?_
  rw [← hflag]
  have hite : ∀ {b : Prop} [Decidable b] {w x : KState}, Logs (Event.CallUnder v.interruptFlag) v w →
      Logs (Event.CallUnder v.interruptFlag) v x → Logs (Event.CallUnder v.interruptFlag) v (if b then w else x) := by
    intro b _ w x hw hx
    split
    · exact hw
    · exact hx
  have hkstack : Logs (Event.CallUnder v.interruptFlag) v
      (if (v.task z).kstack ≠ 0 then freeKstack (v.task z).kstack kstackPages v else v) :=
    hite (logs_freeKstack _ _ v) (.refl v)
  have hlog := hite (b := (v.task z).logBuf.isSome) (hkstack.call .kmemFree) hkstack
  have hin := hite (b := (v.task z).inBuf.isSome) (hlog.call .kmemFree) hlog
  exact (((hin.call _).call _)).trans (.of_eq rfl rfl)

theorem logs_pidAlloc (s : KState) : Logs P s (pidAlloc s).2 := by
  unfold pidAlloc
  split <;> exact .of_eq rfl rfl

theorem logs_taskFork (env : SpawnEnv) (s : KState) :
    Logs (Event.CallUnder s.interruptFlag) s (taskFork env s).2 := by
  unfold taskFork
  split
  · exact .refl s
  have hpid : Logs (Event.CallUnder s.interruptFlag) s (pidAlloc s).2 := logs_pidAlloc s
  split
  · rename_i u hu
    rw [hu] at hpid
    exact hpid
  · rename_i pid u hu
    rw [hu] at hpid
    change Logs _ s u at hpid
    have hrelease : ∀ v, Logs (Event.CallUnder s.interruptFlag) s v →
        Logs (Event.CallUnder s.interruptFlag) s (pidRelease v) := fun v hv => hv.trans (.of_eq rfl rfl)
    split
    · exact hrelease u hpid
    · rename_i c hc
      have hstack : Logs (Event.CallUnder s.interruptFlag) s (allocKstack env pid (allocTask c pid u)).2 := by
        have halloc : Logs (Event.CallUnder s.interruptFlag) s (allocTask c pid u) :=
          hpid.trans (.of_eq rfl rfl)
        have hloop := logs_allocKstack env pid (allocTask c pid u)
        rw [halloc.flag] at hloop
        exact halloc.trans hloop
      have hfree : ∀ v, Logs (Event.CallUnder s.interruptFlag) s v →
          Logs (Event.CallUnder s.interruptFlag) s (freeTask c v) :=
        fun v hv => (hv.call _).trans (.of_eq rfl rfl)
      split
      · rename_i v hv
        rw [hv] at hstack
        exact hrelease _ (hfree v hstack)
      · rename_i v hv
        rw [hv] at hstack
        change Logs _ s v at hstack
        split
        · have hpages := logs_freeKstack (kstackVa pid) kstackPages v
          rw [hstack.flag] at hpages
          exact hrelease _ (hfree _ (hstack.trans hpages))
        · exact hstack.trans (.of_eq rfl rfl)

theorem logs_sysKill {env : SysEnv} {pid signum : ℕ} : Logs P s (sysKill env pid signum s).2 := by
  unfold sysKill
  split
  · exact .refl s
  split
  · exact .refl s
  · exact .refl s
  · rename_i target _
    dsimp only
    split
    · exact .refl s
    split
    · exact .refl s
    have hsend : Logs P s (kernelSignalSend target signum s) := .of_eq rfl rfl
    split
    · unfold finish
      split
      · rename_i u hu
        exact hsend.trans (logs_dispatch hu)
      · exact hsend
    · exact hsend

/-- An access to the memory of user programs. -/
def Event.InUser : Event → Prop
  | .call _ _ => False
  | .access addr len => ∀ i < len, userCodeBase ≤ (addr + i) % wordSize ∧ (addr + i) % wordSize < kernelVirtBase

/-- The range check is exact, also where the sum wraps. -/
theorem userRangeOk_iff {addr count : ℕ} (ha : addr < wordSize) (hc : count < wordSize) :
    userRangeOk addr count = true ↔ userCodeBase ≤ addr ∧ addr + count ≤ kernelVirtBase := by
  have hsum : add32 addr count = (addr + count) % 2 ^ 32 := rfl
  simp only [wordSize, userCodeBase, kernelVirtBase] at *
  dsimp only [userRangeOk]
  split
  · simp only [Bool.false_eq_true, false_iff]
    omega
  · rw [decide_eq_true_eq]
    simp only [userCodeBase, kernelVirtBase]
    omega

theorem inUser_iff {addr len : ℕ} (ha : addr < wordSize) (hl : 0 < len) (hl' : len < wordSize) :
    (Event.access addr len).InUser ↔ userRangeOk addr len = true := by
  rw [userRangeOk_iff ha hl']
  simp only [Event.InUser, wordSize, userCodeBase, kernelVirtBase] at *
  constructor
  · intro h
    have hfirst := h 0 hl
    have hlast := h (0xC0000000 - addr)
    omega
  · intro h i hi
    omega

theorem logs_access {addr len : ℕ} (h : P (.access addr len)) : Logs P s (s.access addr len) := by
  refine ⟨rfl, [.access addr len], rfl, fun e he => ?_⟩
  obtain rfl := List.mem_singleton.mp he
  exact h

/-- A byte of a checked range. -/
theorem inUser_byte {buf count i : ℕ} (hb : buf < wordSize) (hc : count < wordSize)
    (hok : userRangeOk buf count = true) (hi : i < count) : (Event.access (add32 buf i) 1).InUser := by
  have hrange := (userRangeOk_iff hb hc).mp hok
  intro j hj
  simp only [add32, wordSize, userCodeBase, kernelVirtBase] at *
  omega

theorem logs_inputRead {dst left : ℕ} (h : ∀ i, i < n + left → P (.access (add32 dst i) 1)) :
    Logs P s (taskInputRead a dst left n s).2 := by
  induction left generalizing n s with
  | zero => exact .refl s
  | succ left ih =>
    rw [taskInputRead]
    split
    · exact .refl s
    · dsimp only
      split
      · exact .refl s
      · have hbyte : P (.access (add32 dst n) 1) := h n (by omega)
        refine Logs.trans ?_ (ih (n := n + 1) fun i hi => h i (by omega))
        exact (logs_access hbyte).trans (.of_eq rfl rfl)

theorem logs_sysRead {fd buf count : ℕ}
    (h : userRangeOk buf count = true → ∀ i < count, P (.access (add32 buf i) 1)) :
    Logs P s (sysRead fd buf count s).2 := by
  unfold sysRead
  split
  · exact .refl s
  split
  · exact .refl s
  · rename_i hok
    have hok' : userRangeOk buf count = true := by simpa using hok
    exact logs_inputRead fun i hi => h hok' i (by omega)

theorem logs_logPutchar {env : SysEnv} : Logs P s (taskLogPutchar env a c s) := by
  unfold taskLogPutchar
  split <;> exact .of_eq rfl rfl

theorem logs_sysWrite {env : SysEnv} {fd buf count : ℕ}
    (h : userRangeOk buf count = true → ∀ i < count, P (.access (add32 buf i) 1)) :
    Logs P s (sysWrite env fd buf count s).2 := by
  unfold sysWrite
  split
  · exact .refl s
  split
  · exact .refl s
  · rename_i hok
    have hok' : userRangeOk buf count = true := by simpa using hok
    suffices hfold : ∀ (l : List ℕ) (v : KState), (∀ i ∈ l, i < count) → Logs P v (l.foldl (fun s i =>
        let a := add32 buf i
        taskLogPutchar env s.currentTask (s.user a % 256) (s.access a 1)) v) from
      hfold _ s fun i hi => List.mem_range.mp hi
    intro l
    induction l with
    | nil => exact fun v _ => .refl v
    | cons i l ih =>
      intro v hl
      have hbyte := logs_access (s := v) (h hok' i (hl i List.mem_cons_self))
      exact (hbyte.trans logs_logPutchar).trans (ih _ fun j hj => hl j (List.mem_cons_of_mem i hj))

/-- One of the next `n` rounds of `sys_wait` finds a zombie. -/
def Found (env : SysEnv) : ℕ → ℕ → KState → Prop
  | 0, _, _ => False
  | n + 1, k, s =>
    match findZombie env.fuel s with
    | none => False
    | some (some _) => True
    | some none => Found env n (k + 1) (haltUntilWoken env k (blockCurrent s))

/-- The loop of `sys_wait` records nothing up to the round that finds a zombie, and that round
has interrupts enabled unless it is the first. -/
theorem waitLoop_found {env : SysEnv} (wstatus : ℕ) (h : Found env n k s) :
    ∃ z u, waitLoop env wstatus n k s = collectZombie env.fuel wstatus z u ∧ u.trace = s.trace ∧
      (findZombie env.fuel s = some none → u.interruptFlag = true) ∧
      (findZombie env.fuel s ≠ some none → u = s) := by
  induction n generalizing k s with
  | zero => exact h.elim
  | succ n ih =>
    rw [Found] at h
    rw [waitLoop]
    cases hf : findZombie env.fuel s with
    | none =>
      rw [hf] at h
      exact h.elim
    | some r =>
      cases r with
      | some z => exact ⟨z, s, rfl, rfl, nofun, fun _ => rfl⟩
      | none =>
        rw [hf] at h
        obtain ⟨z, u, hu, htrace, hlater, hnow⟩ := ih h
        refine ⟨z, u, hu, htrace, fun _ => ?_, fun hne => absurd rfl hne⟩
        by_cases hscan : findZombie env.fuel (haltUntilWoken env k (blockCurrent s)) = some none
        · exact hlater hscan
        · rw [hnow hscan]
          rfl

theorem waitLoop_not_found {env : SysEnv} {wstatus : ℕ} (h : ¬Found env n k s) :
    (waitLoop env wstatus n k s).2.trace = s.trace := by
  induction n generalizing k s with
  | zero => rfl
  | succ n ih =>
    rw [Found] at h
    rw [waitLoop]
    cases hf : findZombie env.fuel s with
    | none => rfl
    | some r =>
      cases r with
      | some z =>
        rw [hf] at h
        exact absurd trivial h
      | none =>
        rw [hf] at h
        exact ih h

/-- A zombie that was found is reported through the user's pointer and reaped. -/
theorem collectZombie_trace (fuel wstatus z : ℕ) (s : KState) :
    ∃ l, (collectZombie fuel wstatus z s).2.trace =
      s.trace ++ ((if wstatus ≠ 0 then [.access wstatus 4] else []) ++ .call (.taskReap z) s.interruptFlag :: l) ∧
      ∀ e ∈ l, Event.CallUnder s.interruptFlag e := by
  simp only [collectZombie]
  generalize hu : (if wstatus ≠ 0 then
    s.writeUser wstatus (ByteMemory.wordBytes (s.task z).exitCode) else s) = u
  have hflag : u.interruptFlag = s.interruptFlag := by
    rw [← hu]
    split <;> rfl
  have htrace : u.trace = s.trace ++ if wstatus ≠ 0 then [.access wstatus 4] else [] := by
    rw [← hu]
    split
    · rfl
    · rw [List.append_nil]
  cases hr : taskReap fuel z (u.call (.taskReap z)) with
  | error e =>
    refine ⟨[], ?_, nofun⟩
    change u.trace ++ [.call (.taskReap z) u.interruptFlag] = _
    rw [htrace, hflag, List.append_assoc]
  | ok t =>
    obtain ⟨l, hl, hcalls⟩ := (logs_taskReap hr).events
    refine ⟨l, ?_, fun e he => hflag ▸ hcalls e he⟩
    change t.trace = _
    rw [hl]
    change u.trace ++ [.call (.taskReap z) u.interruptFlag] ++ l = _
    rw [htrace, hflag]
    simp only [List.append_assoc, List.cons_append, List.nil_append]

end HekaOS.Tasks
