import HekaOS.HaltedReturn
import HekaOS.QuantumAccounting

/-!
# Faults of user tasks

`isr_handler` sends a user task that faults the signal of the exception and parks it. The task ends
when `schedule` acts on its signals, which is up to its own handlers as for any other signal.
-/

namespace HekaOS.Tasks
open KernelMemory PointerChain

variable {s t u v : KState} {kids : ℕ → List ℕ} {order : List ℕ} {x : Task} {a k fuel signum vector : ℕ} {l : List ℕ}

def signalFromException : ℕ → ℕ
  | 0 => sigfpe
  | 1 => sigtrap
  | 3 => sigtrap
  | 4 => sigsegv
  | 5 => sigsegv
  | 6 => sigill
  | 8 => sigabrt
  | 10 => sigsegv
  | 11 => sigbus
  | 12 => sigbus
  | 13 => sigsegv
  | 14 => sigsegv
  | 16 => sigfpe
  | 17 => sigbus
  | 19 => sigfpe
  | _ => 0

/-- The cases of `isr_handler` for exceptions: whether a fault in Ring 3 only ends the task, and the panic. -/
def exceptionCase : ℕ → Bool × String
  | 0 => (true, "division by zero")
  | 1 => (false, "debugger exception")
  | 2 => (false, "non-maskable interrupt")
  | 3 => (false, "breakpoint")
  | 4 => (true, "overflow")
  | 5 => (true, "bound range exceeded")
  | 6 => (true, "invalid opcode")
  | 7 => (false, "coprocessor not available")
  | 8 => (false, "double fault")
  | 9 => (false, "coprocessor segment overrun")
  | 10 => (true, "invalid task state segment")
  | 11 => (true, "segment not present")
  | 12 => (true, "stack fault")
  | 13 => (true, "general protection fault")
  | 14 => (true, "page fault")
  | 15 => (false, "reserved exception (0x0f)")
  | 16 => (true, "x87 math fault")
  | 17 => (true, "alignment check")
  | 18 => (false, "machine check")
  | 19 => (true, "simd floating-point exception")
  | _ => (false, "unhandled exception")

/-- `cpu_park_dying` enables interrupts and halts. -/
def killUserOnFault (frame : TrapFrame) (s : KState) : KState :=
  { kernelSignalSend s.currentTask (signalFromException frame.intNo) s with interruptFlag := true }

/-- `isr_handler` for an exception. -/
def isrException (frame : TrapFrame) (s : KState) : Kernel KState :=
  if (exceptionCase frame.intNo).1 ∧ frame.cs &&& 3 = 3 then .ok (killUserOnFault frame s)
  else kpanic (exceptionCase frame.intNo).2

/-- A fault sends a signal that ends the task by default, and no other can undo. -/
theorem exceptionCase_signal (h : (exceptionCase vector).1 = true) :
    terminates (signalFromException vector) = true ∧ signalFromException vector ≠ sigkill := by
  unfold exceptionCase at h
  split at h <;> first | decide | exact absurd h Bool.false_ne_true

theorem terminates_bounds (h : terminates signum = true) : 0 < signum ∧ signum < sigstop := by
  have hmem : signum ∈ [sighup, sigint, sigquit, sigill, sigabrt, sigbus, sigfpe, sigkill, sigsegv, sigpipe, sigalrm,
      sigterm] := by simpa [terminates] using h
  have hall : ∀ k ∈ [sighup, sigint, sigquit, sigill, sigabrt, sigbus, sigfpe, sigkill, sigsegv, sigpipe, sigalrm,
      sigterm], 0 < k ∧ k < sigstop := by decide
  exact hall signum hmem

/-- The signals that end a task come before those that stop it. -/
theorem takesFrom_terminating (hl : l.Pairwise (· < ·)) :
    (∃ e ∈ x.takesFrom l, e.2 = .dflt ∧ terminates e.1 = true) ↔
      ∃ k ∈ l, x.action k = some .dflt ∧ terminates k = true := by
  induction l with
  | nil => simp [takesFrom_nil]
  | cons signum l ih =>
    obtain ⟨hfirst, hrest⟩ := List.pairwise_cons.mp hl
    have ih := ih hrest
    rw [List.exists_mem_cons_iff]
    cases hact : x.action signum with
    | none =>
      rw [takesFrom_user hact, ih]
      simp
    | some act =>
      rw [takesFrom_taken hact, List.exists_mem_cons_iff]
      cases hends : endsWith (signum, act) with
      | false =>
        rw [if_neg Bool.false_ne_true, ih]
        simp
      | true =>
        rw [if_pos rfl]
        obtain ⟨rfl, hkind⟩ : act = .dflt ∧ (terminates signum = true ∨ stops signum = true) := by
          simpa [endsWith] using hends
        by_cases hterm : terminates signum = true
        · simp [hterm]
        · -- whatever is behind a stopping signal does not end the task
          have hstop := stops_iff.mp (hkind.resolve_left hterm)
          have hbehind : ¬∃ k ∈ l, x.action k = some .dflt ∧ terminates k = true := by
            rintro ⟨k, hk, -, hkterm⟩
            have hlt := (terminates_bounds hkterm).2
            have hgt := hfirst k hk
            simp only [sigstop, sigtstp] at *
            omega
          simp [hterm, hbehind]

theorem action_dflt_iff (hk : terminates k = true) :
    x.action k = some .dflt ↔ k = sigkill ∨ x.signalHandlers k = sigDfl := by
  have hstop : k ≠ sigstop := fun he => absurd (terminates_bounds hk).2 (he ▸ lt_irrefl _)
  have hdfl : sigIgn ≠ sigDfl := by decide
  unfold Task.action
  split_ifs <;> simp_all

/-- A dispatch ends a task that has a pending signal which does so by default. -/
theorem dies_iff (hw : WithinNsig x.pendingSignals) (hz : x.state ≠ .zombie) (hs : x.state ≠ .stopped) : x.Dies ↔
    ∃ k, terminates k = true ∧ x.pending k = true ∧ (k = sigkill ∨ x.signalHandlers k = sigDfl) := by
  rw [Task.Dies, (drained_takes hw hz hs).dies, Task.takes, takesFrom_terminating (signalsOf_pairwise _)]
  refine exists_congr fun k => ?_
  constructor
  · rintro ⟨hk, hact, hterm⟩
    exact ⟨hterm, (mem_signalsOf.mp hk).2.2, (action_dflt_iff hterm).mp hact⟩
  · rintro ⟨hterm, hpending, hact⟩
    obtain ⟨h₀, hlt⟩ := terminates_bounds hterm
    exact ⟨mem_signalsOf.mpr ⟨h₀, hlt.trans (by decide), hpending⟩, (action_dflt_iff hterm).mpr hact, hterm⟩

theorem reschedule_zombie (hs : s.needResched = false) (h : reschedule fuel s = .ok t) (a : ℕ) :
    (t.task a).state = .zombie ↔ (s.task a).state = .zombie := by
  have hswitched := switched_reschedule (.refl False s) hs h
  have hplaced := (hswitched.calm.task a).zombie
  have htask : (contextSwitch t).task = t.task := contextSwitch_task t
  change ((contextSwitch t).task a).state = .zombie ↔ _ at hplaced
  rwa [htask] at hplaced

/-- `schedule` makes a zombie only when it acts on the signals of the current task. -/
theorem schedule_zombie (hs : s.needResched = false) (h : schedule fuel s = .ok t) :
    ∃ v, drainCurrent fuel s = .ok v ∧ ∀ a, (t.task a).state = .zombie ↔ (v.task a).state = .zombie := by
  obtain ⟨v, hv, h⟩ := bind_eq_ok.mp h
  have hsettled : v.needResched = false := by
    rcases drainCurrent_cases hv with hcalm | ⟨-, hexits⟩
    · exact hcalm.rest.needResched.trans hs
    · exact hexits.globals.needResched.trans hs
  have hspent : ∀ a, ((spendTick v).task a).state = (v.task a).state := fun a => v.modify_field _ a _ Task.state rfl
  refine ⟨v, hv, fun a => ?_⟩
  split at h
  · exact reschedule_zombie hsettled h a
  split at h
  · obtain rfl := Except.ok.inj h
    rw [hspent]
  · rw [reschedule_zombie (s := spendTick v) hsettled h a, hspent]

/-- Once the current task has become a zombie, `schedule` returns. -/
theorem schedule_returns (hl : Chain v.next v.taskListHead order) (hcur : v.currentTask ∈ order)
    (hz : v.current.state = .zombie) (hv : drainCurrent fuel s = .ok v) (hfuel : order.length < fuel) :
    ∃ t, schedule fuel s = .ok t := by
  obtain ⟨t, ht, -⟩ := reschedule_turn hl hcur hfuel
  have hidle : v.current.state ≠ .running := by
    rw [hz]
    exact TaskState.noConfusion
  exact ⟨t, bind_eq_ok.mpr ⟨v, hv, (if_pos hidle).trans ht⟩⟩

/-- A fault ends the task: it has ended before, or it is not stopped, a signal is pending that ends it by default or
the exception sends one, and it can hand over its children. -/
def KState.FaultEnds (vector : ℕ) (s : KState) : Prop :=
  s.current.state = .zombie ∨ s.current.state ≠ .stopped ∧
    (∃ k, terminates k = true ∧ (k = signalFromException vector ∨ s.current.pending k = true) ∧
      (k = sigkill ∨ s.current.signalHandlers k = sigDfl)) ∧
    ¬(s.currentTask = s.reaper ∧ s.current.children ≠ none)

/-- The struct of a task behind the signal of an exception. -/
theorem faulted_struct (hvector : (exceptionCase vector).1 = true)
    (hy : x = s.current.signalSend (signalFromException vector)) :
    (x.state = .zombie ↔ s.current.state = .zombie) ∧ (x.state = .stopped ↔ s.current.state = .stopped) ∧
      x.signalHandlers = s.current.signalHandlers ∧
      ∀ k, terminates k = true →
        (x.pending k = true ↔ k = signalFromException vector ∨ s.current.pending k = true) := by
  obtain ⟨hterm, hkill⟩ := exceptionCase_signal hvector
  obtain ⟨h₀, hlt⟩ := terminates_bounds hterm
  have hlt' : signalFromException vector < nsig := hlt.trans (by decide)
  have hcont : signalFromException vector ≠ sigcont := by
    intro he
    rw [he] at hterm
    exact absurd hterm (by decide)
  have hstop : stops (signalFromException vector) = false := by
    by_contra hn
    rw [not_terminates_of_stops (by simpa using hn)] at hterm
    exact Bool.false_ne_true hterm
  have hstate := signalSend_state_eq h₀ hlt' s.current
  simp only [hcont, hkill, or_self, and_false, or_false] at hstate
  rw [← hy] at hstate
  refine ⟨?_, ?_, ?_, fun k hk => ?_⟩
  · rw [hstate]
    split
    · rename_i hb
      simp [hb]
    · exact Iff.rfl
  · rw [hstate]
    split
    · rename_i hb
      simp [hb]
    · exact Iff.rfl
  · obtain ⟨pending, st, hsent⟩ := Task.signalSend_eq (signalFromException vector) s.current
    rw [hy, hsent]
  · obtain ⟨hk₀, hklt⟩ := terminates_bounds hk
    have hpending := signalSend_pending h₀ hlt' hk₀ (hklt.trans (by decide : sigstop < nsig)).le s.current
    rw [hy, hpending, discards, hstop, decide_eq_false hcont]
    simp

/-- The call of `schedule` behind a fault makes a zombie of a task that was none only if it lets it die. -/
theorem Tended.schedule_ends (h : Tended s kids order) (hrun : schedule fuel s = .ok t)
    (hz : (t.task s.currentTask).state = .zombie) (hlive : s.current.state ≠ .zombie) :
    s.current.state ≠ .stopped ∧ s.current.Dies ∧ ¬(s.currentTask = s.reaper ∧ s.current.children ≠ none) := by
  obtain ⟨v, hv, hzombie⟩ := schedule_zombie h.settled hrun
  have hend := (hzombie s.currentTask).mp hz
  rw [drainCurrent_eq, dispatched] at hv
  have hself : (s.set s.currentTask s.current.drained.1).task s.currentTask = s.current.drained.1 := s.modify_task_self _ _
  split at hv
  · obtain rfl := Except.ok.inj hv
    obtain ⟨pending, st, hfst, hst⟩ := drain_fst 32 s.current.pendingSignals s.current
    change s.current.drained.1 = _ at hfst
    rw [hself, hfst] at hend
    rcases hst with hst | ⟨hst, -⟩
    · exact absurd (hst.symm.trans hend) hlive
    · cases hst.symm.trans hend
  · rename_i signum hdies
    have hcalm : Calm False s (s.set s.currentTask s.current.drained.1) := calm_set_drained
    refine ⟨fun hstopped => ?_, ?_, ?_⟩
    · rw [drained_of_halted (.inl hstopped)] at hdies
      cases hdies
    · rw [Task.Dies, hdies]
      exact Option.some_ne_none signum
    · rintro ⟨hreaper, hc⟩
      have hchildren := (hcalm.task s.currentTask).children
      refine doExit_reaper hv ?_ ?_
      · rw [hchildren]
        exact hc
      · rw [hcalm.rest.reaper]
        exact hreaper.symm

/-- `schedule` ends the current task if that has a terminating signal and can hand over its children. -/
theorem Tended.schedule_kills (h : Tended s kids order) (hd : s.current.Dies)
    (hcond : ¬(s.currentTask = s.reaper ∧ s.current.children ≠ none))
    (hkids : (kids s.currentTask).length < fuel) (horder : order.length < fuel) :
    ∃ t, schedule fuel s = .ok t ∧ (t.task s.currentTask).state = .zombie := by
  obtain ⟨signum, hdies⟩ := Option.ne_none_iff_exists'.mp hd
  have hcalm : Calm False s (s.set s.currentTask s.current.drained.1) := calm_set_drained
  have hset := h.calm hcalm.calmLive
  have hcond' : ¬(s.currentTask = (s.set s.currentTask s.current.drained.1).reaper ∧
      ((s.set s.currentTask s.current.drained.1).task s.currentTask).children ≠ none) := by
    rw [hcalm.rest.reaper, (hcalm.task s.currentTask).children]
    exact hcond
  obtain ⟨v, hv⟩ : ∃ v, doExit fuel s.currentTask (128 + signum) (s.set s.currentTask s.current.drained.1) = .ok v :=
    hset.kin.exit_returns hset.current_mem hcond' hkids
  have hdrain : drainCurrent fuel s = .ok v := by
    rw [drainCurrent_eq, dispatched, hdies]
    exact hv
  have hexits := hset.exits (exits_doExit hv)
  have hcur : v.currentTask = s.currentTask := (exits_doExit hv).globals.currentTask
  have hz : v.current.state = .zombie := by
    rw [KState.current, hcur]
    exact doExit_state hv
  obtain ⟨t, ht⟩ := schedule_returns hexits.list hexits.current hz hdrain horder
  refine ⟨t, ht, ?_⟩
  obtain ⟨w, hw, hzombie⟩ := schedule_zombie h.settled ht
  obtain rfl := Except.ok.inj (hw.symm.trans hdrain)
  exact (hzombie _).mpr (doExit_state hv)

/-- `schedule` leaves a zombie alone. -/
theorem Tended.schedule_spares (h : Tended s kids order) (hz : s.current.state = .zombie) (horder : order.length < fuel) :
    ∃ t, schedule fuel s = .ok t ∧ (t.task s.currentTask).state = .zombie := by
  have hdrain : drainCurrent fuel s = .ok s := by
    rw [drainCurrent_eq, drained_of_halted (.inr hz)]
    exact congrArg Except.ok (s.set_self s.currentTask)
  obtain ⟨t, ht⟩ := schedule_returns h.list h.current hz hdrain horder
  refine ⟨t, ht, ?_⟩
  obtain ⟨w, hw, hzombie⟩ := schedule_zombie h.settled ht
  obtain rfl := Except.ok.inj (hw.symm.trans hdrain)
  exact (hzombie _).mpr hz

/-- A fault in Ring 3 ends the task at the next `schedule` exactly if one of its signals does so by default. -/
theorem fault_terminates_iff (s : KState) (hs : KRun (fun op s => op.OnCpu s) s) (p : BitVec 32) (handlers : ℕ → ℕ)
    (frame : TrapFrame) (u : KState) (hw : WithinNsig p) (hu : isrException frame (s.withSignals p handlers) = .ok u) :
    (∃ n, ∀ fuel ≥ n, ∃ t, schedule fuel u = .ok t ∧ (t.task s.currentTask).state = .zombie) ↔
      (s.withSignals p handlers).FaultEnds frame.intNo := by
  obtain ⟨kids, order, h⟩ := hs.tended
  obtain ⟨v, hv⟩ : ∃ v, s.withSignals p handlers = v := ⟨_, rfl⟩
  have hcv : v.currentTask = s.currentTask := hv ▸ rfl
  have hwv : WithinNsig v.current.pendingSignals := by
    rw [← hv, KState.withSignals_current]
    exact hw
  have hquiet : Quiet s v := hv ▸ quiet_modify s s.currentTask _ rfl
  rw [hv] at hu ⊢
  rw [isrException] at hu
  split at hu
  rotate_left
  · cases hu
  rename_i hring
  have hu : killUserOnFault frame v = u := Except.ok.inj hu
  have hsend : Calm False v u := by
    have hsent : Calm False v (kernelSignalSend v.currentTask (signalFromException frame.intNo) v) := calm_send
    exact hu ▸ hsent.trans (calm_interruptFlag _ true)
  have hself : u.current = v.current.signalSend (signalFromException frame.intNo) := by
    rw [← hu]
    exact v.modify_task_self v.currentTask (Task.signalSend (signalFromException frame.intNo))
  have hut : Tended u kids order := h.calm (hquiet.calm.trans hsend).calmLive
  have hcu : u.currentTask = s.currentTask := hsend.rest.currentTask.trans hcv
  have hwu : WithinNsig u.current.pendingSignals := hself ▸ signalSend_within hwv
  obtain ⟨hzombie, hstopped, hhandlers, hpending⟩ := faulted_struct hring.1 hself
  have hheirs : (u.currentTask = u.reaper ∧ u.current.children ≠ none) ↔
      (v.currentTask = v.reaper ∧ v.current.children ≠ none) := by
    rw [KState.current, hsend.rest.currentTask, hsend.rest.reaper, (hsend.task v.currentTask).children]
    exact Iff.rfl
  have hdies : u.current.state ≠ .zombie → u.current.state ≠ .stopped → (u.current.Dies ↔
      ∃ k, terminates k = true ∧ (k = signalFromException frame.intNo ∨ v.current.pending k = true) ∧
        (k = sigkill ∨ v.current.signalHandlers k = sigDfl)) := by
    intro hz hst
    rw [dies_iff hwu hz hst, hhandlers]
    exact exists_congr fun k => and_congr_right fun hk => and_congr_left' (hpending k hk)
  have hgoes : u.current.state ≠ .stopped ↔ v.current.state ≠ .stopped := hstopped.not
  rw [KState.FaultEnds, ← hcu, ← hzombie, ← hgoes, ← hheirs]
  constructor
  · rintro ⟨n, hn⟩
    obtain ⟨t, ht, hz⟩ := hn n le_rfl
    by_cases hlive : u.current.state = .zombie
    · exact .inl hlive
    · obtain ⟨hst, hd, hcond⟩ := hut.schedule_ends ht hz hlive
      exact .inr ⟨hst, (hdies hlive hst).mp hd, hcond⟩
  · intro hends
    refine ⟨(kids u.currentTask).length + order.length + 1, fun fuel hfuel => ?_⟩
    by_cases hlive : u.current.state = .zombie
    · exact hut.schedule_spares hlive (by omega)
    · obtain ⟨hst, hex, hcond⟩ := hends.resolve_left hlive
      exact hut.schedule_kills ((hdies hlive hst).mpr hex) hcond (by omega) (by omega)

/-- A page fault in Ring 3. -/
def pageFault : TrapFrame := { userFrame 0 0 0 userStackTop with intNo := 14 }

/-- A task that ignores `SIGSEGV` is parked for ever. -/
theorem fault_terminates_fails : ¬∀ (s : KState), KRun (fun op s => op.OnCpu s) s → ∀ (p : BitVec 32)
    (handlers : ℕ → ℕ) (frame : TrapFrame) (u : KState), WithinNsig p →
    isrException frame (s.withSignals p handlers) = .ok u →
    ∃ n, ∀ fuel ≥ n, ∃ t, schedule fuel u = .ok t ∧ (t.task s.currentTask).state = .zombie := by
  intro h
  obtain ⟨n, hn⟩ := h userOnCpu (KRun.userOnCpu trivial trivial trivial trivial) 0 (fun _ => sigIgn) pageFault
    (killUserOnFault pageFault (userOnCpu.withSignals 0 fun _ => sigIgn)) (by decide +kernel)
    (if_pos (by decide +kernel))
  obtain ⟨t, ht, hz⟩ := hn n le_rfl
  obtain ⟨v, hv, hzombie⟩ := schedule_zombie (by decide +kernel) ht
  have hlives : (killUserOnFault pageFault (userOnCpu.withSignals 0 fun _ => sigIgn)).current.drained.2 = none := by
    decide +kernel
  rw [drainCurrent_eq, dispatched, hlives] at hv
  obtain rfl := Except.ok.inj hv
  have hrunning := (hzombie _).mp hz
  revert hrunning
  decide +kernel

/-- A task that handles `SIGINT` only ends. -/
theorem fault_terminates_user : ∃ n, ∀ fuel ≥ n, ∃ t,
    schedule fuel (killUserOnFault pageFault (interruptible (sigmask sigint))) = .ok t ∧
      (t.task userOnCpu.currentTask).state = .zombie := by
  refine (fault_terminates_iff userOnCpu (KRun.userOnCpu trivial trivial trivial trivial) (sigmask sigint)
    (fun signum => if signum = sigint then 0x8048100 else sigDfl) pageFault _ (by decide +kernel)
    (if_pos (by decide +kernel))).mpr (.inr ⟨by decide +kernel, ⟨sigsegv, by decide +kernel⟩, ?_⟩)
  rintro ⟨hreaper, -⟩
  revert hreaper
  decide +kernel

end HekaOS.Tasks
