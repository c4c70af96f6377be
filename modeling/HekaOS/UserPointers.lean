import HekaOS.SyscallTrace

/-!
# Interrupts and user pointers during a system call

Two properties of everything a run of `int 0x80` records: shared data is changed with
interrupts disabled, and user pointers lead to user memory. Both fail at `sys_wait`, which goes
on with interrupts enabled once it has blocked and does not check its pointer; the signal
frames are not checked either. The theorems say exactly for which inputs they hold.
-/

namespace HekaOS.Tasks
open MachineWord KernelMemory PointerChain

variable {P : Event → Prop} {s t : KState} {env : SysEnv} {frame : TrapFrame}

/-- The state in which a call starts, with nothing recorded yet. -/
def KState.entry (s : KState) : KState := { s with interruptFlag := false, trace := [] }

/-- What a run of a call records, the delivery of a signal included. -/
def recorded (env : SysEnv) (frame : TrapFrame) (s : KState) : List Event :=
  (int80 env frame s.entry).2.2.trace

/-- The call enters the loop of `sys_wait`. -/
def EntersWait (frame : TrapFrame) (s : KState) : Prop :=
  syscallTable frame.eax = some .waitpid ∧
    ¬(s.current.children = none ∧ some s.currentTask ≠ s.initProc)

theorem sysWait_of_enters (h : EntersWait frame s) :
    sysWait env frame.ebx s.entry = waitLoop env frame.ebx env.rounds 0 s.entry := if_neg h.2

/-- The handlers other than `sys_wait` and `sys_sigreturn` make calls with interrupts disabled
and access ranges they have checked. -/
theorem syscallDispatch_events (hwait : ¬EntersWait frame s) (hret : syscallTable frame.eax ≠ some .sigreturn)
    (hcall : ∀ e, Event.CallUnder false e → P e)
    (hbyte : userRangeOk frame.ecx frame.edx = true → ∀ i < frame.edx, P (.access (add32 frame.ecx i) 1)) :
    ∀ e ∈ (syscallDispatch env frame s.entry).2.2.trace, P e := by
  have hlogs : ∀ {Q : Event → Prop} {t : KState}, Logs Q s.entry t → (∀ e, Q e → P e) → ∀ e ∈ t.trace, P e := by
    rintro Q t ⟨-, l, hl, hQ⟩ h e he
    rw [hl] at he
    exact h e (hQ e he)
  have hsilent : ∀ e ∈ s.entry.trace, P e := nofun
  unfold syscallDispatch
  cases hn : syscallTable frame.eax with
  | none => exact hsilent
  | some n =>
    rw [setEax_state]
    cases n with
    | exit =>
      simp only [syscallHandler, sysExit]
      split
      · rename_i t ht
        have hexit : ∀ e ∈ t.trace, P e := hlogs (logs_doExit ht) fun _ => id
        exact hexit
      · exact hsilent
    | fork =>
      have hfork := hlogs (logs_taskFork env.spawn s.entry) hcall
      simp only [syscallHandler, sysFork]
      split
      · rename_i t ht
        rwa [ht] at hfork
      · rename_i pid t ht
        rwa [ht] at hfork
    | read => exact hlogs (logs_sysRead hbyte) fun _ => id
    | write => exact hlogs (logs_sysWrite hbyte) fun _ => id
    | waitpid =>
      have hnone : s.current.children = none ∧ some s.currentTask ≠ s.initProc :=
        not_not.mp fun h => hwait ⟨hn, h⟩
      have hret : sysWait env frame.ebx s.entry = (.returned minusOne, s.entry) := if_pos hnone
      simp only [syscallHandler, hret]
      exact hsilent
    | kill => exact hlogs (Q := P) logs_sysKill fun _ => id
    | signal =>
      simp only [syscallHandler, sysSignal]
      split
      · exact hsilent
      · refine hlogs (Q := P) (.of_eq ?_ ?_) fun _ => id <;>
        · dsimp only [kernelSignalRegister]
          split_ifs <;> rfl
    | sigreturn => exact absurd hn hret
    | getuid => exact hsilent
    | geteuid => exact hsilent

/-- What a call of `sys_wait` records once it has found a zombie. -/
theorem wait_events (hwait : EntersWait frame s) (hfound : Found env env.rounds 0 s.entry) :
    ∃ z flag l, (syscallDispatch env frame s.entry).2.2.trace =
      (if frame.ebx ≠ 0 then [.access frame.ebx 4] else []) ++ .call (.taskReap z) flag :: l ∧
      (∀ e ∈ l, Event.CallUnder flag e) ∧ (flag = true ↔ findZombie env.fuel s = some none) := by
  obtain ⟨z, u, hu, htrace, hlater, hnow⟩ := waitLoop_found frame.ebx hfound
  obtain ⟨l, hl, hcalls⟩ := collectZombie_trace env.fuel frame.ebx z u
  refine ⟨z, u.interruptFlag, l, ?_, hcalls, ?_⟩
  · simp only [syscallDispatch, hwait.1, setEax_state, syscallHandler, sysWait_of_enters hwait, hu, hl, htrace]
    rfl
  · constructor
    · intro hflag
      by_contra hscan
      rw [hnow hscan] at hflag
      cases hflag
    · exact hlater

theorem wait_events_of_not_found (hwait : EntersWait frame s) (hfound : ¬Found env env.rounds 0 s.entry) :
    (syscallDispatch env frame s.entry).2.2.trace = [] := by
  simp only [syscallDispatch, hwait.1, setEax_state, syscallHandler, sysWait_of_enters hwait,
    waitLoop_not_found hfound]
  rfl

theorem sigreturn_events (hret : syscallTable frame.eax = some .sigreturn) :
    (syscallDispatch env frame s.entry).2.2.trace = [.access (sigreturnAddr frame.userEsp) TrapFrame.size] := by
  simp only [syscallDispatch, hret, setEax_state, syscallHandler]
  rfl

/-- A signal frame is pushed before the return to Ring 3. -/
def Delivers (frame : TrapFrame) (s : KState) : Prop := frame.cs &&& 3 = 3 ∧ caughtSignal s.current ≠ none

/-- The stores to a signal frame at `usp`. -/
def sigframeStores (usp : ℕ) : List Event :=
  [.access (add32 usp 8) 64, .access (add32 usp 4) 4, .access usp 4, .access (add32 usp 72) 8]

theorem deliver_events (h : Delivers frame s) :
    (signalCheckAndDeliver frame s).2.trace = s.trace ++ sigframeStores (sigframeAddr frame.userEsp) := by
  obtain ⟨bit, hbit⟩ := Option.ne_none_iff_exists'.mp h.2
  rw [signalCheckAndDeliver, if_neg (not_not.mpr h.1), hbit]
  simp only [setupUserSigframe, KState.writeUser, KState.access, sigframeStores, List.append_assoc]
  rfl

theorem deliver_events_of_not (h : ¬Delivers frame s) : (signalCheckAndDeliver frame s).2.trace = s.trace := by
  unfold signalCheckAndDeliver
  split
  · rfl
  · rename_i hcs
    rw [not_not] at hcs
    have hnone : caughtSignal s.current = none := not_not.mp fun hc => h ⟨hcs, hc⟩
    rw [hnone]

/-- Whether a call that came to its end is followed by the push of a signal frame. -/
def DeliversAfter (r : Outcome × TrapFrame × KState) : Prop :=
  (∃ v, r.1 = .returned v) ∧ Delivers r.2.1 r.2.2

/-- A run records what its call does, and then the stores to a signal frame if there is one. -/
theorem recorded_mem_iff {e : Event} : e ∈ recorded env frame s ↔
    e ∈ (syscallDispatch env frame s.entry).2.2.trace ∨
      DeliversAfter (syscallDispatch env frame s.entry) ∧
        e ∈ sigframeStores (sigframeAddr (syscallDispatch env frame s.entry).2.1.userEsp) := by
  have hentry : ({ s.entry with interruptFlag := false } : KState) = s.entry := rfl
  rw [recorded, int80, hentry]
  generalize syscallDispatch env frame s.entry = r
  obtain ⟨o, frame', t⟩ := r
  cases o with
  | returned v =>
    by_cases hd : Delivers frame' t
    · simp only [deliver_events hd, List.mem_append, DeliversAfter, hd]
      simp
    · simp only [deliver_events_of_not hd, DeliversAfter, hd]
      simp
  | parked => simp [DeliversAfter]
  | waiting => simp [DeliversAfter]
  | stuck why => simp [DeliversAfter]

/-- Every change of shared data during the call is made with interrupts disabled. -/
def NonPreemptible (env : SysEnv) (frame : TrapFrame) (s : KState) : Prop :=
  ∀ c flag, Event.call c flag ∈ recorded env frame s → flag = false

/-- The call is a `sys_wait` that has to block and finds a zombie in a later round. -/
def BlocksThenReaps (env : SysEnv) (frame : TrapFrame) (s : KState) : Prop :=
  EntersWait frame s ∧ findZombie env.fuel s = some none ∧ Found env env.rounds 0 s.entry

/-- Shared data is changed with interrupts disabled, except when `sys_wait` reaps a zombie
after it has blocked. -/
theorem nonPreemptible_iff (env : SysEnv) (frame : TrapFrame) (s : KState) :
    NonPreemptible env frame s ↔ ¬BlocksThenReaps env frame s := by
  have hstores : ∀ c flag usp, Event.call c flag ∉ sigframeStores usp := by
    intro c flag usp h
    simp [sigframeStores] at h
  have hcalls : NonPreemptible env frame s ↔
      ∀ e ∈ (syscallDispatch env frame s.entry).2.2.trace, ∀ c flag, e = .call c flag → flag = false := by
    constructor
    · rintro h e he c flag rfl
      exact h c flag (recorded_mem_iff.mpr (.inl he))
    · intro h c flag hc
      rcases recorded_mem_iff.mp hc with hc | ⟨-, hc⟩
      · exact h _ hc c flag rfl
      · exact absurd hc (hstores c flag _)
  rw [hcalls]
  by_cases hwait : EntersWait frame s
  · by_cases hfound : Found env env.rounds 0 s.entry
    · obtain ⟨z, flag, l, htrace, hl, hflag⟩ := wait_events hwait hfound
      rw [htrace]
      constructor
      · rintro h ⟨-, hscan, -⟩
        have := h (.call (.taskReap z) flag) (by simp) _ _ rfl
        rw [hflag.mpr hscan] at this
        exact nomatch this
      · intro h e he c g hg
        have hoff : flag = false := by
          by_contra hon
          exact h ⟨hwait, hflag.mp (Bool.eq_true_of_not_eq_false hon), hfound⟩
        subst hg
        rcases List.mem_append.mp he with he | he
        · split at he <;> simp at he
        · rcases List.mem_cons.mp he with he | he
          · exact (Event.call.inj he).2.trans hoff
          · exact (hl _ he).trans hoff
    · rw [wait_events_of_not_found hwait hfound]
      exact ⟨fun _ h => hfound h.2.2, fun _ => nofun⟩
  · refine ⟨fun _ h => hwait h.1, fun _ => ?_⟩
    by_cases hret : syscallTable frame.eax = some .sigreturn
    · rw [sigreturn_events hret]
      intro e he c flag hc
      obtain rfl := List.mem_singleton.mp he
      exact nomatch hc
    · refine syscallDispatch_events hwait hret ?_ fun _ _ _ c flag h => nomatch h
      rintro e he c flag rfl
      exact he

/-- What goes on while a parent waits: init waits too, the child gets the CPU and exits, and
the parent is woken. -/
def childExits (s : KState) : KState :=
  ((((s.after (.tick 16)).after (.waitRound true 16 0)).after (.tick 16)).after (callWith 13 1 0 0)).after
    (.tick 16)

/-- A parent whose child exits while it waits reaps it with interrupts enabled. -/
theorem nonPreemptible_fails : ¬∀ env frame s, NonPreemptible env frame s := by
  intro h
  have hreap : Event.call (.taskReap 12) true ∈ recorded ⟨16, 2, spawnAt 13, none, fun _ => childExits⟩
      (userFrame 7 0 0 userStackTop) (userOnCpu.after (callWith 12 2 0 0)) := by decide +kernel
  exact nomatch h _ _ _ _ _ hreap

/-- Every access leads to the memory of user programs. -/
def Confined (l : List Event) : Prop := ∀ addr len, Event.access addr len ∈ l → (Event.access addr len).InUser

/-- The pointers that `sys_wait` and `sys_sigreturn` do not check are in range. -/
structure CallPointersOk (env : SysEnv) (frame : TrapFrame) (s : KState) : Prop where
  wait : EntersWait frame s → Found env env.rounds 0 s.entry →
    frame.ebx = 0 ∨ userRangeOk frame.ebx 4 = true
  sigreturn : syscallTable frame.eax = some .sigreturn →
    userRangeOk (sigreturnAddr frame.userEsp) TrapFrame.size = true

theorem sigframeAddr_lt (userEsp : ℕ) : sigframeAddr userEsp < wordSize := sub32_lt _ _

/-- The four stores cover the signal frame. -/
theorem sigframeStores_confined {usp : ℕ} (h : usp < wordSize) :
    Confined (sigframeStores usp) ↔ userRangeOk usp sigframeSize = true := by
  rw [← inUser_iff h (by decide) (by decide)]
  simp only [Confined, sigframeStores, List.mem_cons, List.not_mem_nil, or_false, Event.access.injEq,
    Event.InUser, sigframeSize]
  have hbyte : ∀ k i, (add32 usp k + i) % wordSize = (usp + (k + i)) % wordSize := by
    intro k i
    rw [add32, Nat.mod_add_mod, Nat.add_assoc]
  constructor
  · intro hall i hi
    rcases Nat.lt_or_ge i 4 with h4 | h4
    · exact hall usp 4 (.inr (.inr (.inl ⟨rfl, rfl⟩))) i h4
    rcases Nat.lt_or_ge i 8 with h8 | h8
    · have := hall (add32 usp 4) 4 (.inr (.inl ⟨rfl, rfl⟩)) (i - 4) (by omega)
      rwa [hbyte, Nat.add_sub_cancel' h4] at this
    rcases Nat.lt_or_ge i 72 with h72 | h72
    · have := hall (add32 usp 8) 64 (.inl ⟨rfl, rfl⟩) (i - 8) (by omega)
      rwa [hbyte, Nat.add_sub_cancel' h8] at this
    · have := hall (add32 usp 72) 8 (.inr (.inr (.inr ⟨rfl, rfl⟩))) (i - 72) (by omega)
      rwa [hbyte, Nat.add_sub_cancel' h72] at this
  · rintro hall addr len (⟨rfl, rfl⟩ | ⟨rfl, rfl⟩ | ⟨rfl, rfl⟩ | ⟨rfl, rfl⟩) i hi
    · rw [hbyte]
      exact hall (8 + i) (by omega)
    · rw [hbyte]
      exact hall (4 + i) (by omega)
    · exact hall i (by omega)
    · rw [hbyte]
      exact hall (72 + i) (by omega)

theorem call_confined (hwords : ∀ w ∈ frame.words, w < wordSize) :
    Confined (syscallDispatch env frame s.entry).2.2.trace ↔ CallPointersOk env frame s := by
  have hreg : frame.ebx < wordSize ∧ frame.ecx < wordSize ∧ frame.edx < wordSize := by
    refine ⟨hwords _ ?_, hwords _ ?_, hwords _ ?_⟩ <;> simp [TrapFrame.words]
  by_cases hwait : EntersWait frame s
  · have hret : syscallTable frame.eax ≠ some .sigreturn := by
      rw [hwait.1]
      nofun
    by_cases hfound : Found env env.rounds 0 s.entry
    · obtain ⟨z, flag, l, htrace, hl, -⟩ := wait_events hwait hfound
      rw [htrace]
      constructor
      · intro h
        refine ⟨fun _ _ => or_iff_not_imp_left.mpr fun hne => ?_, fun he => absurd he hret⟩
        rw [← inUser_iff hreg.1 (by decide) (by decide)]
        exact h _ _ (by simp [hne])
      · intro h addr len he
        have hnot : Event.access addr len ∉ l := fun he => hl _ he
        rcases h.wait hwait hfound with hzero | hok
        · simp [hzero, hnot] at he
        · simp only [List.mem_append, List.mem_cons, reduceCtorEq, hnot, or_self, or_false] at he
          split at he
          · obtain ⟨rfl, rfl⟩ := Event.access.inj (List.mem_singleton.mp he)
            exact (inUser_iff hreg.1 (by decide) (by decide)).mpr hok
          · exact nomatch he
    · rw [wait_events_of_not_found hwait hfound]
      exact ⟨fun _ => ⟨fun _ hf => absurd hf hfound, fun he => absurd he hret⟩, fun _ => nofun⟩
  · by_cases hret : syscallTable frame.eax = some .sigreturn
    · rw [sigreturn_events hret]
      have hlt : sigreturnAddr frame.userEsp < wordSize := add32_lt _ _
      constructor
      · intro h
        refine ⟨fun hw => absurd hw hwait, fun _ => ?_⟩
        rw [← inUser_iff hlt (by decide) (by decide)]
        exact h _ _ List.mem_cons_self
      · intro h addr len he
        rw [List.mem_singleton.mp he]
        exact (inUser_iff hlt (by decide) (by decide)).mpr (h.sigreturn hret)
    · refine ⟨fun _ => ⟨fun hw => absurd hw hwait, fun he => absurd he hret⟩, fun _ addr len he => ?_⟩
      refine syscallDispatch_events (P := fun e => ∀ addr len, e = .access addr len →
        (Event.access addr len).InUser) hwait hret ?_ ?_ _ he addr len rfl
      · rintro e hc addr len rfl
        exact hc.elim
      · intro hok i hi addr len haccess
        rw [← haccess]
        exact inUser_byte hreg.2.1 hreg.2.2 hok hi

theorem delivery_confined : Confined (signalCheckAndDeliver frame s.entry).2.trace ↔
    (Delivers frame s → userRangeOk (sigframeAddr frame.userEsp) sigframeSize = true) := by
  by_cases hd : Delivers frame s
  · have hd' : Delivers frame s.entry := hd
    have htrace : s.entry.trace = [] := rfl
    rw [deliver_events hd', htrace, List.nil_append, sigframeStores_confined (sigframeAddr_lt _)]
    exact ⟨fun h _ => h, fun h => h hd⟩
  · have hd' : ¬Delivers frame s.entry := hd
    rw [deliver_events_of_not hd']
    exact ⟨fun _ h => absurd h hd, fun _ => nofun⟩

/-- A call accesses user memory only, exactly when the pointers it does not check are in range,
and so does the delivery of a signal exactly when the frame it pushes is. -/
theorem user_pointers_confined_iff (env : SysEnv) (frame frame' : TrapFrame) (s s' : KState)
    (hwords : ∀ w ∈ frame.words, w < wordSize) :
    (Confined (syscallDispatch env frame s.entry).2.2.trace ↔ CallPointersOk env frame s) ∧
      (Confined (signalCheckAndDeliver frame' s'.entry).2.trace ↔
        (Delivers frame' s' → userRangeOk (sigframeAddr frame'.userEsp) sigframeSize = true)) :=
  ⟨call_confined hwords, delivery_confined⟩

/-- A `sys_write` of ten bytes from the start of user memory. -/
def writeTen : Outcome × TrapFrame × KState :=
  syscallDispatch ⟨16, 0, spawnAt 12, none, fun _ s => s⟩
    { userFrame 4 1 userCodeBase userStackTop with edx := 10 } userOnCpu.entry

theorem user_pointers_confined_write :
    Event.access (userCodeBase + 9) 1 ∈ writeTen.2.2.trace ∧ Confined writeTen.2.2.trace := by
  refine ⟨by decide +kernel, ?_⟩
  refine (user_pointers_confined_iff _ _ (userFrame 4 1 0 userStackTop) userOnCpu userOnCpu ?_).1.mpr ⟨?_, ?_⟩
  · decide
  · rintro ⟨h, -⟩
    exact nomatch h
  · exact fun h => nomatch h

/-- `sys_sigreturn` with a stack pointer in the kernel loads kernel memory into the frame. -/
theorem user_pointers_confined_fails : ¬∀ env frame s, (∀ w ∈ frame.words, w < wordSize) →
    frame.cs &&& 3 = 3 → Confined (recorded env frame s) := by
  intro h
  have haccess : Event.access 0xC0100004 64 ∈ recorded ⟨16, 0, spawnAt 12, none, fun _ s => s⟩
      (userFrame 119 0 0 0xC0100000) userOnCpu := by decide +kernel
  have hrange := h _ _ _ (by decide) (by decide) _ _ haccess 0 (by decide)
  exact absurd hrange (by decide)

end HekaOS.Tasks
