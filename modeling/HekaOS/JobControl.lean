import HekaOS.PendingSignals
import HekaOS.StrayStores
import HekaOS.TaskTree
import HekaOS.TransitionSystem

/-!
# Stopping, continuing and killing

`SIGKILL` cannot be lost and is acted on by the next dispatch. A stopped task stays stopped, and
keeps what is pending, until it is sent `SIGCONT` or `SIGKILL`.
-/

namespace HekaOS.Tasks
open KernelMemory PointerChain BitMasks TransitionSystem

variable {s t u : KState} {x y : Task} {a b c k r fuel n code signum : ℕ} {kids : List ℕ}

/-- The first child goes to another parent. -/
theorem reparent_returns (hc : (s.task a).children = some c) (hp : (s.task c).parent = some a) :
    ∃ t, taskReparent fuel c r s = .ok t := by
  have hunlink : unlinkChild fuel a c s = .ok (s.modify a fun x => { x with children := s.sibling c }) :=
    if_pos hc
  unfold taskReparent detach
  rw [hp]
  dsimp only [taskRemoveChild]
  rw [hunlink]
  exact ⟨_, rfl⟩

/-- The loop of `do_exit` ends when the children form a list. -/
theorem orphanChildren_returns (hchain : Chain s.sibling (s.task a).children kids)
    (hparent : ∀ c ∈ kids, (s.task c).parent = some a) (hr : r ≠ a) (hn : kids.length < n) :
    ∃ t, orphanChildren fuel a r n s = .ok t := by
  induction kids generalizing s n with
  | nil =>
    obtain ⟨n, rfl⟩ : ∃ m, n = m + 1 := ⟨n - 1, by simp at hn; omega⟩
    have hnone : (s.task a).children = none := hchain
    exact ⟨s, by rw [orphanChildren, hnone]⟩
  | cons c rest ih =>
    obtain ⟨n, rfl⟩ : ∃ m, n = m + 1 := ⟨n - 1, by simp at hn; omega⟩
    have hc : (s.task a).children = some c := hchain.1
    have hp := hparent c List.mem_cons_self
    obtain ⟨u, hu⟩ : ∃ u, taskReparent fuel c r s = .ok u := reparent_returns hc hp
    obtain ⟨v, hv, hadd⟩ := bind_eq_ok.mp hu
    obtain rfl := Except.ok.inj hadd
    rw [detach, hp] at hv
    have hremoved : ChildRemoved a c [] rest s v := childRemoved hchain hv
    have hadded := childAdded r c v
    have hnotmem : c ∉ rest := (List.nodup_cons.mp hchain.nodup).1
    have hrest : Chain (taskAddChild r c v).sibling ((taskAddChild r c v).task a).children rest := by
      rw [hadded.children, if_neg hr.symm, hremoved.children, if_pos ⟨rfl, rfl⟩]
      have hstart := hchain.2.head?_eq
      rw [← hstart]
      refine hchain.2.congr fun b hb => ?_
      have hbc : b ≠ c := fun he => hnotmem (he ▸ hb)
      rw [hadded.sibling, if_neg hbc, hremoved.sibling, if_neg hbc]
      rfl
    have hparent' : ∀ b ∈ rest, ((taskAddChild r c v).task b).parent = some a := by
      intro b hb
      have hbc : b ≠ c := fun he => hnotmem (he ▸ hb)
      rw [hadded.parent, if_neg hbc, hremoved.parent, if_neg hbc]
      exact hparent b (List.mem_cons_of_mem c hb)
    obtain ⟨t, ht⟩ := ih hrest hparent' (n := n) (by simp at hn; omega)
    refine ⟨t, ?_⟩
    rw [orphanChildren, hc]
    exact bind_eq_ok.mpr ⟨_, hu, ht⟩

/-- `do_exit` returns for a task that is not the reaper. -/
theorem doExit_returns (hchain : Chain s.sibling (s.task a).children kids)
    (hparent : ∀ c ∈ kids, (s.task c).parent = some a) (hr : s.reaper ≠ a) (hfuel : kids.length < fuel) :
    ∃ t, doExit fuel a code s = .ok t := by
  have hcode : Calm False (s.modify a fun x => { x with exitCode := code }) (beginExit a code s) :=
    calm_beginExit
  have hfield : ∀ {α : Type} (g : Task → α), (∀ x n, g { x with exitCode := n } = g x) → ∀ b,
      g ((s.modify a fun x => { x with exitCode := code }).task b) = g (s.task b) :=
    fun g hg b => s.modify_field a b _ g (hg _ _)
  have hchildren : ((beginExit a code s).task a).children = (s.task a).children := by
    rw [(hcode.task a).children, hfield Task.children fun _ _ => rfl]
  have hsibling : ∀ b, (beginExit a code s).sibling b = s.sibling b := fun b =>
    (hcode.task b).sibling.trans (hfield Task.sibling (fun _ _ => rfl) b)
  have hchain' : Chain (beginExit a code s).sibling ((beginExit a code s).task a).children kids := by
    rw [hchildren]
    exact hchain.congr fun b _ => hsibling b
  have hparent' : ∀ c ∈ kids, ((beginExit a code s).task c).parent = some a := by
    intro c hc
    rw [(hcode.task c).parent, hfield Task.parent fun _ _ => rfl]
    exact hparent c hc
  obtain ⟨v, hv⟩ : ∃ v, orphanChildren fuel a s.reaper fuel (beginExit a code s) = .ok v :=
    orphanChildren_returns hchain' hparent' hr hfuel
  exact ⟨_, bind_eq_ok.mpr ⟨v, hv, rfl⟩⟩

/-- Delivery takes a signal other than the two immutable ones. -/
theorem findCaught_spec {p bit : BitVec 32} (h : findCaught x n p = some bit) :
    ∃ signum, 0 < signum ∧ signum ≤ nsig ∧ bit = sigmask signum ∧ signum ≠ sigkill ∧ signum ≠ sigstop := by
  induction n generalizing p with
  | zero => exact nomatch h
  | succ n ih =>
    rw [findCaught] at h
    split at h
    · exact nomatch h
    · rename_i hp
      obtain ⟨signum, h₀, hle, hbit, -⟩ := lowest_signal hp
      dsimp only at h
      split at h
      · exact ih h
      · rename_i hcaught
        obtain rfl := Option.some.inj h
        rw [not_or, not_not, hbit] at hcaught
        have hmutable := mt (sigmask_immutable_ne_zero h₀ hle).mpr (not_not.mpr hcaught.1)
        rw [not_or] at hmutable
        exact ⟨signum, h₀, hle, hbit, hmutable.1, hmutable.2⟩

theorem setupUserSigframe_task (frame : TrapFrame) (signum handler : ℕ) (s : KState) :
    (setupUserSigframe frame signum handler s).2.task = s.task := by
  dsimp only [setupUserSigframe, KState.writeUser, KState.access]

/-- Calls that concern the signals of one task. -/
inductive SignalCall where
  | register (signum handler : ℕ)
  | send (signum : ℕ)
  | deliver (frame : TrapFrame)

/-- Delivery is for the task on the CPU. -/
def SignalCall.run (k : KernelImage) (a : ℕ) (s : KState) : SignalCall → KState
  | .register signum handler => kernelSignalRegister a signum handler s
  | .send signum => kernelSignalSend a signum s
  | .deliver frame => (k.signalCheckAndDeliver frame { s with currentTask := a }).2

/-- The signal frames of a sequence of calls miss kernel memory. -/
def MissedByCalls (k : KernelImage) (a : ℕ) : List SignalCall → KState → Prop
  | [], _ => True
  | c :: calls, s =>
    (∀ frame, c = .deliver frame → k.MissedBy frame { s with currentTask := a }) ∧ MissedByCalls k a calls (c.run k a s)

/-- `SIGKILL` is pending for a task that can act on it. The tree of tasks is that of `s`. -/
structure Doomed (a : ℕ) (s t : KState) : Prop where
  pending : (t.task a).pending sigkill = true
  alive : (t.task a).state ≠ .zombie
  ready : (t.task a).state ≠ .stopped
  children : (t.task a).children = (s.task a).children
  sibling : t.sibling = s.sibling
  parent : ∀ b, (t.task b).parent = (s.task b).parent
  reaper : t.reaper = s.reaper

theorem Doomed.send (h : Doomed a s t) (signum : ℕ) : Doomed a s (kernelSignalSend a signum t) := by
  have hself : (kernelSignalSend a signum t).task a = (t.task a).signalSend signum := t.modify_task_self a _
  by_cases hvalid : signum = 0 ∨ nsig ≤ signum
  · have hnone : kernelSignalSend a signum t = t := by
      rw [kernelSignalSend, KState.modify, signalSend_of_invalid hvalid, Function.update_eq_self]
    rwa [hnone]
  rw [not_or, not_le] at hvalid
  have h₀ : 0 < signum := Nat.pos_of_ne_zero hvalid.1
  have hdiscards : discards signum sigkill = false := by
    have hstop : stops sigkill = false := by decide
    have hcont : ¬sigkill = sigcont := by decide
    simp [discards, hstop, hcont]
  have hstate := signalSend_state_eq h₀ hvalid.2 (t.task a)
  refine ⟨?_, ?_, ?_, ?_, ?_, fun b => ?_, h.reaper⟩
  · rw [hself, signalSend_pending h₀ hvalid.2 (by decide) (by decide), h.pending, hdiscards]
    simp
  · rw [hself, hstate]
    split
    · intro hc
      cases hc
    · exact h.alive
  · rw [hself, hstate]
    split
    · intro hc
      cases hc
    · exact h.ready
  · rw [kernelSignalSend_field Task.children fun _ _ _ => rfl, h.children]
  · rw [← h.sibling]
    funext b
    exact kernelSignalSend_field Task.sibling fun _ _ _ => rfl
  · rw [kernelSignalSend_field Task.parent fun _ _ _ => rfl, h.parent]

/-- Calls that change neither the state nor the tree, and leave `SIGKILL` pending. -/
theorem Doomed.quiet (h : Doomed a s t) (hq : Quiet { t with currentTask := c } u)
    (hp : (u.task a).pending sigkill = true) : Doomed a s u := by
  have hfield : ∀ {α : Type} (g : Task → α), (∀ x y, g (x.quietly y) = g x) → ∀ b, g (u.task b) = g (t.task b) :=
    fun g hg b => hq.field g hg
  refine ⟨hp, ?_, ?_, ?_, ?_, fun b => ?_, ?_⟩
  · rw [hfield Task.state fun _ _ => rfl]
    exact h.alive
  · rw [hfield Task.state fun _ _ => rfl]
    exact h.ready
  · rw [hfield Task.children fun _ _ => rfl, h.children]
  · rw [← h.sibling]
    funext b
    exact hfield Task.sibling (fun _ _ => rfl) b
  · rw [hfield Task.parent fun _ _ => rfl, h.parent]
  · rw [KState.reaper, hq.rest, ← h.reaper]
    rfl

theorem Doomed.call {k : KernelImage} {c : SignalCall} (h : Doomed a s t)
    (hc : ∀ frame, c = .deliver frame → k.MissedBy frame { t with currentTask := a }) : Doomed a s (c.run k a t) := by
  cases c with
  | register signum handler =>
    have hq : Quiet { t with currentTask := t.currentTask } (kernelSignalRegister a signum handler t) :=
      quiet_register
    refine h.quiet hq ?_
    dsimp only [SignalCall.run, kernelSignalRegister]
    split
    · exact h.pending
    split
    · exact h.pending
    · rw [KState.modify_task_self]
      exact h.pending
  | send signum => exact h.send signum
  | deliver frame =>
    have hdeliver := KernelImage.signalCheckAndDeliver_eq (hc frame rfl)
    rw [SignalCall.run, hdeliver]
    refine h.quiet quiet_deliver ?_
    dsimp only [signalCheckAndDeliver]
    split
    · exact h.pending
    split
    · exact h.pending
    · rename_i bit hcaught
      rw [caughtSignal] at hcaught
      obtain ⟨signum, h₀, hle, rfl, hkill, -⟩ := findCaught_spec hcaught
      rw [setupUserSigframe_task, KState.modify_task_self, clearPending_pending h₀ hle (by decide)]
      rw [Bool.and_eq_true]
      exact ⟨h.pending, by simp [Ne.symm hkill]⟩

theorem Doomed.calls {k : KernelImage} {calls : List SignalCall} (h : Doomed a s t) (hc : MissedByCalls k a calls t) :
    Doomed a s (calls.foldl (SignalCall.run k a) t) := by
  induction calls generalizing t with
  | nil => exact h
  | cons c calls ih => exact ih (h.call hc.1) hc.2

theorem doomed_kill (hz : (s.task a).state ≠ .zombie) : Doomed a s (kernelSignalSend a sigkill s) := by
  have hself : (kernelSignalSend a sigkill s).task a = (s.task a).signalSend sigkill := s.modify_task_self a _
  refine ⟨?_, mt kernelSignalSend_zombie.mp hz, ?_, ?_, ?_, fun b => ?_, rfl⟩
  · rw [hself, signalSend_pending (by decide) (by decide) (by decide) (by decide)]
    simp
  · rw [hself, signalSend_state_eq (by decide) (by decide)]
    split
    · nofun
    · rename_i hnot
      exact fun hs => hnot (.inr ⟨hs, .inr rfl⟩)
  · exact kernelSignalSend_field Task.children fun _ _ _ => rfl
  · funext b
    exact kernelSignalSend_field Task.sibling fun _ _ _ => rfl
  · exact kernelSignalSend_field Task.parent fun _ _ _ => rfl

/-- A task that was sent `SIGKILL` keeps it pending and is not stopped, whatever is sent,
registered and delivered, as long as no signal frame is stored over the data of the kernel; and the next
dispatch ends it. -/
theorem sigkill_wins (k : KernelImage) (s : KState) (a : ℕ) (kids : List ℕ) (hz : (s.task a).state ≠ .zombie)
    (hr : s.reaper ≠ a) (hchain : Chain s.sibling (s.task a).children kids)
    (hparent : ∀ c ∈ kids, (s.task c).parent = some a) (calls : List SignalCall)
    (hmiss : MissedByCalls k a calls (kernelSignalSend a sigkill s)) :
    let t := calls.foldl (SignalCall.run k a) (kernelSignalSend a sigkill s)
    (t.task a).pending sigkill = true ∧ (t.task a).state ≠ .stopped ∧
      ∀ fuel, kids.length < fuel → ∃ u, kernelSignalDispatch fuel a t = .ok u ∧ (u.task a).state = .zombie := by
  intro t
  have h : Doomed a s t := (doomed_kill hz).calls hmiss
  refine ⟨h.pending, h.ready, fun fuel hfuel => ?_⟩
  rw [kernelSignalDispatch_eq, dispatched]
  cases hsig : (t.task a).drained.2 with
  | none => exact absurd hsig (drained_of_kill h.alive h.ready h.pending)
  | some signum =>
    have hplaced : (t.task a).Placed False (t.task a).drained.1 := drained_placed _
    have hfield : ∀ {α : Type} (g : Task → α), g (t.task a).drained.1 = g (t.task a) → ∀ b,
        g ((t.set a (t.task a).drained.1).task b) = g (t.task b) := fun g hg b => t.modify_field a b _ g hg
    have hchain' : Chain (t.set a (t.task a).drained.1).sibling
        ((t.set a (t.task a).drained.1).task a).children kids := by
      rw [hfield Task.children hplaced.children, h.children]
      refine hchain.congr fun b _ => ?_
      rw [← h.sibling]
      exact hfield Task.sibling hplaced.sibling b
    have hparent' : ∀ c ∈ kids, ((t.set a (t.task a).drained.1).task c).parent = some a := by
      intro c hc
      rw [hfield Task.parent hplaced.parent, h.parent]
      exact hparent c hc
    have hr' : (t.set a (t.task a).drained.1).reaper ≠ a := h.reaper ▸ hr
    obtain ⟨u, hu⟩ : ∃ u, doExit fuel a (128 + signum) (t.set a (t.task a).drained.1) = .ok u :=
      doExit_returns hchain' hparent' hr' hfuel
    exact ⟨u, hu, doExit_state hu⟩

/-- A stopped task with two children that has blocked off what it can, and whose `SIGTERM` is delivered. -/
theorem sigkill_wins_stopped :
    let k : KernelImage := structImage 10 0xD0000008 (by decide)
    let s : KState := { bootState with
      task := Function.update (Function.update (Function.update bootState.task
        10 { state := .stopped, children := some 11, pendingSignals := sigmask sigterm ||| sigmask sigtstp,
             signalHandlers := fun _ => 0x8048100 })
        11 { parent := some 10, sibling := some 12 }) 12 { parent := some 10 } }
    let calls := [SignalCall.register sigkill sigIgn, .send sigstop, .deliver (userFrame 37 3 sigkill userStackTop)]
    let t := calls.foldl (SignalCall.run k 10) (kernelSignalSend 10 sigkill s)
    (s.task 10).state = .stopped ∧ (t.task 10).pending sigkill = true ∧
      ∃ u, kernelSignalDispatch 3 10 t = .ok u ∧ (u.task 10).state = .zombie := by
  intro k s calls t
  have hmiss : MissedByCalls k 10 calls (kernelSignalSend 10 sigkill s) := by
    refine ⟨nofun, nofun, fun frame hframe hring hcaught i hi hmem => ?_, trivial⟩
    obtain rfl := SignalCall.deliver.inj hframe
    have haddr : sigframeAddr (userFrame 37 3 sigkill userStackTop).userEsp = 0xBFFFFFAC := by decide +kernel
    rw [haddr] at hmem
    have hlow : 0xD0000008 ≤ MachineWord.add32 0xBFFFFFAC i := hmem.1
    simp only [sigframeSize] at hi
    rw [MachineWord.add32_of_lt (by simp only [MachineWord.wordSize]; omega)] at hlow
    omega
  have hwins := sigkill_wins k s 10 [11, 12] (by decide) (by decide) ⟨rfl, rfl, rfl⟩
    (by simp [s, Function.update]) calls hmiss
  exact ⟨rfl, hwins.1, hwins.2.2 3 (by decide)⟩

/-- The user's stack pointer leads into the struct of the task, where the word of the signal frame that saves
`esi` replaces the pending set. -/
theorem sigkill_wins_fails : ¬∀ (k : KernelImage) (s : KState) (a : ℕ) (kids : List ℕ) (calls : List SignalCall),
    (s.task a).state ≠ .zombie → s.reaper ≠ a → Chain s.sibling (s.task a).children kids →
      (∀ c ∈ kids, (s.task c).parent = some a) →
        let t := calls.foldl (SignalCall.run k a) (kernelSignalSend a sigkill s)
        (t.task a).pending sigkill = true ∧ (t.task a).state ≠ .stopped ∧
          ∀ fuel, kids.length < fuel → ∃ u, kernelSignalDispatch fuel a t = .ok u ∧ (u.task a).state = .zombie := by
  intro h
  let k : KernelImage := structImage 10 0xD0000008 (by decide)
  let s : KState := { bootState with
    task := Function.update bootState.task 10
      { isUserspace := true, pendingSignals := sigmask sigint, signalHandlers := fun _ => 0x8048100 } }
  have hkilled := h k s 10 [] [.deliver (userFrame 37 3 sigint (0xD0000008 + 152))] (by decide) (by decide) rfl
    (by simp)
  exact absurd hkilled.1 (by decide +kernel)

/-- The rules of job control for one task. -/
structure Task.Orderly (x : Task) : Prop where
  cont : x.pending sigcont = true → x.pending sigstop = false ∧ x.pending sigtstp = false
  nsig : x.pending nsig = false
  killed : x.state = .stopped → x.pending sigkill = false
  resumed : x.state = .stopped → x.pending sigcont = false

/-- The signals left to look at are pending, and `SIGKILL` is one of them if it is pending. -/
structure LeftPending (p : BitVec 32) (x : Task) : Prop where
  pending : ∀ k, 0 < k → p.getLsbD (k - 1) = true → x.pending k = true
  kill : x.pending sigkill = true → p.getLsbD (sigkill - 1) = true

/-- A signal other than `SIGKILL` is looked at. -/
theorem LeftPending.next {p : BitVec 32} {y : Task} (h : LeftPending p x) (h₀ : 0 < signum)
    (hle : signum ≤ nsig) (hne : signum ≠ sigkill) (hsame : ∀ k, 0 < k → k ≠ signum → y.pending k = x.pending k) :
    LeftPending (p &&& ~~~sigmask signum) y := by
  constructor
  · intro k hk hpk
    rw [getLsbD_clear_sigmask h₀ hle hk, Bool.and_eq_true] at hpk
    have hks : k ≠ signum := by simpa using hpk.2
    rw [hsame k hk hks]
    exact h.pending k hk hpk.1
  · intro hyk
    rw [hsame _ (by decide) hne.symm] at hyk
    rw [getLsbD_clear_sigmask h₀ hle (by decide), h.kill hyk]
    simp [hne.symm]

namespace Task.Orderly

theorem congr (h : x.Orderly) (hs : y.state = x.state) (hp : y.pendingSignals = x.pendingSignals) : y.Orderly := by
  have hpending : ∀ k, y.pending k = x.pending k := fun k => by rw [pending, hp, pending]
  refine ⟨?_, ?_, ?_, ?_⟩
  · rw [hpending, hpending, hpending]
    exact h.cont
  · rw [hpending]
    exact h.nsig
  · rw [hs, hpending]
    exact h.killed
  · rw [hs, hpending]
    exact h.resumed

/-- Signals are lost and the state is not `TASK_STOPPED`. -/
theorem of_awake (h : x.Orderly) (hs : y.state ≠ .stopped) (hp : ∀ k, y.pending k = true → x.pending k = true) :
    y.Orderly := by
  have hnot : ∀ k, x.pending k = false → y.pending k = false := by
    intro k hk
    rw [Bool.eq_false_iff] at hk ⊢
    exact mt (hp k) hk
  refine ⟨fun hc => ?_, hnot _ h.nsig, fun he => absurd he hs, fun he => absurd he hs⟩
  obtain ⟨h₁, h₂⟩ := h.cont (hp _ hc)
  exact ⟨hnot _ h₁, hnot _ h₂⟩

theorem send (h : x.Orderly) (signum : ℕ) : (x.signalSend signum).Orderly := by
  by_cases hvalid : signum = 0 ∨ Tasks.nsig ≤ signum
  · rwa [signalSend_of_invalid hvalid]
  rw [not_or, not_le] at hvalid
  have h₀ : 0 < signum := Nat.pos_of_ne_zero hvalid.1
  have hpending : ∀ k, 0 < k → k ≤ Tasks.nsig → (x.signalSend signum).pending k =
      (decide (k = signum) || (x.pending k && !discards signum k)) :=
    fun k hk hk' => signalSend_pending h₀ hvalid.2 hk hk' x
  have hstopped : (x.signalSend signum).state = .stopped →
      x.state = .stopped ∧ signum ≠ sigcont ∧ signum ≠ sigkill := by
    rw [signalSend_state_eq h₀ hvalid.2]
    split
    · nofun
    · rename_i hnot
      intro hs
      exact ⟨hs, fun hc => hnot (.inr ⟨hs, .inl hc⟩), fun hc => hnot (.inr ⟨hs, .inr hc⟩)⟩
  refine ⟨?_, ?_, fun hs => ?_, fun hs => ?_⟩
  · rw [hpending _ (by decide) (by decide), hpending _ (by decide) (by decide),
      hpending _ (by decide) (by decide)]
    have hcont := h.cont
    have hstop : stops sigstop = true := by decide
    have htstp : stops sigtstp = true := by decide
    by_cases hc : signum = sigcont
    · have hne₁ : sigstop ≠ sigcont := by decide
      have hne₂ : sigtstp ≠ sigcont := by decide
      simp [hc, discards, hstop, htstp, hne₁, hne₂]
    · by_cases hst : stops signum = true
      · intro hpend
        simp [discards, hst, Ne.symm hc] at hpend
      · have hne₁ : sigstop ≠ signum := fun he => hst (he ▸ hstop)
        have hne₂ : sigtstp ≠ signum := fun he => hst (he ▸ htstp)
        simpa [discards, hst, hc, Ne.symm hc, hne₁, hne₂] using hcont
  · rw [hpending _ (by decide) le_rfl, h.nsig]
    simp only [Bool.false_and, Bool.or_false, decide_eq_false_iff_not]
    omega
  · obtain ⟨hx, -, hkill⟩ := hstopped hs
    rw [hpending _ (by decide) (by decide), h.killed hx]
    simp [Ne.symm hkill]
  · obtain ⟨hx, hcont, -⟩ := hstopped hs
    rw [hpending _ (by decide) (by decide), h.resumed hx]
    simp [Ne.symm hcont]

/-- `SIGCONT` is not pending beside a signal that stops. -/
theorem not_resumed (h : x.Orderly) (hstop : stops signum = true) (hpend : x.pending signum = true) :
    x.pending sigcont = false := by
  rw [Bool.eq_false_iff]
  intro hx
  obtain ⟨h₁, h₂⟩ := h.cont hx
  rcases stops_iff.mp hstop with rfl | rfl
  · exact Bool.false_ne_true (h₁.symm.trans hpend)
  · exact Bool.false_ne_true (h₂.symm.trans hpend)

/-- Draining keeps a task orderly. -/
theorem drain {p : BitVec 32} (h : x.Orderly) (hleft : LeftPending p x) : (drain n p x).1.Orderly := by
  induction n generalizing p x with
  | zero => exact h
  | succ n ih =>
    rw [Tasks.drain]
    split
    · exact h
    rename_i hp
    split
    · exact h
    rename_i hawake
    rw [not_or] at hawake
    obtain ⟨signum, h₀, hle, hbit, hnum, hset, hlow⟩ := lowest_signal hp
    dsimp only
    rw [hnum, hbit]
    have hlost : ∀ k, (clearPending (sigmask signum) x).pending k = true → x.pending k = true := by
      intro k hk
      have hand : (x.pendingSignals &&& ~~~sigmask signum).getLsbD (k - 1) = true := hk
      rw [BitVec.getLsbD_and, Bool.and_eq_true] at hand
      exact hand.1
    have hcleared : (clearPending (sigmask signum) x).Orderly := h.of_awake hawake.2 hlost
    have hclear : ∀ k, 0 < k → k ≠ signum → (clearPending (sigmask signum) x).pending k = x.pending k := by
      intro k hk hne
      rw [clearPending_pending h₀ hle hk]
      simp [hne]
    have hmutable : disposition x (sigmask signum) ≠ .dflt → signum ≠ sigkill := by
      rintro hd rfl
      exact hd (if_pos ((sigmask_immutable_ne_zero h₀ hle).mpr (.inl rfl)))
    cases hd : disposition x (sigmask signum) with
    | dflt =>
      dsimp only
      split
      · exact hcleared
      rename_i hterm
      split
      · -- a task stops: `SIGKILL` would have been taken first
        rename_i hstop
        have hgt : sigkill < signum := by
          rcases stops_iff.mp hstop with rfl | rfl <;> decide
        have hkilled : x.pending sigkill = false := by
          rw [Bool.eq_false_iff]
          intro hx
          exact Bool.false_ne_true ((hlow _ (by decide) hgt).symm.trans (hleft.kill hx))
        have hresumed := h.not_resumed hstop (hleft.pending signum h₀ hset)
        have hne : sigcont ≠ signum := by
          rcases stops_iff.mp hstop with rfl | rfl <;> decide
        refine ⟨hcleared.cont, hcleared.nsig, fun _ => ?_, fun _ => ?_⟩
        · exact (hclear _ (by decide) hgt.ne).trans hkilled
        · exact (hclear _ (by decide) hne).trans hresumed
      · refine ih hcleared (hleft.next h₀ hle ?_ hclear)
        rintro rfl
        exact hterm (by decide)
    | ign => exact ih hcleared (hleft.next h₀ hle (hmutable (by rw [hd]; decide)) hclear)
    | user => exact ih h (hleft.next h₀ hle (hmutable (by rw [hd]; decide)) fun _ _ _ => rfl)
    | handler => exact ih hcleared (hleft.next h₀ hle (hmutable (by rw [hd]; decide)) hclear)

theorem drained (h : x.Orderly) : x.drained.1.Orderly := h.drain ⟨fun _ _ hp => hp, id⟩

end Task.Orderly

/-- What holds of the structs behind `do_exit`, by what holds before: a property of the state and
the pending set that a `SIGCHLD` keeps, and for the task itself also its end. -/
theorem doExit_keeps {P : Task → Prop}
    (hP : ∀ x y : Task, y.state = x.state → y.pendingSignals = x.pendingSignals → P x → P y)
    (hsend : ∀ x, P x → P (x.signalSend sigchld)) (hb : b = a → ∀ x, P x → P { x with state := .zombie })
    (h : doExit fuel a code s = .ok t) (hs : P (s.task b)) : P (t.task b) := by
  have hmodify : ∀ (v : KState) (f : Task → Task) (d : ℕ), (b = d → P (v.task b) → P (f (v.task b))) →
      P (v.task b) → P ((v.modify d f).task b) := by
    intro v f d hf hv
    by_cases hbd : b = d
    · subst hbd
      rw [v.modify_task_self]
      exact hf rfl hv
    · rwa [v.modify_task_of_ne f hbd]
  obtain ⟨v, hv, h⟩ := bind_eq_ok.mp h
  obtain rfl := Except.ok.inj h
  have hbegin : P ((beginExit a code s).task b) := by
    dsimp only [beginExit]
    have hcode : P ((s.modify a fun x => { x with exitCode := code }).task b) :=
      hmodify s _ a (fun _ hx => hP (s.task b) _ rfl rfl hx) hs
    split
    · exact hmodify _ _ _ (fun _ hx => hsend _ hx) hcode
    · exact hcode
  have hlinks := linksOnly_orphan hv
  have hv' : P (v.task b) :=
    hP _ _ hlinks.state (hlinks.field Task.pendingSignals fun _ _ _ _ => rfl) hbegin
  have hmark : P ((v.modify a fun x => { x with state := .zombie }).task b) :=
    hmodify v _ a (fun he hx => hb he _ hx) hv'
  unfold notifyParent
  split
  · exact hmodify _ _ _ (fun _ hx => hsend _ hx) hmark
  · exact hmark

inductive JobOp where
  | register (a signum handler : ℕ)
  | send (a signum : ℕ)
  | dispatch (fuel a : ℕ)

def JobOp.run (s : KState) : JobOp → Kernel KState
  | .register a signum handler => .ok (kernelSignalRegister a signum handler s)
  | .send a signum => .ok (kernelSignalSend a signum s)
  | .dispatch fuel a => kernelSignalDispatch fuel a s

/-- The operation sends `SIGCONT` or `SIGKILL` to the task. -/
def JobOp.Resumes (a : ℕ) : JobOp → Prop
  | .send b signum => b = a ∧ (signum = sigcont ∨ signum = sigkill)
  | _ => False

/-- Runs from tasks with nothing pending. -/
def JobRun (s : KState) : Prop :=
  Reachable (fun s => ∀ a, (s.task a).pendingSignals = 0) (fun s t => ∃ op : JobOp, op.run s = .ok t) s

theorem register_struct {handler : ℕ} : ((kernelSignalRegister a signum handler s).task b).state = (s.task b).state ∧
    ((kernelSignalRegister a signum handler s).task b).pendingSignals = (s.task b).pendingSignals := by
  unfold kernelSignalRegister
  split
  · exact ⟨rfl, rfl⟩
  split
  · exact ⟨rfl, rfl⟩
  · exact ⟨s.modify_field a b _ Task.state rfl, s.modify_field a b _ Task.pendingSignals rfl⟩

/-- What one operation does to one struct. -/
theorem JobOp.keeps {op : JobOp} {P : Task → Prop} (h : op.run s = .ok t)
    (hP : ∀ x y : Task, y.state = x.state → y.pendingSignals = x.pendingSignals → P x → P y)
    (hsend : ∀ signum, (op = .send b signum ∨ signum = sigchld) → ∀ x, P x → P (x.signalSend signum))
    (hdrain : ∀ fuel, op = .dispatch fuel b → P (s.task b) → P (s.task b).drained.1 ∧
      ((s.task b).drained.2 ≠ none → ∀ x, P x → P { x with state := .zombie }))
    (hs : P (s.task b)) : P (t.task b) := by
  cases op with
  | register a signum handler =>
    obtain rfl := Except.ok.inj h
    exact hP _ _ register_struct.1 register_struct.2 hs
  | send a signum =>
    obtain rfl := Except.ok.inj h
    by_cases hba : b = a
    · subst hba
      rw [kernelSignalSend, KState.modify_task_self]
      exact hsend signum (.inl rfl) _ hs
    · rwa [kernelSignalSend, KState.modify_task_of_ne s _ hba]
  | dispatch fuel a =>
    have hd : dispatched fuel a (s.task a).drained s = .ok t := by
      rw [← kernelSignalDispatch_eq]
      exact h
    have hset : P ((s.set a (s.task a).drained.1).task b) := by
      by_cases hba : b = a
      · subst hba
        rw [KState.set, KState.modify_task_self]
        exact (hdrain fuel rfl hs).1
      · rwa [KState.set, KState.modify_task_of_ne s _ hba]
    unfold dispatched at hd
    split at hd
    · obtain rfl := Except.ok.inj hd
      exact hset
    · rename_i signum hsig
      refine doExit_keeps hP (hsend sigchld (.inr rfl)) (fun hba => ?_) hd hset
      subst hba
      exact (hdrain fuel rfl hs).2 (by rw [hsig]; exact Option.some_ne_none _)

theorem JobRun.orderly (h : JobRun s) (a : ℕ) : (s.task a).Orderly := by
  refine Reachable.invariant (I := fun s => ∀ a, (s.task a).Orderly) (fun s hs a => ?_) ?_ h a
  · have hnone : ∀ k, (s.task a).pending k = false := by
      intro k
      rw [Task.pending, hs a]
      exact BitVec.getLsbD_zero
    exact ⟨fun hc => absurd ((hnone _).symm.trans hc) Bool.false_ne_true, hnone _, fun _ => hnone _, fun _ => hnone _⟩
  · rintro s t hs ⟨op, hop⟩ a
    refine op.keeps hop (fun x y hst hp hx => hx.congr hst hp) (fun signum _ x hx => hx.send signum)
      (fun _ _ hx => ⟨hx.drained, fun _ y hy => ?_⟩) (hs a)
    refine hy.of_awake (fun hc => ?_) fun _ hk => hk
    cases hc

/-- A stopped task and the signals that are pending for it. -/
def KState.StoppedWith (s : KState) (a : ℕ) (pending : ℕ → Bool) : Prop :=
  (s.task a).state = .stopped ∧
    ∀ k, 0 < k → k ≤ nsig → stops k = false → pending k = true → (s.task a).pending k = true

theorem JobOp.keeps_stopped {op : JobOp} {pending : ℕ → Bool} (hrun : JobRun s) (h : op.run s = .ok t)
    (hop : ¬op.Resumes a) (hs : s.StoppedWith a pending) : t.StoppedWith a pending := by
  have hcont : pending sigcont = true → False := by
    intro hc
    have := hs.2 sigcont (by decide) (by decide) (by decide) hc
    exact nomatch ((hrun.orderly a).resumed hs.1).symm.trans this
  have hkeeps : (t.task a).state = .stopped ∧ ∀ k, 0 < k → k ≤ nsig → stops k = false → pending k = true →
      (t.task a).pending k = true := by
    refine op.keeps (P := fun x => x.state = .stopped ∧ ∀ k, 0 < k → k ≤ nsig → stops k = false →
      pending k = true → x.pending k = true) h (fun x y hst hp hx => ?_) (fun signum hsig x hx => ?_)
      (fun fuel _ hx => ?_) hs
    · refine ⟨hst.trans hx.1, fun k hk hk' hstop hpk => ?_⟩
      rw [Task.pending, hp]
      exact hx.2 k hk hk' hstop hpk
    · by_cases hvalid : signum = 0 ∨ nsig ≤ signum
      · rwa [signalSend_of_invalid hvalid]
      rw [not_or, not_le] at hvalid
      have h₀ : 0 < signum := Nat.pos_of_ne_zero hvalid.1
      have hne : signum ≠ sigcont ∧ signum ≠ sigkill := by
        rcases hsig with rfl | rfl
        · exact ⟨fun he => hop ⟨rfl, .inl he⟩, fun he => hop ⟨rfl, .inr he⟩⟩
        · decide
      refine ⟨?_, fun k hk hk' hstop hpk => ?_⟩
      · rw [signalSend_state_eq h₀ hvalid.2, hx.1]
        simp [hne.1, hne.2]
      · rw [signalSend_pending h₀ hvalid.2 hk hk', hx.2 k hk hk' hstop hpk]
        -- only a stop discards something else, and `SIGCONT` is not pending
        have hkc : k ≠ sigcont := fun he => hcont (he ▸ hpk)
        simp [discards, hne.1, hkc]
    · have hdrained : (s.task a).drained = (s.task a, none) := by
        rw [Task.drained, drain, if_pos (Or.inr hx.1), ite_self]
      rw [hdrained]
      exact ⟨hx, fun hnone => absurd rfl hnone⟩
  exact hkeeps

/-- The rules of job control in a state of a run. -/
structure JobControl (s : KState) : Prop where
  cont : ∀ a, (s.task a).pending sigcont = true →
    (s.task a).pending sigstop = false ∧ (s.task a).pending sigtstp = false
  nsig : ∀ a, (s.task a).pendingSignals.getLsbD 31 = false
  killed : ∀ a, (s.task a).state = .stopped → (s.task a).pending sigkill = false
  stays : ∀ a (ops : List JobOp) t, (s.task a).state = .stopped → (∀ op ∈ ops, ¬op.Resumes a) →
    ops.foldlM JobOp.run s = .ok t → t.StoppedWith a (s.task a).pending
  resumes : ∀ a signum, (s.task a).state = .stopped → signum = sigcont ∨ signum = sigkill →
    ((kernelSignalSend a signum s).task a).state = .runnable

theorem stopped_until_resumed {pending : ℕ → Bool} {ops : List JobOp} (hrun : JobRun s)
    (hops : ∀ op ∈ ops, ¬op.Resumes a) (h : ops.foldlM JobOp.run s = .ok t) (hs : s.StoppedWith a pending) :
    t.StoppedWith a pending := by
  induction ops generalizing s with
  | nil =>
    obtain rfl := Except.ok.inj h
    exact hs
  | cons op ops ih =>
    rw [List.foldlM_cons] at h
    obtain ⟨u, hu, h⟩ := bind_eq_ok.mp h
    have hu' := op.keeps_stopped hrun hu (hops op List.mem_cons_self) hs
    exact ih (.next hrun ⟨op, hu⟩) (fun o ho => hops o (List.mem_cons_of_mem op ho)) h hu'

/-- Job control holds in every state that sends, registrations and dispatches reach. -/
theorem job_control (s : KState) (h : JobRun s) : JobControl s := by
  refine ⟨fun a => (h.orderly a).cont, fun a => (h.orderly a).nsig, fun a => (h.orderly a).killed,
    fun a ops t hs hops hrun => ?_, fun a signum hs hsig => ?_⟩
  · exact stopped_until_resumed h hops hrun ⟨hs, fun _ _ _ _ hk => hk⟩
  · have hself : (kernelSignalSend a signum s).task a = (s.task a).signalSend signum := s.modify_task_self a _
    have hvalid : 0 < signum ∧ signum < nsig := by
      rcases hsig with rfl | rfl <;> decide
    rw [hself, signalSend_state_eq hvalid.1 hvalid.2, if_pos (.inr ⟨hs, hsig⟩)]

/-- A task stops, and `SIGTERM` arrives while it is stopped. -/
theorem job_control_stopped : ∃ s : KState, (s.task 10).state = .stopped ∧ (s.task 10).pending sigterm = true ∧
    JobControl s := by
  have hsent : JobRun (kernelSignalSend 10 sigtstp bootState) := by
    refine .next (.start fun a => ?_) ⟨.send 10 sigtstp, rfl⟩
    by_cases h₁ : a = kthreaddTask
    · rw [h₁]
      rfl
    by_cases h₂ : a = initTask
    · rw [h₂]
      rfl
    · simp only [bootState, taskInit, Function.update_of_ne h₁, Function.update_of_ne h₂]
  have hdispatched := kernelSignalDispatch_eq 1 10 (kernelSignalSend 10 sigtstp bootState)
  have hrun : JobRun (kernelSignalSend 10 sigterm
      ((kernelSignalSend 10 sigtstp bootState).set 10 ((kernelSignalSend 10 sigtstp bootState).task 10).drained.1)) :=
    .next (.next hsent ⟨.dispatch 1 10, hdispatched⟩) ⟨.send 10 sigterm, rfl⟩
  exact ⟨_, by decide +kernel, by decide +kernel, job_control _ hrun⟩

end HekaOS.Tasks
