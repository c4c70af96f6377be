import HekaOS.SyscallCases
import HekaOS.TaskBirth

/-!
# What one step of the kernel does to the tasks

Sending and acting on signals, scheduling and most system calls leave every task in its place
(`Calm`). What is left is a task that ends, a task that is created, a task that is reaped, and
the switch of the CPU on a tick: `step_cases`.
-/

namespace HekaOS.Tasks
open KernelMemory PointerChain

variable {trigger : Prop} {s t u : KState} {a b c p z fuel n code signum : ℕ} {f : Task → Task}

/-- A struct has kept its links, its exit code, its pid, its stack and whether it is a zombie. It
was neither blocked nor started, unless `trigger` holds. -/
structure Task.Placed (trigger : Prop) (x y : Task) : Prop where
  parent : y.parent = x.parent
  children : y.children = x.children
  sibling : y.sibling = x.sibling
  next : y.next = x.next
  exitCode : y.exitCode = x.exitCode
  zombie : y.state = .zombie ↔ x.state = .zombie
  blocked : y.state = .blocked → x.state = .blocked ∨ trigger
  pid : y.pid = x.pid
  kstack : y.kstack = x.kstack
  isUserspace : y.isUserspace = x.isUserspace
  running : y.state = .running → x.state = .running ∨ trigger

theorem Task.Placed.refl (trigger : Prop) (x : Task) : x.Placed trigger x :=
  ⟨rfl, rfl, rfl, rfl, rfl, Iff.rfl, .inl, rfl, rfl, rfl, .inl⟩

theorem Task.Placed.trans {trigger : Prop} {x y w : Task} (h₁ : x.Placed trigger y)
    (h₂ : y.Placed trigger w) : x.Placed trigger w :=
  ⟨h₂.parent.trans h₁.parent, h₂.children.trans h₁.children, h₂.sibling.trans h₁.sibling,
    h₂.next.trans h₁.next, h₂.exitCode.trans h₁.exitCode, h₂.zombie.trans h₁.zombie,
    fun h => (h₂.blocked h).elim h₁.blocked .inr, h₂.pid.trans h₁.pid, h₂.kstack.trans h₁.kstack,
    h₂.isUserspace.trans h₁.isUserspace, fun h => (h₂.running h).elim h₁.running .inr⟩

theorem Task.Placed.mono {trigger' : Prop} {x y : Task} (h : x.Placed trigger y) (hm : trigger → trigger') :
    x.Placed trigger' y :=
  { h with
    blocked := fun hb => (h.blocked hb).imp_right hm
    running := fun hr => (h.running hr).imp_right hm }

/-- The set of tasks, the pid counter, the scheduler list, the reaper and the task on the CPU
are the same. -/
def SameGlobals (s t : KState) : Prop :=
  t = { s with
    task := t.task
    interruptFlag := t.interruptFlag
    user := t.user
    trace := t.trace }

namespace SameGlobals

theorem trans (h₁ : SameGlobals s t) (h₂ : SameGlobals t u) : SameGlobals s u := by
  unfold SameGlobals at *
  rw [h₂, h₁]

variable (h : SameGlobals s t)
include h

theorem live : t.live = s.live := by rw [h]
theorem taskCounter : t.taskCounter = s.taskCounter := by rw [h]
theorem head : t.taskListHead = s.taskListHead := by rw [h]
theorem initProc : t.initProc = s.initProc := by rw [h]
theorem currentTask : t.currentTask = s.currentTask := by rw [h]
theorem needResched : t.needResched = s.needResched := by rw [h]
theorem nextTask : t.nextTask = s.nextTask := by rw [h]
theorem esp0 : t.esp0 = s.esp0 := by rw [h]

theorem reaper : t.reaper = s.reaper := by
  rw [KState.reaper, h.initProc]
  rfl

end SameGlobals

theorem LinksOnly.globals (h : LinksOnly s t) : SameGlobals s t := by
  unfold SameGlobals
  rw [h.rest]

/-- No task moved, and the same task is on the CPU. -/
structure Calm (trigger : Prop) (s t : KState) : Prop where
  task : ∀ a, (s.task a).Placed trigger (t.task a)
  rest : SameGlobals s t

theorem Calm.refl (trigger : Prop) (s : KState) : Calm trigger s s := ⟨fun _ => .refl _ _, rfl⟩

theorem Calm.trans (h₁ : Calm trigger s t) (h₂ : Calm trigger t u) : Calm trigger s u :=
  ⟨fun a => (h₁.task a).trans (h₂.task a), h₁.rest.trans h₂.rest⟩

/-- No task in use moved. -/
structure CalmLive (trigger : Prop) (s t : KState) : Prop where
  task : ∀ a ∈ s.live, (s.task a).Placed trigger (t.task a)
  rest : SameGlobals s t

theorem Calm.calmLive (h : Calm trigger s t) : CalmLive trigger s t := ⟨fun a _ => h.task a, h.rest⟩

/-- The scheduler list is the same. -/
theorem CalmLive.chain {l : List ℕ} (h : CalmLive trigger s t) (hl : ∀ a ∈ l, a ∈ s.live)
    (hc : Chain s.next s.taskListHead l) : Chain t.next t.taskListHead l := by
  rw [h.rest.head]
  exact hc.congr fun a ha => (h.task a (hl a ha)).next

theorem calm_modify (h : (s.task a).Placed trigger (f (s.task a))) : Calm trigger s (s.modify a f) := by
  refine ⟨fun b => ?_, rfl⟩
  by_cases hb : b = a
  · subst hb
    rw [s.modify_task_self]
    exact h
  · rw [s.modify_task_of_ne f hb]
    exact .refl _ _

/-- A struct changes from one state to another that are both neither `TASK_ZOMBIE` nor newly
`TASK_BLOCKED` or `TASK_RUNNING`. -/
theorem placed_state {x : Task} {st : TaskState} (hx : x.state ≠ .zombie) (hz : st ≠ .zombie)
    (hb : st = .blocked → trigger) (hr : st = .running → trigger) : x.Placed trigger { x with state := st } :=
  ⟨rfl, rfl, rfl, rfl, rfl, ⟨fun h => absurd h hz, fun h => absurd h hx⟩, fun h => .inr (hb h), rfl, rfl, rfl,
    fun h => .inr (hr h)⟩

theorem signalSend_placed (signum : ℕ) (x : Task) : x.Placed trigger (x.signalSend signum) := by
  have hstate := Task.signalSend_state signum x
  obtain ⟨p, st, h⟩ := Task.signalSend_eq signum x
  rw [h] at hstate ⊢
  refine ⟨rfl, rfl, rfl, rfl, rfl, ?_, ?_, rfl, rfl, rfl, ?_⟩
  · rcases hstate with hst | ⟨hst, hx⟩
    · rw [hst]
    · simp only at hst
      rcases hx with hx | hx <;> simp [hst, hx]
  · intro hb
    rcases hstate with hst | ⟨hst, -⟩
    · exact .inl (hst ▸ hb)
    · exact nomatch hst.symm.trans hb
  · intro hr
    rcases hstate with hst | ⟨hst, -⟩
    · exact .inl (hst ▸ hr)
    · exact nomatch hst.symm.trans hr

theorem calm_send : Calm trigger s (kernelSignalSend a signum s) := calm_modify (signalSend_placed _ _)

theorem Quiet.calm (h : Quiet s t) : Calm trigger s t := by
  have hstate : ∀ a, (t.task a).state = (s.task a).state := fun a => h.field Task.state fun _ _ => rfl
  refine ⟨fun a => ⟨?_, ?_, ?_, ?_, ?_, ?_, ?_, ?_, ?_, ?_, ?_⟩, ?_⟩
  · exact h.field Task.parent fun _ _ => rfl
  · exact h.field Task.children fun _ _ => rfl
  · exact h.field Task.sibling fun _ _ => rfl
  · exact h.field Task.next fun _ _ => rfl
  · exact h.field Task.exitCode fun _ _ => rfl
  · rw [hstate]
  · rw [hstate]
    exact .inl
  · exact h.field Task.pid fun _ _ => rfl
  · exact h.field Task.kstack fun _ _ => rfl
  · exact h.field Task.isUserspace fun _ _ => rfl
  · rw [hstate]
    exact .inl
  · unfold SameGlobals
    rw [h.rest]

theorem SameKernel.calm (h : SameKernel s t) : Calm trigger s t := (quiet_same h).calm

theorem calm_interruptFlag (s : KState) (flag : Bool) : Calm trigger s { s with interruptFlag := flag } :=
  ⟨fun _ => .refl _ _, rfl⟩

theorem calm_notifyParent : Calm trigger s (notifyParent a s) := by
  unfold notifyParent
  split
  · exact calm_send
  · exact .refl _ s

/-- A task stores its exit code, hands its children to the reaper and becomes a zombie. Its
parent and a reaper that gets children are woken. -/
def Exits (a : ℕ) (s t : KState) : Prop :=
  ∃ fuel code u v, Calm False (s.modify a fun x => { x with exitCode := code }) u ∧
    orphanChildren fuel a s.reaper fuel u = .ok v ∧
    Calm False (v.modify a fun x => { x with state := .zombie }) t ∧
    (∀ p, (v.task a).parent = some p → (t.task p).state ≠ .blocked) ∧
    ((u.task a).children ≠ none → s.reaper ≠ a → (t.task s.reaper).state ≠ .blocked)

theorem sigchld_ne_blocked : ((kernelSignalSend a sigchld s).task a).state ≠ .blocked := by
  rw [kernelSignalSend, KState.modify_task_self]
  exact Task.signalSend_ne_blocked (by decide) (by decide) _

theorem send_ne_blocked (h : (s.task b).state ≠ .blocked) :
    ((kernelSignalSend a signum s).task b).state ≠ .blocked := by
  rcases kernelSignalSend_state s a signum b with he | ⟨he, -⟩
  · rwa [he]
  · rw [he]
    nofun

theorem calm_beginExit : Calm trigger (s.modify a fun x => { x with exitCode := code }) (beginExit a code s) := by
  dsimp only [beginExit]
  split
  · exact calm_send
  · exact .refl _ _

theorem exits_doExit (h : doExit fuel a code s = .ok t) : Exits a s t := by
  obtain ⟨v, hv, h⟩ := bind_eq_ok.mp h
  obtain rfl := Except.ok.inj h
  refine ⟨fuel, code, _, v, calm_beginExit, hv, calm_notifyParent, fun p hp => ?_, fun hc hr => ?_⟩
  · have hp' : ((v.modify a fun x => { x with state := .zombie }).task a).parent = some p := by
      rw [KState.modify_task_self]
      exact hp
    rw [notifyParent, hp']
    exact sigchld_ne_blocked
  · have hsend : ((beginExit a code s).task s.reaper).state ≠ .blocked := by
      dsimp only [beginExit] at hc ⊢
      split
      · exact sigchld_ne_blocked
      · rename_i hnot
        rw [if_neg hnot] at hc
        exact absurd ⟨hc, hr⟩ hnot
    rw [← (linksOnly_orphan hv).state] at hsend
    have hmark : ((v.modify a fun x => { x with state := .zombie }).task s.reaper).state ≠ .blocked := by
      rwa [KState.modify_task_of_ne v _ hr]
    unfold notifyParent
    split
    · exact send_ne_blocked hmark
    · exact hmark

theorem Exits.globals (h : Exits a s t) : SameGlobals s t := by
  obtain ⟨fuel, code, u, v, hu, hv, ht, -⟩ := h
  have hcode : SameGlobals s (s.modify a fun x => { x with exitCode := code }) := rfl
  have hmark : SameGlobals v (v.modify a fun x => { x with state := .zombie }) := rfl
  exact ((hcode.trans hu.rest).trans (linksOnly_orphan hv).globals).trans (hmark.trans ht.rest)

theorem Calm.modify_exitCode (h : Calm trigger s t) :
    Calm trigger (s.modify a fun x => { x with exitCode := code })
      (t.modify a fun x => { x with exitCode := code }) := by
  refine ⟨fun b => ?_, ?_⟩
  · have hp := h.task b
    by_cases hba : b = a
    · subst hba
      rw [s.modify_task_self, t.modify_task_self]
      exact { hp with exitCode := rfl }
    · rw [s.modify_task_of_ne _ hba, t.modify_task_of_ne _ hba]
      exact hp
  · have := h.rest
    unfold SameGlobals KState.modify at *
    rw [this]

theorem Exits.after (h₁ : Exits a u t) (h₂ : Calm False s u) : Exits a s t := by
  obtain ⟨fuel, code, v, w, hv, hw, ht, hparent, hreaper⟩ := h₁
  rw [h₂.rest.reaper] at hw hreaper
  exact ⟨fuel, code, v, w, h₂.modify_exitCode.trans hv, hw, ht, hparent, hreaper⟩

theorem Exits.interruptFlag (h : Exits a s t) (flag : Bool) : Exits a s { t with interruptFlag := flag } := by
  obtain ⟨fuel, code, v, w, hv, hw, ht, hparent, hreaper⟩ := h
  exact ⟨fuel, code, v, w, hv, hw, ht.trans (calm_interruptFlag t flag), hparent, hreaper⟩

/-- Draining makes no zombie. -/
theorem drained_zombie (x : Task) : x.drained.1.state = .zombie ↔ x.state = .zombie := by
  obtain ⟨p, st, hd, hst⟩ := drain_fst 32 x.pendingSignals x
  rw [Task.drained, hd]
  rcases hst with h | ⟨h, h'⟩ <;> simp [*]

theorem drained_placed (x : Task) : x.Placed trigger x.drained.1 := by
  have hzombie := drained_zombie x
  obtain ⟨p, st, hd, hst⟩ := drain_fst 32 x.pendingSignals x
  rw [Task.drained, hd] at hzombie ⊢
  refine ⟨rfl, rfl, rfl, rfl, rfl, hzombie, fun hb => ?_, rfl, rfl, rfl, fun hr => ?_⟩
  · rcases hst with h | ⟨h, -⟩
    · exact .inl (h ▸ hb)
    · exact nomatch h.symm.trans hb
  · rcases hst with h | ⟨h, -⟩
    · exact .inl (h ▸ hr)
    · exact nomatch h.symm.trans hr

theorem calm_set_drained : Calm trigger s (s.set a (s.task a).drained.1) := calm_modify (drained_placed _)

theorem dispatch_cases (h : kernelSignalDispatch fuel a s = .ok t) :
    Calm False s t ∨ (s.task a).Dies ∧ Exits a s t := by
  rw [kernelSignalDispatch_eq, dispatched] at h
  split at h
  · obtain rfl := Except.ok.inj h
    exact .inl calm_set_drained
  · rename_i sig hsig
    refine .inr ⟨?_, (exits_doExit h).after calm_set_drained⟩
    rw [Task.Dies, hsig]
    exact Option.some_ne_none _

theorem calm_unblock : Calm trigger s (unblock s a) := by
  unfold unblock
  split
  · exact .refl _ s
  · rename_i hb
    rw [not_not] at hb
    exact calm_modify (placed_state (by simp [hb]) nofun nofun nofun)

theorem calm_foldl_unblock (l : List ℕ) : Calm trigger s (l.foldl unblock s) := by
  induction l generalizing s with
  | nil => exact .refl _ s
  | cons a l ih => exact calm_unblock.trans ih

/-- The target of the test trigger is ready to run, and not the task that runs next. -/
theorem faultyTarget_state {next : ℕ} {l : List ℕ} {best : Option ℕ}
    (hbest : ∀ b ∈ best, b ≠ next ∧ (s.task b).state ≠ .zombie) :
    ∀ b ∈ l.foldl (faultyTarget next s) best, b ≠ next ∧ (s.task b).state ≠ .zombie := by
  induction l generalizing best with
  | nil => exact hbest
  | cons a l ih =>
    refine ih fun b hb => ?_
    unfold faultyTarget at hb
    split at hb
    · exact hbest b hb
    rename_i hskip
    split at hb
    · exact hbest b hb
    · rename_i hstate
      have ha : a ≠ next ∧ (s.task a).state ≠ .zombie := by
        refine ⟨fun he => hskip (.inl he), fun h => ?_⟩
        simp [h] at hstate
      split at hb
      · obtain rfl := Option.some.inj hb
        exact ha
      · split at hb
        · obtain rfl := Option.some.inj hb
          exact ha
        · exact hbest b hb

/-- The next completed lap of the list blocks a task. -/
def KState.Armed (s : KState) : Prop := s.blockedMarker = false ∧ s.lapNum + 1 = lapBlockTrigger

/-- The lap accounting of another state. -/
def KState.withLaps (t s : KState) : KState :=
  { t with
    lapAnchor := s.lapAnchor
    lapNum := s.lapNum
    blockedMarker := s.blockedMarker
    unblockedMarker := s.unblockedMarker }

theorem calm_maybeBlock {next : ℕ} (h : maybeBlockFaultyTarget fuel next s = .ok t) :
    Calm (s.blockedMarker = false ∧ s.lapNum = lapBlockTrigger) s (t.withLaps s) := by
  unfold maybeBlockFaultyTarget at h
  split at h
  · obtain rfl := Except.ok.inj h
    exact .refl _ _
  · rename_i htrigger
    obtain ⟨l, -, h⟩ := bind_eq_ok.mp h
    have htarget : ∀ b ∈ l.foldl (faultyTarget next s) none, b ≠ next ∧ (s.task b).state ≠ .zombie :=
      faultyTarget_state nofun
    split at h
    · obtain rfl := Except.ok.inj h
      exact .refl _ _
    · rename_i b hb
      obtain rfl := Except.ok.inj h
      have htrigger' : s.blockedMarker = false ∧ s.lapNum = lapBlockTrigger := by
        rw [not_or, not_not, Bool.not_eq_true] at htrigger
        exact htrigger
      have hmark : Calm (s.blockedMarker = false ∧ s.lapNum = lapBlockTrigger) s
          (s.modify b fun x => { x with state := .blocked }) :=
        calm_modify (placed_state (htarget b hb).2 nofun (fun _ => htrigger') nofun)
      exact hmark

theorem calm_maybeUnblock (h : maybeUnblockFaultyTarget fuel s = .ok t) :
    Calm trigger s (t.withLaps s) := by
  unfold maybeUnblockFaultyTarget at h
  split at h
  · obtain rfl := Except.ok.inj h
    exact .refl _ _
  · obtain ⟨l, -, h⟩ := bind_eq_ok.mp h
    obtain rfl := Except.ok.inj h
    have hfold : Calm trigger s (l.foldl unblock s) := calm_foldl_unblock l
    refine ⟨hfold.task, ?_⟩
    have := hfold.rest
    unfold SameGlobals KState.withLaps at *
    rw [this]

theorem SameGlobals.withLaps (h : SameGlobals s (t.withLaps s)) (w : KState) :
    SameGlobals (s.withLaps w) (t.withLaps w) := by
  have ht := congrArg (fun v => v.withLaps w) h
  exact ht

theorem calm_countLap {next : ℕ} (h : countLap fuel next s = .ok t) : Calm s.Armed s (t.withLaps s) := by
  unfold countLap at h
  split at h
  · obtain rfl := Except.ok.inj h
    exact .refl _ _
  split at h
  · obtain ⟨u, hu, h⟩ := bind_eq_ok.mp h
    have hblock : Calm s.Armed { s with lapNum := s.lapNum + 1 } _ := calm_maybeBlock hu
    have hunblock : Calm s.Armed u (t.withLaps u) := calm_maybeUnblock h
    have hrest := (hblock.rest.withLaps s).trans (hunblock.rest.withLaps s)
    exact ⟨fun a => (hblock.task a).trans (hunblock.task a), hrest⟩
  · obtain rfl := Except.ok.inj h
    exact .refl _ _

theorem foldl_unblock_state (l : List ℕ) : ((l.foldl unblock s).task b).state = (s.task b).state ∨
    ((l.foldl unblock s).task b).state = .runnable ∧ (s.task b).state = .blocked := by
  induction l generalizing s with
  | nil => exact .inl rfl
  | cons a l ih =>
    have hstep : ((unblock s a).task b).state = (s.task b).state ∨
        ((unblock s a).task b).state = .runnable ∧ (s.task b).state = .blocked := by
      unfold unblock
      split
      · exact .inl rfl
      · rename_i hblocked
        rw [not_not] at hblocked
        by_cases hba : b = a
        · subst hba
          rw [s.modify_task_self]
          exact .inr ⟨rfl, hblocked⟩
        · rw [s.modify_task_of_ne _ hba]
          exact .inl rfl
    rcases ih (s := unblock s a) with h | ⟨h, hb⟩
    · rw [List.foldl_cons, h]
      exact hstep
    · rcases hstep with hs | ⟨hs, -⟩
      · exact .inr ⟨h, hs ▸ hb⟩
      · exact nomatch hs.symm.trans hb

theorem maybeBlock_state {next : ℕ} (h : maybeBlockFaultyTarget fuel next s = .ok t) :
    (t.task b).state = (s.task b).state ∨ (t.task b).state = .blocked ∧ b ≠ next := by
  unfold maybeBlockFaultyTarget at h
  split at h
  · obtain rfl := Except.ok.inj h
    exact .inl rfl
  · obtain ⟨l, -, h⟩ := bind_eq_ok.mp h
    have htarget : ∀ c ∈ l.foldl (faultyTarget next s) none, c ≠ next ∧ (s.task c).state ≠ .zombie :=
      faultyTarget_state nofun
    split at h
    · obtain rfl := Except.ok.inj h
      exact .inl rfl
    · rename_i c hc
      obtain rfl := Except.ok.inj h
      by_cases hbc : b = c
      · subst hbc
        right
        constructor
        · exact congrArg Task.state (Function.update_self b _ s.task)
        · exact (htarget b hc).1
      · left
        exact congrArg Task.state (Function.update_of_ne hbc _ s.task)

/-- The lap accounting starts no task, and it changes the task that runs next only to wake it. -/
theorem countLap_state {next : ℕ} (h : countLap fuel next s = .ok t) :
    (t.task b).state = (s.task b).state ∨
      (t.task b).state ≠ .running ∧ (b = next → (s.task b).state = .blocked) := by
  unfold countLap at h
  split at h
  · obtain rfl := Except.ok.inj h
    exact .inl rfl
  split at h
  · obtain ⟨u, hu, h⟩ := bind_eq_ok.mp h
    have hblock : (u.task b).state = (s.task b).state ∨ (u.task b).state = .blocked ∧ b ≠ next :=
      maybeBlock_state (s := { s with lapNum := s.lapNum + 1 }) hu
    have hunblock : (t.task b).state = (u.task b).state ∨
        (t.task b).state = .runnable ∧ (u.task b).state = .blocked := by
      unfold maybeUnblockFaultyTarget at h
      split at h
      · obtain rfl := Except.ok.inj h
        exact .inl rfl
      · obtain ⟨l, -, h⟩ := bind_eq_ok.mp h
        obtain rfl := Except.ok.inj h
        exact foldl_unblock_state l
    rcases hunblock with ht | ⟨ht, hwoken⟩
    · rcases hblock with hb | ⟨hb, hne⟩
      · exact .inl (ht.trans hb)
      · exact .inr ⟨by rw [ht, hb]; nofun, fun he => absurd he hne⟩
    · refine .inr ⟨by rw [ht]; nofun, fun he => ?_⟩
      rcases hblock with hb | ⟨-, hne⟩
      · exact hb.symm.trans hwoken
      · exact absurd he hne
  · obtain rfl := Except.ok.inj h
    exact .inl rfl

/-- The lap accounting does not touch the task that runs next. -/
theorem countLap_running {next : ℕ} (hnext : (s.task next).state = .running)
    (h : countLap fuel next s = .ok t) : (t.task next).state = .running := by
  rcases countLap_state (b := next) h with hsame | ⟨-, hblocked⟩
  · exact hsame.trans hnext
  · exact nomatch hnext.symm.trans (hblocked rfl)

theorem calm_yieldCurrent : Calm trigger s (yieldCurrent s) := by
  unfold yieldCurrent
  split
  · rename_i hrun
    have hne : (s.task s.currentTask).state ≠ .zombie := fun hz => nomatch hrun.symm.trans hz
    exact calm_modify (placed_state hne nofun nofun nofun)
  · exact .refl _ s

theorem calm_refillQuantum : Calm trigger s (refillQuantum s) :=
  calm_modify ⟨rfl, rfl, rfl, rfl, rfl, Iff.rfl, .inl, rfl, rfl, rfl, .inl⟩

theorem calm_spendTick : Calm trigger s (spendTick s) :=
  calm_modify ⟨rfl, rfl, rfl, rfl, rfl, Iff.rfl, .inl, rfl, rfl, rfl, .inl⟩

theorem nextOrHead_mem {l : List ℕ} (hl : Chain s.next s.taskListHead l) (ha : a ∈ l)
    (h : nextOrHead s a = some b) : b ∈ l := by
  unfold nextOrHead at h
  cases hn : s.next a with
  | none =>
    rw [hn, Option.none_or] at h
    exact hl.mem_of_head h
  | some c =>
    rw [hn, Option.some_or] at h
    obtain rfl := Option.some.inj h
    exact hl.mem_of_next ha hn

/-- The task that is picked is the current one or runnable. -/
theorem pickLoop_ok {start : ℕ} (h : pickLoop s start n a = .ok b) :
    b = s.currentTask ∨ (s.task b).state = .runnable := by
  induction n generalizing a with
  | zero => exact nomatch h
  | succ n ih =>
    rw [pickLoop] at h
    split at h
    · rename_i hrun
      obtain rfl := Except.ok.inj h
      exact .inr hrun.2
    split at h
    · exact nomatch h
    split at h
    · obtain rfl := Except.ok.inj h
      exact .inl rfl
    · exact ih h

theorem pickNextTask_ok (h : pickNextTask fuel s = .ok b) :
    b = s.currentTask ∨ (s.task b).state = .runnable := by
  unfold pickNextTask at h
  split at h
  · exact nomatch h
  · exact pickLoop_ok h

/-- The loop that picks a task stays on the scheduler list. -/
theorem pickLoop_mem {start : ℕ} {l : List ℕ} (hl : Chain s.next s.taskListHead l)
    (hcur : s.currentTask ∈ l) (ha : a ∈ l) (h : pickLoop s start n a = .ok b) : b ∈ l := by
  induction n generalizing a with
  | zero => exact nomatch h
  | succ n ih =>
    rw [pickLoop] at h
    split at h
    · obtain rfl := Except.ok.inj h
      exact ha
    split at h
    · exact nomatch h
    · rename_i c hc
      split at h
      · obtain rfl := Except.ok.inj h
        exact hcur
      · exact ih (nextOrHead_mem hl ha hc) h

theorem pickNextTask_mem {l : List ℕ} (hl : Chain s.next s.taskListHead l) (hcur : s.currentTask ∈ l)
    (h : pickNextTask fuel s = .ok b) : b ∈ l := by
  unfold pickNextTask at h
  split at h
  · exact nomatch h
  · rename_i start hstart
    exact pickLoop_mem hl hcur (nextOrHead_mem hl hcur hstart) h

theorem yieldCurrent_state (h : (s.task b).state = .runnable) :
    ((yieldCurrent s).task b).state = .runnable := by
  unfold yieldCurrent
  split
  · by_cases hb : b = s.currentTask
    · rw [hb, KState.modify_task_self]
    · rw [KState.modify_task_of_ne s _ hb, h]
  · exact h

/-- A task that yields is not running any more, and no other changes its state. -/
theorem yieldCurrent_running (h : ((yieldCurrent s).task b).state = .running) :
    b ≠ s.currentTask ∧ (s.task b).state = .running := by
  unfold yieldCurrent at h
  split at h
  · by_cases hb : b = s.currentTask
    · rw [hb, KState.modify_task_self] at h
      cases h
    · rw [KState.modify_task_of_ne s _ hb] at h
      exact ⟨hb, h⟩
  · rename_i hidle
    refine ⟨fun hb => hidle ?_, h⟩
    rw [KState.current, ← hb]
    exact h

/-- The rest of a tick behind the draining of signals: the tasks stay in place and the CPU goes
to one of the scheduler list. Nobody else is started, and `tss.esp0` follows the CPU. -/
structure Switched (s t : KState) : Prop where
  calm : Calm True s { t.withLaps s with
    currentTask := s.currentTask
    needResched := s.needResched
    nextTask := s.nextTask
    esp0 := s.esp0 }
  settled : t.needResched = false
  awake : (t.task t.currentTask).state = .blocked →
    t.currentTask = s.currentTask ∧ (s.task s.currentTask).state = .blocked
  mem : ∀ l, Chain s.next s.taskListHead l → (∀ a ∈ l, a ∈ s.live) → s.currentTask ∈ l → t.currentTask ∈ l
  blocked : ∀ a, (t.task a).state = .blocked → (s.task a).state = .blocked ∨ s.Armed
  running : ∀ a, (t.task a).state = .running → a ≠ t.currentTask →
    (s.task a).state = .running ∧ (a = s.currentTask → t.currentTask = s.currentTask)
  esp0 : t.esp0 = if t.currentTask ≠ s.currentTask ∧ (s.task t.currentTask).isUserspace then
    (s.task t.currentTask).kstack + kstackPages * pageSize else s.esp0
  zombie : (t.task t.currentTask).state = .zombie → t.currentTask = s.currentTask

theorem switched_contextSwitch (hcalm : Calm False s t) (hs : s.needResched = false) :
    Switched s { contextSwitch t with interruptFlag := true } := by
  have ht : t.needResched = false := hcalm.rest.needResched.trans hs
  have hkeep : contextSwitch t = t := by rw [contextSwitch, ht, if_neg Bool.false_ne_true]
  have hcur := hcalm.rest.currentTask
  rw [hkeep]
  refine ⟨⟨fun a => (hcalm.task a).mono False.elim, ?_⟩, ht, fun hb => ?_,
    fun l _ _ hmem => hcur ▸ hmem, fun a ha => .inl ?_, fun a ha _ => ⟨?_, fun _ => hcur⟩, ?_, fun _ => hcur⟩
  · unfold SameGlobals
    rw [hcalm.rest]
    rfl
  · exact ⟨hcur, ((hcalm.task _).blocked (hcur ▸ hb)).resolve_right id⟩
  · exact ((hcalm.task a).blocked ha).resolve_right id
  · exact ((hcalm.task a).running ha).resolve_right id
  · rw [if_neg fun h => h.1 hcur]
    exact hcalm.rest.esp0

theorem Calm.armed (h : Calm trigger s t) : t.Armed ↔ s.Armed := by
  unfold KState.Armed
  rw [h.rest]

theorem switched_reschedule (hcalm : Calm False s u) (hs : s.needResched = false)
    (h : reschedule fuel u = .ok t) : Switched s { contextSwitch t with interruptFlag := true } := by
  obtain ⟨next, hpick, h⟩ := bind_eq_ok.mp h
  have hrefill : Calm False s (refillQuantum u) := hcalm.trans calm_refillQuantum
  generalize refillQuantum u = v at h hpick hrefill
  split at h
  · obtain rfl := Except.ok.inj h
    exact switched_contextSwitch hrefill hs
  · rename_i hne
    have hcur := hrefill.rest.currentTask
    rw [hcur] at hne
    have hyield : Calm False s (yieldCurrent v) := hrefill.trans calm_yieldCurrent
    have hrun := yieldCurrent_state ((pickNextTask_ok hpick).resolve_left fun he => hne (he.trans hcur))
    have hyielded : ∀ a, ((yieldCurrent v).task a).state = .running → a ≠ s.currentTask ∧ (s.task a).state = .running := by
      intro a ha
      obtain ⟨hac, hav⟩ := yieldCurrent_running ha
      exact ⟨hcur ▸ hac, ((hrefill.task a).running hav).resolve_right id⟩
    generalize yieldCurrent v = w at h hyield hrun hyielded
    have hstart : Calm True { w with nextTask := some next, needResched := true, esp0 := (startTask next w).esp0 }
        (startTask next w) := by
      refine calm_modify (s := { w with
          nextTask := some next
          needResched := true
          esp0 := (startTask next w).esp0 }) (a := next)
        (f := fun x => { x with state := .running }) (placed_state ?_ nofun nofun fun _ => trivial)
      exact fun hz => nomatch hrun.symm.trans hz
    have hstarted : ∀ a, a ≠ next → (startTask next w).task a = w.task a :=
      fun a ha => Function.update_of_ne ha _ w.task
    have hrunning : ((startTask next w).task next).state = .running := by
      simp only [startTask, KState.modify_task_self]
    have hlap := calm_countLap h
    have hlapped := countLap_running hrunning h
    have harmed : (startTask next w).Armed ↔ s.Armed := hyield.armed
    have hgo : contextSwitch t = { t with currentTask := next, needResched := false } := by
      have hresched : t.needResched = true := hlap.rest.needResched
      have hnext : t.nextTask = some next := hlap.rest.nextTask
      rw [contextSwitch, if_pos hresched, hnext]
      rfl
    rw [hgo]
    refine ⟨⟨fun a => ?_, ?_⟩, rfl, fun hb => ?_, fun l hl hlive hmem => ?_, fun a ha => ?_, fun a ha hanext => ?_,
      ?_, fun hz => ?_⟩
    · exact (((hyield.task a).mono False.elim).trans (hstart.task a)).trans ((hlap.task a).mono fun _ => trivial)
    · have hswitch := congrArg (fun x : KState => { x.withLaps s with
        currentTask := s.currentTask
        needResched := s.needResched
        nextTask := s.nextTask
        esp0 := s.esp0
        interruptFlag := true }) hlap.rest
      unfold SameGlobals
      refine hswitch.trans ?_
      dsimp only [KState.withLaps, startTask, KState.modify]
      rw [hyield.rest]
    · exact nomatch hlapped.symm.trans hb
    · exact pickNextTask_mem (hrefill.calmLive.chain hlive hl) (hcur ▸ hmem) hpick
    · refine ((hlap.task a).blocked ha).imp (fun hb => ?_) harmed.mp
      have hanext : a ≠ next := by
        rintro rfl
        exact nomatch hrunning.symm.trans hb
      rw [hstarted a hanext] at hb
      exact ((hyield.task a).blocked hb).resolve_right id
    · have hw : (w.task a).state = .running := by
        rcases countLap_state (b := a) h with hsame | ⟨hidle, -⟩
        · rw [← hstarted a hanext, ← hsame]
          exact ha
        · exact absurd ha hidle
      obtain ⟨hac, has⟩ := hyielded a hw
      exact ⟨has, fun he => absurd he hac⟩
    · have hesp : t.esp0 = (startTask next w).esp0 := hlap.rest.esp0
      have hplaced := hyield.task next
      refine hesp.trans ?_
      dsimp only [startTask]
      rw [hplaced.isUserspace, hplaced.kstack, hyield.rest.esp0]
      simp only [ne_eq, hne, not_false_eq_true, true_and]
    · exact nomatch hlapped.symm.trans hz

theorem drainCurrent_cases (h : drainCurrent fuel s = .ok t) :
    Calm False s t ∨ s.current.Dies ∧ Exits s.currentTask s t := by
  unfold drainCurrent at h
  split at h
  · exact dispatch_cases h
  · obtain rfl := Except.ok.inj h
    exact .inl (.refl _ s)

theorem tick_cases (hs : s.needResched = false) (h : tick fuel s = .ok t) :
    ∃ u, (Calm False s u ∨ s.current.Dies ∧ Exits s.currentTask s u) ∧ Switched u t := by
  obtain ⟨v, hv, h⟩ := bind_eq_ok.mp h
  obtain rfl := Except.ok.inj h
  obtain ⟨u, hu, hv⟩ := bind_eq_ok.mp hv
  have hflag : Calm False s { s with interruptFlag := false } := calm_interruptFlag s false
  have hdrain : Calm False s u ∨ s.current.Dies ∧ Exits s.currentTask s u := by
    rcases drainCurrent_cases hu with hcalm | ⟨hdies, hexits⟩
    · exact .inl (hflag.trans hcalm)
    · exact .inr ⟨hdies, hexits.after hflag⟩
  have hsettled : u.needResched = false := by
    rcases hdrain with hcalm | ⟨-, hexits⟩
    · exact hcalm.rest.needResched.trans hs
    · exact hexits.globals.needResched.trans hs
  refine ⟨u, hdrain, ?_⟩
  split at hv
  · exact switched_reschedule (.refl _ u) hsettled hv
  split at hv
  · obtain rfl := Except.ok.inj hv
    exact switched_contextSwitch calm_spendTick hsettled
  · exact switched_reschedule calm_spendTick hsettled hv

theorem Beside.calm {env : SpawnEnv} (h : Beside env.kmalloc s t) (hfresh : env.Fresh s) :
    CalmLive trigger s t := by
  refine ⟨fun a ha => ?_, ?_⟩
  · rw [h.task a fun he => hfresh a he ha]
    exact .refl _ _
  · unfold SameGlobals
    rw [h.rest]

theorem unlinkTask_rest (h : unlinkTask fuel a s = .ok t) :
    t = { s with task := t.task, taskListHead := t.taskListHead } := by
  unfold unlinkTask at h
  split at h
  · obtain rfl := Except.ok.inj h
    rfl
  · obtain ⟨prev, -, h⟩ := bind_eq_ok.mp h
    cases prev <;> obtain rfl := Except.ok.inj h <;> rfl

theorem taskReap_rest (h : taskReap fuel a s = .ok t) : t = { s with
    task := t.task
    taskListHead := t.taskListHead
    live := s.live.erase a
    trace := t.trace } := by
  obtain ⟨u, hu, h⟩ := bind_eq_ok.mp h
  obtain ⟨v, hv, h⟩ := bind_eq_ok.mp h
  obtain rfl := Except.ok.inj h
  obtain ⟨tr, hr⟩ := releaseTask_eq a v
  rw [hr, unlinkTask_rest hv, (linksOnly_detach hu).rest]

/-- A new task was put under `p` and in front of the scheduler list. -/
structure Born (p c : ℕ) (s t : KState) : Prop where
  fresh : c ∉ s.live
  run : ∃ pid n u, Blank c pid { s with taskCounter := n } u ∧ t = { linkTask c (taskAddChild p c u) with
    initProc := t.initProc
    interruptFlag := t.interruptFlag }

theorem Born.rest (h : Born p c s t) : t = { s with
    task := t.task
    taskCounter := t.taskCounter
    taskListHead := some c
    initProc := t.initProc
    interruptFlag := t.interruptFlag
    live := insert c s.live
    trace := t.trace } := by
  obtain ⟨pid, n, u, hu, ht⟩ := h.run
  have hadd : LinksOnly u (taskAddChild p c u) := linksOnly_addChild
  rw [ht, linkTask, hadd.rest, hu.rest]
  rfl

theorem Born.state (h : Born p c s t) : (t.task c).state = .runnable := by
  obtain ⟨pid, n, u, hu, ht⟩ := h.run
  have hadd : LinksOnly u (taskAddChild p c u) := linksOnly_addChild
  rw [ht]
  change ((linkTask c (taskAddChild p c u)).task c).state = _
  rw [linkTask_field Task.state fun _ _ => rfl, hadd.state, hu.state]

/-- A new task carries the next pid of the counter, or the reserved one of init. -/
inductive Numbered (op : KOp) (c : ℕ) (s t : KState) : Prop where
  | claimed (hop : op.inits = false) (hroom : s.taskCounter < maxProc - 1) (hcount : t.taskCounter = s.taskCounter + 1)
      (hpid : (t.task c).pid = s.taskCounter + 1) (hinit : t.initProc = s.initProc)
  | reserved (hop : op.inits = true) (hcount : t.taskCounter = s.taskCounter) (hpid : (t.task c).pid = initPid)
      (hnone : s.initProc = none) (hinit : t.initProc = some c)

theorem Blank.born_pid {v : KState} (h : Blank c n v u)
    (ht : t = { linkTask c (taskAddChild p c u) with
      initProc := t.initProc
      interruptFlag := t.interruptFlag }) : (t.task c).pid = n ∧ t.taskCounter = v.taskCounter := by
  have hadd : LinksOnly u (taskAddChild p c u) := linksOnly_addChild
  rw [ht]
  constructor
  · change ((linkTask c (taskAddChild p c u)).task c).pid = n
    rw [linkTask_field Task.pid fun _ _ => rfl, hadd.field Task.pid fun _ _ _ _ => rfl, h.pid]
  · change (taskAddChild p c u).taskCounter = v.taskCounter
    rw [hadd.rest, h.rest]

/-- The kinds of things a step can do. -/
inductive StepCase (op : KOp) (s t : KState) : Prop where
  | calm (h : CalmLive False s t)
  | blocks (hscan : ∃ first fuel wstatus, op = .waitRound first fuel wstatus ∧
      ¬(first ∧ s.current.children = none ∧ some s.currentTask ≠ s.initProc)) (h : t = blockCurrent s)
  | exits (a : ℕ) (hends : op.Ends s a) (hlisted : Listed s a ∨ a = s.currentTask) (h : Exits a s t)
  | switched (u : KState) (htick : ∃ fuel, op = .tick fuel)
      (hu : Calm False s u ∨ op.Ends s s.currentTask ∧ Exits s.currentTask s u) (h : Switched u t)
  | born (p c : ℕ) (hp : op.Bears s p) (h : Born p c s t)
      (hinit : t.initProc = s.initProc ∨ t.initProc = some c ∧ s.initProc = none ∧ p = initTask)
      (hnum : Numbered op c s t)
  | reaped (z fuel : ℕ) (u : KState) (hz : op.Reaps s z) (hu : SameKernel s u)
      (h : taskReap fuel z u = .ok t)

theorem SpawnCase.step {op : KOp} {env : SpawnEnv} (h : SpawnCase env p s t) (hfresh : env.Fresh s)
    (hp : op.Bears s p) (hop : op.inits = false) : StepCase op s t := by
  cases h with
  | failed h => exact .calm (h.calm hfresh)
  | born c u hroom hc hu ht =>
    have hinit : t.initProc = s.initProc := by
      rw [ht]
      change (taskAddChild p c u).initProc = _
      rw [linksOnly_addChild.globals.initProc, hu.rest]
      rfl
    have ht' : t = { linkTask c (taskAddChild p c u) with
        initProc := t.initProc
        interruptFlag := t.interruptFlag } := by rw [ht]
    obtain ⟨hpid, hcount⟩ := hu.born_pid ht'
    exact .born p c hp ⟨hfresh c hc, _, _, u, hu, ht'⟩ (.inl hinit) (.claimed hop hroom hcount hpid hinit)

theorem syscall_step {env : SysEnv} {frame : TrapFrame} (hallowed : (KOp.syscall env frame).Allowed s)
    (h : (KOp.syscall env frame).run s = some t) : StepCase (.syscall env frame) s t := by
  obtain ⟨hfresh, hwait⟩ := hallowed
  have hflag : Calm False s { s with interruptFlag := false } := calm_interruptFlag s false
  have hback : ∀ v : KState, Calm False v { v with interruptFlag := true } := fun v => calm_interruptFlag v true
  cases syscall_cases hwait h with
  | exit hn hu ht =>
    subst ht
    refine .exits s.currentTask ?_ (.inr rfl) (((exits_doExit hu).after hflag).interruptFlag true)
    simp only [KOp.Ends, hn]
  | fork hn ht =>
    have hfresh' : env.spawn.Fresh { s with interruptFlag := false } := hfresh
    cases taskFork_cases hfresh' with
    | failed h =>
      rw [ht]
      have hfail : CalmLive False { s with interruptFlag := false } _ := h.calm hfresh'
      exact .calm ⟨hfail.task, (hflag.rest.trans hfail.rest).trans (hback _).rest⟩
    | born c u hroom hc hu hborn =>
      have hblank : Blank c (s.taskCounter + 1) s.claimPid { u with interruptFlag := s.interruptFlag } :=
        ⟨hu.task, hu.state, hu.children, hu.pid, by rw [hu.rest]; rfl⟩
      have hinit : (taskAddChild s.currentTask c u).initProc = s.initProc := by
        rw [linksOnly_addChild.globals.initProc, hu.rest]
        rfl
      rw [ht, hborn]
      obtain ⟨hpid, hcount⟩ := hu.born_pid (t := { linkTask c (taskAddChild s.currentTask c u) with
        interruptFlag := true }) rfl
      exact .born s.currentTask c ⟨hn, rfl⟩ ⟨hfresh c hc, _, _, _, hblank, rfl⟩ (.inl hinit)
        (.claimed rfl hroom hcount hpid hinit)
  | kill hn hu ht =>
    subst ht
    rcases sysKill_cases hu with rfl | ⟨target, rfl⟩ | ⟨htarget, hd⟩
    · exact .calm (hflag.trans (hback _)).calmLive
    · exact .calm (hflag.trans (calm_send.trans (hback _))).calmLive
    · rcases dispatch_cases hd with hcalm | ⟨hdies, hexits⟩
      · exact .calm (hflag.trans (calm_send.trans (hcalm.trans (hback _)))).calmLive
      · refine .exits s.currentTask ?_ (.inr rfl) ((hexits.after (hflag.trans calm_send)).interruptFlag true)
        simp only [KOp.Ends, hn]
        rw [kernelSignalSend, KState.modify_task_self] at hdies
        exact ⟨trivial, htarget, hdies⟩
  | quiet h => exact .calm h.calm.calmLive

theorem step_cases {op : KOp} (hs : s.needResched = false) (h : KStep op s t) : StepCase op s t := by
  obtain ⟨hallowed, hrun⟩ := h
  cases op with
  | execInitFn env size =>
    obtain rfl := Option.some.inj hrun
    obtain ⟨hfresh, hnone⟩ := hallowed
    rcases execInitFn_cases size hfresh with ⟨u, hu, h⟩ | ⟨c, u, hc, hu, h⟩
    · have hcalm : CalmLive False s u := hu.calm hfresh
      have hinit : u.initProc = none := hcalm.rest.initProc.trans hnone
      have hsame : ({ u with initProc := none } : KState) = u := by rw [← hinit]
      rw [h, hsame]
      exact .calm hcalm
    · rw [h]
      obtain ⟨hpid, hcount⟩ := hu.born_pid (t := { linkTask c (taskAddChild initTask c u) with
        initProc := some c }) rfl
      exact .born initTask c rfl ⟨hfresh c hc, _, _, u, hu, rfl⟩ (.inr ⟨rfl, hnone, rfl⟩)
        (.reserved rfl hcount hpid hnone rfl)
  | execFn env addr size =>
    obtain rfl := Option.some.inj hrun
    exact (execFn_cases hallowed).step hallowed rfl rfl
  | execUserFn env size =>
    obtain rfl := Option.some.inj hrun
    rcases execUserFn_cases hallowed with h | ⟨p, hp, h⟩
    · exact .calm (h.calm hallowed)
    · exact h.step hallowed hp rfl
  | syscall env frame => exact syscall_step hallowed hrun
  | waitRound first fuel wstatus =>
    rcases waitRound_cases hrun with ⟨-, -, -, rfl⟩ | ⟨hne, -, rfl⟩ | ⟨zombie, u, hscan, hu, hreap⟩
    · exact .calm (Calm.refl _ _).calmLive
    · exact .blocks ⟨first, fuel, wstatus, rfl, hne⟩ rfl
    · exact .reaped zombie fuel u hscan hu hreap
  | fault signum =>
    obtain rfl := Option.some.inj hrun
    exact .calm calm_send.calmLive
  | send b signum =>
    obtain rfl := Option.some.inj hrun
    exact .calm calm_send.calmLive
  | register b signum handler =>
    obtain rfl := Option.some.inj hrun
    exact .calm quiet_register.calm.calmLive
  | dispatch fuel b =>
    rcases dispatch_cases (toOption_eq_some.mp hrun) with hcalm | ⟨hdies, hexits⟩
    · exact .calm hcalm.calmLive
    · exact .exits b ⟨rfl, hdies⟩ (.inl hallowed) hexits
  | doExit fuel b code => exact .exits b rfl (.inl hallowed) (exits_doExit (toOption_eq_some.mp hrun))
  | reap fuel zombie => exact .reaped zombie fuel s rfl rfl (toOption_eq_some.mp hrun)
  | tick fuel =>
    obtain ⟨u, hu, h⟩ := tick_cases hs (toOption_eq_some.mp hrun)
    refine .switched u ⟨fuel, rfl⟩ ?_ h
    rcases hu with hcalm | ⟨hdies, hexits⟩
    · exact .inl hcalm
    · exact .inr ⟨⟨rfl, hdies⟩, hexits⟩
  | deliver frame =>
    obtain rfl := Option.some.inj hrun
    exact .calm quiet_deliver.calm.calmLive
  | scribble b junk =>
    obtain rfl := Option.some.inj hrun
    refine .calm ⟨fun a ha => ?_, rfl⟩
    have hne : a ≠ b := fun he => hallowed (he ▸ ha)
    rw [KState.set, KState.modify_task_of_ne s _ hne]
    exact .refl _ _

/-- No request to switch is left behind an operation. -/
theorem needResched_step {op : KOp} (hs : s.needResched = false) (h : KStep op s t) :
    t.needResched = false := by
  cases step_cases hs h with
  | calm h => exact h.rest.needResched.trans hs
  | blocks hscan h =>
    rw [h]
    exact hs
  | exits a hends hlisted h => exact h.globals.needResched.trans hs
  | switched u htick hu h => exact h.settled
  | born p c hp h hinit hnum => rw [h.rest, hs]
  | reaped z fuel u hz hu h => rw [taskReap_rest h, hu, hs]

/-- A task that is new behind a step is ready to run. -/
theorem new_state_of_step {op : KOp} (hs : s.needResched = false) (h : KStep op s t) (ha : a ∈ t.live)
    (ha' : a ∉ s.live) : (t.task a).state = .runnable := by
  have hborn : ∀ {p c : ℕ}, Born p c s t → (t.task a).state = .runnable := by
    intro p c h
    rw [h.rest] at ha
    rcases Finset.mem_insert.mp ha with rfl | ha
    · exact h.state
    · exact absurd ha ha'
  have hsame : t.live = s.live → (t.task a).state = .runnable := fun h => absurd (h ▸ ha) ha'
  cases step_cases hs h with
  | calm h => exact hsame h.rest.live
  | blocks hscan h => exact hsame (by rw [h]; rfl)
  | exits b hends hlisted h => exact hsame h.globals.live
  | switched u htick hu h =>
    refine hsame (h.calm.rest.live.trans ?_)
    rcases hu with hcalm | ⟨-, hexits⟩
    · exact hcalm.rest.live
    · exact hexits.globals.live
  | born p c hp h hinit hnum => exact hborn h
  | reaped z fuel u hz hu h =>
    rw [taskReap_rest h, hu] at ha
    exact absurd (Finset.mem_of_mem_erase ha) ha'

end HekaOS.Tasks
