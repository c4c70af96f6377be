import HekaOS.StrayStores

/-!
# What a zombie keeps

A zombie waits for its parent with its exit code and an empty list of children. `Keeps z`
relates two states between which nothing that concerns a zombie `z` was changed; every
function of the kernel keeps every task but the ones it is called for.
-/

namespace HekaOS.Tasks
open KernelMemory PointerChain TransitionSystem

variable {s t u : KState} {a b c p r z fuel n code signum : ℕ} {f : Task → Task}

/-- A zombie without children stays as it is, and a new zombie has no children. -/
structure Keeps (z : ℕ) (s t : KState) : Prop where
  frozen : (s.task z).state = .zombie → (s.task z).children = none →
    (t.task z).state = .zombie ∧ (t.task z).exitCode = (s.task z).exitCode ∧ (t.task z).children = none
  fresh : (t.task z).state = .zombie → (s.task z).state = .zombie ∨ (t.task z).children = none

theorem Keeps.of_task_eq (h : t.task z = s.task z) : Keeps z s t := by
  constructor
  · intro hs hc
    rw [h]
    exact ⟨hs, rfl, hc⟩
  · intro ht
    rw [h] at ht
    exact .inl ht

theorem Keeps.refl (z : ℕ) (s : KState) : Keeps z s s := .of_task_eq rfl

theorem Keeps.trans (h₁ : Keeps z s t) (h₂ : Keeps z t u) : Keeps z s u := by
  constructor
  · intro hs hc
    obtain ⟨hs', he, hc'⟩ := h₁.frozen hs hc
    obtain ⟨hs'', he', hc''⟩ := h₂.frozen hs' hc'
    exact ⟨hs'', he'.trans he, hc''⟩
  · intro hu
    rcases h₂.fresh hu with ht | hc
    · rcases h₁.fresh ht with hs | hc
      · exact .inl hs
      · exact .inr (h₂.frozen ht hc).2.2
    · exact .inr hc

theorem Keeps.of_alive (hs : (s.task z).state ≠ .zombie) (ht : (t.task z).state ≠ .zombie) :
    Keeps z s t :=
  ⟨fun h => absurd h hs, fun h => absurd h ht⟩

theorem keeps_modify_of_ne (h : a ≠ z) : Keeps z s (s.modify a f) :=
  .of_task_eq (s.modify_task_of_ne f h.symm)

/-- An update of other fields. -/
theorem keeps_modify (h₁ : (f (s.task a)).state = (s.task a).state)
    (h₂ : (f (s.task a)).exitCode = (s.task a).exitCode)
    (h₃ : (f (s.task a)).children = (s.task a).children) : Keeps z s (s.modify a f) := by
  have hstate := s.modify_field a z f Task.state h₁
  have hexit := s.modify_field a z f Task.exitCode h₂
  have hchildren := s.modify_field a z f Task.children h₃
  constructor
  · intro hs hc
    exact ⟨hstate.trans hs, hexit, hchildren.trans hc⟩
  · intro ht
    exact .inl (hstate.symm.trans ht)

theorem keeps_addChild (hp : p = z → (s.task z).state ≠ .zombie) : Keeps z s (taskAddChild p c s) := by
  by_cases hpz : p = z
  · have hz := hp hpz
    refine .of_alive hz ?_
    rwa [linksOnly_addChild.state]
  · unfold taskAddChild
    exact .trans (.trans (keeps_modify rfl rfl rfl) (keeps_modify rfl rfl rfl)) (keeps_modify_of_ne hpz)

theorem keeps_removeChild (h : taskRemoveChild fuel p c s = .ok t) : Keeps z s t := by
  obtain ⟨u, hu, h⟩ := bind_eq_ok.mp h
  obtain rfl := Except.ok.inj h
  refine .trans ?_ (keeps_modify rfl rfl rfl)
  dsimp only [unlinkChild] at hu
  split at hu
  · rename_i hhead
    obtain rfl := Except.ok.inj hu
    constructor
    · intro hs hc
      -- a zombie without children is not the parent
      have hpz : p ≠ z := by
        rintro rfl
        rw [hc] at hhead
        exact nomatch hhead
      rw [s.modify_task_of_ne _ hpz.symm]
      exact ⟨hs, rfl, hc⟩
    · intro ht
      left
      rwa [s.modify_field p z _ Task.state rfl] at ht
  · obtain ⟨cur, -, hu⟩ := bind_eq_ok.mp hu
    cases cur with
    | none =>
      obtain rfl := Except.ok.inj hu
      exact .refl z _
    | some a =>
      obtain rfl := Except.ok.inj hu
      exact keeps_modify rfl rfl rfl

theorem keeps_detach (h : detach fuel c s = .ok t) : Keeps z s t := by
  unfold detach at h
  split at h
  · exact keeps_removeChild h
  · obtain rfl := Except.ok.inj h
    exact .refl z _

theorem keeps_reparent (hr : r = z → (s.task z).state ≠ .zombie) (h : taskReparent fuel c r s = .ok t) :
    Keeps z s t := by
  obtain ⟨u, hu, h⟩ := bind_eq_ok.mp h
  obtain rfl := Except.ok.inj h
  refine (keeps_detach hu).trans (keeps_addChild ?_)
  rwa [(linksOnly_detach hu).state]

theorem keeps_orphan (hr : (s.task a).children ≠ none → r = z → (s.task z).state ≠ .zombie)
    (h : orphanChildren fuel a r n s = .ok t) : Keeps z s t := by
  induction n generalizing s with
  | zero => exact nomatch h
  | succ n ih =>
    rw [orphanChildren] at h
    split at h
    · obtain rfl := Except.ok.inj h
      exact .refl z _
    · rename_i c hc
      have hr' := hr (by simp [hc])
      obtain ⟨u, hu, h⟩ := bind_eq_ok.mp h
      refine (keeps_reparent hr' hu).trans (ih (fun _ => ?_) h)
      rwa [(linksOnly_reparent hu).state]

theorem orphan_children (h : orphanChildren fuel a r n s = .ok t) : (t.task a).children = none := by
  induction n generalizing s with
  | zero => exact nomatch h
  | succ n ih =>
    rw [orphanChildren] at h
    split at h
    · rename_i hc
      obtain rfl := Except.ok.inj h
      exact hc
    · obtain ⟨u, -, h⟩ := bind_eq_ok.mp h
      exact ih h

theorem keeps_unlinkTask (h : unlinkTask fuel a s = .ok t) : Keeps z s t := by
  unfold unlinkTask at h
  split at h
  · obtain rfl := Except.ok.inj h
    exact .of_task_eq rfl
  · obtain ⟨prev, -, h⟩ := bind_eq_ok.mp h
    cases prev with
    | none =>
      obtain rfl := Except.ok.inj h
      exact .refl z _
    | some b =>
      obtain rfl := Except.ok.inj h
      exact keeps_modify rfl rfl rfl

theorem keeps_taskReap (h : taskReap fuel a s = .ok t) : Keeps z s t := by
  obtain ⟨u, hu, h⟩ := bind_eq_ok.mp h
  obtain ⟨v, hv, h⟩ := bind_eq_ok.mp h
  obtain rfl := Except.ok.inj h
  obtain ⟨tr, hr⟩ := releaseTask_eq a v
  rw [hr]
  exact ((keeps_detach hu).trans (keeps_unlinkTask hv)).trans (.of_task_eq rfl)

/-- A new task changes its parent and nobody else. -/
theorem Blank.keeps (h : Blank c n s u) (hc : c ≠ z) (hp : p = z → (s.task z).state ≠ .zombie) :
    Keeps z s (linkTask c (taskAddChild p c u)) := by
  have hu : u.task z = s.task z := h.task z hc.symm
  have hadd : Keeps z u (taskAddChild p c u) := keeps_addChild (by rwa [hu])
  exact ((Keeps.of_task_eq hu).trans hadd).trans (.of_task_eq (linkTask_task_of_ne hc.symm))

theorem Task.Placed.keeps {trigger : Prop} (h : (s.task z).Placed trigger (t.task z)) : Keeps z s t := by
  constructor
  · intro hs hc
    exact ⟨h.zombie.mpr hs, h.exitCode, h.children.trans hc⟩
  · intro ht
    exact .inl (h.zombie.mp ht)

/-- The orphans of a task that ends now go to a task that is not a zombie. -/
def OrphansSafe (s : KState) (t : ℕ) : Prop :=
  (s.task t).children ≠ none → (s.task s.reaper).state ≠ .zombie

/-- Ending a task that is not yet a zombie, without handing children to a zombie. -/
theorem Exits.keeps (h : Exits a s t) (ha : (s.task a).state ≠ .zombie) (hr : OrphansSafe s a) :
    Keeps z s t := by
  obtain ⟨fuel, code, u, v, hu, hv, ht, -⟩ := h
  have hcode : ∀ {α : Type} (g : Task → α), (∀ x n, g { x with exitCode := n } = g x) → ∀ b,
      g ((s.modify a fun x => { x with exitCode := code }).task b) = g (s.task b) :=
    fun g hg b => s.modify_field a b _ g (hg _ _)
  by_cases haz : a = z
  · subst haz
    refine ⟨fun hs => absurd hs ha, fun _ => .inr ?_⟩
    rw [(ht.task a).children, KState.modify_task_self]
    exact orphan_children hv
  · have horphan : Keeps z u v := by
      refine keeps_orphan (fun hc he => ?_) hv
      rw [(hu.task a).children, hcode Task.children fun _ _ => rfl] at hc
      rw [ne_eq, (hu.task z).zombie, hcode Task.state fun _ _ => rfl]
      exact he ▸ hr hc
    have hbefore : Keeps z s u := (keeps_modify_of_ne haz).trans (hu.task z).keeps
    exact (hbefore.trans horphan).trans ((keeps_modify_of_ne haz).trans (ht.task z).keeps)

/-- No zombie is ended again or given a child, and a zombie makes no round of `sys_wait` that
could block it. -/
structure KOp.SparesZombies (s : KState) (op : KOp) : Prop where
  births : ∀ p, op.Bears s p → (s.task p).state ≠ .zombie
  ends : ∀ t, op.Ends s t → (s.task t).state ≠ .zombie ∧ OrphansSafe s t
  waits : ∀ first fuel wstatus, op = .waitRound first fuel wstatus → s.current.state = .zombie →
    first = true ∧ some s.currentTask ≠ s.initProc

theorem keeps_step {op : KOp} (hsettled : s.needResched = false) (hcond : op.SparesZombies s)
    (hz : z ∈ s.live) (h : KStep op s t) : Keeps z s t := by
  cases step_cases hsettled h with
  | calm hc => exact (hc.task z hz).keeps
  | blocks hscan ht =>
    obtain ⟨first, fuel, wstatus, rfl, hne⟩ := hscan
    subst ht
    by_cases hzc : s.currentTask = z
    · subst hzc
      constructor
      · -- a zombie without children would have got an error
        intro hs hc
        obtain ⟨hfirst, hinit⟩ := hcond.waits first fuel wstatus rfl hs
        exact absurd ⟨hfirst, hc, hinit⟩ hne
      · intro hblocked
        rw [blockCurrent, KState.modify_task_self] at hblocked
        exact nomatch hblocked
    · exact keeps_modify_of_ne hzc
  | exits a hends hlisted he => exact he.keeps (hcond.ends a hends).1 (hcond.ends a hends).2
  | switched u htick hu hs =>
    have hplaced : (u.task z).Placed True (t.task z) := hs.calm.task z
    have hswitch : Keeps z u t := hplaced.keeps
    rcases hu with hc | ⟨hends, he⟩
    · exact (hc.task z).keeps.trans hswitch
    · exact (he.keeps (hcond.ends _ hends).1 (hcond.ends _ hends).2).trans hswitch
  | born p c hp hb hinit hnum =>
    obtain ⟨pid, n, u, hu, ht⟩ := hb.run
    have hcount : Keeps z s { s with taskCounter := n } := .of_task_eq rfl
    have hkeep := hu.keeps (fun he => hb.fresh (he ▸ hz)) fun he => he ▸ hcond.births p hp
    exact (hcount.trans hkeep).trans (.of_task_eq (by rw [ht]))
  | reaped y fuel u hy hu hrun =>
    have hsame : Keeps z s u := .of_task_eq (by rw [hu])
    exact hsame.trans (keeps_taskReap hrun)

/-- No request to switch is pending, and zombies have no children. -/
structure Spared (s : KState) : Prop where
  settled : s.needResched = false
  childless : ∀ z ∈ s.live, (s.task z).state = .zombie → (s.task z).children = none

theorem KRun.spared (hs : KRun (fun op s => op.SparesZombies s) s) : Spared s := by
  refine Reachable.invariant (I := Spared) ?_ ?_ hs
  · rintro s ⟨junk, user, rfl⟩
    refine ⟨rfl, fun z hz hzombie => ?_⟩
    simp only [taskInit, Finset.mem_insert, Finset.mem_singleton] at hz
    rcases hz with rfl | rfl <;> simp [taskInit, initTask, kthreaddTask] at hzombie
  · rintro s t hi ⟨op, hcond, hstep⟩
    refine ⟨needResched_step hi.settled hstep, fun z hz hzombie => ?_⟩
    by_cases hzs : z ∈ s.live
    · have hkeep := keeps_step hi.settled hcond hzs hstep
      rcases hkeep.fresh hzombie with h | h
      · exact (hkeep.frozen h (hi.childless z hzs h)).2.2
      · exact h
    · rw [new_state_of_step hi.settled hstep hz hzs] at hzombie
      exact nomatch hzombie

/-- The zombies and the data of the kernel are left alone. -/
def KOp.Spares (k : KernelImage) (op : KOp) (s : KState) : Prop := op.SparesZombies s ∧ op.Misses k s

/-- One step of a run that spares zombies and does not reap `z`. -/
def SparingStep (k : KernelImage) (z : ℕ) (s t : KState) : Prop :=
  (∃ op : KOp, op.Spares k s ∧ k.Step op s t) ∧ z ∈ t.live

/-- A zombie keeps its state, its exit code and its empty list of children until it is
reaped, in every run that spares zombies and stores nothing over the data of the kernel. -/
theorem zombie_final (k : KernelImage) (s t : KState) (z : ℕ) (hs : k.Run (KOp.Spares k) s)
    (hz : z ∈ s.live) (hzombie : (s.task z).state = .zombie)
    (hrun : Relation.ReflTransGen (SparingStep k z) s t) :
    (s.task z).children = none ∧ (t.task z).state = .zombie ∧
      (t.task z).exitCode = (s.task z).exitCode ∧ (t.task z).children = none := by
  have hspared : Spared s := (KernelImage.Run.kernelRun hs).spared
  have hnone := hspared.childless z hz hzombie
  refine ⟨hnone, ?_⟩
  suffices h : t.needResched = false ∧ z ∈ t.live ∧ Keeps z s t from h.2.2.frozen hzombie hnone
  induction hrun with
  | refl => exact ⟨hspared.settled, hz, .refl z s⟩
  | tail _ hstep ih =>
    obtain ⟨⟨op, hcond, hstep⟩, hlive⟩ := hstep
    obtain ⟨hsettled, hz', hkeep⟩ := ih
    have hstep' := (KernelImage.step_iff hcond.2).mp hstep
    exact ⟨needResched_step hsettled hstep', hlive, hkeep.trans (keeps_step hsettled hcond.1 hz' hstep')⟩

/-- The zombie is still on the CPU, and its exit overwrites the code its parent is to see. -/
theorem zombie_final_fails : ¬∀ (k : KernelImage) (s t : KState) (z : ℕ), k.Run (fun _ _ => True) s → z ∈ s.live →
    (s.task z).state = .zombie → (∃ op, k.Step op s t) → z ∈ t.live →
      (t.task z).state = .zombie ∧ (t.task z).exitCode = (s.task z).exitCode ∧
        (t.task z).children = (s.task z).children := by
  intro h
  let k : KernelImage := structImage 11 0xD0000008 (by decide)
  have hrun : KRun (fun op s => True ∧ op.Misses k s) selfKilled :=
    (KRun.userOnCpu ⟨trivial, trivial⟩ ⟨trivial, trivial⟩ ⟨trivial, trivial⟩ ⟨trivial, trivial⟩).selfKilled
      ⟨trivial, trivial⟩
  have hexit : KStep (callWith 12 1 0 0) selfKilled (selfKilled.after (callWith 12 1 0 0)) :=
    kstep_after ⟨spawnAt_fresh (by decide +kernel), by decide⟩ (by decide +kernel)
  have hmisses : (callWith 12 1 0 0).Misses k selfKilled := trivial
  have hstep : k.Step (callWith 12 1 0 0) selfKilled (selfKilled.after (callWith 12 1 0 0)) :=
    (KernelImage.step_iff hmisses).mpr hexit
  obtain ⟨-, hcode, -⟩ := h k selfKilled _ 11 ((KernelImage.run_of_kernelRun hrun).mono fun _ _ _ => trivial)
    (by decide +kernel) (by decide +kernel) ⟨_, hstep⟩ (by decide +kernel)
  exact absurd hcode (by decide +kernel)

/-- The next tick after a self-kill, on which the zombie is switched out. -/
theorem zombie_final_selfKilled : (selfKilled.task 11).state = .zombie ∧
    ((selfKilled.after (.tick 16)).task 11).state = .zombie ∧
    ((selfKilled.after (.tick 16)).task 11).exitCode = (selfKilled.task 11).exitCode := by
  let k : KernelImage := structImage 11 0xD0000008 (by decide)
  have hinit : (bootState.after (.execInitFn (spawnAt 10) 100)).initProc = some 10 := by decide +kernel
  have hrun : KRun (fun op s => op.SparesZombies s ∧ op.Misses k s) selfKilled := by
    refine (KRun.userOnCpu ⟨⟨?_, nofun, nofun⟩, trivial⟩ ⟨⟨?_, nofun, nofun⟩, trivial⟩ ⟨⟨nofun, nofun, nofun⟩, trivial⟩
      ⟨⟨nofun, ?_, nofun⟩, trivial⟩).selfKilled ⟨⟨nofun, ?_, nofun⟩, trivial⟩
    · rintro p rfl
      exact (by decide +kernel : (bootState.task initTask).state ≠ .zombie)
    · intro p hp
      obtain rfl := Option.some.inj (hinit.symm.trans hp)
      decide +kernel
    · rintro _ ⟨-, hdies⟩
      exact absurd (by decide +kernel) hdies
    · rintro p ⟨hp, -⟩
      rw [hp]
      refine ⟨by decide +kernel, fun hc => ?_⟩
      exact absurd (by decide +kernel : (userOnCpu.task userOnCpu.currentTask).children = none) hc
  have hzombie : (selfKilled.task 11).state = .zombie := by decide +kernel
  have hstep : SparingStep k 11 selfKilled (selfKilled.after (.tick 16)) := by
    have htick : (KOp.tick 16).Spares k selfKilled := by
      refine ⟨⟨nofun, ?_, nofun⟩, trivial⟩
      rintro _ ⟨-, hdies⟩
      exact absurd (by decide +kernel) hdies
    have hticks : KStep (.tick 16) selfKilled (selfKilled.after (.tick 16)) :=
      kstep_after trivial (by decide +kernel)
    exact ⟨⟨.tick 16, htick, (KernelImage.step_iff htick.2).mpr hticks⟩, by decide +kernel⟩
  have hfinal := zombie_final k selfKilled _ 11 (KernelImage.run_of_kernelRun hrun) (by decide +kernel) hzombie
    (.single hstep)
  exact ⟨hzombie, hfinal.2.1, hfinal.2.2.1⟩

end HekaOS.Tasks
