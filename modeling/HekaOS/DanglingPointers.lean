import HekaOS.StrayStores
import HekaOS.TaskFamily

/-!
# Pointers between tasks

Every pointer from a task on the scheduler list, `current_task` and `init_proc` lead to tasks
in use, in every run in which no zombie forks, `init_proc` is not reaped and nothing is stored over the
data of the kernel. A zombie that is still on the CPU can fork, and its child then points to a struct that
is freed.
-/

namespace HekaOS.Tasks
open KernelMemory PointerChain TransitionSystem

variable {trigger : Prop} {s t u : KState} {kids : ℕ → List ℕ} {order : List ℕ} {a b c p z fuel : ℕ}

/-- A zombie other than `init_proc` does not fork, and `init_proc` is not reaped. -/
structure KOp.KeepsLinks (s : KState) (op : KOp) : Prop where
  fork : op.Forks → s.current.state = .zombie → some s.currentTask = s.initProc
  reap : ∀ z, op.Reaps s z → some z ≠ s.initProc

/-- How the parents change over a step: children of a task that ends go to the reaper, and a
new task gets a parent. -/
structure ParentStep (op : KOp) (s t : KState) : Prop where
  old : ∀ b ∈ s.live, b ∈ t.live → (t.task b).parent = (s.task b).parent ∨
    (∃ a, op.Ends s a ∧ (s.task b).parent = some a) ∧ (t.task b).parent = some s.reaper
  new : ∀ b ∈ t.live, b ∉ s.live → ∃ p ∈ s.live, (t.task b).parent = some p
  initProc : t.initProc = s.initProc ∨ s.initProc = none ∧
    ∃ c ∈ t.live, t.initProc = some c ∧ (t.task c).parent = some initTask

theorem ParentStep.of_same {op : KOp} (hlive : t.live = s.live) (hinit : t.initProc = s.initProc)
    (h : ∀ b ∈ s.live, (t.task b).parent = (s.task b).parent ∨
      (∃ a, op.Ends s a ∧ (s.task b).parent = some a) ∧ (t.task b).parent = some s.reaper) :
    ParentStep op s t :=
  ⟨fun b hb _ => h b hb, fun _ hb hb' => absurd (hlive ▸ hb) hb', .inl hinit⟩

theorem ParentStep.born {op : KOp} (hp : p ∈ s.live) (hb : Born p c s t)
    (hinit : t.initProc = s.initProc ∨ s.initProc = none ∧ t.initProc = some c ∧ p = initTask) :
    ParentStep op s t := by
  have hd := hb.delivered
  have hl : t.live = insert c s.live := by rw [hb.rest]
  refine ⟨fun b hb' _ => ?_, fun b hb' hb'' => ?_, ?_⟩
  · exact .inl (hd.task b fun he => hb.fresh (he ▸ hb')).1
  · rw [hl] at hb'
    obtain rfl := (Finset.mem_insert.mp hb').resolve_right hb''
    exact ⟨p, hp, hd.parent⟩
  · rcases hinit with h | ⟨hnone, h, rfl⟩
    · exact .inl h
    · exact .inr ⟨hnone, c, hl ▸ Finset.mem_insert_self c s.live, h, hd.parent⟩

namespace Family

/-- A task that ends is on the scheduler list. -/
theorem exits_step {op : KOp} (h : Family s kids order) (ha : a ∈ order) (hends : op.Ends s a)
    (he : Exits a s t) : Family t (adopt kids a s.reaper) order ∧ ParentStep op s t := by
  obtain ⟨ht, hended⟩ := h.exits ha he
  refine ⟨ht, .of_same he.globals.live he.globals.initProc fun b hb => ?_⟩
  rw [hended.parent b hb]
  split
  · rename_i hba
    exact .inr ⟨⟨a, hends, (h.kin.child a (h.live ha) b hba).2⟩, rfl⟩
  · exact .inl rfl

theorem calm_step {op : KOp} (h : Family s kids order) (hc : CalmLive trigger s t) :
    Family t kids order ∧ ParentStep op s t :=
  ⟨h.calm hc, .of_same hc.rest.live hc.rest.initProc fun b hb => .inl (hc.task b hb).parent⟩

/-- The only zombie to which tasks are born is `init_proc`. -/
theorem bears_zombie {op : KOp} (h : Family s kids order) (hcond : op.KeepsLinks s) (hallowed : op.Allowed s)
    (hp : op.Bears s p) (hz : (s.task p).state = .zombie) : some p = s.initProc := by
  cases op with
  | execInitFn env size =>
    obtain rfl : p = initTask := hp
    exact absurd hz (h.before hallowed.2).2
  | execFn env addr size =>
    obtain rfl : p = kthreaddTask := hp
    exact absurd hz h.idle
  | execUserFn env size => exact Eq.symm hp
  | syscall env frame =>
    obtain ⟨hfork, rfl⟩ : _ ∧ p = s.currentTask := hp
    exact hcond.fork hfork hz
  | _ => exact hp.elim

/-- A zombie found by `sys_wait` is a child of the current task. -/
theorem findZombie_mem (h : Family s kids order) (hf : findZombie fuel s = some (some z)) :
    z ∈ kids s.currentTask ∧ (s.task z).state = .zombie := by
  have hfind := (h.kin.chain s.currentTask (h.live h.current)).find_of_some hf
  have hstate := List.find?_some hfind.symm
  exact ⟨List.mem_of_find?_eq_some hfind.symm, of_decide_eq_true hstate⟩

theorem step {op : KOp} (h : Family s kids order) (hcond : op.KeepsLinks s) (hstep : KStep op s t) :
    ∃ kids' order', Family t kids' order' ∧ ParentStep op s t := by
  cases step_cases h.settled hstep with
  | calm hc => exact ⟨_, _, h.calm_step hc⟩
  | blocks hscan ht =>
    subst ht
    refine ⟨_, _, h.blocks, .of_same rfl rfl fun b hb => .inl ?_⟩
    exact s.modify_field _ b _ Task.parent rfl
  | exits a hends hlisted he =>
    have ha : a ∈ order := by
      rcases hlisted with ⟨l, hl, ha⟩ | rfl
      · rwa [h.list.unique hl]
      · exact h.current
    exact ⟨_, _, h.exits_step ha hends he⟩
  | switched u htick hu hs =>
    have hmove : ∀ kids', Family u kids' order → ParentStep op s u →
        ∃ kids' order', Family t kids' order' ∧ ParentStep op s t := by
      intro kids' hf hp
      have hlive : t.live = u.live := hs.calm.rest.live
      have hproc : t.initProc = u.initProc := hs.calm.rest.initProc
      have hparent : ∀ b ∈ u.live, (t.task b).parent = (u.task b).parent :=
        fun b _ => (hs.calm.task b).parent
      refine ⟨kids', order, hf.switched hs, fun b hb hb' => ?_, fun b hb hb' => ?_, ?_⟩
      · rw [hlive] at hb'
        rw [hparent b hb']
        exact hp.old b hb hb'
      · rw [hlive] at hb
        rw [hparent b hb]
        exact hp.new b hb hb'
      · rw [hproc, hlive]
        refine hp.initProc.imp_right fun ⟨hnone, c, hc, hi, hpc⟩ => ⟨hnone, c, hc, hi, ?_⟩
        rw [hparent c hc, hpc]
    rcases hu with hc | ⟨hends, he⟩
    · have hcalm : Family u kids order ∧ ParentStep op s u := h.calm_step hc.calmLive
      exact hmove kids hcalm.1 hcalm.2
    · have hex := h.exits_step h.current hends he
      exact hmove _ hex.1 hex.2
  | born p c hp hb hinit hnum =>
    have hpl : p ∈ s.live := h.toClan.bears_mem hp
    have hzombie : (s.task p).state = .zombie → some p = t.initProc := by
      intro hz
      have hproc := h.bears_zombie hcond hstep.allowed hp hz
      rcases hinit with hinit | ⟨-, hnone, -⟩
      · exact hproc.trans hinit.symm
      · exact nomatch hproc.trans hnone
    refine ⟨_, _, h.born hpl hzombie hb ?_, .born hpl hb ?_⟩
    · exact hinit.imp_right fun hinit => ⟨hinit.1, hinit.2.1⟩
    · exact hinit.imp_right fun hinit => ⟨hinit.2.1, hinit.1, hinit.2.2⟩
  | reaped z fuel u hz hu hrun =>
    have hproc := hcond.reap z hz
    have hu' : CalmLive False s u := hu.calm.calmLive
    have hzombie : (∃ p ∈ s.live, z ∈ kids p) ∧ (s.task z).state = .zombie ∧ z ≠ s.currentTask := by
      cases op with
      | waitRound first fuel' wstatus =>
        obtain ⟨hmem, hstate⟩ := h.findZombie_mem hz
        refine ⟨⟨_, h.live h.current, hmem⟩, hstate, fun he => ?_⟩
        have hnone := h.childless z (h.kin.child _ (h.live h.current) z hmem).1 hstate hproc
        rw [← he, hnone] at hmem
        exact nomatch hmem
      | reap fuel' zombie =>
        obtain rfl : z = zombie := hz
        obtain ⟨hlive, hcur, hstate, p, hp, hparent⟩ := hstep.allowed
        exact ⟨⟨p, hp, (h.parent z hlive p hparent).2⟩, hstate, hcur⟩
      | _ => exact hz.elim
    obtain ⟨⟨p, hp, hmem⟩, hstate, hcur⟩ := hzombie
    have hut : u.task = s.task := by rw [hu]
    obtain ⟨kids', order', hf, hb⟩ := (h.calm hu').reaped (hu'.rest.live ▸ hp) hmem
      (hut ▸ hstate) (hu'.rest.initProc ▸ hproc) (hu'.rest.currentTask ▸ hcur) hrun
    refine ⟨kids', order', hf, fun b _ hb' => .inl ?_, fun b hb' hb'' => ?_, .inl ?_⟩
    · rw [hb.parent b (hb.mem_live.mp hb').1, hut]
    · exact absurd (hu'.rest.live ▸ (hb.mem_live.mp hb').2) hb''
    · rw [hb.rest]
      exact hu'.rest.initProc

end Family

/-- In a run that keeps the links the tasks are a family. -/
theorem KRun.family (hs : KRun (fun op s => op.KeepsLinks s) s) : ∃ kids order, Family s kids order := by
  refine Reachable.invariant (I := fun s => ∃ kids order, Family s kids order)
    (fun s hb => ⟨_, _, Family.boot hb⟩) ?_ hs
  rintro s t ⟨kids, order, h⟩ ⟨op, hcond, hstep⟩
  obtain ⟨kids', order', ht, -⟩ := h.step hcond hstep
  exact ⟨kids', order', ht⟩

/-- A pointer is null or leads to a task in use. -/
def KState.InUse (s : KState) (p : Option ℕ) : Prop := ∀ a ∈ p, a ∈ s.live

/-- The scheduler list ends, and no pointer from a task on it or from the globals dangles. -/
structure NoDangling (s : KState) : Prop where
  list : ∃ l, Chain s.next s.taskListHead l
  task : ∀ t, Listed s t → s.InUse (s.task t).parent ∧ s.InUse (s.task t).children ∧
    s.InUse (s.task t).sibling ∧ s.InUse (s.task t).next
  current : s.currentTask ∈ s.live
  initProc : s.InUse s.initProc

theorem Family.noDangling (h : Family s kids order) : NoDangling s := by
  refine ⟨⟨order, h.list⟩, ?_, h.live h.current, h.initProc⟩
  rintro a ⟨l, hl, ha⟩
  obtain rfl := h.list.unique hl
  have halive := h.live ha
  refine ⟨fun p hp => (h.parent a halive p hp).1, fun c hc => ?_, fun b hb => ?_, fun b hb => ?_⟩
  · have hmem : c ∈ kids a := (h.kin.chain a halive).mem_of_head hc
    exact (h.kin.child a halive c hmem).1
  · cases hp : (s.task a).parent with
    | none => exact nomatch hb.symm.trans (h.root a halive hp)
    | some p =>
      obtain ⟨hpl, hap⟩ := h.parent a halive p hp
      exact (h.kin.child p hpl b ((h.kin.chain p hpl).mem_of_next hap hb)).1
  · exact h.live (h.list.mem_of_next ha hb)

/-- No pointer dangles in a run in which zombies do not fork, `init_proc` is not reaped and nothing is
stored over the data of the kernel. -/
theorem no_dangling_pointers (k : KernelImage) (s : KState)
    (hs : k.Run (fun op s => op.KeepsLinks s ∧ op.Misses k s) s) : NoDangling s := by
  obtain ⟨kids, order, h⟩ := hs.kernelRun.family
  exact h.noDangling

/-- A task that ended is switched out and its parent, init, collects it. -/
def collected (s : KState) : KState := (s.after (.tick 16)).after (.waitRound true 16 0)

/-- A task that has killed itself forks, and init collects it: the child keeps a pointer to the
struct that was freed. -/
theorem no_dangling_pointers_fails : ¬∀ (k : KernelImage) (s : KState), k.Run (fun _ _ => True) s → NoDangling s := by
  intro h
  let k : KernelImage := structImage 12 0xD0000008 (by decide)
  have hforked : KRun (fun op s => True ∧ op.Misses k s) (selfKilled.after (callWith 12 2 0 0)) :=
    ((KRun.userOnCpu ⟨trivial, trivial⟩ ⟨trivial, trivial⟩ ⟨trivial, trivial⟩ ⟨trivial, trivial⟩).selfKilled
      ⟨trivial, trivial⟩).after ⟨trivial, trivial⟩ ⟨spawnAt_fresh (by decide +kernel), by decide⟩ (by decide +kernel)
  have hticked : KRun (fun op s => True ∧ op.Misses k s) ((selfKilled.after (callWith 12 2 0 0)).after (.tick 16)) :=
    hforked.after ⟨trivial, trivial⟩ trivial (by decide +kernel)
  have hcollected : KRun (fun op s => True ∧ op.Misses k s) (collected (selfKilled.after (callWith 12 2 0 0))) :=
    hticked.after ⟨trivial, fun _ => .inl rfl⟩ trivial (by decide +kernel)
  have hrun : k.Run (fun _ _ => True) (collected (selfKilled.after (callWith 12 2 0 0))) :=
    (KernelImage.run_of_kernelRun hcollected).mono fun _ _ _ => trivial
  generalize hs : collected (selfKilled.after (callWith 12 2 0 0)) = s at hrun
  have hlist : Listed s 12 := by
    refine ⟨[12, 10, 0], ?_, by decide⟩
    subst hs
    simp only [chain_cons, chain_nil]
    decide +kernel
  have hparent : (s.task 12).parent = some 11 := by
    subst hs
    decide +kernel
  have hfreed : 11 ∉ s.live := by
    subst hs
    decide +kernel
  exact hfreed (((h k s hrun).task 12 hlist).1 11 hparent)

/-- The same without the fork. -/
theorem no_dangling_pointers_selfKilled : 11 ∉ (collected selfKilled).live ∧ NoDangling (collected selfKilled) := by
  let k : KernelImage := structImage 11 0xD0000008 (by decide)
  have hnofork : ∀ {op : KOp} {s : KState}, ¬op.Forks → (∀ z, ¬op.Reaps s z) → op.KeepsLinks s :=
    fun h₁ h₂ => ⟨fun h => absurd h h₁, fun z h => absurd h (h₂ z)⟩
  have hrun : KRun (fun op s => op.KeepsLinks s ∧ op.Misses k s) selfKilled := by
    refine (KRun.userOnCpu ⟨?_, trivial⟩ ⟨?_, trivial⟩ ⟨?_, trivial⟩ ⟨?_, trivial⟩).selfKilled ⟨?_, trivial⟩ <;>
      exact hnofork nofun nofun
  have hticked : KRun (fun op s => op.KeepsLinks s ∧ op.Misses k s) (selfKilled.after (.tick 16)) :=
    hrun.after ⟨hnofork nofun nofun, trivial⟩ trivial (by decide +kernel)
  have hcollected : KRun (fun op s => op.KeepsLinks s ∧ op.Misses k s) (collected selfKilled) := by
    refine hticked.after ⟨⟨nofun, fun z hz he => ?_⟩, fun _ => .inl rfl⟩ trivial (by decide +kernel)
    have hz' : findZombie 16 (selfKilled.after (.tick 16)) = some (some 11) := by decide +kernel
    obtain rfl : z = 11 := Option.some.inj (Option.some.inj (hz.symm.trans hz'))
    exact absurd he (by decide +kernel)
  exact ⟨by decide +kernel, no_dangling_pointers k _ (KernelImage.run_of_kernelRun hcollected)⟩

end HekaOS.Tasks
