import HekaOS.DanglingPointers

/-!
# The genealogy is a forest

The lists of children hold exactly the tasks with that parent, and every walk along the parents
ends, as long as `init_task` is not ended: its children go to `init_proc`, which is one of them
and so becomes its own parent.
-/

namespace HekaOS.Tasks
open KernelMemory PointerChain TransitionSystem

variable {s t : KState} {a : ℕ}

def KState.parent (s : KState) (a : ℕ) : Option ℕ := (s.task a).parent

structure KOp.KeepsForest (s : KState) (op : KOp) : Prop where
  links : op.KeepsLinks s
  init : ¬op.Ends s initTask

/-- The children of a task are those tasks whose parent it is, each once, and the walk along
the parents of a task ends. -/
structure Forest (s : KState) : Prop where
  children : ∀ p ∈ s.live, ∃ l, Chain s.sibling (s.task p).children l ∧ l.Nodup ∧
    ∀ c, c ∈ l ↔ c ∈ s.live ∧ (s.task c).parent = some p
  ancestors : ∀ a ∈ s.live, ∃ l, Chain s.parent (some a) l

/-- The lists of children of a forest. -/
theorem Forest.kin (h : Forest s) : ∃ kids : ℕ → List ℕ, Kin s kids ∧
    ∀ p ∈ s.live, ∀ c ∈ s.live, (s.task c).parent = some p → c ∈ kids p := by
  choose! kids hchain _ hmem using h.children
  refine ⟨kids, ⟨hchain, fun p hp c hc => (hmem p hp c).mp hc⟩, fun p hp c hc hparent => ?_⟩
  exact (hmem p hp c).mpr ⟨hc, hparent⟩

/-- Nobody is the parent of itself. -/
theorem Forest.parent_ne (h : Forest s) (ha : a ∈ s.live) : (s.task a).parent ≠ some a := by
  intro hp
  obtain ⟨l, hl⟩ := h.ancestors a ha
  cases l with
  | nil => cases hl
  | cons b l =>
    obtain rfl := Option.some.inj hl.1
    have htail : Chain s.parent (some a) l := hp ▸ hl.2
    exact (List.nodup_cons.mp hl.nodup).1 (htail.mem_of_head rfl)

/-- A family with `init_proc` under `init_task` in which every walk along the parents ends. -/
structure Grounded (s : KState) : Prop where
  family : ∃ kids order, Family s kids order
  initProc : ∀ i ∈ s.initProc, (s.task i).parent = some initTask
  ancestors : ∀ a ∈ s.live, ∃ l, Chain s.parent (some a) l

theorem Grounded.forest (h : Grounded s) : Forest s := by
  obtain ⟨kids, order, hf⟩ := h.family
  refine ⟨fun p hp => ⟨kids p, hf.kin.chain p hp, (hf.kin.chain p hp).nodup, fun c => ?_⟩, h.ancestors⟩
  constructor
  · exact hf.kin.child p hp c
  · rintro ⟨hc, hparent⟩
    exact (hf.parent c hc p hparent).2

theorem Grounded.boot (hb : Boot s) : Grounded s := by
  refine ⟨⟨_, _, Family.boot hb⟩, ?_, fun a ha => ?_⟩
  · obtain ⟨junk, user, rfl⟩ := hb
    nofun
  · obtain ⟨junk, user, rfl⟩ := hb
    simp only [taskInit, Finset.mem_insert, Finset.mem_singleton] at ha
    rcases ha with rfl | rfl
    · exact ⟨[initTask], rfl, rfl⟩
    · exact ⟨[kthreaddTask, initTask], rfl, rfl, rfl⟩

theorem Grounded.step {op : KOp} (h : Grounded s) (hcond : op.KeepsForest s) (hstep : KStep op s t) :
    Grounded t := by
  obtain ⟨kids, order, hs⟩ := h.family
  obtain ⟨kids', order', ht, hp⟩ := hs.step hcond.links hstep
  have hinit : ∀ i ∈ t.initProc, (t.task i).parent = some initTask := by
    intro i hi
    rcases hp.initProc with hsame | ⟨-, c, -, hc, hparent⟩
    · have hi' : i ∈ s.initProc := hsame ▸ hi
      rcases hp.old i (hs.initProc i hi') (ht.initProc i hi) with hkeep | ⟨⟨a, hends, ha⟩, -⟩
      · rw [hkeep]
        exact h.initProc i hi'
      · obtain rfl := Option.some.inj ((h.initProc i hi').symm.trans ha)
        exact absurd hends hcond.init
    · obtain rfl := Option.some.inj (hc.symm.trans hi)
      exact hparent
  have hroot : Chain t.parent (some initTask) [initTask] := ⟨rfl, ht.orphan⟩
  -- the reaper is a root or the child of one
  have hreaper : ∃ m, Chain t.parent (some s.reaper) m := by
    unfold KState.reaper
    cases hi : s.initProc with
    | none => exact ⟨_, hroot⟩
    | some i =>
      have hparent : t.parent i = some initTask := by
        rcases hp.initProc with hsame | ⟨hnone, -⟩
        · exact hinit i (hsame.trans hi)
        · exact nomatch hi.symm.trans hnone
      exact ⟨[i, initTask], rfl, hparent ▸ hroot⟩
  obtain ⟨m, hm⟩ := hreaper
  have hold : ∀ a ∈ s.live, a ∈ t.live → ∃ l, Chain t.parent (some a) l := by
    intro a ha ha'
    obtain ⟨l, hl⟩ := h.ancestors a ha
    refine hl.redirect (X := fun b => b ∈ s.live ∧ b ∈ t.live) hm (fun b hb => ?_) ?_
    · rcases hp.old b hb.1 hb.2 with hkeep | ⟨-, hmoved⟩
      · refine .inr ⟨hkeep, fun q hq => ⟨(hs.parent b hb.1 q hq).1, (ht.parent b hb.2 q ?_).1⟩⟩
        exact hkeep.trans hq
      · exact .inl hmoved
    · rintro b hb
      obtain rfl := Option.some.inj hb
      exact ⟨ha, ha'⟩
  refine ⟨⟨kids', order', ht⟩, hinit, fun a ha => ?_⟩
  by_cases ha' : a ∈ s.live
  · exact hold a ha' ha
  · obtain ⟨p, hpl, hparent⟩ := hp.new a ha ha'
    obtain ⟨l, hl⟩ := hold p hpl (ht.parent a ha p hparent).1
    have hl' : Chain t.parent (t.parent a) l := by
      rw [KState.parent, hparent]
      exact hl
    exact ⟨a :: l, rfl, hl'⟩

theorem KRun.forest (hs : KRun (fun op s => op.KeepsForest s) s) : Forest s := by
  suffices h : Grounded s from h.forest
  refine Reachable.invariant (I := Grounded) (fun s hb => .boot hb) ?_ hs
  rintro s t h ⟨op, hcond, hstep⟩
  exact h.step hcond hstep

/-- The genealogy is a forest in every run that keeps the links and does not end `init_task`. -/
theorem genealogy_forest (s : KState) (hs : KRun (fun op s => op.KeepsForest s) s) : Forest s := hs.forest

theorem KOp.KeepsForest.of_not {op : KOp} (hfork : ¬op.Forks) (hreap : ∀ z, ¬op.Reaps s z)
    (hinit : ¬op.Ends s initTask) : op.KeepsForest s :=
  ⟨⟨fun h => absurd h hfork, fun z h => absurd h (hreap z)⟩, hinit⟩

theorem userOnCpu_keepsForest : KRun (fun op s => op.KeepsForest s) userOnCpu := by
  refine KRun.userOnCpu ?_ ?_ ?_ ?_
  · exact .of_not nofun nofun nofun
  · exact .of_not nofun nofun nofun
  · exact .of_not nofun nofun nofun
  · refine .of_not nofun nofun ?_
    rintro ⟨-, hdies⟩
    exact hdies (by decide +kernel)

/-- A user task with a child of its own, on the CPU. -/
def forkedOnCpu : KState := userOnCpu.after (callWith 12 2 0 0)

theorem forkedOnCpu_keepsForest : KRun (fun op s => op.KeepsForest s) forkedOnCpu := by
  have hcond : (callWith 12 2 0 0).KeepsForest userOnCpu := by
    refine ⟨⟨fun _ hz => ?_, fun z hz => ?_⟩, fun h => ?_⟩
    · exact absurd hz (by decide +kernel)
    · cases hz
    · cases h
  refine userOnCpu_keepsForest.after hcond ⟨spawnAt_fresh ?_, ?_⟩ ?_
  · decide +kernel
  · decide
  · decide +kernel

/-- `init_task` ends while `init_proc` is its child. -/
def initEnded : KState := (bootState.after (.execInitFn (spawnAt 10) 100)).after (.doExit 16 initTask 0)

/-- `init_proc` has become its own parent. -/
theorem genealogy_forest_fails : ¬∀ s : KState, KRun (fun _ _ => True) s → Forest s := by
  intro h
  have hinit : KRun (fun _ _ => True) (bootState.after (.execInitFn (spawnAt 10) 100)) :=
    (KRun.bootState _).after trivial ⟨spawnAt_fresh (by decide +kernel), rfl⟩ (by decide +kernel)
  have hrun : KRun (fun _ _ => True) initEnded := by
    refine hinit.after trivial ⟨[10, 0], ?_, by decide⟩ (by decide +kernel)
    simp only [chain_cons, chain_nil]
    decide +kernel
  obtain ⟨l, hl⟩ := (h initEnded hrun).ancestors 10 (by decide +kernel)
  have hparent : initEnded.parent 10 = some 10 := by decide +kernel
  cases l with
  | nil => cases hl
  | cons a l =>
    obtain rfl : 10 = a := Option.some.inj hl.1
    have htail := hl.2
    rw [hparent] at htail
    exact (List.nodup_cons.mp hl.nodup).1 (htail.mem_of_head rfl)

/-- A user task has killed itself. -/
theorem genealogy_forest_selfKilled : (selfKilled.task 11).state = .zombie ∧ Forest selfKilled := by
  have hrun : KRun (fun op s => op.KeepsForest s) selfKilled := by
    refine userOnCpu_keepsForest.selfKilled (.of_not nofun nofun ?_)
    rintro ⟨hcur, -⟩
    exact absurd hcur (by decide +kernel)
  exact ⟨by decide +kernel, genealogy_forest _ hrun⟩

end HekaOS.Tasks
