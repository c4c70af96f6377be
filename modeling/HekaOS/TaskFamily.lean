import HekaOS.TaskTree

/-!
# The tasks as one family

`Roll` ties the lists of children, the scheduler list and the globals together, and holds whatever
the reaper points to; in a `Clan` that is a task in use. In a `Family` the parent pointers agree with the lists, and a zombie has no children, `init_proc` aside: then
nobody points to a task when it is reaped.
-/

namespace HekaOS.Tasks
open KernelMemory PointerChain TransitionSystem

variable {trigger : Prop} {s t u : KState} {kids : ℕ → List ℕ} {order : List ℕ} {a b c p z fuel : ℕ}

structure Roll (s : KState) (kids : ℕ → List ℕ) (order : List ℕ) : Prop where
  kin : Kin s kids
  list : Chain s.next s.taskListHead order
  mem : ∀ a, a ∈ order ↔ a ∈ s.live ∧ a ≠ kthreaddTask
  init : initTask ∈ s.live
  kthreadd : kthreaddTask ∈ s.live
  orphan : (s.task initTask).parent = none
  idle : (s.task kthreaddTask).state ≠ .zombie
  current : s.currentTask ∈ order
  settled : s.needResched = false

/-- `init_proc` was not freed. -/
structure Clan (s : KState) (kids : ℕ → List ℕ) (order : List ℕ) : Prop extends Roll s kids order where
  initProc : ∀ i ∈ s.initProc, i ∈ s.live

structure Family (s : KState) (kids : ℕ → List ℕ) (order : List ℕ) : Prop extends Clan s kids order where
  parent : ∀ c ∈ s.live, ∀ p, (s.task c).parent = some p → p ∈ s.live ∧ c ∈ kids p
  root : ∀ c ∈ s.live, (s.task c).parent = none → s.sibling c = none
  before : s.initProc = none →
    (s.task kthreaddTask).parent = some initTask ∧ (s.task initTask).state ≠ .zombie
  childless : ∀ z ∈ s.live, (s.task z).state = .zombie → some z ≠ s.initProc → kids z = []

/-- The tasks in use have the same links. -/
structure SameLinks (s t : KState) : Prop where
  task : ∀ a ∈ s.live, (t.task a).parent = (s.task a).parent ∧ (t.task a).children = (s.task a).children ∧
    t.sibling a = s.sibling a ∧ t.next a = s.next a
  rest : SameGlobals s t

theorem CalmLive.sameLinks (h : CalmLive trigger s t) : SameLinks s t :=
  ⟨fun a ha => ⟨(h.task a ha).parent, (h.task a ha).children, (h.task a ha).sibling, (h.task a ha).next⟩, h.rest⟩

theorem sameLinks_state (a : ℕ) (st : TaskState) (s : KState) :
    SameLinks s (s.modify a fun x => { x with state := st }) :=
  ⟨fun b _ => ⟨s.modify_field a b _ Task.parent rfl, s.modify_field a b _ Task.children rfl,
    s.modify_field a b _ Task.sibling rfl, s.modify_field a b _ Task.next rfl⟩, rfl⟩

theorem Kin.sameLinks (h : Kin s kids) (hl : SameLinks s t) : Kin t kids := by
  have hlive := hl.rest.live
  refine ⟨fun p hp => ?_, fun p hp c hc => ?_⟩
  · rw [hlive] at hp
    rw [(hl.task p hp).2.1]
    exact (h.chain p hp).congr fun b hb => (hl.task b (h.child p hp b hb).1).2.2.1
  · rw [hlive] at hp ⊢
    have hchild := h.child p hp c hc
    rw [(hl.task c hchild.1).1]
    exact hchild

namespace Roll

theorem live (h : Roll s kids order) (ha : a ∈ order) : a ∈ s.live := ((h.mem a).mp ha).1

theorem init_not_mem (h : Roll s kids order) (hp : p ∈ s.live) : initTask ∉ kids p := by
  intro hmem
  exact nomatch h.orphan.symm.trans (h.kin.child p hp _ hmem).2

theorem sameLinks (h : Roll s kids order) (hl : SameLinks s t)
    (hidle : (t.task kthreaddTask).state ≠ .zombie) : Roll t kids order := by
  have hlive := hl.rest.live
  refine ⟨h.kin.sameLinks hl, ?_, hlive ▸ h.mem, hlive ▸ h.init, hlive ▸ h.kthreadd, ?_, hidle,
    hl.rest.currentTask ▸ h.current, hl.rest.needResched.trans h.settled⟩
  · rw [hl.rest.head]
    exact h.list.congr fun b hb => (hl.task b (h.live hb)).2.2.2
  · rw [(hl.task _ h.init).1]
    exact h.orphan

theorem calm (h : Roll s kids order) (hc : CalmLive trigger s t) : Roll t kids order :=
  h.sameLinks hc.sameLinks (mt (hc.task _ h.kthreadd).zombie.mp h.idle)

/-- The state of a task on the scheduler list changes. -/
theorem restate (h : Roll s kids order) (ha : a ∈ order) (st : TaskState) :
    Roll (s.modify a fun x => { x with state := st }) kids order := by
  refine h.sameLinks (sameLinks_state a st s) ?_
  have hne : kthreaddTask ≠ a := fun he => ((h.mem a).mp ha).2 he.symm
  rw [s.modify_task_of_ne _ hne]
  exact h.idle

theorem switched (h : Roll s kids order) (hs : Switched s t) : Roll t kids order := by
  have hcur := hs.mem order h.list (fun a => h.live) h.current
  have ht := h.calm hs.calm.calmLive
  exact { ht with
    kin := ⟨ht.kin.chain, ht.kin.child⟩
    current := hcur
    settled := hs.settled }

/-- A task on the scheduler list hands its children to the reaper. -/
theorem orphans (h : Roll s kids order) (ha : a ∈ order)
    (hrun : orphanChildren fuel a s.reaper fuel s = .ok t) : Roll t (adopt kids a s.reaper) order := by
  have hlinks := linksOnly_orphan hrun
  obtain ⟨hkin, hparent, -⟩ := h.kin.orphan (h.live ha) hrun
  have hl := hlinks.globals.live
  refine ⟨hkin, ?_, hl ▸ h.mem, hl ▸ h.init, hl ▸ h.kthreadd, ?_, ?_,
    hlinks.globals.currentTask ▸ h.current, hlinks.globals.needResched.trans h.settled⟩
  · rw [hlinks.globals.head, hlinks.next]
    exact h.list
  · rw [hparent, if_neg (h.init_not_mem (h.live ha))]
    exact h.orphan
  · rw [hlinks.state]
    exact h.idle

/-- A task that has handed over its children has none. -/
theorem adopt_self (h : Roll s kids order) (ha : a ∈ order)
    (hrun : orphanChildren fuel a s.reaper fuel s = .ok t) : adopt kids a s.reaper a = [] := by
  refine Tasks.adopt_self fun hne => orphan_ne hrun fun hnone => hne ?_
  have hchain := h.kin.chain a (h.live ha)
  rw [hnone] at hchain
  exact hchain.eq_nil

end Roll

/-- What the end of `a` means for the others. -/
structure Ended (a : ℕ) (kids : ℕ → List ℕ) (s t : KState) : Prop where
  empty : adopt kids a s.reaper a = []
  reaper : kids a ≠ [] → s.reaper ≠ a
  parent : ∀ b ∈ s.live, (t.task b).parent = if b ∈ kids a then some s.reaper else (s.task b).parent
  sibling : ∀ b ∈ s.live, b ∉ kids a → t.sibling b = s.sibling b
  zombie : (t.task a).state = .zombie
  others : ∀ b ∈ s.live, b ≠ a → ((t.task b).state = .zombie ↔ (s.task b).state = .zombie) ∧
    ((t.task b).state = .blocked → (s.task b).state = .blocked)
  woken : ∀ p, (s.task a).parent = some p → (t.task p).state ≠ .blocked
  adopted : kids a ≠ [] → (t.task s.reaper).state ≠ .blocked

theorem Roll.exits (h : Roll s kids order) (ha : a ∈ order) (he : Exits a s t) :
    Roll t (adopt kids a s.reaper) order ∧ Ended a kids s t := by
  obtain ⟨fuel, code, u, v, hu, hv, ht, hparent, hreaper⟩ := he
  have hcode : ∀ {α : Type} (g : Task → α), (∀ x n, g { x with exitCode := n } = g x) → ∀ b,
      g ((s.modify a fun x => { x with exitCode := code }).task b) = g (s.task b) :=
    fun g hg b => s.modify_field a b _ g (hg _ _)
  have hlinks : SameLinks s u := by
    refine ⟨fun b _ => ⟨?_, ?_, ?_, ?_⟩, ?_⟩
    · rw [(hu.task b).parent, hcode Task.parent fun _ _ => rfl]
    · rw [(hu.task b).children, hcode Task.children fun _ _ => rfl]
    · exact (hu.task b).sibling.trans (hcode Task.sibling (fun _ _ => rfl) b)
    · exact (hu.task b).next.trans (hcode Task.next (fun _ _ => rfl) b)
    · have hglobals : SameGlobals s (s.modify a fun x => { x with exitCode := code }) := rfl
      exact hglobals.trans hu.rest
  have hidle : (u.task kthreaddTask).state ≠ .zombie := by
    rw [ne_eq, (hu.task _).zombie, hcode Task.state fun _ _ => rfl]
    exact h.idle
  have hcu := h.sameLinks hlinks hidle
  have hr := hlinks.rest.reaper
  rw [← hr] at hv
  have hcv := hcu.orphans ha hv
  have hempty := hcu.adopt_self ha hv
  obtain ⟨-, hpv, hsv, -⟩ := hcu.kin.orphan (hcu.live ha) hv
  rw [hr] at hv hcv hempty hpv
  have hlv : v.live = s.live := (linksOnly_orphan hv).globals.live.trans hlinks.rest.live
  have hzombie : (t.task a).state = .zombie := by
    rw [(ht.task a).zombie, KState.modify_task_self]
  have hnonempty : kids a ≠ [] → (u.task a).children ≠ none := by
    intro hne hnone
    have hchain := hcu.kin.chain a (hcu.live ha)
    rw [hnone] at hchain
    exact hne hchain.eq_nil
  have hpt : ∀ b ∈ s.live, (t.task b).parent = if b ∈ kids a then some s.reaper else (s.task b).parent := by
    intro b hb
    rw [(ht.task b).parent, v.modify_field a b _ Task.parent rfl, hpv b, (hlinks.task b hb).1]
  refine ⟨(hcv.restate ha .zombie).calm ht.calmLive, hempty, fun hne => orphan_ne hv (hnonempty hne), hpt,
    fun b hb hba => ?_, hzombie, fun b hb hba => ?_, fun p hp => ?_, fun hne => ?_⟩
  · have hmark : (v.modify a fun x => { x with state := .zombie }).sibling b = v.sibling b :=
      v.modify_field a b _ Task.sibling rfl
    rw [← (hlinks.task b hb).2.2.1, ← hsv b hba, ← hmark]
    exact (ht.task b).sibling
  · have hmark : ((v.modify a fun x => { x with state := .zombie }).task b).state = (u.task b).state := by
      rw [KState.modify_task_of_ne v _ hba, (linksOnly_orphan hv).state]
    constructor
    · rw [(ht.task b).zombie, hmark, (hu.task b).zombie, hcode Task.state fun _ _ => rfl]
    · intro hb'
      have hb₁ := ((ht.task b).blocked hb').resolve_right id
      rw [hmark] at hb₁
      have hb₂ := ((hu.task b).blocked hb₁).resolve_right id
      rwa [hcode Task.state fun _ _ => rfl] at hb₂
  · by_cases hself : a ∈ kids a
    · -- a task that was its own parent is now a zombie
      have hpa := (h.kin.child a (h.live ha) a hself).2
      obtain rfl := Option.some.inj (hpa.symm.trans hp)
      rw [hzombie]
      nofun
    · refine hparent p ?_
      rw [hpv a, if_neg hself, (hlinks.task a (h.live ha)).1]
      exact hp
  · exact hreaper (hnonempty hne) (orphan_ne hv (hnonempty hne))

/-- A new task, whatever its parent pointer leads to. -/
theorem Roll.born (h : Roll s kids order) (hb : Born p c s t) : Roll t (bear kids p c) (c :: order) := by
  have hd := hb.delivered
  have hl : t.live = insert c s.live := by rw [hb.rest]
  have hne : ∀ {q}, q ∈ s.live → q ≠ c := fun hq he => hb.fresh (he ▸ hq)
  refine ⟨h.kin.born hb, ⟨?_, ?_⟩, ?_, ?_, ?_, ?_, ?_, ?_, ?_⟩
  · rw [hb.rest]
  · rw [hd.next]
    exact h.list.congr fun b hb' => (hd.task b (hne (h.live hb'))).2.2.1
  · intro b
    rw [List.mem_cons, h.mem, hl, Finset.mem_insert]
    have hk : kthreaddTask ≠ c := hne h.kthreadd
    constructor
    · rintro (rfl | ⟨hb', hbk⟩)
      · exact ⟨.inl rfl, hk.symm⟩
      · exact ⟨.inr hb', hbk⟩
    · rintro ⟨rfl | hb', hbk⟩
      · exact .inl rfl
      · exact .inr ⟨hb', hbk⟩
  · rw [hl]
    exact Finset.mem_insert_of_mem h.init
  · rw [hl]
    exact Finset.mem_insert_of_mem h.kthreadd
  · rw [(hd.task _ (hne h.init)).1]
    exact h.orphan
  · rw [(hd.task _ (hne h.kthreadd)).2.2.2]
    exact h.idle
  · rw [hb.rest]
    exact List.mem_cons_of_mem c h.current
  · rw [hb.rest]
    exact h.settled

/-- A zombie that is not on the CPU is reaped, wherever its parent pointer leads. -/
theorem Roll.reaped (h : Roll s kids order) (hzi : z ≠ initTask) (hzombie : (s.task z).state = .zombie)
    (hcur : z ≠ s.currentTask) (hrun : taskReap fuel z s = .ok t) :
    Roll t (fun q => (kids q).erase z) (order.erase z) := by
  obtain ⟨hkin, hparent, -⟩ := h.kin.reaped hrun
  obtain ⟨hlist, -, hfield⟩ := taskReap_order h.list hrun
  have hrest := taskReap_rest hrun
  have hzk : z ≠ kthreaddTask := fun he => h.idle (he ▸ hzombie)
  have hlive : t.live = s.live.erase z := by rw [hrest]
  refine ⟨hkin, hlist, fun b => ?_, ?_, ?_, ?_, ?_, ?_, ?_⟩
  · rw [h.list.nodup.mem_erase_iff, h.mem, hlive, Finset.mem_erase, and_assoc]
  · rw [hlive]
    exact Finset.mem_erase.mpr ⟨hzi.symm, h.init⟩
  · rw [hlive]
    exact Finset.mem_erase.mpr ⟨hzk.symm, h.kthreadd⟩
  · rw [hparent, if_neg hzi.symm]
    exact h.orphan
  · rw [hfield Task.state fun _ _ _ _ _ => rfl]
    exact h.idle
  · rw [hrest]
    exact h.list.nodup.mem_erase_iff.mpr ⟨hcur.symm, h.current⟩
  · rw [hrest]
    exact h.settled

namespace Clan

theorem reaper_mem (h : Clan s kids order) : s.reaper ∈ s.live := by
  unfold KState.reaper
  cases hi : s.initProc with
  | none => exact h.init
  | some i => exact h.initProc i hi

/-- A task is born to a task in use. -/
theorem bears_mem {op : KOp} (h : Clan s kids order) (hp : op.Bears s p) : p ∈ s.live := by
  cases op with
  | execInitFn env size =>
    obtain rfl : p = initTask := hp
    exact h.init
  | execFn env addr size =>
    obtain rfl : p = kthreaddTask := hp
    exact h.kthreadd
  | execUserFn env size => exact h.initProc p hp
  | syscall env frame =>
    obtain ⟨-, rfl⟩ : _ ∧ p = s.currentTask := hp
    exact h.live h.current
  | _ => exact hp.elim

/-- The same tasks are in use, and the reaper is the same. -/
theorem of_roll {kids' : ℕ → List ℕ} {order' : List ℕ} (h : Clan s kids order) (ht : Roll t kids' order')
    (hl : t.live = s.live) (hi : t.initProc = s.initProc) : Clan t kids' order' := by
  refine ⟨ht, ?_⟩
  rw [hl, hi]
  exact h.initProc

theorem calm (h : Clan s kids order) (hc : CalmLive trigger s t) : Clan t kids order :=
  h.of_roll (h.toRoll.calm hc) hc.rest.live hc.rest.initProc

theorem restate (h : Clan s kids order) (ha : a ∈ order) (st : TaskState) :
    Clan (s.modify a fun x => { x with state := st }) kids order := h.of_roll (h.toRoll.restate ha st) rfl rfl

theorem switched (h : Clan s kids order) (hs : Switched s t) : Clan t kids order :=
  h.of_roll (h.toRoll.switched hs) hs.calm.rest.live hs.calm.rest.initProc

theorem exits (h : Clan s kids order) (ha : a ∈ order) (he : Exits a s t) :
    Clan t (adopt kids a s.reaper) order ∧ Ended a kids s t := by
  obtain ⟨hroll, hended⟩ := h.toRoll.exits ha he
  exact ⟨h.of_roll hroll he.globals.live he.globals.initProc, hended⟩

/-- A new task may become `init_proc`. -/
theorem born (h : Clan s kids order) (hb : Born p c s t)
    (hinit : t.initProc = s.initProc ∨ t.initProc = some c) : Clan t (bear kids p c) (c :: order) := by
  have hl : t.live = insert c s.live := by rw [hb.rest]
  refine ⟨h.toRoll.born hb, fun i hi => ?_⟩
  rw [hl]
  rcases hinit with hinit | hinit
  · exact Finset.mem_insert_of_mem (h.initProc i (hinit ▸ hi))
  · obtain rfl := Option.some.inj (hinit.symm.trans hi)
    exact Finset.mem_insert_self _ _

end Clan

/-- What is left when `z`, a child of `p`, was reaped. -/
structure Buried (p z : ℕ) (kids : ℕ → List ℕ) (s t : KState) : Prop where
  rest : t = { s with
    task := t.task
    taskListHead := t.taskListHead
    live := s.live.erase z
    trace := t.trace }
  parent : ∀ b ≠ z, (t.task b).parent = (s.task b).parent
  sibling : ∀ b ≠ z, b ∉ kids p → t.sibling b = s.sibling b
  state : ∀ b, (t.task b).state = (s.task b).state

theorem Buried.mem_live {kids : ℕ → List ℕ} (h : Buried p z kids s t) :
    b ∈ t.live ↔ b ≠ z ∧ b ∈ s.live := by
  rw [h.rest]
  exact Finset.mem_erase

/-- A zombie that is neither `init_proc` nor on the CPU is reaped. -/
theorem Clan.reaped (h : Clan s kids order) (hp : p ∈ s.live) (hzp : z ∈ kids p)
    (hzombie : (s.task z).state = .zombie) (hinit : some z ≠ s.initProc) (hcur : z ≠ s.currentTask)
    (hrun : taskReap fuel z s = .ok t) :
    (∃ order', Clan t (Function.update kids p ((kids p).erase z)) order') ∧ Buried p z kids s t := by
  obtain ⟨hz, hparent⟩ := h.kin.child p hp z hzp
  have hzi : z ≠ initTask := fun he => h.init_not_mem hp (he ▸ hzp)
  have hroll := h.toRoll.reaped hzi hzombie hcur hrun
  obtain ⟨-, -, hfield⟩ := taskReap_order h.list hrun
  obtain ⟨pre, post, hkids⟩ := List.append_of_mem hzp
  have hremoved := taskReap_child (hkids ▸ h.kin.chain p hp) hparent hrun
  have hrest := taskReap_rest hrun
  have hburied : Buried p z kids s t := by
    refine ⟨hrest, fun b hb => ?_, fun b hb hbp => ?_, fun b => hfield Task.state (fun _ _ _ _ _ => rfl) b⟩
    · rw [hremoved.parent, if_neg hb]
    · have hlast : pre.getLast? ≠ some b :=
        fun he => hbp (hkids ▸ List.mem_append_left _ (List.mem_of_getLast? he))
      rw [hremoved.sibling, if_neg hb, if_neg hlast]
  refine ⟨⟨order.erase z, ⟨{ hroll with kin := hroll.kin.congr fun q hq => ?_ }, fun i hi => ?_⟩⟩, hburied⟩
  · -- only one list holds the reaped task
    by_cases hqp : q = p
    · subst hqp
      rw [Function.update_self]
    · rw [Function.update_of_ne hqp, List.erase_of_not_mem]
      exact fun hzq => hqp (h.kin.parent_unique (hburied.mem_live.mp hq).2 hp hzq hzp)
  · rw [hrest] at hi
    exact hburied.mem_live.mpr ⟨fun he => hinit (he ▸ hi.symm), h.initProc i hi⟩

namespace Family

theorem sameLinks (h : Family s kids order) (hl : SameLinks s t) (hc : Clan t kids order)
    (hinit : s.initProc = none → (t.task initTask).state ≠ .zombie)
    (hchildless : ∀ z ∈ s.live, (t.task z).state = .zombie → some z ≠ s.initProc → kids z = []) :
    Family t kids order := by
  have hlive := hl.rest.live
  refine ⟨hc, fun c hc p hp => ?_, fun c hc hp => ?_, fun hn => ?_, fun z hz hzombie hne => ?_⟩
  · rw [hlive] at hc ⊢
    exact h.parent c hc p ((hl.task c hc).1 ▸ hp)
  · rw [hlive] at hc
    exact (hl.task c hc).2.2.1.trans (h.root c hc ((hl.task c hc).1 ▸ hp))
  · rw [hl.rest.initProc] at hn
    rw [(hl.task _ h.kthreadd).1]
    exact ⟨(h.before hn).1, hinit hn⟩
  · exact hchildless z (hlive ▸ hz) hzombie (hl.rest.initProc ▸ hne)

theorem calm (h : Family s kids order) (hc : CalmLive trigger s t) : Family t kids order :=
  h.sameLinks hc.sameLinks (h.toClan.calm hc) (fun hn => mt (hc.task _ h.init).zombie.mp (h.before hn).2)
    fun z hz hzombie hne => h.childless z hz ((hc.task z hz).zombie.mp hzombie) hne

theorem switched (h : Family s kids order) (hs : Switched s t) : Family t kids order := by
  have ht := h.calm hs.calm.calmLive
  exact ⟨h.toClan.switched hs, ht.parent, ht.root, ht.before, ht.childless⟩

/-- The current task blocks. -/
theorem blocks (h : Family s kids order) : Family (blockCurrent s) kids order := by
  have hstate : ∀ b, ((blockCurrent s).task b).state = .zombie → (s.task b).state = .zombie := by
    intro b hb
    by_cases hbc : b = s.currentTask
    · rw [hbc, blockCurrent, KState.modify_task_self] at hb
      exact nomatch hb
    · rwa [blockCurrent, KState.modify_task_of_ne s _ hbc] at hb
  exact h.sameLinks (sameLinks_state _ _ s) (h.toClan.restate h.current .blocked)
    (fun hn => mt (hstate _) (h.before hn).2) fun z hz hzombie hne => h.childless z hz (hstate z hzombie) hne

/-- The reaper is `init_proc`, or no zombie. -/
theorem reaper_zombie (h : Family s kids order) (hz : (s.task s.reaper).state = .zombie) :
    some s.reaper = s.initProc := by
  unfold KState.reaper at *
  cases hi : s.initProc with
  | none =>
    rw [hi] at hz
    exact absurd hz (h.before hi).2
  | some i => rfl

/-- Without `init_proc` the reaper is `init_task`, which has the child `kthreadd` and so cannot
end. -/
theorem ne_init (h : Family s kids order) (he : Ended a kids s t) (hn : s.initProc = none) : a ≠ initTask := by
  rintro rfl
  have hchild := (h.parent _ h.kthreadd _ (h.before hn).1).2
  refine he.reaper (List.ne_nil_of_mem hchild) ?_
  rw [KState.reaper, hn]
  rfl

theorem exits (h : Family s kids order) (ha : a ∈ order) (he : Exits a s t) :
    Family t (adopt kids a s.reaper) order ∧ Ended a kids s t := by
  obtain ⟨hc, hended⟩ := h.toClan.exits ha he
  have hl := he.globals.live
  have hi := he.globals.initProc
  refine ⟨⟨hc, fun c hc p hp => ?_, fun c hc hp => ?_, fun hn => ?_, fun z hz hzombie hne => ?_⟩, hended⟩
  · rw [hl] at hc ⊢
    rw [hended.parent c hc] at hp
    split at hp
    · rename_i hca
      obtain rfl := Option.some.inj hp
      exact ⟨h.reaper_mem, mem_adopt_reaper hca⟩
    · rename_i hca
      obtain ⟨hpl, hcp⟩ := h.parent c hc p hp
      exact ⟨hpl, mem_adopt (fun he => hca (he ▸ hcp)) hcp⟩
  · rw [hl] at hc
    rw [hended.parent c hc] at hp
    split at hp
    · exact nomatch hp
    · rename_i hca
      rw [hended.sibling c hc hca]
      exact h.root c hc hp
  · rw [hi] at hn
    have hr : s.reaper = initTask := by
      rw [KState.reaper, hn]
      rfl
    refine ⟨?_, ?_⟩
    · rw [hended.parent _ h.kthreadd, hr]
      split
      · rfl
      · exact (h.before hn).1
    · rw [ne_eq, (hended.others _ h.init (h.ne_init hended hn).symm).1]
      exact (h.before hn).2
  · rw [hl] at hz
    rw [hi] at hne
    by_cases hza : z = a
    · rw [hza, hended.empty]
    · rw [(hended.others z hz hza).1] at hzombie
      have hzr : z ≠ s.reaper := by
        rintro rfl
        exact hne (h.reaper_zombie hzombie)
      rw [adopt_of_ne hza hzr]
      exact h.childless z hz hzombie hne

/-- A task is born to a task that is `init_proc` or no zombie. -/
theorem born (h : Family s kids order) (hp : p ∈ s.live)
    (hzombie : (s.task p).state = .zombie → some p = t.initProc) (hb : Born p c s t)
    (hinit : t.initProc = s.initProc ∨ t.initProc = some c ∧ s.initProc = none) :
    Family t (bear kids p c) (c :: order) := by
  have hd := hb.delivered
  have hl : t.live = insert c s.live := by rw [hb.rest]
  have hne : ∀ {q}, q ∈ s.live → q ≠ c := fun hq he => hb.fresh (he ▸ hq)
  refine ⟨h.toClan.born hb (hinit.imp_right And.left), fun b hb' q hq => ?_, fun b hb' hnone => ?_,
    fun hn => ?_, fun z hz hzombie' hzi => ?_⟩
  · rw [hl] at hb' ⊢
    rcases Finset.mem_insert.mp hb' with rfl | hb'
    · rw [hd.parent] at hq
      obtain rfl := Option.some.inj hq
      refine ⟨Finset.mem_insert_of_mem hp, ?_⟩
      rw [bear, Function.update_self]
      exact List.mem_cons_self
    · rw [(hd.task b (hne hb')).1] at hq
      obtain ⟨hql, hbq⟩ := h.parent b hb' q hq
      exact ⟨Finset.mem_insert_of_mem hql, mem_bear (hne hql) hbq⟩
  · rw [hl] at hb'
    rcases Finset.mem_insert.mp hb' with rfl | hb'
    · rw [hd.parent] at hnone
      cases hnone
    · rw [(hd.task b (hne hb')).1] at hnone
      rw [(hd.task b (hne hb')).2.1]
      exact h.root b hb' hnone
  · rcases hinit with hinit | ⟨hinit, -⟩
    · rw [(hd.task _ (hne h.kthreadd)).1, (hd.task _ (hne h.init)).2.2.2]
      exact h.before (hinit ▸ hn)
    · cases hinit.symm.trans hn
  · rw [hl] at hz
    rcases Finset.mem_insert.mp hz with rfl | hz
    · rw [hb.state] at hzombie'
      cases hzombie'
    · rw [(hd.task z (hne hz)).2.2.2] at hzombie'
      have hzp : z ≠ p := by
        rintro rfl
        exact hzi (hzombie hzombie')
      rw [bear_of_ne (hne hz) hzp]
      refine h.childless z hz hzombie' fun he => ?_
      rcases hinit with hinit | ⟨-, hnone⟩
      · exact hzi (he.trans hinit.symm)
      · cases he.trans hnone

/-- A zombie other than `init_proc` is reaped. -/
theorem reaped (h : Family s kids order) (hp : p ∈ s.live) (hzp : z ∈ kids p)
    (hzombie : (s.task z).state = .zombie) (hinit : some z ≠ s.initProc) (hcur : z ≠ s.currentTask)
    (hrun : taskReap fuel z s = .ok t) :
    ∃ kids' order', Family t kids' order' ∧ Buried p z kids s t := by
  obtain ⟨⟨order', hc⟩, hb⟩ := h.toClan.reaped hp hzp hzombie hinit hcur hrun
  have hchildless := h.childless z (h.kin.child p hp z hzp).1 hzombie hinit
  have hproc : t.initProc = s.initProc := by rw [hb.rest]
  have hzk : kthreaddTask ≠ z := fun he => h.idle (he ▸ hzombie)
  refine ⟨_, order', ⟨hc, fun b hb' q hq => ?_, fun b hb' hnone => ?_, fun hn => ?_,
    fun y hy hyz hyi => ?_⟩, hb⟩
  · obtain ⟨hbz, hbl⟩ := hb.mem_live.mp hb'
    rw [hb.parent b hbz] at hq
    obtain ⟨hql, hbq⟩ := h.parent b hbl q hq
    have hqz : q ≠ z := by
      rintro rfl
      rw [hchildless] at hbq
      exact nomatch hbq
    refine ⟨hb.mem_live.mpr ⟨hqz, hql⟩, ?_⟩
    by_cases hqp : q = p
    · subst hqp
      rw [Function.update_self]
      exact (List.mem_erase_of_ne hbz).mpr hbq
    · rwa [Function.update_of_ne hqp]
  · obtain ⟨hbz, hbl⟩ := hb.mem_live.mp hb'
    rw [hb.parent b hbz] at hnone
    have hbp : b ∉ kids p := fun hmem => nomatch hnone.symm.trans (h.kin.child p hp b hmem).2
    rw [hb.sibling b hbz hbp]
    exact h.root b hbl hnone
  · rw [hproc] at hn
    rw [hb.parent _ hzk, hb.state]
    exact h.before hn
  · obtain ⟨-, hyl⟩ := hb.mem_live.mp hy
    rw [hb.state] at hyz
    rw [hproc] at hyi
    have hnone := h.childless y hyl hyz hyi
    have hyp : y ≠ p := by
      rintro rfl
      rw [hnone] at hzp
      exact nomatch hzp
    rw [Function.update_of_ne hyp]
    exact hnone

theorem boot (hb : Boot s) :
    Family s (Function.update (fun _ => []) initTask [kthreaddTask]) [initTask] := by
  obtain ⟨junk, user, rfl⟩ := hb
  have hlive : ∀ a, a ∈ (taskInit junk user).live ↔ a = initTask ∨ a = kthreaddTask := by
    intro a
    simp only [taskInit, Finset.mem_insert, Finset.mem_singleton]
  have hkids : ∀ p ∈ (taskInit junk user).live, ∀ c,
      c ∈ Function.update (fun _ => []) initTask [kthreaddTask] p ↔ p = initTask ∧ c = kthreaddTask := by
    intro p hp c
    rcases (hlive p).mp hp with rfl | rfl <;> simp [initTask, kthreaddTask]
  refine ⟨⟨⟨⟨?_, ?_⟩, ⟨rfl, rfl⟩, ?_, (hlive _).mpr (.inl rfl), (hlive _).mpr (.inr rfl), rfl, nofun,
    List.mem_cons_self, rfl⟩, nofun⟩, ?_, ?_, fun _ => ⟨rfl, nofun⟩, ?_⟩
  · intro p hp
    rcases (hlive p).mp hp with rfl | rfl
    · exact ⟨rfl, rfl⟩
    · exact rfl
  · intro p hp c hc
    obtain ⟨rfl, rfl⟩ := (hkids p hp c).mp hc
    exact ⟨(hlive _).mpr (.inr rfl), rfl⟩
  · intro a
    rw [List.mem_singleton, hlive]
    simp only [initTask, kthreaddTask]
    omega
  · intro c hc p hp
    rcases (hlive c).mp hc with rfl | rfl
    · exact nomatch hp
    · obtain rfl := Option.some.inj hp
      exact ⟨(hlive _).mpr (.inl rfl), List.mem_cons_self⟩
  · intro c hc _
    rcases (hlive c).mp hc with rfl | rfl <;> rfl
  · intro z hz hzombie
    rcases (hlive z).mp hz with rfl | rfl <;> exact nomatch hzombie

end Family

end HekaOS.Tasks
