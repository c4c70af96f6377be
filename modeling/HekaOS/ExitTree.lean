import HekaOS.CpuRuns
import HekaOS.JobControl
import HekaOS.TaskForest

/-!
# The genealogy behind an exit

`do_exit` moves the children of the dying task, last one first, in front of the children of the
reaper. The rest of the tree is left as it is, and only the parent and a reaper that has gained
children hear of it.
-/

namespace HekaOS.Tasks
open KernelMemory PointerChain

variable {s t u v : KState} {a b c p r fuel code : ℕ}

/-- The tasks that are sent `SIGCHLD` when `a` ends. -/
def KState.Notified (s : KState) (a b : ℕ) : Prop :=
  (s.task a).parent = some b ∨ (s.task a).children ≠ none ∧ b = s.reaper

instance (s : KState) (a b : ℕ) : Decidable (s.Notified a b) := inferInstanceAs (Decidable (_ ∨ _))

/-- `a` is met on the way from `b` up to the root. -/
def KState.Ancestor (s : KState) (a b : ℕ) : Prop := ∃ l, Chain s.parent (s.parent b) l ∧ a ∈ l

/-- What `do_exit` leaves, when `kids` are the children of the task and `wards` those of the reaper. -/
structure Exited (a code : ℕ) (kids wards : List ℕ) (s t : KState) : Prop where
  zombie : (t.task a).state = .zombie
  exitCode : (t.task a).exitCode = code
  childless : (t.task a).children = none
  adopted : Chain t.sibling (t.task s.reaper).children (kids.reverse ++ wards)
  reparented : ∀ c ∈ kids.reverse ++ wards, (t.task c).parent = some s.reaper
  parent : ∀ b ∉ kids, (t.task b).parent = (s.task b).parent
  children : ∀ b, b ≠ a → b ≠ s.reaper → (t.task b).children = (s.task b).children
  sibling : ∀ b ∉ kids, t.sibling b = s.sibling b
  forest : Forest t
  pending : ∀ b, (t.task b).pendingSignals =
    if s.Notified a b then (s.task b).pendingSignals ||| sigmask sigchld else (s.task b).pendingSignals
  state : ∀ b ≠ a, (t.task b).state =
    if s.Notified a b ∧ (s.task b).state = .blocked then .runnable else (s.task b).state
  fields : ∀ b, t.task b = { s.task b with
    state := (t.task b).state
    exitCode := if b = a then code else (s.task b).exitCode
    parent := (t.task b).parent
    children := (t.task b).children
    sibling := (t.task b).sibling
    pendingSignals := (t.task b).pendingSignals }
  rest : t = { s with task := t.task }

/-- A struct that was sent `SIGCHLD`. -/
theorem signalSend_sigchld (x : Task) : x.signalSend sigchld =
    { x with
      pendingSignals := x.pendingSignals ||| sigmask sigchld
      state := if x.state = .blocked then .runnable else x.state } := by
  have hcont : ¬sigchld = sigcont := by decide
  have hkill : ¬sigchld = sigkill := by decide
  have hstop : ¬sigmask sigchld &&& sigStopMask ≠ 0 := by decide
  simp only [Task.signalSend, if_neg hcont, if_neg hstop, hkill, and_false, or_false]
  rw [if_neg (by decide)]
  split <;> rfl

/-- The struct of a task that is sent `SIGCHLD` if it is one of the notified. -/
def Task.notifiedIf (notified : Prop) [Decidable notified] (x : Task) : Task :=
  { x with
    pendingSignals := if notified then x.pendingSignals ||| sigmask sigchld else x.pendingSignals
    state := if notified ∧ x.state = .blocked then .runnable else x.state }

theorem notifiedIf_of_not {n : Prop} [Decidable n] (hn : ¬n) (x : Task) : x.notifiedIf n = x := by
  simp [Task.notifiedIf, hn]

theorem signalSend_notifiedIf {n : Prop} [Decidable n] (hn : n) (x : Task) :
    x.signalSend sigchld = x.notifiedIf n := by
  rw [signalSend_sigchld]
  simp [Task.notifiedIf, hn]

/-- A second `SIGCHLD` adds nothing. -/
theorem notifiedIf_notifiedIf (m n : Prop) [Decidable m] [Decidable n] (x : Task) :
    (x.notifiedIf n).notifiedIf m = x.notifiedIf (m ∨ n) := by
  by_cases hm : m
  · by_cases hn : n
    · by_cases hx : x.state = .blocked
      · simp [Task.notifiedIf, hm, hn, hx, BitVec.or_assoc]
      · simp [Task.notifiedIf, hm, hn, hx, BitVec.or_assoc]
    · simp [Task.notifiedIf, hm, hn]
  · simp [Task.notifiedIf, hm]

theorem sendSigchld_task (p : ℕ) (s : KState) (b : ℕ) :
    (kernelSignalSend p sigchld s).task b = (s.task b).notifiedIf (b = p) := by
  by_cases hb : b = p
  · subst hb
    rw [kernelSignalSend, KState.modify_task_self, signalSend_notifiedIf (n := b = b) rfl]
  · rw [notifiedIf_of_not hb, kernelSignalSend, KState.modify_task_of_ne s _ hb]

theorem notifyParent_task (a : ℕ) (s : KState) (b : ℕ) :
    (notifyParent a s).task b = (s.task b).notifiedIf ((s.task a).parent = some b) := by
  unfold notifyParent
  cases hp : (s.task a).parent with
  | none => rw [notifiedIf_of_not nofun]
  | some p =>
    dsimp only
    rw [sendSigchld_task]
    simp only [Option.some.injEq, eq_comm]

theorem beginExit_task (code : ℕ) (hr : (s.task a).children ≠ none → s.reaper ≠ a) (b : ℕ) : (beginExit a code s).task b =
    { (s.task b).notifiedIf ((s.task a).children ≠ none ∧ b = s.reaper) with
      exitCode := if b = a then code else (s.task b).exitCode } := by
  have hcode : ∀ b, (s.modify a fun x => { x with exitCode := code }).task b =
      { s.task b with exitCode := if b = a then code else (s.task b).exitCode } := by
    intro b
    by_cases hb : b = a
    · subst hb
      rw [s.modify_task_self, if_pos rfl]
    · rw [s.modify_task_of_ne _ hb, if_neg hb]
  dsimp only [beginExit]
  have hchildren : ((s.modify a fun x => { x with exitCode := code }).task a).children = (s.task a).children := by
    rw [hcode]
  have hreaper : (s.modify a fun x => { x with exitCode := code }).reaper = s.reaper := rfl
  rw [hchildren, hreaper]
  by_cases hc : (s.task a).children ≠ none
  · rw [if_pos ⟨hc, hr hc⟩, sendSigchld_task, hcode]
    have hboth : ((s.task a).children ≠ none ∧ b = s.reaper) = (b = s.reaper) := by simp [hc]
    simp only [Task.notifiedIf, hboth]
  · rw [if_neg fun h => hc h.1, hcode, notifiedIf_of_not fun h => hc h.1]

/-- The walk along the parents still ends when the children of a task go to somebody who does not
descend from it. -/
theorem Forest.reparented {kids : List ℕ} (h : Forest s) (hr : r ∈ s.live) (hra : r ≠ a) (hanc : ¬s.Ancestor a r)
    (hkids : ∀ c ∈ kids, (s.task c).parent = some a)
    (hparent : ∀ b, (t.task b).parent = if b ∈ kids then some r else (s.task b).parent) (hb : b ∈ s.live) :
    ∃ l, Chain t.parent (some b) l := by
  obtain ⟨m, hm⟩ := h.ancestors r hr
  have hfree : ∀ c ∈ m, c ∉ kids := by
    intro c hc hck
    have hnext : a ∈ m := hm.mem_of_next hc (hkids c hck)
    cases m with
    | nil => exact absurd hc List.not_mem_nil
    | cons d m =>
      obtain rfl := Option.some.inj hm.1
      rcases List.mem_cons.mp hnext with he | hmem
      · exact hra he.symm
      · exact hanc ⟨m, hm.2, hmem⟩
  have hm' : Chain t.parent (some r) m := by
    refine hm.congr fun c hc => ?_
    rw [KState.parent, hparent, if_neg (hfree c hc)]
    rfl
  obtain ⟨l, hl⟩ := h.ancestors b hb
  refine hl.redirect (X := fun _ => True) hm' (fun c _ => ?_) fun _ _ => trivial
  rw [KState.parent, hparent]
  by_cases hc : c ∈ kids
  · rw [if_pos hc]
    exact .inl rfl
  · rw [if_neg hc]
    exact .inr ⟨rfl, fun _ _ => trivial⟩

/-- A task hands its children to somebody else, if `do_exit` returns. -/
theorem doExit_reaper (h : doExit fuel a code s = .ok t) (hc : (s.task a).children ≠ none) : s.reaper ≠ a := by
  obtain ⟨v, hv, -⟩ := bind_eq_ok.mp h
  have hcalm : Calm False (s.modify a fun x => { x with exitCode := code }) (beginExit a code s) := calm_beginExit
  have hchildren : ((beginExit a code s).task a).children = (s.task a).children :=
    (hcalm.task a).children.trans (s.modify_field a a _ Task.children rfl)
  rw [← hchildren] at hc
  exact orphan_ne hv hc

/-- A task that is its own child does not come to the end of `do_exit`. -/
theorem Tended.not_own {kids : ℕ → List ℕ} {order : List ℕ} (h : Tended s kids order)
    (hrun : doExit fuel s.currentTask code s = .ok t) : s.currentTask ∉ kids s.currentTask := by
  intro hmem
  have hproc := h.own _ h.current_mem hmem
  refine doExit_reaper hrun (fun hnone => ?_) ?_
  · have hchain := h.kin.chain _ h.current_mem
    rw [hnone] at hchain
    rw [hchain.eq_nil] at hmem
    exact absurd hmem List.not_mem_nil
  · rw [KState.reaper, ← hproc]
    rfl

/-- `do_exit` returns with the links changed as by its loop, and with the signals sent. -/
theorem doExit_spec {kids : ℕ → List ℕ} (hk : Kin s kids) (ha : a ∈ s.live) (hself : a ∉ kids a)
    (hrun : doExit fuel a code s = .ok t) : Kin t (adopt kids a s.reaper) ∧
      (∀ b, (t.task b).parent = if b ∈ kids a then some s.reaper else (s.task b).parent) ∧
      (∀ b ∉ kids a, t.sibling b = s.sibling b) ∧
      (∀ b, b ≠ a → b ≠ s.reaper → (t.task b).children = (s.task b).children) ∧
      (∀ b, ∃ p sb ch, t.task b = { (s.task b).notifiedIf (s.Notified a b) with
        state := if b = a then .zombie else ((s.task b).notifiedIf (s.Notified a b)).state
        exitCode := if b = a then code else (s.task b).exitCode
        parent := p
        sibling := sb
        children := ch }) ∧
      t = { s with task := t.task } := by
  have hr := doExit_reaper hrun
  obtain ⟨v, hv, h⟩ := bind_eq_ok.mp hrun
  obtain rfl := Except.ok.inj h
  have hbegin := beginExit_task code hr
  have hlinks : SameLinks s (beginExit a code s) := by
    have hcode : SameGlobals s (s.modify a fun x => { x with exitCode := code }) := rfl
    have hcalm : Calm False (s.modify a fun x => { x with exitCode := code }) (beginExit a code s) := calm_beginExit
    refine ⟨fun b _ => ?_, hcode.trans hcalm.rest⟩
    rw [KState.sibling, KState.next, hbegin]
    exact ⟨rfl, rfl, rfl, rfl⟩
  obtain ⟨hkv, hpv, hsv, hcv⟩ := (hk.sameLinks hlinks).orphan (hlinks.rest.live ▸ ha) hv
  have hloop := linksOnly_orphan hv
  generalize hw : (v.modify a fun x => { x with state := .zombie }) = w
  have hmark : SameLinks v w := hw ▸ sameLinks_state a .zombie v
  have hmarked : ∀ {α : Type} (g : Task → α), (∀ x st, g { x with state := st } = g x) →
      ∀ b, g (w.task b) = g (v.task b) := by
    intro α g hg b
    rw [← hw]
    exact v.modify_field a b _ g (hg _ _)
  have hnotify := notifyParent_task a w
  have hparent : ∀ b, ((notifyParent a w).task b).parent =
      if b ∈ kids a then some s.reaper else (s.task b).parent := by
    intro b
    rw [hnotify]
    refine (hmarked Task.parent (fun _ _ => rfl) b).trans ?_
    rw [hpv, hbegin]
    rfl
  have hlast : SameLinks w (notifyParent a w) := by
    have hcalm : Calm False w (notifyParent a w) := calm_notifyParent
    exact hcalm.calmLive.sameLinks
  refine ⟨(hkv.sameLinks hmark).sameLinks hlast, hparent, fun b hb => ?_, fun b hba hbr => ?_,
    fun b => ?_, ?_⟩
  · rw [KState.sibling, hnotify]
    refine (hmarked Task.sibling (fun _ _ => rfl) b).trans ((hsv b hb).trans ?_)
    rw [KState.sibling, hbegin]
    rfl
  · rw [hnotify]
    refine (hmarked Task.children (fun _ _ => rfl) b).trans ((hcv b hba hbr).trans ?_)
    rw [hbegin]
    rfl
  · have hpa : (w.task a).parent = (s.task a).parent := by
      rw [hmarked Task.parent fun _ _ => rfl, hpv, if_neg hself, hbegin]
      rfl
    obtain ⟨p, sb, ch, hvb⟩ := hloop.task b
    rw [hnotify, hpa]
    by_cases hb : b = a
    · subst hb
      have hnot : ¬((s.task b).children ≠ none ∧ b = s.reaper) := fun he => hr he.1 he.2.symm
      refine ⟨p, sb, ch, ?_⟩
      rw [← hw, v.modify_task_self, hvb, hbegin, notifiedIf_of_not hnot]
      simp only [Task.notifiedIf, KState.Notified, hnot, or_false, if_true, reduceCtorEq, and_false, if_false]
    · refine ⟨p, sb, ch, ?_⟩
      have hmerge := notifiedIf_notifiedIf ((s.task a).parent = some b)
        ((s.task a).children ≠ none ∧ b = s.reaper) (s.task b)
      rw [← hw, v.modify_task_of_ne _ hb, hvb, hbegin, if_neg hb, if_neg hb]
      have hstate := congrArg Task.state hmerge
      have hpending := congrArg Task.pendingSignals hmerge
      simp only [Task.notifiedIf, KState.Notified] at hstate hpending ⊢
      rw [hstate, hpending]
      rfl
  · have hstart : beginExit a code s = { s with task := (beginExit a code s).task } := by
      dsimp only [beginExit]
      split <;> rfl
    have hend : notifyParent a w = { w with task := (notifyParent a w).task } := by
      unfold notifyParent
      split <;> rfl
    rw [hend, ← hw, hloop.rest, hstart]
    rfl

/-- What a task of a forest leaves when it ends, unless it is the reaper or an ancestor of it. -/
theorem exit_moves_children (s : KState) (a code : ℕ) (hf : Forest s) (ha : a ∈ s.live) (hr : s.reaper ∈ s.live)
    (hne : a ≠ s.reaper) (hanc : ¬s.Ancestor a s.reaper) :
    ∃ kids wards, Chain s.sibling (s.task a).children kids ∧ Chain s.sibling (s.task s.reaper).children wards ∧
      ∀ fuel, kids.length < fuel → ∃ t, doExit fuel a code s = .ok t ∧ Exited a code kids wards s t := by
  obtain ⟨kids, hk, hall⟩ := hf.kin
  refine ⟨kids a, kids s.reaper, hk.chain a ha, hk.chain _ hr, fun fuel hfuel => ?_⟩
  have hchild := hk.child a ha
  obtain ⟨t, ht⟩ : ∃ t, doExit fuel a code s = .ok t :=
    doExit_returns (hk.chain a ha) (fun c hc => (hchild c hc).2) hne.symm hfuel
  refine ⟨t, ht, ?_⟩
  have hself : a ∉ kids a := fun hmem => hf.parent_ne ha (hchild a hmem).2
  obtain ⟨hkt, hparent, hsibling, hchildren, htask, hrest⟩ := doExit_spec hk ha hself ht
  have hlive : t.live = s.live := by rw [hrest]
  have hadopted : adopt kids a s.reaper s.reaper = (kids a).reverse ++ kids s.reaper := by
    rw [adopt, Function.update_self, if_neg hne.symm]
  have hreaper := hkt.chain s.reaper (hlive ▸ hr)
  rw [hadopted] at hreaper
  have hempty : (t.task a).children = none := by
    have hchain := hkt.chain a (hlive ▸ ha)
    rw [adopt_self fun _ => hne.symm] at hchain
    exact hchain
  have hforest : Forest t := by
    refine ⟨fun p hp => ?_, fun b hb => ?_⟩
    · refine ⟨_, hkt.chain p hp, (hkt.chain p hp).nodup, fun c => ⟨hkt.child p hp c, fun hc => ?_⟩⟩
      obtain ⟨hc, hpc⟩ := hc
      rw [hlive] at hp hc
      rw [hparent] at hpc
      by_cases hck : c ∈ kids a
      · rw [if_pos hck] at hpc
        obtain rfl := Option.some.inj hpc
        exact mem_adopt_reaper hck
      · rw [if_neg hck] at hpc
        have hcp := hall p hp c hc hpc
        exact mem_adopt (fun he => hck (he ▸ hcp)) hcp
    · exact hf.reparented hr hne.symm hanc (fun c hc => (hchild c hc).2) hparent (hlive ▸ hb)
  refine ⟨?_, ?_, hempty, hreaper, fun c hc => ?_, fun b hb => ?_, hchildren, hsibling, hforest,
    fun b => ?_, fun b hb => ?_, fun b => ?_, hrest⟩
  · obtain ⟨p, sb, ch, h⟩ := htask a
    rw [h, if_pos rfl]
  · obtain ⟨p, sb, ch, h⟩ := htask a
    rw [h]
    exact if_pos rfl
  · rw [← hadopted] at hc
    exact (hkt.child s.reaper (hlive ▸ hr) c hc).2
  · rw [hparent, if_neg hb]
  · obtain ⟨p, sb, ch, h⟩ := htask b
    rw [h]
    rfl
  · obtain ⟨p, sb, ch, h⟩ := htask b
    rw [h, if_neg hb]
    rfl
  · obtain ⟨p, sb, ch, h⟩ := htask b
    rw [h]
    rfl

/-- A forked task ends, and init takes over its child. -/
theorem exit_moves_children_forked : ∃ t, doExit 4 11 7 forkedOnCpu = .ok t ∧
    Exited 11 7 [12] [11] forkedOnCpu t := by
  have hreaper : forkedOnCpu.reaper = 10 := by decide +kernel
  have hparent : forkedOnCpu.parent 10 = some 0 ∧ forkedOnCpu.parent 0 = none := by decide +kernel
  have hanc : ¬forkedOnCpu.Ancestor 11 forkedOnCpu.reaper := by
    rintro ⟨l, hl, hmem⟩
    have hroot : Chain forkedOnCpu.parent (forkedOnCpu.parent forkedOnCpu.reaper) [0] := by
      rw [hreaper]
      exact hparent
    rw [hl.unique hroot] at hmem
    exact absurd hmem (by decide)
  have h := exit_moves_children forkedOnCpu 11 7 forkedOnCpu_keepsForest.forest (by decide +kernel) (by decide +kernel)
    (by decide +kernel) hanc
  obtain ⟨kids, wards, hkids, hwards, hrun⟩ := h
  have hkids' : Chain forkedOnCpu.sibling (forkedOnCpu.task 11).children [12] := by
    simp only [chain_cons, chain_nil]
    decide +kernel
  have hwards' : Chain forkedOnCpu.sibling (forkedOnCpu.task forkedOnCpu.reaper).children [11] := by
    simp only [chain_cons, chain_nil]
    decide +kernel
  obtain rfl := hkids.unique hkids'
  obtain rfl := hwards.unique hwards'
  exact hrun 4 (by decide)

/-- `do_exit` of a task without children returns at once. -/
theorem doExit_childless (hc : (s.task a).children = none) (hfuel : 0 < fuel) : ∃ t, doExit fuel a code s = .ok t := by
  obtain ⟨n, rfl⟩ : ∃ n, fuel = n + 1 := ⟨fuel - 1, by omega⟩
  have hbegin := beginExit_task code (fun hn => absurd hc hn) a
  have hloop : orphanChildren (n + 1) a s.reaper (n + 1) (beginExit a code s) = .ok (beginExit a code s) := by
    rw [orphanChildren, hbegin]
    dsimp only [Task.notifiedIf]
    rw [hc]
  exact ⟨_, bind_eq_ok.mpr ⟨_, hloop, rfl⟩⟩

/-- A task that is not the reaper, or has no children, comes to the end of `do_exit`. -/
theorem Kin.exit_returns {kids : ℕ → List ℕ} (h : Kin s kids) (hlive : a ∈ s.live)
    (hcond : ¬(a = s.reaper ∧ (s.task a).children ≠ none)) (hfuel : (kids a).length < fuel) :
    ∃ t, doExit fuel a code s = .ok t := by
  by_cases hc : (s.task a).children = none
  · exact doExit_childless hc (by omega)
  · exact doExit_returns (h.chain a hlive) (fun c hc' => (h.child a hlive c hc').2) (fun he => hcond ⟨he.symm, hc⟩) hfuel

/-- In every reachable state `do_exit` of a listed task returns, and leaves it without children,
unless the task is the reaper and has children. -/
theorem exit_terminates_iff (s : KState) (hs : KRun (fun op s => op.OnCpu s) s) (a code : ℕ) (ha : Listed s a) :
    (∃ n, ∀ fuel ≥ n, ∃ t, doExit fuel a code s = .ok t ∧ (t.task a).children = none) ↔
      ¬(a = s.reaper ∧ (s.task a).children ≠ none) := by
  obtain ⟨kids, order, h⟩ := hs.tended
  obtain ⟨l, hl, hmem⟩ := ha
  obtain rfl := hl.unique h.list
  have hlive := h.live hmem
  constructor
  · rintro ⟨n, hn⟩ ⟨hreaper, hc⟩
    obtain ⟨t, ht, -⟩ := hn n le_rfl
    exact doExit_reaper ht hc hreaper.symm
  · intro hcond
    refine ⟨(kids a).length + 1, fun fuel hfuel => ?_⟩
    obtain ⟨t, ht⟩ : ∃ t, doExit fuel a code s = .ok t := h.kin.exit_returns hlive hcond hfuel
    obtain ⟨hroll, hended⟩ := h.toRoll.exits hmem (exits_doExit ht)
    have hchain := hroll.kin.chain a (hroll.live hmem)
    rw [hended.empty] at hchain
    exact ⟨t, ht, hchain⟩

/-- Init has a child. -/
def initWithChild : KState := (bootState.after (.execInitFn (spawnAt 10) 100)).after (.execUserFn (spawnAt 11) 100)

theorem initWithChild_run (cond : KOp → KState → Prop) (h₁ : cond (.execInitFn (spawnAt 10) 100) bootState)
    (h₂ : cond (.execUserFn (spawnAt 11) 100) (bootState.after (.execInitFn (spawnAt 10) 100))) :
    KRun cond initWithChild := by
  refine ((KRun.bootState cond).after h₁ ⟨spawnAt_fresh ?_, rfl⟩ ?_).after h₂ (spawnAt_fresh ?_) ?_
  · decide +kernel
  · decide +kernel
  · decide +kernel
  · decide +kernel

theorem initWithChild_listed : Chain initWithChild.next initWithChild.taskListHead [11, 10, 0] := by
  simp only [chain_cons, chain_nil]
  decide +kernel

/-- Init gets a terminating signal: it hands its child to itself for ever. -/
theorem exit_terminates_fails : ¬∀ s : KState, KRun (fun op s => op.OnCpu s) s → ∀ a code, Listed s a →
    ∃ n, ∀ fuel ≥ n, ∃ t, doExit fuel a code s = .ok t ∧ (t.task a).children = none := by
  intro h
  obtain ⟨n, hn⟩ := h initWithChild (initWithChild_run _ trivial trivial) 10 (128 + sigterm)
    ⟨_, initWithChild_listed, by decide⟩
  obtain ⟨t, ht, -⟩ := hn n le_rfl
  exact doExit_reaper ht (by decide +kernel) (by decide +kernel)

/-- A child of init ends. -/
theorem exit_terminates_child :
    ∃ n, ∀ fuel ≥ n, ∃ t, doExit fuel 11 0 initWithChild = .ok t ∧ (t.task 11).children = none := by
  refine (exit_terminates_iff initWithChild (initWithChild_run _ trivial trivial) 11 0
    ⟨_, initWithChild_listed, by decide⟩).mpr ?_
  rintro ⟨hreaper, -⟩
  exact absurd hreaper (by decide +kernel)

end HekaOS.Tasks
