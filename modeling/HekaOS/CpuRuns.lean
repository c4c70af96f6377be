import HekaOS.TaskFamily

/-!
# Runs in which tasks end on the CPU

The kernel calls `do_exit` and `kernel_signal_dispatch` for the task on the CPU only. In such runs,
with no further condition, the tasks stay on the roll (`Tended`): nobody reaps the task on the CPU,
no other task is marked as running, and `tss.esp0` is the top of its kernel stack.
-/

namespace HekaOS.Tasks
open KernelMemory PointerChain TransitionSystem

variable {trigger : Prop} {s t u : KState} {kids : ℕ → List ℕ} {order : List ℕ} {a b c p z fuel : ℕ} {op : KOp}

/-- A task ends, or acts on its signals, while it is on the CPU. -/
def KOp.OnCpu (s : KState) : KOp → Prop
  | .dispatch _ t => t = s.currentTask
  | .doExit _ t _ => t = s.currentTask
  | _ => True

/-- The stack for the next entry into the kernel is the one of the task on the CPU, if that runs in
Ring 3. -/
def KState.StackSet (s : KState) : Prop :=
  s.current.isUserspace = true → s.esp0 = s.current.kstack + kstackPages * pageSize

structure Tended (s : KState) (kids : ℕ → List ℕ) (order : List ℕ) : Prop extends Roll s kids order where
  spared : s.current.state = .zombie → s.currentTask ∉ kids s.currentTask
  own : ∀ a ∈ s.live, a ∈ kids a → some a = s.initProc
  running : ∀ a ∈ s.live, (s.task a).state = .running → a = s.currentTask
  stack : s.StackSet

theorem KOp.OnCpu.ends (h : op.OnCpu s) (hends : op.Ends s a) : a = s.currentTask := by
  cases op with
  | syscall env frame =>
    dsimp only [KOp.Ends] at hends
    split at hends
    · exact hends
    · exact hends.1
    · exact hends.elim
  | dispatch fuel b => exact hends.1.trans h
  | doExit fuel b code => exact Eq.trans hends h
  | tick fuel => exact hends.1
  | _ => exact hends.elim

/-- The end of a task starts nobody, and leaves every kernel stack where it is. -/
theorem Exits.frame (h : Exits a s t) (b : ℕ) : ((t.task b).state = .running → (s.task b).state = .running) ∧
    (t.task b).kstack = (s.task b).kstack ∧ (t.task b).isUserspace = (s.task b).isUserspace := by
  obtain ⟨fuel, code, u, v, hu, hv, ht, -⟩ := h
  have hlinks := linksOnly_orphan hv
  have hcode : ∀ {α : Type} (g : Task → α), (∀ x n, g { x with exitCode := n } = g x) →
      g ((s.modify a fun x => { x with exitCode := code }).task b) = g (s.task b) :=
    fun g hg => s.modify_field a b _ g (hg _ _)
  refine ⟨fun hrun => ?_, ?_, ?_⟩
  · have hmarked := ((ht.task b).running hrun).resolve_right id
    by_cases hb : b = a
    · rw [hb, KState.modify_task_self] at hmarked
      cases hmarked
    · rw [KState.modify_task_of_ne v _ hb, hlinks.state] at hmarked
      have hbegun := ((hu.task b).running hmarked).resolve_right id
      rwa [hcode Task.state fun _ _ => rfl] at hbegun
  · rw [(ht.task b).kstack, v.modify_field a b _ Task.kstack rfl, hlinks.field Task.kstack fun _ _ _ _ => rfl,
      (hu.task b).kstack, hcode Task.kstack fun _ _ => rfl]
  · rw [(ht.task b).isUserspace, v.modify_field a b _ Task.isUserspace rfl,
      hlinks.field Task.isUserspace fun _ _ _ _ => rfl, (hu.task b).isUserspace, hcode Task.isUserspace fun _ _ => rfl]

namespace Tended

theorem current_mem (h : Tended s kids order) : s.currentTask ∈ s.live := h.live h.current

/-- The task on the CPU and its stack are the same. -/
theorem stackSet (h : Tended s kids order) (hcur : t.currentTask = s.currentTask) (hesp : t.esp0 = s.esp0)
    (hk : (t.task s.currentTask).kstack = (s.task s.currentTask).kstack)
    (hu : (t.task s.currentTask).isUserspace = (s.task s.currentTask).isUserspace) : t.StackSet := by
  have hstack := h.stack
  unfold KState.StackSet KState.current at hstack ⊢
  rwa [hcur, hesp, hk, hu]

theorem calm (h : Tended s kids order) (hc : CalmLive False s t) : Tended t kids order := by
  have hcur := hc.rest.currentTask
  have hplaced := hc.task _ h.current_mem
  refine ⟨h.toRoll.calm hc, ?_, ?_, ?_, ?_⟩
  · unfold KState.current
    rw [hcur, hplaced.zombie]
    exact h.spared
  · rw [hc.rest.live, hc.rest.initProc]
    exact h.own
  · rw [hc.rest.live, hcur]
    intro a ha hrun
    exact h.running a ha (((hc.task a ha).running hrun).resolve_right id)
  · exact h.stackSet hcur hc.rest.esp0 hplaced.kstack hplaced.isUserspace

/-- The current task blocks. -/
theorem blocks (h : Tended s kids order) : Tended (blockCurrent s) kids order := by
  have hself : ((blockCurrent s).task s.currentTask).state = .blocked := by
    rw [blockCurrent, KState.modify_task_self]
  refine ⟨h.toRoll.restate h.current .blocked, fun hz => ?_, h.own, fun a ha hrun => ?_, ?_⟩
  · cases hself.symm.trans hz
  · by_cases hac : a = s.currentTask
    · exact hac
    · rw [blockCurrent, KState.modify_task_of_ne s _ hac] at hrun
      exact h.running a ha hrun
  · exact h.stackSet rfl rfl (s.modify_field _ _ _ Task.kstack rfl) (s.modify_field _ _ _ Task.isUserspace rfl)

theorem exits (h : Tended s kids order) (he : Exits s.currentTask s t) :
    Tended t (adopt kids s.currentTask s.reaper) order := by
  obtain ⟨hroll, hended⟩ := h.toRoll.exits h.current he
  have hg := he.globals
  have hcur := hg.currentTask
  refine ⟨hroll, ?_, fun a ha hmem => ?_, fun a ha hrun => ?_, ?_⟩
  · rw [hcur, hended.empty]
    exact fun _ => List.not_mem_nil
  · rw [hg.live] at ha
    rw [hg.initProc]
    have hac : a ≠ s.currentTask := by
      rintro rfl
      rw [hended.empty] at hmem
      exact absurd hmem List.not_mem_nil
    by_cases har : a = s.reaper
    · -- the reaper adopts itself, so it is not `init_task`, which has no parent
      rw [har, adopt, Function.update_self] at hmem
      rcases List.mem_append.mp hmem with hmem | hmem
      · unfold KState.reaper at har hmem
        cases hi : s.initProc with
        | none =>
          rw [hi] at hmem
          exact absurd (List.mem_reverse.mp hmem) (h.init_not_mem h.current_mem)
        | some i =>
          rw [har, hi]
          rfl
      · rw [if_neg fun he => hac (har.trans he)] at hmem
        exact h.own a ha (har ▸ hmem)
    · rw [adopt_of_ne hac har] at hmem
      exact h.own a ha hmem
  · rw [hg.live] at ha
    rw [hcur]
    exact h.running a ha ((he.frame a).1 hrun)
  · exact h.stackSet hcur hg.esp0 (he.frame _).2.1 (he.frame _).2.2

theorem switched (h : Tended s kids order) (hs : Switched s t) : Tended t kids order := by
  have hlive : t.live = s.live := hs.calm.rest.live
  have hinit : t.initProc = s.initProc := hs.calm.rest.initProc
  have hplaced : ∀ a, (s.task a).Placed True (t.task a) := hs.calm.task
  refine ⟨h.toRoll.switched hs, fun hz => ?_, ?_, fun a ha hrun => ?_, fun huser => ?_⟩
  · have hcur := hs.zombie hz
    rw [hcur]
    refine h.spared ((hplaced _).zombie.mp ?_)
    rw [← hcur]
    exact hz
  · rw [hlive, hinit]
    exact h.own
  · by_contra hne
    obtain ⟨hrun', hstay⟩ := hs.running a hrun hne
    have hcur := h.running a (hlive ▸ ha) hrun'
    exact hne (hcur.trans (hstay hcur).symm)
  · unfold KState.current at huser ⊢
    rw [(hplaced _).isUserspace] at huser
    rw [(hplaced _).kstack, hs.esp0]
    by_cases hcur : t.currentTask = s.currentTask
    · rw [if_neg fun hn => hn.1 hcur, hcur]
      rw [hcur] at huser
      exact h.stack huser
    · rw [if_pos ⟨hcur, huser⟩]

/-- Only a freed `init_proc` can bear a child at its own address. -/
theorem bears (h : Tended s kids order) (hp : op.Bears s p) (hc : p ∉ s.live) : s.initProc = some p := by
  cases op with
  | execInitFn env size =>
    obtain rfl : p = initTask := hp
    exact absurd h.init hc
  | execFn env addr size =>
    obtain rfl : p = kthreaddTask := hp
    exact absurd h.kthreadd hc
  | execUserFn env size => exact hp
  | syscall env frame =>
    obtain ⟨-, rfl⟩ : _ ∧ p = s.currentTask := hp
    exact absurd h.current_mem hc
  | _ => exact hp.elim

theorem born (h : Tended s kids order) (hp : op.Bears s p) (hb : Born p c s t)
    (hinit : t.initProc = s.initProc ∨ t.initProc = some c ∧ s.initProc = none ∧ p = initTask) :
    Tended t (bear kids p c) (c :: order) := by
  have hd := hb.delivered
  have hl : t.live = insert c s.live := by rw [hb.rest]
  have hcur : t.currentTask = s.currentTask := by rw [hb.rest]
  have hesp : t.esp0 = s.esp0 := by rw [hb.rest]
  have hne : ∀ {q}, q ∈ s.live → q ≠ c := fun hq he => hb.fresh (he ▸ hq)
  have hmem := h.current_mem
  -- who is in its own list behind the birth was so before, or is the new task
  have hbear : ∀ {a}, a ∈ s.live → a ∈ bear kids p c a → a ∈ kids a := by
    intro a ha haa
    by_cases hap : a = p
    · subst hap
      rw [bear, Function.update_self, Function.update_of_ne (hne ha)] at haa
      exact (List.mem_cons.mp haa).resolve_left (hne ha)
    · rwa [bear_of_ne (hne ha) hap] at haa
  refine ⟨h.toRoll.born hb, fun hz => ?_, fun a ha haa => ?_, fun a ha hrun => ?_, ?_⟩
  · unfold KState.current at hz
    rw [hcur, (hd.task _ (hne hmem)).2.2.2] at hz
    rw [hcur]
    exact fun haa => h.spared hz (hbear hmem haa)
  · rw [hl] at ha
    rcases Finset.mem_insert.mp ha with rfl | ha
    · have hap : a = p := by
        by_contra hap
        rw [bear_new hap] at haa
        exact absurd haa List.not_mem_nil
      subst hap
      have hproc := h.bears hp hb.fresh
      rcases hinit with hinit | ⟨hinit, -⟩
      · exact (hinit.trans hproc).symm
      · exact hinit.symm
    · have hproc := h.own a ha (hbear ha haa)
      rcases hinit with hinit | ⟨-, hnone, -⟩
      · exact hproc.trans hinit.symm
      · cases hproc.trans hnone
  · rw [hl] at ha
    rw [hcur]
    rcases Finset.mem_insert.mp ha with rfl | ha
    · cases hb.state.symm.trans hrun
    · rw [(hd.task a (hne ha)).2.2.2] at hrun
      exact h.running a ha hrun
  · exact h.stackSet hcur hesp (hb.field (hne hmem) Task.kstack fun _ _ _ _ => rfl)
      (hb.field (hne hmem) Task.isUserspace fun _ _ _ _ => rfl)

theorem reaped (h : Tended s kids order) (hzi : z ≠ initTask) (hzombie : (s.task z).state = .zombie)
    (hcur : z ≠ s.currentTask) (hrun : taskReap fuel z s = .ok t) :
    Tended t (fun q => (kids q).erase z) (order.erase z) := by
  obtain ⟨-, -, hfield⟩ := taskReap_order h.list hrun
  have hrest := taskReap_rest hrun
  have hlive : ∀ a ∈ t.live, a ∈ s.live := by
    intro a ha
    rw [hrest] at ha
    exact Finset.mem_of_mem_erase ha
  have hsame : t.currentTask = s.currentTask := by rw [hrest]
  refine ⟨h.toRoll.reaped hzi hzombie hcur hrun, fun hz hmem => ?_, fun a ha haa => ?_, fun a ha hrun' => ?_, ?_⟩
  · unfold KState.current at hz
    rw [hfield Task.state fun _ _ _ _ _ => rfl, hsame] at hz
    rw [hsame] at hmem
    exact h.spared hz (List.mem_of_mem_erase hmem)
  · rw [hrest]
    exact h.own a (hlive a ha) (List.mem_of_mem_erase haa)
  · rw [hsame]
    rw [hfield Task.state fun _ _ _ _ _ => rfl] at hrun'
    exact h.running a (hlive a ha) hrun'
  · exact h.stackSet hsame (by rw [hrest]) (hfield Task.kstack (fun _ _ _ _ _ => rfl) _)
      (hfield Task.isUserspace (fun _ _ _ _ _ => rfl) _)

/-- A task that is reaped is a zombie with a parent, and not on the CPU. -/
theorem reaps (h : Tended s kids order) (hallowed : op.Allowed s) (hz : op.Reaps s z) :
    z ≠ initTask ∧ (s.task z).state = .zombie ∧ z ≠ s.currentTask := by
  cases op with
  | waitRound first fuel wstatus =>
    have hchain := h.kin.chain _ h.current_mem
    have hfind := (hchain.find_of_some hz).symm
    have hmem : z ∈ kids s.currentTask := List.mem_of_find?_eq_some hfind
    have hzombie : (s.task z).state = .zombie := by
      have hpass := List.find?_some hfind
      exact of_decide_eq_true hpass
    refine ⟨fun he => h.init_not_mem h.current_mem (he ▸ hmem), hzombie, fun he => ?_⟩
    rw [he] at hmem hzombie
    exact h.spared hzombie hmem
  | reap fuel a =>
    obtain rfl : z = a := hz
    obtain ⟨-, hcur, hzombie, q, -, hparent⟩ := hallowed
    refine ⟨fun he => ?_, hzombie, hcur⟩
    rw [he, h.orphan] at hparent
    cases hparent
  | _ => exact hz.elim

theorem step (h : Tended s kids order) (hcond : op.OnCpu s) (hstep : KStep op s t) :
    ∃ kids' order', Tended t kids' order' := by
  cases step_cases h.settled hstep with
  | calm hc => exact ⟨_, _, h.calm hc⟩
  | blocks hscan ht =>
    rw [ht]
    exact ⟨_, _, h.blocks⟩
  | exits a hends hlisted he =>
    obtain rfl := hcond.ends hends
    exact ⟨_, _, h.exits he⟩
  | switched u htick hu hs =>
    rcases hu with hcalm | ⟨-, hexits⟩
    · exact ⟨_, _, (h.calm hcalm.calmLive).switched hs⟩
    · exact ⟨_, _, (h.exits hexits).switched hs⟩
  | born p c hp hb hinit hnum => exact ⟨_, _, h.born hp hb hinit⟩
  | reaped z fuel u hz hu hrun =>
    have hcalm : CalmLive False s u := hu.calm.calmLive
    obtain ⟨hzi, hzombie, hcur⟩ := h.reaps hstep.allowed hz
    have hstate : (u.task z).state = .zombie := by
      rw [hu]
      exact hzombie
    exact ⟨_, _, (h.calm hcalm).reaped hzi hstate (hcalm.rest.currentTask ▸ hcur) hrun⟩

theorem boot (hb : Boot s) : Tended s (Function.update (fun _ => []) initTask [kthreaddTask]) [initTask] := by
  have hfamily := Family.boot hb
  obtain ⟨junk, user, rfl⟩ := hb
  refine ⟨hfamily.toRoll, nofun, fun a ha haa => ?_, fun a ha hrun => ?_, nofun⟩
  · have hparent := (hfamily.kin.child a ha a haa).2
    simp only [taskInit, Finset.mem_insert, Finset.mem_singleton] at ha
    rcases ha with rfl | rfl
    · cases hparent
    · cases hparent
  · simp only [taskInit, Finset.mem_insert, Finset.mem_singleton] at ha
    rcases ha with rfl | rfl
    · rfl
    · cases hrun

end Tended

theorem KRun.tended (hs : KRun (fun op s => op.OnCpu s) s) : ∃ kids order, Tended s kids order := by
  refine Reachable.invariant (I := fun s => ∃ kids order, Tended s kids order)
    (fun s hb => ⟨_, _, Tended.boot hb⟩) ?_ hs
  rintro s t ⟨kids, order, h⟩ ⟨op, hcond, hstep⟩
  exact h.step hcond hstep

end HekaOS.Tasks
