import HekaOS.DispatchOrder

/-!
# The return of a halted task

A task that stopped or ended in a system call still goes back to Ring 3 once, and
`signal_check_and_deliver` does not look at the state: it redirects the frame to the handler of a
signal that dispatch had left pending. Once `sys_wait` has halted, interrupts stay enabled, so that
ticks can stop or end the task up to its way back, and so can a store through its `wstatus`.
-/

namespace HekaOS.Tasks
open MachineWord KernelMemory PointerChain TransitionSystem

variable {s t u : KState} {kids : ℕ → List ℕ} {order : List ℕ} {x y : Task} {a c n p z fuel signum : ℕ}

/-- A task that is its own parent is in the list of its own children. -/
structure Rooted (s : KState) (kids : ℕ → List ℕ) (order : List ℕ) : Prop extends Tended s kids order where
  self : ∀ a ∈ s.live, (s.task a).parent = some a → a ∈ kids a

namespace Rooted

theorem calm (h : Rooted s kids order) (hc : CalmLive False s t) : Rooted t kids order := by
  refine ⟨h.toTended.calm hc, fun a ha hp => ?_⟩
  rw [hc.rest.live] at ha
  exact h.self a ha ((hc.task a ha).parent ▸ hp)

theorem exits (h : Rooted s kids order) (he : Exits s.currentTask s t) :
    Rooted t (adopt kids s.currentTask s.reaper) order := by
  obtain ⟨-, hended⟩ := h.toRoll.exits h.current he
  refine ⟨h.toTended.exits he, fun a ha hp => ?_⟩
  rw [he.globals.live] at ha
  rw [hended.parent a ha] at hp
  split at hp
  · rename_i hmem
    obtain rfl := Option.some.inj hp
    exact mem_adopt_reaper hmem
  · rename_i hmem
    have hown := h.self a ha hp
    exact mem_adopt (fun he => hmem (he ▸ hown)) hown

theorem switched (h : Rooted s kids order) (hs : Switched s t) : Rooted t kids order := by
  have hlive : t.live = s.live := hs.calm.rest.live
  have hplaced : ∀ a, (s.task a).Placed True (t.task a) := hs.calm.task
  refine ⟨h.toTended.switched hs, fun a ha hp => ?_⟩
  rw [hlive] at ha
  exact h.self a ha ((hplaced a).parent ▸ hp)

theorem born {op : KOp} (h : Rooted s kids order) (hp : op.Bears s p) (hb : Born p c s t)
    (hinit : t.initProc = s.initProc ∨ t.initProc = some c ∧ s.initProc = none ∧ p = initTask) :
    Rooted t (bear kids p c) (c :: order) := by
  refine ⟨h.toTended.born hp hb hinit, fun a ha hpa => ?_⟩
  by_cases hac : a = c
  · subst hac
    obtain rfl := Option.some.inj (hb.delivered.parent.symm.trans hpa)
    rw [bear, Function.update_self]
    exact List.mem_cons_self
  · rw [hb.rest] at ha
    have hlive := (Finset.mem_insert.mp ha).resolve_left hac
    rw [(hb.delivered.task a hac).1] at hpa
    exact mem_bear hac (h.self a hlive hpa)

theorem reaped (h : Rooted s kids order) (hzi : z ≠ initTask) (hzombie : (s.task z).state = .zombie)
    (hcur : z ≠ s.currentTask) (hrun : taskReap fuel z s = .ok t) :
    Rooted t (fun q => (kids q).erase z) (order.erase z) := by
  obtain ⟨-, hparent, -⟩ := h.kin.reaped hrun
  refine ⟨h.toTended.reaped hzi hzombie hcur hrun, fun a ha hp => ?_⟩
  rw [taskReap_rest hrun] at ha
  obtain ⟨haz, hlive⟩ := Finset.mem_erase.mp ha
  rw [hparent, if_neg haz] at hp
  exact (List.mem_erase_of_ne haz).mpr (h.self a hlive hp)

theorem step {op : KOp} (h : Rooted s kids order) (hcond : op.OnCpu s) (hstep : KStep op s t) :
    ∃ kids' order', Rooted t kids' order' := by
  cases step_cases h.settled hstep with
  | calm hc => exact ⟨_, _, h.calm hc⟩
  | blocks hscan ht =>
    rw [ht]
    refine ⟨_, _, h.toTended.blocks, fun a ha hp => h.self a ha ?_⟩
    rwa [blockCurrent, s.modify_field _ a _ Task.parent rfl] at hp
  | exits a hends hlisted he =>
    obtain rfl := hcond.ends hends
    exact ⟨_, _, h.exits he⟩
  | switched u htick hu hs =>
    rcases hu with hcalm | ⟨-, hexits⟩
    · exact ⟨_, _, (h.calm hcalm.calmLive).switched hs⟩
    · exact ⟨_, _, (h.exits hexits).switched hs⟩
  | born p c hp hb hinit hnum => exact ⟨_, _, h.born hp hb hinit⟩
  | reaped z fuel u hz hu hrun =>
    have hcalm : CalmLive False s u := hu.calm.calmLive
    obtain ⟨hzi, hzombie, hcur⟩ := h.reaps hstep.allowed hz
    have hstate : (u.task z).state = .zombie := by
      rw [hu]
      exact hzombie
    exact ⟨_, _, (h.calm hcalm).reaped hzi hstate (hcalm.rest.currentTask ▸ hcur) hrun⟩

theorem boot (hb : Boot s) : Rooted s (Function.update (fun _ => []) initTask [kthreaddTask]) [initTask] :=
  ⟨Tended.boot hb, fun a ha hp => ((Family.boot hb).parent a ha a hp).2⟩

/-- A task that ends notifies others only. -/
theorem not_notified (h : Rooted s kids order) {code : ℕ} (hrun : doExit fuel s.currentTask code s = .ok t) :
    ¬s.Notified s.currentTask s.currentTask := by
  rintro (hparent | ⟨hc, hreaper⟩)
  · exact h.not_own hrun (h.self _ h.current_mem hparent)
  · exact doExit_reaper hrun hc hreaper.symm

/-- What a task that ended is left with. -/
theorem ended (h : Rooted s kids order) {code : ℕ} (hrun : doExit fuel s.currentTask code s = .ok t) :
    ∃ q sb ch, t.current = { s.current with
      state := .zombie
      exitCode := code
      parent := q
      sibling := sb
      children := ch } := by
  have hspec := doExit_spec h.kin h.current_mem (h.not_own hrun) hrun
  obtain ⟨-, -, -, -, htask, hrest⟩ := hspec
  obtain ⟨q, sb, ch, hself⟩ := htask s.currentTask
  rw [notifiedIf_of_not (h.not_notified hrun), if_pos rfl, if_pos rfl] at hself
  refine ⟨q, sb, ch, ?_⟩
  rw [KState.current, hrest]
  exact hself

end Rooted

theorem KRun.rooted (hs : KRun (fun op s => op.OnCpu s) s) : ∃ kids order, Rooted s kids order := by
  refine Reachable.invariant (I := fun s => ∃ kids order, Rooted s kids order)
    (fun s hb => ⟨_, _, Rooted.boot hb⟩) ?_ hs
  rintro s t ⟨kids, order, h⟩ ⟨op, hcond, hstep⟩
  exact h.step hcond hstep

/-- What is left of a struct when dispatch has taken the signals `l`, and whether it dies of one. -/
structure Drained (x : Task) (l : List (ℕ × SignalAction)) (d : Task × Option ℕ) : Prop where
  dies : d.2 ≠ none ↔ ∃ e ∈ l, e.2 = .dflt ∧ terminates e.1 = true
  stopped : d.1.state = .stopped ↔ ∃ e ∈ l, e.2 = .dflt ∧ stops e.1 = true
  pending : ∀ k, 0 < k → d.1.pending k = (x.pending k && !decide (k ∈ l.map Prod.fst))

theorem not_terminates_of_stops (h : stops signum = true) : terminates signum = false := by
  rcases stops_iff.mp h with rfl | rfl <;> decide

/-- A signal that leaves the task as it is. -/
theorem Drained.cons {e : ℕ × SignalAction} {l : List (ℕ × SignalAction)} {d : Task × Option ℕ} (h₀ : 0 < e.1)
    (h : e.1 < nsig) (hends : endsWith e = false) (hd : Drained (clearPending (sigmask e.1) x) l d) :
    Drained x (e :: l) d := by
  have hnot : ∀ f : ℕ → Bool, (f e.1 = true → terminates e.1 = true ∨ stops e.1 = true) → ¬(e.2 = .dflt ∧ f e.1 = true) := by
    rintro f hf ⟨hdflt, hfe⟩
    rcases hf hfe with hterm | hstop
    · simp [endsWith, hdflt, hterm] at hends
    · simp [endsWith, hdflt, hstop] at hends
  refine ⟨?_, ?_, fun k hk => ?_⟩
  · rw [hd.dies, List.exists_mem_cons_iff, or_iff_right (hnot terminates .inl)]
  · rw [hd.stopped, List.exists_mem_cons_iff, or_iff_right (hnot stops .inr)]
  · rw [hd.pending k hk, clearPending_pending h₀ h.le hk, List.map_cons]
    by_cases he : k = e.1
    · simp [he]
    · simp [he, beq_eq_false_iff_ne.mpr he]

/-- The last signal stops the task or ends it. -/
theorem Drained.last {d : Task × Option ℕ} (h₀ : 0 < signum) (h : signum < nsig)
    (hdies : d.2 ≠ none ↔ terminates signum = true) (hstopped : d.1.state = .stopped ↔ stops signum = true)
    (hp : d.1.pendingSignals = (clearPending (sigmask signum) x).pendingSignals) : Drained x [(signum, .dflt)] d := by
  refine ⟨by simp [hdies], by simp [hstopped], fun k hk => ?_⟩
  have hclear := clearPending_pending h₀ h.le hk x
  rw [Task.pending, ← hp] at hclear
  rw [Task.pending, hclear]
  simp

/-- Dispatch takes from the struct what it takes in the kernel. -/
theorem drain_takes {p : BitVec 32} (hn : (signalsOf p).length ≤ n) (hw : WithinNsig p)
    (hh : y.signalHandlers = x.signalHandlers) (hu : y.isUserspace = x.isUserspace) (hz : y.state ≠ .zombie)
    (hs : y.state ≠ .stopped) : Drained y (x.takesFrom (signalsOf p)) (drain n p y) := by
  induction n generalizing p y with
  | zero =>
    have hnil : signalsOf p = [] := List.length_eq_zero_iff.mp (Nat.le_zero.mp hn)
    rw [hnil]
    refine ⟨?_, ?_, fun k _ => ?_⟩ <;> simp [drain, takesFrom_nil, hs]
  | succ n ih =>
    by_cases hp : p = 0
    · rw [drain, if_pos hp, hp, signalsOf_zero]
      refine ⟨?_, ?_, fun k _ => ?_⟩ <;> simp [takesFrom_nil, hs]
    obtain ⟨signum, h₀, hlt, hbit, hnum, hw', hlist⟩ := signalsOf_lowest hp hw
    rw [hlist, List.length_cons] at hn
    have hdisp := disposition_eq h₀ hlt (hbit ▸ hnum) y
    rw [action_congr hh hu] at hdisp
    rw [drain, if_neg hp, if_neg (not_or.mpr ⟨hz, hs⟩), hlist]
    dsimp only
    rw [hnum, hbit, hdisp]
    have hrest : Drained (clearPending (sigmask signum) y) (x.takesFrom (signalsOf (p &&& ~~~sigmask signum)))
        (drain n (p &&& ~~~sigmask signum) (clearPending (sigmask signum) y)) := ih (by omega) hw' hh hu hz hs
    cases hact : x.action signum with
    | none =>
      rw [takesFrom_user hact]
      exact ih (by omega) hw' hh hu hz hs
    | some act =>
      rw [takesFrom_taken hact]
      cases act with
      | ign => exact .cons h₀ hlt rfl hrest
      | handler address => exact .cons h₀ hlt rfl hrest
      | dflt =>
        dsimp only
        by_cases hterm : terminates signum = true
        · have hends : endsWith (signum, .dflt) = true := by simp [endsWith, hterm]
          have hstop : stops signum ≠ true := fun hstop => by simp [not_terminates_of_stops hstop] at hterm
          rw [if_pos hterm, hends]
          exact .last h₀ hlt (by simp [hterm]) (iff_of_false hs hstop) rfl
        by_cases hstop : stops signum = true
        · have hends : endsWith (signum, .dflt) = true := by simp [endsWith, hstop]
          rw [if_neg hterm, if_pos hstop, hends]
          exact .last h₀ hlt (by simp [hterm]) (by simp [hstop]) rfl
        · have hends : endsWith (signum, .dflt) = false := by simp [endsWith, hterm, hstop]
          rw [if_neg hterm, if_neg hstop, hends]
          exact .cons h₀ hlt hends hrest

theorem drained_takes (hw : WithinNsig x.pendingSignals) (hz : x.state ≠ .zombie) (hs : x.state ≠ .stopped) :
    Drained x x.takes x.drained :=
  drain_takes (signalsOf_length _) hw rfl rfl hz hs

/-- Stopped or dead. -/
def Task.Halted (x : Task) : Prop := x.state = .stopped ∨ x.state = .zombie

instance (x : Task) : Decidable x.Halted := inferInstanceAs (Decidable (_ ∨ _))

theorem drained_of_halted (h : x.Halted) : x.drained = (x, none) := by
  rw [Task.drained, drain]
  split
  · rfl
  · exact if_pos h.symm

/-- With what struct a call returns that found the struct `x` and takes a signal that halts it, or not. -/
structure Returns (x : Task) (halts : Prop) (y : Task) : Prop where
  halted : y.Halted ↔ x.Halted ∨ halts
  caught : y.caught = x.caught
  within : WithinNsig y.pendingSignals

/-- The current task acts on its signals. -/
theorem Rooted.dispatches (h : Rooted s kids order) (hw : WithinNsig s.current.pendingSignals)
    (huser : s.current.isUserspace = true) (hrun : kernelSignalDispatch fuel s.currentTask s = .ok t) :
    Returns s.current (∃ e ∈ s.current.takes, endsWith e = true) t.current := by
  obtain ⟨d, hd⟩ : ∃ d, s.current.drained = d := ⟨_, rfl⟩
  have hrun' : dispatched fuel s.currentTask d s = .ok t := by
    rw [← hd, ← hrun, kernelSignalDispatch_eq]
    rfl
  rw [dispatched] at hrun'
  by_cases hhalted : s.current.Halted
  · obtain rfl := (drained_of_halted hhalted).symm.trans hd
    obtain rfl := Except.ok.inj hrun'
    have hself : s.set s.currentTask s.current = s := s.set_self s.currentTask
    dsimp only
    rw [hself]
    exact ⟨iff_of_true hhalted (.inl hhalted), rfl, hw⟩
  obtain ⟨hs, hz⟩ := not_or.mp hhalted
  have htakes := drained_takes hw hz hs
  obtain ⟨pending, st, hfst, hst⟩ := drain_fst 32 s.current.pendingSignals s.current
  change s.current.drained.1 = _ at hfst
  rw [hd] at htakes hfst
  have hcalm : Calm False s (s.set s.currentTask d.1) := hd ▸ calm_set_drained
  have hself : (s.set s.currentTask d.1).task s.currentTask = d.1 := s.modify_task_self _ _
  have hends : (∃ e ∈ s.current.takes, endsWith e = true) ↔ d.2 ≠ none ∨ d.1.state = .stopped := by
    rw [htakes.dies, htakes.stopped, ← exists_or]
    simp only [endsWith, Bool.and_eq_true, decide_eq_true_iff, Bool.or_eq_true, ← and_or_left]
  have hhandlers : d.1.signalHandlers = s.current.signalHandlers := by rw [hfst]
  split at hrun'
  · rename_i hlives
    obtain rfl := Except.ok.inj hrun'
    have hcur : (s.set s.currentTask d.1).current = d.1 := hself
    have hnz : d.1.state ≠ .zombie := by
      rw [hfst]
      rcases hst with rfl | ⟨rfl, -⟩
      · exact hz
      · exact TaskState.noConfusion
    rw [hcur]
    refine ⟨?_, caught_of_takes htakes.pending hhandlers huser, withinNsig_of_takes htakes.pending hw⟩
    rw [hends, or_iff_right hhalted, Task.Halted, or_iff_left hnz]
    simp [hlives]
  · rename_i signum hdies
    obtain ⟨q, sb, ch, hnew⟩ := (h.calm hcalm.calmLive).ended hrun'
    have hcur : (s.set s.currentTask d.1).current = d.1 := hself
    rw [hcur] at hnew
    have hpending : ∀ k, 0 < k → t.current.pending k =
        (s.current.pending k && !decide (k ∈ s.current.takes.map Prod.fst)) := by
      intro k hk
      rw [← htakes.pending k hk, hnew]
      rfl
    refine ⟨iff_of_true (.inr ?_) (.inr (hends.mpr (.inl ?_))), caught_of_takes hpending ?_ huser,
      withinNsig_of_takes hpending hw⟩
    · rw [hnew]
    · rw [hdies]
      exact Option.some_ne_none signum
    · rw [hnew]
      exact hhandlers

section Calls

variable {env : SysEnv} {frame : TrapFrame} {v k dst buf count fd wstatus : ℕ}

/-- What the way back to Ring 3 depends on, and the state. -/
def Task.outlook (x : Task) : TaskState × BitVec 32 × (ℕ → ℕ) := (x.state, x.pendingSignals, x.signalHandlers)

theorem Returns.of_not {halts : Prop} (h : Returns x False y) (hnot : ¬halts) : Returns x halts y :=
  ⟨h.halted.trans (or_congr_right (iff_of_false id hnot)), h.caught, h.within⟩

theorem returns_of_outlook (h : y.outlook = x.outlook) (hw : WithinNsig x.pendingSignals) : Returns x False y := by
  obtain ⟨hstate, hpending, hhandlers⟩ : y.state = x.state ∧ y.pendingSignals = x.pendingSignals ∧
      y.signalHandlers = x.signalHandlers := by simpa [Task.outlook] using h
  refine ⟨?_, ?_, hpending ▸ hw⟩
  · rw [Task.Halted, Task.Halted, hstate, or_false]
  · have hcatches : y.catches = x.catches := by
      funext signum
      rw [Task.catches, Task.catches, hhandlers]
    rw [Task.caught, Task.caught, hpending, hcatches]

theorem outlook_inputRead : (taskInputRead a dst count n s).2.current.outlook = s.current.outlook := by
  induction count generalizing n s with
  | zero => rfl
  | succ count ih =>
    rw [taskInputRead]
    split
    · rfl
    · dsimp only
      split
      · rfl
      · exact ih.trans (KState.modify_field _ a _ _ Task.outlook rfl)

theorem outlook_read : (sysRead fd buf count s).2.current.outlook = s.current.outlook := by
  unfold sysRead
  split
  · rfl
  split
  · rfl
  · exact outlook_inputRead

theorem outlook_logPutchar : (taskLogPutchar env a c s).current.outlook = s.current.outlook := by
  unfold taskLogPutchar
  split
  · rfl
  · exact s.modify_field a _ _ Task.outlook rfl

theorem outlook_write : (sysWrite env fd buf count s).2.current.outlook = s.current.outlook := by
  unfold sysWrite
  split
  · rfl
  split
  · rfl
  · suffices h : ∀ (l : List ℕ) (v : KState), (l.foldl (fun s i =>
        let a := add32 buf i
        taskLogPutchar env s.currentTask (s.user a % 256) (s.access a 1)) v).current.outlook = v.current.outlook from
      h _ s
    intro l
    induction l with
    | nil => exact fun v => rfl
    | cons i l ih =>
      intro v
      have haccess : (v.access (add32 buf i) 1).current.outlook = v.current.outlook := rfl
      exact (ih _).trans (outlook_logPutchar.trans haccess)

theorem outlook_fork (hfresh : env.spawn.Fresh s) (hlive : s.currentTask ∈ s.live) :
    (sysFork env s).2.current.outlook = s.current.outlook := by
  have hstate : (sysFork env s).2 = (taskFork env.spawn s).2 := by
    unfold sysFork
    split <;> simp_all
  have hne : ∀ c, env.spawn.kmalloc = some c → s.currentTask ≠ c := fun c hc he => hfresh c hc (he ▸ hlive)
  rw [hstate]
  cases taskFork_cases hfresh with
  | failed h =>
    have hcur : (taskFork env.spawn s).2.currentTask = s.currentTask := by rw [h.rest]
    rw [KState.current, hcur, h.task _ fun hc => hne _ hc rfl]
    rfl
  | born c u hroom hc hu ht =>
    have hadd : LinksOnly u (taskAddChild s.currentTask c u) := linksOnly_addChild
    have hcur : (taskFork env.spawn s).2.currentTask = s.currentTask := by
      rw [ht, linkTask, hadd.rest, hu.rest]
      rfl
    rw [KState.current, hcur, ht, linkTask_field Task.outlook fun _ _ => rfl, hadd.field Task.outlook fun _ _ _ _ => rfl,
      hu.task _ (hne c hc)]
    rfl

theorem outlook_collect (h : (collectZombie fuel wstatus z s).1 = .returned v) :
    (collectZombie fuel wstatus z s).2.current.outlook = s.current.outlook := by
  obtain ⟨t, ht⟩ : ∃ t, afterCall (collectZombie fuel wstatus z s) = some t := by
    rw [afterCall, h]
    exact ⟨_, rfl⟩
  have hstate : (collectZombie fuel wstatus z s).2 = t := by
    rw [afterCall, h] at ht
    exact Option.some.inj ht
  obtain ⟨u, hu, hreap⟩ := collectZombie_cases ht
  have hcur : t.currentTask = s.currentTask := by
    rw [taskReap_rest hreap, hu]
  rw [hstate, KState.current, hcur, taskReap_field hreap Task.outlook fun _ _ _ _ _ => rfl, hu]
  rfl

theorem collect_enabled : (collectZombie fuel wstatus z s).2.interruptFlag = s.interruptFlag := by
  have hstore : (if wstatus ≠ 0 then s.writeUser wstatus (ByteMemory.wordBytes (s.task z).exitCode) else s).interruptFlag =
      s.interruptFlag := by
    split
    · rfl
    · rfl
  unfold collectZombie
  dsimp only
  rw [← hstore]
  generalize (if wstatus ≠ 0 then s.writeUser wstatus (ByteMemory.wordBytes (s.task z).exitCode) else s) = u
  cases hreap : taskReap fuel z (u.call (.taskReap z)) with
  | error e => rfl
  | ok t =>
    rw [finish, taskReap_rest hreap]
    rfl

/-- Behind a halt, `sys_wait` goes on with interrupts enabled. -/
theorem waitLoop_enabled (henabled : s.interruptFlag = true) : (waitLoop env wstatus n k s).2.interruptFlag = true := by
  induction n generalizing k s with
  | zero => exact henabled
  | succ n ih =>
    rw [waitLoop]
    cases hscan : findZombie env.fuel s with
    | none => exact henabled
    | some found =>
      cases found with
      | none => exact ih rfl
      | some z => exact collect_enabled.trans henabled

/-- The state in which `sys_wait` looks for a zombie for the last time. -/
def lastScan (env : SysEnv) : ℕ → ℕ → KState → KState
  | 0, _, s => s
  | n + 1, k, s =>
    match findZombie env.fuel s with
    | some none => lastScan env n (k + 1) (haltUntilWoken env k (blockCurrent s))
    | _ => s

theorem outlook_waitLoop (h : (waitLoop env wstatus n k s).1 = .returned v) :
    (waitLoop env wstatus n k s).2.current.outlook = (lastScan env n k s).current.outlook := by
  induction n generalizing k s with
  | zero => cases h
  | succ n ih =>
    rw [waitLoop] at h ⊢
    rw [lastScan]
    cases hscan : findZombie env.fuel s with
    | none => rfl
    | some found =>
      rw [hscan] at h
      cases found with
      | none => exact ih h
      | some z => exact outlook_collect h

theorem lastScan_within
    (hwake : ∀ k u, WithinNsig u.current.pendingSignals → WithinNsig (env.wake k u).current.pendingSignals)
    (hw : WithinNsig s.current.pendingSignals) : WithinNsig (lastScan env n k s).current.pendingSignals := by
  induction n generalizing k s with
  | zero => exact hw
  | succ n ih =>
    rw [lastScan]
    split
    · have hblocked : WithinNsig (blockCurrent s).current.pendingSignals := by
        rw [KState.current, blockCurrent, s.modify_field _ _ _ Task.pendingSignals rfl]
        exact hw
      exact ih (hwake k _ hblocked)
    · exact hw

/-- A send leaves no signal behind `NSIG - 1`. -/
theorem signalSend_within (hw : WithinNsig x.pendingSignals) : WithinNsig (x.signalSend signum).pendingSignals := by
  by_cases hinvalid : signum = 0 ∨ nsig ≤ signum
  · rw [signalSend_of_invalid hinvalid]
    exact hw
  · obtain ⟨h₀, hlt⟩ := not_or.mp hinvalid
    have hlast := signalSend_pending (k := nsig) (Nat.pos_of_ne_zero h₀) (not_le.mp hlt) (by decide) le_rfl x
    have hne : nsig ≠ signum := fun he => hlt he.le
    rw [WithinNsig]
    rwa [Task.pending, Task.pending, hw, Bool.false_and, Bool.or_false, decide_eq_false hne] at hlast

theorem register_within {handler : ℕ} (hw : WithinNsig s.current.pendingSignals) :
    WithinNsig (kernelSignalRegister s.currentTask signum handler s).current.pendingSignals := by
  unfold kernelSignalRegister
  split
  · exact hw
  split
  · exact hw
  · rw [KState.current, s.modify_field _ _ _ Task.pendingSignals rfl]
    exact hw

/-- The current task sends itself a signal. -/
def KState.KillsSelf (env : SysEnv) (frame : TrapFrame) (s : KState) : Prop :=
  syscallTable frame.eax = some .kill ∧ 0 < frame.ecx ∧ frame.ecx < nsig ∧
    killTarget env.fuel frame.ebx s = some (some s.currentTask)

/-- The struct of the current task when its call has but to return, or to act on the signal that the task sent
itself: `sys_signal` installed the handler, and the last halt of `sys_wait` is over. -/
def KState.returning (env : SysEnv) (frame : TrapFrame) (s : KState) : Task :=
  match syscallTable frame.eax with
  | some .waitpid =>
    if s.current.children = none ∧ some s.currentTask ≠ s.initProc then s.current
    else (lastScan env env.rounds 0 { s with interruptFlag := false }).current
  | some .signal => (kernelSignalRegister s.currentTask frame.ebx frame.ecx s).current
  | some .kill =>
    if killTarget env.fuel frame.ebx s = some (some s.currentTask) then s.current.signalSend frame.ecx
    else s.current
  | _ => s.current

/-- The current task acts on a signal it sent to itself. -/
theorem self_signal (h : Rooted s kids order) (hw : WithinNsig s.current.pendingSignals)
    (huser : s.current.isUserspace = true)
    (hd : kernelSignalDispatch fuel s.currentTask (kernelSignalSend s.currentTask signum s) = .ok t) :
    Returns (s.current.signalSend signum) (∃ e ∈ (s.current.signalSend signum).takes, endsWith e = true) t.current := by
  have hcalm : Calm False s (kernelSignalSend s.currentTask signum s) := calm_send
  have hsent : (kernelSignalSend s.currentTask signum s).current = s.current.signalSend signum := s.modify_task_self _ _
  rw [← hsent]
  refine (h.calm hcalm.calmLive).dispatches ?_ ?_ hd
  · rw [hsent]
    exact signalSend_within hw
  · rw [← huser]
    exact kernelSignalSend_field Task.isUserspace fun _ _ _ => rfl

/-- `sys_kill` of the current task or of another one. -/
theorem kill_returns {pid : ℕ} (h : Rooted s kids order) (hw : WithinNsig s.current.pendingSignals)
    (huser : s.current.isUserspace = true) (hret : (sysKill env pid signum s).1 = .returned v)
    (hx : x = if killTarget env.fuel pid s = some (some s.currentTask) then s.current.signalSend signum else s.current) :
    Returns x (0 < signum ∧ signum < nsig ∧ killTarget env.fuel pid s = some (some s.currentTask) ∧
      ∃ e ∈ x.takes, endsWith e = true) (sysKill env pid signum s).2.current := by
  have hsame : Returns s.current False s.current := returns_of_outlook rfl hw
  have hinvalid : signum = 0 ∨ nsig ≤ signum → x = s.current := by
    intro hn
    rw [hx, signalSend_of_invalid hn, ite_self]
  unfold sysKill at hret ⊢
  split
  · rename_i hlarge
    rw [hinvalid (.inr hlarge)]
    exact hsame.of_not fun hn => absurd hn.2.1 (not_lt.mpr hlarge)
  rename_i hlt
  rw [if_neg hlt] at hret
  rw [not_le] at hlt
  cases htarget : killTarget env.fuel pid s with
  | none =>
    rw [htarget] at hret
    cases hret
  | some found =>
    rw [htarget] at hret hx
    cases found with
    | none =>
      have hno : ¬some none = some (some s.currentTask) := by simp
      rw [if_neg hno] at hx
      rw [hx]
      exact hsame.of_not fun hn => hno hn.2.2.1
    | some target =>
      have hcur : (kernelSignalSend target signum s).currentTask = s.currentTask := rfl
      dsimp only at hret ⊢
      rw [hcur] at hret ⊢
      by_cases hself : target = s.currentTask
      · subst hself
        have hallowed : s.current.euid = 0 ∨ s.current.euid = (s.task s.currentTask).uid ∨
            s.current.euid = (s.task s.currentTask).euid := .inr (.inr rfl)
        rw [if_neg (not_not.mpr hallowed)] at hret ⊢
        by_cases hprobe : signum = 0
        · rw [if_pos hprobe, hinvalid (.inl hprobe)]
          exact hsame.of_not fun hn => absurd hn.1 (by omega)
        rw [if_neg hprobe, if_pos rfl] at hret ⊢
        rw [if_pos rfl] at hx
        cases hd : kernelSignalDispatch env.fuel s.currentTask (kernelSignalSend s.currentTask signum s) with
        | error e =>
          rw [hd] at hret
          cases hret
        | ok t =>
          have hdone := hx ▸ self_signal h hw huser hd
          refine ⟨hdone.halted.trans (or_congr_right ?_), hdone.caught, hdone.within⟩
          exact ⟨fun he => ⟨Nat.pos_of_ne_zero hprobe, hlt, rfl, he⟩, fun he => he.2.2.2⟩
      · have hne : ¬some (some target) = some (some s.currentTask) :=
          fun he => hself (Option.some.inj (Option.some.inj he))
        rw [if_neg hne] at hx
        rw [hx, if_neg hself]
        have hother : ∀ u : KState, u.current.outlook = s.current.outlook →
            Returns s.current (0 < signum ∧ signum < nsig ∧ some (some target) = some (some s.currentTask) ∧
              ∃ e ∈ s.current.takes, endsWith e = true) u.current :=
          fun u hu => (returns_of_outlook hu hw).of_not fun hn => hne hn.2.2.1
        have hsent : (kernelSignalSend target signum s).current.outlook = s.current.outlook :=
          congrArg Task.outlook (s.modify_task_of_ne _ (Ne.symm hself))
        split
        · exact hother s rfl
        split
        · exact hother s rfl
        · exact hother _ hsent

/-- Whether the current task takes a signal in its call that stops or ends it. -/
def KState.HaltsItself (env : SysEnv) (frame : TrapFrame) (s : KState) : Prop :=
  s.KillsSelf env frame ∧ ∃ e ∈ (s.returning env frame).takes, endsWith e = true

@[simp] theorem setEax_cs (r : Outcome × TrapFrame × KState) : (setEax r).2.1.cs = r.2.1.cs := by
  unfold setEax
  split <;> rfl

/-- A call from Ring 3 returns to Ring 3. -/
theorem syscallDispatch_ring (hcs : frame.cs &&& 3 = 3) : (syscallDispatch env frame s).2.1.cs &&& 3 = 3 := by
  unfold syscallDispatch
  split
  · exact hcs
  · rename_i num _
    rw [setEax_cs]
    cases num with
    | sigreturn =>
      change 0x23 &&& 3 = 3
      decide
    | _ => exact hcs

theorem returning_plain {num : Option Syscall} (hn : syscallTable frame.eax = num)
    (hplain : num ∉ [some .waitpid, some .signal, some .kill]) : s.returning env frame = s.current := by
  simp only [List.mem_cons, List.not_mem_nil, or_false, not_or] at hplain
  unfold KState.returning
  split <;> simp_all

theorem outlook_wait (h : (sysWait env wstatus s).1 = .returned v) : (sysWait env wstatus s).2.current.outlook =
    (if s.current.children = none ∧ some s.currentTask ≠ s.initProc then s.current
      else (lastScan env env.rounds 0 s).current).outlook := by
  unfold sysWait at h ⊢
  split
  · rfl
  · rename_i henters
    rw [if_neg henters] at h
    exact outlook_waitLoop h

theorem sysSignal_registers {handler : ℕ} :
    (sysSignal signum handler s).2 = kernelSignalRegister s.currentTask signum handler s := by
  unfold sysSignal
  split
  · rename_i hinvalid
    rw [kernelSignalRegister, if_pos hinvalid]
  · rfl

/-- The interrupt flag makes no difference to what is registered. -/
theorem register_current {handler : ℕ} {flag : Bool} (ht : { s with interruptFlag := flag } = t) :
    (kernelSignalRegister t.currentTask signum handler t).current =
      (kernelSignalRegister s.currentTask signum handler s).current := by
  subst ht
  unfold kernelSignalRegister
  split
  · rfl
  split
  · rfl
  · rfl

/-- What a call does to the current task by the time it returns. -/
theorem syscall_returns (h : Rooted s kids order) (hw : WithinNsig s.current.pendingSignals)
    (huser : s.current.isUserspace = true) (hfresh : env.spawn.Fresh s)
    (hwake : ∀ k u, WithinNsig u.current.pendingSignals → WithinNsig (env.wake k u).current.pendingSignals)
    (hret : (syscallDispatch env frame { s with interruptFlag := false }).1 = .returned v) :
    Returns (s.returning env frame) (s.HaltsItself env frame)
      (syscallDispatch env frame { s with interruptFlag := false }).2.2.current := by
  obtain ⟨s₀, hs₀⟩ : ∃ s₀, { s with interruptFlag := false } = s₀ := ⟨_, rfl⟩
  have h₀ : Rooted s₀ kids order := hs₀ ▸ h.calm (calm_interruptFlag s false).calmLive
  have hcur : s₀.current = s.current := hs₀ ▸ rfl
  have hw₀ : WithinNsig s₀.current.pendingSignals := hcur ▸ hw
  have hfresh₀ : env.spawn.Fresh s₀ := hs₀ ▸ hfresh
  rw [hs₀] at hret ⊢
  rw [syscallDispatch] at hret ⊢
  -- all calls but a kill leave the outlook of the struct
  have hkeeps : ∀ u : KState, u.current.outlook = (s.returning env frame).outlook →
      WithinNsig (s.returning env frame).pendingSignals → syscallTable frame.eax ≠ some .kill →
      Returns (s.returning env frame) (s.HaltsItself env frame) u.current :=
    fun u hu hwithin hkill => (returns_of_outlook hu hwithin).of_not fun hn => hkill hn.1.1
  have hplain : ∀ num, syscallTable frame.eax = num → num ∉ [some .waitpid, some .signal, some .kill] →
      ∀ u : KState, u.current.outlook = s₀.current.outlook →
      Returns (s.returning env frame) (s.HaltsItself env frame) u.current := by
    intro num hn hnum u hu
    have hsame : s.returning env frame = s.current := returning_plain hn hnum
    refine hkeeps u (by rw [hu, hsame, hcur]) (hsame ▸ hw) fun hkill => hnum ?_
    rw [← hn, hkill]
    decide
  cases hn : syscallTable frame.eax with
  | none => exact hplain none hn (by decide) s₀ rfl
  | some num =>
    simp only [hn, setEax_fst] at hret
    simp only [setEax_state]
    cases num with
    | exit =>
      simp only [syscallHandler, sysExit] at hret
      split at hret <;> cases hret
    | fork => exact hplain _ hn (by decide) _ (outlook_fork hfresh₀ h₀.current_mem)
    | read => exact hplain _ hn (by decide) _ outlook_read
    | write => exact hplain _ hn (by decide) _ outlook_write
    | waitpid =>
      have hreturning : s.returning env frame = if s₀.current.children = none ∧ some s₀.currentTask ≠ s₀.initProc then
          s₀.current else (lastScan env env.rounds 0 s₀).current := by
        rw [KState.returning, hn, ← hs₀]
        rfl
      refine hkeeps _ ?_ ?_ (by rw [hn]; decide)
      · rw [hreturning]
        exact outlook_wait hret
      · rw [hreturning]
        split
        · exact hw₀
        · exact lastScan_within hwake hw₀
    | kill =>
      have htarget : killTarget env.fuel frame.ebx s₀ = some (some s₀.currentTask) ↔
          killTarget env.fuel frame.ebx s = some (some s.currentTask) := by
        rw [← hs₀]
        exact Iff.rfl
      have hreturning : s.returning env frame = if killTarget env.fuel frame.ebx s₀ = some (some s₀.currentTask) then
          s₀.current.signalSend frame.ecx else s₀.current := by
        rw [KState.returning, hn, hcur]
        simp only [htarget]
      have hreturns := kill_returns h₀ hw₀ (hcur ▸ huser) hret hreturning
      refine ⟨hreturns.halted.trans (or_congr_right ?_), hreturns.caught, hreturns.within⟩
      rw [KState.HaltsItself, KState.KillsSelf, htarget, hn]
      tauto
    | signal =>
      have hreturning : s.returning env frame = (kernelSignalRegister s.currentTask frame.ebx frame.ecx s).current := by
        rw [KState.returning, hn]
      refine hkeeps _ ?_ (hreturning ▸ register_within hw) (by rw [hn]; decide)
      change (sysSignal frame.ebx frame.ecx s₀).2.current.outlook = _
      rw [hreturning, sysSignal_registers, register_current hs₀]
    | sigreturn => exact hplain _ hn (by decide) _ rfl
    | getuid => exact hplain _ hn (by decide) _ rfl
    | geteuid => exact hplain _ hn (by decide) _ rfl

/-- The signal frame does not begin at the user's stack pointer. -/
theorem sigframeAddr_ne (userEsp : ℕ) : sigframeAddr userEsp ≠ userEsp := by
  have hlt := sub32_lt userEsp sigframeSize
  rw [sigframeAddr, clearLow_eq (by decide) hlt]
  simp only [sub32, sigframeSize, wordSize]
  omega

/-- A delivery leaves the frame and the pending set alone if the user handles none of the signals, wherever its stores
lead. -/
theorem deliver_same_iff {k : KernelImage} (hcs : frame.cs &&& 3 = 3) : (k.signalCheckAndDeliver frame s).1 = frame ∧
    (k.signalCheckAndDeliver frame s).2.current.pendingSignals = s.current.pendingSignals ↔
      caughtSignal s.current = none := by
  rw [KernelImage.signalCheckAndDeliver, if_neg (not_not.mpr hcs)]
  cases caughtSignal s.current with
  | none => exact iff_of_true ⟨rfl, rfl⟩ rfl
  | some bit =>
    refine iff_of_false ?_ (Option.some_ne_none bit)
    rintro ⟨hframe, -⟩
    dsimp only [KernelImage.setupUserSigframe] at hframe
    have hesp := congrArg TrapFrame.userEsp hframe
    exact sigframeAddr_ne frame.userEsp hesp

theorem caughtSignal_none_iff (hw : WithinNsig x.pendingSignals) : caughtSignal x = none ↔ x.caught = [] := by
  have hfound : caughtSignal x = x.caught.head?.map sigmask := findCaught_eq (signalsOf_length _) hw
  rw [hfound, Option.map_eq_none_iff, List.head?_eq_none_iff]

end Calls

/-- Any signals are pending for the current task, and it has installed any handlers. -/
def KState.withSignals (p : BitVec 32) (handlers : ℕ → ℕ) (s : KState) : KState :=
  s.modify s.currentTask fun x => { x with pendingSignals := p, signalHandlers := handlers }

theorem KState.withSignals_current (p : BitVec 32) (handlers : ℕ → ℕ) (s : KState) :
    (s.withSignals p handlers).current = { s.current with pendingSignals := p, signalHandlers := handlers } :=
  s.modify_task_self _ _

/-- The call is a `sys_wait` whose first scan finds no zombie, so that it halts. From there on interrupts are enabled,
and stay so up to the `iret`. -/
def KState.HasHalted (env : SysEnv) (frame : TrapFrame) (s : KState) : Prop :=
  syscallTable frame.eax = some .waitpid ∧ ¬(s.current.children = none ∧ some s.currentTask ≠ s.initProc) ∧
    findZombie env.fuel s = some none

instance (env : SysEnv) (frame : TrapFrame) (s : KState) : Decidable (s.HasHalted env frame) :=
  inferInstanceAs (Decidable (_ ∧ _))

/-- That call goes back with interrupts enabled. -/
theorem enabled_of_hasHalted {env : SysEnv} {frame : TrapFrame} (h : s.HasHalted env frame) (hrounds : env.rounds ≠ 0) :
    (syscallDispatch env frame { s with interruptFlag := false }).2.2.interruptFlag = true := by
  obtain ⟨hcall, henters, hscan⟩ := h
  obtain ⟨n, hn⟩ := Nat.exists_eq_succ_of_ne_zero hrounds
  obtain ⟨s₀, hs₀⟩ : ∃ s₀, { s with interruptFlag := false } = s₀ := ⟨_, rfl⟩
  have henters₀ : ¬(s₀.current.children = none ∧ some s₀.currentTask ≠ s₀.initProc) := hs₀ ▸ henters
  have hscan₀ : findZombie env.fuel s₀ = some none := hs₀ ▸ hscan
  rw [hs₀, syscallDispatch, hcall, setEax_state]
  change (sysWait env frame.ebx s₀).2.interruptFlag = true
  rw [sysWait, if_neg henters₀, hn, waitLoop, hscan₀]
  exact waitLoop_enabled rfl

/-- The call is a `sys_wait` that collects a zombie at once and stores its exit code into kernel memory. -/
def KState.Strays (k : KernelImage) (env : SysEnv) (frame : TrapFrame) (s : KState) : Prop :=
  syscallTable frame.eax = some .waitpid ∧ (∃ z, findZombie env.fuel s = some (some z)) ∧
    ¬(frame.ebx = 0 ∨ k.Misses frame.ebx 4)

namespace KernelImage

variable {k : KernelImage} {env : SysEnv} {frame : TrapFrame} {wstatus halts : ℕ}

/-- `syscall_dispatch` with the store of `sys_wait`. -/
def syscallDispatch (k : KernelImage) (env : SysEnv) (frame : TrapFrame) (s : KState) : Outcome × TrapFrame × KState :=
  if syscallTable frame.eax = some .waitpid then
    let r := k.sysWait env frame.ebx s
    setEax (r.1, frame, r.2)
  else Tasks.syscallDispatch env frame s

theorem syscallDispatch_of_wait (h : k.sysWait env frame.ebx s = Tasks.sysWait env frame.ebx s) :
    k.syscallDispatch env frame s = Tasks.syscallDispatch env frame s := by
  unfold syscallDispatch
  split
  · rename_i hcall
    rw [h, Tasks.syscallDispatch, hcall]
    rfl
  · rfl

theorem waitLoop_eq (h : wstatus = 0 ∨ k.Misses wstatus 4) :
    k.waitLoop env wstatus n halts s = Tasks.waitLoop env wstatus n halts s := by
  induction n generalizing halts s with
  | zero => rfl
  | succ n ih =>
    rw [waitLoop, Tasks.waitLoop]
    cases findZombie env.fuel s with
    | none => rfl
    | some found =>
      cases found with
      | none => exact ih
      | some z => exact collectZombie_eq h s

theorem sysWait_eq (h : wstatus = 0 ∨ k.Misses wstatus 4) : k.sysWait env wstatus s = Tasks.sysWait env wstatus s := by
  rw [sysWait, Tasks.sysWait, waitLoop_eq h]

/-- A call that neither halts nor stores into kernel memory. -/
theorem syscallDispatch_eq (hhalts : ¬s.HasHalted env frame) (hstrays : ¬s.Strays k env frame) :
    k.syscallDispatch env frame s = Tasks.syscallDispatch env frame s := by
  by_cases hcall : syscallTable frame.eax = some .waitpid
  · refine syscallDispatch_of_wait ?_
    unfold sysWait Tasks.sysWait
    split
    · rfl
    · rename_i henters
      cases env.rounds with
      | zero => rfl
      | succ n =>
        rw [waitLoop, Tasks.waitLoop]
        cases hscan : findZombie env.fuel s with
        | none => rfl
        | some found =>
          cases found with
          | none => exact absurd ⟨hcall, henters, hscan⟩ hhalts
          | some z => exact collectZombie_eq (not_not.mp fun hhit => hstrays ⟨hcall, ⟨z, hscan⟩, hhit⟩) s
  · exact if_neg hcall

theorem syscallDispatch_ring (hcs : frame.cs &&& 3 = 3) : (k.syscallDispatch env frame s).2.1.cs &&& 3 = 3 := by
  unfold syscallDispatch
  split
  · rw [setEax_cs]
    exact hcs
  · exact Tasks.syscallDispatch_ring hcs

end KernelImage

/-- The state in which the way back to Ring 3 begins. Behind a call that has halted, `late` is what ticks have done since
its last halt. -/
def KState.comesBack (k : KernelImage) (env : SysEnv) (late : KState → KState) (frame : TrapFrame) (s : KState) : KState :=
  let t := (k.syscallDispatch env frame { s with interruptFlag := false }).2.2
  if s.HasHalted env frame then late t else t

/-- `int80` with the store of `sys_wait` and the ticks behind its last halt. -/
def int80Late (k : KernelImage) (env : SysEnv) (late : KState → KState) (frame : TrapFrame) (s : KState) :
    Outcome × TrapFrame × KState :=
  let r := k.syscallDispatch env frame { s with interruptFlag := false }
  match r.1 with
  | .returned _ => (r.1, k.signalCheckAndDeliver r.2.1 (s.comesBack k env late frame))
  | _ => r

/-- That is `int80` if all stores miss kernel memory and no tick comes. -/
theorem int80Late_id {k : KernelImage} {env : SysEnv} {frame : TrapFrame} (hwait : frame.ebx = 0 ∨ k.Misses frame.ebx 4)
    (hdeliver : let r := syscallDispatch env frame { s with interruptFlag := false }; k.MissedBy r.2.1 r.2.2) :
    int80Late k env id frame s = int80 env frame s := by
  have hsame : k.syscallDispatch env frame { s with interruptFlag := false } =
      syscallDispatch env frame { s with interruptFlag := false } :=
    KernelImage.syscallDispatch_of_wait (KernelImage.sysWait_eq hwait)
  have hback : s.comesBack k env id frame = (syscallDispatch env frame { s with interruptFlag := false }).2.2 := by
    rw [KState.comesBack, hsame]
    exact ite_self _
  cases h : (syscallDispatch env frame { s with interruptFlag := false }).1 <;>
    simp only [int80Late, int80, hsame, hback, h, KernelImage.signalCheckAndDeliver_eq hdeliver]

/-- If a call leaves its task stopped or dead, then the way back to Ring 3 leaves the frame and the pending signals
as they are. -/
def HaltedLeftAlone (k : KernelImage) (env : SysEnv) (late : KState → KState) (frame : TrapFrame) (s : KState) : Prop :=
  let r := k.syscallDispatch env frame { s with interruptFlag := false }
  let t := s.comesBack k env late frame
  t.current.Halted → (int80Late k env late frame s).2.1 = r.2.1 ∧
    (int80Late k env late frame s).2.2.current.pendingSignals = t.current.pendingSignals

/-- A task that is stopped or dead, or halts itself in its call, and handles a pending signal itself. Behind a halt of
`sys_wait`, and behind its store into kernel memory, that is read off the task as it comes back. -/
def KState.HaltsHandling (k : KernelImage) (env : SysEnv) (late : KState → KState) (frame : TrapFrame) (s : KState) : Prop :=
  (s.HasHalted env frame ∨ s.Strays k env frame) ∧ (s.comesBack k env late frame).current.Halted ∧
      caughtSignal (s.comesBack k env late frame).current ≠ none ∨
    ¬(s.HasHalted env frame ∨ s.Strays k env frame) ∧ ((s.returning env frame).Halted ∨ s.HaltsItself env frame) ∧
      (s.returning env frame).caught ≠ []

/-- Behind a call of a user task that returns, a halted task is left alone unless it handles a pending signal. -/
theorem halted_left_alone_iff (k : KernelImage) (s : KState) (hs : KRun (fun op s => op.OnCpu s) s) (p : BitVec 32)
    (handlers : ℕ → ℕ) (env : SysEnv) (late : KState → KState) (frame : TrapFrame) (v : ℕ) (hw : WithinNsig p)
    (huser : s.current.isUserspace = true) (hcs : frame.cs &&& 3 = 3) (hfresh : env.spawn.Fresh s)
    (hwake : ∀ k u, WithinNsig u.current.pendingSignals → WithinNsig (env.wake k u).current.pendingSignals)
    (hret : (int80Late k env late frame (s.withSignals p handlers)).1 = .returned v) :
    HaltedLeftAlone k env late frame (s.withSignals p handlers) ↔
      ¬(s.withSignals p handlers).HaltsHandling k env late frame := by
  obtain ⟨kids, order, h⟩ := hs.rooted
  obtain ⟨u, hu⟩ : ∃ u, s.withSignals p handlers = u := ⟨_, rfl⟩
  have hquiet : Quiet s u := hu ▸ quiet_modify s s.currentTask _ rfl
  have hself : u.current = { s.current with pendingSignals := p, signalHandlers := handlers } :=
    hu ▸ s.withSignals_current p handlers
  have hcalm : Calm False s u := hquiet.calm
  have hfresh' : env.spawn.Fresh u := by
    rw [SpawnEnv.Fresh, hcalm.rest.live]
    exact hfresh
  rw [hu] at hret ⊢
  obtain ⟨r, hr⟩ : ∃ r, k.syscallDispatch env frame { u with interruptFlag := false } = r := ⟨_, rfl⟩
  obtain ⟨t, ht⟩ : ∃ t, u.comesBack k env late frame = t := ⟨_, rfl⟩
  have hreturned : r.1 = .returned v ∧ int80Late k env late frame u = (r.1, k.signalCheckAndDeliver r.2.1 t) := by
    rw [int80Late, hr, ht] at hret ⊢
    split at hret
    · rename_i hv
      exact ⟨hret, by rw [hv]⟩
    · rename_i hnot
      exact absurd hret (hnot v)
  have hring : r.2.1.cs &&& 3 = 3 := hr ▸ KernelImage.syscallDispatch_ring hcs
  rw [HaltedLeftAlone, hr, ht, hreturned.2, KState.HaltsHandling, ht]
  dsimp only
  rw [deliver_same_iff hring]
  by_cases hopen : u.HasHalted env frame ∨ u.Strays k env frame
  · rw [and_iff_right hopen, or_iff_left fun hclosed => hclosed.1 hopen, not_and, not_not]
  · -- what the task is at its return is settled by the call
    obtain ⟨hhalts, hstrays⟩ := not_or.mp hopen
    have hsame : r = syscallDispatch env frame { u with interruptFlag := false } :=
      hr.symm.trans (KernelImage.syscallDispatch_eq hhalts hstrays)
    have hreturns := syscall_returns (h.calm hcalm.calmLive) (hself ▸ hw) (by rw [hself]; exact huser) hfresh' hwake
      (hsame ▸ hreturned.1)
    rw [← hsame] at hreturns
    have hlast : t = r.2.2 := by rw [← ht, KState.comesBack, hr, if_neg hhalts]
    rw [or_iff_right fun hlate => hopen hlate.1, and_iff_right hopen, hlast, caughtSignal_none_iff hreturns.within,
      hreturns.halted, hreturns.caught, not_and, not_not]

/-- A user task with a handler for `SIGINT`. -/
def interruptible (p : BitVec 32) : KState :=
  userOnCpu.withSignals p fun signum => if signum = sigint then 0x8048100 else sigDfl

/-- A call with two arguments in which every allocation succeeds and no halt changes anything. -/
def plainEnv : SysEnv := ⟨16, 0, spawnAt 12, none, fun _ s => s⟩

/-- `SIGINT` is pending while the task stops itself. -/
theorem halted_left_alone_fails : ¬∀ (k : KernelImage) (s : KState), KRun (fun op s => op.OnCpu s) s →
    ∀ (p : BitVec 32) (handlers : ℕ → ℕ) (env : SysEnv) (late : KState → KState) (frame : TrapFrame) (v : ℕ),
    WithinNsig p → s.current.isUserspace = true → frame.cs &&& 3 = 3 → env.spawn.Fresh s →
    (∀ k u, WithinNsig u.current.pendingSignals → WithinNsig (env.wake k u).current.pendingSignals) →
    (int80Late k env late frame (s.withSignals p handlers)).1 = .returned v →
    HaltedLeftAlone k env late frame (s.withSignals p handlers) := by
  intro h
  have hleft := h (structImage 11 0xD0000008 (by decide)) userOnCpu (KRun.userOnCpu trivial trivial trivial trivial)
    (sigmask sigint) (fun signum => if signum = sigint then 0x8048100 else sigDfl) plainEnv id
    (userFrame 37 3 sigstop userStackTop) 0 (by decide +kernel) (by decide +kernel) (by decide +kernel)
    (spawnAt_fresh (by decide +kernel)) (fun _ _ hw => hw) (by decide +kernel)
  have hsame := (hleft (by decide +kernel)).2
  revert hsame
  decide +kernel

/-- The task stops itself while nothing else is pending. -/
theorem halted_left_alone_quiet :
    let k : KernelImage := structImage 11 0xD0000008 (by decide)
    ((interruptible 0).comesBack k plainEnv id (userFrame 37 3 sigstop userStackTop)).current.Halted ∧
    HaltedLeftAlone k plainEnv id (userFrame 37 3 sigstop userStackTop) (interruptible 0) := by
  intro k
  refine ⟨by decide +kernel, ?_⟩
  refine (halted_left_alone_iff k userOnCpu (KRun.userOnCpu trivial trivial trivial trivial) 0
    (fun signum => if signum = sigint then 0x8048100 else sigDfl) plainEnv id (userFrame 37 3 sigstop userStackTop) 0
    (by decide +kernel) (by decide +kernel) (by decide +kernel) (spawnAt_fresh (by decide +kernel)) (fun _ _ hw => hw)
    (by decide +kernel)).mpr ?_
  have hcall : syscallTable (userFrame 37 3 sigstop userStackTop).eax ≠ some .waitpid := by decide
  rintro (⟨hhalts | hstrays, -⟩ | ⟨-, -, hcaught⟩)
  · exact hcall hhalts.1
  · exact hcall hstrays.1
  · exact hcaught (by decide +kernel)

end HekaOS.Tasks
