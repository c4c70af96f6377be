import HekaOS.BoundedWaiting
import HekaOS.KeyboardRuns

/-!
# Sessions next to the kernel

The shell runs inside the keyboard interrupt, between the operations of the kernel. Whatever is typed, the task
lists stay in order and the pids apart, so that a command with a pid reaches the one task that has it.
-/

namespace HekaOS.Sessions
open KernelMemory KernelTriples PointerChain Tasks TransitionSystem Vga

variable {m : Machine} {s u : KState} {d e : Desk} {op : KOp} {t fuel : ℕ} {kids : ℕ → List ℕ} {order : List ℕ}
  {pid sig : BitVec 32}

/-- The lists of tasks are in order, and every pid was given once. -/
def Sound (s : KState) : Prop := ∃ kids order L, Tended s kids order ∧ Roster s L

theorem Sound.boot (h : Boot s) : Sound s := ⟨_, _, _, .boot h, .boot_state h⟩

theorem roster_step {L : Ledger} (h : Roster s L) (hstep : KStep op s u) : Roster u (L.record op s u) := by
  have hsettled := needResched_step h.settled hstep
  cases pidStep h.settled hstep with
  | undisturbed hd => exact h.undisturbed _ hsettled hd
  | born p c hb hnum => exact h.born hsettled hb hnum
  | reaped z fuel v hv hreap => exact h.reaped _ hsettled hv hreap

theorem Sound.step (h : Sound s) (hop : op.OnCpu s) (hstep : KStep op s u) : Sound u := by
  obtain ⟨kids, order, L, htended, hroster⟩ := h
  obtain ⟨kids', order', htended'⟩ := htended.step hop hstep
  exact ⟨kids', order', _, htended', roster_step hroster hstep⟩

theorem Sound.quiet (h : Sound s) (hquiet : Quiet s u) : Sound u := by
  obtain ⟨kids, order, L, htended, hroster⟩ := h
  have hcalm : CalmLive False s u := hquiet.calm.calmLive
  have htended' := htended.calm hcalm
  exact ⟨kids, order, _, htended', hroster.undisturbed (.tick 0) htended'.settled hcalm.undisturbed⟩

/-- What is found for a pid is the task on the list that has it. -/
theorem Sound.found (h : Sound s) {target : Option ℕ} (hfind : shellFindTask fuel pid s = some target) (t : ℕ) :
    target = some t ↔ Listed s t ∧ (s.task t).pid = pid.toNat := by
  obtain ⟨kids, order, L, htended, hroster⟩ := h
  have hfirst := htended.list.find_of_some hfind
  constructor
  · intro htarget
    rw [htarget] at hfirst
    have hpid := List.find?_some hfirst.symm
    exact ⟨⟨order, htended.list, List.mem_of_find?_eq_some hfirst.symm⟩, of_decide_eq_true hpid⟩
  · rintro ⟨⟨l, hl, hmem⟩, hpid⟩
    have hmem' : t ∈ order := hl.unique htended.list ▸ hmem
    cases htarget : target with
    | none =>
      rw [htarget] at hfirst
      have hnone := List.find?_eq_none.mp hfirst.symm t hmem'
      exact absurd (decide_eq_true hpid) hnone
    | some a =>
      rw [htarget] at hfirst
      have ha := List.find?_some hfirst.symm
      have hsame : (s.task a).pid = (s.task t).pid := (of_decide_eq_true ha).trans hpid.symm
      exact congrArg some (hroster.pid_inj (htended.live (List.mem_of_find?_eq_some hfirst.symm)) (htended.live hmem') hsame)

/-- The search ends if there is fuel for every pid. -/
theorem Sound.search (h : Sound s) (hfuel : maxProc < fuel) (pid : BitVec 32) : ∃ target, shellFindTask fuel pid s = some target := by
  obtain ⟨kids, order, L, htended, hroster⟩ := h
  have hnodup : (order.map fun b => (s.task b).pid).Nodup := by
    refine (List.nodup_map_iff_inj_on htended.list.nodup).mpr ?_
    intro b hb c hc hpid
    exact hroster.pid_inj (htended.live hb) (htended.live hc) hpid
  have hsub : (order.map fun b => (s.task b).pid) ⊆ List.range maxProc := by
    intro n hn
    obtain ⟨b, hb, rfl⟩ := List.mem_map.mp hn
    exact List.mem_range.mpr (hroster.pid_lt (htended.live hb))
  have hle := (hnodup.subperm hsub).length_le
  rw [List.length_map, List.length_range] at hle
  exact ⟨_, htended.list.find_eq (by omega)⟩

theorem Sound.send (h : Sound s) (ht : Listed s t) (signum : ℕ) : Sound (kernelSignalSend t signum s) := by
  have hop : (KOp.send t signum).OnCpu s := trivial
  have hstep : KStep (.send t signum) s (kernelSignalSend t signum s) := ⟨ht, rfl⟩
  exact h.step hop hstep

theorem Sound.register (h : Sound s) (ht : Listed s t) (signum handler : ℕ) :
    Sound (kernelSignalRegister t signum handler s) := by
  have hop : (KOp.register t signum handler).OnCpu s := trivial
  have hstep : KStep (.register t signum handler) s (kernelSignalRegister t signum handler s) := ⟨ht, rfl⟩
  exact h.step hop hstep

/-! ### The commands -/

/-- The memory that a new task gets is not in use. -/
def Machine.Fresh (m : Machine) : Prop := ∀ s env, m.memory s = .ok env → env.Fresh s

theorem Sound.launch {max : ℕ} {size : ℕ → ℕ} {exec : ℤ → ℕ → KState → Kernel KState} (h : Sound s)
    (hexec : ∀ slot size, Ensures (exec slot size s) Sound) (slot : ℤ) : Ensures (launch max size exec slot s) Sound := by
  unfold Sessions.launch
  split
  · exact ensures_ok h
  · exact hexec slot _

theorem Sound.spawnTask (h : Sound s) (hm : m.Fresh) (user : Bool) (slot : ℤ) :
    Ensures (spawnTask m user slot s) Sound := by
  cases user with
  | false =>
    rw [Sessions.spawnTask, if_neg Bool.false_ne_true]
    refine h.launch (fun slot size => Ensures.bind (Q := fun env => m.memory s = .ok env) (fun _ hv => hv) fun env henv => ?_) slot
    have hop : (KOp.execFn env (m.procCodeBuf (slot - 1).toNat) size).OnCpu s := trivial
    exact ensures_ok (h.step hop ⟨hm s env henv, rfl⟩)
  | true =>
    rw [Sessions.spawnTask, if_pos rfl]
    refine h.launch (fun slot size => Ensures.bind (Q := fun env => m.memory s = .ok env) (fun _ hv => hv) fun env henv => ?_) slot
    have hop : (KOp.execUserFn env size).OnCpu s := trivial
    exact ensures_ok (h.step hop ⟨hm s env henv, rfl⟩)

theorem Sound.spawnTasks (h : Sound s) (hm : m.Fresh) (user : Bool) (slot : Option (BitVec 32)) :
    Ensures (spawnTasks m user slot s) Sound := by
  cases slot with
  | some slot => exact h.spawnTask hm user slot.toInt
  | none => exact ensures_foldlM (fun i _ t ht => ht.spawnTask hm user _) h

theorem quiet_inputPush (t c : ℕ) (s : KState) : Quiet s (taskInputPush t c s) := by
  unfold taskInputPush
  dsimp only
  split
  · exact .refl s
  · exact quiet_modify s t _ rfl

theorem quiet_feedString (t : ℕ) (str : List ℕ) (s : KState) : Quiet s (feedString t str s) := by
  induction str generalizing s with
  | nil => exact .refl s
  | cons c str ih =>
    rw [feedString]
    split
    · exact .refl s
    · exact (quiet_inputPush t c s).trans (ih _)

/-- `pfeed` touches nothing but the input of its task. -/
theorem Sound.feed {alloc : Option (ℕ → ℕ)} {n : ℕ} {str : List ℕ} {r : ℕ × KState} (h : Sound s)
    (hfeed : taskFeed fuel alloc n str s = .ok r) : Sound r.2 := by
  obtain ⟨v, w⟩ := r
  rcases taskFeed_cases hfeed with ⟨a, buf, -, -, -, hfed⟩ | ⟨-, -, hsame⟩
  · have hbuffer : Quiet s (s.modify a fun x => { x with inBuf := some buf }) := quiet_modify s a _ rfl
    have hquiet := (hbuffer.trans (quiet_feedString a str _)).trans (quiet_inputPush a 10 _)
    rw [← hfed] at hquiet
    exact h.quiet hquiet
  · rw [hsame]
    exact h

theorem Sound.onTask {f : ℕ → Desk → Desk} (h : Sound d.tasks) (hf : ∀ t, Listed d.tasks t → Sound (f t d).tasks)
    (he : d.onTask m pid sig f = .ok e) : Sound e.tasks := by
  unfold Desk.onTask at he
  split at he
  · rw [← Except.ok.inj he]
    exact h
  · obtain ⟨target, hfind, he⟩ := bind_eq_ok.mp he
    rw [ended_eq_ok] at hfind
    cases target with
    | none =>
      rw [← Except.ok.inj he]
      exact h
    | some t =>
      rw [← Except.ok.inj he]
      exact hf t ((h.found hfind t).mp rfl).1

theorem Sound.kill (h : Sound d.tasks) (hkill : d.kill m pid sig = .ok e) : Sound e.tasks :=
  h.onTask (fun _ ht => h.send ht _) hkill

theorem Sound.signal (h : Sound d.tasks) (hsignal : d.signal m pid sig = .ok e) : Sound e.tasks := by
  refine h.onTask ?_ hsignal
  intro t ht
  dsimp only
  split
  · exact h
  · exact h.register ht _ _

/-- The tasks are as they were. -/
theorem Sound.of_same (h : Sound d.tasks) {x : Desk} (heq : Except.ok x = (Except.ok e : Kernel Desk)) (hx : x.tasks = d.tasks) :
    Sound e.tasks := by
  rw [← Except.ok.inj heq, hx]
  exact h

theorem Sound.perform (h : Sound d.tasks) (hm : m.Fresh) {c : Command} (hc : d.perform m c = .ok e) : Sound e.tasks := by
  cases c with
  | reboot => cases hc
  | shutdown => cases hc
  | halt => cases hc
  | plog pid =>
    obtain ⟨target, -, hc⟩ := bind_eq_ok.mp hc
    exact h.of_same hc rfl
  | pfeed pid text =>
    obtain ⟨buf, -, hc⟩ := bind_eq_ok.mp hc
    obtain ⟨r, hfeed, hc⟩ := bind_eq_ok.mp hc
    rw [← Except.ok.inj hc]
    exact h.feed hfeed
  | traptest =>
    obtain ⟨messages, -, hc⟩ := bind_eq_ok.mp hc
    exact h.of_same hc rfl
  | eyeproc =>
    unfold Desk.perform at hc
    dsimp only at hc
    split at hc
    · exact h.of_same hc rfl
    · cases hc
  | spawntsk user slot =>
    obtain ⟨tasks, hspawn, hc⟩ := bind_eq_ok.mp hc
    rw [← Except.ok.inj hc]
    exact h.spawnTasks hm user slot tasks hspawn
  | kill pid sig => exact h.kill hc
  | signal pid sig => exact h.signal hc
  | _ => exact h.of_same hc rfl

theorem Sound.read (h : Sound d.tasks) (hm : m.Fresh) {r : Reading} (hread : d.read m r = .ok e) : Sound e.tasks := by
  unfold Desk.read at hread
  split at hread
  · exact h.of_same hread rfl
  split at hread
  · exact h.of_same hread rfl
  split at hread
  · exact h.of_same hread rfl
  split at hread
  · dsimp only at hread
    generalize (keymapTable d.activeKeymap).getD r.scancode.toNat 0 = c at hread
    split at hread
    · unfold Desk.type at hread
      split at hread
      · obtain ⟨x, hperform, hread⟩ := bind_eq_ok.mp hread
        have hperformed : Sound x.tasks := h.perform hm hperform
        rw [← Except.ok.inj hread]
        exact hperformed
      · exact h.of_same hread rfl
    · exact h.of_same hread rfl
  · exact h.of_same hread rfl

/-! ### Runs from boot -/

/-- The allocator hands out memory that is free, and the callers of the kernel keep to their part. -/
def Happening.Allowed (s : Session) : Happening → Prop
  | .key m _ => m.Fresh
  | .kernel op _ => op.OnCpu s.tasks ∧ op.Allowed s.tasks

/-- Keys and kernel operations in any order, behind the first prompt. -/
def SessionRun : Session → Prop :=
  Reachable (fun s => InOrder s ∧ Boot s.tasks) fun s t => ∃ happening : Happening, happening.Allowed s ∧ s.step happening = .ok t

theorem session_step {s t : Session} {happening : Happening} (horder : InOrder s) (hsound : Sound s.tasks)
    (hallowed : happening.Allowed s) (hstep : s.step happening = .ok t) : InOrder t ∧ Sound t.tasks := by
  obtain ⟨hdesk, hnext⟩ := step_simulates horder happening
  refine ⟨hnext t hstep, ?_⟩
  rw [hstep] at hdesk
  cases happening with
  | key m r =>
    have hread : s.desk.read m r = .ok t.desk := hdesk.symm
    have htasks : Sound s.desk.tasks := hsound
    exact htasks.read hallowed hread
  | kernel op messages =>
    obtain ⟨hop, hallowed⟩ := hallowed
    obtain ⟨tasks, hrun, hstep⟩ := bind_eq_ok.mp hstep
    rw [ended_eq_ok] at hrun
    rw [← Except.ok.inj hstep]
    exact hsound.step hop ⟨hallowed, hrun⟩

theorem SessionRun.sound {s : Session} (hs : SessionRun s) : InOrder s ∧ Sound s.tasks := by
  refine Reachable.invariant (I := fun s => InOrder s ∧ Sound s.tasks) ?_ ?_ hs
  · rintro s ⟨horder, hboot⟩
    exact ⟨horder, .boot hboot⟩
  · rintro s t ⟨horder, hsound⟩ ⟨happening, hallowed, hstep⟩
    exact session_step horder hsound hallowed hstep

/-- The kernel does something else. -/
theorem SessionRun.kernel {s : Session} (hs : SessionRun s) (op : KOp) (hop : op.OnCpu s.tasks) (hallowed : op.Allowed s.tasks)
    (hrun : (op.run s.tasks).isSome = true) : ∃ u, SessionRun u ∧ u.tasks = s.tasks.after op := by
  obtain ⟨tasks, htasks⟩ := Option.isSome_iff_exists.mp hrun
  have hstep : s.step (.kernel op []) = .ok { s with tasks, log := printString [] s.log } := by
    unfold Session.step
    dsimp only
    rw [htasks]
    rfl
  refine ⟨_, .next hs ⟨.kernel op [], ⟨hop, hallowed⟩, hstep⟩, ?_⟩
  rw [KState.after, htasks]
  rfl

/-- The Enter key is pressed. -/
structure Enter (s : Session) (r : Reading) : Prop where
  ready : r.status &&& 1 ≠ 0
  scancode : r.scancode = 0x1C
  plain : s.extended = false

theorem Enter.read {s : Session} {r : Reading} (h : Enter s r) : s.desk.read m r = s.desk.type m 10 :=
  Desk.read_newline h.ready h.scancode h.plain

/-- The commands that stop the machine, and `eyeproc` if ESC is not pressed. -/
def Stops (m : Machine) (c : Command) : Prop :=
  c = .reboot ∨ c = .shutdown ∨ c = .halt ∨ c = .eyeproc ∧ escapes false m.readings = false

theorem Stops.perform {c : Command} (h : Stops m c) (d : Desk) : d.perform m c = .error .spin := by
  rcases h with rfl | rfl | rfl | ⟨rfl, hstays⟩
  · rfl
  · rfl
  · rfl
  · unfold Desk.perform
    dsimp only
    rw [hstays, if_neg Bool.false_ne_true]

/-- A test program is started from the slot. -/
def Machine.Starts (m : Machine) (user : Bool) (slot : ℤ) : Prop :=
  let size := (if user then m.userSize else m.kthreadSize) slot.toNat
  1 ≤ slot ∧ slot ≤ 6 ∧ 0 < size ∧ size ≤ pageSize

/-- The slots that `spawntsk` goes through. -/
def spawnSlots : Option (BitVec 32) → List ℤ
  | some slot => [slot.toInt]
  | none => (List.range 6).map fun i => ((i + 1 : ℕ) : ℤ)

/-- When it comes to one of the test programs, no memory is left for a task. -/
def Machine.Starves (m : Machine) (user : Bool) (slot : Option (BitVec 32)) (s : KState) : Prop :=
  ∃ before i after t e, spawnSlots slot = before ++ i :: after ∧
    before.foldlM (fun s i => spawnTask m user i s) s = .ok t ∧ m.Starts user i ∧ m.memory t = .error e

/-- A command runs into a panic: in the stack trace of `traptest`, or for lack of memory. -/
def Panics (m : Machine) (s : KState) : Command → Prop
  | .traptest => ∃ e, m.trapMessages = .error e
  | .pfeed pid _ =>
    (∃ t, Listed s t ∧ (s.task t).pid = pid.toNat ∧ (s.task t).inBuf = none) ∧ ∃ e, m.inBuf = .error e
  | .spawntsk user slot => m.Starves user slot s
  | _ => False

theorem answer_returns {α : Type} {x : Kernel α} {f : α → KState} :
    (∃ u, (x >>= fun a => .ok (f a)) = .ok u) ↔ ¬∃ e, x = .error e := by
  cases x with
  | error e =>
    refine iff_of_false ?_ fun hno => hno ⟨e, rfl⟩
    rintro ⟨u, hu⟩
    cases hu
  | ok a =>
    refine iff_of_true ⟨f a, rfl⟩ ?_
    rintro ⟨e, he⟩
    cases he

theorem launch_returns (max : ℤ) {slot : ℤ} {n : ℕ} {size : ℕ → ℕ} {exec : ℤ → ℕ → KState → Kernel KState} {fails : Prop}
    (hmax : max = n) (hexec : (∃ u, exec slot (size slot.toNat) s = .ok u) ↔ ¬fails) :
    (∃ u, launch n size exec slot s = .ok u) ↔
      ¬((1 ≤ slot ∧ slot ≤ max ∧ 0 < size slot.toNat ∧ size slot.toNat ≤ pageSize) ∧ fails) := by
  unfold Sessions.launch
  split
  · exact iff_of_true ⟨s, rfl⟩ fun h => by omega
  · rw [hexec, not_and]
    exact ⟨fun h _ => h, fun h => h (by omega)⟩

theorem spawnTask_returns (m : Machine) (user : Bool) (slot : ℤ) (s : KState) :
    (∃ u, spawnTask m user slot s = .ok u) ↔ ¬(m.Starts user slot ∧ ∃ e, m.memory s = .error e) := by
  cases user with
  | false =>
    rw [Sessions.spawnTask, if_neg Bool.false_ne_true]
    exact launch_returns 6 rfl answer_returns
  | true =>
    rw [Sessions.spawnTask, if_pos rfl]
    exact launch_returns 6 rfl answer_returns

theorem spawnTasks_returns (m : Machine) (user : Bool) (slot : Option (BitVec 32)) (s : KState) :
    (∃ u, spawnTasks m user slot s = .ok u) ↔ ¬m.Starves user slot s := by
  have hloop : spawnTasks m user slot s = (spawnSlots slot).foldlM (fun s i => spawnTask m user i s) s := by
    cases slot with
    | some slot =>
      rw [spawnSlots, List.foldlM_cons, Sessions.spawnTasks]
      cases spawnTask m user slot.toInt s <;> rfl
    | none => rw [spawnSlots, List.foldlM_map, Sessions.spawnTasks]
  rw [hloop, foldlM_returns]
  constructor
  · rintro hall ⟨before, i, after, t, e, hslots, hrun, hstarts, hmemory⟩
    exact (spawnTask_returns m user i t).mp (hall before i after t hslots hrun) ⟨hstarts, e, hmemory⟩
  · intro hfed before i after t hslots hrun
    refine (spawnTask_returns m user i t).mpr ?_
    rintro ⟨hstarts, e, hmemory⟩
    exact hfed ⟨before, i, after, t, e, hslots, hrun, hstarts, hmemory⟩

theorem Sound.feedBuffer_returns (h : Sound s) (hfuel : maxProc < m.fuel) (pid : BitVec 32) :
    (∃ buf, feedBuffer m pid s = .ok buf) ↔
      ¬((∃ t, Listed s t ∧ (s.task t).pid = pid.toNat ∧ (s.task t).inBuf = none) ∧ ∃ e, m.inBuf = .error e) := by
  obtain ⟨target, hfind⟩ := h.search hfuel pid
  have hfound := h.found hfind
  have htarget : feedTarget m.fuel pid.toNat s = some target := hfind
  unfold feedBuffer
  rw [htarget]
  simp only [ended, ok_bind]
  cases target with
  | none =>
    refine iff_of_true ⟨none, rfl⟩ ?_
    rintro ⟨⟨t, hlisted, hpid, -⟩, -⟩
    have hnone := (hfound t).mpr ⟨hlisted, hpid⟩
    cases hnone
  | some a =>
    dsimp only
    obtain ⟨hlisted, hpid⟩ := (hfound a).mp rfl
    by_cases hbuf : (s.task a).inBuf = none
    · rw [if_pos hbuf]
      cases m.inBuf with
      | error e =>
        refine iff_of_false ?_ fun hno => hno ⟨⟨a, hlisted, hpid, hbuf⟩, e, rfl⟩
        rintro ⟨b, hb⟩
        cases hb
      | ok buf =>
        refine iff_of_true ⟨some buf, rfl⟩ ?_
        rintro ⟨-, e, he⟩
        cases he
    · rw [if_neg hbuf]
      refine iff_of_true ⟨none, rfl⟩ ?_
      rintro ⟨⟨t, hlisted', hpid', hnone⟩, -⟩
      have hsame : a = t := Option.some.inj ((hfound t).mpr ⟨hlisted', hpid'⟩)
      exact hbuf (hsame ▸ hnone)

theorem Panics.perform (h : Sound d.tasks) (hfuel : maxProc < m.fuel) {c : Command} (hc : Panics m d.tasks c) :
    ¬∃ e, d.perform m c = .ok e := by
  rintro ⟨e, he⟩
  cases c with
  | traptest =>
    obtain ⟨stop, hstop⟩ := hc
    obtain ⟨messages, hmessages, -⟩ := bind_eq_ok.mp he
    rw [hstop] at hmessages
    cases hmessages
  | pfeed pid text =>
    obtain ⟨buf, hbuf, -⟩ := bind_eq_ok.mp he
    exact (h.feedBuffer_returns hfuel pid).mp ⟨buf, hbuf⟩ hc
  | spawntsk user slot =>
    obtain ⟨tasks, htasks, -⟩ := bind_eq_ok.mp he
    exact (spawnTasks_returns m user slot d.tasks).mp ⟨tasks, htasks⟩ hc
  | _ => exact hc

theorem InOrder.nonzero {s : Session} (h : InOrder s) : 0 ∉ s.desk.line := by
  obtain ⟨t, cs, h⟩ := h
  rw [h.line]
  intro hzero
  exact (h.plain 0 (mem_edited cs 0 hzero)).2 rfl

/-- A command that is asked for by one line only. -/
theorem spoken_iff {w line : List Byte} {c : Command} (hzero : 0 ∉ line) (hw : Asks w c) (hc : c.Proper)
    (honly : ∀ l, Asks l c → l = w) : shellCommand line = c ↔ line = w := by
  constructor
  · intro h
    exact honly line (asks_of_command hzero hc h)
  · intro h
    rw [h]
    exact hw.command

theorem stops_iff {line : List Byte} (hzero : 0 ∉ line) : Stops m (shellCommand line) ↔ line = chars "reboot" ∨
    line = chars "shutdown" ∨ line = chars "halt" ∨ line = chars "eyeproc" ∧ escapes false m.readings = false := by
  have hreboot := spoken_iff hzero .reboot trivial fun l h => by cases h; rfl
  have hshutdown := spoken_iff hzero .shutdown trivial fun l h => by cases h; rfl
  have hhalt := spoken_iff hzero .halt trivial fun l h => by cases h; rfl
  have heyeproc := spoken_iff hzero .eyeproc trivial fun l h => by cases h; rfl
  rw [Stops, hreboot, hshutdown, hhalt, heyeproc]

end HekaOS.Sessions
