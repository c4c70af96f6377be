import HekaOS.ReapSteps

/-!
# Wake-ups of waiting parents

A parent that is blocked inside `sys_wait` has no zombie among its children: whoever makes a
child a zombie wakes the parent. The argument needs that no zombie appears among the children
that the scan of a parent has already passed, and that a list a zombie is taken off is not changed
in front of it while its head is being replaced. From the second round of `sys_wait` on a tick can make either
happen, and the wake-up is lost.
-/

namespace HekaOS.Tasks
open KernelMemory PointerChain TransitionSystem

variable {s t : KState} {m n : Machine} {kids : ℕ → List ℕ} {order : List ℕ} {a b c p x : ℕ} {pl : Place}

/-- What is known of a task at its place, by its children. -/
structure PlaceOk (s : KState) (kids : List ℕ) (t : ℕ) (pl : Place) : Prop where
  asleep : pl.inWait = true → (s.task t).state = .blocked → ∀ c ∈ kids, (s.task c).state ≠ .zombie
  scan : ∀ wstatus c, pl = .scan wstatus c → (s.task t).state ≠ .zombie →
    ∃ pre l, kids = pre ++ l ∧ c = l.head? ∧ ∀ x ∈ pre, (s.task x).state ≠ .zombie
  found : ∀ wstatus z, pl = .found wstatus z → (s.task t).state ≠ .zombie →
    z ∈ kids ∧ (s.task z).state = .zombie

/-- What is known of a reap, by the lists. -/
inductive ReapOk (s : KState) (kids : ℕ → List ℕ) (order : List ℕ) (p z : ℕ) : Links → Unlink → Prop where
  | siblings {stage : Unlink} (hzombie : (s.task z).state = .zombie) (hat : stage.At z (kids p)) :
    ReapOk s kids order p z (.siblings p) stage
  | tasks {stage : Unlink} (hzombie : (s.task z).state = .zombie) (hzi : z ≠ initTask) (hinit : some z ≠ s.initProc)
    (hparent : (s.task z).parent = none) (hkids : ∀ q ∈ s.live, z ∉ kids q) (hat : stage.At z order) :
    ReapOk s kids order p z .tasks stage

/-- The reaps on their way. Only one task takes a zombie off the scheduler list. -/
structure Reaping (m : Machine) (kids : ℕ → List ℕ) (order : List ℕ) : Prop where
  ok : ∀ p z links stage, m.Reaps p z links stage → ReapOk m.k kids order p z links stage
  single : ∀ p q z z' stage stage', m.Reaps p z .tasks stage → m.Reaps q z' .tasks stage' → p = q

structure Waiting (m : Machine) (kids : ℕ → List ℕ) (order : List ℕ) : Prop where
  clan : Clan m.k kids order
  top : ∀ i ∈ m.k.initProc, (m.k.task i).parent = some initTask ∨ (m.k.task i).parent = some i
  own : ∀ p ∈ m.k.live, p ∈ kids p → some p = m.k.initProc
  outside : (m.place initTask).inWait = false
  awake : m.k.current.state = .blocked → ∃ wstatus, m.currentPlace = .asleep wstatus
  place : ∀ t ∈ m.k.live, PlaceOk m.k (kids t) t (m.place t)
  reaping : Reaping m kids order

/-- Outside `sys_wait` nothing is claimed. -/
theorem PlaceOk.outside {l : List ℕ} (h : pl.inWait = false) : PlaceOk s l a pl := by
  constructor
  · intro hwait
    exact nomatch h.symm.trans hwait
  · rintro wstatus c rfl
    exact nomatch h
  · rintro wstatus z rfl
    exact nomatch h

theorem PlaceOk.of_zombie {l : List ℕ} (h : (s.task a).state = .zombie) : PlaceOk s l a pl := by
  constructor
  · intro _ hblocked
    exact nomatch h.symm.trans hblocked
  · intro _ _ _ hz
    exact absurd h hz
  · intro _ _ _ hz
    exact absurd h hz

/-- The states of a task and its children change without new zombies or new blocked tasks. -/
theorem PlaceOk.congr {l : List ℕ} (h : PlaceOk s l a pl)
    (ha : ((t.task a).state = .zombie ↔ (s.task a).state = .zombie) ∧
      ((t.task a).state = .blocked → (s.task a).state = .blocked))
    (hl : ∀ c ∈ l, (t.task c).state = .zombie ↔ (s.task c).state = .zombie) : PlaceOk t l a pl := by
  constructor
  · intro hwait hblocked c hc
    rw [ne_eq, hl c hc]
    exact h.asleep hwait (ha.2 hblocked) c hc
  · intro wstatus c hpl hz
    rw [ne_eq, ha.1] at hz
    obtain ⟨pre, l', hk, hc, hpre⟩ := h.scan wstatus c hpl hz
    refine ⟨pre, l', hk, hc, fun x hx => ?_⟩
    rw [ne_eq, hl x (hk ▸ List.mem_append_left l' hx)]
    exact hpre x hx
  · intro wstatus z hpl hz
    rw [ne_eq, ha.1] at hz
    obtain ⟨hmem, hzombie⟩ := h.found wstatus z hpl hz
    exact ⟨hmem, (hl z hmem).mpr hzombie⟩

/-- New children that are no zombies. -/
theorem PlaceOk.cons {l : List ℕ} (h : PlaceOk s l a pl) (hc : (s.task c).state ≠ .zombie) :
    PlaceOk s (c :: l) a pl := by
  constructor
  · intro hwait hblocked x hx
    rcases List.mem_cons.mp hx with rfl | hx
    · exact hc
    · exact h.asleep hwait hblocked x hx
  · intro wstatus c' hpl hz
    obtain ⟨pre, l', hk, hc', hpre⟩ := h.scan wstatus c' hpl hz
    refine ⟨c :: pre, l', by rw [hk, List.cons_append], hc', fun x hx => ?_⟩
    rcases List.mem_cons.mp hx with rfl | hx
    · exact hc
    · exact hpre x hx
  · intro wstatus z hpl hz
    obtain ⟨hmem, hzombie⟩ := h.found wstatus z hpl hz
    exact ⟨List.mem_cons_of_mem c hmem, hzombie⟩

/-- A task `a` ends. If the list has got `new` in front, or holds `a`, its owner is awake. -/
theorem PlaceOk.ended {l new : List ℕ} (h : PlaceOk s l p pl) (ha : (t.task a).state = .zombie)
    (hp : ((t.task p).state = .zombie ↔ (s.task p).state = .zombie) ∧
      ((t.task p).state = .blocked → (s.task p).state = .blocked))
    (hothers : ∀ b ∈ new ++ l, b ≠ a → ((t.task b).state = .zombie ↔ (s.task b).state = .zombie))
    (hawake : a ∈ l ∨ new ≠ [] → (t.task p).state ≠ .blocked)
    (hfront : ∀ wstatus c, pl = .scan wstatus c → a ∉ new ∧ ∀ x ∈ new, (s.task x).state ≠ .zombie)
    (hbehind : ∀ wstatus pre l', pl = .scan wstatus l'.head? → l = pre ++ l' → a ∉ pre) :
    PlaceOk t (new ++ l) p pl := by
  constructor
  · intro hwait hblocked c hc
    have hnew : new = [] := by_contra fun hne => hawake (.inr hne) hblocked
    have hcl : c ∈ l := by simpa [hnew] using hc
    have hca : c ≠ a := fun he => hawake (.inl (he ▸ hcl)) hblocked
    rw [ne_eq, hothers c hc hca]
    exact h.asleep hwait (hp.2 hblocked) c hcl
  · intro wstatus c hpl hz
    rw [ne_eq, hp.1] at hz
    obtain ⟨pre, l', hk, rfl, hpre⟩ := h.scan wstatus c hpl hz
    obtain ⟨hnew, hnew'⟩ := hfront wstatus _ hpl
    refine ⟨new ++ pre, l', by rw [hk, List.append_assoc], rfl, fun x hx => ?_⟩
    have hxl : x ∈ new ++ l := by
      rw [hk, ← List.append_assoc]
      exact List.mem_append_left l' hx
    rcases List.mem_append.mp hx with hx | hx
    · rw [ne_eq, hothers x hxl fun he => hnew (he ▸ hx)]
      exact hnew' x hx
    · rw [ne_eq, hothers x hxl fun he => hbehind wstatus pre l' hpl hk (he ▸ hx)]
      exact hpre x hx
  · intro wstatus z hpl hz
    rw [ne_eq, hp.1] at hz
    obtain ⟨hmem, hzombie⟩ := h.found wstatus z hpl hz
    have hmem' : z ∈ new ++ l := List.mem_append_right new hmem
    refine ⟨hmem', ?_⟩
    by_cases hza : z = a
    · rw [hza, ha]
    · rwa [hothers z hmem' hza]

theorem ReapOk.live {links : Links} {stage : Unlink} (h : ReapOk s kids order p c links stage)
    (hc : Clan s kids order) (hp : p ∈ s.live) : c ∈ s.live := by
  cases h with
  | siblings _ hat => exact (hc.kin.child p hp c hat.mem).1
  | tasks _ _ _ _ _ hat => exact hc.live hat.mem

/-- The lists change in front of the zombie at most. -/
theorem ReapOk.congr {links : Links} {stage : Unlink} {kids' : ℕ → List ℕ} {order' : List ℕ}
    (h : ReapOk s kids order p c links stage)
    (hzombie : (s.task c).state = .zombie → (t.task c).state = .zombie)
    (hinit : some c = t.initProc → some c = s.initProc)
    (hparent : (∀ q ∈ s.live, c ∉ kids q) → (s.task c).parent = none → (t.task c).parent = none)
    (hkids : (∀ q ∈ s.live, c ∉ kids q) → ∀ q ∈ t.live, c ∉ kids' q)
    (hsiblings : links = .siblings p → stage.At c (kids p) → stage.At c (kids' p))
    (htasks : links = .tasks → stage.At c order → stage.At c order') : ReapOk t kids' order' p c links stage := by
  cases h with
  | siblings hz hat => exact .siblings (hzombie hz) (hsiblings rfl hat)
  | tasks hz hzi hi hp hk hat => exact .tasks (hzombie hz) hzi (mt hinit hi) (hparent hk hp) (hkids hk) (htasks rfl hat)

theorem adopt_mem {r : ℕ} (ha : x ∉ kids a) (hx : x ∈ adopt kids a r b) : x ∈ kids b := by
  by_cases hr : b = r
  · subst hr
    rw [adopt, Function.update_self, List.mem_append] at hx
    have hx' := hx.resolve_left (mt List.mem_reverse.mp ha)
    split at hx'
    · exact absurd hx' List.not_mem_nil
    · exact hx'
  by_cases hb : b = a
  · subst hb
    rw [adopt, Function.update_of_ne hr, Function.update_self] at hx
    exact absurd hx List.not_mem_nil
  · rwa [adopt_of_ne hb hr] at hx

/-- No task begins a reap. -/
theorem Reaping.of_old {kids' : ℕ → List ℕ} {order' : List ℕ} (h : Reaping m kids order)
    (hold : ∀ p z links stage, n.Reaps p z links stage → m.Reaps p z links stage)
    (hok : ∀ p z links stage, n.Reaps p z links stage → ReapOk m.k kids order p z links stage →
      ReapOk n.k kids' order' p z links stage) : Reaping n kids' order' := by
  constructor
  · intro p z links stage hr
    exact hok p z links stage hr (h.ok p z links stage (hold p z links stage hr))
  · intro p q z z' stage stage' hp hq
    exact h.single p q z z' stage stage' (hold _ _ _ _ hp) (hold _ _ _ _ hq)

/-- A system call ends nobody but its caller. -/
theorem KOp.Ends.current {env : SysEnv} {frame : TrapFrame} (h : (KOp.syscall env frame).Ends s a) :
    a = s.currentTask := by
  dsimp only [KOp.Ends] at h
  split at h
  · exact h
  · exact h.1
  · exact h.elim

namespace Waiting

/-- The current task goes on to another place. -/
theorem goto (h : Waiting m kids order) (hout : m.k.currentTask = initTask → pl.inWait = false)
    (hawake : m.k.current.state = .blocked → ∃ wstatus, pl = .asleep wstatus)
    (hok : PlaceOk m.k (kids m.k.currentTask) m.k.currentTask pl)
    (hreap : ∀ z links stage, pl = .reap z links stage → ReapOk m.k kids order m.k.currentTask z links stage ∧
      (links = .tasks → ∃ stage', m.currentPlace = .reap z .tasks stage')) : Waiting (m.goto pl) kids order := by
  have hself : (m.goto pl).place m.k.currentTask = pl := Function.update_self _ _ _
  have hother : ∀ {p}, p ≠ m.k.currentTask → (m.goto pl).place p = m.place p := fun hp => Function.update_of_ne hp _ _
  have htasks : ∀ {p z stage}, (m.goto pl).Reaps p z .tasks stage → ∃ stage', m.Reaps p z .tasks stage' := by
    rintro p z stage ⟨hlive, hz, hplace⟩
    by_cases hp : p = m.k.currentTask
    · subst hp
      obtain ⟨stage', hstage⟩ := (hreap z .tasks stage (hself.symm.trans hplace)).2 rfl
      exact ⟨stage', hlive, hz, hstage⟩
    · exact ⟨stage, hlive, hz, (hother hp).symm.trans hplace⟩
  refine ⟨h.clan, h.top, h.own, ?_, ?_, fun t ht => ?_, fun p z links stage hr => ?_,
    fun p q z z' stage stage' hp hq => ?_⟩
  · by_cases hi : initTask = m.k.currentTask
    · simp only [Machine.goto, hi, Function.update_self]
      exact hout hi.symm
    · simp only [Machine.goto, Function.update_of_ne hi]
      exact h.outside
  · simp only [Machine.currentPlace, Machine.goto, Function.update_self]
    exact hawake
  · by_cases hi : t = m.k.currentTask
    · subst hi
      simp only [Machine.goto, Function.update_self]
      exact hok
    · simp only [Machine.goto, Function.update_of_ne hi]
      exact h.place t ht
  · obtain ⟨hlive, hz, hplace⟩ := hr
    by_cases hp : p = m.k.currentTask
    · subst hp
      exact (hreap z links stage (hself.symm.trans hplace)).1
    · exact h.reaping.ok p z links stage ⟨hlive, hz, (hother hp).symm.trans hplace⟩
  · obtain ⟨_, hp'⟩ := htasks hp
    obtain ⟨_, hq'⟩ := htasks hq
    exact h.reaping.single p q z z' _ _ hp' hq'

/-- A step that leaves the tasks in place. -/
theorem calm (h : Waiting m kids order) (hc : CalmLive False m.k s) {places : ℕ → Place}
    (hp : ∀ a ∈ m.k.live, places a = m.place a) : Waiting ⟨s, places⟩ kids order := by
  have hlive := hc.rest.live
  have hcur := hc.rest.currentTask
  have hblocked : ∀ a ∈ m.k.live, (s.task a).state = .blocked → (m.k.task a).state = .blocked :=
    fun a ha hb => ((hc.task a ha).blocked hb).resolve_right id
  have hmem := h.clan.live h.clan.current
  refine ⟨h.clan.calm hc, fun i hi => ?_, fun p hp' => ?_, ?_, fun hb => ?_, fun t ht => ?_,
    h.reaping.of_old (fun p z links stage hr => ?_) fun p z links stage hr hok => ?_⟩
  · have hi' : i ∈ m.k.initProc := hc.rest.initProc ▸ hi
    rw [(hc.task i (h.clan.initProc i hi')).parent]
    exact h.top i hi'
  · rw [hc.rest.initProc]
    exact h.own p (hlive ▸ hp')
  · change (places initTask).inWait = false
    rw [hp _ h.clan.init]
    exact h.outside
  · have hb' : (s.task s.currentTask).state = .blocked := hb
    rw [hcur] at hb'
    obtain ⟨wstatus, hw⟩ := h.awake (hblocked _ hmem hb')
    refine ⟨wstatus, ?_⟩
    change places s.currentTask = _
    rw [hcur, hp _ hmem]
    exact hw
  · have ht' : t ∈ m.k.live := hlive ▸ ht
    change PlaceOk s (kids t) t (places t)
    rw [hp t ht']
    refine (h.place t ht').congr ⟨(hc.task t ht').zombie, hblocked t ht'⟩ fun c hc' => ?_
    exact (hc.task c (h.clan.kin.child t ht' c hc').1).zombie
  · obtain ⟨hp', hz, hplace⟩ := hr
    have hp' : p ∈ m.k.live := hlive ▸ hp'
    exact ⟨hp', mt (hc.task p hp').zombie.mpr hz, (hp p hp').symm.trans hplace⟩
  · have hz := hok.live h.clan (hlive ▸ hr.1)
    refine hok.congr (hc.task z hz).zombie.mpr (fun hi => hi.trans hc.rest.initProc) (fun _ hnone => ?_)
      (fun hkids q hq => hkids q (hlive ▸ hq)) (fun _ => id) fun _ => id
    rw [(hc.task z hz).parent, hnone]

/-- The scan of a task that has passed `x` does not come to it again. -/
theorem passed (h : Waiting m kids order) (hp : p ∈ m.k.live) {wstatus : ℕ} {pre l : List ℕ}
    (hk : kids p = pre ++ l) (hpl : m.place p = .scan wstatus l.head?) (hx : x ∈ pre) : m.Passed p x := by
  have hchain := hk ▸ h.clan.kin.chain p hp
  refine ⟨wstatus, l.head?, l, hpl, ?_, fun hl => ?_⟩
  · cases l with
    | nil => rfl
    | cons c l => exact Chain.suffix hchain
  · exact (List.nodup_append.mp hchain.nodup).2.2 x hx x hl rfl

/-- The task on the CPU ends. -/
theorem exits (h : Waiting m kids order) (he : Exits m.k.currentTask m.k s)
    (hpassed : ∀ p, m.k.current.parent = some p → ¬m.Passed p m.k.currentTask)
    (horphans : ∀ z ∈ m.k.live, (m.k.task z).parent = some m.k.currentTask →
      (m.k.task z).state = .zombie → ∀ wstatus c, m.place m.k.reaper ≠ .scan wstatus c)
    (hfront : ∀ z parent stage, m.Reaps m.k.reaper z (.siblings parent) stage → stage.Heads →
      m.k.current.children = none)
    {places : ℕ → Place} (hp : ∀ a ∈ m.k.live, a ≠ m.k.currentTask → places a = m.place a)
    (hout : (places initTask).inWait = false) :
    Waiting ⟨s, places⟩ (adopt kids m.k.currentTask m.k.reaper) order ∧ Ended m.k.currentTask kids m.k s := by
  obtain ⟨hclan, hended⟩ := h.clan.exits h.clan.current he
  have hlive := he.globals.live
  have hcur := he.globals.currentTask
  have hinit := he.globals.initProc
  have hmem := h.clan.live h.clan.current
  have hself : m.k.currentTask ∉ kids m.k.currentTask := by
    intro hmem'
    have hproc := h.own _ hmem hmem'
    refine hended.reaper (List.ne_nil_of_mem hmem') ?_
    rw [KState.reaper, ← hproc]
    rfl
  have hback : ∀ {p z links stage}, (⟨s, places⟩ : Machine).Reaps p z links stage →
      p ≠ m.k.currentTask ∧ m.Reaps p z links stage := by
    rintro p z links stage ⟨hlive', hz, hplace⟩
    have hpl : p ∈ m.k.live := hlive ▸ hlive'
    have hpa : p ≠ m.k.currentTask := by
      rintro rfl
      exact hz hended.zombie
    exact ⟨hpa, hpl, mt (hended.others p hpl hpa).1.mpr hz, (hp p hpl hpa).symm.trans hplace⟩
  refine ⟨⟨hclan, fun i hi => ?_, fun p hp' hpp => ?_, hout, fun hb => ?_, fun q hq => ?_,
    h.reaping.of_old (fun p z links stage hr => (hback hr).2) fun p z links stage hr hok => ?_⟩, hended⟩
  · have hi' : i ∈ m.k.initProc := hinit ▸ hi
    change (s.task i).parent = _ ∨ (s.task i).parent = _
    rw [hended.parent i (h.clan.initProc i hi')]
    split
    · right
      rw [KState.reaper, hi']
      rfl
    · exact h.top i hi'
  · have hp'' : p ∈ m.k.live := hlive ▸ hp'
    change some p = s.initProc
    rw [hinit]
    by_cases hpa : p = m.k.currentTask
    · rw [hpa, hended.empty] at hpp
      cases hpp
    by_cases hpr : p = m.k.reaper
    · cases hi : m.k.initProc with
      | some i =>
        rw [hpr, KState.reaper, hi]
        rfl
      | none =>
        -- without `init_proc` the reaper is `init_task`, which is nobody's child
        have hroot : p = initTask := by
          rw [hpr, KState.reaper, hi]
          rfl
        rw [hroot] at hpp
        exact absurd hpp (hclan.init_not_mem hclan.init)
    · rw [adopt_of_ne hpa hpr] at hpp
      exact h.own p hp'' hpp
  · have hb' : (s.task s.currentTask).state = .blocked := hb
    rw [hcur, hended.zombie] at hb'
    cases hb'
  · have hq' : q ∈ m.k.live := hlive ▸ hq
    change PlaceOk s (adopt kids m.k.currentTask m.k.reaper q) q (places q)
    by_cases hqa : q = m.k.currentTask
    · rw [hqa]
      exact .of_zombie hended.zombie
    rw [hp q hq' hqa]
    have hothers : ∀ b ∈ m.k.live, b ≠ m.k.currentTask →
        ((s.task b).state = .zombie ↔ (m.k.task b).state = .zombie) := fun b hb hba => (hended.others b hb hba).1
    have hchild : m.k.currentTask ∈ kids q → m.k.current.parent = some q :=
      fun hc => (h.clan.kin.child q hq' _ hc).2
    have hbehind : ∀ wstatus pre l, m.place q = .scan wstatus l.head? → kids q = pre ++ l →
        m.k.currentTask ∉ pre := by
      intro wstatus pre l hpl hk hc
      exact hpassed q (hchild (hk ▸ List.mem_append_left l hc)) (h.passed hq' hk hpl hc)
    by_cases hqr : q = m.k.reaper
    · subst hqr
      have hadopt : adopt kids m.k.currentTask m.k.reaper m.k.reaper =
          (kids m.k.currentTask).reverse ++ kids m.k.reaper := by
        rw [adopt, Function.update_self, if_neg hqa]
      rw [hadopt]
      refine (h.place _ hq').ended hended.zombie (hended.others _ hq' hqa) (fun b hb => ?_) ?_ ?_ hbehind
      · rcases List.mem_append.mp hb with hb | hb
        · exact hothers b (h.clan.kin.child _ hmem b (List.mem_reverse.mp hb)).1
        · exact hothers b (h.clan.kin.child _ hq' b hb).1
      · rintro (hc | hne)
        · exact hended.woken _ (hchild hc)
        · exact hended.adopted fun hnil => hne (by rw [hnil, List.reverse_nil])
      · intro wstatus c hpl
        refine ⟨mt List.mem_reverse.mp hself, fun z hz hzombie => ?_⟩
        obtain ⟨hzl, hzp⟩ := h.clan.kin.child _ hmem z (List.mem_reverse.mp hz)
        exact horphans z hzl hzp hzombie wstatus c hpl
    · rw [adopt_of_ne hqa hqr]
      change PlaceOk s ([] ++ kids q) q (m.place q)
      refine (h.place q hq').ended hended.zombie (hended.others q hq' hqa) (fun b hb => ?_)
        (fun hc => ?_) (fun _ _ _ => ⟨List.not_mem_nil, fun _ hb => absurd hb List.not_mem_nil⟩) hbehind
      · exact hothers b (h.clan.kin.child q hq' b hb).1
      · exact hended.woken q (hchild (hc.resolve_right fun h => h rfl))
  · obtain ⟨hpa, hr'⟩ := hback hr
    have hz := hok.live h.clan hr'.1
    refine hok.congr (fun hzombie => ?_) (fun hi => hi.trans hinit) (fun hkids hnone => ?_) (fun hkids q hq => ?_)
      (fun hlinks hat => ?_) fun _ => id
    · by_cases hza : z = m.k.currentTask
      · exact hza ▸ hended.zombie
      · exact (hended.others z hz hza).1.mpr hzombie
    · change (s.task z).parent = none
      rw [hended.parent z hz, if_neg (hkids _ hmem), hnone]
    · exact mt (adopt_mem (hkids _ hmem)) (hkids q (hlive ▸ hq))
    · by_cases hpr : p = m.k.reaper
      · subst hpr
        rw [adopt, Function.update_self, if_neg hpa]
        refine hat.append fun hheads => ?_
        subst hlinks
        have hnil : kids m.k.currentTask = [] := by
          have hchain := h.clan.kin.chain _ hmem
          have hnone : (m.k.task m.k.currentTask).children = none := hfront z _ stage hr' hheads
          rw [hnone] at hchain
          exact hchain.eq_nil
        rw [hnil, List.reverse_nil]
      · rwa [adopt_of_ne hpa hpr]

/-- A task is born to a task in use. -/
theorem born (h : Waiting m kids order) (hp : p ∈ m.k.live) (hb : Born p c m.k s)
    (hinit : s.initProc = m.k.initProc ∨ s.initProc = some c ∧ m.k.initProc = none ∧ p = initTask)
    (hfront : ∀ z parent stage, m.Reaps p z (.siblings parent) stage → ¬stage.Heads)
    (hfirst : ∀ q z stage, m.Reaps q z .tasks stage → ¬stage.Heads) :
    Waiting ⟨s, m.places⟩ (bear kids p c) (c :: order) := by
  have hclan := h.clan.born hb (hinit.imp_right And.left)
  have hd := hb.delivered
  have hl : s.live = insert c m.k.live := by rw [hb.rest]
  have hcur : s.currentTask = m.k.currentTask := by rw [hb.rest]
  have hne : ∀ {q}, q ∈ m.k.live → q ≠ c := fun hq he => hb.fresh (he ▸ hq)
  have hstate : ∀ {q}, q ∈ m.k.live → (s.task q).state = (m.k.task q).state :=
    fun hq => (hd.task _ (hne hq)).2.2.2
  have hplace : ∀ {q}, q ∈ m.k.live → m.places q = m.place q := fun hq => if_pos hq
  have hmem := h.clan.live h.clan.current
  have hback : ∀ {q z links stage}, (⟨s, m.places⟩ : Machine).Reaps q z links stage → m.Reaps q z links stage := by
    rintro q z links stage ⟨hq, hz, hpl⟩
    have hq' : q ∈ insert c m.k.live := hl ▸ hq
    rcases Finset.mem_insert.mp hq' with rfl | hq'
    · exact nomatch (if_neg hb.fresh : m.places q = .user).symm.trans hpl
    · exact ⟨hq', hstate hq' ▸ hz, (hplace hq').symm.trans hpl⟩
  refine ⟨hclan, fun i hi => ?_, fun q hq hqq => ?_, ?_, fun hb' => ?_, fun q hq => ?_,
    h.reaping.of_old (fun q z links stage hr => hback hr) fun q z links stage hr hok => ?_⟩
  · change (s.task i).parent = _ ∨ (s.task i).parent = _
    rcases hinit with hinit | ⟨hinit, -, rfl⟩
    · have hi' : i ∈ m.k.initProc := hinit ▸ hi
      rw [(hd.task i (hne (h.clan.initProc i hi'))).1]
      exact h.top i hi'
    · obtain rfl := Option.some.inj (hinit.symm.trans hi)
      exact .inl hd.parent
  · have hq' : q ∈ insert c m.k.live := hl ▸ hq
    have hqc : q ≠ c := by
      rintro rfl
      rw [bear_new (hne hp).symm] at hqq
      cases hqq
    have hql := (Finset.mem_insert.mp hq').resolve_left hqc
    have hown : some q = m.k.initProc := by
      refine h.own q hql ?_
      by_cases hqp : q = p
      · subst hqp
        rw [bear, Function.update_self, Function.update_of_ne hqc] at hqq
        exact (List.mem_cons.mp hqq).resolve_left hqc
      · rwa [bear_of_ne hqc hqp] at hqq
    change some q = s.initProc
    rcases hinit with hinit | ⟨-, hnone, -⟩
    · exact hown.trans hinit.symm
    · cases hown.trans hnone
  · change (m.places initTask).inWait = false
    rw [hplace h.clan.init]
    exact h.outside
  · have hb'' : (s.task s.currentTask).state = .blocked := hb'
    rw [hcur, hstate hmem] at hb''
    obtain ⟨wstatus, hw⟩ := h.awake hb''
    refine ⟨wstatus, ?_⟩
    change m.places s.currentTask = _
    rw [hcur, hplace hmem]
    exact hw
  · have hq' : q ∈ insert c m.k.live := hl ▸ hq
    change PlaceOk s (bear kids p c q) q (m.places q)
    rcases Finset.mem_insert.mp hq' with rfl | hq'
    · have huser : m.places q = .user := if_neg hb.fresh
      rw [huser]
      exact .outside rfl
    have hold : PlaceOk s (kids q) q (m.places q) := by
      rw [hplace hq']
      refine (h.place q hq').congr ?_ fun b hb' => ?_
      · rw [hstate hq']
        exact ⟨Iff.rfl, id⟩
      · rw [hstate (h.clan.kin.child q hq' b hb').1]
    by_cases hqp : q = p
    · subst hqp
      rw [bear, Function.update_self, Function.update_of_ne (hne hq')]
      refine hold.cons ?_
      rw [hb.state]
      intro hc
      cases hc
    · rwa [bear_of_ne (hne hq') hqp]
  · have hr' := hback hr
    have hz := hok.live h.clan hr'.1
    refine hok.congr (fun hzombie => (hstate hz).trans hzombie) (fun hi => ?_) (fun _ hnone => ?_) (fun hkids b hb' => ?_)
      (fun hlinks hat => ?_) fun hlinks hat => ?_
    · rcases hinit with hinit | ⟨hinit, -, -⟩
      · exact hi.trans hinit
      · exact absurd (Option.some.inj (hi.trans hinit)) (hne hz)
    · change (s.task z).parent = none
      rw [(hd.task z (hne hz)).1, hnone]
    · have hb'' : b ∈ insert c m.k.live := hl ▸ hb'
      rcases Finset.mem_insert.mp hb'' with rfl | hb''
      · rw [bear_new (hne hp).symm]
        exact List.not_mem_nil
      by_cases hbp : b = p
      · subst hbp
        rw [bear, Function.update_self, Function.update_of_ne (hne hb'')]
        exact fun hmem' => hkids b hb'' ((List.mem_cons.mp hmem').resolve_left (hne hz))
      · rw [bear_of_ne (hne hb'') hbp]
        exact hkids b hb''
    · subst hlinks
      by_cases hqp : q = p
      · subst hqp
        rw [bear, Function.update_self, Function.update_of_ne (hne hr'.1)]
        have hgrown : stage.At z ([c] ++ kids q) := hat.append fun hheads => absurd hheads (hfront z _ stage hr')
        exact hgrown
      · rwa [bear_of_ne (hne hr'.1) hqp]
    · subst hlinks
      have hgrown : stage.At z ([c] ++ order) := hat.append fun hheads => absurd hheads (hfirst q z stage hr')
      exact hgrown

/-- The CPU goes to another task. When the test trigger is armed, no task inside `sys_wait` may
have a zombie to collect. -/
theorem switched (h : Waiting m kids order) (hs : Switched m.k s)
    (harmed : m.k.Armed → ∀ q ∈ m.k.live, (m.place q).inWait = true →
      ∀ c ∈ kids q, (m.k.task c).state ≠ .zombie) : Waiting ⟨s, m.place⟩ kids order := by
  have hlive : s.live = m.k.live := hs.calm.rest.live
  have hinit : s.initProc = m.k.initProc := hs.calm.rest.initProc
  have hzombie : ∀ b, (s.task b).state = .zombie ↔ (m.k.task b).state = .zombie :=
    fun b => (hs.calm.task b).zombie
  refine ⟨h.clan.switched hs, fun i hi => ?_, fun p hp hpp => ?_, h.outside, fun hb => ?_, fun q hq => ?_,
    h.reaping.of_old (fun p z links stage hr => ?_) fun p z links stage hr hok => ?_⟩
  · have hi' : i ∈ m.k.initProc := hinit ▸ hi
    have hparent : (s.task i).parent = (m.k.task i).parent := (hs.calm.task i).parent
    change (s.task i).parent = _ ∨ (s.task i).parent = _
    rw [hparent]
    exact h.top i hi'
  · change some p = s.initProc
    rw [hinit]
    exact h.own p (hlive ▸ hp) hpp
  · obtain ⟨hcur, hblocked⟩ := hs.awake hb
    obtain ⟨wstatus, hw⟩ := h.awake hblocked
    refine ⟨wstatus, ?_⟩
    change m.place s.currentTask = _
    rw [hcur]
    exact hw
  · have hq' : q ∈ m.k.live := hlive ▸ hq
    have hok := h.place q hq'
    constructor
    · intro hwait hblocked c hc
      rw [ne_eq, hzombie c]
      rcases hs.blocked q hblocked with hb | ha
      · exact hok.asleep hwait hb c hc
      · exact harmed ha q hq' hwait c hc
    · intro wstatus c hpl hz
      rw [ne_eq, hzombie q] at hz
      obtain ⟨pre, l, hk, hc, hpre⟩ := hok.scan wstatus c hpl hz
      exact ⟨pre, l, hk, hc, fun x hx => mt (hzombie x).mp (hpre x hx)⟩
    · intro wstatus z hpl hz
      rw [ne_eq, hzombie q] at hz
      obtain ⟨hmem, hz'⟩ := hok.found wstatus z hpl hz
      exact ⟨hmem, (hzombie z).mpr hz'⟩
  · exact ⟨hlive ▸ hr.1, mt (hzombie p).mpr hr.2.1, hr.2.2⟩
  · refine hok.congr (hzombie z).mpr (fun hi => hi.trans hinit) (fun _ hnone => ?_)
      (fun hkids q hq => hkids q (hlive ▸ hq)) (fun _ => id) fun _ => id
    exact (hs.calm.task z).parent.trans hnone

/-- A task inside `sys_wait` is not `init_task`. -/
theorem ne_init (h : Waiting m kids order) (hw : m.currentPlace.inWait = true) : m.k.currentTask ≠ initTask := by
  intro he
  rw [Machine.currentPlace, he] at hw
  exact nomatch h.outside.symm.trans hw

/-- The task on the CPU is blocked only in the loop that halts. -/
theorem not_blocked (h : Waiting m kids order) (hpl : ∀ wstatus, m.currentPlace ≠ .asleep wstatus) :
    m.k.current.state ≠ .blocked := by
  intro hb
  obtain ⟨wstatus, hw⟩ := h.awake hb
  exact hpl wstatus hw

/-- The current task starts a scan. -/
theorem startScan (h : Waiting m kids order) (hne : m.k.currentTask ≠ initTask)
    (hb : m.k.current.state ≠ .blocked) (wstatus : ℕ) :
    Waiting (m.goto (.scan wstatus m.k.current.children)) kids order := by
  have hmem := h.clan.live h.clan.current
  refine h.goto (fun he => absurd he hne) (fun he => absurd he hb) ⟨?_, ?_, nofun⟩ nofun
  · exact fun _ he => absurd he hb
  · intro wstatus' c hpl _
    obtain ⟨rfl, rfl⟩ := Place.scan.inj hpl
    exact ⟨[], kids m.k.currentTask, rfl, (h.clan.kin.chain _ hmem).head?_eq, nofun⟩

/-- The scan looks at a child. -/
theorem scanChild (h : Waiting m kids order) {wstatus : ℕ} (hz : m.k.current.state ≠ .zombie)
    (hpl : m.currentPlace = .scan wstatus (some c)) :
    ((m.k.task c).state = .zombie → Waiting (m.goto (.found wstatus c)) kids order) ∧
      ((m.k.task c).state ≠ .zombie → Waiting (m.goto (.scan wstatus (m.k.sibling c))) kids order) := by
  have hmem := h.clan.live h.clan.current
  have hne : m.k.currentTask ≠ initTask := h.ne_init (by rw [hpl]; rfl)
  have hb : m.k.current.state ≠ .blocked := h.not_blocked (by rw [hpl]; nofun)
  obtain ⟨pre, l, hk, hc, hpre⟩ := (h.place _ hmem).scan wstatus (some c) hpl hz
  obtain ⟨l, rfl⟩ : ∃ l', l = c :: l' := List.head?_eq_some_iff.mp hc.symm
  constructor
  · intro hzombie
    refine h.goto (fun he => absurd he hne) (fun he => absurd he hb) ⟨?_, nofun, ?_⟩ nofun
    · exact fun _ he => absurd he hb
    · intro wstatus' z hpl' _
      obtain ⟨rfl, rfl⟩ := Place.found.inj hpl'
      refine ⟨?_, hzombie⟩
      rw [hk]
      exact List.mem_append_right pre List.mem_cons_self
  · intro halive
    refine h.goto (fun he => absurd he hne) (fun he => absurd he hb) ⟨?_, ?_, nofun⟩ nofun
    · exact fun _ he => absurd he hb
    · intro wstatus' c' hpl' _
      obtain ⟨rfl, rfl⟩ := Place.scan.inj hpl'
      have hchain := hk ▸ h.clan.kin.chain _ hmem
      refine ⟨pre ++ [c], l, by simp [hk], (Chain.suffix hchain).2.head?_eq, fun x hx => ?_⟩
      rcases List.mem_append.mp hx with hx | hx
      · exact hpre x hx
      · rw [List.mem_singleton.mp hx]
        exact halive

/-- A scan that has found nothing blocks the current task. -/
theorem block (h : Waiting m kids order) {wstatus : ℕ} (hz : m.k.current.state ≠ .zombie)
    (hpl : m.currentPlace = .scan wstatus none) :
    Waiting { m.goto (.asleep wstatus) with k := blockCurrent m.k } kids order := by
  have hmem := h.clan.live h.clan.current
  have hne : m.k.currentTask ≠ initTask := h.ne_init (by rw [hpl]; rfl)
  obtain ⟨pre, l, hk, hc, hpre⟩ := (h.place _ hmem).scan wstatus none hpl hz
  obtain rfl : l = [] := List.head?_eq_none_iff.mp hc.symm
  rw [List.append_nil] at hk
  have hself : (blockCurrent m.k).current.state = .blocked := by
    change ((blockCurrent m.k).task m.k.currentTask).state = _
    rw [blockCurrent, KState.modify_task_self]
  have hother : ∀ {b}, b ≠ m.k.currentTask → (blockCurrent m.k).task b = m.k.task b :=
    fun hb => m.k.modify_task_of_ne _ hb
  have hzombie : ∀ b, ((blockCurrent m.k).task b).state = .zombie ↔ (m.k.task b).state = .zombie := by
    intro b
    by_cases hb : b = m.k.currentTask
    · rw [hb]
      exact ⟨fun h => absurd (hself.symm.trans h) (by decide), fun h => absurd h hz⟩
    · rw [hother hb]
  have hparent : ∀ b, ((blockCurrent m.k).task b).parent = (m.k.task b).parent :=
    fun b => m.k.modify_field _ b _ Task.parent rfl
  refine ⟨h.clan.restate h.clan.current .blocked, fun i hi => ?_, h.own, ?_, fun _ => ⟨wstatus, ?_⟩,
    fun q hq => ?_, h.reaping.of_old (fun p z links stage hr => ?_) fun p z links stage hr hok => ?_⟩
  · change ((blockCurrent m.k).task i).parent = _ ∨ ((blockCurrent m.k).task i).parent = _
    rw [hparent]
    exact h.top i hi
  · change (Function.update m.place m.k.currentTask (.asleep wstatus) initTask).inWait = false
    rw [Function.update_of_ne hne.symm]
    exact h.outside
  · exact Function.update_self _ _ _
  · change PlaceOk (blockCurrent m.k) (kids q) q (Function.update m.place m.k.currentTask (.asleep wstatus) q)
    by_cases hqc : q = m.k.currentTask
    · subst hqc
      rw [Function.update_self]
      refine ⟨fun _ _ c hc => ?_, fun _ _ hpl' => ?_, fun _ _ hpl' => ?_⟩
      · rw [ne_eq, hzombie]
        exact hpre c (hk ▸ hc)
      · cases hpl'
      · cases hpl'
    · rw [Function.update_of_ne hqc]
      refine (h.place q hq).congr ⟨hzombie q, fun hb => ?_⟩ fun c _ => hzombie c
      rwa [hother hqc] at hb
  · obtain ⟨hp, hz', hplace⟩ := hr
    have hpc : p ≠ m.k.currentTask := by
      rintro rfl
      have hasleep : Place.asleep wstatus = .reap z links stage := (Function.update_self _ _ _).symm.trans hplace
      cases hasleep
    exact ⟨hp, mt (hzombie p).mpr hz', (Function.update_of_ne hpc _ _).symm.trans hplace⟩
  · refine hok.congr (hzombie z).mpr id (fun _ hnone => ?_) (fun hkids => hkids) (fun _ => id) fun _ => id
    exact (hparent z).trans hnone

/-- A child that is a zombie is not `init_proc`. -/
theorem child_ne_init (h : Waiting m kids order) {z : ℕ} (hz : m.k.current.state ≠ .zombie)
    (hne : m.k.currentTask ≠ initTask) (hzk : z ∈ kids m.k.currentTask) (hzombie : (m.k.task z).state = .zombie) :
    some z ≠ m.k.initProc := by
  obtain ⟨-, hzp⟩ := h.clan.kin.child _ (h.clan.live h.clan.current) z hzk
  intro hi
  rcases h.top z hi.symm with hp | hp
  · exact hne (Option.some.inj (hzp.symm.trans hp))
  · obtain rfl := Option.some.inj (hzp.symm.trans hp)
    exact hz hzombie

theorem interruptFlag (h : Waiting m kids order) (flag : Bool) :
    Waiting { m with k := { m.k with interruptFlag := flag } } kids order :=
  h.calm (calm_interruptFlag m.k flag).calmLive fun _ _ => rfl

/-- The current task is in the middle of a reap. -/
theorem reaps (h : Waiting m kids order) {z : ℕ} {links : Links} {stage : Unlink} (hz : m.k.current.state ≠ .zombie)
    (hpl : m.currentPlace = .reap z links stage) : m.Reaps m.k.currentTask z links stage :=
  ⟨h.clan.live h.clan.current, hz, hpl⟩

/-- The current task goes on with the reap. -/
theorem gotoReap (h : Waiting m kids order) {z : ℕ} {links : Links} {stage : Unlink}
    (hwait : m.currentPlace.inWait = true) (hb : m.k.current.state ≠ .blocked)
    (hok : ReapOk m.k kids order m.k.currentTask z links stage)
    (htasks : links = .tasks → ∃ stage', m.currentPlace = .reap z .tasks stage') :
    Waiting (m.goto (.reap z links stage)) kids order := by
  refine h.goto (fun he => absurd he (h.ne_init hwait)) (fun he => absurd he hb) ⟨?_, nofun, nofun⟩ ?_
  · exact fun _ he => absurd he hb
  · intro z' links' stage' hpl
    obtain ⟨rfl, rfl, rfl⟩ := Place.reap.inj hpl
    exact ⟨hok, htasks⟩

/-- The exit code is stored outside kernel memory, and the reap begins. -/
theorem enterReap (h : Waiting m kids order) {k : KernelImage} {wstatus z : ℕ} (hz : m.k.current.state ≠ .zombie)
    (hpl : m.currentPlace = .found wstatus z) (hmiss : wstatus = 0 ∨ k.Misses wstatus 4)
    (hrun : Tasks.waitStep k m = some n) : Waiting n kids order := by
  have hmem := h.clan.live h.clan.current
  have hb : m.k.current.state ≠ .blocked := h.not_blocked (by rw [hpl]; nofun)
  obtain ⟨hzk, hzombie⟩ := (h.place _ hmem).found wstatus z hpl hz
  obtain ⟨-, hzp⟩ := h.clan.kin.child _ hmem z hzk
  obtain ⟨u, hu, rfl⟩ : ∃ u, SameKernel m.k u ∧ n = { m.goto (.reap z (.siblings m.k.currentTask) .head) with k := u } := by
    have hstore : wstatus ≠ 0 → k.writeUser wstatus (ByteMemory.wordBytes (m.k.task z).exitCode) m.k =
        m.k.writeUser wstatus (ByteMemory.wordBytes (m.k.task z).exitCode) :=
      fun h₀ => KernelImage.writeUser_eq (hmiss.resolve_left h₀) m.k
    unfold Tasks.waitStep at hrun
    rw [hpl] at hrun
    by_cases h₀ : wstatus = 0
    · simp only [h₀, ne_eq, not_true, ↓reduceIte, hzp] at hrun
      have hsame : SameKernel m.k (m.k.call (.taskReap z)) := rfl
      exact ⟨_, hsame, (Option.some.inj hrun).symm⟩
    · have hparent : ((m.k.writeUser wstatus (ByteMemory.wordBytes (m.k.task z).exitCode)).task z).parent =
          some m.k.currentTask := hzp
      simp only [ne_eq, h₀, not_false_eq_true, ↓reduceIte, hstore h₀, hparent] at hrun
      have hsame : SameKernel m.k ((m.k.writeUser wstatus (ByteMemory.wordBytes (m.k.task z).exitCode)).call (.taskReap z)) :=
        rfl
      exact ⟨_, hsame, (Option.some.inj hrun).symm⟩
  have hcalm : CalmLive False m.k u := hu.calm.calmLive
  have hw : Waiting ⟨u, m.place⟩ kids order := h.calm hcalm fun _ _ => rfl
  have hcur : u.currentTask = m.k.currentTask := hcalm.rest.currentTask
  have hut : u.task = m.k.task := by rw [hu]
  have hplace : Machine.currentPlace ⟨u, m.place⟩ = .found wstatus z := by
    rw [Machine.currentPlace, hcur]
    exact hpl
  have hgoto : Waiting (Machine.goto ⟨u, m.place⟩ (.reap z (.siblings u.currentTask) .head)) kids order := by
    refine hw.gotoReap (by rw [hplace]; rfl) ?_ (.siblings ?_ ?_) nofun
    · rw [KState.current, hcur, hut]
      exact hb
    · rw [hut]
      exact hzombie
    · rw [hcur]
      exact hzk
  rw [hcur] at hgoto
  have hsame : Machine.goto ⟨u, m.place⟩ (.reap z (.siblings m.k.currentTask) .head) =
      { m.goto (.reap z (.siblings m.k.currentTask) .head) with k := u } := by
    simp only [Machine.goto, hcur]
  exact hsame ▸ hgoto

/-- The zombie is off the list of children. -/
theorem offSiblings (h : Waiting m kids order) {z : ℕ} {pred next : Option ℕ} (hz : m.k.current.state ≠ .zombie)
    (hpl : m.currentPlace = .reap z (.siblings m.k.currentTask) (.store pred next))
    (halone : ∀ p z' stage, ¬m.Reaps p z' .tasks stage) :
    Waiting (unlinked z { m with k := (Links.siblings m.k.currentTask).relink m.k pred next } (.siblings m.k.currentTask))
      (Function.update kids m.k.currentTask ((kids m.k.currentTask).erase z)) order := by
  have hmem := h.clan.live h.clan.current
  have hne : m.k.currentTask ≠ initTask := h.ne_init (by rw [hpl]; rfl)
  have hb : m.k.current.state ≠ .blocked := h.not_blocked (by rw [hpl]; nofun)
  cases h.reaping.ok _ _ _ _ (h.reaps hz hpl) with
  | siblings hzombie hat =>
  have hzk : z ∈ kids m.k.currentTask := hat.mem
  obtain ⟨hzl, hzp⟩ := h.clan.kin.child _ hmem z hzk
  have hzi : some z ≠ m.k.initProc := h.child_ne_init hz hne hzk hzombie
  obtain ⟨t, ht⟩ : ∃ t, t = ((Links.siblings m.k.currentTask).relink m.k pred next).modify z
      fun x => { x with sibling := none, parent := none } := ⟨_, rfl⟩
  obtain ⟨hclan, hdetached⟩ := h.clan.detached hmem hat ht
  have hcur : t.currentTask = m.k.currentTask := by rw [hdetached.rest]
  have hlive : t.live = m.k.live := by rw [hdetached.rest]
  have hinit : t.initProc = m.k.initProc := by rw [hdetached.rest]
  have hmachine : unlinked z { m with k := (Links.siblings m.k.currentTask).relink m.k pred next }
      (.siblings m.k.currentTask) = { m.goto (.reap z .tasks .head) with k := t } := by
    have hsame : ((Links.siblings m.k.currentTask).relink m.k pred next).currentTask = m.k.currentTask := by
      cases pred <;> rfl
    rw [unlinked, ht]
    simp only [Machine.goto, hsame]
  have hself : ({ m.goto (.reap z .tasks .head) with k := t } : Machine).place m.k.currentTask = .reap z .tasks .head :=
    Function.update_self _ _ _
  have hother : ∀ {q}, q ≠ m.k.currentTask → ({ m.goto (.reap z .tasks .head) with k := t } : Machine).place q = m.place q :=
    fun hq => Function.update_of_ne hq _ _
  have hold : ∀ {q y links stage}, q ≠ m.k.currentTask →
      ({ m.goto (.reap z .tasks .head) with k := t } : Machine).Reaps q y links stage → m.Reaps q y links stage := by
    rintro q y links stage hq ⟨hql, hqz, hplace⟩
    exact ⟨hlive ▸ hql, hdetached.state q ▸ hqz, (hother hq).symm.trans hplace⟩
  have hkids : ∀ {q}, q ≠ m.k.currentTask →
      Function.update kids m.k.currentTask ((kids m.k.currentTask).erase z) q = kids q := fun hq => Function.update_of_ne hq _ _
  rw [hmachine]
  refine ⟨hclan, fun i hi => ?_, fun q hq hqq => ?_, ?_, fun hb' => ?_, fun q hq => ?_, fun q y links stage hr => ?_,
    fun q q' y y' stage stage' hr hr' => ?_⟩
  · have hi' : i ∈ m.k.initProc := hinit ▸ hi
    have hiz : i ≠ z := fun he => hzi (he ▸ hi'.symm)
    change (t.task i).parent = _ ∨ (t.task i).parent = _
    rw [hdetached.parent, if_neg hiz]
    exact h.top i hi'
  · change some q = t.initProc
    rw [hinit]
    refine h.own q (hlive ▸ hq) ?_
    by_cases hqc : q = m.k.currentTask
    · subst hqc
      rw [Function.update_self] at hqq
      exact List.mem_of_mem_erase hqq
    · rwa [hkids hqc] at hqq
  · rw [hother hne.symm]
    exact h.outside
  · have hb'' : (t.task t.currentTask).state = .blocked := hb'
    rw [hcur, hdetached.state] at hb''
    exact absurd hb'' hb
  · have hstates : ∀ b, (t.task b).state = (m.k.task b).state := hdetached.state
    by_cases hqc : q = m.k.currentTask
    · subst hqc
      rw [hself]
      refine ⟨fun _ hb' => ?_, nofun, nofun⟩
      exact absurd ((hstates _).symm.trans hb') hb
    · rw [hother hqc, hkids hqc]
      refine (h.place q (hlive ▸ hq)).congr ⟨Eq.congr_left (hstates q), fun hb' => ?_⟩ fun c _ => Eq.congr_left (hstates c)
      exact (hstates q).symm.trans hb'
  · by_cases hqc : q = m.k.currentTask
    · subst hqc
      obtain ⟨rfl, rfl, rfl⟩ := Place.reap.inj (hself.symm.trans hr.2.2)
      refine .tasks ((hdetached.state z).trans hzombie) (fun he => h.clan.init_not_mem hmem (he ▸ hzk))
        (fun hi => hzi (hi.trans hinit)) ?_ (fun b hb' => ?_) ((hclan.mem z).mpr ⟨hlive ▸ hzl, ?_⟩)
      · exact (hdetached.parent z).trans (if_pos rfl)
      · by_cases hbc : b = m.k.currentTask
        · subst hbc
          rw [Function.update_self]
          exact (h.clan.kin.chain _ hmem).nodup.not_mem_erase
        · rw [hkids hbc]
          exact fun hzb => hbc (h.clan.kin.parent_unique (hlive ▸ hb') hmem hzb hzk)
      · exact fun he => h.clan.idle (he ▸ hzombie)
    · cases h.reaping.ok _ _ _ _ (hold hqc hr) with
      | siblings hy haty => exact .siblings ((hdetached.state y).trans hy) ((hkids hqc).symm ▸ haty)
      | tasks => exact absurd (hold hqc hr) (halone q y _)
  · have hmine : ∀ {q y stage}, ({ m.goto (.reap z .tasks .head) with k := t } : Machine).Reaps q y .tasks stage →
        q = m.k.currentTask := fun hr => by_contra fun hqc => halone _ _ _ (hold hqc hr)
    rw [hmine hr, hmine hr']

/-- The zombie is off the scheduler list and freed. -/
theorem offTasks (h : Waiting m kids order) {z : ℕ} {pred next : Option ℕ} (hz : m.k.current.state ≠ .zombie)
    (hpl : m.currentPlace = .reap z .tasks (.store pred next)) :
    Waiting (unlinked z { m with k := Links.tasks.relink m.k pred next } .tasks) kids (order.erase z) := by
  have hne : m.k.currentTask ≠ initTask := h.ne_init (by rw [hpl]; rfl)
  have hb : m.k.current.state ≠ .blocked := h.not_blocked (by rw [hpl]; nofun)
  have hmine := h.reaps hz hpl
  cases h.reaping.ok _ _ _ _ hmine with
  | tasks hzombie hzi hzp hparent hzk hat =>
  have hzc : z ≠ m.k.currentTask := by
    rintro rfl
    exact hz hzombie
  obtain ⟨t, ht⟩ : ∃ t, t = releaseTask z (Links.tasks.relink m.k pred next) := ⟨_, rfl⟩
  obtain ⟨hclan, hlive, hinit, hcur, hstate, hparents⟩ := h.clan.freed hat hparent hzk hzi hzp hzombie hzc ht
  have hmachine : unlinked z { m with k := Links.tasks.relink m.k pred next } .tasks =
      { m.goto .user with k := { t with interruptFlag := true } } := by
    have hsame : (Links.tasks.relink m.k pred next).currentTask = m.k.currentTask := by
      cases pred <;> rfl
    rw [unlinked, ht]
    simp only [Machine.goto, hsame]
  have hflag : CalmLive False t { t with interruptFlag := true } := (calm_interruptFlag t true).calmLive
  have hmem : ∀ {b}, b ∈ t.live → b ≠ z ∧ b ∈ m.k.live := fun hb' => Finset.mem_erase.mp (hlive ▸ hb')
  have hself : (m.goto .user).place m.k.currentTask = .user := Function.update_self _ _ _
  have hother : ∀ {q}, q ≠ m.k.currentTask → (m.goto .user).place q = m.place q := fun hq => Function.update_of_ne hq _ _
  have hback : ∀ {q y links stage}, ({ m.goto .user with k := { t with interruptFlag := true } } : Machine).Reaps q y links stage →
      q ≠ m.k.currentTask ∧ m.Reaps q y links stage := by
    rintro q y links stage ⟨hql, hqz, hplace⟩
    have hqc : q ≠ m.k.currentTask := by
      rintro rfl
      exact nomatch hself.symm.trans hplace
    exact ⟨hqc, (hmem hql).2, hstate q ▸ hqz, (hother hqc).symm.trans hplace⟩
  rw [hmachine]
  refine ⟨hclan.calm hflag, fun i hi => ?_, fun q hq hqq => ?_, ?_, fun hb' => ?_, fun q hq => ?_,
    h.reaping.of_old (fun q y links stage hr => (hback hr).2) fun q y links stage hr hok => ?_⟩
  · have hi' : i ∈ m.k.initProc := hinit ▸ hi
    have hiz : i ≠ z := fun he => hzp (he ▸ hi'.symm)
    change (t.task i).parent = _ ∨ (t.task i).parent = _
    rw [hparents i hiz]
    exact h.top i hi'
  · change some q = t.initProc
    rw [hinit]
    exact h.own q (hmem hq).2 hqq
  · exact (congrArg Place.inWait (hother hne.symm)).trans h.outside
  · have hb'' : (t.task t.currentTask).state = .blocked := hb'
    rw [hcur, hstate] at hb''
    exact absurd hb'' hb
  · by_cases hqc : q = m.k.currentTask
    · subst hqc
      exact .outside (congrArg Place.inWait hself)
    · have hplace : ({ m.goto .user with k := { t with interruptFlag := true } } : Machine).place q = m.place q := hother hqc
      rw [hplace]
      refine (h.place q (hmem hq).2).congr ⟨Eq.congr_left (hstate q), fun hb' => ?_⟩ fun c _ => Eq.congr_left (hstate c)
      exact (hstate q).symm.trans hb'
  · obtain ⟨hqc, hr'⟩ := hback hr
    cases hok with
    | siblings hy haty => exact .siblings ((hstate y).trans hy) haty
    | tasks => exact absurd (h.reaping.single _ _ _ _ _ _ hr' hmine) hqc

/-- The current task goes one step through `task_reap`. -/
theorem reapStep (h : Waiting m kids order) {z : ℕ} {links : Links} {stage : Unlink} (hz : m.k.current.state ≠ .zombie)
    (hpl : m.currentPlace = .reap z links stage)
    (halone : ∀ parent pred next, m.currentPlace = .reap z (.siblings parent) (.store pred next) →
      ∀ p z' stage', ¬m.Reaps p z' .tasks stage') :
    ∃ kids' order', Waiting (Tasks.reapStep z links m stage) kids' order' := by
  have hmem := h.clan.live h.clan.current
  have hwait : m.currentPlace.inWait = true := by rw [hpl]; rfl
  have hb : m.k.current.state ≠ .blocked := h.not_blocked (by rw [hpl]; nofun)
  have hok := h.reaping.ok _ _ _ _ (h.reaps hz hpl)
  -- the list that is searched, and what is known when the search goes on to another stage
  obtain ⟨l, hchain, hat, hnext⟩ : ∃ l, Chain (links.behind m.k) (links.first m.k) l ∧ stage.At z l ∧
      ∀ stage' : Unlink, stage'.At z l → Waiting (m.goto (.reap z links stage')) kids order := by
    cases hok with
    | siblings hzombie hat =>
      exact ⟨_, h.clan.kin.chain _ hmem, hat, fun stage' hat' => h.gotoReap hwait hb (.siblings hzombie hat') nofun⟩
    | tasks hzombie hzi hinit hparent hkids hat =>
      exact ⟨_, h.clan.list, hat, fun stage' hat' =>
        h.gotoReap hwait hb (.tasks hzombie hzi hinit hparent hkids hat') fun _ => ⟨stage, hpl⟩⟩
  cases stage with
  | head =>
    obtain ⟨hfirst, hlater⟩ := Unlink.At.startWalk hchain hat
    refine ⟨kids, order, ?_⟩
    rw [Tasks.reapStep]
    split
    · rename_i hhead
      exact hnext _ (hfirst hhead)
    · rename_i hhead
      exact hnext _ (hlater hhead)
  | walk cur =>
    obtain ⟨a, rfl, hfound, hon⟩ := Unlink.At.walkOn hchain hat
    refine ⟨kids, order, ?_⟩
    rw [Tasks.reapStep]
    split
    · rename_i hlink
      exact hnext _ (hfound hlink)
    · rename_i hlink
      exact hnext _ (hon hlink)
  | load pred => exact ⟨kids, order, hnext _ (Unlink.At.loadNext hchain hat)⟩
  | store pred next =>
    cases hok with
    | siblings => exact ⟨_, _, h.offSiblings hz hpl (halone _ pred next hpl)⟩
    | tasks => exact ⟨_, _, h.offTasks hz hpl⟩

/-- The current task goes one step through `sys_wait`. -/
theorem waitStep (h : Waiting m kids order) {k : KernelImage} (htimely : Move.wait.Timely k m)
    (hrun : Tasks.waitStep k m = some n) : ∃ kids' order', Waiting n kids' order' := by
  have hz := htimely.zombie rfl
  cases hpl : m.currentPlace with
  | found wstatus z => exact ⟨kids, order, h.enterReap hz hpl (htimely.wstatus rfl wstatus z hpl) hrun⟩
  | scan wstatus c =>
    rw [Tasks.waitStep, hpl] at hrun
    cases c with
    | none =>
      obtain rfl := Option.some.inj hrun
      exact ⟨kids, order, h.block hz hpl⟩
    | some c =>
      obtain ⟨hfound, hnext⟩ := h.scanChild hz hpl
      dsimp only at hrun
      split at hrun
      · rename_i hzombie
        obtain rfl := Option.some.inj hrun
        exact ⟨kids, order, hfound hzombie⟩
      · rename_i halive
        obtain rfl := Option.some.inj hrun
        exact ⟨kids, order, hnext halive⟩
  | reap z links stage =>
    rw [Tasks.waitStep, hpl] at hrun
    obtain rfl := Option.some.inj hrun
    exact h.reapStep hz hpl fun parent pred next => htimely.alone rfl z parent pred next
  | asleep wstatus =>
    rw [Tasks.waitStep, hpl] at hrun
    dsimp only at hrun
    split at hrun
    · obtain rfl := Option.some.inj hrun
      exact ⟨kids, order, h.interruptFlag true⟩
    · rename_i hb
      obtain rfl := Option.some.inj hrun
      exact ⟨kids, order, h.startScan (h.ne_init (by rw [hpl]; rfl)) hb wstatus⟩
  | user =>
    rw [Tasks.waitStep, hpl] at hrun
    exact nomatch hrun
  | parked =>
    rw [Tasks.waitStep, hpl] at hrun
    exact nomatch hrun

/-- A system call other than `sys_wait`, or what is done between two instructions. -/
theorem operation (h : Waiting m kids order) {op : KOp} (hstep : KStep op m.k s)
    (hop : (∃ env frame, op = .syscall env frame) ∨ op.External)
    (hpassed : ∀ a p, op.Ends m.k a → (m.k.task a).parent = some p → ¬m.Passed p a)
    (horphans : ∀ a, op.Ends m.k a → ∀ z ∈ m.k.live, (m.k.task z).parent = some a →
      (m.k.task z).state = .zombie → ∀ wstatus c, m.place m.k.reaper ≠ .scan wstatus c)
    (hfront : ∀ p z parent stage, m.Reaps p z (.siblings parent) stage → stage.Heads → ¬op.Bears m.k p ∧
      ∀ a, op.Ends m.k a → p = m.k.reaper → (m.k.task a).children = none)
    (hfirst : ∀ p z stage, m.Reaps p z .tasks stage → stage.Heads → ∀ q, ¬op.Bears m.k q) :
    (∃ kids' order', Waiting ⟨s, m.places⟩ kids' order') ∧ s.currentTask = m.k.currentTask := by
  have hplaces : ∀ a ∈ m.k.live, m.places a = m.place a := fun a ha => if_pos ha
  cases step_cases h.clan.settled hstep with
  | calm hc => exact ⟨⟨kids, order, h.calm hc hplaces⟩, hc.rest.currentTask⟩
  | blocks hscan hs =>
    obtain ⟨first, fuel, wstatus, rfl, -⟩ := hscan
    rcases hop with ⟨env, frame, he⟩ | he
    · exact nomatch he
    · exact he.elim
  | exits a hends hlisted he =>
    obtain rfl : a = m.k.currentTask := by
      rcases hop with ⟨env, frame, rfl⟩ | hop
      · exact hends.current
      · cases op <;> first | exact hop.elim | exact hends.elim
    refine ⟨⟨adopt kids m.k.currentTask m.k.reaper, order, ?_⟩, he.globals.currentTask⟩
    refine (h.exits he (fun p => hpassed _ p hends) (horphans _ hends)
      (fun z parent stage hr hheads => (hfront _ z parent stage hr hheads).2 _ hends rfl) (fun b hb _ => hplaces b hb) ?_).1
    rw [hplaces _ h.clan.init]
    exact h.outside
  | switched u htick hu hs =>
    obtain ⟨fuel, rfl⟩ := htick
    rcases hop with ⟨env, frame, he⟩ | he
    · exact nomatch he
    · exact he.elim
  | born p c hp hb hinit hnum =>
    refine ⟨⟨bear kids p c, c :: order, h.born (h.clan.bears_mem hp) hb hinit
      (fun z parent stage hr hheads => (hfront p z parent stage hr hheads).1 hp)
      fun q z stage hr hheads => hfirst q z stage hr hheads p hp⟩, ?_⟩
    rw [hb.rest]
  | reaped z fuel u hz hu hrun =>
    rcases hop with ⟨env, frame, rfl⟩ | hop
    · exact hz.elim
    · cases op <;> first | exact hop.elim | exact hz.elim

theorem syscall (h : Waiting m kids order) {k : KernelImage} {env : SysEnv} {frame : TrapFrame}
    (hallowed : (Move.syscall env frame).Allowed m) (htimely : (Move.syscall env frame).Timely k m)
    (hrun : (Move.syscall env frame).run k m = some n) : ∃ kids' order', Waiting n kids' order' := by
  obtain ⟨s, hs, rfl⟩ := Option.map_eq_some_iff.mp hrun
  obtain ⟨huser, hallowed⟩ := hallowed
  obtain ⟨⟨kids', order', hw⟩, hcur⟩ := h.operation ⟨hallowed, hs⟩ (.inl ⟨env, frame, rfl⟩) htimely.passed
    htimely.orphans htimely.front htimely.first
  refine ⟨kids', order', ?_⟩
  split
  · have hplace : m.places s.currentTask = .user := by
      rw [hcur]
      exact (if_pos (h.clan.live h.clan.current)).trans huser
    have hawake : s.current.state ≠ .blocked := by
      intro hb
      obtain ⟨wstatus, hw⟩ := hw.awake hb
      exact nomatch hplace.symm.trans hw
    have hpark : Waiting (Machine.goto ⟨s, m.places⟩ .parked) kids' order' :=
      hw.goto (fun _ => rfl) (fun hb => absurd hb hawake) (.outside rfl) nofun
    rw [← hcur]
    exact hpark
  · exact hw

theorem interrupt (h : Waiting m kids order) {k : KernelImage} {op : KOp}
    (hallowed : (Move.interrupt op).Allowed m) (htimely : (Move.interrupt op).Timely k m)
    (hrun : (Move.interrupt op).run k m = some n) : ∃ kids' order', Waiting n kids' order' := by
  obtain ⟨s, hs, rfl⟩ := Option.map_eq_some_iff.mp hrun
  obtain ⟨-, hexternal, hallowed⟩ := hallowed
  rw [KernelImage.run_eq (htimely.frames op rfl)] at hs
  have hends : ∀ a, ¬op.Ends m.k a := by
    intro a ha
    cases op <;> first | exact hexternal.elim | exact ha.elim
  exact (h.operation ⟨hallowed, hs⟩ (.inr hexternal) (fun a _ ha => absurd ha (hends a))
    (fun a ha => absurd ha (hends a))
    (fun p z parent stage hr hheads => ⟨(htimely.front p z parent stage hr hheads).1, fun a ha => absurd ha (hends a)⟩)
    htimely.first).1

/-- A zombie child behind the dispatch of a tick was one before, or the tick made it. -/
theorem zombieChild_of_ended (h : Waiting m kids order) (hdies : m.k.current.Dies)
    (hended : Ended m.k.currentTask kids m.k s) {q : ℕ} (hc : c ∈ m.k.live) (hparent : (s.task c).parent = some q)
    (hzombie : (s.task c).state = .zombie) : m.k.ZombieChild q := by
  have hmem := h.clan.live h.clan.current
  rw [hended.parent c hc] at hparent
  by_cases hca : c = m.k.currentTask
  · refine ⟨c, hc, .inr ⟨hdies, .inl ⟨hca, ?_⟩⟩⟩
    have hself : c ∉ kids m.k.currentTask := by
      subst hca
      intro hself
      refine hended.reaper (List.ne_nil_of_mem hself) ?_
      rw [KState.reaper, ← h.own _ hmem hself]
      rfl
    rwa [if_neg hself] at hparent
  · rw [(hended.others c hc hca).1] at hzombie
    split at hparent
    · rename_i hkid
      exact ⟨c, hc, .inr ⟨hdies, .inr ⟨hzombie, (h.clan.kin.child _ hmem c hkid).2,
        (Option.some.inj hparent).symm⟩⟩⟩
    · exact ⟨c, hc, .inl ⟨hzombie, hparent⟩⟩

theorem tick (h : Waiting m kids order) {k : KernelImage} {fuel : ℕ} (htimely : (Move.tick fuel).Timely k m)
    (hrun : (Move.tick fuel).run k m = some n) : ∃ kids' order', Waiting n kids' order' := by
  obtain ⟨t, ht, rfl⟩ := Option.map_eq_some_iff.mp hrun
  obtain ⟨u, hu, hs⟩ := tick_cases h.clan.settled (toOption_eq_some.mp ht)
  rcases hu with hc | ⟨hdies, he⟩
  · have hw : Waiting ⟨u, m.place⟩ kids order := h.calm hc.calmLive fun _ _ => rfl
    refine ⟨kids, order, hw.switched hs fun harmed q hq hwait c hck hzombie => ?_⟩
    have hq' : q ∈ m.k.live := hc.rest.live ▸ hq
    obtain ⟨hcl, hcp⟩ := h.clan.kin.child q hq' c hck
    exact htimely.trigger fuel rfl (hc.armed.mp harmed) q hq' hwait
      ⟨c, hcl, .inl ⟨(hc.task c).zombie.mp hzombie, hcp⟩⟩
  · have hends : (Move.tick fuel).Ends m m.k.currentTask := ⟨rfl, hdies⟩
    obtain ⟨hw, hended⟩ := h.exits he (fun p => htimely.passed _ p hends) (htimely.orphans _ hends)
      (fun z parent stage hr hheads => (htimely.front _ z parent stage hr hheads).2 _ hends rfl)
      (fun _ _ _ => rfl) h.outside
    refine ⟨_, order, hw.switched hs fun harmed q hq hwait c hck hzombie => ?_⟩
    have hq' : q ∈ m.k.live := he.globals.live ▸ hq
    obtain ⟨hcl, hcp⟩ := hw.clan.kin.child q hq c hck
    have harmed' : m.k.Armed := by
      unfold KState.Armed at harmed ⊢
      rw [he.globals] at harmed
      exact harmed
    exact htimely.trigger fuel rfl harmed' q hq' hwait
      (h.zombieChild_of_ended hdies hended (he.globals.live ▸ hcl) hcp hzombie)

theorem step {k : KernelImage} {mv : Move} (h : Waiting m kids order) (htimely : mv.Timely k m) (hstep : MStep k mv m n) :
    ∃ kids' order', Waiting n kids' order' := by
  obtain ⟨hallowed, hrun⟩ := hstep
  cases mv with
  | callWait wstatus =>
    dsimp only [Move.run] at hrun
    split at hrun
    · obtain rfl := Option.some.inj hrun
      exact ⟨kids, order, h⟩
    · obtain rfl := Option.some.inj hrun
      obtain ⟨huser, hne⟩ := hallowed
      have hscan := h.startScan hne (h.not_blocked (by rw [huser]; nofun)) wstatus
      exact ⟨kids, order, hscan.interruptFlag false⟩
  | wait => exact h.waitStep htimely hrun
  | syscall env frame => exact h.syscall hallowed htimely hrun
  | interrupt op => exact h.interrupt hallowed htimely hrun
  | tick fuel => exact h.tick htimely hrun

theorem boot (hb : MBoot m) : ∃ kids order, Waiting m kids order := by
  obtain ⟨k, hk, rfl⟩ := hb
  have hclan := (Family.boot hk).toClan
  have hflag : CalmLive False k { k with interruptFlag := true } := (calm_interruptFlag k true).calmLive
  have hnone : k.initProc = none := by
    obtain ⟨junk, user, rfl⟩ := hk
    rfl
  have hrunning : k.current.state ≠ .blocked := by
    obtain ⟨junk, user, rfl⟩ := hk
    nofun
  refine ⟨_, _, hclan.calm hflag, fun i hi => ?_, fun p hp hpp => ?_, rfl, fun hb => absurd hb hrunning,
    fun q _ => .outside rfl, ⟨fun p z links stage hr => (nomatch hr.2.2), fun p q z z' stage stage' hr => (nomatch hr.2.2)⟩⟩
  · exact nomatch hnone.symm.trans hi
  · by_cases hpi : p = initTask
    · rw [hpi] at hpp
      exact absurd hpp (hclan.init_not_mem hclan.init)
    · rw [Function.update_of_ne hpi] at hpp
      exact nomatch hpp

end Waiting

def Place.elsewhere : Place → Bool
  | .reap _ _ _ => false
  | _ => true

/-- Steps of `sys_wait` that ask for nothing but a live task. -/
def Place.plain : Place → Bool
  | .found wstatus _ => decide (wstatus = userCodeBase)
  | .reap _ (.siblings _) (.store _ _) => false
  | _ => true

end HekaOS.Tasks
