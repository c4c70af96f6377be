import HekaOS.KernelFrames

/-!
# The lists of children

`Kin s kids` says that the children of every task form a chain along `sibling` and point back
to it. The three helpers of `task.c` edit one list each; the loop of `do_exit` moves a whole
list, reversed, to the front of the list of the reaper.
-/

namespace HekaOS.Tasks
open KernelMemory PointerChain

variable {s t u : KState} {kids : ℕ → List ℕ} {pre post : List ℕ} {a b c p q r fuel n : ℕ}

structure Kin (s : KState) (kids : ℕ → List ℕ) : Prop where
  chain : ∀ p ∈ s.live, Chain s.sibling (s.task p).children (kids p)
  child : ∀ p ∈ s.live, ∀ c ∈ kids p, c ∈ s.live ∧ (s.task c).parent = some p

/-- Nobody has two parents. -/
theorem Kin.parent_unique (h : Kin s kids) (hp : p ∈ s.live) (hq : q ∈ s.live) (hcp : c ∈ kids p)
    (hcq : c ∈ kids q) : p = q :=
  Option.some.inj ((h.child p hp c hcp).2.symm.trans (h.child q hq c hcq).2)

/-- What `task_remove_child` does to the three links, when `c` stands between `pre` and `post`
in the list of `p`. -/
structure ChildRemoved (p c : ℕ) (pre post : List ℕ) (s t : KState) : Prop where
  parent : ∀ b, (t.task b).parent = if b = c then none else (s.task b).parent
  children : ∀ b, (t.task b).children = if b = p ∧ pre = [] then post.head? else (s.task b).children
  sibling : ∀ b, t.sibling b =
    if b = c then none else if pre.getLast? = some b then post.head? else s.sibling b

theorem childRemoved (hc : Chain s.sibling (s.task p).children (pre ++ c :: post))
    (h : taskRemoveChild fuel p c s = .ok t) : ChildRemoved p c pre post s t := by
  obtain ⟨u, hu, h⟩ := bind_eq_ok.mp h
  obtain rfl := Except.ok.inj h
  have hpost : s.sibling c = post.head? := (Chain.suffix hc).2.head?_eq
  suffices hlinks : ∀ b, (u.task b).parent = (s.task b).parent ∧
      (u.task b).children = (if b = p ∧ pre = [] then post.head? else (s.task b).children) ∧
      u.sibling b = if pre.getLast? = some b then post.head? else s.sibling b by
    refine ⟨fun b => ?_, fun b => ?_, fun b => ?_⟩
    · by_cases hb : b = c
      · subst hb
        rw [KState.modify_task_self, if_pos rfl]
      · rw [u.modify_task_of_ne _ hb, if_neg hb, (hlinks b).1]
    · rw [← (hlinks b).2.1]
      exact u.modify_field c b _ Task.children rfl
    · unfold KState.sibling at hlinks ⊢
      by_cases hb : b = c
      · subst hb
        rw [KState.modify_task_self, if_pos rfl]
      · rw [u.modify_task_of_ne _ hb, if_neg hb, (hlinks b).2.2]
  dsimp only [unlinkChild] at hu
  cases pre using List.reverseRecOn with
  | nil =>
    rw [if_pos hc.1] at hu
    obtain rfl := Except.ok.inj hu
    intro b
    refine ⟨s.modify_field p b _ Task.parent rfl, ?_, ?_⟩
    · by_cases hb : b = p
      · subst hb
        rw [KState.modify_task_self, if_pos ⟨rfl, rfl⟩, hpost]
      · rw [s.modify_task_of_ne _ hb, if_neg fun h => hb h.1]
    · exact s.modify_field p b _ Task.sibling rfl
  | append_singleton pre d =>
    rw [List.append_assoc, List.singleton_append] at hc
    rw [if_neg hc.head_ne] at hu
    obtain ⟨cur, hfind, hu⟩ := bind_eq_ok.mp hu
    obtain rfl : cur = some d := (hc.find_of_some (ended_eq_ok.mp hfind)).trans hc.find?_pred
    obtain rfl := Except.ok.inj hu
    intro b
    refine ⟨s.modify_field d b _ Task.parent rfl, ?_, ?_⟩
    · rw [if_neg fun h => by simp at h]
      exact s.modify_field d b _ Task.children rfl
    · rw [List.getLast?_concat]
      by_cases hb : b = d
      · subst hb
        rw [if_pos rfl, ← hpost, KState.sibling, KState.modify_task_self]
      · rw [if_neg fun h => hb (Option.some.inj h).symm, KState.sibling, s.modify_task_of_ne _ hb]
        rfl

theorem Kin.removeChild (h : Kin s kids) (hp : p ∈ s.live) (hkids : kids p = pre ++ c :: post)
    (hrun : taskRemoveChild fuel p c s = .ok t) : Kin t (Function.update kids p (pre ++ post)) := by
  have hchain := hkids ▸ h.chain p hp
  have hr := childRemoved hchain hrun
  have hlive : t.live = s.live := (linksOnly_removeChild hrun).globals.live
  have hnodup := hchain.nodup
  have hmem : ∀ b ∈ pre ++ post, b ∈ kids p ∧ b ≠ c := by
    intro b hb
    rw [hkids]
    have := List.nodup_middle.mp hnodup
    refine ⟨?_, fun he => (List.nodup_cons.mp this).1 (he ▸ hb)⟩
    rcases List.mem_append.mp hb with hb | hb
    · exact List.mem_append_left _ hb
    · exact List.mem_append_right _ (List.mem_cons_of_mem c hb)
  have hc : c ∈ kids p := by simp [hkids]
  refine ⟨fun q hq => ?_, fun q hq b hb => ?_⟩
  · rw [hlive] at hq
    by_cases hqp : q = p
    · subst hqp
      rw [Function.update_self]
      refine hchain.remove ?_ fun b hb => ?_
      · rw [hr.children]
        simp only [true_and]
      · rw [hr.sibling, if_neg (hmem b hb).2]
    · rw [Function.update_of_ne hqp, hr.children, if_neg fun h => hqp h.1]
      -- the lists of two tasks have no node in common
      refine (h.chain q hq).congr fun b hb => ?_
      have hb' : b ∉ kids p := fun hb' => hqp (h.parent_unique hq hp hb hb')
      have hbc : b ≠ c := fun he => hb' (he ▸ hc)
      have hlast : pre.getLast? ≠ some b := by
        intro he
        exact hb' (hkids ▸ List.mem_append_left _ (List.mem_of_getLast? he))
      rw [hr.sibling, if_neg hbc, if_neg hlast]
  · rw [hlive] at hq ⊢
    by_cases hqp : q = p
    · subst hqp
      rw [Function.update_self] at hb
      rw [hr.parent, if_neg (hmem b hb).2]
      exact h.child q hq b (hmem b hb).1
    · rw [Function.update_of_ne hqp] at hb
      have hbc : b ≠ c := fun he => hqp (h.parent_unique hq hp hb (he ▸ hc))
      rw [hr.parent, if_neg hbc]
      exact h.child q hq b hb

/-- The walk of `task_remove_child` for any task, listed or not: the links it changes led to `c`. -/
theorem unlinkChild_links (h : unlinkChild fuel p c s = .ok t) (b : ℕ) :
    (t.task b).parent = (s.task b).parent ∧
      ((t.task b).children = (s.task b).children ∨ b = p ∧ (s.task p).children = some c) ∧
      (t.sibling b = s.sibling b ∨ s.sibling b = some c) := by
  dsimp only [unlinkChild] at h
  split at h
  · rename_i hhead
    obtain rfl := Except.ok.inj h
    refine ⟨s.modify_field p b _ Task.parent rfl, ?_, .inl (s.modify_field p b _ Task.sibling rfl)⟩
    by_cases hb : b = p
    · exact .inr ⟨hb, hhead⟩
    · rw [s.modify_task_of_ne _ hb]
      exact .inl rfl
  · obtain ⟨cur, hfind, h⟩ := bind_eq_ok.mp h
    cases cur with
    | none =>
      obtain rfl := Except.ok.inj h
      exact ⟨rfl, .inl rfl, .inl rfl⟩
    | some d =>
      obtain rfl := Except.ok.inj h
      have hpass := find_pass (ended_eq_ok.mp hfind)
      have hd : s.sibling d = some c := of_decide_eq_true hpass
      refine ⟨s.modify_field d b _ Task.parent rfl, .inl (s.modify_field d b _ Task.children rfl), ?_⟩
      by_cases hb : b = d
      · subst hb
        exact .inr hd
      · rw [KState.sibling, s.modify_task_of_ne _ hb]
        exact .inl rfl

theorem detach_links (h : detach fuel c s = .ok t) (b : ℕ) :
    (t.task b).parent = (if b = c then none else (s.task b).parent) ∧
      ((t.task b).children = (s.task b).children ∨
        (s.task c).parent = some b ∧ (s.task b).children = some c) ∧
      (b = c ∨ t.sibling b = s.sibling b ∨ s.sibling b = some c) := by
  unfold detach at h
  split at h
  · rename_i p hp
    obtain ⟨u, hu, h⟩ := bind_eq_ok.mp h
    obtain rfl := Except.ok.inj h
    obtain ⟨hparent, hchildren, hsibling⟩ := unlinkChild_links hu b
    rw [u.modify_field c b _ Task.children rfl]
    refine ⟨?_, hchildren.imp_right fun hb => ?_, ?_⟩
    · by_cases hb : b = c
      · subst hb
        rw [KState.modify_task_self, if_pos rfl]
      · rw [u.modify_task_of_ne _ hb, if_neg hb, hparent]
    · obtain ⟨rfl, hhead⟩ := hb
      exact ⟨hp, hhead⟩
    · by_cases hb : b = c
      · exact .inl hb
      · right
        rw [KState.sibling, u.modify_task_of_ne _ hb]
        exact hsibling
  · rename_i hp
    obtain rfl := Except.ok.inj h
    refine ⟨?_, .inl rfl, .inr (.inl rfl)⟩
    split
    · rename_i hb
      rw [hb, hp]
    · rfl

theorem Kin.congr {kids' : ℕ → List ℕ} (h : Kin s kids) (hk : ∀ p ∈ s.live, kids' p = kids p) : Kin s kids' := by
  refine ⟨fun p hp => ?_, fun p hp c hc => ?_⟩
  · rw [hk p hp]
    exact h.chain p hp
  · rw [hk p hp] at hc
    exact h.child p hp c hc

/-- A task leaves the list it is in, wherever its parent pointer leads. -/
theorem Kin.detached (h : Kin s kids) (hrun : detach fuel c s = .ok t) : Kin t fun q => (kids q).erase c := by
  have hlinks := detach_links hrun
  have hl : t.live = s.live := (linksOnly_detach hrun).globals.live
  by_cases hmem : ∃ q ∈ s.live, c ∈ kids q
  · obtain ⟨q, hq, hcq⟩ := hmem
    obtain ⟨pre, post, hkids⟩ := List.append_of_mem hcq
    rw [detach, (h.child q hq c hcq).2] at hrun
    refine (h.removeChild hq hkids hrun).congr fun p hp => ?_
    by_cases hpq : p = q
    · subst hpq
      have hchain := hkids ▸ h.chain p hq
      rw [Function.update_self, hkids, hchain.erase_middle]
    · rw [Function.update_of_ne hpq, List.erase_of_not_mem]
      exact fun hcp => hpq (h.parent_unique (hl ▸ hp) hq hcp hcq)
  · have hfree : ∀ q ∈ s.live, c ∉ kids q := fun q hq hcq => hmem ⟨q, hq, hcq⟩
    suffices hsame : Kin t kids from hsame.congr fun q hq => List.erase_of_not_mem (hfree q (hl ▸ hq))
    refine ⟨fun q hq => ?_, fun q hq b hb => ?_⟩
    · rw [hl] at hq
      have hchain := h.chain q hq
      rw [(hlinks q).2.1.resolve_right fun hc => hfree q hq (hchain.mem_of_head hc.2)]
      refine hchain.congr fun b hb => ?_
      have hbc : b ≠ c := fun he => hfree q hq (he ▸ hb)
      rcases (hlinks b).2.2 with he | hs | hs
      · exact absurd he hbc
      · exact hs
      · exact absurd (hchain.mem_of_next hb hs) (hfree q hq)
    · rw [hl] at hq ⊢
      have hbc : b ≠ c := fun he => hfree q hq (he ▸ hb)
      rw [(hlinks b).1, if_neg hbc]
      exact h.child q hq b hb

/-- What `task_add_child` does to the three links. -/
structure ChildAdded (p c : ℕ) (s t : KState) : Prop where
  parent : ∀ b, (t.task b).parent = if b = c then some p else (s.task b).parent
  children : ∀ b, (t.task b).children = if b = p then some c else (s.task b).children
  sibling : ∀ b, t.sibling b = if b = c then (s.task p).children else s.sibling b

theorem childAdded (p c : ℕ) (s : KState) : ChildAdded p c s (taskAddChild p c s) := by
  dsimp only [taskAddChild]
  generalize hv : (s.modify c fun x => { x with parent := some p }) = v
  have hchildren : (v.task p).children = (s.task p).children := by
    rw [← hv]
    exact s.modify_field c p _ Task.children rfl
  generalize hw : (v.modify c fun x => { x with sibling := (v.task p).children }) = w
  refine ⟨fun b => ?_, fun b => ?_, fun b => ?_⟩
  · rw [w.modify_field p b _ Task.parent rfl, ← hw, v.modify_field c b _ Task.parent rfl, ← hv]
    by_cases hb : b = c
    · subst hb
      rw [KState.modify_task_self, if_pos rfl]
    · rw [s.modify_task_of_ne _ hb, if_neg hb]
  · by_cases hb : b = p
    · subst hb
      rw [KState.modify_task_self, if_pos rfl]
    · rw [w.modify_task_of_ne _ hb, if_neg hb, ← hw, v.modify_field c b _ Task.children rfl, ← hv,
        s.modify_field c b _ Task.children rfl]
  · unfold KState.sibling
    rw [w.modify_field p b _ Task.sibling rfl, ← hw]
    by_cases hb : b = c
    · subst hb
      rw [KState.modify_task_self, if_pos rfl, hchildren]
    · rw [v.modify_task_of_ne _ hb, if_neg hb, ← hv, s.modify_task_of_ne _ hb]

/-- A task that is in no list is put in front of the list of `r`, which need not be in use. -/
theorem Kin.addChild (h : Kin s kids) (hlive : c ∈ s.live) (hc : ∀ q ∈ s.live, c ∉ kids q) :
    Kin (taskAddChild r c s) (Function.update kids r (c :: kids r)) := by
  have ha := childAdded r c s
  have hlinks : LinksOnly s (taskAddChild r c s) := linksOnly_addChild
  have hl : (taskAddChild r c s).live = s.live := hlinks.globals.live
  generalize taskAddChild r c s = t at ha hl
  have hne : ∀ q ∈ s.live, ∀ b ∈ kids q, b ≠ c := fun q hq b hb he => hc q hq (he ▸ hb)
  have hother : ∀ q ∈ s.live, Chain t.sibling (s.task q).children (kids q) := by
    intro q hq
    refine (h.chain q hq).congr fun b hb => ?_
    rw [ha.sibling, if_neg (hne q hq b hb)]
  refine ⟨fun q hq => ?_, fun q hq b hb => ?_⟩
  · rw [hl] at hq
    rw [ha.children]
    by_cases hqr : q = r
    · subst hqr
      rw [Function.update_self, if_pos rfl]
      refine ⟨rfl, ?_⟩
      rw [ha.sibling, if_pos rfl]
      exact hother q hq
    · rw [Function.update_of_ne hqr, if_neg hqr]
      exact hother q hq
  · rw [hl] at hq ⊢
    have hold : b ∈ kids q → b ∈ s.live ∧ (t.task b).parent = some q := by
      intro hb
      rw [ha.parent, if_neg (hne q hq b hb)]
      exact h.child q hq b hb
    by_cases hqr : q = r
    · subst hqr
      rw [Function.update_self] at hb
      rcases List.mem_cons.mp hb with rfl | hb
      · exact ⟨hlive, by rw [ha.parent, if_pos rfl]⟩
      · exact hold hb
    · rw [Function.update_of_ne hqr] at hb
      exact hold hb

/-- Move the first child of `a` to the front of the list of `r`. -/
theorem Kin.reparent {rest : List ℕ} (h : Kin s kids) (ha : a ∈ s.live) (hkids : kids a = c :: rest)
    (hrun : taskReparent fuel c r s = .ok t) :
    Kin t (Function.update (Function.update kids a rest) r (c :: Function.update kids a rest r)) ∧
      (∀ b, (t.task b).parent = if b = c then some r else (s.task b).parent) ∧
      (∀ b ≠ c, t.sibling b = s.sibling b) ∧
      ∀ b, b ≠ a → b ≠ r → (t.task b).children = (s.task b).children := by
  obtain ⟨u, hu, hrun⟩ := bind_eq_ok.mp hrun
  obtain rfl := Except.ok.inj hrun
  have hc : c ∈ kids a := by simp [hkids]
  obtain ⟨hlive, hparent⟩ := h.child a ha c hc
  rw [detach, hparent] at hu
  have hkids' : kids a = [] ++ c :: rest := hkids
  have hk : Kin u (Function.update kids a rest) := h.removeChild ha hkids' hu
  have hremoved := childRemoved (hkids' ▸ h.chain a ha) hu
  have hl : u.live = s.live := (linksOnly_removeChild hu).globals.live
  refine ⟨hk.addChild (hl ▸ hlive) fun q hq hmem => ?_, fun b => ?_, fun b hb => ?_, fun b hba hbr => ?_⟩
  · have hparent' := (hk.child q hq c hmem).2
    rw [hremoved.parent, if_pos rfl] at hparent'
    exact nomatch hparent'
  · rw [(childAdded r c u).parent, hremoved.parent]
    split <;> rfl
  · rw [(childAdded r c u).sibling, if_neg hb, hremoved.sibling, if_neg hb]
    rfl
  · rw [(childAdded r c u).children, if_neg hbr, hremoved.children, if_neg fun h => hba h.1]

/-- The lists after `a` has handed its children to `r`. -/
def adopt (kids : ℕ → List ℕ) (a r : ℕ) : ℕ → List ℕ :=
  Function.update (Function.update kids a []) r ((kids a).reverse ++ if r = a then [] else kids r)

theorem adopt_self (h : kids a ≠ [] → r ≠ a) : adopt kids a r a = [] := by
  by_cases hra : a = r
  · have hk : kids a = [] := by_contra fun hne => h hne hra.symm
    subst hra
    simp [adopt, hk]
  · rw [adopt, Function.update_of_ne hra, Function.update_self]

theorem adopt_of_ne (ha : b ≠ a) (hr : b ≠ r) : adopt kids a r b = kids b := by
  rw [adopt, Function.update_of_ne hr, Function.update_of_ne ha]

/-- Nobody else loses a child. -/
theorem mem_adopt (ha : b ≠ a) (hc : c ∈ kids b) : c ∈ adopt kids a r b := by
  by_cases hr : b = r
  · subst hr
    rw [adopt, Function.update_self, if_neg ha]
    exact List.mem_append_right _ hc
  · rwa [adopt_of_ne ha hr]

theorem mem_adopt_reaper (hc : c ∈ kids a) : c ∈ adopt kids a r r := by
  rw [adopt, Function.update_self]
  exact List.mem_append_left _ (List.mem_reverse.mpr hc)

theorem adopt_step {rest : List ℕ} (hra : r ≠ a) (hkids : kids a = c :: rest) :
    adopt (Function.update (Function.update kids a rest) r (c :: Function.update kids a rest r)) a r =
      adopt kids a r := by
  funext b
  simp only [adopt, Function.update, hra, hra.symm, hkids]
  split_ifs <;> simp_all

/-- A task cannot hand its children to itself: the loop does not end. -/
theorem orphan_ne (h : orphanChildren fuel a r n s = .ok t) (hc : (s.task a).children ≠ none) : r ≠ a := by
  rintro rfl
  induction n generalizing s with
  | zero => exact nomatch h
  | succ n ih =>
    rw [orphanChildren] at h
    split at h
    · exact absurd ‹_› hc
    · obtain ⟨u, hu, h⟩ := bind_eq_ok.mp h
      refine ih h ?_
      obtain ⟨v, -, hu⟩ := bind_eq_ok.mp hu
      obtain rfl := Except.ok.inj hu
      rw [(childAdded _ _ v).children, if_pos rfl]
      exact Option.some_ne_none _

theorem Kin.orphan (h : Kin s kids) (ha : a ∈ s.live) (hrun : orphanChildren fuel a r n s = .ok t) :
    Kin t (adopt kids a r) ∧
      (∀ b, (t.task b).parent = if b ∈ kids a then some r else (s.task b).parent) ∧
      (∀ b ∉ kids a, t.sibling b = s.sibling b) ∧
      ∀ b, b ≠ a → b ≠ r → (t.task b).children = (s.task b).children := by
  induction n generalizing s kids with
  | zero => exact nomatch hrun
  | succ n ih =>
    have hne := orphan_ne hrun
    rw [orphanChildren] at hrun
    have hchain := h.chain a ha
    cases hk : kids a with
    | nil =>
      rw [hk, chain_nil] at hchain
      rw [hchain] at hrun
      obtain rfl := Except.ok.inj hrun
      refine ⟨?_, fun b => by simp, fun b _ => rfl, fun b _ _ => rfl⟩
      have hsame : adopt kids a r = kids := by
        funext b
        simp only [adopt, Function.update, hk]
        split_ifs <;> simp_all
      rwa [hsame]
    | cons c rest =>
      rw [hk, chain_cons] at hchain
      have hra : r ≠ a := hne (by rw [hchain.1]; exact Option.some_ne_none c)
      rw [hchain.1] at hrun
      obtain ⟨u, hu, hrun⟩ := bind_eq_ok.mp hrun
      obtain ⟨hku, hpu, hsu, hcu⟩ := h.reparent ha hk hu
      have hl : u.live = s.live := (linksOnly_reparent hu).globals.live
      obtain ⟨hkt, hpt, hst, hct⟩ := ih hku (hl ▸ ha) hrun
      rw [adopt_step hra hk] at hkt
      rw [Function.update_of_ne hra.symm, Function.update_self] at hpt hst
      refine ⟨hkt, fun b => ?_, fun b hb => ?_, fun b hba hbr => ?_⟩
      · rw [hpt b, hpu b]
        by_cases hb : b = c <;> simp [hb]
      · rw [List.mem_cons, not_or] at hb
        rw [hst b hb.2, hsu b hb.1]
      · rw [hct b hba hbr, hcu b hba hbr]

/-- The lists after `c` was born to `p`. -/
def bear (kids : ℕ → List ℕ) (p c : ℕ) : ℕ → List ℕ :=
  Function.update (Function.update kids c []) p (c :: Function.update kids c [] p)

theorem bear_new (hpc : c ≠ p) : bear kids p c c = [] := by
  rw [bear, Function.update_of_ne hpc, Function.update_self]

theorem bear_of_ne (hc : b ≠ c) (hp : b ≠ p) : bear kids p c b = kids b := by
  rw [bear, Function.update_of_ne hp, Function.update_of_ne hc]

theorem mem_bear (hb : b ≠ c) (ha : a ∈ kids b) : a ∈ bear kids p c b := by
  by_cases hp : b = p
  · subst hp
    rw [bear, Function.update_self, Function.update_of_ne hb]
    exact List.mem_cons_of_mem c ha
  · rwa [bear_of_ne hb hp]

/-- A field of another task behind a birth, unless it is a link of the tree. -/
theorem Born.field {α : Type} (h : Born p c s t) (hb : b ≠ c) (g : Task → α)
    (hg : ∀ x p sb ch, g { x with parent := p, sibling := sb, children := ch } = g x) :
    g (t.task b) = g (s.task b) := by
  obtain ⟨pid, n, u, hu, ht⟩ := h.run
  have hlinks : LinksOnly u (taskAddChild p c u) := linksOnly_addChild
  have hsame : t.task b = (taskAddChild p c u).task b := by
    rw [ht]
    exact linkTask_task_of_ne hb
  rw [hsame, hlinks.field g hg, hu.task b hb]

/-- The links of the tasks behind a birth. -/
structure Delivered (p c : ℕ) (s t : KState) : Prop where
  task : ∀ b ≠ c, (t.task b).parent = (s.task b).parent ∧ t.sibling b = s.sibling b ∧
    t.next b = s.next b ∧ (t.task b).state = (s.task b).state
  parent : (t.task c).parent = some p
  next : t.next c = s.taskListHead

theorem Born.delivered (h : Born p c s t) : Delivered p c s t := by
  obtain ⟨pid, n, u, hu, ht⟩ := h.run
  have ha := childAdded p c u
  have hlinks : LinksOnly u (taskAddChild p c u) := linksOnly_addChild
  have htask : t.task = (linkTask c (taskAddChild p c u)).task := by rw [ht]
  refine ⟨fun b hb => ?_, ?_, ?_⟩
  · have hsame : t.task b = (taskAddChild p c u).task b := by rw [htask, linkTask_task_of_ne hb]
    refine ⟨?_, ?_, ?_, ?_⟩
    · rw [hsame, ha.parent, if_neg hb, hu.task b hb]
    · rw [KState.sibling, hsame]
      exact (ha.sibling b).trans (by rw [if_neg hb, KState.sibling, hu.task b hb]; rfl)
    · rw [KState.next, hsame]
      exact (congrFun hlinks.next b).trans (congrArg Task.next (hu.task b hb))
    · rw [hsame, hlinks.state, hu.task b hb]
  · rw [htask, linkTask_field Task.parent fun _ _ => rfl, ha.parent, if_pos rfl]
  · rw [KState.next, htask]
    have hself : (linkTask c (taskAddChild p c u)).task c =
        { (taskAddChild p c u).task c with next := (taskAddChild p c u).taskListHead } :=
      Function.update_self _ _ _
    rw [hself]
    exact hlinks.globals.head.trans (by rw [hu.rest])

/-- A task is born to `p`, which need not be in use. -/
theorem Kin.born (h : Kin s kids) (hb : Born p c s t) : Kin t (bear kids p c) := by
  obtain ⟨pid, n, u, hu, ht⟩ := hb.run
  have hl : u.live = insert c s.live := by rw [hu.rest]
  have hne : ∀ q ∈ s.live, q ≠ c := fun q hq he => hb.fresh (he ▸ hq)
  -- first the blank struct joins the tasks in use
  have hku : Kin u (Function.update kids c []) := by
    refine ⟨fun q hq => ?_, fun q hq b hb' => ?_⟩
    · rw [hl] at hq
      rcases Finset.mem_insert.mp hq with rfl | hq
      · rw [Function.update_self, hu.children]
        rfl
      · rw [Function.update_of_ne (hne q hq), hu.task q (hne q hq)]
        refine (h.chain q hq).congr fun b hb' => ?_
        rw [KState.sibling, hu.task b (hne b (h.child q hq b hb').1)]
        rfl
    · rw [hl] at hq ⊢
      rcases Finset.mem_insert.mp hq with rfl | hq
      · rw [Function.update_self] at hb'
        exact nomatch hb'
      · rw [Function.update_of_ne (hne q hq)] at hb'
        obtain ⟨hbl, hbp⟩ := h.child q hq b hb'
        rw [hu.task b (hne b hbl)]
        exact ⟨Finset.mem_insert_of_mem hbl, hbp⟩
  have hfree : ∀ q ∈ u.live, c ∉ Function.update kids c [] q := by
    intro q hq hmem
    rw [hl] at hq
    rcases Finset.mem_insert.mp hq with rfl | hq
    · rw [Function.update_self] at hmem
      exact nomatch hmem
    · rw [Function.update_of_ne (hne q hq)] at hmem
      exact hne c (h.child q hq c hmem).1 rfl
  have hadded := hku.addChild (r := p) (hl ▸ Finset.mem_insert_self c s.live) hfree
  have hfield : ∀ {α : Type} (g : Task → α), (∀ x n, g { x with next := n } = g x) →
      ∀ b, g (t.task b) = g ((taskAddChild p c u).task b) := by
    intro α g hg b
    rw [ht]
    exact linkTask_field g hg
  have hsibling : t.sibling = (taskAddChild p c u).sibling := funext (hfield Task.sibling fun _ _ => rfl)
  have hlive : t.live = (taskAddChild p c u).live := by rw [ht]; rfl
  refine ⟨fun q hq => ?_, fun q hq b hb' => ?_⟩
  · rw [hsibling, hfield Task.children (fun _ _ => rfl)]
    exact hadded.chain q (hlive ▸ hq)
  · rw [hlive, hfield Task.parent (fun _ _ => rfl)]
    exact hadded.child q (hlive ▸ hq) b hb'

/-- The scheduler list without a task that is taken off it. -/
theorem unlinkTask_chain (hl : Chain s.next s.taskListHead (pre ++ a :: post))
    (h : unlinkTask fuel a s = .ok t) : Chain t.next t.taskListHead (pre ++ post) := by
  have hpost : s.next a = post.head? := (Chain.suffix hl).2.head?_eq
  unfold unlinkTask at h
  cases pre using List.reverseRecOn with
  | nil =>
    rw [if_pos hl.1] at h
    obtain rfl := Except.ok.inj h
    refine hl.remove ?_ fun b _ => ?_
    · exact hpost
    · simp only [List.getLast?_nil, reduceCtorEq, ↓reduceIte]
      rfl
  | append_singleton pre d =>
    have hl' : Chain s.next s.taskListHead (pre ++ d :: a :: post) := by simpa using hl
    rw [if_neg hl'.head_ne] at h
    obtain ⟨prev, hfind, h⟩ := bind_eq_ok.mp h
    obtain rfl : prev = some d := (hl'.find_of_some (ended_eq_ok.mp hfind)).trans hl'.find?_pred
    obtain rfl := Except.ok.inj h
    refine hl.remove ?_ fun b _ => ?_
    · rw [if_neg (by simp)]
      rfl
    · rw [List.getLast?_concat]
      by_cases hb : b = d
      · subst hb
        rw [if_pos rfl, ← hpost, KState.next, KState.modify_task_self]
      · rw [if_neg fun h => hb (Option.some.inj h).symm, KState.next, s.modify_task_of_ne _ hb]
        rfl

/-- The scheduler list stays as it is when the task to take off it is not there. -/
theorem unlinkTask_of_not_mem {order : List ℕ} (hl : Chain s.next s.taskListHead order)
    (ha : a ∉ order) (h : unlinkTask fuel a s = .ok t) : t = s := by
  unfold unlinkTask at h
  rw [if_neg fun hhead => ha (hl.mem_of_head hhead)] at h
  obtain ⟨prev, hfind, h⟩ := bind_eq_ok.mp h
  have hnone : order.find? (fun b => decide (s.next b = some a)) = none := by
    apply List.find?_eq_none.mpr
    intro b hb hnext
    exact ha (hl.mem_of_next hb (of_decide_eq_true hnext))
  obtain rfl : prev = none := (hl.find_of_some (ended_eq_ok.mp hfind)).trans hnone
  exact (Except.ok.inj h).symm

/-- The links along the scheduler list change only where they led to the task that is taken off. -/
theorem unlinkTask_next {order : List ℕ} (hl : Chain s.next s.taskListHead order)
    (h : unlinkTask fuel a s = .ok t) (b : ℕ) : t.next b = s.next b ∨ b ∈ order ∧ s.next b = some a := by
  unfold unlinkTask at h
  split at h
  · obtain rfl := Except.ok.inj h
    exact .inl rfl
  · obtain ⟨prev, hfind, h⟩ := bind_eq_ok.mp h
    cases prev with
    | none =>
      obtain rfl := Except.ok.inj h
      exact .inl rfl
    | some d =>
      obtain rfl := Except.ok.inj h
      by_cases hb : b = d
      · subst hb
        have hpass := find_pass (ended_eq_ok.mp hfind)
        have hmem : order.find? (fun c => decide (s.next c = some a)) = some b :=
          (hl.find_of_some (ended_eq_ok.mp hfind)).symm
        exact .inr ⟨List.mem_of_find?_eq_some hmem, of_decide_eq_true hpass⟩
      · rw [KState.next, s.modify_task_of_ne _ hb]
        exact .inl rfl

/-- Taking a task off the scheduler list changes no other field. -/
theorem unlinkTask_field {α : Type} (h : unlinkTask fuel a s = .ok t) (g : Task → α)
    (hg : ∀ x n, g { x with next := n } = g x) (b : ℕ) : g (t.task b) = g (s.task b) := by
  unfold unlinkTask at h
  split at h
  · obtain rfl := Except.ok.inj h
    rfl
  · obtain ⟨prev, -, h⟩ := bind_eq_ok.mp h
    cases prev with
    | none =>
      obtain rfl := Except.ok.inj h
      rfl
    | some d =>
      obtain rfl := Except.ok.inj h
      exact s.modify_field d b _ g (hg _ _)

/-- `task_reap` changes nothing but links. -/
theorem taskReap_field {α : Type} (h : taskReap fuel a s = .ok t) (g : Task → α)
    (hg : ∀ x p sb ch n, g { x with parent := p, sibling := sb, children := ch, next := n } = g x) (b : ℕ) :
    g (t.task b) = g (s.task b) := by
  obtain ⟨u, hu, h⟩ := bind_eq_ok.mp h
  obtain ⟨v, hv, h⟩ := bind_eq_ok.mp h
  obtain rfl := Except.ok.inj h
  obtain ⟨tr, hr⟩ := releaseTask_eq a v
  have hlinked : g (u.task b) = g (s.task b) := (linksOnly_detach hu).field g fun x p sb ch => hg x p sb ch x.next
  rw [hr]
  exact (unlinkTask_field hv g (fun x n => hg x x.parent x.sibling x.children n) b).trans hlinked

/-- The scheduler list behind `task_reap`; all other links but those to the reaped task stay. -/
theorem taskReap_order {order : List ℕ} (hl : Chain s.next s.taskListHead order) (h : taskReap fuel a s = .ok t) :
    Chain t.next t.taskListHead (order.erase a) ∧
      (∀ b, t.next b = s.next b ∨ b ∈ order ∧ s.next b = some a) ∧
      ∀ {α : Type} (g : Task → α), (∀ x p sb ch n, g { x with parent := p, sibling := sb, children := ch, next := n } = g x) →
        ∀ b, g (t.task b) = g (s.task b) := by
  have hfield : ∀ {α : Type} (g : Task → α),
      (∀ x p sb ch n, g { x with parent := p, sibling := sb, children := ch, next := n } = g x) →
        ∀ b, g (t.task b) = g (s.task b) := fun g hg => taskReap_field h g hg
  obtain ⟨u, hu, h⟩ := bind_eq_ok.mp h
  obtain ⟨v, hv, h⟩ := bind_eq_ok.mp h
  obtain rfl := Except.ok.inj h
  obtain ⟨tr, hr⟩ := releaseTask_eq a v
  rw [hr] at hfield ⊢
  have hlinks := linksOnly_detach hu
  rw [← hlinks.next, ← hlinks.globals.head] at hl
  have hnext := unlinkTask_next hl hv
  rw [hlinks.next] at hnext
  refine ⟨?_, hnext, hfield⟩
  change Chain v.next v.taskListHead (order.erase a)
  by_cases ha : a ∈ order
  · obtain ⟨before, behind, rfl⟩ := List.append_of_mem ha
    rw [hl.erase_middle]
    exact unlinkTask_chain hl hv
  · rw [List.erase_of_not_mem ha]
    obtain rfl := unlinkTask_of_not_mem hl ha hv
    exact hl

/-- The three links of the tree behind `task_reap`. -/
theorem taskReap_child (hk : Chain s.sibling (s.task p).children (pre ++ a :: post))
    (hp : (s.task a).parent = some p) (h : taskReap fuel a s = .ok t) : ChildRemoved p a pre post s t := by
  obtain ⟨u, hu, h⟩ := bind_eq_ok.mp h
  obtain ⟨v, hv, h⟩ := bind_eq_ok.mp h
  obtain rfl := Except.ok.inj h
  rw [detach, hp] at hu
  have hremoved := childRemoved hk hu
  obtain ⟨tr, hr⟩ := releaseTask_eq a v
  have hfield : ∀ {α : Type} (g : Task → α), (∀ x n, g { x with next := n } = g x) →
      ∀ b, g ((releaseTask a v).task b) = g (u.task b) := by
    intro α g hg b
    rw [hr]
    exact unlinkTask_field hv g hg b
  refine ⟨fun b => ?_, fun b => ?_, fun b => ?_⟩
  · rw [hfield Task.parent fun _ _ => rfl]
    exact hremoved.parent b
  · rw [hfield Task.children fun _ _ => rfl]
    exact hremoved.children b
  · exact (hfield Task.sibling (fun _ _ => rfl) b).trans (hremoved.sibling b)

/-- A reaped task leaves the list it is in. -/
theorem Kin.reaped (h : Kin s kids) (hrun : taskReap fuel a s = .ok t) : Kin t (fun q => (kids q).erase a) ∧
      (∀ b, (t.task b).parent = if b = a then none else (s.task b).parent) ∧
      ∀ b, (s.task a).parent ≠ some b → (t.task b).children = (s.task b).children := by
  have hrest := taskReap_rest hrun
  obtain ⟨u, hu, hrun⟩ := bind_eq_ok.mp hrun
  obtain ⟨v, hv, hrun⟩ := bind_eq_ok.mp hrun
  obtain rfl := Except.ok.inj hrun
  obtain ⟨tr, hr⟩ := releaseTask_eq a v
  have hdetach := detach_links hu
  have hlinks := linksOnly_detach hu
  have hkin := h.detached hu
  have htask : (releaseTask a v).task = v.task := by rw [hr]
  generalize releaseTask a v = t at hrest htask
  have hsame : ∀ {α : Type} (g : Task → α), (∀ x n, g { x with next := n } = g x) →
      ∀ b, g (t.task b) = g (u.task b) := by
    intro α g hg b
    rw [htask]
    exact unlinkTask_field hv g hg b
  have hsib : t.sibling = u.sibling := funext (hsame Task.sibling fun _ _ => rfl)
  have hlive : ∀ q ∈ t.live, q ∈ u.live := by
    intro q hq
    rw [hrest] at hq
    rw [hlinks.globals.live]
    exact Finset.mem_of_mem_erase hq
  refine ⟨⟨fun q hq => ?_, fun q hq b hb => ?_⟩, fun b => ?_, fun b hb => ?_⟩
  · rw [hsib, hsame Task.children fun _ _ => rfl]
    exact hkin.chain q (hlive q hq)
  · obtain ⟨hbl, hbp⟩ := hkin.child q (hlive q hq) b hb
    have hba : b ≠ a := by
      rintro rfl
      rw [(hdetach b).1, if_pos rfl] at hbp
      cases hbp
    rw [hsame Task.parent fun _ _ => rfl]
    refine ⟨?_, hbp⟩
    rw [hrest]
    exact Finset.mem_erase.mpr ⟨hba, hlinks.globals.live ▸ hbl⟩
  · rw [hsame Task.parent fun _ _ => rfl]
    exact (hdetach b).1
  · rw [hsame Task.children fun _ _ => rfl]
    exact (hdetach b).2.1.resolve_right fun hp => hb hp.1

end HekaOS.Tasks
