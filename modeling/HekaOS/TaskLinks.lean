import HekaOS.Task

/-!
# Which fields an operation touches

Framing for the functions of `task.c`: the genealogy helpers change only the three links of
the tree, `LinksOnly`; a field that is not a link is found unchanged behind them.
-/

namespace HekaOS.Tasks
open KernelMemory PointerChain

variable {s t u : KState} {a c p r fuel n : ℕ}

/-- The states agree up to the links `parent`, `children` and `sibling` of the tasks. -/
structure LinksOnly (s t : KState) : Prop where
  rest : t = { s with task := t.task }
  task : ∀ a, ∃ p sb ch, t.task a = { s.task a with parent := p, sibling := sb, children := ch }

theorem LinksOnly.refl (s : KState) : LinksOnly s s := ⟨rfl, fun _ => ⟨_, _, _, rfl⟩⟩

theorem LinksOnly.trans (h₁ : LinksOnly s t) (h₂ : LinksOnly t u) : LinksOnly s u := by
  refine ⟨?_, fun a => ?_⟩
  · rw [h₂.rest, h₁.rest]
  · obtain ⟨p, sb, ch, h⟩ := h₁.task a
    obtain ⟨p', sb', ch', h'⟩ := h₂.task a
    exact ⟨p', sb', ch', by rw [h', h]⟩

/-- A field that is not a link survives. -/
theorem LinksOnly.field {α : Type} (h : LinksOnly s t) (g : Task → α)
    (hg : ∀ x p sb ch, g { x with parent := p, sibling := sb, children := ch } = g x) :
    g (t.task a) = g (s.task a) := by
  obtain ⟨p, sb, ch, h⟩ := h.task a
  rw [h, hg]

theorem LinksOnly.state (h : LinksOnly s t) : (t.task a).state = (s.task a).state :=
  h.field Task.state fun _ _ _ _ => rfl

theorem LinksOnly.next (h : LinksOnly s t) : t.next = s.next :=
  funext fun _ => h.field Task.next fun _ _ _ _ => rfl

theorem linksOnly_modify {f : Task → Task}
    (hf : ∀ x, ∃ p sb ch, f x = { x with parent := p, sibling := sb, children := ch }) :
    LinksOnly s (s.modify a f) := by
  refine ⟨rfl, fun b => ?_⟩
  by_cases hb : b = a
  · subst hb
    rw [s.modify_task_self]
    exact hf _
  · rw [s.modify_task_of_ne f hb]
    exact ⟨_, _, _, rfl⟩

theorem linksOnly_addChild : LinksOnly s (taskAddChild p c s) := by
  have h : ∀ (a : ℕ) (v : KState) (f : Task → Task),
      (∀ x, ∃ p sb ch, f x = { x with parent := p, sibling := sb, children := ch }) →
        LinksOnly v (v.modify a f) := fun _ _ _ hf => linksOnly_modify hf
  dsimp only [taskAddChild]
  exact ((h c s _ fun _ => ⟨_, _, _, rfl⟩).trans (h c _ _ fun _ => ⟨_, _, _, rfl⟩)).trans
    (h p _ _ fun _ => ⟨_, _, _, rfl⟩)

theorem linksOnly_unlinkChild (h : unlinkChild fuel p c s = .ok t) : LinksOnly s t := by
  dsimp only [unlinkChild] at h
  split at h
  · obtain rfl := Except.ok.inj h
    exact linksOnly_modify fun _ => ⟨_, _, _, rfl⟩
  · obtain ⟨cur, -, h⟩ := bind_eq_ok.mp h
    cases cur with
    | none =>
      obtain rfl := Except.ok.inj h
      exact .refl _
    | some a =>
      obtain rfl := Except.ok.inj h
      exact linksOnly_modify fun _ => ⟨_, _, _, rfl⟩

theorem linksOnly_removeChild (h : taskRemoveChild fuel p c s = .ok t) : LinksOnly s t := by
  obtain ⟨u, hu, h⟩ := bind_eq_ok.mp h
  obtain rfl := Except.ok.inj h
  exact (linksOnly_unlinkChild hu).trans (linksOnly_modify fun _ => ⟨_, _, _, rfl⟩)

theorem linksOnly_detach (h : detach fuel c s = .ok t) : LinksOnly s t := by
  unfold detach at h
  split at h
  · exact linksOnly_removeChild h
  · obtain rfl := Except.ok.inj h
    exact .refl _

theorem linksOnly_reparent (h : taskReparent fuel c r s = .ok t) : LinksOnly s t := by
  obtain ⟨u, hu, h⟩ := bind_eq_ok.mp h
  obtain rfl := Except.ok.inj h
  exact (linksOnly_detach hu).trans linksOnly_addChild

theorem linksOnly_orphan (h : orphanChildren fuel a r n s = .ok t) : LinksOnly s t := by
  induction n generalizing s with
  | zero => exact nomatch h
  | succ n ih =>
    rw [orphanChildren] at h
    split at h
    · obtain rfl := Except.ok.inj h
      exact .refl _
    · obtain ⟨u, hu, h⟩ := bind_eq_ok.mp h
      exact (linksOnly_reparent hu).trans (ih h)

/-- Joining the scheduler list changes no other field. -/
theorem linkTask_field {α : Type} (g : Task → α) (hg : ∀ x n, g { x with next := n } = g x) :
    g ((linkTask c s).task a) = g (s.task a) := by
  by_cases ha : a = c
  · subst ha
    have hself : (linkTask a s).task a = { s.task a with next := s.taskListHead } :=
      Function.update_self _ _ _
    rw [hself, hg]
  · rw [linkTask_task_of_ne ha]

/-- The end of a task leaves every field alone but the state, the pending set, the exit code and the
links of the tree. -/
theorem doExit_field {α : Type} {code : ℕ} (h : doExit fuel a code s = .ok t) (g : Task → α)
    (hg : ∀ x st sig e p ch sb, g { x with state := st, pendingSignals := sig, exitCode := e, parent := p, children := ch, sibling := sb } = g x)
    (b : ℕ) : g (t.task b) = g (s.task b) := by
  obtain ⟨v, hv, h⟩ := bind_eq_ok.mp h
  obtain rfl := Except.ok.inj h
  have hsend : ∀ (r signum : ℕ) (u : KState), g ((kernelSignalSend r signum u).task b) = g (u.task b) :=
    fun r signum u => kernelSignalSend_field g fun x sig st => hg x st sig x.exitCode x.parent x.children x.sibling
  have hbegin : g ((beginExit a code s).task b) = g (s.task b) := by
    dsimp only [beginExit]
    have hcode : g ((s.modify a fun x => { x with exitCode := code }).task b) = g (s.task b) :=
      s.modify_field a b _ g (hg _ _ _ code _ _ _)
    split
    · rw [hsend, hcode]
    · exact hcode
  have hloop : g (v.task b) = g ((beginExit a code s).task b) :=
    (linksOnly_orphan hv).field g fun x p sb ch => hg x x.state x.pendingSignals x.exitCode p ch sb
  have hmark : g ((v.modify a fun x => { x with state := .zombie }).task b) = g (v.task b) :=
    v.modify_field a b _ g (hg _ .zombie _ _ _ _ _)
  unfold notifyParent
  split
  · rw [hsend, hmark, hloop, hbegin]
  · rw [hmark, hloop, hbegin]

end HekaOS.Tasks
