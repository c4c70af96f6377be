import HekaOS.TaskFamily
import HekaOS.WaitMachine

/-!
# Taking a zombie off its lists

The search for the link to a zombie goes along a list whose front may grow meanwhile. When it has come
to the store, the list is the one that `task_remove_child` and `task_reap` would leave.
-/

namespace HekaOS.Tasks
open KernelMemory PointerChain

variable {s t : KState} {kids : ℕ → List ℕ} {order l : List ℕ} {first cur pred next : Option ℕ} {p z : ℕ}
  {after : ℕ → Option ℕ} {stage : Unlink}

/-- `z` is on the list, where the search for its link has got to. -/
def Unlink.At (z : ℕ) (l : List ℕ) : Unlink → Prop
  | .head => z ∈ l
  | .walk cur => ∃ pre post, l = pre ++ post ∧ cur = post.head? ∧ z ∈ post.tail
  | .load none => ∃ post, l = z :: post
  | .load (some a) => ∃ pre post, l = pre ++ a :: z :: post
  | .store none next => ∃ post, l = z :: post ∧ next = post.head?
  | .store (some a) next => ∃ pre post, l = pre ++ a :: z :: post ∧ next = post.head?

namespace Unlink.At

theorem mem (h : stage.At z l) : z ∈ l := by
  match stage, h with
  | .head, h => exact h
  | .walk _, ⟨pre, post, hl, _, hz⟩ => exact hl ▸ List.mem_append_right pre (List.mem_of_mem_tail hz)
  | .load none, ⟨post, hl⟩ => exact hl ▸ List.mem_cons_self
  | .load (some a), ⟨pre, post, hl⟩ =>
    exact hl ▸ List.mem_append_right pre (List.mem_cons_of_mem a List.mem_cons_self)
  | .store none _, ⟨post, hl, _⟩ => exact hl ▸ List.mem_cons_self
  | .store (some a) _, ⟨pre, post, hl, _⟩ =>
    exact hl ▸ List.mem_append_right pre (List.mem_cons_of_mem a List.mem_cons_self)

/-- What is put in front of the list does no harm unless the head of the list is about to be replaced. -/
theorem append (h : stage.At z l) {new : List ℕ} (hnew : stage.Heads → new = []) : stage.At z (new ++ l) := by
  match stage, h with
  | .head, h => exact List.mem_append_right new h
  | .walk _, ⟨pre, post, hl, hcur, hz⟩ => exact ⟨new ++ pre, post, by rw [hl, List.append_assoc], hcur, hz⟩
  | .load none, h => exact hnew trivial ▸ h
  | .load (some a), ⟨pre, post, hl⟩ => exact ⟨new ++ pre, post, by rw [hl, List.append_assoc]⟩
  | .store none _, h => exact hnew trivial ▸ h
  | .store (some a) _, ⟨pre, post, hl, hnext⟩ => exact ⟨new ++ pre, post, by rw [hl, List.append_assoc], hnext⟩

theorem startWalk (hc : Chain after first l) (hz : z ∈ l) :
    (first = some z → (Unlink.load none).At z l) ∧ (first ≠ some z → (Unlink.walk first).At z l) := by
  cases l with
  | nil => exact nomatch hz
  | cons a l =>
    obtain rfl := hc.1
    constructor
    · intro ha
      obtain rfl := Option.some.inj ha
      exact ⟨l, rfl⟩
    · intro ha
      refine ⟨[], a :: l, rfl, rfl, (List.mem_cons.mp hz).resolve_left ?_⟩
      rintro rfl
      exact ha rfl

theorem walkOn (hc : Chain after first l) (h : (Unlink.walk cur).At z l) : ∃ a, cur = some a ∧
    (after a = some z → (Unlink.load (some a)).At z l) ∧ (after a ≠ some z → (Unlink.walk (after a)).At z l) := by
  obtain ⟨pre, post, rfl, rfl, hz⟩ := h
  cases post with
  | nil => exact nomatch hz
  | cons a post =>
    have hnext : after a = post.head? := (Chain.suffix hc).2.head?_eq
    have hz' : z ∈ post := hz
    refine ⟨a, rfl, fun ha => ?_, fun ha => ?_⟩
    · obtain ⟨post, rfl⟩ : ∃ post', post = z :: post' := List.head?_eq_some_iff.mp (hnext.symm.trans ha)
      exact ⟨pre, post, rfl⟩
    · refine ⟨pre ++ [a], post, by rw [List.append_assoc, List.singleton_append], hnext, ?_⟩
      cases post with
      | nil => exact nomatch hz'
      | cons b post =>
        refine (List.mem_cons.mp hz').resolve_left ?_
        rintro rfl
        exact ha hnext

theorem loadNext (hc : Chain after first l) (h : (Unlink.load pred).At z l) :
    (Unlink.store pred (after z)).At z l := by
  cases pred with
  | none =>
    obtain ⟨post, rfl⟩ := h
    exact ⟨post, rfl, hc.2.head?_eq⟩
  | some a =>
    obtain ⟨pre, post, rfl⟩ := h
    exact ⟨pre, post, rfl, (Chain.suffix hc).2.2.head?_eq⟩

end Unlink.At

/-- The stores on the list of children are those of `task_remove_child`. -/
theorem removeChild_eq (hk : Chain s.sibling (s.task p).children l) (h : (Unlink.store pred next).At z l) :
    taskRemoveChild (l.length + 1) p z s =
      .ok (((Links.siblings p).relink s pred next).modify z fun x => { x with sibling := none, parent := none }) := by
  suffices hunlink : unlinkChild (l.length + 1) p z s = .ok ((Links.siblings p).relink s pred next) by
    rw [taskRemoveChild, hunlink]
    rfl
  cases pred with
  | none =>
    obtain ⟨post, rfl, rfl⟩ := h
    have hnext : s.sibling z = post.head? := hk.2.head?_eq
    rw [unlinkChild, if_pos hk.1, hnext]
    rfl
  | some a =>
    obtain ⟨pre, post, rfl, rfl⟩ := h
    have hnext : s.sibling z = post.head? := (Chain.suffix hk).2.2.head?_eq
    rw [unlinkChild, if_neg hk.head_ne, hk.find_eq (Nat.lt_succ_self _), hk.find?_pred, hnext]
    rfl

/-- The stores on the list of the scheduler, and what follows them, are the second half of `task_reap`. -/
theorem taskReap_unlinked (hl : Chain s.next s.taskListHead l) (h : (Unlink.store pred next).At z l)
    (hparent : (s.task z).parent = none) :
    taskReap (l.length + 1) z s = .ok (releaseTask z (Links.tasks.relink s pred next)) := by
  have hdetach : detach (l.length + 1) z s = .ok s := by
    rw [detach, hparent]
  suffices hunlink : unlinkTask (l.length + 1) z s = .ok (Links.tasks.relink s pred next) by
    exact bind_eq_ok.mpr ⟨s, hdetach, bind_eq_ok.mpr ⟨_, hunlink, rfl⟩⟩
  cases pred with
  | none =>
    obtain ⟨post, rfl, rfl⟩ := h
    have hnext : s.next z = post.head? := hl.2.head?_eq
    rw [unlinkTask, if_pos hl.1, hnext]
    rfl
  | some a =>
    obtain ⟨pre, post, rfl, rfl⟩ := h
    have hnext : s.next z = post.head? := (Chain.suffix hl).2.2.head?_eq
    rw [unlinkTask, if_neg hl.head_ne, hl.find_eq (Nat.lt_succ_self _), hl.find?_pred, hnext]
    rfl

/-- `z` is off the list of its parent. -/
structure Detached (p z : ℕ) (s t : KState) : Prop where
  rest : t = { s with task := t.task }
  parent : ∀ b, (t.task b).parent = if b = z then none else (s.task b).parent
  state : ∀ b, (t.task b).state = (s.task b).state

/-- The first half of a reap. -/
theorem Clan.detached (h : Clan s kids order) (hp : p ∈ s.live) (hat : (Unlink.store pred next).At z (kids p))
    (ht : t = ((Links.siblings p).relink s pred next).modify z fun x => { x with sibling := none, parent := none }) :
    Clan t (Function.update kids p ((kids p).erase z)) order ∧ Detached p z s t := by
  have hchain := h.kin.chain p hp
  have hz : z ∈ kids p := hat.mem
  have hrun := removeChild_eq hchain hat
  rw [← ht] at hrun
  obtain ⟨pre, post, hkids⟩ := List.append_of_mem hz
  have herase : (kids p).erase z = pre ++ post := by
    rw [hkids] at hchain ⊢
    exact hchain.erase_middle
  have hlinks := linksOnly_removeChild hrun
  have hremoved := childRemoved (hkids ▸ hchain) hrun
  have hdetached : Detached p z s t := ⟨hlinks.rest, hremoved.parent, fun b => hlinks.state⟩
  have hkin := h.kin.removeChild hp hkids hrun
  rw [← herase] at hkin
  have hzi : initTask ≠ z := fun he => h.init_not_mem hp (he ▸ hz)
  refine ⟨⟨⟨hkin, ?_, ?_, ?_, ?_, ?_, ?_, ?_, ?_⟩, ?_⟩, hdetached⟩
  · rw [hlinks.next, hlinks.globals.head]
    exact h.list
  · rw [hlinks.globals.live]
    exact h.mem
  · rw [hlinks.globals.live]
    exact h.init
  · rw [hlinks.globals.live]
    exact h.kthreadd
  · rw [hremoved.parent, if_neg hzi]
    exact h.orphan
  · rw [hlinks.state]
    exact h.idle
  · rw [hlinks.globals.currentTask]
    exact h.current
  · rw [hlinks.rest]
    exact h.settled
  · rw [hlinks.rest]
    exact h.initProc

/-- The second half of a reap. -/
theorem Clan.freed (h : Clan s kids order) (hat : (Unlink.store pred next).At z order)
    (hparent : (s.task z).parent = none) (hkids : ∀ q ∈ s.live, z ∉ kids q) (hzi : z ≠ initTask)
    (hinit : some z ≠ s.initProc) (hzombie : (s.task z).state = .zombie) (hcur : z ≠ s.currentTask)
    (ht : t = releaseTask z (Links.tasks.relink s pred next)) :
    Clan t kids (order.erase z) ∧ t.live = s.live.erase z ∧ t.initProc = s.initProc ∧ t.currentTask = s.currentTask ∧
      (∀ b, (t.task b).state = (s.task b).state) ∧ ∀ b ≠ z, (t.task b).parent = (s.task b).parent := by
  have hrun := taskReap_unlinked h.list hat hparent
  rw [← ht] at hrun
  have hrest := taskReap_rest hrun
  have hroll := h.toRoll.reaped hzi hzombie hcur hrun
  obtain ⟨-, hparents, -⟩ := h.kin.reaped hrun
  have hlive : t.live = s.live.erase z := by rw [hrest]
  have hinit' : t.initProc = s.initProc := by rw [hrest]
  refine ⟨⟨{ hroll with kin := hroll.kin.congr fun q hq => ?_ }, fun i hi => ?_⟩, hlive, hinit', by rw [hrest],
    fun b => taskReap_field hrun Task.state (fun _ _ _ _ _ => rfl) b, fun b hb => by rw [hparents, if_neg hb]⟩
  · rw [hlive] at hq
    exact (List.erase_of_not_mem (hkids q (Finset.mem_of_mem_erase hq))).symm
  · rw [hinit'] at hi
    rw [hlive]
    exact Finset.mem_erase.mpr ⟨fun he => hinit (he ▸ hi.symm), h.initProc i hi⟩

end HekaOS.Tasks
