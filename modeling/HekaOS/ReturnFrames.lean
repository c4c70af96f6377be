import HekaOS.SignalFrames

/-!
# Frames that return to Ring 3

A user task starts with the frame that `spawn_user` builds. Every later frame was pushed by a
trap from Ring 3, and on its way back a system call, a fork, a signal or `sys_sigreturn` may have
edited it. None of them returns to Ring 3 with more privilege than the task started with.
-/

namespace HekaOS.Tasks
open MachineWord KernelMemory ByteMemory

variable {f g : TrapFrame} {s : KState}

/-- The interrupt flag and the I/O privilege level in `eflags`. -/
def eflagsIf : ℕ := 0x200

def eflagsIopl : ℕ := 0x3000

/-- The frame with which `spawn_user` starts a task. -/
def startupFrame : TrapFrame where
  ds := 0x2B
  edi := 0
  esi := 0
  ebp := 0
  espSaved := 0
  ebx := 0
  edx := 0
  ecx := 0
  eax := 0
  intNo := 0
  errCode := 0
  eip := userCodeBase
  cs := 0x23
  eflags := 0x202
  userEsp := userStackTop
  userSs := 0x2B

/-- The frame of the child in the copied kernel stack of `task_fork`. -/
def forkFrame (frame : TrapFrame) : TrapFrame := { frame with eax := 0 }

/-- What the CPU pushes when code trapped that was entered with the frame `f`: in Ring 3 without
I/O privilege it can change neither its ring nor the interrupt flag nor the privilege level. -/
def TrapFrom (f g : TrapFrame) : Prop :=
  f.cs = 0x23 → f.eflags &&& eflagsIopl = 0 →
    g.cs = 0x23 ∧ g.userSs &&& 3 = 3 ∧ g.eflags &&& eflagsIf = f.eflags &&& eflagsIf ∧
      g.eflags &&& eflagsIopl = f.eflags &&& eflagsIopl

/-- The frames of a user task, and of the tasks it forks, when they are about to be restored.
The registers, the memory and the state of the kernel at each step are arbitrary. -/
inductive ReturnFrame : TrapFrame → Prop where
  | startup : ReturnFrame startupFrame
  | trap {f g : TrapFrame} (s : KState) (hf : ReturnFrame f) (hg : TrapFrom f g) :
      ReturnFrame (signalCheckAndDeliver g s).1
  | syscall {f g : TrapFrame} (env : SysEnv) (s t : KState) (hf : ReturnFrame f) (hg : TrapFrom f g)
      (hret : ∃ v, (syscallDispatch env g s).1 = .returned v) :
      ReturnFrame (signalCheckAndDeliver (syscallDispatch env g s).2.1 t).1
  | fork {f g : TrapFrame} (s : KState) (hf : ReturnFrame f) (hg : TrapFrom f g)
      (hfork : syscallTable g.eax = some .fork) : ReturnFrame (signalCheckAndDeliver (forkFrame g) s).1

/-- The frame returns to Ring 3 with interrupts enabled and without I/O privilege. -/
structure Unprivileged (f : TrapFrame) : Prop where
  cs : f.cs = 0x23
  userSs : f.userSs &&& 3 = 3
  enabled : f.eflags &&& eflagsIf = eflagsIf
  iopl : f.eflags &&& eflagsIopl = 0

namespace Unprivileged

theorem trap (h : Unprivileged f) (hg : TrapFrom f g) : Unprivileged g := by
  obtain ⟨hcs, hss, hif, hiopl⟩ := hg h.cs h.iopl
  exact ⟨hcs, hss, hif.trans h.enabled, hiopl.trans h.iopl⟩

/-- Delivery changes `eip`, the stack pointer and the direction flag. -/
theorem deliver (h : Unprivileged f) (s : KState) : Unprivileged (signalCheckAndDeliver f s).1 := by
  have hmask : ∀ bit : ℕ, (wordSize - 1 - 2 ^ 10) &&& bit = bit →
      f.eflags &&& (wordSize - 1 - 2 ^ 10) &&& bit = f.eflags &&& bit := by
    intro bit hbit
    rw [Nat.land_assoc, hbit]
  unfold signalCheckAndDeliver
  split
  · exact h
  split
  · exact h
  · refine ⟨h.cs, h.userSs, ?_, ?_⟩
    · exact (hmask eflagsIf (by decide)).trans h.enabled
    · exact (hmask eflagsIopl (by decide)).trans h.iopl

theorem sigreturn (f : TrapFrame) (s : KState) : Unprivileged (sysSigreturn f s).1 := by
  have hmask : ∀ x bit : ℕ, 0xCD5 &&& bit = 0 → ((x &&& 0xCD5) ||| 0x202) &&& bit = 0x202 &&& bit := by
    intro x bit hbit
    rw [Nat.and_or_distrib_right, Nat.land_assoc, hbit, Nat.and_zero, Nat.zero_or]
  have hss : (0x2B : ℕ) &&& 3 = 3 := by decide
  refine ⟨rfl, hss, ?_, ?_⟩
  · exact hmask _ eflagsIf (by decide)
  · exact hmask _ eflagsIopl (by decide)

theorem setEax {r : Outcome × TrapFrame × KState} (h : Unprivileged r.2.1) : Unprivileged (setEax r).2.1 := by
  unfold Tasks.setEax
  split
  · exact ⟨h.cs, h.userSs, h.enabled, h.iopl⟩
  · exact h

/-- A system call sets `eax`, and `sys_sigreturn` builds a frame of its own. -/
theorem syscall (h : Unprivileged f) (env : SysEnv) (s : KState) : Unprivileged (syscallDispatch env f s).2.1 := by
  unfold syscallDispatch
  split
  · exact ⟨h.cs, h.userSs, h.enabled, h.iopl⟩
  · rename_i n _
    apply setEax
    cases n with
    | sigreturn => exact sigreturn f s
    | _ => exact h

theorem fork (h : Unprivileged f) : Unprivileged (forkFrame f) := ⟨h.cs, h.userSs, h.enabled, h.iopl⟩

end Unprivileged

/-- No frame that a user task or its children return with has gained privilege. -/
theorem return_frames_unprivileged (f : TrapFrame) (h : ReturnFrame f) : Unprivileged f := by
  induction h with
  | startup => exact ⟨rfl, by decide, by decide, by decide⟩
  | trap s _ hg ih => exact (ih.trap hg).deliver s
  | syscall env s t _ hg _ ih => exact ((ih.trap hg).syscall env s).deliver t
  | fork s _ hg _ ih => exact (ih.trap hg).fork.deliver s

/-- The memory from which `sys_sigreturn` restores is all ones. -/
theorem return_frames_unprivileged_forged :
    let g := { startupFrame with eax := sysSigreturnNum }
    let env : SysEnv := ⟨0, 0, ⟨none, 0, false⟩, none, fun _ s => s⟩
    let f := (syscallDispatch env g (taskInit (fun _ => {}) fun _ => 255)).2.1
    f.eip = 2 ^ 32 - 1 ∧ Unprivileged (signalCheckAndDeliver f (taskInit (fun _ => {}) fun _ => 0)).1 := by
  intro g env f
  have hss : (0x2B : ℕ) &&& 3 = 3 := by decide
  have hg : TrapFrom startupFrame g := fun _ _ => ⟨rfl, hss, rfl, rfl⟩
  have hf : ReturnFrame (signalCheckAndDeliver f (taskInit (fun _ => {}) fun _ => 0)).1 :=
    .syscall env _ _ .startup hg ⟨_, rfl⟩
  exact ⟨by decide +kernel, return_frames_unprivileged _ hf⟩

end HekaOS.Tasks
