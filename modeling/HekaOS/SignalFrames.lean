import HekaOS.Syscall
import HekaOS.ByteMemory

/-!
# Signal frames on the user's stack

A caught signal pushes a frame below the stack pointer of the interrupted code and enters the
handler. The handler returns into a trampoline inside that frame, whose `int 0x80` restores the
frame. Handlers can themselves be interrupted, so a run is a tree: the frames of different
levels do not overlap, and every return restores what its delivery interrupted.
-/

namespace HekaOS.Tasks
open MachineWord KernelMemory ByteMemory

/-- What the CPU and the stub push for code that runs in Ring 3 with room for a signal frame on
its stack. -/
structure Ring3Frame (f : TrapFrame) : Prop where
  words : ∀ w ∈ f.words, w < wordSize
  cs : f.cs = 0x23
  ds : f.ds = 0x2B
  userSs : f.userSs = 0x2B
  eflags : f.eflags &&& (0xCD5 ||| 0x202) = f.eflags
  enabled : f.eflags &&& 0x202 = 0x202
  room : sigframeSize + 16 ≤ f.userEsp

/-- The number that `mov $num, %eax; int $0x80` at an address puts into `eax`. -/
def trampolineCall (m : Memory) (eip : ℕ) : Option ℕ :=
  match loadBytes m eip 7 with
  | [0xb8, b₀, b₁, b₂, b₃, 0xcd, 0x80] => some (wordAt [b₀, b₁, b₂, b₃] 0)
  | _ => none

/-- The end of a handler entered with the stack pointer `usp`: `ret` pops the return address and
the code there makes a system call. The other registers are `regs`. -/
def handlerReturn (env : SysEnv) (usp : ℕ) (regs : TrapFrame) (s : KState) : Option (TrapFrame × KState) :=
  let eip := load32 s.user usp
  match trampolineCall s.user eip with
  | none => none
  | some num =>
    let frame := { regs with eax := num, eip := add32 eip 7, userEsp := add32 usp 4 }
    let r := syscallDispatch env frame { s with interruptFlag := false }
    match r.1 with
    | .returned _ => some r.2
    | _ => none

/-- What a handler does: it ends; code runs, of the handler or of others, and leaves a state; or
a further signal is delivered at a frame, and its handler runs. -/
inductive Handler where
  | ret (regs : TrapFrame)
  | code (after : KState) (rest : Handler)
  | interrupted (f : TrapFrame) (inner rest : Handler)

/-- One delivery of a run: the frame that it interrupted, the frame that was restored, and the
signal frames on the stack, its own first. -/
structure Visit where
  interrupted : TrapFrame
  restored : TrapFrame
  sigframes : List ℕ

/-- The run of a handler: the frame it restores, the state it leaves, and the deliveries on the
way. `outer` are the signal frames above its own. -/
def Handler.run (env : SysEnv) : Handler → ℕ → List ℕ → KState → Option (TrapFrame × KState × List Visit)
  | .ret regs, usp, _, s => (handlerReturn env usp regs s).map fun r => (r.1, r.2, [])
  | .code after rest, usp, outer, _ => rest.run env usp outer after
  | .interrupted f inner rest, usp, outer, s => do
    let entry := signalCheckAndDeliver f s
    let stack := entry.1.userEsp :: usp :: outer
    let r ← inner.run env entry.1.userEsp (usp :: outer) entry.2
    let r' ← rest.run env usp outer r.2.1
    some (r'.1, r'.2.1, ⟨f, r.1, stack⟩ :: (r.2.2 ++ r'.2.2))

/-- A delivery to interrupted code, and the run of its handler. -/
def Handler.visit (env : SysEnv) (h : Handler) (f : TrapFrame) (s : KState) : Option (KState × List Visit) := do
  let entry := signalCheckAndDeliver f s
  let r ← h.run env entry.1.userEsp [] entry.2
  some (r.2.1, ⟨f, r.1, [entry.1.userEsp]⟩ :: r.2.2)

/-- The handler leaves the memory at and above the stack pointer with which it was entered
unchanged, and further signals are delivered when it runs at a lower one. -/
def Handler.WellNested (env : SysEnv) : Handler → ℕ → List ℕ → KState → Prop
  | .ret _, _, _, _ => True
  | .code after rest, usp, outer, s =>
    (∀ x, usp ≤ x → x < wordSize → after.user x = s.user x) ∧ rest.WellNested env usp outer after
  | .interrupted f inner rest, usp, outer, s =>
    Ring3Frame f ∧ f.userEsp ≤ usp ∧ caughtSignal s.current ≠ none ∧
      inner.WellNested env (signalCheckAndDeliver f s).1.userEsp (usp :: outer) (signalCheckAndDeliver f s).2 ∧
      ∀ r ∈ inner.run env (signalCheckAndDeliver f s).1.userEsp (usp :: outer) (signalCheckAndDeliver f s).2,
        rest.WellNested env usp outer r.2.1

/-- The bytes of a signal frame. -/
def sigframeBytes (f : TrapFrame) (signum usp : ℕ) : List ℕ :=
  wordBytes (usp + 72) ++ wordBytes signum ++ f.words.flatMap wordBytes ++
    [0xb8, sysSigreturnNum, 0, 0, 0, 0xcd, 0x80, 0x90]

variable {f g : TrapFrame} {s t : KState} {m : Memory} {usp signum : ℕ}

theorem Ring3Frame.userEsp_lt (h : Ring3Frame f) : f.userEsp < wordSize :=
  h.words _ (by simp [TrapFrame.words])

/-- The signal frame is aligned and lies strictly below the stack pointer. -/
theorem Ring3Frame.sigframeAddr_eq (h : Ring3Frame f) :
    sigframeAddr f.userEsp = (f.userEsp - sigframeSize) / 16 * 16 - 4 := by
  have hlt := h.userEsp_lt
  have hroom := h.room
  have hsub : sub32 f.userEsp sigframeSize = f.userEsp - sigframeSize := sub32_of_le (by omega) hlt
  have hclear : clearLow 4 (f.userEsp - sigframeSize) = (f.userEsp - sigframeSize) / 16 * 16 :=
    clearLow_eq (by decide) (by omega)
  rw [sigframeAddr, hsub, hclear, sub32_of_le (by omega) (by omega)]

theorem Ring3Frame.sigframe_below (h : Ring3Frame f) : sigframeAddr f.userEsp + sigframeSize < f.userEsp := by
  have hroom := h.room
  have hsize : sigframeSize = 80 := rfl
  rw [h.sigframeAddr_eq]
  omega

/-- Masking the flags changes nothing. -/
theorem Ring3Frame.eflags_masked (h : Ring3Frame f) : (f.eflags &&& 0xCD5) ||| 0x202 = f.eflags := by
  have heflags := h.eflags
  rw [Nat.and_or_distrib_left, h.enabled] at heflags
  exact heflags

/-- What `sys_sigreturn` forces upon a frame holds already. -/
theorem Ring3Frame.sanitized (h : Ring3Frame f) : { f with
    cs := 0x23, userSs := 0x2B, ds := 0x2B, eflags := (f.eflags &&& 0xCD5) ||| 0x202 } = f := by
  have hcs := h.cs
  have hds := h.ds
  have hss := h.userSs
  have hflags := h.eflags_masked
  cases f with
  | mk =>
    rw [TrapFrame.mk.injEq]
    exact ⟨hds.symm, rfl, rfl, rfl, rfl, rfl, rfl, rfl, rfl, rfl, rfl, rfl, hcs.symm, hflags, rfl, hss.symm⟩

theorem sigframeBytes_length (f : TrapFrame) (signum usp : ℕ) :
    (sigframeBytes f signum usp).length = sigframeSize := rfl

/-- What a delivery leaves on the stack. -/
theorem deliver_holds (hf : Ring3Frame f) (hc : caughtSignal s.current ≠ none) :
    (signalCheckAndDeliver f s).1.userEsp = sigframeAddr f.userEsp ∧
      (∃ signum, Holds (signalCheckAndDeliver f s).2.user (sigframeAddr f.userEsp)
        (sigframeBytes f signum (sigframeAddr f.userEsp))) ∧
      ∀ x, f.userEsp ≤ x → x < wordSize → (signalCheckAndDeliver f s).2.user x = s.user x := by
  obtain ⟨bit, hbit⟩ := Option.ne_none_iff_exists'.mp hc
  have hring : ¬f.cs &&& 3 ≠ 3 := by
    rw [hf.cs]
    decide
  have hsize : sigframeSize = 80 := rfl
  have hlt := hf.userEsp_lt
  have hbelow := hf.sigframe_below
  rw [signalCheckAndDeliver, if_neg hring, hbit]
  dsimp only [setupUserSigframe, KState.writeUser, KState.access, KState.modify]
  generalize sigframeAddr f.userEsp = usp at hbelow
  have h₈ : add32 usp 8 = usp + 8 := add32_of_lt (by omega)
  have h₄ : add32 usp 4 = usp + 4 := add32_of_lt (by omega)
  have h₇₂ : add32 usp 72 = usp + 72 := add32_of_lt (by omega)
  rw [h₈, h₄, h₇₂]
  generalize hsaved : f.words.flatMap wordBytes = saved
  have hlen : saved.length = 64 := by
    rw [← hsaved]
    rfl
  have hbytes : ∀ b ∈ saved, b < 256 := by
    intro b hb
    rw [← hsaved, List.mem_flatMap] at hb
    obtain ⟨w, -, hb⟩ := hb
    exact wordBytes_lt hb
  have hword : ∀ w, (wordBytes w).length = 4 := fun _ => rfl
  refine ⟨rfl, ⟨signumOf bit, ?_⟩, fun x hx hx' => ?_⟩
  · unfold sigframeBytes
    rw [hsaved, holds_append, holds_append, holds_append]
    refine ⟨⟨⟨?_, ?_⟩, ?_⟩, ?_⟩
    · refine Holds.storeBytes_of_disjoint ?_ (by simp; omega) (.inl (by rw [hword]; omega))
      exact holds_storeBytes (by rw [hword]; omega) fun b hb => wordBytes_lt hb
    · rw [hword]
      refine Holds.storeBytes_of_disjoint ?_ (by simp; omega) (.inl (by rw [hword]; omega))
      refine Holds.storeBytes_of_disjoint ?_ (by rw [hword]; omega) (.inr (by rw [hword]))
      exact holds_storeBytes (by rw [hword]; omega) fun b hb => wordBytes_lt hb
    · have hpos : usp + (wordBytes (usp + 72) ++ wordBytes (signumOf bit)).length = usp + 8 := rfl
      rw [hpos]
      refine Holds.storeBytes_of_disjoint ?_ (by simp; omega) (.inl (by omega))
      refine Holds.storeBytes_of_disjoint ?_ (by rw [hword]; omega) (.inr (by rw [hword]; omega))
      refine Holds.storeBytes_of_disjoint ?_ (by rw [hword]; omega) (.inr (by rw [hword]))
      exact holds_storeBytes (by omega) hbytes
    · have hpos : usp + (wordBytes (usp + 72) ++ wordBytes (signumOf bit) ++ saved).length = usp + 72 := by
        rw [List.length_append, hlen]
        rfl
      rw [hpos]
      refine holds_storeBytes (by simp; omega) fun b hb => ?_
      simp only [sysSigreturnNum, List.mem_cons, List.not_mem_nil, or_false] at hb
      omega
  · have hskip : ∀ (m : Memory) (a : ℕ) (bs : List ℕ), a + bs.length ≤ f.userEsp → storeBytes m a bs x = m x := by
      intro m a bs ha
      rw [storeBytes_apply (by omega), if_neg (by omega)]
    rw [hskip _ _ _ (by simp; omega), hskip _ _ _ (by rw [hword]; omega), hskip _ _ _ (by rw [hword]; omega),
      hskip _ _ _ (by omega)]

/-- A frame is read back from its bytes. -/
theorem ofBytes_words (h : ∀ w ∈ f.words, w < wordSize) : TrapFrame.ofBytes (f.words.flatMap wordBytes) = f := by
  have hword : ∀ i, i < 16 → wordAt (f.words.flatMap wordBytes) i = f.words.getD i 0 :=
    fun i hi => wordAt_flatMap h i hi
  unfold TrapFrame.ofBytes
  rw [hword 0 (by decide), hword 1 (by decide), hword 2 (by decide), hword 3 (by decide), hword 4 (by decide),
    hword 5 (by decide), hword 6 (by decide), hword 7 (by decide), hword 8 (by decide), hword 9 (by decide),
    hword 10 (by decide), hword 11 (by decide), hword 12 (by decide), hword 13 (by decide), hword 14 (by decide),
    hword 15 (by decide)]
  rfl

/-- A handler that ends with its signal frame intact restores what was interrupted. -/
theorem handlerReturn_eq (env : SysEnv) (regs : TrapFrame) (hf : Ring3Frame f)
    (h : Holds s.user (sigframeAddr f.userEsp) (sigframeBytes f signum (sigframeAddr f.userEsp))) :
    ∃ t, handlerReturn env (sigframeAddr f.userEsp) regs s = some (f, t) ∧ t.user = s.user := by
  have hlt := hf.userEsp_lt
  have hsize : sigframeSize = 80 := rfl
  have hbelow := hf.sigframe_below
  generalize sigframeAddr f.userEsp = usp at h hbelow
  unfold sigframeBytes at h
  rw [holds_append, holds_append, holds_append] at h
  obtain ⟨⟨⟨hret, -⟩, hsaved⟩, htramp⟩ := h
  have hpos : usp + (wordBytes (usp + 72) ++ wordBytes signum ++ f.words.flatMap wordBytes).length = usp + 72 := rfl
  have heip : load32 s.user usp = usp + 72 := by
    rw [hret.load32_eq rfl]
    have hzero : wordAt (wordBytes (usp + 72) ++ []) 0 = usp + 72 := wordAt_zero (by omega) []
    rwa [List.append_nil] at hzero
  have hcall : trampolineCall s.user (usp + 72) = some sysSigreturnNum := by
    have hseven : Holds s.user (usp + 72) ([0xb8, sysSigreturnNum, 0, 0, 0, 0xcd, 0x80] ++ [0x90]) := hpos ▸ htramp
    have hload := (holds_append.mp hseven).1.loadBytes_eq (by simp; omega)
    have hload' : loadBytes s.user (usp + 72) 7 = [0xb8, sysSigreturnNum, 0, 0, 0, 0xcd, 0x80] := hload
    rw [trampolineCall, hload']
    rfl
  have hframe : TrapFrame.ofBytes (loadBytes s.user (usp + 8) TrapFrame.size) = f := by
    have hload := hsaved.loadBytes_eq (by simp [TrapFrame.words, wordBytes]; omega)
    have hload' : loadBytes s.user (usp + 8) TrapFrame.size = f.words.flatMap wordBytes := hload
    rw [hload', ofBytes_words hf.words]
  have haddr : sigreturnAddr (add32 usp 4) = usp + 8 := by
    have hfour : add32 usp 4 = usp + 4 := add32_of_lt (by omega)
    rw [sigreturnAddr, hfour, sub32_of_le (by omega) (by omega), Nat.add_sub_cancel, add32_of_lt (by omega)]
  have htable : syscallTable sysSigreturnNum = some .sigreturn := rfl
  refine ⟨KState.access { s with interruptFlag := false } (usp + 8) TrapFrame.size, ?_, rfl⟩
  dsimp only [handlerReturn]
  rw [heip, hcall]
  dsimp only [syscallDispatch]
  rw [htable]
  dsimp only [syscallHandler, sysSigreturn, setEax]
  rw [haddr, hframe, hf.sanitized]

/-- The delivery was undone, and its signal frame lies below the interrupted stack pointer and
below the signal frames of the outer levels. -/
structure Visit.Inverse (v : Visit) : Prop where
  restored : v.restored = v.interrupted
  below : ∃ usp outer, v.sigframes = usp :: outer ∧ usp + sigframeSize < v.interrupted.userEsp
  disjoint : v.sigframes.Pairwise fun inner outer => inner + sigframeSize ≤ outer

theorem Handler.run_restores (env : SysEnv) (h : Handler) {outer : List ℕ} (hf : Ring3Frame f)
    (hholds : Holds s.user (sigframeAddr f.userEsp) (sigframeBytes f signum (sigframeAddr f.userEsp)))
    (hnested : h.WellNested env (sigframeAddr f.userEsp) outer s)
    (houter : (sigframeAddr f.userEsp :: outer).Pairwise fun inner outer => inner + sigframeSize ≤ outer) :
    ∃ t vs, h.run env (sigframeAddr f.userEsp) outer s = some (f, t, vs) ∧
      (∀ x, sigframeAddr f.userEsp ≤ x → x < wordSize → t.user x = s.user x) ∧ ∀ v ∈ vs, v.Inverse := by
  have hbelow := hf.sigframe_below
  have hlt := hf.userEsp_lt
  -- the signal frame survives whatever leaves the memory from it on alone
  have hkept : ∀ u : KState, (∀ x, sigframeAddr f.userEsp ≤ x → x < wordSize → u.user x = s.user x) →
      Holds u.user (sigframeAddr f.userEsp) (sigframeBytes f signum (sigframeAddr f.userEsp)) := by
    intro u hu
    refine hholds.congr fun x hx hx' => hu x hx ?_
    rw [sigframeBytes_length] at hx'
    omega
  induction h generalizing s f signum outer with
  | ret regs =>
    obtain ⟨t, ht, huser⟩ := handlerReturn_eq env regs hf hholds
    refine ⟨t, [], ?_, fun x _ _ => by rw [huser], nofun⟩
    rw [Handler.run, ht]
    rfl
  | code after rest ih =>
    obtain ⟨hsame, hrest⟩ := hnested
    have hholds' := hkept after hsame
    obtain ⟨t, vs, hrun, hmem, hvs⟩ := ih hf hholds' hrest houter hbelow hlt fun u hu =>
      hkept u fun x hx hx' => (hu x hx hx').trans (hsame x hx hx')
    exact ⟨t, vs, hrun, fun x hx hx' => (hmem x hx hx').trans (hsame x hx hx'), hvs⟩
  | interrupted g inner rest ihi ihr =>
    obtain ⟨hg, hgesp, hcaught, hinner, hrest⟩ := hnested
    obtain ⟨hesp, ⟨sig, hpushed⟩, habove⟩ := deliver_holds hg hcaught
    have hgbelow := hg.sigframe_below
    have hglt := hg.userEsp_lt
    rw [hesp] at hinner hrest
    have hstack : (sigframeAddr g.userEsp :: sigframeAddr f.userEsp :: outer).Pairwise
        fun inner outer => inner + sigframeSize ≤ outer := by
      refine List.pairwise_cons.mpr ⟨fun u hu => ?_, houter⟩
      rcases List.mem_cons.mp hu with hu | hu
      · omega
      · have := (List.pairwise_cons.mp houter).1 u hu
        omega
    obtain ⟨t, vs, hrun, hmem, hvs⟩ := ihi hg hpushed hinner hstack hgbelow hglt fun u hu => by
      refine hpushed.congr fun x hx hx' => hu x hx ?_
      rw [sigframeBytes_length] at hx'
      omega
    have hsame : ∀ x, sigframeAddr f.userEsp ≤ x → x < wordSize → t.user x = s.user x := by
      intro x hx hx'
      rw [hmem x (by omega) hx', habove x (by omega) hx']
    obtain ⟨t', vs', hrun', hmem', hvs'⟩ := ihr hf (hkept t hsame) (hrest _ hrun) houter hbelow hlt fun u hu =>
      hkept u fun x hx hx' => (hu x hx hx').trans (hsame x hx hx')
    refine ⟨t', ⟨g, g, sigframeAddr g.userEsp :: sigframeAddr f.userEsp :: outer⟩ :: (vs ++ vs'), ?_,
      fun x hx hx' => (hmem' x hx hx').trans (hsame x hx hx'), fun v hv => ?_⟩
    · simp only [Handler.run, hesp, hrun, hrun', Option.bind_eq_bind, Option.bind_some]
    · rcases List.mem_cons.mp hv with rfl | hv
      · exact ⟨rfl, ⟨_, _, rfl, hgbelow⟩, hstack⟩
      · rcases List.mem_append.mp hv with hv | hv
        · exact hvs v hv
        · exact hvs' v hv

/-- Every return from a handler of a well-nested run restores the frame that its delivery
interrupted, and the signal frames of different levels are disjoint. -/
theorem nested_delivery_inverse (env : SysEnv) (h : Handler) (f : TrapFrame) (s : KState) (hf : Ring3Frame f)
    (hcaught : caughtSignal s.current ≠ none)
    (hnested : h.WellNested env (signalCheckAndDeliver f s).1.userEsp [] (signalCheckAndDeliver f s).2) :
    ∃ t vs, h.visit env f s = some (t, vs) ∧ ∀ v ∈ vs, v.Inverse := by
  obtain ⟨hesp, ⟨sig, hpushed⟩, -⟩ := deliver_holds hf hcaught
  rw [hesp] at hnested
  have hsingle : [sigframeAddr f.userEsp].Pairwise fun inner outer => inner + sigframeSize ≤ outer :=
    List.pairwise_singleton _ _
  obtain ⟨t, vs, hrun, -, hvs⟩ := h.run_restores env hf hpushed hnested hsingle
  refine ⟨t, ⟨f, f, [sigframeAddr f.userEsp]⟩ :: vs, ?_, fun v hv => ?_⟩
  · simp only [Handler.visit, hesp, hrun, Option.bind_eq_bind, Option.bind_some]
  · rcases List.mem_cons.mp hv with rfl | hv
    · exact ⟨rfl, ⟨_, _, rfl, hf.sigframe_below⟩, hsingle⟩
    · exact hvs v hv

/-- The frame of code interrupted by the timer, by its stack pointer. -/
def timerFrame (userEsp : ℕ) : TrapFrame :=
  ⟨0x2B, 1, 2, 3, 4, 5, 6, 7, 8, 0x20, 0, userCodeBase, 0x23, 0x246, userEsp, 0x2B⟩

theorem timerFrame_ring3 {userEsp : ℕ} (h : sigframeSize + 16 ≤ userEsp) (hlt : userEsp < wordSize) :
    Ring3Frame (timerFrame userEsp) := by
  have hflags : (0x246 : ℕ) &&& (0xCD5 ||| 0x202) = 0x246 := by decide
  have henabled : (0x246 : ℕ) &&& 0x202 = 0x202 := by decide
  refine ⟨fun w hw => ?_, rfl, rfl, rfl, hflags, henabled, h⟩
  simp only [timerFrame, TrapFrame.words, userCodeBase, wordSize, List.mem_cons, List.not_mem_nil, or_false] at hw hlt ⊢
  omega

/-- Two signals are pending that the task on the CPU has handlers for. -/
def twoCaught : KState :=
  (taskInit (fun _ => {}) fun _ => 0).modify initTask fun x => { x with
    pendingSignals := sigmask sigint ||| sigmask sigterm
    signalHandlers := fun _ => userCodeBase + 0x100 }

/-- The handler of `SIGINT` is interrupted by that of `SIGTERM`. -/
theorem nested_delivery_inverse_two :
    let h := Handler.interrupted (timerFrame 0xBFFFF000) (.ret (timerFrame 0)) (.ret (timerFrame 0))
    let env : SysEnv := ⟨16, 0, ⟨none, 0, false⟩, none, fun _ s => s⟩
    ((h.visit env (timerFrame userStackTop) twoCaught).map fun r => r.2.length) = some 2 ∧
      ∃ t vs, h.visit env (timerFrame userStackTop) twoCaught = some (t, vs) ∧ ∀ v ∈ vs, v.Inverse := by
  intro h env
  refine ⟨by decide +kernel, nested_delivery_inverse env h _ _ (timerFrame_ring3 (by decide) (by decide))
    (by decide +kernel) ⟨timerFrame_ring3 (by decide) (by decide), by decide +kernel, by decide +kernel, trivial, ?_⟩⟩
  intro r _
  trivial

end HekaOS.Tasks
