import HekaOS.StackCpu
import HekaOS.TaskModel

/-!
# The stubs of the interrupt handlers

`isr_stubs.s`: every vector pushes its number, and a zero where the CPU pushes no error code, and
the common stub pushes the registers. What stands on the stack is a `struct trap_frame`, whatever
the vector and the ring of the interrupted code; the way back loads the registers from it.
-/

namespace HekaOS.Traps
open MachineWord ByteMemory StackCpu Tasks

variable {c d e : Cpu} {m : Memory} {a vector low : ℕ} {num err : Word} {g : Cpu.Gate} {ss0 : Selector} {esp0 : Word}

/-- The interrupt flag -/
def flagIf : Word := 0x200

/-- `$0x10`, the kernel data segment -/
def kernelDs : Selector := 0x10

def cli (c : Cpu) : Cpu := { c with eflags := c.eflags &&& ~~~flagIf }

/-- `mov %s, %ax`: the upper half of `eax` stays. -/
def movAx (s : Selector) (c : Cpu) : Cpu := { c with eax := (c.eax &&& 0xFFFF0000) ||| s.setWidth 32 }

/-- `mov %ax, %ds`, and so on for `es`, `fs` and `gs` -/
def movSegments (c : Cpu) : Cpu :=
  let s := c.eax.setWidth 16
  { c with ds := s, es := s, fs := s, gs := s }

/-- `.macro ISR_NOERRCODE num` -/
def isrNoerrcode (num : Word) (c : Cpu) : Cpu := ((cli c).push 0).push num

/-- `.macro ISR_ERRCODE num` -/
def isrErrcode (num : Word) (c : Cpu) : Cpu := (cli c).push num

/-- `.macro IRQ num, irq_num` -/
def irq (num : Word) (c : Cpu) : Cpu := ((cli c).push 0).push num

/-- The common stubs up to the call of the handler. -/
def saveContext (c : Cpu) : Cpu :=
  let c := movAx c.ds c.pusha
  movSegments (movAx kernelDs (c.push c.eax))

/-- The common stubs behind the last call. -/
def restoreContext (c : Cpu) : Cpu :=
  let c := movSegments { c.drop 4 with eax := c.top }
  (c.popa.drop 8).iret

/-- The vectors that have a stub, with the code in front of the common one. -/
def stub (vector : ℕ) : Option (Cpu → Cpu) :=
  if vector ∈ [8, 10, 11, 12, 13, 14, 17] then some (isrErrcode (BitVec.ofNat 32 vector))
  else if vector < 20 ∨ vector = 66 ∨ vector = 128 then some (isrNoerrcode (BitVec.ofNat 32 vector))
  else if vector = 32 ∨ vector = 33 then some (irq (BitVec.ofNat 32 vector))
  else none

/-- The exceptions for which the CPU pushes an error code. -/
def pushesErrCode (vector : ℕ) : Bool := vector ∈ [8, 10, 11, 12, 13, 14, 17, 21, 29, 30]

/-- What a pointer to a `struct trap_frame` points to. -/
def frameAt (m : Memory) (a : ℕ) : TrapFrame where
  ds := load32 m a
  edi := load32 m (a + 4)
  esi := load32 m (a + 8)
  ebp := load32 m (a + 12)
  espSaved := load32 m (a + 16)
  ebx := load32 m (a + 20)
  edx := load32 m (a + 24)
  ecx := load32 m (a + 28)
  eax := load32 m (a + 32)
  intNo := load32 m (a + 36)
  errCode := load32 m (a + 40)
  eip := load32 m (a + 44)
  cs := load32 m (a + 48)
  eflags := load32 m (a + 52)
  userEsp := load32 m (a + 56)
  userSs := load32 m (a + 60)

/-- The frame of code that was interrupted with an error code. For code in Ring 0 the last two words
are what that code has on its stack. -/
def savedFrame (vector : ℕ) (err : Word) (c : Cpu) (espSaved : ℕ) : TrapFrame where
  ds := ((c.eax &&& 0xFFFF0000) ||| c.ds.setWidth 32).toNat
  edi := c.edi.toNat
  esi := c.esi.toNat
  ebp := c.ebp.toNat
  espSaved := espSaved
  ebx := c.ebx.toNat
  edx := c.edx.toNat
  ecx := c.ecx.toNat
  eax := c.eax.toNat
  intNo := vector
  errCode := err.toNat
  eip := c.eip.toNat
  cs := c.cs.toNat
  eflags := c.eflags.toNat
  userEsp := if c.cpl = 0 then load32 c.mem c.esp.toNat else c.esp.toNat
  userSs := if c.cpl = 0 then load32 c.mem (c.esp.toNat + 4) else c.ss.toNat

def toSelector (w : ℕ) : Selector := BitVec.ofNat 16 w

/-- The processor behind the stub, if the frame on the stack was `f`. -/
def resumed (f : TrapFrame) (c : Cpu) : Cpu :=
  let outwards := c.cpl < rpl (toSelector f.cs)
  { c with
    eax := BitVec.ofNat 32 f.eax, ecx := BitVec.ofNat 32 f.ecx, edx := BitVec.ofNat 32 f.edx,
    ebx := BitVec.ofNat 32 f.ebx, ebp := BitVec.ofNat 32 f.ebp, esi := BitVec.ofNat 32 f.esi,
    edi := BitVec.ofNat 32 f.edi, eip := BitVec.ofNat 32 f.eip, eflags := BitVec.ofNat 32 f.eflags,
    cs := toSelector f.cs, ds := toSelector f.ds, es := toSelector f.ds, fs := toSelector f.ds,
    gs := toSelector f.ds,
    esp := if outwards then BitVec.ofNat 32 f.userEsp else c.esp + 56,
    ss := if outwards then toSelector f.userSs else c.ss }

/-! ### The way in -/

/-- The words that the CPU and the stub push before the registers. -/
def trapWords (vector : ℕ) (err : Word) (c : Cpu) : List Word :=
  [BitVec.ofNat 32 vector, err, c.eip, c.cs.setWidth 32, c.eflags]

/-- The stack on which the frame of a trap is built, and the words of interrupted code in Ring 3. -/
def kernelEsp (c : Cpu) (esp0 : Word) : Word := if c.cpl = 0 then c.esp else esp0

def outerWords (c : Cpu) : List Word := if c.cpl = 0 then [] else [c.esp, c.ss.setWidth 32]

/-- The registers that are saved as the stub finds them. -/
structure SameRegisters (c d : Cpu) : Prop where
  eax : d.eax = c.eax
  ecx : d.ecx = c.ecx
  edx : d.edx = c.edx
  ebx : d.ebx = c.ebx
  ebp : d.ebp = c.ebp
  esi : d.esi = c.esi
  edi : d.edi = c.edi
  ds : d.ds = c.ds

theorem sameRegisters_interrupt (g : Cpu.Gate) (ss0 : Selector) (esp0 : Word) (c : Cpu) (errCode : Option Word) :
    SameRegisters c (c.interrupt g ss0 esp0 errCode) := by
  have hstack : SameRegisters c (c.onHandlerStack g ss0 esp0) := by
    unfold Cpu.onHandlerStack
    split <;> constructor <;> rfl
  cases errCode <;> constructor <;> simp only [Cpu.interrupt, push_eax, push_ecx, push_edx, push_ebx, push_ebp, push_esi,
    push_edi, push_ds, hstack.eax, hstack.ecx, hstack.edx, hstack.ebx, hstack.ebp, hstack.esi, hstack.edi, hstack.ds]

theorem sameRegisters_stub {code : Cpu → Cpu} (hstub : stub vector = some code) (h : SameRegisters c d) :
    SameRegisters c (code d) := by
  have hcli : ∀ v, SameRegisters c ((cli d).push v) := fun v =>
    ⟨h.eax, h.ecx, h.edx, h.ebx, h.ebp, h.esi, h.edi, h.ds⟩
  have hpush : ∀ v w, SameRegisters c (((cli d).push v).push w) := fun v w =>
    ⟨h.eax, h.ecx, h.edx, h.ebx, h.ebp, h.esi, h.edi, h.ds⟩
  unfold stub at hstub
  split at hstub
  · obtain rfl := Option.some.inj hstub
    exact hcli _
  · split at hstub
    · obtain rfl := Option.some.inj hstub
      exact hpush _ _
    · split at hstub
      · obtain rfl := Option.some.inj hstub
        exact hpush _ _
      · cases hstub

theorem grown_handlerStack (ss0 : Selector) (hg : rpl g.selector = 0) (hroom : 8 ≤ (kernelEsp c esp0).toNat) :
    Grown (outerWords c) { c with esp := kernelEsp c esp0 } (c.onHandlerStack g ss0 esp0) := by
  by_cases hring : c.cpl = 0
  · have hlevel : ¬rpl g.selector < c.cpl := by omega
    rw [Cpu.onHandlerStack, if_neg hlevel, outerWords, if_pos hring]
    refine ⟨?_, trivial, fun x hx => rfl⟩
    rw [kernelEsp, if_pos hring]
    rfl
  · have hlevel : rpl g.selector < c.cpl := by omega
    rw [kernelEsp, if_neg hring] at hroom
    rw [Cpu.onHandlerStack, if_pos hlevel, outerWords, if_neg hring, kernelEsp, if_neg hring]
    have hss : Grown [c.ss.setWidth 32] { c with esp := esp0 }
        (({ c with ss := ss0, esp := esp0 } : Cpu).push (c.ss.setWidth 32)) :=
      (grown_push (c := { c with ss := ss0, esp := esp0 }) (by simpa using by omega)).congr ⟨rfl, rfl⟩ ⟨rfl, rfl⟩
    exact hss.push hroom

theorem stub_lt {code : Cpu → Cpu} (h : stub vector = some code) : vector < 256 := by
  have hsub : ∀ v ∈ [8, 10, 11, 12, 13, 14, 17], v < 256 := by decide
  unfold stub at h
  split at h
  · rename_i hmem
    exact hsub vector hmem
  · split at h
    · omega
    · split at h
      · omega
      · cases h

theorem length_outerWords (c : Cpu) : (outerWords c).length ≤ 2 := by
  unfold outerWords
  split <;> simp

/-- An interrupt that reaches a stub has pushed the same words for every vector. -/
theorem grown_stub {code : Cpu → Cpu} {errCode : Option Word} (ss0 : Selector) (hstub : stub vector = some code)
    (hg : rpl g.selector = 0) (herr : errCode.isSome = pushesErrCode vector) (hroom : 28 ≤ (kernelEsp c esp0).toNat) :
    Grown (trapWords vector (errCode.getD 0) c ++ outerWords c) { c with esp := kernelEsp c esp0 }
      (code (c.interrupt g ss0 esp0 errCode)) := by
  have hlen := length_outerWords c
  have hroom' : ∀ n < 5, 4 * ((outerWords c).length + n + 1) ≤ (kernelEsp c esp0).toNat := fun n hn => by omega
  -- what the CPU pushes
  have hframe := (((grown_handlerStack ss0 hg (by omega)).push (v := c.eflags) (hroom' 0 (by decide))).push
    (v := c.cs.setWidth 32) (hroom' 1 (by decide))).push (v := c.eip) (hroom' 2 (by decide))
  have hpushed : ∀ w, errCode = some w → Grown ([w, c.eip, c.cs.setWidth 32, c.eflags] ++ outerWords c)
      { c with esp := kernelEsp c esp0 } (cli (c.interrupt g ss0 esp0 errCode)) := by
    rintro w rfl
    exact (hframe.push (v := w) (hroom' 3 (by decide))).congr ⟨rfl, rfl⟩ ⟨rfl, rfl⟩
  have hplain : errCode = none → Grown ([c.eip, c.cs.setWidth 32, c.eflags] ++ outerWords c)
      { c with esp := kernelEsp c esp0 } (cli (c.interrupt g ss0 esp0 errCode)) := by
    rintro rfl
    exact hframe.congr ⟨rfl, rfl⟩ ⟨rfl, rfl⟩
  unfold stub at hstub
  split at hstub
  · rename_i hmem
    obtain rfl := Option.some.inj hstub
    have hcode : pushesErrCode vector = true := by
      have hsub : ∀ v ∈ [8, 10, 11, 12, 13, 14, 17], pushesErrCode v = true := by decide
      exact hsub vector hmem
    obtain ⟨w, rfl⟩ := Option.isSome_iff_exists.mp (herr.trans hcode)
    exact (hpushed w rfl).push (hroom' 4 (by decide))
  · rename_i hmem
    have hnone : pushesErrCode vector = false → errCode = none := fun h => by
      rw [h] at herr
      simpa using herr
    have hzero : errCode = none → ∀ n, Grown ([n, 0, c.eip, c.cs.setWidth 32, c.eflags] ++ outerWords c)
        { c with esp := kernelEsp c esp0 } (((cli (c.interrupt g ss0 esp0 errCode)).push 0).push n) :=
      fun h n => ((hplain h).push (hroom' 3 (by decide))).push (hroom' 4 (by decide))
    split at hstub
    · rename_i hvector
      obtain rfl := Option.some.inj hstub
      have hcode : pushesErrCode vector = false := by
        have hsub : ∀ v < 20, v ∉ [8, 10, 11, 12, 13, 14, 17] → pushesErrCode v = false := by decide
        rcases hvector with hlt | rfl | rfl
        · exact hsub vector hlt hmem
        · rfl
        · rfl
      rw [hnone hcode] at hzero ⊢
      exact hzero rfl _
    · split at hstub
      · rename_i hvector
        obtain rfl := Option.some.inj hstub
        have hcode : pushesErrCode vector = false := by rcases hvector with rfl | rfl <;> rfl
        rw [hnone hcode] at hzero ⊢
        exact hzero rfl _
      · cases hstub

/-- The selector of the data segment over the upper half of `eax` -/
def dsWord (c : Cpu) : Word := (c.eax &&& 0xFFFF0000) ||| c.ds.setWidth 32

theorem grown_saveContext (hroom : 36 ≤ c.esp.toNat) :
    Grown [dsWord c, c.edi, c.esi, c.ebp, c.esp, c.ebx, c.edx, c.ecx, c.eax] c (saveContext c) := by
  have hpusha := (grown_pusha (by omega : 32 ≤ c.esp.toNat)).push (v := dsWord c) (by simpa using hroom)
  have hds : (movAx c.ds c.pusha).eax = dsWord c := by simp only [movAx, pusha_eax, dsWord]
  refine hpusha.congr ⟨rfl, rfl⟩ ?_
  rw [saveContext, hds]
  exact ⟨rfl, rfl⟩

/-- A trap up to the call of the handler -/
def trapped (code : Cpu → Cpu) (g : Cpu.Gate) (ss0 : Selector) (esp0 : Word) (errCode : Option Word) (c : Cpu) : Cpu :=
  saveContext (code (c.interrupt g ss0 esp0 errCode))

/-- A trap that reaches a stub, with enough room for the frame. -/
structure Trap (vector : ℕ) (code : Cpu → Cpu) (g : Cpu.Gate) (esp0 : Word) (errCode : Option Word) (c : Cpu) : Prop where
  stub : stub vector = some code
  ring0 : rpl g.selector = 0
  pushes : errCode.isSome = pushesErrCode vector
  room : 64 ≤ (kernelEsp c esp0).toNat

variable {code : Cpu → Cpu} {errCode : Option Word}

namespace Trap

theorem grown (h : Trap vector code g esp0 errCode c) (ss0 : Selector) :
    Grown ([dsWord c, c.edi, c.esi, c.ebp, (code (c.interrupt g ss0 esp0 errCode)).esp, c.ebx, c.edx, c.ecx, c.eax] ++
        (trapWords vector (errCode.getD 0) c ++ outerWords c))
      { c with esp := kernelEsp c esp0 } (trapped code g ss0 esp0 errCode c) := by
  have hroom := h.room
  have hroom' : 28 ≤ (kernelEsp c esp0).toNat := by omega
  have hpushed := grown_stub ss0 h.stub h.ring0 h.pushes hroom'
  have hregs := sameRegisters_stub h.stub (sameRegisters_interrupt g ss0 esp0 c errCode)
  have hlen := length_outerWords c
  have hesp := hpushed.esp
  simp only [trapWords, List.length_append, List.length_cons, List.length_nil] at hesp
  have hsaved := grown_saveContext (c := code (c.interrupt g ss0 esp0 errCode)) (by omega)
  rw [dsWord, hregs.edi, hregs.esi, hregs.ebp, hregs.ebx, hregs.edx, hregs.ecx, hregs.eax, hregs.ds] at hsaved
  exact hpushed.trans hsaved

/-- The stack pointer in front of the registers is the address of the vector. -/
theorem esp_stub (h : Trap vector code g esp0 errCode c) (ss0 : Selector) :
    (code (c.interrupt g ss0 esp0 errCode)).esp.toNat = (trapped code g ss0 esp0 errCode c).esp.toNat + 36 := by
  have hroom := h.room
  have hlen := length_outerWords c
  have hgrown := (h.grown ss0).esp
  have hroom' : 28 ≤ (kernelEsp c esp0).toNat := by omega
  have hpushed := (grown_stub ss0 h.stub h.ring0 h.pushes hroom').esp
  simp only [trapWords, List.length_append, List.length_cons, List.length_nil] at hgrown hpushed
  omega

/-- The frame that a handler finds. -/
theorem frameAt_eq (h : Trap vector code g esp0 errCode c) (ss0 : Selector) :
    frameAt (trapped code g ss0 esp0 errCode c).mem (trapped code g ss0 esp0 errCode c).esp.toNat =
      savedFrame vector (errCode.getD 0) c ((trapped code g ss0 esp0 errCode c).esp.toNat + 36) := by
  have hgrown := h.grown ss0
  have hesp := h.esp_stub ss0
  have hvector : vector < wordSize := (stub_lt h.stub).trans (by decide)
  generalize trapped code g ss0 esp0 errCode c = d at hgrown hesp ⊢
  have hwords := hgrown.words
  have hnum : (BitVec.ofNat 32 vector).toNat = vector := Nat.mod_eq_of_lt hvector
  have hcs : (c.cs.setWidth 32).toNat = c.cs.toNat := BitVec.toNat_setWidth_of_le (by decide)
  have hss : (c.ss.setWidth 32).toNat = c.ss.toNat := BitVec.toNat_setWidth_of_le (by decide)
  simp only [trapWords, List.cons_append, List.nil_append, words_cons, hnum, hcs, hesp, Nat.add_assoc, Nat.reduceAdd] at hwords
  obtain ⟨hds, hedi, hesi, hebp, hsaved, hebx, hedx, hecx, heax, hint, herr, heip, hcs', hflags, houter⟩ := hwords
  have hlast : load32 d.mem (d.esp.toNat + 56) = (if c.cpl = 0 then load32 c.mem c.esp.toNat else c.esp.toNat) ∧
      load32 d.mem (d.esp.toNat + 60) = if c.cpl = 0 then load32 c.mem (c.esp.toNat + 4) else c.ss.toNat := by
    unfold outerWords at houter hgrown
    by_cases hring : c.cpl = 0
    · -- the interrupted code keeps its stack above the frame
      have htop := hgrown.esp
      simp only [if_pos hring, trapWords, List.length_append, List.length_cons, List.length_nil, kernelEsp] at htop
      have hkept : ∀ a, c.esp.toNat ≤ a → load32 d.mem a = load32 c.mem a := fun a ha =>
        load32_congr fun x hx _ => hgrown.rest x (.inr (by simp only [kernelEsp, if_pos hring]; omega))
      rw [if_pos hring, if_pos hring, hkept _ (by omega), hkept _ (by omega)]
      refine ⟨congrArg _ ?_, congrArg _ ?_⟩ <;> omega
    · rw [if_neg hring, words_cons, words_cons, hss] at houter
      rw [if_neg hring, if_neg hring]
      exact ⟨houter.1, houter.2.1⟩
  simp only [frameAt, savedFrame, hds, hedi, hesi, hebp, hsaved, hebx, hedx, hecx, heax, hint, herr, heip, hcs', hflags,
    hlast]
  rfl

end Trap

/-! ### The way back -/

/-- A frame as words on the stack -/
def frameWords (f : TrapFrame) : List Word := f.words.map (BitVec.ofNat 32)

theorem words_frameAt (m : Memory) (a : ℕ) : Words m a (frameWords (frameAt m a)) := by
  have hword : ∀ x, load32 m x = (BitVec.ofNat 32 (load32 m x)).toNat := fun x => (Nat.mod_eq_of_lt load32_lt).symm
  simp only [frameWords, frameAt, TrapFrame.words, List.map_cons, List.map_nil, words_cons, words_nil, and_true]
  exact ⟨hword a, hword _, hword _, hword _, hword _, hword _, hword _, hword _, hword _, hword _, hword _, hword _,
    hword _, hword _, hword _, hword _⟩

theorem frameAt_congr {m' : Memory} (h : ∀ x, a ≤ x → x < a + 64 → m' x = m x) : frameAt m' a = frameAt m a := by
  have hword : ∀ i ≤ 60, load32 m' (a + i) = load32 m (a + i) := fun i hi =>
    load32_congr fun x hx hx' => h x (by omega) (by omega)
  have hfirst : load32 m' a = load32 m a := hword 0 (by decide)
  simp only [frameAt, hfirst, hword _ (by decide : 4 ≤ 60), hword _ (by decide : 8 ≤ 60), hword _ (by decide : 12 ≤ 60),
    hword _ (by decide : 16 ≤ 60), hword _ (by decide : 20 ≤ 60), hword _ (by decide : 24 ≤ 60),
    hword _ (by decide : 28 ≤ 60), hword _ (by decide : 32 ≤ 60), hword _ (by decide : 36 ≤ 60),
    hword _ (by decide : 40 ≤ 60), hword _ (by decide : 44 ≤ 60), hword _ (by decide : 48 ≤ 60),
    hword _ (by decide : 52 ≤ 60), hword _ (by decide : 56 ≤ 60), hword _ (by decide : 60 ≤ 60)]

theorem toSelector_ofNat (w : ℕ) : (BitVec.ofNat 32 w).setWidth 16 = toSelector w := by
  apply BitVec.eq_of_toNat_eq
  simp only [toSelector, BitVec.toNat_setWidth, BitVec.toNat_ofNat]
  exact Nat.mod_mod_of_dvd w (by decide)

/-- The stub loads the registers from the frame on the stack. -/
theorem restoreContext_eq (hfits : c.esp.toNat + 64 < wordSize) :
    restoreContext c = resumed (frameAt c.mem c.esp.toNat) c := by
  have hstack : OnStack c (frameWords (frameAt c.mem c.esp.toNat)) := ⟨words_frameAt _ _, hfits⟩
  generalize frameAt c.mem c.esp.toNat = f at hstack
  simp only [frameWords, TrapFrame.words, List.map_cons, List.map_nil] at hstack
  have hds : OnStack (movSegments { c.drop 4 with eax := BitVec.ofNat 32 f.ds }) _ := hstack.tail rfl rfl
  obtain ⟨hpopa, hregs⟩ := popa_eq hds
  generalize hp : Cpu.popa (movSegments { c.drop 4 with eax := BitVec.ofNat 32 f.ds }) = p at hpopa hregs
  have hnum : OnStack (p.drop 4) _ := hregs.tail rfl rfl
  have hcode : OnStack ((p.drop 4).drop 4) _ := hnum.tail rfl rfl
  have hdrop : ∀ d : Cpu, (d.drop 4).drop 4 = d.drop 8 := fun d => by
    simp only [Cpu.drop, BitVec.add_assoc]
    rfl
  rw [hdrop] at hcode
  unfold restoreContext
  simp only [hstack.top, hp]
  rw [iret_eq hcode, hpopa]
  simp only [movSegments, Cpu.drop, resumed, Cpu.cpl, BitVec.add_assoc, toSelector_ofNat]
  rfl

/-! ### A trap and its return -/

/-- What a trap leaves of the interrupted code `c`. The three other data segments become the first. -/
structure Undisturbed (c : Cpu) (esp0 : Word) (low : ℕ) (d : Cpu) : Prop where
  general : d.eax = c.eax ∧ d.ecx = c.ecx ∧ d.edx = c.edx ∧ d.ebx = c.ebx ∧ d.ebp = c.ebp ∧ d.esi = c.esi ∧ d.edi = c.edi
  stack : d.esp = c.esp ∧ d.ss = c.ss
  code : d.eip = c.eip ∧ d.cs = c.cs ∧ d.eflags = c.eflags
  data : d.ds = c.ds ∧ d.es = c.ds ∧ d.fs = c.ds ∧ d.gs = c.ds
  mem : ∀ x, x < low ∨ (kernelEsp c esp0).toNat ≤ x → d.mem x = c.mem x

theorem toSelector_toNat (s : Selector) : toSelector s.toNat = s := by
  rw [toSelector, BitVec.ofNat_toNat, BitVec.setWidth_eq]

theorem toSelector_dsWord (c : Cpu) : toSelector (dsWord c).toNat = c.ds := by
  rw [toSelector, BitVec.ofNat_toNat, dsWord, BitVec.setWidth_or, BitVec.setWidth_and, BitVec.setWidth_setWidth_of_le _ (by decide),
    BitVec.setWidth_eq]
  have hmask : BitVec.setWidth 16 (0xFFFF0000 : Word) = 0#16 := by decide
  rw [hmask, BitVec.and_zero, BitVec.zero_or]

/-- The segments in which a handler runs -/
theorem stub_segments {code : Cpu → Cpu} (h : stub vector = some code) (c : Cpu) : (code c).cs = c.cs ∧ (code c).ss = c.ss := by
  unfold stub at h
  split at h
  · obtain rfl := Option.some.inj h
    simp only [isrErrcode, cli, push_cs, push_ss, and_self]
  · split at h
    · obtain rfl := Option.some.inj h
      simp only [isrNoerrcode, cli, push_cs, push_ss, and_self]
    · split at h
      · obtain rfl := Option.some.inj h
        simp only [irq, cli, push_cs, push_ss, and_self]
      · cases h

theorem trapped_segments (h : Trap vector code g esp0 errCode c) (ss0 : Selector) :
    (trapped code g ss0 esp0 errCode c).cs = g.selector ∧
      (trapped code g ss0 esp0 errCode c).ss = if c.cpl = 0 then c.ss else ss0 := by
  obtain ⟨hcs, hss⟩ := stub_segments h.stub (c.interrupt g ss0 esp0 errCode)
  have hsave : ∀ d : Cpu, (saveContext d).cs = d.cs ∧ (saveContext d).ss = d.ss := fun d => by
    simp only [saveContext, movSegments, movAx, push_cs, push_ss, pusha_cs, pusha_ss, and_self]
  have hstack : (c.onHandlerStack g ss0 esp0).ss = if c.cpl = 0 then c.ss else ss0 := by
    have hring := h.ring0
    unfold Cpu.onHandlerStack
    by_cases hc : c.cpl = 0
    · rw [if_neg (by omega), if_pos hc]
    · rw [if_pos (by omega), if_neg hc, push_ss, push_ss]
  refine ⟨?_, ?_⟩
  · rw [trapped, (hsave _).1, hcs]
    cases errCode <;> rfl
  · rw [trapped, (hsave _).2, hss, ← hstack]
    cases errCode <;> simp only [Cpu.interrupt, push_ss]

/-- The words of the frame that were pushed -/
def pushedFrame (c : Cpu) (esp0 esp : Word) : Set ℕ := Set.Ico esp.toNat (kernelEsp c esp0).toNat

/-- A trap and the two calls of `isr_common_stub` with a pointer to the frame, which may change it -/
structure Handled (vector : ℕ) (code : Cpu → Cpu) (g : Cpu.Gate) (ss0 : Selector) (esp0 : Word) (errCode : Option Word)
    (low : ℕ) (c d e : Cpu) : Prop extends Trap vector code g esp0 errCode c where
  bottom : low + 68 ≤ (kernelEsp c esp0).toNat
  top : (kernelEsp c esp0).toNat + 8 < wordSize
  handler : CalledWithEsp low (pushedFrame c esp0 (trapped code g ss0 esp0 errCode c).esp) (trapped code g ss0 esp0 errCode c) d
  deliver : CalledWithEsp low (pushedFrame c esp0 (trapped code g ss0 esp0 errCode c).esp) d e

namespace Handled

theorem spec (h : Handled vector code g ss0 esp0 errCode low c d e) :
    e.esp = (trapped code g ss0 esp0 errCode c).esp ∧ e.cs = g.selector ∧
      e.ss = (trapped code g ss0 esp0 errCode c).ss ∧
      ∀ x, x < low ∨ (kernelEsp c esp0).toNat ≤ x → e.mem x = c.mem x := by
  have hgrown := h.grown ss0
  have hlow := h.bottom
  have hlen := length_outerWords c
  have hesp := hgrown.esp
  simp only [trapWords, List.length_append, List.length_cons, List.length_nil] at hesp
  obtain ⟨⟨hdesp, hdcs, hdss⟩, hdmem⟩ := h.handler.spec (by omega)
  obtain ⟨⟨heesp, hecs, hess⟩, hemem⟩ := h.deliver.spec (by rw [hdesp]; omega)
  refine ⟨heesp.trans hdesp, ?_, hess.trans hdss, fun x hx => ?_⟩
  · rw [hecs, hdcs, (trapped_segments h.toTrap ss0).1]
  · have hrest : x < (trapped code g ss0 esp0 errCode c).esp.toNat ∨ (kernelEsp c esp0).toNat ≤ x →
        (trapped code g ss0 esp0 errCode c).mem x = c.mem x := hgrown.rest x
    have hout : x ∉ pushedFrame c esp0 (trapped code g ss0 esp0 errCode c).esp := by
      rw [pushedFrame, Set.mem_Ico]
      omega
    rw [hdesp] at hemem
    rw [hemem x (by omega) hout, hdmem x (by omega) hout, hrest (by omega)]

end Handled

theorem ofNat_toNat (w : Word) : BitVec.ofNat 32 w.toNat = w := by
  rw [BitVec.ofNat_toNat, BitVec.setWidth_eq]

/-- The frame that was saved leads back to the interrupted code. -/
theorem resumed_savedFrame (hring : e.cpl = 0) (hesp : c.cpl = 0 → e.esp + 56 = c.esp) (hss : c.cpl = 0 → e.ss = c.ss)
    (hmem : ∀ x, x < low ∨ (kernelEsp c esp0).toNat ≤ x → e.mem x = c.mem x) (saved : ℕ) :
    Undisturbed c esp0 low (resumed (savedFrame vector err c saved) e) := by
  have houtwards : e.cpl < rpl (toSelector c.cs.toNat) ↔ c.cpl ≠ 0 := by
    rw [hring, toSelector_toNat]
    exact Nat.pos_iff_ne_zero
  refine ⟨?_, ?_, ?_, ?_, hmem⟩
  · simp only [resumed, savedFrame, ofNat_toNat, and_self]
  · simp only [resumed, savedFrame, houtwards]
    by_cases h : c.cpl = 0
    · simp only [h, ne_eq, not_true, ↓reduceIte]
      exact ⟨hesp h, hss h⟩
    · simp only [h, ne_eq, not_false_iff, ↓reduceIte, ofNat_toNat, toSelector_toNat, and_self]
  · simp only [resumed, savedFrame, ofNat_toNat, toSelector_toNat, and_self]
  · have hds := toSelector_dsWord c
    rw [dsWord] at hds
    simp only [resumed, savedFrame, hds, and_self]

/-- The handlers find the interrupted context in the frame, and the way back loads the registers from
it. What they do not change is as it was in the interrupted code. -/
theorem trap_transparent (h : Handled vector code g ss0 esp0 errCode low c d e) :
    frameAt (trapped code g ss0 esp0 errCode c).mem e.esp.toNat =
        savedFrame vector (errCode.getD 0) c (e.esp.toNat + 36) ∧
      restoreContext e = resumed (frameAt e.mem e.esp.toNat) e ∧
      (frameAt e.mem e.esp.toNat = frameAt (trapped code g ss0 esp0 errCode c).mem e.esp.toNat →
        Undisturbed c esp0 low (restoreContext e)) := by
  obtain ⟨hesp, hcs, hss, hmem⟩ := h.spec
  have hgrown := (h.grown ss0).esp
  rw [← hesp] at hgrown
  simp only [trapWords, List.length_append, List.length_cons, List.length_nil] at hgrown
  have htop := h.top
  have hframe := h.frameAt_eq ss0
  rw [← hesp] at hframe
  have hfits : e.esp.toNat + 64 < wordSize := by omega
  refine ⟨hframe, restoreContext_eq hfits, fun hkept => ?_⟩
  rw [restoreContext_eq hfits, hkept, hframe]
  have hring : e.cpl = 0 := by rw [Cpu.cpl, hcs, h.ring0]
  refine resumed_savedFrame hring (fun hc => ?_) (fun hc => ?_) hmem _
  · simp only [outerWords, kernelEsp, if_pos hc, List.length_nil] at hgrown
    apply BitVec.eq_of_toNat_eq
    rw [BitVec.toNat_add, Nat.mod_eq_of_lt (by simp only [wordSize] at hfits; simp; omega), ← hgrown]
    rfl
  · rw [hss, (trapped_segments h.toTrap ss0).2, if_pos hc]

/-- A page fault of a user task, with handlers that do nothing -/
theorem trap_transparent_page_fault :
    let c : Cpu := ⟨1, 2, 3, 4, 0xBFFFFF00, 6, 7, 8, 0x08048123, 0x202, 0x23, 0x2B, 0x2B, 0x2B, 0x2B, 0x2B, fun _ => 0⟩
    ∃ e, (frameAt e.mem e.esp.toNat).errCode = 7 ∧ (restoreContext e).esp = 0xBFFFFF00 ∧
      Undisturbed c 0xEF008000 0xEF006000 (restoreContext e) := by
  intro c
  have htrap : Trap 14 (isrErrcode 14) ⟨0x08, 0, false⟩ 0xEF008000 (some 7) c := ⟨rfl, by decide, rfl, by decide⟩
  obtain ⟨t, ht⟩ : ∃ t, trapped (isrErrcode 14) ⟨0x08, 0, false⟩ 0x10 0xEF008000 (some 7) c = t := ⟨_, rfl⟩
  have hesp : 4 ≤ t.esp.toNat := by
    rw [← ht]
    decide +kernel
  obtain ⟨d, hd, hdesp, hdmem⟩ := exists_called hesp 0xEF006000
  obtain ⟨e, he, heesp, hemem⟩ := exists_called (c := d) (by rwa [hdesp]) 0xEF006000
  have hhandled : Handled 14 (isrErrcode 14) ⟨0x08, 0, false⟩ 0x10 0xEF008000 (some 7) 0xEF006000 c d e :=
    ⟨htrap, by decide, by decide, ht ▸ hd.mono, ht ▸ he.mono⟩
  obtain ⟨hframe, -, hdone⟩ := trap_transparent hhandled
  rw [ht] at hframe hdone
  have hkept : frameAt e.mem e.esp.toNat = frameAt t.mem e.esp.toNat := frameAt_congr fun x hx _ => by
    rw [heesp] at hx
    rw [hemem x hx, hdmem x (hdesp ▸ hx)]
  have hundisturbed := hdone hkept
  refine ⟨e, ?_, hundisturbed.stack.1, hundisturbed⟩
  rw [hkept, hframe]
  rfl

/-! ### The trap test -/

/-- `trigger_trap_test`, up to `int $0x42` -/
def triggerTrapTest (c : Cpu) : Cpu :=
  { c with eax := 0xAAAAAAAA, ebx := 0xBBBBBBBB, ecx := 0xCCCCCCCC, edx := 0xDDDDDDDD, esi := 0x11111111, edi := 0x22222222 }

/-- The checks of `isr_handler` for vector 66 -/
def canary (f : TrapFrame) : Bool :=
  f.intNo = 66 ∧ f.errCode = 0 ∧ f.eax = 0xAAAAAAAA ∧ f.ebx = 0xBBBBBBBB ∧ f.ecx = 0xCCCCCCCC ∧ f.edx = 0xDDDDDDDD ∧
    f.esi = 0x11111111 ∧ f.edi = 0x22222222 ∧ f.cs = 0x08

/-- The trap test passes wherever the kernel makes it. -/
theorem trap_test_passes (h : Trap 66 code g esp0 none (triggerTrapTest c)) (hcs : c.cs = 0x08) :
    canary (frameAt (trapped code g ss0 esp0 none (triggerTrapTest c)).mem
      (trapped code g ss0 esp0 none (triggerTrapTest c)).esp.toNat) = true := by
  have hcs' : (triggerTrapTest c).cs = 0x08 := hcs
  rw [h.frameAt_eq ss0, canary, savedFrame, hcs']
  rfl

end HekaOS.Traps
