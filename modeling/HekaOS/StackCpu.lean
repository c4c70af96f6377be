import HekaOS.ByteMemory

/-!
# A processor and its stack

The registers of a 32-bit processor with segments, a stack that grows towards lower addresses of a
byte-addressed memory, and the instructions from which the entry to an interrupt handler and the
way back are made. What stands on the stack is a list of words: a push puts a word in front of it,
a pop takes the first one off, and the memory outside the words that were pushed stays as it is.
-/

namespace HekaOS.StackCpu
open MachineWord ByteMemory

abbrev Word := BitVec 32

abbrev Selector := BitVec 16

structure Cpu where
  eax : Word
  ecx : Word
  edx : Word
  ebx : Word
  esp : Word
  ebp : Word
  esi : Word
  edi : Word
  eip : Word
  eflags : Word
  cs : Selector
  ss : Selector
  ds : Selector
  es : Selector
  fs : Selector
  gs : Selector
  mem : Memory

/-- The requested privilege level of a selector. -/
def rpl (s : Selector) : ℕ := s.toNat % 4

namespace Cpu

/-- The current privilege level. -/
def cpl (c : Cpu) : ℕ := rpl c.cs

/-- The word at an address. -/
def word (c : Cpu) (a : Word) : Word := BitVec.ofNat 32 (load32 c.mem a.toNat)

def push (v : Word) (c : Cpu) : Cpu :=
  { c with esp := c.esp - 4, mem := store32 c.mem (c.esp - 4).toNat v.toNat }

/-- The first word of the stack, which a pop reads. -/
def top (c : Cpu) : Word := c.word c.esp

/-- `add $n, %esp` -/
def drop (n : Word) (c : Cpu) : Cpu := { c with esp := c.esp + n }

/-- All general registers, with the stack pointer as it was before the instruction. -/
def pusha (c : Cpu) : Cpu :=
  (((((((c.push c.eax).push c.ecx).push c.edx).push c.ebx).push c.esp).push c.ebp).push c.esi).push c.edi

/-- The stack pointer among the registers is skipped. -/
def popa (c : Cpu) : Cpu :=
  let c := { c.drop 4 with edi := c.top }
  let c := { c.drop 4 with esi := c.top }
  let c := { c.drop 4 with ebp := c.top }
  let c := c.drop 4
  let c := { c.drop 4 with ebx := c.top }
  let c := { c.drop 4 with edx := c.top }
  let c := { c.drop 4 with ecx := c.top }
  { c.drop 4 with eax := c.top }

/-- A return from an interrupt. The return to a less privileged level also pops the stack pointer
and the stack segment. -/
def iret (c : Cpu) : Cpu :=
  let level := c.cpl
  let c := { c.drop 4 with eip := c.top }
  let c := { c.drop 4 with cs := c.top.setWidth 16 }
  let c := { c.drop 4 with eflags := c.top }
  if level < c.cpl then { c with esp := c.top, ss := (c.word (c.esp + 4)).setWidth 16 } else c

/-- What an interrupt descriptor says about the way in. A trap gate leaves interrupts enabled. -/
structure Gate where
  selector : Selector
  offset : Word
  isTrap : Bool

/-- The flags at the first instruction of a handler: the interrupt flag, and those for single steps,
nested tasks, resumption and the virtual mode, are cleared. -/
def handlerFlags (isTrap : Bool) (eflags : Word) : Word :=
  eflags &&& ~~~(if isTrap then 0x34100 else 0x34300)

/-- The stack on which an interrupt pushes: the one that the task state segment names if the
privilege level changes. -/
def onHandlerStack (g : Gate) (ss0 : Selector) (esp0 : Word) (c : Cpu) : Cpu :=
  if rpl g.selector < c.cpl then
    (({ c with ss := ss0, esp := esp0 } : Cpu).push (c.ss.setWidth 32)).push c.esp
  else c

/-- An interrupt or an exception is taken through a gate; some exceptions push an error code. -/
def interrupt (g : Gate) (ss0 : Selector) (esp0 : Word) (errCode : Option Word) (c : Cpu) : Cpu :=
  let d := ((c.onHandlerStack g ss0 esp0).push c.eflags).push (c.cs.setWidth 32) |>.push c.eip
  let d := match errCode with
    | none => d
    | some e => d.push e
  { d with eip := g.offset, cs := g.selector, eflags := handlerFlags g.isTrap c.eflags }

end Cpu

/-- A C function between its call and its return. The registers that it has to save are as before,
and it has written to its own stack, down to `low` and up to its argument, and to `dst`. -/
structure Callee (low : ℕ) (dst : Set ℕ) (c d : Cpu) : Prop where
  ebx : d.ebx = c.ebx
  esp : d.esp = c.esp
  ebp : d.ebp = c.ebp
  esi : d.esi = c.esi
  edi : d.edi = c.edi
  cs : d.cs = c.cs
  ss : d.ss = c.ss
  ds : d.ds = c.ds
  mem : ∀ x, x < low ∨ c.esp.toNat + 4 ≤ x → x ∉ dst → d.mem x = c.mem x

/-- `push %esp; call f; add $4, %esp` -/
def CalledWithEsp (low : ℕ) (dst : Set ℕ) (c d : Cpu) : Prop := ∃ r, Callee low dst (c.push c.esp) r ∧ d = r.drop 4

/-! ### A push leaves the other registers -/

section
variable (c : Cpu) (v : Word)

@[simp] theorem push_eax : (c.push v).eax = c.eax := rfl
@[simp] theorem push_ecx : (c.push v).ecx = c.ecx := rfl
@[simp] theorem push_edx : (c.push v).edx = c.edx := rfl
@[simp] theorem push_ebx : (c.push v).ebx = c.ebx := rfl
@[simp] theorem push_ebp : (c.push v).ebp = c.ebp := rfl
@[simp] theorem push_esi : (c.push v).esi = c.esi := rfl
@[simp] theorem push_edi : (c.push v).edi = c.edi := rfl
@[simp] theorem push_eip : (c.push v).eip = c.eip := rfl
@[simp] theorem push_eflags : (c.push v).eflags = c.eflags := rfl
@[simp] theorem push_cs : (c.push v).cs = c.cs := rfl
@[simp] theorem push_ss : (c.push v).ss = c.ss := rfl
@[simp] theorem push_ds : (c.push v).ds = c.ds := rfl

@[simp] theorem pusha_eax : c.pusha.eax = c.eax := by simp only [Cpu.pusha, push_eax]

@[simp] theorem pusha_ds : c.pusha.ds = c.ds := by simp only [Cpu.pusha, push_ds]

@[simp] theorem pusha_cs : c.pusha.cs = c.cs := by simp only [Cpu.pusha, push_cs]

@[simp] theorem pusha_ss : c.pusha.ss = c.ss := by simp only [Cpu.pusha, push_ss]

end

/-! ### The stack as a list of words -/

/-- The words stand in memory from an address on. -/
def Words (m : Memory) : ℕ → List Word → Prop
  | _, [] => True
  | a, w :: ws => load32 m a = w.toNat ∧ Words m (a + 4) ws

@[simp] theorem words_nil (m : Memory) (a : ℕ) : Words m a [] := trivial

@[simp] theorem words_cons (m : Memory) (a : ℕ) (w : Word) (ws : List Word) :
    Words m a (w :: ws) ↔ load32 m a = w.toNat ∧ Words m (a + 4) ws := Iff.rfl

variable {m m' : Memory} {a : ℕ} {c d e : Cpu} {v w : Word} {ws ws' : List Word}

theorem load32_congr (h : ∀ x, a ≤ x → x < a + 4 → m' x = m x) : load32 m' a = load32 m a := by
  simp only [load32]
  rw [h a (by omega) (by omega), h (a + 1) (by omega) (by omega), h (a + 2) (by omega) (by omega),
    h (a + 3) (by omega) (by omega)]

/-- Words stay where the bytes below them are left alone. -/
theorem Words.congr (h : Words m a ws) (hm : ∀ x, a ≤ x → x < a + 4 * ws.length → m' x = m x) : Words m' a ws := by
  induction ws generalizing a with
  | nil => trivial
  | cons w ws ih =>
    rw [List.length_cons] at hm
    refine ⟨?_, ih h.2 fun x hx hx' => hm x (by omega) (by omega)⟩
    rw [load32_congr fun x hx hx' => hm x hx (by omega)]
    exact h.1

theorem words_append : Words m a (ws ++ ws') ↔ Words m a ws ∧ Words m (a + 4 * ws.length) ws' := by
  induction ws generalizing a with
  | nil => simp
  | cons w ws ih =>
    have hshift : a + 4 * (w :: ws).length = a + 4 + 4 * ws.length := by
      rw [List.length_cons]
      omega
    rw [List.cons_append, words_cons, words_cons, ih, hshift, and_assoc]

/-- The words `ws` were pushed: they stand in front of what was on the stack, and the rest of the
memory is as before. -/
structure Grown (ws : List Word) (c d : Cpu) : Prop where
  esp : d.esp.toNat + 4 * ws.length = c.esp.toNat
  words : Words d.mem d.esp.toNat ws
  rest : ∀ x, x < d.esp.toNat ∨ c.esp.toNat ≤ x → d.mem x = c.mem x

namespace Grown

/-- Only the stack pointer and the memory matter. -/
theorem congr {c' d' : Cpu} (h : Grown ws c d) (hc : c'.esp = c.esp ∧ c'.mem = c.mem)
    (hd : d'.esp = d.esp ∧ d'.mem = d.mem) : Grown ws c' d' := by
  obtain ⟨hesp, hmem⟩ := hc
  obtain ⟨hesp', hmem'⟩ := hd
  refine ⟨?_, ?_, fun x hx => ?_⟩
  · rw [hesp, hesp', h.esp]
  · rw [hesp', hmem']
    exact h.words
  · rw [hmem, hmem']
    rw [hesp, hesp'] at hx
    exact h.rest x hx

theorem trans (h₁ : Grown ws c d) (h₂ : Grown ws' d e) : Grown (ws' ++ ws) c e := by
  have h₁esp := h₁.esp
  have h₂esp := h₂.esp
  refine ⟨?_, ?_, fun x hx => ?_⟩
  · rw [List.length_append]
    omega
  · rw [words_append]
    refine ⟨h₂.words, ?_⟩
    rw [h₂esp]
    exact h₁.words.congr fun x hx hx' => h₂.rest x (.inr hx)
  · rw [h₂.rest x (by omega), h₁.rest x (by omega)]

end Grown

theorem esp_sub_four (h : 4 ≤ c.esp.toNat) : (c.esp - 4).toNat = c.esp.toNat - 4 := by
  rw [BitVec.toNat_sub_of_le (by rwa [BitVec.le_def])]
  rfl

theorem grown_push (h : 4 ≤ c.esp.toNat) : Grown [v] c (c.push v) := by
  have hesp := esp_sub_four h
  refine ⟨?_, ⟨?_, trivial⟩, fun x hx => ?_⟩
  · simp only [Cpu.push, hesp, List.length_singleton]
    omega
  · exact load32_store32 v.isLt
  · apply store32_of_ne
    simp only [Cpu.push, hesp] at hx ⊢
    omega

/-- One more word is pushed. -/
theorem Grown.push (h : Grown ws c d) (hroom : 4 * (ws.length + 1) ≤ c.esp.toNat) :
    Grown (v :: ws) c (d.push v) := by
  have hesp := h.esp
  exact h.trans (grown_push (by omega))

/-- A stack that has room for some words can get them. -/
theorem exists_grown (ws : List Word) (c : Cpu) (hroom : 4 * ws.length ≤ c.esp.toNat) : ∃ d, Grown ws c d := by
  induction ws with
  | nil => exact ⟨c, rfl, trivial, fun x hx => rfl⟩
  | cons w ws ih =>
    rw [List.length_cons] at hroom
    obtain ⟨d, hd⟩ := ih (by omega)
    exact ⟨d.push w, hd.push hroom⟩

theorem grown_pusha (h : 32 ≤ c.esp.toNat) :
    Grown [c.edi, c.esi, c.ebp, c.esp, c.ebx, c.edx, c.ecx, c.eax] c c.pusha := by
  have hroom : ∀ n < 8, 4 * (n + 1) ≤ c.esp.toNat := fun n hn => by omega
  have h₁ : Grown [c.eax] c (c.push c.eax) := grown_push (hroom 0 (by decide))
  have h₄ := ((h₁.push (v := c.ecx) (hroom 1 (by decide))).push (v := c.edx) (hroom 2 (by decide))).push
    (v := c.ebx) (hroom 3 (by decide))
  have h₆ := (h₄.push (v := c.esp) (hroom 4 (by decide))).push (v := c.ebp) (hroom 5 (by decide))
  exact (h₆.push (v := c.esi) (hroom 6 (by decide))).push (v := c.edi) (hroom 7 (by decide))

/-- The words are the first ones on the stack, and none of them wraps around. -/
structure OnStack (c : Cpu) (ws : List Word) : Prop where
  words : Words c.mem c.esp.toNat ws
  fits : c.esp.toNat + 4 * ws.length < wordSize

namespace OnStack

theorem top (h : OnStack c (w :: ws)) : c.top = w := by
  rw [Cpu.top, Cpu.word, h.words.1, BitVec.ofNat_toNat, BitVec.setWidth_eq]

theorem esp_drop (h : OnStack c (w :: ws)) : (c.esp + 4).toNat = c.esp.toNat + 4 := by
  have hfits := h.fits
  rw [List.length_cons] at hfits
  rw [BitVec.toNat_add, Nat.mod_eq_of_lt (by
    simp only [wordSize] at hfits
    simp
    omega)]
  rfl

/-- A pop leaves the words behind the first one. -/
theorem tail {c' : Cpu} (h : OnStack c (w :: ws)) (hesp : c'.esp = c.esp + 4) (hmem : c'.mem = c.mem) :
    OnStack c' ws := by
  have hdrop := h.esp_drop
  have hfits := h.fits
  rw [List.length_cons] at hfits
  refine ⟨?_, ?_⟩
  · rw [hmem, hesp, hdrop]
    exact h.words.2
  · rw [hesp, hdrop]
    omega

end OnStack

/-- The eight words are put back into the registers. -/
theorem popa_eq {edi esi ebp skip ebx edx ecx eax : Word}
    (h : OnStack c (edi :: esi :: ebp :: skip :: ebx :: edx :: ecx :: eax :: ws)) :
    c.popa = { c with edi := edi, esi := esi, ebp := ebp, ebx := ebx, edx := edx, ecx := ecx, eax := eax,
                      esp := c.esp + 32 } ∧ OnStack c.popa ws := by
  have h₁ : OnStack { c.drop 4 with edi := edi } _ := h.tail rfl rfl
  have h₂ : OnStack { ({ c.drop 4 with edi := edi } : Cpu).drop 4 with esi := esi } _ := h₁.tail rfl rfl
  generalize hc₂ : ({ ({ c.drop 4 with edi := edi } : Cpu).drop 4 with esi := esi } : Cpu) = c₂ at h₂
  have h₃ : OnStack { c₂.drop 4 with ebp := ebp } _ := h₂.tail rfl rfl
  have h₄ : OnStack (({ c₂.drop 4 with ebp := ebp } : Cpu).drop 4) _ := h₃.tail rfl rfl
  generalize hc₄ : ({ c₂.drop 4 with ebp := ebp } : Cpu).drop 4 = c₄ at h₄
  have h₅ : OnStack { c₄.drop 4 with ebx := ebx } _ := h₄.tail rfl rfl
  have h₆ : OnStack { ({ c₄.drop 4 with ebx := ebx } : Cpu).drop 4 with edx := edx } _ := h₅.tail rfl rfl
  generalize hc₆ : ({ ({ c₄.drop 4 with ebx := ebx } : Cpu).drop 4 with edx := edx } : Cpu) = c₆ at h₆
  have h₇ : OnStack { c₆.drop 4 with ecx := ecx } _ := h₆.tail rfl rfl
  have h₈ : OnStack { ({ c₆.drop 4 with ecx := ecx } : Cpu).drop 4 with eax := eax } _ := h₇.tail rfl rfl
  have heq : c.popa = { ({ c₆.drop 4 with ecx := ecx } : Cpu).drop 4 with eax := eax } := by
    unfold Cpu.popa
    simp only [h.top, h₁.top, hc₂, h₂.top, hc₄, h₄.top, h₅.top, hc₆, h₆.top, h₇.top]
  refine ⟨?_, heq ▸ h₈⟩
  rw [heq, ← hc₆, ← hc₄, ← hc₂]
  simp only [Cpu.drop, BitVec.add_assoc]
  rfl

/-- A return with five words on the stack, of which it takes three or all. -/
theorem iret_eq {eip cs eflags usp uss : Word} (h : OnStack c (eip :: cs :: eflags :: usp :: uss :: ws)) :
    c.iret = { c with
      eip := eip, cs := cs.setWidth 16, eflags := eflags,
      esp := if c.cpl < rpl (cs.setWidth 16) then usp else c.esp + 12,
      ss := if c.cpl < rpl (cs.setWidth 16) then uss.setWidth 16 else c.ss } := by
  have h₁ : OnStack { c.drop 4 with eip := eip } _ := h.tail rfl rfl
  have h₂ : OnStack { ({ c.drop 4 with eip := eip } : Cpu).drop 4 with cs := cs.setWidth 16 } _ := h₁.tail rfl rfl
  generalize hd : ({ ({ c.drop 4 with eip := eip } : Cpu).drop 4 with cs := cs.setWidth 16 } : Cpu) = d at h₂
  have h₃ : OnStack { d.drop 4 with eflags := eflags } _ := h₂.tail rfl rfl
  generalize he : ({ d.drop 4 with eflags := eflags } : Cpu) = e at h₃
  have h₄ : OnStack (e.drop 4) _ := h₃.tail rfl rfl
  have hss : e.word (e.esp + 4) = uss := h₄.top
  have heq : c.iret = if c.cpl < e.cpl then { e with esp := e.top, ss := (e.word (e.esp + 4)).setWidth 16 } else e := by
    unfold Cpu.iret
    simp only [h.top, h₁.top, hd, h₂.top, he]
    rw [← he]
  rw [heq, h₃.top, hss, ← he, ← hd]
  simp only [Cpu.drop, Cpu.cpl, BitVec.add_assoc]
  by_cases hlevel : rpl c.cs < rpl (cs.setWidth 16)
  · simp only [hlevel, ↓reduceIte]
  · simp only [hlevel, ↓reduceIte]
    rfl

/-- A function that is called with the stack pointer leaves what is on the stack, except for what it
writes through the pointer. -/
theorem CalledWithEsp.spec {low : ℕ} {dst : Set ℕ} (h : CalledWithEsp low dst c d) (hroom : 4 ≤ c.esp.toNat) :
    (d.esp = c.esp ∧ d.cs = c.cs ∧ d.ss = c.ss) ∧
      ∀ x, x < low ∧ x < c.esp.toNat - 4 ∨ c.esp.toNat ≤ x → x ∉ dst → d.mem x = c.mem x := by
  obtain ⟨r, hr, rfl⟩ := h
  have hpush := grown_push (v := c.esp) hroom
  have hesp := esp_sub_four hroom
  refine ⟨⟨?_, hr.cs, hr.ss⟩, fun x hx hdst => ?_⟩
  · simp only [Cpu.drop, hr.esp, Cpu.push, BitVec.sub_add_cancel]
  · have hpushed : (c.push c.esp).esp.toNat = c.esp.toNat - 4 := hesp
    rw [Cpu.drop, hr.mem x (by omega) hdst, hpush.rest x (by omega)]

/-- A function that does nothing -/
theorem exists_called (hroom : 4 ≤ c.esp.toNat) (low : ℕ) : ∃ d, CalledWithEsp low ∅ c d ∧ d.esp = c.esp ∧
    ∀ x, c.esp.toNat ≤ x → d.mem x = c.mem x := by
  have hcalled : CalledWithEsp low ∅ c ((c.push c.esp).drop 4) :=
    ⟨_, ⟨rfl, rfl, rfl, rfl, rfl, rfl, rfl, rfl, fun _ _ _ => rfl⟩, rfl⟩
  obtain ⟨⟨hesp, -⟩, hmem⟩ := hcalled.spec hroom
  exact ⟨_, hcalled, hesp, fun x hx => hmem x (.inr hx) (Set.notMem_empty x)⟩

theorem CalledWithEsp.mono {dst : Set ℕ} (h : CalledWithEsp low ∅ c d) : CalledWithEsp low dst c d := by
  obtain ⟨r, hr, rfl⟩ := h
  exact ⟨r, { hr with mem := fun x hx _ => hr.mem x hx (Set.notMem_empty x) }, rfl⟩

end HekaOS.StackCpu
