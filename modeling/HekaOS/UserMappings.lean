import HekaOS.PageWalk
import HekaOS.UserPointers

/-!
# Which bytes of a user buffer are mapped

`user_range_ok` is a test of the interval alone. `sys_write` then reads every byte of it and
`sys_read` stores a byte for each one that waits in the input ring, so a call goes without a page
fault in Ring 0 exactly when these bytes are mapped in the directory of the caller.
-/

namespace HekaOS.Tasks
open MachineWord KernelMemory PointerChain ByteMemory PageWalk

variable {s t : KState} {env : SysEnv} {frame : TrapFrame} {a n i buf count dst left fd : ℕ} {e : Event}

/-- A position of the input ring, counted from the tail on. -/
def ringAt (tail k : ℕ) : ℕ := if k = 0 then tail else (tail + k) % taskInputSize

/-- The head of the ring is not among the positions up to the `i`-th. -/
def Task.Waits (x : Task) (i : ℕ) : Prop := x.inBuf ≠ none ∧ ∀ k ≤ i, ringAt x.inTail k ≠ x.inHead

theorem ringAt_succ (tail k : ℕ) : ringAt tail (k + 1) = ringAt ((tail + 1) &&& (taskInputSize - 1)) k := by
  have hmask : (tail + 1) &&& (taskInputSize - 1) = (tail + 1) % taskInputSize := and_low 8 _
  rw [hmask]
  unfold ringAt
  rw [if_neg (Nat.succ_ne_zero k)]
  split
  · rename_i hk
    rw [hk]
  · simp only [taskInputSize]
    omega

theorem Task.waits_zero {x : Task} : x.Waits 0 ↔ x.inBuf ≠ none ∧ x.inHead ≠ x.inTail := by
  unfold Waits
  simp only [Nat.le_zero_eq, forall_eq, ringAt, ↓reduceIte, ne_comm]

/-- The bytes behind the first one, once that is read. -/
theorem Task.waits_succ {x y : Task} (hbuf : y.inBuf = x.inBuf) (hhead : y.inHead = x.inHead)
    (htail : y.inTail = (x.inTail + 1) &&& (taskInputSize - 1)) :
    x.Waits (i + 1) ↔ x.Waits 0 ∧ y.Waits i := by
  unfold Waits
  rw [hbuf, hhead, htail]
  constructor
  · rintro ⟨hb, h⟩
    refine ⟨⟨hb, fun k hk => h k (by omega)⟩, hb, fun k hk => ?_⟩
    rw [← ringAt_succ]
    exact h (k + 1) (by omega)
  · rintro ⟨⟨hb, hfirst⟩, -, hrest⟩
    refine ⟨hb, fun k hk => ?_⟩
    cases k with
    | zero => exact hfirst 0 (le_refl 0)
    | succ k =>
      rw [ringAt_succ]
      exact hrest k (by omega)

/-- The stores of `task_input_read`. -/
theorem mem_inputRead_trace : e ∈ (taskInputRead a dst left n s).2.trace ↔
    e ∈ s.trace ∨ ∃ i < left, (s.task a).Waits i ∧ e = .access (add32 dst (n + i)) 1 := by
  induction left generalizing n s with
  | zero =>
    constructor
    · exact .inl
    · rintro (h | ⟨i, hi, -⟩)
      · exact h
      · exact absurd hi (Nat.not_lt_zero i)
  | succ left ih =>
    rw [taskInputRead]
    split
    · rename_i hnone
      constructor
      · exact .inl
      · rintro (h | ⟨i, -, hw, -⟩)
        · exact h
        · exact absurd hnone hw.1
    · rename_i buf hbuf
      have hsome : (s.task a).inBuf ≠ none := by
        rw [hbuf]
        exact Option.some_ne_none buf
      dsimp only
      split
      · rename_i hempty
        constructor
        · exact .inl
        · rintro (h | ⟨i, -, hw, -⟩)
          · exact h
          · exact absurd hempty.symm (hw.2 0 (Nat.zero_le i))
      · rename_i hne
        have hfirst : (s.task a).Waits 0 := Task.waits_zero.mpr ⟨hsome, hne⟩
        have hsucc : ∀ i, (s.task a).Waits (i + 1) ↔
            (((s.writeUser (add32 dst n) [buf (s.task a).inTail]).modify a fun x =>
              { x with inTail := ((s.task a).inTail + 1) &&& (taskInputSize - 1) }).task a).Waits i := by
          intro i
          rw [KState.modify_task_self]
          refine (Task.waits_succ ?_ ?_ ?_).trans (and_iff_right hfirst)
          · rfl
          · rfl
          · rfl
        rw [ih]
        simp only [← hsucc]
        have htrace : ((s.writeUser (add32 dst n) [buf (s.task a).inTail]).modify a fun x =>
            { x with inTail := ((s.task a).inTail + 1) &&& (taskInputSize - 1) }).trace =
            s.trace ++ [.access (add32 dst n) 1] := rfl
        rw [htrace, List.mem_append, List.mem_singleton, or_assoc]
        refine or_congr_right ?_
        constructor
        · rintro (he | ⟨i, hi, hw, he⟩)
          · exact ⟨0, Nat.succ_pos left, hfirst, he⟩
          · exact ⟨i + 1, Nat.succ_lt_succ hi, hw, by rw [he, Nat.add_right_comm, Nat.add_assoc]⟩
        · rintro ⟨i, hi, hw, he⟩
          cases i with
          | zero => exact .inl he
          | succ i => exact .inr ⟨i, Nat.lt_of_succ_lt_succ hi, hw, by rw [he, Nat.add_right_comm, Nat.add_assoc]⟩

/-- The loads of `sys_write`. -/
theorem mem_write_trace (l : List ℕ) : e ∈ (l.foldl (fun s i =>
      let a := add32 buf i
      taskLogPutchar env s.currentTask (s.user a % 256) (s.access a 1)) s).trace ↔
    e ∈ s.trace ∨ ∃ i ∈ l, e = .access (add32 buf i) 1 := by
  induction l generalizing s with
  | nil => simp
  | cons i l ih =>
    rw [List.foldl_cons, ih]
    have htrace : (taskLogPutchar env s.currentTask (s.user (add32 buf i) % 256)
        (s.access (add32 buf i) 1)).trace = s.trace ++ [.access (add32 buf i) 1] := by
      unfold taskLogPutchar
      split <;> rfl
    dsimp only
    rw [htrace, List.mem_append, List.mem_singleton, or_assoc]
    simp only [List.mem_cons, exists_eq_or_imp]

/-- No access of a trace faults under the page tables in `m`. -/
def FaultFree (m : Memory) (cr3 : ℕ) (trace : List Event) : Prop :=
  ∀ addr len, .access addr len ∈ trace → ∀ k < len, Mapped m cr3 ((addr + k) % wordSize)

/-- The call touches the `i`-th byte of its buffer, if it accepts the range. -/
def Touches (frame : TrapFrame) (s : KState) (i : ℕ) : Prop :=
  match syscallTable frame.eax with
  | some .read => frame.ebx = 0 ∧ s.current.Waits i
  | some .write => frame.ebx = 1 ∨ frame.ebx = 2
  | _ => False

/-- The bytes of the buffer that a call touches are mapped. -/
def BytesMapped (m : Memory) (cr3 : ℕ) (frame : TrapFrame) (s : KState) : Prop :=
  userRangeOk frame.ecx frame.edx = true → ∀ i < frame.edx, Touches frame s i → Mapped m cr3 (frame.ecx + i)

theorem mem_dispatch_trace (hn : syscallTable frame.eax = some .read ∨ syscallTable frame.eax = some .write) :
    e ∈ (syscallDispatch env frame s.entry).2.2.trace ↔
      userRangeOk frame.ecx frame.edx = true ∧
        ∃ i < frame.edx, Touches frame s i ∧ e = .access (add32 frame.ecx i) 1 := by
  have hsilent : s.entry.trace = [] := rfl
  unfold syscallDispatch Touches
  rcases hn with hn | hn
  · simp only [hn, setEax_state, syscallHandler, sysRead]
    split
    · rename_i hfd
      simp [hsilent, hfd]
    · rename_i hfd
      rw [not_not] at hfd
      cases hok : userRangeOk frame.ecx frame.edx with
      | false => simp [hsilent]
      | true =>
        simp only [Bool.not_true, Bool.false_eq_true, ↓reduceIte, mem_inputRead_trace, hsilent,
          List.not_mem_nil, false_or, hfd, true_and, Nat.zero_add]
        rfl
  · simp only [hn, setEax_state, syscallHandler, sysWrite]
    split
    · rename_i hfd
      simp [hsilent, not_or.mpr hfd]
    · rename_i hfd
      have hfd' : frame.ebx = 1 ∨ frame.ebx = 2 := by omega
      cases hok : userRangeOk frame.ecx frame.edx with
      | false => simp [hsilent]
      | true =>
        simp only [Bool.not_true, Bool.false_eq_true, ↓reduceIte, mem_write_trace, hsilent,
          List.not_mem_nil, false_or, hfd', true_and, List.mem_range]

/-- A `sys_read` or `sys_write` goes without a page fault exactly when the bytes it touches are
mapped. -/
theorem user_bytes_mapped (m : Memory) (cr3 : ℕ) (env : SysEnv) (frame : TrapFrame) (s : KState)
    (hwords : ∀ w ∈ frame.words, w < wordSize)
    (hn : syscallTable frame.eax = some .read ∨ syscallTable frame.eax = some .write) :
    FaultFree m cr3 (syscallDispatch env frame s.entry).2.2.trace ↔ BytesMapped m cr3 frame s := by
  have hecx : frame.ecx < wordSize := hwords _ (by simp [TrapFrame.words])
  have hedx : frame.edx < wordSize := hwords _ (by simp [TrapFrame.words])
  have haddr : userRangeOk frame.ecx frame.edx = true → ∀ i < frame.edx,
      add32 frame.ecx i = frame.ecx + i ∧ frame.ecx + i < wordSize := by
    intro hok i hi
    have hrange := (userRangeOk_iff hecx hedx).mp hok
    have hlt : frame.ecx + i < wordSize := by
      simp only [kernelVirtBase, wordSize] at *
      omega
    exact ⟨add32_of_lt hlt, hlt⟩
  constructor
  · intro h hok i hi ht
    obtain ⟨hadd, hlt⟩ := haddr hok i hi
    have hbyte := h _ _ ((mem_dispatch_trace hn).mpr ⟨hok, i, hi, ht, rfl⟩) 0 Nat.one_pos
    rwa [hadd, Nat.add_zero, Nat.mod_eq_of_lt hlt] at hbyte
  · intro h addr len he k hk
    obtain ⟨hok, i, hi, ht, hacc⟩ := (mem_dispatch_trace hn).mp he
    obtain ⟨hadd, hlt⟩ := haddr hok i hi
    obtain ⟨rfl, rfl⟩ := Event.access.inj hacc
    obtain rfl : k = 0 := Nat.lt_one_iff.mp hk
    rw [hadd, Nat.add_zero, Nat.mod_eq_of_lt hlt]
    exact h hok i hi ht

/-- Page tables with the two pages of a fresh user image: one of code and one of stack. -/
def imageTables : Memory :=
  store32 (store32 (store32 (store32 (fun _ => 0) (0x100000 + 4 * 32) 0x400007) (0x400000 + 4 * 72) 0x401007)
    (0x100000 + 4 * 767) 0x402007) (0x402000 + 4 * 1023) 0x403007

/-- One byte is to be written from an address between code and stack. -/
theorem user_bytes_mapped_fails :
    let frame := { userFrame 4 1 0x10000000 userStackTop with edx := 1 }
    let r := syscallDispatch ⟨16, 0, spawnAt 12, none, fun _ s => s⟩ frame userOnCpu.entry
    Mapped imageTables 0x100000 userCodeBase ∧ Mapped imageTables 0x100000 (userStackTop - 1) ∧
      userRangeOk frame.ecx frame.edx = true ∧ ¬FaultFree imageTables 0x100000 r.2.2.trace := by
  intro frame r
  refine ⟨by decide +kernel, by decide +kernel, by decide, fun h => ?_⟩
  have haccess : Event.access 0x10000000 1 ∈ r.2.2.trace := by decide +kernel
  exact absurd (h _ _ haccess 0 (by decide)) (by decide +kernel)

/-- Ten bytes are written from the page of code. -/
theorem user_bytes_mapped_code :
    Event.access (userCodeBase + 9) 1 ∈ writeTen.2.2.trace ∧ FaultFree imageTables 0x100000 writeTen.2.2.trace := by
  refine ⟨by decide +kernel, ?_⟩
  refine (user_bytes_mapped _ _ _ _ userOnCpu ?_ (.inr rfl)).mpr fun _ i hi _ => ?_
  · decide
  · have hbytes : ∀ i < 10, Mapped imageTables 0x100000 (userCodeBase + i) := by decide +kernel
    exact hbytes i hi

end HekaOS.Tasks
