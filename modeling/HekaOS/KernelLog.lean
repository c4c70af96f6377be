import HekaOS.LogRing
import HekaOS.Vga

/-!
# The kernel log

`printk.c` keeps the output of `printk` in a ring of 4096 bytes. `dmesg` prints the ring, `get_log_buf`
copies it, and `console_flush` prints what came since the last flush.
-/

namespace HekaOS.Vga
open LogRing

/-- `LOG_BUF_SIZE` -/
def logBufSize : ℕ := 4096

structure KernelLog where
  logBuf : ℕ → Byte
  logWriteIdx : ℕ
  logSize : ℕ

/-- The static variables as they are at boot. -/
def KernelLog.boot : KernelLog := ⟨fun _ => 0, 0, 0⟩

def logBufPutchar (c : Byte) (g : KernelLog) : KernelLog :=
  { logBuf := Function.update g.logBuf g.logWriteIdx c
    logWriteIdx := (g.logWriteIdx + 1) % logBufSize
    logSize := if g.logSize < logBufSize then g.logSize + 1 else g.logSize }

def printkPutchar (c : Byte) (g : KernelLog) : KernelLog := logBufPutchar c g

/-- `print_string`, on the characters before the terminator. -/
def printString (str : List Byte) (g : KernelLog) : KernelLog := str.foldl (fun g c => printkPutchar c g) g

/-- `start` and `count`, as `dmesg` and `get_log_buf` compute them. -/
def logExtent (g : KernelLog) : ℕ × ℕ :=
  if g.logSize < logBufSize then (0, g.logWriteIdx) else (g.logWriteIdx, logBufSize)

def dmesg (g : KernelLog) (v : Display) : Display :=
  let (start, count) := logExtent g
  (List.range count).foldl (fun v i => terminalPutchar (g.logBuf ((start + i) % logBufSize)) v) v

/-- The loop of `get_log_buf`, with the rounds that are left of `count`. -/
def copyLog (g : KernelLog) (start len : ℕ) : ℕ → ℕ → ℕ → (ℕ → Byte) → (ℕ → Byte) × ℕ
  | 0, _, copied, buf => (buf, copied)
  | left + 1, i, copied, buf =>
    if copied < len then
      copyLog g start len left (i + 1) (copied + 1)
        (Function.update buf copied (g.logBuf ((start + i) % logBufSize)))
    else (buf, copied)

/-- The buffer after the copy, and the number of bytes in it. -/
def getLogBuf (buf : ℕ → Byte) (len : ℕ) (g : KernelLog) : (ℕ → Byte) × ℕ :=
  let (start, count) := logExtent g
  copyLog g start len count 0 0 buf

/-- The log with the reader of `console_flush`, the terminal, and the bytes the reader has printed on it. -/
structure Console where
  log : KernelLog
  consoleReadIdx : ℕ
  display : Display
  printed : List Byte

/-- `terminal_putchar (log_buf[console_read_idx])`, and the reader moves on. -/
def Console.print (s : Console) : Console :=
  { s with
    display := terminalPutchar (s.log.logBuf s.consoleReadIdx) s.display
    printed := s.printed ++ [s.log.logBuf s.consoleReadIdx]
    consoleReadIdx := (s.consoleReadIdx + 1) % logBufSize }

/-- The loop of `console_flush`, for as many rounds as there is fuel. -/
def consoleFlush : ℕ → Console → Option Console
  | 0, _ => none
  | fuel + 1, s => if s.consoleReadIdx ≠ s.log.logWriteIdx then consoleFlush fuel s.print else some s

variable {g : KernelLog} {v : Display} {s t : Console} {l m : List Byte} {bs : List (List Byte)} {n p start len : ℕ}
  {buf : ℕ → Byte} {c : Byte}

/-- The log is the ring that the bytes `l` leave. -/
def KernelLog.Holds (g : KernelLog) (l : List Byte) : Prop :=
  LogRing.Holds logBufSize g.logBuf g.logWriteIdx g.logSize l

theorem KernelLog.holds_boot : KernelLog.boot.Holds [] := .nil logBufSize _

theorem logBufPutchar_holds (h : g.Holds l) (c : Byte) : (logBufPutchar c g).Holds (l ++ [c]) := h.put c

theorem printString_holds (h : g.Holds l) (str : List Byte) : (printString str g).Holds (l ++ str) := by
  induction str generalizing g l with
  | nil =>
    rw [List.append_nil]
    exact h
  | cons c str ih =>
    have hrest := ih (logBufPutchar_holds h c)
    rw [List.append_assoc, List.singleton_append] at hrest
    exact hrest

/-- Below the wrap the index counts the bytes, so that both branches take the whole ring. -/
theorem logExtent_eq (h : g.Holds l) :
    logExtent g = (if g.logSize < logBufSize then 0 else g.logWriteIdx, g.logSize) := by
  have hidx := h.idx
  have hlen := h.len
  unfold logExtent
  split
  · rw [hidx, Nat.mod_eq_of_lt (by omega)]
    congr 1
    omega
  · congr 1
    omega

theorem foldl_span (f : Byte → Display → Display) (buf : ℕ → Byte) (start n : ℕ) (v : Display) :
    (List.range n).foldl (fun v i => f (buf ((start + i) % logBufSize)) v) v =
      (span logBufSize buf start n).foldl (fun v c => f c v) v := by
  rw [span, List.foldl_map]

/-- `dmesg` prints the newest 4096 bytes. -/
theorem dmesg_eq (h : g.Holds l) (v : Display) : dmesg g v = terminalWrite (l.rtake logBufSize) v := by
  unfold dmesg
  rw [logExtent_eq h]
  dsimp only
  rw [foldl_span terminalPutchar, h.newest]
  rfl

/-- The copy loop stores a prefix of the span behind what was copied before. -/
theorem copyLog_spec (g : KernelLog) (start len left i copied : ℕ) (buf : ℕ → Byte) :
    let m := (span logBufSize g.logBuf (start + i) left).take (len - copied)
    (copyLog g start len left i copied buf).2 = copied + m.length ∧
      ∀ k, (copyLog g start len left i copied buf).1 k =
        if copied ≤ k then m.getD (k - copied) (buf k) else buf k := by
  induction left generalizing i copied buf with
  | zero =>
    refine ⟨?_, fun k => ?_⟩
    · simp [copyLog, span]
    · simp [copyLog, span]
  | succ left ih =>
    rw [copyLog, span_succ]
    by_cases hroom : copied < len
    · have hsucc : len - copied = len - (copied + 1) + 1 := by omega
      rw [if_pos hroom, hsucc, List.take_succ_cons]
      obtain ⟨hcount, hbytes⟩ := ih (i + 1) (copied + 1)
        (Function.update buf copied (g.logBuf ((start + i) % logBufSize)))
      refine ⟨?_, fun k => ?_⟩
      · rw [hcount, List.length_cons, Nat.add_assoc start]
        omega
      · rw [hbytes]
        by_cases hk : copied + 1 ≤ k
        · have hsub : k - copied = k - (copied + 1) + 1 := by omega
          rw [if_pos hk, if_pos (by omega), hsub, List.getD_cons_succ, Function.update_of_ne (by omega)]
          rfl
        · rw [if_neg hk]
          by_cases heq : k = copied
          · subst heq
            simp
          · rw [if_neg (by omega), Function.update_of_ne heq]
    · have hnone : len - copied = 0 := by omega
      rw [if_neg hroom, hnone]
      refine ⟨?_, fun k => ?_⟩
      · simp
      · simp

/-- `get_log_buf` copies the first `len` bytes of what `dmesg` prints, and nothing behind them. -/
theorem getLogBuf_eq (h : g.Holds l) (buf : ℕ → Byte) (len : ℕ) :
    (getLogBuf buf len g).2 = min len (l.rtake logBufSize).length ∧
      ∀ k, (getLogBuf buf len g).1 k = ((l.rtake logBufSize).take len).getD k (buf k) := by
  obtain ⟨hcount, hbytes⟩ :=
    copyLog_spec g (if g.logSize < logBufSize then 0 else g.logWriteIdx) len g.logSize 0 0 buf
  unfold getLogBuf
  rw [logExtent_eq h]
  rw [Nat.add_zero, h.newest] at hcount hbytes
  refine ⟨?_, fun k => ?_⟩
  · rw [hcount, Nat.zero_add, Nat.sub_zero, List.length_take]
  · rw [hbytes, if_pos (Nat.zero_le k)]
    rfl

/-! ### Flushes -/

/-- `n` rounds of the loop of `console_flush`. -/
theorem iterate_print (n : ℕ) (hp : s.consoleReadIdx = p % logBufSize) :
    Console.print^[n] s =
      { log := s.log, consoleReadIdx := (p + n) % logBufSize
        display := terminalWrite (span logBufSize s.log.logBuf p n) s.display
        printed := s.printed ++ span logBufSize s.log.logBuf p n } := by
  induction n generalizing s p with
  | zero =>
    rw [Nat.add_zero, ← hp, span, List.range_zero, List.map_nil, List.append_nil]
    rfl
  | succ n ih =>
    have hnext : s.print.consoleReadIdx = (p + 1) % logBufSize := by
      change (s.consoleReadIdx + 1) % logBufSize = _
      rw [hp, Nat.mod_add_mod]
    rw [Function.iterate_succ_apply, ih hnext, span_succ, ← hp, Nat.add_assoc, Nat.add_comm 1 n]
    have hprinted : s.print.printed = s.printed ++ [s.log.logBuf s.consoleReadIdx] := rfl
    rw [hprinted, List.append_assoc]
    rfl

/-- The reader stops where the writer is, which is less than a round ahead. -/
theorem consoleFlush_eq (fuel : ℕ) (hn : n < logBufSize) (hp : s.consoleReadIdx = p % logBufSize)
    (hend : s.log.logWriteIdx = (p + n) % logBufSize) :
    consoleFlush fuel s = if n < fuel then some (Console.print^[n] s) else none := by
  induction fuel generalizing s p n with
  | zero => rfl
  | succ fuel ih =>
    rw [consoleFlush, hp, hend]
    cases n with
    | zero =>
      rw [if_neg (fun hne => hne rfl), if_pos (Nat.succ_pos fuel)]
      rfl
    | succ n =>
      have hahead : p % logBufSize ≠ (p + (n + 1)) % logBufSize := mod_ne_of_lt (by omega) (by omega)
      have hnext : s.print.consoleReadIdx = (p + 1) % logBufSize := by
        change (s.consoleReadIdx + 1) % logBufSize = _
        rw [hp, Nat.mod_add_mod]
      have hrest : s.print.log.logWriteIdx = (p + 1 + n) % logBufSize := by
        rw [Nat.add_assoc, Nat.add_comm 1 n]
        exact hend
      rw [if_pos hahead, ih (by omega) hnext hrest, Function.iterate_succ_apply]
      simp only [Nat.add_lt_add_iff_right]

/-- Runs of log writes and flushes from boot on, among other uses of the terminal, with the bytes that were
written before each flush and the bytes that were written since. -/
inductive ConsoleRun : Console → List (List Byte) → List Byte → Prop where
  | boot (v : Display) : ConsoleRun ⟨.boot, 0, v, []⟩ [] []
  | log {s : Console} {bs : List (List Byte)} {l : List Byte} (c : Byte) (h : ConsoleRun s bs l) :
      ConsoleRun { s with log := logBufPutchar c s.log } bs (l ++ [c])
  | flush {s t : Console} {bs : List (List Byte)} {l : List Byte} {fuel : ℕ} (h : ConsoleRun s bs l)
      (hflush : consoleFlush fuel s = some t) : ConsoleRun t (bs ++ [l]) []
  | terminal {s : Console} {bs : List (List Byte)} {l : List Byte} (v : Display) (h : ConsoleRun s bs l) :
      ConsoleRun { s with display := v } bs l

/-- What a flush prints of the bytes that were written since the last one: the amount is known only up to
the size of the ring. -/
def flushed (l : List Byte) : List Byte := l.rtake (l.length % logBufSize)

/-- Where reader and writer are. -/
structure ConsoleAt (s : Console) (bs : List (List Byte)) (l : List Byte) : Prop where
  log : s.log.Holds (bs.flatten ++ l)
  reader : s.consoleReadIdx = bs.flatten.length % logBufSize
  printed : s.printed = (bs.map flushed).flatten

theorem ConsoleAt.consoleFlush (h : ConsoleAt s bs l) (fuel : ℕ) :
    consoleFlush fuel s = if l.length % logBufSize < fuel then
      some { s with
        consoleReadIdx := s.log.logWriteIdx
        display := terminalWrite (flushed l) s.display
        printed := s.printed ++ flushed l }
    else none := by
  have hsize : 0 < logBufSize := by decide
  have hidx := h.log.idx
  have hlt : l.length % logBufSize < logBufSize := Nat.mod_lt _ hsize
  have hle : l.length % logBufSize ≤ l.length := Nat.mod_le _ _
  have hwhole : l.length - l.length % logBufSize = logBufSize * (l.length / logBufSize) :=
    Nat.sub_eq_of_eq_add (Nat.div_add_mod _ _).symm
  -- the place in the log from which the loop reads
  obtain ⟨p, hp⟩ : ∃ p, p = bs.flatten.length + (l.length - l.length % logBufSize) := ⟨_, rfl⟩
  have hreader : s.consoleReadIdx = p % logBufSize := by
    rw [h.reader, hp, hwhole, Nat.add_mul_mod_self_left]
  have htotal : (bs.flatten ++ l).length = p + l.length % logBufSize := by
    rw [List.length_append]
    omega
  have hwriter : s.log.logWriteIdx = (p + l.length % logBufSize) % logBufSize := by
    rw [hidx, htotal]
  have hspan : span logBufSize s.log.logBuf p (l.length % logBufSize) = flushed l := by
    have hshown := h.log.span (p := p) (by omega) (by omega)
    rw [htotal, Nat.add_sub_cancel_left] at hshown
    rw [hshown, hp, flushed, List.rtake]
    exact List.drop_length_add_append _
  rw [consoleFlush_eq fuel hlt hreader hwriter, iterate_print _ hreader, hspan, ← hwriter]

theorem ConsoleRun.at (h : ConsoleRun s bs l) : ConsoleAt s bs l := by
  induction h with
  | boot v => exact ⟨KernelLog.holds_boot, rfl, rfl⟩
  | log c _ ih =>
    refine ⟨?_, ih.reader, ih.printed⟩
    rw [← List.append_assoc]
    exact logBufPutchar_holds ih.log c
  | flush _ hflush ih =>
    rename_i s t bs l fuel _
    rw [ih.consoleFlush] at hflush
    split at hflush
    · obtain rfl := Option.some.inj hflush
      refine ⟨?_, ?_, ?_⟩
      · simpa using ih.log
      · have hidx := ih.log.idx
        simpa using hidx
      · simp [ih.printed]
    · cases hflush
  | terminal v _ ih => exact ⟨ih.log, ih.reader, ih.printed⟩

/-- Everything that was written up to the last flush has been printed, once and in order. -/
def NothingLost (s : Console) (bs : List (List Byte)) : Prop := s.printed = bs.flatten

theorem flushed_eq_iff (l : List Byte) : flushed l = l ↔ l.length < logBufSize := by
  have hsize : 0 < logBufSize := by decide
  constructor
  · intro h
    have hlength := congrArg List.length h
    have hlt : l.length % logBufSize < logBufSize := Nat.mod_lt _ hsize
    rw [flushed, List.rtake, List.length_drop] at hlength
    omega
  · intro h
    rw [flushed, Nat.mod_eq_of_lt h, List.rtake, Nat.sub_self, List.drop_zero]

theorem flushed_length_le (l : List Byte) : (flushed l).length ≤ l.length := by
  rw [flushed, List.rtake, List.length_drop]
  exact Nat.sub_le _ _

/-- Where no list gets longer, the whole is unchanged only if every part is. -/
theorem flatten_map_eq_iff {f : List Byte → List Byte} (hle : ∀ l, (f l).length ≤ l.length)
    (hsame : ∀ l, (f l).length = l.length → f l = l) (bs : List (List Byte)) :
    (bs.map f).flatten = bs.flatten ↔ ∀ b ∈ bs, f b = b := by
  have hlength : ∀ bs : List (List Byte), (bs.map f).flatten.length ≤ bs.flatten.length := by
    intro bs
    induction bs with
    | nil => exact Nat.le_refl 0
    | cons b bs ih =>
      simp only [List.map_cons, List.flatten_cons, List.length_append]
      exact Nat.add_le_add (hle b) ih
  constructor
  · intro h
    induction bs with
    | nil => exact fun b hb => nomatch hb
    | cons b bs ih =>
      simp only [List.map_cons, List.flatten_cons] at h
      have htotal := congrArg List.length h
      rw [List.length_append, List.length_append] at htotal
      have hb := hle b
      have hbs := hlength bs
      have hhead : f b = b := hsame b (by omega)
      rw [hhead] at h
      have htail := ih (List.append_cancel_left h)
      exact List.forall_mem_cons.mpr ⟨hhead, htail⟩
  · intro h
    rw [List.map_congr_left h, List.map_id']

theorem ConsoleAt.nothingLost_iff (h : ConsoleAt s bs l) : NothingLost s bs ↔ ∀ b ∈ bs, b.length < logBufSize := by
  rw [NothingLost, h.printed, flatten_map_eq_iff flushed_length_le]
  · simp only [flushed_eq_iff]
  · intro l hlength
    rw [flushed, List.rtake, List.length_drop] at hlength
    have hlt : l.length % logBufSize < logBufSize := Nat.mod_lt _ (by decide)
    have hle : l.length % logBufSize ≤ l.length := Nat.mod_le _ _
    have hall : l.length - l.length % logBufSize = 0 := by omega
    rw [flushed, List.rtake, hall, List.drop_zero]

/-- Every flush ends, and the flushes lose nothing exactly as long as none of them finds a whole round
of bytes or more. -/
theorem console_flush_complete_iff (s : Console) (bs : List (List Byte)) (l : List Byte) (h : ConsoleRun s bs l) :
    (∃ t, consoleFlush 4096 s = some t) ∧ (NothingLost s bs ↔ ∀ b ∈ bs, b.length < 4096) := by
  refine ⟨?_, h.at.nothingLost_iff⟩
  have hlt : l.length % logBufSize < 4096 := Nat.mod_lt _ (by decide)
  rw [h.at.consoleFlush, if_pos hlt]
  exact ⟨_, rfl⟩

/-- A byte, a flush, and another byte. -/
theorem console_flush_complete_iff_first : ∃ s, ConsoleRun s [[97]] [98] ∧ NothingLost s [[97]] := by
  have hlogged := (ConsoleRun.boot .zero).log 97
  obtain ⟨t, ht⟩ := (console_flush_complete_iff _ _ _ hlogged).1
  have hrun := (hlogged.flush ht).log 98
  refine ⟨_, hrun, (console_flush_complete_iff _ _ _ hrun).2.mpr ?_⟩
  decide

theorem ConsoleRun.logs (h : ConsoleRun s bs l) (m : List Byte) : ∃ t, ConsoleRun t bs (l ++ m) := by
  induction m generalizing s l with
  | nil =>
    rw [List.append_nil]
    exact ⟨s, h⟩
  | cons c m ih =>
    obtain ⟨t, ht⟩ := ih (h.log c)
    rw [List.append_assoc, List.singleton_append] at ht
    exact ⟨t, ht⟩

/-- 4096 bytes before the first flush: the reader finds the writer where it is itself. -/
theorem console_flush_complete_fails : ∃ s bs l, ConsoleRun s bs l ∧ (∀ b ∈ bs, b.length ≤ 4096) ∧
    ¬NothingLost s bs := by
  obtain ⟨s, hs⟩ := (ConsoleRun.boot .zero).logs (List.replicate 4096 97)
  rw [List.nil_append] at hs
  have hlength : (List.replicate 4096 (97 : Byte)).length = 4096 := List.length_replicate
  have hflush := hs.at.consoleFlush 1
  rw [hlength, if_pos (by decide)] at hflush
  have hrun := hs.flush hflush
  refine ⟨_, _, _, hrun, ?_, fun hall => ?_⟩
  · intro b hb
    obtain rfl := List.mem_singleton.mp hb
    exact hlength.le
  · have hlt := hrun.at.nothingLost_iff.mp hall _ (List.mem_singleton.mpr rfl)
    rw [hlength] at hlt
    exact absurd hlt (by decide)

end HekaOS.Vga
