import HekaOS.KernelLog
import HekaOS.TaskInput
import HekaOS.KmemDynAlloc

/-!
# The output log of a task

`task_log_putchar` keeps what a task writes in a ring of 1024 bytes of its own, allocated at the first
byte, and `task_dump_log` prints it.
-/

namespace HekaOS.Tasks
open MachineWord KernelMemory PointerChain ByteMemory LogRing Vga

variable {s t : KState} {x y : Task} {a b c fd pid fuel count : ℕ} {l : List ℕ} {env : SysEnv}

/-- A byte that a task wrote, as a character. -/
def logByte (c : ℕ) : Byte := BitVec.ofNat 8 c

/-- The walk of `task_dump_log` to the task with a pid. -/
def dumpTarget (fuel pid : ℕ) (s : KState) : Option (Option ℕ) :=
  find s.next (fun t => decide ((s.task t).pid = pid)) fuel s.taskListHead

/-- The place of the oldest byte. -/
def logStart (x : Task) : ℕ := if x.logLen < taskLogSize then 0 else x.logHead

def taskDumpLog (fuel pid : ℕ) (s : KState) (v : Display) : Kernel Display := do
  let r ← ended (dumpTarget fuel pid s)
  match r with
  | none => .ok (terminalWrite (chars "plog: no such pid\n") v)
  | some t =>
    match (s.task t).logBuf with
    | none => .ok v
    | some buf =>
      if (s.task t).logLen = 0 then .ok v
      else .ok ((List.range (s.task t).logLen).foldl (fun v i =>
        terminalPutchar (logByte (buf ((logStart (s.task t) + i) &&& (taskLogSize - 1)))) v) v)

/-- `kmem_alloc (TASK_LOG_SIZE)` returns a block, or it does not return. -/
theorem kmemAlloc_ne_null {ok : ℕ → Bool} {h h' : KmemDynAlloc.Heap} {p size : ℕ} (hsize : size ≠ 0)
    (halloc : KmemDynAlloc.kmemAlloc fuel ok size h = .ok (p, h')) : p ≠ 0 := by
  have htaken : ∀ {blk : ℕ} {h'' : KmemDynAlloc.Heap}, (blk + KmemDynAlloc.headerSize, h'') = (p, h') → p ≠ 0 := by
    intro blk h'' htake
    rw [← (Prod.mk.inj htake).1]
    exact Nat.succ_ne_zero _
  simp only [KmemDynAlloc.kmemAlloc, hsize, ↓reduceIte, bind_eq_ok] at halloc
  obtain ⟨r, -, halloc⟩ := halloc
  cases r with
  | some blk => exact htaken (Except.ok.inj halloc)
  | none =>
    obtain ⟨h₁, -, halloc⟩ := bind_eq_ok.mp halloc
    obtain ⟨r, -, halloc⟩ := bind_eq_ok.mp halloc
    cases r with
    | some blk => exact htaken (Except.ok.inj halloc)
    | none => simp [kpanic] at halloc

/-- The log fields stand for the bytes `l`, in the buffer of the task or in any one that it gets. -/
structure LogShape (x : Task) (l : List ℕ) : Prop where
  fresh : x.logBuf = none → l = []
  holds : ∀ alloc buf, x.logBuf.or alloc = some buf → Holds taskLogSize buf x.logHead x.logLen l

/-- The mask takes a place to its slot. -/
theorem mask_eq_mod (a : ℕ) : a &&& (taskLogSize - 1) = a % taskLogSize := and_low 10 a

theorem logShape_fresh (hhead : x.logHead = 0) (hlen : x.logLen = 0) : LogShape x [] := by
  refine ⟨fun _ => rfl, fun alloc buf _ => ?_⟩
  rw [hhead, hlen]
  exact .nil taskLogSize buf

theorem LogShape.congr (h : LogShape x l) (hbuf : y.logBuf = x.logBuf) (hhead : y.logHead = x.logHead)
    (hlen : y.logLen = x.logLen) : LogShape y l := by
  obtain ⟨hfresh, hholds⟩ := h
  refine ⟨?_, ?_⟩
  · rw [hbuf]
    exact hfresh
  · rw [hbuf, hhead, hlen]
    exact hholds

/-- A byte is logged. -/
theorem taskLogPutchar_shape (h : LogShape (s.task a) l) (hbuf : (s.task a).logBuf.or env.logBuf ≠ none) (c : ℕ) :
    LogShape ((taskLogPutchar env a c s).task a) (l ++ [c]) := by
  obtain ⟨buf, hsome⟩ := Option.ne_none_iff_exists'.mp hbuf
  have hholds := (h.holds env.logBuf buf hsome).put c
  rw [taskLogPutchar, hsome]
  dsimp only
  rw [KState.modify_task_self]
  refine ⟨fun hnone => ?_, fun alloc buf' hbuf' => ?_⟩
  · cases hnone
  · obtain rfl := Option.some.inj hbuf'
    dsimp only [logStore]
    rw [mask_eq_mod]
    exact hholds

theorem taskLogPutchar_buffer (hbuf : (s.task a).logBuf.or env.logBuf ≠ none) (c : ℕ) :
    ((taskLogPutchar env a c s).task a).logBuf.or env.logBuf ≠ none := by
  obtain ⟨buf, hsome⟩ := Option.ne_none_iff_exists'.mp hbuf
  rw [taskLogPutchar, hsome]
  dsimp only
  rw [KState.modify_task_self]
  exact Option.some_ne_none _

theorem taskLogPutchar_user (c : ℕ) : (taskLogPutchar env a c s).user = s.user := by
  unfold taskLogPutchar
  split
  · rfl
  · rfl

/-- The bytes that `sys_write` reads. -/
def userBytes (user : ℕ → ℕ) (buf count : ℕ) : List ℕ := (List.range count).map fun i => user (add32 buf i) % 256

theorem taskLogPutchar_current (c : ℕ) : (taskLogPutchar env a c s).currentTask = s.currentTask := by
  unfold taskLogPutchar
  split
  · rfl
  · rfl

/-- A state that the loop of `sys_write` can be in: the task is on the CPU with a buffer to write to. -/
structure Logging (env : SysEnv) (a : ℕ) (user : ℕ → ℕ) (s : KState) (l : List ℕ) : Prop where
  shape : LogShape (s.task a) l
  buffer : (s.task a).logBuf.or env.logBuf ≠ none
  current : s.currentTask = a
  user : s.user = user

/-- One round of the loop of `sys_write`. -/
theorem Logging.round {user : ℕ → ℕ} (h : Logging env a user s l) (d : ℕ) :
    Logging env a user (taskLogPutchar env s.currentTask (s.user d % 256) (s.access d 1)) (l ++ [user d % 256]) := by
  rw [h.current, h.user]
  have hshape : LogShape ((s.access d 1).task a) l := h.shape
  have hbuffer : ((s.access d 1).task a).logBuf.or env.logBuf ≠ none := h.buffer
  refine ⟨taskLogPutchar_shape hshape hbuffer _, taskLogPutchar_buffer hbuffer _, ?_, ?_⟩
  · rw [taskLogPutchar_current]
    exact h.current
  · rw [taskLogPutchar_user]
    exact h.user

theorem Logging.rounds {user : ℕ → ℕ} (h : Logging env a user s l) (b count : ℕ) :
    Logging env a user ((List.range count).foldl (fun s i =>
      taskLogPutchar env s.currentTask (s.user (add32 b i) % 256) (s.access (add32 b i) 1)) s)
      (l ++ userBytes user b count) := by
  induction count with
  | zero =>
    rw [userBytes, List.range_zero, List.map_nil, List.append_nil]
    exact h
  | succ count ih =>
    have hbytes : userBytes user b (count + 1) = userBytes user b count ++ [user (add32 b count) % 256] := by
      rw [userBytes, List.range_succ, List.map_append]
      rfl
    rw [hbytes, ← List.append_assoc]
    simp only [List.range_succ, List.foldl_append, List.foldl_cons, List.foldl_nil]
    exact ih.round _

/-- The call writes to the log: the descriptor is one of the two and the bytes are the task's. -/
def Writes (fd buf count : ℕ) : Prop := (fd = 1 ∨ fd = 2) ∧ userRangeOk buf count = true

instance (fd buf count : ℕ) : Decidable (Writes fd buf count) := inferInstanceAs (Decidable (_ ∧ _))

/-- Runs of `task_log_putchar` and `sys_write` from the birth of the task on, among other steps that leave the
log of the task alone. Where the task has no buffer yet, `kmem_alloc` returns one (`kmemAlloc_ne_null`). -/
inductive LogRun (a : ℕ) : KState → List ℕ → Prop where
  | start {s : KState} (hbuf : (s.task a).logBuf = none) (hhead : (s.task a).logHead = 0) (hlen : (s.task a).logLen = 0) :
      LogRun a s []
  | putchar {s : KState} {l : List ℕ} {env : SysEnv} (c : ℕ) (h : LogRun a s l)
      (hbuf : (s.task a).logBuf.or env.logBuf ≠ none) : LogRun a (taskLogPutchar env a c s) (l ++ [c])
  | write {s : KState} {l : List ℕ} {env : SysEnv} (fd buf count : ℕ) (h : LogRun a s l) (hcurrent : s.currentTask = a)
      (hbuf : (s.task a).logBuf.or env.logBuf ≠ none) :
      LogRun a (sysWrite env fd buf count s).2 (l ++ if Writes fd buf count then userBytes s.user buf count else [])
  | other {s t : KState} {l : List ℕ} (h : LogRun a s l) (hbuf : (t.task a).logBuf = (s.task a).logBuf)
      (hhead : (t.task a).logHead = (s.task a).logHead) (hlen : (t.task a).logLen = (s.task a).logLen) : LogRun a t l

theorem sysWrite_shape (h : LogShape (s.task a) l) (hcurrent : s.currentTask = a)
    (hbuf : (s.task a).logBuf.or env.logBuf ≠ none) (fd b count : ℕ) :
    LogShape ((sysWrite env fd b count s).2.task a) (l ++ if Writes fd b count then userBytes s.user b count else []) := by
  unfold sysWrite
  by_cases hfd : fd ≠ 1 ∧ fd ≠ 2
  · rw [if_pos hfd, if_neg (by unfold Writes; omega), List.append_nil]
    exact h
  · rw [if_neg hfd]
    cases hrange : userRangeOk b count with
    | false =>
      have hrefused : ¬Writes fd b count := fun hw => Bool.false_ne_true (hrange.symm.trans hw.2)
      rw [if_neg hrefused, List.append_nil]
      exact h
    | true =>
      have haccepted : Writes fd b count := ⟨by omega, hrange⟩
      rw [if_pos haccepted]
      have hstart : Logging env a s.user s l := ⟨h, hbuf, hcurrent, rfl⟩
      exact (hstart.rounds b count).shape

theorem LogRun.shape (h : LogRun a s l) : LogShape (s.task a) l := by
  induction h with
  | start _ hhead hlen => exact logShape_fresh hhead hlen
  | putchar c _ hbuf ih => exact taskLogPutchar_shape ih hbuf c
  | write fd b count _ hcurrent hbuf ih => exact sysWrite_shape ih hcurrent hbuf fd b count
  | other _ hbuf hhead hlen ih => exact ih.congr hbuf hhead hlen

/-- What the logs show: `dmesg` the newest 4096 bytes, `get_log_buf` the first of these, and every index is
one of a slot. -/
structure KernelLogNewest (l : List Byte) (g : KernelLog) : Prop where
  write : g.logWriteIdx < 4096
  read : ∀ i, ((logExtent g).1 + i) % logBufSize < 4096
  dmesg : ∀ v, dmesg g v = terminalWrite (l.rtake 4096) v
  copied : ∀ buf len, (getLogBuf buf len g).2 = min len (min l.length 4096)
  copy : ∀ buf len k, (getLogBuf buf len g).1 k = ((l.rtake 4096).take len).getD k (buf k)

/-- The dump of a task shows the newest 1024 bytes that it wrote. -/
structure TaskLogNewest (a : ℕ) (s : KState) (l : List ℕ) : Prop where
  write : (s.task a).logHead < 1024
  read : ∀ i, (logStart (s.task a) + i) &&& (taskLogSize - 1) < 1024
  dump : ∀ fuel pid v, dumpTarget fuel pid s = some (some a) →
    taskDumpLog fuel pid s v = .ok (terminalWrite ((l.rtake 1024).map logByte) v)

theorem LogShape.head_lt (h : LogShape x l) : x.logHead < taskLogSize := by
  obtain ⟨buf, hbuf⟩ : ∃ buf, x.logBuf.or (some fun _ => 0) = some buf := by
    cases x.logBuf with
    | none => exact ⟨_, rfl⟩
    | some buf => exact ⟨buf, rfl⟩
  exact (h.holds _ buf hbuf).idx_lt (by decide)

theorem LogShape.dump (h : LogShape (s.task a) l) (ha : dumpTarget fuel pid s = some (some a)) (v : Display) :
    taskDumpLog fuel pid s v = .ok (terminalWrite ((l.rtake taskLogSize).map logByte) v) := by
  refine bind_eq_ok.mpr ⟨some a, ended_eq_ok.mpr ha, ?_⟩
  dsimp only
  cases hbuf : (s.task a).logBuf with
  | none =>
    rw [h.fresh hbuf]
    rfl
  | some buf =>
    have hholds := h.holds none buf (by rw [hbuf]; rfl)
    dsimp only
    have hloop : (List.range (s.task a).logLen).foldl (fun v i =>
        terminalPutchar (logByte (buf ((logStart (s.task a) + i) &&& (taskLogSize - 1)))) v) v =
        terminalWrite ((l.rtake taskLogSize).map logByte) v := by
      rw [← hholds.newest, terminalWrite, span, List.map_map, List.foldl_map]
      simp only [mask_eq_mod, Function.comp, logStart]
    split
    · rename_i hzero
      rw [← hloop, hzero]
      rfl
    · rw [hloop]

/-- The logs keep the newest bytes in the order in which they were written. -/
theorem log_rings_keep_newest :
    (∀ l : List Byte, KernelLogNewest l (l.foldl (fun g c => logBufPutchar c g) .boot)) ∧
      ∀ a s l, LogRun a s l → TaskLogNewest a s l := by
  constructor
  · intro l
    have hholds : KernelLog.Holds (l.foldl (fun g c => logBufPutchar c g) .boot) l := printString_holds KernelLog.holds_boot l
    generalize l.foldl (fun g c => logBufPutchar c g) KernelLog.boot = g at hholds
    refine ⟨?_, ?_, ?_, ?_, ?_⟩
    · exact hholds.idx_lt (by decide)
    · exact fun i => Nat.mod_lt _ (by decide)
    · exact fun v => dmesg_eq hholds v
    · intro buf len
      have hlength : (l.rtake logBufSize).length = min l.length 4096 := by
        rw [List.rtake, List.length_drop]
        simp only [logBufSize]
        omega
      rw [(getLogBuf_eq hholds buf len).1, hlength]
    · exact fun buf len k => (getLogBuf_eq hholds buf len).2 k
  · intro a s l h
    have hshape := h.shape
    refine ⟨?_, fun i => ?_, fun fuel pid v ha => hshape.dump ha v⟩
    · exact hshape.head_lt
    · rw [mask_eq_mod]
      exact Nat.mod_lt _ (by decide)

/-- Two bytes that the first task writes. -/
theorem log_rings_keep_newest_first : ∃ s l, LogRun initTask s l ∧ l = [104, 104] ∧ TaskLogNewest initTask s l := by
  have hstart : LogRun initTask (taskInit (fun _ => {}) fun _ => 104) [] := .start rfl rfl rfl
  have hwrite := @LogRun.write _ _ _ ⟨0, 0, ⟨none, 0, false⟩, some fun _ => 0, fun _ s => s⟩ 1 userCodeBase 2 hstart rfl nofun
  exact ⟨_, _, hwrite, by decide, log_rings_keep_newest.2 _ _ _ hwrite⟩

end HekaOS.Tasks
