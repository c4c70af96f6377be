import HekaOS.RingBuffer
import HekaOS.Syscall

/-!
# The input of a task

`task_feed` puts the bytes of a line into the ring buffer of a task and `task_input_read` takes them
out, so that a task reads what was fed to it, in order and once, as far as there was room for it.
-/

namespace HekaOS.Tasks
open MachineWord KernelMemory PointerChain ByteMemory RingBuffer

variable {s t : KState} {x : Task} {a b c dst pid v n left fuel : ℕ} {alloc : Option (ℕ → ℕ)} {buf : ℕ → ℕ}
  {str l : List ℕ}

def taskInputPush (t c : ℕ) (s : KState) : KState :=
  let next := ((s.task t).inHead + 1) &&& (taskInputSize - 1)
  if next = (s.task t).inTail then s
  else s.modify t fun x => { x with
    inBuf := x.inBuf.map fun buf => Function.update buf x.inHead c
    inHead := next }

/-- The loop of `task_feed`, over the bytes from `s` on. -/
def feedString (t : ℕ) : List ℕ → KState → KState
  | [], s => s
  | c :: str, s => if c = 0 then s else feedString t str (taskInputPush t c s)

/-- The walk of `task_feed` to the task with a pid. -/
def feedTarget (fuel pid : ℕ) (s : KState) : Option (Option ℕ) :=
  find s.next (fun t => decide ((s.task t).pid = pid)) fuel s.taskListHead

/-- `alloc` is what `kmem_alloc` returns for the buffer, with whatever it holds. -/
def taskFeed (fuel : ℕ) (alloc : Option (ℕ → ℕ)) (pid : ℕ) (str : List ℕ) (s : KState) : Kernel (ℕ × KState) := do
  let r ← ended (feedTarget fuel pid s)
  match r with
  | none => .ok (minusOne, s)
  | some t =>
    match (s.task t).inBuf.or alloc with
    | none => .ok (minusOne, s)
    | some buf =>
      let s := s.modify t fun x => { x with inBuf := some buf }
      -- the line ends with `'\n'`
      .ok (0, taskInputPush t 10 (feedString t str s))

/-- The bytes that wait in the buffer, the oldest one first. -/
def Task.input (x : Task) : List ℕ :=
  match x.inBuf with
  | none => []
  | some buf => contents taskInputSize buf x.inHead x.inTail

/-- The bytes that a feed brings: the string up to its end, and a newline. -/
def inputLine (str : List ℕ) : List ℕ := str.takeWhile (fun c => decide (c ≠ 0)) ++ [10]

/-- One slot stays free. -/
def inputCapacity : ℕ := taskInputSize - 1

/-- Head and tail are slots, and equal as long as there is no buffer. -/
structure InputShape (x : Task) (l : List ℕ) : Prop where
  head : x.inHead < taskInputSize
  tail : x.inTail < taskInputSize
  fresh : x.inBuf = none → x.inHead = x.inTail
  input : x.input = l

theorem Task.input_some (h : x.inBuf = some buf) : x.input = contents taskInputSize buf x.inHead x.inTail := by
  rw [Task.input, h]

/-- The mask takes a slot to the next one. -/
theorem mask_eq_next (h : a < taskInputSize) : (a + 1) &&& (taskInputSize - 1) = next taskInputSize a := by
  have hmask : (a + 1) &&& (taskInputSize - 1) = (a + 1) % taskInputSize := and_low 8 _
  rw [hmask]
  have hsize : taskInputSize = 256 := rfl
  unfold next
  by_cases hlast : a + 1 = taskInputSize
  · rw [if_pos hlast, hlast, Nat.mod_self]
  · rw [if_neg hlast, Nat.mod_eq_of_lt (by omega)]

theorem InputShape.length_le (h : InputShape x l) : l.length ≤ inputCapacity := by
  have hinput := h.input
  cases hbuf : x.inBuf with
  | none =>
    rw [Task.input, hbuf] at hinput
    rw [← hinput]
    exact Nat.zero_le _
  | some buf =>
    rw [Task.input_some hbuf] at hinput
    have hcount := count_lt h.head h.tail
    rw [← hinput, contents_length]
    unfold inputCapacity
    omega

/-- A buffer that was just allocated is empty, whatever it holds. -/
theorem InputShape.buffer (h : InputShape x l) (hbuf : x.inBuf.or alloc = some buf) :
    InputShape { x with inBuf := some buf } l := by
  refine ⟨h.head, h.tail, fun hnone => ?_, ?_⟩
  · cases hnone
  · have hinput := h.input
    cases hx : x.inBuf with
    | none =>
      have hempty : x.inHead = x.inTail := h.fresh hx
      rw [Task.input, hx] at hinput
      rw [← hinput]
      change contents taskInputSize buf x.inHead x.inTail = []
      rw [hempty]
      exact contents_self
    | some old =>
      rw [hx] at hbuf
      obtain rfl := Option.some.inj hbuf
      rw [Task.input_some hx] at hinput
      exact hinput

/-- A byte is put into the buffer if there is room for it. -/
theorem taskInputPush_task (h : InputShape (s.task a) l) (hbuf : (s.task a).inBuf ≠ none) :
    InputShape ((taskInputPush a c s).task a) (push inputCapacity l c) ∧
      ((taskInputPush a c s).task a).inBuf ≠ none := by
  obtain ⟨buf, hsome⟩ := Option.ne_none_iff_exists'.mp hbuf
  have hinput := h.input
  rw [Task.input_some hsome] at hinput
  have hlength : l.length = count taskInputSize (s.task a).inHead (s.task a).inTail := by
    rw [← hinput, contents_length]
  unfold taskInputPush
  dsimp only
  rw [mask_eq_next h.head]
  split
  · rename_i hfull
    have hcount := (next_eq_iff h.head h.tail).mp hfull
    have hroom : ¬l.length < inputCapacity := by
      unfold inputCapacity
      omega
    rw [push, if_neg hroom]
    exact ⟨h, hbuf⟩
  · rename_i hroom
    have hcount := mt (next_eq_iff h.head h.tail).mpr hroom
    have hlt := count_lt h.head h.tail
    have hlen : l.length < inputCapacity := by
      unfold inputCapacity
      omega
    rw [push, if_pos hlen, KState.modify_task_self]
    have hstored : (s.task a).inBuf.map (fun buf => Function.update buf (s.task a).inHead c) =
        some (Function.update buf (s.task a).inHead c) := by
      rw [hsome]
      rfl
    refine ⟨⟨next_lt h.head, h.tail, fun hnone => ?_, ?_⟩, ?_⟩
    · rw [hsome] at hnone
      cases hnone
    · refine (Task.input_some hstored).trans ?_
      rw [← hinput]
      exact contents_push h.head h.tail hroom
    · rw [hsome]
      exact Option.some_ne_none _

/-- Pushing to a task leaves the others alone. -/
theorem taskInputPush_other (hb : b ≠ a) : (taskInputPush a c s).task b = s.task b := by
  unfold taskInputPush
  dsimp only
  split
  · rfl
  · exact KState.modify_task_of_ne s _ hb

theorem feedString_task (h : InputShape (s.task a) l) (hbuf : (s.task a).inBuf ≠ none) :
    InputShape ((feedString a str s).task a)
        ((str.takeWhile fun c => decide (c ≠ 0)).foldl (push inputCapacity) l) ∧
      ((feedString a str s).task a).inBuf ≠ none := by
  induction str generalizing s l with
  | nil => exact ⟨h, hbuf⟩
  | cons c str ih =>
    unfold feedString
    by_cases hend : c = 0
    · rw [if_pos hend, List.takeWhile_cons_of_neg (by simpa using hend)]
      exact ⟨h, hbuf⟩
    · rw [if_neg hend, List.takeWhile_cons_of_pos (by simpa using hend), List.foldl_cons]
      obtain ⟨hpush, hbuf'⟩ := taskInputPush_task (c := c) h hbuf
      exact ih hpush hbuf'

theorem feedString_other (hb : b ≠ a) : (feedString a str s).task b = s.task b := by
  induction str generalizing s with
  | nil => rfl
  | cons c str ih =>
    unfold feedString
    split
    · rfl
    · rw [ih, taskInputPush_other hb]

/-- The walk found a task and there is a buffer for it, so that the line goes there; or there is no such
task or no buffer for it, and nothing has changed. -/
theorem taskFeed_cases (hok : taskFeed fuel alloc pid str s = .ok (v, t)) :
    (∃ a buf, feedTarget fuel pid s = some (some a) ∧ (s.task a).inBuf.or alloc = some buf ∧ v = 0 ∧
        t = taskInputPush a 10 (feedString a str (s.modify a fun x => { x with inBuf := some buf }))) ∨
      (∀ a, feedTarget fuel pid s = some (some a) → (s.task a).inBuf.or alloc = none) ∧ v = minusOne ∧ t = s := by
  unfold taskFeed at hok
  obtain ⟨r, hr, hok⟩ := bind_eq_ok.mp hok
  rw [ended_eq_ok] at hr
  cases r with
  | none =>
    obtain ⟨rfl, rfl⟩ := Prod.mk.inj (Except.ok.inj hok)
    refine .inr ⟨fun a ha => ?_, rfl, rfl⟩
    cases hr.symm.trans ha
  | some a =>
    dsimp only at hok
    cases hbuf : (s.task a).inBuf.or alloc with
    | none =>
      rw [hbuf] at hok
      obtain ⟨rfl, rfl⟩ := Prod.mk.inj (Except.ok.inj hok)
      refine .inr ⟨fun b hb => ?_, rfl, rfl⟩
      obtain rfl : a = b := Option.some.inj (Option.some.inj (hr.symm.trans hb))
      exact hbuf
    | some buf =>
      rw [hbuf] at hok
      obtain ⟨rfl, rfl⟩ := Prod.mk.inj (Except.ok.inj hok)
      exact .inl ⟨a, buf, hr, hbuf, rfl, rfl⟩

theorem foldl_inputLine (str l : List ℕ) :
    push inputCapacity ((str.takeWhile fun c => decide (c ≠ 0)).foldl (push inputCapacity) l) 10 =
      (inputLine str).foldl (push inputCapacity) l := by
  rw [inputLine, List.foldl_append]
  rfl

/-- A feed that reached the task has put the line into its buffer. -/
theorem taskFeed_task (h : InputShape (s.task a) l) (hok : taskFeed fuel alloc pid str s = .ok (0, t))
    (ha : feedTarget fuel pid s = some (some a)) :
    InputShape (t.task a) ((inputLine str).foldl (push inputCapacity) l) := by
  rcases taskFeed_cases hok with ⟨b, buf, hb, hbuf, -, rfl⟩ | ⟨-, hv, -⟩
  · obtain rfl : b = a := Option.some.inj (Option.some.inj (hb.symm.trans ha))
    have hshape : InputShape ((s.modify b fun x => { x with inBuf := some buf }).task b) l := by
      rw [KState.modify_task_self]
      exact h.buffer hbuf
    have hsome : ((s.modify b fun x => { x with inBuf := some buf }).task b).inBuf ≠ none := by
      rw [KState.modify_task_self]
      exact Option.some_ne_none buf
    rw [← foldl_inputLine]
    obtain ⟨hfed, hfed'⟩ := feedString_task hshape hsome
    exact (taskInputPush_task hfed hfed').1
  · exact absurd hv (by decide)

/-- A feed that did not reach the task leaves it alone. -/
theorem taskFeed_other (hok : taskFeed fuel alloc pid str s = .ok (v, t))
    (ha : ¬(feedTarget fuel pid s = some (some a) ∧ v = 0)) : t.task a = s.task a := by
  rcases taskFeed_cases hok with ⟨b, buf, hb, -, rfl, rfl⟩ | ⟨-, -, rfl⟩
  · have hne : a ≠ b := by
      rintro rfl
      exact ha ⟨hb, rfl⟩
    rw [taskInputPush_other hne, feedString_other hne, KState.modify_task_of_ne s _ hne]
  · rfl

/-- The bytes that a read returns are the oldest ones, stored in order, and they are gone then. -/
structure InputTaken (s : KState) (a dst n left : ℕ) (l : List ℕ) (r : ℕ × KState) : Prop where
  count : r.1 = n + min left l.length
  shape : InputShape (r.2.task a) (l.drop left)
  stored : r.2.user = storeBytes s.user (dst + n) (l.take left)
  others : ∀ b, b ≠ a → r.2.task b = s.task b

theorem taskInputRead_taken (h : InputShape (s.task a) l) (dst n left : ℕ) :
    InputTaken s a dst n left l (taskInputRead a dst left n s) := by
  induction left generalizing s l n with
  | zero =>
    rw [taskInputRead]
    exact ⟨by simp, h, rfl, fun _ _ => rfl⟩
  | succ left ih =>
    rw [taskInputRead]
    have hinput := h.input
    cases hbuf : (s.task a).inBuf with
    | none =>
      rw [Task.input, hbuf] at hinput
      subst hinput
      exact ⟨by simp, h, rfl, fun _ _ => rfl⟩
    | some buf =>
      rw [Task.input_some hbuf] at hinput
      dsimp only
      split
      · rename_i hempty
        rw [hempty, contents_self] at hinput
        subst hinput
        exact ⟨by simp, h, rfl, fun _ _ => rfl⟩
      · rename_i hsome
        rw [contents_pop h.head h.tail hsome] at hinput
        subst hinput
        rw [mask_eq_next h.tail]
        have hrest : InputShape (((s.writeUser (add32 dst n) [buf (s.task a).inTail]).modify a fun x =>
            { x with inTail := next taskInputSize (s.task a).inTail }).task a)
            (contents taskInputSize buf (s.task a).inHead (next taskInputSize (s.task a).inTail)) := by
          rw [KState.modify_task_self]
          refine ⟨h.head, next_lt h.tail, fun hnone => ?_, Task.input_some hbuf⟩
          exact absurd (hbuf.symm.trans hnone) (Option.some_ne_none buf)
        have hr := ih hrest (n + 1)
        refine ⟨?_, hr.shape, ?_, fun b hb => ?_⟩
        · rw [hr.count, List.length_cons]
          omega
        · have haddr : add32 dst n % wordSize = (dst + n) % wordSize := Nat.mod_mod _ _
          rw [hr.stored, List.take_succ_cons, storeBytes, ← haddr, ← Nat.add_assoc]
          rfl
        · rw [hr.others b hb, KState.modify_task_of_ne _ _ hb]
          rfl

/-- The queue that the buffer stands for: the bytes that wait, those that were ever accepted, and
those that were read. -/
structure InputQueue where
  waiting : List ℕ
  accepted : List ℕ
  taken : List ℕ

namespace InputQueue

/-- A byte arrives: it is dropped when 255 bytes wait. -/
def feed (q : InputQueue) (c : ℕ) : InputQueue :=
  if q.waiting.length < inputCapacity then
    { q with waiting := q.waiting ++ [c], accepted := q.accepted ++ [c] }
  else q

/-- The oldest bytes are read. -/
def read (count : ℕ) (q : InputQueue) : InputQueue :=
  { q with waiting := q.waiting.drop count, taken := q.taken ++ q.waiting.take count }

variable {q : InputQueue}

theorem feed_waiting (q : InputQueue) (c : ℕ) : (q.feed c).waiting = push inputCapacity q.waiting c := by
  unfold feed push
  split
  · rfl
  · rfl

theorem foldl_feed_waiting (l : List ℕ) (q : InputQueue) :
    (l.foldl feed q).waiting = l.foldl (push inputCapacity) q.waiting := by
  induction l generalizing q with
  | nil => rfl
  | cons c l ih => rw [List.foldl_cons, ih, feed_waiting, List.foldl_cons]

theorem feed_lossless (c : ℕ) (h : q.accepted = q.taken ++ q.waiting) :
    (q.feed c).accepted = (q.feed c).taken ++ (q.feed c).waiting := by
  unfold feed
  split
  · rw [h, List.append_assoc]
  · exact h

theorem foldl_feed_lossless (l : List ℕ) (h : q.accepted = q.taken ++ q.waiting) :
    (l.foldl feed q).accepted = (l.foldl feed q).taken ++ (l.foldl feed q).waiting := by
  induction l generalizing q with
  | nil => exact h
  | cons c l ih => exact ih (feed_lossless c h)

theorem read_lossless (count : ℕ) (h : q.accepted = q.taken ++ q.waiting) :
    (q.read count).accepted = (q.read count).taken ++ (q.read count).waiting := by
  change q.accepted = q.taken ++ q.waiting.take count ++ q.waiting.drop count
  rw [h, List.append_assoc, List.take_append_drop]

end InputQueue

/-- The input fields as `memset` leaves them. -/
structure FreshInput (x : Task) : Prop where
  buf : x.inBuf = none
  head : x.inHead = 0
  tail : x.inTail = 0

theorem FreshInput.shape (h : FreshInput x) : InputShape x [] := by
  have hsize : 0 < taskInputSize := by decide
  refine ⟨?_, ?_, fun _ => ?_, ?_⟩
  · rw [h.head]
    exact hsize
  · rw [h.tail]
    exact hsize
  · rw [h.head, h.tail]
  · rw [Task.input, h.buf]

/-- The line has gone to the task. -/
def Reaches (s : KState) (fuel pid a v : ℕ) : Prop := feedTarget fuel pid s = some (some a) ∧ v = 0

/-- Runs of feeds and reads in any order, from the birth of the task on, among other steps that leave
the input fields of the task alone. -/
inductive InputRun (a : ℕ) : KState → InputQueue → Prop where
  | start {s : KState} (h : FreshInput (s.task a)) : InputRun a s ⟨[], [], []⟩
  | feed {s t : KState} {q : InputQueue} {fuel pid v : ℕ} {alloc : Option (ℕ → ℕ)} {str : List ℕ}
      (h : InputRun a s q) (hok : taskFeed fuel alloc pid str s = .ok (v, t)) (hto : Reaches s fuel pid a v) :
      InputRun a t ((inputLine str).foldl InputQueue.feed q)
  | pass {s t : KState} {q : InputQueue} {fuel pid v : ℕ} {alloc : Option (ℕ → ℕ)} {str : List ℕ}
      (h : InputRun a s q) (hok : taskFeed fuel alloc pid str s = .ok (v, t)) (hto : ¬Reaches s fuel pid a v) :
      InputRun a t q
  | read {s : KState} {q : InputQueue} (dst count : ℕ) (h : InputRun a s q) :
      InputRun a (taskInputRead a dst count 0 s).2 (q.read count)
  | other {s t : KState} {q : InputQueue} (h : InputRun a s q) (hbuf : (t.task a).inBuf = (s.task a).inBuf)
      (hhead : (t.task a).inHead = (s.task a).inHead) (htail : (t.task a).inTail = (s.task a).inTail) : InputRun a t q

theorem InputShape.congr {y : Task} (h : InputShape x l) (hbuf : y.inBuf = x.inBuf) (hhead : y.inHead = x.inHead)
    (htail : y.inTail = x.inTail) : InputShape y l := by
  obtain ⟨h₁, h₂, h₃, h₄⟩ := h
  unfold Task.input at h₄
  refine ⟨?_, ?_, ?_, ?_⟩
  · rw [hhead]
    exact h₁
  · rw [htail]
    exact h₂
  · rw [hbuf, hhead, htail]
    exact h₃
  · unfold Task.input
    rw [hbuf, hhead, htail]
    exact h₄

variable {q : InputQueue}

theorem InputRun.shape (h : InputRun a s q) : InputShape (s.task a) q.waiting := by
  induction h with
  | start h => exact h.shape
  | feed _ hok hto ih =>
    obtain ⟨ha, rfl⟩ := hto
    rw [InputQueue.foldl_feed_waiting]
    exact taskFeed_task ih hok ha
  | pass _ hok hto ih =>
    rw [taskFeed_other hok hto]
    exact ih
  | read dst count _ ih => exact (taskInputRead_taken ih dst 0 count).shape
  | other _ hbuf hhead htail ih => exact ih.congr hbuf hhead htail

theorem InputRun.lossless (h : InputRun a s q) : q.accepted = q.taken ++ q.waiting := by
  induction h with
  | start _ => rfl
  | feed _ _ _ ih => exact InputQueue.foldl_feed_lossless _ ih
  | pass _ _ _ ih => exact ih
  | read _ count _ ih => exact InputQueue.read_lossless count ih
  | other _ _ _ _ ih => exact ih

/-- The buffer of the task is the queue, and the next call acts on the queue. -/
structure InputFifo (a : ℕ) (s : KState) (q : InputQueue) : Prop where
  head : (s.task a).inHead < 256
  tail : (s.task a).inTail < 256
  bound : q.waiting.length ≤ 255
  waiting : (s.task a).input = q.waiting
  lossless : q.accepted = q.taken ++ q.waiting
  feed : ∀ fuel alloc pid str v t, taskFeed fuel alloc pid str s = .ok (v, t) → Reaches s fuel pid a v →
    (t.task a).input = q.waiting ++ (inputLine str).take (255 - q.waiting.length)
  pass : ∀ fuel alloc pid str v t, taskFeed fuel alloc pid str s = .ok (v, t) → ¬Reaches s fuel pid a v →
    (t.task a).input = q.waiting
  readCount : ∀ dst count, (taskInputRead a dst count 0 s).1 = min count q.waiting.length
  readBytes : ∀ dst count, (taskInputRead a dst count 0 s).2.user = storeBytes s.user dst (q.waiting.take count)
  readRest : ∀ dst count, ((taskInputRead a dst count 0 s).2.task a).input = q.waiting.drop count
  sysRead : ∀ addr count, s.currentTask = a → userRangeOk addr count = true →
    sysRead 0 addr count s = (.returned (min count q.waiting.length), (taskInputRead a addr count 0 s).2)

theorem task_input_fifo (a : ℕ) (s : KState) (q : InputQueue) (h : InputRun a s q) : InputFifo a s q := by
  have hshape := h.shape
  refine ⟨hshape.head, hshape.tail, hshape.length_le, hshape.input, h.lossless, ?_, ?_, ?_, ?_, ?_, ?_⟩
  · intro fuel alloc pid str v t hok hto
    obtain ⟨ha, rfl⟩ := hto
    rw [(taskFeed_task hshape hok ha).input, foldl_push]
    rfl
  · intro fuel alloc pid str v t hok hto
    rw [taskFeed_other hok hto]
    exact hshape.input
  · intro dst count
    rw [(taskInputRead_taken hshape dst 0 count).count, Nat.zero_add]
  · intro dst count
    exact (taskInputRead_taken hshape dst 0 count).stored
  · intro dst count
    exact (taskInputRead_taken hshape dst 0 count).shape.input
  · intro addr count hcurrent hrange
    have hcount := (taskInputRead_taken hshape addr 0 count).count
    rw [Nat.zero_add] at hcount
    unfold Tasks.sysRead
    rw [if_neg (fun hne => hne rfl), hrange, hcurrent, ← hcount]
    rfl

/-- A line for the first task, of which two bytes are read. -/
theorem task_input_fifo_first : ∃ s : KState, ∃ q : InputQueue, InputRun initTask s q ∧
    q.accepted = [104, 105, 10] ∧ q.taken = [104, 105] ∧ InputFifo initTask s q := by
  have hstart : InputRun initTask (taskInit (fun _ => {}) fun _ => 0) ⟨[], [], []⟩ := .start ⟨rfl, rfl, rfl⟩
  obtain ⟨t, hok⟩ : ∃ t, taskFeed 1 (some fun _ => 0) 0 [104, 105] (taskInit (fun _ => {}) fun _ => 0) = .ok (0, t) :=
    ⟨_, rfl⟩
  have hrun := (hstart.feed hok ⟨rfl, rfl⟩).read userCodeBase 2
  exact ⟨_, _, hrun, rfl, rfl, task_input_fifo _ _ _ hrun⟩

/-- What the answer of `task_feed` says about the queue of the target: after a zero the whole line is in
it, and after an error every queue is as it was. -/
def FeedComplete (fuel pid : ℕ) (str : List ℕ) (s : KState) (v : ℕ) (t : KState) : Prop :=
  (v = 0 → ∃ a, feedTarget fuel pid s = some (some a) ∧ (t.task a).input = (s.task a).input ++ inputLine str) ∧
    (v ≠ 0 → ∀ a, (t.task a).input = (s.task a).input)

/-- There is room for the line in the queue that it goes to. -/
def RoomForLine (fuel : ℕ) (alloc : Option (ℕ → ℕ)) (pid : ℕ) (str : List ℕ) (s : KState) : Prop :=
  ∀ a, feedTarget fuel pid s = some (some a) → (s.task a).inBuf.or alloc ≠ none →
    (s.task a).input.length + (inputLine str).length ≤ inputCapacity

theorem append_take_eq_iff (l m : List ℕ) (n : ℕ) : l ++ m.take n = l ++ m ↔ m.length ≤ n := by
  constructor
  · intro h
    have htake : m.take n = m := List.append_cancel_left h
    have hlength := congrArg List.length htake
    rw [List.length_take] at hlength
    omega
  · intro h
    rw [List.take_of_length_le h]

/-- A line that was accepted is in the queue as far as there was room. -/
theorem taskFeed_input (h : InputShape (s.task a) l) (hok : taskFeed fuel alloc pid str s = .ok (0, t))
    (ha : feedTarget fuel pid s = some (some a)) :
    (t.task a).input = (s.task a).input ++ (inputLine str).take (inputCapacity - (s.task a).input.length) := by
  rw [(taskFeed_task h hok ha).input, h.input, foldl_push]

/-- `task_feed` reports success also for a line that it has cut. -/
theorem task_feed_complete_iff (s : KState) (fuel : ℕ) (alloc : Option (ℕ → ℕ)) (pid : ℕ) (str : List ℕ) (v : ℕ)
    (t : KState) (hshape : ∀ a, feedTarget fuel pid s = some (some a) → InputShape (s.task a) (s.task a).input)
    (hok : taskFeed fuel alloc pid str s = .ok (v, t)) :
    FeedComplete fuel pid str s v t ↔ RoomForLine fuel alloc pid str s := by
  rcases taskFeed_cases hok with ⟨a, buf, ha, hbuf, rfl, -⟩ | ⟨hnone, rfl, rfl⟩
  · have hinput := taskFeed_input (hshape a ha) hok ha
    have hbound := (hshape a ha).length_le
    constructor
    · rintro ⟨hall, -⟩ b hb -
      obtain ⟨c, hc, hcomplete⟩ := hall rfl
      obtain rfl : a = b := Option.some.inj (Option.some.inj (ha.symm.trans hb))
      obtain rfl : a = c := Option.some.inj (Option.some.inj (ha.symm.trans hc))
      have hroom := (append_take_eq_iff _ _ _).mp (hinput.symm.trans hcomplete)
      omega
    · intro hroom
      have hroom := hroom a ha (by rw [hbuf]; exact Option.some_ne_none buf)
      refine ⟨fun _ => ⟨a, ha, ?_⟩, fun hne => absurd rfl hne⟩
      exact hinput.trans ((append_take_eq_iff _ _ _).mpr (by omega))
  · constructor
    · intro _ a ha hbuf
      exact absurd (hnone a ha) hbuf
    · intro _
      exact ⟨fun hzero => absurd hzero (by decide), fun _ _ => rfl⟩

/-- A line of two bytes for the first task. -/
theorem task_feed_complete_iff_first : ∃ t, taskFeed 1 (some fun _ => 0) 0 [104, 105] (taskInit (fun _ => {}) fun _ => 0) =
    .ok (0, t) ∧ FeedComplete 1 0 [104, 105] (taskInit (fun _ => {}) fun _ => 0) 0 t := by
  have hstart : InputRun initTask (taskInit (fun _ => {}) fun _ => 0) ⟨[], [], []⟩ := .start ⟨rfl, rfl, rfl⟩
  have htarget : feedTarget 1 0 (taskInit (fun _ => {}) fun _ => 0) = some (some initTask) := rfl
  obtain ⟨t, hok⟩ : ∃ t, taskFeed 1 (some fun _ => 0) 0 [104, 105] (taskInit (fun _ => {}) fun _ => 0) = .ok (0, t) :=
    ⟨_, rfl⟩
  refine ⟨t, hok, (task_feed_complete_iff _ 1 _ 0 _ 0 t (fun a ha => ?_) hok).mpr fun a ha _ => ?_⟩
  · obtain rfl : initTask = a := Option.some.inj (Option.some.inj (htarget.symm.trans ha))
    exact hstart.shape
  · obtain rfl : initTask = a := Option.some.inj (Option.some.inj (htarget.symm.trans ha))
    decide

/-- The target of a feed depends on the pids and on the list of tasks only. -/
theorem feedTarget_modify {f : Task → Task} (hpid : ∀ x, (f x).pid = x.pid) (hnext : ∀ x, (f x).next = x.next) :
    feedTarget fuel pid (s.modify a f) = feedTarget fuel pid s := by
  have hpids : (fun b => decide (((s.modify a f).task b).pid = pid)) = fun b => decide ((s.task b).pid = pid) := by
    funext b
    by_cases hb : b = a
    · rw [hb, KState.modify_task_self, hpid]
    · rw [KState.modify_task_of_ne s _ hb]
  have hlinks : (s.modify a f).next = s.next := by
    funext b
    by_cases hb : b = a
    · rw [hb, KState.next, KState.modify_task_self, hnext]
      rfl
    · rw [KState.next, KState.modify_task_of_ne s _ hb]
      rfl
  unfold feedTarget
  rw [hpids, hlinks]
  rfl

theorem feedTarget_push : feedTarget fuel pid (taskInputPush a c s) = feedTarget fuel pid s := by
  unfold taskInputPush
  dsimp only
  split
  · rfl
  · exact feedTarget_modify (fun _ => rfl) fun _ => rfl

theorem feedTarget_feedString : feedTarget fuel pid (feedString a str s) = feedTarget fuel pid s := by
  induction str generalizing s with
  | nil => rfl
  | cons c str ih =>
    unfold feedString
    split
    · rfl
    · rw [ih, feedTarget_push]

/-- Feeding a task changes no later target. -/
theorem taskFeed_target {p : ℕ} (hok : taskFeed fuel alloc pid str s = .ok (v, t)) :
    feedTarget n p t = feedTarget n p s := by
  rcases taskFeed_cases hok with ⟨a, buf, -, -, -, rfl⟩ | ⟨-, -, rfl⟩
  · rw [feedTarget_push, feedTarget_feedString]
    exact feedTarget_modify (fun _ => rfl) fun _ => rfl
  · rfl

/-- A feed of a task that is there, with a buffer for it, returns zero. -/
theorem taskFeed_returns (ha : feedTarget fuel pid s = some (some a)) (hbuf : (s.task a).inBuf.or alloc ≠ none) :
    ∃ t, taskFeed fuel alloc pid str s = .ok (0, t) := by
  obtain ⟨buf, hbuf⟩ := Option.ne_none_iff_exists'.mp hbuf
  refine ⟨taskInputPush a 10 (feedString a str (s.modify a fun x => { x with inBuf := some buf })), ?_⟩
  refine bind_eq_ok.mpr ⟨some a, ended_eq_ok.mpr ha, ?_⟩
  dsimp only
  rw [hbuf]

theorem inputLine_replicate (n : ℕ) (hc : c ≠ 0) : (inputLine (List.replicate n c)).length = n + 1 := by
  simp [inputLine, hc]

/-- Two lines of 200 bytes for the first task, which reads neither: of the second one 54 bytes are
in the queue, and the newline is not. -/
theorem task_feed_complete_fails : ∃ s q t, InputRun initTask s q ∧
    taskFeed 1 (some fun _ => 0) 0 (List.replicate 200 97) s = .ok (0, t) ∧
    ¬FeedComplete 1 0 (List.replicate 200 97) s 0 t := by
  have hstart : InputRun initTask (taskInit (fun _ => {}) fun _ => 0) ⟨[], [], []⟩ := .start ⟨rfl, rfl, rfl⟩
  have htarget : feedTarget 1 0 (taskInit (fun _ => {}) fun _ => 0) = some (some initTask) := rfl
  obtain ⟨s, hs⟩ : ∃ s, taskFeed 1 (some fun _ => 0) 0 (List.replicate 200 97) (taskInit (fun _ => {}) fun _ => 0) =
      .ok (0, s) := taskFeed_returns htarget nofun
  have hrun := hstart.feed hs ⟨htarget, rfl⟩
  have hagain := (taskFeed_target hs).trans htarget
  have hshape := hrun.shape
  rw [InputQueue.foldl_feed_waiting, foldl_push] at hshape
  have hline : (inputLine (List.replicate 200 97)).length = 201 := inputLine_replicate 200 (by decide)
  have hwaiting := congrArg List.length hshape.input
  rw [List.length_append, List.length_take, hline] at hwaiting
  obtain ⟨t, ht⟩ : ∃ t, taskFeed 1 (some fun _ => 0) 0 (List.replicate 200 97) s = .ok (0, t) :=
    taskFeed_returns hagain fun hnone => Option.some_ne_none _ (Option.or_eq_none_iff.mp hnone).2
  refine ⟨s, _, t, hrun, ht, ?_⟩
  rintro ⟨hall, -⟩
  obtain ⟨a, ha, hcomplete⟩ := hall rfl
  obtain rfl : initTask = a := Option.some.inj (Option.some.inj (hagain.symm.trans ha))
  have hcut := (append_take_eq_iff _ _ _).mp ((taskFeed_input hshape ht hagain).symm.trans hcomplete)
  rw [hwaiting, hline] at hcut
  exact absurd hcut (by decide)

end HekaOS.Tasks
