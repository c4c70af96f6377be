import HekaOS.BoundedWaiting
import HekaOS.Eyeproc

/-!
# The pages of the process monitor

Every round of the loop leaves exactly the current page on the screen, and every task on the scheduler list
has its cell on one of the pages.
-/

namespace HekaOS.Vga
open Tasks Painting

variable {v : Display} {n page total : ℕ} {procs : List Task} {m : Monitor}

/-! ### The loop -/

theorem epTotalPages_eq (procs : List Task) : epTotalPages procs = max 1 ((procs.length + 11) / 12) := by
  have hperPage : epPerPage = 12 := rfl
  unfold epTotalPages
  dsimp only
  rw [hperPage]
  split <;> omega

theorem epTotalPages_pos (procs : List Task) : 0 < epTotalPages procs := by
  rw [epTotalPages_eq]
  omega

theorem epTotalPages_lt (hprocs : procs.length ≤ maxProc) : epTotalPages procs < 100 := by
  have hle : procs.length ≤ 128 := hprocs
  rw [epTotalPages_eq]
  omega

/-- Every task has a page. -/
theorem page_of_task {k : ℕ} (hk : k < procs.length) : k / 12 < epTotalPages procs := by
  rw [epTotalPages_eq]
  omega

theorem collectTasks_length (s : KState) (n : ℕ) (t : Option ℕ) : (collectTasks s n t).length ≤ n := by
  induction n generalizing t with
  | zero => exact Nat.le_refl 0
  | succ n ih =>
    cases t with
    | none => exact Nat.zero_le _
    | some a => exact Nat.succ_le_succ (ih (s.next a))

theorem eyeprocTasks_length (s : KState) : (eyeprocTasks s).length ≤ maxProc := by
  rw [eyeprocTasks, List.length_map]
  exact collectTasks_length s maxProc _

/-- The stores since `v₀` are on the screen, which shows a page. -/
structure ShowsPage (v₀ v : Display) (page : ℕ) (procs : List Task) : Prop where
  start : v.start = v₀.start
  cells : ∀ y < 25, ∀ x < 80, v.terminalBuffer (y * vgaX + x) = screenPicture page (epTotalPages procs) procs y x
  behind : ∀ i, 25 * vgaX ≤ i → v.terminalBuffer i = v₀.terminalBuffer i
  writes : ∃ ws, v.writes = v₀.writes ++ ws ∧ ∀ w ∈ ws, w.index < 25 * vgaX

theorem screen_isSome {index : ℕ} (h : (screen page total procs index).isSome = true) : index < 25 * vgaX := by
  by_contra hout
  rw [screen, block_of_notMem (by simp only [vgaX] at *; omega)] at h
  cases h

/-- A page is drawn over whatever is on the screen. -/
theorem epRender_shows {v₀ : Display} (hpage : page < epTotalPages procs) (hprocs : procs.length ≤ maxProc)
    (hstart : v.start = v₀.start) (hbehind : ∀ i, 25 * vgaX ≤ i → v.terminalBuffer i = v₀.terminalBuffer i)
    (hwrites : ∃ ws, v.writes = v₀.writes ++ ws ∧ ∀ w ∈ ws, w.index < 25 * vgaX) :
    ShowsPage v₀ (epRender page procs (epTotalPages procs) v) page procs := by
  have hmany : procs.length ≤ 128 := hprocs
  obtain ⟨f, hf, hpaints⟩ := Paints.render hpage (epTotalPages_lt hprocs) (show procs.length < 1000 by omega)
  have hbuffer : (epRender page procs (epTotalPages procs) v).terminalBuffer = paint (screen page (epTotalPages procs) procs)
      v.terminalBuffer := by
    rw [hf]
    exact hpaints.buffer v
  refine ⟨?_, fun y hy x hx => ?_, fun i hi => ?_, ?_⟩
  · rw [hf]
    change (f v).start = _
    rw [hpaints.same v]
    exact hstart
  · have hplace : (y * vgaX + x) / vgaX = y ∧ (y * vgaX + x) % vgaX = x := by
      simp only [vgaX]
      omega
    have hin : screen page (epTotalPages procs) procs (y * vgaX + x) = some (screenPicture page (epTotalPages procs) procs y x) := by
      rw [screen, block_of_mem (by omega), hplace.1, hplace.2]
      rfl
    rw [hbuffer, paint, hin]
    rfl
  · have hnone : screen page (epTotalPages procs) procs i = none := by
      by_contra hsome
      exact absurd (screen_isSome (Option.ne_none_iff_isSome.mp hsome)) (by omega)
    rw [hbuffer, paint, hnone]
    exact hbehind i hi
  · obtain ⟨ws, hws, hall⟩ := hwrites
    obtain ⟨ws', hws', hall'⟩ := hpaints.writes v
    refine ⟨ws ++ ws', ?_, fun w hw => ?_⟩
    · rw [hf]
      change (f v).writes = _
      rw [hws', hws, List.append_assoc]
    · rcases List.mem_append.mp hw with hw | hw
      · exact hall w hw
      · exact screen_isSome (hall' w hw)

/-- A state of the loop. -/
structure OnPage (v₀ : Display) (procs : List Task) (m : Monitor) : Prop where
  page : m.page < epTotalPages procs
  shown : ShowsPage v₀ m.display m.page procs

theorem ShowsPage.render {v₀ : Display} {page' : ℕ} (h : ShowsPage v₀ v page procs) (hpage : page' < epTotalPages procs)
    (hprocs : procs.length ≤ maxProc) : ShowsPage v₀ (epRender page' procs (epTotalPages procs) v) page' procs :=
  epRender_shows hpage hprocs h.start h.behind h.writes

theorem OnPage.start (hprocs : procs.length ≤ maxProc) (v : Display) :
    OnPage (terminalClear v) procs (Monitor.start procs v) :=
  ⟨epTotalPages_pos procs, epRender_shows (epTotalPages_pos procs) hprocs rfl (fun _ _ => rfl)
    ⟨[], (List.append_nil _).symm, fun _ hw => nomatch hw⟩⟩

theorem OnPage.round {v₀ : Display} (h : OnPage v₀ procs m) (hprocs : procs.length ≤ maxProc) (r : Reading) :
    OnPage v₀ procs (m.round procs r) := by
  have hpage := h.page
  unfold Monitor.round
  split
  · exact h
  · split
    · exact ⟨h.page, h.shown⟩
    · split
      · dsimp only
        split
        · split
          · exact ⟨by dsimp only; omega, h.shown.render (by omega) hprocs⟩
          · split
            · exact ⟨by dsimp only; omega, h.shown.render (by omega) hprocs⟩
            · exact ⟨h.page, h.shown⟩
        · exact ⟨h.page, h.shown⟩
      · split
        · exact ⟨h.page, h.shown⟩
        · exact h

theorem OnPage.rounds {v₀ : Display} (h : OnPage v₀ procs m) (hprocs : procs.length ≤ maxProc) (rs : List Reading) :
    OnPage v₀ procs (rs.foldl (fun m r => m.round procs r) m) := by
  induction rs generalizing m with
  | nil => exact h
  | cons r rs ih => exact ih (h.round hprocs r)

/-- Whatever bytes come from the keyboard, the screen shows exactly the current page, nothing of what was there
before, and nothing but the screen is drawn on. -/
theorem eyeproc_screen (s : KState) (v : Display) (rs : List Reading) :
    let procs := eyeprocTasks s
    let m := rs.foldl (fun m r => m.round procs r) (Monitor.start procs v)
    m.page < epTotalPages procs ∧ ShowsPage (terminalClear v) m.display m.page procs := by
  have hprocs := eyeprocTasks_length s
  have hpage := (OnPage.start hprocs v).rounds hprocs rs
  exact ⟨hpage.page, hpage.shown⟩

/-! ### Where a task is shown -/

/-- The two bytes of the arrow down. -/
def arrowDown : List Reading := [⟨1, 0xE0⟩, ⟨1, 0x50⟩]

theorem arrowDown_rounds (hpage : m.page < epTotalPages procs - 1) :
    ∃ v, arrowDown.foldl (fun m r => m.round procs r) m = { m with page := m.page + 1, extended := false, display := v } := by
  refine ⟨epRender (m.page + 1) procs (epTotalPages procs) m.display, ?_⟩
  have hfirst : m.round procs ⟨1, 0xE0⟩ = { m with extended := true } := rfl
  have hsecond : ({ m with extended := true } : Monitor).round procs ⟨1, 0x50⟩ =
      if m.page < epTotalPages procs - 1 then
        { m with page := m.page + 1, extended := false, display := epRender (m.page + 1) procs (epTotalPages procs) m.display }
      else { m with extended := false } := by
    have hnotUp : ¬((0x50 : Byte) = 0x48 ∧ m.page > 0) := fun h => absurd h.1 (by decide)
    unfold Monitor.round
    simp only [hnotUp, if_false, true_and]
    rfl
  rw [arrowDown, List.foldl_cons, List.foldl_cons, List.foldl_nil, hfirst, hsecond, if_pos hpage]

/-- The arrow is pressed `j` times. -/
def arrowsDown (j : ℕ) : List Reading := (List.replicate j arrowDown).flatten

theorem arrowsDown_page (j : ℕ) (hj : j < epTotalPages procs) (v : Display) :
    let m := (arrowsDown j).foldl (fun m r => m.round procs r) (Monitor.start procs v)
    m.page = j ∧ m.quit = false := by
  induction j with
  | zero => exact ⟨rfl, rfl⟩
  | succ j ih =>
    obtain ⟨hpage, hquit⟩ := ih (by omega)
    have hroom : ((arrowsDown j).foldl (fun m r => m.round procs r) (Monitor.start procs v)).page <
        epTotalPages procs - 1 := by omega
    obtain ⟨w, hw⟩ := arrowDown_rounds hroom
    have hmore : arrowsDown (j + 1) = arrowsDown j ++ arrowDown := by
      rw [arrowsDown, List.replicate_succ', List.flatten_append, List.flatten_singleton, arrowsDown]
    rw [hmore, List.foldl_append, hw]
    dsimp only
    exact ⟨congrArg (· + 1) hpage, hquit⟩

/-- The cell of a task on its page. -/
theorem screenPicture_task {k dy dx : ℕ} {t : Task} (ht : procs[k]? = some t) (hdy : dy < 7) (hdx : dx < 20) :
    screenPicture (k / 12) total procs (k % 12 / 4 * 7 + dy) (k % 12 % 4 * 20 + dx) = cellPicture (some t) dy dx := by
  have hindex : k / 12 * epPerPage + (k % 12 / 4 * 7 + dy) / 7 * epCols + (k % 12 % 4 * 20 + dx) / 20 = k := by
    simp only [epPerPage, epCols, epRows]
    omega
  have hrow : (k % 12 / 4 * 7 + dy) % 7 = dy := by omega
  have hcolumn : (k % 12 % 4 * 20 + dx) % 20 = dx := by omega
  rw [screenPicture, if_pos (by omega), gridPicture, hindex, hrow, hcolumn, ht]

/-- `procs` has room for the whole scheduler list. -/
theorem collectTasks_chain {s : KState} {head : Option ℕ} {l : List ℕ} (h : PointerChain.Chain s.next head l) (hn : l.length ≤ n) :
    collectTasks s n head = l := by
  induction l generalizing head n with
  | nil =>
    rw [PointerChain.chain_nil.mp h]
    cases n <;> rfl
  | cons a l ih =>
    obtain ⟨rfl, hl⟩ := PointerChain.chain_cons.mp h
    cases n with
    | zero => exact absurd hn (by rw [List.length_cons]; omega)
    | succ n => exact congrArg (List.cons a) (ih hl (Nat.le_of_succ_le_succ hn))

/-- Every task on the scheduler list is among the tasks that are shown, and the arrow brings its page on the screen,
where it has a cell of its own. -/
theorem eyeproc_finds_task (s : KState) (a : ℕ) (v : Display) (hs : KRun (fun op s => op.OnCpu s) s) (ha : Listed s a) :
    ∃ k, (collectTasks s maxProc s.taskListHead)[k]? = some a ∧
      let m := (arrowsDown (k / 12)).foldl (fun m r => m.round (eyeprocTasks s) r) (Monitor.start (eyeprocTasks s) v)
      m.page = k / 12 ∧ m.quit = false ∧ ∀ dy < 7, ∀ dx < 20,
        m.display.terminalBuffer ((k % 12 / 4 * 7 + dy) * vgaX + (k % 12 % 4 * 20 + dx)) = cellPicture (some (s.task a)) dy dx := by
  obtain ⟨kids, order, ht⟩ := hs.tended
  obtain ⟨L, hL⟩ := hs.pidRun
  obtain ⟨l, hl, hmem⟩ := ha
  have hcollect : collectTasks s maxProc s.taskListHead = order := collectTasks_chain ht.list (ht.length_le hL)
  obtain rfl : l = order := hl.unique ht.list
  obtain ⟨k, hk, hka⟩ := List.mem_iff_getElem.mp hmem
  have hfound : (collectTasks s maxProc s.taskListHead)[k]? = some a := by
    rw [hcollect, List.getElem?_eq_getElem hk, hka]
  have htask : (eyeprocTasks s)[k]? = some (s.task a) := by
    rw [eyeprocTasks, List.getElem?_map, hfound]
    rfl
  have hlength : k < (eyeprocTasks s).length := (List.getElem?_eq_some_iff.mp htask).1
  obtain ⟨hpage, hquit⟩ := arrowsDown_page (k / 12) (page_of_task hlength) v
  obtain ⟨-, hscreen⟩ := eyeproc_screen s v (arrowsDown (k / 12))
  refine ⟨k, hfound, hpage, hquit, fun dy hdy dx hdx => ?_⟩
  rw [hscreen.cells _ (by omega) _ (by omega), hpage]
  exact screenPicture_task htask hdy hdx

/-- `n` kernel threads have been started since the boot. -/
def manyThreads : ℕ → KState
  | 0 => bootState
  | n + 1 => (manyThreads n).after (.execFn (spawnAt (20 + n)) 0 1)

theorem manyThreads_run {n : ℕ} (hn : n ≤ 12) : KRun (fun op s => op.OnCpu s) (manyThreads n) := by
  induction n with
  | zero => exact .bootState _
  | succ n ih =>
    have hfresh : ∀ n < 12, 20 + n ∉ (manyThreads n).live := by decide +kernel
    exact (ih (Nat.le_of_succ_le hn)).after trivial (spawnAt_fresh (hfresh n hn)) rfl

/-- With twelve threads in front of it, `init_task` is the first task on the second page, one key away. -/
theorem eyeproc_finds_task_second_page :
    let s := manyThreads 12
    let m := arrowDown.foldl (fun m r => m.round (eyeprocTasks s) r) (Monitor.start (eyeprocTasks s) .zero)
    m.page = 1 ∧ m.quit = false ∧ ∀ dy < 7, ∀ dx < 20,
      m.display.terminalBuffer (dy * vgaX + dx) = cellPicture (some (s.task initTask)) dy dx := by
  have hlist : [31, 30, 29, 28, 27, 26, 25, 24, 23, 22, 21, 20, initTask] =
      collectTasks (manyThreads 12) maxProc (manyThreads 12).taskListHead := by decide +kernel
  have hlisted : Listed (manyThreads 12) initTask :=
    ⟨[31, 30, 29, 28, 27, 26, 25, 24, 23, 22, 21, 20, initTask],
      by simp only [PointerChain.chain_cons, PointerChain.chain_nil]; decide +kernel, by decide⟩
  obtain ⟨k, hk, hscreen⟩ := eyeproc_finds_task (manyThreads 12) initTask .zero (manyThreads_run (le_refl 12)) hlisted
  rw [← hlist] at hk
  have hplace : ∀ k < 13, [31, 30, 29, 28, 27, 26, 25, 24, 23, 22, 21, 20, initTask][k]? = some initTask → k = 12 := by decide
  obtain rfl := hplace k (List.getElem?_eq_some_iff.mp hk).1 hk
  obtain ⟨hpage, hquit, hcells⟩ := hscreen
  refine ⟨hpage, hquit, fun dy hdy dx hdx => ?_⟩
  have hcell := hcells dy hdy dx hdx
  have hrow : 12 % 12 / 4 * 7 + dy = dy := Nat.zero_add dy
  have hcolumn : 12 % 12 % 4 * 20 + dx = dx := Nat.zero_add dx
  rw [hrow, hcolumn] at hcell
  exact hcell

end HekaOS.Vga
