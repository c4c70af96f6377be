import HekaOS.BitMasks
import HekaOS.TaskLinks
import HekaOS.SignalDispatch

/-!
# The pending set, signal by signal

What a send and the dispatch loop do to each pending signal. A round of the loop takes the lowest
signal, so the terminating signals below `SIGSTOP` come before it.
-/

namespace HekaOS.Tasks
open KernelMemory BitMasks

variable {x : Task} {signum k n : ℕ} {p : BitVec 32}

/-- The signal is pending. -/
def Task.pending (x : Task) (signum : ℕ) : Bool := x.pendingSignals.getLsbD (signum - 1)

/-- A send of the first discards the second. -/
def discards (signum k : ℕ) : Bool :=
  (decide (signum = sigcont) && stops k) || (stops signum && decide (k = sigcont))

theorem stops_iff : stops signum = true ↔ signum = sigstop ∨ signum = sigtstp := by
  simp [stops]

theorem getLsbD_sigmask (h₀ : 0 < signum) (h : signum ≤ nsig) (hk : 0 < k) :
    (sigmask signum).getLsbD (k - 1) = decide (k = signum) := by
  have hlt : signum - 1 < 32 := by
    simp only [nsig] at h
    omega
  rw [sigmask, getLsbD_bit hlt]
  simp only [decide_eq_decide]
  omega

theorem getLsbD_sigStopMask (hk : 0 < k) : sigStopMask.getLsbD (k - 1) = stops k := by
  rw [sigStopMask, BitVec.getLsbD_or, getLsbD_sigmask (by decide) (by decide) hk,
    getLsbD_sigmask (by decide) (by decide) hk, Bool.eq_iff_iff, stops_iff]
  simp

theorem sigmask_stop_ne_zero (h₀ : 0 < signum) (h : signum < nsig) :
    sigmask signum &&& sigStopMask ≠ 0 ↔ stops signum = true := by
  have hlt : signum - 1 < 32 := by
    simp only [nsig] at h
    omega
  rw [BitVec.and_comm, sigmask, ← getLsbD_sigStopMask h₀]
  exact and_bit_ne_zero hlt

/-- A signal behind a send: it was sent, or it was pending and is not discarded. -/
theorem signalSend_pending (h₀ : 0 < signum) (h : signum < nsig) (hk : 0 < k) (hk' : k ≤ nsig) (x : Task) :
    (x.signalSend signum).pending k = (decide (k = signum) || (x.pending k && !discards signum k)) := by
  have hlt : k - 1 < 32 := by
    simp only [nsig] at hk'
    omega
  have hset : ∀ q : BitVec 32, (q ||| sigmask signum).getLsbD (k - 1) =
      (q.getLsbD (k - 1) || decide (k = signum)) := by
    intro q
    rw [BitVec.getLsbD_or, getLsbD_sigmask h₀ h.le hk]
  have hsent : (x.signalSend signum).pendingSignals =
      (if signum = sigcont then x.pendingSignals &&& ~~~sigStopMask
        else if sigmask signum &&& sigStopMask ≠ 0 then x.pendingSignals &&& ~~~sigmask sigcont
        else x.pendingSignals) ||| sigmask signum := by
    simp only [Task.signalSend]
    rw [if_neg (by omega)]
    split_ifs <;> rfl
  rw [Task.pending, hsent, hset, Bool.or_comm]
  unfold discards Task.pending
  by_cases hcont : signum = sigcont
  · have hstop : stops sigcont = false := by decide
    rw [if_pos hcont, BitVec.getLsbD_and, BitVec.getLsbD_not, getLsbD_sigStopMask hk]
    simp [hlt, hcont, hstop]
  · rw [if_neg hcont]
    by_cases hstop : stops signum = true
    · rw [if_pos ((sigmask_stop_ne_zero h₀ h).mpr hstop), BitVec.getLsbD_and, BitVec.getLsbD_not,
        getLsbD_sigmask (by decide) (by decide) hk]
      simp [hlt, hcont, hstop]
    · rw [if_neg (mt (sigmask_stop_ne_zero h₀ h).mp hstop)]
      simp [hcont, hstop]

/-- The state behind a send. -/
theorem signalSend_state_eq (h₀ : 0 < signum) (h : signum < nsig) (x : Task) :
    (x.signalSend signum).state =
      if x.state = .blocked ∨ x.state = .stopped ∧ (signum = sigcont ∨ signum = sigkill) then .runnable
      else x.state := by
  have hne : signum = sigcont → signum ≠ sigkill := by
    rintro rfl
    decide
  simp only [Task.signalSend]
  rw [if_neg (by omega)]
  by_cases hcont : signum = sigcont <;> cases hx : x.state <;> by_cases hkill : signum = sigkill <;>
    simp_all <;> split_ifs <;> simp_all

theorem signalSend_of_invalid (h : signum = 0 ∨ nsig ≤ signum) (x : Task) : x.signalSend signum = x :=
  if_pos h

/-- Signals 1 to 32 by their bits. -/
theorem signumOf_bit {j : ℕ} (hj : j < 32) : signumOf (1#32 <<< j) = j + 1 := by
  have hall : ∀ j : Fin 32, signumOf (1#32 <<< j.val) = j + 1 := by decide +kernel
  exact hall ⟨j, hj⟩

/-- The signal a round of the dispatch loop takes. -/
theorem lowest_signal (hp : p ≠ 0) : ∃ signum, 0 < signum ∧ signum ≤ nsig ∧ lowestBit p = sigmask signum ∧
    signumOf (lowestBit p) = signum ∧ p.getLsbD (signum - 1) = true ∧
    ∀ k, 0 < k → k < signum → p.getLsbD (k - 1) = false := by
  obtain ⟨j, hj, hbit, hset, hlow⟩ := lowest_bit hp
  refine ⟨j + 1, by omega, hj, hbit, ?_, hset, fun k hk hlt => hlow (k - 1) (by omega)⟩
  rw [lowestBit, hbit, signumOf_bit hj]

theorem getLsbD_clear_sigmask (h₀ : 0 < signum) (h : signum ≤ nsig) (hk : 0 < k) :
    (p &&& ~~~sigmask signum).getLsbD (k - 1) = (p.getLsbD (k - 1) && !decide (k = signum)) := by
  have hlt : signum - 1 < 32 := by
    simp only [nsig] at h
    omega
  rw [sigmask, getLsbD_clearBit hlt]
  congr 2
  simp only [decide_eq_decide]
  omega

theorem clearPending_pending (h₀ : 0 < signum) (h : signum ≤ nsig) (hk : 0 < k) (x : Task) :
    (clearPending (sigmask signum) x).pending k = (x.pending k && !decide (k = signum)) :=
  getLsbD_clear_sigmask h₀ h hk

theorem sigmask_immutable_ne_zero (h₀ : 0 < signum) (h : signum ≤ nsig) :
    sigmask signum &&& sigImmutableMask ≠ 0 ↔ signum = sigkill ∨ signum = sigstop := by
  have hlt : signum - 1 < 32 := by
    simp only [nsig] at h
    omega
  have hbit : sigImmutableMask.getLsbD (signum - 1) = true ↔ signum = sigkill ∨ signum = sigstop := by
    rw [sigImmutableMask, BitVec.getLsbD_or, getLsbD_sigmask (by decide) (by decide) h₀,
      getLsbD_sigmask (by decide) (by decide) h₀]
    simp
  rw [BitVec.and_comm, sigmask, ← hbit]
  exact and_bit_ne_zero hlt

/-- `SIGKILL` ends the draining at the latest: no signal below it stops the task. `k` bounds the
rounds that are over. -/
theorem drain_of_kill (hz : x.state ≠ .zombie) (hs : x.state ≠ .stopped) (hp : p.getLsbD (sigkill - 1) = true)
    (hlow : ∀ j, 0 < j → j < k → p.getLsbD (j - 1) = false) (hn : sigkill < n + k) : (drain n p x).2 ≠ none := by
  induction n generalizing p x k with
  | zero =>
    have hk : sigkill < k := by omega
    exact nomatch (hlow sigkill (by decide) hk).symm.trans hp
  | succ n ih =>
    have hne : p ≠ 0 := by
      rintro rfl
      exact nomatch hp
    obtain ⟨signum, h₀, h, hbit, hnum, hset, hlow'⟩ := lowest_signal hne
    have hkill : signum ≤ sigkill := by
      by_contra hgt
      exact nomatch (hlow' sigkill (by decide) (by omega)).symm.trans hp
    have hk : k ≤ signum := by
      by_contra hlt
      exact nomatch (hlow signum h₀ (by omega)).symm.trans hset
    have hstop : stops signum = false := by
      rw [Bool.eq_false_iff, ne_eq, stops_iff]
      simp only [sigkill, sigstop, sigtstp] at *
      omega
    rw [drain, if_neg hne, if_neg (not_or.mpr ⟨hz, hs⟩)]
    dsimp only
    rw [hnum, hbit]
    by_cases heq : signum = sigkill
    · have hdflt : disposition x (sigmask signum) = .dflt :=
        if_pos ((sigmask_immutable_ne_zero h₀ h).mpr (.inl heq))
      have hterm : terminates signum = true := by
        rw [heq]
        decide
      rw [hdflt]
      simp [hterm]
    · have hp' : (p &&& ~~~sigmask signum).getLsbD (sigkill - 1) = true := by
        rw [getLsbD_clear_sigmask h₀ h (by decide), hp]
        simp [Ne.symm heq]
      have hlow'' : ∀ j, 0 < j → j < signum + 1 → (p &&& ~~~sigmask signum).getLsbD (j - 1) = false := by
        intro j hj hlt
        rw [getLsbD_clear_sigmask h₀ h hj]
        by_cases hjs : j = signum
        · simp [hjs]
        · rw [hlow' j hj (by omega), Bool.false_and]
      have hrest : ∀ y : Task, y.state = x.state → (drain n (p &&& ~~~sigmask signum) y).2 ≠ none :=
        fun y hy => ih (hy ▸ hz) (hy ▸ hs) hp' hlow'' (by omega)
      cases disposition x (sigmask signum) with
      | dflt =>
        dsimp only
        rw [hstop]
        split
        · exact Option.some_ne_none _
        · exact hrest _ rfl
      | ign => exact hrest _ rfl
      | user => exact hrest _ rfl
      | handler => exact hrest _ rfl

theorem drained_of_kill (hz : x.state ≠ .zombie) (hs : x.state ≠ .stopped) (hp : x.pending sigkill = true) :
    x.drained.2 ≠ none :=
  drain_of_kill hz hs hp (fun j hj hlt => absurd hlt (by omega)) (by decide : sigkill < 32 + 0)

end HekaOS.Tasks
