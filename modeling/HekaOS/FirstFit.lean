import Mathlib.Data.Finset.Basic
import Mathlib.Order.Interval.Finset.Nat

/-!
# First-fit search with a run counter

A loop that returns early is a fold in `Except`: an error is the value returned. `scanStep` is the
body of a search for `n` free places in a row that counts the free places behind it and resets
the count at every place in use; the search finds the first run there is.
-/

namespace HekaOS.FirstFit

variable {free : ℕ → Bool} {n k m count start s : ℕ} {l : List ℕ}

/-- A loop without state runs through, or returns from its first round that returns. -/
theorem foldlM_range {ε : Type} (f : Unit → ℕ → Except ε Unit) (n : ℕ) :
    ((List.range n).foldlM f () = .ok () ∧ ∀ i < n, f () i = .ok ()) ∨
      ∃ i < n, ∃ r, (∀ k < i, f () k = .ok ()) ∧ f () i = .error r ∧ (List.range n).foldlM f () = .error r := by
  induction n with
  | zero => exact .inl ⟨rfl, fun i hi => absurd hi (Nat.not_lt_zero i)⟩
  | succ n ih =>
    rw [List.range_succ, List.foldlM_append]
    rcases ih with ⟨hend, hall⟩ | ⟨i, hi, r, hbefore, hret, hend⟩
    · rw [hend]
      cases hlast : f () n with
      | ok u =>
        refine .inl ⟨by simp [bind, Except.bind, hlast, pure, Except.pure], fun i hi => ?_⟩
        rcases Nat.lt_succ_iff_lt_or_eq.mp hi with hlt | rfl
        · exact hall i hlt
        · exact hlast
      | error r => exact .inr ⟨n, Nat.lt_succ_self n, r, hall, hlast, by simp [bind, Except.bind, hlast]⟩
    · rw [hend]
      exact .inr ⟨i, Nat.lt_succ_of_lt hi, r, hbefore, hret, rfl⟩

/-- Loops whose rounds do the same do the same. -/
theorem foldlM_congr {ε σ : Type} {f g : σ → ℕ → Except ε σ} (h : ∀ i ∈ l, ∀ t, f t i = g t i) (t : σ) :
    l.foldlM f t = l.foldlM g t := by
  induction l generalizing t with
  | nil => rfl
  | cons i l ih =>
    rw [List.foldlM_cons, List.foldlM_cons, h i List.mem_cons_self]
    congr
    funext u
    exact ih (fun j hj => h j (List.mem_cons_of_mem i hj)) u

/-- A loop over pieces, piece by piece. -/
theorem foldlM_flatMap {ε σ : Type} (f : σ → ℕ → Except ε σ) (g : ℕ → List ℕ) (l : List ℕ) (t : σ) :
    (l.flatMap g).foldlM f t = l.foldlM (fun t w => (g w).foldlM f t) t := by
  induction l generalizing t with
  | nil => rfl
  | cons w l ih =>
    rw [List.flatMap_cons, List.foldlM_append, List.foldlM_cons]
    congr
    funext u
    exact ih u

/-- The state is the length of the run behind the current place, and where it starts. -/
def scanStep (free : ℕ → Bool) (n : ℕ) (st : ℕ × ℕ) (i : ℕ) : Except ℕ (ℕ × ℕ) :=
  if free i then
    let start := if st.1 = 0 then i else st.2
    if st.1 + 1 = n then .error start else .ok (st.1 + 1, start)
  else .ok (0, st.2)

/-- `n` free places in a row from `s` on. -/
def IsRun (free : ℕ → Bool) (n s : ℕ) : Prop := ∀ i, s ≤ i → i < s + n → free i = true

/-- The first run of `n` free places below a bound. -/
structure IsFirstRun (free : ℕ → Bool) (n bound s : ℕ) : Prop where
  run : IsRun free n s
  bound : s + n ≤ bound
  first : ∀ s' < s, ¬IsRun free n s'

/-- The search has come to `k`: the last `count` places are free, and no run starts before them. -/
structure Scanned (free : ℕ → Bool) (n k count : ℕ) : Prop where
  short : count < n
  le : count ≤ k
  run : ∀ i, k - count ≤ i → i < k → free i = true
  none : ∀ s, s + count < k → ∃ i, s ≤ i ∧ i < s + n ∧ free i = false

theorem Scanned.zero (hn : 0 < n) : Scanned free n 0 0 :=
  ⟨hn, le_refl 0, fun i _ hi => absurd hi (Nat.not_lt_zero i), fun _ hs => absurd hs (Nat.not_lt_zero _)⟩

theorem Scanned.used (h : Scanned free n k count) (hk : free k = false) : Scanned free n (k + 1) 0 := by
  refine ⟨Nat.zero_lt_of_lt h.short, Nat.zero_le _, fun i hi hi' => ?_, fun s hs => ?_⟩
  · omega
  · by_cases hbefore : s + count < k
    · exact h.none s hbefore
    · have hshort := h.short
      exact ⟨k, by omega, by omega, hk⟩

theorem Scanned.extend (h : Scanned free n k count) (hk : free k = true) :
    ∀ i, k - count ≤ i → i < k + 1 → free i = true := by
  intro i hi hi'
  rcases Nat.lt_succ_iff_lt_or_eq.mp hi' with hlt | rfl
  · exact h.run i hi hlt
  · exact hk

/-- The search over `m` more places. -/
theorem foldlM_scanStep (h : Scanned free n k count) (hstart : count ≠ 0 → start + count = k) :
    (∃ s, (List.range' k m).foldlM (scanStep free n) (count, start) = .error s ∧
        IsFirstRun free n (k + m) s) ∨
      ∃ count' start', (List.range' k m).foldlM (scanStep free n) (count, start) = .ok (count', start') ∧
        Scanned free n (k + m) count' ∧ (count' ≠ 0 → start' + count' = k + m) := by
  induction m generalizing k count start with
  | zero => exact .inr ⟨count, start, rfl, h, hstart⟩
  | succ m ih =>
    rw [List.range'_succ, List.foldlM_cons]
    have hnext : k + (m + 1) = k + 1 + m := by omega
    rw [hnext]
    cases hk : free k with
    | false =>
      have hstep : scanStep free n (count, start) k = .ok (0, start) := by simp [scanStep, hk]
      rw [hstep]
      exact ih (h.used hk) fun hne => absurd rfl hne
    | true =>
      have hle := h.le
      have hbegin : (if count = 0 then k else start) + count = k := by
        split
        · omega
        · rename_i hne
          exact hstart hne
      by_cases hdone : count + 1 = n
      · have hstep : scanStep free n (count, start) k = .error (if count = 0 then k else start) := by
          simp [scanStep, hk, hdone]
        rw [hstep]
        refine .inl ⟨_, rfl, fun i hi hi' => h.extend hk i (by omega) (by omega), by omega, fun s' hs' hrun => ?_⟩
        obtain ⟨i, hi, hi', hused⟩ := h.none s' (by omega)
        rw [hrun i hi hi'] at hused
        exact nomatch hused
      · have hstep : scanStep free n (count, start) k =
            .ok (count + 1, if count = 0 then k else start) := by
          simp [scanStep, hk, hdone]
        rw [hstep]
        have hshort := h.short
        refine ih ⟨by omega, by omega, fun i hi hi' => h.extend hk i (by omega) hi', fun s hs => ?_⟩ ?_
        · exact h.none s (by omega)
        · omega

/-- The search over all places below a bound finds the first run, or there is none. -/
theorem scan_spec (hn : 0 < n) (bound : ℕ) :
    (∃ s, (List.range bound).foldlM (scanStep free n) (0, 0) = .error s ∧ IsFirstRun free n bound s) ∨
      ∃ st, (List.range bound).foldlM (scanStep free n) (0, 0) = .ok st ∧
        ∀ s, s + n ≤ bound → ¬IsRun free n s := by
  have hzero : Scanned free n 0 0 := .zero hn
  have hstart : 0 ≠ 0 → 0 + 0 = 0 := fun h => absurd rfl h
  have hscan := foldlM_scanStep (m := bound) hzero hstart
  rw [← List.range_eq_range', zero_add] at hscan
  rcases hscan with hfound | ⟨count, start, hend, hs, -⟩
  · exact .inl hfound
  · refine .inr ⟨_, hend, fun s hs' hrun => ?_⟩
    have hshort := hs.short
    obtain ⟨i, hi, hi', hused⟩ := hs.none s (by omega)
    rw [hrun i hi hi'] at hused
    exact nomatch hused

end HekaOS.FirstFit
