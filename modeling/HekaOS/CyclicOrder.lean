import Mathlib.Data.List.Iterate
import Mathlib.Data.List.Rotate

/-!
# Lists read in a circle

`others l a` lists the members of `l` behind `a`, and then those in front of it. A turn goes from
`a` to the first of them that is eligible. Among the eligible members a turn is the step to the next
position, so that as many turns as there are eligible members visit each of them once.
-/

namespace HekaOS.CyclicOrder

variable {α : Type*} {succ : α → Option α} {eligible : α → Bool} {l l₁ l₂ : List α} {a b : α} {i k : ℕ}

/-- Every member leads to the one at the next position, the last one to the first. -/
def Circle (succ : α → Option α) (l : List α) : Prop :=
  ∀ i < l.length, l[i]?.bind succ = l[(i + 1) % l.length]?

theorem Circle.rotate (h : Circle succ l) (k : ℕ) : Circle succ (l.rotate k) := by
  intro i hi
  rw [List.length_rotate] at hi ⊢
  have hpos : 0 < l.length := by omega
  rw [List.getElem?_rotate hi, h _ (Nat.mod_lt _ hpos), List.getElem?_rotate (Nat.mod_lt _ hpos),
    Nat.mod_add_mod, Nat.mod_add_mod, Nat.add_right_comm]

theorem Circle.next (h : Circle succ (l₁ ++ a :: b :: l₂)) : succ a = some b := by
  have hlt : l₁.length + 1 < (l₁ ++ a :: b :: l₂).length := by simp
  have hstep := h l₁.length (by omega)
  rw [Nat.mod_eq_of_lt hlt] at hstep
  simpa using hstep

theorem Circle.last (h : Circle succ (l ++ [a])) : succ a = (l ++ [a]).head? := by
  have hstep := h l.length (by simp)
  have hwrap : (l.length + 1) % (l ++ [a]).length = 0 := by simp
  rw [hwrap, ← List.head?_eq_getElem?] at hstep
  simpa using hstep

variable [DecidableEq α]

/-- The other members of a list, from one of its members on. -/
def others (l : List α) (a : α) : List α := l.drop (l.idxOf a + 1) ++ l.take (l.idxOf a)

/-- Go on to the first of the others that is eligible. -/
def turn (eligible : α → Bool) (l : List α) (a : α) : α := ((others l a).find? eligible).getD a

theorem others_append (ha : a ∉ l₁) : others (l₁ ++ a :: l₂) a = l₂ ++ l₁ := by
  have hidx : (l₁ ++ a :: l₂).idxOf a = l₁.length := by
    rw [List.idxOf_append_of_notMem ha, List.idxOf_cons_self, Nat.add_zero]
  rw [others, hidx, List.take_left, ← List.drop_drop, List.drop_left]
  rfl

omit [DecidableEq α] in
theorem exists_split (hl : l.Nodup) (ha : a ∈ l) : ∃ l₁ l₂, l = l₁ ++ a :: l₂ ∧ a ∉ l₁ ∧ a ∉ l₂ := by
  obtain ⟨l₁, l₂, rfl⟩ := List.append_of_mem ha
  obtain ⟨-, hl₂, hdisjoint⟩ := List.nodup_append.mp hl
  refine ⟨l₁, l₂, rfl, fun hmem => ?_, (List.nodup_cons.mp hl₂).1⟩
  exact hdisjoint a hmem a List.mem_cons_self rfl

theorem mem_others (hl : l.Nodup) (ha : a ∈ l) : b ∈ others l a ↔ b ∈ l ∧ b ≠ a := by
  obtain ⟨l₁, l₂, rfl, ha₁, ha₂⟩ := exists_split hl ha
  rw [others_append ha₁]
  simp only [List.mem_append, List.mem_cons]
  grind

/-- Rotated behind a member, the list ends with it. -/
theorem rotate_idxOf (ha : a ∈ l) : l.rotate (l.idxOf a + 1) = others l a ++ [a] := by
  have hlt : l.idxOf a < l.length := List.idxOf_lt_length_of_mem ha
  rw [List.rotate_eq_drop_append_take hlt, List.take_add_one, ← List.append_assoc, others,
    List.getElem?_eq_getElem hlt, List.getElem_idxOf hlt]
  rfl

theorem filter_others (hl : l.Nodup) (ha : a ∈ l) (he : eligible a = true) :
    (others l a).filter eligible = others (l.filter eligible) a := by
  obtain ⟨l₁, l₂, rfl, ha₁, -⟩ := exists_split hl ha
  have hmem : a ∉ l₁.filter eligible := fun h => ha₁ (List.mem_of_mem_filter h)
  rw [others_append ha₁, List.filter_append, List.filter_append, List.filter_cons_of_pos he, others_append hmem]

/-- A turn from an eligible member goes to the next position among the eligible ones. -/
theorem turn_next (hl : l.Nodup) (ha : (l.filter eligible)[i]? = some a) :
    (l.filter eligible)[(i + 1) % (l.filter eligible).length]? = some (turn eligible l a) := by
  obtain ⟨hi, hget⟩ := List.getElem?_eq_some_iff.mp ha
  have hmem : a ∈ l.filter eligible := List.mem_of_getElem? ha
  have hnodup : (l.filter eligible).Nodup := hl.filter _
  have hidx : (l.filter eligible).idxOf a = i := by
    rw [← hget]
    exact hnodup.idxOf_getElem i hi
  have hturn : some (turn eligible l a) = (others (l.filter eligible) a ++ [a]).head? := by
    rw [turn, ← List.head?_filter, filter_others hl (List.mem_of_mem_filter hmem) (List.of_mem_filter hmem)]
    cases others (l.filter eligible) a <;> rfl
  have hpos : 0 < (l.filter eligible).length := by omega
  rw [hturn, ← rotate_idxOf hmem, hidx, List.head?_eq_getElem?, List.getElem?_rotate hpos, Nat.zero_add]

theorem turn_mem (hl : l.Nodup) (ha : a ∈ l.filter eligible) : turn eligible l a ∈ l.filter eligible := by
  obtain ⟨i, hi⟩ := List.mem_iff_getElem?.mp ha
  exact List.mem_of_getElem? (turn_next hl hi)

/-- With a second eligible member a turn goes somewhere else. -/
theorem turn_ne (hl : l.Nodup) (ha : a ∈ l.filter eligible) (hmany : 2 ≤ (l.filter eligible).length) :
    turn eligible l a ≠ a := by
  obtain ⟨i, hi⟩ := List.mem_iff_getElem?.mp ha
  obtain ⟨hlt, hget⟩ := List.getElem?_eq_some_iff.mp hi
  have hstep := turn_next hl hi
  intro hstay
  obtain ⟨hlt', hget'⟩ := List.getElem?_eq_some_iff.mp (hstay ▸ hstep)
  have hsame : (i + 1) % (l.filter eligible).length = i :=
    ((hl.filter eligible).getElem_inj_iff).mp (hget'.trans hget.symm)
  by_cases hlast : i + 1 = (l.filter eligible).length
  · rw [hlast, Nat.mod_self] at hsame
    omega
  · rw [Nat.mod_eq_of_lt (by omega)] at hsame
    omega

theorem turn_iterate (hl : l.Nodup) (ha : (l.filter eligible)[i]? = some a) (k : ℕ) :
    (l.filter eligible)[(i + k) % (l.filter eligible).length]? = some ((turn eligible l)^[k] a) := by
  induction k with
  | zero =>
    obtain ⟨hi, -⟩ := List.getElem?_eq_some_iff.mp ha
    rw [Nat.add_zero, Nat.mod_eq_of_lt hi]
    exact ha
  | succ k ih =>
    have hstep := turn_next hl ih
    rw [Nat.mod_add_mod] at hstep
    rw [Function.iterate_succ_apply', ← hstep, Nat.add_assoc]

/-- As many turns as there are eligible members visit each of them once. -/
theorem lap_perm (hl : l.Nodup) (ha : a ∈ l.filter eligible) :
    (List.iterate (turn eligible l) (turn eligible l a) (l.filter eligible).length).Perm (l.filter eligible) := by
  obtain ⟨i, hi⟩ := List.mem_iff_getElem?.mp ha
  have hrotate : List.iterate (turn eligible l) (turn eligible l a) (l.filter eligible).length =
      (l.filter eligible).rotate (i + 1) := by
    refine List.ext_getElem? fun k => ?_
    by_cases hk : k < (l.filter eligible).length
    · rw [List.getElem?_iterate _ _ _ _ hk, List.getElem?_rotate hk, ← Function.iterate_succ_apply,
        ← turn_iterate hl hi, Nat.add_comm k, Nat.add_assoc, Nat.add_comm 1]
    · rw [List.getElem?_eq_none (by simpa using hk), List.getElem?_eq_none (by simpa using hk)]
  rw [hrotate]
  exact List.rotate_perm _ _

/-- The last of these turns ends where the first one started. -/
theorem lap_returns (hl : l.Nodup) (ha : a ∈ l.filter eligible) :
    (turn eligible l)^[(l.filter eligible).length] a = a := by
  obtain ⟨i, hi⟩ := List.mem_iff_getElem?.mp ha
  have hlap := turn_iterate hl hi (l.filter eligible).length
  rw [Nat.add_mod_right, ← Nat.add_zero i, turn_iterate hl hi] at hlap
  exact (Option.some.inj hlap).symm

/-! ### How far away a member is

The list may grow at its head. Seen from `c`, that is behind `a` if `a` comes later in the list, and
otherwise it happens before the way from `c` to `a` has passed the end of the list once.
-/

variable {c t z : α} {m : List α} {n : ℕ}

/-- A bound for the turns from `c` to `a`, when at most `n` members can be in front of `a`. -/
def distance (n : ℕ) (l : List α) (c a : α) : ℕ :=
  if l.idxOf c < l.idxOf a then l.idxOf a - l.idxOf c - 1 else n + (l.length - l.idxOf c - 1)

theorem distance_front (hl : (l₁ ++ c :: (m ++ a :: l₂)).Nodup) : distance n (l₁ ++ c :: (m ++ a :: l₂)) c a = m.length := by
  have hc : c ∉ l₁ := fun hmem => (List.nodup_append.mp hl).2.2 c hmem c List.mem_cons_self rfl
  have hsplit : l₁ ++ c :: (m ++ a :: l₂) = (l₁ ++ c :: m) ++ a :: l₂ := by simp
  have ha : a ∉ l₁ ++ c :: m := fun hmem => (List.nodup_append.mp (hsplit ▸ hl)).2.2 a hmem a List.mem_cons_self rfl
  have hidx : (l₁ ++ c :: (m ++ a :: l₂)).idxOf c = l₁.length := by
    rw [List.idxOf_append_of_notMem hc, List.idxOf_cons_self, Nat.add_zero]
  have hidx' : (l₁ ++ c :: (m ++ a :: l₂)).idxOf a = l₁.length + 1 + m.length := by
    rw [hsplit, List.idxOf_append_of_notMem ha, List.idxOf_cons_self, List.length_append, List.length_cons]
    omega
  rw [distance, hidx, hidx', if_pos (by omega)]
  omega

theorem distance_back (hl : (l₁ ++ c :: l₂).Nodup) (ha : a ∈ l₁) : distance n (l₁ ++ c :: l₂) c a = n + l₂.length := by
  have hc : c ∉ l₁ := fun hmem => (List.nodup_append.mp hl).2.2 c hmem c List.mem_cons_self rfl
  have hidx : (l₁ ++ c :: l₂).idxOf c = l₁.length := by
    rw [List.idxOf_append_of_notMem hc, List.idxOf_cons_self, Nat.add_zero]
  have hidx' : (l₁ ++ c :: l₂).idxOf a < l₁.length := by
    rw [List.idxOf_append_of_mem ha]
    exact List.idxOf_lt_length_of_mem ha
  rw [distance, hidx, if_neg (by omega), List.length_append, List.length_cons]
  omega

omit [DecidableEq α] in
/-- The first eligible one in a list with another eligible one in it -/
theorem find_split (ha : a ∈ l) (he : eligible a = true) : ∃ b l₁ l₂, l.find? eligible = some b ∧ l = l₁ ++ b :: l₂ ∧
    (a = b ∨ a ∈ l₂) := by
  obtain ⟨b, hb⟩ : ∃ b, l.find? eligible = some b := by
    cases hfind : l.find? eligible with
    | none => exact absurd he (List.find?_eq_none.mp hfind a ha)
    | some b => exact ⟨b, rfl⟩
  obtain ⟨-, l₁, l₂, rfl, hbefore⟩ := List.find?_eq_some_iff_append.mp hb
  refine ⟨b, l₁, l₂, hb, rfl, ?_⟩
  rcases List.mem_append.mp ha with hmem | hmem
  · have hnot := hbefore a hmem
    rw [he] at hnot
    exact absurd hnot (by decide)
  · exact List.mem_cons.mp hmem

/-- A turn comes nearer to an eligible member that it does not reach. -/
theorem distance_turn (hl : l.Nodup) (hc : c ∈ l) (ha : a ∈ l) (hne : a ≠ c) (he : eligible a = true) (hn : l.length ≤ n)
    (haway : turn eligible l c ≠ a) : distance n l (turn eligible l c) a < distance n l c a := by
  obtain ⟨l₁, l₂, rfl, hc₁, hc₂⟩ := exists_split hl hc
  rw [turn, others_append hc₁, List.find?_append] at haway ⊢
  by_cases ha₂ : a ∈ l₂
  · obtain ⟨b, m, l₃, hfind, rfl, hab⟩ := find_split ha₂ he
    rw [hfind] at haway ⊢
    have hmem := hab.resolve_left fun hab => haway hab.symm
    obtain ⟨m', l₄, rfl⟩ := List.append_of_mem hmem
    have hfront : l₁ ++ c :: (m ++ b :: (m' ++ a :: l₄)) = (l₁ ++ c :: m) ++ b :: (m' ++ a :: l₄) := by simp
    have hfront' : l₁ ++ c :: (m ++ b :: (m' ++ a :: l₄)) = l₁ ++ c :: ((m ++ b :: m') ++ a :: l₄) := by simp
    have hb : distance n (l₁ ++ c :: (m ++ b :: (m' ++ a :: l₄))) b a = m'.length := by
      rw [hfront] at hl ⊢
      exact distance_front hl
    have hc' : distance n (l₁ ++ c :: (m ++ b :: (m' ++ a :: l₄))) c a = (m ++ b :: m').length := by
      rw [hfront'] at hl ⊢
      exact distance_front hl
    change distance n _ b a < _
    rw [hb, hc', List.length_append, List.length_cons]
    omega
  · have ha₁ : a ∈ l₁ := by
      rcases List.mem_append.mp ha with hmem | hmem
      · exact hmem
      · exact absurd ((List.mem_cons.mp hmem).resolve_left hne) ha₂
    rw [distance_back hl ha₁]
    cases hfind : l₂.find? eligible with
    | some b =>
      obtain ⟨-, m, l₃, rfl, -⟩ := List.find?_eq_some_iff_append.mp hfind
      have hback : l₁ ++ c :: (m ++ b :: l₃) = (l₁ ++ c :: m) ++ b :: l₃ := by simp
      have hb : distance n (l₁ ++ c :: (m ++ b :: l₃)) b a = n + l₃.length := by
        rw [hback] at hl ⊢
        exact distance_back hl (List.mem_append_left _ ha₁)
      change distance n _ b a < _
      rw [hb, List.length_append, List.length_cons]
      omega
    | none =>
      rw [hfind, Option.none_or] at haway
      obtain ⟨b, m, l₃, hfind', rfl, hab⟩ := find_split ha₁ he
      rw [hfind'] at haway
      have hmem := hab.resolve_left fun hab => haway hab.symm
      obtain ⟨m', l₄, rfl⟩ := List.append_of_mem hmem
      have hfront : (m ++ b :: (m' ++ a :: l₄)) ++ c :: l₂ = m ++ b :: (m' ++ a :: (l₄ ++ c :: l₂)) := by simp
      have hb : distance n ((m ++ b :: (m' ++ a :: l₄)) ++ c :: l₂) b a = m'.length := by
        rw [hfront] at hl ⊢
        exact distance_front hl
      have hlength := congrArg List.length hfront
      rw [Option.none_or, hfind']
      change distance n _ b a < _
      rw [hb]
      simp only [List.length_append, List.length_cons] at hlength hn
      omega

omit [DecidableEq α] in
/-- Two members, in one order or the other -/
theorem split_two (hl : l.Nodup) (hc : c ∈ l) (ha : a ∈ l) (hne : a ≠ c) :
    (∃ l₁ m l₂, l = l₁ ++ c :: (m ++ a :: l₂)) ∨ ∃ l₁ l₂, l = l₁ ++ c :: l₂ ∧ a ∈ l₁ := by
  obtain ⟨l₁, l₂, rfl, -, -⟩ := exists_split hl hc
  rcases List.mem_append.mp ha with hmem | hmem
  · exact .inr ⟨l₁, l₂, rfl, hmem⟩
  · obtain ⟨m, l₃, rfl⟩ := List.append_of_mem ((List.mem_cons.mp hmem).resolve_left hne)
    exact .inl ⟨l₁, m, l₃, rfl⟩

/-- A new head changes nothing. -/
theorem distance_cons (hl : (t :: l).Nodup) (hc : c ∈ l) (ha : a ∈ l) (hne : a ≠ c) :
    distance n (t :: l) c a = distance n l c a := by
  rcases split_two hl.of_cons hc ha hne with ⟨l₁, m, l₂, rfl⟩ | ⟨l₁, l₂, rfl, hmem⟩
  · have hcons : t :: (l₁ ++ c :: (m ++ a :: l₂)) = (t :: l₁) ++ c :: (m ++ a :: l₂) := rfl
    rw [distance_front hl.of_cons]
    rw [hcons] at hl ⊢
    exact distance_front hl
  · have hcons : t :: (l₁ ++ c :: l₂) = (t :: l₁) ++ c :: l₂ := rfl
    rw [distance_back hl.of_cons hmem]
    rw [hcons] at hl ⊢
    exact distance_back hl (List.mem_cons_of_mem t hmem)

/-- Without another member it can only become less. -/
theorem distance_erase (hl : l.Nodup) (hc : c ∈ l) (ha : a ∈ l) (hne : a ≠ c) (hzc : z ≠ c) (hza : z ≠ a) :
    distance n (l.erase z) c a ≤ distance n l c a := by
  have hnodup := hl.erase z
  rw [hl.erase_eq_filter] at hnodup ⊢
  have hkeeps : ∀ b, z ≠ b → (b != z) = true := fun b hb => by simpa using hb.symm
  rcases split_two hl hc ha hne with ⟨l₁, m, l₂, rfl⟩ | ⟨l₁, l₂, rfl, hmem⟩
  · rw [distance_front hl]
    rw [List.filter_append, List.filter_cons_of_pos (p := fun x => x != z) (hkeeps c hzc), List.filter_append,
      List.filter_cons_of_pos (p := fun x => x != z) (hkeeps a hza)] at hnodup ⊢
    rw [distance_front hnodup]
    exact List.length_filter_le _ m
  · rw [distance_back hl hmem]
    rw [List.filter_append, List.filter_cons_of_pos (p := fun x => x != z) (hkeeps c hzc)] at hnodup ⊢
    rw [distance_back hnodup (List.mem_filter.mpr ⟨hmem, hkeeps a hza⟩)]
    have hlength := List.length_filter_le (fun b => b != z) l₂
    omega

end HekaOS.CyclicOrder
