import HekaOS.KernelMemory

/-!
# Postconditions of kernel calls

`Ensures x Q` says that whatever the call `x` returns satisfies `Q`; a call that panics returns
nothing. `Returns x Q` says that it returns, too. The rules for sequences and for the two kinds of
loops, those that run through and those that give up at the first round that fails.
-/

namespace HekaOS.KernelTriples
open KernelMemory

variable {α β σ : Type} {x : Kernel α} {Q R : α → Prop} {l : List ℕ} {s : σ}

theorem ok_bind (a : α) (f : α → Kernel β) : ((.ok a : Kernel α) >>= f) = f a := rfl

def Ensures (x : Kernel α) (Q : α → Prop) : Prop := ∀ a, x = .ok a → Q a

theorem ensures_ok {a : α} (h : Q a) : Ensures (.ok a) Q := by
  intro b hb
  obtain rfl := Except.ok.inj hb
  exact h

theorem ensures_error (e : Stop) : Ensures (.error e) Q := by
  intro b hb
  exact nomatch hb

theorem Ensures.mono (h : Ensures x Q) (hQ : ∀ a, Q a → R a) : Ensures x R := fun a ha => hQ a (h a ha)

theorem Ensures.bind {f : α → Kernel β} {R : β → Prop} (h : Ensures x Q) (hf : ∀ a, Q a → Ensures (f a) R) :
    Ensures (x >>= f) R := by
  intro b hb
  obtain ⟨a, ha, hb⟩ := bind_eq_ok.mp hb
  exact hf a (h a ha) b hb

/-- A loop keeps what each of its rounds keeps. -/
theorem ensures_foldlM {body : σ → ℕ → Kernel σ} {I : σ → Prop}
    (hbody : ∀ i ∈ l, ∀ s, I s → Ensures (body s i) I) (hs : I s) : Ensures (l.foldlM body s) I := by
  induction l generalizing s with
  | nil => exact ensures_ok hs
  | cons i l ih =>
    rw [List.foldlM_cons]
    refine (hbody i List.mem_cons_self s hs).bind fun t ht => ?_
    exact ih (fun j hj => hbody j (List.mem_cons_of_mem i hj)) ht

/-- A loop comes back if and only if each of its rounds does. -/
theorem foldlM_returns {ι : Type*} {body : σ → ι → Kernel σ} {l : List ι} {s : σ} :
    (∃ t, l.foldlM body s = .ok t) ↔
      ∀ before i after t, l = before ++ i :: after → before.foldlM body s = .ok t → ∃ u, body t i = .ok u := by
  induction l generalizing s with
  | nil =>
    refine iff_of_true ⟨s, rfl⟩ fun before i after t hl => ?_
    cases before <;> cases hl
  | cons j l ih =>
    rw [List.foldlM_cons]
    constructor
    · rintro ⟨t, ht⟩ before i after u hl hu
      obtain ⟨v, hv, ht⟩ := bind_eq_ok.mp ht
      cases before with
      | nil =>
        obtain ⟨rfl, -⟩ := List.cons.inj hl
        obtain rfl := Except.ok.inj hu
        exact ⟨v, hv⟩
      | cons k before =>
        obtain ⟨rfl, hrest⟩ := List.cons.inj hl
        rw [List.foldlM_cons, hv] at hu
        exact ih.mp ⟨t, ht⟩ before i after u hrest hu
    · intro h
      obtain ⟨v, hv⟩ := h [] j l s rfl rfl
      rw [hv, ok_bind]
      refine ih.mpr fun before i after t hl ht => h (j :: before) i after t (congrArg _ hl) ?_
      rw [List.foldlM_cons, hv]
      exact ht

/-- A counting loop, with an invariant for each round. -/
theorem ensures_foldlM_range' {body : σ → ℕ → Kernel σ} {I : ℕ → σ → Prop} {a n : ℕ}
    (hbody : ∀ i, a ≤ i → i < a + n → ∀ s, I i s → Ensures (body s i) (I (i + 1))) (hs : I a s) :
    Ensures ((List.range' a n).foldlM body s) (I (a + n)) := by
  induction n generalizing a s with
  | zero => exact ensures_ok hs
  | succ n ih =>
    rw [List.range'_succ, List.foldlM_cons]
    refine (hbody a (le_refl a) (by omega) s hs).bind fun t ht => ?_
    have hrest := ih (fun i hi hi' => hbody i (by omega) (by omega)) ht
    rw [Nat.add_right_comm, Nat.add_assoc] at hrest
    exact hrest

/-- A loop whose rounds answer whether they succeeded; the first one that fails ends it. -/
def tryEach (body : σ → ℕ → Kernel (Bool × σ)) : List ℕ → σ → Kernel (Bool × σ)
  | [], s => .ok (true, s)
  | i :: l, s => do
    let r ← body s i
    if r.1 then tryEach body l r.2 else .ok (false, r.2)

/-- `I` holds while the loop goes on, and `J` when it has given up. -/
theorem ensures_tryEach {body : σ → ℕ → Kernel (Bool × σ)} {I J : σ → Prop}
    (hbody : ∀ i ∈ l, ∀ s, I s → Ensures (body s i) fun r => if r.1 then I r.2 else J r.2) (hs : I s) :
    Ensures (tryEach body l s) fun r => if r.1 then I r.2 else J r.2 := by
  induction l generalizing s with
  | nil => exact ensures_ok hs
  | cons i l ih =>
    rw [tryEach]
    refine (hbody i List.mem_cons_self s hs).bind fun r hr => ?_
    obtain ⟨ok, t⟩ := r
    cases ok with
    | true => exact ih (fun j hj => hbody j (List.mem_cons_of_mem i hj)) hr
    | false => exact ensures_ok hr

/-! ### Calls that return -/

def Returns (x : Kernel α) (Q : α → Prop) : Prop := ∃ a, x = .ok a ∧ Q a

theorem returns_ok {a : α} (h : Q a) : Returns (.ok a) Q := ⟨a, rfl, h⟩

theorem Returns.mono (h : Returns x Q) (hQ : ∀ a, Q a → R a) : Returns x R := by
  obtain ⟨a, hx, ha⟩ := h
  exact ⟨a, hx, hQ a ha⟩

theorem Returns.bind {f : α → Kernel β} {R : β → Prop} (h : Returns x Q) (hf : ∀ a, Q a → Returns (f a) R) :
    Returns (x >>= f) R := by
  obtain ⟨a, hx, ha⟩ := h
  obtain ⟨b, hb, hR⟩ := hf a ha
  exact ⟨b, bind_eq_ok.mpr ⟨a, hx, hb⟩, hR⟩

/-- What a call ensures holds of what it returns. -/
theorem Returns.and_ensures (h : Returns x Q) (hR : Ensures x R) : Returns x fun a => Q a ∧ R a := by
  obtain ⟨a, hx, ha⟩ := h
  exact ⟨a, hx, ha, hR a hx⟩

/-- The call ensures `Q`, and returns wherever `total` holds. -/
def Meets (total : Prop) (x : Kernel α) (Q : α → Prop) : Prop := Ensures x Q ∧ (total → ∃ a, x = .ok a)

variable {total : Prop}

theorem Returns.ensures (h : Returns x Q) : Ensures x Q := by
  obtain ⟨a, hx, ha⟩ := h
  intro b hb
  obtain rfl := Except.ok.inj (hx.symm.trans hb)
  exact ha

theorem Returns.meets (h : Returns x Q) : Meets total x Q := by
  refine ⟨h.ensures, fun _ => ?_⟩
  obtain ⟨a, hx, -⟩ := h
  exact ⟨a, hx⟩

theorem meets_ok {a : α} (h : Q a) : Meets total (.ok a) Q := (returns_ok h).meets

theorem Meets.mono (h : Meets total x Q) (hQ : ∀ a, Q a → R a) : Meets total x R := ⟨h.1.mono hQ, h.2⟩

theorem Meets.returns (h : Meets total x Q) (ht : total) : Returns x Q := by
  obtain ⟨a, hx⟩ := h.2 ht
  exact ⟨a, hx, h.1 a hx⟩

theorem Meets.bind {f : α → Kernel β} {R : β → Prop} (h : Meets total x Q) (hf : ∀ a, Q a → Meets total (f a) R) :
    Meets total (x >>= f) R := by
  refine ⟨h.1.bind fun a ha => (hf a ha).1, fun ht => ?_⟩
  obtain ⟨a, hx, ha⟩ := h.returns ht
  obtain ⟨b, hb⟩ := (hf a ha).2 ht
  exact ⟨b, bind_eq_ok.mpr ⟨a, hx, hb⟩⟩

/-- A counting loop takes its invariant from round to round. -/
theorem returns_foldlM_range' {body : σ → ℕ → Kernel σ} {I : ℕ → σ → Prop} {a n : ℕ}
    (hbody : ∀ i, a ≤ i → i < a + n → ∀ s, I i s → Returns (body s i) (I (i + 1))) (hs : I a s) :
    Returns ((List.range' a n).foldlM body s) (I (a + n)) := by
  induction n generalizing a s with
  | zero => exact returns_ok hs
  | succ n ih =>
    rw [List.range'_succ, List.foldlM_cons]
    refine (hbody a (le_refl a) (by omega) s hs).bind fun t ht => ?_
    have hrest := ih (fun i hi hi' => hbody i (by omega) (by omega)) ht
    rw [Nat.add_right_comm, Nat.add_assoc] at hrest
    exact hrest

/-- A counting loop that may give up. -/
theorem returns_tryEach_range' {body : σ → ℕ → Kernel (Bool × σ)} {I : ℕ → σ → Prop} {J : σ → Prop} {a n : ℕ}
    (hbody : ∀ i, a ≤ i → i < a + n → ∀ s, I i s →
      Returns (body s i) fun r => if r.1 then I (i + 1) r.2 else J r.2) (hs : I a s) :
    Returns (tryEach body (List.range' a n) s) fun r => if r.1 then I (a + n) r.2 else J r.2 := by
  induction n generalizing a s with
  | zero => exact returns_ok hs
  | succ n ih =>
    rw [List.range'_succ, tryEach]
    refine (hbody a (le_refl a) (by omega) s hs).bind fun r hr => ?_
    obtain ⟨ok, t⟩ := r
    cases ok with
    | true =>
      have hrest := ih (fun i hi hi' => hbody i (by omega) (by omega)) hr
      rw [Nat.add_right_comm, Nat.add_assoc] at hrest
      exact hrest
    | false => exact returns_ok hr

end HekaOS.KernelTriples
