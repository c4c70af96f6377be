import Mathlib.Data.List.Basic
import Mathlib.Data.List.Nodup

/-!
# Intrusive singly linked chains

A chain is a head pointer and a link function; a null pointer is `none`. `Chain`
relates them to the list of the nodes met on the way. A finite chain never meets a
node twice, so it is determined by its head and survives every link update off it.
-/

namespace HekaOS.PointerChain

variable {α : Type*} {next next' : α → Option α}

/-- Following `next` from a pointer meets exactly the listed nodes and then ends. -/
def Chain (next : α → Option α) : Option α → List α → Prop
  | p, [] => p = none
  | p, a :: l => p = some a ∧ Chain next (next a) l

@[simp] theorem chain_nil {p : Option α} : Chain next p [] ↔ p = none := Iff.rfl

@[simp] theorem chain_cons {p : Option α} {a : α} {l : List α} :
    Chain next p (a :: l) ↔ p = some a ∧ Chain next (next a) l := Iff.rfl

theorem Chain.unique {p : Option α} {l m : List α} (hl : Chain next p l) (hm : Chain next p m) :
    l = m := by
  induction l generalizing p m with
  | nil =>
    cases m with
    | nil => rfl
    | cons b m => exact absurd (hl.symm.trans hm.1) (by simp)
  | cons a l ih =>
    cases m with
    | nil => exact absurd (hl.1.symm.trans hm) (by simp)
    | cons b m =>
      obtain rfl : a = b := Option.some.inj (hl.1.symm.trans hm.1)
      rw [ih hl.2 hm.2]

theorem Chain.eq_nil {l : List α} (h : Chain next none l) : l = [] := h.unique rfl

/-- A pointer to the head of a chain is null exactly when the chain is empty. -/
theorem Chain.head?_eq {p : Option α} {l : List α} (h : Chain next p l) : p = l.head? := by
  cases l with
  | nil => exact h
  | cons a l => exact h.1

/-- The part of a chain from one of its nodes on is a chain. -/
theorem Chain.suffix {p : Option α} {l m : List α} {a : α} (h : Chain next p (l ++ a :: m)) :
    Chain next (some a) (a :: m) := by
  induction l generalizing p with
  | nil => exact ⟨rfl, h.2⟩
  | cons b l ih => exact ih h.2

theorem Chain.mem_of_head {p : Option α} {l : List α} {a : α} (h : Chain next p l) (hp : p = some a) :
    a ∈ l := by
  cases l with
  | nil => exact nomatch hp.symm.trans h
  | cons b l =>
    obtain rfl := Option.some.inj (hp.symm.trans h.1)
    exact List.mem_cons_self

/-- A link of a chain leads to the chain. -/
theorem Chain.mem_of_next {p : Option α} {l : List α} {a b : α} (h : Chain next p l) (ha : a ∈ l)
    (hb : next a = some b) : b ∈ l := by
  obtain ⟨s, m, rfl⟩ := List.append_of_mem ha
  have hmem : b ∈ m := (Chain.suffix h).2.mem_of_head hb
  exact List.mem_append_right s (List.mem_cons_of_mem a hmem)

/-- A finite chain has no duplicates. -/
theorem Chain.nodup {p : Option α} {l : List α} (h : Chain next p l) : l.Nodup := by
  induction l generalizing p with
  | nil => exact List.nodup_nil
  | cons a l ih =>
    refine List.nodup_cons.mpr ⟨fun ha => ?_, ih h.2⟩
    obtain ⟨s, t, rfl⟩ := List.append_of_mem ha
    -- the tail from the second occurrence would be the whole chain again
    have he : a :: t = a :: (s ++ a :: t) := (Chain.suffix h.2).unique ⟨rfl, h.2⟩
    have hlen := congrArg List.length he
    simp only [List.length_cons, List.length_append] at hlen
    omega

/-- A chain only reads the links of its own nodes. -/
theorem Chain.congr {p : Option α} {l : List α} (h : Chain next p l)
    (heq : ∀ a ∈ l, next' a = next a) : Chain next' p l := by
  induction l generalizing p with
  | nil => exact h
  | cons a l ih =>
    refine ⟨h.1, ?_⟩
    rw [heq a List.mem_cons_self]
    exact ih h.2 fun b hb => heq b (List.mem_cons_of_mem _ hb)

/-- Cut a chain in front of one of its nodes and continue it elsewhere. -/
theorem Chain.splice {p q : Option α} {l m r : List α} (h : Chain next p (l ++ m))
    (hr : Chain next' q r) (hl : ∀ a ∈ l.dropLast, next' a = next a)
    (hlast : ∀ a, l.getLast? = some a → next' a = q) (hnil : l = [] → p = q) :
    Chain next' p (l ++ r) := by
  induction l generalizing p with
  | nil => simpa [hnil rfl] using hr
  | cons a l ih =>
    refine ⟨h.1, ?_⟩
    cases l with
    | nil => simpa [hlast a rfl] using hr
    | cons b l =>
      rw [hl a (by simp)]
      refine ih h.2 (fun c hc => hl c ?_) (fun c hc => hlast c (by simpa using hc)) (by simp)
      rw [List.dropLast_cons_cons]
      exact List.mem_cons_of_mem _ hc

/-- Take a node out of a chain: its predecessor, or the head pointer if there is none, now
leads to its successor. -/
theorem Chain.remove [DecidableEq α] {p p' : Option α} {l m : List α} {a : α} (h : Chain next p (l ++ a :: m))
    (hp : p' = if l = [] then m.head? else p)
    (hnext : ∀ b ∈ l ++ m, next' b = if l.getLast? = some b then m.head? else next b) :
    Chain next' p' (l ++ m) := by
  have hnodup := h.nodup
  have htail : Chain next (next a) m := (Chain.suffix h).2
  have hm : Chain next' m.head? m := by
    rw [← htail.head?_eq]
    refine htail.congr fun b hb => ?_
    rw [hnext b (List.mem_append_right l hb), if_neg]
    intro hlast
    exact (List.nodup_append.mp hnodup).2.2 b (List.mem_of_getLast? hlast) b
      (List.mem_cons_of_mem a hb) rfl
  cases l with
  | nil => simpa [hp] using hm
  | cons c l =>
    obtain rfl : p' = p := by simpa using hp
    refine h.splice hm (fun b hb => ?_) (fun b hb => ?_) nofun
    · rw [hnext b (List.mem_append_left m (List.dropLast_subset _ hb)), if_neg]
      -- the last node does not occur a second time in front of itself
      intro hlast
      have hl : (c :: l).Nodup := hnodup.of_append_left
      rw [← List.dropLast_append_getLast? b hlast] at hl
      exact (List.nodup_append.mp hl).2.2 b hb b List.mem_cons_self rfl
    · rw [hnext b (List.mem_append_left m (List.mem_of_getLast? hb)), if_pos hb]

/-- A walk that keeps its links or continues at `r` ends if the walk from `r` does. -/
theorem Chain.redirect {X : α → Prop} {p r : Option α} {l m : List α} (h : Chain next p l)
    (hr : Chain next' r m) (hX : ∀ a, X a → next' a = r ∨ next' a = next a ∧ ∀ b, next a = some b → X b)
    (hp : ∀ a, p = some a → X a) : ∃ l', Chain next' p l' := by
  induction l generalizing p with
  | nil => exact ⟨[], h⟩
  | cons a l ih =>
    obtain ⟨rfl, htail⟩ := h
    rcases hX a (hp a rfl) with hr' | ⟨hsame, hclosed⟩
    · exact ⟨a :: m, rfl, hr' ▸ hr⟩
    · obtain ⟨l', hl'⟩ := ih htail hclosed
      exact ⟨a :: l', rfl, hsame ▸ hl'⟩

/-- The head pointer does not lead to a later node. -/
theorem Chain.head_ne {p : Option α} {l m : List α} {a c : α} (h : Chain next p (l ++ a :: c :: m)) :
    p ≠ some c := by
  intro hc
  have hnodup := h.nodup
  cases l with
  | nil =>
    obtain rfl : a = c := Option.some.inj (h.1.symm.trans hc)
    simp at hnodup
  | cons d l =>
    obtain rfl : d = c := Option.some.inj (h.1.symm.trans hc)
    simp at hnodup

theorem Chain.erase_middle [DecidableEq α] {p : Option α} {l m : List α} {a : α} (h : Chain next p (l ++ a :: m)) :
    (l ++ a :: m).erase a = l ++ m := by
  have hl : a ∉ l := fun hmem => (List.nodup_append.mp h.nodup).2.2 a hmem a List.mem_cons_self rfl
  rw [List.erase_append_right _ hl, List.erase_cons_head]

/-- The predecessor of a node is the only node of a chain that leads to it. -/
theorem Chain.find?_pred [DecidableEq α] {p : Option α} {l m : List α} {a c : α}
    (h : Chain next p (l ++ a :: c :: m)) :
    (l ++ a :: c :: m).find? (fun b => decide (next b = some c)) = some a := by
  induction l generalizing p with
  | nil => simp [h.2.1]
  | cons b l ih =>
    rw [List.cons_append, List.find?_cons_of_neg (by simpa using h.2.head_ne)]
    exact ih h.2

/-- Walk a chain to its first node that passes the test. The outer `none` means that
the walk did not end within the fuel, `some none` that it met the null pointer. -/
def find (next : α → Option α) (test : α → Bool) : ℕ → Option α → Option (Option α)
  | 0, _ => none
  | _ + 1, none => some none
  | n + 1, some a => if test a then some (some a) else find next test n (next a)

/-- Walk a chain to its end and return the last node met, or `last` if there was none. -/
def walkLast (next : α → Option α) : ℕ → Option α → Option α → Option (Option α)
  | 0, _, _ => none
  | _ + 1, last, none => some last
  | n + 1, _, some a => walkLast next n (some a) (next a)

/-- Walk a chain to its end and return the nodes met. -/
def collect (next : α → Option α) : ℕ → Option α → Option (List α)
  | 0, _ => none
  | _ + 1, none => some []
  | n + 1, some a => (collect next n (next a)).map (a :: ·)

/-- A walk along a chain that ended did so at the first listed node that passes. -/
theorem Chain.find_of_some {test : α → Bool} {p r : Option α} {l : List α} (h : Chain next p l)
    {n : ℕ} (hr : find next test n p = some r) : r = l.find? test := by
  induction n generalizing p l with
  | zero => simp [find] at hr
  | succ n ih =>
    cases l with
    | nil =>
      obtain rfl : p = none := h
      simpa [find] using hr.symm
    | cons a l =>
      obtain rfl := h.1
      by_cases ha : test a = true
      · simpa [find, ha] using hr.symm
      · simp only [find, ha, Bool.false_eq_true, ↓reduceIte] at hr
        rw [ih h.2 hr, List.find?_cons_of_neg ha]

/-- Induction along a chain, with fuel for all its nodes. -/
theorem Chain.walk_induction {motive : ℕ → Option α → List α → Prop} (hend : ∀ n, motive (n + 1) none [])
    (hnode : ∀ n a l, motive n (next a) l → motive (n + 1) (some a) (a :: l)) {p : Option α} {l : List α}
    (h : Chain next p l) {n : ℕ} (hn : l.length < n) : motive n p l := by
  induction l generalizing p n with
  | nil =>
    obtain rfl : p = none := h
    cases n with
    | zero => simp at hn
    | succ n => exact hend n
  | cons a l ih =>
    obtain rfl := h.1
    cases n with
    | zero => simp at hn
    | succ n => exact hnode n a l (ih h.2 (by simpa using hn))

/-- Enough fuel takes the walk to the first listed node that passes. -/
theorem Chain.find_eq {test : α → Bool} {p : Option α} {l : List α} (h : Chain next p l) {n : ℕ}
    (hn : l.length < n) : find next test n p = some (l.find? test) := by
  refine h.walk_induction (motive := fun n p l => find next test n p = some (l.find? test)) (fun _ => rfl) ?_ hn
  intro n a l ih
  by_cases ha : test a = true
  · rw [find, if_pos ha, List.find?_cons_of_pos ha]
  · rw [find, if_neg ha, List.find?_cons_of_neg ha]
    exact ih

/-- The node that a walk returns passes the test. -/
theorem find_pass {test : α → Bool} {p : Option α} {a : α} {n : ℕ} (h : find next test n p = some (some a)) :
    test a = true := by
  induction n generalizing p with
  | zero => simp [find] at h
  | succ n ih =>
    cases p with
    | none => simp [find] at h
    | some b =>
      rw [find] at h
      split at h
      · rename_i hb
        obtain rfl := Option.some.inj (Option.some.inj h)
        exact hb
      · exact ih h

/-- Enough fuel meets all nodes. -/
theorem Chain.collect_eq {p : Option α} {l : List α} (h : Chain next p l) {n : ℕ} (hn : l.length < n) :
    collect next n p = some l := by
  refine h.walk_induction (motive := fun n p l => collect next n p = some l) (fun _ => rfl) ?_ hn
  intro n a l ih
  rw [collect, ih]
  rfl

/-- Enough fuel takes the walk to the last node. -/
theorem Chain.walkLast_eq {last p : Option α} {l : List α} (h : Chain next p l) {n : ℕ} (hn : l.length < n) :
    walkLast next n last p = some (l.getLast?.or last) := by
  refine h.walk_induction (motive := fun n p l => ∀ last, walkLast next n last p = some (l.getLast?.or last))
    (fun _ _ => rfl) ?_ hn last
  intro n a l ih last
  rw [walkLast, ih]
  cases l <;> simp [List.getLast?_cons]

theorem Chain.walkLast_of_some {last p r : Option α} {l : List α} (h : Chain next p l)
    {n : ℕ} (hr : walkLast next n last p = some r) : r = l.getLast?.or last := by
  induction n generalizing p l last with
  | zero => simp [walkLast] at hr
  | succ n ih =>
    cases l with
    | nil =>
      obtain rfl : p = none := h
      simpa [walkLast] using hr.symm
    | cons a l =>
      obtain rfl := h.1
      rw [ih h.2 hr]
      cases l <;> simp [List.getLast?_cons]

end HekaOS.PointerChain
