import Mathlib.Data.List.Nodup
import Mathlib.Data.Finset.Card
import Mathlib.Tactic.IntervalCases
import HekaOS.Kmalloc

/-!
# Pool pages and their chunks

Arithmetic of a pool page: its chunks lie behind the header, inside the page and do not
overlap. The free list of a cache is a chain through the first words of free chunks, so
nothing that is written to a header or to a live chunk disturbs it.
-/

namespace HekaOS.Kmalloc
open MachineWord KernelMemory PointerChain

/-- The chunks of a page, in address order. -/
def chunks (base size : ℕ) : List ℕ :=
  (List.range (cpoolDataSize / size)).map fun j => base + cpoolHdrSize + j * size

/-- The chunks of a page that are not handed out. -/
def freeChunks (live : Finset ℕ) (base size : ℕ) : List ℕ :=
  (chunks base size).filter fun c => decide (c ∉ live)

variable {b b' c d size i k : ℕ} {live : Finset ℕ}

theorem mem_freeChunks : c ∈ freeChunks live b size ↔ c ∈ chunks b size ∧ c ∉ live := by
  simp [freeChunks]

theorem length_chunks : (chunks b size).length = cpoolDataSize / size := by simp [chunks]

theorem nodup_chunks (hsize : 0 < size) : (chunks b size).Nodup := by
  refine (List.nodup_range).map fun j j' hj => ?_
  have hjj : j * size = j' * size := by omega
  exact Nat.eq_of_mul_eq_mul_right hsize hjj

theorem chunk_bounds (hc : c ∈ chunks b size) : b + cpoolHdrSize ≤ c ∧ c + size ≤ b + pageSize := by
  obtain ⟨j, hj, rfl⟩ := List.mem_map.mp hc
  have hj' : j + 1 ≤ cpoolDataSize / size := List.mem_range.mp hj
  have hle : (j + 1) * size ≤ cpoolDataSize :=
    (Nat.mul_le_mul_right size hj').trans (Nat.div_mul_le_self _ _)
  rw [Nat.add_mul, Nat.one_mul] at hle
  simp only [cpoolDataSize, cpoolHdrSize, pageSize] at hle ⊢
  omega

theorem chunk_disjoint (hc : c ∈ chunks b size) (hd : d ∈ chunks b size) (hne : c ≠ d) :
    c + size ≤ d ∨ d + size ≤ c := by
  obtain ⟨j, -, rfl⟩ := List.mem_map.mp hc
  obtain ⟨j', -, rfl⟩ := List.mem_map.mp hd
  rcases Nat.lt_trichotomy j j' with hlt | heq | hgt
  · left
    have := Nat.mul_le_mul_right size hlt
    rw [Nat.succ_mul] at this
    omega
  · exact absurd (by rw [heq]) hne
  · right
    have := Nat.mul_le_mul_right size hgt
    rw [Nat.succ_mul] at this
    omega

theorem cacheSizes_pos (hi : i < kmemCacheCount) : 0 < cacheSizes i := by
  unfold kmemCacheCount at hi
  interval_cases i <;> decide

theorem cacheSizes_inj (hi : i < kmemCacheCount) (hk : k < kmemCacheCount)
    (h : cacheSizes i = cacheSizes k) : i = k := by
  unfold kmemCacheCount at hi hk
  interval_cases i <;> interval_cases k <;> first | rfl | exact absurd h (by decide)

theorem chunkCount_pos (hi : i < kmemCacheCount) : 0 < cpoolDataSize / cacheSizes i := by
  unfold kmemCacheCount at hi
  interval_cases i <;> decide

theorem chunkCount_lt (hi : i < kmemCacheCount) : cpoolDataSize / cacheSizes i < 2 ^ 16 := by
  unfold kmemCacheCount at hi
  interval_cases i <;> decide

/-- The header a chunk belongs to is found by masking its address. -/
theorem pageOf_eq (hb : pageSize ∣ b) (h₁ : b ≤ c) (h₂ : c < b + pageSize) (h₃ : c < wordSize) :
    pageOf c = b := by
  obtain ⟨q, rfl⟩ := hb
  rw [pageOf, clearLow_eq (by decide) h₃]
  unfold pageSize at *
  omega

/-- The cells a pool operation changes besides chunks are headers, which no list passes. -/
theorem chunk_ne_header (hb : pageSize ∣ b) (hb' : pageSize ∣ b') (hi : i < kmemCacheCount)
    (hc : c ∈ chunks b (cacheSizes i)) (hk : k < cpoolHdrSize) : c ≠ b' + k := by
  have hbounds := chunk_bounds hc
  have hpos := cacheSizes_pos hi
  obtain ⟨q, rfl⟩ := hb
  obtain ⟨q', rfl⟩ := hb'
  simp only [cpoolHdrSize, pageSize] at *
  omega

/-- Handing out a free chunk leaves one free chunk less. -/
theorem length_freeChunks_insert (hsize : 0 < size) (hc : c ∈ freeChunks live b size) :
    (freeChunks (insert c live) b size).length + 1 = (freeChunks live b size).length := by
  have hnodup : (freeChunks live b size).Nodup := (nodup_chunks hsize).filter _
  have he : freeChunks (insert c live) b size = (freeChunks live b size).erase c := by
    rw [hnodup.erase_eq_filter, freeChunks, freeChunks, List.filter_filter]
    refine List.filter_congr fun x _ => ?_
    by_cases hx : x = c <;> simp [hx]
  rw [he, List.length_erase_of_mem hc]
  have := List.length_pos_of_mem hc
  omega

theorem freeChunks_congr {live' : Finset ℕ} (h : ∀ c ∈ chunks b size, c ∈ live' ↔ c ∈ live) :
    freeChunks live' b size = freeChunks live b size := by
  refine List.filter_congr fun c hc => ?_
  simp [h c hc]

theorem freeChunks_eq_chunks (h : ∀ c ∈ chunks b size, c ∉ live) :
    freeChunks live b size = chunks b size := by
  refine List.filter_eq_self.mpr fun c hc => ?_
  simpa using h c hc

/-- All chunks free means none live. -/
theorem length_freeChunks_eq (h : (freeChunks live b size).length = cpoolDataSize / size) :
    ∀ c ∈ chunks b size, c ∉ live := by
  intro c hc
  have hall := List.length_filter_eq_length_iff.mp (h.trans length_chunks.symm)
  simpa using hall c hc

theorem length_freeChunks_le : (freeChunks live b size).length ≤ cpoolDataSize / size :=
  length_chunks (b := b) ▸ List.length_filter_le _ _

/-- A fresh page: threading only writes the chunks of the page. -/
theorem threadChunks_frame {n obj w : ℕ} {mem : ℕ → ℕ} (hsize : 0 < size)
    (hw : w < obj ∨ obj + n * size ≤ w) : threadChunks size n obj mem w = mem w := by
  induction n generalizing obj mem with
  | zero => rfl
  | succ n ih =>
    rw [Nat.succ_mul] at hw
    have hne : w ≠ obj := by
      rcases hw with hw | hw
      · omega
      · have := Nat.zero_le (n * size)
        omega
    rw [threadChunks, ih (by omega), Function.update_of_ne hne]

/-- Threading a fresh page leaves a list through all its chunks, in address order. -/
theorem threadChunks_chain {n obj : ℕ} {mem : ℕ → ℕ} (hsize : 0 < size) (hobj : 0 < obj) :
    Chain (fun c => ptr (threadChunks size n obj mem c)) (ptr (if 0 < n then obj else 0))
      ((List.range n).map fun j => obj + j * size) := by
  induction n generalizing obj mem with
  | zero => simp
  | succ n ih =>
    have hhead : threadChunks size (n + 1) obj mem obj = if 0 < n then obj + size else 0 := by
      rw [threadChunks, threadChunks_frame hsize (.inl (by omega)), Function.update_self]
    have htail : ((List.range n).map fun j => obj + (j + 1) * size) =
        (List.range n).map fun j => obj + size + j * size := by
      refine List.map_congr_left fun j _ => ?_
      rw [Nat.succ_mul]
      omega
    rw [List.range_succ_eq_map, List.map_cons, List.map_map, if_pos (Nat.succ_pos n)]
    refine ⟨by rw [Nat.zero_mul, Nat.add_zero, ptr_of_pos hobj], ?_⟩
    simp only [Nat.zero_mul, Nat.add_zero, hhead]
    exact htail ▸ ih (by omega)

end HekaOS.Kmalloc
