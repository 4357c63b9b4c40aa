import Mathlib.Data.List.Basic

/-! # Windows of a cyclic buffer

    A memory is a function from cell indices to values.  `store` writes a block
    of consecutive cells; `window n mem pos len` reads `len` cells from absolute
    position `pos` of a buffer of `n` cells, wrapping at its end.  Positions are
    never reduced modulo `n`, so two windows of one buffer are compared by plain
    arithmetic: `pos` is how many symbols ever passed that point. -/

namespace CyclicBuffer

variable {α : Type}

/-- Write a block of consecutive cells, without wrapping. -/
def store (mem : Nat → α) (start : Nat) (block : List α) : Nat → α :=
  fun x => if h : start ≤ x ∧ x - start < block.length then block[x - start] else mem x

/-- Read `len` consecutive cells, without wrapping. -/
def load (mem : Nat → α) (start len : Nat) : List α :=
  (List.range len).map (fun k => mem (start + k))

/-- The `len` cells from absolute position `pos` of a buffer of `n` cells. -/
def window (n : Nat) (mem : Nat → α) (pos len : Nat) : List α :=
  (List.range len).map (fun k => mem ((pos + k) % n))

@[simp] theorem window_length (n : Nat) (mem : Nat → α) (pos len : Nat) :
    (window n mem pos len).length = len := by
  simp [window]

/-- Element `k` of a window. -/
theorem window_getElem (n : Nat) (mem : Nat → α) (pos len k : Nat)
    (hk : k < (window n mem pos len).length) :
    (window n mem pos len)[k] = mem ((pos + k) % n) := by
  simp [window]

/-- A window splits at any inner position. -/
theorem window_add (n : Nat) (mem : Nat → α) (pos a b : Nat) :
    window n mem pos (a + b) = window n mem pos a ++ window n mem (pos + a) b := by
  unfold window
  rw [List.range_add, List.map_append, List.map_map]
  congr 1
  refine List.map_congr_left ?_
  intro k _
  simp only [Function.comp, Nat.add_assoc]

/-- A window begins with its first cell. -/
theorem window_succ (n : Nat) (mem : Nat → α) (pos len : Nat) :
    window n mem pos (len + 1) = mem (pos % n) :: window n mem (pos + 1) len := by
  rw [Nat.add_comm len 1, window_add]
  rfl

/-- Windows only see the cells they cover. -/
theorem window_congr {n : Nat} {mem mem' : Nat → α} {pos len : Nat}
    (h : ∀ k, k < len → mem ((pos + k) % n) = mem' ((pos + k) % n)) :
    window n mem pos len = window n mem' pos len := by
  refine List.map_congr_left ?_
  intro k hk
  exact h k (List.mem_range.mp hk)

/-- The front of a window is a window, and so is what is behind it. -/
theorem window_take (n : Nat) (mem : Nat → α) (pos : Nat) {a len : Nat} (h : a ≤ len) :
    (window n mem pos len).take a = window n mem pos a := by
  obtain ⟨b, rfl⟩ : ∃ b, len = a + b := ⟨len - a, by omega⟩
  rw [window_add, List.take_append_of_le_length (by simp), List.take_of_length_le (by simp)]

theorem window_drop (n : Nat) (mem : Nat → α) (pos : Nat) {a len : Nat} (h : a ≤ len) :
    (window n mem pos len).drop a = window n mem (pos + a) (len - a) := by
  obtain ⟨b, rfl⟩ : ∃ b, len = a + b := ⟨len - a, by omega⟩
  rw [window_add, Nat.add_sub_cancel_left, List.drop_append_of_le_length (by simp),
    List.drop_eq_nil_of_le (by simp), List.nil_append]

/-- A window known as a concatenation is known piece by piece. -/
theorem window_split {n : Nat} {mem : Nat → α} {pos a b : Nat} {xs ys : List α}
    (h : window n mem pos (a + b) = xs ++ ys) (ha : xs.length = a) :
    window n mem pos a = xs ∧ window n mem (pos + a) b = ys := by
  rw [window_add] at h
  exact List.append_inj h (by rw [window_length, ha])

/-- Two positions less than a buffer length apart are different cells. -/
theorem cell_ne {n p q : Nat} (hpq : p < q) (hq : q < p + n) : p % n ≠ q % n := by
  intro h
  have hd : n ∣ q - p := Nat.dvd_of_mod_eq_zero (Nat.sub_mod_eq_zero_of_mod_eq h.symm)
  have := Nat.le_of_dvd (by omega) hd
  omega

@[simp] theorem load_length (mem : Nat → α) (start len : Nat) :
    (load mem start len).length = len := by
  simp [load]

/-- A range begins with its first cell. -/
theorem load_succ (mem : Nat → α) (start len : Nat) :
    load mem start (len + 1) = mem start :: load mem (start + 1) len := by
  rw [load, List.range_succ_eq_map, List.map_cons, List.map_map, Nat.add_zero]
  refine congrArg (mem start :: ·) (List.map_congr_left ?_)
  intro k _
  show mem (start + (k + 1)) = mem (start + 1 + k)
  rw [Nat.add_comm k 1, Nat.add_assoc]

/-- A range is a range and the one behind it. -/
theorem load_add (mem : Nat → α) (start m len : Nat) :
    load mem start (m + len) = load mem start m ++ load mem (start + m) len := by
  induction m generalizing start with
  | zero => rw [Nat.zero_add]; rfl
  | succ m ih =>
      rw [Nat.add_right_comm, load_succ, load_succ, ih (start + 1), List.cons_append,
        Nat.add_assoc, Nat.add_comm 1 m]

/-- A range does not depend on the rest of the memory. -/
theorem load_congr {mem mem' : Nat → α} {start len : Nat}
    (h : ∀ k, k < len → mem' (start + k) = mem (start + k)) :
    load mem' start len = load mem start len := by
  refine List.map_congr_left ?_
  intro k hk
  exact h k (List.mem_range.mp hk)

/-- An element of a range at the start of the memory. -/
theorem load_getD (mem : Nat → α) {len k : Nat} (hk : k < len) (d : α) :
    (load mem 0 len).getD k d = mem k := by
  simp [load, hk]

/-- Up to the end of the buffer a window is a plain read. -/
theorem load_eq_window (n : Nat) (mem : Nat → α) (pos len : Nat) (hfit : pos % n + len ≤ n) :
    load mem (pos % n) len = window n mem pos len := by
  refine List.map_congr_left ?_
  intro k hk
  have hk' : k < len := List.mem_range.mp hk
  rw [← Nat.mod_add_mod, Nat.mod_eq_of_lt (show pos % n + k < n by omega)]

/-- A window that wraps is read in two pieces. -/
theorem load_append_load (n : Nat) (mem : Nat → α) (pos len : Nat) (hn : 0 < n)
    (hwrap : n - pos % n ≤ len) (hlen : len ≤ n) :
    load mem (pos % n) (n - pos % n) ++ load mem 0 (len - (n - pos % n)) =
      window n mem pos len := by
  have hpos : pos % n < n := Nat.mod_lt pos hn
  have hzero : (pos + (n - pos % n)) % n = 0 := by
    rw [← Nat.mod_add_mod, show pos % n + (n - pos % n) = n by omega, Nat.mod_self]
  have hsplit : len = (n - pos % n) + (len - (n - pos % n)) := by omega
  conv => rhs; rw [hsplit, window_add]
  rw [load_eq_window n mem pos _ (by omega),
    ← load_eq_window n mem (pos + (n - pos % n)) _ (by omega), hzero]

/-- A block is read back from where it was stored. -/
theorem store_inside (mem : Nat → α) (start k : Nat) (block : List α) (hk : k < block.length) :
    store mem start block (start + k) = block[k] := by
  have h : start ≤ start + k ∧ start + k - start < block.length := by omega
  simp only [store, h]
  simp

/-- Cells outside the block keep their value. -/
theorem store_outside (mem : Nat → α) {start x : Nat} {block : List α}
    (hx : x < start ∨ start + block.length ≤ x) : store mem start block x = mem x := by
  unfold store
  rw [dif_neg]
  omega

/-- Storing behind what is held appends to it. -/
theorem load_store_append (mem : Nat → α) (fill : Nat) (block : List α) :
    load (store mem fill block) 0 (fill + block.length) = load mem 0 fill ++ block := by
  rw [load_add]
  congr 1
  · refine load_congr ?_
    intro k hk
    exact store_outside mem (by omega)
  · apply List.ext_getElem
    · exact load_length _ _ _
    · intro k _ hk
      simp only [load, List.getElem_map, List.getElem_range, Nat.zero_add]
      exact store_inside mem fill k block hk

/-- A block stored at a position that leaves room for it before the end of the
    buffer is the window there. -/
theorem window_store (n : Nat) (mem : Nat → α) (pos : Nat) (block : List α)
    (hfit : pos % n + block.length ≤ n) :
    window n (store mem (pos % n) block) pos block.length = block := by
  apply List.ext_getElem
  · simp
  intro k hk hk'
  rw [window_getElem]
  have hcell : (pos + k) % n = pos % n + k := by
    rw [← Nat.mod_add_mod]
    exact Nat.mod_eq_of_lt (by omega)
  rw [hcell]
  exact store_inside mem (pos % n) k block hk'

/-! ## Frames: what a write leaves alone -/

/-- The two memories agree on the cells of the buffer outside the `len` cells
    from position `pos`. -/
def SameOutside (n : Nat) (mem mem' : Nat → α) (pos len : Nat) : Prop :=
  ∀ x, x < n → (∀ k, k < len → x ≠ (pos + k) % n) → mem' x = mem x

theorem SameOutside.refl (n : Nat) (mem : Nat → α) (pos len : Nat) :
    SameOutside n mem mem pos len := fun _ _ _ => rfl

/-- Two writes one behind the other. -/
theorem SameOutside.trans {n : Nat} {mem mem' mem'' : Nat → α} {pos a b : Nat}
    (h1 : SameOutside n mem mem' pos a) (h2 : SameOutside n mem' mem'' (pos + a) b) :
    SameOutside n mem mem'' pos (a + b) := by
  intro x hxn hx
  rw [h2 x hxn ?_, h1 x hxn ?_]
  · intro k hk
    exact hx k (by omega)
  · intro k hk
    have := hx (a + k) (by omega)
    rwa [← Nat.add_assoc] at this

/-- A window in front of the region is not touched. -/
theorem SameOutside.window_before {n : Nat} {mem mem' : Nat → α} {pos len : Nat}
    (h : SameOutside n mem mem' pos len) {base l : Nat} (hend : base + l ≤ pos)
    (hroom : pos + len ≤ base + n) : window n mem' base l = window n mem base l := by
  refine window_congr ?_
  intro k hk
  refine h _ (Nat.mod_lt _ (by omega)) ?_
  intro j hj
  exact cell_ne (by omega) (by omega)

/-- A window behind the region is not touched. -/
theorem SameOutside.window_after {n : Nat} {mem mem' : Nat → α} {pos len : Nat}
    (h : SameOutside n mem mem' pos len) {base l : Nat} (hend : pos + len ≤ base)
    (hroom : base + l ≤ pos + n) : window n mem' base l = window n mem base l := by
  by_cases hn : n = 0
  · obtain rfl : l = 0 := by omega
    rfl
  refine window_congr ?_
  intro k hk
  refine h _ (Nat.mod_lt _ (by omega)) ?_
  intro j hj heq
  exact cell_ne (by omega) (by omega) heq.symm

/-- A block that fits before the end of the buffer changes only its own cells. -/
theorem sameOutside_store (n : Nat) (mem : Nat → α) (pos : Nat) (block : List α)
    (hfit : pos % n + block.length ≤ n) :
    SameOutside n mem (store mem (pos % n) block) pos block.length := by
  intro x hxn hx
  refine store_outside mem ?_
  by_contra hin
  refine hx (x - pos % n) (by omega) ?_
  rw [← Nat.mod_add_mod, Nat.mod_eq_of_lt (by omega)]
  omega

/-- Store a block at a position, going on at cell 0 where the buffer ends. -/
def storeCyclic (n : Nat) (mem : Nat → α) (pos : Nat) (block : List α) : Nat → α :=
  if n - pos % n < block.length then
    store (store mem (pos % n) (block.take (n - pos % n))) 0 (block.drop (n - pos % n))
  else store mem (pos % n) block

/-- Only the cell of the position matters. -/
theorem storeCyclic_congr (n : Nat) (mem : Nat → α) {pos pos' : Nat} (block : List α)
    (h : pos % n = pos' % n) : storeCyclic n mem pos block = storeCyclic n mem pos' block := by
  rw [storeCyclic, storeCyclic, h]

/-- A block no longer than the buffer becomes the window at its position, and no
    other cell changes. -/
theorem storeCyclic_spec (n : Nat) (mem : Nat → α) (pos : Nat) (block : List α) (hn : 0 < n)
    (hlen : block.length ≤ n) :
    window n (storeCyclic n mem pos block) pos block.length = block ∧
    SameOutside n mem (storeCyclic n mem pos block) pos block.length := by
  have hpos : pos % n < n := Nat.mod_lt pos hn
  unfold storeCyclic
  by_cases hwrap : n - pos % n < block.length
  · rw [if_pos hwrap]
    obtain ⟨a, ha⟩ : ∃ a, n - pos % n = a := ⟨_, rfl⟩
    rw [ha] at hwrap ⊢
    have hzero : (pos + a) % n = 0 := by
      rw [← Nat.mod_add_mod, show pos % n + a = n by omega, Nat.mod_self]
    have htake : (block.take a).length = a := by rw [List.length_take]; omega
    have hdrop : (block.drop a).length = block.length - a := List.length_drop
    have h1 := sameOutside_store n mem pos (block.take a) (by omega)
    have w1 := window_store n mem pos (block.take a) (by omega)
    have hfit : (pos + a) % n + (block.drop a).length ≤ n := by omega
    have h2 := sameOutside_store n (store mem (pos % n) (block.take a)) (pos + a) (block.drop a)
      hfit
    have w2 := window_store n (store mem (pos % n) (block.take a)) (pos + a) (block.drop a) hfit
    rw [htake] at h1 w1
    rw [hzero, hdrop] at h2 w2
    have hsum : block.length = a + (block.length - a) := by omega
    constructor
    · rw [hsum, window_add, w2, h2.window_before (Nat.le_refl _) (by omega), w1,
        List.take_append_drop]
    · have := h1.trans h2
      rwa [← hsum] at this
  · rw [if_neg hwrap]
    exact ⟨window_store n mem pos block (by omega), sameOutside_store n mem pos block (by omega)⟩

end CyclicBuffer
