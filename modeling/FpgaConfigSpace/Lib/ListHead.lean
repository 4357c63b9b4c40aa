import Mathlib.Data.List.Chain
import Mathlib.Data.List.Nodup
import Mathlib.Logic.Function.Basic

/-! # Circular lists of embedded heads

    A doubly linked list that goes through a head and through a pair of pointers in
    each of its members, as in the kernel's `list.h`.  An entry is on the list or not;
    nothing but its own two pointers records which, and `listEmpty` of an entry asks
    them.

    `Ring` is the shape of an intact list.  Linking in and linking out are edits at
    one place: they change the pointers of two neighbours and of the entry itself. -/

namespace ListHead

variable {α : Type}

/-- A pointer to a list head: that of an entry, the one at the head of the list
    (`none`), or an address where no list head is. -/
inductive Ptr (α : Type) where
  | node (n : Option α)
  | invalid (addr : Nat)
deriving DecidableEq

/-- What `list_del` leaves in `next`. -/
def LIST_POISON1 : Ptr α := .invalid 0x00100100

/-- What `list_del` leaves in `prev`. -/
def LIST_POISON2 : Ptr α := .invalid 0x00200200

/-- The pointers of all list heads. -/
structure Links (α : Type) where
  next : Option α → Ptr α
  prev : Option α → Ptr α

section operations

variable [DecidableEq α]

/-- Writing through a pointer; at an invalid address the machine stops. -/
def Links.setNext (m : Links α) : Ptr α → Ptr α → Option (Links α)
  | .node n, p => some { m with next := Function.update m.next n p }
  | .invalid _, _ => none

/-- `p->prev = q`. -/
def Links.setPrev (m : Links α) : Ptr α → Ptr α → Option (Links α)
  | .node n, p => some { m with prev := Function.update m.prev n p }
  | .invalid _, _ => none

/-- `INIT_LIST_HEAD` of an entry. -/
def initListHead (m : Links α) (x : α) : Links α where
  next := Function.update m.next (some x) (.node (some x))
  prev := Function.update m.prev (some x) (.node (some x))

/-- `list_empty` of an entry. -/
def listEmpty (m : Links α) (x : α) : Bool := m.next (some x) = .node (some x)

/-- `list_add_tail`: in front of a list head. -/
def listAddTail (m : Links α) (x : α) (pos : Option α) : Option (Links α) := do
  let p := m.prev pos
  let m ← m.setPrev (.node pos) (.node (some x))
  let m ← m.setNext (.node (some x)) (.node pos)
  let m ← m.setPrev (.node (some x)) p
  m.setNext p (.node (some x))

/-- `list_del`. -/
def listDel (m : Links α) (x : α) : Option (Links α) := do
  let p := m.prev (some x)
  let n := m.next (some x)
  let m ← m.setPrev n p
  let m ← m.setNext p n
  let m ← m.setNext (.node (some x)) LIST_POISON1
  m.setPrev (.node (some x)) LIST_POISON2

end operations

/-- The entries that the next pointers lead to from the head. -/
inductive Listed (m : Links α) : α → Prop where
  | head {x : α} (h : m.next none = .node (some x)) : Listed m x
  | next {x y : α} (hx : Listed m x) (h : m.next (some x) = .node (some y)) : Listed m y

/-! ## Links of neighbours -/

/-- Two list heads point to each other. -/
structure Edge (m : Links α) (a b : Option α) : Prop where
  next : m.next a = .node b
  prev : m.prev b = .node a

/-- Neighbours stay linked where their pointers are not written. -/
theorem frame {m m' : Links α} {l : List (Option α)} (h : l.IsChain (Edge m))
    (hnext : ∀ a ∈ l.dropLast, m'.next a = m.next a) (hprev : ∀ b ∈ l.tail, m'.prev b = m.prev b) :
    l.IsChain (Edge m') := by
  induction h with
  | nil => exact .nil
  | singleton a => exact .singleton a
  | @cons_cons a b l hedge _ ih =>
      refine .cons_cons ⟨?_, ?_⟩ (ih ?_ ?_)
      · rw [hnext a List.mem_cons_self]
        exact hedge.next
      · rw [hprev b List.mem_cons_self]
        exact hedge.prev
      · intro c hc
        exact hnext c (List.mem_cons_of_mem a hc)
      · intro c hc
        exact hprev c (List.mem_cons_of_mem b hc)

/-- The head, the entries in their order, and the head again. -/
def around (xs : List α) : List (Option α) := none :: (xs.map some ++ [none])

/-- An intact list of exactly these entries. -/
structure Ring (m : Links α) (xs : List α) : Prop where
  nodup : xs.Nodup
  chain : (around xs).IsChain (Edge m)

/-- A head that points to itself is an empty ring. -/
theorem Ring.empty {m : Links α} (hnext : m.next none = .node none)
    (hprev : m.prev none = .node none) : Ring m [] :=
  ⟨List.nodup_nil, .cons_cons ⟨hnext, hprev⟩ (.singleton none)⟩

/-- A list does not depend on the pointers of what is not on it. -/
theorem Ring.frame {m m' : Links α} {xs : List α} (h : Ring m xs)
    (hnext : ∀ a, (∀ x, a = some x → x ∈ xs) → m'.next a = m.next a)
    (hprev : ∀ a, (∀ x, a = some x → x ∈ xs) → m'.prev a = m.prev a) : Ring m' xs := by
  have hmem : ∀ a ∈ around xs, ∀ x, a = some x → x ∈ xs := by
    rintro a ha x rfl
    simpa [around] using ha
  refine ⟨h.nodup, ListHead.frame h.chain ?_ ?_⟩
  · intro a ha
    exact hnext a (hmem a (List.dropLast_subset _ ha))
  · intro b hb
    exact hprev b (hmem b (List.mem_of_mem_tail hb))

/-! ## A place in the list -/

/-- Up to a place: the last list head before it is the entry's before it, or the head. -/
theorem left_eq (as : List α) : ∃ before, none :: as.map some = before ++ [as.getLast?] := by
  rcases List.eq_nil_or_concat as with rfl | ⟨as, x, rfl⟩
  · exact ⟨[], rfl⟩
  · exact ⟨none :: as.map some, by simp⟩

/-- From a place on. -/
theorem right_eq (bs : List α) : ∃ behind, bs.map some ++ [none] = bs.head? :: behind := by
  cases bs with
  | nil => exact ⟨[], rfl⟩
  | cons x bs => exact ⟨bs.map some ++ [none], rfl⟩

/-- A list is intact if it is on both sides of a place, and across it. -/
theorem chain_around_append {m : Links α} {as bs : List α} :
    (around (as ++ bs)).IsChain (Edge m) ↔ (none :: as.map some).IsChain (Edge m) ∧
      Edge m as.getLast? bs.head? ∧ (bs.map some ++ [none]).IsChain (Edge m) := by
  obtain ⟨before, hbefore⟩ := left_eq as
  obtain ⟨behind, hbehind⟩ := right_eq bs
  have haround : around (as ++ bs) = before ++ as.getLast? :: bs.head? :: behind := by
    calc around (as ++ bs) = none :: as.map some ++ (bs.map some ++ [none]) := by simp [around]
      _ = before ++ as.getLast? :: bs.head? :: behind := by rw [hbefore, hbehind]; simp
  rw [haround, hbefore, hbehind]
  exact List.isChain_append_cons_cons

/-- The edges behind an entry. -/
theorem chain_right_cons {m : Links α} {x : α} {bs : List α} :
    ((x :: bs).map some ++ [none]).IsChain (Edge m) ↔
      Edge m (some x) bs.head? ∧ (bs.map some ++ [none]).IsChain (Edge m) := by
  obtain ⟨behind, hbehind⟩ := right_eq bs
  rw [List.map_cons, List.cons_append, hbehind]
  exact List.isChain_cons_cons

/-- The head points to the first entry. -/
theorem Ring.next_head {m : Links α} {xs : List α} (h : Ring m xs) :
    m.next none = .node xs.head? :=
  (@chain_around_append _ m [] xs).mp h.chain |>.2.1.next

/-- Every entry points to what is behind it and before it. -/
theorem Ring.next_entry {m : Links α} {as bs : List α} {x : α} (h : Ring m (as ++ x :: bs)) :
    m.next (some x) = .node bs.head? :=
  (chain_right_cons.mp (chain_around_append.mp h.chain).2.2).1.next

/-- What is in front of an entry. -/
theorem Ring.prev_entry {m : Links α} {as bs : List α} {x : α} (h : Ring m (as ++ x :: bs)) :
    m.prev (some x) = .node as.getLast? :=
  (chain_around_append.mp h.chain).2.1.prev

/-- The side before a place does not depend on the pointer across it. -/
theorem frame_left {m m' : Links α} {as : List α} (hnodup : as.Nodup)
    (h : (none :: as.map some).IsChain (Edge m))
    (hnext : ∀ a, a ≠ as.getLast? → (∀ x, a = some x → x ∈ as) → m'.next a = m.next a)
    (hprev : ∀ x ∈ as, m'.prev (some x) = m.prev (some x)) :
    (none :: as.map some).IsChain (Edge m') := by
  obtain ⟨before, hbefore⟩ := left_eq as
  have hnodup' : (none :: as.map some).Nodup := by
    refine List.nodup_cons.mpr ⟨by simp, hnodup.map fun _ _ h => Option.some.inj h⟩
  rw [hbefore] at hnodup'
  refine frame h ?_ ?_
  · intro a ha
    rw [hbefore, List.dropLast_concat] at ha
    refine hnext a ?_ ?_
    · rintro rfl
      exact (List.nodup_append'.mp hnodup').2.2 ha List.mem_cons_self
    · rintro x rfl
      have hx : some x ∈ none :: as.map some := hbefore ▸ List.mem_append_left _ ha
      simpa using hx
  · intro b hb
    obtain ⟨x, hx, rfl⟩ := List.mem_map.mp hb
    exact hprev x hx

/-- Nor does the side behind it. -/
theorem frame_right {m m' : Links α} {bs : List α} (hnodup : bs.Nodup)
    (h : (bs.map some ++ [none]).IsChain (Edge m))
    (hnext : ∀ x ∈ bs, m'.next (some x) = m.next (some x))
    (hprev : ∀ b, b ≠ bs.head? → (∀ x, b = some x → x ∈ bs) → m'.prev b = m.prev b) :
    (bs.map some ++ [none]).IsChain (Edge m') := by
  obtain ⟨behind, hbehind⟩ := right_eq bs
  have hnodup' : (bs.map some ++ [none]).Nodup := by
    rw [List.nodup_append']
    exact ⟨hnodup.map fun _ _ h => Option.some.inj h, List.nodup_singleton _, by simp⟩
  rw [hbehind] at hnodup'
  refine frame h ?_ ?_
  · intro a ha
    rw [List.dropLast_concat] at ha
    obtain ⟨x, hx, rfl⟩ := List.mem_map.mp ha
    exact hnext x hx
  · intro b hb
    rw [hbehind, List.tail_cons] at hb
    refine hprev b ?_ ?_
    · rintro rfl
      exact (List.nodup_cons.mp hnodup').1 hb
    · rintro x rfl
      have hx : some x ∈ bs.map some ++ [none] := hbehind ▸ List.mem_cons_of_mem _ hb
      simpa using hx

/-! ## Linking in and linking out -/

section edit

variable {m m' : Links α} {as bs : List α} {x : α}

theorem getLast?_ne (hx : x ∉ as) : as.getLast? ≠ some x :=
  fun h => hx (List.mem_of_getLast? h)

theorem head?_ne (hx : x ∉ bs) : bs.head? ≠ some x :=
  fun h => hx (List.mem_of_mem_head? h)

variable [DecidableEq α]

/-- What `list_add_tail` writes. -/
theorem Ring.listAddTail_eq (h : Ring m (as ++ bs)) :
    ListHead.listAddTail m x bs.head? = some
      { next := Function.update (Function.update m.next (some x) (.node bs.head?))
          as.getLast? (.node (some x))
        prev := Function.update (Function.update m.prev bs.head? (.node (some x)))
          (some x) (.node as.getLast?) } := by
  rw [ListHead.listAddTail, (chain_around_append.mp h.chain).2.1.prev]
  rfl

/-- Linking an entry in between two neighbours. -/
theorem Ring.listAddTail (h : Ring m (as ++ bs)) (hx : x ∉ as ++ bs) :
    ∃ m', ListHead.listAddTail m x bs.head? = some m' ∧ Ring m' (as ++ x :: bs) ∧
      ∀ y, y ≠ x → y ∉ as ++ bs → m'.next (some y) = m.next (some y) := by
  obtain ⟨hxas, hxbs⟩ : x ∉ as ∧ x ∉ bs := not_or.mp fun h => hx (List.mem_append.mpr h)
  obtain ⟨has, hbs, hdisjoint⟩ := List.nodup_append'.mp h.nodup
  obtain ⟨hleft, -, hright⟩ := chain_around_append.mp h.chain
  refine ⟨_, h.listAddTail_eq, ⟨?_, ?_⟩, ?_⟩
  · exact List.perm_middle.nodup_iff.mpr (List.nodup_cons.mpr ⟨hx, h.nodup⟩)
  · refine chain_around_append.mpr ⟨?_, ⟨?_, ?_⟩, chain_right_cons.mpr ⟨⟨?_, ?_⟩, ?_⟩⟩
    · refine frame_left has hleft ?_ ?_
      · intro a ha hmem
        refine (Function.update_of_ne ha _ _).trans (Function.update_of_ne ?_ _ _)
        rintro rfl
        exact hxas (hmem x rfl)
      · intro y hy
        refine (Function.update_of_ne ?_ _ _).trans (Function.update_of_ne ?_ _ _)
        · rintro ⟨⟩
          exact hxas hy
        · exact (head?_ne fun hy' => hdisjoint hy hy').symm
    · exact Function.update_self ..
    · exact Function.update_self ..
    · exact (Function.update_of_ne (getLast?_ne hxas).symm _ _).trans (Function.update_self ..)
    · exact (Function.update_of_ne (head?_ne hxbs) _ _).trans (Function.update_self ..)
    · refine frame_right hbs hright ?_ ?_
      · intro y hy
        refine (Function.update_of_ne ?_ _ _).trans (Function.update_of_ne ?_ _ _)
        · exact (getLast?_ne fun hy' => hdisjoint hy' hy).symm
        · rintro ⟨⟩
          exact hxbs hy
      · intro b hb hmem
        refine (Function.update_of_ne ?_ _ _).trans (Function.update_of_ne hb _ _)
        rintro rfl
        exact hxbs (hmem x rfl)
  · intro y hy hmem
    refine (Function.update_of_ne ?_ _ _).trans (Function.update_of_ne ?_ _ _)
    · exact (getLast?_ne fun hy' => hmem (List.mem_append_left bs hy')).symm
    · exact fun hy' => hy (Option.some.inj hy')

/-- What `list_del` writes. -/
theorem Ring.listDel_eq (h : Ring m (as ++ x :: bs)) :
    ListHead.listDel m x = some
      { next := Function.update (Function.update m.next as.getLast? (.node bs.head?))
          (some x) LIST_POISON1
        prev := Function.update (Function.update m.prev bs.head? (.node as.getLast?))
          (some x) LIST_POISON2 } := by
  rw [ListHead.listDel, h.next_entry, h.prev_entry]
  rfl

/-- Linking an entry out. -/
theorem Ring.listDel (h : Ring m (as ++ x :: bs)) :
    ∃ m', ListHead.listDel m x = some m' ∧ Ring m' (as ++ bs) ∧
      m'.next (some x) = LIST_POISON1 ∧ m'.prev (some x) = LIST_POISON2 ∧
      ∀ y, y ∉ as ++ x :: bs → m'.next (some y) = m.next (some y) := by
  obtain ⟨hx, hnodup⟩ := List.nodup_cons.mp (List.perm_middle.nodup_iff.mp h.nodup)
  obtain ⟨hxas, hxbs⟩ : x ∉ as ∧ x ∉ bs := not_or.mp fun h => hx (List.mem_append.mpr h)
  obtain ⟨has, hbs, hdisjoint⟩ := List.nodup_append'.mp hnodup
  obtain ⟨hleft, -, hright⟩ := chain_around_append.mp h.chain
  refine ⟨_, h.listDel_eq, ⟨hnodup, ?_⟩, Function.update_self .., Function.update_self .., ?_⟩
  · refine chain_around_append.mpr ⟨?_, ⟨?_, ?_⟩, ?_⟩
    · refine frame_left has hleft ?_ ?_
      · intro a ha hmem
        refine (Function.update_of_ne ?_ _ _).trans (Function.update_of_ne ha _ _)
        rintro rfl
        exact hxas (hmem x rfl)
      · intro y hy
        refine (Function.update_of_ne ?_ _ _).trans (Function.update_of_ne ?_ _ _)
        · rintro ⟨⟩
          exact hxas hy
        · exact (head?_ne fun hy' => hdisjoint hy hy').symm
    · exact (Function.update_of_ne (getLast?_ne hxas) _ _).trans (Function.update_self ..)
    · exact (Function.update_of_ne (head?_ne hxbs) _ _).trans (Function.update_self ..)
    · refine frame_right hbs (chain_right_cons.mp hright).2 ?_ ?_
      · intro y hy
        refine (Function.update_of_ne ?_ _ _).trans (Function.update_of_ne ?_ _ _)
        · rintro ⟨⟩
          exact hxbs hy
        · exact (getLast?_ne fun hy' => hdisjoint hy' hy).symm
      · intro b hb hmem
        refine (Function.update_of_ne ?_ _ _).trans (Function.update_of_ne hb _ _)
        rintro rfl
        exact hxbs (hmem x rfl)
  · intro y hy
    refine (Function.update_of_ne ?_ _ _).trans (Function.update_of_ne ?_ _ _)
    · rintro ⟨⟩
      exact hy (List.mem_append_right as List.mem_cons_self)
    · exact (getLast?_ne fun hy' => hy (List.mem_append_left _ hy')).symm

/-- An entry whose pointers were overwritten cannot be linked out again. -/
theorem listDel_poisoned (h : m.next (some x) = LIST_POISON1) : ListHead.listDel m x = none := by
  rw [ListHead.listDel, h]
  rfl

/-- Setting up an entry that is not on the list does not touch the list. -/
theorem Ring.initListHead {xs : List α} (h : Ring m xs) (hx : x ∉ xs) :
    Ring (ListHead.initListHead m x) xs := by
  have hne : ∀ a, (∀ y, a = some y → y ∈ xs) → a ≠ some x := by
    rintro a ha rfl
    exact hx (ha x rfl)
  refine h.frame ?_ ?_
  · exact fun a ha => Function.update_of_ne (hne a ha) _ _
  · exact fun a ha => Function.update_of_ne (hne a ha) _ _

/-- An entry that was initialised is in no list. -/
theorem listEmpty_initListHead (m : Links α) (x : α) :
    listEmpty (ListHead.initListHead m x) x = true :=
  decide_eq_true (Function.update_self ..)

end edit

/-! ## Who is on the list -/

/-- What an entry's own pointer says while it is on the list. -/
theorem Ring.listEmpty_of_mem [DecidableEq α] {m : Links α} {xs : List α} (h : Ring m xs) {x : α}
    (hx : x ∈ xs) : listEmpty m x = false := by
  obtain ⟨as, bs, rfl⟩ := List.append_of_mem hx
  refine decide_eq_false ?_
  rw [h.next_entry]
  intro heq
  have hhead : bs.head? = some x := Ptr.node.inj heq
  have hnot := (List.nodup_cons.mp (List.perm_middle.nodup_iff.mp h.nodup)).1
  exact hnot (List.mem_append_right as (List.mem_of_mem_head? hhead))

/-- The next pointers lead to the entries, and to nothing else. -/
theorem Ring.listed_iff {m : Links α} {xs : List α} (h : Ring m xs) {x : α} :
    Listed m x ↔ x ∈ xs := by
  constructor
  · intro hx
    induction hx with
    | head hnext =>
        rw [h.next_head] at hnext
        exact List.mem_of_mem_head? (Ptr.node.inj hnext)
    | @next x y _ hnext ih =>
        obtain ⟨as, bs, rfl⟩ := List.append_of_mem ih
        rw [h.next_entry] at hnext
        have hy : y ∈ bs := List.mem_of_mem_head? (Ptr.node.inj hnext)
        exact List.mem_append_right as (List.mem_cons_of_mem x hy)
  · intro hx
    obtain ⟨as, bs, rfl⟩ := List.append_of_mem hx
    -- from the head on, one entry after the other
    induction as using List.reverseRecOn generalizing x bs with
    | nil => exact .head h.next_head
    | append_singleton as y ih =>
        rw [List.append_assoc] at h
        have hy : Listed m y := ih _ h (List.mem_append_right as List.mem_cons_self)
        exact .next hy h.next_entry

end ListHead
