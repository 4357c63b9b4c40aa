import Mathlib.Data.List.Basic

/-! # A file and a position in it

    A read names a place in the file or goes on from the position; it delivers as many
    cells as are asked for and there, and moves the position behind them.  A read that
    delivers nothing leaves the position alone.  Reads that go on one after the other
    deliver every cell behind the position once, in order. -/

namespace FileCursor

variable {α : Type}

/-- A read: the place, unless it goes on from the position, and the number of cells. -/
structure Request where
  place : Option Nat
  count : Nat

/-- Where a read starts. -/
def Request.start (r : Request) (cursor : Nat) : Nat := r.place.getD cursor

/-- The read goes on from the position and asks for something. -/
def Request.GoesOn (r : Request) : Prop := r.place = none ∧ 0 < r.count

/-- The place is not behind the end of the file. -/
def Request.Within (r : Request) (len : Nat) : Prop := ∀ p, r.place = some p → p ≤ len

/-- What a read delivers. -/
def delivered (file : List α) (cursor : Nat) (r : Request) : List α :=
  (file.drop (r.start cursor)).take r.count

/-- The position behind a read. -/
def next (file : List α) (cursor : Nat) (r : Request) : Nat :=
  if delivered file cursor r = [] then cursor
  else r.start cursor + (delivered file cursor r).length

/-- The position behind a number of reads, and what each of them delivers. -/
def run (file : List α) : Nat → List Request → Nat × List (List α)
  | cursor, [] => (cursor, [])
  | cursor, r :: rs =>
      ((run file (next file cursor r) rs).1,
        delivered file cursor r :: (run file (next file cursor r) rs).2)

variable {file : List α} {cursor : Nat} {r : Request} {rs : List Request}

/-- Nothing is asked for. -/
@[simp] theorem run_nil (file : List α) (cursor : Nat) : run file cursor [] = (cursor, []) := rfl

/-- A request, and the others behind it. -/
theorem run_cons (file : List α) (cursor : Nat) (r : Request) (rs : List Request) :
    run file cursor (r :: rs) =
      ((run file (next file cursor r) rs).1,
        delivered file cursor r :: (run file (next file cursor r) rs).2) := rfl

/-- A request delivers what it asks for, as far as there is a file. -/
theorem delivered_length (file : List α) (cursor : Nat) (r : Request) :
    (delivered file cursor r).length = min r.count (file.length - r.start cursor) := by
  simp [delivered]

/-- A request within the file starts within it. -/
theorem start_le (hc : cursor ≤ file.length) (hr : r.Within file.length) :
    r.start cursor ≤ file.length := by
  rw [Request.start]
  cases hp : r.place with
  | none => exact hc
  | some p => exact hr p hp

/-- One read leaves the position inside the file. -/
theorem next_le (hc : cursor ≤ file.length) (hr : r.Within file.length) :
    next file cursor r ≤ file.length := by
  have hstart := start_le hc hr
  have hlen := delivered_length file cursor r
  rw [next]
  split
  · exact hc
  · omega

/-! ## Reads that go on -/

/-- What a read delivers and what is left behind it are what was left before. -/
theorem delivered_append (hr : r.place = none) :
    delivered file cursor r ++ file.drop (next file cursor r) = file.drop cursor := by
  have hstart : r.start cursor = cursor := by simp [Request.start, hr]
  rw [next]
  by_cases hempty : delivered file cursor r = []
  · rw [if_pos hempty, hempty, List.nil_append]
  · have hlen := delivered_length file cursor r
    have hrest : (file.drop cursor).drop (min r.count (file.length - cursor)) =
        (file.drop cursor).drop r.count := by
      by_cases hle : r.count ≤ file.length - cursor
      · rw [Nat.min_eq_left hle]
      · rw [Nat.min_eq_right (by omega), List.drop_eq_nil_of_le (by simp),
          List.drop_eq_nil_of_le (by simp; omega)]
    rw [hstart] at hlen
    rw [if_neg hempty, hstart, hlen, ← List.drop_drop, hrest, delivered, hstart]
    exact List.take_append_drop r.count (file.drop cursor)

/-- Nothing is delivered twice, and nothing is left out. -/
theorem run_append (hrs : ∀ r ∈ rs, r.place = none) :
    (run file cursor rs).2.flatten ++ file.drop (run file cursor rs).1 = file.drop cursor := by
  induction rs generalizing cursor with
  | nil => rfl
  | cons r rs ih =>
      have hrest : (run file (next file cursor r) rs).2.flatten ++
          file.drop (run file (next file cursor r) rs).1 = file.drop (next file cursor r) :=
        ih fun q hq => hrs q (List.mem_cons_of_mem r hq)
      rw [run_cons, List.flatten_cons, List.append_assoc, hrest]
      exact delivered_append (hrs r List.mem_cons_self)

/-- A read that goes on moves the position, up to the end. -/
theorem next_goesOn (hc : cursor ≤ file.length) (hr : r.GoesOn) :
    next file cursor r = min (cursor + r.count) file.length := by
  have hstart : r.start cursor = cursor := by simp [Request.start, hr.1]
  have hlen := delivered_length file cursor r
  rw [hstart] at hlen
  have hcount := hr.2
  rw [next, hstart]
  by_cases hempty : delivered file cursor r = []
  · rw [hempty, List.length_nil] at hlen
    rw [if_pos hempty]
    omega
  · rw [if_neg hempty, hlen]
    omega

/-- One read for every cell is enough to reach the end. -/
theorem run_end (hc : cursor ≤ file.length) (hrs : ∀ r ∈ rs, r.GoesOn)
    (henough : file.length - cursor ≤ rs.length) : (run file cursor rs).1 = file.length := by
  induction rs generalizing cursor with
  | nil =>
      have hend : file.length - cursor ≤ 0 := henough
      show cursor = file.length
      omega
  | cons r rs ih =>
      have hr : r.GoesOn := hrs r List.mem_cons_self
      have hnext := next_goesOn hc hr
      have hcount := hr.2
      have henough : file.length - cursor ≤ rs.length + 1 := henough
      exact ih (by omega) (fun q hq => hrs q (List.mem_cons_of_mem r hq)) (by omega)

/-- The read behind the one that reached the end delivers nothing. -/
theorem run_last (hc : cursor ≤ file.length) (hrs : ∀ r ∈ rs, r.GoesOn)
    (henough : file.length - cursor < rs.length) :
    (run file cursor rs).2.getLast? = some [] := by
  induction rs generalizing cursor with
  | nil => exact absurd henough (Nat.not_lt_zero _)
  | cons r rs ih =>
      have hr : r.GoesOn := hrs r List.mem_cons_self
      have hnext := next_goesOn hc hr
      have hcount := hr.2
      have henough : file.length - cursor < rs.length + 1 := henough
      rw [run_cons]
      cases rs with
      | nil =>
          have hend : cursor = file.length := by simp only [List.length_nil] at henough; omega
          have hnone : delivered file cursor r = [] := by
            refine List.eq_nil_of_length_eq_zero ?_
            rw [delivered_length, Request.start, hr.1, Option.getD_none]
            omega
          simp [hnone]
      | cons q rs =>
          rw [run_cons, List.getLast?_cons_cons]
          refine ih (by omega) (fun q' hq => hrs q' (List.mem_cons_of_mem r hq)) ?_
          rw [hnext]
          simp only [List.length_cons] at henough ⊢
          omega

end FileCursor
