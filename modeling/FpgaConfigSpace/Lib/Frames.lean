import Mathlib.Data.List.Basic

/-! # Incremental readers of framed streams

    A stream of symbols is cut into FRAMES by a reader that looks at the symbols
    it holds and either finds a complete frame at their head or waits for more.
    `drain` consumes every complete frame and keeps the incomplete tail.

    The one fact everything rests on is `drain_append`: draining a concatenation
    is draining the first part, then draining what it left behind followed by the
    second part.  So a reader that keeps its tail between calls computes a
    function of the whole stream, however the stream is delivered. -/

namespace Frames

variable {α σ β : Type}

/-- A framed reader: `frame s xs` is the length of the complete frame at the head
    of `xs`, `none` while it is incomplete; `step` consumes one frame.  The
    fields state that a frame is nonempty, lies inside the input, and is not
    changed by symbols that arrive behind it. -/
structure Framer (α σ β : Type) where
  frame : σ → List α → Option Nat
  step : σ → List α → σ × List β
  frame_pos : ∀ {s xs n}, frame s xs = some n → 0 < n
  frame_le : ∀ {s xs n}, frame s xs = some n → n ≤ xs.length
  frame_append : ∀ {s xs n} (ys : List α), frame s xs = some n →
    frame s (xs ++ ys) = some n

/-- What draining leaves: the state, the incomplete tail, and the output. -/
structure Drained (α σ β : Type) where
  state : σ
  rest : List α
  out : List β

/-- At most `n` frames of `xs`. -/
def drainN (F : Framer α σ β) : Nat → σ → List α → Drained α σ β
  | 0, s, xs => ⟨s, xs, []⟩
  | n + 1, s, xs =>
      match F.frame s xs with
      | none => ⟨s, xs, []⟩
      | some k =>
          let r := F.step s (xs.take k)
          let t := drainN F n r.1 (xs.drop k)
          ⟨t.state, t.rest, r.2 ++ t.out⟩

/-- Consume every complete frame.  A frame takes at least one symbol, so the
    length of the input is budget enough. -/
def drain (F : Framer α σ β) (s : σ) (xs : List α) : Drained α σ β :=
  drainN F xs.length s xs

variable (F : Framer α σ β)

/-- Any budget that covers the input gives the same result. -/
theorem drainN_eq_drain : ∀ (n : Nat) (s : σ) (xs : List α),
    xs.length ≤ n → drainN F n s xs = drain F s xs := by
  -- both budgets are generalised, so the induction is on the larger one
  have key : ∀ (n m : Nat) (s : σ) (xs : List α), xs.length ≤ n →
      xs.length ≤ m → drainN F n s xs = drainN F m s xs := by
    intro n
    induction n with
    | zero =>
        intro m s xs hn _
        obtain rfl : xs = [] := List.length_eq_zero_iff.mp (Nat.le_zero.mp hn)
        cases m with
        | zero => rfl
        | succ m =>
            cases hf : F.frame s [] with
            | none => simp only [drainN, hf]
            | some k =>
                have hk := F.frame_pos hf
                have hle := F.frame_le hf
                rw [List.length_nil] at hle
                omega
    | succ n ih =>
        intro m s xs hn hm
        cases hf : F.frame s xs with
        | none =>
            cases m with
            | zero => simp only [drainN, hf]
            | succ m => simp only [drainN, hf]
        | some k =>
            have hk := F.frame_pos hf
            have hle := F.frame_le hf
            cases m with
            | zero => omega
            | succ m =>
                have hlen : (xs.drop k).length = xs.length - k :=
                  List.length_drop
                simp only [drainN, hf]
                rw [ih m _ (xs.drop k) (by omega) (by omega)]
  intro n s xs hn
  exact key n xs.length s xs hn (Nat.le_refl _)

/-- An incomplete input is kept as it is. -/
theorem drain_of_none {s : σ} {xs : List α} (h : F.frame s xs = none) :
    drain F s xs = ⟨s, xs, []⟩ := by
  unfold drain
  cases xs.length with
  | zero => rfl
  | succ n => simp only [drainN, h]

/-- A complete frame is consumed and draining goes on behind it. -/
theorem drain_of_some {s : σ} {xs : List α} {k : Nat}
    (h : F.frame s xs = some k) :
    drain F s xs =
      ⟨(drain F (F.step s (xs.take k)).1 (xs.drop k)).state,
       (drain F (F.step s (xs.take k)).1 (xs.drop k)).rest,
       (F.step s (xs.take k)).2 ++
         (drain F (F.step s (xs.take k)).1 (xs.drop k)).out⟩ := by
  have hk := F.frame_pos h
  have hle := F.frame_le h
  have hlen : (xs.drop k).length = xs.length - k := List.length_drop
  obtain ⟨n, hn⟩ : ∃ n, xs.length = n + 1 := ⟨xs.length - 1, by omega⟩
  rw [show drain F s xs = drainN F (n + 1) s xs by rw [drain, hn]]
  simp only [drainN, h]
  rw [drainN_eq_drain F n _ (xs.drop k) (by omega)]

/-- Induction along a drain: either the input is incomplete, or one frame is
    consumed and the rest is shorter. -/
theorem drain_induction {P : σ → List α → Prop}
    (stop : ∀ s xs, F.frame s xs = none → P s xs)
    (next : ∀ s xs k, F.frame s xs = some k →
      P (F.step s (xs.take k)).1 (xs.drop k) → P s xs) :
    ∀ s xs, P s xs := by
  intro s xs
  induction hn : xs.length using Nat.strongRecOn generalizing s xs with
  | ind n ih =>
      subst hn
      cases hf : F.frame s xs with
      | none => exact stop s xs hf
      | some k =>
          have hk := F.frame_pos hf
          have hle := F.frame_le hf
          refine next s xs k hf (ih (xs.drop k).length ?_ _ _ rfl)
          rw [List.length_drop]
          omega

/-- What is left over holds no complete frame. -/
theorem drain_rest_incomplete : ∀ (s : σ) (xs : List α),
    F.frame (drain F s xs).state (drain F s xs).rest = none := by
  refine drain_induction F ?_ ?_
  · intro s xs h
    rw [drain_of_none F h]
    exact h
  · intro s xs k h ih
    rw [drain_of_some F h]
    exact ih

/-- **Draining does not see where the stream was cut.** -/
theorem drain_append (ys : List α) : ∀ (s : σ) (xs : List α),
    drain F s (xs ++ ys) =
      ⟨(drain F (drain F s xs).state ((drain F s xs).rest ++ ys)).state,
       (drain F (drain F s xs).state ((drain F s xs).rest ++ ys)).rest,
       (drain F s xs).out ++
         (drain F (drain F s xs).state ((drain F s xs).rest ++ ys)).out⟩ := by
  refine drain_induction F ?_ ?_
  · intro s xs h
    rw [drain_of_none F h]
    rfl
  · intro s xs k h ih
    have hle := F.frame_le h
    rw [drain_of_some F (F.frame_append ys h), drain_of_some F h]
    rw [List.take_append_of_le_length hle, List.drop_append_of_le_length hle, ih]
    simp only [List.append_assoc]

/-- The output on a longer stream extends the output on a shorter one. -/
theorem drain_out_extends (s : σ) (xs ys : List α) :
    (drain F s xs).out <+: (drain F s (xs ++ ys)).out := by
  rw [drain_append F ys s xs]
  exact List.prefix_append _ _

/-- A property every frame preserves holds after draining. -/
theorem drain_invariant {P : σ → Prop}
    (hstep : ∀ s xs k, P s → F.frame s xs = some k →
      P (F.step s (xs.take k)).1) :
    ∀ (s : σ) (xs : List α), P s → P (drain F s xs).state := by
  refine drain_induction F ?_ ?_
  · intro s xs h hs
    rw [drain_of_none F h]
    exact hs
  · intro s xs k h ih hs
    rw [drain_of_some F h]
    exact ih (hstep s xs k hs h)

end Frames
