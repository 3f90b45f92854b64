import Mathlib.Data.List.Basic

/-!
# A stream cut into segments

The segments of a stream are a list of lists. `origin` finds the first position of the segment that
a position lies in, `skip n` what is left of the segments after the first `n` elements, and `reach
n` what is left of the segment that brings the `n`-th element, with the segments after it; `excess
n` counts what the segments up to that one bring beyond it.
-/

namespace Segments

variable {α : Type*}

/-- The first position of the segment that holds the position `i`. -/
def origin : List (List α) → Nat → Nat
  | [], _ => 0
  | c :: cs, i => if i < c.length then 0 else c.length + origin cs (i - c.length)

/-- The segments without their first `n` elements. -/
def skip : Nat → List (List α) → List (List α)
  | _, [] => []
  | n, c :: cs => if c.length ≤ n then skip (n - c.length) cs else c.drop n :: cs

/-- What follows the first `n` elements in the segment that ends with them or after them, and the
segments that come next. -/
def reach : Nat → List (List α) → List α × List (List α)
  | _, [] => ([], [])
  | n, c :: cs => if n ≤ c.length then (c.drop n, cs) else reach (n - c.length) cs

/-- How far the segments up to the one that brings the `n`-th element go beyond it. -/
def excess : Nat → List (List α) → List Nat
  | _, [] => []
  | n, c :: cs => if n ≤ c.length then [c.length - n] else 0 :: excess (n - c.length) cs

theorem origin_head {c : List α} {i : Nat} (hi : i < c.length) (cs : List (List α)) :
    origin (c :: cs) i = 0 := if_pos hi

theorem origin_tail (c : List α) (cs : List (List α)) (i : Nat) :
    origin (c :: cs) (c.length + i) = c.length + origin cs i := by
  rw [origin, if_neg (by omega), Nat.add_sub_cancel_left]

/-- A position between another one and its origin has the same origin. -/
theorem origin_eq (cs : List (List α)) {i j : Nat} (hj : origin cs i ≤ j) (hi : j ≤ i)
    (hlt : i < cs.flatten.length) : origin cs j = origin cs i := by
  induction cs generalizing i j with
  | nil => rfl
  | cons c cs ih =>
    rw [List.flatten_cons, List.length_append] at hlt
    by_cases hc : i < c.length
    · rw [origin, if_pos (by omega), origin, if_pos hc]
    · rw [origin, if_neg hc] at hj
      have htail : origin cs (j - c.length) = origin cs (i - c.length) :=
        ih (by omega) (by omega) (by omega)
      rw [origin, if_neg (by omega), origin, if_neg hc, htail]

theorem excess_lt {n : Nat} (hn : 0 < n) {cs : List (List α)} (h : ∀ c ∈ cs, c ≠ []) {x : Nat}
    (hx : x ∈ excess n cs) : x < cs.flatten.length := by
  induction cs generalizing n with
  | nil => cases hx
  | cons c cs ih =>
    have hpos := List.length_pos_iff.mpr (h c List.mem_cons_self)
    rw [List.flatten_cons, List.length_append]
    unfold excess at hx
    split at hx
    · rw [List.mem_singleton.mp hx]
      omega
    · cases List.mem_cons.mp hx with
      | inl h => omega
      | inr hx =>
        have hlt := ih (by omega) (fun c hc => h c (List.mem_cons_of_mem _ hc)) hx
        omega

theorem flatten_skip (n : Nat) (cs : List (List α)) : (skip n cs).flatten = cs.flatten.drop n := by
  induction cs generalizing n with
  | nil => exact (List.drop_nil).symm
  | cons c cs ih =>
    unfold skip
    rw [List.flatten_cons]
    split
    · rename_i hle
      rw [ih, List.drop_append, List.drop_eq_nil_of_le hle, List.nil_append]
    · rename_i hlt
      rw [List.flatten_cons, List.drop_append_of_le_length (by omega)]

theorem skip_zero {cs : List (List α)} (h : ∀ c ∈ cs, c ≠ []) : skip 0 cs = cs := by
  cases cs with
  | nil => rfl
  | cons c cs =>
    have hc := List.length_pos_iff.mpr (h c List.mem_cons_self)
    unfold skip
    rw [if_neg (by omega), List.drop_zero]

theorem skip_add (m n : Nat) (cs : List (List α)) : skip n (skip m cs) = skip (m + n) cs := by
  induction cs generalizing m n with
  | nil => rfl
  | cons c cs ih =>
    by_cases hm : c.length ≤ m
    · rw [skip, if_pos hm, skip, if_pos (by omega), ih]
      congr 1
      omega
    · rw [skip, if_neg hm, skip, skip, List.length_drop]
      by_cases hn : c.length ≤ m + n
      · rw [if_pos (by omega), if_pos hn]
        congr 1
        omega
      · rw [if_neg (by omega), if_neg hn, List.drop_drop]

theorem mem_skip_length {n : Nat} {cs : List (List α)} {c : List α} (hc : c ∈ skip n cs) :
    ∃ c' ∈ cs, c.length ≤ c'.length := by
  induction cs generalizing n with
  | nil => exact absurd hc List.not_mem_nil
  | cons d cs ih =>
    unfold skip at hc
    split at hc
    · obtain ⟨c', hmem, hle⟩ := ih hc
      exact ⟨c', List.mem_cons_of_mem _ hmem, hle⟩
    · cases List.mem_cons.mp hc with
      | inl h =>
        refine ⟨d, List.mem_cons_self, ?_⟩
        rw [h, List.length_drop]
        omega
      | inr h => exact ⟨c, List.mem_cons_of_mem _ h, Nat.le_refl _⟩

theorem ne_nil_of_mem_skip {n : Nat} {cs : List (List α)} (h : ∀ c ∈ cs, c ≠ []) {c : List α}
    (hc : c ∈ skip n cs) : c ≠ [] := by
  induction cs generalizing n with
  | nil => exact absurd hc List.not_mem_nil
  | cons d cs ih =>
    unfold skip at hc
    split at hc
    · exact ih (fun c hc => h c (List.mem_cons_of_mem _ hc)) hc
    · rename_i hlt
      cases List.mem_cons.mp hc with
      | inl heq =>
        apply List.ne_nil_of_length_pos
        rw [heq, List.length_drop]
        omega
      | inr hmem => exact h c (List.mem_cons_of_mem _ hmem)

theorem flatten_reach {n : Nat} {cs : List (List α)} (hn : n ≤ cs.flatten.length) :
    (reach n cs).1 ++ (reach n cs).2.flatten = cs.flatten.drop n := by
  induction cs generalizing n with
  | nil => exact (List.drop_nil).symm
  | cons c cs ih =>
    rw [List.flatten_cons, List.length_append] at hn
    unfold reach
    rw [List.flatten_cons]
    split
    · rename_i hle
      rw [List.drop_append_of_le_length hle]
    · rename_i hlt
      have hnil : c.drop n = [] := List.drop_eq_nil_of_le (by omega)
      rw [ih (n := n - c.length) (by omega), List.drop_append, hnil, List.nil_append]

theorem mem_reach {n : Nat} {cs : List (List α)} {c : List α} (hc : c ∈ (reach n cs).2) :
    c ∈ cs := by
  induction cs generalizing n with
  | nil => exact hc
  | cons d cs ih =>
    unfold reach at hc
    split at hc
    · exact List.mem_cons_of_mem _ hc
    · exact List.mem_cons_of_mem _ (ih hc)

/-- The segment that brings the `n`-th element ends inside the first `n + m`. -/
theorem skip_reach {n m : Nat} {cs : List (List α)} (hn : n ≤ cs.flatten.length)
    (hm : (reach n cs).1.length ≤ m) :
    skip (m - (reach n cs).1.length) (reach n cs).2 = skip (n + m) cs := by
  induction cs generalizing n with
  | nil => rfl
  | cons c cs ih =>
    rw [List.flatten_cons, List.length_append] at hn
    unfold reach at hm ⊢
    by_cases hle : n ≤ c.length
    · rw [if_pos hle, List.length_drop] at hm
      rw [if_pos hle, List.length_drop, skip, if_pos (by omega)]
      congr 1
      omega
    · rw [if_neg hle] at hm
      rw [if_neg hle, ih (by omega) hm, skip, if_pos (by omega)]
      congr 1
      omega

end Segments
