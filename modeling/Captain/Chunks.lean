import Mathlib.Data.List.Basic
import Mathlib.Tactic.Ring

/-!
# Ranges of a list and lists cut into equal chunks

`slice l p n` is the range `[p, p + n)` of `l` and `overwrite l p xs` is `l` with that range,
for `n = xs.length`, replaced by `xs`.

For a list `cs` of chunks of one size `B`, the offset `off` of chunk `i` is the position
`i * B + off` of `cs.flatten`: `slice_flatten` and `overwrite_flatten` move a range that stays
inside one chunk between the two views.
-/

namespace Chunks

variable {α : Type*}

/-- The `n` elements of `l` from position `p` on. -/
def slice (l : List α) (p n : Nat) : List α := (l.drop p).take n

/-- `l` with the elements from position `p` on replaced by those of `xs`. -/
def overwrite (l : List α) (p : Nat) (xs : List α) : List α :=
  l.take p ++ xs ++ l.drop (p + xs.length)

/-! ## Slices -/

/-- A range splits at any point of it. -/
theorem slice_add (l : List α) (p m n : Nat) :
    slice l p (m + n) = slice l p m ++ slice l (p + m) n := by
  simp only [slice, List.take_add, List.drop_drop]

theorem slice_append_left {l r : List α} {p n : Nat} (h : p + n ≤ l.length) :
    slice (l ++ r) p n = slice l p n := by
  unfold slice
  rw [List.drop_append_of_le_length (by omega),
    List.take_append_of_le_length (by simp only [List.length_drop]; omega)]

theorem slice_append_right (l r : List α) (p n : Nat) :
    slice (l ++ r) (l.length + p) n = slice r p n := by
  simp only [slice, List.drop_append, Nat.add_sub_cancel_left]
  rw [List.drop_eq_nil_of_le (by omega), List.nil_append]

/-! ## Overwriting -/

theorem length_overwrite {l : List α} {p : Nat} {xs : List α} (h : p + xs.length ≤ l.length) :
    (overwrite l p xs).length = l.length := by
  simp only [overwrite, List.length_append, List.length_take, List.length_drop]
  omega

theorem overwrite_nil (l : List α) (p : Nat) : overwrite l p [] = l := by
  rw [overwrite, List.append_nil, List.length_nil, Nat.add_zero, List.take_append_drop]

/-- Overwriting two adjacent ranges is overwriting their union. -/
theorem overwrite_overwrite {l : List α} {p : Nat} {xs : List α} (ys : List α)
    (h : p + xs.length ≤ l.length) :
    overwrite (overwrite l p xs) (p + xs.length) ys = overwrite l p (xs ++ ys) := by
  have hlen : (l.take p ++ xs).length = p + xs.length := by
    simp only [List.length_append, List.length_take]
    omega
  unfold overwrite
  rw [List.take_left' hlen, List.drop_append, List.drop_eq_nil_of_le (by omega), hlen,
    Nat.add_sub_cancel_left, List.nil_append, List.drop_drop, List.length_append,
    Nat.add_assoc, List.append_assoc (l.take p)]

theorem overwrite_append {l m r : List α} {p : Nat} {xs : List α}
    (h : p + xs.length ≤ m.length) :
    overwrite (l ++ m ++ r) (l.length + p) xs = l ++ overwrite m p xs ++ r := by
  simp only [overwrite, List.append_assoc]
  rw [List.take_append, List.take_of_length_le (by omega : l.length ≤ l.length + p),
    Nat.add_sub_cancel_left, List.take_append_of_le_length (by omega), List.drop_append,
    List.drop_eq_nil_of_le (by omega), List.nil_append, Nat.add_assoc,
    Nat.add_sub_cancel_left, List.drop_append_of_le_length h, List.append_assoc]

/-- What comes after a list is not seen in as many elements as the list has, or as have been
overwritten. -/
theorem take_overwrite_append {l xs : List α} {p m : Nat} (hp : p ≤ l.length)
    (hm : m ≤ l.length ∨ m ≤ p + xs.length) (r : List α) :
    (overwrite (l ++ r) p xs).take m = (overwrite l p xs).take m := by
  unfold overwrite
  rw [List.take_append_of_le_length hp, List.drop_append, ← List.append_assoc]
  apply List.take_append_of_le_length
  simp only [List.length_append, List.length_take, List.length_drop]
  omega

/-! ## Chunks of one size -/

theorem length_flatten {cs : List (List α)} {B : Nat} (h : ∀ c ∈ cs, c.length = B) :
    cs.flatten.length = cs.length * B := by
  induction cs with
  | nil => simp
  | cons c cs ih =>
    rw [List.flatten_cons, List.length_append, h c List.mem_cons_self,
      ih fun c' hc' => h c' (List.mem_cons_of_mem _ hc'), List.length_cons]
    ring

theorem flatten_split {cs : List (List α)} {i : Nat} {c : List α} (hi : cs[i]? = some c) :
    cs.flatten = (cs.take i).flatten ++ c ++ (cs.drop (i + 1)).flatten := by
  obtain ⟨hlt, rfl⟩ := List.getElem?_eq_some_iff.mp hi
  have hsplit : cs = cs.take i ++ cs[i] :: cs.drop (i + 1) := by
    rw [← List.drop_eq_getElem_cons hlt, List.take_append_drop]
  calc cs.flatten = (cs.take i ++ cs[i] :: cs.drop (i + 1)).flatten := by rw [← hsplit]
    _ = _ := by rw [List.flatten_append, List.flatten_cons, List.append_assoc]

theorem length_flatten_take {cs : List (List α)} {B i : Nat} (h : ∀ c ∈ cs, c.length = B)
    (hi : i ≤ cs.length) : (cs.take i).flatten.length = i * B := by
  rw [length_flatten fun c hc => h c (List.mem_of_mem_take hc), List.length_take,
    Nat.min_eq_left hi]

/-- A range inside chunk `i` is the range of the flat list at `i * B`. -/
theorem slice_flatten {cs : List (List α)} {B i : Nat} {c : List α}
    (h : ∀ c ∈ cs, c.length = B) (hi : cs[i]? = some c) {off n : Nat} (hn : off + n ≤ B) :
    slice cs.flatten (i * B + off) n = slice c off n := by
  have hlt := (List.getElem?_eq_some_iff.mp hi).1
  have hc : c.length = B := h c (List.mem_of_getElem? hi)
  have hpre := length_flatten_take h (Nat.le_of_lt hlt)
  rw [flatten_split hi, List.append_assoc, ← hpre, slice_append_right,
    slice_append_left (by omega)]

/-- Overwriting a range inside chunk `i` overwrites the range of the flat list at `i * B`. -/
theorem overwrite_flatten {cs : List (List α)} {B i : Nat} {c : List α}
    (h : ∀ c ∈ cs, c.length = B) (hi : cs[i]? = some c) {off : Nat} {xs : List α}
    (hn : off + xs.length ≤ B) :
    (cs.set i (overwrite c off xs)).flatten = overwrite cs.flatten (i * B + off) xs := by
  have hlt := (List.getElem?_eq_some_iff.mp hi).1
  have hc : c.length = B := h c (List.mem_of_getElem? hi)
  have hpre := length_flatten_take h (Nat.le_of_lt hlt)
  rw [flatten_split hi, ← hpre, overwrite_append (by omega), List.set_eq_take_append_cons_drop,
    if_pos hlt, List.flatten_append, List.flatten_cons, List.append_assoc]

end Chunks
