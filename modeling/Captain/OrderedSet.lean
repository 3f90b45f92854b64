import Mathlib.Data.List.TakeWhile
import Mathlib.Tactic.Tauto

/-!
# Ordered sets kept by a comparator

A set ordered by a comparator `less`, as `std::set` keeps it, is the list of its elements in
order; an iterator is an index into the list, the length being the end iterator. Two elements
are the same for the set when neither comes before the other.

`find`, `erase` and `insert` search by comparing, so they depend on the list being sorted by the
comparator of the moment. For a strict total order `erase_find` and `insert_spec` say that they
then do what their names promise.
-/

namespace OrderedSet

variable {α : Type*} {less : α → α → Bool}

/-- `lower_bound`: the first element that does not come before. -/
def lowerBound (before : α → Bool) (l : List α) : Nat := (l.takeWhile before).length

/-- `find(x)`: the element that is the same as `x`, or the end. -/
def find (less : α → α → Bool) (x : α) (l : List α) : Nat :=
  match l[lowerBound (less · x) l]? with
  | some y => if less x y then l.length else lowerBound (less · x) l
  | none => l.length

/-- `erase(it)`; erasing the end has no meaning. -/
def erase (it : Nat) (l : List α) : Option (List α) :=
  if it < l.length then some (l.eraseIdx it) else none

/-- `insert(x)` and the place of `x` after it. Nothing is inserted when the set has an element
that is the same as `x`. -/
def insert (less : α → α → Bool) (x : α) (l : List α) : List α × Nat :=
  let it := lowerBound (less · x) l
  match l[it]? with
  | some y => if less x y then (l.take it ++ x :: l.drop it, it) else (l, it)
  | none => (l.take it ++ x :: l.drop it, it)

/-- A comparator that is a strict total order. -/
structure StrictTotal (less : α → α → Bool) : Prop where
  irrefl : ∀ a, less a a = false
  trans : ∀ {a b c}, less a b = true → less b c = true → less a c = true
  total : ∀ {a b}, a ≠ b → less a b = true ∨ less b a = true

/-- The list is sorted, and so without repetitions, in the order of the comparator. -/
abbrev Sorted (less : α → α → Bool) (l : List α) : Prop := l.Pairwise fun a b => less a b = true

theorem StrictTotal.transitive (h : StrictTotal less) (a b c : α) (hab : less a b = true)
    (hbc : less b c = true) : less a c = true := h.trans hab hbc

theorem StrictTotal.asymm (h : StrictTotal less) {a b : α} (hab : less a b = true) :
    less b a = false := by
  by_contra hba
  have := h.trans hab (by simpa using hba)
  rw [h.irrefl] at this
  cases this

theorem Sorted.nodup (h : StrictTotal less) {l : List α} (hs : Sorted less l) : l.Nodup := by
  apply hs.imp
  rintro a b hab rfl
  rw [h.irrefl] at hab
  cases hab

/-- The lower bound of `x` splits the set: what comes before it comes before `x`, nothing that
comes after it does. -/
theorem Sorted.split (htrans : ∀ a b c, less a b = true → less b c = true → less a c = true)
    {l : List α} (hs : Sorted less l) (x : α) :
    ∃ pre post, l = pre ++ post ∧ lowerBound (less · x) l = pre.length ∧
      (∀ y ∈ pre, less y x = true) ∧ ∀ y ∈ post, less y x = false := by
  refine ⟨l.takeWhile (less · x), l.dropWhile (less · x),
    List.takeWhile_append_dropWhile.symm, rfl,
    fun y hy => List.mem_takeWhile_imp (p := (less · x)) hy, ?_⟩
  intro y hy
  have hs' : Sorted less (l.dropWhile (less · x)) := hs.sublist (List.dropWhile_sublist _)
  cases hpost : l.dropWhile (less · x) with
  | nil => rw [hpost] at hy; cases hy
  | cons z post =>
    have hz : less z x = false := by
      have hne : l.dropWhile (less · x) ≠ [] := by simp [hpost]
      have := List.head_dropWhile_not (less · x) hne
      simpa [hpost] using this
    rw [hpost] at hy hs'
    rcases List.mem_cons.mp hy with rfl | hy
    · exact hz
    · by_contra hyx
      have hzy := List.rel_of_pairwise_cons hs' hy
      rw [htrans z y x hzy (by simpa using hyx)] at hz
      cases hz

/-- Searching a sorted set for one of its elements hits that element, and erasing what was
found takes that element out. -/
theorem erase_find (h : StrictTotal less) {l : List α} (hs : Sorted less l) {x : α}
    (hx : x ∈ l) :
    l[find less x l]? = some x ∧ ∃ l', erase (find less x l) l = some l' ∧ l'.Sublist l ∧
      ∀ y, y ∈ l' ↔ y ∈ l ∧ y ≠ x := by
  obtain ⟨pre, post, rfl, hlb, hpre, hpost⟩ := hs.split h.transitive x
  have hxpost : x ∈ post := by
    rcases List.mem_append.mp hx with hx | hx
    · have := hpre x hx
      rw [h.irrefl] at this
      cases this
    · exact hx
  obtain ⟨y, post, rfl⟩ := List.exists_cons_of_ne_nil (List.ne_nil_of_mem hxpost)
  have hs' := (List.pairwise_append.mp hs).2.1
  have hyx : y = x := by
    rcases List.mem_cons.mp hxpost with rfl | hmem
    · rfl
    · have := hpost y List.mem_cons_self
      rw [List.rel_of_pairwise_cons hs' hmem] at this
      cases this
  subst hyx
  have hfind : find less y (pre ++ y :: post) = pre.length := by
    simp only [find, hlb]
    rw [List.getElem?_append_right (Nat.le_refl _)]
    simp [h.irrefl]
  have hlt : pre.length < (pre ++ y :: post).length := by simp
  have herase : (pre ++ y :: post).eraseIdx pre.length = pre ++ post := by
    rw [List.eraseIdx_append_of_length_le (Nat.le_refl _)]
    simp
  refine ⟨by rw [hfind]; simp, pre ++ post, ?_, ?_, ?_⟩
  · rw [hfind, erase, if_pos hlt, herase]
  · exact List.Sublist.append_left (List.sublist_cons_self _ _) _
  · have hnodup := hs.nodup h
    rw [List.nodup_append, List.nodup_cons] at hnodup
    obtain ⟨-, ⟨hnotin, -⟩, hdisj⟩ := hnodup
    intro z
    simp only [List.mem_append, List.mem_cons]
    constructor
    · rintro (hz | hz)
      · exact ⟨Or.inl hz, hdisj z hz y List.mem_cons_self⟩
      · refine ⟨Or.inr (Or.inr hz), ?_⟩
        rintro rfl
        exact hnotin hz
    · rintro ⟨hz | rfl | hz, hne⟩
      · exact Or.inl hz
      · exact absurd rfl hne
      · exact Or.inr hz

theorem insert_ne_nil (x : α) (l : List α) : (insert less x l).1 ≠ [] := by
  simp only [insert]
  split
  · rename_i y hy
    split
    · simp
    · rintro rfl
      simp at hy
  · simp

/-- Inserting keeps a set sorted, also when different elements are the same for it. -/
theorem Sorted.insert (htrans : ∀ a b c, less a b = true → less b c = true → less a c = true)
    {l : List α} (hs : Sorted less l) (x : α) : Sorted less (OrderedSet.insert less x l).1 := by
  obtain ⟨pre, post, rfl, hlb, hpre, -⟩ := hs.split htrans x
  obtain ⟨hspre, hspost, hcross⟩ := List.pairwise_append.mp hs
  -- the place is where `pre` ends
  have hput : (∀ y ∈ post, less x y = true) → Sorted less (pre ++ x :: post) := by
    intro hafter
    refine List.pairwise_append.mpr ⟨hspre, List.pairwise_cons.mpr ⟨hafter, hspost⟩, ?_⟩
    intro a ha b hb
    rcases List.mem_cons.mp hb with rfl | hb
    · exact hpre a ha
    · exact hcross a ha b hb
  simp only [OrderedSet.insert, hlb]
  rw [List.getElem?_append_right (Nat.le_refl _), Nat.sub_self, List.take_left, List.drop_left]
  cases post with
  | nil => exact hput (by simp)
  | cons y post =>
    rw [List.getElem?_cons_zero]
    dsimp only
    split
    · rename_i hxy
      apply hput
      intro z hz
      rcases List.mem_cons.mp hz with rfl | hz
      · exact hxy
      · exact htrans x y z hxy (List.rel_of_pairwise_cons hspost hz)
    · exact hs

/-- Inserting a new element keeps the set sorted, adds just that element, and puts it in front
exactly when it comes before all the others. -/
theorem insert_spec (h : StrictTotal less) {l : List α} (hs : Sorted less l) {x : α}
    (hx : x ∉ l) :
    Sorted less (insert less x l).1 ∧ (∀ y, y ∈ (insert less x l).1 ↔ y = x ∨ y ∈ l) ∧
      ((insert less x l).2 = 0 ↔ ∀ y ∈ l, less x y = true) := by
  obtain ⟨pre, post, rfl, hlb, hpre, hpost⟩ := hs.split h.transitive x
  have hafter : ∀ y ∈ post, less x y = true := by
    intro y hy
    have hne : y ≠ x := by
      rintro rfl
      exact hx (List.mem_append_right _ hy)
    rcases h.total hne with hyx | hxy
    · rw [hpost y hy] at hyx
      cases hyx
    · exact hxy
  have hins : insert less x (pre ++ post) = (pre ++ x :: post, pre.length) := by
    simp only [insert, hlb]
    rw [List.getElem?_append_right (Nat.le_refl _), Nat.sub_self, List.take_left,
      List.drop_left]
    cases post with
    | nil => rfl
    | cons y post => simp [hafter y List.mem_cons_self]
  refine ⟨hs.insert h.transitive x, ?_, ?_⟩
  all_goals rw [hins]
  · intro y
    simp only [List.mem_append, List.mem_cons]
    tauto
  · simp only [List.length_eq_zero_iff]
    constructor
    · rintro rfl y hy
      exact hafter y (by simpa using hy)
    · intro hall
      by_contra hne
      obtain ⟨y, hy⟩ := List.exists_mem_of_ne_nil _ hne
      have hxy := hall y (List.mem_append_left _ hy)
      rw [h.asymm (hpre y hy)] at hxy
      cases hxy

end OrderedSet
