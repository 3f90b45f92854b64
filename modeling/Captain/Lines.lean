import Mathlib.Data.List.Basic

/-!
# Texts in lines that end with CRLF

`pieces` cuts a text at every CRLF, and `head` reads lines up to the first empty one. Texts written
one to a line are read as their pieces (`head_texts`), unless a piece is empty: then the reader
stops in the middle (`head_blank`).
-/

namespace Lines

def crlf : List UInt8 := [13, 10]

/-- What CRLF separates. -/
def pieces : List UInt8 → List (List UInt8)
  | [] => [[]]
  | [b] => [[b]]
  | a :: b :: rest =>
    if a = 13 ∧ b = 10 then [] :: pieces rest else (pieces (b :: rest)).modifyHead (a :: ·)

/-- The lines up to the first empty one, and what follows it; `line` is what has been read of the
first. -/
def head : List UInt8 → List UInt8 → Option (List (List UInt8) × List UInt8)
  | _, [] => none
  | _, [_] => none
  | line, a :: b :: rest =>
    if a = 13 ∧ b = 10 then
      if line = [] then some ([], rest) else (head [] rest).map fun (ls, r) => (line :: ls, r)
    else head (line ++ [a]) (b :: rest)

/-- What comes before the first `c`, and what comes after it. -/
theorem first_unique {α : Type} {l l' r r' : List α} {c : α} (hl : c ∉ l) (hl' : c ∉ l')
    (h : l ++ c :: r = l' ++ c :: r') : l = l' ∧ r = r' := by
  induction l generalizing l' with
  | nil =>
    cases l' with
    | nil => exact ⟨rfl, (List.cons.inj h).2⟩
    | cons b l' => exact absurd ((List.cons.inj h).1 ▸ List.mem_cons_self) hl'
  | cons b l ih =>
    cases l' with
    | nil => exact absurd ((List.cons.inj h).1 ▸ List.mem_cons_self) hl
    | cons b' l' =>
      obtain ⟨rfl, htail⟩ := List.cons.inj h
      obtain ⟨rfl, hr⟩ := ih (fun hc => hl (List.mem_cons_of_mem _ hc))
        (fun hc => hl' (List.mem_cons_of_mem _ hc)) htail
      exact ⟨rfl, hr⟩

theorem pieces_ne_nil (t : List UInt8) : pieces t ≠ [] := by
  fun_induction pieces t with
  | case1 => exact List.cons_ne_nil _ _
  | case2 b => exact List.cons_ne_nil _ _
  | case3 a b rest h ih => exact List.cons_ne_nil _ _
  | case4 a b rest h ih =>
    intro hnil
    exact ih (List.modifyHead_eq_nil_iff.mp hnil)

/-- A text without a carriage return is one piece. -/
theorem pieces_of_not_mem {t : List UInt8} (h : 13 ∉ t) : pieces t = [t] := by
  fun_induction pieces t with
  | case1 => rfl
  | case2 b => rfl
  | case3 a b rest hcrlf ih => exact absurd (hcrlf.1 ▸ List.mem_cons_self) h
  | case4 a b rest hcrlf ih =>
    rw [ih fun hmem => h (List.mem_cons_of_mem _ hmem)]
    rfl

/-- What comes later does not change what has been read. -/
theorem head_append {line m body : List UInt8} {ls : List (List UInt8)}
    (h : head line m = some (ls, body)) (t : List UInt8) :
    head line (m ++ t) = some (ls, body ++ t) := by
  fun_induction head line m generalizing ls body with
  | case1 line => cases h
  | case2 line b => cases h
  | case3 a b rest hcrlf =>
    cases h
    rw [List.cons_append, List.cons_append, head, if_pos hcrlf, if_pos rfl]
  | case4 line a b rest hcrlf hline ih =>
    obtain ⟨⟨ls', body'⟩, hrest, heq⟩ := Option.map_eq_some_iff.mp h
    cases heq
    rw [List.cons_append, List.cons_append, head, if_pos hcrlf, if_neg hline, ih hrest]
    rfl
  | case5 line a b rest hcrlf ih =>
    rw [List.cons_append, List.cons_append, head, if_neg hcrlf]
    exact ih h

theorem modifyHead_nil_append (ls : List (List UInt8)) : ls.modifyHead ([] ++ ·) = ls := by
  cases ls <;> rfl

theorem modifyHead_cons_append (line : List UInt8) (a : UInt8) (ls : List (List UInt8)) :
    (ls.modifyHead (a :: ·)).modifyHead (line ++ ·) = ls.modifyHead ((line ++ [a]) ++ ·) := by
  cases ls with
  | nil => rfl
  | cons p ps => simp only [List.modifyHead_cons, List.append_assoc, List.singleton_append]

/-- A text and the CRLF after it are read as its pieces; the first goes on from `line`. -/
theorem head_text {line t : List UInt8} (h : [] ∉ (pieces t).modifyHead (line ++ ·))
    (u : List UInt8) : head line (t ++ 13 :: 10 :: u) =
      (head [] u).map fun (ls, r) => ((pieces t).modifyHead (line ++ ·) ++ ls, r) := by
  fun_induction pieces t generalizing line with
  | case1 =>
    rw [List.modifyHead_cons, List.append_nil] at h ⊢
    have hline : line ≠ [] := fun hnil => h (hnil ▸ List.mem_cons_self)
    rw [List.nil_append, head, if_pos ⟨rfl, rfl⟩, if_neg hline]
    rfl
  | case2 b =>
    rw [List.modifyHead_cons]
    have hline : line ++ [b] ≠ [] := List.append_ne_nil_of_right_ne_nil _ (List.cons_ne_nil _ _)
    have hcrlf : ¬(b = 13 ∧ (13 : UInt8) = 10) := fun hb => absurd hb.2 (by decide)
    rw [List.singleton_append, head, if_neg hcrlf, head, if_pos ⟨rfl, rfl⟩, if_neg hline]
    rfl
  | case3 a b rest hcrlf ih =>
    rw [List.modifyHead_cons, List.append_nil] at h ⊢
    have hline : line ≠ [] := fun hnil => h (hnil ▸ List.mem_cons_self)
    rw [List.cons_append, List.cons_append, head, if_pos hcrlf, if_neg hline,
      ih (by rw [modifyHead_nil_append]; exact fun hmem => h (List.mem_cons_of_mem _ hmem)),
      modifyHead_nil_append, Option.map_map]
    rfl
  | case4 a b rest hcrlf ih =>
    rw [modifyHead_cons_append] at h ⊢
    rw [List.cons_append, List.cons_append, head, if_neg hcrlf]
    exact ih h

/-- With an empty piece the reader stops before the end of the text. -/
theorem head_text_blank {line t : List UInt8} (h : [] ∈ (pieces t).modifyHead (line ++ ·))
    (u : List UInt8) : ∃ ls r, head line (t ++ 13 :: 10 :: u) = some (ls, r) ∧
      u.length ≤ r.length := by
  fun_induction pieces t generalizing line with
  | case1 =>
    rw [List.modifyHead_cons, List.append_nil, List.mem_singleton] at h
    rw [← h]
    exact ⟨[], u, rfl, Nat.le_refl _⟩
  | case2 b =>
    rw [List.modifyHead_cons, List.mem_singleton] at h
    exact absurd h.symm (List.append_ne_nil_of_right_ne_nil _ (List.cons_ne_nil _ _))
  | case3 a b rest hcrlf ih =>
    rw [List.modifyHead_cons, List.append_nil] at h
    rw [List.cons_append, List.cons_append, head, if_pos hcrlf]
    by_cases hline : line = []
    · rw [if_pos hline]
      refine ⟨[], _, rfl, ?_⟩
      rw [List.length_append, List.length_cons, List.length_cons]
      omega
    · have hmem : [] ∈ pieces rest :=
        (List.mem_cons.mp h).resolve_left fun hnil => hline hnil.symm
      obtain ⟨ls, r, hrun, hle⟩ := @ih [] (by rw [modifyHead_nil_append]; exact hmem)
      rw [if_neg hline, hrun]
      exact ⟨line :: ls, r, rfl, hle⟩
  | case4 a b rest hcrlf ih =>
    rw [modifyHead_cons_append] at h
    rw [List.cons_append, List.cons_append, head, if_neg hcrlf]
    exact ih h

/-- Texts, each with CRLF after it. -/
def emit (ts : List (List UInt8)) : List UInt8 := ts.flatMap (· ++ crlf)

theorem emit_cons (t : List UInt8) (ts : List (List UInt8)) (u : List UInt8) :
    emit (t :: ts) ++ u = t ++ 13 :: 10 :: (emit ts ++ u) := by
  simp only [emit, crlf, List.flatMap_cons, List.append_assoc, List.cons_append, List.nil_append]

/-- Texts without an empty piece are read as their pieces. -/
theorem head_texts {ts : List (List UInt8)} (h : ∀ t ∈ ts, [] ∉ pieces t) (u : List UInt8) :
    head [] (emit ts ++ u) =
      (head [] u).map fun (ls, r) => (ts.flatMap pieces ++ ls, r) := by
  induction ts with
  | nil =>
    show head [] u = _
    cases head [] u <;> rfl
  | cons t ts ih =>
    rw [emit_cons, head_text (by rw [modifyHead_nil_append]; exact h t List.mem_cons_self),
      modifyHead_nil_append,
      ih fun t ht => h t (List.mem_cons_of_mem _ ht), Option.map_map]
    congr 1
    funext x
    simp only [Function.comp_apply, List.flatMap_cons, List.append_assoc]

/-- An empty piece in a text is taken for the end of the lines. -/
theorem head_blank {ts : List (List UInt8)} (h : ∃ t ∈ ts, [] ∈ pieces t) (u : List UInt8) :
    ∃ ls r, head [] (emit ts ++ u) = some (ls, r) ∧ u.length ≤ r.length := by
  induction ts with
  | nil =>
    obtain ⟨t, ht, -⟩ := h
    cases ht
  | cons t ts ih =>
    rw [emit_cons]
    by_cases hblank : [] ∈ pieces t
    · obtain ⟨ls, r, hrun, hle⟩ := head_text_blank
        (by rw [modifyHead_nil_append]; exact hblank : [] ∈ (pieces t).modifyHead ([] ++ ·))
        (emit ts ++ u)
      rw [List.length_append] at hle
      exact ⟨ls, r, hrun, by omega⟩
    · obtain ⟨t', ht', hpieces⟩ := h
      have htail : t' ∈ ts :=
        (List.mem_cons.mp ht').resolve_left fun heq => hblank (heq ▸ hpieces)
      obtain ⟨ls, r, hrun, hle⟩ := ih ⟨t', htail, hpieces⟩
      rw [head_text (by rw [modifyHead_nil_append]; exact hblank), modifyHead_nil_append, hrun]
      exact ⟨_, r, rfl, hle⟩

end Lines
