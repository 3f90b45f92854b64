import Mathlib.Data.List.Basic
import Mathlib.Tactic.IntervalCases

/-!
# Textual IPv6 addresses (RFC 4291, section 2.2)

An address is eight groups of one to four hexadecimal digits, separated by colons; the last two may
be four decimal numbers, separated by dots. `::`, which may be there once, stands for one or more
groups of zeros. `parse` has the eight groups of a valid text.

* `parse_join`, `parse_compressed`: what is read from groups without and with `::`.
* `double_unique`: in groups around `::` there is no other `::`.
-/

namespace Rfc4291

def hexDigit (c : Char) : Option Nat :=
  if '0' ≤ c ∧ c ≤ '9' then some (c.toNat - 48)
  else if 'a' ≤ c ∧ c ≤ 'f' then some (c.toNat - 87)
  else if 'A' ≤ c ∧ c ≤ 'F' then some (c.toNat - 55)
  else none

def hexNumber (t : List Char) : Option Nat :=
  t.foldlM (fun v c => (hexDigit c).map (16 * v + ·)) 0

/-- One to four hexadecimal digits. -/
def hexGroup (t : List Char) : Option Nat :=
  if t ≠ [] ∧ t.length ≤ 4 then hexNumber t else none

/-- One to three decimal digits for a number up to 255. -/
def decimalByte (t : List Char) : Option Nat :=
  if t ≠ [] ∧ t.length ≤ 3 ∧ t.all Char.isDigit ∧ Nat.ofDigitChars 10 t 0 ≤ 255 then
    some (Nat.ofDigitChars 10 t 0)
  else none

/-- The two groups of an IPv4 address. -/
def dotted (t : List Char) : Option (List Nat) :=
  match (t.splitOn '.').mapM decimalByte with
  | some [a, b, c, d] => some [256 * a + b, 256 * c + d]
  | _ => none

/-- Groups, the last of which may be an IPv4 address. -/
def lastGroups : List (List Char) → Option (List Nat)
  | [] => some []
  | [t] => ((hexGroup t).map ([·])).or (dotted t)
  | t :: ts => do
    let v ← hexGroup t
    let vs ← lastGroups ts
    some (v :: vs)

/-- The texts before and after the first `::`. -/
def cut : List Char → Option (List Char × List Char)
  | ':' :: ':' :: t => some ([], t)
  | c :: t => (cut t).map fun (l, r) => (c :: l, r)
  | [] => none

/-- The groups before `::`. -/
def before (t : List Char) : Option (List Nat) :=
  if t = [] then some [] else (t.splitOn ':').mapM hexGroup

/-- The groups behind `::`. -/
def behind (t : List Char) : Option (List Nat) :=
  if t = [] then some [] else lastGroups (t.splitOn ':')

def parse (t : List Char) : Option (List Nat) :=
  match cut t with
  | none => do
    let groups ← lastGroups (t.splitOn ':')
    if groups.length = 8 then some groups else none
  | some (l, r) => do
    let l ← before l
    let r ← behind r
    if l.length + r.length < 8 then some (l ++ List.replicate (8 - (l.length + r.length)) 0 ++ r)
    else none

/-! ## Hexadecimal digits -/

theorem hexDigit_digitChar : ∀ v < 16, hexDigit (Nat.digitChar v) = some v := by decide

theorem digits_induction {P : Nat → Prop} (small : ∀ v < 16, P v)
    (large : ∀ v, 16 ≤ v → P (v / 16) → P v) (v : Nat) : P v := by
  induction v using Nat.strongRecOn with
  | ind v ih =>
    rcases Nat.lt_or_ge v 16 with hlt | hge
    · exact small v hlt
    · exact large v hge (ih _ (Nat.div_lt_self (by omega) (by decide)))

theorem hexNumber_toDigits (v : Nat) : hexNumber (Nat.toDigits 16 v) = some v := by
  induction v using digits_induction with
  | small v hlt =>
    rw [Nat.toDigits_of_lt_base hlt]
    simp [hexNumber, hexDigit_digitChar v hlt]
  | large v hge ih =>
    have hmod := hexDigit_digitChar (v % 16) (Nat.mod_lt v (by decide))
    unfold hexNumber at ih ⊢
    rw [Nat.toDigits_of_base_le (by decide) hge, List.foldlM_append, ih]
    simp [hmod]
    omega

theorem hexDigit_of_mem {v : Nat} {c : Char} (h : c ∈ Nat.toDigits 16 v) :
    (hexDigit c).isSome := by
  induction v using digits_induction with
  | small v hlt =>
    rw [Nat.toDigits_of_lt_base hlt, List.mem_singleton] at h
    rw [h, hexDigit_digitChar v hlt]
    rfl
  | large v hge ih =>
    rw [Nat.toDigits_of_base_le (by decide) hge, List.mem_append, List.mem_singleton] at h
    rcases h with h | h
    · exact ih h
    · rw [h, hexDigit_digitChar _ (Nat.mod_lt v (by decide))]
      rfl

theorem not_mem_toDigits {v : Nat} {c : Char} (h : hexDigit c = none) :
    c ∉ Nat.toDigits 16 v := by
  intro hmem
  have hsome := hexDigit_of_mem hmem
  rw [h] at hsome
  cases hsome

theorem hexGroup_toDigits {v : Nat} (h : v < 65536) : hexGroup (Nat.toDigits 16 v) = some v := by
  have hlen : (Nat.toDigits 16 v).length ≤ 4 :=
    (Nat.length_toDigits_le_iff (by decide) (by decide)).mpr h
  unfold hexGroup
  rw [if_pos ⟨Nat.toDigits_ne_nil, hlen⟩, hexNumber_toDigits]

/-! ## Groups between colons -/

/-- The groups in hexadecimal with colons between them. -/
def join (groups : List Nat) : List Char :=
  [':'].intercalate (groups.map (Nat.toDigits 16))

@[simp] theorem join_nil : join [] = [] := rfl

theorem join_singleton (v : Nat) : join [v] = Nat.toDigits 16 v := by
  unfold join
  rw [List.map_singleton, List.intercalate_singleton]

theorem join_cons {v : Nat} {vs : List Nat} (h : vs ≠ []) :
    join (v :: vs) = Nat.toDigits 16 v ++ ':' :: join vs := by
  unfold join
  rw [List.map_cons, List.intercalate_cons_of_ne_nil (by simpa using h), List.append_assoc,
    List.singleton_append]

theorem join_concat {vs : List Nat} (h : vs ≠ []) (v : Nat) :
    join (vs ++ [v]) = join vs ++ ':' :: Nat.toDigits 16 v := by
  induction vs with
  | nil => exact absurd rfl h
  | cons w vs ih =>
    by_cases hvs : vs = []
    · rw [hvs, List.singleton_append, join_cons (List.cons_ne_nil _ _), join_singleton,
        join_singleton]
    · rw [List.cons_append, join_cons (by simp), ih hvs, join_cons hvs, List.append_assoc,
        List.cons_append]

theorem join_ne_nil {vs : List Nat} (h : vs ≠ []) : join vs ≠ [] := by
  cases vs with
  | nil => exact absurd rfl h
  | cons v vs =>
    intro hnil
    by_cases hvs : vs = []
    · rw [hvs, join_singleton] at hnil
      exact Nat.toDigits_ne_nil hnil
    · rw [join_cons hvs] at hnil
      exact List.cons_ne_nil _ _ (List.append_eq_nil_iff.mp hnil).2

theorem splitOn_join {vs : List Nat} (h : vs ≠ []) :
    (join vs).splitOn ':' = vs.map (Nat.toDigits 16) := by
  refine List.splitOn_intercalate ':' ?_ (by simpa using h)
  intro t ht
  obtain ⟨v, -, rfl⟩ := List.mem_map.mp ht
  exact not_mem_toDigits (by decide)

theorem mapM_hexGroup {vs : List Nat} (h : ∀ v ∈ vs, v < 65536) :
    (vs.map (Nat.toDigits 16)).mapM hexGroup = some vs := by
  induction vs with
  | nil => rfl
  | cons v vs ih =>
    rw [List.map_cons, List.mapM_cons, hexGroup_toDigits (h v List.mem_cons_self),
      ih fun w hw => h w (List.mem_cons_of_mem _ hw)]
    rfl

theorem lastGroups_toDigits {vs : List Nat} (h : ∀ v ∈ vs, v < 65536) :
    lastGroups (vs.map (Nat.toDigits 16)) = some vs := by
  induction vs with
  | nil => rfl
  | cons v vs ih =>
    have hv := hexGroup_toDigits (h v List.mem_cons_self)
    have hvs := ih fun w hw => h w (List.mem_cons_of_mem _ hw)
    cases vs with
    | nil =>
      show ((hexGroup (Nat.toDigits 16 v)).map ([·])).or _ = _
      rw [hv]
      rfl
    | cons w vs =>
      show (do
        let v ← hexGroup (Nat.toDigits 16 v)
        let vs ← lastGroups ((w :: vs).map (Nat.toDigits 16))
        some (v :: vs)) = _
      rw [hv, hvs]
      rfl

theorem before_join {vs : List Nat} (h : ∀ v ∈ vs, v < 65536) : before (join vs) = some vs := by
  unfold before
  by_cases hvs : vs = []
  · rw [hvs, join_nil, if_pos rfl]
  · rw [if_neg (join_ne_nil hvs), splitOn_join hvs, mapM_hexGroup h]

theorem behind_join {vs : List Nat} (h : ∀ v ∈ vs, v < 65536) : behind (join vs) = some vs := by
  unfold behind
  by_cases hvs : vs = []
  · rw [hvs, join_nil, if_pos rfl]
  · rw [if_neg (join_ne_nil hvs), splitOn_join hvs, lastGroups_toDigits h]

/-! ## Two colons -/

/-- Two colons are not found in a text without colons. -/
theorem double_of_append {t u : List Char} (ht : ':' ∉ t) (h : [':', ':'] <:+: t ++ u) :
    [':', ':'] <:+: u := by
  induction t with
  | nil => exact h
  | cons c t ih =>
    rw [List.cons_append, List.infix_cons_iff] at h
    rcases h with h | h
    · exact absurd (List.cons_prefix_cons.mp h).1 fun hc => ht (hc ▸ List.mem_cons_self)
    · exact ih (fun hmem => ht (List.mem_cons_of_mem _ hmem)) h

/-- A group with a colon on each side has no two colons in a row, if what follows has none. -/
theorem double_of_group {v : Nat} {u : List Char}
    (h : [':', ':'] <:+: ':' :: (Nat.toDigits 16 v ++ ':' :: u)) : [':', ':'] <:+: ':' :: u := by
  have hcolon : ':' ∉ Nat.toDigits 16 v := not_mem_toDigits (by decide)
  rw [List.infix_cons_iff] at h
  rcases h with h | h
  · obtain ⟨c, t, hdigits⟩ := List.exists_cons_of_ne_nil (Nat.toDigits_ne_nil (n := v) (b := 16))
    rw [hdigits, List.cons_append] at h
    have hc := (List.cons_prefix_cons.mp (List.cons_prefix_cons.mp h).2).1
    exact absurd (hdigits ▸ hc ▸ List.mem_cons_self) hcolon
  · exact double_of_append hcolon h

/-- There are no two colons in a row in groups, not even with a colon on each side. -/
theorem no_double_join {vs : List Nat} (h : vs ≠ []) :
    ¬[':', ':'] <:+: ':' :: (join vs ++ [':']) := by
  induction vs with
  | nil => exact absurd rfl h
  | cons v vs ih =>
    intro hdouble
    by_cases hvs : vs = []
    · rw [hvs, join_singleton] at hdouble
      have hlen := (double_of_group hdouble).length_le
      exact absurd hlen (by decide)
    · rw [join_cons hvs, List.append_assoc, List.cons_append] at hdouble
      exact ih hvs (double_of_group hdouble)

/-- There are none in groups with a colon behind them. -/
theorem no_double_left (vs : List Nat) : ¬[':', ':'] <:+: join vs ++ [':'] := by
  intro h
  by_cases hvs : vs = []
  · rw [hvs] at h
    exact absurd h.length_le (by decide)
  · exact no_double_join hvs (h.trans (List.suffix_cons _ _).isInfix)

/-- There are none in groups with a colon before them. -/
theorem no_double_right (vs : List Nat) : ¬[':', ':'] <:+: ':' :: join vs := by
  intro h
  by_cases hvs : vs = []
  · rw [hvs] at h
    exact absurd h.length_le (by decide)
  · have hle : ':' :: join vs <+: ':' :: (join vs ++ [':']) :=
      List.cons_prefix_cons.mpr ⟨rfl, List.prefix_append _ _⟩
    exact no_double_join hvs (h.trans hle.isInfix)

theorem cut_of_no_double {t : List Char} (h : ¬[':', ':'] <:+: t) : cut t = none := by
  fun_induction cut t with
  | case1 t => exact absurd (List.prefix_append [':', ':'] t).isInfix h
  | case2 c t _ ih =>
    rw [ih fun hdouble => h (hdouble.trans (List.suffix_cons _ _).isInfix)]
    rfl
  | case3 => rfl

theorem cut_double {l : List Char} (r : List Char) (h : ¬[':', ':'] <:+: l ++ [':']) :
    cut (l ++ ':' :: ':' :: r) = some (l, r) := by
  induction l with
  | nil => rfl
  | cons c l ih =>
    have htail := ih fun hdouble => h (hdouble.trans (List.suffix_cons _ _).isInfix)
    rw [List.cons_append, cut.eq_def]
    split
    · rename_i t heq
      -- The first two characters are colons.
      refine absurd ?_ h
      cases l with
      | nil =>
        obtain ⟨rfl, -⟩ := List.cons.inj heq
        exact List.infix_rfl
      | cons d l =>
        obtain ⟨rfl, hd⟩ := List.cons.inj heq
        obtain ⟨rfl, -⟩ := List.cons.inj hd
        exact (List.prefix_append [':', ':'] _).isInfix
    · rename_i heq
      obtain ⟨rfl, rfl⟩ := List.cons.inj heq
      rw [htail]
      rfl
    · rename_i heq
      cases heq

/-! ## What is read -/

/-- Eight groups are read from their text. -/
theorem parse_join {vs : List Nat} (hlen : vs.length = 8) (h : ∀ v ∈ vs, v < 65536) :
    parse (join vs) = some vs := by
  have hne : vs ≠ [] := by
    rintro rfl
    cases hlen
  have hcut : cut (join vs) = none := cut_of_no_double fun hdouble =>
    no_double_left vs (hdouble.trans (List.prefix_append _ _).isInfix)
  unfold parse
  rw [hcut]
  show (do
    let groups ← lastGroups ((join vs).splitOn ':')
    if groups.length = 8 then some groups else none) = _
  rw [splitOn_join hne, lastGroups_toDigits h]
  exact if_pos hlen

/-- The groups around `::` are read with the zeros between them. -/
theorem parse_compressed {l r : List Nat} (hlen : l.length + r.length < 8)
    (hl : ∀ v ∈ l, v < 65536) (hr : ∀ v ∈ r, v < 65536) :
    parse (join l ++ ':' :: ':' :: join r) =
      some (l ++ List.replicate (8 - (l.length + r.length)) 0 ++ r) := by
  unfold parse
  rw [cut_double _ (no_double_left l)]
  show (do
    let l ← before (join l)
    let r ← behind (join r)
    if l.length + r.length < 8 then
      some (l ++ List.replicate (8 - (l.length + r.length)) 0 ++ r) else none) = _
  rw [before_join hl, behind_join hr]
  exact if_pos hlen

/-- There is one place of `::`. -/
theorem double_unique {l r : List Nat} {a b : List Char}
    (h : join l ++ ':' :: ':' :: join r = a ++ ':' :: ':' :: b) : a = join l := by
  rcases List.append_eq_append_iff.mp h with ⟨t, ha, ht⟩ | ⟨t, hl, ht⟩
  · cases t with
    | nil => rw [ha, List.append_nil]
    | cons c t =>
      -- The other place is further to the right.
      refine absurd ?_ (no_double_right r)
      rw [(List.cons.inj ht).2]
      exact ⟨t, b, by simp⟩
  · cases t with
    | nil => rw [hl, List.append_nil]
    | cons c t =>
      -- It is further to the left.
      refine absurd ?_ (no_double_left l)
      obtain ⟨rfl, htail⟩ := List.cons.inj ht
      rw [hl]
      cases t with
      | nil => exact ⟨a, [], by simp⟩
      | cons d t =>
        obtain ⟨rfl, -⟩ := List.cons.inj htail
        exact ⟨a, t ++ [':'], by simp⟩

end Rfc4291
