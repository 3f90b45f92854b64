import Captain.Log.Formatter
import Mathlib.Algebra.GroupWithZero.Nat
import Mathlib.Data.List.TakeWhile

/-!
# The parts of a pattern (`LogFormatter::init` in `captain/log.cpp`)

A pattern is made of characters, escapes `%%`, directives, and `%`s whose brace is not closed
(`Composed`; every pattern is, `exists_composed`). `pieces` is what they should come to.

* `escapes_iff`: `init` makes the items of the parts in order exactly when no part is an escape.
-/

namespace Captain

/-- `unclosed` is a `%` before a name whose brace is never closed. -/
inductive PatternPart
  | char (c : Char)
  | escape
  | directive (str fmt : List Char)
  | unclosed
  deriving DecidableEq, Repr

/-- A character that the name of a directive goes on with. -/
def nameChar (c : Char) : Bool := c.isAlpha || c = '}'

/-- The parts, one after the other, make up the pattern. -/
inductive Composed : List PatternPart → List Char → Prop
  | nil : Composed [] []
  | char {c : Char} {parts : List PatternPart} {p : List Char} (hc : c ≠ '%')
      (h : Composed parts p) : Composed (.char c :: parts) (c :: p)
  | escape {parts : List PatternPart} {p : List Char} (h : Composed parts p) :
      Composed (.escape :: parts) ('%' :: '%' :: p)
  | directive {str p : List Char} {parts : List PatternPart} (hstr : ∀ c ∈ str, nameChar c = true)
      (hnext : ∀ c ∈ p.head?, nameChar c = false ∧ c ≠ '{') (hne : str = [] → p.head? ≠ some '%')
      (h : Composed parts p) : Composed (.directive str [] :: parts) ('%' :: (str ++ p))
  | format {str fmt p : List Char} {parts : List PatternPart} (hstr : ∀ c ∈ str, nameChar c = true)
      (hfmt : '}' ∉ fmt) (h : Composed parts p) :
      Composed (.directive str fmt :: parts) ('%' :: (str ++ '{' :: (fmt ++ '}' :: p)))
  | unclosed {str fmt : List Char} {parts : List PatternPart} (hstr : ∀ c ∈ str, nameChar c = true)
      (hfmt : '}' ∉ fmt) (h : Composed parts (str ++ '{' :: fmt)) :
      Composed (.unclosed :: parts) ('%' :: (str ++ '{' :: fmt))

namespace LogFormatter

/-- The entries of the parts, after the literal text `nstr`. -/
def pieces : List PatternPart → List Char → List FormatPiece
  | [], nstr => flush nstr
  | .char c :: parts, nstr => pieces parts (nstr ++ [c])
  | .escape :: parts, nstr => pieces parts (nstr ++ ['%'])
  | .directive str fmt :: parts, nstr => flush nstr ++ .directive str fmt :: pieces parts []
  | .unclosed :: parts, nstr => .text "<<pattern_error>>".toList :: pieces parts nstr

def itemsOf (vec : List FormatPiece) : List FormatItem := vec.map fun piece => (toItem piece).1

/-- The items of the parts in order. -/
def items (parts : List PatternPart) : List FormatItem := itemsOf (pieces parts [])

/-! ## What the loops read -/

variable {str fmt p nstr : List Char} {parts : List PatternPart}

theorem nameChar_percent : nameChar '%' = false := by decide

theorem nameChar_brace : nameChar '{' = false := by decide

theorem scan_skip (l rest nstr : List Char) :
    scan (l ++ rest) l.length nstr = scan rest 0 nstr := by
  induction l with
  | nil => rfl
  | cons c l ih => exact ih

theorem scan_char {c : Char} (hc : c ≠ '%') (p nstr : List Char) :
    scan (c :: p) 0 nstr = scan p 0 (nstr ++ [c]) := by
  rw [scan, if_pos hc]

theorem scan_escape (p nstr : List Char) :
    scan ('%' :: '%' :: p) 0 nstr = scan ('%' :: p) 0 (nstr ++ ['%']) := by
  rw [scan, if_neg (not_not.mpr rfl), List.head?_cons, if_pos rfl]

/-- The name goes on. -/
theorem directiveName_append (hstr : ∀ c ∈ str, nameChar c = true) (acc rest : List Char) :
    directiveName acc (str ++ rest) = directiveName (acc ++ str) rest := by
  induction str generalizing acc with
  | nil => rw [List.append_nil, List.nil_append]
  | cons c str ih =>
    have hc := hstr c List.mem_cons_self
    have hgo : ¬(¬c.isAlpha = true ∧ c ≠ '{' ∧ c ≠ '}') := by
      rw [nameChar, Bool.or_eq_true, decide_eq_true_eq] at hc
      rintro ⟨halpha, -, hclose⟩
      exact hc.elim halpha hclose
    have hopen : c ≠ '{' := by
      rintro rfl
      rw [nameChar_brace] at hc
      cases hc
    rw [List.cons_append, directiveName, if_neg hgo, if_neg hopen,
      ih (fun c' hc' => hstr c' (List.mem_cons_of_mem c hc')), List.append_assoc]
    rfl

theorem directiveName_end (hnext : ∀ c ∈ p.head?, nameChar c = false ∧ c ≠ '{') (acc : List Char) :
    directiveName acc p = ⟨acc, [], acc.length, true⟩ := by
  cases p with
  | nil => rfl
  | cons c p =>
    obtain ⟨hname, hopen⟩ := hnext c rfl
    rw [nameChar, Bool.or_eq_false_iff, decide_eq_false_iff_not] at hname
    rw [directiveName, if_pos ⟨Bool.eq_false_iff.mp hname.1, hopen, hname.2⟩]

theorem directiveFormat_append (hfmt : '}' ∉ fmt) (str acc rest : List Char) :
    directiveFormat str acc (fmt ++ rest) = directiveFormat str (acc ++ fmt) rest := by
  induction fmt generalizing acc with
  | nil => rw [List.append_nil, List.nil_append]
  | cons c fmt ih =>
    obtain ⟨hc, hfmt⟩ := not_or.mp (mt List.mem_cons.mpr hfmt)
    rw [List.cons_append, directiveFormat, if_neg (Ne.symm hc), ih hfmt, List.append_assoc]
    rfl

theorem directiveName_brace (acc rest : List Char) :
    directiveName acc ('{' :: rest) = directiveFormat acc [] rest := by
  rw [directiveName, if_neg (by decide), if_pos rfl]

/-- No escape begins before a name. -/
theorem head_ne_percent (hstr : ∀ c ∈ str, nameChar c = true)
    (h : str = [] → p.head? ≠ some '%') : (str ++ p).head? ≠ some '%' := by
  cases str with
  | nil => exact h rfl
  | cons c str =>
    intro hhead
    have hc := hstr c List.mem_cons_self
    rw [Option.some.inj hhead, nameChar_percent] at hc
    cases hc

theorem scan_directive (hstr : ∀ c ∈ str, nameChar c = true)
    (hnext : ∀ c ∈ p.head?, nameChar c = false ∧ c ≠ '{') (hne : str = [] → p.head? ≠ some '%')
    (nstr : List Char) : scan ('%' :: (str ++ p)) 0 nstr =
      (flush nstr ++ .directive str [] :: (scan p 0 []).1, (scan p 0 []).2) := by
  have hfound : directiveName [] (str ++ p) = ⟨str, [], str.length, true⟩ := by
    rw [directiveName_append hstr, directiveName_end hnext, List.nil_append]
  rw [scan, if_neg (not_not.mpr rfl), if_neg (head_ne_percent hstr hne), hfound]
  dsimp only
  rw [if_pos rfl, scan_skip]

/-- A `%` at the end of the pattern is a directive without a name. -/
theorem scan_percent (nstr : List Char) :
    scan ['%'] 0 nstr = (flush nstr ++ [.directive [] []], false) := by
  have hscan := @scan_directive [] [] (fun _ hc => by cases hc) (fun _ hc => by cases hc)
    (fun _ hhead => by cases hhead) nstr
  rw [List.nil_append] at hscan
  exact hscan

theorem scan_format (hstr : ∀ c ∈ str, nameChar c = true) (hfmt : '}' ∉ fmt) (p nstr : List Char) :
    scan ('%' :: (str ++ '{' :: (fmt ++ '}' :: p))) 0 nstr =
      (flush nstr ++ .directive str fmt :: (scan p 0 []).1, (scan p 0 []).2) := by
  have hfound : directiveName [] (str ++ '{' :: (fmt ++ '}' :: p)) =
      ⟨str, fmt, str.length + fmt.length + 2, true⟩ := by
    rw [directiveName_append hstr, directiveName_brace, directiveFormat_append hfmt,
      directiveFormat, if_pos rfl, List.nil_append, List.nil_append]
  have hskip : scan (str ++ '{' :: (fmt ++ '}' :: p)) (str.length + fmt.length + 2) [] =
      scan p 0 [] := by
    have hlist : str ++ '{' :: (fmt ++ '}' :: p) = str ++ '{' :: fmt ++ ['}'] ++ p := by simp
    have hlen : str.length + fmt.length + 2 = (str ++ '{' :: fmt ++ ['}']).length := by
      simp only [List.length_append, List.length_cons, List.length_nil]
      omega
    rw [hlist, hlen, scan_skip]
  rw [scan, if_neg (not_not.mpr rfl), if_neg (head_ne_percent hstr fun _ => by simp), hfound]
  dsimp only
  rw [if_pos rfl, hskip]

theorem scan_unclosed (hstr : ∀ c ∈ str, nameChar c = true) (hfmt : '}' ∉ fmt)
    (nstr : List Char) : scan ('%' :: (str ++ '{' :: fmt)) 0 nstr =
      (.text "<<pattern_error>>".toList :: (scan (str ++ '{' :: fmt) 0 nstr).1, true) := by
  have hfound : directiveName [] (str ++ '{' :: fmt) = ⟨str, [], 0, false⟩ := by
    have hend := directiveFormat_append hfmt str [] []
    rw [List.append_nil, List.nil_append] at hend
    rw [directiveName_append hstr, directiveName_brace, List.nil_append, hend]
    rfl
  rw [scan, if_neg (not_not.mpr rfl), if_neg (head_ne_percent hstr fun _ => by simp), hfound]
  dsimp only
  rw [if_neg Bool.false_ne_true]

/-- Without escapes the entries are those of the parts. -/
theorem scan_composed (h : Composed parts p) (hno : .escape ∉ parts) (nstr : List Char) :
    scan p 0 nstr = (pieces parts nstr, decide (.unclosed ∈ parts)) := by
  induction h generalizing nstr with
  | nil => rfl
  | char hc _ ih =>
    rw [scan_char hc, ih (List.not_mem_of_not_mem_cons hno)]
    simp [pieces]
  | escape => exact absurd List.mem_cons_self hno
  | directive hstr hnext hne _ ih =>
    rw [scan_directive hstr hnext hne, ih (List.not_mem_of_not_mem_cons hno)]
    simp [pieces]
  | format hstr hfmt _ ih =>
    rw [scan_format hstr hfmt, ih (List.not_mem_of_not_mem_cons hno)]
    simp [pieces]
  | unclosed hstr hfmt _ ih =>
    rw [scan_unclosed hstr hfmt, ih (List.not_mem_of_not_mem_cons hno)]
    simp [pieces]

/-- What is behind a `%` that does not begin an escape. -/
inductive Behind (p : List Char) : Prop
  | directive (str rest : List Char) (heq : p = str ++ rest) (hstr : ∀ c ∈ str, nameChar c = true)
      (hnext : ∀ c ∈ rest.head?, nameChar c = false ∧ c ≠ '{')
      (hne : str = [] → rest.head? ≠ some '%')
  | format (str fmt rest : List Char) (heq : p = str ++ '{' :: (fmt ++ '}' :: rest))
      (hstr : ∀ c ∈ str, nameChar c = true) (hfmt : '}' ∉ fmt)
  | unclosed (str fmt : List Char) (heq : p = str ++ '{' :: fmt)
      (hstr : ∀ c ∈ str, nameChar c = true) (hfmt : '}' ∉ fmt)

theorem behind (h : p.head? ≠ some '%') : Behind p := by
  have hstr : ∀ c ∈ p.takeWhile nameChar, nameChar c = true := fun c hc =>
    List.mem_takeWhile_imp hc
  have heq : p = p.takeWhile nameChar ++ p.dropWhile nameChar :=
    List.takeWhile_append_dropWhile.symm
  cases hrest : p.dropWhile nameChar with
  | nil =>
    refine .directive _ [] (hrest ▸ heq) hstr (fun c hc => ?_) fun _ hhead => ?_
    · cases hc
    · cases hhead
  | cons c rest =>
    have hc : nameChar c = false := by
      have hhead := List.head?_dropWhile_not nameChar p
      rw [hrest] at hhead
      simpa using hhead
    by_cases hopen : c = '{'
    · rw [hopen] at hrest
      by_cases hclose : '}' ∈ rest
      · obtain ⟨fmt, q, hq, hfmt⟩ := List.eq_append_cons_of_mem hclose
        exact .format _ fmt q (hq ▸ hrest ▸ heq) hstr hfmt
      · exact .unclosed _ rest (hrest ▸ heq) hstr hclose
    · refine .directive _ (c :: rest) (hrest ▸ heq) hstr ?_ fun hnil hhead => h ?_
      · intro c' hc'
        cases hc'
        exact ⟨hc, hopen⟩
      · rw [heq, hnil, hrest]
        exact hhead

/-- Every pattern has parts. -/
theorem exists_composed (p : List Char) : ∃ parts, Composed parts p := by
  induction hn : p.length using Nat.strongRecOn generalizing p with
  | _ n ih =>
    subst hn
    cases p with
    | nil => exact ⟨[], .nil⟩
    | cons c p =>
      have hrest : ∀ q : List Char, q.length ≤ p.length → ∃ parts, Composed parts q := fun q hq =>
        ih q.length (Nat.lt_succ_of_le hq) q rfl
      by_cases hc : c = '%'
      · subst hc
        by_cases hesc : p.head? = some '%'
        · obtain ⟨q, rfl⟩ := List.head?_eq_some_iff.mp hesc
          obtain ⟨parts, h⟩ := hrest q (Nat.le_succ _)
          exact ⟨_, .escape h⟩
        · cases behind hesc with
          | directive str rest heq hstr hnext hne =>
            obtain ⟨parts, h⟩ := hrest rest (by rw [heq, List.length_append]; omega)
            subst heq
            exact ⟨_, .directive hstr hnext hne h⟩
          | format str fmt rest heq hstr hfmt =>
            obtain ⟨parts, h⟩ := hrest rest (by rw [heq]; simp; omega)
            subst heq
            exact ⟨_, .format hstr hfmt h⟩
          | unclosed str fmt heq hstr hfmt =>
            obtain ⟨parts, h⟩ := hrest p (Nat.le_refl _)
            subst heq
            exact ⟨_, .unclosed hstr hfmt h⟩
      · obtain ⟨parts, h⟩ := hrest p (Nat.le_refl _)
        exact ⟨_, .char hc h⟩

/-! ## The text that is printed -/

/-- The length of what is printed for an entry, and a little more. -/
def weight (vec : List FormatPiece) : Nat :=
  ((itemsOf vec).map fun
    | .string str => str.length + 1
    | .item _ _ => 2).sum

theorem weight_text (str : List Char) (vec : List FormatPiece) :
    weight (.text str :: vec) = str.length + 1 + weight vec := rfl

theorem length_of_formatItems {kind : FormatItemKind} (h : formatItems str = some kind) :
    str.length = 1 := by
  unfold formatItems at h
  split at h <;> first | rfl | cases h

theorem weight_directive (str fmt : List Char) : ∃ w, str.length < w ∧
    ∀ vec, weight (.directive str fmt :: vec) = w + weight vec := by
  unfold weight itemsOf
  cases hfind : formatItems str with
  | some kind =>
    refine ⟨2, by rw [length_of_formatItems hfind]; decide, fun vec => ?_⟩
    simp only [List.map_cons, List.sum_cons, toItem, hfind]
  | none =>
    refine ⟨("<<error_format %".toList ++ str ++ ">>".toList).length + 1, ?_, fun vec => ?_⟩
    · simp only [List.length_append]
      omega
    · simp only [List.map_cons, List.sum_cons, toItem, hfind]

theorem flush_of_ne (h : nstr ≠ []) : flush nstr = [.text nstr] := if_neg h

theorem weight_flush (nstr : List Char) (vec : List FormatPiece) :
    weight (flush nstr ++ vec) = weight (flush nstr) + weight vec := by
  unfold flush
  split
  · exact (Nat.zero_add _).symm
  · rw [List.singleton_append, weight_text, weight_text]
    rfl

theorem weight_flush_of_ne (h : nstr ≠ []) : weight (flush nstr) = nstr.length + 1 := by
  rw [flush_of_ne h]
  rfl

/-- Literal text that is pending counts as it is. -/
theorem weight_pieces (parts : List PatternPart) {a b : List Char} (ha : a ≠ []) (hb : b ≠ []) :
    weight (pieces parts a) + b.length = weight (pieces parts b) + a.length := by
  induction parts generalizing a b with
  | nil =>
    rw [pieces, pieces, weight_flush_of_ne ha, weight_flush_of_ne hb]
    omega
  | cons part parts ih =>
    have hone : ∀ c : Char, weight (pieces parts (a ++ [c])) + b.length =
        weight (pieces parts (b ++ [c])) + a.length := by
      intro c
      have hih := @ih (a ++ [c]) (b ++ [c]) (by simp) (by simp)
      rw [List.length_append, List.length_append] at hih
      omega
    cases part with
    | char c => exact hone c
    | escape => exact hone '%'
    | directive str fmt =>
      rw [pieces, pieces, weight_flush a, weight_flush b, weight_flush_of_ne ha,
        weight_flush_of_ne hb]
      omega
    | unclosed =>
      rw [pieces, pieces, weight_text, weight_text]
      have hih := ih ha hb
      omega

theorem weight_pieces_nil (parts : List PatternPart) (a : List Char) :
    weight (pieces parts a) ≤ weight (pieces parts []) + a.length + 1 := by
  by_cases ha : a = []
  · subst ha
    omega
  · induction parts with
    | nil =>
      rw [pieces, pieces, weight_flush_of_ne ha]
      omega
    | cons part parts ih =>
      have hone : ∀ c : Char, weight (pieces parts (a ++ [c])) ≤
          weight (pieces parts ([] ++ [c])) + a.length + 1 := by
        intro c
        have hmore := @weight_pieces parts (a ++ [c]) ([] ++ [c]) (by simp) (by simp)
        rw [List.length_append, List.length_append, List.length_nil] at hmore
        omega
      cases part with
      | char c => exact hone c
      | escape => exact hone '%'
      | directive str fmt =>
        rw [pieces, pieces, weight_flush a, weight_flush [], weight_flush_of_ne ha]
        omega
      | unclosed =>
        rw [pieces, pieces, weight_text, weight_text]
        omega

theorem weight_pieces_le (parts : List PatternPart) {a b : List Char} (ha : a ≠ [])
    (hle : a.length ≤ b.length) :
    weight (pieces parts a) + (b.length - a.length) = weight (pieces parts b) := by
  have hb : b ≠ [] := by
    rintro rfl
    exact ha (List.length_eq_zero_iff.mp (Nat.le_zero.mp hle))
  have hmore := weight_pieces parts ha hb
  omega

/-! ## A `%` too far -/

/-- No brace that is opened is closed. -/
def Open (p : List Char) : Prop := ∀ a b, p = a ++ '{' :: b → '}' ∉ b

theorem Open.of_append {l : List Char} (h : Open (l ++ p)) : Open p := by
  rintro a b rfl
  exact h (l ++ a) b (List.append_assoc ..).symm

theorem Open.not_format (h : Open (str ++ '{' :: (fmt ++ '}' :: p))) : False :=
  h _ _ rfl (List.mem_append_right fmt List.mem_cons_self)

theorem open_of_unclosed (hstr : ∀ c ∈ str, nameChar c = true) (hfmt : '}' ∉ fmt) :
    Open (str ++ '{' :: fmt) := by
  intro a b heq
  rcases List.append_eq_append_iff.mp heq with ⟨l, -, hl⟩ | ⟨l, rfl, hl⟩
  · cases l with
    | nil =>
      cases hl
      exact hfmt
    | cons c l =>
      rw [(List.cons.inj hl).2] at hfmt
      exact fun hb => hfmt (List.mem_append_right l (List.mem_cons_of_mem _ hb))
  · cases l with
    | nil =>
      cases hl
      exact hfmt
    | cons c l =>
      have hc := hstr c (List.mem_append_right a List.mem_cons_self)
      rw [← (List.cons.inj hl).1, nameChar_brace] at hc
      cases hc

/-- Text without `%` is literal text. -/
theorem composed_text (hstr : ∀ c ∈ str, c ≠ '%') (h : Composed parts (str ++ p)) :
    ∃ parts', Composed parts' p ∧ ∀ nstr, pieces parts nstr = pieces parts' (nstr ++ str) := by
  induction str generalizing parts with
  | nil => exact ⟨parts, h, fun nstr => by rw [List.append_nil]⟩
  | cons c str ih =>
    have hc := hstr c List.mem_cons_self
    rw [List.cons_append] at h
    generalize hq : str ++ p = q at h
    cases h with
    | char _ h =>
      subst hq
      obtain ⟨parts', hparts', heq⟩ := ih (fun c' hc' => hstr c' (List.mem_cons_of_mem c hc')) h
      refine ⟨parts', hparts', fun nstr => ?_⟩
      rw [pieces, heq, List.append_assoc]
      rfl
    | escape | directive | format | unclosed => exact absurd rfl hc

theorem ne_percent_of_nameChar (hstr : ∀ c ∈ str, nameChar c = true) : ∀ c ∈ str, c ≠ '%' := by
  rintro c hc rfl
  have hname := hstr '%' hc
  rw [nameChar_percent] at hname
  cases hname

/-- The loop has read the first `%` of an escape and stands before the second. -/
theorem weight_overrun (h : Composed parts p) (hopen : Open p)
    (hall : ∀ q parts, q.length ≤ p.length → Composed parts q → Open q → ∀ nstr,
      weight (pieces parts nstr) ≤ weight (scan q 0 nstr).1)
    {e m : List Char} (he : e ≠ []) (hle : e.length ≤ m.length) :
    weight (pieces parts e) ≤ weight (scan ('%' :: p) 0 m).1 := by
  have hm : m ≠ [] := by
    rintro rfl
    exact he (List.length_eq_zero_iff.mp (Nat.le_zero.mp hle))
  have hpercent : ∀ l : List Char, (l ++ ['%']).length = l.length + 1 := fun l => by simp
  have hne : ∀ l : List Char, l ++ ['%'] ≠ [] := fun l => by simp
  induction h generalizing e m with
  | nil =>
    rw [scan_percent, weight_flush, weight_flush_of_ne hm, pieces, weight_flush_of_ne he]
    omega
  | @char c parts p hc h =>
    have hcomposed : Composed (.char c :: parts) (c :: p) := .char hc h
    cases behind (p := c :: p) (by simpa using hc) with
    | directive str rest heq hstr hnext hno =>
      rw [heq] at hcomposed hopen
      obtain ⟨parts', hparts', hpieces⟩ := composed_text (ne_percent_of_nameChar hstr) hcomposed
      have hrest := hall rest parts' (by rw [heq, List.length_append]; omega) hparts'
        hopen.of_append []
      have hnil := weight_pieces_nil parts' (e ++ str)
      obtain ⟨w, hw, hweight⟩ := weight_directive str []
      rw [List.length_append] at hnil
      rw [hpieces, heq, scan_directive hstr hnext hno, weight_flush, weight_flush_of_ne hm, hweight]
      omega
    | format str fmt rest heq hstr hfmt =>
      rw [heq] at hopen
      exact hopen.not_format.elim
    | unclosed str fmt heq hstr hfmt =>
      have hrest := hall _ _ (Nat.le_refl _) hcomposed hopen m
      have hmore := weight_pieces_le (.char c :: parts) he hle
      rw [heq, scan_unclosed hstr hfmt, weight_text, ← heq]
      omega
  | escape h ih =>
    rw [scan_escape, scan_escape, pieces]
    refine ih (hopen.of_append (l := ['%', '%'])) (fun q parts hq => hall q parts ?_) (hne e) ?_
      (hne _)
    · exact Nat.le_trans hq (by rw [List.length_cons, List.length_cons]; omega)
    · rw [hpercent, hpercent, hpercent]
      omega
  | @directive str p parts hstr hnext hno h =>
    have hrest := hall p parts (by simp; omega) h (hopen.of_append (l := '%' :: str)) []
    obtain ⟨w, -, hweight⟩ := weight_directive str []
    rw [scan_escape, scan_directive hstr hnext hno, weight_flush, weight_flush_of_ne (hne m),
      pieces, weight_flush, weight_flush_of_ne he, hweight, hweight, hpercent]
    omega
  | format => exact (Open.of_append (l := ['%']) hopen).not_format.elim
  | @unclosed str fmt parts hstr hfmt h =>
    have hrest := hall _ parts (Nat.le_succ _) h (hopen.of_append (l := ['%'])) (m ++ ['%'])
    have hmore := weight_pieces_le parts (b := m ++ ['%']) he (by rw [hpercent]; omega)
    rw [scan_escape, scan_unclosed hstr hfmt, pieces, weight_text, weight_text]
    omega

/-- Where no brace is closed nothing is lost. -/
theorem weight_scan (h : Composed parts p) (hopen : Open p) (nstr : List Char) :
    weight (pieces parts nstr) ≤ weight (scan p 0 nstr).1 := by
  induction hn : p.length using Nat.strongRecOn generalizing p parts nstr with
  | _ n ih =>
    subst hn
    cases h with
    | nil => exact Nat.le_refl _
    | @char c parts p hc h =>
      rw [scan_char hc, pieces]
      exact ih p.length (Nat.lt_succ_self _) h (hopen.of_append (l := [c])) _ rfl
    | @escape parts p h =>
      rw [scan_escape, pieces]
      have hp : Open p := hopen.of_append (l := ['%', '%'])
      refine weight_overrun h hp (fun q parts' hq hq' hopen' nstr' => ?_) (by simp) (Nat.le_refl _)
      exact ih q.length (by rw [List.length_cons, List.length_cons]; omega) hq' hopen' nstr' rfl
    | @directive str p parts hstr hnext hno h =>
      have hlt : p.length < ('%' :: (str ++ p)).length := by
        rw [List.length_cons, List.length_append]
        omega
      have hrest := ih p.length hlt h (hopen.of_append (l := '%' :: str)) [] rfl
      obtain ⟨w, -, hweight⟩ := weight_directive str []
      rw [scan_directive hstr hnext hno, pieces, weight_flush, weight_flush, hweight, hweight]
      omega
    | format => exact (Open.of_append (l := ['%']) hopen).not_format.elim
    | @unclosed str fmt parts hstr hfmt h =>
      have hrest := ih _ (Nat.lt_succ_self _) h (hopen.of_append (l := ['%'])) nstr rfl
      rw [scan_unclosed hstr hfmt, pieces, weight_text, weight_text]
      omega

/-- Pending text comes first, but for the text of an error. -/
theorem pieces_head (parts : List PatternPart) (h : nstr ≠ []) :
    ∃ str vec, pieces parts nstr = .text str :: vec ∧
      (nstr <+: str ∨ str = "<<pattern_error>>".toList) := by
  induction parts generalizing nstr with
  | nil => exact ⟨nstr, [], flush_of_ne h, .inl (List.prefix_refl _)⟩
  | cons part parts ih =>
    have hone : ∀ c : Char, ∃ str vec, pieces parts (nstr ++ [c]) = .text str :: vec ∧
        (nstr <+: str ∨ str = "<<pattern_error>>".toList) := by
      intro c
      obtain ⟨str, vec, heq, hstr⟩ := @ih (nstr ++ [c]) (by simp)
      exact ⟨str, vec, heq, hstr.imp_left (List.prefix_append nstr [c]).trans⟩
    cases part with
    | char c => exact hone c
    | escape => exact hone '%'
    | directive str fmt =>
      refine ⟨nstr, .directive str fmt :: pieces parts [], ?_, .inl (List.prefix_refl _)⟩
      rw [pieces, flush_of_ne h]
      rfl
    | unclosed => exact ⟨_, _, rfl, .inr rfl⟩

theorem itemsOf_flush (h : nstr ≠ []) (vec : List FormatPiece) :
    itemsOf (flush nstr ++ vec) = .string nstr :: itemsOf vec := by
  rw [flush_of_ne h]
  rfl

theorem weight_congr {vec vec' : List FormatPiece} (h : itemsOf vec = itemsOf vec') :
    weight vec = weight vec' := by
  unfold weight
  rw [h]

/-- The literal text `m` is flushed where the parts have one `%` less, or go on with it. -/
theorem itemsOf_ne_of_char {c : Char} (hc : c ≠ '%') {e m : List Char} {d : Nat}
    (hm : m = e ++ List.replicate d '%') (he : '%' ∈ e) (vec : List FormatPiece) :
    itemsOf (flush m ++ vec) ≠ itemsOf (pieces (.char c :: parts) e) := by
  have hmem : '%' ∈ m := hm ▸ List.mem_append_left _ he
  obtain ⟨str, vec', heq, hstr⟩ := @pieces_head (e ++ [c]) parts (by simp)
  rw [itemsOf_flush (List.ne_nil_of_mem hmem), pieces, heq]
  intro h
  have hfirst : m = str := FormatItem.string.inj (List.cons.inj h).1
  rcases hstr with hprefix | rfl
  · rw [← hfirst, hm, List.prefix_append_right_inj] at hprefix
    have hhead := hprefix.subset List.mem_cons_self
    exact hc (List.eq_of_mem_replicate hhead)
  · rw [hfirst] at hmem
    exact absurd hmem (by decide)

/-- The loop stands before the second `%` of an escape, `e` being the text up to the first. -/
theorem itemsOf_overrun (h : Composed parts p) {e : List Char} (he : '%' ∈ e) (d : Nat) :
    itemsOf (scan ('%' :: p) 0 (e ++ List.replicate d '%')).1 ≠ itemsOf (pieces parts e) := by
  have hpercent : ∀ n, List.replicate n '%' ++ ['%'] = List.replicate (n + 1) '%' := fun n =>
    List.replicate_succ'.symm
  have hlonger : ∀ (e : List Char) n, e ++ List.replicate (n + 1) '%' ≠ e := fun e n heq => by
    have hlen := congrArg List.length heq
    rw [List.length_append, List.length_replicate] at hlen
    omega
  induction h generalizing e d with
  | nil =>
    have hm : e ++ List.replicate d '%' ≠ [] := List.ne_nil_of_mem (List.mem_append_left _ he)
    rw [scan_percent, itemsOf_flush hm, pieces, flush_of_ne (List.ne_nil_of_mem he)]
    intro heq
    exact absurd (List.cons.inj heq).2 (List.cons_ne_nil _ _)
  | @char c parts p hc h =>
    have hcomposed : Composed (.char c :: parts) (c :: p) := .char hc h
    cases behind (p := c :: p) (by simpa using hc) with
    | directive str rest heq hstr hnext hno =>
      rw [heq, scan_directive hstr hnext hno]
      exact itemsOf_ne_of_char hc rfl he _
    | format str fmt rest heq hstr hfmt =>
      rw [heq, scan_format hstr hfmt]
      exact itemsOf_ne_of_char hc rfl he _
    | unclosed str fmt heq hstr hfmt =>
      intro h
      have hweight := weight_congr h
      have hopen : Open (c :: p) := heq ▸ open_of_unclosed hstr hfmt
      have hrest := weight_scan hcomposed hopen (e ++ List.replicate d '%')
      have hmore := weight_pieces_le (.char c :: parts) (List.ne_nil_of_mem he)
        (List.prefix_append e (List.replicate d '%')).length_le
      rw [heq, scan_unclosed hstr hfmt, weight_text, ← heq] at hweight
      omega
  | escape h ih =>
    have htwo : e ++ List.replicate d '%' ++ ['%'] ++ ['%'] =
        e ++ ['%'] ++ List.replicate (d + 1) '%' := by
      rw [List.append_assoc e, hpercent, List.append_assoc e, hpercent, List.replicate_succ,
        List.append_cons]
    rw [scan_escape, scan_escape, pieces, htwo]
    exact ih (List.mem_append_left _ he) (d + 1)
  | directive hstr hnext hno h =>
    rw [scan_escape, scan_directive hstr hnext hno, List.append_assoc, hpercent,
      itemsOf_flush (List.ne_nil_of_mem (List.mem_append_left _ he)), pieces,
      itemsOf_flush (List.ne_nil_of_mem he)]
    exact fun heq => hlonger e d (FormatItem.string.inj (List.cons.inj heq).1)
  | format hstr hfmt h =>
    rw [scan_escape, scan_format hstr hfmt, List.append_assoc, hpercent,
      itemsOf_flush (List.ne_nil_of_mem (List.mem_append_left _ he)), pieces,
      itemsOf_flush (List.ne_nil_of_mem he)]
    exact fun heq => hlonger e d (FormatItem.string.inj (List.cons.inj heq).1)
  | @unclosed str fmt parts hstr hfmt h =>
    intro heq
    have hrest := weight_scan h (open_of_unclosed hstr hfmt) (e ++ List.replicate (d + 1) '%')
    have hmore := weight_pieces_le parts (List.ne_nil_of_mem he)
      (List.prefix_append e (List.replicate (d + 1) '%')).length_le
    rw [scan_escape, scan_unclosed hstr hfmt, pieces, List.append_assoc, hpercent] at heq
    have hweight := weight_congr heq
    rw [weight_text, weight_text] at hweight
    rw [List.length_append, List.length_replicate] at hmore
    omega

/-- With an escape the items are others. -/
theorem itemsOf_ne (h : Composed parts p) (hmem : .escape ∈ parts) (nstr : List Char) :
    itemsOf (scan p 0 nstr).1 ≠ itemsOf (pieces parts nstr) := by
  have hcancel : ∀ {nstr : List Char} {piece : FormatPiece} {vec vec' : List FormatPiece},
      itemsOf (flush nstr ++ piece :: vec) = itemsOf (flush nstr ++ piece :: vec') →
        itemsOf vec = itemsOf vec' := by
    intro nstr piece vec vec' heq
    unfold itemsOf at heq
    rw [List.map_append, List.map_append] at heq
    exact (List.cons.inj (List.append_cancel_left heq)).2
  induction h generalizing nstr with
  | nil => cases hmem
  | char hc h ih =>
    rw [scan_char hc, pieces]
    exact ih (List.mem_of_ne_of_mem (by simp) hmem) _
  | escape h =>
    rw [scan_escape, pieces]
    have hover := itemsOf_overrun h (List.mem_append_right nstr (List.mem_singleton_self '%')) 0
    rwa [List.replicate_zero, List.append_nil] at hover
  | directive hstr hnext hno h ih =>
    rw [scan_directive hstr hnext hno, pieces]
    exact fun heq => ih (List.mem_of_ne_of_mem (by simp) hmem) _ (hcancel heq)
  | format hstr hfmt h ih =>
    rw [scan_format hstr hfmt, pieces]
    exact fun heq => ih (List.mem_of_ne_of_mem (by simp) hmem) _ (hcancel heq)
  | unclosed hstr hfmt h ih =>
    rw [scan_unclosed hstr hfmt, pieces]
    exact fun heq => ih (List.mem_of_ne_of_mem (by simp) hmem) _ (List.cons.inj heq).2

theorem make_items (pattern : String) :
    (make pattern).m_items = itemsOf (scan pattern.toList 0 []).1 := rfl

/-- **Escapes.** The items that `init` makes of a pattern are those of its parts in order exactly
when no part is an escape. -/
theorem escapes_iff {pattern : String} (h : Composed parts pattern.toList) :
    (make pattern).m_items = items parts ↔ .escape ∉ parts := by
  rw [make_items]
  constructor
  · exact fun heq hmem => itemsOf_ne h hmem [] heq
  · intro hno
    rw [scan_composed h hno, items]

theorem composed_example : Composed [.char 'a', .directive ['m'] []] "a%m".toList :=
  have hname : ∀ c ∈ ['m'], nameChar c = true := fun c hc => by rw [List.mem_singleton.mp hc]; rfl
  have hdirective : Composed [.directive ['m'] []] ('%' :: (['m'] ++ [])) :=
    .directive hname (fun _ hc => by cases hc) (fun hnil => by cases hnil) .nil
  .char (by decide) hdirective

theorem escapes_iff_example : (make "a%m").m_items = items [.char 'a', .directive ['m'] []] :=
  (escapes_iff composed_example).mpr (by simp)

/-- The second `%` of `%%m` begins the directive `%m`. -/
theorem escape_begins_directive : ¬∀ (parts : List PatternPart) (pattern : String),
    Composed parts pattern.toList → (make pattern).m_items = items parts := by
  intro h
  exact absurd (h [.escape, .char 'm'] "%%m" (.escape (.char (by decide) .nil))) (by decide)

end LogFormatter

end Captain
