import Captain.Log.Pattern
import Mathlib.Data.List.Chain

/-!
# Patterns of literals and directives (`LogFormatter::init` in `captain/log.cpp`)

A list of literals and directives of the table, written one after the other.

* `init_segments`: `init` gets the list back, without an error; with an unknown directive or a brace
  that is not closed in the place of a directive it reports an error.
-/

namespace Captain

/-- The letter in `s_format_items`. -/
def FormatItemKind.letter : FormatItemKind → Char
  | .Message => 'm'
  | .Level => 'p'
  | .Elapse => 'r'
  | .Name => 'c'
  | .ThreadId => 't'
  | .NewLine => 'n'
  | .DateTime => 'd'
  | .Filename => 'f'
  | .Line => 'l'
  | .Tab => 'T'
  | .FiberId => 'F'
  | .ThreadName => 'N'

theorem formatItems_letter (kind : FormatItemKind) : formatItems [kind.letter] = some kind := by
  cases kind <;> rfl

inductive PatternSegment
  | literal (str : List Char)
  | directive (kind : FormatItemKind) (fmt : Option (List Char))
  deriving DecidableEq, Repr

namespace PatternSegment

def formatText : Option (List Char) → List Char
  | none => []
  | some fmt => '{' :: (fmt ++ ['}'])

/-- `%name`, or `%name{fmt}`. -/
def directiveText (name : List Char) (fmt : Option (List Char)) : List Char :=
  '%' :: (name ++ formatText fmt)

def text : PatternSegment → List Char
  | .literal str => str
  | .directive kind fmt => directiveText [kind.letter] fmt

def item : PatternSegment → FormatItem
  | .literal str => .string str
  | .directive kind fmt => .item kind (fmt.getD [])

def pattern (segs : List PatternSegment) : List Char := segs.flatMap text

/-- The second segment may follow the first. -/
def Follows : PatternSegment → PatternSegment → Prop
  | .literal _, .literal _ => False
  | .directive _ none, .literal str => ∀ c ∈ str.head?, c.isAlpha = false ∧ c ≠ '{' ∧ c ≠ '}'
  | _, _ => True

structure WellFormed (segs : List PatternSegment) : Prop where
  literals : ∀ str, .literal str ∈ segs → str ≠ [] ∧ '%' ∉ str
  formats : ∀ kind fmt, .directive kind (some fmt) ∈ segs → '}' ∉ fmt
  follows : segs.IsChain Follows

variable {segs : List PatternSegment} {seg : PatternSegment}

theorem WellFormed.of_append {post : List PatternSegment} (h : WellFormed (segs ++ post)) :
    WellFormed segs :=
  ⟨fun str hstr => h.literals str (List.mem_append_left post hstr),
    fun kind fmt hfmt => h.formats kind fmt (List.mem_append_left post hfmt),
    (List.isChain_append.mp h.follows).1⟩

theorem WellFormed.tail (h : WellFormed (seg :: segs)) : WellFormed segs :=
  ⟨fun str hstr => h.literals str (List.mem_cons_of_mem seg hstr),
    fun kind fmt hfmt => h.formats kind fmt (List.mem_cons_of_mem seg hfmt), h.follows.tail⟩

/-- What follows a directive without a format does not go on with its name. -/
theorem WellFormed.next {kind : FormatItemKind} (h : WellFormed (.directive kind none :: segs)) :
    ∀ c ∈ (pattern segs).head?, nameChar c = false ∧ c ≠ '{' := by
  intro c hc
  cases segs with
  | nil => cases hc
  | cons seg segs =>
    cases seg with
    | literal str =>
      obtain ⟨hne, -⟩ := h.tail.literals str List.mem_cons_self
      have hfollows : ∀ c ∈ str.head?, c.isAlpha = false ∧ c ≠ '{' ∧ c ≠ '}' := h.follows.rel
      have hhead : c ∈ str.head? := by
        rwa [pattern, List.flatMap_cons, text, List.head?_append_of_ne_nil _ hne] at hc
      obtain ⟨halpha, hopen, hclose⟩ := hfollows c hhead
      exact ⟨by rw [nameChar, halpha, decide_eq_false hclose]; rfl, hopen⟩
    | directive kind' fmt =>
      have hpercent : c = '%' := by
        cases fmt <;> exact (Option.some.inj hc).symm
      rw [hpercent]
      exact ⟨LogFormatter.nameChar_percent, by decide⟩

end PatternSegment

namespace LogFormatter

open PatternSegment

variable {segs : List PatternSegment} {p nstr : List Char}

theorem nameChar_letter (kind : FormatItemKind) : ∀ c ∈ [kind.letter], nameChar c = true := by
  intro c hc
  rw [List.mem_singleton.mp hc]
  cases kind <;> rfl

theorem scan_literal {str : List Char} (hstr : '%' ∉ str) (p nstr : List Char) :
    scan (str ++ p) 0 nstr = scan p 0 (nstr ++ str) := by
  induction str generalizing nstr with
  | nil => rw [List.append_nil, List.nil_append]
  | cons c str ih =>
    obtain ⟨hc, hstr⟩ := not_or.mp (mt List.mem_cons.mpr hstr)
    rw [List.cons_append, scan_char (Ne.symm hc), ih hstr, List.append_assoc]
    rfl

/-- A directive of the table, with what follows it. -/
theorem scan_segment {kind : FormatItemKind} {fmt : Option (List Char)}
    (hfmt : ∀ f ∈ fmt, '}' ∉ f)
    (hnext : fmt = none → ∀ c ∈ p.head?, nameChar c = false ∧ c ≠ '{') (nstr : List Char) :
    scan (directiveText [kind.letter] fmt ++ p) 0 nstr =
      (flush nstr ++ .directive [kind.letter] (fmt.getD []) :: (scan p 0 []).1,
        (scan p 0 []).2) := by
  cases fmt with
  | none =>
    exact scan_directive (nameChar_letter kind) (hnext rfl) (fun h => nomatch h) nstr
  | some f =>
    have htext : directiveText [kind.letter] (some f) ++ p =
        '%' :: ([kind.letter] ++ '{' :: (f ++ '}' :: p)) := by simp [directiveText, formatText]
    rw [htext, scan_format (nameChar_letter kind) (hfmt f rfl)]
    rfl

theorem toItem_segment (kind : FormatItemKind) (fmt : Option (List Char)) :
    toItem (.directive [kind.letter] (fmt.getD [])) = ((directive kind fmt).item, false) := by
  unfold toItem
  dsimp only
  rw [formatItems_letter]
  rfl

/-- **Run lemma.** The list is read back, after literal text only in front of a directive. -/
theorem scan_segments (h : WellFormed segs) (nstr : List Char)
    (hnstr : nstr ≠ [] → ∀ str, segs.head? ≠ some (.literal str)) :
    (scan (pattern segs) 0 nstr).1.map toItem =
        (flush nstr).map toItem ++ segs.map (fun seg => (seg.item, false)) ∧
      (scan (pattern segs) 0 nstr).2 = false := by
  induction segs generalizing nstr with
  | nil => exact ⟨(List.append_nil _).symm, rfl⟩
  | cons seg segs ih =>
    rw [pattern, List.flatMap_cons, ← pattern]
    cases seg with
    | literal str =>
      have hnil : nstr = [] := by
        by_contra hne
        exact hnstr hne str rfl
      obtain ⟨hne, hpercent⟩ := h.literals str List.mem_cons_self
      have hnext : ∀ str', segs.head? ≠ some (.literal str') := by
        intro str' hhead
        obtain ⟨rest, rfl⟩ := List.head?_eq_some_iff.mp hhead
        exact h.follows.rel
      obtain ⟨hitems, herror⟩ := ih h.tail str fun _ => hnext
      rw [text, scan_literal hpercent, hnil, List.nil_append, hitems, flush_of_ne hne]
      exact ⟨rfl, herror⟩
    | directive kind fmt =>
      have hfmt : ∀ f ∈ fmt, '}' ∉ f := by
        rintro f rfl
        exact h.formats kind f List.mem_cons_self
      have hnext : fmt = none → ∀ c ∈ (pattern segs).head?, nameChar c = false ∧ c ≠ '{' := by
        rintro rfl
        exact h.next
      obtain ⟨hitems, herror⟩ := ih h.tail [] fun hne => absurd rfl hne
      rw [text, scan_segment hfmt hnext, List.map_append, List.map_cons, hitems, toItem_segment]
      exact ⟨rfl, herror⟩

/-! ## Errors -/

/-- `m_error` is set. -/
def Failed (read : List FormatPiece × Bool) : Prop :=
  (read.2 || read.1.any fun piece => (toItem piece).2) = true

theorem Failed.append {read : List FormatPiece × Bool} (h : Failed read) (vec : List FormatPiece) :
    Failed (vec ++ read.1, read.2) := by
  unfold Failed at h ⊢
  rw [Bool.or_eq_true] at h ⊢
  refine h.imp_right fun hany => ?_
  rw [List.any_append, hany, Bool.or_true]

/-- An error behind the segments is an error of the pattern. -/
theorem failed_append (h : WellFormed segs) (hp : p.head? = some '%')
    (hfailed : ∀ nstr, Failed (scan p 0 nstr)) (nstr : List Char) :
    Failed (scan (pattern segs ++ p) 0 nstr) := by
  induction segs generalizing nstr with
  | nil => exact hfailed nstr
  | cons seg segs ih =>
    rw [pattern, List.flatMap_cons, ← pattern, List.append_assoc]
    cases seg with
    | literal str =>
      rw [text, scan_literal (h.literals str List.mem_cons_self).2]
      exact ih h.tail _
    | directive kind fmt =>
      have hfmt : ∀ f ∈ fmt, '}' ∉ f := by
        rintro f rfl
        exact h.formats kind f List.mem_cons_self
      have hnext : fmt = none →
          ∀ c ∈ (pattern segs ++ p).head?, nameChar c = false ∧ c ≠ '{' := by
        rintro rfl c hc
        cases hsegs : pattern segs with
        | nil =>
          rw [hsegs, List.nil_append, hp] at hc
          rw [← Option.some.inj hc]
          exact ⟨nameChar_percent, by decide⟩
        | cons c' rest =>
          rw [hsegs] at hc
          exact h.next c (by rw [hsegs]; exact hc)
      rw [text, scan_segment hfmt hnext]
      have hrest := (ih h.tail []).append
        (flush nstr ++ [.directive [kind.letter] (fmt.getD [])])
      rwa [List.append_assoc] at hrest

/-- A name that begins with one that is not in the table is not there. -/
theorem formatItems_append {name : List Char} (hne : name ≠ [])
    (hname : formatItems name = none) (l : List Char) : formatItems (name ++ l) = none := by
  cases l with
  | nil => rwa [List.append_nil]
  | cons c l =>
    rw [Option.eq_none_iff_forall_ne_some]
    intro kind hkind
    have hlen := length_of_formatItems hkind
    have hpos := List.length_pos_iff.mpr hne
    simp only [List.length_append, List.length_cons] at hlen
    omega

/-- The name that is read begins with the name that is written. -/
theorem exists_name_append {name str rest : List Char} (hname : ∀ c ∈ name, nameChar c = true)
    (heq : name ++ p = str ++ rest) (hrest : ∀ c ∈ rest.head?, nameChar c = false) :
    ∃ l, str = name ++ l := by
  rcases List.append_eq_append_iff.mp heq with ⟨l, hl, -⟩ | ⟨l, rfl, hl⟩
  · exact ⟨l, hl⟩
  · cases l with
    | nil => exact ⟨[], by rw [List.append_nil, List.append_nil]⟩
    | cons c l =>
      have hc := hrest c (hl ▸ rfl)
      rw [hname c (List.mem_append_right str List.mem_cons_self)] at hc
      cases hc

/-- A directive that has no name is one only before a character that is neither a `%` nor one of a
name. -/
def Named (name p : List Char) : Prop :=
  name = [] → ∀ c ∈ p.head?, nameChar c = false ∧ c ≠ '%'

theorem failed_unknown {name : List Char} (hname : ∀ c ∈ name, nameChar c = true)
    (hunknown : formatItems name = none) (hne : Named name p) (nstr : List Char) :
    Failed (scan ('%' :: (name ++ p)) 0 nstr) := by
  have hdirective : ∀ {str fmt : List Char} {vec : List FormatPiece} {error : Bool},
      formatItems str = none → Failed (flush nstr ++ .directive str fmt :: vec, error) := by
    intro str fmt vec error hstr
    unfold Failed
    have hitem : (toItem (.directive str fmt)).2 = true := by
      unfold toItem
      dsimp only
      rw [hstr]
    rw [List.any_append, List.any_cons, hitem, Bool.true_or, Bool.or_true, Bool.or_true]
  have hhead : (name ++ p).head? ≠ some '%' := head_ne_percent hname fun hnil hhead =>
    (hne hnil '%' hhead).2 rfl
  -- The name that is read is not in the table either.
  have hread : ∀ {str rest : List Char}, (∀ c ∈ str, nameChar c = true) → name ++ p = str ++ rest →
      (∀ c ∈ rest.head?, nameChar c = false) → formatItems str = none := by
    intro str rest hstr heq hrest
    by_cases hnil : name = []
    · subst hnil
      cases str with
      | nil => rfl
      | cons c str =>
        have hc := (hne rfl c (by rw [← List.nil_append p, heq]; rfl)).1
        rw [hstr c List.mem_cons_self] at hc
        cases hc
    · obtain ⟨l, rfl⟩ := exists_name_append hname heq hrest
      exact formatItems_append hnil hunknown l
  cases behind hhead with
  | directive str rest heq hstr hnext hno =>
    rw [heq, scan_directive hstr hnext hno]
    exact hdirective (hread hstr heq fun c hc => (hnext c hc).1)
  | format str fmt rest heq hstr hfmt =>
    have hbrace : ∀ c ∈ ('{' :: (fmt ++ '}' :: rest)).head?, nameChar c = false := by
      intro c hc
      cases hc
      exact nameChar_brace
    rw [heq, scan_format hstr hfmt]
    exact hdirective (hread hstr heq hbrace)
  | unclosed str fmt heq hstr hfmt =>
    rw [heq, scan_unclosed hstr hfmt]
    rfl

theorem failed_unclosed {name fmt : List Char} (hname : ∀ c ∈ name, nameChar c = true)
    (hfmt : '}' ∉ fmt) (nstr : List Char) : Failed (scan ('%' :: (name ++ '{' :: fmt)) 0 nstr) := by
  rw [scan_unclosed hname hfmt]
  rfl

theorem make_m_error (p : List Char) :
    (make (String.ofList p)).m_error = true ↔ Failed (scan p 0 []) := by
  unfold make Failed
  rw [String.toList_ofList]

/-- **Patterns of literals and directives.** A list of segments is what `init` makes of it, without
an error. If a directive of the list is replaced by one that is not in the table, or by one whose
brace is not closed in what follows, `init` reports an error. -/
theorem init_segments (h : WellFormed segs) :
    (make (String.ofList (pattern segs))).m_error = false ∧
    (make (String.ofList (pattern segs))).m_items = segs.map PatternSegment.item ∧
    ∀ pre kind fmt post, segs = pre ++ .directive kind fmt :: post →
      (∀ name fmt', (∀ c ∈ name, nameChar c = true) → formatItems name = none →
        Named name (formatText fmt' ++ pattern post) →
        (make (String.ofList
          (pattern pre ++ directiveText name fmt' ++ pattern post))).m_error = true) ∧
      ∀ name fmt', (∀ c ∈ name, nameChar c = true) → '}' ∉ fmt' ++ pattern post →
        (make (String.ofList
          (pattern pre ++ '%' :: (name ++ '{' :: fmt') ++ pattern post))).m_error = true := by
  obtain ⟨hitems, herror⟩ := scan_segments h [] fun hne => absurd rfl hne
  refine ⟨?_, ?_, ?_⟩
  · have hany : ((scan (pattern segs) 0 []).1.map toItem).any Prod.snd = false := by
      rw [hitems]
      simp [flush]
    rw [List.any_map] at hany
    rw [← Bool.not_eq_true, make_m_error, Failed, herror, Bool.false_or]
    exact Bool.eq_false_iff.mp hany
  · have hfst := congrArg (List.map Prod.fst) hitems
    rw [List.map_map, List.map_append, List.map_map, List.map_map] at hfst
    rw [make_items, String.toList_ofList]
    calc itemsOf (scan (pattern segs) 0 []).1
        = List.map (Prod.fst ∘ fun seg => (seg.item, false)) segs := hfst
      _ = segs.map item := rfl
  · rintro pre kind fmt post rfl
    have hpre : WellFormed pre := h.of_append
    refine ⟨fun name fmt' hname hunknown hne => ?_, fun name fmt' hname hfmt => ?_⟩
    · rw [make_m_error, directiveText, List.append_assoc, List.cons_append, List.append_assoc]
      exact failed_append hpre rfl (failed_unknown hname hunknown hne) []
    · rw [make_m_error, List.append_assoc, List.cons_append, List.append_assoc, List.cons_append]
      exact failed_append hpre rfl (failed_unclosed hname hfmt) []

/-- `"a%m%d{%H}"`. -/
theorem wellFormed_example :
    WellFormed
      [.literal ['a'], .directive .Message none, .directive .DateTime (some ['%', 'H'])] where
  literals := by simp
  formats := by simp
  follows := .cons_cons trivial (.cons_cons trivial (.singleton _))

theorem init_segments_example :
    (make "a%m%d{%H}").m_items =
      [.string ['a'], .item .Message [], .item .DateTime ['%', 'H']] :=
  (init_segments wellFormed_example).2.1

end LogFormatter

end Captain
