import Captain.Http.Parser
import Captain.Segments
import Captain.Transition

/-!
# The elements of a request

`Machine.walk` runs the automaton over a text and keeps, for every action, the positions at which
the marks stood. The text has come in segments; an element that begins before the segment in which
it ends is seen from that segment on only (`Report.apply`), since the marks are offsets into a
buffer that holds no more. `scan_walk` is how `http_parser_execute` runs over one segment.
-/

namespace Captain.Http

/-- The positions of the last marks: `name_start` and `name_end` are where `field_start` stood and
where `write_field` came. -/
structure Marks where
  mark : Nat := 0
  field_start : Nat := 0
  name_start : Nat := 0
  name_end : Nat := 0
  query_start : Option Nat := none

namespace Marks

def act (p : Nat) (k : Marks) : Action → Marks
  | .mark | .start_value => { k with mark := p }
  | .start_field => { k with field_start := p }
  | .write_field => { k with name_start := k.field_start, name_end := p }
  | .start_query => { k with query_start := some p }
  | _ => k

def acts (p : Nat) (k : Marks) (as : List Action) : Marks := as.foldl (act p) k

/-- The length of the name for a segment that begins at `o`. -/
def flen (k : Marks) (o : Nat) : Nat :=
  if o ≤ k.name_end then k.name_end - max k.name_start o else 0

/-- No mark lies after the position `p`. -/
structure Below (k : Marks) (p : Nat) : Prop where
  mark : k.mark ≤ p
  field_start : k.field_start ≤ p
  name_end : k.name_end ≤ p
  query_start : ∀ q ∈ k.query_start, q ≤ p

end Marks

/-- An action at the position `pos`. -/
structure Report where
  action : Action
  marks : Marks
  pos : Nat

namespace Report

/-- Where the element begins that the action hands over. -/
def starts (r : Report) : List Nat :=
  match r.action with
  | .write_value => [r.marks.mark, r.marks.field_start, r.marks.name_start, r.marks.name_end]
  | .query_string => r.marks.query_start.toList
  | .request_method | .fragment | .http_version | .request_path => [r.marks.mark]
  | _ => []

/-- What the action makes of `text` if the segment that holds a position begins at its `origin`. A
name whose end lies in an earlier segment has no length, and a query keeps the offset that it had in
the segment in which it begins. -/
def apply (text : Bytes) (origin : Nat → Nat) (t : Target) (r : Report) : Option Target :=
  let o := origin r.pos
  let mark := max r.marks.mark o
  match r.action with
  | .write_value =>
    let field_start := max r.marks.field_start o
    let flen := r.marks.flen o
    if field_start + flen ≤ r.pos then
      some (t.on_request_http_field (text.drop field_start) flen (text.drop mark) (r.pos - mark))
    else none
  | .request_method => some (t.on_request_method (text.drop mark))
  | .fragment => some (t.on_request_fragment (text.drop mark) (r.pos - mark))
  | .query_string =>
    match r.marks.query_start with
    | none => none
    | some q =>
      let start := o + (q - origin q)
      if start ≤ r.pos then some (t.on_request_query (text.drop start) (r.pos - start)) else none
  | .http_version => some (t.on_request_version (text.drop mark) (r.pos - mark))
  | .request_path => some (t.on_request_path (text.drop mark) (r.pos - mark))
  | _ => some t

theorem apply_keeps {text : Bytes} {origin : Nat → Nat} {t t' : Target} {r : Report}
    (h : r.apply text origin t = some t') : t.Keeps t' := by
  unfold apply at h
  dsimp only at h
  split at h
  · split at h
    · cases h
      apply Target.keeps_http_field
    · cases h
  · cases h
    apply Target.keeps_method
  · cases h
    exact ⟨id, rfl⟩
  · split at h
    · cases h
    · split at h
      · cases h
        exact ⟨id, rfl⟩
      · cases h
  · cases h
    apply Target.keeps_version
  · cases h
    exact ⟨id, rfl⟩
  · cases h
    exact Target.Keeps.refl t

theorem applyAll_keeps {text : Bytes} {origin : Nat → Nat} {rs : List Report} {t t' : Target}
    (h : rs.foldlM (apply text origin) t = some t') : t.Keeps t' :=
  Transition.foldlM_invariant (I := t.Keeps)
    (fun _ _ _ hkeeps hr => hkeeps.trans (apply_keeps hr)) h (Target.Keeps.refl t)

def ofActions (p : Nat) (k : Marks) : List Action → List Report
  | [] => []
  | a :: as => ⟨a, k, p⟩ :: ofActions p (k.act p a) as

end Report

/-- A run of the automaton over a text: what it reports, the marks it leaves, where it stops and in
which state, and whether it is done. -/
structure Walk (M : Machine) where
  reports : List Report
  marks : Marks
  stop : Nat
  cs : Option M.State
  done : Bool

namespace Machine

variable (M : Machine)

def walk : Marks → Nat → M.State → Bytes → Walk M
  | k, p, s, [] => ⟨[], k, p, some s, false⟩
  | k, p, s, b :: rest =>
    match M.step s b with
    | none => ⟨[], k, p, none, false⟩
    | some m =>
      if m.done then
        ⟨Report.ofActions p k m.actions, k.acts p m.actions, p + 1, some m.target, true⟩
      else
        let w := walk (k.acts p m.actions) (p + 1) m.target rest
        { w with reports := Report.ofActions p k m.actions ++ w.reports }

/-- The run over a whole request. -/
def run (text : Bytes) : Walk M := M.walk {} 0 M.start text

/-- The request that the elements of `text` make if it comes in these segments, `none` if one of
them is refused. -/
def read (text : Bytes) (segments : List Bytes) : Option HttpRequest :=
  ((M.run text).reports.foldlM (Report.apply text (Segments.origin segments)) {}).bind fun t =>
    if t.m_error = 0 then some t.m_data else none

end Machine

/-! ## The parser on one segment -/

variable {M : Machine}

/-- The marks of the parser are those of the automaton, from the segment's first position `o` on. -/
structure Tracks (origin : Nat → Nat) (o : Nat) (parser : HttpParser M) (k : Marks) : Prop where
  mark : o + parser.mark = max k.mark o
  field_start : o + parser.field_start = max k.field_start o
  field_len : parser.field_len = k.flen o
  query_start : parser.query_start = k.query_start.map fun q => q - origin q

/-- `http_parser_execute` resets the marks, which then all lie before the segment. -/
theorem Tracks.reset {origin : Nat → Nat} {o : Nat} {parser : HttpParser M} {k : Marks}
    (hk : k.Below o) (hquery : parser.query_start = k.query_start.map fun q => q - origin q) :
    Tracks origin o { parser with mark := 0, field_len := 0, field_start := 0 } k where
  mark := (Nat.max_eq_right hk.mark).symm
  field_start := (Nat.max_eq_right hk.field_start).symm
  field_len := by
    unfold Marks.flen
    split
    · rename_i hle
      have hname := hk.name_end
      have hzero : k.name_end - max k.name_start o = 0 := by omega
      exact hzero.symm
    · rfl
  query_start := hquery

/-- What a segment's buffer and the text have in common. -/
def Agree (text : Bytes) (o : Nat) (buffer : Bytes) : Prop :=
  ∀ n, n ≤ buffer.length → o + n ≤ text.length → (text.drop o).take n = buffer.take n

theorem Agree.take_drop {text buffer : Bytes} {o : Nat} (h : Agree text o buffer) {i n : Nat}
    (hbuffer : i + n ≤ buffer.length) (htext : o + (i + n) ≤ text.length) :
    (text.drop (o + i)).take n = (buffer.drop i).take n := by
  have heq := congrArg (List.drop i) (h (i + n) hbuffer htext)
  rw [List.drop_take, List.drop_take, List.drop_drop, Nat.add_sub_cancel_left] at heq
  exact heq

namespace Marks

theorem Below.mono {k : Marks} {p q : Nat} (h : k.Below p) (hle : p ≤ q) : k.Below q :=
  ⟨h.mark.trans hle, h.field_start.trans hle, h.name_end.trans hle,
    fun q hq => (h.query_start q hq).trans hle⟩

theorem Below.act {k : Marks} {p : Nat} (h : k.Below p) (a : Action) : (k.act p a).Below p := by
  obtain ⟨hmark, hfield, hname, hquery⟩ := h
  have hquery' : ∀ q ∈ (k.act p a).query_start, q ≤ p := by
    cases a with
    | start_query =>
      intro q hq
      cases hq
      exact Nat.le_refl p
    | _ => exact hquery
  refine ⟨?_, ?_, ?_, hquery'⟩ <;> cases a <;> simp only [Marks.act] <;> omega

theorem Below.zero : ({} : Marks).Below 0 :=
  ⟨Nat.le_refl 0, Nat.le_refl 0, Nat.le_refl 0, nofun⟩

theorem Below.acts {k : Marks} {p : Nat} (h : k.Below p) (as : List Action) :
    (k.acts p as).Below p := by
  induction as generalizing k with
  | nil => exact h
  | cons a as ih => exact ih (h.act a)

end Marks

section

variable {origin : Nat → Nat} {o p : Nat} {parser : HttpParser M} {k : Marks} {text buffer : Bytes}

theorem Tracks.act (h : Tracks origin o parser k) (hagree : Agree text o buffer)
    (horigin : origin (o + p) = o) (hp : p < buffer.length) (htext : o + p < text.length)
    (hmark : k.mark ≤ o + p) {a : Action} (hmethod : a = .request_method → buffer[p]? = some 32)
    (t : Target) :
    ∃ parser', Tracks origin o parser' (k.act (o + p) a) ∧
      HttpParser.act buffer p (parser, t) a =
        (Report.apply text origin t ⟨a, k, o + p⟩).map fun t' => (parser', t') := by
  have hrel : parser.mark ≤ p := by
    have heq := h.mark
    omega
  have htake : (text.drop (o + parser.mark)).take (p - parser.mark) =
      (buffer.drop parser.mark).take (p - parser.mark) :=
    hagree.take_drop (by omega) (by omega)
  have hlen : o + p - (o + parser.mark) = p - parser.mark := Nat.add_sub_add_left o p parser.mark
  cases a with
  | mark =>
    exact ⟨{ parser with mark := p }, ⟨(Nat.max_eq_left (Nat.le_add_right o p)).symm, h.field_start,
      h.field_len, h.query_start⟩, rfl⟩
  | start_value =>
    exact ⟨{ parser with mark := p }, ⟨(Nat.max_eq_left (Nat.le_add_right o p)).symm, h.field_start,
      h.field_len, h.query_start⟩, rfl⟩
  | start_field =>
    exact ⟨{ parser with field_start := p }, ⟨h.mark,
      (Nat.max_eq_left (Nat.le_add_right o p)).symm, h.field_len, h.query_start⟩, rfl⟩
  | write_field =>
    refine ⟨{ parser with field_len := p - parser.field_start },
      ⟨h.mark, h.field_start, ?_, h.query_start⟩, rfl⟩
    have heq := h.field_start
    show p - parser.field_start = if o ≤ o + p then o + p - max k.field_start o else 0
    rw [if_pos (Nat.le_add_right o p), ← heq, Nat.add_sub_add_left]
  | start_query =>
    refine ⟨{ parser with query_start := some p }, ⟨h.mark, h.field_start, h.field_len, ?_⟩, rfl⟩
    show some p = some (o + p - origin (o + p))
    rw [horigin, Nat.add_sub_cancel_left]
  | request_uri => exact ⟨parser, ⟨h.mark, h.field_start, h.field_len, h.query_start⟩, rfl⟩
  | xml => exact ⟨parser, ⟨h.mark, h.field_start, h.field_len, h.query_start⟩, rfl⟩
  | json => exact ⟨parser, ⟨h.mark, h.field_start, h.field_len, h.query_start⟩, rfl⟩
  | write_value =>
    refine ⟨parser, ⟨h.mark, h.field_start, h.field_len, h.query_start⟩, ?_⟩
    simp only [HttpParser.act, Report.apply, horigin]
    rw [← h.field_len, ← h.field_start, ← h.mark, hlen]
    by_cases hname : parser.field_start + parser.field_len ≤ p
    · have hfield : (text.drop (o + parser.field_start)).take parser.field_len =
          (buffer.drop parser.field_start).take parser.field_len :=
        hagree.take_drop (by omega) (by omega)
      rw [if_pos hname, if_pos (by omega)]
      unfold Target.on_request_http_field
      rw [htake, hfield]
      rfl
    · rw [if_neg hname, if_neg (by omega)]
      rfl
  | request_method =>
    refine ⟨parser, ⟨h.mark, h.field_start, h.field_len, h.query_start⟩, ?_⟩
    have hspace : (buffer.drop parser.mark)[p - parser.mark]? = some 32 := by
      rw [List.getElem?_drop, Nat.add_sub_cancel' hrel]
      exact hmethod rfl
    have hmore : (buffer.drop parser.mark).take (p - parser.mark + 1) =
        (text.drop (o + parser.mark)).take (p - parser.mark + 1) :=
      (hagree.take_drop (by omega) (by omega)).symm
    simp only [HttpParser.act, Report.apply, horigin]
    rw [← h.mark]
    unfold Target.on_request_method
    rw [CharsToHttpMethod_congr hmore hspace]
    rfl
  | fragment =>
    refine ⟨parser, ⟨h.mark, h.field_start, h.field_len, h.query_start⟩, ?_⟩
    simp only [HttpParser.act, Report.apply, horigin]
    rw [← h.mark, hlen]
    unfold Target.on_request_fragment
    rw [htake]
    rfl
  | query_string =>
    refine ⟨parser, ⟨h.mark, h.field_start, h.field_len, h.query_start⟩, ?_⟩
    simp only [HttpParser.act, Report.apply, horigin]
    rw [h.query_start]
    cases k.query_start with
    | none => rfl
    | some q =>
      dsimp only [Option.map_some]
      by_cases hq : q - origin q ≤ p
      · have hquery : (text.drop (o + (q - origin q))).take (p - (q - origin q)) =
            (buffer.drop (q - origin q)).take (p - (q - origin q)) :=
          hagree.take_drop (by omega) (by omega)
        rw [if_pos hq, if_pos (by omega), Nat.add_sub_add_left]
        unfold Target.on_request_query
        rw [hquery]
        rfl
      · rw [if_neg hq, if_neg (by omega)]
        rfl
  | http_version =>
    refine ⟨parser, ⟨h.mark, h.field_start, h.field_len, h.query_start⟩, ?_⟩
    simp only [HttpParser.act, Report.apply, horigin]
    rw [← h.mark, hlen]
    unfold Target.on_request_version strncmpEq
    rw [htake]
    rfl
  | request_path =>
    refine ⟨parser, ⟨h.mark, h.field_start, h.field_len, h.query_start⟩, ?_⟩
    simp only [HttpParser.act, Report.apply, horigin]
    rw [← h.mark, hlen]
    unfold Target.on_request_path
    rw [htake]
    rfl

theorem Tracks.acts (h : Tracks origin o parser k) (hagree : Agree text o buffer)
    (horigin : origin (o + p) = o) (hp : p < buffer.length) (htext : o + p < text.length)
    (hk : k.Below (o + p)) {as : List Action}
    (hmethod : Action.request_method ∈ as → buffer[p]? = some 32) (t : Target) :
    ∃ parser', Tracks origin o parser' (k.acts (o + p) as) ∧
      as.foldlM (HttpParser.act buffer p) (parser, t) =
        ((Report.ofActions (o + p) k as).foldlM (Report.apply text origin) t).map
          fun t' => (parser', t') := by
  induction as generalizing parser k t with
  | nil => exact ⟨parser, h, rfl⟩
  | cons a as ih =>
    obtain ⟨parser₁, h₁, hact⟩ := h.act hagree horigin hp htext hk.mark
      (fun ha => hmethod (ha ▸ List.mem_cons_self)) t
    rw [List.foldlM_cons, hact, Report.ofActions, List.foldlM_cons]
    cases Report.apply text origin t ⟨a, k, o + p⟩ with
    | none =>
      obtain ⟨parser₂, h₂, -⟩ := ih h₁ (hk.act a) (fun ha => hmethod (List.mem_cons_of_mem _ ha)) t
      exact ⟨parser₂, h₂, rfl⟩
    | some t₁ =>
      obtain ⟨parser₂, h₂, hacts⟩ :=
        ih h₁ (hk.act a) (fun ha => hmethod (List.mem_cons_of_mem _ ha)) t₁
      exact ⟨parser₂, h₂, hacts⟩

end

/-! ## Where a run stops -/

section

variable (k : Marks) (p : Nat) (s : M.State)

theorem walk_none {b : UInt8} {rest : Bytes} (h : M.step s b = none) :
    M.walk k p s (b :: rest) = ⟨[], k, p, none, false⟩ := by
  rw [Machine.walk, h]

theorem walk_done {b : UInt8} {rest : Bytes} {m : Move M.State} (h : M.step s b = some m)
    (hm : m.done = true) : M.walk k p s (b :: rest) =
      ⟨Report.ofActions p k m.actions, k.acts p m.actions, p + 1, some m.target, true⟩ := by
  rw [Machine.walk, h]
  exact if_pos hm

theorem walk_move {b : UInt8} {rest : Bytes} {m : Move M.State} (h : M.step s b = some m)
    (hm : m.done = false) : M.walk k p s (b :: rest) =
      { M.walk (k.acts p m.actions) (p + 1) m.target rest with
        reports := Report.ofActions p k m.actions ++
          (M.walk (k.acts p m.actions) (p + 1) m.target rest).reports } := by
  rw [Machine.walk, h]
  dsimp only
  rw [if_neg (Bool.eq_false_iff.mp hm)]

end

/-- The ways a byte can be taken. -/
theorem step_cases (s : M.State) (b : UInt8) : M.step s b = none ∨
    (∃ m, M.step s b = some m ∧ m.done = true) ∨ ∃ m, M.step s b = some m ∧ m.done = false := by
  cases h : M.step s b with
  | none => exact .inl rfl
  | some m =>
    cases hm : m.done with
    | true => exact .inr (.inl ⟨m, rfl, hm⟩)
    | false => exact .inr (.inr ⟨m, rfl, hm⟩)

theorem le_stop (rest : Bytes) (k : Marks) (p : Nat) (s : M.State) :
    p ≤ (M.walk k p s rest).stop := by
  induction rest generalizing k p s with
  | nil => exact Nat.le_refl p
  | cons b rest ih =>
    obtain h | ⟨m, h, hm⟩ | ⟨m, h, hm⟩ := step_cases s b
    · rw [walk_none k p s h]
    · rw [walk_done k p s h hm]
      exact Nat.le_succ p
    · rw [walk_move k p s h hm]
      exact (Nat.le_succ p).trans (ih _ _ _)

theorem stop_le (rest : Bytes) (k : Marks) (p : Nat) (s : M.State) :
    (M.walk k p s rest).stop ≤ p + rest.length := by
  induction rest generalizing k p s with
  | nil => exact Nat.le_refl p
  | cons b rest ih =>
    rw [List.length_cons]
    obtain h | ⟨m, h, hm⟩ | ⟨m, h, hm⟩ := step_cases s b
    · rw [walk_none k p s h]
      exact Nat.le_add_right p _
    · rw [walk_done k p s h hm]
      dsimp only
      omega
    · rw [walk_move k p s h hm]
      have hle := ih (k.acts p m.actions) (p + 1) m.target
      dsimp only
      omega

theorem walk_below (rest : Bytes) {k : Marks} {p : Nat} (s : M.State) (hk : k.Below p) :
    (M.walk k p s rest).marks.Below (M.walk k p s rest).stop := by
  induction rest generalizing k p s with
  | nil => exact hk
  | cons b rest ih =>
    obtain h | ⟨m, h, hm⟩ | ⟨m, h, hm⟩ := step_cases s b
    · rw [walk_none k p s h]
      exact hk
    · rw [walk_done k p s h hm]
      exact (hk.acts _).mono (Nat.le_succ p)
    · rw [walk_move k p s h hm]
      exact ih _ ((hk.acts _).mono (Nat.le_succ p))

/-- What comes after a text does not change a run that ends in it; another run goes on. -/
theorem walk_append (a b : Bytes) (k : Marks) (p : Nat) (s : M.State) :
    M.walk k p s (a ++ b) =
      match (M.walk k p s a).cs, (M.walk k p s a).done with
      | some s', false =>
        let w := M.walk (M.walk k p s a).marks (p + a.length) s' b
        { w with reports := (M.walk k p s a).reports ++ w.reports }
      | _, _ => M.walk k p s a := by
  induction a generalizing k p s with
  | nil => rfl
  | cons c a ih =>
    rw [List.cons_append]
    obtain h | ⟨m, h, hm⟩ | ⟨m, h, hm⟩ := step_cases s c
    · rw [walk_none k p s h, walk_none k p s h]
    · rw [walk_done k p s h hm, walk_done k p s h hm]
    · rw [walk_move k p s h hm, walk_move k p s h hm, ih]
      have hlength : p + 1 + a.length = p + (c :: a).length := by
        rw [List.length_cons]
        omega
      rw [hlength]
      dsimp only
      split
      · dsimp only
        rw [List.append_assoc]
      · rfl

/-- A run is done by reaching a final state. -/
theorem walk_final (rest : Bytes) (k : Marks) (p : Nat) {s s' : M.State} (hs : M.final s = false)
    (h : (M.walk k p s rest).cs = some s') : M.final s' = (M.walk k p s rest).done := by
  induction rest generalizing k p s with
  | nil =>
    cases h
    exact hs
  | cons b rest ih =>
    obtain hb | ⟨m, hb, hm⟩ | ⟨m, hb, hm⟩ := step_cases s b
    · rw [walk_none k p s hb] at h
      cases h
    · rw [walk_done k p s hb hm] at h ⊢
      cases h
      exact (M.target_final hb).trans hm
    · rw [walk_move k p s hb hm] at h ⊢
      exact ih _ _ ((M.target_final hb).trans hm) h

theorem isSome_of_done (rest : Bytes) (k : Marks) (p : Nat) (s : M.State)
    (h : (M.walk k p s rest).done = true) :
    (M.walk k p s rest).cs.isSome = true ∧ p < (M.walk k p s rest).stop := by
  induction rest generalizing k p s with
  | nil => cases h
  | cons b rest ih =>
    obtain hb | ⟨m, hb, hm⟩ | ⟨m, hb, hm⟩ := step_cases s b
    · rw [walk_none k p s hb] at h
      cases h
    · rw [walk_done k p s hb hm]
      exact ⟨rfl, Nat.lt_succ_self p⟩
    · rw [walk_move k p s hb hm] at h ⊢
      obtain ⟨hsome, hlt⟩ := ih _ _ _ h
      exact ⟨hsome, (Nat.lt_succ_self p).trans hlt⟩

theorem stop_eq (rest : Bytes) (k : Marks) (p : Nat) (s : M.State)
    (hcs : (M.walk k p s rest).cs.isSome = true) (hdone : (M.walk k p s rest).done = false) :
    (M.walk k p s rest).stop = p + rest.length := by
  induction rest generalizing k p s with
  | nil => rfl
  | cons b rest ih =>
    obtain hb | ⟨m, hb, hm⟩ | ⟨m, hb, hm⟩ := step_cases s b
    · rw [walk_none k p s hb] at hcs
      cases hcs
    · rw [walk_done k p s hb hm] at hdone
      cases hdone
    · rw [walk_move k p s hb hm] at hcs hdone ⊢
      have heq := ih _ _ _ hcs hdone
      rw [List.length_cons]
      dsimp only
      omega

/-- A run that ends is the same on every text that goes at least as far. -/
theorem walk_eq_of_prefix {a b whole : Bytes} (ha : a <+: whole) (hb : b <+: whole) {k : Marks}
    {p : Nat} {s : M.State} (hdone : (M.walk k p s a).done = true)
    (hle : (M.walk k p s a).stop ≤ p + b.length) : M.walk k p s b = M.walk k p s a := by
  obtain ⟨hcs, -⟩ := isSome_of_done a k p s hdone
  cases Nat.le_total a.length b.length with
  | inl h =>
    obtain ⟨d, rfl⟩ := List.prefix_of_prefix_length_le ha hb h
    rw [walk_append, hdone]
    split
    · rename_i heq
      cases heq
    · rfl
  | inr h =>
    obtain ⟨d, rfl⟩ := List.prefix_of_prefix_length_le hb ha h
    rw [walk_append] at hdone hle ⊢
    split at hle
    · rename_i s' heq hnot
      rw [heq, hnot] at hdone
      obtain ⟨-, hlt⟩ := isSome_of_done d _ _ _ hdone
      exact absurd hle (Nat.not_le.mpr hlt)
    · rfl

/-- A run that ends beyond a segment goes on from what the segment leaves. -/
theorem walk_split {a c : Bytes} {k : Marks} {p : Nat} {s : M.State}
    (hlt : p + c.length < (M.walk k p s (c ++ a)).stop) :
    ∃ s', (M.walk k p s c).cs = some s' ∧ (M.walk k p s c).done = false ∧
      M.walk k p s (c ++ a) =
        { M.walk (M.walk k p s c).marks (p + c.length) s' a with
          reports := (M.walk k p s c).reports ++
            (M.walk (M.walk k p s c).marks (p + c.length) s' a).reports } := by
  have hstop := stop_le c k p s
  rw [walk_append] at hlt ⊢
  split at hlt
  · rename_i s' heq hnot
    rw [heq, hnot]
    exact ⟨s', rfl, rfl, rfl⟩
  · exact absurd hlt (Nat.not_lt.mpr hstop)

/-! ## A segment -/

/-- `http_parser_execute` over a segment from its byte `p` on reports what the automaton reports. -/
theorem scan_walk {origin : Nat → Nat} {o : Nat} {text buffer : Bytes}
    (hagree : Agree text o buffer)
    (horigin : ∀ i, i < buffer.length → origin (o + i) = o) (rest : Bytes) {p : Nat}
    {parser : HttpParser M} {k : Marks} (cs : M.State) (t : Target) (hrest : buffer.drop p = rest)
    (h : Tracks origin o parser k) (hk : k.Below (o + p))
    (hstop : (M.walk k (o + p) cs rest).stop ≤ text.length) :
    ∃ parser', Tracks origin o parser' (M.walk k (o + p) cs rest).marks ∧
      HttpParser.scan buffer rest p cs parser t =
        ((M.walk k (o + p) cs rest).reports.foldlM (Report.apply text origin) t).map fun t' =>
          ⟨(M.walk k (o + p) cs rest).stop - o, (M.walk k (o + p) cs rest).cs, parser', t'⟩ := by
  induction rest generalizing p parser k cs t with
  | nil =>
    refine ⟨parser, h, ?_⟩
    rw [HttpParser.scan, Machine.walk]
    show some _ = some _
    rw [Nat.add_sub_cancel_left]
  | cons b rest ih =>
    have hp : p < buffer.length := by
      apply Nat.not_le.mp
      intro hle
      rw [List.drop_eq_nil_of_le hle] at hrest
      cases hrest
    have hbyte : buffer[p]? = some b := by
      have hhead := congrArg List.head? hrest
      rwa [List.head?_drop] at hhead
    have hnext : buffer.drop (p + 1) = rest := by
      rw [← List.drop_drop, hrest]
      rfl
    obtain hs | ⟨m, hs, hm⟩ | ⟨m, hs, hm⟩ := step_cases cs b
    · refine ⟨parser, ?_⟩
      rw [walk_none k _ cs hs, HttpParser.scan, hs]
      refine ⟨h, ?_⟩
      show some _ = some _
      rw [Nat.add_sub_cancel_left]
    · rw [walk_done k _ cs hs hm] at hstop ⊢
      have htext : o + p < text.length := hstop
      obtain ⟨parser', h', hacts⟩ := h.acts hagree (horigin p hp) hp htext hk
        (fun hmem => M.method_space hs hmem ▸ hbyte) t
      refine ⟨parser', h', ?_⟩
      rw [HttpParser.scan, hs]
      dsimp only
      rw [hacts]
      cases (Report.ofActions (o + p) k m.actions).foldlM (Report.apply text origin) t with
      | none => rfl
      | some t' =>
        dsimp only [Option.map_some]
        rw [if_pos hm, Nat.add_assoc, Nat.add_sub_cancel_left]
    · rw [walk_move k _ cs hs hm] at hstop ⊢
      have htext : o + p < text.length :=
        (le_stop rest (k.acts (o + p) m.actions) (o + p + 1) m.target).trans hstop
      obtain ⟨parser₁, h₁, hacts⟩ := h.acts hagree (horigin p hp) hp htext hk
        (fun hmem => M.method_space hs hmem ▸ hbyte) t
      rw [HttpParser.scan, hs]
      dsimp only
      rw [hacts, List.foldlM_append]
      cases (Report.ofActions (o + p) k m.actions).foldlM (Report.apply text origin) t with
      | none =>
        obtain ⟨parser₂, h₂, -⟩ := ih m.target t hnext h₁ ((hk.acts _).mono (Nat.le_succ _)) hstop
        exact ⟨parser₂, h₂, rfl⟩
      | some t₁ =>
        obtain ⟨parser₂, h₂, hscan⟩ :=
          ih m.target t₁ hnext h₁ ((hk.acts _).mono (Nat.le_succ _)) hstop
        refine ⟨parser₂, h₂, ?_⟩
        dsimp only [Option.map_some]
        rw [if_neg (Bool.eq_false_iff.mp hm)]
        exact hscan

end Captain.Http
