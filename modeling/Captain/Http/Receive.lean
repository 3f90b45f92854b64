import Captain.Http.Elements
import Captain.Http.Session

/-!
# The loop of `recvRequest`

`parse_spec` tells what the loop makes of a connection whose bytes begin with a text on which the
automaton is done: it takes one chunk after the other until the one that brings the end of the text,
and fails if an element is refused or one of the chunks goes beyond the end by `(int)buff_size`
bytes. `Throws` tells when it fails by an exception, which a name or a query that is cut raises.
-/

namespace Captain.Http

open Segments

variable {M : Machine}

/-- What `recvRequest` keeps of the parser from one `read` to the next: the state of the automaton
and `query_start`. -/
structure Resumes (origin : Nat → Nat) (o : Nat) (parser : HttpParser M) (k : Marks) (s : M.State) :
    Prop where
  cs : parser.cs = some s
  final : M.final s = false
  query_start : parser.query_start = k.query_start.map fun q => q - origin q
  below : k.Below o

/-- One call of `HttpRequestParser::execute`. -/
theorem execute_walk {origin : Nat → Nat} {o : Nat} {text c : Bytes} (parser : HttpRequestParser M)
    {k : Marks} {s : M.State} (h : Resumes origin o parser.m_httpParser k s) (hc : c ≠ [])
    (hagree : Agree text o c) (horigin : ∀ i, i < c.length → origin (o + i) = o)
    (hstop : (M.walk k o s c).stop ≤ text.length) :
    ∃ m_httpParser : HttpParser M, m_httpParser.cs = (M.walk k o s c).cs ∧
      (m_httpParser.query_start = (M.walk k o s c).marks.query_start.map fun q => q - origin q) ∧
      parser.execute c =
        ((M.walk k o s c).reports.foldlM (Report.apply text origin) parser.target).map fun t =>
          ((M.walk k o s c).stop - o, c.drop ((M.walk k o s c).stop - o), ⟨m_httpParser, t⟩) := by
  obtain ⟨parser', htracks, hscan⟩ := scan_walk hagree horigin c s parser.target (p := 0) rfl
    (Tracks.reset h.below h.query_start) h.below hstop
  refine ⟨{ parser' with cs := (M.walk k o s c).cs }, rfl, htracks.query_start, ?_⟩
  have hlength : c.length ≠ 0 := fun h => hc (List.length_eq_zero_iff.mp h)
  unfold HttpRequestParser.execute HttpParser.execute
  rw [if_neg hlength]
  dsimp only
  rw [h.cs] at hscan ⊢
  dsimp only
  rw [hscan]
  cases (M.walk k o s c).reports.foldlM (Report.apply text origin) parser.target with
  | none => rfl
  | some t => rfl

/-- The chunks that one `read` each takes whole. -/
def Fit (buff_size : Nat) (cs : List Bytes) : Prop :=
  ∀ c ∈ cs, c ≠ [] ∧ c.length ≤ min buff_size MAX_RW_COUNT

theorem mem_ofActions_pos {p : Nat} {k : Marks} {as : List Action} {r : Report}
    (h : r ∈ Report.ofActions p k as) : r.pos = p := by
  induction as generalizing k with
  | nil => cases h
  | cons a as ih =>
    rcases List.mem_cons.mp h with rfl | h
    · rfl
    · exact ih h

/-- Where the elements of a run end. -/
theorem mem_walk_pos (rest : Bytes) {k : Marks} {p : Nat} (s : M.State) {r : Report}
    (h : r ∈ (M.walk k p s rest).reports) : p ≤ r.pos ∧ r.pos < p + rest.length := by
  induction rest generalizing k p s with
  | nil => cases h
  | cons b rest ih =>
    rw [List.length_cons]
    obtain hb | ⟨m, hb, hm⟩ | ⟨m, hb, hm⟩ := step_cases s b
    · rw [walk_none k p s hb] at h
      cases h
    · rw [walk_done k p s hb hm] at h
      have hpos := mem_ofActions_pos h
      omega
    · rw [walk_move k p s hb hm] at h
      rcases List.mem_append.mp h with h | h
      · have hpos := mem_ofActions_pos h
        omega
      · have hpos := ih m.target h
        omega

namespace HttpSession

/-- One turn of the loop, when the turns before it have left nothing in the buffer. -/
theorem parse_turn {buff_size : Nat} (turns : Nat) {c : Bytes} {cs : List Bytes}
    (h : Fit buff_size (c :: cs)) (parser : HttpRequestParser M) :
    parse M buff_size (turns + 1) ⟨c :: cs, false⟩ [] parser =
      match parser.execute c with
      | none => (none, ⟨cs, false⟩)
      | some (_, data, parser) =>
        if parser.hasError then (some none, ⟨cs, true⟩)
        else if (data.length : Int) = toInt buff_size then (some none, ⟨cs, true⟩)
        else if parser.isFinished ≠ 0 then (some (some (parser, data)), ⟨cs, false⟩)
        else parse M buff_size turns ⟨cs, false⟩ data parser := by
  obtain ⟨hne, hle⟩ := h c List.mem_cons_self
  have hread : SocketStream.read ⟨c :: cs, false⟩ (buff_size - 0) = (c, ⟨cs, false⟩) := if_pos hle
  have hlength : c.length ≠ 0 := fun h => hne (List.length_eq_zero_iff.mp h)
  rw [parse, List.length_nil, hread]
  dsimp only
  rw [if_neg hlength, List.nil_append]
  rfl

theorem hasError_iff {parser : HttpRequestParser M} {s : M.State}
    (h : parser.m_httpParser.cs = some s) :
    parser.hasError = true ↔ parser.target.m_error ≠ 0 := by
  unfold HttpRequestParser.hasError HttpParser.has_error
  rw [h]
  simp

theorem isFinished_iff {parser : HttpRequestParser M} {s : M.State}
    (h : parser.m_httpParser.cs = some s) : parser.isFinished ≠ 0 ↔ M.final s = true := by
  unfold HttpRequestParser.isFinished HttpParser.finish HttpParser.has_error
    HttpParser.is_finished
  rw [h]
  simp

theorem agree_of_prefix {text c whole : Bytes} {o : Nat} (htext : text.drop o <+: whole)
    (hc : c <+: whole) : Agree text o c := by
  intro n hn ho
  obtain ⟨d, rfl⟩ := hc
  obtain ⟨e, heq⟩ := htext
  have hlength : n ≤ (text.drop o).length := by
    rw [List.length_drop]
    omega
  have htake := congrArg (List.take n) heq
  rwa [List.take_append_of_le_length hlength, List.take_append_of_le_length hn] at htake

/-! ## Exceptions -/

section

variable {origin : Nat → Nat} {text : Bytes} {buff_size o : Nat} {rs : List Report} {t : Target}

/-- An element raises an exception, and the elements of the segments before have been accepted;
`o` is where the first segment begins, and one that ends before the text leaves nothing in the
buffer. -/
def Throws (origin : Nat → Nat) (text : Bytes) (buff_size o : Nat) (rs : List Report) (t : Target) :
    Prop :=
  ∃ r ∈ rs, ((rs.filter fun r' => r'.pos < origin r.pos).foldlM (Report.apply text origin) t).any
      (fun t' => t'.m_error = 0 && (r.apply text origin t').isNone) = true ∧
    (origin r.pos ≠ o → toInt buff_size ≠ 0)

instance : Decidable (Throws origin text buff_size o rs t) :=
  inferInstanceAs (Decidable (∃ r ∈ rs, _))

/-- Whether an element raises an exception does not depend on the others. -/
theorem apply_none_iff {r : Report} (t t' : Target) :
    r.apply text origin t = none ↔ r.apply text origin t' = none := by
  unfold Report.apply
  dsimp only
  split
  · split <;> simp
  · simp
  · simp
  · split
    · rfl
    · split <;> simp
  · simp
  · simp
  · simp

theorem applyAll_none_iff {t : Target} : rs.foldlM (Report.apply text origin) t = none ↔
    ∃ r ∈ rs, r.apply text origin t = none := by
  induction rs generalizing t with
  | nil => simp
  | cons r rs ih =>
    rw [List.foldlM_cons, List.exists_mem_cons_iff]
    cases h : r.apply text origin t with
    | none => exact iff_of_true rfl (.inl rfl)
    | some t₁ =>
      rw [or_iff_right (nofun : ¬some t₁ = none)]
      exact ih.trans (exists_congr fun r => and_congr_right fun _ => apply_none_iff t₁ t)

theorem throws_iff : Throws origin text buff_size o rs t ↔ ∃ r ∈ rs, ∃ t',
    (rs.filter fun r' => r'.pos < origin r.pos).foldlM (Report.apply text origin) t = some t' ∧
      t'.m_error = 0 ∧ r.apply text origin t' = none ∧
      (origin r.pos ≠ o → toInt buff_size ≠ 0) := by
  unfold Throws
  simp only [Option.any_eq_true, Bool.and_eq_true, decide_eq_true_eq, Option.isNone_iff_eq_none,
    exists_and_right, ← and_assoc]

/-- No element of the first segment lies before it. -/
theorem filter_first {rs : List Report} (h : ∀ r ∈ rs, o ≤ r.pos) :
    (rs.filter fun r => r.pos < o) = [] :=
  List.filter_eq_nil_iff.mpr fun r hr => by simpa using h r hr

/-- All elements in one segment. -/
theorem throws_last (h : ∀ r ∈ rs, o ≤ r.pos ∧ origin r.pos = o) (herr : t.m_error = 0) :
    rs.foldlM (Report.apply text origin) t = none ↔ Throws origin text buff_size o rs t := by
  rw [applyAll_none_iff, throws_iff]
  refine exists_congr fun r => and_congr_right fun hr => ?_
  rw [(h r hr).2, filter_first fun r' hr' => (h r' hr').1]
  constructor
  · exact fun hnone => ⟨t, rfl, herr, hnone, fun hne => absurd rfl hne⟩
  · rintro ⟨t', heq, -, hnone, -⟩
    cases heq
    exact hnone

/-- The elements of the first segment, and the others. -/
theorem throws_more {o' : Nat} {first others : List Report}
    (hfirst : ∀ r ∈ first, (o ≤ r.pos ∧ r.pos < o') ∧ origin r.pos = o)
    (hothers : ∀ r ∈ others, o' ≤ r.pos ∧ o' ≤ origin r.pos) (hlt : o < o') (herr : t.m_error = 0) :
    (first.foldlM (Report.apply text origin) t = none ∨
      ∃ t₁, first.foldlM (Report.apply text origin) t = some t₁ ∧ t₁.m_error = 0 ∧
        0 ≠ toInt buff_size ∧ Throws origin text buff_size o' others t₁) ↔
      Throws origin text buff_size o (first ++ others) t := by
  have hbegin : ∀ r ∈ first ++ others, o ≤ r.pos := by
    intro r hr
    rcases List.mem_append.mp hr with hr | hr
    · exact (hfirst r hr).1.1
    · exact hlt.le.trans (hothers r hr).1
  have hall : ∀ r ∈ others, (first.filter fun r' => r'.pos < origin r.pos) = first := by
    intro r hr
    refine List.filter_eq_self.mpr fun r' hr' => decide_eq_true ?_
    exact (hfirst r' hr').1.2.trans_le (hothers r hr).2
  rw [applyAll_none_iff, throws_iff]
  constructor
  · rintro (⟨r, hr, hnone⟩ | ⟨t₁, hrun, -, hzero, hthrows⟩)
    · refine ⟨r, List.mem_append_left _ hr, t, ?_, herr, hnone, fun hne => ?_⟩
      · rw [(hfirst r hr).2, filter_first hbegin]
        rfl
      · exact absurd (hfirst r hr).2 hne
    · obtain ⟨r, hr, t', hrun', herr', hnone, -⟩ := throws_iff.mp hthrows
      refine ⟨r, List.mem_append_right _ hr, t', ?_, herr', hnone, fun _ => hzero.symm⟩
      rw [List.filter_append, hall r hr, List.foldlM_append, hrun]
      exact hrun'
  · rintro ⟨r, hr, t', hrun, herr', hnone, hzero⟩
    rcases List.mem_append.mp hr with hr | hr
    · rw [(hfirst r hr).2, filter_first hbegin] at hrun
      cases hrun
      exact .inl ⟨r, hr, hnone⟩
    · rw [List.filter_append, hall r hr, List.foldlM_append] at hrun
      obtain ⟨t₁, hrun₁, hrun'⟩ := Option.bind_eq_some_iff.mp hrun
      have herr₁ : t₁.m_error = 0 := by
        by_contra hne
        exact (Report.applyAll_keeps hrun').error hne herr'
      have hnext : toInt buff_size ≠ 0 := hzero (hlt.trans_le (hothers r hr).2).ne'
      refine .inr ⟨t₁, hrun₁, herr₁, hnext.symm, ?_⟩
      exact throws_iff.mpr ⟨r, hr, t', hrun', herr', hnone, fun _ => hnext⟩

end

/-! ## The loop -/

/-- What the loop returns when the elements make `outcome`, or raise an exception, the chunks go
beyond the end of the text by `xs`, and the one that brings the end leaves `left.1` of itself and
the chunks `left.2`. -/
structure Returns (buff_size : Nat) (outcome : Option Target) (throws : Prop) (xs : List Nat)
    (left : Bytes × List Bytes)
    (result : Option (Option (HttpRequestParser M × Bytes)) × SocketStream) : Prop where
  good : ∀ t, outcome = some t → t.m_error = 0 → (∀ x ∈ xs, (x : Int) ≠ toInt buff_size) →
    ∃ m_httpParser, result = (some (some (⟨m_httpParser, t⟩, left.1)), ⟨left.2, false⟩)
  bad : (¬∃ t, outcome = some t ∧ t.m_error = 0 ∧ ∀ x ∈ xs, (x : Int) ≠ toInt buff_size) →
    ∀ x, result.1 ≠ some (some x)
  throws_iff : result.1 = none ↔ throws

theorem Returns.of_throws {buff_size : Nat} {outcome : Option Target} {throws throws' : Prop}
    {xs : List Nat} {left : Bytes × List Bytes}
    {result : Option (Option (HttpRequestParser M × Bytes)) × SocketStream}
    (h : Returns buff_size outcome throws xs left result) (hthrows : throws ↔ throws') :
    Returns buff_size outcome throws' xs left result :=
  ⟨h.good, h.bad, h.throws_iff.trans hthrows⟩

section

variable {buff_size turns n : Nat} {c : Bytes} {cs : List Bytes} {parser : HttpRequestParser M}
  {m_httpParser : HttpParser M} {s : M.State} {outcome : Option Target}

/-- The turn that brings the end of the text. -/
theorem parse_last (h : Fit buff_size (c :: cs)) (hcs : m_httpParser.cs = some s)
    (hfinal : M.final s = true) {data : Bytes}
    (hexec : parser.execute c = outcome.map fun t => (n, data, ⟨m_httpParser, t⟩)) :
    Returns buff_size outcome (outcome = none) [data.length] (data, cs)
      (parse M buff_size (turns + 1) ⟨c :: cs, false⟩ [] parser) := by
  rw [parse_turn turns h parser, hexec]
  cases outcome with
  | none =>
    refine ⟨fun t ht => ?_, fun _ x => nofun, iff_of_true rfl rfl⟩
    cases ht
  | some t =>
    dsimp only [Option.map_some]
    refine ⟨fun t' ht' herr hexcess => ⟨m_httpParser, ?_⟩, fun hnot => ?_, iff_of_false ?_ nofun⟩
    · cases ht'
      rw [if_neg ((hasError_iff hcs).not.mpr (not_not.mpr herr)),
        if_neg (hexcess _ List.mem_cons_self), if_pos ((isFinished_iff hcs).mpr hfinal)]
    · split
      · exact fun x => nofun
      · rename_i hok
        split
        · exact fun x => nofun
        · rename_i hne
          refine absurd ⟨t, rfl, not_not.mp ((hasError_iff hcs).not.mp hok), ?_⟩ hnot
          intro x hx
          rw [List.mem_singleton.mp hx]
          exact hne
    · rw [if_pos ((isFinished_iff hcs).mpr hfinal)]
      split
      · exact nofun
      · split <;> exact nofun

/-- A turn after which the text goes on: an error in it stays to the end. -/
theorem parse_more (h : Fit buff_size (c :: cs)) (hcs : m_httpParser.cs = some s)
    (hfinal : M.final s = false)
    (hexec : parser.execute c = outcome.map fun t => (n, [], ⟨m_httpParser, t⟩))
    {next : Target → Option Target} {throws : Target → Prop} {xs : List Nat}
    {left : Bytes × List Bytes}
    (hkeeps : ∀ t t', next t = some t' → t.m_error ≠ 0 → t'.m_error ≠ 0)
    (hnext : ∀ t, t.m_error = 0 → Returns buff_size (next t) (throws t) xs left
      (parse M buff_size turns ⟨cs, false⟩ [] ⟨m_httpParser, t⟩)) :
    Returns buff_size (outcome.bind next)
      (outcome = none ∨
        ∃ t, outcome = some t ∧ t.m_error = 0 ∧ 0 ≠ toInt buff_size ∧ throws t)
      (0 :: xs) left (parse M buff_size (turns + 1) ⟨c :: cs, false⟩ [] parser) := by
  rw [parse_turn turns h parser, hexec]
  cases outcome with
  | none =>
    refine ⟨fun t ht => ?_, fun _ x => nofun, iff_of_true rfl (.inl rfl)⟩
    cases ht
  | some t₁ =>
    dsimp only [Option.map_some, Option.bind_some]
    by_cases herr : t₁.m_error = 0
    · obtain ⟨hgood, hbad, hthrows⟩ := hnext t₁ herr
      rw [if_neg ((hasError_iff hcs).not.mpr (not_not.mpr herr))]
      by_cases hzero : (([] : Bytes).length : Int) = toInt buff_size
      · rw [if_pos hzero]
        refine ⟨fun t _ _ hexcess => ?_, fun _ x => nofun, iff_of_false nofun ?_⟩
        · exact absurd hzero (hexcess 0 List.mem_cons_self)
        · rintro (hnone | ⟨t, -, -, hne, -⟩)
          · cases hnone
          · exact hne hzero
      · rw [if_neg hzero, if_neg ((isFinished_iff hcs).not.mpr (Bool.eq_false_iff.mp hfinal))]
        refine ⟨fun t ht ht' hexcess => ?_, fun hnot => ?_, hthrows.trans ⟨fun ht => ?_, ?_⟩⟩
        · exact hgood t ht ht' fun x hx => hexcess x (List.mem_cons_of_mem _ hx)
        · apply hbad
          rintro ⟨t, ht, ht', hexcess⟩
          exact hnot ⟨t, ht, ht', List.forall_mem_cons.mpr ⟨hzero, hexcess⟩⟩
        · exact .inr ⟨t₁, rfl, herr, hzero, ht⟩
        · rintro (hnone | ⟨t, heq, -, -, ht⟩)
          · cases hnone
          · cases heq
            exact ht
    · rw [if_pos ((hasError_iff hcs).mpr herr)]
      refine ⟨fun t ht ht' _ => ?_, fun _ x => nofun, iff_of_false nofun ?_⟩
      · exact absurd ht' (hkeeps t₁ t ht herr)
      · rintro (hnone | ⟨t, heq, herr', -⟩)
        · cases hnone
        · cases heq
          exact herr herr'

end

theorem origin_of_head {origin : Nat → Nat} {o n p : Nat} (h : ∀ i, i < n → origin (o + i) = o)
    (hle : o ≤ p) (hlt : p < o + n) : origin p = o := by
  obtain ⟨i, rfl⟩ := Nat.exists_eq_add_of_le hle
  exact h i (by omega)

theorem parse_spec {origin : Nat → Nat} {text : Bytes} {buff_size : Nat} (cs : List Bytes) :
    ∀ (o turns : Nat) (parser : HttpRequestParser M) (k : Marks) (s : M.State),
      Fit buff_size cs → cs.flatten.length < turns → text.drop o <+: cs.flatten → o ≤ text.length →
      (∀ i, origin (o + i) = o + Segments.origin cs i) → Resumes origin o parser.m_httpParser k s →
      parser.target.m_error = 0 → (M.walk k o s (text.drop o)).done = true →
      Returns buff_size
        ((M.walk k o s (text.drop o)).reports.foldlM (Report.apply text origin) parser.target)
        (Throws origin text buff_size o (M.walk k o s (text.drop o)).reports parser.target)
        (excess ((M.walk k o s (text.drop o)).stop - o) cs)
        (reach ((M.walk k o s (text.drop o)).stop - o) cs)
        (parse M buff_size turns ⟨cs, false⟩ [] parser) := by
  induction cs with
  | nil =>
    intro o turns parser k s _ _ hprefix _ _ _ _ hdone
    rw [List.prefix_nil.mp hprefix] at hdone
    cases hdone
  | cons c cs ih =>
    intro o turns parser k s hfit hturns hprefix ho horigin hresumes herr hdone
    obtain ⟨turns, rfl⟩ : ∃ n, turns = n + 1 := Nat.exists_eq_succ_of_ne_zero (by omega)
    have hne := (hfit c List.mem_cons_self).1
    have hpos := List.length_pos_iff.mpr hne
    have hc : c <+: (c :: cs).flatten := ⟨cs.flatten, rfl⟩
    have hagree : Agree text o c := agree_of_prefix hprefix hc
    have hhead : ∀ i, i < c.length → origin (o + i) = o := by
      intro i hi
      rw [horigin, origin_head hi, Nat.add_zero]
    have hstop := stop_le (text.drop o) k o s
    rw [List.length_drop] at hstop
    obtain ⟨hsome, hlt⟩ := isSome_of_done (text.drop o) k o s hdone
    by_cases hle : (M.walk k o s (text.drop o)).stop ≤ o + c.length
    · -- The chunk brings the end of the text.
      have hsame := walk_eq_of_prefix hprefix hc hdone hle
      obtain ⟨m_httpParser, hcs, -, hexec⟩ := execute_walk parser hresumes hne hagree hhead
        (by rw [hsame]; omega)
      rw [hsame] at hcs hexec
      obtain ⟨s', hs'⟩ := Option.isSome_iff_exists.mp hsome
      have hfinal : M.final s' = true := (walk_final _ k o hresumes.final hs').trans hdone
      have hn : (M.walk k o s (text.drop o)).stop - o ≤ c.length := by
        omega
      have hone : ∀ r ∈ (M.walk k o s (text.drop o)).reports,
          o ≤ r.pos ∧ origin r.pos = o := by
        intro r hr
        rw [← hsame] at hr
        obtain ⟨hle', hlt'⟩ := mem_walk_pos c s hr
        exact ⟨hle', origin_of_head hhead hle' hlt'⟩
      rw [excess, if_pos hn, reach, if_pos hn, ← List.length_drop]
      exact (parse_last hfit (hcs.trans hs') hfinal hexec).of_throws (throws_last hone herr)
    · -- The text goes on in the next chunk.
      have hlonger : c.length ≤ (text.drop o).length := by
        rw [List.length_drop]
        omega
      have hctext : o + c.length ≤ text.length := by
        rw [List.length_drop] at hlonger
        omega
      obtain ⟨a, ha⟩ := List.prefix_of_prefix_length_le hc hprefix hlonger
      have hrest : text.drop (o + c.length) = a := by
        rw [← List.drop_drop, ← ha, List.drop_left]
      rw [← ha] at hdone hle ⊢
      obtain ⟨s', hs', hnot, hsplit⟩ := walk_split (Nat.not_le.mp hle)
      have hstop' := stop_eq c k o s (by rw [hs']; rfl) hnot
      obtain ⟨m_httpParser, hcs, hquery, hexec⟩ := execute_walk parser hresumes hne hagree hhead
        (by rw [hstop']; exact hctext)
      have hfinal : M.final s' = false := (walk_final _ k o hresumes.final hs').trans hnot
      rw [hs'] at hcs
      rw [hsplit] at hdone hle ⊢
      rw [hstop', Nat.add_sub_cancel_left, List.drop_length] at hexec
      have hn : ¬(M.walk (M.walk k o s c).marks (o + c.length) s' a).stop - o ≤ c.length := by
        dsimp only at hle
        omega
      have hsub : (M.walk (M.walk k o s c).marks (o + c.length) s' a).stop - o - c.length =
        (M.walk (M.walk k o s c).marks (o + c.length) s' a).stop - (o + c.length) := by omega
      dsimp only
      rw [excess, if_neg hn, reach, if_neg hn, hsub, List.foldlM_append]
      have hfit' : Fit buff_size cs := fun d hd => hfit d (List.mem_cons_of_mem _ hd)
      have hturns' : cs.flatten.length < turns := by
        rw [List.flatten_cons, List.length_append] at hturns
        omega
      have hprefix' : text.drop (o + c.length) <+: cs.flatten := by
        rw [hrest]
        rw [← ha, List.flatten_cons] at hprefix
        exact (List.prefix_append_right_inj c).mp hprefix
      have horigin' : ∀ i, origin (o + c.length + i) = o + c.length + Segments.origin cs i := by
        intro i
        rw [Nat.add_assoc, horigin, origin_tail, Nat.add_assoc]
      have hbelow := walk_below c s hresumes.below
      rw [hstop'] at hbelow
      have hfirst : ∀ r ∈ (M.walk k o s c).reports,
          (o ≤ r.pos ∧ r.pos < o + c.length) ∧ origin r.pos = o := by
        intro r hr
        have hpos := mem_walk_pos c s hr
        exact ⟨hpos, origin_of_head hhead hpos.1 hpos.2⟩
      have hothers : ∀ r ∈ (M.walk (M.walk k o s c).marks (o + c.length) s' a).reports,
          o + c.length ≤ r.pos ∧ o + c.length ≤ origin r.pos := by
        intro r hr
        obtain ⟨i, hi⟩ := Nat.exists_eq_add_of_le (mem_walk_pos a s' hr).1
        rw [hi, horigin']
        exact ⟨Nat.le_add_right _ _, Nat.le_add_right _ _⟩
      refine (parse_more hfit hcs hfinal hexec ?_ ?_).of_throws
        (throws_more hfirst hothers (by omega) herr)
      · intro t t' ht
        exact (Report.applyAll_keeps ht).error
      · intro t ht
        have hnext := ih (o + c.length) turns ⟨m_httpParser, t⟩ _ s' hfit' hturns' hprefix' hctext
          horigin' ⟨hcs, hfinal, hquery, hbelow⟩ ht
        rw [hrest] at hnext
        exact hnext hdone

end HttpSession

/-! ## `readFixSize` -/

namespace SocketStream

theorem read_spec {cs : List Bytes} (h : ∀ c ∈ cs, c ≠ []) (hne : cs ≠ []) {left : Nat}
    (hleft : left ≠ 0) : ∃ m, 0 < m ∧ m ≤ left ∧ m ≤ cs.flatten.length ∧
      read ⟨cs, false⟩ left = (cs.flatten.take m, ⟨skip m cs, false⟩) := by
  cases cs with
  | nil => exact absurd rfl hne
  | cons c cs =>
    have hpos := List.length_pos_iff.mpr (h c List.mem_cons_self)
    have hmax : 0 < MAX_RW_COUNT := by decide
    rw [List.flatten_cons, List.length_append]
    by_cases hle : c.length ≤ min left MAX_RW_COUNT
    · refine ⟨c.length, hpos, by omega, by omega, ?_⟩
      rw [List.take_left, skip, if_pos (Nat.le_refl _), Nat.sub_self,
        skip_zero fun d hd => h d (List.mem_cons_of_mem _ hd)]
      exact if_pos hle
    · refine ⟨min left MAX_RW_COUNT, by omega, by omega, by omega, ?_⟩
      rw [List.take_append_of_le_length (by omega), skip, if_neg hle]
      exact if_neg hle

theorem readLoop_spec (turns : Nat) : ∀ (cs : List Bytes) (left : Nat), (∀ c ∈ cs, c ≠ []) →
    left < turns → readLoop turns ⟨cs, false⟩ left =
      if left ≤ cs.flatten.length then (some (cs.flatten.take left), ⟨skip left cs, false⟩)
      else (none, ⟨[], false⟩) := by
  induction turns with
  | zero => exact fun _ _ _ hleft => absurd hleft (Nat.not_lt_zero _)
  | succ turns ih =>
    intro cs left hcs hleft
    rw [readLoop]
    by_cases hzero : left = 0
    · rw [if_pos hzero, hzero, if_pos (Nat.zero_le _), List.take_zero, skip_zero hcs]
    · rw [if_neg hzero]
      by_cases hnil : cs = []
      · rw [hnil, if_neg (by simpa using hzero)]
        rfl
      · obtain ⟨m, hm, hmleft, hmle, hread⟩ := read_spec hcs hnil hzero
        have hgot : (cs.flatten.take m).length = m := by
          rw [List.length_take]
          omega
        have hnext := ih (skip m cs) (left - m)
          (fun c hc => ne_nil_of_mem_skip hcs hc) (by omega)
        rw [flatten_skip, List.length_drop, skip_add, Nat.add_sub_cancel' hmleft] at hnext
        rw [hread]
        dsimp only
        rw [hgot, if_neg (by omega), hnext]
        by_cases hle : left ≤ cs.flatten.length
        · rw [if_pos hle, if_pos (by omega)]
          dsimp only [Option.map_some]
          rw [← List.take_add, Nat.add_sub_cancel' hmleft]
        · rw [if_neg hle, if_neg (by omega)]
          rfl

theorem readFixSize_spec {cs : List Bytes} (h : ∀ c ∈ cs, c ≠ []) (length : Nat) :
    readFixSize ⟨cs, false⟩ length =
      if length ≤ cs.flatten.length then
        (toInt length, cs.flatten.take length, ⟨skip length cs, false⟩)
      else (0, [], ⟨[], false⟩) := by
  rw [readFixSize, readLoop_spec (length + 1) cs length h (Nat.lt_succ_self length)]
  by_cases hle : length ≤ cs.flatten.length
  · rw [if_pos hle, if_pos hle]
  · rw [if_neg hle, if_neg hle]

end SocketStream

/-! ## A call of `recvRequest` -/

/-- `int64_t length = parser->getContentLength()`. -/
def HttpRequest.contentLength (lexical_cast : Bytes → Option UInt64) (d : HttpRequest) : Int :=
  (d.getHeaderAs lexical_cast (ascii "content-length") 0).toBitVec.toInt

/-- The request with the body that its header announces, taken from the bytes that follow it. -/
def HttpRequest.withBody (lexical_cast : Bytes → Option UInt64) (d : HttpRequest) (bytes : Bytes) :
    HttpRequest :=
  { d with m_body := bytes.take (d.contentLength lexical_cast).toNat }

theorem read_body {text : Bytes} {segments : List Bytes} {d : HttpRequest}
    (h : M.read text segments = some d) : d.m_body = [] := by
  obtain ⟨t, ht, hd⟩ := Option.bind_eq_some_iff.mp h
  split at hd
  · cases hd
    exact (Report.applyAll_keeps ht).body
  · cases hd

theorem withBody_inj {lexical_cast : Bytes → Option UInt64} {d d' : HttpRequest}
    {bytes body : Bytes} (hd : d.m_body = []) (hd' : d'.m_body = [])
    (h : d.withBody lexical_cast bytes = { d' with m_body := body }) : d = d' := by
  have heq := congrArg (fun r : HttpRequest => { r with m_body := [] }) h
  cases d
  cases d'
  cases hd
  cases hd'
  exact heq

namespace HttpSession

variable (lexical_cast : Bytes → Option UInt64) {buff_size : Nat}

/-- The body is what follows the header; it is not returned if the connection ends before it, or if
what is left to read is a length that `int` does not hold as a positive number. -/
theorem receiveBody_spec {rest : List Bytes} (h : ∀ c ∈ rest, c ≠ []) (parser : HttpRequestParser M)
    {d : HttpRequest} (hd : parser.getData = d) (hbody : d.m_body = []) (data : Bytes)
    {length : Nat} (hlength : (d.contentLength lexical_cast).toNat = length) :
    if length ≤ data.length ∨
        length ≤ (data ++ rest.flatten).length ∧ 0 < toInt (length - data.length) then
      receiveBody M lexical_cast ⟨rest, false⟩ parser data =
        (.request (d.withBody lexical_cast (data ++ rest.flatten)),
          ⟨skip (length - data.length) rest, false⟩)
    else ∀ r, (receiveBody M lexical_cast ⟨rest, false⟩ parser data).1 ≠ .request r := by
  have hcontent : (parser.getContentLength lexical_cast).toBitVec.toInt =
      d.contentLength lexical_cast := by
    rw [HttpRequestParser.getContentLength, hd]
    rfl
  unfold receiveBody HttpRequest.withBody
  dsimp only
  rw [hcontent, hd, hlength, List.length_append]
  by_cases hpos : d.contentLength lexical_cast > 0
  · rw [if_pos hpos]
    by_cases hleft : d.contentLength lexical_cast - data.length > 0
    · have htoNat : (d.contentLength lexical_cast - data.length).toNat = length - data.length := by
        omega
      rw [if_pos hleft, htoNat, SocketStream.readFixSize_spec h]
      by_cases hle : length - data.length ≤ rest.flatten.length
      · rw [if_pos hle]
        dsimp only
        by_cases hint : 0 < toInt (length - data.length)
        · rw [if_pos (.inr ⟨by omega, hint⟩), if_neg (by omega), List.take_append]
        · rw [if_neg (by omega), if_pos (by omega)]
          exact fun r => nofun
      · rw [if_neg hle, if_neg (by omega)]
        exact fun r => nofun
    · rw [if_neg hleft, if_pos (.inl (by omega)), List.take_append_of_le_length (by omega),
        Nat.sub_eq_zero_of_le (by omega), skip_zero h]
  · rw [if_neg hpos, if_pos (.inl (by omega)), Nat.sub_eq_zero_of_le (by omega), skip_zero h]
    have hzero : length = 0 := by omega
    rw [hzero, List.take_zero, ← hbody]

theorem recvRequest_of_parse {s s' : SocketStream} {parser : HttpRequestParser M} {data : Bytes}
    (h : parse M buff_size (s.bytes.length + 1) s [] (.new M) = (some (some (parser, data)), s')) :
    recvRequest M lexical_cast buff_size s = receiveBody M lexical_cast s' parser data := by
  rw [recvRequest, h]

theorem parse_of_recvRequest {s : SocketStream} {r : HttpRequest}
    (h : (recvRequest M lexical_cast buff_size s).1 = .request r) :
    ∃ x, (parse M buff_size (s.bytes.length + 1) s [] (.new M)).1 = some (some x) := by
  unfold recvRequest at h
  split at h
  · cases h
  · cases h
  · rename_i parser data s' heq
    exact ⟨_, congrArg Prod.fst heq⟩

section

variable {cs : List Bytes} (hfit : Fit buff_size cs) {text : Bytes} (htext : text <+: cs.flatten)
  (hdone : (M.run text).done = true)

include hfit htext hdone

/-- What the loop makes of the reads of one call. -/
theorem parse_run : Returns buff_size
    ((M.run text).reports.foldlM (Report.apply text (origin cs)) {})
    (Throws (origin cs) text buff_size 0 (M.run text).reports {}) (excess (M.run text).stop cs)
    (reach (M.run text).stop cs)
    (parse M buff_size ((SocketStream.bytes ⟨cs, false⟩).length + 1) ⟨cs, false⟩ [] (.new M)) := by
  have hturns : cs.flatten.length < (SocketStream.bytes ⟨cs, false⟩).length + 1 :=
    Nat.lt_succ_self _
  have horigin : ∀ i, origin cs (0 + i) = 0 + origin cs i := by
    intro i
    rw [Nat.zero_add, Nat.zero_add]
  have h := parse_spec cs 0 _ (.new M) {} M.start hfit hturns htext (Nat.zero_le _) horigin
    ⟨rfl, M.start_final, rfl, .zero⟩ rfl hdone
  rwa [List.drop_zero, Nat.sub_zero] at h

theorem parse_of_read {d : HttpRequest} (hd : M.read text cs = some d)
    (hexcess : ∀ x ∈ excess (M.run text).stop cs, (x : Int) ≠ toInt buff_size) :
    ∃ parser : HttpRequestParser M, parser.getData = d ∧
      parse M buff_size ((SocketStream.bytes ⟨cs, false⟩).length + 1) ⟨cs, false⟩ [] (.new M) =
        (some (some (parser, (reach (M.run text).stop cs).1)),
          ⟨(reach (M.run text).stop cs).2, false⟩) := by
  obtain ⟨t, ht, hdata⟩ := Option.bind_eq_some_iff.mp hd
  split at hdata
  · rename_i herr
    cases hdata
    obtain ⟨m_httpParser, hparse⟩ := (parse_run hfit htext hdone).good t ht herr hexcess
    exact ⟨⟨m_httpParser, t⟩, rfl, hparse⟩
  · cases hdata

theorem parse_of_refused (hnot : ¬∃ d, M.read text cs = some d ∧
    ∀ x ∈ excess (M.run text).stop cs, (x : Int) ≠ toInt buff_size) :
    ∀ x, (parse M buff_size ((SocketStream.bytes ⟨cs, false⟩).length + 1) ⟨cs, false⟩ []
      (.new M)).1 ≠ some (some x) := by
  refine (parse_run hfit htext hdone).bad ?_
  rintro ⟨t, ht, herr, hexcess⟩
  refine hnot ⟨t.m_data, ?_, hexcess⟩
  have hread : M.read text cs =
      some t >>= fun t => if t.m_error = 0 then some t.m_data else none :=
    congrArg (· >>= fun t : Target => if t.m_error = 0 then some t.m_data else none) ht
  rw [hread]
  exact if_pos herr

/-- If the bytes begin with a text on which the automaton is done, `recvRequest` goes on to the body
just if the elements of the text are accepted in these chunks and no chunk fills the buffer. -/
theorem recvRequest_spec :
    (∀ d, M.read text cs = some d →
      (∀ x ∈ excess (M.run text).stop cs, (x : Int) ≠ toInt buff_size) →
      ∃ parser : HttpRequestParser M, parser.getData = d ∧
        recvRequest M lexical_cast buff_size ⟨cs, false⟩ =
          receiveBody M lexical_cast ⟨(reach (M.run text).stop cs).2, false⟩ parser
            (reach (M.run text).stop cs).1) ∧
    ((¬∃ d, M.read text cs = some d ∧
        ∀ x ∈ excess (M.run text).stop cs, (x : Int) ≠ toInt buff_size) →
      ∀ r, (recvRequest M lexical_cast buff_size ⟨cs, false⟩).1 ≠ .request r) := by
  constructor
  · intro d hd hexcess
    obtain ⟨parser, hparser, hparse⟩ := parse_of_read hfit htext hdone hd hexcess
    exact ⟨parser, hparser, recvRequest_of_parse lexical_cast hparse⟩
  · intro hnot r hr
    obtain ⟨x, hx⟩ := parse_of_recvRequest lexical_cast hr
    exact parse_of_refused hfit htext hdone hnot x hx

end

/-- What a call returns whose elements are accepted, and what it leaves to read. -/
theorem recvRequest_body {cs : List Bytes} (hfit : Fit buff_size cs) {text : Bytes}
    (htext : text <+: cs.flatten) (hdone : (M.run text).done = true) {d : HttpRequest}
    (hd : M.read text cs = some d)
    (hexcess : ∀ x ∈ excess (M.run text).stop cs, (x : Int) ≠ toInt buff_size) {length : Nat}
    (hlength : (d.contentLength lexical_cast).toNat = length) :
    if length ≤ (reach (M.run text).stop cs).1.length ∨
        length ≤ (cs.flatten.drop (M.run text).stop).length ∧
          0 < toInt (length - (reach (M.run text).stop cs).1.length) then
      recvRequest M lexical_cast buff_size ⟨cs, false⟩ =
        (.request (d.withBody lexical_cast (cs.flatten.drop (M.run text).stop)),
          ⟨skip (length - (reach (M.run text).stop cs).1.length) (reach (M.run text).stop cs).2,
            false⟩)
    else ∀ r, (recvRequest M lexical_cast buff_size ⟨cs, false⟩).1 ≠ .request r := by
  have hstop : (M.run text).stop ≤ cs.flatten.length := by
    have hle := stop_le text {} 0 M.start
    rw [Nat.zero_add] at hle
    exact hle.trans htext.length_le
  obtain ⟨parser, hparser, heq⟩ := (recvRequest_spec lexical_cast hfit htext hdone).1 d hd hexcess
  have hrest : ∀ c ∈ (reach (M.run text).stop cs).2, c ≠ [] := fun c hc => (hfit c (mem_reach hc)).1
  have hspec := receiveBody_spec lexical_cast hrest parser hparser (read_body hd)
    (reach (M.run text).stop cs).1 hlength
  rw [flatten_reach hstop] at hspec
  rw [heq]
  exact hspec

/-- What is known of a call that has returned a request. -/
theorem recvRequest_request {cs : List Bytes} (hfit : Fit buff_size cs) {text : Bytes}
    (htext : text <+: cs.flatten) (hdone : (M.run text).done = true) {r : HttpRequest}
    (h : (recvRequest M lexical_cast buff_size ⟨cs, false⟩).1 = .request r) :
    ∃ d length, (d.contentLength lexical_cast).toNat = length ∧ M.read text cs = some d ∧
      (∀ x ∈ excess (M.run text).stop cs, (x : Int) ≠ toInt buff_size) ∧
      (length ≤ (reach (M.run text).stop cs).1.length ∨
        length ≤ (cs.flatten.drop (M.run text).stop).length ∧
          0 < toInt (length - (reach (M.run text).stop cs).1.length)) ∧
      d.withBody lexical_cast (cs.flatten.drop (M.run text).stop) = r ∧
      (recvRequest M lexical_cast buff_size ⟨cs, false⟩).2 =
        ⟨skip (length - (reach (M.run text).stop cs).1.length) (reach (M.run text).stop cs).2,
          false⟩ := by
  obtain ⟨d, hd, hexcess⟩ : ∃ d, M.read text cs = some d ∧
      ∀ x ∈ excess (M.run text).stop cs, (x : Int) ≠ toInt buff_size := by
    by_contra hnot
    exact (recvRequest_spec lexical_cast hfit htext hdone).2 hnot r h
  have hbody := recvRequest_body lexical_cast hfit htext hdone hd hexcess rfl
  split at hbody
  · rename_i hcond
    rw [hbody] at h
    exact ⟨d, _, rfl, hd, hexcess, hcond, Outcome.request.inj h, congrArg Prod.snd hbody⟩
  · exact absurd h (hbody r)

end HttpSession

end Captain.Http
