import Captain.Http.ClientStates

/-!
# What `HttpResponseParser` makes of a head

A head is a status line and fields; their texts are as the rules of `httpclient_parser.rl` ask for.
The parser reports each field, and beside them keeps what the fields `Connection`,
`Content-Length` and `Transfer-Encoding` say. A field of that name with no value may go on in the
next line, so that the state behind its line is another one.

* `execute_head`: a head is read to its end, whatever comes behind it, and what is reported is what
  it says; but `isFinished` knows it to be read only if the last field is not one of those with no
  value.
-/

namespace Captain.Http

open Scanner
open Lines

namespace HttpclientParser

variable {parser : HttpclientParser} (h : 120 ≤ parser.cs)
include h

theorem has_error_of_final : parser.has_error = false := by
  refine decide_eq_false fun heq => ?_
  rw [heq] at h
  exact absurd h (by decide)

/-- There are four final states, of which one is known to be final. -/
theorem finish_of_final : parser.finish = if parser.cs = 120 then 1 else 0 := by
  rw [finish, has_error_of_final h, if_neg Bool.false_ne_true]
  exact if_congr decide_eq_true_iff rfl rfl

end HttpclientParser

namespace Client

/-! ## What a head says -/

/-- What the parser holds between two lines. -/
structure Report where
  target : ResponseTarget := {}
  content_len : Int := -1
  chunked : Bool := false
  close : Bool := false
  /-- The state at the beginning of the line. -/
  line : Nat := 20

/-- The value of a field, which starts behind the blanks. -/
def stripped (value : Bytes) : Bytes := value.dropWhile isBlank

/-- A field with that value is the length of a body. -/
def isLength (name value : Bytes) : Bool :=
  lower name = ascii "content-length" ∧ stripped value ≠ [] ∧ (stripped value).all (within digits)

def isChunked (name value : Bytes) : Bool :=
  lower name = ascii "transfer-encoding" ∧ lower (stripped value) = ascii "chunked"

def isClose (name value : Bytes) : Bool :=
  lower name = ascii "connection" ∧ lower (stripped value) = ascii "close"

/-- The state behind a field. -/
def lineState (name value : Bytes) : Nat :=
  if stripped value = [] then
    if lower name = ascii "connection" then 36
    else if lower name = ascii "transfer-encoding" then 62
    else if lower name = ascii "content-length" then 113 else 20
  else if isClose name value then 43 else 20

def Report.field (r : Report) (f : Bytes × Bytes) : Report where
  target := { r.target with m_data := r.target.m_data.setHeader f.1 (stripped f.2) }
  content_len := if isLength f.1 f.2 then intOfLong (strtol 10 (stripped f.2)) else r.content_len
  chunked := r.chunked || isChunked f.1 f.2
  close := r.close || isClose f.1 f.2
  line := lineState f.1 f.2

/-- A status line and fields. -/
structure Head where
  version : Bytes
  status : Bytes
  reason : Bytes
  fields : List (Bytes × Bytes)

def fieldLine (f : Bytes × Bytes) : Bytes := f.1 ++ [58] ++ f.2 ++ crlf

namespace Head

variable (hd : Head)

def statusLine : Bytes := hd.version ++ [32] ++ hd.status ++ [32] ++ hd.reason ++ crlf

def text : Bytes := hd.statusLine ++ hd.fields.flatMap fieldLine ++ crlf

/-- The elements are texts of the rules. -/
structure WellFormed : Prop where
  version : ∃ major minor : Bytes, hd.version = ascii "HTTP/" ++ major ++ [46] ++ minor ∧
    major ≠ [] ∧ minor ≠ [] ∧ ∀ b ∈ major ++ minor, within digits b = true
  status : hd.status ≠ [] ∧ ∀ b ∈ hd.status, within digits b = true
  reason : hd.reason ≠ [] ∧ ∀ b ∈ hd.reason, b ≠ 10 ∧ b ≠ 13
  names : ∀ f ∈ hd.fields, f.1 ≠ [] ∧ ∀ b ∈ f.1, isToken b = true
  values : ∀ f ∈ hd.fields, ∀ b ∈ f.2, b ≠ 10 ∧ b ≠ 13

/-- What the status line says. -/
def status_report : Report where
  target := ((ResponseTarget.on_response_version {} hd.version hd.version.length)
    |>.on_response_status hd.status).on_response_reason hd.reason hd.reason.length

def report : Report := hd.fields.foldl Report.field hd.status_report

end Head

/-! ## Between the bytes of a head -/

/-- What the parser holds within a line. -/
structure Held (r : Report) (x : HttpclientParser × ResponseTarget) : Prop where
  target : x.2 = r.target
  content_len : x.1.content_len = r.content_len
  chunked : x.1.chunked = r.chunked
  close : x.1.close = r.close
  chunks_done : x.1.chunks_done = false

/-- At the beginning of a line. What `Connection: close` says is noted with the byte behind it. -/
structure Ready (r : Report) (pre : Bytes) (s : Nat) (x : HttpclientParser × ResponseTarget) :
    Prop where
  line : s = r.line
  mem : s ∈ lineStates
  target : x.2 = r.target
  content_len : x.1.content_len = r.content_len
  chunked : x.1.chunked = r.chunked
  close : (x.1.close || s = 43) = r.close
  chunks_done : x.1.chunks_done = false

/-- Before the line feed. -/
structure Closing (r : Report) (pre : Bytes) (s : Nat) (x : HttpclientParser × ResponseTarget) :
    Prop where
  line : lfState s = r.line
  mem : s ∈ closingStates
  target : x.2 = r.target
  content_len : x.1.content_len = r.content_len
  chunked : (x.1.chunked || s = 71) = r.chunked
  close : (x.1.close || s = 88) = r.close
  chunks_done : x.1.chunks_done = false

/-- Behind the first bytes `u` of a name. -/
structure Naming (r : Report) (u pre : Bytes) (s : Nat) (x : HttpclientParser × ResponseTarget) :
    Prop where
  ne_nil : u ≠ []
  start : ∃ before, pre = before ++ u ∧ x.1.field_start = before.length
  mem : s ∈ nameStates
  word : nameParts.lookup s = known (words nameParts) (lower u)
  held : Held r x

/-- The name has been read. -/
structure Named (r : Report) (name pre : Bytes) (s : Nat)
    (x : HttpclientParser × ResponseTarget) : Prop where
  start : ∃ before after, pre = before ++ (name ++ after) ∧ x.1.field_start = before.length ∧
    x.1.field_len = name.length
  state : s = valueStart (some (lower name))
  held : Held r x

/-- Behind the first bytes `v` of a value. -/
structure Valuing (r : Report) (name v pre : Bytes) (s : Nat)
    (x : HttpclientParser × ResponseTarget) : Prop where
  ne_nil : v ≠ []
  start : ∃ before after, pre = before ++ (name ++ after) ++ v ∧ x.1.field_start = before.length ∧
    x.1.field_len = name.length ∧ x.1.mark = (before ++ (name ++ after)).length
  state : valueState (valueStart (some (lower name))) v s = true
  held : Held r x

abbrev Reads (P : Bytes → Nat → HttpclientParser × ResponseTarget → Prop) (w : Bytes)
    (Q : Bytes → Nat → HttpclientParser × ResponseTarget → Prop) : Prop :=
  Takes transition HttpclientParser.act P w Q

variable {r : Report} {name value : Bytes}

/-! ## A name -/

theorem reads_first {b : UInt8} (hb : isToken b = true) :
    Reads (Ready r) [b] (Naming r [b]) := by
  refine Takes.letter fun pre rest s x h => ?_
  obtain ⟨m, hm, hdone, hp⟩ := Steps.elim ((steps_token b hb).1 s h.mem)
  simp only [Bool.and_eq_true, List.contains_iff_mem, beq_iff_eq] at hp
  obtain ⟨⟨hacts, hmem⟩, hword⟩ := hp
  have hclose := h.close
  have hstart : ∃ before, pre ++ [b] = before ++ [b] ∧ pre.length = before.length :=
    ⟨pre, rfl, rfl⟩
  unfold startActions at hacts
  split at hacts
  · next hs =>
    rw [List.mem_singleton] at hacts
    refine ⟨m, ({ x.1 with close := true, field_start := pre.length }, x.2), hm, hdone, ?_, ?_⟩
    · rw [hacts]
      rfl
    · rw [hs, decide_eq_true rfl, Bool.or_true] at hclose
      exact ⟨List.cons_ne_nil _ _, hstart, hmem, hword,
        h.target, h.content_len, h.chunked, hclose, h.chunks_done⟩
  · next hs =>
    rw [decide_eq_false hs, Bool.or_false] at hclose
    have hheld : Held r x := ⟨h.target, h.content_len, h.chunked, hclose, h.chunks_done⟩
    rcases List.mem_cons.mp hacts with hacts | hacts
    · refine ⟨m, ({ x.1 with field_start := pre.length }, x.2), hm, hdone, ?_, ?_⟩
      · rw [hacts]
        rfl
      · exact ⟨List.cons_ne_nil _ _, hstart, hmem, hword, hheld.1, hheld.2, hheld.3, hheld.4,
          hheld.5⟩
    · refine ⟨m, ({ x.1 with mark := pre.length, field_start := pre.length }, x.2), hm, hdone, ?_,
        ?_⟩
      · rw [List.mem_singleton.mp hacts]
        rfl
      · exact ⟨List.cons_ne_nil _ _, hstart, hmem, hword, hheld.1, hheld.2, hheld.3, hheld.4,
          hheld.5⟩

theorem reads_token {b : UInt8} (hb : isToken b = true) (u : Bytes) :
    Reads (Naming r u) [b] (Naming r (u ++ [b])) := by
  refine Takes.letter fun pre rest s x h => ?_
  obtain ⟨m, hm, hdone, hp⟩ := Steps.elim ((steps_token b hb).2 s h.mem)
  simp only [Bool.and_eq_true, List.contains_iff_mem, beq_iff_eq] at hp
  obtain ⟨⟨hacts, hmem⟩, hword⟩ := hp
  obtain ⟨before, rfl, hstart⟩ := h.start
  refine ⟨m, x, hm, hdone, by rw [hacts]; rfl, by simp, ⟨before, List.append_assoc _ _ _, hstart⟩,
    hmem, ?_, h.held⟩
  have hlower : lower u ≠ [] := by simpa [lower] using h.ne_nil
  rw [hword, h.word, ← known_append prefixClosed_name hlower, lower, lower, List.map_append,
    List.map_singleton]

/-- The three names are among the words. -/
theorem valueStart_known (w : Bytes) :
    valueStart (known (words nameParts) w) = valueStart (some w) := by
  by_cases hmem : w ∈ words nameParts
  · rw [known, if_pos hmem]
  · have hspecial : ∀ u ∈ [ascii "connection", ascii "transfer-encoding", ascii "content-length"],
        w ≠ u := by
      rintro u hu rfl
      have hwords : ∀ u ∈ [ascii "connection", ascii "transfer-encoding", ascii "content-length"],
          u ∈ words nameParts := by decide
      exact hmem (hwords _ hu)
    have hnone : valueStart none = 22 := rfl
    rw [known, if_neg hmem, hnone, valueStart,
      if_neg fun h => hspecial _ (by simp) (Option.some.inj h),
      if_neg fun h => hspecial _ (by simp) (Option.some.inj h),
      if_neg fun h => hspecial _ (by simp) (Option.some.inj h)]

theorem reads_colon : Reads (Naming r name) [58] (Named r name) := by
  refine Takes.letter fun pre rest s x h => ?_
  obtain ⟨before, rfl, hstart⟩ := h.start
  have hle : x.1.field_start ≤ (before ++ name).length :=
    hstart ▸ (List.prefix_append _ _).length_le
  have hlength : (before ++ name).length - x.1.field_start = name.length := by
    rw [hstart, List.length_append, Nat.add_sub_cancel_left]
  refine ⟨_, ({ x.1 with field_len := name.length }, x.2), steps_colon s h.mem, rfl, ?_,
    ⟨before, [58], List.append_assoc _ _ _, hstart, rfl⟩, ?_, h.held.1, h.held.2, h.held.3,
    h.held.4, h.held.5⟩
  · rw [List.foldlM_cons, HttpclientParser.act, if_pos hle, hlength]
    rfl
  · rw [h.word, valueStart_known]

theorem reads_name (hne : name ≠ []) (htokens : ∀ b ∈ name, isToken b = true) :
    Reads (Ready r) (name ++ [58]) (Named r name) := by
  cases name with
  | nil => exact absurd rfl hne
  | cons b name =>
    have hrest : Reads (Naming r [b]) name (Naming r ([b] ++ name)) :=
      Takes.run fun u c hc => reads_token (htokens c (List.mem_cons_of_mem b hc)) u
    exact ((reads_first (htokens b List.mem_cons_self)).append hrest).append reads_colon

/-! ## A value -/

theorem valueStart_mem (o : Option Bytes) : valueStart o ∈ valueStarts := by
  unfold valueStart
  split
  · decide
  · split
    · decide
    · split <;> decide

theorem reads_blank {b : UInt8} (hb : isBlank b = true) :
    Reads (Named r name) [b] (Named r name) := by
  refine Takes.letter fun pre rest s x h => ?_
  obtain ⟨before, after, rfl, hstart, hlen⟩ := h.start
  have hm := steps_blank b hb _ (valueStart_mem (some (lower name)))
  rw [← h.state] at hm
  exact ⟨_, ({ x.1 with mark := (before ++ (name ++ after)).length }, x.2), hm, rfl, rfl,
    ⟨before, after ++ [b], by simp only [List.append_assoc], hstart, hlen⟩, h.state, h.held.1,
    h.held.2, h.held.3, h.held.4, h.held.5⟩

theorem reads_value_first {b : UInt8} (hb : isBlank b = false) (hlf : b ≠ 10) (hcr : b ≠ 13) :
    Reads (Named r name) [b] (Valuing r name [b]) := by
  refine Takes.letter fun pre rest s x h => ?_
  obtain ⟨before, after, rfl, hstart, hlen⟩ := h.start
  obtain ⟨m, hm, hdone, hp⟩ :=
    Steps.elim ((steps_value b hlf hcr).1 hb _ (valueStart_mem (some (lower name))))
  rw [← h.state] at hm
  simp only [Bool.and_eq_true, beq_iff_eq] at hp
  exact ⟨m, ({ x.1 with mark := (before ++ (name ++ after)).length }, x.2), hm, hdone,
    by rw [hp.1]; rfl, List.cons_ne_nil _ _,
    ⟨before, after, rfl, hstart, hlen, rfl⟩, hp.2, h.held.1, h.held.2, h.held.3, h.held.4,
    h.held.5⟩

/-- A value goes on. -/
theorem valueState_step {k s : Nat} {v : Bytes} {b : UInt8} (hk : k ∈ valueStarts) (hv : v ≠ [])
    (hs : valueState k v s = true) (hlf : b ≠ 10) (hcr : b ≠ 13) :
    ∃ s', transition s b = some ⟨[], false, s'⟩ ∧ valueState k (v ++ [b]) s' = true := by
  unfold valueState at hs ⊢
  by_cases hdigits : k = 112
  · rw [if_pos hdigits, beq_iff_eq] at hs
    have hmem : s ∈ [23, 119] := by
      rw [hs]
      split <;> decide
    refine ⟨_, (steps_value b hlf hcr).2.2 s hmem, ?_⟩
    rw [if_pos hdigits, beq_iff_eq, hs, List.all_append]
    cases v.all (within digits) <;> cases hb : within digits b <;> simp [hb]
  · rw [if_neg hdigits, Bool.and_eq_true, List.contains_iff_mem, beq_iff_eq] at hs
    have hk' : k ∈ [22, 35, 61] := by
      simpa [valueStarts, hdigits] using hk
    obtain ⟨⟨as, done, s'⟩, hm, rfl, hp⟩ :=
      Steps.elim ((steps_value b hlf hcr).2.1 k hk' s hs.1)
    simp only [Bool.and_eq_true, List.contains_iff_mem, beq_iff_eq] at hp
    obtain ⟨⟨rfl, hmem⟩, hword⟩ := hp
    have hlower : lower v ≠ [] := by simpa [lower] using hv
    refine ⟨s', hm, ?_⟩
    rw [if_neg hdigits, Bool.and_eq_true, List.contains_iff_mem, beq_iff_eq, hword, hs.2,
      ← known_append (prefixClosed_value k hk') hlower, lower, lower, List.map_append,
      List.map_singleton]
    exact ⟨hmem, rfl⟩

theorem reads_value_byte {b : UInt8} (hlf : b ≠ 10) (hcr : b ≠ 13) (v : Bytes) :
    Reads (Valuing r name v) [b] (Valuing r name (v ++ [b])) := by
  refine Takes.letter fun pre rest s x h => ?_
  obtain ⟨before, after, rfl, hstart, hlen, hmark⟩ := h.start
  obtain ⟨s', hm, hs'⟩ := valueState_step (valueStart_mem _) h.ne_nil h.state hlf hcr
  exact ⟨_, x, hm, rfl, rfl, by simp,
    ⟨before, after, List.append_assoc _ _ _, hstart, hlen, hmark⟩, hs', h.held⟩

/-- A field with its value is reported. -/
theorem act_write_value (x : HttpclientParser × ResponseTarget) {before after v : Bytes}
    (rest : Bytes) (hne : name ≠ []) (hstart : x.1.field_start = before.length)
    (hlen : x.1.field_len = name.length) (hmark : x.1.mark = (before ++ (name ++ after)).length) :
    HttpclientParser.act (before ++ (name ++ after) ++ v ++ rest)
        (before ++ (name ++ after) ++ v).length x .write_value =
      some (x.1, { x.2 with m_data := x.2.m_data.setHeader name v }) := by
  have hfield : ((before ++ (name ++ after) ++ v ++ rest).drop before.length).take name.length =
      name := by
    simp only [List.append_assoc, List.drop_left, List.take_left]
  have hvalue := take_drop_between (before ++ (name ++ after)) v rest
  have hinside : x.1.field_start + x.1.field_len ≤
      (before ++ (name ++ after) ++ v ++ rest).length ∧
        x.1.mark ≤ (before ++ (name ++ after) ++ v).length := by
    rw [hstart, hlen, hmark]
    simp only [List.length_append]
    omega
  have hpos : name.length ≠ 0 := fun h => hne (List.length_eq_zero_iff.mp h)
  rw [HttpclientParser.act, if_pos hinside, ResponseTarget.on_response_http_field, hlen, hstart,
    hmark, if_neg hpos, hfield, hvalue]

/-- Digits, up to a byte that is none. -/
theorem strtol_digits {base : Nat} (hbase : base ≤ 36) {w : Bytes} (rest : Bytes) (hne : w ≠ [])
    (hw : ∀ b ∈ w, digitValue b < base)
    (hrest : ∀ d ∈ rest.head?, ¬digitValue d < base ∧ tolower d ≠ 120) :
    strtol base (w ++ rest) =
      min ((w.foldl (fun n b => base * n + digitValue b) 0 : Nat) : Int) (2 ^ 63 - 1) := by
  obtain ⟨b, w, rfl⟩ := List.exists_cons_of_ne_nil hne
  obtain ⟨-, -, -, -, hletter, -⟩ := digits_spec b
  obtain ⟨hspace, hminus, hplus⟩ := hletter (Nat.lt_of_lt_of_le (hw b List.mem_cons_self) hbase)
  have hprefix : dropPrefix base (b :: w ++ rest) = b :: w ++ rest := by
    unfold dropPrefix
    split
    · next x c s heq =>
      rw [heq, if_neg]
      rintro ⟨rfl, hx, -⟩
      cases w with
      | nil =>
        rw [List.singleton_append, List.cons.injEq] at heq
        exact (hrest x (heq.2 ▸ rfl)).2 hx
      | cons b' w =>
        rw [List.cons_append, List.cons_append, List.cons.injEq, List.cons.injEq] at heq
        obtain ⟨-, -, -, -, -, hsixteen⟩ := digits_spec x
        exact hsixteen (heq.2.1 ▸ hw b' (by simp)) hx
    · rfl
  have htake : (b :: w ++ rest).takeWhile (fun b => decide (digitValue b < base)) = b :: w := by
    rw [List.takeWhile_append_of_pos fun c hc => decide_eq_true (hw c hc)]
    cases rest with
    | nil => rw [List.takeWhile_nil, List.append_nil]
    | cons d rest =>
      rw [List.takeWhile_cons_of_neg (by simpa using (hrest d rfl).1), List.append_nil]
  have hdrop : (b :: w ++ rest).dropWhile isspace = b :: (w ++ rest) := by
    rw [List.cons_append, List.dropWhile_cons_of_neg (by simp [hspace])]
  unfold strtol
  rw [hdrop]
  split
  · next heq => exact absurd (List.cons.inj heq).1 hminus
  · next heq => exact absurd (List.cons.inj heq).1 hplus
  · rw [leadingNumber, ← List.cons_append, hprefix, htake]

/-- The digits of a length end at the end of its line. -/
theorem strtol_line {v : Bytes} (hv : v ≠ []) (hdigits : ∀ b ∈ v, within digits b = true)
    {d : UInt8} (hd : within digits d = false) (hx : tolower d ≠ 120) (rest : Bytes) :
    strtol 10 (v ++ d :: rest) = strtol 10 v := by
  have hlt : ∀ b ∈ v, digitValue b < 10 := fun b hb => (digits_spec b).1.mp (hdigits b hb)
  have hend : ¬digitValue d < 10 := fun h => by
    rw [(digits_spec d).1.mpr h] at hd
    cases hd
  have hline := strtol_digits (by decide) (d :: rest) hv hlt fun d' hd' => by
    cases hd'
    exact ⟨hend, hx⟩
  have hself := strtol_digits (by decide) [] hv hlt fun d' hd' => by cases hd'
  rw [List.append_nil] at hself
  rw [hline, hself]

/-- The state in which a value ends tells whether it is one that the grammar knows. -/
structure EndState (name value : Bytes) (s : Nat) : Prop where
  mem : s ∈ [23, 119] ++ valueStates 35 ++ valueStates 61
  length : s = 119 ↔ isLength name value = true
  chunked : s = 87 ↔ isChunked name value = true
  close : s = 100 ↔ isClose name value = true

/-- The last state of a word is that of the whole word. -/
theorem lookup_eq_iff {k n : Nat} {text : Bytes} (hk : (k, n, text) ∈
      [(35, 100, ascii "close"), (61, 87, ascii "chunked")]) {s : Nat} (hs : s ∈ valueStates k)
    {w : Bytes} (hword : (valueParts k).lookup s = known (words (valueParts k)) w) :
    s = n ↔ w = text := by
  have hlast : ∀ e ∈ [(35, 100, ascii "close"), (61, 87, ascii "chunked")],
      e.2.2 ∈ words (valueParts e.1) ∧
        ∀ s ∈ valueStates e.1, s = e.2.1 ↔ (valueParts e.1).lookup s = some e.2.2 := by
    decide
  obtain ⟨hmem, hstates⟩ := hlast _ hk
  rw [hstates s hs, hword, known_eq_some]
  constructor
  · exact fun h => h.1.symm
  · rintro rfl
    exact ⟨rfl, hmem⟩

theorem EndState.of_value {s : Nat} (hne : stripped value ≠ [])
    (hs : valueState (valueStart (some (lower name))) (stripped value) s = true) :
    EndState name value s := by
  have hstates : ∀ s ∈ valueStates 35, s ∈ [23, 119] ++ valueStates 35 ++ valueStates 61 ∧
      s ≠ 119 ∧ s ≠ 87 := by decide
  have hstates' : ∀ s ∈ valueStates 61, s ∈ [23, 119] ++ valueStates 35 ++ valueStates 61 ∧
      s ≠ 119 ∧ s ≠ 100 := by decide
  unfold valueState valueStart at hs
  simp only [Option.some.injEq] at hs
  by_cases hconnection : lower name = ascii "connection"
  · rw [if_pos hconnection, if_neg (by decide), Bool.and_eq_true, List.contains_iff_mem,
      beq_iff_eq] at hs
    obtain ⟨hmem, hlength, hchunked⟩ := hstates s hs.1
    refine ⟨hmem, iff_of_false hlength ?_, iff_of_false hchunked ?_, ?_⟩
    · simp [isLength, hconnection, ascii]
    · simp [isChunked, hconnection, ascii]
    · rw [lookup_eq_iff List.mem_cons_self hs.1 hs.2]
      simp [isClose, hconnection]
  · rw [if_neg hconnection] at hs
    by_cases hcoding : lower name = ascii "transfer-encoding"
    · rw [if_pos hcoding, if_neg (by decide), Bool.and_eq_true, List.contains_iff_mem,
        beq_iff_eq] at hs
      obtain ⟨hmem, hlength, hclose⟩ := hstates' s hs.1
      refine ⟨hmem, iff_of_false hlength ?_, ?_, iff_of_false hclose ?_⟩
      · simp [isLength, hcoding, ascii]
      · rw [lookup_eq_iff (List.mem_cons_of_mem _ List.mem_cons_self) hs.1 hs.2]
        simp [isChunked, hcoding]
      · simp [isClose, hconnection]
    · rw [if_neg hcoding] at hs
      by_cases hcontent : lower name = ascii "content-length"
      · rw [if_pos hcontent, if_pos rfl, beq_iff_eq] at hs
        refine ⟨?_, ?_, iff_of_false ?_ ?_, iff_of_false ?_ ?_⟩
        · rw [hs]
          split <;> decide
        · rw [hs]
          simp [isLength, hcontent, hne]
        · rw [hs]
          split <;> decide
        · simp [isChunked, hcoding]
        · rw [hs]
          split <;> decide
        · simp [isClose, hconnection]
      · rw [if_neg hcontent, if_neg (by decide), Bool.and_eq_true, List.contains_iff_mem] at hs
        have hs' : s = 23 := List.mem_singleton.mp hs.1
        refine ⟨by rw [hs']; decide, iff_of_false (by omega) ?_, iff_of_false (by omega) ?_,
          iff_of_false (by omega) ?_⟩
        · simp [isLength, hcontent]
        · simp [isChunked, hcoding]
        · simp [isClose, hconnection]

theorem reads_value_end (hne : name ≠ []) (hval : stripped value ≠ []) :
    Reads (Valuing r name (stripped value)) [13] (Closing (r.field (name, value))) := by
  refine Takes.letter fun pre rest s x h => ?_
  obtain ⟨before, after, rfl, hstart, hlen, hmark⟩ := h.start
  have hend := EndState.of_value hval h.state
  have hvalue := act_write_value x (v := stripped value) (13 :: rest) hne hstart hlen hmark
  have hline : lfState (if s = 87 then 71 else if s = 100 then 88 else 24) =
      lineState name value := by
    unfold lineState
    rw [if_neg hval]
    by_cases h87 : s = 87
    · have hclose : isClose name value = false := by
        rw [Bool.eq_false_iff, ne_eq, ← hend.close]
        omega
      rw [if_pos h87, hclose]
      rfl
    · rw [if_neg h87]
      by_cases h100 : s = 100
      · rw [if_pos h100, hend.close.mp h100]
        rfl
      · rw [if_neg h100, Bool.eq_false_iff.mpr (mt hend.close.mpr h100)]
        rfl
  have hmem : (if s = 87 then 71 else if s = 100 then 88 else 24) ∈ closingStates := by
    split
    · decide
    · split <;> decide
  have h71 : decide ((if s = 87 then 71 else if s = 100 then 88 else 24) = 71) =
      isChunked name value := by
    rw [Bool.eq_iff_iff, decide_eq_true_eq, ← hend.chunked]
    split_ifs <;> omega
  have h88 : decide ((if s = 87 then 71 else if s = 100 then 88 else 24) = 88) =
      isClose name value := by
    rw [Bool.eq_iff_iff, decide_eq_true_eq, ← hend.close]
    split_ifs <;> omega
  have htarget : { x.2 with m_data := x.2.m_data.setHeader name (stripped value) } =
      (r.field (name, value)).target := by rw [h.held.target]; rfl
  by_cases h119 : s = 119
  · have hlength := hend.length.mp h119
    have hdigits := (of_decide_eq_true hlength).2.2
    have hnumber : strtol 10 ((before ++ (name ++ after) ++ stripped value ++ 13 :: rest).drop
        x.1.mark) = strtol 10 (stripped value) := by
      rw [hmark, List.append_assoc, List.drop_left]
      exact strtol_line hval (List.all_eq_true.mp hdigits) rfl (by decide) rest
    refine ⟨_, ({ x.1 with content_len := intOfLong (strtol 10 (stripped value)) },
      { x.2 with m_data := x.2.m_data.setHeader name (stripped value) }), steps_end s hend.mem, rfl,
      ?_, hline, hmem, htarget, ?_, ?_, ?_, h.held.chunks_done⟩
    · rw [if_pos h119, List.foldlM_cons, HttpclientParser.act, hnumber, Option.bind_eq_bind,
        Option.bind_some, List.foldlM_cons]
      have hvalue' := act_write_value
        ({ x.1 with content_len := intOfLong (strtol 10 (stripped value)) }, x.2)
        (v := stripped value) (13 :: rest) hne hstart hlen hmark
      rw [hvalue']
      rfl
    · exact (if_pos hlength).symm
    · dsimp only
      rw [h71, h.held.chunked]
      rfl
    · dsimp only
      rw [h88, h.held.close]
      rfl
  · have hlength := Bool.eq_false_iff.mpr (mt hend.length.mpr h119)
    refine ⟨_, (x.1, { x.2 with m_data := x.2.m_data.setHeader name (stripped value) }),
      steps_end s hend.mem, rfl, ?_, hline, hmem, htarget, ?_, ?_, ?_, h.held.chunks_done⟩
    · rw [if_neg h119, List.foldlM_cons, hvalue]
      rfl
    · rw [Report.field, hlength, h.held.content_len]
      rfl
    · dsimp only
      rw [h71, h.held.chunked]
      rfl
    · dsimp only
      rw [h88, h.held.close]
      rfl

/-- A field with no value. -/
theorem reads_no_value (hne : name ≠ []) (hval : stripped value = []) :
    Reads (Named r name) [13] (Closing (r.field (name, value))) := by
  refine Takes.letter fun pre rest s x h => ?_
  obtain ⟨before, after, rfl, hstart, hlen⟩ := h.start
  have hm := steps_crlf _ (valueStart_mem (some (lower name)))
  rw [← h.state] at hm
  have hvalue := act_write_value ({ x.1 with mark := (before ++ (name ++ after)).length }, x.2)
    (v := []) (13 :: rest) hne hstart hlen rfl
  rw [List.append_nil] at hvalue
  have hdull : isLength name value = false ∧ isChunked name value = false ∧
      isClose name value = false := by
    simp [isLength, isChunked, isClose, hval, lower, ascii]
  have hstate : lfState (crState s) = lineState name value ∧ crState s ∈ closingStates ∧
      crState s ≠ 71 ∧ crState s ≠ 88 := by
    rw [h.state, lineState, if_pos hval, valueStart]
    simp only [Option.some.injEq]
    by_cases hconnection : lower name = ascii "connection"
    · rw [if_pos hconnection, if_pos hconnection]
      decide
    · rw [if_neg hconnection, if_neg hconnection]
      by_cases hcoding : lower name = ascii "transfer-encoding"
      · rw [if_pos hcoding, if_pos hcoding]
        decide
      · rw [if_neg hcoding, if_neg hcoding]
        by_cases hcontent : lower name = ascii "content-length"
        · rw [if_pos hcontent, if_pos hcontent]
          decide
        · rw [if_neg hcontent, if_neg hcontent]
          decide
  refine ⟨_, ({ x.1 with mark := (before ++ (name ++ after)).length },
    { x.2 with m_data := x.2.m_data.setHeader name [] }), hm, rfl, ?_, hstate.1, hstate.2.1, ?_, ?_,
    ?_, ?_, h.held.chunks_done⟩
  · rw [List.foldlM_cons, HttpclientParser.act, Option.bind_eq_bind, Option.bind_some,
      List.foldlM_cons, hvalue]
    rfl
  · rw [Report.field, hval, h.held.target]
  · rw [Report.field, hdull.1, h.held.content_len]
    rfl
  · rw [Report.field, hdull.2.1, h.held.chunked, decide_eq_false hstate.2.2.1]
  · rw [Report.field, hdull.2.2, h.held.close, decide_eq_false hstate.2.2.2]

theorem stripped_cons_blank {b : UInt8} (hb : isBlank b = true) (v : Bytes) :
    stripped (b :: v) = stripped v := List.dropWhile_cons_of_pos hb

theorem stripped_cons {b : UInt8} (hb : isBlank b = false) (v : Bytes) :
    stripped (b :: v) = b :: v := List.dropWhile_cons_of_neg (by simp [hb])

/-- A field says what its value says behind the blanks. -/
theorem Report.field_congr (r : Report) (name : Bytes) {v v' : Bytes}
    (h : stripped v = stripped v') : r.field (name, v) = r.field (name, v') := by
  have hclose : isClose name v = isClose name v' := by rw [isClose, isClose, h]
  have hchunked : isChunked name v = isChunked name v' := by rw [isChunked, isChunked, h]
  have hlength : isLength name v = isLength name v' := by rw [isLength, isLength, h]
  rw [field, field, lineState, lineState]
  dsimp only
  rw [hclose, hchunked, hlength, h]

/-- The value is read up to the end of the line, without the blanks before it. -/
theorem reads_value (hne : name ≠ []) (hvalue : ∀ b ∈ value, b ≠ 10 ∧ b ≠ 13) :
    Reads (Named r name) (value ++ [13]) (Closing (r.field (name, value))) := by
  induction value with
  | nil => exact reads_no_value hne rfl
  | cons b v ih =>
    have hv : ∀ c ∈ v, c ≠ 10 ∧ c ≠ 13 := fun c hc => hvalue c (List.mem_cons_of_mem b hc)
    cases hb : isBlank b with
    | true =>
      rw [Report.field_congr r name (stripped_cons_blank hb v)]
      exact (reads_blank hb).append (ih hv)
    | false =>
      obtain ⟨hlf, hcr⟩ := hvalue b List.mem_cons_self
      have hval := stripped_cons hb v
      have hrest : Reads (Valuing r name [b]) v (Valuing r name ([b] ++ v)) :=
        Takes.run fun u c hc => reads_value_byte (hv c hc).1 (hv c hc).2 u
      have hend := @reads_value_end r name (b :: v) hne
        (by rw [hval]; exact List.cons_ne_nil b v)
      rw [hval] at hend
      exact ((reads_value_first hb hlf hcr).append hrest).append hend

theorem lfState_mem {s : Nat} : lfState s ∈ lineStates := by
  unfold lfState
  split
  · decide
  · split
    · decide
    · split
      · decide
      · split <;> decide

theorem reads_lf : Reads (Closing r) [10] (Ready r) := by
  refine Takes.letter fun pre rest s x h => ?_
  have hclose : decide (lfState s = 43) = decide (s = 88) := by
    have hall : ∀ s ∈ closingStates, decide (lfState s = 43) = decide (s = 88) := by decide
    exact hall s h.mem
  by_cases h71 : s = 71
  · refine ⟨_, ({ x.1 with chunked := true }, x.2), steps_lf s h.mem, rfl, ?_, h.line, lfState_mem,
      h.target, h.content_len, ?_, ?_, h.chunks_done⟩
    · rw [if_pos h71]
      rfl
    · rw [← h.chunked, decide_eq_true h71, Bool.or_true]
    · rw [hclose]
      exact h.close
  · refine ⟨_, x, steps_lf s h.mem, rfl, ?_, h.line, lfState_mem, h.target, h.content_len, ?_, ?_,
      h.chunks_done⟩
    · rw [if_neg h71]
      rfl
    · rw [← h.chunked, decide_eq_false h71, Bool.or_false]
    · rw [hclose]
      exact h.close

theorem reads_field {f : Bytes × Bytes} (hname : f.1 ≠ [] ∧ ∀ b ∈ f.1, isToken b = true)
    (hvalue : ∀ b ∈ f.2, b ≠ 10 ∧ b ≠ 13) (r : Report) :
    Reads (Ready r) (fieldLine f) (Ready (r.field f)) := by
  have hsplit : fieldLine f = f.1 ++ [58] ++ (f.2 ++ [13]) ++ [10] := by
    simp only [fieldLine, crlf, List.append_assoc, List.cons_append, List.nil_append]
  rw [hsplit]
  exact ((reads_name hname.1 hname.2).append (reads_value hname.1 hvalue)).append reads_lf

/-! ## The status line -/

/-- The first byte of an element has been marked, and `u` been read of it in the state `k`. -/
structure Marked (r : Report) (k : Nat) (u pre : Bytes) (s : Nat)
    (x : HttpclientParser × ResponseTarget) : Prop where
  start : ∃ before, pre = before ++ u ∧ x.1.mark = before.length
  state : s = k
  held : Held r x

/-- In the state `k` within the status line. -/
structure Inside (r : Report) (k : Nat) (pre : Bytes) (s : Nat)
    (x : HttpclientParser × ResponseTarget) : Prop where
  state : s = k
  held : Held r x

theorem reads_mark {k k' : Nat} {b : UInt8}
    (hm : transition k b = some ⟨[.mark], false, k'⟩) :
    Reads (Inside r k) [b] (Marked r k' [b]) := by
  refine Takes.letter fun pre rest s x h => ?_
  rw [h.state]
  exact ⟨_, ({ x.1 with mark := pre.length }, x.2), hm, rfl, rfl, ⟨pre, rfl, rfl⟩, rfl,
    h.held.1, h.held.2, h.held.3, h.held.4, h.held.5⟩

theorem reads_quiet {k k' : Nat} {b : UInt8} (hm : transition k b = some ⟨[], false, k'⟩)
    (u : Bytes) : Reads (Marked r k u) [b] (Marked r k' (u ++ [b])) := by
  refine Takes.letter fun pre rest s x h => ?_
  obtain ⟨before, rfl, hmark⟩ := h.start
  rw [h.state]
  exact ⟨_, x, hm, rfl, rfl, ⟨before, List.append_assoc _ _ _, hmark⟩, rfl, h.held⟩

/-- Bytes that stay in a state. -/
theorem reads_loop {k : Nat} {w : Bytes} (hm : ∀ b ∈ w, transition k b = some ⟨[], false, k⟩)
    (u : Bytes) : Reads (Marked r k u) w (Marked r k (u ++ w)) :=
  Takes.run (P := fun u => Marked r k u) fun u b hb => reads_quiet (hm b hb) u

/-- Bytes of which the first one leads to another state. -/
theorem reads_class {k k' : Nat} {w : Bytes} (hne : w ≠ [])
    (hfirst : ∀ b ∈ w, transition k b = some ⟨[], false, k'⟩)
    (hrest : ∀ b ∈ w, transition k' b = some ⟨[], false, k'⟩) (u : Bytes) :
    Reads (Marked r k u) w (Marked r k' (u ++ w)) := by
  obtain ⟨b, w, rfl⟩ := List.exists_cons_of_ne_nil hne
  have htail := reads_loop (r := r) (fun c hc => hrest c (List.mem_cons_of_mem b hc)) (u ++ [b])
  rw [List.append_assoc, List.singleton_append] at htail
  exact (reads_quiet (hfirst b List.mem_cons_self) u).append htail

/-- An element is reported with the byte behind it. -/
theorem reads_element (a : ClientAction) {k k' : Nat} {d : UInt8} {u : Bytes}
    (hm : transition k d = some ⟨[a], false, k'⟩) {f : ResponseTarget → ResponseTarget}
    (hact : ∀ before rest (x : HttpclientParser × ResponseTarget), x.1.mark = before.length →
      HttpclientParser.act (before ++ u ++ d :: rest) (before ++ u).length x a =
        some (x.1, f x.2)) :
    Reads (Marked r k u) [d] (Inside { r with target := f r.target } k') := by
  refine Takes.letter fun pre rest s x h => ?_
  obtain ⟨before, rfl, hmark⟩ := h.start
  rw [h.state]
  refine ⟨_, (x.1, f x.2), hm, rfl, ?_, rfl, ?_, h.held.2, h.held.3, h.held.4, h.held.5⟩
  · rw [List.foldlM_cons, hact before rest x hmark]
    rfl
  · rw [h.held.target]

theorem reads_version {w major minor : Bytes}
    (hw : w = ascii "HTTP/" ++ major ++ [46] ++ minor) (hmajor : major ≠ []) (hminor : minor ≠ [])
    (hdigits : ∀ b ∈ major ++ minor, within digits b = true) :
    Reads (Inside r 1) (w ++ [32]) (Inside
      { r with target := r.target.on_response_version w w.length } 16) := by
  have hin : ∀ b ∈ major, within digits b = true := fun b hb =>
    hdigits b (List.mem_append_left _ hb)
  have hin' : ∀ b ∈ minor, within digits b = true := fun b hb =>
    hdigits b (List.mem_append_right _ hb)
  have hletters : transition 1 72 = some ⟨[.mark], false, 8⟩ ∧
      transition 8 84 = some ⟨[], false, 9⟩ ∧ transition 9 84 = some ⟨[], false, 10⟩ ∧
      transition 10 80 = some ⟨[], false, 11⟩ ∧ transition 11 47 = some ⟨[], false, 12⟩ := by
    decide
  obtain ⟨hH, hT, hT', hP, hslash⟩ := hletters
  have hname : Reads (Inside r 1) (ascii "HTTP/") (Marked r 12 (ascii "HTTP/")) :=
    ((((reads_mark hH).append (reads_quiet hT _)).append (reads_quiet hT' _)).append
      (reads_quiet hP _)).append (reads_quiet hslash _)
  have hmajor' := reads_class (r := r) hmajor
    (fun b hb => (steps_digit b (hin b hb)).1 (12, 13) (by simp))
    (fun b hb => (steps_digit b (hin b hb)).1 (13, 13) (by simp)) (ascii "HTTP/")
  have hdot : Reads (Marked r 13 (ascii "HTTP/" ++ major)) [46]
      (Marked r 14 (ascii "HTTP/" ++ major ++ [46])) := reads_quiet (by decide) _
  have hminor' := reads_class (r := r) hminor
    (fun b hb => (steps_digit b (hin' b hb)).1 (14, 15) (by simp))
    (fun b hb => (steps_digit b (hin' b hb)).1 (15, 15) (by simp)) (ascii "HTTP/" ++ major ++ [46])
  have htext := ((hname.append hmajor').append hdot).append hminor'
  rw [← hw] at htext
  refine htext.append (reads_element .http_version (by decide)
    (f := fun t => t.on_response_version w w.length) fun before rest x hmark => ?_)
  have hle : x.1.mark ≤ (before ++ w).length := hmark ▸ (List.prefix_append _ _).length_le
  have hsame : ∀ at_ : Bytes, x.2.on_response_version (w ++ at_) w.length =
      x.2.on_response_version w w.length := by
    intro at_
    simp only [ResponseTarget.on_response_version, strncmpEq, List.take_left, List.take_length]
  rw [HttpclientParser.act, if_pos hle, hmark, List.append_assoc, List.drop_left,
    List.length_append, Nat.add_sub_cancel_left, hsame]

theorem reads_status {w : Bytes} (hne : w ≠ []) (hdigits : ∀ b ∈ w, within digits b = true) :
    Reads (Inside r 16) (w ++ [32])
      (Inside { r with target := r.target.on_response_status w } 18) := by
  obtain ⟨b, w', hsplit⟩ := List.exists_cons_of_ne_nil hne
  have hrest : Reads (Marked r 17 [b]) w' (Marked r 17 ([b] ++ w')) :=
    reads_loop (fun c hc => (steps_digit c (hdigits c (hsplit ▸ List.mem_cons_of_mem b hc))).1
      (17, 17) (by simp)) _
  have hfirst := (steps_digit b (hdigits b (hsplit ▸ List.mem_cons_self))).2
  have htext := (reads_mark (r := r) hfirst).append hrest
  rw [List.singleton_append, ← hsplit] at htext
  refine htext.append (reads_element .status_code (by decide)
    (f := fun t => t.on_response_status w) fun before rest x hmark => ?_)
  rw [HttpclientParser.act, hmark, List.append_assoc, List.drop_left,
    ResponseTarget.on_response_status, strtol_line hne hdigits (by decide) (by decide)]
  rfl

theorem reads_reason {w : Bytes} (hne : w ≠ []) (hw : ∀ b ∈ w, b ≠ 10 ∧ b ≠ 13) :
    Reads (Inside r 18) (w ++ [13])
      (Inside { r with target := r.target.on_response_reason w w.length } 24) := by
  obtain ⟨b, w', hsplit⟩ := List.exists_cons_of_ne_nil hne
  have hin : ∀ c ∈ b :: w', c ≠ 10 ∧ c ≠ 13 := fun c hc => hw c (hsplit ▸ hc)
  have hrest : Reads (Marked r 19 [b]) w' (Marked r 19 ([b] ++ w')) :=
    reads_loop (fun c hc => (steps_reason c (hin c (List.mem_cons_of_mem b hc)).1
      (hin c (List.mem_cons_of_mem b hc)).2).2) _
  have hb := hin b List.mem_cons_self
  have htext := (reads_mark (r := r) (steps_reason b hb.1 hb.2).1).append hrest
  rw [List.singleton_append, ← hsplit] at htext
  refine htext.append (reads_element .reason_phrase (by decide)
    (f := fun t => t.on_response_reason w w.length) fun before rest x hmark => ?_)
  have hle : x.1.mark ≤ (before ++ w).length := hmark ▸ (List.prefix_append _ _).length_le
  have htake : x.2.on_response_reason (w ++ 13 :: rest) w.length =
      x.2.on_response_reason w w.length := by
    rw [ResponseTarget.on_response_reason, ResponseTarget.on_response_reason, List.take_left,
      List.take_length]
  rw [HttpclientParser.act, if_pos hle, hmark, List.append_assoc, List.drop_left,
    List.length_append, Nat.add_sub_cancel_left, htake]

/-- The empty report, before anything has been read. -/
theorem inside_init {x : HttpclientParser × ResponseTarget} (hx : x = (.init, {})) :
    Inside {} 1 [] HttpclientParser.httpclient_parser_start x := by
  subst hx
  exact ⟨rfl, rfl, rfl, rfl, rfl, rfl⟩

theorem reads_statusLine {hd : Head} (h : hd.WellFormed) :
    Reads (Inside {} 1) hd.statusLine (Ready hd.status_report) := by
  obtain ⟨major, minor, hversion, hmajor, hminor, hdigits⟩ := h.version
  have hclosing : ∀ (r : Report) pre s x, r.line = 20 → Inside r 24 pre s x →
      Closing r pre s x := by
    intro r pre s x hline hin
    rw [hin.state]
    exact ⟨hline.symm, by decide, hin.held.1, hin.held.2, by rw [hin.held.3]; simp,
      by rw [hin.held.4]; simp, hin.held.5⟩
  have hsplit : hd.statusLine = (hd.version ++ [32] ++ (hd.status ++ [32]) ++
      (hd.reason ++ [13])) ++ [10] := by
    simp only [Head.statusLine, crlf, List.append_assoc, List.cons_append, List.nil_append]
  rw [hsplit]
  exact (((((reads_version hversion hmajor hminor hdigits).append
    (reads_status h.status.1 h.status.2)).append (reads_reason h.reason.1 h.reason.2)).imp
      (fun _ _ _ h => h) fun pre s x hin => hclosing _ pre s x rfl hin).append reads_lf)

theorem reads_head {hd : Head} (h : hd.WellFormed) :
    Reads (Inside {} 1) (hd.statusLine ++ hd.fields.flatMap fieldLine) (Ready hd.report) :=
  (reads_statusLine h).append (Takes.foldl (P := Ready)
    (fun f hf r => reads_field (h.names f hf) (h.values f hf) r) hd.status_report)

/-! ## The whole head -/

/-- Behind the carriage return of the empty line. -/
structure Stopping (r : Report) (pre : Bytes) (s : Nat) (x : HttpclientParser × ResponseTarget) :
    Prop where
  state : s = stopState r.line
  mem : r.line ∈ lineStates
  held : Held r x

theorem reads_stop : Reads (Ready r) [13] (Stopping r) := by
  refine Takes.letter fun pre rest s x h => ?_
  have hmem := h.line ▸ h.mem
  have hm := (steps_stop _ hmem).1
  rw [← h.line] at hm
  have hclose := h.close
  by_cases h43 : s = 43
  · rw [decide_eq_true h43, Bool.or_true] at hclose
    refine ⟨_, ({ x.1 with close := true }, x.2), hm, rfl, ?_, by rw [h.line], hmem, h.target,
      h.content_len, h.chunked, hclose, h.chunks_done⟩
    rw [if_pos h43]
    rfl
  · rw [decide_eq_false h43, Bool.or_false] at hclose
    refine ⟨_, x, hm, rfl, ?_, by rw [h.line], hmem, h.target, h.content_len, h.chunked, hclose,
      h.chunks_done⟩
    rw [if_neg h43]
    rfl

/-- What the parser checks of the marks, in a buffer of `n` bytes. -/
structure Marks (n : Nat) (x : HttpclientParser × ResponseTarget) : Prop where
  mark : x.1.mark < n
  field_len : x.1.field_len ≤ n
  field_start : x.1.field_start < n

theorem Marks.act {buffer : Bytes} {n p : Nat} {x x' : HttpclientParser × ResponseTarget}
    {a : ClientAction} (hp : p < n) (h : Marks n x)
    (hact : HttpclientParser.act buffer p x a = some x') : Marks n x' := by
  cases a with
  | mark | start_value =>
    cases hact
    exact ⟨hp, h.field_len, h.field_start⟩
  | start_field =>
    cases hact
    exact ⟨h.mark, h.field_len, hp⟩
  | write_field =>
    obtain ⟨-, hact⟩ := (Option.ite_none_right_eq_some ..).mp hact
    cases hact
    exact ⟨h.mark, Nat.le_trans (Nat.sub_le _ _) (Nat.le_of_lt hp), h.field_start⟩
  | write_content_len | write_connection_close | status_code | chunk_size | trans_chunked =>
    cases hact
    exact ⟨h.mark, h.field_len, h.field_start⟩
  | write_value | reason_phrase | http_version =>
    obtain ⟨-, hact⟩ := (Option.ite_none_right_eq_some ..).mp hact
    cases hact
    exact ⟨h.mark, h.field_len, h.field_start⟩

/-- The last field may go on in the next line. -/
def Head.isOpen (hd : Head) : Bool :=
  hd.fields.getLast?.any fun f => stripped f.2 = [] ∧ lower f.1 ∈
    [ascii "connection", ascii "transfer-encoding", ascii "content-length"]

theorem endState_lineState (name value : Bytes) : endState (lineState name value) = 120 ↔
    ¬(stripped value = [] ∧ lower name ∈
      [ascii "connection", ascii "transfer-encoding", ascii "content-length"]) := by
  unfold lineState
  by_cases hval : stripped value = []
  · rw [if_pos hval, and_iff_right hval]
    simp only [List.mem_cons, List.not_mem_nil, or_false]
    by_cases hconnection : lower name = ascii "connection"
    · rw [if_pos hconnection]
      simp [endState, hconnection]
    · rw [if_neg hconnection]
      by_cases hcoding : lower name = ascii "transfer-encoding"
      · rw [if_pos hcoding]
        simp [endState, hcoding]
      · rw [if_neg hcoding]
        by_cases hcontent : lower name = ascii "content-length"
        · rw [if_pos hcontent]
          simp [endState, hcontent]
        · rw [if_neg hcontent]
          simp [endState, hconnection, hcoding, hcontent]
  · rw [if_neg hval]
    simp only [hval, false_and, not_false_eq_true, iff_true]
    split <;> rfl

theorem endState_report (hd : Head) : endState hd.report.line = 120 ↔ hd.isOpen = false := by
  rcases List.eq_nil_or_concat hd.fields with hnil | ⟨fs, f, hlast⟩
  · rw [Head.report, Head.isOpen, hnil]
    exact iff_of_true rfl rfl
  · rw [List.concat_eq_append] at hlast
    rw [Head.report, Head.isOpen, hlast, List.foldl_concat, List.getLast?_concat]
    exact (endState_lineState f.1 f.2).trans decide_eq_false_iff_not.symm

/-- The parser has come to the end of the head, and reported what it says. -/
structure Understood (hd : Head) (parser : HttpResponseParser) : Prop where
  target : parser.target = hd.report.target
  body_start : parser.m_httpclientParser.body_start = hd.text.length
  content_len : parser.m_httpclientParser.content_len = hd.report.content_len
  chunked : parser.m_httpclientParser.chunked = hd.report.chunked
  chunks_done : parser.m_httpclientParser.chunks_done = false
  close : parser.m_httpclientParser.close = hd.report.close
  finished : parser.isFinished = if hd.isOpen then 0 else 1
  error : parser.hasError = decide (hd.report.target.m_error ≠ 0)

/-- A scan that comes to a last transition is all that `execute` does; the marks are within the
buffer. -/
theorem execute_of_scan (parser : HttpResponseParser) (chunck : Bool) {buffer : Bytes} {n s : Nat}
    {x : HttpclientParser × ResponseTarget}
    (hinit : (if chunck then .init else parser.m_httpclientParser) = HttpclientParser.init)
    (hlen : buffer.length < 2 ^ 31) (hpos : 0 < n) (hfinal : 120 ≤ s)
    (hscan : scan transition (HttpclientParser.act buffer) buffer
      ⟨0, HttpclientParser.httpclient_parser_start, (.init, parser.target)⟩ =
        some ⟨n, some s, x⟩) :
    parser.execute buffer chunck = some (n, buffer.drop n,
      ⟨{ x.1 with cs := s, body_start := n, nread := n }, x.2⟩) := by
  have hbuffer : 0 < buffer.length := by
    cases buffer with
    | nil =>
      cases hscan
      cases hpos
    | cons b buffer => exact Nat.succ_pos _
  have hmarks := scan_invariant (I := Marks buffer.length) (fun p x a x' hp => Marks.act hp)
    (by rw [Nat.zero_add]) hscan ⟨hbuffer, Nat.zero_le _, hbuffer⟩
  have hdone : 0 < n ∧ Option.any
      (fun s => decide (HttpclientParser.httpclient_parser_first_final ≤ s)) (some s) = true :=
    ⟨hpos, decide_eq_true hfinal⟩
  have hzero : HttpclientParser.init.nread + n = n := Nat.zero_add _
  have hexec : HttpclientParser.init.execute parser.target buffer =
      some ((n : Int), { x.1 with cs := s, body_start := n, nread := n }, x.2) := by
    have hstart : HttpclientParser.init.cs = HttpclientParser.httpclient_parser_start := rfl
    unfold HttpclientParser.execute
    rw [if_pos (toInt_eq hlen).symm, hstart, hscan]
    dsimp only
    rw [if_pos hdone, hzero, if_pos ⟨hmarks.2, hmarks.2⟩,
      if_pos ⟨hmarks.1.mark, hmarks.1.field_len, hmarks.1.field_start⟩]
    rfl
  unfold HttpResponseParser.execute
  rw [hinit]
  dsimp only
  rw [hexec]

/-- The loop ends behind a head, whatever comes then. -/
theorem scan_head {hd : Head} (h : hd.WellFormed) (rest : Bytes) :
    ∃ x, scan transition (HttpclientParser.act (hd.text ++ rest)) (hd.text ++ rest)
      ⟨0, HttpclientParser.httpclient_parser_start, (.init, {})⟩ =
        some ⟨hd.text.length, some (endState hd.report.line), x⟩ ∧ Held hd.report x := by
  have hsplit : hd.text ++ rest =
      hd.statusLine ++ hd.fields.flatMap fieldLine ++ [13] ++ 10 :: rest := by
    simp only [Head.text, crlf, List.append_assoc, List.cons_append, List.nil_append]
  have hlength : hd.text.length =
      (hd.statusLine ++ hd.fields.flatMap fieldLine ++ [13]).length + 1 := by
    simp only [Head.text, crlf, List.length_append, List.length_cons, List.length_nil]
  obtain ⟨s, x, hscan, ⟨hstate, hheld⟩⟩ := ((reads_head h).append reads_stop).scan_done
    (inside_init rfl) rest (R := fun s x => s = endState hd.report.line ∧ Held hd.report x)
    fun s' x' hstop => ⟨_, x', hstop.state ▸ (steps_stop _ hstop.mem).2, rfl, rfl, rfl, hstop.held⟩
  rw [← hsplit, ← hlength, hstate] at hscan
  exact ⟨x, hscan, hheld⟩

/-- A parser that is at its start and has reported nothing reads a head to its end. -/
theorem execute_text {hd : Head} (h : hd.WellFormed) (rest : Bytes) {parser : HttpResponseParser}
    {chunck : Bool} (htarget : parser.target = {})
    (hinit : (if chunck then .init else parser.m_httpclientParser) = HttpclientParser.init)
    (hlen : (hd.text ++ rest).length < 2 ^ 31) :
    ∃ parser', parser.execute (hd.text ++ rest) chunck =
      some (hd.text.length, rest, parser') ∧ Understood hd parser' := by
  obtain ⟨x, hscan, hheld⟩ := scan_head h rest
  rw [← htarget] at hscan
  have hpos : 0 < hd.text.length := by
    simp only [Head.text, crlf, List.length_append, List.length_cons, List.length_nil]
    omega
  have hfinal : 120 ≤ endState hd.report.line := by
    rw [endState]
    split_ifs <;> omega
  have hexec := execute_of_scan parser chunck hinit hlen hpos hfinal hscan
  rw [List.drop_left] at hexec
  refine ⟨_, hexec, hheld.target, rfl, hheld.content_len, hheld.chunked, hheld.chunks_done,
    hheld.close, ?_, ?_⟩
  · refine (HttpclientParser.finish_of_final hfinal).trans ?_
    dsimp only
    cases hopen : hd.isOpen with
    | true =>
      refine if_neg fun hdone => ?_
      rw [endState_report, hopen] at hdone
      cases hdone
    | false => exact if_pos ((endState_report hd).mpr hopen)
  · unfold HttpResponseParser.hasError
    rw [HttpclientParser.has_error_of_final hfinal, Bool.or_false, hheld.target]

/-- **Heads.** A head is read to its end by a new parser, which reports what it says. -/
theorem execute_head {hd : Head} (h : hd.WellFormed) (rest : Bytes) (chunck : Bool)
    (hlen : (hd.text ++ rest).length < 2 ^ 31) :
    ∃ parser, HttpResponseParser.new.execute (hd.text ++ rest) chunck =
      some (hd.text.length, rest, parser) ∧ Understood hd parser :=
  execute_text h rest rfl (ite_self _) hlen

/-- A head whose last field has no value. -/
def openHead : Head := ⟨ascii "HTTP/1.1", ascii "200", ascii "OK", [(ascii "Connection", [])]⟩

theorem wellFormed_openHead : openHead.WellFormed where
  version := ⟨ascii "1", ascii "1", by decide, by decide, by decide, by decide +kernel⟩
  status := ⟨by decide, by decide +kernel⟩
  reason := by decide +kernel
  names := by decide +kernel
  values := by decide +kernel

theorem execute_head_open :
    ∃ parser, HttpResponseParser.new.execute (openHead.text ++ ascii "body") true =
      some (openHead.text.length, ascii "body", parser) ∧ Understood openHead parser :=
  execute_head wellFormed_openHead (ascii "body") true (by decide)

end Client

end Captain.Http
