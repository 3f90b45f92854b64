import Captain.Http.ClientHead

/-!
# Chunks (`captain/http/httpclient_parser.rl`, `captain/http/http_parser.cpp`)

With `chunck` the parser is set back, but for what has been reported, and reads the line before a
chunk: the size in hexadecimal digits, and extensions, each of which is reported as a header.

* `execute_chunkLine`: such a line is read by any parser, whatever comes behind it.
* `receiveChunks_text`: a client that reads a chunked body takes the bytes of the chunks in order,
  and leaves what comes behind the last one.
-/

namespace Captain.Http

open Scanner
open Lines

namespace Client

/-- `;name` or `;name=value`. -/
structure Extension where
  name : Bytes
  value : Option Bytes
  deriving DecidableEq

def Extension.text (e : Extension) : Bytes :=
  match e.value with
  | none => 59 :: e.name
  | some value => 59 :: (e.name ++ 61 :: value)

structure Extension.WellFormed (e : Extension) : Prop where
  name : e.name ≠ [] ∧ ∀ b ∈ e.name, isToken b = true
  value : ∀ v ∈ e.value, v ≠ [] ∧ ∀ b ∈ v, isToken b = true

/-- An extension is taken for a header. -/
def Extension.report (t : ResponseTarget) (e : Extension) : ResponseTarget :=
  { t with m_data := t.m_data.setHeader e.name (e.value.getD []) }

/-- The size, in hexadecimal digits, and the extensions. -/
structure ChunkLine where
  size : Bytes
  extensions : List Extension

namespace ChunkLine

variable (c : ChunkLine)

def text : Bytes := c.size ++ c.extensions.flatMap Extension.text ++ crlf

structure WellFormed : Prop where
  size : c.size ≠ [] ∧ ∀ b ∈ c.size, within xdigits b = true
  extensions : ∀ e ∈ c.extensions, e.WellFormed

/-- The number that the digits denote. -/
def number : Nat := c.size.foldl (fun n b => 16 * n + digitValue b) 0

/-- What is kept of it, an `int`. -/
def content_len : Int := intOfLong (min (c.number : Int) (2 ^ 63 - 1))

end ChunkLine

/-! ## The table -/

theorem steps_size : ∀ b, within xdigits b = true →
    transition 1 b = some ⟨[.mark], false, 2⟩ ∧ transition 2 b = some ⟨[], false, 2⟩ := by
  apply forall_byte
  decide +kernel

theorem steps_extension : ∀ b, isToken b = true →
    transition 4 b = some ⟨[.start_field], false, 5⟩ ∧ transition 5 b = some ⟨[], false, 5⟩ ∧
      transition 6 b = some ⟨[.start_value], false, 7⟩ ∧
      transition 7 b = some ⟨[], false, 7⟩ := by
  apply forall_byte
  decide +kernel

/-- The two bytes behind an element of the line, and where they lead. -/
def delimiters : List (UInt8 × Nat) := [(59, 4), (13, 3)]

theorem steps_delimiter : ∀ d ∈ delimiters,
    transition 2 d.1 = some ⟨[.chunk_size], false, d.2⟩ ∧
      transition 5 d.1 = some ⟨[.write_field, .start_value, .write_value], false, d.2⟩ ∧
      transition 7 d.1 = some ⟨[.write_value], false, d.2⟩ := by
  decide

/-! ## Between the bytes of the line -/

/-- The size and some extensions have been reported. -/
structure Sized (n : Int) (t : ResponseTarget) (x : HttpclientParser × ResponseTarget) : Prop where
  target : x.2 = t
  content_len : x.1.content_len = n
  chunked : x.1.chunked = true
  chunks_done : x.1.chunks_done = decide (n ≤ 0)
  close : x.1.close = false

/-- An element has been read that is reported with the byte behind it. -/
def Pending (n : Int) (t : ResponseTarget) (pre : Bytes) (s : Nat)
    (x : HttpclientParser × ResponseTarget) : Prop :=
  ∀ d ∈ delimiters, ∀ rest, ∃ m x', transition s d.1 = some m ∧ m.done = false ∧ m.target = d.2 ∧
    m.actions.foldlM (HttpclientParser.act (pre ++ d.1 :: rest) pre.length) x = some x' ∧
    Sized n t x'

/-- Behind such a byte. -/
structure Behind (n : Int) (t : ResponseTarget) (k : Nat) (pre : Bytes) (s : Nat)
    (x : HttpclientParser × ResponseTarget) : Prop where
  state : s = k
  sized : Sized n t x

/-- Within the name of an extension. -/
structure InName (n : Int) (t : ResponseTarget) (u pre : Bytes) (s : Nat)
    (x : HttpclientParser × ResponseTarget) : Prop where
  start : ∃ before, pre = before ++ u ∧ x.1.field_start = before.length
  state : s = 5
  sized : Sized n t x

/-- Before its value. -/
structure Assigned (n : Int) (t : ResponseTarget) (name pre : Bytes) (s : Nat)
    (x : HttpclientParser × ResponseTarget) : Prop where
  start : ∃ before after, pre = before ++ (name ++ after) ∧ x.1.field_start = before.length ∧
    x.1.field_len = name.length
  state : s = 6
  sized : Sized n t x

/-- Within its value. -/
structure InValue (n : Int) (t : ResponseTarget) (name v pre : Bytes) (s : Nat)
    (x : HttpclientParser × ResponseTarget) : Prop where
  start : ∃ before after, pre = before ++ (name ++ after) ++ v ∧ x.1.field_start = before.length ∧
    x.1.field_len = name.length ∧ x.1.mark = (before ++ (name ++ after)).length
  state : s = 7
  sized : Sized n t x

variable {n : Int} {t : ResponseTarget} {name : Bytes}

theorem reads_delimiter {d : UInt8 × Nat} (hd : d ∈ delimiters) :
    Reads (Pending n t) [d.1] (Behind n t d.2) := by
  refine Takes.letter fun pre rest s x h => ?_
  obtain ⟨m, x', hm, hdone, htarget, hacts, hsized⟩ := h d hd rest
  exact ⟨m, x', hm, hdone, hacts, htarget, hsized⟩

theorem reads_extension_name (hne : name ≠ []) (hname : ∀ b ∈ name, isToken b = true) :
    Reads (Behind n t 4) name (InName n t name) := by
  obtain ⟨b, u, rfl⟩ := List.exists_cons_of_ne_nil hne
  have hfirst : Reads (Behind n t 4) [b] (InName n t [b]) := by
    refine Takes.letter fun pre rest s x h => ?_
    rw [h.state]
    exact ⟨_, ({ x.1 with field_start := pre.length }, x.2),
      (steps_extension b (hname b List.mem_cons_self)).1, rfl, rfl, ⟨pre, rfl, rfl⟩, rfl,
      h.sized.1, h.sized.2, h.sized.3, h.sized.4, h.sized.5⟩
  have hrest : Reads (InName n t [b]) u (InName n t ([b] ++ u)) := by
    refine Takes.run fun u' c hc => Takes.letter fun pre rest s x h => ?_
    obtain ⟨before, rfl, hstart⟩ := h.start
    rw [h.state]
    exact ⟨_, x, (steps_extension c (hname c (List.mem_cons_of_mem b hc))).2.1, rfl, rfl,
      ⟨before, List.append_assoc _ _ _, hstart⟩, rfl, h.sized⟩
  exact hfirst.append hrest

/-- A name with no value. -/
theorem pending_of_name (hne : name ≠ []) {pre : Bytes} {s : Nat}
    {x : HttpclientParser × ResponseTarget} (h : InName n t name pre s x) :
    Pending n (Extension.report t ⟨name, none⟩) pre s x := by
  obtain ⟨before, rfl, hstart⟩ := h.start
  intro d hd rest
  rw [h.state]
  have hle : x.1.field_start ≤ (before ++ name).length :=
    hstart ▸ (List.prefix_append _ _).length_le
  have hlength : (before ++ name).length - x.1.field_start = name.length := by
    rw [hstart, List.length_append, Nat.add_sub_cancel_left]
  have hvalue := @act_write_value name
    ({ x.1 with field_len := name.length, mark := (before ++ name).length }, x.2) before [] []
    (d.1 :: rest) hne hstart rfl (by rw [List.append_nil])
  rw [List.append_nil, List.append_nil] at hvalue
  refine ⟨_, ({ x.1 with field_len := name.length, mark := (before ++ name).length },
    Extension.report x.2 ⟨name, none⟩), (steps_delimiter d hd).2.1, rfl, rfl, ?_, ?_, h.sized.2,
    h.sized.3, h.sized.4, h.sized.5⟩
  · rw [List.foldlM_cons, HttpclientParser.act, if_pos hle, hlength, Option.bind_eq_bind,
      Option.bind_some, List.foldlM_cons, HttpclientParser.act, Option.bind_eq_bind,
      Option.bind_some, List.foldlM_cons, hvalue]
    rfl
  · rw [h.sized.target]

theorem reads_equals : Reads (InName n t name) [61] (Assigned n t name) := by
  refine Takes.letter fun pre rest s x h => ?_
  obtain ⟨before, rfl, hstart⟩ := h.start
  have hle : x.1.field_start ≤ (before ++ name).length :=
    hstart ▸ (List.prefix_append _ _).length_le
  have hlength : (before ++ name).length - x.1.field_start = name.length := by
    rw [hstart, List.length_append, Nat.add_sub_cancel_left]
  have hm : transition 5 61 = some ⟨[.write_field, .start_value], false, 6⟩ := by decide
  rw [h.state]
  refine ⟨_, ({ x.1 with field_len := name.length, mark := (before ++ name).length }, x.2), hm,
    rfl, ?_, ⟨before, [61], List.append_assoc _ _ _, hstart, rfl⟩, rfl, h.sized.1, h.sized.2,
    h.sized.3, h.sized.4, h.sized.5⟩
  rw [List.foldlM_cons, HttpclientParser.act, if_pos hle, hlength]
  rfl

theorem reads_extension_value {v : Bytes} (hne : v ≠ []) (hv : ∀ b ∈ v, isToken b = true) :
    Reads (Assigned n t name) v (InValue n t name v) := by
  obtain ⟨b, u, rfl⟩ := List.exists_cons_of_ne_nil hne
  have hfirst : Reads (Assigned n t name) [b] (InValue n t name [b]) := by
    refine Takes.letter fun pre rest s x h => ?_
    obtain ⟨before, after, rfl, hstart, hlen⟩ := h.start
    rw [h.state]
    exact ⟨_, ({ x.1 with mark := (before ++ (name ++ after)).length }, x.2),
      (steps_extension b (hv b List.mem_cons_self)).2.2.1, rfl, rfl,
      ⟨before, after, rfl, hstart, hlen, rfl⟩, rfl, h.sized.1, h.sized.2, h.sized.3, h.sized.4,
      h.sized.5⟩
  have hrest : Reads (InValue n t name [b]) u (InValue n t name ([b] ++ u)) := by
    refine Takes.run fun u' c hc => Takes.letter fun pre rest s x h => ?_
    obtain ⟨before, after, rfl, hstart, hlen, hmark⟩ := h.start
    rw [h.state]
    exact ⟨_, x, (steps_extension c (hv c (List.mem_cons_of_mem b hc))).2.2.2, rfl, rfl,
      ⟨before, after, List.append_assoc _ _ _, hstart, hlen, hmark⟩, rfl, h.sized⟩
  exact hfirst.append hrest

theorem pending_of_value (hne : name ≠ []) {v pre : Bytes} {s : Nat}
    {x : HttpclientParser × ResponseTarget} (h : InValue n t name v pre s x) :
    Pending n (Extension.report t ⟨name, some v⟩) pre s x := by
  obtain ⟨before, after, rfl, hstart, hlen, hmark⟩ := h.start
  intro d hd rest
  rw [h.state]
  have hvalue := act_write_value x (v := v) (d.1 :: rest) hne hstart hlen hmark
  refine ⟨_, (x.1, Extension.report x.2 ⟨name, some v⟩), (steps_delimiter d hd).2.2, rfl, rfl, ?_,
    ?_, h.sized.2, h.sized.3, h.sized.4, h.sized.5⟩
  · rw [List.foldlM_cons, hvalue]
    rfl
  · rw [h.sized.target]

theorem reads_extension {e : Extension} (h : e.WellFormed) (t : ResponseTarget) :
    Reads (Pending n t) e.text (Pending n (e.report t)) := by
  obtain ⟨name, value⟩ := e
  have hname := (reads_delimiter (n := n) (t := t) (d := (59, 4)) (by decide)).append
    (reads_extension_name h.name.1 h.name.2)
  cases value with
  | none => exact hname.imp (fun _ _ _ h => h) fun pre s x hx => pending_of_name h.name.1 hx
  | some v =>
    have hv := h.value v rfl
    have htext : Extension.text ⟨name, some v⟩ = [59] ++ name ++ [61] ++ v := by
      simp only [Extension.text, List.cons_append, List.nil_append, List.append_assoc]
    rw [htext]
    exact ((hname.append reads_equals).append (reads_extension_value hv.1 hv.2)).imp
      (fun _ _ _ h => h) fun pre s x hx => pending_of_value h.name.1 hx

/-- Before the line of a chunk. -/
structure Before (t : ResponseTarget) (pre : Bytes) (s : Nat)
    (x : HttpclientParser × ResponseTarget) : Prop where
  state : s = 1
  target : x.2 = t
  close : x.1.close = false

/-- Within the size. -/
structure InSize (t : ResponseTarget) (u pre : Bytes) (s : Nat)
    (x : HttpclientParser × ResponseTarget) : Prop where
  start : ∃ before, pre = before ++ u ∧ x.1.mark = before.length
  state : s = 2
  target : x.2 = t
  close : x.1.close = false

/-- The size is reported with the byte behind it, which is no digit. -/
theorem pending_of_size {c : ChunkLine} (h : c.WellFormed) {pre : Bytes} {s : Nat}
    {x : HttpclientParser × ResponseTarget} (hx : InSize t c.size pre s x) :
    Pending c.content_len t pre s x := by
  have hdelimiter : ∀ d ∈ delimiters, ¬digitValue d.1 < 16 ∧ tolower d.1 ≠ 120 := by decide
  obtain ⟨before, rfl, hmark⟩ := hx.start
  intro d hd rest
  rw [hx.state]
  have hnumber : intOfLong (strtol 16 ((before ++ c.size ++ d.1 :: rest).drop x.1.mark)) =
      c.content_len := by
    rw [hmark, List.append_assoc, List.drop_left, strtol_digits (by decide) (d.1 :: rest) h.size.1
      (fun b hb => (digits_spec b).2.1 (h.size.2 b hb)) fun d' hd' => by
        cases hd'
        exact hdelimiter d hd]
    rfl
  refine ⟨_, ({ x.1 with
    chunked := true, content_len := c.content_len, chunks_done := c.content_len ≤ 0 }, x.2),
    (steps_delimiter d hd).1, rfl, rfl, ?_, hx.target, rfl, rfl, rfl, hx.close⟩
  rw [List.foldlM_cons, HttpclientParser.act, hnumber]
  rfl

theorem reads_size {c : ChunkLine} (h : c.WellFormed) :
    Reads (Before t) c.size (Pending c.content_len t) := by
  obtain ⟨b, u, hsplit⟩ := List.exists_cons_of_ne_nil h.size.1
  have hdigit : ∀ d ∈ b :: u, within xdigits d = true := fun d hd => h.size.2 d (hsplit ▸ hd)
  have hfirst : Reads (Before t) [b] (InSize t [b]) := by
    refine Takes.letter fun pre rest s x hx => ?_
    rw [hx.state]
    exact ⟨_, ({ x.1 with mark := pre.length }, x.2),
      (steps_size b (hdigit b List.mem_cons_self)).1, rfl, rfl, ⟨pre, rfl, rfl⟩, rfl, hx.target,
      hx.close⟩
  have hrest : Reads (InSize t [b]) u (InSize t ([b] ++ u)) := by
    refine Takes.run fun u' d hd => Takes.letter fun pre rest s x hx => ?_
    obtain ⟨before, rfl, hmark⟩ := hx.start
    rw [hx.state]
    exact ⟨_, x, (steps_size d (hdigit d (List.mem_cons_of_mem b hd))).2, rfl, rfl,
      ⟨before, List.append_assoc _ _ _, hmark⟩, rfl, hx.target, hx.close⟩
  have hsize := hfirst.append hrest
  rw [List.singleton_append, ← hsplit] at hsize
  exact hsize.imp (fun _ _ _ hx => hx) fun pre s x hx => pending_of_size h hx

/-- The parser has read the line of a chunk; what it had reported before is still there. -/
structure Measured (c : ChunkLine) (t : ResponseTarget) (parser : HttpResponseParser) : Prop where
  target : parser.target = c.extensions.foldl Extension.report t
  content_len : parser.m_httpclientParser.content_len = c.content_len
  chunked : parser.m_httpclientParser.chunked = true
  chunks_done : parser.m_httpclientParser.chunks_done = decide (c.content_len ≤ 0)
  close : parser.m_httpclientParser.close = false
  finished : parser.isFinished = 1
  error : parser.hasError = decide (parser.target.m_error ≠ 0)

theorem execute_chunkLine {c : ChunkLine} (h : c.WellFormed) (parser : HttpResponseParser)
    (rest : Bytes) (hlen : (c.text ++ rest).length < 2 ^ 31) :
    ∃ parser', parser.execute (c.text ++ rest) true = some (c.text.length, rest, parser') ∧
      Measured c parser.target parser' := by
  have hsplit : c.text ++ rest =
      c.size ++ c.extensions.flatMap Extension.text ++ [13] ++ 10 :: rest := by
    simp only [ChunkLine.text, crlf, List.append_assoc, List.cons_append, List.nil_append]
  have hlength : c.text.length =
      (c.size ++ c.extensions.flatMap Extension.text ++ [13]).length + 1 := by
    simp only [ChunkLine.text, crlf, List.length_append, List.length_cons, List.length_nil]
  have hline : Reads (Before parser.target)
      (c.size ++ c.extensions.flatMap Extension.text ++ [13])
      (Behind c.content_len (c.extensions.foldl Extension.report parser.target) 3) :=
    ((reads_size h).append (Takes.foldl (P := Pending c.content_len)
      (fun e he t => reads_extension (h.extensions e he) t) parser.target)).append
      (reads_delimiter (d := (13, 3)) (by decide))
  have hend : transition 3 10 = some ⟨[], true, 120⟩ := by decide
  obtain ⟨s, x, hscan, ⟨hstate, hsized⟩⟩ := hline.scan_done
    (s := HttpclientParser.httpclient_parser_start) (x := (.init, parser.target)) ⟨rfl, rfl, rfl⟩
    rest (R := fun s x => s = 120 ∧
      Sized c.content_len (c.extensions.foldl Extension.report parser.target) x)
    fun s' x' hx => ⟨_, x', hx.state ▸ hend, rfl, rfl, rfl, hx.sized⟩
  rw [← hsplit, ← hlength] at hscan
  have hexec := execute_of_scan parser true rfl hlen (by omega) (Nat.le_of_eq hstate.symm) hscan
  rw [List.drop_left] at hexec
  refine ⟨_, hexec, hsized.target, hsized.content_len, hsized.chunked, hsized.chunks_done,
    hsized.close, ?_, ?_⟩
  · exact (HttpclientParser.finish_of_final (Nat.le_of_eq hstate.symm)).trans (if_pos hstate)
  · unfold HttpResponseParser.hasError
    rw [HttpclientParser.has_error_of_final (Nat.le_of_eq hstate.symm), Bool.or_false]

end Client

/-! ## A chunked body -/

/-- A client reads the line of a chunk, takes as many bytes as `content_len` says, and the end of
the line behind them, until `chunks_done`. -/
def Client.receiveChunks :
    Nat → HttpResponseParser → Bytes → Option (Bytes × Bytes × HttpResponseParser)
  | 0, _, _ => none
  | turns + 1, parser, data =>
    match parser.execute data true with
    | none => none
    | some (_, rest, parser) =>
      let length := parser.m_httpclientParser.content_len.toNat
      if parser.hasError || parser.isFinished ≠ 1 || (rest.drop length).take 2 ≠ crlf then none
      else if parser.m_httpclientParser.chunks_done then some ([], rest.drop 2, parser)
      else (receiveChunks turns parser (rest.drop (length + 2))).map fun (body, behind, parser) =>
        (rest.take length ++ body, behind, parser)

namespace Client

/-- A line and the bytes of the chunk. -/
structure Chunk where
  line : ChunkLine
  data : Bytes

namespace Chunk

variable (c : Chunk)

def text : Bytes := c.line.text ++ c.data ++ crlf

/-- The line says how many bytes there are. -/
structure WellFormed : Prop where
  line : c.line.WellFormed
  number : c.line.number = c.data.length

end Chunk

theorem content_len_eq {c : Chunk} (h : c.WellFormed) (hlen : c.data.length < 2 ^ 31) :
    c.line.content_len = c.data.length := by
  rw [ChunkLine.content_len, h.number, Int.min_eq_left (by omega), intOfLong, BitVec.ofInt_natCast]
  exact toInt_eq hlen

/-- Extensions do not make an error. -/
theorem error_extensions (es : List Extension) (t : ResponseTarget) :
    (es.foldl Extension.report t).m_error = t.m_error := by
  induction es generalizing t with
  | nil => rfl
  | cons e es ih => exact ih (e.report t)

/-- One turn: the bytes of the chunk, and the data behind it. -/
theorem receiveChunks_chunk {c : Chunk} (h : c.WellFormed) {parser : HttpResponseParser}
    (herror : parser.target.m_error = 0) (turns : Nat) (rest : Bytes)
    (hlen : (c.text ++ rest).length < 2 ^ 31) :
    ∃ parser', parser'.target = c.line.extensions.foldl Extension.report parser.target ∧
      Client.receiveChunks (turns + 1) parser (c.text ++ rest) =
        if c.data = [] then some ([], rest, parser')
        else (Client.receiveChunks turns parser' rest).map fun (body, behind, p) =>
          (c.data ++ body, behind, p) := by
  have hsplit : c.text ++ rest = c.line.text ++ (c.data ++ (crlf ++ rest)) := by
    simp only [Chunk.text, List.append_assoc]
  have hshort : c.data.length < 2 ^ 31 := by
    rw [hsplit] at hlen
    simp only [List.length_append] at hlen
    omega
  rw [hsplit] at hlen ⊢
  obtain ⟨parser', hexec, hm⟩ := execute_chunkLine h.line parser _ hlen
  have htoNat : parser'.m_httpclientParser.content_len.toNat = c.data.length := by
    rw [hm.content_len, content_len_eq h hshort, Int.toNat_natCast]
  have hnoerror : parser'.hasError = false := by
    rw [hm.error, hm.target, error_extensions, herror]
    rfl
  have hcrlf : ((c.data ++ (crlf ++ rest)).drop c.data.length).take 2 = crlf := by
    rw [List.drop_left]
    rfl
  have hbehind : (c.data ++ (crlf ++ rest)).drop (c.data.length + 2) = rest := by
    rw [← List.drop_drop, List.drop_left]
    rfl
  have hlast : parser'.m_httpclientParser.chunks_done = decide (c.data = []) := by
    rw [hm.chunks_done, content_len_eq h hshort]
    refine decide_eq_decide.mpr ?_
    rw [← List.length_eq_zero_iff]
    omega
  refine ⟨parser', hm.target, ?_⟩
  rw [Client.receiveChunks, hexec]
  dsimp only
  rw [htoNat, hnoerror, hm.finished, hcrlf, if_neg (by decide), hlast, hbehind, List.take_left]
  by_cases hempty : c.data = []
  · rw [if_pos hempty, if_pos (decide_eq_true hempty), hempty]
    rfl
  · rw [if_neg hempty, if_neg (by simpa using hempty)]

/-- **Chunks.** The client takes the bytes of the chunks up to the one with none, and leaves what
comes behind that; all extensions on the way have been reported. -/
theorem receiveChunks_text {cs : List Chunk} {last : Chunk}
    (h : ∀ c ∈ cs, c.WellFormed ∧ c.data ≠ []) (hlast : last.WellFormed) (hend : last.data = [])
    (parser : HttpResponseParser) (herror : parser.target.m_error = 0) (rest : Bytes)
    (hlen : ((cs ++ [last]).flatMap Chunk.text ++ rest).length < 2 ^ 31) :
    ∃ parser', Client.receiveChunks (cs.length + 1) parser
        ((cs ++ [last]).flatMap Chunk.text ++ rest) = some (cs.flatMap Chunk.data, rest, parser') ∧
      parser'.target = (cs ++ [last]).foldl
        (fun t (c : Chunk) => c.line.extensions.foldl Extension.report t) parser.target := by
  induction cs generalizing parser with
  | nil =>
    rw [List.nil_append, List.flatMap_singleton] at hlen ⊢
    obtain ⟨parser', htarget, hreceive⟩ := receiveChunks_chunk hlast herror 0 rest hlen
    exact ⟨parser', hreceive.trans (if_pos hend), htarget⟩
  | cons c cs ih =>
    obtain ⟨hc, hne⟩ := h c List.mem_cons_self
    rw [List.cons_append, List.flatMap_cons, List.append_assoc] at hlen ⊢
    obtain ⟨parser₁, htarget, hreceive⟩ :=
      receiveChunks_chunk hc herror (cs.length + 1) _ hlen
    have hnext : parser₁.target.m_error = 0 := by rw [htarget, error_extensions, herror]
    obtain ⟨parser₂, hrest, htarget'⟩ := ih (fun c hc => h c (List.mem_cons_of_mem _ hc)) parser₁
      hnext (by
        rw [List.length_append] at hlen
        omega)
    refine ⟨parser₂, ?_, ?_⟩
    · rw [List.length_cons, hreceive, if_neg hne, hrest]
      rfl
    · rw [htarget', htarget]
      rfl

/-- A chunk with an extension. -/
def hello : Chunk := ⟨⟨ascii "5", [⟨ascii "q", some (ascii "1")⟩]⟩, ascii "hello"⟩

def zero : Chunk := ⟨⟨ascii "0", []⟩, []⟩

theorem wellFormed_hello : hello.WellFormed := by
  refine ⟨⟨by decide +kernel, fun e he => ?_⟩, by decide⟩
  rw [List.mem_singleton.mp he]
  refine ⟨by decide +kernel, ?_⟩
  rintro v ⟨⟩
  decide +kernel

theorem wellFormed_zero : zero.WellFormed :=
  ⟨⟨by decide +kernel, fun _ he => absurd he List.not_mem_nil⟩, by decide⟩

theorem receiveChunks_text_hello :
    ∃ parser', Client.receiveChunks ([hello].length + 1) .new
        (([hello] ++ [zero]).flatMap Chunk.text ++ ascii "HTTP/") =
        some ([hello].flatMap Chunk.data, ascii "HTTP/", parser') ∧
      parser'.target = ([hello] ++ [zero]).foldl
        (fun t (c : Chunk) => c.line.extensions.foldl Extension.report t)
        HttpResponseParser.new.target :=
  receiveChunks_text
    (fun c hc => List.mem_singleton.mp hc ▸ ⟨wellFormed_hello, by decide⟩) wellFormed_zero rfl .new
    rfl (ascii "HTTP/") (by decide)

end Client

end Captain.Http
