import Captain.Http.Response
import Captain.Http.Scan
import Captain.Http.Session

/-!
# `HttpRequest::dump` against `HttpRequestParser::execute` (`captain/http/http.cpp`)

`dump` prints a request from the table of the methods and the map of its headers. The parser reads
it with the automaton of `http11_parser.rl`, whose `Method` has no dash; `http_parser_execute`
asserts that the length of its buffer is an `int`.

* `parses_dump_iff`: the parser takes what `dump` prints for the request that was printed exactly
  when the method is not `M-SEARCH` and there are less than `2 ^ 31` bytes.
-/

namespace Captain.Http

open Transition
open Grammar
open Lines

def s_method_string : List String := HTTP_METHOD_MAP.map (·.2)

def HttpMethodToString (m : HttpMethod) : String := s_method_string.getD m.ctorIdx "<unknown>"

namespace HttpRequest

def dump (r : HttpRequest) : Bytes :=
  ascii (HttpMethodToString r.m_method) ++ ascii " " ++ r.m_path ++
    (if r.m_query = [] then [] else ascii "?") ++ r.m_query ++
    (if r.m_fragment = [] then [] else ascii "#") ++ r.m_fragment ++
    ascii " HTTP/" ++ decimal (r.m_version >>> 4).toNat ++ ascii "." ++
    decimal (r.m_version &&& 0x0F).toNat ++ crlf ++
    (ascii "connection: " ++ ascii (if r.m_close then "close" else "keep-alive") ++ crlf) ++
    (r.m_headers.flatMap fun (name, value) =>
      if strcasecmpEq name (ascii "connection") then []
      else name ++ ascii ":" ++ value ++ crlf) ++
    if r.m_body ≠ [] then
      ascii "content-length: " ++ decimal r.m_body.length ++ crlf ++ crlf ++ r.m_body
    else crlf

/-- A request of the grammar, with headers in the order of their map. -/
structure WellFormed (uri_relaxed : Bool) (r : HttpRequest) : Prop where
  method : r.m_method ≠ .INVALID_METHOD
  version : r.m_version = 0x10 ∨ r.m_version = 0x11
  path : r.m_path ∈ path_absolute uri_relaxed
  query : r.m_query ∈ query uri_relaxed
  fragment : r.m_fragment ∈ fragment uri_relaxed
  names : ∀ h ∈ r.m_headers, h.1 ≠ [] ∧ ∀ b ∈ h.1, (alpha b || digit b || b = 45) = true
  others : ∀ h ∈ r.m_headers, strcasecmpEq h.1 (ascii "connection") = false ∧
    strcasecmpEq h.1 (ascii "content-length") = false
  values : ∀ h ∈ r.m_headers, (∀ b ∈ h.2, 32 ≤ b ∧ b ≤ 126) ∧ h.2.head? ≠ some 32
  sorted : r.m_headers.Pairwise fun h h' => CaseInsensitiveLess h.1 h'.1 = true

def connection (r : HttpRequest) : Bytes := ascii (if r.m_close then "close" else "keep-alive")

/-- The header of the length, for a body that is not empty. -/
def lengthHeader (r : HttpRequest) : MapType :=
  if r.m_body = [] then [] else [(ascii "content-length", decimal r.m_body.length)]

end HttpRequest

variable {M : Machine}

namespace HttpRequestParser

/-- `execute` with the assertions of `http_parser_execute`: `none` where one of them aborts. That
of `body_start` says the same as that of the bytes read, behind which the body starts. -/
def executeAsserted (parser : HttpRequestParser M) (data : Bytes) :
    Option (Nat × Bytes × HttpRequestParser M) :=
  if data.length = 0 then parser.execute data
  else if (data.length : Int) = toInt data.length then
    (parser.execute data).filter fun (offset, _, parser') =>
      offset ≤ data.length && parser'.m_httpParser.mark < data.length &&
        parser'.m_httpParser.field_len ≤ data.length &&
        parser'.m_httpParser.field_start < data.length
  else none

/-- The parser has come to the end of the request `r`, without an error, and left its body. -/
structure Reproduces (r : HttpRequest) (left : Bytes) (parser : HttpRequestParser M) : Prop where
  error : parser.hasError = false
  finished : parser.isFinished = 1
  left : left = r.m_body
  method : parser.getData.m_method = r.m_method
  version : parser.getData.m_version = r.m_version
  path : parser.getData.m_path = r.m_path
  query : parser.getData.m_query = r.m_query
  fragment : parser.getData.m_fragment = r.m_fragment
  headers : parser.getData.m_headers.Perm
    ((ascii "connection", r.connection) :: r.m_headers ++ r.lengthHeader)

end HttpRequestParser

/-! ## The assertions -/

/-- What `http_parser_execute` asserts of the marks, for a buffer of `n` bytes. -/
structure HttpParser.Bounded (n : Nat) (parser : HttpParser M) : Prop where
  mark : parser.mark < n
  field_len : parser.field_len ≤ n
  field_start : parser.field_start < n

namespace HttpParser.Bounded

variable {n p : Nat} {buffer : Bytes} {t : Target}

theorem act {k k' : HttpParser M × Target} {a : Action} (h : Bounded n k.1) (hp : p < n)
    (hact : HttpParser.act buffer p k a = some k') : Bounded n k'.1 := by
  obtain ⟨parser, t⟩ := k
  cases a with
  | mark | start_value =>
    cases hact
    exact ⟨hp, h.field_len, h.field_start⟩
  | start_field =>
    cases hact
    exact ⟨h.mark, h.field_len, hp⟩
  | write_field =>
    cases hact
    exact ⟨h.mark, (Nat.sub_le p _).trans hp.le, h.field_start⟩
  | write_value =>
    obtain ⟨-, heq⟩ := (Option.ite_none_right_eq_some ..).mp hact
    cases heq
    exact h
  | query_string =>
    rw [HttpParser.act] at hact
    split at hact
    · cases hact
    · obtain ⟨-, heq⟩ := (Option.ite_none_right_eq_some ..).mp hact
      cases heq
      exact h
  | start_query =>
    cases hact
    exact ⟨h.mark, h.field_len, h.field_start⟩
  | request_method | request_uri | fragment | http_version | request_path | xml | json =>
    cases hact
    exact h

theorem acts {k k' : HttpParser M × Target} {as : List Action} (h : Bounded n k.1) (hp : p < n)
    (hacts : as.foldlM (HttpParser.act buffer p) k = some k') : Bounded n k'.1 :=
  foldlM_invariant (I := fun u => Bounded n u.1) (fun _ _ _ hu hact => hu.act hp hact) hacts h

theorem scan {rest : Bytes} {cs : M.State} {parser : HttpParser M} {r : Scan M}
    (h : Bounded n parser) (hp : p + rest.length = n)
    (hscan : HttpParser.scan buffer rest p cs parser t = some r) :
    Bounded n r.parser ∧ r.p ≤ n := by
  induction rest generalizing p cs parser t with
  | nil =>
    cases hscan
    exact ⟨h, hp.le⟩
  | cons b rest ih =>
    rw [List.length_cons] at hp
    rw [HttpParser.scan] at hscan
    split at hscan
    · cases hscan
      exact ⟨h, by dsimp only; omega⟩
    · split at hscan
      · cases hscan
      · next m _ parser' t' hacts =>
        have hbounded : Bounded n parser' := acts h (by omega) hacts
        split at hscan
        · cases hscan
          exact ⟨hbounded, by dsimp only; omega⟩
        · exact ih hbounded (by omega) hscan

end HttpParser.Bounded

theorem toInt_eq_iff {n : Nat} : (n : Int) = toInt n ↔ n < 2 ^ 31 := by
  constructor
  · intro h
    have hlt := BitVec.toInt_lt (x := BitVec.ofNat 32 n)
    rw [toInt] at h
    omega
  · exact fun h => (toInt_eq h).symm

namespace HttpRequestParser

/-- Only the assertion of the length can fail. -/
theorem executeAsserted_eq (parser : HttpRequestParser M) {data : Bytes} (hne : data ≠ []) :
    parser.executeAsserted data = if data.length < 2 ^ 31 then parser.execute data else none := by
  have hpos : 0 < data.length := List.length_pos_iff.mpr hne
  rw [executeAsserted, if_neg hpos.ne', if_congr toInt_eq_iff rfl rfl]
  refine ite_congr rfl (fun _ => ?_) fun _ => rfl
  cases hexec : parser.execute data with
  | none => rfl
  | some k =>
    obtain ⟨⟨offset, m_httpParser, target⟩, hrun, rfl⟩ := Option.map_eq_some_iff.mp hexec
    have hbounded : m_httpParser.Bounded data.length ∧ offset ≤ data.length := by
      have hstart : HttpParser.Bounded data.length
          { parser.m_httpParser with mark := 0, field_len := 0, field_start := 0 } :=
        ⟨hpos, Nat.zero_le _, hpos⟩
      rw [HttpParser.execute, if_neg hpos.ne'] at hrun
      dsimp only at hrun
      split at hrun
      · cases hrun
        exact ⟨hstart, Nat.zero_le _⟩
      · obtain ⟨r, hscan, heq⟩ := Option.map_eq_some_iff.mp hrun
        cases heq
        obtain ⟨hr, hle⟩ := hstart.scan (Nat.zero_add _) hscan
        exact ⟨⟨hr.mark, hr.field_len, hr.field_start⟩, hle⟩
    refine Option.filter_some_pos ?_
    simp only [Bool.and_eq_true, decide_eq_true_eq]
    exact ⟨⟨⟨hbounded.2, hbounded.1.mark⟩, hbounded.1.field_len⟩, hbounded.1.field_start⟩

end HttpRequestParser

/-! ## The map of the headers -/

/-- Different keys of a map. -/
def Apart (key key' : Bytes) : Prop :=
  CaseInsensitiveLess key key' = true ∨ CaseInsensitiveLess key' key = true

theorem Apart.symm {key key' : Bytes} (h : Apart key key') : Apart key' key := Or.symm h

theorem lexLess_trichotomy : ∀ lhs rhs : Bytes,
    lexLess lhs rhs = true ∨ lhs = rhs ∨ lexLess rhs lhs = true
  | [], [] => .inr (.inl rfl)
  | [], _ :: _ => .inl rfl
  | _ :: _, [] => .inr (.inr rfl)
  | a :: lhs, b :: rhs => by
    rw [lexLess, lexLess]
    by_cases hlt : a < b
    · exact .inl (if_pos hlt)
    · by_cases hgt : b < a
      · exact .inr (.inr (if_pos hgt))
      · obtain rfl := UInt8.le_antisymm (UInt8.not_lt.mp hgt) (UInt8.not_lt.mp hlt)
        simpa [hlt] using lexLess_trichotomy lhs rhs

theorem apart_of_strcasecmp {key key' : Bytes} (h : strcasecmpEq key key' = false) :
    Apart key key' := by
  rcases lexLess_trichotomy ((c_str key).map tolower) ((c_str key').map tolower) with hl | he | hl
  · exact .inl hl
  · exact absurd he (of_decide_eq_false h)
  · exact .inr hl

namespace MapType

/-- A key that is not there is added. -/
theorem assign_perm {m : MapType} {key val : Bytes} (h : ∀ e ∈ m, Apart key e.1) :
    (m.assign key val).Perm ((key, val) :: m) := by
  induction m with
  | nil => exact .refl _
  | cons e m ih =>
    have hm := ih fun e' he' => h e' (List.mem_cons_of_mem e he')
    rw [assign]
    split
    · exact .refl _
    · next hless =>
      rw [if_pos ((h e List.mem_cons_self).resolve_left hless)]
      exact (hm.cons e).trans (.swap _ _ m)

theorem foldl_assign_perm {l m : MapType} (hl : l.Pairwise fun e e' => Apart e.1 e'.1)
    (h : ∀ e ∈ l, ∀ e' ∈ m, Apart e.1 e'.1) :
    (l.foldl (fun m e => m.assign e.1 e.2) m).Perm (l ++ m) := by
  induction l generalizing m with
  | nil => exact .refl _
  | cons e l ih =>
    obtain ⟨he, hl⟩ := List.pairwise_cons.mp hl
    have hassign : (m.assign e.1 e.2).Perm (e :: m) := assign_perm (h e List.mem_cons_self)
    have hrest : ∀ e' ∈ l, ∀ e'' ∈ m.assign e.1 e.2, Apart e'.1 e''.1 := by
      intro e' he' e'' he''
      cases List.mem_cons.mp (hassign.mem_iff.mp he'') with
      | inl heq => exact heq ▸ (he e' he').symm
      | inr hmem => exact h e' (List.mem_cons_of_mem e he') e'' hmem
    exact (ih hl hrest).trans ((hassign.append_left l).trans List.perm_middle)

end MapType

/-! ## What `dump` prints -/

namespace HttpRequest

variable (r : HttpRequest)

def uri : Bytes :=
  r.m_path ++ (if r.m_query = [] then [] else ascii "?") ++ r.m_query ++
    (if r.m_fragment = [] then [] else ascii "#") ++ r.m_fragment

def versionText : Bytes :=
  ascii "HTTP/" ++ decimal (r.m_version >>> 4).toNat ++ ascii "." ++
    decimal (r.m_version &&& 0x0F).toNat

/-- The headers, with what is printed behind their colons. -/
def printed : MapType :=
  (ascii "connection", 32 :: r.connection) :: r.m_headers ++
    r.lengthHeader.map fun h => (h.1, 32 :: h.2)

def line (h : Bytes × Bytes) : Bytes := h.1 ++ [58] ++ (h.2 ++ [13]) ++ [10]

/-- What the parser makes of it, from the request `d`. -/
def parsed (d : HttpRequest) : HttpRequest :=
  { d with
    m_method := r.m_method
    m_version := r.m_version
    m_path := r.m_path
    m_query := if r.m_query = [] then d.m_query else r.m_query
    m_fragment := if r.m_fragment = [] then d.m_fragment else r.m_fragment
    m_headers := r.printed.foldl (fun m h => MapType.assign h.1 (h.2.dropWhile (· = 32)) m)
      d.m_headers }

/-- Up to the empty line. -/
def lines : Bytes :=
  ascii (HttpMethodToString r.m_method) ++ [32] ++ (r.uri ++ [32]) ++ (r.versionText ++ [13]) ++
    [10] ++ r.printed.flatMap line

variable {r} {uri_relaxed : Bool}

theorem dump_eq (hr : r.WellFormed uri_relaxed) : r.dump = r.lines ++ 13 :: 10 :: r.m_body := by
  have hheaders : (r.m_headers.flatMap fun h =>
      if strcasecmpEq h.1 (ascii "connection") then []
      else h.1 ++ ascii ":" ++ h.2 ++ crlf) = r.m_headers.flatMap line := by
    refine List.flatMap_congr fun h hh => ?_
    rw [if_neg (by rw [(hr.others h hh).1]; exact Bool.false_ne_true), line, crlf]
    simp only [List.append_assoc]
    rfl
  have hspace : ascii " " = [32] := by decide
  have hhttp : ascii " HTTP/" = 32 :: ascii "HTTP/" := by decide
  have hconnection : ascii "connection: " = ascii "connection" ++ [58, 32] := by decide
  have hlength : ascii "content-length: " = ascii "content-length" ++ [58, 32] := by decide
  rw [dump, lines, printed, List.flatMap_append, List.flatMap_cons, lengthHeader, uri, versionText,
    hspace, hhttp, hconnection, hlength, ← hheaders]
  by_cases hbody : r.m_body = []
  · simp [hbody, line, connection, crlf]
  · simp [hbody, line, connection, crlf]

theorem versionText_mem (hr : r.WellFormed uri_relaxed) :
    (r.versionText, r.m_version) ∈
      [(ascii "HTTP/1.1", (0x11 : UInt8)), (ascii "HTTP/1.0", 0x10)] := by
  rw [versionText]
  rcases hr.version with h | h <;> rw [h] <;> decide

theorem method_mem (hr : r.WellFormed uri_relaxed) :
    (r.m_method, HttpMethodToString r.m_method) ∈ HTTP_METHOD_MAP := by
  have hall : ∀ m, m ≠ HttpMethod.INVALID_METHOD →
      (m, HttpMethodToString m) ∈ HTTP_METHOD_MAP := by
    intro m hm
    cases m <;> first | exact absurd rfl hm | decide
  exact hall _ hr.method

end HttpRequest

namespace Grammar.Takes

variable {uri_relaxed : Bool} {c : Contained uri_relaxed M} {r : HttpRequest}

theorem of_eq {s s' : Nat} {φ ψ : Bytes → HttpParser M → Prop} {w w' : Bytes}
    {f g : Target → Target} (h : Takes c s φ w s' ψ f) (hw : w = w') (hf : f = g) :
    Takes c s φ w' s' ψ g := hw ▸ hf ▸ h

theorem uri (hr : r.WellFormed uri_relaxed) : Takes c 3 Any (r.uri ++ [32]) 4 Any
    (modify fun d => { d with
      m_path := r.m_path
      m_query := if r.m_query = [] then d.m_query else r.m_query
      m_fragment := if r.m_fragment = [] then d.m_fragment else r.m_fragment }) := by
  have hquestion : ascii "?" = [63] := by decide
  have hhash : ascii "#" = [35] := by decide
  have hspace := path (c := c) hr.path List.mem_cons_self
  have hfragment := path (c := c) hr.path (List.mem_cons_of_mem _ List.mem_cons_self)
  have hquery := path (c := c) hr.path
    (List.mem_cons_of_mem _ (List.mem_cons_of_mem _ List.mem_cons_self))
  unfold HttpRequest.uri
  by_cases hq : r.m_query = [] <;> by_cases hf : r.m_fragment = []
  · simp only [hq, hf, if_true, List.append_nil]
    exact hspace
  · simp only [hq, hf, if_true, if_false, List.append_nil, hhash]
    exact (hfragment.append (fragment hr.fragment hf)).of_eq
      (by simp only [List.append_assoc]) rfl
  · simp only [hq, hf, if_true, if_false, List.append_nil, hquestion]
    exact (hquery.append (query hr.query hq List.mem_cons_self)).of_eq
      (by simp only [List.append_assoc]) rfl
  · simp only [hq, hf, if_false, hquestion, hhash]
    exact ((hquery.append (query hr.query hq (List.mem_cons_of_mem _ List.mem_cons_self))).append
      (fragment hr.fragment hf)).of_eq (by simp only [List.append_assoc]) rfl

theorem printed (hr : r.WellFormed uri_relaxed) {h : Bytes × Bytes} (hh : h ∈ r.printed) :
    Takes c 13 Any (HttpRequest.line h) 13 Any
      (modify fun d => d.setHeader h.1 (h.2.dropWhile (· = 32))) := by
  have hgenerated : ∀ n ∈ [ascii "connection", ascii "content-length"],
      n ≠ [] ∧ ∀ b ∈ n, (alpha b || digit b || b = 45) = true := by decide +kernel
  have hblank : ∀ v : Bytes, (∀ b ∈ v, 32 ≤ b ∧ b ≤ 126) → ∀ b ∈ 32 :: v, 32 ≤ b ∧ b ≤ 126 := by
    intro v hv b hb
    cases List.mem_cons.mp hb with
    | inl hb =>
      rw [hb]
      decide
    | inr hb => exact hv b hb
  rw [HttpRequest.printed, HttpRequest.lengthHeader, List.cons_append] at hh
  rcases List.mem_cons.mp hh with rfl | hh
  · have hvalue : ∀ b ∈ r.connection, 32 ≤ b ∧ b ≤ 126 := by
      rw [HttpRequest.connection]
      cases r.m_close <;> decide +kernel
    obtain ⟨hne, hn⟩ := hgenerated _ List.mem_cons_self
    exact header hn hne (hblank _ hvalue)
  rcases List.mem_append.mp hh with hh | hh
  · obtain ⟨hne, hn⟩ := hr.names h hh
    exact header hn hne (hr.values h hh).1
  · obtain ⟨e, he, rfl⟩ := List.mem_map.mp hh
    split at he
    · cases he
    · rw [List.mem_singleton.mp he]
      have hvalue : ∀ b ∈ decimal r.m_body.length, 32 ≤ b ∧ b ≤ 126 := by
        intro b hb
        obtain ⟨hlo, hhi⟩ := of_decide_eq_true (digits_decimal b hb)
        exact ⟨UInt8.le_trans (by decide) hlo, UInt8.le_trans hhi (by decide)⟩
      obtain ⟨hne, hn⟩ := hgenerated _ (List.mem_cons_of_mem _ List.mem_cons_self)
      exact header hn hne (hblank _ hvalue)

theorem foldl_modify (l : MapType) (t : Target) :
    l.foldl (fun t h => modify (fun d => d.setHeader h.1 (h.2.dropWhile (· = 32))) t) t =
      modify (fun d => { d with
        m_headers := l.foldl (fun m h => MapType.assign h.1 (h.2.dropWhile (· = 32)) m)
          d.m_headers }) t := by
  induction l generalizing t with
  | nil => rfl
  | cons h l ih => exact ih _

/-- The request up to the empty line. -/
theorem lines (hr : r.WellFormed uri_relaxed) (hne : r.m_method ≠ .MSEARCH) :
    Takes c 1 Any r.lines 13 Any (modify r.parsed) := by
  have hmethod := method (c := c) (HttpRequest.method_mem hr) hne
  have hversion := version (c := c) (HttpRequest.versionText_mem hr)
  refine ((((hmethod.append (uri hr)).append hversion).append line_feed).append
    (flatMap fun h hh => printed hr hh)).of_eq rfl ?_
  funext t
  exact foldl_modify r.printed _

end Grammar.Takes

namespace HttpRequestParser

variable {uri_relaxed : Bool} {r : HttpRequest}

theorem scan_empty_line (c : Contained uri_relaxed M) (buffer rest : Bytes) (p : Nat)
    (parser : HttpParser M) (t : Target) :
    HttpParser.scan buffer (13 :: 10 :: rest) p (c.state 13) parser t =
      some ⟨p + 2, some (c.state 348), { parser with field_start := p }, t⟩ := by
  have hcr : transition uri_relaxed 13 13 = some ⟨[.start_field], false, 18⟩ := by
    cases uri_relaxed <;> rfl
  have hlf : transition uri_relaxed 18 10 = some ⟨[], true, 348⟩ := by
    cases uri_relaxed <;> rfl
  rw [HttpParser.scan, c.step hcr]
  dsimp only [List.foldlM, HttpParser.act, Option.bind_eq_bind, Option.bind_some, Option.pure_def]
  rw [if_neg Bool.false_ne_true, HttpParser.scan, c.step hlf]
  rfl

theorem execute_new {data : Bytes} (hne : data ≠ []) :
    (HttpRequestParser.new M).execute data =
      (HttpParser.scan data data 0 M.start (.init M) {}).map fun r =>
        (r.p, data.drop r.p, ⟨{ r.parser with cs := r.cs }, r.target⟩) := by
  have hlength : data.length ≠ 0 := fun h => hne (List.length_eq_zero_iff.mp h)
  rw [execute, HttpParser.execute, if_neg hlength]
  exact Option.map_map _ _ _

/-- Behind the request comes its body, which is left. -/
theorem execute_dump (c : Contained uri_relaxed M) (hr : r.WellFormed uri_relaxed)
    (hne : r.m_method ≠ .MSEARCH) :
    ∃ m_httpParser, (HttpRequestParser.new M).execute r.dump =
        some (r.lines.length + 2, r.m_body, ⟨m_httpParser, modify r.parsed {}⟩) ∧
      m_httpParser.cs = some (c.state 348) := by
  obtain ⟨parser, hexec, -⟩ := Takes.lines (c := c) hr hne [] (13 :: 10 :: r.m_body)
    (.init M) {} trivial
  obtain ⟨hscan, -⟩ := Loop.scan_exec hexec (13 :: 10 :: r.m_body)
  dsimp only at hscan
  rw [scan_empty_line, List.nil_append, ← HttpRequest.dump_eq hr, c.start] at hscan
  have hne' : r.dump ≠ [] := by
    rw [HttpRequest.dump_eq hr]
    simp
  have hdrop : r.dump.drop (r.lines.length + 2) = r.m_body := by
    rw [HttpRequest.dump_eq hr, ← List.drop_drop, List.drop_left]
    rfl
  refine ⟨{ parser with field_start := r.lines.length, cs := c.state 348 }, ?_, rfl⟩
  rw [execute_new hne']
  refine (congrArg _ hscan).trans ?_
  rw [Option.map_some, hdrop]

/-- The map that the headers are put into has them all. -/
theorem dropWhile_value {v : Bytes} (hv : v.head? ≠ some 32) : v.dropWhile (· = 32) = v := by
  cases v with
  | nil => rfl
  | cons b v => exact List.dropWhile_cons_of_neg (by simpa using hv)

/-- The blank of a generated header is not part of the value. -/
theorem dropWhile_generated {v : Bytes} (hv : v.head? ≠ some 32) :
    (32 :: v).dropWhile (· = 32) = v :=
  (List.dropWhile_cons_of_pos (by decide)).trans (dropWhile_value hv)

theorem values_printed (hr : r.WellFormed uri_relaxed) :
    r.printed.map (fun h => (h.1, h.2.dropWhile (· = 32))) =
      (ascii "connection", r.connection) :: r.m_headers ++ r.lengthHeader := by
  have hconnection : r.connection.head? ≠ some 32 := by
    rw [HttpRequest.connection]
    cases r.m_close <;> decide
  have hdecimal : (decimal r.m_body.length).head? ≠ some 32 := fun h =>
    decimal_not_mem (by decide) _ (List.mem_of_mem_head? h)
  have hheaders : r.m_headers.map (fun h => (h.1, h.2.dropWhile (· = 32))) = r.m_headers :=
    (List.map_congr_left fun h hh => by rw [dropWhile_value (hr.values h hh).2]; rfl).trans
      (List.map_id _)
  have hlength : (r.lengthHeader.map fun h => (h.1, 32 :: h.2)).map
      (fun h => (h.1, h.2.dropWhile (· = 32))) = r.lengthHeader := by
    rw [HttpRequest.lengthHeader]
    split
    · rfl
    · exact congrArg (fun v => [(ascii "content-length", v)]) (dropWhile_generated hdecimal)
  rw [HttpRequest.printed, List.map_append, List.map_cons, hheaders, hlength,
    dropWhile_generated hconnection]

/-- The generated names are none of those of the map. -/
theorem names_apart (hr : r.WellFormed uri_relaxed) :
    ((ascii "connection", r.connection) :: r.m_headers ++ r.lengthHeader).Pairwise
      fun e e' => Apart e.1 e'.1 := by
  have hlength : ∀ e ∈ r.lengthHeader, e.1 = ascii "content-length" := by
    intro e he
    rw [HttpRequest.lengthHeader] at he
    split at he
    · cases he
    · rw [List.mem_singleton.mp he]
  refine List.pairwise_append.mpr ⟨List.pairwise_cons.mpr ⟨fun e he => ?_, ?_⟩, ?_, ?_⟩
  · exact (apart_of_strcasecmp (hr.others e he).1).symm
  · exact hr.sorted.imp .inl
  · rw [HttpRequest.lengthHeader]
    split
    · exact .nil
    · exact List.pairwise_singleton _ _
  · intro e he e' he'
    have hless : CaseInsensitiveLess (ascii "connection") (ascii "content-length") = true := by
      decide
    rw [hlength e' he']
    cases List.mem_cons.mp he with
    | inl he => exact he ▸ .inl hless
    | inr he => exact apart_of_strcasecmp (hr.others e he).2

theorem headers_perm (hr : r.WellFormed uri_relaxed) :
    (r.parsed {}).m_headers.Perm
      ((ascii "connection", r.connection) :: r.m_headers ++ r.lengthHeader) := by
  have hperm := MapType.foldl_assign_perm (m := []) (names_apart hr)
    fun _ _ e' he' => absurd he' (by simp)
  rw [List.append_nil, ← values_printed hr, List.foldl_map] at hperm
  exact hperm.trans (values_printed hr ▸ .refl _)

theorem reproduces_dump (c : Contained uri_relaxed M) (hr : r.WellFormed uri_relaxed)
    (hne : r.m_method ≠ .MSEARCH) :
    ∃ offset left parser, (HttpRequestParser.new M).execute r.dump = some (offset, left, parser) ∧
      parser.Reproduces r left := by
  obtain ⟨m_httpParser, hexec, hcs⟩ := execute_dump c hr hne
  have hlf : transition uri_relaxed 18 10 = some ⟨[], true, 348⟩ := by
    cases uri_relaxed <;> rfl
  have hfinal : M.final (c.state 348) = true := M.target_final (c.step hlf)
  have hempty : ∀ w : Bytes, (if w = [] then [] else w) = w := by
    intro w
    split
    · next h => exact h.symm
    · rfl
  refine ⟨_, _, _, hexec, ?_, ?_, rfl, rfl, rfl, rfl, hempty _, hempty _, headers_perm hr⟩
  · rw [hasError, HttpParser.has_error, hcs]
    rfl
  · rw [isFinished, HttpParser.finish, HttpParser.has_error, HttpParser.is_finished, hcs]
    simp [hfinal]

/-- There is no dash in the `Method` of the grammar. -/
theorem not_reproduces_msearch (c : Contained uri_relaxed M) (hr : r.WellFormed uri_relaxed)
    (h : r.m_method = .MSEARCH) {offset : Nat} {left : Bytes} {parser : HttpRequestParser M}
    (hexec : (HttpRequestParser.new M).execute r.dump = some (offset, left, parser)) :
    ¬parser.Reproduces r left := by
  have hname : ascii (HttpMethodToString .MSEARCH) = 77 :: 45 :: ascii "SEARCH" := by decide
  obtain ⟨rest, hdump⟩ : ∃ rest, r.dump = 77 :: 45 :: rest := by
    rw [HttpRequest.dump_eq hr, HttpRequest.lines, h, hname]
    exact ⟨_, rfl⟩
  have hfirst : transition uri_relaxed 1 77 = some ⟨[.mark], false, 2⟩ := by
    cases uri_relaxed <;> rfl
  have hdash : transition uri_relaxed 2 45 = none := by
    cases uri_relaxed <;> rfl
  have hscan : ∃ k : Scan M, HttpParser.scan r.dump r.dump 0 M.start (.init M) {} = some k ∧
      k.cs = none := by
    refine ⟨⟨1, none, { HttpParser.init M with mark := 0 }, {}⟩, ?_, rfl⟩
    rw [hdump, HttpParser.scan, ← c.start, c.step hfirst]
    dsimp only [List.foldlM, HttpParser.act, Option.bind_eq_bind, Option.bind_some,
      Option.pure_def]
    rw [if_neg Bool.false_ne_true, HttpParser.scan, c.method hdash]
  obtain ⟨k, hk, hcs⟩ := hscan
  rw [execute_new (by rw [hdump]; exact List.cons_ne_nil _ _), hk, Option.map_some] at hexec
  intro hreproduces
  have herror := hreproduces.error
  cases hexec
  rw [hasError, HttpParser.has_error, hcs] at herror
  simp at herror

/-- **A printed request is parsed.** -/
theorem parses_dump_iff (c : Contained uri_relaxed M) (hr : r.WellFormed uri_relaxed) :
    (∃ offset left parser,
      (HttpRequestParser.new M).executeAsserted r.dump = some (offset, left, parser) ∧
        parser.Reproduces r left) ↔
      r.m_method ≠ .MSEARCH ∧ r.dump.length < 2 ^ 31 := by
  have hne : r.dump ≠ [] := by
    rw [HttpRequest.dump_eq hr]
    simp
  rw [executeAsserted_eq _ hne]
  constructor
  · rintro ⟨offset, left, parser, hexec, hreproduces⟩
    obtain ⟨hlength, hexec⟩ := (Option.ite_none_right_eq_some ..).mp hexec
    exact ⟨fun h => not_reproduces_msearch c hr h hexec hreproduces, hlength⟩
  · rintro ⟨hmethod, hlength⟩
    rw [if_pos hlength]
    exact reproduces_dump c hr hmethod

/-- A `POST` with a header and a body. -/
def post : HttpRequest :=
  { m_method := .POST, m_headers := [(ascii "host", ascii "a b")], m_body := ascii "hi" }

theorem root_mem (uri_relaxed : Bool) : ascii "/" ∈ path_absolute uri_relaxed :=
  Language.mem_mul.mpr ⟨[47], mem_letter.mpr rfl, [], .inl rfl, by decide⟩

theorem wellFormed_post (uri_relaxed : Bool) : post.WellFormed uri_relaxed where
  method := by decide
  version := .inr rfl
  path := root_mem uri_relaxed
  query := Language.nil_mem_kstar _
  fragment := Language.nil_mem_kstar _
  names := by decide +kernel
  others := by decide +kernel
  values := by decide +kernel
  sorted := List.pairwise_singleton _ _

theorem parses_dump_iff_post : ∃ offset left parser,
    (HttpRequestParser.new (machine false)).executeAsserted post.dump =
        some (offset, left, parser) ∧ parser.Reproduces post left :=
  (parses_dump_iff (contained false) (wellFormed_post false)).mpr ⟨by decide, by decide⟩

/-- `M-SEARCH / HTTP/1.1` is not. -/
theorem msearch_not_parsed :
    ¬∀ (uri_relaxed : Bool) (M : Machine), Contained uri_relaxed M →
      ∀ r : HttpRequest, r.WellFormed uri_relaxed → ∃ offset left parser,
        (HttpRequestParser.new M).executeAsserted r.dump = some (offset, left, parser) ∧
          parser.Reproduces r left := by
  intro h
  have hmsearch : HttpRequest.WellFormed false { m_method := .MSEARCH } :=
    ⟨by decide, .inr rfl, root_mem false, Language.nil_mem_kstar _, Language.nil_mem_kstar _,
      by decide, by decide, by decide, .nil⟩
  obtain ⟨offset, left, parser, hexec, hreproduces⟩ :=
    h false (machine false) (contained false) _ hmsearch
  rw [executeAsserted_eq _ (by decide)] at hexec
  obtain ⟨-, hexec⟩ := (Option.ite_none_right_eq_some ..).mp hexec
  exact not_reproduces_msearch (contained false) hmsearch rfl hexec hreproduces

end HttpRequestParser

end Captain.Http
