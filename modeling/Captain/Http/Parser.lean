import Captain.Http.Request

/-!
# `HttpRequestParser`

The parser runs an automaton that Ragel made of `captain/http/http11_parser.rl`, here the parameter
`M` of type `Machine`. What is fixed is what the automaton is used for: the actions of the grammar,
the `HttpParser` they work on, `http_parser_execute` and the members of `HttpRequestParser`.

* State `0`, `http_parser_error`, is `none`.
* `query_start` is not initialised: it is `none` until `start_query` sets it. `uri_relaxed`, on
  which the transitions may depend, is not initialised either.
* `body_start`, `content_len`, `nread`, `xml_sent` and `json_sent` are written and not read, the
  assertions apart.
-/

namespace Captain.Http

/-- The actions of `http11_parser.rl` but `done`. -/
inductive Action
  | mark
  | start_field
  | write_field
  | start_value
  | write_value
  | request_method
  | request_uri
  | fragment
  | start_query
  | query_string
  | http_version
  | request_path
  | xml
  | json
  deriving DecidableEq, Repr

/-- A transition. The action `done` comes last and breaks out of the loop. -/
structure Move (State : Type) where
  actions : List Action
  done : Bool
  target : State

/-- The automaton: it is done when it reaches a state from `http_parser_first_final` on, and only
the space after the method ends it. -/
structure Machine where
  State : Type
  start : State
  final : State → Bool
  step : State → UInt8 → Option (Move State)
  start_final : final start = false
  target_final : ∀ {s b m}, step s b = some m → final m.target = m.done
  method_space : ∀ {s b m}, step s b = some m → Action.request_method ∈ m.actions → b = 32

structure HttpParser (M : Machine) where
  cs : Option M.State
  mark : Nat
  field_start : Nat
  field_len : Nat
  query_start : Option Nat

structure HttpRequestParser (M : Machine) where
  m_httpParser : HttpParser M
  target : Target

/-- Where and how the loop of `http_parser_execute` ends. -/
structure Scan (M : Machine) where
  p : Nat
  cs : Option M.State
  parser : HttpParser M
  target : Target

namespace HttpParser

variable {M : Machine}

def init (M : Machine) : HttpParser M := ⟨some M.start, 0, 0, 0, none⟩

def has_error (parser : HttpParser M) : Bool := parser.cs.isNone

def is_finished (parser : HttpParser M) : Bool := parser.cs.any M.final

def finish (parser : HttpParser M) : Int :=
  if parser.has_error then -1 else if parser.is_finished then 1 else 0

/-- An action at the byte `p` of `buffer`. The length of a query that seems to start after its end
is so large that its string cannot be made: `std::length_error`. The automaton gives no name that
ends after `p` and no query without a start; what the source would read there is not defined, and
`none` as well. -/
def act (buffer : Bytes) (p : Nat) : HttpParser M × Target → Action → Option (HttpParser M × Target)
  | (parser, t), .mark => some ({ parser with mark := p }, t)
  | (parser, t), .start_field => some ({ parser with field_start := p }, t)
  | (parser, t), .write_field => some ({ parser with field_len := p - parser.field_start }, t)
  | (parser, t), .start_value => some ({ parser with mark := p }, t)
  | (parser, t), .write_value =>
    if parser.field_start + parser.field_len ≤ p then
      some (parser, t.on_request_http_field (buffer.drop parser.field_start) parser.field_len
        (buffer.drop parser.mark) (p - parser.mark))
    else none
  | (parser, t), .request_method => some (parser, t.on_request_method (buffer.drop parser.mark))
  | (parser, t), .request_uri => some (parser, t)
  | (parser, t), .fragment =>
    some (parser, t.on_request_fragment (buffer.drop parser.mark) (p - parser.mark))
  | (parser, t), .start_query => some ({ parser with query_start := some p }, t)
  | (parser, t), .query_string =>
    match parser.query_start with
    | none => none
    | some start =>
      if start ≤ p then some (parser, t.on_request_query (buffer.drop start) (p - start)) else none
  | (parser, t), .http_version =>
    some (parser, t.on_request_version (buffer.drop parser.mark) (p - parser.mark))
  | (parser, t), .request_path =>
    some (parser, t.on_request_path (buffer.drop parser.mark) (p - parser.mark))
  | (parser, t), .xml => some (parser, t)
  | (parser, t), .json => some (parser, t)

/-- The generated loop over the bytes of `buffer` from `p` on. -/
def scan (buffer : Bytes) : Bytes → Nat → M.State → HttpParser M → Target → Option (Scan M)
  | [], p, cs, parser, t => some ⟨p, some cs, parser, t⟩
  | b :: rest, p, cs, parser, t =>
    match M.step cs b with
    | none => some ⟨p, none, parser, t⟩
    | some m =>
      match m.actions.foldlM (act buffer p) (parser, t) with
      | none => none
      | some (parser, t) =>
        if m.done then some ⟨p + 1, some m.target, parser, t⟩
        else scan buffer rest (p + 1) m.target parser t

/-- `none` is an exception. -/
def execute (parser : HttpParser M) (t : Target) (buffer : Bytes) :
    Option (Nat × HttpParser M × Target) :=
  if buffer.length = 0 then some (0, parser, t)
  else
    let parser := { parser with mark := 0, field_len := 0, field_start := 0 }
    match parser.cs with
    | none => some (0, parser, t)
    | some cs => (scan buffer buffer 0 cs parser t).map fun r =>
        (r.p, { r.parser with cs := r.cs }, r.target)

end HttpParser

namespace HttpRequestParser

variable {M : Machine}

def new (M : Machine) : HttpRequestParser M := ⟨.init M, {}⟩

/-- The number of bytes parsed, and what `memmove` leaves of them. -/
def execute (parser : HttpRequestParser M) (data : Bytes) :
    Option (Nat × Bytes × HttpRequestParser M) :=
  (parser.m_httpParser.execute parser.target data).map fun (offset, m_httpParser, target) =>
    (offset, data.drop offset, ⟨m_httpParser, target⟩)

def isFinished (parser : HttpRequestParser M) : Int := parser.m_httpParser.finish

def hasError (parser : HttpRequestParser M) : Bool :=
  parser.target.m_error ≠ 0 || parser.m_httpParser.has_error

def getData (parser : HttpRequestParser M) : HttpRequest := parser.target.m_data

def getContentLength (parser : HttpRequestParser M) (lexical_cast : Bytes → Option UInt64) :
    UInt64 :=
  parser.getData.getHeaderAs lexical_cast (ascii "content-length") 0

end HttpRequestParser

/-! ## Part of the generated automaton -/

/-- A row of `http11_parser.rl.cpp`: a state and the bytes from `lo` to `hi`. -/
structure Row where
  state : Nat
  lo : UInt8
  hi : UInt8
  move : Move Nat

def Row.matches (r : Row) (s : Nat) (b : UInt8) : Bool := r.state = s && r.lo ≤ b && b ≤ r.hi

def http_parser_start : Nat := 1

def http_parser_first_final : Nat := 348

/-- The transitions that such requests take as `GET / HTTP/1.1` and `POST / HTTP/1.0` with headers
whose names are of letters and dashes. -/
def rows : List Row :=
  [⟨1, 48, 57, [.mark], false, 2⟩, ⟨1, 65, 90, [.mark], false, 2⟩,
    ⟨2, 32, 32, [.request_method], false, 3⟩, ⟨2, 48, 57, [], false, 175⟩,
    ⟨2, 65, 90, [], false, 175⟩,
    ⟨175, 32, 32, [.request_method], false, 3⟩, ⟨175, 48, 57, [], false, 176⟩,
    ⟨175, 65, 90, [], false, 176⟩,
    ⟨176, 32, 32, [.request_method], false, 3⟩, ⟨176, 48, 57, [], false, 177⟩,
    ⟨176, 65, 90, [], false, 177⟩,
    ⟨177, 32, 32, [.request_method], false, 3⟩,
    ⟨3, 47, 47, [.mark], false, 33⟩,
    ⟨33, 32, 32, [.request_path, .request_uri], false, 4⟩,
    ⟨4, 72, 72, [.mark], false, 5⟩, ⟨5, 84, 84, [], false, 6⟩, ⟨6, 84, 84, [], false, 7⟩,
    ⟨7, 80, 80, [], false, 8⟩, ⟨8, 47, 47, [], false, 9⟩, ⟨9, 49, 49, [], false, 10⟩,
    ⟨10, 46, 46, [], false, 11⟩, ⟨11, 48, 49, [], false, 12⟩,
    ⟨12, 10, 10, [.http_version], false, 13⟩, ⟨12, 13, 13, [.http_version], false, 17⟩,
    ⟨17, 10, 10, [], false, 13⟩,
    ⟨13, 13, 13, [.start_field], false, 18⟩, ⟨13, 45, 45, [.start_field], false, 14⟩,
    ⟨13, 65, 90, [.start_field], false, 14⟩, ⟨13, 97, 122, [.start_field], false, 14⟩,
    ⟨14, 45, 45, [], false, 14⟩, ⟨14, 65, 90, [], false, 14⟩, ⟨14, 97, 122, [], false, 14⟩,
    ⟨14, 58, 58, [.write_field], false, 15⟩,
    ⟨15, 32, 32, [.start_value], false, 15⟩, ⟨15, 48, 57, [.start_value], false, 16⟩,
    ⟨15, 65, 90, [.start_value], false, 16⟩, ⟨15, 97, 122, [.start_value], false, 16⟩,
    ⟨16, 13, 13, [.write_value], false, 17⟩, ⟨16, 32, 126, [], false, 16⟩,
    ⟨18, 10, 10, [], true, 348⟩]

theorem exists_row {rs : List Row} {s : Nat} {b : UInt8} {m : Move Nat}
    (h : (rs.find? fun r => r.matches s b).map (·.move) = some m) :
    ∃ r ∈ rs, r.lo ≤ b ∧ b ≤ r.hi ∧ r.move = m := by
  obtain ⟨r, hr, hm⟩ := Option.map_eq_some_iff.mp h
  have hmatch := List.find?_some hr
  simp only [Row.matches, Bool.and_eq_true, decide_eq_true_eq] at hmatch
  exact ⟨r, List.mem_of_find?_eq_some hr, hmatch.1.2, hmatch.2, hm⟩

/-- The rows as an automaton; a byte that no row reads is an error. -/
def http_parser_machine : Machine where
  State := Nat
  start := http_parser_start
  final s := http_parser_first_final ≤ s
  step s b := (rows.find? fun r => r.matches s b).map (·.move)
  start_final := rfl
  target_final h := by
    obtain ⟨r, hr, -, -, rfl⟩ := exists_row h
    have hall : ∀ r ∈ rows, decide (http_parser_first_final ≤ r.move.target) = r.move.done := by
      decide
    exact hall r hr
  method_space h hmem := by
    obtain ⟨r, hr, hlo, hhi, rfl⟩ := exists_row h
    have hall : ∀ r ∈ rows, Action.request_method ∈ r.move.actions → r.lo = 32 ∧ r.hi = 32 := by
      decide
    obtain ⟨hlo', hhi'⟩ := hall r hr hmem
    exact UInt8.le_antisymm (hhi' ▸ hhi) (hlo' ▸ hlo)

end Captain.Http
