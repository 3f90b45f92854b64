import Captain.Http.Response
import Captain.Http.Session
import Captain.Scanner

/-!
# `HttpResponseParser`

`captain/http/http_parser.cpp` and the automaton that Ragel made of
`captain/http/httpclient_parser.rl`, with all of its states. `status` is written and not read, and
`header_done`, `chunk_size` and `last_chunk` are callbacks that do nothing.
-/

namespace Captain.Http

/-- The actions of `httpclient_parser.rl` but `done`. -/
inductive ClientAction
  | mark
  | start_field
  | write_field
  | start_value
  | write_content_len
  | write_connection_close
  | write_value
  | reason_phrase
  | status_code
  | http_version
  | chunk_size
  | trans_chunked
  deriving DecidableEq, Repr

namespace Client

/-! ## The switch over the states -/

/-- Bytes from `lo` to `hi` of a state. -/
structure Case where
  lo : Nat
  hi : Nat
  move : Scanner.Move Nat ClientAction

/-- Bytes that lead to `target`. -/
def cases (ranges : List (Nat × Nat)) (actions : List ClientAction) (target : Nat) :
    List Case :=
  ranges.map fun (lo, hi) => ⟨lo, hi, actions, false, target⟩

def byte (b : Nat) : List (Nat × Nat) := [(b, b)]

/-- A capital letter or the small one. -/
def either (b : Nat) : List (Nat × Nat) := [(b, b), (b + 32, b + 32)]

def digits : List (Nat × Nat) := [(48, 57)]

def xdigits : List (Nat × Nat) := [(48, 57), (65, 70), (97, 102)]

def tokens : List (Nat × Nat) :=
  [(33, 33), (35, 39), (42, 43), (45, 46), (48, 57), (65, 90), (94, 122), (124, 124), (126, 126)]

/-- The blanks but the ends of lines. -/
def blanks : List (Nat × Nat) := [(9, 9), (11, 12), (32, 32)]

def spaces : List (Nat × Nat) := [(9, 13), (32, 32)]

def any : List (Nat × Nat) := [(0, 255)]

/-- The last transition. -/
def doneCases (actions : List ClientAction) (target : Nat) : List Case :=
  [⟨10, 10, actions, true, target⟩]

/-- The first byte of a field; `c` is the state of a `C`. -/
def fieldCases (actions : List ClientAction) (c : Nat) : List Case :=
  cases (either 67) (actions ++ [.start_field]) c ++
    cases (either 84) (actions ++ [.start_field]) 44 ++
    cases tokens (actions ++ [.start_field]) 21

/-- Bytes of a name, of which `special` go on with a name that the grammar knows. -/
def nameCases (special : List Case) : List Case :=
  special ++ cases (byte 58) [.write_field] 22 ++ cases tokens [] 21

/-- Bytes of a value, of which `special` go on with a value that the grammar knows. -/
def valueCases (special : List Case) : List Case :=
  special ++ cases (byte 10) [.write_value] 20 ++ cases (byte 13) [.write_value] 24 ++
    cases any [] 23

/-- Before a value: `lf` and `cr` are the states behind the end of the line, `special` the bytes
that begin a value that the grammar knows. -/
def startCases (state lf cr : Nat) (special : List Case) : List Case :=
  cases (byte 10) [.start_value, .write_value] lf ++
    cases (byte 13) [.start_value, .write_value] cr ++ cases blanks [.start_value] state ++
    special ++ cases any [.start_value] 23

/-- A text that the grammar knows, from the state `s` on. -/
def chain (s : Nat) (text : String) (others : List Case → List Case) : List (Nat × List Case) :=
  text.toList.zipIdx.map fun (c, i) =>
    (s + i, others (cases (if c = '-' then byte 45 else either c.toNat) [] (s + i + 1)))

def table : List (Nat × List Case) :=
  -- the line of a chunk
  [(1, cases xdigits [.mark] 2 ++ cases (byte 72) [.mark] 8),
    (2, doneCases [.chunk_size] 120 ++ cases (byte 13) [.chunk_size] 3 ++
      cases (byte 59) [.chunk_size] 4 ++ cases xdigits [] 2),
    (3, doneCases [] 120),
    (4, cases tokens [.start_field] 5),
    (5, doneCases [.write_field, .start_value, .write_value] 120 ++
      cases (byte 13) [.write_field, .start_value, .write_value] 3 ++
      cases (byte 59) [.write_field, .start_value, .write_value] 4 ++
      cases (byte 61) [.write_field, .start_value] 6 ++ cases tokens [] 5),
    (6, cases tokens [.start_value] 7),
    (7, doneCases [.write_value] 120 ++ cases (byte 13) [.write_value] 3 ++
      cases (byte 59) [.write_value] 4 ++ cases tokens [] 7),
    -- the status line
    (8, cases (byte 84) [] 9), (9, cases (byte 84) [] 10), (10, cases (byte 80) [] 11),
    (11, cases (byte 47) [] 12), (12, cases digits [] 13),
    (13, cases (byte 46) [] 14 ++ cases digits [] 13), (14, cases digits [] 15),
    (15, cases (byte 32) [.http_version] 16 ++ cases digits [] 15),
    (16, cases digits [.mark] 17), (17, cases (byte 32) [.status_code] 18 ++ cases digits [] 17),
    (18, cases [(0, 9), (11, 255)] [.mark] 19),
    (19, cases (byte 10) [.reason_phrase] 20 ++ cases (byte 13) [.reason_phrase] 24 ++
      cases any [] 19),
    (24, cases (byte 10) [] 20),
    -- the beginning of a line, in the end behind a field with no value, which may go on there
    (20, doneCases [] 120 ++ cases (byte 13) [] 3 ++ fieldCases [] 25),
    (43, doneCases [.write_connection_close] 120 ++
      cases (byte 13) [.write_connection_close] 3 ++ fieldCases [.write_connection_close] 25),
    (36, doneCases [] 122 ++ cases (byte 13) [] 89 ++ cases blanks [] 37 ++ fieldCases [] 90),
    (62, doneCases [] 121 ++ cases (byte 13) [] 72 ++ cases blanks [] 63 ++
      cases (either 67) [.start_value, .start_field] 73 ++ fieldCases [] 25),
    (113, doneCases [] 123 ++ cases (byte 13) [] 116 ++ cases blanks [] 114 ++
      cases digits [.start_value, .start_field] 117 ++ fieldCases [] 25),
    -- a name
    (21, nameCases []),
    (27, nameCases (cases (either 78) [] 28 ++ cases (either 84) [] 101)),
    (34, nameCases (cases (byte 58) [.write_field] 35)),
    (60, nameCases (cases (byte 58) [.write_field] 61)),
    (111, nameCases (cases (byte 58) [.write_field] 112)),
    (73, nameCases (cases (either 72) [] 74 ++ cases (either 79) [] 26)),
    (79, nameCases (cases (byte 10) [.write_value, .trans_chunked] 20 ++
      cases (byte 13) [.write_value] 71)),
    (90, nameCases (cases (either 76) [] 91 ++ cases (either 79) [] 26)),
    (94, nameCases (cases (byte 10) [] 43 ++ cases (byte 13) [] 88)),
    (117, nameCases (cases (byte 10) [.write_content_len, .write_value] 20 ++
      cases (byte 13) [.write_content_len, .write_value] 24 ++ cases digits [] 117)),
    -- a value
    (22, startCases 22 20 24 []), (23, valueCases []),
    (35, startCases 35 36 95 (cases (either 67) [.start_value] 96)),
    (61, startCases 61 62 80 (cases (either 67) [.start_value] 81)),
    (112, startCases 112 113 118 (cases digits [.start_value] 119)),
    (87, valueCases (cases (byte 10) [.write_value, .trans_chunked] 20 ++
      cases (byte 13) [.write_value] 71)),
    (100, valueCases (cases (byte 10) [.write_value] 43 ++ cases (byte 13) [.write_value] 88)),
    (119, valueCases (cases (byte 10) [.write_content_len, .write_value] 20 ++
      cases (byte 13) [.write_content_len, .write_value] 24 ++ cases digits [] 119)),
    (71, cases (byte 10) [.trans_chunked] 20), (88, cases (byte 10) [] 43),
    -- a value on the next line
    (37, cases spaces [] 37 ++ cases (either 67) [] 38),
    (42, cases (byte 10) [] 43 ++ cases (byte 13) [] 88),
    (89, doneCases [] 122 ++ cases spaces [] 37 ++ cases (either 67) [] 38),
    (95, cases (byte 10) [] 36 ++ cases spaces [] 37 ++ cases (either 67) [] 38),
    (122, cases spaces [] 37 ++ cases (either 67) [] 38),
    (63, cases spaces [] 63 ++ cases (either 67) [.start_value] 64),
    (70, cases (byte 10) [.write_value, .trans_chunked] 20 ++ cases (byte 13) [.write_value] 71),
    (72, doneCases [] 121 ++ cases spaces [] 63 ++ cases (either 67) [.start_value] 64),
    (80, cases (byte 10) [] 62 ++ cases spaces [] 63 ++ cases (either 67) [.start_value] 64),
    (121, cases spaces [] 63 ++ cases (either 67) [.start_value] 64),
    (114, cases spaces [] 114 ++ cases digits [.start_value] 115),
    (115, cases (byte 10) [.write_content_len, .write_value] 20 ++
      cases (byte 13) [.write_content_len, .write_value] 24 ++ cases digits [] 115),
    (116, doneCases [] 123 ++ cases spaces [] 114 ++ cases digits [.start_value] 115),
    (118, cases (byte 10) [] 113 ++ cases spaces [] 114 ++ cases digits [.start_value] 115),
    (123, cases spaces [] 114 ++ cases digits [.start_value] 115)] ++
  chain 25 "ON" nameCases ++ chain 28 "ECTION" nameCases ++
  chain 44 "RANSFER-ENCODING" nameCases ++ chain 101 "ENT-LENGTH" nameCases ++
  chain 74 "UNKED" nameCases ++ chain 91 "OSE" nameCases ++
  chain 81 "HUNKED" valueCases ++ chain 96 "LOSE" valueCases ++
  chain 64 "HUNKED" id ++ chain 38 "LOSE" id

def transition (s : Nat) (b : UInt8) : Option (Scanner.Move Nat ClientAction) :=
  (table.lookup s).bind fun cs => (cs.find? fun c => c.lo ≤ b.toNat && b.toNat ≤ c.hi).map (·.move)

end Client

/-! ## Numbers -/

def isspace (b : UInt8) : Bool := b = 32 ∨ 9 ≤ b ∧ b ≤ 13

/-- The value of a digit, beyond every base for another byte. -/
def digitValue (b : UInt8) : Nat :=
  if 48 ≤ b ∧ b ≤ 57 then b.toNat - 48
  else if 65 ≤ b ∧ b ≤ 90 then b.toNat - 55
  else if 97 ≤ b ∧ b ≤ 122 then b.toNat - 87
  else 36

/-- The number that the digits at the front of `s` denote. -/
def leadingNumber (base : Nat) (s : Bytes) : Nat :=
  (s.takeWhile fun b => digitValue b < base).foldl (fun n b => base * n + digitValue b) 0

/-- `0x` before a digit, for the base 16. -/
def dropPrefix (base : Nat) : Bytes → Bytes
  | 48 :: x :: b :: s =>
    if base = 16 ∧ tolower x = 120 ∧ digitValue b < 16 then b :: s else 48 :: x :: b :: s
  | s => s

/-- `strtol(s, NULL, base)` with a `long` of 64 bits. -/
def strtol (base : Nat) (s : Bytes) : Int :=
  match s.dropWhile isspace with
  | 45 :: s => max (-(leadingNumber base (dropPrefix base s) : Int)) (-2 ^ 63)
  | 43 :: s => min (leadingNumber base (dropPrefix base s)) (2 ^ 63 - 1)
  | s => min (leadingNumber base (dropPrefix base s)) (2 ^ 63 - 1)

/-- A `long` as an `int`. -/
def intOfLong (n : Int) : Int := (BitVec.ofInt 32 n).toInt

/-! ## The callbacks -/

namespace HttpResponse

def setHeader (r : HttpResponse) (key val : Bytes) : HttpResponse :=
  { r with m_headers := MapType.assign key val r.m_headers }

/-- `getHeaderAs<uint64_t>(key, def)`, where `lexical_cast` is that of Boost. -/
def getHeaderAs (r : HttpResponse) (lexical_cast : Bytes → Option UInt64) (key : Bytes)
    (def_ : UInt64) : UInt64 :=
  match MapType.find r.m_headers key with
  | none => def_
  | some val => (lexical_cast val).getD def_

end HttpResponse

/-- What the callbacks see of a `HttpResponseParser`. -/
structure ResponseTarget where
  m_data : HttpResponse := {}
  m_error : Nat := 0
  deriving DecidableEq, Repr

namespace ResponseTarget

variable (t : ResponseTarget) (at_ : Bytes) (length : Nat)

def setError (v : Nat) : ResponseTarget := { t with m_error := v }

def on_response_reason : ResponseTarget :=
  { t with m_data := { t.m_data with m_reason := at_.take length } }

/-- `atoi` is `strtol` as an `int`. -/
def on_response_status : ResponseTarget :=
  { t with m_data := { t.m_data with m_status := .ofBitVec (BitVec.ofInt 32 (strtol 10 at_)) } }

def on_response_version : ResponseTarget :=
  if strncmpEq at_ (ascii "HTTP/1.1") length then
    { t with m_data := { t.m_data with m_version := 0x11 } }
  else if strncmpEq at_ (ascii "HTTP/1.0") length then
    { t with m_data := { t.m_data with m_version := 0x10 } }
  else t.setError 1001

def on_response_http_field (field : Bytes) (flen : Nat) (value : Bytes) (vlen : Nat) :
    ResponseTarget :=
  if flen = 0 then t
  else { t with m_data := t.m_data.setHeader (field.take flen) (value.take vlen) }

end ResponseTarget

/-! ## The parser -/

structure HttpclientParser where
  cs : Nat
  body_start : Nat
  content_len : Int
  chunked : Bool
  chunks_done : Bool
  close : Bool
  nread : Nat
  mark : Nat
  field_start : Nat
  field_len : Nat
  deriving DecidableEq, Repr

namespace HttpclientParser

def httpclient_parser_start : Nat := 1

def httpclient_parser_first_final : Nat := 120

def httpclient_parser_error : Nat := 0

def init : HttpclientParser := ⟨httpclient_parser_start, 0, -1, false, false, false, 0, 0, 0, 0⟩

def has_error (parser : HttpclientParser) : Bool := parser.cs = httpclient_parser_error

def is_finished (parser : HttpclientParser) : Bool := parser.cs = httpclient_parser_first_final

def finish (parser : HttpclientParser) : Int :=
  if parser.has_error then -1 else if parser.is_finished then 1 else 0

/-- An action at the byte `p` of `buffer`. An element that seems to end before it starts is so long
that its string cannot be made: `std::length_error`. What is read of a name that goes on beyond the
buffer is not defined, and `none` as well. -/
def act (buffer : Bytes) (p : Nat) :
    HttpclientParser × ResponseTarget → ClientAction → Option (HttpclientParser × ResponseTarget)
  | (parser, t), .mark => some ({ parser with mark := p }, t)
  | (parser, t), .start_field => some ({ parser with field_start := p }, t)
  | (parser, t), .write_field =>
    if parser.field_start ≤ p then some ({ parser with field_len := p - parser.field_start }, t)
    else none
  | (parser, t), .start_value => some ({ parser with mark := p }, t)
  | (parser, t), .write_content_len =>
    some ({ parser with content_len := intOfLong (strtol 10 (buffer.drop parser.mark)) }, t)
  | (parser, t), .write_connection_close => some ({ parser with close := true }, t)
  | (parser, t), .write_value =>
    if parser.field_start + parser.field_len ≤ buffer.length ∧ parser.mark ≤ p then
      some (parser, t.on_response_http_field (buffer.drop parser.field_start) parser.field_len
        (buffer.drop parser.mark) (p - parser.mark))
    else none
  | (parser, t), .reason_phrase =>
    if parser.mark ≤ p then
      some (parser, t.on_response_reason (buffer.drop parser.mark) (p - parser.mark))
    else none
  | (parser, t), .status_code => some (parser, t.on_response_status (buffer.drop parser.mark))
  | (parser, t), .http_version =>
    if parser.mark ≤ p then
      some (parser, t.on_response_version (buffer.drop parser.mark) (p - parser.mark))
    else none
  | (parser, t), .chunk_size =>
    let content_len := intOfLong (strtol 16 (buffer.drop parser.mark))
    some ({ parser with
      chunked := true, content_len := content_len, chunks_done := content_len ≤ 0 }, t)
  | (parser, t), .trans_chunked => some ({ parser with chunked := true }, t)

/-- The bytes read, or `-1`; `none` is an exception or a failed assertion. The action `done` is the
one that sets `body_start`. The caller has put a NUL behind the buffer, as `assert(*pe == NUL)`
asks. -/
def execute (parser : HttpclientParser) (t : ResponseTarget) (buffer : Bytes) :
    Option (Int × HttpclientParser × ResponseTarget) :=
  if (buffer.length : Int) = toInt buffer.length then
    match Scanner.scan Client.transition (act buffer) buffer ⟨0, parser.cs, (parser, t)⟩ with
    | none => none
    | some ⟨p, cs, parser', t⟩ =>
      let parser' := { parser' with
        cs := cs.getD httpclient_parser_error
        body_start := if 0 < p ∧ cs.any (httpclient_parser_first_final ≤ ·) then p
          else parser.body_start
        nread := parser.nread + p }
      if parser'.nread ≤ buffer.length ∧ parser'.body_start ≤ buffer.length then
        if parser'.mark < buffer.length ∧ parser'.field_len ≤ buffer.length ∧
            parser'.field_start < buffer.length then
          some (parser'.nread, parser', t)
        else some (-1, parser', t)
      else none
  else none

end HttpclientParser

structure HttpResponseParser where
  m_httpclientParser : HttpclientParser
  target : ResponseTarget
  deriving DecidableEq, Repr

namespace HttpResponseParser

def new : HttpResponseParser := ⟨.init, {}⟩

/-- The number of bytes parsed, and what `memmove` leaves of them. It would begin before the buffer
where the parser returns `-1`. -/
def execute (parser : HttpResponseParser) (data : Bytes) (chunck : Bool) :
    Option (Nat × Bytes × HttpResponseParser) :=
  let m_httpclientParser := if chunck then .init else parser.m_httpclientParser
  match m_httpclientParser.execute parser.target data with
  | some (.ofNat offset, m_httpclientParser, target) =>
      some (offset, data.drop offset, ⟨m_httpclientParser, target⟩)
  | _ => none

def isFinished (parser : HttpResponseParser) : Int := parser.m_httpclientParser.finish

def hasError (parser : HttpResponseParser) : Bool :=
  parser.target.m_error ≠ 0 || parser.m_httpclientParser.has_error

def getData (parser : HttpResponseParser) : HttpResponse := parser.target.m_data

def getContentLength (parser : HttpResponseParser) (lexical_cast : Bytes → Option UInt64) :
    UInt64 :=
  parser.getData.getHeaderAs lexical_cast (ascii "content-length") 0

end HttpResponseParser

end Captain.Http
