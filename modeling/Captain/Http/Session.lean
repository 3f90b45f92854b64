import Captain.Http.Parser
import Mathlib.Data.BitVec

/-!
# `HttpSession::recvRequest`

What has come in on a connection is a list of chunks: a `read` returns the first of them, or as much
of it as it has room for, and nothing once there is none left. `MAX_RW_COUNT` is the most the kernel
hands over in one call, so the `int` that `read` returns is the number of bytes.

The buffer for the body is made before its bytes are read. `recvRequest` is a call in which this
succeeds; `recvRequestResizing` is one in which `resize` may throw, and tells the size that it gives
the buffer. No other allocation fails. The connection's read of no bytes returns none.
-/

namespace Captain.Http

def MAX_RW_COUNT : Nat := 0x7ffff000

/-- The conversion of a `size_t` or a `uint64_t` to `int`. -/
def toInt (n : Nat) : Int := (BitVec.ofNat 32 n).toInt

theorem toInt_eq {n : Nat} (h : n < 2 ^ 31) : toInt n = n := by
  unfold toInt
  rw [BitVec.toInt_eq_toNat_of_lt] <;> rw [BitVec.toNat_ofNat] <;> omega

structure SocketStream where
  chunks : List Bytes
  closed : Bool := false
  deriving DecidableEq, Repr

namespace SocketStream

/-- The bytes that have not been read. -/
def bytes (s : SocketStream) : Bytes := s.chunks.flatten

def close (s : SocketStream) : SocketStream := { s with closed := true }

/-- The bytes read, none standing for a result that is not positive. -/
def read (s : SocketStream) (length : Nat) : Bytes × SocketStream :=
  if s.closed then ([], s)
  else
    match s.chunks with
    | [] => ([], s)
    | c :: rest =>
      let n := min length MAX_RW_COUNT
      if c.length ≤ n then (c, { s with chunks := rest })
      else (c.take n, { s with chunks := c.drop n :: rest })

/-- The loop of `Stream::readFixSize`: what it has put into the buffer, `none` if a `read` fails. -/
def readLoop : Nat → SocketStream → Nat → Option Bytes × SocketStream
  | 0, s, left => (if left = 0 then some [] else none, s)
  | turns + 1, s, left =>
    if left = 0 then (some [], s)
    else
      let (got, s) := s.read left
      if got.length = 0 then (none, s)
      else
        let (more, s) := readLoop turns s (left - got.length)
        (more.map (got ++ ·), s)

/-- What `Stream::readFixSize` returns, with the buffer it has filled. -/
def readFixSize (s : SocketStream) (length : Nat) : Int × Bytes × SocketStream :=
  match readLoop (length + 1) s length with
  | (none, s) => (0, [], s)
  | (some buffer, s) => (toInt length, buffer, s)

end SocketStream

/-- How a call ends; `throws` is an exception that leaves `recvRequest`. -/
inductive Outcome
  | request (r : HttpRequest)
  | null
  | throws
  deriving DecidableEq, Repr

namespace HttpSession

section

variable (M : Machine) (lexical_cast : Bytes → Option UInt64)

/-- The loop of `recvRequest`: the parser that has finished with the bytes that are left at `data`,
`none` where the connection is closed. `turns` is at least the number of bytes there are to read. -/
def parse (buff_size : Nat) : Nat → SocketStream → Bytes → HttpRequestParser M →
    Option (Option (HttpRequestParser M × Bytes)) × SocketStream
  | 0, s, _, _ => (some none, s.close)
  | turns + 1, s, data, parser =>
    let (got, s) := s.read (buff_size - data.length)
    if got.length = 0 then (some none, s.close)
    else
      match parser.execute (data ++ got) with
      | none => (none, s)
      | some (_, data, parser) =>
        if parser.hasError then (some none, s.close)
        else if (data.length : Int) = toInt buff_size then (some none, s.close)
        else if parser.isFinished ≠ 0 then (some (some (parser, data)), s)
        else parse buff_size turns s data parser

/-- What follows the loop, `data` being the bytes left in the buffer. -/
def receiveBody (s : SocketStream) (parser : HttpRequestParser M) (data : Bytes) :
    Outcome × SocketStream :=
  let length := (parser.getContentLength lexical_cast).toBitVec.toInt
  if length > 0 then
    let body := data.take length.toNat
    let left := length - data.length
    if left > 0 then
      match s.readFixSize left.toNat with
      | (n, buffer, s) =>
        if n ≤ 0 then (.null, s.close)
        else (.request { parser.getData with m_body := body ++ buffer }, s)
    else (.request { parser.getData with m_body := body }, s)
  else (.request parser.getData, s)

/-- `HttpSession::recvRequest`, where `buff_size` is `GetHttpRequestBufferSize()`. -/
def recvRequest (buff_size : Nat) (s : SocketStream) : Outcome × SocketStream :=
  match parse M buff_size (s.bytes.length + 1) s [] (.new M) with
  | (none, s) => (.throws, s)
  | (some none, s) => (.null, s)
  | (some (some (parser, data)), s) => receiveBody M lexical_cast s parser data

/-- A call of `recvRequest` with the size that `body.resize(length)` gives the buffer of the body;
`refuses` are the lengths for which it throws (`length_error`, `bad_alloc`). -/
structure Call where
  outcome : Outcome
  session : SocketStream
  buffer : Option Nat
  deriving DecidableEq, Repr

/-- What follows the loop. -/
def resizeBody (refuses : Nat → Bool) (s : SocketStream) (parser : HttpRequestParser M)
    (data : Bytes) : Call :=
  let length := (parser.getContentLength lexical_cast).toBitVec.toInt
  if length > 0 then
    if refuses length.toNat then ⟨.throws, s, none⟩
    else
      let (outcome, s) := receiveBody M lexical_cast s parser data
      ⟨outcome, s, some length.toNat⟩
  else ⟨.request parser.getData, s, none⟩

/-- `HttpSession::recvRequest`, where `resize` may throw. -/
def recvRequestResizing (refuses : Nat → Bool) (buff_size : Nat) (s : SocketStream) : Call :=
  match parse M buff_size (s.bytes.length + 1) s [] (.new M) with
  | (none, s) => ⟨.throws, s, none⟩
  | (some none, s) => ⟨.null, s, none⟩
  | (some (some (parser, data)), s) => resizeBody M lexical_cast refuses s parser data

/-- When `resize` succeeds, it is the same call. -/
theorem recvRequestResizing_eq {refuses : Nat → Bool} (h : ∀ n, refuses n = false)
    (buff_size : Nat) (s : SocketStream) :
    ((recvRequestResizing M lexical_cast refuses buff_size s).outcome,
      (recvRequestResizing M lexical_cast refuses buff_size s).session) =
      recvRequest M lexical_cast buff_size s := by
  unfold recvRequestResizing recvRequest
  split
  · rfl
  · rfl
  · unfold resizeBody
    dsimp only
    rw [h]
    split
    · rfl
    · next hpos =>
      unfold receiveBody
      exact (if_neg hpos).symm

end

end HttpSession

end Captain.Http
