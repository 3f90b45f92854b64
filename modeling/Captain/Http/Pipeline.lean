import Captain.Http.Receive

/-!
# Requests one after the other

A connection on which requests follow each other, each framed by its `Content-Length`, is served if
the `k`-th call of `recvRequest` returns the `k`-th request and leaves the bytes after it to the
calls that follow. `recvRequest` drops what its last `read` has brought beyond the body:
`serves_iff` says that this, a header whose elements are not read as they are written, and a length
that is no positive `int` are all that can go wrong.
-/

namespace Captain.Http

open Segments

/-- A well-formed request: the automaton is done just at the end of the header, and the body has the
length that the header announces. -/
structure Message (M : Machine) (lexical_cast : Bytes → Option UInt64) where
  header : Bytes
  body : Bytes
  data : HttpRequest
  done : (M.run header).done = true
  stop : (M.run header).stop = header.length
  read : M.read header [header] = some data
  framed : (data.getHeaderAs lexical_cast (ascii "content-length") 0).toNat = body.length

variable {M : Machine} {lexical_cast : Bytes → Option UInt64}

namespace Message

variable (q : Message M lexical_cast)

def bytes : Bytes := q.header ++ q.body

def request : HttpRequest := { q.data with m_body := q.body }

def stream (qs : List (Message M lexical_cast)) : Bytes := (qs.map bytes).flatten

/-- The calls return the requests and leave to each other what is theirs. -/
def Serves (buff_size : Nat) : List (Message M lexical_cast) → SocketStream → Prop
  | [], _ => True
  | q :: qs, s =>
    (HttpSession.recvRequest M lexical_cast buff_size s).1 = .request q.request ∧
    (HttpSession.recvRequest M lexical_cast buff_size s).2.bytes = stream qs ∧
    Serves buff_size qs (HttpSession.recvRequest M lexical_cast buff_size s).2

/-- How many bytes the `read` that brings the end of the header brings beyond it. -/
def surplus (cs : List Bytes) : Nat := (reach q.header.length cs).1.length

/-- The reads of one call: the header is read as it is written and no read fills the buffer; the
last of them does not go beyond the body; what is left of the body is a positive `int`. -/
structure Framed (buff_size : Nat) (cs : List Bytes) : Prop where
  read : M.read q.header cs = some q.data
  room : ∀ x ∈ excess q.header.length cs, (x : Int) ≠ toInt buff_size
  surplus : q.surplus cs ≤ q.body.length
  length : q.body.length < 2 ^ 63
  left : q.surplus cs < q.body.length → 0 < toInt (q.body.length - q.surplus cs)

/-- The reads of one call that returns the request, whatever the last of them brings beyond it. -/
structure Received (buff_size : Nat) (cs : List Bytes) : Prop where
  read : M.read q.header cs = some q.data
  room : ∀ x ∈ excess q.header.length cs, (x : Int) ≠ toInt buff_size
  length : q.body.length < 2 ^ 63
  left : q.surplus cs < q.body.length → 0 < toInt (q.body.length - q.surplus cs)

/-- The reads of all calls, each of which begins where the body before it ends. -/
def AllFramed (buff_size : Nat) : List (Message M lexical_cast) → List Bytes → Prop
  | [], _ => True
  | q :: qs, cs => q.Framed buff_size cs ∧ AllFramed buff_size qs (skip q.bytes.length cs)

theorem data_body : q.data.m_body = [] := read_body q.read

theorem request_eq {d : HttpRequest} (hd : d.m_body = []) {bytes : Bytes}
    (h : d.withBody lexical_cast bytes = q.request) : d = q.data := withBody_inj hd q.data_body h

theorem toInt_of_lt {n : UInt64} (h : n.toNat < 2 ^ 63) : n.toBitVec.toInt = n.toNat :=
  BitVec.toInt_eq_toNat_of_lt (by rw [UInt64.toNat_toBitVec]; omega)

theorem contentLength_eq (h : q.body.length < 2 ^ 63) :
    q.data.contentLength lexical_cast = q.body.length := by
  rw [HttpRequest.contentLength, toInt_of_lt (q.framed ▸ h), q.framed]

/-- A length from `2 ^ 63` on is negative as an `int64_t`, and nothing is taken for a body. -/
theorem contentLength_neg (h : ¬q.body.length < 2 ^ 63) :
    (q.data.contentLength lexical_cast).toNat = 0 := by
  have hlt := (q.data.getHeaderAs lexical_cast (ascii "content-length") 0).toBitVec.isLt
  have hframed := q.framed
  rw [← UInt64.toNat_toBitVec] at hframed
  rw [HttpRequest.contentLength, BitVec.toInt_eq_toNat_cond]
  split
  · omega
  · omega

variable {buff_size : Nat} {cs : List Bytes} {tail : Bytes}

theorem header_prefix (h : cs.flatten = q.bytes ++ tail) : q.header <+: cs.flatten := by
  rw [h, bytes, List.append_assoc]
  exact List.prefix_append _ _

theorem drop_header (h : cs.flatten = q.bytes ++ tail) :
    cs.flatten.drop q.header.length = q.body ++ tail := by
  rw [h, bytes, List.append_assoc, List.drop_left]

theorem length_reach (h : cs.flatten = q.bytes ++ tail) :
    q.surplus cs + (reach q.header.length cs).2.flatten.length = q.body.length + tail.length := by
  have heq := flatten_reach (q.header_prefix h).length_le
  rw [q.drop_header h] at heq
  have hlength := congrArg List.length heq
  rwa [List.length_append, List.length_append] at hlength

variable {q}

theorem Framed.received (h : q.Framed buff_size cs) : q.Received buff_size cs :=
  ⟨h.read, h.room, h.length, h.left⟩

/-- A request is returned, and what comes after its last read is left to read. -/
theorem recvRequest_of_received (hfit : Fit buff_size cs) (hbytes : cs.flatten = q.bytes ++ tail)
    (h : q.Received buff_size cs) :
    HttpSession.recvRequest M lexical_cast buff_size ⟨cs, false⟩ =
      (.request q.request,
        ⟨skip (q.body.length - q.surplus cs) (reach q.header.length cs).2, false⟩) := by
  have hcontent := q.contentLength_eq h.length
  have htoNat : (q.data.contentLength lexical_cast).toNat = q.body.length := by omega
  have hspec := HttpSession.recvRequest_body lexical_cast hfit (q.header_prefix hbytes) q.done
    h.read (q.stop.symm ▸ h.room) htoNat
  rw [q.stop, q.drop_header hbytes] at hspec
  have hrequest : q.data.withBody lexical_cast (q.body ++ tail) = q.request := by
    unfold HttpRequest.withBody request
    rw [htoNat, List.take_left]
  have hleft := h.left
  unfold surplus at hleft ⊢
  rw [if_pos, hrequest] at hspec
  · exact hspec
  · by_cases hle : q.body.length ≤ (reach q.header.length cs).1.length
    · exact .inl hle
    · refine .inr ⟨?_, hleft (Nat.not_le.mp hle)⟩
      rw [List.length_append]
      omega

/-- A framed request is returned, and what comes after it is left to read. -/
theorem recvRequest_of_framed (hfit : Fit buff_size cs) (hbytes : cs.flatten = q.bytes ++ tail)
    (h : q.Framed buff_size cs) :
    HttpSession.recvRequest M lexical_cast buff_size ⟨cs, false⟩ =
      (.request q.request, ⟨skip q.bytes.length cs, false⟩) := by
  have hsurplus := h.surplus
  rw [recvRequest_of_received hfit hbytes h.received]
  unfold surplus at hsurplus ⊢
  rw [skip_reach (q.header_prefix hbytes).length_le hsurplus, bytes, List.length_append]

/-- The reads of a call that has returned the request, and what it has left to read. -/
theorem received_of_recvRequest (hfit : Fit buff_size cs) (hbytes : cs.flatten = q.bytes ++ tail)
    (h : (HttpSession.recvRequest M lexical_cast buff_size ⟨cs, false⟩).1 = .request q.request) :
    q.Received buff_size cs := by
  obtain ⟨d, length, hlen, hd, hexcess, hcond, hrequest, -⟩ :=
    HttpSession.recvRequest_request lexical_cast hfit (q.header_prefix hbytes) q.done h
  rw [q.stop, q.drop_header hbytes] at hcond hrequest
  rw [q.stop] at hexcess
  have hdata := q.request_eq (read_body hd) hrequest
  rw [hdata] at hd hrequest hlen
  have hlength : q.body.length < 2 ^ 63 := by
    by_contra hlong
    have hbody := congrArg (fun r : HttpRequest => r.m_body.length) hrequest
    simp only [HttpRequest.withBody, request, q.contentLength_neg hlong, List.take_zero,
      List.length_nil] at hbody
    omega
  rw [q.contentLength_eq hlength, Int.toNat_natCast] at hlen
  refine ⟨hd, hexcess, hlength, fun hlt => ?_⟩
  unfold surplus at hlt ⊢
  cases hcond with
  | inl hle => omega
  | inr hle => exact hlen ▸ hle.2

theorem framed_of_recvRequest (hfit : Fit buff_size cs) (hbytes : cs.flatten = q.bytes ++ tail)
    (h : (HttpSession.recvRequest M lexical_cast buff_size ⟨cs, false⟩).1 = .request q.request)
    (hrest : (HttpSession.recvRequest M lexical_cast buff_size ⟨cs, false⟩).2.bytes = tail) :
    q.Framed buff_size cs := by
  have hreceived := received_of_recvRequest hfit hbytes h
  refine ⟨hreceived.read, hreceived.room, ?_, hreceived.length, hreceived.left⟩
  -- A read beyond the body would leave less than the tail.
  rw [recvRequest_of_received hfit hbytes hreceived] at hrest
  have hreach := q.length_reach hbytes
  have hskip := congrArg List.length hrest
  unfold SocketStream.bytes at hskip
  rw [flatten_skip, List.length_drop] at hskip
  omega

variable (q)

theorem fit_skip (hfit : Fit buff_size cs) (n : Nat) : Fit buff_size (skip n cs) := by
  intro c hc
  refine ⟨ne_nil_of_mem_skip (fun c hc => (hfit c hc).1) hc, ?_⟩
  obtain ⟨c', hmem, hle⟩ := mem_skip_length hc
  exact hle.trans (hfit c' hmem).2

/-- The requests are served, each with its body and nothing lost between them, just if the reads
frame each of them. By induction on the requests: what a call leaves to read is where the next one
begins. -/
theorem serves_iff (buff_size : Nat) (qs : List (Message M lexical_cast)) {cs : List Bytes}
    (hfit : Fit buff_size cs) (hstream : cs.flatten = stream qs) :
    Serves buff_size qs ⟨cs, false⟩ ↔ AllFramed buff_size qs cs := by
  induction qs generalizing cs with
  | nil => exact Iff.rfl
  | cons q qs ih =>
    have hbytes : cs.flatten = q.bytes ++ stream qs := hstream
    have hnext : (skip q.bytes.length cs).flatten = stream qs := by
      rw [flatten_skip, hbytes, List.drop_left]
    have hqs := ih (fit_skip hfit q.bytes.length) hnext
    constructor
    · rintro ⟨hrequest, hrest, hserves⟩
      have hframed := framed_of_recvRequest hfit hbytes hrequest hrest
      rw [recvRequest_of_framed hfit hbytes hframed] at hserves
      exact ⟨hframed, hqs.mp hserves⟩
    · rintro ⟨hframed, hall⟩
      have heq := recvRequest_of_framed hfit hbytes hframed
      refine ⟨congrArg Prod.fst heq, ?_, ?_⟩
      · rw [heq]
        exact hnext
      · rw [heq]
        exact hqs.mpr hall

def get (lexical_cast : Bytes → Option UInt64) : Message http_parser_machine lexical_cast where
  header := ascii "GET / HTTP/1.1\r\n\r\n"
  body := []
  data := {}
  done := by decide
  stop := by decide
  read := by decide
  framed := rfl

/-- A `lexical_cast` that knows one number. -/
def castTwo (val : Bytes) : Option UInt64 := if val = ascii "2" then some 2 else none

def post : Message http_parser_machine castTwo where
  header := ascii "POST / HTTP/1.1\r\nContent-Length: 2\r\n\r\n"
  body := ascii "hi"
  data := { m_method := .POST, m_headers := [(ascii "Content-Length", ascii "2")] }
  done := by decide
  stop := by decide
  read := by decide
  framed := by decide

/-- The second `read` brings the rest of the body and the next request, of which `readFixSize` takes
what it has asked for. -/
theorem serves_iff_post :
    Serves 4096 [post, get castTwo]
      ⟨[ascii "POST / HTTP/1.1\r\nContent-Length: 2\r\n\r\nh", ascii "iGET / HTTP/1.1\r\n\r\n"],
        false⟩ := by
  refine (serves_iff 4096 [post, get castTwo] ?_ (by decide)).mpr ⟨?_, ?_, trivial⟩
  · intro c hc
    simp only [List.mem_cons, List.not_mem_nil, or_false] at hc
    rcases hc with rfl | rfl <;> decide
  · exact ⟨by decide, by decide, by decide, by decide, by decide⟩
  · exact ⟨by decide, by decide, by decide, by decide, by decide⟩

/-- Of two requests that one `read` brings, the second is dropped. -/
theorem not_serves :
    ¬∀ (lexical_cast : Bytes → Option UInt64) (buff_size : Nat)
      (qs : List (Message http_parser_machine lexical_cast)) (cs : List Bytes),
      Fit buff_size cs → cs.flatten = stream qs → Serves buff_size qs ⟨cs, false⟩ := by
  intro h
  have hserves := h (fun _ => none) 4096 [get _, get _]
    [ascii "GET / HTTP/1.1\r\n\r\nGET / HTTP/1.1\r\n\r\n"] (by
      intro c hc
      rw [List.mem_singleton.mp hc]
      decide) (by decide)
  obtain ⟨-, hrest, -⟩ := hserves
  exact absurd hrest (by decide)

end Message

end Captain.Http
