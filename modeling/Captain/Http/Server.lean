import Captain.Http.Pipeline
import Captain.Http.Response
import Captain.Http.Servlet

/-!
# `HttpServer::handleClient` (`captain/http/http_server.cpp`)

The loop that answers the requests of a connection. Whether the connection is to be closed is a flag
of the request, which is set by default and which nothing that reads a request changes.

* `keepsAlive_iff`: on a server with keep-alive the requests are answered as they should be just if
  there are none, or if the first one asks to close.
-/

namespace Captain.Http

open Segments

namespace HttpRequest

/-- The request asks to close the connection. -/
def asksClose (r : HttpRequest) : Bool :=
  match MapType.find r.m_headers (ascii "connection") with
  | some val =>
    strcasecmpEq val (ascii "close") ||
      r.m_version = 0x10 && !strcasecmpEq val (ascii "keep-alive")
  | none => r.m_version = 0x10

end HttpRequest

/-- `Servlet::handle`: it may change the request, the response and the session. -/
abbrev Servlet :=
  HttpRequest → HttpResponse → SocketStream → HttpRequest × HttpResponse × SocketStream

/-- `ServletDispatch::handle`. -/
def ServletDispatch.handle (fnmatch : Bytes → Bytes → Bool) (s : ServletDispatch Servlet)
    (request : HttpRequest) (response : HttpResponse) (session : SocketStream) :
    HttpRequest × HttpResponse × SocketStream :=
  s.getMatchedServlet fnmatch request.m_path request response session

structure HttpServer where
  m_isKeepalive : Bool
  m_dispatch : ServletDispatch Servlet

/-- A request that has been read, the response that has been sent, and whether the server went on to
read. -/
structure Answer where
  request : HttpRequest
  response : HttpResponse
  kept : Bool
  deriving DecidableEq

namespace HttpServer

variable (M : Machine) (lexical_cast : Bytes → Option UInt64) (buff_size : Nat)
  (fnmatch : Bytes → Bytes → Bool) (server : HttpServer)

/-- The loop of `handleClient`. An exception ends it as well; the session then closes the
connection. -/
def answer : Nat → SocketStream → List Answer × SocketStream
  | 0, session => ([], session.close)
  | turns + 1, session =>
    match HttpSession.recvRequest M lexical_cast buff_size session with
    | (.request req, session) =>
      let rsp : HttpResponse :=
        { m_version := req.m_version, m_close := req.m_close || !server.m_isKeepalive }
      let (req', rsp, session) := server.m_dispatch.handle fnmatch req rsp session
      if !server.m_isKeepalive || req'.m_close then ([⟨req, rsp, false⟩], session.close)
      else
        let (answers, session) := answer turns session
        (⟨req, rsp, true⟩ :: answers, session)
    | (_, session) => ([], session.close)

/-- `handleClient`; every request takes a byte at least. -/
def handleClient (session : SocketStream) : List Answer × SocketStream :=
  answer M lexical_cast buff_size fnmatch server (session.bytes.length + 1) session

end HttpServer

/-- The servlets leave the flags and the session alone. -/
def Servlet.Plain (servlet : Servlet) : Prop :=
  ∀ req rsp session, (servlet req rsp session).1.m_close = req.m_close ∧
    (servlet req rsp session).2.1.m_close = rsp.m_close ∧
    (servlet req rsp session).2.2 = session

/-! ## What a request that has been read says -/

namespace Report

theorem apply_close {text : Bytes} {origin : Nat → Nat} {t t' : Target} {r : Report}
    (h : r.apply text origin t = some t') : t'.m_data.m_close = t.m_data.m_close := by
  unfold apply at h
  dsimp only at h
  split at h
  · split at h
    · cases h
      unfold Target.on_request_http_field
      split <;> rfl
    · cases h
  · cases h
    unfold Target.on_request_method
    dsimp only
    split <;> rfl
  · cases h
    rfl
  · split at h
    · cases h
    · split at h
      · cases h
        rfl
      · cases h
  · cases h
    unfold Target.on_request_version
    split
    · rfl
    · split <;> rfl
  · cases h
    rfl
  · cases h
    rfl

theorem applyAll_close {text : Bytes} {origin : Nat → Nat} {rs : List Report} {t t' : Target}
    (h : rs.foldlM (apply text origin) t = some t') : t'.m_data.m_close = t.m_data.m_close :=
  Transition.foldlM_invariant (I := fun u => u.m_data.m_close = t.m_data.m_close)
    (fun _ _ _ hclose hr => (apply_close hr).trans hclose) h rfl

end Report

variable {M : Machine} {lexical_cast : Bytes → Option UInt64} {buff_size : Nat}

/-- The flag is that of the constructor. -/
theorem read_close {text : Bytes} {segments : List Bytes} {d : HttpRequest}
    (h : M.read text segments = some d) : d.m_close = true := by
  obtain ⟨t, ht, hd⟩ := Option.bind_eq_some_iff.mp h
  split at hd
  · cases hd
    exact Report.applyAll_close ht
  · cases hd

namespace HttpServer

/-- The requests up to the first one that asks to close. -/
def untilClose : List (Message M lexical_cast) → List HttpRequest
  | [] => []
  | q :: qs => if q.request.asksClose then [q.request] else q.request :: untilClose qs

/-- The requests are answered in order up to the first one that asks to close, and the field
`connection` of each response, which `dump` writes from the flag, says what the server does. -/
structure KeepsAlive (qs : List (Message M lexical_cast)) (answers : List Answer) : Prop where
  requests : answers.map Answer.request = untilClose qs
  kept : ∀ e ∈ answers, e.kept = !e.request.asksClose
  announced : ∀ e ∈ answers, e.response.m_close = !e.kept

section

variable {fnmatch : Bytes → Bytes → Bool} {server : HttpServer} {cs : List Bytes}

theorem recvRequest_nil : HttpSession.recvRequest M lexical_cast buff_size ⟨[], false⟩ =
    (.null, ⟨[], true⟩) := rfl

/-- The loop ends without an answer when no request is returned. -/
theorem answer_of_not_request {session : SocketStream} (turns : Nat)
    (h : ∀ r, (HttpSession.recvRequest M lexical_cast buff_size session).1 ≠ .request r) :
    (answer M lexical_cast buff_size fnmatch server (turns + 1) session).1 = [] := by
  unfold answer
  split
  · rename_i req s heq
    exact absurd (congrArg Prod.fst heq) (h req)
  · rfl

theorem recvRequest_close {q : Message M lexical_cast} {tail : Bytes} {r : HttpRequest}
    (hfit : Fit buff_size cs) (hbytes : cs.flatten = q.bytes ++ tail)
    (h : (HttpSession.recvRequest M lexical_cast buff_size ⟨cs, false⟩).1 = .request r) :
    r.m_close = true := by
  obtain ⟨d, -, -, hd, -, -, hrequest, -⟩ :=
    HttpSession.recvRequest_request lexical_cast hfit (q.header_prefix hbytes) q.done h
  rw [← hrequest]
  show d.m_close = true
  exact read_close hd

/-- With the flag set the first answer is the last one, and it says so. -/
theorem answer_of_request {session : SocketStream} (turns : Nat) {req : HttpRequest}
    (hplain : ∀ uri, (server.m_dispatch.getMatchedServlet fnmatch uri).Plain)
    (hclose : req.m_close = true)
    (h : (HttpSession.recvRequest M lexical_cast buff_size session).1 = .request req) :
    ∃ rsp, rsp.m_close = true ∧
      (answer M lexical_cast buff_size fnmatch server (turns + 1) session).1 =
        [⟨req, rsp, false⟩] := by
  obtain ⟨s, hrecv⟩ : ∃ s, HttpSession.recvRequest M lexical_cast buff_size session =
      (.request req, s) := ⟨_, Prod.ext h rfl⟩
  obtain ⟨hreq, hrsp, -⟩ := hplain req.m_path req
    { m_version := req.m_version, m_close := req.m_close || !server.m_isKeepalive } s
  refine ⟨(server.m_dispatch.handle fnmatch req
    { m_version := req.m_version, m_close := req.m_close || !server.m_isKeepalive } s).2.1, ?_, ?_⟩
  · refine hrsp.trans ?_
    rw [hclose, Bool.true_or]
  · have hend : (server.m_dispatch.handle fnmatch req
        { m_version := req.m_version, m_close := req.m_close || !server.m_isKeepalive }
        s).1.m_close = true := hreq.trans hclose
    unfold answer
    rw [hrecv]
    dsimp only
    rw [hend, Bool.or_true, if_pos rfl]

/-- Nothing comes in. -/
theorem handleClient_nil (hfit : Fit buff_size cs) (hempty : cs.flatten = []) :
    (handleClient M lexical_cast buff_size fnmatch server ⟨cs, false⟩).1 = [] := by
  have hnil : cs = [] := by
    by_contra hne
    obtain ⟨c, hc⟩ := List.exists_mem_of_ne_nil cs hne
    exact (hfit c hc).1 (List.flatten_eq_nil_iff.mp hempty c hc)
  refine answer_of_not_request _ ?_
  rw [hnil, recvRequest_nil]
  exact fun r => nofun

theorem head_untilClose (q : Message M lexical_cast) (qs : List (Message M lexical_cast)) :
    (untilClose (q :: qs)).head? = some q.request := by
  unfold untilClose
  split <;> rfl

/-- One answer that announces the end is right for the first request just if that asks to close. -/
theorem keepsAlive_last_iff {q : Message M lexical_cast} {qs : List (Message M lexical_cast)}
    {r : HttpRequest} {rsp : HttpResponse} (hrsp : rsp.m_close = true) :
    KeepsAlive (q :: qs) [⟨r, rsp, false⟩] ↔ r = q.request ∧ q.request.asksClose = true := by
  constructor
  · intro h
    have hreq : r = q.request :=
      Option.some.inj ((congrArg List.head? h.requests).trans (head_untilClose q qs))
    have hkept := h.kept _ (List.mem_singleton_self _)
    rw [hreq] at hkept
    exact ⟨hreq, by simpa using hkept⟩
  · rintro ⟨rfl, hclose⟩
    refine ⟨?_, fun e he => ?_, fun e he => ?_⟩
    · unfold untilClose
      rw [if_pos hclose]
      rfl
    · rw [List.mem_singleton.mp he, hclose]
      rfl
    · rw [List.mem_singleton.mp he, hrsp]
      rfl

/-- On a server with keep-alive the requests that come in as `cs` are answered as they should be
exactly if there are none, or if the first one is returned and asks to close. -/
theorem keepsAlive_iff (hplain : ∀ uri, (server.m_dispatch.getMatchedServlet fnmatch uri).Plain)
    (qs : List (Message M lexical_cast)) (hfit : Fit buff_size cs)
    (hstream : cs.flatten = Message.stream qs) :
    KeepsAlive qs (handleClient M lexical_cast buff_size fnmatch server ⟨cs, false⟩).1 ↔
      ∀ q ∈ qs.head?, q.Received buff_size cs ∧ q.request.asksClose = true := by
  cases qs with
  | nil =>
    have hright : KeepsAlive ([] : List (Message M lexical_cast)) [] :=
      ⟨rfl, fun _ he => absurd he List.not_mem_nil, fun _ he => absurd he List.not_mem_nil⟩
    rw [handleClient_nil hfit hstream]
    exact iff_of_true hright fun _ hq => by cases hq
  | cons q qs =>
    have hbytes : cs.flatten = q.bytes ++ Message.stream qs := hstream
    simp only [List.head?_cons, Option.mem_def, Option.some.injEq, forall_eq']
    unfold handleClient
    by_cases hsome : ∃ r,
        (HttpSession.recvRequest M lexical_cast buff_size ⟨cs, false⟩).1 = .request r
    · obtain ⟨r, hr⟩ := hsome
      obtain ⟨rsp, hrsp, hanswer⟩ := answer_of_request _ hplain
        (recvRequest_close hfit hbytes hr) hr
      rw [hanswer, keepsAlive_last_iff hrsp]
      refine and_congr_left fun _ => ⟨?_, fun hreceived => ?_⟩
      · rintro rfl
        exact Message.received_of_recvRequest hfit hbytes hr
      · have hq := congrArg Prod.fst (Message.recvRequest_of_received hfit hbytes hreceived)
        exact Outcome.request.inj (hr.symm.trans hq)
    · rw [answer_of_not_request _ (not_exists.mp hsome)]
      refine iff_of_false (fun h => ?_) fun ⟨hreceived, _⟩ => ?_
      · exact absurd ((congrArg List.head? h.requests).trans (head_untilClose q qs)) (by simp)
      · exact hsome ⟨_, congrArg Prod.fst (Message.recvRequest_of_received hfit hbytes hreceived)⟩

end

/-- A server with keep-alive whose only servlet does nothing. -/
def idle : HttpServer := ⟨true, .new fun req rsp session => (req, rsp, session)⟩

theorem plain_idle (fnmatch : Bytes → Bytes → Bool) (uri : Bytes) :
    Servlet.Plain (idle.m_dispatch.getMatchedServlet fnmatch uri) :=
  fun _ _ _ => ⟨rfl, rfl, rfl⟩

theorem fit_get : Fit 4096 [ascii "GET / HTTP/1.1\r\n\r\n"] := by
  intro c hc
  rw [List.mem_singleton.mp hc]
  decide

/-- A request that asks to close. -/
def closing : Message http_parser_machine fun _ => none where
  header := ascii "GET / HTTP/1.1\r\nConnection: close\r\n\r\n"
  body := []
  data := { m_headers := [(ascii "Connection", ascii "close")] }
  done := by decide
  stop := by decide
  read := by decide
  framed := rfl

theorem keepsAlive_iff_closing :
    KeepsAlive [closing] (handleClient http_parser_machine (fun _ => none) 4096 (fun _ _ => false)
      idle ⟨[closing.header], false⟩).1 := by
  have hfit : Fit 4096 [closing.header] := by
    unfold Fit
    decide
  refine (keepsAlive_iff (plain_idle _) [closing] hfit (by decide)).mpr fun q hq => ?_
  cases hq
  exact ⟨⟨by decide, by decide, by decide, by decide⟩, by decide⟩

/-- A request that does not ask for it is answered with `connection: close`. -/
theorem not_keepsAlive :
    ¬∀ (server : HttpServer) (fnmatch : Bytes → Bytes → Bool)
      (qs : List (Message http_parser_machine fun _ => none)) (cs : List Bytes),
      server.m_isKeepalive = true →
      (∀ uri, (server.m_dispatch.getMatchedServlet fnmatch uri).Plain) → Fit 4096 cs →
      cs.flatten = Message.stream qs →
      KeepsAlive qs
        (handleClient http_parser_machine (fun _ => none) 4096 fnmatch server ⟨cs, false⟩).1 := by
  intro h
  have hget := h idle (fun _ _ => false) [Message.get _] _ rfl (plain_idle _) fit_get (by decide)
  have hkept := hget.kept ⟨(Message.get fun _ => none).request, {}, false⟩ (by decide +kernel)
  exact absurd hkept (by decide)

end HttpServer

end Captain.Http
