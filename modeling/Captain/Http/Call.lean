import Captain.Http.Dump
import Captain.Http.Exchange
import Captain.Stream

/-!
# A request and its answer

A client prints a request, the server reads it, hands it to the servlet of its path and prints the
response, and the client reads that.

* `receiveUntil_call`: the client reads just what the servlet has made of its request, or nothing
  where the response has been cut short.
-/

namespace Captain.Http

open Grammar
open Segments
open HttpRequestParser

variable {uri_relaxed : Bool} {M : Machine} {lexical_cast : Bytes → Option UInt64} {buff_size : Nat}
  {r : HttpRequest}

theorem MapType.find_append (m m' : MapType) (key : Bytes) :
    find (m ++ m') key = (find m key).or (find m' key) := by
  unfold find
  rw [List.find?_append, Option.map_or]

namespace HttpRequest

/-- What the server makes of a request that is printed. -/
def received (r : HttpRequest) : HttpRequest := { r.parsed {} with m_body := r.m_body }

/-- The request that is received is the one that was sent, with the fields that `dump` adds; but for
the flag, which is that of the constructor. -/
structure Reaches (r q : HttpRequest) : Prop where
  method : q.m_method = r.m_method
  version : q.m_version = r.m_version
  close : q.m_close = true
  path : q.m_path = r.m_path
  query : q.m_query = r.m_query
  fragment : q.m_fragment = r.m_fragment
  body : q.m_body = r.m_body
  headers : q.m_headers.Perm
    ((ascii "connection", r.connection) :: r.m_headers ++ r.lengthHeader)

theorem reaches_received (hr : r.WellFormed uri_relaxed) : r.Reaches r.received := by
  have hempty : ∀ w : Bytes, (if w = [] then [] else w) = w := by
    intro w
    split
    · next h => exact h.symm
    · rfl
  exact ⟨rfl, rfl, rfl, rfl, hempty _, hempty _, rfl, headers_perm hr⟩

/-! ## The length of the body -/

theorem different_of_apart {key key' : Bytes} (h : Apart key key') :
    strcasecmpEq key key' = false := by
  rcases h with hless | hless
  · exact HttpResponse.different_of_less hless
  · refine Bool.eq_false_iff.mpr fun hsame => ?_
    have hfalse := HttpResponse.different_of_less hless
    rw [MapType.strcasecmpEq_iff.mpr (MapType.strcasecmpEq_iff.mp hsame).symm] at hfalse
    cases hfalse

theorem find_received (hr : r.WellFormed uri_relaxed) (key : Bytes) :
    MapType.find (r.parsed {}).m_headers key =
      MapType.find ((ascii "connection", r.connection) :: r.m_headers ++ r.lengthHeader) key := by
  have hfind := MapType.find_foldl_assign
    ((names_apart hr).imp fun happart => different_of_apart happart) [] key
  rw [← values_printed hr, List.foldl_map] at hfind
  refine hfind.trans ?_
  rw [values_printed hr]
  exact Option.or_none

theorem contentLength_received (hcast : ∀ n < 2 ^ 64, lexical_cast (decimal n) = some (.ofNat n))
    (hr : r.WellFormed uri_relaxed) (hshort : r.m_body.length < 2 ^ 31) :
    (r.parsed {}).contentLength lexical_cast = r.m_body.length := by
  have hheaders : MapType.find r.m_headers (ascii "content-length") = none := by
    rw [MapType.find, Option.map_eq_none_iff, List.find?_eq_none]
    rintro ⟨k, v⟩ hkv hsame
    dsimp only at hsame
    rw [MapType.equivalent_iff, (hr.others _ hkv).2] at hsame
    cases hsame
  have hlength : MapType.find (r.parsed {}).m_headers (ascii "content-length") =
      if r.m_body = [] then none else some (decimal r.m_body.length) := by
    have hother : strcasecmpEq (ascii "connection") (ascii "content-length") = false := by
      decide
    have hself : strcasecmpEq (ascii "content-length") (ascii "content-length") = true := by
      decide
    rw [find_received hr, List.cons_append, MapType.find_cons, hother,
      if_neg Bool.false_ne_true, lengthHeader]
    split
    · rw [List.append_nil, hheaders]
    · rw [MapType.find_append, hheaders, Option.none_or, MapType.find_cons, if_pos hself]
  unfold contentLength getHeaderAs
  rw [hlength]
  by_cases hbody : r.m_body = []
  · rw [if_pos hbody, hbody]
    rfl
  · rw [if_neg hbody]
    dsimp only
    have htoNat : (UInt64.ofNat r.m_body.length).toNat = r.m_body.length :=
      UInt64.toNat_ofNat_of_lt' (by
        show _ < 2 ^ 64
        omega)
    rw [hcast _ (by omega), Option.getD_some, Message.toInt_of_lt (by omega), htoNat]

end HttpRequest

/-! ## The request is read -/

namespace HttpRequestParser

/-- Behind the request comes what has been read of its body, which is left. -/
theorem execute_lines (c : Contained uri_relaxed M) (hr : r.WellFormed uri_relaxed)
    (hne : r.m_method ≠ .MSEARCH) (rest : Bytes) :
    ∃ m_httpParser, (HttpRequestParser.new M).execute (r.lines ++ 13 :: 10 :: rest) =
        some (r.lines.length + 2, rest, ⟨m_httpParser, modify r.parsed {}⟩) ∧
      m_httpParser.cs = some (c.state 348) := by
  obtain ⟨parser, hexec, -⟩ := @Takes.lines _ _ c _ hr hne [] (13 :: 10 :: rest)
    (.init M) {} trivial
  obtain ⟨hscan, -⟩ := Loop.scan_exec hexec (13 :: 10 :: rest)
  dsimp only at hscan
  rw [scan_empty_line, List.nil_append, c.start] at hscan
  have hdrop : (r.lines ++ 13 :: 10 :: rest).drop (r.lines.length + 2) = rest := by
    rw [← List.drop_drop, List.drop_left]
    rfl
  refine ⟨{ parser with field_start := r.lines.length, cs := c.state 348 }, ?_, rfl⟩
  rw [execute_new (by simp)]
  refine (congrArg _ hscan).trans ?_
  rw [Option.map_some, hdrop]

end HttpRequestParser

namespace HttpRequest

variable {cs : List Bytes}

/-- The request comes in the parts `cs`, the first of which has its header. -/
structure Comes (r : HttpRequest) (buff_size : Nat) (cs : List Bytes) : Prop where
  fit : Fit buff_size cs
  stream : cs.flatten = r.dump
  header : ∀ c ∈ cs.head?, r.lines.length + 2 ≤ c.length

theorem skip_all {n : Nat} (h : cs.flatten.length ≤ n) : skip n cs = [] := by
  induction cs generalizing n with
  | nil => rfl
  | cons c cs ih =>
    rw [List.flatten_cons, List.length_append] at h
    unfold skip
    rw [if_pos (by omega), ih (by omega)]

/-- **Requests.** A request that is printed is received, however its body is cut. -/
theorem recvRequest_dump (hcast : ∀ n < 2 ^ 64, lexical_cast (decimal n) = some (.ofNat n))
    (c : Contained uri_relaxed M) (hr : r.WellFormed uri_relaxed) (hne : r.m_method ≠ .MSEARCH)
    (hbuff : buff_size < 2 ^ 31) (hshort : r.m_body.length < 2 ^ 31)
    (hcs : r.Comes buff_size cs) :
    HttpSession.recvRequest M lexical_cast buff_size ⟨cs, false⟩ =
      (.request r.received, ⟨[], false⟩) := by
  obtain ⟨hfit, hstream, hheader⟩ := hcs
  rw [dump_eq hr] at hstream
  cases cs with
  | nil => simp at hstream
  | cons first cs =>
    have hle := hheader first rfl
    rw [List.flatten_cons] at hstream
    -- The first part ends within the body.
    obtain ⟨data, hfirst, hbody⟩ : ∃ data, first = r.lines ++ 13 :: 10 :: data ∧
        data ++ cs.flatten = r.m_body := by
      have hsplit : first ++ cs.flatten = (r.lines ++ [13, 10]) ++ r.m_body := by
        rw [hstream, List.append_assoc]
        rfl
      rcases List.append_eq_append_iff.mp hsplit with ⟨as, has, htail⟩ | ⟨data, hfirst, hbody⟩
      · have hlength := congrArg List.length has
        simp only [List.length_append, List.length_cons, List.length_nil] at hlength
        have hnil : as = [] := List.length_eq_zero_iff.mp (by omega)
        refine ⟨[], ?_, ?_⟩
        · rw [hnil, List.append_nil] at has
          rw [← has]
        · rw [htail, hnil, List.nil_append, List.nil_append]
      · exact ⟨data, by rw [hfirst, List.append_assoc]; rfl, hbody.symm⟩
    obtain ⟨m_httpParser, hexec, hstate⟩ := execute_lines c hr hne data
    have hlf : transition uri_relaxed 18 10 = some ⟨[], true, 348⟩ := by
      cases uri_relaxed <;> rfl
    have hfinal : M.final (c.state 348) = true := M.target_final (c.step hlf)
    have herror : ¬(⟨m_httpParser, modify r.parsed {}⟩ : HttpRequestParser M).hasError = true :=
      fun herror => (HttpSession.hasError_iff hstate).mp herror rfl
    have hfinished := (@HttpSession.isFinished_iff M
      ⟨m_httpParser, modify r.parsed {}⟩ _ hstate).mpr hfinal
    have hroom : ¬(data.length : Int) = toInt buff_size := by
      have hmost := (hfit first List.mem_cons_self).2
      rw [hfirst, List.length_append, List.length_cons, List.length_cons] at hmost
      rw [toInt_eq hbuff]
      omega
    have hparse : HttpSession.parse M buff_size ((⟨first :: cs, false⟩ : SocketStream).bytes.length
        + 1) ⟨first :: cs, false⟩ [] (.new M) =
          (some (some (⟨m_httpParser, modify r.parsed {}⟩, data)), ⟨cs, false⟩) := by
      rw [HttpSession.parse_turn _ hfit, hfirst, hexec]
      dsimp only
      rw [if_neg herror, if_neg hroom, if_pos hfinished]
    have hspec := @HttpSession.receiveBody_spec M lexical_cast cs
      (fun c hc => (hfit c (List.mem_cons_of_mem _ hc)).1) ⟨m_httpParser, modify r.parsed {}⟩
      (r.parsed {}) rfl rfl data r.m_body.length
      (by rw [contentLength_received hcast hr hshort, Int.toNat_natCast])
    have hlength := congrArg List.length hbody
    rw [List.length_append] at hlength
    rw [if_pos, hbody] at hspec
    · refine (HttpSession.recvRequest_of_parse lexical_cast hparse).trans (hspec.trans ?_)
      rw [HttpRequest.withBody, contentLength_received hcast hr hshort, Int.toNat_natCast,
        List.take_length, skip_all (by omega)]
      rfl
    · by_cases hdata : r.m_body.length ≤ data.length
      · exact .inl hdata
      · refine .inr ⟨by rw [hbody], ?_⟩
        rw [toInt_eq (by omega)]
        omega

end HttpRequest

/-- What a servlet makes of a request when nothing is left to read. -/
def Servlet.response (servlet : Servlet) (req : HttpRequest) : HttpResponse :=
  (servlet req { m_version := req.m_version, m_close := true } ⟨[], false⟩).2.1

namespace HttpServer

variable {fnmatch : Bytes → Bytes → Bool} {server : HttpServer} {cs : List Bytes}

/-- The one answer to a request that is printed. -/
theorem serve_dump (hcast : ∀ n < 2 ^ 64, lexical_cast (decimal n) = some (.ofNat n))
    (c : Contained uri_relaxed M) (hr : r.WellFormed uri_relaxed) (hne : r.m_method ≠ .MSEARCH)
    (hbuff : buff_size < 2 ^ 31) (hshort : r.m_body.length < 2 ^ 31)
    (hcs : r.Comes buff_size cs)
    (hplain : ∀ uri, (server.m_dispatch.getMatchedServlet fnmatch uri).Plain) (w : Outgoing)
    {rsp : HttpResponse}
    (hrsp : rsp = (server.m_dispatch.getMatchedServlet fnmatch r.m_path).response r.received) :
    serve M lexical_cast buff_size fnmatch server ⟨cs, false⟩ w =
      ([⟨r.received, rsp, false⟩], ⟨[], true⟩, (HttpSession.sendResponse false rsp w).2) := by
  obtain ⟨hreq, -, hsession⟩ := hplain r.m_path r.received
    { m_version := r.m_version, m_close := true } ⟨[], false⟩
  have hhandle : server.m_dispatch.handle fnmatch r.received
      { m_version := r.received.m_version, m_close := r.received.m_close || !server.m_isKeepalive }
      ⟨[], false⟩ = server.m_dispatch.getMatchedServlet fnmatch r.m_path r.received
        { m_version := r.m_version, m_close := true } ⟨[], false⟩ := rfl
  rw [serve, serveLoop, HttpRequest.recvRequest_dump hcast c hr hne hbuff hshort hcs]
  dsimp only
  rw [hhandle, hsession, hreq, hrsp]
  have hclose : r.received.m_close = true := rfl
  rw [hclose, Bool.or_true, if_pos rfl]
  rfl

/-- **Call.** The server reads the request and answers it once, with `connection: close`, whatever
the request asks for. The client reads what the servlet of the path has made of it, or nothing if
`sendResponse` has failed. -/
theorem receiveUntil_call (hcast : ∀ n < 2 ^ 64, lexical_cast (decimal n) = some (.ofNat n))
    (c : Contained uri_relaxed M) (hr : r.WellFormed uri_relaxed) (hne : r.m_method ≠ .MSEARCH)
    (hbuff : buff_size < 2 ^ 31) (hshort : r.m_body.length < 2 ^ 31)
    (hcs : r.Comes buff_size cs)
    (hplain : ∀ uri, (server.m_dispatch.getMatchedServlet fnmatch uri).Plain)
    (hdeliver : ∀ q, r.Reaches q → Deliverable lexical_cast
      ((server.m_dispatch.getMatchedServlet fnmatch r.m_path).response q))
    (sends : List Int32) :
    ∃ q rsp, r.Reaches q ∧
      rsp = (server.m_dispatch.getMatchedServlet fnmatch r.m_path).response q ∧
      rsp.m_close = true ∧
      serve M lexical_cast buff_size fnmatch server ⟨cs, false⟩ ⟨sends, []⟩ =
        ([⟨q, rsp, false⟩], ⟨[], true⟩, (HttpSession.sendResponse false rsp ⟨sends, []⟩).2) ∧
      ∃ whole part rs, Sent [rsp] whole part ∧
        (HttpSession.sendResponse false rsp ⟨sends, []⟩).2.sent =
          (whole.map HttpResponse.dump).flatten ++ part ∧
        Client.receiveUntil lexical_cast
          (HttpSession.sendResponse false rsp ⟨sends, []⟩).2.sent = (rs, part) ∧
        List.Forall₂ HttpResponse.Arrives whole rs ∧
        (rs = [] ↔ (HttpSession.sendResponse false rsp ⟨sends, []⟩).1 ≤ 0) := by
  have hreaches := HttpRequest.reaches_received hr
  obtain ⟨rsp, hrsp⟩ : ∃ rsp, rsp =
      (server.m_dispatch.getMatchedServlet fnmatch r.m_path).response r.received := ⟨_, rfl⟩
  have hclose : rsp.m_close = true := by
    rw [hrsp]
    exact (hplain r.m_path r.received _ _).2.1
  have hok : Deliverable lexical_cast rsp := hrsp ▸ hdeliver _ hreaches
  refine ⟨r.received, rsp, hreaches, hrsp, hclose,
    serve_dump hcast c hr hne hbuff hshort hcs hplain _ hrsp, ?_⟩
  obtain ⟨⟨rt, w⟩, hsend⟩ : ∃ x, HttpSession.sendResponse false rsp ⟨sends, []⟩ = x := ⟨_, rfl⟩
  rw [hsend]
  dsimp only
  obtain ⟨whole, part, hsent, hbytes, hrt⟩ : ∃ whole part, Sent [rsp] whole part ∧
      w.sent = (whole.map HttpResponse.dump).flatten ++ part ∧ (whole = [] ↔ rt ≤ 0) := by
    rcases HttpSession.sendResponse_spec hsend with
      ⟨hrt, hall, -⟩ | ⟨hrt, ⟨part, hpart, hprefix, hstrict⟩, -⟩
    · have hpos : 0 < rsp.dump.length := List.length_pos_iff.mpr rsp.dump_ne_nil
      have hshort := hok.short
      have htoNat : (UInt64.ofNat rsp.dump.length).toNat = rsp.dump.length :=
        UInt64.toNat_ofNat_of_lt' (by
          show _ < 2 ^ 64
          omega)
      refine ⟨[rsp], [], .whole _ .done, by simpa using hall,
        iff_of_false (List.cons_ne_nil _ _) ?_⟩
      rw [hrt, Int32.not_le, Stream.toInt32_length_pos, htoNat]
      omega
    · exact ⟨[], part, .cut hprefix hstrict, hpart, iff_of_true rfl hrt⟩
  have hlen : ((whole.map HttpResponse.dump).flatten ++ part).length < 2 ^ 31 := by
    cases hsent with
    | cut hprefix _ =>
      have hle := hprefix.length_le
      have hshort := hok.short
      simp only [List.map_nil, List.flatten_nil, List.nil_append]
      omega
    | whole _ hrest =>
      cases hrest
      simpa using hok.short
  obtain ⟨rs, hloop, harrive⟩ := Client.receiveLoop_sent hcast hsent
    (fun r hr => List.mem_singleton.mp hr ▸ hok)
    (Nat.lt_succ_of_le (Nat.le_trans (length_le_flatten whole)
      (List.prefix_append _ part).length_le)) hlen
  refine ⟨whole, part, rs, hsent, hbytes, ?_, harrive, ?_⟩
  · rw [hbytes]
    exact hloop
  · rw [← hrt, ← List.length_eq_zero_iff, ← List.length_eq_zero_iff, harrive.length_eq]

theorem comes_post : post.Comes 4096 [post.dump.dropLast, ascii "i"] where
  fit := by
    simp only [Fit, List.forall_mem_cons, List.not_mem_nil, false_implies, implies_true, and_true]
    decide
  stream := by decide
  header := by
    intro c hc
    cases hc
    decide

/-- The last byte of the body comes by itself, and the response goes in two parts. -/
theorem receiveUntil_call_post : ∃ q rsp, post.Reaches q ∧
    rsp = (idle.m_dispatch.getMatchedServlet (fun _ _ => false) post.m_path).response
      q ∧
    rsp.m_close = true ∧
    serve (machine false) HttpResponse.castDecimal 4096 (fun _ _ => false) idle
        ⟨[post.dump.dropLast, ascii "i"], false⟩ ⟨[5, 100], []⟩ =
      ([⟨q, rsp, false⟩], ⟨[], true⟩, (HttpSession.sendResponse false rsp ⟨[5, 100], []⟩).2) ∧
    ∃ whole part rs, Sent [rsp] whole part ∧
      (HttpSession.sendResponse false rsp ⟨[5, 100], []⟩).2.sent =
        (whole.map HttpResponse.dump).flatten ++ part ∧
      Client.receiveUntil HttpResponse.castDecimal
        (HttpSession.sendResponse false rsp ⟨[5, 100], []⟩).2.sent = (rs, part) ∧
      List.Forall₂ HttpResponse.Arrives whole rs ∧
      (rs = [] ↔ (HttpSession.sendResponse false rsp ⟨[5, 100], []⟩).1 ≤ 0) := by
  refine receiveUntil_call HttpResponse.castDecimal_decimal (contained false)
    (wellFormed_post false) (by decide) (by decide) (by decide) comes_post
    (plain_idle _) ?_ [5, 100]
  intro q hq
  have hrsp : (idle.m_dispatch.getMatchedServlet (fun _ _ => false)
      post.m_path).response q = { m_version := q.m_version, m_close := true } := rfl
  rw [hrsp, hq.version]
  exact ⟨⟨by decide, by decide +kernel, by decide, by decide, by decide⟩, by decide,
    by decide⟩

end HttpServer

end Captain.Http
