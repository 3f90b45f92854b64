import Captain.Http.ClientDump
import Captain.Http.ClientSplit
import Captain.Http.Server
import Captain.Stream

/-!
# What a connection brings to the client

`handleClient` prints each response and hands it to `Stream::writeFixSize`, which repeats `write`
until all of it has been taken or until one fails; what it returns is not looked at. `Outgoing` is
the way out of the connection, `serve` the loop with what it sends.

* `writeFixSize_eq`: the loop of a connection is that of `Stream::writeFixSize`.
* `serve_eq`: what can be sent has no part in what is read and answered.
* `sends_serve`: the bytes that have been sent are those of the first responses, and of the next one
  a part.
* `receiveUntil_serve`: a client reads exactly the responses that have been sent whole.
-/

namespace Captain.Http

open Client

/-- The way out of a connection: what the calls of `send` return as far as there is something to
take, and the bytes that have been taken. -/
structure Outgoing where
  sends : List Int32
  sent : Bytes := []
  deriving DecidableEq, Repr

namespace Outgoing

/-- `SocketStream::write`; where no result is left the connection is gone. -/
def write (closed : Bool) (w : Outgoing) (buffer : Bytes) : Int32 × Outgoing :=
  if closed then (-1, w)
  else
    match w.sends with
    | [] => (-1, w)
    | len :: sends =>
      if len ≤ 0 then (len, { w with sends })
      else
        let n := min len.toInt.toNat buffer.length
        (.ofNat n, ⟨sends, w.sent ++ buffer.take n⟩)

/-- The loop of `Stream::writeFixSize`: the result that has ended it before all was taken. -/
def writeLoop (closed : Bool) : Nat → Outgoing → Bytes → Option Int32 × Outgoing
  | 0, w, _ => (none, w)
  | turns + 1, w, buffer =>
    if buffer.length = 0 then (none, w)
    else
      let (len, w) := w.write closed buffer
      if len ≤ 0 then (some len, w)
      else writeLoop closed turns w (buffer.drop len.toInt.toNat)

/-- `Stream::writeFixSize`; every turn takes a byte at least. -/
def writeFixSize (closed : Bool) (w : Outgoing) (buffer : Bytes) : Int32 × Outgoing :=
  match writeLoop closed (buffer.length + 1) w buffer with
  | (some len, w) => (len, w)
  | (none, w) => ((UInt64.ofNat buffer.length).toUInt32.toInt32, w)

end Outgoing

/-- `HttpSession::sendResponse`. -/
def HttpSession.sendResponse (closed : Bool) (rsp : HttpResponse) (w : Outgoing) :
    Int32 × Outgoing :=
  w.writeFixSize closed rsp.dump

namespace HttpServer

section

variable (M : Machine) (lexical_cast : Bytes → Option UInt64) (buff_size : Nat)
  (fnmatch : Bytes → Bytes → Bool) (server : HttpServer)

/-- The loop of `handleClient`, with the responses that it sends. -/
def serveLoop : Nat → SocketStream → Outgoing → List Answer × SocketStream × Outgoing
  | 0, session, w => ([], session.close, w)
  | turns + 1, session, w =>
    match HttpSession.recvRequest M lexical_cast buff_size session with
    | (.request req, session) =>
      let rsp : HttpResponse :=
        { m_version := req.m_version, m_close := req.m_close || !server.m_isKeepalive }
      let (req', rsp, session) := server.m_dispatch.handle fnmatch req rsp session
      let (_, w) := HttpSession.sendResponse session.closed rsp w
      if !server.m_isKeepalive || req'.m_close then ([⟨req, rsp, false⟩], session.close, w)
      else
        let (answers, session, w) := serveLoop turns session w
        (⟨req, rsp, true⟩ :: answers, session, w)
    | (_, session) => ([], session.close, w)

/-- `handleClient` on a connection. -/
def serve (session : SocketStream) (w : Outgoing) : List Answer × SocketStream × Outgoing :=
  serveLoop M lexical_cast buff_size fnmatch server (session.bytes.length + 1) session w

end

end HttpServer

/-- A client that takes responses as long as one comes out whole. -/
def Client.receiveLoop (lexical_cast : Bytes → Option UInt64) :
    Nat → Bytes → List HttpResponse × Bytes
  | 0, data => ([], data)
  | turns + 1, data =>
    match Client.receive lexical_cast data with
    | none => ([], data)
    | some (r, rest) =>
      let (rs, rest) := receiveLoop lexical_cast turns rest
      (r :: rs, rest)

def Client.receiveUntil (lexical_cast : Bytes → Option UInt64) (data : Bytes) :
    List HttpResponse × Bytes :=
  receiveLoop lexical_cast (data.length + 1) data

/-! ## What is sent of one response -/

namespace Outgoing

variable {closed : Bool} {w w' : Outgoing} {buffer : Bytes} {len : Int32}

/-- Once a result fails all fail, as on a connection that is gone. -/
def Breaks (w : Outgoing) : Prop := w.sends.Pairwise fun len len' => len ≤ 0 → len' ≤ 0

/-- Nothing more can be sent. -/
def Gone (w : Outgoing) : Prop := ∀ len ∈ w.sends, len ≤ 0

/-- What `send` takes is no more than there is. -/
theorem taken_spec {n : Int32} (hn : ¬n ≤ 0) (hne : buffer ≠ []) :
    (Int32.ofNat (min n.toInt.toNat buffer.length)).toInt.toNat =
        min n.toInt.toNat buffer.length ∧
      0 < min n.toInt.toNat buffer.length ∧
      ¬Int32.ofNat (min n.toInt.toNat buffer.length) ≤ 0 := by
  have hpositive : 0 < n.toInt := Int32.lt_iff_toInt_lt.mp (Int32.not_le.mp hn)
  have hlength : 0 < buffer.length := List.length_pos_iff.mpr hne
  have hlt : n.toInt < 2 ^ 31 := Int32.toInt_lt n
  have hint : (Int32.ofNat (min n.toInt.toNat buffer.length)).toInt =
      (min n.toInt.toNat buffer.length : Nat) := Int32.toInt_ofNat_of_lt (by omega)
  have hzero : (0 : Int32).toInt = 0 := rfl
  rw [Int32.le_iff_toInt_le, hint, hzero, Int.toNat_natCast]
  omega

/-- **Step.** A positive result is the number of bytes taken, and any other has taken none. -/
theorem write_spec (h : w.write closed buffer = (len, w')) (hne : buffer ≠ []) :
    (¬len ≤ 0 ∧ 0 < len.toInt.toNat ∧ len.toInt.toNat ≤ buffer.length ∧
      w'.sent = w.sent ++ buffer.take len.toInt.toNat ∧ (w.Breaks → w'.Breaks)) ∨
    (len ≤ 0 ∧ w'.sent = w.sent ∧ (w.Breaks → closed = false → w'.Gone)) := by
  unfold write at h
  split at h
  · next hclosed =>
    cases h
    exact .inr ⟨by decide, rfl, fun _ hopen => absurd hopen (by rw [hclosed]; decide)⟩
  · split at h
    · next hsends =>
      cases h
      exact .inr ⟨by decide, rfl, fun _ _ n hn => absurd (hsends ▸ hn) List.not_mem_nil⟩
    · next n sends hsends =>
      have hpairwise : w.Breaks → (∀ m ∈ sends, n ≤ 0 → m ≤ 0) ∧ sends.Pairwise
          fun len len' => len ≤ 0 → len' ≤ 0 := by
        unfold Breaks
        rw [hsends]
        exact List.pairwise_cons.mp
      split at h
      · next hn =>
        cases h
        exact .inr ⟨hn, rfl, fun hbreaks _ m hm => (hpairwise hbreaks).1 m hm hn⟩
      · next hn =>
        cases h
        obtain ⟨hint, hpos, hok⟩ := taken_spec hn hne
        rw [hint]
        exact .inl ⟨hok, hpos, Nat.min_le_right _ _, rfl, fun hbreaks => (hpairwise hbreaks).2⟩

/-- `write` of what is left, as `Stream::writeFixSize` calls it. -/
def writeNext (closed : Bool) (_ : Unit) (_ : Nat) :
    Outgoing × Bytes → Except Unit (Int32 × Outgoing × Bytes)
  | (w, buffer) =>
    let (len, w) := w.write closed buffer
    .ok (len, w, buffer.drop len.toInt.toNat)

/-- The loop is that of `Stream::writeFixSize`. -/
theorem writeLoop_eq (length : UInt64) {turns : Nat} (hturns : buffer.length < turns)
    (w : Outgoing) : ∃ rest,
      Stream.repeatCalls (writeNext closed) length (.replicate turns ()) buffer.length (w, buffer) =
        .ok (some ((writeLoop closed turns w buffer).1.getD length.toUInt32.toInt32),
          (writeLoop closed turns w buffer).2, rest) := by
  induction turns generalizing w buffer with
  | zero => cases hturns
  | succ turns ih =>
    rw [List.replicate_succ, Stream.repeatCalls, writeLoop]
    by_cases hnil : buffer = []
    · subst hnil
      exact ⟨[], rfl⟩
    · have hpos : 0 < buffer.length := List.length_pos_iff.mpr hnil
      rw [if_pos (by omega), if_neg (by omega), Int.toNat_natCast]
      obtain ⟨⟨len, w₁⟩, hwrite⟩ : ∃ r, w.write closed buffer = r := ⟨_, rfl⟩
      have hcall : writeNext closed () buffer.length (w, buffer) =
          .ok (len, w₁, buffer.drop len.toInt.toNat) := by
        unfold writeNext
        dsimp only
        rw [hwrite]
      rw [hcall, hwrite]
      simp only [bind, Except.bind]
      by_cases hlen : len ≤ 0
      · rw [if_pos hlen, if_pos hlen]
        exact ⟨_, rfl⟩
      · obtain ⟨-, htaken, hle, -⟩ := (write_spec hwrite hnil).resolve_right fun h => hlen h.1
        obtain ⟨rest, hrest⟩ := @ih (buffer.drop len.toInt.toNat) (by
          rw [List.length_drop]
          omega) w₁
        have hleft : ((buffer.drop len.toInt.toNat).length : Int) = buffer.length - len.toInt := by
          rw [List.length_drop]
          omega
        rw [if_neg hlen, if_neg hlen, ← hleft]
        exact ⟨rest, hrest⟩

/-- What `Stream::writeFixSize` makes of a connection. -/
theorem writeFixSize_eq (hlt : buffer.length < 2 ^ 63) (w : Outgoing) : ∃ rest,
    Stream.repeatCalls (writeNext closed) (.ofNat buffer.length)
        (.replicate (buffer.length + 1) ()) (UInt64.ofNat buffer.length).toInt64.toInt (w, buffer) =
      .ok (some (w.writeFixSize closed buffer).1, (w.writeFixSize closed buffer).2, rest) := by
  have htoNat : (UInt64.ofNat buffer.length).toNat = buffer.length :=
    UInt64.toNat_ofNat_of_lt' (by
      show _ < 2 ^ 64
      omega)
  obtain ⟨rest, hrest⟩ := @writeLoop_eq closed buffer (.ofNat buffer.length) _
    (Nat.lt_succ_self buffer.length) w
  refine ⟨rest, ?_⟩
  rw [Stream.toInt_length, htoNat, if_pos hlt, hrest]
  unfold writeFixSize
  cases hloop : writeLoop closed (buffer.length + 1) w buffer with
  | mk result w' => cases result <;> rfl

/-- **Run.** Either all is taken, or a part that is shorter. -/
theorem writeLoop_spec {turns : Nat} (hturns : buffer.length < turns) (w : Outgoing)
    {result : Option Int32} (h : writeLoop closed turns w buffer = (result, w')) :
    (result = none ∧ w'.sent = w.sent ++ buffer ∧ (w.Breaks → w'.Breaks)) ∨
    (result.any (· ≤ 0) = true ∧ (∃ part, w'.sent = w.sent ++ part ∧ part <+: buffer ∧
      part ≠ buffer) ∧ (w.Breaks → closed = false → w'.Gone)) := by
  induction turns generalizing w buffer with
  | zero => cases hturns
  | succ turns ih =>
    rw [writeLoop] at h
    by_cases hnil : buffer = []
    · rw [if_pos (by rw [hnil]; rfl)] at h
      cases h
      exact .inl ⟨rfl, by rw [hnil, List.append_nil], id⟩
    · have hlength : buffer.length ≠ 0 := fun h => hnil (List.length_eq_zero_iff.mp h)
      obtain ⟨⟨len, w₁⟩, hwrite⟩ : ∃ x, w.write closed buffer = x := ⟨_, rfl⟩
      rw [if_neg hlength, hwrite] at h
      dsimp only at h
      rcases write_spec hwrite hnil with ⟨hok, hpos, hle, hsent, hbreaks⟩ | ⟨hfail, hsent, hgone⟩
      · rw [if_neg hok] at h
        have htake := List.take_append_drop len.toInt.toNat buffer
        rcases ih (by rw [List.length_drop]; omega) w₁ h with
          ⟨hnone, hall, hkeeps⟩ | ⟨hsome, ⟨part, hpart, hinit, hstrict⟩, hgone⟩
        · refine .inl ⟨hnone, ?_, hkeeps ∘ hbreaks⟩
          rw [hall, hsent, List.append_assoc, htake]
        · refine .inr ⟨hsome, ⟨buffer.take len.toInt.toNat ++ part, ?_, ?_, fun heq => ?_⟩,
            hgone ∘ hbreaks⟩
          · rw [hpart, hsent, List.append_assoc]
          · have happend := (List.prefix_append_right_inj (buffer.take len.toInt.toNat)).mpr hinit
            rwa [htake] at happend
          · exact hstrict (List.append_cancel_left (heq.trans htake.symm))
      · rw [if_pos hfail] at h
        cases h
        refine .inr ⟨decide_eq_true hfail, ⟨[], ?_, List.nil_prefix, Ne.symm hnil⟩, hgone⟩
        rw [hsent, List.append_nil]

theorem Gone.write (h : w.Gone) : (w.write closed buffer).1 ≤ 0 ∧
    (w.write closed buffer).2.sent = w.sent ∧ (w.write closed buffer).2.Gone := by
  have hminus : (-1 : Int32) ≤ 0 := by decide
  unfold Outgoing.write
  split
  · exact ⟨hminus, rfl, h⟩
  · split
    · exact ⟨hminus, rfl, h⟩
    · next len sends hsends =>
      have hall : ∀ n ∈ len :: sends, n ≤ 0 := hsends ▸ h
      rw [if_pos (hall len List.mem_cons_self)]
      exact ⟨hall len List.mem_cons_self, rfl, fun n hn => hall n (List.mem_cons_of_mem _ hn)⟩

theorem Gone.writeLoop (turns : Nat) (h : w.Gone) :
    (w.writeLoop closed turns buffer).2.sent = w.sent ∧
      (w.writeLoop closed turns buffer).2.Gone := by
  cases turns with
  | zero => exact ⟨rfl, h⟩
  | succ turns =>
    obtain ⟨hfail, hsent, hgone⟩ := @Gone.write closed w buffer h
    rw [Outgoing.writeLoop]
    split
    · exact ⟨rfl, h⟩
    · dsimp only
      rw [if_pos hfail]
      exact ⟨hsent, hgone⟩

end Outgoing

namespace HttpSession

variable {closed : Bool} {w w' : Outgoing} {rsp : HttpResponse} {rt : Int32}

theorem sendResponse_spec (h : sendResponse closed rsp w = (rt, w')) :
    (rt = (UInt64.ofNat rsp.dump.length).toUInt32.toInt32 ∧ w'.sent = w.sent ++ rsp.dump ∧
      (w.Breaks → w'.Breaks)) ∨
    (rt ≤ 0 ∧ (∃ part, w'.sent = w.sent ++ part ∧ part <+: rsp.dump ∧ part ≠ rsp.dump) ∧
      (w.Breaks → closed = false → w'.Gone)) := by
  unfold sendResponse Outgoing.writeFixSize at h
  split at h
  · next len w₁ hloop =>
    cases h
    rcases Outgoing.writeLoop_spec (Nat.lt_succ_self _) w hloop with ⟨hnone, -⟩ | ⟨hfail, hcut⟩
    · cases hnone
    · exact .inr ⟨of_decide_eq_true hfail, hcut⟩
  · next w₁ hloop =>
    cases h
    rcases Outgoing.writeLoop_spec (Nat.lt_succ_self _) w hloop with ⟨-, hall⟩ | ⟨hfail, -⟩
    · exact .inl ⟨rfl, hall⟩
    · cases hfail

theorem sendResponse_gone (h : w.Gone) : (sendResponse closed rsp w).2.sent = w.sent ∧
    (sendResponse closed rsp w).2.Gone := by
  have hloop := @Outgoing.Gone.writeLoop closed w rsp.dump (rsp.dump.length + 1) h
  unfold sendResponse Outgoing.writeFixSize
  split <;> next heq => rwa [heq] at hloop

/-- Nothing is read from a session that is closed. -/
theorem recvRequest_closed (M : Machine) (lexical_cast : Bytes → Option UInt64) (buff_size : Nat)
    {session : SocketStream} (h : session.closed = true) :
    recvRequest M lexical_cast buff_size session = (.null, session.close) := by
  have hread : ∀ n, session.read n = ([], session) := fun n => if_pos h
  unfold recvRequest parse
  rw [hread]
  rfl

end HttpSession

/-! ## What is sent on a connection -/

/-- Of the responses `rs` those of `whole` have been sent, and `part` of the one that follows. -/
inductive Sent : List HttpResponse → List HttpResponse → Bytes → Prop
  | done : Sent [] [] []
  | cut {r : HttpResponse} {rs : List HttpResponse} {part : Bytes} (hpart : part <+: r.dump)
      (hstrict : part ≠ r.dump) : Sent (r :: rs) [] part
  | whole {rs whole : List HttpResponse} {part : Bytes} (r : HttpResponse)
      (h : Sent rs whole part) : Sent (r :: rs) (r :: whole) part

namespace HttpServer

variable {M : Machine} {lexical_cast : Bytes → Option UInt64} {buff_size : Nat}
  {fnmatch : Bytes → Bytes → Bool} {server : HttpServer}

/-- The requests are read and answered as if nothing were sent. -/
theorem serveLoop_eq (turns : Nat) (session : SocketStream) (w : Outgoing) :
    ((serveLoop M lexical_cast buff_size fnmatch server turns session w).1,
      (serveLoop M lexical_cast buff_size fnmatch server turns session w).2.1) =
        answer M lexical_cast buff_size fnmatch server turns session := by
  induction turns generalizing session w with
  | zero => rfl
  | succ turns ih =>
    rw [serveLoop, answer]
    generalize HttpSession.recvRequest M lexical_cast buff_size session = received
    obtain ⟨outcome, session⟩ := received
    cases outcome with
    | request req =>
      dsimp only
      split
      · rfl
      · dsimp only
        rw [← ih]
    | null => rfl
    | throws => rfl

theorem serve_eq (session : SocketStream) (w : Outgoing) :
    ((serve M lexical_cast buff_size fnmatch server session w).1,
      (serve M lexical_cast buff_size fnmatch server session w).2.1) =
        handleClient M lexical_cast buff_size fnmatch server session :=
  serveLoop_eq _ session w

theorem serveLoop_closed (turns : Nat) {session : SocketStream} (h : session.closed = true)
    (w : Outgoing) :
    serveLoop M lexical_cast buff_size fnmatch server turns session w =
      ([], session.close, w) ∨
    serveLoop M lexical_cast buff_size fnmatch server turns session w =
      ([], session.close.close, w) := by
  cases turns with
  | zero => exact .inl rfl
  | succ turns =>
    rw [serveLoop, HttpSession.recvRequest_closed M lexical_cast buff_size h]
    exact .inr rfl

theorem serveLoop_gone (turns : Nat) (session : SocketStream) {w : Outgoing} (h : w.Gone) :
    (serveLoop M lexical_cast buff_size fnmatch server turns session w).2.2.sent = w.sent := by
  induction turns generalizing session w with
  | zero => rfl
  | succ turns ih =>
    rw [serveLoop]
    split
    · dsimp only
      split
      · exact (HttpSession.sendResponse_gone h).1
      · dsimp only
        exact (ih _ (HttpSession.sendResponse_gone h).2).trans (HttpSession.sendResponse_gone h).1
    · rfl

/-- **Run.** Of the responses of the answers the first ones have been sent, and a part of the next
one. -/
theorem sends_serveLoop (turns : Nat) (session : SocketStream) {w : Outgoing} (h : w.Breaks) :
    ∃ whole part, Sent ((serveLoop M lexical_cast buff_size fnmatch server turns session
        w).1.map Answer.response) whole part ∧
      (serveLoop M lexical_cast buff_size fnmatch server turns session w).2.2.sent =
        w.sent ++ ((whole.map HttpResponse.dump).flatten ++ part) := by
  induction turns generalizing session w with
  | zero => exact ⟨[], [], .done, (List.append_nil _).symm⟩
  | succ turns ih =>
    rw [serveLoop]
    split
    · next req session₁ hrecv =>
      dsimp only
      generalize server.m_dispatch.handle fnmatch req _ session₁ = handled
      obtain ⟨req', rsp, session₂⟩ := handled
      dsimp only
      obtain ⟨⟨rt, w₁⟩, hsend⟩ : ∃ x, HttpSession.sendResponse session₂.closed rsp w = x :=
        ⟨_, rfl⟩
      rw [hsend]
      dsimp only
      rcases HttpSession.sendResponse_spec hsend with
        ⟨-, hsent, hbreaks⟩ | ⟨-, ⟨part, hsent, hpart, hstrict⟩, hgone⟩
      · split
        · refine ⟨[rsp], [], .whole _ .done, ?_⟩
          simpa using hsent
        · obtain ⟨whole, part, hwhole, hrest⟩ := ih session₂ (hbreaks h)
          refine ⟨rsp :: whole, part, .whole _ hwhole, ?_⟩
          dsimp only
          rw [hrest, hsent, List.map_cons, List.flatten_cons, List.append_assoc, List.append_assoc]
      · refine ⟨[], part, ?_, ?_⟩
        · split <;> exact .cut hpart hstrict
        · have hlast : w₁.sent = w.sent ++ (([].map HttpResponse.dump).flatten ++ part) := hsent
          split
          · exact hlast
          · dsimp only
            cases hclosed : session₂.closed with
            | false => rw [serveLoop_gone turns session₂ (hgone h hclosed), hlast]
            | true =>
              rcases @serveLoop_closed M lexical_cast buff_size fnmatch server turns _ hclosed w₁
                with heq | heq <;> rw [heq, ← hlast]
    · exact ⟨[], [], .done, (List.append_nil _).symm⟩

end HttpServer

/-! ## What comes out -/

section

variable {lexical_cast : Bytes → Option UInt64}

/-- A response that the client can read: its texts are those of a head, and with no body it tells no
length of its own. -/
structure Deliverable (lexical_cast : Bytes → Option UInt64) (r : HttpResponse) : Prop where
  printable : r.Printable
  empty : r.m_body = [] → r.ownLength lexical_cast = 0
  short : r.dump.length < 2 ^ 31

theorem HttpResponseParser.execute_chunck (data : Bytes) (chunck : Bool) :
    new.execute data chunck = new.execute data false := by
  cases chunck <;> rfl

namespace Client

/-- A part of a response is not taken for one. -/
theorem receive_cut (hcast : ∀ n < 2 ^ 64, lexical_cast (decimal n) = some (.ofNat n))
    {r : HttpResponse} (h : Deliverable lexical_cast r) {part : Bytes} (hpart : part <+: r.dump)
    (hstrict : part ≠ r.dump) : receive lexical_cast part = none := by
  have hshort := h.short
  rw [HttpResponse.dump_eq_head] at hpart hstrict hshort
  rw [List.length_append] at hshort
  by_cases hhead : r.head.text <+: part
  · -- The head is whole, and the body is too short for it.
    obtain ⟨body, rfl⟩ := hhead
    have hbody := (List.prefix_append_right_inj r.head.text).mp hpart
    have hlt : body.length < r.m_body.length := by
      refine Nat.lt_of_le_of_ne hbody.length_le fun heq => hstrict ?_
      rw [hbody.eq_of_length heq]
    obtain ⟨parser, hexec, hparser⟩ := HttpResponse.execute_dump h.printable body true
      (by rw [List.length_append]; omega) (by omega)
    have hcontent := HttpResponse.getContentLength_eq hcast h.empty (by omega) hparser
    unfold receive
    rw [hexec]
    dsimp only
    rw [hcontent, if_neg fun hand => absurd hand.2.2 (Nat.not_le.mpr hlt)]
  · obtain ⟨b, hsplit⟩ :=
      (List.prefix_or_prefix_of_prefix hpart (List.prefix_append _ _)).resolve_right hhead
    have hb : b ≠ [] := by
      rintro rfl
      rw [List.append_nil] at hsplit
      exact hhead (hsplit ▸ List.prefix_rfl)
    unfold receive
    rw [HttpResponseParser.execute_chunck]
    cases hexec : HttpResponseParser.new.execute part false with
    | none => rfl
    | some x =>
      obtain ⟨n, left, parser⟩ := x
      have hwell := r.head_wellFormed h.printable
      have hunfinished := (execute_cut hwell hsplit.symm hb [] hexec).2.2.1
      dsimp only
      rw [hunfinished, if_neg fun hand => absurd hand.2.1 (by decide)]

theorem receive_nil : receive lexical_cast [] = none := by
  unfold receive
  rw [HttpResponseParser.execute_chunck]
  rfl

/-- **Stream.** What has been sent whole comes out, and nothing else. -/
theorem receiveLoop_sent (hcast : ∀ n < 2 ^ 64, lexical_cast (decimal n) = some (.ofNat n))
    {rs whole : List HttpResponse} {part : Bytes} (hsent : Sent rs whole part)
    (h : ∀ r ∈ rs, Deliverable lexical_cast r) {turns : Nat} (hturns : whole.length < turns)
    (hlen : ((whole.map HttpResponse.dump).flatten ++ part).length < 2 ^ 31) :
    ∃ rs', receiveLoop lexical_cast turns ((whole.map HttpResponse.dump).flatten ++ part) =
      (rs', part) ∧ List.Forall₂ HttpResponse.Arrives whole rs' := by
  induction hsent generalizing turns with
  | done =>
    obtain ⟨turns, rfl⟩ := Nat.exists_eq_succ_of_ne_zero (Nat.ne_zero_of_lt hturns)
    refine ⟨[], ?_, .nil⟩
    rw [receiveLoop, List.map_nil, List.flatten_nil, List.append_nil, receive_nil]
  | cut hpart hstrict =>
    obtain ⟨turns, rfl⟩ := Nat.exists_eq_succ_of_ne_zero (Nat.ne_zero_of_lt hturns)
    refine ⟨[], ?_, .nil⟩
    rw [receiveLoop, List.map_nil, List.flatten_nil, List.nil_append,
      receive_cut hcast (h _ List.mem_cons_self) hpart hstrict]
  | @whole rs whole part r hrest ih =>
    obtain ⟨turns, rfl⟩ := Nat.exists_eq_succ_of_ne_zero (Nat.ne_zero_of_lt hturns)
    obtain ⟨hr, hrs⟩ := List.forall_mem_cons.mp h
    have hsplit : ((r :: whole).map HttpResponse.dump).flatten ++ part =
        r.dump ++ ((whole.map HttpResponse.dump).flatten ++ part) := by
      rw [List.map_cons, List.flatten_cons, List.append_assoc]
    rw [hsplit] at hlen ⊢
    obtain ⟨r', hreceive, harrives⟩ :=
      HttpResponse.receive_dump hcast hr.printable hr.empty _ hlen
    obtain ⟨rs', hloop, hall⟩ := ih hrs (Nat.lt_of_succ_lt_succ hturns) (by
      rw [List.length_append] at hlen
      omega)
    refine ⟨r' :: rs', ?_, .cons harrives hall⟩
    rw [receiveLoop, hreceive]
    dsimp only
    rw [hloop]

end Client

theorem HttpResponse.dump_ne_nil (r : HttpResponse) : r.dump ≠ [] := by
  rw [dump_eq_head, Head.text, Lines.crlf]
  simp

theorem length_le_flatten (rs : List HttpResponse) :
    rs.length ≤ (rs.map HttpResponse.dump).flatten.length := by
  induction rs with
  | nil => exact Nat.le_refl 0
  | cons r rs ih =>
    have hpos : 0 < r.dump.length := List.length_pos_iff.mpr r.dump_ne_nil
    rw [List.map_cons, List.flatten_cons, List.length_cons, List.length_append]
    omega

namespace HttpServer

variable {M : Machine} {buff_size : Nat} {fnmatch : Bytes → Bytes → Bool} {server : HttpServer}

/-- **Connection.** Whatever comes in, whatever the servlets do and wherever the connection breaks,
the client reads the responses that have been sent whole, each as the server has made it, and what
is left is the part of the next one. -/
theorem receiveUntil_serve (hcast : ∀ n < 2 ^ 64, lexical_cast (decimal n) = some (.ofNat n))
    (session : SocketStream) {sends : List Int32} (hbreaks : Outgoing.Breaks ⟨sends, []⟩)
    (h : ∀ a ∈ (handleClient M lexical_cast buff_size fnmatch server session).1,
      Deliverable lexical_cast a.response)
    (hlen : (serve M lexical_cast buff_size fnmatch server session ⟨sends, []⟩).2.2.sent.length <
      2 ^ 31) :
    ∃ whole part rs,
      Sent ((handleClient M lexical_cast buff_size fnmatch server session).1.map Answer.response)
        whole part ∧
      (serve M lexical_cast buff_size fnmatch server session ⟨sends, []⟩).2.2.sent =
        (whole.map HttpResponse.dump).flatten ++ part ∧
      Client.receiveUntil lexical_cast
        (serve M lexical_cast buff_size fnmatch server session ⟨sends, []⟩).2.2.sent = (rs, part) ∧
      List.Forall₂ HttpResponse.Arrives whole rs := by
  obtain ⟨whole, part, hsent, hbytes⟩ :=
    @sends_serveLoop M lexical_cast buff_size fnmatch server (session.bytes.length + 1) session _
      hbreaks
  have hanswers := congrArg Prod.fst
    (@serve_eq M lexical_cast buff_size fnmatch server session ⟨sends, []⟩)
  have hall : (serve M lexical_cast buff_size fnmatch server session ⟨sends, []⟩).2.2.sent =
      (whole.map HttpResponse.dump).flatten ++ part := hbytes
  have hresponses : Sent ((handleClient M lexical_cast buff_size fnmatch server
      session).1.map Answer.response) whole part := hanswers ▸ hsent
  rw [hall] at hlen ⊢
  obtain ⟨rs, hloop, harrive⟩ := Client.receiveLoop_sent hcast hresponses
    (fun r hr => by
      obtain ⟨a, ha, rfl⟩ := List.mem_map.mp hr
      exact h a ha)
    (Nat.lt_succ_of_le (Nat.le_trans (length_le_flatten whole)
      (List.prefix_append _ part).length_le)) hlen
  exact ⟨whole, part, rs, hresponses, rfl, hloop, harrive⟩

/-- A `GET` whose answer is taken in two parts, the second of which fails. -/
theorem receiveUntil_serve_get : ∃ whole part rs,
    Sent ((handleClient http_parser_machine HttpResponse.castDecimal 4096 (fun _ _ => false) idle
      ⟨[ascii "GET / HTTP/1.1\r\n\r\n"], false⟩).1.map Answer.response) whole part ∧
    (serve http_parser_machine HttpResponse.castDecimal 4096 (fun _ _ => false) idle
      ⟨[ascii "GET / HTTP/1.1\r\n\r\n"], false⟩ ⟨[5, -1], []⟩).2.2.sent =
        (whole.map HttpResponse.dump).flatten ++ part ∧
    Client.receiveUntil HttpResponse.castDecimal
      (serve http_parser_machine HttpResponse.castDecimal 4096 (fun _ _ => false) idle
        ⟨[ascii "GET / HTTP/1.1\r\n\r\n"], false⟩ ⟨[5, -1], []⟩).2.2.sent = (rs, part) ∧
    List.Forall₂ HttpResponse.Arrives whole rs := by
  have hanswers : (handleClient http_parser_machine HttpResponse.castDecimal 4096
      (fun _ _ => false) idle ⟨[ascii "GET / HTTP/1.1\r\n\r\n"], false⟩).1 =
        [⟨(Message.get HttpResponse.castDecimal).request, {}, false⟩] := by decide
  refine receiveUntil_serve HttpResponse.castDecimal_decimal _
    (by unfold Outgoing.Breaks; decide) ?_ (by decide)
  rw [hanswers]
  intro a ha
  rw [List.mem_singleton.mp ha]
  exact ⟨⟨by decide, by decide +kernel, by decide, by decide, by decide⟩, by decide,
    by decide⟩

end HttpServer

end

end Captain.Http
