import Captain.Http.Pipeline

/-!
# The length that a request announces

`recvRequest` takes the body's length from the `content-length` header: `getHeaderAs` casts the text
to a `uint64_t`, with 0 for a text that is no number, and the number is read as an `int64_t`. The
body is given room for that many bytes before any of them is read, which may throw; the length is
never compared with `http.request.max_body_size`.

`recvRequest_length_iff`: for every header that is a request's, and every way in which it comes in,
when the length that it announces is honoured and bounded. If the reads leave the header as it was
sent, that is if and only if the text is a number, not above the limit and below `2 ^ 63`, for which
there is room.
-/

namespace Captain.Http

open Segments

variable {M : Machine}

/-! ## What is read into the buffer -/

namespace SocketStream

theorem length_read_le (s : SocketStream) (length : Nat) : (s.read length).1.length ≤ length := by
  unfold read
  split
  · exact Nat.zero_le _
  · split
    · exact Nat.zero_le _
    · dsimp only
      split
      · dsimp only
        omega
      · dsimp only
        rw [List.length_take]
        omega

theorem length_readLoop (turns : Nat) {s : SocketStream} {left : Nat} {buffer : Bytes}
    (h : (readLoop turns s left).1 = some buffer) : buffer.length = left := by
  induction turns generalizing s left buffer with
  | zero =>
    rw [readLoop] at h
    split at h
    · rename_i hzero
      cases h
      exact hzero.symm
    · cases h
  | succ turns ih =>
    rw [readLoop] at h
    split at h
    · rename_i hzero
      cases h
      exact hzero.symm
    · dsimp only at h
      split at h
      · cases h
      · obtain ⟨more, hmore, rfl⟩ := Option.map_eq_some_iff.mp h
        have hle := length_read_le s left
        rw [List.length_append, ih hmore]
        omega

/-- A positive result of `readFixSize` means that the buffer is full. -/
theorem length_readFixSize {s s' : SocketStream} {length : Nat} {n : Int} {buffer : Bytes}
    (h : s.readFixSize length = (n, buffer, s')) (hn : 0 < n) : buffer.length = length := by
  unfold readFixSize at h
  split at h
  · cases h
    exact absurd hn (Int.lt_irrefl 0)
  · rename_i buffer' s₁ hloop
    cases h
    exact length_readLoop _ (congrArg Prod.fst hloop)

end SocketStream

/-! ## The length -/

namespace HttpSession

variable (lexical_cast : Bytes → Option UInt64) (refuses : Nat → Bool) (max_body_size : UInt64)

/-- What is asked of a call on a header with the text `v` for the `content-length`: a request has a
body of the length that `v` is the number of, and not above the limit; without a request the
connection is closed. No buffer above the limit is made for the body. -/
structure Bounded (v : Bytes) (c : Call) : Prop where
  request : ∀ r, c.outcome = .request r →
    ∃ n, lexical_cast v = some n ∧ r.m_body.length = n.toNat ∧ n ≤ max_body_size
  null : (∀ r, c.outcome ≠ .request r) → c.outcome = .null ∧ c.session.closed = true
  buffer : ∀ size, c.buffer = some size → size ≤ max_body_size.toNat

/-- A body of this length comes in behind the first `stop` bytes, and what is left of it when they
have come in is a positive `int`. -/
def Arrives (stop : Nat) (cs : List Bytes) (length : Nat) : Prop :=
  length ≤ (reach stop cs).1.length ∨
    length ≤ (cs.flatten.drop stop).length ∧ 0 < toInt (length - (reach stop cs).1.length)

instance (stop : Nat) (cs : List Bytes) (length : Nat) : Decidable (Arrives stop cs length) :=
  inferInstanceAs (Decidable (_ ∨ _))

/-- The length that `length` becomes on the way, when `v` was sent: without one, `v` says 0; else
there is room for it, it is not above the limit, and if the body comes in it is the number `v`. -/
def Honours (v : Bytes) (stop : Nat) (cs : List Bytes) (length : Nat) : Prop :=
  if length = 0 then lexical_cast v = some 0
  else refuses length = false ∧ length ≤ max_body_size.toNat ∧
    (Arrives stop cs length → (lexical_cast v).map UInt64.toNat = some length)

variable {lexical_cast refuses max_body_size}

theorem Bounded.ne_throws {v : Bytes} {c : Call} (h : Bounded lexical_cast max_body_size v c) :
    c.outcome ≠ .throws := by
  intro hthrows
  have hnull := (h.null fun r hr => by
    rw [hthrows] at hr
    cases hr).1
  rw [hthrows] at hnull
  cases hnull

theorem bounded_null {v : Bytes} {s : SocketStream} (h : s.closed = true) :
    Bounded lexical_cast max_body_size v ⟨.null, s, none⟩ where
  request r hr := by cases hr
  null _ := ⟨rfl, h⟩
  buffer size hsize := by cases hsize

theorem toNat_toInt (n : UInt64) :
    n.toBitVec.toInt.toNat = if n.toNat < 2 ^ 63 then n.toNat else 0 := by
  have hlt := n.toNat_lt
  rw [BitVec.toInt_eq_toNat_cond, UInt64.toNat_toBitVec]
  split <;> split <;> omega

/-- The length of a header, from the text of its `content-length`. -/
theorem contentLength_of_find {d : HttpRequest} {v : Bytes}
    (hv : MapType.find d.m_headers (ascii "content-length") = some v) :
    (d.contentLength lexical_cast).toNat =
      if ((lexical_cast v).getD 0).toNat < 2 ^ 63 then ((lexical_cast v).getD 0).toNat else 0 := by
  rw [HttpRequest.contentLength, HttpRequest.getHeaderAs, hv]
  exact toNat_toInt _

/-! ## The call -/

/-- The loop gives up only with the connection closed. -/
theorem closed_of_parse {buff_size turns : Nat} {s : SocketStream} {data : Bytes}
    {parser : HttpRequestParser M}
    (h : (parse M buff_size turns s data parser).1 = some none) :
    (parse M buff_size turns s data parser).2.closed = true := by
  induction turns generalizing s data parser with
  | zero => rfl
  | succ turns ih =>
    rw [parse] at h ⊢
    dsimp only at h ⊢
    split at h
    · rename_i hzero
      rw [if_pos hzero]
      rfl
    · rename_i hzero
      rw [if_neg hzero]
      cases hexec : parser.execute (data ++ (s.read (buff_size - data.length)).1) with
      | none =>
        rw [hexec] at h
        cases h
      | some x =>
        obtain ⟨n, data', parser'⟩ := x
        rw [hexec] at h
        dsimp only at h ⊢
        by_cases herr : parser'.hasError = true
        · rw [if_pos herr]
          rfl
        · rw [if_neg herr] at h ⊢
          by_cases hfull : (data'.length : Int) = toInt buff_size
          · rw [if_pos hfull]
            rfl
          · rw [if_neg hfull] at h ⊢
            by_cases hdone : parser'.isFinished ≠ 0
            · rw [if_pos hdone] at h
              cases h
            · rw [if_neg hdone] at h ⊢
              exact ih h

/-- How `receiveBody` ends that is to read a body. -/
theorem receiveBody_ends (s : SocketStream) {parser : HttpRequestParser M} (data : Bytes)
    (hpos : 0 < (parser.getContentLength lexical_cast).toBitVec.toInt) :
    (∃ r, (receiveBody M lexical_cast s parser data).1 = .request r ∧
      r.m_body.length = (parser.getContentLength lexical_cast).toBitVec.toInt.toNat) ∨
    (receiveBody M lexical_cast s parser data).1 = .null ∧
      (receiveBody M lexical_cast s parser data).2.closed = true := by
  unfold receiveBody
  generalize (parser.getContentLength lexical_cast).toBitVec.toInt = length at hpos ⊢
  dsimp only
  rw [if_pos hpos]
  split
  · rename_i hleft
    generalize hread : s.readFixSize (length - data.length).toNat = read
    obtain ⟨n, buffer, s'⟩ := read
    dsimp only
    split
    · exact Or.inr ⟨rfl, rfl⟩
    · rename_i hn
      refine Or.inl ⟨_, rfl, ?_⟩
      have hlen := SocketStream.length_readFixSize hread (by omega)
      rw [List.length_append, hlen, List.length_take]
      omega
  · refine Or.inl ⟨_, rfl, ?_⟩
    rw [List.length_take]
    omega

section

variable {buff_size : Nat} {v : Bytes} {cs : List Bytes} (hfit : Fit buff_size cs) {text : Bytes}
  (htext : text <+: cs.flatten) (hdone : (M.run text).done = true)

include hfit htext hdone

/-- A call whose header is not accepted closes the connection, if no exception is raised. -/
theorem bounded_of_refused (hnot : ¬∃ d, M.read text cs = some d ∧
    ∀ x ∈ excess (M.run text).stop cs, (x : Int) ≠ toInt buff_size) :
    Bounded lexical_cast max_body_size v
        (recvRequestResizing M lexical_cast refuses buff_size ⟨cs, false⟩) ↔
      ¬Throws (origin cs) text buff_size 0 (M.run text).reports {} := by
  have hsome := parse_of_refused hfit htext hdone hnot
  have hnone := (parse_run hfit htext hdone).throws_iff
  have hclosed := @closed_of_parse M buff_size ((SocketStream.bytes ⟨cs, false⟩).length + 1)
    ⟨cs, false⟩ [] (.new M)
  unfold recvRequestResizing
  generalize parse M buff_size ((SocketStream.bytes ⟨cs, false⟩).length + 1) ⟨cs, false⟩ []
    (.new M) = result at hsome hnone hclosed ⊢
  obtain ⟨_ | _ | x, s⟩ := result
  · exact iff_of_false (fun hb => hb.ne_throws rfl) (not_not.mpr (hnone.mp rfl))
  · refine iff_of_true (bounded_null (hclosed rfl)) fun hthrows => ?_
    cases hnone.mpr hthrows
  · exact absurd rfl (hsome x)

/-- A call whose header is accepted, as the reads leave it. -/
theorem bounded_of_read {d : HttpRequest} (hd : M.read text cs = some d)
    (hexcess : ∀ x ∈ excess (M.run text).stop cs, (x : Int) ≠ toInt buff_size) :
    Bounded lexical_cast max_body_size v
        (recvRequestResizing M lexical_cast refuses buff_size ⟨cs, false⟩) ↔
      Honours lexical_cast refuses max_body_size v (M.run text).stop cs
        (d.contentLength lexical_cast).toNat := by
  obtain ⟨parser, hparser, hparse⟩ := parse_of_read hfit htext hdone hd hexcess
  have hstop : (M.run text).stop ≤ cs.flatten.length := by
    have hle := stop_le text {} 0 M.start
    rw [Nat.zero_add] at hle
    exact hle.trans htext.length_le
  have hrest : ∀ c ∈ (reach (M.run text).stop cs).2, c ≠ [] := fun c hc => (hfit c (mem_reach hc)).1
  have hspec := receiveBody_spec lexical_cast hrest parser hparser (read_body hd)
    (reach (M.run text).stop cs).1 rfl
  rw [flatten_reach hstop] at hspec
  have hlength : (parser.getContentLength lexical_cast).toBitVec.toInt =
      d.contentLength lexical_cast := by
    rw [HttpRequestParser.getContentLength, hparser]
    rfl
  unfold recvRequestResizing
  rw [hparse]
  unfold resizeBody Honours
  dsimp only
  by_cases hpos : d.contentLength lexical_cast > 0
  · have hends := @receiveBody_ends M lexical_cast
      ⟨(reach (M.run text).stop cs).2, false⟩ parser (reach (M.run text).stop cs).1
      (hlength ▸ hpos)
    have hne : (d.contentLength lexical_cast).toNat ≠ 0 := by omega
    rw [hlength] at hends ⊢
    rw [if_pos hpos, if_neg hne]
    by_cases hrefuses : refuses (d.contentLength lexical_cast).toNat = true
    · rw [if_pos hrefuses, hrefuses]
      exact iff_of_false (fun hb => hb.ne_throws rfl) fun hand => Bool.noConfusion hand.1
    · rw [if_neg hrefuses]
      generalize receiveBody M lexical_cast ⟨(reach (M.run text).stop cs).2, false⟩ parser
        (reach (M.run text).stop cs).1 = received at hends hspec ⊢
      obtain ⟨outcome, s⟩ := received
      constructor
      · refine fun hb => ⟨Bool.eq_false_iff.mpr hrefuses, hb.buffer _ rfl, fun harrives => ?_⟩
        replace hspec := Eq.mp (if_pos harrives) hspec
        obtain ⟨n, hn, hlen, -⟩ := hb.request _ (congrArg Prod.fst hspec)
        rcases hends with ⟨r, hr, hbody⟩ | ⟨hnull, -⟩
        · cases (hr.symm.trans (congrArg Prod.fst hspec))
          rw [hn, Option.map_some, ← hlen, hbody]
        · cases hnull.symm.trans (congrArg Prod.fst hspec)
      · rintro ⟨-, hle, hnumber⟩
        refine ⟨fun r hr => ?_, fun hnot => ?_, fun size hsize => ?_⟩
        · have harrives : Arrives (M.run text).stop cs (d.contentLength lexical_cast).toNat := by
            by_contra hnot
            exact Eq.mp (if_neg hnot) hspec r hr
          obtain ⟨n, hn, hnat⟩ := Option.map_eq_some_iff.mp (hnumber harrives)
          rcases hends with ⟨r', hr', hbody⟩ | ⟨hnull, -⟩
          · cases hr.symm.trans hr'
            refine ⟨n, hn, hbody.trans hnat.symm, UInt64.le_iff_toNat_le.mpr ?_⟩
            rw [hnat]
            exact hle
          · cases hr.symm.trans hnull
        · rcases hends with ⟨r, hr, -⟩ | hnull
          · exact absurd hr (hnot r)
          · exact hnull
        · cases hsize
          exact hle
  · rw [hlength, if_neg hpos, if_pos (by omega), hparser]
    constructor
    · intro hb
      obtain ⟨n, hn, hlen, -⟩ := hb.request d rfl
      rw [read_body hd] at hlen
      rw [hn]
      exact congrArg some (UInt64.toNat_inj.mp hlen.symm)
    · intro hzero
      refine ⟨fun r hr => ?_, fun hnot => absurd rfl (hnot d), fun size hsize => ?_⟩
      · cases hr
        refine ⟨0, hzero, ?_, UInt64.le_iff_toNat_le.mpr (Nat.zero_le _)⟩
        rw [read_body hd]
        rfl
      · cases hsize

end

/-- A length that is not lost on the way. -/
theorem honours_iff {d : HttpRequest} {v : Bytes} (stop : Nat) (cs : List Bytes)
    (hv : MapType.find d.m_headers (ascii "content-length") = some v) :
    Honours lexical_cast refuses max_body_size v stop cs (d.contentLength lexical_cast).toNat ↔
      ∃ n, lexical_cast v = some n ∧ n ≤ max_body_size ∧ n.toNat < 2 ^ 63 ∧
        (0 < n.toNat → refuses n.toNat = false) := by
  rw [contentLength_of_find hv]
  unfold Honours
  cases hn : lexical_cast v with
  | none => simp
  | some n =>
    rw [Option.getD_some, Option.map_some]
    simp only [Option.some.injEq, exists_eq_left', UInt64.le_iff_toNat_le]
    by_cases hlt : n.toNat < 2 ^ 63
    · rw [if_pos hlt]
      by_cases hzero : n.toNat = 0
      · rw [if_pos hzero, hzero]
        refine iff_of_true (UInt64.toNat_inj.mp hzero) ⟨Nat.zero_le _, by decide, ?_⟩
        exact fun hpos => absurd hpos (Nat.lt_irrefl 0)
      · rw [if_neg hzero]
        constructor
        · rintro ⟨hrefuses, hle, -⟩
          exact ⟨hle, hlt, fun _ => hrefuses⟩
        · rintro ⟨hle, -, hrefuses⟩
          exact ⟨hrefuses (Nat.pos_of_ne_zero hzero), hle, fun _ => rfl⟩
    · rw [if_neg hlt, if_pos rfl]
      refine iff_of_false (fun hzero => hlt ?_) fun hand => hlt hand.2.1
      rw [hzero]
      decide

variable (lexical_cast refuses max_body_size)

/-- **Announced length.** For every automaton, cast, buffer size and limit, whatever `resize`
refuses, for every request with a `content-length` and whichever way it comes in: the length is
honoured and bounded if and only if no element raises an exception and, if the header is accepted as
the reads leave it, its length there honours the one that was sent. A header that is left as it was
sent does that just if the text is a number, not above the limit and below `2 ^ 63`, for which there
is room. -/
theorem recvRequest_length_iff {buff_size : Nat} {cs : List Bytes} (hfit : Fit buff_size cs)
    {text : Bytes} (htext : text <+: cs.flatten) (hdone : (M.run text).done = true)
    {d : HttpRequest} (hd : M.read text [text] = some d) {v : Bytes}
    (hv : MapType.find d.m_headers (ascii "content-length") = some v) :
    (Bounded lexical_cast max_body_size v
        (recvRequestResizing M lexical_cast refuses buff_size ⟨cs, false⟩) ↔
      ¬Throws (origin cs) text buff_size 0 (M.run text).reports {} ∧
        ∀ d', M.read text cs = some d' →
          (∀ x ∈ excess (M.run text).stop cs, (x : Int) ≠ toInt buff_size) →
          Honours lexical_cast refuses max_body_size v (M.run text).stop cs
            (d'.contentLength lexical_cast).toNat) ∧
    (M.read text cs = M.read text [text] →
      (∀ x ∈ excess (M.run text).stop cs, (x : Int) ≠ toInt buff_size) →
      (Bounded lexical_cast max_body_size v
          (recvRequestResizing M lexical_cast refuses buff_size ⟨cs, false⟩) ↔
        ∃ n, lexical_cast v = some n ∧ n ≤ max_body_size ∧ n.toNat < 2 ^ 63 ∧
          (0 < n.toNat → refuses n.toNat = false))) := by
  constructor
  · by_cases haccepted : ∃ d', M.read text cs = some d' ∧
        ∀ x ∈ excess (M.run text).stop cs, (x : Int) ≠ toInt buff_size
    · obtain ⟨d', hd', hexcess⟩ := haccepted
      obtain ⟨parser, -, hparse⟩ := parse_of_read hfit htext hdone hd' hexcess
      have hthrows : ¬Throws (origin cs) text buff_size 0 (M.run text).reports {} := by
        intro hthrows
        have hnone := (parse_run hfit htext hdone).throws_iff.mpr hthrows
        rw [hparse] at hnone
        cases hnone
      rw [bounded_of_read hfit htext hdone hd' hexcess]
      constructor
      · intro hhonours
        refine ⟨hthrows, fun d'' hd'' _ => ?_⟩
        cases hd'.symm.trans hd''
        exact hhonours
      · exact fun hand => hand.2 d' hd' hexcess
    · rw [bounded_of_refused hfit htext hdone haccepted, iff_self_and]
      exact fun _ d' hd' hexcess => absurd ⟨d', hd', hexcess⟩ haccepted
  · intro hread hexcess
    rw [bounded_of_read hfit htext hdone (hread.trans hd) hexcess]
    exact honours_iff _ cs hv

/-- The request that a decided `find` is about. -/
theorem exists_read {text v : Bytes}
    (h : ((M.read text [text]).bind fun d => MapType.find d.m_headers (ascii "content-length")) =
      some v) :
    ∃ d, M.read text [text] = some d ∧
      MapType.find d.m_headers (ascii "content-length") = some v :=
  Option.bind_eq_some_iff.mp h

/-- A body of two bytes under a limit of two; the header comes in two reads, the second of which
brings a byte of the body. -/
def inThreeReads : List Bytes :=
  [ascii "POST / HTTP/1.1\r\n", ascii "Content-Length: 2\r\n\r\nh", ascii "i"]

theorem recvRequest_length_iff_two : Bounded Message.castTwo 2 (ascii "2")
    (recvRequestResizing http_parser_machine Message.castTwo (fun n => 2 ^ 48 ≤ n) 4096
      ⟨inThreeReads, false⟩) := by
  have hfit : Fit 4096 inThreeReads := by
    unfold Fit
    decide
  have hread : http_parser_machine.read Message.post.header inThreeReads =
      some Message.post.data := by decide
  have hlength : MapType.find Message.post.data.m_headers (ascii "content-length") =
      some (ascii "2") := by decide
  refine ((recvRequest_length_iff Message.castTwo (fun n => 2 ^ 48 ≤ n) 2 hfit (by decide)
    Message.post.done Message.post.read hlength).2 (hread.trans Message.post.read.symm)
    (by decide)).mpr ?_
  exact ⟨2, by decide, by decide, by decide, by decide⟩

/-- A `lexical_cast` that knows one number, which is one more than the default of
`http.request.max_body_size`. -/
def castAbove (val : Bytes) : Option UInt64 :=
  if val = ascii "67108865" then some 67108865 else none

/-- One byte above the default limit: the buffer for the body is made before any of it comes in. -/
theorem not_recvRequest_length :
    ¬∀ (lexical_cast : Bytes → Option UInt64) (refuses : Nat → Bool) (max_body_size : UInt64)
      (buff_size : Nat) (cs : List Bytes) (text : Bytes) (d : HttpRequest) (v : Bytes),
      Fit buff_size cs → text <+: cs.flatten → (http_parser_machine.run text).done = true →
      http_parser_machine.read text [text] = some d →
      MapType.find d.m_headers (ascii "content-length") = some v →
      Bounded lexical_cast max_body_size v
        (recvRequestResizing http_parser_machine lexical_cast refuses buff_size ⟨cs, false⟩) := by
  intro h
  obtain ⟨d, hd, hv⟩ := @exists_read http_parser_machine
    (ascii "POST / HTTP/1.1\r\nContent-Length: 67108865\r\n\r\n") (ascii "67108865") (by decide)
  have hfit : Fit 4096 [ascii "POST / HTTP/1.1\r\nContent-Length: 67108865\r\n\r\n"] := by
    unfold Fit
    decide
  have hbounded := h castAbove (fun _ => false) 67108864 4096 _ _ d _ hfit (by decide) (by decide)
    hd hv
  obtain ⟨n, hn, hle, -⟩ := (honours_iff _ _ hv).mp
    ((bounded_of_read hfit (by decide) (by decide) hd (by decide)).mp hbounded)
  have hnumber : castAbove (ascii "67108865") = some 67108865 := rfl
  cases hn.symm.trans hnumber
  exact absurd hle (by decide)

end HttpSession

end Captain.Http
