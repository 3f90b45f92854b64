import Captain.Http.ClientHead

/-!
# A head that comes in two parts

`HttpResponseParser::execute` takes the number that `httpclient_parser_execute` returns for the
bytes that it has just parsed. But `nread` counts the bytes of all calls since the parser has been
set back, where `http_parser_execute` starts to count anew.

* `execute_split`: whichever way a head is cut in two, the call that comes to its end drops as many
  bytes of what follows the head as the first part has.
-/

namespace Captain.Http

open Scanner

namespace Client

/-- What `execute` does without setting the parser back: the bytes that it returns are those of all
calls, and the state is where the way leads. -/
theorem execute_total {parser parser' : HttpResponseParser} {data left : Bytes} {n : Nat}
    (h : parser.execute data false = some (n, left, parser')) :
    ∃ k cs, scan transition idle data ⟨0, parser.m_httpclientParser.cs, ()⟩ = some ⟨k, cs, ()⟩ ∧
      n = parser.m_httpclientParser.nread + k ∧ left = data.drop n ∧
      parser'.m_httpclientParser.cs = cs.getD HttpclientParser.httpclient_parser_error ∧
      parser'.m_httpclientParser.nread = n := by
  unfold HttpResponseParser.execute at h
  dsimp only at h
  rw [if_neg Bool.false_ne_true] at h
  split at h
  · next offset m_httpclientParser target hexec =>
    cases h
    unfold HttpclientParser.execute at hexec
    split at hexec
    · split at hexec
      · cases hexec
      · next p cs x t hscan =>
        dsimp only at hexec
        generalize (if 0 < p ∧ cs.any
          (fun s => decide (HttpclientParser.httpclient_parser_first_final ≤ s)) = true then p
            else parser.m_httpclientParser.body_start) = start at hexec
        split at hexec
        · split at hexec
          · rw [Option.some.injEq, Prod.mk.injEq, Prod.mk.injEq] at hexec
            obtain ⟨hoffset, hparser, -⟩ := hexec
            have hn : parser.m_httpclientParser.nread + p = n := Int.ofNat.inj hoffset
            refine ⟨p, cs, scan_idle hscan, hn.symm, rfl, ?_, ?_⟩
            · rw [← hparser]
            · rw [← hparser]
              exact hn
          · cases hexec
        · cases hexec
    · cases hexec
  · cases h

/-- The way over a head that is cut in two goes on from a state not known to be final. -/
theorem way_head {hd : Head} (h : hd.WellFormed) {a b : Bytes} (hsplit : hd.text = a ++ b)
    (hb : b ≠ []) (rest : Bytes) :
    ∃ s s', scan transition idle a ⟨0, HttpclientParser.httpclient_parser_start, ()⟩ =
        some ⟨a.length, some s, ()⟩ ∧
      scan transition idle (b ++ rest) ⟨0, s, ()⟩ = some ⟨b.length, some s', ()⟩ := by
  obtain ⟨x, hscan, -⟩ := scan_head h rest
  have hway := scan_idle hscan
  dsimp only at hway
  rw [hsplit, List.append_assoc, List.length_append] at hway
  have hpos : 0 < b.length := List.length_pos_iff.mpr hb
  obtain ⟨s, _, hexec⟩ := exec_of_scan hway (by dsimp only; omega)
  dsimp only at hexec
  rw [Nat.zero_add] at hexec
  have hfirst := scan_exec hexec []
  have hsecond := scan_exec hexec (b ++ rest)
  have hshift := @scan_shift _ _ _ transition (b ++ rest) 0 a.length s
  rw [Nat.zero_add] at hshift
  rw [List.append_nil] at hfirst
  rw [hway, hshift] at hsecond
  obtain ⟨e, he, heq⟩ := Option.map_eq_some_iff.mp hsecond.symm
  rw [End.mk.injEq] at heq
  refine ⟨s, endState hd.report.line, hfirst, he.trans (congrArg some ?_)⟩
  rw [End.mk.injEq]
  exact ⟨by omega, heq.2.1, rfl⟩

/-- From an error, or from the state behind a head, there is no transition. -/
theorem goes_on {s s' p k : Nat} {c : UInt8} {w : Bytes}
    (h : scan transition idle (c :: w) ⟨p, s, ()⟩ = some ⟨k, some s', ()⟩) : s ≠ 0 ∧ s ≠ 120 := by
  rw [scan] at h
  dsimp only at h
  constructor <;> rintro rfl
  · have hnone : transition 0 c = none := rfl
    rw [hnone] at h
    cases h
  · have hnone : transition 120 c = none := rfl
    rw [hnone] at h
    cases h

/-- A part of a head is taken whole, and is not taken for one. -/
theorem execute_cut {hd : Head} (h : hd.WellFormed) {a b : Bytes} (hsplit : hd.text = a ++ b)
    (hb : b ≠ []) (rest : Bytes) {n : Nat} {left : Bytes} {parser : HttpResponseParser}
    (hexec : HttpResponseParser.new.execute a false = some (n, left, parser)) :
    n = a.length ∧ left = [] ∧ parser.isFinished = 0 ∧
      parser.m_httpclientParser.nread = a.length ∧
      ∃ s', scan transition idle (b ++ rest) ⟨0, parser.m_httpclientParser.cs, ()⟩ =
        some ⟨b.length, some s', ()⟩ := by
  obtain ⟨s, s', hfirst, hsecond⟩ := way_head h hsplit hb rest
  obtain ⟨k, cs, hway, hn, hleft, hcs, hnread⟩ := execute_total hexec
  have hstart : HttpResponseParser.new.m_httpclientParser.cs =
      HttpclientParser.httpclient_parser_start := rfl
  have hzero : HttpResponseParser.new.m_httpclientParser.nread = 0 := rfl
  rw [hstart, hfirst, Option.some.injEq, End.mk.injEq] at hway
  obtain ⟨rfl, rfl, -⟩ := hway
  rw [hzero, Nat.zero_add] at hn
  rw [Option.getD_some] at hcs
  obtain ⟨c, b, rfl⟩ := List.exists_cons_of_ne_nil hb
  have hgoes := goes_on hsecond
  refine ⟨hn, ?_, ?_, hnread.trans hn, s', hcs ▸ hsecond⟩
  · rw [hleft, hn, List.drop_length]
  · unfold HttpResponseParser.isFinished HttpclientParser.finish HttpclientParser.has_error
      HttpclientParser.is_finished
    rw [hcs, decide_eq_false (by exact hgoes.1), decide_eq_false (by exact hgoes.2)]
    rfl

/-- **Split heads.** The call that comes to the end of the head returns the bytes of both parts, and
so many are missing from what follows. -/
theorem execute_split {hd : Head} (h : hd.WellFormed) {a b : Bytes} (hsplit : hd.text = a ++ b)
    (hb : b ≠ []) (rest : Bytes) {n₁ n₂ : Nat} {left₁ left₂ : Bytes}
    {parser₁ parser₂ : HttpResponseParser}
    (h₁ : HttpResponseParser.new.execute a false = some (n₁, left₁, parser₁))
    (h₂ : parser₁.execute (b ++ rest) false = some (n₂, left₂, parser₂)) :
    n₁ = a.length ∧ left₁ = [] ∧ parser₁.isFinished = 0 ∧
      n₂ = a.length + b.length ∧ left₂ = rest.drop a.length := by
  obtain ⟨hn₁, hleft₁, hunfinished, hnread, s', hsecond⟩ := execute_cut h hsplit hb rest h₁
  obtain ⟨k, cs, hway, hn₂, hleft₂, -, -⟩ := execute_total h₂
  rw [hsecond, Option.some.injEq, End.mk.injEq] at hway
  obtain ⟨rfl, -, -⟩ := hway
  rw [hnread] at hn₂
  refine ⟨hn₁, hleft₁, hunfinished, hn₂, ?_⟩
  rw [hleft₂, hn₂, Nat.add_comm a.length, ← List.drop_drop, List.drop_left]

/-- A head without fields. -/
def plainHead : Head := ⟨ascii "HTTP/1.1", ascii "200", ascii "OK", []⟩

theorem wellFormed_plainHead : plainHead.WellFormed where
  version := ⟨ascii "1", ascii "1", by decide, by decide, by decide, by decide +kernel⟩
  status := ⟨by decide, by decide +kernel⟩
  reason := by decide +kernel
  names := nofun
  values := nofun

/-- Of twenty bytes of a body three are left. -/
theorem execute_split_plain : ∃ n₁ left₁ parser₁ n₂ left₂ parser₂,
    HttpResponseParser.new.execute (ascii "HTTP/1.1 200 OK\r\n") false =
        some (n₁, left₁, parser₁) ∧
      parser₁.execute (ascii "\r\n" ++ ascii "abcdefghijklmnopqrst") false =
        some (n₂, left₂, parser₂) ∧
      n₁ = (ascii "HTTP/1.1 200 OK\r\n").length ∧ left₁ = [] ∧ parser₁.isFinished = 0 ∧
      n₂ = (ascii "HTTP/1.1 200 OK\r\n").length + (ascii "\r\n").length ∧
      left₂ = (ascii "abcdefghijklmnopqrst").drop (ascii "HTTP/1.1 200 OK\r\n").length := by
  have hboth : ((HttpResponseParser.new.execute (ascii "HTTP/1.1 200 OK\r\n") false).bind
      fun r => r.2.2.execute (ascii "\r\n" ++ ascii "abcdefghijklmnopqrst") false).isSome := by
    decide
  obtain ⟨⟨n₂, left₂, parser₂⟩, hbind⟩ := Option.isSome_iff_exists.mp hboth
  obtain ⟨⟨n₁, left₁, parser₁⟩, h₁, h₂⟩ := Option.bind_eq_some_iff.mp hbind
  exact ⟨n₁, left₁, parser₁, n₂, left₂, parser₂, h₁, h₂,
    execute_split wellFormed_plainHead (by decide) (by decide) _ h₁ h₂⟩

end Client

end Captain.Http
