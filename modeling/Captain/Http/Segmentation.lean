import Captain.Http.Receive

/-!
# A request in several segments

The automaton goes on from one `read` to the next, the marks of the elements do not:
`recvRequest_segments_iff` tells exactly when the request that one `read` brings comes out of
several of them as well. The elements seen from the last boundary on have to make the same request,
as they do if no boundary lies inside one of them (`read_of_uncut`).
-/

namespace Captain.Http

open Segments

variable {M : Machine}

/-- No boundary lies after the first byte of an element, up to the byte at which it is handed over.
-/
def Uncut (M : Machine) (text : Bytes) (segments : List Bytes) : Prop :=
  ∀ r ∈ (M.run text).reports, ∀ i ∈ r.starts, origin segments r.pos ≤ i

theorem below_ofActions {p : Nat} {k : Marks} {as : List Action} {r : Report}
    (h : r ∈ Report.ofActions p k as) (hk : k.Below p) : r.marks.Below r.pos := by
  induction as generalizing k with
  | nil => cases h
  | cons a as ih =>
    cases List.mem_cons.mp h with
    | inl h =>
      rw [h]
      exact hk
    | inr h => exact ih h (hk.act a)

/-- The marks of an element lie before the byte at which it is handed over. -/
theorem below_walk (rest : Bytes) {k : Marks} {p : Nat} (s : M.State) {r : Report}
    (h : r ∈ (M.walk k p s rest).reports) (hk : k.Below p) : r.marks.Below r.pos := by
  induction rest generalizing k p s with
  | nil => cases h
  | cons b rest ih =>
    obtain hb | ⟨m, hb, hm⟩ | ⟨m, hb, hm⟩ := step_cases s b
    · rw [walk_none k p s hb] at h
      cases h
    · rw [walk_done k p s hb hm] at h
      exact below_ofActions h hk
    · rw [walk_move k p s hb hm] at h
      cases List.mem_append.mp h with
      | inl h => exact below_ofActions h hk
      | inr h => exact ih m.target h ((hk.acts _).mono (Nat.le_succ p))

theorem apply_of_uncut {text : Bytes} {segments : List Bytes} (hjoin : text <+: segments.flatten)
    {r : Report} (hpos : r.pos < text.length) (hbelow : r.marks.Below r.pos)
    (huncut : ∀ i ∈ r.starts, origin segments r.pos ≤ i) (t : Target) :
    r.apply text (origin segments) t = r.apply text (origin [text]) t := by
  have hone : ∀ i, i ≤ r.pos → origin [text] i = 0 := fun i hi =>
    origin_head (Nat.lt_of_le_of_lt hi hpos) []
  have hzero := hone r.pos (Nat.le_refl _)
  obtain ⟨action, k, pos⟩ := r
  unfold Report.starts at huncut
  unfold Report.apply
  cases action with
  | write_value =>
    simp only [List.mem_cons, List.not_mem_nil, or_false, forall_eq_or_imp, forall_eq] at huncut
    obtain ⟨hmark, hfield, hstart, hend⟩ := huncut
    unfold Marks.flen
    dsimp only at hzero ⊢
    rw [hzero, Nat.max_eq_left hmark, Nat.max_eq_left hfield, Nat.max_eq_left hstart, if_pos hend,
      if_pos (Nat.zero_le _), Nat.max_zero, Nat.max_zero, Nat.max_zero]
  | request_method | fragment | http_version | request_path =>
    have hmark := huncut k.mark List.mem_cons_self
    dsimp only at hzero hmark ⊢
    rw [hzero, Nat.max_eq_left hmark, Nat.max_zero]
  | query_string =>
    cases hquery : k.query_start with
    | none => rfl
    | some q =>
      dsimp only at huncut hbelow hzero hpos ⊢
      rw [hquery] at huncut
      have hq := huncut q List.mem_cons_self
      have hle := hbelow.query_start q hquery
      have hsame := origin_eq segments hq hle (Nat.lt_of_lt_of_le hpos hjoin.length_le)
      rw [hsame, hzero, hone q hle, Nat.add_sub_cancel' hq, Nat.zero_add, Nat.sub_zero]
  | _ => rfl

theorem applyAll_congr {text : Bytes} {o o' : Nat → Nat} {rs : List Report}
    (h : ∀ r ∈ rs, ∀ t, r.apply text o t = r.apply text o' t) (t : Target) :
    rs.foldlM (Report.apply text o) t = rs.foldlM (Report.apply text o') t := by
  induction rs generalizing t with
  | nil => rfl
  | cons r rs ih =>
    have hrs := ih fun r' hr' => h r' (List.mem_cons_of_mem _ hr')
    rw [List.foldlM_cons, List.foldlM_cons, h r List.mem_cons_self t]
    cases r.apply text o' t with
    | none => rfl
    | some t' => exact hrs t'

/-- Elements that no boundary cuts make the same request as in one segment. -/
theorem read_of_uncut {text : Bytes} {segments : List Bytes} (hjoin : text <+: segments.flatten)
    (h : Uncut M text segments) : M.read text segments = M.read text [text] := by
  unfold Machine.read
  rw [applyAll_congr fun r hr t => ?_]
  obtain ⟨-, hpos⟩ := mem_walk_pos text M.start hr
  rw [Nat.zero_add] at hpos
  exact apply_of_uncut hjoin hpos (below_walk text M.start hr .zero) (h r hr) t

namespace HttpSession

variable (lexical_cast : Bytes → Option UInt64) {buff_size : Nat}

theorem parse_nil (turns : Nat) (data : Bytes) (parser : HttpRequestParser M) :
    (parse M buff_size turns ⟨[], false⟩ data parser).1 = some none := by
  cases turns with
  | zero => rfl
  | succ turns => rfl

/-- On a text that one `read` brings, a request is returned only if the automaton is done. -/
theorem done_of_recvRequest {text : Bytes} (hfit : Fit buff_size [text]) {r : HttpRequest}
    (h : (recvRequest M lexical_cast buff_size ⟨[text], false⟩).1 = .request r) :
    (M.run text).done = true := by
  obtain ⟨x, hx⟩ := parse_of_recvRequest lexical_cast h
  have hagree : Agree text 0 text := agree_of_prefix (List.prefix_refl _) (List.prefix_refl _)
  have hone : ∀ i, i < text.length → origin [text] (0 + i) = 0 := by
    intro i hi
    rw [Nat.zero_add, origin_head hi]
  have hstop := stop_le text {} 0 M.start
  rw [Nat.zero_add] at hstop
  have hresumes : Resumes (origin [text]) 0 (.init M) {} M.start :=
    ⟨rfl, M.start_final, rfl, .zero⟩
  obtain ⟨m_httpParser, hcs, -, hexec⟩ := execute_walk (.new M) hresumes
    (hfit text List.mem_cons_self).1 hagree hone hstop
  rw [parse_turn _ hfit, hexec] at hx
  cases hfold : (M.walk {} 0 M.start text).reports.foldlM (Report.apply text (origin [text]))
      (HttpRequestParser.new M).target with
  | none =>
    rw [hfold] at hx
    cases hx
  | some t =>
    rw [hfold] at hx
    dsimp only [Option.map_some] at hx
    cases hs : (M.walk {} 0 M.start text).cs with
    | none =>
      rw [hs] at hcs
      have herr : HttpRequestParser.hasError ⟨m_httpParser, t⟩ = true := by
        unfold HttpRequestParser.hasError HttpParser.has_error
        rw [hcs]
        exact Bool.or_true _
      rw [if_pos herr] at hx
      cases hx
    | some s =>
      rw [hs] at hcs
      split at hx
      · cases hx
      · split at hx
        · cases hx
        · split at hx
          · rename_i hfinal
            have hdone := walk_final text {} 0 M.start_final hs
            exact hdone.symm.trans ((isFinished_iff hcs).mp hfinal)
          · rw [parse_nil] at hx
            cases hx

/-- A text that makes a request when one `read` brings it makes the same request in several segments
just if its elements do, seen from the last boundary on, and no read leaves as many bytes in the
buffer as `(int)buff_size`. They do if no boundary lies inside an element; with a buffer of less
than `2 ^ 31` bytes no read leaves so many. -/
theorem recvRequest_segments_iff {text : Bytes} (hfit : Fit buff_size [text]) {req : HttpRequest}
    {s : SocketStream}
    (hreq : recvRequest M lexical_cast buff_size ⟨[text], false⟩ = (.request req, s))
    {segments : List Bytes} (hne : ∀ c ∈ segments, c ≠ []) (hjoin : segments.flatten = text) :
    ((recvRequest M lexical_cast buff_size ⟨segments, false⟩).1 = .request req ↔
      M.read text segments = M.read text [text] ∧
        ∀ x ∈ excess (M.run text).stop segments, (x : Int) ≠ toInt buff_size) ∧
    (Uncut M text segments → M.read text segments = M.read text [text]) ∧
    (buff_size < 2 ^ 31 →
      ∀ x ∈ excess (M.run text).stop segments, (x : Int) ≠ toInt buff_size) := by
  have hrequest : (recvRequest M lexical_cast buff_size ⟨[text], false⟩).1 = .request req :=
    congrArg Prod.fst hreq
  have hdone := done_of_recvRequest lexical_cast hfit hrequest
  obtain ⟨-, hstop⟩ := isSome_of_done text {} 0 M.start hdone
  have hstop' : (M.run text).stop ≤ text.length := by
    have hle := stop_le text {} 0 M.start
    rwa [Nat.zero_add] at hle
  have hfit' : Fit buff_size segments := by
    intro c hc
    refine ⟨hne c hc, ?_⟩
    have hsub : c.length ≤ text.length := by
      rw [← hjoin]
      exact (List.sublist_flatten_of_mem hc).length_le
    exact hsub.trans (hfit text List.mem_cons_self).2
  have hprefix : text <+: segments.flatten := hjoin ▸ List.prefix_refl _
  have hwhole : text <+: [text].flatten := List.flatten_singleton ▸ List.prefix_refl _
  obtain ⟨d, length, hlen, hd, -, hcond, hbody, -⟩ :=
    recvRequest_request lexical_cast hfit hwhole hdone hrequest
  rw [List.flatten_singleton, reach, if_pos hstop'] at hcond
  rw [List.flatten_singleton] at hbody
  have hlength : length ≤ (text.drop (M.run text).stop).length := by
    cases hcond with
    | inl hle => exact hle
    | inr hle => exact hle.1
  refine ⟨⟨?_, ?_⟩, read_of_uncut hprefix, ?_⟩
  · intro h
    obtain ⟨d', -, -, hd', hexcess', -, hbody', -⟩ :=
      recvRequest_request lexical_cast hfit' hprefix hdone h
    rw [hjoin] at hbody'
    have hsame : d' = d := withBody_inj (read_body hd') (read_body hd) (hbody'.trans hbody.symm)
    exact ⟨hd'.trans (hsame ▸ hd.symm), hexcess'⟩
  · rintro ⟨hread, hexcess'⟩
    have hmany := recvRequest_body lexical_cast hfit' hprefix hdone (hread.trans hd) hexcess' hlen
    rw [if_pos, hjoin] at hmany
    · rw [hmany, hbody]
    · -- What is left to read is less than the text, which one `read` has brought.
      have hmax : MAX_RW_COUNT < 2 ^ 31 := by decide
      have hsize := (hfit text List.mem_cons_self).2
      rw [List.length_drop] at hlength
      rw [hjoin, List.length_drop]
      by_cases hdata : length ≤ (reach (M.run text).stop segments).1.length
      · exact .inl hdata
      · rw [toInt_eq (by omega)]
        exact .inr ⟨hlength, by omega⟩
  · intro hsize x hx
    have hlt := excess_lt hstop hne hx
    have hlength := (hfit text List.mem_cons_self).2
    rw [hjoin] at hlt
    rw [toInt_eq hsize]
    omega

/-- The method, and all that follows, in two segments. -/
theorem recvRequest_segments_iff_method :
    (recvRequest http_parser_machine (fun _ => none) 4096
      ⟨[ascii "GET ", ascii "/ HTTP/1.0\r\n\r\n"], false⟩).1 = .request { m_version := 0x10 } := by
  have hreq : recvRequest http_parser_machine (fun _ => none) 4096
      ⟨[ascii "GET / HTTP/1.0\r\n\r\n"], false⟩ =
        (.request { m_version := 0x10 }, ⟨[], false⟩) := by decide
  have hfit : Fit 4096 [ascii "GET / HTTP/1.0\r\n\r\n"] := by
    intro c hc
    rw [List.mem_singleton.mp hc]
    decide
  exact (recvRequest_segments_iff (fun _ => none) hfit hreq (by decide) (by decide)).1.mpr
    ⟨by decide, by decide⟩

/-- A boundary inside `GET` leaves a method `ET`. -/
theorem not_recvRequest_segments :
    ¬∀ (lexical_cast : Bytes → Option UInt64) (buff_size : Nat) (text : Bytes) (req : HttpRequest)
      (s : SocketStream) (segments : List Bytes), Fit buff_size [text] →
      recvRequest http_parser_machine lexical_cast buff_size ⟨[text], false⟩ = (.request req, s) →
      (∀ c ∈ segments, c ≠ []) → segments.flatten = text →
      (recvRequest http_parser_machine lexical_cast buff_size ⟨segments, false⟩).1 =
        .request req := by
  intro h
  have hreq := h (fun _ => none) 4096 (ascii "GET / HTTP/1.1\r\n\r\n") {} ⟨[], false⟩
    [ascii "G", ascii "ET / HTTP/1.1\r\n\r\n"] (by
      intro c hc
      rw [List.mem_singleton.mp hc]
      decide) (by decide) (by decide) (by decide)
  exact absurd hreq (by decide)

end HttpSession

end Captain.Http
