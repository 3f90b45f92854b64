import Captain.Http.ClientHead
import Captain.Http.Maps

/-!
# A client that reads what `HttpResponse::dump` writes

`dump` writes a head that `HttpResponseParser` understands when the texts of the response are those
of a head. A client parses the head, and then takes as many bytes as `getContentLength` says.

* `parse_dump`: the parser recovers the response and leaves the body.
* `receiveAll_dump`: from responses that are sent one after the other the client takes each of them.
-/

namespace Captain.Http

open Client
open Lines

namespace HttpResponse

variable (r : HttpResponse)

/-- The texts are those of a head; a blank before a value would not be read as part of it. -/
structure Printable : Prop where
  version : r.m_version = 0x10 ∨ r.m_version = 0x11
  reason : ∀ b ∈ r.m_reason, b ≠ 10 ∧ b ≠ 13
  names : ∀ h ∈ r.m_headers, strcasecmpEq h.1 (ascii "connection") = false →
    h.1 ≠ [] ∧ ∀ b ∈ h.1, isToken b = true
  values : ∀ h ∈ r.m_headers, strcasecmpEq h.1 (ascii "connection") = false →
    (∀ b ∈ h.2, b ≠ 10 ∧ b ≠ 13) ∧ ∀ b ∈ h.2.head?, isBlank b = false
  sorted : r.m_headers.Pairwise fun h h' => CaseInsensitiveLess h.1 h'.1 = true

def reason : Bytes := if r.m_reason = [] then ascii (HttpStatusToString r.m_status) else r.m_reason

def connection : Bytes := ascii (if r.m_close then "close" else "keep-alive")

/-- The headers that `dump` takes from the map. -/
def kept : MapType := r.m_headers.filter fun (name, _) => !strcasecmpEq name (ascii "connection")

/-- The fields that `dump` writes. -/
def printed : MapType :=
  r.kept ++ (ascii "connection", r.connection) ::
    if r.m_body = [] then [] else [(ascii "content-length", decimal r.m_body.length)]

/-- The head that `dump` writes. -/
def head : Head where
  version := ascii "HTTP/" ++ decimal (r.m_version >>> 4).toNat ++ [46] ++
    decimal (r.m_version &&& 0x0F).toNat
  status := decimal r.m_status.toNat
  reason := r.reason
  fields := r.printed.map fun (name, value) => (name, 32 :: value)

/-- What the parser holds when it has read the response `r`. -/
structure Recovers (parser : HttpResponseParser) : Prop where
  error : parser.hasError = false
  finished : parser.isFinished = 1
  status : parser.getData.m_status = r.m_status
  version : parser.getData.m_version = r.m_version
  reason : parser.getData.m_reason = r.reason
  headers : ∀ key, MapType.find parser.getData.m_headers key =
    if r.m_body ≠ [] ∧ strcasecmpEq (ascii "content-length") key = true then
      some (decimal r.m_body.length)
    else if strcasecmpEq (ascii "connection") key then some r.connection
    else MapType.find r.m_headers key
  close : parser.m_httpclientParser.close = r.m_close
  length : r.m_body ≠ [] → parser.m_httpclientParser.content_len = r.m_body.length

/-! ## The head -/

theorem dump_eq_head : r.dump = r.head.text ++ r.m_body := by
  have hsep : ascii ": " = [58, 32] := by decide
  have hspace : ascii " " = [32] := by decide
  have hdot : ascii "." = [46] := by decide
  have hconnection : ascii "connection: " = ascii "connection" ++ [58, 32] := by decide
  have hlength : ascii "content-length: " = ascii "content-length" ++ [58, 32] := by decide
  have hheaders : (r.m_headers.flatMap fun (name, value) =>
      if strcasecmpEq name (ascii "connection") then []
      else name ++ ascii ": " ++ value ++ crlf) =
      (r.kept.map fun (name, value) => (name, 32 :: value)).flatMap fieldLine := by
    unfold kept
    induction r.m_headers with
    | nil => rfl
    | cons header headers ih =>
      obtain ⟨name, value⟩ := header
      rw [List.flatMap_cons, ih]
      by_cases hname : strcasecmpEq name (ascii "connection") = true
      · rw [List.filter_cons_of_neg (by simp [hname])]
        simp only [if_pos hname, List.nil_append]
      · rw [List.filter_cons_of_pos (by simp [hname]), List.map_cons, List.flatMap_cons]
        simp only [if_neg hname, hsep, fieldLine, List.append_assoc, List.cons_append,
          List.nil_append]
  unfold dump
  rw [hheaders, hconnection, hlength]
  unfold Head.text Head.statusLine head printed
  by_cases hbody : r.m_body = []
  · rw [if_neg (not_not_intro hbody), if_pos hbody, hbody]
    simp only [statusLine, reason, connection, hspace, hdot, fieldLine, List.map_append,
      List.map_cons, List.map_nil, List.flatMap_append, List.flatMap_cons, List.flatMap_nil,
      List.append_assoc, List.cons_append, List.nil_append, List.append_nil]
  · rw [if_pos hbody, if_neg hbody]
    simp only [statusLine, reason, connection, hspace, hdot, fieldLine, List.map_append,
      List.map_cons, List.map_nil, List.flatMap_append, List.flatMap_cons, List.flatMap_nil,
      List.append_assoc, List.cons_append, List.nil_append, List.append_nil]

theorem within_decimal (n : Nat) : ∀ b ∈ decimal n, within digits b = true := fun b hb =>
  ((digits_spec b).2.2.1 (digits_decimal b hb)).1

theorem decimal_ne_nil (n : Nat) : decimal n ≠ [] :=
  fun hnil => Nat.toDigits_ne_nil (List.map_eq_nil_iff.mp hnil)

/-- The texts that `dump` takes for a reason and for its own fields. -/
theorem HTTP_STATUS_MAP_line :
    ∀ e ∈ HTTP_STATUS_MAP, ascii e.2 ≠ [] ∧ ∀ b ∈ ascii e.2, b ≠ 10 ∧ b ≠ 13 := by
  have hall : HTTP_STATUS_MAP.all (fun e => ascii e.2 != [] &&
      (ascii e.2).all fun b => b != 10 && b != 13) = true := by decide +kernel
  intro e he
  have hline := List.all_eq_true.mp hall e he
  rw [Bool.and_eq_true, List.all_eq_true] at hline
  exact ⟨by simpa using hline.1, fun b hb => by simpa using hline.2 b hb⟩

theorem HttpStatusToString_line (s : HttpStatus) : ascii (HttpStatusToString s) ≠ [] ∧
    ∀ b ∈ ascii (HttpStatusToString s), b ≠ 10 ∧ b ≠ 13 := by
  unfold HttpStatusToString
  split
  · next heq => exact HTTP_STATUS_MAP_line _ (List.mem_of_find?_eq_some heq)
  · decide +kernel

theorem reason_line (h : r.Printable) : r.reason ≠ [] ∧ ∀ b ∈ r.reason, b ≠ 10 ∧ b ≠ 13 := by
  unfold reason
  split
  · exact HttpStatusToString_line r.m_status
  · next hne => exact ⟨hne, h.reason⟩

/-- What the generated fields and those of the map have in common. -/
theorem printed_field (h : r.Printable) : ∀ f ∈ r.printed,
    (f.1 ≠ [] ∧ ∀ b ∈ f.1, isToken b = true) ∧ (∀ b ∈ f.2, b ≠ 10 ∧ b ≠ 13) ∧
      ∀ b ∈ f.2.head?, isBlank b = false := by
  have hfixed : (ascii "connection" ≠ [] ∧ ∀ b ∈ ascii "connection", isToken b = true) ∧
      ascii "content-length" ≠ [] ∧ ∀ b ∈ ascii "content-length", isToken b = true := by
    decide +kernel
  have hclose : ∀ close : Bool, (∀ b ∈ ascii (if close then "close" else "keep-alive"),
      b ≠ 10 ∧ b ≠ 13) ∧ ∀ b ∈ (ascii (if close then "close" else "keep-alive")).head?,
        isBlank b = false := by
    decide +kernel
  have hdigit : ∀ b : UInt8, within digits b = true →
      (b ≠ 10 ∧ b ≠ 13) ∧ isBlank b = false := fun b => (digits_spec b).2.2.2.1
  intro f hf
  rcases List.mem_append.mp hf with hf | hf
  · obtain ⟨hmem, hname⟩ := List.mem_filter.mp hf
    have hname' : strcasecmpEq f.1 (ascii "connection") = false := by simpa using hname
    exact ⟨h.names f hmem hname', h.values f hmem hname'⟩
  · rcases List.mem_cons.mp hf with rfl | hf
    · exact ⟨hfixed.1, hclose r.m_close⟩
    · by_cases hbody : r.m_body = []
      · rw [if_pos hbody] at hf
        cases hf
      · rw [if_neg hbody, List.mem_singleton] at hf
        subst hf
        exact ⟨hfixed.2, fun b hb => (hdigit b (within_decimal _ b hb)).1,
          fun b hb => (hdigit b (within_decimal _ b (List.mem_of_mem_head? hb))).2⟩

theorem head_wellFormed (h : r.Printable) : r.head.WellFormed where
  version := ⟨_, _, rfl, decimal_ne_nil _, decimal_ne_nil _, fun b hb =>
    (List.mem_append.mp hb).elim (within_decimal _ b) (within_decimal _ b)⟩
  status := ⟨decimal_ne_nil _, within_decimal _⟩
  reason := r.reason_line h
  names := by
    intro f hf
    obtain ⟨e, he, rfl⟩ := List.mem_map.mp hf
    exact (r.printed_field h e he).1
  values := by
    intro f hf b hb
    obtain ⟨e, he, rfl⟩ := List.mem_map.mp hf
    rcases List.mem_cons.mp hb with rfl | hb
    · decide
    · exact (r.printed_field h e he).2.1 b hb

end HttpResponse

/-! ## What the fields report -/

namespace Client

theorem foldl_target (fs : List (Bytes × Bytes)) (r : Report) :
    (fs.foldl Report.field r).target = { r.target with m_data := { r.target.m_data with
      m_headers := fs.foldl (fun m f => MapType.assign f.1 (stripped f.2) m)
        r.target.m_data.m_headers } } := by
  induction fs generalizing r with
  | nil => rfl
  | cons f fs ih =>
    rw [List.foldl_cons, List.foldl_cons, ih]
    rfl

theorem foldl_close (fs : List (Bytes × Bytes)) (r : Report) :
    (fs.foldl Report.field r).close = (r.close || fs.any fun f => isClose f.1 f.2) := by
  induction fs generalizing r with
  | nil => exact (Bool.or_false _).symm
  | cons f fs ih => rw [List.foldl_cons, ih, Report.field, List.any_cons, Bool.or_assoc]

/-- A name that is `connection` but for the case of its letters. -/
theorem strcasecmpEq_of_lower {name text : Bytes} (htext : 0 ∉ text)
    (hlower : lower text = text) (h : lower name = text) : strcasecmpEq name text = true := by
  have hname : 0 ∉ name := fun hmem => htext (h ▸ List.mem_map_of_mem (f := tolower) hmem)
  rw [MapType.strcasecmpEq_iff, c_str_eq hname, c_str_eq htext]
  exact h.trans hlower.symm

end Client

/-! ## The map of the headers -/

namespace MapType

/-- Of different keys each is found as it has been assigned. -/
theorem find_foldl_assign {l : MapType} (hl : l.Pairwise fun e e' => strcasecmpEq e.1 e'.1 = false)
    (m : MapType) (key : Bytes) :
    find (l.foldl (fun m e => m.assign e.1 e.2) m) key = (find l key).or (find m key) := by
  induction l generalizing m with
  | nil => rfl
  | cons e l ih =>
    obtain ⟨he, hl⟩ := List.pairwise_cons.mp hl
    rw [List.foldl_cons, ih hl, find_assign, find_cons]
    by_cases hkey : strcasecmpEq e.1 key = true
    · have hnone : find l key = none := by
        rw [find, Option.map_eq_none_iff, List.find?_eq_none]
        rintro ⟨k, v⟩ he' hsame
        dsimp only at hsame
        rw [equivalent_iff] at hsame
        have hfalse := he _ he'
        rw [strcasecmpEq_congr hkey] at hfalse
        have hsymm : strcasecmpEq key k = true :=
          strcasecmpEq_iff.mpr (strcasecmpEq_iff.mp hsame).symm
        rw [hsymm] at hfalse
        cases hfalse
      rw [if_pos hkey, if_pos hkey, hnone]
      rfl
    · rw [if_neg hkey, if_neg hkey]

end MapType

namespace HttpResponse

variable {r : HttpResponse}

theorem different_of_less {key key' : Bytes} (h : CaseInsensitiveLess key key' = true) :
    strcasecmpEq key key' = false := by
  rw [← MapType.equivalent_iff, h]
  rfl

theorem stripped_printed (h : r.Printable) {f : Bytes × Bytes} (hf : f ∈ r.printed) :
    stripped (32 :: f.2) = f.2 := by
  have hhead := (r.printed_field h f hf).2.2
  rw [stripped_cons_blank (by decide)]
  cases hv : f.2 with
  | nil => rfl
  | cons b v => exact stripped_cons (hhead b (hv ▸ rfl)) v

/-- The headers of the map, but for `connection`, and the two fields beside them. -/
theorem find_printed (h : r.Printable) (key : Bytes) :
    MapType.find (r.printed.foldl (fun m e => MapType.assign e.1 e.2 m) []) key =
      if r.m_body ≠ [] ∧ strcasecmpEq (ascii "content-length") key = true then
        some (decimal r.m_body.length)
      else if strcasecmpEq (ascii "connection") key then some r.connection
      else MapType.find r.m_headers key := by
  have hkept : r.kept = MapType.erase (ascii "connection") r.m_headers := by
    refine List.filter_congr fun ⟨k, v⟩ _ => ?_
    dsimp only
    rw [← MapType.equivalent_iff, Bool.not_and, Bool.not_not, Bool.not_not]
  have hpairwise : r.kept.Pairwise fun e e' => strcasecmpEq e.1 e'.1 = false :=
    (h.sorted.filter _).imp fun hless => different_of_less hless
  have hmap : MapType.find (r.kept.foldl (fun m e => MapType.assign e.1 e.2 m) []) key =
      if strcasecmpEq (ascii "connection") key then none else MapType.find r.m_headers key := by
    rw [MapType.find_foldl_assign hpairwise, hkept, MapType.find_erase]
    exact Option.or_none
  have hconnection : MapType.find ((r.kept ++ [(ascii "connection", r.connection)]).foldl
      (fun m e => MapType.assign e.1 e.2 m) []) key =
      if strcasecmpEq (ascii "connection") key then some r.connection
      else MapType.find r.m_headers key := by
    rw [List.foldl_concat, MapType.find_assign, hmap]
    split <;> rfl
  unfold printed
  by_cases hbody : r.m_body = []
  · rw [if_pos hbody, hconnection]
    exact (if_neg fun hand => hand.1 hbody).symm
  · rw [if_neg hbody, List.append_cons, List.foldl_append, List.foldl_cons, List.foldl_nil,
      MapType.find_assign, hconnection]
    exact if_congr (and_iff_right hbody).symm rfl rfl

theorem foldl_printed (h : r.Printable) (m : MapType) :
    (r.head.fields.foldl (fun m f => MapType.assign f.1 (stripped f.2) m) m) =
      r.printed.foldl (fun m e => MapType.assign e.1 e.2 m) m := by
  rw [head, List.foldl_map]
  refine List.foldl_ext _ _ m fun m' f hf => ?_
  rw [stripped_printed h hf]

/-- Only the generated field asks to close. -/
theorem any_isClose (r : HttpResponse) :
    (r.head.fields.any fun f => isClose f.1 f.2) = r.m_close := by
  have hkept : (r.kept.map fun (name, value) => (name, 32 :: value)).any
      (fun f => isClose f.1 f.2) = false := by
    rw [List.any_eq_false]
    intro f hf hclose
    obtain ⟨e, he, rfl⟩ := List.mem_map.mp hf
    have hname : strcasecmpEq e.1 (ascii "connection") = true :=
      strcasecmpEq_of_lower (by decide) (by decide) (of_decide_eq_true hclose).1
    have hother := (List.mem_filter.mp he).2
    dsimp only at hother
    rw [hname] at hother
    cases hother
  have hconnection : isClose (ascii "connection") (32 :: r.connection) = r.m_close := by
    unfold connection
    cases r.m_close <;> decide
  have hlength : ∀ v, isClose (ascii "content-length") v = false := by
    intro v
    have hname : lower (ascii "content-length") ≠ ascii "connection" := by decide
    simp [isClose, hname]
  rw [head]
  dsimp only
  rw [printed, List.map_append, List.any_append, hkept, List.map_cons, List.any_cons, hconnection,
    Bool.false_or]
  split
  · rw [List.map_nil, List.any_nil, Bool.or_false]
  · rw [List.map_singleton, List.any_cons, hlength, List.any_nil, Bool.or_false, Bool.or_false]

theorem version_text (h : r.Printable) (t : ResponseTarget) :
    t.on_response_version r.head.version r.head.version.length =
      { t with m_data := { t.m_data with m_version := r.m_version } } := by
  have hversion : r.head.version = ascii "HTTP/1.0" ∧ r.m_version = 0x10 ∨
      r.head.version = ascii "HTTP/1.1" ∧ r.m_version = 0x11 := by
    rw [head]
    dsimp only
    rcases h.version with hv | hv <;> rw [hv]
    · exact .inl (by decide)
    · exact .inr (by decide)
  unfold ResponseTarget.on_response_version
  rcases hversion with ⟨hv, hn⟩ | ⟨hv, hn⟩ <;> rw [hv, hn]
  · rw [if_neg (by decide), if_pos (by decide)]
  · rw [if_pos (by decide)]

theorem strtol_decimal {n : Nat} (hn : n < 2 ^ 63) : strtol 10 (decimal n) = n := by
  have hten : (10 : Nat) ≤ 36 := by decide
  have hdigits := strtol_digits hten [] (decimal_ne_nil n)
    (fun b hb => (digits_spec b).1.mp (within_decimal n b hb)) nofun
  rw [List.append_nil] at hdigits
  have hnumber := number_decimal n
  rw [number, if_pos ⟨decimal_ne_nil n, List.all_eq_true.mpr digits_decimal⟩,
    Option.some.injEq] at hnumber
  have hsame : (decimal n).foldl (fun n b => 10 * n + digitValue b) 0 = n := by
    refine Eq.trans (List.foldl_ext _ _ 0 fun m b hb => ?_) hnumber
    rw [((digits_spec b).2.2.1 (digits_decimal b hb)).2]
  rw [hdigits, hsame]
  omega

/-- The last field. -/
theorem fields_head (r : HttpResponse) : ∃ fs, r.head.fields = fs ++
    [if r.m_body = [] then (ascii "connection", 32 :: r.connection)
      else (ascii "content-length", 32 :: decimal r.m_body.length)] := by
  rw [head]
  dsimp only
  rw [printed]
  by_cases hbody : r.m_body = []
  · rw [if_pos hbody, if_pos hbody, List.map_append]
    exact ⟨_, rfl⟩
  · rw [if_neg hbody, if_neg hbody, List.append_cons, List.map_append]
    exact ⟨_, rfl⟩

theorem stripped_length (h : r.Printable) (hbody : r.m_body ≠ []) :
    stripped (32 :: decimal r.m_body.length) = decimal r.m_body.length := by
  have hmem : (ascii "content-length", decimal r.m_body.length) ∈ r.printed := by
    rw [printed, if_neg hbody]
    simp
  exact stripped_printed h hmem

/-- It is one with a value. -/
theorem isOpen_head (h : r.Printable) : r.head.isOpen = false := by
  obtain ⟨fs, hfs⟩ := r.fields_head
  have hconnection : stripped (32 :: r.connection) ≠ [] := by
    unfold connection
    cases r.m_close <;> decide
  rw [Head.isOpen, hfs, List.getLast?_concat]
  refine decide_eq_false fun hand => ?_
  by_cases hbody : r.m_body = []
  · rw [if_pos hbody] at hand
    exact hconnection hand.1
  · rw [if_neg hbody, stripped_length h hbody] at hand
    exact decimal_ne_nil _ hand.1

theorem content_len_head (h : r.Printable) (hbody : r.m_body ≠ [])
    (hlen : r.m_body.length < 2 ^ 31) : r.head.report.content_len = r.m_body.length := by
  obtain ⟨fs, hfs⟩ := r.fields_head
  have hname : lower (ascii "content-length") = ascii "content-length" := by decide
  have hsame := stripped_length h hbody
  have hlength : isLength (ascii "content-length") (32 :: decimal r.m_body.length) = true := by
    refine decide_eq_true ⟨hname, ?_, ?_⟩
    · rw [hsame]
      exact decimal_ne_nil _
    · rw [hsame]
      exact List.all_eq_true.mpr (within_decimal _)
  rw [Head.report, hfs, if_neg hbody, List.foldl_concat, Report.field]
  dsimp only
  rw [if_pos hlength, hsame, strtol_decimal (by omega), intOfLong, BitVec.ofInt_natCast]
  exact toInt_eq hlen

/-- What has been understood of its head is the response. -/
theorem recovers (h : r.Printable) (hshort : r.m_body.length < 2 ^ 31)
    {parser : HttpResponseParser} (hu : Understood r.head parser) : r.Recovers parser := by
  have htarget : parser.target = ⟨{
      m_status := r.m_status, m_version := r.m_version, m_reason := r.reason,
      m_headers := r.printed.foldl (fun m e => MapType.assign e.1 e.2 m) [] }, 0⟩ := by
    have hstatus : UInt32.ofBitVec (BitVec.ofInt 32 (strtol 10 (decimal r.m_status.toNat))) =
        r.m_status := by
      rw [strtol_decimal (Nat.lt_trans r.m_status.toNat_lt (by decide)), BitVec.ofInt_natCast]
      exact UInt32.ofNat_toNat
    rw [hu.target, Head.report, foldl_target, foldl_printed h, Head.status_report,
      version_text h]
    dsimp only [ResponseTarget.on_response_status, ResponseTarget.on_response_reason]
    rw [List.take_length]
    have hdecimal : r.head.status = decimal r.m_status.toNat := rfl
    rw [hdecimal, hstatus]
    rfl
  have hdata : parser.getData = parser.target.m_data := rfl
  refine ⟨?_, ?_, ?_, ?_, ?_, fun key => ?_, ?_, fun hbody => ?_⟩
  · rw [hu.error, ← hu.target, htarget]
    rfl
  · rw [hu.finished, isOpen_head h]
    rfl
  · rw [hdata, htarget]
  · rw [hdata, htarget]
  · rw [hdata, htarget]
  · rw [hdata, htarget]
    exact find_printed h key
  · rw [hu.close, Head.report, foldl_close, any_isClose r]
    rfl
  · rw [hu.content_len, content_len_head h hbody hshort]

/-- A new parser reads the head that is printed. -/
theorem execute_dump (h : r.Printable) (rest : Bytes) (chunck : Bool)
    (hlen : (r.head.text ++ rest).length < 2 ^ 31) (hshort : r.m_body.length < 2 ^ 31) :
    ∃ parser, HttpResponseParser.new.execute (r.head.text ++ rest) chunck =
      some (r.head.text.length, rest, parser) ∧ r.Recovers parser := by
  obtain ⟨parser, hexec, hu⟩ := @execute_text _ (r.head_wellFormed h) rest .new _ rfl
    (ite_self _) hlen
  exact ⟨parser, hexec, recovers h hshort hu⟩

theorem body_short (rest : Bytes) (hlen : (r.dump ++ rest).length < 2 ^ 31) :
    (r.head.text ++ (r.m_body ++ rest)).length < 2 ^ 31 ∧ r.m_body.length < 2 ^ 31 := by
  rw [dump_eq_head] at hlen
  simp only [List.length_append] at hlen ⊢
  omega

/-- **Round trip.** The parser recovers the response, and leaves its body and what is behind it. -/
theorem parse_dump (h : r.Printable) (rest : Bytes) (chunck : Bool)
    (hlen : (r.dump ++ rest).length < 2 ^ 31) :
    ∃ parser, HttpResponseParser.new.execute (r.dump ++ rest) chunck =
      some (r.dump.length - r.m_body.length, r.m_body ++ rest, parser) ∧ r.Recovers parser := by
  have hoffset : r.dump.length - r.m_body.length = r.head.text.length := by
    rw [dump_eq_head, List.length_append, Nat.add_sub_cancel]
  obtain ⟨htext, hshort⟩ := body_short rest hlen
  rw [hoffset, dump_eq_head, List.append_assoc]
  exact execute_dump h (r.m_body ++ rest) chunck htext hshort

/-- A response that is kept alive, with a header and a body. -/
def greeting : HttpResponse :=
  { m_close := false, m_body := ascii "hi", m_headers := [(ascii "Server", ascii "captain")] }

theorem printable_greeting : greeting.Printable :=
  ⟨by decide, by decide +kernel, by decide +kernel, by decide +kernel, by decide⟩

theorem parse_dump_greeting : ∃ parser,
    HttpResponseParser.new.execute (greeting.dump ++ ascii "HTTP/") true =
        some (greeting.dump.length - greeting.m_body.length, greeting.m_body ++ ascii "HTTP/",
          parser) ∧
      greeting.Recovers parser :=
  parse_dump printable_greeting (ascii "HTTP/") true (by decide)

end HttpResponse

/-! ## Responses one after the other -/

section

variable (lexical_cast : Bytes → Option UInt64)

/-- A client takes the head, and then the bytes of the body if they are all there. -/
def Client.receive (data : Bytes) : Option (HttpResponse × Bytes) :=
  match HttpResponseParser.new.execute data true with
  | none => none
  | some (_, rest, parser) =>
    if parser.hasError = false ∧ parser.isFinished = 1 ∧
        (parser.getContentLength lexical_cast).toNat ≤ rest.length then
      some ({ parser.getData with
          m_close := parser.m_httpclientParser.close
          m_body := rest.take (parser.getContentLength lexical_cast).toNat },
        rest.drop (parser.getContentLength lexical_cast).toNat)
    else none

/-- As many responses as are expected. -/
def Client.receiveAll : Nat → Bytes → Option (List HttpResponse × Bytes)
  | 0, data => some ([], data)
  | n + 1, data =>
    match Client.receive lexical_cast data with
    | none => none
    | some (r, rest) =>
      (receiveAll n rest).map fun (rs, rest) => (r :: rs, rest)

namespace HttpResponse

/-- The response that comes in is the one that was sent, with the fields that `dump` adds. -/
structure Arrives (r r' : HttpResponse) : Prop where
  status : r'.m_status = r.m_status
  version : r'.m_version = r.m_version
  close : r'.m_close = r.m_close
  body : r'.m_body = r.m_body
  reason : r'.m_reason = r.reason
  headers : ∀ key, MapType.find r'.m_headers key =
    if r.m_body ≠ [] ∧ strcasecmpEq (ascii "content-length") key = true then
      some (decimal r.m_body.length)
    else if strcasecmpEq (ascii "connection") key then some r.connection
    else MapType.find r.m_headers key

/-- The length that the headers of a response with no body tell. -/
def ownLength (r : HttpResponse) : UInt64 :=
  r.getHeaderAs lexical_cast (ascii "content-length") 0

variable {lexical_cast} {r : HttpResponse}

theorem getContentLength_eq (hcast : ∀ n < 2 ^ 64, lexical_cast (decimal n) = some (.ofNat n))
    (hempty : r.m_body = [] → r.ownLength lexical_cast = 0) (hlen : r.m_body.length < 2 ^ 31)
    {parser : HttpResponseParser} (hparser : r.Recovers parser) :
    (parser.getContentLength lexical_cast).toNat = r.m_body.length := by
  have hfind := hparser.headers (ascii "content-length")
  have hself : strcasecmpEq (ascii "content-length") (ascii "content-length") = true := by decide
  have hother : strcasecmpEq (ascii "connection") (ascii "content-length") = false := by
    decide
  unfold HttpResponseParser.getContentLength getHeaderAs
  rw [hfind, hself, hother, if_neg Bool.false_ne_true]
  by_cases hbody : r.m_body = []
  · rw [if_neg fun hand => hand.1 hbody]
    have hown := hempty hbody
    unfold ownLength getHeaderAs at hown
    rw [hown, hbody]
    rfl
  · rw [if_pos ⟨hbody, rfl⟩]
    dsimp only
    rw [hcast _ (by omega), Option.getD_some, UInt64.toNat_ofNat_of_lt' (by
      show _ < 2 ^ 64
      omega)]

theorem receive_dump (hcast : ∀ n < 2 ^ 64, lexical_cast (decimal n) = some (.ofNat n))
    (h : r.Printable) (hempty : r.m_body = [] → r.ownLength lexical_cast = 0) (rest : Bytes)
    (hlen : (r.dump ++ rest).length < 2 ^ 31) :
    ∃ r', Client.receive lexical_cast (r.dump ++ rest) = some (r', rest) ∧
      r.Arrives r' := by
  obtain ⟨htext, hshort⟩ := body_short rest hlen
  obtain ⟨parser, hexec, hparser⟩ := execute_dump h (r.m_body ++ rest) true htext hshort
  have hcontent := getContentLength_eq hcast hempty hshort hparser
  have hfits : r.m_body.length ≤ (r.m_body ++ rest).length := (List.prefix_append _ _).length_le
  unfold Client.receive
  rw [dump_eq_head, List.append_assoc, hexec]
  dsimp only
  rw [hcontent, if_pos ⟨hparser.error, hparser.finished, hfits⟩, List.take_left, List.drop_left]
  exact ⟨_, rfl, hparser.status, hparser.version, hparser.close, rfl, hparser.reason,
    hparser.headers⟩

/-- **Stream.** A client that reads responses sent one after the other takes each of them as it was
sent, and leaves what comes behind the last one. -/
theorem receiveAll_dump (hcast : ∀ n < 2 ^ 64, lexical_cast (decimal n) = some (.ofNat n))
    (rs : List HttpResponse)
    (h : ∀ r ∈ rs, r.Printable ∧ (r.m_body = [] → r.ownLength lexical_cast = 0)) (rest : Bytes)
    (hlen : ((rs.map dump).flatten ++ rest).length < 2 ^ 31) :
    ∃ rs', Client.receiveAll lexical_cast rs.length ((rs.map dump).flatten ++ rest) =
      some (rs', rest) ∧ List.Forall₂ Arrives rs rs' := by
  induction rs with
  | nil => exact ⟨[], rfl, .nil⟩
  | cons r rs ih =>
    have hsplit : ((r :: rs).map dump).flatten ++ rest =
        r.dump ++ ((rs.map dump).flatten ++ rest) := by
      rw [List.map_cons, List.flatten_cons, List.append_assoc]
    rw [hsplit] at hlen ⊢
    obtain ⟨hr, hempty⟩ := h r List.mem_cons_self
    obtain ⟨r', hreceive, harrives⟩ := receive_dump hcast hr hempty _ hlen
    obtain ⟨rs', hrest, hall⟩ := ih (fun r hr => h r (List.mem_cons_of_mem _ hr)) (by
      rw [List.length_append] at hlen
      omega)
    refine ⟨r' :: rs', ?_, .cons harrives hall⟩
    rw [List.length_cons, Client.receiveAll, hreceive]
    dsimp only
    rw [hrest, Option.map_some]

/-- The numbers of decimal digits that fit. -/
def castDecimal (v : Bytes) : Option UInt64 :=
  (number v).bind fun n => if n < 2 ^ 64 then some (.ofNat n) else none

theorem castDecimal_decimal : ∀ n < 2 ^ 64, castDecimal (decimal n) = some (.ofNat n) := by
  intro n hn
  rw [castDecimal, number_decimal, Option.bind_some, if_pos hn]

/-- Two responses, the first of which is kept alive. -/
def pair : List HttpResponse := [greeting, { m_status := 404 }]

theorem printable_pair : ∀ r ∈ pair,
    r.Printable ∧ (r.m_body = [] → r.ownLength castDecimal = 0) := by
  simp only [pair, List.forall_mem_cons, List.not_mem_nil, false_implies, implies_true, and_true]
  refine ⟨⟨printable_greeting, ?_⟩,
    ⟨⟨by decide, by decide +kernel, by decide, by decide, by decide⟩, ?_⟩⟩
  · decide
  · decide

theorem receiveAll_dump_pair :
    ∃ rs', Client.receiveAll castDecimal pair.length
        ((pair.map dump).flatten ++ ascii "HTTP/") = some (rs', ascii "HTTP/") ∧
      List.Forall₂ Arrives pair rs' :=
  receiveAll_dump castDecimal_decimal pair printable_pair (ascii "HTTP/") (by decide +kernel)

end HttpResponse

end

end Captain.Http
