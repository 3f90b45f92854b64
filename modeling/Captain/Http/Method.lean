import Captain.Http.Request

/-!
# The method of a request line (`captain/http/http.cpp`, `captain/http/http_parser.cpp`)

`StringToHttpMethod` compares a whole string with the names of the methods. `CharsToHttpMethod`,
which `on_request_method` calls on a pointer into the buffer, compares what begins there.

* `method_exact_iff`: they agree on a token of the grammar exactly when no name is a proper prefix
  of the token.
-/

namespace Captain.Http

/-- The first method whose name satisfies `p`. -/
def firstMethod (p : Bytes → Bool) : HttpMethod :=
  match HTTP_METHOD_MAP.find? fun (_, name) => p (ascii name) with
  | some (method, _) => method
  | none => .INVALID_METHOD

/-- Compares by `strcmp`. -/
def StringToHttpMethod (m : Bytes) : HttpMethod :=
  match HTTP_METHOD_MAP.find? fun (_, name) => c_str (ascii name) = c_str m with
  | some (method, _) => method
  | none => .INVALID_METHOD

/-- The `Method` of the grammar: `( upper | digit ){1,20}`. -/
def MethodToken (token : Bytes) : Prop :=
  1 ≤ token.length ∧ token.length ≤ 20 ∧
    ∀ b ∈ token, (65 ≤ b ∧ b ≤ 90) ∨ (48 ≤ b ∧ b ≤ 57)

theorem MethodToken.zero {token : Bytes} (h : MethodToken token) : 0 ∉ token :=
  fun hb => absurd (h.2.2 0 hb) (by decide)

/-! ## The table -/

theorem names_zero : ∀ e ∈ HTTP_METHOD_MAP, 0 ∉ ascii e.2 := by decide

theorem names_space : ∀ e ∈ HTTP_METHOD_MAP, 32 ∉ ascii e.2 := by decide

theorem methods_valid : ∀ e ∈ HTTP_METHOD_MAP, e.1 ≠ .INVALID_METHOD := by decide

/-- No name begins with another one. -/
theorem names_begin_alone : ∀ e ∈ HTTP_METHOD_MAP, ∀ e' ∈ HTTP_METHOD_MAP,
    ascii e.2 <+: ascii e'.2 → e = e' := by
  decide +kernel

theorem firstMethod_eq_invalid_iff {p : Bytes → Bool} :
    firstMethod p = .INVALID_METHOD ↔ ∀ e ∈ HTTP_METHOD_MAP, p (ascii e.2) = false := by
  unfold firstMethod
  constructor
  · intro h e he
    rw [Bool.eq_false_iff]
    intro hp
    obtain ⟨e', hfind⟩ := Option.isSome_iff_exists.mp
      (List.find?_isSome.mpr ⟨e, he, hp⟩ : (HTTP_METHOD_MAP.find? fun e => p (ascii e.2)).isSome)
    rw [hfind] at h
    exact methods_valid e' (List.mem_of_find?_eq_some hfind) h
  · intro h
    have hfind : (HTTP_METHOD_MAP.find? fun e => p (ascii e.2)) = none :=
      List.find?_eq_none.mpr fun e he => by rw [h e he]; exact Bool.false_ne_true
    rw [hfind]

/-- The name that satisfies `p`, where there is only one. -/
theorem firstMethod_eq {p : Bytes → Bool} {e : HttpMethod × String} (he : e ∈ HTTP_METHOD_MAP)
    (hp : p (ascii e.2) = true) (hone : ∀ e' ∈ HTTP_METHOD_MAP, p (ascii e'.2) = true → e' = e) :
    firstMethod p = e.1 := by
  unfold firstMethod
  obtain ⟨e', hfind⟩ := Option.isSome_iff_exists.mp
    (List.find?_isSome.mpr ⟨e, he, hp⟩ : (HTTP_METHOD_MAP.find? fun e => p (ascii e.2)).isSome)
  have hp' := List.find?_some hfind
  rw [hfind, hone e' (List.mem_of_find?_eq_some hfind) hp']

/-! ## The two converters on a token -/

variable {token rest : Bytes}

/-- A name is compared with the token as a whole. -/
theorem strcmp_iff {e : HttpMethod × String} (he : e ∈ HTTP_METHOD_MAP) (htoken : 0 ∉ token) :
    decide (c_str (ascii e.2) = c_str token) = true ↔ token = ascii e.2 := by
  rw [decide_eq_true_iff, c_str_eq (names_zero e he), c_str_eq htoken, eq_comm]

/-- A name is compared with the beginning of the token. -/
theorem strncmpEq_token_iff {e : HttpMethod × String} (he : e ∈ HTTP_METHOD_MAP) :
    strncmpEq (ascii e.2) (token ++ 32 :: rest) (ascii e.2).length = true ↔
      ascii e.2 <+: token := by
  rw [strncmpEq_iff (names_zero e he), eq_comm, ← List.prefix_iff_eq_take]
  constructor
  · intro h
    rcases Nat.le_total (ascii e.2).length token.length with hle | hle
    · exact List.prefix_of_prefix_length_le h (List.prefix_append _ _) hle
    · by_cases heq : (ascii e.2).length = token.length
      · exact List.prefix_of_prefix_length_le h (List.prefix_append _ _) heq.le
      · -- The name would reach beyond the space.
        have hspace : token ++ [32] <+: ascii e.2 := by
          refine List.prefix_of_prefix_length_le ⟨rest, by simp⟩ h ?_
          rw [List.length_append, List.length_singleton]
          omega
        exact absurd (hspace.subset (by simp)) (names_space e he)
  · intro h
    exact h.trans (List.prefix_append _ _)

theorem StringToHttpMethod_name {e : HttpMethod × String} (he : e ∈ HTTP_METHOD_MAP) :
    StringToHttpMethod (ascii e.2) = e.1 := by
  refine firstMethod_eq (p := fun name => c_str name = c_str (ascii e.2)) he
    ((strcmp_iff he (names_zero e he)).mpr rfl) fun e' he' h => ?_
  have hname := (strcmp_iff he' (names_zero e he)).mp h
  exact (names_begin_alone e he e' he' (hname ▸ List.prefix_rfl)).symm

theorem StringToHttpMethod_eq_invalid_iff (htoken : 0 ∉ token) :
    StringToHttpMethod token = .INVALID_METHOD ↔ ∀ e ∈ HTTP_METHOD_MAP, token ≠ ascii e.2 := by
  refine Iff.trans (firstMethod_eq_invalid_iff (p := fun name => c_str name = c_str token)) ?_
  refine forall₂_congr fun e he => ?_
  rw [← Bool.not_eq_true, strcmp_iff he htoken]

theorem CharsToHttpMethod_eq_invalid_iff :
    CharsToHttpMethod (token ++ 32 :: rest) = .INVALID_METHOD ↔
      ∀ e ∈ HTTP_METHOD_MAP, ¬ascii e.2 <+: token := by
  refine Iff.trans (firstMethod_eq_invalid_iff
    (p := fun name => strncmpEq name (token ++ 32 :: rest) name.length)) ?_
  refine forall₂_congr fun e he => ?_
  rw [← Bool.not_eq_true, strncmpEq_token_iff he]

theorem CharsToHttpMethod_name {e : HttpMethod × String} (he : e ∈ HTTP_METHOD_MAP) :
    CharsToHttpMethod (ascii e.2 ++ 32 :: rest) = e.1 := by
  refine firstMethod_eq (p := fun name => strncmpEq name (ascii e.2 ++ 32 :: rest) name.length) he
    ((strncmpEq_token_iff he).mpr List.prefix_rfl) fun e' he' h => ?_
  exact names_begin_alone e' he' e he ((strncmpEq_token_iff he').mp h)

/-! ## `on_request_method` -/

namespace Target

/-- The callback takes the token, with a space and the rest of the buffer behind it, for the method
that it names, and has error 1000 where it names none; the two converters agree. -/
structure MethodExact (t : Target) (token rest : Bytes) : Prop where
  set : ∀ e ∈ HTTP_METHOD_MAP, token = ascii e.2 →
    t.on_request_method (token ++ 32 :: rest) =
      { t with m_data := { t.m_data with m_method := e.1 } }
  error : (∀ e ∈ HTTP_METHOD_MAP, token ≠ ascii e.2) →
    t.on_request_method (token ++ 32 :: rest) = t.setError 1000
  agree : CharsToHttpMethod (token ++ 32 :: rest) = StringToHttpMethod token

/-- No name is a proper prefix of the token. -/
def NoNameBegins (token : Bytes) : Prop :=
  ∀ e ∈ HTTP_METHOD_MAP, ascii e.2 <+: token → token = ascii e.2

theorem agree_iff (htoken : 0 ∉ token) :
    CharsToHttpMethod (token ++ 32 :: rest) = StringToHttpMethod token ↔ NoNameBegins token := by
  constructor
  · intro h e he hprefix
    by_contra hne
    have hchars : CharsToHttpMethod (token ++ 32 :: rest) ≠ .INVALID_METHOD :=
      fun hinv => CharsToHttpMethod_eq_invalid_iff.mp hinv e he hprefix
    have hstring : StringToHttpMethod token = .INVALID_METHOD := by
      rw [StringToHttpMethod_eq_invalid_iff htoken]
      intro e' he' heq
      have hsame : e = e' := names_begin_alone e he e' he' (heq ▸ hprefix)
      exact hne (hsame ▸ heq)
    exact hchars (h.trans hstring)
  · intro h
    by_cases hname : ∃ e ∈ HTTP_METHOD_MAP, token = ascii e.2
    · obtain ⟨e, he, rfl⟩ := hname
      rw [CharsToHttpMethod_name he, StringToHttpMethod_name he]
    · have hnone : ∀ e ∈ HTTP_METHOD_MAP, token ≠ ascii e.2 :=
        fun e he heq => hname ⟨e, he, heq⟩
      rw [(StringToHttpMethod_eq_invalid_iff htoken).mpr hnone, CharsToHttpMethod_eq_invalid_iff]
      exact fun e he hprefix => hnone e he (h e he hprefix)

theorem on_request_method_of_valid {t : Target} {at_ : Bytes}
    (h : CharsToHttpMethod at_ ≠ .INVALID_METHOD) :
    t.on_request_method at_ =
      { t with m_data := { t.m_data with m_method := CharsToHttpMethod at_ } } :=
  if_neg h

theorem on_request_method_of_invalid {t : Target} {at_ : Bytes}
    (h : CharsToHttpMethod at_ = .INVALID_METHOD) : t.on_request_method at_ = t.setError 1000 :=
  if_pos h

theorem method_exact_iff (t : Target) {token : Bytes} (htoken : MethodToken token)
    (rest : Bytes) : t.MethodExact token rest ↔ NoNameBegins token := by
  constructor
  · intro h
    exact (agree_iff htoken.zero).mp h.agree
  · intro h
    have hagree : CharsToHttpMethod (token ++ 32 :: rest) = StringToHttpMethod token :=
      (agree_iff htoken.zero).mpr h
    refine ⟨fun e he htok => ?_, fun hnone => ?_, hagree⟩
    · have hchars : CharsToHttpMethod (token ++ 32 :: rest) = e.1 := by
        rw [hagree, htok, StringToHttpMethod_name he]
      have hvalid : CharsToHttpMethod (token ++ 32 :: rest) ≠ .INVALID_METHOD := by
        rw [hchars]
        exact methods_valid e he
      rw [on_request_method_of_valid hvalid, hchars]
    · exact on_request_method_of_invalid
        (hagree.trans ((StringToHttpMethod_eq_invalid_iff htoken.zero).mpr hnone))

theorem method_exact_get : ({} : Target).MethodExact (ascii "GET") (ascii "/ HTTP/1.1") := by
  refine (method_exact_iff {} ⟨by decide, by decide, by decide +kernel⟩ (ascii "/ HTTP/1.1")).mpr ?_
  unfold NoNameBegins
  decide

/-- `GETX` is served as `GET`. -/
theorem getx_taken_for_get :
    ¬∀ (t : Target) (token rest : Bytes), MethodToken token → t.MethodExact token rest := by
  intro h
  have htoken : MethodToken (ascii "GETX") := ⟨by decide, by decide, by decide +kernel⟩
  have hagree := (h {} (ascii "GETX") (ascii "/ HTTP/1.1") htoken).agree
  exact absurd hagree (by decide)

end Target

end Captain.Http
