import Captain.Http.Request
import Mathlib.Data.List.Induction

/-!
# `ServletDispatch` (`captain/http/servlet.cpp`)

Servlets are registered for an URI or for a pattern. `fnmatch`, of the C library, is a parameter, as
the type of the servlets is.

* `run_registered`: after any calls the patterns are the live ones, each once, in the order of their
  last registration, and the map has the last servlet of every live URI.
* `run_routes`: a URI is routed by its own servlet first, then by the earliest live pattern, then by
  the default.
-/

namespace Captain.Http

variable {σ : Type}

structure ServletDispatch (σ : Type) where
  m_datas : Bytes → Option σ
  m_globs : List (Bytes × σ)
  m_default : σ

inductive Registration (σ : Type)
  | addServlet (uri : Bytes) (slt : σ)
  | addGlobServlet (uri : Bytes) (slt : σ)
  | delServlet (uri : Bytes)
  | delGlobServlet (uri : Bytes)

namespace ServletDispatch

/-- The constructor; the default is a `NotFoundServlet`. -/
def new (m_default : σ) : ServletDispatch σ := ⟨fun _ => none, [], m_default⟩

/-- The loop that erases the first entry of a pattern. -/
def eraseGlob (uri : Bytes) (m_globs : List (Bytes × σ)) : List (Bytes × σ) :=
  m_globs.eraseP fun it => it.1 = uri

def addServlet (uri : Bytes) (slt : σ) (s : ServletDispatch σ) : ServletDispatch σ :=
  { s with m_datas := fun u => if u = uri then some slt else s.m_datas u }

def addGlobServlet (uri : Bytes) (slt : σ) (s : ServletDispatch σ) : ServletDispatch σ :=
  { s with m_globs := eraseGlob uri s.m_globs ++ [(uri, slt)] }

def delServlet (uri : Bytes) (s : ServletDispatch σ) : ServletDispatch σ :=
  { s with m_datas := fun u => if u = uri then none else s.m_datas u }

def delGlobServlet (uri : Bytes) (s : ServletDispatch σ) : ServletDispatch σ :=
  { s with m_globs := eraseGlob uri s.m_globs }

/-- `fnmatch` says that a pattern accepts a string. -/
def getMatchedServlet (fnmatch : Bytes → Bytes → Bool) (uri : Bytes) (s : ServletDispatch σ) : σ :=
  match s.m_datas uri with
  | some mit => mit
  | none =>
    match s.m_globs.find? fun it => fnmatch (c_str it.1) (c_str uri) with
    | some it => it.2
    | none => s.m_default

/-- One call. -/
def register (s : ServletDispatch σ) : Registration σ → ServletDispatch σ
  | .addServlet uri slt => s.addServlet uri slt
  | .addGlobServlet uri slt => s.addGlobServlet uri slt
  | .delServlet uri => s.delServlet uri
  | .delGlobServlet uri => s.delGlobServlet uri

/-- The calls one after the other. -/
def run (m_default : σ) (calls : List (Registration σ)) : ServletDispatch σ :=
  calls.foldl register (new m_default)

end ServletDispatch

/-! ## What is live after some calls -/

namespace Registration

/-- The call registers or deletes the pattern. -/
def mentionsGlob (uri : Bytes) : Registration σ → Bool
  | .addGlobServlet u _ | .delGlobServlet u => u = uri
  | _ => false

/-- What the call says about the URI: nothing, that it is deleted, or its servlet. -/
def saysOf (uri : Bytes) : Registration σ → Option (Option σ)
  | .addServlet u slt => if uri = u then some (some slt) else none
  | .delServlet u => if uri = u then some none else none
  | _ => none

/-- The registrations of patterns, in order, that no later call replaces or deletes. -/
def liveGlobs : List (Registration σ) → List (Bytes × σ)
  | [] => []
  | .addGlobServlet uri slt :: calls =>
    if calls.any (mentionsGlob uri) then liveGlobs calls else (uri, slt) :: liveGlobs calls
  | _ :: calls => liveGlobs calls

/-- The servlet last registered for the URI, if it is live. -/
def liveServlet (uri : Bytes) (calls : List (Registration σ)) : Option σ :=
  (calls.reverse.findSome? (saysOf uri)).join

theorem liveServlet_concat (uri : Bytes) (calls : List (Registration σ)) (call : Registration σ) :
    liveServlet uri (calls ++ [call]) = (saysOf uri call).getD (liveServlet uri calls) := by
  unfold liveServlet
  rw [List.reverse_append, List.reverse_singleton, List.singleton_append, List.findSome?_cons]
  cases saysOf uri call <;> rfl

/-- A further call takes the pattern that it mentions out. -/
theorem liveGlobs_concat (calls : List (Registration σ)) (call : Registration σ) :
    liveGlobs (calls ++ [call]) =
      ((liveGlobs calls).filter fun it => !mentionsGlob it.1 call) ++ liveGlobs [call] := by
  induction calls with
  | nil => rfl
  | cons c calls ih =>
    cases c with
    | addGlobServlet uri slt =>
      simp only [List.cons_append, liveGlobs, List.any_append, List.any_cons, List.any_nil,
        Bool.or_false, ih]
      cases hlater : calls.any (mentionsGlob uri) <;> cases hcall : mentionsGlob uri call <;>
        simp [hcall]
    | _ => exact ih

theorem liveGlobs_mentioned {uri : Bytes} {slt : σ} {calls : List (Registration σ)}
    (h : (uri, slt) ∈ liveGlobs calls) : calls.any (mentionsGlob uri) = true := by
  induction calls with
  | nil => exact absurd h List.not_mem_nil
  | cons c calls ih =>
    rw [List.any_cons, Bool.or_eq_true]
    cases c with
    | addGlobServlet u s =>
      unfold liveGlobs at h
      split at h
      · exact .inr (ih h)
      · rcases List.mem_cons.mp h with heq | h
        · exact .inl (decide_eq_true (congrArg Prod.fst heq).symm)
        · exact .inr (ih h)
    | _ => exact .inr (ih h)

/-- A pattern is live once. -/
theorem nodup_liveGlobs (calls : List (Registration σ)) :
    ((liveGlobs calls).map Prod.fst).Nodup := by
  induction calls with
  | nil => exact List.nodup_nil
  | cons c calls ih =>
    cases c with
    | addGlobServlet uri slt =>
      unfold liveGlobs
      split
      · exact ih
      · rename_i hlater
        rw [List.map_cons, List.nodup_cons]
        refine ⟨fun hmem => ?_, ih⟩
        obtain ⟨⟨u, s⟩, hlive, rfl⟩ := List.mem_map.mp hmem
        exact hlater (liveGlobs_mentioned hlive)
    | _ => exact ih

end Registration

/-! ## The dispatcher follows the calls -/

namespace ServletDispatch

open Registration

/-- Where no pattern is there twice, all entries of the pattern are erased. -/
theorem eraseGlob_eq_filter {uri : Bytes} {m_globs : List (Bytes × σ)}
    (h : (m_globs.map Prod.fst).Nodup) :
    eraseGlob uri m_globs = m_globs.filter fun it => !decide (uri = it.1) := by
  unfold eraseGlob
  induction m_globs with
  | nil => rfl
  | cons it m_globs ih =>
    rw [List.map_cons, List.nodup_cons] at h
    by_cases hit : it.1 = uri
    · have hrest : ∀ e ∈ m_globs, (!decide (uri = e.1)) = true := by
        intro e he
        rw [Bool.not_eq_true', decide_eq_false_iff_not]
        intro heq
        exact h.1 (List.mem_map.mpr ⟨e, he, heq.symm.trans hit.symm⟩)
      rw [List.eraseP_cons_of_pos (by simpa using hit),
        List.filter_cons_of_neg (by simp [hit]), List.filter_eq_self.mpr hrest]
    · rw [List.eraseP_cons_of_neg (by simpa using hit),
        List.filter_cons_of_pos (by simpa using Ne.symm hit), ih h.2]

theorem m_globs_register {s : ServletDispatch σ} (h : (s.m_globs.map Prod.fst).Nodup)
    (call : Registration σ) :
    (s.register call).m_globs =
      (s.m_globs.filter fun it => !mentionsGlob it.1 call) ++ liveGlobs [call] := by
  have hkeep : (s.m_globs.filter fun _ => !false) ++ [] = s.m_globs := by
    rw [List.append_nil]
    exact List.filter_eq_self.mpr fun _ _ => rfl
  cases call with
  | addGlobServlet uri slt =>
    show eraseGlob uri s.m_globs ++ [(uri, slt)] = _
    rw [eraseGlob_eq_filter h]
    rfl
  | delGlobServlet uri =>
    show eraseGlob uri s.m_globs = _
    rw [eraseGlob_eq_filter h]
    exact (List.append_nil _).symm
  | _ => exact hkeep.symm

theorem m_datas_register (s : ServletDispatch σ) (call : Registration σ) (uri : Bytes) :
    (s.register call).m_datas uri = (saysOf uri call).getD (s.m_datas uri) := by
  cases call with
  | addServlet u slt =>
    show (if uri = u then some slt else s.m_datas uri) =
      (if uri = u then some (some slt) else none).getD (s.m_datas uri)
    split <;> rfl
  | delServlet u =>
    show (if uri = u then none else s.m_datas uri) =
      (if uri = u then some none else none).getD (s.m_datas uri)
    split <;> rfl
  | _ => rfl

theorem m_default_register (s : ServletDispatch σ) (call : Registration σ) :
    (s.register call).m_default = s.m_default := by
  cases call <;> rfl

/-- The stores are what the calls have left live. -/
structure Registered (m_default : σ) (calls : List (Registration σ)) (s : ServletDispatch σ) :
    Prop where
  globs : s.m_globs = liveGlobs calls
  datas : ∀ uri, s.m_datas uri = liveServlet uri calls
  default : s.m_default = m_default

section

variable {m_default : σ} {calls : List (Registration σ)} {s : ServletDispatch σ}

theorem Registered.globs_nodup (h : Registered m_default calls s) :
    (s.m_globs.map Prod.fst).Nodup := by
  rw [h.globs]
  exact nodup_liveGlobs calls

theorem Registered.register (h : Registered m_default calls s) (call : Registration σ) :
    Registered m_default (calls ++ [call]) (s.register call) where
  globs := by rw [m_globs_register h.globs_nodup, liveGlobs_concat, h.globs]
  datas uri := by rw [m_datas_register, liveServlet_concat, h.datas]
  default := (m_default_register s call).trans h.default

/-- Deleting a pattern leaves no entry of it. -/
theorem Registered.delGlobServlet (h : Registered m_default calls s) (uri : Bytes) :
    uri ∉ (s.delGlobServlet uri).m_globs.map Prod.fst := by
  intro hmem
  obtain ⟨it, hit, heq⟩ := List.mem_map.mp hmem
  have hfilter : it ∈ s.m_globs.filter fun it => !decide (uri = it.1) :=
    eraseGlob_eq_filter h.globs_nodup ▸ hit
  have hne := (List.mem_filter.mp hfilter).2
  rw [heq, decide_eq_true rfl] at hne
  exact absurd hne (by decide)

theorem Registered.getMatchedServlet (h : Registered m_default calls s)
    (fnmatch : Bytes → Bytes → Bool) (uri : Bytes) :
    s.getMatchedServlet fnmatch uri =
      (liveServlet uri calls).getD
        (((liveGlobs calls).find? fun it => fnmatch (c_str it.1) (c_str uri)).elim m_default
          Prod.snd) := by
  unfold ServletDispatch.getMatchedServlet
  rw [h.globs, h.datas, h.default]
  cases liveServlet uri calls with
  | some mit => rfl
  | none => cases (liveGlobs calls).find? fun it => fnmatch (c_str it.1) (c_str uri) <;> rfl

end

theorem run_registered (m_default : σ) (calls : List (Registration σ)) :
    Registered m_default calls (run m_default calls) := by
  induction calls using List.reverseRecOn with
  | nil => exact ⟨rfl, fun _ => rfl, rfl⟩
  | append_singleton calls call ih =>
    unfold run
    rw [List.foldl_append]
    exact ih.register call

/-- After any calls the patterns are the live ones, each once, in the order of their last
registration; a deletion takes the whole pattern out; and a URI is routed to its own servlet, else
to the one of the earliest live pattern that accepts it, else to the default. -/
theorem run_routes (m_default : σ) (calls : List (Registration σ))
    (fnmatch : Bytes → Bytes → Bool) :
    ((run m_default calls).m_globs.map Prod.fst).Nodup ∧
    (run m_default calls).m_globs = liveGlobs calls ∧
    (∀ uri, uri ∉ ((run m_default calls).delGlobServlet uri).m_globs.map Prod.fst) ∧
    ∀ uri, (run m_default calls).getMatchedServlet fnmatch uri =
      (liveServlet uri calls).getD
        (((liveGlobs calls).find? fun it => fnmatch (c_str it.1) (c_str uri)).elim m_default
          Prod.snd) := by
  have h := run_registered m_default calls
  exact ⟨h.globs_nodup, h.globs, h.delGlobServlet, h.getMatchedServlet fnmatch⟩

end ServletDispatch

end Captain.Http
