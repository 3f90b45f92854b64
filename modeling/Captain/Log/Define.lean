import Captain.Log.Level
import Mathlib.Data.List.Nodup
import Mathlib.Data.String.Basic

/-!
# `LogDefine` (`captain/log.cpp`)

The configuration of a logger, and sets of them in the order of their names.
-/

namespace Captain

structure LogAppenderDefine where
  /-- 1 is a file, 2 is the standard output -/
  type : Int := 0
  level : LogLevel := .UNKNOW
  formatter : String := ""
  file : String := ""
  deriving DecidableEq, Repr

structure LogDefine where
  name : String
  level : LogLevel := .UNKNOW
  formatter : String := ""
  appenders : List LogAppenderDefine := []
  deriving DecidableEq, Repr

/-- `LogDefine::operator==`, which compares the appenders of `a` with themselves. -/
def LogDefine.eq (a b : LogDefine) : Bool :=
  a.name = b.name && a.level = b.level && a.formatter = b.formatter && a.appenders = a.appenders

theorem LogDefine.eq_iff {a b : LogDefine} :
    a.eq b = true ↔ a.name = b.name ∧ a.level = b.level ∧ a.formatter = b.formatter := by
  unfold LogDefine.eq
  simp only [Bool.and_eq_true, decide_eq_true_eq, and_true, and_assoc]

/-- A `std::set<LogDefine>`: `LogDefine::operator<` compares the names. -/
structure DefineSet where
  toList : List LogDefine
  sorted : toList.Pairwise fun a b => a.name < b.name

namespace DefineSet

def empty : DefineSet := ⟨[], .nil⟩

/-- `std::set::find`: the element that is neither less nor greater. -/
def find (set : DefineSet) (i : LogDefine) : Option LogDefine :=
  set.toList.find? fun j => ¬j.name < i.name ∧ ¬i.name < j.name

theorem names_nodup (set : DefineSet) : (set.toList.map LogDefine.name).Nodup := by
  rw [List.Nodup, List.pairwise_map]
  exact set.sorted.imp fun h => ne_of_lt h

theorem eq_of_name_eq (set : DefineSet) {a b : LogDefine} (ha : a ∈ set.toList)
    (hb : b ∈ set.toList) (h : a.name = b.name) : a = b :=
  List.inj_on_of_nodup_map set.names_nodup ha hb h

theorem same_iff {i j : LogDefine} : (¬j.name < i.name ∧ ¬i.name < j.name) ↔ j.name = i.name := by
  constructor
  · rintro ⟨hji, hij⟩
    exact le_antisymm (not_lt.mp hij) (not_lt.mp hji)
  · intro h
    rw [h]
    exact ⟨lt_irrefl _, lt_irrefl _⟩

theorem find_eq_some_iff (set : DefineSet) {i j : LogDefine} :
    set.find i = some j ↔ j ∈ set.toList ∧ j.name = i.name := by
  constructor
  · intro h
    exact ⟨List.mem_of_find?_eq_some h, same_iff.mp (by simpa using List.find?_some h)⟩
  · rintro ⟨hj, hname⟩
    cases hfind : set.find i with
    | none =>
      have hno := List.find?_eq_none.mp hfind j hj
      rw [decide_eq_true_iff] at hno
      exact absurd (same_iff.mpr hname) hno
    | some k =>
      have hk : k.name = i.name := same_iff.mp (by simpa using List.find?_some hfind)
      rw [set.eq_of_name_eq hj (List.mem_of_find?_eq_some hfind) (hname.trans hk.symm)]

theorem find_eq_none_iff (set : DefineSet) {i : LogDefine} :
    set.find i = none ↔ ∀ j ∈ set.toList, j.name ≠ i.name := by
  rw [Option.eq_none_iff_forall_ne_some]
  constructor
  · intro h j hj hname
    exact h j (set.find_eq_some_iff.mpr ⟨hj, hname⟩)
  · intro h j hj
    obtain ⟨hmem, hname⟩ := set.find_eq_some_iff.mp hj
    exact h j hmem hname

/-- The loop of `insert` over the elements in order. -/
def insertDefine (d : LogDefine) : List LogDefine → List LogDefine
  | [] => [d]
  | e :: l =>
    if d.name < e.name then d :: e :: l
    else if e.name < d.name then e :: insertDefine d l
    else e :: l

theorem mem_insertDefine {d e : LogDefine} {l : List LogDefine} (h : e ∈ insertDefine d l) :
    e = d ∨ e ∈ l := by
  induction l with
  | nil => exact .inl (List.mem_singleton.mp h)
  | cons f l ih =>
    unfold insertDefine at h
    split at h
    · exact List.mem_cons.mp h
    · split at h
      · rcases List.mem_cons.mp h with rfl | h
        · exact .inr List.mem_cons_self
        · exact (ih h).imp_right (List.mem_cons_of_mem _)
      · exact .inr h

theorem sorted_insertDefine (d : LogDefine) {l : List LogDefine}
    (h : l.Pairwise fun a b => a.name < b.name) :
    (insertDefine d l).Pairwise fun a b => a.name < b.name := by
  induction l with
  | nil => exact List.pairwise_singleton _ _
  | cons e l ih =>
    obtain ⟨he, hl⟩ := List.pairwise_cons.mp h
    unfold insertDefine
    split
    · rename_i hlt
      refine List.pairwise_cons.mpr ⟨?_, h⟩
      exact List.forall_mem_cons.mpr ⟨hlt, fun f hf => hlt.trans (he f hf)⟩
    · split
      · rename_i hlt
        refine List.pairwise_cons.mpr ⟨fun f hf => ?_, ih hl⟩
        rcases mem_insertDefine hf with rfl | hf
        · exact hlt
        · exact he f hf
      · exact h

/-- `std::set::insert`. -/
def insert (set : DefineSet) (d : LogDefine) : DefineSet :=
  ⟨insertDefine d set.toList, sorted_insertDefine d set.sorted⟩

/-- What comes after all elements is inserted at the end. -/
theorem insert_last (set : DefineSet) {d : LogDefine} (h : ∀ e ∈ set.toList, e.name < d.name) :
    (set.insert d).toList = set.toList ++ [d] := by
  show insertDefine d set.toList = _
  generalize set.toList = l at h
  induction l with
  | nil => rfl
  | cons e l ih =>
    obtain ⟨he, hl⟩ := List.forall_mem_cons.mp h
    unfold insertDefine
    rw [if_neg (lt_asymm he), if_pos he, ih hl]
    rfl

end DefineSet

end Captain
