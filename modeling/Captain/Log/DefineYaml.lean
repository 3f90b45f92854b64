import Captain.Log.Define
import Captain.Yaml

/-!
# `LexicalCast` of sets of `LogDefine` (`captain/log.cpp`)

The text between the two casts is the tree of its nodes.

* `fromYaml_toYaml_iff`: the set comes back exactly when all formatters of its loggers are empty,
  and its appenders are files without a level, or the standard output without anything else.
-/

namespace Captain

open YamlNode

namespace LogAppenderDefine

/-- The node of an appender in `LexicalCast<std::set<LogDefine>, std::string>`. -/
def toYaml (a : LogAppenderDefine) : YamlNode :=
  let na := null
  let na :=
    if a.type = 1 then
      (na.set "type" (scalar "FileLogAppender")).set "file" (scalar a.file)
    else if a.type = 2 then na.set "type" (scalar "StdoutLogAppender")
    else na
  let na := if a.level ≠ .UNKNOW then na.set "level" (scalar a.level.ToString) else na
  if a.formatter ≠ "" then na.set "formatter" (scalar a.formatter) else na

/-- A round of the loop over `n["appenders"]`; it adds no appender where it goes on. -/
def fromYaml (a : YamlNode) : Option (Option LogAppenderDefine) := do
  match ← a.get "type" with
  | none => return none
  | some type =>
    let type ← type.asString
    if type = "FileLogAppender" then
      match ← a.get "file" with
      | none => return none
      | some file =>
        return some
          { type := 1, file := ← file.asString, formatter := ← a.getString "formatter" }
    else if type = "StdoutLogAppender" then return some { type := 2 }
    else return none

end LogAppenderDefine

namespace LogDefine

/-- `n["appenders"].push_back(na)`. -/
def pushAppender (n : YamlNode) (a : LogAppenderDefine) : YamlNode :=
  n.set "appenders" ((((n.get "appenders").getD none).getD null).pushBack a.toYaml)

/-- The node of a define in `LexicalCast<std::set<LogDefine>, std::string>`. -/
def toYaml (i : LogDefine) : YamlNode :=
  let n := null.set "name" (scalar i.name)
  let n := if i.level ≠ .UNKNOW then n.set "level" (scalar i.level.ToString) else n
  let n := if i.formatter = "" then n.set "formatter" (scalar i.formatter) else n
  i.appenders.foldl pushAppender n

/-- A round of the loop over `n["appenders"]`. -/
def addAppender (appenders : List LogAppenderDefine) (a : YamlNode) :
    Option (List LogAppenderDefine) := do
  match ← LogAppenderDefine.fromYaml a with
  | none => return appenders
  | some lad => return appenders ++ [lad]

/-- The appenders of `n`, if `n["appenders"]` is defined. -/
def appendersFromYaml (n : YamlNode) : Option (List LogAppenderDefine) :=
  (n.get "appenders").bind fun appenders =>
    match appenders with
    | none => some []
    | some appenders => appenders.items.foldlM addAppender []

/-- The define of a node in `LexicalCast<std::string, std::set<LogDefine>>`; there is none where the
loop goes on. -/
def fromYaml (n : YamlNode) : Option (Option LogDefine) := do
  match ← n.get "name" with
  | none => return none
  | some name =>
    return some
      { name := ← name.asString
        level := .FromString (← n.getString "level")
        formatter := ← n.getString "formatter"
        appenders := ← appendersFromYaml n }

end LogDefine

namespace DefineSet

/-- `LexicalCast<std::set<LogDefine>, std::string>`. -/
def toYaml (v : DefineSet) : YamlNode :=
  v.toList.foldl (fun node i => node.pushBack i.toYaml) null

/-- A round of the loop in `LexicalCast<std::string, std::set<LogDefine>>`. -/
def insertFromYaml (vec : DefineSet) (n : YamlNode) : Option DefineSet := do
  match ← LogDefine.fromYaml n with
  | none => return vec
  | some ld => return vec.insert ld

/-- `LexicalCast<std::string, std::set<LogDefine>>`. -/
def fromYaml (node : YamlNode) : Option DefineSet := node.items.foldlM insertFromYaml empty

end DefineSet

/-! ## What comes back -/

/-- What comes back of an appender. -/
def LogAppenderDefine.kept (a : LogAppenderDefine) : Option LogAppenderDefine :=
  if a.type = 1 then some { type := 1, file := a.file, formatter := a.formatter }
  else if a.type = 2 then some { type := 2 }
  else none

/-- What comes back of a define. -/
def LogDefine.kept (i : LogDefine) : LogDefine :=
  { name := i.name, level := i.level, appenders := i.appenders.filterMap LogAppenderDefine.kept }

theorem LogAppenderDefine.fromYaml_toYaml (a : LogAppenderDefine) :
    fromYaml a.toYaml = some a.kept := by
  unfold toYaml kept fromYaml
  by_cases h1 : a.type = 1
  · by_cases hlevel : a.level = .UNKNOW <;> by_cases hformatter : a.formatter = "" <;>
      simp [h1, hlevel, hformatter, getString]
  · by_cases h2 : a.type = 2
    · by_cases hlevel : a.level = .UNKNOW <;> by_cases hformatter : a.formatter = "" <;>
        simp [h2, hlevel, hformatter]
    · by_cases hlevel : a.level = .UNKNOW <;> by_cases hformatter : a.formatter = "" <;>
        simp [h1, h2, hlevel, hformatter]

namespace LogDefine

theorem foldl_pushAppender (as : List LogAppenderDefine) {entries : List (String × YamlNode)}
    (h : lookup "appenders" entries = listed []) :
    ∃ entries', as.foldl pushAppender (map entries) = map entries' ∧
      (∀ k, k ≠ "appenders" → lookup k entries' = lookup k entries) ∧
      lookup "appenders" entries' = listed (as.map LogAppenderDefine.toYaml) := by
  have hfold := foldl_pushAt "appenders" (as.map LogAppenderDefine.toYaml) [] entries h
  rw [List.foldl_map] at hfold
  exact hfold

theorem foldlM_addAppender (as : List LogAppenderDefine) (appenders : List LogAppenderDefine) :
    (as.map LogAppenderDefine.toYaml).foldlM addAppender appenders =
      some (appenders ++ as.filterMap LogAppenderDefine.kept) := by
  induction as generalizing appenders with
  | nil => simp
  | cons a as ih =>
    rw [List.map_cons, List.foldlM_cons, addAppender, LogAppenderDefine.fromYaml_toYaml]
    cases hkept : a.kept with
    | none => simpa [hkept] using ih appenders
    | some lad => simpa [hkept] using ih (appenders ++ [lad])

theorem appendersFromYaml_map {entries : List (String × YamlNode)} {as : List LogAppenderDefine}
    (h : lookup "appenders" entries = listed (as.map LogAppenderDefine.toYaml)) :
    appendersFromYaml (map entries) = some (as.filterMap LogAppenderDefine.kept) := by
  unfold appendersFromYaml
  rw [get_map, h, listed]
  split
  · rename_i hnil
    rw [List.map_eq_nil_iff.mp hnil]
    rfl
  · exact foldlM_addAppender as []

theorem fromYaml_toYaml (i : LogDefine) : fromYaml i.toYaml = some (some i.kept) := by
  have hentries : ∃ entries, toYaml i = i.appenders.foldl pushAppender (map entries) ∧
      lookup "name" entries = some (scalar i.name) ∧
      lookup "level" entries =
        (if i.level = .UNKNOW then none else some (scalar i.level.ToString)) ∧
      lookup "formatter" entries = (if i.formatter = "" then some (scalar "") else none) ∧
      lookup "appenders" entries = listed [] := by
    unfold toYaml
    by_cases hlevel : i.level = .UNKNOW <;> by_cases hformatter : i.formatter = "" <;>
      exact ⟨_, by simp [hlevel, hformatter]; rfl, by simp [listed, hlevel, hformatter]⟩
  obtain ⟨entries, htoYaml, hname, hlevel, hformatter, happenders⟩ := hentries
  obtain ⟨entries', hfold, hkeep, happenders'⟩ := foldl_pushAppender i.appenders happenders
  have hlevel' : (map entries').getString "level" =
      some (if i.level = .UNKNOW then "" else i.level.ToString) := by
    unfold getString
    rw [get_map, hkeep "level" (by decide), hlevel]
    split <;> rfl
  have hformatter' : (map entries').getString "formatter" = some "" := by
    unfold getString
    rw [get_map, hkeep "formatter" (by decide), hformatter]
    split <;> rfl
  have hback :
      LogLevel.FromString (if i.level = .UNKNOW then "" else i.level.ToString) = i.level := by
    split
    · rename_i hunknow
      rw [hunknow]
      decide
    · exact LogLevel.FromString_ToString i.level
  rw [htoYaml, hfold]
  unfold fromYaml
  rw [get_map, hkeep "name" (by decide), hname]
  simp [hlevel', hformatter', hback, appendersFromYaml_map happenders', kept]

end LogDefine

/-! ## When everything comes back -/

theorem filterMap_eq_self_iff {α : Type*} (f : α → Option α) (l : List α) :
    l.filterMap f = l ↔ ∀ a ∈ l, f a = some a := by
  induction l with
  | nil => simp
  | cons a l ih =>
    rw [List.forall_mem_cons]
    cases hfa : f a with
    | none =>
      rw [List.filterMap_cons_none hfa]
      constructor
      · intro h
        have hlength := List.length_filterMap_le f l
        rw [h, List.length_cons] at hlength
        omega
      · rintro ⟨h, -⟩
        cases h
    | some b =>
      rw [List.filterMap_cons_some hfa, List.cons_eq_cons, ih, Option.some_inj]

theorem LogAppenderDefine.kept_eq_self_iff (a : LogAppenderDefine) : a.kept = some a ↔
    a.level = .UNKNOW ∧ (a.type = 1 ∨ a.type = 2 ∧ a.formatter = "" ∧ a.file = "") := by
  obtain ⟨type, level, formatter, file⟩ := a
  unfold kept
  by_cases h1 : type = 1
  · simp [h1, eq_comm]
  · by_cases h2 : type = 2
    · simp [h2, eq_comm]
    · simp [h1, h2]

theorem LogDefine.kept_eq_self_iff (i : LogDefine) : i.kept = i ↔
    i.formatter = "" ∧ ∀ a ∈ i.appenders, a.kept = some a := by
  obtain ⟨name, level, formatter, appenders⟩ := i
  unfold kept
  rw [LogDefine.mk.injEq, filterMap_eq_self_iff]
  simp [eq_comm]

namespace DefineSet

/-- The loop over the nodes of a set, which come in the order of the names. -/
theorem foldlM_insertFromYaml (l : List LogDefine) : ∀ set : DefineSet,
    (set.toList.map LogDefine.name ++ l.map LogDefine.name).Pairwise (· < ·) →
    ∃ set', (l.map LogDefine.toYaml).foldlM insertFromYaml set = some set' ∧
      set'.toList = set.toList ++ l.map LogDefine.kept := by
  induction l with
  | nil => exact fun set _ => ⟨set, rfl, (List.append_nil _).symm⟩
  | cons i l ih =>
    intro set hsorted
    have hbefore : ∀ e ∈ set.toList, e.name < i.kept.name := by
      intro e he
      exact (List.pairwise_append.mp hsorted).2.2 _ (List.mem_map_of_mem he) _ List.mem_cons_self
    have hinsert : insertFromYaml set i.toYaml = some (set.insert i.kept) := by
      unfold insertFromYaml
      rw [LogDefine.fromYaml_toYaml]
      rfl
    have hlist := set.insert_last hbefore
    obtain ⟨set', hset', hall⟩ := ih (set.insert i.kept) (by
      rw [hlist, List.map_append, List.append_assoc]
      exact hsorted)
    refine ⟨set', ?_, ?_⟩
    · rw [List.map_cons, List.foldlM_cons, hinsert]
      exact hset'
    · rw [hall, hlist, List.append_assoc]
      rfl

/-- What comes back of a set. -/
theorem fromYaml_toYaml (v : DefineSet) :
    ∃ v', fromYaml v.toYaml = some v' ∧ v'.toList = v.toList.map LogDefine.kept := by
  have hitems : v.toYaml.items = v.toList.map LogDefine.toYaml := by
    unfold toYaml
    rw [← List.foldl_map, items_foldl_pushBack]
  unfold fromYaml
  rw [hitems]
  apply foldlM_insertFromYaml v.toList
  show (v.toList.map LogDefine.name).Pairwise (· < ·)
  rw [List.pairwise_map]
  exact v.sorted

/-- A set comes back exactly when its loggers have no formatter, and its appenders no level; an
appender for the standard output has no formatter and no file either. -/
theorem fromYaml_toYaml_iff (v : DefineSet) : fromYaml v.toYaml = some v ↔
    ∀ i ∈ v.toList, i.formatter = "" ∧ ∀ a ∈ i.appenders, a.level = .UNKNOW ∧
      (a.type = 1 ∨ a.type = 2 ∧ a.formatter = "" ∧ a.file = "") := by
  obtain ⟨v', hv', hlist⟩ := fromYaml_toYaml v
  have heq : fromYaml v.toYaml = some v ↔ v.toList.map LogDefine.kept = v.toList := by
    rw [hv', Option.some_inj, ← hlist]
    exact ⟨fun h => congrArg _ h, fun h => by cases v; cases v'; cases h; rfl⟩
  rw [heq]
  simp only [← LogAppenderDefine.kept_eq_self_iff, ← LogDefine.kept_eq_self_iff]
  constructor
  · intro h
    exact List.map_inj_left.mp (h.trans (List.map_id _).symm)
  · intro h
    exact (List.map_congr_left h).trans (List.map_id _)

/-- The formatter of a logger is written only where it is empty. -/
theorem not_fromYaml_toYaml : ¬∀ v : DefineSet, fromYaml v.toYaml = some v := by
  intro hall
  obtain ⟨v', hv', hlist⟩ := fromYaml_toYaml ⟨[{ name := "a", formatter := "%m" }], by decide⟩
  rw [hall, Option.some_inj] at hv'
  rw [← hv'] at hlist
  revert hlist
  decide

end DefineSet

end Captain
