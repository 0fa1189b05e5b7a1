import Webcrown.Orm.InsertColumns

/-!
# The definitions of a table

Each member is declared by one definition: the column name, the type and, for a
column without flags, its custom text. `create_table` writes them in the order of
the members with a comma between two of them.
-/

namespace Webcrown.Orm

open Common

/-- The type that the definition of a column names. -/
def columnType (c : Column) : ByteString :=
  match c.dataType with
  | .primarykey => ascii "bigserial PRIMARY KEY"
  | .bigint => ascii "bigint"
  | .bigserial => ascii "bigserial"
  | .boolean => ascii "boolean"
  | .charN => ascii "char[" ++ toStdString c.length ++ ascii "]"
  | .cidr => ascii "cidr"
  | .date => ascii "date"
  | .integer => ascii "integer"
  | .decimal => ascii "decimal"
  | .smallint => ascii "smallint"
  | .smallserial => ascii "smallserial"
  | .serial => ascii "serial"
  | .text => ascii "TEXT"
  | .timestamp => ascii "timestamp"
  | .time => ascii "time"

/-- The custom text of a column as it stands behind its type. A primary key and a
column with flags go without it. -/
def constraintText (c : Column) : ByteString :=
  if c.dataType ≠ .primarykey ∧ c.attributes = .none ∧ c.customDefinitionFlags ≠ [] then
    ascii " " ++ c.customDefinitionFlags
  else []

/-- The definition of a column. -/
def definition (c : Column) : ByteString :=
  c.name ++ ascii " " ++ columnType c ++ constraintText c

def tableEnd (t : Reflected) : ByteString :=
  if t.table.constraints = [] then ascii "\n);"
  else ascii ",\n" ++ t.table.constraints ++ ascii "\n);"

theorem fieldSpec_eq {c : Column} {asserted : Bool} {type spec : ByteString}
    (hkey : c.dataType ≠ .primarykey) (h : Query.fieldSpec c asserted type = some spec) :
    spec = c.name ++ ascii " " ++ type ++ constraintText c := by
  unfold Query.fieldSpec at h
  have happly : Query.shouldApplyCustomDefine c = true ↔
      c.dataType ≠ .primarykey ∧ c.attributes = .none ∧ c.customDefinitionFlags ≠ [] := by
    simp [Query.shouldApplyCustomDefine, hkey]
  rw [constraintText]
  split_ifs at h with _ hcustom
  · rw [if_pos (happly.mp hcustom), ← Option.some.inj h, List.append_assoc]
  · rw [if_neg fun hall => hcustom (happly.mpr hall), ← Option.some.inj h, List.append_nil]

/-- Fifteen data types, and one shape of their definitions. -/
theorem makeSqlFieldSpec_eq {m : Member} {spec : ByteString}
    (h : Query.makeSqlFieldSpec m = some spec) :
    spec = definition m.column := by
  rw [definition]
  unfold Query.makeSqlFieldSpec at h
  dsimp only at h
  split at h
  case h_1 htype =>
    split_ifs at h
    rw [← Option.some.inj h, columnType, constraintText, htype]
    simp only [ne_eq, not_true_eq_false, false_and, if_false, List.append_nil, List.append_assoc]
    rfl
  all_goals
    rename_i htype
    rw [fieldSpec_eq (by rw [htype]; decide) h, columnType, htype]

theorem forall₂_of_mapM {α β : Type*} {f : α → Option β} {xs : List α} {ys : List β}
    (h : xs.mapM f = some ys) : List.Forall₂ (fun x y => f x = some y) xs ys := by
  induction xs generalizing ys with
  | nil =>
    obtain rfl : ys = [] := by simpa using h.symm
    exact .nil
  | cons x xs ih =>
    rw [List.mapM_cons] at h
    obtain ⟨y, hy, htail⟩ := Option.bind_eq_some_iff.mp h
    obtain ⟨zs, hzs, hcons⟩ := Option.bind_eq_some_iff.mp htail
    obtain rfl := Option.some.inj hcons
    exact .cons hy (ih hzs)

theorem mapM_makeSqlFieldSpec {members : List Member} {specs : List ByteString}
    (h : members.mapM Query.makeSqlFieldSpec = some specs) :
    specs = members.map fun m => definition m.column := by
  have hall : List.Forall₂ (fun m spec => spec = definition m.column) members specs :=
    (forall₂_of_mapM h).imp fun m spec hspec => makeSqlFieldSpec_eq hspec
  clear h
  induction hall with
  | nil => rfl
  | cons hspec _ ih => rw [List.map_cons, ← hspec, ← ih]

/-- The definitions of a table with a comma between two of them, as the accumulation of
`create_table` leaves them. -/
theorem drop_flatMap_definition {members : List Member} (hne : members ≠ []) :
    ((members.map fun m => definition m.column).flatMap fun spec => ascii ",\n\t" ++ spec).drop 2 =
      ascii "\t" ++ (ascii ",\n\t").intercalate (members.map fun m => definition m.column) := by
  have hdrop (r : ByteString) : (ascii ",\n\t" ++ r).drop 2 = ascii "\t" ++ r := by
    rw [show ascii ",\n\t" = [44, 10] ++ ascii "\t" by decide]
    rfl
  rw [List.flatMap_map, flatMap_separator (ascii ",\n\t") (fun m => definition m.column) hne, hdrop]

/-- A table has exactly one definition for each member, in the order of the members and with a
comma between two of them: the column name and the type and, behind them, its custom text where
it is no primary key and carries no flag, and nothing else. -/
theorem createTable_declares {t : Reflected} {text : ByteString}
    (h : Query.createTable t = some text) :
    text = ascii "CREATE TABLE IF NOT EXISTS " ++ t.table.name ++ ascii " (\n\t" ++
      (ascii ",\n\t").intercalate (t.members.map fun m => definition m.column) ++ tableEnd t := by
  unfold Query.createTable at h
  by_cases hempty : t.members.isEmpty = true
  · rw [if_pos hempty] at h
    cases h
  rw [if_neg hempty] at h
  obtain ⟨specs, hspecs, htext⟩ := Option.map_eq_some_iff.mp h
  obtain rfl := mapM_makeSqlFieldSpec hspecs
  have hfields : (t.members.map fun m => definition m.column).foldl
        (fun acc spec => acc ++ ascii ",\n\t" ++ spec) [] =
      (t.members.map fun m => definition m.column).flatMap fun spec => ascii ",\n\t" ++ spec := by
    simp only [List.append_assoc]
    rw [foldl_append_eq_flatMap, List.nil_append]
  have hopen : ascii " (\n\t" = ascii " (\n" ++ ascii "\t" := by decide
  dsimp only at htext
  rw [hfields, drop_flatMap_definition (by simpa using hempty)] at htext
  rw [tableEnd, ← htext, hopen]
  by_cases hconstraints : t.table.constraints = []
  · simp [hconstraints]
  · simp [hconstraints, List.length_pos_iff]

def hiddenName (flags : ColumnFlags) : Reflected where
  table := ⟨ascii "users", []⟩
  members :=
    [⟨ascii "id", .int, ⟨ascii "id", .primarykey, -1, .primarykey, []⟩⟩,
      ⟨ascii "name", .string, ⟨ascii "name", .text, -1, flags, ascii "UNIQUE"⟩⟩]

theorem createTable_declares_unique :
    ascii "CREATE TABLE IF NOT EXISTS users (\n\tid bigserial PRIMARY KEY,\n\tname TEXT UNIQUE\n);"
      = ascii "CREATE TABLE IF NOT EXISTS " ++ (hiddenName .none).table.name ++ ascii " (\n\t" ++
        (ascii ",\n\t").intercalate
          ((hiddenName .none).members.map fun m => definition m.column) ++
        tableEnd (hiddenName .none) :=
  createTable_declares (t := hiddenName .none) (by decide +kernel)

/-- With a flag the same column is created without its constraint. -/
theorem hiddenName_not_unique :
    Query.createTable (hiddenName .ignoreOnSerializer) =
        some (ascii
          "CREATE TABLE IF NOT EXISTS users (\n\tid bigserial PRIMARY KEY,\n\tname TEXT\n);") ∧
      ¬ ascii "UNIQUE" <:+: ascii
        "CREATE TABLE IF NOT EXISTS users (\n\tid bigserial PRIMARY KEY,\n\tname TEXT\n);" := by
  decide +kernel

end Webcrown.Orm
