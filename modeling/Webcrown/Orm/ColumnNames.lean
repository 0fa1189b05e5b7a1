import Webcrown.Orm.TableDefinition
import Webcrown.Sql.Columns

/-!
# The names under which columns are written and read

`create_table`, `insert` and `update` name a column as its attribute does, `select` and
`select_many` as the member is displayed. What the server and the client library read as
an identifier is a parameter.
-/

namespace Webcrown.Orm

open Common Sql

/-- A cell, with `none` for NULL. -/
abbrev Cell := Option ByteString

/-- `identifier` is the column that a name in a statement stands for, `fetched` the column for
which the client library searches under a name, `cell` what the server stores in a column for a
value. -/
structure Database (ι : Type*) where
  identifier : ByteString → ι
  fetched : ByteString → ι
  cell : ι → ByteString → Cell

def declaredNames (t : Reflected) : List ByteString := t.members.map fun m => m.column.name

def insertedNames (t : Reflected) : List ByteString :=
  (t.members.filter Query.namesColumn).map fun m => m.column.name

def insertedValues (t : Reflected) (value : Member → ByteString) : List ByteString :=
  (t.members.filter appendsValue).map value

/-- The assignments of `orm::update`. -/
def updatedItems (t : Reflected) (value : Member → Option ByteString) :
    List (ByteString × ByteString) :=
  t.members.filterMap fun m => (value m).map fun v => (m.column.name, v)

theorem update_eq (t : Reflected) (cond : ByteString) (value : Member → Option ByteString) :
    update t cond value = (Query.update t ++ (updatedItems t value).flatMap
      fun item => ascii "\n\t" ++ item.1 ++ ascii "=" ++ item.2 ++ ascii ",").dropLast ++
        ascii " " ++ cond := by
  rw [update, Query.accumulate, foldl_append_eq_flatMap, List.nil_append, updatedItems,
    List.filterMap_eq_flatMap_toList, List.flatMap_assoc]
  refine congrArg (fun item => (Query.update t ++ t.members.flatMap item).dropLast ++
    ascii " " ++ cond) (funext fun m => ?_)
  cases value m <;> simp

section Rows

variable {ι : Type*} [DecidableEq ι] (db : Database ι) (t : Reflected)

def columns : List ι := (declaredNames t).map db.identifier

/-- The cells of the members in a row of `SELECT *`, as `select` fetches them; it throws on a
name that no column has. -/
def selectRow (row : ι → Cell) : Option (List Cell) :=
  t.members.mapM fun m => fetch (columns db t) row (db.fetched m.displayName)

/-- `orm::select`: the first row of the result, if there is one. -/
def select (rows : List (ι → Cell)) : Option (Option (List Cell)) :=
  match rows with
  | [] => some none
  | row :: _ => (selectRow db t row).map some

def selectMany (rows : List (ι → Cell)) : Option (List (List Cell)) :=
  rows.mapM (selectRow db t)

/-- The row that the server stores for an insert, with its own cells in the other columns. It
refuses an insert that names more columns than it has values. -/
def insertRow (value : Member → ByteString) (others : ι → Cell) : Option (ι → Cell) :=
  if (insertedNames t).length = (insertedValues t value).length then
    some (assign (((insertedNames t).map db.identifier).zipWith (fun c v => (c, db.cell c v))
      (insertedValues t value)) others)
  else none

def updateRow (value : Member → Option ByteString) (row : ι → Cell) : ι → Cell :=
  assign ((updatedItems t value).map fun item =>
    (db.identifier item.1, db.cell (db.identifier item.1) item.2)) row

/-- The cells of the members' own columns in a row. -/
def ownCells (row : ι → Cell) : List Cell :=
  t.members.map fun m => row (db.identifier m.column.name)

/-- Reading finds every member: rows are read member by member from the members' own columns,
so an inserted row gives back the inserted values and an updated row the new ones. -/
structure FindsEvery : Prop where
  select : ∀ rows, select db t rows = some (rows.head?.map (ownCells db t))
  selectMany : ∀ rows, selectMany db t rows = some (rows.map (ownCells db t))
  inserted : ∀ value others row, insertRow db t value others = some row →
    selectRow db t row = some (t.members.map fun m =>
      if appendsValue m then db.cell (db.identifier m.column.name) (value m)
      else others (db.identifier m.column.name))
  updated : ∀ value row, selectRow db t (updateRow db t value row) =
    some (t.members.map fun m =>
      ((value m).map (db.cell (db.identifier m.column.name))).getD
        (row (db.identifier m.column.name)))

theorem fetch_own (row : ι → Cell) {m : Member} (hm : m ∈ t.members)
    (hname : db.fetched m.displayName = db.identifier m.column.name) :
    fetch (columns db t) row (db.fetched m.displayName) =
      some (row (db.identifier m.column.name)) := by
  have hmem : db.identifier m.column.name ∈ columns db t :=
    List.mem_map_of_mem (List.mem_map_of_mem hm)
  rw [fetch_eq, hname, if_pos hmem]

theorem mapM_eq_some_iff {α β : Type*} {f : α → Option β} {g : α → β} {xs : List α} :
    xs.mapM f = some (xs.map g) ↔ ∀ x ∈ xs, f x = some (g x) := by
  constructor
  · intro h
    have hall := forall₂_of_mapM h
    rw [List.forall₂_map_right_iff, List.forall₂_same] at hall
    exact hall
  · intro h
    induction xs with
    | nil => rfl
    | cons x xs ih =>
      rw [List.mapM_cons, h x (by simp), ih fun y hy => h y (by simp [hy])]
      rfl

/-- A row with an empty text in one column tells the column from all others. -/
theorem selectRow_iff :
    (∀ row, selectRow db t row = some (ownCells db t row)) ↔
      ∀ m ∈ t.members, db.fetched m.displayName = db.identifier m.column.name := by
  constructor
  · intro h m hm
    let row : ι → Cell := fun c => if c = db.identifier m.column.name then some [] else none
    have hcell := mapM_eq_some_iff.mp (h row) m hm
    rw [fetch_eq] at hcell
    split_ifs at hcell
    by_contra hne
    simp [row, hne] at hcell
  · intro h row
    exact mapM_eq_some_iff.mpr fun m hm => fetch_own db t row hm (h m hm)

/-- The lists of an insert that the server accepts are those of the same members. -/
theorem insertRow_own (hnodup : (columns db t).Nodup) {value : Member → ByteString}
    {others row : ι → Cell} (h : insertRow db t value others = some row) {m : Member}
    (hm : m ∈ t.members) :
    row (db.identifier m.column.name) =
      if appendsValue m then db.cell (db.identifier m.column.name) (value m)
      else others (db.identifier m.column.name) := by
  unfold insertRow at h
  split_ifs at h with hlength
  obtain rfl := Option.some.inj h
  have hsame : t.members.filter appendsValue = t.members.filter Query.namesColumn := by
    apply (sublist_namesColumn t).eq_of_length
    rw [insertedNames, insertedValues, List.length_map, List.length_map] at hlength
    exact hlength.symm
  rw [insertedNames, insertedValues, ← hsame, List.map_map, List.zipWith_map, List.zipWith_self]
  rw [columns, declaredNames, List.map_map] at hnodup
  exact assign_filter appendsValue
    (fun m => db.cell (db.identifier m.column.name) (value m)) others hnodup hm

theorem updateRow_own (hnodup : (columns db t).Nodup)
    (value : Member → Option ByteString) (row : ι → Cell) {m : Member} (hm : m ∈ t.members) :
    updateRow db t value row (db.identifier m.column.name) =
      ((value m).map (db.cell (db.identifier m.column.name))).getD
        (row (db.identifier m.column.name)) := by
  have hitems : (updatedItems t value).map (fun item =>
        (db.identifier item.1, db.cell (db.identifier item.1) item.2)) =
      (t.members.filter fun m => (value m).isSome).map fun m =>
        (db.identifier m.column.name,
          db.cell (db.identifier m.column.name) ((value m).getD [])) := by
    rw [updatedItems]
    induction t.members with
    | nil => rfl
    | cons m members ih => cases h : value m <;> simp [h, ih]
  rw [columns, declaredNames, List.map_map] at hnodup
  rw [updateRow, hitems]
  have hassign := assign_filter (fun m => (value m).isSome)
    (fun m => db.cell (db.identifier m.column.name) ((value m).getD [])) row hnodup hm
  refine hassign.trans ?_
  cases value m <;> rfl

/-- Reading finds every member exactly if every member is displayed under a name that is read
as its column. -/
theorem findsEvery_iff (hnodup : (columns db t).Nodup) : FindsEvery db t ↔
    ∀ m ∈ t.members, db.fetched m.displayName = db.identifier m.column.name := by
  rw [← selectRow_iff]
  constructor
  · intro h row
    have hselect := h.select [row]
    obtain ⟨cells, hcells, hsome⟩ := Option.map_eq_some_iff.mp hselect
    rw [hcells]
    exact hsome
  · intro h
    have hown := (selectRow_iff db t).mp h
    exact
      { select := by
          rintro (_ | ⟨row, rows⟩)
          · rfl
          · rw [select, h row]
            rfl
        selectMany := fun rows => mapM_eq_some_iff.mpr fun row _ => h row
        inserted := by
          intro value others row hrow
          rw [h row, ownCells]
          exact congrArg some (List.map_congr_left fun m hm => insertRow_own db t hnodup hrow hm)
        updated := by
          intro value row
          rw [h, ownCells]
          exact congrArg some
            (List.map_congr_left fun m hm => updateRow_own db t hnodup value row hm) }

end Rows

/-- Names that are not quoted are read in lower case by the server and by the client library. -/
def folding : Database ByteString where
  identifier := toLower
  fetched := toLower
  cell _ v := if v.head? = some 39 then some v.tail.dropLast else some v

def accounts (column : ByteString) : Reflected where
  table := ⟨ascii "accounts", []⟩
  members :=
    [⟨ascii "id", .int, ⟨ascii "id", .primarykey, 0, .primarykey, []⟩⟩,
      ⟨ascii "userName", .string, ⟨column, .text, -1, .none, []⟩⟩]

theorem findsEvery_iff_username : FindsEvery folding (accounts (ascii "username")) :=
  (findsEvery_iff folding (accounts (ascii "username")) (by decide +kernel)).mpr
    (by decide +kernel)

/-- The column `user_name` is created and written, but no row is read back from it. -/
theorem user_name_not_found :
    (Query.createTable (accounts (ascii "user_name"))).isSome ∧
      (Query.insert (accounts (ascii "user_name"))).isSome ∧
      select folding (accounts (ascii "user_name")) [fun _ => some (ascii "Ann")] = none ∧
      ¬ FindsEvery folding (accounts (ascii "user_name")) := by
  have hselect : select folding (accounts (ascii "user_name"))
      [fun _ => some (ascii "Ann")] = none := by decide +kernel
  refine ⟨by decide +kernel, by decide +kernel, hselect, fun h => ?_⟩
  have hfound := h.select [fun _ => some (ascii "Ann")]
  rw [hselect] at hfound
  cases hfound

end Webcrown.Orm
