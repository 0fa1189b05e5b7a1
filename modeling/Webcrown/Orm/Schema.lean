import Webcrown.Common.Decimal

/-!
# Reflected types and the text that declares their tables

A reflected type is known by its table attribute and its members, each with a
column attribute. The static assertions reject a type at compile time; a text
that is not generated for that reason is `none`.
-/

namespace Webcrown.Orm

open Common

inductive DataType
  | primarykey
  | bigint
  | bigserial
  | boolean
  | charN
  | cidr
  | date
  | integer
  | decimal
  | smallint
  | smallserial
  | serial
  | text
  | timestamp
  | time
  deriving DecidableEq, Repr

/-- `ColumnFlags`, an enumeration over `uint8_t` whose values are combined bit by bit. -/
abbrev ColumnFlags := UInt8

namespace ColumnFlags

def none : ColumnFlags := 0
def primarykey : ColumnFlags := 1
def ignoreInsert : ColumnFlags := 2
def ignoreOnSerializer : ColumnFlags := 4

end ColumnFlags

def hasFlag (flags flag : ColumnFlags) : Bool := flags &&& flag != 0

structure Table where
  name : ByteString
  constraints : ByteString
  deriving DecidableEq

structure Column where
  name : ByteString
  dataType : DataType
  length : ℤ
  attributes : ColumnFlags
  customDefinitionFlags : ByteString
  deriving DecidableEq

/-- The types of members that the assertions and the overloads of `normalize_type` tell apart. -/
inductive MemberType
  | bool
  | short
  | int
  | long
  | otherIntegral (isSigned : Bool)
  | float
  | double
  | string
  | charPointer
  | yearMonthDay
  | timeOfDay
  | dateTime
  | enum
  | other
  deriving DecidableEq, Repr

namespace MemberType

def isIntegral : MemberType → Bool
  | .bool | .short | .int | .long | .otherIntegral _ => true
  | _ => false

def isText : MemberType → Bool
  | .string | .charPointer => true
  | _ => false

/-- A signed integer by `std::numeric_limits`, or an enumeration. -/
def isInteger : MemberType → Bool
  | .short | .int | .long | .otherIntegral true | .enum => true
  | _ => false

/-- `std::is_floating_point_v`. -/
def isFloatingPoint : MemberType → Bool
  | .float | .double => true
  | _ => false

end MemberType

structure Member where
  displayName : ByteString
  valueType : MemberType
  column : Column
  deriving DecidableEq

/-- `refl::type_descriptor` of a type with a `Table` attribute. -/
structure Reflected where
  table : Table
  members : List Member
  deriving DecidableEq

namespace Query

def shouldApplyCustomDefine (c : Column) : Bool :=
  c.attributes == ColumnFlags.none && !c.customDefinitionFlags.isEmpty

/-- The definition of a column of the given SQL type, if the static assertion holds. -/
def fieldSpec (c : Column) (asserted : Bool) (type : ByteString) : Option ByteString :=
  if asserted then
    if shouldApplyCustomDefine c then
      some (c.name ++ ascii " " ++ type ++ ascii " " ++ c.customDefinitionFlags)
    else some (c.name ++ ascii " " ++ type)
  else none

def makeSqlFieldSpec (m : Member) : Option ByteString :=
  let c := m.column
  let t := m.valueType
  match c.dataType with
  | .primarykey => if t.isIntegral then some (c.name ++ ascii " bigserial PRIMARY KEY") else none
  | .bigserial => fieldSpec c t.isIntegral (ascii "bigserial")
  | .text => fieldSpec c t.isText (ascii "TEXT")
  | .integer => fieldSpec c t.isInteger (ascii "integer")
  | .bigint => fieldSpec c (t == .long) (ascii "bigint")
  | .boolean => fieldSpec c (t == .bool) (ascii "boolean")
  | .charN => fieldSpec c (c.length != -1) (ascii "char[" ++ toStdString c.length ++ ascii "]")
  | .cidr => fieldSpec c t.isText (ascii "cidr")
  | .date => fieldSpec c (t == .yearMonthDay) (ascii "date")
  | .decimal => fieldSpec c t.isFloatingPoint (ascii "decimal")
  | .smallint => fieldSpec c (t == .short) (ascii "smallint")
  | .smallserial => fieldSpec c (t == .short) (ascii "smallserial")
  | .serial => fieldSpec c (t == .int) (ascii "serial")
  | .timestamp => fieldSpec c (t == .dateTime) (ascii "timestamp")
  | .time => fieldSpec c (t == .timeOfDay) (ascii "time")

/-- `util::accumulate` of texts: what each member appends. -/
def accumulate (members : List Member) (item : Member → ByteString) : ByteString :=
  members.foldl (fun acc m => acc ++ item m) []

/-- `query::create_table`. The first two bytes of the accumulated definitions are cut off, which
needs a member. -/
def createTable (t : Reflected) : Option ByteString :=
  if t.members.isEmpty then none
  else
    (t.members.mapM makeSqlFieldSpec).map fun specs =>
      let fields := (specs.foldl (fun acc spec => acc ++ ascii ",\n\t" ++ spec) []).drop 2
      if t.table.constraints.length > 0 then
        ascii "CREATE TABLE IF NOT EXISTS " ++ t.table.name ++ ascii " (\n" ++ fields ++
          ascii ",\n" ++ t.table.constraints ++ ascii "\n);"
      else
        ascii "CREATE TABLE IF NOT EXISTS " ++ t.table.name ++ ascii " (\n" ++ fields ++
          ascii "\n);"

def countsField (m : Member) : Bool :=
  !(hasFlag m.column.attributes .ignoreInsert ||
    (hasFlag m.column.attributes .primarykey || m.column.dataType == .primarykey))

def namesColumn (m : Member) : Bool :=
  if hasFlag m.column.attributes .ignoreInsert then false
  else if ColumnFlags.primarykey == m.column.attributes then false
  else true

def insert (t : Reflected) : Option ByteString :=
  let fieldsToInsert := t.members.foldl (fun acc m => if countsField m then acc + 1 else acc) 0
  if fieldsToInsert ≥ 1 then
    let fields := (accumulate t.members fun m =>
      if namesColumn m then ascii ",\n\t " ++ m.column.name else []).drop 2
    some (ascii "INSERT INTO " ++ t.table.name ++ ascii " (\n" ++ fields ++ ascii "\n) ")
  else none

/-- The placeholders of `query::insert<T, true>`: the number in each is `meta::get_index_member`,
the position of the member in the list of all members. -/
def placeHolders (members : List Member) : ByteString :=
  (members.zipIdx.foldl (fun acc (m, index) =>
    acc ++ if namesColumn m then ascii ",\n\t $" ++ decimal index else []) []).drop 2

/-- `query::insert<T, true>`, with its static assertion. A member with `ignore_insert` leaves
both lists as they are. -/
def insertPlaceHolders (t : Reflected) : Option ByteString :=
  let fieldsToInsert := t.members.foldl (fun acc m => if countsField m then acc + 1 else acc) 0
  if fieldsToInsert ≥ 1 then
    let fields := (accumulate t.members fun m =>
      if namesColumn m then ascii ",\n\t " ++ m.column.name else []).drop 2
    some (ascii "INSERT INTO " ++ t.table.name ++ ascii " (\n" ++ fields ++ ascii "\n) VALUES" ++
      ascii " (\n" ++ placeHolders t.members ++ ascii "\n)")
  else none

def select (t : Reflected) : ByteString := ascii "SELECT * FROM " ++ t.table.name ++ ascii " "

def update (t : Reflected) : ByteString := ascii "UPDATE " ++ t.table.name ++ ascii " SET "

end Query

def appendsValue (m : Member) : Bool :=
  !(hasFlag m.column.attributes .ignoreInsert || hasFlag m.column.attributes .primarykey)

/-- The text behind `VALUES (` in `orm::insert`, over the normalized values of the members. The
first byte of the accumulated values is cut off. -/
def valueList (t : Reflected) (value : Member → ByteString) : ByteString :=
  (Query.accumulate t.members fun m =>
    if appendsValue m then ascii ",\n\t" ++ value m else []).drop 1 ++ ascii "\n);"

/-- `orm::insert`, as the text that it executes. -/
def insert (t : Reflected) (value : Member → ByteString) : Option ByteString :=
  (Query.insert t).map fun front => front ++ ascii "VALUES (" ++ valueList t value

/-- `orm::update` from a map, as the text that it executes: `value` gives the normalized values
of the members that occur in the map. The last byte is cut off before the condition. -/
def update (t : Reflected) (cond : ByteString) (value : Member → Option ByteString) : ByteString :=
  let sets := Query.update t ++ Query.accumulate t.members fun m =>
    match value m with
    | some v => ascii "\n\t" ++ m.column.name ++ ascii "=" ++ v ++ ascii ","
    | none => []
  sets.dropLast ++ ascii " " ++ cond

end Webcrown.Orm
