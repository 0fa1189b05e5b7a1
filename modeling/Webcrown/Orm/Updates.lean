import Webcrown.Orm.ColumnNames
import Webcrown.Orm.ValueRows

/-!
# The two ways to update

`orm::update` takes the new values as arguments or as a map of texts. The arguments
are searched once for each member, the texts are converted to the types of the members.
From two arguments on both send the same statement; with one argument the first does not
compile. `boost::lexical_cast` is a parameter, which throws where it gives no value.
-/

namespace Webcrown.Orm

open Common

abbrev Argument := ByteString × Value

/-- `std::tuple t(std::forward<Args>(args)...)`. One pair alone is deduced to be the tuple of its
two parts, from which no field can be taken. -/
def argumentTuple : List Argument → Option (List Argument)
  | [_] => none
  | args => some args

/-- `up_find_value`, with the text in `result_value`: the last argument of the field is left in
it. -/
def upFindValue (lib : DateLibrary) (fieldName : ByteString) :
    List Argument → ByteString → Option ByteString
  | [], resultValue => some resultValue
  | (fname, v) :: args, resultValue =>
    if fname = fieldName then
      (normalizeType lib v).bind fun nv => upFindValue lib fieldName args nv
    else upFindValue lib fieldName args resultValue

/-- What both updates append for a member. -/
def assignment (m : Member) (value : ByteString) : ByteString :=
  ascii "\n\t" ++ m.column.name ++ ascii "=" ++ value ++ ascii ","

/-- The end of both updates: the last byte is cut off. -/
def withCondition (sql cond : ByteString) : ByteString := sql.dropLast ++ ascii " " ++ cond

/-- `orm::update` from arguments, as the text that it executes. The assertion is that every
field is displayed by a member. -/
def updateArguments (lib : DateLibrary) (t : Reflected) (cond : ByteString)
    (args : List Argument) : Option ByteString :=
  (argumentTuple args).bind fun args =>
    if args.all fun arg => t.members.any fun m => m.displayName == arg.1 then
      (t.members.foldlM (fun sql m =>
        (upFindValue lib m.displayName args []).map fun res =>
          if res ≠ [] then sql ++ assignment m res else sql) (Query.update t)).map
        fun sql => withCondition sql cond
    else none

/-- `orm::update` from a map, as the text that it executes. -/
def updateMap (lexicalCast : MemberType → ByteString → Option Value) (lib : DateLibrary)
    (t : Reflected) (cond : ByteString) (data : ByteString → Option ByteString) :
    Option ByteString :=
  (t.members.foldlM (fun sql (m : Member) =>
    match data m.displayName with
    | none => some sql
    | some text => (lexicalCast m.valueType text).bind fun v =>
      (normalizeType lib v).map fun nv => sql ++ assignment m nv) (Query.update t)).map
    fun sql => withCondition sql cond

namespace Value

/-- The integers and strings that a member of the type can hold. -/
inductive Fits : Value → MemberType → Prop
  | short {v : ℤ} (h : -2 ^ 15 ≤ v ∧ v < 2 ^ 15) : Fits (.short v) .short
  | int {v : ℤ} (h : -2 ^ 31 ≤ v ∧ v < 2 ^ 31) : Fits (.int v) .int
  | long {v : ℤ} (h : -2 ^ 63 ≤ v ∧ v < 2 ^ 63) : Fits (.long v) .long
  | string (v : ByteString) : Fits (.string v) .string

/-- `std::to_string` of an integer, and a string itself. -/
def text : Value → ByteString
  | .short v | .int v | .long v => toStdString v
  | .string v => v
  | _ => []

end Value

/-- What the library's documentation says of the integers and the strings. -/
def Inverts (lexicalCast : MemberType → ByteString → Option Value) : Prop :=
  ∀ (v : Value) (type : MemberType), v.Fits type → lexicalCast type v.text = some v

/-- The map from each field to the text of its value. -/
def textOf (args : List Argument) (field : ByteString) : Option ByteString :=
  (args.lookup field).map Value.text

def assigned (lib : DateLibrary) (args : List Argument) (m : Member) : Option ByteString :=
  (args.lookup m.displayName).bind (normalizeType lib)

theorem toStdString_ne_nil (z : ℤ) : toStdString z ≠ [] := by
  unfold toStdString
  split_ifs
  · exact List.cons_ne_nil _ _
  · exact decimal_ne_nil _

theorem exists_normalizeType (lib : DateLibrary) {v : Value} {type : MemberType}
    (h : v.Fits type) : ∃ nv, normalizeType lib v = some nv ∧ nv ≠ [] := by
  cases h with
  | @short v h => exact ⟨_, rfl, toStdString_ne_nil v⟩
  | @int v h => exact ⟨_, rfl, toStdString_ne_nil v⟩
  | @long v h => exact ⟨_, rfl, toStdString_ne_nil v⟩
  | string v => exact ⟨_, rfl, by simp [show ascii "'" = [39] by decide]⟩

section Search

variable {lib : DateLibrary} {fieldName : ByteString} {args : List Argument}

theorem upFindValue_of_lookup_none (h : args.lookup fieldName = none) (result : ByteString) :
    upFindValue lib fieldName args result = some result := by
  induction args with
  | nil => rfl
  | cons arg args ih =>
    obtain ⟨fname, v⟩ := arg
    rw [List.lookup_eq_none_iff, List.forall_mem_cons] at h
    have hne : fname ≠ fieldName := fun he => by simp [he] at h
    rw [upFindValue, if_neg hne, ih (List.lookup_eq_none_iff.mpr h.2)]

/-- Where the fields are distinct, the last match is the only one. -/
theorem upFindValue_of_lookup_some {v : Value} {nv : ByteString}
    (hnodup : (args.map Prod.fst).Nodup) (h : args.lookup fieldName = some v)
    (hv : normalizeType lib v = some nv) (result : ByteString) :
    upFindValue lib fieldName args result = some nv := by
  induction args with
  | nil => cases h
  | cons arg args ih =>
    obtain ⟨fname, w⟩ := arg
    rw [List.map_cons, List.nodup_cons] at hnodup
    by_cases hname : fname = fieldName
    · subst hname
      rw [List.lookup_cons_self, Option.some.injEq] at h
      subst h
      have hrest : args.lookup fname = none := by
        rw [List.lookup_eq_none_iff]
        intro arg harg
        have hmem : arg.1 ∈ args.map Prod.fst := List.mem_map_of_mem harg
        have hne : fname ≠ arg.1 := fun he => hnodup.1 (he ▸ hmem)
        simpa using hne
      rw [upFindValue, if_pos rfl, hv, Option.bind_some, upFindValue_of_lookup_none hrest]
    · rw [List.lookup_cons, beq_false_of_ne (Ne.symm hname)] at h
      rw [upFindValue, if_neg hname, ih hnodup.2 h]

end Search

theorem foldlM_eq_accumulate {members : List Member}
    {step : ByteString → Member → Option ByteString} {item : Member → ByteString}
    (h : ∀ m ∈ members, ∀ sql, step sql m = some (sql ++ item m)) (init : ByteString) :
    members.foldlM step init = some (init ++ Query.accumulate members item) := by
  rw [Query.accumulate, foldl_append_eq_flatMap, List.nil_append]
  induction members generalizing init with
  | nil => simp
  | cons m members ih =>
    rw [List.foldlM_cons, h m List.mem_cons_self, Option.bind_eq_bind, Option.bind_some,
      ih fun m hm => h m (List.mem_cons_of_mem _ hm), List.flatMap_cons, List.append_assoc]

section Agreement

variable {lib : DateLibrary} {t : Reflected} {args : List Argument}

/-- The arguments of a call: distinct fields of the type, each with a value of the member's type. -/
structure Arguments (t : Reflected) (args : List Argument) : Prop where
  displayed : (t.members.map Member.displayName).Nodup
  ne_nil : args ≠ []
  distinct : (args.map Prod.fst).Nodup
  fits : ∀ arg ∈ args, ∃ m ∈ t.members, m.displayName = arg.1 ∧ arg.2.Fits m.valueType

theorem mem_of_lookup_eq_some {field : ByteString} {v : Value} (h : args.lookup field = some v) :
    (field, v) ∈ args := by
  obtain ⟨front, back, rfl, -⟩ := List.lookup_eq_some_iff.mp h
  simp

theorem Arguments.fits_member (h : Arguments t args) {m : Member} (hm : m ∈ t.members) {v : Value}
    (hv : args.lookup m.displayName = some v) : v.Fits m.valueType := by
  obtain ⟨m', hm', hname, hfits⟩ := h.fits _ (mem_of_lookup_eq_some hv)
  obtain rfl : m' = m := List.inj_on_of_nodup_map h.displayed hm' hm hname
  exact hfits

theorem Arguments.normalized (h : Arguments t args) (lib : DateLibrary) {m : Member}
    (hm : m ∈ t.members) {v : Value} (hv : args.lookup m.displayName = some v) :
    ∃ nv, normalizeType lib v = some nv ∧ nv ≠ [] ∧ assigned lib args m = some nv := by
  obtain ⟨nv, hnv, hne⟩ := exists_normalizeType lib (h.fits_member hm hv)
  exact ⟨nv, hnv, hne, by rw [assigned, hv, Option.bind_some, hnv]⟩

theorem assigned_of_lookup_none {m : Member} (h : args.lookup m.displayName = none) :
    assigned lib args m = none := by
  rw [assigned, h]
  rfl

theorem argumentTuple_eq_some (h : 2 ≤ args.length) : argumentTuple args = some args := by
  match args, h with
  | _ :: _ :: _, _ => rfl

/-- The search writes a member's text for those that the arguments name, if each has a normalized
text and none of these is empty. -/
theorem updateArguments_eq (hlength : 2 ≤ args.length) (hdistinct : (args.map Prod.fst).Nodup)
    (hdisplayed : ∀ arg ∈ args, ∃ m ∈ t.members, m.displayName = arg.1)
    (hassigned : ∀ m ∈ t.members, ∀ v, args.lookup m.displayName = some v →
      ∃ nv, normalizeType lib v = some nv ∧ nv ≠ [] ∧ assigned lib args m = some nv)
    (cond : ByteString) :
    updateArguments lib t cond args = some (update t cond (assigned lib args)) := by
  have hasserted : (args.all fun arg => t.members.any fun m => m.displayName == arg.1) = true := by
    rw [List.all_eq_true]
    intro arg harg
    obtain ⟨m, hm, hname⟩ := hdisplayed arg harg
    exact List.any_eq_true.mpr ⟨m, hm, beq_iff_eq.mpr hname⟩
  rw [updateArguments, argumentTuple_eq_some hlength, Option.bind_some, if_pos hasserted,
    foldlM_eq_accumulate]
  · rfl
  intro m hm sql
  cases hv : args.lookup m.displayName with
  | none =>
    rw [upFindValue_of_lookup_none hv, assigned_of_lookup_none hv]
    simp
  | some v =>
    obtain ⟨nv, hnv, hne, hassigned⟩ := hassigned m hm v hv
    rw [upFindValue_of_lookup_some hdistinct hv hnv, hassigned, Option.map_some, if_pos hne]
    rfl

theorem updateMap_eq {lexicalCast : MemberType → ByteString → Option Value}
    (hcast : Inverts lexicalCast) (h : Arguments t args) (cond : ByteString) :
    updateMap lexicalCast lib t cond (textOf args) =
      some (update t cond (assigned lib args)) := by
  rw [updateMap, foldlM_eq_accumulate]
  · rfl
  intro m hm sql
  cases hv : args.lookup m.displayName with
  | none =>
    rw [textOf, hv, assigned_of_lookup_none hv]
    simp
  | some v =>
    obtain ⟨nv, hnv, hne, hassigned⟩ := h.normalized lib hm hv
    have hback := hcast v m.valueType (h.fits_member hm hv)
    simp only [textOf, hv, Option.map_some, hback, Option.bind_some, hnv, hassigned]
    rfl

theorem updatedItems_ne_nil (hne : args ≠ [])
    (hdisplayed : ∀ arg ∈ args, ∃ m ∈ t.members, m.displayName = arg.1)
    (hassigned : ∀ m ∈ t.members, ∀ v, args.lookup m.displayName = some v →
      ∃ nv, normalizeType lib v = some nv ∧ nv ≠ [] ∧ assigned lib args m = some nv) :
    updatedItems t (assigned lib args) ≠ [] := by
  obtain ⟨arg, harg⟩ := List.exists_mem_of_ne_nil args hne
  obtain ⟨m, hm, hname⟩ := hdisplayed arg harg
  cases hv : args.lookup m.displayName with
  | none =>
    have hne := List.lookup_eq_none_iff.mp hv arg harg
    simp [hname] at hne
  | some v =>
    obtain ⟨nv, -, -, hassigned⟩ := hassigned m hm v hv
    refine List.ne_nil_of_mem (a := (m.column.name, nv)) (List.mem_filterMap.mpr ⟨m, hm, ?_⟩)
    rw [hassigned]
    rfl

/-- An update of the assignments, as one writes it. -/
def updateText (t : Reflected) (cond : ByteString) (items : List (ByteString × ByteString)) :
    ByteString :=
  ascii "UPDATE " ++ t.table.name ++ ascii " SET " ++
    (ascii ",").intercalate (items.map fun item => ascii "\n\t" ++ item.1 ++ ascii "=" ++ item.2) ++
    ascii " " ++ cond

theorem update_eq_updateText (t : Reflected) (cond : ByteString)
    {value : Member → Option ByteString} (hne : updatedItems t value ≠ []) :
    update t cond value = updateText t cond (updatedItems t value) := by
  have hlist := flatMap_terminator (ascii ",")
    (fun item : ByteString × ByteString => ascii "\n\t" ++ item.1 ++ ascii "=" ++ item.2) hne
  have hlast (s : ByteString) : (s ++ ascii ",").dropLast = s := by
    rw [show ascii "," = [44] by decide, List.dropLast_concat]
  rw [update_eq, hlist, ← List.append_assoc, hlast, updateText, Query.update]

end Agreement

def castText : MemberType → ByteString → Option Value
  | .short, s => some (.short (strtol s))
  | .int, s => some (.int (strtol s))
  | .long, s => some (.long (strtol s))
  | .string, s => some (.string s)
  | _, _ => none

theorem inverts_castText : Inverts castText := by
  intro v type h
  cases h with
  | short h | int h | long h =>
    rw [Value.text, castText, strtol_toStdString ⟨by omega, by omega⟩]
  | string v => rfl

def newValues : List Argument :=
  [(ascii "userName", .string (ascii "Ann")), (ascii "id", .int (-7))]

theorem arguments_newValues : Arguments (accounts (ascii "username")) newValues where
  displayed := by decide
  ne_nil := List.cons_ne_nil _ _
  distinct := by decide
  fits := by
    intro arg harg
    rcases List.mem_pair.mp harg with rfl | rfl
    · exact ⟨_, List.mem_cons_of_mem _ List.mem_cons_self, rfl, .string _⟩
    · exact ⟨_, List.mem_cons_self, rfl, .int ⟨by decide, by decide⟩⟩

def oneValue : List Argument := [(ascii "userName", .string (ascii "Ann"))]

theorem arguments_oneValue : Arguments (accounts (ascii "username")) oneValue where
  displayed := by decide
  ne_nil := List.cons_ne_nil _ _
  distinct := by decide
  fits := by
    intro arg harg
    obtain rfl := List.mem_singleton.mp harg
    exact ⟨_, List.mem_cons_of_mem _ List.mem_cons_self, rfl, .string _⟩

example : updateArguments calendar (accounts (ascii "username")) (ascii "WHERE id=1") newValues =
    some (ascii "UPDATE accounts SET \n\tid=-7,\n\tusername='Ann' WHERE id=1") := by
  decide +kernel

end Webcrown.Orm
