import Webcrown.Orm.Schema

/-!
# The columns and the values of an insert

The column list leaves out a member whose flags are exactly `primarykey`, the value
list one whose flags contain it. The two lists belong to the same members where
`primarykey` stands alone or together with `ignore_insert`.
-/

namespace Webcrown.Orm

open Common

theorem foldl_append_eq_flatMap {α : Type*} (f : α → ByteString) (xs : List α) (init : ByteString) :
    xs.foldl (fun acc x => acc ++ f x) init = init ++ xs.flatMap f := by
  induction xs generalizing init with
  | nil => simp
  | cons x xs ih => rw [List.foldl_cons, ih, List.flatMap_cons, List.append_assoc]

theorem flatMap_if {α : Type*} (p : α → Bool) (f : α → ByteString) (xs : List α) :
    xs.flatMap (fun x => if p x then f x else []) = (xs.filter p).flatMap f := by
  induction xs with
  | nil => rfl
  | cons x xs ih => cases h : p x <;> simp [h, ih]

/-- Items that each bring their separator, in front of the first one too. -/
theorem flatMap_separator {α : Type*} (sep : ByteString) (f : α → ByteString) {xs : List α}
    (hne : xs ≠ []) : xs.flatMap (fun x => sep ++ f x) = sep ++ sep.intercalate (xs.map f) := by
  induction xs with
  | nil => exact absurd rfl hne
  | cons x xs ih =>
    cases xs with
    | nil => simp
    | cons y ys =>
      rw [List.flatMap_cons, ih (List.cons_ne_nil _ _)]
      simp only [List.map_cons, List.intercalate_cons_cons, List.append_assoc]

theorem separator_append_flatMap {α : Type*} (sep : ByteString) (f : α → ByteString)
    (xs : List α) : sep ++ xs.flatMap (fun x => f x ++ sep) =
      xs.flatMap (fun x => sep ++ f x) ++ sep := by
  induction xs with
  | nil => simp
  | cons x xs ih => simp only [List.flatMap_cons, List.append_assoc, ih]

theorem flatMap_terminator {α : Type*} (sep : ByteString) (f : α → ByteString) {xs : List α}
    (hne : xs ≠ []) : xs.flatMap (fun x => f x ++ sep) = sep.intercalate (xs.map f) ++ sep := by
  apply @List.append_cancel_left _ sep
  rw [separator_append_flatMap, flatMap_separator sep f hne, List.append_assoc]

theorem accumulate_if (p : Member → Bool) (f : Member → ByteString) (members : List Member) :
    Query.accumulate members (fun m => if p m then f m else []) = (members.filter p).flatMap f := by
  rw [Query.accumulate, foldl_append_eq_flatMap, List.nil_append, flatMap_if]

theorem insert_eq {t : Reflected} {value : Member → ByteString} {text : ByteString}
    (h : insert t value = some text) :
    text = ascii "INSERT INTO " ++ t.table.name ++ ascii " (\n" ++
      ((t.members.filter Query.namesColumn).flatMap
        fun m => ascii ",\n\t " ++ m.column.name).drop 2 ++ ascii "\n) VALUES (" ++
      ((t.members.filter appendsValue).flatMap fun m => ascii ",\n\t" ++ value m).drop 1 ++
      ascii "\n);" := by
  unfold insert Query.insert at h
  dsimp only at h
  split_ifs at h with hcount
  · rw [Option.map_some, Option.some.injEq, valueList, accumulate_if, accumulate_if] at h
    rw [← h, show ascii "\n) VALUES (" = ascii "\n) " ++ ascii "VALUES (" by decide]
    simp only [List.append_assoc]
  · cases h

/-- The two tests differ on the flags that contain `primarykey` beside another flag than
`ignore_insert`. -/
theorem namesColumn_eq_iff (m : Member) :
    Query.namesColumn m = appendsValue m ↔
      (hasFlag m.column.attributes .primarykey = true →
        hasFlag m.column.attributes .ignoreInsert = false →
        m.column.attributes = .primarykey) := by
  unfold Query.namesColumn appendsValue
  by_cases hkey : m.column.attributes = .primarykey
  · rw [hkey]
    decide
  · have hkey' : (ColumnFlags.primarykey == m.column.attributes) = false := by
      rw [beq_eq_false_iff_ne]
      exact fun h => hkey h.symm
    cases hasFlag m.column.attributes .primarykey <;>
      cases hasFlag m.column.attributes .ignoreInsert <;> simp [hkey, hkey']

theorem namesColumn_of_appendsValue {m : Member} (h : appendsValue m = true) :
    Query.namesColumn m = true := by
  have hflags := h
  rw [appendsValue, Bool.not_eq_true', Bool.or_eq_false_iff] at hflags
  rw [(namesColumn_eq_iff m).mpr, h]
  intro hkey
  rw [hflags.2] at hkey
  cases hkey

theorem sublist_namesColumn (t : Reflected) :
    (t.members.filter appendsValue).Sublist (t.members.filter Query.namesColumn) :=
  List.monotone_filter_right _ fun _ => namesColumn_of_appendsValue

theorem appendsValue_of_countsField {m : Member} (h : Query.countsField m = true) :
    appendsValue m = true := by
  unfold Query.countsField at h
  unfold appendsValue
  rw [Bool.not_eq_true', Bool.or_eq_false_iff, Bool.or_eq_false_iff] at h
  rw [Bool.not_eq_true', Bool.or_eq_false_iff]
  exact ⟨h.1, h.2.1⟩

theorem foldl_count_eq {α : Type*} (p : α → Bool) (xs : List α) (n : ℕ) :
    xs.foldl (fun acc x => if p x then acc + 1 else acc) n = n + xs.countP p := by
  induction xs generalizing n with
  | nil => simp
  | cons x xs ih =>
    cases h : p x with
    | false => simp [h, ih]
    | true =>
      simp [h, ih]
      omega

theorem exists_appendsValue {members : List Member}
    (h : members.foldl (fun acc m => if Query.countsField m then acc + 1 else acc) 0 ≥ 1) :
    ∃ m ∈ members, appendsValue m = true := by
  rw [foldl_count_eq, Nat.zero_add, ge_iff_le, List.one_le_countP_iff] at h
  obtain ⟨m, hm, hcounts⟩ := h
  exact ⟨m, hm, appendsValue_of_countsField hcounts⟩

theorem filter_appendsValue_ne_nil {t : Reflected} {front : ByteString}
    (h : Query.insert t = some front) : t.members.filter appendsValue ≠ [] := by
  unfold Query.insert at h
  dsimp only at h
  split_ifs at h with hcount
  obtain ⟨m, hm, happends⟩ := exists_appendsValue hcount
  exact List.ne_nil_of_mem (List.mem_filter.mpr ⟨hm, happends⟩)

theorem filter_eq_filter_iff {α : Type*} {p q : α → Bool} {xs : List α} :
    xs.filter p = xs.filter q ↔ ∀ x ∈ xs, p x = q x := by
  refine ⟨fun h x hx => ?_, List.filter_congr⟩
  have hmem : x ∈ xs.filter p ↔ x ∈ xs.filter q := by rw [h]
  rw [List.mem_filter, List.mem_filter, and_iff_right hx, and_iff_right hx] at hmem
  exact Bool.eq_iff_iff.mpr hmem

/-- The members whose columns are named are those whose values are appended, in the same order,
exactly if no inserted member carries `primarykey` beside another flag. -/
theorem columns_eq_values_iff (t : Reflected) :
    t.members.filter Query.namesColumn = t.members.filter appendsValue ↔
      ∀ m ∈ t.members, hasFlag m.column.attributes .primarykey = true →
        hasFlag m.column.attributes .ignoreInsert = false →
        m.column.attributes = .primarykey := by
  rw [filter_eq_filter_iff]
  exact forall₂_congr fun m _ => namesColumn_eq_iff m

def hiddenKey : Reflected where
  table := ⟨ascii "users", []⟩
  members :=
    [⟨ascii "id", .long, ⟨ascii "id", .bigserial, 0,
        ColumnFlags.primarykey ||| ColumnFlags.ignoreOnSerializer, []⟩⟩,
      ⟨ascii "name", .string, ⟨ascii "name", .text, -1, .none, []⟩⟩]

/-- `hiddenKey` compiles, and its insert names two columns for one value. -/
theorem hiddenKey_lists_differ :
    (Query.createTable hiddenKey).isSome ∧ (Query.insert hiddenKey).isSome ∧
      ¬ hiddenKey.members.filter Query.namesColumn = hiddenKey.members.filter appendsValue := by
  decide +kernel

end Webcrown.Orm
