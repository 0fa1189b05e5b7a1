import Webcrown.Orm.ColumnNames

/-!
# The placeholders of an insert

PostgreSQL numbers the parameters of a statement from 1. The numbers in the generated
statement are positions of members, counted from 0 and with the members that the
statement leaves out.
-/

namespace Webcrown.Orm

open Common

/-- The insert of the named columns with these numbers in its placeholders. -/
def insertText (t : Reflected) (numbers : List ℕ) : ByteString :=
  ascii "INSERT INTO " ++ t.table.name ++ ascii " (\n\t " ++
    (ascii ",\n\t ").intercalate (insertedNames t) ++ ascii "\n) VALUES (\n\t " ++
    (ascii ",\n\t ").intercalate (numbers.map fun n => ascii "$" ++ decimal n) ++ ascii "\n)"

/-- A statement whose parameters can be bound: as many placeholders as columns, at least one,
numbered from 1. -/
def Bindable (t : Reflected) (text : ByteString) : Prop :=
  1 ≤ (insertedNames t).length ∧
    text = insertText t ((List.range (insertedNames t).length).map (· + 1))

/-- The positions of the members that are inserted, the first of `members` standing at `k`. -/
def positions (members : List Member) (k : ℕ) : List ℕ :=
  ((members.zipIdx k).filter fun item => Query.namesColumn item.1).map (·.2)

theorem length_positions (members : List Member) (k : ℕ) :
    (positions members k).length = (members.filter Query.namesColumn).length := by
  induction members generalizing k with
  | nil => rfl
  | cons m members ih =>
    have hrest := ih (k + 1)
    simp only [positions, List.length_map, List.zipIdx_cons, List.filter_cons] at hrest ⊢
    cases Query.namesColumn m <;> simp [hrest]

theorem placeHolders_eq (members : List Member) : Query.placeHolders members =
    ((positions members 0).flatMap fun n => ascii ",\n\t " ++ (ascii "$" ++ decimal n)).drop 2 := by
  have hitem : (fun (acc : ByteString) (item : Member × ℕ) =>
      acc ++ if Query.namesColumn item.1 then ascii ",\n\t $" ++ decimal item.2 else []) =
      fun acc item => acc ++ if Query.namesColumn item.1 then
        ascii ",\n\t " ++ (ascii "$" ++ decimal item.2) else [] := by
    rw [show ascii ",\n\t $" = ascii ",\n\t " ++ ascii "$" by decide]
    simp only [List.append_assoc]
  rw [Query.placeHolders, hitem, foldl_append_eq_flatMap, List.nil_append, flatMap_if, positions,
    List.flatMap_map]

theorem drop_separator (r : ByteString) : (ascii ",\n\t " ++ r).drop 2 = ascii "\t " ++ r := by
  rw [show ascii ",\n\t " = [44, 10] ++ ascii "\t " by decide]
  rfl

/-- A statement that compiles names a column, and its numbers are the positions of the members. -/
theorem insertPlaceHolders_eq {t : Reflected} {text : ByteString}
    (h : Query.insertPlaceHolders t = some text) :
    insertedNames t ≠ [] ∧ text = insertText t (positions t.members 0) := by
  unfold Query.insertPlaceHolders at h
  dsimp only at h
  split_ifs at h with hcount
  obtain ⟨m, hm, happends⟩ := exists_appendsValue hcount
  have hne : t.members.filter Query.namesColumn ≠ [] :=
    List.ne_nil_of_mem (List.mem_filter.mpr ⟨hm, namesColumn_of_appendsValue happends⟩)
  have hpositions : positions t.members 0 ≠ [] := by
    rw [← List.length_pos_iff, length_positions, List.length_pos_iff]
    exact hne
  refine ⟨fun hnil => hne (List.map_eq_nil_iff.mp hnil), ?_⟩
  rw [← Option.some.inj h, placeHolders_eq, accumulate_if,
    flatMap_separator (ascii ",\n\t ") (fun m => m.column.name) hne,
    flatMap_separator (ascii ",\n\t ") (fun n => ascii "$" ++ decimal n) hpositions,
    drop_separator, drop_separator, insertText, insertedNames,
    show ascii " (\n\t " = ascii " (\n" ++ ascii "\t " by decide,
    show ascii "\n) VALUES (\n\t " = ascii "\n) VALUES" ++ ascii " (\n" ++ ascii "\t " by decide]
  simp only [List.append_assoc]

theorem splitOn_flatMap {α : Type*} (d : UInt8) (f : α → ByteString) (hf : ∀ x, d ∉ f x)
    (xs : List α) : (xs.flatMap fun x => d :: f x).splitOn d = [] :: xs.map f := by
  rcases eq_or_ne xs [] with rfl | hne
  · exact List.splitOn_nil d
  · have hitems := flatMap_separator [d] f hne
    have hjoin : xs.flatMap (fun x => d :: f x) = [d].intercalate ([] :: xs.map f) := by
      rw [List.intercalate_cons_of_ne_nil (by simpa using hne)]
      exact hitems
    rw [hjoin]
    refine List.splitOn_intercalate d ?_ (List.cons_ne_nil _ _)
    intro l hl
    rcases List.mem_cons.mp hl with rfl | hl
    · exact List.not_mem_nil
    · obtain ⟨x, -, rfl⟩ := List.mem_map.mp hl
      exact hf x

theorem comma_notMem_placeHolder (n : ℕ) : 44 ∉ ascii "\n\t " ++ (ascii "$" ++ decimal n) := by
  rw [List.mem_append, List.mem_append, not_or, not_or]
  refine ⟨by decide, by decide, fun h => ?_⟩
  exact absurd (isDigit_of_mem_decimal h) (by decide)

theorem insertText_inj {t : Reflected} {ns ks : List ℕ} (hns : ns ≠ []) (hks : ks ≠ [])
    (h : insertText t ns = insertText t ks) : ns = ks := by
  let item (n : ℕ) : ByteString := ascii "\n\t " ++ (ascii "$" ++ decimal n)
  have hlist (l : List ℕ) (hl : l ≠ []) : l.flatMap (fun n => 44 :: item n) = ascii ",\n\t " ++
      (ascii ",\n\t ").intercalate (l.map fun n => ascii "$" ++ decimal n) := by
    rw [← flatMap_separator (ascii ",\n\t ") (fun n => ascii "$" ++ decimal n) hl,
      show ascii ",\n\t " = 44 :: ascii "\n\t " by decide]
    rfl
  have hcut := List.append_cancel_left (List.append_cancel_right h)
  have hitems : ns.flatMap (fun n => 44 :: item n) = ks.flatMap fun n => 44 :: item n := by
    rw [hlist ns hns, hlist ks hks, hcut]
  have hsplit := congrArg (List.splitOn 44) hitems
  rw [splitOn_flatMap 44 item comma_notMem_placeHolder,
    splitOn_flatMap 44 item comma_notMem_placeHolder, List.cons.injEq] at hsplit
  refine List.map_injective_iff.mpr (fun n k hnk => ?_) hsplit.2
  exact decimal_injective (List.append_cancel_left (List.append_cancel_left hnk))

theorem positions_cons (m : Member) (members : List Member) (k : ℕ) :
    positions (m :: members) k =
      if Query.namesColumn m then k :: positions members (k + 1)
      else positions members (k + 1) := by
  rw [positions, List.zipIdx_cons, List.filter_cons]
  split_ifs <;> rfl

theorem le_of_mem_positions {members : List Member} {k n : ℕ} (h : n ∈ positions members k) :
    k ≤ n := by
  induction members generalizing k with
  | nil => exact absurd h List.not_mem_nil
  | cons m members ih =>
    rw [positions_cons] at h
    split_ifs at h
    · rcases List.mem_cons.mp h with rfl | h
      · exact le_rfl
      · exact (Nat.le_succ k).trans (ih h)
    · exact (Nat.le_succ k).trans (ih h)

/-- The positions from `k` on are consecutive exactly if all members behind the first one that
is left out are left out too. -/
theorem positions_eq_iff (members : List Member) (k n : ℕ) :
    positions members k = List.range' k n ↔
      ∃ j, members.map Query.namesColumn = List.replicate n true ++ List.replicate j false := by
  induction members generalizing k n with
  | nil =>
    cases n with
    | zero => exact ⟨fun _ => ⟨0, rfl⟩, fun _ => rfl⟩
    | succ n => simp [positions, List.range'_succ, List.replicate_succ]
  | cons m members ih =>
    rw [positions_cons, List.map_cons]
    cases hm : Query.namesColumn m with
    | true =>
      cases n with
      | zero =>
        rw [if_pos rfl]
        constructor
        · exact fun h => absurd h (List.cons_ne_nil _ _)
        · rintro ⟨j, hj⟩
          cases j <;> simp [List.replicate_succ] at hj
      | succ n =>
        rw [if_pos rfl, List.range'_succ, List.cons.injEq, and_iff_right rfl, ih]
        simp [List.replicate_succ]
    | false =>
      rw [if_neg Bool.false_ne_true]
      cases n with
      | zero =>
        have hrest := ih (k + 1) 0
        rw [List.range'_zero] at hrest ⊢
        rw [hrest]
        constructor
        · rintro ⟨j, hj⟩
          exact ⟨j + 1, by rw [hj]; rfl⟩
        · rintro ⟨j, hj⟩
          cases j with
          | zero => exact absurd hj (List.cons_ne_nil _ _)
          | succ j => exact ⟨j, List.tail_eq_of_cons_eq hj⟩
      | succ n =>
        constructor
        · intro h
          have hmem : k ∈ positions members (k + 1) := by
            rw [h, List.range'_succ]
            exact List.mem_cons_self
          exact absurd (le_of_mem_positions hmem) (by omega)
        · rintro ⟨j, hj⟩
          exact absurd (List.head_eq_of_cons_eq hj) Bool.false_ne_true

/-- The first member is left out, those behind it are inserted up to some place, and none is
inserted from there on. -/
def Leads (t : Reflected) : Prop :=
  ∃ n j, t.members.map Query.namesColumn =
    false :: (List.replicate n true ++ List.replicate j false)

/-- The placeholders are `$1` to `$n` exactly if one member stands in front of the inserted ones
and none between them. -/
theorem bindable_iff {t : Reflected} {text : ByteString}
    (h : Query.insertPlaceHolders t = some text) : Bindable t text ↔ Leads t := by
  obtain ⟨hnames, rfl⟩ := insertPlaceHolders_eq h
  have hlength := List.length_pos_iff.mpr hnames
  have hcount : (positions t.members 0).length = (insertedNames t).length := by
    rw [length_positions, insertedNames, List.length_map]
  have hrange : (List.range (insertedNames t).length).map (· + 1) =
      List.range' 1 (insertedNames t).length := by
    rw [List.range'_eq_map_range]
    exact List.map_congr_left fun n _ => Nat.add_comm n 1
  have hbindable : Bindable t (insertText t (positions t.members 0)) ↔
      positions t.members 0 = List.range' 1 (insertedNames t).length := by
    rw [Bindable, hrange, and_iff_right (by omega)]
    refine ⟨insertText_inj ?_ ?_, fun heq => by rw [heq]⟩
    · exact List.length_pos_iff.mp (by omega)
    · exact List.length_pos_iff.mp (by rw [List.length_range']; omega)
  rw [hbindable, Leads]
  generalize (insertedNames t).length = count at hlength hcount
  cases hmembers : t.members with
  | nil =>
    rw [hmembers] at hcount
    exact absurd hcount (Nat.ne_of_lt hlength)
  | cons m members =>
    rw [hmembers, positions_cons] at hcount
    rw [positions_cons, List.map_cons]
    cases hm : Query.namesColumn m with
    | true =>
      rw [if_pos rfl]
      constructor
      · intro heq
        have hzero : 0 ∈ List.range' 1 count := by
          rw [← heq]
          exact List.mem_cons_self
        exact absurd (List.mem_range'_1.mp hzero).1 (by omega)
      · rintro ⟨n, j, heq⟩
        exact absurd (List.head_eq_of_cons_eq heq).symm Bool.false_ne_true
    | false =>
      rw [hm, if_neg Bool.false_ne_true] at hcount
      rw [if_neg Bool.false_ne_true]
      simp only [List.cons.injEq, true_and]
      constructor
      · intro heq
        exact ⟨count, (positions_eq_iff members 1 count).mp heq⟩
      · rintro ⟨n, j, heq⟩
        have hpositions := (positions_eq_iff members 1 n).mpr ⟨j, heq⟩
        rw [hpositions, List.length_range'] at hcount
        rw [hpositions, hcount]

def keyedUsers : Reflected where
  table := ⟨ascii "users", []⟩
  members :=
    [⟨ascii "id", .long, ⟨ascii "id", .bigserial, 0, .primarykey, []⟩⟩,
      ⟨ascii "name", .string, ⟨ascii "name", .text, -1, .none, []⟩⟩,
      ⟨ascii "mail", .string, ⟨ascii "mail", .text, -1, .none, []⟩⟩,
      ⟨ascii "visits", .int, ⟨ascii "visits", .serial, 0, .ignoreInsert, []⟩⟩]

theorem bindable_iff_keyedUsers : Bindable keyedUsers
    (ascii "INSERT INTO users (\n\t name,\n\t mail\n) VALUES (\n\t $1,\n\t $2\n)") :=
  (bindable_iff (by decide +kernel)).mpr ⟨2, 1, by decide⟩

def tags : Reflected where
  table := ⟨ascii "tags", []⟩
  members := [⟨ascii "name", .string, ⟨ascii "name", .text, -1, .none, []⟩⟩]

theorem tags_not_bindable :
    Query.insertPlaceHolders tags =
        some (ascii "INSERT INTO tags (\n\t name\n) VALUES (\n\t $0\n)") ∧
      ¬ Bindable tags (ascii "INSERT INTO tags (\n\t name\n) VALUES (\n\t $0\n)") := by
  refine ⟨by decide +kernel, fun h => ?_⟩
  exact absurd h.2 (by decide +kernel)

end Webcrown.Orm
