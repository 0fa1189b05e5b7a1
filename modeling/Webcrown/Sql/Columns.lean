import Mathlib

/-!
# Rows with named columns

A row gives every column a cell. Assignments write cells by the names of columns, and a
result row is read by name as well. What is read under a name is what was last assigned
to it.
-/

namespace Webcrown.Sql

variable {ι κ : Type*} [DecidableEq ι]

/-- The cell that a name finds in a result row: that of the first column of the name. -/
def fetch (columns : List ι) (row : ι → κ) (name : ι) : Option κ :=
  (columns.map fun c => (c, row c)).lookup name

/-- A row after assignments, of which the first to a column counts. -/
def assign (sets : List (ι × κ)) (row : ι → κ) : ι → κ := fun c => (sets.lookup c).getD (row c)

theorem fetch_eq (columns : List ι) (row : ι → κ) (name : ι) :
    fetch columns row name = if name ∈ columns then some (row name) else none := by
  unfold fetch
  induction columns with
  | nil => simp
  | cons c columns ih =>
    rw [List.map_cons, List.lookup_cons, ih]
    by_cases hc : name = c
    · simp [hc]
    · simp [hc, beq_eq_false_iff_ne.mpr hc]

section Assign

variable {α : Type*} {key : α → ι}

theorem lookup_map_of_mem (value : α → κ) {xs : List α} (hnodup : (xs.map key).Nodup) {x : α}
    (hx : x ∈ xs) : (xs.map fun y => (key y, value y)).lookup (key x) = some (value x) := by
  induction xs with
  | nil => cases hx
  | cons y xs ih =>
    rw [List.map_cons, List.nodup_cons] at hnodup
    rw [List.map_cons, List.lookup_cons]
    rcases List.mem_cons.mp hx with rfl | hx
    · rw [beq_self_eq_true]
    · have hne : key x ≠ key y := fun h => hnodup.1 (h ▸ List.mem_map_of_mem hx)
      rw [beq_eq_false_iff_ne.mpr hne]
      exact ih hnodup.2 hx

theorem lookup_map_of_notMem (value : α → κ) {xs : List α} {c : ι} (hc : c ∉ xs.map key) :
    (xs.map fun y => (key y, value y)).lookup c = none := by
  rw [List.lookup_eq_none_iff]
  rintro p hp
  obtain ⟨y, hy, rfl⟩ := List.mem_map.mp hp
  exact bne_iff_ne.mpr fun h => hc (h ▸ List.mem_map_of_mem hy)

/-- Assignments to the columns of the members that pass a test, whose names are distinct. -/
theorem assign_filter (p : α → Bool) (value : α → κ) (row : ι → κ) {xs : List α}
    (hnodup : (xs.map key).Nodup) {x : α} (hx : x ∈ xs) :
    assign ((xs.filter p).map fun y => (key y, value y)) row (key x) =
      if p x then value x else row (key x) := by
  have hfilter : ((xs.filter p).map key).Nodup :=
    hnodup.sublist (List.filter_sublist.map key)
  unfold assign
  split_ifs with hp
  · rw [lookup_map_of_mem value hfilter (List.mem_filter.mpr ⟨hx, hp⟩), Option.getD_some]
  · rw [lookup_map_of_notMem value, Option.getD_none]
    intro hmem
    obtain ⟨y, hy, hkey⟩ := List.mem_map.mp hmem
    obtain ⟨hy, hpy⟩ := List.mem_filter.mp hy
    rw [List.inj_on_of_nodup_map hnodup hy hx hkey] at hpy
    exact hp hpy

end Assign

end Webcrown.Sql
