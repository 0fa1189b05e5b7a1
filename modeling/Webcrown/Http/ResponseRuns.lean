import Webcrown.Bytes.Lines
import Webcrown.Http.ResponseEncoding

/-!
# Responses built more than once

`build` enters the length of the body under `Content-Length` and leaves it there, and
`add_header` keeps the first value. What a later `build` writes depends on every
call before it.
-/

namespace Webcrown.Http

open Bytes Common

/-- The header lines of a message, between its first line and the first empty one. -/
def headerLines (text : ByteString) : List ByteString :=
  ((lines cr lf text).drop 1).takeWhile fun line => line ≠ []

/-- The name in a header line, in front of its first colon. -/
def lineName (line : ByteString) : ByteString := line.takeWhile fun c => c ≠ colon

inductive ResponseCall
  | setStatus (status : HttpStatus)
  | addHeader (key value : ByteString)
  | setBody (body : ByteString)
  | build (order : IterationOrder)

namespace HttpResponse

def step (r : HttpResponse) : ResponseCall → HttpResponse
  | .setStatus status => r.setStatus status
  | .addHeader key value => r.addHeader key value
  | .setBody body => r.setBody body
  | .build order => (r.build order).2

def run (r : HttpResponse) (calls : List ResponseCall) : HttpResponse := calls.foldl step r

/-- `Content-Length` in some spelling. -/
def IsLengthName (key : ByteString) : Prop := toLower key = ascii "content-length"

instance : DecidablePred IsLengthName := fun key =>
  inferInstanceAs (Decidable (toLower key = ascii "content-length"))

/-- The text that is built has one `Content-Length` line, with the length of its body. -/
def Framed (order : IterationOrder) (r : HttpResponse) : Prop :=
  ∃ line, (headerLines (r.build order).1).filter (fun line => IsLengthName (lineName line)) =
      [line] ∧
    line = lineName line ++ ascii ": " ++ toDecimal r.body.length

/-- Every length that the map holds is that of the present body, under the one spelling. -/
def LengthFits (r : HttpResponse) : Prop :=
  ∀ k v, r.headers.lookup k = some v → IsLengthName (lineName k) →
    k = ascii "Content-Length" ∧ v = toDecimal r.body.length

/-- No name or value in the map runs over the end of its line. -/
def OneLineEach (r : HttpResponse) : Prop :=
  ∀ k v, r.headers.lookup k = some v → OneLine cr lf k ∧ OneLine cr lf v

section Lines

def fieldText (f : ByteString × ByteString) : ByteString := f.1 ++ ascii ": " ++ f.2

theorem lineName_fieldText (f : ByteString × ByteString) :
    lineName (fieldText f) = lineName f.1 := by
  obtain ⟨k, v⟩ := f
  have hstop : ascii ": " = [colon, sp] := by decide
  induction k with
  | nil => simp [lineName, fieldText, hstop]
  | cons c k ih =>
    simp only [lineName, fieldText, List.cons_append, List.takeWhile_cons] at ih ⊢
    split
    · exact congrArg (c :: ·) ih
    · rfl

theorem oneLine_fieldText {f : ByteString × ByteString} (hk : OneLine cr lf f.1)
    (hv : OneLine cr lf f.2) : OneLine cr lf (fieldText f) := by
  have hsp : OneLine cr lf ([] ++ sp :: f.2) :=
    OneLine.append_cons (by decide) hv (by decide) (by decide)
  have hall := hk.append_cons hsp (c := colon) (by decide) (by decide)
  rwa [fieldText, show ascii ": " = [colon, sp] by decide, List.append_assoc]

theorem oneLine_toDecimal (n : ℕ) : OneLine cr lf (toDecimal n) := by
  apply oneLine_of_notMem
  intro hcr
  have hprint := (print_decimal n).1 cr hcr
  revert hprint
  decide

theorem oneLine_contentLength : OneLine cr lf (ascii "Content-Length") := by
  decide +kernel

theorem oneLine_statusLine (status : HttpStatus) :
    ∃ line, OneLine cr lf line ∧ statusLine status = line ++ crlf := by
  refine ⟨_, ?_, rfl⟩
  cases status <;> decide +kernel

/-- The header lines that `build` writes are the entries of the map, if none of them runs over
the end of its line. -/
theorem headerLines_build {order : IterationOrder} {r : HttpResponse}
    (h : ∀ f ∈ writtenHeaders order r, OneLine cr lf f.1 ∧ OneLine cr lf f.2) :
    headerLines (r.build order).1 = (writtenHeaders order r).map fieldText := by
  have hne : cr ≠ lf := by decide
  obtain ⟨first, hfirst, hstatus⟩ := oneLine_statusLine r.status
  have hfields : ((writtenHeaders order r).map headerLine).flatten =
      (((writtenHeaders order r).map fieldText).map fun w => w ++ [cr, lf]).flatten := by
    rw [List.map_map]
    rfl
  have honce : ∀ w ∈ (writtenHeaders order r).map fieldText, OneLine cr lf w := by
    intro w hw
    obtain ⟨f, hf, rfl⟩ := List.mem_map.mp hw
    exact oneLine_fieldText (h f hf).1 (h f hf).2
  have hall : lines cr lf (r.build order).1 =
      first :: ((writtenHeaders order r).map fieldText ++ [] :: lines cr lf r.body) := by
    rw [build_eq, hstatus, hfields, List.append_assoc]
    refine (lines_append hne hfirst _).trans (congrArg (first :: ·) ?_)
    refine (lines_flatten hne honce (crlf ++ r.body)).trans (congrArg (_ ++ ·) ?_)
    exact lines_append hne (oneLine_of_notMem List.not_mem_nil) r.body
  rw [headerLines, hall, List.drop_one, List.tail_cons, List.takeWhile_append_of_pos]
  · simp
  · intro w hw
    obtain ⟨f, -, rfl⟩ := List.mem_map.mp hw
    have hcolon : ascii ": " ≠ [] := by decide
    simp [fieldText, hcolon]

end Lines

theorem isLengthName_contentLength : IsLengthName (lineName (ascii "Content-Length")) := by
  decide +kernel

theorem mem_writtenHeaders_of_body {r : HttpResponse} (order : IterationOrder)
    (hbody : r.body ≠ []) (k v : ByteString) :
    (k, v) ∈ writtenHeaders order r ↔
      (r.headers.lookup k).or
        (if k = ascii "Content-Length" then some (toDecimal r.body.length) else none) = some v := by
  rw [writtenHeaders, order.mem_entries, build]
  dsimp only
  rw [if_neg (by simpa using hbody), addHeader, Headers.lookup_insertNew]

theorem OneLineEach.written {order : IterationOrder} {r : HttpResponse} (h : r.OneLineEach) :
    ∀ f ∈ writtenHeaders order r, OneLine cr lf f.1 ∧ OneLine cr lf f.2 := by
  rintro ⟨k, v⟩ hf
  rw [writtenHeaders, order.mem_entries, build] at hf
  dsimp only at hf
  split_ifs at hf with hbody
  · exact h k v hf
  · rw [addHeader, Headers.lookup_insertNew] at hf
    cases hlookup : r.headers.lookup k with
    | some v' =>
      rw [hlookup, Option.some_or] at hf
      obtain rfl := Option.some.inj hf
      exact h k _ hlookup
    | none =>
      rw [hlookup, Option.none_or] at hf
      split_ifs at hf with hk
      obtain rfl := Option.some.inj hf
      rw [hk]
      exact ⟨oneLine_contentLength, oneLine_toDecimal _⟩

section Lengths

variable {order : IterationOrder} {r : HttpResponse}

/-- The entries of the map that `build` writes under some spelling of the name. -/
def writtenLengths (order : IterationOrder) (r : HttpResponse) : List (ByteString × ByteString) :=
  (writtenHeaders order r).filter fun f => IsLengthName (lineName f.1)

theorem mem_writtenLengths {f : ByteString × ByteString} :
    f ∈ writtenLengths order r ↔ f ∈ writtenHeaders order r ∧ IsLengthName (lineName f.1) := by
  rw [writtenLengths, List.mem_filter, decide_eq_true_iff]

theorem filter_headerLines (hlines : r.OneLineEach) :
    (headerLines (r.build order).1).filter (fun line => IsLengthName (lineName line)) =
      (writtenLengths order r).map fieldText := by
  rw [headerLines_build hlines.written, List.filter_map, writtenLengths]
  simp only [Function.comp_def, lineName_fieldText]

/-- The spelling of the source is always written. -/
theorem exists_writtenLength (order : IterationOrder) (hbody : r.body ≠ []) :
    ∃ w, (ascii "Content-Length", w) ∈ writtenLengths order r := by
  simp only [mem_writtenLengths, mem_writtenHeaders_of_body order hbody,
    isLengthName_contentLength, and_true]
  cases r.headers.lookup (ascii "Content-Length") with
  | none => exact ⟨_, by rw [if_pos trivial, Option.none_or]⟩
  | some w => exact ⟨w, by rw [Option.some_or]⟩

theorem LengthFits.writtenLengths (h : r.LengthFits) (order : IterationOrder)
    (hbody : r.body ≠ []) :
    writtenLengths order r = [(ascii "Content-Length", toDecimal r.body.length)] := by
  have hall : ∀ f ∈ HttpResponse.writtenLengths order r,
      f = (ascii "Content-Length", toDecimal r.body.length) := by
    rintro ⟨k, v⟩ hf
    obtain ⟨hwritten, hkey⟩ := mem_writtenLengths.mp hf
    rw [mem_writtenHeaders_of_body order hbody] at hwritten
    cases hlookup : r.headers.lookup k with
    | some v' =>
      rw [hlookup, Option.some_or, Option.some.injEq] at hwritten
      obtain ⟨rfl, rfl⟩ := h k v' hlookup hkey
      rw [hwritten]
    | none =>
      rw [hlookup, Option.none_or] at hwritten
      split_ifs at hwritten with hk
      · rw [hk, Option.some.inj hwritten]
  obtain ⟨w, hw⟩ := exists_writtenLength order hbody
  have hnodup : (HttpResponse.writtenLengths order r).Nodup := (order.nodup _).filter _
  have hreplicate := List.eq_replicate_of_mem hall
  rw [hreplicate, List.nodup_replicate] at hnodup
  rw [hreplicate, le_antisymm hnodup (List.length_pos_of_mem hw)]
  rfl

theorem framed_iff (hlines : r.OneLineEach) (hbody : r.body ≠ []) :
    Framed order r ↔ r.LengthFits := by
  have hname : lineName (ascii "Content-Length") = ascii "Content-Length" := by decide +kernel
  rw [Framed, filter_headerLines hlines]
  constructor
  · rintro ⟨line, hone, hline⟩ k v hlookup hkey
    obtain ⟨f, hf, rfl⟩ := List.map_eq_singleton_iff.mp hone
    obtain ⟨w, hw⟩ := exists_writtenLength order hbody
    rw [hf, List.mem_singleton] at hw
    rw [← hw, lineName_fieldText, hname, fieldText, List.append_cancel_left_eq] at hline
    have hwritten : (k, v) ∈ writtenHeaders order r :=
      (mem_writtenHeaders_of_body order hbody k v).mpr (by rw [hlookup, Option.some_or])
    have hentry := mem_writtenLengths.mpr ⟨hwritten, hkey⟩
    rw [hf, List.mem_singleton, ← hw] at hentry
    obtain ⟨rfl, rfl⟩ := Prod.mk.inj hentry
    exact ⟨rfl, hline⟩
  · intro hfits
    refine ⟨_, by rw [hfits.writtenLengths order hbody]; rfl, ?_⟩
    rw [lineName_fieldText, hname, fieldText]

end Lengths

/-- The lengths that calls enter, or try to, with the body there at first. -/
def enteredLengths : ByteString → List ResponseCall → List (ByteString × ByteString)
  | _, [] => []
  | body, .setStatus _ :: calls => enteredLengths body calls
  | body, .addHeader key value :: calls =>
    (if IsLengthName (lineName key) then [(key, value)] else []) ++ enteredLengths body calls
  | _, .setBody body :: calls => enteredLengths body calls
  | body, .build _ :: calls => lengthField body ++ enteredLengths body calls

/-- The calls enter the length under one spelling, and first the one of the body that they
leave. -/
def EntersLength (calls : List ResponseCall) : Prop :=
  (∀ f ∈ enteredLengths [] calls, f.1 = ascii "Content-Length") ∧
    ∀ f ∈ (enteredLengths [] calls).head?,
      f.2 = toDecimal (({} : HttpResponse).run calls).body.length

theorem isLengthName_of_mem_entered {body : ByteString} {calls : List ResponseCall}
    {f : ByteString × ByteString} (h : f ∈ enteredLengths body calls) :
    IsLengthName (lineName f.1) := by
  induction calls generalizing body with
  | nil => cases h
  | cons call calls ih =>
    cases call with
    | setStatus status => exact ih h
    | addHeader key value =>
      rw [enteredLengths] at h
      rcases List.mem_append.mp h with h | h
      · split_ifs at h with hname
        · obtain rfl := List.mem_singleton.mp h
          exact hname
        · cases h
      · exact ih h
    | setBody body' => exact ih h
    | build order =>
      rw [enteredLengths] at h
      rcases List.mem_append.mp h with h | h
      · unfold lengthField at h
        split_ifs at h
        · cases h
        · obtain rfl := List.mem_singleton.mp h
          exact isLengthName_contentLength
      · exact ih h

/-- Of the lengths the first one entered under a spelling is kept, through all calls. -/
theorem lookup_run {k : ByteString} (hk : IsLengthName (lineName k)) (calls : List ResponseCall)
    (r : HttpResponse) :
    (r.run calls).headers.lookup k = (r.headers.lookup k).or
      (((enteredLengths r.body calls).find? fun f => f.1 == k).map Prod.snd) := by
  induction calls generalizing r with
  | nil => simp [run, enteredLengths]
  | cons call calls ih =>
    have hrun : r.run (call :: calls) = (r.step call).run calls := rfl
    rw [hrun, ih]
    cases call with
    | setStatus status => rfl
    | addHeader key value =>
      simp only [step, addHeader, enteredLengths, Headers.lookup_insertNew, Option.or_assoc,
        List.find?_append]
      by_cases hkey : k = key
      · subst hkey
        simp [hk]
      · have hne : (key == k) = false := by simpa using Ne.symm hkey
        rw [if_neg hkey, Option.none_or]
        split_ifs <;> simp [hne]
    | setBody body => rfl
    | build order =>
      simp only [step, build, enteredLengths, lengthField, List.find?_append]
      split_ifs with hempty
      · simp
      · simp only [addHeader, Headers.lookup_insertNew, Option.or_assoc]
        by_cases hkey : k = ascii "Content-Length"
        · simp [hkey]
        · have hne : (ascii "Content-Length" == k) = false := by simpa using Ne.symm hkey
          simp [hkey, hne]

theorem lengthFits_run_iff (calls : List ResponseCall) :
    (({} : HttpResponse).run calls).LengthFits ↔ EntersLength calls := by
  have hlookup : ∀ k, IsLengthName (lineName k) → (({} : HttpResponse).run calls).headers.lookup k =
      ((enteredLengths [] calls).find? fun f => f.1 == k).map Prod.snd := by
    intro k hk
    rw [lookup_run hk, Finmap.lookup_empty, Option.none_or]
  constructor
  · intro hfits
    have hkept : ∀ f ∈ enteredLengths [] calls, ∃ v,
        ((enteredLengths [] calls).find? fun g => g.1 == f.1).map Prod.snd = some v := by
      intro f hf
      cases hfind : (enteredLengths [] calls).find? fun g => g.1 == f.1 with
      | none => simpa using List.find?_eq_none.mp hfind f hf
      | some g => exact ⟨g.2, rfl⟩
    refine ⟨fun f hf => ?_, fun f hf => ?_⟩
    · obtain ⟨v, hv⟩ := hkept f hf
      have hname := isLengthName_of_mem_entered hf
      exact (hfits f.1 v (by rw [hlookup _ hname, hv]) hname).1
    · obtain ⟨fs, hfs⟩ := List.head?_eq_some_iff.mp hf
      have hname := isLengthName_of_mem_entered (f := f) (by rw [hfs]; simp)
      exact (hfits f.1 f.2 (by rw [hlookup _ hname, hfs]; simp) hname).2
  · rintro ⟨hspelling, hfirst⟩ k v hv hk
    rw [hlookup k hk] at hv
    obtain ⟨f, hfind, rfl⟩ := Option.map_eq_some_iff.mp hv
    have hkey : f.1 = k := by simpa using List.find?_some hfind
    have hcl := hspelling f (List.mem_of_find?_eq_some hfind)
    refine ⟨hkey.symm.trans hcl, hfirst f ?_⟩
    -- all spellings are the same, so the entry found is the first one
    cases hes : enteredLengths [] calls with
    | nil =>
      rw [hes] at hfind
      cases hfind
    | cons g gs =>
      have hg : g.1 = k := (hspelling g (by rw [hes]; simp)).trans (hcl.symm.trans hkey)
      rw [hes, List.find?_cons_of_pos (by simp [hg])] at hfind
      exact hfind

/-- No name or value that is given to `add_header` runs over the end of its line. -/
def KeepsLines (calls : List ResponseCall) : Prop :=
  ∀ key value, .addHeader key value ∈ calls → OneLine cr lf key ∧ OneLine cr lf value

theorem OneLineEach.addHeader {r : HttpResponse} (h : r.OneLineEach) {key value : ByteString}
    (hkey : OneLine cr lf key) (hvalue : OneLine cr lf value) :
    (r.addHeader key value).OneLineEach := by
  intro k v hv
  rw [HttpResponse.addHeader, Headers.lookup_insertNew] at hv
  cases hlookup : r.headers.lookup k with
  | some v' =>
    rw [hlookup, Option.some_or] at hv
    obtain rfl := Option.some.inj hv
    exact h k _ hlookup
  | none =>
    rw [hlookup, Option.none_or] at hv
    split_ifs at hv with hk
    obtain rfl := Option.some.inj hv
    exact ⟨hk ▸ hkey, hvalue⟩

theorem OneLineEach.run {r : HttpResponse} (h : r.OneLineEach) {calls : List ResponseCall}
    (hcalls : KeepsLines calls) : (r.run calls).OneLineEach := by
  induction calls generalizing r with
  | nil => exact h
  | cons call calls ih =>
    have hrest : KeepsLines calls := fun key value hmem => hcalls key value (by simp [hmem])
    refine ih (?_ : (r.step call).OneLineEach) hrest
    cases call with
    | setStatus status => exact h
    | addHeader key value =>
      obtain ⟨hkey, hvalue⟩ := hcalls key value List.mem_cons_self
      exact h.addHeader hkey hvalue
    | setBody body => exact h
    | build order =>
      simp only [step, build]
      split_ifs
      · exact h
      · exact h.addHeader oneLine_contentLength (oneLine_toDecimal _)

theorem framed_run_iff {calls : List ResponseCall} (hcalls : KeepsLines calls)
    {order : IterationOrder} (hbody : (({} : HttpResponse).run calls).body ≠ []) :
    Framed order (({} : HttpResponse).run calls) ↔ EntersLength calls := by
  have hempty : ({} : HttpResponse).OneLineEach := fun k v hv => by simp at hv
  rw [framed_iff (hempty.run hcalls) hbody, lengthFits_run_iff]

/-- All builds with a body are framed in a sequence of calls whose headers keep to their lines,
exactly when at each of them the calls before have entered the length under one spelling, and
first the right one. -/
theorem builds_framed_iff (calls : List ResponseCall) (hcalls : KeepsLines calls) :
    (∀ before order after, calls = before ++ .build order :: after →
      (({} : HttpResponse).run before).body ≠ [] →
        Framed order (({} : HttpResponse).run before)) ↔
    ∀ before order after, calls = before ++ .build order :: after →
      (({} : HttpResponse).run before).body ≠ [] → EntersLength before := by
  refine forall_congr' fun before => forall_congr' fun order => forall_congr' fun after =>
    forall_congr' fun hsplit => forall_congr' fun hbody => framed_run_iff ?_ hbody
  exact fun key value hmem => hcalls key value (by simp [hsplit, hmem])

section TwoBuilds

def oneBuildCalls : List ResponseCall :=
  [.addHeader (ascii "X") (ascii "1"), .setBody (ascii "a"), .build .byKey]

theorem builds_framed_iff_oneBuild : Framed .byKey (({} : HttpResponse).run
    [.addHeader (ascii "X") (ascii "1"), .setBody (ascii "a")]) := by
  refine (builds_framed_iff oneBuildCalls ?_).mpr ?_ _ .byKey [] rfl (by decide +kernel)
  · intro key value hmem
    obtain ⟨rfl, rfl⟩ : key = ascii "X" ∧ value = ascii "1" := by
      simpa [oneBuildCalls] using hmem
    decide
  · intro before order after hsplit _
    rcases before with _ | ⟨c, _ | ⟨d, _ | ⟨e, before⟩⟩⟩
    · cases hsplit
    · cases hsplit
    · obtain ⟨rfl, rfl⟩ : c = .addHeader (ascii "X") (ascii "1") ∧ d = .setBody (ascii "a") := by
        simp only [oneBuildCalls, List.cons_append, List.cons.injEq] at hsplit
        exact ⟨hsplit.1.symm, hsplit.2.1.symm⟩
      exact ⟨by decide +kernel, by decide +kernel⟩
    · simp [oneBuildCalls] at hsplit

/-- A second build with a longer body announces the length of the first one. -/
theorem second_build_not_framed :
    ¬ ∀ (calls : List ResponseCall), KeepsLines calls → ∀ before order after,
      calls = before ++ .build order :: after → (({} : HttpResponse).run before).body ≠ [] →
        Framed order (({} : HttpResponse).run before) := by
  intro hall
  have hframed := hall
    ([.setBody (ascii "a"), .build .byKey, .setBody (ascii "bc")] ++ [.build .byKey])
    (fun key value hmem => by simp at hmem) _ .byKey [] rfl (by decide +kernel)
  rw [framed_run_iff (fun key value hmem => by simp at hmem) (by decide +kernel)] at hframed
  have hfirst := hframed.2 (ascii "Content-Length", toDecimal 1) (by decide +kernel)
  revert hfirst
  decide +kernel

end TwoBuilds

end HttpResponse

end Webcrown.Http
