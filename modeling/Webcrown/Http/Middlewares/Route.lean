import Webcrown.Http.Message

/-!
# Routes

A route is a path pattern whose `:` segments bind parameters, together with the
values that the latest match attempt stored. Matching may throw, and it may have
stored values before it does, so it yields its verdict and the route it leaves.
-/

namespace Webcrown.Http

open Bytes Common

def slash : UInt8 := 47

/-- The byte at a position of a `std::string`, which a NUL ends. -/
def byteAt (s : ByteString) (k : ℕ) : UInt8 := s[k]?.getD 0

/-- `std::string(s.begin() + first, s.begin() + last)`. -/
def substring (s : ByteString) (first last : ℕ) : ByteString :=
  (s.drop first).take (last - first)

def startsWith (source start : ByteString) : Bool :=
  start.length ≤ source.length && source.take start.length == start

structure RouteParameter where
  name : ByteString
  value : ByteString
  bindPos : ℤ
  deriving DecidableEq

abbrev PathParameters := List RouteParameter

/-- The data of a `route`. Its callback and its context are known by the route's identity. -/
structure Route where
  path : ByteString
  uriTarget : ByteString
  method : HttpMethod
  pathParameters : PathParameters
  uriTarget_head : uriTarget.head? = some slash
  deriving DecidableEq

/-- The `std::runtime_error`s of `route::parse`. -/
inductive RouteError
  | notStartedWithSlash
  | empty
  deriving DecidableEq, Repr

/-- `std::out_of_range`, as `std::string::replace` throws it. -/
inductive OutOfRange
  | outOfRange
  deriving DecidableEq, Repr

section Parse

variable (path : ByteString)

/-- A slash with a `:` behind it. -/
def bindsAt (k : ℕ) : Bool := byteAt path k == slash && byteAt path (k + 1) == colon

/-- `route::extract_next_bind_key`, called with `it` on a `:`: the key, and `it` after it. -/
def extractNextBindKey (it : ℕ) : ByteString × ℕ :=
  let first := it + 1
  let last := path.length
  let next := scan (bindsAt path) last first
  if next < last then (substring path first next, next)
  else if byteAt path (last - 1) == slash then (substring path first (last - 1), last)
  else
    let stop := scan (fun k => byteAt path k == slash) last first
    (substring path first stop, stop)

/-- The loop of `route::parse` that collects the keys. Every turn moves `it`, so
`path.size()` turns are enough. `bind_pos` is an `int`. -/
def bindKeys : ℕ → ℕ → PathParameters
  | 0, _ => []
  | fuel + 1, it =>
    if path.length ≤ it then []
    else if byteAt path it == colon then
      let key := extractNextBindKey path it
      ⟨key.1, [], (it : ℤ).bmod (2 ^ 32)⟩ :: bindKeys fuel (key.2 + 1)
    else bindKeys fuel (it + 1)

end Parse

theorem startsWith_slash_iff {s : ByteString} :
    startsWith s [slash] = true ↔ s.head? = some slash := by
  cases s <;> simp [startsWith]

/-- Where the loop that looks for the first bound segment stops. -/
def uriTargetEnd (path : ByteString) : ℕ := scan (bindsAt path) path.length 1

theorem head?_substring_uriTargetEnd {path : ByteString} (h : startsWith path [slash] = true) :
    (substring path 0 (uriTargetEnd path)).head? = some slash := by
  rw [startsWith_slash_iff] at h
  have hpos : 0 < uriTargetEnd path := le_scan
  rw [substring, List.drop_zero, Nat.sub_zero, List.head?_take, if_neg hpos.ne', h]

/-- The constructors of `route`, which call `route::parse`. -/
def Route.make (method : HttpMethod) (path : ByteString) : Except RouteError Route :=
  if h : startsWith path [slash] = true then
    if path.isEmpty then .error .empty
    else
      let it := uriTargetEnd path
      .ok {
        path := path
        uriTarget := substring path 0 it
        method := method
        pathParameters := if it < path.length then bindKeys path path.length (it + 1) else []
        uriTarget_head := head?_substring_uriTargetEnd h }
  else .error .notStartedWithSlash

section Match

variable (target : ByteString)

/-- The loop that looks for the route's target in front of a slash, as the position behind
that slash. A slash that does not fit makes the loop pass over the byte behind it too. -/
def findBindingTarget (uriTarget : ByteString) : ℕ → ℕ → Option ℕ
  | 0, _ => none
  | fuel + 1, it =>
    if target.length ≤ it then none
    else if byteAt target it == slash then
      if substring target 0 it = uriTarget then some (it + 1)
      else findBindingTarget uriTarget fuel (it + 2)
    else findBindingTarget uriTarget fuel (it + 1)

/-- `find_next_path_parameter_value`: the value that starts at `it`, and where it ends. -/
def findNextPathParameterValue (it : ℕ) : ByteString × ℕ :=
  let stop := scan (fun k => byteAt target k == slash) target.length it
  (substring target it stop, stop)

/-- `full_path_binded.replace(key_pos - 1, name.length() + 1, value)` at the first occurrence of
the name. At position 0 the subtraction gives `npos`, which is behind the end of every string. -/
def replaceKey (full name value : ByteString) : Except OutOfRange ByteString :=
  match find name full with
  | none => .ok full
  | some 0 => .error .outOfRange
  | some (k + 1) => .ok (full.take k ++ value ++ full.drop (k + name.length + 1))

/-- The loop over the expected parameters, from `it` in the target on: the path with the values
in place of the keys, and the parameters with the values stored so far. -/
def bindValues : PathParameters → ℕ → ByteString → Except OutOfRange ByteString × PathParameters
  | [], _, full => (.ok full, [])
  | p :: ps, it, full =>
    let v := findNextPathParameterValue target it
    let p' := { p with value := v.1 }
    match replaceKey full p.name v.1 with
    | .error e => (.error e, p' :: ps)
    | .ok full' =>
      let it' := if byteAt target v.2 == slash then v.2 + 1 else v.2
      let b := bindValues ps it' full'
      (b.1, p' :: b.2)

end Match

/-- `route::is_match_with_target_request`: the verdict or the exception, and the route after
the call. -/
def Route.isMatchWithTargetRequest (r : Route) (target : ByteString) (method : HttpMethod) :
    Except OutOfRange Bool × Route :=
  if !startsWith target [slash] then (.ok false, r)
  else if target.isEmpty then (.ok false, r)
  else if method != r.method then (.ok false, r)
  else if target = r.uriTarget then (.ok true, r)
  else
    match findBindingTarget target r.uriTarget target.length 0 with
    | none => (.ok false, r)
    | some it =>
      let b := bindValues target r.pathParameters it r.path
      (b.1.map fun full => target == full, { r with pathParameters := b.2 })

end Webcrown.Http
