import Webcrown.Http.Characters

/-!
# Requests, parser errors and parser phases

Enumerations keep the constructors of the source. A header map is a finite map
without order, as an `unordered_map` is.
-/

namespace Webcrown.Http

open Common

inductive HttpMethod
  | unknown
  | post
  | get
  | delete
  | options
  | patch
  deriving DecidableEq, Repr

def toMethod (m : ByteString) : HttpMethod :=
  if m.length < 3 then .unknown
  else if m = ascii "GET" then .get
  else if m = ascii "POST" then .post
  else if m = ascii "DELETE" then .delete
  else if m = ascii "OPTIONS" then .options
  else if m = ascii "PATCH" then .patch
  else .unknown

inductive HttpError
  | unknown
  | incompleteStartLine
  | invalidRequestLine
  | incompleteMessageHeader
  | invalidMessageHeaderCrlf
  | badMethod
  | badTarget
  | badVersion
  | badField
  | badFieldValue
  | contentTypeNotImplemented
  | noBoundaryHeaderForMultipart
  | needMore
  deriving DecidableEq, Repr

/-- A `std::error_code`: `none` is no error. -/
abbrev ErrorCode := Option HttpError

inductive ParsePhase
  | unknown
  | notStarted
  | parseStartLineStarted
  | parseStartLine
  | parseMethod
  | parseMethodFinished
  | parseTarget
  | parseTargetFinished
  | parseProtocolVersion
  | parseProtocolVersionFinished
  | parseHeaders
  | parseHeadersFinished
  | parseContentType
  | parseContentTypeFinished
  | parseMediaType
  | parseMediaTypeNeedMore
  | parseMediaTypeFinished
  | parseBody
  | parseBodyFinished
  | parseBodyPending
  | finished
  deriving DecidableEq, Repr

inductive ContentType
  | text
  | image
  | audio
  | video
  | applicationJson
  | multipartFormdata
  | message
  | unknown
  | notSpecified
  | imageJpeg
  | applicationFormUrlencoded
  deriving DecidableEq, Repr

abbrev Headers := Finmap fun _ : ByteString => ByteString

/-- `unordered_map::insert({k, v})`, which keeps the value of a key already there. -/
def Headers.insertNew (headers : Headers) (k v : ByteString) : Headers :=
  if k ∈ headers then headers else headers.insert k v

/-- The header lines of a block, entered in order under their lower-cased names. -/
def Headers.insertAll (headers : Headers) (fields : List (ByteString × ByteString)) : Headers :=
  fields.foldl (fun hs f => hs.insertNew (toLower f.1) f.2) headers

@[simp] theorem Headers.insertAll_nil (headers : Headers) : headers.insertAll [] = headers := rfl

theorem Headers.insertAll_append (headers : Headers) (fs gs : List (ByteString × ByteString)) :
    headers.insertAll (fs ++ gs) = (headers.insertAll fs).insertAll gs := by
  simp [Headers.insertAll]

theorem Headers.lookup_insertNew (headers : Headers) (k v j : ByteString) :
    (headers.insertNew k v).lookup j =
      (headers.lookup j).or (if j = k then some v else none) := by
  unfold Headers.insertNew
  split_ifs with hk hj hj
  · subst hj
    obtain ⟨w, hw⟩ := Finmap.mem_iff.mp hk
    simp [hw]
  · simp
  · subst hj
    rw [Finmap.lookup_insert, Finmap.lookup_eq_none.mpr hk]
    rfl
  · rw [Finmap.lookup_insert_of_ne _ hj]
    simp

/-- The map sends a key to what it held before, else to the first line under that name. -/
theorem Headers.lookup_insertAll (headers : Headers) (fs : List (ByteString × ByteString))
    (j : ByteString) :
    (headers.insertAll fs).lookup j =
      (headers.lookup j).or ((fs.find? fun f => toLower f.1 == j).map Prod.snd) := by
  induction fs generalizing headers with
  | nil => simp
  | cons f fs ih =>
    have hstep : headers.insertAll (f :: fs) = (headers.insertNew (toLower f.1) f.2).insertAll fs :=
      rfl
    rw [hstep, ih, Headers.lookup_insertNew, Option.or_assoc, List.find?_cons]
    by_cases hj : j = toLower f.1
    · simp [hj]
    · have hb : (toLower f.1 == j) = false := by simpa using Ne.symm hj
      simp [hj, hb]

/-- `http_form_upload`; the shared byte buffer is held as its contents, which no
call changes once the upload exists. -/
structure HttpFormUpload where
  bytes : ByteString
  headers : Headers
  deriving DecidableEq

structure HttpRequest where
  method : HttpMethod
  protocolVersion : ℤ
  target : ByteString
  headers : Headers
  body : ByteString
  uploads : List HttpFormUpload
  deriving DecidableEq

end Webcrown.Http
