import Webcrown.Http.Message

/-!
# Responses

A response is a status, a body and headers in no order. `build` writes the headers
in the order in which the map is iterated, which the standard library chooses.
-/

namespace Webcrown.Http

open Common

inductive HttpStatus
  | continue
  | switchingProtocols
  | ok
  | created
  | accepted
  | nonAuthoritativeInformation
  | noContent
  | resetContent
  | partialContent
  | multipleChoices
  | movedPermanently
  | found
  | seeOther
  | notModified
  | useProxy
  | temporaryRedirect
  | badRequest
  | unauthorized
  | paymentRequired
  | forbidden
  | notFound
  | methodNotAllowed
  | notAcceptable
  | proxyAuthenticationRequired
  | requestTimeOut
  | conflict
  | gone
  | lengthRequired
  | preconditionFailed
  | requestEntityTooLarge
  | requestUriTooLarge
  | unsupportedMediaType
  | requestedRangeNotSatisfiable
  | expectationFailed
  | internalServerError
  | notImplemented
  | badGateway
  | serviceUnavailable
  | gatewayTimeOut
  | httpVersionNotSupported
  deriving DecidableEq, Repr

/-- `make_status`: the status code and the reason phrase. -/
def makeStatus : HttpStatus → ℕ × ByteString
  | .continue => (100, ascii "Continue")
  | .switchingProtocols => (101, ascii "Switching Protocols")
  | .ok => (200, ascii "OK")
  | .created => (201, ascii "Created")
  | .accepted => (202, ascii "Accepted")
  | .nonAuthoritativeInformation => (203, ascii "Non-Authoritative Information")
  | .noContent => (204, ascii "No Content")
  | .resetContent => (205, ascii "Reset Content")
  | .partialContent => (206, ascii "Partial Content")
  | .multipleChoices => (300, ascii "Multiple Choices")
  | .movedPermanently => (301, ascii "Moved Permanently")
  | .found => (302, ascii "Found")
  | .seeOther => (303, ascii "See Other")
  | .notModified => (304, ascii "Not Modified")
  | .useProxy => (305, ascii "Use Proxy")
  | .temporaryRedirect => (307, ascii "Temporary Redirect")
  | .badRequest => (400, ascii "Bad Request")
  | .unauthorized => (401, ascii "Unauthorized")
  | .paymentRequired => (402, ascii "Payment Required")
  | .forbidden => (403, ascii "Forbidden")
  | .notFound => (404, ascii "Not Found")
  | .methodNotAllowed => (405, ascii "Method Not Allowed")
  | .notAcceptable => (406, ascii "Not Acceptable")
  | .proxyAuthenticationRequired => (407, ascii "Proxy Authentication Required")
  | .requestTimeOut => (408, ascii "Request Timeout")
  | .conflict => (409, ascii "Conflict")
  | .gone => (410, ascii "Gone")
  | .lengthRequired => (411, ascii "Length Required")
  | .preconditionFailed => (412, ascii "Precondition Failed")
  | .requestEntityTooLarge => (413, ascii "Payload Too Large")
  | .requestUriTooLarge => (414, ascii "URI Too Long")
  | .unsupportedMediaType => (415, ascii "Unsupported Media Type")
  | .requestedRangeNotSatisfiable => (416, ascii "Range Not Satisfiable")
  | .expectationFailed => (417, ascii "Expectation Failed")
  | .internalServerError => (500, ascii "Internal Server Error")
  | .notImplemented => (501, ascii "Not Implemented")
  | .badGateway => (502, ascii "Bad Gateway")
  | .serviceUnavailable => (503, ascii "Service Unavailable")
  | .gatewayTimeOut => (504, ascii "Gateway Timeout")
  | .httpVersionNotSupported => (505, ascii "HTTP Version Not Supported")

/-- The order in which a header map is iterated: every entry once. -/
structure IterationOrder where
  entries : Headers → List (ByteString × ByteString)
  nodup : ∀ headers, (entries headers).Nodup
  mem_entries : ∀ headers k v, (k, v) ∈ entries headers ↔ headers.lookup k = some v

theorem IterationOrder.entries_empty (order : IterationOrder) : order.entries ∅ = [] := by
  apply List.eq_nil_iff_forall_not_mem.mpr
  intro header hmem
  have hlookup := (order.mem_entries ∅ header.1 header.2).mp hmem
  simp at hlookup

section ByKey

def keyLe (a b : ByteString) : Prop := a.map UInt8.toNat ≤ b.map UInt8.toNat

instance : DecidableRel keyLe := fun a b =>
  inferInstanceAs (Decidable (a.map UInt8.toNat ≤ b.map UInt8.toNat))

instance : IsTrans ByteString keyLe := ⟨fun _ _ _ hab hbc => le_trans hab hbc⟩

instance : Std.Antisymm keyLe :=
  ⟨fun _ _ hab hba => List.map_injective_iff.mpr (fun _ _ => UInt8.toNat.inj) (le_antisymm hab hba)⟩

instance : Std.Total keyLe := ⟨fun _ _ => le_total _ _⟩

def IterationOrder.byKey : IterationOrder where
  entries headers := (headers.keys.sort keyLe).filterMap fun k => (headers.lookup k).map (k, ·)
  nodup headers := by
    refine List.Nodup.filterMap ?_ (Finset.sort_nodup _ _)
    intro k k' header hk hk'
    obtain ⟨v, -, rfl⟩ := Option.map_eq_some_iff.mp hk
    obtain ⟨v', -, heq⟩ := Option.map_eq_some_iff.mp hk'
    exact (congrArg Prod.fst heq).symm
  mem_entries headers k v := by
    simp only [List.mem_filterMap, Finset.mem_sort, Finmap.mem_keys, Option.map_eq_some_iff,
      Prod.mk.injEq]
    constructor
    · rintro ⟨k', -, v', hlookup, rfl, rfl⟩
      exact hlookup
    · intro hlookup
      exact ⟨k, Finmap.mem_of_lookup_eq_some hlookup, v, hlookup, rfl, rfl⟩

end ByKey

/-- A response as its constructor leaves it. `build` clears the text of the last `build`
before it writes its own, so that text is no part of it. -/
structure HttpResponse where
  status : HttpStatus := .internalServerError
  body : ByteString := []
  headers : Headers := ∅
  deriving DecidableEq

namespace HttpResponse

def setStatus (r : HttpResponse) (status : HttpStatus) : HttpResponse := { r with status }

def setBody (r : HttpResponse) (body : ByteString) : HttpResponse := { r with body }

/-- `add_header`, whose `emplace` keeps the value of a key already there. -/
def addHeader (r : HttpResponse) (key value : ByteString) : HttpResponse :=
  { r with headers := r.headers.insertNew key value }

def toDecimal (n : ℕ) : ByteString := ascii (toString n)

def headerLine (header : ByteString × ByteString) : ByteString :=
  header.1 ++ ascii ": " ++ header.2 ++ crlf

/-- `build`: the text, and the response with the header that `build` adds. -/
def build (order : IterationOrder) (r : HttpResponse) : ByteString × HttpResponse :=
  let statusReason := makeStatus r.status
  let r' :=
    if r.body.isEmpty then r
    else r.addHeader (ascii "Content-Length") (toDecimal r.body.length)
  (ascii "HTTP/1.1" ++ ascii " " ++ toDecimal statusReason.1 ++ ascii " " ++ statusReason.2 ++
    crlf ++ ((order.entries r'.headers).map headerLine).flatten ++ crlf ++ r'.body, r')

theorem build_ne_nil (order : IterationOrder) (r : HttpResponse) : (build order r).1 ≠ [] := by
  have hversion : ascii "HTTP/1.1" ≠ [] := by decide
  simp [build, hversion]

theorem build_default (order : IterationOrder) :
    (build order {}).1 = ascii "HTTP/1.1 500 Internal Server Error\r\n\r\n" := by
  have htext : ascii "HTTP/1.1" ++ ascii " " ++ toDecimal 500 ++ ascii " " ++
      ascii "Internal Server Error" ++ crlf ++ crlf =
        ascii "HTTP/1.1 500 Internal Server Error\r\n\r\n" := by
    decide +kernel
  simpa [build, makeStatus, order.entries_empty] using htext

end HttpResponse

end Webcrown.Http
