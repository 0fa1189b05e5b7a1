import Webcrown.Common.Decimal

/-!
# The parts of a URL

`ParseHTTPURL` cuts the parts off one after the other: the protocol in front, the search and
the path behind, and what is left at `@` and at its colons. No byte of a text is lost, and a URL
whose parts are free of each other's delimiters is parsed into these parts.
-/

namespace Webcrown.Common.UrlHelper

open Bytes

def slash : UInt8 := 47
def question : UInt8 := 63
def atSign : UInt8 := 64

structure Url where
  protocol : ByteString
  user : ByteString
  password : ByteString
  host : ByteString
  path : ByteString
  search : ByteString
  port : ℤ
  deriving DecidableEq

/-- `TailSlice`: what it returns, and what it leaves of its argument. -/
def tailSlice (subject delimiter : ByteString) (keepDelim : Bool) : ByteString × ByteString :=
  match find delimiter subject with
  | some location =>
    (subject.drop (if keepDelim then location else location + delimiter.length),
      subject.take location)
  | none => ([], subject)

def headSlice (subject delimiter : ByteString) : ByteString × ByteString :=
  match find delimiter subject with
  | some location => (subject.take location, subject.drop (location + delimiter.length))
  | none => ([], subject)

def extractPort (hostport : ByteString) : ℤ × ByteString :=
  let (portstring, hostport) := tailSlice hostport [colon] false
  (atoi portstring, hostport)

def extractPath (s : ByteString) : ByteString × ByteString := tailSlice s [slash] true

def extractProtocol (s : ByteString) : ByteString × ByteString := headSlice s (ascii "://")

def extractSearch (s : ByteString) : ByteString × ByteString := tailSlice s [question] false

def extractPassword (userpass : ByteString) : ByteString × ByteString :=
  tailSlice userpass [colon] false

def extractUserpass (s : ByteString) : ByteString × ByteString := headSlice s [atSign]

def parseHTTPURL (s : ByteString) : Url :=
  let (protocol, tempIn) := extractProtocol s
  let (search, tempIn) := extractSearch tempIn
  let (path, tempIn) := extractPath tempIn
  let (userpass, tempIn) := extractUserpass tempIn
  let (password, user) := extractPassword userpass
  let (port, host) := extractPort tempIn
  ⟨protocol, user, password, host, path, search, port⟩

section Slices

theorem tailSlice_cases (s d : ByteString) :
    tailSlice s d false = ([], s) ∨
      s = (tailSlice s d false).2 ++ d ++ (tailSlice s d false).1 := by
  unfold tailSlice
  cases h : find d s with
  | none => exact .inl rfl
  | some i =>
    obtain ⟨⟨x, y, rfl, rfl⟩, -⟩ := find_spec h
    simp

theorem tailSlice_keep_cases (s d : ByteString) :
    tailSlice s d true = ([], s) ∨
      d <+: (tailSlice s d true).1 ∧ s = (tailSlice s d true).2 ++ (tailSlice s d true).1 := by
  unfold tailSlice
  cases h : find d s with
  | none => exact .inl rfl
  | some i =>
    obtain ⟨⟨x, y, rfl, rfl⟩, -⟩ := find_spec h
    simp

theorem headSlice_cases (s d : ByteString) :
    headSlice s d = ([], s) ∨ s = (headSlice s d).1 ++ d ++ (headSlice s d).2 := by
  unfold headSlice
  cases h : find d s with
  | none => exact .inl rfl
  | some i =>
    obtain ⟨⟨x, y, rfl, rfl⟩, -⟩ := find_spec h
    simp

variable {x y : ByteString} {c : UInt8}

theorem find_singleton (h : c ∉ x) : find [c] (x ++ c :: y) = some x.length := by
  have hfind : find [c] (x ++ [c] ++ y) = some x.length := find_append_of_head rfl h
  rwa [List.append_assoc] at hfind

theorem find_singleton_none (h : c ∉ x) : find [c] x = none := by
  rw [find_eq_none_iff]
  intro hoccurs
  exact h (hoccurs.subset (by simp))

theorem tailSlice_eq (h : c ∉ x) (keep : Bool) :
    tailSlice (x ++ c :: y) [c] keep = (if keep then c :: y else y, x) := by
  rw [tailSlice, find_singleton h]
  cases keep <;> simp

theorem tailSlice_none (h : c ∉ x) (keep : Bool) : tailSlice x [c] keep = ([], x) := by
  rw [tailSlice, find_singleton_none h]

theorem headSlice_eq (h : c ∉ x) : headSlice (x ++ c :: y) [c] = (x, y) := by
  rw [headSlice, find_singleton h]
  simp

theorem headSlice_none (h : c ∉ x) : headSlice x [c] = ([], x) := by
  rw [headSlice, find_singleton_none h]

end Slices

/-- A text is put together from the parts of a URL: each with its delimiter, or left out where
the part is empty. The port is the number that its text begins with. -/
structure Assembles (u : Url) (protocol userinfo port search s : ByteString) : Prop where
  text : s = protocol ++ userinfo ++ u.host ++ port ++ u.path ++ search
  protocol : protocol = [] ∧ u.protocol = [] ∨ protocol = u.protocol ++ ascii "://"
  userinfo : userinfo = [] ∧ u.user = [] ∧ u.password = [] ∨
    userinfo = u.user ++ [atSign] ∧ u.password = [] ∨
    userinfo = u.user ++ [colon] ++ u.password ++ [atSign]
  port : port = [] ∧ u.port = 0 ∨ ∃ digits, port = colon :: digits ∧ u.port = atoi digits
  path : u.path = [] ∨ u.path.head? = some slash
  search : search = [] ∧ u.search = [] ∨ search = question :: u.search

theorem extractUserpass_cases (s : ByteString) :
    ∃ userinfo, s = userinfo ++ (extractUserpass s).2 ∧
      (userinfo = [] ∧ (extractPassword (extractUserpass s).1).2 = [] ∧
          (extractPassword (extractUserpass s).1).1 = [] ∨
        userinfo = (extractPassword (extractUserpass s).1).2 ++ [atSign] ∧
          (extractPassword (extractUserpass s).1).1 = [] ∨
        userinfo = (extractPassword (extractUserpass s).1).2 ++ [colon] ++
          (extractPassword (extractUserpass s).1).1 ++ [atSign]) := by
  rcases headSlice_cases s [atSign] with h | h
  · refine ⟨[], by simp [extractUserpass, h], .inl ⟨rfl, ?_⟩⟩
    rw [extractUserpass, h]
    exact ⟨rfl, rfl⟩
  · refine ⟨(extractUserpass s).1 ++ [atSign], h, .inr ?_⟩
    rcases tailSlice_cases (extractUserpass s).1 [colon] with h' | h'
    · exact .inl ⟨by rw [extractPassword, h'], by rw [extractPassword, h']⟩
    · exact .inr (congrArg (· ++ [atSign]) h')

theorem extractPort_cases (s : ByteString) :
    ∃ port, s = (extractPort s).2 ++ port ∧ (port = [] ∧ (extractPort s).1 = 0 ∨
      ∃ digits, port = colon :: digits ∧ (extractPort s).1 = atoi digits) := by
  rcases tailSlice_cases s [colon] with h | h
  · exact ⟨[], by simp [extractPort, h], .inl ⟨rfl, by rw [extractPort, h]; rfl⟩⟩
  · refine ⟨colon :: (tailSlice s [colon] false).1, ?_, .inr ⟨_, rfl, rfl⟩⟩
    rwa [List.append_assoc] at h

/-- No byte of a text is lost. -/
theorem parseHTTPURL_assembles (s : ByteString) :
    ∃ protocol userinfo port search,
      Assembles (parseHTTPURL s) protocol userinfo port search s := by
  obtain ⟨protocol, hs, hprotocol⟩ : ∃ protocol, s = protocol ++ (extractProtocol s).2 ∧
      (protocol = [] ∧ (extractProtocol s).1 = [] ∨
        protocol = (extractProtocol s).1 ++ ascii "://") := by
    rcases headSlice_cases s (ascii "://") with h | h
    · exact ⟨[], by simp [extractProtocol, h], .inl ⟨rfl, by rw [extractProtocol, h]⟩⟩
    · exact ⟨_, h, .inr rfl⟩
  generalize ht₁ : (extractProtocol s).2 = t₁ at hs
  obtain ⟨search, hs₁, hsearch⟩ : ∃ search, t₁ = (extractSearch t₁).2 ++ search ∧
      (search = [] ∧ (extractSearch t₁).1 = [] ∨ search = question :: (extractSearch t₁).1) := by
    rcases tailSlice_cases t₁ [question] with h | h
    · exact ⟨[], by simp [extractSearch, h], .inl ⟨rfl, by rw [extractSearch, h]⟩⟩
    · exact ⟨_, by rwa [List.append_assoc] at h, .inr rfl⟩
  generalize ht₂ : (extractSearch t₁).2 = t₂ at hs₁
  obtain ⟨hs₂, hpath⟩ : t₂ = (extractPath t₂).2 ++ (extractPath t₂).1 ∧
      ((extractPath t₂).1 = [] ∨ (extractPath t₂).1.head? = some slash) := by
    rcases tailSlice_keep_cases t₂ [slash] with h | ⟨⟨t, ht⟩, h⟩
    · exact ⟨by simp [extractPath, h], .inl (by rw [extractPath, h])⟩
    · exact ⟨h, .inr (by rw [extractPath, ← ht]; rfl)⟩
  generalize ht₃ : (extractPath t₂).2 = t₃ at hs₂
  obtain ⟨userinfo, hs₃, huserinfo⟩ := extractUserpass_cases t₃
  obtain ⟨port, hs₄, hport⟩ := extractPort_cases (extractUserpass t₃).2
  have hurl : parseHTTPURL s = ⟨(extractProtocol s).1, (extractPassword (extractUserpass t₃).1).2,
      (extractPassword (extractUserpass t₃).1).1, (extractPort (extractUserpass t₃).2).2,
      (extractPath t₂).1, (extractSearch t₁).1, (extractPort (extractUserpass t₃).2).1⟩ := by
    subst ht₁ ht₂ ht₃
    rfl
  refine ⟨protocol, userinfo, port, search, ?_⟩
  rw [hurl]
  refine ⟨?_, hprotocol, huserinfo, hport, hpath, hsearch⟩
  dsimp only
  rw [List.append_assoc (protocol ++ userinfo), ← hs₄, List.append_assoc protocol, ← hs₃,
    List.append_assoc protocol, ← hs₂, List.append_assoc protocol, ← hs₁, ← hs]

/-- A part with its delimiter in front, or nothing where there is no such part. -/
def optional (delimiter part : ByteString) : ByteString :=
  if part = [] then [] else delimiter ++ part

/-- The parts of a URL, each without the characters at which the parser would cut it. No part but
the protocol has to be there; port 0 is no port. -/
structure Parts where
  protocol : ByteString
  user : ByteString
  password : ByteString
  host : ByteString
  port : ℕ
  path : ByteString
  search : ByteString
  protocol_free : colon ∉ protocol
  user_free : ∀ c ∈ [colon, atSign, slash, question], c ∉ user
  password_free : ∀ c ∈ [atSign, slash, question], c ∉ password
  host_free : ∀ c ∈ [colon, atSign, slash, question], c ∉ host
  port_lt : port < 2 ^ 31
  path_free : question ∉ path
  path_slash : path ≠ [] → path.head? = some slash

namespace Parts

variable (p : Parts)

def userText : ByteString :=
  if p.user = [] ∧ p.password = [] then []
  else p.user ++ optional [colon] p.password ++ [atSign]

def portText : ByteString := if p.port = 0 then [] else colon :: decimal p.port

def text : ByteString :=
  p.protocol ++ ascii "://" ++ (p.userText ++ p.host ++ p.portText ++ p.path) ++
    optional [question] p.search

def url : Url := ⟨p.protocol, p.user, p.password, p.host, p.path, p.search, p.port⟩

theorem tailSlice_optional {c : UInt8} {x : ByteString} (h : c ∉ x) (part : ByteString) :
    tailSlice (x ++ optional [c] part) [c] false = (part, x) := by
  unfold optional
  split_ifs with hpart
  · rw [List.append_nil, tailSlice_none h, hpart]
  · rw [List.singleton_append, tailSlice_eq h]
    rfl

theorem notMem_optional {c d : UInt8} {part : ByteString} (hd : c ≠ d) (h : c ∉ part) :
    c ∉ optional [d] part := by
  unfold optional
  split_ifs
  · simp
  · simp [hd, h]

theorem portText_free {c : UInt8} (hc : c ∈ [atSign, slash, question]) : c ∉ p.portText := by
  have hdigit : c ≠ colon ∧ isDigit c = false := by
    fin_cases hc <;> decide
  unfold portText
  split_ifs
  · simp
  · rw [List.mem_cons, not_or]
    refine ⟨hdigit.1, fun hmem => ?_⟩
    rw [isDigit_of_mem_decimal hmem] at hdigit
    cases hdigit.2

def userpass : ByteString := p.user ++ optional [colon] p.password

theorem userpass_free {c : UInt8} (hc : c ∈ [atSign, slash, question]) : c ∉ p.userpass := by
  have hcolon : c ≠ colon := by fin_cases hc <;> decide
  rw [userpass, List.mem_append, not_or]
  exact ⟨p.user_free c (List.mem_cons_of_mem _ hc),
    notMem_optional hcolon (p.password_free c hc)⟩

theorem userText_free {c : UInt8} (hc : c ∈ [slash, question]) : c ∉ p.userText := by
  have hat : c ≠ atSign := by fin_cases hc <;> decide
  have huser := p.userpass_free (List.mem_cons_of_mem _ hc)
  unfold userText
  split_ifs
  · simp
  · rw [← userpass, List.mem_append, not_or, List.mem_singleton]
    exact ⟨huser, hat⟩

theorem extractProtocol_text : extractProtocol p.text =
    (p.protocol, p.userText ++ p.host ++ p.portText ++ p.path ++
      optional [question] p.search) := by
  rw [text, List.append_assoc _ _ (optional _ _)]
  have hfind : find (ascii "://") (p.protocol ++ ascii "://" ++ (p.userText ++ p.host ++
      p.portText ++ p.path ++ optional [question] p.search)) = some p.protocol.length :=
    find_append_of_head (show (ascii "://").head? = some colon by decide) p.protocol_free
  have hlength : p.protocol.length + (ascii "://").length =
      (p.protocol ++ ascii "://").length := List.length_append.symm
  rw [extractProtocol, headSlice, hfind]
  dsimp only
  rw [hlength, List.drop_left, List.append_assoc p.protocol, List.take_left]

theorem extractSearch_text : extractSearch (p.userText ++ p.host ++ p.portText ++ p.path ++
    optional [question] p.search) =
      (p.search, p.userText ++ p.host ++ p.portText ++ p.path) := by
  refine tailSlice_optional ?_ p.search
  simp only [List.mem_append, not_or]
  exact ⟨⟨⟨p.userText_free (by simp), p.host_free _ (by simp)⟩, p.portText_free (by simp)⟩,
    p.path_free⟩

theorem extractPath_text : extractPath (p.userText ++ p.host ++ p.portText ++ p.path) =
    (p.path, p.userText ++ p.host ++ p.portText) := by
  have hfree : slash ∉ p.userText ++ p.host ++ p.portText := by
    simp only [List.mem_append, not_or]
    exact ⟨⟨p.userText_free (by simp), p.host_free _ (by simp)⟩, p.portText_free (by simp)⟩
  by_cases hpath : p.path = []
  · rw [hpath, List.append_nil]
    exact tailSlice_none hfree true
  · obtain ⟨t, ht⟩ := List.head?_eq_some_iff.mp (p.path_slash hpath)
    rw [ht]
    exact tailSlice_eq hfree true

theorem extractUserpass_text : extractUserpass (p.userText ++ p.host ++ p.portText) =
    (p.userpass, p.host ++ p.portText) := by
  unfold userText
  split_ifs with hnone
  · have hfree : atSign ∉ p.host ++ p.portText := by
      rw [List.mem_append, not_or]
      exact ⟨p.host_free _ (by simp), p.portText_free (by simp)⟩
    rw [List.nil_append, userpass, hnone.1, hnone.2]
    exact headSlice_none hfree
  · rw [← userpass, List.append_assoc, List.append_assoc]
    exact headSlice_eq (p.userpass_free (by simp))

theorem extractPassword_text : extractPassword p.userpass = (p.password, p.user) :=
  tailSlice_optional (p.user_free _ (by simp)) p.password

theorem extractPort_text : extractPort (p.host ++ p.portText) = ((p.port : ℤ), p.host) := by
  have hhost : colon ∉ p.host := p.host_free _ (by simp)
  unfold extractPort portText
  split_ifs with hport
  · rw [List.append_nil, tailSlice_none hhost, hport]
    rfl
  · rw [tailSlice_eq hhost]
    simp [atoi_numeral (isNumeral_decimal p.port), numeralInt_of_lt p.port_lt]

theorem parseHTTPURL_text : parseHTTPURL p.text = p.url := by
  rw [parseHTTPURL, extractProtocol_text]
  simp only [extractSearch_text, extractPath_text, extractUserpass_text, extractPassword_text,
    extractPort_text]
  rfl

end Parts

def annParts : Parts where
  protocol := ascii "http"
  user := ascii "ann"
  password := ascii "secret"
  host := ascii "host"
  port := 8080
  path := ascii "/a/b"
  search := ascii "q=1"
  protocol_free := by decide
  user_free := by decide +kernel
  password_free := by decide +kernel
  host_free := by decide +kernel
  port_lt := by decide
  path_free := by decide
  path_slash := fun _ => rfl

end Webcrown.Common.UrlHelper
