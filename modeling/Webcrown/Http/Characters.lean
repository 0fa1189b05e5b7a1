import Webcrown.Common.StringUtils

/-!
# Character tables of the request parser

The two 256-entry tables and the field-name test of `detail/parser.hpp`, with
the ranges they stand for.
-/

namespace Webcrown.Http

open Common

/-- The table of `is_token_char`, sixteen characters a row. -/
def tokenCharTable : List ℕ :=
  [0, 0, 0, 0,  0, 0, 0, 0,  0, 0, 0, 0,  0, 0, 0, 0,
   0, 0, 0, 0,  0, 0, 0, 0,  0, 0, 0, 0,  0, 0, 0, 0,
   0, 1, 0, 1,  1, 1, 1, 1,  0, 0, 1, 1,  0, 1, 1, 0,
   1, 1, 1, 1,  1, 1, 1, 1,  1, 1, 0, 0,  0, 0, 0, 0,
   0, 1, 1, 1,  1, 1, 1, 1,  1, 1, 1, 1,  1, 1, 1, 1,
   1, 1, 1, 1,  1, 1, 1, 1,  1, 1, 1, 0,  0, 0, 1, 1,
   1, 1, 1, 1,  1, 1, 1, 1,  1, 1, 1, 1,  1, 1, 1, 1,
   1, 1, 1, 1,  1, 1, 1, 1,  1, 1, 1, 0,  1, 0, 1, 0] ++ List.replicate 128 0

def isTokenChar (c : UInt8) : Bool := tokenCharTable[c.toNat]?.getD 0 != 0

/-- The table of `is_pathchar`: every byte but the controls, the space and DEL. -/
def pathCharTable : List ℕ :=
  List.replicate 32 0 ++ [0] ++ List.replicate 94 1 ++ [0] ++ List.replicate 128 1

def isPathchar (c : UInt8) : Bool := pathCharTable[c.toNat]?.getD 0 != 0

/-- `is_valid_token` on `int(t)`, which is negative from byte 128 on. -/
def isValidToken (t : UInt8) : Bool :=
  let result : ℤ := t.toInt8.toInt
  if (0 ≤ result && result ≤ 0x1f) || result == 0x7f then false
  else if result == 0x20 then false
  else if result == 0x3A then false
  else if 1 ≤ result && result ≤ 0x7f then true
  else false

theorem isTokenChar_of_isAlpha {c : UInt8} (h : isAlpha c = true) : isTokenChar c = true := by
  revert h
  exact forall_byte (P := fun c => isAlpha c = true → isTokenChar c = true) (by decide +kernel) c

@[simp] theorem isTokenChar_sp : isTokenChar sp = false := by decide
@[simp] theorem isPathchar_sp : isPathchar sp = false := by decide
@[simp] theorem isValidToken_cr : isValidToken cr = false := by decide
@[simp] theorem isValidToken_colon : isValidToken colon = false := by decide

end Webcrown.Http
