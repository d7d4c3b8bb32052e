import Mathlib.Data.UInt

/-! The error type shared by every crate, and the machine words of the model. -/

namespace IrixMail

inductive Error
  | config (detail : String)
  | io (detail : String)
  | store (detail : String)
  | serialize (detail : String)
  | notFound (detail : String)
  | invalidInput (detail : String)
  | unauthorized (detail : String)
  | forbidden (detail : String)
  | protocol (detail : String)
  | internal (detail : String)
  /-- Not an error of the source: an unwinding panic, which no handler catches. -/
  | panicked
  deriving DecidableEq

def Error.message : Error → String
  | config detail => "configuration error: " ++ detail
  | io detail => "i/o error: " ++ detail
  | store detail => "storage error: " ++ detail
  | serialize detail => "serialization error: " ++ detail
  | notFound detail => "not found: " ++ detail
  | invalidInput detail => "invalid input: " ++ detail
  | unauthorized detail => "unauthorized: " ++ detail
  | forbidden detail => "forbidden: " ++ detail
  | protocol detail => "protocol error: " ++ detail
  | internal detail => "internal error: " ++ detail
  | panicked => ""

abbrev Bytes := List UInt8

def asU32 (x : ℕ) : ℕ := x % 2 ^ 32

def intAsU32 (x : ℤ) : ℕ := (x % (2 ^ 32 : ℤ)).toNat

theorem asU32_of_lt {x : ℕ} (h : x < 2 ^ 32) : asU32 x = x := Nat.mod_eq_of_lt h

theorem cast_intAsU32 {x : ℤ} (h0 : 0 ≤ x) (h : x < 2 ^ 32) : (intAsU32 x : ℤ) = x := by
  unfold intAsU32
  omega

end IrixMail
