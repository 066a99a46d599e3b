import Mathlib.Algebra.GroupWithZero.Nat
import Mathlib.Data.List.Basic
import Mathlib.Data.Nat.Notation

/-!
# Commands and log entries

The records of `command.hpp` and `log_entry.hpp`. The 64-bit fields of the source are natural
numbers here; where the code compares against the largest 64-bit value it compares against
`uint64Max`. A `std::string` is its list of bytes.
-/

namespace DistributedKV

/-- The bytes of a `std::string` or of a `std::vector<std::byte>`. -/
abbrev Bytes := List UInt8

/-- `std::numeric_limits<std::uint32_t>::max()`. -/
def uint32Max : ℕ := 2 ^ 32 - 1

/-- `std::numeric_limits<std::uint64_t>::max()`. -/
def uint64Max : ℕ := 2 ^ 64 - 1

/-- `std::numeric_limits<off_t>::max()`. -/
def offMax : ℕ := 2 ^ 63 - 1

/-- A client's request identifier, sixteen octets. -/
structure RequestId where
  bytes : Bytes
  size_eq : bytes.length = 16
  deriving DecidableEq

inductive CommandType
  | put
  | delete
  | noOp
  deriving DecidableEq, Repr

structure Command where
  type : CommandType := .noOp
  key : Bytes := []
  value : Bytes := []
  requestId : Option RequestId := none
  deriving DecidableEq

structure LogEntry where
  index : ℕ := 0
  term : ℕ := 0
  command : Command := {}
  deriving DecidableEq

end DistributedKV
