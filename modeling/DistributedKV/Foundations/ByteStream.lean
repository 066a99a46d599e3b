import Mathlib.Data.List.Basic
import Mathlib.Data.Nat.Notation

/-!
# Byte streams

A stream carries bytes from a sender to a receiver in order, and neither end decides how many of
them a call transfers. A call of the sender takes over some of the bytes, is interrupted or fails; a
call of the receiver gets some of what has arrived, is interrupted or fails, or finds the end of the
stream. Two loops: one sends a buffer, the other fills one. What they come to depends on the bytes
alone, not on how the calls cut them (`sendAll_eq`, `receiveAll_spec`).
-/

namespace ByteStream

/-- What becomes of the next call of the sender: it takes over that many bytes at most, or none. -/
inductive Transfer
  | done (count : ℕ)
  | interrupted
  | failed
  deriving DecidableEq, Repr

/-- What the receiver meets next. A call returns at most one chunk. -/
inductive Arrival
  | chunk (bytes : List UInt8)
  | interrupted
  | failed
  deriving DecidableEq, Repr

/-! ## Sending -/

/-- The bytes that are taken over, whether these are all, and what the next calls will meet. A list
of transfers that has run out stands for a call that takes over everything. -/
def sendAll : List UInt8 → List Transfer → List UInt8 × Bool × List Transfer
  | [], transfers => ([], true, transfers)
  | bytes, [] => (bytes, true, [])
  | bytes, .interrupted :: transfers => sendAll bytes transfers
  | _, .failed :: transfers => ([], false, transfers)
  | bytes, .done count :: transfers =>
    if count = 0 then ([], false, transfers)
    else
      match sendAll (bytes.drop count) transfers with
      | (sent, all, transfers) => (bytes.take count ++ sent, all, transfers)

/-- **What is sent** is a part from the front, and all of it exactly if the loop says so. -/
theorem sendAll_eq (bytes : List UInt8) (transfers : List Transfer) :
    (sendAll bytes transfers).1 <+: bytes ∧
      ((sendAll bytes transfers).2.1 = true ↔ (sendAll bytes transfers).1 = bytes) := by
  induction transfers generalizing bytes with
  | nil => cases bytes <;> simp [sendAll]
  | cons transfer transfers ih =>
    cases bytes with
    | nil => simp [sendAll]
    | cons b bytes =>
      cases transfer with
      | interrupted => exact ih (b :: bytes)
      | failed => simp [sendAll]
      | done count =>
        unfold sendAll
        split_ifs with h0
        · simp
        have hsent := ih ((b :: bytes).drop count)
        generalize sendAll ((b :: bytes).drop count) transfers = sent at hsent
        obtain ⟨⟨rest, hrest⟩, hall⟩ := hsent
        dsimp only
        refine ⟨⟨rest, ?_⟩, hall.trans ⟨fun h => ?_, fun h => ?_⟩⟩
        · rw [List.append_assoc, hrest, List.take_append_drop]
        · rw [h, List.take_append_drop]
        · exact List.append_cancel_left (h.trans (List.take_append_drop count (b :: bytes)).symm)

/-! ## Receiving -/

/-- A buffer of the given size, and what the next calls will meet; `none` where the stream ends or a
call fails before the buffer is full. -/
def receiveAll : ℕ → List Arrival → Option (List UInt8 × List Arrival)
  | 0, arrivals => some ([], arrivals)
  | _ + 1, [] => none
  | size + 1, .interrupted :: arrivals => receiveAll (size + 1) arrivals
  | _ + 1, .failed :: _ => none
  | size + 1, .chunk bytes :: arrivals =>
    if size + 1 ≤ bytes.length then
      some (bytes.take (size + 1), .chunk (bytes.drop (size + 1)) :: arrivals)
    else (receiveAll (size + 1 - bytes.length) arrivals).map fun r => (bytes ++ r.1, r.2)

/-- The bytes that arrive before a call fails. -/
def content : List Arrival → List UInt8
  | [] => []
  | .chunk bytes :: arrivals => bytes ++ content arrivals
  | .interrupted :: arrivals => content arrivals
  | .failed :: _ => []

/-- **What is received** is what arrives, however it is cut into chunks. -/
theorem receiveAll_spec (size : ℕ) (arrivals : List Arrival) :
    (size ≤ (content arrivals).length ∧ ∃ rest,
        receiveAll size arrivals = some ((content arrivals).take size, rest) ∧
          content rest = (content arrivals).drop size) ∨
      ((content arrivals).length < size ∧ receiveAll size arrivals = none) := by
  induction arrivals generalizing size with
  | nil =>
    cases size with
    | zero => exact Or.inl ⟨Nat.le_refl _, [], rfl, rfl⟩
    | succ size => exact Or.inr ⟨Nat.succ_pos size, rfl⟩
  | cons arrival arrivals ih =>
    cases size with
    | zero => exact Or.inl ⟨Nat.zero_le _, arrival :: arrivals, rfl, rfl⟩
    | succ size =>
      cases arrival with
      | interrupted => exact ih (size + 1)
      | failed => exact Or.inr ⟨Nat.succ_pos size, rfl⟩
      | chunk bytes =>
        rw [receiveAll, content, List.length_append]
        split_ifs with hle
        · refine Or.inl ⟨by omega, .chunk (bytes.drop (size + 1)) :: arrivals, ?_, ?_⟩
          · rw [List.take_append_of_le_length hle]
          · rw [content, List.drop_append_of_le_length hle]
        · rw [List.take_append, List.drop_append, List.take_of_length_le (by omega),
            List.drop_eq_nil_of_le (by omega), List.nil_append]
          rcases ih (size + 1 - bytes.length) with ⟨hlen, rest, heq, hrest⟩ | ⟨hlen, heq⟩
          · exact Or.inl ⟨by omega, rest, by rw [heq, Option.map_some], hrest⟩
          · exact Or.inr ⟨by omega, by rw [heq, Option.map_none]⟩

theorem receiveAll_eq_some {size : ℕ} {arrivals rest : List Arrival} {bytes : List UInt8}
    (h : receiveAll size arrivals = some (bytes, rest)) :
    bytes.length = size ∧ content arrivals = bytes ++ content rest := by
  rcases receiveAll_spec size arrivals with ⟨hlen, rest', heq, hrest⟩ | ⟨-, heq⟩
  · obtain ⟨rfl, rfl⟩ := Prod.mk.inj (Option.some.inj (h.symm.trans heq))
    exact ⟨List.length_take_of_le hlen, by rw [hrest, List.take_append_drop]⟩
  · rw [heq] at h
    cases h

/-- A buffer that starts what arrives is received. -/
theorem receiveAll_of_content {arrivals : List Arrival} {bytes rest : List UInt8}
    (h : content arrivals = bytes ++ rest) : ∃ arrivals',
      receiveAll bytes.length arrivals = some (bytes, arrivals') ∧ content arrivals' = rest := by
  rcases receiveAll_spec bytes.length arrivals with ⟨-, arrivals', heq, hrest⟩ | ⟨hlen, -⟩
  · rw [h, List.take_left] at heq
    rw [h, List.drop_left] at hrest
    exact ⟨arrivals', heq, hrest⟩
  · rw [h, List.length_append] at hlen
    omega

end ByteStream
