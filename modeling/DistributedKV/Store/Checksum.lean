import DistributedKV.Foundations.ShiftRegister
import DistributedKV.Store.Codec

/-!
# What the checksum detects

`crc32` is a shift register of 32 bits with feedback, and octets are mixed into it. A change of at
most four octets in a row is always seen.
-/

namespace DistributedKV

open ShiftRegister

/-- The polynomial of `crc32`. -/
def crcPolynomial : BitVec 32 := 0xEDB88320

theorem toBitVec_crc32Bit (checksum : UInt32) :
    (crc32Bit checksum).toBitVec = step crcPolynomial checksum.toBitVec := by
  have hlow : (checksum &&& 1).toBitVec = if checksum.toBitVec.getLsbD 0 then 1 else 0 := by
    rw [UInt32.toBitVec_and]
    change checksum.toBitVec &&& 1#32 = _
    rw [BitVec.and_one_eq_setWidth_ofBool_getLsbD]
    cases checksum.toBitVec.getLsbD 0 <;> rfl
  unfold crc32Bit step
  cases hbit : checksum.toBitVec.getLsbD 0
  · rw [hbit] at hlow
    have hzero : checksum &&& 1 = 0 := UInt32.toBitVec_inj.1 hlow
    rw [hzero, if_neg (not_not.2 rfl)]
    exact UInt32.toBitVec_shiftRight checksum 1
  · rw [hbit] at hlow
    have hone : checksum &&& 1 = 1 := UInt32.toBitVec_inj.1 hlow
    rw [hone, if_pos (by decide), if_pos rfl, UInt32.toBitVec_xor, UInt32.toBitVec_shiftRight]
    rfl

theorem toBitVec_crc32Byte (checksum : UInt32) (byte : UInt8) :
    (crc32Byte checksum byte).toBitVec = absorb crcPolynomial checksum.toBitVec byte.toBitVec := by
  simp only [crc32Byte, toBitVec_crc32Bit, UInt32.toBitVec_xor]
  rfl

theorem toBitVec_crc32 (bytes : Bytes) : (crc32 bytes).toBitVec =
    absorbAll crcPolynomial 0xFFFFFFFF (bytes.map UInt8.toBitVec) ^^^ 0xFFFFFFFF := by
  have hfold : ∀ checksum : UInt32, (bytes.foldl crc32Byte checksum).toBitVec =
      absorbAll crcPolynomial checksum.toBitVec (bytes.map UInt8.toBitVec) := by
    induction bytes with
    | nil => exact fun _ => rfl
    | cons byte bytes ih =>
      intro checksum
      rw [List.foldl_cons, ih, toBitVec_crc32Byte]
      rfl
  rw [crc32, UInt32.toBitVec_xor, hfold]
  rfl

/-- **Bursts are detected**: byte strings that differ in at most four bytes in a row have
different checksums. -/
theorem crc32_burst (front back : Bytes) {burst burst' : Bytes}
    (hlen : burst.length = burst'.length) (h4 : burst.length ≤ 4) (hne : burst ≠ burst') :
    crc32 (front ++ burst ++ back) ≠ crc32 (front ++ burst' ++ back) := by
  intro heq
  have hbits := congrArg UInt32.toBitVec heq
  simp only [toBitVec_crc32, List.map_append] at hbits
  refine absorbAll_burst (show crcPolynomial.msb = true by decide) 0xFFFFFFFF
    (front.map UInt8.toBitVec) (back.map UInt8.toBitVec) (by simpa using hlen) ?_ ?_
    ((BitVec.xor_left_inj _).1 hbits)
  · rw [List.length_map]
    omega
  · exact fun hmap => hne (List.map_injective_iff.2 (fun _ _ h => UInt8.toBitVec_inj.1 h) hmap)

end DistributedKV
