import DistributedKV.Store.Decode
import DistributedKV.Store.PersistentMetadata

/-!
# Term and vote records

`raft_metadata_codec.cpp`: a record of 26 bytes for the term and the vote. The decoder accepts
exactly what the encoder writes.
-/

namespace DistributedKV

open ByteCodec

inductive RaftMetadataCodecError
  | invalidState
  | truncatedRecord
  | invalidLength
  | invalidMagic
  | unsupportedVersion
  | checksumMismatch
  | invalidVote
  deriving DecidableEq, Repr

def raftMetadataRecordSize : ℕ := 26

def metadataChecksumOffset : ℕ := raftMetadataRecordSize - 4

/-- The magic number of a record, and its version. -/
def metadataMagic : Bytes := [0x44, 0x4B, 0x56, 0x4D, 1]

/-- The record before its checksum. A record without a vote has a zero in its place. -/
def metadataBody (state : RaftMetadata) : Bytes :=
  appendU64 (appendU64 metadataMagic state.currentTerm ++ [if state.votedFor.isSome then 1 else 0])
    (state.votedFor.getD 0)

def encodeRaftMetadata (state : RaftMetadata) : Except RaftMetadataCodecError Bytes :=
  if state.currentTerm = 0 ∧ state.votedFor.isSome then .error .invalidState
  else .ok (appendU32 (metadataBody state) (crc32 (metadataBody state)).toNat)

def decodeRaftMetadata (bytes : Bytes) : Except RaftMetadataCodecError RaftMetadata :=
  if bytes.length < raftMetadataRecordSize then .error .truncatedRecord
  else if raftMetadataRecordSize < bytes.length then .error .invalidLength
  else if field bytes 0 4 ≠ metadataMagic.take 4 then .error .invalidMagic
  else if byteOf bytes 4 ≠ 1 then .error .unsupportedVersion
  else if readU32 bytes metadataChecksumOffset ≠
      (crc32 (bytes.take metadataChecksumOffset)).toNat then .error .checksumMismatch
  else
    let term := readU64 bytes 5
    let presence := byteOf bytes 13
    if presence ≠ 0 ∧ presence ≠ 1 then .error .invalidVote
    else
      let candidate := readU64 bytes 14
      if presence = 0 ∧ candidate ≠ 0 ∨ presence = 1 ∧ term = 0 then .error .invalidVote
      else .ok ⟨term, if presence = 1 then some candidate else none⟩

/-- The term and the vote are 64-bit numbers, as the fields of the source are by their type. -/
structure RaftMetadata.InRange (state : RaftMetadata) : Prop where
  currentTerm : state.currentTerm < 2 ^ 64
  votedFor : ∀ candidate ∈ state.votedFor, candidate < 2 ^ 64

/-- The byte that says whether there is a vote. -/
def presenceByte (state : RaftMetadata) : UInt8 := if state.votedFor.isSome then 1 else 0

theorem metadataBody_eq (state : RaftMetadata) :
    metadataBody state = metadataMagic ++ (digits 8 state.currentTerm ++
      ([presenceByte state] ++ digits 8 (state.votedFor.getD 0))) := by
  simp [metadataBody, appendU64_eq, presenceByte]

theorem length_metadataBody (state : RaftMetadata) :
    (metadataBody state).length = metadataChecksumOffset := by
  simp [metadataBody_eq, metadataMagic, metadataChecksumOffset, raftMetadataRecordSize]

theorem encodeRaftMetadata_eq_ok_iff {state : RaftMetadata} {bytes : Bytes} :
    encodeRaftMetadata state = .ok bytes ↔ ¬(state.currentTerm = 0 ∧ state.votedFor.isSome) ∧
      bytes = withChecksum (metadataBody state) := by
  unfold encodeRaftMetadata
  rw [appendU32_eq]
  split_ifs with h
  · simp [h]
  · simp only [Except.ok.injEq, h, not_false_eq_true, true_and, withChecksum]
    exact eq_comm

/-- What the decoder reads in a record. -/
theorem read_metadataBody {state : RaftMetadata} (hr : state.InRange) (rest : Bytes) :
    field (metadataBody state ++ rest) 0 4 = metadataMagic.take 4 ∧
      byteOf (metadataBody state ++ rest) 4 = 1 ∧
      readU64 (metadataBody state ++ rest) 5 = state.currentTerm ∧
      byteOf (metadataBody state ++ rest) 13 = presenceByte state ∧
      readU64 (metadataBody state ++ rest) 14 = state.votedFor.getD 0 := by
  have hterm : state.currentTerm < 256 ^ 8 := hr.currentTerm
  have hvote : state.votedFor.getD 0 < 256 ^ 8 := by
    cases hv : state.votedFor with
    | none => simp
    | some candidate => exact hr.votedFor candidate hv
  have hfront : (metadataMagic ++ digits 8 state.currentTerm).length = 13 := by
    simp [metadataMagic]
  have hbody : metadataBody state ++ rest = metadataMagic ++ (digits 8 state.currentTerm ++
      ([presenceByte state] ++ (digits 8 (state.votedFor.getD 0) ++ rest))) := by
    simp [metadataBody_eq]
  refine ⟨?_, ?_, ?_, ?_, ?_⟩
  · rw [hbody, field_append_left (by decide)]
    rfl
  · rw [hbody]
    rfl
  · rw [hbody]
    exact value_part rfl hterm
  · have hpresence : field (metadataMagic ++ digits 8 state.currentTerm ++
        ([presenceByte state] ++ (digits 8 (state.votedFor.getD 0) ++ rest))) 13 1 =
          [presenceByte state] := field_part hfront rfl
    rw [List.append_assoc, ← hbody, field_one (by
      rw [List.length_append, length_metadataBody, metadataChecksumOffset, raftMetadataRecordSize]
      omega)] at hpresence
    exact List.singleton_inj.1 hpresence
  · have hcandidate : value (field (metadataMagic ++ digits 8 state.currentTerm ++
        [presenceByte state] ++ (digits 8 (state.votedFor.getD 0) ++ rest)) 14 8) =
          state.votedFor.getD 0 := value_part (by rw [List.length_append, hfront]; rfl) hvote
    rw [List.append_assoc, List.append_assoc, ← hbody] at hcandidate
    exact hcandidate

/-- The front of a record by its fields. -/
theorem take_eq_metadataBody {bytes : Bytes} (hlen : bytes.length = raftMetadataRecordSize)
    (hmagic : field bytes 0 4 = metadataMagic.take 4) (hversion : byteOf bytes 4 = 1)
    (state : RaftMetadata) (hterm : readU64 bytes 5 = state.currentTerm)
    (hpresence : byteOf bytes 13 = presenceByte state)
    (hvote : readU64 bytes 14 = state.votedFor.getD 0) :
    bytes.take metadataChecksumOffset = metadataBody state := by
  rw [raftMetadataRecordSize] at hlen
  have hfront : metadataMagic = field bytes 0 5 := by
    rw [← field_append_field (i := 0) (n := 4) (m := 1) rfl, hmagic, field_one (by omega)]
    change _ = _ ++ [byteOf bytes 4]
    rw [hversion]
    rfl
  have hflag : [presenceByte state] = field bytes 13 1 := by
    rw [field_one (by omega), ← hpresence]
    rfl
  rw [metadataBody_eq, ← hterm, ← hvote, hflag, hfront, readU64, readU64, digits_field (by omega),
    digits_field (by omega), field_append_field rfl, field_append_field rfl,
    field_append_field rfl]
  rfl

/-- **The record codec of the term and the vote**: the decoder accepts what the encoder writes. -/
theorem decodeRaftMetadata_eq_ok_iff {bytes : Bytes} {state : RaftMetadata} :
    decodeRaftMetadata bytes = .ok state ↔
      state.InRange ∧ encodeRaftMetadata state = .ok bytes := by
  rw [encodeRaftMetadata_eq_ok_iff]
  unfold decodeRaftMetadata
  constructor
  · intro h
    split_ifs at h with hshort hlong hmagic hversion hcrc
    dsimp only at h
    generalize hvote : (if byteOf bytes 13 = 1 then some (readU64 bytes 14) else none) = vote at h
    split_ifs at h with hpresence hinvalid
    obtain rfl := Except.ok.inj h
    rw [not_not] at hmagic hversion hcrc
    rw [not_or, not_and, not_and, not_not] at hinvalid
    rw [not_and, not_not] at hpresence
    have hlen : bytes.length = raftMetadataRecordSize := by omega
    have hflag : byteOf bytes 13 = presenceByte ⟨readU64 bytes 5, vote⟩ ∧
        readU64 bytes 14 = vote.getD 0 ∧ (vote.isSome → readU64 bytes 5 ≠ 0) := by
      rw [← hvote]
      split_ifs with hone
      · exact ⟨hone, rfl, fun _ => hinvalid.2 hone⟩
      · have hzero : byteOf bytes 13 = 0 := by
          by_contra hne
          exact hone (hpresence hne)
        exact ⟨hzero, hinvalid.1 hzero, fun hsome => by cases hsome⟩
    obtain ⟨hbyte, hcandidate, hnonzero⟩ := hflag
    have htake := take_eq_metadataBody hlen hmagic hversion ⟨readU64 bytes 5, vote⟩ rfl
      hbyte hcandidate
    have hdrop : field bytes metadataChecksumOffset 4 = bytes.drop metadataChecksumOffset := by
      rw [field, List.take_of_length_le]
      rw [List.length_drop, hlen]
      exact le_rfl
    have hoffset : bytes.length - checksumSize = metadataChecksumOffset := by
      rw [hlen]
      rfl
    refine ⟨⟨readU64_lt _ _, fun candidate hmem => ?_⟩, fun hzero => hnonzero hzero.2 hzero.1,
      eq_withChecksum_iff.2 ⟨by rw [hlen]; decide, ?_, ?_⟩⟩
    · rw [← hvote] at hmem
      split_ifs at hmem with hone
      · obtain rfl := Option.some.inj hmem
        exact readU64_lt _ _
      · cases hmem
    · rw [hoffset, htake]
    · rw [hoffset, ← hdrop, ← htake, ← hcrc]
      rfl
  · rintro ⟨hr, hvote, rfl⟩
    obtain ⟨hmagic, hversion, hterm, hpresence, hcandidate⟩ := read_metadataBody hr
      (digits 4 (crc32 (metadataBody state)).toNat)
    obtain ⟨-, htake, hcrc⟩ := eq_withChecksum_iff.1 (Eq.refl (withChecksum (metadataBody state)))
    have hlen : (withChecksum (metadataBody state)).length = raftMetadataRecordSize := by
      rw [length_withChecksum, length_metadataBody]
      rfl
    have hoffset : (withChecksum (metadataBody state)).length - checksumSize =
        metadataChecksumOffset := by
      rw [hlen]
      rfl
    have hchecksum : readU32 (withChecksum (metadataBody state)) metadataChecksumOffset =
        (crc32 (metadataBody state)).toNat := by
      rw [← hcrc, hoffset, readU32, field, List.take_of_length_le]
      rw [List.length_drop, hlen]
      exact le_rfl
    rw [hoffset] at htake
    rw [hlen, if_neg (lt_irrefl _), if_neg (lt_irrefl _), htake, hchecksum]
    rw [← withChecksum] at hmagic hversion hterm hpresence hcandidate
    simp only [hmagic, hversion, hterm, hpresence, hcandidate, ne_eq, not_true_eq_false, if_false]
    rw [not_and] at hvote
    obtain ⟨term, vote⟩ := state
    cases vote with
    | none => simp [presenceByte]
    | some candidate =>
      have hnonzero : term ≠ 0 := fun hzero => hvote hzero rfl
      simp [presenceByte, hnonzero]

end DistributedKV
