import DistributedKV.Foundations.ByteStream
import DistributedKV.Server.Server

/-!
# The command line of the client

What `main` of `dkv_client.cpp` makes of its arguments: one port or three, an operation, and for a
write the request id, given in hexadecimal digits or drawn at random. The id that the client prints
is the one it would read (`parseRequestId_eq_some_iff`), so a write can be retried with it
(`parseArguments_retry`).
-/

namespace DistributedKV

open ByteStream
open Server (ascii)

/-! ## Ports -/

def isDigit (character : UInt8) : Bool := 48 ≤ character ∧ character ≤ 57

/-- The number that decimal digits spell. -/
def decimal (text : Bytes) : ℕ := text.foldl (fun n b => 10 * n + (b.toNat - 48)) 0

/-- `std::from_chars` for an `unsigned`: the number, and where it ends. -/
def fromChars (text : Bytes) : Option (ℕ × Bytes) :=
  let digits := text.takeWhile isDigit
  if digits = [] ∨ uint32Max < decimal digits then none
  else some (decimal digits, text.dropWhile isDigit)

/-- `parse_port`. -/
def parsePort (text : Bytes) : Option ℕ :=
  match fromChars text with
  | none => none
  | some (value, rest) => if rest ≠ [] ∨ value = 0 ∨ 65535 < value then none else some value

/-! ## Request ids -/

/-- `hex_digit`; `none` for -1. -/
def hexDigit (character : UInt8) : Option ℕ :=
  if 48 ≤ character ∧ character ≤ 57 then some (character.toNat - 48)
  else if 97 ≤ character ∧ character ≤ 102 then some (character.toNat - 97 + 10)
  else if 65 ≤ character ∧ character ≤ 70 then some (character.toNat - 65 + 10)
  else none

/-- The loop of `parse_request_id`. -/
def parseOctets : Bytes → Option Bytes
  | [] => some []
  | [_] => none
  | high :: low :: text => do
    let high ← hexDigit high
    let low ← hexDigit low
    let octets ← parseOctets text
    some (UInt8.ofNat (high <<< 4 ||| low) :: octets)

def parseRequestId (text : Bytes) : Option RequestId :=
  if text.length ≠ 32 then none
  else match parseOctets text with
    | none => none
    | some octets => if h : octets.length = 16 then some ⟨octets, h⟩ else none

/-- The character of a digit of `format_request_id`. -/
def digitCharacter (digit : ℕ) : UInt8 := (ascii "0123456789abcdef").getD digit 0

/-- The two digits of an octet. -/
def formatOctet (octet : UInt8) : Bytes :=
  [digitCharacter (octet >>> 4).toNat, digitCharacter (octet &&& 0x0f).toNat]

def formatRequestId (id : RequestId) : Bytes := id.bytes.flatMap formatOctet

/-- `generate_request_id`; the arrivals are what `getrandom` returns. -/
def generateRequestId (random : List Arrival) : Option RequestId :=
  match h : receiveAll 16 random with
  | none => none
  | some (octets, _) => some ⟨octets, (receiveAll_eq_some h).1⟩

/-- A digit in capitals stands for the same one in small letters. -/
def lowerDigit (character : UInt8) : UInt8 :=
  if 65 ≤ character ∧ character ≤ 70 then character + 32 else character

theorem hexDigit_eq_some_iff {character : UInt8} {digit : ℕ} :
    hexDigit character = some digit ↔
      digit < 16 ∧ lowerDigit character = digitCharacter digit := by
  have hlt : ∀ c : Fin 256, ∀ d ∈ hexDigit (UInt8.ofNat c), d < 16 := by decide +kernel
  have hiff : ∀ c : Fin 256, ∀ d : Fin 16, hexDigit (UInt8.ofNat c) = some d.val ↔
      lowerDigit (UInt8.ofNat c) = digitCharacter d := by decide +kernel
  obtain ⟨c, rfl⟩ : ∃ c : Fin 256, UInt8.ofNat c = character :=
    ⟨⟨character.toNat, character.toNat_lt⟩, UInt8.ofNat_toNat⟩
  constructor
  · intro h
    have hd := hlt c digit h
    exact ⟨hd, (hiff c ⟨digit, hd⟩).1 h⟩
  · rintro ⟨hd, h⟩
    exact (hiff c ⟨digit, hd⟩).2 h

/-- Two digits make an octet, and an octet has two digits. -/
theorem formatOctet_eq_iff {octet high low : UInt8} :
    [lowerDigit high, lowerDigit low] = formatOctet octet ↔ ∃ h l, hexDigit high = some h ∧
      hexDigit low = some l ∧ UInt8.ofNat (h <<< 4 ||| l) = octet := by
  have hsplit : ∀ o : Fin 256, (UInt8.ofNat o >>> 4).toNat < 16 ∧ (UInt8.ofNat o &&& 0x0f).toNat <
      16 ∧ UInt8.ofNat ((UInt8.ofNat o >>> 4).toNat <<< 4 ||| (UInt8.ofNat o &&& 0x0f).toNat) =
        UInt8.ofNat o := by decide +kernel
  have hjoin : ∀ h l : Fin 16, (UInt8.ofNat (h.val <<< 4 ||| l.val) >>> 4).toNat = h ∧
      (UInt8.ofNat (h.val <<< 4 ||| l.val) &&& 0x0f).toNat = l := by decide +kernel
  constructor
  · intro h
    obtain ⟨o, rfl⟩ : ∃ o : Fin 256, UInt8.ofNat o = octet :=
      ⟨⟨octet.toNat, octet.toNat_lt⟩, UInt8.ofNat_toNat⟩
    obtain ⟨hhigh, hlow, hoctet⟩ := hsplit o
    rw [formatOctet, List.cons.injEq, List.cons.injEq] at h
    exact ⟨_, _, hexDigit_eq_some_iff.2 ⟨hhigh, h.1⟩, hexDigit_eq_some_iff.2 ⟨hlow, h.2.1⟩, hoctet⟩
  · rintro ⟨h, l, hh, hl, rfl⟩
    obtain ⟨hlt, hhigh⟩ := hexDigit_eq_some_iff.1 hh
    obtain ⟨llt, hlow⟩ := hexDigit_eq_some_iff.1 hl
    obtain ⟨hh', hl'⟩ := hjoin ⟨h, hlt⟩ ⟨l, llt⟩
    rw [formatOctet, hh', hl', hhigh, hlow]

theorem length_flatMap_formatOctet (octets : Bytes) :
    (octets.flatMap formatOctet).length = 2 * octets.length := by
  induction octets with
  | nil => rfl
  | cons octet octets ih =>
    rw [List.flatMap_cons, List.length_append, ih, formatOctet, List.length_cons]
    simp only [List.length_cons, List.length_nil]
    omega

theorem parseOctets_eq_some_iff {text octets : Bytes} :
    parseOctets text = some octets ↔ text.map lowerDigit = octets.flatMap formatOctet := by
  induction text using parseOctets.induct generalizing octets with
  | case1 =>
    cases octets with
    | nil => exact iff_of_true rfl rfl
    | cons octet octets => simp [parseOctets, formatOctet]
  | case2 character =>
    refine iff_of_false (by simp [parseOctets]) fun h => ?_
    have hlen := congrArg List.length h
    rw [length_flatMap_formatOctet, List.length_map, List.length_singleton] at hlen
    omega
  | case3 high low text ih =>
    cases octets with
    | nil => simp [parseOctets, Option.bind_eq_some_iff]
    | cons octet octets =>
      have hfront : lowerDigit high :: lowerDigit low :: text.map lowerDigit =
          formatOctet octet ++ octets.flatMap formatOctet ↔
            [lowerDigit high, lowerDigit low] = formatOctet octet ∧
              text.map lowerDigit = octets.flatMap formatOctet := by
        simp [formatOctet, and_assoc]
      rw [List.map_cons, List.map_cons, List.flatMap_cons, hfront, formatOctet_eq_iff, ← ih]
      simp only [parseOctets, Option.bind_eq_bind, Option.bind_eq_some_iff, Option.some.injEq,
        List.cons.injEq]
      constructor
      · rintro ⟨h, hh, l, hl, rest, hrest, rfl, rfl⟩
        exact ⟨⟨h, l, hh, hl, rfl⟩, hrest⟩
      · rintro ⟨⟨h, l, hh, hl, rfl⟩, hrest⟩
        exact ⟨h, hh, l, hl, octets, hrest, rfl, rfl⟩

/-- **Request ids as text**: an id is read from exactly the texts that differ from the printed one
in capitals only. -/
theorem parseRequestId_eq_some_iff {text : Bytes} {id : RequestId} :
    parseRequestId text = some id ↔ text.map lowerDigit = formatRequestId id := by
  have hformat : (formatRequestId id).length = 32 := by
    rw [formatRequestId, length_flatMap_formatOctet, id.size_eq]
  unfold parseRequestId
  constructor
  · intro h
    split_ifs at h
    split at h
    · cases h
    next octets hoctets =>
    split_ifs at h with hsize
    obtain rfl := Option.some.inj h
    exact parseOctets_eq_some_iff.1 hoctets
  · intro h
    have hlen := congrArg List.length h
    rw [List.length_map, hformat] at hlen
    rw [if_neg (not_not.2 hlen), parseOctets_eq_some_iff.2 h]
    dsimp only
    rw [dif_pos id.size_eq]

theorem lowerDigit_formatOctet (octet : UInt8) :
    (formatOctet octet).map lowerDigit = formatOctet octet := by
  have hall : ∀ o : Fin 256, (formatOctet (UInt8.ofNat o)).map lowerDigit =
      formatOctet (UInt8.ofNat o) := by decide +kernel
  have h := hall ⟨octet.toNat, octet.toNat_lt⟩
  rwa [UInt8.ofNat_toNat] at h

theorem parseRequestId_formatRequestId (id : RequestId) :
    parseRequestId (formatRequestId id) = some id := by
  refine parseRequestId_eq_some_iff.2 ?_
  rw [formatRequestId, List.map_flatMap]
  exact congrArg (fun f => id.bytes.flatMap f) (funext lowerDigit_formatOctet)

/-! ## Arguments -/

/-- One server, or all three in the order of their ids. -/
inductive Ports
  | single (port : ℕ)
  | cluster (port₁ port₂ port₃ : ℕ)
  deriving DecidableEq

/-- What the client is asked to do, or why it refuses. -/
inductive Plan
  | usage
  | invalidPort
  | invalidClusterPort
  | invalidRequestId
  | noRequestId
  | write (ports : Ports) (command : Command) (id : RequestId)
  | read (ports : Ports) (key : Bytes)
  | status (ports : Ports)
  deriving DecidableEq

def operations : List Bytes := [ascii "put", ascii "delete", ascii "get", ascii "status"]

/-- The part of `main` that reads the ports, and the arguments behind them. -/
def parsePorts (arguments : List Bytes) : Except Plan (Ports × List Bytes) :=
  match arguments with
  | port₁ :: second :: rest =>
    match parsePort port₁ with
    | none => .error .invalidPort
    | some port₁ =>
      if second ∈ operations then .ok (.single port₁, second :: rest)
      else
        match rest with
        | third :: operation :: operands =>
          match parsePort second, parsePort third with
          | some port₂, some port₃ =>
            if port₁ = port₂ ∨ port₁ = port₃ ∨ port₂ = port₃ then .error .invalidClusterPort
            else .ok (.cluster port₁ port₂ port₃, operation :: operands)
          | _, _ => .error .invalidClusterPort
        | _ => .error .usage
  | _ => .error .usage

/-- A write with the id that was given or drawn. -/
def writePlan (ports : Ports) (type : CommandType) (key value : Bytes) (failure : Plan)
    (id : Option RequestId) : Plan :=
  match id with
  | none => failure
  | some id => .write ports ⟨type, key, value, some id⟩ id

/-- `main`, up to the exchange with a server. -/
def parseArguments (arguments : List Bytes) (random : List Arrival) : Plan :=
  match parsePorts arguments with
  | .error plan => plan
  | .ok (ports, operation :: operands) =>
    if operation = ascii "put" then
      match operands with
      | [key, value] => writePlan ports .put key value .noRequestId (generateRequestId random)
      | [key, value, id] => writePlan ports .put key value .invalidRequestId (parseRequestId id)
      | _ => .usage
    else if operation = ascii "delete" then
      match operands with
      | [key] => writePlan ports .delete key [] .noRequestId (generateRequestId random)
      | [key, id] => writePlan ports .delete key [] .invalidRequestId (parseRequestId id)
      | _ => .usage
    else if operation = ascii "get" then
      match operands with
      | [key] => .read ports key
      | _ => .usage
    else if operation = ascii "status" then
      match operands with
      | [] => .status ports
      | _ => .usage
    else .usage
  | .ok (_, []) => .usage

/-- The arguments behind the operation do not matter for the ports. -/
theorem parsePorts_append {arguments : List Bytes} {ports : Ports} {operation : Bytes}
    {operands : List Bytes} (h : parsePorts arguments = .ok (ports, operation :: operands))
    (more : List Bytes) :
    parsePorts (arguments ++ more) = .ok (ports, operation :: (operands ++ more)) := by
  match arguments with
  | [] | [_] => cases h
  | first :: second :: rest =>
    simp only [parsePorts, List.cons_append] at h ⊢
    cases hport : parsePort first with
    | none =>
      rw [hport] at h
      cases h
    | some port₁ =>
      rw [hport] at h
      dsimp only at h ⊢
      split_ifs at h ⊢ with hsecond
      · obtain ⟨rfl, hrest⟩ := Prod.mk.inj (Except.ok.inj h)
        obtain ⟨rfl, rfl⟩ := List.cons.inj hrest
        rfl
      match rest with
      | [] | [_] => cases h
      | third :: operation' :: operands' =>
        simp only [List.cons_append] at h ⊢
        split at h
        · next port₂ port₃ h₂ h₃ =>
          split_ifs at h ⊢ with hdistinct
          obtain ⟨rfl, hrest⟩ := Prod.mk.inj (Except.ok.inj h)
          obtain ⟨rfl, rfl⟩ := List.cons.inj hrest
          rfl
        · cases h

theorem writePlan_eq_write {ports ports' : Ports} {type : CommandType} {key value : Bytes}
    {failure : Plan} {id : Option RequestId} {id' : RequestId} {command : Command}
    (hf : ∀ ports command id, failure ≠ .write ports command id) :
    writePlan ports type key value failure id = .write ports' command id' ↔
      id = some id' ∧ ports' = ports ∧ command = ⟨type, key, value, some id'⟩ := by
  cases id with
  | none => exact iff_of_false (hf _ _ _) (by simp)
  | some id =>
    simp only [writePlan, Plan.write.injEq, Option.some.injEq]
    constructor
    · rintro ⟨rfl, rfl, rfl⟩
      exact ⟨rfl, rfl, rfl⟩
    · rintro ⟨rfl, rfl, rfl⟩
      exact ⟨rfl, rfl, rfl⟩

theorem parsePorts_ne_write (arguments : List Bytes) (ports : Ports) (command : Command)
    (id : RequestId) : parsePorts arguments ≠ .error (.write ports command id) := by
  intro h
  unfold parsePorts at h
  repeat' split at h
  all_goals cases h

/-- What a plan for a write comes from. -/
theorem parseArguments_eq_write_iff {arguments : List Bytes} {random : List Arrival} {ports : Ports}
    {command : Command} {id : RequestId} :
    parseArguments arguments random = .write ports command id ↔
      ∃ key value drawn,
        (parsePorts arguments = .ok (ports, ascii "put" :: key :: value :: drawn) ∧
            command = ⟨.put, key, value, some id⟩ ∨
          parsePorts arguments = .ok (ports, ascii "delete" :: key :: drawn) ∧ value = [] ∧
            command = ⟨.delete, key, [], some id⟩) ∧
        (drawn = [] ∧ generateRequestId random = some id ∨
          ∃ text, drawn = [text] ∧ parseRequestId text = some id) := by
  have hne : ascii "delete" ≠ ascii "put" := by decide
  constructor
  · intro h
    unfold parseArguments at h
    split at h
    · next plan hports => exact absurd (h ▸ hports) (parsePorts_ne_write _ _ _ _)
    · next ports' operation operands hports =>
      split_ifs at h with hput hdelete
      · subst hput
        split at h
        · obtain ⟨hid, rfl, rfl⟩ := (writePlan_eq_write (by simp)).1 h
          exact ⟨_, _, [], Or.inl ⟨hports, rfl⟩, Or.inl ⟨rfl, hid⟩⟩
        · obtain ⟨hid, rfl, rfl⟩ := (writePlan_eq_write (by simp)).1 h
          exact ⟨_, _, [_], Or.inl ⟨hports, rfl⟩, Or.inr ⟨_, rfl, hid⟩⟩
        · cases h
      · subst hdelete
        split at h
        · obtain ⟨hid, rfl, rfl⟩ := (writePlan_eq_write (by simp)).1 h
          exact ⟨_, [], [], Or.inr ⟨hports, rfl, rfl⟩, Or.inl ⟨rfl, hid⟩⟩
        · obtain ⟨hid, rfl, rfl⟩ := (writePlan_eq_write (by simp)).1 h
          exact ⟨_, [], [_], Or.inr ⟨hports, rfl, rfl⟩, Or.inr ⟨_, rfl, hid⟩⟩
        · cases h
      · split at h <;> cases h
      · split at h <;> cases h
    · cases h
  · rintro ⟨key, value, drawn, ⟨hports, rfl⟩ | ⟨hports, rfl, rfl⟩, ⟨rfl, hid⟩ | ⟨text, rfl, hid⟩⟩
    · simp only [parseArguments, hports, if_true, hid, writePlan]
    · simp only [parseArguments, hports, if_true, hid, writePlan]
    · simp only [parseArguments, hports, if_neg hne, if_true, hid, writePlan]
    · simp only [parseArguments, hports, if_neg hne, if_true, hid, writePlan]

theorem requestId_of_parseArguments {arguments : List Bytes} {random : List Arrival} {ports : Ports}
    {command : Command} {id : RequestId}
    (h : parseArguments arguments random = .write ports command id) :
    command.requestId = some id := by
  obtain ⟨key, value, drawn, ⟨-, rfl⟩ | ⟨-, -, rfl⟩, -⟩ := parseArguments_eq_write_iff.1 h <;> rfl

/-- **Every write can be repeated**: the command line names the id of the write already, or it does
with the printed id at its end. Either line asks for the same command under the same id, whatever
random bytes it meets. -/
theorem parseArguments_retry {arguments : List Bytes} {random : List Arrival} {ports : Ports}
    {command : Command} {id : RequestId}
    (h : parseArguments arguments random = .write ports command id) :
    command.requestId = some id ∧
      ∃ more, (more = [] ∨ more = [formatRequestId id]) ∧
        ∀ random', parseArguments (arguments ++ more) random' = .write ports command id := by
  obtain ⟨key, value, drawn, hplan, hid⟩ := parseArguments_eq_write_iff.1 h
  refine ⟨requestId_of_parseArguments h, ?_⟩
  rcases hid with ⟨rfl, -⟩ | ⟨text, rfl, hid⟩
  · refine ⟨[formatRequestId id], Or.inr rfl, fun random' => parseArguments_eq_write_iff.2
      ⟨key, value, [formatRequestId id], ?_, Or.inr ⟨_, rfl, parseRequestId_formatRequestId id⟩⟩⟩
    rcases hplan with ⟨hports, hc⟩ | ⟨hports, hv, hc⟩
    · exact Or.inl ⟨parsePorts_append hports _, hc⟩
    · exact Or.inr ⟨parsePorts_append hports _, hv, hc⟩
  · refine ⟨[], Or.inl rfl, fun random' => ?_⟩
    rw [List.append_nil]
    exact parseArguments_eq_write_iff.2 ⟨key, value, [text], hplan, Or.inr ⟨text, rfl, hid⟩⟩

/-- `dkv_client 9101 delete k`, and what `getrandom` returns. -/
def deleteArguments : List Bytes := [ascii "9101", ascii "delete", ascii "k"]

def drawnBytes : List Arrival := [.interrupted, .chunk [1, 2, 3], .chunk (List.replicate 13 255)]

theorem parseArguments_retry_delete : ∃ id : RequestId, ∃ more,
    (more = [] ∨ more = [formatRequestId id]) ∧
    ∀ random', parseArguments (deleteArguments ++ more) random' =
      .write (.single 9101) ⟨.delete, ascii "k", [], some id⟩ id := by
  have h : parseArguments deleteArguments drawnBytes = .write (.single 9101)
      ⟨.delete, ascii "k", [], some ⟨[1, 2, 3] ++ List.replicate 13 255, rfl⟩⟩
      ⟨[1, 2, 3] ++ List.replicate 13 255, rfl⟩ := by decide +kernel
  exact ⟨_, (parseArguments_retry h).2⟩

end DistributedKV
