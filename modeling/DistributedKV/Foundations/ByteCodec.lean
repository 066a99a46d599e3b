import Mathlib.Data.List.Basic
import Mathlib.Data.Nat.Notation
import Mathlib.Data.Nat.Bitwise
import Mathlib.Tactic.Ring

/-!
# Numbers and fields in byte strings

Unsigned numbers of fixed width, most significant byte first, and the fields of a byte string. A
number is read by shifting in one byte after the other. A field is what stands at a position with a
length; adjacent fields join, and a field of a concatenation is one of its parts.
-/

namespace ByteCodec

/-! ## Numbers -/

/-- The number that a byte string spells, most significant byte first. -/
def value (bytes : List UInt8) : ℕ := bytes.foldl (fun v b => v <<< 8 ||| b.toNat) 0

/-- The last `n` bytes of a number, most significant first. -/
def digits : ℕ → ℕ → List UInt8
  | 0, _ => []
  | n + 1, v => UInt8.ofNat (v / 256 ^ n) :: digits n v

@[simp] theorem length_digits (n v : ℕ) : (digits n v).length = n := by
  induction n with
  | zero => rfl
  | succ n ih => simp [digits, ih]

@[simp] theorem value_nil : value [] = 0 := rfl

theorem shiftIn_eq (v : ℕ) (b : UInt8) : v <<< 8 ||| b.toNat = v * 256 + b.toNat := by
  rw [← Nat.shiftLeft_add_eq_or_of_lt (UInt8.toNat_lt b), Nat.shiftLeft_eq]

theorem foldl_shiftIn (v : ℕ) (bytes : List UInt8) :
    bytes.foldl (fun v b => v <<< 8 ||| b.toNat) v = v * 256 ^ bytes.length + value bytes := by
  induction bytes generalizing v with
  | nil => simp
  | cons b bytes ih =>
    have hv : value (b :: bytes) = b.toNat * 256 ^ bytes.length + value bytes := by
      rw [value, List.foldl_cons, ih, shiftIn_eq, Nat.zero_mul, Nat.zero_add]
    rw [List.foldl_cons, ih, shiftIn_eq, hv, List.length_cons]
    ring

theorem value_cons (b : UInt8) (bytes : List UInt8) :
    value (b :: bytes) = b.toNat * 256 ^ bytes.length + value bytes := by
  rw [value, List.foldl_cons, foldl_shiftIn, shiftIn_eq, Nat.zero_mul, Nat.zero_add]

theorem value_lt (bytes : List UInt8) : value bytes < 256 ^ bytes.length := by
  induction bytes with
  | nil => simp
  | cons b bytes ih =>
    have hb := UInt8.toNat_lt b
    rw [value_cons, List.length_cons]
    calc b.toNat * 256 ^ bytes.length + value bytes
        < b.toNat * 256 ^ bytes.length + 256 ^ bytes.length := Nat.add_lt_add_left ih _
      _ = (b.toNat + 1) * 256 ^ bytes.length := by ring
      _ ≤ 256 * 256 ^ bytes.length := Nat.mul_le_mul_right _ (by omega)
      _ = 256 ^ (bytes.length + 1) := by ring

/-- A number is what its digits spell. -/
theorem value_digits (n : ℕ) {v : ℕ} (h : v < 256 ^ n) : value (digits n v) = v := by
  have key : ∀ n v, value (digits n v) = v % 256 ^ n := by
    intro n
    induction n with
    | zero => simp [digits, Nat.mod_one]
    | succ n ih =>
      intro v
      have hmod : v % 256 ^ (n + 1) = v % 256 ^ n + 256 ^ n * (v / 256 ^ n % 256) := by
        rw [pow_succ, Nat.mod_mul]
      rw [digits, value_cons, ih, length_digits, UInt8.toNat_ofNat', hmod]
      ring
  rw [key, Nat.mod_eq_of_lt h]

/-- Bytes are the digits of what they spell. -/
theorem digits_value (bytes : List UInt8) : digits bytes.length (value bytes) = bytes := by
  have key : ∀ (bytes : List UInt8) (w : ℕ),
      digits bytes.length (w * 256 ^ bytes.length + value bytes) = bytes := by
    intro bytes
    induction bytes with
    | nil => simp [digits]
    | cons b bytes ih =>
      intro w
      have hlt := value_lt bytes
      have hsplit : w * 256 ^ (bytes.length + 1) + value (b :: bytes) =
          (w * 256 + b.toNat) * 256 ^ bytes.length + value bytes := by
        rw [value_cons]
        ring
      rw [List.length_cons, hsplit, digits, ih]
      congr 1
      rw [Nat.mul_comm, Nat.mul_add_div (Nat.pos_of_ne_zero (by simp)), Nat.div_eq_of_lt hlt,
        Nat.add_zero]
      apply UInt8.toNat_inj.1
      have hb := UInt8.toNat_lt b
      rw [UInt8.toNat_ofNat']
      omega
  simpa using key bytes 0

/-! ## Reading from the front -/

/-- Take a number of `n` bytes from the front, if there are that many. -/
def takeNumber (n : ℕ) (bytes : List UInt8) : Option (ℕ × List UInt8) :=
  if bytes.length < n then none else some (value (bytes.take n), bytes.drop n)

/-- A number can be taken from exactly the byte strings that start with its digits. -/
theorem takeNumber_eq_some_iff {n v : ℕ} {bytes rest : List UInt8} :
    takeNumber n bytes = some (v, rest) ↔ v < 256 ^ n ∧ bytes = digits n v ++ rest := by
  unfold takeNumber
  constructor
  · intro h
    split_ifs at h with hlen
    obtain ⟨rfl, rfl⟩ := Prod.mk.inj (Option.some.inj h)
    have htake : (bytes.take n).length = n := List.length_take_of_le (not_lt.1 hlen)
    have hlt := value_lt (bytes.take n)
    have hdigits := digits_value (bytes.take n)
    rw [htake] at hlt hdigits
    exact ⟨hlt, by rw [hdigits, List.take_append_drop]⟩
  · rintro ⟨hv, rfl⟩
    have hlen := length_digits n v
    rw [if_neg (by rw [List.length_append]; omega), List.take_left' hlen, List.drop_left' hlen,
      value_digits n hv]

theorem takeNumber_append {n v : ℕ} (hv : v < 256 ^ n) (rest : List UInt8) :
    takeNumber n (digits n v ++ rest) = some (v, rest) :=
  takeNumber_eq_some_iff.2 ⟨hv, rfl⟩

/-- Take one byte from the front. -/
def takeByte : List UInt8 → Option (UInt8 × List UInt8)
  | [] => none
  | b :: bytes => some (b, bytes)

theorem takeByte_eq_some_iff {b : UInt8} {bytes rest : List UInt8} :
    takeByte bytes = some (b, rest) ↔ bytes = b :: rest := by
  cases bytes with
  | nil => simp [takeByte]
  | cons b' bytes => simp [takeByte]

/-! ## Fields -/

/-- The `n` bytes at position `i`. -/
def field (bytes : List UInt8) (i n : ℕ) : List UInt8 := (bytes.drop i).take n

theorem length_field {bytes : List UInt8} {i n : ℕ} (h : i + n ≤ bytes.length) :
    (field bytes i n).length = n := by
  rw [field, List.length_take, List.length_drop]
  omega

/-- Adjacent fields join. -/
theorem field_append_field {bytes : List UInt8} {i n j m : ℕ} (h : i + n = j) :
    field bytes i n ++ field bytes j m = field bytes i (n + m) := by
  subst h
  rw [field, field, field, List.take_add, List.drop_drop]

theorem field_zero_length (bytes : List UInt8) : field bytes 0 bytes.length = bytes := by
  rw [field, List.drop_zero, List.take_length]

theorem field_zero {bytes : List UInt8} {n : ℕ} (h : n = bytes.length) :
    field bytes 0 n = bytes := by
  rw [h, field_zero_length]

theorem digits_field {bytes : List UInt8} {i n : ℕ} (h : i + n ≤ bytes.length) :
    digits n (value (field bytes i n)) = field bytes i n := by
  have hd := digits_value (field bytes i n)
  rwa [length_field h] at hd

theorem field_one {bytes : List UInt8} {i : ℕ} (h : i < bytes.length) :
    field bytes i 1 = [bytes.getD i 0] := by
  rw [field, List.take_one, List.head?_drop, List.getElem?_eq_getElem h, List.getD_eq_getElem _ _ h]
  rfl

theorem field_append_left {bytes rest : List UInt8} {i n : ℕ} (h : i + n ≤ bytes.length) :
    field (bytes ++ rest) i n = field bytes i n := by
  rw [field, field, List.drop_append_of_le_length (by omega),
    List.take_append_of_le_length (by rw [List.length_drop]; omega)]

theorem field_append_right {bytes rest : List UInt8} {i n : ℕ} (h : bytes.length ≤ i) :
    field (bytes ++ rest) i n = field rest (i - bytes.length) n := by
  rw [field, field, List.drop_append, List.drop_eq_nil_of_le h, List.nil_append]

theorem field_take {bytes : List UInt8} {i n j : ℕ} (h : i + n ≤ j) :
    field (bytes.take j) i n = field bytes i n := by
  rw [field, field, List.drop_take, List.take_take, Nat.min_eq_left (by omega)]

/-- A part of a concatenation, by what stands before it. -/
theorem field_part {front part rest : List UInt8} {i n : ℕ} (hi : front.length = i)
    (hn : part.length = n) : field (front ++ (part ++ rest)) i n = part := by
  subst hi hn
  rw [field_append_right le_rfl, Nat.sub_self, field_append_left (Nat.zero_add _).le,
    field_zero_length]

theorem value_part {front rest : List UInt8} {i n v : ℕ} (hi : front.length = i)
    (hv : v < 256 ^ n) : value (field (front ++ (digits n v ++ rest)) i n) = v := by
  rw [field_part hi (length_digits n v), value_digits n hv]

/-! ## Tables of numbers -/

/-- Numbers of `n` bytes each, one after the other. -/
def numbers (n : ℕ) (l : List ℕ) : List UInt8 := l.flatMap (digits n)

@[simp] theorem length_numbers (n : ℕ) (l : List ℕ) : (numbers n l).length = n * l.length := by
  induction l with
  | nil => rfl
  | cons v l ih =>
    rw [numbers, List.flatMap_cons, List.length_append, length_digits, ← numbers, ih,
      List.length_cons]
    ring

/-- A number of a table, by its position. -/
theorem value_numbers {n : ℕ} {front rest : List UInt8} {l : List ℕ}
    (hl : ∀ v ∈ l, v < 256 ^ n) {i : ℕ} (hi : i < l.length) :
    value (field (front ++ (numbers n l ++ rest)) (front.length + n * i) n) = l[i] := by
  have hsplit : numbers n l =
      numbers n (l.take i) ++ (digits n l[i] ++ numbers n (l.drop (i + 1))) := by
    simp only [numbers]
    rw [← List.flatMap_cons, List.getElem_cons_drop, ← List.flatMap_append, List.take_append_drop]
  have hfront : (front ++ numbers n (l.take i)).length = front.length + n * i := by
    rw [List.length_append, length_numbers, List.length_take, Nat.min_eq_left hi.le]
  have hvalue : value (field (front ++ numbers n (l.take i) ++
      (digits n l[i] ++ (numbers n (l.drop (i + 1)) ++ rest))) (front.length + n * i) n) = l[i] :=
    value_part hfront (hl l[i] (List.getElem_mem hi))
  rw [hsplit]
  simpa only [List.append_assoc] using hvalue

/-- A field is the table of the numbers that can be read in it. -/
theorem numbers_field {bytes : List UInt8} {n p : ℕ} (k : ℕ) (h : p + n * k ≤ bytes.length) :
    numbers n ((List.range k).map fun i => value (field bytes (p + n * i) n)) =
      field bytes p (n * k) := by
  induction k with
  | zero => simp [numbers, field]
  | succ k ih =>
    have hle : p + n * k + n ≤ bytes.length := by
      rw [Nat.mul_succ] at h
      omega
    rw [List.range_succ, List.map_append, numbers, List.flatMap_append, ← numbers,
      ih (by omega), List.map_singleton, List.flatMap_singleton, digits_field hle,
      field_append_field rfl, Nat.mul_succ]

/-- A byte string by what stands before a table, the numbers of the table, and the rest. -/
theorem eq_append_numbers (bytes : List UInt8) (n p k : ℕ) (h : p + n * k ≤ bytes.length) :
    bytes = bytes.take p ++ (numbers n ((List.range k).map fun i =>
      value (field bytes (p + n * i) n)) ++ bytes.drop (p + n * k)) := by
  rw [numbers_field k h, field, ← List.drop_drop, List.take_append_drop, List.take_append_drop]

end ByteCodec
