import Mathlib

/-!
# Base-128 varints

The varint of a number has seven bits a byte, least significant first, with
the high bit set on every byte but the last (`encode`); `size` counts its bytes
the way the generated sizers do. A decoder generated for protocol buffers reads
a varint by ORing the low seven bits of each byte at shifts 0, 7, 14, … into a
machine word of `w` bits. It stops at the first byte below `0x80`. A byte that
would go in at shift 64 or more is an overflow, and running out of bytes is an
early end (`read`). Reading the varint of a number below `2^64` gives back the
number modulo `2^w` and the count of its bytes, whatever bytes follow
(`read_encode`).
-/
namespace Varint

/-- The byte written before more bytes follow: the low seven bits and the high
bit. -/
theorem continuation_eq (v : ℕ) : v &&& 0x7F ||| 0x80 = v % 128 + 128 := by
  rw [Nat.and_two_pow_sub_one_eq_mod v 7, Nat.or_comm]
  have h := Nat.two_pow_add_eq_or_of_lt (Nat.mod_lt v (by decide : 0 < 2 ^ 7)) 1
  rw [Nat.mul_one] at h
  rw [← h, Nat.add_comm]

theorem shiftRight_seven (v : ℕ) : v >>> 7 = v / 128 := Nat.shiftRight_eq_div_pow v 7

/-- The varint of `v`: while `v` has more than seven bits, a byte of its low
seven bits with the high bit set, and then the varint of the bits above. -/
def encode (v : ℕ) : List (Fin 256) :=
  if h : v < 1 <<< 7 then [⟨v, Nat.lt_of_lt_of_le h (by decide)⟩]
  else ⟨v &&& 0x7F ||| 0x80, Nat.or_lt_two_pow (Nat.and_lt_two_pow v (by decide : 127 < 2 ^ 8))
    (by decide : 128 < 2 ^ 8)⟩ :: encode (v >>> 7)
termination_by v
decreasing_by
  rw [shiftRight_seven]
  omega

/-- The number of bytes of the varint: one, and one more while bits remain
above the seven of the byte. -/
def size (x : ℕ) : ℕ :=
  if x >>> 7 = 0 then 1 else size (x >>> 7) + 1
termination_by x
decreasing_by
  simp only [shiftRight_seven] at *
  omega

theorem encode_of_lt {x : ℕ} (h : x < 128) : encode x = [⟨x, Nat.lt_trans h (by decide)⟩] := by
  rw [encode, dif_pos (show x < 1 <<< 7 from h)]

theorem encode_of_le {x : ℕ} (h : 128 ≤ x) :
    encode x = ⟨x % 128 + 128, Nat.add_lt_add_right (Nat.mod_lt x (by decide)) 128⟩ ::
      encode (x / 128) := by
  rw [encode, dif_neg (by omega), shiftRight_seven]
  exact congrArg (· :: encode (x / 128)) (Fin.ext (continuation_eq x))

theorem size_of_lt {x : ℕ} (h : x < 128) : size x = 1 := by
  rw [size, if_pos (by rw [shiftRight_seven]; omega)]

theorem size_of_le {x : ℕ} (h : 128 ≤ x) : size x = size (x / 128) + 1 := by
  rw [size, if_neg (by rw [shiftRight_seven]; omega), shiftRight_seven]

theorem length_encode (x : ℕ) : (encode x).length = size x := by
  induction x using Nat.strongRecOn with
  | ind x ih =>
    by_cases h : x < 128
    · rw [encode_of_lt h, size_of_lt h, List.length_singleton]
    · have hle := Nat.le_of_not_lt h
      rw [encode_of_le hle, size_of_le hle, List.length_cons, ih (x / 128) (by omega)]

theorem size_pos (x : ℕ) : 0 < size x := by
  rw [← length_encode, encode]
  split <;> simp

/-- Why `read` fails. -/
inductive Error
  | overflow
  | eof
  deriving DecidableEq, Repr

/-- The varint loop of a generated decoder from `shift`, with the word `acc`
of `w` bits read so far: the word, and the number of bytes read. -/
def read (w : ℕ) : ℕ → ℕ → List (Fin 256) → Except Error (ℕ × ℕ)
  | shift, acc, bs =>
    if 64 ≤ shift then .error .overflow
    else
      match bs with
      | [] => .error .eof
      | b :: rest =>
        let acc := (acc ||| (b.val &&& 0x7F) <<< shift) % 2 ^ w
        if b.val < 0x80 then .ok (acc, 1)
        else (read w (shift + 7) acc rest).map fun r => (r.1, r.2 + 1)

/-- The loop reads a byte at least, at most one byte for each seven bits left
below 64, and only bytes that are there. -/
theorem read_count {w : ℕ} : ∀ {s acc : ℕ} {bs : List (Fin 256)} {r : ℕ × ℕ},
    read w s acc bs = .ok r → 0 < r.2 ∧ 7 * r.2 ≤ 70 - s ∧ r.2 ≤ bs.length
  | s, acc, [], r, h => by
    rw [read] at h
    split_ifs at h
  | s, acc, b :: rest, r, h => by
    rw [read] at h
    by_cases hs : 64 ≤ s
    · rw [if_pos hs] at h
      cases h
    rw [if_neg hs] at h
    by_cases hb : b.val < 0x80
    · simp only [if_pos hb, Except.ok.injEq] at h
      subst h
      exact ⟨Nat.one_pos, by omega, by simp⟩
    · -- a byte with the high bit set: the rest is read from the next shift
      simp only [if_neg hb] at h
      revert h
      cases hr : read w (s + 7) ((acc ||| (b.val &&& 0x7F) <<< s) % 2 ^ w) rest with
      | error e => intro h; cases h
      | ok r' =>
        intro h
        simp only [Except.map, Except.ok.injEq] at h
        subst h
        have := read_count hr
        exact ⟨Nat.succ_pos _, by omega, by simp only [List.length_cons]; omega⟩

/-- The seven payload bits of a byte. -/
theorem val_and_127 (b : ℕ) : b &&& 0x7F = b % 128 :=
  Nat.and_two_pow_sub_one_eq_mod b 7

/-- ORing in the next seven bits of `V` at `shift` extends the low bits read. -/
theorem acc_step (w V s : ℕ) :
    ((V % 2 ^ s % 2 ^ w) ||| (V / 2 ^ s % 128) <<< s) % 2 ^ w = V % 2 ^ (s + 7) % 2 ^ w := by
  have hlow : V % 2 ^ s < 2 ^ s := Nat.mod_lt _ (Nat.two_pow_pos s)
  have hsplit : V % 2 ^ (s + 7) = 2 ^ s * (V / 2 ^ s % 128) ||| V % 2 ^ s := by
    rw [← Nat.two_pow_add_eq_or_of_lt hlow, Nat.pow_add, Nat.mod_mul, Nat.add_comm]
  rw [hsplit, Nat.shiftLeft_eq, Nat.or_mod_two_pow, Nat.or_mod_two_pow, Nat.mod_mod,
    Nat.or_comm, Nat.mul_comm]

/-- Reading the rest of the varint of `V` from the byte at `shift`. -/
theorem read_encode_from {w V : ℕ} (hV : V < 2 ^ 64) (rest : List (Fin 256)) :
    ∀ s, s % 7 = 0 → s ≤ 63 →
      read w s (V % 2 ^ s % 2 ^ w) (encode (V / 2 ^ s) ++ rest) =
        .ok (V % 2 ^ w, (encode (V / 2 ^ s)).length) := by
  intro s
  induction h : 64 - s using Nat.strongRecOn generalizing s with
  | ind n ih =>
    intro hs7 hs
    have hq : V / 2 ^ s / 128 = V / 2 ^ (s + 7) := by
      rw [Nat.div_div_eq_div_mul, Nat.pow_add]
    by_cases hlast : V / 2 ^ s < 128
    · -- the last byte: `V` has no bits from `s + 7` on
      have hlt : V < 2 ^ (s + 7) := by
        have h128 := (Nat.div_lt_iff_lt_mul (Nat.two_pow_pos s)).mp hlast
        rw [Nat.pow_add]
        omega
      rw [encode_of_lt hlast, List.singleton_append, read, if_neg (by omega)]
      have hstep := acc_step w V s
      rw [Nat.mod_eq_of_lt hlast, Nat.mod_eq_of_lt hlt] at hstep
      simp only [if_pos hlast, val_and_127, Nat.mod_eq_of_lt hlast, hstep, List.length_singleton]
    · -- a byte with the high bit set, then the varint of the bits from `s + 7`
      have hs' : s + 7 ≤ 63 := by
        by_contra hgt
        have h63 : s = 63 := by omega
        subst h63
        exact hlast (by omega)
      rw [encode_of_le (Nat.le_of_not_lt hlast), List.cons_append, read, if_neg (by omega)]
      simp only [show ¬(V / 2 ^ s % 128 + 128 < 128) by omega, if_false, val_and_127,
        Nat.add_mod_right, Nat.mod_mod]
      rw [acc_step, hq, ih (64 - (s + 7)) (by omega) (s + 7) rfl (by omega) hs']
      rfl

/-- Reading the varint of a number below `2^64` gives the number, as a word of
`w` bits, and the length of the varint; the bytes after it are not read. -/
theorem read_encode {w V : ℕ} (hV : V < 2 ^ 64) (rest : List (Fin 256)) :
    read w 0 0 (encode V ++ rest) = .ok (V % 2 ^ w, size V) := by
  have h := @read_encode_from w V hV rest 0 rfl (by omega)
  simpa [length_encode, Nat.mod_one] using h

end Varint
