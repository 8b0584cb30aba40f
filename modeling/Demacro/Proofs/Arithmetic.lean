import Demacro.Constant.Folding
import Mathlib.Data.List.Basic
import Mathlib.Tactic.Ring

/-!
The values of the integer types, what a number becomes in a type, and the rules of the language for
the type of an operand: promotion, and the type in which two promoted operands meet. The last part
says that the tables of the program follow these rules.
-/

namespace Demacro

namespace IntegerType

/-- The number is a value of the type. -/
def Holds (t : IntegerType) (n : Int) : Prop :=
  t.least ≤ n ∧ n ≤ t.greatest

instance (t : IntegerType) (n : Int) : Decidable (t.Holds n) :=
  inferInstanceAs (Decidable (_ ∧ _))

/-- Every value of the other type is a value of this one. -/
def Covers (t u : IntegerType) : Prop :=
  t.least ≤ u.least ∧ u.greatest ≤ t.greatest

instance (t u : IntegerType) : Decidable (t.Covers u) :=
  inferInstanceAs (Decidable (_ ∧ _))

/-- A number becomes a value of a type: for `bool` it is compared with zero, and otherwise it is
changed by a multiple of the number of values that the bits can tell apart. -/
def Converts (t : IntegerType) (n m : Int) : Prop :=
  if t = .bool then m = if n = 0 then 0 else 1 else t.Holds m ∧ (2 ^ t.bits : Int) ∣ m - n

/-- Arithmetic in a type has a value where the exact result is the given number. Results of unsigned
types count modulo the number of their values. A result that a signed type does not hold is
undefined. -/
def Computes (t : IntegerType) (n m : Int) : Prop :=
  t.Holds m ∧ if t.isSigned then m = n else (2 ^ t.bits : Int) ∣ m - n

/-- The type that an operand of the given type has in arithmetic. A type whose rank is below that of
`int`, and the types of wide characters, become the first type of a row that covers them. -/
def promoted (t : IntegerType) : IntegerType :=
  if t.rank < IntegerType.int.rank ∨ t = .wchar ∨ t = .char32 then
    ([.int, .unsignedInt, .long, .unsignedLong, .longLong, .unsignedLongLong].find? fun u =>
      u.Covers t).getD t
  else t

/-- The first of two promoted types decides what both operands are converted to: that type itself,
or the unsigned type of its size. -/
inductive Prevails : IntegerType → IntegerType → IntegerType → Prop where
  | same : Prevails t t t
  | greater (hSign : t.isSigned = u.isSigned) (hRank : u.rank < t.rank) : Prevails t u t
  | unsigned (hUnsigned : t.isSigned = false) (hSigned : u.isSigned = true)
      (hRank : u.rank ≤ t.rank) : Prevails t u t
  | signed (hSigned : t.isSigned = true) (hUnsigned : u.isSigned = false) (hRank : u.rank < t.rank)
      (hCovers : t.Covers u) : Prevails t u t
  | beside (hSigned : t.isSigned = true) (hUnsigned : u.isSigned = false) (hRank : u.rank < t.rank)
      (hCovers : ¬ t.Covers u) : Prevails t u t.toUnsigned

/-- The type in which two operands meet, whichever of them comes first. -/
def Meets (t u s : IntegerType) : Prop :=
  Prevails t.promoted u.promoted s ∨ Prevails u.promoted t.promoted s

variable {t u s v : IntegerType} {a b n m k : Int}

theorem Covers.holds (h : t.Covers u) (hn : u.Holds n) : t.Holds n :=
  ⟨h.1.trans hn.1, hn.2.trans h.2⟩

theorem holds_bool_iff : IntegerType.bool.Holds n ↔ n = 0 ∨ n = 1 := by
  show (0 : Int) ≤ n ∧ n ≤ 1 ↔ _
  omega

theorem modulus_eq_pow (t : IntegerType) : (t.modulus : Int) = 2 ^ t.bits := by
  cases t <;> rfl

theorem modulus_pos (t : IntegerType) : 0 < (t.modulus : Int) := by
  cases t <;> decide

theorem modulus_eq_two_mul_half (t : IntegerType) : (t.modulus : Int) = 2 * t.half := by
  cases t <;> rfl

theorem holds_iff_of_isSigned (h : t.isSigned = true) :
    t.Holds n ↔ -(t.half : Int) ≤ n ∧ n < t.half := by
  simp only [Holds, least, greatest, h, if_true]
  omega

theorem holds_iff_of_not_isSigned (h : t.isSigned = false) : t.Holds n ↔ 0 ≤ n ∧ n < t.modulus := by
  simp only [Holds, least, greatest, h, Bool.false_eq_true, if_false]
  omega

/-- The values of a type are fewer than its bits can tell apart, so that no two of them are
congruent. -/
theorem Holds.eq_of_dvd (ha : t.Holds a) (hb : t.Holds b) (h : (2 ^ t.bits : Int) ∣ a - b) :
    a = b := by
  rw [← modulus_eq_pow] at h
  suffices hLess : (a - b).natAbs < (t.modulus : Int).natAbs by
    have hZero := Int.eq_zero_of_dvd_of_natAbs_lt_natAbs h hLess
    omega
  cases hSigned : t.isSigned with
  | true =>
      rw [holds_iff_of_isSigned hSigned] at ha hb
      have hModulus := modulus_eq_two_mul_half t
      omega
  | false =>
      rw [holds_iff_of_not_isSigned hSigned] at ha hb
      omega

theorem converts_iff (ht : t ≠ .bool) :
    t.Converts n m ↔ t.Holds m ∧ (2 ^ t.bits : Int) ∣ m - n := by
  rw [Converts, if_neg ht]

theorem Converts.holds (h : t.Converts n m) : t.Holds m := by
  unfold Converts at h
  split at h
  · rename_i hBool
    rw [hBool, holds_bool_iff]
    split at h
    · exact .inl h
    · exact .inr h
  · exact h.1

theorem Converts.unique (h : t.Converts n m) (h' : t.Converts n k) : m = k := by
  by_cases ht : t = .bool
  · rw [Converts, if_pos ht] at h h'
    rw [h, h']
  · rw [converts_iff ht] at h h'
    apply h.1.eq_of_dvd h'.1
    have hDifference := Int.dvd_sub h.2 h'.2
    rwa [sub_sub_sub_cancel_right] at hDifference

/-- A value of the type stays as it is. -/
theorem Holds.converts (h : t.Holds n) : t.Converts n n := by
  unfold Converts
  split
  · rename_i hBool
    rw [hBool, holds_bool_iff] at h
    rcases h with rfl | rfl <;> rfl
  · exact ⟨h, by simp⟩

/-- Arithmetic keeps an exact result that is a value of the type. -/
theorem Holds.computes (h : t.Holds n) : t.Computes n n := by
  refine ⟨h, ?_⟩
  split
  · rfl
  · simp

theorem holds_wrap (t : IntegerType) (n : Int) : t.Holds (t.wrap n) := by
  have hNonneg := Int.emod_nonneg n t.modulus_pos.ne'
  have hLess := Int.emod_lt_of_pos n t.modulus_pos
  unfold wrap
  cases hSigned : t.isSigned with
  | true =>
      rw [holds_iff_of_isSigned hSigned]
      have hModulus := modulus_eq_two_mul_half t
      simp only [true_and]
      split <;> omega
  | false =>
      rw [holds_iff_of_not_isSigned hSigned]
      simpa using ⟨hNonneg, hLess⟩

theorem dvd_wrap_sub (t : IntegerType) (n : Int) : (2 ^ t.bits : Int) ∣ t.wrap n - n := by
  rw [← modulus_eq_pow]
  have hRest : (t.modulus : Int) ∣ n % t.modulus - n := by
    rw [← Int.dvd_neg, Int.neg_sub]
    exact Int.dvd_self_sub_emod
  unfold wrap
  dsimp only
  split
  · rw [sub_right_comm]
    exact Int.dvd_sub hRest (Int.dvd_refl _)
  · exact hRest

theorem converts_wrap (ht : t ≠ .bool) (n : Int) : t.Converts n (t.wrap n) :=
  (converts_iff ht).mpr ⟨t.holds_wrap n, t.dvd_wrap_sub n⟩

theorem exists_converts (t : IntegerType) (n : Int) : ∃ m, t.Converts n m := by
  by_cases ht : t = .bool
  · exact ⟨_, by rw [Converts, if_pos ht]⟩
  · exact ⟨_, converts_wrap ht n⟩

theorem Computes.converts (ht : t ≠ .bool) (h : t.Computes n m) : t.Converts n m := by
  obtain ⟨hHolds, h⟩ := h
  refine (converts_iff ht).mpr ⟨hHolds, ?_⟩
  split at h
  · rw [h, Int.sub_self]
    exact Int.dvd_zero _
  · exact h

theorem Computes.unique (h : t.Computes n m) (h' : t.Computes n k) : m = k := by
  obtain ⟨hHolds, h⟩ := h
  obtain ⟨hHolds', h'⟩ := h'
  split at h
  · rw [if_pos ‹_›] at h'
    rw [h, h']
  · rw [if_neg ‹_›] at h'
    apply hHolds.eq_of_dvd hHolds'
    have hDifference := Int.dvd_sub h h'
    rwa [sub_sub_sub_cancel_right] at hDifference

/-- The bits of a value in two's complement do not change when it is brought into the type. -/
theorem bits_wrap (t : IntegerType) (n : Int) :
    BitVec.ofInt t.bits (t.wrap n) = BitVec.ofInt t.bits n := by
  rw [← BitVec.toInt_inj, BitVec.toInt_ofInt, BitVec.toInt_ofInt,
    Int.bmod_eq_bmod_iff_bmod_sub_eq_zero]
  apply Int.bmod_eq_zero_of_dvd
  simpa using t.dvd_wrap_sub n

theorem Prevails.unique (h : Prevails t u s) (h' : Prevails t u v) : s = v := by
  cases h <;> cases h' <;> simp_all

theorem Prevails.eq_of_swap (h : Prevails t u s) (h' : Prevails u t v) : s = v := by
  cases h <;> cases h' <;> first | rfl | (exfalso; omega) | simp_all

theorem Meets.unique (h : t.Meets u s) (h' : t.Meets u v) : s = v := by
  rcases h with h | h <;> rcases h' with h' | h'
  · exact h.unique h'
  · exact h.eq_of_swap h'
  · exact h.eq_of_swap h'
  · exact h.unique h'

/-- The type that a name of a type stands for: `std::size_t` is only a name for another type. -/
def denoted : IntegerType → IntegerType
  | size => unsignedLong
  | t => t

@[simp]
theorem holds_denoted : t.denoted.Holds n ↔ t.Holds n := by
  cases t <;> rfl

@[simp]
theorem converts_denoted : t.denoted.Converts n m ↔ t.Converts n m := by
  cases t <;> rfl

@[simp]
theorem computes_denoted : t.denoted.Computes n m ↔ t.Computes n m := by
  cases t <;> rfl

@[simp]
theorem bits_denoted (t : IntegerType) : t.denoted.bits = t.bits := by
  cases t <;> rfl

@[simp]
theorem isSigned_denoted (t : IntegerType) : t.denoted.isSigned = t.isSigned := by
  cases t <;> rfl

@[simp]
theorem rank_denoted (t : IntegerType) : t.denoted.rank = t.rank := by
  cases t <;> rfl

@[simp]
theorem denoted_eq_bool : t.denoted = .bool ↔ t = .bool := by
  cases t <;> decide

/-- The promoted type of the program's table is the first one that covers the type. -/
theorem promoted_denoted (t : IntegerType) : t.denoted.promoted = t.promote.denoted := by
  cases t <;> rfl

/-- A promoted type holds every value of the type. -/
theorem Holds.promoted (h : t.Holds n) : t.promoted.Holds n := by
  have hCovers : t.promoted.Covers t := by
    cases t <;> decide
  exact hCovers.holds h

theorem promote_ne_bool (t : IntegerType) : t.promote ≠ .bool := by
  cases t <;> decide

theorem common_ne_bool (t u : IntegerType) : t.common u ≠ .bool := by
  cases t <;> cases u <;> decide

/-- Promoted types of the same sign and rank differ at most by name. -/
theorem denoted_promote_eq (hSign : t.promote.isSigned = u.promote.isSigned)
    (hRank : t.promote.rank = u.promote.rank) : t.promote.denoted = u.promote.denoted := by
  revert hSign hRank
  cases t <;> cases u <;> decide

theorem covers_iff_bits_lt (ht : t.isSigned = true) (hu : u.isSigned = false) :
    t.denoted.Covers u.denoted ↔ u.bits < t.bits := by
  revert ht hu
  cases t <;> cases u <;> decide

theorem denoted_toUnsigned (h : t.isSigned = true) :
    t.toUnsigned.denoted = t.denoted.toUnsigned := by
  revert h
  cases t <;> decide

/-- Of two promoted types with the same sign the one with the greater rank prevails. -/
theorem prevails_promote (hSign : t.promote.isSigned = u.promote.isSigned)
    (hRank : u.promote.rank ≤ t.promote.rank) :
    Prevails t.promote.denoted u.promote.denoted t.promote.denoted := by
  rcases hRank.eq_or_lt with hRank | hRank
  · rw [denoted_promote_eq hSign.symm hRank]
    exact .same
  · exact .greater (by simpa using hSign) (by simpa using hRank)

/-- Operands of different signs meet in the type of the unsigned one unless the signed one has the
greater rank. -/
theorem prevails_unsigned (hUnsigned : t.isSigned = false) (hSigned : u.isSigned = true)
    (hRank : u.rank ≤ t.rank) : Prevails t.denoted u.denoted t.denoted :=
  .unsigned (by simpa using hUnsigned) (by simpa using hSigned) (by simpa using hRank)

theorem prevails_signed (hSigned : t.isSigned = true) (hUnsigned : u.isSigned = false)
    (hRank : ¬ t.rank ≤ u.rank) :
    Prevails t.denoted u.denoted (if u.bits < t.bits then t else t.toUnsigned).denoted := by
  have hSigned' : t.denoted.isSigned = true := by simpa using hSigned
  have hUnsigned' : u.denoted.isSigned = false := by simpa using hUnsigned
  have hRank' : u.denoted.rank < t.denoted.rank := by simpa using hRank
  have hCovers := covers_iff_bits_lt hSigned hUnsigned
  split
  · exact .signed hSigned' hUnsigned' hRank' (hCovers.mpr ‹_›)
  · rw [denoted_toUnsigned hSigned]
    exact .beside hSigned' hUnsigned' hRank' (mt hCovers.mp ‹_›)

/-- Two operands meet in the common type of the program's table. -/
theorem meets_common (t u : IntegerType) : t.denoted.Meets u.denoted (t.common u).denoted := by
  unfold Meets
  rw [promoted_denoted, promoted_denoted]
  unfold common
  dsimp only
  split
  · rename_i hEqual
    rw [hEqual]
    exact .inl .same
  split
  · rename_i hSign
    split
    · exact .inl (prevails_promote hSign ‹_›)
    · exact .inr (prevails_promote hSign.symm (Nat.le_of_not_le ‹_›))
  · rename_i hSign
    cases hSigned : t.promote.isSigned with
    | true =>
        have hUnsigned : u.promote.isSigned = false := by
          simpa [hSigned] using hSign
        simp only [if_true]
        split
        · exact .inr (prevails_unsigned hUnsigned hSigned ‹_›)
        · exact .inl (prevails_signed hSigned hUnsigned ‹_›)
    | false =>
        have hOther : u.promote.isSigned = true := by
          simpa [hSigned] using hSign
        simp only [Bool.false_eq_true, if_false]
        split
        · exact .inl (prevails_unsigned hSigned hOther ‹_›)
        · exact .inr (prevails_signed hOther hSigned ‹_›)

end IntegerType

namespace Constant

/-- Bringing a result into a type is what arithmetic in the type does with it. -/
theorem inType_eq_ok_iff {t : IntegerType} {n m : Int} (ht : t ≠ .bool) :
    inType t n = .ok m ↔ t.Computes n m := by
  unfold inType
  rw [if_neg ht]
  cases hSigned : t.isSigned with
  | true =>
      simp only [Bool.not_true, Bool.false_eq_true, if_false, IntegerType.Computes, hSigned,
        if_true]
      constructor
      · intro h
        split at h
        · cases h
          exact ⟨‹_›, rfl⟩
        · cases h
      · rintro ⟨hHolds, rfl⟩
        exact if_pos hHolds
  | false =>
      simp only [Bool.not_false, if_true]
      have hWrap : n % t.modulus = t.wrap n := by
        simp [IntegerType.wrap, hSigned]
      rw [hWrap, Except.ok.injEq]
      have hComputes : t.Computes n (t.wrap n) := by
        refine ⟨t.holds_wrap n, ?_⟩
        rw [hSigned, if_neg Bool.false_ne_true]
        exact t.dvd_wrap_sub n
      constructor
      · rintro rfl
        exact hComputes
      · exact hComputes.unique

end Constant

end Demacro
