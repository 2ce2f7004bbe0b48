import ArithTree.Score
import Mathlib

/-!
# The order of scores

Scores are ordered like the floating-point numbers they are made from: a score is undefined exactly
for what is no number (`ofFloat_eq_undefined_iff`), and of two numbers one is smaller exactly if its
score is (`ofFloat_lt_ofFloat_iff`). So both infinities are scores like all others, and the two
zeros are one score.

A number is taken apart into sign, exponent and mantissa. These decide its rank (`rank?`), which is
in the order of the numbers (`compare_eq_compare_rank`) and is what the bits say (`rank?_unpack`).
-/

namespace ArithTree.Score

open Float.Model Float.Model.UnpackedFloat

/-- One score is smaller than another when both are defined and their ranks are in this order. -/
instance : LT Score where
  lt
    | .place a, .place b => a < b
    | _, _ => False

@[simp] theorem place_lt_place (a b : Int) : place a < place b ↔ a < b := Iff.rfl

@[simp] theorem not_undefined_lt (a : Score) : ¬ undefined < a := fun h => h

@[simp] theorem not_lt_undefined (a : Score) : ¬ a < undefined := by
  cases a <;> exact fun h => h

/-! ## Numbers in parts -/

/-- The rank of the positive infinity. -/
def infiniteRank : Int := 2047 * 2 ^ 52

/-- The rank of `mantissa * 2 ^ exponent`: each exponent takes up `2 ^ 52` ranks, from the least
exponent on. -/
def finiteRank (mantissa : Nat) (exponent : Int) : Int := (exponent + 1074) * 2 ^ 52 + mantissa

/-- The rank of a number that has been taken apart. -/
def rank? : UnpackedFloat → Option Int
  | .notANumber => none
  | .infinity sign => some (sign.apply infiniteRank)
  | .zero _ => some 0
  | .finite sign mantissa exponent _ => some (sign.apply (finiteRank mantissa exponent))

/-- Mantissa and exponent of a number with 64 bits. Only the numbers with the least exponent may
have a short mantissa, so no number is written in two ways. -/
structure Canonical (mantissa : Nat) (exponent : Int) : Prop where
  pos : 0 < mantissa
  lt : mantissa < 2 ^ 53
  least : -1074 ≤ exponent
  greatest : exponent ≤ 971
  full : -1074 < exponent → 2 ^ 52 ≤ mantissa

def IsCanonical : UnpackedFloat → Prop
  | .finite _ mantissa exponent _ => Canonical mantissa exponent
  | _ => True

section

variable {m n : Nat} {e f : Int}

theorem Canonical.rank_pos (h : Canonical m e) : 0 < finiteRank m e := by
  obtain ⟨hpos, -, hleast, -, -⟩ := h
  unfold finiteRank
  omega

theorem Canonical.rank_lt (h : Canonical m e) : finiteRank m e < infiniteRank := by
  obtain ⟨-, hlt, -, hgreatest, -⟩ := h
  unfold finiteRank infiniteRank
  omega

/-- Of either sign, a finite number lies between the infinities. -/
theorem Canonical.signed_bounds (h : Canonical m e) (sign : Sign) :
    -infiniteRank < sign.apply (finiteRank m e) ∧ sign.apply (finiteRank m e) < infiniteRank := by
  have hpos := h.rank_pos
  have hlt := h.rank_lt
  cases sign <;> simp only [Sign.apply] <;> omega

/-- A greater exponent outweighs every mantissa. -/
theorem Canonical.rank_lt_rank (hm : Canonical m e) (hn : Canonical n f) (h : e < f) :
    finiteRank m e < finiteRank n f := by
  have hlt := hm.lt
  have hfull := hn.full (Int.lt_of_le_of_lt hm.least h)
  unfold finiteRank
  omega

/-- Ranks compare like exponents, and like mantissas where the exponents are equal. -/
theorem Canonical.compare_rank (hm : Canonical m e) (hn : Canonical n f) :
    (compare e f).then (compare m n) = compare (finiteRank m e) (finiteRank n f) := by
  rcases lt_trichotomy e f with h | rfl | h
  · rw [compare_lt_iff_lt.mpr h, compare_lt_iff_lt.mpr (hm.rank_lt_rank hn h)]
    rfl
  · rw [compare_eq_iff_eq.mpr rfl, Ordering.eq_then]
    rcases lt_trichotomy m n with h | rfl | h
    · rw [compare_lt_iff_lt.mpr h, compare_lt_iff_lt.mpr (by unfold finiteRank; omega)]
    · rw [compare_eq_iff_eq.mpr rfl, compare_eq_iff_eq.mpr rfl]
    · rw [compare_gt_iff_gt.mpr h, compare_gt_iff_gt.mpr (by unfold finiteRank; omega)]
  · rw [compare_gt_iff_gt.mpr h, compare_gt_iff_gt.mpr (hn.rank_lt_rank hm h)]
    rfl

end

theorem swap_compare_eq_compare_neg (a b : Int) : (compare a b).swap = compare (-a) (-b) := by
  rw [Int.compare_swap]
  rcases lt_trichotomy a b with h | rfl | h
  · rw [compare_gt_iff_gt.mpr h, compare_gt_iff_gt.mpr (Int.neg_lt_neg h)]
  · rw [compare_eq_iff_eq.mpr rfl, compare_eq_iff_eq.mpr rfl]
  · rw [compare_lt_iff_lt.mpr h, compare_lt_iff_lt.mpr (Int.neg_lt_neg h)]

theorem some_lt_eq {a b : Int} (h : a < b) : some Ordering.lt = some (compare a b) :=
  congrArg some (compare_lt_iff_lt.mpr h).symm

theorem some_gt_eq {a b : Int} (h : b < a) : some Ordering.gt = some (compare a b) :=
  congrArg some (compare_gt_iff_gt.mpr h).symm

/-- **Numbers compare like their ranks.** -/
theorem compare_eq_compare_rank {u v : UnpackedFloat} (hu : IsCanonical u) (hv : IsCanonical v) :
    u.compare v = (rank? u).bind fun a => (rank? v).map (compare a) := by
  cases u with
  | notANumber => rfl
  | infinity s =>
    cases v with
    | notANumber => cases s <;> rfl
    | infinity t => cases s <;> cases t <;> rfl
    | zero t => cases s <;> rfl
    | finite t n f _ =>
      obtain ⟨hleast, hgreatest⟩ := hv.signed_bounds t
      cases s with
      | negative => exact some_lt_eq hleast
      | positive => exact some_gt_eq hgreatest
  | zero s =>
    cases v with
    | notANumber => rfl
    | infinity t => cases t <;> rfl
    | zero t => rfl
    | finite t n f _ =>
      cases t with
      | negative => exact some_gt_eq (Int.neg_neg_of_pos hv.rank_pos)
      | positive => exact some_lt_eq hv.rank_pos
  | finite s m e _ =>
    cases v with
    | notANumber => cases s <;> rfl
    | infinity t =>
      obtain ⟨hleast, hgreatest⟩ := hu.signed_bounds s
      cases t with
      | negative => exact some_gt_eq hleast
      | positive => exact some_lt_eq hgreatest
    | zero t =>
      cases s with
      | negative => exact some_lt_eq (Int.neg_neg_of_pos hu.rank_pos)
      | positive => exact some_gt_eq hu.rank_pos
    | finite t n f _ =>
      have hcompare := hu.compare_rank hv
      -- only numbers of one sign are compared by their parts
      cases s <;> cases t
      · exact congrArg some ((congrArg Ordering.swap hcompare).trans
          (swap_compare_eq_compare_neg _ _))
      · exact some_lt_eq ((Int.neg_neg_of_pos hu.rank_pos).trans hv.rank_pos)
      · exact some_gt_eq ((Int.neg_neg_of_pos hv.rank_pos).trans hu.rank_pos)
      · exact congrArg some hcompare

/-! ## Bits -/

section

variable (b : BitVec Format.binary64.numBits)

theorem toNat_unpackMantissa : (unpackMantissa b).toNat = b.toNat % 2 ^ 52 := by
  rw [unpackMantissa_def, BitVec.extractLsb'_toNat, Nat.shiftRight_zero]

theorem toNat_unpackExponent : (unpackExponent b).toNat = b.toNat / 2 ^ 52 % 2 ^ 11 := by
  rw [unpackExponent_def, BitVec.extractLsb'_toNat, Nat.shiftRight_eq_div_pow]

theorem toNat_unpackSign : (unpackSign b).toNat = b.toNat / 2 ^ 63 := by
  have hb : b.toNat < 2 ^ 64 := b.isLt
  rw [unpackSign_def, BitVec.extractLsb'_toNat, Nat.shiftRight_eq_div_pow]
  exact Nat.mod_eq_of_lt (Nat.div_lt_of_lt_mul hb)

/-- Exponent and mantissa, side by side, are the bits without the sign. -/
theorem toNat_mod_eq_fields : b.toNat % 2 ^ 63 =
    (unpackExponent b).toNat * 2 ^ 52 + (unpackMantissa b).toNat := by
  rw [toNat_unpackExponent, toNat_unpackMantissa]
  omega

theorem toNat_one_append (v : BitVec 52) : (1#1 ++ v).toNat = 2 ^ 52 + v.toNat := by
  rw [BitVec.toNat_append, ← Nat.shiftLeft_add_eq_or_of_lt v.isLt]
  rfl

/-- What the bits without the sign stand for is their rank, and the sign is the sign of the rank. -/
theorem unpack_cases : IsCanonical (UnpackedFloat.unpack Format.binary64 b) ∧
    (UnpackedFloat.unpack Format.binary64 b = .notANumber ∨
      rank? (UnpackedFloat.unpack Format.binary64 b) =
        some ((Sign.ofBitVec (unpackSign b)).apply (b.toNat % 2 ^ 63 : Nat))) := by
  have hmantissa : (unpackMantissa b).toNat < 2 ^ 52 := (unpackMantissa b).isLt
  have hexponent : (unpackExponent b).toNat < 2 ^ 11 := (unpackExponent b).isLt
  have hbias : (Format.binary64.exponentBias : Int) = 1023 := rfl
  have hsigned {r s : Int} (h : r = s) : some ((Sign.ofBitVec (unpackSign b)).apply r) =
      some ((Sign.ofBitVec (unpackSign b)).apply s) := by rw [h]
  rw [toNat_mod_eq_fields]
  unfold UnpackedFloat.unpack
  simp only
  split_ifs with hlast hzero hfirst hzero
  · -- an infinity
    have hlast : (unpackExponent b).toNat = 2047 := by rw [hlast]; rfl
    have hzero : (unpackMantissa b).toNat = 0 := by rw [hzero]; rfl
    refine ⟨trivial, Or.inr (hsigned ?_)⟩
    unfold infiniteRank
    omega
  · exact ⟨trivial, Or.inl rfl⟩
  · -- a zero
    have hfirst : (unpackExponent b).toNat = 0 := by rw [hfirst]; rfl
    have hzero : (unpackMantissa b).toNat = 0 := by rw [hzero]; rfl
    refine ⟨trivial, Or.inr ?_⟩
    rw [hfirst, hzero, Nat.zero_mul]
    cases Sign.ofBitVec (unpackSign b) <;> rfl
  · -- a number below the full mantissas
    have hfirst : (unpackExponent b).toNat = 0 := by rw [hfirst]; rfl
    have hpos := Nat.pos_of_ne_zero fun h => hzero (BitVec.eq_of_toNat_eq h)
    refine ⟨?_, Or.inr (hsigned ?_)⟩
    · constructor <;> omega
    · unfold finiteRank
      omega
  · -- a number with a full mantissa, whose first digit is not among the bits
    have hlast : (unpackExponent b).toNat ≠ 2047 := fun h => hlast (BitVec.eq_of_toNat_eq h)
    have hfirst : (unpackExponent b).toNat ≠ 0 := fun h => hfirst (BitVec.eq_of_toNat_eq h)
    have hfull := toNat_one_append (unpackMantissa b)
    refine ⟨?_, Or.inr (hsigned ?_)⟩
    · constructor <;> omega
    · unfold finiteRank
      omega

/-- **The rank is what the bits say.** -/
theorem rank?_unpack (h : UnpackedFloat.unpack Format.binary64 b ≠ .notANumber) :
    rank? (UnpackedFloat.unpack Format.binary64 b) =
      some (if b.toNat < signBit then (b.toNat : Int) else -((b.toNat - signBit : Nat) : Int)) := by
  have hb : b.toNat < 2 ^ 64 := b.isLt
  have hbit : signBit = 2 ^ 63 := rfl
  have hsign : unpackSign b = 0#1 ↔ b.toNat < signBit := by
    rw [← BitVec.toNat_inj, toNat_unpackSign, hbit]
    exact Nat.div_eq_zero_iff_lt (Nat.two_pow_pos 63)
  rw [(unpack_cases b).2.resolve_left h, Sign.ofBitVec]
  simp only [hsign]
  refine congrArg some ?_
  split_ifs with hlt <;> simp only [Sign.apply] <;> omega

end

theorem rank?_eq_none_iff (u : UnpackedFloat) : rank? u = none ↔ u.isNaN = true := by
  cases u <;> simp [rank?, UnpackedFloat.isNaN]

/-! ## Numbers -/

theorem ofFloat_eq (x : Float) : ofFloat x = (rank? x.toModel.unpack).elim .undefined .place := by
  have hnan : rank? x.toModel.unpack = none ↔ x.isNaN = true := rank?_eq_none_iff _
  unfold ofFloat
  split_ifs with h
  · rw [hnan.mpr h]
    rfl
  · have hread := rank?_unpack x.toModel.toBits.toBitVec fun hno =>
      h (congrArg UnpackedFloat.isNaN hno)
    rw [Float.Model.unpack, hread, Option.elim_some, apply_ite Score.place]
    rfl

/-- Only what is no number has no score. -/
theorem ofFloat_eq_undefined_iff (x : Float) : ofFloat x = .undefined ↔ x.isNaN = true := by
  have hnan : rank? x.toModel.unpack = none ↔ x.isNaN = true := rank?_eq_none_iff _
  rw [ofFloat_eq, ← hnan]
  cases rank? x.toModel.unpack <;> simp

/-- **Scores are in the order of the numbers.** What is no number is not smaller or larger than
anything, and neither is its score. -/
theorem ofFloat_lt_ofFloat_iff (x y : Float) : ofFloat x < ofFloat y ↔ x < y := by
  have hlt : x < y ↔ x.toModel.unpack.compare y.toModel.unpack = some .lt := by
    change decide (x.toModel.unpack.lt y.toModel.unpack = true) = true ↔ _
    simp [UnpackedFloat.lt]
  have hrank : x.toModel.unpack.compare y.toModel.unpack =
      (rank? x.toModel.unpack).bind fun a => (rank? y.toModel.unpack).map (compare a) :=
    compare_eq_compare_rank (unpack_cases _).1 (unpack_cases _).1
  rw [hlt, hrank, ofFloat_eq, ofFloat_eq]
  cases rank? x.toModel.unpack with
  | none => simp
  | some a =>
    cases rank? y.toModel.unpack with
    | none => simp
    | some b => simp [compare_lt_iff_lt]

/-- The two zeros differ in their bits and have one score. -/
example : ofFloat (-0.0) = ofFloat 0.0 := by decide

end ArithTree.Score
