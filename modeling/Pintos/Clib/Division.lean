import Mathlib.Tactic

/-!
# 64-bit division

The routines of `lib/arithmetic.c` on top of the instruction DIVL, which traps if the quotient does not
fit in 32 bits.  A large divisor is normalised, its upper half gives an estimate of the quotient, and
the estimate is the quotient or one more.
-/

namespace Pintos.Clib

/-- DIVL; a divide error is `none`. -/
def divl (n : BitVec 64) (d : BitVec 32) : Option (BitVec 32) :=
  if d ≠ 0 ∧ n.toNat / d.toNat < 2 ^ 32 then some (.ofNat 32 (n.toNat / d.toNat)) else none

/-- One of the five tests of `nlz`, with its values of `n` and `x`. -/
def nlzTest (limit : BitVec 32) (shift : Nat) : Nat × BitVec 32 → Nat × BitVec 32
  | (n, x) => if x ≤ limit then (n + shift, x <<< shift) else (n, x)

/-- The last test does not shift `x`, which is not used again. -/
def nlz (x : BitVec 32) : Nat :=
  (nlzTest 0x7FFFFFFF 1 <| nlzTest 0x3FFFFFFF 2 <| nlzTest 0x0FFFFFFF 4 <|
    nlzTest 0x00FFFFFF 8 <| nlzTest 0x0000FFFF 16 (0, x)).1

def udiv64 (n d : BitVec 64) : Option (BitVec 64) :=
  if d >>> 32 = 0 then do
    let b : BitVec 64 := 1 <<< 32
    let n1 := (n >>> 32).setWidth 32
    let n0 := n.setWidth 32
    let d0 := d.setWidth 32
    let q ← divl (b * (n1 % d0).setWidth 64 + n0.setWidth 64) d0
    some (q.setWidth 64 + b * (n1 / d0).setWidth 64)
  else if n < d then
    some 0
  else do
    let d1 := (d >>> 32).setWidth 32
    let s := nlz d1
    let estimate ← divl (n >>> 1) (((d <<< s) >>> 32).setWidth 32)
    let q := (estimate >>> (31 - s)).setWidth 64
    some (if n - (q - 1) * d < d then q - 1 else q)

def sdiv64 (n d : BitVec 64) : Option (BitVec 64) := do
  let nAbs := if n.slt 0 then -n else n
  let dAbs := if d.slt 0 then -d else d
  let qAbs ← udiv64 nAbs dAbs
  some (if n.slt 0 = d.slt 0 then qAbs else -qAbs)

/-- The remainder is returned as a `uint32_t`. -/
def umod64 (n d : BitVec 64) : Option (BitVec 32) := do
  let q ← udiv64 n d
  some ((n - d * q).setWidth 32)

/-- The remainder is returned as an `int32_t`. -/
def smod64 (n d : BitVec 64) : Option (BitVec 32) := do
  let q ← sdiv64 n d
  some ((n - d * q).setWidth 32)

/-- `__udivdi3`. -/
def udivdi3 (n d : BitVec 64) : Option (BitVec 64) := udiv64 n d

/-- `__divdi3`. -/
def divdi3 (n d : BitVec 64) : Option (BitVec 64) := sdiv64 n d

/-- `__umoddi3`. -/
def umoddi3 (n d : BitVec 64) : Option (BitVec 64) := (umod64 n d).map (·.setWidth 64)

/-- `__moddi3`. -/
def moddi3 (n d : BitVec 64) : Option (BitVec 64) := (smod64 n d).map (·.signExtend 64)

/-! ## Leading zeros -/

/-- The value that `nlz` has made of a number: shifted without loss, and large. -/
structure Shifted (x : BitVec 32) (least : Nat) (s : Nat × BitVec 32) : Prop where
  value : s.2.toNat = x.toNat * 2 ^ s.1
  least_le : 2 ^ least ≤ s.2.toNat

theorem Shifted.test {x : BitVec 32} {least : Nat} {state : Nat × BitVec 32}
    (shifted : Shifted x least state) (limit : BitVec 32) (shift : Nat)
    (limit_eq : limit.toNat + 1 = 2 ^ (least + shift)) (room : least + shift + shift = 32) :
    Shifted x (least + shift) (nlzTest limit shift state) := by
  obtain ⟨n, y⟩ := state
  have value := shifted.value
  have least_le := shifted.least_le
  dsimp only at value least_le
  by_cases small : y ≤ limit
  · rw [show nlzTest limit shift (n, y) = (n + shift, y <<< shift) from if_pos small]
    have below : y.toNat < 2 ^ (least + shift) := by
      have le := BitVec.le_def.mp small
      omega
    have fits : y.toNat * 2 ^ shift < 2 ^ 32 := by
      calc y.toNat * 2 ^ shift < 2 ^ (least + shift) * 2 ^ shift :=
            Nat.mul_lt_mul_of_pos_right below (Nat.two_pow_pos _)
        _ = 2 ^ 32 := by rw [← pow_add, room]
    have shifted_eq : (y <<< shift).toNat = y.toNat * 2 ^ shift := by
      rw [BitVec.toNat_shiftLeft, Nat.shiftLeft_eq, Nat.mod_eq_of_lt fits]
    constructor
    · rw [shifted_eq, value, pow_add, Nat.mul_assoc]
    · rw [shifted_eq, pow_add]
      exact Nat.mul_le_mul_right _ least_le
  · rw [show nlzTest limit shift (n, y) = (n, y) from if_neg small]
    have above := BitVec.lt_def.mp (BitVec.not_le.mp small)
    refine ⟨value, ?_⟩
    dsimp only
    omega

theorem nlz_spec {x : BitVec 32} (nonzero : x ≠ 0) :
    2 ^ 31 ≤ x.toNat * 2 ^ nlz x ∧ x.toNat * 2 ^ nlz x < 2 ^ 32 := by
  have start : Shifted x 0 (0, x) := by
    refine ⟨(Nat.mul_one _).symm, ?_⟩
    have pos : x.toNat ≠ 0 := fun zero => nonzero (BitVec.eq_of_toNat_eq zero)
    dsimp only
    omega
  have final := ((((start.test 0x0000FFFF 16 rfl rfl).test 0x00FFFFFF 8 rfl rfl).test
    0x0FFFFFFF 4 rfl rfl).test 0x3FFFFFFF 2 rfl rfl).test 0x7FFFFFFF 1 rfl rfl
  constructor
  · exact final.value ▸ final.least_le
  · exact final.value ▸ BitVec.isLt _

theorem nlz_lt {x : BitVec 32} (nonzero : x ≠ 0) : nlz x < 32 := by
  have pos : x.toNat ≠ 0 := fun zero => nonzero (BitVec.eq_of_toNat_eq zero)
  refine (Nat.pow_lt_pow_iff_right (by decide : 1 < 2)).mp ?_
  calc 2 ^ nlz x ≤ x.toNat * 2 ^ nlz x := Nat.le_mul_of_pos_left _ (Nat.pos_of_ne_zero pos)
    _ < 2 ^ 32 := (nlz_spec nonzero).2

/-! ## The estimate -/

/-- Dividing by a slightly smaller number gives the quotient or one more. -/
theorem estimate_bounds {n d divisor unit : Nat} (n_lt : n < 2 ^ 64) (le : divisor ≤ d)
    (lt : d < divisor + unit) (large : 2 ^ 31 * unit ≤ divisor) (unit_dvd : unit ∣ 2 ^ 33)
    (unit_pos : 2 ≤ unit) : n / d ≤ n / divisor ∧ n / divisor ≤ n / d + 1 := by
  have divisor_pos : 0 < divisor := by omega
  refine ⟨Nat.div_le_div_left le divisor_pos, ?_⟩
  obtain ⟨cofactor, cofactor_eq⟩ := unit_dvd
  have quotient_lt : n / d < cofactor := by
    refine Nat.div_lt_of_lt_mul ?_
    calc n < 2 ^ 31 * 2 ^ 33 := n_lt
      _ = 2 ^ 31 * unit * cofactor := by rw [cofactor_eq, Nat.mul_assoc]
      _ ≤ d * cofactor := Nat.mul_le_mul_right _ (large.trans le)
  have square : 4 * (unit - 1) ≤ unit * unit := by
    obtain ⟨rest, rfl⟩ := Nat.exists_eq_add_of_le unit_pos
    have : 2 + rest - 1 = rest + 1 := by omega
    rw [this]
    nlinarith
  -- the error of the divisor, taken as often as the quotient says, stays below the divisor
  have error : (n / d + 1) * (d - divisor) ≤ divisor := by
    refine le_trans ?_ large
    refine Nat.le_of_mul_le_mul_left ?_ (by decide : 0 < 4)
    calc 4 * ((n / d + 1) * (d - divisor)) ≤ 4 * (cofactor * (unit - 1)) :=
          Nat.mul_le_mul_left _ (Nat.mul_le_mul quotient_lt (by omega))
      _ = cofactor * (4 * (unit - 1)) := by ring
      _ ≤ cofactor * (unit * unit) := Nat.mul_le_mul_left _ square
      _ = 4 * (2 ^ 31 * unit) := by
          rw [← Nat.mul_assoc, Nat.mul_comm cofactor, ← cofactor_eq]
          ring
  refine Nat.le_of_lt_succ (Nat.div_lt_of_lt_mul ?_)
  calc n < d * (n / d + 1) := Nat.lt_mul_div_succ n (by omega)
    _ = divisor * (n / d + 1) + (n / d + 1) * (d - divisor) := by
        rw [Nat.mul_comm (n / d + 1), ← Nat.add_mul, Nat.add_sub_cancel' le]
    _ ≤ divisor * (n / d + 1 + 1) := by
        rw [Nat.mul_succ]
        exact Nat.add_le_add_left error _

/-- The correction at the end of `udiv64`. -/
theorem corrected {n d q : BitVec 64} (le : d ≤ n) (nonzero : d ≠ 0)
    (bounds : n.toNat / d.toNat ≤ q.toNat ∧ q.toNat ≤ n.toNat / d.toNat + 1) :
    (if n - (q - 1) * d < d then q - 1 else q) = n / d := by
  have le := BitVec.le_def.mp le
  have pos : 0 < d.toNat := Nat.pos_of_ne_zero fun zero => nonzero (BitVec.eq_of_toNat_eq zero)
  have quotient_pos : 0 < n.toNat / d.toNat := Nat.div_pos le pos
  have pred : (q - 1).toNat = q.toNat - 1 := by
    have q_lt := q.isLt
    rw [BitVec.toNat_sub]
    change (2 ^ 64 - 1 + q.toNat) % 2 ^ 64 = _
    omega
  have product_le : (q.toNat - 1) * d.toNat ≤ n.toNat :=
    (Nat.mul_le_mul_right _ (by omega)).trans (Nat.div_mul_le_self _ _)
  have product : ((q - 1) * d).toNat = (q.toNat - 1) * d.toNat := by
    rw [BitVec.toNat_mul, pred]
    exact Nat.mod_eq_of_lt (product_le.trans_lt n.isLt)
  have rest : (n - (q - 1) * d).toNat = n.toNat - (q.toNat - 1) * d.toNat := by
    rw [BitVec.toNat_sub_of_le (BitVec.le_def.mpr (product ▸ product_le)), product]
  have division := Nat.div_add_mod n.toNat d.toNat
  have remainder := Nat.mod_lt n.toNat pos
  apply BitVec.eq_of_toNat_eq
  rw [BitVec.toNat_udiv]
  rcases Nat.le_iff_lt_or_eq.mp bounds.1 with above | exactly
  · have q_eq : q.toNat - 1 = n.toNat / d.toNat := by omega
    rw [if_pos, pred, q_eq]
    rw [BitVec.lt_def, rest, q_eq, Nat.mul_comm]
    omega
  · rw [if_neg, ← exactly]
    rw [BitVec.lt_def, rest, ← exactly, Nat.sub_mul, Nat.mul_comm (n.toNat / d.toNat), Nat.one_mul]
    have : d.toNat ≤ d.toNat * (n.toNat / d.toNat) := Nat.le_mul_of_pos_right _ quotient_pos
    omega

/-! ## Quotients -/

theorem divl_eq {n : BitVec 64} {d : BitVec 32} (fits : n.toNat < 2 ^ 32 * d.toNat) :
    ∃ q, divl n d = some q ∧ q.toNat = n.toNat / d.toNat := by
  have nonzero : d ≠ 0 := by
    rintro rfl
    exact absurd fits (by simp)
  have quotient_lt : n.toNat / d.toNat < 2 ^ 32 := Nat.div_lt_of_lt_mul (Nat.mul_comm .. ▸ fits)
  exact ⟨_, if_pos ⟨nonzero, quotient_lt⟩, Nat.mod_eq_of_lt quotient_lt⟩

/-- Division of the upper half, then of what remains of it with the lower half. -/
theorem div_by_halves (n : Nat) {d : Nat} (pos : 0 < d) :
    (2 ^ 32 * (n / 2 ^ 32 % d) + n % 2 ^ 32) / d + 2 ^ 32 * (n / 2 ^ 32 / d) = n / d := by
  have halves : n = 2 ^ 32 * (n / 2 ^ 32 % d) + n % 2 ^ 32 + d * (2 ^ 32 * (n / 2 ^ 32 / d)) := by
    calc n = 2 ^ 32 * (n / 2 ^ 32) + n % 2 ^ 32 := (Nat.div_add_mod n _).symm
      _ = 2 ^ 32 * (d * (n / 2 ^ 32 / d) + n / 2 ^ 32 % d) + n % 2 ^ 32 := by
          rw [Nat.div_add_mod (n / 2 ^ 32) d]
      _ = _ := by ring
  conv_rhs => rw [halves]
  rw [Nat.add_mul_div_left _ _ pos]

theorem udiv64_small {n d : BitVec 64} (nonzero : d ≠ 0) (small : d >>> 32 = 0) :
    udiv64 n d = some (n / d) := by
  have pos : 0 < d.toNat := Nat.pos_of_ne_zero fun zero => nonzero (BitVec.eq_of_toNat_eq zero)
  have d_lt : d.toNat < 2 ^ 32 := by
    have zero := congrArg BitVec.toNat small
    simp only [BitVec.toNat_ushiftRight, Nat.shiftRight_eq_div_pow] at zero
    change d.toNat / 2 ^ 32 = 0 at zero
    omega
  have n_lt := n.isLt
  have d0 : (d.setWidth 32).toNat = d.toNat := by
    rw [BitVec.toNat_setWidth, Nat.mod_eq_of_lt d_lt]
  have n1 : ((n >>> 32).setWidth 32).toNat = n.toNat / 2 ^ 32 := by
    rw [BitVec.toNat_setWidth, BitVec.toNat_ushiftRight, Nat.shiftRight_eq_div_pow]
    omega
  have rest_lt := Nat.mod_lt (n.toNat / 2 ^ 32) pos
  have rest : (((n >>> 32).setWidth 32 % d.setWidth 32).setWidth 64).toNat =
      n.toNat / 2 ^ 32 % d.toNat := by
    rw [BitVec.toNat_setWidth, BitVec.toNat_umod, n1, d0]
    omega
  have high : (((n >>> 32).setWidth 32 / d.setWidth 32).setWidth 64).toNat =
      n.toNat / 2 ^ 32 / d.toNat := by
    rw [BitVec.toNat_setWidth, BitVec.toNat_udiv, n1, d0]
    refine Nat.mod_eq_of_lt (lt_of_le_of_lt (Nat.div_le_self _ _) ?_)
    omega
  have dividend : ((1 <<< 32 : BitVec 64) * ((n >>> 32).setWidth 32 % d.setWidth 32).setWidth 64 +
      (n.setWidth 32).setWidth 64).toNat = 2 ^ 32 * (n.toNat / 2 ^ 32 % d.toNat) +
        n.toNat % 2 ^ 32 := by
    rw [BitVec.toNat_add, BitVec.toNat_mul, rest, BitVec.toNat_setWidth, BitVec.toNat_setWidth]
    change (4294967296 * _ % _ + _) % _ = _
    omega
  obtain ⟨q, divides, q_eq⟩ := divl_eq (d := d.setWidth 32) (n := (1 <<< 32 : BitVec 64) *
    ((n >>> 32).setWidth 32 % d.setWidth 32).setWidth 64 + (n.setWidth 32).setWidth 64)
    (by rw [dividend, d0]; omega)
  rw [dividend, d0] at q_eq
  rw [udiv64, if_pos small]
  simp only [divides, Option.bind_eq_bind, Option.bind_some, Option.some.injEq]
  apply BitVec.eq_of_toNat_eq
  have total := div_by_halves n.toNat pos
  have total_lt := (n / d).isLt
  rw [BitVec.toNat_udiv] at total_lt ⊢
  rw [BitVec.toNat_add, BitVec.toNat_mul, high, BitVec.toNat_setWidth, q_eq]
  change (_ % _ + 4294967296 * _ % _) % _ = _
  omega

/-- A divisor that `nlz` has normalised fits in 64 bits, and its upper half in 32. -/
theorem normalised {d s : Nat} (s_lt : s < 32) (least : 2 ^ 31 ≤ d / 2 ^ 32 * 2 ^ s)
    (most : d / 2 ^ 32 * 2 ^ s < 2 ^ 32) : d * 2 ^ s < 2 ^ 64 ∧
      d * 2 ^ s / 2 ^ 32 = d / 2 ^ (32 - s) ∧ 2 ^ 31 ≤ d / 2 ^ (32 - s) := by
  have split : 2 ^ 32 = 2 ^ (32 - s) * 2 ^ s := by rw [← pow_add, Nat.sub_add_cancel s_lt.le]
  have unit_pos := Nat.two_pow_pos s
  have upper_lt : d / 2 ^ 32 < 2 ^ (32 - s) := Nat.lt_of_mul_lt_mul_right (most.trans_eq split)
  have half : d * 2 ^ s / 2 ^ 32 = d / 2 ^ (32 - s) := by
    rw [split, Nat.mul_div_mul_right _ _ unit_pos]
  refine ⟨?_, half, ?_⟩
  · calc d * 2 ^ s < 2 ^ (32 - s) * 2 ^ 32 * 2 ^ s :=
          Nat.mul_lt_mul_of_pos_right ((Nat.div_lt_iff_lt_mul (by decide)).mp upper_lt) unit_pos
      _ = 2 ^ 32 * 2 ^ 32 := by rw [Nat.mul_right_comm, ← split]
  · rw [← half, Nat.le_div_iff_mul_le (by decide)]
    calc 2 ^ 31 * 2 ^ 32 ≤ d / 2 ^ 32 * 2 ^ s * 2 ^ 32 := Nat.mul_le_mul_right _ least
      _ = d / 2 ^ 32 * 2 ^ 32 * 2 ^ s := by ring
      _ ≤ d * 2 ^ s := Nat.mul_le_mul_right _ (Nat.div_mul_le_self _ _)

theorem udiv64_large {n d : BitVec 64} (large : d >>> 32 ≠ 0) : udiv64 n d = some (n / d) := by
  have d_lt := d.isLt
  have n_lt := n.isLt
  have upper : ((d >>> 32).setWidth 32).toNat = d.toNat / 2 ^ 32 := by
    rw [BitVec.toNat_setWidth, BitVec.toNat_ushiftRight, Nat.shiftRight_eq_div_pow]
    omega
  have upper_ne : (d >>> 32).setWidth 32 ≠ 0 := by
    intro zero
    refine large (BitVec.eq_of_toNat_eq ?_)
    rw [BitVec.toNat_ushiftRight, Nat.shiftRight_eq_div_pow, ← upper, zero]
    rfl
  have nonzero : d ≠ 0 := by
    rintro rfl
    exact large rfl
  rw [udiv64, if_neg large]
  split
  · rename_i less
    refine congrArg some (BitVec.eq_of_toNat_eq ?_)
    rw [BitVec.toNat_udiv, Nat.div_eq_of_lt (BitVec.lt_def.mp less)]
    rfl
  · rename_i enough
    have s_lt := nlz_lt upper_ne
    obtain ⟨least, most⟩ := nlz_spec upper_ne
    dsimp only
    generalize nlz ((d >>> 32).setWidth 32) = s at s_lt least most ⊢
    rw [upper] at least most
    obtain ⟨shifted_lt, half_eq, half_le⟩ := normalised s_lt least most
    have half : (((d <<< s) >>> 32).setWidth 32).toNat = d.toNat / 2 ^ (32 - s) := by
      rw [BitVec.toNat_setWidth, BitVec.toNat_ushiftRight, BitVec.toNat_shiftLeft,
        Nat.shiftRight_eq_div_pow, Nat.shiftLeft_eq, Nat.mod_eq_of_lt shifted_lt, ← half_eq]
      omega
    have halved : (n >>> 1).toNat = n.toNat / 2 := by
      rw [BitVec.toNat_ushiftRight, Nat.shiftRight_eq_div_pow, pow_one]
    obtain ⟨estimate, divides, estimate_eq⟩ := divl_eq (n := n >>> 1)
      (d := ((d <<< s) >>> 32).setWidth 32) (by rw [half, halved]; omega)
    simp only [divides, Option.bind_eq_bind, Option.bind_some]
    refine congrArg some (corrected (BitVec.not_lt.mp enough) nonzero ?_)
    have unit : 2 * 2 ^ (31 - s) = 2 ^ (32 - s) := by
      rw [← pow_succ', show 31 - s + 1 = 32 - s by omega]
    have q_eq : ((estimate >>> (31 - s)).setWidth 64).toNat =
        n.toNat / (2 ^ (32 - s) * (d.toNat / 2 ^ (32 - s))) := by
      rw [BitVec.toNat_setWidth, BitVec.toNat_ushiftRight, Nat.shiftRight_eq_div_pow, estimate_eq,
        half, halved, Nat.div_div_eq_div_mul, Nat.div_div_eq_div_mul, ← unit]
      rw [Nat.mod_eq_of_lt ((Nat.div_le_self _ _).trans_lt n_lt)]
      congr 1
      ring
    rw [q_eq]
    refine estimate_bounds n_lt (Nat.mul_div_le _ _) ?_ ?_
      (pow_dvd_pow 2 (show 32 - s ≤ 33 by omega)) ?_
    · exact Nat.lt_mul_div_succ _ (Nat.two_pow_pos _)
    · rw [Nat.mul_comm]
      exact Nat.mul_le_mul_left _ half_le
    · rw [← unit]
      exact Nat.le_mul_of_pos_right _ (Nat.two_pow_pos _)

theorem udiv64_eq {n d : BitVec 64} (nonzero : d ≠ 0) : udiv64 n d = some (n / d) := by
  by_cases small : d >>> 32 = 0
  · exact udiv64_small nonzero small
  · exact udiv64_large small

theorem sdiv64_eq {n d : BitVec 64} (nonzero : d ≠ 0) : sdiv64 n d = some (n.sdiv d) := by
  have neg_ne : -d ≠ 0 := fun zero => nonzero (BitVec.neg_eq_zero_iff.mp zero)
  simp only [sdiv64, BitVec.ofNat_eq_ofNat, BitVec.slt_zero_eq_msb, BitVec.sdiv]
  cases n.msb <;> cases d.msb <;> simp [udiv64_eq nonzero, udiv64_eq neg_ne]

/-- Both divisions are exact and never trap; only the least number divided by -1 wraps around. -/
theorem divisions_exact (n d : BitVec 64) (nonzero : d ≠ 0) :
    (∃ q, udivdi3 n d = some q ∧ q.toNat = n.toNat / d.toNat) ∧
      ∃ q, divdi3 n d = some q ∧ if n = .intMin 64 ∧ d = -1 then q = .intMin 64
        else q.toInt = n.toInt.tdiv d.toInt := by
  refine ⟨⟨n / d, udiv64_eq nonzero, BitVec.toNat_udiv⟩, n.sdiv d, sdiv64_eq nonzero, ?_⟩
  split
  · rename_i wraps
    obtain ⟨rfl, rfl⟩ := wraps
    decide
  · rename_i regular
    exact BitVec.toInt_sdiv_of_ne_or_ne n d (by tauto)

theorem divisions_exact_large : (∃ q, udivdi3 (-1) 0x100000001 = some q ∧ q.toNat = 0xffffffff) ∧
      ∃ q, divdi3 (-1) 0x100000001 = some q ∧ q.toInt = 0 := by
  have exact_here := divisions_exact (-1) 0x100000001 (by decide)
  obtain ⟨⟨q, divides, q_eq⟩, r, sdivides, r_eq⟩ := exact_here
  exact ⟨⟨q, divides, q_eq⟩, r, sdivides, r_eq⟩

/-! ## Remainders -/

theorem sub_mul_udiv (n d : BitVec 64) : (n - d * (n / d)).toNat = n.toNat % d.toNat := by
  have whole := Nat.div_add_mod n.toNat d.toNat
  have n_lt := n.isLt
  have product_le := Nat.mul_div_le n.toNat d.toNat
  rw [BitVec.toNat_sub, BitVec.toNat_mul, BitVec.toNat_udiv]
  generalize d.toNat * (n.toNat / d.toNat) = product at *
  omega

theorem sub_mul_sdiv (n d : BitVec 64) : (n - d * n.sdiv d).toInt = n.toInt.tmod d.toInt := by
  have whole := Int.mul_tdiv_add_tmod n.toInt d.toInt
  rw [BitVec.toInt_sub, BitVec.toInt_mul, BitVec.toInt_sdiv, Int.mul_bmod_bmod,
    Int.sub_bmod_bmod, show n.toInt - d.toInt * n.toInt.tdiv d.toInt = n.toInt.tmod d.toInt by omega,
    ← BitVec.toInt_srem]
  exact BitVec.toInt_bmod_cancel _

theorem umoddi3_eq {n d : BitVec 64} (nonzero : d ≠ 0) :
    ∃ r, umoddi3 n d = some r ∧ r.toNat = n.toNat % d.toNat % 2 ^ 32 := by
  refine ⟨((n - d * (n / d)).setWidth 32).setWidth 64, ?_, ?_⟩
  · simp only [umoddi3, umod64, udiv64_eq nonzero, Option.bind_eq_bind, Option.bind_some,
      Option.map_some]
  · rw [BitVec.toNat_setWidth, BitVec.toNat_setWidth, sub_mul_udiv]
    omega

theorem moddi3_eq {n d : BitVec 64} (nonzero : d ≠ 0) :
    ∃ r, moddi3 n d = some r ∧ r.toInt = (n.toInt.tmod d.toInt).bmod (2 ^ 32) := by
  refine ⟨((n - d * n.sdiv d).setWidth 32).signExtend 64, ?_, ?_⟩
  · simp only [moddi3, smod64, sdiv64_eq nonzero, Option.bind_eq_bind, Option.bind_some,
      Option.map_some]
  · rw [BitVec.toInt_signExtend_of_le (by decide), BitVec.toInt_setWidth, ← sub_mul_sdiv,
      BitVec.toInt_eq_toNat_bmod, Int.bmod_bmod_of_dvd (by decide)]

/-- Each remainder is right exactly when it fits in the 32 bits that it is returned in. -/
theorem remainders_exact_iff (n d : BitVec 64) (nonzero : d ≠ 0) :
    ((∃ r, umoddi3 n d = some r ∧ r.toNat = n.toNat % d.toNat) ↔ n.toNat % d.toNat < 2 ^ 32) ∧
      ((∃ r, moddi3 n d = some r ∧ r.toInt = n.toInt.tmod d.toInt) ↔
        -2 ^ 31 ≤ n.toInt.tmod d.toInt ∧ n.toInt.tmod d.toInt < 2 ^ 31) := by
  obtain ⟨r, gives, r_eq⟩ := umoddi3_eq nonzero (n := n)
  obtain ⟨t, sreturns, t_eq⟩ := moddi3_eq nonzero (n := n)
  simp only [gives, sreturns, Option.some.injEq, exists_eq_left', r_eq, t_eq]
  constructor
  · constructor
    · exact fun same => same ▸ Nat.mod_lt _ (by decide)
    · exact Nat.mod_eq_of_lt
  · constructor
    · exact fun same => same ▸ ⟨Int.le_bmod (by decide), Int.bmod_lt (by decide)⟩
    · exact fun fits => Int.bmod_eq_of_le fits.1 fits.2

theorem remainders_exact_small :
    (∃ r, umoddi3 (-1) 10 = some r ∧ r.toNat = 5) ∧ ∃ r, moddi3 (-15) 10 = some r ∧ r.toInt = -5 :=
  ⟨(remainders_exact_iff (-1) 10 (by decide)).1.mpr (by decide),
    (remainders_exact_iff (-15) 10 (by decide)).2.mpr (by decide)⟩

/-- The remainder of 2³² by 2³³ is 2³², and both routines return 0. -/
theorem remainders_lose_upper_half : umoddi3 0x100000000 0x200000000 = some 0 ∧
    moddi3 0x100000000 0x200000000 = some 0 ∧ 0x100000000 % 0x200000000 = 0x100000000 := by
  decide +kernel

end Pintos.Clib
