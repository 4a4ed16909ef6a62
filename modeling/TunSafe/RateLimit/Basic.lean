import Mathlib.Data.String.Basic
import Mathlib.Logic.Function.Iterate
import Mathlib.Logic.Function.Basic

/-! # The load counters of `WgRateLimit`

`RateLimitResult`, `CommitResult` and `is_used`, as `wireguard_proto.h` defines them inline.
`CheckRateLimit`, `Periodic` and the constructor are in `wireguard_proto.cpp`, so here a result
is any value of its type.
-/

namespace TunSafe.RateLimit

/-! ## The model -/

def BINSIZE : Nat := 4096

def PACKETS_PER_SEC : UInt32 := 25

def TOTAL_PACKETS_PER_SEC : UInt32 := 25000

@[simp] theorem packets_per_sec_toNat : PACKETS_PER_SEC.toNat = 25 := rfl

@[simp] theorem total_packets_per_sec_toNat : TOTAL_PACKETS_PER_SEC.toNat = 25000 := rfl

/-- A byte of `bins_[2][BINSIZE]`: where `RateLimitResult::value_ptr` points. -/
structure BinSlot where
  bin : Fin 2
  index : Fin BINSIZE
  deriving DecidableEq, Repr

structure RateLimitResult where
  valuePtr : BinSlot
  newValue : UInt8
  isOk : UInt8
  deriving DecidableEq, Repr

namespace RateLimitResult

def isRateLimited (rr : RateLimitResult) : Bool := rr.isOk == 0

def isFirstIp (rr : RateLimitResult) : Bool := rr.newValue == 1

end RateLimitResult

/-- The fields of `WgRateLimit` that `CommitResult` and `is_used` touch. The SipHash keys, the
random words and the `bin1_`/`bin2_` pointers are read only by `CheckRateLimit` and `Periodic`. -/
structure WgRateLimit where
  bins : BinSlot → UInt8
  packetsPerSec : UInt32
  usedRateLimit : UInt32

namespace WgRateLimit

/-- `*rr.value_ptr = rr.new_value`, then `used_rate_limit_++`: the count it had before the
increment decides whether the rate halves. -/
def commitResult (s : WgRateLimit) (rr : RateLimitResult) : WgRateLimit where
  bins := Function.update s.bins rr.valuePtr rr.newValue
  packetsPerSec :=
    if s.usedRateLimit = TOTAL_PACKETS_PER_SEC then (s.packetsPerSec + 1) >>> 1
    else s.packetsPerSec
  usedRateLimit := s.usedRateLimit + 1

def isUsed (s : WgRateLimit) : Bool :=
  s.usedRateLimit != 0 || s.packetsPerSec != PACKETS_PER_SEC

end WgRateLimit

/-! ## Halving

Order on `uint32` is order on the numbers, so these facts go through `toNat` and `omega`.
-/

theorem le_iff_toNat_le {a b : UInt32} : a ≤ b ↔ a.toNat ≤ b.toNat := Iff.rfl

/-- The rate after a halving, `(packets_per_sec_ + 1) >> 1`: half, rounded up. -/
def halve (p : UInt32) : UInt32 := (p + 1) >>> 1

theorem toNat_halve (p : UInt32) : (halve p).toNat = (p.toNat + 1) % 2 ^ 32 / 2 := by
  show (p + 1).toNat >>> (UInt32.mod 1 32).toNat = _
  rw [UInt32.toNat_add, Nat.shiftRight_eq_div_pow]
  rfl

theorem halve_le (p : UInt32) : halve p ≤ p := by
  rw [le_iff_toNat_le, toNat_halve]
  omega

theorem one_le_halve {p : UInt32} (h1 : 1 ≤ p) (h25 : p ≤ PACKETS_PER_SEC) : 1 ≤ halve p := by
  have h1 : 1 ≤ p.toNat := h1
  have h25 : p.toNat ≤ 25 := h25
  show 1 ≤ (halve p).toNat
  rw [toNat_halve]
  omega

theorem halve_lt_packets_per_sec {p : UInt32} (h : p ≤ PACKETS_PER_SEC) :
    halve p < PACKETS_PER_SEC := by
  have h : p.toNat ≤ 25 := h
  show (halve p).toNat < 25
  rw [toNat_halve]
  omega

theorem iterate_halve_le (k : Nat) (p : UInt32) : halve^[k] p ≤ p := by
  induction k with
  | zero => exact UInt32.le_refl p
  | succ k ih =>
    rw [Function.iterate_succ_apply']
    exact UInt32.le_trans (halve_le _) ih

/-- `k` halvings divide the rate by `2^k`, rounding up, as long as `packets_per_sec_ + 1`
cannot wrap. -/
theorem toNat_iterate_halve {p : UInt32} (hp : p.toNat + 1 < 2 ^ 32) (k : Nat) :
    (halve^[k] p).toNat = (p.toNat + 2 ^ k - 1) / 2 ^ k := by
  induction k with
  | zero => simp
  | succ k ih =>
    have hle : (halve^[k] p).toNat ≤ p.toNat := iterate_halve_le k p
    -- Rounding up twice is rounding up once: `⌈⌈p / 2^k⌉ / 2⌉ = ⌈p / 2^(k+1)⌉`.
    have hsplit : (p.toNat + 2 ^ k * 2 - 1) / 2 ^ k = (p.toNat + 2 ^ k - 1) / 2 ^ k + 1 := by
      rw [show p.toNat + 2 ^ k * 2 - 1 = p.toNat + 2 ^ k - 1 + 2 ^ k by omega,
        Nat.add_div_right _ (Nat.two_pow_pos k)]
    rw [Function.iterate_succ_apply', toNat_halve, Nat.mod_eq_of_lt (by omega), ih, Nat.pow_succ,
      ← Nat.div_div_eq_div_mul, hsplit]

/-! ## One call -/

namespace WgRateLimit

variable (s : WgRateLimit) (rr : RateLimitResult)

@[simp] theorem commitResult_bins :
    (s.commitResult rr).bins = Function.update s.bins rr.valuePtr rr.newValue := rfl

@[simp] theorem commitResult_usedRateLimit :
    (s.commitResult rr).usedRateLimit = s.usedRateLimit + 1 := rfl

/-- The count goes up by one, and past `2^32 - 1` wraps to 0. -/
theorem toNat_commitResult_usedRateLimit :
    (s.commitResult rr).usedRateLimit.toNat = (s.usedRateLimit.toNat + 1) % 2 ^ 32 := rfl

theorem commitResult_packetsPerSec :
    (s.commitResult rr).packetsPerSec =
      if s.usedRateLimit = TOTAL_PACKETS_PER_SEC then halve s.packetsPerSec
      else s.packetsPerSec := rfl

theorem commitResult_packetsPerSec_le : (s.commitResult rr).packetsPerSec ≤ s.packetsPerSec := by
  rw [commitResult_packetsPerSec]
  split
  exacts [halve_le _, UInt32.le_refl _]

theorem isUsed_iff : s.isUsed = true ↔ s.usedRateLimit ≠ 0 ∨ s.packetsPerSec ≠ PACKETS_PER_SEC := by
  simp [isUsed]

end WgRateLimit

end TunSafe.RateLimit
