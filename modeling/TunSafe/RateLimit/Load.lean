import TunSafe.RateLimit.Run

/-! # What the counters are for

The packets committed since the last `Periodic`, counted without bound, and a rate that halves
once, on the commit that takes the count past `TOTAL_PACKETS_PER_SEC`. `Sim` relates the
`uint32` counters to this model while `packets_per_sec_ + 1` cannot wrap; every run that does
not wrap `used_rate_limit_` keeps it.
-/

namespace TunSafe.RateLimit

structure Load where
  committed : Nat
  rate : Nat
  deriving DecidableEq, Repr

namespace Load

def commit (l : Load) : Load where
  committed := l.committed + 1
  rate := if l.committed = 25000 then (l.rate + 1) / 2 else l.rate

def isUsed (l : Load) : Bool := l.committed != 0 || l.rate != 25

end Load

namespace WgRateLimit

/-- The counters hold the model's count and rate. The rate stays below `2^32 - 1`, so that
`packets_per_sec_ + 1` does not wrap. -/
structure Sim (s : WgRateLimit) (l : Load) : Prop where
  count : s.usedRateLimit.toNat = l.committed
  rate : s.packetsPerSec.toNat = l.rate
  rate_lt : l.rate + 1 < 2 ^ 32

variable {s : WgRateLimit} {l : Load}

/-- What the simulation is for: both sides agree on `is_used()`. -/
theorem Sim.isUsed_eq (h : Sim s l) : s.isUsed = l.isUsed := by
  rw [Bool.eq_iff_iff, isUsed_iff]
  simp only [Load.isUsed, Bool.or_eq_true, bne_iff_ne, ne_eq, UInt32.ext_iff, h.count, h.rate,
    UInt32.toNat_zero, packets_per_sec_toNat]

theorem Sim.commitResult (h : Sim s l) (hc : l.committed + 1 < 2 ^ 32) (rr : RateLimitResult) :
    Sim (s.commitResult rr) l.commit := by
  have hu : s.usedRateLimit = TOTAL_PACKETS_PER_SEC ↔ l.committed = 25000 := by
    rw [UInt32.ext_iff, h.count, total_packets_per_sec_toNat]
  refine ⟨?_, ?_, ?_⟩
  · rw [toNat_commitResult_usedRateLimit, h.count, Nat.mod_eq_of_lt hc]
    rfl
  · rw [commitResult_packetsPerSec, if_congr hu rfl rfl]
    simp only [Load.commit]
    split
    · rw [toNat_halve, h.rate, Nat.mod_eq_of_lt h.rate_lt]
    · exact h.rate
  · have := h.rate_lt
    simp only [Load.commit]
    split <;> omega

theorem Sim.run (h : Sim s l) (rrs : List RateLimitResult)
    (hc : l.committed + rrs.length < 2 ^ 32) : Sim (s.run rrs) (Load.commit^[rrs.length] l) := by
  induction rrs generalizing s l with
  | nil => exact h
  | cons rr rrs ih =>
    rw [List.length_cons] at hc
    rw [run_cons, List.length_cons, Function.iterate_succ_apply]
    exact ih (h.commitResult (by omega) rr) (show l.committed + 1 + rrs.length < 2 ^ 32 by omega)

/-- The `uint32` counters refine the unbounded model on every run that keeps the count below
`2^32`, from a rate below `2^32 - 1`, and `is_used()` agrees with the model's flag. -/
theorem run_simulates_load (h : Sim s l) (rrs : List RateLimitResult)
    (hc : l.committed + rrs.length < 2 ^ 32) :
    Sim (s.run rrs) (Load.commit^[rrs.length] l) ∧
      (s.run rrs).isUsed = (Load.commit^[rrs.length] l).isUsed :=
  have hr := h.run rrs hc
  ⟨hr, hr.isUsed_eq⟩

theorem run_simulates_load_fresh :
    let s : WgRateLimit := ⟨fun _ => 0, PACKETS_PER_SEC, 0⟩
    let l : Load := ⟨0, 25⟩
    let rrs : List RateLimitResult := [⟨⟨0, ⟨3, by decide⟩⟩, 1, 1⟩, ⟨⟨1, ⟨3, by decide⟩⟩, 1, 1⟩]
    Sim s l ∧ l.committed + rrs.length < 2 ^ 32 ∧
      (Sim (s.run rrs) (Load.commit^[rrs.length] l) ∧
        (s.run rrs).isUsed = (Load.commit^[rrs.length] l).isUsed) :=
  have h : Sim ⟨fun _ => 0, PACKETS_PER_SEC, 0⟩ ⟨0, 25⟩ := ⟨rfl, rfl, by decide⟩
  ⟨h, by decide, run_simulates_load h _ (by decide)⟩

end WgRateLimit

end TunSafe.RateLimit
