import TunSafe.RateLimit.Basic
import Mathlib.Data.List.Basic

/-! # Runs of `CommitResult`

A run is a list of results committed one after another with no `Periodic` between them.
`halvingCount` gives the counters after any run in closed form, and `LoadInv` is what keeps
`is_used()` true over such a run, also once `used_rate_limit_` wraps.
-/

namespace TunSafe.RateLimit

namespace WgRateLimit

def run (s : WgRateLimit) (rrs : List RateLimitResult) : WgRateLimit := rrs.foldl commitResult s

/-- The calls of a run, numbered from 1, that find `used_rate_limit_` at
`TOTAL_PACKETS_PER_SEC`. Call `k + 1` starts from the state the first `k` calls leave. -/
def halvingCalls (s : WgRateLimit) (rrs : List RateLimitResult) : List Nat :=
  ((List.range rrs.length).filter fun k =>
    (s.run (rrs.take k)).usedRateLimit = TOTAL_PACKETS_PER_SEC).map (· + 1)

variable (s : WgRateLimit) (rr : RateLimitResult) (rrs : List RateLimitResult)

@[simp] theorem run_nil : s.run [] = s := rfl

@[simp] theorem run_cons : s.run (rr :: rrs) = (s.commitResult rr).run rrs := rfl

theorem run_append_singleton : s.run (rrs ++ [rr]) = (s.run rrs).commitResult rr :=
  List.foldl_append ..

/-! ## The count -/

theorem toNat_run_usedRateLimit :
    (s.run rrs).usedRateLimit.toNat = (s.usedRateLimit.toNat + rrs.length) % 2 ^ 32 := by
  induction rrs using List.reverseRecOn with
  | nil => simp [Nat.mod_eq_of_lt s.usedRateLimit.toNat_lt]
  | append_singleton rrs rr ih =>
    rw [run_append_singleton, toNat_commitResult_usedRateLimit, ih, List.length_append,
      List.length_singleton]
    omega

theorem halvingCalls_append_singleton :
    s.halvingCalls (rrs ++ [rr]) = s.halvingCalls rrs ++
      if (s.run rrs).usedRateLimit = TOTAL_PACKETS_PER_SEC then [rrs.length + 1] else [] := by
  -- The calls before the new one start from the same prefixes as before.
  have hprefix : ((List.range rrs.length).filter fun k =>
      (s.run ((rrs ++ [rr]).take k)).usedRateLimit = TOTAL_PACKETS_PER_SEC) =
      (List.range rrs.length).filter fun k =>
        (s.run (rrs.take k)).usedRateLimit = TOTAL_PACKETS_PER_SEC :=
    List.filter_congr fun k hk => by
      rw [List.take_append_of_le_length (Nat.le_of_lt (List.mem_range.mp hk))]
  simp only [halvingCalls, List.length_append, List.length_singleton, List.range_succ,
    List.filter_append, List.map_append, hprefix]
  split <;> simp [*]

/-- The rate a run leaves: one halving for each call that finds the count at
`TOTAL_PACKETS_PER_SEC`. -/
theorem run_packetsPerSec :
    (s.run rrs).packetsPerSec = halve^[(s.halvingCalls rrs).length] s.packetsPerSec := by
  induction rrs using List.reverseRecOn with
  | nil => rfl
  | append_singleton rrs rr ih =>
    rw [run_append_singleton, commitResult_packetsPerSec, halvingCalls_append_singleton, ih]
    split <;> simp [Function.iterate_succ_apply']

/-- Call `n + 1` of a run from a count of `u` halves the rate exactly when
`(u + n) mod 2^32 = TOTAL_PACKETS_PER_SEC`, and otherwise leaves it as the first `n` calls left
it: past a wrap of the count, the rate halves again every `2^32` calls. -/
theorem packetsPerSec_run_append_singleton (rr : RateLimitResult) :
    (s.run (rrs ++ [rr])).packetsPerSec =
      if (s.usedRateLimit.toNat + rrs.length) % 2 ^ 32 = 25000 then
        halve (s.run rrs).packetsPerSec
      else (s.run rrs).packetsPerSec := by
  rw [run_append_singleton, commitResult_packetsPerSec]
  refine if_congr ?_ rfl rfl
  rw [UInt32.ext_iff, toNat_run_usedRateLimit, total_packets_per_sec_toNat]

/-- From a count of 0, the first `2^32` calls halve the rate once, on call 25001. -/
theorem halvingCalls_of_usedRateLimit_eq_zero (hu : s.usedRateLimit = 0)
    (hlen : rrs.length ≤ 2 ^ 32) :
    s.halvingCalls rrs = if rrs.length ≤ 25000 then [] else [25001] := by
  induction rrs using List.reverseRecOn with
  | nil => rfl
  | append_singleton rrs rr ih =>
    rw [List.length_append, List.length_singleton] at hlen ⊢
    -- Before the wrap the count is the number of calls so far.
    have hcount : (s.run rrs).usedRateLimit = TOTAL_PACKETS_PER_SEC ↔ rrs.length = 25000 := by
      rw [UInt32.ext_iff, toNat_run_usedRateLimit, hu, UInt32.toNat_zero,
        total_packets_per_sec_toNat, Nat.zero_add, Nat.mod_eq_of_lt (by omega)]
    rw [halvingCalls_append_singleton, ih (by omega), if_congr hcount rfl rfl]
    split_ifs <;> simp <;> omega

/-! ## The counters in closed form -/

/-- How many of `n` calls, from a count of `u`, find the count at `TOTAL_PACKETS_PER_SEC`:
the first is call `(25000 - u) mod 2^32 + 1`, then one every `2^32` calls. -/
def halvingCount (u n : Nat) : Nat := (n + 2 ^ 32 - 1 - (25000 + 2 ^ 32 - u) % 2 ^ 32) / 2 ^ 32

theorem halvingCount_succ {u : Nat} (hu : u < 2 ^ 32) (n : Nat) :
    halvingCount u (n + 1) = halvingCount u n + if (u + n) % 2 ^ 32 = 25000 then 1 else 0 := by
  have hj := Nat.mod_lt (25000 + 2 ^ 32 - u) (Nat.two_pow_pos 32)
  unfold halvingCount
  -- One more call adds one to the dividend: the quotient steps up when that makes a multiple.
  rw [show n + 1 + 2 ^ 32 - 1 - (25000 + 2 ^ 32 - u) % 2 ^ 32 =
    n + 2 ^ 32 - 1 - (25000 + 2 ^ 32 - u) % 2 ^ 32 + 1 by omega, Nat.succ_div]
  simp only [Nat.dvd_iff_mod_eq_zero]
  congr 2
  exact propext (by omega)

-- From a fresh count: call 25001 halves, then call `2^32 + 25001`.
example : halvingCount 0 25000 = 0 ∧ halvingCount 0 25001 = 1 ∧
    halvingCount 0 (2 ^ 32 + 25000) = 1 ∧ halvingCount 0 (2 ^ 32 + 25001) = 2 := by
  decide

theorem length_halvingCalls :
    (s.halvingCalls rrs).length = halvingCount s.usedRateLimit.toNat rrs.length := by
  induction rrs using List.reverseRecOn with
  | nil =>
    show 0 = halvingCount _ 0
    unfold halvingCount
    omega
  | append_singleton rrs rr ih =>
    have hcount : (s.run rrs).usedRateLimit = TOTAL_PACKETS_PER_SEC ↔
        (s.usedRateLimit.toNat + rrs.length) % 2 ^ 32 = 25000 := by
      rw [UInt32.ext_iff, toNat_run_usedRateLimit, total_packets_per_sec_toNat]
    rw [halvingCalls_append_singleton, List.length_append, ih, List.length_append,
      List.length_singleton, halvingCount_succ s.usedRateLimit.toNat_lt, if_congr hcount rfl rfl]
    split <;> rfl

/-- The counters after any run: the count goes up by the run's length modulo `2^32`, and the
rate is divided by `2^h`, rounded up, where `h` counts the calls that find the count at
`TOTAL_PACKETS_PER_SEC`. The rate must start below `2^32 - 1`, where `+ 1` wraps. -/
theorem run_counters_closed_form (hp : s.packetsPerSec.toNat + 1 < 2 ^ 32) :
    (s.run rrs).usedRateLimit.toNat = (s.usedRateLimit.toNat + rrs.length) % 2 ^ 32 ∧
      (s.run rrs).packetsPerSec.toNat =
        (s.packetsPerSec.toNat + 2 ^ halvingCount s.usedRateLimit.toNat rrs.length - 1) /
          2 ^ halvingCount s.usedRateLimit.toNat rrs.length := by
  refine ⟨toNat_run_usedRateLimit s rrs, ?_⟩
  rw [run_packetsPerSec, length_halvingCalls, toNat_iterate_halve hp]

theorem run_counters_closed_form_two_calls :
    let s : WgRateLimit := ⟨fun _ => 0, PACKETS_PER_SEC, 24999⟩
    let rrs : List RateLimitResult := [⟨⟨0, ⟨7, by decide⟩⟩, 1, 1⟩, ⟨⟨1, ⟨7, by decide⟩⟩, 2, 1⟩]
    s.packetsPerSec.toNat + 1 < 2 ^ 32 ∧
      ((s.run rrs).usedRateLimit.toNat = (s.usedRateLimit.toNat + rrs.length) % 2 ^ 32 ∧
        (s.run rrs).packetsPerSec.toNat =
          (s.packetsPerSec.toNat + 2 ^ halvingCount s.usedRateLimit.toNat rrs.length - 1) /
            2 ^ halvingCount s.usedRateLimit.toNat rrs.length) :=
  ⟨by decide, run_counters_closed_form _ _ (by decide)⟩

/-! ## The load flag -/

/-- What keeps `is_used()` true along a run: the rate stays within `1 ..= PACKETS_PER_SEC`, and
it is still `PACKETS_PER_SEC` only while the count has not passed `TOTAL_PACKETS_PER_SEC`. -/
structure LoadInv (s : WgRateLimit) : Prop where
  one_le : 1 ≤ s.packetsPerSec
  le_max : s.packetsPerSec ≤ PACKETS_PER_SEC
  unhalved : s.packetsPerSec = PACKETS_PER_SEC → s.usedRateLimit ≤ TOTAL_PACKETS_PER_SEC

theorem loadInv_of_usedRateLimit_eq_zero (hu : s.usedRateLimit = 0) (h1 : 1 ≤ s.packetsPerSec)
    (h25 : s.packetsPerSec ≤ PACKETS_PER_SEC) : LoadInv s :=
  ⟨h1, h25, fun _ => by rw [hu]; decide⟩

variable {s}

theorem LoadInv.commitResult (h : LoadInv s) : LoadInv (s.commitResult rr) := by
  by_cases hu : s.usedRateLimit = TOTAL_PACKETS_PER_SEC
  · -- The halving call: the rate drops below `PACKETS_PER_SEC` and stays at least 1.
    have hp : (s.commitResult rr).packetsPerSec = halve s.packetsPerSec := if_pos hu
    have hlt := halve_lt_packets_per_sec h.le_max
    exact ⟨hp ▸ one_le_halve h.one_le h.le_max, hp ▸ le_iff_toNat_le.mpr (Nat.le_of_lt hlt),
      fun he => absurd (hp ▸ he) (UInt32.ne_of_lt hlt)⟩
  · have hp : (s.commitResult rr).packetsPerSec = s.packetsPerSec := if_neg hu
    refine ⟨hp ▸ h.one_le, hp ▸ h.le_max, fun he => ?_⟩
    -- The count was below `TOTAL_PACKETS_PER_SEC`, so one more does not pass it.
    have hle : s.usedRateLimit.toNat ≤ 25000 := h.unhalved (hp ▸ he)
    have hne : s.usedRateLimit.toNat ≠ 25000 := fun e => hu (UInt32.ext e)
    show (s.commitResult rr).usedRateLimit.toNat ≤ 25000
    rw [toNat_commitResult_usedRateLimit]
    omega

theorem LoadInv.isUsed_commitResult (h : LoadInv s) : (s.commitResult rr).isUsed = true := by
  rw [isUsed_iff]
  by_cases hwrap : s.usedRateLimit.toNat = 2 ^ 32 - 1
  · -- The count wraps to 0, but it had passed `TOTAL_PACKETS_PER_SEC`: the rate is already down.
    have hu : s.usedRateLimit ≠ TOTAL_PACKETS_PER_SEC := fun e => by simp [e] at hwrap
    refine .inr fun hp => ?_
    rw [commitResult_packetsPerSec, if_neg hu] at hp
    have : s.usedRateLimit.toNat ≤ 25000 := h.unhalved hp
    omega
  · refine .inl fun h0 => ?_
    have h0 := congrArg UInt32.toNat h0
    rw [toNat_commitResult_usedRateLimit, UInt32.toNat_zero] at h0
    have := s.usedRateLimit.toNat_lt
    omega

theorem LoadInv.run (h : LoadInv s) (rrs : List RateLimitResult) : LoadInv (s.run rrs) := by
  induction rrs generalizing s with
  | nil => exact h
  | cons rr rrs ih => exact ih (h.commitResult rr)

theorem run_eq_commitResult_getLast (s : WgRateLimit) {rrs : List RateLimitResult} (hn : rrs ≠ []) :
    s.run rrs = (s.run rrs.dropLast).commitResult (rrs.getLast hn) := by
  rw [← run_append_singleton, List.dropLast_concat_getLast]

theorem LoadInv.isUsed_run (h : LoadInv s) {rrs : List RateLimitResult} (hn : rrs ≠ []) :
    (s.run rrs).isUsed = true := by
  rw [run_eq_commitResult_getLast s hn]
  exact (h.run _).isUsed_commitResult _

/-- `LoadInv` is inductive: from every state inside it, every run stays inside it and leaves
`is_used()` true after each call. -/
theorem loadInv_run_isUsed (h : LoadInv s) (rrs : List RateLimitResult) :
    LoadInv (s.run rrs) ∧ (rrs ≠ [] → (s.run rrs).isUsed = true) :=
  ⟨h.run rrs, h.isUsed_run⟩

theorem loadInv_run_isUsed_past_wrap :
    let s : WgRateLimit := ⟨fun _ => 0, 7, 4294967290⟩
    let rrs : List RateLimitResult := List.replicate 9 ⟨⟨0, ⟨7, by decide⟩⟩, 1, 1⟩
    LoadInv s ∧ (LoadInv (s.run rrs) ∧ (rrs ≠ [] → (s.run rrs).isUsed = true)) :=
  have h : LoadInv ⟨fun _ => 0, 7, 4294967290⟩ := ⟨by decide, by decide, fun he => absurd he (by decide)⟩
  ⟨h, loadInv_run_isUsed h _⟩

/-- A burst of commits from a fresh count keeps the load flag up, even past the wrap of
`used_rate_limit_`, and only ever lowers the rate, once per call that finds the count at
`TOTAL_PACKETS_PER_SEC`: within the first `2^32` calls, only call 25001. -/
theorem commit_run_keeps_load (s : WgRateLimit) (hu : s.usedRateLimit = 0)
    (h1 : 1 ≤ s.packetsPerSec) (h25 : s.packetsPerSec ≤ PACKETS_PER_SEC)
    (rrs : List RateLimitResult) (hn : rrs ≠ []) :
    (s.run rrs).isUsed = true ∧ 1 ≤ (s.run rrs).packetsPerSec ∧
      (s.run rrs).packetsPerSec ≤ (s.run rrs.dropLast).packetsPerSec ∧
      (s.run rrs).packetsPerSec = halve^[(s.halvingCalls rrs).length] s.packetsPerSec ∧
      (rrs.length ≤ 2 ^ 32 → s.halvingCalls rrs = if rrs.length ≤ 25000 then [] else [25001]) := by
  have hinv := loadInv_of_usedRateLimit_eq_zero s hu h1 h25
  refine ⟨hinv.isUsed_run hn, (hinv.run rrs).one_le, ?_, run_packetsPerSec s rrs,
    halvingCalls_of_usedRateLimit_eq_zero s rrs hu⟩
  rw [run_eq_commitResult_getLast s hn]
  exact commitResult_packetsPerSec_le _ _

theorem commit_run_keeps_load_two_calls :
    let s : WgRateLimit := ⟨fun _ => 0, PACKETS_PER_SEC, 0⟩
    let rrs : List RateLimitResult := [⟨⟨0, ⟨7, by decide⟩⟩, 1, 1⟩, ⟨⟨1, ⟨7, by decide⟩⟩, 2, 1⟩]
    s.usedRateLimit = 0 ∧ 1 ≤ s.packetsPerSec ∧ s.packetsPerSec ≤ PACKETS_PER_SEC ∧ rrs ≠ [] ∧
      ((s.run rrs).isUsed = true ∧ 1 ≤ (s.run rrs).packetsPerSec ∧
        (s.run rrs).packetsPerSec ≤ (s.run rrs.dropLast).packetsPerSec ∧
        (s.run rrs).packetsPerSec = halve^[(s.halvingCalls rrs).length] s.packetsPerSec ∧
        (rrs.length ≤ 2 ^ 32 → s.halvingCalls rrs = if rrs.length ≤ 25000 then [] else [25001])) :=
  ⟨rfl, by decide, by decide, List.cons_ne_nil _ _,
    commit_run_keeps_load _ rfl (by decide) (by decide) _ (List.cons_ne_nil _ _)⟩

/-! ## The bins and the results -/

/-- The byte a run stores last at `slot`, if it stores one there. -/
def lastStore (rrs : List RateLimitResult) (slot : BinSlot) : Option UInt8 :=
  (rrs.reverse.find? (·.valuePtr = slot)).map (·.newValue)

variable (s : WgRateLimit)

/-- A run leaves in each byte of the bins the value it stored there last, and every byte it
never points at as it was. -/
theorem run_bins_last_store (slot : BinSlot) :
    (s.run rrs).bins slot = (lastStore rrs slot).getD (s.bins slot) := by
  induction rrs using List.reverseRecOn with
  | nil => rfl
  | append_singleton rrs rr ih =>
    rw [run_append_singleton, commitResult_bins]
    by_cases h : slot = rr.valuePtr
    · subst h
      simp [lastStore]
    · rw [Function.update_noteq h, ih]
      simp [lastStore, Ne.symm h]

end WgRateLimit

end TunSafe.RateLimit
