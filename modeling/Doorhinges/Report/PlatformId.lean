import Doorhinges.Lib.Decimal
import Doorhinges.Report.Model

/-!
# The test of a platform id

The same test stands in `ais_get`, `ais_callback`, `ais_imp_clk` and `ais_report`. It
looks at the number only after `atoi` has narrowed it to an int.
-/
namespace Doorhinges.Report

open Lib.CString

/-- A digit string whose value is a platform id. -/
def PlatformId (pid : Bytes) : Prop :=
  pid ≠ [] ∧ (∀ c ∈ pid, isDigit c) ∧ 1 ≤ leadingNat pid ∧ (leadingNat pid : Int) ≤ MAX_PID_NUM

/-- A digit string whose value is not cut off at 64 bits, but at 32 bits to that of an id. -/
def Wraps (pid : Bytes) : Prop :=
  (∀ c ∈ pid, isDigit c) ∧ 2 ^ 32 ≤ leadingNat pid ∧ leadingNat pid < 2 ^ 63 ∧
    1 ≤ leadingNat pid % 2 ^ 32 ∧ ((leadingNat pid % 2 ^ 32 : Nat) : Int) ≤ MAX_PID_NUM

variable {pid : Bytes}

theorem pidValid_iff : pidInvalid pid = false ↔
    (∀ c ∈ pid, isDigit c) ∧ 0 < atoi pid ∧ atoi pid ≤ MAX_PID_NUM := by
  simp [pidInvalid, and_assoc]

/-- The test accepts the platform ids, and besides them the digit strings that wrap. -/
theorem pidValid_eq : pidInvalid pid = false ↔ PlatformId pid ∨ Wraps pid := by
  have hmax : MAX_PID_NUM = 10000000 := rfl
  rw [pidValid_iff, hmax]
  constructor
  · rintro ⟨hdigits, hpos, hle⟩
    have hrange : (1 : Nat) ≤ atoi pid ∧ atoi pid ≤ (10000000 : Nat) := ⟨by omega, by omega⟩
    rcases (atoi_between hdigits (by decide)).1 hrange with ⟨hlow, hhigh⟩ | ⟨hbig, hlt, hlow, hhigh⟩
    · refine .inl ⟨?_, hdigits, hlow, by omega⟩
      rintro rfl
      exact absurd hpos (by decide)
    · exact .inr ⟨hdigits, hbig, hlt, hlow, by omega⟩
  · intro h
    have hdigits : ∀ c ∈ pid, isDigit c := h.elim (·.2.1) (·.1)
    have hrange : (1 : Nat) ≤ atoi pid ∧ atoi pid ≤ (10000000 : Nat) := by
      apply (atoi_between hdigits (by decide)).2
      rcases h with ⟨-, -, hlow, hhigh⟩ | ⟨-, hbig, hlt, hlow, hhigh⟩
      · exact .inl ⟨hlow, by omega⟩
      · exact .inr ⟨hbig, hlt, hlow, by omega⟩
    exact ⟨hdigits, by omega, by omega⟩

theorem Wraps.not_platformId (h : Wraps pid) : ¬ PlatformId pid := by
  obtain ⟨-, hbig, -⟩ := h
  rintro ⟨-, -, -, hle⟩
  have hmax : MAX_PID_NUM = 10000000 := rfl
  omega

/-- The test is right about exactly the strings that do not wrap. -/
theorem pid_accepted_iff (pid : Bytes) :
    (pidInvalid pid = false ↔ PlatformId pid) ↔ ¬ Wraps pid := by
  rw [pidValid_eq]
  constructor
  · intro h hwraps
    exact hwraps.not_platformId (h.1 (.inr hwraps))
  · intro hwraps
    exact or_iff_left hwraps

/-- 2^32 + 5 is taken for 5. -/
theorem large_pid_accepted : ¬ ∀ pid, pidInvalid pid = false ↔ PlatformId pid := by
  intro h
  have haccepted : pidInvalid (ascii "4294967301") = false := by decide
  obtain ⟨-, -, -, hle⟩ := (h _).1 haccepted
  exact absurd hle (by decide)

end Doorhinges.Report
