import PosixSignals.Process.Status

/-!
# What a wait status says

The three layouts of a wait status are told apart by its two bytes: an exit
code leaves the low byte empty, a fatal signal leaves the high byte empty, and a
stop has both. So a wait status gives away which of them it is, with the signal,
and with the exit code as far as its low byte goes.
-/

namespace PosixSignals

/-- Signals have the numbers from 1 to 31. -/
theorem Signal.number_lt (sig : Signal) : 0 < sig.number ∧ sig.number < 32 := by
  have h := sig.index.isLt
  simp only [Signal.number]
  omega

namespace WaitStatus

variable {sig sig' : Signal} {code code' : Int}

/-- The word of a code has its last eight bits above eight zeros. -/
theorem toNat_ofExitCode (code : Int) : (ofExitCode code).toNat = (code % 256).toNat * 256 := by
  have hlt : (code % 256).toNat * 256 < UInt16.size := by
    have h := Int.emod_lt_of_pos code (show (0 : Int) < 256 by decide)
    simp only [UInt16.size]
    omega
  exact UInt16.toNat_ofNat_of_lt hlt

/-- The word of a fatal signal is its number. -/
theorem toNat_ofSignal (sig : Signal) : (ofSignal sig).toNat = sig.number := by
  have hlt : sig.number < UInt16.size := by
    have h := sig.number_lt
    simp only [UInt16.size]
    omega
  exact UInt16.toNat_ofNat_of_lt hlt

/-- The word of a stop has the number above `0x7f`. -/
theorem toNat_ofStop (sig : Signal) : (ofStop sig).toNat = sig.number * 256 + 0x7f := by
  have hlt : sig.number * 256 + 0x7f < UInt16.size := by
    have h := sig.number_lt
    simp only [UInt16.size]
    omega
  exact UInt16.toNat_ofNat_of_lt hlt

/-- **An exit code shows** as far as its low byte goes. -/
theorem emod_of_ofExitCode (h : ofExitCode code = ofExitCode code') : code % 256 = code' % 256 := by
  have hn := congrArg UInt16.toNat h
  rw [toNat_ofExitCode, toNat_ofExitCode] at hn
  have hpos := Int.emod_nonneg code (show (256 : Int) ≠ 0 by decide)
  have hpos' := Int.emod_nonneg code' (show (256 : Int) ≠ 0 by decide)
  omega

/-- The words of fatal signals tell them apart. -/
theorem ofSignal_injective (h : ofSignal sig = ofSignal sig') : sig = sig' := by
  have hn := congrArg UInt16.toNat h
  rw [toNat_ofSignal, toNat_ofSignal] at hn
  obtain ⟨i⟩ := sig
  obtain ⟨j⟩ := sig'
  simp only [Signal.number] at hn
  exact congrArg Signal.mk (Fin.ext (by omega))

/-- A code is never taken for a signal: the low seven bits are zero only in its word. -/
theorem ofExitCode_ne_ofSignal : ofExitCode code ≠ ofSignal sig := fun h => by
  have hn := congrArg UInt16.toNat h
  rw [toNat_ofExitCode, toNat_ofSignal] at hn
  have hlt := sig.number_lt
  omega

/-- Nor is it taken for a stop. -/
theorem ofExitCode_ne_ofStop : ofExitCode code ≠ ofStop sig := fun h => by
  have hn := congrArg UInt16.toNat h
  rw [toNat_ofExitCode, toNat_ofStop] at hn
  omega

/-- A fatal signal is not taken for a stop: no number reaches `0x7f`. -/
theorem ofSignal_ne_ofStop : ofSignal sig ≠ ofStop sig' := fun h => by
  have hn := congrArg UInt16.toNat h
  rw [toNat_ofSignal, toNat_ofStop] at hn
  have hlt := sig.number_lt
  have hlt' := sig'.number_lt
  omega

end WaitStatus

end PosixSignals
