/-
The branch filters lose nothing.

ARM, ARM64, SPARC, ARM Thumb and IA-64 each walk over their input and move the operands of
the branches they come across.  A moved operand is where it was, so the walk over what a
filter returns takes the same strides and finds the same branches; and what is taken away
from an operand, modulo what it can hold, can be given back.  Hence each of these filters is
a bijection on the byte strings of any length, under every start position.
-/
import Un7z.Proofs.Ia64Filter

namespace Un7z

namespace Filters

open CompatibilityFilters
open Relocation (relocate)

/-- The filter is a walk that moves operands, and loses nothing. -/
structure Moves (decode : InPlace) (gait : Gait UInt32 UInt8)
    (relocations : List (Relocation UInt32 Bytes)) (start : UInt32) (n : Nat) : Prop where
  decodes : ∀ bytes : Bytes, bytes.length = n →
    (decode bytes).result = .ok (gait.walk start bytes)
  bijective : Set.BijOn (gait.walk start) {bytes | bytes.length = n} {bytes | bytes.length = n}
  /-- It takes the same strides, under the same pointers, over what it returns. -/
  strides : ∀ bytes : Bytes, bytes.length = n →
    gait.fronts start (gait.walk start bytes)
      = (gait.fronts start bytes).map fun p => (p.1, relocate relocations p.1 p.2)
  /-- What is recognised in a stride is recognised in what becomes of it, and is moved. -/
  operands : ∀ r ∈ relocations, ∀ (ip : UInt32) (front : Bytes),
    (r.operand.Recognized (relocate relocations ip front) ↔ r.operand.Recognized front) ∧
      (r.operand.Recognized front →
        r.operand.get (relocate relocations ip front) = r.operand.moved (r.amount ip) front)

theorem finite_byte : Finite UInt8 :=
  Finite.of_injective (fun byte => (⟨byte.toNat, byte.toNat_lt⟩ : Fin (2 ^ 8)))
    fun _ _ h => UInt8.toNat_inj.mp (Fin.mk.inj h)

theorem moves_of_steady {decode : InPlace} {cut : Bytes → Nat}
    {relocations : List (Relocation UInt32 Bytes)} {start : UInt32} {n : Nat}
    (hsteady : (relocating cut relocations).Steady)
    (hindependent : Relocation.Independent relocations)
    (hdecode : ∀ bytes : Bytes, bytes.length = n →
      (decode bytes).result = .ok ((relocating cut relocations).walk start bytes)) :
    Moves decode (relocating cut relocations) relocations start n where
  decodes := hdecode
  bijective := by
    have hinjective : Function.Injective ((relocating cut relocations).walk start) :=
      hsteady.walk_injective (fun _ _ _ h => Relocation.relocate_injective _ h) start
    have hfinite := finite_byte
    exact hsteady.walk_bijOn hinjective n
  strides bytes _ := hsteady.fronts_walk start bytes
  operands _ hr ip front := Relocation.relocate_moves hindependent hr ip front

/-- A filter that goes from word to word. -/
theorem moves_words {properties : Bytes} {start : UInt32} {n : Nat} {overflows : String}
    {body : UInt32 → Nat → InPlace} {relocations : List (Relocation UInt32 Bytes)}
    (pointer : UInt32 → UInt32) (hstart : (startingPosition properties).result = .ok start)
    (hn : n < 2 ^ 64) (hkeeps : Keeps 4 relocations) (hindependent : Relocation.Independent relocations)
    (hbody : Relocates body relocations) :
    Moves (fun bytes => do
      let start ← startingPosition properties
      wordsFrom overflows body (bytes.length + 1) (pointer start) 0 bytes)
      (relocatingWords relocations) relocations (pointer start) n := by
  refine moves_of_steady (steady_relocating hkeeps) hindependent fun bytes hbytes => ?_
  refine Metered.bind_eq_ok.mpr ⟨start, hstart, ?_⟩
  exact wordsFrom_walk hkeeps hbody overflows (pointer start) (hbytes ▸ hn)

theorem keeps_armRelocations : Keeps 4 armRelocations := fun ip _ hfront =>
  Relocation.whole_relocate fits_armOperands ip hfront

theorem keeps_arm64Relocations : Keeps 4 arm64Relocations := fun ip _ hfront =>
  Relocation.whole_relocate fits_arm64Operands ip hfront

theorem keeps_sparcRelocations : Keeps 4 sparcRelocations := fun ip _ hfront =>
  Relocation.whole_relocate fits_sparcOperands ip hfront

/-- A single operand is apart from all others. -/
theorem independent_single (r : Relocation UInt32 Nat) : Relocation.Independent [r] :=
  List.pairwise_singleton _ _

/--
**The branch filters lose nothing.**

Under every start position that is accepted, aligned or not, each of the five is a
bijection on the byte strings of a length; it recognises the same branches before and
after; and it subtracts from their operands, modulo what these can hold.
-/
theorem branchFilters_lossless {properties : Bytes} {start : UInt32}
    (hstart : (startingPosition properties).result = .ok start) {n : Nat} (hn : n < 2 ^ 64) :
    Moves (decodeArm properties) (relocatingWords armRelocations) armRelocations (start + 4) n ∧
      Moves (decodeArm64 properties) (relocatingWords arm64Relocations) arm64Relocations start n ∧
      Moves (decodeSparc properties) (relocatingWords sparcRelocations) sparcRelocations start n ∧
      Moves (decodeArmThumb properties) thumbGait thumbRelocations start n ∧
      Moves (decodeIa64 properties) ia64Gait ia64Relocations start n := by
  refine ⟨?_, ?_, ?_, ?_, ?_⟩
  · exact moves_words (fun ip => ip + 4) hstart hn keeps_armRelocations (Relocation.independent_written fits_armOperands (independent_single _)) relocates_arm
  · exact moves_words id hstart hn keeps_arm64Relocations (Relocation.independent_written fits_arm64Operands independent_arm64Operands) relocates_arm64
  · exact moves_words id hstart hn keeps_sparcRelocations (Relocation.independent_written fits_sparcOperands (independent_single _)) relocates_sparc
  · exact moves_of_steady steady_thumbGait (Relocation.independent_written fits_thumbOperands (independent_single _)) fun bytes hbytes =>
      decodeArmThumb_walk hstart (hbytes ▸ hn)
  · exact moves_of_steady (steady_relocating keeps_ia64Relocations) (Relocation.independent_written fits_ia64Operands independent_ia64Operands)
      fun bytes hbytes => decodeIa64_walk hstart (hbytes ▸ hn)

/-- From an odd start position. -/
theorem branchFilters_lossless_odd :
    Moves (decodeArm [1, 0, 0, 0]) (relocatingWords armRelocations) armRelocations 5 100 ∧
      Moves (decodeArm64 [1, 0, 0, 0]) (relocatingWords arm64Relocations) arm64Relocations 1 100 ∧
      Moves (decodeSparc [1, 0, 0, 0]) (relocatingWords sparcRelocations) sparcRelocations 1 100 ∧
      Moves (decodeArmThumb [1, 0, 0, 0]) thumbGait thumbRelocations 1 100 ∧
      Moves (decodeIa64 [1, 0, 0, 0]) ia64Gait ia64Relocations 1 100 :=
  have hstart : (startingPosition [1, 0, 0, 0]).result = .ok 1 := rfl
  branchFilters_lossless hstart (by decide)

end Filters

end Un7z
