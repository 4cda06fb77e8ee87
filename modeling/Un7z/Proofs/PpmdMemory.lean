/-
The heap of PPMd is a memory of bytes.

Inside the heap no read and no write of `decode/ppmd.rs` fails: each is a read or a write of
a word of the memory.  From here on a function of the source is a change of the memory.
-/
import Un7z.PpmdAllocator
import Un7z.Lib.LinkedBlocks

namespace Un7z

namespace Ppmd

open ByteMemory

section steps

variable {σ ε α β : Type} {m : StateT σ (Except ε) α} {f : α → StateT σ (Except ε) β} {s s' : σ} {a : α}

/-- A step that succeeds is out of the way. -/
theorem step_ok (h : m s = .ok (a, s')) : (m >>= f) s = f a s' := by
  show (m s >>= fun out => f out.1 out.2) = _
  rw [h]
  rfl

/-- So is one without the state. -/
theorem lift_ok {x : Except ε α} (h : x = .ok a) :
    ((liftM x : StateT σ (Except ε) α) >>= f) s = f a s := by
  rw [h]
  rfl

end steps

variable {heap : Heap} {a b value x : Nat}

theorem orFormatError_some {α : Type} (a : α) (detail : String) :
    orFormatError (some a) detail = .ok a := rfl

theorem sub_of_le {left right : Nat} (h : right ≤ left) (detail : String) :
    sub left right detail = .ok (left - right) := by
  rw [sub, checkedSub_of_le h, orFormatError_some]

theorem mul_of_lt {left right : Nat} (h : left * right < 2 ^ 32) (detail : String) :
    mul left right detail = .ok (left * right) := by
  rw [mul, checkedMul_of_lt h, orFormatError_some]

namespace Heap

theorem byte_eq (h : a < heap.bytes.length) : heap.byte a = .ok (get heap.bytes a) := by
  rw [byte, getElem?_eq h, orFormatError_some]

theorem putByte_eq (h : a < heap.bytes.length) (byte : UInt8) :
    putByte a byte heap = .ok ((), ⟨heap.bytes.set a byte⟩) := if_pos h

theorem u16_eq (h : a + 2 ≤ heap.bytes.length) (hheap : heap.bytes.length < 2 ^ 32) :
    heap.u16 a = .ok (word 2 heap.bytes a) := by
  have hlow : (get heap.bytes a).toNat < 2 ^ 8 := UInt8.toNat_lt _
  rw [u16, add_of_lt (by omega), except_ok_bind, byte_eq (by omega), except_ok_bind,
    byte_eq (by omega), except_ok_bind, Nat.or_comm, ← Nat.shiftLeft_add_eq_or_of_lt hlow,
    Nat.shiftLeft_eq]
  simp only [word, except_pure]
  congr 1
  omega

theorem u32_eq (h : a + 4 ≤ heap.bytes.length) (hheap : heap.bytes.length < 2 ^ 32) :
    heap.u32 a = .ok (word 4 heap.bytes a) := by
  have h0 : (get heap.bytes a).toNat < 2 ^ 8 := UInt8.toNat_lt _
  have h1 : (get heap.bytes (a + 1)).toNat < 2 ^ 8 := UInt8.toNat_lt _
  have h2 : (get heap.bytes (a + 2)).toNat < 2 ^ 8 := UInt8.toNat_lt _
  rw [u32, add_of_lt (by omega), except_ok_bind, add_of_lt (by omega), except_ok_bind,
    add_of_lt (by omega), except_ok_bind, byte_eq (by omega), except_ok_bind, byte_eq (by omega),
    except_ok_bind, byte_eq (by omega), except_ok_bind, byte_eq (by omega), except_ok_bind,
    except_pure]
  -- The parts of the number do not overlap.
  rw [Nat.or_comm (get heap.bytes a).toNat, ← Nat.shiftLeft_add_eq_or_of_lt h0, Nat.or_comm,
    Nat.or_comm _ ((get heap.bytes (a + 2)).toNat <<< 16),
    ← Nat.shiftLeft_add_eq_or_of_lt (show (get heap.bytes (a + 1)).toNat <<< 8
      + (get heap.bytes a).toNat < 2 ^ 16 by rw [Nat.shiftLeft_eq]; omega),
    ← Nat.shiftLeft_add_eq_or_of_lt (show (get heap.bytes (a + 2)).toNat <<< 16
      + ((get heap.bytes (a + 1)).toNat <<< 8 + (get heap.bytes a).toNat) < 2 ^ 24 by
      rw [Nat.shiftLeft_eq, Nat.shiftLeft_eq]; omega)]
  simp only [word, Nat.shiftLeft_eq, Nat.add_assoc, Nat.reduceAdd]
  congr 1
  omega

theorem putU16_eq (h : a + 2 ≤ heap.bytes.length) (hheap : heap.bytes.length < 2 ^ 32)
    (hvalue : value < 2 ^ 16) :
    putU16 a value heap = .ok ((), ⟨putWord 2 heap.bytes a value⟩) := by
  unfold putU16
  rw [tryFrom_of_lt hvalue, lift_ok (orFormatError_some _ _), lift_ok (add_of_lt (by omega) _),
    step_ok (putByte_eq (by omega) _), putByte_eq (by rw [List.length_set]; omega)]
  simp only [putWord]
  rw [Nat.mod_eq_of_lt (show value / 256 < 256 by omega)]

/-- A round of `put_u32`. -/
theorem putShifted_cons {shift : Nat} (shifts : List Nat)
    (h : a + shift / 8 < heap.bytes.length) (hheap : heap.bytes.length < 2 ^ 32) :
    putShifted a value (shift :: shifts) heap
      = putShifted a value shifts
          ⟨heap.bytes.set (a + shift / 8) (UInt8.ofNat (value / 2 ^ shift % 256))⟩ := by
  have hbyte : (value >>> shift) &&& 0xff = value / 2 ^ shift % 256 := by
    rw [Nat.shiftRight_eq_div_pow]
    exact Nat.and_two_pow_sub_one_eq_mod _ 8
  rw [putShifted, lift_ok (add_of_lt (by omega) _), hbyte,
    tryFrom_of_lt (show value / 2 ^ shift % 256 < 2 ^ 8 from Nat.mod_lt _ (by decide)), lift_ok (orFormatError_some _ _),
    step_ok (putByte_eq h _)]

theorem putU32_eq (h : a + 4 ≤ heap.bytes.length) (hheap : heap.bytes.length < 2 ^ 32) :
    putU32 a value heap = .ok ((), ⟨putWord 4 heap.bytes a value⟩) := by
  unfold putU32
  rw [putShifted_cons _ (by omega) hheap, putShifted_cons, putShifted_cons, putShifted_cons]
  · show Except.ok _ = _
    simp only [putWord, Nat.div_div_eq_div_mul, Nat.add_assoc, Nat.reduceAdd, Nat.reduceMul,
      Nat.reduceDiv, Nat.reducePow, Nat.div_one, Nat.add_zero]
  all_goals simp only [List.length_set]; omega

/-- Bytes that are copied, and the others. -/
theorem get_copyWithin {bytes : Bytes} {source size destination : Nat}
    (hsource : source + size ≤ bytes.length) (hdestination : destination + size ≤ bytes.length)
    (x : Nat) :
    get (copyWithin bytes source size destination) x
      = if destination ≤ x ∧ x < destination + size then get bytes (source + (x - destination))
        else get bytes x := by
  have hmiddle : ((bytes.drop source).take size).length = size := by
    rw [List.length_take, List.length_drop]
    omega
  have hleft : (bytes.take destination).length = destination := by
    rw [List.length_take]
    omega
  unfold copyWithin ByteMemory.get
  by_cases hbefore : x < destination
  · rw [if_neg (by omega), List.append_assoc, List.getElem?_append_left (by omega),
      List.getElem?_take_of_lt hbefore]
  · by_cases hafter : destination + size ≤ x
    · rw [if_neg (by omega), List.getElem?_append_right (by rw [List.length_append]; omega),
        List.getElem?_drop, List.length_append, hleft, hmiddle,
        Nat.add_sub_cancel' hafter]
    · rw [if_pos (by omega), List.getElem?_append_left (by rw [List.length_append]; omega),
        List.getElem?_append_right (by omega), hleft, List.getElem?_take_of_lt (by omega),
        List.getElem?_drop]

theorem length_copyWithin {bytes : Bytes} {source size destination : Nat}
    (hsource : source + size ≤ bytes.length) (hdestination : destination + size ≤ bytes.length) :
    (copyWithin bytes source size destination).length = bytes.length := by
  rw [copyWithin, List.length_append, List.length_append, List.length_take, List.length_take,
    List.length_drop, List.length_drop]
  omega

theorem copy_eq {source size destination : Nat} (hsource : source + size ≤ heap.bytes.length)
    (hdestination : destination + size ≤ heap.bytes.length) (hheap : heap.bytes.length < 2 ^ 32) :
    copy destination source size heap
      = .ok ((), ⟨copyWithin heap.bytes source size destination⟩) := by
  unfold copy
  rw [add_of_lt (by omega), except_ok_bind, add_of_lt (by omega), except_ok_bind,
    if_neg (by omega)]
  rfl

/-- The memory with so many bytes cleared. -/
def cleared (bytes : Bytes) (address size : Nat) : Bytes :=
  bytes.take address ++ List.replicate size 0 ++ bytes.drop (address + size)

theorem clear_eq {size : Nat} (h : a + size ≤ heap.bytes.length) (hheap : heap.bytes.length < 2 ^ 32) :
    clear a size heap = .ok ((), ⟨cleared heap.bytes a size⟩) := by
  unfold clear
  rw [add_of_lt (by omega), except_ok_bind, if_neg (by omega)]
  rfl

theorem length_cleared {bytes : Bytes} {size : Nat} (h : a + size ≤ bytes.length) :
    (cleared bytes a size).length = bytes.length := by
  rw [cleared, List.length_append, List.length_append, List.length_take, List.length_replicate,
    List.length_drop]
  omega

theorem get_cleared {bytes : Bytes} {size : Nat} (h : a + size ≤ bytes.length) (x : Nat) :
    get (cleared bytes a size) x = if a ≤ x ∧ x < a + size then 0 else get bytes x := by
  have hleft : (bytes.take a).length = a := List.length_take_of_le (by omega)
  have hzeros : (bytes.take a ++ List.replicate size 0).length = a + size := by
    rw [List.length_append, hleft, List.length_replicate]
  unfold cleared ByteMemory.get
  by_cases hbefore : x < a
  · rw [if_neg (by omega), List.append_assoc, List.getElem?_append_left (by omega),
      List.getElem?_take_of_lt hbefore]
  · by_cases hafter : a + size ≤ x
    · rw [if_neg (by omega), List.getElem?_append_right (by omega), hzeros, List.getElem?_drop,
        Nat.add_sub_cancel' hafter]
    · rw [if_pos (by omega), List.getElem?_append_left (by omega),
        List.getElem?_append_right (by omega), List.getElem?_replicate, if_pos (by omega),
        Option.getD_some]

/-- A read that succeeds is out of the way. -/
theorem read_bind {α β : Type} {f : Heap → Except Error α} {g : α → HeapM β} {value : α}
    (h : f heap = .ok value) : (read f >>= g) heap = g value heap :=
  step_ok (by rw [read, h]; rfl)

end Heap

open Heap LinkedBlocks

/-! ### Nodes and blocks -/

theorem RarNode.next_eq (h : a + 4 ≤ heap.bytes.length) (hheap : heap.bytes.length < 2 ^ 32) :
    RarNode.next a heap = .ok (word 4 heap.bytes a) := u32_eq h hheap

theorem RarNode.setNext_eq (h : a + 4 ≤ heap.bytes.length) (hheap : heap.bytes.length < 2 ^ 32) :
    RarNode.setNext a value heap = .ok ((), ⟨putWord 4 heap.bytes a value⟩) := putU32_eq h hheap

namespace MemBlock

variable (h : a + 12 ≤ heap.bytes.length) (hheap : heap.bytes.length < 2 ^ 32)

include h hheap

theorem stamp_eq : stamp a heap = .ok (word 2 heap.bytes a) := u16_eq (by omega) hheap

theorem setStamp_eq (hvalue : value < 2 ^ 16) :
    setStamp a value heap = .ok ((), ⟨putWord 2 heap.bytes a value⟩) :=
  putU16_eq (by omega) hheap hvalue

theorem units_eq : units a heap = .ok (word 2 heap.bytes (a + 2)) := by
  rw [units, add_of_lt (by omega), except_ok_bind, u16_eq (by omega) hheap]

theorem setUnits_eq (hvalue : value < 2 ^ 16) :
    setUnits a value heap = .ok ((), ⟨putWord 2 heap.bytes (a + 2) value⟩) := by
  rw [setUnits, lift_ok (add_of_lt (by omega) _), putU16_eq (by omega) hheap hvalue]

theorem next_eq : next a heap = .ok (nextOf heap.bytes a) := by
  rw [next, add_of_lt (by omega), except_ok_bind, u32_eq (by omega) hheap]
  rfl

theorem setNext_eq :
    setNext a value heap = .ok ((), ⟨LinkedBlocks.setNext heap.bytes a value⟩) := by
  rw [setNext, lift_ok (add_of_lt (by omega) _), putU32_eq (by omega) hheap]
  rfl

theorem previous_eq : previous a heap = .ok (previousOf heap.bytes a) := by
  rw [previous, add_of_lt (by omega), except_ok_bind, u32_eq (by omega) hheap]
  rfl

theorem setPrevious_eq :
    setPrevious a value heap = .ok ((), ⟨LinkedBlocks.setPrevious heap.bytes a value⟩) := by
  rw [setPrevious, lift_ok (add_of_lt (by omega) _), putU32_eq (by omega) hheap]
  rfl

/-- A block is taken out of its ring. -/
theorem remove_eq (hprevious : previousOf heap.bytes a + 12 ≤ heap.bytes.length)
    (hnext : nextOf heap.bytes a + 12 ≤ heap.bytes.length) :
    remove a heap = .ok ((), ⟨unlink heap.bytes a⟩) := by
  unfold remove
  rw [read_bind (previous_eq h hheap), read_bind (next_eq h hheap),
    step_ok (setNext_eq hprevious hheap),
    setPrevious_eq (by rw [length_setNext]; exact hnext) (by rw [length_setNext]; exact hheap)]
  rfl

/-- A block is put behind another one. -/
theorem insertAt_eq (hb : b + 12 ≤ heap.bytes.length)
    (hnext : nextOf (linked heap.bytes a b) b + 12 ≤ heap.bytes.length) :
    insertAt b a heap = .ok ((), ⟨link heap.bytes a b⟩) := by
  unfold insertAt
  rw [step_ok (setPrevious_eq hb hheap), read_bind (next_eq (by rw [length_setPrevious]; exact h)
      (by rw [length_setPrevious]; exact hheap)),
    step_ok (setNext_eq (by rw [length_setPrevious]; exact hb)
      (by rw [length_setPrevious]; exact hheap)),
    step_ok (setNext_eq (by rw [length_setNext, length_setPrevious]; exact h)
      (by rw [length_setNext, length_setPrevious]; exact hheap))]
  show (read (next b) >>= fun next => setPrevious next b) ⟨linked heap.bytes a b⟩ = _
  have hlen : (linked heap.bytes a b).length = heap.bytes.length := length_linked
  rw [read_bind (next_eq (by rw [hlen]; exact hb) (by rw [hlen]; exact hheap)),
    setPrevious_eq (by rw [hlen]; exact hnext) (by rw [hlen]; exact hheap)]
  rfl

end MemBlock

end Ppmd

end Un7z
