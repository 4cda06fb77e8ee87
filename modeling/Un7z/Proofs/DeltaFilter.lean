/-
Delta is a recurrence over its own output.

The filter keeps its last 256 outputs in a ring that is written downwards, so the output of
some steps ago lies as many slots above the position, up to 256 steps: the slot that is read
for a distance of 256 is the one that is written next.  `Latest` says so; a step writes the
slot at the position and goes one down, and nothing depends on how often it went round.
-/
import Un7z.Proofs.FilterTotality

namespace Un7z

namespace Filters

/-- The ring holds the latest outputs, which are listed with the last one first. -/
structure Latest (history : Bytes) (position : UInt8) (done : Bytes) : Prop where
  length : history.length = 256
  slots : ∀ back, 0 < back → back ≤ 256 →
    history[(position.toNat + back) % 256]? = some (done.getD (back - 1) 0)

theorem latest_zeros : Latest (List.replicate 256 0) 0 [] := by
  refine ⟨List.length_replicate, fun back _ _ => ?_⟩
  rw [List.getElem?_replicate_of_lt (Nat.mod_lt _ (by decide)), List.getD_nil]

theorem toNat_pred (position : UInt8) : (position - 1).toNat = (position.toNat + 255) % 256 := by
  rw [UInt8.toNat_sub, Nat.add_comm]
  rfl

/-- A step of the ring. -/
theorem Latest.step {history done : Bytes} {position : UInt8} (h : Latest history position done)
    (byte : UInt8) : Latest (history.set position.toNat byte) (position - 1) (byte :: done) := by
  have hposition : position.toNat < 256 := position.toNat_lt
  have hlength := h.length
  refine ⟨by rw [List.length_set, hlength], fun back hpos hle => ?_⟩
  rw [toNat_pred]
  by_cases hlast : back = 1
  · -- The output of this step is where the position was.
    have hslot : ((position.toNat + 255) % 256 + back) % 256 = position.toNat := by omega
    rw [hslot, List.getElem?_set_self (by omega), hlast]
    rfl
  · have hslot : ((position.toNat + 255) % 256 + back) % 256 = (position.toNat + (back - 1)) % 256 := by
      omega
    have hother : position.toNat ≠ (position.toNat + (back - 1)) % 256 := by omega
    have hearlier : (byte :: done).getD (back - 1) 0 = done.getD (back - 1 - 1) 0 := by
      obtain ⟨n, hn⟩ : ∃ n, back - 1 = n + 1 := ⟨back - 2, by omega⟩
      rw [hn, List.getD_cons_succ, Nat.add_sub_cancel]
    rw [hslot, List.getElem?_set_ne hother, h.slots (back - 1) (by omega) (by omega), hearlier]

/-- The outputs from some step on, with those before it listed backwards. -/
def Recurs (distance : Nat) (done input output : Bytes) : Prop :=
  output.length = input.length ∧ ∀ i < input.length,
    output.getD i 0 = input.getD i 0 + ((output.take i).reverse ++ done).getD (distance - 1) 0

theorem recurs_cons {distance : Nat} {done input output : Bytes} {byte : UInt8}
    (h : Recurs distance ((byte + done.getD (distance - 1) 0) :: done) input output) :
    Recurs distance done (byte :: input) ((byte + done.getD (distance - 1) 0) :: output) := by
  obtain ⟨hlength, hrest⟩ := h
  refine ⟨by rw [List.length_cons, List.length_cons, hlength], fun i hi => ?_⟩
  cases i with
  | zero => rfl
  | succ i =>
      rw [List.length_cons] at hi
      rw [List.getD_cons_succ, List.getD_cons_succ, hrest i (by omega), List.take_succ_cons,
        List.reverse_cons, List.append_assoc]
      rfl

theorem deltaFrom_recurs {distance : Nat} (hpos : 0 < distance) (hle : distance ≤ 256)
    (input : Bytes) : ∀ (history done : Bytes) (position : UInt8), Latest history position done →
      Delivers (deltaFrom distance history position input) (Recurs distance done input) := by
  induction input with
  | nil =>
      intro history done position _
      exact delivers_pure ⟨rfl, fun i hi => absurd hi (Nat.not_lt_zero i)⟩
  | cons byte input ih =>
      intro history done position hlatest
      have hposition : position.toNat < 256 := position.toNat_lt
      have hmask : ∀ x : Nat, x &&& 255 = x % 256 := fun x => Nat.and_two_pow_sub_one_eq_mod x 8
      have hread : (byteAt history ((distance + position.toNat) &&& 255)
          "Delta history index is out of range").result = .ok (done.getD (distance - 1) 0) := by
        rw [hmask, Nat.add_comm, byteAt, hlatest.slots distance hpos hle]
        rfl
      have hsum : (orFormat (checkedAdd 64 distance position.toNat)
          "Delta history index overflows").result = .ok (distance + position.toNat) := by
        rw [checkedAdd_of_lt (by omega)]
        rfl
      have hslot : position.toNat &&& 255 = position.toNat := by
        rw [hmask, Nat.mod_eq_of_lt hposition]
      rw [deltaFrom, delivers_bind_iff (result_checkpoint 1), delivers_bind_iff hsum,
        delivers_bind_iff hread]
      dsimp only
      rw [if_pos (by rw [hslot, hlatest.length]; exact hposition), hslot]
      refine (ih _ _ _ (hlatest.step (byte + done.getD (distance - 1) 0))).bind fun rest hrest => ?_
      exact delivers_pure (recurs_cons hrest)

/-- The output so many steps ago, of those before this one. -/
theorem getD_reverse_take {output : Bytes} {i distance : Nat} (hpos : 0 < distance)
    (hi : i < output.length) : ((output.take i).reverse ++ []).getD (distance - 1) 0
      = if i < distance then 0 else output.getD (i - distance) 0 := by
  have hlength : (output.take i).length = i := List.length_take_of_le (Nat.le_of_lt hi)
  rw [List.append_nil, List.getD_eq_getElem?_getD]
  by_cases hbefore : i < distance
  · rw [if_pos hbefore, List.getElem?_eq_none (by rw [List.length_reverse, hlength]; omega)]
    rfl
  · rw [if_neg hbefore, List.getElem?_reverse (by rw [hlength]; omega), hlength,
      List.getElem?_take_of_lt (by omega), List.getD_eq_getElem?_getD]
    congr 2
    omega

/-- Delta adds to each byte the output of its distance ago, which is zero where there is none. -/
theorem decodeDelta_recurrence (distance : Nat) (hpos : 1 ≤ distance) (hle : distance ≤ 256)
    (input : Bytes) : ∃ output,
      (decodeDelta [UInt8.ofNat (distance - 1)] input).result = .ok output ∧
      output.length = input.length ∧
      ∀ i < input.length, output.getD i 0
        = input.getD i 0 + if i < distance then 0 else output.getD (i - distance) 0 := by
  have hproperty : (UInt8.ofNat (distance - 1)).toNat = distance - 1 := by
    rw [UInt8.toNat_ofNat']
    omega
  have hdistance : (orFormat (checkedAdd 64 (UInt8.ofNat (distance - 1)).toNat 1)
      "Delta distance overflows").result = .ok distance := by
    rw [hproperty, checkedAdd_of_lt (by omega), Nat.sub_add_cancel hpos]
    rfl
  have hdelta : Delivers (decodeDelta [UInt8.ofNat (distance - 1)] input)
      (Recurs distance [] input) :=
    (delivers_bind_iff hdistance).mpr (deltaFrom_recurs hpos hle input _ _ _ latest_zeros)
  obtain ⟨output, hrun, hlength, hrecurs⟩ := delivers_iff.mp hdelta
  refine ⟨output, hrun, hlength, fun i hi => ?_⟩
  rw [hrecurs i hi, getD_reverse_take hpos (by rw [hlength]; exact hi)]

/-- Through the whole ring, and once more. -/
theorem decodeDelta_recurrence_ring : ∃ output,
    (decodeDelta [UInt8.ofNat (256 - 1)] (List.replicate 257 1)).result = .ok output ∧
      output.length = (List.replicate 257 (1 : UInt8)).length ∧
      ∀ i < (List.replicate 257 (1 : UInt8)).length, output.getD i 0
        = (List.replicate 257 1).getD i 0 + if i < 256 then 0 else output.getD (i - 256) 0 :=
  decodeDelta_recurrence 256 (by decide) (by decide) (List.replicate 257 1)

end Filters

end Un7z
