/-
Filters that go over a slice in place.

A round of such a filter reads and writes at the offset where the done part ends, so what
it does is said of `done ++ (word ++ rest)`: the reads find the word, and the writes put
another in its place.  The filters that go from word to word all share one loop, and
`wordsFrom_eq` says what it makes of its input: `mapWords` of what its body makes of a
word.
-/
import Un7z.Proofs.FilterTotality

namespace Un7z

namespace Filters

/-! ### Words -/

theorem toNat_u32FromBe (a b c d : UInt8) : (u32FromBe [a, b, c, d]).toNat =
    a.toNat * 2 ^ 24 + b.toNat * 2 ^ 16 + c.toNat * 2 ^ 8 + d.toNat := by
  have ha := a.toNat_lt
  have hb := b.toNat_lt
  have hc := c.toNat_lt
  have hd := d.toNat_lt
  have hvalue : leValue [d, c, b, a] =
      a.toNat * 2 ^ 24 + b.toNat * 2 ^ 16 + c.toNat * 2 ^ 8 + d.toNat := by
    simp only [leValue]
    omega
  show (UInt32.ofNat (leValue [d, c, b, a])).toNat = _
  rw [hvalue, UInt32.toNat_ofNat_of_lt' (by simp only [UInt32.size]; omega)]

theorem toNat_byte (word : UInt32) (shift : UInt32) (hshift : shift.toNat < 32) :
    (word >>> shift).toUInt8.toNat = word.toNat / 2 ^ shift.toNat % 256 := by
  rw [UInt32.toNat_toUInt8, UInt32.toNat_shiftRight, Nat.shiftRight_eq_div_pow,
    Nat.mod_eq_of_lt hshift]

/-- The four bytes of a word, first the high one. -/
theorem u32ToBe_eq (word : UInt32) :
    u32ToBe word =
      [(word >>> 24).toUInt8, (word >>> 16).toUInt8, (word >>> 8).toUInt8, word.toUInt8] := rfl

theorem u32FromBe_toBe (word : UInt32) : u32FromBe (u32ToBe word) = word := by
  have hlt := word.toNat_lt
  rw [u32ToBe_eq]
  refine UInt32.toNat_inj.mp ?_
  rw [toNat_u32FromBe, toNat_byte word 24 (by decide), toNat_byte word 16 (by decide),
    toNat_byte word 8 (by decide), UInt32.toNat_toUInt8]
  show word.toNat / 2 ^ 24 % 256 * 2 ^ 24 + word.toNat / 2 ^ 16 % 256 * 2 ^ 16 +
    word.toNat / 2 ^ 8 % 256 * 2 ^ 8 + word.toNat % 256 = word.toNat
  omega

theorem u32ToBe_fromBe (a b c d : UInt8) : u32ToBe (u32FromBe [a, b, c, d]) = [a, b, c, d] := by
  have ha := a.toNat_lt
  have hb := b.toNat_lt
  have hc := c.toNat_lt
  have hd := d.toNat_lt
  have hword := toNat_u32FromBe a b c d
  rw [u32ToBe_eq]
  congr 1
  · refine UInt8.toNat_inj.mp ?_
    rw [toNat_byte _ 24 (by decide), hword]
    show (a.toNat * 2 ^ 24 + b.toNat * 2 ^ 16 + c.toNat * 2 ^ 8 + d.toNat) / 2 ^ 24 % 256 = a.toNat
    omega
  congr 1
  · refine UInt8.toNat_inj.mp ?_
    rw [toNat_byte _ 16 (by decide), hword]
    show (a.toNat * 2 ^ 24 + b.toNat * 2 ^ 16 + c.toNat * 2 ^ 8 + d.toNat) / 2 ^ 16 % 256 = b.toNat
    omega
  congr 1
  · refine UInt8.toNat_inj.mp ?_
    rw [toNat_byte _ 8 (by decide), hword]
    show (a.toNat * 2 ^ 24 + b.toNat * 2 ^ 16 + c.toNat * 2 ^ 8 + d.toNat) / 2 ^ 8 % 256 = c.toNat
    omega
  congr 1
  refine UInt8.toNat_inj.mp ?_
  rw [UInt32.toNat_toUInt8, hword]
  omega

/-! ### What is in front -/

section front

variable {done word rest : Bytes}

theorem addOffset_ok {offset amount : Nat} (h : offset + amount < 2 ^ 64) (detail : String) :
    (addOffset offset amount detail).result = .ok (offset + amount) :=
  orFormat_eq_ok.mpr (checkedAdd_of_lt h)

theorem byteAt_done {index : Nat} {byte : UInt8} (h : rest[index]? = some byte) (detail : String) :
    (byteAt (done ++ rest) (done.length + index) detail).result = .ok byte := by
  refine orFormat_eq_ok.mpr ?_
  rwa [List.getElem?_append_right (Nat.le_add_right _ _), Nat.add_sub_cancel_left]

theorem readSlice_done {o t : String} {length : Nat} (hword : word.length = length)
    (h : done.length + length < 2 ^ 64) :
    (readSlice o t length (done ++ (word ++ rest)) done.length).result = .ok word := by
  subst hword
  refine Metered.bind_eq_ok.mpr ⟨done.length + word.length, orFormat_eq_ok.mpr (checkedAdd_of_lt h), ?_⟩
  rw [if_pos (by rw [List.length_append, List.length_append]; omega), List.drop_left,
    List.take_left]
  rfl

theorem writeSlice_done {o t : String} {old : Bytes} (hword : word.length = old.length)
    (h : done.length + old.length < 2 ^ 64) :
    (writeSlice o t (done ++ (old ++ rest)) done.length word).result
      = .ok (done ++ (word ++ rest)) := by
  refine Metered.bind_eq_ok.mpr ⟨done.length + old.length,
    orFormat_eq_ok.mpr (by rw [hword]; exact checkedAdd_of_lt h), ?_⟩
  rw [if_pos (by rw [List.length_append, List.length_append]; omega), List.take_left,
    ← List.append_assoc done old, List.drop_left' (by rw [List.length_append]), List.append_assoc]
  rfl

end front

/-! ### Whole inputs -/

/-- Word by word, under a pointer that goes with the offset. -/
def mapWords (f : UInt32 → UInt32 → UInt32) : UInt32 → Nat → Bytes → Bytes
  | ip, offset, a :: b :: c :: d :: rest =>
      if offset + 4 < 2 ^ 64 then
        u32ToBe (f ip (u32FromBe [a, b, c, d])) ++ mapWords f (ip + 4) (offset + 4) rest
      else
        a :: b :: c :: d :: rest
  | _, _, rest => rest

section mapWords

variable {f g : UInt32 → UInt32 → UInt32}

theorem mapWords_append (ip word : UInt32) (offset : Nat) (rest : Bytes) :
    mapWords f ip offset (u32ToBe word ++ rest) =
      if offset + 4 < 2 ^ 64 then
        u32ToBe (f ip word) ++ mapWords f (ip + 4) (offset + 4) rest
      else
        u32ToBe word ++ rest := by
  have hword := u32FromBe_toBe word
  rw [u32ToBe_eq] at hword
  rw [u32ToBe_eq word, List.cons_append, List.cons_append, List.cons_append, List.cons_append,
    mapWords, hword]
  rfl

theorem mapWords_short {ip : UInt32} {offset : Nat} {bytes : Bytes} (h : bytes.length < 4) :
    mapWords f ip offset bytes = bytes := by
  rcases bytes with _ | ⟨a, _ | ⟨b, _ | ⟨c, _ | ⟨d, rest⟩⟩⟩⟩
  · rfl
  · rfl
  · rfl
  · rfl
  · simp only [List.length_cons] at h
    omega

/-- Bytes are a word and bytes, or there are not four of them. -/
theorem word_cases (bytes : Bytes) :
    bytes.length < 4 ∨ ∃ word rest, bytes = u32ToBe word ++ rest := by
  rcases bytes with _ | ⟨a, _ | ⟨b, _ | ⟨c, _ | ⟨d, rest⟩⟩⟩⟩
  · exact .inl (by decide)
  · exact .inl (by simp)
  · exact .inl (by simp)
  · exact .inl (by simp)
  · exact .inr ⟨u32FromBe [a, b, c, d], rest, by rw [u32ToBe_fromBe]; rfl⟩

@[simp] theorem length_u32ToBe (word : UInt32) : (u32ToBe word).length = 4 := rfl

theorem length_mapWords (bytes : Bytes) :
    ∀ (ip : UInt32) (offset : Nat), (mapWords f ip offset bytes).length = bytes.length := by
  induction hn : bytes.length using Nat.strong_induction_on generalizing bytes with
  | _ n ih =>
      intro ip offset
      rcases word_cases bytes with hshort | ⟨word, rest, rfl⟩
      · rw [mapWords_short hshort, hn]
      · rw [List.length_append, length_u32ToBe] at hn
        rw [mapWords_append]
        split
        · rw [List.length_append, length_u32ToBe, ih rest.length (by omega) rest rfl]
          exact hn
        · rw [List.length_append, length_u32ToBe]
          exact hn

/-- Maps that undo one another on words do so on whole inputs, under the pointers they do it for. -/
theorem mapWords_inverse {P : UInt32 → Prop} (hstep : ∀ ip, P ip → P (ip + 4))
    (hinverse : ∀ ip word, P ip → f ip (g ip word) = word) (bytes : Bytes) :
    ∀ (ip : UInt32) (offset : Nat), P ip →
      mapWords f ip offset (mapWords g ip offset bytes) = bytes := by
  induction hn : bytes.length using Nat.strong_induction_on generalizing bytes with
  | _ n ih =>
      intro ip offset hip
      rcases word_cases bytes with hshort | ⟨word, rest, rfl⟩
      · rw [mapWords_short hshort, mapWords_short hshort]
      · rw [List.length_append, length_u32ToBe] at hn
        by_cases hoffset : offset + 4 < 2 ^ 64
        · rw [mapWords_append, if_pos hoffset, mapWords_append, if_pos hoffset, hinverse ip word hip,
            ih rest.length (by omega) rest rfl _ _ (hstep ip hip)]
        · rw [mapWords_append, if_neg hoffset, mapWords_append, if_neg hoffset]

end mapWords

/-! ### The loop of the source -/

/-- One round at the offset where the done part ends makes this of a word. -/
def RewritesWords (body : UInt32 → Nat → InPlace) (f : UInt32 → UInt32 → UInt32) : Prop :=
  ∀ (ip word : UInt32) (done rest : Bytes), done.length + 4 < 2 ^ 64 →
    (body ip done.length (done ++ (u32ToBe word ++ rest))).result
      = .ok (done ++ (u32ToBe (f ip word) ++ rest))

/-- The loop maps what is left of the input, word by word. -/
theorem wordsFrom_eq {body : UInt32 → Nat → InPlace} {f : UInt32 → UInt32 → UInt32}
    (hbody : RewritesWords body f) (overflows : String) (fuel : Nat) :
    ∀ (ip : UInt32) (done rest : Bytes), rest.length < fuel →
      (wordsFrom overflows body fuel ip done.length (done ++ rest)).result
        = .ok (done ++ mapWords f ip done.length rest) := by
  induction fuel with
  | zero => intro ip done rest hfuel; exact absurd hfuel (Nat.not_lt_zero _)
  | succ fuel ih =>
      intro ip done rest hfuel
      rw [wordsFrom]
      rcases word_cases rest with hshort | ⟨word, rest, rfl⟩
      · rw [if_neg ?_, mapWords_short hshort]
        · rfl
        · intro hany
          obtain ⟨stop, hstop, hle⟩ := Option.any_eq_true _ _ |>.mp hany
          obtain ⟨-, rfl⟩ := checkedAdd_eq_some.mp hstop
          rw [decide_eq_true_iff, List.length_append] at hle
          omega
      · by_cases hoffset : done.length + 4 < 2 ^ 64
        · have hguard : (checkedAdd 64 done.length 4).any
              (· ≤ (done ++ (u32ToBe word ++ rest)).length) = true := by
            rw [checkedAdd_of_lt hoffset, Option.any_some, decide_eq_true_iff, List.length_append,
              List.length_append, length_u32ToBe]
            omega
          have hnext : (addOffset done.length 4 overflows).result
              = .ok (done ++ u32ToBe (f ip word)).length :=
            orFormat_eq_ok.mpr (by rw [List.length_append, length_u32ToBe, checkedAdd_of_lt hoffset])
          rw [List.length_append, length_u32ToBe] at hfuel
          rw [if_pos hguard, mapWords_append, if_pos hoffset]
          refine Metered.bind_eq_ok.mpr ⟨(), rfl, Metered.bind_eq_ok.mpr
            ⟨_, hbody ip word done rest hoffset, Metered.bind_eq_ok.mpr ⟨_, hnext, ?_⟩⟩⟩
          rw [← List.append_assoc, ih _ _ _ (by omega), List.append_assoc, List.length_append,
            length_u32ToBe]
        · rw [if_neg ?_, mapWords_append, if_neg hoffset]
          · rfl
          · intro hany
            obtain ⟨stop, hstop, -⟩ := Option.any_eq_true _ _ |>.mp hany
            exact hoffset (checkedAdd_eq_some.mp hstop).1

/-- A whole input, from a start position on. -/
theorem wordsFrom_start {body : UInt32 → Nat → InPlace} {f : UInt32 → UInt32 → UInt32}
    (hbody : RewritesWords body f) (overflows : String) (ip : UInt32) (bytes : Bytes) :
    (wordsFrom overflows body (bytes.length + 1) ip 0 bytes).result
      = .ok (mapWords f ip 0 bytes) := by
  have h := wordsFrom_eq hbody overflows (bytes.length + 1) ip [] bytes (by omega)
  rwa [List.nil_append, List.nil_append] at h

end Filters

end Un7z
