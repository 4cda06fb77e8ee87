/-
What the PowerPC filter loses.

The filter goes from word to word.  A word is a branch by its six upper bits and its two
low bits, and of a branch the 26 bits below are shifted by the instruction pointer.  Under
a pointer that is a multiple of four the low bits stay what they are, so what was a branch
still is one, and shifting back finds it again: the filter has an inverse.  Under any
other pointer a branch turns into a word that is none, which the filter leaves alone when
it comes across it, and so that word has two sources.
-/
import Un7z.Proofs.WordFilters

namespace Un7z

namespace Filters

/-! ### Branches -/

/-- The word is a relative branch with link. -/
def IsBranch (word : UInt32) : Prop := word.toNat / 2 ^ 26 = 18 ∧ word.toNat % 4 = 1

instance (word : UInt32) : Decidable (IsBranch word) :=
  inferInstanceAs (Decidable (_ ∧ _))

/-- What the filter makes of a word. -/
def rewriteWord (instructionPointer word : UInt32) : UInt32 :=
  if IsBranch word then convertPpc instructionPointer word else word

/-- The test of the source on the first and the fourth byte. -/
theorem isBranch_iff (a b c d : UInt8) :
    a &&& 0xfc = 0x48 ∧ d &&& 3 = 1 ↔ IsBranch (u32FromBe [a, b, c, d]) := by
  have hb := b.toNat_lt
  have hc := c.toNat_lt
  have hd := d.toNat_lt
  have hfirst : a &&& 0xfc = 0x48 ↔ a.toNat / 4 = 18 := by
    have hall : ∀ n < 256, n &&& 0xfc = 0x48 ↔ n / 4 = 18 := by decide +kernel
    rw [← UInt8.toNat_inj, UInt8.toNat_and]
    exact hall a.toNat a.toNat_lt
  have hfourth : d &&& 3 = 1 ↔ d.toNat % 4 = 1 := by
    rw [← UInt8.toNat_inj, UInt8.toNat_and]
    show d.toNat &&& (2 ^ 2 - 1) = 1 ↔ _
    rw [Nat.and_two_pow_sub_one_eq_mod]
  rw [hfirst, hfourth, IsBranch, toNat_u32FromBe]
  omega

theorem toNat_convertPpc (ip word : UInt32) : (convertPpc ip word).toNat =
    18 * 2 ^ 26 + (2 ^ 32 - ip.toNat + word.toNat) % 2 ^ 26 := by
  have hlow : ((word - ip) &&& 0x03ffffff).toNat
      = (2 ^ 32 - ip.toNat + word.toNat) % 2 ^ 26 := by
    rw [UInt32.toNat_and, UInt32.toNat_sub]
    show _ &&& (2 ^ 26 - 1) = _
    rw [Nat.and_two_pow_sub_one_eq_mod]
    omega
  rw [convertPpc, UInt32.toNat_or, hlow, Nat.or_comm]
  show 18 <<< 26 ||| _ = _
  rw [← Nat.shiftLeft_add_eq_or_of_lt (Nat.mod_lt _ (by decide)), Nat.shiftLeft_eq]

/-- Under an aligned pointer a rewritten word is rewritten back under the negated one. -/
theorem rewriteWord_neg {ip : UInt32} (h : ip.toNat % 4 = 0) (word : UInt32) :
    rewriteWord ip (rewriteWord (-ip) word) = word := by
  unfold rewriteWord
  by_cases hbranch : IsBranch word
  · have hneg : (-ip).toNat = (2 ^ 32 - ip.toNat) % 2 ^ 32 := UInt32.toNat_neg ip
    have hconverted := toNat_convertPpc (-ip) word
    have hip := ip.toNat_lt
    obtain ⟨hopcode, hflags⟩ := id hbranch
    have hagain : IsBranch (convertPpc (-ip) word) := by
      unfold IsBranch
      omega
    rw [if_pos hbranch, if_pos hagain]
    refine UInt32.toNat_inj.mp ?_
    rw [toNat_convertPpc, hconverted]
    omega
  · rw [if_neg hbranch, if_neg hbranch]

/-! ### The loop of the source -/

/-- One round at the offset where the done part ends. -/
theorem rewritesWords_ppc : RewritesWords ppcWord rewriteWord := by
  intro ip word done rest hoffset
  obtain ⟨a, b, c, d, hbytes⟩ : ∃ a b c d, u32ToBe word = [a, b, c, d] := ⟨_, _, _, _, rfl⟩
  have hword : u32FromBe [a, b, c, d] = word := by rw [← hbytes, u32FromBe_toBe]
  have hfirst : (byteAt (done ++ (u32ToBe word ++ rest)) done.length
      "PPC opcode is truncated").result = .ok a := by
    have h : (u32ToBe word ++ rest)[0]? = some a := by rw [hbytes]; rfl
    exact byteAt_done h _
  have hfourth : (byteAt (done ++ (u32ToBe word ++ rest)) (done.length + 3)
      "PPC opcode is truncated").result = .ok d :=
    byteAt_done (by rw [hbytes]; rfl) _
  have hread : (readU32Be (done ++ (u32ToBe word ++ rest)) done.length).result = .ok word :=
    Metered.bind_eq_ok.mpr ⟨u32ToBe word, readSlice_done rfl hoffset, by rw [u32FromBe_toBe]; rfl⟩
  refine Metered.bind_eq_ok.mpr ⟨a, hfirst, Metered.bind_eq_ok.mpr
    ⟨_, addOffset_ok (by omega) _, Metered.bind_eq_ok.mpr ⟨d, hfourth, Metered.bind_eq_ok.mpr
      ⟨word, hread, ?_⟩⟩⟩⟩
  by_cases hbranch : IsBranch word
  · rw [if_pos ((isBranch_iff a b c d).mpr (by rw [hword]; exact hbranch)), rewriteWord,
      if_pos hbranch]
    exact writeSlice_done rfl hoffset
  · rw [if_neg fun h => hbranch (hword ▸ (isBranch_iff a b c d).mp h), rewriteWord, if_neg hbranch]
    rfl

/-- The filter maps its input word by word, from the start position on. -/
theorem decodePpc_eq {properties : Bytes} {start : UInt32}
    (hstart : (startingPosition properties).result = .ok start) (bytes : Bytes) :
    (decodePpc properties bytes).result = .ok (mapWords rewriteWord start 0 bytes) :=
  Metered.bind_eq_ok.mpr ⟨start, hstart, wordsFrom_start rewritesWords_ppc _ start bytes⟩

/-! ### What is lost -/

/-- A branch, and what it becomes. -/
theorem rewriteWord_collides {start : UInt32} (h : start.toNat % 4 ≠ 0) :
    ∃ word word' : UInt32, word ≠ word' ∧ rewriteWord start word = rewriteWord start word' := by
  refine ⟨0x48000001, convertPpc start 0x48000001, ?_⟩
  have hlt := start.toNat_lt
  have hconverted := toNat_convertPpc start 0x48000001
  rw [show (0x48000001 : UInt32).toNat = 1207959553 from rfl] at hconverted
  have hlost : ¬ IsBranch (convertPpc start 0x48000001) := by
    unfold IsBranch
    omega
  refine ⟨fun heq => hlost (heq ▸ by decide), ?_⟩
  rw [rewriteWord, if_pos (by decide), rewriteWord, if_neg hlost]

/-- A decoder that no two inputs of this length share an output of, and that has an encoder. -/
def Lossless (decode : InPlace) (n : Nat) : Prop :=
  (∀ a b : Bytes, a.length = n → b.length = n →
    (decode a).result = (decode b).result → a = b) ∧
  ∃ encode : Bytes → Bytes, ∀ bytes : Bytes, bytes.length = n →
    (encode bytes).length = n ∧ (decode (encode bytes)).result = .ok bytes

/--
**The PowerPC filter is lossless exactly under an aligned start position.**

Inputs without a whole word are returned as they are, whatever the start.
-/
theorem decodePpc_lossless_iff {properties : Bytes} {start : UInt32}
    (hstart : (startingPosition properties).result = .ok start) (n : Nat) :
    Lossless (decodePpc properties) n ↔ n < 4 ∨ start.toNat % 4 = 0 := by
  constructor
  · rintro ⟨hinjective, -⟩
    by_contra hnot
    obtain ⟨hlong, hmisaligned⟩ := not_or.mp hnot
    obtain ⟨word, word', hne, hsame⟩ := rewriteWord_collides hmisaligned
    have hlength (w : UInt32) : (u32ToBe w ++ List.replicate (n - 4) 0).length = n := by
      rw [List.length_append, length_u32ToBe, List.length_replicate]
      omega
    have heq := hinjective _ _ (hlength word) (hlength word') (by
      rw [decodePpc_eq hstart, decodePpc_eq hstart, mapWords_append, if_pos (by decide),
        mapWords_append, if_pos (by decide), hsame])
    have hbytes : u32ToBe word = u32ToBe word' := List.append_cancel_right heq
    exact hne (by rw [← u32FromBe_toBe word, hbytes, u32FromBe_toBe])
  · intro h
    rcases h with hshort | haligned
    · have hsame (bytes : Bytes) (hn : bytes.length = n) :
          (decodePpc properties bytes).result = .ok bytes := by
        rw [decodePpc_eq hstart, mapWords_short (hn ▸ hshort)]
      refine ⟨fun a b ha hb hab => ?_, id, fun bytes hn => ⟨hn, hsame bytes hn⟩⟩
      rw [hsame a ha, hsame b hb] at hab
      exact Except.ok.inj hab
    · -- the inverse of the filter goes over the words under the negated pointer
      have hneg (ip word : UInt32) (hip : ip.toNat % 4 = 0) :
          rewriteWord (-ip) (rewriteWord ip word) = word := by
        have hip' : (-ip).toNat % 4 = 0 := by
          rw [UInt32.toNat_neg]
          show (2 ^ 32 - ip.toNat) % 2 ^ 32 % 4 = 0
          omega
        have hback := rewriteWord_neg hip' word
        rwa [UInt32.neg_neg] at hback
      have hstep (ip : UInt32) (hip : ip.toNat % 4 = 0) : (ip + 4).toNat % 4 = 0 := by
        rw [UInt32.toNat_add, show (4 : UInt32).toNat = 4 from rfl]
        omega
      refine ⟨fun a b _ _ hab => ?_, mapWords (fun ip => rewriteWord (-ip)) start 0,
        fun bytes hn => ⟨?_, ?_⟩⟩
      · rw [decodePpc_eq hstart, decodePpc_eq hstart] at hab
        rw [← mapWords_inverse hstep hneg a start 0 haligned, Except.ok.inj hab,
          mapWords_inverse hstep hneg b start 0 haligned]
      · rw [length_mapWords, hn]
      · rw [decodePpc_eq hstart, mapWords_inverse hstep (fun ip word hip => rewriteWord_neg hip word)
          bytes start 0 haligned]

/-- A filter that starts at 16. -/
theorem decodePpc_lossless_sixteen : Lossless (decodePpc [16, 0, 0, 0]) 1000 :=
  have hstart : (startingPosition [16, 0, 0, 0]).result = .ok 16 := rfl
  (decodePpc_lossless_iff hstart 1000).mpr (.inr (by decide))

/-- Started at one, the filter makes the same of a branch and of what the branch becomes. -/
theorem decodePpc_loses :
    (startingPosition [1, 0, 0, 0]).result = .ok 1 ∧
      (decodePpc [1, 0, 0, 0] [0x48, 0, 0, 1]).result = .ok [0x48, 0, 0, 0] ∧
      (decodePpc [1, 0, 0, 0] [0x48, 0, 0, 0]).result = .ok [0x48, 0, 0, 0] ∧
      ¬ Lossless (decodePpc [1, 0, 0, 0]) 4 := by
  have hstart : (startingPosition [1, 0, 0, 0]).result = .ok 1 := rfl
  have hbranch : (decodePpc [1, 0, 0, 0] [0x48, 0, 0, 1]).result = .ok [0x48, 0, 0, 0] := by
    rw [decodePpc_eq hstart]
    decide
  have hother : (decodePpc [1, 0, 0, 0] [0x48, 0, 0, 0]).result = .ok [0x48, 0, 0, 0] := by
    rw [decodePpc_eq hstart]
    decide
  refine ⟨hstart, hbranch, hother, fun h => ?_⟩
  exact absurd (h.1 _ _ rfl rfl (hbranch.trans hother.symm)) (by decide)

end Filters

end Un7z
