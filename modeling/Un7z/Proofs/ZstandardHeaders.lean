/-
The two readers of a Zstandard frame header.

The standalone stream parser reads the header field by field behind a cursor, the 7z
coder by offsets into its input.  Both are compared with the header itself: `HeaderAt`
says what stands at which offset.  They agree on every field and on every width.  What
separates them are the two bits and the identifier that only the coder refuses: a
dictionary it has no use for, and the descriptor bit that the format leaves unused.
-/
import Mathlib.Tactic.IntervalCases
import Un7z.Proofs.StreamReads
import Un7z.Zstandard

namespace Un7z

namespace Zstandard

open StreamCursor

/-! ### The widths of the fields -/

def singleSegment (descriptor : UInt8) : Bool := descriptor &&& 0x20 ≠ 0

/-- The width of the window descriptor. -/
def windowWidth (descriptor : UInt8) : Nat := if singleSegment descriptor then 0 else 1

def dictionaryWidth (descriptor : UInt8) : Nat :=
  match (descriptor &&& 0x03).toNat with
  | 0 => 0
  | 1 => 1
  | 2 => 2
  | _ => 4

def contentWidth (descriptor : UInt8) : Nat :=
  match (descriptor >>> 6).toNat with
  | 0 => if singleSegment descriptor then 1 else 0
  | 1 => 2
  | 2 => 4
  | _ => 8

/-- Every flag of the descriptor means a width. -/
theorem dictionaryLength_eq (descriptor : UInt8) :
    dictionaryLength descriptor = some (dictionaryWidth descriptor) := by
  have hle : (descriptor &&& 0x03).toNat ≤ 3 := by
    rw [UInt8.toNat_and]
    exact Nat.and_le_right
  unfold dictionaryLength dictionaryWidth
  generalize (descriptor &&& 0x03).toNat = flag at hle
  interval_cases flag <;> rfl

theorem contentLength_eq (descriptor : UInt8) :
    contentLength descriptor (singleSegment descriptor) = some (contentWidth descriptor) := by
  have hlt : (descriptor >>> 6).toNat < 4 := by
    have h := descriptor.toNat_lt
    rw [UInt8.toNat_shiftRight, Nat.shiftRight_eq_div_pow]
    show descriptor.toNat / 64 < 4
    omega
  unfold contentLength contentWidth
  generalize (descriptor >>> 6).toNat = flag at hlt
  interval_cases flag <;> cases singleSegment descriptor <;> rfl

theorem dictionaryWidth_le (descriptor : UInt8) : dictionaryWidth descriptor ≤ 8 := by
  unfold dictionaryWidth
  split <;> decide

theorem contentWidth_le (descriptor : UInt8) : contentWidth descriptor ≤ 8 := by
  unfold contentWidth
  split <;> (try split) <;> decide

theorem contentWidth_ne_zero {descriptor : UInt8} (h : singleSegment descriptor = true) :
    contentWidth descriptor ≠ 0 := by
  unfold contentWidth
  rw [h]
  split <;> decide

/-! ### The window -/

/-- Five bits of exponent and three of mantissa. -/
def windowValue (window : UInt8) : Nat :=
  2 ^ ((window >>> 3).toNat + 10) + 2 ^ ((window >>> 3).toNat + 10) / 8 * (window &&& 0x07).toNat

/-- No window descriptor is too large for a `u64`. -/
theorem windowSize_eq (window : UInt8) (e₁ e₂ e₃ : Work Nat) :
    windowSize window e₁ e₂ e₃ = pure (windowValue window) := by
  have hexponent : (window >>> 3).toNat < 32 := by
    have h := window.toNat_lt
    rw [UInt8.toNat_shiftRight, Nat.shiftRight_eq_div_pow]
    show window.toNat / 8 < 32
    omega
  have hmantissa : (window &&& 0x07).toNat ≤ 7 := by
    rw [UInt8.toNat_and]
    exact Nat.and_le_right
  have hbase : 2 ^ ((window >>> 3).toNat + 10) ≤ 2 ^ 41 :=
    Nat.pow_le_pow_right (by decide) (by omega)
  have hshift : checkedShl 64 1 ((window >>> 3).toNat + 10)
      = some (2 ^ ((window >>> 3).toNat + 10)) := by
    rw [checkedShl_of_lt (by omega), Nat.one_shiftLeft, Nat.mod_eq_of_lt (by omega)]
  have hunits : 2 ^ ((window >>> 3).toNat + 10) / 8 * (window &&& 0x07).toNat
      ≤ 2 ^ ((window >>> 3).toNat + 10) / 8 * 7 := Nat.mul_le_mul_left _ hmantissa
  have hexponentAdd : checkedAdd 32 (window >>> 3).toNat 10 = some ((window >>> 3).toNat + 10) :=
    checkedAdd_of_lt (by omega)
  simp only [windowSize, windowValue, hexponentAdd, hshift, checkedMul_of_lt
    (show 2 ^ ((window >>> 3).toNat + 10) / 8 * (window &&& 0x07).toNat < 2 ^ 64 by omega),
    checkedAdd_of_lt (show 2 ^ ((window >>> 3).toNat + 10)
      + 2 ^ ((window >>> 3).toNat + 10) / 8 * (window &&& 0x07).toNat < 2 ^ 64 by omega)]

/-! ### The header, by offsets -/

def slice (input : Bytes) (offset length : Nat) : Bytes := (input.drop offset).take length

def dictionaryOffset (offset : Nat) (descriptor : UInt8) : Nat :=
  offset + 1 + windowWidth descriptor

def contentOffset (offset : Nat) (descriptor : UInt8) : Nat :=
  dictionaryOffset offset descriptor + dictionaryWidth descriptor

def headerEnd (offset : Nat) (descriptor : UInt8) : Nat :=
  contentOffset offset descriptor + contentWidth descriptor

/-- The content size a field of this width holds. -/
def contentValue (input : Bytes) (offset : Nat) (descriptor : UInt8) : Nat :=
  leValue (slice input (contentOffset offset descriptor) (contentWidth descriptor))
    + if contentWidth descriptor = 2 then 256 else 0

/-- This header stands at this offset: each field is where the descriptor puts it. -/
structure HeaderAt (input : Bytes) (offset : Nat) (header : FrameHeader) : Prop where
  descriptor : input[offset]? = some header.descriptor
  reserved : header.descriptor &&& 0x08 = 0
  fits : headerEnd offset header.descriptor ≤ input.length
  addressable : headerEnd offset header.descriptor < 2 ^ 64
  dictionaryId : header.dictionaryId
    = leValue (slice input (dictionaryOffset offset header.descriptor)
        (dictionaryWidth header.descriptor))
  contentSize : header.contentSize
    = if contentWidth header.descriptor = 0 then none
      else some (contentValue input offset header.descriptor)
  /-- The window of a single segment is its content, that of another frame is declared. -/
  windowBytes : if singleSegment header.descriptor then
      header.windowBytes = contentValue input offset header.descriptor
    else ∃ window, input[offset + 1]? = some window ∧ header.windowBytes = windowValue window

theorem leValue_slice_lt (input : Bytes) (offset length : Nat) :
    leValue (slice input offset length) < 256 ^ length :=
  Nat.lt_of_lt_of_le (leValue_lt _)
    (Nat.pow_le_pow_right (by decide) (List.length_take_le _ _))

/-! ### The stream parser -/

variable {cursor next : StreamCursor}

theorem slice_eq_take {length k : Nat} {mid : StreamCursor} (h : cursor.Advanced mid k) :
    mid.ahead.take length = slice cursor.bytes (cursor.position + k) length := by
  rw [StreamCursor.ahead, h.1, h.2.2, slice]

/-- The bias of a two-byte content size does not leave a `u64`. -/
theorem checkedAdd_bias {descriptor : UInt8} (h : contentWidth descriptor = 2) (input : Bytes)
    (offset : Nat) :
    checkedAdd 64 (leValue (slice input (contentOffset offset descriptor)
        (contentWidth descriptor))) 256
      = some (contentValue input offset descriptor) := by
  have hlt := leValue_slice_lt input (contentOffset offset descriptor) (contentWidth descriptor)
  rw [h] at hlt
  rw [contentValue, if_pos h, checkedAdd_of_lt]
  rw [h]
  omega

theorem readContentSize_eq_ok {descriptor : UInt8} {offset : Nat} {contentSize : Option Nat}
    (hoffset : cursor.position = contentOffset offset descriptor) (hholds : cursor.Holds 0) :
    (readContentSize (contentWidth descriptor) cursor).result = .ok (contentSize, next) ↔
      cursor.Holds (contentWidth descriptor) ∧
        contentSize = (if contentWidth descriptor = 0 then none
          else some (contentValue cursor.bytes offset descriptor)) ∧
        cursor.Advanced next (contentWidth descriptor) := by
  unfold readContentSize
  by_cases hzero : contentWidth descriptor = 0
  · rw [if_pos hzero, if_pos hzero, hzero, Cursor.pure_eq_ok]
    constructor
    · rintro ⟨rfl, rfl⟩
      exact ⟨hholds, rfl, rfl, rfl, rfl⟩
    · rintro ⟨-, rfl, hadvanced⟩
      exact ⟨rfl, ext_of_advanced ⟨rfl, rfl, rfl⟩ hadvanced⟩
  · have htake : cursor.ahead.take (contentWidth descriptor)
        = slice cursor.bytes (contentOffset offset descriptor) (contentWidth descriptor) := by
      rw [StreamCursor.ahead, hoffset, slice]
    rw [if_neg hzero, if_neg hzero, Cursor.bind_eq_ok]
    by_cases htwo : contentWidth descriptor = 2
    · have hbias := checkedAdd_bias htwo cursor.bytes offset
      simp only [if_pos htwo, readLe_eq_ok (contentWidth_le descriptor), htake]
      constructor
      · rintro ⟨value, mid, ⟨hholds, rfl, hadvanced⟩, h⟩
        obtain ⟨biased, s, hadd, hpure⟩ := Cursor.bind_eq_ok.mp h
        obtain ⟨hbiased, rfl⟩ := Cursor.lift_eq_ok.mp hadd
        obtain ⟨rfl, rfl⟩ := Cursor.pure_eq_ok.mp hpure
        rw [orStreamFormat_eq_ok, hbias, Option.some.injEq] at hbiased
        exact ⟨hholds, congrArg some hbiased.symm, hadvanced⟩
      · rintro ⟨hholds, rfl, hadvanced⟩
        refine ⟨_, next, ⟨hholds, rfl, hadvanced⟩, Cursor.bind_eq_ok.mpr ?_⟩
        exact ⟨_, next, Cursor.lift_eq_ok.mpr ⟨orStreamFormat_eq_ok.mpr hbias, rfl⟩, rfl⟩
    · have hplain : contentValue cursor.bytes offset descriptor
          = leValue (slice cursor.bytes (contentOffset offset descriptor)
              (contentWidth descriptor)) := by
        rw [contentValue, if_neg htwo, Nat.add_zero]
      simp only [if_neg htwo, readLe_eq_ok (contentWidth_le descriptor), htake, hplain]
      constructor
      · rintro ⟨value, mid, ⟨hholds, rfl, hadvanced⟩, hpure⟩
        obtain ⟨rfl, rfl⟩ := Cursor.pure_eq_ok.mp hpure
        exact ⟨hholds, rfl, hadvanced⟩
      · rintro ⟨hholds, rfl, hadvanced⟩
        exact ⟨_, next, ⟨hholds, rfl, hadvanced⟩, rfl⟩

/-- The window of a frame, from the fields that were read. -/
theorem frameWindow_eq_ok {descriptor : UInt8} {input : Bytes} {offset windowBytes : Nat}
    (hwindow : singleSegment descriptor = false → offset + 1 < input.length) :
    (frameWindow (singleSegment descriptor)
        (if contentWidth descriptor = 0 then none else some (contentValue input offset descriptor))
        (if singleSegment descriptor then none else input[offset + 1]?)).result
        = .ok windowBytes ↔
      if singleSegment descriptor then windowBytes = contentValue input offset descriptor
      else ∃ window, input[offset + 1]? = some window ∧ windowBytes = windowValue window := by
  cases hsingle : singleSegment descriptor with
  | true =>
      rw [if_neg (contentWidth_ne_zero hsingle)]
      show (Except.ok _ : Except Error Nat) = .ok windowBytes ↔ windowBytes = _
      rw [Except.ok.injEq, eq_comm]
  | false =>
      obtain ⟨window, hget⟩ : ∃ window, input[offset + 1]? = some window :=
        ⟨_, List.getElem?_eq_getElem (hwindow hsingle)⟩
      rw [if_neg Bool.false_ne_true, if_neg Bool.false_ne_true, hget]
      show (windowSize window _ _ _).result = .ok windowBytes ↔ _
      rw [windowSize_eq]
      constructor
      · intro h
        exact ⟨window, rfl, (Except.ok.inj h).symm⟩
      · rintro ⟨window', hsame, rfl⟩
        rw [← Option.some.inj hsame]
        rfl

def headerWidth (descriptor : UInt8) : Nat :=
  1 + (windowWidth descriptor + (dictionaryWidth descriptor + contentWidth descriptor))

theorem headerEnd_eq (offset : Nat) (descriptor : UInt8) :
    headerEnd offset descriptor = offset + headerWidth descriptor := by
  simp only [headerEnd, contentOffset, dictionaryOffset, headerWidth]
  omega

/-- The window descriptor, where there is one, is the next byte. -/
theorem readWindowDescriptor_eq_ok {descriptor : UInt8} {window : Option UInt8}
    (hholds : cursor.Holds 0) :
    (readWindowDescriptor (singleSegment descriptor) cursor).result = .ok (window, next) ↔
      cursor.Holds (windowWidth descriptor) ∧
        window = (if singleSegment descriptor then none else cursor.bytes[cursor.position]?) ∧
        cursor.Advanced next (windowWidth descriptor) := by
  unfold readWindowDescriptor windowWidth
  by_cases h : singleSegment descriptor = true
  · rw [if_pos h, if_pos h, if_pos h, Cursor.pure_eq_ok]
    constructor
    · rintro ⟨rfl, rfl⟩
      exact ⟨hholds, rfl, rfl, rfl, rfl⟩
    · rintro ⟨-, rfl, hadvanced⟩
      exact ⟨rfl, ext_of_advanced ⟨rfl, rfl, rfl⟩ hadvanced⟩
  · rw [if_neg h, if_neg h, if_neg h, Cursor.bind_eq_ok]
    constructor
    · rintro ⟨byte, mid, hread, hpure⟩
      obtain ⟨rfl, rfl⟩ := Cursor.pure_eq_ok.mp hpure
      obtain ⟨hlt, hget, hadvanced⟩ := readU8_eq_ok.mp hread
      exact ⟨⟨hlt, (List.getElem?_eq_some_iff.mp hget).1⟩, hget.symm, hadvanced⟩
    · rintro ⟨hholds, rfl, hadvanced⟩
      have hlt : cursor.position < cursor.bytes.length := hholds.2
      have hget := List.getElem?_eq_getElem hlt
      exact ⟨_, next, readU8_eq_ok.mpr ⟨hholds.1, hget, hadvanced⟩, by rw [hget]; rfl⟩

/-- **The stream parser reads the header that stands in front of it.** -/
theorem parseFrameHeader_eq_ok {header : FrameHeader} :
    (parseFrameHeader cursor).result = .ok (header, next) ↔
      HeaderAt cursor.bytes cursor.position header ∧
        cursor.Advanced next (headerWidth header.descriptor) := by
  unfold parseFrameHeader
  rw [Cursor.bind_eq_ok]
  constructor
  · rintro ⟨descriptor, s₁, hdescriptor, h⟩
    obtain ⟨hlt, hget, h₁⟩ := readU8_eq_ok.mp hdescriptor
    have hholds₀ : s₁.Holds 0 :=
      (holds_add h₁).mpr ⟨hlt, (List.getElem?_eq_some_iff.mp hget).1⟩
    by_cases hreserved : descriptor &&& 0x08 ≠ 0
    · rw [if_pos hreserved] at h
      exact absurd (Cursor.lift_eq_ok.mp h).1 (by simp)
    rw [if_neg hreserved] at h
    obtain ⟨window, s₂, hwindow, hrest₁⟩ := Cursor.bind_eq_ok.mp h
    obtain ⟨hholds₁, rfl, h₂⟩ := (readWindowDescriptor_eq_ok hholds₀).mp hwindow
    obtain ⟨width, t, hlift, hrest₂⟩ := Cursor.bind_eq_ok.mp hrest₁
    obtain ⟨hwidth, rfl⟩ := Cursor.lift_eq_ok.mp hlift
    obtain rfl : dictionaryWidth descriptor = width :=
      Option.some.inj ((dictionaryLength_eq descriptor).symm.trans (orStreamFormat_eq_ok.mp hwidth))
    obtain ⟨dictionaryId, s₃, hdictionary, hrest₃⟩ := Cursor.bind_eq_ok.mp hrest₂
    obtain ⟨hholds₂, rfl, h₃⟩ := (readLe_eq_ok (dictionaryWidth_le _)).mp hdictionary
    obtain ⟨width', t', hlift', hrest₄⟩ := Cursor.bind_eq_ok.mp hrest₃
    obtain ⟨hwidth', rfl⟩ := Cursor.lift_eq_ok.mp hlift'
    obtain rfl : contentWidth descriptor = width' :=
      Option.some.inj ((contentLength_eq descriptor).symm.trans (orStreamFormat_eq_ok.mp hwidth'))
    obtain ⟨contentSize, s₄, hcontent, hrest₅⟩ := Cursor.bind_eq_ok.mp hrest₄
    have hposition : t'.position = contentOffset cursor.position descriptor := by
      rw [h₃.2.2, h₂.2.2, h₁.2.2]
      rfl
    have hholds₃ : t'.Holds 0 := (holds_add h₃).mpr hholds₂
    obtain ⟨hholds₄, rfl, h₄⟩ := (readContentSize_eq_ok hposition hholds₃).mp hcontent
    obtain ⟨windowBytes, t'', hlift'', hpure⟩ := Cursor.bind_eq_ok.mp hrest₅
    obtain ⟨hbytes, rfl⟩ := Cursor.lift_eq_ok.mp hlift''
    obtain ⟨rfl, rfl⟩ := Cursor.pure_eq_ok.mp hpure
    have hadvanced : cursor.Advanced t'' (headerWidth descriptor) :=
      h₁.trans (h₂.trans (h₃.trans h₄))
    have hholds : cursor.Holds (headerWidth descriptor) :=
      (holds_add h₁).mp ((holds_add h₂).mp ((holds_add h₃).mp hholds₄))
    have hbytes' : t'.bytes = cursor.bytes := h₃.1.trans (h₂.1.trans h₁.1)
    rw [hbytes'] at hbytes ⊢
    rw [h₁.1, h₁.2.2] at hbytes
    refine ⟨⟨hget, not_not.mp hreserved, ?_, ?_, ?_, rfl, ?_⟩, hadvanced⟩
    · rw [headerEnd_eq]
      exact hholds.2
    · rw [headerEnd_eq]
      exact hholds.1
    · rw [slice_eq_take (h₁.trans h₂), ← Nat.add_assoc]
      rfl
    · refine (frameWindow_eq_ok fun hsingle => ?_).mp hbytes
      have hwidth : windowWidth descriptor = 1 := by rw [windowWidth, hsingle]; rfl
      have hlt := hholds₁.2
      rw [hwidth, h₁.1, h₁.2.2] at hlt
      exact hlt
  · rintro ⟨hheader, hadvanced⟩
    have hend := hheader.fits
    have hlt := hheader.addressable
    rw [headerEnd_eq] at hend hlt
    have hholds : cursor.Holds (headerWidth header.descriptor) := ⟨hlt, hend⟩
    obtain ⟨s₁, h₁⟩ := exists_advanced (hholds.mono (m := 1) (Nat.le_add_right _ _))
    have hholds₁ := (holds_add h₁).mpr hholds
    obtain ⟨s₂, h₂⟩ := exists_advanced (hholds₁.mono (Nat.le_add_right _ _))
    have hholds₂ := (holds_add h₂).mpr hholds₁
    obtain ⟨s₃, h₃⟩ := exists_advanced (hholds₂.mono (Nat.le_add_right _ _))
    have hholds₃ := (holds_add h₃).mpr hholds₂
    have h₄ : s₃.Advanced next (contentWidth header.descriptor) :=
      h₃.rest (h₂.rest (h₁.rest hadvanced))
    have hposition : s₃.position = contentOffset cursor.position header.descriptor := by
      rw [h₃.2.2, h₂.2.2, h₁.2.2]
      rfl
    have hbytes : s₃.bytes = cursor.bytes := h₃.1.trans (h₂.1.trans h₁.1)
    refine ⟨_, s₁, readU8_eq_ok.mpr ⟨(hholds.mono (Nat.le_add_right _ _)).1, hheader.descriptor, h₁⟩,
      ?_⟩
    rw [if_neg (not_not.mpr hheader.reserved)]
    refine Cursor.bind_eq_ok.mpr ⟨_, s₂, (readWindowDescriptor_eq_ok
      (hholds₁.mono (Nat.zero_le _))).mpr ⟨hholds₁.mono (Nat.le_add_right _ _), rfl, h₂⟩, ?_⟩
    refine Cursor.bind_eq_ok.mpr ⟨_, s₂, Cursor.lift_eq_ok.mpr
      ⟨orStreamFormat_eq_ok.mpr (dictionaryLength_eq _), rfl⟩, ?_⟩
    refine Cursor.bind_eq_ok.mpr ⟨_, s₃, (readLe_eq_ok (dictionaryWidth_le _)).mpr
      ⟨hholds₂.mono (Nat.le_add_right _ _), rfl, h₃⟩, ?_⟩
    refine Cursor.bind_eq_ok.mpr ⟨_, s₃, Cursor.lift_eq_ok.mpr
      ⟨orStreamFormat_eq_ok.mpr (contentLength_eq _), rfl⟩, ?_⟩
    refine Cursor.bind_eq_ok.mpr ⟨_, next, (readContentSize_eq_ok hposition
      (hholds₃.mono (Nat.zero_le _))).mpr ⟨hholds₃, rfl, h₄⟩, ?_⟩
    refine Cursor.bind_eq_ok.mpr ⟨header.windowBytes, next, Cursor.lift_eq_ok.mpr ⟨?_, rfl⟩, ?_⟩
    · rw [hbytes, h₁.1, h₁.2.2]
      refine (frameWindow_eq_ok fun hsingle => ?_).mpr hheader.windowBytes
      have hwidth : windowWidth header.descriptor = 1 := by rw [windowWidth, hsingle]; rfl
      rw [headerWidth, hwidth] at hend
      omega
    · have hdictionary : header.dictionaryId
          = leValue (s₂.ahead.take (dictionaryWidth header.descriptor)) := by
        rw [slice_eq_take (h₁.trans h₂), ← Nat.add_assoc]
        exact hheader.dictionaryId
      rw [← hdictionary, hbytes, ← hheader.contentSize]
      rfl

/-! ### The coder -/

theorem readLittleEndian_eq_ok {input : Bytes} {offset length value : Nat} (h : length ≤ 8) :
    (readLittleEndian input offset length).result = .ok value ↔
      offset + length < 2 ^ 64 ∧ offset + length ≤ input.length ∧
        value = leValue (slice input offset length) := by
  unfold readLittleEndian
  simp only [Metered.bind_eq_ok, orFormat_eq_ok, checkedAdd_eq_some, if_pos h]
  constructor
  · rintro ⟨stop, ⟨hlt, rfl⟩, hread⟩
    by_cases hle : offset + length ≤ input.length
    · rw [if_pos hle] at hread
      exact ⟨hlt, hle, (Except.ok.inj hread).symm⟩
    · rw [if_neg hle] at hread
      exact absurd hread (by simp)
  · rintro ⟨hlt, hle, rfl⟩
    exact ⟨_, ⟨hlt, rfl⟩, by rw [if_pos hle]; rfl⟩

theorem readDescriptorWindow_eq_ok {input : Bytes} {descriptor : UInt8} {window : Option Nat}
    {offset : Nat} :
    (readDescriptorWindow input (singleSegment descriptor)).result = .ok (window, offset) ↔
      offset = dictionaryOffset 4 descriptor ∧
        if singleSegment descriptor then window = none
        else ∃ byte, input[5]? = some byte ∧ window = some (windowValue byte) := by
  unfold readDescriptorWindow dictionaryOffset windowWidth
  by_cases h : singleSegment descriptor = true
  · simp [h, eq_comm, and_comm]
  · simp only [if_neg h, Metered.bind_eq_ok, orFormat_eq_ok, windowSize_eq, Metered.result_pure,
      Except.ok.injEq, Prod.mk.injEq]
    constructor
    · rintro ⟨byte, hget, stop, hstop, value, rfl, rfl, rfl⟩
      exact ⟨(checkedAdd_eq_some.mp hstop).2, byte, hget, rfl⟩
    · rintro ⟨rfl, byte, hget, rfl⟩
      exact ⟨byte, hget, 6, rfl, _, rfl, rfl, rfl⟩

/-- The coder adds the bias the stream parser adds. -/
theorem biasedContentSize_eq_ok {descriptor : UInt8} {input : Bytes} {offset contentSize : Nat} :
    (biasedContentSize (contentWidth descriptor)
        (leValue (slice input (contentOffset offset descriptor) (contentWidth descriptor)))).result
        = .ok contentSize ↔
      contentSize = contentValue input offset descriptor := by
  unfold biasedContentSize
  by_cases h : contentWidth descriptor = 2
  · rw [if_pos h, orFormat_eq_ok, checkedAdd_bias h, Option.some.injEq, eq_comm]
  · rw [if_neg h, contentValue, if_neg h, Nat.add_zero, Metered.result_pure, Except.ok.injEq,
      eq_comm]

/-- The two bits of the descriptor that the coder refuses at once. -/
theorem and_flags_eq_zero (descriptor : UInt8) :
    descriptor &&& 0x18 = 0 ↔ descriptor &&& 0x08 = 0 ∧ descriptor &&& 0x10 = 0 := by
  have hsplit : descriptor &&& 0x18 = descriptor &&& 0x08 ||| descriptor &&& 0x10 := by
    rw [← UInt8.toBitVec_inj, UInt8.toBitVec_or, UInt8.toBitVec_and, UInt8.toBitVec_and,
      UInt8.toBitVec_and, ← BitVec.and_or_distrib_left]
    rfl
  rw [hsplit, UInt8.or_eq_zero_iff]

/-- The input starts with the magic of a Zstandard frame. -/
def StartsWithMagic (input : Bytes) : Prop :=
  4 ≤ input.length ∧ leValue (input.take 4) = zstandardMagic

/-- **The coder reads the header behind the magic, and refuses two more things of it.** -/
theorem zstdWindowBytes_eq_ok {input : Bytes} (hmagic : StartsWithMagic input)
    {expected : Option Nat} {window : Nat} :
    (zstdWindowBytes input expected).result = .ok window ↔
      ∃ header, HeaderAt input 4 header ∧ header.descriptor &&& 0x10 = 0 ∧
        header.dictionaryId = 0 ∧
        (∀ size, expected = some size → ∀ content, header.contentSize = some content →
          size = content) ∧
        window = header.windowBytes := by
  have hread : (readLittleEndian input 0 4).result = .ok zstandardMagic :=
    (readLittleEndian_eq_ok (by decide)).mpr ⟨by decide, by simpa using hmagic.1, hmagic.2.symm⟩
  have htry : (orFormat (tryFrom 32 zstandardMagic)
      "Zstandard magic is not representable as u32").result = .ok zstandardMagic := rfl
  unfold zstdWindowBytes
  rw [Metered.result_bind_ok hread, Metered.result_bind_ok htry, if_neg (not_not.mpr rfl),
    Metered.bind_eq_ok]
  constructor
  · rintro ⟨descriptor, hget, h⟩
    rw [orFormat_eq_ok] at hget
    by_cases hflags : descriptor &&& 0x18 ≠ 0
    · rw [if_pos hflags] at h
      exact absurd h (by simp)
    rw [if_neg hflags] at h
    obtain ⟨hreserved, hunused⟩ := (and_flags_eq_zero descriptor).mp (not_not.mp hflags)
    obtain ⟨⟨descriptorWindow, offset⟩, hread, h⟩ := Metered.bind_eq_ok.mp h
    obtain ⟨rfl, hwindow⟩ := readDescriptorWindow_eq_ok.mp hread
    simp only [Metered.bind_eq_ok, orFormat_eq_ok, dictionaryLength_eq, Option.some.injEq,
      exists_eq_left', readLittleEndian_eq_ok (dictionaryWidth_le descriptor), refuse_eq_ok,
      not_not, checkedAdd_eq_some] at h
    obtain ⟨dictionaryId, ⟨-, -, rfl⟩, hdictionary, offset, ⟨-, rfl⟩, width, hwidth, h⟩ := h
    obtain rfl : contentWidth descriptor = width :=
      Option.some.inj ((contentLength_eq descriptor).symm.trans hwidth)
    obtain ⟨value, hvalue, contentSize, hbiased, hwindowBytes⟩ := h
    obtain ⟨hlt, hle, rfl⟩ := (readLittleEndian_eq_ok (contentWidth_le descriptor)).mp hvalue
    obtain rfl := biasedContentSize_eq_ok.mp hbiased
    obtain ⟨hchecked, hpure⟩ := refuseFormat_eq_ok.mp hwindowBytes
    obtain rfl := Except.ok.inj hpure
    refine ⟨⟨descriptor, 0, if contentWidth descriptor = 0 then none
      else some (contentValue input 4 descriptor), _⟩, ⟨hget, hreserved, hle, hlt, hdictionary.symm, rfl, ?_⟩, hunused,
      rfl, ?_, rfl⟩
    · cases hsingle : singleSegment descriptor with
      | true =>
          rw [hsingle] at hwindow
          obtain rfl : descriptorWindow = none := hwindow
          rfl
      | false =>
          rw [hsingle] at hwindow
          obtain ⟨byte, hbyte, rfl⟩ := hwindow
          exact ⟨byte, hbyte, rfl⟩
    · rintro size rfl content hcontent
      obtain ⟨hwidth, hsome⟩ := Option.ite_none_left_eq_some.mp hcontent
      obtain rfl := Option.some.inj hsome
      by_contra hne
      exact hchecked ⟨hwidth, by simpa using hne⟩
  · rintro ⟨header, hheader, hunused, hdictionary, hexpected, rfl⟩
    have hflags : header.descriptor &&& 0x18 = 0 :=
      (and_flags_eq_zero _).mpr ⟨hheader.reserved, hunused⟩
    have hend := hheader.fits
    have hlt := hheader.addressable
    refine ⟨header.descriptor, orFormat_eq_ok.mpr hheader.descriptor, ?_⟩
    rw [if_neg (not_not.mpr hflags)]
    have hwindow : (readDescriptorWindow input (singleSegment header.descriptor)).result
        = .ok (if singleSegment header.descriptor then none else some header.windowBytes,
            dictionaryOffset 4 header.descriptor) := by
      refine readDescriptorWindow_eq_ok.mpr ⟨rfl, ?_⟩
      have hbytes := hheader.windowBytes
      cases hsingle : singleSegment header.descriptor with
      | true => rfl
      | false =>
          rw [hsingle] at hbytes
          obtain ⟨byte, hbyte, heq⟩ := hbytes
          exact ⟨byte, hbyte, congrArg some heq⟩
    have hid : (readLittleEndian input (dictionaryOffset 4 header.descriptor)
        (dictionaryWidth header.descriptor)).result = .ok 0 := by
      refine (readLittleEndian_eq_ok (dictionaryWidth_le _)).mpr ⟨?_, ?_, ?_⟩
      · unfold headerEnd contentOffset at hlt
        omega
      · unfold headerEnd contentOffset at hend
        omega
      · rw [← hdictionary]
        exact hheader.dictionaryId
    have hoffset : checkedAdd 64 (dictionaryOffset 4 header.descriptor)
        (dictionaryWidth header.descriptor) = some (contentOffset 4 header.descriptor) := by
      refine checkedAdd_of_lt ?_
      unfold headerEnd contentOffset at hlt
      omega
    have hchecked : ¬ (contentWidth header.descriptor ≠ 0 ∧
        expected.any (· ≠ contentValue input 4 header.descriptor) = true) := by
      rintro ⟨hwidth, hany⟩
      have hcontent := hheader.contentSize
      rw [if_neg hwidth] at hcontent
      cases expected with
      | none => exact absurd hany (by simp)
      | some size => exact absurd (hexpected size rfl _ hcontent) (by simpa using hany)
    refine Metered.bind_eq_ok.mpr ⟨_, hwindow, ?_⟩
    refine Metered.bind_eq_ok.mpr ⟨_, orFormat_eq_ok.mpr (dictionaryLength_eq _), ?_⟩
    refine Metered.bind_eq_ok.mpr ⟨0, hid, ?_⟩
    rw [if_neg (not_not.mpr rfl)]
    refine Metered.bind_eq_ok.mpr ⟨_, orFormat_eq_ok.mpr hoffset, ?_⟩
    refine Metered.bind_eq_ok.mpr ⟨_, orFormat_eq_ok.mpr (contentLength_eq _), ?_⟩
    refine Metered.bind_eq_ok.mpr
      ⟨_, (readLittleEndian_eq_ok (contentWidth_le _)).mpr ⟨hlt, hend, rfl⟩, ?_⟩
    refine Metered.bind_eq_ok.mpr ⟨_, biasedContentSize_eq_ok.mpr rfl, ?_⟩
    rw [if_neg hchecked]
    have hbytes := hheader.windowBytes
    cases hsingle : singleSegment header.descriptor with
    | true =>
        rw [hsingle] at hbytes
        exact congrArg _ hbytes.symm
    | false => rfl

/-! ### The two agree -/

/-- A single segment of 513 bytes without a dictionary. -/
def plainHeader : Bytes := [0x28, 0xb5, 0x2f, 0xfd, 0x60, 0x01, 0x01]

/-- A header with a window of 1024 bytes and the unused bit set. -/
def unusedBitHeader : Bytes := [0x28, 0xb5, 0x2f, 0xfd, 0x10, 0x00]

end Zstandard

end Un7z
