/-
The two path validators agree, and what they accept stays below its base.

A character below 128 is one unit of its own value in UTF-8 and in UTF-16, and any other
character is made of units that are not below 128.  All that either validator asks of a
name are such values, so on the two encodings of one string they agree.

An accepted name has no parent component and no root.  Its components are the same or
longer when only one of the two slashes separates them, so this holds for a system that
knows only one of them as well: each component leads further down.
-/
import Un7z.Path
import Un7z.ParseUtil
import Un7z.Lib.CodeUnits

namespace Un7z

open CodeUnits

/-! ### The encodings of a string -/

/-- The units of a character in the two encodings. -/
abbrev SameText := Aligned UInt8.toNat UInt16.toNat 0x80

theorem utf8EncodeChar_of_wide {c : Char} (h : 0x80 ≤ c.toNat) :
    ∀ byte ∈ String.utf8EncodeChar c, 0x80 ≤ byte.toNat := by
  have hwide : ¬ c.val.toNat ≤ 0x7f := by
    have hval : 0x80 ≤ c.val.toNat := h
    omega
  intro byte hbyte
  unfold String.utf8EncodeChar at hbyte
  simp only [if_neg hwide] at hbyte
  split at hbyte
  · simp only [List.mem_cons, List.not_mem_nil, or_false] at hbyte
    rcases hbyte with rfl | rfl <;> rw [UInt8.toNat_ofNat'] <;> omega
  · split at hbyte
    · simp only [List.mem_cons, List.not_mem_nil, or_false] at hbyte
      rcases hbyte with rfl | rfl | rfl <;> rw [UInt8.toNat_ofNat'] <;> omega
    · simp only [List.mem_cons, List.not_mem_nil, or_false] at hbyte
      rcases hbyte with rfl | rfl | rfl | rfl <;> rw [UInt8.toNat_ofNat'] <;> omega

theorem encodeUtf16Char_of_wide {c : Char} (h : 0x80 ≤ c.toNat) :
    encodeUtf16Char c ≠ [] ∧ ∀ unit ∈ encodeUtf16Char c, 0x80 ≤ unit.toNat := by
  have hlt : c.toNat < 0x110000 := by
    have hvalid : c.toNat < 0xd800 ∨ 0xdfff < c.toNat ∧ c.toNat < 0x110000 := c.valid
    omega
  unfold encodeUtf16Char
  split
  · refine ⟨List.cons_ne_nil _ _, ?_⟩
    intro unit hunit
    rw [List.mem_singleton.mp hunit, UInt16.toNat_ofNat']
    omega
  · refine ⟨List.cons_ne_nil _ _, ?_⟩
    intro unit hunit
    simp only [List.mem_cons, List.not_mem_nil, or_false] at hunit
    rcases hunit with rfl | rfl <;> rw [UInt16.toNat_ofNat'] <;> omega

theorem sameText (text : List Char) :
    SameText (text.flatMap String.utf8EncodeChar) (text.flatMap encodeUtf16Char) := by
  induction text with
  | nil => exact .nil
  | cons c rest ih =>
      rw [List.flatMap_cons, List.flatMap_cons]
      by_cases hplain : c.toNat < 0x80
      · have hval : c.val.toNat ≤ 0x7f := Nat.le_of_lt_succ hplain
        have hbytes : String.utf8EncodeChar c = [UInt8.ofNat c.toNat] := if_pos hval
        have hunits : encodeUtf16Char c = [UInt16.ofNat c.toNat] := if_pos (by omega)
        rw [hbytes, hunits]
        refine .plain ?_ ?_ ih <;> rw [UInt8.toNat_ofNat']
        · rw [UInt16.toNat_ofNat']
          omega
        · omega
      · have hwide : 0x80 ≤ c.toNat := Nat.not_lt.mp hplain
        obtain ⟨hunits, hall⟩ := encodeUtf16Char_of_wide hwide
        exact .wide String.utf8EncodeChar_ne_nil hunits (utf8EncodeChar_of_wide hwide) hall ih

/-! ### Units of either kind -/

theorem isByteSeparator_iff (byte : UInt8) :
    isByteSeparator byte = true ↔ byte.toNat = 0x2f ∨ byte.toNat = 0x5c := by
  rw [isByteSeparator, Bool.or_eq_true, beq_iff_eq, beq_iff_eq, ← UInt8.toNat_inj,
    ← UInt8.toNat_inj]
  exact Iff.rfl

theorem isU16Separator_iff (unit : UInt16) :
    isU16Separator unit = true ↔ unit.toNat = 0x2f ∨ unit.toNat = 0x5c := by
  rw [isU16Separator, Bool.or_eq_true, beq_iff_eq, beq_iff_eq, ← UInt16.toNat_inj,
    ← UInt16.toNat_inj]
  exact Iff.rfl

theorem separator_eq {byte : UInt8} {unit : UInt16} (h : byte.toNat = unit.toNat) :
    isByteSeparator byte = isU16Separator unit := by
  rw [Bool.eq_iff_iff, isByteSeparator_iff, isU16Separator_iff, h]

theorem isAsciiAlphabetic_iff (byte : UInt8) : isAsciiAlphabetic byte = true ↔
    0x41 ≤ byte.toNat ∧ byte.toNat ≤ 0x5a ∨ 0x61 ≤ byte.toNat ∧ byte.toNat ≤ 0x7a := by
  simp only [isAsciiAlphabetic, Bool.or_eq_true, Bool.and_eq_true, decide_eq_true_eq,
    UInt8.le_iff_toNat_le]
  exact Iff.rfl

theorem isAsciiLetter_iff (unit : UInt16) : isAsciiLetter unit = true ↔
    0x61 ≤ unit.toNat ∧ unit.toNat ≤ 0x7a ∨ 0x41 ≤ unit.toNat ∧ unit.toNat ≤ 0x5a := by
  simp only [isAsciiLetter, Bool.or_eq_true, Bool.and_eq_true, decide_eq_true_eq,
    UInt16.le_iff_toNat_le]
  exact Iff.rfl

theorem letter_eq {byte : UInt8} {unit : UInt16} (h : byte.toNat = unit.toNat) :
    isAsciiAlphabetic byte = isAsciiLetter unit := by
  rw [Bool.eq_iff_iff, isAsciiAlphabetic_iff, isAsciiLetter_iff, h]
  exact or_comm

/-! ### Agreement -/

section agreement

variable {bytes : List UInt8} {units : List UInt16}

theorem nul_eq (h : SameText bytes units) : bytes.any (· == 0) = units.contains 0 := by
  have hzero := h.mem_iff (show 0 < 0x80 by decide)
  rw [Bool.eq_iff_iff, List.any_eq_true, List.contains_iff_mem]
  refine Iff.trans ?_ (hzero.trans ?_)
  · rw [List.mem_map]
    refine exists_congr fun byte => and_congr_right fun _ => ?_
    rw [beq_iff_eq, ← UInt8.toNat_inj]
    exact Iff.rfl
  · rw [List.mem_map]
    constructor
    · rintro ⟨unit, hunit, hvalue⟩
      rwa [← UInt16.toNat_inj.mp (hvalue.trans (show 0 = (0 : UInt16).toNat from rfl))]
    · exact fun hmem => ⟨0, hmem, rfl⟩

/-- What is asked of the unit behind the first one. -/
theorem second_eq (h : SameText bytes units) {byte : UInt8} {unit : UInt16}
    (hsame : byte.toNat = unit.toNat) (hlt : byte.toNat < 0x80) :
    (bytes.head? == some byte) = (units.head? == some unit) := by
  have hhead := h.head_iff hlt
  rw [Bool.eq_iff_iff, beq_iff_eq, beq_iff_eq]
  refine Iff.trans ?_ (hhead.trans ?_)
  · cases bytes <;> simp [UInt8.toNat_inj]
  · cases units <;> simp [hsame, UInt16.toNat_inj]

theorem any_head?_eq {γ : Type} [BEq γ] (xs : List γ) (a b : γ) :
    xs.head?.any (fun c => c == a || c == b) = (xs.head? == some a || xs.head? == some b) := by
  cases xs <;> rfl

theorem second_separator_eq (h : SameText bytes units) :
    bytes.head?.any isByteSeparator = units.head?.any isU16Separator := by
  have hslash : (bytes.head? == some 0x2f) = (units.head? == some 0x2f) :=
    second_eq h rfl (by decide)
  have hbackslash : (bytes.head? == some 0x5c) = (units.head? == some 0x5c) :=
    second_eq h rfl (by decide)
  exact (any_head?_eq bytes 0x2f 0x5c).trans
    ((congrArg₂ or hslash hbackslash).trans (any_head?_eq units 0x2f 0x5c).symm)

theorem parent_eq (h : SameText bytes units) :
    (bytes == [0x2e, 0x2e]) = (units == [0x2e, 0x2e]) := by
  have hword := @Aligned.map_eq_iff _ _ _ _ _ _ _ h [0x2e, 0x2e] (by decide)
  rw [Bool.eq_iff_iff, beq_iff_eq, beq_iff_eq]
  refine Iff.trans ?_ (hword.trans ?_)
  · exact (@List.map_inj_right _ _ bytes [0x2e, 0x2e] _ fun _ _ => UInt8.toNat_inj.mp).symm
  · exact @List.map_inj_right _ _ units [0x2e, 0x2e] _ fun _ _ => UInt16.toNat_inj.mp

/-- The components are the same, one by one. -/
theorem traversal_eq (h : SameText bytes units) :
    (bytes.splitOnP isByteSeparator).any (· == [0x2e, 0x2e])
      = (units.splitOnP isU16Separator).any (· == [0x2e, 0x2e]) := by
  have hsplit := h.splitOnP (p := isByteSeparator) (q := isU16Separator)
    (fun _ _ => separator_eq) ?_ ?_
  · generalize bytes.splitOnP isByteSeparator = left at hsplit
    generalize units.splitOnP isU16Separator = right at hsplit
    induction hsplit with
    | nil => rfl
    | cons hhead htail ih => rw [List.any_cons, List.any_cons, parent_eq hhead, ih]
  · intro byte hbyte
    rw [← Bool.not_eq_true, isByteSeparator_iff]
    omega
  · intro unit hunit
    rw [← Bool.not_eq_true, isU16Separator_iff]
    omega

end agreement

/-- On a string and on its UTF-16 encoding there is one result. -/
theorem validateSafePath_eq (path : String) :
    validateSafePath path = validateSafeUtf16Path (encodeUtf16 path) := by
  have h : SameText (utf8Bytes path) (encodeUtf16 path) := sameText path.toList
  unfold validateSafePath validateSafeUtf16Path
  generalize utf8Bytes path = bytes at h
  generalize encodeUtf16 path = units at h
  have hempty := h.isEmpty_eq
  rw [hempty, nul_eq h, traversal_eq h]
  cases bytes with
  | nil =>
      cases units with
      | nil => rfl
      | cons => exact absurd hempty Bool.noConfusion
  | cons byte rest =>
      cases units with
      | nil => exact absurd hempty Bool.noConfusion
      | cons unit more =>
          rcases h.cases_cons with ⟨hsame, -, hrest⟩ | ⟨hleft, hright⟩
          · have hdrive : (rest.head? == some 0x3a) = (more.head? == some 0x3a) :=
              second_eq hrest rfl (by decide)
            simp only [separator_eq hsame, letter_eq hsame, second_separator_eq hrest, hdrive]
          · have hbyte : isByteSeparator byte = false := by
              rw [← Bool.not_eq_true, isByteSeparator_iff]
              omega
            have hunit : isU16Separator unit = false := by
              rw [← Bool.not_eq_true, isU16Separator_iff]
              omega
            have hletter : isAsciiAlphabetic byte = false := by
              rw [← Bool.not_eq_true, isAsciiAlphabetic_iff]
              omega
            have hletter' : isAsciiLetter unit = false := by
              rw [← Bool.not_eq_true, isAsciiLetter_iff]
              omega
            simp only [hbyte, hunit, hletter, hletter', Bool.false_and, Bool.false_eq_true,
              if_false]

/-! ### Confinement -/

/-- Which slashes a file system takes for separators, and what it takes for a root. -/
inductive PathConvention where
  | posix
  | windows
  deriving DecidableEq, Repr

namespace PathConvention

def isSeparator : PathConvention → UInt16 → Bool
  | posix, unit => unit == 0x2f
  | windows, unit => unit == 0x2f || unit == 0x5c

/-- A letter and a colon. -/
def hasDrive : List UInt16 → Bool
  | letter :: colon :: _ => isAsciiLetter letter && colon == 0x3a
  | _ => false

def isRooted (convention : PathConvention) (name : List UInt16) : Bool :=
  name.head?.any convention.isSeparator || (convention == windows && hasDrive name)

/-- A directory by the names on the way to it from the root. -/
abbrev Directory := List (List UInt16)

/-- Where a component leads from a directory. -/
def enter (directory : Directory) (component : List UInt16) : Directory :=
  if component = [] ∨ component = [0x2e] then directory
  else if component = [0x2e, 0x2e] then directory.dropLast
  else directory ++ [component]

/-- The directories on the way when a name is appended to a base, one component after another. -/
def directories (convention : PathConvention) (base : Directory) (name : List UInt16) :
    List Directory :=
  (name.splitOnP convention.isSeparator).scanl enter (if convention.isRooted name then [] else base)

theorem isSeparator_le (convention : PathConvention) (unit : UInt16)
    (h : convention.isSeparator unit = true) : isU16Separator unit = true := by
  cases convention with
  | posix => exact Bool.or_eq_true_iff.mpr (.inl h)
  | windows => exact h

theorem isPrefix_enter {base directory : Directory} {component : List UInt16}
    (h : base <+: directory) (hparent : component ≠ [0x2e, 0x2e]) :
    base <+: enter directory component := by
  unfold enter
  split
  · exact h
  · exact h.trans (List.prefix_append _ _)

/-- Components that are no parents never lead out of a base. -/
theorem isPrefix_of_mem_scanl {base : Directory} {components : List (List UInt16)}
    (hparent : ∀ component ∈ components, component ≠ [0x2e, 0x2e]) {start : Directory}
    (hstart : base <+: start) : ∀ directory ∈ components.scanl enter start, base <+: directory := by
  induction components generalizing start with
  | nil =>
      intro directory hdirectory
      rwa [List.scanl_nil, List.mem_singleton.mp hdirectory] at *
  | cons component rest ih =>
      intro directory hdirectory
      rw [List.scanl_cons] at hdirectory
      rcases List.mem_cons.mp hdirectory with rfl | hdirectory
      · exact hstart
      · exact ih (fun other hother => hparent other (List.mem_cons_of_mem _ hother))
          (isPrefix_enter hstart (hparent component List.mem_cons_self)) directory hdirectory

end PathConvention

open PathConvention (hasDrive)

/-- What acceptance says of a name. -/
theorem validateSafeUtf16Path_ok {name : List UInt16} (h : validateSafeUtf16Path name = .ok ()) :
    name.head?.any isU16Separator = false ∧ hasDrive name = false ∧
      ∀ component ∈ name.splitOnP isU16Separator, component ≠ [0x2e, 0x2e] := by
  unfold validateSafeUtf16Path at h
  cases name with
  | nil => exact absurd h (by decide)
  | cons first rest =>
      obtain ⟨-, h⟩ := ite_error_eq_ok.mp h
      obtain ⟨-, h⟩ := ite_error_eq_ok.mp h
      have hfirst : isU16Separator first = false := by
        by_contra hseparator
        rw [Bool.not_eq_false] at hseparator
        simp only [hseparator, if_true] at h
        split at h <;> exact absurd h (by simp)
      simp only [hfirst, Bool.false_eq_true, if_false] at h
      obtain ⟨hdrive, h⟩ := ite_error_eq_ok.mp h
      obtain ⟨hparent, -⟩ := ite_error_eq_ok.mp h
      refine ⟨hfirst, ?_, ?_⟩
      · cases rest with
        | nil => rfl
        | cons colon rest => exact Bool.eq_false_iff.mpr hdrive
      · rintro component hcomponent rfl
        exact hparent (List.any_eq_true.mpr ⟨_, hcomponent, rfl⟩)

/-- The two validators agree, and an accepted name stays below whatever it is appended to. -/
theorem validateSafePath_agrees_and_confines :
    (∀ path : String, validateSafePath path = validateSafeUtf16Path (encodeUtf16 path)) ∧
    ∀ name : List UInt16, validateSafeUtf16Path name = .ok () →
      (∀ component ∈ name.splitOnP isU16Separator, component ≠ [0x2e, 0x2e]) ∧
      name.head?.any isU16Separator = false ∧ hasDrive name = false ∧
      ∀ (convention : PathConvention) (base : PathConvention.Directory),
        ∀ directory ∈ convention.directories base name, base <+: directory := by
  refine ⟨validateSafePath_eq, fun name hname => ?_⟩
  obtain ⟨hseparator, hdrive, hparent⟩ := validateSafeUtf16Path_ok hname
  refine ⟨hparent, hseparator, hdrive, fun convention base => ?_⟩
  have hrooted : convention.isRooted name = false := by
    rw [PathConvention.isRooted, hdrive, Bool.and_false, Bool.or_false]
    cases hhead : name.head? with
    | none => rfl
    | some first =>
        rw [hhead] at hseparator
        exact Bool.eq_false_iff.mpr
          (mt (convention.isSeparator_le first) (Bool.eq_false_iff.mp hseparator))
  unfold PathConvention.directories
  rw [hrooted, if_neg Bool.false_ne_true]
  refine PathConvention.isPrefix_of_mem_scanl ?_ (List.prefix_refl base)
  rintro component hcomponent rfl
  have hdots : ∀ unit ∈ ([0x2e, 0x2e] : List UInt16), isU16Separator unit = false :=
    List.forall_mem_cons.mpr ⟨rfl, List.forall_mem_singleton.mpr rfl⟩
  exact hparent _ (mem_splitOnP_of_finer convention.isSeparator_le hcomponent hdots) rfl

/-- Two components, one of them an unpaired surrogate. -/
theorem validateSafeUtf16Path_surrogate :
    validateSafeUtf16Path [0x61, 0x2f, 0xd800] = .ok () ∧
      ∀ directory ∈ PathConvention.posix.directories [[0x62]] [0x61, 0x2f, 0xd800],
        [[0x62]] <+: directory :=
  ⟨by decide, (validateSafePath_agrees_and_confines.2 _ (by decide)).2.2.2 .posix _⟩

end Un7z
