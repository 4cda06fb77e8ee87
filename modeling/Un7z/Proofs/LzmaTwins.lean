/-
One decoder of LZMA, and the same one further on.

The position of a byte selects its probabilities, by its low bits, so a decoder with more
bytes behind it uses other probabilities for the same stream.  It uses them in the same
way: each probability has a `Twin`, and while twins are equal the two decoders read the same
bits.  New tables have equal twins, and a bit keeps them.

What the decoders see of the output has to agree as well.  `Output.Behind` is the output
with more bytes before it; there the byte that a match would have continued with is the
same one, once there has been a match (`LzmaState.Reaches`).  The byte before the first one
is not, and where it selects another context (`SameContext`) the decoders part.
-/
import Mathlib.Data.Nat.ModEq
import Un7z.Lib.Mirror
import Un7z.Proofs.LzmaStreams

namespace Un7z

namespace Lzma

open Metered (Mirrors)

/-! ### Probabilities by their names -/

namespace Tables

variable {tables : Tables} {slot other : Slot} {row : List Nat} {lc lp n : Nat}

/-- The probability of this name, if there is one. -/
def lookup (tables : Tables) (slot : Slot) : Option Nat :=
  (tables.row slot).bind fun row => row[slot.index]?

theorem row_array (tables : Tables) (slot : Slot) : tables.row slot.array = tables.row slot := by
  cases slot <;> rfl

/-- Writing a probability back changes that one only. -/
theorem lookup_setRow (hrow : tables.row slot = some row) (hindex : slot.index < row.length)
    (probability : Nat) (other : Slot) :
    (tables.setRow (row.set slot.index probability) slot).lookup other
      = if other = slot then some probability else tables.lookup other := by
  have hsome : (tables.row slot).isSome := by rw [hrow]; rfl
  unfold lookup
  obtain ⟨hsame, harray⟩ | ⟨hnew, harray⟩ :=
    row_setRow hsome (row.set slot.index probability) other
  · rw [hsame, if_neg fun h => harray (congrArg Slot.array h)]
  · have hold : tables.row other = some row := by
      rw [← row_array, harray, row_array, hrow]
    rw [hnew, hold, Option.bind_some, Option.bind_some]
    by_cases hplace : other.index = slot.index
    · rw [if_pos (Slot.eq_of_array harray hplace), hplace, List.getElem?_set_self hindex]
    · rw [if_neg fun h => hplace (congrArg Slot.index h),
        List.getElem?_set_ne fun h => hplace h.symm]

/-- A new probability is the middle one. -/
theorem lookup_new (h : slot.rowLength lc lp = some n) :
    (Tables.new lc lp).lookup slot = if slot.index < n then some probInitial else none := by
  have hshape := shape_new lc lp slot
  rw [h, Option.map_eq_some_iff] at hshape
  obtain ⟨row, hrow, rfl⟩ := hshape
  obtain ⟨count, rfl⟩ := row_new hrow
  rw [lookup, hrow, Option.bind_some, List.getElem?_replicate, List.length_replicate]

end Tables

/-! ### The same probability further on -/

/-- The position of a byte has no part in the name. -/
def Slot.Plain : Slot → Prop
  | .isMatch _ | .isRepZeroLong _ | .literal _ | .low _ _ _ | .middle _ _ _ => False
  | _ => True

/-- The names of one probability, in a decoder and in one that is `shift` bytes further on. -/
inductive Twin (lc lp pb shift : Nat) : Slot → Slot → Prop
  | plain {slot : Slot} : slot.Plain → Twin lc lp pb shift slot slot
  | isMatch {state : Nat} (position : Nat) : state < stateCount → Twin lc lp pb shift
      (.isMatch (state * 16 + position % 2 ^ pb))
      (.isMatch (state * 16 + (shift + position) % 2 ^ pb))
  | isRepZeroLong {state : Nat} (position : Nat) : state < stateCount → Twin lc lp pb shift
      (.isRepZeroLong (state * 16 + position % 2 ^ pb))
      (.isRepZeroLong (state * 16 + (shift + position) % 2 ^ pb))
  | low (kind : LengthKind) (position node : Nat) : Twin lc lp pb shift
      (.low kind (position % 2 ^ pb) node) (.low kind ((shift + position) % 2 ^ pb) node)
  | middle (kind : LengthKind) (position node : Nat) : Twin lc lp pb shift
      (.middle kind (position % 2 ^ pb) node) (.middle kind ((shift + position) % 2 ^ pb) node)
  | literal {previous symbol : Nat} (position : Nat) : previous < 2 ^ lc → symbol < 0x300 →
      Twin lc lp pb shift (.literal (literalContext lc lp position previous * 0x300 + symbol))
        (.literal (literalContext lc lp (shift + position) previous * 0x300 + symbol))

/-- What the widths of the properties are bounded by. -/
structure Widths (lc lp pb : Nat) : Prop where
  literal : lc + lp ≤ 4
  position : pb ≤ 4

section twins

variable {lc lp pb shift : Nat} {slot slot' other other' : Slot}

theorem shift_mod_iff {n p q : Nat} : (shift + p) % n = (shift + q) % n ↔ p % n = q % n :=
  ⟨fun h => Nat.ModEq.add_left_cancel' shift h, fun h => Nat.ModEq.add_left shift h⟩

theorem Widths.position_lt (h : Widths lc lp pb) (p : Nat) : p % 2 ^ pb < 16 := by
  have hpow : 2 ^ pb ≤ 2 ^ 4 := Nat.pow_le_pow_right Nat.two_pos h.position
  exact Nat.lt_of_lt_of_le (Nat.mod_lt _ (Nat.two_pow_pos pb)) hpow

/-- The digits of a number are its own. -/
theorem digits_eq_iff {base a r b s : Nat} (hr : r < base) (hs : s < base) :
    a * base + r = b * base + s ↔ a = b ∧ r = s := by
  refine ⟨fun h => ?_, fun ⟨hab, hrs⟩ => by rw [hab, hrs]⟩
  have hbase : 0 < base := Nat.lt_of_le_of_lt (Nat.zero_le r) hr
  have hdiv := congrArg (· / base) h
  have hmod := congrArg (· % base) h
  simp only [Nat.mul_comm _ base, Nat.mul_add_div hbase, Nat.div_eq_of_lt hr, Nat.div_eq_of_lt hs,
    Nat.mul_add_mod, Nat.mod_eq_of_lt hr, Nat.mod_eq_of_lt hs, Nat.add_zero] at hdiv hmod
  exact ⟨hdiv, hmod⟩

theorem literalContext_eq_iff {p previous q previous' : Nat} (hprevious : previous < 2 ^ lc)
    (hprevious' : previous' < 2 ^ lc) :
    literalContext lc lp p previous = literalContext lc lp q previous' ↔
      p % 2 ^ lp = q % 2 ^ lp ∧ previous = previous' := digits_eq_iff hprevious hprevious'

/-- Each probability has one twin, and is the twin of one. -/
theorem Twin.eq_iff (hwidths : Widths lc lp pb) (h : Twin lc lp pb shift slot slot')
    (h' : Twin lc lp pb shift other other') : slot = other ↔ slot' = other' := by
  cases h with
  | plain hplain =>
      cases h' with
      | plain _ => exact Iff.rfl
      | isMatch _ _ | isRepZeroLong _ _ | low _ _ _ | middle _ _ _ | literal _ _ _ =>
          constructor <;> (rintro rfl; exact hplain.elim)
  | isMatch position _ =>
      cases h' with
      | plain hplain => constructor <;> (rintro rfl; exact hplain.elim)
      | isMatch position' _ =>
          rw [Slot.isMatch.injEq, Slot.isMatch.injEq,
            digits_eq_iff (hwidths.position_lt _) (hwidths.position_lt _),
            digits_eq_iff (hwidths.position_lt _) (hwidths.position_lt _), shift_mod_iff]
      | _ => exact ⟨nofun, nofun⟩
  | isRepZeroLong position _ =>
      cases h' with
      | plain hplain => constructor <;> (rintro rfl; exact hplain.elim)
      | isRepZeroLong position' _ =>
          rw [Slot.isRepZeroLong.injEq, Slot.isRepZeroLong.injEq,
            digits_eq_iff (hwidths.position_lt _) (hwidths.position_lt _),
            digits_eq_iff (hwidths.position_lt _) (hwidths.position_lt _), shift_mod_iff]
      | _ => exact ⟨nofun, nofun⟩
  | low kind position node =>
      cases h' with
      | plain hplain => constructor <;> (rintro rfl; exact hplain.elim)
      | low kind' position' node' =>
          rw [Slot.low.injEq, Slot.low.injEq, shift_mod_iff]
      | _ => exact ⟨nofun, nofun⟩
  | middle kind position node =>
      cases h' with
      | plain hplain => constructor <;> (rintro rfl; exact hplain.elim)
      | middle kind' position' node' =>
          rw [Slot.middle.injEq, Slot.middle.injEq, shift_mod_iff]
      | _ => exact ⟨nofun, nofun⟩
  | literal position hprevious hsymbol =>
      cases h' with
      | plain hplain => constructor <;> (rintro rfl; exact hplain.elim)
      | literal position' hprevious' hsymbol' =>
          rw [Slot.literal.injEq, Slot.literal.injEq,
            digits_eq_iff hsymbol hsymbol', literalContext_eq_iff hprevious hprevious',
            digits_eq_iff hsymbol hsymbol', literalContext_eq_iff hprevious hprevious',
            shift_mod_iff]
      | _ => exact ⟨nofun, nofun⟩

/-- Twins are equal at the start. -/
theorem Twin.lookup_new (hwidths : Widths lc lp pb) (h : Twin lc lp pb shift slot slot') :
    (Tables.new lc lp).lookup slot' = (Tables.new lc lp).lookup slot := by
  have hposition := hwidths.position_lt
  cases h with
  | plain _ => rfl
  | @isMatch state position hstate =>
      have hlt : ∀ p, state * 16 + p % 2 ^ pb < stateCount * positionStates := fun p => by
        have := hposition p
        rw [stateCount] at hstate
        show _ < 12 * 16
        omega
      rw [Tables.lookup_new (n := stateCount * positionStates) rfl,
        Tables.lookup_new (n := stateCount * positionStates) rfl]
      exact (if_pos (hlt _)).trans (if_pos (hlt _)).symm
  | @isRepZeroLong state position hstate =>
      have hlt : ∀ p, state * 16 + p % 2 ^ pb < stateCount * positionStates := fun p => by
        have := hposition p
        rw [stateCount] at hstate
        show _ < 12 * 16
        omega
      rw [Tables.lookup_new (n := stateCount * positionStates) rfl,
        Tables.lookup_new (n := stateCount * positionStates) rfl]
      exact (if_pos (hlt _)).trans (if_pos (hlt _)).symm
  | low kind position node =>
      have hrow : ∀ p, (Slot.low kind (p % 2 ^ pb) node).rowLength lc lp = some 8 :=
        fun p => if_pos (hposition p)
      rw [Tables.lookup_new (hrow _), Tables.lookup_new (hrow _)]
      rfl
  | middle kind position node =>
      have hrow : ∀ p, (Slot.middle kind (p % 2 ^ pb) node).rowLength lc lp = some 8 :=
        fun p => if_pos (hposition p)
      rw [Tables.lookup_new (hrow _), Tables.lookup_new (hrow _)]
      rfl
  | literal position hprevious hsymbol =>
      obtain ⟨n, hn, hlt⟩ := literal_inRange (literalContext_lt hprevious position) hsymbol
      obtain ⟨n', hn', hlt'⟩ :=
        literal_inRange (literalContext_lt hprevious (shift + position)) hsymbol
      rw [Tables.lookup_new hn, Tables.lookup_new hn']
      exact (if_pos hlt').trans (if_pos hlt).symm

end twins

/-! ### Decoders side by side -/

/-- Tables in which twins are equal. -/
def Tables.Beside (lc lp pb shift : Nat) (tables next : Tables) : Prop :=
  ∀ {slot slot'}, Twin lc lp pb shift slot slot' → next.lookup slot' = tables.lookup slot

/-- A decoder, and one that is further on with the same range stream. -/
structure Coder.Beside (lc lp pb shift : Nat) (coder next : Coder) : Prop where
  decoder_eq : next.decoder = coder.decoder
  tables : coder.tables.Beside lc lp pb shift next.tables

section decoders

variable {lc lp pb shift : Nat} {slot slot' : Slot} {α β : Type}

/-- One bit, under the twin of its name. -/
theorem mirrored_coded (hwidths : Widths lc lp pb) (h : Twin lc lp pb shift slot slot')
    (row index : String) :
    Mirrored (Coder.Beside lc lp pb shift) Eq (rangeSource.coded slot row index)
      (rangeSource.coded slot' row index) := by
  rintro coder next hbeside ⟨bit, coder'⟩ hrun
  obtain ⟨probabilities, hrow, hrun⟩ := Metered.bind_eq_ok.mp hrun
  obtain ⟨probability, hprobability, hrun⟩ := Metered.bind_eq_ok.mp hrun
  obtain ⟨⟨⟨bit', probability'⟩, decoder⟩, hdecode, hrun⟩ := Metered.bind_eq_ok.mp hrun
  obtain ⟨rfl, rfl⟩ := Prod.mk.inj (Except.ok.inj hrun)
  have hrow := orFormat_eq_ok.mp hrow
  have hprobability := orFormat_eq_ok.mp hprobability
  have hlookup : coder.tables.lookup slot = some probability := by
    rw [Tables.lookup, hrow]
    exact hprobability
  have htwin := (hbeside.tables h).trans hlookup
  obtain ⟨probabilities', hrow', hprobability'⟩ := Option.bind_eq_some_iff.mp htwin
  have hindex := (List.getElem?_eq_some_iff.mp hprobability).1
  have hindex' := (List.getElem?_eq_some_iff.mp hprobability').1
  refine ⟨(bit', ⟨decoder, next.tables.setRow
    (probabilities'.set slot'.index probability') slot'⟩), ?_, rfl, rfl, ?_⟩
  · refine Metered.bind_eq_ok.mpr ⟨probabilities', orFormat_eq_ok.mpr hrow', ?_⟩
    refine Metered.bind_eq_ok.mpr ⟨probability, orFormat_eq_ok.mpr hprobability', ?_⟩
    refine Metered.bind_eq_ok.mpr ⟨((bit', probability'), decoder), ?_, rfl⟩
    rw [hbeside.decoder_eq]
    exact hdecode
  · intro other other' hother
    show Tables.lookup (next.tables.setRow _ slot') other'
      = Tables.lookup (coder.tables.setRow _ slot) other
    rw [Tables.lookup_setRow hrow' hindex', Tables.lookup_setRow hrow hindex,
      hbeside.tables hother]
    simp only [hother.eq_iff hwidths h]

theorem mirrored_direct :
    Mirrored (Coder.Beside lc lp pb shift) Eq rangeSource.direct rangeSource.direct := by
  rintro coder next hbeside ⟨bit, coder'⟩ hrun
  obtain ⟨⟨bit', decoder⟩, hdecode, hrun⟩ := Metered.bind_eq_ok.mp hrun
  obtain ⟨rfl, rfl⟩ := Prod.mk.inj (Except.ok.inj hrun)
  refine ⟨(bit', ⟨decoder, next.tables⟩), ?_, rfl, rfl, hbeside.tables⟩
  refine Metered.bind_eq_ok.mpr ⟨(bit', decoder), ?_, rfl⟩
  rw [hbeside.decoder_eq]
  exact hdecode

/-- A value without the state is the same on both sides. -/
theorem mirrored_lift {R : Coder → Coder → Prop} (m : Work α) :
    Mirrored R Eq (liftM m : StateT Coder Work α) (liftM m) := Mirrored.lift (Mirrors.refl m)

theorem mirrored_walkTree {slots slots' : Nat → Slot} (hwidths : Widths lc lp pb)
    (hslots : ∀ node, Twin lc lp pb shift (slots node) (slots' node)) (row : String)
    (bits node : Nat) :
    Mirrored (Coder.Beside lc lp pb shift) Eq (walkTree rangeSource slots row bits node)
      (walkTree rangeSource slots' row bits node) := by
  induction bits generalizing node with
  | zero => exact Mirrored.pure rfl
  | succ bits ih =>
      refine (mirrored_coded hwidths (hslots node) _ _).bind_eq fun bit => ?_
      exact Mirrored.lift_next fun next _ => ih next

theorem mirrored_decodeTree {slots slots' : Nat → Slot} (hwidths : Widths lc lp pb)
    (hslots : ∀ node, Twin lc lp pb shift (slots node) (slots' node)) (bits : Nat) (row : String) :
    Mirrored (Coder.Beside lc lp pb shift) Eq (decodeTree rangeSource slots bits row)
      (decodeTree rangeSource slots' bits row) := by
  refine (mirrored_walkTree hwidths hslots row bits 1).bind_eq fun node => ?_
  refine Mirrored.lift_next fun base _ => ?_
  exact Mirrored.lift_next fun value _ => mirrored_lift _

theorem mirrored_walkReverse {slots : Nat → Slot} (hwidths : Widths lc lp pb)
    (hslots : ∀ node, (slots node).Plain) (row : String) (bits bitShift node value : Nat) :
    Mirrored (Coder.Beside lc lp pb shift) Eq
      (walkReverse rangeSource slots row bits bitShift node value)
      (walkReverse rangeSource slots row bits bitShift node value) := by
  induction bits generalizing bitShift node value with
  | zero => exact Mirrored.pure rfl
  | succ bits ih =>
      refine (mirrored_coded hwidths (.plain (hslots node)) _ _).bind_eq fun bit => ?_
      refine Mirrored.lift_next fun shifted _ => ?_
      exact Mirrored.lift_next fun next _ => ih _ _ _

/-- A length, by the position of the byte it is for. -/
theorem mirrored_decodeLength (hwidths : Widths lc lp pb) (kind : LengthKind) (position : Nat) :
    Mirrored (Coder.Beside lc lp pb shift) Eq
      (decodeLength rangeSource kind (position % 2 ^ pb))
      (decodeLength rangeSource kind ((shift + position) % 2 ^ pb)) := by
  have hchoice : ∀ index, Twin lc lp pb shift (.choice kind index) (.choice kind index) :=
    fun _ => .plain trivial
  refine (mirrored_coded hwidths (hchoice 0) _ _).bind_eq fun choice => ?_
  refine Mirrored.ite (fun _ => ?_) fun _ => ?_
  · exact mirrored_decodeTree hwidths (fun node => .low kind position node) _ _
  refine (mirrored_coded hwidths (hchoice 1) _ _).bind_eq fun choice => ?_
  refine Mirrored.ite (fun _ => ?_) fun _ => ?_
  · refine (mirrored_decodeTree hwidths (fun node => .middle kind position node) _ _).bind_eq ?_
    exact fun value => mirrored_lift _
  · refine (@mirrored_decodeTree lc lp pb shift (.high kind) (.high kind) hwidths
      (fun node => .plain trivial) _ _).bind_eq fun value => ?_
    exact mirrored_lift _

theorem mirrored_decodeDirect (bits direct : Nat) :
    Mirrored (Coder.Beside lc lp pb shift) Eq (decodeDirect rangeSource bits direct)
      (decodeDirect rangeSource bits direct) := by
  induction bits generalizing direct with
  | zero => exact Mirrored.pure rfl
  | succ bits ih =>
      refine mirrored_direct.bind_eq fun bit => ?_
      exact Mirrored.lift_next fun next _ => ih next

/-- The position has no part in a distance. -/
theorem mirrored_decodeDistance (hwidths : Widths lc lp pb) (length : Nat) :
    Mirrored (Coder.Beside lc lp pb shift) Eq (decodeDistance rangeSource length)
      (decodeDistance rangeSource length) := by
  have hslots : ∀ node, Twin lc lp pb shift
      (.positionSlot (min length (lengthStates - 1)) node)
      (.positionSlot (min length (lengthStates - 1)) node) := fun node => .plain trivial
  refine (mirrored_decodeTree hwidths hslots _ _).bind_eq fun slot => ?_
  refine Mirrored.ite (fun _ => Mirrored.pure rfl) fun _ => ?_
  refine Mirrored.lift_next fun bits _ => Mirrored.lift_next fun base _ => ?_
  refine Mirrored.ite (fun _ => ?_) fun _ => ?_
  · refine Mirrored.lift_next fun model _ => ?_
    refine (@mirrored_walkReverse lc lp pb shift (.positionModel model) hwidths
      (fun _ => trivial) _ _ _ _ _).bind_eq fun suffix => ?_
    exact mirrored_lift _
  · refine Mirrored.lift_next fun directBits _ => ?_
    refine (mirrored_decodeDirect _ _).bind_eq fun direct => ?_
    refine Mirrored.lift_next fun direct _ => ?_
    refine (@mirrored_walkReverse lc lp pb shift .alignment hwidths
      (fun _ => trivial) _ _ _ _ _).bind_eq fun alignment => ?_
    exact mirrored_lift _

/-! ### Literals -/

/-- The contexts of one literal in both decoders. -/
def ContextTwins (lc lp shift context context' : Nat) : Prop :=
  ∃ position previous, previous < 2 ^ lc ∧ context = literalContext lc lp position previous ∧
    context' = literalContext lc lp (shift + position) previous

theorem ContextTwins.twin {context context' symbol : Nat}
    (h : ContextTwins lc lp shift context context') (hsymbol : symbol < 0x300) :
    Twin lc lp pb shift (.literal (context * 0x300 + symbol))
      (.literal (context' * 0x300 + symbol)) := by
  obtain ⟨position, previous, hprevious, rfl, rfl⟩ := h
  exact .literal position hprevious hsymbol

/-- The probability of a literal is found where its place in the context is. -/
theorem ContextTwins.mirrored_index {context context' symbol : Nat} {detail : String}
    {f g : Nat → StateT Coder Work α} {R : α → α → Prop} {S : Coder → Coder → Prop}
    (h : ContextTwins lc lp shift context context') (hwidths : Widths lc lp pb)
    (hsymbol : symbol < 0x300)
    (hf : Mirrored S R (f (context * 0x300 + symbol)) (g (context' * 0x300 + symbol))) :
    Mirrored S R (liftM (orFormat (checkedAdd 64 (context * 0x300) symbol) detail) >>= f)
      (liftM (orFormat (checkedAdd 64 (context' * 0x300) symbol) detail) >>= g) := by
  obtain ⟨position, previous, hprevious, rfl, rfl⟩ := h
  have hlt := @literalContext_lt lc lp previous hprevious
  have hsmall : 2 ^ (lc + lp) ≤ 2 ^ 4 := Nat.pow_le_pow_right Nat.two_pos hwidths.literal
  have hadd : ∀ p, (orFormat (checkedAdd 64 (literalContext lc lp p previous * 0x300) symbol)
      detail).result = .ok (literalContext lc lp p previous * 0x300 + symbol) := fun p =>
    orFormat_eq_ok.mpr (checkedAdd_of_lt (by
      have := hlt p
      omega))
  have hlift := @Mirrored.lift ParseControl Charge Error Coder Coder _ _ Nat Nat S
    (fun a b => a = literalContext lc lp position previous * 0x300 + symbol ∧
      b = literalContext lc lp (shift + position) previous * 0x300 + symbol) _ _
    (Mirrors.of_ok (hadd position) (hadd (shift + position)) ⟨rfl, rfl⟩)
  refine hlift.bind ?_
  rintro _ _ ⟨rfl, rfl⟩
  exact hf

theorem mirrored_decodeMatched {context context' : Nat} (hwidths : Widths lc lp pb)
    (h : ContextTwins lc lp shift context context') (fuel matched : Nat) {symbol : Nat}
    (hsymbol : symbol < 0x100) :
    Mirrored (Coder.Beside lc lp pb shift) Eq
      (decodeMatched rangeSource (context * 0x300) fuel matched symbol)
      (decodeMatched rangeSource (context' * 0x300) fuel matched symbol) := by
  induction fuel generalizing matched symbol with
  | zero =>
      intro coder next _ out hrun
      cases hrun
  | succ fuel ih =>
      have hmatch : matched >>> 7 &&& 1 ≤ 1 := Nat.and_le_right
      refine Mirrored.lift_next fun index hindex => ?_
      rw [matchedIndex_eq hsymbol] at hindex
      obtain rfl := Option.some.inj (orFormat_eq_ok.mp hindex)
      refine h.mirrored_index hwidths (by omega) ?_
      refine (mirrored_coded hwidths (h.twin (by omega)) _ _).bind_eq fun bit => ?_
      refine Mirrored.lift_next fun next _ => ?_
      refine Mirrored.ite (fun _ => Mirrored.pure rfl) fun hgo => ?_
      exact ih _ (Nat.not_le.mp fun hend => hgo (Or.inr hend))

theorem mirrored_decodePlain {context context' : Nat} (hwidths : Widths lc lp pb)
    (h : ContextTwins lc lp shift context context') (fuel symbol : Nat) :
    Mirrored (Coder.Beside lc lp pb shift) Eq
      (decodePlain rangeSource (context * 0x300) fuel symbol)
      (decodePlain rangeSource (context' * 0x300) fuel symbol) := by
  induction fuel generalizing symbol with
  | zero =>
      intro coder next _ out hrun
      cases hrun
  | succ fuel ih =>
      refine Mirrored.ite (fun hsymbol => ?_) fun _ => Mirrored.pure rfl
      refine h.mirrored_index hwidths (by omega) ?_
      refine (mirrored_coded hwidths (h.twin (by omega)) _ _).bind_eq fun bit => ?_
      exact Mirrored.lift_next fun next _ => ih next

/-- A literal, where the bytes before select the same context, and the match byte is the same
if there is one. -/
theorem mirrored_decodeLiteral (hwidths : Widths lc lp pb) {state position : Nat}
    {matchByte matchByte' previous previous' : UInt8} (hmatch : 7 ≤ state → matchByte' = matchByte)
    (hprevious : previous'.toNat >>> (8 - lc) = previous.toNat >>> (8 - lc)) :
    Mirrored (Coder.Beside lc lp pb shift) Eq
      (decodeLiteral rangeSource lc lp state matchByte previous position)
      (decodeLiteral rangeSource lc lp state matchByte' previous' (shift + position)) := by
  have hlc : lc ≤ 8 := by
    have hsmall := hwidths.literal
    omega
  have hcontext : ContextTwins lc lp shift
      (literalContext lc lp position (previous.toNat >>> (8 - lc)))
      (literalContext lc lp (shift + position) (previous'.toNat >>> (8 - lc))) :=
    ⟨position, _, previousPart_lt hlc previous, rfl, by rw [hprevious]⟩
  have hbase := Mirrored.lift (R := Coder.Beside lc lp pb shift) (Mirrors.of_ok
    (result_literalBase hwidths.literal previous position)
    (result_literalBase hwidths.literal previous' (shift + position))
    (P := fun a b => ∃ context context', ContextTwins lc lp shift context context' ∧
      a = context * 0x300 ∧ b = context' * 0x300) ⟨_, _, hcontext, rfl, rfl⟩)
  refine hbase.bind ?_
  rintro _ _ ⟨context, context', htwins, rfl, rfl⟩
  refine Mirrored.bind_eq ?_ fun symbol => ?_
  · refine Mirrored.ite (fun hstate => ?_) fun _ => Mirrored.pure rfl
    rw [hmatch hstate]
    exact mirrored_decodeMatched hwidths htwins _ _ (by decide)
  refine (mirrored_decodePlain hwidths htwins _ _).bind_eq fun symbol => ?_
  refine Mirrored.lift_next fun value _ => ?_
  exact Mirrored.lift_next fun byte _ => Mirrored.pure rfl

end decoders

/-! ### Operations -/

/-- A state with the widths that the properties gave it. -/
structure LzmaState.Fits (lc lp pb : Nat) (state : LzmaState) : Prop where
  lc_eq : state.lc = lc
  lp_eq : state.lp = lp
  mask_eq : state.positionMask = 2 ^ pb - 1
  state_lt : state.state < stateCount

/-- What an operation leaves for the next one: after a match, its distance. -/
def Operation.Remembered (state next : LzmaState) : Operation → Prop
  | .literal _ => next = state.updateLiteral
  | .match distance length =>
      0 < length ∧ 0 < distance ∧ next.repetitions[0]? = some (distance - 1)
  | .end => True

/-- One operation and one state on both sides, as they follow `state`. -/
structure SameOperation (lc lp pb : Nat) (state : LzmaState) (a b : Operation × LzmaState) :
    Prop where
  eq : a = b
  fits : a.2.Fits lc lp pb
  remembered : a.1.Remembered state a.2

section operations

variable {lc lp pb shift : Nat} {state : LzmaState}

theorem LzmaState.repetition_eq_ok {index distance : Nat} :
    (state.repetition index).result = .ok distance ↔ state.repetitions[index]? = some distance :=
  orFormat_eq_ok

theorem LzmaState.Fits.setRepetition (h : state.Fits lc lp pb) (index distance : Nat) :
    (state.setRepetition index distance).Fits lc lp pb :=
  ⟨h.lc_eq, h.lp_eq, h.mask_eq, h.state_lt⟩

theorem LzmaState.Fits.updateLiteral (h : state.Fits lc lp pb) :
    state.updateLiteral.Fits lc lp pb := by
  have hlt : state.state < 12 := h.state_lt
  refine ⟨h.lc_eq, h.lp_eq, h.mask_eq, ?_⟩
  show (if state.state < 4 then 0 else if state.state < 10 then state.state - 3
    else state.state - 6) < 12
  split
  · decide
  · split <;> omega

/-- The other updates choose one of two states. -/
theorem LzmaState.Fits.choose (h : state.Fits lc lp pb) {low high : Nat} (hlow : low < stateCount)
    (hhigh : high < stateCount) :
    ({ state with state := if state.state < 7 then low else high } : LzmaState).Fits lc lp pb := by
  refine ⟨h.lc_eq, h.lp_eq, h.mask_eq, ?_⟩
  show (if state.state < 7 then low else high) < stateCount
  split
  · exact hlow
  · exact hhigh

theorem LzmaState.setRepetition_first {first : Nat} (h : state.repetitions[0]? = some first)
    (distance : Nat) : (state.setRepetition 0 distance).repetitions[0]? = some distance :=
  List.getElem?_set_self (List.getElem?_eq_some_iff.mp h).1

theorem LzmaState.setRepetition_later {first index : Nat} (h : state.repetitions[0]? = some first)
    (hindex : index ≠ 0) (distance : Nat) :
    (state.setRepetition index distance).repetitions[0]? = some first :=
  (List.getElem?_set_ne hindex).trans h

/-- A match at a distance that the state remembers. -/
theorem sameOperation_match {next : LzmaState} {offset distance length : Nat} {detail : String}
    (hfits : next.Fits lc lp pb) (hlength : 0 < length)
    (hfirst : next.repetitions[0]? = some offset)
    (hdistance : (orFormat (checkedAdd 32 offset 1) detail).result = .ok distance) :
    SameOperation lc lp pb state (.match distance length, next) (.match distance length, next) := by
  obtain ⟨-, rfl⟩ := checkedAdd_eq_some.mp (orFormat_eq_ok.mp hdistance)
  exact ⟨rfl, hfits, hlength, Nat.succ_pos _, hfirst⟩

theorem mirrored_decodeMatch (hwidths : Widths lc lp pb) (hstate : state.Fits lc lp pb)
    (position : Nat) :
    Mirrored (Coder.Beside lc lp pb shift) (SameOperation lc lp pb state)
      (decodeMatch rangeSource state (position % 2 ^ pb))
      (decodeMatch rangeSource state ((shift + position) % 2 ^ pb)) := by
  refine Mirrored.lift_next fun rep0 hrep0 => ?_
  refine Mirrored.lift_next fun rep1 _ => Mirrored.lift_next fun rep2 _ => ?_
  have hfirst := LzmaState.repetition_eq_ok.mp hrep0
  have hmoved := (((hstate.setRepetition 3 rep2).setRepetition 2 rep1).setRepetition 1 rep0).choose
    (show 7 < stateCount by decide) (show 10 < stateCount by decide)
  refine (mirrored_decodeLength hwidths _ _).bind_eq fun lengthOffset => ?_
  refine (mirrored_decodeDistance hwidths _).bind_eq fun distanceOffset => ?_
  have hnext : (((state.setRepetition 3 rep2).setRepetition 2 rep1).setRepetition 1 rep0
      ).repetitions[0]? = some rep0 :=
    LzmaState.setRepetition_later (LzmaState.setRepetition_later
      (LzmaState.setRepetition_later hfirst (by decide) _) (by decide) _) (by decide) _
  refine Mirrored.ite (fun _ => ?_) fun _ => ?_
  · exact Mirrored.pure ⟨rfl, hmoved.setRepetition 0 _, trivial⟩
  refine Mirrored.lift_next fun distance hdistance => Mirrored.lift_next fun length hlength => ?_
  obtain ⟨-, rfl⟩ := checkedAdd_eq_some.mp (orFormat_eq_ok.mp hlength)
  refine Mirrored.pure (sameOperation_match (hmoved.setRepetition 0 _) (Nat.succ_pos _) ?_ hdistance)
  exact List.getElem?_set_self (List.getElem?_eq_some_iff.mp hnext).1

/-- The repetition that was chosen, and a state with the first one where it was. -/
theorem mirrored_chooseRepetition (hwidths : Widths lc lp pb) (hstate : state.Fits lc lp pb)
    {first : Nat} (hfirst : state.repetitions[0]? = some first) :
    Mirrored (Coder.Beside lc lp pb shift)
      (fun a b => a = b ∧ a.2.Fits lc lp pb ∧ a.2.repetitions[0]? = some first)
      (chooseRepetition rangeSource state) (chooseRepetition rangeSource state) := by
  have hone : Twin lc lp pb shift (.isRepOne state.state) (.isRepOne state.state) := .plain trivial
  have htwo : Twin lc lp pb shift (.isRepTwo state.state) (.isRepTwo state.state) := .plain trivial
  refine (mirrored_coded hwidths hone _ _).bind_eq fun notOne => ?_
  refine Mirrored.ite (fun _ => ?_) fun _ => ?_
  · exact Mirrored.lift_next fun distance _ => Mirrored.pure ⟨rfl, hstate, hfirst⟩
  refine (mirrored_coded hwidths htwo _ _).bind_eq fun notTwo => ?_
  have hchoice : Mirrors
      (fun a b : Nat × LzmaState =>
        a = b ∧ a.2.Fits lc lp pb ∧ a.2.repetitions[0]? = some first)
      (if notTwo = 0 then do
        let distance ← state.repetition 2
        pure (distance, state)
      else do
        let distance ← state.repetition 3
        let rep2 ← state.repetition 2
        pure (distance, state.setRepetition 3 rep2) : Work (Nat × LzmaState))
      (if notTwo = 0 then do
        let distance ← state.repetition 2
        pure (distance, state)
      else do
        let distance ← state.repetition 3
        let rep2 ← state.repetition 2
        pure (distance, state.setRepetition 3 rep2) : Work (Nat × LzmaState)) := by
    refine Mirrors.ite Iff.rfl (fun _ => ?_) fun _ => ?_
    · exact Mirrors.next fun distance _ => Mirrors.pure ⟨rfl, hstate, hfirst⟩
    · refine Mirrors.next fun distance _ => Mirrors.next fun rep2 _ => Mirrors.pure ⟨rfl, ?_, ?_⟩
      · exact hstate.setRepetition 3 rep2
      · exact LzmaState.setRepetition_later hfirst (by decide) _
  refine (Mirrored.lift hchoice).bind ?_
  rintro ⟨distance, chosen⟩ _ ⟨rfl, hchosen, hsame⟩
  refine Mirrored.lift_next fun rep1 _ => Mirrored.pure ⟨rfl, ?_, ?_⟩
  · exact hchosen.setRepetition 2 rep1
  · exact LzmaState.setRepetition_later hsame (by decide) _

theorem mirrored_finishRepetition {next : LzmaState} (hwidths : Widths lc lp pb)
    (hstate : next.Fits lc lp pb) {distance : Nat}
    (hfirst : next.repetitions[0]? = some distance) (position : Nat) :
    Mirrored (Coder.Beside lc lp pb shift) (SameOperation lc lp pb state)
      (finishRepetition rangeSource next distance (position % 2 ^ pb))
      (finishRepetition rangeSource next distance ((shift + position) % 2 ^ pb)) := by
  refine (mirrored_decodeLength hwidths _ _).bind_eq fun lengthOffset => ?_
  refine Mirrored.lift_next fun last hlast => Mirrored.lift_next fun length hlength => ?_
  obtain ⟨-, rfl⟩ := checkedAdd_eq_some.mp (orFormat_eq_ok.mp hlength)
  have hmoved := hstate.choose (show 8 < stateCount by decide) (show 11 < stateCount by decide)
  exact Mirrored.pure (sameOperation_match hmoved (Nat.succ_pos _) hfirst hlast)

theorem mirrored_decodeRepetition (hwidths : Widths lc lp pb) (hstate : state.Fits lc lp pb)
    (position : Nat) :
    Mirrored (Coder.Beside lc lp pb shift) (SameOperation lc lp pb state)
      (decodeRepetition rangeSource state (state.state * 16 + position % 2 ^ pb)
        (position % 2 ^ pb))
      (decodeRepetition rangeSource state (state.state * 16 + (shift + position) % 2 ^ pb)
        ((shift + position) % 2 ^ pb)) := by
  refine Mirrored.lift_next fun distance hdistance => ?_
  have hfirst := LzmaState.repetition_eq_ok.mp hdistance
  have hzero : Twin lc lp pb shift (.isRepZero state.state) (.isRepZero state.state) :=
    .plain trivial
  refine (mirrored_coded hwidths hzero _ _).bind_eq fun notZero => ?_
  refine Mirrored.ite (fun _ => ?_) fun _ => ?_
  · refine (mirrored_coded hwidths (.isRepZeroLong position hstate.state_lt) _ _).bind_eq fun long => ?_
    refine Mirrored.ite (fun _ => ?_) fun _ => mirrored_finishRepetition hwidths hstate hfirst _
    refine Mirrored.lift_next fun last hlast => Mirrored.pure ?_
    have hmoved := hstate.choose (show 9 < stateCount by decide) (show 11 < stateCount by decide)
    exact sameOperation_match hmoved Nat.one_pos hfirst hlast
  · refine (mirrored_chooseRepetition hwidths hstate hfirst).bind ?_
    rintro ⟨chosen, next⟩ _ ⟨rfl, hnext, hsame⟩
    dsimp only at hnext hsame ⊢
    refine Mirrored.lift_next fun rep0 _ => ?_
    have hsecond : (next.setRepetition 1 rep0).repetitions[0]? = some distance :=
      LzmaState.setRepetition_later hsame (by decide) _
    exact mirrored_finishRepetition hwidths ((hnext.setRepetition 1 rep0).setRepetition 0 chosen)
      (LzmaState.setRepetition_first hsecond chosen) position

/-- An output, and one under the limit `maximum` that has more bytes before. -/
structure Output.Behind (earlier : Bytes) (maximum dictionary : Nat) (output next : Output) :
    Prop where
  bytes_eq : next.bytes = earlier ++ output.bytes
  maximum_eq : next.maximum = maximum
  size_eq : output.dictionarySize = dictionary
  dictionary_eq : next.dictionarySize = dictionary
  start_eq : next.dictionaryStart = earlier.length + output.dictionaryStart

theorem Output.Behind.position_eq {earlier : Bytes} {maximum dictionary : Nat} {output next : Output}
    (h : output.Behind earlier maximum dictionary next) : next.position = earlier.length + output.position := by
  rw [Output.position, h.bytes_eq, List.length_append]
  rfl

/-- A byte that is within the output is the same one. -/
theorem Output.Behind.matchByte_eq {earlier : Bytes} {maximum dictionary : Nat} {output next : Output}
    (h : output.Behind earlier maximum dictionary next) {offset : Nat} (hoffset : offset < output.bytes.length) :
    next.matchByte offset = output.matchByte offset := by
  have hlength : next.bytes.length = earlier.length + output.bytes.length := h.position_eq
  unfold Output.matchByte
  rw [hlength, checkedSub_of_le (by omega), checkedSub_of_le (by omega), Option.bind_some,
    Option.bind_some, h.bytes_eq, List.getElem?_append_right (by omega)]
  congr 2
  omega

/-- After a match, the output holds the byte that the match would have continued with. -/
def LzmaState.Reaches (state : LzmaState) (output : Output) : Prop :=
  7 ≤ state.state → ∀ distance, state.repetitions[0]? = some distance →
    distance < output.bytes.length

/-- The bytes before select the same contexts. -/
def SameContext (lc : Nat) (output next : Output) : Prop :=
  next.previousByte.toNat >>> (8 - lc) = output.previousByte.toNat >>> (8 - lc)

theorem mirrored_decodeOperation (hwidths : Widths lc lp pb) (hstate : state.Fits lc lp pb)
    {earlier : Bytes} {maximum dictionary : Nat} {output next : Output}
    (hbehind : output.Behind earlier maximum dictionary next) (hreaches : state.Reaches output)
    (hcontext : SameContext lc output next) :
    Mirrored (Coder.Beside lc lp pb earlier.length) (SameOperation lc lp pb state)
      (decodeOperation rangeSource state output) (decodeOperation rangeSource state next) := by
  have hmask : ∀ position, position &&& state.positionMask = position % 2 ^ pb := fun position => by
    rw [hstate.mask_eq, Nat.and_two_pow_sub_one_eq_mod]
  have hcombined : ∀ position, ((checkedMul 64 state.state positionStates).bind fun value =>
      checkedAdd 64 value (position % 2 ^ pb)) = some (state.state * 16 + position % 2 ^ pb) := by
    intro position
    have hposition := hwidths.position_lt position
    have hlt := hstate.state_lt
    rw [stateCount] at hlt
    rw [positionStates, maxPositionBits, checkedMul_of_lt (by omega), Option.bind_some]
    exact checkedAdd_of_lt (by omega)
  refine Mirrored.lift_next fun _ _ => ?_
  dsimp only
  rw [hmask, hmask, hcombined, hcombined, hbehind.position_eq]
  refine Mirrored.bind (P := fun a b => a = state.state * 16 + output.position % 2 ^ pb ∧
    b = state.state * 16 + (earlier.length + output.position) % 2 ^ pb) ?_ ?_
  · exact Mirrored.lift (Mirrors.of_ok rfl rfl ⟨rfl, rfl⟩)
  rintro _ _ ⟨rfl, rfl⟩
  refine (mirrored_coded hwidths (.isMatch _ hstate.state_lt) _ _).bind_eq fun isMatch => ?_
  refine Mirrored.ite (fun _ => ?_) fun _ => ?_
  · refine Mirrored.lift_next fun rep0 hrep0 => ?_
    have hfirst := LzmaState.repetition_eq_ok.mp hrep0
    rw [hstate.lc_eq, hstate.lp_eq]
    refine (mirrored_decodeLiteral hwidths (fun hmatched => ?_) hcontext).bind_eq ?_
    · exact hbehind.matchByte_eq (hreaches hmatched rep0 hfirst)
    · exact fun byte => Mirrored.pure ⟨rfl, hstate.updateLiteral, rfl⟩
  · have hrep : Twin lc lp pb earlier.length (.isRep state.state) (.isRep state.state) :=
      .plain trivial
    refine (mirrored_coded hwidths hrep _ _).bind_eq fun isRep => ?_
    refine Mirrored.ite (fun _ => ?_) fun _ => ?_
    · exact mirrored_decodeMatch hwidths hstate _
    · exact mirrored_decodeRepetition hwidths hstate _

end operations

end Lzma

end Un7z
