/-
LZMA from bytes to bytes.

The symbol layer inverts the coding of operations when its bits are handed to it by name, and
the range decoder finds the bits that a range encoder has written.  Here the two are put
together.  A decoder over the range decoder simulates the decoder over the oracle, as long as
the range decoder `Tracks` the bits: it stands in the interval of those that have come, and its
tables are the adapted probabilities.  For that every bit of the coding has to have its place in
the tables.  So what an encoder writes for its operations is decoded to its history, and where
the last bit has been read nothing is left of the input.
-/
import Un7z.Lib.Simulation
import Un7z.Proofs.LzmaStreams
import Un7z.Proofs.LzmaSymbols

namespace Un7z

namespace Lzma

open LzmaCoding
open RangeCoder

/-! ### Sources of the same bits -/

section sources

variable {σ τ : Type} {R : σ → τ → Prop} {a : Source σ} {b : Source τ}

/-- Every bit of the one source is one of the other. -/
structure Source.Matches (R : σ → τ → Prop) (a : Source σ) (b : Source τ) : Prop where
  coded : ∀ slot row index, Simulates R (a.coded slot row index) (b.coded slot row index)
  direct : Simulates R a.direct b.direct

variable (h : a.Matches R b)

include h

theorem simulates_walkTree (slots : Nat → Slot) (row : String) (bits : Nat) : ∀ node,
    Simulates R (walkTree a slots row bits node) (walkTree b slots row bits node) := by
  induction bits with
  | zero => exact fun node => Simulates.pure node
  | succ bits ih =>
      exact fun node => (h.coded _ _ _).bind fun bit => Simulates.lift_bind fun node => ih node

theorem simulates_decodeTree (slots : Nat → Slot) (bits : Nat) (row : String) :
    Simulates R (decodeTree a slots bits row) (decodeTree b slots bits row) :=
  (simulates_walkTree h slots row bits 1).bind fun _ =>
    Simulates.lift_bind fun _ => Simulates.lift_bind fun _ => Simulates.lift _

theorem simulates_walkReverse (slots : Nat → Slot) (row : String) (bits : Nat) : ∀ shift node value,
    Simulates R (walkReverse a slots row bits shift node value)
      (walkReverse b slots row bits shift node value) := by
  induction bits with
  | zero => exact fun _ _ value => Simulates.pure value
  | succ bits ih =>
      exact fun shift node value => (h.coded _ _ _).bind fun bit =>
        Simulates.lift_bind fun shifted => Simulates.lift_bind fun node => ih _ _ _

theorem simulates_decodeLength (kind : LengthKind) (positionState : Nat) :
    Simulates R (decodeLength a kind positionState) (decodeLength b kind positionState) := by
  refine (h.coded _ _ _).bind fun choice => Simulates.ite (simulates_decodeTree h _ _ _) ?_
  refine (h.coded _ _ _).bind fun choice => Simulates.ite ?_ ?_
  · exact (simulates_decodeTree h _ _ _).bind fun value => Simulates.lift _
  · exact (simulates_decodeTree h _ _ _).bind fun value => Simulates.lift _

theorem simulates_decodeDirect (bits : Nat) : ∀ direct,
    Simulates R (decodeDirect a bits direct) (decodeDirect b bits direct) := by
  induction bits with
  | zero => exact fun direct => Simulates.pure direct
  | succ bits ih =>
      exact fun direct => h.direct.bind fun bit => Simulates.lift_bind fun direct => ih direct

theorem simulates_decodeDistance (length : Nat) :
    Simulates R (decodeDistance a length) (decodeDistance b length) := by
  refine (simulates_decodeTree h _ _ _).bind fun positionSlot => Simulates.ite (Simulates.pure _) ?_
  refine Simulates.lift_bind fun bits => Simulates.lift_bind fun base => Simulates.ite ?_ ?_
  · refine Simulates.lift_bind fun model => ?_
    exact (simulates_walkReverse h _ _ _ _ _ _).bind fun suffix => Simulates.lift _
  · refine Simulates.lift_bind fun directBits => ?_
    refine (simulates_decodeDirect h _ _).bind fun direct => Simulates.lift_bind fun direct => ?_
    exact (simulates_walkReverse h _ _ _ _ _ _).bind fun alignment => Simulates.lift _

theorem simulates_decodeMatched (base fuel : Nat) : ∀ matched symbol,
    Simulates R (decodeMatched a base fuel matched symbol) (decodeMatched b base fuel matched symbol) := by
  induction fuel with
  | zero => exact fun _ _ => Simulates.lift _
  | succ fuel ih =>
      intro matched symbol
      refine Simulates.lift_bind fun index => Simulates.lift_bind fun index => ?_
      refine (h.coded _ _ _).bind fun bit => Simulates.lift_bind fun symbol => ?_
      exact Simulates.ite (Simulates.pure _) (ih _ _)

theorem simulates_decodePlain (base fuel : Nat) : ∀ symbol,
    Simulates R (decodePlain a base fuel symbol) (decodePlain b base fuel symbol) := by
  induction fuel with
  | zero => exact fun _ => Simulates.lift _
  | succ fuel ih =>
      intro symbol
      refine Simulates.ite ?_ (Simulates.pure _)
      refine Simulates.lift_bind fun index => (h.coded _ _ _).bind fun bit => ?_
      exact Simulates.lift_bind fun symbol => ih symbol

theorem simulates_decodeLiteral (lc lp state : Nat) (matchByte previousByte : UInt8) (position : Nat) :
    Simulates R (decodeLiteral a lc lp state matchByte previousByte position)
      (decodeLiteral b lc lp state matchByte previousByte position) := by
  refine Simulates.lift_bind fun base => ?_
  refine Simulates.bind (Simulates.ite (simulates_decodeMatched h _ _ _ _) (Simulates.pure _)) ?_
  intro symbol
  refine (simulates_decodePlain h _ _ _).bind fun symbol => ?_
  exact Simulates.lift_bind fun value => Simulates.lift_bind fun byte => Simulates.pure _

theorem simulates_decodeMatch (state : LzmaState) (positionState : Nat) :
    Simulates R (decodeMatch a state positionState) (decodeMatch b state positionState) := by
  refine Simulates.lift_bind fun rep0 => Simulates.lift_bind fun rep1 => Simulates.lift_bind fun rep2 => ?_
  refine (simulates_decodeLength h _ _).bind fun lengthOffset => ?_
  refine (simulates_decodeDistance h _).bind fun distanceOffset => ?_
  refine Simulates.ite (Simulates.pure _) ?_
  exact Simulates.lift_bind fun distance => Simulates.lift_bind fun length => Simulates.pure _

theorem simulates_chooseRepetition (state : LzmaState) :
    Simulates R (chooseRepetition a state) (chooseRepetition b state) := by
  refine (h.coded _ _ _).bind fun notOne => Simulates.ite ?_ ?_
  · exact Simulates.lift_bind fun distance => Simulates.pure _
  · refine (h.coded _ _ _).bind fun notTwo => Simulates.lift_bind fun chosen => ?_
    exact Simulates.lift_bind fun rep1 => Simulates.pure _

theorem simulates_finishRepetition (state : LzmaState) (distance positionState : Nat) :
    Simulates R (finishRepetition a state distance positionState)
      (finishRepetition b state distance positionState) := by
  refine (simulates_decodeLength h _ _).bind fun lengthOffset => ?_
  exact Simulates.lift_bind fun distance => Simulates.lift_bind fun length => Simulates.pure _

theorem simulates_decodeRepetition (state : LzmaState) (combined positionState : Nat) :
    Simulates R (decodeRepetition a state combined positionState)
      (decodeRepetition b state combined positionState) := by
  refine Simulates.lift_bind fun distance => (h.coded _ _ _).bind fun notZero => Simulates.ite ?_ ?_
  · refine (h.coded _ _ _).bind fun long => Simulates.ite ?_ (simulates_finishRepetition h _ _ _)
    exact Simulates.lift_bind fun distance => Simulates.pure _
  · refine (simulates_chooseRepetition h _).bind fun chosen => Simulates.lift_bind fun rep0 => ?_
    exact simulates_finishRepetition h _ _ _

theorem simulates_decodeOperation (state : LzmaState) (output : Output) :
    Simulates R (decodeOperation a state output) (decodeOperation b state output) := by
  refine Simulates.lift_bind fun _ => Simulates.lift_bind fun combined => ?_
  refine (h.coded _ _ _).bind fun isMatch => Simulates.ite ?_ ?_
  · refine Simulates.lift_bind fun rep0 => (simulates_decodeLiteral h _ _ _ _ _ _).bind fun literal => ?_
    exact Simulates.pure _
  · refine (h.coded _ _ _).bind fun isRep => ?_
    exact Simulates.ite (simulates_decodeMatch h _ _) (simulates_decodeRepetition h _ _ _)

/-- Where an end marker satisfies the one, it satisfies the other. -/
theorem simulates_decodeLoop {atEos : Output → σ → Work Unit} {atEos' : Output → τ → Work Unit}
    (heos : ∀ output s t, R s t → (atEos output s).result = .ok () → (atEos' output t).result = .ok ())
    (target : Option Nat) (fuel : Nat) : ∀ stream,
      Simulates R (decodeLoop a atEos target fuel stream) (decodeLoop b atEos' target fuel stream) := by
  induction fuel with
  | zero => exact fun _ => Simulates.lift _
  | succ fuel ih =>
      intro stream
      refine Simulates.ite (Simulates.pure _) ?_
      refine (simulates_decodeOperation h _ _).bind ?_
      rintro ⟨operation, state⟩
      cases operation with
      | literal byte => exact Simulates.lift_bind fun output => ih _
      | «match» distance length => exact Simulates.lift_bind fun output => ih _
      | «end» =>
          intro s t hst last s' hresult
          obtain ⟨_, hget, hresult⟩ := Metered.bind_eq_ok.mp hresult
          cases hget
          obtain ⟨_, hend, hresult⟩ := Metered.bind_eq_ok.mp hresult
          obtain ⟨⟨⟩, hmarker, hpure⟩ := Metered.bind_eq_ok.mp
            (show (atEos stream.output s >>= fun _ => pure ((), s)).result = _ from hend)
          cases hpure
          cases hresult
          refine ⟨t, Metered.bind_eq_ok.mpr ⟨(t, t), rfl, ?_⟩, hst⟩
          have hmarker' := heos _ s t hst hmarker
          exact Metered.bind_eq_ok.mpr ⟨((), t), Metered.bind_eq_ok.mpr ⟨(), hmarker', rfl⟩, rfl⟩

end sources

/-! ### The places of the bits -/

section places

variable {lc lp : Nat} {slots : Nat → Slot} {properties : Properties} {state : LzmaCoding.State}

/-- The bits are direct, or their probabilities have their places in tables of these widths. -/
def Placed (lc lp : Nat) (word : List Decision) : Prop :=
  ∀ slot bit, (Tag.coded slot, bit) ∈ word → slot.InRange lc lp

theorem Placed.nil : Placed lc lp [] := fun _ _ h => absurd h List.not_mem_nil

theorem Placed.cons {slot : Slot} {bit : Bool} {word : List Decision} (hslot : slot.InRange lc lp)
    (h : Placed lc lp word) : Placed lc lp ((.coded slot, bit) :: word) := by
  intro other value hmem
  rcases List.mem_cons.mp hmem with heq | hrest
  · cases heq
    exact hslot
  · exact h other value hrest

theorem Placed.append {word rest : List Decision} (h : Placed lc lp word) (hrest : Placed lc lp rest) :
    Placed lc lp (word ++ rest) := fun slot bit hmem =>
  (List.mem_append.mp hmem).elim (h slot bit) (hrest slot bit)

theorem Placed.direct (bits : List Bool) : Placed lc lp (bits.map fun bit => (.direct, bit)) := by
  intro slot bit hmem
  obtain ⟨_, -, heq⟩ := List.mem_map.mp hmem
  cases heq

/-- A path stays within its tree. -/
theorem placed_pathBits {total : Nat} (hslots : ∀ node, node < 2 ^ total → (slots node).InRange lc lp)
    (bits : List Bool) : ∀ done node, done + bits.length = total → node < 2 ^ (done + 1) →
      Placed lc lp (pathBits slots bits node) := by
  induction bits with
  | nil => exact fun _ _ _ _ => Placed.nil
  | cons bit rest ih =>
      intro done node htotal hnode
      rw [List.length_cons] at htotal
      have hle : 2 ^ (done + 1) ≤ 2 ^ total := Nat.pow_le_pow_right Nat.two_pos (by omega)
      refine Placed.cons (hslots node (Nat.lt_of_lt_of_le hnode hle)) (ih (done + 1) _ (by omega) ?_)
      have hbit := toNat_le_one bit
      rw [Nat.pow_succ]
      omega

theorem placed_treeBits {width : Nat} (hslots : ∀ node, node < 2 ^ width → (slots node).InRange lc lp)
    (number : Nat) : Placed lc lp (treeBits slots width number) :=
  placed_pathBits hslots _ 0 1 (by rw [BitString.length_msb, Nat.zero_add]) (by decide)

theorem placed_reverseBits {width : Nat} (hslots : ∀ node, node < 2 ^ width → (slots node).InRange lc lp)
    (number : Nat) : Placed lc lp (reverseBits slots width number) :=
  placed_pathBits hslots _ 0 1 (by rw [BitString.length_lsb, Nat.zero_add]) (by decide)

theorem placed_lengthBits (kind : LengthKind) {positionState : Nat} (h : positionState < 16)
    (number : Nat) : Placed lc lp (lengthBits kind positionState number) := by
  have hchoice : ∀ index, index < 2 → (Slot.choice kind index).InRange lc lp :=
    fun index h => ⟨2, rfl, h⟩
  have hlow : ∀ node, node < 2 ^ 3 → (Slot.low kind positionState node).InRange lc lp :=
    fun node hnode => ⟨8, if_pos h, hnode⟩
  have hmiddle : ∀ node, node < 2 ^ 3 → (Slot.middle kind positionState node).InRange lc lp :=
    fun node hnode => ⟨8, if_pos h, hnode⟩
  have hhigh : ∀ node, node < 2 ^ 8 → (Slot.high kind node).InRange lc lp :=
    fun node hnode => ⟨256, rfl, hnode⟩
  unfold lengthBits
  split
  · exact Placed.cons (hchoice 0 (by decide)) (placed_treeBits hlow _)
  · split
    · exact Placed.cons (hchoice 0 (by decide)) (Placed.cons (hchoice 1 (by decide))
        (placed_treeBits hmiddle _))
    · exact Placed.cons (hchoice 0 (by decide)) (Placed.cons (hchoice 1 (by decide))
        (placed_treeBits hhigh _))

theorem placed_footerBits (slot number : Nat) : Placed lc lp (footerBits slot number) := by
  unfold footerBits
  dsimp only
  split
  · exact Placed.nil
  rename_i hfour
  split
  · rename_i hmodel
    refine placed_reverseBits (fun node hnode => ?_) _
    have hwidth : positionModelBits (slot - 4) = slot / 2 - 1 := by
      rw [positionModelBits, startPositionModel, Nat.sub_add_cancel (Nat.not_lt.mp hfour),
        Nat.shiftRight_eq_div_pow, Nat.pow_one]
    refine ⟨1 <<< positionModelBits (slot - 4), if_pos ?_, ?_⟩
    · show slot - 4 < 10
      omega
    · rw [hwidth, Nat.shiftLeft_eq, Nat.one_mul]
      exact hnode
  · exact (Placed.direct _).append (placed_reverseBits (fun node hnode => ⟨16, rfl, hnode⟩) _)

theorem placed_distanceBits (length number : Nat) : Placed lc lp (distanceBits length number) := by
  have hstate : min length 3 < 4 := Nat.lt_of_le_of_lt (Nat.min_le_right _ _) (by decide)
  have hslots : ∀ node, node < 2 ^ 6 → (Slot.positionSlot (min length 3) node).InRange lc lp :=
    fun node hnode => ⟨64, if_pos hstate, hnode⟩
  exact (placed_treeBits hslots _).append (placed_footerBits _ _)

/-- A literal stays within the probabilities of its context, next to a match or not. -/
theorem placed_matchedBits {context : Nat} (hcontext : context < 2 ^ (lc + lp)) (bits : List Bool) :
    ∀ others done node, done + bits.length = 8 → node < 2 ^ (done + 1) →
      Placed lc lp (matchedBits (context * 0x300) bits others node) := by
  induction bits with
  | nil => exact fun _ _ _ _ _ => Placed.nil
  | cons bit rest ih =>
      intro others done node htotal hnode
      cases others with
      | nil => exact Placed.nil
      | cons other others =>
          rw [List.length_cons] at htotal
          have hle : 2 ^ (done + 1) ≤ 2 ^ 8 := Nat.pow_le_pow_right Nat.two_pos (by omega)
          have hbit := toNat_le_one bit
          have hother := toNat_le_one other
          have hnext : 2 * node + bit.toNat < 2 ^ (done + 1 + 1) := by
            rw [Nat.pow_succ]
            omega
          rw [matchedBits, Nat.add_assoc]
          refine Placed.cons (literal_inRange hcontext (by omega)) ?_
          split
          · exact ih others (done + 1) _ (by omega) hnext
          · have hslots : ∀ node, node < 2 ^ 8 → (Slot.literal (context * 0x300 + node)).InRange lc lp :=
              fun node hnode => literal_inRange hcontext (by omega)
            exact placed_pathBits hslots rest (done + 1) _ (by omega) hnext

theorem placed_literalBits (h : properties.lc + properties.lp ≤ 4) (byte : UInt8) :
    Placed properties.lc properties.lp (state.literalBits properties byte) := by
  have hcontext := @literalContext_lt properties.lc properties.lp _
    (previousPart_lt (show properties.lc ≤ 8 by omega) (state.history.getLast?.getD 0))
    state.history.length
  have hlength : 0 + (BitString.msb 8 byte.toNat).length = 8 := by
    rw [BitString.length_msb]
  unfold State.literalBits
  rw [← literalBase_eq]
  dsimp only
  split
  · exact placed_pathBits (fun node hnode => literal_inRange hcontext (by omega)) _ 0 1 hlength (by decide)
  · exact placed_matchedBits hcontext _ _ 0 1 hlength (by decide)

/-- Every bit of a step has its place. -/
theorem placed_bits (hwidths : Widths properties.lc properties.lp properties.pb)
    (hnumber : state.number < 12) (step : Step) :
    Placed properties.lc properties.lp (state.bits properties step) := by
  have hposition : state.positionState properties < 16 := hwidths.position_lt _
  have hmatch : (Slot.isMatch (state.number * 16 + state.positionState properties)).InRange
      properties.lc properties.lp :=
    ⟨_, rfl, show state.number * 16 + state.positionState properties < 12 * 16 by omega⟩
  have hrep : (Slot.isRep state.number).InRange properties.lc properties.lp := ⟨_, rfl, hnumber⟩
  have hzero : (Slot.isRepZero state.number).InRange properties.lc properties.lp := ⟨_, rfl, hnumber⟩
  have hone : (Slot.isRepOne state.number).InRange properties.lc properties.lp := ⟨_, rfl, hnumber⟩
  have htwo : (Slot.isRepTwo state.number).InRange properties.lc properties.lp := ⟨_, rfl, hnumber⟩
  have hlong : (Slot.isRepZeroLong (state.number * 16 + state.positionState properties)).InRange
      properties.lc properties.lp :=
    ⟨_, rfl, show state.number * 16 + state.positionState properties < 12 * 16 by omega⟩
  cases step with
  | literal byte => exact Placed.cons hmatch (placed_literalBits hwidths.literal byte)
  | «match» distance length =>
      exact Placed.cons hmatch (Placed.cons hrep
        ((placed_lengthBits _ hposition _).append (placed_distanceBits _ _)))
  | shortRepeat =>
      exact Placed.cons hmatch (Placed.cons hrep (Placed.cons hzero (Placed.cons hlong Placed.nil)))
  | repeated index length =>
      refine Placed.cons hmatch (Placed.cons hrep (Placed.append ?_ (placed_lengthBits _ hposition _)))
      have hindex : ∀ index : Fin 4, index = 0 ∨ index = 1 ∨ index = 2 ∨ index = 3 := by decide
      rcases hindex index with rfl | rfl | rfl | rfl
      · exact Placed.cons hzero (Placed.cons hlong Placed.nil)
      · exact Placed.cons hzero (Placed.cons hone Placed.nil)
      · exact Placed.cons hzero (Placed.cons hone (Placed.cons htwo Placed.nil))
      · exact Placed.cons hzero (Placed.cons hone (Placed.cons htwo Placed.nil))

theorem placed_allBits (hwidths : Widths properties.lc properties.lp properties.pb) (steps : List Step) :
    ∀ state : LzmaCoding.State, state.number < 12 →
      Placed properties.lc properties.lp (state.allBits properties steps) := by
  induction steps with
  | nil => exact fun _ _ => Placed.nil
  | cons step rest ih =>
      exact fun state hnumber => (placed_bits hwidths hnumber step).append
        (ih _ (number_step hnumber step))

theorem placed_endBits (hwidths : Widths properties.lc properties.lp properties.pb)
    (hnumber : state.number < 12) : Placed properties.lc properties.lp (state.endBits properties) :=
  placed_bits hwidths hnumber (.match (2 ^ 32) 2)

end places

/-! ### The range decoder behind the bits -/

section tracking

variable {lc lp : Nat} {tables : Tables} {m : Model Slot} {slot : Slot} {row : List Nat}

/-- The probabilities in the tables are those of the model. -/
def Tables.Hold (tables : Tables) (m : Model Slot) : Prop :=
  ∀ slot row, tables.row slot = some row → ∀ p, row[slot.index]? = some p → m slot = p

theorem Tables.hold_new (lc lp : Nat) : (Tables.new lc lp).Hold Model.start := by
  intro slot row hrow p hp
  obtain ⟨n, rfl⟩ := Tables.row_new hrow
  rw [List.eq_of_mem_replicate (List.mem_of_getElem? hp)]
  rfl

/-- A probability moves in both. -/
theorem Tables.Hold.setRow {p : Nat} (h : tables.Hold m) (hrow : tables.row slot = some row)
    (hlt : slot.index < row.length) :
    (tables.setRow (row.set slot.index p) slot).Hold (Function.update m slot p) := by
  intro other found hfound q hq
  have hsome : (tables.row slot).isSome := hrow ▸ rfl
  obtain ⟨hsame, hother⟩ | ⟨hnew, harray⟩ := Tables.row_setRow hsome (row.set slot.index p) other
  · have hne : other ≠ slot := fun heq => hother (heq ▸ rfl)
    rw [Function.update_of_ne hne]
    exact h other found (hsame ▸ hfound) q hq
  · obtain rfl := Option.some.inj (hnew.symm.trans hfound)
    by_cases hindex : other.index = slot.index
    · obtain rfl := Slot.eq_of_array harray hindex
      rw [List.getElem?_set_self hlt] at hq
      rw [Function.update_self]
      exact Option.some.inj hq
    · have hne : other ≠ slot := fun heq => hindex (heq ▸ rfl)
      rw [List.getElem?_set_ne (Ne.symm hindex)] at hq
      rw [Function.update_of_ne hne]
      refine h other row ?_ q hq
      rw [← Tables.row_array, harray, Tables.row_array, hrow]

/-- The decoder stands where these bits are still to come, of all that lead to the interval `last`. -/
structure Tracks (lc lp : Nat) (last : Interval) (decisions : List Decision) (coder : Coder) : Prop where
  stands : ∃ (s : Interval) (m : Model Slot), coder.decoder.At s last.shifts last.low ∧ s.Wide ∧
    m.Moderate ∧ coder.tables.Hold m ∧ s.codeAll m decisions = last
  tables : coder.tables.Sound lc lp
  placed : Placed lc lp decisions
  input_lt : coder.decoder.input.length < 2 ^ 64

variable {last : Interval} {decisions rest : List Decision} {coder : Coder} {bit : Nat}

theorem coded_eq_ok {row index : String}
    (h : (oracle.coded slot row index decisions).result = .ok (bit, rest)) :
    ∃ value : Bool, decisions = (.coded slot, value) :: rest ∧ bit = value.toNat := by
  cases decisions with
  | nil => cases h
  | cons head tail =>
      obtain ⟨tag, value⟩ := head
      cases tag with
      | direct => cases h
      | coded name =>
          by_cases hname : name = slot
          · have hpure : (oracle.coded slot row index ((.coded name, value) :: tail)).result
                = .ok (value.toNat, tail) := congrArg Metered.result (if_pos hname)
            rw [hpure] at h
            cases h
            exact ⟨value, by rw [hname], rfl⟩
          · have hfail : (oracle.coded slot row index ((.coded name, value) :: tail)).result
                = .error (formatError "another bit comes next") := congrArg Metered.result (if_neg hname)
            rw [hfail] at h
            cases h

theorem direct_eq_ok (h : (oracle.direct decisions).result = .ok (bit, rest)) :
    ∃ value : Bool, decisions = (.direct, value) :: rest ∧ bit = value.toNat := by
  cases decisions with
  | nil => cases h
  | cons head tail =>
      obtain ⟨tag, value⟩ := head
      cases tag with
      | coded name => cases h
      | direct =>
          cases h
          exact ⟨value, rfl, rfl⟩

/-- The next interval still holds the end of the last one. -/
theorem holds_code {s : Interval} {tag : Tag Slot} {value : Bool} (hwide : s.Wide) (hm : m.Moderate)
    (hlast : s.codeAll m ((tag, value) :: rest) = last) :
    (s.code m tag value).Holds last.shifts last.low := by
  have hwide' := hwide.code hm tag value
  have hm' := hm.adapt tag value
  have hpos : 0 < last.range := by
    have hrange := (hwide.codeAll hm ((tag, value) :: rest)).1
    rw [hlast] at hrange
    omega
  refine @Interval.holds_of_codeAll _ _ _ _ _ _ hwide' hm' rest ?_
  have hrest : (s.code m tag value).codeAll (m.adapt tag value) rest = last := hlast
  rw [hrest]
  exact Interval.holds_low hpos

theorem Tracks.coded {value : Bool} (h : Tracks lc lp last ((.coded slot, value) :: rest) coder)
    (row index : String) : ∃ next, (rangeSource.coded slot row index coder).result
        = .ok (value.toNat, next) ∧ Tracks lc lp last rest next := by
  obtain ⟨s, m, hat, hwide, hm, hhold, hlast⟩ := h.stands
  obtain ⟨probabilities, hrow, hlt⟩ := h.tables.exists_row (h.placed slot value List.mem_cons_self)
  have hget : probabilities[slot.index]? = some (m slot) := by
    rw [hhold slot _ hrow _ (List.getElem?_eq_getElem hlt)]
    exact List.getElem?_eq_getElem hlt
  obtain ⟨decoder, hdecode, hat, hinput⟩ := decodeTag_at hat h.input_lt hwide hm
    (holds_code hwide hm hlast)
  obtain ⟨⟨⟨found, p⟩, next⟩, hbit, heq⟩ := Metered.bind_eq_ok.mp hdecode
  have hall : (found, next, Function.update m slot p) = (value.toNat, decoder, m.adapt (.coded slot) value) :=
    Except.ok.inj heq
  obtain ⟨hfound, hbehind⟩ := Prod.mk.inj hall
  obtain ⟨hnext, hadapt⟩ := Prod.mk.inj hbehind
  subst hfound hnext
  have hmoderate : Moderate p := by
    have hslot := hm.adapt (.coded slot) value slot
    rwa [← hadapt, Function.update_self] at hslot
  refine ⟨⟨next, coder.tables.setRow (probabilities.set slot.index p) slot⟩, ?_, ?_⟩
  · refine Metered.bind_eq_ok.mpr ⟨probabilities, orFormat_eq_ok.mpr hrow, ?_⟩
    refine Metered.bind_eq_ok.mpr ⟨m slot, orFormat_eq_ok.mpr hget, ?_⟩
    exact Metered.bind_eq_ok.mpr ⟨_, hbit, rfl⟩
  · refine ⟨⟨_, _, hat, hwide.code hm _ _, hm.adapt _ _, hadapt ▸ hhold.setRow hrow hlt, hlast⟩,
      h.tables.setRow hrow hmoderate, ?_, hinput ▸ h.input_lt⟩
    exact fun other bit hmem => h.placed other bit (List.mem_cons_of_mem _ hmem)

theorem Tracks.direct {value : Bool} (h : Tracks lc lp last ((.direct, value) :: rest) coder) :
    ∃ next, (rangeSource.direct coder).result = .ok (value.toNat, next) ∧
      Tracks lc lp last rest next := by
  obtain ⟨s, m, hat, hwide, hm, hhold, hlast⟩ := h.stands
  obtain ⟨decoder, hdecode, hat, hinput⟩ := decodeTag_at hat h.input_lt hwide hm
    (holds_code hwide hm hlast)
  obtain ⟨⟨found, next⟩, hbit, heq⟩ := Metered.bind_eq_ok.mp hdecode
  have hall : (found, next, m) = (value.toNat, decoder, m.adapt .direct value) := Except.ok.inj heq
  obtain ⟨hfound, hbehind⟩ := Prod.mk.inj hall
  obtain ⟨hnext, hadapt⟩ := Prod.mk.inj hbehind
  subst hfound hnext
  refine ⟨⟨next, coder.tables⟩, Metered.bind_eq_ok.mpr ⟨_, hbit, rfl⟩, ?_⟩
  refine ⟨⟨_, _, hat, hwide.code hm _ _, hm.adapt _ _, hadapt ▸ hhold, hlast⟩, h.tables, ?_,
    hinput ▸ h.input_lt⟩
  exact fun other bit hmem => h.placed other bit (List.mem_cons_of_mem _ hmem)

/-- The bits that the encoder has written are those of the range decoder. -/
theorem oracle_matches (lc lp : Nat) (last : Interval) :
    oracle.Matches (Tracks lc lp last) rangeSource where
  coded slot row index := by
    intro decisions coder h bit rest hresult
    obtain ⟨value, rfl, rfl⟩ := coded_eq_ok hresult
    exact h.coded row index
  direct := by
    intro decisions coder h bit rest hresult
    obtain ⟨value, rfl, rfl⟩ := direct_eq_ok hresult
    exact h.direct

/-- Behind the last bit the decoder has read everything, and nothing is left in its code. -/
theorem Tracks.finished (h : Tracks lc lp last [] coder) :
    coder.decoder.code = 0 ∧ coder.decoder.cursor = coder.decoder.input.length := by
  obtain ⟨s, m, hat, -, -, -, rfl⟩ := h.stands
  obtain ⟨-, hcode, hrest⟩ := hat.follows
  have hcode : coder.decoder.code + s.low = s.low / 256 ^ (s.shifts - s.shifts) := hcode
  have hrest : coder.decoder.input.drop coder.decoder.cursor = digits (s.shifts - s.shifts) s.low := hrest
  rw [Nat.sub_self, Nat.pow_zero, Nat.div_one] at hcode
  rw [Nat.sub_self, digits, List.drop_eq_nil_iff] at hrest
  exact ⟨by omega, Nat.le_antisymm hat.cursor_le hrest⟩

end tracking

/-! ### The range decoder at its start -/

section streams

variable {lc lp : Nat}

/-- The first five digits are the code. -/
theorem new_digits {n number : Nat} {input : Bytes} (hinput : input = digits (n + 5) number)
    (hlength : input.length < 2 ^ 64) (hstart : Interval.start.Holds n number) :
    ∃ decoder, (RangeDecoder.new input).result = .ok decoder ∧ decoder.input = input ∧
      decoder.At Interval.start n number := by
  obtain ⟨hdigits, hword, hfollows⟩ := follows_start hstart
  rw [hdigits] at hinput
  have hfirst := @RangeDecoder.readByte_of_some ⟨input, 0, 2 ^ 32 - 1, 0⟩ 0
    (by rw [hinput]; rfl) hlength
  have hrest : input.drop 1 = digits 4 (number / 256 ^ n) ++ digits n number := by
    rw [hinput]
    rfl
  have hcode := @RangeDecoder.result_readCode ⟨input, 1, 2 ^ 32 - 1, 0⟩
    (digits 4 (number / 256 ^ n)) _ hlength hrest
  have hvalue : (digits 4 (number / 256 ^ n)).foldl shiftCode 0 = number / 256 ^ n := by
    have hfour : number / 256 ^ n < 256 ^ 4 := hword
    have hdigit : value (digits 4 (number / 256 ^ n)) = number / 256 ^ n := by
      rw [value_digits, Nat.mod_eq_of_lt hfour]
    rw [shiftCode_eq, Filters.foldl_shiftIn _ 0 (by omega), hdigit]
    omega
  rw [length_digits, hvalue] at hcode
  refine ⟨⟨input, 5, 2 ^ 32 - 1, number / 256 ^ n⟩, ?_, rfl, ?_, rfl, ?_⟩
  · unfold RangeDecoder.new
    rw [Metered.result_bind_ok hfirst]
    show ((RangeDecoder.readCode 4 ⟨input, 1, 2 ^ 32 - 1, 0⟩) >>= _).result = _
    rw [Metered.result_bind_ok hcode]
    exact congrArg Metered.result (if_neg (Nat.not_le.mpr hfollows.code_lt))
  · have hfive : input.drop 5 = digits n number := by
      rw [show 5 = 1 + 4 from rfl, ← List.drop_drop, hrest]
      exact List.drop_left' (length_digits 4 _)
    show Follows _ n number _ (input.drop 5)
    rwa [hfive]
  · show 5 ≤ input.length
    rw [hinput, ← hdigits, length_digits]
    exact Nat.le_add_left _ _

/-- At its start it has all the bits before it. -/
theorem tracks_new {bits : List Decision} (hlength : (encode bits).length < 2 ^ 64)
    (hplaced : Placed lc lp bits) : ∃ decoder, (RangeDecoder.new (encode bits)).result = .ok decoder ∧
      Tracks lc lp (Interval.start.codeAll Model.start bits) bits ⟨decoder, Tables.new lc lp⟩ := by
  have hwide := Interval.wide_start.codeAll Model.moderate_start bits
  have hpos : 0 < (Interval.start.codeAll Model.start bits).range := by
    have hrange := hwide.1
    omega
  have hstands := Encoder.stands_start.codeAll Interval.wide_start Model.moderate_start bits
  have hholds := Interval.holds_of_codeAll Interval.wide_start Model.moderate_start
    (Interval.holds_low hpos)
  obtain ⟨decoder, hnew, hinput, hat⟩ := new_digits (hstands.flush_eq hpos) hlength hholds
  refine ⟨decoder, hnew, ⟨_, _, hat, Interval.wide_start, Model.moderate_start, Tables.hold_new lc lp,
    rfl⟩, Tables.sound_new lc lp, hplaced, ?_⟩
  show decoder.input.length < _
  rwa [hinput]

variable {bits tail : List Decision} {state : LzmaState} {output : Output} {expected : Option Nat}
  {requireEos : Bool} {atEos : Output → List Decision → Work Unit} {stream : StreamState}

/-- What the symbol layer makes of the bits, `decode_stream` makes of what encodes them. -/
theorem result_decodeStream (hlength : (encode bits).length < 2 ^ 64) (hplaced : Placed lc lp bits)
    (heos : ∀ target, (streamTarget output expected).result = .ok target → ∀ out rest coder,
      Tracks lc lp (Interval.start.codeAll Model.start bits) rest coder →
      (atEos out rest).result = .ok () → (finishAtEos out coder.decoder target requireEos).result = .ok ())
    (h : (decodeSteps atEos state output expected bits).result = .ok (stream, tail)) :
    ∃ tables, (decodeStream rangeSource ⟨state, Tables.new lc lp⟩ (encode bits) output expected
      requireEos).result = .ok (⟨stream.state, tables⟩, stream.output) := by
  obtain ⟨_, hlifted, h⟩ := Metered.bind_eq_ok.mp h
  obtain ⟨target, htarget, hpure⟩ := Metered.bind_eq_ok.mp
    (show (streamTarget output expected >>= fun target => pure (target, bits)).result = _ from hlifted)
  cases hpure
  obtain ⟨decoder, hnew, htracks⟩ := tracks_new hlength hplaced
  obtain ⟨coder, hloop, -⟩ := simulates_decodeLoop (oracle_matches lc lp _) (heos _ htarget) _ _ _ _ _
    htracks _ _ h
  refine ⟨coder.tables, Metered.bind_eq_ok.mpr ⟨_, htarget, ?_⟩⟩
  refine Metered.bind_eq_ok.mpr ⟨_, hnew, ?_⟩
  exact Metered.bind_eq_ok.mpr ⟨_, hloop, rfl⟩

end streams

/-! ### Streams of bytes -/

section bytes

variable {byte b0 b1 b2 b3 : UInt8} {properties : Properties} {steps : List Step}
  {maximum : Nat} {expected : Option Nat} {input : Bytes}

/-- A stream that starts with nothing behind it. -/
def opening : LzmaCoding.State := ⟨[], 0, fun _ => 0⟩

/-- The size of the dictionary that four bytes declare. -/
def declaredSize (b0 b1 b2 b3 : UInt8) : Nat := max (leValue [b0, b1, b2, b3]) 1

theorem result_outputNew {size : Nat} (hexpected : expected.getD 0 ≤ size)
    (hroom : Output.Room maximum size) (dictionary : Nat) :
    (Output.new maximum dictionary expected).result = .ok ⟨[], maximum, dictionary, 0⟩ := by
  have hlimit : expected.getD 0 ≤ maximum := Nat.le_trans hexpected hroom.maximum_le
  have hvector : ¬ expected.getD 0 > vectorMax := Nat.not_lt.mpr (Nat.le_trans hexpected hroom.vector_le)
  refine Metered.bind_eq_ok.mpr ⟨(), checkLimit_eq_ok.mpr hlimit, ?_⟩
  exact Metered.bind_eq_ok.mpr ⟨(), congrArg Metered.result (if_neg hvector), rfl⟩

/-- `decode_lzma` is `decode_stream` behind its properties. -/
theorem decodeLzma_of_decodeStream
    (hproperties : propertiesFromByte byte = .ok (properties.lc, properties.lp, properties.pb))
    {size : Nat} (hexpected : expected.getD 0 ≤ size) (hroom : Output.Room maximum size)
    {state : StoredState} {output : Output}
    (h : (decodeStream rangeSource
        ⟨opening.held properties, Tables.new properties.lc properties.lp⟩ input
        (heldOutput maximum (declaredSize b0 b1 b2 b3) opening) expected expected.isNone).result
      = .ok (state, output)) :
    (decodeLzma input [byte, b0, b1, b2, b3] expected maximum).result = .ok output.bytes := by
  obtain ⟨hpb, hsmall⟩ := propertiesFromByte_eq_ok hproperties
  have hstored := StoredState.new_eq hpb hsmall
  refine Metered.bind_eq_ok.mpr ⟨(byte, declaredSize b0 b1 b2 b3), rfl, ?_⟩
  refine Metered.bind_eq_ok.mpr ⟨_, (result_ofExcept _).trans hproperties, ?_⟩
  refine Metered.bind_eq_ok.mpr ⟨_, (result_ofExcept _).trans hstored, ?_⟩
  refine Metered.bind_eq_ok.mpr ⟨_, result_outputNew hexpected hroom _, ?_⟩
  exact Metered.bind_eq_ok.mpr ⟨_, h, rfl⟩

/-- Behind all bits an end marker is in order. -/
theorem finishAtEos_of_nil {output : Output} {last : Interval} (target : Option Nat)
    (htarget : (streamTarget output none).result = .ok target) (out : Output) (rest : List Decision)
    (coder : Coder) (htracks : Tracks properties.lc properties.lp last rest coder)
    (hend : (if rest = [] then pure () else formatErr "bits are left" : Work Unit).result = .ok ()) :
    (finishAtEos out coder.decoder target true).result = .ok () := by
  obtain rfl := Except.ok.inj htarget
  by_cases hrest : rest = []
  · subst hrest
    obtain ⟨hcode, hcursor⟩ := htracks.finished
    have hfinal : coder.decoder.possiblyAtEnd = true := by
      rw [RangeDecoder.possiblyAtEnd, hcode]
      rfl
    have hread : coder.decoder.isFinished = true := by
      rw [RangeDecoder.isFinished, hcursor]
      exact beq_self_eq_true _
    unfold finishAtEos
    rw [hfinal, hread]
    rfl
  · rw [if_neg hrest] at hend
    cases hend

/--
**Decoding undoes encoding.**

The properties, the dictionary and the steps of an encoder are arbitrary, as long as each step
can be made where it is.  What the range encoder writes for their bits is decoded to the history
of the encoder: with its length declared, and where an end marker follows, also without.
-/
theorem decodeLzma_encode
    (hproperties : propertiesFromByte byte = .ok (properties.lc, properties.lp, properties.pb))
    (hsteps : opening.AllowsAll (declaredSize b0 b1 b2 b3) steps)
    (hroom : Output.Room maximum (opening.run steps).history.length) :
    ((encode (opening.allBits properties steps)).length < 2 ^ 64 →
      (decodeLzma (encode (opening.allBits properties steps)) [byte, b0, b1, b2, b3]
        (some (opening.run steps).history.length) maximum).result
          = .ok (opening.run steps).history) ∧
    ((encode (opening.allBits properties steps ++ (opening.run steps).endBits properties)).length
        < 2 ^ 64 →
      (decodeLzma (encode (opening.allBits properties steps ++ (opening.run steps).endBits properties))
        [byte, b0, b1, b2, b3] none maximum).result = .ok (opening.run steps).history) := by
  obtain ⟨hpb, hsmall⟩ := propertiesFromByte_eq_ok hproperties
  have hwidths : Widths properties.lc properties.lp properties.pb := ⟨hsmall, hpb⟩
  have hfresh : opening.Fresh := ⟨rfl, fun _ => rfl⟩
  have hnumber : opening.number < 12 := by decide
  have hplaced := placed_allBits hwidths steps opening hnumber
  have hstored := StoredState.new_eq hpb hsmall
  refine ⟨fun hlength => ?_, fun hlength => ?_⟩
  · -- The loop ends with the declared size, before any end marker.
    have hfollows := (decodeSteps_follows hproperties hstored hfresh hsteps hroom
      (fun _ _ => formatErr "no end marker comes") []).2.1
    rw [List.append_nil, show opening.history.length = 0 from rfl, Nat.sub_zero] at hfollows
    obtain ⟨tables, hstream⟩ := result_decodeStream hlength hplaced
      (fun _ _ _ _ _ _ hend => by cases hend) hfollows
    exact decodeLzma_of_decodeStream hproperties (Nat.le_refl _) hroom hstream
  · have hfollows := (decodeSteps_follows hproperties hstored hfresh hsteps hroom
      (fun _ rest => if rest = [] then pure () else formatErr "bits are left") []).2.2 rfl
    rw [List.append_nil] at hfollows
    obtain ⟨tables, hstream⟩ := result_decodeStream hlength
      (hplaced.append (placed_endBits hwidths (number_run hnumber steps))) finishAtEos_of_nil hfollows
    exact decodeLzma_of_decodeStream hproperties (Nat.zero_le _) hroom hstream

theorem length_encode_le (bits : List Decision) : (encode bits).length ≤ bits.length + 5 := by
  obtain ⟨n, number, hencode, hn, -⟩ := encode_eq bits
  rw [hencode, length_digits]
  exact Nat.add_le_add_right hn 5

/-- Two letters, and a copy that runs over its own beginning. -/
theorem decodeLzma_encode_copy :
    let steps : List Step := [.literal 0x61, .literal 0x62, .match 2 5]
    (decodeLzma (encode (opening.allBits ⟨3, 0, 2⟩ steps)) [93, 0, 0, 1, 0] (some 7) 64).result
        = .ok [0x61, 0x62, 0x61, 0x62, 0x61, 0x62, 0x61] ∧
      (decodeLzma (encode (opening.allBits ⟨3, 0, 2⟩ steps ++ (opening.run steps).endBits ⟨3, 0, 2⟩))
        [93, 0, 0, 1, 0] none 64).result = .ok [0x61, 0x62, 0x61, 0x62, 0x61, 0x62, 0x61] := by
  intro steps
  have hboth := @decodeLzma_encode 93 0 0 1 0 ⟨3, 0, 2⟩ steps 64 rfl (by decide) ⟨by decide, by decide⟩
  refine ⟨hboth.1 ?_, hboth.2 ?_⟩
  · exact Nat.lt_of_le_of_lt (length_encode_le _) (by decide)
  · exact Nat.lt_of_le_of_lt (length_encode_le _) (by decide)

end bytes

end Lzma

end Un7z
