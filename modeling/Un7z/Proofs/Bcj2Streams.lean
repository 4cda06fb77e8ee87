/-
BCJ2 undoes its encoder.

An encoding is chosen: of the branch opcodes with four bytes behind them, `convert` says by
their position which are converted.  `encodeFrom` deals the bytes out over three streams
and lists the decisions in the order they are made, and the fourth stream is what a range
coder writes for these.

The decoder has four inputs that advance as the bytes demand.  `Stage` says where it
stands in each: what is ahead of a cursor is what the encoder made of the bytes still to
come.  The range decoder follows the interval of the decisions made so far, and the next
decision is the one for which the interval keeps holding the number that was written.
-/
import Un7z.Bcj2
import Un7z.Lib.RangeCoder
import Un7z.Proofs.ThumbFilter

namespace Un7z

namespace Filters

open RangeCoder
open Grammar (leBytes)

/-! ### The encoder -/

namespace Bcj2

/-- A call or a jump, or a conditional jump of two bytes. -/
def IsBranch (previous current : UInt8) : Prop :=
  current = 0xe8 ∨ current = 0xe9 ∨ previous = 0x0f ∧ 0x80 ≤ current ∧ current ≤ 0x8f

instance (previous current : UInt8) : Decidable (IsBranch previous current) :=
  inferInstanceAs (Decidable (_ ∨ _ ∨ _))

/-- What a decision is coded under: calls are told apart by the byte in front of them. -/
inductive Context where
  | call (previous : UInt8)
  | jump
  | conditional
  deriving DecidableEq

/-- The context of a branch. -/
def context (previous current : UInt8) : Context :=
  if current = 0xe8 then .call previous else if current = 0xe9 then .jump else .conditional

structure Encoding where
  main : Bytes
  call : Bytes
  jump : Bytes
  decisions : List (Tag Context × Bool)

namespace Encoding

/-- A byte that goes to the main stream, with the decision that comes with it. -/
def keep (previous byte : UInt8) (converted : Bool) (e : Encoding) : Encoding :=
  { e with
    main := byte :: e.main
    decisions := if IsBranch previous byte then (.coded (context previous byte), converted) ::
      e.decisions else e.decisions }

/-- The target of a branch goes to the stream of its kind. -/
def aim (byte : UInt8) (target : UInt32) (e : Encoding) : Encoding :=
  if byte = 0xe8 then { e with call := u32ToBe target ++ e.call }
  else { e with jump := u32ToBe target ++ e.jump }

end Encoding

/-- The encoding of the bytes from a position on, behind the byte `previous`. -/
def encodeFrom (convert : Nat → Bool) : Nat → UInt8 → Bytes → Encoding
  | position, previous, byte :: b₁ :: b₂ :: b₃ :: b₄ :: rest =>
      if IsBranch previous byte ∧ convert position then
        ((encodeFrom convert (position + 5) b₄ rest).aim byte
          (u32FromLe [b₁, b₂, b₃, b₄] + UInt32.ofNat (position + 5))).keep previous byte true
      else
        (encodeFrom convert (position + 1) byte (b₁ :: b₂ :: b₃ :: b₄ :: rest)).keep previous byte
          false
  | position, previous, byte :: rest =>
      (encodeFrom convert (position + 1) byte rest).keep previous byte false
  | _, _, [] => ⟨[], [], [], []⟩

/-- The four streams. -/
def encode (convert : Nat → Bool) (plaintext : Bytes) : List Bytes :=
  let e := encodeFrom convert 0 0 plaintext
  [e.main, e.call, e.jump, RangeCoder.encode e.decisions]

end Bcj2

open Bcj2 (Context Encoding encodeFrom)

/-! ### The branches -/

/-- A test of all bytes. -/
theorem forall_byte {p : UInt8 → Bool}
    (h : ((List.range 256).all fun n => p (UInt8.ofNat n)) = true) (byte : UInt8) :
    p byte = true := by
  have hbyte := List.all_eq_true.mp h byte.toNat (List.mem_range.mpr byte.toNat_lt)
  rwa [UInt8.ofNat_toNat] at hbyte

theorem isBcj2Branch_iff (previous current : UInt8) :
    isBcj2Branch previous current = true ↔ Bcj2.IsBranch previous current := by
  have hnear : ∀ byte : UInt8, (byte &&& 0xfe = 0xe8 ↔ byte = 0xe8 ∨ byte = 0xe9) := fun byte =>
    of_decide_eq_true (forall_byte (p := fun byte => decide (byte &&& 0xfe = 0xe8 ↔
      byte = 0xe8 ∨ byte = 0xe9)) (by decide +kernel) byte)
  have hlong : ∀ byte : UInt8, (byte &&& 0xf0 = 0x80 ↔ 0x80 ≤ byte ∧ byte ≤ 0x8f) := fun byte =>
    of_decide_eq_true (forall_byte (p := fun byte => decide (byte &&& 0xf0 = 0x80 ↔
      0x80 ≤ byte ∧ byte ≤ 0x8f)) (by decide +kernel) byte)
  rw [isBcj2Branch, Bool.or_eq_true, decide_eq_true_eq, Bool.and_eq_true, decide_eq_true_eq,
    decide_eq_true_eq, hnear, hlong, Bcj2.IsBranch, or_assoc]

/-- Where the decoder keeps the probability of a context. -/
def Bcj2.Context.index : Context → Nat
  | .call previous => previous.toNat
  | .jump => 256
  | .conditional => 257

theorem index_injective {a b : Context} (h : a.index = b.index) : a = b := by
  have hbyte (p : UInt8) : p.toNat < 256 := p.toNat_lt
  cases a <;> cases b <;> simp only [Bcj2.Context.index] at h
  case call.call p q => rw [UInt8.toNat_inj.mp h]
  case call.jump p => exact absurd h (hbyte p).ne
  case call.conditional p => exact absurd h (by have := hbyte p; omega)
  case jump.call q => exact absurd h.symm (hbyte q).ne
  case conditional.call q => exact absurd h (by have := hbyte q; omega)
  all_goals first | rfl | omega

theorem index_context (previous current : UInt8) :
    (Bcj2.context previous current).index = bcj2ProbabilityIndex previous current := by
  unfold Bcj2.context bcj2ProbabilityIndex
  by_cases hcall : current = 0xe8
  · rw [if_pos hcall, if_pos hcall]
    rfl
  · rw [if_neg hcall, if_neg hcall]
    by_cases hjump : current = 0xe9
    · rw [if_pos hjump, if_pos hjump]
      rfl
    · rw [if_neg hjump, if_neg hjump]
      rfl

/-! ### Cursors -/

/-- What a cursor has still to read. -/
structure Bcj2Cursor.Ahead (cursor : Bcj2Cursor) (rest : Bytes) : Prop where
  drop_eq : cursor.bytes.drop cursor.position = rest
  position_add : cursor.position + rest.length = cursor.bytes.length
  length_lt : cursor.bytes.length < 2 ^ 64

namespace Bcj2Cursor

theorem ahead_new {bytes : Bytes} (h : bytes.length < 2 ^ 64) : (new bytes).Ahead bytes :=
  ⟨rfl, Nat.zero_add _, h⟩

variable {cursor : Bcj2Cursor} {rest : Bytes}

theorem Ahead.isFinished_eq (h : cursor.Ahead rest) : cursor.isFinished = rest.isEmpty := by
  have hposition := h.position_add
  unfold isFinished
  cases rest with
  | nil =>
      rw [List.length_nil, Nat.add_zero] at hposition
      rw [hposition]
      exact beq_self_eq_true _
  | cons byte rest =>
      rw [List.length_cons] at hposition
      exact beq_false_of_ne (by omega)

theorem Ahead.readByte {byte : UInt8} (h : cursor.Ahead (byte :: rest)) :
    ∃ next, cursor.readByte.result = .ok (byte, next) ∧ next.Ahead rest := by
  obtain ⟨hdrop, hposition, hlength⟩ := h
  rw [List.length_cons] at hposition
  have hbyte : cursor.bytes[cursor.position]? = some byte := by
    rw [← Nat.add_zero cursor.position, ← List.getElem?_drop, hdrop]
    rfl
  have hadd : checkedAdd 64 cursor.position 1 = some (cursor.position + 1) :=
    checkedAdd_of_lt (by omega)
  refine ⟨⟨cursor.bytes, cursor.position + 1⟩, ?_, ?_, ?_, hlength⟩
  · rw [Bcj2Cursor.readByte, Metered.result_bind_ok (result_checkpoint _), hbyte,
      Metered.result_bind_ok (result_orFormat_some _ _), hadd,
      Metered.result_bind_ok (result_orFormat_some _ _)]
    rfl
  · show cursor.bytes.drop (cursor.position + 1) = rest
    rw [← List.drop_drop, hdrop]
    rfl
  · show cursor.position + 1 + rest.length = cursor.bytes.length
    omega

theorem Ahead.readBytes {word : Bytes} (h : cursor.Ahead (word ++ rest)) :
    ∃ next, (readBytes word.length cursor).result = .ok (word, next) ∧ next.Ahead rest := by
  induction word generalizing cursor with
  | nil => exact ⟨cursor, rfl, h⟩
  | cons byte word ih =>
      obtain ⟨next, hread, hnext⟩ := Ahead.readByte h
      obtain ⟨last, hlast, hrest⟩ := ih hnext
      refine ⟨last, ?_, hrest⟩
      rw [List.length_cons, Bcj2Cursor.readBytes, Metered.result_bind_ok hread,
        Metered.result_bind_ok hlast]
      rfl

theorem Ahead.readU32Be {word : UInt32} (h : cursor.Ahead (u32ToBe word ++ rest)) :
    ∃ next, cursor.readU32Be.result = .ok (word, next) ∧ next.Ahead rest := by
  obtain ⟨next, hread, hnext⟩ := h.readBytes
  refine ⟨next, ?_, hnext⟩
  have hlength : (u32ToBe word).length = 4 := rfl
  rw [hlength] at hread
  rw [Bcj2Cursor.readU32Be, Metered.result_bind_ok hread]
  show (pure (u32FromBe (u32ToBe word), next) : Work _).result = _
  rw [u32FromBe_toBe]
  rfl

end Bcj2Cursor

/-! ### The range decoder -/

theorem shiftIn_eq {code : Nat} (h : code < 2 ^ 24) (byte : UInt8) :
    shiftIn code byte = code * 256 + byte.toNat := by
  have hlt : code <<< 8 < 2 ^ 32 := by
    rw [Nat.shiftLeft_eq]
    omega
  rw [shiftIn, Nat.mod_eq_of_lt hlt, ← Nat.shiftLeft_add_eq_or_of_lt byte.toNat_lt,
    Nat.shiftLeft_eq]

/-- The decoder follows the interval `s` of the written number. -/
structure Bcj2Range.At (range : Bcj2Range) (s : Interval) (m : Model Context) (n number : Nat) :
    Prop where
  follows : ∃ rest, range.input.Ahead rest ∧ Follows s n number range.code rest
  range_eq : range.range = s.range
  wide : s.Wide
  moderate : m.Moderate
  tracks : ∀ context : Context, range.probabilities[context.index]? = some (m context)

namespace Bcj2Range

variable {range : Bcj2Range} {s : Interval} {m : Model Context} {n number : Nat}

/-- The probabilities are read and written under the index of a context. -/
theorem tracks_set {probabilities : List Nat}
    (h : ∀ context : Context, probabilities[context.index]? = some (m context)) (context : Context)
    (probability : Nat) (other : Context) :
    (probabilities.set context.index probability)[other.index]?
      = some (Function.update m context probability other) := by
  by_cases hother : other = context
  · subst hother
    have hlt := (List.getElem?_eq_some_iff.mp (h other)).1
    rw [List.getElem?_set_self hlt, Function.update_self]
  · rw [List.getElem?_set_ne fun heq => hother (index_injective heq).symm,
      Function.update_of_ne hother, h other]

/-- The new range and code, up to the byte that may still have to be read. -/
theorem normalize_at {tag : Tag Context} {bit : Bool} {input : Bcj2Cursor} {code : Nat}
    {rest : Bytes} {probabilities : List Nat} (hinput : input.Ahead rest)
    (hfollows : Follows s n number code rest) (hwide : s.Wide) (hm : m.Moderate)
    (hcode : (s.code m tag bit).Holds n number)
    (htracks : ∀ context : Context, probabilities[context.index]? = some (m.adapt tag bit context)) :
    ∃ next, (normalize ⟨input, m.width s.range tag bit, code - m.offset s.range tag bit,
        probabilities⟩).result = .ok next ∧ next.At (s.code m tag bit) (m.adapt tag bit) n number := by
  obtain ⟨hlow, hhigh, hnext⟩ := hfollows.code hwide hm hcode
  have hwidth : m.width s.range tag bit < 2 ^ 32 := by
    have hfit := Model.offset_add_width_le hwide.1 hm tag bit
    have hword : s.range < 2 ^ 32 := hwide.2
    omega
  have hrange := Interval.range_code s m tag bit
  unfold normalize
  by_cases hnarrow : m.width s.range tag bit < 2 ^ 24
  · rw [if_pos hnarrow] at hnext hrange
    obtain ⟨byte, tail, hrest, hfollows⟩ := hnext
    rw [hrest] at hinput
    obtain ⟨next, hread, hahead⟩ := hinput.readByte
    rw [if_pos (show m.width s.range tag bit < 1 <<< 24 from hnarrow),
      Metered.result_bind_ok hread]
    refine ⟨_, rfl, ⟨tail, hahead, ?_⟩, ?_, hwide.code hm tag bit, hm.adapt tag bit, htracks⟩
    · show Follows _ n number (shiftIn (code - m.offset s.range tag bit) byte) tail
      rwa [shiftIn_eq (by omega)]
    · show (m.width s.range tag bit <<< 8) % 2 ^ 32 = _
      rw [hrange, Nat.shiftLeft_eq]
      omega
  · rw [if_neg hnarrow] at hnext hrange
    rw [if_neg (show ¬ m.width s.range tag bit < 1 <<< 24 from hnarrow)]
    exact ⟨_, rfl, ⟨rest, hinput, hnext⟩, hrange.symm, hwide.code hm tag bit, hm.adapt tag bit,
      htracks⟩

/-- One decision. -/
theorem At.decode (h : range.At s m n number) {context : Context} {bit : Bool}
    (hcode : (s.code m (.coded context) bit).Holds n number) :
    ∃ next, (range.decode context.index).result = .ok (bit, next) ∧
      next.At (s.code m (.coded context) bit) (m.adapt (.coded context) bit) n number := by
  obtain ⟨⟨rest, hinput, hfollows⟩, hrange, hwide, hm, htracks⟩ := h
  obtain ⟨hlow, hhigh, -⟩ := hfollows.code hwide hm hcode
  obtain ⟨hless, hmore⟩ := hm context
  have hsplit := Model.room_lower hwide.1 hm (.coded context)
  have hword : s.range < 2 ^ 32 := hwide.2
  have hshift : range.range >>> 11 * m context = m.lower s.range (.coded context) := by
    rw [hrange, Nat.shiftRight_eq_div_pow]
    rfl
  have hbound : checkedMul 32 (range.range >>> 11) (m context)
      = some (m.lower s.range (.coded context)) := by
    rw [← hshift]
    exact checkedMul_of_lt (by omega)
  unfold Bcj2Range.decode
  rw [htracks, Metered.result_bind_ok (result_orFormat_some _ _), hbound,
    Metered.result_bind_ok (result_orFormat_some _ _)]
  cases bit with
  | false =>
      have hcase : range.code < m.lower s.range (.coded context) := by
        have hzero : m.offset s.range (.coded context) false = 0 := rfl
        rwa [hzero, Nat.zero_add] at hhigh
      have hsum : checkedAdd 32 (m context) ((2048 - m context) >>> 5)
          = some (m context + (2048 - m context) / 32) := by
        rw [Nat.shiftRight_eq_div_pow]
        exact checkedAdd_of_lt (by omega)
      obtain ⟨next, hnext, hat⟩ := normalize_at hinput hfollows hwide hm hcode
        (tracks_set htracks context _)
      refine ⟨next, ?_, hat⟩
      rw [if_pos hcase, hsum, Metered.result_bind_ok (result_orFormat_some _ _)]
      exact Metered.bind_eq_ok.mpr ⟨next, hnext, rfl⟩
  | true =>
      have hcase : m.lower s.range (.coded context) ≤ range.code := hlow
      have hprobability : checkedSub (m context) (m context >>> 5)
          = some (m context - m context / 32) := by
        rw [Nat.shiftRight_eq_div_pow]
        exact checkedSub_of_le (by omega)
      obtain ⟨next, hnext, hat⟩ := normalize_at hinput hfollows hwide hm hcode
        (tracks_set htracks context _)
      refine ⟨next, ?_, hat⟩
      rw [if_neg (by omega), hrange, checkedSub_of_le (by omega),
        Metered.result_bind_ok (result_orFormat_some _ _), checkedSub_of_le hcase,
        Metered.result_bind_ok (result_orFormat_some _ _), hprobability,
        Metered.result_bind_ok (result_orFormat_some _ _)]
      exact Metered.bind_eq_ok.mpr ⟨next, hnext, rfl⟩

end Bcj2Range

/-! ### The loop -/

/-- Where the decoder stands when it has written `done` and this encoding is to come. -/
structure Bcj2State.Stage (state : Bcj2State) (s : Interval) (m : Model Context) (n number : Nat)
    (done : Bytes) (previous : UInt8) (e : Encoding) : Prop where
  main : state.main.Ahead e.main
  call : state.call.Ahead e.call
  jump : state.jump.Ahead e.jump
  range : state.range.At s m n number
  holds : (s.codeAll m e.decisions).Holds n number
  output : state.output = done
  previous : state.previous = previous
  written : state.written = UInt32.ofNat done.length

theorem reserveOutput_of_le {output : Bytes} {additional maximum : Nat}
    (hlt : output.length + additional < 2 ^ 64) (hle : output.length + additional ≤ maximum) :
    (reserveOutput output additional maximum).result = .ok () := by
  rw [reserveOutput, checkedAdd_of_lt hlt, Metered.result_bind_ok (result_orFormat_some _ _)]
  exact checkLimit_of_le hle _

theorem ofNat_length_append (done more : Bytes) :
    UInt32.ofNat (done ++ more).length = UInt32.ofNat done.length + UInt32.ofNat more.length := by
  rw [List.length_append, UInt32.ofNat_add]

/-- The operand that a decoder writes, and its high byte. -/
theorem operand_written (b₁ b₂ b₃ b₄ : UInt8) :
    u32ToLe (u32FromLe [b₁, b₂, b₃, b₄]) = [b₁, b₂, b₃, b₄] ∧
      (wordToByte (u32FromLe [b₁, b₂, b₃, b₄] >>> 24)
        "BCJ2 previous byte is not representable").result = .ok b₄ := by
  have hbytes : u32ToLe (u32FromLe [b₁, b₂, b₃, b₄]) = [b₁, b₂, b₃, b₄] := u32ToLe_fromLe rfl
  have hhigh : (u32FromLe [b₁, b₂, b₃, b₄] >>> 24).toUInt8 = b₄ := by
    injection hbytes with _ hbytes
    injection hbytes with _ hbytes
    injection hbytes with _ hbytes
    injection hbytes
  have hlt : (u32FromLe [b₁, b₂, b₃, b₄] >>> 24).toNat < 256 := by
    rw [UInt32.toNat_shiftRight]
    show (u32FromLe [b₁, b₂, b₃, b₄]).toNat >>> 24 < 256
    rw [Nat.shiftRight_eq_div_pow]
    have hword := (u32FromLe [b₁, b₂, b₃, b₄]).toNat_lt
    omega
  refine ⟨hbytes, ?_⟩
  rw [CompatibilityFilters.wordToByte_eq hlt, hhigh]

namespace Bcj2State

variable {state : Bcj2State} {s : Interval} {m : Model Context} {n number maximum : Nat}
  {done : Bytes} {previous byte : UInt8} {e : Encoding}

/-- The decision that an encoding starts with. -/
theorem holds_decision {range : Bcj2Range} {tag : Tag Context} {bit : Bool}
    {rest : List (Tag Context × Bool)} (h : range.At s m n number)
    (hall : (s.codeAll m ((tag, bit) :: rest)).Holds n number) :
    (s.code m tag bit).Holds n number :=
  Interval.holds_of_codeAll (h.wide.code h.moderate tag bit) (h.moderate.adapt tag bit) hall

/-- The bytes of the main stream, up to the decision. -/
theorem step_eq {converted : Bool}
    (h : state.Stage s m n number done previous (e.keep previous byte converted))
    (hlt : done.length + 1 < 2 ^ 64) (hle : done.length + 1 ≤ maximum) :
    ∃ main, main.Ahead e.main ∧ (state.step maximum).result
      = (if isBcj2Branch previous byte then
          branch maximum { state with
            main, output := done ++ [byte], written := UInt32.ofNat (done.length + 1) } byte
        else pure { state with
            main, output := done ++ [byte], written := UInt32.ofNat (done.length + 1),
            previous := byte }).result := by
  obtain ⟨hmain, -, -, -, -, houtput, hprevious, hwritten⟩ := h
  obtain ⟨main, hread, hahead⟩ := hmain.readByte
  refine ⟨main, hahead, ?_⟩
  have hnext : state.written + 1 = UInt32.ofNat (done.length + 1) := by
    rw [hwritten, UInt32.ofNat_add]
    rfl
  rw [step, Metered.result_bind_ok hread]
  show ((reserveOutput state.output 1 maximum) >>= _).result = _
  rw [Metered.result_bind_ok (reserveOutput_of_le (by rwa [houtput]) (by rwa [houtput])), hprevious,
    houtput, hnext]

/-- A byte that is kept, with the decision against converting what follows it. -/
theorem step_keep (h : state.Stage s m n number done previous (e.keep previous byte false))
    (hlt : done.length + 1 < 2 ^ 64) (hle : done.length + 1 ≤ maximum) :
    ∃ next t l, (state.step maximum).result = .ok next ∧
      next.Stage t l n number (done ++ [byte]) byte e := by
  obtain ⟨main, hmain, hstep⟩ := step_eq h hlt hle
  obtain ⟨-, hcall, hjump, hrange, hholds, -, hprevious, -⟩ := h
  have hlength : (done ++ [byte]).length = done.length + 1 := List.length_append
  by_cases hbranch : Bcj2.IsBranch previous byte
  · have hdecisions : (e.keep previous byte false).decisions
        = (.coded (Bcj2.context previous byte), false) :: e.decisions := if_pos hbranch
    rw [hdecisions] at hholds
    obtain ⟨range, hdecode, hat⟩ := hrange.decode (holds_decision hrange hholds)
    rw [index_context] at hdecode
    refine ⟨⟨main, state.call, state.jump, range, done ++ [byte], byte,
      UInt32.ofNat (done.length + 1)⟩, _, _, ?_, hmain, hcall, hjump, hat, hholds, rfl, rfl,
      by rw [hlength]⟩
    rw [hstep, if_pos ((isBcj2Branch_iff previous byte).mpr hbranch), branch]
    show ((state.range.decode (bcj2ProbabilityIndex state.previous byte)) >>= _).result = _
    rw [hprevious, Metered.result_bind_ok hdecode]
    rfl
  · have hdecisions : (e.keep previous byte false).decisions = e.decisions := if_neg hbranch
    rw [hdecisions] at hholds
    refine ⟨⟨main, state.call, state.jump, state.range, done ++ [byte], byte,
      UInt32.ofNat (done.length + 1)⟩, s, m, ?_, hmain, hcall, hjump, hrange, hholds, rfl, rfl,
      by rw [hlength]⟩
    rw [hstep, if_neg (mt (isBcj2Branch_iff previous byte).mp hbranch)]
    rfl

/-- The operand of a branch that was converted comes from the stream of its kind. -/
theorem readOperand_eq {target : UInt32} (hcall : state.call.Ahead (e.aim byte target).call)
    (hjump : state.jump.Ahead (e.aim byte target).jump) :
    ∃ call jump, call.Ahead e.call ∧ jump.Ahead e.jump ∧
      (state.readOperand byte).result = .ok (target, { state with call, jump }) := by
  unfold Encoding.aim at hcall hjump
  unfold readOperand
  by_cases hopcode : byte = 0xe8
  · rw [if_pos hopcode] at hcall hjump ⊢
    obtain ⟨call, hread, hahead⟩ := hcall.readU32Be
    exact ⟨call, state.jump, hahead, hjump, Metered.bind_eq_ok.mpr ⟨_, hread, rfl⟩⟩
  · rw [if_neg hopcode] at hcall hjump ⊢
    obtain ⟨jump, hread, hahead⟩ := hjump.readU32Be
    exact ⟨state.call, jump, hcall, hahead, Metered.bind_eq_ok.mpr ⟨_, hread, rfl⟩⟩

theorem aim_main (byte : UInt8) (target : UInt32) (e : Encoding) :
    (e.aim byte target).main = e.main ∧ (e.aim byte target).decisions = e.decisions := by
  unfold Encoding.aim
  split <;> exact ⟨rfl, rfl⟩

/-- A branch that was converted, with its operand. -/
theorem step_aim {b₁ b₂ b₃ b₄ : UInt8} (hbranch : Bcj2.IsBranch previous byte)
    (h : state.Stage s m n number done previous ((e.aim byte
      (u32FromLe [b₁, b₂, b₃, b₄] + UInt32.ofNat (done.length + 5))).keep previous byte true))
    (hlt : done.length + 5 < 2 ^ 64) (hle : done.length + 5 ≤ maximum) :
    ∃ next t l, (state.step maximum).result = .ok next ∧
      next.Stage t l n number (done ++ [byte, b₁, b₂, b₃, b₄]) b₄ e := by
  have hone : done.length + 1 ≤ maximum := by omega
  obtain ⟨main, hmain, hstep⟩ := step_eq h (by omega) hone
  obtain ⟨-, hcall, hjump, hrange, hholds, -, hprevious, -⟩ := h
  obtain ⟨hsame, hdecided⟩ := aim_main byte
    (u32FromLe [b₁, b₂, b₃, b₄] + UInt32.ofNat (done.length + 5)) e
  have hdecisions : ((e.aim byte (u32FromLe [b₁, b₂, b₃, b₄]
      + UInt32.ofNat (done.length + 5))).keep previous byte true).decisions
      = (.coded (Bcj2.context previous byte), true) :: e.decisions := by
    rw [Encoding.keep, hdecided]
    exact if_pos hbranch
  rw [hdecisions] at hholds
  rw [hsame] at hmain
  obtain ⟨range, hdecode, hat⟩ := hrange.decode (holds_decision hrange hholds)
  rw [index_context] at hdecode
  let inner : Bcj2State := ⟨main, state.call, state.jump, range, done ++ [byte], previous,
    UInt32.ofNat (done.length + 1)⟩
  obtain ⟨call, jump, hcall, hjump, hread⟩ := @readOperand_eq inner byte e _ hcall hjump
  obtain ⟨hoperand, hhigh⟩ := operand_written b₁ b₂ b₃ b₄
  have hfive : UInt32.ofNat (done.length + 1) + 4 = UInt32.ofNat (done.length + 5) := by
    rw [UInt32.ofNat_add, UInt32.ofNat_add, UInt32.add_assoc]
    rfl
  have hdestination : u32FromLe [b₁, b₂, b₃, b₄] + UInt32.ofNat (done.length + 5)
      - (UInt32.ofNat (done.length + 1) + 4) = u32FromLe [b₁, b₂, b₃, b₄] := by
    rw [hfive, UInt32.add_sub_cancel]
  have hreserve : (reserveOutput (done ++ [byte]) 4 maximum).result = .ok () := by
    refine reserveOutput_of_le ?_ ?_ <;> rw [List.length_append, List.length_singleton] <;> omega
  refine ⟨⟨main, call, jump, range, done ++ [byte, b₁, b₂, b₃, b₄], b₄,
    UInt32.ofNat (done.length + 1) + 4⟩, _, _, ?_, hmain, hcall, hjump, hat, hholds, rfl, rfl, ?_⟩
  · rw [hstep, if_pos ((isBcj2Branch_iff previous byte).mpr hbranch), branch]
    show ((state.range.decode (bcj2ProbabilityIndex state.previous byte)) >>= _).result = _
    rw [hprevious, Metered.result_bind_ok hdecode]
    show ((inner.readOperand byte) >>= _).result = _
    rw [Metered.result_bind_ok hread]
    show ((reserveOutput (done ++ [byte]) 4 maximum) >>= _).result = _
    rw [Metered.result_bind_ok hreserve]
    show ((wordToByte ((_ - (UInt32.ofNat (done.length + 1) + 4)) >>> 24) _) >>= _).result = _
    rw [hdestination, Metered.result_bind_ok hhigh]
    show Except.ok _ = Except.ok _
    rw [hoperand, List.append_assoc]
    rfl
  · show UInt32.ofNat (done.length + 1) + 4 = _
    rw [hfive, List.length_append]
    rfl

/-- From every stage in front of these bytes the loop writes them and uses its inputs up. -/
def Finishes (n number maximum position : Nat) (previous : UInt8) (rest : Bytes) (e : Encoding) :
    Prop :=
  ∀ (state : Bcj2State) (s : Interval) (m : Model Context) (done : Bytes) (fuel : Nat),
    done.length = position → state.Stage s m n number done previous e → e.main.length < fuel →
    position + rest.length < 2 ^ 64 → position + rest.length ≤ maximum →
    ∃ last, (state.run maximum fuel).result = .ok last ∧ last.output = done ++ rest ∧
      last.main.isFinished ∧ last.call.isFinished ∧ last.jump.isFinished

theorem finishes_nil (n number maximum position : Nat) (previous : UInt8) :
    Finishes n number maximum position previous [] ⟨[], [], [], []⟩ := by
  intro state s m done fuel hposition hstage hfuel hlt hle
  obtain ⟨fuel, rfl⟩ : ∃ less, fuel = less + 1 := ⟨fuel - 1, by omega⟩
  refine ⟨state, ?_, ?_, hstage.main.isFinished_eq, hstage.call.isFinished_eq,
    hstage.jump.isFinished_eq⟩
  · rw [run, hstage.main.isFinished_eq]
    rfl
  · rw [hstage.output, List.append_nil]

/-- A round that is not the last. -/
theorem run_step {next : Bcj2State} {rest : Bytes} (hmain : state.main.Ahead (byte :: rest))
    (hnext : (state.step maximum).result = .ok next) (fuel : Nat) :
    (state.run maximum (fuel + 1)).result = (next.run maximum fuel).result := by
  rw [run, hmain.isFinished_eq]
  exact Metered.result_bind_ok hnext

theorem Finishes.keep {position : Nat} {rest : Bytes} {e : Encoding}
    (h : Finishes n number maximum (position + 1) byte rest e) :
    Finishes n number maximum position previous (byte :: rest) (e.keep previous byte false) := by
  intro state s m done fuel hposition hstage hfuel hlt hle
  obtain ⟨fuel, rfl⟩ : ∃ less, fuel = less + 1 := ⟨fuel - 1, by omega⟩
  subst hposition
  rw [List.length_cons] at hlt hle
  have hroom : done.length + 1 ≤ maximum := by omega
  obtain ⟨next, t, l, hstep, hnext⟩ := step_keep hstage (by omega) hroom
  obtain ⟨last, hrun, houtput, hfinished⟩ := h next t l _ fuel List.length_append hnext
    (Nat.lt_of_succ_lt_succ hfuel) (by omega) (by omega)
  refine ⟨last, ?_, ?_, hfinished⟩
  · rw [run_step hstage.main hstep, hrun]
  · rw [houtput, List.append_assoc]
    rfl

theorem Finishes.aim {position : Nat} {b₁ b₂ b₃ b₄ : UInt8} {rest : Bytes} {e : Encoding}
    (hbranch : Bcj2.IsBranch previous byte) (h : Finishes n number maximum (position + 5) b₄ rest e) :
    Finishes n number maximum position previous (byte :: b₁ :: b₂ :: b₃ :: b₄ :: rest)
      ((e.aim byte (u32FromLe [b₁, b₂, b₃, b₄] + UInt32.ofNat (position + 5))).keep previous byte
        true) := by
  intro state s m done fuel hposition hstage hfuel hlt hle
  obtain ⟨fuel, rfl⟩ : ∃ less, fuel = less + 1 := ⟨fuel - 1, by omega⟩
  subst hposition
  simp only [List.length_cons] at hlt hle
  have hroom : done.length + 5 ≤ maximum := by omega
  have hmain := hstage.main
  rw [Encoding.keep, (aim_main _ _ e).1] at hmain hfuel
  obtain ⟨next, t, l, hstep, hnext⟩ := step_aim hbranch hstage (by omega) hroom
  obtain ⟨last, hrun, houtput, hfinished⟩ := h next t l _ fuel List.length_append hnext
    (Nat.lt_of_succ_lt_succ hfuel) (by omega) (by omega)
  refine ⟨last, ?_, ?_, hfinished⟩
  · rw [run_step hmain hstep, hrun]
  · rw [houtput, List.append_assoc]
    rfl

/-- The loop undoes the encoding. -/
theorem finishes_encodeFrom (n number maximum : Nat) (convert : Nat → Bool) (position : Nat)
    (previous : UInt8) (rest : Bytes) :
    Finishes n number maximum position previous rest
      (encodeFrom convert position previous rest) := by
  fun_induction encodeFrom convert position previous rest with
  | case1 position previous byte b₁ b₂ b₃ b₄ rest hconvert ih => exact .aim hconvert.1 ih
  | case2 position previous byte b₁ b₂ b₃ b₄ rest hconvert ih => exact .keep ih
  | case3 position previous byte rest hshort ih => exact .keep ih
  | case4 position previous => exact finishes_nil n number maximum position previous

end Bcj2State

/-! ### The whole -/

namespace Bcj2

/-- No stream is longer than what is encoded. -/
structure Encoding.Fits (e : Encoding) (length : Nat) : Prop where
  main : e.main.length ≤ length
  call : e.call.length ≤ length
  jump : e.jump.length ≤ length
  decisions : e.decisions.length ≤ length

theorem Encoding.Fits.keep {e : Encoding} {length : Nat} (h : e.Fits length)
    (previous byte : UInt8) (converted : Bool) :
    (e.keep previous byte converted).Fits (length + 1) := by
  refine ⟨Nat.succ_le_succ h.main, Nat.le_succ_of_le h.call, Nat.le_succ_of_le h.jump, ?_⟩
  unfold Encoding.keep
  split
  · exact Nat.succ_le_succ h.decisions
  · exact Nat.le_succ_of_le h.decisions

theorem Encoding.Fits.aim {e : Encoding} {length : Nat} (h : e.Fits length) (byte : UInt8)
    (target : UInt32) : (e.aim byte target).Fits (length + 4) := by
  have hword (rest : Bytes) (hrest : rest.length ≤ length) :
      (u32ToBe target ++ rest).length ≤ length + 4 := by
    rw [List.length_append, Nat.add_comm]
    exact Nat.add_le_add_right hrest 4
  have hmore {n : Nat} (hn : n ≤ length) : n ≤ length + 4 := Nat.le_add_right_of_le hn
  unfold Encoding.aim
  split
  · exact ⟨hmore h.main, hword _ h.call, hmore h.jump, hmore h.decisions⟩
  · exact ⟨hmore h.main, hmore h.call, hword _ h.jump, hmore h.decisions⟩

theorem fits_encodeFrom (convert : Nat → Bool) (position : Nat) (previous : UInt8) (rest : Bytes) :
    (encodeFrom convert position previous rest).Fits rest.length := by
  fun_induction encodeFrom convert position previous rest with
  | case1 position previous byte b₁ b₂ b₃ b₄ rest hconvert ih =>
      exact (ih.aim byte _).keep previous byte true
  | case2 position previous byte b₁ b₂ b₃ b₄ rest hconvert ih => exact ih.keep previous byte false
  | case3 position previous byte rest hshort ih => exact ih.keep previous byte false
  | case4 => exact ⟨Nat.le_refl _, Nat.le_refl _, Nat.le_refl _, Nat.le_refl _⟩

end Bcj2

theorem foldl_shiftIn (bytes : Bytes) : ∀ code, code * 256 ^ bytes.length + value bytes < 2 ^ 32 →
    bytes.foldl shiftIn code = code * 256 ^ bytes.length + value bytes := by
  induction bytes with
  | nil => intro code h; exact (Nat.mul_one code).symm
  | cons byte rest ih =>
      intro code h
      have hsplit : code * 256 ^ (byte :: rest).length + value (byte :: rest)
          = (code * 256 + byte.toNat) * 256 ^ rest.length + value rest := by
        rw [value, List.length_cons, Nat.pow_succ', ← Nat.mul_assoc, Nat.add_mul, Nat.add_assoc]
      rw [hsplit] at h ⊢
      have hone : code * 256 + byte.toNat ≤ (code * 256 + byte.toNat) * 256 ^ rest.length :=
        Nat.le_mul_of_pos_right _ (Nat.pow_pos (by decide))
      rw [List.foldl_cons, shiftIn_eq (by omega), ih _ h]

/-- The decoder starts by reading the first five digits of the number. -/
theorem new_at {bits : List (Tag Context × Bool)} (hlt : bits.length + 5 < 2 ^ 64) :
    ∃ range n number, (Bcj2Range.new (RangeCoder.encode bits)).result = .ok range ∧
      range.At Interval.start Model.start n number ∧
      (Interval.start.codeAll Model.start bits).Holds n number := by
  obtain ⟨n, number, hencode, hn, hholds⟩ := encode_eq bits
  have hstart := Interval.holds_of_codeAll Interval.wide_start Model.moderate_start hholds
  obtain ⟨hdigits, hword, hfollows⟩ := follows_start hstart
  have hlength : (RangeCoder.encode bits).length < 2 ^ 64 := by
    rw [hencode, length_digits]
    omega
  have hbytes : RangeCoder.encode bits
      = (0 :: digits 4 (number / 256 ^ n)) ++ digits n number := hencode.trans hdigits
  have hahead := Bcj2Cursor.ahead_new hlength
  rw [hbytes] at hahead ⊢
  obtain ⟨input, hread, hinput⟩ := hahead.readBytes
  have hfive : ((0 : UInt8) :: digits 4 (number / 256 ^ n)).length = 5 := by
    rw [List.length_cons, length_digits]
  rw [hfive] at hread
  have hcode : ((0 : UInt8) :: digits 4 (number / 256 ^ n)).foldl shiftIn 0 = number / 256 ^ n := by
    have hvalue : value (0 :: digits 4 (number / 256 ^ n)) = number / 256 ^ n := by
      have hfour : number / 256 ^ n < 256 ^ 4 := hword
      rw [value, value_digits, Nat.mod_eq_of_lt hfour, show UInt8.toNat 0 = 0 from rfl,
        Nat.zero_mul, Nat.zero_add]
    rw [foldl_shiftIn _ 0 (by omega), hvalue]
    omega
  refine ⟨_, n, number, Metered.bind_eq_ok.mpr ⟨_, hread, rfl⟩, ⟨⟨_, hinput, ?_⟩, rfl,
    Interval.wide_start, Model.moderate_start, ?_⟩, hholds⟩
  · show Follows _ n number (((0 : UInt8) :: digits 4 (number / 256 ^ n)).foldl shiftIn 0) _
    rwa [hcode]
  · intro context
    have hindex : context.index < 258 := by
      cases context with
      | call previous => exact Nat.lt_of_lt_of_le previous.toNat_lt (by decide)
      | jump => decide
      | conditional => decide
    exact List.getElem?_replicate_of_lt hindex

/-- The decoder gives back what was encoded, and uses its streams up. -/
theorem decodeBcj2_encode (convert : Nat → Bool) {plaintext : Bytes} {maximum : Nat}
    (hlength : plaintext.length < 2 ^ 63) (hmaximum : plaintext.length ≤ maximum) :
    (decodeBcj2 (Bcj2.encode convert plaintext) [] (some plaintext.length) maximum).result
        = .ok plaintext ∧
      ∃ last, (runBcj2 (encodeFrom convert 0 0 plaintext).main (encodeFrom convert 0 0 plaintext).call
          (encodeFrom convert 0 0 plaintext).jump
          (RangeCoder.encode (encodeFrom convert 0 0 plaintext).decisions) maximum).result = .ok last ∧
        last.main.isFinished ∧ last.call.isFinished ∧ last.jump.isFinished := by
  obtain ⟨hmain, hcall, hjump, hdecisions⟩ := Bcj2.fits_encodeFrom convert 0 0 plaintext
  obtain ⟨range, n, number, hnew, hat, hholds⟩ :=
    @new_at (encodeFrom convert 0 0 plaintext).decisions (by omega)
  have hstage : Bcj2State.Stage ⟨Bcj2Cursor.new (encodeFrom convert 0 0 plaintext).main,
      Bcj2Cursor.new (encodeFrom convert 0 0 plaintext).call,
      Bcj2Cursor.new (encodeFrom convert 0 0 plaintext).jump, range, [], 0, 0⟩ Interval.start
      Model.start n number [] 0 (encodeFrom convert 0 0 plaintext) :=
    ⟨Bcj2Cursor.ahead_new (by omega), Bcj2Cursor.ahead_new (by omega),
      Bcj2Cursor.ahead_new (by omega), hat, hholds, rfl, rfl, rfl⟩
  obtain ⟨last, hrun, houtput, hmain, hcall, hjump⟩ :=
    Bcj2State.finishes_encodeFrom n number maximum convert 0 0 plaintext _ _ _ [] _ rfl hstage
      (Nat.lt_succ_self _) (by omega) (by omega)
  have hwhole : (runBcj2 (encodeFrom convert 0 0 plaintext).main
      (encodeFrom convert 0 0 plaintext).call (encodeFrom convert 0 0 plaintext).jump
      (RangeCoder.encode (encodeFrom convert 0 0 plaintext).decisions) maximum).result = .ok last :=
    Metered.bind_eq_ok.mpr ⟨range, hnew, hrun⟩
  refine ⟨?_, last, hwhole, hmain, hcall, hjump⟩
  have hsize : tryFrom 64 plaintext.length = some plaintext.length := tryFrom_of_lt (by omega)
  have hfinished : (!last.call.isFinished || !last.jump.isFinished) = false := by
    rw [hcall, hjump]
    rfl
  have hdeclared : ¬ (some plaintext.length).any (· ≠ last.output.length) = true := by
    rw [houtput, List.nil_append]
    simp
  rw [decodeBcj2, if_neg (by decide)]
  refine Metered.bind_eq_ok.mpr ⟨_, rfl, Metered.bind_eq_ok.mpr ⟨_, rfl,
    Metered.bind_eq_ok.mpr ⟨_, rfl, Metered.bind_eq_ok.mpr ⟨_, rfl, ?_⟩⟩⟩⟩
  rw [if_neg (show ¬ (Bcj2.encode convert plaintext).length ≠ 4 from not_not_intro rfl),
    Option.getD_some, Metered.result_bind_ok (checkLimit_of_le hmaximum _), hsize,
    Metered.result_bind_ok (result_orFormat_some _ _), Metered.result_bind_ok hwhole, hfinished,
    if_neg (by decide), if_neg hdeclared, houtput]
  rfl

/-- Six bytes with a call that is converted. -/
theorem decodeBcj2_encode_call :
    (decodeBcj2 (Bcj2.encode (fun _ => true) [0xe8, 1, 0, 0, 0, 0x90]) [] (some 6) 6).result
        = .ok [0xe8, 1, 0, 0, 0, 0x90] ∧
      ∃ last, (runBcj2 (encodeFrom (fun _ => true) 0 0 [0xe8, 1, 0, 0, 0, 0x90]).main
          (encodeFrom (fun _ => true) 0 0 [0xe8, 1, 0, 0, 0, 0x90]).call
          (encodeFrom (fun _ => true) 0 0 [0xe8, 1, 0, 0, 0, 0x90]).jump
          (RangeCoder.encode
            (encodeFrom (fun _ => true) 0 0 [0xe8, 1, 0, 0, 0, 0x90]).decisions) 6).result = .ok last ∧
        last.main.isFinished ∧ last.call.isFinished ∧ last.jump.isFinished :=
  decodeBcj2_encode _ (by decide) (by decide)

/-- Its operand goes to the call stream, as the target it has there. -/
example : Bcj2.encode (fun _ => true) [0xe8, 1, 0, 0, 0, 0x90]
    = [[0xe8, 0x90], [0, 0, 0, 6], [], [0, 0x7f, 0xff, 0xfc, 0]] := by
  decide +kernel

end Filters

end Un7z
