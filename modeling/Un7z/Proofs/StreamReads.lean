/-
What the reads of a `StreamCursor` read.

A stream cursor differs from a `BoundedReader` in the errors it gives and in nothing
else.  Its primitives are described twice, because they are compared with two kinds of
code: by position, next to a parser that works with offsets into the whole input
(`readBytes_eq_ok` and the like), and by the word in front of the cursor, for what
follows from the grammar of a stream (`local_readBytes` and the like).
-/
import Un7z.Proofs.Reads
import Un7z.Stream

namespace Un7z

open Cursor (Decodes Local Valid rest)

namespace StreamCursor

instance : Cursor StreamCursor UInt8 where
  rest := ahead
  Valid cursor := cursor.bytes.length < 2 ^ 64

/-- `length` bytes were read: what is left of the cursor. -/
def Advanced (cursor next : StreamCursor) (length : Nat) : Prop :=
  next.bytes = cursor.bytes ∧ next.format = cursor.format ∧ next.position = cursor.position + length

variable {cursor next : StreamCursor}

theorem ext_of_advanced {next' : StreamCursor} {length : Nat} (h : cursor.Advanced next length)
    (h' : cursor.Advanced next' length) : next = next' := by
  obtain ⟨hbytes, hformat, hposition⟩ := h
  obtain ⟨hbytes', hformat', hposition'⟩ := h'
  cases next
  cases next'
  simp_all

theorem Advanced.trans {last : StreamCursor} {m n : Nat} (h : cursor.Advanced next m)
    (h' : next.Advanced last n) : cursor.Advanced last (m + n) :=
  ⟨h'.1.trans h.1, h'.2.1.trans h.2.1, by rw [h'.2.2, h.2.2, Nat.add_assoc]⟩

theorem Advanced.rest {last : StreamCursor} {m n : Nat} (h : cursor.Advanced next m)
    (h' : cursor.Advanced last (m + n)) : next.Advanced last n :=
  ⟨h'.1.trans h.1.symm, h'.2.1.trans h.2.1.symm, by rw [h'.2.2, h.2.2, Nat.add_assoc]⟩

/-- What was read, and what is left, make up what lay ahead. -/
theorem Advanced.ahead {length : Nat} (h : cursor.Advanced next length) :
    cursor.ahead = cursor.ahead.take length ++ next.ahead := by
  have hnext : next.ahead = cursor.ahead.drop length := by
    rw [StreamCursor.ahead, StreamCursor.ahead, h.1, h.2.2, List.drop_drop]
  rw [hnext, List.take_append_drop]

/-- There is room to read, and reading stays inside a `usize`. -/
def Holds (cursor : StreamCursor) (length : Nat) : Prop :=
  cursor.position + length < 2 ^ 64 ∧ cursor.position + length ≤ cursor.bytes.length

theorem exists_advanced {length : Nat} (h : cursor.Holds length) :
    ∃ next, cursor.Advanced next length :=
  ⟨⟨cursor.bytes, cursor.position + length, h.2, cursor.format⟩, rfl, rfl, rfl⟩

theorem Holds.mono {m n : Nat} (h : cursor.Holds n) (hmn : m ≤ n) : cursor.Holds m :=
  ⟨by have := h.1; omega, by have := h.2; omega⟩

/-- Room for a whole is room for its parts. -/
theorem holds_add {m n : Nat} (h : cursor.Advanced next m) :
    next.Holds n ↔ cursor.Holds (m + n) := by
  rw [Holds, Holds, h.1, h.2.2, Nat.add_assoc]

theorem holds_iff (hvalid : Valid cursor) {length : Nat} :
    cursor.Holds length ↔ length ≤ cursor.ahead.length := by
  have hlt : cursor.bytes.length < 2 ^ 64 := hvalid
  have hle := cursor.position_le
  rw [Holds, length_ahead]
  omega

/-! ### By position -/

theorem readBytes_eq_ok {length : Nat} {detail : String} {bytes : Bytes} :
    (StreamCursor.readBytes length detail cursor).result = .ok (bytes, next) ↔
      cursor.Holds length ∧ bytes = cursor.ahead.take length ∧ cursor.Advanced next length := by
  unfold StreamCursor.readBytes Holds
  by_cases hlt : cursor.position + length < 2 ^ 64
  · by_cases hle : cursor.position + length ≤ cursor.bytes.length
    · rcases next with ⟨nextBytes, position, hposition, format⟩
      simp only [checkedAdd_of_lt hlt, dif_pos hle, Metered.result_pure, Except.ok.injEq,
        Prod.mk.injEq, StreamCursor.mk.injEq, Advanced]
      constructor
      · rintro ⟨rfl, rfl, rfl, rfl⟩
        exact ⟨⟨hlt, hle⟩, rfl, rfl, rfl, rfl⟩
      · rintro ⟨-, rfl, rfl, rfl, rfl⟩
        exact ⟨rfl, rfl, rfl, rfl⟩
    · simp only [checkedAdd_of_lt hlt, dif_neg hle, result_streamFormatErr]
      exact ⟨fun h => absurd h (by simp), fun h => absurd h.1.2 hle⟩
  · have hnone : checkedAdd 64 cursor.position length = none := if_neg hlt
    simp only [hnone, result_streamFormatErr]
    exact ⟨fun h => absurd h (by simp), fun h => absurd h.1.1 hlt⟩

theorem length_of_holds {length : Nat} (h : cursor.Holds length) :
    (cursor.ahead.take length).length = length := by
  rw [List.length_take, length_ahead]
  have := h.2
  omega

theorem skipU64_eq_ok {length : Nat} {detail : String} {u : Unit} :
    (skipU64 length detail cursor).result = .ok (u, next) ↔
      cursor.Holds length ∧ cursor.Advanced next length := by
  unfold skipU64
  rw [Cursor.bind_eq_ok]
  constructor
  · rintro ⟨bytes, s, hread, hpure⟩
    obtain ⟨-, rfl⟩ := Cursor.pure_eq_ok.mp hpure
    obtain ⟨hholds, -, hadvanced⟩ := readBytes_eq_ok.mp hread
    exact ⟨hholds, hadvanced⟩
  · rintro ⟨hholds, hadvanced⟩
    exact ⟨_, next, readBytes_eq_ok.mpr ⟨hholds, rfl, hadvanced⟩, rfl⟩

theorem readU8_eq_ok {detail : String} {byte : UInt8} :
    (StreamCursor.readU8 detail cursor).result = .ok (byte, next) ↔
      cursor.position + 1 < 2 ^ 64 ∧ cursor.bytes[cursor.position]? = some byte ∧
        cursor.Advanced next 1 := by
  unfold StreamCursor.readU8
  rw [Cursor.bind_eq_ok]
  have hhead : (cursor.ahead.take 1).head? = cursor.bytes[cursor.position]? := by
    rw [List.head?_take, if_neg (by decide), StreamCursor.ahead, List.head?_drop]
  constructor
  · rintro ⟨bytes, s, hread, hbyte⟩
    obtain ⟨hholds, rfl, hadvanced⟩ := readBytes_eq_ok.mp hread
    rw [hhead] at hbyte
    cases hget : cursor.bytes[cursor.position]? with
    | none =>
        rw [hget] at hbyte
        exact absurd hbyte (by simp [refuse])
    | some b =>
        rw [hget] at hbyte
        obtain ⟨rfl, rfl⟩ := Cursor.pure_eq_ok.mp hbyte
        exact ⟨hholds.1, rfl, hadvanced⟩
  · rintro ⟨hlt, hget, hadvanced⟩
    have hle : cursor.position < cursor.bytes.length := (List.getElem?_eq_some_iff.mp hget).1
    refine ⟨_, next, readBytes_eq_ok.mpr ⟨⟨hlt, hle⟩, rfl, hadvanced⟩, ?_⟩
    rw [hhead, hget]
    rfl

/-- A fixed-width value is the little-endian value of the bytes in front of the cursor. -/
theorem readWord_eq_ok {length value : Nat} {detail : String} {ok : Bytes → Prop}
    [DecidablePred ok] {refused : StreamReads Nat} (hrefused : ∀ s r, (refused s).result ≠ .ok r)
    (hok : ∀ bytes : Bytes, bytes.length = length → ok bytes) :
    ((do let bytes ← StreamCursor.readBytes length detail
         if ok bytes then (pure (leValue bytes) : StreamReads Nat) else refused) cursor).result
        = .ok (value, next) ↔
      cursor.Holds length ∧ value = leValue (cursor.ahead.take length) ∧
        cursor.Advanced next length := by
  rw [Cursor.bind_eq_ok]
  constructor
  · rintro ⟨bytes, s, hread, hvalue⟩
    obtain ⟨hholds, rfl, hadvanced⟩ := readBytes_eq_ok.mp hread
    by_cases h : ok (cursor.ahead.take length)
    · rw [if_pos h] at hvalue
      obtain ⟨rfl, rfl⟩ := Cursor.pure_eq_ok.mp hvalue
      exact ⟨hholds, rfl, hadvanced⟩
    · rw [if_neg h] at hvalue
      exact absurd hvalue (hrefused _ _)
  · rintro ⟨hholds, rfl, hadvanced⟩
    refine ⟨_, next, readBytes_eq_ok.mpr ⟨hholds, rfl, hadvanced⟩, ?_⟩
    rw [if_pos (hok _ (length_of_holds hholds))]
    rfl

theorem result_refuse {α : Type} (detail : String) (s : StreamCursor) (r : α × StreamCursor) :
    ((refuse detail : StreamReads α) s).result ≠ .ok r := by
  simp [refuse]

theorem readU24Le_eq_ok {detail : String} {value : Nat} :
    (readU24Le detail cursor).result = .ok (value, next) ↔
      cursor.Holds 3 ∧ value = leValue (cursor.ahead.take 3) ∧ cursor.Advanced next 3 :=
  readWord_eq_ok (result_refuse detail) fun _ h => h

theorem readU32Le_eq_ok {detail : String} {value : Nat} :
    (StreamCursor.readU32Le detail cursor).result = .ok (value, next) ↔
      cursor.Holds 4 ∧ value = leValue (cursor.ahead.take 4) ∧ cursor.Advanced next 4 :=
  readWord_eq_ok (result_refuse detail) fun _ h => h

theorem readLe_eq_ok {length value : Nat} {detail : String} (hlength : length ≤ 8) :
    (readLe length detail cursor).result = .ok (value, next) ↔
      cursor.Holds length ∧ value = leValue (cursor.ahead.take length) ∧
        cursor.Advanced next length :=
  readWord_eq_ok (result_refuse _) fun _ h => h.trans_le hlength

end StreamCursor

end Un7z
