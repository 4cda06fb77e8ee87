/-
The helpers of `parse_util.rs` and the CRC of `checksum.rs`.

A byte slice is a list.  Slicing by chunks is what the source does wherever it charges
work for bytes it touches, so `chunks` and the two facts about it — the pieces are the
whole, and none of them is empty or longer than asked — are used by every loop over
file data.
-/
import Mathlib.Data.List.Basic
import Un7z.Control

namespace Un7z

open Metered (fail)

def controlChunkSize : Nat := 4096

def formatError (detail : String) : Error := .format detail

/-- `return Err(format_error(detail))`. -/
def formatErr {α : Type} (detail : String) : Work α := fail (formatError detail)

@[simp] theorem result_formatErr {α : Type} (detail : String) :
    (formatErr detail : Work α).result = .error (formatError detail) := rfl

/-- A refusal that is passed. -/
@[simp] theorem refuse_eq_ok {α : Type} {c : Prop} [Decidable c] {e : Error} {m : Work α} {a : α} :
    (if c then fail e else m).result = .ok a ↔ ¬ c ∧ m.result = .ok a := by
  by_cases h : c <;> simp [h]

@[simp] theorem refuseFormat_eq_ok {α : Type} {c : Prop} [Decidable c] {detail : String}
    {m : Work α} {a : α} :
    (if c then formatErr detail else m).result = .ok a ↔ ¬ c ∧ m.result = .ok a :=
  refuse_eq_ok

/-- `ok_or_else(|| format_error(detail))?`. -/
def orFormat {α : Type} (value : Option α) (detail : String) : Work α :=
  match value with
  | some a => pure a
  | none => formatErr detail

@[simp] theorem result_orFormat_some {α : Type} (a : α) (detail : String) :
    (orFormat (some a) detail).result = .ok a := rfl

@[simp] theorem result_orFormat_none {α : Type} (detail : String) :
    (orFormat (none : Option α) detail).result = .error (formatError detail) := rfl

@[simp] theorem orFormat_eq_ok {α : Type} {value : Option α} {detail : String} {a : α} :
    (orFormat value detail).result = .ok a ↔ value = some a := by
  cases value <;> simp

/-! ### A `Result` without a control -/

theorem except_bind_eq_ok {ε α β : Type} {x : Except ε α} {f : α → Except ε β} {b : β} :
    (x >>= f) = .ok b ↔ ∃ a, x = .ok a ∧ f a = .ok b := by
  cases x <;> simp [bind, Except.bind]

@[simp] theorem except_ok_bind {ε α β : Type} (a : α) (f : α → Except ε β) :
    ((.ok a : Except ε α) >>= f) = f a := rfl

@[simp] theorem except_pure {ε α : Type} (a : α) : (pure a : Except ε α) = .ok a := rfl

/-- `Option::ok_or_else`. -/
def okOr {α : Type} (value : Option α) (error : Error) : Except Error α :=
  match value with
  | some a => .ok a
  | none => .error error

@[simp] theorem okOr_some {α : Type} (a : α) (error : Error) : okOr (some a) error = .ok a := rfl

@[simp] theorem okOr_eq_ok {α : Type} {value : Option α} {error : Error} {a : α} :
    okOr value error = .ok a ↔ value = some a := by
  cases value <;> simp [okOr]

/-- A refusal that is passed. -/
@[simp] theorem ite_error_eq_ok {ε α : Type} {c : Prop} [Decidable c] {e : ε} {x : Except ε α}
    {a : α} : (if c then .error e else x) = .ok a ↔ ¬ c ∧ x = .ok a := by
  by_cases h : c <;> simp [h]

def checkLimit (value maximum : Nat) (limit : LimitKind) : Work Unit :=
  if value > maximum then fail (.limitExceeded limit value maximum) else pure ()

@[simp] theorem checkLimit_eq_ok {value maximum : Nat} {limit : LimitKind} {u : Unit} :
    (checkLimit value maximum limit).result = .ok u ↔ value ≤ maximum := by
  by_cases h : value > maximum
  · simp [checkLimit, h]
  · simp [checkLimit, h]
    omega

theorem checkLimit_of_le {value maximum : Nat} (h : value ≤ maximum) (limit : LimitKind) :
    (checkLimit value maximum limit).result = .ok () :=
  checkLimit_eq_ok.mpr h

theorem checkLimit_eq_error {value maximum : Nat} {limit : LimitKind} {e : Error}
    (h : (checkLimit value maximum limit).result = .error e) :
    e = .limitExceeded limit value maximum := by
  by_cases hv : value > maximum <;> simp_all [checkLimit]

/-! ### Chunks -/

/-- The pieces of `slice::chunks`; `fuel` bounds how many there can be. -/
def chunksFrom {α : Type} (size : Nat) : Nat → List α → List (List α)
  | 0, _ => []
  | _ + 1, [] => []
  | fuel + 1, x :: xs =>
      (x :: xs).take size :: chunksFrom size fuel ((x :: xs).drop size)

def chunks {α : Type} (size : Nat) (bytes : List α) : List (List α) :=
  chunksFrom size bytes.length bytes

theorem flatten_chunksFrom {α : Type} {size : Nat} (hsize : 0 < size) :
    ∀ (fuel : Nat) (bytes : List α), bytes.length ≤ fuel →
      (chunksFrom size fuel bytes).flatten = bytes := by
  intro fuel
  induction fuel with
  | zero =>
      intro bytes h
      rw [List.eq_nil_of_length_eq_zero (Nat.le_zero.mp h)]
      rfl
  | succ fuel ih =>
      intro bytes h
      cases bytes with
      | nil => rfl
      | cons x xs =>
          rw [chunksFrom, List.flatten_cons, ih, List.take_append_drop]
          simp only [List.length_drop, List.length_cons] at h ⊢
          omega

/-- The chunks of a slice are the slice. -/
theorem flatten_chunks {α : Type} {size : Nat} (hsize : 0 < size) (bytes : List α) :
    (chunks size bytes).flatten = bytes :=
  flatten_chunksFrom hsize _ bytes (Nat.le_refl _)

theorem chunks_controlChunkSize (bytes : Bytes) :
    (chunks controlChunkSize bytes).flatten = bytes :=
  flatten_chunks (by decide) bytes

/-! ### Consuming and copying bytes -/

/-- Run `body` on every element, in order. -/
def forEach {α : Type} (items : List α) (body : α → Work Unit) : Work Unit :=
  match items with
  | [] => pure ()
  | x :: rest => do
      body x
      forEach rest body

theorem forEach_eq_ok {α : Type} {body : α → Work Unit} {items : List α} {u : Unit} :
    (forEach items body).result = .ok u ↔ ∀ x ∈ items, (body x).result = .ok () := by
  induction items with
  | nil => simp [forEach]
  | cons x rest ih =>
      rw [forEach, Metered.bind_eq_ok]
      simp only [ih, List.mem_cons, forall_eq_or_imp]
      exact ⟨fun ⟨_, hx, hrest⟩ => ⟨hx, hrest⟩, fun ⟨hx, hrest⟩ => ⟨(), hx, hrest⟩⟩

/-- The rule for a loop: what each round ensures, the loop ensures of every element. -/
theorem forEach_ensures {α : Type} {body : α → Work Unit} {P : α → Prop} {F : Error → Prop}
    {items : List α} (h : ∀ x ∈ items, (body x).Ensures (fun _ => P x) F) :
    (forEach items body).Ensures (fun _ => ∀ x ∈ items, P x) F := by
  induction items with
  | nil => exact Metered.ensures_of_ok rfl (by simp)
  | cons x rest ih =>
      obtain ⟨hx, hrest⟩ := List.forall_mem_cons.mp h
      refine hx.bind fun _ hPx => (ih hrest).mono (fun _ hP => ?_) fun _ he => he
      exact List.forall_mem_cons.mpr ⟨hPx, hP⟩

/-- `ParseControl::consume_bytes`. -/
def consumeBytes (bytes : Bytes) : Work Unit :=
  if bytes.isEmpty then checkpoint 0
  else forEach (chunks controlChunkSize bytes) fun chunk => checkpoint chunk.length

@[simp] theorem result_consumeBytes (bytes : Bytes) : (consumeBytes bytes).result = .ok () := by
  unfold consumeBytes
  split
  · rfl
  · exact forEach_eq_ok.mpr fun _ _ => rfl

def copyBytes (bytes : Bytes) : Work Bytes := do
  checkpoint bytes.length
  forEach (chunks controlChunkSize bytes) fun _ => checkpoint 0
  pure bytes

@[simp] theorem result_copyBytes (bytes : Bytes) : (copyBytes bytes).result = .ok bytes := by
  have hloop : (forEach (chunks controlChunkSize bytes) fun _ => checkpoint 0).result = .ok () :=
    forEach_eq_ok.mpr fun _ _ => rfl
  rw [copyBytes, Metered.result_bind_ok (result_checkpoint _), Metered.result_bind_ok hloop]
  rfl

/-- `checked_range`: the bytes from `start`, `length` of them. -/
def checkedRange (bytes : Bytes) (start length : Nat) (overflowDetail truncatedDetail : String) :
    Work Bytes := do
  let stop ← orFormat (checkedAdd 64 start length) overflowDetail
  if stop ≤ bytes.length then
    pure ((bytes.drop start).take length)
  else
    formatErr truncatedDetail

@[simp] theorem checkedRange_eq_ok {bytes : Bytes} {start length : Nat} {o t : String}
    {slice : Bytes} :
    (checkedRange bytes start length o t).result = .ok slice ↔
      start + length < 2 ^ 64 ∧ start + length ≤ bytes.length ∧
        slice = (bytes.drop start).take length := by
  simp only [checkedRange, Metered.bind_eq_ok, orFormat_eq_ok, checkedAdd_eq_some]
  constructor
  · rintro ⟨stop, ⟨hlt, rfl⟩, h⟩
    by_cases hle : start + length ≤ bytes.length
    · rw [if_pos hle] at h
      exact ⟨hlt, hle, (Except.ok.inj h).symm⟩
    · rw [if_neg hle] at h
      exact absurd h (by simp)
  · rintro ⟨hlt, hle, rfl⟩
    exact ⟨_, ⟨hlt, rfl⟩, by rw [if_pos hle]; rfl⟩

/-! ### CRC-32 -/

def crc32Polynomial : UInt32 := 0xedb88320

/-- One bit of a table entry in `make_crc32_table`. -/
def crc32Bit (value : UInt32) : UInt32 :=
  if value &&& 1 = 0 then value >>> 1 else (value >>> 1) ^^^ crc32Polynomial

/-- One entry of `make_crc32_table`: eight bits of its index. -/
def crc32Entry (index : UInt32) : UInt32 :=
  (List.range 8).foldl (fun value _ => crc32Bit value) index

def makeCrc32Table : List UInt32 :=
  (List.range 256).map fun index => crc32Entry (UInt32.ofNat index)

def crc32Table : List UInt32 := makeCrc32Table

structure Crc32 where
  state : UInt32
  deriving DecidableEq

namespace Crc32

def new : Crc32 := ⟨0xffffffff⟩

/-- One byte of `Crc32::update`. -/
def step (crc : Crc32) (byte : UInt8) : Except Error Crc32 :=
  match crc32Table[(crc.state.toUInt8 ^^^ byte).toNat]? with
  | some value => .ok ⟨value ^^^ (crc.state >>> 8)⟩
  | none => .error (formatError "internal CRC-32 table index is invalid")

def update (crc : Crc32) (bytes : Bytes) : Except Error Crc32 := bytes.foldlM step crc

def finalize (crc : Crc32) : UInt32 := ~~~crc.state

/-- `Crc32::checksum`: the CRC of a whole byte string. -/
def checksum (bytes : Bytes) : Except Error UInt32 := (new.update bytes).map finalize

theorem length_crc32Table : crc32Table.length = 256 := by
  simp [crc32Table, makeCrc32Table]

/-- The table has an entry for every byte, so a step never fails. -/
theorem step_ok (crc : Crc32) (byte : UInt8) : ∃ next, crc.step byte = .ok next := by
  have hlt : (crc.state.toUInt8 ^^^ byte).toNat < crc32Table.length := by
    rw [length_crc32Table]
    exact UInt8.toNat_lt _
  exact ⟨_, by rw [step, List.getElem?_eq_getElem hlt]⟩

theorem update_append (crc : Crc32) (a b : Bytes) :
    crc.update (a ++ b) = (crc.update a >>= fun next => next.update b) :=
  List.foldlM_append

theorem update_ok (bytes : Bytes) : ∀ crc : Crc32, ∃ next, crc.update bytes = .ok next := by
  induction bytes with
  | nil => intro crc; exact ⟨crc, rfl⟩
  | cons byte rest ih =>
      intro crc
      obtain ⟨next, hnext⟩ := step_ok crc byte
      obtain ⟨last, hlast⟩ := ih next
      refine ⟨last, ?_⟩
      show (crc.step byte >>= fun c => c.update rest) = _
      rw [hnext]
      exact hlast

end Crc32

/-- The CRC of a byte string; `Crc32::checksum` never fails, `crc32_eq_checksum`. -/
def crc32 (bytes : Bytes) : UInt32 :=
  match Crc32.checksum bytes with
  | .ok value => value
  | .error _ => 0

theorem crc32_eq_checksum (bytes : Bytes) : Crc32.checksum bytes = .ok (crc32 bytes) := by
  obtain ⟨next, hnext⟩ := Crc32.update_ok bytes Crc32.new
  simp [crc32, Crc32.checksum, hnext, Except.map]

/-- Lift the `Result` of a helper that has no control. -/
def ofExcept {α : Type} (value : Except Error α) : Work α :=
  match value with
  | .ok a => pure a
  | .error e => fail e

@[simp] theorem result_ofExcept {α : Type} (value : Except Error α) :
    (ofExcept value).result = value := by
  cases value <;> rfl

/-- The loop of every checksum in the source: charge a chunk, then fold it in. -/
def updateChunks (crc : Crc32) : List Bytes → Work Crc32
  | [] => pure crc
  | chunk :: rest => do
      checkpoint chunk.length
      let crc ← ofExcept (crc.update chunk)
      updateChunks crc rest

/-- `checksum` of `archive.rs`, `execute.rs` and `metadata.rs`, and `crc32_with_control`. -/
def checksum (bytes : Bytes) : Work UInt32 := do
  let crc ← updateChunks Crc32.new (chunks controlChunkSize bytes)
  pure crc.finalize

theorem result_updateChunks (pieces : List Bytes) :
    ∀ crc : Crc32, (updateChunks crc pieces).result = crc.update pieces.flatten := by
  induction pieces with
  | nil => intro crc; rfl
  | cons piece rest ih =>
      intro crc
      obtain ⟨next, hnext⟩ := Crc32.update_ok piece crc
      rw [updateChunks, Metered.result_bind_ok (result_checkpoint _),
        Metered.result_bind_ok (by rw [result_ofExcept]; exact hnext), ih, List.flatten_cons,
        Crc32.update_append, hnext]
      rfl

@[simp] theorem result_checksum (bytes : Bytes) : (checksum bytes).result = .ok (crc32 bytes) := by
  rw [checksum, ← crc32_eq_checksum, Metered.result_bind, result_updateChunks,
    chunks_controlChunkSize, Crc32.checksum]
  obtain ⟨next, hnext⟩ := Crc32.update_ok bytes Crc32.new
  rw [hnext]
  rfl

end Un7z
