/-
The states of a context in the heap of PPMd.

A state is a record of six bytes, and the states of a context lie one behind the other.
`Shows` is what a function of the source sees of a context while it works on it: the number
of its states, the sum of its frequencies and the states themselves.  Each step of the
source replaces one part of this view and leaves the rest of the heap alone.
-/
import Un7z.PpmdModel
import Un7z.Lib.RecordArray
import Un7z.Proofs.LiveBlocks

namespace Un7z

namespace Ppmd

open ByteMemory Heap

/-! ### States -/

/-- A state is its symbol, its frequency and its successor. -/
def stateLayout : RecordLayout StateRef where
  size := 6
  read m a := ⟨word 4 m (a + 2), get m a, get m (a + 1)⟩
  moved m m' a b h := by
    have hword : word 4 m' (b + 2) = word 4 m (a + 2) := word_moved fun i hi => by
      rw [Nat.add_assoc, Nat.add_assoc]
      exact h (2 + i) (by omega)
    have hsymbol : get m' b = get m a := h 0 (by decide)
    have hfrequency : get m' (b + 1) = get m (a + 1) := h 1 (by decide)
    rw [hword, hsymbol, hfrequency]

namespace State

variable {m : Bytes} {a : Nat} (h : a + 6 ≤ m.length) (hsmall : m.length < 2 ^ 32)

include h hsmall

theorem frequency_eq : frequency a ⟨m⟩ = .ok (stateLayout.read m a).frequency := by
  rw [frequency, add_of_lt (by omega), except_ok_bind, byte_eq (show a + 1 < m.length by omega)]
  rfl

theorem fromState_eq : StateRef.fromState a ⟨m⟩ = .ok (stateLayout.read m a) := by
  have hsymbol : State.symbol a ⟨m⟩ = .ok (get m a) := byte_eq (show a < m.length by omega)
  rw [StateRef.fromState, successor, add_of_lt (by omega), except_ok_bind,
    u32_eq (show a + 2 + 4 ≤ m.length by omega) hsmall, except_ok_bind, hsymbol, except_ok_bind,
    frequency_eq h hsmall]
  rfl

theorem setFrequency_run (f : UInt8) : ∃ m', setFrequency a f ⟨m⟩ = .ok ((), ⟨m'⟩) ∧
    Within a 6 m m' ∧ stateLayout.read m' a = { stateLayout.read m a with frequency := f } := by
  have hbyte : a + 1 < m.length := by omega
  have hwithin := Within.set hbyte f
  refine ⟨m.set (a + 1) f, ?_, hwithin.mono (by omega) (by omega), ?_⟩
  · rw [setFrequency, lift_ok (add_of_lt (by omega) _), putByte_eq hbyte]
  · show StateRef.mk (word 4 (m.set (a + 1) f) (a + 2)) (get (m.set (a + 1) f) a)
      (get (m.set (a + 1) f) (a + 1)) = _
    rw [hwithin.word_eq (Or.inr (Nat.le_refl _)), hwithin.same a (Or.inl (Nat.lt_succ_self _)),
      get_set hbyte, if_pos rfl]
    rfl

theorem setRef_run {saved : StateRef} (hsaved : saved.successor < 2 ^ 32) :
    ∃ m', setRef a saved ⟨m⟩ = .ok ((), ⟨m'⟩) ∧ Within a 6 m m' ∧ stateLayout.read m' a = saved := by
  have hsymbol := Within.set (show a < m.length by omega) saved.symbol
  obtain ⟨m', hfrequency, hwithin, hread⟩ := setFrequency_run (m := m.set a saved.symbol) (a := a)
    (by rw [List.length_set]; exact h) (by rw [List.length_set]; exact hsmall) saved.frequency
  have hfits : a + 2 + 4 ≤ m'.length := by
    rw [hwithin.length, List.length_set]
    omega
  have hsuccessor := Within.putWord hfits saved.successor
  refine ⟨putWord 4 m' (a + 2) saved.successor, ?_, ?_, ?_⟩
  · have hput : setSymbol a saved.symbol ⟨m⟩ = .ok ((), ⟨m.set a saved.symbol⟩) :=
      putByte_eq (show a < m.length by omega) _
    have hsmall' : m'.length < 2 ^ 32 := by
      rw [hwithin.length, List.length_set]
      exact hsmall
    rw [setRef, step_ok hput, step_ok hfrequency, setSuccessor, lift_ok (add_of_lt (by omega) _),
      putU32_eq hfits hsmall']
  · exact ((hsymbol.mono (Nat.le_refl _) (by omega)).trans hwithin).trans
      (hsuccessor.mono (by omega) (by omega))
  · have hsame := congrArg StateRef.symbol hread
    have hnew := congrArg StateRef.frequency hread
    have hgot : get (m.set a saved.symbol) a = saved.symbol := by
      rw [get_set (by omega), if_pos rfl]
    show StateRef.mk (word 4 (putWord 4 m' (a + 2) saved.successor) (a + 2))
      (get (putWord 4 m' (a + 2) saved.successor) a)
      (get (putWord 4 m' (a + 2) saved.successor) (a + 1)) = _
    rw [word_putWord hfits hsaved, hsuccessor.same a (Or.inl (by omega)),
      hsuccessor.same (a + 1) (Or.inl (by omega)), show get m' a = _ from hsame,
      show get m' (a + 1) = _ from hnew]
    show StateRef.mk saved.successor (get (m.set a saved.symbol) a) saved.frequency = _
    rw [hgot]

/-- A state is copied over another one. -/
theorem copyFrom_run {source : Nat} (hsource : source + 6 ≤ m.length) :
    ∃ m', copyFrom a source ⟨m⟩ = .ok ((), ⟨m'⟩) ∧ Within a 6 m m' ∧
      stateLayout.read m' a = stateLayout.read m source := by
  refine ⟨copyWithin m source 6 a, copy_eq hsource h hsmall,
    ⟨length_copyWithin hsource h, fun x hx => ?_⟩, stateLayout.moved _ _ _ _ fun i hi => ?_⟩
  · rw [get_copyWithin hsource h, if_neg (by omega)]
  · have hlt : i < 6 := hi
    rw [get_copyWithin hsource h, if_pos (by omega), Nat.add_sub_cancel_left]

end State

section swaps

variable {m : Bytes} {left right start count : Nat}

/-- What is saved of the left state. -/
theorem readTemporary_eq (offsets : List Nat) (h : ∀ i ∈ offsets, left + i < m.length)
    (hsmall : m.length < 2 ^ 32) :
    readTemporary ⟨m⟩ left offsets = .ok (offsets.map fun i => get m (left + i)) := by
  induction offsets with
  | nil => rfl
  | cons i rest ih =>
      have hi := h i List.mem_cons_self
      rw [readTemporary, add_of_lt (by omega), except_ok_bind, byte_eq hi, except_ok_bind,
        ih fun j hj => h j (List.mem_cons_of_mem _ hj)]
      rfl

/-- The left state is overwritten byte by byte. -/
theorem overwriteLeft_run (hapart : left + start + count ≤ right ∨ right + start + count ≤ left)
    (hleft : left + start + count ≤ m.length) (hright : right + start + count ≤ m.length)
    (hsmall : m.length < 2 ^ 32) :
    ∃ m', overwriteLeft left right (List.range' start count) ⟨m⟩ = .ok ((), ⟨m'⟩) ∧
      Within (left + start) count m m' ∧
      ∀ i, start ≤ i → i < start + count → get m' (left + i) = get m (right + i) := by
  induction count generalizing start m with
  | zero => exact ⟨m, rfl, Within.refl _ _ _, fun i hle hlt => absurd hle (Nat.not_le.mpr hlt)⟩
  | succ count ih =>
      have hbyte : left + start < m.length := by omega
      have hset := Within.set hbyte (get m (right + start))
      obtain ⟨m', hrun, hwithin, hgot⟩ := @ih (m.set (left + start)
        (get m (right + start))) (start + 1) (by omega) (by rw [hset.length]; omega)
        (by rw [hset.length]; omega) (by rw [hset.length]; exact hsmall)
      refine ⟨m', ?_, (hset.mono (Nat.le_refl _) (by omega)).trans
        (hwithin.mono (by omega) (by omega)), fun i hle hlt => ?_⟩
      · rw [List.range'_succ, overwriteLeft, lift_ok (add_of_lt (by omega) _),
          read_bind (byte_eq (show right + start < m.length by omega)),
          lift_ok (add_of_lt (by omega) _), step_ok (putByte_eq hbyte _)]
        exact hrun
      · by_cases hfirst : i = start
        · rw [hfirst, hwithin.same _ (Or.inl (by omega)), get_set hbyte, if_pos rfl]
        · rw [hgot i (by omega) (by omega), hset.same _ (by omega)]

/-- And so is the right one, with what was saved. -/
theorem overwriteRight_run (temporary : Bytes) (h : right + start + temporary.length ≤ m.length)
    (hsmall : m.length < 2 ^ 32) :
    ∃ m', overwriteRight right start temporary ⟨m⟩ = .ok ((), ⟨m'⟩) ∧
      Within (right + start) temporary.length m m' ∧
      ∀ i, i < temporary.length → get m' (right + start + i) = get temporary i := by
  induction temporary generalizing start m with
  | nil => exact ⟨m, rfl, Within.refl _ _ _, nofun⟩
  | cons byte rest ih =>
      rw [List.length_cons] at h
      have hbyte : right + start < m.length := by omega
      have hset := Within.set hbyte byte
      obtain ⟨m', hrun, hwithin, hgot⟩ := @ih (m.set (right + start) byte) (start + 1)
        (by rw [hset.length]; omega) (by rw [hset.length]; exact hsmall)
      refine ⟨m', ?_, (hset.mono (Nat.le_refl _) (by rw [List.length_cons]; omega)).trans
        (hwithin.mono (by omega) (by rw [List.length_cons]; omega)), fun i hi => ?_⟩
      · rw [overwriteRight, lift_ok (add_of_lt (by omega) _), step_ok (putByte_eq hbyte _)]
        exact hrun
      · cases i with
        | zero =>
            rw [Nat.add_zero, hwithin.same _ (Or.inl (by omega)), get_set hbyte, if_pos rfl]
            rfl
        | succ i =>
            have hsame := hgot i (Nat.lt_of_succ_lt_succ hi)
            rw [show right + start + (i + 1) = right + (start + 1) + i by omega, hsame]
            rfl

/-- Two states that lie next to each other change places. -/
theorem swapStates_run {a : Nat} (h : a + 12 ≤ m.length) (hsmall : m.length < 2 ^ 32) :
    ∃ m', swapStates (a + 6) a ⟨m⟩ = .ok ((), ⟨m'⟩) ∧ Within a 12 m m' ∧
      stateLayout.read m' a = stateLayout.read m (a + 6) ∧
      stateLayout.read m' (a + 6) = stateLayout.read m a := by
  have htemporary := @readTemporary_eq m (a + 6) (List.range 6) (fun i hi => by
    have hlt := List.mem_range.mp hi
    omega) hsmall
  obtain ⟨m₁, hleft, hwithin₁, hgot₁⟩ := @overwriteLeft_run m (a + 6) a 0 6 (by omega) (by omega)
    (by omega) hsmall
  obtain ⟨m₂, hright, hwithin₂, hgot₂⟩ := @overwriteRight_run m₁ a 0
    ((List.range 6).map fun i => get m (a + 6 + i))
    (by rw [hwithin₁.length, List.length_map, List.length_range]; omega)
    (by rw [hwithin₁.length]; exact hsmall)
  rw [List.length_map, List.length_range] at hwithin₂ hgot₂
  refine ⟨m₂, ?_, (hwithin₁.mono (by omega) (by omega)).trans
    (hwithin₂.mono (by omega) (by omega)), stateLayout.moved _ _ _ _ fun i hi => ?_,
    stateLayout.moved _ _ _ _ fun i hi => ?_⟩
  · have hrange : List.range stateSize = List.range' 0 6 := rfl
    rw [swapStates, read_bind (show readTemporary ⟨m⟩ (a + 6) (List.range stateSize) = _ from
      htemporary), hrange, step_ok hleft, hright]
  · have hlt : i < 6 := hi
    have hsaved := hgot₂ i hlt
    rw [Nat.add_zero] at hsaved
    rw [hsaved, ByteMemory.get, List.getElem?_map, List.getElem?_range hlt]
    rfl
  · have hlt : i < 6 := hi
    rw [hwithin₂.same _ (by omega), hgot₁ i (Nat.zero_le _) (by omega)]

end swaps

/-! ### Contexts -/

namespace Context

variable {m : Bytes} {context value : Nat} (h : context + 12 ≤ m.length) (hsmall : m.length < 2 ^ 32)

include h hsmall

theorem numStats_eq : numStats context ⟨m⟩ = .ok (word 2 m context) :=
  u16_eq (show context + 2 ≤ m.length by omega) hsmall

theorem setNumStats_eq (hpos : 1 ≤ value) (hle : value ≤ 256) :
    setNumStats context value ⟨m⟩ = .ok ((), ⟨putWord 2 m context value⟩) := by
  rw [setNumStats, if_pos ⟨hpos, hle⟩,
    putU16_eq (show context + 2 ≤ m.length by omega) hsmall (by omega)]

theorem summFrequency_eq : summFrequency context ⟨m⟩ = .ok (word 2 m (context + 2)) := by
  rw [summFrequency, add_of_lt (by omega), except_ok_bind,
    u16_eq (show context + 2 + 2 ≤ m.length by omega) hsmall]

theorem setSummFrequency_eq (hvalue : value < 2 ^ 16) :
    setSummFrequency context value ⟨m⟩ = .ok ((), ⟨putWord 2 m (context + 2) value⟩) := by
  rw [setSummFrequency, lift_ok (add_of_lt (by omega) _),
    putU16_eq (show context + 2 + 2 ≤ m.length by omega) hsmall hvalue]

theorem stats_eq : stats context ⟨m⟩ = .ok (word 4 m (context + 4)) := by
  rw [stats, add_of_lt (by omega), except_ok_bind,
    u32_eq (show context + 4 + 4 ≤ m.length by omega) hsmall]

theorem setStats_eq : setStats context value ⟨m⟩ = .ok ((), ⟨putWord 4 m (context + 4) value⟩) := by
  rw [setStats, lift_ok (add_of_lt (by omega) _),
    putU32_eq (show context + 4 + 4 ≤ m.length by omega) hsmall]

end Context

/-! ### A context and its states -/

/-- Where a context and its states lie, in which memory. -/
structure Place where
  memory : Bytes
  context : Nat
  base : Nat
  size : Nat
  context_fits : context + 12 ≤ memory.length
  states_fits : base + 6 * size ≤ memory.length
  apart : context + 12 ≤ base ∨ base + 6 * size ≤ context
  small : memory.length < 2 ^ 32

/-- The address of one of the states. -/
def Place.at (place : Place) (index : Nat) : Nat := place.base + 6 * index

/-- What is seen of a context, in a memory that has changed nowhere else. -/
structure Shows (place : Place) (m : Bytes) (count summ : Nat) (states : List StateRef) : Prop where
  length : m.length = place.memory.length
  same : ∀ x, (x < place.context ∨ place.context + 12 ≤ x) →
    (x < place.base ∨ place.base + 6 * place.size ≤ x) → get m x = get place.memory x
  count : word 2 m place.context = count
  summ : word 2 m (place.context + 2) = summ
  stats : word 4 m (place.context + 4) = place.base
  suffix : word 4 m (place.context + 8) = word 4 place.memory (place.context + 8)
  size : states.length = place.size
  states : Holds stateLayout m place.base states

namespace Shows

variable {place : Place} {m m' : Bytes} {count summ value : Nat} {states left right : List StateRef}
  {r r' b : StateRef}

theorem context_fits (h : Shows place m count summ states) : place.context + 12 ≤ m.length := by
  rw [h.length]
  exact place.context_fits

theorem small (h : Shows place m count summ states) : m.length < 2 ^ 32 := by
  rw [h.length]
  exact place.small

theorem fits (h : Shows place m count summ states) (index : Nat) (hindex : index < states.length) :
    place.at index + 6 ≤ m.length := by
  have hstates := place.states_fits
  have hsize := h.size
  rw [h.length, Place.at]
  omega

/-- The states change, and nothing else. -/
theorem of_within {a n : Nat} (h : Shows place m count summ states) (hwithin : Within a n m m')
    (hlow : place.base ≤ a) (hhigh : a + n ≤ place.base + 6 * place.size)
    (hstates : Holds stateLayout m' place.base left) (hsize : left.length = states.length) :
    Shows place m' count summ left := by
  have hapart := place.apart
  have hword : ∀ k offset, offset + k ≤ 12 →
      word k m' (place.context + offset) = word k m (place.context + offset) :=
    fun k offset hle => hwithin.word_eq (by omega)
  refine ⟨hwithin.length.trans h.length, fun x hcontext hbase => ?_, (hword 2 0 (by decide)).trans h.count,
    (hword 2 2 (by decide)).trans h.summ, (hword 4 4 (by decide)).trans h.stats,
    (hword 4 8 (by decide)).trans h.suffix, hsize.trans h.size, hstates⟩
  rw [hwithin.same x (by omega), h.same x hcontext hbase]

/-- One state is replaced. -/
theorem set (h : Shows place m count summ (left ++ r :: right))
    (hwithin : Within (place.at left.length) 6 m m')
    (hread : stateLayout.read m' (place.at left.length) = r') :
    Shows place m' count summ (left ++ r' :: right) := by
  have hsize := h.size
  rw [List.length_append, List.length_cons] at hsize
  refine h.of_within hwithin (Nat.le_add_right _ _) ?_ (h.states.set hwithin hread) ?_
  · rw [Place.at]
    omega
  · rw [List.length_append, List.length_append, List.length_cons, List.length_cons]

theorem read_eq (h : Shows place m count summ (left ++ r :: right)) :
    stateLayout.read m (place.at left.length) = r := h.states.read_eq

theorem state_fits (h : Shows place m count summ (left ++ r :: right)) :
    place.at left.length + 6 ≤ m.length :=
  h.fits _ (by rw [List.length_append, List.length_cons]; omega)

theorem frequency (h : Shows place m count summ (left ++ r :: right)) :
    State.frequency (place.at left.length) ⟨m⟩ = .ok r.frequency := by
  rw [State.frequency_eq h.state_fits h.small, h.read_eq]

theorem fromState (h : Shows place m count summ (left ++ r :: right)) :
    StateRef.fromState (place.at left.length) ⟨m⟩ = .ok r := by
  rw [State.fromState_eq h.state_fits h.small, h.read_eq]

theorem setFrequency (h : Shows place m count summ (left ++ r :: right)) (f : UInt8) :
    ∃ m', State.setFrequency (place.at left.length) f ⟨m⟩ = .ok ((), ⟨m'⟩) ∧
      Shows place m' count summ (left ++ { r with frequency := f } :: right) := by
  obtain ⟨m', hrun, hwithin, hread⟩ := State.setFrequency_run h.state_fits h.small f
  rw [h.read_eq] at hread
  exact ⟨m', hrun, h.set hwithin hread⟩

theorem incrementFrequency (h : Shows place m count summ (left ++ r :: right)) {amount : Nat}
    (hlt : r.frequency.toNat + amount < 256) :
    ∃ m', State.incrementFrequency (place.at left.length) amount ⟨m⟩ = .ok ((), ⟨m'⟩) ∧
      Shows place m' count summ
        (left ++ { r with frequency := UInt8.ofNat (r.frequency.toNat + amount) } :: right) := by
  obtain ⟨m', hrun, hshows⟩ := h.setFrequency (UInt8.ofNat (r.frequency.toNat + amount))
  refine ⟨m', ?_, hshows⟩
  rw [State.incrementFrequency, read_bind h.frequency, checkedAdd_of_lt hlt,
    lift_ok (orFormatError_some _ _), hrun]

theorem setRef (h : Shows place m count summ (left ++ r :: right)) {saved : StateRef}
    (hsaved : saved.successor < 2 ^ 32) :
    ∃ m', State.setRef (place.at left.length) saved ⟨m⟩ = .ok ((), ⟨m'⟩) ∧
      Shows place m' count summ (left ++ saved :: right) := by
  obtain ⟨m', hrun, hwithin, hread⟩ := State.setRef_run h.state_fits h.small hsaved
  exact ⟨m', hrun, h.set hwithin hread⟩

theorem append_cons (left : List StateRef) (b : StateRef) (right : List StateRef) :
    left ++ b :: right = (left ++ [b]) ++ right := by
  rw [List.append_assoc]
  rfl

/-- A state is copied over the one behind it. -/
theorem copyFrom (h : Shows place m count summ (left ++ b :: r :: right)) :
    ∃ m', State.copyFrom (place.at (left.length + 1)) (place.at left.length) ⟨m⟩ = .ok ((), ⟨m'⟩) ∧
      Shows place m' count summ (left ++ b :: b :: right) := by
  have hsource := h.state_fits
  have hread := h.read_eq
  rw [append_cons] at h
  have hlength : (left ++ [b]).length = left.length + 1 := by rw [List.length_append]; rfl
  have hfits := h.state_fits
  rw [hlength] at hfits
  obtain ⟨m', hrun, hwithin, hcopied⟩ := State.copyFrom_run hfits h.small hsource
  rw [hread] at hcopied
  refine ⟨m', hrun, ?_⟩
  rw [append_cons]
  exact h.set (hlength.symm ▸ hwithin) (hlength.symm ▸ hcopied)

/-- A state changes places with the one before it. -/
theorem swap (h : Shows place m count summ (left ++ b :: r :: right)) :
    ∃ m', swapStates (place.at (left.length + 1)) (place.at left.length) ⟨m⟩ = .ok ((), ⟨m'⟩) ∧
      Shows place m' count summ (left ++ r :: b :: right) := by
  have hfirst := h.read_eq
  have hsize := h.size
  rw [List.length_append, List.length_cons, List.length_cons] at hsize
  have hsecond := (append_cons left b (r :: right) ▸ h).read_eq
  have hlength : (left ++ [b]).length = left.length + 1 := by rw [List.length_append]; rfl
  have hnext : place.at (left.length + 1) = place.at left.length + 6 := by
    rw [Place.at, Place.at, Nat.mul_succ, Nat.add_assoc]
  rw [hlength, hnext] at hsecond
  have hfits : place.at left.length + 12 ≤ m.length := by
    have hlast := h.fits (left.length + 1) (by
      rw [List.length_append, List.length_cons, List.length_cons]
      omega)
    rw [hnext] at hlast
    omega
  obtain ⟨m', hrun, hwithin, hread, hread'⟩ := swapStates_run hfits h.small
  rw [hsecond] at hread
  rw [hfirst] at hread'
  have hreplaced : Holds stateLayout m' place.base (left ++ ([r, b] ++ right)) :=
    @Holds.replace _ _ _ _ stateLayout left right [b, r] [r, b] h.states hwithin rfl
      ⟨hread, hread', trivial⟩
  refine ⟨m', hnext ▸ hrun, h.of_within hwithin (Nat.le_add_right _ _) ?_ hreplaced ?_⟩
  · rw [Place.at]
    omega
  · rw [List.length_append, List.length_append]
    rfl

/-- The states are not in the context. -/
theorem states_of_within {a n : Nat} (h : Shows place m count summ states) (hwithin : Within a n m m')
    (hlow : place.context ≤ a) (hhigh : a + n ≤ place.context + 12) :
    Holds stateLayout m' place.base states := by
  have hapart := place.apart
  have hsize : stateLayout.size * states.length = 6 * place.size := by rw [h.size]; rfl
  exact h.states.of_within hwithin (by rw [hsize]; omega)

theorem setSumm (h : Shows place m count summ states) (hvalue : value < 2 ^ 16) :
    ∃ m', Context.setSummFrequency place.context value ⟨m⟩ = .ok ((), ⟨m'⟩) ∧
      Shows place m' count value states := by
  have hfits := h.context_fits
  have hwithin := Within.putWord (show place.context + 2 + 2 ≤ m.length by omega) value
  refine ⟨_, Context.setSummFrequency_eq hfits h.small hvalue,
    hwithin.length.trans h.length, fun x hcontext hbase => ?_, ?_, ?_, ?_, ?_, h.size,
    h.states_of_within hwithin (by omega) (by omega)⟩
  · rw [hwithin.same x (by omega), h.same x hcontext hbase]
  · rw [hwithin.word_eq (by omega), h.count]
  · exact word_putWord (by omega) hvalue
  · rw [hwithin.word_eq (by omega), h.stats]
  · rw [hwithin.word_eq (by omega), h.suffix]

theorem setCount (h : Shows place m count summ states) (hpos : 1 ≤ value) (hle : value ≤ 256) :
    ∃ m', Context.setNumStats place.context value ⟨m⟩ = .ok ((), ⟨m'⟩) ∧
      Shows place m' value summ states := by
  have hfits := h.context_fits
  have hwithin := Within.putWord (show place.context + 2 ≤ m.length by omega) value
  refine ⟨_, Context.setNumStats_eq hfits h.small hpos hle,
    hwithin.length.trans h.length, fun x hcontext hbase => ?_, ?_, ?_, ?_, ?_, h.size,
    h.states_of_within hwithin (by omega) (by omega)⟩
  · rw [hwithin.same x (by omega), h.same x hcontext hbase]
  · exact word_putWord (by omega) (show value < 256 ^ 2 by omega)
  · rw [hwithin.word_eq (by omega), h.summ]
  · rw [hwithin.word_eq (by omega), h.stats]
  · rw [hwithin.word_eq (by omega), h.suffix]

theorem numStats (h : Shows place m count summ states) :
    Context.numStats place.context ⟨m⟩ = .ok count := by
  rw [Context.numStats_eq h.context_fits h.small, h.count]

theorem summFrequency (h : Shows place m count summ states) :
    Context.summFrequency place.context ⟨m⟩ = .ok summ := by
  rw [Context.summFrequency_eq h.context_fits h.small, h.summ]

theorem stats_eq (h : Shows place m count summ states) :
    Context.stats place.context ⟨m⟩ = .ok (place.at 0) := by
  rw [Context.stats_eq h.context_fits h.small, h.stats]
  rfl

theorem incrementSumm (h : Shows place m count summ states) (hlt : summ + value < 2 ^ 16) :
    ∃ m', Context.incrementSummFrequency place.context value ⟨m⟩ = .ok ((), ⟨m'⟩) ∧
      Shows place m' count (summ + value) states := by
  obtain ⟨m', hrun, hshows⟩ := h.setSumm hlt
  refine ⟨m', ?_, hshows⟩
  rw [Context.incrementSummFrequency, read_bind h.summFrequency, checkedAdd_of_lt (by omega),
    lift_ok (orFormatError_some _ _), hrun]

/-- The address of the state behind. -/
theorem increment (h : Shows place m count summ states) (index : Nat) (hindex : index < states.length) :
    State.increment (place.at index) = .ok (place.at (index + 1)) := by
  have hfits := h.fits index hindex
  have hsmall := h.small
  rw [State.increment, add_of_lt (by show place.at index + 6 < _; omega)]
  rfl

theorem decrement (place : Place) (index : Nat) :
    State.decrement (place.at (index + 1)) = .ok (place.at index) := by
  have hnext : place.at (index + 1) = place.at index + 6 := by
    rw [Place.at, Place.at, Nat.mul_succ, Nat.add_assoc]
  rw [State.decrement, hnext]
  exact sub_of_le (show stateSize ≤ place.at index + 6 from Nat.le_add_left 6 _) _

end Shows

end Ppmd

end Un7z
