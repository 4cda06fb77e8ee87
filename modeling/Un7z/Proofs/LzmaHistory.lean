/-
A stream of LZMA behind an earlier one.

The output before a dictionary reset is out of the reach of a match, and what is added
behind the reset is added behind all of it.  So a stream of a declared size ends in the
same bytes wherever it starts, as long as there is room for them.
-/
import Un7z.Proofs.LzmaTwins

namespace Un7z

namespace Lzma

open Metered (Mirrors)

/-! ### The output -/

namespace Output

variable {earlier : Bytes} {maximum dictionary : Nat} {output next : Output}

/-- There is room for so many bytes, within the limit and within a vector. -/
structure Room (maximum size : Nat) : Prop where
  maximum_le : size ≤ maximum
  vector_le : size ≤ vectorMax

theorem Room.mono {size less : Nat} (h : Room maximum size) (hle : less ≤ size) :
    Room maximum less := ⟨Nat.le_trans hle h.maximum_le, Nat.le_trans hle h.vector_le⟩

theorem result_ensureAdditional {additional : Nat}
    (h : Room output.maximum (output.position + additional)) :
    (output.ensureAdditional additional).result = .ok () := by
  have hvector := h.vector_le
  unfold ensureAdditional
  rw [vectorMax] at hvector
  rw [Metered.result_bind_ok (orFormat_eq_ok.mpr (checkedAdd_of_lt (by omega))),
    Metered.result_bind_ok (a := ()) (checkLimit_eq_ok.mpr h.maximum_le), reserve,
    if_neg (Nat.not_lt.mpr h.vector_le)]
  rfl

/-- Bytes behind are bytes behind. -/
theorem Behind.append (h : output.Behind earlier maximum dictionary next) (bytes : Bytes) :
    ({ output with bytes := output.bytes ++ bytes } : Output).Behind earlier maximum dictionary
      { next with bytes := next.bytes ++ bytes } :=
  ⟨by rw [h.bytes_eq, List.append_assoc], h.maximum_eq, h.size_eq, h.dictionary_eq, h.start_eq⟩

theorem Behind.previousByte_eq (h : output.Behind earlier maximum dictionary next) (hne : output.bytes ≠ []) :
    next.previousByte = output.previousByte := by
  rw [previousByte, previousByte, h.bytes_eq, List.getLast?_append_of_ne_nil _ hne]

theorem Behind.room_additional {additional : Nat} (h : output.Behind earlier maximum dictionary next)
    (hroom : Room maximum (earlier.length + (output.position + additional))) :
    (next.ensureAdditional additional).result = .ok () := by
  refine result_ensureAdditional ?_
  rw [h.maximum_eq, h.position_eq, Nat.add_assoc]
  exact hroom

/-- A byte more. -/
theorem Behind.mirrors_push (h : output.Behind earlier maximum dictionary next)
    (hroom : Room maximum (earlier.length + (output.position + 1))) (byte : UInt8) :
    Mirrors (fun a b => a.Behind earlier maximum dictionary b ∧ a.bytes = output.bytes ++ [byte])
      (output.push byte) (next.push byte) := by
  intro a ha
  obtain ⟨_, _, ha⟩ := Metered.bind_eq_ok.mp ha
  obtain rfl := Except.ok.inj ha
  refine ⟨{ next with bytes := next.bytes ++ [byte] }, ?_, h.append [byte], rfl⟩
  exact Metered.bind_eq_ok.mpr ⟨(), h.room_additional hroom, rfl⟩

theorem Behind.mirrors_extend (h : output.Behind earlier maximum dictionary next) (bytes : Bytes)
    (hroom : Room maximum (earlier.length + (output.position + bytes.length))) :
    Mirrors (fun a b => a.Behind earlier maximum dictionary b ∧ a.bytes = output.bytes ++ bytes)
      (output.extendUncompressed bytes) (next.extendUncompressed bytes) := by
  intro a ha
  obtain ⟨_, _, ha⟩ := Metered.bind_eq_ok.mp ha
  obtain ⟨_, heach, ha⟩ := Metered.bind_eq_ok.mp ha
  obtain rfl := Except.ok.inj ha
  refine ⟨{ next with bytes := next.bytes ++ bytes }, ?_, h.append bytes, rfl⟩
  exact Metered.bind_eq_ok.mpr ⟨(), h.room_additional hroom,
    Metered.bind_eq_ok.mpr ⟨(), heach, rfl⟩⟩

/-- The bytes of a match are copied from behind what comes before. -/
theorem mirrors_copyFrom (earlier : Bytes) (distance length : Nat) (bytes : Bytes) :
    Mirrors (fun a b => ∃ copied, copied.length = length ∧ a = bytes ++ copied ∧
        b = earlier ++ bytes ++ copied)
      (copyFrom distance length bytes) (copyFrom distance length (earlier ++ bytes)) := by
  induction length generalizing bytes with
  | zero => exact Mirrors.pure ⟨[], rfl, (List.append_nil _).symm, (List.append_nil _).symm⟩
  | succ length ih =>
      refine Mirrors.next fun _ _ => ?_
      intro a hrun
      obtain ⟨source, hsource, hrest⟩ := Metered.bind_eq_ok.mp hrun
      obtain ⟨byte, hbyte, ha⟩ := Metered.bind_eq_ok.mp hrest
      obtain ⟨hle, rfl⟩ := checkedSub_eq_some.mp (orFormat_eq_ok.mp hsource)
      have hplace : (earlier ++ bytes)[earlier.length + (bytes.length - distance)]? = some byte := by
        rw [List.getElem?_append_right (Nat.le_add_right _ _), Nat.add_sub_cancel_left]
        exact orFormat_eq_ok.mp hbyte
      have hlength : checkedSub (earlier ++ bytes).length distance
          = some (earlier.length + (bytes.length - distance)) := by
        rw [List.length_append, checkedSub_of_le (by omega)]
        congr 1
        omega
      obtain ⟨_, hb, copied, rfl, rfl, rfl⟩ := ih (bytes ++ [byte]) a ha
      refine ⟨earlier ++ bytes ++ byte :: copied, ?_, byte :: copied, rfl, ?_, rfl⟩
      · rw [Metered.result_bind_ok (orFormat_eq_ok.mpr hlength),
          Metered.result_bind_ok (orFormat_eq_ok.mpr hplace), List.append_assoc, hb]
        simp only [List.append_assoc, List.cons_append, List.nil_append]
      · rw [List.append_assoc]
        rfl

theorem Behind.mirrors_copyMatch (h : output.Behind earlier maximum dictionary next) {distance length : Nat}
    (hroom : Room maximum (earlier.length + (output.position + length))) :
    Mirrors (fun a b => a.Behind earlier maximum dictionary b ∧ distance ≤ output.bytes.length ∧
        ∃ copied, copied.length = length ∧ a.bytes = output.bytes ++ copied)
      (output.copyMatch distance length) (next.copyMatch distance length) := by
  unfold copyMatch
  refine Mirrors.ite Iff.rfl (fun _ => Mirrors.of_error rfl) fun _ => ?_
  refine Mirrors.ite (by rw [h.size_eq, h.dictionary_eq]) (fun _ => Mirrors.of_error rfl) fun _ => ?_
  have havailable : Mirrors (fun a b => a = b ∧ a ≤ output.bytes.length) output.dictionaryLength
      next.dictionaryLength := by
    intro available hrun
    obtain ⟨hle, rfl⟩ := checkedSub_eq_some.mp (orFormat_eq_ok.mp hrun)
    refine ⟨_, orFormat_eq_ok.mpr ?_, rfl, Nat.sub_le _ _⟩
    rw [h.start_eq, h.bytes_eq, List.length_append, checkedSub_of_le (by omega)]
    congr 1
    omega
  refine havailable.bind ?_
  rintro available _ ⟨rfl, hle⟩
  refine Mirrors.ite Iff.rfl (fun _ => Mirrors.of_error rfl) fun hnear => ?_
  intro a ha
  obtain ⟨_, _, ha⟩ := Metered.bind_eq_ok.mp ha
  obtain ⟨bytes, hcopy, ha⟩ := Metered.bind_eq_ok.mp ha
  obtain rfl := Except.ok.inj ha
  obtain ⟨_, hcopy', copied, hlength, rfl, rfl⟩ := mirrors_copyFrom earlier distance length _ _ hcopy
  refine ⟨{ next with bytes := earlier ++ output.bytes ++ copied }, ?_, ?_,
    Nat.le_trans (Nat.not_lt.mp hnear) hle, copied, hlength, rfl⟩
  · refine Metered.bind_eq_ok.mpr ⟨(), h.room_additional hroom, ?_⟩
    rw [h.bytes_eq, Metered.result_bind_ok hcopy']
    rfl
  · rw [← h.bytes_eq]
    exact h.append copied

/-- A match, up to the declared size of the stream. -/
theorem Behind.mirrors_applyMatch (h : output.Behind earlier maximum dictionary next) {target : Nat}
    (hroom : Room maximum (earlier.length + target)) (distance length : Nat) :
    Mirrors (fun a b => a.Behind earlier maximum dictionary b ∧ distance ≤ output.bytes.length ∧
        output.position + length ≤ target ∧
        ∃ copied, copied.length = length ∧ a.bytes = output.bytes ++ copied)
      (applyMatch output (some target) distance length)
      (applyMatch next (some (earlier.length + target)) distance length) := by
  intro a ha
  obtain ⟨resulting, hresulting, ha⟩ := Metered.bind_eq_ok.mp ha
  obtain ⟨-, rfl⟩ := checkedAdd_eq_some.mp (orFormat_eq_ok.mp hresulting)
  by_cases hover : (some target).any (output.position + length > ·)
  · rw [if_pos hover] at ha
    cases ha
  rw [if_neg hover] at ha
  have hle : output.position + length ≤ target := by simpa using hover
  obtain ⟨b, hb, hbehind, hdistance, hcopied⟩ := h.mirrors_copyMatch (hroom.mono (by omega)) a ha
  refine ⟨b, Metered.bind_eq_ok.mpr ⟨next.position + length, ?_, ?_⟩, hbehind, hdistance, hle,
    hcopied⟩
  · have hvector := hroom.vector_le
    rw [vectorMax] at hvector
    refine orFormat_eq_ok.mpr (checkedAdd_of_lt ?_)
    rw [h.position_eq]
    omega
  · rw [if_neg, hb]
    rw [h.position_eq]
    simp
    omega

end Output

/-! ### Streams -/

section streams

variable {lc lp pb : Nat} {earlier : Bytes} {maximum dictionary target : Nat} {state : LzmaState}
  {output next : Output}

theorem LzmaState.Reaches.append (h : state.Reaches output) (bytes : Bytes) :
    state.Reaches { output with bytes := output.bytes ++ bytes } := by
  intro hstate distance hfirst
  show distance < (output.bytes ++ bytes).length
  rw [List.length_append]
  exact Nat.lt_of_lt_of_le (h hstate distance hfirst) (Nat.le_add_right _ _)

/-- A literal moves the state down, and keeps the last distance. -/
theorem LzmaState.Reaches.updateLiteral (h : state.Reaches output) :
    state.updateLiteral.Reaches output := by
  intro hstate distance hfirst
  refine h ?_ distance hfirst
  have hnext : 7 ≤ (if state.state < 4 then 0 else if state.state < 10 then state.state - 3
    else state.state - 6) := hstate
  split at hnext
  · omega
  · split at hnext <;> omega

/-- What two streams have in common. -/
structure StreamState.Beside (lc lp pb : Nat) (earlier : Bytes) (maximum dictionary target : Nat)
    (stream next : StreamState) : Prop where
  state_eq : next.state = stream.state
  behind : stream.output.Behind earlier maximum dictionary next.output
  fits : stream.state.Fits lc lp pb
  reaches : stream.state.Reaches stream.output
  position_eq : stream.output.position = target

/-- Every operation adds to the output, so the stream that is further on has fuel enough. -/
theorem mirrored_decodeLoop (hwidths : Widths lc lp pb)
    (hroom : Output.Room maximum (earlier.length + target)) {atEos atEos' : Output → Coder → Work Unit}
    (heos : ∀ output coder, (atEos output coder).result = .ok () → output.position = target)
    {fuel fuel' : Nat} (hstate : state.Fits lc lp pb) (hreaches : state.Reaches output)
    (hbehind : output.Behind earlier maximum dictionary next) (hcontext : SameContext lc output next)
    (hposition : output.position ≤ target) (hfuel : target < output.position + fuel') :
    Mirrored (Coder.Beside lc lp pb earlier.length)
      (StreamState.Beside lc lp pb earlier maximum dictionary target)
      (decodeLoop rangeSource atEos (some target) fuel ⟨state, output⟩)
      (decodeLoop rangeSource atEos' (some (earlier.length + target)) fuel' ⟨state, next⟩) := by
  induction fuel generalizing fuel' state output next with
  | zero =>
      intro coder coder' _ out hrun
      cases hrun
  | succ fuel ih =>
      obtain ⟨fuel', rfl⟩ : ∃ rest, fuel' = rest + 1 := ⟨fuel' - 1, by omega⟩
      have hend : some target = some output.position ↔
          some (earlier.length + target) = some next.position := by
        rw [hbehind.position_eq, Option.some.injEq, Option.some.injEq]
        omega
      refine Mirrored.ite_iff hend (fun hdone => ?_) fun hgo => ?_
      · exact Mirrored.pure ⟨rfl, hbehind, hstate, hreaches, (Option.some.inj hdone).symm⟩
      have hless : output.position < target :=
        Nat.lt_of_le_of_ne hposition fun h => hgo (congrArg some h.symm)
      refine (mirrored_decodeOperation hwidths hstate hbehind hreaches hcontext).bind ?_
      rintro ⟨operation, after⟩ _ ⟨rfl, hfits, hremembered⟩
      cases operation with
      | literal byte =>
          obtain rfl : after = state.updateLiteral := hremembered
          refine (Mirrored.lift (hbehind.mirrors_push (hroom.mono (by omega)) byte)).bind ?_
          rintro pushed pushed' ⟨hpushed, hbytes⟩
          have hposition' : pushed.position = output.position + 1 := by
            rw [Output.position, hbytes, List.length_append]
            rfl
          have hreaches' := hreaches.updateLiteral.append [byte]
          refine ih hfits (fun hlow distance hfirst => ?_) hpushed ?_ (by omega) (by omega)
          · rw [hbytes]
            exact hreaches' hlow distance hfirst
          · rw [SameContext, hpushed.previousByte_eq]
            simp [hbytes]
      | «match» distance length =>
          obtain ⟨hlength, hdistance, hfirst⟩ := hremembered
          refine (Mirrored.lift (hbehind.mirrors_applyMatch hroom distance length)).bind ?_
          rintro copied copied' ⟨hcopied, hnear, hfits', bytes, rfl, hbytes⟩
          have hposition' : copied.position = output.position + bytes.length := by
            rw [Output.position, hbytes, List.length_append]
            rfl
          refine ih hfits (fun _ other hother => ?_) hcopied ?_ (by omega) (by omega)
          · obtain rfl := Option.some.inj (hfirst.symm.trans hother)
            rw [hbytes, List.length_append]
            omega
          · rw [SameContext, hcopied.previousByte_eq]
            rw [hbytes]
            intro hnil
            have hempty := congrArg List.length hnil
            rw [List.length_append, List.length_nil] at hempty
            omega
      | «end» =>
          -- With a size declared, the end marker never comes in time.
          intro coder coder' _ out hrun
          obtain ⟨_, _, _, hrun⟩ := Cursor.bind_eq_ok.mp hrun
          obtain ⟨_, _, heos', hrun⟩ := Cursor.bind_eq_ok.mp hrun
          have hsize := heos _ _ (Cursor.lift_eq_ok.mp heos').1
          exact absurd hsize (Nat.ne_of_lt hless)

/-- A state with its probabilities, and one whose probabilities go by the other names. -/
structure StoredState.Beside (lc lp pb : Nat) (earlier : Bytes) (stored next : StoredState) :
    Prop where
  state_eq : next.state = stored.state
  tables : stored.tables.Beside lc lp pb earlier.length next.tables
  fits : stored.state.Fits lc lp pb

theorem position_of_finishAtEos {output : Output} {decoder : RangeDecoder} {size : Nat}
    (h : (finishAtEos output decoder (some size) false).result = .ok ()) :
    output.position = size :=
  (@ensures_finishAtEos 0 (some size) false rfl output decoder).ok h size rfl

/-- A loop with a declared size ends there. -/
theorem position_of_decodeLoop {σ : Type} {source : Source σ} {atEos : Output → σ → Work Unit}
    (heos : ∀ output s, (atEos output s).result = .ok () → output.position = target) {fuel : Nat}
    {stream last : StreamState} {s s' : σ}
    (h : (decodeLoop source atEos (some target) fuel stream s).result = .ok (last, s')) :
    last.output.position = target := by
  induction fuel generalizing stream s with
  | zero => cases h
  | succ fuel ih =>
      unfold decodeLoop at h
      split at h
      · rename_i hdone
        obtain ⟨rfl, -⟩ := Cursor.pure_eq_ok.mp h
        exact (Option.some.inj hdone).symm
      · obtain ⟨⟨operation, state⟩, s1, -, h⟩ := Cursor.bind_eq_ok.mp h
        cases operation with
        | literal byte =>
            obtain ⟨pushed, s2, -, h⟩ := Cursor.bind_eq_ok.mp h
            exact ih h
        | «match» distance length =>
            obtain ⟨copied, s2, -, h⟩ := Cursor.bind_eq_ok.mp h
            exact ih h
        | «end» =>
            obtain ⟨_, s2, -, h⟩ := Cursor.bind_eq_ok.mp h
            obtain ⟨_, s3, hfinish, h⟩ := Cursor.bind_eq_ok.mp h
            obtain ⟨rfl, -⟩ := Cursor.pure_eq_ok.mp h
            exact heos _ _ (Cursor.lift_eq_ok.mp hfinish).1

theorem position_of_decodeStream {source : Source Coder} {stored stored' : StoredState}
    {input : Bytes} {output' : Output} {size : Nat}
    (h : (decodeStream source stored input output (some size) false).result
      = .ok (stored', output')) : output'.position = output.position + size := by
  obtain ⟨goal, hgoal, h⟩ := Metered.bind_eq_ok.mp h
  obtain ⟨range, -, h⟩ := Metered.bind_eq_ok.mp h
  obtain ⟨⟨stream, coder⟩, hloop, h⟩ := Metered.bind_eq_ok.mp h
  obtain ⟨-, rfl⟩ := Prod.mk.inj (Except.ok.inj h)
  obtain ⟨sum, hadd, hgoal⟩ := Metered.bind_eq_ok.mp hgoal
  obtain ⟨_, -, hgoal⟩ := Metered.bind_eq_ok.mp hgoal
  obtain rfl := Except.ok.inj hgoal
  obtain ⟨-, rfl⟩ := checkedAdd_eq_some.mp (orFormat_eq_ok.mp hadd)
  exact position_of_decodeLoop (fun _ _ => position_of_finishAtEos) hloop

/-- A stream of so many bytes, decoded behind what comes before. -/
theorem mirrors_decodeStream (hwidths : Widths lc lp pb) {stored stored' : StoredState}
    (hstored : stored.Beside lc lp pb earlier stored') (hreaches : stored.state.Reaches output)
    (hbehind : output.Behind earlier maximum dictionary next) (hcontext : SameContext lc output next)
    (input : Bytes) {size : Nat}
    (hroom : Output.Room maximum (earlier.length + (output.position + size))) :
    Mirrors (fun a b => a.1.Beside lc lp pb earlier b.1 ∧ a.2.Behind earlier maximum dictionary b.2 ∧
        a.1.state.Reaches a.2)
      (decodeStream rangeSource stored input output (some size) false)
      (decodeStream rangeSource stored' input next (some size) false) := by
  have htarget : Mirrors (fun a b => a = some (output.position + size) ∧
      b = some (earlier.length + (output.position + size)))
      (streamTarget output (some size)) (streamTarget next (some size)) := by
    intro a ha
    obtain ⟨target, hadd, ha⟩ := Metered.bind_eq_ok.mp ha
    obtain ⟨_, _, ha⟩ := Metered.bind_eq_ok.mp ha
    obtain rfl := Except.ok.inj ha
    obtain ⟨-, rfl⟩ := checkedAdd_eq_some.mp (orFormat_eq_ok.mp hadd)
    have hvector := hroom.vector_le
    rw [vectorMax] at hvector
    refine ⟨_, ?_, rfl, rfl⟩
    refine Metered.bind_eq_ok.mpr ⟨earlier.length + (output.position + size), ?_, ?_⟩
    · rw [hbehind.position_eq, ← Nat.add_assoc]
      exact orFormat_eq_ok.mpr (checkedAdd_of_lt (by omega))
    · refine Metered.bind_eq_ok.mpr ⟨(), checkLimit_eq_ok.mpr ?_, rfl⟩
      rw [hbehind.maximum_eq]
      exact hroom.maximum_le
  refine htarget.bind ?_
  rintro _ _ ⟨rfl, rfl⟩
  refine Mirrors.next fun range _ => ?_
  have hfuel : output.position + size < output.position + (next.maximum + 1 - next.position) := by
    have hmaximum := hroom.maximum_le
    rw [hbehind.maximum_eq, hbehind.position_eq]
    omega
  rw [hstored.state_eq]
  refine (mirrored_decodeLoop hwidths hroom (fun _ _ => position_of_finishAtEos) hstored.fits
    hreaches hbehind hcontext (Nat.le_add_right _ _) hfuel ⟨range, stored.tables⟩
    ⟨range, stored'.tables⟩ ⟨rfl, hstored.tables⟩).bind ?_
  rintro ⟨stream, coder⟩ ⟨stream', coder'⟩ ⟨hstream, hcoder⟩
  exact Mirrors.pure ⟨⟨hstream.state_eq, hcoder.tables, hstream.fits⟩, hstream.behind,
    hstream.reaches⟩

end streams

end Lzma

end Un7z
