/-
Every word of the grammar parses to the header it stands for.

One lemma for each production, in the order of the grammar, and each is a chain of
`Parses.bind` along the factors of the product.  Two things are not mechanical.  The
parser reads the identifier of a section before it knows whether the section is
there, so a production is stated together with the identifier read in front of it, and
an absent section is right because what follows begins with another identifier:
that is `Avoids`.  And the parser refuses as soon as a running total passes its limit,
while the hypothesis bounds the final totals only; totals never shrink, so each
intermediate one fits because the last does.
-/
import Un7z.Proofs.Reads

namespace Un7z

open Cursor (Decodes Parses)
open Grammar

/-! ### Charged reads -/

theorem parses_readU8 (b : UInt8) : Parses Raw.readU8 (byte b) b := by
  rintro word rfl
  exact (Decodes.lift (result_checkpoint 1)).bind (decodes_readU8 b)

theorem parses_readU32Le (value : UInt32) : Parses Raw.readU32Le (u32 value) value := by
  rintro word rfl
  exact (Decodes.lift (result_checkpoint 4)).bind (decodes_readU32Le value)

theorem parses_readUint (value : Nat) : Parses Raw.readUint (uint value) value :=
  Parses.liftBind (result_checkpoint 9) (parses_read7zUint value)

theorem parses_readBytes (bytes : Bytes) :
    Parses (Raw.readBytes bytes.length) (raw bytes) bytes := by
  refine Parses.bindOne (a := bytes) ?_ (Parses.liftBind (result_consumeBytes bytes)
    (Parses.pure bytes))
  rintro word rfl
  exact decodes_readBytes word

theorem parses_readMany {α : Type} {item : Reads α} {language : α → Language UInt8}
    (values : List α) (h : ∀ v ∈ values, Parses item (language v) v) :
    Parses (Raw.readMany item values.length) (values.map language).prod values := by
  induction values with
  | nil => exact Parses.pure []
  | cons v values ih =>
      rw [List.map_cons, List.prod_cons]
      refine (h v (by simp)).bind ?_
      exact (ih fun w hw => h w (by simp [hw])).bindOne (Parses.pure _)

theorem parses_sizes (sizes : List Nat) :
    Parses (Raw.parseSizes sizes.length) (uints sizes) sizes :=
  Parses.liftBind (result_checkpoint _) (parses_readMany sizes fun v _ => parses_readUint v)

/-! ### Digests -/

/-- A bit the mask selects is the bit `bitAt` reads. -/
theorem and_mask (byte : UInt8) {j : Nat} (hj : j < 8) :
    decide (byte &&& UInt8.ofNat (0x80 >>> j) ≠ 0) = byte.toNat.testBit (7 - j) := by
  have hmask : (UInt8.ofNat (0x80 >>> j)).toNat = 2 ^ (7 - j) := by
    have hall : ∀ j < 8, (UInt8.ofNat (0x80 >>> j)).toNat = 2 ^ (7 - j) := by decide
    exact hall j hj
  have hand : (byte &&& UInt8.ofNat (0x80 >>> j)).toNat
      = (byte.toNat.testBit (7 - j)).toNat * 2 ^ (7 - j) := by
    rw [UInt8.toNat_and, hmask, Nat.and_two_pow]
  cases hbit : byte.toNat.testBit (7 - j) with
  | false =>
      have hzero : byte &&& UInt8.ofNat (0x80 >>> j) = 0 := by
        rw [← UInt8.toNat_inj, hand, hbit]
        simp
      simp [hzero]
  | true =>
      have hne : byte &&& UInt8.ofNat (0x80 >>> j) ≠ 0 := by
        intro hzero
        rw [hzero, hbit] at hand
        have hpos : 0 < 2 ^ (7 - j) := by positivity
        simp only [UInt8.toNat_zero, Bool.toNat_true, one_mul] at hand
        omega
      simp [hne]

/-- The mask after bit `j`: the next bit down, or zero at the end of a byte. -/
theorem mask_shift {j : Nat} (hj : j < 8) :
    UInt8.ofNat (0x80 >>> j) >>> 1 = UInt8.ofNat (0x80 >>> (j + 1)) := by
  have hall : ∀ j < 8, UInt8.ofNat (0x80 >>> j) >>> 1 = UInt8.ofNat (0x80 >>> (j + 1)) := by
    decide
  exact hall j hj

theorem mask_ne_zero {j : Nat} (hj : j < 8) : UInt8.ofNat (0x80 >>> j) ≠ 0 := by
  have hall : ∀ j < 8, UInt8.ofNat (0x80 >>> j) ≠ 0 := by decide
  exact hall j hj

/--
The bit loop, inside `byte` with `j` bits of it read.

Induction on the values that are still to come; the bits of `byte :: word` from `j` on
are those values, so at `j = 8` the loop is at a byte boundary and takes the next byte
out of `word`.
-/
theorem decodes_parseBitsFrom (values : List Bool) :
    ∀ (byte : UInt8) (word : Bytes) (j : Nat), j ≤ 8 →
      word.length + 1 = max 1 ((j + values.length + 7) / 8) →
      (∀ i (h : i < values.length), bitAt (byte :: word) (j + i) = values[i]) →
      Decodes (Raw.parseBitsFrom values.length byte (UInt8.ofNat (0x80 >>> j))) word values := by
  induction values with
  | nil =>
      intro byte word j hj hlength _
      have hnil : word = [] := List.eq_nil_of_length_eq_zero (by simp at hlength; omega)
      rw [hnil]
      exact Decodes.pure []
  | cons value values ih =>
      intro byte word j hj hlength hbits
      have hrest : ∀ (b : UInt8) (w : Bytes) (j' : Nat), j' < 8 →
          w.length + 1 = max 1 ((j' + (values.length + 1) + 7) / 8) →
          (∀ i (h : i < (value :: values).length),
            bitAt (b :: w) (j' + i) = (value :: values)[i]) →
          b.toNat.testBit (7 - j') = value ∧
            Decodes (Raw.parseBitsFrom values.length b (UInt8.ofNat (0x80 >>> (j' + 1)))) w
              values := by
        intro b w j' hj' hlen hb
        refine ⟨?_, ih b w (j' + 1) hj' (by omega) fun i h => ?_⟩
        · have h0 := hb 0 (by simp)
          simpa [bitAt, Nat.div_eq_of_lt hj', Nat.mod_eq_of_lt hj'] using h0
        · have hi := hb (i + 1) (by simpa using h)
          rw [show j' + 1 + i = j' + (i + 1) by omega]
          simpa using hi
      rw [List.length_cons] at hlength
      rcases Nat.lt_or_eq_of_le hj with hlt | rfl
      · obtain ⟨hvalue, hdec⟩ := hrest byte word j hlt (by omega) hbits
        rw [List.length_cons, Raw.parseBitsFrom, if_neg (mask_ne_zero hlt), mask_shift hlt,
          and_mask byte hlt, hvalue, ← List.append_nil word]
        exact hdec.bind (Decodes.pure _)
      · -- a byte boundary: the next byte of the word is the current one from here on
        cases word with
        | nil => simp at hlength; omega
        | cons next word =>
            rw [List.length_cons] at hlength
            obtain ⟨hvalue, hdec⟩ := hrest next word 0 (by decide) (by omega) fun i h => by
              have hi := hbits i h
              rw [← hi]
              simp [bitAt, Nat.add_div_left, Nat.add_mod_left]
            have hmask := and_mask next (show 0 < 8 by decide)
            rw [hvalue] at hmask
            rw [List.length_cons, Raw.parseBitsFrom, if_pos (by decide)]
            refine (parses_readU8 next [next] rfl).bind (w := word) ?_
            show Decodes (Raw.parseBitsFrom values.length next 0x40 >>= fun values =>
              pure (decide (next &&& 0x80 ≠ 0) :: values)) word (value :: values)
            rw [show decide (next &&& 0x80 ≠ 0) = value from hmask, ← List.append_nil word]
            exact hdec.bind (Decodes.pure _)

theorem parses_parseBits (values : List Bool) :
    Parses (Raw.parseBits values.length) (bits values) values := by
  refine Parses.liftBind (result_checkpoint _) ?_
  rintro word ⟨hlength, hbits⟩
  refine decodes_parseBitsFrom values 0 word 8 le_rfl (by omega) fun i h => ?_
  rw [← hbits i h]
  simp [bitAt, Nat.add_div_left, Nat.add_mod_left]

theorem parses_readIfDefined {α : Type} {item : Reads α} {language : α → Language UInt8}
    (h : ∀ v, Parses item (language v) v) (value : Option α) :
    Parses (Raw.readIfDefined item value.isSome) ((value.map language).getD 1) value := by
  cases value with
  | none => exact Parses.pure none
  | some v => exact (h v).bindOne (Parses.pure (some v))

theorem parses_definedDigests (values : List (Option UInt32)) :
    Parses (Raw.parseDefinedDigests (values.map Option.isSome))
      ((values.filterMap id).map u32).prod values := by
  induction values with
  | nil => exact Parses.pure []
  | cons value values ih =>
      have hprod : (((value :: values).filterMap id).map u32).prod
          = (value.map u32).getD 1 * ((values.filterMap id).map u32).prod := by
        cases value <;> simp
      rw [hprod]
      exact (parses_readIfDefined parses_readU32Le value).bind (ih.bindOne (Parses.pure _))

theorem parses_digests {values : List (Option UInt32)} (hne : values ≠ []) :
    Parses (Raw.parseDigests values.length) (digests values) values := by
  have hlength : values.length ≠ 0 := fun h => hne (List.eq_nil_of_length_eq_zero h)
  rw [Raw.parseDigests, if_neg hlength, digests, definedness]
  refine Parses.liftBind (result_checkpoint _) ?_
  rw [add_mul]
  refine Parses.add ?_ ?_
  · by_cases hall : (values.map Option.isSome).all id
    · -- a flag that is not zero: every digest is there
      have hreplicate : List.replicate values.length true = values.map Option.isSome := by
        rw [eq_comm, List.eq_replicate_iff]
        exact ⟨by simp, fun b hb => List.all_eq_true.mp hall b hb⟩
      rw [if_pos hall]
      rintro word hword
      obtain ⟨_, ⟨flag, hflag, rfl⟩, w, hw, rfl⟩ := Language.mem_mul.mp hword
      refine (parses_readU8 flag [flag] rfl).bind ?_
      rw [if_neg hflag, hreplicate]
      exact (Decodes.pure _).bind (parses_definedDigests values w hw)
    · rw [if_neg hall, zero_mul]
      exact fun word hword => absurd hword (Language.notMem_zero word)
  · rw [mul_assoc]
    refine (parses_readU8 0).bind ?_
    rw [if_pos rfl]
    have hbits := parses_parseBits (values.map Option.isSome)
    rw [List.length_map] at hbits
    exact hbits.bind (parses_definedDigests values)

/-! ### Optional sections -/

/-- Every word of the language begins with a byte other than `id`. -/
def Avoids (id : UInt8) (language : Language UInt8) : Prop :=
  ∀ word ∈ language, ∃ b tail, word = b :: tail ∧ b ≠ id

theorem avoids_byte {id b : UInt8} (h : b ≠ id) (M : Language UInt8) : Avoids id (byte b * M) := by
  intro word hword
  obtain ⟨v, rfl, w, -, rfl⟩ := Language.mem_mul.mp hword
  exact ⟨b, w, rfl, h⟩

theorem avoids_end {id : UInt8} (h : idEnd ≠ id) : Avoids id (byte idEnd) := by
  rintro word rfl
  exact ⟨idEnd, [], rfl, h⟩

theorem avoids_announced {α : Type} {id expected : UInt8} {value : Option α}
    {language : α → Language UInt8} {M : Language UInt8} (h : expected ≠ id) (hM : Avoids id M) :
    Avoids id (announced expected value language * M) := by
  cases value with
  | none => rwa [announced, one_mul]
  | some a =>
      rw [announced, mul_assoc]
      exact avoids_byte h _

/-- Two parsers that go on in the same way after `b` decode the same words from `b` on. -/
theorem decodes_next_congr {β : Type} {p q : UInt8 → Reads β} {b : UInt8} {tail : Bytes} {v : β}
    (h : p b = q b) (hq : Decodes (Raw.readU8 >>= q) (b :: tail) v) :
    Decodes (Raw.readU8 >>= p) (b :: tail) v := by
  intro s rest' hs hrest
  obtain ⟨s', hrun, hs', -⟩ := parses_readU8 b [b] rfl s (tail ++ rest') hs hrest
  obtain ⟨t, hrun', ht, htail⟩ := hq s rest' hs hrest
  refine ⟨t, ?_, ht, htail⟩
  rw [Cursor.result_bind_ok hrun, h, ← Cursor.result_bind_ok hrun, hrun']

/-- A missing section: the identifier that was read belongs to what follows. -/
theorem parses_absent {β : Type} (id : UInt8) {p q : UInt8 → Reads β} {M : Language UInt8} {v : β}
    (h : ∀ b ≠ id, p b = q b) (hM : Avoids id M) (hq : Parses (Raw.readU8 >>= q) M v) :
    Parses (Raw.readU8 >>= p) M v := by
  intro word hword
  obtain ⟨b, tail, rfl, hb⟩ := hM word hword
  exact decodes_next_congr (h b hb) (hq _ hword)

/-- A section that may be missing, in front of what follows it. -/
theorem parses_section {α β : Type} {expected : UInt8} {value : Option α}
    {language : α → Language UInt8} {p q : UInt8 → Reads β} {M : Language UInt8} {v : β}
    (habsent : value = none → ∀ b ≠ expected, p b = q b)
    (hpresent : ∀ a, value = some a → Parses (p expected) (language a * M) v)
    (hM : Avoids expected M) (hq : value = none → Parses (Raw.readU8 >>= q) M v) :
    Parses (Raw.readU8 >>= p) (announced expected value language * M) v := by
  cases value with
  | none =>
      rw [announced, one_mul]
      exact parses_absent _ (habsent rfl) hM (hq rfl)
  | some a =>
      rw [announced, mul_assoc]
      exact (parses_readU8 expected).bind (hpresent a rfl)

theorem parses_announced {α β : Type} {expected : UInt8} {value : Option α} {body : Reads α}
    {language : α → Language UInt8} {f : Option α × UInt8 → Reads β} {M : Language UInt8} {v : β}
    (hbody : ∀ a ∈ value, Parses body (language a) a) (hM : Avoids expected M)
    (hf : Parses (Raw.readU8 >>= fun id => f (value, id)) M v) :
    Parses (Raw.readU8 >>= fun id => Raw.optionalSection id expected body >>= f)
      (announced expected value language * M) v := by
  refine parses_section (q := fun id => f (value, id)) (fun hnone b hb => ?_) (fun a ha => ?_) hM
    fun _ => hf
  · rw [Raw.optionalSection, if_neg hb, pure_bind, hnone]
  · simp only [Raw.optionalSection, if_true, bind_assoc, pure_bind]
    exact (hbody a ha).bind (ha ▸ hf)

theorem parses_end {α : Type} (detail : String) (a : α) :
    Parses (Raw.readU8 >>= fun id =>
      if id ≠ idEnd then (liftM (formatErr detail : Work α) : Reads α) else pure a)
      (byte idEnd) a :=
  (parses_readU8 idEnd).bindOne (by rw [if_neg (by simp)]; exact Parses.pure a)

/-! ### Running totals -/

namespace ParseState

theorem addLimited_ok {value additional maximum : Nat} {limit : LimitKind} {detail : String}
    (h : value + additional ≤ maximum ∧ value + additional < 2 ^ 64) :
    (addLimited value additional maximum limit detail).result = .ok (value + additional) := by
  simp only [addLimited, Metered.bind_eq_ok, orFormat_eq_ok, checkedAdd_eq_some]
  exact ⟨_, ⟨h.2, rfl⟩, (), checkLimit_of_le h.1 _, rfl⟩

/-- What fits with more counted in fits without. -/
theorem Fits.left {a b : ParseState} {limits : Limits} (h : (a + b).Fits limits) :
    a.Fits limits := by
  obtain ⟨h₁, h₂, h₃, h₄, h₅, h₆⟩ := h
  simp only [add_totalFolders, add_totalCoders, add_totalStreams, add_totalPackedStreams,
    add_totalSubstreams, add_totalProperties] at h₁ h₂ h₃ h₄ h₅ h₆
  constructor <;> omega

theorem addFolders_ok {state : ParseState} {count : Nat} {limits : Limits}
    (h : (state + { totalFolders := count }).Fits limits) :
    (state.addFolders count limits).result = .ok (state + { totalFolders := count }) :=
  Metered.result_bind_ok (addLimited_ok h.folders)

theorem addCoders_ok {state : ParseState} {count : Nat} {limits : Limits}
    (h : (state + { totalCoders := count }).Fits limits) :
    (state.addCoders count limits).result = .ok (state + { totalCoders := count }) :=
  Metered.result_bind_ok (addLimited_ok h.coders)

theorem addStreams_ok {state : ParseState} {count : Nat} {limits : Limits}
    (h : (state + { totalStreams := count }).Fits limits) :
    (state.addStreams count limits).result = .ok (state + { totalStreams := count }) :=
  Metered.result_bind_ok (addLimited_ok h.streams)

theorem addPackedStreams_ok {state : ParseState} {count : Nat} {limits : Limits}
    (h : (state + { totalPackedStreams := count }).Fits limits) :
    (state.addPackedStreams count limits).result
      = .ok (state + { totalPackedStreams := count }) :=
  Metered.result_bind_ok (addLimited_ok h.packedStreams)

theorem addSubstreams_ok {state : ParseState} {count : Nat} {limits : Limits}
    (h : (state + { totalSubstreams := count }).Fits limits) :
    (state.addSubstreams count limits).result = .ok (state + { totalSubstreams := count }) :=
  Metered.result_bind_ok (addLimited_ok h.substreams)

theorem addProperty_ok {state : ParseState} {limits : Limits}
    (h : (state + { totalProperties := 1 }).Fits limits) :
    (state.addProperty limits).result = .ok (state + { totalProperties := 1 }) :=
  Metered.result_bind_ok (addLimited_ok h.properties)

end ParseState

/-! ### Packed streams -/

theorem parses_packInfo {info : RawPackInfo} (h : info.WellCounted) {state : ParseState}
    {limits : Limits} (hfits : (state + info.totals).Fits limits) :
    Parses (Raw.parsePackInfo state limits) (packInfo info) (info, state + info.totals) := by
  simp only [packInfo, mul_assoc]
  refine (parses_readUint _).bind ((parses_readUint _).bind ?_)
  rw [if_neg h.streams_ne]
  refine Parses.liftBind (ParseState.addPackedStreams_ok hfits) ?_
  refine parses_announced (fun sizes hs => h.sizes sizes hs ▸ parses_sizes sizes)
    (avoids_announced (by decide) (avoids_end (by decide))) ?_
  refine parses_announced (fun crcs hc => ?_) (avoids_end (by decide)) (parses_end _ _)
  have hlength := h.crcs crcs hc
  rw [← hlength]
  exact parses_digests fun hnil => h.streams_ne (by rw [← hlength, hnil]; rfl)

/-! ### Coders and folders -/

/-- The bits of the first byte are what the parser takes them for. -/
theorem coderFlags_spec {n : Nat} (hle : n ≤ 15) (complex attributes : Bool) :
    coderFlags n complex attributes &&& 0x80 = 0 ∧ coderFlags n complex attributes &&& 0x40 = 0 ∧
      (coderFlags n complex attributes &&& 0x0f).toNat = n ∧
      (coderFlags n complex attributes &&& 0x10 ≠ 0 ↔ complex = true) ∧
      (coderFlags n complex attributes &&& 0x20 ≠ 0 ↔ attributes = true) := by
  have hall : ∀ n < 16, ∀ complex attributes : Bool,
      coderFlags n complex attributes &&& 0x80 = 0 ∧ coderFlags n complex attributes &&& 0x40 = 0 ∧
        (coderFlags n complex attributes &&& 0x0f).toNat = n ∧
        (coderFlags n complex attributes &&& 0x10 ≠ 0 ↔ complex = true) ∧
        (coderFlags n complex attributes &&& 0x20 ≠ 0 ↔ attributes = true) := by decide
  exact hall n (by omega) complex attributes

theorem parses_coderStreams {flags : UInt8} {complex : Bool} {input output : Nat}
    (hflags : flags &&& 0x10 ≠ 0 ↔ complex = true) (hinput : input ≠ 0) (houtput : output ≠ 0)
    (hsimple : complex = false → input = 1 ∧ output = 1) :
    Parses (Raw.parseCoderStreams flags)
      (if complex then uint input * uint output else 1) (input, output) := by
  cases complex with
  | true =>
      rw [if_pos rfl, Raw.parseCoderStreams, if_pos (hflags.mpr rfl)]
      refine (parses_readUint _).bind ((parses_readUint _).bindOne ?_)
      rw [if_neg (by simp [hinput, houtput])]
      exact Parses.pure _
  | false =>
      obtain ⟨rfl, rfl⟩ := hsimple rfl
      rw [if_neg (by simp), Raw.parseCoderStreams, if_neg fun hc => by simpa using hflags.mp hc]
      exact Parses.pure _

theorem parses_coderProperties {flags : UInt8} {attributes : Bool} {properties : Bytes}
    {limits : Limits} (hflags : flags &&& 0x20 ≠ 0 ↔ attributes = true)
    (hlimit : properties.length ≤ limits.maxCoderPropertyBytes)
    (hempty : attributes = false → properties = []) :
    Parses (Raw.parseCoderProperties flags limits)
      (if attributes then uint properties.length * raw properties else 1) properties := by
  cases attributes with
  | true =>
      rw [if_pos rfl, Raw.parseCoderProperties, if_pos (hflags.mpr rfl)]
      exact (parses_readUint _).bind
        (Parses.liftBind (checkLimit_of_le hlimit _) (parses_readBytes _))
  | false =>
      obtain rfl := hempty rfl
      rw [if_neg (by simp), Raw.parseCoderProperties,
        if_neg fun hc => by simpa using hflags.mp hc]
      exact Parses.pure _

theorem parses_coder {c : RawCoder} (h : c.WellCounted) {limits : Limits}
    (hlimit : c.properties.length ≤ limits.maxCoderPropertyBytes) :
    Parses (Raw.parseCoder limits) (coder c) c := by
  rintro word ⟨complex, attributes, hsimple, hempty, hword⟩
  obtain ⟨h80, h40, hlength, h10, h20⟩ := coderFlags_spec h.methodId_le complex attributes
  have hlength_ne : c.methodId.length ≠ 0 :=
    fun hnil => h.methodId_ne (List.eq_nil_of_length_eq_zero hnil)
  rw [mul_assoc, mul_assoc] at hword
  revert word
  show Parses (Raw.parseCoder limits) _ c
  refine (parses_readU8 _).bind ?_
  simp only [h80, h40, hlength, ne_eq, not_true_eq_false, if_false, if_neg hlength_ne]
  exact (parses_readBytes _).bind
    ((parses_coderStreams h10 h.input_ne h.output_ne hsimple).bind
      ((parses_coderProperties h20 hlimit hempty).bindOne (Parses.pure _)))

/-- The coder loop, with the stream counters it starts from. -/
theorem parses_coders {limits : Limits} (coders : List RawCoder)
    (h : ∀ c ∈ coders, c.WellCounted)
    (hlimit : ∀ c ∈ coders, c.properties.length ≤ limits.maxCoderPropertyBytes) :
    ∀ {input output : Nat}, input + (coders.map (·.inputStreams)).sum < 2 ^ 64 →
      output + (coders.map (·.outputStreams)).sum < 2 ^ 64 →
      Parses (Raw.parseCoders limits coders.length input output) (coders.map coder).prod
        (coders, input + (coders.map (·.inputStreams)).sum,
          output + (coders.map (·.outputStreams)).sum) := by
  induction coders with
  | nil => intro input output _ _; exact Parses.pure _
  | cons c coders ih =>
      intro input output hinput houtput
      simp only [List.map_cons, List.sum_cons, List.prod_cons, ← Nat.add_assoc] at hinput houtput ⊢
      refine (parses_coder (h c (by simp)) (hlimit c (by simp))).bind ?_
      refine Parses.liftBind (orFormat_eq_ok.mpr (checkedAdd_of_lt (by omega))) ?_
      refine Parses.liftBind (orFormat_eq_ok.mpr (checkedAdd_of_lt (by omega))) ?_
      exact (ih (fun d hd => h d (by simp [hd])) (fun d hd => hlimit d (by simp [hd]))
        hinput houtput).bindOne (Parses.pure _)

theorem parses_bindPair (pair : RawBindPair) : Parses Raw.parseBindPair (bindPair pair) pair :=
  (parses_readUint _).bind ((parses_readUint _).bindOne (Parses.pure _))

theorem parses_packedIndices {indices : Option (List Nat)} {packedStreams : Nat}
    (hnone : indices.isNone ↔ packedStreams = 1)
    (hlength : ∀ values ∈ indices, values.length = packedStreams) :
    Parses (Raw.parsePackedIndices packedStreams) (packedIndices indices) indices := by
  cases indices with
  | none =>
      rw [Raw.parsePackedIndices, if_pos (hnone.mp rfl)]
      exact Parses.pure none
  | some values =>
      rw [Raw.parsePackedIndices, if_neg fun h1 => by simpa using hnone.mpr h1]
      rw [← hlength values rfl]
      exact (parses_readMany values fun v _ => parses_readUint v).bindOne (Parses.pure _)

/-- A folder parses to all but its unpack sizes, which are listed later. -/
theorem parses_folder {f : RawFolder} (h : f.WellCounted) {state : ParseState} {limits : Limits}
    (hlimits : f.WithinLimits limits) (hfits : (state + f.totals).Fits limits) :
    Parses (Raw.parseFolder state limits) (folder f)
      ({ f with unpackSizes := [] }, state + f.totals) := by
  have hcoders_ne : f.coders.length ≠ 0 :=
    fun hnil => h.coders_ne (List.eq_nil_of_length_eq_zero hnil)
  have htotals : state + f.totals
      = state + { totalCoders := f.coders.length }
        + { totalStreams := f.inputStreams + f.outputStreams } := by
    rw [add_assoc]
    exact congrArg (state + ·) (ParseState.ext rfl rfl (Nat.zero_add _).symm rfl rfl rfl)
  rw [htotals] at hfits ⊢
  have hports : f.inputStreams + f.outputStreams < 2 ^ 64 := by
    have hstreams := hfits.streams.2
    exact Nat.lt_of_le_of_lt (Nat.le_add_left _ _) hstreams
  have hbinds := h.bindPairs
  have hpacked := h.packedStreams
  have houtput := h.output_le
  simp only [folder, mul_assoc]
  refine (parses_readUint _).bind ?_
  rw [if_neg hcoders_ne]
  refine Parses.liftBind (checkLimit_of_le hlimits.coders _) ?_
  refine Parses.liftBind (ParseState.addCoders_ok hfits.left) ?_
  refine (parses_coders f.coders h.coders hlimits.properties
    (by rw [← h.inputStreams]; omega) (by rw [← h.outputStreams]; omega)).bind ?_
  rw [← h.inputStreams, ← h.outputStreams, Nat.zero_add, Nat.zero_add]
  refine Parses.liftBind (orFormat_eq_ok.mpr (checkedAdd_of_lt hports)) ?_
  refine Parses.liftBind (checkLimit_of_le hlimits.streams _) ?_
  refine Parses.liftBind (ParseState.addStreams_ok hfits) ?_
  rw [if_neg (by omega)]
  have hbindCount : checkedSub f.outputStreams 1 = some f.bindPairs.length := by
    rw [checkedSub_of_le (by omega)]
    congr 1
    omega
  refine Parses.liftBind (orFormat_eq_ok.mpr hbindCount) ?_
  refine (parses_readMany f.bindPairs fun pair _ => parses_bindPair pair).bind ?_
  have hpackedCount : checkedSub f.inputStreams f.bindPairs.length = some f.packedStreams := by
    rw [checkedSub_of_le (by omega)]
    congr 1
    omega
  refine Parses.liftBind (orFormat_eq_ok.mpr hpackedCount) ?_
  rw [if_neg (by omega)]
  exact (parses_packedIndices h.packedIndices h.packedIndices_length).bindOne (Parses.pure _)

theorem parses_folders {limits : Limits} (folders : List RawFolder)
    (h : ∀ f ∈ folders, f.WellCounted) (hlimits : ∀ f ∈ folders, f.WithinLimits limits) :
    ∀ {state : ParseState}, (state + (folders.map (·.totals)).sum).Fits limits →
      Parses (Raw.parseFolders limits folders.length state) (folders.map folder).prod
        (folders.map ({ · with unpackSizes := [] }),
          state + (folders.map (·.totals)).sum) := by
  induction folders with
  | nil => intro state _; exact Parses.pure _
  | cons f folders ih =>
      intro state hfits
      simp only [List.map_cons, List.sum_cons, List.prod_cons, ← add_assoc] at hfits ⊢
      refine (parses_folder (h f (by simp)) (hlimits f (by simp)) hfits.left).bind ?_
      exact (ih (fun g hg => h g (by simp [hg])) (fun g hg => hlimits g (by simp [hg]))
        hfits).bindOne (Parses.pure _)

theorem parses_unpackSizes (folders : List RawFolder) (h : ∀ f ∈ folders, f.WellCounted) :
    Parses (Raw.parseUnpackSizes (folders.map ({ · with unpackSizes := [] })))
      (folders.map fun f => uints f.unpackSizes).prod folders := by
  induction folders with
  | nil => exact Parses.pure []
  | cons f folders ih =>
      rw [List.map_cons, List.map_cons, List.prod_cons]
      have hsizes := parses_sizes f.unpackSizes
      rw [(h f (by simp)).unpackSizes] at hsizes
      exact hsizes.bind ((ih fun g hg => h g (by simp [hg])).bindOne (Parses.pure _))

theorem parses_unpackInfo {info : RawUnpackInfo} (h : info.WellCounted) {state : ParseState}
    {limits : Limits} {external : Option ExternalFolderData}
    (hlimits : ∀ f ∈ info.folders, f.WithinLimits limits)
    (hfits : (state + info.totals).Fits limits) :
    Parses (Raw.parseUnpackInfo state limits external) (unpackInfo info)
      (.complete info, state + info.totals) := by
  have hfolders_ne : info.folders.length ≠ 0 :=
    fun hnil => h.folders_ne (List.eq_nil_of_length_eq_zero hnil)
  rw [RawUnpackInfo.totals, ← add_assoc] at hfits ⊢
  simp only [unpackInfo, mul_assoc]
  refine (parses_readU8 _).bind ?_
  rw [if_neg (by simp)]
  refine (parses_readUint _).bind ?_
  rw [if_neg hfolders_ne]
  refine Parses.liftBind (ParseState.addFolders_ok hfits.left) ?_
  refine Parses.liftBind (result_checkpoint _) ((parses_readU8 0).bind ?_)
  rw [if_pos rfl]
  refine (parses_folders info.folders h.folders hlimits hfits).bind ?_
  refine Parses.bindOne (a := info) ?_ (Parses.pure _)
  refine (parses_readU8 _).bind ?_
  rw [if_neg (by simp)]
  refine (parses_unpackSizes info.folders h.folders).bind ?_
  refine parses_announced (fun crcs hc => ?_) (avoids_end (by decide)) (parses_end _ _)
  have hlength := h.crcs crcs hc
  rw [← hlength]
  exact parses_digests fun hnil => hfolders_ne (by rw [← hlength, hnil]; rfl)

/-! ### Substreams -/

theorem additionalSizes_ok (count : Nat) :
    (Raw.additionalSizes count).result = .ok (count - 1) := by
  by_cases hzero : count = 0
  · rw [Raw.additionalSizes, if_pos hzero, hzero]
    rfl
  · rw [Raw.additionalSizes, if_neg hzero]
    exact orFormat_eq_ok.mpr (checkedSub_of_le (by omega))

theorem countSubstreams_ok (counts : List Nat) : ∀ (total explicit : Nat),
    total + counts.sum < 2 ^ 64 → explicit + (counts.map (· - 1)).sum < 2 ^ 64 →
      (Raw.countSubstreams counts total explicit).result
        = .ok (total + counts.sum, explicit + (counts.map (· - 1)).sum) := by
  induction counts with
  | nil => intro total explicit _ _; rfl
  | cons count counts ih =>
      intro total explicit htotal hexplicit
      simp only [List.map_cons, List.sum_cons, ← Nat.add_assoc] at htotal hexplicit ⊢
      rw [Raw.countSubstreams, Metered.result_bind_ok
        (orFormat_eq_ok.mpr (checkedAdd_of_lt (show total + count < 2 ^ 64 by omega))),
        Metered.result_bind_ok (additionalSizes_ok count), Metered.result_bind_ok
        (orFormat_eq_ok.mpr (checkedAdd_of_lt (show explicit + (count - 1) < 2 ^ 64 by omega)))]
      exact ih _ _ htotal hexplicit

theorem sum_pred_le (counts : List Nat) : (counts.map (· - 1)).sum ≤ counts.sum := by
  induction counts with
  | nil => exact le_rfl
  | cons count counts ih =>
      rw [List.map_cons, List.sum_cons, List.sum_cons]
      omega

theorem digestCount_le (crcs : Option (List (Option UInt32))) (counts : List Nat) :
    ∀ folderIndex, digestCount crcs folderIndex counts ≤ counts.sum := by
  induction counts with
  | nil => intro folderIndex; exact le_rfl
  | cons count counts ih =>
      intro folderIndex
      have hrest := ih (folderIndex + 1)
      rw [digestCount, List.sum_cons]
      split <;> omega

theorem addDigests_ok {crcs : Option (List (Option UInt32))} {folderIndex count digests : Nat}
    (h : digests + count < 2 ^ 64) :
    (Raw.addDigests crcs folderIndex count digests).result = .ok (digests +
      if count = 1 ∧ (Raw.inheritedCrc crcs folderIndex).isSome then 0 else count) := by
  unfold Raw.addDigests
  by_cases hown : count ≠ 1 ∨ (Raw.inheritedCrc crcs folderIndex).isNone
  · rw [if_pos hown, if_neg fun hc => by simp_all]
    exact orFormat_eq_ok.mpr (checkedAdd_of_lt h)
  · rw [if_neg hown, if_pos (by simp_all [Option.isSome_iff_ne_none])]
    rfl

theorem countDigests_ok (crcs : Option (List (Option UInt32))) (counts : List Nat) :
    ∀ (folderIndex digests : Nat), digests + counts.sum < 2 ^ 64 →
      (Raw.countDigests crcs folderIndex counts digests).result
        = .ok (digests + digestCount crcs folderIndex counts) := by
  induction counts with
  | nil => intro folderIndex digests _; rfl
  | cons count counts ih =>
      intro folderIndex digests hsum
      rw [List.sum_cons] at hsum
      rw [Raw.countDigests, Metered.result_bind_ok (addDigests_ok (by omega)), digestCount,
        ← Nat.add_assoc]
      exact ih _ _ (by split <;> omega)

theorem avoids_add {id : UInt8} {L M : Language UInt8} (hL : Avoids id L) (hM : Avoids id M) :
    Avoids id (L + M) := by
  intro word hword
  rcases (Language.mem_add L M word).mp hword with h | h
  · exact hL word h
  · exact hM word h

theorem parses_zero {α : Type} {p : Reads α} {a : α} : Parses p 0 a :=
  fun word hword => absurd hword (Language.notMem_zero word)

/-- The counts, stated or left out, in front of what follows them. -/
theorem parses_substreamCounts {β : Type} {counts : List Nat} {folderCount : Nat}
    (hlength : counts.length = folderCount) {f : List Nat × UInt8 → Reads β}
    {M : Language UInt8} {v : β} (hM : Avoids idNumUnpackStream M)
    (hf : Parses (Raw.readU8 >>= fun id => f (counts, id)) M v) :
    Parses (Raw.readU8 >>= fun id => Raw.parseSubstreamCounts id folderCount >>= f)
      (substreamCounts counts * M) v := by
  rw [substreamCounts, add_mul]
  refine Parses.add ?_ ?_
  · rw [mul_assoc]
    refine (parses_readU8 _).bind ?_
    simp only [Raw.parseSubstreamCounts, if_true, bind_assoc, pure_bind]
    rw [← hlength]
    exact (parses_readMany counts fun v _ => parses_readUint v).bind hf
  · by_cases hones : ∀ count ∈ counts, count = 1
    · rw [if_pos hones, one_mul]
      refine parses_absent _ (fun b hb => ?_) hM hf
      have hreplicate : List.replicate folderCount 1 = counts := by
        rw [eq_comm, List.eq_replicate_iff]
        exact ⟨hlength, hones⟩
      rw [Raw.parseSubstreamCounts, if_neg hb, pure_bind, hreplicate]
    · rw [if_neg hones, zero_mul]
      exact parses_zero

theorem parses_substreamsInfo {info : RawSubstreamsInfo} {unpack : RawUnpackInfo}
    (h : info.WellCounted unpack) {state : ParseState} {limits : Limits}
    (hfits : (state + { totalSubstreams := info.counts.sum }).Fits limits) :
    Parses (Raw.parseSubstreamsInfo unpack state limits) (substreamsInfo info)
      (info, state + { totalSubstreams := info.counts.sum }) := by
  have hsum : info.counts.sum < 2 ^ 64 :=
    Nat.lt_of_le_of_lt (Nat.le_add_left _ _) hfits.substreams.2
  have hsizes := sum_pred_le info.counts
  simp only [substreamsInfo, mul_assoc]
  refine parses_substreamCounts h.counts (avoids_announced (by decide)
    (avoids_announced (by decide) (avoids_end (by decide)))) ?_
  have hcount := countSubstreams_ok info.counts 0 0 (by omega) (by omega)
  have hdigests := countDigests_ok unpack.crcs info.counts 0 0 (by omega)
  simp only [Nat.zero_add] at hcount hdigests
  refine Parses.bindLift hcount (Parses.bindLift (ParseState.addSubstreams_ok hfits) ?_)
  refine parses_announced (fun sizes hs => h.explicitSizes sizes hs ▸ parses_sizes sizes)
    (avoids_announced (by decide) (avoids_end (by decide))) ?_
  refine Parses.bindLift hdigests ?_
  refine parses_announced (fun crcs hc => ?_) (avoids_end (by decide)) (parses_end _ _)
  rw [← h.crcs crcs hc]
  exact parses_digests (h.crcs_ne crcs hc)

/-! ### Streams -/

theorem parses_streamsTail {info : RawStreamsInfo} (h : info.WellCounted) {state : ParseState}
    {limits : Limits} (hfits : (state + info.substreamTotals).Fits limits) :
    Parses (Raw.readU8 >>= fun id =>
        Raw.parseStreamsTail id info.pack info.unpack state limits)
      (announced idSubstreamsInfo info.substreams substreamsInfo * byte idEnd)
      (.complete info, state + info.substreamTotals) := by
  cases hsub : info.substreams with
  | none =>
      have hend : Parses (Raw.readU8 >>= fun id =>
          if id ≠ idEnd then (liftM (formatErr "unexpected StreamsInfo identifier"
            : Work (ParsedStreamsInfo × ParseState)) : Reads (ParsedStreamsInfo × ParseState))
          else pure (ParsedStreamsInfo.complete info, state + info.substreamTotals))
          (byte idEnd) (.complete info, state + info.substreamTotals) := parses_end _ _
      rw [announced, one_mul]
      have hinfo : (⟨info.pack, info.unpack, none⟩ : RawStreamsInfo) = info := by
        rw [← hsub]
      cases hunpack : info.unpack with
      | none =>
          have hzero : state + info.substreamTotals = state := by
            rw [RawStreamsInfo.substreamTotals, hsub, hunpack]
            exact add_zero state
          rw [hzero] at hend ⊢
          refine parses_absent _ (fun b hb => ?_) (avoids_end (by decide : idEnd ≠ idSubstreamsInfo))
            hend
          simp only [Raw.parseStreamsTail, Raw.parseSubstreamsSection, if_neg hb, pure_bind]
          rw [← hunpack, hinfo]
      | some unpack =>
          have htotals : info.substreamTotals
              = { totalSubstreams := unpack.folders.length } := by
            rw [RawStreamsInfo.substreamTotals, hsub, hunpack]
          rw [htotals] at hfits hend ⊢
          refine parses_absent idSubstreamsInfo (q := fun id =>
            liftM (state.addSubstreams unpack.folders.length limits) >>= fun state =>
              if id ≠ idEnd then (liftM (formatErr "unexpected StreamsInfo identifier"
                : Work (ParsedStreamsInfo × ParseState)) : Reads (ParsedStreamsInfo × ParseState))
              else pure (ParsedStreamsInfo.complete info, state)) (fun b hb => ?_)
            (avoids_end (by decide))
            (Parses.bindLift (ParseState.addSubstreams_ok hfits) hend)
          simp only [Raw.parseStreamsTail, Raw.parseSubstreamsSection, if_neg hb, bind_assoc,
            pure_bind]
          rw [← hunpack, hinfo]
  | some substreams =>
      obtain ⟨unpack, hunpack, hcounted⟩ := h.substreams substreams hsub
      have htotals : info.substreamTotals = { totalSubstreams := substreams.counts.sum } := by
        rw [RawStreamsInfo.substreamTotals, hsub]
      have hinfo : (⟨info.pack, some unpack, some substreams⟩ : RawStreamsInfo) = info := by
        rw [← hsub, ← hunpack]
      rw [htotals] at hfits ⊢
      rw [announced, mul_assoc, hunpack]
      refine (parses_readU8 _).bind ?_
      simp only [Raw.parseStreamsTail, Raw.parseSubstreamsSection, if_true, bind_assoc, pure_bind]
      refine (parses_substreamsInfo hcounted hfits).bind ?_
      rw [← hinfo]
      exact parses_end _ _

theorem parses_streamsInfo {info : RawStreamsInfo} (h : info.WellCounted) {state : ParseState}
    {limits : Limits} {external : Option ExternalFolderData} (hlimits : info.WithinLimits limits)
    (hfits : (state + info.totals).Fits limits) :
    Parses (Raw.parseStreamsInfo state limits external) (streamsInfo info)
      (.complete info, state + info.totals) := by
  rw [RawStreamsInfo.totals, ← add_assoc, ← add_assoc] at hfits ⊢
  simp only [streamsInfo, mul_assoc]
  have htail := parses_streamsTail h hfits
  -- the folders, from the identifier after the packed streams on
  have hunpack : Parses (Raw.readU8 >>= fun id => Raw.parseUnpackSection id info.pack
        (state + (info.pack.map (·.totals)).getD 0) limits external)
      (announced idUnpackInfo info.unpack unpackInfo *
        (announced idSubstreamsInfo info.substreams substreamsInfo * byte idEnd))
      (.complete info, state + (info.pack.map (·.totals)).getD 0 +
        (info.unpack.map (·.totals)).getD 0 + info.substreamTotals) := by
    refine parses_section (fun hnone b hb => ?_) (fun unpack hsome => ?_)
      (avoids_announced (by decide) (avoids_end (by decide))) fun hnone => htail
    · rw [Raw.parseUnpackSection, if_neg hb, hnone]
      exact congrArg (Raw.parseStreamsTail b info.pack none · limits) (add_zero _).symm
    · rw [Raw.parseUnpackSection, if_pos rfl]
      rw [hsome] at htail hfits ⊢
      exact (parses_unpackInfo (h.unpack unpack hsome) (hlimits unpack hsome)
        hfits.left).bind htail
  refine parses_section (q := fun id => Raw.parseUnpackSection id info.pack
      (state + (info.pack.map (·.totals)).getD 0) limits external)
    (fun hnone b hb => ?_) (fun pack hsome => ?_)
    (avoids_announced (by decide) (avoids_announced (by decide) (avoids_end (by decide))))
    fun _ => hunpack
  · simp only [Raw.parsePackSection, if_neg hb, pure_bind, hnone]
    exact congrArg (Raw.parseUnpackSection b none · limits external) (add_zero _).symm
  · simp only [Raw.parsePackSection, if_true, bind_assoc, pure_bind]
    rw [hsome] at hunpack hfits ⊢
    exact (parses_packInfo (h.pack pack hsome) hfits.left.left).bind hunpack

/-! ### Properties and files -/

theorem propertyTotals_cons (p : RawProperty) (properties : List RawProperty) :
    propertyTotals (p :: properties) = { totalProperties := 1 } + propertyTotals properties :=
  ParseState.ext rfl rfl rfl rfl rfl (Nat.add_comm _ _)

/-- A property list decodes with any fuel that is at least its number of rounds. -/
theorem decodes_propertyListFrom {limits : Limits} (properties : List RawProperty)
    (hid : ∀ p ∈ properties, p.id ≠ idEnd) (hlimits : propertiesWithinLimits properties limits) :
    ∀ {fuel : Nat} {state : ParseState}, properties.length < fuel →
      (state + propertyTotals properties).Fits limits →
      Parses (Raw.parsePropertyListFrom limits fuel state) (propertyList properties)
        (properties, state + propertyTotals properties) := by
  induction properties with
  | nil =>
      intro fuel state hfuel _
      cases fuel with
      | zero => exact absurd hfuel (Nat.not_lt_zero _)
      | succ fuel =>
          rw [propertyList, List.map_nil, List.prod_nil, one_mul]
          refine (parses_readU8 idEnd).bindOne ?_
          rw [if_pos rfl]
          exact Parses.pure _
  | cons p properties ih =>
      intro fuel state hfuel hfits
      cases fuel with
      | zero => exact absurd hfuel (Nat.not_lt_zero _)
      | succ fuel =>
          rw [propertyTotals_cons, ← add_assoc] at hfits ⊢
          rw [propertyList, List.map_cons, List.prod_cons, property]
          simp only [mul_assoc]
          refine (parses_readU8 p.id).bind ?_
          rw [if_neg (hid p (by simp))]
          refine Parses.liftBind (ParseState.addProperty_ok hfits.left) ?_
          refine (parses_readUint _).bind ?_
          refine Parses.liftBind (checkLimit_of_le (hlimits p (by simp)) _) ?_
          refine (parses_readBytes p.data).bind ?_
          exact (ih (fun q hq => hid q (by simp [hq])) (fun q hq => hlimits q (by simp [hq]))
            (Nat.lt_of_succ_lt_succ hfuel) hfits).bindOne (Parses.pure _)

/-- A word of `n` properties has more than `n` bytes, so the reader's length is fuel enough. -/
theorem length_lt_of_mem_propertyList (properties : List RawProperty) :
    ∀ word ∈ propertyList properties, properties.length < word.length := by
  induction properties with
  | nil =>
      rw [propertyList, List.map_nil, List.prod_nil, one_mul]
      rintro word rfl
      exact Nat.one_pos
  | cons p properties ih =>
      rw [propertyList, List.map_cons, List.prod_cons, property]
      simp only [mul_assoc]
      intro word hword
      obtain ⟨_, rfl, w₁, hw₁, rfl⟩ := Language.mem_mul.mp hword
      obtain ⟨_, -, w₂, hw₂, rfl⟩ := Language.mem_mul.mp hw₁
      obtain ⟨_, -, w₃, hw₃, rfl⟩ := Language.mem_mul.mp hw₂
      have hrest := ih w₃ hw₃
      simp only [List.length_append, List.length_cons, List.length_nil]
      omega

theorem parses_propertyList {properties : List RawProperty} {limits : Limits} {state : ParseState}
    (hid : ∀ p ∈ properties, p.id ≠ idEnd) (hlimits : propertiesWithinLimits properties limits)
    (hfits : (state + propertyTotals properties).Fits limits) :
    Parses (Raw.parsePropertyList state limits) (propertyList properties)
      (properties, state + propertyTotals properties) := by
  intro word hword reader tail hvalid hrest
  have hfuel : properties.length < reader.remaining.length := by
    have hlength := length_lt_of_mem_propertyList properties word hword
    rw [show reader.remaining = word ++ tail from hrest, List.length_append]
    omega
  exact decodes_propertyListFrom properties hid hlimits hfuel hfits word hword reader tail
    hvalid hrest

theorem parses_filesInfo {info : RawFilesInfo} {limits : Limits} {state : ParseState}
    (hid : ∀ p ∈ info.properties, p.id ≠ idEnd) (hcount : info.count ≤ limits.maxFiles)
    (hlimits : propertiesWithinLimits info.properties limits)
    (hfits : (state + propertyTotals info.properties).Fits limits) :
    Parses (Raw.parseFilesInfo state limits) (filesInfo info)
      (info, state + propertyTotals info.properties) := by
  refine (parses_readUint _).bind (Parses.liftBind (checkLimit_of_le hcount _) ?_)
  exact (parses_propertyList hid hlimits hfits).bindOne (Parses.pure _)

/-! ### Headers -/

theorem parses_headerTail {header : RawHeader} (h : header.WellCounted) {limits : Limits}
    (hlimits : header.WithinLimits limits) {state : ParseState}
    (hfits : (state + (header.files.map fun files => propertyTotals files.properties).getD 0).Fits
      limits) :
    Parses (Raw.readU8 >>= fun id => Raw.parseHeaderTail id header.archiveProperties
        header.additionalStreams header.mainStreams state limits)
      (announced idFilesInfo header.files filesInfo * byte idEnd)
      (.header header,
        state + (header.files.map fun files => propertyTotals files.properties).getD 0) := by
  have hcount := hlimits.files
  have hid := h.files
  rcases header with ⟨archiveProperties, additionalStreams, mainStreams, _ | files⟩
  · rw [announced, one_mul]
    refine parses_absent idFilesInfo (fun b hb => ?_) (avoids_end (by decide))
      (parses_end "unexpected Header identifier" _)
    simp only [Raw.parseHeaderTail, Raw.parseFilesSection, if_neg hb, pure_bind]
    rfl
  · rw [announced, mul_assoc]
    refine (parses_readU8 _).bind ?_
    simp only [Raw.parseHeaderTail, Raw.parseFilesSection, if_true, bind_assoc, pure_bind]
    obtain ⟨hmaximum, hproperties⟩ := hcount files rfl
    exact (parses_filesInfo (hid files rfl) hmaximum hproperties hfits).bind (parses_end _ _)

/-- The main streams of a header, whose folders may not stand in another stream here. -/
theorem parses_mainStreams (headerBytes : Bytes) {header : RawHeader} (h : header.WellCounted)
    {limits : Limits} (hlimits : header.WithinLimits limits) {state : ParseState}
    (external : Option ExternalFolderData)
    (hfits : (state + (header.mainStreams.map (·.totals)).getD 0 +
      (header.files.map fun files => propertyTotals files.properties).getD 0).Fits limits) :
    Parses (Raw.readU8 >>= fun id => Raw.parseMainStreams headerBytes id header.archiveProperties
        header.additionalStreams state limits external)
      (announced idMainStreamsInfo header.mainStreams streamsInfo *
        (announced idFilesInfo header.files filesInfo * byte idEnd))
      (.header header, state + (header.mainStreams.map (·.totals)).getD 0 +
        (header.files.map fun files => propertyTotals files.properties).getD 0) := by
  have htail := parses_headerTail h hlimits hfits
  refine parses_section (fun hnone b hb => ?_) (fun streams hsome => ?_)
    (avoids_announced (by decide) (avoids_end (by decide))) fun _ => htail
  · rw [Raw.parseMainStreams, if_neg hb, hnone]
    exact congrArg (Raw.parseHeaderTail b header.archiveProperties header.additionalStreams none
      · limits) (add_zero _).symm
  · rw [Raw.parseMainStreams, if_pos rfl]
    rw [hsome] at htail hfits ⊢
    exact (parses_streamsInfo (h.mainStreams streams hsome) (hlimits.mainStreams streams hsome)
      hfits.left).bind htail

theorem parses_additionalStreams (headerBytes : Bytes) {header : RawHeader}
    (h : header.WellCounted) {limits : Limits} (hlimits : header.WithinLimits limits)
    {state : ParseState} (external : Option ExternalFolderData)
    (hfits : (state + (header.additionalStreams.map (·.totals)).getD 0 +
      (header.mainStreams.map (·.totals)).getD 0 +
      (header.files.map fun files => propertyTotals files.properties).getD 0).Fits limits) :
    Parses (Raw.readU8 >>= fun id => Raw.parseAdditionalStreams id state limits >>= fun x =>
        Raw.parseMainStreams headerBytes x.2.1 header.archiveProperties x.1 x.2.2 limits external)
      (announced idAdditionalStreamsInfo header.additionalStreams streamsInfo *
        (announced idMainStreamsInfo header.mainStreams streamsInfo *
          (announced idFilesInfo header.files filesInfo * byte idEnd)))
      (.header header, state + (header.additionalStreams.map (·.totals)).getD 0 +
        (header.mainStreams.map (·.totals)).getD 0 +
        (header.files.map fun files => propertyTotals files.properties).getD 0) := by
  have hmain := parses_mainStreams headerBytes h hlimits external hfits
  refine parses_section (fun hnone b hb => ?_) (fun streams hsome => ?_)
    (avoids_announced (by decide) (avoids_announced (by decide) (avoids_end (by decide))))
    fun _ => hmain
  · simp only [Raw.parseAdditionalStreams, if_neg hb, pure_bind, hnone]
    exact congrArg (Raw.parseMainStreams headerBytes b header.archiveProperties none · limits
      external) (add_zero _).symm
  · simp only [Raw.parseAdditionalStreams, if_true, bind_assoc]
    rw [hsome] at hmain hfits ⊢
    refine (parses_streamsInfo (h.additionalStreams streams hsome)
      (hlimits.additionalStreams streams hsome) hfits.left.left).bind ?_
    simp only [bind_assoc, pure_bind]
    exact hmain

theorem parses_headerBody {headerBytes : Bytes} {header : RawHeader} (h : header.WellCounted)
    {limits : Limits} (hlimits : header.WithinLimits limits) {state : ParseState}
    {external : Option ExternalFolderData} (hfits : (state + header.totals).Fits limits) :
    Parses (Raw.parseHeaderBody headerBytes state limits external) (headerBody header)
      (.header header, state + header.totals) := by
  rw [RawHeader.totals, ← add_assoc, ← add_assoc, ← add_assoc] at hfits ⊢
  have hstreams := parses_additionalStreams headerBytes h hlimits external hfits
  simp only [headerBody, archiveProperties, mul_assoc, add_mul]
  refine Parses.add ?_ ?_
  · refine (parses_readU8 _).bind ?_
    simp only [Raw.parseArchiveProperties, if_true, bind_assoc, pure_bind]
    exact (parses_propertyList h.archiveProperties hlimits.archiveProperties
      hfits.left.left.left).bind hstreams
  · by_cases hnil : header.archiveProperties = []
    · rw [if_pos hnil, one_mul]
      have hzero : state + propertyTotals header.archiveProperties = state := by
        rw [hnil]
        exact add_zero state
      rw [hzero] at hstreams ⊢
      refine parses_absent idArchiveProperties (fun b hb => ?_)
        (avoids_announced (by decide) (avoids_announced (by decide)
          (avoids_announced (by decide) (avoids_end (by decide))))) hstreams
      simp only [Raw.parseArchiveProperties, if_neg hb, pure_bind, hnil]
    · rw [if_neg hnil, zero_mul]
      exact parses_zero

/-- A word of a header parses to it, and leaves its totals counted. -/
theorem parses_nextHeaderBody (bytes : Bytes)
    (external : Option ExternalFolderData) {next : RawNextHeader} (h : next.WellCounted)
    {state : ParseState} {limits : Limits} (hlimits : next.WithinLimits state limits) :
    Parses (Raw.parseNextHeaderBody bytes state limits external) (nextHeader next)
      (next, state + next.totals) := by
  cases next with
  | header header =>
      refine (parses_readU8 _).bind ?_
      rw [if_pos rfl]
      exact parses_headerBody h (hlimits.plain header rfl) hlimits.totals
  | encoded streams =>
      refine (parses_readU8 _).bind ?_
      rw [if_neg (by decide), if_pos rfl]
      exact (parses_streamsInfo h (hlimits.encoded streams rfl) hlimits.totals).bindOne
        (Parses.pure _)
  | externalFolders pending => exact parses_zero

end Un7z
