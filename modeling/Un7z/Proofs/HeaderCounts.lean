/-
What an accepted header counts.

The parser keeps running totals and checks each of them as it grows, and it reads as many
items of a list as a count before it says.  So of what it returns the counts agree, and
the totals are those of all that was read: nothing is counted that is not there, and
nothing is there that was not counted.
-/
import Un7z.Grammar
import Un7z.Proofs.Reads

namespace Un7z

namespace Raw

theorem length_readMany {α : Type} {item : Reads α} (count : Nat) :
    ∀ {reader next : BoundedReader} {values : List α},
      (readMany item count reader).result = .ok (values, next) → values.length = count := by
  induction count with
  | zero =>
      intro reader next values h
      obtain ⟨rfl, -⟩ := Cursor.pure_eq_ok.mp h
      rfl
  | succ count ih =>
      intro reader next values h
      obtain ⟨value, r₁, -, h⟩ := Cursor.bind_eq_ok.mp h
      obtain ⟨rest, r₂, hrest, h⟩ := Cursor.bind_eq_ok.mp h
      obtain ⟨rfl, -⟩ := Cursor.pure_eq_ok.mp h
      rw [List.length_cons, ih hrest]

end Raw

/-! ### Running totals -/

namespace ParseState

variable {state state' : ParseState} {count : Nat} {limits : Limits}

theorem addLimited_eq_ok {value additional maximum total : Nat} {limit : LimitKind}
    {detail : String} :
    (addLimited value additional maximum limit detail).result = .ok total ↔
      total = value + additional ∧ total ≤ maximum ∧ total < 2 ^ 64 := by
  unfold addLimited
  simp only [Metered.bind_eq_ok, orFormat_eq_ok, checkedAdd_eq_some, checkLimit_eq_ok,
    Metered.result_pure, Except.ok.injEq]
  constructor
  · rintro ⟨_, ⟨hlt, rfl⟩, _, hle, rfl⟩
    exact ⟨rfl, hle, hlt⟩
  · rintro ⟨rfl, hle, hlt⟩
    exact ⟨_, ⟨hlt, rfl⟩, (), hle, rfl⟩

theorem addCoders_eq_ok (h : (state.addCoders count limits).result = .ok state') :
    state' = state + { totalCoders := count } ∧
      state'.totalCoders ≤ limits.maxTotalCoders ∧ state'.totalCoders < 2 ^ 64 := by
  obtain ⟨total, htotal, h⟩ := Metered.bind_eq_ok.mp h
  obtain ⟨rfl, hle, hlt⟩ := addLimited_eq_ok.mp htotal
  obtain rfl := Except.ok.inj h
  exact ⟨rfl, hle, hlt⟩

theorem addStreams_eq_ok (h : (state.addStreams count limits).result = .ok state') :
    state' = state + { totalStreams := count } ∧
      state'.totalStreams ≤ limits.maxTotalStreams ∧ state'.totalStreams < 2 ^ 64 := by
  obtain ⟨total, htotal, h⟩ := Metered.bind_eq_ok.mp h
  obtain ⟨rfl, hle, hlt⟩ := addLimited_eq_ok.mp htotal
  obtain rfl := Except.ok.inj h
  exact ⟨rfl, hle, hlt⟩

end ParseState

/-! ### Coders and folders -/

section folders

variable {limits : Limits} {reader next : BoundedReader}

/-- A check of a limit that is passed. -/
theorem limited_eq_ok {value maximum : Nat} {limit : LimitKind} {α : Type} {p : Reads α} {a : α} :
    ((do checkLimit value maximum limit; p : Reads α) reader).result = .ok (a, next) ↔
      value ≤ maximum ∧ (p reader).result = .ok (a, next) := by
  constructor
  · intro h
    obtain ⟨_, r, hcheck, hrest⟩ := Cursor.bind_eq_ok.mp h
    obtain ⟨hpassed, rfl⟩ := Cursor.lift_eq_ok.mp hcheck
    exact ⟨checkLimit_eq_ok.mp hpassed, hrest⟩
  · rintro ⟨hle, h⟩
    exact Cursor.bind_eq_ok.mpr
      ⟨(), reader, Cursor.lift_eq_ok.mpr ⟨checkLimit_eq_ok.mpr hle, rfl⟩, h⟩

theorem length_of_readBytes {length : Nat} {bytes : Bytes}
    (h : (Raw.readBytes length reader).result = .ok (bytes, next)) : bytes.length = length := by
  obtain ⟨bytes', r, hread, h⟩ := Cursor.bind_eq_ok.mp h
  obtain ⟨_, r', -, h⟩ := Cursor.bind_eq_ok.mp h
  obtain ⟨rfl, -⟩ := Cursor.pure_eq_ok.mp h
  obtain ⟨-, hle, rfl, -, -⟩ := readBytes_eq_ok.mp hread
  rw [List.length_take, BoundedReader.length_remaining]
  omega

theorem parseCoderStreams_counted {flags : UInt8} {input output : Nat}
    (h : (Raw.parseCoderStreams flags reader).result = .ok ((input, output), next)) :
    input ≠ 0 ∧ output ≠ 0 := by
  unfold Raw.parseCoderStreams at h
  by_cases hcomplex : flags &&& 0x10 ≠ 0
  · rw [if_pos hcomplex] at h
    obtain ⟨input', r₁, -, h⟩ := Cursor.bind_eq_ok.mp h
    obtain ⟨output', r₂, -, h⟩ := Cursor.bind_eq_ok.mp h
    obtain ⟨hne, h⟩ := admitted_eq_ok.mp h
    obtain ⟨heq, -⟩ := Cursor.pure_eq_ok.mp h
    obtain ⟨rfl, rfl⟩ := Prod.mk.inj heq
    exact not_or.mp hne
  · rw [if_neg hcomplex] at h
    obtain ⟨heq, -⟩ := Cursor.pure_eq_ok.mp h
    obtain ⟨rfl, rfl⟩ := Prod.mk.inj heq
    exact ⟨Nat.one_ne_zero, Nat.one_ne_zero⟩

theorem parseCoderProperties_counted {flags : UInt8} {properties : Bytes}
    (h : (Raw.parseCoderProperties flags limits reader).result = .ok (properties, next)) :
    properties.length ≤ limits.maxCoderPropertyBytes := by
  unfold Raw.parseCoderProperties at h
  by_cases hstated : flags &&& 0x20 ≠ 0
  · rw [if_pos hstated] at h
    obtain ⟨length, r, -, h⟩ := Cursor.bind_eq_ok.mp h
    obtain ⟨hle, h⟩ := limited_eq_ok.mp h
    rw [length_of_readBytes h]
    exact hle
  · rw [if_neg hstated] at h
    obtain ⟨rfl, -⟩ := Cursor.pure_eq_ok.mp h
    exact Nat.zero_le _

theorem parseCoder_counted {coder : RawCoder}
    (h : (Raw.parseCoder limits reader).result = .ok (coder, next)) :
    coder.WellCounted ∧ coder.properties.length ≤ limits.maxCoderPropertyBytes := by
  obtain ⟨flags, r₁, -, h⟩ := Cursor.bind_eq_ok.mp h
  by_cases halternative : flags &&& 0x80 ≠ 0
  · rw [if_pos halternative] at h
    obtain ⟨h, -⟩ := Cursor.lift_eq_ok.mp h
    exact absurd h (by simp)
  rw [if_neg halternative] at h
  obtain ⟨-, h⟩ := admitted_eq_ok.mp h
  obtain ⟨hlength, h⟩ := admitted_eq_ok.mp h
  obtain ⟨methodId, r₂, hmethod, h⟩ := Cursor.bind_eq_ok.mp h
  obtain ⟨⟨input, output⟩, r₃, hstreams, h⟩ := Cursor.bind_eq_ok.mp h
  obtain ⟨properties, r₄, hproperties, h⟩ := Cursor.bind_eq_ok.mp h
  obtain ⟨rfl, -⟩ := Cursor.pure_eq_ok.mp h
  have hmethodLength := length_of_readBytes hmethod
  obtain ⟨hinput, houtput⟩ := parseCoderStreams_counted hstreams
  refine ⟨⟨?_, ?_, hinput, houtput⟩, parseCoderProperties_counted hproperties⟩
  · intro hnil
    rw [show methodId = [] from hnil] at hmethodLength
    exact hlength hmethodLength.symm
  · show methodId.length ≤ 15
    rw [hmethodLength, UInt8.toNat_and]
    exact Nat.and_le_right

theorem parseCoders_counted (count : Nat) :
    ∀ {input output input' output' : Nat} {reader next : BoundedReader} {coders : List RawCoder},
      (Raw.parseCoders limits count input output reader).result
        = .ok ((coders, input', output'), next) →
      coders.length = count ∧
        (∀ c ∈ coders, c.WellCounted ∧ c.properties.length ≤ limits.maxCoderPropertyBytes) ∧
        input' = input + (coders.map (·.inputStreams)).sum ∧
        output' = output + (coders.map (·.outputStreams)).sum := by
  induction count with
  | zero =>
      intro input output input' output' reader next coders h
      obtain ⟨heq, -⟩ := Cursor.pure_eq_ok.mp h
      obtain ⟨rfl, htotals⟩ := Prod.mk.inj heq
      obtain ⟨rfl, rfl⟩ := Prod.mk.inj htotals
      simp
  | succ count ih =>
      intro input output input' output' reader next coders h
      obtain ⟨coder, r₁, hcoder, h⟩ := Cursor.bind_eq_ok.mp h
      obtain ⟨input₁, r₂, hinput, h⟩ := Cursor.bind_eq_ok.mp h
      obtain ⟨output₁, r₃, houtput, h⟩ := Cursor.bind_eq_ok.mp h
      obtain ⟨⟨rest, input₂, output₂⟩, r₄, hrest, h⟩ := Cursor.bind_eq_ok.mp h
      obtain ⟨heq, -⟩ := Cursor.pure_eq_ok.mp h
      obtain ⟨rfl, htotals⟩ := Prod.mk.inj heq
      obtain ⟨rfl, rfl⟩ := Prod.mk.inj htotals
      obtain ⟨-, rfl⟩ := checkedAdd_eq_some.mp (orFormat_eq_ok.mp (Cursor.lift_eq_ok.mp hinput).1)
      obtain ⟨-, rfl⟩ := checkedAdd_eq_some.mp (orFormat_eq_ok.mp (Cursor.lift_eq_ok.mp houtput).1)
      obtain ⟨hlength, hcoders, rfl, rfl⟩ := ih hrest
      refine ⟨by rw [List.length_cons, hlength],
        List.forall_mem_cons.mpr ⟨parseCoder_counted hcoder, hcoders⟩, ?_, ?_⟩
      · rw [List.map_cons, List.sum_cons, Nat.add_assoc]
      · rw [List.map_cons, List.sum_cons, Nat.add_assoc]

theorem parsePackedIndices_counted {packedStreams : Nat} {indices : Option (List Nat)}
    (h : (Raw.parsePackedIndices packedStreams reader).result = .ok (indices, next)) :
    (indices.isNone ↔ packedStreams = 1) ∧
      ∀ values ∈ indices, values.length = packedStreams := by
  unfold Raw.parsePackedIndices at h
  by_cases hone : packedStreams = 1
  · rw [if_pos hone] at h
    obtain ⟨rfl, -⟩ := Cursor.pure_eq_ok.mp h
    exact ⟨iff_of_true rfl hone, by simp⟩
  · rw [if_neg hone] at h
    obtain ⟨values, r, hvalues, h⟩ := Cursor.bind_eq_ok.mp h
    obtain ⟨rfl, -⟩ := Cursor.pure_eq_ok.mp h
    refine ⟨iff_of_false (by simp) hone, ?_⟩
    rintro _ ⟨⟩
    exact Raw.length_readMany _ hvalues

/-- A folder the parser returns is complete but for its unpack sizes, which are listed later. -/
theorem parseFolder_counted {state state' : ParseState} {f : RawFolder}
    (h : (Raw.parseFolder state limits reader).result = .ok ((f, state'), next)) :
    (∀ sizes : List Nat, sizes.length = f.outputStreams →
        { f with unpackSizes := sizes }.WellCounted) ∧
      f.WithinLimits limits ∧ f.inputStreams + f.outputStreams < 2 ^ 64 ∧
      state' = state + f.totals ∧
      (state'.totalCoders ≤ limits.maxTotalCoders ∧ state'.totalCoders < 2 ^ 64) ∧
      state'.totalStreams ≤ limits.maxTotalStreams ∧ state'.totalStreams < 2 ^ 64 := by
  obtain ⟨coderCount, r₁, -, h⟩ := Cursor.bind_eq_ok.mp h
  obtain ⟨hne, h⟩ := admitted_eq_ok.mp h
  obtain ⟨hcoderCount, h⟩ := limited_eq_ok.mp h
  obtain ⟨state₁, r₂, hadd, h⟩ := Cursor.bind_eq_ok.mp h
  obtain ⟨rfl, hcodersFit⟩ := ParseState.addCoders_eq_ok (Cursor.lift_eq_ok.mp hadd).1
  obtain ⟨⟨coders, input, output⟩, r₃, hcoders, h⟩ := Cursor.bind_eq_ok.mp h
  obtain ⟨hlength, hall, hinput, houtput⟩ := parseCoders_counted _ hcoders
  rw [Nat.zero_add] at hinput houtput
  obtain ⟨streams, r₄, hstreams, h⟩ := Cursor.bind_eq_ok.mp h
  obtain ⟨hlt, rfl⟩ := checkedAdd_eq_some.mp (orFormat_eq_ok.mp (Cursor.lift_eq_ok.mp hstreams).1)
  obtain ⟨hstreamCount, h⟩ := limited_eq_ok.mp h
  obtain ⟨state₂, r₅, hadd', h⟩ := Cursor.bind_eq_ok.mp h
  obtain ⟨rfl, hstreamsFit⟩ := ParseState.addStreams_eq_ok (Cursor.lift_eq_ok.mp hadd').1
  obtain ⟨houtputLe, h⟩ := admitted_eq_ok.mp h
  obtain ⟨bindCount, r₆, hbind, h⟩ := Cursor.bind_eq_ok.mp h
  obtain ⟨hpos, rfl⟩ := checkedSub_eq_some.mp (orFormat_eq_ok.mp (Cursor.lift_eq_ok.mp hbind).1)
  obtain ⟨bindPairs, r₇, hpairs, h⟩ := Cursor.bind_eq_ok.mp h
  have hpairCount := Raw.length_readMany _ hpairs
  obtain ⟨packed, r₈, hpacked, h⟩ := Cursor.bind_eq_ok.mp h
  obtain ⟨hle, rfl⟩ := checkedSub_eq_some.mp (orFormat_eq_ok.mp (Cursor.lift_eq_ok.mp hpacked).1)
  obtain ⟨-, h⟩ := admitted_eq_ok.mp h
  obtain ⟨indices, r₉, hindices, h⟩ := Cursor.bind_eq_ok.mp h
  obtain ⟨heq, -⟩ := Cursor.pure_eq_ok.mp h
  obtain ⟨rfl, rfl⟩ := Prod.mk.inj heq
  obtain ⟨hnone, hsome⟩ := parsePackedIndices_counted hindices
  refine ⟨fun sizes hsizes => ⟨?_, fun c hc => (hall c hc).1, hinput, houtput, ?_, ?_, ?_,
    hnone, hsome, hsizes⟩, ⟨?_, fun c hc => (hall c hc).2, hstreamCount⟩, hlt, ?_, ?_, hstreamsFit⟩
  · intro hnil
    rw [show coders = [] from hnil] at hlength
    exact hne hlength.symm
  · exact Nat.not_lt.mp houtputLe
  · show bindPairs.length + 1 = output
    omega
  · show input - (output - 1) + bindPairs.length = input
    omega
  · show coders.length ≤ _
    rw [hlength]
    exact hcoderCount
  · rw [add_assoc, ← hlength]
    exact congrArg (state + ·) (ParseState.ext rfl rfl (Nat.zero_add _) rfl rfl rfl)
  · exact hcodersFit

end folders

end Un7z
