/-
The parser and the validator agree on substream vectors.

The parser counts how many sizes and how many digests a section stores, folder by folder,
and reads that many.  The validator walks the folders again with a cursor in either vector.
What is ahead of the cursors is what the remaining folders need (`Ahead`), so neither runs
out, and both are at the end with the last folder.
-/
import Un7z.Proofs.HeaderCounts
import Un7z.Proofs.HeaderWords
import Un7z.Proofs.PackStreams

namespace Un7z

deriving instance DecidableEq for ParsedStreamsInfo

/-! ### What the parser returns -/

namespace Raw

variable {reader next : BoundedReader}

theorem length_parseDefinedDigests (defined : List Bool) :
    ∀ {reader next : BoundedReader} {digests : List (Option UInt32)},
      (parseDefinedDigests defined reader).result = .ok (digests, next) →
      digests.length = defined.length := by
  induction defined with
  | nil =>
      intro reader next digests h
      obtain ⟨rfl, -⟩ := Cursor.pure_eq_ok.mp h
      rfl
  | cons isDefined defined ih =>
      intro reader next digests h
      obtain ⟨digest, r₁, -, h⟩ := Cursor.bind_eq_ok.mp h
      obtain ⟨rest, r₂, hrest, h⟩ := Cursor.bind_eq_ok.mp h
      obtain ⟨rfl, -⟩ := Cursor.pure_eq_ok.mp h
      rw [List.length_cons, List.length_cons, ih hrest]

theorem length_parseBitsFrom (count : Nat) :
    ∀ {byte mask : UInt8} {reader next : BoundedReader} {values : List Bool},
      (parseBitsFrom count byte mask reader).result = .ok (values, next) →
      values.length = count := by
  induction count with
  | zero =>
      intro byte mask reader next values h
      obtain ⟨rfl, -⟩ := Cursor.pure_eq_ok.mp h
      rfl
  | succ count ih =>
      intro byte mask reader next values h
      rw [parseBitsFrom] at h
      split at h
      · obtain ⟨_, r₁, -, h⟩ := Cursor.bind_eq_ok.mp h
        obtain ⟨rest, r₂, hrest, h⟩ := Cursor.bind_eq_ok.mp h
        obtain ⟨rfl, -⟩ := Cursor.pure_eq_ok.mp h
        rw [List.length_cons, ih hrest]
      · obtain ⟨rest, r₂, hrest, h⟩ := Cursor.bind_eq_ok.mp h
        obtain ⟨rfl, -⟩ := Cursor.pure_eq_ok.mp h
        rw [List.length_cons, ih hrest]

theorem length_parseDigests {count : Nat} {digests : List (Option UInt32)}
    (h : (parseDigests count reader).result = .ok (digests, next)) : digests.length = count := by
  unfold parseDigests at h
  by_cases hzero : count = 0
  · rw [if_pos hzero] at h
    obtain ⟨rfl, -⟩ := Cursor.pure_eq_ok.mp h
    exact hzero.symm
  · rw [if_neg hzero] at h
    obtain ⟨_, r₁, -, h⟩ := Cursor.bind_eq_ok.mp h
    obtain ⟨flag, r₂, -, h⟩ := Cursor.bind_eq_ok.mp h
    split at h
    · obtain ⟨defined, r₃, hdefined, h⟩ := Cursor.bind_eq_ok.mp h
      obtain ⟨_, r₄, -, hbits⟩ := Cursor.bind_eq_ok.mp hdefined
      rw [length_parseDefinedDigests defined h, length_parseBitsFrom count hbits]
    · rw [length_parseDefinedDigests _ h, List.length_replicate]

/-- A section that is there has been read, and one that is not there leaves the identifier. -/
theorem optionalSection_eq_ok {α : Type} {id expected : UInt8} {body : Reads α}
    {value : Option α} {id' : UInt8}
    (h : (optionalSection id expected body reader).result = .ok ((value, id'), next)) :
    ∀ a ∈ value, ∃ r, ∃ r', (body r).result = .ok (a, r') := by
  unfold optionalSection at h
  split at h
  · obtain ⟨a, r₁, hbody, h⟩ := Cursor.bind_eq_ok.mp h
    obtain ⟨_, r₂, -, h⟩ := Cursor.bind_eq_ok.mp h
    obtain ⟨heq, -⟩ := Cursor.pure_eq_ok.mp h
    obtain ⟨rfl, -⟩ := Prod.mk.inj heq
    rintro _ ⟨⟩
    exact ⟨_, _, hbody⟩
  · obtain ⟨heq, -⟩ := Cursor.pure_eq_ok.mp h
    obtain ⟨rfl, -⟩ := Prod.mk.inj heq
    intro a ha
    exact absurd ha (by simp)

theorem countSubstreams_eq_ok (counts : List Nat) : ∀ {total explicit total' explicit' : Nat},
    (countSubstreams counts total explicit).result = .ok (total', explicit') →
      total' = total + counts.sum ∧ explicit' = explicit + (counts.map (· - 1)).sum ∧
        (total < 2 ^ 64 → total' < 2 ^ 64) := by
  induction counts with
  | nil =>
      intro total explicit total' explicit' h
      obtain ⟨rfl, rfl⟩ := Prod.mk.inj (Except.ok.inj h)
      exact ⟨rfl, rfl, id⟩
  | cons count counts ih =>
      intro total explicit total' explicit' h
      obtain ⟨middle, htotal, h⟩ := Metered.bind_eq_ok.mp h
      obtain ⟨hlt, rfl⟩ := checkedAdd_eq_some.mp (orFormat_eq_ok.mp htotal)
      obtain ⟨additional, hadditional, h⟩ := Metered.bind_eq_ok.mp h
      rw [additionalSizes_ok] at hadditional
      obtain rfl := Except.ok.inj hadditional
      obtain ⟨sizes, hsizes, h⟩ := Metered.bind_eq_ok.mp h
      obtain ⟨-, rfl⟩ := checkedAdd_eq_some.mp (orFormat_eq_ok.mp hsizes)
      obtain ⟨rfl, rfl, hfit⟩ := ih h
      rw [List.map_cons, List.sum_cons, List.sum_cons, ← Nat.add_assoc, ← Nat.add_assoc]
      exact ⟨rfl, rfl, fun _ => hfit hlt⟩

theorem countDigests_eq_ok (crcs : Option (List (Option UInt32))) (counts : List Nat) :
    ∀ {folderIndex digests digests' : Nat},
      (countDigests crcs folderIndex counts digests).result = .ok digests' →
      digests' = digests + digestCount crcs folderIndex counts := by
  induction counts with
  | nil =>
      intro folderIndex digests digests' h
      exact (Except.ok.inj h).symm
  | cons count counts ih =>
      intro folderIndex digests digests' h
      obtain ⟨middle, hmiddle, h⟩ := Metered.bind_eq_ok.mp h
      have hadd : middle = digests +
          if count = 1 ∧ (inheritedCrc crcs folderIndex).isSome then 0 else count := by
        unfold addDigests at hmiddle
        by_cases hown : count ≠ 1 ∨ (inheritedCrc crcs folderIndex).isNone
        · rw [if_pos hown] at hmiddle
          have hneg : ¬ (count = 1 ∧ (inheritedCrc crcs folderIndex).isSome) := by
            rintro ⟨hone, hsome⟩
            rcases hown with hne | hnone
            · exact hne hone
            · rw [Option.isNone_iff_eq_none.mp hnone] at hsome
              exact absurd hsome (by decide)
          rw [if_neg hneg, (checkedAdd_eq_some.mp (orFormat_eq_ok.mp hmiddle)).2]
        · obtain ⟨hone, hsome⟩ := not_or.mp hown
          rw [if_neg hown] at hmiddle
          rw [if_pos ⟨not_not.mp hone, by simpa [Option.isSome_iff_ne_none] using hsome⟩]
          exact (Except.ok.inj hmiddle).symm
      rw [ih h, hadd, digestCount, Nat.add_assoc]

end Raw

/-- What a parsed section says of its substreams is as much as its folders need. -/
structure RawStreamsInfo.Counted (raw : RawStreamsInfo) : Prop where
  substreams : ∀ info ∈ raw.substreams, ∃ unpack, raw.unpack = some unpack ∧
    info.counts.length = unpack.folders.length ∧ info.counts.sum < 2 ^ 64 ∧
    (∀ sizes ∈ info.explicitSizes, sizes.length = (info.counts.map (· - 1)).sum) ∧
    ∀ crcs ∈ info.crcs, crcs.length = digestCount unpack.crcs 0 info.counts
  folders : raw.substreams = none → ∀ unpack ∈ raw.unpack, unpack.folders.length < 2 ^ 64

namespace Raw

variable {state state' : ParseState} {limits : Limits} {reader next : BoundedReader}

theorem addSubstreams_lt {count : Nat}
    (h : (state.addSubstreams count limits).result = .ok state') : count < 2 ^ 64 := by
  obtain ⟨total, htotal, -⟩ := Metered.bind_eq_ok.mp h
  obtain ⟨rfl, -, hlt⟩ := ParseState.addLimited_eq_ok.mp htotal
  omega

theorem length_parseSubstreamCounts {id id' : UInt8} {count : Nat} {counts : List Nat}
    (h : (parseSubstreamCounts id count reader).result = .ok ((counts, id'), next)) :
    counts.length = count := by
  unfold parseSubstreamCounts at h
  split at h
  · obtain ⟨values, r₁, hvalues, h⟩ := Cursor.bind_eq_ok.mp h
    obtain ⟨_, r₂, -, h⟩ := Cursor.bind_eq_ok.mp h
    obtain ⟨heq, -⟩ := Cursor.pure_eq_ok.mp h
    obtain ⟨rfl, -⟩ := Prod.mk.inj heq
    exact length_readMany _ hvalues
  · obtain ⟨heq, -⟩ := Cursor.pure_eq_ok.mp h
    obtain ⟨rfl, -⟩ := Prod.mk.inj heq
    exact List.length_replicate

theorem parseSubstreamsInfo_counted {unpack : RawUnpackInfo} {info : RawSubstreamsInfo}
    (h : (parseSubstreamsInfo unpack state limits reader).result = .ok ((info, state'), next)) :
    info.counts.length = unpack.folders.length ∧ info.counts.sum < 2 ^ 64 ∧
      (∀ sizes ∈ info.explicitSizes, sizes.length = (info.counts.map (· - 1)).sum) ∧
      ∀ crcs ∈ info.crcs, crcs.length = digestCount unpack.crcs 0 info.counts := by
  obtain ⟨id, r₁, -, h⟩ := Cursor.bind_eq_ok.mp h
  obtain ⟨⟨counts, id₂⟩, r₂, hcounts, h⟩ := Cursor.bind_eq_ok.mp h
  obtain ⟨⟨total, explicit⟩, r₃, htotals, h⟩ := Cursor.bind_eq_ok.mp h
  obtain ⟨rfl, rfl, hlt⟩ := countSubstreams_eq_ok _ (Cursor.lift_eq_ok.mp htotals).1
  obtain ⟨_, r₄, -, h⟩ := Cursor.bind_eq_ok.mp h
  obtain ⟨⟨sizes, id₃⟩, r₅, hsizes, h⟩ := Cursor.bind_eq_ok.mp h
  obtain ⟨digests, r₆, hdigests, h⟩ := Cursor.bind_eq_ok.mp h
  obtain rfl := countDigests_eq_ok _ _ (Cursor.lift_eq_ok.mp hdigests).1
  obtain ⟨⟨crcs, id₄⟩, r₇, hcrcs, h⟩ := Cursor.bind_eq_ok.mp h
  obtain ⟨-, h⟩ := admitted_eq_ok.mp h
  obtain ⟨heq, -⟩ := Cursor.pure_eq_ok.mp h
  obtain ⟨rfl, -⟩ := Prod.mk.inj heq
  refine ⟨length_parseSubstreamCounts hcounts, ?_, fun values hvalues => ?_, fun values hvalues => ?_⟩
  · have hfit := hlt (by decide)
    rwa [Nat.zero_add] at hfit
  · obtain ⟨r, r', hread⟩ := optionalSection_eq_ok hsizes values hvalues
    obtain ⟨_, _, -, hread⟩ := Cursor.bind_eq_ok.mp hread
    rw [length_readMany _ hread, Nat.zero_add]
  · obtain ⟨r, r', hread⟩ := optionalSection_eq_ok hcrcs values hvalues
    rw [length_parseDigests hread, Nat.zero_add]

theorem parseStreamsTail_counted {id : UInt8} {pack : Option RawPackInfo}
    {unpack : Option RawUnpackInfo} {info : RawStreamsInfo}
    (h : (parseStreamsTail id pack unpack state limits reader).result
      = .ok ((.complete info, state'), next)) : info.Counted := by
  obtain ⟨⟨substreams, id', state₁⟩, r₁, hsection, h⟩ := Cursor.bind_eq_ok.mp h
  obtain ⟨-, h⟩ := admitted_eq_ok.mp h
  obtain ⟨heq, -⟩ := Cursor.pure_eq_ok.mp h
  obtain ⟨hinfo, -⟩ := Prod.mk.inj heq
  injection hinfo with hinfo
  subst hinfo
  unfold parseSubstreamsSection at hsection
  cases unpack with
  | none =>
      split at hsection
      · exact absurd (Cursor.lift_eq_ok.mp hsection).1 (by simp)
      · obtain ⟨heq, -⟩ := Cursor.pure_eq_ok.mp hsection
        obtain ⟨rfl, -⟩ := Prod.mk.inj heq
        exact ⟨fun _ hmem => absurd hmem (by simp), fun _ _ hmem => absurd hmem (by simp)⟩
  | some unpack =>
      split at hsection
      · obtain ⟨⟨value, state₂⟩, r₂, hvalue, hsection⟩ := Cursor.bind_eq_ok.mp hsection
        obtain ⟨_, r₃, -, hsection⟩ := Cursor.bind_eq_ok.mp hsection
        obtain ⟨heq, -⟩ := Cursor.pure_eq_ok.mp hsection
        obtain ⟨rfl, -⟩ := Prod.mk.inj heq
        refine ⟨?_, fun hnone => absurd hnone (by simp)⟩
        rintro _ ⟨⟩
        exact ⟨unpack, rfl, parseSubstreamsInfo_counted hvalue⟩
      · obtain ⟨state₂, r₂, hadd, hsection⟩ := Cursor.bind_eq_ok.mp hsection
        obtain ⟨heq, -⟩ := Cursor.pure_eq_ok.mp hsection
        obtain ⟨rfl, -⟩ := Prod.mk.inj heq
        refine ⟨fun _ hmem => absurd hmem (by simp), ?_⟩
        rintro - _ ⟨⟩
        exact addSubstreams_lt (Cursor.lift_eq_ok.mp hadd).1

theorem parseStreamsInfo_counted {external : Option ExternalFolderData} {info : RawStreamsInfo}
    (h : (parseStreamsInfo state limits external reader).result
      = .ok ((.complete info, state'), next)) : info.Counted := by
  obtain ⟨id, r₁, -, h⟩ := Cursor.bind_eq_ok.mp h
  obtain ⟨⟨pack, id', state₁⟩, r₂, -, h⟩ := Cursor.bind_eq_ok.mp h
  replace h : (parseUnpackSection id' pack state₁ limits external r₂).result = _ := h
  unfold parseUnpackSection at h
  by_cases hid : id' = idUnpackInfo
  · rw [if_pos hid] at h
    obtain ⟨⟨unpack, state₂⟩, r₃, -, h⟩ := Cursor.bind_eq_ok.mp h
    cases unpack with
    | complete value =>
        obtain ⟨_, r₄, -, h⟩ := Cursor.bind_eq_ok.mp h
        exact parseStreamsTail_counted h
    | external dataIndex =>
        obtain ⟨heq, -⟩ := Cursor.pure_eq_ok.mp h
        exact absurd (Prod.mk.inj heq).1 (by simp)
  · rw [if_neg hid] at h
    exact parseStreamsTail_counted h

end Raw

/-! ### The sizes of one folder -/

namespace Validate

/-- The reasons that are left for the substreams of a section to be refused. -/
def SizeRefusal (limits : Limits) (error : Error) : Prop :=
  error = formatError "substream-size sum overflows" ∨
    error = formatError "substream sizes exceed folder size" ∨
    ∃ requested, error = .limitExceeded .substreams requested limits.maxSubstreams

/-- What the sizes that are known add up to. -/
def knownSum (sizes : List (Option Nat)) : Nat := (sizes.map (·.getD 0)).sum

/-- The sizes of the substreams of a folder, `stored` if those of all but the last are. -/
structure Sized (rootSize : Option Nat) (stored : Bool) (sizes : List (Option Nat)) : Prop where
  /-- A single substream is the folder. -/
  single : ∀ size, sizes = [size] → size = rootSize
  /-- The last of several takes what the others leave, if all of them are known. -/
  remainder : ∀ earlier last, sizes = earlier ++ [last] → earlier ≠ [] → stored →
    rootSize.isSome → (∀ size ∈ earlier, size.isSome) → last.isSome ∧ rootSize = some (knownSum sizes)
  unknown : ∀ earlier last, sizes = earlier ++ [last] → earlier ≠ [] →
    ¬ (stored ∧ rootSize.isSome ∧ ∀ size ∈ earlier, size.isSome) → last = none

variable {limits : Limits}

theorem ensures_orFormat {α : Type} {value : Option α} {detail : String} {P : α → Prop}
    {F : Error → Prop} (hsome : ∀ a, value = some a → P a) (hnone : value = none → F (formatError detail)) :
    (orFormat value detail).Ensures P F := by
  cases value with
  | none => exact Metered.ensures_of_error (result_orFormat_none detail) (hnone rfl)
  | some a => exact Metered.ensures_of_ok (result_orFormat_some a detail) (hsome a rfl)

theorem takeSizes_none (count : Nat) (totals : SizeTotals) :
    (takeSizes none count totals).result = .ok (List.replicate count none, totals) := by
  induction count with
  | zero => rfl
  | succ count ih =>
      rw [takeSizes, Metered.result_bind_ok (result_checkpoint 1),
        Metered.result_bind_ok (show (takeSize none totals).result = .ok (none, totals) from rfl),
        Metered.result_bind_ok ih]
      rfl

theorem takeSize_ensures {values : List Nat} {value : Nat} {totals : SizeTotals}
    (hvalue : values[totals.sizeCursor]? = some value) (hlt : values.length < 2 ^ 64) :
    (takeSize (some values) totals).Ensures (fun out => out = (optionalSize value,
        ⟨totals.total + (optionalSize value).getD 0,
          totals.allExplicitSizesKnown && (optionalSize value).isSome, totals.sizeCursor + 1⟩))
      (SizeRefusal limits) := by
  have hcursor := (List.getElem?_eq_some_iff.mp hvalue).1
  have hnext : checkedAdd 64 totals.sizeCursor 1 = some (totals.sizeCursor + 1) :=
    checkedAdd_of_lt (by omega)
  refine Metered.ensures_bind_ok (orFormat_eq_ok.mpr hvalue)
    (Metered.ensures_bind_ok (orFormat_eq_ok.mpr hnext) ?_)
  cases optionalSize value with
  | none =>
      refine Metered.ensures_of_ok rfl ?_
      rw [Option.isSome_none, Bool.and_false]
      rfl
  | some size =>
      refine (ensures_orFormat (P := fun total => total = totals.total + size) ?_ ?_).bind ?_
      · intro total htotal
        exact (checkedAdd_eq_some.mp htotal).2
      · exact fun _ => .inl rfl
      · rintro total rfl
        refine Metered.ensures_of_ok rfl ?_
        rw [Option.isSome_some, Bool.and_true]
        rfl

theorem takeSizes_ensures {values : List Nat} (hlt : values.length < 2 ^ 64) (count : Nat) :
    ∀ {totals : SizeTotals}, totals.sizeCursor + count ≤ values.length →
      (takeSizes (some values) count totals).Ensures (fun out =>
          out.1 = ((values.drop totals.sizeCursor).take count).map optionalSize ∧
          out.2 = ⟨totals.total + knownSum out.1,
            totals.allExplicitSizesKnown && out.1.all Option.isSome, totals.sizeCursor + count⟩)
        (SizeRefusal limits) := by
  induction count with
  | zero =>
      intro totals hle
      refine Metered.ensures_of_ok rfl ⟨rfl, ?_⟩
      rw [List.all_nil, Bool.and_true]
      rfl
  | succ count ih =>
      intro totals hle
      obtain ⟨value, hvalue⟩ : ∃ value, values[totals.sizeCursor]? = some value :=
        ⟨_, List.getElem?_eq_getElem (by omega)⟩
      refine Metered.ensures_bind_ok (result_checkpoint 1) ((takeSize_ensures hvalue hlt).bind ?_)
      rintro _ rfl
      refine (ih (show totals.sizeCursor + 1 + count ≤ values.length by omega)).bind ?_
      rintro ⟨sizes, last⟩ ⟨hsizes, hlast⟩
      refine Metered.ensures_of_ok rfl ⟨?_, ?_⟩
      · obtain ⟨hin, heq⟩ := List.getElem?_eq_some_iff.mp hvalue
        rw [List.drop_eq_getElem_cons hin, heq, List.take_succ_cons, List.map_cons]
        exact congrArg _ hsizes
      · rw [hlast]
        show SizeTotals.mk _ _ _ = SizeTotals.mk _ _ _
        rw [knownSum, knownSum, List.map_cons, List.sum_cons, List.all_cons, Nat.add_assoc,
          Bool.and_assoc, Nat.add_assoc, Nat.add_comm 1]

/-- The sizes that a vector stores for the substreams of a folder but the last, from a cursor on. -/
def storedSizes (explicitSizes : Option (List Nat)) (cursor count : Nat) : List (Option Nat) :=
  match explicitSizes with
  | some values => ((values.drop cursor).take (count - 1)).map optionalSize
  | none => List.replicate (count - 1) none

/-- Where the cursor stands behind them. -/
def sizesEnd (explicitSizes : Option (List Nat)) (cursor count : Nat) : Nat :=
  if explicitSizes.isSome then cursor + (count - 1) else cursor

theorem knownSum_append (a b : List (Option Nat)) : knownSum (a ++ b) = knownSum a + knownSum b := by
  rw [knownSum, List.map_append, List.sum_append]
  rfl

/-- The last size when all that it depends on is known, and when it is not. -/
theorem sized_append {rootSize : Option Nat} {stored : Bool} {earlier : List (Option Nat)}
    (hne : earlier ≠ []) {last : Option Nat}
    (hknown : stored = true → rootSize.isSome → (∀ size ∈ earlier, size.isSome) →
      last.isSome ∧ rootSize = some (knownSum (earlier ++ [last])))
    (hunknown : ¬ (stored = true ∧ rootSize.isSome ∧ ∀ size ∈ earlier, size.isSome) → last = none) :
    Sized rootSize stored (earlier ++ [last]) := by
  have hsame {earlier' : List (Option Nat)} {last' : Option Nat}
      (h : earlier ++ [last] = earlier' ++ [last']) : earlier' = earlier ∧ last' = last := by
    obtain ⟨h₁, h₂⟩ := List.append_inj' h rfl
    injection h₂ with h₂
    exact ⟨h₁.symm, h₂.symm⟩
  refine ⟨fun size h => ?_, ?_, ?_⟩
  · exact absurd (hsame (h.trans (List.nil_append [size]).symm)).1.symm hne
  · intro earlier' last' h _
    obtain ⟨rfl, rfl⟩ := hsame h
    exact hknown
  · intro earlier' last' h _
    obtain ⟨rfl, rfl⟩ := hsame h
    exact hunknown

theorem finalSize_ensures {rootSize : Option Nat} {explicitSizes : Option (List Nat)}
    {earlier : List (Option Nat)} {totals : SizeTotals} (hne : earlier ≠ [])
    (htotal : explicitSizes.isSome → totals.total = knownSum earlier ∧
      totals.allExplicitSizesKnown = earlier.all Option.isSome) :
    (finalSize rootSize explicitSizes totals).Ensures
      (fun last => Sized rootSize explicitSizes.isSome (earlier ++ [last])) (SizeRefusal limits) := by
  have hnone (h : ¬ (explicitSizes.isSome = true ∧ rootSize.isSome ∧
      ∀ size ∈ earlier, size.isSome)) :
      Sized rootSize explicitSizes.isSome (earlier ++ [none]) :=
    sized_append hne (fun h₁ h₂ h₃ => absurd ⟨h₁, h₂, h₃⟩ h) fun _ => rfl
  cases rootSize with
  | none => exact Metered.ensures_of_ok rfl (hnone fun h => absurd h.2.1 (by simp))
  | some folderSize =>
      cases explicitSizes with
      | none => exact Metered.ensures_of_ok rfl (hnone fun h => absurd h.1 (by simp))
      | some values =>
          obtain ⟨total, known, cursor⟩ := totals
          obtain ⟨rfl, hall⟩ := htotal rfl
          obtain rfl : known = earlier.all Option.isSome := hall
          cases hknown : earlier.all Option.isSome with
          | false =>
              refine Metered.ensures_of_ok (a := none) rfl (hnone fun h => ?_)
              rw [List.all_eq_true.mpr h.2.2] at hknown
              exact absurd hknown (by simp)
          | true =>
              by_cases hle : knownSum earlier ≤ folderSize
              · have hsub : checkedSub folderSize (knownSum earlier)
                    = some (folderSize - knownSum earlier) := checkedSub_of_le hle
                refine Metered.ensures_of_ok (a := some (folderSize - knownSum earlier)) ?_ ?_
                · show (some <$> orFormat (checkedSub folderSize (knownSum earlier)) _).result = _
                  rw [hsub]
                  rfl
                · refine sized_append hne (fun _ _ _ => ⟨rfl, ?_⟩) fun h => absurd ⟨rfl, rfl,
                    List.all_eq_true.mp hknown⟩ h
                  have hlast : knownSum [some (folderSize - knownSum earlier)]
                      = folderSize - knownSum earlier := Nat.add_zero _
                  rw [knownSum_append, hlast]
                  exact congrArg some (by omega)
              · have hsub : checkedSub folderSize (knownSum earlier) = none := if_neg hle
                refine Metered.ensures_of_error (e := formatError "substream sizes exceed folder size")
                  ?_ (.inr (.inl rfl))
                show (some <$> orFormat (checkedSub folderSize (knownSum earlier)) _).result = _
                rw [hsub]
                rfl

theorem substreamSizes_ensures {rootSize : Option Nat} {count cursor : Nat}
    {explicitSizes : Option (List Nat)}
    (hstored : ∀ values ∈ explicitSizes, cursor + (count - 1) ≤ values.length ∧
      values.length < 2 ^ 64) :
    (substreamSizes rootSize count explicitSizes cursor).Ensures (fun out =>
        out.1.length = count ∧ out.1.dropLast = storedSizes explicitSizes cursor count ∧
        Sized rootSize explicitSizes.isSome out.1 ∧
        out.2 = sizesEnd explicitSizes cursor count) (SizeRefusal limits) := by
  rcases Nat.lt_trichotomy count 1 with hzero | rfl | hseveral
  · obtain rfl : count = 0 := by omega
    refine Metered.ensures_of_ok rfl ⟨rfl, ?_, ?_, ?_⟩
    · cases explicitSizes <;> rfl
    · exact ⟨fun _ h => absurd h (by simp), fun _ _ h => absurd h (by simp),
        fun _ _ h => absurd h (by simp)⟩
    · unfold sizesEnd
      split <;> rfl
  · refine Metered.ensures_of_ok rfl ⟨rfl, ?_, ?_, ?_⟩
    · cases explicitSizes <;> rfl
    · refine ⟨fun size h => (List.singleton_inj.mp h).symm, ?_, ?_⟩
      · intro earlier last h hne
        have hlength := congrArg List.length h
        rw [List.length_append, List.length_singleton, List.length_singleton] at hlength
        exact absurd (List.eq_nil_of_length_eq_zero (by omega)) hne
      · intro earlier last h hne
        have hlength := congrArg List.length h
        rw [List.length_append, List.length_singleton, List.length_singleton] at hlength
        exact absurd (List.eq_nil_of_length_eq_zero (by omega)) hne
    · unfold sizesEnd
      split <;> rfl
  · unfold substreamSizes
    rw [if_neg (by omega), if_pos hseveral]
    have htake : (takeSizes explicitSizes (count - 1) ⟨0, true, cursor⟩).Ensures (fun out =>
        out.1 = storedSizes explicitSizes cursor count ∧
        out.2.sizeCursor = sizesEnd explicitSizes cursor count ∧
        (explicitSizes.isSome → out.2.total = knownSum out.1 ∧
          out.2.allExplicitSizesKnown = out.1.all Option.isSome)) (SizeRefusal limits) := by
      cases explicitSizes with
      | none =>
          exact Metered.ensures_of_ok (takeSizes_none _ _) ⟨rfl, rfl, fun h => absurd h (by simp)⟩
      | some values =>
          obtain ⟨hle, hlt⟩ := hstored values rfl
          refine (takeSizes_ensures hlt (count - 1) hle).mono ?_ fun _ => id
          rintro ⟨sizes, totals⟩ ⟨hsizes, htotals⟩
          have htotals : totals = ⟨0 + knownSum sizes, true && sizes.all Option.isSome,
              cursor + (count - 1)⟩ := htotals
          subst htotals
          exact ⟨hsizes, rfl, fun _ => ⟨Nat.zero_add _, Bool.true_and _⟩⟩
    refine htake.bind ?_
    rintro ⟨earlier, totals⟩ ⟨hearlier, hcursor, htotal⟩
    have hlength : earlier.length = count - 1 := by
      have hstoredLength : (storedSizes explicitSizes cursor count).length = count - 1 := by
        cases explicitSizes with
        | none => exact List.length_replicate
        | some values =>
            obtain ⟨hle, -⟩ := hstored values rfl
            rw [storedSizes, List.length_map, List.length_take, List.length_drop]
            omega
      rw [show earlier = _ from hearlier, hstoredLength]
    have hne : earlier ≠ [] := by
      rintro rfl
      rw [List.length_nil] at hlength
      omega
    refine (finalSize_ensures hne htotal).bind fun last hlast => Metered.ensures_of_ok rfl ?_
    refine ⟨?_, ?_, hlast, hcursor⟩
    · show (earlier ++ [last]).length = count
      rw [List.length_append, hlength, List.length_singleton]
      omega
    · show (earlier ++ [last]).dropLast = _
      rw [List.dropLast_concat]
      exact hearlier

/-! ### The digests of one folder -/

/-- The digests that a vector stores for a number of substreams, from a cursor on. -/
def storedCrcs (explicitCrcs : Option (List (Option UInt32))) (cursor count : Nat) :
    List (Option UInt32) :=
  match explicitCrcs with
  | some values => (values.drop cursor).take count
  | none => List.replicate count none

/-- Where the cursor stands behind them. -/
def crcsEnd (explicitCrcs : Option (List (Option UInt32))) (cursor count : Nat) : Nat :=
  if explicitCrcs.isSome then cursor + count else cursor

theorem attachCrcs_inherited (crc : UInt32) (explicitCrcs : Option (List (Option UInt32)))
    (sizes : List (Option Nat)) (cursor : Nat) :
    (attachCrcs (some crc) explicitCrcs sizes cursor).result
      = .ok (sizes.map (⟨·, some crc⟩), cursor) := by
  induction sizes with
  | nil => rfl
  | cons size sizes ih =>
      rw [attachCrcs, Metered.result_bind_ok (result_checkpoint 1), Metered.result_bind_ok
        (show (takeCrc (some crc) explicitCrcs cursor).result = .ok (some crc, cursor) from rfl),
        Metered.result_bind_ok ih]
      rfl

/-- The substreams of a folder whose digests are stored. -/
theorem attachCrcs_stored {explicitCrcs : Option (List (Option UInt32))} (sizes : List (Option Nat)) :
    ∀ {cursor : Nat}, (∀ values ∈ explicitCrcs, cursor + sizes.length ≤ values.length ∧
        values.length < 2 ^ 64) →
      ∃ streams, (attachCrcs none explicitCrcs sizes cursor).result
          = .ok (streams, crcsEnd explicitCrcs cursor sizes.length) ∧
        streams.map (·.size) = sizes ∧
        streams.map (·.crc) = storedCrcs explicitCrcs cursor sizes.length := by
  induction sizes with
  | nil =>
      intro cursor h
      refine ⟨[], ?_, rfl, ?_⟩
      · unfold crcsEnd
        split <;> rfl
      · cases explicitCrcs <;> rfl
  | cons size sizes ih =>
      intro cursor h
      cases explicitCrcs with
      | none =>
          obtain ⟨streams, hresult, hsizes, hcrcs⟩ := @ih cursor fun _ hmem => absurd hmem (by simp)
          refine ⟨⟨size, none⟩ :: streams, ?_, ?_, ?_⟩
          · rw [attachCrcs, Metered.result_bind_ok (result_checkpoint 1), Metered.result_bind_ok
              (show (takeCrc none none cursor).result = .ok (none, cursor) from rfl),
              Metered.result_bind_ok hresult]
            rfl
          · rw [List.map_cons, hsizes]
          · rw [List.map_cons, hcrcs]
            rfl
      | some values =>
          obtain ⟨hle, hlt⟩ := h values rfl
          rw [List.length_cons] at hle
          have hin : cursor < values.length := by omega
          obtain ⟨streams, hresult, hsizes, hcrcs⟩ := @ih (cursor + 1) (by
            rintro _ ⟨⟩
            exact ⟨by omega, hlt⟩)
          have hnext : checkedAdd 64 cursor 1 = some (cursor + 1) := checkedAdd_of_lt (by omega)
          have htake : (takeCrc none (some values) cursor).result = .ok (values[cursor], cursor + 1) := by
            refine Metered.bind_eq_ok.mpr ⟨_, orFormat_eq_ok.mpr (List.getElem?_eq_getElem hin), ?_⟩
            exact Metered.bind_eq_ok.mpr ⟨_, orFormat_eq_ok.mpr hnext, rfl⟩
          refine ⟨⟨size, values[cursor]⟩ :: streams, ?_, ?_, ?_⟩
          · rw [attachCrcs, Metered.result_bind_ok (result_checkpoint 1),
              Metered.result_bind_ok htake, Metered.result_bind_ok hresult]
            show Except.ok _ = Except.ok (_, cursor + (sizes.length + 1))
            rw [Nat.add_comm sizes.length, ← Nat.add_assoc]
            rfl
          · rw [List.map_cons, hsizes]
          · rw [List.map_cons, hcrcs, storedCrcs, storedCrcs, List.drop_eq_getElem_cons hin]
            rfl

/-- The digests stored for a folder: none if its only substream takes the folder's. -/
def ownDigests (crc : Option UInt32) (count : Nat) : Nat :=
  if count = 1 ∧ crc.isSome then 0 else count

theorem buildSubstreams_ensures {draft : FolderDraft} {count sizeCursor crcCursor : Nat}
    {explicitSizes : Option (List Nat)} {explicitCrcs : Option (List (Option UInt32))}
    (hsizes : ∀ values ∈ explicitSizes, sizeCursor + (count - 1) ≤ values.length ∧
      values.length < 2 ^ 64)
    (hcrcs : ∀ values ∈ explicitCrcs, crcCursor + ownDigests draft.crc count ≤ values.length ∧
      values.length < 2 ^ 64) :
    (buildSubstreams draft count explicitSizes sizeCursor explicitCrcs crcCursor).Ensures
      (fun out => out.1.length = count ∧
        (out.1.map (·.size)).dropLast = storedSizes explicitSizes sizeCursor count ∧
        Sized draft.rootSize explicitSizes.isSome (out.1.map (·.size)) ∧
        out.2 = (sizesEnd explicitSizes sizeCursor count,
          crcsEnd explicitCrcs crcCursor (ownDigests draft.crc count)) ∧
        if count = 1 ∧ draft.crc.isSome then out.1.map (·.crc) = [draft.crc]
        else out.1.map (·.crc) = storedCrcs explicitCrcs crcCursor count) (SizeRefusal limits) := by
  refine Metered.ensures_bind_ok (result_checkpoint _) ((substreamSizes_ensures hsizes).bind ?_)
  rintro ⟨sizes, cursor⟩ ⟨hlength, hstored, hsized, hcursor⟩
  obtain rfl : cursor = _ := hcursor
  have hlength : sizes.length = count := hlength
  by_cases hinherit : count = 1 ∧ draft.crc.isSome
  · obtain ⟨rfl, hsome⟩ := hinherit
    obtain ⟨crc, hcrc⟩ := Option.isSome_iff_exists.mp hsome
    have hone : ownDigests draft.crc 1 = 0 := if_pos ⟨rfl, hsome⟩
    have hcrcEnd : crcsEnd explicitCrcs crcCursor 0 = crcCursor := by
      unfold crcsEnd
      split <;> rfl
    have hmap : (sizes.map fun size => (⟨size, some crc⟩ : Substream)).map (·.size) = sizes := by
      rw [List.map_map]
      exact List.map_id _
    simp only [if_pos]
    rw [hcrc]
    refine Metered.ensures_bind_ok (attachCrcs_inherited crc _ _ _)
      (Metered.ensures_of_ok rfl ⟨?_, ?_, ?_, ?_, ?_⟩)
    · rw [List.length_map, hlength]
    · rw [hmap]
      exact hstored
    · rw [hmap]
      exact hsized
    · rw [← hcrc, hone, hcrcEnd]
    · rw [if_pos ⟨trivial, rfl⟩]
      obtain ⟨size, rfl⟩ := List.length_eq_one_iff.mp hlength
      rfl
  · have hnone : (if count = 1 then draft.crc else none) = none := by
      by_cases hone : count = 1
      · rw [if_pos hone]
        exact Option.not_isSome_iff_eq_none.mp fun hsome => hinherit ⟨hone, hsome⟩
      · rw [if_neg hone]
    have hown : ownDigests draft.crc count = count := if_neg hinherit
    rw [hown] at hcrcs ⊢
    simp only [hnone]
    obtain ⟨streams, hresult, hmap, hstreamCrcs⟩ := @attachCrcs_stored explicitCrcs sizes crcCursor
      (by rwa [hlength])
    rw [hlength] at hresult hstreamCrcs
    refine Metered.ensures_bind_ok hresult (Metered.ensures_of_ok rfl ⟨?_, ?_, ?_, rfl, ?_⟩)
    · rw [← hlength, ← hmap, List.length_map]
    · rw [hmap]
      exact hstored
    · rw [hmap]
      exact hsized
    · rw [if_neg hinherit]
      exact hstreamCrcs

end Validate

/-! ### All folders -/

namespace Folder

def rootSize (folder : Folder) : Option Nat := (folder.unpackSizes[folder.rootOutputIndex]?).join

/-- Its only substream takes its digest. -/
def inheritsCrc (folder : Folder) : Bool := folder.substreams.length == 1 && folder.crc.isSome

/-- The sizes of its substreams but the last. -/
def earlierSizes (folder : Folder) : List (Option Nat) := (folder.substreams.map (·.size)).dropLast

/-- The digests that are not inherited. -/
def ownCrcs (folder : Folder) : List (Option UInt32) :=
  if folder.inheritsCrc then [] else folder.substreams.map (·.crc)

end Folder

namespace Validate

/-- What is ahead of a cursor in a vector is as much as the folders still need. -/
def Ahead {α : Type} (vector : Option (List α)) (cursor need : Nat) : Prop :=
  ∀ values ∈ vector, cursor + need = values.length ∧ values.length < 2 ^ 64

theorem Ahead.take {α : Type} {vector : Option (List α)} {cursor first rest : Nat}
    (h : Ahead vector cursor (first + rest)) : ∀ values ∈ vector,
      cursor + first ≤ values.length ∧ values.length < 2 ^ 64 := by
  intro values hvalues
  obtain ⟨hlength, hlt⟩ := h values hvalues
  exact ⟨by omega, hlt⟩

/-- What the folders are made of when the vectors are used up. -/
structure Assigned (explicitSizes : Option (List Nat)) (explicitCrcs : Option (List (Option UInt32)))
    (needed : List Nat) (sizeCursor crcCursor : Nat) (folders : List Folder)
    (last : SubstreamCursors) : Prop where
  counts : folders.map (·.substreams.length) = needed
  sizes : ∀ values ∈ explicitSizes,
    folders.flatMap Folder.earlierSizes = (values.drop sizeCursor).map optionalSize
  noSizes : explicitSizes = none → ∀ size ∈ folders.flatMap Folder.earlierSizes, size = none
  sized : ∀ folder ∈ folders,
    Sized folder.rootSize explicitSizes.isSome (folder.substreams.map (·.size))
  inherited : ∀ folder ∈ folders, folder.inheritsCrc →
    folder.substreams.map (·.crc) = [folder.crc]
  crcs : ∀ values ∈ explicitCrcs, folders.flatMap Folder.ownCrcs = values.drop crcCursor
  noCrcs : explicitCrcs = none → ∀ crc ∈ folders.flatMap Folder.ownCrcs, crc = none
  sizeEnd : ∀ values ∈ explicitSizes, last.size = values.length
  crcEnd : ∀ values ∈ explicitCrcs, last.crc = values.length

variable {limits : Limits} {explicitSizes : Option (List Nat)}
  {explicitCrcs : Option (List (Option UInt32))}

/-- The digests all of these folders need. -/
def ownDigestsOf (drafts : List FolderDraft) (needed : List Nat) : Nat :=
  ((drafts.zip needed).map fun p => ownDigests p.1.crc p.2).sum

theorem Assigned.nil {cursors : SubstreamCursors} (hsizes : Ahead explicitSizes cursors.size 0)
    (hcrcs : Ahead explicitCrcs cursors.crc 0) :
    Assigned explicitSizes explicitCrcs [] cursors.size cursors.crc [] cursors := by
  refine ⟨rfl, ?_, ?_, ?_, ?_, ?_, ?_, fun values hvalues => (hsizes values hvalues).1,
    fun values hvalues => (hcrcs values hvalues).1⟩
  · intro values hvalues
    have hend : cursors.size = values.length := (hsizes values hvalues).1
    rw [hend, List.drop_length]
    rfl
  · exact fun _ _ h => absurd h (by simp)
  · exact fun _ h => absurd h (by simp)
  · exact fun _ h => absurd h (by simp)
  · intro values hvalues
    have hend : cursors.crc = values.length := (hcrcs values hvalues).1
    rw [hend, List.drop_length]
    rfl
  · exact fun _ _ h => absurd h (by simp)

/-- What is stored for a folder, and what is stored behind that. -/
theorem storedSizes_append {values : List Nat} {cursor count : Nat} {rest : List (Option Nat)}
    (hrest : rest = (values.drop (sizesEnd (some values) cursor count)).map optionalSize) :
    storedSizes (some values) cursor count ++ rest = (values.drop cursor).map optionalSize := by
  have hend : sizesEnd (some values) cursor count = cursor + (count - 1) := rfl
  rw [hrest, hend, storedSizes, ← List.map_append, ← List.drop_drop, List.take_append_drop]

theorem storedCrcs_append {values : List (Option UInt32)} {cursor count : Nat}
    {rest : List (Option UInt32)}
    (hrest : rest = values.drop (crcsEnd (some values) cursor count)) :
    storedCrcs (some values) cursor count ++ rest = values.drop cursor := by
  have hend : crcsEnd (some values) cursor count = cursor + count := rfl
  rw [hrest, hend, storedCrcs, ← List.drop_drop, List.take_append_drop]

theorem Assigned.cons {draft : FolderDraft} {streams : List Substream} {count : Nat}
    {needed : List Nat} {sizeCursor crcCursor : Nat} {folders : List Folder}
    {last : SubstreamCursors}
    (h : Assigned explicitSizes explicitCrcs needed (sizesEnd explicitSizes sizeCursor count)
      (crcsEnd explicitCrcs crcCursor (ownDigests draft.crc count)) folders last)
    (hlength : streams.length = count)
    (hsizes : (streams.map (·.size)).dropLast = storedSizes explicitSizes sizeCursor count)
    (hsized : Sized draft.rootSize explicitSizes.isSome (streams.map (·.size)))
    (hcrcs : if count = 1 ∧ draft.crc.isSome then streams.map (·.crc) = [draft.crc]
      else streams.map (·.crc) = storedCrcs explicitCrcs crcCursor count)
    (hroot : draft.rootSize = (draft.unpackSizes[draft.rootOutputIndex]?).join) :
    Assigned explicitSizes explicitCrcs (count :: needed) sizeCursor crcCursor
      (finishFolder draft streams :: folders) last := by
  have hinherits : (finishFolder draft streams).inheritsCrc = true ↔
      count = 1 ∧ draft.crc.isSome := by
    rw [Folder.inheritsCrc, Bool.and_eq_true, beq_iff_eq, ← hlength]
    exact Iff.rfl
  have hown : (finishFolder draft streams).ownCrcs
      = storedCrcs explicitCrcs crcCursor (ownDigests draft.crc count) := by
    unfold Folder.ownCrcs ownDigests
    by_cases hinherit : count = 1 ∧ draft.crc.isSome
    · rw [if_pos (hinherits.mpr hinherit), if_pos hinherit]
      cases explicitCrcs <;> rfl
    · rw [if_neg (mt hinherits.mp hinherit), if_neg hinherit]
      rwa [if_neg hinherit] at hcrcs
  refine ⟨?_, ?_, ?_, ?_, ?_, ?_, ?_, h.sizeEnd, h.crcEnd⟩
  · rw [List.map_cons, h.counts]
    exact congrArg (· :: needed) hlength
  · rintro values hvalues
    obtain rfl : explicitSizes = some values := hvalues
    rw [List.flatMap_cons]
    exact (congrArg (· ++ _) hsizes).trans (storedSizes_append (h.sizes values rfl))
  · intro hnone size hsize
    rw [List.flatMap_cons] at hsize
    rcases List.mem_append.mp hsize with hfirst | hrest
    · have hfirst : size ∈ storedSizes explicitSizes sizeCursor count := hsizes ▸ hfirst
      subst hnone
      exact List.eq_of_mem_replicate hfirst
    · exact h.noSizes hnone size hrest
  · refine List.forall_mem_cons.mpr ⟨?_, h.sized⟩
    rw [hroot] at hsized
    exact hsized
  · refine List.forall_mem_cons.mpr ⟨fun hinherit => ?_, h.inherited⟩
    rw [if_pos (hinherits.mp hinherit)] at hcrcs
    exact hcrcs
  · rintro values hvalues
    obtain rfl : explicitCrcs = some values := hvalues
    rw [List.flatMap_cons, hown]
    exact storedCrcs_append (h.crcs values rfl)
  · intro hnone crc hcrc
    rw [List.flatMap_cons, hown] at hcrc
    rcases List.mem_append.mp hcrc with hfirst | hrest
    · subst hnone
      exact List.eq_of_mem_replicate hfirst
    · exact h.noCrcs hnone crc hrest

theorem Ahead.sizesEnd {cursor count rest : Nat}
    (h : Ahead explicitSizes cursor (count - 1 + rest)) :
    Ahead explicitSizes (sizesEnd explicitSizes cursor count) rest := by
  rintro values hvalues
  obtain ⟨hlength, hlt⟩ := h values hvalues
  obtain rfl : explicitSizes = some values := hvalues
  exact ⟨by show cursor + (count - 1) + rest = _; omega, hlt⟩

theorem Ahead.crcsEnd {cursor count rest : Nat} (h : Ahead explicitCrcs cursor (count + rest)) :
    Ahead explicitCrcs (crcsEnd explicitCrcs cursor count) rest := by
  rintro values hvalues
  obtain ⟨hlength, hlt⟩ := h values hvalues
  obtain rfl : explicitCrcs = some values := hvalues
  exact ⟨by show cursor + count + rest = _; omega, hlt⟩

theorem assignSubstreams_ensures {counts : List Nat} (drafts : List FolderDraft) :
    ∀ {needed : List Nat} {index : Nat} {cursors : SubstreamCursors},
      needed.length = drafts.length →
      (∀ i n, needed[i]? = some n → (substreamCount counts (index + i)).result = .ok n) →
      cursors.total + needed.sum < 2 ^ 64 →
      Ahead explicitSizes cursors.size (needed.map (· - 1)).sum →
      Ahead explicitCrcs cursors.crc (ownDigestsOf drafts needed) →
      (∀ draft ∈ drafts, draft.rootSize = (draft.unpackSizes[draft.rootOutputIndex]?).join) →
      (assignSubstreams counts explicitSizes explicitCrcs limits index drafts cursors).Ensures
        (fun out => Assigned explicitSizes explicitCrcs needed cursors.size cursors.crc out.1 out.2)
        (SizeRefusal limits) := by
  induction drafts with
  | nil =>
      intro needed index cursors hlength _ _ hsizes hcrcs _
      obtain rfl := List.eq_nil_of_length_eq_zero hlength
      exact Metered.ensures_of_ok rfl (.nil hsizes hcrcs)
  | cons draft drafts ih =>
      intro needed index cursors hlength hcount htotal hsizes hcrcs hroot
      cases needed with
      | nil => exact absurd hlength (by simp)
      | cons count needed =>
          rw [List.sum_cons] at htotal
          rw [List.map_cons, List.sum_cons] at hsizes
          have hcrcs : Ahead explicitCrcs cursors.crc
              (ownDigests draft.crc count + ownDigestsOf drafts needed) := hcrcs
          have hadd : checkedAdd 64 cursors.total count = some (cursors.total + count) :=
            checkedAdd_of_lt (by omega)
          rw [assignSubstreams]
          refine Metered.ensures_bind_ok (hcount 0 count rfl)
            (Metered.ensures_bind_ok (orFormat_eq_ok.mpr hadd) ?_)
          refine (Metered.ensures_iff.mpr ⟨fun _ _ => trivial, fun e he => ?_⟩ :
            (checkLimit _ _ _).Ensures (fun _ => True) (SizeRefusal limits)).bind fun _ _ => ?_
          · exact .inr (.inr ⟨_, checkLimit_eq_error he⟩)
          refine (buildSubstreams_ensures hsizes.take hcrcs.take).bind ?_
          rintro ⟨streams, ends⟩ ⟨hstreams, hearlier, hsized, rfl, hdigests⟩
          refine (ih (Nat.succ.inj hlength) ?_ ?_ hsizes.sizesEnd hcrcs.crcsEnd
            fun other hother => hroot other (List.mem_cons_of_mem _ hother)).bind ?_
          · intro i n hn
            rw [Nat.add_assoc, Nat.add_comm 1]
            exact hcount (i + 1) n hn
          · show cursors.total + count + needed.sum < 2 ^ 64
            omega
          · rintro ⟨folders, last⟩ hassigned
            exact Metered.ensures_of_ok rfl (hassigned.cons hstreams hearlier hsized hdigests
              (hroot draft List.mem_cons_self))

/-! ### The whole section -/

theorem validateFolder_root {raw : RawFolder} {crc : Option UInt32} {first : Nat} {draft : FolderDraft}
    (h : (validateFolder raw crc first limits).result = .ok draft) :
    draft.crc = crc ∧ draft.rootSize = (draft.unpackSizes[draft.rootOutputIndex]?).join := by
  simp only [validateFolder, Metered.bind_eq_ok, refuseFormat_eq_ok, Prod.exists,
    Metered.result_pure, Except.ok.injEq, orFormat_eq_ok] at h
  obtain ⟨_, -, _, _, -, -, graph, -, -, rootSize, hroot, rfl⟩ := h
  exact ⟨rfl, (congrArg Option.join hroot).symm⟩

/-- The drafts take the digests of the folders, and know the size of their root. -/
theorem validateFolders_drafts {crcs : Option (List (Option UInt32))} (raws : List RawFolder) :
    ∀ {index start stop : Nat} {drafts : List FolderDraft},
      (validateFolders crcs limits index raws start).result = .ok (drafts, stop) →
      drafts.length = raws.length ∧
        (∀ i draft, drafts[i]? = some draft → draft.crc = Raw.inheritedCrc crcs (index + i)) ∧
        ∀ draft ∈ drafts, draft.rootSize = (draft.unpackSizes[draft.rootOutputIndex]?).join := by
  induction raws with
  | nil =>
      intro index start stop drafts h
      obtain ⟨rfl, -⟩ : drafts = [] ∧ stop = start := by
        simpa [validateFolders, eq_comm] using h
      exact ⟨rfl, fun i draft h => absurd h (by simp), fun _ h => absurd h (by simp)⟩
  | cons raw raws ih =>
      intro index start stop drafts h
      obtain ⟨crc, hcrc, h⟩ := Metered.bind_eq_ok.mp h
      obtain ⟨draft, hdraft, h⟩ := Metered.bind_eq_ok.mp h
      obtain ⟨assigned, -, h⟩ := Metered.bind_eq_ok.mp h
      obtain ⟨⟨rest, stop'⟩, hrest, h⟩ := Metered.bind_eq_ok.mp h
      obtain ⟨rfl, rfl⟩ := Prod.mk.inj (Except.ok.inj h)
      obtain ⟨hlength, hcrcs, hroots⟩ := ih hrest
      obtain ⟨hdraftCrc, hroot⟩ := validateFolder_root hdraft
      have hinherited : crc.join = Raw.inheritedCrc crcs index := by
        unfold valueAt at hcrc
        cases crcs with
        | none =>
            obtain rfl := Except.ok.inj hcrc
            rfl
        | some items =>
            rw [Metered.result_map] at hcrc
            cases hitem : items[index]? with
            | none =>
                rw [hitem] at hcrc
                exact absurd hcrc (by simp [Except.map])
            | some item =>
                rw [hitem] at hcrc
                obtain rfl := Except.ok.inj hcrc
                show item = (items[index]?).join
                rw [hitem]
                rfl
      refine ⟨congrArg Nat.succ hlength, ?_, List.forall_mem_cons.mpr ⟨hroot, hroots⟩⟩
      intro i other hother
      cases i with
      | zero =>
          obtain rfl := Option.some.inj hother
          exact hdraftCrc.trans hinherited
      | succ i =>
          rw [Nat.add_comm i, ← Nat.add_assoc]
          exact hcrcs i other hother

/-- The validator needs as many digests as the parser has counted. -/
theorem ownDigestsOf_eq {crcs : Option (List (Option UInt32))} (drafts : List FolderDraft) :
    ∀ {counts : List Nat} {index : Nat}, counts.length = drafts.length →
      (∀ i draft, drafts[i]? = some draft → draft.crc = Raw.inheritedCrc crcs (index + i)) →
      ownDigestsOf drafts counts = digestCount crcs index counts := by
  induction drafts with
  | nil =>
      intro counts index hlength _
      obtain rfl := List.eq_nil_of_length_eq_zero hlength
      rfl
  | cons draft drafts ih =>
      intro counts index hlength hcrcs
      cases counts with
      | nil => exact absurd hlength (by simp)
      | cons count counts =>
          have hfirst : draft.crc = Raw.inheritedCrc crcs index := hcrcs 0 draft rfl
          have hrest := @ih counts (index + 1) (Nat.succ.inj hlength) fun i other hother => by
            rw [Nat.add_assoc, Nat.add_comm 1]
            exact hcrcs (i + 1) other hother
          rw [digestCount, ← hrest, ← hfirst]
          rfl

end Validate

/-- The substreams of a validated section are what the parsed one stores for them. -/
structure SubstreamsOf (raw : RawStreamsInfo) (streams : StreamsInfo) : Prop where
  counts : ∀ info ∈ raw.substreams, streams.folders.map (·.substreams.length) = info.counts
  single : raw.substreams = none → ∀ folder ∈ streams.folders, folder.substreams.length = 1
  folderCrcs : ∀ unpack ∈ raw.unpack, ∀ i folder, streams.folders[i]? = some folder →
    folder.crc = Raw.inheritedCrc unpack.crcs i
  /-- Each stored size is used once, in folder-major order. -/
  sizes : ∀ values ∈ raw.substreams.bind (·.explicitSizes),
    streams.folders.flatMap Folder.earlierSizes = values.map Validate.optionalSize
  noSizes : raw.substreams.bind (·.explicitSizes) = none →
    ∀ size ∈ streams.folders.flatMap Folder.earlierSizes, size = none
  sized : ∀ folder ∈ streams.folders, Validate.Sized folder.rootSize
    (raw.substreams.bind (·.explicitSizes)).isSome (folder.substreams.map (·.size))
  inherited : ∀ folder ∈ streams.folders, folder.inheritsCrc →
    folder.substreams.map (·.crc) = [folder.crc]
  /-- Each stored digest is used once, in folder-major order. -/
  crcs : ∀ values ∈ raw.substreams.bind (·.crcs),
    streams.folders.flatMap Folder.ownCrcs = values
  noCrcs : raw.substreams.bind (·.crcs) = none →
    ∀ crc ∈ streams.folders.flatMap Folder.ownCrcs, crc = none

namespace Validate

/-- How many substreams each folder has. -/
def neededCounts (folders : Nat) (substreams : Option RawSubstreamsInfo) : List Nat :=
  match substreams with
  | some info => info.counts
  | none => List.replicate folders 1

/-- The vectors of a parsed section are as long as its folders need. -/
structure Fitting (unpack : RawUnpackInfo) (substreams : Option RawSubstreamsInfo) : Prop where
  length : (neededCounts unpack.folders.length substreams).length = unpack.folders.length
  total : (neededCounts unpack.folders.length substreams).sum < 2 ^ 64
  sizes : Ahead (substreams.bind (·.explicitSizes)) 0
    ((neededCounts unpack.folders.length substreams).map (· - 1)).sum
  crcs : Ahead (substreams.bind (·.crcs)) 0
    (digestCount unpack.crcs 0 (neededCounts unpack.folders.length substreams))

theorem fitting_of_counted {raw : RawStreamsInfo} {unpack : RawUnpackInfo} (h : raw.Counted)
    (hunpack : raw.unpack = some unpack) : Fitting unpack raw.substreams := by
  cases hsubstreams : raw.substreams with
  | none =>
      have hfolders := h.folders hsubstreams unpack hunpack
      refine ⟨List.length_replicate, ?_, fun _ hmem => absurd hmem (by simp),
        fun _ hmem => absurd hmem (by simp)⟩
      show (List.replicate unpack.folders.length 1).sum < 2 ^ 64
      rwa [List.sum_replicate, smul_eq_mul, Nat.mul_one]
  | some info =>
      obtain ⟨unpack', hsame, hlength, hsum, hsizes, hcrcs⟩ := h.substreams info hsubstreams
      obtain rfl := Option.some.inj (hsame.symm.trans hunpack)
      have hless := sum_pred_le info.counts
      have hdigests := digestCount_le unpack'.crcs info.counts 0
      refine ⟨hlength, hsum, fun values hvalues => ?_, fun values hvalues => ?_⟩
      · have hvalues := hsizes values hvalues
        exact ⟨by rw [Nat.zero_add, hvalues]; rfl, by omega⟩
      · have hvalues := hcrcs values hvalues
        exact ⟨by rw [Nat.zero_add, hvalues]; rfl, by omega⟩

theorem substreamCount_needed {folders : Nat} {substreams : Option RawSubstreamsInfo} {i n : Nat}
    (h : (neededCounts folders substreams)[i]? = some n) :
    (substreamCount (substreamCounts substreams) i).result = .ok n := by
  unfold substreamCount
  cases substreams with
  | none =>
      obtain rfl : n = 1 := List.eq_of_mem_replicate (List.mem_of_getElem? h)
      rfl
  | some info =>
      have hne : ¬ info.counts.isEmpty := by
        intro hempty
        rw [List.isEmpty_iff] at hempty
        have h : info.counts[i]? = some n := h
        rw [hempty] at h
        exact absurd h (by simp)
      exact (congrArg Metered.result (if_neg hne)).trans (orFormat_eq_ok.mpr h)

/-- A refusal of packed streams is about a size, or is there whatever the substreams are. -/
theorem validatePackedStreams_ensures {pack : RawPackInfo} {unpack : RawUnpackInfo}
    {substreams : Option RawSubstreamsInfo} (hfit : Fitting unpack substreams)
    (envelope : HeaderEnvelope) (archiveBytes : Bytes) (ranges : List (Nat × Nat)) :
    (validatePackedStreams pack unpack substreams envelope archiveBytes limits ranges).Ensures
      (fun out => SubstreamsOf ⟨some pack, some unpack, substreams⟩ out.1)
      (fun e => SizeRefusal limits e ∨ ∀ other,
        (validatePackedStreams pack unpack other envelope archiveBytes limits ranges).result
          = .error e) := by
  unfold validatePackedStreams
  cases hpack : (validatePackRanges (some pack) envelope archiveBytes ranges).result with
  | error e =>
      exact Metered.ensures_of_error (Metered.result_bind_error hpack)
        (.inr fun other => Metered.result_bind_error hpack)
  | ok packed =>
      obtain ⟨⟨position, packStreams⟩, ranges'⟩ := packed
      simp only [Metered.result_bind_ok hpack]
      refine Metered.ensures_bind_ok hpack ?_
      by_cases hcrcs : unpack.crcs.any (·.length ≠ unpack.folders.length)
      · simp only [if_pos hcrcs]
        exact Metered.ensures_of_error rfl (.inr fun _ => rfl)
      simp only [if_neg hcrcs, Metered.result_bind_ok (result_checkpoint _)]
      refine Metered.ensures_bind_ok (result_checkpoint _) ?_
      cases hfolders : (validateFolders unpack.crcs limits 0 unpack.folders 0).result with
      | error e =>
          exact Metered.ensures_of_error (Metered.result_bind_error hfolders)
            (.inr fun other => Metered.result_bind_error hfolders)
      | ok drafted =>
          obtain ⟨drafts, assigned⟩ := drafted
          obtain ⟨hlength, hdraftCrcs, hroots⟩ := validateFolders_drafts _ hfolders
          simp only [Metered.result_bind_ok hfolders]
          refine Metered.ensures_bind_ok hfolders ?_
          by_cases hassigned : assigned ≠ packStreams.length
          · simp only [if_pos hassigned]
            exact Metered.ensures_of_error rfl (.inr fun _ => rfl)
          simp only [if_neg hassigned]
          have hcounts : (!(substreamCounts substreams).isEmpty
              && (substreamCounts substreams).length != drafts.length) = false := by
            cases hsubstreams : substreams with
            | none => rfl
            | some info =>
                have hinfo := hfit.length
                rw [hsubstreams] at hinfo
                have hinfo : info.counts.length = unpack.folders.length := hinfo
                show (!info.counts.isEmpty && info.counts.length != drafts.length) = false
                rw [hinfo, hlength, bne_self_eq_false, Bool.and_false]
          simp only [hcounts, Bool.false_eq_true, if_false]
          have hneeded : (neededCounts unpack.folders.length substreams).length = drafts.length :=
            hfit.length.trans hlength.symm
          have hown := @ownDigestsOf_eq unpack.crcs drafts _ 0 hneeded hdraftCrcs
          have hassign := @assignSubstreams_ensures limits (substreams.bind (·.explicitSizes))
            (substreams.bind (·.crcs)) (substreamCounts substreams) drafts
            (neededCounts unpack.folders.length substreams) 0 {} hneeded
            (fun i n hn => by rw [Nat.zero_add]; exact substreamCount_needed hn)
            (by rw [Nat.zero_add]; exact hfit.total) hfit.sizes (hown ▸ hfit.crcs) hroots
          cases hresult : (assignSubstreams (substreamCounts substreams)
              (substreams.bind (·.explicitSizes)) (substreams.bind (·.crcs)) limits 0 drafts
              {}).result with
          | error e =>
              exact Metered.ensures_of_error (Metered.result_bind_error hresult)
                (.inl (hassign.error hresult))
          | ok made =>
              obtain ⟨folders, last⟩ := made
              obtain ⟨hcounts, hsizes, hnoSizes, hsized, hinherited, hdigests, hnoDigests, hsizeEnd,
                hcrcEnd⟩ := hassign.ok hresult
              refine Metered.ensures_bind_ok hresult ?_
              have hsizesUsed : ¬ ((substreams.bind (·.explicitSizes)).any (last.size ≠ ·.length)) := by
                rw [Option.any_eq_true]
                rintro ⟨values, hvalues, hne⟩
                exact absurd (hsizeEnd values hvalues) (of_decide_eq_true hne)
              have hcrcsUsed : ¬ ((substreams.bind (·.crcs)).any (last.crc ≠ ·.length)) := by
                rw [Option.any_eq_true]
                rintro ⟨values, hvalues, hne⟩
                exact absurd (hcrcEnd values hvalues) (of_decide_eq_true hne)
              simp only [if_neg hsizesUsed, if_neg hcrcsUsed]
              have hcrcs : folders.map (·.crc) = drafts.map (·.crc) :=
                assignSubstreams_map (fun _ _ => rfl) drafts hresult
              refine Metered.ensures_of_ok rfl ⟨?_, ?_, ?_, ?_, hnoSizes, hsized, hinherited, ?_,
                hnoDigests⟩
              · rintro info hinfo
                obtain rfl : substreams = some info := hinfo
                exact hcounts
              · intro hnone folder hfolder
                have hnone : substreams = none := hnone
                subst hnone
                have hmem : folder.substreams.length ∈ folders.map (·.substreams.length) :=
                  List.mem_map_of_mem hfolder
                rw [hcounts] at hmem
                exact List.eq_of_mem_replicate hmem
              · rintro _ ⟨⟩ i folder hfolder
                have hdraft : (drafts.map (·.crc))[i]? = some folder.crc := by
                  rw [← hcrcs, List.getElem?_map, hfolder]
                  rfl
                rw [List.getElem?_map] at hdraft
                obtain ⟨draft, hdraft, hsame⟩ := Option.map_eq_some_iff.mp hdraft
                rw [← hsame, hdraftCrcs i draft hdraft, Nat.zero_add]
              · intro values hvalues
                rw [hsizes values hvalues]
                rfl
              · intro values hvalues
                rw [hdigests values hvalues]
                rfl

/-- **The substreams of a parsed section** are never refused for the length of a vector, and
what is stored for them is used up, each value for one substream. -/
theorem validateStreams_substreams {state state' : ParseState} {parseLimits : Limits}
    {external : Option ExternalFolderData} {reader next : BoundedReader} {raw : RawStreamsInfo}
    (h : (Raw.parseStreamsInfo state parseLimits external reader).result
      = .ok ((.complete raw, state'), next)) (envelope : HeaderEnvelope) (archiveBytes : Bytes)
    (limits : Limits) (ranges : List (Nat × Nat)) :
    (∀ e, (validateStreams raw envelope archiveBytes limits ranges).result = .error e →
      SizeRefusal limits e ∨ ∀ substreams,
        (validateStreams { raw with substreams } envelope archiveBytes limits ranges).result
          = .error e) ∧
    ∀ streams ranges',
      (validateStreams raw envelope archiveBytes limits ranges).result = .ok (streams, ranges') →
      SubstreamsOf raw streams := by
  have hcounted := Raw.parseStreamsInfo_counted h
  obtain ⟨pack, unpack, substreams⟩ := raw
  cases pack with
  | none =>
      cases unpack with
      | none =>
          cases substreams with
          | none =>
              refine ⟨fun e he => absurd he (by simp [validateStreams]), fun streams ranges' hok => ?_⟩
              obtain ⟨rfl, -⟩ := Prod.mk.inj (Except.ok.inj hok)
              exact ⟨fun _ h => absurd h (by simp), fun _ _ h => absurd h (by simp),
                fun _ h => absurd h (by simp), fun _ h => absurd h (by simp),
                fun _ _ h => absurd h (by simp), fun _ h => absurd h (by simp),
                fun _ h => absurd h (by simp), fun _ h => absurd h (by simp),
                fun _ _ h => absurd h (by simp)⟩
          | some info =>
              obtain ⟨unpack, hunpack, -⟩ := hcounted.substreams info rfl
              exact absurd hunpack (by simp)
      | some unpack =>
          exact ⟨fun e he => .inr fun _ => he, fun _ _ hok => absurd hok (by simp [validateStreams])⟩
  | some pack =>
      cases unpack with
      | none =>
          exact ⟨fun e he => .inr fun _ => he, fun _ _ hok => absurd hok (by simp [validateStreams])⟩
      | some unpack =>
          have hensures := @validatePackedStreams_ensures limits pack unpack substreams
            (fitting_of_counted hcounted rfl) envelope archiveBytes ranges
          exact ⟨fun e he => hensures.error he, fun streams ranges' hok => hensures.ok hok⟩

/-- A folder of five bytes with two substreams, the first of three. -/
theorem validateStreams_substreams_two :
    let raw : RawStreamsInfo := ⟨some ⟨0, 1, some [5], none⟩,
      some ⟨[⟨[⟨[0], 1, 1, []⟩], 1, 1, [], 1, none, [5]⟩], none⟩, some ⟨[2], some [3], none⟩⟩
    ∃ streams, (validateStreams raw ⟨0, ⟨0, 4⟩, 37, 1, 0, .header⟩ (List.replicate 38 0) {} []).result
        = .ok (streams, [(32, 37)]) ∧ SubstreamsOf raw streams := by
  intro raw
  have hparse : (Raw.parseStreamsInfo {} {} none (BoundedReader.new [6, 0, 1, 9, 5, 0, 7, 0x0b, 1, 0,
      1, 1, 0, 0x0c, 5, 0, 8, 0x0d, 2, 9, 3, 0, 0])).result
        = .ok ((.complete raw, ⟨1, 1, 2, 1, 2, 0⟩), ⟨[6, 0, 1, 9, 5, 0, 7, 0x0b, 1, 0, 1, 1, 0,
          0x0c, 5, 0, 8, 0x0d, 2, 9, 3, 0, 0], 23, by decide⟩) := by
    decide +kernel
  have hvalid : (validateStreams raw ⟨0, ⟨0, 4⟩, 37, 1, 0, .header⟩ (List.replicate 38 0) {}
      []).result = .ok (⟨0, [⟨32, some 5, none⟩], [⟨[⟨[0], 0, 1, 0, 1, [], none⟩], [], [0], [some 5],
        0, [0], none, [⟨some 3, none⟩, ⟨some 2, none⟩], 0, 0⟩], 2⟩, [(32, 37)]) := by
    decide +kernel
  exact ⟨_, hvalid, (validateStreams_substreams hparse _ _ _ _).2 _ _ hvalid⟩

end Validate

end Un7z
