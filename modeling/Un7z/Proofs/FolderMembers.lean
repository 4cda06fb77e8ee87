/-
Members and the limits of their folder.

`folder_decode_maximum` allows a folder as much output as its members may have, so the
last member, which may have no declared size, is within the limit because the output of
the folder is.  `member_bounds` finds a member where `Folder.MemberAt` says it is.
-/
import Mathlib.Algebra.Order.BigOperators.Group.List
import Un7z.Proofs.SinkProtocol

namespace Un7z

namespace Folder

/-- What `folder_decode_maximum` checks of the substreams, up to the total. -/
structure Allowed (folder : Folder) (limits : Limits) : Prop where
  /-- A declared size is within the limit of an entry. -/
  entry : ∀ substream ∈ folder.substreams, ∀ size, substream.size = some size →
    size ≤ limits.maxEntryOutputBytes
  /-- Only the last substream may have no size. -/
  last : ∀ (k : Nat) (substream : Substream), folder.substreams[k]? = some substream →
    substream.size = none → k + 1 = folder.substreams.length

/-- The size of a substream, or the most it may have. -/
def allowance (limits : Limits) (substream : Substream) : Nat :=
  substream.size.getD limits.maxEntryOutputBytes

variable {folder : Folder} {limits : Limits}

/-- A member with a declared size ends where the next one starts. -/
theorem MemberAt.stop_eq {k folderSize start stop : Nat}
    (h : folder.MemberAt k folderSize start stop) (hmore : k + 1 < folder.substreams.length) :
    stop = folder.memberStart (k + 1) ∧ folder.SizesKnown (k + 1) := by
  obtain ⟨substream, hsubstream, ⟨size, hsize, rfl⟩ | ⟨-, hlast, -⟩⟩ := h.sized
  · refine ⟨?_, (Archive.sizesKnown_succ hsubstream).mpr ⟨h.known, by rw [hsize]; rfl⟩⟩
    rw [Archive.memberStart_succ hsubstream, h.start_eq, hsize]
    rfl
  · omega

/-- A member is where it is. -/
theorem MemberAt.unique {k folderSize start stop start' stop' : Nat}
    (h : folder.MemberAt k folderSize start stop) (h' : folder.MemberAt k folderSize start' stop') :
    start = start' ∧ stop = stop' := by
  have hstart : start = start' := h.start_eq.trans h'.start_eq.symm
  obtain ⟨substream, hsubstream, hsized⟩ := h.sized
  obtain ⟨substream', hsubstream', hsized'⟩ := h'.sized
  obtain rfl := Option.some.inj (hsubstream.symm.trans hsubstream')
  refine ⟨hstart, ?_⟩
  rcases hsized with ⟨size, hsize, rfl⟩ | ⟨hsize, -, rfl⟩
  · obtain ⟨size', hsize', rfl⟩ | ⟨hnone, -, -⟩ := hsized'
    · rw [hstart, Option.some.inj (hsize.symm.trans hsize')]
    · exact absurd (hsize.symm.trans hnone) (by simp)
  · obtain ⟨size', hsize', -⟩ | ⟨-, -, rfl⟩ := hsized'
    · exact absurd (hsize.symm.trans hsize') (by simp)
    · rfl

end Folder

namespace Archive

open Execute (DecodedFolder decodeFolder)

variable {folder : Folder} {limits : Limits}

/-! ### The maximum of a folder -/

theorem substreamAllowance_eq_ok {index contribution : Nat} {size : Option Nat}
    {unknown unknown' : Bool}
    (h : (substreamAllowance folder limits index size unknown).result
      = .ok (contribution, unknown')) :
    (∀ n, size = some n → n ≤ limits.maxEntryOutputBytes) ∧
      (size = none → index + 1 = folder.substreams.length) ∧
      contribution = size.getD limits.maxEntryOutputBytes ∧ unknown' = (unknown || size.isNone) := by
  cases size with
  | some n =>
      simp only [substreamAllowance, Metered.bind_eq_ok, checkLimit_eq_ok, Metered.result_pure,
        Except.ok.injEq, Prod.mk.injEq] at h
      obtain ⟨_, hn, rfl, rfl⟩ := h
      exact ⟨fun n' heq => by rwa [← Option.some.inj heq], by simp, rfl, by simp⟩
  | none =>
      unfold substreamAllowance at h
      by_cases hlast : index + 1 = folder.substreams.length
      · simp only [if_pos hlast, Metered.result_pure, Except.ok.injEq, Prod.mk.injEq] at h
        obtain ⟨rfl, rfl⟩ := h
        exact ⟨by simp, fun _ => hlast, rfl, by simp⟩
      · simp only [if_neg hlast, Metered.result_fail, reduceCtorEq] at h

theorem permittedOutput_eq_ok (rest : List Substream) :
    ∀ {index permitted permitted' : Nat} {unknown unknown' : Bool},
      (permittedOutput folder limits index rest permitted unknown).result
        = .ok (permitted', unknown') →
      (∀ substream ∈ rest, ∀ n, substream.size = some n → n ≤ limits.maxEntryOutputBytes) ∧
        (∀ (k : Nat) (substream : Substream), rest[k]? = some substream →
          substream.size = none → index + k + 1 = folder.substreams.length) ∧
        permitted' = permitted + (rest.map (Folder.allowance limits)).sum ∧
        (permitted < 2 ^ 64 → permitted' < 2 ^ 64) ∧
        unknown' = (unknown || rest.any (·.size.isNone)) := by
  induction rest with
  | nil =>
      intro index permitted permitted' unknown unknown' h
      obtain ⟨rfl, rfl⟩ := Prod.mk.inj (Except.ok.inj h)
      simp
  | cons substream rest ih =>
      intro index permitted permitted' unknown unknown' h
      simp only [permittedOutput, Metered.bind_eq_ok, Prod.exists, orFormat_eq_ok,
        checkedAdd_eq_some] at h
      obtain ⟨contribution, middle, hone, _, ⟨hlt, rfl⟩, _, -, hrest⟩ := h
      obtain ⟨hentry, hnone, rfl, rfl⟩ := substreamAllowance_eq_ok hone
      obtain ⟨hentries, hlast, hsum, hlt', hunknown⟩ := ih hrest
      refine ⟨List.forall_mem_cons.mpr ⟨hentry, hentries⟩, fun k substream' hk hsize => ?_, ?_,
        fun _ => hlt' hlt, ?_⟩
      · cases k with
        | zero =>
            obtain rfl := Option.some.inj hk
            exact hnone hsize
        | succ k =>
            have := hlast k substream' hk hsize
            omega
      · rw [hsum, List.map_cons, List.sum_cons, Folder.allowance, Nat.add_assoc]
      · rw [hunknown, List.any_cons, Bool.or_assoc]

/-- **The maximum of a folder** that has members. -/
theorem folderDecodeMaximum_eq_ok {remaining maximum : Nat}
    (h : (folderDecodeMaximum folder limits remaining).result = .ok maximum)
    (hmembers : folder.substreams ≠ []) :
    folder.Allowed limits ∧
      maximum ≤ (folder.substreams.map (Folder.allowance limits)).sum ∧
      (folder.substreams.map (Folder.allowance limits)).sum < 2 ^ 64 ∧
      ((∀ substream ∈ folder.substreams, substream.size.isSome) →
        folder.unpackSizes[folder.rootOutputIndex]?
          = some (some (folder.substreams.map (Folder.allowance limits)).sum)) := by
  simp only [folderDecodeMaximum, declaredRootSize, Metered.bind_eq_ok, orFormat_eq_ok] at h
  obtain ⟨declared, hdeclared, _, -, h⟩ := h
  rw [if_neg (by simpa using hmembers)] at h
  simp only [Metered.bind_eq_ok, Prod.exists, refuseFormat_eq_ok, Metered.result_pure,
    Except.ok.injEq] at h
  obtain ⟨permitted, unknown, hpermitted, hroot, rfl⟩ := h
  obtain ⟨hentry, hlast, hsum, hlt, hunknown⟩ := permittedOutput_eq_ok _ hpermitted
  rw [Nat.zero_add] at hsum
  rw [← hsum]
  refine ⟨⟨hentry, fun k substream hk hsize => ?_⟩, Nat.min_le_left _ _, hlt (by decide),
    fun hknown => ?_⟩
  · have := hlast k substream hk hsize
    omega
  · have hnone : unknown = false := by
      rw [hunknown, Bool.false_or, List.any_eq_false]
      intro substream hmem hnone
      have hsome := hknown substream hmem
      rw [Option.isNone_iff_eq_none.mp hnone] at hsome
      exact absurd hsome (by simp)
    rw [hdeclared]
    by_contra hne
    exact hroot ⟨by rw [hnone]; rfl, fun heq => hne (by rw [heq])⟩

/-- With more output left, the maximum is no smaller. -/
theorem folderDecodeMaximum_mono {remaining remaining' maximum : Nat}
    (h : (folderDecodeMaximum folder limits remaining).result = .ok maximum)
    (hle : remaining ≤ remaining') :
    ∃ maximum', (folderDecodeMaximum folder limits remaining').result = .ok maximum' ∧
      maximum ≤ maximum' := by
  simp only [folderDecodeMaximum, declaredRootSize, Metered.bind_eq_ok, orFormat_eq_ok] at h ⊢
  obtain ⟨declared, hdeclared, _, hroot, h⟩ := h
  have hroot' : (Execute.checkRootSize declared remaining').result = .ok () := by
    cases declared with
    | none => rfl
    | some size => exact checkLimit_of_le ((checkLimit_eq_ok.mp hroot).trans hle) _
  by_cases hempty : folder.substreams.isEmpty
  · rw [if_pos hempty] at h
    obtain rfl := Except.ok.inj h
    exact ⟨remaining', ⟨declared, hdeclared, (), hroot', by rw [if_pos hempty]; rfl⟩, hle⟩
  · rw [if_neg hempty] at h
    simp only [Metered.bind_eq_ok, Prod.exists, refuseFormat_eq_ok, Metered.result_pure,
      Except.ok.injEq] at h
    obtain ⟨permitted, unknown, hpermitted, hexact, rfl⟩ := h
    refine ⟨min permitted remaining', ⟨declared, hdeclared, (), hroot', ?_⟩, by omega⟩
    rw [if_neg hempty]
    simp only [Metered.bind_eq_ok, Prod.exists, refuseFormat_eq_ok, Metered.result_pure]
    exact ⟨permitted, unknown, hpermitted, hexact, rfl⟩

/-! ### Where members end -/

/-- Sizes that are all known add up to the allowance of their substreams. -/
theorem memberStart_eq_allowance (limits : Limits) {k : Nat} (hknown : folder.SizesKnown k) :
    folder.memberStart k
      = ((folder.substreams.take k).map (Folder.allowance limits)).sum := by
  rw [Folder.memberStart]
  congr 1
  refine List.map_congr_left fun substream hmem => ?_
  obtain ⟨size, hsize⟩ := Option.isSome_iff_exists.mp (hknown substream hmem)
  rw [Folder.allowance, hsize]
  rfl

/-- The start of the last member and its allowance are the allowance of the folder. -/
theorem memberStart_add_allowance (limits : Limits) {k : Nat} {substream : Substream}
    (hknown : folder.SizesKnown k) (hsubstream : folder.substreams[k]? = some substream)
    (hlast : k + 1 = folder.substreams.length) :
    folder.memberStart k + Folder.allowance limits substream
      = (folder.substreams.map (Folder.allowance limits)).sum := by
  have htake := List.take_length (l := folder.substreams)
  rw [← hlast, List.take_add_one, hsubstream] at htake
  rw [memberStart_eq_allowance limits hknown]
  conv_rhs => rw [← htake]
  simp

/-- **A member is within the limit** of an entry. -/
theorem memberSize_le {remaining maximum k folderSize start stop : Nat}
    (h : (folderDecodeMaximum folder limits remaining).result = .ok maximum)
    (hsize : folderSize ≤ maximum) (hat : folder.MemberAt k folderSize start stop) :
    stop - start ≤ limits.maxEntryOutputBytes := by
  obtain ⟨substream, hsubstream, hsized⟩ := hat.sized
  obtain ⟨hallowed, hmaximum, -, -⟩ :=
    folderDecodeMaximum_eq_ok h (List.ne_nil_of_mem (List.mem_of_getElem? hsubstream))
  obtain ⟨size, hdeclared, rfl⟩ | ⟨hnone, hlast, rfl⟩ := hsized
  · have := hallowed.entry substream (List.mem_of_getElem? hsubstream) size hdeclared
    omega
  · -- what the others leave of the allowance is that of one entry
    have hsum := memberStart_add_allowance limits hat.known hsubstream hlast
    rw [← hat.start_eq, Folder.allowance, hnone, Option.getD_none] at hsum
    omega

/-- **The last member ends** where the output of the folder does. -/
theorem lastMember_stop {remaining maximum k folderSize start stop : Nat}
    (h : (folderDecodeMaximum folder limits remaining).result = .ok maximum)
    (hroot : ∀ size, folder.unpackSizes[folder.rootOutputIndex]? = some (some size) →
      folderSize = size)
    (hat : folder.MemberAt k folderSize start stop) (hlast : k + 1 = folder.substreams.length) :
    stop = folderSize := by
  obtain ⟨substream, hsubstream, ⟨size, hdeclared, rfl⟩ | ⟨-, -, rfl⟩⟩ := hat.sized
  · obtain ⟨-, -, -, hexact⟩ :=
      folderDecodeMaximum_eq_ok h (List.ne_nil_of_mem (List.mem_of_getElem? hsubstream))
    have hknown : folder.SizesKnown (k + 1) :=
      (sizesKnown_succ hsubstream).mpr ⟨hat.known, by rw [hdeclared]; rfl⟩
    have hsum := memberStart_add_allowance limits hat.known hsubstream hlast
    rw [Folder.SizesKnown, hlast, List.take_length] at hknown
    rw [Folder.allowance, hdeclared, ← hat.start_eq] at hsum
    rw [hroot _ (hexact hknown), ← hsum]
    rfl
  · rfl

theorem boundsFrom_result {target folderSize start stop : Nat} (hlt : folderSize < 2 ^ 64)
    (hat : folder.MemberAt target folderSize start stop) (rest : List Substream) :
    ∀ {index offset : Nat}, folder.substreams.drop index = rest → index ≤ target →
      offset = folder.memberStart index →
      (boundsFrom folder target folderSize index rest offset).result = .ok (start, stop) := by
  have hstart := hat.start_le
  have hstop := hat.stop_le
  obtain ⟨last, hlast, hsized⟩ := hat.sized
  induction rest with
  | nil =>
      intro index offset hrest hle _
      have := (List.getElem?_eq_some_iff.mp hlast).1
      have := List.drop_eq_nil_iff.mp hrest
      omega
  | cons substream rest ih =>
      intro index offset hrest hle hoffset
      have hsubstream : folder.substreams[index]? = some substream := by
        rw [← List.head?_drop, hrest]
        rfl
      rw [boundsFrom, Metered.result_bind_ok (result_checkpoint 1)]
      by_cases hindex : index = target
      · subst hindex
        obtain rfl := Option.some.inj (hlast.symm.trans hsubstream)
        rw [← hat.start_eq] at hoffset
        subst hoffset
        have hend : (Metadata.substreamEnd folder folderSize offset index last.size
            "member byte range overflows" "unknown-nonfinal-substream-size").result = .ok stop := by
          refine substreamEnd_eq_ok.mpr (hsized.imp (fun ⟨n, hn, heq⟩ => ?_) id)
          exact ⟨n, hn, by omega, heq⟩
        rw [if_pos rfl, Metered.result_bind_ok hend, if_neg (by omega)]
        rfl
      · have hnext : index + 1 ≤ target := by omega
        have hknown := hat.known substream (List.mem_of_getElem? (i := index) (by
          rw [List.getElem?_take_of_lt (by omega)]
          exact hsubstream))
        obtain ⟨size, hsize⟩ := Option.isSome_iff_exists.mp hknown
        have hsucc := memberStart_succ hsubstream
        rw [hsize] at hsucc
        have hmono : folder.memberStart (index + 1) ≤ folder.memberStart target := by
          have hsub : (folder.substreams.take (index + 1)).Sublist (folder.substreams.take target) :=
            List.take_sublist_take_left hnext
          exact List.Sublist.sum_le_sum (hsub.map _) fun _ _ => Nat.zero_le _
        rw [if_neg hindex]
        simp only [hsize]
        rw [Metered.result_bind_ok (orFormat_eq_ok.mpr (checkedAdd_of_lt (by
          have := hat.start_eq
          simp only [Option.getD_some] at hsucc
          omega)))]
        refine ih ?_ hnext ?_
        · rw [← List.drop_drop, hrest]
          rfl
        · rw [hsucc, hoffset]
          rfl

/-- `member_bounds` finds a member where it is. -/
theorem memberBounds_result {k folderSize start stop : Nat} (hlt : folderSize < 2 ^ 64)
    (hat : folder.MemberAt k folderSize start stop) :
    (memberBounds folder k folderSize).result = .ok (start, stop) := by
  obtain ⟨substream, hsubstream, -⟩ := hat.sized
  have hk : k < folder.substreams.length := (List.getElem?_eq_some_iff.mp hsubstream).1
  rw [memberBounds, if_neg (by omega)]
  exact boundsFrom_result hlt hat _ List.drop_zero (Nat.zero_le _) (by simp [Folder.memberStart])

theorem boundsFrom_eq_ok {target folderSize start stop : Nat} (rest : List Substream) :
    ∀ {index offset : Nat}, folder.substreams.drop index = rest → folder.SizesKnown index →
      offset = folder.memberStart index →
      (boundsFrom folder target folderSize index rest offset).result = .ok (start, stop) →
      start ≤ stop → folder.MemberAt target folderSize start stop := by
  induction rest with
  | nil =>
      intro index offset _ _ _ h
      exact absurd h (by simp [boundsFrom])
  | cons substream rest ih =>
      intro index offset hrest hknown hoffset h hle
      have hsubstream : folder.substreams[index]? = some substream := by
        rw [← List.head?_drop, hrest]
        rfl
      rw [boundsFrom, Metered.result_bind_ok (result_checkpoint 1)] at h
      by_cases hindex : index = target
      · subst hindex
        rw [if_pos rfl, Metered.bind_eq_ok] at h
        obtain ⟨stop', hstop', h⟩ := h
        obtain ⟨hin, h⟩ := refuseFormat_eq_ok.mp h
        obtain ⟨rfl, rfl⟩ := Prod.mk.inj (Except.ok.inj h)
        refine ⟨hoffset, hknown, ⟨substream, hsubstream, ?_⟩, hle, Nat.not_lt.mp hin⟩
        exact (substreamEnd_eq_ok.mp hstop').imp (fun ⟨n, hn, _, heq⟩ => ⟨n, hn, heq⟩) id
      · rw [if_neg hindex] at h
        cases hsize : substream.size with
        | none =>
            rw [hsize] at h
            exact absurd h (by simp)
        | some size =>
            simp only [hsize, Metered.bind_eq_ok, orFormat_eq_ok, checkedAdd_eq_some] at h
            obtain ⟨_, ⟨-, rfl⟩, h⟩ := h
            refine ih ?_ ((sizesKnown_succ hsubstream).mpr ⟨hknown, by rw [hsize]; rfl⟩) ?_ h hle
            · rw [← List.drop_drop, hrest]
              rfl
            · rw [memberStart_succ hsubstream, hoffset, hsize]
              rfl

/-- And what `member_bounds` finds is a member. -/
theorem memberBounds_eq_ok {k folderSize start stop : Nat}
    (h : (memberBounds folder k folderSize).result = .ok (start, stop)) (hle : start ≤ stop) :
    folder.MemberAt k folderSize start stop := by
  obtain ⟨-, h⟩ := refuseFormat_eq_ok.mp h
  exact boundsFrom_eq_ok _ List.drop_zero (by simp [Folder.SizesKnown])
    (by simp [Folder.memberStart]) h hle

end Archive

end Un7z
