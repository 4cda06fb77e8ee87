/-
The executor computes the coder graph.

The port tables of `decode_folder` are the tables of an execution of the graph: an input
table is a slot for each input port, an output table is an entry for each coder, since
a registered coder has one output.  `Represents` says so, each operation of the executor
is shown to act on the tables as the graph does, and the invariant of the library then
says what is in them.  No order of the coders is left in the outcome, only that it was
a schedule.
-/
import Un7z.Proofs.FolderValidation

namespace Un7z

open Tiling (tile points)
open Metered (fail)

/-! ### Tables over a range of indices -/

section Table

variable {α : Type}

/-- The list of the values of `f` at `0, …, n - 1`. -/
def tableOf (n : Nat) (f : Nat → α) : List α := (List.range n).map f

@[simp] theorem length_tableOf (n : Nat) (f : Nat → α) : (tableOf n f).length = n := by
  simp [tableOf]

theorem getElem?_tableOf {n i : Nat} (h : i < n) (f : Nat → α) : (tableOf n f)[i]? = some (f i) := by
  simp [tableOf, h]

theorem set_tableOf (n i : Nat) (f : Nat → α) (a : α) :
    (tableOf n f).set i a = tableOf n (Function.update f i a) := by
  refine List.ext_getElem? fun j => ?_
  by_cases hj : j < n
  · rw [getElem?_tableOf hj]
    by_cases hij : i = j
    · subst hij
      rw [List.getElem?_set_self (by simpa using hj), Function.update_self]
    · rw [List.getElem?_set_ne hij, getElem?_tableOf hj, Function.update_of_ne (Ne.symm hij)]
  · rw [List.getElem?_eq_none (by simpa using hj), List.getElem?_eq_none (by simpa using hj)]

theorem tableOf_congr {n : Nat} {f g : Nat → α} (h : ∀ i < n, f i = g i) :
    tableOf n f = tableOf n g :=
  List.map_congr_left fun i hi => h i (List.mem_range.mp hi)

theorem replicate_eq_tableOf (n : Nat) (a : α) : List.replicate n a = tableOf n fun _ => a := by
  simp [tableOf, List.map_const']

/-- A list in which a key occurs once finds its element by the key. -/
theorem find?_eq_some_of_nodup {β : Type} [DecidableEq β] {key : α → β} {items : List α}
    (hnodup : (items.map key).Nodup) {a : α} {b : β} :
    items.find? (key · = b) = some a ↔ a ∈ items ∧ key a = b := by
  induction items with
  | nil => simp
  | cons x items ih =>
      rw [List.map_cons, List.nodup_cons] at hnodup
      by_cases hx : key x = b
      · rw [List.find?_cons_of_pos (by simpa using hx), List.mem_cons, Option.some.injEq]
        constructor
        · rintro rfl
          exact ⟨Or.inl rfl, hx⟩
        · rintro ⟨rfl | hmem, ha⟩
          · rfl
          · exact absurd (List.mem_map_of_mem hmem) (ha.trans hx.symm ▸ hnodup.1)
      · rw [List.find?_cons_of_neg (by simpa using hx), ih hnodup.2, List.mem_cons]
        constructor
        · exact fun ⟨hmem, ha⟩ => ⟨Or.inr hmem, ha⟩
        · rintro ⟨rfl | hmem, ha⟩
          · exact absurd ha hx
          · exact ⟨hmem, ha⟩

theorem idxOf?_getElem_of_nodup {items : List Nat} (hnodup : items.Nodup) {k : Nat}
    (hk : k < items.length) : items.idxOf? items[k] = some k := by
  rw [List.idxOf?_eq_some_iff]
  exact ⟨hk, rfl, fun j hj => List.pairwise_iff_getElem.mp hnodup j k (by omega) hk hj⟩

end Table

namespace Folder

/-! ### A registered folder -/

/-- A well-formed folder all of whose coders have one output. -/
structure Registered (folder : Folder) : Prop extends WellFormed folder where
  single : ∀ coder ∈ folder.coders, coder.outputCount = 1

variable {folder : Folder} {context : Context}

namespace Registered

theorem outputCounts (h : folder.Registered) :
    folder.coders.map (·.outputCount) = List.replicate folder.coders.length 1 := by
  rw [← List.map_const']
  exact List.map_congr_left h.single

theorem outputCount_eq (h : folder.Registered) : folder.outputCount = folder.coders.length := by
  rw [outputCount, h.outputCounts]
  simp

/-- The one output of coder `i` is output port `i`. -/
theorem outputStart_eq (h : folder.Registered) {i : Nat} {coder : Coder}
    (hcoder : folder.coders[i]? = some coder) : coder.outputStart = i := by
  have hlt : i < folder.coders.length := (List.getElem?_eq_some_iff.mp hcoder).1
  have hcount : (folder.coders.map (·.outputCount))[i]? = some 1 := by
    rw [h.outputCounts, List.getElem?_replicate, if_pos hlt]
  have hget := Tiling.getElem?_tile _ 0 i 1 hcount
  rw [← h.outputs, List.getElem?_map, hcoder, h.outputCounts, List.take_replicate] at hget
  have hrange := Option.some.inj hget
  have hstart := congrArg Prod.fst hrange
  simp only [Coder.outputRange, List.sum_replicate, Nat.zero_add, smul_eq_mul, mul_one] at hstart
  omega

/-- Output port `i` belongs to coder `i`. -/
theorem coderOfOutput_eq (h : folder.Registered) {i : Nat} (hi : i < folder.coders.length) :
    folder.coderOfOutput i = some i := by
  rw [coderOfOutput, List.findIdx?_eq_some_iff_getElem]
  have hown : ∀ (j : Nat) (hj : j < folder.coders.length),
      folder.coders[j].outputStart = j ∧ folder.coders[j].outputCount = 1 := fun j hj =>
    ⟨h.outputStart_eq (List.getElem?_eq_getElem hj), h.single _ (List.getElem_mem hj)⟩
  refine ⟨hi, ?_, fun j hj => ?_⟩
  · simp [hown i hi]
  · have := hown j (by omega)
    simp only [decide_eq_true_eq]
    omega

/-- Every input port is read by one coder. -/
theorem exists_reader (h : folder.Registered) {p : Nat} (hp : p < folder.inputCount) :
    ∃ (i : Nat) (coder : Coder), folder.coders[i]? = some coder ∧
      p ∈ points coder.inputRange := by
  have hmem : p ∈ Set.Ico 0 (0 + (folder.coders.map (·.inputCount)).sum) :=
    ⟨Nat.zero_le p, by simpa [inputCount] using hp⟩
  rw [← Tiling.iUnion_tile, ← h.inputs] at hmem
  simp only [Set.mem_iUnion, List.mem_map, exists_prop] at hmem
  obtain ⟨_, ⟨coder, hcoder, rfl⟩, hpoint⟩ := hmem
  obtain ⟨i, hi⟩ := List.mem_iff_getElem?.mp hcoder
  exact ⟨i, coder, hi, hpoint⟩

/-- No input port is read by two coders. -/
theorem reader_unique (h : folder.Registered) {p i j : Nat} {a b : Coder}
    (ha : folder.coders[i]? = some a) (hb : folder.coders[j]? = some b)
    (hpa : p ∈ points a.inputRange) (hpb : p ∈ points b.inputRange) : i = j := by
  have hi := Validate.owners_of_mem h.inputs ha hpa
  have hj := Validate.owners_of_mem h.inputs hb hpb
  exact Option.some.inj (hi.symm.trans hj)

theorem input_lt (h : folder.Registered) {p i : Nat} {coder : Coder}
    (hcoder : folder.coders[i]? = some coder) (hp : p ∈ points coder.inputRange) :
    p < folder.inputCount := by
  have hmem : coder.inputRange ∈ tile 0 (folder.coders.map (·.inputCount)) := by
    rw [← h.inputs]
    exact List.mem_map_of_mem (List.mem_of_getElem? hcoder)
  have hhi := (Tiling.mem_tile _ _ _ hmem).2.2
  have := hp.2
  simp only [inputCount]
  omega

/-! ### Its graph -/

theorem inputs_eq (i : Nat) :
    (folder.graph context).inputs i = (folder.coders[i]?.map Coder.inputPorts).getD [] := rfl

theorem mem_inputs {p i : Nat} :
    p ∈ (folder.graph context).inputs i ↔
      ∃ coder, folder.coders[i]? = some coder ∧ p ∈ points coder.inputRange := by
  rw [inputs_eq]
  cases folder.coders[i]? with
  | none => simp
  | some coder => simp [points, Coder.inputRange, Coder.inputPorts, List.mem_range'_1]

theorem boundInputs_nodup (h : folder.Registered) :
    (folder.bindPairs.map (·.inputIndex)).Nodup :=
  (List.nodup_append.mp (h.boundInputs.symm.nodup List.nodup_range)).1

theorem packed_nodup (h : folder.Registered) : folder.packedInputIndices.Nodup :=
  (List.nodup_append.mp (h.boundInputs.symm.nodup List.nodup_range)).2.1

theorem boundOutputs_nodup (h : folder.Registered) :
    (folder.bindPairs.map (·.outputIndex)).Nodup :=
  (List.nodup_append.mp (h.boundOutputs.symm.nodup List.nodup_range)).1

theorem outputIndex_lt (h : folder.Registered) {pair : BindPair} (hpair : pair ∈ folder.bindPairs) :
    pair.outputIndex < folder.coders.length := by
  have hmem : pair.outputIndex ∈ List.range folder.outputCount :=
    h.boundOutputs.subset (List.mem_append_left _ (List.mem_map_of_mem hpair))
  rw [← h.outputCount_eq]
  exact List.mem_range.mp hmem

theorem root_lt (h : folder.Registered) : folder.rootOutputIndex < folder.coders.length := by
  have hmem : folder.rootOutputIndex ∈ List.range folder.outputCount :=
    h.boundOutputs.subset (List.mem_append_right _ (List.mem_singleton.mpr rfl))
  rw [← h.outputCount_eq]
  exact List.mem_range.mp hmem

theorem source_eq_some (h : folder.Registered) {p i : Nat} :
    (folder.graph context).source p = some i ↔
      ∃ pair ∈ folder.bindPairs, pair.inputIndex = p ∧ pair.outputIndex = i := by
  show (folder.bindPairs.find? _).bind _ = _ ↔ _
  simp only [Option.bind_eq_some_iff,
    find?_eq_some_of_nodup h.boundInputs_nodup]
  constructor
  · rintro ⟨pair, ⟨hpair, hinput⟩, howner⟩
    rw [h.coderOfOutput_eq (h.outputIndex_lt hpair)] at howner
    exact ⟨pair, hpair, hinput, Option.some.inj howner⟩
  · rintro ⟨pair, hpair, hinput, rfl⟩
    exact ⟨pair, ⟨hpair, hinput⟩, h.coderOfOutput_eq (h.outputIndex_lt hpair)⟩

theorem target_eq_some (h : folder.Registered) {p i : Nat} :
    (folder.graph context).target i = some p ↔
      ∃ pair ∈ folder.bindPairs, pair.inputIndex = p ∧ pair.outputIndex = i := by
  simp only [graph, Option.bind_eq_bind, Option.bind_eq_some_iff, Option.pure_def,
    Option.some.injEq, find?_eq_some_of_nodup h.boundOutputs_nodup]
  constructor
  · rintro ⟨coder, hcoder, pair, ⟨hpair, houtput⟩, rfl⟩
    exact ⟨pair, hpair, rfl, houtput.trans (h.outputStart_eq hcoder)⟩
  · rintro ⟨pair, hpair, hinput, rfl⟩
    have hlt := h.outputIndex_lt hpair
    exact ⟨_, List.getElem?_eq_getElem hlt, pair,
      ⟨hpair, (h.outputStart_eq (List.getElem?_eq_getElem hlt)).symm⟩, hinput⟩

theorem wired (h : folder.Registered) : (folder.graph context).Wired where
  target_iff i p := h.target_eq_some.trans h.source_eq_some.symm
  nodup i := by
    rw [inputs_eq]
    cases folder.coders[i]? with
    | none => exact List.nodup_nil
    | some coder => exact List.nodup_range'
  disjoint i j p hi hj := by
    obtain ⟨a, ha, hpa⟩ := mem_inputs.mp hi
    obtain ⟨b, hb, hpb⟩ := mem_inputs.mp hj
    exact h.reader_unique ha hb hpa hpb

end Registered

end Folder

namespace Execute

open Folder

variable {folder : Folder} {context : Context}

/-! ### Operations on a table -/

theorem takePort_tableOf {n i : Nat} {f : Nat → Option Bytes} {bytes : Bytes} (hi : i < n)
    (hf : f i = some bytes) (range empty : String) :
    (takePort (tableOf n f) i range empty).result
      = .ok (bytes, tableOf n (Function.update f i none)) := by
  rw [takePort, getElem?_tableOf hi, Metered.result_bind_ok rfl, hf, Metered.result_bind_ok rfl,
    set_tableOf]
  rfl

theorem populate_tableOf {n i : Nat} {f : Nat → Option Bytes} (hi : i < n) (hf : f i = none)
    (bytes : Bytes) (range duplicate : String) :
    (populate (tableOf n f) i bytes range duplicate).result
      = .ok (tableOf n (Function.update f i (some bytes))) := by
  simp [populate, getElem?_tableOf hi, hf, set_tableOf]

/-- A coder takes what lies in its ports, and leaves them empty. -/
theorem takeInputs_tableOf {n start : Nat} (hn : n < 2 ^ 64) (count : Nat) :
    ∀ {relative : Nat} {f : Nat → Option Bytes} {inputs : List Bytes},
      start + relative + count ≤ n →
      (List.range' (start + relative) count).map f = inputs.map some →
      (takeInputs start count relative (tableOf n f)).result
        = .ok (inputs, tableOf n (Dataflow.clear (List.range' (start + relative) count) f)) := by
  induction count with
  | zero =>
      intro relative f inputs _ hinputs
      obtain rfl : inputs = [] := by simpa using hinputs
      have hclear : Dataflow.clear (List.range' (start + relative) 0) f = f := by
        funext p
        simp [Dataflow.clear]
      rw [hclear]
      rfl
  | succ count ih =>
      intro relative f inputs hle hinputs
      rw [List.range'_succ, List.map_cons] at hinputs
      cases inputs with
      | nil => exact absurd hinputs (by simp)
      | cons input inputs =>
          rw [List.map_cons, List.cons.injEq] at hinputs
          obtain ⟨hinput, hrest⟩ := hinputs
          have hport := takePort_tableOf (n := n) (by omega) hinput
            "coder input index is out of range during execution"
            "coder input stream is unavailable during execution"
          have hlater : (List.range' (start + (relative + 1)) count).map
              (Function.update f (start + relative) none) = inputs.map some := by
            rw [← hrest]
            refine List.map_congr_left fun p hp => Function.update_of_ne ?_ _ _
            have := (List.mem_range'_1.mp hp).1
            omega
          have hsum : checkedAdd 64 start relative = some (start + relative) :=
            checkedAdd_of_lt (by omega)
          rw [takeInputs, hsum, Metered.result_bind_ok rfl, Metered.result_bind_ok hport,
            Metered.result_bind_ok (ih (by omega) hlater), List.range'_succ, Dataflow.clear_cons]
          rfl

/-! ### Loading the ports -/

theorem totalPortCount_result (count : Coder → Nat) (coders : List Coder) :
    ∀ total : Nat, total + (coders.map count).sum < 2 ^ 64 →
      (totalPortCount count coders total).result = .ok (total + (coders.map count).sum) := by
  induction coders with
  | nil => intro total _; rfl
  | cons coder coders ih =>
      intro total h
      rw [List.map_cons, List.sum_cons] at h ⊢
      rw [totalPortCount, checkedAdd_of_lt (by omega), Metered.result_bind_ok rfl, ih _ (by omega)]
      congr 1
      omega

/-- The destinations are the bind pairs, looked up by output. -/
theorem outputDestinations_result {n : Nat} (pairs : List BindPair) :
    ∀ {f : Nat → Option Nat}, (pairs.map (·.outputIndex)).Nodup →
      (∀ pair ∈ pairs, pair.outputIndex < n ∧ f pair.outputIndex = none) →
      (outputDestinations pairs (tableOf n f)).result = .ok (tableOf n fun output =>
        ((pairs.find? (·.outputIndex = output)).map (·.inputIndex)).or (f output)) := by
  induction pairs with
  | nil => intro f _ _; simp [outputDestinations]
  | cons pair pairs ih =>
      intro f hnodup hpairs
      rw [List.map_cons, List.nodup_cons] at hnodup
      obtain ⟨⟨hlt, hnone⟩, hrest⟩ := List.forall_mem_cons.mp hpairs
      have hne : ∀ other ∈ pairs, other.outputIndex ≠ pair.outputIndex := fun other hother heq =>
        hnodup.1 (heq ▸ List.mem_map_of_mem hother)
      rw [outputDestinations, Metered.result_bind_ok (result_checkpoint _),
        getElem?_tableOf hlt, Metered.result_bind_ok rfl, hnone, if_neg (by simp), set_tableOf,
        ih hnodup.2 fun other hother => ⟨(hrest other hother).1, by
          rw [Function.update_of_ne (hne other hother)]
          exact (hrest other hother).2⟩]
      refine congrArg Except.ok (tableOf_congr fun output _ => ?_)
      by_cases houtput : pair.outputIndex = output
      · subst houtput
        have hnot : pairs.find? (·.outputIndex = pair.outputIndex) = none := by
          simpa [List.find?_eq_none] using hne
        simp [hnot]
      · simp [houtput, Function.update_of_ne (Ne.symm houtput)]

theorem outputDestinations_graph (h : folder.Registered) (context : Context) :
    (outputDestinations folder.bindPairs (List.replicate folder.coders.length none)).result
      = .ok (tableOf folder.coders.length (folder.graph context).target) := by
  rw [replicate_eq_tableOf, outputDestinations_result folder.bindPairs h.boundOutputs_nodup
    fun pair hpair => ⟨h.outputIndex_lt hpair, rfl⟩]
  refine congrArg Except.ok (tableOf_congr fun i hi => ?_)
  have hcoder := List.getElem?_eq_getElem hi
  simp only [graph, hcoder, h.outputStart_eq hcoder, Option.or_none, Option.bind_eq_bind,
    Option.bind_some]
  cases folder.bindPairs.find? _ <;> rfl

/-- A packed stream is read as the graph reads it, unless its bytes do not have its CRC. -/
theorem packedBytes_ensures (control : ParseControl) (h : folder.Registered)
    (hbacked : folder.Backed context.streams context.archiveBytes) {k : Nat}
    (hk : k < folder.packedInputIndices.length) :
    (packedBytes context.archiveBytes context.streams folder k).Ensures
      (fun bytes => packedInput context.archiveBytes context.streams folder
        folder.packedInputIndices[k] = some bytes)
      (folder.Failure context control) := by
  obtain ⟨hsum, stream, size, hstream, hsize, hlt, hle⟩ := hbacked k hk
  have hrange : (checkedRange context.archiveBytes stream.offset size
      "packed-stream range overflows during execution"
      "packed-stream range is truncated during execution").result
        = .ok ((context.archiveBytes.drop stream.offset).take size) :=
    checkedRange_eq_ok.mpr ⟨hlt, hle, rfl⟩
  have hvalue : packedInput context.archiveBytes context.streams folder
      folder.packedInputIndices[k] = some ((context.archiveBytes.drop stream.offset).take size) := by
    simp [packedInput, idxOf?_getElem_of_nodup h.packed_nodup hk, hstream, hsize]
  have hpackedSize : (packedSize stream).result = .ok size := by rw [packedSize, hsize]; rfl
  unfold packedBytes
  rw [checkedAdd_of_lt hsum]
  refine Metered.ensures_bind_ok rfl ?_
  rw [hstream]
  refine Metered.ensures_bind_ok rfl ?_
  refine Metered.ensures_bind_ok hpackedSize ?_
  refine Metered.ensures_bind_ok hrange ?_
  cases hcrc : stream.crc with
  | none => exact Metered.ensures_of_ok rfl hvalue
  | some crc =>
      refine Metered.Ensures.bind (P := fun _ => True) ?_ fun _ _ =>
        Metered.ensures_of_ok rfl hvalue
      by_cases hsame : crc32 ((context.archiveBytes.drop stream.offset).take size) = crc
      · refine Metered.ensures_bind_ok (result_checksum _) ?_
        rw [if_neg (not_not.mpr hsame)]
        exact Metered.ensures_of_ok rfl trivial
      · refine Metered.ensures_bind_ok (result_checksum _) ?_
        rw [if_pos hsame]
        exact Metered.ensures_of_error rfl (.packedCrc hk hstream hsize hcrc hsame)

/-- The bytes of the ports that the first packed indices name. -/
def loaded (folder : Folder) (context : Context) (before : List Nat) (p : Nat) : Option Bytes :=
  if p ∈ before then packedInput context.archiveBytes context.streams folder p else none

theorem loadPackedInputs_ensures (control : ParseControl) (h : folder.Registered)
    (hbacked : folder.Backed context.streams context.archiveBytes) (rest : List Nat) :
    ∀ before : List Nat, folder.packedInputIndices = before ++ rest →
      (loadPackedInputs context.archiveBytes context.streams folder before.length rest
        (tableOf folder.inputCount (loaded folder context before))).Ensures
        (· = tableOf folder.inputCount (loaded folder context (before ++ rest)))
        (folder.Failure context control) := by
  induction rest with
  | nil =>
      intro before _
      exact Metered.ensures_of_ok rfl (by rw [List.append_nil])
  | cons input rest ih =>
      intro before hsplit
      have hk : before.length < folder.packedInputIndices.length := by simp [hsplit]
      have hindex : folder.packedInputIndices[before.length] = input := by simp [hsplit]
      have hlt : input < folder.inputCount := by
        have hmem : input ∈ List.range folder.inputCount :=
          h.boundInputs.subset (List.mem_append_right _ (by simp [hsplit]))
        exact List.mem_range.mp hmem
      have hfresh : input ∉ before := by
        have hnodup := h.packed_nodup
        rw [hsplit, List.nodup_append] at hnodup
        exact fun hmem => hnodup.2.2 input hmem input List.mem_cons_self rfl
      have hbytes := packedBytes_ensures control h hbacked hk
      rw [hindex] at hbytes
      refine Metered.ensures_bind_ok (result_checkpoint _) (hbytes.bind fun bytes hvalue => ?_)
      rw [getElem?_tableOf hlt]
      refine Metered.ensures_bind_ok rfl ?_
      rw [loaded, if_neg hfresh, if_neg (by simp)]
      refine Metered.ensures_bind_ok (result_copyBytes bytes) ?_
      have hnext : (tableOf folder.inputCount (loaded folder context before)).set input (some bytes)
          = tableOf folder.inputCount (loaded folder context (before ++ [input])) := by
        rw [set_tableOf]
        refine tableOf_congr fun p _ => ?_
        by_cases hp : p = input
        · subst hp
          simp [loaded, hvalue]
        · simp [loaded, hp]
      have hrest := ih (before ++ [input]) (by rw [hsplit]; simp)
      rw [List.length_append, List.length_singleton, List.append_assoc,
        List.singleton_append] at hrest
      show (loadPackedInputs context.archiveBytes context.streams folder (before.length + 1) rest
        ((tableOf folder.inputCount (loaded folder context before)).set input (some bytes))).Ensures
          _ _
      rw [hnext]
      exact hrest

/-! ### Running the coders -/

/-- The port tables of the executor are those of the graph. -/
structure Represents (folder : Folder) (context : Context) (done : List Nat) (ports : Ports)
    (t : Dataflow.Tables Nat Nat Bytes) : Prop where
  inputs : ports.inputs = tableOf folder.inputCount t.slots
  outputs : ports.outputs = tableOf folder.coders.length t.outputs
  destinations : ports.destinations = tableOf folder.coders.length fun i =>
    if i ∈ done then none else (folder.graph context).target i

/-- Before the first coder runs, the ports hold the packed streams. -/
theorem loadPorts_ensures (control : ParseControl) (h : folder.Registered)
    (hbacked : folder.Backed context.streams context.archiveBytes) :
    (loadPorts context.archiveBytes context.streams folder).Ensures
      (fun ports => ∃ t, (folder.graph context).Holds [] t ∧
        Represents folder context [] ports t)
      (folder.Failure context control) := by
  have hinputs := totalPortCount_result (·.inputCount) folder.coders 0
    (by rw [Nat.zero_add]; exact h.inputs_lt)
  have houtputs := totalPortCount_result (·.outputCount) folder.coders 0
    (by rw [Nat.zero_add]; exact h.outputs_lt)
  rw [Nat.zero_add] at hinputs houtputs
  have houtputCount : (folder.coders.map (·.outputCount)).sum = folder.coders.length :=
    h.outputCount_eq
  refine Metered.ensures_bind_ok hinputs (Metered.ensures_bind_ok houtputs ?_)
  rw [houtputCount]
  have hdestinations := outputDestinations_graph h context
  refine Metered.ensures_bind_ok hdestinations ?_
  have hempty : emptyPorts folder.inputCount
      = tableOf folder.inputCount (loaded folder context []) := by
    rw [emptyPorts, replicate_eq_tableOf]
    exact tableOf_congr fun p _ => by simp [loaded]
  have hload := loadPackedInputs_ensures control h hbacked folder.packedInputIndices [] rfl
  rw [← hempty] at hload
  refine hload.bind fun inputs hloaded => ?_
  have hall : ∀ p, loaded folder context folder.packedInputIndices p
      = packedInput context.archiveBytes context.streams folder p := by
    intro p
    unfold loaded
    split
    · rfl
    case isFalse hp =>
      have hnone : folder.packedInputIndices.idxOf? p = none := by simpa using hp
      simp [packedInput, hnone]
  refine Metered.ensures_of_ok rfl ⟨⟨packedInput context.archiveBytes context.streams folder,
    fun _ => none⟩, Dataflow.holds_nil _ ?_ (fun _ _ => rfl) (fun _ => rfl), ?_, ?_, ?_⟩
  · -- a bound input is not packed
    intro p j hsource
    obtain ⟨pair, hpair, rfl, -⟩ := h.source_eq_some.mp hsource
    have hnodup := h.boundInputs.symm.nodup List.nodup_range
    have hnot : pair.inputIndex ∉ folder.packedInputIndices := fun hmem =>
      (List.nodup_append.mp hnodup).2.2 _ (List.mem_map_of_mem hpair) _ hmem rfl
    have hnone : folder.packedInputIndices.idxOf? pair.inputIndex = none := by simpa using hnot
    simp [packedInput, hnone]
  · rw [hloaded, List.nil_append]
    exact tableOf_congr fun p _ => hall p
  · exact replicate_eq_tableOf _ _
  · exact tableOf_congr fun i _ => by simp

/-- A coder at its place in a schedule is ready. -/
theorem ready_of_schedule (h : folder.Registered)
    (hbacked : folder.Backed context.streams context.archiveBytes) {order before after : List Nat}
    {i : Nat} (hschedule : folder.Schedule order) (hsplit : order = before ++ i :: after) :
    (folder.graph context).Ready before i where
  pending := by
    have hnodup := hschedule.perm.symm.nodup List.nodup_range
    rw [hsplit, List.nodup_append] at hnodup
    exact fun hmem => hnodup.2.2 i hmem i List.mem_cons_self rfl
  sources p hp j hsource := by
    obtain ⟨target, htarget, hread⟩ := Registered.mem_inputs.mp hp
    obtain ⟨pair, hpair, rfl, rfl⟩ := h.source_eq_some.mp hsource
    have hlt := h.outputIndex_lt hpair
    have hcoder := List.getElem?_eq_getElem hlt
    refine hschedule.respects before i after hsplit _ ⟨_, target, pair, hcoder, htarget, hpair, ?_,
      hread⟩
    have hstart := h.outputStart_eq hcoder
    have hcount := h.single _ (List.getElem_mem hlt)
    constructor <;> simp only [Coder.outputRange] <;> omega
  externals p hp hsource := by
    obtain ⟨coder, hcoder, hread⟩ := Registered.mem_inputs.mp hp
    have hmem := h.boundInputs.symm.subset (List.mem_range.mpr (h.input_lt hcoder hread))
    rcases List.mem_append.mp hmem with hbound | hpacked
    · obtain ⟨pair, hpair, rfl⟩ := List.mem_map.mp hbound
      have hsome : (folder.graph context).source pair.inputIndex = some pair.outputIndex :=
        h.source_eq_some.mpr ⟨pair, hpair, rfl, rfl⟩
      exact absurd (hsource.symm.trans hsome) (by simp)
    · obtain ⟨k, hk, rfl⟩ := List.mem_iff_getElem.mp hpacked
      obtain ⟨-, stream, size, hstream, hsize, -⟩ := hbacked k hk
      show (packedInput context.archiveBytes context.streams folder
        folder.packedInputIndices[k]).isSome
      simp [packedInput, idxOf?_getElem_of_nodup h.packed_nodup hk, hstream, hsize]

/-- An output goes where the graph sends it. -/
theorem deliverOutput_represents (h : folder.Registered) {done : List Nat} {i : Nat}
    {ports : Ports} {slots : Nat → Option Bytes} {t : Dataflow.Tables Nat Nat Bytes}
    {output : Bytes} (hi : i < folder.coders.length)
    (hready : (folder.graph context).Ready done i) (hholds : (folder.graph context).Holds done t)
    (hrep : Represents folder context done ports t)
    (hslots : slots = Dataflow.clear ((folder.graph context).inputs i) t.slots) :
    ∃ ports', (deliverOutput { ports with inputs := tableOf folder.inputCount slots } i
        output).result = .ok ports' ∧
      Represents folder context (done ++ [i]) ports' ((folder.graph context).fire i output t) := by
  have hdestination : ports.destinations[i]? = some ((folder.graph context).target i) := by
    rw [hrep.destinations, getElem?_tableOf hi, if_neg hready.pending]
  have hdestinations : ports.destinations.set i none = tableOf folder.coders.length fun j =>
      if j ∈ done ++ [i] then none else (folder.graph context).target j := by
    rw [hrep.destinations, set_tableOf]
    refine tableOf_congr fun j _ => ?_
    by_cases hj : j = i
    · simp [hj]
    · simp [hj]
  unfold deliverOutput
  rw [show ({ ports with inputs := tableOf folder.inputCount slots } : Ports).destinations
    = ports.destinations from rfl, hdestination, Metered.result_bind_ok rfl]
  cases htarget : (folder.graph context).target i with
  | some p =>
      have hp : p < folder.inputCount := by
        obtain ⟨pair, hpair, rfl, -⟩ := h.target_eq_some.mp htarget
        exact List.mem_range.mp (h.boundInputs.subset
          (List.mem_append_left _ (List.mem_map_of_mem hpair)))
      have hvacant : slots p = none := by
        have hnone := hholds.target_vacant h.wired hready.pending htarget
        rw [hslots]
        simp [Dataflow.clear, hnone]
      refine ⟨_, by rw [Metered.result_bind_ok (populate_tableOf hp hvacant output _ _)]; rfl,
        ?_, ?_, hdestinations⟩
      · simp [Dataflow.fire, htarget, hslots]
      · simpa [Dataflow.fire, htarget] using hrep.outputs
  | none =>
      have hvacant := hholds.output_vacant hready.pending
      have hpopulate := populate_tableOf hi hvacant output
        "root output index is out of range during execution"
        "root output stream was populated more than once"
      rw [← hrep.outputs] at hpopulate
      refine ⟨_, by rw [Metered.result_bind_ok hpopulate]; rfl, ?_, ?_, hdestinations⟩
      · simp [Dataflow.fire, htarget, hslots]
      · simp [Dataflow.fire, htarget]

/-- **One coder**: it fires in the graph, or fails on the values of its inputs. -/
theorem executeCoder_ensures (h : folder.Registered) {done : List Nat} {i : Nat} {ports : Ports}
    {t : Dataflow.Tables Nat Nat Bytes} (hi : i < folder.coders.length)
    (hdone : done.length ≤ folder.coders.length)
    (hready : (folder.graph context).Ready done i) (hholds : (folder.graph context).Holds done t)
    (hrep : Represents folder context done ports t) :
    (executeCoder context.codecs folder context.password context.limits context.maximumOutput
        ports i).Ensures
      (fun ports' => ∃ t', (folder.graph context).Holds (done ++ [i]) t' ∧
        Represents folder context (done ++ [i]) ports' t')
      (folder.CoderFails context) := by
  have hcoder := List.getElem?_eq_getElem hi
  generalize folder.coders[i] = coder at hcoder
  have hmem : coder ∈ folder.coders := List.mem_of_getElem? hcoder
  have hstart := h.outputStart_eq hcoder
  have hinputs : (folder.graph context).inputs i = List.range' (coder.inputStart + 0)
      coder.inputCount := by
    rw [Registered.inputs_eq, hcoder]
    rfl
  obtain ⟨values, hslots, harguments⟩ := hholds.gather h.wired hready
  have hrange : coder.inputStart + 0 + coder.inputCount ≤ folder.inputCount := by
    have hmemRange : coder.inputRange ∈ tile 0 (folder.coders.map (·.inputCount)) := by
      rw [← h.inputs]
      exact List.mem_map_of_mem hmem
    have := (Tiling.mem_tile _ _ _ hmemRange).2.2
    simpa [Coder.inputRange, inputCount] using this
  have htake := takeInputs_tableOf h.inputs_lt coder.inputCount hrange (by rw [← hinputs]; exact hslots)
  have hsizesLt : i < folder.unpackSizes.length := by
    rw [h.sizes, h.outputCount_eq]
    exact hi
  have hexpected := List.getElem?_eq_getElem hsizesLt
  generalize folder.unpackSizes[i] = expected at hexpected
  refine Metered.ensures_bind_ok (result_checkpoint _) ?_
  rw [hcoder]
  refine Metered.ensures_bind_ok rfl ?_
  rw [if_neg (not_not.mpr (h.single coder hmem)), hrep.inputs]
  refine Metered.ensures_bind_ok htake ?_
  rw [hstart, hexpected]
  refine Metered.ensures_bind_ok rfl ?_
  refine Metered.Ensures.bind (P := fun output => (folder.graph context).apply i values
    = some output) (Metered.ensures_iff.mpr ⟨?_, ?_⟩) fun output happly => ?_
  · intro output hdecode
    show ((folder.coders[i]?).bind fun coder => (folder.unpackSizes[coder.outputStart]?).bind
      fun expected => (folder.decode context coder expected values).result.toOption) = some output
    rw [hcoder, Option.bind_some, hstart, hexpected, Option.bind_some, decode, hstart, hdecode]
    rfl
  · intro error hdecode
    refine ⟨i, coder, expected, values, hcoder, hstart ▸ hexpected,
      (folder.graph context).arguments_mono hdone harguments, ?_⟩
    rw [decode, hstart]
    exact hdecode
  · obtain ⟨ports', hdeliver, hrep'⟩ := deliverOutput_represents h hi hready hholds hrep
      (congrArg (fun inputs => Dataflow.clear inputs t.slots) hinputs.symm)
    exact Metered.ensures_of_ok hdeliver ⟨_, hholds.fire h.wired hready harguments happly, hrep'⟩

/-- **The coder loop**, on what is left of a schedule. -/
theorem executeCoders_ensures (h : folder.Registered)
    (hbacked : folder.Backed context.streams context.archiveBytes) {order : List Nat}
    (hschedule : folder.Schedule order) (rest : List Nat) :
    ∀ {done : List Nat} {ports : Ports} {t : Dataflow.Tables Nat Nat Bytes},
      order = done ++ rest → (folder.graph context).Holds done t →
      Represents folder context done ports t →
      (executeCoders context.codecs folder context.password context.limits context.maximumOutput
          rest ports).Ensures
        (fun ports' => ∃ t', (folder.graph context).Holds order t' ∧
          Represents folder context order ports' t')
        (folder.CoderFails context) := by
  induction rest with
  | nil =>
      intro done ports t hsplit hholds hrep
      rw [List.append_nil] at hsplit
      subst hsplit
      exact Metered.ensures_of_ok rfl ⟨t, hholds, hrep⟩
  | cons i rest ih =>
      intro done ports t hsplit hholds hrep
      have hlength : order.length = folder.coders.length := by
        simpa using hschedule.perm.length_eq
      have hi : i < folder.coders.length :=
        List.mem_range.mp (hschedule.perm.subset (by simp [hsplit]))
      have hdone : done.length ≤ folder.coders.length := by
        rw [← hlength, hsplit]
        simp
      refine (executeCoder_ensures h hi hdone (ready_of_schedule h hbacked hschedule hsplit) hholds
        hrep).bind fun ports' ⟨t', hholds', hrep'⟩ => ?_
      exact ih (by rw [hsplit]; simp) hholds' hrep'

/-- When every coder has fired, the root is all that is left. -/
theorem takeRoot_eq_evaluate (h : folder.Registered) {order : List Nat}
    (hschedule : folder.Schedule order) {ports : Ports} {t : Dataflow.Tables Nat Nat Bytes}
    (hholds : (folder.graph context).Holds order t)
    (hrep : Represents folder context order ports t) :
    ∃ bytes, folder.evaluate context = some bytes ∧ (takeRoot folder ports).result = .ok bytes := by
  have hlength : order.length = folder.coders.length := by simpa using hschedule.perm.length_eq
  have hall : ∀ i < folder.coders.length, i ∈ order := fun i hi =>
    hschedule.perm.symm.subset (List.mem_range.mpr hi)
  have hroot := h.root_lt
  have hinputs : ¬ ports.inputs.any Option.isSome := by
    rw [hrep.inputs]
    simp only [tableOf, List.any_map, List.any_eq_true, List.mem_range, Function.comp_apply,
      not_exists, not_and, Bool.not_eq_true]
    intro p hp
    obtain ⟨i, coder, hcoder, hread⟩ := h.exists_reader hp
    have hi : i < folder.coders.length := (List.getElem?_eq_some_iff.mp hcoder).1
    rw [hholds.slot_empty (hall i hi) (Registered.mem_inputs.mpr ⟨coder, hcoder, hread⟩)]
    rfl
  -- the root is the one output that is not bound
  have hunbound : ∀ i < folder.coders.length,
      (folder.graph context).target i = none ↔ i = folder.rootOutputIndex := by
    intro i hi
    have hnodup := h.boundOutputs.symm.nodup List.nodup_range
    constructor
    · intro hnone
      have hmem : i ∈ folder.bindPairs.map (·.outputIndex) ++ [folder.rootOutputIndex] :=
        h.boundOutputs.symm.subset (List.mem_range.mpr (by rw [h.outputCount_eq]; exact hi))
      rcases List.mem_append.mp hmem with hbound | hmem
      · obtain ⟨pair, hpair, rfl⟩ := List.mem_map.mp hbound
        have hsome : (folder.graph context).target pair.outputIndex = some pair.inputIndex :=
          h.target_eq_some.mpr ⟨pair, hpair, rfl, rfl⟩
        exact absurd (hnone.symm.trans hsome) (by simp)
      · exact List.mem_singleton.mp hmem
    · rintro rfl
      cases htarget : (folder.graph context).target folder.rootOutputIndex with
      | none => rfl
      | some p =>
          obtain ⟨pair, hpair, -, houtput⟩ := h.target_eq_some.mp htarget
          exact absurd houtput ((List.nodup_append.mp hnodup).2.2 _
            (List.mem_map_of_mem hpair) _ (List.mem_singleton.mpr rfl))
  have houtput := hholds.output (hall _ hroot) ((hunbound _ hroot).mpr rfl)
  obtain ⟨bytes, hbytes⟩ := Option.isSome_iff_exists.mp (hholds.values _ (hall _ hroot))
  refine ⟨bytes, ?_, ?_⟩
  · rw [evaluate, h.coderOfOutput_eq hroot, ← hlength]
    exact hbytes
  · have htake := takePort_tableOf hroot (houtput.trans hbytes)
      "root output index is out of range during execution"
      "root output stream is unavailable after execution"
    rw [← hrep.outputs] at htake
    have hrest : ¬ (tableOf folder.coders.length
        (Function.update t.outputs folder.rootOutputIndex none)).any Option.isSome := by
      simp only [tableOf, List.any_map, List.any_eq_true, List.mem_range, Function.comp_apply,
        not_exists, not_and, Bool.not_eq_true]
      intro i hi
      by_cases heq : i = folder.rootOutputIndex
      · simp [heq]
      · have hbound := mt (hunbound i hi).mp heq
        rw [Function.update_of_ne heq, hholds.outputs i, if_neg (fun hand => hbound hand.2)]
        rfl
    unfold takeRoot
    rw [if_neg hinputs, Metered.result_bind_ok htake]
    exact refuseFormat_eq_ok.mpr ⟨hrest, rfl⟩

/-- Once every coder has fired, none of them can fail. -/
theorem not_coderFails {order : List Nat} (hschedule : folder.Schedule order) {t : Dataflow.Tables Nat Nat Bytes}
    (hholds : (folder.graph context).Holds order t) (error : Error) :
    ¬ folder.CoderFails context error := by
  rintro ⟨i, coder, expected, inputs, hcoder, hexpected, harguments, hdecode⟩
  have hi : i < folder.coders.length := (List.getElem?_eq_some_iff.mp hcoder).1
  have hlength : order.length = folder.coders.length := by simpa using hschedule.perm.length_eq
  obtain ⟨v, hv⟩ := Option.isSome_iff_exists.mp
    (hholds.values i (hschedule.perm.symm.subset (List.mem_range.mpr hi)))
  have hsucc := (folder.graph context).evaluate_succ_mono _ i v hv
  have happly : (folder.graph context).apply i inputs = none := by
    show ((folder.coders[i]?).bind fun coder => (folder.unpackSizes[coder.outputStart]?).bind
      fun expected => (folder.decode context coder expected inputs).result.toOption) = none
    rw [hcoder, Option.bind_some, hexpected, Option.bind_some, hdecode]
    rfl
  rw [hlength, Dataflow.evaluate_succ, harguments, Option.bind_some, happly] at hsucc
  exact absurd hsucc (by simp)

/-! ### The whole function -/

/-- A folder is admitted when its sizes are within the limits and its coders registered. -/
theorem admitFolder_ensures (control : ParseControl) (hwell : folder.WellFormed) :
    (admitFolder folder context.limits context.maximumOutput).Ensures
      (fun _ => folder.Registered) (folder.Failure context control) := by
  have hrootLt : folder.rootOutputIndex < folder.unpackSizes.length := by
    rw [hwell.sizes]
    exact List.mem_range.mp (hwell.boundOutputs.subset
      (List.mem_append_right _ (List.mem_singleton.mpr rfl)))
  have hroot := List.getElem?_eq_getElem hrootLt
  generalize folder.unpackSizes[folder.rootOutputIndex] = rootSize at hroot
  have hcoders : (forEach folder.coders fun coder => do
      validateCoderRegistration coder
      checkpoint 1).Ensures (fun _ => folder.Registered) (folder.Failure context control) := by
    refine (forEach_ensures (P := fun coder => coder.outputCount = 1) fun coder hmem => ?_).mono
      (fun _ hsingle => ⟨hwell, hsingle⟩) fun _ he => he
    refine Metered.Ensures.bind (P := fun _ => coder.outputCount = 1)
      (Metered.ensures_iff.mpr ⟨fun _ hok => ?_, fun error herror => .registration hmem herror⟩)
      fun _ hsingle => Metered.ensures_of_ok rfl hsingle
    exact not_not.mp (refuse_eq_ok.mp hok).1
  refine Metered.Ensures.bind (P := fun _ => True) ?_ fun _ _ => ?_
  · by_cases hdictionary : folder.dictionaryBytes > context.limits.maxDictionaryBytes
    · exact Metered.ensures_of_error (by rw [checkLimit, if_pos hdictionary]; rfl)
        (.dictionary hdictionary)
    · exact Metered.ensures_of_ok (checkLimit_of_le (Nat.not_lt.mp hdictionary) _) trivial
  · rw [hroot]
    refine Metered.ensures_bind_ok rfl (Metered.Ensures.bind (P := fun _ => True) ?_ fun _ _ =>
      hcoders)
    cases rootSize with
    | none => exact Metered.ensures_of_ok rfl trivial
    | some size =>
        by_cases hsize : size > context.maximumOutput
        · exact Metered.ensures_of_error (by rw [checkRootSize, checkLimit, if_pos hsize]; rfl)
            (.output hroot hsize)
        · exact Metered.ensures_of_ok (checkLimit_of_le (Nat.not_lt.mp hsize) _) trivial

theorem result_crcMismatch (crc : Option UInt32) (bytes : Bytes) :
    (crcMismatch crc bytes).result = .ok (crc.any (crc32 bytes ≠ ·)) := by
  cases crc with
  | none => rfl
  | some expected =>
      rw [crcMismatch, Metered.result_map, result_checksum]
      rfl

/-- What `decode_folder` makes of the bytes at the root. -/
def outcome (folder : Folder) (bytes : Bytes) : DecodedFolder :=
  ⟨bytes, folder.crc.any (crc32 bytes ≠ ·), folder.coders.any (·.methodId == methodAes)⟩

/-- **Executing a validated folder**: its value, or a failure. -/
theorem decodeFolder_ensures (control : ParseControl) {index : Nat}
    (hfolder : context.streams.folders[index]? = some folder) (hwell : folder.WellFormed)
    (hschedule : folder.Schedule folder.topologicalCoderOrder)
    (hbacked : folder.Backed context.streams context.archiveBytes) :
    (context.decodeFolder index).Ensures
      (fun decoded => ∃ bytes, folder.evaluate context = some bytes ∧
        decoded = outcome folder bytes)
      (folder.Failure context control) := by
  unfold Context.decodeFolder decodeFolder
  rw [hfolder]
  refine Metered.ensures_bind_ok rfl ?_
  refine (admitFolder_ensures control hwell).bind fun _ h => ?_
  refine (loadPorts_ensures control h hbacked).bind fun ports ⟨t, hholds, hrep⟩ => ?_
  refine ((executeCoders_ensures h hbacked hschedule _ rfl hholds hrep).mono (fun _ hP => hP)
    fun error he => .coder he).bind fun ports' ⟨t', hholds', hrep'⟩ => ?_
  obtain ⟨bytes, hevaluate, hroot⟩ := takeRoot_eq_evaluate h hschedule hholds' hrep'
  refine Metered.ensures_bind_ok hroot (Metered.ensures_bind_ok (result_crcMismatch _ _) ?_)
  exact Metered.ensures_of_ok rfl ⟨bytes, hevaluate, rfl⟩

/-- When `decode_folder` succeeds; the order of the coders has no part in it. -/
theorem decodeFolder_eq_ok {index : Nat}
    (hfolder : context.streams.folders[index]? = some folder) (hwell : folder.WellFormed)
    (hschedule : folder.Schedule folder.topologicalCoderOrder)
    (hbacked : folder.Backed context.streams context.archiveBytes) {decoded : DecodedFolder} :
    (context.decodeFolder index).result = .ok decoded ↔
      (admitFolder folder context.limits context.maximumOutput).result = .ok () ∧
        (∃ ports, (loadPorts context.archiveBytes context.streams folder).result = .ok ports) ∧
        (∀ error, ¬ folder.CoderFails context error) ∧
        ∃ bytes, folder.evaluate context = some bytes ∧ decoded = outcome folder bytes := by
  constructor
  · intro hok
    have hvalue := (decodeFolder_ensures (.uncancelled .unlimited) hfolder hwell hschedule
      hbacked).ok hok
    simp only [Context.decodeFolder, decodeFolder, Metered.bind_eq_ok, orFormat_eq_ok] at hok
    obtain ⟨_, hsame, _, hentry, ports, hports, ports', hrun, -⟩ := hok
    obtain rfl := Option.some.inj (hfolder.symm.trans hsame)
    have h := (admitFolder_ensures (.uncancelled .unlimited) hwell).ok hentry
    obtain ⟨t, hholds, hrep⟩ := (loadPorts_ensures (.uncancelled .unlimited) h hbacked).ok hports
    obtain ⟨t', hholds', -⟩ :=
      (executeCoders_ensures h hbacked hschedule _ rfl hholds hrep).ok hrun
    exact ⟨hentry, ⟨ports, hports⟩, not_coderFails hschedule hholds', hvalue⟩
  · rintro ⟨hentry, ⟨ports, hports⟩, hnever, bytes, hevaluate, rfl⟩
    have h := (admitFolder_ensures (.uncancelled .unlimited) hwell).ok hentry
    obtain ⟨t, hholds, hrep⟩ := (loadPorts_ensures (.uncancelled .unlimited) h hbacked).ok hports
    obtain ⟨ports', hrun, t', hholds', hrep'⟩ :=
      (executeCoders_ensures h hbacked hschedule _ rfl hholds hrep).exists_ok hnever
    obtain ⟨bytes', hevaluate', hroot⟩ := takeRoot_eq_evaluate h hschedule hholds' hrep'
    obtain rfl := Option.some.inj (hevaluate.symm.trans hevaluate')
    unfold Context.decodeFolder decodeFolder
    rw [hfolder, Metered.result_bind_ok rfl, Metered.result_bind_ok hentry,
      Metered.result_bind_ok hports, Metered.result_bind_ok hrun, Metered.result_bind_ok hroot,
      Metered.result_bind_ok (result_crcMismatch _ _)]
    rfl

theorem decodeCoder_eq_ok {codecs : Codecs} {coder : Coder} {inputs : List Bytes}
    {expected : Option Nat} {maximum : Nat} {limits : Limits} {password : Option Password} {output : Bytes}
    (h : (decodeCoder codecs coder inputs expected maximum limits password).result
      = .ok output) :
    output.length ≤ maximum ∧ ∀ size, expected = some size → output.length = size := by
  simp only [decodeCoder, refuse_eq_ok, Metered.bind_eq_ok, checkLimit_eq_ok,
    refuseFormat_eq_ok] at h
  obtain ⟨-, output', -, _, hlimit, hsize, h⟩ := h
  obtain rfl := Except.ok.inj h
  refine ⟨hlimit, fun size heq => ?_⟩
  subst heq
  by_contra hne
  exact hsize (by simpa using Ne.symm hne)

/-- The output of a folder is within the maximum, and of the declared size if there is one. -/
theorem decodeFolder_size {index : Nat}
    (hfolder : context.streams.folders[index]? = some folder) (hwell : folder.WellFormed)
    (hschedule : folder.Schedule folder.topologicalCoderOrder)
    (hbacked : folder.Backed context.streams context.archiveBytes) {decoded : DecodedFolder}
    (h : (context.decodeFolder index).result = .ok decoded) :
    decoded.bytes.length ≤ context.maximumOutput ∧
      ∀ size, folder.unpackSizes[folder.rootOutputIndex]? = some (some size) →
        decoded.bytes.length = size := by
  obtain ⟨hentry, -, -, bytes, hevaluate, rfl⟩ :=
    (decodeFolder_eq_ok hfolder hwell hschedule hbacked).mp h
  have hregistered := (admitFolder_ensures (.uncancelled .unlimited) hwell).ok hentry
  have hroot := hregistered.root_lt
  -- the last step of the evaluation is the coder at the root
  obtain ⟨fuel, hfuel⟩ : ∃ fuel, folder.coders.length = fuel + 1 :=
    Nat.exists_eq_succ_of_ne_zero (by omega)
  rw [Folder.evaluate, hregistered.coderOfOutput_eq hroot] at hevaluate
  change (folder.graph context).evaluate folder.coders.length _ = some bytes at hevaluate
  rw [hfuel, Dataflow.evaluate_succ, Option.bind_eq_some_iff] at hevaluate
  obtain ⟨inputs, -, happly⟩ := hevaluate
  simp only [Folder.graph, Option.bind_eq_bind, Option.bind_eq_some_iff] at happly
  obtain ⟨coder, hcoder, expected, hexpected, hdecode⟩ := happly
  have hstart := hregistered.outputStart_eq hcoder
  cases hresult : (folder.decode context coder expected inputs).result with
  | error e => simp [hresult, Except.toOption] at hdecode
  | ok output =>
      obtain rfl : output = bytes := by simpa [hresult, Except.toOption] using hdecode
      obtain ⟨hlimit, hsize⟩ := decodeCoder_eq_ok hresult
      rw [coderMaximum, if_pos hstart] at hlimit
      rw [hstart] at hexpected
      exact ⟨hlimit, fun size heq => hsize size (Option.some.inj (hexpected.symm.trans heq))⟩

/-! ### Other orders -/

/-- Loading the ports does not look at the order of the coders. -/
theorem loadPackedInputs_reschedule (index : Nat) (order : List Nat) (rest : List Nat) :
    ∀ (ordinal : Nat) (ports : List (Option Bytes)),
      loadPackedInputs context.archiveBytes (context.reschedule index order).streams
          (folder.reschedule order) ordinal rest ports
        = loadPackedInputs context.archiveBytes context.streams folder ordinal rest ports := by
  induction rest with
  | nil => intro ordinal ports; rfl
  | cons input rest ih =>
      intro ordinal ports
      simp only [loadPackedInputs, ih]
      rfl

theorem loadPorts_reschedule (index : Nat) (order : List Nat) :
    loadPorts context.archiveBytes (context.reschedule index order).streams
        (folder.reschedule order)
      = loadPorts context.archiveBytes context.streams folder := by
  unfold loadPorts
  simp only [loadPackedInputs_reschedule]
  rfl

/-- A schedule may be replaced by another: the run succeeds as before, with the same outcome. -/
theorem decodeFolder_reschedule {index : Nat}
    (hfolder : context.streams.folders[index]? = some folder) (hwell : folder.WellFormed)
    (hschedule : folder.Schedule folder.topologicalCoderOrder)
    (hbacked : folder.Backed context.streams context.archiveBytes) {order : List Nat}
    (horder : folder.Schedule order) (decoded : DecodedFolder) :
    ((context.reschedule index order).decodeFolder index).result = .ok decoded ↔
      (context.decodeFolder index).result = .ok decoded := by
  have hfolder' : (context.reschedule index order).streams.folders[index]?
      = some (folder.reschedule order) := by
    show (context.streams.folders.modify index _)[index]? = _
    rw [List.getElem?_modify_eq, hfolder]
    rfl
  have hwell' : (folder.reschedule order).WellFormed := ⟨hwell.inputs, hwell.outputs,
    hwell.inputs_lt, hwell.outputs_lt, hwell.boundInputs, hwell.boundOutputs, hwell.sizes⟩
  have horder' : (folder.reschedule order).Schedule (folder.reschedule order).topologicalCoderOrder :=
    ⟨horder.perm, horder.respects⟩
  rw [decodeFolder_eq_ok hfolder hwell hschedule hbacked,
    decodeFolder_eq_ok hfolder' hwell' horder' hbacked]
  show _ ∧ (∃ ports, (loadPorts context.archiveBytes _ _).result = .ok ports) ∧ _ ↔ _
  rw [loadPorts_reschedule]
  rfl

/--
**The folder executor computes the coder graph.**

For a folder of validated streams and any decoders: a run that returns, returns the
value of the graph at its root; a run that fails, fails in one of the ways of
`Folder.Failure`, none of which is an error of the port tables; and any other schedule
of the coders succeeds when this one does, with the same outcome.
-/
theorem decodeFolder_evaluates {raw : RawStreamsInfo} {envelope : HeaderEnvelope}
    {limits : Limits} {ranges ranges' : List (Nat × Nat)} {start stop : ParseControl}
    (context : Context)
    (hvalid : (Validate.validateStreams raw envelope context.archiveBytes limits ranges).run start
      = (.ok (context.streams, ranges'), stop))
    {index : Nat} {folder : Folder} (hfolder : context.streams.folders[index]? = some folder) :
    (∀ control decoded after,
        (context.decodeFolder index).run control = (.ok decoded, after) →
        folder.evaluate context = some decoded.bytes) ∧
      (∀ control error after,
        (context.decodeFolder index).run control = (.error error, after) →
        folder.Failure context control error) ∧
      ∀ order, folder.Schedule order → ∀ decoded,
        ((context.reschedule index order).decodeFolder index).result = .ok decoded ↔
          (context.decodeFolder index).result = .ok decoded := by
  have hresult := (Metered.result_of_run_ok hvalid).1
  have hmem : folder ∈ context.streams.folders := List.mem_of_getElem? hfolder
  obtain ⟨hwell, hschedule⟩ := Validate.validateStreams_wellFormed hresult folder hmem
  have hbacked := Validate.validateStreams_backed hresult folder hmem
  refine ⟨?_, ?_, ?_⟩
  · intro control decoded after hrun
    obtain ⟨bytes, hevaluate, rfl⟩ := (decodeFolder_ensures control hfolder hwell hschedule
      hbacked).ok (Metered.result_of_run_ok hrun).1
    exact hevaluate
  · intro control error after hrun
    rcases (context.decodeFolder index).run_cases control with hpaid | ⟨e, after', hstop, hint⟩
    · have herror : (context.decodeFolder index).result = .error error :=
        (congrArg Prod.fst (hpaid.symm.trans hrun))
      exact (decodeFolder_ensures control hfolder hwell hschedule hbacked).error herror
    · have heq : e = error := Except.error.inj (congrArg Prod.fst (hstop.symm.trans hrun))
      exact .interrupted (heq ▸ hint)
  · intro order horder decoded
    exact decodeFolder_reschedule hfolder hwell hschedule hbacked horder decoded

/-- Decoders that support nothing. -/
def noCodecs : Codecs where
  lzma _ _ _ _ := fail .passwordRequired
  lzma2 _ _ _ _ := fail .passwordRequired
  ppmd _ _ _ _ _ := fail .passwordRequired
  filter _ _ _ := fail .passwordRequired
  bcj2 _ _ _ _ := fail .passwordRequired
  deflate _ _ _ _ := fail .passwordRequired
  deflate64 _ _ _ _ := fail .passwordRequired
  bzip2 _ _ _ _ := fail .passwordRequired
  brotli _ _ _ _ := fail .passwordRequired
  lz4 _ _ _ _ := fail .passwordRequired
  zstd _ _ _ _ := fail .passwordRequired
  aes _ _ _ _ _ _ := fail .passwordRequired

/-- Two copying coders, the first fed by the second. -/
def copyTwice : RawStreamsInfo :=
  ⟨some ⟨0, 1, some [2], none⟩,
    some ⟨[⟨[⟨[0], 1, 1, []⟩, ⟨[0], 1, 1, []⟩], 2, 2, [⟨0, 1⟩], 1, none, [2, 2]⟩], none⟩, none⟩

def copyTwiceFolder : Folder :=
  ⟨[⟨[0], 0, 1, 0, 1, [], none⟩, ⟨[0], 1, 1, 1, 1, [], none⟩], [⟨0, 1⟩], [1], [some 2, some 2], 0,
    [1, 0], none, [⟨some 2, none⟩], 0, 0⟩

def copyTwiceContext : Context :=
  ⟨noCodecs, List.replicate 32 0 ++ [7, 9], ⟨0, [⟨32, some 2, none⟩], [copyTwiceFolder], 1⟩, none,
    {}, 2⟩

/-- Two bytes, copied twice; and copied so in every order that respects the graph. -/
theorem decodeFolder_evaluates_copyTwice :
    copyTwiceFolder.evaluate copyTwiceContext = some [7, 9] ∧
      ∀ order, copyTwiceFolder.Schedule order → ∀ decoded,
        ((copyTwiceContext.reschedule 0 order).decodeFolder 0).result = .ok decoded ↔
          (copyTwiceContext.decodeFolder 0).result = .ok decoded :=
  have hvalid : (Validate.validateStreams copyTwice ⟨0, ⟨0, 4⟩, 34, 0, 0, .header⟩
        copyTwiceContext.archiveBytes {} []).run (.uncancelled .unlimited)
      = (.ok (copyTwiceContext.streams, [(32, 34)]), _) := rfl
  have hrun : (copyTwiceContext.decodeFolder 0).run (.uncancelled .unlimited)
      = (.ok ⟨[7, 9], false, false⟩, _) := rfl
  have hall := decodeFolder_evaluates copyTwiceContext hvalid rfl
  ⟨hall.1 _ _ _ hrun, hall.2.2⟩

end Execute

end Un7z
