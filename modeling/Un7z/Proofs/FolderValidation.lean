/-
What validation guarantees of a folder.

`validate_folder_graph` marks ports in tables of booleans and runs Kahn's algorithm on
tables of owners.  Read off what the tables say, its checks come to this: the bound and
the packed inputs are the inputs, the bound outputs and the root are the outputs, and
the order it returns is a schedule.  `validateStreams_wellFormed` carries that through
the loops of `validate_streams` to the folders of the model.
-/
import Un7z.FolderGraph
import Un7z.Lib.Topological
import Un7z.Proofs.PackStreams

namespace Un7z

open Tiling (tile points)
open Topological (Respects)

namespace Graph

/-! ### Marked ports -/

/-- Marking `indices`, none of them marked before, turns `used` into `used'`. -/
structure Marked (used : List Bool) (indices : List Nat) (used' : List Bool) : Prop where
  nodup : indices.Nodup
  fresh : ∀ i ∈ indices, used[i]? = some false
  after : ∀ i, used'[i]? = if i ∈ indices then some true else used[i]?

theorem marked_nil (used : List Bool) : Marked used [] used := ⟨List.nodup_nil, by simp, by simp⟩

theorem Marked.cons {used used' : List Bool} {index : Nat} {indices : List Nat}
    (hfresh : used[index]? = some false) (h : Marked (used.set index true) indices used') :
    Marked used (index :: indices) used' := by
  have hset : ∀ i, (used.set index true)[i]? = if i = index then some true else used[i]? := by
    intro i
    have hlt : index < used.length := (List.getElem?_eq_some_iff.mp hfresh).1
    rw [List.getElem?_set]
    by_cases hi : index = i
    · simp [hi ▸ hlt, hi]
    · simp [hi, Ne.symm hi]
  have hnot : index ∉ indices := by
    intro hmem
    have := h.fresh index hmem
    simp [hset] at this
  refine ⟨List.nodup_cons.mpr ⟨hnot, h.nodup⟩, ?_, ?_⟩
  · intro i hi
    rcases List.mem_cons.mp hi with rfl | hi
    · exact hfresh
    · have hne : i ≠ index := fun heq => hnot (heq ▸ hi)
      simpa [hset, hne] using h.fresh i hi
  · intro i
    rw [h.after i, hset]
    by_cases hi : i ∈ indices <;> by_cases heq : i = index <;> simp [hi, heq]

theorem markPort_eq_ok {used used' : List Bool} {index : Nat} {range duplicate : String} :
    (markPort used index range duplicate).result = .ok used' ↔
      used[index]? = some false ∧ used' = used.set index true := by
  simp only [markPort, Metered.bind_eq_ok, orFormat_eq_ok, refuseFormat_eq_ok,
    Metered.result_pure, Except.ok.injEq, Bool.not_eq_true]
  constructor
  · rintro ⟨_, hused, rfl, rfl⟩
    exact ⟨hused, rfl⟩
  · rintro ⟨hused, rfl⟩
    exact ⟨false, hused, rfl, rfl⟩

/-- A pair keeps its two indices. -/
def ofRaw (raw : RawBindPair) : BindPair := ⟨raw.input, raw.output⟩

theorem validateBindPairs_eq_ok (raws : List RawBindPair) :
    ∀ {inputUsed outputUsed inputUsed' outputUsed' : List Bool} {pairs : List BindPair},
      (validateBindPairs raws inputUsed outputUsed).result
        = .ok (pairs, inputUsed', outputUsed') →
      pairs = raws.map ofRaw ∧ Marked inputUsed (pairs.map (·.inputIndex)) inputUsed' ∧
        Marked outputUsed (pairs.map (·.outputIndex)) outputUsed' := by
  induction raws with
  | nil =>
      intro inputUsed outputUsed inputUsed' outputUsed' pairs h
      obtain ⟨rfl, rfl, rfl⟩ :
          pairs = [] ∧ inputUsed' = inputUsed ∧ outputUsed' = outputUsed := by
        simpa [validateBindPairs, eq_comm] using h
      exact ⟨rfl, marked_nil _, marked_nil _⟩
  | cons raw raws ih =>
      intro inputUsed outputUsed inputUsed' outputUsed' pairs h
      simp only [validateBindPairs, validateBindPair, Metered.bind_eq_ok, markPort_eq_ok,
        Prod.exists, Metered.result_pure, Except.ok.injEq, Prod.mk.injEq] at h
      obtain ⟨_, _, _, ⟨_, ⟨hinput, rfl⟩, _, ⟨houtput, rfl⟩, rfl, rfl, rfl⟩, rest, _, _, hrest,
        rfl, rfl, rfl⟩ := h
      obtain ⟨rfl, hinputs, houtputs⟩ := ih hrest
      exact ⟨rfl, hinputs.cons hinput, houtputs.cons houtput⟩

theorem markPacked_eq_ok {inputUsed : List Bool} (indices : List Nat) :
    ∀ {packedUsed packedUsed' : List Bool},
      (markPacked inputUsed indices packedUsed).result = .ok packedUsed' →
      Marked packedUsed indices packedUsed' ∧ ∀ i ∈ indices, inputUsed[i]? = some false := by
  induction indices with
  | nil =>
      intro packedUsed packedUsed' h
      obtain rfl : packedUsed = packedUsed' := by simpa [markPacked] using h
      exact ⟨marked_nil _, by simp⟩
  | cons index indices ih =>
      intro packedUsed packedUsed' h
      simp only [markPacked, Metered.bind_eq_ok, orFormat_eq_ok, refuseFormat_eq_ok,
        Bool.not_eq_true] at h
      obtain ⟨_, hpacked, rfl, _, hbound, rfl, hrest⟩ := h
      obtain ⟨hmarked, hfree⟩ := ih hrest
      exact ⟨hmarked.cons hpacked, List.forall_mem_cons.mpr ⟨hbound, hfree⟩⟩

/-- The port `findRoot` returns is the only one that is not bound. -/
theorem findRoot_eq_ok (used : List Bool) :
    ∀ {index root : Nat} {found : Option Nat},
      (findRoot index used found).result = .ok (some root) →
      (found = some root ∧ ∀ b ∈ used, b = true) ∨
        found = none ∧ ∃ k, root = index + k ∧ ∀ i, used[i]? = some false ↔ i = k := by
  induction used with
  | nil =>
      intro index root found h
      exact Or.inl ⟨by simpa [findRoot] using h, by simp⟩
  | cons bound used ih =>
      intro index root found h
      rw [findRoot] at h
      cases bound with
      | true =>
          rcases ih h with ⟨hfound, hall⟩ | ⟨hfound, k, hroot, honly⟩
          · exact Or.inl ⟨hfound, by simpa using hall⟩
          · refine Or.inr ⟨hfound, k + 1, by omega, fun i => ?_⟩
            cases i with
            | zero => simp
            | succ i => simpa using honly i
      | false =>
          simp only [Bool.not_false, if_true, refuseFormat_eq_ok, Bool.not_eq_true,
            Option.isSome_eq_false_iff, Option.isNone_iff_eq_none] at h
          obtain ⟨hfound, h⟩ := h
          rcases ih h with ⟨hsome, hall⟩ | ⟨hnone, -⟩
          · refine Or.inr ⟨hfound, 0, by simpa using hsome.symm, fun i => ?_⟩
            cases i with
            | zero => simp
            | succ i =>
                simp only [List.getElem?_cons_succ, Nat.add_eq_zero_iff, one_ne_zero, and_false,
                  iff_false]
                intro hi
                exact absurd (hall false (List.mem_of_getElem? hi)) (by simp)
          · exact absurd hnone (by simp)

@[simp] theorem getElem?_falseVector {count i : Nat} {b : Bool} :
    (falseVector count)[i]? = some b ↔ i < count ∧ b = false := by
  simp [falseVector, List.getElem?_replicate, eq_comm]

/-- Numbers below a bound, each of them once. -/
theorem perm_range {indices : List Nat} {count : Nat} (hnodup : indices.Nodup)
    (hmem : ∀ i, i ∈ indices ↔ i < count) : indices.Perm (List.range count) :=
  (List.perm_ext_iff_of_nodup hnodup List.nodup_range).mpr fun i => by
    rw [hmem, List.mem_range]

/-! ### Owners and edges -/

theorem collectOwners_eq_ok (coders : List RawCoder) :
    ∀ {first : Nat} {inputOwners outputOwners : List Nat},
      (collectOwners first coders).result = .ok (inputOwners, outputOwners) →
      inputOwners = Tiling.owners first (coders.map (·.inputStreams)) ∧
        outputOwners = Tiling.owners first (coders.map (·.outputStreams)) := by
  induction coders with
  | nil =>
      intro first inputOwners outputOwners h
      simpa [collectOwners, Tiling.owners, eq_comm] using h
  | cons coder coders ih =>
      intro first inputOwners outputOwners h
      simp only [collectOwners, Metered.bind_eq_ok, Prod.exists, Metered.result_pure,
        Except.ok.injEq, Prod.mk.injEq] at h
      obtain ⟨_, -, _, -, _, _, hrest, rfl, rfl⟩ := h
      obtain ⟨rfl, rfl⟩ := ih hrest
      exact ⟨rfl, rfl⟩

/-- A table of degrees as a function; a coder that is not there has degree zero. -/
def degreeOf (indegree : List Nat) (coder : Nat) : Nat := indegree.getD coder 0

theorem degreeOf_set {indegree : List Nat} {coder : Nat} (h : coder < indegree.length)
    (degree : Nat) :
    degreeOf (indegree.set coder degree) = Function.update (degreeOf indegree) coder degree := by
  funext j
  unfold degreeOf
  by_cases hj : j = coder
  · subst hj
    simp [List.getD_eq_getElem?_getD, List.getElem?_set_self h]
  · simp [List.getD_eq_getElem?_getD, List.getElem?_set_ne (Ne.symm hj),
      Function.update_of_ne hj]

theorem degreeOf_of_getElem? {indegree : List Nat} {coder degree : Nat}
    (h : indegree[coder]? = some degree) : degreeOf indegree coder = degree := by
  simp [degreeOf, List.getD_eq_getElem?_getD, h]

/-- The edges are the bind pairs, seen from the coders, and the degrees count them. -/
theorem collectEdges_eq_ok {inputOwners outputOwners : List Nat} (pairs : List RawBindPair) :
    ∀ {indegree indegree' : List Nat} {edges : List (Nat × Nat)},
      (collectEdges inputOwners outputOwners pairs indegree).result = .ok (edges, indegree') →
      (∀ pair ∈ pairs, ∃ e ∈ edges, outputOwners[pair.output]? = some e.1 ∧
          inputOwners[pair.input]? = some e.2) ∧
        indegree'.length = indegree.length ∧ (∀ e ∈ edges, e.2 < indegree.length) ∧
        ∀ j, degreeOf indegree' j = degreeOf indegree j + Topological.pending edges [] j := by
  induction pairs with
  | nil =>
      intro indegree indegree' edges h
      obtain ⟨rfl, rfl⟩ : edges = [] ∧ indegree' = indegree := by
        simpa [collectEdges, eq_comm] using h
      simp [Topological.pending]
  | cons pair pairs ih =>
      intro indegree indegree' edges h
      simp only [collectEdges, ownerForPort, Metered.bind_eq_ok, orFormat_eq_ok,
        checkedAdd_eq_some, Prod.exists, Metered.result_pure, Except.ok.injEq,
        Prod.mk.injEq] at h
      obtain ⟨source, hsource, target, htarget, degree, hdegree, _, ⟨-, rfl⟩, rest, _, hrest,
        rfl, rfl⟩ := h
      obtain ⟨hpairs, hlength, hlt, hdegrees⟩ := ih hrest
      have htlt : target < indegree.length := (List.getElem?_eq_some_iff.mp hdegree).1
      rw [List.length_set] at hlength hlt
      refine ⟨?_, hlength, ?_, ?_⟩
      · intro pair' hmem
        rcases List.mem_cons.mp hmem with rfl | hmem
        · exact ⟨(source, target), List.mem_cons_self, hsource, htarget⟩
        · obtain ⟨e, he, hout, hin⟩ := hpairs pair' hmem
          exact ⟨e, List.mem_cons_of_mem _ he, hout, hin⟩
      · exact List.forall_mem_cons.mpr ⟨htlt, hlt⟩
      · intro j
        rw [hdegrees j, degreeOf_set htlt]
        unfold Topological.pending
        rw [List.countP_cons]
        by_cases hj : j = target
        · subst hj
          simp [degreeOf_of_getElem? hdegree]
          omega
        · simp [Function.update_of_ne hj, Ne.symm hj]

/-! ### The order -/

/-- The pass over the edges is the abstract one. -/
theorem relaxEdges_eq_ok {coder : Nat} (edges : List (Nat × Nat)) :
    ∀ {indegree indegree' freed : List Nat},
      (relaxEdges coder edges indegree).result = .ok (freed, indegree') →
      Topological.relax coder edges (degreeOf indegree) = (freed, degreeOf indegree') := by
  induction edges with
  | nil =>
      intro indegree indegree' freed h
      obtain ⟨rfl, rfl⟩ : freed = [] ∧ indegree' = indegree := by
        simpa [relaxEdges, eq_comm] using h
      rfl
  | cons e edges ih =>
      obtain ⟨source, target⟩ := e
      intro indegree indegree' freed h
      rw [relaxEdges, Metered.result_bind_ok (result_checkpoint _)] at h
      rw [Topological.relax]
      by_cases hs : source = coder
      · rw [if_neg (not_not.mpr hs)] at h
        simp only [Metered.bind_eq_ok, orFormat_eq_ok, checkedSub_eq_some, Prod.exists,
          Metered.result_pure, Except.ok.injEq, Prod.mk.injEq] at h
        obtain ⟨degree, hdegree, _, ⟨-, rfl⟩, rest, _, hrest, rfl, rfl⟩ := h
        have htlt : target < indegree.length := (List.getElem?_eq_some_iff.mp hdegree).1
        have hrelax := ih hrest
        rw [degreeOf_set htlt] at hrelax
        simp only [if_pos hs, degreeOf_of_getElem? hdegree, hrelax]
      · rw [if_pos hs] at h
        rw [if_neg hs]
        exact ih h

/-- The queue loop is the abstract one. -/
theorem kahn_eq_ok {edges : List (Nat × Nat)} (fuel : Nat) :
    ∀ {queue indegree order rest : List Nat},
      (kahn edges fuel queue indegree).result = .ok (order, rest) →
      Topological.kahn edges fuel queue (degreeOf indegree) = (order, rest) := by
  induction fuel with
  | zero =>
      intro queue indegree order rest h
      cases queue with
      | nil => simpa [kahn, Topological.kahn] using h
      | cons coder queue => simpa [kahn, Topological.kahn] using h
  | succ fuel ih =>
      intro queue indegree order rest h
      cases queue with
      | nil => simpa [kahn, Topological.kahn] using h
      | cons coder queue =>
          simp only [kahn, Metered.bind_eq_ok, Prod.exists, Metered.result_pure,
            Except.ok.injEq, Prod.mk.injEq] at h
          obtain ⟨_, -, freed, indegree', hrelax, order', _, hkahn, rfl, rfl⟩ := h
          simp only [Topological.kahn, relaxEdges_eq_ok edges hrelax, ih hkahn]

theorem initialReady_eq (indegree : List Nat) :
    initialReady indegree
      = (List.range indegree.length).filter fun i => degreeOf indegree i = 0 := by
  refine List.filter_congr fun i hi => ?_
  rw [List.mem_range] at hi
  simp [degreeOf, List.getD_eq_getElem?_getD, List.getElem?_eq_getElem hi]

/-- What the loop of `topological_order` starts from. -/
theorem progress_initialReady {inputOwners outputOwners : List Nat} {pairs : List RawBindPair}
    {count : Nat} {edges : List (Nat × Nat)} {indegree : List Nat}
    (h : (collectEdges inputOwners outputOwners pairs (List.replicate count 0)).result
      = .ok (edges, indegree)) :
    Topological.Progress edges (List.range count) [] (initialReady indegree)
      (degreeOf indegree) := by
  obtain ⟨-, hlength, -, hdegrees⟩ := collectEdges_eq_ok pairs h
  rw [List.length_replicate] at hlength
  rw [initialReady_eq, hlength]
  refine Topological.progress_nil List.nodup_range fun i => ?_
  have hzero : degreeOf (List.replicate count 0) i = 0 := by
    simp [degreeOf, List.getD_eq_getElem?_getD, List.getElem?_replicate]
    split <;> rfl
  rw [hdegrees i, hzero, Nat.zero_add]

/-- The queue is empty when the loop ends: the fuel never stops it. -/
theorem kahn_queue_empty {inputOwners outputOwners : List Nat} {pairs : List RawBindPair}
    {count : Nat} {edges : List (Nat × Nat)} {indegree order rest : List Nat}
    (hedges : (collectEdges inputOwners outputOwners pairs (List.replicate count 0)).result
      = .ok (edges, indegree))
    (hkahn : (kahn edges count (initialReady indegree) indegree).result = .ok (order, rest)) :
    rest = [] ∧ ∃ degree, Topological.Progress edges (List.range count) order [] degree := by
  obtain ⟨-, -, hlt, -⟩ := collectEdges_eq_ok pairs hedges
  obtain ⟨hleft, degree, hprogress⟩ := Topological.kahn_progress
    (fun e he => List.mem_range.mpr (by simpa using hlt e he)) count [] _ _
    (progress_initialReady hedges) (by simp)
  rw [kahn_eq_ok count hkahn] at hleft hprogress
  exact ⟨hleft, degree, hprogress⟩

/-- **The order is a topological order** of the coders and the bind pairs between them. -/
theorem topologicalOrder_eq_ok {count : Nat} {inputOwners outputOwners order : List Nat}
    {pairs : List RawBindPair}
    (h : (topologicalOrder count inputOwners outputOwners pairs).result = .ok order) :
    ∃ edges, (∀ pair ∈ pairs, ∃ e ∈ edges, outputOwners[pair.output]? = some e.1 ∧
        inputOwners[pair.input]? = some e.2) ∧
      order.Perm (List.range count) ∧ Respects edges order := by
  simp only [topologicalOrder, Metered.bind_eq_ok, refuseFormat_eq_ok, Prod.exists,
    Metered.result_pure, Except.ok.injEq, not_not] at h
  obtain ⟨edges, indegree, hedges, _, rest, hkahn, hcount, rfl⟩ := h
  obtain ⟨-, degree, hprogress⟩ := kahn_queue_empty hedges hkahn
  exact ⟨edges, (collectEdges_eq_ok pairs hedges).1,
    hprogress.perm (by simpa using hcount), hprogress.respects⟩

/-! ### The whole graph -/

/-- What `validate_folder_graph` guarantees, port by port. -/
structure Partitioned (raw : RawFolder) (graph : ValidatedGraph) : Prop where
  inputCount : (raw.coders.map (·.inputStreams)).sum = raw.inputStreams
  outputCount : (raw.coders.map (·.outputStreams)).sum = raw.outputStreams
  inputs : (graph.bindPairs.map (·.inputIndex) ++ graph.packedInputIndices).Perm
    (List.range raw.inputStreams)
  outputs : (graph.bindPairs.map (·.outputIndex) ++ [graph.rootOutputIndex]).Perm
    (List.range raw.outputStreams)
  order : graph.topologicalCoderOrder.Perm (List.range raw.coders.length)
  /-- A bind pair from coder `i` to coder `j` puts `i` before `j`. -/
  respects : ∀ before j after, graph.topologicalCoderOrder = before ++ j :: after →
    ∀ pair ∈ graph.bindPairs, ∀ i,
      (Tiling.owners 0 (raw.coders.map (·.outputStreams)))[pair.outputIndex]? = some i →
      (Tiling.owners 0 (raw.coders.map (·.inputStreams)))[pair.inputIndex]? = some j → i ∈ before

theorem checkPartition_eq_ok {inputUsed packedUsed : List Bool} {u : Unit}
    (h : (checkPartition inputUsed packedUsed).result = .ok u) {i : Nat} {bound packed : Bool}
    (hbound : inputUsed[i]? = some bound) (hpacked : packedUsed[i]? = some packed) :
    bound ≠ packed := by
  simp only [checkPartition, refuseFormat_eq_ok, List.any_eq_true, not_exists, not_and] at h
  have hmem : (bound, packed) ∈ inputUsed.zip packedUsed :=
    List.mem_of_getElem? (i := i) (by simp [List.getElem?_zip_eq_some, hbound, hpacked])
  simpa using h.1 _ hmem

/-- **An accepted graph** is partitioned, and ordered. -/
theorem validateFolderGraph_eq_ok {raw : RawFolder} {graph : ValidatedGraph}
    (h : (validateFolderGraph raw).result = .ok graph) : Partitioned raw graph := by
  simp only [validateFolderGraph, Metered.bind_eq_ok, refuseFormat_eq_ok, orFormat_eq_ok,
    Prod.exists, Metered.result_pure, Except.ok.injEq, not_not, not_or] at h
  obtain ⟨_, -, _, -, inputOwners, outputOwners, howners, ⟨hinputs, houtputs⟩, pairs, inputUsed,
    outputUsed, hpairs, rootOutput, hroot, root, rfl, packed, -, -, packedUsed, hpacked, _,
    hpartition, order, horder, rfl⟩ := h
  obtain ⟨rfl, rfl⟩ := collectOwners_eq_ok raw.coders howners
  obtain ⟨rfl, hboundInputs, hboundOutputs⟩ := validateBindPairs_eq_ok raw.bindPairs hpairs
  obtain ⟨hpackedInputs, hfree⟩ := markPacked_eq_ok packed hpacked
  obtain ⟨edges, hedges, hperm, hrespects⟩ := topologicalOrder_eq_ok horder
  refine ⟨by simpa using hinputs, by simpa using houtputs, ?_, ?_, hperm, ?_⟩
  · refine perm_range ?_ fun i => ?_
    · rw [List.nodup_append]
      refine ⟨hboundInputs.nodup, hpackedInputs.nodup, ?_⟩
      rintro i hbound j hj rfl
      have := hfree i hj
      rw [hboundInputs.after i, if_pos hbound] at this
      exact absurd this (by simp)
    · rw [List.mem_append]
      refine ⟨?_, fun hi => ?_⟩
      · rintro (hi | hi)
        · exact (getElem?_falseVector.mp (hboundInputs.fresh i hi)).1
        · exact (getElem?_falseVector.mp (hpackedInputs.fresh i hi)).1
      · -- an input that is neither bound nor packed would be marked alike in both tables
        by_contra hnot
        obtain ⟨hnotBound, hnotPacked⟩ := not_or.mp hnot
        have hunbound : inputUsed[i]? = some false := by
          rw [hboundInputs.after i, if_neg hnotBound]
          exact getElem?_falseVector.mpr ⟨hi, rfl⟩
        have hunpacked : packedUsed[i]? = some false := by
          rw [hpackedInputs.after i, if_neg hnotPacked]
          exact getElem?_falseVector.mpr ⟨hi, rfl⟩
        exact checkPartition_eq_ok hpartition hunbound hunpacked rfl
  · obtain ⟨hnone, -⟩ | ⟨-, k, rfl, honly⟩ := findRoot_eq_ok outputUsed hroot
    · exact absurd hnone (by simp)
    · rw [Nat.zero_add]
      -- the root is the output whose mark is still clear
      have hclear : ∀ i, i = k ↔ i ∉ (raw.bindPairs.map ofRaw).map (·.outputIndex) ∧
          i < raw.outputStreams := by
        intro i
        rw [← honly i, hboundOutputs.after i]
        split <;> simp_all
      refine perm_range ?_ fun i => ?_
      · rw [List.nodup_append]
        refine ⟨hboundOutputs.nodup, List.nodup_singleton _, ?_⟩
        rintro i hi j hj rfl
        rw [List.mem_singleton] at hj
        exact ((hclear i).mp hj).1 hi
      · rw [List.mem_append, List.mem_singleton, hclear i]
        refine ⟨?_, fun hi => ?_⟩
        · rintro (hi | hi)
          · exact (getElem?_falseVector.mp (hboundOutputs.fresh i hi)).1
          · exact hi.2
        · by_cases hbound : i ∈ (raw.bindPairs.map ofRaw).map (·.outputIndex)
          · exact Or.inl hbound
          · exact Or.inr ⟨hbound, hi⟩
  · intro before j after hsplit pair hpair i houtput hinput
    obtain ⟨rawPair, hraw, rfl⟩ := List.mem_map.mp hpair
    obtain ⟨e, he, hsource, htarget⟩ := hedges rawPair hraw
    obtain rfl : i = e.1 := Option.some.inj (houtput.symm.trans hsource)
    obtain rfl : j = e.2 := Option.some.inj (hinput.symm.trans htarget)
    exact hrespects before _ after hsplit e he rfl

end Graph

namespace Validate

/-! ### Coders -/

/-- The coders of a folder number their ports through, from the totals on. -/
theorem validateCoders_eq_ok {limits : Limits} (raws : List RawCoder) :
    ∀ {totals totals' : CoderTotals} {coders : List Coder},
      (validateCoders limits raws totals).result = .ok (coders, totals') →
      coders.map (·.inputCount) = raws.map (·.inputStreams) ∧
        coders.map (·.outputCount) = raws.map (·.outputStreams) ∧
        coders.map Coder.inputRange = tile totals.inputStart (raws.map (·.inputStreams)) ∧
        coders.map Coder.outputRange = tile totals.outputStart (raws.map (·.outputStreams)) ∧
        totals'.inputStart = totals.inputStart + (raws.map (·.inputStreams)).sum ∧
        totals'.outputStart = totals.outputStart + (raws.map (·.outputStreams)).sum ∧
        (totals.inputStart < 2 ^ 64 → totals'.inputStart < 2 ^ 64) ∧
        (totals.outputStart < 2 ^ 64 → totals'.outputStart < 2 ^ 64) := by
  induction raws with
  | nil =>
      intro totals totals' coders h
      obtain ⟨rfl, rfl⟩ : coders = [] ∧ totals' = totals := by
        simpa [validateCoders, eq_comm] using h
      simp
  | cons raw raws ih =>
      intro totals totals' coders h
      simp only [validateCoders, validateCoder, Metered.bind_eq_ok, orFormat_eq_ok,
        checkedAdd_eq_some, Prod.exists, Metered.result_pure, Except.ok.injEq,
        Prod.mk.injEq] at h
      obtain ⟨coder, middle, ⟨_, -, _, -, _, -, _, -, _, -, _, ⟨hinput, rfl⟩, _, ⟨houtput, rfl⟩,
        rfl, rfl⟩, rest, _, hrest, rfl, rfl⟩ := h
      obtain ⟨hin, hout, hintile, houttile, hinend, houtend, hinlt, houtlt⟩ := ih hrest
      refine ⟨by simp [hin], by simp [hout], by simp [Coder.inputRange, hintile],
        by simp [Coder.outputRange, houttile], ?_, ?_, fun _ => hinlt hinput,
        fun _ => houtlt houtput⟩
      · rw [hinend, List.map_cons, List.sum_cons, Nat.add_assoc]
      · rw [houtend, List.map_cons, List.sum_cons, Nat.add_assoc]

/-- The folder a draft becomes, before it has its substreams. -/
def FolderDraft.folder (draft : FolderDraft) : Folder := finishFolder draft []

/-- A coder owns exactly the ports in its range. -/
theorem owners_of_mem {coders : List Coder} {range : Coder → Nat × Nat} {lengths : List Nat}
    (htile : coders.map range = tile 0 lengths) {i p : Nat} {coder : Coder}
    (hcoder : coders[i]? = some coder) (hp : p ∈ points (range coder)) :
    (Tiling.owners 0 lengths)[p]? = some i := by
  refine (Tiling.getElem?_owners lengths 0 0 p i).mpr ⟨i, range coder, by omega, ?_, by simpa using hp⟩
  rw [← htile, List.getElem?_map, hcoder]
  rfl

/-- **An accepted folder** is well formed, and its order is a schedule. -/
theorem validateFolder_wellFormed {raw : RawFolder} {crc : Option UInt32} {first : Nat}
    {limits : Limits} {draft : FolderDraft}
    (h : (validateFolder raw crc first limits).result = .ok draft) :
    draft.folder.WellFormed ∧ draft.folder.Schedule draft.topologicalCoderOrder := by
  simp only [validateFolder, Metered.bind_eq_ok, refuseFormat_eq_ok, Prod.exists,
    Metered.result_pure, Except.ok.injEq, not_or, not_not] at h
  obtain ⟨_, -, coders, totals, hcoders, ⟨hinputs, houtputs⟩, graph, hgraph, hsizes, _, -, rfl⟩ := h
  obtain ⟨hin, hout, hintile, houttile, hinend, houtend, hinlt, houtlt⟩ :=
    validateCoders_eq_ok raw.coders hcoders
  have hpartition := Graph.validateFolderGraph_eq_ok hgraph
  have hlength : coders.length = raw.coders.length := by
    simpa using congrArg List.length hin
  have hinCount : (coders.map (·.inputCount)).sum = raw.inputStreams := by
    rw [hin, hpartition.inputCount]
  have houtCount : (coders.map (·.outputCount)).sum = raw.outputStreams := by
    rw [hout, hpartition.outputCount]
  refine ⟨⟨?_, ?_, ?_, ?_, ?_, ?_, ?_⟩, ?_, ?_⟩
  · show coders.map Coder.inputRange = tile 0 (coders.map (·.inputCount))
    rw [hin, hintile]
  · show coders.map Coder.outputRange = tile 0 (coders.map (·.outputCount))
    rw [hout, houttile]
  · show (coders.map (·.inputCount)).sum < 2 ^ 64
    rw [hinCount, ← hinputs]
    exact hinlt (by decide)
  · show (coders.map (·.outputCount)).sum < 2 ^ 64
    rw [houtCount, ← houtputs]
    exact houtlt (by decide)
  · show List.Perm _ (List.range (coders.map (·.inputCount)).sum)
    rw [hinCount]
    exact hpartition.inputs
  · show List.Perm _ (List.range (coders.map (·.outputCount)).sum)
    rw [houtCount]
    exact hpartition.outputs
  · show (raw.unpackSizes.map optionalSize).length = (coders.map (·.outputCount)).sum
    rw [houtCount, List.length_map, hsizes]
  · show graph.topologicalCoderOrder.Perm (List.range coders.length)
    rw [hlength]
    exact hpartition.order
  · intro before j after hsplit i hfeeds
    obtain ⟨source, target, pair, hsource, htarget, hpair, houtput, hinput⟩ := hfeeds
    exact hpartition.respects before j after hsplit pair hpair i
      (owners_of_mem houttile hsource houtput) (owners_of_mem hintile htarget hinput)

/-! ### Streams -/

theorem validateFolders_wellFormed {crcs : Option (List (Option UInt32))} {limits : Limits}
    (raws : List RawFolder) :
    ∀ {index assigned assigned' : Nat} {drafts : List FolderDraft},
      (validateFolders crcs limits index raws assigned).result = .ok (drafts, assigned') →
      ∀ draft ∈ drafts,
        draft.folder.WellFormed ∧ draft.folder.Schedule draft.topologicalCoderOrder := by
  induction raws with
  | nil =>
      intro index assigned assigned' drafts h
      obtain ⟨rfl, -⟩ : drafts = [] ∧ assigned' = assigned := by
        simpa [validateFolders, eq_comm] using h
      simp
  | cons raw raws ih =>
      intro index assigned assigned' drafts h
      simp only [validateFolders, Metered.bind_eq_ok, Prod.exists, Metered.result_pure,
        Except.ok.injEq, Prod.mk.injEq] at h
      obtain ⟨_, -, draft, hdraft, _, -, rest, _, hrest, rfl, -⟩ := h
      exact List.forall_mem_cons.mpr ⟨validateFolder_wellFormed hdraft, ih hrest⟩

/-- **Every folder of accepted streams** is well formed, and its order is a schedule. -/
theorem validateStreams_wellFormed {raw : RawStreamsInfo} {envelope : HeaderEnvelope}
    {archiveBytes : Bytes} {limits : Limits} {ranges ranges' : List (Nat × Nat)}
    {streams : StreamsInfo}
    (h : (validateStreams raw envelope archiveBytes limits ranges).result
      = .ok (streams, ranges')) :
    ∀ folder ∈ streams.folders,
      folder.WellFormed ∧ folder.Schedule folder.topologicalCoderOrder := by
  unfold validateStreams at h
  split at h
  case h_1 pack unpack _ _ =>
    simp only [validatePackedStreams, Metered.bind_eq_ok, refuseFormat_eq_ok, Prod.exists,
      Metered.result_pure, Except.ok.injEq, Prod.mk.injEq] at h
    obtain ⟨_, _, _, -, -, _, -, drafts, _, hdrafts, -, -, folders, cursors, hfolders, -, -, rfl,
      -⟩ := h
    have hall := validateFolders_wellFormed _ hdrafts
    have hmap : folders.map (fun folder => { folder with substreams := [] })
        = drafts.map FolderDraft.folder :=
      assignSubstreams_map (fun _ _ => rfl) drafts hfolders
    intro folder hmem
    have hmem' : { folder with substreams := [] } ∈ drafts.map FolderDraft.folder := by
      rw [← hmap]
      exact List.mem_map_of_mem hmem
    obtain ⟨draft, hdraft, heq⟩ := List.mem_map.mp hmem'
    obtain ⟨hwell, hschedule⟩ := hall draft hdraft
    have horder : draft.topologicalCoderOrder = folder.topologicalCoderOrder :=
      congrArg Folder.topologicalCoderOrder heq
    rw [heq] at hwell hschedule
    rw [horder] at hschedule
    -- neither statement looks at the substreams
    exact ⟨⟨hwell.inputs, hwell.outputs, hwell.inputs_lt, hwell.outputs_lt, hwell.boundInputs,
      hwell.boundOutputs, hwell.sizes⟩, ⟨hschedule.perm, hschedule.respects⟩⟩
  case h_2 =>
    simp only [refuseFormat_eq_ok, Metered.result_pure, Except.ok.injEq, Prod.mk.injEq] at h
    obtain ⟨-, rfl, -⟩ := h
    intro folder hmem
    exact absurd hmem List.not_mem_nil
  case h_3 => exact absurd h (by simp)

/-- **Every folder of accepted streams** finds its pack streams inside the archive. -/
theorem validateStreams_backed {raw : RawStreamsInfo} {envelope : HeaderEnvelope}
    {archiveBytes : Bytes} {limits : Limits} {ranges ranges' : List (Nat × Nat)}
    {streams : StreamsInfo}
    (h : (validateStreams raw envelope archiveBytes limits ranges).result
      = .ok (streams, ranges')) :
    ∀ folder ∈ streams.folders, folder.Backed streams archiveBytes := by
  intro folder hmem k hk
  obtain ⟨span, howned, -⟩ := validateStreams_owned h
  obtain ⟨f, hf, rfl⟩ := List.mem_iff_getElem.mp hmem
  let input : streams.PackedInput := ⟨⟨f, hf⟩, ⟨k, hk⟩⟩
  have hlt : streams.folders[f].firstPackStream + k < streams.packStreams.length :=
    howned.owners.mapsTo (Set.mem_univ input)
  have hstream := howned.inside _ (List.getElem_mem hlt)
  obtain ⟨hsize, -, hinside, hsum⟩ := hstream
  obtain ⟨size, hsize⟩ := Option.isSome_iff_exists.mp hsize
  simp only [PackStream.range, hsize, Option.getD_some] at hinside hsum
  exact ⟨Nat.lt_trans hlt howned.count, _, size, List.getElem?_eq_getElem hlt, hsize, hsum, hinside⟩

end Validate

end Un7z
