/-
Which folder graphs are accepted.

`validateFolderGraph_eq_ok` says what an accepted graph guarantees.  Here are the checks
in the other direction, each of them passed under the condition it tests, and the queue
of `topological_order` never fails on a degree: a degree counts the edges that are still
to be taken away.  Together they say that the graphs that are accepted are those whose
ports are partitioned and whose coders can be put in an order.
-/
import Un7z.Proofs.FolderValidation
import Un7z.Proofs.HeaderCounts

namespace Un7z

open Topological (Respects Acyclic)

/-! ### The graph of a folder record -/

namespace RawFolder

/-- The coder the input with this number belongs to. -/
def inputOwner (raw : RawFolder) (port : Nat) : Option Nat :=
  (Tiling.owners 0 (raw.coders.map (·.inputStreams)))[port]?

/-- The coder the output with this number belongs to. -/
def outputOwner (raw : RawFolder) (port : Nat) : Option Nat :=
  (Tiling.owners 0 (raw.coders.map (·.outputStreams)))[port]?

/-- A bind pair takes an output of coder `i` to an input of coder `j`. -/
def Feeds (raw : RawFolder) (i j : Nat) : Prop :=
  ∃ pair ∈ raw.bindPairs, raw.outputOwner pair.output = some i ∧ raw.inputOwner pair.input = some j

/-- The packed inputs: those that are listed, or one if there is no list. -/
def PackedInputs (raw : RawFolder) (packed : List Nat) : Prop :=
  match raw.packedIndices with
  | some indices => packed = indices
  | none => ∃ input, packed = [input]

/-- What makes a graph of coders. -/
structure ValidGraph (raw : RawFolder) : Prop where
  inRange : ∀ pair ∈ raw.bindPairs, pair.input < raw.inputStreams ∧ pair.output < raw.outputStreams
  inputsOnce : (raw.bindPairs.map (·.input)).Nodup
  outputsOnce : (raw.bindPairs.map (·.output)).Nodup
  partition : ∃ packed, raw.PackedInputs packed ∧
    (raw.bindPairs.map (·.input) ++ packed).Perm (List.range raw.inputStreams)
  acyclic : ∀ i, ¬ Relation.TransGen raw.Feeds i i

end RawFolder

namespace Graph

/-! ### Checks that are passed -/

theorem markPort_ok {used : List Bool} {index : Nat} (h : used[index]? = some false)
    (range duplicate : String) :
    (markPort used index range duplicate).result = .ok (used.set index true) :=
  markPort_eq_ok.mpr ⟨h, rfl⟩

/-- What is not marked now is not marked by the mark on another port. -/
theorem unmarked_set {used : List Bool} {i : Nat} (h : used[i]? = some false) (index : Nat)
    (hne : i ≠ index) : (used.set index true)[i]? = some false := by
  rw [List.getElem?_set_ne (Ne.symm hne)]
  exact h

theorem validateBindPairs_ok (raws : List RawBindPair) :
    ∀ {inputUsed outputUsed : List Bool}, (raws.map (·.input)).Nodup → (raws.map (·.output)).Nodup →
      (∀ raw ∈ raws, inputUsed[raw.input]? = some false ∧ outputUsed[raw.output]? = some false) →
      ∃ used, (validateBindPairs raws inputUsed outputUsed).result = .ok (raws.map ofRaw, used) := by
  induction raws with
  | nil => intro inputUsed outputUsed _ _ _; exact ⟨_, rfl⟩
  | cons raw raws ih =>
      intro inputUsed outputUsed hinputs houtputs hfresh
      obtain ⟨hinput, hinputs⟩ := List.nodup_cons.mp hinputs
      obtain ⟨houtput, houtputs⟩ := List.nodup_cons.mp houtputs
      obtain ⟨hhead, htail⟩ := List.forall_mem_cons.mp hfresh
      obtain ⟨used, hrest⟩ := ih hinputs houtputs fun other hother =>
        ⟨unmarked_set (htail other hother).1 raw.input fun heq =>
            hinput (List.mem_map.mpr ⟨other, hother, heq⟩),
          unmarked_set (htail other hother).2 raw.output fun heq =>
            houtput (List.mem_map.mpr ⟨other, hother, heq⟩)⟩
      refine ⟨used, ?_⟩
      have hpair : (validateBindPair raw inputUsed outputUsed).result = .ok (ofRaw raw,
          inputUsed.set raw.input true, outputUsed.set raw.output true) := by
        rw [validateBindPair, Metered.result_bind_ok (markPort_ok hhead.1 _ _),
          Metered.result_bind_ok (markPort_ok hhead.2 _ _)]
        rfl
      rw [validateBindPairs, Metered.result_bind_ok hpair, Metered.result_bind_ok hrest]
      rfl

theorem markPacked_ok {inputUsed : List Bool} (indices : List Nat) :
    ∀ {packedUsed : List Bool}, indices.Nodup →
      (∀ i ∈ indices, packedUsed[i]? = some false ∧ inputUsed[i]? = some false) →
      ∃ packedUsed', (markPacked inputUsed indices packedUsed).result = .ok packedUsed' := by
  induction indices with
  | nil => intro packedUsed _ _; exact ⟨_, rfl⟩
  | cons index indices ih =>
      intro packedUsed hnodup hfresh
      obtain ⟨hindex, hnodup⟩ := List.nodup_cons.mp hnodup
      obtain ⟨hhead, htail⟩ := List.forall_mem_cons.mp hfresh
      obtain ⟨packedUsed', hrest⟩ := ih hnodup fun i hi =>
        ⟨unmarked_set (htail i hi).1 index fun heq => hindex (heq ▸ hi), (htail i hi).2⟩
      refine ⟨packedUsed', ?_⟩
      rw [markPacked, Metered.result_bind_ok (orFormat_eq_ok.mpr hhead.1), if_neg Bool.false_ne_true,
        Metered.result_bind_ok (orFormat_eq_ok.mpr hhead.2), if_neg Bool.false_ne_true]
      exact hrest

/-- One output is not bound: that is the root. -/
theorem findRoot_ok (used : List Bool) :
    ∀ {index k : Nat}, (∀ i, used[i]? = some false ↔ i = k) →
      (findRoot index used none).result = .ok (some (index + k)) := by
  have hbound (used : List Bool) : ∀ {index : Nat} {found : Option Nat}, (∀ b ∈ used, b = true) →
      (findRoot index used found).result = .ok found := by
    induction used with
    | nil => intro index found _; rfl
    | cons b used ih =>
        intro index found hall
        obtain ⟨rfl, hrest⟩ := List.forall_mem_cons.mp hall
        exact ih hrest
  induction used with
  | nil => intro index k honly; exact absurd ((honly k).mpr rfl) (by simp)
  | cons b used ih =>
      intro index k honly
      cases b with
      | false =>
          have hk : 0 = k := (honly 0).mp rfl
          subst hk
          refine hbound used fun b hb => ?_
          obtain ⟨i, hi⟩ := List.mem_iff_getElem?.mp hb
          cases b with
          | true => rfl
          | false => exact absurd ((honly (i + 1)).mp hi) (Nat.succ_ne_zero i)
      | true =>
          cases k with
          | zero => exact absurd ((honly 0).mpr rfl) (by simp)
          | succ k =>
              have hrest : (findRoot (index + 1) used none).result = .ok (some (index + 1 + k)) :=
                ih fun i => by simpa using honly (i + 1)
              rw [show index + (k + 1) = index + 1 + k by omega]
              exact hrest

theorem checkPartition_ok {inputUsed packedUsed : List Bool}
    (h : ∀ (i : Nat) (bound packed : Bool), inputUsed[i]? = some bound →
      packedUsed[i]? = some packed → bound ≠ packed) :
    (checkPartition inputUsed packedUsed).result = .ok () := by
  unfold checkPartition
  rw [if_neg]
  · rfl
  · intro hany
    obtain ⟨pair, hmem, heq⟩ := List.any_eq_true.mp hany
    obtain ⟨i, hi⟩ := List.mem_iff_getElem?.mp hmem
    obtain ⟨hbound, hpacked⟩ := List.getElem?_zip_eq_some.mp hi
    exact h i pair.1 pair.2 hbound hpacked (by simpa using heq)

theorem collectOwners_ok (coders : List RawCoder) :
    ∀ {first : Nat}, (∀ c ∈ coders, c.inputStreams + c.outputStreams < 2 ^ 64) →
      (collectOwners first coders).result = .ok
        (Tiling.owners first (coders.map (·.inputStreams)),
          Tiling.owners first (coders.map (·.outputStreams))) := by
  induction coders with
  | nil => intro first _; rfl
  | cons coder coders ih =>
      intro first hports
      obtain ⟨hhead, htail⟩ := List.forall_mem_cons.mp hports
      rw [collectOwners, Metered.result_bind_ok (orFormat_eq_ok.mpr (checkedAdd_of_lt hhead)),
        Metered.result_bind_ok (result_checkpoint _), Metered.result_bind_ok (ih htail)]
      rfl

/-! ### Edges and degrees -/

variable {inputOwners outputOwners : List Nat}

/-- An edge is a bind pair, seen from the coders. -/
theorem mem_collectEdges (pairs : List RawBindPair) :
    ∀ {indegree indegree' : List Nat} {edges : List (Nat × Nat)},
      (collectEdges inputOwners outputOwners pairs indegree).result = .ok (edges, indegree') →
      ∀ e ∈ edges, ∃ pair ∈ pairs, outputOwners[pair.output]? = some e.1 ∧
        inputOwners[pair.input]? = some e.2 := by
  induction pairs with
  | nil =>
      intro indegree indegree' edges h e he
      obtain ⟨rfl, -⟩ : edges = [] ∧ indegree' = indegree := by
        simpa [collectEdges, eq_comm] using h
      exact absurd he List.not_mem_nil
  | cons pair pairs ih =>
      intro indegree indegree' edges h e he
      simp only [collectEdges, ownerForPort, Metered.bind_eq_ok, orFormat_eq_ok, Prod.exists,
        Metered.result_pure, Except.ok.injEq, Prod.mk.injEq] at h
      obtain ⟨source, hsource, target, htarget, degree, -, _, -, rest, _, hrest, rfl, -⟩ := h
      rcases List.mem_cons.mp he with rfl | he
      · exact ⟨pair, List.mem_cons_self, hsource, htarget⟩
      · obtain ⟨other, hother, howners⟩ := ih hrest e he
        exact ⟨other, List.mem_cons_of_mem _ hother, howners⟩

/-- Owners of the ports in range, and degrees that can be counted. -/
theorem collectEdges_ok (pairs : List RawBindPair) :
    ∀ {indegree : List Nat} {counted : Nat},
      (∀ pair ∈ pairs, ∃ source target, outputOwners[pair.output]? = some source ∧
        inputOwners[pair.input]? = some target ∧ target < indegree.length) →
      (∀ degree ∈ indegree, degree ≤ counted) → counted + pairs.length < 2 ^ 64 →
      ∃ out, (collectEdges inputOwners outputOwners pairs indegree).result = .ok out := by
  induction pairs with
  | nil => intro indegree counted _ _ _; exact ⟨_, rfl⟩
  | cons pair pairs ih =>
      intro indegree counted howners hdegrees hcount
      obtain ⟨⟨source, target, hsource, htarget, hlt⟩, htail⟩ := List.forall_mem_cons.mp howners
      rw [List.length_cons] at hcount
      have hget : indegree[target]? = some indegree[target] := List.getElem?_eq_getElem hlt
      have hdegree := hdegrees _ (List.getElem_mem hlt)
      have hadd : checkedAdd 64 indegree[target] 1 = some (indegree[target] + 1) :=
        checkedAdd_of_lt (by omega)
      have hcounted : ∀ degree ∈ indegree.set target (indegree[target] + 1), degree ≤ counted + 1 := by
        intro degree hmem
        rcases List.mem_or_eq_of_mem_set hmem with hold | rfl
        · exact Nat.le_succ_of_le (hdegrees degree hold)
        · exact Nat.succ_le_succ hdegree
      obtain ⟨out, hrest⟩ := ih (by simpa using htail) hcounted (by omega)
      refine ⟨((source, target) :: out.1, out.2), ?_⟩
      rw [collectEdges, ownerForPort, Metered.result_bind_ok (orFormat_eq_ok.mpr hsource), ownerForPort,
        Metered.result_bind_ok (orFormat_eq_ok.mpr htarget),
        Metered.result_bind_ok (orFormat_eq_ok.mpr hget),
        Metered.result_bind_ok (orFormat_eq_ok.mpr hadd), Metered.result_bind_ok hrest]
      rfl

/-- Taking away edges that the degrees count does not fail. -/
theorem relaxEdges_ok {coder : Nat} (edges : List (Nat × Nat)) :
    ∀ {indegree : List Nat}, (∀ e ∈ edges, e.2 < indegree.length) →
      (∀ k, Topological.multiplicity edges coder k ≤ degreeOf indegree k) →
      ∃ freed indegree', (relaxEdges coder edges indegree).result = .ok (freed, indegree') ∧
        indegree'.length = indegree.length := by
  induction edges with
  | nil => intro indegree _ _; exact ⟨[], indegree, rfl, rfl⟩
  | cons e edges ih =>
      obtain ⟨source, target⟩ := e
      intro indegree htargets hcounted
      obtain ⟨htarget, htargets⟩ := List.forall_mem_cons.mp htargets
      rw [relaxEdges, Metered.result_bind_ok (result_checkpoint _)]
      by_cases hs : source = coder
      · subst hs
        have hget : indegree[target]? = some indegree[target] := List.getElem?_eq_getElem htarget
        have hdegree := degreeOf_of_getElem? hget
        have hpos := hcounted target
        rw [Topological.multiplicity_cons, if_pos ⟨rfl, rfl⟩, hdegree] at hpos
        have hset := degreeOf_set htarget (indegree[target] - 1)
        have hcounted' := Topological.multiplicity_le_update hcounted
        rw [hdegree, ← hset] at hcounted'
        obtain ⟨freed, indegree', hrest, hlength⟩ := ih (by simpa using htargets) hcounted'
        refine ⟨if indegree[target] - 1 = 0 then target :: freed else freed, indegree', ?_,
          hlength.trans (List.length_set ..)⟩
        rw [if_neg (not_not.mpr rfl), Metered.result_bind_ok (orFormat_eq_ok.mpr hget),
          Metered.result_bind_ok (orFormat_eq_ok.mpr (checkedSub_of_le (by omega))),
          Metered.result_bind_ok hrest]
        rfl
      · rw [if_pos hs]
        refine ih htargets fun k => ?_
        have hle := hcounted k
        rwa [Topological.multiplicity_cons, if_neg fun h => hs h.1, Nat.add_zero] at hle

/-- The queue loop does not fail. -/
theorem kahn_ok {edges : List (Nat × Nat)} {nodes : List Nat}
    (hnodes : ∀ e ∈ edges, e.2 ∈ nodes) (fuel : Nat) :
    ∀ {done queue indegree : List Nat}, (∀ e ∈ edges, e.2 < indegree.length) →
      Topological.Progress edges nodes done queue (degreeOf indegree) →
      ∃ out, (kahn edges fuel queue indegree).result = .ok out := by
  induction fuel with
  | zero =>
      intro done queue indegree _ _
      cases queue with
      | nil => exact ⟨_, rfl⟩
      | cons coder queue => exact ⟨_, rfl⟩
  | succ fuel ih =>
      intro done queue indegree htargets hprogress
      cases queue with
      | nil => exact ⟨_, rfl⟩
      | cons coder queue =>
          obtain ⟨freed, indegree', hrelax, hlength⟩ :=
            relaxEdges_ok edges htargets hprogress.multiplicity_le
          have hstep := hprogress.step hnodes
          rw [relaxEdges_eq_ok edges hrelax] at hstep
          obtain ⟨out, hrest⟩ := ih (hlength ▸ htargets) hstep
          refine ⟨(coder :: out.1, out.2), ?_⟩
          rw [kahn, Metered.result_bind_ok (result_checkpoint _), Metered.result_bind_ok hrelax,
            Metered.result_bind_ok hrest]
          rfl

/-- **An order is found exactly where there is no cycle.** -/
theorem topologicalOrder_ok_iff {count : Nat} {pairs : List RawBindPair}
    {edges : List (Nat × Nat)} {indegree : List Nat}
    (hedges : (collectEdges inputOwners outputOwners pairs (List.replicate count 0)).result
      = .ok (edges, indegree)) (hsources : ∀ e ∈ edges, e.1 < count) :
    (∃ order, (topologicalOrder count inputOwners outputOwners pairs).result = .ok order) ↔
      Acyclic edges := by
  obtain ⟨-, hlength, htargets, -⟩ := collectEdges_eq_ok pairs hedges
  rw [List.length_replicate] at hlength htargets
  have hnodes : ∀ e ∈ edges, e.2 ∈ List.range count := fun e he => List.mem_range.mpr (htargets e he)
  have hprogress := progress_initialReady hedges
  obtain ⟨⟨order, rest⟩, hkahn⟩ := kahn_ok hnodes count (by rw [hlength]; exact htargets) hprogress
  obtain ⟨rfl, degree, hdone⟩ := kahn_queue_empty hedges hkahn
  have hresult : (topologicalOrder count inputOwners outputOwners pairs).result
      = (if order.length ≠ count then formatErr "folder coder graph contains a cycle"
        else pure order : Work (List Nat)).result := by
    rw [topologicalOrder, Metered.result_bind_ok hedges, Metered.result_bind_ok hkahn]
  rw [hresult]
  constructor
  · rintro ⟨order', horder⟩
    obtain ⟨hcount, -⟩ := refuseFormat_eq_ok.mp horder
    have hperm := hdone.perm (by simpa using hcount)
    exact hdone.respects.acyclic fun e he => hperm.mem_iff.mpr (hnodes e he)
  · intro hacyclic
    have hall := hdone.complete (fun e he => List.mem_range.mpr (hsources e he)) hacyclic
    have hnodup : order.Nodup := by simpa using hdone.nodup
    have hsubset : order ⊆ List.range count := by simpa using hdone.subset
    have hperm : order.Perm (List.range count) :=
      (List.perm_ext_iff_of_nodup hnodup List.nodup_range).mpr fun i =>
        ⟨fun hi => hsubset hi, fun hi => hall hi⟩
    refine ⟨order, ?_⟩
    rw [if_neg (not_not.mpr (by rw [hperm.length_eq, List.length_range]))]
    rfl

/-! ### The whole graph -/

/-- The edges are those of the graph of the record. -/
theorem feeds_eq_edges {raw : RawFolder} {edges : List (Nat × Nat)} {indegree indegree' : List Nat}
    (h : (collectEdges (Tiling.owners 0 (raw.coders.map (·.inputStreams)))
      (Tiling.owners 0 (raw.coders.map (·.outputStreams))) raw.bindPairs indegree).result
      = .ok (edges, indegree')) : raw.Feeds = fun i j => (i, j) ∈ edges := by
  funext i j
  refine propext ⟨?_, fun hmem => ?_⟩
  · rintro ⟨pair, hpair, hsource, htarget⟩
    obtain ⟨e, he, hsource', htarget'⟩ := (collectEdges_eq_ok _ h).1 pair hpair
    obtain rfl : i = e.1 := Option.some.inj (hsource.symm.trans hsource')
    obtain rfl : j = e.2 := Option.some.inj (htarget.symm.trans htarget')
    exact he
  · obtain ⟨pair, hpair, howners⟩ := mem_collectEdges _ h _ hmem
    exact ⟨pair, hpair, howners⟩

theorem sources_lt {raw : RawFolder} {edges : List (Nat × Nat)} {indegree indegree' : List Nat}
    (h : (collectEdges (Tiling.owners 0 (raw.coders.map (·.inputStreams)))
      (Tiling.owners 0 (raw.coders.map (·.outputStreams))) raw.bindPairs indegree).result
      = .ok (edges, indegree')) : ∀ e ∈ edges, e.1 < raw.coders.length := by
  intro e he
  obtain ⟨pair, -, hsource, -⟩ := mem_collectEdges _ h e he
  obtain ⟨j, r, hindex, hr, -⟩ := (Tiling.getElem?_owners _ 0 0 _ _).mp hsource
  have hlt := (List.getElem?_eq_some_iff.mp hr).1
  rw [Tiling.length_tile, List.length_map] at hlt
  omega

/-- What is read off an accepted record beside its partition. -/
theorem validateFolderGraph_parts {raw : RawFolder} {graph : ValidatedGraph}
    (h : (validateFolderGraph raw).result = .ok graph) :
    graph.bindPairs = raw.bindPairs.map ofRaw ∧ raw.PackedInputs graph.packedInputIndices ∧
      ∀ i, ¬ Relation.TransGen raw.Feeds i i := by
  simp only [validateFolderGraph, Metered.bind_eq_ok, refuseFormat_eq_ok, Prod.exists,
    Metered.result_pure, Except.ok.injEq] at h
  obtain ⟨_, -, _, -, inputOwners, outputOwners, howners, -, pairs, inputUsed, outputUsed, hpairs,
    _, -, root, -, packed, hpacked, -, _, -, _, -, order, horder, rfl⟩ := h
  obtain ⟨rfl, rfl⟩ := collectOwners_eq_ok raw.coders howners
  refine ⟨(validateBindPairs_eq_ok raw.bindPairs hpairs).1, ?_, ?_⟩
  · show raw.PackedInputs packed
    unfold packedIndices at hpacked
    unfold RawFolder.PackedInputs
    cases hindices : raw.packedIndices with
    | some indices =>
        rw [hindices] at hpacked
        exact (Except.ok.inj hpacked).symm
    | none =>
        rw [hindices] at hpacked
        obtain ⟨input, -, hpacked⟩ := Metered.bind_eq_ok.mp hpacked
        exact ⟨input, (Except.ok.inj hpacked).symm⟩
  · obtain ⟨⟨edges, indegree⟩, hedges, -⟩ := Metered.bind_eq_ok.mp horder
    rw [feeds_eq_edges hedges]
    exact (topologicalOrder_ok_iff hedges (sources_lt hedges)).mp ⟨order, horder⟩

/-- The ports that are left clear. -/
theorem Marked.clear_iff {count : Nat} {indices : List Nat} {used : List Bool}
    (h : Marked (falseVector count) indices used) (i : Nat) :
    used[i]? = some false ↔ i ∉ indices ∧ i < count := by
  rw [h.after i]
  by_cases hi : i ∈ indices
  · simp [hi]
  · simp [hi]

/-- One number is left over when all but one below a bound are taken. -/
theorem exists_leftOver {indices : List Nat} {count : Nat} (hnodup : indices.Nodup)
    (hlt : ∀ i ∈ indices, i < count) (hcount : indices.length + 1 = count) :
    ∃ k, ∀ i, i ∉ indices ∧ i < count ↔ i = k := by
  let left := (List.range count).filter (· ∉ indices)
  have hleft : ∀ i, i ∈ left ↔ i < count ∧ i ∉ indices := by
    intro i
    rw [List.mem_filter, List.mem_range, decide_eq_true_iff]
  have hperm : (indices ++ left).Perm (List.range count) := by
    refine perm_range ?_ fun i => ?_
    · rw [List.nodup_append]
      refine ⟨hnodup, List.nodup_range.filter _, ?_⟩
      rintro i hi j hj rfl
      exact ((hleft i).mp hj).2 hi
    · rw [List.mem_append, hleft]
      by_cases hi : i ∈ indices
      · simp [hi, hlt i hi]
      · simp [hi]
  have hlength := hperm.length_eq
  rw [List.length_append, List.length_range] at hlength
  obtain ⟨k, hk⟩ := List.length_eq_one_iff.mp (show left.length = 1 by omega)
  refine ⟨k, fun i => ?_⟩
  rw [and_comm, ← hleft i, hk, List.mem_singleton]

theorem findIdx?_clear {used : List Bool} {k : Nat} (h : ∀ i, used[i]? = some false ↔ i = k) :
    used.findIdx? (!·) = some k := by
  obtain ⟨hlt, hk⟩ := List.getElem?_eq_some_iff.mp ((h k).mpr rfl)
  refine List.findIdx?_eq_some_iff_getElem.mpr ⟨hlt, by rw [hk]; rfl, fun j hj => ?_⟩
  cases hbound : used[j] with
  | true => simp
  | false =>
      have hclear : used[j]? = some false := by
        rw [List.getElem?_eq_getElem (Nat.lt_trans hj hlt), hbound]
      exact absurd ((h j).mp hclear) (Nat.ne_of_lt hj)

/-- The packed inputs of a partition are the ones the source picks. -/
theorem packedIndices_ok {raw : RawFolder} {packed : List Nat} {inputUsed : List Bool}
    (hpacked : raw.PackedInputs packed)
    (hclear : ∀ i, inputUsed[i]? = some false ↔ i ∈ packed) :
    (packedIndices raw inputUsed).result = .ok packed := by
  unfold RawFolder.PackedInputs at hpacked
  unfold packedIndices
  cases hindices : raw.packedIndices with
  | some indices =>
      rw [hindices] at hpacked
      obtain rfl : packed = indices := hpacked
      rfl
  | none =>
      rw [hindices] at hpacked
      obtain ⟨input, rfl⟩ : ∃ input, packed = [input] := hpacked
      have hfind := findIdx?_clear fun i => (hclear i).trans List.mem_singleton
      exact Metered.bind_eq_ok.mpr ⟨input, orFormat_eq_ok.mpr hfind, rfl⟩

theorem length_packedInputs {raw : RawFolder} {packed : List Nat} (hcounted : raw.WellCounted)
    (h : raw.PackedInputs packed) : packed.length = raw.packedStreams := by
  unfold RawFolder.PackedInputs at h
  cases hindices : raw.packedIndices with
  | some indices =>
      rw [hindices] at h
      obtain rfl : packed = indices := h
      exact hcounted.packedIndices_length packed hindices
  | none =>
      rw [hindices] at h
      obtain ⟨input, rfl⟩ : ∃ input, packed = [input] := h
      exact (hcounted.packedIndices.mp (by rw [hindices]; rfl)).symm

/-- The ports of one coder are some of the ports of the folder. -/
theorem coderPorts_lt {raw : RawFolder} (hcounted : raw.WellCounted)
    (hports : raw.inputStreams + raw.outputStreams < 2 ^ 64) :
    ∀ c ∈ raw.coders, c.inputStreams + c.outputStreams < 2 ^ 64 := by
  intro c hc
  have hinputSum := hcounted.inputStreams
  have houtputSum := hcounted.outputStreams
  have hinput : c.inputStreams ≤ (raw.coders.map (·.inputStreams)).sum :=
    List.single_le_sum (fun n _ => Nat.zero_le n) _ (List.mem_map.mpr ⟨c, hc, rfl⟩)
  have houtput : c.outputStreams ≤ (raw.coders.map (·.outputStreams)).sum :=
    List.single_le_sum (fun n _ => Nat.zero_le n) _ (List.mem_map.mpr ⟨c, hc, rfl⟩)
  omega

/-- The coders of the bind pairs are found and their degrees are counted. -/
theorem collectEdges_of_inRange {raw : RawFolder} (hcounted : raw.WellCounted)
    (hports : raw.inputStreams + raw.outputStreams < 2 ^ 64)
    (hrange : ∀ pair ∈ raw.bindPairs, pair.input < raw.inputStreams ∧
      pair.output < raw.outputStreams) :
    ∃ out, (collectEdges (Tiling.owners 0 (raw.coders.map (·.inputStreams)))
      (Tiling.owners 0 (raw.coders.map (·.outputStreams))) raw.bindPairs
      (List.replicate raw.coders.length 0)).result = .ok out := by
  have howner (lengths : List Nat) (hlengths : lengths.length = raw.coders.length) (port : Nat)
      (hport : port < lengths.sum) :
      ∃ i, (Tiling.owners 0 lengths)[port]? = some i ∧ i < raw.coders.length := by
    have hlt : port < (Tiling.owners 0 lengths).length := by
      rw [Tiling.length_owners]
      exact hport
    have hget := List.getElem?_eq_getElem hlt
    obtain ⟨j, r, hindex, hr, -⟩ := (Tiling.getElem?_owners _ 0 0 _ _).mp hget
    have hj := (List.getElem?_eq_some_iff.mp hr).1
    rw [Tiling.length_tile] at hj
    exact ⟨_, hget, by omega⟩
  have hpairCount := hcounted.bindPairs
  refine collectEdges_ok raw.bindPairs ?_ (fun degree hdegree => (List.eq_of_mem_replicate hdegree).le)
    (by omega)
  intro pair hpair
  obtain ⟨hinput, houtput⟩ := hrange pair hpair
  rw [hcounted.inputStreams] at hinput
  rw [hcounted.outputStreams] at houtput
  obtain ⟨source, hsource, -⟩ := howner _ (List.length_map ..) _ houtput
  obtain ⟨target, htarget, hlt⟩ := howner _ (List.length_map ..) _ hinput
  exact ⟨source, target, hsource, htarget, by rw [List.length_replicate]; exact hlt⟩

/-- A record the parser returns, with a graph that is valid, is accepted. -/
theorem validateFolderGraph_ok {raw : RawFolder} (hcounted : raw.WellCounted)
    (hports : raw.inputStreams + raw.outputStreams < 2 ^ 64) (hvalid : raw.ValidGraph) :
    ∃ graph, (validateFolderGraph raw).result = .ok graph := by
  obtain ⟨packed, hpackedInputs, hpartition⟩ := hvalid.partition
  have howners : (collectOwners 0 raw.coders).result = _ :=
    collectOwners_ok raw.coders (coderPorts_lt hcounted hports)
  have hlengths : ¬ ((Tiling.owners 0 (raw.coders.map (·.inputStreams))).length ≠ raw.inputStreams ∨
      (Tiling.owners 0 (raw.coders.map (·.outputStreams))).length ≠ raw.outputStreams) := by
    rw [Tiling.length_owners, Tiling.length_owners, ← hcounted.inputStreams,
      ← hcounted.outputStreams]
    simp
  -- the bind pairs
  obtain ⟨⟨inputUsed, outputUsed⟩, hpairs⟩ := validateBindPairs_ok raw.bindPairs
    hvalid.inputsOnce hvalid.outputsOnce fun pair hpair =>
      ⟨getElem?_falseVector.mpr ⟨(hvalid.inRange pair hpair).1, rfl⟩,
        getElem?_falseVector.mpr ⟨(hvalid.inRange pair hpair).2, rfl⟩⟩
  obtain ⟨-, hinputs, houtputs⟩ := validateBindPairs_eq_ok raw.bindPairs hpairs
  rw [List.map_map] at hinputs houtputs
  -- the root
  have houtputCount : (raw.bindPairs.map (·.output)).length + 1 = raw.outputStreams := by
    rw [List.length_map]
    exact hcounted.bindPairs
  obtain ⟨root, hroot⟩ := exists_leftOver hvalid.outputsOnce
    (List.forall_mem_map.mpr fun pair hpair => (hvalid.inRange pair hpair).2) houtputCount
  have hfound : (findRoot 0 outputUsed none).result = .ok (some (0 + root)) :=
    findRoot_ok outputUsed fun i => (houtputs.clear_iff i).trans (hroot i)
  -- the packed inputs
  have hnodup := hpartition.nodup_iff.mpr List.nodup_range
  have hmem (i : Nat) : i ∈ raw.bindPairs.map (·.input) ∨ i ∈ packed ↔ i < raw.inputStreams := by
    rw [← List.mem_append, hpartition.mem_iff, List.mem_range]
  have hclear (i : Nat) : inputUsed[i]? = some false ↔ i ∈ packed := by
    rw [hinputs.clear_iff i]
    constructor
    · rintro ⟨hnot, hlt⟩
      exact ((hmem i).mpr hlt).resolve_left hnot
    · exact fun hi => ⟨fun hbound => (List.nodup_append.mp hnodup).2.2 i hbound i hi rfl,
        (hmem i).mp (.inr hi)⟩
  obtain ⟨packedUsed, hmark⟩ : ∃ packedUsed,
      (markPacked inputUsed packed (falseVector raw.inputStreams)).result = .ok packedUsed :=
    markPacked_ok packed (List.nodup_append.mp hnodup).2.1 fun i hi =>
      ⟨getElem?_falseVector.mpr ⟨(hmem i).mp (.inr hi), rfl⟩, (hclear i).mpr hi⟩
  have hpackedUsed := (markPacked_eq_ok packed hmark).1
  have hpartitioned : (checkPartition inputUsed packedUsed).result = .ok () := by
    refine checkPartition_ok fun i bound marked hbound hmarked heq => ?_
    subst heq
    cases bound with
    | false => exact ((hpackedUsed.clear_iff i).mp hmarked).1 ((hclear i).mp hbound)
    | true =>
        have hin : i ∈ packed := by
          by_contra hnot
          rw [hpackedUsed.after i, if_neg hnot] at hmarked
          exact absurd (getElem?_falseVector.mp hmarked).2 (by decide)
        rw [(hclear i).mpr hin] at hbound
        exact absurd hbound (by decide)
  -- the order
  obtain ⟨⟨edges, indegree⟩, hedges⟩ := collectEdges_of_inRange hcounted hports hvalid.inRange
  obtain ⟨order, horder⟩ := (topologicalOrder_ok_iff hedges (sources_lt hedges)).mpr (by
    have hacyclic := hvalid.acyclic
    rw [feeds_eq_edges hedges] at hacyclic
    exact hacyclic)
  refine ⟨⟨raw.bindPairs.map ofRaw, packed, 0 + root, order⟩, ?_⟩
  have hfoundRoot : (orFormat (some (0 + root)) "folder has no root output stream").result
      = .ok (0 + root) := orFormat_eq_ok.mpr rfl
  simp only [validateFolderGraph,
    Metered.result_bind_ok (orFormat_eq_ok.mpr (checkedAdd_of_lt hports)),
    Metered.result_bind_ok (result_checkpoint _), Metered.result_bind_ok howners, if_neg hlengths,
    Metered.result_bind_ok hpairs, Metered.result_bind_ok hfound, Metered.result_bind_ok hfoundRoot,
    Metered.result_bind_ok (packedIndices_ok hpackedInputs hclear),
    if_neg (not_not.mpr (length_packedInputs hcounted hpackedInputs)),
    Metered.result_bind_ok hmark, Metered.result_bind_ok hpartitioned,
    Metered.result_bind_ok horder]
  rfl

/-- What an accepted record says is a valid graph. -/
theorem validGraph_of_ok {raw : RawFolder} {graph : ValidatedGraph}
    (h : (validateFolderGraph raw).result = .ok graph) : raw.ValidGraph := by
  have hpartitioned := validateFolderGraph_eq_ok h
  obtain ⟨hpairs, hpacked, hacyclic⟩ := validateFolderGraph_parts h
  have hinputs := hpartitioned.inputs
  have houtputs := hpartitioned.outputs
  rw [hpairs, List.map_map] at hinputs houtputs
  have hinputMem (pair : RawBindPair) (hpair : pair ∈ raw.bindPairs) :
      pair.input < raw.inputStreams := by
    rw [← List.mem_range, ← hinputs.mem_iff]
    exact List.mem_append_left _ (List.mem_map.mpr ⟨pair, hpair, rfl⟩)
  have houtputMem (pair : RawBindPair) (hpair : pair ∈ raw.bindPairs) :
      pair.output < raw.outputStreams := by
    rw [← List.mem_range, ← houtputs.mem_iff]
    exact List.mem_append_left _ (List.mem_map.mpr ⟨pair, hpair, rfl⟩)
  exact ⟨fun pair hpair => ⟨hinputMem pair hpair, houtputMem pair hpair⟩,
    (List.nodup_append.mp (hinputs.nodup_iff.mpr List.nodup_range)).1,
    (List.nodup_append.mp (houtputs.nodup_iff.mpr List.nodup_range)).1,
    ⟨graph.packedInputIndices, hpacked, hinputs⟩, hacyclic⟩

end Graph

end Un7z
