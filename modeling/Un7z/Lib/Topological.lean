/-
Kahn's algorithm.

The nodes that depend on nothing wait in a queue.  Taking one out of it removes its
edges, and a node whose last dependency has gone joins the queue.  `Progress` is the
invariant: the degree of a node counts its edges from nodes not yet taken, and the
nodes taken or waiting are exactly those of degree zero.  So a node is taken after
everything it depends on, no node is taken twice, and there is always enough fuel when
there is as much as there are nodes.  All nodes are taken exactly when the graph has no
cycle.
-/
import Mathlib.Logic.Function.Basic
import Mathlib.Logic.Relation
import Mathlib.Data.Fintype.Card
import Mathlib.Data.List.Basic
import Mathlib.Data.List.Perm.Subperm
import Mathlib.Data.Set.Finite.Basic
import Mathlib.Order.WellFounded

namespace Topological

variable {ι : Type}

/-- Nothing stands before a node it depends on: an edge leads from earlier to later. -/
def Respects (edges : List (ι × ι)) (order : List ι) : Prop :=
  ∀ before i after, order = before ++ i :: after → ∀ e ∈ edges, e.2 = i → e.1 ∈ before

theorem respects_nil (edges : List (ι × ι)) : Respects edges [] := by
  intro before i after h
  exact absurd h (by simp)

theorem respects_append_singleton {edges : List (ι × ι)} {order : List ι} {i : ι}
    (h : Respects edges order) (hi : ∀ e ∈ edges, e.2 = i → e.1 ∈ order) :
    Respects edges (order ++ [i]) := by
  intro before j after heq e he hej
  rcases List.eq_nil_or_concat' after with rfl | ⟨init, last, rfl⟩
  · obtain ⟨hbefore, hji⟩ := List.append_inj' heq rfl
    rw [← hbefore]
    exact hi e he (hej.trans (List.singleton_inj.mp hji).symm)
  · have heq' : order ++ [i] = (before ++ j :: init) ++ [last] := by simpa using heq
    obtain ⟨horder, -⟩ := List.append_inj' heq' rfl
    exact h before j init horder e he hej

variable [DecidableEq ι]

/-- How many edges lead from `i` to `j`. -/
def multiplicity (edges : List (ι × ι)) (i j : ι) : ℕ := edges.count (i, j)

/-- How many edges lead to `i` from nodes not in `done`. -/
def pending (edges : List (ι × ι)) (done : List ι) (i : ι) : ℕ :=
  edges.countP fun e => e.2 = i ∧ e.1 ∉ done

/-- Take the edges out of `i` away, and list the nodes that frees. -/
def relax (i : ι) : List (ι × ι) → (ι → ℕ) → List ι × (ι → ℕ)
  | [], degree => ([], degree)
  | (source, target) :: edges, degree =>
      if source = i then
        let left := degree target - 1
        let (freed, degree) := relax i edges (Function.update degree target left)
        (if left = 0 then target :: freed else freed, degree)
      else
        relax i edges degree

/-- The queue loop: the nodes in the order they are taken, and what waits at the end. -/
def kahn (edges : List (ι × ι)) : ℕ → List ι → (ι → ℕ) → List ι × List ι
  | _, [], _ => ([], [])
  | 0, queue, _ => ([], queue)
  | fuel + 1, i :: queue, degree =>
      let (freed, degree) := relax i edges degree
      let (order, left) := kahn edges fuel (queue ++ freed) degree
      (i :: order, left)

/-! ### Taking a node's edges away -/

theorem multiplicity_cons (edges : List (ι × ι)) (source target i j : ι) :
    multiplicity ((source, target) :: edges) i j
      = multiplicity edges i j + if source = i ∧ target = j then 1 else 0 := by
  simp [multiplicity, List.count_cons, Prod.ext_iff]

theorem relax_degree {i : ι} (edges : List (ι × ι)) : ∀ (degree : ι → ℕ) (j : ι),
    (relax i edges degree).2 j = degree j - multiplicity edges i j := by
  induction edges with
  | nil => intro degree j; rfl
  | cons e edges ih =>
      obtain ⟨source, target⟩ := e
      intro degree j
      rw [relax, multiplicity_cons]
      by_cases hs : source = i
      · by_cases hj : target = j
        · subst hj
          simp only [hs, if_true, ih, Function.update_self, and_self]
          omega
        · simp [hs, ih, hj, Function.update_of_ne (Ne.symm hj)]
      · simp [hs, ih]

/-- One edge less, and one degree less: the degrees still cover the edges left. -/
theorem multiplicity_le_update {i target : ι} {edges : List (ι × ι)} {degree : ι → ℕ}
    (hle : ∀ k, multiplicity ((i, target) :: edges) i k ≤ degree k) (k : ι) :
    multiplicity edges i k ≤ Function.update degree target (degree target - 1) k := by
  have hk := hle k
  rw [multiplicity_cons] at hk
  by_cases hkt : target = k
  · subst hkt
    simp only [and_self, if_true] at hk
    simp only [Function.update_self]
    omega
  · simpa [hkt, Function.update_of_ne (Ne.symm hkt)] using hk

/-- A node is freed when the edges taken away are all it still had. -/
theorem mem_relax {i : ι} (edges : List (ι × ι)) : ∀ (degree : ι → ℕ) (j : ι),
    (∀ k, multiplicity edges i k ≤ degree k) →
      (j ∈ (relax i edges degree).1 ↔
        0 < multiplicity edges i j ∧ degree j = multiplicity edges i j) := by
  induction edges with
  | nil => intro degree j _; simp [relax, multiplicity]
  | cons e edges ih =>
      obtain ⟨source, target⟩ := e
      intro degree j hle
      rw [relax]
      by_cases hs : source = i
      · have hle' := multiplicity_le_update (hs ▸ hle)
        simp only [multiplicity_cons] at hle ⊢
        have hmem := ih _ j hle'
        simp only [hs, if_true, true_and]
        by_cases hj : target = j
        · subst hj
          have hpos := hle target
          simp only [hs, and_self, if_true] at hpos
          simp only [Function.update_self] at hmem
          by_cases hzero : degree target - 1 = 0
          · simp only [hzero, if_true, List.mem_cons, true_or, true_iff]
            omega
          · simp only [hzero, if_false, hmem, if_true]
            omega
        · rw [Function.update_of_ne (Ne.symm hj)] at hmem
          have hiff : (j ∈ if degree target - 1 = 0 then
                target :: (relax i edges (Function.update degree target (degree target - 1))).1
              else (relax i edges (Function.update degree target (degree target - 1))).1) ↔
              j ∈ (relax i edges (Function.update degree target (degree target - 1))).1 := by
            split <;> simp [Ne.symm hj]
          simpa [hj] using hiff.trans hmem
      · simp only [multiplicity_cons, hs, if_false, false_and, Nat.add_zero] at hle ⊢
        exact ih degree j hle

/-- No node is freed twice. -/
theorem nodup_relax {i : ι} (edges : List (ι × ι)) : ∀ degree : ι → ℕ,
    (∀ k, multiplicity edges i k ≤ degree k) → (relax i edges degree).1.Nodup := by
  induction edges with
  | nil => intro degree _; exact List.nodup_nil
  | cons e edges ih =>
      obtain ⟨source, target⟩ := e
      intro degree hle
      rw [relax]
      by_cases hs : source = i
      · have hle' := multiplicity_le_update (hs ▸ hle)
        simp only [hs, if_true]
        by_cases hzero : degree target - 1 = 0
        · rw [if_pos hzero, List.nodup_cons]
          refine ⟨fun hmem => ?_, ih _ hle'⟩
          obtain ⟨hpos, hdegree⟩ := (mem_relax edges _ target hle').mp hmem
          rw [Function.update_self, hzero] at hdegree
          omega
        · rw [if_neg hzero]
          exact ih _ hle'
      · simp only [multiplicity_cons, hs, if_false, false_and, Nat.add_zero] at hle ⊢
        exact ih degree hle

/-! ### The invariant -/

/-- Taking `i` settles exactly the edges out of it. -/
theorem pending_append_singleton (edges : List (ι × ι)) {done : List ι} {i : ι} (hi : i ∉ done)
    (j : ι) : pending edges (done ++ [i]) j + multiplicity edges i j = pending edges done j := by
  induction edges with
  | nil => rfl
  | cons e edges ih =>
      obtain ⟨source, target⟩ := e
      rw [multiplicity_cons]
      unfold pending at ih ⊢
      simp only [List.countP_cons, List.mem_append, List.mem_singleton, decide_eq_true_eq]
      by_cases ht : target = j
      · by_cases hs : source = i
        · subst hs
          simp only [ht, hi, or_true, not_true_eq_false, and_false, if_false, not_false_eq_true,
            and_self, if_true]
          simp only [List.mem_append, List.mem_singleton] at ih
          omega
        · simp only [List.mem_append, List.mem_singleton] at ih
          simp only [ht, hs, or_false, true_and, false_and, if_false]
          omega
      · simp only [List.mem_append, List.mem_singleton] at ih
        simp only [ht, false_and, and_false, if_false]
        omega

theorem pending_eq_zero {edges : List (ι × ι)} {done : List ι} {i : ι} :
    pending edges done i = 0 ↔ ∀ e ∈ edges, e.2 = i → e.1 ∈ done := by
  simp [pending, List.countP_eq_zero]

/-- What holds while the nodes `done` have been taken and `queue` waits. -/
structure Progress (edges : List (ι × ι)) (nodes done queue : List ι) (degree : ι → ℕ) :
    Prop where
  degree : ∀ i, degree i = pending edges done i
  nodup : (done ++ queue).Nodup
  subset : done ++ queue ⊆ nodes
  free : ∀ i ∈ nodes, i ∈ done ++ queue ↔ pending edges done i = 0
  respects : Respects edges done

variable {edges : List (ι × ι)} {nodes done queue : List ι} {degree : ι → ℕ} {i : ι}

/-- The nodes without a dependency are where to start. -/
theorem progress_nil (hnodes : nodes.Nodup) (hdegree : ∀ i, degree i = pending edges [] i) :
    Progress edges nodes [] (nodes.filter fun i => degree i = 0) degree where
  degree := hdegree
  nodup := hnodes.filter _
  subset := by simp
  free i hi := by simp [hi, hdegree]
  respects := respects_nil edges

/-- The edges out of the node at the front are counted in the degrees. -/
theorem Progress.settle (h : Progress edges nodes done (i :: queue) degree) (j : ι) :
    pending edges (done ++ [i]) j + multiplicity edges i j = degree j := by
  have hi : i ∉ done := by
    intro hmem
    exact (List.nodup_append.mp h.nodup).2.2 i hmem i List.mem_cons_self rfl
  rw [h.degree j, pending_append_singleton edges hi j]

theorem Progress.multiplicity_le (h : Progress edges nodes done (i :: queue) degree) (j : ι) :
    multiplicity edges i j ≤ degree j := by
  have := h.settle j
  omega

/-- **Taking a node from the queue keeps the invariant.** -/
theorem Progress.step (hnodes : ∀ e ∈ edges, e.2 ∈ nodes)
    (h : Progress edges nodes done (i :: queue) degree) :
    Progress edges nodes (done ++ [i]) (queue ++ (relax i edges degree).1)
      (relax i edges degree).2 := by
  have hmem : i ∈ nodes := h.subset (by simp)
  have hsettle := h.settle
  have hle := h.multiplicity_le
  have hfreed : ∀ j, j ∈ (relax i edges degree).1 ↔
      0 < multiplicity edges i j ∧ pending edges (done ++ [i]) j = 0 := by
    intro j
    rw [mem_relax edges degree j hle]
    have := hsettle j
    omega
  -- a node whose edge has just been taken away was not free before
  have hfresh : ∀ j ∈ (relax i edges degree).1, j ∈ nodes ∧ j ∉ done ++ (i :: queue) := by
    intro j hj
    obtain ⟨hpos, -⟩ := (hfreed j).mp hj
    have hedge : (i, j) ∈ edges := List.count_pos_iff.mp hpos
    have hjn : j ∈ nodes := hnodes _ hedge
    refine ⟨hjn, fun hfree => ?_⟩
    have hzero := (h.free j hjn).mp hfree
    have := hsettle j
    rw [h.degree j] at this
    omega
  have hassoc : done ++ [i] ++ (queue ++ (relax i edges degree).1)
      = (done ++ (i :: queue)) ++ (relax i edges degree).1 := by simp
  refine ⟨?_, ?_, ?_, ?_, ?_⟩
  · intro j
    rw [relax_degree]
    have := hsettle j
    omega
  · rw [hassoc, List.nodup_append]
    refine ⟨h.nodup, nodup_relax edges degree hle, ?_⟩
    rintro j hj k hk rfl
    exact (hfresh j hk).2 hj
  · rw [hassoc, List.append_subset]
    exact ⟨h.subset, fun j hj => (hfresh j hj).1⟩
  · intro j hj
    have hold := h.free j hj
    rw [hassoc, List.mem_append, hold, hfreed j, ← h.degree j]
    have := hsettle j
    omega
  · refine respects_append_singleton h.respects ?_
    exact pending_eq_zero.mp ((h.free i hmem).mp (by simp))

/-- **A whole run**: with fuel for the nodes that are left, nothing waits at the end. -/
theorem kahn_progress (hnodes : ∀ e ∈ edges, e.2 ∈ nodes) :
    ∀ (fuel : ℕ) (done queue : List ι) (degree : ι → ℕ),
      Progress edges nodes done queue degree → nodes.length ≤ done.length + fuel →
      (kahn edges fuel queue degree).2 = [] ∧
        ∃ degree', Progress edges nodes (done ++ (kahn edges fuel queue degree).1) [] degree' := by
  intro fuel
  induction fuel with
  | zero =>
      intro done queue degree h hfuel
      have hlength : (done ++ queue).length ≤ nodes.length :=
        (List.subperm_of_subset h.nodup h.subset).length_le
      have hqueue : queue = [] := by
        rw [List.length_append] at hlength
        exact List.eq_nil_of_length_eq_zero (by omega)
      subst hqueue
      exact ⟨rfl, degree, by simpa [kahn] using h⟩
  | succ fuel ih =>
      intro done queue degree h hfuel
      cases queue with
      | nil => exact ⟨rfl, degree, by simpa [kahn] using h⟩
      | cons i queue =>
          obtain ⟨hleft, degree', hprogress⟩ := ih (done ++ [i]) _ _ (h.step hnodes) (by
            rw [List.length_append, List.length_singleton]
            omega)
          exact ⟨hleft, degree', by simpa [kahn] using hprogress⟩

/-! ### Cycles -/

/-- A path of at least one edge. -/
def Path (edges : List (ι × ι)) : ι → ι → Prop := Relation.TransGen fun i j => (i, j) ∈ edges

def Acyclic (edges : List (ι × ι)) : Prop := ∀ i, ¬ Path edges i i

/-- A path leads forward in an order that respects its edges. -/
theorem Respects.idxOf_lt {order : List ι} (h : Respects edges order)
    (hnodes : ∀ e ∈ edges, e.2 ∈ order) {i j : ι} (hpath : Path edges i j) :
    order.idxOf i < order.idxOf j := by
  have hedge : ∀ {k l : ι}, (k, l) ∈ edges → order.idxOf k < order.idxOf l := by
    intro k l hmem
    obtain ⟨before, after, horder, hfirst⟩ := List.eq_append_cons_of_mem (hnodes _ hmem)
    have hbefore := h before l after horder _ hmem rfl
    have hl : order.idxOf l = before.length := by
      rw [horder, List.idxOf_append_of_notMem hfirst, List.idxOf_cons_self, Nat.add_zero]
    have hk : order.idxOf k = before.idxOf k := by
      rw [horder, List.idxOf_append_of_mem hbefore]
    rw [hk, hl]
    exact List.idxOf_lt_length_of_mem hbefore
  induction hpath with
  | single hstep => exact hedge hstep
  | tail _ hstep ih => exact Nat.lt_trans ih (hedge hstep)

theorem Respects.acyclic {order : List ι} (h : Respects edges order)
    (hnodes : ∀ e ∈ edges, e.2 ∈ order) : Acyclic edges :=
  fun _ hcycle => Nat.lt_irrefl _ (h.idxOf_lt hnodes hcycle)

/-- **Where nothing waits and there is no cycle, everything has been taken.** -/
theorem Progress.complete (h : Progress edges nodes done [] degree)
    (hnodes : ∀ e ∈ edges, e.1 ∈ nodes) (hacyclic : Acyclic edges) : nodes ⊆ done := by
  intro j hj
  by_contra hleft
  let Node := { i // i ∈ nodes }
  have hfinite : Finite Node := (List.finite_toSet nodes).to_subtype
  let before (i j : Node) : Prop := Path edges i.1 j.1
  have htrans : IsTrans Node before := ⟨fun _ _ _ => Relation.TransGen.trans⟩
  have hirrefl : Std.Irrefl before := ⟨fun i => hacyclic i.1⟩
  -- the first node that is left over depends on none that is left over, and so is free
  obtain ⟨first, hfirst, hmin⟩ := (Finite.wellFounded_of_trans_of_irrefl before).has_min
    { i : Node | i.1 ∉ done } ⟨⟨j, hj⟩, hleft⟩
  have hfree : pending edges done first.1 = 0 := by
    rw [pending_eq_zero]
    intro e he heq
    by_contra hsource
    exact hmin ⟨e.1, hnodes e he⟩ hsource (Relation.TransGen.single (heq ▸ he))
  exact hfirst (by simpa using (h.free first.1 first.2).mpr hfree)

/-- A run from the start that took as many nodes as there are took each of them once. -/
theorem Progress.perm (h : Progress edges nodes done [] degree)
    (hlength : done.length = nodes.length) : done.Perm nodes := by
  have hnodup : done.Nodup := by simpa using h.nodup
  have hsubset : done ⊆ nodes := by simpa using h.subset
  exact (List.subperm_of_subset hnodup hsubset).perm_of_length_le (Nat.le_of_eq hlength.symm)

end Topological
