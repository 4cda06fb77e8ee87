/-
Graphs of operations, and executing them one node at a time.

A node reads slots and yields one value.  A slot is fed from outside or by one node.
`evaluate` is the meaning of such a graph: a node is applied to the values of its
slots, and a slot fed by a node has that node's value.  The fuel bounds the recursion,
and a value found with some fuel is found with more.

An execution keeps a table of what lies in the slots.  Firing a node empties the slots
it reads and puts its value into the slot it feeds, or among the outputs when it feeds
none.  `Holds` is the invariant that says what the tables contain after a set of nodes
has fired, in terms of `evaluate` alone.  So the order in which the nodes fired is gone
from what they contain, as long as each node fired when its slots were filled.
-/
import Mathlib.Logic.Function.Basic
import Mathlib.Data.List.Basic

/-- Nodes `ι`, each reading slots in `π` and yielding a value in `ν`. -/
structure Dataflow (ι π ν : Type) where
  /-- The slots a node reads, in order. -/
  inputs : ι → List π
  /-- The node that feeds a slot, if one does. -/
  source : π → Option ι
  /-- The slot a node feeds, if it feeds one. -/
  target : ι → Option π
  /-- What a slot fed by no node holds. -/
  external : π → Option ν
  apply : ι → List ν → Option ν

namespace Dataflow

variable {ι π ν : Type}

theorem mapM_eq_some {f : π → Option ν} {ps : List π} {vs : List ν} :
    ps.mapM f = some vs ↔ ps.map f = vs.map some := by
  induction ps generalizing vs with
  | nil => cases vs <;> simp
  | cons p ps ih =>
      rw [List.mapM_cons]
      constructor
      · intro h
        obtain ⟨v, hv, h⟩ := Option.bind_eq_some_iff.mp h
        obtain ⟨rest, hrest, h⟩ := Option.bind_eq_some_iff.mp h
        cases h
        rw [List.map_cons, List.map_cons, hv, ih.mp hrest]
      · intro h
        cases vs with
        | nil => exact absurd h (by simp)
        | cons v vs =>
            rw [List.map_cons, List.map_cons, List.cons.injEq] at h
            rw [h.1, ih.mpr h.2]
            rfl

/-! ### The meaning of a graph -/

/-- The value of a slot, given those of the nodes. -/
def inputValue (g : Dataflow ι π ν) (value : ι → Option ν) (p : π) : Option ν :=
  match g.source p with
  | some j => value j
  | none => g.external p

/-- The value of a node, by recursion through the graph. -/
def evaluate (g : Dataflow ι π ν) : ℕ → ι → Option ν
  | 0, _ => none
  | fuel + 1, i => ((g.inputs i).mapM (g.inputValue (g.evaluate fuel))).bind (g.apply i)

/-- The values a node is applied to. -/
def arguments (g : Dataflow ι π ν) (fuel : ℕ) (i : ι) : Option (List ν) :=
  (g.inputs i).mapM (g.inputValue (g.evaluate fuel))

theorem evaluate_succ (g : Dataflow ι π ν) (fuel : ℕ) (i : ι) :
    g.evaluate (fuel + 1) i = (g.arguments fuel i).bind (g.apply i) := rfl

theorem inputValue_mono {g : Dataflow ι π ν} {value value' : ι → Option ν}
    (h : ∀ j v, value j = some v → value' j = some v) {p : π} {v : ν}
    (hv : g.inputValue value p = some v) : g.inputValue value' p = some v := by
  unfold inputValue at hv ⊢
  cases hsource : g.source p with
  | none => rw [hsource] at hv; exact hv
  | some j => rw [hsource] at hv; exact h j v hv

theorem mapM_mono {f f' : π → Option ν} {ps : List π} {vs : List ν}
    (h : ∀ p ∈ ps, ∀ v, f p = some v → f' p = some v) (hvs : ps.mapM f = some vs) :
    ps.mapM f' = some vs := by
  rw [mapM_eq_some] at hvs ⊢
  rw [← hvs]
  refine List.map_congr_left fun p hp => ?_
  have hmem : f p ∈ vs.map some := hvs ▸ List.mem_map_of_mem hp
  obtain ⟨v, -, hv⟩ := List.mem_map.mp hmem
  rw [← hv]
  exact h p hp v hv.symm

theorem evaluate_succ_mono (g : Dataflow ι π ν) :
    ∀ (fuel : ℕ) (i : ι) (v : ν), g.evaluate fuel i = some v → g.evaluate (fuel + 1) i = some v := by
  intro fuel
  induction fuel with
  | zero => intro i v h; exact absurd h (by simp [evaluate])
  | succ fuel ih =>
      intro i v h
      rw [evaluate_succ, Option.bind_eq_some_iff] at h ⊢
      obtain ⟨vs, hvs, hv⟩ := h
      exact ⟨vs, mapM_mono (fun p _ w hw => inputValue_mono ih hw) hvs, hv⟩

/-- More fuel finds the same value. -/
theorem evaluate_mono (g : Dataflow ι π ν) {m n : ℕ} (h : m ≤ n) {i : ι} {v : ν}
    (hv : g.evaluate m i = some v) : g.evaluate n i = some v := by
  induction h with
  | refl => exact hv
  | step _ ih => exact g.evaluate_succ_mono _ i v ih

theorem arguments_mono (g : Dataflow ι π ν) {m n : ℕ} (h : m ≤ n) {i : ι} {vs : List ν}
    (hvs : g.arguments m i = some vs) : g.arguments n i = some vs :=
  mapM_mono (fun _ _ _ hw => inputValue_mono (fun _ _ hv => g.evaluate_mono h hv) hw) hvs

/-- The value of a node does not depend on the fuel it was found with. -/
theorem evaluate_unique (g : Dataflow ι π ν) {m n : ℕ} {i : ι} {v w : ν}
    (hv : g.evaluate m i = some v) (hw : g.evaluate n i = some w) : v = w := by
  have hv' := g.evaluate_mono (Nat.le_max_left m n) hv
  have hw' := g.evaluate_mono (Nat.le_max_right m n) hw
  exact Option.some.inj (hv'.symm.trans hw')

/-! ### Well-formed graphs -/

/-- The two directions of every connection agree, and no slot is read twice. -/
structure Wired (g : Dataflow ι π ν) : Prop where
  target_iff : ∀ i p, g.target i = some p ↔ g.source p = some i
  nodup : ∀ i, (g.inputs i).Nodup
  disjoint : ∀ i j p, p ∈ g.inputs i → p ∈ g.inputs j → i = j

/-- A node that has not fired, with all its slots fed. -/
structure Ready (g : Dataflow ι π ν) (done : List ι) (i : ι) : Prop where
  pending : i ∉ done
  sources : ∀ p ∈ g.inputs i, ∀ j, g.source p = some j → j ∈ done
  externals : ∀ p ∈ g.inputs i, g.source p = none → (g.external p).isSome

/-! ### Executing a graph -/

variable [DecidableEq ι] [DecidableEq π]

/-- What lies in the slots, and what the nodes that feed none have put out. -/
structure Tables (ι π ν : Type) where
  slots : π → Option ν
  outputs : ι → Option ν

/-- Take everything out of some slots. -/
def clear (ps : List π) (slots : π → Option ν) (p : π) : Option ν :=
  if p ∈ ps then none else slots p

theorem clear_cons (p : π) (ps : List π) (slots : π → Option ν) :
    clear (p :: ps) slots = clear ps (Function.update slots p none) := by
  funext q
  unfold clear
  by_cases hq : q = p
  · subst hq
    simp
  · simp [hq]

/-- The tables after node `i` has fired with value `v`. -/
def fire (g : Dataflow ι π ν) (i : ι) (v : ν) (t : Tables ι π ν) : Tables ι π ν :=
  match g.target i with
  | some p => ⟨Function.update (clear (g.inputs i) t.slots) p (some v), t.outputs⟩
  | none => ⟨clear (g.inputs i) t.slots, Function.update t.outputs i (some v)⟩

/-- What a slot holds once exactly the nodes in `done` have fired. -/
def slotAfter (g : Dataflow ι π ν) (done : List ι) (p : π) : Option ν :=
  if ∃ i ∈ done, p ∈ g.inputs i then none
  else match g.source p with
    | some j => if j ∈ done then g.evaluate done.length j else none
    | none => g.external p

/-- The invariant of an execution. -/
structure Holds (g : Dataflow ι π ν) (done : List ι) (t : Tables ι π ν) : Prop where
  slots : ∀ p, t.slots p = g.slotAfter done p
  outputs : ∀ i, t.outputs i =
    if i ∈ done ∧ g.target i = none then g.evaluate done.length i else none
  values : ∀ i ∈ done, (g.evaluate done.length i).isSome
  /-- No node has fired before the nodes that feed it. -/
  closed : ∀ i ∈ done, ∀ p ∈ g.inputs i, ∀ j, g.source p = some j → j ∈ done

theorem holds_nil (g : Dataflow ι π ν) {t : Tables ι π ν}
    (hfed : ∀ p j, g.source p = some j → t.slots p = none)
    (hexternal : ∀ p, g.source p = none → t.slots p = g.external p)
    (houtputs : ∀ i, t.outputs i = none) : g.Holds [] t where
  slots p := by
    unfold slotAfter
    cases hsource : g.source p with
    | none => simp [hexternal p hsource]
    | some j => simp [hfed p j hsource]
  outputs i := by simp [houtputs i]
  values i hi := absurd hi List.not_mem_nil
  closed i hi := absurd hi List.not_mem_nil

namespace Holds

variable {g : Dataflow ι π ν} {done : List ι} {t : Tables ι π ν} {i : ι}

/-- The slots of a ready node are filled, with the values the node is to be applied to. -/
theorem filled (hwired : g.Wired) (h : g.Holds done t) (hready : g.Ready done i) {p : π}
    (hp : p ∈ g.inputs i) :
    ∃ v, t.slots p = some v ∧ g.inputValue (g.evaluate done.length) p = some v := by
  have huntouched : ¬ ∃ j ∈ done, p ∈ g.inputs j := by
    rintro ⟨j, hj, hpj⟩
    exact hready.pending (hwired.disjoint i j p hp hpj ▸ hj)
  rw [h.slots p, slotAfter, if_neg huntouched, inputValue]
  cases hsource : g.source p with
  | none =>
      obtain ⟨v, hv⟩ := Option.isSome_iff_exists.mp (hready.externals p hp hsource)
      exact ⟨v, hv, hv⟩
  | some j =>
      have hj := hready.sources p hp j hsource
      obtain ⟨v, hv⟩ := Option.isSome_iff_exists.mp (h.values j hj)
      exact ⟨v, by simp [hj, hv], hv⟩

/-- A ready node finds its arguments in its slots. -/
theorem gather (hwired : g.Wired) (h : g.Holds done t) (hready : g.Ready done i) :
    ∃ vs, (g.inputs i).map t.slots = vs.map some ∧ g.arguments done.length i = some vs := by
  have hfilled : ∀ ps : List π, (∀ p ∈ ps, p ∈ g.inputs i) →
      ∃ vs : List ν, ps.map t.slots = vs.map some ∧
        ps.map (g.inputValue (g.evaluate done.length)) = vs.map some := by
    intro ps
    induction ps with
    | nil => intro _; exact ⟨[], rfl, rfl⟩
    | cons p ps ih =>
        intro hps
        obtain ⟨v, hslot, hvalue⟩ := h.filled hwired hready (hps p List.mem_cons_self)
        obtain ⟨vs, hslots, hvalues⟩ := ih fun q hq => hps q (List.mem_cons_of_mem p hq)
        exact ⟨v :: vs, by simp [hslot, hslots], by simp [hvalue, hvalues]⟩
  obtain ⟨vs, hslots, hvalues⟩ := hfilled _ fun p hp => hp
  exact ⟨vs, hslots, mapM_eq_some.mpr hvalues⟩

/-- The slot a node feeds is empty until the node fires. -/
theorem target_vacant (hwired : g.Wired) (h : g.Holds done t) (hpending : i ∉ done) {p : π}
    (htarget : g.target i = some p) : t.slots p = none := by
  rw [h.slots p, slotAfter, (hwired.target_iff i p).mp htarget]
  simp [hpending]

theorem output_vacant (h : g.Holds done t) (hpending : i ∉ done) : t.outputs i = none := by
  rw [h.outputs i]
  simp [hpending]

theorem evaluate_append {j : ι} (h : g.Holds done t) (hj : j ∈ done) :
    g.evaluate (done ++ [i]).length j = g.evaluate done.length j := by
  obtain ⟨v, hv⟩ := Option.isSome_iff_exists.mp (h.values j hj)
  rw [hv]
  exact g.evaluate_mono (by simp) hv

/-- **Firing a ready node keeps the invariant.** -/
theorem fire (hwired : g.Wired) (h : g.Holds done t) (hready : g.Ready done i) {vs : List ν}
    {v : ν} (hvs : g.arguments done.length i = some vs) (hv : g.apply i vs = some v) :
    g.Holds (done ++ [i]) (g.fire i v t) := by
  have hvalue : g.evaluate (done ++ [i]).length i = some v := by
    rw [List.length_append, List.length_singleton, evaluate_succ, hvs]
    exact hv
  have hlater : ∀ j ∈ done, (g.evaluate (done ++ [i]).length j).isSome := by
    intro j hj
    rw [h.evaluate_append hj]
    exact h.values j hj
  -- a slot changes in two ways only: node `i` reads it, or node `i` feeds it
  have hslot : ∀ p, g.source p ≠ some i →
      g.slotAfter (done ++ [i]) p = clear (g.inputs i) t.slots p := by
    intro p hp
    rw [clear, h.slots p]
    unfold slotAfter
    by_cases hread : p ∈ g.inputs i
    · rw [if_pos hread, if_pos ⟨i, by simp, hread⟩]
    · have hiff : (∃ j ∈ done ++ [i], p ∈ g.inputs j) ↔ ∃ j ∈ done, p ∈ g.inputs j := by
        simp only [List.mem_append, List.mem_singleton, or_and_right, exists_or, exists_eq_left,
          hread, or_false]
      rw [if_neg hread]
      simp only [hiff]
      cases hsource : g.source p with
      | none => rfl
      | some j =>
          have hne : j ≠ i := fun hji => hp (hji ▸ hsource)
          by_cases hj : j ∈ done
          · simp only [List.mem_append, hj, true_or, if_true, h.evaluate_append hj]
          · simp [hj, hne]
  refine ⟨?_, ?_, ?_, ?_⟩
  · intro p
    unfold Dataflow.fire
    by_cases hp : g.source p = some i
    · have hunread : ¬ ∃ j ∈ done ++ [i], p ∈ g.inputs j := by
        rintro ⟨j, hj, hpj⟩
        rcases List.mem_append.mp hj with hj | hj
        · exact hready.pending (h.closed j hj p hpj i hp)
        · rw [List.mem_singleton.mp hj] at hpj
          exact hready.pending (hready.sources p hpj i hp)
      rw [slotAfter, if_neg hunread, hp, (hwired.target_iff i p).mpr hp]
      simp only [Function.update_self, List.mem_append, List.mem_singleton, or_true, if_true,
        hvalue]
    · rw [hslot p hp]
      cases htarget : g.target i with
      | none => rfl
      | some q =>
          have hne : p ≠ q := by
            rintro rfl
            exact hp ((hwired.target_iff i p).mp htarget)
          simp [Function.update_of_ne hne]
  · intro j
    unfold Dataflow.fire
    by_cases hji : j = i
    · subst hji
      cases htarget : g.target j with
      | none =>
          simp only [Function.update_self, List.mem_append, List.mem_singleton, or_true,
            true_and, if_true, hvalue]
      | some q => simp [h.outputs j, htarget]
    · have hrest : (if j ∈ done ++ [i] ∧ g.target j = none then
            g.evaluate (done ++ [i]).length j else none) = t.outputs j := by
        rw [h.outputs j]
        by_cases hj : j ∈ done
        · simp only [List.mem_append, hj, true_or, true_and, h.evaluate_append hj]
        · simp [hj, hji]
      rw [hrest]
      cases g.target i with
      | none => simp [Function.update_of_ne hji]
      | some q => rfl
  · intro j hj
    rcases List.mem_append.mp hj with hj | hj
    · exact hlater j hj
    · rw [List.mem_singleton.mp hj, hvalue]
      rfl
  · intro j hj p hp k hk
    rcases List.mem_append.mp hj with hj | hj
    · exact List.mem_append_left _ (h.closed j hj p hp k hk)
    · rw [List.mem_singleton.mp hj] at hp
      exact List.mem_append_left _ (hready.sources p hp k hk)

/-- When every reader of a slot has fired, nothing is left in it. -/
theorem slot_empty (h : g.Holds done t) {p : π} (hi : i ∈ done) (hp : p ∈ g.inputs i) :
    t.slots p = none := by
  rw [h.slots p, slotAfter, if_pos ⟨i, hi, hp⟩]

/-- A node that feeds no slot has left its value among the outputs. -/
theorem output (h : g.Holds done t) (hi : i ∈ done) (htarget : g.target i = none) :
    t.outputs i = g.evaluate done.length i := by
  rw [h.outputs i, if_pos ⟨hi, htarget⟩]

end Holds

end Dataflow
