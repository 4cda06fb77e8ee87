/-
A graph of operations as a system of equations.

Evaluation says what a node yields by going through the graph.  The same values can be
described without going anywhere: they are those for which every node, applied to the
values of its inputs, yields its own.  In a graph that can be ordered there is no second
such assignment, and one exists as soon as no node fails on what it is given.
-/
import Un7z.Lib.Dataflow

namespace Dataflow

variable {ι π ν : Type} {g : Dataflow ι π ν} {value : ι → ν} {order : List ι} {i : ι}

/-- The equation of a node holds of these values. -/
def Solves (g : Dataflow ι π ν) (value : ι → ν) (i : ι) : Prop :=
  ∃ vs, (g.inputs i).mapM (g.inputValue fun j => some (value j)) = some vs ∧
    g.apply i vs = some (value i)

/-- In this order every node comes after those that feed it. -/
def Ordered (g : Dataflow ι π ν) (order : List ι) : Prop :=
  ∀ before i after, order = before ++ i :: after → g.Ready before i

/-- A list is mapped where every element has a value. -/
theorem exists_mapM {f : π → Option ν} {ps : List π} (h : ∀ p ∈ ps, (f p).isSome) :
    ∃ vs, ps.mapM f = some vs := by
  refine ⟨ps.filterMap f, mapM_eq_some.mpr ?_⟩
  induction ps with
  | nil => rfl
  | cons p ps ih =>
      obtain ⟨v, hv⟩ := Option.isSome_iff_exists.mp (h p List.mem_cons_self)
      rw [List.filterMap_cons, hv, List.map_cons, List.map_cons, hv,
        ih fun q hq => h q (List.mem_cons_of_mem p hq)]

/-- The induction along an order: what each node has when those before it have it. -/
theorem ordered_induction {P : ℕ → ι → Prop} (hmono : ∀ fuel i, P fuel i → P (fuel + 1) i)
    (hordered : g.Ordered order)
    (hstep : ∀ before i, i ∈ order → before.length < order.length → g.Ready before i →
      (∀ j ∈ before, P before.length j) → P (before.length + 1) i) :
    ∀ i ∈ order, P order.length i := by
  have hall : ∀ after before, order = before ++ after → (∀ j ∈ before, P before.length j) →
      ∀ i ∈ order, P order.length i := by
    intro after
    induction after with
    | nil =>
        intro before hsplit hbefore
        rw [List.append_nil] at hsplit
        rwa [hsplit]
    | cons i rest ih =>
        intro before hsplit hbefore
        refine ih (before ++ [i]) (by rw [List.append_assoc]; exact hsplit) fun j hj => ?_
        rw [List.length_append, List.length_singleton]
        rcases List.mem_append.mp hj with hold | hnew
        · exact hmono _ _ (hbefore j hold)
        · obtain rfl := List.mem_singleton.mp hnew
          have hmem : j ∈ order := hsplit ▸ List.mem_append_right _ List.mem_cons_self
          have hlt : before.length < order.length := by
            rw [hsplit, List.length_append, List.length_cons]
            omega
          exact hstep before j hmem hlt (hordered before j rest hsplit) hbefore
  exact hall order [] rfl fun _ h => absurd h List.not_mem_nil

/-- Values that solve all equations are those of the evaluation. -/
theorem evaluate_of_solves (hordered : g.Ordered order) (h : ∀ i ∈ order, g.Solves value i) :
    ∀ i ∈ order, g.evaluate order.length i = some (value i) := by
  refine @ordered_induction ι π ν g order (fun fuel i => g.evaluate fuel i = some (value i))
    (fun fuel i hi => g.evaluate_succ_mono fuel i _ hi) hordered ?_
  intro before i hi _ hready hbefore
  obtain ⟨vs, hvs, happly⟩ := h i hi
  rw [evaluate_succ, Option.bind_eq_some_iff]
  refine ⟨vs, mapM_mono (fun p hp v hv => ?_) hvs, happly⟩
  unfold inputValue at hv ⊢
  cases hsource : g.source p with
  | none =>
      rw [hsource] at hv
      exact hv
  | some j =>
      rw [hsource] at hv
      exact (hbefore j (hready.sources p hp j hsource)).trans hv

/-- Every node has a value where no node fails on the values of its inputs. -/
theorem exists_evaluate (hordered : g.Ordered order)
    (h : ∀ i ∈ order, ∀ fuel ≤ order.length, ∀ vs, g.arguments fuel i = some vs →
      (g.apply i vs).isSome) : ∀ i ∈ order, ∃ v, g.evaluate order.length i = some v := by
  refine @ordered_induction ι π ν g order (fun fuel i => ∃ v, g.evaluate fuel i = some v)
    (fun fuel i hi => hi.imp fun v hv => g.evaluate_succ_mono fuel i v hv) hordered ?_
  intro before i hi hlt hready hbefore
  obtain ⟨vs, hvs⟩ : ∃ vs, g.arguments before.length i = some vs := by
    refine exists_mapM fun p hp => ?_
    unfold inputValue
    cases hsource : g.source p with
    | none => exact hready.externals p hp hsource
    | some j =>
        obtain ⟨v, hv⟩ := hbefore j (hready.sources p hp j hsource)
        exact Option.isSome_iff_exists.mpr ⟨v, hv⟩
  obtain ⟨v, hv⟩ := Option.isSome_iff_exists.mp (h i hi _ (Nat.le_of_lt hlt) vs hvs)
  exact ⟨v, Option.bind_eq_some_iff.mpr ⟨vs, hvs, hv⟩⟩

/-- The arguments of a node, read off from values that agree with the evaluation. -/
theorem mapM_of_arguments {fuel : ℕ} {vs : List ν}
    (hvalue : ∀ j v, g.evaluate fuel j = some v → value j = v) (h : g.arguments fuel i = some vs) :
    (g.inputs i).mapM (g.inputValue fun j => some (value j)) = some vs :=
  mapM_mono (fun _ _ _ hv => inputValue_mono (fun j w hw => congrArg some (hvalue j w hw)) hv) h

/-- The values of the evaluation solve the equation of every node that has one. -/
theorem solves_of_evaluate {fuel : ℕ} (hvalue : ∀ j v, g.evaluate fuel j = some v → value j = v)
    {v : ν} (h : g.evaluate fuel i = some v) : g.Solves value i := by
  cases fuel with
  | zero => cases h
  | succ fuel =>
      have hsame := hvalue i v h
      rw [evaluate_succ, Option.bind_eq_some_iff] at h
      obtain ⟨vs, hvs, happly⟩ := h
      have hlater := g.arguments_mono (Nat.le_succ fuel) hvs
      exact ⟨vs, mapM_of_arguments hvalue hlater, hsame ▸ happly⟩

end Dataflow
