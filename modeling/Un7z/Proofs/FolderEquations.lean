/-
A folder as a system of equations.

`decode_folder` takes the coders of a folder one after another.  What comes out can be said without
any order: it is the value at the root of the one assignment of bytes to the coders in which each
coder decodes the values of its inputs to its own.  So to know what a folder of encoded bytes
decodes to it is enough to know it of each coder, whatever their graph.
-/
import Un7z.Lib.DataflowEquations
import Un7z.Proofs.FolderExecution

namespace Un7z

namespace Execute

open Folder

variable {folder : Folder} {context : Context} {value : Nat → Bytes} {i : Nat}

/-- A coder of the graph is applied where it decodes. -/
theorem apply_eq_some {inputs : List Bytes} {output : Bytes} :
    (folder.graph context).apply i inputs = some output ↔
      ∃ coder expected, folder.coders[i]? = some coder ∧
        folder.unpackSizes[coder.outputStart]? = some expected ∧
          (folder.decode context coder expected inputs).result = .ok output := by
  simp only [Folder.graph, Option.bind_eq_bind, Option.bind_eq_some_iff]
  constructor
  · rintro ⟨coder, hcoder, expected, hexpected, hdecode⟩
    refine ⟨coder, expected, hcoder, hexpected, ?_⟩
    cases hresult : (folder.decode context coder expected inputs).result with
    | error e =>
        rw [hresult] at hdecode
        cases hdecode
    | ok bytes =>
        rw [hresult] at hdecode
        exact congrArg Except.ok (Option.some.inj hdecode)
  · rintro ⟨coder, expected, hcoder, hexpected, hdecode⟩
    refine ⟨coder, hcoder, expected, hexpected, ?_⟩
    rw [hdecode]
    rfl

/-- Every coder decodes the values of its inputs to its own value. -/
def Solution (folder : Folder) (context : Context) (value : Nat → Bytes) : Prop :=
  ∀ i coder, folder.coders[i]? = some coder → ∃ expected inputs,
    folder.unpackSizes[coder.outputStart]? = some expected ∧
      coder.inputPorts.mapM ((folder.graph context).inputValue fun j => some (value j)) = some inputs ∧
        (folder.decode context coder expected inputs).result = .ok (value i)

/-- The coders' equations are those of the graph's nodes. -/
theorem solution_iff : Solution folder context value ↔
    ∀ i < folder.coders.length, (folder.graph context).Solves value i := by
  constructor
  · intro h i hi
    have hcoder := List.getElem?_eq_getElem hi
    obtain ⟨expected, inputs, hexpected, hinputs, hdecode⟩ := h i _ hcoder
    refine ⟨inputs, ?_, apply_eq_some.mpr ⟨_, expected, hcoder, hexpected, hdecode⟩⟩
    rw [Registered.inputs_eq, hcoder]
    exact hinputs
  · intro h i coder hcoder
    obtain ⟨inputs, hinputs, happly⟩ := h i (List.getElem?_eq_some_iff.mp hcoder).1
    obtain ⟨coder', expected, hcoder', hexpected, hdecode⟩ := apply_eq_some.mp happly
    obtain rfl := Option.some.inj (hcoder.symm.trans hcoder')
    rw [Registered.inputs_eq, hcoder] at hinputs
    exact ⟨expected, inputs, hexpected, hinputs, hdecode⟩

/-- A schedule of the coders is an order of the graph. -/
theorem ordered_of_schedule (h : folder.Registered)
    (hbacked : folder.Backed context.streams context.archiveBytes) {order : List Nat}
    (hschedule : folder.Schedule order) : (folder.graph context).Ordered order :=
  fun _ _ _ hsplit => ready_of_schedule h hbacked hschedule hsplit

theorem mem_schedule {order : List Nat} (hschedule : folder.Schedule order) :
    i ∈ order ↔ i < folder.coders.length :=
  hschedule.perm.mem_iff.trans List.mem_range

theorem length_schedule {order : List Nat} (hschedule : folder.Schedule order) :
    order.length = folder.coders.length := by
  rw [hschedule.perm.length_eq, List.length_range]

theorem evaluate_eq_root (h : folder.Registered) : folder.evaluate context
    = (folder.graph context).evaluate folder.coders.length folder.rootOutputIndex := by
  rw [Folder.evaluate, h.coderOfOutput_eq h.root_lt]
  rfl

/-- Where no coder fails, each decodes what it is given. -/
theorem apply_isSome (h : folder.Registered) (hnever : ∀ error, ¬ folder.CoderFails context error)
    (hi : i < folder.coders.length) {fuel : Nat} (hfuel : fuel ≤ folder.coders.length)
    {inputs : List Bytes} (hinputs : (folder.graph context).arguments fuel i = some inputs) :
    ((folder.graph context).apply i inputs).isSome := by
  have hcoder := List.getElem?_eq_getElem hi
  have hsize : i < folder.unpackSizes.length := by rwa [h.sizes, h.outputCount_eq]
  have hexpected : folder.unpackSizes[(folder.coders[i]).outputStart]?
      = some folder.unpackSizes[i] := by
    rw [h.outputStart_eq hcoder]
    exact List.getElem?_eq_getElem hsize
  have hlater := (folder.graph context).arguments_mono hfuel hinputs
  cases hdecode : (folder.decode context folder.coders[i] folder.unpackSizes[i] inputs).result with
  | error e => exact absurd ⟨i, _, _, inputs, hcoder, hexpected, hlater, hdecode⟩ (hnever e)
  | ok output =>
      exact Option.isSome_iff_exists.mpr
        ⟨output, apply_eq_some.mpr ⟨_, _, hcoder, hexpected, hdecode⟩⟩

/-- Where no coder fails, the values of the evaluation are a solution. -/
theorem solution_evaluate (h : folder.Registered)
    (hbacked : folder.Backed context.streams context.archiveBytes) {order : List Nat}
    (hschedule : folder.Schedule order) (hnever : ∀ error, ¬ folder.CoderFails context error) :
    Solution folder context fun i =>
      ((folder.graph context).evaluate folder.coders.length i).getD [] := by
  have hvalues := Dataflow.exists_evaluate (ordered_of_schedule h hbacked hschedule)
    fun i hi fuel hfuel inputs hinputs =>
      apply_isSome h hnever ((mem_schedule hschedule).mp hi)
        (length_schedule hschedule ▸ hfuel) hinputs
  rw [length_schedule hschedule] at hvalues
  refine solution_iff.mpr fun i hi => ?_
  obtain ⟨v, hv⟩ := hvalues i ((mem_schedule hschedule).mpr hi)
  exact Dataflow.solves_of_evaluate (fun j w hw => by rw [hw]; rfl) hv

namespace Solution

/-- A solution is the evaluation, so there is at most one. -/
theorem evaluate (hsolution : Solution folder context value) (h : folder.Registered)
    (hbacked : folder.Backed context.streams context.archiveBytes) {order : List Nat}
    (hschedule : folder.Schedule order) (hi : i < folder.coders.length) :
    (folder.graph context).evaluate folder.coders.length i = some (value i) := by
  have hvalues := Dataflow.evaluate_of_solves (ordered_of_schedule h hbacked hschedule)
    fun j hj => solution_iff.mp hsolution j ((mem_schedule hschedule).mp hj)
  rw [length_schedule hschedule] at hvalues
  exact hvalues i ((mem_schedule hschedule).mpr hi)

/-- Where there is a solution, no coder fails. -/
theorem not_coderFails (hsolution : Solution folder context value) (h : folder.Registered)
    (hbacked : folder.Backed context.streams context.archiveBytes) {order : List Nat}
    (hschedule : folder.Schedule order) (error : Error) : ¬ folder.CoderFails context error := by
  rintro ⟨i, coder, expected, inputs, hcoder, hexpected, harguments, herror⟩
  have hi := (List.getElem?_eq_some_iff.mp hcoder).1
  have hsucc := hsolution.evaluate h hbacked hschedule hi
  have hlater := (folder.graph context).evaluate_succ_mono _ i _ hsucc
  rw [Dataflow.evaluate_succ, harguments, Option.bind_some] at hlater
  obtain ⟨_, _, hfound, hsize, hdecode⟩ := apply_eq_some.mp hlater
  obtain rfl := Option.some.inj (hcoder.symm.trans hfound)
  obtain rfl := Option.some.inj (hexpected.symm.trans hsize)
  rw [herror] at hdecode
  cases hdecode

end Solution

end Execute

end Un7z
