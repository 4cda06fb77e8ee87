/-
Rescaling keeps the context.

The array of the states goes through three phases.  The found state changes places with
those before it until it is in front.  Then every other state is halved where it is and
sorted in: what lies before it has been halved and is sorted already, and the found state
stays in front because its frequency is above all others.  The states without a frequency
are at the end then, and go.  Each loop has a lemma that says what it makes of the array as
a list; what a loop does to the heap is in the steps of `Shows`.
-/
import Mathlib.Algebra.GroupWithZero.Nat
import Mathlib.Data.List.Induction
import Un7z.Lib.Cursor
import Un7z.Proofs.AllocatorRuns
import Un7z.Proofs.PpmdStates

namespace Un7z

namespace Ppmd

open ByteMemory Heap

/-! ### The states as a list -/

/-- No state has more than one before it. -/
def Descending (states : List StateRef) : Prop :=
  states.Pairwise fun s t => t.frequency ≤ s.frequency

/-- The sum of the frequencies. -/
def total (states : List StateRef) : Nat := (states.map fun s => s.frequency.toNat).sum

/-- A state with half its frequency. -/
def StateRef.halve (adder : Nat) (s : StateRef) : StateRef :=
  { s with frequency := UInt8.ofNat ((s.frequency.toNat + adder) / 2) }

theorem total_append (left right : List StateRef) : total (left ++ right) = total left + total right := by
  rw [total, List.map_append, List.sum_append]
  rfl

theorem total_perm {left right : List StateRef} (h : left.Perm right) : total left = total right :=
  (h.map _).sum_eq

theorem total_le {states : List StateRef} {bound : Nat} (h : ∀ s ∈ states, s.frequency.toNat ≤ bound) :
    total states ≤ bound * states.length := by
  induction states with
  | nil => exact Nat.zero_le _
  | cons s rest ih =>
      obtain ⟨hs, hrest⟩ := List.forall_mem_cons.mp h
      have htotal : total (s :: rest) = s.frequency.toNat + total rest := List.sum_cons
      have hle := ih hrest
      rw [htotal, List.length_cons, Nat.mul_succ]
      omega

/-- The states without a frequency are behind all others. -/
theorem Descending.split {states : List StateRef} (h : Descending states) :
    states = states.filter (·.frequency ≠ 0) ++ states.filter (·.frequency = 0) := by
  induction states with
  | nil => rfl
  | cons s rest ih =>
      obtain ⟨hless, hrest⟩ := List.pairwise_cons.mp h
      by_cases hzero : s.frequency = 0
      · have hall : ∀ t ∈ s :: rest, t.frequency = 0 := by
          refine List.forall_mem_cons.mpr ⟨hzero, fun t ht => ?_⟩
          have hle := hless t ht
          rw [hzero] at hle
          exact UInt8.le_zero_iff.mp hle
        rw [List.filter_eq_nil_iff.mpr fun t ht => by simpa using hall t ht,
          List.filter_eq_self.mpr fun t ht => by simpa using hall t ht]
        rfl
      · rw [List.filter_cons_of_pos (by simpa using hzero), List.filter_cons_of_neg (by simpa using hzero),
          List.cons_append, ← ih hrest]

/-- A state is put behind those that have as much, and before those that have less. -/
theorem Descending.insert {kept moved : List StateRef} {r : StateRef} (h : Descending (kept ++ moved))
    (hmoved : ∀ s ∈ moved, s.frequency < r.frequency)
    (hkept : ∀ s, kept.getLast? = some s → r.frequency ≤ s.frequency) :
    Descending (kept ++ r :: moved) := by
  obtain ⟨hleft, hright, hcross⟩ := List.pairwise_append.mp h
  refine List.pairwise_append.mpr ⟨hleft, List.pairwise_cons.mpr
    ⟨fun s hs => UInt8.le_of_lt (hmoved s hs), hright⟩, fun s hs t ht => ?_⟩
  rcases List.mem_cons.mp ht with rfl | ht
  · obtain ⟨init, last, rfl⟩ := (List.eq_nil_or_concat' kept).resolve_left (List.ne_nil_of_mem hs)
    have hlast := hkept last (by rw [List.getLast?_append, List.getLast?_singleton]; rfl)
    rcases List.mem_append.mp hs with hs | hs
    · exact UInt8.le_trans hlast ((List.pairwise_append.mp hleft).2.2 s hs last
        (List.mem_singleton_self last))
    · obtain rfl := List.mem_singleton.mp hs
      exact hlast
  · exact hcross s hs t ht

theorem halved_eq {adder : Nat} {s : StateRef} (h : s.frequency.toNat + adder < 256) :
    halved adder s.frequency = .ok (s.halve adder).frequency := by
  rw [halved, checkedAdd_of_lt h, orFormatError_some, except_ok_bind, Nat.shiftRight_eq_div_pow]
  rfl

section inserting

variable {place : Place} {m : Bytes} {count summ : Nat} {left right : List StateRef}
  {b hole saved r : StateRef}

/-- Room is made for a state whose frequency is above that of the one before it: those with less
move back by one place. -/
theorem shiftStates_run {fuel : Nat} (h : Shows place m count summ (left ++ b :: hole :: right))
    (hless : b.frequency < saved.frequency) (hfuel : left.length < fuel) :
    ∃ m' kept moved free, shiftStates (place.at 0) saved fuel (place.at (left.length + 1)) ⟨m⟩
        = .ok (place.at kept.length, ⟨m'⟩) ∧
      Shows place m' count summ (kept ++ free :: (moved ++ right)) ∧ left ++ [b] = kept ++ moved ∧
      (∀ s ∈ moved, s.frequency < saved.frequency) ∧
      ∀ s, kept.getLast? = some s → saved.frequency ≤ s.frequency := by
  induction left using List.reverseRecOn generalizing fuel m b hole right with
  | nil =>
      obtain ⟨fuel, rfl⟩ : ∃ less, fuel = less + 1 := ⟨fuel - 1, by omega⟩
      obtain ⟨m', hcopy, hshows⟩ := h.copyFrom
      refine ⟨m', [], [b], b, ?_, hshows, rfl, List.forall_mem_singleton.mpr hless, nofun⟩
      rw [shiftStates, lift_ok (Shows.decrement place ([] : List StateRef).length), step_ok hcopy,
        if_pos (show place.at ([] : List StateRef).length = place.at 0 from rfl)]
      rfl
  | append_singleton left b' ih =>
      obtain ⟨fuel, rfl⟩ : ∃ less, fuel = less + 1 := ⟨fuel - 1, by omega⟩
      obtain ⟨m₁, hcopy, hshows⟩ := h.copyFrom
      have hlength : (left ++ [b']).length = left.length + 1 := by rw [List.length_append]; rfl
      rw [hlength] at hfuel
      rw [hlength] at hcopy ⊢
      have hnotFirst : ¬ place.at (left.length + 1) = place.at 0 := by
        rw [Place.at, Place.at]
        omega
      rw [← Shows.append_cons] at hshows
      rw [shiftStates, lift_ok (Shows.decrement place _), step_ok hcopy, if_neg hnotFirst,
        lift_ok (Shows.decrement place _), read_bind hshows.frequency]
      by_cases hstop : saved.frequency ≤ b'.frequency
      · rw [if_pos hstop]
        rw [Shows.append_cons] at hshows
        refine ⟨m₁, left ++ [b'], [b], b, by rw [hlength]; rfl, hshows, rfl,
          List.forall_mem_singleton.mpr hless, fun s hs => ?_⟩
        rw [List.getLast?_append, List.getLast?_singleton] at hs
        obtain rfl := Option.some.inj hs
        exact hstop
      · rw [if_neg hstop]
        obtain ⟨m', kept, moved, free, hrun, hshows', hsplit, hmoved, hkept⟩ :=
          ih hshows (UInt8.not_le.mp hstop) (show left.length < fuel by omega)
        refine ⟨m', kept, moved ++ [b], free, hrun, ?_, ?_, fun s hs => ?_, hkept⟩
        · rw [List.append_assoc]
          exact hshows'
        · rw [hsplit, List.append_assoc]
        · rcases List.mem_append.mp hs with hs | hs
          · exact hmoved s hs
          · obtain rfl := List.mem_singleton.mp hs
            exact hless

/-- A state is sorted in: those that move behind it have less than it has, and the one that stays
before it has as much. -/
theorem insertState_run {oldCount : Nat} (h : Shows place m count summ (left ++ b :: r :: right))
    (hsuccessor : r.successor < 2 ^ 32) (hcount : left.length < oldCount) :
    ∃ m' kept moved, insertState (place.at 0) (place.at (left.length + 1)) oldCount ⟨m⟩
        = .ok ((), ⟨m'⟩) ∧
      Shows place m' count summ (kept ++ r :: (moved ++ right)) ∧ left ++ [b] = kept ++ moved ∧
      (∀ s ∈ moved, s.frequency < r.frequency) ∧
      ∀ s, kept.getLast? = some s → r.frequency ≤ s.frequency := by
  have hbefore := h.frequency
  have hbehind := (Shows.append_cons left b (r :: right) ▸ h : Shows place m count summ
    ((left ++ [b]) ++ r :: right))
  have hlength : (left ++ [b]).length = left.length + 1 := by rw [List.length_append]; rfl
  have hfrequency := hbehind.frequency
  have hsaved := hbehind.fromState
  rw [hlength] at hfrequency hsaved
  rw [insertState, lift_ok (Shows.decrement place _), read_bind hfrequency, read_bind hbefore]
  by_cases hmore : r.frequency > b.frequency
  · rw [if_pos hmore, read_bind hsaved]
    obtain ⟨m₁, kept, moved, free, hrun, hshows, hsplit, hmoved, hkept⟩ :=
      shiftStates_run h hmore hcount
    obtain ⟨m', hset, hshows'⟩ := hshows.setRef hsuccessor
    exact ⟨m', kept, moved, (step_ok hrun).trans hset, hshows', hsplit, hmoved, hkept⟩
  · rw [if_neg hmore]
    refine ⟨m, left ++ [b], [], rfl, hbehind, (List.append_nil _).symm, nofun, fun s hs => ?_⟩
    rw [List.getLast?_append, List.getLast?_singleton] at hs
    obtain rfl := Option.some.inj hs
    exact UInt8.not_lt.mp hmore

/-- One state is halved and sorted in. -/
theorem rescaleState_run {oldCount adder escape : Nat}
    (h : Shows place m count summ (left ++ b :: r :: right)) (hadder : r.frequency.toNat + adder < 256)
    (hescape : r.frequency.toNat ≤ escape)
    (hsumm : summ + (r.halve adder).frequency.toNat < 2 ^ 16) (hsuccessor : r.successor < 2 ^ 32)
    (hcount : left.length < oldCount) :
    ∃ m' kept moved, rescaleState place.context (place.at 0) oldCount adder (place.at left.length)
        escape ⟨m⟩ = .ok ((place.at (left.length + 1), escape - r.frequency.toNat), ⟨m'⟩) ∧
      Shows place m' count (summ + (r.halve adder).frequency.toNat)
        (kept ++ r.halve adder :: (moved ++ right)) ∧
      left ++ [b] = kept ++ moved ∧ (∀ s ∈ moved, s.frequency < (r.halve adder).frequency) ∧
      ∀ s, kept.getLast? = some s → (r.halve adder).frequency ≤ s.frequency := by
  have hnext := h.increment left.length (by
    rw [List.length_append, List.length_cons]
    omega)
  have hlength : (left ++ [b]).length = left.length + 1 := by rw [List.length_append]; rfl
  rw [Shows.append_cons] at h
  have hfrequency := h.frequency
  obtain ⟨m₁, hset, h₁⟩ := h.setFrequency (r.halve adder).frequency
  obtain ⟨m₂, hincrement, h₂⟩ := h₁.incrementSumm hsumm
  rw [← Shows.append_cons] at h₂
  obtain ⟨m', kept, moved, hinsert, h', hsplit, hmoved, hkept⟩ :=
    insertState_run (r := r.halve adder) h₂ hsuccessor hcount
  rw [hlength] at hfrequency hset
  refine ⟨m', kept, moved, ?_, h', hsplit, hmoved, hkept⟩
  rw [rescaleState, lift_ok hnext, read_bind hfrequency, lift_ok (sub_of_le hescape _),
    lift_ok (halved_eq hadder), step_ok hset, step_ok hincrement, step_ok hinsert]
  rfl

end inserting

/-! ### The loops of the model -/

/-- The model with another memory. -/
def Model.withMemory (model : Model) (m : Bytes) : Model :=
  { model with arena := { model.arena with heap := ⟨m⟩ } }

section loops

variable {place : Place} {m m' : Bytes} {count summ : Nat} {left right done todo : List StateRef}
  {b r found : StateRef} {model : Model} {α β : Type}

/-- What reads or writes the heap is out of the way. -/
theorem onStates_bind {p : HeapM α} {f : α → ModelM β} {a : α} (h : p ⟨m⟩ = .ok (a, ⟨m'⟩)) :
    ((onStates p >>= f) (model.withMemory m)).result = (f a (model.withMemory m')).result := by
  refine Cursor.result_bind_ok ?_
  have hrun : onHeap p (model.withMemory m).arena = .ok (a, (model.withMemory m').arena) := by
    show ((p ⟨m⟩) >>= fun out => _) = _
    rw [h]
    rfl
  show ((ofExcept (onHeap p (model.withMemory m).arena)) >>= fun out => _).result = _
  rw [hrun]
  rfl

/-- What takes the allocator and the heap is out of the way. -/
theorem onArena_bind {p : ArenaM α} {f : α → ModelM β} {a : α} {arena : Arena}
    (h : p model.arena = .ok (a, arena)) :
    ((onArena p >>= f) model).result = (f a { model with arena }).result := by
  refine Cursor.result_bind_ok ?_
  show ((ofExcept (p model.arena)) >>= fun out => _).result = _
  rw [h]
  rfl

theorem onStates_read_bind {f : Heap → Except Error α} {g : α → ModelM β} {a : α}
    (h : f ⟨m⟩ = .ok a) :
    ((onStates (read f) >>= g) (model.withMemory m)).result = (g a (model.withMemory m)).result :=
  onStates_bind (by rw [Heap.read, h]; rfl)

theorem ofExcept_bind {x : Except Error α} {g : α → ModelM β} {a : α} (h : x = .ok a) :
    ((liftM (ofExcept x) >>= g) model).result = (g a model).result :=
  Cursor.result_lift_bind ((result_ofExcept x).trans h)

theorem get_bind {g : Model → ModelM β} : ((get >>= g) model).result = (g model model).result :=
  Cursor.result_bind_ok rfl

theorem checkpoint_bind {g : Unit → ModelM β} (units : Nat) :
    ((liftM (checkpoint units) >>= g) model).result = (g () model).result :=
  Cursor.result_lift_bind (result_checkpoint units)

/-- The found state changes places with one after the other of those before it. -/
theorem moveToFront_run {fuel oldCount moved : Nat}
    (h : Shows place m count summ (left ++ found :: right))
    (hcount : moved + left.length < oldCount) (hsmall : oldCount < 2 ^ 32) (hfuel : left.length < fuel) :
    ∃ m', (moveToFront (place.at 0) oldCount fuel (place.at left.length) moved
        (model.withMemory m)).result = .ok (place.at 0, model.withMemory m') ∧
      Shows place m' count summ (found :: (left ++ right)) := by
  induction left using List.reverseRecOn generalizing fuel m moved right with
  | nil =>
      obtain ⟨fuel, rfl⟩ : ∃ less, fuel = less + 1 := ⟨fuel - 1, by omega⟩
      refine ⟨m, ?_, h⟩
      rw [moveToFront, if_neg (not_not_intro (show place.at ([] : List StateRef).length = place.at 0
        from rfl))]
      rfl
  | append_singleton left b ih =>
      obtain ⟨fuel, rfl⟩ : ∃ less, fuel = less + 1 := ⟨fuel - 1, by omega⟩
      have hlength : (left ++ [b]).length = left.length + 1 := by rw [List.length_append]; rfl
      rw [hlength] at hcount hfuel ⊢
      have hnotFirst : place.at (left.length + 1) ≠ place.at 0 := by
        rw [Place.at, Place.at]
        omega
      rw [← Shows.append_cons] at h
      obtain ⟨m₁, hswap, h₁⟩ := h.swap
      obtain ⟨m', hrun, h'⟩ := @ih m₁ (b :: right) fuel (moved + 1) h₁ (by omega) (by omega)
      refine ⟨m', ?_, ?_⟩
      · rw [moveToFront, if_pos hnotFirst, checkpoint_bind, ofExcept_bind (add_of_lt (by omega) _),
          if_neg (by omega), ofExcept_bind (Shows.decrement place _), onStates_bind hswap]
        exact hrun
      · rw [List.append_assoc]
        exact h'

/-- What the loop over the other states needs of one of them. -/
structure Halvable (adder : Nat) (found s : StateRef) : Prop where
  fits : s.frequency.toNat + adder < 256
  successor : s.successor < 2 ^ 32
  less : (s.halve adder).frequency < found.frequency

/-- The states that are halved stay in order behind the found one. -/
theorem rescaleStates_run {oldCount adder escape : Nat} {rest : List StateRef}
    (h : Shows place m count summ (left ++ b :: todo)) (horder : Descending (left ++ [b]))
    (hfound : left ++ [b] = found :: rest) (htodo : ∀ s ∈ todo, Halvable adder found s)
    (hescape : total todo ≤ escape) (hsumm : summ + total (todo.map (StateRef.halve adder)) < 2 ^ 16)
    (hcount : left.length + todo.length < oldCount) :
    ∃ m' rest', (rescaleStates place.context (place.at 0) oldCount adder todo.length
        (place.at left.length) escape (model.withMemory m)).result
          = .ok ((place.at (left.length + todo.length), escape - total todo), model.withMemory m') ∧
      Shows place m' count (summ + total (todo.map (StateRef.halve adder))) (found :: rest') ∧
      Descending (found :: rest') ∧
      rest'.Perm (rest ++ todo.map (StateRef.halve adder)) := by
  induction todo generalizing left b m summ escape rest with
  | nil =>
      rw [hfound] at h horder
      refine ⟨m, rest, rfl, h, horder, ?_⟩
      rw [List.map_nil, List.append_nil]
  | cons s todo ih =>
      obtain ⟨hs, htodo'⟩ := List.forall_mem_cons.mp htodo
      have htotal : total (s :: todo) = s.frequency.toNat + total todo := List.sum_cons
      have htotal' : total ((s :: todo).map (StateRef.halve adder))
          = (s.halve adder).frequency.toNat + total (todo.map (StateRef.halve adder)) := List.sum_cons
      rw [htotal] at hescape
      rw [htotal'] at hsumm ⊢
      rw [List.length_cons] at hcount
      obtain ⟨m₁, kept, moved, hrun, h₁, hsplit, hmoved, hkept⟩ :=
        rescaleState_run h hs.fits (show s.frequency.toNat ≤ escape by omega)
          (show summ + (s.halve adder).frequency.toNat < 2 ^ 16 by omega) hs.successor
          (show left.length < oldCount by omega)
      -- The found state has more than the one that is sorted in, so it does not move.
      obtain ⟨kept', rfl, hrest⟩ : ∃ kept', kept = found :: kept' ∧ rest = kept' ++ moved := by
        rw [hfound] at hsplit
        cases kept with
        | nil =>
            obtain rfl : found :: rest = moved := hsplit
            have hless := hmoved found List.mem_cons_self
            exact absurd (UInt8.lt_trans hless hs.less) (UInt8.lt_irrefl _)
        | cons first kept' =>
            obtain ⟨rfl, hrest⟩ := List.cons.inj hsplit
            exact ⟨kept', rfl, hrest⟩
      have horder' : Descending ((found :: kept') ++ s.halve adder :: moved) :=
        (hsplit ▸ horder : Descending ((found :: kept') ++ moved)).insert hmoved hkept
      obtain ⟨left', b', hlast⟩ := (List.eq_nil_or_concat' ((found :: kept')
        ++ s.halve adder :: moved)).resolve_left (List.cons_ne_nil _ _)
      have hlength : left'.length = left.length + 1 := by
        have hnew := congrArg List.length hlast
        have hold := congrArg List.length hsplit
        simp only [List.length_append, List.length_cons, List.length_nil] at hnew hold
        omega
      have h₂ : Shows place m₁ count (summ + (s.halve adder).frequency.toNat)
          (left' ++ b' :: todo) := by
        rw [Shows.append_cons, ← hlast, List.append_assoc]
        exact h₁
      obtain ⟨m', rest', hrun', h', horder'', hperm⟩ := @ih m₁ _ left' b' _
        (kept' ++ s.halve adder :: moved) h₂ (hlast ▸ horder') hlast.symm htodo'
        (show total todo ≤ escape - s.frequency.toNat by omega) (by omega) (by omega)
      refine ⟨m', rest', ?_, ?_, horder'', ?_⟩
      · rw [List.length_cons, rescaleStates, checkpoint_bind, onStates_bind hrun]
        dsimp only
        rw [← hlength, hrun', hlength, htotal, Nat.sub_sub, Nat.add_right_comm, Nat.add_assoc]
      · rw [← Nat.add_assoc]
        exact h'
      · refine hperm.trans ?_
        rw [hrest, List.map_cons, List.append_assoc, List.append_assoc]
        refine List.Perm.append_left kept' ?_
        exact List.perm_middle.symm

/-- The states without a frequency are counted from the end. -/
theorem countZeros_run {fuel oldCount zeroCount : Nat} {zeros : List StateRef}
    (h : Shows place m count summ (left ++ b :: (zeros ++ right))) (hb : b.frequency ≠ 0)
    (hzeros : ∀ s ∈ zeros, s.frequency = 0) (hcount : zeroCount + zeros.length < oldCount)
    (hsmall : oldCount < 2 ^ 32) (hfuel : zeros.length < fuel) :
    countZeros oldCount fuel (place.at (left.length + zeros.length)) zeroCount ⟨m⟩
      = .ok (zeroCount + zeros.length, ⟨m⟩) := by
  induction zeros using List.reverseRecOn generalizing fuel zeroCount right with
  | nil =>
      obtain ⟨fuel, rfl⟩ : ∃ less, fuel = less + 1 := ⟨fuel - 1, by omega⟩
      rw [countZeros, read_bind (show State.frequency (place.at (left.length
        + ([] : List StateRef).length)) ⟨m⟩ = _ from h.frequency), if_neg hb]
      rfl
  | append_singleton zeros z ih =>
      obtain ⟨fuel, rfl⟩ : ∃ less, fuel = less + 1 := ⟨fuel - 1, by omega⟩
      have hlength : (zeros ++ [z]).length = zeros.length + 1 := by rw [List.length_append]; rfl
      have hlast : Shows place m count summ ((left ++ b :: zeros) ++ z :: right) := by
        simpa only [List.append_assoc, List.cons_append, List.nil_append] using h
      have hfrequency := hlast.frequency
      have hz := hzeros z (List.mem_append_right _ (List.mem_singleton_self z))
      rw [List.length_append, List.length_cons] at hfrequency
      rw [hlength] at hcount hfuel ⊢
      rw [List.append_assoc] at h
      rw [countZeros, read_bind hfrequency, if_pos hz, lift_ok (add_of_lt (by omega) _),
        if_neg (by omega), ← Nat.add_assoc, lift_ok (Shows.decrement place _),
        @ih _ fuel (zeroCount + 1) h (fun s hs => hzeros s (List.mem_append_left _ hs)) (by omega)
          (by omega)]
      congr 2
      omega

end loops

/-! ### Between two operations of the allocator -/

/-- The block of so many states, two of them in a unit. -/
def statesBlock (base size : Nat) : Nat × Nat := (base, 12 * classUnits (classOf ((size + 1) / 2 - 1)))

theorem statesBlock_fits {base size : Nat} (hsize : size ≤ 256) : 6 * size ≤ (statesBlock base size).2 := by
  have hunits := classOf_units ((size + 1) / 2 - 1) (by omega)
  show 6 * size ≤ 12 * classUnits (classOf ((size + 1) / 2 - 1))
  omega

section blocks

variable {place : Place} {m : Bytes} {count summ : Nat} {states : List StateRef} {model : Model}
  {free others : List (Nat × Nat)}

/-- A place of a context in the heap of a model: its states are a block of their own, and so is the
context. -/
structure Place.Owned (place : Place) (model : Model) (free others : List (Nat × Nat)) : Prop where
  memory : place.memory = model.arena.heap.bytes
  size_le : place.size ≤ 256
  sound : Sound model.arena free (statesBlock place.base place.size :: (place.context, 12) :: others)

/-- What the owner writes to some blocks is nothing to the allocator and nothing to the others. -/
theorem Sound.writeOwned {arena : Arena} {owned : List (Nat × Nat)}
    (h : Sound arena free (owned ++ others)) (hpos : ∀ block ∈ owned, 0 < block.2) {bytes : Bytes}
    (hlength : bytes.length = arena.heap.bytes.length)
    (hsame : ∀ x, (∀ block ∈ owned, ¬ Cover.In block x) → get bytes x = get arena.heap.bytes x) :
    Sound { arena with heap := ⟨bytes⟩ } free (owned ++ others) ∧
      Leaves others arena { arena with heap := ⟨bytes⟩ } := by
  refine ⟨h.write hlength fun x _ hnot => hsame x fun block hblock =>
      hnot block (List.mem_append_left _ hblock),
    rfl, rfl, hlength, Nat.le_refl _, fun other hother x hx => hsame x fun block hblock => ?_,
    fun x hx => hsame x fun block hblock hin => ?_⟩
  · have hperm := List.perm_cons_erase (List.mem_append_left others hblock)
    rw [List.erase_append_left _ hblock] at hperm
    exact (h.perm hperm).apart (List.mem_append_right _ hother) hx
  · have hstart := (h.fits (List.mem_append_left _ hblock) (hpos block hblock)).1
    exact absurd hin.1 (Nat.not_le.mpr (Nat.lt_of_lt_of_le hx hstart))

/-- Two blocks do not overlap. -/
theorem Sound.before_or_after {arena : Arena} {block other : Nat × Nat}
    (h : Sound arena free (block :: other :: others)) (hblock : 0 < block.2) (hother : 0 < other.2) :
    block.1 + block.2 ≤ other.1 ∨ other.1 + other.2 ≤ block.1 := by
  by_contra hnot
  have hin : Cover.In other (max block.1 other.1) := ⟨Nat.le_max_right _ _, by omega⟩
  exact h.apart List.mem_cons_self hin ⟨Nat.le_max_left _ _, by omega⟩

theorem statesBlock_pos {base size : Nat} (hsize : size ≤ 256) : 0 < (statesBlock base size).2 := by
  have hunits := classOf_units ((size + 1) / 2 - 1) (by omega)
  show 0 < 12 * classUnits (classOf ((size + 1) / 2 - 1))
  omega

/-- What is done to a context and its states. -/
theorem Shows.sound (h : Shows place m count summ states) (howned : place.Owned model free others) :
    Sound (model.withMemory m).arena free
        (statesBlock place.base place.size :: (place.context, 12) :: others) ∧
      Leaves others model.arena (model.withMemory m).arena := by
  have hfits := @statesBlock_fits place.base place.size howned.size_le
  have hpos := @statesBlock_pos place.base place.size howned.size_le
  refine @Sound.writeOwned free others model.arena
    [statesBlock place.base place.size, (place.context, 12)] howned.sound
    (List.forall_mem_cons.mpr ⟨hpos, List.forall_mem_singleton.mpr (Nat.succ_pos 11)⟩) m
    (h.length.trans (congrArg List.length howned.memory)) fun x hnot => ?_
  obtain ⟨hstates, hrest⟩ := List.forall_mem_cons.mp hnot
  have hcontext := List.forall_mem_singleton.mp hrest
  have hbase : (statesBlock place.base place.size).1 = place.base := rfl
  unfold Cover.In at hstates hcontext
  dsimp only at hcontext
  rw [← howned.memory]
  exact h.same x (by omega) (by omega)

/-- The states of a context, as the functions of the source read them. -/
structure HasStates (heap : Heap) (context : Context) (base : State) (summ : Nat)
    (states : List StateRef) : Prop where
  numStats : context.numStats heap = .ok states.length
  summFrequency : context.summFrequency heap = .ok summ
  stats : context.stats heap = .ok base
  fromState : ∀ left r right, states = left ++ r :: right →
    StateRef.fromState (base + stateSize * left.length) heap = .ok r

theorem holds_of_fromState {base : Nat} (hfits : base + 6 * states.length ≤ m.length)
    (hsmall : m.length < 2 ^ 32)
    (h : ∀ left r right, states = left ++ r :: right →
      StateRef.fromState (base + stateSize * left.length) ⟨m⟩ = .ok r) :
    Holds stateLayout m base states := by
  induction states generalizing base with
  | nil => trivial
  | cons r rest ih =>
      rw [List.length_cons, Nat.mul_succ] at hfits
      refine ⟨?_, ih (show base + 6 + 6 * rest.length ≤ _ by omega) fun left r' right hrest => ?_⟩
      · have hread := h [] r rest rfl
        rw [List.length_nil, Nat.mul_zero, Nat.add_zero, State.fromState_eq (by omega) hsmall] at hread
        exact Except.ok.inj hread
      · have hnext := h (r :: left) r' right (congrArg (r :: ·) hrest)
        rw [List.length_cons, Nat.mul_succ, Nat.add_comm _ stateSize, ← Nat.add_assoc] at hnext
        exact hnext

theorem fromState_of_holds {base : Nat} (hfits : base + 6 * states.length ≤ m.length)
    (hsmall : m.length < 2 ^ 32) (h : Holds stateLayout m base states) (left : List StateRef)
    (r : StateRef) (right : List StateRef) (hsplit : states = left ++ r :: right) :
    StateRef.fromState (base + stateSize * left.length) ⟨m⟩ = .ok r := by
  subst hsplit
  rw [List.length_append, List.length_cons] at hfits
  have hread := h.read_eq
  exact (State.fromState_eq (show base + 6 * left.length + 6 ≤ m.length by omega) hsmall).trans
    (congrArg Except.ok hread)

/-- The only state is halved until the escape frequency is gone, and keeps a frequency. -/
theorem halveSaved_run {fuel escape : Nat} {saved : StateRef} (hfuel : escape < fuel)
    (hpos : 0 < saved.frequency.toNat) :
    ∃ frequency : UInt8, 0 < frequency.toNat ∧
      halveSaved fuel saved escape = .ok { saved with frequency := frequency } := by
  induction fuel generalizing saved escape with
  | zero => exact absurd hfuel (Nat.not_lt_zero _)
  | succ fuel ih =>
      have hhalf : (saved.frequency >>> 1).toNat = saved.frequency.toNat / 2 := by
        rw [UInt8.toNat_shiftRight]
        exact Nat.shiftRight_eq_div_pow _ 1
      have hlt := UInt8.toNat_lt saved.frequency
      have hnext : 0 < (UInt8.ofNat (saved.frequency.toNat - saved.frequency.toNat / 2)).toNat := by
        rw [UInt8.toNat_ofNat', Nat.mod_eq_of_lt (by omega)]
        omega
      have hdecrement : saved.decrementFrequency (saved.frequency >>> 1) = .ok { saved with
          frequency := UInt8.ofNat (saved.frequency.toNat - saved.frequency.toNat / 2) } := by
        rw [StateRef.decrementFrequency, hhalf, checkedSub_of_le (Nat.div_le_self _ _),
          orFormatError_some, except_ok_bind]
        rfl
      rw [halveSaved, hdecrement, except_ok_bind, Nat.shiftRight_eq_div_pow]
      by_cases hstop : escape / 2 ^ 1 ≤ 1
      · rw [if_pos hstop]
        exact ⟨_, hnext, rfl⟩
      · rw [if_neg hstop]
        obtain ⟨frequency, hfrequency, hrun⟩ := @ih (escape / 2 ^ 1) { saved with
          frequency := UInt8.ofNat (saved.frequency.toNat - saved.frequency.toNat / 2) } (by omega) hnext
        exact ⟨frequency, hfrequency, hrun⟩

/-- The context keeps the only state that is left, and the block of the states is free. -/
theorem collapse_run {escape : Nat} {r : StateRef} (h : Shows place m 1 summ (r :: states))
    (howned : place.Owned model free others) (hpos : 0 < r.frequency.toNat)
    (hsuccessor : r.successor < 2 ^ 32) :
    ∃ model' free' frequency, (collapse place.context (place.at 0) place.size escape
        (model.withMemory m)).result = .ok ((), model') ∧ 0 < UInt8.toNat frequency ∧
      Sound model'.arena free' ((place.context, 12) :: others) ∧
      Leaves others model.arena model'.arena ∧ model'.orderFall = model.orderFall ∧
      Context.numStats place.context model'.arena.heap = .ok 1 ∧
      Context.oneState place.context = .ok model'.foundState ∧
      StateRef.fromState model'.foundState model'.arena.heap
        = .ok { r with frequency := frequency } := by
  obtain ⟨frequency, hfrequency, hhalve⟩ := @halveSaved_run (escape + 1) escape r (Nat.lt_succ_self _) hpos
  have hsize : 0 < place.size := by
    rw [← h.size]
    exact Nat.succ_pos _
  have hle := howned.size_le
  obtain ⟨hsound, hleaves⟩ := h.sound howned
  obtain ⟨free', arena', hfree, hsound', hleaves'⟩ :=
    hsound.freeUnits (show 0 < (place.size + 1) / 2 by omega) (by omega)
  -- The context is as it was, and then its only state is written into it.
  have hlength : arena'.heap.bytes.length = m.length := hleaves'.length
  have hfits := h.context_fits
  have hsmall := h.small
  obtain ⟨m', hset, hwithin, hread⟩ := State.setRef_run
    (show place.context + 2 + 6 ≤ arena'.heap.bytes.length by omega) (by rw [hlength]; exact hsmall)
    (show ({ r with frequency := frequency } : StateRef).successor < 2 ^ 32 from hsuccessor)
  have hcount : word 2 m' place.context = 1 := by
    rw [hwithin.word_eq (Or.inl (Nat.le_refl _)), word_congr fun x hle hlt =>
      hleaves'.blocks (place.context, 12) List.mem_cons_self x
        ⟨hle, show x < place.context + 12 by omega⟩]
    exact h.count
  obtain ⟨hsound'', hleaves''⟩ := @Sound.writeOwned free' others arena' [(place.context, 12)]
    hsound' (List.forall_mem_singleton.mpr (Nat.succ_pos 11)) m' hwithin.length fun x hnot => by
      have hout := List.forall_mem_singleton.mp hnot
      unfold Cover.In at hout
      dsimp only at hout
      exact hwithin.same x (by omega)
  have hone : Context.oneState place.context = .ok (place.context + 2) := add_of_lt (by omega) _
  have hwritten : Context.setOneState place.context { r with frequency := frequency } ⟨arena'.heap.bytes⟩
      = .ok ((), ⟨m'⟩) := by
    rw [Context.setOneState, lift_ok hone]
    exact hset
  have hunits : (place.size + 1) >>> 1 = (place.size + 1) / 2 := Nat.shiftRight_eq_div_pow _ 1
  refine ⟨{ model with arena := { arena' with heap := ⟨m'⟩ }, foundState := place.context + 2 }, free',
    frequency, ?_, hfrequency, hsound'', (hleaves.trans hleaves'.of_cons).trans hleaves'', rfl, ?_,
    hone, ?_⟩
  · have hfirst : StateRef.fromState (place.at 0) ⟨m⟩ = .ok r :=
      @Shows.fromState place m 1 summ [] states r h
    have hfree' : freeUnits (place.at 0) ((place.size + 1) / 2) (model.withMemory m).arena
        = .ok ((), arena') := hfree
    rw [collapse, onStates_read_bind hfirst, ofExcept_bind hhalve,
      onStates_read_bind h.stats_eq, ofExcept_bind (add_of_lt (by omega) _), hunits,
      onArena_bind hfree']
    refine (@onStates_bind arena'.heap.bytes m' { model with arena := arena' } _ _ _ _ _
      hwritten).trans ?_
    rw [ofExcept_bind hone]
    rfl
  · exact (Context.numStats_eq (show place.context + 12 ≤ m'.length by rw [hwithin.length]; omega)
      (by rw [hwithin.length]; omega)).trans (congrArg Except.ok hcount)
  · exact (State.fromState_eq (show place.context + 2 + 6 ≤ m'.length by rw [hwithin.length]; omega)
      (by rw [hwithin.length]; omega)).trans (congrArg Except.ok hread)

/-- The states that are left may move to a smaller block. -/
theorem shrink_run {kept dropped : List StateRef}
    (h : Shows place m kept.length summ (kept ++ dropped)) (howned : place.Owned model free others)
    (hkept : 0 < kept.length) :
    ∃ arena' free' base' m', shrinkUnits place.base ((place.size + 1) / 2) ((kept.length + 1) / 2)
        (model.withMemory m).arena = .ok (base', arena') ∧
      Context.setStats place.context base' ⟨arena'.heap.bytes⟩ = .ok ((), ⟨m'⟩) ∧
      Sound { arena' with heap := ⟨m'⟩ } free'
        (statesBlock base' kept.length :: (place.context, 12) :: others) ∧
      Leaves others model.arena { arena' with heap := ⟨m'⟩ } ∧
      HasStates ⟨m'⟩ place.context base' summ kept := by
  have hle := howned.size_le
  have hsize := h.size
  rw [List.length_append] at hsize
  obtain ⟨hsound, hleaves⟩ := h.sound howned
  obtain ⟨base', free', arena', hshrink, -, hsound', hleaves', hmoved⟩ :=
    hsound.shrinkUnits (show 0 < (kept.length + 1) / 2 by omega)
      (show (kept.length + 1) / 2 ≤ (place.size + 1) / 2 by omega) (by omega)
  have hlength : arena'.heap.bytes.length = m.length := hleaves'.length
  have hfits := h.context_fits
  have hsmall := h.small
  have hblock := @statesBlock_fits base' kept.length (by omega)
  have hpos := @statesBlock_pos base' kept.length (by omega)
  have hend : base' + (statesBlock base' kept.length).2 ≤ arena'.heap.bytes.length :=
    (hsound'.fits List.mem_cons_self hpos).2.2
  have hapart := @Sound.before_or_after free' others arena' (statesBlock base' kept.length)
    (place.context, 12) hsound' hpos (Nat.succ_pos 11)
  have hbase : (statesBlock base' kept.length).1 = base' := rfl
  have hword : place.context + 4 + 4 ≤ arena'.heap.bytes.length := by omega
  have hwithin := Within.putWord hword base'
  have hlength' : (putWord 4 arena'.heap.bytes (place.context + 4) base').length = m.length :=
    length_putWord.trans hlength
  obtain ⟨hsound'', hleaves''⟩ := @Sound.writeOwned free' others arena'
    [statesBlock base' kept.length, (place.context, 12)] hsound'
    (List.forall_mem_cons.mpr ⟨hpos, List.forall_mem_singleton.mpr (Nat.succ_pos 11)⟩) _
    hwithin.length fun x hnot => by
      have hout := hnot (place.context, 12) (List.mem_cons_of_mem _ (List.mem_singleton_self _))
      unfold Cover.In at hout
      dsimp only at hout
      exact hwithin.same x (by omega)
  -- The other fields of the context are as they were.
  have hkeeps : ∀ k offset, offset + k ≤ 12 → word k arena'.heap.bytes (place.context + offset)
      = word k m (place.context + offset) := fun k offset hin => word_congr fun x hlow hhigh =>
    hleaves'.blocks (place.context, 12) List.mem_cons_self x
      ⟨Nat.le_trans (Nat.le_add_right _ _) hlow, show x < place.context + 12 by omega⟩
  have hstates : Holds stateLayout arena'.heap.bytes base' kept :=
    (holds_append.mp h.states).1.moved fun i hi => hmoved i (by
      have hlt : i < 6 * kept.length := hi
      omega)
  have hstates' := hstates.of_within hwithin (by
    show base' + 6 * kept.length ≤ _ ∨ _
    dsimp only at hapart
    omega)
  refine ⟨arena', free', base', _, hshrink, Context.setStats_eq (by omega) (by omega), hsound'',
    (hleaves.trans (hleaves'.subset fun _ hmem => List.mem_cons_of_mem _ hmem)).trans hleaves'', ?_, ?_,
    ?_, fromState_of_holds (by omega) (by omega) hstates'⟩
  · rw [Context.numStats_eq (by omega) (by omega), hwithin.word_eq (Or.inl (by omega)),
      show word 2 arena'.heap.bytes place.context = _ from hkeeps 2 0 (by decide)]
    exact congrArg Except.ok h.count
  · rw [Context.summFrequency_eq (by omega) (by omega), hwithin.word_eq (Or.inl (by omega)),
      hkeeps 2 2 (by decide), h.summ]
  · rw [Context.stats_eq (by omega) (by omega), word_putWord hword (show base' < 256 ^ 4 by omega)]

/-- Half of the escape frequency, rounded up, goes to the sum, and the found state is the first. -/
theorem finishRescale_run {kept dropped : List StateRef} {escape : Nat}
    (h : Shows place m kept.length summ (kept ++ dropped)) (howned : place.Owned model free others)
    (hkept : 0 < kept.length) (hsumm : summ + (escape - escape / 2) < 2 ^ 16) :
    ∃ model' free', (finishRescale place.context place.size escape (model.withMemory m)).result
        = .ok ((), model') ∧
      Sound model'.arena free'
        (statesBlock model'.foundState kept.length :: (place.context, 12) :: others) ∧
      Leaves others model.arena model'.arena ∧ model'.orderFall = model.orderFall ∧
      HasStates model'.arena.heap place.context model'.foundState (summ + (escape - escape / 2))
        kept := by
  have hle := howned.size_le
  have hsize := h.size
  rw [List.length_append] at hsize
  obtain ⟨m₁, hincrement, h₁⟩ := h.incrementSumm hsumm
  have hhalf : escape >>> 1 = escape / 2 := Nat.shiftRight_eq_div_pow _ 1
  have hold : (place.size + 1) >>> 1 = (place.size + 1) / 2 := Nat.shiftRight_eq_div_pow _ 1
  have hnew : (kept.length + 1) >>> 1 = (kept.length + 1) / 2 := Nat.shiftRight_eq_div_pow _ 1
  rw [finishRescale, hhalf, ofExcept_bind (sub_of_le (Nat.div_le_self _ _) _),
    onStates_bind hincrement, ofExcept_bind (add_of_lt (by omega) _),
    onStates_read_bind h₁.numStats, ofExcept_bind (add_of_lt (by omega) _), hold, hnew]
  by_cases hunits : (place.size + 1) / 2 = (kept.length + 1) / 2
  · rw [if_neg (not_not_intro hunits), onStates_read_bind h₁.stats_eq]
    obtain ⟨hsound, hleaves⟩ := h₁.sound howned
    have hblock : statesBlock place.base place.size = statesBlock place.base kept.length := by
      rw [statesBlock, statesBlock, hunits]
    have hbytes := h₁.context_fits
    have hfits := place.states_fits
    have hlength := h₁.length
    refine ⟨{ model.withMemory m₁ with foundState := place.at 0 }, free, rfl, ?_, hleaves, rfl,
      h₁.numStats, h₁.summFrequency, h₁.stats_eq, ?_⟩
    · rw [hblock] at hsound
      exact hsound
    · exact fromState_of_holds (show place.base + 6 * kept.length ≤ m₁.length by omega) h₁.small
        (holds_append.mp h₁.states).1
  · rw [if_pos hunits, onStates_read_bind h₁.stats_eq]
    obtain ⟨arena', free', base', m', hshrink, hset, hsound, hleaves, hstates⟩ :=
      shrink_run h₁ howned hkept
    refine ⟨{ model with arena := { arena' with heap := ⟨m'⟩ }, foundState := base' }, free', ?_, hsound,
      hleaves, rfl, hstates⟩
    refine (onArena_bind hshrink).trans ?_
    refine (@onStates_bind arena'.heap.bytes m' { model with arena := arena' } _ _ _ _ _ hset).trans ?_
    rw [onStates_read_bind hstates.stats]
    rfl

/-- What rescaling leaves: a context with its states, the first of them found, or one that keeps
its only state in itself. -/
inductive Rescaled (model : Model) (context : Context) (others : List (Nat × Nat)) :
    List StateRef → Prop
  | states {kept : List StateRef} {free : List (Nat × Nat)} {escape : Nat} : 2 ≤ kept.length →
      0 < escape →
      Sound model.arena free
        (statesBlock model.foundState kept.length :: (context, 12) :: others) →
      HasStates model.arena.heap context model.foundState (total kept + escape) kept →
      Rescaled model context others kept
  | collapsed {r : StateRef} {frequency : UInt8} {free : List (Nat × Nat)} : 0 < frequency.toNat →
      Sound model.arena free ((context, 12) :: others) →
      context.numStats model.arena.heap = .ok 1 → context.oneState = .ok model.foundState →
      StateRef.fromState model.foundState model.arena.heap
        = .ok { r with frequency := frequency } →
      Rescaled model context others [r]

/-- The states without a frequency are dropped. -/
theorem dropZeros_run {left zeros : List StateRef} {b : StateRef} {escape : Nat}
    (h : Shows place m place.size (total (left ++ [b])) (left ++ b :: zeros))
    (howned : place.Owned model free others) (htwo : 2 ≤ place.size) (hb : b.frequency ≠ 0)
    (hzeros : ∀ s ∈ zeros, s.frequency = 0) (hsuccessor : b.successor < 2 ^ 32)
    (htotal : total (left ++ [b]) ≤ 16896) (hpos : 0 < escape) (hescape : escape ≤ 65531) :
    ∃ model', (dropZeros place.context (place.at 0) (place.at (left.length + zeros.length)) place.size
        escape (model.withMemory m)).result = .ok ((), model') ∧
      Leaves others model.arena model'.arena ∧ model'.orderFall = model.orderFall ∧
      Rescaled model' place.context others (left ++ [b]) := by
  have hle := howned.size_le
  have hsize := h.size
  rw [List.length_append, List.length_cons] at hsize
  have hlength : (left ++ [b]).length = left.length + 1 := by rw [List.length_append]; rfl
  have hcount : countZeros place.size (place.size + 1) (place.at (left.length + zeros.length)) 0 ⟨m⟩
      = .ok (0 + zeros.length, ⟨m⟩) :=
    @countZeros_run place m place.size _ left [] b _ _ _ zeros (by rwa [List.append_nil]) hb hzeros
      (by omega) (by omega) (by omega)
  rw [Nat.zero_add] at hcount
  replace h : Shows place m place.size (total (left ++ [b])) ((left ++ [b]) ++ zeros) := by
    rw [← Shows.append_cons left b zeros]
    exact h
  rw [dropZeros, onStates_bind hcount]
  by_cases hnone : zeros = []
  · -- All states are kept.
    subst hnone
    have hkept : (left ++ [b]).length = place.size := by
      rw [hlength, ← hsize]
      rfl
    rw [if_neg (not_not_intro (show ([] : List StateRef).length = 0 from rfl))]
    obtain ⟨model', free', hrun, hsound, hleaves, horder, hstates⟩ :=
      @finishRescale_run place m _ model free others (left ++ [b]) [] escape (by rwa [hkept]) howned
        (by omega) (show total (left ++ [b]) + (escape - escape / 2) < 2 ^ 16 by omega)
    exact ⟨model', hrun, hleaves, horder, Rescaled.states (by omega)
      (show 0 < escape - escape / 2 by omega) hsound hstates⟩
  · have hsome : 0 < zeros.length := List.length_pos_of_ne_nil hnone
    obtain ⟨m', hset, h'⟩ := h.setCount (show 1 ≤ (left ++ [b]).length by omega) (by omega)
    have hleft : place.size - zeros.length = (left ++ [b]).length := by omega
    rw [if_pos (Nat.pos_iff_ne_zero.mp hsome), ofExcept_bind (add_of_lt (by omega) _),
      onStates_read_bind h.numStats, ofExcept_bind (sub_of_le (by omega) _), hleft,
      onStates_bind hset]
    by_cases hone : (left ++ [b]).length = 1
    · -- The found state is the only one left.
      obtain rfl : left = [] := List.length_eq_zero_iff.mp (by omega)
      rw [if_pos hone]
      rw [hone] at h'
      obtain ⟨model', free', frequency, hrun, hpos', hsound, hleaves, horder, hnumStats, hstate, hread⟩ :=
        @collapse_run place m' _ zeros model free others (escape + zeros.length) b h' howned
          (Nat.pos_of_ne_zero fun hzero => hb (UInt8.toNat_inj.mp hzero)) hsuccessor
      exact ⟨model', hrun, hleaves, horder, Rescaled.collapsed hpos' hsound hnumStats hstate hread⟩
    · rw [if_neg hone]
      obtain ⟨model', free', hrun, hsound, hleaves, horder, hstates⟩ :=
        finishRescale_run h' howned (show 0 < (left ++ [b]).length by omega)
          (show total (left ++ [b]) + (escape + zeros.length - (escape + zeros.length) / 2) < 2 ^ 16
            by omega)
      exact ⟨model', hrun, hleaves, horder, Rescaled.states (by omega)
        (show 0 < escape + zeros.length - (escape + zeros.length) / 2 by omega) hsound hstates⟩

/-- The found state after it is rescaled: it gains four first. -/
def StateRef.promoted (adder : Nat) (s : StateRef) : StateRef :=
  { s with frequency := UInt8.ofNat ((s.frequency.toNat + 4 + adder) / 2) }

/-- The states with half their frequency that have one left. -/
def survivors (adder : Nat) (states : List StateRef) : List StateRef :=
  (states.map (StateRef.halve adder)).filter (·.frequency ≠ 0)

theorem sublist_survivors (adder : Nat) (states : List StateRef) :
    List.Sublist ((survivors adder states).map StateRef.symbol) (states.map StateRef.symbol) := by
  have hsub : List.Sublist (survivors adder states) (states.map (StateRef.halve adder)) :=
    List.filter_sublist
  have hsymbols := hsub.map StateRef.symbol
  rw [List.map_map] at hsymbols
  exact hsymbols

/-- Those that have none left are behind them. -/
theorem Descending.survivors {adder : Nat} {states rest : List StateRef} (h : Descending states)
    (hperm : states.Perm (rest.map (StateRef.halve adder))) :
    ∃ kept zeros, states = kept ++ zeros ∧ kept.Perm (survivors adder rest) ∧
      (∀ s ∈ kept, s.frequency ≠ 0) ∧ (∀ s ∈ zeros, s.frequency = 0) ∧
      total (rest.map (StateRef.halve adder)) = total kept := by
  have hnone : ∀ s ∈ states.filter (·.frequency = 0), s.frequency = 0 := fun s hs =>
    of_decide_eq_true (List.mem_filter.mp hs).2
  have hzero : total (states.filter (·.frequency = 0)) ≤ 0 * _ :=
    total_le fun s hs => by rw [hnone s hs]; exact Nat.le_refl 0
  refine ⟨_, _, h.split, hperm.filter _, fun s hs => of_decide_eq_true (List.mem_filter.mp hs).2, hnone,
    ?_⟩
  rw [Nat.zero_mul] at hzero
  have hsplit := congrArg total h.split
  rw [total_append] at hsplit
  rw [← total_perm hperm]
  omega

theorem halvable_of_lt {adder : Nat} {found s : StateRef} (hadder : adder ≤ 1)
    (hfound : found.frequency.toNat ≤ 128) (hless : s.frequency < found.frequency)
    (hsuccessor : s.successor < 2 ^ 32) : Halvable adder (found.promoted adder) s := by
  have hlt := UInt8.lt_iff_toNat_lt.mp hless
  refine ⟨by omega, hsuccessor, UInt8.lt_iff_toNat_lt.mpr ?_⟩
  show (UInt8.ofNat ((s.frequency.toNat + adder) / 2)).toNat
    < (UInt8.ofNat ((found.frequency.toNat + 4 + adder) / 2)).toNat
  rw [UInt8.toNat_ofNat', UInt8.toNat_ofNat', Nat.mod_eq_of_lt (by omega), Nat.mod_eq_of_lt (by omega)]
  omega

/-- All frequencies are halved, and the context has those states that have one left. -/
theorem halveFrequencies_run {found : StateRef} {rest : List StateRef}
    (h : Shows place m place.size summ (found :: rest)) (howned : place.Owned model free others)
    (htwo : 2 ≤ place.size) (hfound : found.frequency.toNat ≤ 128)
    (hless : ∀ s ∈ rest, s.frequency < found.frequency)
    (hsuccessor : ∀ s ∈ found :: rest, s.successor < 2 ^ 32)
    (htotal : total (found :: rest) < summ) (hsumm : summ ≤ 65531) {adder : Nat}
    (hadder : (if model.orderFall ≠ 0 then 1 else 0) = adder) :
    ∃ model' kept, (halveFrequencies place.context (place.at 0) place.size (place.at 0)
        (model.withMemory m)).result = .ok ((), model') ∧
      Leaves others model.arena model'.arena ∧ model'.orderFall = model.orderFall ∧
      kept.Perm (survivors adder rest) ∧ Descending (found.promoted adder :: kept) ∧
      Rescaled model' place.context others (found.promoted adder :: kept) := by
  have hle := howned.size_le
  have hsize := h.size
  rw [List.length_cons] at hsize
  have hsum : total (found :: rest) = found.frequency.toNat + total rest := List.sum_cons
  rw [hsum] at htotal
  have hbit : adder ≤ 1 := by
    rw [← hadder]
    split <;> decide
  -- The found state gains four, and so does the sum.
  obtain ⟨m₁, hincrement, h₁⟩ := @Shows.incrementFrequency place m place.size summ [] rest found h 4
    (by omega)
  obtain ⟨m₂, hsumm₂, h₂⟩ := h₁.incrementSumm (show summ + 4 < 2 ^ 16 by omega)
  have hgained : (UInt8.ofNat (found.frequency.toNat + 4)).toNat = found.frequency.toNat + 4 := by
    rw [UInt8.toNat_ofNat', Nat.mod_eq_of_lt (by omega)]
  have hfrequency := @Shows.frequency place m₂ _ _ [] rest _ h₂
  have hpromoted : halved adder (UInt8.ofNat (found.frequency.toNat + 4))
      = .ok (found.promoted adder).frequency := by
    rw [halved, hgained, checkedAdd_of_lt (by omega), orFormatError_some, except_ok_bind,
      Nat.shiftRight_eq_div_pow]
    rfl
  have hvalue : (found.promoted adder).frequency.toNat = (found.frequency.toNat + 4 + adder) / 2 := by
    show (UInt8.ofNat ((found.frequency.toNat + 4 + adder) / 2)).toNat = _
    rw [UInt8.toNat_ofNat', Nat.mod_eq_of_lt (by omega)]
  obtain ⟨m₃, hset, h₃⟩ := @Shows.setFrequency place m₂ _ _ [] rest _ h₂ (found.promoted adder).frequency
  obtain ⟨m₄, hsumm₄, h₄⟩ := h₃.setSumm
    (show (found.promoted adder).frequency.toNat < 2 ^ 16 by omega)
  -- The others are halved and sorted in behind it.
  have hhalvable : ∀ s ∈ rest, Halvable adder (found.promoted adder) s := fun s hs =>
    halvable_of_lt hbit hfound (hless s hs) (hsuccessor s (List.mem_cons_of_mem _ hs))
  have hhalf : ∀ s ∈ rest.map (StateRef.halve adder), s.frequency.toNat ≤ 66 := fun s hs => by
    obtain ⟨t, ht, rfl⟩ := List.mem_map.mp hs
    have hlt := UInt8.lt_iff_toNat_lt.mp (hhalvable t ht).less
    omega
  have hhalves := total_le hhalf
  rw [List.length_map] at hhalves
  obtain ⟨m₅, rest', hrun, h₅, horder, hperm⟩ := @rescaleStates_run place m₄ place.size _ [] rest
    (found.promoted adder) (found.promoted adder) model place.size adder
    (summ + 4 - (found.frequency.toNat + 4)) [] h₄ (List.pairwise_singleton _ _) rfl hhalvable
    (by omega) (by omega) (by rw [List.length_nil]; omega)
  -- Those without a frequency are at the end.
  replace hperm : rest'.Perm (rest.map (StateRef.halve adder)) := hperm
  obtain ⟨kept, zeros, rfl, hkept, hsome, hnone, htotal'⟩ :=
    Descending.survivors (List.pairwise_cons.mp horder).2 hperm
  have hpromotedSum : total (found.promoted adder :: kept)
      = (found.promoted adder).frequency.toNat + total kept := List.sum_cons
  obtain ⟨left, b, hlast⟩ := (List.eq_nil_or_concat' (found.promoted adder :: kept)).resolve_left
    (List.cons_ne_nil _ _)
  have hmem : b ∈ found.promoted adder :: kept := by
    rw [hlast]
    exact List.mem_append_right _ (List.mem_singleton_self b)
  have hb : b.frequency ≠ 0 := by
    rcases List.mem_cons.mp hmem with rfl | hmem
    · intro hzero
      rw [hzero] at hvalue
      have hpos : (0 : UInt8).toNat = 0 := rfl
      omega
    · exact hsome b hmem
  have hbSuccessor : b.successor < 2 ^ 32 := by
    rcases List.mem_cons.mp hmem with rfl | hmem
    · exact hsuccessor found List.mem_cons_self
    · obtain ⟨t, ht, rfl⟩ := List.mem_map.mp (hperm.mem_iff.mp (List.mem_append_left zeros hmem))
      exact hsuccessor t (List.mem_cons_of_mem _ ht)
  have hmove : left.length + zeros.length = rest.length := by
    have hlength := congrArg List.length hlast
    have hlengths := hperm.length_eq
    rw [List.length_append, List.length_map] at hlengths
    rw [List.length_append, List.length_cons, List.length_singleton] at hlength
    omega
  have h₆ : Shows place m₅ place.size (total (left ++ [b])) (left ++ b :: zeros) := by
    rw [Shows.append_cons left b zeros, ← hlast, hpromotedSum, ← htotal']
    exact h₅
  obtain ⟨model', hdrop, hleaves, horderFall, hrescaled⟩ := @dropZeros_run place m₅ model free others
    left zeros b (summ + 4 - (found.frequency.toNat + 4) - total rest) h₆ howned htwo hb hnone
    hbSuccessor (by rw [← hlast, hpromotedSum]; omega) (by omega) (by omega)
  rw [← hlast] at hrescaled
  refine ⟨model', kept, ?_, hleaves, horderFall, hkept, horder.sublist ?_, hrescaled⟩
  · have hescape : summ + 4 - (UInt8.ofNat (found.frequency.toNat + 4)).toNat
        = summ + 4 - (found.frequency.toNat + 4) := by rw [hgained]
    have hremaining : place.size - 1 = rest.length := by omega
    rw [halveFrequencies, onStates_bind (show State.incrementFrequency (place.at 0) 4 ⟨m⟩ = _ from
        hincrement), onStates_bind hsumm₂, onStates_read_bind h₂.summFrequency,
      onStates_read_bind (show State.frequency (place.at 0) ⟨m₂⟩ = _ from hfrequency),
      ofExcept_bind (sub_of_le (show (UInt8.ofNat (found.frequency.toNat + 4)).toNat ≤ summ + 4 by
        omega) _), hescape, get_bind]
    dsimp only
    rw [show (if (model.withMemory m₂).orderFall ≠ 0 then 1 else 0) = adder from hadder,
      ofExcept_bind hpromoted,
      onStates_bind (show State.setFrequency (place.at 0) _ ⟨m₂⟩ = _ from hset), onStates_bind hsumm₄,
      ofExcept_bind (sub_of_le (show 1 ≤ place.size by omega) _), hremaining]
    rw [List.length_nil, Nat.zero_add, ← hmove] at hrun
    rw [← hmove]
    refine (Cursor.result_bind_ok hrun).trans ?_
    exact hdrop
  · exact (List.sublist_append_left kept zeros).cons_cons _

/-- Distinct symbols are bytes. -/
theorem length_le_of_nodup (h : (states.map StateRef.symbol).Nodup) : states.length ≤ 256 := by
  have hle := (h.map fun s t hst => UInt8.toFin_inj.mp hst : ((states.map StateRef.symbol).map
    UInt8.toFin).Nodup).length_le_card
  rwa [List.length_map, List.length_map, Fintype.card_fin] at hle

/-- The states of a context in a sound arena, and what is seen of them. -/
theorem HasStates.shows {base : Nat} (h : HasStates model.arena.heap context base summ states)
    (hsound : Sound model.arena free (statesBlock base states.length :: (context, 12) :: others))
    (hle : states.length ≤ 256) : ∃ place : Place, place.context = context ∧ place.base = base ∧
      place.Owned model free others ∧ (∀ s ∈ states, s.successor < 2 ^ 32) ∧
      Shows place model.arena.heap.bytes place.size summ states := by
  have hpos := @statesBlock_pos base states.length hle
  have hblock := @statesBlock_fits base states.length hle
  have hstates : base + (statesBlock base states.length).2 ≤ model.arena.heap.bytes.length :=
    (hsound.fits List.mem_cons_self hpos).2.2
  have hcontext : context + 12 ≤ model.arena.heap.bytes.length :=
    (hsound.fits (List.mem_cons_of_mem _ List.mem_cons_self) (Nat.succ_pos 11)).2.2
  have hapart := hsound.before_or_after hpos (Nat.succ_pos 11)
  have hsmall := hsound.lists.layout.length_lt
  have hbase : (statesBlock base states.length).1 = base := rfl
  have hholds := holds_of_fromState (by omega) hsmall h.fromState
  have hnum := (Context.numStats_eq hcontext hsmall).symm.trans h.numStats
  have hsumm := (Context.summFrequency_eq hcontext hsmall).symm.trans h.summFrequency
  have hstats := (Context.stats_eq hcontext hsmall).symm.trans h.stats
  refine ⟨⟨model.arena.heap.bytes, context, base, states.length, hcontext, by omega, by
    dsimp only at hapart
    omega, hsmall⟩, rfl, rfl, ⟨rfl, hle, hsound⟩, fun s hs => ?_, ⟨rfl, fun _ _ _ => rfl,
      Except.ok.inj hnum, Except.ok.inj hsumm, Except.ok.inj hstats, rfl, rfl, hholds⟩⟩
  obtain ⟨left, right, rfl⟩ := List.append_of_mem hs
  rw [← hholds.read_eq]
  exact word_lt 4 _ _

/-- What is added to a frequency before it is halved. -/
def Model.adder (model : Model) : Nat := if model.orderFall ≠ 0 then 1 else 0

/-- Rescaling does not fail, and the context keeps the states that have a frequency left. -/
theorem rescale_keeps {context base : Nat} {before after : List StateRef} {found : StateRef}
    (hsound : Sound model.arena free
      (statesBlock base (before ++ found :: after).length :: (context, 12) :: others))
    (hstates : HasStates model.arena.heap context base summ (before ++ found :: after))
    (htwo : 2 ≤ (before ++ found :: after).length)
    (hnodup : ((before ++ found :: after).map StateRef.symbol).Nodup)
    (hstate : model.foundState = base + stateSize * before.length)
    (hfound : found.frequency.toNat ≤ 128)
    (hless : ∀ s ∈ before ++ after, s.frequency < found.frequency)
    (htotal : total (before ++ found :: after) < summ) (hsumm : summ ≤ 65531) :
    ∃ model' kept, (rescale context model).result = .ok ((), model') ∧
      Leaves others model.arena model'.arena ∧ model'.orderFall = model.orderFall ∧
      kept.Perm (survivors model.adder (before ++ after)) ∧
      ((found.promoted model.adder :: kept).map StateRef.symbol).Nodup ∧
      Descending (found.promoted model.adder :: kept) ∧
      Rescaled model' context others (found.promoted model.adder :: kept) := by
  obtain ⟨place, rfl, rfl, howned, hsuccessor, h⟩ :=
    hstates.shows hsound (length_le_of_nodup hnodup)
  have hsize := h.size
  have hsmall := h.small
  have hle := howned.size_le
  rw [hsize] at htwo
  rw [List.length_append, List.length_cons] at hsize
  have hperm : (before ++ found :: after).Perm (found :: (before ++ after)) := List.perm_middle
  obtain ⟨m', hfront, h'⟩ := @moveToFront_run place model.arena.heap.bytes place.size summ before after
    found model (place.size + 1) place.size 0 h (by omega) (by omega) (by omega)
  rw [total_perm hperm] at htotal
  obtain ⟨model', kept, hrun, hleaves, horderFall, hkept, horder, hrescaled⟩ := halveFrequencies_run h'
    howned htwo hfound hless (fun s hs => hsuccessor s (hperm.mem_iff.mpr hs)) htotal hsumm
    (show _ = model.adder from rfl)
  refine ⟨model', kept, ?_, hleaves, horderFall, hkept, ?_, horder, hrescaled⟩
  · show ((rescale place.context) (model.withMemory model.arena.heap.bytes)).result = _
    rw [rescale, onStates_read_bind h.numStats, if_neg (Nat.not_lt.mpr htwo),
      onStates_read_bind h.stats_eq, get_bind,
      show (model.withMemory model.arena.heap.bytes).foundState = place.at before.length from hstate,
      Cursor.result_bind_ok hfront]
    exact hrun
  · have hsub := (sublist_survivors model.adder (before ++ after)).cons_cons found.symbol
    have hnodup' := (hperm.map StateRef.symbol).nodup_iff.mp hnodup
    exact ((hkept.map StateRef.symbol).cons found.symbol).nodup_iff.mpr (hnodup'.sublist hsub)

/-! ### A context for every list of states -/

theorem exists_holds {a : Nat} (hfits : a + 6 * states.length ≤ m.length) (hsmall : m.length < 2 ^ 32)
    (hsuccessor : ∀ s ∈ states, s.successor < 2 ^ 32) :
    ∃ m', Within a (6 * states.length) m m' ∧ Holds stateLayout m' a states := by
  induction states generalizing a m with
  | nil => exact ⟨m, Within.refl _ _ _, trivial⟩
  | cons r rest ih =>
      rw [List.length_cons, Nat.mul_succ] at hfits ⊢
      obtain ⟨hr, hrest⟩ := List.forall_mem_cons.mp hsuccessor
      obtain ⟨m₁, -, hwithin₁, hread⟩ := State.setRef_run (show a + 6 ≤ m.length by omega) hsmall hr
      obtain ⟨m', hwithin, hholds⟩ := @ih m₁ (a + 6) (by rw [hwithin₁.length]; omega)
        (hwithin₁.length.symm ▸ hsmall) hrest
      refine ⟨m', (hwithin₁.mono (Nat.le_refl _) (by omega)).trans (hwithin.mono (by omega) (by omega)), ?_,
        hholds⟩
      rw [← hread]
      exact stateLayout.moved m₁ m' a a fun i hi => hwithin.same (a + i) (Or.inl (by
        have hlt : i < 6 := hi
        omega))

/-- The owner of a context can give it any states. -/
theorem exists_hasStates {arena : Arena} {context base : Nat}
    (hsound : Sound arena free (statesBlock base states.length :: (context, 12) :: others))
    (hle : states.length ≤ 256) (hsumm : summ < 2 ^ 16)
    (hsuccessor : ∀ s ∈ states, s.successor < 2 ^ 32) :
    ∃ m', Sound { arena with heap := ⟨m'⟩ } free
        (statesBlock base states.length :: (context, 12) :: others) ∧
      HasStates ⟨m'⟩ context base summ states := by
  have hpos := @statesBlock_pos base states.length hle
  have hblock := @statesBlock_fits base states.length hle
  have hstates : base + (statesBlock base states.length).2 ≤ arena.heap.bytes.length :=
    (hsound.fits List.mem_cons_self hpos).2.2
  have hcontext : context + 12 ≤ arena.heap.bytes.length :=
    (hsound.fits (List.mem_cons_of_mem _ List.mem_cons_self) (Nat.succ_pos 11)).2.2
  have hapart := hsound.before_or_after hpos (Nat.succ_pos 11)
  have hbase : (statesBlock base states.length).1 = base := rfl
  dsimp only at hapart
  rw [hbase] at hapart
  have hsmall := hsound.lists.layout.length_lt
  generalize hm : arena.heap.bytes = m at *
  have h₁ := Within.putWord (show context + 2 ≤ m.length by omega) states.length
  generalize hm₁ : putWord 2 m context states.length = m₁ at h₁
  have hlength₁ := h₁.length
  have h₂ := Within.putWord (show context + 2 + 2 ≤ m₁.length by omega) summ
  generalize hm₂ : putWord 2 m₁ (context + 2) summ = m₂ at h₂
  have hlength₂ := h₂.length
  have h₃ := Within.putWord (show context + 4 + 4 ≤ m₂.length by omega) base
  generalize hm₃ : putWord 4 m₂ (context + 4) base = m₃ at h₃
  have hlength₃ := h₃.length
  obtain ⟨m', h₄, hholds⟩ := exists_holds (show base + 6 * states.length ≤ m₃.length by omega)
    (by omega) hsuccessor
  have hlength₄ := h₄.length
  refine ⟨m', ?_, ?_, ?_, ?_, fromState_of_holds (by omega) (by omega) hholds⟩
  · refine (@Sound.writeOwned free others arena [statesBlock base states.length, (context, 12)] hsound
      (List.forall_mem_cons.mpr ⟨hpos, List.forall_mem_singleton.mpr (Nat.succ_pos 11)⟩) m'
      (by rw [hm]; omega) fun x hnot => ?_).1
    have hout := hnot _ List.mem_cons_self
    have hout' := hnot (context, 12) (List.mem_cons_of_mem _ (List.mem_singleton_self _))
    unfold Cover.In at hout hout'
    dsimp only at hout'
    rw [hm, h₄.same x (by omega), h₃.same x (by omega), h₂.same x (by omega), h₁.same x (by omega)]
  · rw [Context.numStats_eq (by omega) (by omega), h₄.word_eq (by omega), h₃.word_eq (by omega),
      h₂.word_eq (by omega), ← hm₁, word_putWord (by omega) (by omega)]
  · rw [Context.summFrequency_eq (by omega) (by omega), h₄.word_eq (by omega), h₃.word_eq (by omega),
      ← hm₂, word_putWord (by omega) hsumm]
  · rw [Context.stats_eq (by omega) (by omega), h₄.word_eq (by omega), ← hm₃,
      word_putWord (by omega) (by omega)]

/-- One of four states goes, and the others are in order. -/
theorem rescale_keeps_four : ∃ context model model' kept,
    (rescale context model).result = .ok ((), model') ∧ kept.Perm [⟨0, 97, 1⟩, ⟨0, 100, 2⟩] ∧
      Descending (⟨0, 98, 64⟩ :: kept) ∧ Rescaled model' context [] (⟨0, 98, 64⟩ :: kept) := by
  have hgap : (start 2048).map (fun arena => (arena.allocator.lowUnit, arena.allocator.highUnit))
      = .ok (285, 2049) := by decide +kernel
  obtain ⟨arena, hstart, hsound, -⟩ := start_sound (show ppmdMinimumMemoryBytes ≤ 2048 by decide) (by decide)
  rw [hstart] at hgap
  obtain ⟨hlow, hhigh⟩ := Prod.mk.inj (Except.ok.inj hgap)
  have hcontext := hsound.takeHigh 12 (by decide) (by omega)
  have hstates := hcontext.takeLow 24 (by decide) (by dsimp only; omega)
  obtain ⟨m, hsound', hshown⟩ := @exists_hasStates 200 [⟨0, 97, 3⟩, ⟨0, 98, 124⟩, ⟨0, 99, 1⟩, ⟨0, 100, 5⟩]
    _ _ _ _ _ hstates (by decide) (by decide) (by decide)
  obtain ⟨model', kept, hrun, -, -, hkept, -, horder, hrescaled⟩ := @rescale_keeps 200
    ⟨_, arena.allocator.lowUnit + stateSize * [(⟨0, 97, 3⟩ : StateRef)].length, 0⟩ _ _ _ _
    [⟨0, 97, 3⟩] [⟨0, 99, 1⟩, ⟨0, 100, 5⟩] ⟨0, 98, 124⟩ hsound' hshown (by decide) (by decide) rfl
    (by decide) (by decide) (by decide) (by decide)
  have hhalves : survivors 0 ([⟨0, 97, 3⟩] ++ [⟨0, 99, 1⟩, ⟨0, 100, 5⟩]) = [⟨0, 97, 1⟩, ⟨0, 100, 2⟩] := by
    decide
  have hpromoted : StateRef.promoted 0 ⟨0, 98, 124⟩ = ⟨0, 98, 64⟩ := by decide
  replace hkept : kept.Perm (survivors 0 ([⟨0, 97, 3⟩] ++ [⟨0, 99, 1⟩, ⟨0, 100, 5⟩])) := hkept
  replace horder : Descending (StateRef.promoted 0 ⟨0, 98, 124⟩ :: kept) := horder
  replace hrescaled : Rescaled model' _ [] (StateRef.promoted 0 ⟨0, 98, 124⟩ :: kept) := hrescaled
  rw [hhalves] at hkept
  rw [hpromoted] at horder hrescaled
  exact ⟨_, _, model', kept, hrun, hkept, horder, hrescaled⟩

end blocks

end Ppmd

end Un7z
