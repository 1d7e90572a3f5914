import Regions.Proofs.Discipline

/-!
# Slots

Along every analysis, each extent in the frame sits in the slot of its own path, and the slots that
occur in results are regions of storage. Only the data at some paths, `U`, has no lifetime: for `U`
one can take the fields without references of the variables that are declared.

* `Lawful`: the invariant, on the frame and on the results;
* `DeclaresData`: the declarations of a body agree with `U`;
* `slots`: the invariant as a discipline;
* `Lawful.analyzeNode`: the analysis of a node keeps the invariant;
* `lawful_start`, `Lawful.declareParameters`: it holds when the body of a function is entered.
-/

namespace Regions

/-- The slots in an extent are regions of storage. -/
structure Extent.Slotted (extent : Extent) : Prop where
  value : extent.value.Slotted
  slot : extent.slot.Slotted

/-- The slots in a bundle are regions of storage. -/
def Bundle.Slotted (bundle : Bundle) : Prop :=
  ∀ (path : Path) (extent : Extent), bundle[path]? = some extent → extent.Slotted

namespace Flow

variable {U : Path → Prop} {env : Env} {s s' : State}

/-- An extent for a path sits in the slot of the path, has data of the path, and has some unless the
path is in `U`. -/
structure Fits (U : Path → Prop) (path : Path) (extent : Extent) : Prop where
  value : extent.value.Slotted
  slot : extent.slot = .root path .localSlot
  own : extent.value.isNone = false → extent.value.path = path ∧
    extent.value.origin = .localValue
  data : extent.value.isNone = true → U path

/-- Each extent in the frame sits in the slot of its own path, and the slots in results are regions
of storage. -/
structure Lawful (U : Path → Prop) (s : State) : Prop where
  frame : ∀ path extent, s.frame.lookup? path = some extent → Fits U path extent
  recorded : ∀ id flow, s.flowAt id = some flow → flow.bundle.Slotted

theorem Lawful.coherent (h : Lawful U s) : s.frame.Coherent :=
  fun path extent hlookup => (h.frame path extent hlookup).slot

/-- The variables that the body declares have their fields without references at paths in `U`. -/
def DeclaresData (env : Env) (U : Path → Prop) : Prop :=
  ∀ id node path value, env.node id = .ok node → node.expr = .declaration path value →
    ∀ ty fields, env.typeOf value = .ok ty → env.fields ty = .ok fields →
      ∀ field ∈ fields, field.tracked = false → U (path ++ field.path)

/-- All lifetimes that are slots are regions of storage. -/
def slots (env : Env) (U : Path → Prop) (base : Nat) : Discipline env where
  Valid := fun _ _ l => l.Slotted
  Holder := fun _ _ _ => True
  Edge := fun _ _ _ _ => True
  Named := fun _ => True
  Bare := U
  base := base
  least := 0
  valid_later := fun _ _ h => h
  edge_later := fun _ _ h => h
  edge := fun _ _ _ _ => trivial
  edge_heap := fun _ _ => trivial
  holder_of_valid := fun _ => trivial
  holder_of_edge := fun _ _ => trivial
  slotted := fun h => h
  named_of_slot := fun _ _ => trivial
  valid_none := Lifetime.slotted_none
  valid_temp := fun _ _ _ _ => Lifetime.slotted_of_origin (by simp)
  valid_region := fun _ _ _ _ _ => Lifetime.slotted_root _ _
  valid_variable := fun _ _ _ => Lifetime.slotted_root _ _
  valid_version := fun _ _ => Lifetime.slotted_of_origin (by simp)

namespace Lawful

theorem inv (h : Lawful U s) : (slots env U s.context.rebound.length).Inv none s where
  frame path extent hlookup := by
    have hfits := h.frame path extent hlookup
    exact ⟨trivial, hfits.slot, Lifetime.slotted_root _ _, hfits.value, hfits.own, hfits.data⟩
  recorded id flow hid path extent hget := ⟨(h.recorded id flow hid path extent hget).value,
      (h.recorded id flow hid path extent hget).slot⟩
  graph _ _ _ := trivial
  base := Nat.le_refl _
  least := Nat.zero_le _
  rebound entry hentry := by
    rw [slots, List.drop_length] at hentry
    cases hentry

theorem of_inv {base : Nat} (h : (slots env U base).Inv none s) : Lawful U s where
  frame path extent hlookup := by
    have hhoused := h.frame path extent hlookup
    exact ⟨hhoused.valid, hhoused.slot, hhoused.own, hhoused.bare⟩
  recorded id flow hid path extent hget := ⟨(h.recorded id flow hid path extent hget).value,
      (h.recorded id flow hid path extent hget).slot⟩

theorem of_eq (h : Lawful U s) (hframe : s'.frame = s.frame)
    (hflow : ∀ id, s'.flowAt id = s.flowAt id) : Lawful U s' :=
  ⟨fun path extent hlookup => h.frame path extent (hframe ▸ hlookup),
    fun id flow hid => h.recorded id flow (hflow id ▸ hid)⟩

theorem names (hdata : DeclaresData env U) (base : Nat) : (slots env U base).NamesVariables :=
  fun id node path value hnode hexpr => ⟨fun _ => trivial, hdata id node path value hnode hexpr⟩

theorem analyzeNode (h : Lawful U s) (hdata : DeclaresData env U) {depth : Nat}
    {position : Position} {id : NodeId} (hrun : Runs (analyzeNode env depth position id) s () s') :
    Lawful U s' :=
  .of_inv (Discipline.inv_of_analyzeNode (names hdata _) h.inv hrun)

theorem declareParameters (h : Lawful U s) (hdata : DeclaresData env U) {function : Function}
    (hparameters : ∀ parameter ∈ function.parameters, ∀ fields,
      env.fields parameter.ty = .ok fields →
      ∀ field ∈ fields, field.tracked = false → U (parameter.path ++ field.path))
    (hrun : Runs (declareParameters env function.parameters) s () s') : Lawful U s' :=
  .of_inv (Discipline.inv_of_declareParameters (names hdata _)
    (fun parameter hparameter => ⟨fun _ => trivial, hparameters parameter hparameter⟩) h.inv
      hrun)

end Lawful

theorem lawful_start (context : Context) (size : Nat) : Lawful U (.start context size) where
  frame := by
    intro path extent h
    rw [lookup?_start] at h
    cases h
  recorded := by
    intro id flow h
    rw [flowAt_start] at h
    cases h

end Flow
end Regions
